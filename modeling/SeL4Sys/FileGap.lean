import SeL4Sys.FileRuns

/-!
# Writing behind the end of a file

`syscall_lseek` sets any offset, and `syscall_writefile` then adds one block per pass, without
clearing it. A write behind the end of the file leaves zeros before it only when the bytes in
between are zero already and lie in at most one new block (`GapClean`).
-/

namespace SeL4Sys

open Bytes

variable {s : FS} {fcb : FCB} {fd : ℤ} {ino : Inode} {off a m o : ℕ}

/-! ## An offset beyond the next block -/

/-- A pass that does not reach the blocks of the file adds one block all the same. -/
theorem writeRound_overrun (hf : Formatted s) {c : ℕ} (hcount : ino.blockCount = c)
    (hc : c < maxBlocks) (hover : c < off / 1024) {str buffer : Buf} {stack : ℕ → Buf}
    {w : WriteState}
    (h : writeRound o str ((a + m : ℕ) : ℤ) stack (writeAt s ino off a buffer) = some w) :
    Formatted w.fs ∧ w.inode.blockCount = (c + 1 : ℕ) ∧ RoundEnd w off a (chunkSize off m) := by
  have hcond : (writeAt s ino off a buffer).inode.blockCount
      ≤ (writeAt s ino off a buffer).quotient := by
    show ino.blockCount ≤ ((off / 1024 : ℕ) : ℤ)
    omega
  rw [writeRound, if_pos hcond, Option.map_eq_some_iff] at h
  obtain ⟨q, halloc, hw⟩ := h
  obtain ⟨hf', hcount', -⟩ := allocBlock_count hf hcount hc halloc
  have hend := writeChunk_end hf' q.2 str off a m buffer
  rw [← hw]
  refine ⟨?_, hcount', hend⟩
  -- whatever sector the block index leads to, only the disk changes
  show Formatted ((writeBlock q.1 q.2 _ _).getD q.1)
  rw [writeBlock]
  cases blockSector q.1 q.2 _ with
  | none => exact hf'
  | some b => exact hf'.withDisk _

/-- The loop ends with fewer blocks than the bytes up to the offset need. -/
theorem writeLoop_overrun (str : Buf) (len : ℤ) (stack : ℕ → ℕ → Buf) (fuel : ℕ) :
    ∀ (s : FS) (ino : Inode) (off a m c : ℕ) (buffer : Buf), Formatted s → ino.blockCount = c →
      c < off / 1024 → 0 < m → m ≤ fuel → len = (a + m : ℕ) → off + m ≤ maxBlocks * 1024 →
      ∀ w, writeLoop o str len stack fuel (writeAt s ino off a buffer) = some w →
        ∃ c' : ℕ, w.inode.blockCount = c' ∧ c' * 1024 < off + m := by
  induction fuel with
  | zero =>
    intro s ino off a m c buffer _ _ _ hm hfuel
    omega
  | succ fuel ih =>
    intro s ino off a m c buffer hf hcount hover hm hfuel hlen hmax w hloop
    obtain ⟨hle, _⟩ := chunkSize_le off m
    have hpos := chunkSize_pos off hm
    have hstart : (writeAt s ino off a buffer).writeLen < len := by
      rw [hlen]
      show (a : ℤ) < _
      omega
    rw [writeLoop, if_pos hstart, Option.bind_eq_some_iff] at hloop
    obtain ⟨w₁, hround, hloop⟩ := hloop
    rw [hlen] at hround
    obtain ⟨hf₁, hcount₁, hend⟩ := writeRound_overrun hf hcount (by omega) hover hround
    rcases Nat.lt_or_eq_of_le hle with hmore | hdone
    · -- the block count stays behind the block index
      have hfull : chunkSize off m = 1024 - off % 1024 := by
        unfold chunkSize at hmore ⊢
        omega
      rw [hend.next hfull] at hloop
      obtain ⟨c', hc', hlt⟩ := ih w₁.fs w₁.inode (off + chunkSize off m) (a + chunkSize off m)
        (m - chunkSize off m) (c + 1) w₁.buffer hf₁ hcount₁ (by omega) (by omega) (by omega)
        (by rw [hlen]; congr 1; omega) (by omega) w hloop
      exact ⟨c', hc', by omega⟩
    · have hstop : ¬ w₁.writeLen < len := by
        rw [hend.writeLen, hlen, hdone]
        exact lt_irrefl _
      have hw : w = w₁ := by
        cases fuel with
        | zero => exact (Option.some.inj hloop).symm
        | succ fuel =>
          rw [writeLoop, if_neg hstop] at hloop
          exact (Option.some.inj hloop).symm
      rw [hw]
      exact ⟨c + 1, hcount₁, by omega⟩

/-! ## The gap -/

/-- The content of the file after a write: zeros up to the position where the file is shorter,
and the bytes from there on replaced. -/
def ByteFile.overwrite (f : ByteFile) (bytes : List UInt8) : List UInt8 :=
  f.content.take f.pos ++ List.replicate (f.pos - f.content.length) 0 ++ bytes
    ++ f.content.drop (f.pos + bytes.length)

/-- The file has this content, and its blocks hold all of it. -/
structure HasContent (s : FS) (ino : Inode) (content : List UInt8) : Prop where
  size : ino.size = content.length
  blocks : content.length ≤ ino.blocks * 1024
  content : contentOf s.disk ino = content

/-- The write succeeds and leaves the content that it should, and it changes nothing on the disk
but the blocks of the file, its inode, the block bitmaps and the header. -/
def WritesPast (s : FS) (fcb : FCB) (fd : ℤ) (bytes : List UInt8) (buffer : Buf)
    (stack : ℕ → ℕ → Buf) : Prop :=
  ∃ s' fcb', syscallWritefile s fcb fd (bufOf bytes) bytes.length buffer stack
      = some ((bytes.length : ℤ), s', fcb')
    ∧ HasContent s' (fcb.inode s') ((view s fcb).overwrite bytes)
    ∧ ChangesOnly s.superBlock.sectorNum s.disk s'.disk
        (fileRegions s.superBlock.sectorNum s'.disk (fcb.inode s') fcb.inodeOffset)

/-- The offset is in a block of the file or in the one after them, and the bytes between the end
of the file and the offset are zero: those in the last block of the file, and those in the
block that the allocator hands out next. -/
def GapClean (s : FS) (ino : Inode) (off : ℕ) : Prop :=
  off / 1024 ≤ ino.blocks ∧ ∀ p : ℕ, ino.size ≤ p → p < off → oldByte s ino p = 0

/-- The bytes before the offset are those that should be there exactly when the gap is zero. -/
theorem bytesOf_oldByte_eq_iff {size : ℕ} (hsize : ino.size = (size : ℤ))
    (hblocks : size ≤ ino.blocks * 1024) :
    bytesOf (oldByte s ino) off = (contentOf s.disk ino).take off
        ++ List.replicate (off - (contentOf s.disk ino).length) 0
      ↔ ∀ p : ℕ, ino.size ≤ p → p < off → oldByte s ino p = 0 := by
  have hlength := length_contentOf s.disk hsize
  rw [hlength]
  rcases Nat.le_total off size with hle | hge
  · -- there is no gap
    rw [take_contentOf s hsize hblocks hle, Nat.sub_eq_zero_of_le hle, List.replicate_zero,
      List.append_nil]
    refine ⟨fun _ p hp hpo => ?_, fun _ => rfl⟩
    rw [hsize] at hp
    omega
  · obtain ⟨n, rfl⟩ := Nat.exists_eq_add_of_le hge
    rw [bytesOf_add, take_contentOf s hsize hblocks le_rfl, List.take_of_length_le hlength.le,
      List.take_of_length_le (by omega), List.append_cancel_left_eq, Nat.add_sub_cancel_left,
      List.eq_replicate_iff, hsize]
    simp only [length_bytesOf, true_and]
    simp only [bytesOf, List.mem_map, List.mem_range, window_apply]
    constructor
    · intro h p hp hpo
      exact h _ ⟨p - size, by omega, by rw [show size + (p - size) = p by omega]⟩
    · rintro h _ ⟨i, hi, rfl⟩
      exact h (size + i) (by omega) (by omega)

/-! ## Seeking and writing -/

section
variable {bytes : List UInt8} {buffer : Buf} {stack : ℕ → ℕ → Buf} {size : ℕ}
  (hfd : 3 ≤ fd ∧ fd < 32) (h : FileOk s fcb) (hmode : modeCanWrite fcb.flags) (hne : bytes ≠ [])
  (hroom : RoomFor s (fcb.inode s) (off + bytes.length))
include hfd h hmode hne hroom

/-- A write that reaches at most one block behind the file. -/
theorem writesPast_iff_of_le (hk : off / 1024 ≤ (fcb.inode s).blocks) :
    WritesPast s { fcb with offset := off } fd bytes buffer stack
      ↔ ∀ p : ℕ, (fcb.inode s).size ≤ p → p < off → oldByte s (fcb.inode s) p = 0 := by
  obtain ⟨size, _, hsize, _, _, hblocks⟩ := h.nat
  have hlen : 0 < bytes.length := List.length_pos_iff.mpr hne
  obtain ⟨s', ino, hwrite, hspec, hload⟩ := syscallWritefile_spec (I := fun _ => fcb.inode s)
    (x := ()) h.formatted h.owned trivial { fcb with offset := off } h.slot rfl
    (valid_of_inuse hfd h.inuse) hmode rfl hk hlen hroom.1 hroom.2 (bufOf bytes) buffer stack
  have hcontent := hspec.contentOf_eq hsize hblocks
  rw [bytesOf_bufOf] at hcontent
  have hcount := hspec.count
  have hlength := length_contentOf s.disk hsize
  -- both contents are the old bytes, the gap, the new bytes and what is left
  have hover : (view s { fcb with offset := off }).overwrite bytes
      = (contentOf s.disk (fcb.inode s)).take off
        ++ List.replicate (off - (contentOf s.disk (fcb.inode s)).length) 0 ++ bytes
        ++ (contentOf s.disk (fcb.inode s)).drop (off + bytes.length) := by
    simp only [ByteFile.overwrite, view, FCB.inode, Int.toNat_natCast]
  rw [← bytesOf_oldByte_eq_iff hsize hblocks]
  constructor
  · rintro ⟨s₁, fcb₁, hwrite₁, hhas, _⟩
    rw [hwrite] at hwrite₁
    simp only [Option.some.injEq, Prod.mk.injEq, true_and] at hwrite₁
    have hhas := hhas.content
    rw [← hwrite₁.1, FCB.inode, hload, hcontent, hover] at hhas
    exact List.append_cancel_right (List.append_cancel_right hhas)
  · intro hgap
    have hall : contentOf s'.disk ino = (view s { fcb with offset := off }).overwrite bytes := by
      rw [hcontent, hover, hgap]
    refine ⟨s', _, hwrite, ?_, ?_⟩
    · rw [FCB.inode, hload]
      have hsize' : ino.size = ((max size (off + bytes.length) : ℕ) : ℤ) := by
        rw [hspec.size, hsize, Nat.cast_max]
      have hlength' := length_contentOf s'.disk hsize'
      refine ⟨?_, ?_, hall⟩
      · rw [← hall, hlength', hsize']
      · rw [← hall, hlength']
        omega
    · rw [FCB.inode, hload]
      exact hspec.changes

/-- A write further behind leaves a file whose blocks do not hold its content. -/
theorem not_writesPast_of_gt (hk : (fcb.inode s).blocks < off / 1024) :
    ¬ WritesPast s { fcb with offset := off } fd bytes buffer stack := by
  rintro ⟨s', fcb', hwrite, hhas, _⟩
  obtain ⟨size, _, hsize, _, _, hblocks⟩ := h.nat
  have hlen : 0 < bytes.length := List.length_pos_iff.mpr hne
  have hcount : (fcb.inode s).blockCount = (fcb.inode s).blocks :=
    (Int.toNat_of_nonneg (h.owned.count () trivial).1).symm
  have hdata : (fcb.inode s).blocks + blocksFor (fcb.inode s).blocks
      (max (fcb.inode s).blocks ((off + bytes.length + 1023) / 1024)) ≤ 1867776 :=
    h.owned.blocks_add_le h.formatted (x := ()) trivial hroom.1
  have hsub := sub_le_blocksFor (fcb.inode s).blocks
    (max (fcb.inode s).blocks ((off + bytes.length + 1023) / 1024))
  rw [syscallWritefile_eq h.formatted { fcb with offset := off } (valid_of_inuse hfd h.inuse)
    hmode rfl, Option.map_eq_some_iff] at hwrite
  obtain ⟨w, hloop, hw⟩ := hwrite
  rw [Int.toNat_natCast] at hloop
  obtain ⟨c, hc, hlt⟩ := writeLoop_overrun (bufOf bytes) bytes.length stack bytes.length s
    (fcb.inode s) off 0 bytes.length (fcb.inode s).blocks buffer h.formatted hcount hk hlen le_rfl
    (by rw [Nat.zero_add]) (by unfold maxBlocks; omega) w hloop
  -- the block count on the disk is the one in memory
  have hdisk : (fcb.inode s').blockCount = c := by
    simp only [Prod.mk.injEq, true_and] at hw
    rw [← hw.1, ← hc, FCB.inode]
    apply blockCount_loadInode_storeInode
    rw [hc]
    apply fitsInt_blockCount
    unfold maxBlocks
    omega
  have hholds := hhas.blocks
  simp only [ByteFile.overwrite, view, FCB.inode, Int.toNat_natCast, List.length_append,
    List.length_take, List.length_replicate, List.length_drop] at hholds
  rw [Inode.blocks, hdisk, Int.toNat_natCast] at hholds
  omega

/-- **Writing behind the end of a file.** After a seek to any offset, a write with blocks enough
leaves the content that it should, and changes only what is the file's, exactly when the gap is
zero already and ends at the latest in the first block after the file's. -/
theorem lseek_writesPast_iff :
    WritesPast s (syscallLseek s fcb fd off (some .seekSet)).2 fd bytes buffer stack
      ↔ GapClean s (fcb.inode s) off := by
  have hseek : (syscallLseek s fcb fd off (some .seekSet)).2 = { fcb with offset := off } := by
    rw [syscallLseek, valid_of_inuse hfd h.inuse]
    rfl
  rw [hseek, GapClean]
  rcases Nat.lt_or_ge (fcb.inode s).blocks (off / 1024) with hgt | hle
  · refine ⟨fun hw => ?_, fun hgap => absurd hgap.1 (by omega)⟩
    exact absurd hw (not_writesPast_of_gt hfd h hmode hne hroom hgt)
  · rw [writesPast_iff_of_le hfd h hmode hne hroom hle]
    exact ⟨fun hgap => ⟨hle, hgap⟩, fun hgap => hgap.2⟩

end

/-! ## The empty file on the small disk -/

/-- Its first block is filled with junk. -/
theorem oldByte_fileFS (junk : UInt8) (p : ℕ) :
    oldByte (fileFS junk) Files.emptyFile p = junk := by
  have hget : GetsFreeFor (fileFS junk) 1 := (fileFS_roomFor junk one_pos (by norm_num)).1
  obtain ⟨i, n, _, _, hb⟩ := isData_fresh (fileFS_ok junk).formatted hget one_pos
  have hempty : ¬ p < Files.emptyFile.blocks * 1024 := by
    rw [show Files.emptyFile.blocks = 0 from rfl]
    omega
  rw [oldByte, if_neg hempty, hb, fileFS, smallFS_disk, smallFS_sectorNum, dataSector, tableSector,
    descBlocks_small, storeInode_eq, patch_apply_out (by omega), if_pos (by omega)]

/-- One byte written at offset 1 of the empty file when the free blocks hold zeros. -/
theorem lseek_writesPast_iff_zeros :
    WritesPast (fileFS 0) (syscallLseek (fileFS 0) (fileFCB 0) 3 (1 : ℕ) (some .seekSet)).2 3 [9]
      (fun _ => 0) fun _ _ _ => 0 := by
  refine (lseek_writesPast_iff (by norm_num) (fileFS_ok 0) rfl (by simp) ?_).mpr ⟨?_, ?_⟩
  · rw [inode_fileFS]
    exact fileFS_roomFor 0 (by norm_num) (by simp)
  · norm_num
  · intro p _ _
    rw [inode_fileFS, oldByte_fileFS]

/-- The same write when the free blocks hold what a deleted file left there: the byte before it
is not zero. -/
theorem lseek_write_exposes_junk :
    FileOk (fileFS 7) (fileFCB 0) ∧ RoomFor (fileFS 7) ((fileFCB 0).inode (fileFS 7)) 2
      ∧ ¬ WritesPast (fileFS 7)
          (syscallLseek (fileFS 7) (fileFCB 0) 3 (1 : ℕ) (some .seekSet)).2 3 [9]
          (fun _ => 0) fun _ _ _ => 0 := by
  have hroom : RoomFor (fileFS 7) ((fileFCB 0).inode (fileFS 7)) (1 + [(9 : UInt8)].length) := by
    rw [inode_fileFS]
    exact fileFS_roomFor 7 (by simp) (by simp)
  have hfd : (3 : ℤ) ≤ 3 ∧ (3 : ℤ) < 32 := by norm_num
  refine ⟨fileFS_ok 7, hroom, fun hw => ?_⟩
  have hgap := (writesPast_iff_of_le hfd (fileFS_ok 7) rfl (by simp) hroom (by norm_num)).mp hw 0
  rw [inode_fileFS, oldByte_fileFS] at hgap
  exact absurd (hgap le_rfl one_pos) (by decide)

end SeL4Sys

import SeL4Sys.FileContent
import SeL4Sys.FileOps

/-!
# Writing a file

`Written` is what `syscall_writefile` does to the bytes of a file when the offset lies in the
blocks of the file or in the first block after them. One pass of the loop is such a write of one
block's worth of bytes, adjacent writes compose, and the loop follows by induction on the bytes
that are left.
-/

namespace SeL4Sys

open Bytes Function

variable {ι : Type*} [DecidableEq ι] {s s' s'' : FS} {P : ι → Prop} {I : ι → Inode} {x : ι}
  {o off n m : ℕ} {str : Buf} {ino ino' : Inode}

/-- The first `m` bytes of `str` have been written at byte `off` of file `x`. -/
structure Written (s s' : FS) (P : ι → Prop) (I : ι → Inode) (x : ι) (o off m : ℕ) (str : Buf)
    (ino : Inode) : Prop extends Evolved s s' P I x o ino where
  size : ino.size = max (I x).size (off + m : ℕ)
  count : ino.blocks = max (I x).blocks ((off + m + 1023) / 1024)
  bytes : ∀ i, i < m → fileByte s'.disk ino (off + i) = str i
  kept : ∀ p, p < (I x).blocks * 1024 → p < off ∨ off + m ≤ p →
    fileByte s'.disk ino p = fileByte s.disk (I x) p
  /-- The bytes between the old blocks and the offset are those of the block that was added. -/
  gap : ∀ p, (I x).blocks * 1024 ≤ p → p < off →
    fileByte s'.disk ino p = s.disk (s.fresh 0 * 512 + p % 1024)

/-- A write that ends at a block boundary and one that starts there. -/
theorem Written.trans (hf : Formatted s) (hx : P x) (h : Written s s' P I x o off n str ino)
    (h' : Written s' s'' P (update I x ino) x o (off + n) m (window str n) ino')
    (hget : GetsFreeFor s (blocksFor (I x).blocks ino'.blocks)) :
    Written s s'' P I x o off (n + m) str ino' := by
  have hsize := h'.size
  have hcount := h'.count
  have hkept := h'.kept
  rw [update_self] at hsize hcount
  simp only [update_self] at hkept
  have hcount₁ := h.count
  have hgrown := h.blocks
  have hend : off + n ≤ ino.blocks * 1024 := by omega
  refine ⟨h.toEvolved.trans hf hx h'.toEvolved hget, ?_, ?_, ?_, ?_, ?_⟩
  · rw [hsize, h.size, ← Nat.add_assoc]
    omega
  · rw [hcount, hcount₁, ← Nat.add_assoc]
    omega
  · intro i hi
    by_cases hin : i < n
    · rw [hkept (off + i) (by omega) (by omega), h.bytes i hin]
    · have := h'.bytes (i - n) (by omega)
      rwa [window_apply, show off + n + (i - n) = off + i by omega,
        show n + (i - n) = i by omega] at this
  · intro p hp hout
    have hp' : p < ino.blocks * 1024 := lt_of_lt_of_le hp (Nat.mul_le_mul_right 1024 hgrown)
    rw [hkept p hp' (by omega), h.kept p hp (by omega)]
  · intro p hp hpo
    rw [hkept p (by omega) (by omega), h.gap p hp hpo]

/-! ## One pass -/

/-- The variables of the loop when `a` bytes are written and byte `off` is next. -/
def writeAt (s : FS) (ino : Inode) (off a : ℕ) (buffer : Buf) : WriteState :=
  ⟨s, ino, off, (off / 1024 : ℕ), (off % 1024 : ℕ), a, buffer⟩

/-- What a pass that copies `n` bytes leaves in the variables. -/
structure RoundEnd (w : WriteState) (off a n : ℕ) : Prop where
  offset : w.offset = (off + n : ℕ)
  writeLen : w.writeLen = (a + n : ℕ)
  next : n = 1024 - off % 1024 → w = writeAt w.fs w.inode (off + n) (a + n) w.buffer

/-- The number of bytes that a pass copies when `m` are left. -/
def chunkSize (off m : ℕ) : ℕ := min (1024 - off % 1024) m

theorem chunkSize_pos (off : ℕ) (hm : 0 < m) : 0 < chunkSize off m := by
  have := Nat.mod_lt off (show 0 < 1024 by norm_num)
  unfold chunkSize
  omega

theorem chunkSize_le (off m : ℕ) : chunkSize off m ≤ m ∧ chunkSize off m ≤ 1024 - off % 1024 := by
  unfold chunkSize
  omega

theorem maxWriteSize_eq (hf : Formatted s) (ino : Inode) (off a m : ℕ) (buffer : Buf) :
    maxWriteSize ((a + m : ℕ) : ℤ) (writeAt s ino off a buffer) = (chunkSize off m : ℕ) := by
  have hb : ((s.superBlock.blockSize : ℕ) : ℤ) = 1024 := by rw [hf.blockSize]; rfl
  have := Nat.mod_lt off (show 0 < 1024 by norm_num)
  simp only [maxWriteSize, writeAt, chunkSize, hb]
  omega

/-- The variables after a pass, whatever the blocks are. -/
theorem writeChunk_end (hf : Formatted s) (ino : Inode) (str : Buf) (off a m : ℕ) (buffer : Buf) :
    RoundEnd (writeChunk str ((a + m : ℕ) : ℤ) (writeAt s ino off a buffer)) off a
      (chunkSize off m) := by
  have hrem := Nat.mod_lt off (show 0 < 1024 by norm_num)
  have hsize := maxWriteSize_eq hf ino off a m buffer
  refine ⟨?_, ?_, fun hn => ?_⟩
  · simp only [writeChunk, hsize]
    simp only [writeAt, Nat.cast_add]
  · simp only [writeChunk, hsize]
    simp only [writeAt, Nat.cast_add]
  · simp only [writeChunk, hsize]
    simp only [writeAt, WriteState.mk.injEq, true_and, and_true]
    omega

/-- A pass over a block that the file has. -/
theorem writeChunk_spec (hf : Formatted s) (hown : Owned s P I) (hx : P x) (hm : 0 < m)
    (hk : off / 1024 < (I x).blocks) (str : Buf) (a : ℕ) (buffer : Buf) :
    ∃ w, writeChunk str ((a + m : ℕ) : ℤ) (writeAt s (I x) off a buffer) = w
      ∧ RoundEnd w off a (chunkSize off m)
      ∧ Written s w.fs P I x o off (chunkSize off m) (window str a) w.inode := by
  have hmax : off / 1024 < maxBlocks := lt_of_lt_of_le hk (hown.blocks_le hx)
  have hlive := dataNode_live hmax hk
  have hrem := Nat.mod_lt off (show 0 < 1024 by norm_num)
  have hpos := chunkSize_pos off hm
  obtain ⟨_, hle⟩ := chunkSize_le off m
  have hsize := maxWriteSize_eq hf (I x) off a m buffer
  have hend := writeChunk_end hf (I x) str off a m buffer
  generalize chunkSize off m = n at *
  -- the block as it is read, with the bytes copied into it
  generalize hbuf : patch (patch buffer 0 1024
    (window s.disk ((dataNode (off / 1024)).sector s.disk (I x) * 512))) (off % 1024) n
    (window str a) = buf
  obtain ⟨s₁, hwrite, hspec⟩ := hown.write hf hx hk buf
  have hw : writeChunk str ((a + m : ℕ) : ℤ) (writeAt s (I x) off a buffer)
      = ⟨s₁, { I x with size := max (I x).size (off + n : ℕ) }, (off + n : ℕ),
          (off / 1024 : ℕ) + 1, 0, (a + n : ℕ), buf⟩ := by
    simp only [writeChunk, hsize]
    simp only [writeAt, Int.toNat_natCast, readBlock_eq hf hmax, Option.getD_some, hbuf, hwrite,
      Nat.cast_add]
  refine ⟨_, hw, by rwa [hw] at hend, ?_⟩
  · have hfits : (I x).Fits → FitsInt 4 (max (I x).size (off + n : ℕ)) := by
      intro hfits
      rcases max_choice (I x).size (off + n : ℕ) with hv | hv
      · rw [hv]
        exact hfits.size
      · rw [hv]
        exact hown.fits_size hf hx (by omega)
    have hev := hspec.evolved (o := o) hown hx hk hfits
    have hbyte : ∀ p, fileByte s₁.disk { I x with size := max (I x).size (off + n : ℕ) } p
        = fileByte s₁.disk (I x) p := by
      intro p
      rw [fileByte, fileByte, sector_withSize]
    refine ⟨hev, rfl, ?_, fun i hi => ?_, fun p hp hout => ?_, fun p hp hpo => ?_⟩
    · show (I x).blocks = _
      omega
    · rw [hbyte, show off + i = 1024 * (off / 1024) + (off % 1024 + i) by omega,
        hspec.fileByte_self hown hx hk (by omega), ← hbuf, patch_apply_add hi]
    · rw [hbyte]
      by_cases hpk : p / 1024 = off / 1024
      · have hself := hspec.fileByte_self hown hx hk (i := p % 1024) (by omega)
        rw [← hpk, Nat.div_add_mod] at hself
        rw [hself, ← hbuf, patch_apply_out (by omega), patch_zero_apply (by omega), window_apply,
          fileByte, hpk]
      · exact hspec.fileByte_of_ne hown hx hk hx hp fun _ => hpk
    · omega

/-- Adding a block moves none of the file's bytes, and the new block is as it was on the
disk. -/
theorem AllocSpec.fileByte_eq {b : ℕ} (h : AllocSpec s s' P I x o b ino) (hown : Owned s P I)
    (hx : P x) {p : ℕ} (hp : p < ino.blocks * 1024) :
    fileByte s'.disk ino p = if p < (I x).blocks * 1024 then fileByte s.disk (I x) p
      else s.disk (b * 512 + p % 1024) := by
  have hblocks := (h.evolved hown hx).2
  have hmax : p / 1024 < maxBlocks := by
    have := h.owned.blocks_le hx
    rw [update_self] at this
    omega
  have hlive : (dataNode (p / 1024)).Live ino.blocks := dataNode_live hmax (by omega)
  -- the block that byte `p` is in, before
  obtain ⟨a, ha, hdata, hbyte⟩ : ∃ a, (dataNode (p / 1024)).sector s'.disk ino = a
      ∧ IsData s.superBlock.sectorNum a
      ∧ s.disk (a * 512 + p % 1024) = if p < (I x).blocks * 1024 then fileByte s.disk (I x) p
          else s.disk (b * 512 + p % 1024) := by
    by_cases hold : p < (I x).blocks * 1024
    · have hlive' : (dataNode (p / 1024)).Live (I x).blocks := dataNode_live hmax (by omega)
      have hsector := h.sector x hx _ hlive'
      rw [update_self] at hsector
      exact ⟨_, hsector, hown.isData hx hlive', (if_pos hold).symm⟩
    · have hp' : p / 1024 = (I x).blocks := by omega
      exact ⟨b, by rw [hp']; exact h.new, h.isData, (if_neg hold).symm⟩
  rw [fileByte, ha, ← hbyte]
  refine (h.content a hdata fun n hn heq => ⟨p / 1024, ?_⟩).window_eq (i := p % 1024)
    (Nat.mod_lt _ (by norm_num))
  have hinj := h.owned.inj x x hx hx n (dataNode (p / 1024))
  rw [update_self] at hinj
  exact (hinj hn hlive (heq.symm.trans ha.symm)).2

/-- A pass of the loop. -/
theorem writeRound_spec (hf : Formatted s) (hown : Owned s P I) (hx : P x)
    (ho : IsSlot s.superBlock.sectorNum o) (hm : 0 < m) (hk : off / 1024 ≤ (I x).blocks)
    (hget : GetsFreeFor s (blocksFor (I x).blocks
      (max (I x).blocks ((off + chunkSize off m + 1023) / 1024))))
    (havail : (blocksFor (I x).blocks (max (I x).blocks ((off + chunkSize off m + 1023) / 1024)) : ℤ)
      ≤ s.superBlock.availBlockNum)
    (str : Buf) (a : ℕ) (buffer : Buf) (stack : ℕ → Buf) :
    ∃ w, writeRound o str ((a + m : ℕ) : ℤ) stack (writeAt s (I x) off a buffer) = some w
      ∧ RoundEnd w off a (chunkSize off m)
      ∧ Written s w.fs P I x o off (chunkSize off m) (window str a) w.inode := by
  have hcount : (I x).blockCount = (I x).blocks :=
    (Int.toNat_of_nonneg (hown.count x hx).1).symm
  have hpos := chunkSize_pos off hm
  have hle := (chunkSize_le off m).2
  have hrem := Nat.mod_lt off (show 0 < 1024 by norm_num)
  rcases Nat.lt_or_eq_of_le hk with hlt | heq
  · -- the block is there
    obtain ⟨w, hw, hend, hwritten⟩ := writeChunk_spec (o := o) hf hown hx hm hlt str a buffer
    refine ⟨w, ?_, hend, hwritten⟩
    rw [writeRound, if_neg, hw]
    show ¬ (I x).blockCount ≤ ((off / 1024 : ℕ) : ℤ)
    omega
  · -- it has to be added first
    have hnext : max (I x).blocks ((off + chunkSize off m + 1023) / 1024) = (I x).blocks + 1 := by
      omega
    rw [hnext, blocksFor_succ] at hget havail
    have hroom := hown.blocks_add_le hf hx hget
    have hc : (I x).blocks < maxBlocks := by
      unfold maxBlocks
      unfold maxData at hroom
      omega
    obtain ⟨s₁, ino₁, halloc, hspec⟩ := hown.alloc hf hx hcount hc hget ho (by exact_mod_cast havail)
      stack
    obtain ⟨hev, hblocks⟩ := hspec.evolved hown hx
    have hlast : off / 1024 < (update I x ino₁ x).blocks := by
      rw [update_self]
      omega
    have hchunk := writeChunk_spec (o := o) hspec.formatted hspec.owned hx hm hlast str a buffer
    rw [update_self] at hchunk
    obtain ⟨w, hw, hend, hwritten⟩ := hchunk
    have hcount' := hwritten.count
    have hsize' := hwritten.size
    rw [update_self] at hcount' hsize'
    have hkept := hwritten.kept
    simp only [update_self] at hkept
    have htotal : w.inode.blocks = (I x).blocks + 1 := by omega
    refine ⟨w, ?_, hend, ⟨hev.trans hf hx hwritten.toEvolved ?_, ?_, ?_, hwritten.bytes, ?_, ?_⟩⟩
    · rw [writeRound, if_pos]
      · simp only [writeAt] at hw ⊢
        rw [halloc, Option.map_some, hw]
      · show (I x).blockCount ≤ ((off / 1024 : ℕ) : ℤ)
        omega
    · rw [htotal, blocksFor_succ]
      exact hget
    · rw [hsize', hspec.size]
    · rw [htotal, hnext]
    · intro p hp hout
      have hp' : p < ino₁.blocks * 1024 :=
        lt_of_lt_of_le hp (Nat.mul_le_mul_right 1024 (by omega))
      rw [hkept p hp' hout, hspec.fileByte_eq hown hx hp', if_pos hp]
    · intro p hp hpo
      have hp' : p < ino₁.blocks * 1024 := by omega
      rw [hkept p hp' (Or.inl hpo), hspec.fileByte_eq hown hx hp', if_neg (by omega)]

/-! ## The loop -/

/-- Everything is written: the induction is on the passes, and what a pass leaves is written by
the passes that follow. -/
theorem writeLoop_spec (hx : P x) (str : Buf) (len : ℤ) (stack : ℕ → ℕ → Buf) (fuel : ℕ) :
    ∀ (s : FS) (I : ι → Inode) (off a m : ℕ) (buffer : Buf), Formatted s → Owned s P I →
      IsSlot s.superBlock.sectorNum o → off / 1024 ≤ (I x).blocks → 0 < m → m ≤ fuel →
      len = (a + m : ℕ) →
      GetsFreeFor s (blocksFor (I x).blocks (max (I x).blocks ((off + m + 1023) / 1024))) →
      (blocksFor (I x).blocks (max (I x).blocks ((off + m + 1023) / 1024)) : ℤ)
        ≤ s.superBlock.availBlockNum →
      ∃ w, writeLoop o str len stack fuel (writeAt s (I x) off a buffer) = some w
        ∧ w.offset = (off + m : ℕ) ∧ Written s w.fs P I x o off m (window str a) w.inode := by
  induction fuel with
  | zero =>
    intro s I off a m buffer _ _ _ _ hm hfuel
    omega
  | succ fuel ih =>
    intro s I off a m buffer hf hown ho hk hm hfuel hlen hget havail
    obtain ⟨hle, hle'⟩ := chunkSize_le off m
    have hpos := chunkSize_pos off hm
    -- the blocks of this pass and of those that follow
    have hsum : blocksFor (I x).blocks (max (I x).blocks ((off + m + 1023) / 1024))
        = blocksFor (I x).blocks (max (I x).blocks ((off + chunkSize off m + 1023) / 1024))
          + blocksFor (max (I x).blocks ((off + chunkSize off m + 1023) / 1024))
              (max (I x).blocks ((off + m + 1023) / 1024)) :=
      blocksFor_add (by omega) (by omega)
    rw [hsum] at hget havail
    obtain ⟨w, hround, hend, hwritten⟩ := writeRound_spec hf hown hx ho hm hk
      (hget.mono (by omega)) (by push_cast at havail; omega) str a buffer (stack fuel)
    rw [← hlen] at hround
    have hstart : (writeAt s (I x) off a buffer).writeLen < len := by
      rw [hlen]
      show (a : ℤ) < _
      omega
    rw [writeLoop, if_pos hstart, hround, Option.bind_some]
    rcases Nat.lt_or_eq_of_le hle with hmore | hdone
    · -- the block is full and the loop goes on with the next one
      have hfull : chunkSize off m = 1024 - off % 1024 := by
        unfold chunkSize at hmore ⊢
        omega
      have hcount := hwritten.count
      have hsame := hwritten.alloc
      rw [hcount] at hsame
      have hupd : update I x w.inode x = w.inode := update_self ..
      have hrest := ih w.fs (update I x w.inode) (off + chunkSize off m)
        (a + chunkSize off m) (m - chunkSize off m) w.buffer hwritten.formatted hwritten.owned
        (by rw [hwritten.sectorNum]; exact ho) (by rw [hupd]; omega) (by omega) (by omega)
        (by rw [hlen]; congr 1; omega)
      have hmax : max w.inode.blocks ((off + chunkSize off m + (m - chunkSize off m) + 1023) / 1024)
          = max (I x).blocks ((off + m + 1023) / 1024) := by
        omega
      rw [hupd, hmax, hcount, hsame.superBlock, avail_takes hf (hget.mono (by omega))] at hrest
      obtain ⟨w', hloop, hoff, hwritten'⟩ := hrest
        (hsame.getsFreeFor (takes_formatted hf _).1 hget.drop) (by push_cast at havail; omega)
      rw [← hend.next hfull] at hloop
      have hcount' := hwritten'.count
      rw [hupd] at hcount'
      rw [← window_window] at hwritten'
      have hall := hwritten.trans hf hx hwritten' (by
        rw [hcount', hmax, hsum]
        exact hget)
      rw [Nat.add_sub_cancel' hle] at hall
      refine ⟨w', hloop, ?_, hall⟩
      rw [hoff]
      congr 1
      omega
    · -- that was the last pass
      have hstop : ¬ w.writeLen < len := by
        rw [hend.writeLen, hlen, hdone]
        exact lt_irrefl _
      refine ⟨w, ?_, ?_, ?_⟩
      · cases fuel with
        | zero => rfl
        | succ fuel => rw [writeLoop, if_neg hstop]
      · rw [hend.offset, hdone]
      · rwa [hdone] at hwritten

/-- The inode is written back after the loop. -/
theorem Written.store (h : Written s s' P I x o off m str ino) (hx : P x)
    (ho : IsSlot s.superBlock.sectorNum o) (hoff : off ≤ ino.blocks * 1024) :
    Written s { s' with disk := storeInode s'.disk ino o } P I x o off m str ino := by
  have hgrown := h.blocks
  have hcount := h.count
  have hbyte := fun {p} (hp : p < ino.blocks * 1024) => h.toEvolved.fileByte_store hx ho hp
  refine ⟨h.toEvolved.store hx ho, h.size, h.count, ?_, ?_, ?_⟩
  · intro i hi
    rw [hbyte (by omega), h.bytes i hi]
  · intro p hp hout
    rw [hbyte (lt_of_lt_of_le hp (Nat.mul_le_mul_right 1024 hgrown)), h.kept p hp hout]
  · intro p hp hpo
    rw [hbyte (by omega), h.gap p hp hpo]

/-- A call that passes the checks runs the loop from the offset. -/
theorem syscallWritefile_eq (hf : Formatted s) (fcb : FCB) {fd : ℤ} (hfd : fcb.valid fd)
    (hmode : modeCanWrite fcb.flags) (hoff : fcb.offset = (off : ℤ)) (str : Buf) (len : ℤ)
    (buffer : Buf) (stack : ℕ → ℕ → Buf) :
    syscallWritefile s fcb fd str len buffer stack
      = (writeLoop fcb.inodeOffset str len stack len.toNat
          (writeAt s (loadInode s.disk fcb.inodeOffset) off 0 buffer)).map fun w =>
        (len, { w.fs with disk := storeInode w.fs.disk w.inode fcb.inodeOffset },
          { fcb with offset := w.offset }) := by
  have hstart : (⟨s, loadInode s.disk fcb.inodeOffset, fcb.offset,
      fcb.offset.tdiv s.superBlock.blockSize, fcb.offset.tmod s.superBlock.blockSize, 0, buffer⟩ :
        WriteState) = writeAt s (loadInode s.disk fcb.inodeOffset) off 0 buffer := by
    rw [hoff, hf.blockSize]
    rfl
  rw [syscallWritefile, hfd, hmode, hstart]
  simp only [Bool.not_true, Bool.or_self, Bool.false_eq_true, if_false]

/-- `syscall_writefile` of a non-empty string when there are blocks enough and the offset is in
the blocks of the file or in the first one after them. -/
theorem syscallWritefile_spec (hf : Formatted s) (hown : Owned s P I) (hx : P x) (fcb : FCB)
    (hslot : IsSlot s.superBlock.sectorNum fcb.inodeOffset)
    (hload : loadInode s.disk fcb.inodeOffset = I x) {fd : ℤ} (hfd : fcb.valid fd)
    (hmode : modeCanWrite fcb.flags) (hoff : fcb.offset = (off : ℤ))
    (hk : off / 1024 ≤ (I x).blocks) (hm : 0 < m)
    (hget : GetsFreeFor s
      (blocksFor (I x).blocks (max (I x).blocks ((off + m + 1023) / 1024))))
    (havail : (blocksFor (I x).blocks (max (I x).blocks ((off + m + 1023) / 1024)) : ℤ)
      ≤ s.superBlock.availBlockNum)
    (str buffer : Buf) (stack : ℕ → ℕ → Buf) :
    ∃ s' ino, syscallWritefile s fcb fd str m buffer stack
        = some ((m : ℤ), s', { fcb with offset := (off + m : ℕ) })
      ∧ Written s s' P I x fcb.inodeOffset off m str ino
      ∧ loadInode s'.disk fcb.inodeOffset = ino := by
  obtain ⟨w, hloop, hoffset, hwritten⟩ := writeLoop_spec hx str m stack m s I off 0 m buffer
    hf hown hslot hk hm le_rfl (by simp) hget havail
  have hcount := hwritten.count
  rw [window_zero] at hwritten
  refine ⟨_, w.inode, ?_, hwritten.store hx hslot (by omega), ?_⟩
  · rw [syscallWritefile_eq hf fcb hfd hmode hoff, hload, Int.toNat_natCast, hloop, Option.map_some,
      hoffset]
  · apply loadInode_storeInode
    apply hwritten.fits
    rw [← hload]
    exact loadInode_fits _ _

end SeL4Sys

import SeL4Sys.Offsets
import SeL4Sys.OpenRefused

/-!
# Running out of space

`syscall_writefile` and `syscall_open` stand on an assertion where the space they need is not there. The
counters of the super block decide whether it fails: a write returns exactly if the blocks that it adds
to the file, with the pointer blocks that come with them, are available when it starts, and a creation if
there is an inode, a place in the directory and a block for a new place.
-/

namespace SeL4Sys

open Bytes

/-! ## What the calls need -/

/-- The passes of the loop of `syscall_writefile` for `left` bytes, the first one from `remainder` on. -/
def passesFor (remainder left : ℤ) : ℕ :=
  if left ≤ 0 then 0 else (max 1 ((left + remainder + 1023) / 1024)).toNat

/-- The blocks that so many passes add to a file with `count` blocks: each pass whose block is past the
last one adds a block. -/
def addedBlocks (count : ℕ) (quotient : ℤ) (passes : ℕ) : ℕ :=
  if count ≤ quotient then passes else (quotient + passes - count).toNat

/-- The blocks that a write of `n` bytes adds. -/
def FCB.adds (fcb : FCB) (s : FS) (n : ℤ) : ℕ :=
  addedBlocks (fcb.inode s).blocks (fcb.offset.tdiv 1024) (passesFor (fcb.offset.tmod 1024) n)

/-- The blocks for a write are available. -/
def WriteHasSpace (s : FS) (fcb : FCB) (fd len : ℤ) : Prop :=
  fcb.valid fd = true → modeCanWrite fcb.flags = true →
    (blocksFor (fcb.inode s).blocks ((fcb.inode s).blocks + fcb.adds s len) : ℤ) ≤ s.superBlock.availBlockNum

/-- There is an inode, and the search of `allocInode` ends at a free entry, or it runs through all entries
and the blocks for one more block of entries are available. -/
def CreateHasSpace (s : FS) (father : Inode) (name : List UInt8) (buffer : Buf) : Prop :=
  name ≠ [] ∧ s.superBlock.availInodeNum ≠ 0
    ∧ match scanDir s father (stopsAlloc name) buffer with
      | .failed => False
      | .found _ j buffer => entryInode (dirEntry buffer j) = 0
      | .missing _ => (newLevels father.blocks : ℤ) + 1 ≤ s.superBlock.availBlockNum

/-- The path is there, or it is not to be created, or its directory is missing, or it can be created. -/
def OpenHasSpace (s : FS) (path : List UInt8) (mode : ℤ) (l : Locals) : Prop :=
  (readInode s l.destInode path l.lookupBuffer).ret = 0 ∨ createMode mode = false
    ∨ isDirPath path = some true ∧ isDirMode mode = false
    ∨ ∃ d, path ≠ [] ∧ getFatherPath path = some d
      ∧ ((readInode s l.fatherInode d l.fatherBuffer).ret = 0 →
        CreateHasSpace s (readInode s l.fatherInode d l.fatherBuffer).destInode (lastName path) l.dirBuffer)

/-! ## What is asked of them -/

/-- The inode on the disk describes a file into which `n` bytes were written. -/
def DescribesStored (s s' : FS) (fcb : FCB) (n : ℤ) : Prop :=
  (fcb.inode s').blockCount = ((fcb.inode s).blocks + fcb.adds s n : ℕ)
    ∧ (0 < n → fcb.offset + n < 2 ^ 31 → (fcb.inode s').size = max (fcb.inode s).size (fcb.offset + n))
    ∧ (n ≤ 0 → (fcb.inode s').size = (fcb.inode s).size)

/-- `syscall_writefile` returns: -1 with nothing changed, or the number of bytes that it has stored. -/
def WriteReported (s : FS) (fcb : FCB) (fd : ℤ) (str : Buf) (len : ℤ) (buffer : Buf)
    (stack : ℕ → ℕ → Buf) : Prop :=
  ∃ ret s' fcb', syscallWritefile s fcb fd str len buffer stack = some (ret, s', fcb')
    ∧ (ret = -1 ∧ s' = s ∧ fcb' = fcb ∨ ret ≤ len ∧ DescribesStored s s' fcb ret)

/-- `syscall_open` returns, and has changed nothing if it returns -1. -/
def OpenReported (s : FS) (path : List UInt8) (mode : ℤ) (l : Locals) : Prop :=
  ∃ ret s', syscallOpen s path mode l = some (ret, s') ∧ (ret = -1 → s' = s)

/-! ## Counting the passes -/

section count
variable {left quotient : ℤ} {c : ℕ}

/-- The first pass, and the rest from the start of a block. -/
theorem passesFor_succ (remainder : ℤ) (hleft : 0 < left) :
    passesFor remainder left = passesFor 0 (left - min (1024 - remainder) left) + 1 := by
  unfold passesFor
  rw [if_neg (by omega)]
  by_cases hmore : left ≤ 1024 - remainder
  · rw [if_pos (by omega)]
    omega
  · rw [if_neg (by omega)]
    omega

/-- A pass over a block that the file does not have. -/
theorem addedBlocks_new (h : (c : ℤ) ≤ quotient) (n : ℕ) :
    addedBlocks c quotient (n + 1) = addedBlocks (c + 1) (quotient + 1) n + 1 := by
  unfold addedBlocks
  rw [if_pos h, if_pos (by push_cast; omega)]

/-- A pass over one that it has. -/
theorem addedBlocks_old (h : ¬ (c : ℤ) ≤ quotient) (n : ℕ) :
    addedBlocks c quotient (n + 1) = addedBlocks c (quotient + 1) n := by
  unfold addedBlocks
  rw [if_neg h]
  by_cases hnext : (c : ℤ) ≤ quotient + 1
  · rw [if_pos hnext]
    omega
  · rw [if_neg hnext]
    omega

theorem addedBlocks_zero (c : ℕ) (quotient : ℤ) : addedBlocks c quotient 0 = 0 := by
  unfold addedBlocks
  split_ifs <;> omega

end count

/-! ## The counter of blocks -/

section avail
variable {s : FS} {ino : Inode} {o c : ℕ} {stack : ℕ → Buf} {q : FS × Inode}

/-- As long as the counter is not at zero every call takes one off it, whether it finds a block or not. -/
theorem availBlockNum_takes {m : ℕ} (h : (m : ℤ) ≤ s.superBlock.availBlockNum) :
    (s.takes m).superBlock.availBlockNum = s.superBlock.availBlockNum - m := by
  induction m with
  | zero => exact (sub_zero _).symm
  | succ m ih =>
    push_cast at h ⊢
    have ih := ih (by omega)
    have hne : (s.takes m).superBlock.avail .block ≠ 0 := by
      rw [SuperBlock.avail, ih]
      omega
    rw [FS.takes, FS.takeBlock, getAvailBlock, getAvail, if_neg hne, Option.map_some, Option.getD_some, taken,
      commit_superBlock]
    show (s.takes m).superBlock.availBlockNum + -1 = _
    rw [ih]
    omega

/-- `allocBlock` in numbers: it fails if the counter is too low, and takes off what it needs if not. -/
theorem allocBlock_counts (hf : Formatted s) (hcount : ino.blockCount = c) (hc : c < maxBlocks) :
    (s.superBlock.availBlockNum < (newLevels c : ℤ) + 1 → allocBlock s ino o stack = none)
      ∧ ((newLevels c : ℤ) + 1 ≤ s.superBlock.availBlockNum → ∃ q, allocBlock s ino o stack = some q
        ∧ Formatted q.1 ∧ q.2.blockCount = (c + 1 : ℕ) ∧ q.2.size = ino.size
        ∧ q.1.superBlock.availBlockNum = s.superBlock.availBlockNum - (newLevels c + 1 : ℕ)) := by
  constructor
  · intro hlt
    rw [allocBlock, hcount, calNeededPointerBlocks_eq hf hc, if_pos hlt]
  · intro hle
    have heq := allocBlock_eq (o := o) hf hcount hc hle stack
    obtain ⟨hf', hcount', -⟩ := allocBlock_count hf hcount hc heq
    refine ⟨_, heq, hf', hcount', (allocBlock_keeps heq).size, ?_⟩
    exact availBlockNum_takes (by push_cast; exact hle)

end avail

/-! ## The loop -/

section loop
variable {o : ℕ} {str : Buf} {len : ℤ} {w : WriteState} {c : ℕ}

/-- The variables of the loop, as far as the counting goes. -/
structure WriteState.Counts (w : WriteState) (c : ℕ) : Prop where
  formatted : Formatted w.fs
  count : w.inode.blockCount = c
  bound : c + w.fs.superBlock.availBlockNum < maxBlocks
  avail : 0 ≤ w.fs.superBlock.availBlockNum
  remainder : w.remainder < 1024

theorem WriteState.Counts.chunk (h : w.Counts c) (str : Buf) (len : ℤ) :
    (writeChunk str len w).Counts c ∧
      (writeChunk str len w).fs.superBlock.availBlockNum = w.fs.superBlock.availBlockNum := by
  have hfs : ∃ d, (writeChunk str len w).fs = { w.fs with disk := d } := by
    unfold writeChunk writeBlock
    cases blockSector w.fs w.inode w.quotient.toNat with
    | none => exact ⟨w.fs.disk, rfl⟩
    | some b => exact ⟨_, rfl⟩
  obtain ⟨d, hd⟩ := hfs
  refine ⟨⟨?_, h.count, ?_, ?_, by show (0 : ℤ) < 1024; norm_num⟩, ?_⟩
  · rw [hd]
    exact h.formatted.withDisk d
  · rw [hd]
    exact h.bound
  · rw [hd]
    exact h.avail
  · rw [hd]

/-- The size of a file into which `left` bytes are written from `offset` on. -/
def sizeAfter (size offset left : ℤ) : ℤ := if 0 < left then max size (offset + left) else size

theorem sizeAfter_chunk {size offset left n : ℤ} (hn : 0 < n) (hle : n ≤ left) :
    sizeAfter (max size (offset + n)) (offset + n) (left - n) = sizeAfter size offset left := by
  unfold sizeAfter
  rw [if_pos (by omega : 0 < left)]
  split_ifs <;> omega

/-- A loop that has to add `a` blocks to the file and ends with it at this size: it comes to its end if the
blocks are available, and to the failed assertion if not. -/
def LoopCounts (r : Option WriteState) (avail : ℤ) (c a : ℕ) (size : ℤ) : Prop :=
  ((blocksFor c (c + a) : ℤ) ≤ avail →
      ∃ w, r = some w ∧ w.inode.blockCount = (c + a : ℕ) ∧ w.inode.size = size)
    ∧ (avail < (blocksFor c (c + a) : ℤ) → r = none)

section
variable {r : Option WriteState} {avail size : ℤ} {a : ℕ}

theorem blocksFor_first (c a : ℕ) :
    blocksFor c (c + (a + 1)) = newLevels c + 1 + blocksFor (c + 1) (c + 1 + a) := by
  rw [blocksFor_add (Nat.le_succ c) (by omega : c + 1 ≤ c + (a + 1)), blocksFor_succ, Nat.add_right_comm c 1 a,
    Nat.add_assoc c a 1]

/-- The first block was added. -/
theorem LoopCounts.added (h : LoopCounts r (avail - (newLevels c + 1 : ℕ)) (c + 1) a size) :
    LoopCounts r avail c (a + 1) size := by
  have hfirst := blocksFor_first c a
  have hcount : c + 1 + a = c + (a + 1) := by omega
  rw [LoopCounts, hcount] at h
  rw [hcount] at hfirst
  rw [LoopCounts, hfirst]
  push_cast at h ⊢
  exact ⟨fun hle => h.1 (by omega), fun hlt => h.2 (by omega)⟩

/-- There is no first block. -/
theorem loopCounts_none (havail : avail < (newLevels c : ℤ) + 1) : LoopCounts none avail c (a + 1) size := by
  rw [LoopCounts, blocksFor_first]
  push_cast
  exact ⟨fun hle => absurd hle (by omega), fun _ => rfl⟩

end

/-- The loop in numbers. The induction is on the passes; each adds a block or has one. -/
theorem writeLoop_counts (stack : ℕ → ℕ → Buf) (n : ℕ) : ∀ (w : WriteState) (c : ℕ), w.Counts c →
    len ≤ w.writeLen + n →
    LoopCounts (writeLoop o str len stack n w) w.fs.superBlock.availBlockNum c
      (addedBlocks c w.quotient (passesFor w.remainder (len - w.writeLen)))
      (sizeAfter w.inode.size w.offset (len - w.writeLen)) := by
  have hstop : ∀ (w : WriteState) (c : ℕ), w.Counts c → len ≤ w.writeLen →
      LoopCounts (some w) w.fs.superBlock.availBlockNum c
        (addedBlocks c w.quotient (passesFor w.remainder (len - w.writeLen)))
        (sizeAfter w.inode.size w.offset (len - w.writeLen)) := by
    intro w c h hend
    have hnone : addedBlocks c w.quotient (passesFor w.remainder (len - w.writeLen)) = 0 := by
      rw [passesFor, if_pos (by omega), addedBlocks_zero]
    rw [hnone, sizeAfter, if_neg (by omega), LoopCounts, Nat.add_zero, blocksFor_self]
    exact ⟨fun _ => ⟨w, rfl, h.count, rfl⟩, fun hlt => absurd h.avail (by push_cast at hlt; omega)⟩
  induction n with
  | zero => exact fun w c h hfuel => hstop w c h (by simpa using hfuel)
  | succ n ih =>
    intro w c h hfuel
    rw [writeLoop]
    by_cases hlt : w.writeLen < len
    · rw [if_pos hlt, writeRound_eq]
      -- the passes behind one over a block that the file has
      have hafter : ∀ (v : WriteState) (k : ℕ), v.Counts k → v.quotient = w.quotient →
          v.remainder = w.remainder → v.writeLen = w.writeLen → v.offset = w.offset →
          v.inode.size = w.inode.size →
          LoopCounts (writeLoop o str len stack n (writeChunk str len v)) v.fs.superBlock.availBlockNum k
            (addedBlocks k (w.quotient + 1)
              (passesFor 0 (len - w.writeLen - min (1024 - w.remainder) (len - w.writeLen))))
            (sizeAfter w.inode.size w.offset (len - w.writeLen)) := by
        intro v k hv hquotient hremainder hwriteLen hoffset hsize
        have hrem := h.remainder
        have hm : maxWriteSize len v = min (1024 - w.remainder) (len - w.writeLen) := by
          rw [maxWriteSize, hv.formatted.blockSize, hremainder, hwriteLen]
          rfl
        have hnext : (writeChunk str len v).quotient = w.quotient + 1 := congrArg (· + 1) hquotient
        have hlen : (writeChunk str len v).writeLen = w.writeLen + maxWriteSize len v :=
          congrArg (· + maxWriteSize len v) hwriteLen
        have hleft : len - (writeChunk str len v).writeLen
            = len - w.writeLen - min (1024 - w.remainder) (len - w.writeLen) := by
          rw [hlen, hm, sub_add_eq_sub_sub]
        have hsizes : sizeAfter (writeChunk str len v).inode.size (writeChunk str len v).offset
            (len - (writeChunk str len v).writeLen)
            = sizeAfter w.inode.size w.offset (len - w.writeLen) := by
          rw [hleft, ← hm, ← hsize, ← hoffset]
          exact sizeAfter_chunk (by omega) (by omega)
        obtain ⟨hchunk, havail⟩ := hv.chunk str len
        have hloop := ih _ k hchunk (by push_cast at hfuel; omega)
        rwa [hsizes, hnext, hleft, havail] at hloop
      have hc : c < maxBlocks := by
        have := h.bound
        have := h.avail
        omega
      rw [passesFor_succ _ (by omega)]
      by_cases hnew : (c : ℤ) ≤ w.quotient
      · rw [addedBlocks_new hnew, addBlock, if_pos (by rw [h.count]; exact hnew)]
        obtain ⟨hfail, htake⟩ := @allocBlock_counts _ _ o _ (stack n) h.formatted h.count hc
        rcases lt_or_ge w.fs.superBlock.availBlockNum ((newLevels c : ℤ) + 1) with hlow | hhigh
        · rw [hfail hlow]
          exact loopCounts_none hlow
        · obtain ⟨q, hq, hf, hcount, hsize, havail⟩ := htake hhigh
          have hbound := h.bound
          have hnext : WriteState.Counts { w with fs := q.1, inode := q.2 } (c + 1) :=
            { formatted := hf
              count := hcount
              bound := by
                dsimp only
                push_cast at havail ⊢
                omega
              avail := by
                dsimp only
                push_cast at havail
                omega
              remainder := h.remainder }
          have hrest := hafter _ _ hnext rfl rfl rfl rfl hsize
          dsimp only at hrest
          rw [havail] at hrest
          rw [hq]
          exact hrest.added
      · rw [addedBlocks_old hnew, addBlock, if_neg (by rw [h.count]; exact hnew)]
        exact hafter w c h rfl rfl rfl rfl rfl
    · rw [if_neg hlt]
      exact hstop w c h (by omega)

end loop

/-! ## The call -/

section consistent
variable {s : FS}

/-- The counter of a consistent file system is at most the number of blocks. -/
theorem Consistent.availBlockNum_le (h : Consistent .block s) :
    0 ≤ s.superBlock.availBlockNum ∧ s.superBlock.availBlockNum ≤ maxData := by
  have hgroup : ∀ i ∈ Finset.range (groups s.superBlock.sectorNum),
      0 ≤ (s.groupDesc i).avail .block ∧ (s.groupDesc i).avail .block ≤ 8192 := by
    intro i hi
    rw [h.group i (Finset.mem_range.mp hi)]
    have hclear : Bitmap.clearCount (window s.disk ((s.groupDesc i).bitmap .block * 512))
        (Pool.limit .block s.superBlock.sectorNum i) ≤ 8192 :=
      (Nat.count_le _).trans (blocksOf_le _ _)
    omega
  have hsum := Finset.sum_le_card_nsmul _ _ _ fun i hi => (hgroup i hi).2
  have hpos := Finset.sum_nonneg fun i hi => (hgroup i hi).1
  have htotal : s.superBlock.availBlockNum
      = ∑ i ∈ Finset.range (groups s.superBlock.sectorNum), (s.groupDesc i).avail .block := h.total
  have hgroups := groups_le s.superBlock.sectorNum
  have hsectors := h.formatted.addressable
  rw [Finset.card_range, nsmul_eq_mul] at hsum
  rw [htotal, maxData]
  omega

theorem BlocksOk.blocks_le_maxData {ino : Inode} (hf : Formatted s) (h : BlocksOk s ino) :
    ino.blocks ≤ maxData := by
  have hown := (blocksOk_iff_owned hf).mp h
  exact hown.blocks_add_le (m := 0) (x := ()) hf trivial fun j hj => absurd hj (Nat.not_lt_zero j)

end consistent

section writefile
variable {s : FS} {fcb : FCB} (hcons : Consistent .block s) (hfile : BlocksOk s (fcb.inode s))

include hcons hfile

theorem writeStart_counts (buffer : Buf) : (writeStart s fcb buffer).Counts (fcb.inode s).blocks where
  formatted := hcons.formatted
  count := (Int.toNat_of_nonneg hfile.nonneg).symm
  bound := by
    have havail := hcons.availBlockNum_le.2
    have hblocks := hfile.blocks_le_maxData hcons.formatted
    show ((fcb.inode s).blocks : ℤ) + s.superBlock.availBlockNum < maxBlocks
    unfold maxData at havail hblocks
    rw [maxBlocks]
    omega
  avail := hcons.availBlockNum_le.1
  remainder := by
    show fcb.offset.tmod s.superBlock.blockSize < 1024
    rw [hcons.formatted.blockSize]
    exact Int.tmod_lt_of_pos _ (by norm_num)

/-- The loop of the call in numbers. -/
theorem writefile_loopCounts (str : Buf) (len : ℤ) (buffer : Buf) (stack : ℕ → ℕ → Buf) :
    LoopCounts (writeLoop fcb.inodeOffset str len stack len.toNat (writeStart s fcb buffer))
      s.superBlock.availBlockNum (fcb.inode s).blocks (fcb.adds s len)
      (sizeAfter (fcb.inode s).size fcb.offset len) := by
  have hloop := @writeLoop_counts fcb.inodeOffset str len stack len.toNat _ _
    (writeStart_counts hcons hfile buffer) (by show len ≤ 0 + _; omega)
  have hleft : len - (writeStart s fcb buffer).writeLen = len := sub_zero len
  have hquotient : (writeStart s fcb buffer).quotient = fcb.offset.tdiv 1024 := by
    rw [writeStart, hcons.formatted.blockSize]
    rfl
  have hremainder : (writeStart s fcb buffer).remainder = fcb.offset.tmod 1024 := by
    rw [writeStart, hcons.formatted.blockSize]
    rfl
  rwa [hleft, hquotient, hremainder] at hloop

/-- The inode that the call writes back. -/
theorem describesStored_of_counts {w : WriteState} {len : ℤ}
    (hspace : (blocksFor (fcb.inode s).blocks ((fcb.inode s).blocks + fcb.adds s len) : ℤ)
      ≤ s.superBlock.availBlockNum)
    (hcount : w.inode.blockCount = ((fcb.inode s).blocks + fcb.adds s len : ℕ))
    (hsize : w.inode.size = sizeAfter (fcb.inode s).size fcb.offset len) :
    DescribesStored s { w.fs with disk := storeInode w.fs.disk w.inode fcb.inodeOffset } fcb len := by
  have hadds := sub_le_blocksFor (fcb.inode s).blocks ((fcb.inode s).blocks + fcb.adds s len)
  have hbound := (writeStart_counts hcons hfile fun _ => 0).bound
  have hold : FitsInt 4 (fcb.inode s).size := (loadInode_fits s.disk fcb.inodeOffset).size
  have hstored : ∀ v, FitsInt 4 v → w.inode.size = v →
      (loadInode (storeInode w.fs.disk w.inode fcb.inodeOffset) fcb.inodeOffset).size = v := by
    intro v hfits hv
    rw [loadInode_storeInode_eq, Inode.size_decode_encode (by rwa [hv]), hv]
  refine ⟨?_, fun hpos hend => ?_, fun hle => ?_⟩
  · rw [← hcount]
    refine blockCount_loadInode_storeInode ?_
    have hlt : ((fcb.inode s).blocks : ℤ) + s.superBlock.availBlockNum < maxBlocks := hbound
    rw [hcount, FitsInt]
    rw [maxBlocks] at hlt
    omega
  · rw [sizeAfter, if_pos hpos] at hsize
    refine hstored _ ?_ hsize
    unfold FitsInt at hold ⊢
    omega
  · rw [sizeAfter, if_neg (by omega)] at hsize
    exact hstored _ hold hsize

/-- A write returns if the blocks are available, and not otherwise. -/
theorem writeReported_iff (fd : ℤ) (str : Buf) (len : ℤ) (buffer : Buf) (stack : ℕ → ℕ → Buf) :
    WriteReported s fcb fd str len buffer stack ↔ WriteHasSpace s fcb fd len := by
  unfold WriteReported WriteHasSpace syscallWritefile
  by_cases hrefused : (!fcb.valid fd || !modeCanWrite fcb.flags) = true
  · rw [if_pos hrefused]
    refine iff_of_true ⟨-1, s, fcb, rfl, Or.inl ⟨rfl, rfl, rfl⟩⟩ fun hvalid hmode => ?_
    rw [hvalid, hmode] at hrefused
    cases hrefused
  · rw [if_neg hrefused]
    obtain ⟨hreturns, hfails⟩ := writefile_loopCounts hcons hfile str len buffer stack
    rw [writeStart] at hreturns hfails
    by_cases hspace : (blocksFor (fcb.inode s).blocks ((fcb.inode s).blocks + fcb.adds s len) : ℤ)
        ≤ s.superBlock.availBlockNum
    · obtain ⟨w, hw, hcount, hsize⟩ := hreturns hspace
      rw [hw]
      exact iff_of_true ⟨_, _, _, rfl, Or.inr ⟨le_rfl,
        describesStored_of_counts hcons hfile hspace hcount hsize⟩⟩ fun _ _ => hspace
    · rw [hfails (by omega)]
      have hboth : fcb.valid fd = true ∧ modeCanWrite fcb.flags = true := by simpa using hrefused
      refine iff_of_false ?_ fun hall => hspace (hall hboth.1 hboth.2)
      rintro ⟨ret, s', fcb', hnone, -⟩
      cases hnone

end writefile

/-! ## Creating a file -/

section create
variable {s : FS} {father dest : Inode} {o destOffset : ℕ} {name : List UInt8} {type : ℤ} {b : Buf}
  {stack : ℕ → Buf}

/-- When `allocInode` creates. -/
theorem allocInode_ret_iff (hf : Formatted s) (hfather : BlocksOk s father) :
    (allocInode s father o dest destOffset name type b stack).ret = 0 ↔ CreateHasSpace s father name b := by
  have hcount : father.blockCount = father.blocks := (Int.toNat_of_nonneg hfather.nonneg).symm
  have hlt := hfather.blocks_lt hf
  have hfailed : ¬ (-1 : ℤ) = 0 := by decide
  unfold allocInode CreateHasSpace
  by_cases hname : name = []
  · rw [if_pos hname]
    exact iff_of_false hfailed fun hand => hand.1 hname
  by_cases havail : s.superBlock.availInodeNum = 0
  · rw [if_neg hname, if_pos havail]
    exact iff_of_false hfailed fun hand => hand.2.1 havail
  rw [if_neg hname, if_neg havail, and_iff_right hname, and_iff_right havail]
  cases hscan : scanDir s father (stopsAlloc name) b with
  | failed => exact iff_of_false hfailed id
  | found i j b' =>
    dsimp only
    by_cases hfree : entryInode (dirEntry b' j) = 0
    · have hi := scanDir_found_lt hscan
      rw [if_neg (not_not.mpr hfree)]
      exact iff_of_true (addEntry_ret hf havail (by omega) ..) hfree
    · rw [if_pos hfree]
      exact iff_of_false hfailed hfree
  | missing b' =>
    dsimp only
    rcases lt_or_ge s.superBlock.availBlockNum ((newLevels father.blocks : ℤ) + 1) with hlow | hhigh
    · rw [(allocBlock_counts hf hcount hlt).1 hlow]
      exact iff_of_false hfailed (by omega)
    · obtain ⟨q, hq, hf', -⟩ := (@allocBlock_counts _ _ o _ stack hf hcount hlt).2 hhigh
      rw [hq]
      refine iff_of_true (addEntry_ret hf' ?_ hlt ..) hhigh
      rw [(allocBlock_keeps hq).availInodeNum]
      exact havail

end create

/-- The inode that `syscall_open` takes for the directory of the path is one of the file system. -/
def FatherOk (s : FS) (path : List UInt8) (l : Locals) : Prop :=
  ∀ d, getFatherPath path = some d → (readInode s l.fatherInode d l.fatherBuffer).ret = 0 →
    BlocksOk s (readInode s l.fatherInode d l.fatherBuffer).destInode

section opening
variable {s : FS} {path : List UInt8} {mode : ℤ} {l : Locals}

/-- A call that returns has reported. -/
theorem openReported_of_returns {r : ℤ × FS} (h : syscallOpen s path mode l = some r) :
    OpenReported s path mode l := by
  refine ⟨r.1, r.2, h, fun hfail => ?_⟩
  rcases syscallOpen_effect h with ⟨hsame, -⟩ | ⟨-, ⟨x, hx⟩, -⟩
  · exact hsame
  · omega

/-- The end of the call, behind the lookup of the directory. -/
theorem createIn_returns_iff (hf : Formatted s) (hfather : FatherOk s path l) {d : List UInt8}
    (hd : getFatherPath path = some d) :
    (∃ r, createIn s path mode l d (lastName path) = some r)
      ↔ ((readInode s l.fatherInode d l.fatherBuffer).ret = 0 →
        CreateHasSpace s (readInode s l.fatherInode d l.fatherBuffer).destInode (lastName path) l.dirBuffer) := by
  unfold createIn
  by_cases hret : (readInode s l.fatherInode d l.fatherBuffer).ret = 0
  · rw [if_neg (not_not.mpr hret), forall_prop_of_true hret, ← allocInode_ret_iff hf (hfather d hd hret)]
    constructor
    · rintro ⟨r, h⟩
      exact (Option.ite_none_right_eq_some.mp h).1
    · intro h
      exact ⟨_, if_pos h⟩
  · rw [if_pos hret]
    exact iff_of_true ⟨_, rfl⟩ fun h => absurd h hret

/-- `syscall_open` returns if there is space for what it creates, and not otherwise. -/
theorem openReported_iff (hf : Formatted s) (hfather : FatherOk s path l) :
    OpenReported s path mode l ↔ OpenHasSpace s path mode l := by
  have hreturns : OpenReported s path mode l ↔ ∃ r, syscallOpen s path mode l = some r := by
    constructor
    · rintro ⟨ret, s', h, -⟩
      exact ⟨_, h⟩
    · rintro ⟨r, h⟩
      exact openReported_of_returns h
  rw [hreturns, OpenHasSpace]
  by_cases hfound : (readInode s l.destInode path l.lookupBuffer).ret = 0
  · rw [syscallOpen, if_pos hfound]
    exact iff_of_true ⟨_, rfl⟩ (Or.inl hfound)
  by_cases hmode : createMode mode = false
  · rw [syscallOpen, if_neg hfound, if_pos hmode]
    exact iff_of_true ⟨_, rfl⟩ (Or.inr (Or.inl hmode))
  by_cases hdir : isDirPath path = some true ∧ isDirMode mode = false
  · rw [syscallOpen, if_neg hfound, if_neg hmode, hdir.1, Option.bind_some, if_pos ⟨rfl, hdir.2⟩]
    exact iff_of_true ⟨_, rfl⟩ (Or.inr (Or.inr (Or.inl ⟨rfl, hdir.2⟩)))
  -- only now does the call look at the directory of the path
  rw [or_iff_right hfound, or_iff_right hmode, or_iff_right hdir]
  have hcreates : Creates s path mode l :=
    ⟨hfound, by simpa using hmode, fun htrue => by simpa using fun hfalse => hdir ⟨htrue, hfalse⟩⟩
  constructor
  · rintro ⟨r, h⟩
    obtain ⟨hne, d, hd, hcreate⟩ := hcreates.returns h
    exact ⟨d, hne, hd, (createIn_returns_iff hf hfather hd).mp ⟨r, hcreate⟩⟩
  · rintro ⟨d, hne, hd, hspace⟩
    rw [hcreates.open_eq hne hd]
    exact (createIn_returns_iff hf hfather hd).mpr hspace

end opening

/-- **When running out of space is reported.** In a consistent file system a write returns to its caller,
with -1 or with an inode on the disk that describes the bytes it has stored, exactly if the blocks that it
adds are available, and `syscall_open` returns, with nothing changed if it returns -1, exactly if what it
creates has space. -/
theorem space_reported_iff {s : FS} (hcons : Consistent .block s) {fcb : FCB}
    (hfile : BlocksOk s (fcb.inode s)) {path : List UInt8} {l : Locals} (hfather : FatherOk s path l)
    (fd : ℤ) (str : Buf) (len : ℤ) (buffer : Buf) (stack : ℕ → ℕ → Buf) (mode : ℤ) :
    (WriteReported s fcb fd str len buffer stack ↔ WriteHasSpace s fcb fd len)
      ∧ (OpenReported s path mode l ↔ OpenHasSpace s path mode l) :=
  ⟨writeReported_iff hcons hfile fd str len buffer stack, openReported_iff hcons.formatted hfather⟩

/-- With an empty root directory, 1025 bytes are written to the file that it is, and a file is created. -/
theorem space_reported_iff_small :
    WriteReported (dirFS 0) ⟨true, (dirFS 0).rootOffset, 0, 2⟩ 3 (fun _ => 0) 1025 (fun _ => 0) (fun _ _ _ => 0)
      ∧ OpenReported (dirFS 0) [slash, 97] 64 zeroLocals := by
  have hroot : BlocksOk (dirFS 0) (FCB.inode ⟨true, (dirFS 0).rootOffset, 0, 2⟩ (dirFS 0)) :=
    (dirFS_ok (Nat.zero_le 8)).owned.blocksOk (dirFS_blocks 0).formatted (dirFS_ok (Nat.zero_le 8)).tree.root_used
  have hfather : FatherOk (dirFS 0) [slash, 97] zeroLocals := by
    intro d hd _
    cases hd
    rw [readInode_slash]
    exact hroot
  have hblocks := dirFS_rootBlocks 0
  obtain ⟨hwrite, hopen⟩ := space_reported_iff (dirFS_blocks 0) hroot hfather 3 (fun _ => 0) 1025 (fun _ => 0)
    (fun _ _ _ => 0) 64
  constructor
  · refine hwrite.mpr fun _ _ => ?_
    unfold FCB.adds
    dsimp only [FCB.inode]
    rw [hblocks]
    decide
  · refine hopen.mpr ((openReported_iff (dirFS_blocks 0).formatted hfather).mp ?_)
    obtain ⟨x, fs, hcreates⟩ := dirFS_creates isName_a
    exact openReported_of_returns hcreates.returns

/-! ## A full disk -/

/-- The bits of all inodes and all blocks are set, and the root directory is empty. -/
def fullDisk : Disk := fun p => if 2048 ≤ p ∧ p < 4096 then 0xff else if p = 4096 then 2 else 0

def fullFS : FS := smallFS fullDisk 0 0

/-- An empty file. -/
def fullFcb : FCB := ⟨true, 4224, 0, 2⟩

theorem fullDisk_clearCount {off n : ℕ} (hoff : 2048 ≤ off) (hn : off + (n + 7) / 8 ≤ 4096) :
    Bitmap.clearCount (window fullDisk off) n = 0 := by
  have hset : ∀ i, i < n → Bitmap.bit (window fullDisk off) i = decide (i < n) := by
    intro i hi
    have hbyte : window fullDisk off (i / 8) = 0xff := if_pos (by omega)
    have hones : ∀ k, k < 8 → (0xff : UInt8).toNat.testBit k = true := by decide
    rw [Bitmap.bit, hbyte, hones _ (by omega), decide_eq_true hi]
  have := Bitmap.clearCount_of_set_below hset le_rfl
  omega

theorem fullFS_blocks : Consistent .block fullFS :=
  smallFS_consistent (by rw [fullDisk_clearCount (by norm_num) (by norm_num)]; rfl)

theorem fullFS_inodes : Consistent .inode fullFS :=
  smallFS_inode_consistent (by rw [fullDisk_clearCount (by norm_num) (by norm_num)]; rfl)

theorem fullFcb_empty : (fullFcb.inode fullFS).blockCount = 0 := by
  rw [FCB.inode, loadInode_eq]
  rfl

/-- A byte is written to the file, and a file is created in the root directory: both calls end in a failed
assertion. -/
theorem full_disk_not_reported :
    Consistent .block fullFS ∧ Consistent .inode fullFS ∧ BlocksOk fullFS (fullFcb.inode fullFS)
      ∧ syscallWritefile fullFS fullFcb 3 (fun _ => 0) 1 (fun _ => 0) (fun _ _ _ => 0) = none
      ∧ syscallOpen fullFS [slash, 97] 64 zeroLocals = none := by
  have hwrite : (syscallWritefile fullFS fullFcb 3 (fun _ => 0) 1 (fun _ => 0)
      fun _ _ _ => 0).isNone = true := by decide +kernel
  have hopen : (syscallOpen fullFS [slash, 97] 64 zeroLocals).isNone = true := by decide +kernel
  rw [Option.isNone_iff_eq_none] at hwrite hopen
  exact ⟨fullFS_blocks, fullFS_inodes, blocksOk_empty fullFS fullFcb_empty, hwrite, hopen⟩

end SeL4Sys

import SeL4Sys.AllocTheorems
import SeL4Sys.Steps

/-!
# Requests that run alone

A request whose accesses are not interrupted does what the functions of `BlockMap`, `FileOps` and
`DirOps` say: one lemma for each function of `Steps`.
-/

namespace SeL4Sys

open Bytes Bitmap Loop CString Interleave

/-! ## The accesses -/

section
variable (b : SuperBlock)

@[simp] theorem SuperBlock.fixed_blockSize : b.fixed.blockSize = b.blockSize := rfl

@[simp] theorem SuperBlock.fixed_sectorNum : b.fixed.sectorNum = b.sectorNum := rfl

@[simp] theorem SuperBlock.fixed_bound1 : b.fixed.bound1 = b.bound1 := rfl

@[simp] theorem SuperBlock.fixed_bound2 : b.fixed.bound2 = b.bound2 := rfl

@[simp] theorem SuperBlock.fixed_bound3 : b.fixed.bound3 = b.bound3 := rfl

@[simp] theorem SuperBlock.fixed_divider0 : b.fixed.divider0 = b.divider0 := rfl

@[simp] theorem SuperBlock.fixed_divider1 : b.fixed.divider1 = b.divider1 := rfl

@[simp] theorem GroupDesc.fixed_inodeTable (g : GroupDesc) : g.fixed.inodeTable = g.inodeTable := rfl

@[simp] theorem GroupDesc.fixed_bitmap (g : GroupDesc) (p : Pool) : g.fixed.bitmap p = g.bitmap p := by
  cases p <;> rfl

end

/-- The result of a function that leaves the state as it is when it fails. -/
def orKeep {α : Type} (s : FS) (r : Option (FS × α)) : FS × Option α :=
  ((r.map Prod.fst).getD s, r.map Prod.snd)

/-- A sequence of accesses that is not interrupted. -/
def Steps.alone {α : Type} (p : Steps α) (s : FS) : FS × α := p.run FsOp.exec s

namespace Steps

section
variable {α β : Type} (s : FS)

@[simp] theorem alone_pure (a : α) : (pure a : Steps α).alone s = (s, a) := rfl

/-- The second part starts in the state the first one leaves. -/
@[simp] theorem alone_bind (p : Steps α) (f : α → Steps β) :
    (p >>= f).alone s = (f (p.alone s).2).alone (p.alone s).1 := Prog.run_bind _ _ _ _

@[simp] theorem alone_map (f : α → β) (p : Steps α) :
    (f <$> p).alone s = ((p.alone s).1, f (p.alone s).2) := Prog.run_map _ _ _ _

theorem alone_ite {c : Prop} [Decidable c] (p q : Steps α) :
    (if c then p else q).alone s = if c then p.alone s else q.alone s := by
  split <;> rfl

@[simp] theorem alone_readDisk (buffer : Buf) (size num offset : ℕ) :
    (readDisk buffer size num offset).alone s = (s, SeL4Sys.readDisk s.disk buffer size num offset) :=
  rfl

@[simp] theorem alone_writeDisk (buffer : Buf) (size num offset : ℕ) :
    (writeDisk buffer size num offset).alone s
      = ({ s with disk := SeL4Sys.writeDisk s.disk buffer size num offset }, ()) := rfl

@[simp] theorem alone_sBlock : sBlock.alone s = (s, s.superBlock.fixed) := rfl

@[simp] theorem alone_gDesc (i : ℕ) : (gDesc i).alone s = (s, (s.groupDesc i).fixed) := rfl

@[simp] theorem alone_avail (p : Pool) : (avail p).alone s = (s, s.superBlock.avail p) := rfl

@[simp] theorem alone_groupAvail (p : Pool) (i : ℕ) :
    (groupAvail p i).alone s = (s, (s.groupDesc i).avail p) := rfl

@[simp] theorem alone_takeAvail (p : Pool) :
    (takeAvail p).alone s
      = ({ s with superBlock := s.superBlock.setAvail p (s.superBlock.avail p + -1) }, ()) := rfl

@[simp] theorem alone_takeGroupAvail (p : Pool) (i : ℕ) :
    (takeGroupAvail p i).alone s
      = ({ s with
            groupDesc := Function.update s.groupDesc i
              ((s.groupDesc i).setAvail p ((s.groupDesc i).avail p + -1)) }, ()) := rfl

@[simp] theorem alone_writeSuper :
    writeSuper.alone s
      = ({ s with
            disk := SeL4Sys.writeDisk s.disk s.superBlock.encode superBlockSize 1 0 }, ()) := rfl

@[simp] theorem alone_writeDescs (groupNum : ℕ) :
    (writeDescs groupNum).alone s
      = ({ s with
            disk := SeL4Sys.writeDisk s.disk (encodeDescs s.groupDesc) groupDescSize groupNum
              superBlockSize }, ()) := rfl

/-- The function goes on with the fields it has looked at. -/
@[simp] theorem alone_sBlock_bind (f : SuperBlock → Steps α) :
    (sBlock >>= f).alone s = (f s.superBlock.fixed).alone s := rfl

@[simp] theorem alone_avail_bind (p : Pool) (f : ℤ → Steps α) :
    (avail p >>= f).alone s = (f (s.superBlock.avail p)).alone s := rfl

@[simp] theorem alone_loadInode (offset : ℕ) :
    (loadInode offset).alone s = (s, SeL4Sys.loadInode s.disk offset) := rfl

@[simp] theorem alone_storeInode (inode : Inode) (offset : ℕ) :
    (storeInode inode offset).alone s
      = ({ s with disk := SeL4Sys.storeInode s.disk inode offset }, ()) := rfl

end

/-! ## The allocators -/

/-- Read without interruption, the counters give the first group with an entry. -/
theorem alone_findGroup (p : Pool) (s : FS) (n i : ℕ) :
    (findGroup p n i).alone s
      = (s, i + breakIndex n fun j => decide (1 ≤ (s.groupDesc (i + j)).avail p)) := by
  induction n generalizing i with
  | zero => rfl
  | succ n ih =>
    rw [findGroup, alone_bind, alone_groupAvail, breakIndex_succ]
    by_cases h : 1 ≤ (s.groupDesc i).avail p
    · simp [h]
    · simp only [h, if_false, Nat.add_zero, decide_false, Bool.false_eq_true]
      rw [ih (i + 1)]
      simp only [Nat.add_assoc, Nat.add_comm 1]

/-- The first byte that is not full, among those the counter of the group allows. -/
theorem alone_findByte (p : Pool) (s : FS) (i : ℕ) (bitmap : Buf) (n j : ℕ) :
    (findByte p i bitmap n j).alone s
      = (s, j + breakIndex (min n ((((s.groupDesc i).avail p + 7).tdiv 8).toNat - j)) fun k =>
          decide (bitmap (j + k) ≠ 0xff)) := by
  induction n generalizing j with
  | zero =>
    rw [Nat.zero_min]
    rfl
  | succ n ih =>
    rw [findByte, alone_bind, alone_groupAvail]
    by_cases hlt : (j : ℤ) < ((s.groupDesc i).avail p + 7).tdiv 8
    · rw [show min (n + 1) ((((s.groupDesc i).avail p + 7).tdiv 8).toNat - j)
        = min n ((((s.groupDesc i).avail p + 7).tdiv 8).toNat - (j + 1)) + 1 by omega, breakIndex_succ]
      by_cases hfull : bitmap j = 0xff
      · rw [if_pos ⟨hlt, hfull⟩, ih]
        simp [hfull, Nat.add_assoc, Nat.add_comm 1]
      · rw [if_neg (fun hand => hfull hand.2)]
        simp [hfull]
    · rw [if_neg (fun hand => hlt hand.1), show (((s.groupDesc i).avail p + 7).tdiv 8).toNat - j = 0 by omega]
      rfl

section
variable (p : Pool) (s : FS)

/-- One allocation, from the search to the writing of the bitmap. -/
theorem alone_getAvail (h : s.superBlock.avail p ≠ 0) :
    (getAvail p).alone s = (taken p s, some (searchGroup p s, searchIndex p s)) := by
  rw [getAvail, alone_sBlock_bind, alone_avail_bind, if_neg h]
  simp only [alone_bind, alone_takeAvail, alone_findGroup, alone_gDesc, alone_readDisk,
    alone_findByte, alone_takeGroupAvail, alone_writeSuper, alone_writeDescs, alone_writeDisk,
    alone_pure, Nat.zero_add, GroupDesc.fixed_bitmap, SuperBlock.fixed_blockSize,
    SuperBlock.fixed_sectorNum, Nat.sub_zero]
  -- the search is folded back from the inside out
  have hgroup : (breakIndex s.groupNum fun i => decide (1 ≤ (s.groupDesc i).avail p))
      = searchGroup p s := rfl
  have hoffset : (if searchGroup p s < s.groupNum then (s.groupDesc (searchGroup p s)).bitmap p else 0)
      = searchBitmapOffset p s := rfl
  have hbitmap : SeL4Sys.readDisk s.disk (fun _ => 0) blockBytes 1 (searchBitmapOffset p s * sectorSize)
      = searchBitmap p s := rfl
  have hend : decide (searchBitmap p s blockBytes ≠ 0xff) = true := by
    rw [searchBitmap, readDisk_eq, patch_apply_out (by norm_num)]
    decide
  have hbyte : (breakIndex
      (min (blockBytes + 1) (((s.groupDesc (searchGroup p s)).avail p + 7).tdiv 8).toNat)
      fun j => decide (searchBitmap p s j ≠ 0xff)) = searchByte p s := breakIndex_min_bound hend
  have hbit : (breakIndex 8 fun k =>
      decide (((searchBitmap p s (searchByte p s)).toNat >>> (7 - k)) % 2 = 0)) = searchBit p s := rfl
  rw [FS.groupNum] at hgroup hoffset
  simp only [hgroup, hoffset, hbitmap, hbyte, hbit]
  rfl

/-- With the counter at zero nothing is read or written. -/
theorem alone_getAvail_none (h : s.superBlock.avail p = 0) : (getAvail p).alone s = (s, none) := by
  rw [getAvail, alone_sBlock_bind, alone_avail_bind, if_pos h, alone_pure]

/-- The address is computed from the place of the entry. A refused allocation leaves the state as it is. -/
theorem alone_getAvail_bind {f : Option (ℕ × ℕ) → Steps (Option ℕ)} {address : ℕ}
    (hnone : f none = pure none)
    (hsome : (f (some (searchGroup p s, searchIndex p s))).alone (taken p s) = (taken p s, some address)) :
    (getAvail p >>= f).alone s = orKeep s ((SeL4Sys.getAvail p s).map fun s' => (s', address)) := by
  rw [alone_bind, SeL4Sys.getAvail]
  by_cases h : s.superBlock.avail p = 0
  · rw [alone_getAvail_none _ _ h, if_pos h]
    dsimp only
    rw [hnone]
    rfl
  · rw [alone_getAvail _ _ h, if_neg h]
    exact hsome

end

section
variable {α : Type} (s : FS)

/-- A block is taken from the bitmap, and its sector follows from the table of the group. -/
theorem alone_getAvailBlock (blockOffset : ℕ) :
    (getAvailBlock blockOffset).alone s = orKeep s (SeL4Sys.getAvailBlock s blockOffset) := by
  rw [getAvailBlock, alone_sBlock_bind]
  refine alone_getAvail_bind .block s rfl ?_
  dsimp only
  rw [alone_bind, alone_gDesc, GroupDesc.fixed_inodeTable, taken, commit_inodeTable]
  rfl

/-- An inode is taken as a block is, and refused in the same way. -/
theorem alone_getAvailInode : getAvailInode.alone s = orKeep s (SeL4Sys.getAvailInode s) := by
  rw [getAvailInode, alone_sBlock_bind]
  refine alone_getAvail_bind .inode s rfl ?_
  dsimp only
  rw [alone_bind, alone_gDesc, GroupDesc.fixed_inodeTable, taken, commit_inodeTable]
  rfl

/-- The callers that ignore a refusal. -/
@[simp] theorem alone_takeBlock : takeBlock.alone s = s.takeBlock := by
  rw [takeBlock, alone_bind, alone_getAvailBlock, FS.takeBlock]
  cases SeL4Sys.getAvailBlock s 0 <;> rfl

/-! ## The blocks of a file -/

@[simp] theorem alone_readPointers (sector : ℕ) :
    (readPointers sector).alone s = (s, s.readPointers sector) := rfl

@[simp] theorem alone_writeSectors (sector : ℕ) (buffer : Buf) :
    (writeSectors sector buffer).alone s = (s.writeSectors sector buffer, ()) := rfl

@[simp] theorem alone_finishAlloc (inode : Inode) (inodeOffset : ℕ) :
    (finishAlloc inode inodeOffset).alone s = SeL4Sys.finishAlloc s inode inodeOffset := rfl

/-- The descent looks at none of the counters. -/
theorem blockSector_fixed (inode : Inode) (blockIndex : ℕ) :
    SeL4Sys.blockSector s inode blockIndex
      = SeL4Sys.blockSector { s with superBlock := s.superBlock.fixed } inode blockIndex := rfl

/-- The descent through the pointer blocks writes nothing. -/
theorem alone_blockSector (inode : Inode) (blockIndex : ℕ) :
    (blockSector inode blockIndex).alone s = (s, SeL4Sys.blockSector s inode blockIndex) := by
  rw [blockSector, alone_sBlock_bind, blockSector_fixed, SeL4Sys.blockSector]
  dsimp only
  split_ifs <;> simp only [alone_bind, alone_readPointers, alone_pure] <;> rfl

/-- Nothing is read where there is no such block. -/
theorem alone_readBlock (inode : Inode) (blockIndex : ℕ) (buffer : Buf) :
    (readBlock inode blockIndex buffer).alone s = (s, SeL4Sys.readBlock s inode blockIndex buffer) := by
  rw [readBlock, alone_bind, alone_blockSector, SeL4Sys.readBlock]
  cases SeL4Sys.blockSector s inode blockIndex <;> rfl

/-- `writeBlock` returns whether there is such a block. -/
theorem alone_writeBlock (inode : Inode) (blockIndex : ℕ) (buffer : Buf) :
    (writeBlock inode blockIndex buffer).alone s
      = ((SeL4Sys.writeBlock s inode blockIndex buffer).getD s,
          (SeL4Sys.writeBlock s inode blockIndex buffer).isSome) := by
  rw [writeBlock, alone_bind, alone_blockSector, SeL4Sys.writeBlock]
  cases SeL4Sys.blockSector s inode blockIndex <;> rfl

/-- A branch on a condition that reads the same in the state. -/
theorem alone_ite_orKeep {c c' : Prop} [Decidable c] [Decidable c'] (hc : c ↔ c')
    {p q : Steps (Option α)} {x y : Option (FS × α)} (hq : q.alone s = orKeep s y)
    (hp : p.alone s = orKeep s x) :
    (if c then p else q).alone s = orKeep s (if c' then x else y) := by
  by_cases h : c
  · rw [if_pos h, if_pos (hc.mp h), hp]
  · rw [if_neg h, if_neg (fun h' => h (hc.mpr h')), hq]

/-- Branch by branch, each with the pointer blocks it takes or reads. -/
theorem alone_allocLastBlock (inode : Inode) (inodeOffset blockOffset : ℕ) (stack : ℕ → Buf) :
    (allocLastBlock inode inodeOffset blockOffset stack).alone s
      = orKeep s (SeL4Sys.allocLastBlock s inode inodeOffset blockOffset stack) := by
  rw [allocLastBlock, alone_sBlock_bind, SeL4Sys.allocLastBlock]
  dsimp only
  iterate 10 apply alone_ite_orKeep s (by exact Iff.rfl)
  all_goals
    simp only [alone_bind, alone_map, alone_takeBlock, alone_readPointers, alone_writeSectors,
      alone_finishAlloc, alone_pure]
    rfl

/-- The counter that is tested is the one of the state. -/
theorem alone_allocBlock (inode : Inode) (inodeOffset : ℕ) (stack : ℕ → Buf) :
    (allocBlock inode inodeOffset stack).alone s
      = orKeep s (SeL4Sys.allocBlock s inode inodeOffset stack) := by
  rw [allocBlock, alone_sBlock_bind, alone_avail_bind, SeL4Sys.allocBlock]
  by_cases h : s.superBlock.availBlockNum < calNeededPointerBlocks s.superBlock inode.blockCount + 1
  · have h' : s.superBlock.avail .block
        < calNeededPointerBlocks s.superBlock.fixed inode.blockCount + 1 := h
    rw [if_pos h, if_pos h']
    rfl
  · have h' : ¬ s.superBlock.avail .block
        < calNeededPointerBlocks s.superBlock.fixed inode.blockCount + 1 := h
    rw [if_neg h, if_neg h', alone_bind, alone_takeBlock, alone_bind, alone_allocLastBlock]
    dsimp only
    cases SeL4Sys.allocLastBlock s.takeBlock.1 inode inodeOffset s.takeBlock.2 stack <;> rfl

end

/-! ## Writing a file -/

/-- The variables of the loop, together with the state. -/
def WriteVars.inState (v : WriteVars) (s : FS) : WriteState where
  fs := s
  inode := v.inode
  offset := v.offset
  quotient := v.quotient
  remainder := v.remainder
  writeLen := v.writeLen
  buffer := v.buffer

/-- The variables of the loop alone. -/
def WriteVars.of (w : WriteState) : WriteVars where
  inode := w.inode
  offset := w.offset
  quotient := w.quotient
  remainder := w.remainder
  writeLen := w.writeLen
  buffer := w.buffer

/-- A function that may be stopped by an assertion ends in the same way, and in the same state
when it is not stopped. -/
structure Ends {α : Type} (q : FS × Option α) (r : Option (FS × α)) : Prop where
  result : q.2 = r.map Prod.snd
  state : ∀ x ∈ r, q.1 = x.1

/-- A function that is not stopped. -/
theorem Ends.some {α : Type} (q : FS × α) : Ends (q.1, Option.some q.2) (Option.some q) where
  result := rfl
  state := by
    intro x hx
    rw [Option.mem_some.mp hx]

/-- The state in which an assertion stops a function is left open. -/
theorem Ends.none {α : Type} (s : FS) : Ends (s, (Option.none : Option α)) Option.none where
  result := rfl
  state := nofun

/-- A branch on a condition that reads the same in the state. -/
theorem Ends.ite {α β : Type} {s : FS} {c c' : Prop} [Decidable c] [Decidable c'] (hc : c ↔ c')
    {p q : Steps (Option α)} {x y : Option β} {f : β → FS × α} (hp : Ends (p.alone s) (x.map f))
    (hq : Ends (q.alone s) (y.map f)) :
    Ends ((if c then p else q).alone s) ((if c' then x else y).map f) := by
  by_cases h : c
  · rwa [if_pos h, if_pos (hc.mp h)]
  · rwa [if_neg h, if_neg (fun h' => h (hc.mpr h'))]

/-- A call that returns is known altogether. -/
theorem Ends.eq_some {α : Type} {q : FS × Option α} {x : FS × α} (h : Ends q (Option.some x)) :
    q = (x.1, Option.some x.2) :=
  Prod.ext (h.state x rfl) h.result

theorem Ends.eq_none {α : Type} {q : FS × Option α} (h : Ends q Option.none) :
    q = (q.1, Option.none) := Prod.ext rfl h.result

section
variable (s : FS)

/-- One block of the text is copied. -/
theorem alone_writeChunk (str : Buf) (len : ℤ) (v : WriteVars) :
    (writeChunk str len v).alone s
      = ((SeL4Sys.writeChunk str len (v.inState s)).fs,
          .of (SeL4Sys.writeChunk str len (v.inState s))) := by
  rw [writeChunk, alone_sBlock_bind, alone_bind, alone_readBlock, alone_bind, alone_writeBlock]
  rfl

/-- The block is allocated first when the file does not have it. -/
theorem alone_writeRound (inodeOffset : ℕ) (str : Buf) (len : ℤ) (stack : ℕ → Buf) (v : WriteVars) :
    Ends ((writeRound inodeOffset str len stack v).alone s)
      ((SeL4Sys.writeRound inodeOffset str len stack (v.inState s)).map fun w => (w.fs, WriteVars.of w)) := by
  rw [writeRound, SeL4Sys.writeRound]
  refine Ends.ite (by exact Iff.rfl) ?_ ?_
  · rw [alone_bind, alone_allocBlock]
    have hfs : (v.inState s).fs = s := rfl
    have hinode : (v.inState s).inode = v.inode := rfl
    rw [hfs, hinode]
    cases SeL4Sys.allocBlock s v.inode inodeOffset stack with
    | none => exact Ends.none s
    | some q =>
      have hchunk := alone_writeChunk q.1 str len { v with inode := q.2 }
      show Ends ((some <$> writeChunk str len { v with inode := q.2 }).alone q.1) _
      rw [alone_map, hchunk]
      exact Ends.some _
  · rw [alone_map, alone_writeChunk]
    exact Ends.some _

end

/-- The loop, by induction on its rounds. -/
theorem alone_writeLoop (inodeOffset : ℕ) (str : Buf) (len : ℤ) (stack : ℕ → ℕ → Buf) (n : ℕ) :
    ∀ (s : FS) (v : WriteVars), Ends ((writeLoop inodeOffset str len stack n v).alone s)
      ((SeL4Sys.writeLoop inodeOffset str len stack n (v.inState s)).map
        fun w => (w.fs, WriteVars.of w)) := by
  induction n with
  | zero =>
    intro s v
    exact Ends.some (s, v)
  | succ n ih =>
    intro s v
    rw [writeLoop, SeL4Sys.writeLoop]
    refine Ends.ite (by exact Iff.rfl) ?_ (Ends.some (s, v))
    rw [alone_bind]
    have hround := alone_writeRound s inodeOffset str len (stack n) v
    generalize SeL4Sys.writeRound inodeOffset str len (stack n) (v.inState s) = r at hround ⊢
    cases r with
    | none =>
      rw [hround.eq_none]
      exact Ends.none _
    | some w =>
      rw [hround.eq_some]
      exact ih w.fs (WriteVars.of w)

/-- `syscall_writefile` alone. -/
theorem alone_syscallWritefile (s : FS) (fcb : FCB) (fd : ℤ) (str : Buf) (len : ℤ) (buffer : Buf)
    (stack : ℕ → ℕ → Buf) :
    Ends ((syscallWritefile fcb fd str len buffer stack).alone s)
      ((SeL4Sys.syscallWritefile s fcb fd str len buffer stack).map fun r => (r.2.1, r.1, r.2.2)) := by
  rw [syscallWritefile, SeL4Sys.syscallWritefile]
  refine Ends.ite Iff.rfl (Ends.some (s, _)) ?_
  rw [alone_bind, alone_loadInode]
  dsimp only
  rw [writeFrom, alone_sBlock_bind, alone_bind, SuperBlock.fixed_blockSize]
  have hloop := alone_writeLoop fcb.inodeOffset str len stack len.toNat s
    { inode := SeL4Sys.loadInode s.disk fcb.inodeOffset
      offset := fcb.offset
      quotient := fcb.offset.tdiv s.superBlock.blockSize
      remainder := fcb.offset.tmod s.superBlock.blockSize
      writeLen := 0
      buffer := buffer }
  rw [WriteVars.inState] at hloop
  generalize SeL4Sys.writeLoop fcb.inodeOffset str len stack len.toNat _ = r at hloop ⊢
  cases r with
  | none =>
    rw [hloop.eq_none]
    exact Ends.none _
  | some w =>
    rw [hloop.eq_some]
    show Ends ((readBlock w.inode 0 w.buffer >>= _).alone w.fs) _
    rw [alone_bind, alone_readBlock, alone_bind, alone_storeInode]
    exact Ends.some (_, _)

/-! ## Looking up and creating -/

section
variable (s : FS)

/-- The entries are read one after the other from the same state. -/
theorem alone_scanEntries (inode : Inode) (test : Buf → Bool) (n : ℕ) :
    ∀ (i : ℕ) (buffer : Buf), (scanEntries inode test n i buffer).alone s
      = (s, SeL4Sys.scanEntries s inode test n i buffer) := by
  induction n with
  | zero =>
    intro i buffer
    rfl
  | succ n ih =>
    intro i buffer
    rw [scanEntries, alone_sBlock_bind, alone_bind, alone_readBlock, SeL4Sys.scanEntries]
    cases SeL4Sys.readBlock s inode i buffer with
    | none => rfl
    | some read =>
      show (if _ then _ else _ : Steps Scan).alone s = (s, if _ then _ else _)
      rw [alone_ite, ih]
      rw [SuperBlock.fixed_blockSize]
      exact (apply_ite (Prod.mk s) _ _ _).symm

theorem alone_scanDir (inode : Inode) (test : Buf → Bool) (buffer : Buf) :
    (scanDir inode test buffer).alone s = (s, SeL4Sys.scanDir s inode test buffer) :=
  alone_scanEntries s inode test _ 0 buffer

/-- The lookup, by induction on its passes. -/
theorem alone_lookupLoop (fuel : ℕ) :
    ∀ (path : List UInt8) (inodeOffset : ℕ) (destInode : Inode) (buffer : Buf),
      (lookupLoop fuel path inodeOffset destInode buffer).alone s
        = (s, SeL4Sys.lookupLoop s fuel path inodeOffset destInode buffer) := by
  induction fuel with
  | zero =>
    intro path inodeOffset destInode buffer
    cases path <;> rfl
  | succ fuel ih =>
    intro path inodeOffset destInode buffer
    cases path with
    | nil => rfl
    | cons b bs =>
      rw [lookupLoop, SeL4Sys.lookupLoop]
      dsimp only
      split_ifs with hslash hregular hmore
      · rfl
      · rfl
      all_goals
        rw [alone_bind, alone_scanDir]
        dsimp only
        cases SeL4Sys.scanDir s destInode (matchesName (b :: bs) (stringChr (b :: bs) slash).2) buffer with
        | failed => rfl
        | missing _ => rfl
        | found _ j read =>
          dsimp only
          rw [alone_bind, alone_loadInode]
          first
          | exact ih _ _ _ _
          | rfl

@[simp] theorem alone_readInode (destInode : Inode) (path : List UInt8) (buffer : Buf) :
    (readInode destInode path buffer).alone s = (s, SeL4Sys.readInode s destInode path buffer) := by
  rw [readInode, SeL4Sys.readInode]
  dsimp only
  split_ifs
  · rfl
  · rfl
  · rw [alone_bind, alone_gDesc, alone_bind, alone_loadInode, alone_lookupLoop]
    rfl

/-- What `allocInode` leaves, without the state. -/
def DirVars.of (r : DirResult) : DirVars := ⟨r.ret, r.fatherInode, r.destInode, r.destInodeOffset⟩

/-- The inode is taken before the entry is written. -/
theorem alone_addEntry (fatherInode : Inode) (fatherInodeOffset : ℕ) (destInode : Inode)
    (destInodeOffset : ℕ) (destFilename : List UInt8) (destFiletype : ℤ) (i j : ℕ) (buffer : Buf) :
    (addEntry fatherInode fatherInodeOffset destInode destInodeOffset destFilename destFiletype i j
        buffer).alone s
      = ((SeL4Sys.addEntry s fatherInode fatherInodeOffset destInode destInodeOffset destFilename
            destFiletype i j buffer).fs,
          .of (SeL4Sys.addEntry s fatherInode fatherInodeOffset destInode destInodeOffset
            destFilename destFiletype i j buffer)) := by
  rw [addEntry, alone_bind, alone_getAvailInode, SeL4Sys.addEntry]
  cases SeL4Sys.getAvailInode s with
  | none => rfl
  | some q =>
    show ((writeBlock _ _ _ >>= _).alone q.1) = _
    rw [alone_bind, alone_writeBlock]
    dsimp only [Option.elim]
    cases SeL4Sys.writeBlock q.1 fatherInode i
      (setEntryInode (setEntryName buffer j destFilename) j q.2) <;> rfl

end

section
variable (s : FS)

/-- A new block of the directory is asked only where no slot is free. -/
theorem alone_allocInode (fatherInode : Inode) (fatherInodeOffset : ℕ) (destInode : Inode)
    (destInodeOffset : ℕ) (destFilename : List UInt8) (destFiletype : ℤ) (buffer : Buf)
    (stack : ℕ → Buf) :
    (allocInode fatherInode fatherInodeOffset destInode destInodeOffset destFilename destFiletype
        buffer stack).alone s
      = ((SeL4Sys.allocInode s fatherInode fatherInodeOffset destInode destInodeOffset destFilename
            destFiletype buffer stack).fs,
          .of (SeL4Sys.allocInode s fatherInode fatherInodeOffset destInode destInodeOffset
            destFilename destFiletype buffer stack)) := by
  rw [allocInode, SeL4Sys.allocInode]
  by_cases hname : destFilename = []
  · rw [if_pos hname, if_pos hname]
    rfl
  rw [if_neg hname, if_neg hname, alone_avail_bind]
  by_cases havail : s.superBlock.availInodeNum = 0
  · have havail' : s.superBlock.avail .inode = 0 := havail
    rw [if_pos havail, if_pos havail']
    rfl
  have havail' : ¬ s.superBlock.avail .inode = 0 := havail
  rw [if_neg havail, if_neg havail', alone_bind, alone_scanDir]
  dsimp only
  cases SeL4Sys.scanDir s fatherInode (stopsAlloc destFilename) buffer with
  | failed => rfl
  | found i j read =>
    dsimp only
    by_cases hlive : entryInode (dirEntry read j) ≠ 0
    · rw [if_pos hlive, if_pos hlive]
      rfl
    · rw [if_neg hlive, if_neg hlive, alone_addEntry]
  | missing read =>
    dsimp only
    rw [alone_bind, alone_allocBlock]
    cases SeL4Sys.allocBlock s fatherInode fatherInodeOffset stack with
    | none => rfl
    | some q =>
      show (sBlock >>= _).alone q.1 = _
      rw [alone_sBlock_bind, alone_addEntry]
      rfl

/-- `syscall_open` alone. -/
theorem alone_syscallOpen (path : List UInt8) (mode : ℤ) (l : Locals) :
    Ends ((syscallOpen path mode l).alone s)
      ((SeL4Sys.syscallOpen s path mode l).map fun r => (r.2, r.1)) := by
  rw [syscallOpen, alone_bind, alone_readInode, SeL4Sys.syscallOpen]
  dsimp only
  refine Ends.ite Iff.rfl (Ends.some (s, _)) (Ends.ite Iff.rfl (Ends.some (s, _)) ?_)
  cases isDirPath path with
  | none => exact Ends.none s
  | some dirPath =>
    dsimp only [Option.bind_some]
    refine Ends.ite Iff.rfl (Ends.some (s, _)) ?_
    cases getFatherPath path with
    | none => exact Ends.none s
    | some fatherPath =>
      dsimp only [Option.bind_some]
      rw [alone_bind, alone_readInode]
      dsimp only
      refine Ends.ite Iff.rfl (Ends.some (s, _)) ?_
      rw [alone_bind, alone_allocInode, alone_pure]
      dsimp only [DirVars.of]
      split_ifs
      all_goals first
        | exact Ends.some (_, _)
        | exact Ends.none _

/-- `write_page_to_file` alone: `syscall_open`, and `syscall_writefile` with the inode it found. -/
theorem alone_writePageToFile {filename : List UInt8} {l : Locals} {inodeOffset : ℕ} {s' : FS}
    (hopen : SeL4Sys.syscallOpen s filename 2 l = some ((inodeOffset : ℤ), s')) (vaddr : Buf)
    (buffer : Buf) (stack : ℕ → ℕ → Buf) :
    Ends ((writePageToFile filename vaddr l buffer stack).alone s)
      ((SeL4Sys.syscallWritefile s' ⟨true, inodeOffset, 0, 2⟩ 3 vaddr 4096 buffer stack).map
        fun r => (r.2.1, ())) := by
  have hends := alone_syscallOpen s filename 2 l
  rw [hopen] at hends
  rw [writePageToFile, alone_bind, hends.eq_some]
  have hneg : ¬ ((inodeOffset : ℤ) < 0) := by omega
  show Ends ((if (inodeOffset : ℤ) < 0 then _ else _ : Steps (Option Unit)).alone s') _
  rw [if_neg hneg, alone_bind, alone_pure, Int.toNat_natCast]
  have hwrite := alone_syscallWritefile s' ⟨true, inodeOffset, 0, 2⟩ 3 vaddr 4096 buffer stack
  generalize SeL4Sys.syscallWritefile s' ⟨true, inodeOffset, 0, 2⟩ 3 vaddr 4096 buffer stack = r at hwrite ⊢
  cases r with
  | none =>
    rw [hwrite.eq_none]
    exact Ends.none _
  | some r =>
    rw [hwrite.eq_some]
    exact Ends.some (_, _)

end

end Steps

end SeL4Sys

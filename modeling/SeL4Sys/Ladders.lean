import Mathlib.Data.Nat.ModEq
import SeL4Sys.StepsRun

/-!
# The three ladders over a block count

`calNeededPointerBlocks`, `allocLastBlock` and `freeLastBlock` each decide by a chain of tests which
pointer blocks begin with block `blockCount`: the first to see whether there is room for them, the
second to take them, the third to give them back. This module counts the calls of `getAvailBlock`
and `setAllocBlock` that the latter two make.

The block size is any multiple of 512 up to 4096. The tests of `allocLastBlock` and `freeLastBlock`
are the same, in the same order; `pointerBlocksAt` is what they come to. `calNeededPointerBlocks`
leaves out the tests with an inequality only, so it takes remainders of negative differences, and
`calNeededPointerBlocks_eq_pointerBlocksAt` shows that none of them is zero by accident.
-/

namespace SeL4Sys

open Bytes Interleave

/-! ## The calls of getAvailBlock -/

/-- The access with which every call of `getAvailBlock` begins. -/
def FsOp.beginsGetAvailBlock : FsOp → Bool
  | avail .block => true
  | _ => false

namespace Steps

/-- How many calls of `getAvailBlock` a function makes. -/
def getAvailBlockCalls {α : Type} (p : Steps α) (s : FS) : ℕ :=
  p.count FsOp.exec FsOp.beginsGetAvailBlock s

section
variable {α β : Type} (s : FS)

@[simp] theorem getAvailBlockCalls_pure (a : α) : (pure a : Steps α).getAvailBlockCalls s = 0 := rfl

@[simp] theorem getAvailBlockCalls_bind (p : Steps α) (f : α → Steps β) :
    (p >>= f).getAvailBlockCalls s
      = p.getAvailBlockCalls s + (f (p.alone s).2).getAvailBlockCalls (p.alone s).1 :=
  Prog.count_bind _ _ _ _ _

@[simp] theorem getAvailBlockCalls_map (f : α → β) (p : Steps α) :
    (f <$> p).getAvailBlockCalls s = p.getAvailBlockCalls s :=
  Prog.count_map _ _ _ _ _

theorem getAvailBlockCalls_findGroup (p : Pool) (n i : ℕ) :
    (findGroup p n i).getAvailBlockCalls s = 0 := by
  induction n generalizing i with
  | zero => rfl
  | succ n ih =>
    rw [findGroup, getAvailBlockCalls_bind, alone_groupAvail]
    split
    · rfl
    · rw [ih]
      rfl

theorem getAvailBlockCalls_findByte (p : Pool) (i : ℕ) (bitmap : Buf) (n j : ℕ) :
    (findByte p i bitmap n j).getAvailBlockCalls s = 0 := by
  induction n generalizing j with
  | zero => rfl
  | succ n ih =>
    rw [findByte, getAvailBlockCalls_bind, alone_groupAvail]
    split
    · rw [ih]
      rfl
    · rfl

/-- A call of `getAvailBlock` is counted once, whether or not there is a block left. -/
theorem getAvailBlockCalls_getAvail : (getAvail .block).getAvailBlockCalls s = 1 := by
  rw [getAvail, getAvailBlockCalls_bind, getAvailBlockCalls_bind]
  split
  · rfl
  · simp only [getAvailBlockCalls_bind, getAvailBlockCalls_findGroup, getAvailBlockCalls_findByte]
    rfl

theorem getAvailBlockCalls_getAvailBlock (blockOffset : ℕ) :
    (getAvailBlock blockOffset).getAvailBlockCalls s = 1 := by
  rw [getAvailBlock, getAvailBlockCalls_bind, getAvailBlockCalls_bind, alone_sBlock,
    getAvailBlockCalls_getAvail]
  split <;> rfl

@[simp] theorem getAvailBlockCalls_takeBlock : takeBlock.getAvailBlockCalls s = 1 := by
  rw [takeBlock, getAvailBlockCalls_bind, getAvailBlockCalls_getAvailBlock, getAvailBlockCalls_pure]

@[simp] theorem getAvailBlockCalls_readPointers (sector : ℕ) :
    (readPointers sector).getAvailBlockCalls s = 0 := rfl

@[simp] theorem getAvailBlockCalls_writeSectors (sector : ℕ) (buffer : Buf) :
    (writeSectors sector buffer).getAvailBlockCalls s = 0 := rfl

@[simp] theorem getAvailBlockCalls_finishAlloc (inode : Inode) (inodeOffset : ℕ) :
    (finishAlloc inode inodeOffset).getAvailBlockCalls s = 0 := rfl

end

end Steps

/-! ## The calls of setAllocBlock -/

/-- What `freeLastBlock` does, call by call. -/
inductive FreeOp
  /-- `read_disk` of a pointer block. -/
  | readPointers (sector : ℕ)
  | setAllocBlock (blockOffset : ℕ)
  /-- `write_disk` of the inode. -/
  | storeInode (inode : Inode) (inodeOffset : ℕ)

abbrev FreeOp.Result : FreeOp → Type
  | readPointers _ => Buf
  | _ => Unit

def FreeOp.exec : (e : FreeOp) → FS → FS × e.Result
  | readPointers sector, s => (s, s.readPointers sector)
  | setAllocBlock blockOffset, s => (s.giveBlock blockOffset, ())
  | storeInode inode inodeOffset, s =>
    ({ s with disk := SeL4Sys.storeInode s.disk inode inodeOffset }, ())

def FreeOp.isSetAllocBlock : FreeOp → Bool
  | setAllocBlock _ => true
  | _ => false

abbrev FreeCalls (α : Type) : Type := Prog FreeOp FreeOp.Result α

namespace FreeCalls

def readPointers (sector : ℕ) : FreeCalls Buf := Prog.perform (FreeOp.readPointers sector)

def setAllocBlock (blockOffset : ℕ) : FreeCalls Unit :=
  Prog.perform (FreeOp.setAllocBlock blockOffset)

/-- The end of `freeLastBlock`. -/
def finishFree (inode : Inode) (inodeOffset : ℕ) : FreeCalls (ℤ × Inode) := do
  Prog.perform (FreeOp.storeInode inode inodeOffset)
  return (0, inode)

/-- `freeLastBlock`; `b` is the super block, of which it looks at the block size only. -/
def freeLastBlock (b : SuperBlock) (inode : Inode) (inodeOffset : ℕ) : FreeCalls (ℤ × Inode) :=
  let inode := { inode with blockCount := inode.blockCount - 1 }
  let blockCount := inode.blockCount.toNat
  if blockCount < b.bound0 then do
    setAllocBlock (inode.pointer blockCount)
    finishFree inode inodeOffset
  else if blockCount = b.bound0 then do
    let singlyPointerBuffer ← readPointers inode.singlyPointer
    setAllocBlock (pointerAt singlyPointerBuffer 0)
    setAllocBlock inode.singlyPointer
    finishFree inode inodeOffset
  else if blockCount < b.bound1 then do
    let singlyPointerBuffer ← readPointers inode.singlyPointer
    setAllocBlock (pointerAt singlyPointerBuffer (blockCount - b.bound0))
    finishFree inode inodeOffset
  else if blockCount = b.bound1 then do
    let doublyPointerBuffer ← readPointers inode.doublyPointer
    let singlyPointerBuffer ← readPointers (pointerAt doublyPointerBuffer 0)
    setAllocBlock (pointerAt singlyPointerBuffer 0)
    setAllocBlock (pointerAt doublyPointerBuffer 0)
    setAllocBlock inode.doublyPointer
    finishFree inode inodeOffset
  else if blockCount < b.bound2 ∧ (blockCount - b.bound1) % b.divider0 = 0 then do
    let doublyPointerBuffer ← readPointers inode.doublyPointer
    let singly := pointerAt doublyPointerBuffer ((blockCount - b.bound1) / b.divider0)
    let singlyPointerBuffer ← readPointers singly
    setAllocBlock (pointerAt singlyPointerBuffer 0)
    setAllocBlock singly
    finishFree inode inodeOffset
  else if blockCount < b.bound2 then do
    let doublyPointerBuffer ← readPointers inode.doublyPointer
    let singly := pointerAt doublyPointerBuffer ((blockCount - b.bound1) / b.divider0)
    let singlyPointerBuffer ← readPointers singly
    setAllocBlock (pointerAt singlyPointerBuffer ((blockCount - b.bound1) % b.divider0))
    finishFree inode inodeOffset
  else if blockCount = b.bound2 then do
    let triplyPointerBuffer ← readPointers inode.triplyPointer
    let doublyPointerBuffer ← readPointers (pointerAt triplyPointerBuffer 0)
    let singlyPointerBuffer ← readPointers (pointerAt doublyPointerBuffer 0)
    setAllocBlock (pointerAt singlyPointerBuffer 0)
    setAllocBlock (pointerAt doublyPointerBuffer 0)
    setAllocBlock (pointerAt triplyPointerBuffer 0)
    setAllocBlock inode.triplyPointer
    finishFree inode inodeOffset
  else if blockCount < b.bound3 ∧ (blockCount - b.bound2) % b.divider1 = 0 then do
    let triplyPointerBuffer ← readPointers inode.triplyPointer
    let doubly := pointerAt triplyPointerBuffer ((blockCount - b.bound2) / b.divider1)
    let doublyPointerBuffer ← readPointers doubly
    let singlyPointerBuffer ← readPointers (pointerAt doublyPointerBuffer 0)
    setAllocBlock (pointerAt singlyPointerBuffer 0)
    setAllocBlock (pointerAt doublyPointerBuffer 0)
    setAllocBlock doubly
    finishFree inode inodeOffset
  else if blockCount < b.bound3 ∧ (blockCount - b.bound2) % b.divider0 = 0 then do
    let triplyPointerBuffer ← readPointers inode.triplyPointer
    let doubly := pointerAt triplyPointerBuffer ((blockCount - b.bound2) / b.divider1)
    let doublyPointerBuffer ← readPointers doubly
    let singly :=
      pointerAt doublyPointerBuffer ((blockCount - b.bound2) % b.divider1 / b.divider0)
    let singlyPointerBuffer ← readPointers singly
    setAllocBlock (pointerAt singlyPointerBuffer 0)
    setAllocBlock singly
    finishFree inode inodeOffset
  else if blockCount < b.bound3 then do
    let triplyPointerBuffer ← readPointers inode.triplyPointer
    let doubly := pointerAt triplyPointerBuffer ((blockCount - b.bound2) / b.divider1)
    let doublyPointerBuffer ← readPointers doubly
    let singly :=
      pointerAt doublyPointerBuffer ((blockCount - b.bound2) % b.divider1 / b.divider0)
    let singlyPointerBuffer ← readPointers singly
    setAllocBlock
      (pointerAt singlyPointerBuffer ((blockCount - b.bound2) % b.divider1 % b.divider0))
    finishFree inode inodeOffset
  else return (-1, inode)

/-- A result with the state at its place in the result of `BlockMap`. -/
private def inPlace (r : FS × ℤ × Inode) : ℤ × FS × Inode := (r.2.1, r.1, r.2.2)

private theorem run_ite_inPlace {c : Prop} [Decidable c] {p q : FreeCalls (ℤ × Inode)} {s : FS}
    {x y : ℤ × FS × Inode} (hq : inPlace (q.run FreeOp.exec s) = y)
    (hp : inPlace (p.run FreeOp.exec s) = x) :
    inPlace ((if c then p else q).run FreeOp.exec s) = if c then x else y := by
  by_cases h : c
  · rw [if_pos h, if_pos h, hp]
  · rw [if_neg h, if_neg h, hq]

/-- The calls of `freeLastBlock`, made one after the other, are `freeLastBlock`. -/
theorem run_freeLastBlock (s : FS) (inode : Inode) (inodeOffset : ℕ) :
    let r := (freeLastBlock s.superBlock inode inodeOffset).run FreeOp.exec s
    (r.2.1, r.1, r.2.2) = SeL4Sys.freeLastBlock s inode inodeOffset := by
  show inPlace ((freeLastBlock s.superBlock inode inodeOffset).run FreeOp.exec s) = _
  rw [freeLastBlock, SeL4Sys.freeLastBlock]
  dsimp only
  iterate 10 apply run_ite_inPlace
  all_goals rfl

/-- How many calls of `setAllocBlock` a function makes. -/
def setAllocBlockCalls {α : Type} (p : FreeCalls α) (s : FS) : ℕ :=
  p.count FreeOp.exec FreeOp.isSetAllocBlock s

end FreeCalls

/-! ## The tests -/

/-- How many pointer blocks begin with block `c` of a file. -/
def pointerBlocksAt (b : SuperBlock) (c : ℕ) : ℕ :=
  if c < b.bound0 then 0
  else if c = b.bound0 then 1
  else if c < b.bound1 then 0
  else if c = b.bound1 then 2
  else if c < b.bound2 ∧ (c - b.bound1) % b.divider0 = 0 then 1
  else if c < b.bound2 then 0
  else if c = b.bound2 then 3
  else if c < b.bound3 ∧ (c - b.bound2) % b.divider1 = 0 then 2
  else if c < b.bound3 ∧ (c - b.bound2) % b.divider0 = 0 then 1
  else 0

theorem getAvailBlockCalls_allocLastBlock {s : FS} {inode : Inode} {c : ℕ}
    (hcount : inode.blockCount = c) (hc : c < s.superBlock.bound3) (inodeOffset blockOffset : ℕ)
    (stack : ℕ → Buf) :
    (Steps.allocLastBlock inode inodeOffset blockOffset stack).getAvailBlockCalls s
      = pointerBlocksAt s.superBlock c := by
  rw [Steps.allocLastBlock, Steps.getAvailBlockCalls_bind, hcount, Int.toNat_natCast,
    Steps.alone_sBlock, pointerBlocksAt]
  dsimp only
  refine (Nat.zero_add _).trans ?_
  iterate 9 apply Prog.count_ite FsOp.exec FsOp.beginsGetAvailBlock Iff.rfl
  · -- the last test can only fail for a file of the largest size
    rw [SuperBlock.fixed_bound3, if_pos hc]
    rfl
  all_goals
    show Steps.getAvailBlockCalls _ _ = _
    simp only [Steps.getAvailBlockCalls_bind, Steps.getAvailBlockCalls_map,
      Steps.getAvailBlockCalls_takeBlock, Steps.getAvailBlockCalls_readPointers,
      Steps.getAvailBlockCalls_writeSectors, Steps.getAvailBlockCalls_finishAlloc]

theorem setAllocBlockCalls_freeLastBlock {b : SuperBlock} {inode : Inode} {c : ℕ}
    (hcount : inode.blockCount = c + 1) (hc : c < b.bound3) (inodeOffset : ℕ) (s : FS) :
    (FreeCalls.freeLastBlock b inode inodeOffset).setAllocBlockCalls s
      = pointerBlocksAt b c + 1 := by
  have hlast : (inode.blockCount - 1).toNat = c := by omega
  rw [FreeCalls.freeLastBlock]
  dsimp only
  rw [hlast, pointerBlocksAt]
  simp only [apply_ite (· + 1)]
  iterate 9 apply Prog.count_ite FreeOp.exec FreeOp.isSetAllocBlock Iff.rfl
  · rw [if_pos hc]
    rfl
  all_goals rfl

/-! ## Remainders of negative differences -/

/-- The remainder is zero at the multiples, whatever the sign of the difference. -/
theorem tmod_sub_eq_zero_iff {c m d : ℕ} : ((c : ℤ) - m).tmod d = 0 ↔ c ≡ m [MOD d] := by
  rw [← Int.dvd_iff_tmod_eq_zero, ← Nat.modEq_iff_dvd]
  exact ⟨Nat.ModEq.symm, Nat.ModEq.symm⟩

theorem modEq_iff_sub_mod {c m d : ℕ} (h : m ≤ c) : c ≡ m [MOD d] ↔ (c - m) % d = 0 := by
  rw [← Nat.dvd_iff_mod_eq_zero, ← Nat.modEq_iff_dvd' h]
  exact ⟨Nat.ModEq.symm, Nat.ModEq.symm⟩

/-- A block size that the ladders can work with. -/
structure LadderSize (b : SuperBlock) : Prop where
  multiple : sectorSize ∣ b.blockSize
  pos : 0 < b.blockSize
  le : b.blockSize ≤ 4096

namespace LadderSize

variable {b : SuperBlock} {c : ℕ}

theorem divider0_bounds (h : LadderSize b) : 128 ≤ b.divider0 ∧ b.divider0 ≤ 1024 := by
  obtain ⟨m, hm⟩ := h.multiple
  have hpos := h.pos
  have hle := h.le
  rw [SuperBlock.divider0]
  simp only [sectorSize] at hm
  omega

theorem bound2_modEq_bound1 : b.bound2 ≡ b.bound1 [MOD b.divider0] := by
  rw [SuperBlock.bound2, modEq_iff_sub_mod (Nat.le_add_right _ _), Nat.add_sub_cancel_left,
    SuperBlock.divider1, Nat.mul_mod_right]

/-- Below the doubly indirect pointer, a difference to its first block that is a multiple is one
block of pointers. -/
theorem eq_bound0_of_modEq (h : LadderSize b) (hc : c < b.bound1)
    (hmod : c ≡ b.bound1 [MOD b.divider0]) : c = b.bound0 := by
  obtain ⟨hd, -⟩ := h.divider0_bounds
  obtain ⟨k, hk⟩ := (Nat.modEq_iff_dvd' hc.le).mp hmod
  rw [SuperBlock.bound1] at hc hk
  have h12 : b.bound0 = 12 := rfl
  obtain rfl | rfl | hk2 : k = 0 ∨ k = 1 ∨ 2 ≤ k := by omega
  · omega
  · omega
  · have : b.divider0 * 2 ≤ b.divider0 * k := Nat.mul_le_mul_left _ hk2
    omega

theorem modEq_bound2_iff : c ≡ b.bound2 [MOD b.divider0] ↔ c ≡ b.bound1 [MOD b.divider0] :=
  ⟨fun h => h.trans bound2_modEq_bound1, fun h => h.trans bound2_modEq_bound1.symm⟩

theorem modEq_bound1_of_modEq_bound2 (h : c ≡ b.bound2 [MOD b.divider1]) :
    c ≡ b.bound1 [MOD b.divider0] :=
  modEq_bound2_iff.mp (Nat.ModEq.of_mul_right _ h)

/-- Every difference is negative here. -/
theorem calNeededPointerBlocks_of_lt_bound1 (h : LadderSize b) (hlt : c < b.bound1) :
    calNeededPointerBlocks b c = pointerBlocksAt b c := by
  have hlt2 : c < b.bound2 := lt_of_lt_of_le hlt (Nat.le_add_right _ _)
  have hlt3 : c < b.bound3 := lt_of_lt_of_le hlt2 (Nat.le_add_right _ _)
  unfold calNeededPointerBlocks pointerBlocksAt
  simp only [tmod_sub_eq_zero_iff, Nat.cast_inj, Nat.cast_lt, Nat.cast_le, modEq_bound2_iff]
  by_cases h0 : c = b.bound0
  · simp [h0]
  · have hrem : ¬ c ≡ b.bound1 [MOD b.divider0] := fun h' => h0 (h.eq_bound0_of_modEq hlt h')
    have hrem1 : ¬ c ≡ b.bound2 [MOD b.divider1] := fun h' => hrem (modEq_bound1_of_modEq_bound2 h')
    simp [h0, hrem, hrem1, hlt, hlt.ne, hlt2.ne, hlt3]

/-- The differences to `bound2` are negative here. -/
theorem calNeededPointerBlocks_of_lt_bound2 (h : LadderSize b) (hge : b.bound1 ≤ c)
    (hlt : c < b.bound2) : calNeededPointerBlocks b c = pointerBlocksAt b c := by
  obtain ⟨hd, -⟩ := h.divider0_bounds
  have h10 : b.bound1 = b.bound0 + b.divider0 := rfl
  have h0 : ¬ c < b.bound0 ∧ c ≠ b.bound0 := by omega
  have hlt3 : c < b.bound3 := lt_of_lt_of_le hlt (Nat.le_add_right _ _)
  unfold calNeededPointerBlocks pointerBlocksAt
  simp only [tmod_sub_eq_zero_iff, Nat.cast_inj, Nat.cast_lt, Nat.cast_le, modEq_bound2_iff,
    ← modEq_iff_sub_mod hge, h0, hge.not_gt]
  by_cases hrem : c ≡ b.bound1 [MOD b.divider0]
  · simp [hlt, hrem]
  · have hrem1 : ¬ c ≡ b.bound2 [MOD b.divider1] := fun h' => hrem (modEq_bound1_of_modEq_bound2 h')
    simp [hlt, hlt.ne, hlt3, hlt3.not_ge, hrem, hrem1]

/-- No difference is negative here. -/
theorem calNeededPointerBlocks_of_lt_bound3 (h : LadderSize b) (hge : b.bound2 ≤ c)
    (hlt : c < b.bound3) : calNeededPointerBlocks b c = pointerBlocksAt b c := by
  obtain ⟨hd, -⟩ := h.divider0_bounds
  have h10 : b.bound1 = b.bound0 + b.divider0 := rfl
  have h21 : b.bound2 = b.bound1 + b.divider1 := rfl
  have hd1 : b.divider0 ≤ b.divider1 := Nat.le_mul_self _
  have h0 : ¬ c < b.bound0 ∧ c ≠ b.bound0 := by omega
  have h1 : ¬ c < b.bound1 ∧ c ≠ b.bound1 := by omega
  unfold calNeededPointerBlocks pointerBlocksAt
  simp only [tmod_sub_eq_zero_iff, Nat.cast_inj, Nat.cast_lt, Nat.cast_le, modEq_iff_sub_mod hge,
    h0, h1, hge.not_gt, hlt, hlt.not_ge, if_false, false_and, true_and]
  split_ifs <;> rfl

theorem calNeededPointerBlocks_eq_pointerBlocksAt (h : LadderSize b) (hc : c < b.bound3) :
    calNeededPointerBlocks b c = pointerBlocksAt b c := by
  by_cases h1 : c < b.bound1
  · exact h.calNeededPointerBlocks_of_lt_bound1 h1
  by_cases h2 : c < b.bound2
  · exact h.calNeededPointerBlocks_of_lt_bound2 (not_lt.mp h1) h2
  · exact h.calNeededPointerBlocks_of_lt_bound3 (not_lt.mp h2) hc

/-! ## Overflow -/

end LadderSize

/-- What the ladders compute before and in their tests, as mathematical integers. -/
def ladderValues (b : SuperBlock) (c : ℕ) : List ℤ :=
  [b.divider0, b.divider1, b.divider2, b.bound0, b.bound1, b.bound2, b.bound3,
    c - b.bound0, c - b.bound1, c - b.bound2, c + 1]

theorem LadderSize.ladderValues_fit {b : SuperBlock} {c : ℕ} (h : LadderSize b)
    (hc : c < b.bound3) : ∀ v ∈ ladderValues b c, FitsInt 4 v := by
  obtain ⟨-, hd⟩ := h.divider0_bounds
  have hd1 : b.divider1 ≤ 1024 * 1024 := Nat.mul_le_mul hd hd
  have hd2 : b.divider2 ≤ 1024 * 1024 * 1024 := Nat.mul_le_mul hd1 hd
  have h0 : b.bound0 = 12 := rfl
  have h1 : b.bound1 = b.bound0 + b.divider0 := rfl
  have h2 : b.bound2 = b.bound1 + b.divider1 := rfl
  have h3 : b.bound3 = b.bound2 + b.divider2 := rfl
  intro v hv
  simp only [ladderValues, List.mem_cons, List.not_mem_nil, or_false] at hv
  rw [FitsInt]
  omega

/-! ## Agreement -/

/-- Room for as many pointer blocks is asked for as are taken with a block, and they are given
back with it. -/
theorem ladders_agree {b : SuperBlock} {c : ℕ} (hb : LadderSize b) (hc : c < b.bound3) :
    (∀ (s : FS) (inode : Inode) (inodeOffset blockOffset : ℕ) (stack : ℕ → Buf),
      s.superBlock = b → inode.blockCount = c →
      ((Steps.allocLastBlock inode inodeOffset blockOffset stack).getAvailBlockCalls s : ℤ)
        = calNeededPointerBlocks b c)
    ∧ (∀ (s : FS) (inode : Inode) (inodeOffset : ℕ),
      s.superBlock = b → inode.blockCount = c + 1 →
      ((FreeCalls.freeLastBlock b inode inodeOffset).setAllocBlockCalls s : ℤ) - 1
        = calNeededPointerBlocks b c)
    ∧ ∀ v ∈ ladderValues b c, FitsInt 4 v := by
  have hneeded := hb.calNeededPointerBlocks_eq_pointerBlocksAt hc
  refine ⟨?_, ?_, hb.ladderValues_fit hc⟩
  · rintro s inode inodeOffset blockOffset stack rfl hcount
    rw [getAvailBlockCalls_allocLastBlock hcount hc, hneeded]
  · intro s inode inodeOffset _ hcount
    rw [setAllocBlockCalls_freeLastBlock hcount hc, hneeded]
    omega

/-- Block 268 is the first one below the doubly indirect pointer if a block has 1024 bytes. -/
theorem ladders_agree_doubly :
    (Steps.allocLastBlock { Files.emptyFile with blockCount := 268 } (slotOffset 2106 0 1) 2056
        fun _ _ => 0).getAvailBlockCalls (smallFS (fun _ => 0) 8192 25) = 2
    ∧ (FreeCalls.freeLastBlock (smallFS (fun _ => 0) 8192 25).superBlock
        { Files.emptyFile with blockCount := 269 } (slotOffset 2106 0 1)).setAllocBlockCalls
          (smallFS (fun _ => 0) 8192 25) = 3 := by
  have hsize : LadderSize (smallFS (fun _ => 0) 8192 25).superBlock :=
    ⟨by decide, by decide, by decide⟩
  have hneeded : calNeededPointerBlocks (smallFS (fun _ => 0) 8192 25).superBlock (268 : ℕ) = 2 := by
    decide
  obtain ⟨halloc, hfree, -⟩ :=
    ladders_agree hsize (by decide : 268 < (smallFS (fun _ => 0) 8192 25).superBlock.bound3)
  rw [hneeded] at halloc hfree
  have htaken := halloc _ { Files.emptyFile with blockCount := 268 } (slotOffset 2106 0 1) 2056
    (fun _ _ => 0) rfl rfl
  have hgiven := hfree _ { Files.emptyFile with blockCount := 269 } (slotOffset 2106 0 1) rfl rfl
  exact ⟨by exact_mod_cast htaken, by omega⟩

end SeL4Sys

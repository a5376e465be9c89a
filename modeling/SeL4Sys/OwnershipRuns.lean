import SeL4Sys.AllocRuns
import SeL4Sys.OwnershipFree

/-!
# Files do not interfere

Runs of `allocBlock`, `writeBlock` and `freeBlock` on a family of inodes, in any order. As long
as the allocator hands out free blocks, the inodes own their blocks in every state that is
reached, and there a block that is written reads back and every other block of every file
reads as before.
-/

namespace SeL4Sys

open Bytes Function

/-- A call on one of the inodes. -/
inductive BlockCall (ι : Type*)
  | alloc (x : ι) (stack : ℕ → Buf)
  | write (x : ι) (blockIndex : ℕ) (buffer : Buf)
  | free (x : ι)

/-- The file system and the inodes, as their users hold them in memory. -/
structure Files (ι : Type*) where
  fs : FS
  inode : ι → Inode

namespace Files

variable {ι : Type*} [DecidableEq ι]

/-- One call; `slot` gives the inode offsets. -/
def step (slot : ι → ℕ) (f : Files ι) : BlockCall ι → Files ι
  | .alloc x stack => (allocBlock f.fs (f.inode x) (slot x) stack).elim f fun q =>
      ⟨q.1, update f.inode x q.2⟩
  | .write x blockIndex buffer => (writeBlock f.fs (f.inode x) blockIndex buffer).elim f fun s =>
      ⟨s, f.inode⟩
  | .free x =>
      let r := freeBlock f.fs (f.inode x) (slot x)
      ⟨r.2.1, update f.inode x r.2.2⟩

/-- The state after a list of calls. -/
def run (slot : ι → ℕ) (f : Files ι) (calls : List (BlockCall ι)) : Files ι :=
  calls.foldl (step slot) f

/-- Every `getAvailBlock` that `allocBlock` makes for an inode with `blockCount` blocks hands
out a free block: one for the data and one for each pointer block. -/
def AllocGetsFree (s : FS) (blockCount : ℤ) : Prop :=
  calNeededPointerBlocks s.superBlock blockCount + 1 ≤ s.superBlock.availBlockNum →
    GetsFreeFor s (max 1 (calNeededPointerBlocks s.superBlock blockCount + 1).toNat)

/-- What is assumed of a call: writes are to blocks of the file, and the allocator hands out
free blocks. -/
def Legal (f : Files ι) : BlockCall ι → Prop
  | .alloc x _ => AllocGetsFree f.fs (f.inode x).blockCount
  | .write x blockIndex _ => (blockIndex : ℤ) < (f.inode x).blockCount
  | .free _ => True

/-- Every call of a run is as assumed. -/
def LegalRun (slot : ι → ℕ) : Files ι → List (BlockCall ι) → Prop
  | _, [] => True
  | f, call :: calls => f.Legal call ∧ LegalRun slot (f.step slot call) calls

/-- The inodes own their blocks. -/
structure Ok (slot : ι → ℕ) (f : Files ι) : Prop where
  formatted : Formatted f.fs
  slots : ∀ x, IsSlot f.fs.superBlock.sectorNum (slot x)
  owned : Owned f.fs (fun _ => True) f.inode

/-- A block that is written reads back, and every other block of every file reads as
before. -/
def Isolated (f : Files ι) : Prop :=
  ∀ x (k : ℕ) (buffer dest : Buf), (k : ℤ) < (f.inode x).blockCount →
    ∃ s, writeBlock f.fs (f.inode x) k buffer = some s
      ∧ readBlock s (f.inode x) k dest = some (patch dest 0 1024 buffer)
      ∧ ∀ y (l : ℕ), (l : ℤ) < (f.inode y).blockCount → ¬ (y = x ∧ l = k) →
          readBlock s (f.inode y) l dest = readBlock f.fs (f.inode y) l dest

variable {slot : ι → ℕ} {f : Files ι}

/-! ## One call -/

omit [DecidableEq ι] in
/-- The number of calls that `allocBlock` makes for a file that can grow. -/
theorem Ok.getsFreeFor (h : f.Ok slot) {x : ι} {c : ℕ} (hcount : (f.inode x).blockCount = c)
    (hc : c < maxBlocks) (hfree : AllocGetsFree f.fs (f.inode x).blockCount)
    (havail : (newLevels c : ℤ) + 1 ≤ f.fs.superBlock.availBlockNum) :
    GetsFreeFor f.fs (newLevels c + 1) := by
  rw [AllocGetsFree, hcount, calNeededPointerBlocks_eq h.formatted hc] at hfree
  refine (hfree havail).mono ?_
  omega

/-- `allocBlock` on a file that cannot grow any more takes a block and drops it. -/
theorem Ok.alloc_full (h : f.Ok slot) {x : ι} {stack : ℕ → Buf} {c : ℕ}
    (hcount : (f.inode x).blockCount = c) (hc : maxBlocks ≤ c)
    (hfree : AllocGetsFree f.fs (f.inode x).blockCount) :
    (f.step slot (.alloc x stack)).Ok slot := by
  have hf := h.formatted
  have hneeded := calNeededPointerBlocks_full hf hc
  rw [AllocGetsFree, hcount, hneeded] at hfree
  obtain ⟨hf', hS⟩ := takeBlock_formatted hf
  have hlast := allocLastBlock_full hf' hcount hc (slot x) f.fs.takeBlock.2 stack
  by_cases havail : f.fs.superBlock.availBlockNum < 0
  · have hnone : allocBlock f.fs (f.inode x) (slot x) stack = none := by
      rw [allocBlock, hcount, hneeded, if_pos (by omega)]
    rw [step, hnone, Option.elim_none]
    exact h
  · have hsome : allocBlock f.fs (f.inode x) (slot x) stack
        = some (f.fs.takeBlock.1, f.inode x) := by
      rw [allocBlock, hcount, hneeded, if_neg (by omega)]
      simp only [hlast, Option.getD_none]
    have hget : GetsFreeFor f.fs 1 := hfree (by omega)
    rw [step, hsome, Option.elim_some, update_eq_self]
    refine ⟨hf', fun y => by rw [hS]; exact h.slots y, ?_⟩
    refine h.owned.transfer hS (fun y hy n hn => sector_takes hf h.owned hget hy hn) ?_
    exact fun y hy n hn => (used_takes hf hget).mpr (Or.inl (h.owned.used y hy n hn))

/-- Adding a block. -/
theorem Ok.alloc (h : f.Ok slot) {x : ι} {stack : ℕ → Buf}
    (hfree : AllocGetsFree f.fs (f.inode x).blockCount) :
    (f.step slot (.alloc x stack)).Ok slot := by
  obtain ⟨c, hcount⟩ := Int.eq_ofNat_of_zero_le (h.owned.count x trivial).1
  rcases Nat.lt_or_ge c maxBlocks with hc | hc
  · by_cases havail : (newLevels c : ℤ) + 1 ≤ f.fs.superBlock.availBlockNum
    · have hget := h.getsFreeFor hcount hc hfree havail
      obtain ⟨s, ino, halloc, hspec⟩ :=
        h.owned.alloc h.formatted trivial hcount hc hget (h.slots x) havail stack
      rw [step, halloc, Option.elim_some]
      exact ⟨hspec.formatted, fun y => by rw [hspec.sectorNum]; exact h.slots y, hspec.owned⟩
    · have hnone : allocBlock f.fs (f.inode x) (slot x) stack = none := by
        rw [allocBlock, hcount, calNeededPointerBlocks_eq h.formatted hc, if_pos (by omega)]
      rw [step, hnone, Option.elim_none]
      exact h
  · exact h.alloc_full hcount hc hfree

/-- Writing a block. -/
theorem Ok.write (h : f.Ok slot) {x : ι} {k : ℕ} {buffer : Buf}
    (hk : (k : ℤ) < (f.inode x).blockCount) : (f.step slot (.write x k buffer)).Ok slot := by
  obtain ⟨s, hwrite, hspec⟩ :=
    h.owned.write h.formatted (x := x) trivial (k := k) (by rw [Inode.blocks]; omega) buffer
  rw [step, hwrite, Option.elim_some]
  exact ⟨hspec.formatted, fun y => by rw [hspec.sectorNum]; exact h.slots y, hspec.owned⟩

/-- Giving back all blocks. -/
theorem Ok.free (h : f.Ok slot) (x : ι) : (f.step slot (.free x)).Ok slot := by
  obtain ⟨s, ino, hfree, hspec⟩ := h.owned.freeAll h.formatted (x := x) trivial (h.slots x)
  rw [step, hfree]
  exact ⟨hspec.formatted, fun y => by rw [hspec.sectorNum]; exact h.slots y, hspec.owned⟩

/-- Every call keeps the invariant. -/
theorem Ok.step (h : f.Ok slot) {call : BlockCall ι} (hlegal : f.Legal call) :
    (f.step slot call).Ok slot := by
  cases call with
  | alloc x stack => exact h.alloc hlegal
  | write x k buffer => exact h.write hlegal
  | free x => exact h.free x

/-! ## Whole runs -/

theorem Ok.run (h : f.Ok slot) {calls : List (BlockCall ι)} (hlegal : f.LegalRun slot calls) :
    (f.run slot calls).Ok slot := by
  induction calls generalizing f with
  | nil => exact h
  | cons call calls ih => exact ih (h.step hlegal.1) hlegal.2

omit [DecidableEq ι] in
/-- Files that own their blocks do not interfere. -/
theorem Ok.isolated (h : f.Ok slot) : f.Isolated := by
  intro x k buffer dest hk
  have hk' : k < (f.inode x).blocks := by rw [Inode.blocks]; omega
  have hmax : ∀ y (l : ℕ), l < (f.inode y).blocks → l < maxBlocks := fun y l hl =>
    lt_of_lt_of_le hl (h.owned.blocks_le trivial)
  obtain ⟨s, hwrite, hspec⟩ := h.owned.write h.formatted (x := x) trivial hk' buffer
  have hlive := dataNode_live (hmax x k hk') hk'
  refine ⟨s, hwrite, ?_, fun y l hl hne => ?_⟩
  · rw [readBlock_eq hspec.formatted (hmax x k hk'), hspec.sector x trivial _ hlive]
    refine congrArg some (patch_congr fun i hi => ?_)
    exact hspec.written i hi
  · have hl' : l < (f.inode y).blocks := by rw [Inode.blocks]; omega
    have hlive' := dataNode_live (hmax y l hl') hl'
    rw [readBlock_eq hspec.formatted (hmax y l hl'), readBlock_eq h.formatted (hmax y l hl'),
      hspec.sector y trivial _ hlive']
    refine congrArg some (patch_congr fun i hi => ?_)
    refine (hspec.changes.agree_block (h.owned.isData trivial hlive') ?_).window_eq hi
    refine disjoint_blocks fun heq => hne ?_
    obtain ⟨rfl, hnode⟩ := h.owned.inj y x trivial trivial _ _ hlive' hlive heq
    exact ⟨rfl, dataNode_inj (hmax _ l hl') (hmax _ k hk') hnode⟩

/-- **Block ownership and isolation.** From a state in which the inodes own their blocks, a run
of `allocBlock`, `writeBlock` and `freeBlock` on them, with an allocator that hands out free
blocks, ends in a state in which they own their blocks, and in which writing a block changes
what that block reads as and no other block of any file. -/
theorem run_owned_isolated (hok : f.Ok slot) (calls : List (BlockCall ι))
    (hlegal : f.LegalRun slot calls) :
    Owned (f.run slot calls).fs (fun _ => True) (f.run slot calls).inode
      ∧ (f.run slot calls).Isolated :=
  ⟨(hok.run hlegal).owned, (hok.run hlegal).isolated⟩

/-! ## Two empty files on the small disk -/

/-- Two files without blocks, at the second and third inode. -/
def small : Files Bool := ⟨smallFS (fun _ => 0) 8192 25, fun _ => emptyFile⟩

def smallSlot (x : Bool) : ℕ := slotOffset 2106 0 (if x then 1 else 2)

theorem small_ok : small.Ok smallSlot where
  formatted := smallFS_formatted _ _ _
  slots := fun x => by
    refine ⟨0, if x then 1 else 2, ?_, ?_, rfl⟩
    · rw [small, smallFS_sectorNum, groups_small]
      norm_num
    · rw [small, smallFS_sectorNum, inodesOf_small]
      split <;> norm_num
  owned :=
    { count := fun _ _ => ⟨le_rfl, Int.natCast_nonneg _⟩
      used := fun _ _ n hn => absurd hn.first_lt (Nat.not_lt_zero _)
      inj := fun _ _ _ _ n _ hn => absurd hn.first_lt (Nat.not_lt_zero _) }

theorem small_allocGetsFree : AllocGetsFree small.fs 0 := by
  intro _ j hj
  have hj : j < 1 := hj
  obtain rfl : j = 0 := by omega
  refine (getsFree_iff small_ok.formatted).mpr ?_
  have hcons : Consistent .block small.fs := smallFS_consistent (by decide)
  refine (hcons.hits_iff (by decide)).mpr ?_
  rw [small, smallFS_nearHole_iff (by norm_num)]
  exact ⟨0, by norm_num, by norm_num, by decide⟩

theorem small_alloc_blockCount (stack : ℕ → Buf) :
    ((small.step smallSlot (.alloc true stack)).inode true).blockCount = 1 := by
  have hget := small_ok.getsFreeFor (x := true) (c := 0) rfl (by norm_num [maxBlocks])
    small_allocGetsFree (by decide)
  obtain ⟨s, ino, halloc, hspec⟩ := small_ok.owned.alloc small_ok.formatted (x := true) trivial
    (c := 0) rfl (by norm_num [maxBlocks]) hget (small_ok.slots true) (by decide) stack
  rw [step, halloc, Option.elim_some]
  simp only [update_self]
  rw [hspec.blockCount]
  rfl

/-- Adding a block to the first file, writing it, and freeing the second file. -/
theorem run_owned_isolated_small :
    (small.run smallSlot [.alloc true fun _ _ => 0, .write true 0 fun _ => 7, .free false]).Isolated :=
  (run_owned_isolated small_ok [.alloc true fun _ _ => 0, .write true 0 fun _ => 7, .free false]
    ⟨small_allocGetsFree, by
      rw [Legal, small_alloc_blockCount]
      norm_num, trivial, trivial⟩).2

end Files

end SeL4Sys

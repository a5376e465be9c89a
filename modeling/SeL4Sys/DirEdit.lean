import SeL4Sys.Directory
import SeL4Sys.InodeUse
import SeL4Sys.OwnershipFree

/-!
# Changing one entry of a directory

`addEntry`, the end of `allocInode`, and `removeEntry`, the end of `freeInode`, write one block of
a directory back with one entry changed. All other entries of all directories, and all other
inodes, stay what they are.
-/

namespace SeL4Sys

open Bytes CString Loop Function

variable {s s' : FS} {P : ℕ → Prop} {I : ℕ → Inode} {o t x : ℕ} {b b' : Buf}

/-! ## Slots -/

section congr
variable {d d' : Disk} {ino ino' : Inode}

theorem slotInode_congr
    (h : ∀ i, i < 128 → fileFrom d' ino' (128 * t) i = fileFrom d ino (128 * t) i) :
    slotInode d' ino' t = slotInode d ino t :=
  entryInode_congr h

theorem slotName_congr
    (h : ∀ i, i < 128 → fileFrom d' ino' (128 * t) i = fileFrom d ino (128 * t) i) :
    slotName d' ino' t = slotName d ino t :=
  entryString_congr h

end congr

/-! ## Editing a block -/

/-- Block `k` of the file at `o` holds `buf`, the other blocks of all files are as they were, and no block
is at another place. -/
structure BlockEdit (s s' : FS) (P : ℕ → Prop) (I : ℕ → Inode) (o k : ℕ) (buf : Buf) : Prop where
  block : Holds s'.disk (I o) k buf
  sector : ∀ y, P y → ∀ n : Node, n.Live (I y).blocks →
    n.sector s'.disk (I y) = n.sector s.disk (I y)
  other : ∀ y, P y → ∀ p, p < (I y).blocks * 1024 → (y = o → p / 1024 ≠ k) →
    fileByte s'.disk (I y) p = fileByte s.disk (I y) p

theorem WriteSpec.blockEdit {k : ℕ} (h : WriteSpec s s' P I o k b) (hown : Owned s P I) (ho : P o)
    (hk : k < (I o).blocks) : BlockEdit s s' P I o k b where
  block := fun _ hi => (h.fileByte_self hown ho hk hi).symm
  sector := h.sector
  other := fun _ hy _ hp hne => h.fileByte_of_ne hown ho hk hy hp hne

section
variable {k : ℕ} {W : Set Region} {s₀ s₁ : FS} (h : BlockEdit s s' P I o k b)
include h

/-- What happened before to something other than blocks makes no difference. -/
theorem BlockEdit.before (hown : Owned s₀ P I)
    (hchanges : ChangesOnly s₀.superBlock.sectorNum s₀.disk s.disk W)
    (hW : ∀ a, Disjoint (blockRegion s₀.superBlock.sectorNum a) W) :
    BlockEdit s₀ s' P I o k b where
  block := h.block
  sector := fun y hy n hn => by rw [h.sector y hy n hn, hchanges.sector_eq hW hown hy hn]
  other := fun y hy p hp hne => by
    rw [h.other y hy p hp hne, hchanges.fileByte_eq hW hown hy hp]

/-- What happens afterwards to something other than blocks makes no difference. -/
theorem BlockEdit.after (hown : Owned s' P I) (ho : P o) (hk : k < (I o).blocks)
    (hchanges : ChangesOnly s'.superBlock.sectorNum s'.disk s₁.disk W)
    (hW : ∀ a, Disjoint (blockRegion s'.superBlock.sectorNum a) W) :
    BlockEdit s s₁ P I o k b where
  block := fun i hi => by
    rw [hchanges.fileByte_eq hW hown ho (by omega)]
    exact h.block i hi
  sector := fun y hy n hn => by rw [hchanges.sector_eq hW hown hy hn, h.sector y hy n hn]
  other := fun y hy p hp hne => by
    rw [hchanges.fileByte_eq hW hown hy hp]
    exact h.other y hy p hp hne

end

/-- Slot `t` of the directory at `o` holds the entry `e`, and the other slots of all directories are
as they were. -/
structure SlotEdit (s s' : FS) (P : ℕ → Prop) (I : ℕ → Inode) (o t : ℕ) (e : Buf) : Prop where
  entry : ∀ i, i < 128 → fileFrom s'.disk (I o) (128 * t) i = e i
  other : ∀ y, P y → ∀ u, u < slots (I y) → (y = o → u ≠ t) →
    ∀ i, i < 128 → fileFrom s'.disk (I y) (128 * u) i = fileFrom s.disk (I y) (128 * u) i

/-- A block that differs in one entry from what it was. -/
theorem BlockEdit.slotEdit (h : BlockEdit s s' P I o (t / 8) b')
    (hb : Holds s.disk (I o) (t / 8) b)
    (hsame : ∀ j, j ≠ t % 8 → ∀ i, i < 128 → dirEntry b' j i = dirEntry b j i) :
    SlotEdit s s' P I o t (dirEntry b' (t % 8)) := by
  refine ⟨fun i hi => (h.block.dirEntry_eq rfl hi).symm, fun y hy u hu hne i hi => ?_⟩
  unfold slots at hu
  by_cases hblock : y = o ∧ u / 8 = t / 8
  · -- another entry of the block
    obtain ⟨rfl, hblock⟩ := hblock
    have hj : u % 8 ≠ t % 8 := by
      intro heq
      have := hne rfl
      omega
    rw [← h.block.dirEntry_eq hblock hi, hsame _ hj i hi, hb.dirEntry_eq hblock hi]
  · apply h.other y hy _ (by omega)
    intro hyo heq
    exact hblock ⟨hyo, by omega⟩

theorem SlotEdit.slotInode_eq {e : Buf} (h : SlotEdit s s' P I o t e) :
    slotInode s'.disk (I o) t = entryInode e :=
  entryInode_congr h.entry

theorem SlotEdit.slotName_eq {e : Buf} (h : SlotEdit s s' P I o t e) :
    slotName s'.disk (I o) t = cstr (entryName e) 64 :=
  entryString_congr h.entry

/-! ## Adding an entry -/

/-- What `addEntry` does to block `k` of the directory at `o`, for the new inode `x` of type
`type`. -/
structure AddSpec (s s' : FS) (P : ℕ → Prop) (I : ℕ → Inode) (o k x : ℕ) (type : ℤ) (buf : Buf) :
    Prop where
  sectorNum : s'.superBlock.sectorNum = s.superBlock.sectorNum
  slot : IsSlot s.superBlock.sectorNum x
  fresh : ¬ InodeUsed s.superBlock.sectorNum s.disk x
  used : ∀ y, InodeUsed s.superBlock.sectorNum s'.disk y
    ↔ InodeUsed s.superBlock.sectorNum s.disk y ∨ y = x
  consistent : Consistent .inode s'
  owned : Owned s' P I
  father : loadInode s'.disk o = I o
  type_eq : (loadInode s'.disk x).type = type
  linkCount : (loadInode s'.disk x).linkCount = 1
  blockCount : (loadInode s'.disk x).blockCount = 0
  size : (loadInode s'.disk x).size = 0
  inode : ∀ y, InodeUsed s.superBlock.sectorNum s.disk y → y ≠ o →
    loadInode s'.disk y = loadInode s.disk y
  edit : BlockEdit s s' P I o k buf

theorem disjoint_block_slots (S o x a : ℕ) :
    Disjoint (blockRegion S a) {q | q ∈ slotRegion S o ∨ q ∈ slotRegion S x} := by
  rw [Set.disjoint_left]
  rintro q hq (hq' | hq')
  · exact Set.disjoint_left.mp (disjoint_block_slot _ _ _) hq hq'
  · exact Set.disjoint_left.mp (disjoint_block_slot _ _ _) hq hq'

theorem region_notMem_slots (p : Pool) (S o x i : ℕ) :
    p.region i ∉ {q | q ∈ slotRegion S o ∨ q ∈ slotRegion S x} := by
  rintro (hq | hq)
  · exact region_notMem_slot p _ i _ hq
  · exact region_notMem_slot p _ i _ hq

theorem changesOnly_storeBoth {S x : ℕ} (d : Disk) (father dest : Inode) (ho : IsSlot S o)
    (hx : IsSlot S x) :
    ChangesOnly S d (storeInode (storeInode d father o) dest x)
      {q | q ∈ slotRegion S o ∨ q ∈ slotRegion S x} :=
  ((changesOnly_slot d father ho).mono fun _ hq => Or.inl hq).trans
    ((changesOnly_slot _ dest hx).mono fun _ hq => Or.inr hq)

/-- The inode of a new file, with whatever pointers the variable held. -/
abbrev newInode (dest : Inode) (type : ℤ) : Inode :=
  { dest with type := type, linkCount := 1, blockCount := 0, size := 0 }

theorem newInode_fields (dest : Inode) {type : ℤ} (htype : FitsInt 2 type) (d : Disk) (x : ℕ) :
    let ino := loadInode (storeInode d (newInode dest type) x) x
    ino.type = type ∧ ino.linkCount = 1 ∧ ino.blockCount = 0 ∧ ino.size = 0 := by
  simp only [loadInode_storeInode_eq]
  refine ⟨Inode.type_decode_encode htype, Inode.linkCount_decode_encode ?_,
    Inode.blockCount_decode_encode ?_, Inode.size_decode_encode ?_⟩
  · norm_num [FitsInt]
  · norm_num [FitsInt]
  · norm_num [FitsInt]

/-- The file system after `addEntry`, from the one with the block written. -/
abbrev storeBoth (s : FS) (father : Inode) (o : ℕ) (dest : Inode) (x : ℕ) : FS :=
  { s with disk := storeInode (storeInode s.disk father o) dest x }

/-- `addEntry` takes an inode, writes the block and writes two inodes. Only the block changes what
the files hold, whatever inode it was given. -/
theorem addEntry_steps {k : ℕ} (hf : Formatted s)
    (hgroup : searchGroup .inode s < groups s.superBlock.sectorNum)
    (hget : getAvailInode s = some (taken .inode s, x)) (hslot : IsSlot s.superBlock.sectorNum x)
    (hoslot : IsSlot s.superBlock.sectorNum o) (hown : Owned s P I) (ho : P o)
    (hk : k < (I o).blocks) (type : ℤ) (dest : Inode) (destOffset : ℕ) (name : List UInt8) (j : ℕ)
    (buffer : Buf) :
    ∃ s₂, WriteSpec (taken .inode s) s₂ P I o k (setEntryInode (setEntryName buffer j name) j x)
      ∧ addEntry s (I o) o dest destOffset name type k j buffer
        = ⟨0, storeBoth s₂ (I o) o (newInode dest type) x, I o, newInode dest type, x⟩
      ∧ Owned (storeBoth s₂ (I o) o (newInode dest type) x) P I
      ∧ BlockEdit s (storeBoth s₂ (I o) o (newInode dest type) x) P I o k
          (setEntryInode (setEntryName buffer j name) j x) := by
  generalize hbuf : setEntryInode (setEntryName buffer j name) j x = buf
  -- taking the inode
  have hch₁ := changesOnly_taken hf hgroup
  have hown₁ : Owned (taken .inode s) P I :=
    hch₁.owned (fun b => disjoint_block_pool _ b _) hown taken_sectorNum
      fun i => region_notMem_pool (p := .block) (by decide) i
  -- writing the block
  obtain ⟨s₂, hwrite, hspec⟩ := hown₁.write (taken_formatted hf) ho hk buf
  have hS₂ : s₂.superBlock.sectorNum = s.superBlock.sectorNum := hspec.sectorNum.trans taken_sectorNum
  -- writing the two inodes
  rw [← hS₂] at hoslot hslot
  have hch₃ := changesOnly_storeBoth s₂.disk (I o) (newInode dest type) hoslot hslot
  have hblocks₃ := disjoint_block_slots s₂.superBlock.sectorNum o x
  refine ⟨s₂, hspec, ?_, ?_, ?_⟩
  · rw [addEntry, hget, Option.elim_some]
    simp only [hbuf, hwrite, Option.elim_some]
  · exact hch₃.owned hblocks₃ hspec.owned rfl fun i => region_notMem_slots .block _ o x i
  · have hedit := (hspec.blockEdit hown₁ ho hk).before hown hch₁
      fun a => disjoint_block_pool _ a _
    exact hedit.after hspec.owned ho hk hch₃ hblocks₃

theorem addEntry_spec {k : ℕ} (hcons : Consistent .inode s) (hh : Hits .inode s)
    (hown : Owned s P I) (hP : ∀ y, P y → InodeUsed s.superBlock.sectorNum s.disk y) (ho : P o)
    (hfits : (I o).Fits) (hk : k < (I o).blocks) {type : ℤ} (htype : FitsInt 2 type)
    (dest : Inode) (destOffset : ℕ) (name : List UInt8) (j : ℕ) (buffer : Buf) :
    ∃ x s' dest', addEntry s (I o) o dest destOffset name type k j buffer = ⟨0, s', I o, dest', x⟩
      ∧ AddSpec s s' P I o k x type (setEntryInode (setEntryName buffer j name) j x) := by
  have hf := hcons.formatted
  obtain ⟨x, hget, hslot, hfresh, hused⟩ := getAvailInode_spec hf hh
  have hoslot := (hP o ho).isSlot
  -- the new inode is not the one of the directory, which is in use
  have hox : o ≠ x := fun heq => hfresh (heq ▸ hP o ho)
  obtain ⟨s₂, hspec, hrun, hown₃, hedit⟩ := addEntry_steps hf hh.group hget hslot hoslot hown ho hk
    type dest destOffset name j buffer
  have hS₂ : s₂.superBlock.sectorNum = s.superBlock.sectorNum := hspec.sectorNum.trans taken_sectorNum
  have hch₁ := changesOnly_taken hf hh.group
  have hch₂ := hspec.changes
  rw [taken_sectorNum] at hch₂
  have hfather := changesOnly_slot s₂.disk (I o) hoslot
  have hnew := changesOnly_slot (storeInode s₂.disk (I o) o) (newInode dest type) hslot
  have hch₃ := changesOnly_storeBoth s₂.disk (I o) (newInode dest type) hoslot hslot
  obtain ⟨htype', hlink, hcount, hsize⟩ := newInode_fields dest htype (storeInode s₂.disk (I o) o) x
  refine ⟨x, _, _, hrun, ?_⟩
  exact
    { sectorNum := hS₂
      slot := hslot
      fresh := hfresh
      used := fun y => by
        rw [hch₃.inodeUsed_iff fun i => region_notMem_slots .inode _ o x i,
          hch₂.inodeUsed_iff fun i => region_notMem_block .inode _ i _, hused]
      consistent := by
        -- the data block is written after the bitmap, and the two inodes after it
        have hcons₂ := (hcons.taken hh).transfer hspec.formatted hspec.sectorNum
          ⟨by rw [hspec.alloc.superBlock], fun l => by rw [hspec.alloc.groupDesc]⟩ hspec.changes
          fun i => region_notMem_block .inode _ i _
        rw [← hS₂] at hch₃
        exact hcons₂.transfer (hspec.formatted.withDisk _) rfl ⟨rfl, fun _ => rfl⟩ hch₃
          fun i => region_notMem_slots .inode _ o x i
      owned := hown₃
      father := by
        rw [hnew.loadInode_eq hoslot (disjoint_slots hox), loadInode_storeInode hfits]
      type_eq := htype'
      linkCount := hlink
      blockCount := hcount
      size := hsize
      inode := fun y hy hyo => by
        have hyx : y ≠ x := fun heq => hfresh (heq ▸ hy)
        rw [hnew.loadInode_eq hy.isSlot (disjoint_slots hyx),
          hfather.loadInode_eq hy.isSlot (disjoint_slots hyo),
          hch₂.loadInode_eq hy.isSlot (disjoint_slot_block _ _ _),
          hch₁.loadInode_eq hy.isSlot (disjoint_slot_pool _ _ _)]
      edit := hedit }

/-! ## Removing an entry -/

/-- What the end of `freeInode` does to block `k` of the directory at `o`, when the file at `x` has no
other link. -/
structure RemoveSpec (s s' : FS) (P : ℕ → Prop) (I : ℕ → Inode) (o k x : ℕ) (buf : Buf) : Prop where
  sectorNum : s'.superBlock.sectorNum = s.superBlock.sectorNum
  used : ∀ y, InodeUsed s.superBlock.sectorNum s'.disk y
    ↔ InodeUsed s.superBlock.sectorNum s.disk y ∧ y ≠ x
  consistent : Consistent .inode s'
  blocks : ∀ a, Used s.superBlock.sectorNum s'.disk a
    ↔ Used s.superBlock.sectorNum s.disk a
      ∧ ∀ n : Node, n.Live (I x).blocks → a ≠ n.sector s.disk (I x)
  owned : Owned s' (fun y => P y ∧ y ≠ x) I
  inode : ∀ y, InodeUsed s.superBlock.sectorNum s.disk y → y ≠ x →
    loadInode s'.disk y = loadInode s.disk y
  edit : BlockEdit s s' (fun y => P y ∧ y ≠ x) I o k buf

/-- The regions that giving back an inode and its blocks touches. -/
def releaseRegions (S x : ℕ) : Set Region :=
  {q | (q ∈ poolRegions .block ∨ q ∈ slotRegion S x) ∨ q ∈ poolRegions .inode}

theorem disjoint_block_release (S x a : ℕ) : Disjoint (blockRegion S a) (releaseRegions S x) := by
  rw [Set.disjoint_left]
  rintro q hq ((hq' | hq') | hq')
  · exact Set.disjoint_left.mp (disjoint_block_pool _ _ _) hq hq'
  · exact Set.disjoint_left.mp (disjoint_block_slot _ _ _) hq hq'
  · exact Set.disjoint_left.mp (disjoint_block_pool _ _ _) hq hq'

theorem disjoint_slot_release {S x y : ℕ} (h : y ≠ x) :
    Disjoint (slotRegion S y) (releaseRegions S x) := by
  rw [Set.disjoint_left]
  rintro q hq ((hq' | hq') | hq')
  · exact Set.disjoint_left.mp (disjoint_slot_pool _ _ _) hq hq'
  · exact Set.disjoint_left.mp (disjoint_slots h) hq hq'
  · exact Set.disjoint_left.mp (disjoint_slot_pool _ _ _) hq hq'

/-- `freeBlock`, `setAllocInode` and `writeBlock` one after the other. -/
theorem release_spec {k x : ℕ} {v : ℤ} (hcons : Consistent .inode s) (hown : Owned s P I)
    (hx : P x) (hxused : InodeUsed s.superBlock.sectorNum s.disk x) (ho : P o) (hox : o ≠ x)
    (hk : k < (I o).blocks) (buf : Buf) :
    ∃ s₁ ino s₂ s', freeBlock s { I x with linkCount := v } x = (0, s₁, ino)
      ∧ setAllocInode s₁ x = some s₂ ∧ writeBlock s₂ (I o) k buf = some s'
      ∧ RemoveSpec s s' P I o k x buf := by
  have hf := hcons.formatted
  -- the count of links makes no difference to the blocks
  have hroot : ∀ y r, (update I x { I x with linkCount := v } y).rootPointer r
      = (I y).rootPointer r := by
    intro y r
    by_cases hyx : y = x
    · subst hyx
      rw [update_self]
      simp only [Inode.rootPointer]
    · rw [update_of_ne hyx]
  have hcount : ∀ y, (update I x { I x with linkCount := v } y).blockCount
      = (I y).blockCount := by
    intro y
    by_cases hyx : y = x
    · subst hyx
      rw [update_self]
    · rw [update_of_ne hyx]
  have hown' := hown.congr (fun y _ => hcount y) (fun y _ => hroot y)
  obtain ⟨s₁, ino, hfree, hspec₁⟩ := hown'.freeAll hf hx hxused.isSlot
  rw [update_self] at hfree
  have hused₁ : ∀ y, InodeUsed s.superBlock.sectorNum s₁.disk y
      ↔ InodeUsed s.superBlock.sectorNum s.disk y := by
    intro y
    refine hspec₁.changes.inodeUsed_iff fun i => ?_
    rintro (hq | hq)
    · exact region_notMem_pool (p := .inode) (by decide) i hq
    · exact region_notMem_slot .inode _ i _ hq
  have hcons₁ : Consistent .inode s₁ := by
    refine hcons.transfer hspec₁.formatted hspec₁.sectorNum hspec₁.counters hspec₁.changes fun i => ?_
    rintro (hq | hq)
    · exact region_notMem_pool (p := .inode) (by decide) i hq
    · exact region_notMem_slot .inode _ i _ hq
  -- the other files own their blocks
  have hown₁ : Owned s₁ (fun y => P y ∧ y ≠ x) I :=
    hspec₁.owned.restrict (fun y hy => hy.1) fun y hy => by
      rw [update_of_ne hy.2, update_of_ne hy.2]
  obtain ⟨s₂, hset, hspec₂⟩ := setAllocInode_spec hspec₁.formatted (x := x) (by
    rw [hspec₁.sectorNum, hused₁]
    exact hxused)
  have hown₂ : Owned s₂ (fun y => P y ∧ y ≠ x) I :=
    hspec₂.changes.owned (fun b => disjoint_block_pool _ b _) hown₁ hspec₂.sectorNum
      fun i => region_notMem_pool (p := .block) (by decide) i
  have hS₂ : s₂.superBlock.sectorNum = s.superBlock.sectorNum :=
    hspec₂.sectorNum.trans hspec₁.sectorNum
  have hch : ChangesOnly s.superBlock.sectorNum s.disk s₂.disk
      (releaseRegions s.superBlock.sectorNum x) := by
    have hch₂ := hspec₂.changes
    rw [hspec₁.sectorNum] at hch₂
    exact (hspec₁.changes.mono fun q hq => Or.inl hq).trans (hch₂.mono fun q hq => Or.inr hq)
  obtain ⟨s', hwrite, hspec⟩ := hown₂.write hspec₂.formatted ⟨ho, hox⟩ hk buf
  have hch' := hspec.changes
  rw [hS₂] at hch'
  refine ⟨s₁, ino, s₂, s', hfree, hset, hwrite, ?_⟩
  exact
    { sectorNum := hspec.sectorNum.trans hS₂
      used := fun y => by
        have hused₂ := hspec₂.used y
        rw [hspec₁.sectorNum, hused₁] at hused₂
        rw [hch'.inodeUsed_iff fun i => region_notMem_block .inode _ i _, hused₂]
      consistent := (hspec₂.consistent hcons₁).transfer hspec.formatted hspec.sectorNum
        ⟨by rw [hspec.alloc.superBlock], fun l => by rw [hspec.alloc.groupDesc]⟩ hspec.changes
        fun i => region_notMem_block .inode _ i _
      blocks := fun a => by
        have hch₂ := hspec₂.changes
        rw [hspec₁.sectorNum] at hch₂
        have hsector := fun n => sector_eq_of_rootPointer (d := s.disk) (hroot x) n
        rw [hch'.used_iff fun i => region_notMem_block .block _ i _,
          hch₂.used_iff fun i => region_notMem_pool (p := .block) (by decide) i, hspec₁.used]
        simp only [hsector, Nat.zero_le, true_imp_iff, Inode.blocks, hcount]
      owned := hspec.owned
      inode := fun y hy hyx => by
        rw [hch'.loadInode_eq hy.isSlot (disjoint_slot_block _ _ _),
          hch.loadInode_eq hy.isSlot (disjoint_slot_release hyx)]
      edit := by
        have hown₀ : Owned s (fun y => P y ∧ y ≠ x) I :=
          hown.restrict (fun y hy => hy.1) fun _ _ => rfl
        exact (hspec.blockEdit hown₂ ⟨ho, hox⟩ hk).before hown₀ hch
          fun a => disjoint_block_release _ x a }

end SeL4Sys

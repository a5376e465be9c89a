import SeL4Sys.DirAtomic
import SeL4Sys.DirRuns
import SeL4Sys.FileWrite

/-!
# What a creation changes

When `allocInode` returns 0, one inode that was free is in use, one block of the directory holds the new
entry, and every other file and directory is as it was: its inode, its block map and its contents. This
holds for whatever inode in use the entry goes into, and whether or not a block has to be added for it,
as long as the searches of the allocator find what is free.
-/

namespace SeL4Sys

open Bytes CString Loop Function

variable {s s' s₁ : FS} {o x y i j k : ℕ} {b : Buf} {name : List UInt8}
  {ino father dest dest' : Inode}
  {destOffset : ℕ} {type : ℤ} {stack : ℕ → Buf} {P : ℕ → Prop} {I : ℕ → Inode}

/-- The file at `y` is as it was: its inode, the blocks of its map and its contents. -/
structure KeepsFile (s s' : FS) (y : ℕ) : Prop where
  inode : loadInode s'.disk y = loadInode s.disk y
  sector : ∀ n : Node, n.Live (loadInode s.disk y).blocks →
    n.sector s'.disk (loadInode s.disk y) = n.sector s.disk (loadInode s.disk y)
  content : ∀ p, p < (loadInode s.disk y).blocks * 1024 →
    fileByte s'.disk (loadInode s.disk y) p = fileByte s.disk (loadInode s.disk y) p

/-- The slots of a directory that is as it was are as they were. -/
theorem KeepsFile.slot_eq (hk : KeepsFile s s' y) {t : ℕ} (ht : t < slots (loadInode s.disk y)) {i : ℕ}
    (hi : i < 128) : fileFrom s'.disk (loadInode s'.disk y) (128 * t) i
      = fileFrom s.disk (loadInode s.disk y) (128 * t) i := by
  unfold slots at ht
  rw [hk.inode, fileFrom, fileFrom, hk.content _ (by omega)]

theorem KeepsFile.refl (s : FS) (y : ℕ) : KeepsFile s s y := ⟨rfl, fun _ _ => rfl, fun _ _ => rfl⟩

/-- The searches that a creation in a directory with this inode makes find what is free, if there is
anything: an inode, and, only where no slot of the directory is free, the blocks to add one to it. -/
structure FindsFree (s : FS) (ino : Inode) : Prop where
  inode : s.superBlock.availInodeNum ≠ 0 → NearHole .inode s
  blocks : (∀ t, t < slots ino → slotInode s.disk ino t ≠ 0) →
    (newLevels ino.blocks : ℤ) + 1 ≤ s.superBlock.availBlockNum → GetsFreeFor s (newLevels ino.blocks + 1)

/-- When the search of `allocInode` runs to its end no slot is free. -/
theorem full_of_scan_missing {b' : Buf} (hf : Formatted s) (hcount : ino.blocks ≤ maxBlocks)
    (hscan : scanDir s ino (stopsAlloc name) b = .missing b') :
    ∀ t, t < slots ino → slotInode s.disk ino t ≠ 0 := by
  intro t ht hzero
  have hspec := scanDir_blockIn hf hcount (stopsAlloc name) b
  rw [hscan] at hspec
  cases hspec with
  | missing _ hnone =>
    have hstop := hnone t ht
    simp only [stopsAlloc, Bool.or_eq_false_iff] at hstop
    rw [(holds_blockIn _ _ _ _).entryInode_eq rfl, hzero] at hstop
    cases hstop.1

/-- A hole that the search reaches stays one when neither counters nor bitmaps change. -/
theorem NearHole.transfer {p : Pool} (h : NearHole p s) (hf : Formatted s) (hf' : Formatted s')
    (hS : s'.superBlock.sectorNum = s.superBlock.sectorNum) (hcounters : SameCounters p s s')
    (hchanges : ChangesOnly s.superBlock.sectorNum s.disk s'.disk W)
    (hW : ∀ i, p.region i ∉ W) : NearHole p s' := by
  obtain ⟨i, j, hi, havail, hfirst, hj, hle, hbyte⟩ := h
  refine ⟨i, j, by rwa [hS], by rwa [hcounters.group], fun l hl => ?_, hj, by rwa [hcounters.group], ?_⟩
  · rw [hcounters.group]
    exact hfirst l hl
  · have hagree := hchanges.agree (Pool.region_valid p hi) (hW i)
    rw [Pool.region_len] at hagree
    rw [hf'.bitmap_eq (by rwa [hS]), hS, hagree _ (by omega) (by omega), ← hf.bitmap_eq hi]
    exact hbyte

/-- `memset` with its last two arguments exchanged does nothing. -/
theorem memset_zero (b : Buf) (n : ℕ) : memset b n 0 = b := patch_nothing _ _ _

/-! ## Adding a block -/

section alloced
variable {ι : Type*} [DecidableEq ι] {P : ι → Prop} {I : ι → Inode} {y : ι} {b : ℕ} {ino : Inode}

theorem AllocSpec.inodes (h : AllocSpec s s' P I y o b ino) (hcons : Consistent .inode s) :
    Consistent .inode s' :=
  hcons.transfer h.formatted h.sectorNum h.alloc.inodeCounters h.changes
    fun i => inodeBitmap_notMem_fileRegions _ _ _ _ i

theorem AllocSpec.inUse_iff (h : AllocSpec s s' P I y o b ino) : s'.InUse x ↔ s.InUse x := by
  rw [FS.InUse, h.sectorNum]
  exact h.changes.inodeUsed_iff fun i => inodeBitmap_notMem_fileRegions _ _ _ _ i

/-- The size is no matter of the blocks. -/
theorem AllocSpec.owned_withSize (h : AllocSpec s s' P I y o b ino) (v : ℤ) :
    Owned s' P (update I y { ino with size := v }) := by
  refine h.owned.congr (fun z _ => ?_) fun z _ r => ?_
  · by_cases hz : z = y
    · rw [hz, update_self, update_self]
    · rw [update_of_ne hz, update_of_ne hz]
  · by_cases hz : z = y
    · rw [hz, update_self, update_self, rootPointer_withSize]
    · rw [update_of_ne hz, update_of_ne hz]

/-- The blocks that the file had hold what they held. -/
theorem AllocSpec.fileByte_withSize (h : AllocSpec s s' P I y o b ino) (hown : Owned s P I)
    (hy : P y) (v : ℤ) {p : ℕ} (hp : p < (I y).blocks * 1024) :
    fileByte s'.disk { ino with size := v } p = fileByte s.disk (I y) p := by
  have hp' : p < ino.blocks * 1024 := by
    rw [(h.evolved hown hy).2, Nat.add_mul]
    exact Nat.lt_add_right _ hp
  have hbyte := h.fileByte_eq hown hy hp'
  rw [if_pos hp] at hbyte
  rw [← hbyte, fileByte, fileByte, sector_withSize]

end alloced

/-- No file has as many blocks as an inode can have. -/
theorem FsOk.blocks_lt (h : FsOk s) (ho : s.InUse o) : (loadInode s.disk o).blocks < maxBlocks := by
  have hle := h.owned.blocks_add_le h.inodes.formatted ho (m := 0) fun j hj => absurd hj (Nat.not_lt_zero j)
  unfold maxData at hle
  simp only [maxBlocks]
  omega

theorem FsOk.blockCount_eq (h : FsOk s) (ho : s.InUse o) :
    (loadInode s.disk o).blockCount = ((loadInode s.disk o).blocks : ℕ) := by
  have := (h.owned.count o ho).1
  rw [Inode.blocks]
  omega

/-- An `allocBlock` of a file in use that returns 0. -/
theorem FsOk.allocSpec (h : FsOk s) (ho : s.InUse o)
    (hget : (newLevels (loadInode s.disk o).blocks : ℤ) + 1 ≤ s.superBlock.availBlockNum →
      GetsFreeFor s (newLevels (loadInode s.disk o).blocks + 1))
    (halloc : allocBlock s (loadInode s.disk o) o stack = some (s₁, ino)) :
    AllocSpec s s₁ s.InUse (loadInode s.disk) o o (s.fresh 0) ino := by
  have hf := h.inodes.formatted
  have hcount := h.blockCount_eq ho
  have havail := allocBlock_avail hf hcount (h.blocks_lt ho) halloc
  have ⟨s₂, ino₂, halloc₂, hspec⟩ := h.owned.alloc hf ho hcount (h.blocks_lt ho)
    (hget havail) ho.isSlot havail stack
  have heq := Option.some.inj (halloc.symm.trans halloc₂)
  rw [Prod.mk.injEq] at heq
  rw [heq.1, heq.2]
  exact hspec

/-- The inode of a directory after a block was added, with the size that `allocInode` sets. -/
structure GrownInode (s s₁ : FS) (o : ℕ) (father : Inode) : Prop where
  blocks : father.blocks = (loadInode s.disk o).blocks + 1
  type : father.type = (loadInode s.disk o).type
  fits : father.Fits
  owned : Owned s₁ s.InUse (update (loadInode s.disk) o father)
  content : ∀ p, p < (loadInode s.disk o).blocks * 1024 →
    fileByte s₁.disk father p = fileByte s.disk (loadInode s.disk o) p

theorem FsOk.grownInode (h : FsOk s) (ho : s.InUse o)
    (hspec : AllocSpec s s₁ s.InUse (loadInode s.disk) o o (s.fresh 0) ino) :
    GrownInode s s₁ o { ino with size := ino.blockCount * s₁.superBlock.blockSize } where
  blocks := (hspec.evolved h.owned ho).2
  type := hspec.type
  fits := by
    have hino := hspec.fits (loadInode_fits s.disk o)
    have hsize := hspec.owned.fits_size hspec.formatted ho (n := ino.blocks * 1024) (by
      rw [update_self])
    refine ⟨hino.type, hino.linkCount, hino.blockCount, ?_, hino.pointer, hino.pointer_out,
      hino.singlyPointer, hino.doublyPointer, hino.triplyPointer, hino.pad_out⟩
    have hnat : ino.blockCount = (ino.blocks : ℤ) := by
      have := (h.owned.count o ho).1
      rw [Inode.blocks, hspec.blockCount]
      omega
    rw [hspec.formatted.blockSize, hnat]
    exact_mod_cast hsize
  owned := hspec.owned_withSize _
  content := fun _ hp => hspec.fileByte_withSize h.owned ho _ hp

/-! ## The creation -/

/-- Entry `j` of block `i` of the directory at `o` was set for a new inode `x`, in a block that held `b`
before. All other files are as they were. -/
structure EntryAdded (s s' : FS) (o x i j : ℕ) (b : Buf) (name : List UInt8) : Prop where
  formatted : Formatted s'
  sectorNum : s'.superBlock.sectorNum = s.superBlock.sectorNum
  slot : IsSlot s.superBlock.sectorNum x
  fresh : ¬ s.InUse x
  type : (loadInode s'.disk o).type = (loadInode s.disk o).type
  blocks : (loadInode s'.disk o).blocks = max (loadInode s.disk o).blocks (i + 1)
  block : Holds s'.disk (loadInode s'.disk o) i (setEntryInode (setEntryName b j name) j x)
  old : ∀ p, p < (loadInode s.disk o).blocks * 1024 → p / 1024 ≠ i →
    fileByte s'.disk (loadInode s'.disk o) p = fileByte s.disk (loadInode s.disk o) p
  others : ∀ y, s.InUse y → y ≠ o → KeepsFile s s' y

/-- Where `allocInode` puts the entry: the first entry that is empty, or the first one of a new block. -/
inductive EntryPlace (s : FS) (ino : Inode) (name : List UInt8) (buffer : Buf) : ℕ → ℕ → Buf → Prop
  | slot {i j : ℕ} {b : Buf} (hscan : scanDir s ino (stopsAlloc name) buffer = .found i j b)
      (hempty : entryInode (dirEntry b j) = 0) : EntryPlace s ino name buffer i j b
  | block {b : Buf} (hscan : scanDir s ino (stopsAlloc name) buffer = .missing b) :
      EntryPlace s ino name buffer ino.blocks 0 b

/-- An entry in a block that the directory has. -/
theorem FsOk.entryAdded (h : FsOk s) (ho : s.InUse o) (hh : Hits .inode s)
    (hi : i < (loadInode s.disk o).blocks) (htype : FitsInt 2 type)
    (hrun : addEntry s (loadInode s.disk o) o dest destOffset name type i j b = ⟨0, s', ino, dest', x⟩) :
    EntryAdded s s' o x i j b name := by
  have ⟨x₂, s₂, dest₂, hrun₂, hadd⟩ := addEntry_spec h.inodes hh h.owned (fun _ hy => hy) ho
    (loadInode_fits s.disk o) hi htype dest destOffset name j b
  have heq := hrun.symm.trans hrun₂
  rw [DirResult.mk.injEq] at heq
  rw [heq.2.1, heq.2.2.2.2]
  exact
    { formatted := hadd.consistent.formatted
      sectorNum := hadd.sectorNum
      slot := hadd.slot
      fresh := hadd.fresh
      type := by rw [hadd.father]
      blocks := by
        rw [hadd.father]
        omega
      block := by
        rw [hadd.father]
        exact hadd.edit.block
      old := fun p hp hne => by
        rw [hadd.father]
        exact hadd.edit.other o ho p hp fun _ => hne
      others := fun y hy hyo => ⟨hadd.inode y hy hyo, hadd.edit.sector y hy, fun p hp =>
        hadd.edit.other y hy p hp fun heq => absurd heq hyo⟩ }

/-- An entry in a new block. -/
theorem FsOk.entryAdded_grown (h : FsOk s) (ho : s.InUse o) (hnear : NearHole .inode s)
    (hspec : AllocSpec s s₁ s.InUse (loadInode s.disk) o o (s.fresh 0) ino) (htype : FitsInt 2 type)
    (hrun : addEntry s₁ { ino with size := ino.blockCount * s₁.superBlock.blockSize } o dest destOffset
      name type (loadInode s.disk o).blocks j b = ⟨0, s', father, dest', x⟩) :
    EntryAdded s s' o x (loadInode s.disk o).blocks j b name := by
  have hf := h.inodes.formatted
  have hgrown := h.grownInode ho hspec
  have hevolved := (hspec.evolved h.owned ho).1
  generalize ({ ino with size := ino.blockCount * s₁.superBlock.blockSize } : Inode) = father' at *
  -- the new block was not taken from the bitmap of the inodes, so a free inode is as near as before
  have hh₁ := (hspec.inodes h.inodes).hits_of_nearHole (hnear.transfer hf hspec.formatted
    hspec.sectorNum hspec.alloc.inodeCounters hspec.changes
    fun i => inodeBitmap_notMem_fileRegions _ _ _ _ i)
  have hself : update (loadInode s.disk) o father' o = father' := update_self ..
  have hother : ∀ {y}, y ≠ o → update (loadInode s.disk) o father' y = loadInode s.disk y :=
    fun hyo => update_of_ne hyo ..
  have ⟨x₂, s₂, dest₂, hrun₂, hadd⟩ := addEntry_spec (hspec.inodes h.inodes) hh₁ hgrown.owned
    (fun y hy => hspec.inUse_iff.mpr hy) ho (by rw [hself]; exact hgrown.fits)
    (k := (loadInode s.disk o).blocks) (by rw [hself, hgrown.blocks]; omega) htype dest destOffset name
    j b
  rw [hself] at hrun₂
  have heq := hrun.symm.trans hrun₂
  rw [DirResult.mk.injEq] at heq
  rw [heq.2.1, heq.2.2.2.2]
  have hload : loadInode s₂.disk o = father' := by rw [hadd.father, hself]
  exact
    { formatted := hadd.consistent.formatted
      sectorNum := hadd.sectorNum.trans hspec.sectorNum
      slot := by
        rw [← hspec.sectorNum]
        exact hadd.slot
      fresh := fun hused => hadd.fresh (hspec.inUse_iff.mpr hused)
      type := by rw [hload, hgrown.type]
      blocks := by
        rw [hload, hgrown.blocks]
        omega
      block := by
        have hblock := hadd.edit.block
        rw [hself] at hblock
        rw [hload]
        exact hblock
      old := fun p hp hne => by
        have hold := hadd.edit.other o ho p
        -- the entry is in the new block, behind all the old bytes
        rw [hself, hgrown.blocks, Nat.add_mul] at hold
        rw [hload, hold (Nat.lt_add_right _ hp) fun _ => hne, hgrown.content p hp]
      others := fun y hy hyo => by
        have hsectors := hadd.edit.sector y hy
        have hbytes := hadd.edit.other y hy
        have hmoved := hevolved.sector y hy
        rw [hother hyo] at hsectors hbytes
        rw [update_of_ne hyo] at hmoved
        refine ⟨?_, ?_, ?_⟩
        · rw [hadd.inode y (hspec.inUse_iff.mpr hy) hyo, hevolved.loadInode_eq hy.isSlot hyo]
        · intro n hn
          rw [hsectors n hn, hmoved n hn]
        · intro p hp
          rw [hbytes p hp fun heq => absurd heq hyo, hevolved.fileByte_eq h.owned ho hy hyo hp] }

/-- A creation that returns 0. -/
theorem allocInode_entryAdded (h : FsOk s) (ho : s.InUse o) (hfree : FindsFree s (loadInode s.disk o))
    (htype : FitsInt 2 type)
    (hrun : allocInode s (loadInode s.disk o) o dest destOffset name type b stack
      = ⟨0, s', father, dest', x⟩) :
    ∃ i j b', EntryPlace s (loadInode s.disk o) name b i j b' ∧ EntryAdded s s' o x i j b' name := by
  unfold allocInode at hrun
  by_cases hname : name = []
  · rw [if_pos hname] at hrun
    cases hrun
  rw [if_neg hname] at hrun
  by_cases havail : s.superBlock.availInodeNum = 0
  · rw [if_pos havail] at hrun
    cases hrun
  rw [if_neg havail] at hrun
  -- past the two checks of the arguments
  have hnear := hfree.inode havail
  match hscan : scanDir s (loadInode s.disk o) (stopsAlloc name) b with
  | .failed =>
    rw [hscan] at hrun
    cases hrun
  | .found i j b' =>
    rw [hscan] at hrun
    simp only at hrun
    by_cases hlive : entryInode (dirEntry b' j) ≠ 0
    · rw [if_pos hlive] at hrun
      cases hrun
    rw [if_neg hlive] at hrun
    have hi : i < (loadInode s.disk o).blocks := by
      have := scanDir_found_lt hscan
      rw [h.blockCount_eq ho] at this
      exact_mod_cast this
    exact ⟨i, j, b', .slot hscan (not_not.mp hlive),
      h.entryAdded ho (h.inodes.hits_of_nearHole hnear) hi htype hrun⟩
  | .missing b' =>
    rw [hscan] at hrun
    simp only at hrun
    match halloc : allocBlock s (loadInode s.disk o) o stack with
    | none =>
      rw [halloc] at hrun
      cases hrun
    | some (s₁, ino) =>
      rw [halloc] at hrun
      simp only [Option.elim_some, memset_zero] at hrun
      have hget := hfree.blocks (full_of_scan_missing h.inodes.formatted (h.blocks_lt ho).le hscan)
      exact ⟨_, 0, b', .block hscan,
        h.entryAdded_grown ho hnear (h.allocSpec ho hget halloc) htype hrun⟩

/-- A creation where no entry is free: a block is added, and the call returns 0. -/
theorem allocInode_grows (h : FsOk s) (ho : s.InUse o) (hfree : FindsFree s (loadInode s.disk o))
    (htype : FitsInt 2 type) (hname : name ≠ []) (hinode : s.superBlock.availInodeNum ≠ 0)
    (havail : (newLevels (loadInode s.disk o).blocks : ℤ) + 1 ≤ s.superBlock.availBlockNum)
    {buffer : Buf} (hscan : scanDir s (loadInode s.disk o) (stopsAlloc name) buffer = .missing b)
    (dest : Inode) (destOffset : ℕ) (stack : ℕ → Buf) :
    ∃ x s' father dest', allocInode s (loadInode s.disk o) o dest destOffset name type buffer stack
        = ⟨0, s', father, dest', x⟩
      ∧ EntryAdded s s' o x (loadInode s.disk o).blocks 0 b name := by
  have hf := h.inodes.formatted
  have hfull := full_of_scan_missing hf (h.blocks_lt ho).le hscan
  have ⟨s₁, ino, halloc, hspec⟩ := h.owned.alloc hf ho (h.blockCount_eq ho) (h.blocks_lt ho)
    (hfree.blocks hfull havail) ho.isSlot havail stack
  -- blocks and inodes are counted apart
  have hinode₁ : s₁.superBlock.availInodeNum ≠ 0 := fun hzero =>
    hinode (hspec.alloc.inodeCounters.superBlock.symm.trans hzero)
  rw [allocInode, if_neg hname, if_neg hinode, hscan]
  simp only [halloc, Option.elim_some, memset_zero]
  generalize hres : addEntry s₁ { ino with size := ino.blockCount * s₁.superBlock.blockSize } o dest
    destOffset name type (loadInode s.disk o).blocks 0 b = res
  have hzero : res.ret = 0 := by
    rw [← hres]
    exact addEntry_ret hspec.formatted hinode₁ (h.blocks_lt ho) _ _ _ _ _ _ _
  have hrun : res = ⟨0, res.fs, res.fatherInode, res.destInode, res.destInodeOffset⟩ := by rw [← hzero]
  exact ⟨res.destInodeOffset, res.fs, res.fatherInode, res.destInode, hrun,
    h.entryAdded_grown ho (hfree.inode hinode) hspec htype (hres.trans hrun)⟩

end SeL4Sys

import Mathlib.Algebra.Order.BigOperators.Group.Finset
import SeL4Sys.OwnershipAlloc

/-!
# The bytes of a file

`fileByte d ino p` is byte `p` of the blocks of a file. A file changes by steps that add blocks
to it and write its blocks (`Evolved`); such steps compose, and they leave alone what is not the
file's: the other files, the other inodes and, for the allocator, everything but the blocks
that were taken.
-/

namespace SeL4Sys

open Bytes Function

variable {ι : Type*} {s s' s'' : FS} {P : ι → Prop} {I : ι → Inode} {x : ι} {o : ℕ} {ino : Inode}

/-- Byte `p` of a file, counted over its blocks. -/
def fileByte (d : Disk) (ino : Inode) (p : ℕ) : UInt8 :=
  d ((dataNode (p / 1024)).sector d ino * 512 + p % 1024)

/-- The bytes of the file from byte `off` on. -/
def fileFrom (d : Disk) (ino : Inode) (off : ℕ) : Buf := fun i => fileByte d ino (off + i)

theorem window_fileFrom (d : Disk) (ino : Inode) (off n : ℕ) :
    window (fileFrom d ino off) n = fileFrom d ino (off + n) := by
  funext i
  simp only [window_apply, fileFrom, Nat.add_assoc]

/-! ## How many blocks there are -/

/-- The number of data blocks that 228 full groups have, which is as many groups as fit on a
disk of `2 ^ 31` bytes. -/
def maxData : ℕ := 1867776

/-- Different data blocks are at most as many as there are. -/
theorem le_maxData {S K : ℕ} (hS : S * 512 ≤ 2 ^ 31) {f : ℕ → ℕ}
    (hdata : ∀ j, j < K → IsData S (f j))
    (hinj : ∀ j l, j < K → l < K → f j = f l → j = l) : K ≤ maxData := by
  have hg := groups_le S
  -- number the blocks of the disk
  have hcode : ∀ j, ∃ a, j < K → a < maxData ∧ f j = dataSector S (a / 8192) (a % 8192) := by
    intro j
    by_cases hj : j < K
    · obtain ⟨i, n, hi, hn, heq⟩ := hdata j hj
      have hn' := blocksOf_le S i
      refine ⟨i * 8192 + n, fun _ => ⟨?_, ?_⟩⟩
      · show i * 8192 + n < 1867776
        omega
      · rw [heq, show (i * 8192 + n) / 8192 = i by omega, show (i * 8192 + n) % 8192 = n by omega]
    · exact ⟨0, fun h => absurd h hj⟩
  choose a ha using hcode
  have hcard := Finset.card_le_card_of_injOn (s := Finset.range K) (t := Finset.range maxData) a
    (fun j hj => by
      simp only [Finset.coe_range, Set.mem_Iio] at hj ⊢
      exact (ha j hj).1)
    (fun j hj l hl heq => by
      simp only [Finset.coe_range, Set.mem_Iio] at hj hl
      apply hinj j l hj hl
      rw [(ha j hj).2, (ha l hl).2, heq])
  rwa [Finset.card_range, Finset.card_range] at hcard

/-- The blocks that a file has and those that the allocator can still hand out are different
blocks of the disk. -/
theorem Owned.blocks_add_le (h : Owned s P I) (hf : Formatted s) (hx : P x) {m : ℕ}
    (hget : GetsFreeFor s m) : (I x).blocks + m ≤ maxData := by
  have hmax : ∀ j, j < (I x).blocks → j < maxBlocks := fun j hj =>
    lt_of_lt_of_le hj (h.blocks_le hx)
  have hlive := fun j (hj : j < (I x).blocks) => dataNode_live (hmax j hj) hj
  have hne : ∀ j l, j < (I x).blocks → l < m →
      (dataNode j).sector s.disk (I x) ≠ s.fresh l := by
    intro j l hj hl heq
    apply (fresh_not_used hf hget hl).1
    rw [← heq]
    exact h.used x hx _ (hlive j hj)
  apply le_maxData hf.addressable
    (f := fun j => if j < (I x).blocks then (dataNode j).sector s.disk (I x)
      else s.fresh (j - (I x).blocks))
  · intro j hj
    split_ifs with hj'
    · exact h.isData hx (hlive j hj')
    · exact isData_fresh hf hget (by omega)
  · intro j l hj hl heq
    split_ifs at heq with hj' hl' hl'
    · exact dataNode_inj (hmax j hj') (hmax l hl')
        (h.inj x x hx hx _ _ (hlive j hj') (hlive l hl') heq).2
    · exact absurd heq (hne j _ hj' (by omega))
    · exact absurd heq.symm (hne l _ hl' (by omega))
    · have := fresh_inj hf hget (show j - (I x).blocks < m by omega) (by omega) heq
      omega

/-- The size of a file whose bytes lie in its blocks can be stored. -/
theorem Owned.fits_size (h : Owned s P I) (hf : Formatted s) (hx : P x) {n : ℕ}
    (hn : n ≤ (I x).blocks * 1024) : FitsInt 4 (n : ℤ) := by
  have hle : (I x).blocks + 0 ≤ 1867776 :=
    h.blocks_add_le hf hx (m := 0) fun j hj => absurd hj (Nat.not_lt_zero j)
  unfold FitsInt
  norm_num
  omega

/-! ## Steps of one file -/

/-- The blocks that it takes to let a file of `c` blocks grow to `c'`: the data blocks and the
pointer blocks that come with them. -/
def blocksFor (c c' : ℕ) : ℕ := ∑ k ∈ Finset.Ico c c', (newLevels k + 1)

@[simp] theorem blocksFor_self (c : ℕ) : blocksFor c c = 0 := by simp [blocksFor]

theorem blocksFor_succ (c : ℕ) : blocksFor c (c + 1) = newLevels c + 1 := by
  rw [blocksFor, Nat.Ico_succ_singleton, Finset.sum_singleton]

theorem blocksFor_add {c c' c'' : ℕ} (h : c ≤ c') (h' : c' ≤ c'') :
    blocksFor c c'' = blocksFor c c' + blocksFor c' c'' :=
  (Finset.sum_Ico_consecutive (fun k => newLevels k + 1) h h').symm

theorem sub_le_blocksFor (c c' : ℕ) : c' - c ≤ blocksFor c c' := by
  rw [blocksFor, ← Nat.card_Ico, Finset.card_eq_sum_ones]
  exact Finset.sum_le_sum fun k _ => Nat.le_add_left 1 (newLevels k)

/-- The regions that changing a file may touch: the allocator's, its inode and its blocks. -/
def fileRegions (S : ℕ) (d : Disk) (ino : Inode) (o : ℕ) : Set Region :=
  {q | q ∈ poolRegions .block ∨ q ∈ slotRegion S o
    ∨ ∃ n : Node, n.Live ino.blocks ∧ q ∈ blockRegion S (n.sector d ino)}

/-- Changing a file leaves the bitmaps of inodes alone. -/
theorem inodeBitmap_notMem_fileRegions (S : ℕ) (d : Disk) (ino : Inode) (o i : ℕ) :
    Region.inodeBitmap i ∉ fileRegions S d ino o := by
  rintro (hq | hq | ⟨n, _, hq⟩)
  · exact region_notMem_pool (p := .inode) (by decide) i hq
  · exact region_notMem_slot .inode _ i _ hq
  · exact region_notMem_block .inode _ i _ hq

/-- File `x`, with its inode at offset `o`, has been changed from `I x` to `ino`. -/
structure Evolved [DecidableEq ι] (s s' : FS) (P : ι → Prop) (I : ι → Inode) (x : ι) (o : ℕ)
    (ino : Inode) : Prop where
  formatted : Formatted s'
  sectorNum : s'.superBlock.sectorNum = s.superBlock.sectorNum
  type : ino.type = (I x).type
  linkCount : ino.linkCount = (I x).linkCount
  fits : (I x).Fits → ino.Fits
  blocks : (I x).blocks ≤ ino.blocks
  owned : Owned s' P (update I x ino)
  sector : ∀ y, P y → ∀ n : Node, n.Live (I y).blocks →
    n.sector s'.disk (update I x ino y) = n.sector s.disk (I y)
  used : ∀ a, Used s.superBlock.sectorNum s.disk a → Used s.superBlock.sectorNum s'.disk a
  alloc : SameAlloc (s.takes (blocksFor (I x).blocks ino.blocks)) s'
  changes : ChangesOnly s.superBlock.sectorNum s.disk s'.disk
    (fileRegions s.superBlock.sectorNum s'.disk ino o)

section
variable [DecidableEq ι]

theorem Evolved.live (h : Evolved s s' P I x o ino) {y : ι} {n : Node} (hn : n.Live (I y).blocks) :
    n.Live (update I x ino y).blocks := by
  refine ⟨hn.valid, lt_of_lt_of_le hn.first_lt ?_⟩
  by_cases hyx : y = x
  · subst hyx
    rw [update_self]
    exact h.blocks
  · rw [update_of_ne hyx]

/-- The blocks of the file stay where they are in a later step. -/
theorem Evolved.fileRegions_subset {S : ℕ} {ino' : Inode} (hx : P x)
    (h : Evolved s' s'' P (update I x ino) x o ino') :
    fileRegions S s'.disk ino o ⊆ fileRegions S s''.disk ino' o := by
  intro q hq
  rcases hq with hq | hq | ⟨n, hn, hq⟩
  · exact Or.inl hq
  · exact Or.inr (Or.inl hq)
  · have hlive : n.Live (update I x ino x).blocks := by rwa [update_self]
    have hsector := h.sector x hx n hlive
    have hlive' := h.live hlive
    rw [update_self] at hsector hlive'
    rw [update_self] at hsector
    exact Or.inr (Or.inr ⟨n, hlive', by rwa [hsector]⟩)

/-- Steps compose. -/
theorem Evolved.trans {ino' : Inode} (hf : Formatted s) (hx : P x)
    (h : Evolved s s' P I x o ino) (h' : Evolved s' s'' P (update I x ino) x o ino')
    (hget : GetsFreeFor s (blocksFor (I x).blocks ino'.blocks)) :
    Evolved s s'' P I x o ino' := by
  have hblocks := h'.blocks
  have htype := h'.type
  have hlink := h'.linkCount
  have halloc := h'.alloc
  rw [update_self] at hblocks htype hlink halloc
  have hsum := blocksFor_add h.blocks hblocks
  exact
    { formatted := h'.formatted
      sectorNum := h'.sectorNum.trans h.sectorNum
      type := htype.trans h.type
      linkCount := hlink.trans h.linkCount
      fits := fun hfits => h'.fits (by rw [update_self]; exact h.fits hfits)
      blocks := h.blocks.trans hblocks
      owned := by
        have := h'.owned
        rwa [update_idem] at this
      sector := fun y hy n hn => by
        have := h'.sector y hy n (h.live hn)
        rw [update_idem] at this
        rw [this, h.sector y hy n hn]
      used := fun a ha => by
        have := h'.used a
        rw [h.sectorNum] at this
        exact this (h.used a ha)
      alloc := by
        rw [hsum] at hget ⊢
        rw [← takes_takes]
        exact (h.alloc.takes (takes_formatted hf _).1 hget.drop).trans halloc
      changes := by
        have := h'.changes
        rw [h.sectorNum] at this
        exact (h.changes.mono (h'.fileRegions_subset hx)).trans this }

/-- Adding a block is a step. -/
theorem AllocSpec.evolved {b : ℕ} (h : AllocSpec s s' P I x o b ino) (hown : Owned s P I)
    (hx : P x) : Evolved s s' P I x o ino ∧ ino.blocks = (I x).blocks + 1 := by
  have hpos := (hown.count x hx).1
  have hblocks : ino.blocks = (I x).blocks + 1 := by
    rw [Inode.blocks, Inode.blocks, h.blockCount]
    omega
  refine ⟨?_, hblocks⟩
  exact
    { formatted := h.formatted
      sectorNum := h.sectorNum
      type := h.type
      linkCount := h.linkCount
      fits := h.fits
      blocks := by omega
      owned := h.owned
      sector := h.sector
      used := h.used
      alloc := by
        rw [hblocks, blocksFor_succ]
        exact h.alloc
      changes := h.changes }

/-- The inode with another size. -/
theorem rootPointer_withSize (ino : Inode) (v : ℤ) (r : ℕ) :
    ({ ino with size := v } : Inode).rootPointer r = ino.rootPointer r := by
  simp only [Inode.rootPointer]

theorem sector_withSize (d : Disk) (ino : Inode) (v : ℤ) (n : Node) :
    n.sector d { ino with size := v } = n.sector d ino :=
  sector_eq_of_rootPointer (rootPointer_withSize ino v) n

/-- Writing a block is a step, also when the size changes with it. -/
theorem WriteSpec.evolved {k : ℕ} {buffer : Buf} (h : WriteSpec s s' P I x k buffer)
    (hown : Owned s P I) (hx : P x) (hk : k < (I x).blocks) {v : ℤ}
    (hv : (I x).Fits → FitsInt 4 v) : Evolved s s' P I x o { I x with size := v } := by
  have hlive := dataNode_live (lt_of_lt_of_le hk (hown.blocks_le hx)) hk
  have hroot : ∀ y r, (update I x { I x with size := v } y).rootPointer r
      = (I y).rootPointer r := by
    intro y r
    by_cases hyx : y = x
    · subst hyx
      rw [update_self, rootPointer_withSize]
    · rw [update_of_ne hyx]
  have hcount : ∀ y, (update I x { I x with size := v } y).blockCount
      = (I y).blockCount := by
    intro y
    by_cases hyx : y = x
    · subst hyx
      rw [update_self]
    · rw [update_of_ne hyx]
  exact
    { formatted := h.formatted
      sectorNum := h.sectorNum
      type := rfl
      linkCount := rfl
      fits := fun hfits => ⟨hfits.type, hfits.linkCount, hfits.blockCount, hv hfits, hfits.pointer,
        hfits.pointer_out, hfits.singlyPointer, hfits.doublyPointer, hfits.triplyPointer,
        hfits.pad_out⟩
      blocks := le_rfl
      owned := h.owned.congr (fun y _ => hcount y) (fun y _ => hroot y)
      sector := fun y hy n hn => by
        rw [sector_eq_of_rootPointer (hroot y), h.sector y hy n hn]
      used := fun a ha => (h.changes.used_iff fun i => region_notMem_block .block _ i _).mpr ha
      alloc := by
        rw [show blocksFor (I x).blocks (I x).blocks = 0 from blocksFor_self _]
        exact h.alloc
      changes := h.changes.mono fun q hq => by
        refine Or.inr (Or.inr ⟨dataNode k, hlive, ?_⟩)
        rwa [sector_withSize, h.sector x hx _ hlive] }

omit [DecidableEq ι] in
/-- Writing the inode back moves no block of any file. -/
theorem Owned.sector_store (hown : Owned s' P I) (ino : Inode) (ho : IsSlot s'.superBlock.sectorNum o) {y : ι}
    (hy : P y) {n : Node} (hn : n.Live (I y).blocks) :
    n.sector (storeInode s'.disk ino o) (I y) = n.sector s'.disk (I y) := by
  refine sector_eq_of_agree (fun r i l hl => ?_) hn
  exact (changesOnly_slot _ ino ho).agree_block (hown.isData hy hl.tail) (disjoint_block_slot _ _ _)

omit [DecidableEq ι] in
/-- A block that was written holds what was written. -/
theorem WriteSpec.fileByte_self {k : ℕ} {buffer : Buf} (h : WriteSpec s s' P I x k buffer)
    (hown : Owned s P I) (hx : P x) (hk : k < (I x).blocks) {i : ℕ} (hi : i < 1024) :
    fileByte s'.disk (I x) (1024 * k + i) = buffer i := by
  have hlive := dataNode_live (lt_of_lt_of_le hk (hown.blocks_le hx)) hk
  rw [fileByte, show (1024 * k + i) / 1024 = k by omega, show (1024 * k + i) % 1024 = i by omega,
    h.sector x hx _ hlive, h.written i hi]

omit [DecidableEq ι] in
/-- Writing a block leaves the other blocks of all files alone. -/
theorem WriteSpec.fileByte_of_ne {k : ℕ} {buffer : Buf} (h : WriteSpec s s' P I x k buffer)
    (hown : Owned s P I) (hx : P x) (hk : k < (I x).blocks) {y : ι} (hy : P y) {p : ℕ}
    (hp : p < (I y).blocks * 1024) (hne : y = x → p / 1024 ≠ k) :
    fileByte s'.disk (I y) p = fileByte s.disk (I y) p := by
  have hmax : k < maxBlocks := lt_of_lt_of_le hk (hown.blocks_le hx)
  have hpk : p / 1024 < (I y).blocks := by omega
  have hpmax : p / 1024 < maxBlocks := lt_of_lt_of_le hpk (hown.blocks_le hy)
  have hlive := dataNode_live hpmax hpk
  rw [fileByte, fileByte, h.sector y hy _ hlive]
  refine (h.changes.agree_block (hown.isData hy hlive) (disjoint_blocks ?_)).window_eq
    (i := p % 1024) (Nat.mod_lt _ (by norm_num))
  intro heq
  obtain ⟨hyx, hnode⟩ := hown.inj y x hy hx _ _ hlive (dataNode_live hmax hk) heq
  exact hne hyx (dataNode_inj hpmax hmax hnode)

/-- Writing the inode back ends a step. -/
theorem Evolved.store (h : Evolved s s' P I x o ino) (hx : P x)
    (ho : IsSlot s.superBlock.sectorNum o) :
    Evolved s { s' with disk := storeInode s'.disk ino o } P I x o ino := by
  have hslot := changesOnly_slot s'.disk ino ho
  have ho' : IsSlot s'.superBlock.sectorNum o := by rwa [h.sectorNum]
  have hused : ∀ a, Used s.superBlock.sectorNum (storeInode s'.disk ino o) a
      ↔ Used s.superBlock.sectorNum s'.disk a := fun a =>
    hslot.used_iff fun i => region_notMem_slot .block _ i _
  exact
    { formatted := h.formatted.withDisk _
      sectorNum := h.sectorNum
      type := h.type
      linkCount := h.linkCount
      fits := h.fits
      blocks := h.blocks
      owned := h.owned.transfer rfl (fun y hy n hn => h.owned.sector_store ino ho' hy hn)
        fun y hy n hn => by
          rw [h.sectorNum, hused, ← h.sectorNum]
          exact h.owned.used y hy n hn
      sector := fun y hy n hn => by
        rw [← h.sector y hy n hn]
        exact h.owned.sector_store ino ho' hy (h.live hn)
      used := fun a ha => (hused a).mpr (h.used a ha)
      alloc := by
        refine h.alloc.trans (ChangesOnly.sameAlloc (W := slotRegion s.superBlock.sectorNum o) ?_ ?_)
        · rw [h.sectorNum]
          exact hslot
        · exact fun i => region_notMem_slot .block _ i _
      changes := by
        refine ChangesOnly.trans (h.changes.mono ?_) (hslot.mono fun q hq => Or.inr (Or.inl hq))
        intro q hq
        rcases hq with hq | hq | ⟨n, hn, hq⟩
        · exact Or.inl hq
        · exact Or.inr (Or.inl hq)
        · have hsector := h.owned.sector_store ino ho' hx (n := n)
          rw [update_self] at hsector
          exact Or.inr (Or.inr ⟨n, hn, by rwa [hsector hn]⟩) }

/-- Writing the inode back changes no byte of the file. -/
theorem Evolved.fileByte_store (h : Evolved s s' P I x o ino) (hx : P x)
    (ho : IsSlot s.superBlock.sectorNum o) {p : ℕ} (hp : p < ino.blocks * 1024) :
    fileByte (storeInode s'.disk ino o) ino p = fileByte s'.disk ino p := by
  have ho' : IsSlot s'.superBlock.sectorNum o := by rwa [h.sectorNum]
  have hown : Owned s' P (update I x ino) := h.owned
  have hle := hown.blocks_le hx
  have hsector := hown.sector_store ino ho' hx (n := dataNode (p / 1024))
  have hdata := hown.isData hx (n := dataNode (p / 1024))
  rw [update_self] at hsector hle hdata
  have hlive : (dataNode (p / 1024)).Live ino.blocks := dataNode_live (by omega) (by omega)
  rw [fileByte, fileByte, hsector hlive]
  exact ((changesOnly_slot s'.disk ino ho').agree_block (hdata hlive)
    (disjoint_block_slot _ _ _)).window_eq (i := p % 1024) (Nat.mod_lt _ (by norm_num))

/-! ## What a step leaves alone -/

/-- Other inodes are not written. -/
theorem Evolved.loadInode_eq (h : Evolved s s' P I x o ino) {o' : ℕ}
    (ho' : IsSlot s.superBlock.sectorNum o') (hne : o' ≠ o) :
    loadInode s'.disk o' = loadInode s.disk o' := by
  refine h.changes.loadInode_eq ho' ?_
  rw [Set.disjoint_left]
  intro q hq hq'
  rcases hq' with hq' | hq' | ⟨n, _, hq'⟩
  · exact Set.disjoint_left.mp (disjoint_slot_pool _ _ _) hq hq'
  · exact Set.disjoint_left.mp (disjoint_slots hne) hq hq'
  · exact Set.disjoint_left.mp (disjoint_slot_block _ _ _) hq hq'

/-- Other files keep their bytes. -/
theorem Evolved.fileByte_eq (h : Evolved s s' P I x o ino) (hown : Owned s P I) (hx : P x)
    {y : ι} (hy : P y) (hyx : y ≠ x) {p : ℕ} (hp : p < (I y).blocks * 1024) :
    fileByte s'.disk (I y) p = fileByte s.disk (I y) p := by
  have hk : p / 1024 < (I y).blocks := by omega
  have hlive := dataNode_live (lt_of_lt_of_le hk (hown.blocks_le hy)) hk
  have hsector := h.sector y hy _ hlive
  rw [update_of_ne hyx] at hsector
  have hagree : Agree s.disk s'.disk ((dataNode (p / 1024)).sector s.disk (I y) * 512) 1024 := by
    refine h.changes.agree_block (hown.isData hy hlive) ?_
    rw [Set.disjoint_left]
    intro q hq hq'
    rcases hq' with hq' | hq' | ⟨n, hn, hq'⟩
    · exact Set.disjoint_left.mp (disjoint_block_pool _ _ _) hq hq'
    · exact Set.disjoint_left.mp (disjoint_block_slot _ _ _) hq hq'
    · refine Set.disjoint_left.mp (disjoint_blocks ?_) hq hq'
      intro heq
      rw [← hsector] at heq
      have hinj := h.owned.inj y x hy hx (dataNode (p / 1024)) n
      rw [update_self, update_of_ne hyx] at hinj
      exact hyx (hinj hlive hn heq).1
  rw [fileByte, fileByte, hsector]
  exact hagree.window_eq (i := p % 1024) (Nat.mod_lt _ (by norm_num))

end

end SeL4Sys

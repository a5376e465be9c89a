import Mathlib.Order.CompletePartialOrder
import SeL4Sys.AllocTheorems

/-!
# What an operation may touch

`ChangesOnly S d d' W` says that every byte outside the regions in `W` is the same on both
disks, whether or not it belongs to a region at all. The specifications of all operations of
the file system are stated with it. Regions not in `W` are untouched because regions do not
overlap (`ChangesOnly.agree`).
-/

namespace SeL4Sys

open Bytes Bitmap

variable {S : ℕ} {d d' d'' : Disk} {W W' : Set Region}

/-- Only bytes of the regions in `W` differ. -/
def ChangesOnly (S : ℕ) (d d' : Disk) (W : Set Region) : Prop :=
  ∀ p, (∀ r ∈ W, r.Valid S → p < r.off S ∨ r.off S + r.len S ≤ p) → d' p = d p

/-- The header in use and the bitmaps of a pool: what its allocator writes. -/
def poolRegions (p : Pool) : Set Region := {r | r = .super ∨ r = .descs ∨ ∃ i, r = p.region i}

/-- The data block at sector `b`. -/
def blockRegion (S b : ℕ) : Set Region := {r | ∃ i n, r = .data i n ∧ dataSector S i n = b}

/-- The inode at offset `o`. -/
def slotRegion (S o : ℕ) : Set Region := {r | ∃ i n, r = .inode i n ∧ slotOffset S i n = o}

/-! ## Composition -/

/-- A disk differs from itself nowhere. -/
theorem ChangesOnly.refl (S : ℕ) (d : Disk) (W : Set Region) : ChangesOnly S d d W :=
  fun _ _ => rfl

/-- More regions may be named than have changed. -/
theorem ChangesOnly.mono (h : ChangesOnly S d d' W) (hW : W ⊆ W') : ChangesOnly S d d' W' :=
  fun p hp => h p fun r hr hv => hp r (hW hr) hv

/-- One write after the other. -/
theorem ChangesOnly.trans (h : ChangesOnly S d d' W) (h' : ChangesOnly S d' d'' W) :
    ChangesOnly S d d'' W :=
  fun p hp => (h' p hp).trans (h p hp)

/-- Overwriting a region. -/
theorem changesOnly_patch {r : Region} {b : Buf} (hv : r.Valid S) (hr : r ∈ W) :
    ChangesOnly S d (patch d (r.off S) (r.len S) b) W :=
  fun _ hp => patch_apply_out (hp r hr hv)

/-- Writing a data block changes that block only. -/
theorem changesOnly_block (d : Disk) (buf : Buf) {b : ℕ} (h : IsData S b) :
    ChangesOnly S d (patch d (b * 512) 1024 buf) (blockRegion S b) := by
  obtain ⟨i, n, hi, hn, rfl⟩ := h
  have hv : (Region.data i n).Valid S := ⟨hi, hn⟩
  have := changesOnly_patch (d := d) (W := blockRegion S (dataSector S i n)) (b := buf) hv
    ⟨i, n, rfl, rfl⟩
  rwa [Region.off_data] at this

/-- Storing an inode changes its slot only. -/
theorem changesOnly_slot (d : Disk) (ino : Inode) {o : ℕ} (h : IsSlot S o) :
    ChangesOnly S d (storeInode d ino o) (slotRegion S o) := by
  obtain ⟨i, n, hi, hn, rfl⟩ := h
  have hv : (Region.inode i n).Valid S := ⟨hi, hn⟩
  have := changesOnly_patch (d := d) (W := slotRegion S (slotOffset S i n)) (b := ino.encode) hv
    ⟨i, n, rfl, rfl⟩
  rwa [Region.off_inode, Region.len, ← storeInode_eq] at this

/-! ## What stays -/

/-- A region that is not to be touched is not. -/
theorem ChangesOnly.agree (h : ChangesOnly S d d' W) {r : Region} (hv : r.Valid S) (hr : r ∉ W) :
    Agree d d' (r.off S) (r.len S) := by
  intro p hp hp'
  refine h p fun q hq hqv => ?_
  have hne : q ≠ r := fun heq => hr (heq ▸ hq)
  have := Region.disjoint hqv hv hne
  omega

/-- A data block outside of the regions keeps its bytes. -/
theorem ChangesOnly.agree_block (h : ChangesOnly S d d' W) {b : ℕ} (hb : IsData S b)
    (hr : Disjoint (blockRegion S b) W) : Agree d d' (b * 512) 1024 := by
  obtain ⟨i, n, hi, hn, rfl⟩ := hb
  have hv : (Region.data i n).Valid S := ⟨hi, hn⟩
  have := h.agree hv (Set.disjoint_left.mp hr ⟨i, n, rfl, rfl⟩)
  rwa [Region.off_data] at this

/-- So does a slot of the inode table. -/
theorem ChangesOnly.agree_slot (h : ChangesOnly S d d' W) {o : ℕ} (ho : IsSlot S o)
    (hr : Disjoint (slotRegion S o) W) : Agree d d' o 128 := by
  obtain ⟨i, n, hi, hn, rfl⟩ := ho
  have hv : (Region.inode i n).Valid S := ⟨hi, hn⟩
  have := h.agree hv (Set.disjoint_left.mp hr ⟨i, n, rfl, rfl⟩)
  rwa [Region.off_inode] at this

/-- The inode in such a slot is the same. -/
theorem ChangesOnly.loadInode_eq (h : ChangesOnly S d d' W) {o : ℕ} (ho : IsSlot S o)
    (hr : Disjoint (slotRegion S o) W) : loadInode d' o = loadInode d o :=
  loadInode_congr (h.agree_slot ho hr)

/-- A bitmap outside of the regions keeps its bits. -/
theorem ChangesOnly.poolBit_eq (h : ChangesOnly S d d' W) {p : Pool} {i n : ℕ}
    (hi : i < groups S) (hn : n < 8192) (hr : p.region i ∉ W) :
    poolBit p S d' i n = poolBit p S d i n :=
  poolBit_congr (h.agree (Pool.region_valid p hi) hr) hn

/-! ## Which regions are different -/

/-- A data block is no part of a bitmap or of the header. -/
@[simp] theorem disjoint_block_pool (S b : ℕ) (p : Pool) :
    Disjoint (blockRegion S b) (poolRegions p) := by
  rw [Set.disjoint_left]
  rintro _ ⟨i, n, rfl, _⟩ (h | h | ⟨_, h⟩)
  · cases h
  · cases h
  · cases p <;> cases h

/-- Nor is a slot. -/
@[simp] theorem disjoint_slot_pool (S o : ℕ) (p : Pool) :
    Disjoint (slotRegion S o) (poolRegions p) := by
  rw [Set.disjoint_left]
  rintro _ ⟨i, n, rfl, _⟩ (h | h | ⟨_, h⟩)
  · cases h
  · cases h
  · cases p <;> cases h

/-- A data block and a slot have nothing in common. -/
@[simp] theorem disjoint_block_slot (S b o : ℕ) : Disjoint (blockRegion S b) (slotRegion S o) := by
  rw [Set.disjoint_left]
  rintro _ ⟨i, n, rfl, _⟩ ⟨_, _, h, _⟩
  cases h

@[simp] theorem disjoint_slot_block (S b o : ℕ) : Disjoint (slotRegion S o) (blockRegion S b) :=
  (disjoint_block_slot S b o).symm

/-- Two data blocks have nothing in common. -/
theorem disjoint_blocks {b b' : ℕ} (h : b ≠ b') :
    Disjoint (blockRegion S b) (blockRegion S b') := by
  rw [Set.disjoint_left]
  rintro _ ⟨i, n, rfl, rfl⟩ ⟨i', n', heq, rfl⟩
  cases heq
  exact h rfl

/-- Two slots have nothing in common. -/
theorem disjoint_slots {o o' : ℕ} (h : o ≠ o') :
    Disjoint (slotRegion S o) (slotRegion S o') := by
  rw [Set.disjoint_left]
  rintro _ ⟨i, n, rfl, rfl⟩ ⟨i', n', heq, rfl⟩
  cases heq
  exact h rfl

/-- A bitmap is not one of the regions of a data block. -/
theorem region_notMem_block (p : Pool) (S i b : ℕ) : p.region i ∉ blockRegion S b := by
  rintro ⟨_, _, h, _⟩
  cases p <;> cases h

/-- Nor of a slot. -/
theorem region_notMem_slot (p : Pool) (S i o : ℕ) : p.region i ∉ slotRegion S o := by
  rintro ⟨_, _, h, _⟩
  cases p <;> cases h

/-- An allocator does not write the other bitmap. -/
theorem region_notMem_pool {p q : Pool} (h : p ≠ q) (i : ℕ) : p.region i ∉ poolRegions q := by
  rintro (heq | heq | ⟨_, heq⟩)
  · exact Pool.region_ne_super p i heq
  · exact Pool.region_ne_descs p i heq
  · exact h (Pool.region_inj heq).1

/-! ## The allocators -/

section
variable {p : Pool} {s : FS}

/-- Writing back changes the header and the one bitmap. -/
theorem changesOnly_commit (hf : Formatted s) {i : ℕ} {delta : ℤ} {bitmapOffset : ℕ} {bitmap : Buf}
    (hi : i < groups s.superBlock.sectorNum)
    (hoff : bitmapOffset * 512 = (p.region i).off s.superBlock.sectorNum) :
    ChangesOnly s.superBlock.sectorNum s.disk (commit p s i delta bitmapOffset bitmap).disk
      (poolRegions p) := by
  rw [commit_disk hf, hoff, ← Pool.region_len p s.superBlock.sectorNum i]
  refine (changesOnly_patch ?_ ?_).trans ((changesOnly_patch ?_ ?_).trans
    (changesOnly_patch (Pool.region_valid p hi) (Or.inr (Or.inr ⟨i, rfl⟩))))
  · exact trivial
  · exact Or.inl rfl
  · exact trivial
  · exact Or.inr (Or.inl rfl)

/-- An allocation changes these. -/
theorem changesOnly_taken (hf : Formatted s) (hg : searchGroup p s < groups s.superBlock.sectorNum) :
    ChangesOnly s.superBlock.sectorNum s.disk (taken p s).disk (poolRegions p) :=
  changesOnly_commit hf hg (searchBitmapOffset_eq hf hg)

/-- So does a release. -/
theorem changesOnly_released (hf : Formatted s) {i n : ℕ}
    (hi : i < groups s.superBlock.sectorNum) :
    ChangesOnly s.superBlock.sectorNum s.disk (released p s i n).disk (poolRegions p) :=
  changesOnly_commit hf hi (hf.bitmap_eq hi)

/-! ## Entries in use -/

/-- The bit of the entry at address `x` is set. -/
def PoolUsed (p : Pool) (S : ℕ) (d : Disk) (x : ℕ) : Prop :=
  ∃ i n, i < groups S ∧ n < p.limit S i ∧ x = p.address S i n ∧ poolBit p S d i n = true

/-- An address is in use when its bit is set. -/
theorem poolUsed_address_iff {i n : ℕ} (hi : i < groups S) (hn : n < p.limit S i) :
    PoolUsed p S d (p.address S i n) ↔ poolBit p S d i n = true := by
  constructor
  · rintro ⟨i', n', hi', hn', heq, hbit⟩
    obtain ⟨rfl, rfl⟩ := Pool.address_inj hi hn hi' hn' heq
    exact hbit
  · intro hbit
    exact ⟨i, n, hi, hn, rfl, hbit⟩

/-- Use depends on the bitmaps of the pool only. -/
theorem ChangesOnly.poolUsed_iff (h : ChangesOnly S d d' W) (hW : ∀ i, p.region i ∉ W) {x : ℕ} :
    PoolUsed p S d' x ↔ PoolUsed p S d x := by
  have hbit : ∀ i n, i < groups S → n < p.limit S i → poolBit p S d' i n = poolBit p S d i n :=
    fun i n hi hn => h.poolBit_eq hi (lt_of_lt_of_le hn (p.limit_le S i)) (hW i)
  constructor
  · rintro ⟨i, n, hi, hn, hx, hset⟩
    exact ⟨i, n, hi, hn, hx, by rwa [← hbit i n hi hn]⟩
  · rintro ⟨i, n, hi, hn, hx, hset⟩
    exact ⟨i, n, hi, hn, hx, by rwa [hbit i n hi hn]⟩

/-- An allocation that hits adds its address. -/
theorem poolUsed_taken (hf : Formatted s) (h : Hits p s) {x : ℕ} :
    PoolUsed p s.superBlock.sectorNum (taken p s).disk x
      ↔ PoolUsed p s.superBlock.sectorNum s.disk x
        ∨ x = p.address s.superBlock.sectorNum (searchGroup p s) (searchIndex p s) := by
  have hbit := fun i n hi (hn : n < p.limit s.superBlock.sectorNum i) =>
    taken_poolBit hf h.group h.bit (l := i) (n := n) hi (lt_of_lt_of_le hn (p.limit_le _ i))
  constructor
  · rintro ⟨i, n, hi, hn, rfl, hset⟩
    rw [hbit i n hi hn, Bool.or_eq_true, decide_eq_true_eq] at hset
    rcases hset with hset | ⟨rfl, rfl⟩
    · exact Or.inl ⟨i, n, hi, hn, rfl, hset⟩
    · exact Or.inr rfl
  · rintro (⟨i, n, hi, hn, rfl, hset⟩ | rfl)
    · exact ⟨i, n, hi, hn, rfl, by rw [hbit i n hi hn, hset, Bool.true_or]⟩
    · exact ⟨_, _, h.group, h.index, rfl, by rw [hbit _ _ h.group h.index]; simp⟩

/-- A release removes its address. -/
theorem poolUsed_released (hf : Formatted s) {i n : ℕ} (hi : i < groups s.superBlock.sectorNum)
    (hn : n < p.limit s.superBlock.sectorNum i)
    (hset : poolBit p s.superBlock.sectorNum s.disk i n = true) {x : ℕ} :
    PoolUsed p s.superBlock.sectorNum (released p s i n).disk x
      ↔ PoolUsed p s.superBlock.sectorNum s.disk x ∧ x ≠ p.address s.superBlock.sectorNum i n := by
  have hbit := fun l m hl (hm : m < p.limit s.superBlock.sectorNum l) =>
    released_poolBit hf hi (lt_of_lt_of_le hn (p.limit_le _ i)) hset (l := l) (m := m) hl
      (lt_of_lt_of_le hm (p.limit_le _ l))
  constructor
  · rintro ⟨l, m, hl, hm, rfl, hx⟩
    rw [hbit l m hl hm, Bool.and_eq_true, Bool.not_eq_true', decide_eq_false_iff_not] at hx
    exact ⟨⟨l, m, hl, hm, rfl, hx.1⟩, fun heq => hx.2 (Pool.address_inj hl hm hi hn heq)⟩
  · rintro ⟨⟨l, m, hl, hm, rfl, hx⟩, hne⟩
    refine ⟨l, m, hl, hm, rfl, ?_⟩
    have hlm : ¬ (l = i ∧ m = n) := by
      rintro ⟨rfl, rfl⟩
      exact hne rfl
    rw [hbit l m hl hm, hx, decide_eq_false hlm]
    rfl

end

end SeL4Sys

import SeL4Sys.AllocTheorems
import Mathlib.Algebra.BigOperators.Ring.Finset
import Mathlib.Algebra.Order.BigOperators.Group.Finset

/-!
# Runs of the allocator

`Consistent` ties the free counters of a pool to its bitmaps. Taking an entry that the
search hit and releasing one keep it. In a consistent state the search hits exactly when
the bitmap has a hole near its start (`Consistent.hits_iff`): the byte loop looks at one
byte more than the group has available entries, rounded up, and at no byte after that.

`runOk_iff` carries this to runs of `getAvailBlock` and `setAllocBlock` of any length.
-/

namespace SeL4Sys

open Bytes Bitmap Loop

/-- The counters of a pool agree with its bitmaps. -/
structure Consistent (p : Pool) (s : FS) : Prop where
  formatted : Formatted s
  total : s.superBlock.avail p
    = ∑ i ∈ Finset.range (groups s.superBlock.sectorNum), (s.groupDesc i).avail p
  group : ∀ i, i < groups s.superBlock.sectorNum →
    (s.groupDesc i).avail p
      = clearCount (window s.disk ((s.groupDesc i).bitmap p * 512))
          (p.limit s.superBlock.sectorNum i)

/-- The counters of a pool promise no more than its bitmaps have. A search that ends without a
clear bit takes an entry off the counters and sets no bit, so this is what holds in every run. -/
structure Backed (p : Pool) (s : FS) : Prop where
  total : s.superBlock.avail p
    = ∑ i ∈ Finset.range (groups s.superBlock.sectorNum), (s.groupDesc i).avail p
  nonneg : ∀ i, i < groups s.superBlock.sectorNum → 0 ≤ (s.groupDesc i).avail p
  le : ∀ i, i < groups s.superBlock.sectorNum →
    (s.groupDesc i).avail p
      ≤ clearCount (window s.disk ((p.region i).off s.superBlock.sectorNum))
          (p.limit s.superBlock.sectorNum i)

/-- In the first group with free entries, one of the first `⌈avail / 8⌉ + 1` bytes of the
bitmap is not full. -/
def NearHole (p : Pool) (s : FS) : Prop :=
  ∃ i j : ℕ, i < groups s.superBlock.sectorNum ∧ 1 ≤ (s.groupDesc i).avail p
    ∧ (∀ l, l < i → (s.groupDesc l).avail p < 1)
    ∧ j < 1024 ∧ (j : ℤ) ≤ ((s.groupDesc i).avail p + 7) / 8
    ∧ s.disk ((s.groupDesc i).bitmap p * 512 + j) ≠ 0xff

section
variable {p : Pool} {s : FS}

/-! ## Counters -/

theorem Consistent.count (h : Consistent p s) {i : ℕ} (hi : i < groups s.superBlock.sectorNum) :
    (s.groupDesc i).avail p
      = clearCount (window s.disk ((p.region i).off s.superBlock.sectorNum))
          (p.limit s.superBlock.sectorNum i) := by
  rw [h.group i hi, h.formatted.bitmap_eq hi]

theorem Consistent.backed (h : Consistent p s) : Backed p s where
  total := h.total
  nonneg := fun i hi => by
    rw [h.count hi]
    exact Int.natCast_nonneg _
  le := fun i hi => (h.count hi).le

theorem Backed.avail_nonneg (h : Backed p s) : 0 ≤ s.superBlock.avail p := by
  rw [h.total]
  exact Finset.sum_nonneg fun i hi => h.nonneg i (Finset.mem_range.mp hi)

theorem commit_avail {i : ℕ} {delta : ℤ} {bitmapOffset : ℕ} {bitmap : Buf} (l : ℕ) :
    ((commit p s i delta bitmapOffset bitmap).groupDesc l).avail p
      = (s.groupDesc l).avail p + if l = i then delta else 0 := by
  rw [commit_groupDesc]
  by_cases h : l = i
  · rw [if_pos h, if_pos h, GroupDesc.avail_setAvail, h]
  · rw [if_neg h, if_neg h, add_zero]

/-- A commit moves the total and the sum of the groups by the same amount. -/
theorem commit_total
    (h : s.superBlock.avail p
      = ∑ l ∈ Finset.range (groups s.superBlock.sectorNum), (s.groupDesc l).avail p)
    {i : ℕ} (hi : i < groups s.superBlock.sectorNum)
    {delta : ℤ} {bitmapOffset : ℕ} {bitmap : Buf} :
    (commit p s i delta bitmapOffset bitmap).superBlock.avail p
      = ∑ l ∈ Finset.range (groups s.superBlock.sectorNum),
          ((commit p s i delta bitmapOffset bitmap).groupDesc l).avail p := by
  rw [commit_superBlock, SuperBlock.avail_setAvail]
  simp only [commit_avail]
  rw [Finset.sum_add_distrib, Finset.sum_ite_eq', if_pos (Finset.mem_range.mpr hi), ← h]

/-- A commit keeps the counters in step when it moves the count of clear bits of its group by
as much as the counters. -/
theorem Consistent.commit (h : Consistent p s) {i : ℕ} (hi : i < groups s.superBlock.sectorNum)
    {delta : ℤ} {bitmapOffset : ℕ} {bitmap : Buf}
    (hoff : bitmapOffset * 512 = (p.region i).off s.superBlock.sectorNum)
    (hcount : (clearCount bitmap (p.limit s.superBlock.sectorNum i) : ℤ)
      = clearCount (window s.disk ((p.region i).off s.superBlock.sectorNum))
          (p.limit s.superBlock.sectorNum i) + delta) :
    Consistent p (commit p s i delta bitmapOffset bitmap) where
  formatted := commit_formatted h.formatted
  total := by
    rw [commit_sectorNum]
    exact commit_total h.total hi
  group := fun l hl => by
    rw [commit_sectorNum] at hl ⊢
    rw [commit_bitmap, h.formatted.bitmap_eq hl, commit_avail, h.count hl]
    have hlim := Pool.limit_le p s.superBlock.sectorNum l
    by_cases hli : l = i
    · subst hli
      rw [if_pos rfl, ← hcount]
      refine congrArg _ (clearCount_congr fun n hn => ?_).symm
      exact commit_poolBit h.formatted hoff (by omega)
    · rw [if_neg hli, add_zero]
      refine congrArg _ (clearCount_congr fun n hn => ?_).symm
      exact commit_poolBit_of_ne h.formatted hi hoff hl (by omega) (Or.inr hli)

/-- Setting the bit that the search hit leaves one clear bit less. -/
theorem clearCount_take (hf : Formatted s) (hh : Hits p s) :
    clearCount (orBit (searchBitmap p s) (searchByte p s) (searchBit p s))
        (p.limit s.superBlock.sectorNum (searchGroup p s)) + 1
      = clearCount (window s.disk ((p.region (searchGroup p s)).off s.superBlock.sectorNum))
          (p.limit s.superBlock.sectorNum (searchGroup p s)) := by
  have hlim := Pool.limit_le p s.superBlock.sectorNum (searchGroup p s)
  have hbit : ∀ n, n < 8192 → bit (orBit (searchBitmap p s) (searchByte p s) (searchBit p s)) n
      = (poolBit p s.superBlock.sectorNum s.disk (searchGroup p s) n
          || decide (n = searchIndex p s)) := by
    intro n hn
    rw [bit_orBit hh.bit, bit_searchBitmap hf hh.group hn, searchIndex_eq]
  refine clearCount_succ _ _ hh.index (hh.clear hf) ?_ ?_
  · rw [hbit _ (lt_of_lt_of_le hh.index hlim)]
    simp
  · intro l hl hne
    rw [hbit l (by omega), decide_eq_false hne, Bool.or_false]
    rfl

/-- Clearing a set bit leaves one clear bit more. -/
theorem clearCount_release (hf : Formatted s) {i n : ℕ}
    (hi : i < groups s.superBlock.sectorNum) (hn : n < p.limit s.superBlock.sectorNum i)
    (hset : poolBit p s.superBlock.sectorNum s.disk i n = true) :
    clearCount (window s.disk ((p.region i).off s.superBlock.sectorNum))
        (p.limit s.superBlock.sectorNum i) + 1
      = clearCount (xorBit (readDisk s.disk (fun _ => 0) blockBytes 1
          ((s.groupDesc i).bitmap p * sectorSize)) (n / 8) (n % 8))
          (p.limit s.superBlock.sectorNum i) := by
  have hlim := Pool.limit_le p s.superBlock.sectorNum i
  have hbit : ∀ l, l < 8192 → bit (xorBit (readDisk s.disk (fun _ => 0) blockBytes 1
      ((s.groupDesc i).bitmap p * sectorSize)) (n / 8) (n % 8)) l
      = (poolBit p s.superBlock.sectorNum s.disk i l ^^ decide (l = n)) := by
    intro l hl
    rw [bit_xorBit (by omega), bit_readBitmap hf hi hl, Nat.div_add_mod]
  refine clearCount_succ _ _ hn ?_ hset ?_
  · rw [hbit n (by omega)]
    simp [hset]
  · intro l hl hne
    rw [hbit l (by omega), decide_eq_false hne, Bool.xor_false]
    rfl

/-- Taking the entry that the search hit keeps the counters in step. -/
theorem Consistent.taken (h : Consistent p s) (hh : Hits p s) : Consistent p (taken p s) := by
  have hcount := clearCount_take h.formatted hh
  refine h.commit hh.group (searchBitmapOffset_eq h.formatted hh.group) ?_
  omega

/-- Releasing a set entry keeps the counters in step. -/
theorem Consistent.released (h : Consistent p s) {i n : ℕ}
    (hi : i < groups s.superBlock.sectorNum) (hn : n < p.limit s.superBlock.sectorNum i)
    (hset : poolBit p s.superBlock.sectorNum s.disk i n = true) :
    Consistent p (released p s i n) := by
  have hcount := clearCount_release h.formatted hi hn hset
  refine h.commit hi (h.formatted.bitmap_eq hi) ?_
  omega

/-! ## When the search hits -/

/-- With something available the search finds a group, and that group has a clear bit. -/
theorem Backed.searchGroup_lt (h : Backed p s) (hf : Formatted s)
    (hpos : 1 ≤ s.superBlock.avail p) :
    searchGroup p s < groups s.superBlock.sectorNum
      ∧ 1 ≤ (s.groupDesc (searchGroup p s)).avail p := by
  have hsome : ∃ i ∈ Finset.range (groups s.superBlock.sectorNum),
      1 ≤ (s.groupDesc i).avail p := by
    by_contra hnone
    push Not at hnone
    have hle : s.superBlock.avail p ≤ 0 := by
      rw [h.total]
      refine Finset.sum_nonpos fun i hi => ?_
      have := hnone i hi
      omega
    omega
  obtain ⟨i, hi, hav⟩ := hsome
  have hlt : searchGroup p s < s.groupNum := by
    refine breakIndex_lt_of (i := i) ?_ (decide_eq_true hav)
    rw [hf.groupNum_eq]
    exact Finset.mem_range.mp hi
  have hspec := breakIndex_spec hlt
  rw [decide_eq_true_eq] at hspec
  rw [← hf.groupNum_eq]
  exact ⟨hlt, hspec⟩

theorem Consistent.searchGroup_lt (h : Consistent p s) (hpos : 1 ≤ s.superBlock.avail p) :
    searchGroup p s < groups s.superBlock.sectorNum
      ∧ 1 ≤ (s.groupDesc (searchGroup p s)).avail p :=
  h.backed.searchGroup_lt h.formatted hpos

/-- The bytes before the one at which the byte loop ends are full. -/
theorem bit_of_lt_searchByte {n : ℕ} (hn : n / 8 < searchByte p s) :
    bit (searchBitmap p s) n = true := by
  have hmin := breakIndex_min hn
  rw [decide_eq_false_iff_not, not_not] at hmin
  have hfull := (eq_ff_iff _ _).mp hmin (n % 8) (by omega)
  rwa [Nat.div_add_mod] at hfull

/-- The bits of that byte before the one at which the bit loop ends are set. -/
theorem bit_of_lt_searchBit {k : ℕ} (hk : k < searchBit p s) :
    bit (searchBitmap p s) (8 * searchByte p s + k) = true := by
  have hmin := breakIndex_min hk
  have hk8 : k < 8 := lt_of_lt_of_le hk breakIndex_le
  rw [decide_eq_false_iff_not, shift_mod_two_eq_zero hk8] at hmin
  simpa using hmin

/-- The search ends no later than at the first clear bit. -/
theorem searchIndex_le_of_clear {n : ℕ} (hclear : bit (searchBitmap p s) n = false) :
    searchIndex p s ≤ n := by
  by_contra hlt
  rw [searchIndex_eq] at hlt
  by_cases hbyte : n / 8 < searchByte p s
  · rw [bit_of_lt_searchByte hbyte] at hclear
    cases hclear
  · have hn : n = 8 * searchByte p s + (n - 8 * searchByte p s) := by omega
    rw [hn, bit_of_lt_searchBit (by omega)] at hclear
    cases hclear

theorem searchBit_lt_iff : searchBit p s < 8 ↔ searchBitmap p s (searchByte p s) ≠ 0xff := by
  rw [Ne, eq_ff_iff]
  constructor
  · intro h hall
    have hstop := bit_searchBit h
    rw [hall _ h] at hstop
    cases hstop
  · intro h
    push Not at h
    obtain ⟨k, hk, hbit⟩ := h
    refine breakIndex_lt_of hk (decide_eq_true ?_)
    rw [shift_mod_two_eq_zero hk]
    simpa using hbit

/-- The byte loop ends in a byte that is not full exactly when there is one within reach. -/
theorem searchBit_lt_iff_exists (hpos : 1 ≤ (s.groupDesc (searchGroup p s)).avail p) :
    searchBit p s < 8 ↔ ∃ j : ℕ, (j : ℤ) ≤ ((s.groupDesc (searchGroup p s)).avail p + 7) / 8
      ∧ searchBitmap p s j ≠ 0xff := by
  have hdiv : ((s.groupDesc (searchGroup p s)).avail p + 7).tdiv 8
      = ((s.groupDesc (searchGroup p s)).avail p + 7) / 8 :=
    Int.tdiv_eq_ediv_of_nonneg (by omega)
  have hle : searchByte p s ≤ (((s.groupDesc (searchGroup p s)).avail p + 7) / 8).toNat := by
    rw [← hdiv]
    exact breakIndex_le
  rw [searchBit_lt_iff]
  constructor
  · intro h
    exact ⟨searchByte p s, by omega, h⟩
  · rintro ⟨j, hj, hhole⟩ hfull
    -- a hole before the loop's end would have ended it, and the loop's end itself is full
    have hlt : j ≠ searchByte p s := by
      rintro rfl
      exact hhole hfull
    have hgt : ¬ j < searchByte p s := by
      intro hj'
      have hmin := breakIndex_min hj'
      rw [decide_eq_false_iff_not, not_not] at hmin
      exact hhole hmin
    -- so the loop ran to its bound, which `j` does not exceed
    have hend : searchByte p s < (((s.groupDesc (searchGroup p s)).avail p + 7).tdiv 8).toNat := by
      rw [hdiv]
      omega
    have hspec := breakIndex_spec hend
    rw [decide_eq_true_eq] at hspec
    exact hspec hfull

/-- With something available there is a clear bit in the group the search settles on, so the
search ends no later than there. -/
theorem Backed.searchIndex_lt (h : Backed p s) (hf : Formatted s)
    (hpos : 1 ≤ s.superBlock.avail p) :
    searchIndex p s < p.limit s.superBlock.sectorNum (searchGroup p s) := by
  obtain ⟨hg, hav⟩ := h.searchGroup_lt hf hpos
  have hlim := Pool.limit_le p s.superBlock.sectorNum (searchGroup p s)
  have hcount : 0 < clearCount
      (window s.disk ((p.region (searchGroup p s)).off s.superBlock.sectorNum))
      (p.limit s.superBlock.sectorNum (searchGroup p s)) := by
    have := h.le _ hg
    omega
  obtain ⟨n, hn, hclear⟩ := exists_clear_of_clearCount_pos hcount
  have hclear' : bit (searchBitmap p s) n = false := by
    rw [bit_searchBitmap hf hg (by omega)]
    exact hclear
  exact lt_of_le_of_lt (searchIndex_le_of_clear hclear') hn

/-- The bit loop ends early exactly when there is a hole near the start of the bitmap. -/
theorem Consistent.searchBit_lt_iff_nearHole (h : Consistent p s)
    (hpos : 1 ≤ s.superBlock.avail p) : searchBit p s < 8 ↔ NearHole p s := by
  obtain ⟨hg, hav⟩ := h.searchGroup_lt hpos
  have hbyte : ∀ j, j < 1024 → searchBitmap p s j
      = s.disk ((s.groupDesc (searchGroup p s)).bitmap p * 512 + j) := by
    intro j hj
    rw [searchBitmap_apply h.formatted hg hj, h.formatted.bitmap_eq hg, window_apply]
  rw [searchBit_lt_iff_exists hav]
  constructor
  · intro hsome
    have hindex := h.backed.searchIndex_lt h.formatted hpos
    have hlim := Pool.limit_le p s.superBlock.sectorNum (searchGroup p s)
    have hbit := (searchBit_lt_iff_exists hav).mpr hsome
    have hj : searchByte p s < 1024 := by
      rw [searchIndex_eq] at hindex
      omega
    refine ⟨searchGroup p s, searchByte p s, hg, hav, ?_, hj, ?_, ?_⟩
    · intro l hl
      have hmin := breakIndex_min hl
      rw [decide_eq_false_iff_not] at hmin
      omega
    -- the bytes that are looked at are counted from the free blocks, not from all blocks
    · have hle : searchByte p s ≤ (((s.groupDesc (searchGroup p s)).avail p + 7).tdiv 8).toNat :=
        breakIndex_le
      rw [Int.tdiv_eq_ediv_of_nonneg (by omega)] at hle
      omega
    · rw [← hbyte _ hj]
      exact searchBit_lt_iff.mp hbit
  · rintro ⟨i, j, hi, hi1, hfirst, hj, hle, hhole⟩
    have hgroup : searchGroup p s = i := by
      refine breakIndex_eq (by rwa [h.formatted.groupNum_eq]) (decide_eq_true hi1) ?_
      intro l hl
      have := hfirst l hl
      exact decide_eq_false (by omega)
    refine ⟨j, by rw [hgroup]; exact hle, ?_⟩
    rw [hbyte j hj, hgroup]
    exact hhole

/-- In a consistent state with something available, the search hits exactly when there is a
hole near the start of the bitmap. -/
theorem Consistent.hits_iff (h : Consistent p s) (hpos : 1 ≤ s.superBlock.avail p) :
    Hits p s ↔ NearHole p s := by
  rw [← h.searchBit_lt_iff_nearHole hpos]
  exact ⟨fun hh => hh.bit, fun hbit =>
    ⟨by omega, (h.searchGroup_lt hpos).1, hbit, h.backed.searchIndex_lt h.formatted hpos⟩⟩

/-- A hole near the start of a bitmap is found: its group has something available. -/
theorem Consistent.hits_of_nearHole (h : Consistent p s) (hnear : NearHole p s) : Hits p s := by
  have hpos : 1 ≤ s.superBlock.avail p := by
    obtain ⟨i, _, hi, hav, _⟩ := hnear
    rw [h.total]
    exact hav.trans (Finset.single_le_sum (f := fun l => (s.groupDesc l).avail p)
      (fun l hl => h.backed.nonneg l (Finset.mem_range.mp hl)) (Finset.mem_range.mpr hi))
  exact (h.hits_iff hpos).mpr hnear

end

/-! ## The small disk -/

section small
variable (d : Disk) (inodes blocks : ℤ)

@[simp] theorem smallFS_sectorNum : (smallFS d inodes blocks).superBlock.sectorNum = 2106 := rfl

@[simp] theorem smallFS_avail :
    (smallFS d inodes blocks).superBlock.avail .block = blocks := rfl

@[simp] theorem smallFS_group_avail (i : ℕ) :
    ((smallFS d inodes blocks).groupDesc i).avail .block = blocks := rfl

@[simp] theorem smallFS_group_bitmap (i : ℕ) :
    ((smallFS d inodes blocks).groupDesc i).bitmap .block = 6 := rfl

@[simp] theorem smallFS_disk : (smallFS d inodes blocks).disk = d := rfl

variable {d inodes blocks}

/-- On the small disk the counters only have to match the clear bits of one bitmap. -/
theorem smallFS_consistent (h : blocks = clearCount (window d 3072) 25) :
    Consistent .block (smallFS d inodes blocks) where
  formatted := smallFS_formatted d inodes blocks
  total := by simp [groups_small]
  group := fun i hi => by
    rw [smallFS_sectorNum, groups_small] at hi
    rw [smallFS_group_avail, smallFS_sectorNum, smallFS_group_bitmap, smallFS_disk,
      show i = 0 by omega, Pool.limit, blocksOf_small, h]

/-- The same for the inodes, whose bitmap is at byte 2048. -/
theorem smallFS_inode_consistent (h : inodes = clearCount (window d 2048) 8192) :
    Consistent .inode (smallFS d inodes blocks) where
  formatted := smallFS_formatted d inodes blocks
  total := by
    rw [smallFS_sectorNum, groups_small, Finset.sum_range_one]
    rfl
  group := fun i hi => by
    rw [smallFS_sectorNum, groups_small] at hi
    have hoff : (((smallFS d inodes blocks).groupDesc i).bitmap .inode) = 4 := rfl
    have havail : ((smallFS d inodes blocks).groupDesc i).avail .inode = inodes := rfl
    rw [havail, smallFS_sectorNum, hoff, smallFS_disk, h]
    rw [show i = 0 by omega, Pool.limit, inodesOf_small]

/-- The bytes of the bitmap that the search looks at on the small disk. -/
theorem smallFS_nearHole_iff (h : 1 ≤ blocks) : NearHole .block (smallFS d inodes blocks)
    ↔ ∃ j : ℕ, j < 1024 ∧ (j : ℤ) ≤ (blocks + 7) / 8 ∧ d (3072 + j) ≠ 0xff := by
  unfold NearHole
  simp only [smallFS_sectorNum, groups_small, smallFS_group_avail, smallFS_group_bitmap,
    smallFS_disk]
  constructor
  · rintro ⟨_, j, _, _, _, hj, hle, hne⟩
    exact ⟨j, hj, hle, hne⟩
  · rintro ⟨j, hj, hle, hne⟩
    exact ⟨0, j, by norm_num, h, by omega, hj, hle, hne⟩

end small

/-! ## What is held of a pool -/

/-- `getAvailBlock` and `getAvailInode` -/
def Pool.take (p : Pool) (s : FS) : Option (FS × ℕ) :=
  match p with
  | .block => getAvailBlock s 0
  | .inode => getAvailInode s

/-- `setAllocBlock` and `setAllocInode` -/
def Pool.release (p : Pool) (s : FS) (b : ℕ) : Option FS :=
  match p with
  | .block => setAllocBlock s b
  | .inode => setAllocInode s b

section take
variable {p : Pool} {s : FS}

theorem Pool.take_of_hits (hf : Formatted s) (hh : Hits p s) :
    p.take s = some (taken p s,
      p.address s.superBlock.sectorNum (searchGroup p s) (searchIndex p s)) := by
  cases p with
  | block => exact getAvailBlock_eq hf hh 0
  | inode => exact getAvailInode_eq hf hh

theorem Pool.take_eq_none (h : s.superBlock.avail p = 0) : p.take s = none := by
  cases p with
  | block => rw [Pool.take, getAvailBlock, getAvail, if_pos h, Option.map_none]
  | inode => rw [Pool.take, getAvailInode, getAvail, if_pos h, Option.map_none]

theorem getAvail_eq_some {s' : FS} (h : getAvail p s = some s') : taken p s = s' := by
  rw [getAvail] at h
  split_ifs at h
  exact Option.some.inj h

theorem Pool.take_fst {s' : FS} {b : ℕ} (h : p.take s = some (s', b)) : taken p s = s' := by
  cases p with
  | block =>
    have ⟨_, hs, heq⟩ := Option.map_eq_some_iff.mp h
    rw [getAvail_eq_some hs]
    exact congrArg Prod.fst heq
  | inode =>
    have ⟨_, hs, heq⟩ := Option.map_eq_some_iff.mp h
    rw [getAvail_eq_some hs]
    exact congrArg Prod.fst heq

theorem Pool.release_eq (hf : Formatted s) {i n : ℕ} (hi : i < groups s.superBlock.sectorNum)
    (hn : n < p.limit s.superBlock.sectorNum i) :
    p.release s (p.address s.superBlock.sectorNum i n)
      = if poolBit p s.superBlock.sectorNum s.disk i n = true then some (released p s i n)
        else none := by
  rw [← setAlloc_eq hf hi (lt_of_lt_of_le hn (p.limit_le _ i))]
  cases p with
  | block => exact setAllocBlock_eq hf hi hn
  | inode => exact setAllocInode_eq hf hi hn

end take

/-- The counters match, every address that was returned is that of an entry, and the bits of the entries
that are held are set. -/
structure PoolHeld (p : Pool) (s : FS) (returned held : List ℕ) : Prop where
  consistent : Consistent p s
  returned : ∀ b ∈ returned, ∃ i n, i < groups s.superBlock.sectorNum
    ∧ n < p.limit s.superBlock.sectorNum i ∧ b = p.address s.superBlock.sectorNum i n
  held : ∀ i n, i < groups s.superBlock.sectorNum → n < p.limit s.superBlock.sectorNum i →
    p.address s.superBlock.sectorNum i n ∈ held →
      poolBit p s.superBlock.sectorNum s.disk i n = true

section held
variable {p : Pool} {s : FS} {returned held : List ℕ}

theorem PoolHeld.start (h : Consistent p s) : PoolHeld p s [] [] where
  consistent := h
  returned := fun _ hb => absurd hb List.not_mem_nil
  held := fun _ _ _ _ hb => absurd hb List.not_mem_nil

/-- An entry that the search hits is not held. -/
theorem PoolHeld.not_mem (h : PoolHeld p s returned held) (hh : Hits p s) :
    p.address s.superBlock.sectorNum (searchGroup p s) (searchIndex p s) ∉ held := by
  intro hheld
  have hset := h.held _ _ hh.group hh.index hheld
  rw [hh.clear h.consistent.formatted] at hset
  cases hset

/-- A search that misses sets no bit. -/
theorem Consistent.nearHole_of_set (h : Consistent p s) (hpos : 1 ≤ s.superBlock.avail p) {i n : ℕ}
    (hi : i < groups s.superBlock.sectorNum) (hn : n < p.limit s.superBlock.sectorNum i)
    (hclear : poolBit p s.superBlock.sectorNum s.disk i n = false)
    (hset : poolBit p s.superBlock.sectorNum (SeL4Sys.taken p s).disk i n = true) :
    NearHole p s := by
  rw [← h.searchBit_lt_iff_nearHole hpos]
  by_contra hmiss
  rw [taken_poolBit_of_miss h.formatted (h.searchGroup_lt hpos).1 hmiss hi
    (lt_of_lt_of_le hn (p.limit_le _ i)), hclear] at hset
  cases hset

/-- An entry is taken, and held from now on. -/
theorem PoolHeld.taken (h : PoolHeld p s returned held) (hh : Hits p s) :
    PoolHeld p (taken p s)
      (p.address s.superBlock.sectorNum (searchGroup p s) (searchIndex p s) :: returned)
      (p.address s.superBlock.sectorNum (searchGroup p s) (searchIndex p s) :: held) := by
  have hf := h.consistent.formatted
  refine ⟨h.consistent.taken hh, ?_, ?_⟩
  · intro b hb
    simp only [taken_sectorNum]
    rcases List.mem_cons.mp hb with rfl | hb
    · exact ⟨_, _, hh.group, hh.index, rfl⟩
    · exact h.returned b hb
  · intro i n hi hn hb
    simp only [taken_sectorNum] at hi hn hb ⊢
    have hlim := p.limit_le s.superBlock.sectorNum i
    rw [taken_poolBit hf hh.group hh.bit hi (by omega)]
    rcases List.mem_cons.mp hb with heq | hb
    · have ⟨hgroup, hindex⟩ := Pool.address_inj hi hn hh.group hh.index heq
      rw [decide_eq_true ⟨hgroup, hindex⟩, Bool.or_true]
    · rw [h.held i n hi hn hb, Bool.true_or]

/-- An entry is released, and not held any more. -/
theorem PoolHeld.released (h : PoolHeld p s returned held) {i n : ℕ} (hi : i < groups s.superBlock.sectorNum)
    (hn : n < p.limit s.superBlock.sectorNum i)
    (hset : poolBit p s.superBlock.sectorNum s.disk i n = true) :
    PoolHeld p (released p s i n) returned
      (held.filter (· ≠ p.address s.superBlock.sectorNum i n)) := by
  have hf := h.consistent.formatted
  refine ⟨h.consistent.released hi hn hset, ?_, ?_⟩
  · intro b hb
    simp only [released_sectorNum]
    exact h.returned b hb
  · intro l m hl hm hheld
    simp only [released_sectorNum] at hl hm hheld ⊢
    have hlim := p.limit_le s.superBlock.sectorNum i
    have hlim' := p.limit_le s.superBlock.sectorNum l
    rw [List.mem_filter, decide_eq_true_eq] at hheld
    rw [released_poolBit hf hi (by omega) hset hl (by omega), h.held l m hl hm hheld.1]
    have hne : ¬ (l = i ∧ m = n) := by
      rintro ⟨rfl, rfl⟩
      exact hheld.2 rfl
    rw [decide_eq_false hne]
    rfl

/-- A call that takes an entry, or finds nothing available. -/
theorem PoolHeld.after_take (h : PoolHeld p s returned held)
    (hnear : 1 ≤ s.superBlock.avail p → NearHole p s) :
    (p.take s = none ∧ s.superBlock.avail p = 0)
      ∨ ∃ s' b, p.take s = some (s', b) ∧ PoolHeld p s' (b :: returned) (b :: held) := by
  by_cases hpos : 1 ≤ s.superBlock.avail p
  · have hh := (h.consistent.hits_iff hpos).mpr (hnear hpos)
    exact Or.inr ⟨_, _, Pool.take_of_hits h.consistent.formatted hh, h.taken hh⟩
  · have hnonneg := h.consistent.backed.avail_nonneg
    have hzero : s.superBlock.avail p = 0 := by omega
    exact Or.inl ⟨Pool.take_eq_none hzero, hzero⟩

/-- A call that releases an entry, or finds it released. -/
theorem PoolHeld.after_release (h : PoolHeld p s returned held) {b : ℕ} (hb : b ∈ returned) :
    p.release s b = none
      ∨ ∃ s', p.release s b = some s' ∧ PoolHeld p s' returned (held.filter (· ≠ b)) := by
  have ⟨i, n, hi, hn, hb⟩ := h.returned b hb
  have hrel := Pool.release_eq h.consistent.formatted hi hn
  rw [← hb] at hrel
  by_cases hset : poolBit p s.superBlock.sectorNum s.disk i n = true
  · rw [if_pos hset] at hrel
    refine Or.inr ⟨_, hrel, ?_⟩
    rw [hb]
    exact h.released hi hn hset
  · rw [if_neg hset] at hrel
    exact Or.inl hrel

end held

/-! ## Runs of the allocator -/

/-- The place by which an entry is handed out, as the source computes it. -/
def Pool.place (p : Pool) (s : FS) (i n : ℕ) : ℕ :=
  match p with
  | .block => (s.groupDesc i).inodeTable + 128 * 8 * s.superBlock.blockSize / 512
      + n * s.superBlock.blockSize / 512
  | .inode => (s.groupDesc i).inodeTable * 512 + n * 128

theorem Pool.address_eq_place {p : Pool} {s : FS} (hf : Formatted s) {i n : ℕ}
    (hi : i < groups s.superBlock.sectorNum) : p.address s.superBlock.sectorNum i n = p.place s i n := by
  cases p with
  | block =>
    rw [Pool.address, Pool.place, hf.inodeTable i hi, hf.blockSize, dataSector]
    omega
  | inode =>
    rw [Pool.address, Pool.place, hf.inodeTable i hi, slotOffset]
    omega

/-- A call to one of the two functions of a pool. -/
inductive PoolOp
  | get
  | free (offset : ℕ)

/-- A file system together with the offsets that calls have returned, and those of them that
have not been freed since. -/
structure AllocRun where
  fs : FS
  returned : List ℕ
  held : List ℕ

namespace AllocRun

/-- The start of a run. -/
def start (s : FS) : AllocRun := ⟨s, [], []⟩

/-- A call of `getAvailBlock` or `getAvailInode`; one that fails leaves everything as it was. -/
def get (p : Pool) (r : AllocRun) : AllocRun :=
  (p.take r.fs).elim r fun q => ⟨q.1, q.2 :: r.returned, q.2 :: r.held⟩

/-- A call of `setAllocBlock` or `setAllocInode`; one that fails leaves everything as it was. -/
def free (p : Pool) (r : AllocRun) (b : ℕ) : AllocRun :=
  (p.release r.fs b).elim r fun s => ⟨s, r.returned, r.held.filter (· ≠ b)⟩

/-- Only offsets returned before are freed. -/
def Legal (p : Pool) : AllocRun → List PoolOp → Prop
  | _, [] => True
  | r, .get :: ops => Legal p (r.get p) ops
  | r, .free b :: ops => b ∈ r.returned ∧ Legal p (r.free p b) ops

/-- What a call of `getAvailBlock` or `getAvailInode` owes: while the counter says that there is
something it succeeds with the place of an entry that was free and is not held, sets the bit of that
entry and no other, and keeps the counters in step with the bitmaps. -/
def GetOk (p : Pool) (r : AllocRun) : Prop :=
  1 ≤ r.fs.superBlock.avail p →
    ∃ s b i n, p.take r.fs = some (s, b)
      ∧ i < groups r.fs.superBlock.sectorNum ∧ n < p.limit r.fs.superBlock.sectorNum i
      ∧ b = p.place r.fs i n
      ∧ poolBit p r.fs.superBlock.sectorNum r.fs.disk i n = false
      ∧ (∀ l m, l < groups r.fs.superBlock.sectorNum → m < 8192 →
          poolBit p r.fs.superBlock.sectorNum s.disk l m
            = (poolBit p r.fs.superBlock.sectorNum r.fs.disk l m || decide (l = i ∧ m = n)))
      ∧ b ∉ r.held
      ∧ Consistent p s

/-- Every call of a run does what it owes. -/
def RunOk (p : Pool) : AllocRun → List PoolOp → Prop
  | _, [] => True
  | r, .get :: ops => r.GetOk p ∧ RunOk p (r.get p) ops
  | r, .free b :: ops => Consistent p (r.free p b).fs ∧ RunOk p (r.free p b) ops

/-- Every call of a run that is to find an entry, and has one available, is made in a state with a hole
near the start of the bitmap. -/
def RunNear (p : Pool) : AllocRun → List PoolOp → Prop
  | _, [] => True
  | r, .get :: ops => (1 ≤ r.fs.superBlock.avail p → NearHole p r.fs) ∧ RunNear p (r.get p) ops
  | r, .free b :: ops => RunNear p (r.free p b) ops

/-- What holds between calls. -/
def Inv (p : Pool) (r : AllocRun) : Prop := PoolHeld p r.fs r.returned r.held

variable {p : Pool} {r : AllocRun}

theorem inv_start {s : FS} (h : Consistent p s) : (start s).Inv p := PoolHeld.start h

/-- A search that hits does what the call owes. -/
theorem Inv.getOk_of_hits (h : r.Inv p) (hh : Hits p r.fs) : r.GetOk p := by
  intro _
  have hf := h.consistent.formatted
  exact ⟨_, _, _, _, Pool.take_of_hits hf hh, hh.group, hh.index, Pool.address_eq_place hf hh.group,
    hh.clear hf, fun l m hl hm => taken_poolBit hf hh.group hh.bit hl hm, h.not_mem hh,
    h.consistent.taken hh⟩

/-- A search that misses changes no bit, so the call cannot do what it owes. -/
theorem Inv.nearHole_of_getOk (h : r.Inv p) (hpos : 1 ≤ r.fs.superBlock.avail p)
    (hok : r.GetOk p) : NearHole p r.fs := by
  have ⟨s, b, i, n, hget, hi, hn, _, hclear, hbits, _, _⟩ := hok hpos
  refine h.consistent.nearHole_of_set hpos hi hn hclear ?_
  rw [Pool.take_fst hget, hbits i n hi (lt_of_lt_of_le hn (p.limit_le _ i))]
  simp

/-- A call that hits keeps the invariant, and so does one that finds nothing available. -/
theorem Inv.after_get (h : r.Inv p) (hnear : 1 ≤ r.fs.superBlock.avail p → NearHole p r.fs) :
    (r.get p).Inv p := by
  rcases h.after_take hnear with ⟨hnone, _⟩ | ⟨s, b, htake, hheld⟩
  · rw [get, hnone]
    exact h
  · rw [get, htake]
    exact hheld

/-- Freeing an offset that was returned keeps the invariant. -/
theorem Inv.after_free (h : r.Inv p) {b : ℕ} (hb : b ∈ r.returned) : (r.free p b).Inv p := by
  rcases h.after_release hb with hnone | ⟨s, hfree, hheld⟩
  · rw [free, hnone]
    exact h
  · rw [free, hfree]
    exact hheld

/-- From any state that meets the invariant. -/
theorem Inv.ok_iff_near (h : r.Inv p) {ops : List PoolOp} (hlegal : r.Legal p ops) :
    r.RunOk p ops ↔ r.RunNear p ops := by
  induction ops generalizing r with
  | nil => exact Iff.rfl
  | cons op ops ih =>
    cases op with
    | get =>
      rw [RunOk, RunNear]
      constructor
      · rintro ⟨hok, hrun⟩
        have hnear := fun hpos => h.nearHole_of_getOk hpos hok
        exact ⟨hnear, (ih (h.after_get hnear) hlegal).mp hrun⟩
      · rintro ⟨hnear, hrun⟩
        refine ⟨fun hpos => ?_, (ih (h.after_get hnear) hlegal).mpr hrun⟩
        have hh := (h.consistent.hits_iff hpos).mpr (hnear hpos)
        exact h.getOk_of_hits hh hpos
    | free b =>
      rw [RunOk, RunNear]
      have hinv := h.after_free hlegal.1
      exact ⟨fun hrun => (ih hinv hlegal.2).mp hrun.2,
        fun hrun => ⟨hinv.consistent, (ih hinv hlegal.2).mpr hrun⟩⟩

/-- **The block allocator on whole runs.** From a consistent file system, a run of
`getAvailBlock` and of `setAllocBlock` on offsets returned before does everything it owes
exactly when each `getAvailBlock` is made with a hole near the start of the bitmap. -/
theorem runOk_iff {s : FS} (h : Consistent .block s) {ops : List PoolOp}
    (hlegal : (start s).Legal .block ops) : (start s).RunOk .block ops ↔ (start s).RunNear .block ops :=
  (inv_start h).ok_iff_near hlegal

/-- Taking two blocks of the empty small disk. -/
theorem runOk_iff_empty :
    (start (smallFS (fun _ => 0) 8192 25)).RunOk .block [.get, .get]
      ↔ (start (smallFS (fun _ => 0) 8192 25)).RunNear .block [.get, .get] :=
  runOk_iff (smallFS_consistent (by decide)) trivial

/-- The small disk with its first 24 blocks in use, and one left. -/
def packed : FS := smallFS (fun p => if 3072 ≤ p ∧ p < 3075 then 0xff else 0) 8192 1

theorem packed_consistent : Consistent .block packed := smallFS_consistent (by decide)

theorem packed_not_nearHole : ¬ NearHole .block packed := by
  rw [packed, smallFS_nearHole_iff le_rfl]
  rintro ⟨j, _, hj, hne⟩
  exact hne (if_pos (by omega))

/-- The byte loop ends after one byte, the bit loop after eight bits: what is handed out is
block 16, which is in use. -/
theorem packed_not_runOk :
    Consistent .block packed ∧ (start packed).Legal .block [.get] ∧ ¬ (start packed).RunOk .block [.get]
      ∧ (getAvailBlock packed 0).map Prod.snd = some (dataSector 2106 0 16)
      ∧ poolBit .block 2106 packed.disk 0 16 = true := by
  refine ⟨packed_consistent, trivial, ?_, ?_, ?_⟩
  · intro hrun
    exact packed_not_nearHole ((inv_start packed_consistent).nearHole_of_getOk le_rfl hrun.1)
  · decide +kernel
  · decide

end AllocRun

end SeL4Sys

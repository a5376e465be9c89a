import Mathlib.Order.CompletePartialOrder
import SeL4Sys.Layout

/-!
# The layout of the groups

The regions that `initGroupHeader` describes, for any disk and any block size. `calGroupNum` looks
for the number of groups with a descriptor table of its own size; the other functions compute that
size again from the number found, and may get a smaller one. The groups fit on the disk all the
same.
-/

namespace SeL4Sys

/-- The parts of a group, in the order of the layout. -/
inductive GroupPart
  | superBlock
  | descTable
  | inodeBitmap
  | blockBitmap
  | inodeTable
  | dataBlocks
deriving DecidableEq

/-- The first sector and the number of sectors of a part of group `i`. The copy of the super block is
at the start of the group, `groupSize` sectors after the one before. -/
def FS.groupPart (s : FS) (spb groupNum groupSize i : ℕ) : GroupPart → ℕ × ℕ
  | .superBlock => (i * groupSize, superBlockSize / sectorSize)
  | .descTable => (i * groupSize + superBlockSize / sectorSize,
      (groupNum * groupDescSize + sectorSize - 1) / sectorSize)
  | .inodeBitmap => ((s.groupDesc i).inodeBitmap, spb)
  | .blockBitmap => ((s.groupDesc i).blockBitmap, spb)
  | .inodeTable => ((s.groupDesc i).inodeTable,
      ((s.groupDesc i).availInodeNum.toNat * inodeSize + sectorSize - 1) / sectorSize)
  | .dataBlocks => ((s.groupDesc i).inodeTable + 1024 * spb,
      (s.groupDesc i).availBlockNum.toNat * spb)

/-- The sectors of a part. -/
def FS.partSectors (s : FS) (spb groupNum groupSize i : ℕ) (part : GroupPart) : Set ℕ :=
  let r := s.groupPart spb groupNum groupSize i part
  Set.Ico r.1 (r.1 + r.2)

variable {S spb D : ℕ}

/-! ## The search for the number of groups -/

/-- The sectors of a full group with a table of `D` blocks. -/
def fullWith (D spb : ℕ) : ℕ := groupHeaderSectors D spb + groupBodySectors spb

/-- The groups that fit on the disk beside tables of `D` blocks. -/
def groupsWith (S D spb : ℕ) : ℕ :=
  S / fullWith D spb + if groupHeaderSectors D spb ≤ S % fullWith D spb then 1 else 0

theorem fullWith_pos (D spb : ℕ) : 0 < fullWith D spb := by
  unfold fullWith groupHeaderSectors
  simp only [superBlockSize, sectorSize]
  omega

/-- Another multiple needs another `F`. -/
theorem mul_add_le_mul {q k : ℕ} (F : ℕ) (h : q < k) : q * F + F ≤ k * F := by
  rw [← Nat.succ_mul]
  exact Nat.mul_le_mul_right F h

/-- There are more than `n` groups when the header of another one fits behind `n` full groups. -/
theorem lt_groupsWith_iff {n : ℕ} :
    n < groupsWith S D spb ↔ n * fullWith D spb + groupHeaderSectors D spb ≤ S := by
  have hpos := fullWith_pos D spb
  have hheader : groupHeaderSectors D spb ≤ fullWith D spb := Nat.le_add_right _ _
  have hdiv := Nat.div_add_mod S (fullWith D spb)
  have hmod := Nat.mod_lt S hpos
  unfold groupsWith
  generalize groupHeaderSectors D spb = H at *
  generalize fullWith D spb = F at *
  rw [Nat.mul_comm] at hdiv
  generalize S / F = q at *
  rcases Nat.lt_trichotomy n q with hlt | heq | hgt
  · have hmul := mul_add_le_mul F hlt
    apply iff_of_true
    · omega
    · omega
  · rw [heq]
    split_ifs <;> omega
  · have hmul := mul_add_le_mul F hgt
    apply iff_of_false
    · split_ifs <;> omega
    · omega

/-- One round of the search: it ends when the table has room for the groups beside it. -/
theorem calGroupNumLoop_succ (hspb : 1 ≤ spb) (hD : 1 ≤ D) (fuel : ℕ) :
    calGroupNumLoop S spb (fuel + 1) D =
      if groupsWith S D spb ≤ 16 * D * spb then some (groupsWith S D spb)
      else calGroupNumLoop S spb fuel (D + 1) := by
  have hsize : superBlockSize / sectorSize + D * spb + (1 + 1 + inodeSize * 8) * spb
      + sectorSize * spb * 8 * spb = fullWith D spb := by
    rw [fullWith, groupHeaderSectors, groupBodySectors]
    ring
  have hcap : sectorSize / groupDescSize * D * spb = 16 * D * spb := rfl
  have hroom : 1 ≤ 16 * D * spb := by
    have := Nat.mul_le_mul hD hspb
    nlinarith
  rw [calGroupNumLoop, groupsWith]
  simp only [hsize, hcap]
  generalize S / fullWith D spb = q
  generalize S % fullWith D spb = r
  generalize groupHeaderSectors D spb = H
  generalize 16 * D * spb = n at *
  by_cases hr : H ≤ r
  · simp only [hr, not_lt.mpr hr, and_false, and_true, if_false, if_true]
    by_cases hq : q = 0
    · rw [if_pos hq, hq, if_pos (by omega)]
    · rw [if_neg hq]
      exact if_congr Iff.rfl rfl rfl
  · simp only [not_le.mp hr, hr, and_true, and_false, if_false, Nat.add_zero]
    by_cases hq : q = 0
    · rw [if_pos hq, hq, if_pos (by omega)]
    · rw [if_neg hq]

/-- The search ends with the first table that is large enough. -/
theorem calGroupNumLoop_first (hspb : 1 ≤ spb) {fuel g : ℕ} (hD : 1 ≤ D)
    (h : calGroupNumLoop S spb fuel D = some g) :
    ∃ D₁, D ≤ D₁ ∧ g = groupsWith S D₁ spb ∧ g ≤ 16 * D₁ * spb
      ∧ ∀ D₂, D ≤ D₂ → D₂ < D₁ → 16 * D₂ * spb < groupsWith S D₂ spb := by
  induction fuel generalizing D with
  | zero => simp [calGroupNumLoop] at h
  | succ fuel ih =>
    rw [calGroupNumLoop_succ hspb hD] at h
    by_cases hroom : groupsWith S D spb ≤ 16 * D * spb
    · rw [if_pos hroom] at h
      have hg := Option.some.inj h
      refine ⟨D, le_rfl, hg.symm, by omega, ?_⟩
      intro D₂ hle hlt
      omega
    · rw [if_neg hroom] at h
      obtain ⟨D₁, hle, hg, hcap, hsmall⟩ := ih (Nat.le_add_left 1 D) h
      refine ⟨D₁, by omega, hg, hcap, ?_⟩
      intro D₂ hD₂ hlt
      -- the table of this round was too small itself
      rcases Nat.eq_or_lt_of_le hD₂ with heq | hgt
      · rw [← heq]
        omega
      · exact hsmall D₂ hgt hlt

/-! ## The groups fit on the disk -/

/-- The size of the table computed from the groups is at most that of the search. -/
theorem groupDescBlocks_le (hspb : 1 ≤ spb) {groupNum D : ℕ} (h : groupNum ≤ 16 * D * spb) :
    groupDescBlocks groupNum spb ≤ D := by
  rw [groupDescBlocks]
  apply Nat.le_of_lt_succ
  rw [Nat.div_lt_iff_lt_mul (by simp only [sectorSize]; omega)]
  have hexpand : D.succ * (sectorSize * spb) = 512 * (D * spb) + 512 * spb := by
    simp only [sectorSize, Nat.succ_eq_add_one]
    ring
  rw [Nat.mul_assoc] at h
  rw [hexpand]
  simp only [groupDescSize, sectorSize]
  omega

/-- The sectors before the inode table, by the number of groups. -/
def headerOf (groupNum spb : ℕ) : ℕ := groupHeaderSectors (groupDescBlocks groupNum spb) spb

/-- The sectors of a full group. -/
def fullOf (groupNum spb : ℕ) : ℕ := headerOf groupNum spb + groupBodySectors spb

theorem fullOf_pos (groupNum spb : ℕ) : 0 < fullOf groupNum spb := by
  have : 2 ≤ headerOf groupNum spb := Nat.le_add_right 2 _
  rw [fullOf]
  omega

theorem headerOf_le (hspb : 1 ≤ spb) {groupNum D : ℕ} (h : groupNum ≤ 16 * D * spb) :
    headerOf groupNum spb ≤ groupHeaderSectors D spb := by
  rw [headerOf, groupHeaderSectors, groupHeaderSectors]
  have hle := groupDescBlocks_le hspb h
  exact Nat.add_le_add_left (Nat.mul_le_mul_right spb (by omega)) _

/-- All groups but the last are full, and so is the last one when what is left over is less than a
header. -/
theorem groups_fit (hspb : 1 ≤ spb) (hpos : 1 ≤ calGroupNum S spb) :
    (calGroupNum S spb - 1) * fullOf (calGroupNum S spb) spb ≤ S
      ∧ (S % fullOf (calGroupNum S spb) spb < headerOf (calGroupNum S spb) spb →
          calGroupNum S spb * fullOf (calGroupNum S spb) spb ≤ S) := by
  have hloop : calGroupNumLoop S spb (S + 1) 1 = some (calGroupNum S spb) := calGroupNum_eq hspb
  generalize calGroupNum S spb = g at hloop hpos ⊢
  have ⟨D, _, hg, hcap, _⟩ := calGroupNumLoop_first hspb le_rfl hloop
  have hlast := lt_groupsWith_iff.mp (show g - 1 < groupsWith S D spb by omega)
  have hheader := headerOf_le hspb hcap
  have hfull : fullOf g spb ≤ fullWith D spb := Nat.add_le_add_right hheader _
  have hbefore := Nat.mul_le_mul_left (g - 1) hfull
  have hle : (g - 1) * fullOf g spb + headerOf g spb ≤ S := by omega
  refine ⟨by omega, ?_⟩
  intro hrem
  -- with exactly `g - 1` groups below, the header of the last one would be left over
  by_contra hlt
  have hsplit : g * fullOf g spb = (g - 1) * fullOf g spb + fullOf g spb := by
    rw [← Nat.succ_mul, Nat.succ_eq_add_one, Nat.sub_add_cancel hpos]
  have hmod : S % fullOf g spb = S - (g - 1) * fullOf g spb := by
    have hrest : S = (S - (g - 1) * fullOf g spb) + fullOf g spb * (g - 1) := by
      rw [Nat.mul_comm (fullOf g spb)]
      omega
    rw [hrest, Nat.add_mul_mod_self_left, Nat.mod_eq_of_lt (by omega)]
    rw [Nat.mul_comm (fullOf g spb)]
    omega
  omega

theorem calGroupSize_of_lt {groupNum i : ℕ} (h : i + 1 < groupNum) :
    calGroupSize S spb groupNum i = fullOf groupNum spb := by
  rw [calGroupSize, if_pos h]
  rfl

theorem calGroupSize_last {groupNum i : ℕ} (h : i + 1 = groupNum) :
    calGroupSize S spb groupNum i = if headerOf groupNum spb ≤ S % fullOf groupNum spb then
      S % fullOf groupNum spb else fullOf groupNum spb := by
  rw [calGroupSize, if_neg (by omega), if_pos h]
  rfl

/-- The groups end on the disk. -/
theorem groupEnd_le (hspb : 1 ≤ spb) {i : ℕ} (hi : i < calGroupNum S spb) :
    i * fullOf (calGroupNum S spb) spb + calGroupSize S spb (calGroupNum S spb) i ≤ S := by
  have ⟨hbefore, hall⟩ := groups_fit hspb (by omega : 1 ≤ calGroupNum S spb)
  generalize calGroupNum S spb = g at *
  by_cases hlast : i + 1 = g
  · have hi' : g - 1 = i := by omega
    rw [calGroupSize_last hlast]
    rw [hi'] at hbefore
    split_ifs with hheader
    · have hq : i ≤ S / fullOf g spb :=
        (Nat.le_div_iff_mul_le (fullOf_pos g spb)).mpr hbefore
      have hle := Nat.mul_le_mul_right (fullOf g spb) hq
      have := Nat.div_add_mod S (fullOf g spb)
      rw [Nat.mul_comm] at this
      omega
    · have hle := hall (by omega)
      have hsucc := Nat.succ_mul i (fullOf g spb)
      rw [Nat.succ_eq_add_one, hlast] at hsucc
      omega
  · rw [calGroupSize_of_lt (by omega)]
    have hle := Nat.mul_le_mul_right (fullOf g spb) (by omega : i + 1 ≤ g - 1)
    rw [Nat.succ_mul] at hle
    omega

/-! ## The parts of a group -/

section parts
variable {g i : ℕ}

theorem header_le_groupSize (hi : i < g) : headerOf g spb ≤ calGroupSize S spb g i := by
  have hle : headerOf g spb ≤ fullOf g spb := Nat.le_add_right ..
  by_cases hlast : i + 1 = g
  · rw [calGroupSize_last hlast]
    split_ifs with h
    · exact h
    · exact hle
  · rw [calGroupSize_of_lt (by omega)]
    exact hle

theorem groupSize_le_full (hi : i < g) : calGroupSize S spb g i ≤ fullOf g spb := by
  by_cases hlast : i + 1 = g
  · rw [calGroupSize_last hlast]
    split_ifs
    · exact (Nat.mod_lt _ (fullOf_pos g spb)).le
    · exact le_rfl
  · rw [calGroupSize_of_lt (by omega)]

/-- The inode table ends in the group and before the data blocks. -/
theorem inodes_fit (hi : i < g) :
    (calInodesPerGroup S spb g i * inodeSize + sectorSize - 1) / sectorSize ≤ 1024 * spb
      ∧ headerOf g spb + (calInodesPerGroup S spb g i * inodeSize + sectorSize - 1) / sectorSize
          ≤ calGroupSize S spb g i := by
  have hall : (sectorSize * spb * 8 * inodeSize + sectorSize - 1) / sectorSize = 1024 * spb := by
    simp only [sectorSize, inodeSize]
    omega
  have hbody : 1024 * spb ≤ groupBodySectors spb := by
    rw [groupBodySectors]
    exact Nat.le_add_right ..
  have hfull : headerOf g spb + 1024 * spb ≤ fullOf g spb := Nat.add_le_add_left hbody _
  by_cases hlast : i + 1 = g
  · rw [calInodesPerGroup, if_neg (by omega), if_pos hlast, calGroupSize_last hlast]
    simp only [show groupHeaderSectors (groupDescBlocks g spb) spb = headerOf g spb from rfl,
      show headerOf g spb + groupBodySectors spb = fullOf g spb from rfl]
    split_ifs with hheader htable
    · rw [hall]
      refine ⟨le_rfl, ?_⟩
      simp only [inodeSize] at htable
      omega
    · -- the inodes that fit in the whole blocks left over
      generalize S % fullOf g spb = rem at *
      have hblocks : (rem - headerOf g spb) / spb * spb ≤ rem - headerOf g spb :=
        Nat.div_mul_le_self ..
      have hsectors : ((rem - headerOf g spb) / spb * spb * sectorSize / inodeSize * inodeSize
          + sectorSize - 1) / sectorSize ≤ (rem - headerOf g spb) / spb * spb := by
        simp only [sectorSize, inodeSize]
        omega
      simp only [inodeSize] at htable
      omega
    · rw [hall]
      exact ⟨le_rfl, hfull⟩
  · rw [calInodesPerGroup, if_pos (by omega), calGroupSize_of_lt (by omega), hall]
    exact ⟨le_rfl, hfull⟩

/-- The data blocks, if there are any, end in the group. -/
theorem blocks_fit (hi : i < g) (hpos : calBlocksPerGroup S spb g i ≠ 0) :
    headerOf g spb + 1024 * spb + calBlocksPerGroup S spb g i * spb ≤ calGroupSize S spb g i := by
  have hfull : headerOf g spb + 1024 * spb + sectorSize * spb * 8 * spb = fullOf g spb := by
    rw [fullOf, groupBodySectors, Nat.add_assoc]
    rfl
  by_cases hlast : i + 1 = g
  · rw [calBlocksPerGroup, if_neg (by omega), if_pos hlast] at hpos ⊢
    rw [calGroupSize_last hlast]
    simp only [show groupHeaderSectors (groupDescBlocks g spb) spb = headerOf g spb from rfl,
      show headerOf g spb + groupBodySectors spb = fullOf g spb from rfl] at hpos ⊢
    split_ifs at hpos ⊢ with hheader htable
    · have hblocks := Nat.div_mul_le_self (S % fullOf g spb - headerOf g spb - inodeSize * 8 * spb) spb
      simp only [inodeSize] at htable hblocks
      simp only [inodeSize]
      omega
    · exact absurd rfl hpos
    · exact hfull.le
  · rw [calBlocksPerGroup, if_pos (by omega), calGroupSize_of_lt (by omega)]
    exact hfull.le

end parts

/-! ## All parts of all groups -/

/-- What `initGroupHeader` stores in the descriptors. -/
theorem initGroupHeader_desc {s s' : FS} (h : initGroupHeader s S spb = some s') {i : ℕ}
    (hi : i < calGroupNum S spb) :
    (s'.groupDesc i).availInodeNum = calInodesPerGroup S spb (calGroupNum S spb) i
      ∧ (s'.groupDesc i).availBlockNum = calBlocksPerGroup S spb (calGroupNum S spb) i
      ∧ (s'.groupDesc i).inodeBitmap = i * calGroupSize S spb (calGroupNum S spb) 0
          + (2 + groupDescBlocks (calGroupNum S spb) spb * spb)
      ∧ (s'.groupDesc i).blockBitmap = i * calGroupSize S spb (calGroupNum S spb) 0
          + (2 + (groupDescBlocks (calGroupNum S spb) spb + 1) * spb)
      ∧ (s'.groupDesc i).inodeTable = i * calGroupSize S spb (calGroupNum S spb) 0
          + headerOf (calGroupNum S spb) spb := by
  rw [initGroupHeader] at h
  dsimp only at h
  split_ifs at h
  rw [← Option.some.inj h]
  simp only [if_pos hi]
  exact ⟨trivial, trivial, rfl, rfl, rfl⟩

/-- Where a part starts in its group. -/
def partLow (g spb : ℕ) : GroupPart → ℕ
  | .superBlock => 0
  | .descTable => 2
  | .inodeBitmap => 2 + groupDescBlocks g spb * spb
  | .blockBitmap => 2 + (groupDescBlocks g spb + 1) * spb
  | .inodeTable => headerOf g spb
  | .dataBlocks => headerOf g spb + 1024 * spb

/-- The order of the parts in a group. -/
def GroupPart.rank : GroupPart → ℕ
  | .superBlock => 0
  | .descTable => 1
  | .inodeBitmap => 2
  | .blockBitmap => 3
  | .inodeTable => 4
  | .dataBlocks => 5

theorem GroupPart.rank_injective {part part' : GroupPart} (h : part.rank = part'.rank) :
    part = part' := by
  cases part <;> cases part' <;> first | rfl | exact absurd h (by decide)

/-- The descriptors of the groups fit in their blocks. -/
theorem descTable_fits (hspb : 1 ≤ spb) (g : ℕ) :
    (g * groupDescSize + sectorSize - 1) / sectorSize ≤ groupDescBlocks g spb * spb := by
  have hbytes : g * groupDescSize ≤ groupDescBlocks g spb * spb * sectorSize := by
    rw [groupDescBlocks, Nat.mul_assoc, Nat.mul_comm spb]
    have hpos : 0 < sectorSize * spb := by
      simp only [sectorSize]
      omega
    have := Nat.div_add_mod (g * groupDescSize + sectorSize * spb - 1) (sectorSize * spb)
    have := Nat.mod_lt (g * groupDescSize + sectorSize * spb - 1) hpos
    rw [Nat.mul_comm (_ / _)]
    omega
  simp only [sectorSize] at *
  omega

/-- All groups before another one are full, so they start at multiples of the size of a full group. -/
theorem mul_groupSize {g i : ℕ} (hi : i < g) :
    i * calGroupSize S spb g 0 = i * fullOf g spb := by
  by_cases hone : 0 + 1 < g
  · rw [calGroupSize_of_lt hone]
  · have hzero : i = 0 := by omega
    rw [hzero, Nat.zero_mul, Nat.zero_mul]

section regions
variable {s s' : FS} {i j : ℕ} {part part' : GroupPart}

/-- A part of group `i`, as `initGroupHeader` describes it. -/
def headerPart (s' : FS) (S spb i : ℕ) (part : GroupPart) : ℕ × ℕ :=
  s'.groupPart spb (calGroupNum S spb) (calGroupSize S spb (calGroupNum S spb) 0) i part

theorem headerPart_start (h : initGroupHeader s S spb = some s') (hi : i < calGroupNum S spb) :
    (headerPart s' S spb i part).1
      = i * fullOf (calGroupNum S spb) spb + partLow (calGroupNum S spb) spb part := by
  have ⟨_, _, hinode, hblock, htable⟩ := initGroupHeader_desc h hi
  rw [mul_groupSize hi] at hinode hblock htable
  cases part with
  | superBlock => exact mul_groupSize hi
  | descTable => exact congrArg (· + 2) (mul_groupSize hi)
  | inodeBitmap => exact hinode
  | blockBitmap => exact hblock
  | inodeTable => exact htable
  | dataBlocks =>
    show (s'.groupDesc i).inodeTable + 1024 * spb = _
    rw [htable, partLow, Nat.add_assoc]

/-- A part ends before the parts after it start, and in the group unless it is empty. -/
theorem headerPart_end (part : GroupPart) (hspb : 1 ≤ spb) (h : initGroupHeader s S spb = some s')
    (hi : i < calGroupNum S spb) :
    (∀ part', part.rank < part'.rank →
        partLow (calGroupNum S spb) spb part + (headerPart s' S spb i part).2
          ≤ partLow (calGroupNum S spb) spb part')
      ∧ ((headerPart s' S spb i part).2 ≠ 0 →
        partLow (calGroupNum S spb) spb part + (headerPart s' S spb i part).2
          ≤ calGroupSize S spb (calGroupNum S spb) i) := by
  have ⟨hinodes, hblocks, _⟩ := initGroupHeader_desc h hi
  have hsize : headerOf (calGroupNum S spb) spb ≤ calGroupSize S spb (calGroupNum S spb) i :=
    header_le_groupSize hi
  have hdescs := descTable_fits hspb (calGroupNum S spb)
  have ⟨htable, hgroup⟩ : _ ≤ 1024 * spb ∧ _ ≤ calGroupSize S spb (calGroupNum S spb) i :=
    inodes_fit hi
  have hheader : headerOf (calGroupNum S spb) spb
      = 2 + (groupDescBlocks (calGroupNum S spb) spb + 1 + 1) * spb := rfl
  rw [Nat.succ_mul, Nat.succ_mul] at hheader
  have hbitmap : (groupDescBlocks (calGroupNum S spb) spb + 1) * spb
      = groupDescBlocks (calGroupNum S spb) spb * spb + spb := Nat.succ_mul ..
  -- the lengths of the parts
  have hsuper : (headerPart s' S spb i .superBlock).2 = 2 := rfl
  have hdesc : (headerPart s' S spb i .descTable).2 ≤ groupDescBlocks (calGroupNum S spb) spb * spb :=
    hdescs
  have hinode : (headerPart s' S spb i .inodeBitmap).2 = spb := rfl
  have hblock : (headerPart s' S spb i .blockBitmap).2 = spb := rfl
  have hinodeTable : (headerPart s' S spb i .inodeTable).2
      = (calInodesPerGroup S spb (calGroupNum S spb) i * inodeSize + sectorSize - 1) / sectorSize := by
    show ((s'.groupDesc i).availInodeNum.toNat * inodeSize + sectorSize - 1) / sectorSize = _
    rw [hinodes, Int.toNat_natCast]
  have hdata : (headerPart s' S spb i .dataBlocks).2
      = calBlocksPerGroup S spb (calGroupNum S spb) i * spb := by
    show (s'.groupDesc i).availBlockNum.toNat * spb = _
    rw [hblocks, Int.toNat_natCast]
  refine ⟨?_, ?_⟩
  · intro part' hrank
    cases part <;> cases part' <;> simp only [GroupPart.rank] at hrank <;>
      simp only [partLow] <;> omega
  · intro hne
    cases part with
    | dataBlocks =>
      rw [hdata] at hne ⊢
      exact blocks_fit hi fun hzero => hne (by rw [hzero, Nat.zero_mul])
    | inodeTable =>
      rw [hinodeTable]
      exact hgroup
    | _ =>
      simp only [partLow]
      omega

/-- The sectors of a part are those of its group on the disk. -/
theorem headerPart_sectors (hspb : 1 ≤ spb) (h : initGroupHeader s S spb = some s')
    (hi : i < calGroupNum S spb) {x : ℕ} (hlow : (headerPart s' S spb i part).1 ≤ x)
    (hhigh : x < (headerPart s' S spb i part).1 + (headerPart s' S spb i part).2) :
    i * fullOf (calGroupNum S spb) spb ≤ x ∧ x < (i + 1) * fullOf (calGroupNum S spb) spb ∧ x < S := by
  have hend := (headerPart_end part hspb h hi).2 (by omega)
  have hfull : calGroupSize S spb (calGroupNum S spb) i ≤ fullOf (calGroupNum S spb) spb :=
    groupSize_le_full hi
  have hdisk := groupEnd_le hspb hi
  rw [headerPart_start h hi] at hlow hhigh
  rw [Nat.succ_mul]
  omega

/-- The regions that `initGroupHeader` describes for the groups lie on the disk, and no two of them
overlap. -/
theorem groupParts_disjoint (hspb : 1 ≤ spb) (h : initGroupHeader s S spb = some s')
    (hi : i < calGroupNum S spb) (hj : j < calGroupNum S spb) (hne : (i, part) ≠ (j, part')) :
    s'.partSectors spb (calGroupNum S spb) (calGroupSize S spb (calGroupNum S spb) 0) i part
        ⊆ Set.Ico 0 S
      ∧ Disjoint
        (s'.partSectors spb (calGroupNum S spb) (calGroupSize S spb (calGroupNum S spb) 0) i part)
        (s'.partSectors spb (calGroupNum S spb) (calGroupSize S spb (calGroupNum S spb) 0) j part') := by
  refine ⟨?_, ?_⟩
  · intro x ⟨hlow, hhigh⟩
    exact ⟨Nat.zero_le x, (headerPart_sectors hspb h hi hlow hhigh).2.2⟩
  · rw [Set.disjoint_left]
    intro x ⟨hlow, hhigh⟩ ⟨hlow', hhigh'⟩
    have hin := headerPart_sectors hspb h hi hlow hhigh
    have hin' := headerPart_sectors hspb h hj hlow' hhigh'
    -- two groups do not share a sector
    have hij : i = j := by
      rcases Nat.lt_trichotomy i j with hlt | heq | hlt
      · have hle : (i + 1) * fullOf (calGroupNum S spb) spb ≤ j * fullOf (calGroupNum S spb) spb :=
          Nat.mul_le_mul_right _ hlt
        omega
      · exact heq
      · have hle : (j + 1) * fullOf (calGroupNum S spb) spb ≤ i * fullOf (calGroupNum S spb) spb :=
          Nat.mul_le_mul_right _ hlt
        omega
    have hrank : part.rank ≠ part'.rank := by
      intro heq
      exact hne (by rw [hij, GroupPart.rank_injective heq])
    have hstart : (headerPart s' S spb i part).1 ≤ x := hlow
    have hstart' : (headerPart s' S spb j part').1 ≤ x := hlow'
    have hstop : x < (headerPart s' S spb i part).1 + (headerPart s' S spb i part).2 := hhigh
    have hstop' : x < (headerPart s' S spb j part').1 + (headerPart s' S spb j part').2 := hhigh'
    rw [headerPart_start h hi] at hstart hstop
    rw [headerPart_start h hj] at hstart' hstop'
    rw [← hij] at hstart' hstop'
    rcases Nat.lt_or_gt_of_ne hrank with hlt | hlt
    · have := (headerPart_end part hspb h hi).1 part' hlt
      omega
    · have := (headerPart_end part' hspb h hi).1 part hlt
      omega

/-- The data blocks of the two groups of a disk of 20546 sectors. -/
theorem groupParts_disjoint_two : ∃ s', initGroupHeader (smallFS (fun _ => 0) 0 0) 20546 2 = some s'
    ∧ s'.partSectors 2 (calGroupNum 20546 2) (calGroupSize 20546 2 (calGroupNum 20546 2) 0) 1
          .dataBlocks ⊆ Set.Ico 0 20546
    ∧ Disjoint
        (s'.partSectors 2 (calGroupNum 20546 2) (calGroupSize 20546 2 (calGroupNum 20546 2) 0) 1
          .dataBlocks)
        (s'.partSectors 2 (calGroupNum 20546 2) (calGroupSize 20546 2 (calGroupNum 20546 2) 0) 0
          .dataBlocks) := by
  have hsome : (initGroupHeader (smallFS (fun _ => 0) 0 0) 20546 2).isSome := by decide +kernel
  have ⟨s', hs'⟩ := Option.isSome_iff_exists.mp hsome
  exact ⟨s', hs', groupParts_disjoint (by decide) hs' (by decide) (by decide) (by simp)⟩

end regions

end SeL4Sys

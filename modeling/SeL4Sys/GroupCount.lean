import SeL4Sys.GroupLayout

/-!
# What the groups leave unused

With a descriptor table of `D` blocks a disk has room for `groupsWith S D spb` groups: as many full
ones as fit, and one more when a header fits into what is left over. `calGroupNum` returns the
number of groups for the first table that is large enough for its own groups.

The other functions compute the size of the table again from that number. When one more table
block has cost the last group, the number belongs to a smaller table than the one it was found
with, and the disk is one group short: the last group is taken to be the partial one.
-/

namespace SeL4Sys

variable {S spb D : ℕ}

/-- A larger table leaves room for fewer groups. -/
theorem groupsWith_antitone {D' : ℕ} (h : D ≤ D') : groupsWith S D' spb ≤ groupsWith S D spb := by
  have hheader : groupHeaderSectors D spb ≤ groupHeaderSectors D' spb := by
    unfold groupHeaderSectors
    exact Nat.add_le_add_left (Nat.mul_le_mul_right spb (by omega)) _
  have hfull : fullWith D spb ≤ fullWith D' spb := Nat.add_le_add_right hheader _
  by_contra hlt
  have hfits := lt_groupsWith_iff.mp (not_le.mp hlt)
  have hmul := Nat.mul_le_mul_left (groupsWith S D spb) hfull
  exact lt_irrefl _ (lt_groupsWith_iff.mpr (by omega : groupsWith S D spb * fullWith D spb
    + groupHeaderSectors D spb ≤ S))

/-! ## The table computed from the number of groups -/

/-- The table that the other functions compute has room for the groups. -/
theorem le_groupDescBlocks (hspb : 1 ≤ spb) (g : ℕ) : g ≤ 16 * groupDescBlocks g spb * spb := by
  have hpos : 0 < 512 * spb := by omega
  have hdiv := Nat.div_add_mod (g * 32 + 512 * spb - 1) (512 * spb)
  have hmod := Nat.mod_lt (g * 32 + 512 * spb - 1) hpos
  have hcap : 16 * groupDescBlocks g spb * spb * 32
      = 512 * spb * ((g * 32 + 512 * spb - 1) / (512 * spb)) := by
    unfold groupDescBlocks
    simp only [groupDescSize, sectorSize]
    ring
  omega

theorem groupDescBlocks_pos (hspb : 1 ≤ spb) {g : ℕ} (hg : 1 ≤ g) : 1 ≤ groupDescBlocks g spb := by
  have hle := le_groupDescBlocks hspb g
  by_contra hzero
  rw [Nat.lt_one_iff.mp (not_le.mp hzero)] at hle
  omega

/-- The sectors of all groups. -/
def groupSectors (S spb g : ℕ) : ℕ := ∑ i ∈ Finset.range g, calGroupSize S spb g i

/-- All groups but the last are full. -/
theorem groupSectors_eq {g : ℕ} (hg : 1 ≤ g) :
    groupSectors S spb g = (g - 1) * fullOf g spb
      + if headerOf g spb ≤ S % fullOf g spb then S % fullOf g spb else fullOf g spb := by
  have hlast : g = g - 1 + 1 := by omega
  have hfull : ∑ i ∈ Finset.range (g - 1), calGroupSize S spb g i = (g - 1) * fullOf g spb := by
    rw [Finset.sum_const_nat, Finset.card_range]
    intro i hi
    have := Finset.mem_range.mp hi
    exact calGroupSize_of_lt (by omega)
  unfold groupSectors
  rw [← calGroupSize_last hlast.symm, ← hfull, ← Finset.sum_range_succ, ← hlast]

/-- The groups use the disk up to less than a header: the property of the layout. -/
def UsesDisk (S spb : ℕ) : Prop :=
  groupSectors S spb (calGroupNum S spb) ≤ S
    ∧ S < groupSectors S spb (calGroupNum S spb) + headerOf (calGroupNum S spb) spb

/-- They do when the number of groups is the one for the table that is computed from it. -/
theorem usesDisk_iff_groupsWith (hg : 1 ≤ calGroupNum S spb) :
    UsesDisk S spb ↔ groupsWith S (groupDescBlocks (calGroupNum S spb) spb) spb
      = calGroupNum S spb := by
  unfold UsesDisk
  rw [groupSectors_eq hg]
  generalize calGroupNum S spb = g at *
  have hpos := fullOf_pos g spb
  have hheader : headerOf g spb ≤ fullOf g spb := Nat.le_add_right _ _
  have hheader_pos : 0 < headerOf g spb := by
    unfold headerOf groupHeaderSectors
    simp only [superBlockSize, sectorSize]
    omega
  have hdiv := Nat.div_add_mod S (fullOf g spb)
  have hmod := Nat.mod_lt S hpos
  show _ ↔ S / fullOf g spb + (if headerOf g spb ≤ S % fullOf g spb then 1 else 0) = g
  -- from here on only the quotient, the remainder and the two sizes matter
  generalize headerOf g spb = H at *
  generalize fullOf g spb = F at *
  rw [Nat.mul_comm] at hdiv
  have hg' : (g - 1) * F + F = g * F := by rw [← Nat.succ_mul, Nat.succ_eq_add_one, Nat.sub_add_cancel hg]
  generalize S / F = q at *
  generalize S % F = r at *
  -- a remainder of a header or more makes a group of its own
  by_cases hr : H ≤ r
  · rw [if_pos hr, if_pos hr]
    rcases Nat.lt_trichotomy (q + 1) g with hlt | heq | hgt
    · have hmul := mul_add_le_mul F (show q < g - 1 by omega)
      apply iff_of_false
      · omega
      · omega
    · have hq : q = g - 1 := by omega
      rw [hq] at hdiv
      apply iff_of_true
      · omega
      · exact heq
    · have hmul := mul_add_le_mul F (show g - 1 < q by omega)
      apply iff_of_false
      · omega
      · omega
  · rw [if_neg hr, if_neg hr, hg']
    rcases Nat.lt_trichotomy q g with hlt | heq | hgt
    · have hmul := mul_add_le_mul F hlt
      apply iff_of_false
      · omega
      · omega
    · rw [heq] at hdiv
      apply iff_of_true
      · omega
      · exact heq
    · have hmul := mul_add_le_mul F hgt
      apply iff_of_false
      · omega
      · omega

/-- For a table of `D` blocks there are more groups than it describes, and for one more block there
are not: a disk on which no table fits its groups exactly. -/
def TableGap (S spb D : ℕ) : Prop :=
  16 * D * spb * fullWith D spb + groupHeaderSectors D spb ≤ S
    ∧ S < 16 * D * spb * fullWith (D + 1) spb + groupHeaderSectors (D + 1) spb

theorem tableGap_iff :
    TableGap S spb D ↔ 16 * D * spb < groupsWith S D spb ∧ groupsWith S (D + 1) spb ≤ 16 * D * spb := by
  have hnext : groupsWith S (D + 1) spb ≤ 16 * D * spb
      ↔ S < 16 * D * spb * fullWith (D + 1) spb + groupHeaderSectors (D + 1) spb := by
    rw [← not_lt, lt_groupsWith_iff, not_le]
  unfold TableGap
  rw [lt_groupsWith_iff, hnext]

/-- The groups use the disk exactly when the size of the disk is in no such gap. -/
theorem usesDisk_iff (hspb : 1 ≤ spb) (hg : 1 ≤ calGroupNum S spb) :
    UsesDisk S spb ↔ ¬ ∃ D, 1 ≤ D ∧ TableGap S spb D := by
  have ⟨D₁, hD₁, hcount, hcap, hsmall⟩ :=
    calGroupNumLoop_first hspb le_rfl (@calGroupNum_eq S spb hspb)
  have hle := groupDescBlocks_le hspb hcap
  have hpos := groupDescBlocks_pos hspb hg
  have hroom := le_groupDescBlocks hspb (calGroupNum S spb)
  have hmono : ∀ {D D' : ℕ}, D ≤ D' → 16 * D * spb ≤ 16 * D' * spb := fun h =>
    Nat.mul_le_mul_right spb (Nat.mul_le_mul_left 16 h)
  rw [usesDisk_iff_groupsWith hg]
  generalize calGroupNum S spb = g at *
  constructor
  · intro heq hgap
    have ⟨D, hD, hgap⟩ := hgap
    have ⟨hmore, hfew⟩ := tableGap_iff.mp hgap
    -- the search ends with the block after the gap
    have hlt : D < D₁ := by
      by_contra hge
      have : groupsWith S D spb ≤ groupsWith S D₁ spb := groupsWith_antitone (not_lt.mp hge)
      have := hmono (not_lt.mp hge)
      omega
    have hend : D₁ = D + 1 := by
      by_contra hne
      have := hsmall (D + 1) (by omega) (by omega)
      have := hmono (Nat.le_add_right D 1)
      omega
    -- so the table that is computed from the groups is a smaller one
    have hback : groupDescBlocks g spb ≤ D := groupDescBlocks_le hspb (by rw [hcount, hend]; exact hfew)
    have := hsmall _ hpos (by omega)
    omega
  · intro hno
    have heq : groupDescBlocks g spb = D₁ := by
      by_contra hne
      apply hno
      refine ⟨D₁ - 1, by omega, tableGap_iff.mpr ⟨hsmall _ (by omega) (by omega), ?_⟩⟩
      have := hmono (show groupDescBlocks g spb ≤ D₁ - 1 by omega)
      rw [Nat.sub_add_cancel hD₁, ← hcount]
      omega
    rw [heq, hcount]

/-- A disk of one group. -/
theorem usesDisk_iff_small : UsesDisk 2106 2 := by
  have hg : calGroupNum 2106 2 = 1 := by decide
  apply (usesDisk_iff (by norm_num) (by rw [hg])).mpr
  intro hgap
  have ⟨D, hD, hle, _⟩ := hgap
  unfold fullWith groupBodySectors at hle
  simp only [inodeSize, sectorSize] at hle
  nlinarith

/-- With 590144 sectors and blocks of two sectors there is room for a 33rd header beside tables of one
block, and not beside tables of two. A group of 18440 sectors is left unused. -/
theorem gap_disk_not_used :
    calGroupNum 590144 2 = 32 ∧ groupSectors 590144 2 32 + 18440 = 590144 ∧ ¬ UsesDisk 590144 2 := by
  have hg : calGroupNum 590144 2 = 32 := by decide +kernel
  refine ⟨hg, by decide +kernel, ?_⟩
  rw [usesDisk_iff_groupsWith (by rw [hg]; norm_num), hg]
  decide

end SeL4Sys

import SeL4Sys.MountAny

/-!
# The bound on the number of groups

`gDesc` has `MAX_GROUP_NUM` elements, a formula of the number of sectors and the block size. Where
nothing overflows, the search of `calGroupNum` ends, what it returns is within that formula, and the
descriptors of the groups fit into the table with which it ended.
-/

namespace SeL4Sys

open Bytes

variable {S spb D k : ℕ}

/-- The formula of `MAX_GROUP_NUM`. -/
def maxGroupNumOf (sectorNum sectorsPerBlock : ℕ) : ℕ :=
  sectorNum / sectorSize / sectorsPerBlock / 8 / sectorsPerBlock + 1

/-- `MAX_GROUP_NUM` is the formula for the disk of the build. -/
theorem maxGroupNum_eq : maxGroupNum = maxGroupNumOf 8196 sectorsPerBlock := rfl

/-- The loop of `calGroupNum` ends with `groupDescBlocks` equal to `d`: it gets to the round with a table of
that size, and the round returns. -/
structure StopsAt (sectorNum sectorsPerBlock : ℤ) (d : ℕ) (groupNum : ℤ) : Prop where
  pos : 1 ≤ d
  reached : ∀ rounds, calGroupNumRounds sectorNum sectorsPerBlock (d - 1 + rounds) 1
    = calGroupNumRounds sectorNum sectorsPerBlock rounds d
  returns : calGroupNumRounds sectorNum sectorsPerBlock 1 d = .returned groupNum

/-! ## The rounds before the last -/

/-- Rounds with a table that is too small. -/
theorem calGroupNumLoop_skip (hspb : 1 ≤ spb) (hD : 1 ≤ D) (rounds : ℕ)
    (hsmall : ∀ j, D ≤ j → j < D + k → 16 * j * spb < groupsWith S j spb) :
    calGroupNumLoop S spb (k + rounds) D = calGroupNumLoop S spb rounds (D + k) := by
  induction k generalizing D with
  | zero => rw [Nat.zero_add, Nat.add_zero]
  | succ k ih =>
    have hmore := hsmall D le_rfl (by omega)
    have hrest := ih (Nat.le_add_left 1 D) fun j hj hlt => hsmall j (by omega) (by omega)
    rw [Nat.succ_add, calGroupNumLoop_succ hspb hD, if_neg (not_le.mpr hmore), hrest, Nat.add_right_comm,
      Nat.add_assoc]

/-- Every table that the search gets to fits. -/
theorem Fits.reached (hspb : 1 ≤ spb) (hle : spb ≤ 724) (hS : S < 2 ^ 32) (h : Fits S spb 1)
    (hsmall : ∀ j, 1 ≤ j → j < D → 16 * j * spb < groupsWith S j spb) (hD : 1 ≤ D) : Fits S spb D := by
  induction D with
  | zero => omega
  | succ D ih =>
    rcases Nat.eq_zero_or_pos D with hzero | hpos
    · rw [hzero]
      exact h
    · have hprev := ih (fun j hj hlt => hsmall j hj (by omega)) hpos
      exact hprev.next hspb hle hS (not_le.mpr (hsmall D hpos (Nat.lt_succ_self D)))

/-! ## The bound -/

theorem groupsWith_le (S D spb : ℕ) (hspb : 1 ≤ spb) : groupsWith S D spb ≤ maxGroupNumOf S spb := by
  have hdata : sectorSize * spb * 8 * spb ≤ fullWith D spb := by
    rw [fullWith_eq]
    simp only [sectorSize]
    have : 512 * spb * 8 * spb = 4096 * (spb * spb) := by ring
    omega
  have hdiv : S / sectorSize / spb / 8 / spb = S / (sectorSize * spb * 8 * spb) := by
    simp only [Nat.div_div_eq_div_mul, Nat.mul_assoc]
  have hpos : 0 < sectorSize * spb * 8 * spb := by
    simp only [sectorSize]
    positivity
  have hle : S / fullWith D spb ≤ S / (sectorSize * spb * 8 * spb) := Nat.div_le_div_left hdata hpos
  rw [groupsWith, maxGroupNumOf, hdiv]
  split_ifs <;> omega

/-- **The compile-time bound is sufficient.** For every number of sectors and every block size with which
nothing overflows in 32 bits, the search of `calGroupNum` ends with at most `MAX_GROUP_NUM` groups, and their
descriptors fit into the table with which it ended. -/
theorem groupNum_le_maxGroupNum (hS : S < 2 ^ 31) (hspb : 1 ≤ spb)
    (hfits : sectorSize * spb * 8 * spb < 2 ^ 31) :
    ∃ d g : ℕ, StopsAt S spb d g ∧ g ≤ maxGroupNumOf S spb ∧ groupDescSize * g ≤ sectorSize * spb * d := by
  have hle : spb ≤ 724 := by
    by_contra hlarge
    have := Nat.mul_le_mul (show 725 ≤ spb by omega) (show 725 ≤ spb by omega)
    have hmul : sectorSize * spb * 8 * spb = 4096 * (spb * spb) := by
      simp only [sectorSize]
      ring
    omega
  have hN : toUnsigned 4 (S : ℤ) = S := toUnsigned_natCast (by omega)
  obtain ⟨d, hd, hg, hcap, hsmall⟩ := calGroupNumLoop_first hspb le_rfl (@calGroupNum_eq S spb hspb)
  have hfirst : Fits S spb 1 := ⟨le_rfl, by omega, (Nat.mod_le _ _).trans_lt hS⟩
  have hlast : Fits S spb d := hfirst.reached hspb hle (by omega) hsmall hd
  refine ⟨d, calGroupNum S spb, ⟨hd, fun rounds => ?_, ?_⟩, ?_, ?_⟩
  · have hskip := calGroupNumLoop_skip hspb (D := 1) (k := d - 1) le_rfl rounds fun j hj hlt =>
      hsmall j hj (by omega)
    have hd' : 1 + (d - 1) = d := by omega
    rw [hd'] at hskip
    have heq := calGroupNumRounds_eq hspb hle hN (d - 1 + rounds) 1 hfirst
    rw [Nat.cast_one] at heq
    rw [heq, calGroupNumRounds_eq hspb hle hN rounds d hlast, hskip]
  · rw [calGroupNumRounds_eq hspb hle hN 1 d hlast, calGroupNumLoop_succ hspb hd, ← hg, if_pos hcap]
    rfl
  · rw [hg]
    exact groupsWith_le S d spb hspb
  · have hroom : sectorSize * spb * d = 32 * (16 * d * spb) := by
      simp only [sectorSize]
      ring
    rw [hroom]
    exact Nat.mul_le_mul_left 32 hcap

/-- The disk of the build. -/
theorem groupNum_le_maxGroupNum_build :
    ∃ d g : ℕ, StopsAt (8196 : ℕ) (2 : ℕ) d g ∧ g ≤ maxGroupNum ∧ 32 * g ≤ 512 * 2 * d := by
  rw [maxGroupNum_eq]
  exact groupNum_le_maxGroupNum (by norm_num) (by norm_num) (by norm_num)

end SeL4Sys

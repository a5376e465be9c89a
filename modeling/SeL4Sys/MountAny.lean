import SeL4Sys.DiskSectors
import SeL4Sys.GroupCount

/-!
# Mounting any disk

`readGroupHeader` on a disk with anything in its first sectors. `calGroupNum` is called with the numbers
of the super block as they are, so it is modelled here with the arithmetic of the source: `sizeof` makes
the size of a group an `unsigned int`, and the results are stored in variables of type `int`. The loop
may never end, and the division may be by zero. Where nothing overflows it is the search of `Geometry`.
-/

namespace SeL4Sys

open Bytes

/-- `MAX_GROUP_NUM`: the length of `gDesc`. -/
def maxGroupNum : ℕ := 8196 / sectorSize / sectorsPerBlock / 8 / sectorsPerBlock + 1

/-- How far a call of `calGroupNum` has come. -/
inductive CountResult
  | running
  | divideError
  | returned (groupNum : ℤ)
deriving DecidableEq

/-- The tests at the end of a round: `larger` goes on with a larger table, `again` with the same one. -/
def countTests (quotient remainder groupHeaderSectors groupNum : ℤ) (larger again : CountResult) :
    CountResult :=
  if quotient = 0 ∧ remainder < groupHeaderSectors then .returned 0
  else if quotient = 0 ∧ remainder ≥ groupHeaderSectors then .returned 1
  else if quotient ≤ groupNum ∧ remainder < groupHeaderSectors then .returned quotient
  else if quotient < groupNum ∧ remainder ≥ groupHeaderSectors then .returned (quotient + 1)
  else if quotient = groupNum ∧ remainder ≥ groupHeaderSectors then larger
  else if quotient > groupNum then larger
  else again

/-- `calGroupNum` with the given number of rounds. -/
def calGroupNumRounds (sectorNum sectorsPerBlock : ℤ) : ℕ → ℤ → CountResult
  | 0, _ => .running
  | rounds + 1, groupDescBlocks =>
    let groupSectors := toUnsigned 4 (superBlockSize / sectorSize + groupDescBlocks * sectorsPerBlock
      + (1 + 1 + inodeSize * 8) * sectorsPerBlock
      + sectorSize * sectorsPerBlock * 8 * sectorsPerBlock)
    if groupSectors = 0 then .divideError
    else
      countTests (asInt (toUnsigned 4 sectorNum / groupSectors : ℕ))
        (asInt (toUnsigned 4 sectorNum % groupSectors : ℕ))
        (asInt (superBlockSize / sectorSize + (groupDescBlocks + 1 + 1) * sectorsPerBlock))
        (asInt (sectorSize / groupDescSize * groupDescBlocks * sectorsPerBlock))
        (calGroupNumRounds sectorNum sectorsPerBlock rounds (asInt (groupDescBlocks + 1)))
        (calGroupNumRounds sectorNum sectorsPerBlock rounds groupDescBlocks)

/-- How far a call of `readGroupHeader` has come: the return value and the number of descriptors that were
stored in `gDesc`. -/
inductive MountResult
  | running
  | divideError
  | returned (value : ℤ) (descNum : ℕ)
deriving DecidableEq

/-- `sectorNum` of the super block on the disk. -/
def diskSectorNum (d : Disk) : ℤ := leInt (readDisk d (fun _ => 0) superBlockSize 1 0) 0 4

/-- `blockSize / SECTOR_SIZE` of the super block on the disk. -/
def diskSectorsPerBlock (d : Disk) : ℤ :=
  (leInt (readDisk d (fun _ => 0) superBlockSize 1 0) 20 4).tdiv sectorSize

/-- `readGroupHeader` with the given number of rounds for `calGroupNum`. A negative number of descriptors
ends the loop of `read_disk` at once. -/
def readGroupHeaderRounds (d : Disk) (rounds : ℕ) : MountResult :=
  match calGroupNumRounds (diskSectorNum d) (diskSectorsPerBlock d) rounds 1 with
  | .running => .running
  | .divideError => .divideError
  | .returned groupNum => if groupNum = 0 then .returned (-1) 0 else .returned 0 groupNum.toNat

/-- The mount ends, with -1 or with descriptors that fit into `gDesc`. -/
def MountsSafely (d : Disk) : Prop :=
  ∃ rounds value descNum, readGroupHeaderRounds d rounds = .returned value descNum
    ∧ (value = -1 ∨ descNum ≤ maxGroupNum)

/-- The search ends with at most `MAX_GROUP_NUM` groups. -/
theorem mountsSafely_iff (d : Disk) : MountsSafely d ↔
    ∃ rounds groupNum, calGroupNumRounds (diskSectorNum d) (diskSectorsPerBlock d) rounds 1
      = .returned groupNum ∧ groupNum ≤ 1 := by
  have hmax : maxGroupNum = 1 := by norm_num [maxGroupNum]
  rw [MountsSafely, hmax]
  simp only [readGroupHeaderRounds]
  refine exists_congr fun rounds => ?_
  cases calGroupNumRounds (diskSectorNum d) (diskSectorsPerBlock d) rounds 1 with
  | running => simp
  | divideError => simp
  | returned groupNum =>
    by_cases hzero : groupNum = 0
    · simp [hzero]
    · simp only [hzero, if_false, MountResult.returned.injEq, CountResult.returned.injEq]
      constructor
      · rintro ⟨value, descNum, ⟨rfl, rfl⟩, hsafe⟩
        exact ⟨groupNum, rfl, by omega⟩
      · rintro ⟨g, rfl, hle⟩
        exact ⟨0, groupNum.toNat, ⟨rfl, rfl⟩, Or.inr (by omega)⟩

/-! ## Values that fit -/

theorem toUnsigned_natCast {x : ℕ} (hx : x < 2 ^ 32) : toUnsigned 4 (x : ℤ) = x := by
  rw [toUnsigned]
  omega

variable {sectorNum : ℤ} {spb D : ℕ}

/-- Without negative values the tests count another group if the rest has room for a header, and go on if
the table is too small for the groups. -/
theorem countTests_natCast {q r H n : ℕ} (hn : 1 ≤ n) {larger again : CountResult} :
    countTests q r H n larger again
      = if q + (if H ≤ r then 1 else 0) ≤ n then .returned (q + if H ≤ r then 1 else 0 : ℕ) else larger := by
  rw [countTests]
  by_cases hr : H ≤ r
  · simp only [hr, Nat.cast_le, Nat.cast_lt, not_lt.mpr hr, and_false, and_true, if_false, if_true, ge_iff_le]
    by_cases hq : q = 0
    · subst hq
      rw [if_pos (by omega), if_pos (by omega)]
      rfl
    · rw [if_neg (by omega)]
      split_ifs <;> first | omega | rfl
  · simp only [hr, Nat.cast_le, Nat.cast_lt, not_le.mp hr, and_false, and_true, if_false, ge_iff_le,
      Nat.add_zero]
    by_cases hq : q = 0
    · subst hq
      rw [if_pos (by omega), if_pos (by omega)]
      rfl
    · rw [if_neg (by omega)]
      split_ifs <;> first | omega | rfl

/-- The result of the search of `Geometry`. -/
def CountResult.ofOption : Option ℕ → CountResult
  | none => .running
  | some groupNum => .returned groupNum

/-- A table of `D` blocks with which no value of a round overflows. -/
structure Fits (N spb D : ℕ) : Prop where
  descBlocks : 1 ≤ D
  table : D * spb < 2 ^ 20
  remainder : N % fullWith D spb < 2 ^ 31

theorem fullWith_eq (D spb : ℕ) : fullWith D spb = 2 + D * spb + 1026 * spb + 4096 * (spb * spb) := by
  rw [fullWith, groupHeaderSectors, groupBodySectors]
  simp only [superBlockSize, sectorSize, inodeSize]
  ring

theorem groupHeaderSectors_eq (D spb : ℕ) : groupHeaderSectors D spb = 2 + D * spb + 2 * spb := by
  rw [groupHeaderSectors]
  simp only [superBlockSize, sectorSize]
  ring

section
variable {N : ℕ} (hspb : 1 ≤ spb) (hle : spb ≤ 724)
include hle

theorem fullWith_lt (htable : D * spb < 2 ^ 20) : fullWith D spb < 2 ^ 32 := by
  have hsq : spb * spb ≤ 724 * 724 := Nat.mul_le_mul hle hle
  rw [fullWith_eq]
  omega

include hspb

/-- Another round is made only if the disk is so large beside the table that the values of the next round
still fit. -/
theorem Fits.next (h : Fits N spb D) (hN : N < 2 ^ 32) (hmore : ¬ groupsWith N D spb ≤ 16 * D * spb) :
    Fits N spb (D + 1) := by
  have hroom := lt_groupsWith_iff.mp (Nat.lt_of_not_le hmore)
  have hpos : 1 ≤ D * spb := Nat.mul_le_mul h.descBlocks hspb
  have hfull := fullWith_eq D spb
  have hsq : 1 ≤ spb * spb := Nat.mul_le_mul hspb hspb
  have hnext : (D + 1) * spb = D * spb + spb := Nat.succ_mul D spb
  -- with `16 * D * spb` groups on the disk both the size of a group and the table are small
  have hgroup : fullWith D spb ≤ D * spb * fullWith D spb := Nat.le_mul_of_pos_left _ hpos
  have htable : D * spb * 5123 ≤ D * spb * fullWith D spb := Nat.mul_le_mul_left _ (by omega)
  have hmul : 16 * D * spb * fullWith D spb = 16 * (D * spb * fullWith D spb) := by ring
  rw [hmul] at hroom
  have hsize : fullWith (D + 1) spb < 2 ^ 31 := by
    rw [fullWith_eq, hnext]
    omega
  exact ⟨by omega, by omega, (Nat.mod_lt _ (fullWith_pos _ _)).trans hsize⟩

theorem calGroupNumRounds_eq (hN : toUnsigned 4 sectorNum = N) (rounds : ℕ) : ∀ D, Fits N spb D →
    calGroupNumRounds sectorNum spb rounds D = .ofOption (calGroupNumLoop N spb rounds D) := by
  induction rounds with
  | zero => exact fun D _ => rfl
  | succ rounds ih =>
    intro D hfits
    have hlt : N < 2 ^ 32 := hN ▸ toUnsigned_lt 4 sectorNum
    have htable := hfits.table
    have hdesc : D < 2 ^ 20 := (Nat.le_mul_of_pos_right D hspb).trans_lt htable
    have hnext : asInt ((D : ℤ) + 1) = ((D + 1 : ℕ) : ℤ) :=
      asInt_natCast (n := D + 1) (Nat.lt_of_le_of_lt hdesc (by norm_num))
    have hsize : ((superBlockSize : ℤ) / sectorSize + D * spb + (1 + 1 + inodeSize * 8) * spb
        + sectorSize * spb * 8 * spb) = (fullWith D spb : ℕ) := by
      rw [fullWith_eq]
      simp only [superBlockSize, sectorSize, inodeSize]
      push_cast
      ring
    have hheader : ((superBlockSize : ℤ) / sectorSize + ((D : ℤ) + 1 + 1) * spb)
        = (groupHeaderSectors D spb : ℕ) := by
      rw [groupHeaderSectors]
      push_cast
      norm_num
    have hheaderLt : groupHeaderSectors D spb < 2 ^ 31 := by
      rw [groupHeaderSectors_eq]
      omega
    have hcap : ((sectorSize : ℤ) / groupDescSize * D * spb) = (16 * D * spb : ℕ) := by
      push_cast
      norm_num
    have hcapLt : 16 * D * spb < 2 ^ 31 := by
      have : 16 * D * spb = 16 * (D * spb) := by ring
      omega
    have hquotient : N / fullWith D spb < 2 ^ 31 := by
      have := fullWith_eq D spb
      refine Nat.div_lt_of_lt_mul ?_
      omega
    have hroom : 1 ≤ 16 * D * spb := by
      have := Nat.mul_le_mul hfits.descBlocks hspb
      have : 16 * D * spb = 16 * (D * spb) := by ring
      omega
    rw [calGroupNumRounds, hN, hsize, hheader, hcap, toUnsigned_natCast (fullWith_lt hle htable),
      asInt_natCast hquotient, asInt_natCast hfits.remainder, asInt_natCast hheaderLt,
      asInt_natCast hcapLt, hnext, if_neg (fullWith_pos D spb).ne',
      calGroupNumLoop_succ hspb hfits.descBlocks]
    have hgroups : groupsWith N D spb = N / fullWith D spb
        + if groupHeaderSectors D spb ≤ N % fullWith D spb then 1 else 0 := rfl
    rw [countTests_natCast hroom, ← hgroups]
    by_cases hmore : groupsWith N D spb ≤ 16 * D * spb
    · rw [if_pos hmore, if_pos hmore, CountResult.ofOption]
    · rw [if_neg hmore, if_neg hmore, ih (D + 1) (hfits.next hspb hle hlt hmore)]
end

/-- With at most one group the first table is the last one. -/
theorem calGroupNumLoop_le_one_iff {N rounds g : ℕ} (hspb : 1 ≤ spb)
    (h : calGroupNumLoop N spb rounds 1 = some g) :
    g ≤ 1 ↔ N < fullWith 1 spb + groupHeaderSectors 1 spb := by
  obtain ⟨D, hD, hg, hcap, hsmall⟩ := calGroupNumLoop_first hspb le_rfl h
  have hfirst : groupsWith N 1 spb ≤ 1 ↔ N < fullWith 1 spb + groupHeaderSectors 1 spb := by
    have := @lt_groupsWith_iff N spb 1 1
    omega
  rw [← hfirst, hg]
  rcases Nat.eq_or_lt_of_le hD with heq | hlt
  · rw [← heq]
  · -- an earlier table was too small for more than 16 groups, and the last one is hardly larger
    have hone := hsmall 1 le_rfl hlt
    have hprev := lt_groupsWith_iff.mp (hsmall (D - 1) (by omega) (by omega))
    have hlast : 1 < groupsWith N D spb := by
      obtain ⟨E, rfl⟩ : ∃ E, D = E + 1 := ⟨D - 1, by omega⟩
      rw [Nat.add_sub_cancel] at hprev
      refine lt_groupsWith_iff.mpr (le_trans ?_ hprev)
      have hE : 1 ≤ E * spb := Nat.mul_pos (by omega) hspb
      have hmul : 16 * E * spb * fullWith E spb = 16 * (E * spb * fullWith E spb) := by ring
      have hgroup : fullWith E spb ≤ E * spb * fullWith E spb := Nat.le_mul_of_pos_left _ hE
      have hnext : (E + 1) * spb = E * spb + spb := Nat.succ_mul E spb
      rw [hmul, groupHeaderSectors_eq, groupHeaderSectors_eq, hnext, fullWith_eq (E + 1), hnext]
      have := fullWith_eq E spb
      omega
    have h16 : 1 ≤ 1 * spb := by omega
    omega

/-! ## When a mount is safe -/

/-- The sectors of a full group as the first round computes them. -/
def firstGroupSectors (spb : ℤ) : ℕ := toUnsigned 4 (2 + spb + 1026 * spb + 4096 * (spb * spb))

/-- On a disk that is smaller than a full group the first round returns. -/
theorem calGroupNumRounds_small {spb : ℤ} (hsmall : toUnsigned 4 sectorNum < firstGroupSectors spb) :
    ∃ groupNum, calGroupNumRounds sectorNum spb 1 1 = .returned groupNum ∧ groupNum ≤ 1 := by
  have hsize : ((superBlockSize : ℤ) / sectorSize + 1 * spb + (1 + 1 + inodeSize * 8) * spb
      + sectorSize * spb * 8 * spb) = 2 + spb + 1026 * spb + 4096 * (spb * spb) := by
    simp only [superBlockSize, sectorSize, inodeSize]
    push_cast
    ring
  rw [calGroupNumRounds, hsize, ← firstGroupSectors, if_neg (by omega), Nat.div_eq_of_lt hsmall, countTests]
  have hzero : asInt ((0 : ℕ) : ℤ) = 0 := rfl
  simp only [hzero, true_and]
  rcases lt_or_ge (asInt (toUnsigned 4 sectorNum % firstGroupSectors spb : ℕ))
    (asInt ((superBlockSize : ℤ) / sectorSize + (1 + 1 + 1) * spb)) with hrest | hrest
  · exact ⟨0, if_pos hrest, by omega⟩
  · exact ⟨1, by rw [if_neg (not_lt.mpr hrest), if_pos hrest], by omega⟩

/-- With blocks of less than a sector the table never grows, and the search goes on for ever. -/
theorem calGroupNumRounds_zero (hlarge : 2 ≤ toUnsigned 4 sectorNum) (rounds : ℕ) : ∀ D : ℤ,
    calGroupNumRounds sectorNum 0 rounds D = .running := by
  induction rounds with
  | zero => exact fun D => rfl
  | succ rounds ih =>
    intro D
    have hlt := toUnsigned_lt 4 sectorNum
    have hsize : toUnsigned 4 ((superBlockSize : ℤ) / sectorSize + D * 0 + (1 + 1 + inodeSize * 8) * 0
        + sectorSize * 0 * 8 * 0) = 2 := by
      simp only [Int.mul_zero, Int.zero_mul, Int.add_zero]
      decide
    have hcap : asInt ((sectorSize : ℤ) / groupDescSize * D * 0) = 0 := by
      rw [Int.mul_zero]
      rfl
    rw [calGroupNumRounds, hsize, hcap, ih, ih, asInt_natCast (by omega), countTests]
    split_ifs <;> first | omega | rfl

theorem firstGroupSectors_natCast (hle : spb ≤ 724) : firstGroupSectors spb = fullWith 1 spb := by
  have hcast : (2 + (spb : ℤ) + 1026 * spb + 4096 * (spb * spb)) = (fullWith 1 spb : ℕ) := by
    rw [fullWith_eq]
    push_cast
    ring
  rw [firstGroupSectors, hcast, toUnsigned_natCast (fullWith_lt hle (by omega))]

/-- The first round fits on every disk that has at least one whole group. -/
theorem Fits.first {N : ℕ} (hN : N < 2 ^ 32) (hle : spb ≤ 724) (hge : fullWith 1 spb ≤ N) : Fits N spb 1 := by
  refine ⟨le_rfl, by omega, ?_⟩
  have hmod := Nat.mod_lt N (fullWith_pos 1 spb)
  have hdiv := Nat.div_add_mod N (fullWith 1 spb)
  have hq : 1 ≤ N / fullWith 1 spb := Nat.div_pos hge (fullWith_pos 1 spb)
  have := Nat.le_mul_of_pos_right (fullWith 1 spb) hq
  omega

section
variable {d : Disk}

theorem mountsSafely_of_lt
    (hlt : toUnsigned 4 (diskSectorNum d) < firstGroupSectors (diskSectorsPerBlock d)) : MountsSafely d := by
  rw [mountsSafely_iff]
  exact ⟨1, calGroupNumRounds_small hlt⟩

/-- Blocks of less than a sector. -/
theorem mountsSafely_zero_iff (hspb : diskSectorsPerBlock d = 0) :
    MountsSafely d ↔ toUnsigned 4 (diskSectorNum d) < 2 := by
  constructor
  · intro hsafe
    by_contra hlarge
    obtain ⟨rounds, groupNum, hret, -⟩ := (mountsSafely_iff d).mp hsafe
    rw [hspb, calGroupNumRounds_zero (by omega)] at hret
    cases hret
  · intro hlt
    refine mountsSafely_of_lt ?_
    rw [hspb]
    exact hlt

/-- On a disk with a whole group the search is the one over natural numbers, which ends. -/
theorem mountsSafely_fits_iff (hpos : 1 ≤ spb) (hle : spb ≤ 724) (hspb : diskSectorsPerBlock d = spb)
    (hge : fullWith 1 spb ≤ toUnsigned 4 (diskSectorNum d)) :
    MountsSafely d ↔ toUnsigned 4 (diskSectorNum d) < fullWith 1 spb + groupHeaderSectors 1 spb := by
  have hfits := Fits.first (toUnsigned_lt 4 (diskSectorNum d)) hle hge
  have hrounds := fun rounds => calGroupNumRounds_eq hpos hle rfl rounds 1 hfits
  rw [Nat.cast_one] at hrounds
  rw [mountsSafely_iff, hspb]
  constructor
  · rintro ⟨rounds, groupNum, hret, hone⟩
    rw [hrounds] at hret
    cases hloop : calGroupNumLoop (toUnsigned 4 (diskSectorNum d)) spb rounds 1 with
    | none =>
      rw [hloop] at hret
      cases hret
    | some g =>
      rw [hloop] at hret
      cases hret
      exact (calGroupNumLoop_le_one_iff hpos hloop).mp (by omega)
  · intro hroom
    have hloop := @calGroupNum_eq (toUnsigned 4 (diskSectorNum d)) spb hpos
    refine ⟨_, _, (hrounds _).trans (congrArg _ hloop), ?_⟩
    have := (calGroupNumLoop_le_one_iff hpos hloop).mpr hroom
    exact_mod_cast this
end

/-- **When mounting is safe.** Whatever is on the disk, the mount is safe if the disk is smaller than the
size of a group that the first round computes. For every `blockSize` for which the product of the source
does not overflow, up to 724 sectors, it is safe exactly if the disk has less than two sectors (blocks of
less than a sector, with which the search does not end on any other disk) or no room for the header of a
second group. -/
theorem mountsSafely_of_super (d : Disk) :
    (toUnsigned 4 (diskSectorNum d) < firstGroupSectors (diskSectorsPerBlock d) → MountsSafely d)
      ∧ ∀ spb : ℕ, diskSectorsPerBlock d = spb → spb ≤ 724 →
        (MountsSafely d ↔ toUnsigned 4 (diskSectorNum d)
          < if spb = 0 then 2 else fullWith 1 spb + groupHeaderSectors 1 spb) := by
  refine ⟨mountsSafely_of_lt, fun spb hspb hle => ?_⟩
  by_cases hzero : spb = 0
  · rw [if_pos hzero]
    refine mountsSafely_zero_iff ?_
    rw [hspb, hzero, Nat.cast_zero]
  · rw [if_neg hzero]
    rcases Nat.lt_or_ge (toUnsigned 4 (diskSectorNum d)) (fullWith 1 spb) with hlt | hge
    · have hfirst : firstGroupSectors (diskSectorsPerBlock d) = fullWith 1 spb := by
        rw [hspb, firstGroupSectors_natCast hle]
      exact iff_of_true (mountsSafely_of_lt (hfirst ▸ hlt)) (by omega)
    · exact mountsSafely_fits_iff (by omega) hle hspb hge

/-- A disk of zeros with the given first words of the super block. -/
def superDisk (sectorNum blockSize : ℕ) : Disk :=
  fun p => if p < 4 then leByte sectorNum p else if 20 ≤ p ∧ p < 24 then leByte blockSize (p - 20) else 0

section
variable {n b : ℕ}

theorem diskWord_eq {d : Disk} {off v : ℕ} (hoff : off + 4 ≤ 1024) (hv : v < 2 ^ 31)
    (hbytes : ∀ j, j < 4 → d (off + j) = leByte v j) :
    leInt (readDisk d (fun _ => 0) superBlockSize 1 0) off 4 = v := by
  refine leInt_of_bytes ⟨by omega, by omega⟩ fun j hj => ?_
  rw [readDisk_eq, patch_zero_apply (by simp only [superBlockSize]; omega), window_apply, Nat.zero_add,
    hbytes j hj, toUnsigned_natCast (by omega)]

theorem diskSectorNum_superDisk (hn : n < 2 ^ 31) : diskSectorNum (superDisk n b) = n := by
  refine diskWord_eq (by omega) hn fun j hj => ?_
  rw [Nat.zero_add, superDisk, if_pos hj]

theorem diskSectorsPerBlock_superDisk (hb : b < 2 ^ 31) :
    diskSectorsPerBlock (superDisk n b) = (b / 512 : ℕ) := by
  rw [diskSectorsPerBlock, diskWord_eq (v := b) (by omega) hb]
  · exact Int.ofNat_tdiv b 512
  · intro j hj
    rw [superDisk, if_neg (by omega), if_pos (by omega), Nat.add_sub_cancel_left]
end

/-- The disk of the build. -/
theorem mountsSafely_of_super_build : MountsSafely (superDisk 8196 1024) := by
  refine ((mountsSafely_of_super (superDisk 8196 1024)).2 2
    (diskSectorsPerBlock_superDisk (by norm_num)) (by norm_num)).mpr ?_
  rw [diskSectorNum_superDisk (by norm_num)]
  decide

/-- Blocks of less than a sector: the search never ends. Two groups: two descriptors are read into the
array for one. -/
theorem mount_not_safe :
    (∀ rounds, readGroupHeaderRounds (superDisk 8196 0) rounds = .running)
      ∧ readGroupHeaderRounds (superDisk 30000 1024) 1 = .returned 0 2 ∧ maxGroupNum = 1
      ∧ ¬ MountsSafely (superDisk 8196 0) := by
  have hzero : ∀ rounds, readGroupHeaderRounds (superDisk 8196 0) rounds = .running := by
    intro rounds
    rw [readGroupHeaderRounds, diskSectorNum_superDisk (by norm_num),
      diskSectorsPerBlock_superDisk (by norm_num), Nat.zero_div, Nat.cast_zero,
      calGroupNumRounds_zero (by decide)]
  refine ⟨hzero, ?_, by decide, ?_⟩
  · rw [readGroupHeaderRounds, diskSectorNum_superDisk (by norm_num),
      diskSectorsPerBlock_superDisk (by norm_num)]
    decide
  · rintro ⟨rounds, value, descNum, hret, -⟩
    rw [hzero] at hret
    cases hret

end SeL4Sys

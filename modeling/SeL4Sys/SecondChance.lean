import SeL4Sys.Lib.Clock
import SeL4Sys.VmSystem

/-!
# The second chance search

The second loop of `page_replace` is a clock: its hand is `replacer`, the VFrames in memory take
part, and a VFrame has a credit for each of `accessed` and `dirty` that is 2. The search ends
within three turns of the list and changes nothing but these two fields and `replacer`.
-/

namespace SeL4Sys

open Clock Function

namespace Proc

/-- A process that differs from `P` in the ages of its VFrames and in `replacer` only. -/
structure Aged (P P' : Proc) : Prop where
  vframes : P'.vframes = P.vframes
  pframesUsed : P'.pframesUsed = P.pframesUsed
  heapTop : P'.heapTop = P.heapTop
  vspace : P'.vspace = P.vspace
  frame : P'.frame = P.frame
  frameNum : P'.frameNum = P.frameNum
  reserve : ∀ i, (P'.vframe i).reserve = (P.vframe i).reserve
  inRAM : ∀ i, (P'.vframe i).inRAM = (P.vframe i).inRAM
  pagefile : ∀ i, (P'.vframe i).pagefile = (P.vframe i).pagefile

variable {P P' P'' : Proc} {r v fuel : ℕ}

theorem Aged.refl (P : Proc) : P.Aged P :=
  ⟨rfl, rfl, rfl, rfl, rfl, rfl, fun _ => rfl, fun _ => rfl, fun _ => rfl⟩

theorem Aged.trans (h : P.Aged P') (h' : P'.Aged P'') : P.Aged P'' where
  vframes := h'.vframes.trans h.vframes
  pframesUsed := h'.pframesUsed.trans h.pframesUsed
  heapTop := h'.heapTop.trans h.heapTop
  vspace := h'.vspace.trans h.vspace
  frame := h'.frame.trans h.frame
  frameNum := h'.frameNum.trans h.frameNum
  reserve i := (h'.reserve i).trans (h.reserve i)
  inRAM i := (h'.inRAM i).trans (h.inRAM i)
  pagefile i := (h'.pagefile i).trans (h.pagefile i)

/-! ## The circle of VFrames -/

/-- The VFrame that is `j` steps after `r` on a circle of `n`. -/
def turn (n r j : ℕ) : ℕ := if j ≤ r then r - j else r + n - j

theorem iterate_nextVframe (hr : r < P.vframes) {j : ℕ} (hj : j ≤ P.vframes) :
    P.nextVframe^[j] r = turn P.vframes r j := by
  induction j with
  | zero => simp [turn]
  | succ j ih =>
    rw [Function.iterate_succ_apply', ih (by omega), nextVframe, turn, turn]
    split_ifs <;> omega

theorem minimalPeriod_nextVframe (hr : r < P.vframes) :
    Function.minimalPeriod P.nextVframe r = P.vframes := by
  have hperiod : Function.IsPeriodicPt P.nextVframe P.vframes r := by
    show P.nextVframe^[P.vframes] r = r
    rw [iterate_nextVframe hr le_rfl, turn]
    split_ifs <;> omega
  have hpos : 0 < P.vframes := by omega
  have hle := hperiod.minimalPeriod_le hpos
  have hmin := hperiod.minimalPeriod_pos hpos
  have hback := Function.isPeriodicPt_minimalPeriod P.nextVframe r
  rw [Function.IsPeriodicPt, Function.IsFixedPt, iterate_nextVframe hr hle, turn] at hback
  split_ifs at hback <;> omega

/-- Every VFrame is on the circle. -/
theorem exists_iterate_nextVframe (hr : r < P.vframes) {i : ℕ} (hi : i < P.vframes) :
    ∃ j, j < P.vframes ∧ P.nextVframe^[j] r = i := by
  by_cases h : i ≤ r
  · refine ⟨r - i, by omega, ?_⟩
    rw [iterate_nextVframe hr (by omega), turn]
    split_ifs <;> omega
  · refine ⟨r + P.vframes - i, by omega, ?_⟩
    rw [iterate_nextVframe hr (by omega), turn]
    split_ifs <;> omega

/-! ## The loop as a clock -/

/-- The credits of a VFrame. -/
def credit (P : Proc) (i : ℕ) : Option ℕ :=
  if (P.vframe i).inRAM then
    some ((if (P.vframe i).dirty = 2 then 1 else 0) + if (P.vframe i).accessed = 2 then 1 else 0)
  else none

/-- The values that the two fields of a VFrame in memory take during the search. -/
def AgesOk (P : Proc) : Prop :=
  ∀ i, (P.vframe i).inRAM = true → (P.vframe i).accessed ≤ 2 ∧ (P.vframe i).dirty ≤ 2

theorem chosen_iff (h : P.AgesOk) : chosen (P.vframe r) = true ↔ P.credit r = some 0 := by
  rw [chosen, credit]
  by_cases hram : (P.vframe r).inRAM = true
  · have ⟨ha, hd⟩ := h r hram
    rw [if_pos hram, hram, Bool.true_and, Bool.and_eq_true, decide_eq_true_eq, decide_eq_true_eq,
      Option.some.injEq]
    by_cases hdirty : (P.vframe r).dirty = 2
    · simp [hdirty]
    · by_cases hacc : (P.vframe r).accessed = 2
      · simp [hacc]
      · simp only [hdirty, hacc, if_false, Nat.add_zero, iff_true]
        omega
  · rw [if_neg hram]
    simp [hram]

@[simp]
theorem nextVframe_pass : (P.pass r).nextVframe = P.nextVframe := rfl

theorem pass_vframe_self : (P.pass r).vframe r = age (P.vframe r) := update_self ..

theorem pass_vframe_of_ne {i : ℕ} (h : i ≠ r) : (P.pass r).vframe i = P.vframe i :=
  update_of_ne h ..

theorem age_inRAM (vf : VFrame) : (age vf).inRAM = vf.inRAM := by
  rw [age]
  split_ifs <;> rfl

theorem aged_pass : P.Aged (P.pass r) where
  vframes := rfl
  pframesUsed := rfl
  heapTop := rfl
  vspace := rfl
  frame := rfl
  frameNum := rfl
  reserve i := by
    by_cases h : i = r
    · rw [h, pass_vframe_self, age]
      split_ifs <;> rfl
    · rw [pass_vframe_of_ne h]
  inRAM i := by
    by_cases h : i = r
    · rw [h, pass_vframe_self, age_inRAM]
    · rw [pass_vframe_of_ne h]
  pagefile i := by
    by_cases h : i = r
    · rw [h, pass_vframe_self, age]
      split_ifs <;> rfl
    · rw [pass_vframe_of_ne h]

theorem AgesOk.pass (h : P.AgesOk) : (P.pass r).AgesOk := by
  intro i hram
  by_cases hir : i = r
  · rw [hir, pass_vframe_self] at hram ⊢
    rw [age_inRAM] at hram
    have := h r hram
    rw [age]
    split_ifs <;> simp_all
  · rw [pass_vframe_of_ne hir] at hram ⊢
    exact h i hram

/-- A pass takes one credit. -/
theorem credit_pass (h : P.AgesOk) (hne : ¬ chosen (P.vframe r) = true) :
    (P.pass r).credit = update P.credit r ((P.credit r).map (· - 1)) := by
  funext i
  by_cases hir : i = r
  · rw [hir, update_self, credit, credit, pass_vframe_self, age_inRAM]
    by_cases hram : (P.vframe r).inRAM = true
    · have ⟨ha, hd⟩ := h r hram
      rw [if_pos hram, if_pos hram, Option.map_some, age, if_pos hram]
      rw [chosen, hram] at hne
      simp only [Bool.true_and, Bool.and_eq_true, decide_eq_true_eq] at hne
      by_cases hdirty : (P.vframe r).dirty = 2
      · simp [hdirty]
      · have hacc : (P.vframe r).accessed = 2 := by omega
        simp [hdirty, hacc]
    · rw [if_neg hram, if_neg hram, Option.map_none]
  · rw [update_of_ne hir, credit, credit, pass_vframe_of_ne hir]

theorem chanceLoop_succ (hr : P.replacer = some r) :
    chanceLoop (fuel + 1) P
      = if chosen (P.vframe r) then some (r, P) else chanceLoop fuel (P.pass r) := by
  rw [chanceLoop, hr, Option.bind_some]

/-- The loop stops where the clock stops. -/
theorem chanceLoop_fst (h : P.AgesOk) (hr : P.replacer = some r) :
    (chanceLoop fuel P).map Prod.fst = (sweep P.nextVframe fuel r P.credit).map Prod.fst := by
  induction fuel generalizing P r with
  | zero => rfl
  | succ fuel ih =>
    rw [chanceLoop_succ hr]
    by_cases hc : chosen (P.vframe r) = true
    · rw [if_pos hc, sweep_of_zero ((chosen_iff h).mp hc)]
      rfl
    · have hne : P.credit r ≠ some 0 := fun h0 => hc ((chosen_iff h).mpr h0)
      rw [if_neg hc, sweep_move hne, ← credit_pass h hc, ← nextVframe_pass (r := r)]
      exact ih h.pass rfl

/-- What the loop leaves: a VFrame in memory, pointed to by `replacer`. -/
theorem chanceLoop_some (hr : P.replacer = some r) (h : chanceLoop fuel P = some (v, P')) :
    P.Aged P' ∧ P'.replacer = some v ∧ chosen (P'.vframe v) = true
      ∧ ∀ i, (P'.vframe i).dirty = 0 ↔ (P.vframe i).dirty = 0 := by
  induction fuel generalizing P r with
  | zero => simp [chanceLoop] at h
  | succ fuel ih =>
    rw [chanceLoop_succ hr] at h
    split_ifs at h with hc
    · have heq := Option.some.inj h
      have hv : r = v := congrArg Prod.fst heq
      have hP : P = P' := congrArg Prod.snd heq
      rw [← hv, ← hP]
      exact ⟨Aged.refl P, hr, hc, fun _ => Iff.rfl⟩
    · have ⟨haged, hrep, hchosen, hdirty⟩ := ih rfl h
      refine ⟨aged_pass.trans haged, hrep, hchosen, ?_⟩
      intro i
      rw [hdirty i]
      by_cases hir : i = r
      · rw [hir, pass_vframe_self, age]
        split_ifs with hram h2
        · simp [h2]
        · rfl
        · rfl
      · rw [pass_vframe_of_ne hir]

/-! ## The search on the status bits -/

theorem aged_refresh : P.Aged P.refresh := by
  have hframe : ∀ vf, (P.refreshFrame vf).reserve = vf.reserve
      ∧ (P.refreshFrame vf).inRAM = vf.inRAM ∧ (P.refreshFrame vf).pagefile = vf.pagefile := by
    intro vf
    rw [refreshFrame]
    split_ifs
    · exact ⟨rfl, rfl, rfl⟩
    · exact ⟨rfl, rfl, rfl⟩
  refine ⟨rfl, rfl, rfl, rfl, rfl, rfl, ?_, ?_, ?_⟩
  all_goals
    intro i
    simp only [refresh]
    split_ifs
  · exact (hframe _).1
  · rfl
  · exact (hframe _).2.1
  · rfl
  · exact (hframe _).2.2
  · rfl

/-- The fields of a VFrame in memory after the first loop. -/
theorem refresh_status {i : ℕ} (hi : i < P.vframes) (hram : (P.vframe i).inRAM = true)
    {res : Reservation} (hres : (P.vframe i).reserve = some res) {f : ℕ} {accessed dirty : Bool}
    (hmap : P.vspace (pageOf res.start) = .mapped f accessed dirty) :
    (P.refresh.vframe i).accessed = 2 * accessed.toNat
      ∧ (P.refresh.vframe i).dirty = 2 * dirty.toNat := by
  have hstatus : getStatusBits P.vspace res.start = (accessed, dirty) := by
    rw [getStatusBits, hmap]
  simp only [refresh, if_pos hi, refreshFrame, if_pos hram, hres, Option.map_some, Option.getD_some,
    hstatus, and_self]

/-- The fields that the search reads: those of the VFrames of the list. -/
def Within (P : Proc) : Prop := ∀ i, (P.vframe i).inRAM = true → i < P.vframes

theorem agesOk_refresh (h : P.Within) : P.refresh.AgesOk := by
  intro i hram
  rw [aged_refresh.inRAM] at hram
  have hi := h i hram
  simp only [refresh, if_pos hi, refreshFrame, if_pos hram]
  refine ⟨?_, ?_⟩
  · exact Nat.mul_le_mul_left 2 (Bool.toNat_le _)
  · exact Nat.mul_le_mul_left 2 (Bool.toNat_le _)

/-- The VFrame that the search ends at is the first one from `replacer` on with the fewest
credits. -/
theorem chanceLoop_victim (hwithin : P.Within) (hr : P.replacer = some r) (hlt : r < P.vframes)
    {j m : ℕ} (hj : j < P.vframes) (hbound : m ≤ 2)
    (hm : P.refresh.credit (turn P.vframes r j) = some m)
    (hmin : ∀ i k, i < P.vframes → P.refresh.credit (turn P.vframes r i) = some k → m ≤ k)
    (hfirst : ∀ i k, i < j → P.refresh.credit (turn P.vframes r i) = some k → m < k)
    (h : chanceLoop (3 * P.vframes) P.refresh = some (v, P')) : v = turn P.vframes r j := by
  have hrep : P.refresh.replacer = some r := hr
  have hnext : P.refresh.nextVframe = P.nextVframe := rfl
  have hslot : ∀ i, i < P.vframes → P.nextVframe^[i] r = turn P.vframes r i :=
    fun i hi => iterate_nextVframe hlt hi.le
  have hfuel : m * P.vframes + j < 3 * P.vframes := by
    have := Nat.mul_le_mul_right P.vframes hbound
    omega
  have ⟨credit', hsweep⟩ : ∃ credit', sweep P.nextVframe (3 * P.vframes) r P.refresh.credit
      = some (P.nextVframe^[j] r, credit') := by
    apply sweep_stops (minimalPeriod_nextVframe hlt) hj _ _ _ hfuel
    · rw [hslot j hj]
      exact hm
    · intro i k hi hk
      rw [hslot i hi] at hk
      exact hmin i k hi hk
    · intro i k hi hk
      rw [hslot i (by omega)] at hk
      exact hfirst i k hi hk
  have hfst : (chanceLoop (3 * P.vframes) P.refresh).map Prod.fst
      = (sweep P.refresh.nextVframe (3 * P.vframes) r P.refresh.credit).map Prod.fst :=
    chanceLoop_fst (agesOk_refresh hwithin) hrep
  rw [h, hnext, hsweep, hslot j hj, Option.map_some, Option.map_some] at hfst
  exact Option.some.inj hfst

/-- With a VFrame in memory the search ends within three turns of the list, at a VFrame in
memory. -/
theorem chanceLoop_refresh (hwithin : P.Within) (hr : P.replacer = some r) (hlt : r < P.vframes)
    (hsome : ∃ i, (P.vframe i).inRAM = true) :
    ∃ v P', chanceLoop (3 * P.vframes) P.refresh = some (v, P') ∧ P.Aged P'
      ∧ P'.replacer = some v ∧ (P.vframe v).inRAM = true
      ∧ ∀ i, (P'.vframe i).dirty = 0 ↔ (P.refresh.vframe i).dirty = 0 := by
  have hages := agesOk_refresh hwithin
  have hrep : P.refresh.replacer = some r := hr
  have hfst : (chanceLoop (3 * P.vframes) P.refresh).map Prod.fst
      = (sweep P.refresh.nextVframe (3 * P.vframes) r P.refresh.credit).map Prod.fst :=
    chanceLoop_fst hages hrep
  have ⟨i, hi⟩ := hsome
  have ⟨j, hj, hiter⟩ := exists_iterate_nextVframe hlt (hwithin i hi)
  have hmem : (P.refresh.credit (P.refresh.nextVframe^[j] r)).isSome := by
    rw [show P.refresh.nextVframe = P.nextVframe from rfl, hiter, credit, aged_refresh.inRAM,
      if_pos hi, Option.isSome_some]
  -- a page has two status bits, so two chances
  have hbound : ∀ i k, P.refresh.credit i = some k → k ≤ 2 := by
    intro i k hk
    rw [credit] at hk
    split_ifs at hk <;> simp only [Option.some.injEq] at hk <;> omega
  have hends : (sweep P.refresh.nextVframe (3 * P.vframes) r P.refresh.credit).isSome :=
    sweep_isSome (minimalPeriod_nextVframe hlt) hbound ⟨j, hj, hmem⟩ le_rfl
  have hsome : ((chanceLoop (3 * P.vframes) P.refresh).map Prod.fst).isSome := by
    rw [hfst, Option.isSome_map]
    exact hends
  rw [Option.isSome_map] at hsome
  have ⟨⟨v, P'⟩, hloop⟩ := Option.isSome_iff_exists.mp hsome
  have ⟨haged, hrep', hchosen, hdirty⟩ := chanceLoop_some hrep hloop
  refine ⟨v, P', hloop, aged_refresh.trans haged, hrep', ?_, hdirty⟩
  rw [chosen, Bool.and_eq_true, Bool.and_eq_true, haged.inRAM, aged_refresh.inRAM] at hchosen
  exact hchosen.1.1

end Proc

end SeL4Sys

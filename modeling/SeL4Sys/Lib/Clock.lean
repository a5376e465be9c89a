import Mathlib.Dynamics.PeriodicPts.Lemmas

/-!
# The clock

A hand goes round a circle of slots. Slots that take part have credits: at a slot with credits
left the hand takes one and moves on, at a slot that takes no part it moves on, and it stops at
the first slot that has none left. `sweep` is this search; it stops at the slot with the fewest
credits, and among those with the same number at the one the hand comes to first.
-/

namespace SeL4Sys.Clock

open Function

variable {ι : Type*} [DecidableEq ι]

/-- The search, with a bound on the number of moves; the credits are those that are left. -/
def sweep (next : ι → ι) : ℕ → ι → (ι → Option ℕ) → Option (ι × (ι → Option ℕ))
  | 0, _, _ => none
  | fuel + 1, hand, credit =>
    match credit hand with
    | none => sweep next fuel (next hand) credit
    | some 0 => some (hand, credit)
    | some (k + 1) => sweep next fuel (next hand) (update credit hand (some k))

/-- How often the hand has been at its `j`-th slot after `t` moves on a circle of `n`. -/
def visits (n j t : ℕ) : ℕ := t / n + if j < t % n then 1 else 0

/-- The credits that are left when the `j`-th slot has paid for `t` moves. -/
def left (n t j : ℕ) (credit : Option ℕ) : Option ℕ := credit.map (· - visits n j t)

section visits
variable {n j t : ℕ}

theorem visits_zero : visits n j 0 = 0 := by simp [visits]

theorem visits_mod : visits n (t % n) t = t / n := by simp [visits]

theorem visits_succ (hj : j < n) :
    visits n j (t + 1) = visits n j t + if t % n = j then 1 else 0 := by
  have hn : 0 < n := by omega
  have hr := Nat.mod_lt t hn
  have hdiv := Nat.div_add_mod t n
  -- one more move either stays in the turn or begins the next one
  by_cases hlast : t % n + 1 = n
  · have hq : t + 1 = n * (t / n + 1) := by
      rw [Nat.mul_add]
      omega
    have hquot : (t + 1) / n = t / n + 1 := by rw [hq, Nat.mul_div_cancel_left _ hn]
    have hrem : (t + 1) % n = 0 := by rw [hq, Nat.mul_mod_right]
    rw [visits, visits, hquot, hrem]
    split_ifs <;> omega
  · have hq : t + 1 = n * (t / n) + (t % n + 1) := by omega
    have hquot : (t + 1) / n = t / n := by
      rw [hq, Nat.mul_add_div hn, Nat.div_eq_of_lt (by omega : t % n + 1 < n), Nat.add_zero]
    have hrem : (t + 1) % n = t % n + 1 := by
      rw [hq, Nat.mul_add_mod, Nat.mod_eq_of_lt (by omega)]
    rw [visits, visits, hquot, hrem]
    split_ifs <;> omega

end visits

section sweep
variable {next : ι → ι} {hand : ι} {credit : ι → Option ℕ} {n : ℕ}

theorem sweep_of_none {fuel : ℕ} (h : credit hand = none) :
    sweep next (fuel + 1) hand credit = sweep next fuel (next hand) credit := by
  simp [sweep, h]

theorem sweep_of_zero {fuel : ℕ} (h : credit hand = some 0) :
    sweep next (fuel + 1) hand credit = some (hand, credit) := by
  simp [sweep, h]

theorem sweep_of_succ {fuel k : ℕ} (h : credit hand = some (k + 1)) :
    sweep next (fuel + 1) hand credit
      = sweep next fuel (next hand) (update credit hand (some k)) := by
  simp [sweep, h]

/-- One move away from a slot that is not out of credits. -/
theorem sweep_move {fuel : ℕ} (h : credit hand ≠ some 0) :
    sweep next (fuel + 1) hand credit
      = sweep next fuel (next hand)
          (update credit hand ((credit hand).map (· - 1))) := by
  match hc : credit hand with
  | none =>
    rw [sweep_of_none hc, Option.map_none, ← hc, update_eq_self]
  | some 0 => exact absurd hc h
  | some (k + 1) => rw [sweep_of_succ hc, Option.map_some, Nat.add_sub_cancel]

/-- What is known after `t` moves: the hand has gone on by `t` slots and each slot of the circle
has paid for the visits. -/
theorem sweep_moves (hn : Function.minimalPeriod next hand = n) (hpos : 0 < n) (t fuel : ℕ)
    (hpaid : ∀ s, s < t → left n s (s % n) (credit (next^[s % n] hand)) ≠ some 0) :
    ∃ credit', sweep next (t + fuel) hand credit = sweep next fuel (next^[t] hand) credit'
      ∧ ∀ j, j < n → credit' (next^[j] hand) = left n t j (credit (next^[j] hand)) := by
  induction t generalizing fuel with
  | zero =>
    refine ⟨credit, by simp, ?_⟩
    intro j _
    simp [left, visits_zero]
  | succ t ih =>
    have hbefore : ∀ s, s < t → left n s (s % n) (credit (next^[s % n] hand)) ≠ some 0 :=
      fun s hs => hpaid s (by omega)
    have ⟨credit', hrun, hleft⟩ := ih (fuel + 1) hbefore
    have hmod : t % n < n := Nat.mod_lt t hpos
    -- after whole turns the hand is where it was
    have hslot : next^[t] hand = next^[t % n] hand := by
      rw [← hn, Function.iterate_mod_minimalPeriod_eq]
    have hne : credit' (next^[t] hand) ≠ some 0 := by
      rw [hslot, hleft _ hmod]
      exact hpaid t (by omega)
    refine ⟨update credit' (next^[t] hand) ((credit' (next^[t] hand)).map (· - 1)), ?_, ?_⟩
    · rw [show t + 1 + fuel = t + (fuel + 1) by omega, hrun, sweep_move hne,
        ← Function.iterate_succ_apply' next t hand]
    · intro j hj
      rw [hslot]
      by_cases hjt : t % n = j
      · rw [hjt, update_self, hleft j hj, left, left, visits_succ hj, if_pos hjt,
          Option.map_map]
        congr 1
      · have hneSlot : next^[j] hand ≠ next^[t % n] hand := by
          intro heq
          have := (Function.iterate_eq_iterate_iff_of_lt_minimalPeriod
            (by rw [hn]; exact hj) (by rw [hn]; exact hmod)).mp heq
          exact hjt this.symm
        rw [update_of_ne hneSlot, hleft j hj, left, left, visits_succ hj, if_neg hjt,
          Nat.add_zero]

/-- The hand stops at the first slot with the fewest credits. -/
theorem sweep_stops (hn : Function.minimalPeriod next hand = n) {j m : ℕ} (hj : j < n)
    (hm : credit (next^[j] hand) = some m)
    (hmin : ∀ i k, i < n → credit (next^[i] hand) = some k → m ≤ k)
    (hfirst : ∀ i k, i < j → credit (next^[i] hand) = some k → m < k)
    {fuel : ℕ} (hfuel : m * n + j < fuel) :
    ∃ credit', sweep next fuel hand credit = some (next^[j] hand, credit') := by
  have hpos : 0 < n := by omega
  have hmod : (m * n + j) % n = j := by
    rw [Nat.mul_comm, Nat.mul_add_mod, Nat.mod_eq_of_lt hj]
  have hdiv : (m * n + j) / n = m := by
    rw [Nat.mul_comm, Nat.mul_add_div hpos, Nat.div_eq_of_lt hj, Nat.add_zero]
  have hpaid : ∀ s, s < m * n + j → left n s (s % n) (credit (next^[s % n] hand)) ≠ some 0 := by
    intro s hs
    match hc : credit (next^[s % n] hand) with
    | none => simp [left]
    | some k =>
      have hlt : s / n < k := by
        have hle : s / n ≤ m := by
          rw [← hdiv]
          exact Nat.div_le_div_right (by omega)
        have hmk := hmin _ k (Nat.mod_lt s hpos) hc
        -- in the last turn the hand has not come to `j` yet
        by_cases hturn : s / n = m
        · have hsj : s % n < j := by
            have := Nat.div_add_mod s n
            rw [hturn, Nat.mul_comm] at this
            omega
          have := hfirst _ k hsj hc
          omega
        · omega
      rw [left, visits_mod, Option.map_some]
      intro h
      have := Option.some.inj h
      omega
  have ⟨credit', hrun, hleft⟩ := sweep_moves hn hpos (m * n + j) (fuel - (m * n + j)) hpaid
  have hslot : next^[m * n + j] hand = next^[j] hand := by
    rw [← hmod, ← hn, Function.iterate_mod_minimalPeriod_eq, hn, hmod]
  have hzero : credit' (next^[j] hand) = some 0 := by
    rw [hleft j hj, hm, left, Option.map_some]
    have : visits n j (m * n + j) = m := by
      have := visits_mod (n := n) (t := m * n + j)
      rwa [hmod, hdiv] at this
    rw [this, Nat.sub_self]
  refine ⟨credit', ?_⟩
  rw [show fuel = m * n + j + (fuel - (m * n + j)) by omega, hrun, hslot,
    show fuel - (m * n + j) = fuel - (m * n + j) - 1 + 1 by omega, sweep_of_zero hzero]

omit [DecidableEq ι] in
/-- A circle on which some slot takes part has a first slot with the fewest credits. -/
theorem exists_first_fewest (h : ∃ j, j < n ∧ (credit (next^[j] hand)).isSome) :
    ∃ j m, j < n ∧ credit (next^[j] hand) = some m
      ∧ (∀ i k, i < n → credit (next^[i] hand) = some k → m ≤ k)
      ∧ ∀ i k, i < j → credit (next^[i] hand) = some k → m < k := by
  classical
  have ⟨j₀, hj₀, hsome⟩ := h
  have ⟨m₀, hm₀⟩ := Option.isSome_iff_exists.mp hsome
  have hex : ∃ m, ∃ j, j < n ∧ credit (next^[j] hand) = some m := ⟨m₀, j₀, hj₀, hm₀⟩
  have hexj := Nat.find_spec hex
  have hspec := Nat.find_spec hexj
  have hmin : ∀ i k, i < n → credit (next^[i] hand) = some k → Nat.find hex ≤ k :=
    fun i k hi hk => Nat.find_min' hex ⟨i, hi, hk⟩
  refine ⟨Nat.find hexj, Nat.find hex, hspec.1, hspec.2, hmin, ?_⟩
  intro i k hi hk
  have hin : i < n := by omega
  apply lt_of_le_of_ne (hmin i k hin hk)
  intro heq
  rw [← heq] at hk
  exact Nat.find_min hexj hi ⟨hin, hk⟩

/-- With at most `b` credits in a slot the search ends within `b + 1` turns. -/
theorem sweep_isSome (hn : Function.minimalPeriod next hand = n) {b : ℕ}
    (hb : ∀ i k, credit i = some k → k ≤ b)
    (h : ∃ j, j < n ∧ (credit (next^[j] hand)).isSome) {fuel : ℕ} (hfuel : (b + 1) * n ≤ fuel) :
    (sweep next fuel hand credit).isSome := by
  have ⟨j, m, hj, hm, hmin, hfirst⟩ := exists_first_fewest h
  have hmb := hb _ _ hm
  have hbound : m * n + j < fuel := by
    have := Nat.mul_le_mul_right n hmb
    rw [Nat.add_mul] at hfuel
    omega
  have ⟨credit', hrun⟩ := sweep_stops hn hj hm hmin hfirst hbound
  rw [hrun, Option.isSome_some]

end sweep

end SeL4Sys.Clock

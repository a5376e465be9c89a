import Mathlib.Data.Set.Defs
import Mathlib.Order.Nat
import Mathlib.Order.RelClasses

/-!
# Fair runs of threads

A system of threads, each with its own step relation, and infinite runs in which some of the threads
are scheduled weakly fairly: such a thread is not held up forever while it could go on.
`FairRun.leadsTo_of_rank` is the rule for progress: in every state before the goal there is a helpful
thread, its steps bring the goal nearer, and those of the others do not take it away.
-/

namespace SeL4Sys.Fair

variable {σ τ : Type*} {step : τ → σ → σ → Prop} {fair : Set τ} {run : ℕ → σ}

/-- A run, in which nothing may happen for a while, fair to the threads in `fair`. -/
structure FairRun (step : τ → σ → σ → Prop) (fair : Set τ) (run : ℕ → σ) : Prop where
  next : ∀ n, run (n + 1) = run n ∨ ∃ t, step t (run n) (run (n + 1))
  weak : ∀ t ∈ fair, ∀ n, ∃ m, n ≤ m ∧
    ((∀ s', ¬ step t (run m) s') ∨ step t (run m) (run (m + 1)))

/-- Whenever `P` holds in a run, `Q` holds then or later. -/
def LeadsTo (run : ℕ → σ) (P Q : σ → Prop) : Prop :=
  ∀ n, P (run n) → ∃ m, n ≤ m ∧ Q (run m)

theorem LeadsTo.trans {P Q R : σ → Prop} (h : LeadsTo run P Q) (h' : LeadsTo run Q R) :
    LeadsTo run P R := by
  intro n hP
  have ⟨m, hm, hQ⟩ := h n hP
  have ⟨l, hl, hR⟩ := h' m hQ
  exact ⟨l, hm.trans hl, hR⟩

/-- What holds at the start and is kept by every step holds along the run. -/
theorem FairRun.invariant {I : σ → Prop} (hrun : FairRun step fair run) (hstart : I (run 0))
    (hstep : ∀ t s s', I s → step t s s' → I s') (n : ℕ) : I (run n) := by
  induction n with
  | zero => exact hstart
  | succ n ih =>
    rcases hrun.next n with heq | ⟨t, ht⟩
    · rwa [heq]
    · exact hstep t _ _ ih ht

/-- Until something is reached, what every step keeps or leaves for it is kept. -/
theorem FairRun.until {P Q : σ → Prop} (hrun : FairRun step fair run)
    (hstep : ∀ t s s', P s → step t s s' → P s' ∨ Q s') {n : ℕ} (hP : P (run n)) (d : ℕ) :
    P (run (n + d)) ∨ ∃ m, n ≤ m ∧ Q (run m) := by
  induction d with
  | zero => exact Or.inl hP
  | succ d ih =>
    rcases ih with hP' | hQ
    · rcases hrun.next (n + d) with heq | ⟨t, ht⟩
      · left
        rwa [← Nat.add_assoc, heq]
      · rcases hstep t _ _ hP' ht with hP'' | hQ
        · exact Or.inl hP''
        · exact Or.inr ⟨n + d + 1, by omega, hQ⟩
    · exact Or.inr hQ

/-- Progress by rank. The helpful thread of a state can go on, lowers the rank when it does, and stays
the helpful one while others take steps that do not. -/
theorem FairRun.leadsTo_of_rank {P Q : σ → Prop} (hrun : FairRun step fair run) (rank : σ → ℕ)
    (helper : σ → τ) (hfair : ∀ s, P s → helper s ∈ fair)
    (henabled : ∀ s, P s → ∃ s', step (helper s) s s')
    (hstep : ∀ t s s', P s → step t s s' → Q s' ∨ P s'
      ∧ (rank s' < rank s ∨ rank s' = rank s ∧ helper s' = helper s ∧ t ≠ helper s)) :
    LeadsTo run P Q := by
  intro n hP
  generalize hr : rank (run n) = r
  induction r using Nat.strongRecOn generalizing n with
  | _ r ih =>
    -- either the goal or a lower rank is reached, or the helpful thread stays the same
    have hkeep : ∀ t s s', (P s ∧ rank s = r ∧ helper s = helper (run n)) → step t s s' →
        (P s' ∧ rank s' = r ∧ helper s' = helper (run n)) ∨ (Q s' ∨ P s' ∧ rank s' < r) := by
      rintro t s s' ⟨hs, hrank, hhelp⟩ ht
      rcases hstep t s s' hs ht with hQ | ⟨hP', hlt | ⟨heq, hsame, _⟩⟩
      · exact Or.inr (Or.inl hQ)
      · exact Or.inr (Or.inr ⟨hP', by omega⟩)
      · exact Or.inl ⟨hP', heq.trans hrank, hsame.trans hhelp⟩
    have ⟨m, hm, hturn⟩ := hrun.weak _ (hfair _ hP) n
    have hreached : ∃ l, n ≤ l ∧ (Q (run l) ∨ P (run l) ∧ rank (run l) < r) := by
      rcases hrun.until hkeep ⟨hP, hr, rfl⟩ (m - n) with ⟨hPm, hrank, hhelp⟩ | hdone
      · rw [Nat.add_sub_cancel' hm] at hPm hrank hhelp
        have ⟨s', hs'⟩ := henabled _ hPm
        rw [hhelp] at hs'
        rcases hturn with hstuck | htaken
        · exact absurd hs' (hstuck s')
        · rcases hstep _ _ _ hPm htaken with hQ | ⟨hP', hlt | ⟨_, _, hne⟩⟩
          · exact ⟨m + 1, by omega, Or.inl hQ⟩
          · exact ⟨m + 1, by omega, Or.inr ⟨hP', by omega⟩⟩
          · exact absurd hhelp.symm hne
      · exact hdone
    have ⟨l, hl, hcase⟩ := hreached
    rcases hcase with hQ | ⟨hP', hlt⟩
    · exact ⟨l, hl, hQ⟩
    · have ⟨k, hk, hQ⟩ := ih _ hlt l hP' rfl
      exact ⟨k, hl.trans hk, hQ⟩

end SeL4Sys.Fair

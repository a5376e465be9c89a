import Mathlib.Data.List.Range

/-!
# Counting loops that break

`breakIndex n p` is the value of `i` after `for (i = 0; i < n; i ++) if (p i) break;`:
the first index below `n` at which `p` holds, and `n` when there is none.
-/

namespace SeL4Sys.Loop

/-- Where a loop over `0 .. n - 1` that breaks at the first `i` with `p i` stops. -/
def breakIndex (n : ℕ) (p : ℕ → Bool) : ℕ := (List.range n).findIdx p

section breakIndex
variable {n : ℕ} {p : ℕ → Bool}

theorem breakIndex_le : breakIndex n p ≤ n := by
  have h := (List.range n).findIdx_le_length (p := p)
  rwa [List.length_range] at h

/-- The loop breaks at an index where the test holds. -/
theorem breakIndex_spec (h : breakIndex n p < n) : p (breakIndex n p) = true := by
  have hlen : (List.range n).findIdx p < (List.range n).length := by
    rw [List.length_range]
    exact h
  have hget := List.findIdx_getElem (w := hlen)
  rwa [List.getElem_range] at hget

/-- The test fails at every index the loop has passed. -/
theorem breakIndex_min {i : ℕ} (h : i < breakIndex n p) : p i = false := by
  have hlt : i < (List.range n).findIdx p := h
  have hget := List.not_of_lt_findIdx hlt
  rwa [List.getElem_range] at hget

theorem breakIndex_le_of {i : ℕ} (hp : p i = true) : breakIndex n p ≤ i := by
  by_contra h
  have := breakIndex_min (n := n) (p := p) (i := i) (by omega)
  simp [hp] at this

theorem breakIndex_lt_of {i : ℕ} (hi : i < n) (hp : p i = true) : breakIndex n p < n :=
  lt_of_le_of_lt (breakIndex_le_of hp) hi

theorem breakIndex_eq {i : ℕ} (hi : i < n) (hp : p i = true) (hmin : ∀ j, j < i → p j = false) :
    breakIndex n p = i := by
  have hle := breakIndex_le_of (n := n) hp
  by_contra hne
  have hlt : breakIndex n p < i := by omega
  have hspec := breakIndex_spec (n := n) (p := p) (by omega)
  rw [hmin _ hlt] at hspec
  cases hspec

/-- Without a hit the loop runs to its bound. -/
theorem breakIndex_eq_bound (h : ∀ i, i < n → p i = false) : breakIndex n p = n := by
  by_contra hne
  have hlt : breakIndex n p < n := lt_of_le_of_ne breakIndex_le hne
  have hspec := breakIndex_spec hlt
  rw [h _ hlt] at hspec
  cases hspec

/-- The first round, and the others with their indices shifted. -/
theorem breakIndex_succ :
    breakIndex (n + 1) p = if p 0 then 0 else breakIndex n (fun i => p (i + 1)) + 1 := by
  rw [breakIndex, breakIndex, List.range_succ_eq_map, List.findIdx_cons, List.findIdx_map]
  rw [Bool.cond_eq_ite]
  rfl

theorem breakIndex_congr {q : ℕ → Bool} (h : ∀ i, i < n → p i = q i) :
    breakIndex n p = breakIndex n q := by
  by_cases hlt : breakIndex n q < n
  · apply breakIndex_eq hlt
    · rw [h _ hlt]
      exact breakIndex_spec hlt
    · intro j hj
      rw [h j (by omega)]
      exact breakIndex_min hj
  · have hq : breakIndex n q = n := le_antisymm breakIndex_le (by omega)
    rw [hq]
    apply breakIndex_eq_bound
    intro i hi
    rw [h i hi]
    exact breakIndex_min (n := n) (by omega)

/-- The bound of a loop that ends at `m` does not matter behind `m`. -/
theorem breakIndex_min_bound {m : ℕ} (hp : p m = true) : breakIndex (min (m + 1) n) p = breakIndex n p := by
  rcases le_or_gt n m with hle | hlt
  · rw [min_eq_right (by omega)]
  · rw [min_eq_left (by omega)]
    exact breakIndex_eq (Nat.lt_succ_of_le (breakIndex_le_of hp)) (breakIndex_spec (breakIndex_lt_of hlt hp))
      fun j hj => breakIndex_min hj

end breakIndex

end SeL4Sys.Loop

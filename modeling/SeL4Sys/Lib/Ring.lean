import Mathlib.Data.Nat.ModEq
import Mathlib.Data.List.Range
import Mathlib.Logic.Function.Basic

/-!
# A queue in a ring of cells

The cells from `head` up to `tail`, counted round a ring of `n` cells, hold a list. Equal ends mean the
empty list, so at most `n - 1` cells are in use.
-/

namespace SeL4Sys.Ring

open Function

variable {α : Type} {n head tail : ℕ} {cells : ℕ → α}

/-- How many cells are in use. -/
def count (n head tail : ℕ) : ℕ := (tail + n - head) % n

/-- The list that is queued. -/
def queue (n : ℕ) (cells : ℕ → α) (head tail : ℕ) : List α :=
  (List.range (count n head tail)).map fun i => cells ((head + i) % n)

theorem count_eq (hh : head < n) (ht : tail < n) :
    count n head tail = if head ≤ tail then tail - head else tail + n - head := by
  rw [count]
  split_ifs with hle
  · rw [show tail + n - head = tail - head + n by omega, Nat.add_mod_right, Nat.mod_eq_of_lt (by omega)]
  · exact Nat.mod_eq_of_lt (by omega)

theorem next_eq (ht : tail < n) : (tail + 1) % n = if tail + 1 = n then 0 else tail + 1 := by
  split_ifs with hwrap
  · rw [hwrap, Nat.mod_self]
  · exact Nat.mod_eq_of_lt (by omega)

theorem length_queue : (queue n cells head tail).length = count n head tail := by
  rw [queue, List.length_map, List.length_range]

@[simp] theorem queue_self (hh : head < n) : queue n cells head head = [] := by
  rw [queue, count_eq hh hh, if_pos (Nat.le_refl _), Nat.sub_self]
  rfl

/-- The ends are equal exactly if nothing is queued. -/
theorem head_eq_tail_iff (hh : head < n) (ht : tail < n) :
    head = tail ↔ queue n cells head tail = [] := by
  rw [← List.length_eq_zero_iff, length_queue, count_eq hh ht]
  split_ifs <;> omega

/-- The cell before the head is never used. -/
theorem full_iff (hh : head < n) (ht : tail < n) :
    (tail + 1) % n = head ↔ (queue n cells head tail).length = n - 1 := by
  rw [length_queue, count_eq hh ht, next_eq ht]
  split_ifs <;> omega

theorem queue_push (hh : head < n) (ht : tail < n) (hfull : (tail + 1) % n ≠ head) (a : α) :
    queue n (update cells tail a) head ((tail + 1) % n) = queue n cells head tail ++ [a] := by
  have hcount : count n head ((tail + 1) % n) = count n head tail + 1 := by
    rw [count_eq hh (Nat.mod_lt _ (by omega)), count_eq hh ht]
    rw [next_eq ht] at hfull ⊢
    split_ifs at hfull ⊢ <;> omega
  have hlast : (head + count n head tail) % n = tail := by
    rw [count_eq hh ht]
    split_ifs with hle
    · rw [Nat.add_sub_cancel' hle, Nat.mod_eq_of_lt ht]
    · rw [Nat.add_sub_cancel' (by omega), Nat.add_mod_right, Nat.mod_eq_of_lt ht]
  have hlt : count n head tail < n := Nat.mod_lt _ (by omega)
  rw [queue, hcount, List.range_succ, List.map_append, List.map_singleton, hlast,
    update_self, queue]
  congr 1
  refine List.map_congr_left fun i hi => update_of_ne ?_ _ _
  -- the cells in use before the push are not the cell at the tail
  rw [List.mem_range] at hi
  intro heq
  rw [← hlast] at heq
  have := Nat.ModEq.add_left_cancel' head heq
  rw [Nat.ModEq, Nat.mod_eq_of_lt (by omega), Nat.mod_eq_of_lt hlt] at this
  omega

theorem queue_popBack (hh : head < n) (ht : tail < n) (hne : head ≠ tail) {prev : ℕ}
    (hprev : prev = if tail = 0 then n - 1 else tail - 1) :
    queue n cells head prev = (queue n cells head tail).dropLast := by
  have hlt : prev < n := by
    rw [hprev]
    split_ifs <;> omega
  have hcount : count n head tail = count n head prev + 1 := by
    rw [count_eq hh ht, count_eq hh hlt, hprev]
    split_ifs <;> omega
  rw [queue, queue, hcount, List.range_succ, List.map_append, List.map_singleton, List.dropLast_concat]

theorem queue_popFront (hh : head < n) (ht : tail < n) (hne : head ≠ tail) :
    queue n cells head tail = cells head :: queue n cells ((head + 1) % n) tail := by
  have hcount : count n head tail = count n ((head + 1) % n) tail + 1 := by
    rw [count_eq hh ht, count_eq (Nat.mod_lt _ (by omega)) ht, next_eq hh]
    split_ifs <;> omega
  rw [queue, queue, hcount, List.range_succ_eq_map, List.map_cons, List.map_map, Nat.add_zero,
    Nat.mod_eq_of_lt hh]
  congr 1
  refine List.map_congr_left fun i _ => ?_
  simp only [Function.comp, Nat.mod_add_mod]
  congr 2
  omega

end SeL4Sys.Ring

import Mathlib.Data.Nat.Digits.Lemmas
import Mathlib.Data.List.Basic

/-!
# Multi-level index trees

A table of depth `D` with `B` entries at each level maps an index below `B ^ D` to a leaf,
by the `D` digits of the index to base `B`. A node of the table is named by the digits on
the way to it, the last one first: `[]` is the root, and `i :: l` is entry `i` of node `l`.

Nodes are brought into existence in the order of the first leaf below them, `first`. When
leaf `k` is the next one, the nodes still missing are the leaf itself and those of its
ancestors that are reached by trailing zero digits (`eq_drop_of_first_eq`, `first_drop`).
-/

namespace SeL4Sys.IndexTree

variable {B : ℕ}

/-- The `w` lowest digits of `k`, least significant first. -/
def digits (B : ℕ) : ℕ → ℕ → List ℕ
  | 0, _ => []
  | w + 1, k => k % B :: digits B w (k / B)

/-- The number of zeros a list starts with. -/
def zeros : List ℕ → ℕ
  | [] => 0
  | i :: l => if i = 0 then zeros l + 1 else 0

/-- The index of the first leaf below node `l` of a table of depth `D`. -/
def first (B D : ℕ) (l : List ℕ) : ℕ := B ^ (D - l.length) * Nat.ofDigits B l

/-- `l` names a node of a table of depth `D`. -/
structure IsNode (B D : ℕ) (l : List ℕ) : Prop where
  length_le : l.length ≤ D
  lt : ∀ i ∈ l, i < B

/-! ## Digits -/

@[simp] theorem length_digits (w k : ℕ) : (digits B w k).length = w := by
  induction w generalizing k with
  | zero => rfl
  | succ w ih => rw [digits, List.length_cons, ih]

theorem digits_lt (hB : 0 < B) {w k i : ℕ} (h : i ∈ digits B w k) : i < B := by
  induction w generalizing k with
  | zero => simp [digits] at h
  | succ w ih =>
    rcases List.mem_cons.mp h with rfl | h
    · exact Nat.mod_lt _ hB
    · exact ih h

/-- The digits of an index below `B ^ w` spell it. -/
theorem ofDigits_digits {w k : ℕ} (h : k < B ^ w) : Nat.ofDigits B (digits B w k) = k := by
  induction w generalizing k with
  | zero =>
    rw [pow_zero] at h
    rw [digits, Nat.ofDigits_nil]
    omega
  | succ w ih =>
    have hdiv : k / B < B ^ w := Nat.div_lt_of_lt_mul (by rwa [pow_succ'] at h)
    rw [digits, Nat.ofDigits_cons, ih hdiv]
    exact Nat.mod_add_div k B

/-- Digits are read back from the number they spell. -/
theorem digits_ofDigits {l : List ℕ} (h : ∀ i ∈ l, i < B) :
    digits B l.length (Nat.ofDigits B l) = l := by
  induction l with
  | nil => rfl
  | cons i l ih =>
    have hi : i < B := h i List.mem_cons_self
    rw [List.length_cons, digits, Nat.ofDigits_cons, Nat.add_mul_mod_self_left,
      Nat.mod_eq_of_lt hi, Nat.add_mul_div_left _ _ (by omega), Nat.div_eq_of_lt hi, Nat.zero_add,
      ih fun j hj => h j (List.mem_cons_of_mem i hj)]

/-- A multiple of `B ^ j` ends in `j` zeros. -/
theorem digits_pow_mul (hB : 0 < B) (w j m : ℕ) :
    digits B (j + w) (B ^ j * m) = List.replicate j 0 ++ digits B w m := by
  induction j with
  | zero => simp
  | succ j ih =>
    rw [show j + 1 + w = (j + w) + 1 by omega, digits, pow_succ', Nat.mul_assoc,
      Nat.mul_mod_right, Nat.mul_div_cancel_left _ hB, ih, List.replicate_succ, List.cons_append]

theorem ofDigits_replicate_append (j : ℕ) (l : List ℕ) :
    Nat.ofDigits B (List.replicate j 0 ++ l) = B ^ j * Nat.ofDigits B l := by
  induction j with
  | zero => simp
  | succ j ih =>
    rw [List.replicate_succ, List.cons_append, Nat.ofDigits_cons, ih, pow_succ']
    ring

/-! ## Leading zeros -/

theorem zeros_le_length (l : List ℕ) : zeros l ≤ l.length := by
  induction l with
  | nil => exact le_rfl
  | cons i l ih =>
    rw [zeros, List.length_cons]
    split <;> omega

theorem eq_replicate_append_drop {l : List ℕ} {j : ℕ} (h : j ≤ zeros l) :
    l = List.replicate j 0 ++ l.drop j := by
  induction l generalizing j with
  | nil =>
    obtain rfl : j = 0 := by simpa [zeros] using h
    rfl
  | cons i l ih =>
    cases j with
    | zero => rfl
    | succ j =>
      rw [zeros] at h
      split at h
      · rename_i hi
        rw [hi, List.replicate_succ, List.drop_succ_cons, List.cons_append,
          ← ih (Nat.le_of_succ_le_succ h)]
      · omega

theorem le_zeros_replicate_append (j : ℕ) (l : List ℕ) : j ≤ zeros (List.replicate j 0 ++ l) := by
  induction j with
  | zero => exact Nat.zero_le _
  | succ j ih =>
    rw [List.replicate_succ, List.cons_append, zeros, if_pos rfl]
    omega

/-- After its leading zeros a list is empty or starts with another digit. -/
theorem drop_zeros (l : List ℕ) : l.drop (zeros l) = [] ∨
    ∃ i m, l.drop (zeros l) = i :: m ∧ i ≠ 0 := by
  induction l with
  | nil => exact Or.inl rfl
  | cons i l ih =>
    rw [zeros]
    split
    · rw [List.drop_succ_cons]
      exact ih
    · rename_i hi
      exact Or.inr ⟨i, l, rfl, hi⟩

/-! ## The first leaf below a node -/

theorem IsNode.tail {D i : ℕ} {l : List ℕ} (h : IsNode B D (i :: l)) : IsNode B D l :=
  ⟨(Nat.le_succ _).trans h.length_le, fun j hj => h.lt j (List.mem_cons_of_mem i hj)⟩

theorem IsNode.drop {D : ℕ} {l : List ℕ} (h : IsNode B D l) (j : ℕ) : IsNode B D (l.drop j) :=
  ⟨(List.length_drop.trans_le (Nat.sub_le ..)).trans h.length_le, fun i hi => h.lt i (List.mem_of_mem_drop hi)⟩

theorem isNode_digits (hB : 0 < B) (D k : ℕ) : IsNode B D (digits B D k) :=
  ⟨(length_digits D k).le, fun _ hi => digits_lt hB hi⟩

theorem first_lt {D : ℕ} {l : List ℕ} (hB : 1 < B) (h : IsNode B D l) : first B D l < B ^ D := by
  have hlt : Nat.ofDigits B l < B ^ l.length := Nat.ofDigits_lt_base_pow_length hB h.lt
  calc first B D l < B ^ (D - l.length) * B ^ l.length :=
        Nat.mul_lt_mul_of_pos_left hlt (Nat.pow_pos (by omega))
    _ = B ^ D := by rw [← pow_add, Nat.sub_add_cancel h.length_le]

/-- Entry `i` of a node starts `i` subtables after the node does. -/
theorem first_cons {D i : ℕ} {l : List ℕ} (h : l.length < D) :
    first B D (i :: l) = first B D l + B ^ (D - l.length - 1) * i := by
  have hpow : B ^ (D - l.length) = B ^ (D - l.length - 1) * B := by
    rw [← pow_succ]
    congr 1
    omega
  rw [first, first, List.length_cons, Nat.ofDigits_cons, hpow, Nat.sub_add_eq]
  ring

theorem first_digits {D k : ℕ} (h : k < B ^ D) : first B D (digits B D k) = k := by
  rw [first, length_digits, Nat.sub_self, pow_zero, Nat.one_mul, ofDigits_digits h]

/-- The ancestors of leaf `k` along its trailing zeros have `k` as their first leaf. -/
theorem first_drop {D k j : ℕ} (h : k < B ^ D) (hj : j ≤ zeros (digits B D k)) :
    first B D ((digits B D k).drop j) = k := by
  have hlen := zeros_le_length (digits B D k)
  have hspell := ofDigits_digits h
  rw [eq_replicate_append_drop hj, ofDigits_replicate_append] at hspell
  rw [length_digits] at hlen
  rw [first, List.length_drop, length_digits, show D - (D - j) = j by omega]
  exact hspell

/-- A node with `k` as its first leaf is such an ancestor. -/
theorem eq_drop_of_first_eq {D k : ℕ} {l : List ℕ} (hB : 0 < B) (h : IsNode B D l)
    (hk : first B D l = k) :
    D - l.length ≤ zeros (digits B D k) ∧ l = (digits B D k).drop (D - l.length) := by
  have hdigits : digits B D k = List.replicate (D - l.length) 0 ++ l := by
    have hpow := digits_pow_mul hB l.length (D - l.length) (Nat.ofDigits B l)
    rw [Nat.sub_add_cancel h.length_le, digits_ofDigits h.lt] at hpow
    rw [← hk, first, hpow]
  rw [hdigits]
  refine ⟨le_zeros_replicate_append _ _, ?_⟩
  conv_rhs => rw [List.drop_append_of_le_length (by simp), List.drop_of_length_le (by simp)]
  rfl

end SeL4Sys.IndexTree

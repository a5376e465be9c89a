import SeL4Sys.Lib.CString

/-!
# Reading a string character by character

A string in memory is read through `charAt`, which fails behind the terminating zero. A function that
is written with it and returns a value has looked at nothing else.
-/

namespace SeL4Sys.CString

open Bytes

variable {p : List UInt8} {l : Buf} {n start : ℕ}

/-- The character at position `i` of the string; `none` behind its terminating zero. -/
def charAt (p : List UInt8) (i : ℕ) : Option UInt8 := if i ≤ p.length then some (bufOf p i) else none

theorem charAt_eq {i : ℕ} (hi : i ≤ p.length) : charAt p i = some (bufOf p i) := if_pos hi

/-- `strncmp` of an array and the string from `start` on. -/
def strncmpAt (p : List UInt8) (l : Buf) (start : ℕ) : ℕ → Option ℤ
  | 0 => some 0
  | n + 1 => (charAt p start).bind fun c =>
    if l 0 ≠ 0 ∧ c ≠ 0 ∧ n ≠ 0 ∧ l 0 = c then strncmpAt p (window l 1) (start + 1) n
    else some ((l 0).toNat - c.toNat)

theorem bufOf_drop (p : List UInt8) (start : ℕ) : bufOf (p.drop start) = window (bufOf p) start := by
  funext i
  unfold bufOf
  rw [window_apply, List.getD_eq_getElem?_getD, List.getD_eq_getElem?_getD, List.getElem?_drop]

/-- A comparison that ends with the string stays inside it. -/
theorem strncmpAt_eq (h : start + n ≤ p.length + 1) :
    strncmpAt p l start n = some (strncmp l (bufOf (p.drop start)) n) := by
  induction n generalizing l start with
  | zero => rfl
  | succ n ih =>
    have hhead : bufOf (p.drop start) 0 = bufOf p start := by rw [bufOf_drop, window_apply, Nat.add_zero]
    have htail : window (bufOf (p.drop start)) 1 = bufOf (p.drop (start + 1)) := by
      rw [bufOf_drop, bufOf_drop]
      funext i
      simp only [window_apply, Nat.add_assoc]
    rw [strncmpAt, charAt_eq (by omega), Option.bind_some, strncmp, hhead, htail]
    split_ifs
    · exact ih (by omega)
    · rfl

end SeL4Sys.CString

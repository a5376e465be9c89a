import SeL4Sys.Lib.Bytes
import SeL4Sys.Lib.Loop

/-!
# C strings

`cstr b n` is the string that an array of `n` characters holds: the bytes before the first zero.
`strncmp` and `strncpy` are the functions of the C library; a comparison over the length of a
string without zeros tests whether it is a prefix. `decimal` is what `%d` prints.
-/

namespace SeL4Sys.CString

open Bytes Loop

/-- The bytes before the first zero of an array of `n` bytes. -/
def cstr (b : Buf) (n : ℕ) : List UInt8 := bytesOf b (breakIndex n fun i => b i == 0)

/-- `strncmp` -/
def strncmp (l r : Buf) : ℕ → ℤ
  | 0 => 0
  | n + 1 =>
    if l 0 ≠ 0 ∧ r 0 ≠ 0 ∧ n ≠ 0 ∧ l 0 = r 0 then strncmp (window l 1) (window r 1) n
    else (l 0).toNat - (r 0).toNat

/-- `strncpy`: the string up to its end, and zeros after it. -/
def strncpy (dest src : Buf) (n : ℕ) : Buf := fun i =>
  if i < n then if i < breakIndex n (fun i => src i == 0) then src i else 0 else dest i

/-- The characters of `n` in decimal. -/
def decimal (n : ℕ) : List UInt8 := (Nat.toDigits 10 n).map fun c => UInt8.ofNat c.toNat

variable {b src dest : Buf} {n : ℕ}

/-! ## The string of an array -/

theorem cstr_getElem {i : ℕ} (hi : i < (cstr b n).length) : (cstr b n)[i] = b i :=
  getElem_bytesOf b _ i hi

/-- A string that is shorter than the array is followed by a zero. -/
theorem cstr_end (h : (cstr b n).length < n) : b (cstr b n).length = 0 := by
  rw [cstr, length_bytesOf] at *
  have := breakIndex_spec h
  simpa using this

/-- The string depends on the array only. -/
theorem cstr_congr {b' : Buf} (h : ∀ i, i < n → b' i = b i) : cstr b' n = cstr b n := by
  have hbreak : breakIndex n (fun i => b' i == 0) = breakIndex n fun i => b i == 0 :=
    breakIndex_congr fun i hi => by rw [h i hi]
  unfold cstr
  rw [hbreak]
  apply List.ext_getElem
  · simp
  · intro i hi _
    rw [length_bytesOf] at hi
    rw [getElem_bytesOf, getElem_bytesOf]
    exact h i (lt_of_lt_of_le hi breakIndex_le)

/-- The string that a list without zeros is in memory. -/
theorem cstr_eq_of_bytes {l : List UInt8} (hl : ∀ x ∈ l, x ≠ 0) (hlen : l.length < n)
    (hb : ∀ i, i ≤ l.length → b i = bufOf l i) : cstr b n = l := by
  have hbreak : breakIndex n (fun i => b i == 0) = l.length := by
    apply breakIndex_eq hlen
    · simp [hb _ le_rfl, bufOf_eq_zero le_rfl]
    · intro i hi
      rw [hb i hi.le, bufOf_getElem hi]
      simpa using hl _ (List.getElem_mem hi)
  rw [cstr, hbreak]
  apply List.ext_getElem
  · simp
  · intro i hi hi'
    rw [getElem_bytesOf, hb i hi'.le, bufOf_getElem hi']

/-- A list without zeros, as a test. -/
theorem no_zero_of_all {l : List UInt8} (h : l.all (· != 0) = true) : ∀ x ∈ l, x ≠ 0 := by
  simpa using h

/-! ## Comparing and copying -/

/-- No more than `n` bytes of the two strings are looked at. -/
theorem strncmp_congr {l l' r r' : Buf} (hl : ∀ i, i < n → l' i = l i) (hr : ∀ i, i < n → r' i = r i) :
    strncmp l' r' n = strncmp l r n := by
  induction n generalizing l l' r r' with
  | zero => rfl
  | succ n ih =>
    have hl' : ∀ i, i < n → window l' 1 i = window l 1 i := fun i hi => hl (1 + i) (by omega)
    have hr' : ∀ i, i < n → window r' 1 i = window r 1 i := fun i hi => hr (1 + i) (by omega)
    rw [strncmp, strncmp, hl 0 (by omega), hr 0 (by omega), ih hl' hr']

/-- Against a string without zeros in its first `n` bytes, all of them are compared. -/
theorem strncmp_eq_zero_iff {l r : Buf} (hr : ∀ i, i < n → r i ≠ 0) :
    strncmp l r n = 0 ↔ ∀ i, i < n → l i = r i := by
  induction n generalizing l r with
  | zero => simp [strncmp]
  | succ n ih =>
    have hstep : (∀ i, i < n + 1 → l i = r i)
        ↔ l 0 = r 0 ∧ ∀ i, i < n → window l 1 i = window r 1 i := by
      constructor
      · intro h
        exact ⟨h 0 (by omega), fun i hi => h (1 + i) (by omega)⟩
      · rintro ⟨h0, h⟩ i hi
        cases i with
        | zero => exact h0
        | succ i =>
          have := h i (by omega)
          rwa [window_apply, window_apply, Nat.add_comm 1 i] at this
    rw [hstep, strncmp]
    split_ifs with hcond
    · have hrest : ∀ i, i < n → window r 1 i ≠ 0 := fun i hi => hr (1 + i) (by omega)
      rw [ih hrest]
      exact ⟨fun h => ⟨hcond.2.2.2, h⟩, fun h => h.2⟩
    · -- the comparison ends at the first byte: it differs, or it is the last one
      have hdiff : ((l 0).toNat : ℤ) - (r 0).toNat = 0 ↔ l 0 = r 0 := by
        rw [sub_eq_zero, Nat.cast_inj, UInt8.toNat_inj]
      rw [hdiff]
      constructor
      · intro h0
        refine ⟨h0, fun i hi => absurd ⟨?_, hr 0 (by omega), by omega, h0⟩ hcond⟩
        rw [h0]
        exact hr 0 (by omega)
      · exact fun h => h.1

/-- Comparing an array over the length of `c` tests whether `c` is a prefix of its string. -/
theorem strncmp_eq_zero_iff_isPrefix {r : Buf} {c : List UInt8} (hc : ∀ x ∈ c, x ≠ 0)
    (hr : ∀ i, i < c.length → r i = bufOf c i) (hb : (cstr b n).length < n) :
    strncmp b r c.length = 0 ↔ c <+: cstr b n := by
  have hne : ∀ i, i < c.length → r i ≠ 0 := by
    intro i hi
    rw [hr i hi, bufOf_getElem hi]
    exact hc _ (List.getElem_mem hi)
  rw [strncmp_eq_zero_iff hne, List.prefix_iff_eq_take]
  constructor
  · intro h
    have hle : c.length ≤ (cstr b n).length := by
      by_contra hgt
      have := h (cstr b n).length (by omega)
      rw [cstr_end hb] at this
      exact hne _ (by omega) this.symm
    apply List.ext_getElem
    · rw [List.length_take]
      omega
    · intro i hi _
      rw [List.getElem_take, cstr_getElem, h i hi, hr i hi, bufOf_getElem hi]
  · intro h i hi
    have hlen := congrArg List.length h
    rw [List.length_take] at hlen
    have hi' : i < (cstr b n).length := by omega
    have hget := List.getElem_of_eq h hi
    rw [List.getElem_take] at hget
    rw [hr i hi, bufOf_getElem hi, hget, cstr_getElem]

/-- Copying an array keeps its string. -/
theorem cstr_strncpy_self (dest src : Buf) : cstr (strncpy dest src n) n = cstr src n := by
  have hcopy : ∀ i, i < breakIndex n (fun i => src i == 0) → strncpy dest src n i = src i := by
    intro i hi
    rw [strncpy, if_pos (lt_of_lt_of_le hi breakIndex_le), if_pos hi]
  by_cases hend : breakIndex n (fun i => src i == 0) < n
  · have hbreak : breakIndex n (fun i => strncpy dest src n i == 0)
        = breakIndex n fun i => src i == 0 := by
      apply breakIndex_eq hend
      · rw [strncpy, if_pos hend, if_neg (lt_irrefl _)]
        rfl
      · intro i hi
        rw [hcopy i hi]
        exact breakIndex_min hi
    rw [cstr, cstr, hbreak]
    apply List.ext_getElem
    · simp
    · intro i hi _
      rw [length_bytesOf] at hi
      rw [getElem_bytesOf, getElem_bytesOf, hcopy i hi]
  · exact cstr_congr fun i hi => hcopy i (by omega)

/-- The bytes of a list without zeros are copied as far as there is place. -/
theorem strncpy_apply {dest : Buf} {l : List UInt8} (hl : ∀ x ∈ l, x ≠ 0) {i : ℕ} (hi : i < n)
    (hlen : i < l.length) : strncpy dest (bufOf l) n i = l[i] := by
  have hend : i < breakIndex n fun i => bufOf l i == 0 := by
    by_contra hle
    have hspec := breakIndex_spec (n := n) (p := fun i => bufOf l i == 0) (by omega)
    rw [beq_iff_eq, bufOf_getElem (by omega)] at hspec
    exact hl _ (List.getElem_mem _) hspec
  rw [strncpy, if_pos hi, if_pos hend, bufOf_getElem hlen]

/-- A copied string that fits is the string. -/
theorem cstr_strncpy {l : List UInt8} (hl : ∀ x ∈ l, x ≠ 0) (hlen : l.length < n) :
    cstr (strncpy dest (bufOf l) n) n = l := by
  have hbreak : breakIndex n (fun i => bufOf l i == 0) = l.length := by
    apply breakIndex_eq hlen
    · simp [bufOf_eq_zero]
    · intro i hi
      rw [bufOf_getElem hi]
      simpa using hl _ (List.getElem_mem hi)
  apply cstr_eq_of_bytes hl hlen
  intro i hi
  rw [strncpy, hbreak, if_pos (by omega)]
  by_cases hlt : i < l.length
  · rw [if_pos hlt]
  · rw [if_neg hlt, bufOf_eq_zero (by omega)]

/-! ## Numbers -/

/-- The digits come back from the bytes. -/
theorem toDigits_decimal (n : ℕ) :
    (decimal n).map (fun x => Char.ofNat x.toNat) = Nat.toDigits 10 n := by
  rw [decimal, List.map_map]
  nth_rewrite 2 [← List.map_id (Nat.toDigits 10 n)]
  apply List.map_congr_left
  intro c hc
  have hdigit := Nat.isDigit_of_mem_toDigits (by omega) (by omega) hc
  have hsmall : c.toNat < 256 := by
    rw [Char.isDigit, Bool.and_eq_true, decide_eq_true_eq, decide_eq_true_eq] at hdigit
    have := UInt32.le_iff_toNat_le.mp hdigit.2
    exact lt_of_le_of_lt this (by decide)
  have hbyte : (UInt8.ofNat c.toNat).toNat = c.toNat := by simp [Nat.mod_eq_of_lt hsmall]
  rw [Function.comp_apply, hbyte, Char.ofNat_toNat, id]

theorem decimal_injective : Function.Injective decimal := by
  intro m n h
  have hdigits : Nat.toDigits 10 m = Nat.toDigits 10 n := by
    rw [← toDigits_decimal m, h, toDigits_decimal]
  rw [← Nat.ofDigitChars_ten_toDigits (n := m), hdigits, Nat.ofDigitChars_ten_toDigits]

end SeL4Sys.CString

import Mathlib.Data.Nat.Count
import Mathlib.Order.Interval.Finset.Nat
import Mathlib.Data.Nat.Bitwise
import SeL4Sys.Lib.Bytes

/-!
# Bitmaps in byte buffers

Bit `n` of a bitmap is bit `7 - n % 8` of byte `n / 8`: the most significant bit of a byte
comes first. Setting a bit is an `or` with a mask, clearing one an exclusive or.
-/

namespace SeL4Sys.Bitmap

open Bytes Function

/-- Bit `n` of the bitmap, most significant bit of each byte first. -/
def bit (m : Buf) (n : ℕ) : Bool := (m (n / 8)).toNat.testBit (7 - n % 8)

/-- `1 << (7 - k)`, as a byte. -/
def mask (k : ℕ) : UInt8 := if k < 8 then UInt8.ofNat (2 ^ (7 - k)) else 0

/-- `m[j] |= 1 << (7 - k)` -/
def orBit (m : Buf) (j k : ℕ) : Buf := update m j (m j ||| mask k)

/-- `m[j] ^= 1 << (7 - k)` -/
def xorBit (m : Buf) (j k : ℕ) : Buf := update m j (m j ^^^ mask k)

/-- The number of clear bits among the first `n`. -/
def clearCount (m : Buf) (n : ℕ) : ℕ := Nat.count (fun i => bit m i = false) n

/-! ## Single bits -/

theorem bit_congr {m m' : Buf} {n : ℕ} (h : m' (n / 8) = m (n / 8)) : bit m' n = bit m n := by
  rw [bit, bit, h]

theorem bit_mul_add {m : Buf} {j k : ℕ} (hk : k < 8) :
    bit m (8 * j + k) = (m j).toNat.testBit (7 - k) := by
  rw [bit, show (8 * j + k) / 8 = j by omega, show (8 * j + k) % 8 = k by omega]

/-- The test the C code makes on a bit. -/
theorem shift_mod_two_eq_zero {m : Buf} {j k : ℕ} (hk : k < 8) :
    ((m j).toNat >>> (7 - k)) % 2 = 0 ↔ bit m (8 * j + k) = false := by
  rw [bit_mul_add hk, Nat.testBit_eq_decide_div_mod_eq, Nat.shiftRight_eq_div_pow,
    decide_eq_false_iff_not]
  omega

theorem mask_testBit {k : ℕ} (hk : k < 8) (i : ℕ) :
    (mask k).toNat.testBit i = decide (i = 7 - k) := by
  have hlt : 2 ^ (7 - k) < 256 := by
    calc 2 ^ (7 - k) ≤ 2 ^ 7 := Nat.pow_le_pow_right (by norm_num) (by omega)
      _ < 256 := by norm_num
  rw [mask, if_pos hk, UInt8.toNat_ofNat', Nat.mod_eq_of_lt hlt, Nat.testBit_two_pow]
  exact decide_eq_decide.mpr eq_comm

/-- A byte is `0xff` exactly when all its bits are set. -/
theorem eq_ff_iff (m : Buf) (j : ℕ) : m j = 0xff ↔ ∀ k, k < 8 → bit m (8 * j + k) = true := by
  have hx : (∀ i, i < 8 → (m j).toNat.testBit i = true) ↔ (m j).toNat = 2 ^ 8 - 1 := by
    constructor
    · intro h
      apply Nat.eq_of_testBit_eq
      intro i
      rw [Nat.testBit_two_pow_sub_one]
      by_cases hi : i < 8
      · rw [h i hi, decide_eq_true hi]
      · have hpow : 2 ^ 8 ≤ 2 ^ i := Nat.pow_le_pow_right (by norm_num) (by omega)
        rw [decide_eq_false hi]
        exact Nat.testBit_eq_false_of_lt (lt_of_lt_of_le (m j).toNat_lt hpow)
    · intro h i hi
      rw [h, Nat.testBit_two_pow_sub_one, decide_eq_true hi]
  have heq : m j = 0xff ↔ (m j).toNat = 2 ^ 8 - 1 := by
    rw [← UInt8.toNat_inj]
    rfl
  rw [heq, ← hx]
  constructor
  · intro h k hk
    rw [bit_mul_add hk]
    exact h _ (by omega)
  · intro h i hi
    have := h (7 - i) (by omega)
    rwa [bit_mul_add (by omega), show 7 - (7 - i) = i by omega] at this

/-- Setting bit `8 j + k` sets that bit and no other. -/
theorem bit_orBit {m : Buf} {j k : ℕ} (hk : k < 8) (n : ℕ) :
    bit (orBit m j k) n = (bit m n || decide (n = 8 * j + k)) := by
  rw [bit, bit, orBit]
  by_cases hj : n / 8 = j
  · have hbits : decide (7 - n % 8 = 7 - k) = decide (n = 8 * j + k) :=
      decide_eq_decide.mpr (by omega)
    rw [hj, update_self, UInt8.toNat_or, Nat.testBit_or,
      mask_testBit hk, hbits]
  · rw [update_of_ne hj, decide_eq_false (by omega), Bool.or_false]

/-- Flipping bit `8 j + k` flips that bit and no other. -/
theorem bit_xorBit {m : Buf} {j k : ℕ} (hk : k < 8) (n : ℕ) :
    bit (xorBit m j k) n = (bit m n ^^ decide (n = 8 * j + k)) := by
  rw [bit, bit, xorBit]
  by_cases hj : n / 8 = j
  · have hbits : decide (7 - n % 8 = 7 - k) = decide (n = 8 * j + k) :=
      decide_eq_decide.mpr (by omega)
    rw [hj, update_self, UInt8.toNat_xor, Nat.testBit_xor,
      mask_testBit hk, hbits]
  · rw [update_of_ne hj, decide_eq_false (by omega), Bool.xor_false]

/-- The mask of an index past the byte is empty, and `or` with it changes nothing. -/
theorem orBit_of_le {m : Buf} {j k : ℕ} (hk : 8 ≤ k) : orBit m j k = m := by
  rw [orBit, mask, if_neg (by omega), UInt8.or_zero, update_eq_self]

/-- A byte after a flip depends on that byte and the flipped one. -/
theorem xorBit_congr {m m' : Buf} {j k q : ℕ} (hq : m' q = m q) (hj : m' j = m j) :
    xorBit m' j k q = xorBit m j k q := by
  rw [xorBit, xorBit, hj]
  by_cases hqj : q = j
  · rw [hqj, update_self, update_self]
  · rw [update_of_ne hqj, update_of_ne hqj, hq]

/-- A bit that was clear, set and flipped back. -/
theorem xorBit_orBit {m : Buf} {j k : ℕ} (hk : k < 8) (hclear : bit m (8 * j + k) = false) :
    xorBit (orBit m j k) j k = m := by
  have hbyte : (m j ||| mask k) ^^^ mask k = m j := by
    rw [← UInt8.toNat_inj, UInt8.toNat_xor, UInt8.toNat_or]
    refine Nat.eq_of_testBit_eq fun i => ?_
    rw [bit_mul_add hk] at hclear
    rw [Nat.testBit_xor, Nat.testBit_or, mask_testBit hk]
    by_cases hi : i = 7 - k
    · rw [hi, hclear]
      simp
    · simp [hi]
  rw [xorBit, orBit, update_self, hbyte, update_idem, update_eq_self]

/-! ## Counting clear bits -/

theorem clearCount_congr {m m' : Buf} {n : ℕ} (h : ∀ i, i < n → bit m' i = bit m i) :
    clearCount m' n = clearCount m n := by
  rw [clearCount, clearCount, Nat.count_eq_card_filter_range, Nat.count_eq_card_filter_range]
  congr 1
  apply Finset.filter_congr
  intro i hi
  rw [h i (Finset.mem_range.mp hi)]

/-- Two bitmaps that differ in bit `i` only, clear in `m` and set in `m'`. -/
theorem clearCount_succ (m m' : Buf) {n i : ℕ} (hi : i < n) (hclear : bit m i = false)
    (hset : bit m' i = true) (hother : ∀ l, l < n → l ≠ i → bit m' l = bit m l) :
    clearCount m' n + 1 = clearCount m n := by
  rw [clearCount, clearCount, Nat.count_eq_card_filter_range, Nat.count_eq_card_filter_range]
  have hmem : i ∈ (Finset.range n).filter (fun l => bit m l = false) := by
    simp [hi, hclear]
  have herase : (Finset.range n).filter (fun l => bit m' l = false)
      = ((Finset.range n).filter (fun l => bit m l = false)).erase i := by
    ext l
    simp only [Finset.mem_filter, Finset.mem_range, Finset.mem_erase]
    constructor
    · rintro ⟨hl, hbit⟩
      have hne : l ≠ i := by
        rintro rfl
        rw [hset] at hbit
        cases hbit
      exact ⟨hne, hl, by rw [← hother l hl hne]; exact hbit⟩
    · rintro ⟨hne, hl, hbit⟩
      exact ⟨hl, by rw [hother l hl hne]; exact hbit⟩
  rw [herase]
  exact Finset.card_erase_add_one hmem

/-- A positive count comes with a clear bit. -/
theorem exists_clear_of_clearCount_pos {m : Buf} {n : ℕ} (h : 0 < clearCount m n) :
    ∃ i, i < n ∧ bit m i = false := by
  rw [clearCount, Nat.count_eq_card_filter_range, Finset.card_pos] at h
  obtain ⟨i, hi⟩ := h
  simp only [Finset.mem_filter, Finset.mem_range] at hi
  exact ⟨i, hi.1, hi.2⟩

/-- A bitmap in which the first `a` bits are set. -/
theorem clearCount_of_set_below {m : Buf} {n a : ℕ} (h : ∀ i, i < n → bit m i = decide (i < a))
    (ha : a ≤ n) : clearCount m n + a = n := by
  have hfilter : (Finset.range n).filter (fun i => bit m i = false) = Finset.Ico a n := by
    ext i
    rw [Finset.mem_filter, Finset.mem_range, Finset.mem_Ico]
    constructor
    · rintro ⟨hi, hbit⟩
      rw [h i hi, decide_eq_false_iff_not] at hbit
      omega
    · rintro ⟨hi, hn⟩
      exact ⟨hn, by rw [h i hn, decide_eq_false_iff_not]; omega⟩
  rw [clearCount, Nat.count_eq_card_filter_range, hfilter, Nat.card_Ico]
  omega

end SeL4Sys.Bitmap

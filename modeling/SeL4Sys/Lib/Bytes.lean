import Mathlib.Data.List.GetD
import Mathlib.Data.List.Range
import Mathlib.Data.Nat.Basic
import Mathlib.Tactic.Ring
import Mathlib.Tactic.Linarith

/-!
# Byte buffers and little-endian integers

A buffer is seen the way C sees it, from a base pointer: a total function from offsets
to bytes, of which a piece of code looks at some window. Two operations suffice for
everything a program does with memory and with a byte-addressed device: looking at a
`window` of a buffer, and overwriting one with `patch`.

`bufOf` and `bytesOf` go between buffers and lists of bytes. The last part reads and writes
fixed-width little-endian integers in buffers.
-/

namespace SeL4Sys.Bytes

/-- Memory seen from a base pointer. -/
abbrev Buf := ℕ → UInt8

/-- The buffer that starts `off` bytes into `m`. -/
def window (m : Buf) (off : ℕ) : Buf := fun i => m (off + i)

/-- `m` with the `n` bytes from `off` on replaced by the first `n` bytes of `b`. -/
def patch (m : Buf) (off n : ℕ) (b : Buf) : Buf :=
  fun p => if off ≤ p ∧ p < off + n then b (p - off) else m p

/-- The buffers agree on the `n` bytes from `off` on. -/
def Agree (m m' : Buf) (off n : ℕ) : Prop := ∀ p, off ≤ p → p < off + n → m' p = m p

/-! ## Windows and patches -/

@[simp] theorem window_apply (m : Buf) (off i : ℕ) : window m off i = m (off + i) := rfl

@[simp] theorem window_zero (m : Buf) : window m 0 = m := by
  funext i
  rw [window_apply, Nat.zero_add]

theorem window_window (m : Buf) (off n : ℕ) : window (window m off) n = window m (off + n) := by
  funext i
  simp only [window_apply, Nat.add_assoc]

theorem patch_apply_in {m b : Buf} {off n p : ℕ} (h₁ : off ≤ p) (h₂ : p < off + n) :
    patch m off n b p = b (p - off) := if_pos ⟨h₁, h₂⟩

theorem patch_apply_out {m b : Buf} {off n p : ℕ} (h : p < off ∨ off + n ≤ p) :
    patch m off n b p = m p := if_neg (by omega)

/-- Reading inside a patched window gives the patch. -/
theorem patch_apply_add {m b : Buf} {off n i : ℕ} (h : i < n) :
    patch m off n b (off + i) = b i := by
  rw [patch_apply_in (by omega) (by omega)]
  congr 1
  omega

theorem patch_zero_apply {m b : Buf} {n i : ℕ} (h : i < n) : patch m 0 n b i = b i :=
  patch_apply_in (Nat.zero_le _) (by omega)

/-- A patch only depends on the bytes it copies. -/
theorem patch_congr {m b b' : Buf} {off n : ℕ} (h : ∀ i, i < n → b' i = b i) :
    patch m off n b' = patch m off n b := by
  funext p
  by_cases hp : off ≤ p ∧ p < off + n
  · rw [patch_apply_in hp.1 hp.2, patch_apply_in hp.1 hp.2]
    exact h _ (by omega)
  · rw [patch_apply_out (by omega), patch_apply_out (by omega)]

/-- Patching no bytes changes nothing. -/
theorem patch_nothing (m : Buf) (off : ℕ) (b : Buf) : patch m off 0 b = m := by
  funext p
  exact patch_apply_out (by omega)

/-- Two adjacent patches from one source are one. -/
theorem patch_patch (m b : Buf) (off n k : ℕ) :
    patch (patch m off n b) (off + n) k (window b n) = patch m off (n + k) b := by
  funext p
  unfold patch
  by_cases h₁ : off ≤ p ∧ p < off + n
  · rw [if_neg (by omega), if_pos h₁, if_pos (by omega)]
  · by_cases h₂ : off + n ≤ p ∧ p < off + n + k
    · rw [if_pos h₂, if_pos (by omega), window_apply, show n + (p - (off + n)) = p - off by omega]
    · rw [if_neg h₂, if_neg h₁, if_neg (by omega)]

/-- Patching a window with what it already holds changes nothing. -/
theorem patch_self (m : Buf) (off n : ℕ) : patch m off n (window m off) = m := by
  funext p
  by_cases hp : off ≤ p ∧ p < off + n
  · rw [patch_apply_in hp.1 hp.2, window_apply]
    congr 1
    omega
  · rw [patch_apply_out (by omega)]

theorem Agree.refl (m : Buf) (off n : ℕ) : Agree m m off n := fun _ _ _ => rfl

theorem Agree.trans {m m' m'' : Buf} {off n : ℕ} (h : Agree m m' off n)
    (h' : Agree m' m'' off n) : Agree m m'' off n :=
  fun p h₁ h₂ => (h' p h₁ h₂).trans (h p h₁ h₂)

theorem Agree.symm {m m' : Buf} {off n : ℕ} (h : Agree m m' off n) : Agree m' m off n :=
  fun p h₁ h₂ => (h p h₁ h₂).symm

/-- A patch leaves every window disjoint from it alone. -/
theorem agree_patch {m b : Buf} {off n off' n' : ℕ}
    (h : off' + n' ≤ off ∨ off + n ≤ off') : Agree m (patch m off n b) off' n' :=
  fun p h₁ h₂ => patch_apply_out (by omega)

theorem Agree.window_eq {m m' : Buf} {off n : ℕ} (h : Agree m m' off n) {i : ℕ} (hi : i < n) :
    window m' off i = window m off i := h _ (by omega) (by omega)

/-! ## Lists of bytes -/

/-- A list of bytes in memory, followed by zeros. -/
def bufOf (bytes : List UInt8) : Buf := fun i => bytes.getD i 0

/-- The first `n` bytes of a buffer. -/
def bytesOf (b : Buf) (n : ℕ) : List UInt8 := (List.range n).map b

@[simp] theorem length_bytesOf (b : Buf) (n : ℕ) : (bytesOf b n).length = n := by
  simp [bytesOf]

@[simp] theorem getElem_bytesOf (b : Buf) (n i : ℕ) (hi : i < (bytesOf b n).length) :
    (bytesOf b n)[i] = b i := by
  simp [bytesOf]

theorem bytesOf_congr {b b' : Buf} {n : ℕ} (h : ∀ i, i < n → b i = b' i) : bytesOf b n = bytesOf b' n :=
  List.map_congr_left fun i hi => h i (List.mem_range.mp hi)

theorem eq_of_bytesOf_eq {b b' : Buf} {n i : ℕ} (h : bytesOf b n = bytesOf b' n) (hi : i < n) : b i = b' i :=
  List.map_inj_left.mp h i (List.mem_range.mpr hi)

theorem bytesOf_add (b : Buf) (n m : ℕ) :
    bytesOf b (n + m) = bytesOf b n ++ bytesOf (window b n) m := by
  simp only [bytesOf, List.range_add, List.map_append, List.map_map]
  rfl

theorem bufOf_getElem {bytes : List UInt8} {i : ℕ} (hi : i < bytes.length) :
    bufOf bytes i = bytes[i] := by
  rw [bufOf, List.getD_eq_getElem _ _ hi]

@[simp] theorem bytesOf_bufOf (bytes : List UInt8) : bytesOf (bufOf bytes) bytes.length = bytes := by
  apply List.ext_getElem
  · rw [length_bytesOf]
  · intro i _ hi
    rw [getElem_bytesOf, bufOf_getElem hi]

theorem bufOf_eq_zero {bytes : List UInt8} {i : ℕ} (hi : bytes.length ≤ i) : bufOf bytes i = 0 := by
  rw [bufOf, List.getD_eq_default _ _ hi]

theorem bufOf_append_left {l l' : List UInt8} {i : ℕ} (hi : i < l.length) :
    bufOf (l ++ l') i = bufOf l i := by
  rw [bufOf, bufOf, List.getD_append _ _ _ _ hi]

theorem bufOf_append_right (l l' : List UInt8) (i : ℕ) :
    bufOf (l ++ l') (l.length + i) = bufOf l' i := by
  rw [bufOf, bufOf, List.getD_append_right _ _ _ _ (Nat.le_add_right _ _), Nat.add_sub_cancel_left]

/-! ## Little-endian naturals -/

/-- The value of the `w` bytes of `m` from `off` on, least significant byte first. -/
def leNat (m : Buf) : ℕ → ℕ → ℕ
  | _, 0 => 0
  | off, w + 1 => (m off).toNat + 256 * leNat m (off + 1) w

/-- Byte `j` of the little-endian representation of `v`. -/
def leByte (v j : ℕ) : UInt8 := UInt8.ofNat (v / 256 ^ j % 256)

theorem leByte_toNat (v j : ℕ) : (leByte v j).toNat = v / 256 ^ j % 256 := by
  rw [leByte, UInt8.toNat_ofNat']
  exact Nat.mod_eq_of_lt (Nat.mod_lt _ (by norm_num))

theorem leNat_congr {m m' : Buf} {off off' : ℕ} (w : ℕ)
    (h : ∀ j, j < w → m' (off' + j) = m (off + j)) : leNat m' off' w = leNat m off w := by
  induction w generalizing off off' with
  | zero => rfl
  | succ w ih =>
    rw [leNat, leNat, ih (fun j hj => ?_)]
    · have h0 := h 0 (by omega)
      rw [Nat.add_zero, Nat.add_zero] at h0
      rw [h0]
    · have hj := h (j + 1) (by omega)
      rwa [show off' + (j + 1) = off' + 1 + j by omega,
        show off + (j + 1) = off + 1 + j by omega] at hj

theorem leNat_lt (m : Buf) (off w : ℕ) : leNat m off w < 256 ^ w := by
  induction w generalizing off with
  | zero => simp [leNat]
  | succ w ih =>
    have hb := (m off).toNat_lt
    have := ih (off + 1)
    rw [leNat, pow_succ]
    omega

/-- The bytes of `v` read back as `v`, up to the width read. -/
theorem leNat_of_bytes {m : Buf} {off w v : ℕ} (h : ∀ j, j < w → m (off + j) = leByte v j) :
    leNat m off w = v % 256 ^ w := by
  induction w generalizing off v with
  | zero => simp [leNat, Nat.mod_one]
  | succ w ih =>
    have hhead : (m off).toNat = v % 256 := by
      have h0 := h 0 (by omega)
      rw [Nat.add_zero] at h0
      rw [h0, leByte_toNat, pow_zero, Nat.div_one]
    have htail : leNat m (off + 1) w = v / 256 % 256 ^ w := by
      apply ih
      intro j hj
      have := h (j + 1) (by omega)
      rw [show off + 1 + j = off + (j + 1) by omega, this, leByte, leByte, pow_succ,
        Nat.mul_comm, Nat.div_div_eq_div_mul]
    rw [leNat, hhead, htail, pow_succ, Nat.mul_comm (256 ^ w) 256, Nat.mod_mul]

/-- Any `w` bytes are the bytes of the number they spell. -/
theorem leByte_leNat {m : Buf} {off w j : ℕ} (hj : j < w) :
    leByte (leNat m off w) j = m (off + j) := by
  induction w generalizing off j with
  | zero => omega
  | succ w ih =>
    have hb := (m off).toNat_lt
    rw [leNat]
    cases j with
    | zero =>
      rw [leByte, pow_zero, Nat.div_one, Nat.add_mul_mod_self_left, Nat.add_zero]
      rw [Nat.mod_eq_of_lt hb]
      exact UInt8.ofNat_toNat
    | succ j =>
      have hdiv : ((m off).toNat + 256 * leNat m (off + 1) w) / 256 ^ (j + 1)
          = leNat m (off + 1) w / 256 ^ j := by
        rw [pow_succ', ← Nat.div_div_eq_div_mul]
        congr 1
        omega
      have htail : leByte (leNat m (off + 1) w) j = m (off + 1 + j) := ih (by omega)
      rw [leByte] at htail
      rw [leByte, hdiv, htail]
      congr 1
      omega

/-! ## Little-endian two's complement integers -/

/-- The signed value of the `w` bytes of `m` from `off` on. -/
def leInt (m : Buf) (off w : ℕ) : ℤ :=
  if 2 * leNat m off w < 256 ^ w then leNat m off w else (leNat m off w : ℤ) - 256 ^ w

/-- The unsigned number with the same `w` bytes as `v`. -/
def toUnsigned (w : ℕ) (v : ℤ) : ℕ := (v % 256 ^ w).toNat

/-- `v` is a value of the `w`-byte signed type. -/
def FitsInt (w : ℕ) (v : ℤ) : Prop := -256 ^ w ≤ 2 * v ∧ 2 * v < 256 ^ w

theorem toUnsigned_lt (w : ℕ) (v : ℤ) : toUnsigned w v < 256 ^ w := by
  have hpos : (0 : ℤ) < 256 ^ w := by positivity
  have h₁ := Int.emod_nonneg v hpos.ne'
  have h₂ := Int.emod_lt_of_pos v hpos
  have : ((toUnsigned w v : ℕ) : ℤ) < 256 ^ w := by
    rw [toUnsigned, Int.toNat_of_nonneg h₁]
    exact h₂
  exact_mod_cast this

theorem leInt_fits (m : Buf) (off w : ℕ) : FitsInt w (leInt m off w) := by
  have h : leNat m off w < 256 ^ w := leNat_lt m off w
  have hz : ((leNat m off w : ℕ) : ℤ) < 256 ^ w := by exact_mod_cast h
  have hpos : (0 : ℤ) ≤ leNat m off w := Int.natCast_nonneg _
  unfold FitsInt leInt
  split
  · rename_i hlt
    have : 2 * ((leNat m off w : ℕ) : ℤ) < 256 ^ w := by exact_mod_cast hlt
    constructor <;> linarith
  · rename_i hge
    have : (256 : ℤ) ^ w ≤ 2 * (leNat m off w : ℕ) := by exact_mod_cast Nat.le_of_not_lt hge
    constructor <;> linarith

/-- The bytes of a value of the type read back as that value. -/
theorem leInt_of_bytes {m : Buf} {off w : ℕ} {v : ℤ} (hv : FitsInt w v)
    (h : ∀ j, j < w → m (off + j) = leByte (toUnsigned w v) j) : leInt m off w = v := by
  have hu : leNat m off w = toUnsigned w v := by
    rw [leNat_of_bytes h, Nat.mod_eq_of_lt (toUnsigned_lt w v)]
  have hpos : (0 : ℤ) < 256 ^ w := by positivity
  have hcast : ((toUnsigned w v : ℕ) : ℤ) = v % 256 ^ w :=
    Int.toNat_of_nonneg (Int.emod_nonneg v hpos.ne')
  obtain ⟨hlo, hhi⟩ := hv
  rw [leInt, hu]
  by_cases h0 : 0 ≤ v
  · have hv : v % 256 ^ w = v := Int.emod_eq_of_lt h0 (by linarith)
    rw [if_pos, hcast, hv]
    have : 2 * ((toUnsigned w v : ℕ) : ℤ) < 256 ^ w := by rw [hcast, hv]; exact hhi
    exact_mod_cast this
  · have hv : v % 256 ^ w = v + 256 ^ w := by
      rw [← Int.add_emod_right]
      exact Int.emod_eq_of_lt (by linarith) (by linarith)
    rw [if_neg, hcast, hv]
    · ring
    · have : ¬ 2 * ((toUnsigned w v : ℕ) : ℤ) < 256 ^ w := by rw [hcast, hv]; linarith
      exact_mod_cast this

theorem leInt_congr {m m' : Buf} {off off' : ℕ} (w : ℕ)
    (h : ∀ j, j < w → m' (off' + j) = m (off + j)) : leInt m' off' w = leInt m off w := by
  rw [leInt, leInt, leNat_congr w h]

/-- Any `w` bytes are the bytes of the signed number they spell. -/
theorem toUnsigned_leInt (m : Buf) (off w : ℕ) : toUnsigned w (leInt m off w) = leNat m off w := by
  have hlt : ((leNat m off w : ℕ) : ℤ) < 256 ^ w := by exact_mod_cast leNat_lt m off w
  have hpos : (0 : ℤ) ≤ leNat m off w := Int.natCast_nonneg _
  rw [toUnsigned, leInt]
  split
  · rw [Int.emod_eq_of_lt hpos hlt, Int.toNat_natCast]
  · rw [Int.sub_emod_right, Int.emod_eq_of_lt hpos hlt, Int.toNat_natCast]

/-! ## Arithmetic of a 32-bit `int` -/

/-- A value stored in an `int`. -/
def asInt (x : ℤ) : ℤ := x.bmod (2 ^ 32)

section asInt
variable {x : ℤ}

theorem asInt_of_fits (hlo : -2 ^ 31 ≤ x) (hhi : x < 2 ^ 31) : asInt x = x := by
  rw [asInt, Int.bmod_eq_of_le (by omega) (by omega)]

theorem asInt_natCast {n : ℕ} (hn : n < 2 ^ 31) : asInt (n : ℤ) = n :=
  asInt_of_fits (by omega) (by omega)

theorem asInt_lt (x : ℤ) : asInt x < 2 ^ 31 := Int.bmod_lt (by norm_num)

theorem le_asInt (x : ℤ) : -2 ^ 31 ≤ asInt x := Int.le_bmod (by norm_num)

/-- A sum that has left the range on the right comes back in as a negative number. -/
theorem asInt_nonneg_iff (hlo : -2 ^ 31 ≤ x) (hhi : x < 2 ^ 32) : 0 ≤ asInt x ↔ 0 ≤ x ∧ x < 2 ^ 31 := by
  rw [asInt, Int.bmod_def]
  omega

/-- Storing an intermediate sum does not matter. -/
theorem asInt_asInt_add (x y : ℤ) : asInt (asInt x + y) = asInt (x + y) := Int.bmod_add_bmod

end asInt

end SeL4Sys.Bytes

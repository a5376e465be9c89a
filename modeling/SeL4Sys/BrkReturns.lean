import SeL4Sys.HeapGrow

/-!
# When `SYSCALL_BRK` returns

`heap_top` is a word and goes up in pages. The largest value it can take is the last page of the
address space, and from there the next round leads back to 0. A request above that page is
therefore never reached, and the loop goes round the address space for ever. Every request up to
it is reached before `heap_top` wraps around.
-/

namespace SeL4Sys

open Relation

variable {P P' P₀ : Proc} {newBrk k : ℕ}

/-- An earlier `SYSCALL_BRK` of the process that has returned. -/
def BrkStep (P P' : Proc) : Prop :=
  ∃ newBrk ret, newBrk < wordNum ∧ syscallBrk P newBrk = some (ret, P')

/-- `heap_top` is the address of a page. -/
structure TopOk (P : Proc) : Prop where
  aligned : P.heapTop % pageSize = 0
  word : P.heapTop < wordNum

/-- A request leaves `heap_top` at the address of a page. -/
theorem TopOk.step (h : TopOk P) (hstep : BrkStep P P') : TopOk P' := by
  have ⟨newBrk, ret, _, hbrk⟩ := hstep
  unfold syscallBrk at hbrk
  split_ifs at hbrk
  · -- the first request sets it to the base of the heap
    rw [← (Prod.mk.inj (Option.some.inj hbrk)).2]
    have haligned : heapBaseVaddr % pageSize = 0 := by decide
    have hword : heapBaseVaddr < wordNum := by decide
    exact ⟨haligned, hword⟩
  · have ⟨P₁, hloop, heq⟩ := Option.map_eq_some_iff.mp hbrk
    have ⟨k, _, htop, _, hword, _⟩ := brkLoop_some h.aligned h.word hloop
    rw [← (Prod.mk.inj heq).2]
    refine ⟨?_, hword⟩
    rw [htop, Nat.add_mul_mod_self_right]
    exact h.aligned

/-- So do all earlier requests, by induction on them. -/
theorem TopOk.run (h : TopOk P₀) (hrun : ReflTransGen BrkStep P₀ P) : TopOk P := by
  induction hrun with
  | refl => exact h
  | tail _ hstep ih => exact ih.step hstep

/-- `heap_top` after some rounds, as long as it does not wrap around. -/
theorem iterate_heapTop (hroom : P.heapTop + k * pageSize < wordNum) :
    (Proc.grow^[k] P).heapTop = P.heapTop + k * pageSize := by
  induction k with
  | zero => simp
  | succ k ih =>
    have hroom' : P.heapTop + k * pageSize + pageSize < wordNum := by
      simp only [pageSize, wordNum] at hroom ⊢
      omega
    have hk := ih (Nat.lt_of_add_right_lt hroom')
    rw [← hk] at hroom'
    rw [Function.iterate_succ_apply', grow_heapTop hroom', hk, Nat.succ_mul, Nat.add_assoc]

/-- A request up to the last page is reached. -/
theorem TopOk.returns (h : TopOk P) (hbrk : newBrk ≤ wordNum - pageSize) :
    ∃ fuel P', brkLoop newBrk fuel P = some P' ∧ newBrk ≤ P'.heapTop := by
  have haligned := h.aligned
  have hword := h.word
  -- the rounds that it takes
  obtain ⟨k, hk⟩ : ∃ k, k = (newBrk - P.heapTop + 4095) / 4096 := ⟨_, rfl⟩
  have hroom : P.heapTop + k * pageSize < wordNum := by
    simp only [pageSize, wordNum] at *
    omega
  have hreached : newBrk ≤ P.heapTop + k * pageSize := by
    simp only [pageSize, wordNum] at *
    omega
  have hbelow : ∀ j, j < k → P.heapTop + j * pageSize < newBrk := by
    intro j hj
    clear haligned hword hbrk hroom hreached
    simp only [pageSize]
    omega
  rw [← iterate_heapTop hroom] at hreached
  refine ⟨k + 1, _, brkLoop_eq (Nat.lt_succ_self k) ?_ hreached, hreached⟩
  intro j hj
  have hle : P.heapTop + j * pageSize ≤ P.heapTop + k * pageSize :=
    Nat.add_le_add_left (Nat.mul_le_mul_right _ hj.le) _
  rw [iterate_heapTop (lt_of_le_of_lt hle hroom)]
  exact hbelow j hj

/-- The loop of `SYSCALL_BRK` ends, with `heap_top` at the request or above it, exactly for requests
up to the last page of the address space. -/
theorem brkLoop_ends_iff (hstart : P₀.heapTop = 0) (hrun : ReflTransGen BrkStep P₀ P) :
    (∃ fuel P', brkLoop newBrk fuel P = some P' ∧ newBrk ≤ P'.heapTop)
      ↔ newBrk ≤ wordNum - pageSize := by
  have hzero : TopOk P₀ := ⟨by rw [hstart]; rfl, by rw [hstart]; decide⟩
  have hok := hzero.run hrun
  constructor
  · intro hends
    have ⟨fuel, P', hloop, _⟩ := hends
    by_contra hlast
    rw [brkLoop_stuck hok.aligned hok.word (not_le.mp hlast)] at hloop
    cases hloop
  · intro hbrk
    exact hok.returns hbrk

/-- A process that has asked for the base of the heap. -/
def heapProc : Proc := { emptyProc (fun _ => .empty) with heapTop := heapBaseVaddr }

theorem brkStep_heapProc : BrkStep (emptyProc fun _ => .empty) heapProc :=
  ⟨0, heapBaseVaddr, by decide, rfl⟩

/-- A request for one page. -/
theorem brkLoop_ends_iff_page :
    ∃ fuel P', brkLoop 0x10001000 fuel heapProc = some P' ∧ 0x10001000 ≤ P'.heapTop :=
  (brkLoop_ends_iff rfl (.single brkStep_heapProc)).mpr (by decide)

/-- A request for the last but one byte of the last page, after the request for the base of the
heap: the loop is still running after any number of rounds. -/
theorem brk_last_page_never_ends :
    ReflTransGen BrkStep (emptyProc fun _ => .empty) heapProc
      ∧ heapProc.heapTop ≤ 0xfffffffe ∧ ∀ fuel, brkLoop 0xfffffffe fuel heapProc = none := by
  refine ⟨.single brkStep_heapProc, by decide, ?_⟩
  intro fuel
  exact brkLoop_stuck (by decide) (by decide) (by decide)

end SeL4Sys

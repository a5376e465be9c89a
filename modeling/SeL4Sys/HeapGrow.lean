import SeL4Sys.VmOk

/-!
# Growing the heap

The loop of `SYSCALL_BRK` in closed form: when it returns, it has made one VFrame for each page from
the old `heap_top` up to the new one, and `heap_top` has not wrapped around. When the pages are
free, every one of these VFrames has its reservation.
-/

namespace SeL4Sys

open Function

variable {P P' : Proc} {newBrk fuel k : ℕ}

/-! ## The rounds of the loop -/

theorem grow_heapTop (h : P.heapTop + pageSize < wordNum) :
    P.grow.heapTop = P.heapTop + pageSize :=
  Nat.mod_eq_of_lt h

theorem grow_word : P.grow.heapTop < wordNum := Nat.mod_lt _ (by decide)

/-- Above the last page the loop does not end. -/
theorem brkLoop_stuck (haligned : P.heapTop % pageSize = 0) (hword : P.heapTop < wordNum)
    (hbrk : wordNum - pageSize < newBrk) : brkLoop newBrk fuel P = none := by
  induction fuel generalizing P with
  | zero => rfl
  | succ fuel ih =>
    have hlt : P.heapTop < newBrk := by
      simp only [wordNum, pageSize] at *
      omega
    rw [brkLoop, if_pos hlt]
    exact ih (grow_aligned haligned) grow_word

/-- When the loop returns it has gone up page by page. -/
theorem brkLoop_some (haligned : P.heapTop % pageSize = 0) (hword : P.heapTop < wordNum)
    (h : brkLoop newBrk fuel P = some P') :
    ∃ k, P' = Proc.grow^[k] P ∧ P'.heapTop = P.heapTop + k * pageSize
      ∧ newBrk ≤ P'.heapTop ∧ P'.heapTop < wordNum
      ∧ ∀ j, j < k → P.heapTop + j * pageSize < newBrk := by
  induction fuel generalizing P with
  | zero => simp [brkLoop] at h
  | succ fuel ih =>
    rw [brkLoop] at h
    split_ifs at h with hlt
    · have hroom : P.heapTop + pageSize < wordNum := by
        by_contra hwrap
        -- the top wraps around, and no top that is a multiple of the page size reaches the request
        have hlast : wordNum - pageSize < newBrk := by
          simp only [wordNum, pageSize] at *
          omega
        rw [brkLoop_stuck (grow_aligned haligned) grow_word hlast] at h
        cases h
      obtain ⟨k, hP', htop, hbrk, hword', hbelow⟩ := ih (grow_aligned haligned) grow_word h
      rw [grow_heapTop hroom] at htop hbelow
      refine ⟨k + 1, hP', ?_, hbrk, hword', ?_⟩
      · simp only [pageSize] at htop ⊢
        omega
      · intro j hj
        cases j with
        | zero => simpa using hlt
        | succ j =>
          have := hbelow j (by omega)
          simp only [pageSize] at this ⊢
          omega
    · have heq := Option.some.inj h
      refine ⟨0, heq.symm, ?_, ?_, ?_, fun j hj => absurd hj (Nat.not_lt_zero j)⟩
      · rw [← heq, Nat.zero_mul, Nat.add_zero]
      · rw [← heq]
        omega
      · rw [← heq]
        exact hword

/-- The loop returns after as many rounds as there are pages below the request. -/
theorem brkLoop_eq (hfuel : k < fuel) (hbelow : ∀ j, j < k → (Proc.grow^[j] P).heapTop < newBrk)
    (hend : newBrk ≤ (Proc.grow^[k] P).heapTop) : brkLoop newBrk fuel P = some (Proc.grow^[k] P) := by
  induction k generalizing P fuel with
  | zero =>
    obtain ⟨fuel, rfl⟩ := Nat.exists_eq_succ_of_ne_zero (Nat.ne_zero_of_lt hfuel)
    have hnot : ¬ P.heapTop < newBrk := Nat.not_lt.mpr hend
    rw [brkLoop, if_neg hnot]
    rfl
  | succ k ih =>
    obtain ⟨fuel, rfl⟩ := Nat.exists_eq_succ_of_ne_zero (Nat.ne_zero_of_lt hfuel)
    have hlt : P.heapTop < newBrk := hbelow 0 (by omega)
    rw [brkLoop, if_pos hlt]
    apply ih (by omega)
    · intro j hj
      exact hbelow (j + 1) (by omega)
    · exact hend

/-! ## The process after `k` rounds -/

/-- What `k` rounds make: the VFrames that were there stay, and those that are new cover the pages
from `heap_top` on. -/
structure Grown (P : Proc) (k : ℕ) (P' : Proc) : Prop where
  vframes : P'.vframes = P.vframes + k
  heapTop : P'.heapTop = P.heapTop + k * pageSize
  pframesUsed : P'.pframesUsed = P.pframesUsed
  replacer : P'.replacer = P.replacer
  frame : P'.frame = P.frame
  frameNum : P'.frameNum = P.frameNum
  old : ∀ i, i < P.vframes → P'.vframe i = P.vframe i
  new : ∀ j, j < k → P'.vframe (P.vframes + j)
    = newVframe (some ⟨P.heapTop + j * pageSize, P.heapTop + j * pageSize + pageSize⟩)
  reserved : ∀ j, j < k → P'.vspace (pageOf P.heapTop + j) = .reserved
  other : ∀ page, (∀ j, j < k → page ≠ pageOf P.heapTop + j) → P'.vspace page = P.vspace page

theorem pageOf_add_mul (vaddr j : ℕ) : pageOf (vaddr + j * pageSize) = pageOf vaddr + j :=
  Nat.add_mul_div_right _ _ (by decide)

/-- One more round at the end. -/
theorem Grown.succ (h : Grown P k P') (hroom : P'.heapTop + pageSize < wordNum)
    (hempty : P.vspace (pageOf P.heapTop + k) = .empty) : Grown P (k + 1) P'.grow := by
  have hpage : pageOf P'.heapTop = pageOf P.heapTop + k := by
    rw [h.heapTop]
    exact pageOf_add_mul P.heapTop k
  have hfree : P'.vspace (pageOf P'.heapTop) = .empty := by
    rw [hpage, h.other]
    · exact hempty
    · intro j hj
      omega
  have hvspace : P'.grow.vspace = update P'.vspace (pageOf P'.heapTop) .reserved := by
    show (P'.reservePage P'.heapTop).vspace = _
    exact Proc.reservePage_vspace hfree
  have hself : P'.grow.vframe P'.vframes
      = newVframe (some ⟨P'.heapTop, P'.heapTop + pageSize⟩) := by
    show (P'.reservePage P'.heapTop).vframe P'.vframes = _
    rw [Proc.reservePage_vframe_self, Proc.reserveRangeAt_empty hfree]
  have hother : ∀ i, i ≠ P'.vframes → P'.grow.vframe i = P'.vframe i := by
    intro i hi
    show (P'.reservePage P'.heapTop).vframe i = _
    exact Proc.reservePage_vframe_of_ne hi
  refine ⟨?_, ?_, h.pframesUsed, h.replacer, h.frame, h.frameNum, ?_, ?_, ?_, ?_⟩
  · show P'.vframes + 1 = _
    rw [h.vframes, Nat.add_assoc]
  · rw [grow_heapTop hroom, h.heapTop]
    simp only [pageSize]
    omega
  · intro i hi
    have := h.vframes
    rw [hother i (by omega)]
    exact h.old i hi
  · intro j hj
    by_cases hjk : j = k
    · rw [hjk, ← h.vframes, hself, h.heapTop]
    · have := h.vframes
      rw [hother _ (by omega)]
      exact h.new j (by omega)
  · intro j hj
    by_cases hjk : j = k
    · rw [hvspace, hpage, hjk, update_self]
    · rw [hvspace, hpage, update_of_ne (by omega)]
      exact h.reserved j (by omega)
  · intro page hne
    rw [hvspace, hpage, update_of_ne (hne k (by omega))]
    exact h.other page fun j hj => hne j (by omega)

theorem grown_zero : Grown P 0 P :=
  ⟨rfl, by simp, rfl, rfl, rfl, rfl, fun _ _ => rfl, fun j hj => absurd hj (Nat.not_lt_zero j),
    fun j hj => absurd hj (Nat.not_lt_zero j), fun _ _ => rfl⟩

theorem grown_iterate (hroom : P.heapTop + k * pageSize < wordNum)
    (hempty : ∀ j, j < k → P.vspace (pageOf P.heapTop + j) = .empty) :
    Grown P k (Proc.grow^[k] P) := by
  induction k with
  | zero => exact grown_zero
  | succ k ih =>
    have hroom' : P.heapTop + k * pageSize + pageSize < wordNum := by
      simp only [pageSize, wordNum] at hroom ⊢
      omega
    have hless : P.heapTop + k * pageSize < wordNum := Nat.lt_of_add_right_lt hroom'
    have hgrown := ih hless fun j hj => hempty j (by omega)
    rw [Function.iterate_succ_apply']
    apply hgrown.succ
    · rw [hgrown.heapTop]
      exact hroom'
    · exact hempty k (by omega)

/-- A request that returns, on free pages. -/
theorem syscallBrk_grown {ret : ℕ × Proc} (haligned : P.heapTop % pageSize = 0)
    (hword : P.heapTop < wordNum) (hne : newBrk ≠ 0)
    (hempty : ∀ vaddr, P.heapTop ≤ vaddr → vaddr < newBrk → P.vspace (pageOf vaddr) = .empty)
    (h : syscallBrk P newBrk = some ret) : ∃ k, Grown P k ret.2 ∧ newBrk ≤ ret.2.heapTop := by
  rw [syscallBrk, if_neg hne] at h
  split_ifs at h
  obtain ⟨P', hloop, heq⟩ := Option.map_eq_some_iff.mp h
  obtain ⟨k, hP', htop, hbrk, hword', hbelow⟩ := brkLoop_some haligned hword hloop
  refine ⟨k, ?_, ?_⟩
  · rw [← heq, hP']
    apply grown_iterate
    · rw [← htop]
      exact hword'
    · intro j hj
      rw [← pageOf_add_mul]
      exact hempty _ (Nat.le_add_right ..) (hbelow j hj)
  · rw [← heq]
    exact hbrk

/-! ## Reservations -/

/-- Every VFrame has a reservation. -/
def Proc.Reserved (P : Proc) : Prop := ∀ i, i < P.vframes → (P.vframe i).reserve ≠ none

/-- Every VFrame of every process has a reservation. -/
def Sys.Reserved (s : Sys) : Prop := ∀ p P, s.proc p = some P → P.Reserved

/-- With all reservations in place `find_vframe` finds the VFrame of the page. -/
theorem Proc.Reserved.findVframe (hres : P.Reserved) (h : P.Table) {i : ℕ}
    (hi : i < P.vframes) {vaddr : ℕ} {r : Reservation} (hr : (P.vframe i).reserve = some r)
    (hpage : pageOf vaddr = pageOf r.start) : P.findVframe vaddr = some (some i) := by
  have hcovers := (h.covers_iff hi hr).mpr hpage
  have ⟨vframe, hfind⟩ := findVframe_isSome vaddr hres
  cases vframe with
  | none =>
    have ⟨r', hr', hnot⟩ := findVframe_none hfind hi
    rw [hr] at hr'
    rw [← Option.some.inj hr', hcovers] at hnot
    cases hnot
  | some j =>
    have ⟨r', hr', hcovers'⟩ := findVframe_covers hfind
    have hj := findVframe_lt hfind
    have hpage' := (h.covers_iff hj hr').mp hcovers'
    rw [hfind, h.distinct j i r' r hj hi hr' hr (hpage'.symm.trans hpage)]

theorem Grown.reserved_all (h : Grown P k P') (hres : P.Reserved) : P'.Reserved := by
  intro i hi
  rw [h.vframes] at hi
  by_cases hold : i < P.vframes
  · rw [h.old i hold]
    exact hres i hold
  · have hnew := h.new (i - P.vframes) (by omega)
    rw [show P.vframes + (i - P.vframes) = i by omega] at hnew
    rw [hnew]
    exact fun h => by cases h

theorem pageOf_mul_pageSize {page : ℕ} : pageOf (page * pageSize) = page :=
  Nat.mul_div_cancel _ (by decide)

/-- A page that is free can be reserved, and the stack is expanded there. -/
theorem expandStack_ok {b : Backing} {vaddr : ℕ} (hok : P.Ok)
    (hempty : P.vspace (pageOf vaddr) = .empty) :
    ∃ b' P', expandStack b P vaddr = some (b', P') ∧ P'.Ok ∧ P'.vframes = P.vframes + 1
      ∧ P'.heapTop = P.heapTop ∧ (P'.vframe P.vframes).inRAM = true
      ∧ (P'.vframe P.vframes).reserve
          = some ⟨pageOf vaddr * pageSize, pageOf vaddr * pageSize + pageSize⟩
      ∧ ∀ i, i < P.vframes → (P'.vframe i).reserve = (P.vframe i).reserve := by
  have hfree : P.vspace (pageOf (pageOf vaddr * pageSize)) = .empty := by
    rw [pageOf_mul_pageSize]
    exact hempty
  have hpushed : (P.reservePage (pageOf vaddr * pageSize)).Ok :=
    hok.reservePage (Nat.mul_mod_left ..)
  have ⟨b', P', heq, hok', hnum, htop, hram, hres⟩ :=
    allocFrame_ok (b := b) hpushed (Nat.lt_succ_self _) (reservePage_reserve hfree)
  refine ⟨b', P', heq, hok', hnum, htop, hram, ?_, ?_⟩
  · rw [hres, reservePage_reserve hfree]
  · intro i hi
    rw [hres, Proc.reservePage_vframe_of_ne (by omega)]

/-- Operations whose reservations succeed keep every VFrame with a reservation. -/
theorem execVm_reserved {s s' : Sys} {op : VmOp} (hok : s.ProcsOk) (hres : s.Reserved)
    (hop : ReservesOk s op) (h : execVm s op = some s') : s'.Reserved := by
  -- a process that is replaced by one with all its reservations
  have hset : ∀ {p : ℕ} {r : Backing × Proc}, r.2.Reserved → (s.setProc p r).Reserved := by
    intro p r hr q Q hQ
    by_cases hq : q = p
    · rw [hq, setProc_proc_self] at hQ
      rw [← Option.some.inj hQ]
      exact hr
    · rw [setProc_proc_of_ne hq] at hQ
      exact hres q Q hQ
  have hkill : ∀ p, (syscallKill s p).Reserved := by
    intro p q Q hQ
    rw [syscallKill_proc] at hQ
    split_ifs at hQ
    exact hres q Q hQ
  cases execVm_executed h with
  -- an access leaves the list of VFrames as it is
  | @read p _ _ P _ _ hP _ => exact hset (hres p P hP)
  | @write p _ _ _ P _ _ hP _ => exact hset (hres p P hP)
  | @project p _ _ _ P _ _ hP _ => exact hset (hres p P hP)
  | @fault p vaddr ip P _ _ hP hcase =>
    cases hcase with
    | expand hrange hexpand =>
      obtain ⟨b', P', heq, _, hnum, _, _, hnew, hold⟩ :=
        expandStack_ok (b := s.toBacking) (hok p P hP) (hop P hP hrange)
      rw [heq] at hexpand
      rw [← Option.some.inj hexpand]
      apply hset
      intro i hi
      rw [hnum] at hi
      by_cases hin : i = P.vframes
      · rw [hin, hnew]
        exact fun h => by cases h
      · rw [hold i (by omega)]
        exact hres p P hP i (by omega)
    | kill => exact hkill p
    | leave => exact hres
    | @pageIn i r hrange hfind halloc =>
      have hi := findVframe_lt hfind
      obtain ⟨res, hr⟩ := Option.ne_none_iff_exists'.mp (hres p P hP i hi)
      obtain ⟨b', P', heq, _, hnum, _, _, hsameRes⟩ :=
        allocFrame_ok (b := s.toBacking) (hok p P hP) hi hr
      rw [heq] at halloc
      rw [← Option.some.inj halloc]
      apply hset
      intro j hj
      rw [hnum] at hj
      rw [hsameRes]
      exact hres p P hP j hj
  | @brk p newBrk P ret hP hret =>
    apply hset
    by_cases hzero : newBrk = 0
    · rw [syscallBrk, if_pos hzero] at hret
      rw [← Option.some.inj hret]
      exact hres p P hP
    · obtain ⟨k, hgrown, _⟩ := syscallBrk_grown (hok p P hP).aligned (hok p P hP).word hzero
        (hop P hP) hret
      exact hgrown.reserved_all (hres p P hP)
  | start hfree hnew => exact hset (newProcess_stackOk hnew).1.reserve
  | kill p => exact hkill p

/-- In a run in which reservations succeed every VFrame has one. -/
theorem VmRun.reserved {ok : Sys → VmOp → Prop} {s s' : Sys}
    (hop : ∀ s op, ok s op → ReservesOk s op) (hok : s.ProcsOk) (hres : s.Reserved)
    (h : VmRun ok s s') : s'.ProcsOk ∧ s'.Reserved := by
  induction h with
  | refl => exact ⟨hok, hres⟩
  | tail _ hstep ih =>
    have ⟨op, hallow, hexec⟩ := hstep
    exact ⟨execVm_procsOk ih.1 hexec, execVm_reserved ih.1 ih.2 (hop _ op hallow) hexec⟩

theorem bootSys_reserved {w : Swap} {file : Name → Page} : (bootSys w file).Reserved :=
  fun _ _ h => by cases h

end SeL4Sys

import SeL4Sys.HeapGrow

/-!
# A process in closed form

The memory of a process that has started with no program image in the way, has asked for `n` pages
of heap and has touched the first `k` of them in order: its stack and the first `k` pages of the heap
are in memory.
-/

namespace SeL4Sys

open Function

/-- The first page of the stack. -/
@[simp] abbrev stackPage : ℕ := 786416

/-- The first page of the heap. -/
@[simp] abbrev heapPage : ℕ := 65536

/-- The page of VFrame `i`: the first ones are the stack. -/
def shellPage (i : ℕ) : ℕ := if i < stackPages then stackPage + i else heapPage + (i - stackPages)

/-- VFrame `i` of a process with `num` VFrames, of which the first `m` are in memory. -/
def shellVframe (num m i : ℕ) : VFrame :=
  if i < num then
    ⟨some ⟨shellPage i * pageSize, shellPage i * pageSize + pageSize⟩, 0, 0, decide (i < m), none⟩
  else newVframe none

/-- The VFrame whose page this is. -/
def shellIndex (num page : ℕ) : Option ℕ :=
  if stackPage ≤ page ∧ page < stackPage + min num stackPages then some (page - stackPage)
  else if heapPage ≤ page ∧ page < heapPage + (num - stackPages) then
    some (page - heapPage + stackPages)
  else none

/-- The address space: each page in memory has the frame with the number of its VFrame. -/
def shellSpace (num m : ℕ) : VSpace := fun page =>
  match shellIndex num page with
  | some i => if i < m then .mapped i false false else .reserved
  | none => .empty

/-- The process with `num` VFrames of which the first `m` are in memory. -/
def shellProc (num m heapTop : ℕ) (replacer : Option ℕ) : Proc where
  vframe := shellVframe num m
  vframes := num
  replacer := replacer
  pframesUsed := m
  heapTop := heapTop
  vspace := shellSpace num m
  frame := fun _ _ => 0
  frameNum := m

variable {num m i page : ℕ}

/-! ## Pages and VFrames -/

theorem shellIndex_eq_some (hnum : num ≤ stackPages + 65536) :
    shellIndex num page = some i ↔ i < num ∧ shellPage i = page := by
  rw [shellIndex, shellPage]
  simp only [stackPages, stackPage, heapPage] at *
  split_ifs
  all_goals
    simp only [Option.some.injEq, false_iff]
    omega

theorem shellIndex_eq_none (hnum : num ≤ stackPages + 65536) :
    shellIndex num page = none ↔ ∀ i, i < num → shellPage i ≠ page := by
  rw [Option.eq_none_iff_forall_ne_some]
  constructor
  · intro h i hi hpage
    exact h i ((shellIndex_eq_some hnum).mpr ⟨hi, hpage⟩)
  · intro h i hi
    have := (shellIndex_eq_some hnum).mp hi
    exact h i this.1 this.2

theorem shellPage_injective {j : ℕ} (hi : i < stackPages + 65536) (hj : j < stackPages + 65536)
    (h : shellPage i = shellPage j) : i = j := by
  rw [shellPage, shellPage] at h
  simp only [stackPages, stackPage, heapPage] at *
  split_ifs at h <;> omega

theorem shellSpace_of_lt (hnum : num ≤ stackPages + 65536) (hi : i < num) :
    shellSpace num m (shellPage i) = if i < m then .mapped i false false else .reserved := by
  rw [shellSpace, (shellIndex_eq_some hnum).mpr ⟨hi, rfl⟩]

theorem shellSpace_of_ne (hnum : num ≤ stackPages + 65536)
    (h : ∀ i, i < num → shellPage i ≠ page) : shellSpace num m page = .empty := by
  rw [shellSpace, (shellIndex_eq_none hnum).mpr h]

/-! ## The steps that build the process -/

/-- The address space with one more VFrame in memory. -/
theorem update_shellSpace_mapped (hnum : num ≤ stackPages + 65536) (hm : m < num) :
    update (shellSpace num m) (shellPage m) (.mapped m false false)
      = shellSpace num (m + 1) := by
  funext page
  by_cases hpage : page = shellPage m
  · rw [hpage, update_self, shellSpace_of_lt hnum hm, if_pos (Nat.lt_succ_self m)]
  · rw [update_of_ne hpage, shellSpace, shellSpace]
    match hindex : shellIndex num page with
    | none => rfl
    | some i =>
      have hi := (shellIndex_eq_some hnum).mp hindex
      have hne : i ≠ m := by
        intro heq
        rw [heq] at hi
        exact hpage hi.2.symm
      by_cases hlt : i < m
      · simp only [if_pos hlt, if_pos (by omega : i < m + 1)]
      · simp only [if_neg hlt, if_neg (by omega : ¬ i < m + 1)]

/-- The address space with one more page reserved. -/
theorem update_shellSpace_reserved (hnum : num < stackPages + 65536) (hm : m ≤ num) :
    update (shellSpace num m) (shellPage num) .reserved = shellSpace (num + 1) m := by
  funext page
  have hnum' : num + 1 ≤ stackPages + 65536 := by omega
  by_cases hpage : page = shellPage num
  · rw [hpage, update_self, shellSpace_of_lt hnum' (Nat.lt_succ_self num),
      if_neg (by omega)]
  · rw [update_of_ne hpage]
    by_cases hany : ∃ i, i < num ∧ shellPage i = page
    · have ⟨i, hi, heq⟩ := hany
      rw [← heq, shellSpace_of_lt hnum.le hi, shellSpace_of_lt hnum' (by omega)]
    · rw [shellSpace_of_ne hnum.le fun i hi heq => hany ⟨i, hi, heq⟩, shellSpace_of_ne hnum']
      intro i hi heq
      by_cases hin : i = num
      · rw [hin] at heq
        exact hpage heq.symm
      · exact hany ⟨i, by omega, heq⟩

theorem update_shellVframe_new (hm : m ≤ num) :
    update (shellVframe num m) num
        (newVframe (some ⟨shellPage num * pageSize, shellPage num * pageSize + pageSize⟩))
      = shellVframe (num + 1) m := by
  funext i
  by_cases hi : i = num
  · rw [hi, update_self, shellVframe, if_pos (Nat.lt_succ_self num), newVframe,
      decide_eq_false (by omega)]
  · rw [update_of_ne hi, shellVframe, shellVframe]
    by_cases hlt : i < num
    · rw [if_pos hlt, if_pos (by omega)]
    · rw [if_neg hlt, if_neg (by omega)]

theorem update_shellVframe_inRAM (hm : m < num) :
    update (shellVframe num m) m { shellVframe num m m with inRAM := true }
      = shellVframe num (m + 1) := by
  funext i
  by_cases hi : i = m
  · rw [hi, update_self, shellVframe, shellVframe, if_pos hm, if_pos hm,
      decide_eq_true (Nat.lt_succ_self m)]
  · rw [update_of_ne hi, shellVframe, shellVframe]
    have hdecide : decide (i < m) = decide (i < m + 1) := decide_eq_decide.mpr (by omega)
    rw [hdecide]

section steps
variable {heapTop : ℕ} {replacer : Option ℕ}

theorem pageOf_shellPage (i : ℕ) : pageOf (shellPage i * pageSize) = shellPage i :=
  pageOf_mul_pageSize

/-- The next page is reserved. -/
theorem shellProc_reservePage (hnum : num < stackPages + 65536) (hm : m ≤ num) :
    (shellProc num m heapTop replacer).reservePage (shellPage num * pageSize)
      = shellProc (num + 1) m heapTop replacer := by
  have hempty : shellSpace num m (pageOf (shellPage num * pageSize)) = .empty := by
    rw [pageOf_shellPage]
    apply shellSpace_of_ne hnum.le
    intro i hi heq
    have := shellPage_injective (by omega) hnum heq
    omega
  have hres : reserveRangeAt (shellSpace num m) (shellPage num * pageSize)
      = (some ⟨shellPage num * pageSize, shellPage num * pageSize + pageSize⟩,
          shellSpace (num + 1) m) := by
    rw [Proc.reserveRangeAt_empty hempty, pageOf_shellPage, update_shellSpace_reserved hnum hm]
  apply Proc.ext
  · show update (shellVframe num m) num (newVframe (reserveRangeAt (shellSpace num m) _).1)
      = shellVframe (num + 1) m
    rw [hres]
    exact update_shellVframe_new hm
  · rfl
  · rfl
  · rfl
  · rfl
  · show (reserveRangeAt (shellSpace num m) _).2 = shellSpace (num + 1) m
    rw [hres]
  · rfl
  · rfl

/-- The next VFrame gets a frame. -/
theorem shellProc_allotted (hnum : num ≤ stackPages + 65536) (hm : m < num) :
    (shellProc num m heapTop replacer).allotted m
        ⟨shellPage m * pageSize, shellPage m * pageSize + pageSize⟩
      = shellProc num (m + 1) heapTop replacer := by
  have hres : shellSpace num m (pageOf (shellPage m * pageSize)) = .reserved := by
    rw [pageOf_shellPage, shellSpace_of_lt hnum hm, if_neg (by omega)]
  have hmap : mapPage (shellSpace num m) (shellPage m * pageSize) m = shellSpace num (m + 1) := by
    rw [mapPage, if_pos hres, pageOf_shellPage, update_shellSpace_mapped hnum hm]
  have hframe : update (fun _ _ => 0 : ℕ → Page) m (fun _ => 0) = fun _ _ => 0 := by
    funext j
    by_cases hj : j = m
    · rw [hj, update_self]
    · rw [update_of_ne hj]
  rw [Proc.allotted_of_reserved hres]
  apply Proc.ext
  · exact update_shellVframe_inRAM hm
  · rfl
  · rfl
  · rfl
  · rfl
  · exact hmap
  · exact hframe
  · rfl

/-- The heap ends after the last VFrame. -/
def shellTop (num : ℕ) : ℕ := (heapPage + (num - stackPages)) * pageSize

/-- A round of the loop of `SYSCALL_BRK`. -/
theorem shellProc_grow (hstack : stackPages ≤ num) (hnum : num < stackPages + 65536) (hm : m ≤ num) :
    (shellProc num m (shellTop num) replacer).grow
      = shellProc (num + 1) m (shellTop (num + 1)) replacer := by
  have htop : shellTop num = shellPage num * pageSize := by
    rw [shellTop, shellPage, if_neg (by omega)]
  have hnext : (shellTop num + pageSize) % wordNum = shellTop (num + 1) := by
    rw [shellTop, shellTop]
    simp only [stackPages, heapPage, pageSize, wordNum] at *
    omega
  have hreserve : (shellProc num m (shellTop num) replacer).reservePage (shellTop num)
      = shellProc (num + 1) m (shellTop num) replacer := by
    nth_rewrite 2 [htop]
    exact shellProc_reservePage hnum hm
  show { (shellProc num m (shellTop num) replacer).reservePage (shellTop num) with
    heapTop := (shellTop num + pageSize) % wordNum } = _
  rw [hreserve, hnext]
  rfl

theorem shellProc_grow_iterate (hstack : stackPages ≤ num) (hm : m ≤ num) {n : ℕ}
    (hnum : num + n ≤ stackPages + 65536) :
    Proc.grow^[n] (shellProc num m (shellTop num) replacer)
      = shellProc (num + n) m (shellTop (num + n)) replacer := by
  induction n with
  | zero => rfl
  | succ n ih =>
    rw [Function.iterate_succ_apply', ih (by omega)]
    exact shellProc_grow (by omega) (by omega) (by omega)

theorem syscallBrk_zero (P : Proc) :
    syscallBrk P 0 = some (heapBaseVaddr, { P with heapTop := heapBaseVaddr }) :=
  if_pos rfl

/-- The heap is extended by `n` pages. -/
theorem syscallBrk_shell (hstack : stackPages ≤ num) (hm : m ≤ num) {n : ℕ} (hn : 0 < n)
    (hnum : num + n ≤ stackPages + 65536) :
    syscallBrk (shellProc num m (shellTop num) replacer) (shellTop (num + n))
      = some (shellTop (num + n), shellProc (num + n) m (shellTop (num + n)) replacer) := by
  have htop : ∀ j, j < n → shellTop (num + j) < shellTop (num + n) := by
    intro j hj
    rw [shellTop, shellTop]
    simp only [stackPages, heapPage, pageSize] at *
    omega
  have hloop : brkLoop (shellTop (num + n)) (wordNum / pageSize)
      (shellProc num m (shellTop num) replacer)
        = some (shellProc (num + n) m (shellTop (num + n)) replacer) := by
    rw [← shellProc_grow_iterate hstack hm hnum]
    apply brkLoop_eq
    · simp only [stackPages, wordNum, pageSize] at *
      omega
    · intro j hj
      rw [shellProc_grow_iterate hstack hm (by omega)]
      exact htop j hj
    · rw [shellProc_grow_iterate hstack hm hnum]
      exact le_rfl
  have hne : shellTop (num + n) ≠ 0 := by
    have := htop 0 hn
    omega
  have hle : (shellProc num m (shellTop num) replacer).heapTop ≤ shellTop (num + n) :=
    (htop 0 hn).le
  rw [syscallBrk, if_neg hne, if_pos hle, hloop]
  rfl

/-! ## A new process -/

theorem emptyProc_shell : emptyProc (imageSpace fun _ => false) = shellProc 0 0 0 none := by
  apply Proc.ext
  · rfl
  · rfl
  · rfl
  · rfl
  · rfl
  · funext page
    show VEntry.empty = shellSpace 0 0 page
    rw [shellSpace_of_ne (by omega)]
    exact fun i hi => absurd hi (Nat.not_lt_zero i)
  · rfl
  · rfl

theorem stackLoop_shell {n k : ℕ} (h : k + n ≤ stackPages) :
    stackLoop n ((stackPage + k) * pageSize) (shellProc k k 0 none)
      = some (shellProc (k + n) (k + n) 0 none) := by
  induction n generalizing k with
  | zero => rfl
  | succ n ih =>
    have hpage : shellPage k = stackPage + k := by rw [shellPage, if_pos (by omega)]
    have hk : k < stackPages + 65536 := by
      simp only [stackPages] at *
      omega
    have hempty : (shellProc k k 0 none).vspace (pageOf ((stackPage + k) * pageSize)) = .empty := by
      show shellSpace k k _ = _
      rw [← hpage, pageOf_shellPage]
      apply shellSpace_of_ne hk.le
      intro i hi heq
      have := shellPage_injective (by omega) hk heq
      omega
    rw [stackLoop_succ, if_pos hempty, ← hpage, shellProc_reservePage hk le_rfl,
      show (shellProc k k 0 none).vframes = k from rfl,
      shellProc_allotted (by omega) (Nat.lt_succ_self k),
      show shellPage k * pageSize + pageSize = (stackPage + (k + 1)) * pageSize by
        rw [hpage]
        simp only [pageSize]
        omega, ih (by omega), Nat.add_right_comm, Nat.add_assoc]

/-- A process that starts with no program image in the way. -/
theorem newProcess_shell : newProcess (imageSpace fun _ => false)
    = some (shellProc stackPages stackPages 0 (some 15)) := by
  have hloop : stackLoop stackPages ((stackPage + 0) * pageSize) (shellProc 0 0 0 none)
      = some (shellProc stackPages stackPages 0 none) := stackLoop_shell le_rfl
  rw [newProcess, emptyProc_shell,
    show stackTopVaddr - stackPages * pageSize = (stackPage + 0) * pageSize by decide, hloop]
  rfl

end steps

/-! ## The run that builds the process -/

/-- The system whose only process has number 0. -/
def shellSys (b : Backing) (P : Proc) : Sys where
  toBacking := b
  proc := update (fun _ => none) 0 (some P)

/-- The process after it has started. -/
def startedProc : Proc := shellProc stackPages stackPages 0 (some 15)

/-- The process after it has asked for its heap and touched its first pages. -/
def warmProc (num m : ℕ) : Proc := shellProc num m (shellTop num) (some 15)

variable {b : Backing} {P P' : Proc}

theorem shellSys_proc : (shellSys b P).proc 0 = some P := by simp [shellSys]

theorem shellSys_proc_eq {p : ℕ} {Q : Proc} (h : (shellSys b P).proc p = some Q) : p = 0 ∧ Q = P := by
  by_cases hp : p = 0
  · rw [hp, shellSys_proc] at h
    exact ⟨hp, (Option.some.inj h).symm⟩
  · have hnone : (shellSys b P).proc p = none := by simp [shellSys, hp]
    rw [hnone] at h
    cases h

theorem setProc_shellSys {r : Backing × Proc} : (shellSys b P).setProc 0 r = shellSys r.1 r.2 := by
  simp [Sys.setProc, shellSys]

theorem allocPid_bootSys (w : Swap) (file : Name → Page) : allocPid (bootSys w file) = 0 :=
  Loop.breakIndex_eq (by decide) rfl fun j hj => absurd hj (Nat.not_lt_zero j)

theorem exec_start (w : Swap) (file : Name → Page) :
    execVm (bootSys w file) (.start fun _ => false) = some (shellSys ⟨w, file⟩ startedProc) := by
  rw [execVm, startProcess, allocPid_bootSys, if_pos (by decide), newProcess_shell]
  rfl

/-- A request of the process that leaves the pagefiles alone. -/
theorem withProc_shell {f : Proc → Option Proc} (h : f P = some P') :
    (shellSys b P).withProc 0 f = some (shellSys b P') := by
  rw [Sys.withProc, shellSys_proc, Option.bind_some, h, Option.map_some, setProc_shellSys]
  rfl

theorem exec_brk_zero :
    execVm (shellSys b startedProc) (.brk 0 0) = some (shellSys b (warmProc stackPages stackPages)) :=
  withProc_shell rfl

theorem exec_brk {n : ℕ} (hn : 0 < n) (hnum : n ≤ 65536) :
    execVm (shellSys b (warmProc stackPages stackPages)) (.brk 0 (shellTop (stackPages + n)))
      = some (shellSys b (warmProc (stackPages + n) stackPages)) := by
  apply withProc_shell
  rw [warmProc, syscallBrk_shell le_rfl le_rfl hn (by omega)]
  rfl

theorem warmProc_vframe (hi : i < num) : (warmProc num m).vframe i
    = ⟨some ⟨shellPage i * pageSize, shellPage i * pageSize + pageSize⟩, 0, 0, decide (i < m), none⟩ :=
  if_pos hi

theorem warmProc_reserved : (warmProc num m).Reserved := by
  intro i hi
  have hlt : i < num := hi
  rw [warmProc_vframe hlt]
  exact fun h => by cases h

/-- The pages of the heap are below `heap_top`, so the stack is not expanded there. -/
theorem warmProc_expands (hstack : stackPages ≤ i) (hi : i < num) {vaddr : ℕ}
    (hpage : pageOf vaddr = shellPage i) : (warmProc num m).expands vaddr = false := by
  have hlt : ¬ shellTop num ≤ vaddr := by
    rw [pageOf] at hpage
    rw [shellPage] at hpage
    rw [shellTop]
    simp only [stackPages, stackPage, heapPage, pageSize] at *
    split_ifs at hpage <;> omega
  rw [Proc.expands]
  show (decide (shellTop num ≤ vaddr) && _ && _) = false
  rw [decide_eq_false hlt, Bool.false_and, Bool.false_and]

/-- The VFrame that is found for an address in the page of VFrame `i`. -/
theorem warmProc_findVframe (hnum : num ≤ stackPages + 65536) (hi : i < num) {vaddr j : ℕ}
    (hpage : pageOf vaddr = shellPage i) (h : (warmProc num m).findVframe vaddr = some (some j)) :
    j = i := by
  have hj : j < num := findVframe_lt h
  have ⟨r, hr, hcovers⟩ := findVframe_covers h
  rw [warmProc_vframe hj] at hr
  rw [← Option.some.inj hr, Reservation.covers, Bool.and_eq_true, decide_eq_true_eq,
    decide_eq_true_eq] at hcovers
  apply shellPage_injective (by omega) (by omega)
  rw [← hpage, pageOf]
  simp only [pageSize] at *
  omega

theorem warm_reservesOk_brk {n : ℕ} (hn : n ≤ 65536) :
    ReservesOk (shellSys b (warmProc stackPages stackPages))
      (.brk 0 (shellTop (stackPages + n))) := by
  intro Q hQ vaddr hlow hhigh
  rw [(shellSys_proc_eq hQ).2] at hlow ⊢
  have hlow : shellTop stackPages ≤ vaddr := hlow
  show shellSpace stackPages stackPages (pageOf vaddr) = .empty
  apply shellSpace_of_ne (by decide)
  intro i hi hpage
  rw [shellPage, if_pos hi, pageOf] at hpage
  rw [shellTop] at hlow hhigh
  simp only [stackPages, stackPage, heapPage, pageSize] at *
  omega

theorem warm_reservesOk_fault (hstack : stackPages ≤ i) (hi : i < num) {vaddr ip : ℕ}
    (hpage : pageOf vaddr = shellPage i) :
    ReservesOk (shellSys b (warmProc num m)) (.fault 0 vaddr ip) := by
  intro Q hQ hrange
  rw [(shellSys_proc_eq hQ).2, warmProc_expands hstack hi hpage] at hrange
  cases hrange

/-- A fault at the next page of the heap takes a new frame. -/
theorem exec_touch (hok : (warmProc num m).Ok) (hstack : stackPages ≤ m) (hm : m < num)
    (hnum : num ≤ stackPages + 65536) (hfull : m < maxPframeNum) (ip : ℕ) :
    execVm (shellSys b (warmProc num m)) (.fault 0 (shellPage m * pageSize) ip)
      = some (shellSys b (warmProc num (m + 1))) := by
  have hres : ((warmProc num m).vframe m).reserve
      = some ⟨shellPage m * pageSize, shellPage m * pageSize + pageSize⟩ := by
    rw [warmProc_vframe hm]
  have hfind : (warmProc num m).findVframe (shellPage m * pageSize) = some (some m) :=
    warmProc_reserved.findVframe hok.table hm hres rfl
  have hrange := warmProc_expands (m := m) hstack hm (pageOf_shellPage m)
  have halloc : allocFrame b (warmProc num m) m = some (b, warmProc num (m + 1)) := by
    rw [allocFrame_new hfull hres, warmProc, shellProc_allotted hnum hm]
    rfl
  rw [execVm_pageIn shellSys_proc hfind hrange halloc, setProc_shellSys]

/-- The run up to the point where `k` pages of the heap are in memory. -/
theorem warm_run {ok : Sys → VmOp → Prop} {w : Swap} {file : Name → Page} {n k : ℕ} (hn : 0 < n)
    (hnum : n ≤ 65536) (hk : k ≤ n) (hfull : stackPages + k ≤ maxPframeNum)
    (hstart : ok (bootSys w file) (.start fun _ => false))
    (hzero : ok (shellSys ⟨w, file⟩ startedProc) (.brk 0 0))
    (hbrk : ok (shellSys ⟨w, file⟩ (warmProc stackPages stackPages))
      (.brk 0 (shellTop (stackPages + n))))
    (hfault : ∀ m, stackPages ≤ m → m < stackPages + k →
      ok (shellSys ⟨w, file⟩ (warmProc (stackPages + n) m)) (.fault 0 (shellPage m * pageSize) 1)) :
    VmRun ok (bootSys w file)
      (shellSys ⟨w, file⟩ (warmProc (stackPages + n) (stackPages + k))) := by
  have hbase : VmRun ok (bootSys w file)
      (shellSys ⟨w, file⟩ (warmProc (stackPages + n) stackPages)) :=
    ((Relation.ReflTransGen.single ⟨_, hstart, exec_start w file⟩).tail
      ⟨_, hzero, exec_brk_zero⟩).tail ⟨_, hbrk, exec_brk hn hnum⟩
  induction k with
  | zero => exact hbase
  | succ k ih =>
    have hrun := ih (by omega) (by omega) fun m hm hlt => hfault m hm (by omega)
    have hok := VmRun.procsOk bootSys_procsOk hrun 0 _ shellSys_proc
    have hexec := exec_touch (b := ⟨w, file⟩) hok (Nat.le_add_right ..) (by omega) (by omega)
      (by omega) 1
    exact hrun.tail ⟨_, hfault (stackPages + k) (Nat.le_add_right ..) (by omega), hexec⟩

end SeL4Sys

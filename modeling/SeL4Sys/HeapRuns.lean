import SeL4Sys.FaultService

/-!
# The heap over whole runs

`SYSCALL_BRK` makes a VFrame for each page between the old and the new end of the heap. Over a run
in which a process asks for 0 in its first request only, and for pages that are free, `heap_top`
never decreases and the VFrames made so cover the pages of the heap, each once.
-/

namespace SeL4Sys

open Relation

variable {s s' : Sys} {p i : ℕ} {P P' : Proc} {b : Backing} {r : Backing × Proc} {op : VmOp}

/-- The VFrames made by the requests `SYSCALL_BRK` of process `p`, after an operation that takes its
memory from `P` to `P'`. -/
def heapMade (p : ℕ) (P P' : Proc) (made : Finset ℕ) : VmOp → Finset ℕ
  | .brk q _ => if q = p then made ∪ Finset.Ico P.vframes P'.vframes else made
  | _ => made

/-- A step of a run in which process `p` lives, with the VFrames made by its requests
`SYSCALL_BRK`. -/
def HeapStep (ok : Sys → VmOp → Prop) (p : ℕ) (x y : Sys × Finset ℕ) : Prop :=
  ∃ op P P', ok x.1 op ∧ execVm x.1 op = some y.1 ∧ x.1.proc p = some P ∧ y.1.proc p = some P'
    ∧ y.2 = heapMade p P P' x.2 op

/-- A request `SYSCALL_BRK` of process `p` has the argument 0 exactly when it is the first one, and
extends the heap by free pages. -/
def BrkOk (p : ℕ) (s : Sys) : VmOp → Prop
  | .brk q newBrk => q = p → ∀ P, s.proc p = some P → (newBrk = 0 ↔ P.heapTop = 0)
      ∧ ∀ vaddr, P.heapTop ≤ vaddr → vaddr < newBrk → P.vspace (pageOf vaddr) = .empty
  | _ => True

/-- The books of the heap of a process: `heap_top` is page aligned, the VFrames made by
`SYSCALL_BRK` cover the pages from `HEAP_BASE_VADDR` up to it, each once, and no two VFrames cover
the same address. -/
structure HeapExact (P : Proc) (made : Finset ℕ) : Prop where
  aligned : P.heapTop % pageSize = 0
  pages : ∀ i, i ∈ made → ∃ r, i < P.vframes ∧ (P.vframe i).reserve = some r
    ∧ r.start % pageSize = 0 ∧ r.stop = r.start + pageSize
    ∧ heapBaseVaddr ≤ r.start ∧ r.stop ≤ P.heapTop
  once : ∀ vaddr, heapBaseVaddr ≤ vaddr → vaddr < P.heapTop →
    ∃! i, i ∈ made ∧ ∃ r, (P.vframe i).reserve = some r ∧ r.covers vaddr = true
  distinct : ∀ i j r r' vaddr, i < P.vframes → j < P.vframes → (P.vframe i).reserve = some r →
    (P.vframe j).reserve = some r' → r.covers vaddr = true → r'.covers vaddr = true → i = j

/-! ## What other operations leave alone -/

theorem allocFrame_heapTop (hok : P.Ok) (h : allocFrame b P i = some r) :
    r.2.heapTop = P.heapTop := by
  cases allocFrame_allocated hok h with
  | new => exact Proc.allotted_heapTop
  | replaced _ _ _ _ _ _ _ _ hpicks => exact hpicks.replaced_heapTop

/-- `heap_top` changes only in `SYSCALL_BRK`. -/
theorem execVm_heapTop (hok : s.ProcsOk) (h : execVm s op = some s') (hP : s.proc p = some P)
    (hP' : s'.proc p = some P') (hop : ∀ newBrk, op ≠ .brk p newBrk) : P'.heapTop = P.heapTop := by
  -- a change of process `q`: of this process or of another one
  have hset : ∀ {q : ℕ} {Q : Proc} {r : Backing × Proc}, s.proc q = some Q →
      s' = s.setProc q r → (q = p → r.2.heapTop = Q.heapTop) → P'.heapTop = P.heapTop := by
    intro q Q r hQ heq hsame
    by_cases hq : q = p
    · rw [heq, hq, setProc_proc_self] at hP'
      rw [hq, hP] at hQ
      rw [← Option.some.inj hP', Option.some.inj hQ]
      exact hsame hq
    · rw [heq, setProc_proc_of_ne (Ne.symm hq), hP] at hP'
      rw [Option.some.inj hP']
  have hkill : ∀ {q : ℕ}, s' = syscallKill s q → P'.heapTop = P.heapTop := by
    intro q heq
    rw [heq, syscallKill_proc] at hP'
    split_ifs at hP'
    rw [hP] at hP'
    rw [Option.some.inj hP']
  cases execVm_executed h with
  | read hQ hmap => exact hset hQ rfl fun _ => rfl
  | write hQ hmap => exact hset hQ rfl fun _ => rfl
  | project hQ hmap => exact hset hQ rfl fun _ => rfl
  | @fault q vaddr ip Q _ _ hQ hcase =>
    cases hcase with
    | expand _ hexpand =>
      have htop := allocFrame_heapTop ((hok q Q hQ).reservePage
        (Nat.mul_mod_left (pageOf vaddr) pageSize)) hexpand
      exact hset hQ rfl fun _ => htop
    | kill _ _ _ => exact hkill rfl
    | leave _ _ _ =>
      rw [hP] at hP'
      rw [Option.some.inj hP']
    | pageIn _ hfind halloc =>
      exact hset hQ rfl fun _ => allocFrame_heapTop (hok q Q hQ) halloc
  | @brk q newBrk _ _ hQ _ =>
    refine hset hQ rfl fun hq => ?_
    rw [hq] at hop
    exact absurd rfl (hop newBrk)
  | start hfree hnew =>
    have hq : p ≠ allocPid s := by
      intro heq
      rw [heq] at hP
      exact absurd (hP.symm.trans hfree) fun h => by cases h
    rw [setProc_proc_of_ne hq, hP] at hP'
    rw [Option.some.inj hP']
  | kill q => exact hkill rfl

/-! ## The books -/

/-- The books, by page number. -/
structure HeapBooks (P : Proc) (made : Finset ℕ) : Prop where
  base : (P.heapTop = 0 ∧ made = ∅) ∨ heapBaseVaddr ≤ P.heapTop
  pages : ∀ i, i ∈ made → ∃ r, i < P.vframes ∧ (P.vframe i).reserve = some r
    ∧ heapBaseVaddr ≤ r.start ∧ r.start < P.heapTop
  covered : ∀ page, pageOf heapBaseVaddr ≤ page → page < pageOf P.heapTop →
    ∃ i r, i ∈ made ∧ (P.vframe i).reserve = some r ∧ pageOf r.start = page

variable {made : Finset ℕ}

theorem HeapBooks.exact (h : HeapBooks P made) (hok : P.Ok) : HeapExact P made := by
  have haligned := hok.aligned
  have hdistinct : ∀ i j r r' vaddr, i < P.vframes → j < P.vframes → (P.vframe i).reserve = some r →
      (P.vframe j).reserve = some r' → r.covers vaddr = true → r'.covers vaddr = true → i = j := by
    intro i j r r' vaddr hi hj hr hr' hcovers hcovers'
    have hpage := (hok.table.covers_iff hi hr).mp hcovers
    have hpage' := (hok.table.covers_iff hj hr').mp hcovers'
    exact hok.table.distinct i j r r' hi hj hr hr' (hpage.symm.trans hpage')
  refine ⟨haligned, ?_, ?_, hdistinct⟩
  · intro i hi
    obtain ⟨r, hlt, hr, hlow, hhigh⟩ := h.pages i hi
    obtain ⟨hstart, hstop⟩ := hok.table.range i r hlt hr
    refine ⟨r, hlt, hr, hstart, hstop, hlow, ?_⟩
    rw [hstop]
    simp only [pageSize] at *
    omega
  · intro vaddr hlow hhigh
    have hbelow : pageOf vaddr < pageOf P.heapTop := by
      rw [pageOf, pageOf]
      simp only [pageSize] at *
      omega
    obtain ⟨i, r, hi, hr, hpage⟩ := h.covered (pageOf vaddr) (Nat.div_le_div_right hlow) hbelow
    obtain ⟨_, hlt, _⟩ := h.pages i hi
    have hcovers := (hok.table.covers_iff hlt hr).mpr hpage.symm
    refine ⟨i, ⟨hi, r, hr, hcovers⟩, ?_⟩
    rintro j ⟨hj, r', hr', hcovers'⟩
    obtain ⟨_, hlt', _⟩ := h.pages j hj
    exact hdistinct j i r' r vaddr hlt' hlt hr' hr hcovers' hcovers

/-- An operation that leaves `heap_top` and the reservations alone. -/
theorem HeapBooks.congr (h : HeapBooks P made) (htop : P'.heapTop = P.heapTop)
    (hres : ∀ i, i < P.vframes → i < P'.vframes ∧ (P'.vframe i).reserve = (P.vframe i).reserve) :
    HeapBooks P' made := by
  refine ⟨by rw [htop]; exact h.base, ?_, ?_⟩
  · intro i hi
    have ⟨r, hlt, hr, hrange⟩ := h.pages i hi
    have ⟨hlt', hr'⟩ := hres i hlt
    rw [htop]
    exact ⟨r, hlt', hr'.trans hr, hrange⟩
  · intro page hlow hhigh
    rw [htop] at hhigh
    have ⟨i, r, hi, hr, hpage⟩ := h.covered page hlow hhigh
    have ⟨_, hlt, _⟩ := h.pages i hi
    exact ⟨i, r, hi, (hres i hlt).2.trans hr, hpage⟩

/-- The first request. -/
theorem HeapBooks.first (h : HeapBooks P made) (hzero : P.heapTop = 0) :
    HeapBooks { P with heapTop := heapBaseVaddr } made := by
  have hempty : made = ∅ := by
    rcases h.base with h | h
    · exact h.2
    · rw [hzero] at h
      exact absurd h (by decide)
  rw [hempty]
  refine ⟨Or.inr le_rfl, fun i hi => absurd hi (Finset.notMem_empty i), ?_⟩
  intro page hlow hhigh
  exact absurd hhigh (Nat.not_lt.mpr hlow)

/-- A request that extends the heap by `k` pages. -/
theorem HeapBooks.grown {k : ℕ} (h : HeapBooks P made) (hbase : heapBaseVaddr ≤ P.heapTop)
    (hgrown : Grown P k P') :
    HeapBooks P' (made ∪ Finset.Ico P.vframes P'.vframes) := by
  have htop := hgrown.heapTop
  have hnum := hgrown.vframes
  refine ⟨Or.inr (by omega), ?_, ?_⟩
  · intro i hi
    rw [Finset.mem_union, Finset.mem_Ico] at hi
    rcases hi with hi | hi
    · have ⟨r, hlt, hr, hlow, hhigh⟩ := h.pages i hi
      refine ⟨r, by omega, ?_, hlow, by omega⟩
      rw [hgrown.old i hlt]
      exact hr
    · have hnew := hgrown.new (i - P.vframes) (by omega)
      rw [Nat.add_sub_cancel' hi.1] at hnew
      refine ⟨⟨P.heapTop + (i - P.vframes) * pageSize, _⟩, hi.2, by rw [hnew]; rfl, ?_, ?_⟩
      · show heapBaseVaddr ≤ P.heapTop + (i - P.vframes) * pageSize
        omega
      · show P.heapTop + (i - P.vframes) * pageSize < P'.heapTop
        rw [htop]
        have hlt : i - P.vframes < k := by omega
        have := Nat.mul_lt_mul_of_pos_right hlt (show 0 < pageSize by decide)
        omega
  · intro page hlow hhigh
    by_cases hold : page < pageOf P.heapTop
    · have ⟨i, r, hi, hr, hpage⟩ := h.covered page hlow hold
      have ⟨_, hlt, _⟩ := h.pages i hi
      refine ⟨i, r, Finset.mem_union_left _ hi, ?_, hpage⟩
      rw [hgrown.old i hlt]
      exact hr
    · rw [htop, pageOf_add_mul] at hhigh
      have hnew := hgrown.new (page - pageOf P.heapTop) (by omega)
      refine ⟨P.vframes + (page - pageOf P.heapTop), _, ?_, by rw [hnew]; rfl, ?_⟩
      · rw [Finset.mem_union, Finset.mem_Ico]
        exact Or.inr (by omega)
      · show pageOf (P.heapTop + (page - pageOf P.heapTop) * pageSize) = page
        rw [pageOf_add_mul]
        omega

/-! ## Runs -/

/-- A request `SYSCALL_BRK`. -/
theorem HeapBooks.brk {newBrk : ℕ} {ret : ℕ × Proc} (h : HeapBooks P made) (hok : P.Ok)
    (hfirst : newBrk = 0 ↔ P.heapTop = 0)
    (hfree : ∀ vaddr, P.heapTop ≤ vaddr → vaddr < newBrk → P.vspace (pageOf vaddr) = .empty)
    (hret : syscallBrk P newBrk = some ret) :
    HeapBooks ret.2 (made ∪ Finset.Ico P.vframes ret.2.vframes) ∧ P.heapTop ≤ ret.2.heapTop := by
  by_cases hzero : newBrk = 0
  · rw [hzero, syscallBrk_zero] at hret
    rw [← Option.some.inj hret]
    have htop := hfirst.mp hzero
    refine ⟨?_, ?_⟩
    · show HeapBooks _ (made ∪ Finset.Ico P.vframes P.vframes)
      rw [Finset.Ico_self, Finset.union_empty]
      exact h.first htop
    · rw [htop]
      exact Nat.zero_le _
  · have hbase : heapBaseVaddr ≤ P.heapTop := by
      rcases h.base with h | h
      · exact absurd (hfirst.mpr h.1) hzero
      · exact h
    have ⟨k, hgrown, _⟩ := syscallBrk_grown hok.aligned hok.word hzero hfree hret
    refine ⟨h.grown hbase hgrown, ?_⟩
    rw [hgrown.heapTop]
    exact Nat.le_add_right ..

theorem HeapStep.books {x y : Sys × Finset ℕ} (hok : x.1.ProcsOk)
    (hstep : HeapStep (BrkOk p) p x y) (hP : x.1.proc p = some P) (h : HeapBooks P x.2) :
    y.1.ProcsOk ∧ ∃ P', y.1.proc p = some P' ∧ HeapBooks P' y.2 ∧ P.heapTop ≤ P'.heapTop := by
  have ⟨op, Q, P', hop, hexec, hQ, hP', hmade⟩ := hstep
  rw [hP] at hQ
  rw [← Option.some.inj hQ] at hmade
  refine ⟨execVm_procsOk hok hexec, P', hP', ?_⟩
  by_cases hbrk : ∃ newBrk, op = .brk p newBrk
  · have ⟨newBrk, heq⟩ := hbrk
    rw [heq] at hop hexec hmade
    have ⟨Q, Q', hQ, hret, hset⟩ := withProc_eq_some hexec
    rw [hP] at hQ
    rw [← Option.some.inj hQ] at hret
    have ⟨ret, hret, hQ'⟩ := Option.map_eq_some_iff.mp hret
    rw [hset, setProc_proc_self] at hP'
    rw [← Option.some.inj hP'] at hmade ⊢
    rw [hmade, heapMade, if_pos rfl, ← hQ']
    have ⟨hfirst, hfree⟩ := hop rfl P hP
    exact h.brk (hok p P hP) hfirst hfree hret
  -- every other operation leaves the top and the reservations as they are
  · have hother : ∀ newBrk, op ≠ .brk p newBrk := fun newBrk heq => hbrk ⟨newBrk, heq⟩
    have htop := execVm_heapTop hok hexec hP hP' hother
    have hsame : y.2 = x.2 := by
      rw [hmade]
      cases op with
      | brk q newBrk =>
        have hq : q ≠ p := by
          intro heq
          exact hother newBrk (by rw [heq])
        rw [heapMade, if_neg hq]
      | _ => rfl
    have hbig := hok.big (VmRules.all_allows x.1 op) hexec
    rw [hsame]
    exact ⟨h.congr htop fun i hi => hbig.reserve_eq hok hP hP' hi, htop.ge⟩

theorem HeapStep.run_books {x y : Sys × Finset ℕ} (hok : x.1.ProcsOk)
    (hrun : ReflTransGen (HeapStep (BrkOk p) p) x y) (hP : x.1.proc p = some P)
    (h : HeapBooks P x.2) :
    y.1.ProcsOk ∧ ∃ P', y.1.proc p = some P' ∧ HeapBooks P' y.2 ∧ P.heapTop ≤ P'.heapTop := by
  induction hrun with
  | refl => exact ⟨hok, P, hP, h, le_rfl⟩
  | tail _ hstep ih =>
    have ⟨hok₁, P₁, hP₁, hbooks, hle⟩ := ih
    have ⟨hok₂, P₂, hP₂, hbooks', hle'⟩ := hstep.books hok₁ hP₁ hbooks
    exact ⟨hok₂, P₂, hP₂, hbooks', hle.trans hle'⟩

/-- The books of a new process. -/
theorem start_books {image : ℕ → Bool} {s₀ : Sys} (h : execVm s (.start image) = some s₀) :
    ∃ P, s₀.proc (allocPid s) = some P ∧ HeapBooks P ∅ := by
  rw [execVm, startProcess] at h
  split_ifs at h with hpid
  obtain ⟨P, hnew, heq⟩ := Option.map_eq_some_iff.mp h
  have htop := (newProcess_stackOk hnew).1.heapTop
  refine ⟨P, by rw [← heq, setProc_proc_self], Or.inl ⟨htop, rfl⟩, ?_, ?_⟩
  · exact fun i hi => absurd hi (Finset.notMem_empty i)
  · intro page _ hhigh
    rw [htop] at hhigh
    exact absurd hhigh (Nat.not_lt_zero page)

/-- From the start of a process on, in every run in which its requests `SYSCALL_BRK` have the
argument 0 in the first one only and extend the heap by free pages, its books are exact and
`heap_top` does not decrease. -/
theorem heapRun_exact {w : Swap} {file : Name → Page} {image : ℕ → Bool} {s₀ : Sys}
    {x y : Sys × Finset ℕ} (hboot : VmRun (fun _ _ => True) (bootSys w file) s)
    (hstart : execVm s (.start image) = some s₀)
    (hrun : ReflTransGen (HeapStep (BrkOk (allocPid s)) (allocPid s)) (s₀, ∅) x)
    (hrest : ReflTransGen (HeapStep (BrkOk (allocPid s)) (allocPid s)) x y)
    (hP : x.1.proc (allocPid s) = some P) (hP' : y.1.proc (allocPid s) = some P') :
    HeapExact P' y.2 ∧ P.heapTop ≤ P'.heapTop := by
  have hprocs := VmRun.procsOk bootSys_procsOk hboot
  have ⟨P₀, hP₀, hbooks₀⟩ := start_books hstart
  have ⟨hok, P₁, hP₁, hbooks, _⟩ :=
    HeapStep.run_books (execVm_procsOk hprocs hstart) hrun hP₀ hbooks₀
  rw [hP] at hP₁
  rw [← Option.some.inj hP₁] at hbooks
  have ⟨hok', P₂, hP₂, hbooks', hle⟩ := HeapStep.run_books hok hrest hP hbooks
  rw [hP'] at hP₂
  rw [← Option.some.inj hP₂] at hbooks' hle
  exact ⟨hbooks'.exact (hok' _ P' hP'), hle⟩

/-! A process that asks for its heap, for one page, and for its heap again. -/

theorem heapStep_first {ok : Sys → VmOp → Prop} (hop : ok (shellSys b startedProc) (.brk 0 0)) :
    HeapStep ok 0 (shellSys b startedProc, ∅) (shellSys b (warmProc stackPages stackPages), ∅) :=
  ⟨.brk 0 0, startedProc, _, hop, exec_brk_zero, shellSys_proc, shellSys_proc,
    show ∅ = heapMade 0 startedProc (warmProc stackPages stackPages) ∅ (.brk 0 0) by decide⟩

theorem heapStep_second {ok : Sys → VmOp → Prop}
    (hop : ok (shellSys b (warmProc stackPages stackPages)) (.brk 0 (shellTop 17))) :
    HeapStep ok 0 (shellSys b (warmProc stackPages stackPages), ∅)
      (shellSys b (warmProc 17 stackPages), {16}) :=
  ⟨.brk 0 (shellTop 17), warmProc stackPages stackPages, _, hop,
    exec_brk (n := 1) (by decide) (by decide), shellSys_proc, shellSys_proc,
    show {16} = heapMade 0 (warmProc stackPages stackPages) (warmProc 17 stackPages) ∅
      (.brk 0 (shellTop 17)) by decide⟩

/-- After the second request the books are exact. -/
theorem heapRun_exact_page :
    HeapExact (warmProc 17 stackPages) {16}
      ∧ (warmProc stackPages stackPages).heapTop ≤ (warmProc 17 stackPages).heapTop := by
  have hpid := allocPid_bootSys emptyBacking.swap emptyBacking.file
  have hfirst : BrkOk 0 (shellSys emptyBacking startedProc) (.brk 0 0) := by
    intro _ Q hQ
    rw [(shellSys_proc_eq hQ).2]
    exact ⟨⟨fun _ => rfl, fun _ => rfl⟩, fun _ _ h => absurd h (Nat.not_lt_zero _)⟩
  have hsecond : BrkOk 0 (shellSys emptyBacking (warmProc stackPages stackPages))
      (.brk 0 (shellTop 17)) := by
    intro _ Q hQ
    refine ⟨?_, warm_reservesOk_brk (n := 1) (by decide) Q hQ⟩
    rw [(shellSys_proc_eq hQ).2]
    exact ⟨fun h => absurd h (by decide), fun h => absurd h (by decide)⟩
  refine heapRun_exact ReflTransGen.refl
    (exec_start emptyBacking.swap emptyBacking.file)
    (ReflTransGen.single
      (b := (shellSys emptyBacking (warmProc stackPages stackPages), ∅)) ?_)
    (ReflTransGen.single
      (b := (shellSys emptyBacking (warmProc 17 stackPages), {16})) ?_) ?_ ?_
  · rw [hpid]
    exact heapStep_first hfirst
  · rw [hpid]
    exact heapStep_second hsecond
  · rw [hpid]
    exact shellSys_proc
  · rw [hpid]
    exact shellSys_proc

/-- A second request with the argument 0 moves `heap_top` back, below the page that was made. -/
theorem brk_zero_resets_heap :
    let P' := { warmProc 17 stackPages with heapTop := heapBaseVaddr }
    ReflTransGen (HeapStep (fun _ _ => True) 0) (shellSys emptyBacking startedProc, ∅)
        (shellSys emptyBacking (warmProc 17 stackPages), {16})
      ∧ HeapStep (fun _ _ => True) 0 (shellSys emptyBacking (warmProc 17 stackPages), {16})
          (shellSys emptyBacking P', {16})
      ∧ P'.heapTop < (warmProc 17 stackPages).heapTop ∧ ¬ HeapExact P' {16} := by
  refine ⟨?_, ?_, by decide, ?_⟩
  · exact (ReflTransGen.single (heapStep_first trivial)).tail (heapStep_second trivial)
  · have hexec : execVm (shellSys emptyBacking (warmProc 17 stackPages)) (.brk 0 0)
        = some (shellSys emptyBacking { warmProc 17 stackPages with heapTop := heapBaseVaddr }) :=
      withProc_shell rfl
    exact ⟨.brk 0 0, _, _, trivial, hexec, shellSys_proc, shellSys_proc, by decide⟩
  · intro h
    have ⟨r, _, _, _, hstop, hlow, hhigh⟩ := h.pages 16 (Finset.mem_singleton_self 16)
    have hhigh : r.stop ≤ heapBaseVaddr := hhigh
    simp only [pageSize, heapBaseVaddr] at *
    omega

end SeL4Sys

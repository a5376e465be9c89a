import SeL4Sys.VmSteps

/-!
# Processes in order

A new process is in order, every small step keeps it so, and so all processes are in order in every
state that a run reaches.
-/

namespace SeL4Sys

open Function Relation

variable {R : VmRules} {s s' : Sys} {p i : ℕ} {P P' : Proc} {b : Backing} {r : Backing × Proc}

/-! ## Accesses -/

namespace Proc

/-- The status bits of a mapped page change, and the contents of frames. -/
theorem Table.touch (h : P.Table) {page f : ℕ} {a d a' d' : Bool}
    (hmap : P.vspace page = .mapped f a d) {frame : ℕ → Page} :
    Table { P with
      vspace := update P.vspace page (.mapped f a' d')
      frame := frame } := by
  have hself : update P.vspace page (.mapped f a' d') page = .mapped f a' d' :=
    update_self ..
  have hother : ∀ q, q ≠ page → update P.vspace page (.mapped f a' d') q = P.vspace q :=
    fun q hq => update_of_ne hq ..
  -- a page has a frame if and only if it had it before
  have hold : ∀ q g a₁ d₁, update P.vspace page (.mapped f a' d') q = .mapped g a₁ d₁ →
      ∃ a₀ d₀, P.vspace q = .mapped g a₀ d₀ := by
    intro q g a₁ d₁ hq
    by_cases heq : q = page
    · rw [heq, hself] at hq
      cases hq
      exact ⟨a, d, by rw [heq, hmap]⟩
    · rw [hother q heq] at hq
      exact ⟨a₁, d₁, hq⟩
  refine ⟨h.within, h.range, ?_, ?_, h.distinct, ?_, ?_, ?_⟩
  · intro i hi
    have ⟨r, g, a₁, d₁, hr, hmap₁⟩ := h.resident i hi
    by_cases heq : pageOf r.start = page
    · refine ⟨r, f, a', d', hr, ?_⟩
      rw [heq]
      exact hself
    · exact ⟨r, g, a₁, d₁, hr, (hother _ heq).trans hmap₁⟩
  · intro i r hi hram hr
    have hres := h.absent i r hi hram hr
    have hne : pageOf r.start ≠ page := by
      intro heq
      rw [heq, hmap] at hres
      cases hres
    exact (hother _ hne).trans hres
  · intro q g a₁ d₁ hq
    have ⟨a₀, d₀, hq₀⟩ := hold q g a₁ d₁ hq
    exact h.owner q g a₀ d₀ hq₀
  · intro q g a₁ d₁ hq
    have ⟨a₀, d₀, hq₀⟩ := hold q g a₁ d₁ hq
    exact h.obtained q g a₀ d₀ hq₀
  · intro q q' g a₁ d₁ a₂ d₂ hq hq'
    have ⟨a₀, d₀, hq₀⟩ := hold q g a₁ d₁ hq
    have ⟨a₃, d₃, hq₃⟩ := hold q' g a₂ d₂ hq'
    exact h.single q q' g a₀ d₀ a₃ d₃ hq₀ hq₃

theorem Ok.reservePage (h : P.Ok) {vaddr : ℕ} (haligned : vaddr % pageSize = 0) :
    (P.reservePage vaddr).Ok where
  table := h.table.reservePage haligned
  aligned := h.aligned
  word := h.word
  replacer := by
    have ⟨r, hr, hlt⟩ := h.replacer
    exact ⟨r, hr, Nat.lt_succ_of_lt hlt⟩
  someone := by
    have ⟨i, hi⟩ := h.someone
    exact ⟨i, by rw [reservePage_inRAM h.table.within]; exact hi⟩

end Proc

/-! ## A new process -/

/-- A round of the loop of `vspace_new_sized_stack` reserves a page and maps a new frame there. -/
theorem stackLoop_succ {n cur : ℕ} : stackLoop (n + 1) cur P
    = if P.vspace (pageOf cur) = .empty then
        stackLoop n (cur + pageSize) ((P.reservePage cur).allotted P.vframes ⟨cur, cur + pageSize⟩)
      else none := by
  by_cases hempty : P.vspace (pageOf cur) = .empty
  · rw [if_pos hempty, stackLoop]
    simp only [reserveRangeAt, if_pos hempty, Option.bind_eq_bind, Option.bind_some]
    congr 1
    simp only [Proc.allotted, Proc.reservePage, reserveRangeAt, if_pos hempty, Proc.push,
      Proc.newPagesAtVaddr, Proc.setVframe, update_self, update_idem, if_true]
  · rw [if_neg hempty, stackLoop]
    simp only [reserveRangeAt, if_neg hempty, Option.bind_eq_bind, Option.bind_none]

/-- What each round keeps holds of the process with its stack. -/
theorem stackLoop_induction {I : Proc → Prop} {n cur : ℕ} (h : I P)
    (haligned : cur % pageSize = 0)
    (hstep : ∀ P vaddr, I P → vaddr % pageSize = 0 → P.vspace (pageOf vaddr) = .empty →
      I ((P.reservePage vaddr).allotted P.vframes ⟨vaddr, vaddr + pageSize⟩))
    (hloop : stackLoop n cur P = some P') : I P' := by
  induction n generalizing P cur with
  | zero =>
    rw [← Option.some.inj hloop]
    exact h
  | succ n ih =>
    rw [stackLoop_succ] at hloop
    split_ifs at hloop with hempty
    have hnext : (cur + pageSize) % pageSize = 0 := by
      simp only [pageSize] at haligned ⊢
      omega
    exact ih (hstep P cur h haligned hempty) hnext hloop

theorem reservePage_reserve {vaddr : ℕ} (hempty : P.vspace (pageOf vaddr) = .empty) :
    ((P.reservePage vaddr).vframe P.vframes).reserve = some ⟨vaddr, vaddr + pageSize⟩ := by
  rw [Proc.reservePage_vframe_self, Proc.reserveRangeAt_empty hempty]
  rfl

theorem emptyProc_table (image : ℕ → Bool) : (emptyProc (imageSpace image)).Table := by
  have hnone : ∀ page f a d, imageSpace image page ≠ .mapped f a d := by
    intro page f a d
    rw [imageSpace]
    split_ifs
    · exact fun h => by cases h
    · exact fun h => by cases h
  refine ⟨?_, ?_, ?_, ?_, ?_, ?_, ?_, ?_⟩
  · exact fun i hi => by cases hi
  · exact fun i r hi => absurd hi (Nat.not_lt_zero i)
  · exact fun i hi => by cases hi
  · exact fun i r hi => absurd hi (Nat.not_lt_zero i)
  · exact fun i j r r' hi => absurd hi (Nat.not_lt_zero i)
  · exact fun page f a d hmap => absurd hmap (hnone page f a d)
  · exact fun page f a d hmap => absurd hmap (hnone page f a d)
  · exact fun page page' f a d a' d' hmap => absurd hmap (hnone page f a d)

/-- What the loop for the stack knows of the process. -/
structure StackOk (P : Proc) : Prop where
  table : P.Table
  heapTop : P.heapTop = 0
  inRAM : ∀ i, i < P.vframes → (P.vframe i).inRAM = true
  reserve : ∀ i, i < P.vframes → (P.vframe i).reserve ≠ none
  pagefile : ∀ i, (P.vframe i).pagefile = none
  used : P.pframesUsed = P.vframes

theorem StackOk.step (h : StackOk P) {vaddr : ℕ} (haligned : vaddr % pageSize = 0)
    (hempty : P.vspace (pageOf vaddr) = .empty) :
    StackOk ((P.reservePage vaddr).allotted P.vframes ⟨vaddr, vaddr + pageSize⟩) where
  table := (h.table.reservePage haligned).allotted (Nat.lt_succ_self _) (reservePage_reserve hempty)
  heapTop := Proc.allotted_heapTop.trans h.heapTop
  inRAM i hi := by
    rw [Proc.allotted_vframes, Proc.reservePage_vframes] at hi
    rw [Proc.allotted_inRAM, Proc.reservePage_inRAM h.table.within]
    by_cases hin : i = P.vframes
    · exact Or.inl hin
    · exact Or.inr (h.inRAM i (by omega))
  reserve i hi := by
    rw [Proc.allotted_vframes, Proc.reservePage_vframes] at hi
    rw [Proc.allotted_reserve]
    by_cases hin : i = P.vframes
    · rw [hin, reservePage_reserve hempty]
      exact fun h => by cases h
    · rw [Proc.reservePage_vframe_of_ne hin]
      exact h.reserve i (by omega)
  pagefile i := by
    rw [Proc.allotted_pagefile]
    by_cases hin : i = P.vframes
    · rw [hin, Proc.reservePage_vframe_self]
      rfl
    · rw [Proc.reservePage_vframe_of_ne hin]
      exact h.pagefile i
  used := by
    rw [Proc.allotted_pframesUsed, Proc.allotted_vframes, Proc.reservePage_vframes]
    show P.pframesUsed + 1 = _
    rw [h.used]

theorem stackLoop_vframes {n cur : ℕ} (hloop : stackLoop n cur P = some P') :
    P'.vframes = P.vframes + n := by
  induction n generalizing P cur with
  | zero => rw [← Option.some.inj hloop, Nat.add_zero]
  | succ n ih =>
    rw [stackLoop_succ] at hloop
    split_ifs at hloop
    rw [ih hloop, Proc.allotted_vframes, Proc.reservePage_vframes]
    omega

theorem newProcess_stackOk {image : ℕ → Bool} (h : newProcess (imageSpace image) = some P) :
    StackOk P ∧ P.vframes = stackPages ∧ P.replacer = some (stackPages - 1) := by
  have ⟨Q, hloop, heq⟩ := Option.map_eq_some_iff.mp h
  have hempty : StackOk (emptyProc (imageSpace image)) := by
    refine ⟨emptyProc_table image, rfl, ?_, ?_, fun _ => rfl, rfl⟩
    · exact fun i hi => absurd hi (Nat.not_lt_zero i)
    · exact fun i hi => absurd hi (Nat.not_lt_zero i)
  have hQ : StackOk Q :=
    stackLoop_induction hempty (by decide) (fun P vaddr hP ha he => hP.step ha he) hloop
  have hnum : Q.vframes = stackPages := by
    rw [stackLoop_vframes hloop]
    rfl
  rw [← heq]
  refine ⟨⟨hQ.table.congr (fun _ => rfl) (fun _ => rfl) rfl rfl le_rfl, hQ.heapTop, hQ.inRAM,
    hQ.reserve, hQ.pagefile, hQ.used⟩, hnum, ?_⟩
  show Q.head = _
  rw [Proc.head, hnum, if_neg (by decide)]

theorem newProcess_ok {image : ℕ → Bool} (h : newProcess (imageSpace image) = some P) : P.Ok := by
  have ⟨hstack, hnum, hrep⟩ := newProcess_stackOk h
  refine ⟨hstack.table, ?_, ?_, ⟨_, hrep, ?_⟩, ⟨0, hstack.inRAM 0 ?_⟩⟩
  · rw [hstack.heapTop]
    rfl
  · rw [hstack.heapTop]
    decide
  · rw [hnum]
    decide
  · rw [hnum]
    decide

/-! ## Runs -/

/-- Every process is in order. -/
def Sys.ProcsOk (s : Sys) : Prop := ∀ p P, s.proc p = some P → P.Ok

theorem ProcStep.ok (hok : P.Ok) (h : ProcStep R p (b, P) r) : r.2.Ok := by
  cases h with
  | load hmap =>
    exact ⟨hok.table.touch hmap, hok.aligned, hok.word, hok.replacer, hok.someone⟩
  | store byte hmap _ =>
    exact ⟨hok.table.touch hmap, hok.aligned, hok.word, hok.replacer, hok.someone⟩
  | project byte hmap _ =>
    exact ⟨hok.table.congr (fun _ => rfl) (fun _ => rfl) rfl rfl le_rfl, hok.aligned, hok.word,
      hok.replacer, hok.someone⟩
  | heap htop hword =>
    exact ⟨hok.table.congr (fun _ => rfl) (fun _ => rfl) rfl rfl le_rfl, htop, hword, hok.replacer,
      hok.someone⟩
  | reserve haligned => exact hok.reservePage haligned
  | @alloc _ _ i r hi _ halloc =>
    cases allocFrame_allocated hok halloc with
    | new res hr hnew => exact hok.allotted hi hr
    | replaced res rv v f P₁ d hr hfull hpicks => exact hpicks.ok hok hi hr

/-- A VFrame stays in the list and keeps its reservation. -/
theorem ProcStep.reserve_eq (hok : P.Ok) (h : ProcStep R p (b, P) r) (hi : i < P.vframes) :
    i < r.2.vframes ∧ (r.2.vframe i).reserve = (P.vframe i).reserve := by
  cases h with
  | load _ => exact ⟨hi, rfl⟩
  | store _ _ _ => exact ⟨hi, rfl⟩
  | project _ _ _ => exact ⟨hi, rfl⟩
  | heap _ _ => exact ⟨hi, rfl⟩
  | reserve _ =>
    refine ⟨Nat.lt_succ_of_lt hi, ?_⟩
    show ((P.reservePage _).vframe i).reserve = _
    rw [Proc.reservePage_vframe_of_ne hi.ne]
  | @alloc _ _ j r _ _ halloc =>
    cases allocFrame_allocated hok halloc with
    | new res hr hnew => exact ⟨Proc.allotted_vframes.symm ▸ hi, Proc.allotted_reserve i⟩
    | replaced res rv v f P₁ d hr hfull hpicks => exact ⟨hpicks.replaced_vframes.symm ▸ hi, hpicks.replaced_reserve i⟩

theorem procSteps_reserve_eq (hok : P.Ok)
    (h : ReflTransGen (ProcStep R p) (b, P) r) (hi : i < P.vframes) :
    r.2.Ok ∧ i < r.2.vframes ∧ (r.2.vframe i).reserve = (P.vframe i).reserve := by
  induction h with
  | refl => exact ⟨hok, hi, rfl⟩
  | tail _ hstep ih =>
    have hnext := hstep.reserve_eq ih.1 ih.2.1
    exact ⟨hstep.ok ih.1, hnext.1, hnext.2.trans ih.2.2⟩

theorem syscallKill_proc {q : ℕ} :
    (syscallKill s p).proc q = if q = p then none else s.proc q := by
  rw [syscallKill]
  match h : s.proc p with
  | none =>
    by_cases hq : q = p
    · rw [if_pos hq, hq, h]
    · rw [if_neg hq]
  | some P =>
    by_cases hq : q = p
    · rw [if_pos hq, hq]
      exact update_self ..
    · rw [if_neg hq]
      exact update_of_ne hq ..

/-- A property of single processes that every new process has and every small step keeps holds of
all processes after a small step. -/
theorem VmSmall.forall_proc {I : Proc → Prop} (hall : ∀ p P, s.proc p = some P → I P)
    (hnew : ∀ image P, newProcess (imageSpace image) = some P → I P)
    (hstep : ∀ p P r, s.proc p = some P → ProcStep R p (s.toBacking, P) r → I r.2)
    (h : VmSmall R s s') : ∀ p P, s'.proc p = some P → I P := by
  intro q Q hQ
  cases h with
  | @proc p P r hp hproc =>
    by_cases hq : q = p
    · rw [hq, setProc_proc_self] at hQ
      rw [← Option.some.inj hQ]
      exact hstep p P r hp hproc
    · rw [setProc_proc_of_ne hq] at hQ
      exact hall q Q hQ
  | kill p =>
    rw [syscallKill_proc] at hQ
    split_ifs at hQ
    exact hall q Q hQ
  | @start p P image hp hproc =>
    by_cases hq : q = p
    · rw [hq, setProc_proc_self] at hQ
      rw [← Option.some.inj hQ]
      exact hnew image P hproc
    · rw [setProc_proc_of_ne hq] at hQ
      exact hall q Q hQ

theorem VmSmall.procsOk (hok : s.ProcsOk) (h : VmSmall R s s') : s'.ProcsOk :=
  h.forall_proc hok (fun _ _ => newProcess_ok) fun p P _ hP hstep => hstep.ok (hok p P hP)

theorem VmSmall.run_procsOk (hok : s.ProcsOk) (h : ReflTransGen (VmSmall R) s s') :
    s'.ProcsOk := by
  induction h with
  | refl => exact hok
  | tail _ hstep ih => exact hstep.procsOk ih

theorem Sys.ProcsOk.big {op : VmOp} (hok : s.ProcsOk) (hallow : R.Allows s op)
    (h : execVm s op = some s') : VmBig R s s' :=
  execVm_big (fun p P hP => (hok p P hP).aligned) hallow h

/-- While a process lives its VFrames keep their reservations. -/
theorem VmBig.reserve_eq (hok : s.ProcsOk) (h : VmBig R s s') (hP : s.proc p = some P)
    (hP' : s'.proc p = some P') (hi : i < P.vframes) :
    i < P'.vframes ∧ (P'.vframe i).reserve = (P.vframe i).reserve := by
  cases h with
  | @proc q Q r hQ hsteps =>
    by_cases hq : p = q
    · rw [hq, setProc_proc_self] at hP'
      rw [hq, hQ] at hP
      cases hP
      cases hP'
      exact (procSteps_reserve_eq (hok q P hQ) hsteps hi).2
    · rw [setProc_proc_of_ne hq, hP] at hP'
      cases hP'
      exact ⟨hi, rfl⟩
  | kill q =>
    rw [syscallKill_proc] at hP'
    split_ifs at hP'
    rw [hP] at hP'
    cases hP'
    exact ⟨hi, rfl⟩
  | @start q Q image hQ hnew =>
    have hq : p ≠ q := by
      intro heq
      rw [heq, hQ] at hP
      cases hP
    rw [setProc_proc_of_ne hq, hP] at hP'
    cases hP'
    exact ⟨hi, rfl⟩

theorem VmRules.all_allows (s : Sys) (op : VmOp) : VmRules.all.Allows s op := by
  cases op with
  | fault p vaddr ip => exact fun _ _ => ⟨fun _ => trivial, fun _ _ _ => trivial⟩
  | write p vaddr byte => exact fun _ _ => trivial
  | project p vaddr byte => exact fun _ _ => trivial
  | _ => trivial

theorem execVm_procsOk {op : VmOp} (hok : s.ProcsOk) (h : execVm s op = some s') : s'.ProcsOk :=
  VmSmall.run_procsOk hok (hok.big (VmRules.all_allows s op) h).small

/-- A run that keeps to the rules is a sequence of small steps that do. -/
theorem VmRun.small {ok : Sys → VmOp → Prop} (hrule : ∀ s op, ok s op → R.Allows s op)
    (hok : s.ProcsOk) (h : VmRun ok s s') :
    ReflTransGen (VmSmall R) s s' ∧ s'.ProcsOk := by
  induction h with
  | refl => exact ⟨ReflTransGen.refl, hok⟩
  | tail _ hstep ih =>
    have ⟨op, hop, hexec⟩ := hstep
    have hsmall := (ih.2.big (hrule _ op hop) hexec).small
    exact ⟨ih.1.trans hsmall, VmSmall.run_procsOk ih.2 hsmall⟩

theorem VmRun.procsOk {ok : Sys → VmOp → Prop} (hok : s.ProcsOk) (h : VmRun ok s s') : s'.ProcsOk :=
  (VmRun.small (R := VmRules.all) (fun s op _ => VmRules.all_allows s op) hok h).2

theorem bootSys_procsOk {w : Swap} {file : Name → Page} : (bootSys w file).ProcsOk :=
  fun _ _ h => by cases h

end SeL4Sys

import SeL4Sys.PageReplace

/-!
# The steps of a run

An operation of the system is a sequence of small steps on one process: an access, a store of the
server, a new value of `heap_top`, a page that is reserved, a call of `alloc_frame`; or a process
ends or starts. What holds of every small step holds of every operation and of every run. Rules say
which stores and which calls of `alloc_frame` are allowed.
-/

namespace SeL4Sys

open Loop Function Relation

/-- Which stores of a process, which stores of the server and which calls of `alloc_frame` are
allowed, by process number, process, and address or VFrame. -/
structure VmRules where
  store : ℕ → Proc → ℕ → Prop
  project : ℕ → Proc → ℕ → Prop
  alloc : ℕ → Proc → ℕ → Prop

/-- Everything is allowed. -/
def VmRules.all : VmRules := ⟨fun _ _ _ => True, fun _ _ _ => True, fun _ _ _ => True⟩

/-- A small step of process `p`, with the pagefiles. -/
inductive ProcStep (R : VmRules) (p : ℕ) : Backing × Proc → Backing × Proc → Prop
  | load {b : Backing} {P : Proc} {page f : ℕ} {a d : Bool} (h : P.vspace page = .mapped f a d) :
    ProcStep R p (b, P)
      (b, { P with vspace := update P.vspace page (.mapped f true d) })
  | store {b : Backing} {P : Proc} {vaddr f : ℕ} {a d : Bool} (byte : UInt8)
      (h : P.vspace (pageOf vaddr) = .mapped f a d) (hrule : R.store p P vaddr) :
    ProcStep R p (b, P)
      (b, { P with
            vspace := update P.vspace (pageOf vaddr) (.mapped f true true)
            frame := storeByte P.frame f vaddr byte })
  | project {b : Backing} {P : Proc} {vaddr f : ℕ} {a d : Bool} (byte : UInt8)
      (h : P.vspace (pageOf vaddr) = .mapped f a d) (hrule : R.project p P vaddr) :
    ProcStep R p (b, P) (b, { P with frame := storeByte P.frame f vaddr byte })
  | heap {b : Backing} {P : Proc} {top : ℕ} (h : top % pageSize = 0) (hword : top < wordNum) :
    ProcStep R p (b, P) (b, { P with heapTop := top })
  | reserve {b : Backing} {P : Proc} {vaddr : ℕ} (h : vaddr % pageSize = 0) :
    ProcStep R p (b, P) (b, P.reservePage vaddr)
  | alloc {b : Backing} {P : Proc} {i : ℕ} {r : Backing × Proc} (hi : i < P.vframes)
      (hrule : R.alloc p P i) (h : allocFrame b P i = some r) : ProcStep R p (b, P) r

/-- A small step of the system. -/
inductive VmSmall (R : VmRules) (s : Sys) : Sys → Prop
  | proc {p : ℕ} {P : Proc} {r : Backing × Proc} (hp : s.proc p = some P)
      (h : ProcStep R p (s.toBacking, P) r) : VmSmall R s (s.setProc p r)
  | kill (p : ℕ) : VmSmall R s (syscallKill s p)
  | start {p : ℕ} {P : Proc} {image : ℕ → Bool} (hp : s.proc p = none)
      (h : newProcess (imageSpace image) = some P) : VmSmall R s (s.setProc p (s.toBacking, P))

/-- An operation of the system: small steps of one process, or a process ends or starts. -/
inductive VmBig (R : VmRules) (s : Sys) : Sys → Prop
  | proc {p : ℕ} {P : Proc} {r : Backing × Proc} (hp : s.proc p = some P)
      (h : ReflTransGen (ProcStep R p) (s.toBacking, P) r) : VmBig R s (s.setProc p r)
  | kill (p : ℕ) : VmBig R s (syscallKill s p)
  | start {p : ℕ} {P : Proc} {image : ℕ → Bool} (hp : s.proc p = none)
      (h : newProcess (imageSpace image) = some P) : VmBig R s (s.setProc p (s.toBacking, P))

/-- What an operation does under the rules. -/
def VmRules.Allows (R : VmRules) (s : Sys) : VmOp → Prop
  | .write p vaddr _ => ∀ P, s.proc p = some P → R.store p P vaddr
  | .project p vaddr _ => ∀ P, s.proc p = some P → R.project p P vaddr
  | .fault p vaddr _ => ∀ P, s.proc p = some P →
      (P.expands vaddr = true → R.alloc p (P.reservePage (pageOf vaddr * pageSize)) P.vframes)
        ∧ (P.expands vaddr = false → ∀ i, P.findVframe vaddr = some (some i) → R.alloc p P i)
  | _ => True

variable {R : VmRules} {s s' : Sys} {p : ℕ} {P : Proc} {b : Backing} {r r' : Backing × Proc}

/-! ## Small steps of one process -/

@[simp]
theorem setProc_proc_self : (s.setProc p r).proc p = some r.2 := update_self ..

theorem setProc_proc_of_ne {q : ℕ} (h : q ≠ p) : (s.setProc p r).proc q = s.proc q :=
  update_of_ne h ..

@[simp]
theorem setProc_toBacking : (s.setProc p r).toBacking = r.1 := rfl

@[simp]
theorem setProc_setProc : (s.setProc p r).setProc p r' = s.setProc p r' := by
  simp [Sys.setProc]

theorem setProc_self (hp : s.proc p = some P) : s.setProc p (s.toBacking, P) = s := by
  rw [Sys.setProc, ← hp, update_eq_self]

/-- Small steps of a process are small steps of the system. -/
theorem small_of_procSteps (hp : s.proc p = some P)
    (h : ReflTransGen (ProcStep R p) (s.toBacking, P) r) :
    ReflTransGen (VmSmall R) s (s.setProc p r) := by
  induction h with
  | refl =>
    rw [setProc_self hp]
  | tail _ hstep ih =>
    have hsmall := VmSmall.proc (setProc_proc_self (s := s)) hstep
    rw [setProc_setProc] at hsmall
    exact ih.tail hsmall

theorem VmBig.small (h : VmBig R s s') : ReflTransGen (VmSmall R) s s' := by
  cases h with
  | proc hp h => exact small_of_procSteps hp h
  | kill p => exact ReflTransGen.single (VmSmall.kill p)
  | start hp h => exact ReflTransGen.single (VmSmall.start hp h)

theorem grow_aligned (haligned : P.heapTop % pageSize = 0) : P.grow.heapTop % pageSize = 0 := by
  show (P.heapTop + pageSize) % wordNum % pageSize = 0
  rw [wordNum, pageSize, Nat.mod_mod_of_dvd _ (by decide)]
  simp only [pageSize] at haligned
  omega

theorem procSteps_grow (haligned : P.heapTop % pageSize = 0) :
    ReflTransGen (ProcStep R p) (b, P) (b, P.grow) := by
  have hreserve : ProcStep R p (b, P) (b, P.reservePage P.heapTop) := ProcStep.reserve haligned
  exact (ReflTransGen.single hreserve).tail
    (ProcStep.heap (grow_aligned haligned) (Nat.mod_lt _ (by decide)))

theorem procSteps_brkLoop {newBrk fuel : ℕ} {P' : Proc} (haligned : P.heapTop % pageSize = 0)
    (h : brkLoop newBrk fuel P = some P') :
    ReflTransGen (ProcStep R p) (b, P) (b, P') := by
  induction fuel generalizing P with
  | zero => simp [brkLoop] at h
  | succ fuel ih =>
    rw [brkLoop] at h
    split_ifs at h with hlt
    · exact (procSteps_grow haligned).trans (ih (grow_aligned haligned) h)
    · rw [Option.some.inj h]

theorem procSteps_brk {newBrk : ℕ} {ret : ℕ × Proc} (haligned : P.heapTop % pageSize = 0)
    (h : syscallBrk P newBrk = some ret) :
    ReflTransGen (ProcStep R p) (b, P) (b, ret.2) := by
  rw [syscallBrk] at h
  split_ifs at h with hzero hle
  · rw [← Option.some.inj h]
    exact ReflTransGen.single (ProcStep.heap (by decide) (by decide))
  · have ⟨P', hloop, heq⟩ := Option.map_eq_some_iff.mp h
    rw [← heq]
    exact procSteps_brkLoop haligned hloop

theorem procSteps_expandStack {vaddr : ℕ}
    (hrule : R.alloc p (P.reservePage (pageOf vaddr * pageSize)) P.vframes)
    (h : expandStack b P vaddr = some r) :
    ReflTransGen (ProcStep R p) (b, P) r := by
  have hreserve : ProcStep R p (b, P) (b, P.reservePage (pageOf vaddr * pageSize)) :=
    ProcStep.reserve (Nat.mul_mod_left ..)
  exact (ReflTransGen.single hreserve).tail (ProcStep.alloc (Nat.lt_succ_self _) hrule h)

/-! ## What `handle_vmfault` does -/

theorem findLoop_lt {vaddr n i : ℕ} (h : P.findLoop vaddr n = some (some i)) : i < n := by
  induction n with
  | zero => simp [Proc.findLoop] at h
  | succ n ih =>
    rw [Proc.findLoop] at h
    split at h
    · cases h
    · split_ifs at h
      · have := Option.some.inj (Option.some.inj h)
        omega
      · have := ih h
        omega

theorem findVframe_lt {vaddr i : ℕ} (h : P.findVframe vaddr = some (some i)) : i < P.vframes :=
  findLoop_lt h

/-- The VFrame that is found covers the address. -/
theorem findVframe_covers {vaddr i : ℕ} (h : P.findVframe vaddr = some (some i)) :
    ∃ r, (P.vframe i).reserve = some r ∧ r.covers vaddr = true := by
  rw [Proc.findVframe] at h
  generalize P.vframes = n at h
  induction n with
  | zero => simp [Proc.findLoop] at h
  | succ n ih =>
    rw [Proc.findLoop] at h
    split at h
    · cases h
    · rename_i r hr
      split_ifs at h with hcovers
      · have heq := Option.some.inj (Option.some.inj h)
        rw [← heq]
        exact ⟨r, hr, hcovers⟩
      · exact ih h

/-- When no VFrame is found, every VFrame has a reservation and covers another page. -/
theorem findVframe_none {vaddr : ℕ} (h : P.findVframe vaddr = some none) {i : ℕ}
    (hi : i < P.vframes) : ∃ r, (P.vframe i).reserve = some r ∧ r.covers vaddr = false := by
  rw [Proc.findVframe] at h
  generalize P.vframes = n at h hi
  induction n with
  | zero => omega
  | succ n ih =>
    rw [Proc.findLoop] at h
    split at h
    · cases h
    · rename_i r hr
      split_ifs at h with hcovers
      · cases Option.some.inj h
      · by_cases hin : i = n
        · rw [hin]
          exact ⟨r, hr, by simpa using hcovers⟩
        · exact ih h (by omega)

/-- The search returns when every VFrame has a reservation. -/
theorem findVframe_isSome (vaddr : ℕ) (h : ∀ i, i < P.vframes → (P.vframe i).reserve ≠ none) :
    ∃ vframe, P.findVframe vaddr = some vframe := by
  rw [Proc.findVframe]
  generalize P.vframes = n at h
  induction n with
  | zero => exact ⟨none, rfl⟩
  | succ n ih =>
    have ⟨r, hr⟩ := Option.ne_none_iff_exists'.mp (h n (Nat.lt_succ_self n))
    rw [Proc.findLoop, hr]
    by_cases hcovers : r.covers vaddr = true
    · exact ⟨some n, by simp [hcovers]⟩
    · have ⟨vframe, hrest⟩ := ih fun i hi => h i (by omega)
      exact ⟨vframe, by simp [hcovers, hrest]⟩

/-- The ways in which `handle_vmfault` handles a VM fault. -/
inductive Handled (s : Sys) (p vaddr ip : ℕ) (P : Proc) : Sys → Bool → Prop
  | expand {r : Backing × Proc} (hrange : P.expands vaddr = true)
      (h : expandStack s.toBacking P vaddr = some r) : Handled s p vaddr ip P (s.setProc p r) true
  | kill (hrange : P.expands vaddr = false) (hnone : P.findVframe vaddr = some none)
      (hip : ip = 0) : Handled s p vaddr ip P (syscallKill s p) false
  | leave (hrange : P.expands vaddr = false) (hnone : P.findVframe vaddr = some none)
      (hip : ip ≠ 0) : Handled s p vaddr ip P s false
  | pageIn {i : ℕ} {r : Backing × Proc} (hrange : P.expands vaddr = false)
      (hfind : P.findVframe vaddr = some (some i)) (h : allocFrame s.toBacking P i = some r) :
      Handled s p vaddr ip P (s.setProc p r) true

theorem handleVmfault_vm {vaddr ip : ℕ} {resume resume' : Bool}
    (h : handleVmfault s p (.vm vaddr ip) resume = some (s', resume')) :
    ∃ P, s.proc p = some P ∧ Handled s p vaddr ip P s' resume' := by
  simp only [handleVmfault, Option.bind_eq_bind, Option.bind_eq_some_iff] at h
  have ⟨P, hP, vframe, hfind, hrest⟩ := h
  refine ⟨P, hP, ?_⟩
  split_ifs at hrest with hrange hip
  · have ⟨r, hr, heq⟩ := Option.map_eq_some_iff.mp hrest
    cases heq
    exact Handled.expand hrange hr
  all_goals
    have hrange : P.expands vaddr = false := by simpa using hrange
    cases vframe with
    | none =>
      cases Option.some.inj hrest
      first
        | exact Handled.kill hrange hfind hip
        | exact Handled.leave hrange hfind hip
    | some i =>
      have ⟨r, hr, heq⟩ := Option.map_eq_some_iff.mp hrest
      cases heq
      exact Handled.pageIn hrange hfind hr

theorem execVm_expand {vaddr ip : ℕ} (hP : s.proc p = some P) {vframe : Option ℕ}
    (hfind : P.findVframe vaddr = some vframe) (hrange : P.expands vaddr = true)
    (h : expandStack s.toBacking P vaddr = some r) :
    execVm s (.fault p vaddr ip) = some (s.setProc p r) := by
  simp [execVm, handleVmfault, hP, hfind, hrange, h]

theorem execVm_pageIn {vaddr ip i : ℕ} (hP : s.proc p = some P)
    (hfind : P.findVframe vaddr = some (some i)) (hrange : P.expands vaddr = false)
    (h : allocFrame s.toBacking P i = some r) :
    execVm s (.fault p vaddr ip) = some (s.setProc p r) := by
  simp [execVm, handleVmfault, hP, hfind, hrange, h]

theorem execVm_unhandled {vaddr ip : ℕ} (hP : s.proc p = some P)
    (hfind : P.findVframe vaddr = some none) (hrange : P.expands vaddr = false) :
    execVm s (.fault p vaddr ip) = some (if ip = 0 then syscallKill s p else s) := by
  simp [execVm, handleVmfault, hP, hfind, hrange]

/-! ## Operations as small steps -/

theorem withProc_eq_some {f : Proc → Option Proc} (h : s.withProc p f = some s') :
    ∃ P P', s.proc p = some P ∧ f P = some P' ∧ s' = s.setProc p (s.toBacking, P') := by
  have ⟨P, hP, hrest⟩ := Option.bind_eq_some_iff.mp h
  have ⟨P', hf, heq⟩ := Option.map_eq_some_iff.mp hrest
  exact ⟨P, P', hP, hf, heq.symm⟩

/-- The ways in which an operation is carried out. -/
inductive Executed (s : Sys) : VmOp → Sys → Prop
  | read {p vaddr f : ℕ} {P : Proc} {a d : Bool} (hP : s.proc p = some P)
      (hmap : P.vspace (pageOf vaddr) = .mapped f a d) :
    Executed s (.read p vaddr) (s.setProc p (s.toBacking,
      { P with vspace := update P.vspace (pageOf vaddr) (.mapped f true d) }))
  | write {p vaddr f : ℕ} {byte : UInt8} {P : Proc} {a d : Bool} (hP : s.proc p = some P)
      (hmap : P.vspace (pageOf vaddr) = .mapped f a d) :
    Executed s (.write p vaddr byte) (s.setProc p (s.toBacking,
      { P with
        vspace := update P.vspace (pageOf vaddr) (.mapped f true true)
        frame := storeByte P.frame f vaddr byte }))
  | project {p vaddr f : ℕ} {byte : UInt8} {P : Proc} {a d : Bool} (hP : s.proc p = some P)
      (hmap : P.vspace (pageOf vaddr) = .mapped f a d) :
    Executed s (.project p vaddr byte) (s.setProc p (s.toBacking,
      { P with frame := storeByte P.frame f vaddr byte }))
  | fault {p vaddr ip : ℕ} {P : Proc} {s' : Sys} {resume : Bool} (hP : s.proc p = some P)
      (hcase : Handled s p vaddr ip P s' resume) : Executed s (.fault p vaddr ip) s'
  | brk {p newBrk : ℕ} {P : Proc} {ret : ℕ × Proc} (hP : s.proc p = some P)
      (hret : syscallBrk P newBrk = some ret) :
    Executed s (.brk p newBrk) (s.setProc p (s.toBacking, ret.2))
  | start {image : ℕ → Bool} {P : Proc} (hfree : s.proc (allocPid s) = none)
      (hnew : newProcess (imageSpace image) = some P) :
    Executed s (.start image) (s.setProc (allocPid s) (s.toBacking, P))
  | kill (p : ℕ) : Executed s (.kill p) (syscallKill s p)

theorem execVm_executed {op : VmOp} (h : execVm s op = some s') : Executed s op s' := by
  cases op with
  | read p vaddr =>
    have ⟨P, P', hP, hread, heq⟩ := withProc_eq_some h
    rw [Proc.read] at hread
    split at hread
    · rename_i hmap
      rw [heq, ← Option.some.inj hread]
      exact Executed.read hP hmap
    · cases hread
  | write p vaddr byte =>
    have ⟨P, P', hP, hwrite, heq⟩ := withProc_eq_some h
    rw [Proc.write] at hwrite
    split at hwrite
    · rename_i hmap
      rw [heq, ← Option.some.inj hwrite]
      exact Executed.write hP hmap
    · cases hwrite
  | project p vaddr byte =>
    have ⟨P, P', hP, hproject, heq⟩ := withProc_eq_some h
    have ⟨f, hcap, heq'⟩ := Option.map_eq_some_iff.mp hproject
    rw [getCap] at hcap
    split at hcap
    · rename_i hmap
      rw [Option.some.inj hcap] at hmap
      rw [heq, ← heq']
      exact Executed.project hP hmap
    · cases hcap
  | fault p vaddr ip =>
    have ⟨⟨s₁, resume⟩, hhandle, heq⟩ := Option.map_eq_some_iff.mp h
    have ⟨P, hP, hcase⟩ := handleVmfault_vm hhandle
    cases heq
    exact Executed.fault hP hcase
  | brk p newBrk =>
    have ⟨P, P', hP, hbrk, heq⟩ := withProc_eq_some h
    have ⟨ret, hret, heq'⟩ := Option.map_eq_some_iff.mp hbrk
    rw [heq, ← heq']
    exact Executed.brk hP hret
  | start image =>
    rw [execVm, startProcess] at h
    split_ifs at h with hpid
    have ⟨P, hnew, heq⟩ := Option.map_eq_some_iff.mp h
    -- the first free slot of the table
    have hfree := breakIndex_spec hpid
    rw [Option.isNone_iff_eq_none] at hfree
    rw [← heq]
    exact Executed.start hfree hnew
  | kill p =>
    rw [← Option.some.inj h]
    exact Executed.kill p

/-- An operation is a sequence of small steps of one process, or the end or the start of one. -/
theorem execVm_big {op : VmOp} (haligned : ∀ p P, s.proc p = some P → P.heapTop % pageSize = 0)
    (hallow : R.Allows s op) (h : execVm s op = some s') :
    VmBig R s s' := by
  cases execVm_executed h with
  | read hP hmap => exact VmBig.proc hP (ReflTransGen.single (ProcStep.load hmap))
  | write hP hmap =>
    exact VmBig.proc hP (ReflTransGen.single (ProcStep.store _ hmap (hallow _ hP)))
  | project hP hmap =>
    exact VmBig.proc hP (ReflTransGen.single (ProcStep.project _ hmap (hallow _ hP)))
  | fault hP hcase =>
    cases hcase with
    | expand hrange hexpand =>
      -- a growing stack is a reservation and a frame for it
      exact VmBig.proc hP (procSteps_expandStack ((hallow _ hP).1 hrange) hexpand)
    | kill hrange hnone hip => exact VmBig.kill _
    | leave hrange hnone hip =>
      have hself := VmBig.proc (R := R) hP ReflTransGen.refl
      rwa [setProc_self hP] at hself
    | pageIn hrange hfind halloc =>
      exact VmBig.proc hP (ReflTransGen.single
        (ProcStep.alloc (findVframe_lt hfind) ((hallow _ hP).2 hrange _ hfind) halloc))
  | brk hP hret => exact VmBig.proc hP (procSteps_brk (haligned _ _ hP) hret)
  | start hfree hnew => exact VmBig.start hfree hnew
  | kill p => exact VmBig.kill p

end SeL4Sys

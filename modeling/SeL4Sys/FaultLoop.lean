import SeL4Sys.HeapRuns

/-!
# The loop of the fault server

`handle_vmfault_loop` replies to the sender of a message when `resume` is set after the message has
been handled. `handle_vmfault` sets the variable for VM faults only, so for any other fault it is
what the last VM fault left.
-/

namespace SeL4Sys

/-- A message that the loop has handled: the sender, the fault, the system then, and whether the
server replies to the sender. -/
structure Handling where
  sender : ℕ
  fault : Fault
  after : Sys
  reply : Bool

/-- The page of a VM fault is in memory after the message has been handled. -/
def Handling.MadeResident (h : Handling) : Prop :=
  ∃ vaddr ip P i r, h.fault = .vm vaddr ip ∧ h.after.proc h.sender = some P ∧ i < P.vframes
    ∧ (P.vframe i).inRAM = true ∧ (P.vframe i).reserve = some r ∧ r.covers vaddr = true

/-- The operations that are no faults. -/
def NoFault : VmOp → Prop
  | .fault _ _ _ => False
  | _ => True

/-- `handle_vmfault_loop` from boot on, with the messages handled so far, the last one first, the
system and `resume`. Between two messages the system goes on. -/
inductive FaultLoop (w : Swap) (file : Name → Page) : List Handling → Sys → Bool → Prop
  | boot : FaultLoop w file [] (bootSys w file) false
  | op {t : List Handling} {s s' : Sys} {resume : Bool} {op : VmOp} (h : FaultLoop w file t s resume)
      (hop : NoFault op) (hexec : execVm s op = some s') : FaultLoop w file t s' resume
  | message {t : List Handling} {s s' : Sys} {resume resume' : Bool} {p : ℕ} {fault : Fault}
      (h : FaultLoop w file t s resume)
      (hhandle : handleVmfault s p fault resume = some (s', resume')) :
      FaultLoop w file (⟨p, fault, s', resume'⟩ :: t) s' resume'

/-- A VM fault. -/
def Fault.isVm : Fault → Bool
  | .vm _ _ => true
  | .other => false

/-- The last VM fault among the messages. -/
def lastVm (t : List Handling) : Option Handling := t.find? fun h => h.fault.isVm

variable {w : Swap} {file : Name → Page} {t : List Handling} {s s' : Sys} {p vaddr ip : ℕ}
  {P : Proc} {resume resume' : Bool}

/-! ## One message -/

/-- For a VM fault `resume` says whether the page is in memory. -/
theorem handleVmfault_resume (hok : s.ProcsOk)
    (h : handleVmfault s p (.vm vaddr ip) resume = some (s', resume')) :
    resume' = true ↔ Handling.MadeResident ⟨p, .vm vaddr ip, s', resume'⟩ := by
  obtain ⟨P, hP, hcase⟩ := handleVmfault_vm h
  have hokP := hok p P hP
  cases hcase with
  | @expand r hrange hexpand =>
    obtain ⟨b', P', heq, _, hnum, _, hram, hres, _⟩ :=
      expandStack_ok (b := s.toBacking) hokP (expandStack_empty hokP hexpand)
    rw [heq] at hexpand
    rw [← Option.some.inj hexpand]
    refine iff_of_true rfl ⟨vaddr, ip, P', P.vframes, _, rfl, setProc_proc_self, ?_, hram, hres, ?_⟩
    · omega
    · rw [Reservation.covers, Bool.and_eq_true, decide_eq_true_eq, decide_eq_true_eq, pageOf]
      simp only [pageSize]
      omega
  | kill hrange hnone hip =>
    refine iff_of_false Bool.false_ne_true ?_
    rintro ⟨_, _, Q, _, _, _, hQ, _⟩
    rw [syscallKill_proc, if_pos rfl] at hQ
    cases hQ
  | leave hrange hnone hip =>
    refine iff_of_false Bool.false_ne_true ?_
    -- no VFrame of the process covers the address
    rintro ⟨vaddr', ip', Q, i, r, hfault, hQ, hi, _, hr, hcovers⟩
    cases hfault
    rw [hP] at hQ
    cases hQ
    obtain ⟨r', hr', hnot⟩ := findVframe_none hnone hi
    rw [hr] at hr'
    rw [← Option.some.inj hr', hcovers] at hnot
    cases hnot
  | @pageIn i r hrange hfind halloc =>
    have hi := findVframe_lt hfind
    obtain ⟨res, hr, hcovers⟩ := findVframe_covers hfind
    obtain ⟨b', P', heq, _, hnum, _, hram, hres⟩ := allocFrame_ok (b := s.toBacking) hokP hi hr
    rw [heq] at halloc
    rw [← Option.some.inj halloc]
    exact iff_of_true rfl ⟨vaddr, ip, P', i, res, rfl, setProc_proc_self, by omega, hram,
      (hres i).trans hr, hcovers⟩

theorem not_madeResident_other : ¬ Handling.MadeResident ⟨p, .other, s', resume'⟩ :=
  fun ⟨_, _, _, _, _, hfault, _⟩ => by cases hfault

/-! ## All messages -/

/-- Each message that is no VM fault comes when the last VM fault before it, if there was one, has
not been serviced. -/
def OthersQuiet : List Handling → Prop
  | [] => True
  | m :: rest =>
    (m.fault = .other → ∀ v, lastVm rest = some v → ¬ v.MadeResident) ∧ OthersQuiet rest

theorem FaultLoop.procsOk (h : FaultLoop w file t s resume) : s.ProcsOk := by
  induction h with
  | boot => exact bootSys_procsOk
  | op _ _ hexec ih => exact execVm_procsOk ih hexec
  | @message t s s' resume resume' p fault _ hhandle ih =>
    cases fault with
    | other =>
      cases Option.some.inj hhandle
      exact ih
    | vm vaddr ip =>
      -- the value of `resume` before does not matter for a VM fault
      have hexec : execVm s (.fault p vaddr ip) = some s' :=
        Option.map_eq_some_iff.mpr ⟨(s', resume'), hhandle, rfl⟩
      exact execVm_procsOk ih hexec

/-- `resume` is what the last VM fault left. -/
theorem FaultLoop.resume_iff (h : FaultLoop w file t s resume) :
    resume = true ↔ ∃ v, lastVm t = some v ∧ v.MadeResident := by
  induction h with
  | boot => exact iff_of_false Bool.false_ne_true fun ⟨_, hv, _⟩ => by cases hv
  | op _ _ _ ih => exact ih
  | @message t s s' resume resume' p fault hloop hhandle ih =>
    cases fault with
    | other =>
      cases Option.some.inj hhandle
      exact ih
    | vm vaddr ip =>
      have hlast : lastVm (⟨p, .vm vaddr ip, s', resume'⟩ :: t)
          = some ⟨p, .vm vaddr ip, s', resume'⟩ := rfl
      rw [handleVmfault_resume hloop.procsOk hhandle, hlast]
      constructor
      · exact fun hmade => ⟨_, rfl, hmade⟩
      · intro ⟨v, hv, hmade⟩
        rw [Option.some.inj hv]
        exact hmade

/-- The server replies to exactly the senders whose VM faults it has serviced if and only if no
other fault comes while the last VM fault before it is one that was serviced. -/
theorem faultLoop_replies_iff (h : FaultLoop w file t s resume) :
    (∀ m ∈ t, m.reply = true ↔ m.MadeResident) ↔ OthersQuiet t := by
  induction h with
  | boot => exact iff_of_true (fun m hm => absurd hm List.not_mem_nil) trivial
  | op _ _ _ ih => exact ih
  | @message t s s' resume resume' p fault hloop hhandle ih =>
    rw [List.forall_mem_cons, OthersQuiet, ih]
    refine and_congr_left fun _ => ?_
    cases fault with
    | other =>
      cases Option.some.inj hhandle
      have hreply : (resume = true ↔ Handling.MadeResident ⟨p, .other, s, resume⟩)
          ↔ ¬ resume = true := by
        rw [iff_false_right not_madeResident_other]
      refine hreply.trans ?_
      rw [hloop.resume_iff]
      constructor
      · exact fun hno _ v hv hmade => hno ⟨v, hv, hmade⟩
      · exact fun hno ⟨v, hv, hmade⟩ => hno rfl v hv hmade
    | vm vaddr ip =>
      exact iff_of_true (handleVmfault_resume hloop.procsOk hhandle) fun hother => by cases hother

/-! A process touches the first page above its heap and divides by zero, in either order. -/

/-- The stack is expanded at `HEAP_BASE_VADDR` for a process that has just started. -/
theorem started_expands (b : Backing) : ∃ r, ∀ ip resume,
    handleVmfault (shellSys b startedProc) 0 (.vm heapBaseVaddr ip) resume
      = some (shellSys b startedProc |>.setProc 0 r, true) := by
  have hok : startedProc.Ok := newProcess_ok newProcess_shell
  have hreserved : startedProc.Reserved := (newProcess_stackOk newProcess_shell).1.reserve
  have hempty : startedProc.vspace (pageOf heapBaseVaddr) = .empty := by decide
  have hrange : startedProc.expands heapBaseVaddr = true := by decide
  have ⟨b', P', hexpand, _⟩ := expandStack_ok (b := b) hok hempty
  have ⟨vframe, hfind⟩ := findVframe_isSome heapBaseVaddr hreserved
  refine ⟨(b', P'), ?_⟩
  intro ip resume
  have hexpand : expandStack (shellSys b startedProc).toBacking startedProc heapBaseVaddr
      = some (b', P') := hexpand
  simp only [handleVmfault, shellSys_proc, hfind, Option.bind_eq_bind, Option.bind_some, if_pos hrange,
    hexpand, Option.map_some]

theorem started_loop : FaultLoop emptyBacking.swap emptyBacking.file []
    (shellSys emptyBacking startedProc) false := by
  have hop : NoFault (.start fun _ => false) := trivial
  exact FaultLoop.op FaultLoop.boot hop (exec_start emptyBacking.swap emptyBacking.file)

/-- The other fault comes first: the server replies to the VM fault only. -/
theorem faultLoop_replies_iff_other_first : ∃ s, ∀ m ∈ ([⟨0, .vm heapBaseVaddr 1, s, true⟩,
    ⟨0, .other, shellSys emptyBacking startedProc, false⟩] : List Handling),
      m.reply = true ↔ m.MadeResident := by
  have ⟨r, hhandle⟩ := started_expands emptyBacking
  have hother : handleVmfault (shellSys emptyBacking startedProc) 0 .other false
      = some (shellSys emptyBacking startedProc, false) := rfl
  have hloop := FaultLoop.message (FaultLoop.message started_loop hother) (hhandle 1 false)
  refine ⟨_, (faultLoop_replies_iff hloop).mpr ⟨?_, ?_, trivial⟩⟩
  · exact fun hother => by cases hother
  · exact fun _ v hv => by cases hv

/-- The VM fault comes first: the server also replies to the other fault, and the thread goes on. -/
theorem other_fault_resumed : ∃ s t,
    FaultLoop emptyBacking.swap emptyBacking.file (⟨0, .other, s, true⟩ :: t) s true
      ∧ ¬ Handling.MadeResident ⟨0, .other, s, true⟩ := by
  have ⟨r, hhandle⟩ := started_expands emptyBacking
  exact ⟨_, _, FaultLoop.message (FaultLoop.message started_loop (hhandle 1 false)) rfl,
    not_madeResident_other⟩

end SeL4Sys

import SeL4Sys.Vm

/-!
# The system of processes and the fault server

All processes with the pagefiles they share: the accesses of a process to its memory, its faults
(`handle_vmfault` and `handle_vmfault_loop`), the requests that change its memory, and the stores
of the server into its pages through `setup_projection_space`.
-/

namespace SeL4Sys

open Loop Function

/-- `MAX_PROCESS_NUM` -/
@[simp] abbrev maxProcessNum : ℕ := 16

/-- The slots of `proc_table`, by process number, `none` for a slot that is not in use, with the
pagefiles. -/
structure Sys extends Backing where
  proc : ℕ → Option Proc

/-- The system with process `p` and the pagefiles as given. -/
def Sys.setProc (s : Sys) (p : ℕ) (r : Backing × Proc) : Sys where
  toBacking := r.1
  proc := update s.proc p (some r.2)

/-! ## Accesses to memory -/

/-- The position of an address in its page. -/
def offsetOf (vaddr : ℕ) : Fin pageSize := ⟨vaddr % pageSize, Nat.mod_lt _ (by decide)⟩

/-- The contents of the frames with one byte stored. -/
def storeByte (frame : ℕ → Page) (f vaddr : ℕ) (byte : UInt8) : ℕ → Page :=
  update frame f (update (frame f) (offsetOf vaddr) byte)

/-- A load by the process; the page table entry is marked. A page that is not mapped faults. -/
def Proc.read (P : Proc) (vaddr : ℕ) : Option Proc :=
  match P.vspace (pageOf vaddr) with
  | .mapped f _ dirty =>
    some { P with vspace := update P.vspace (pageOf vaddr) (.mapped f true dirty) }
  | _ => none

/-- A store by the process. -/
def Proc.write (P : Proc) (vaddr : ℕ) (byte : UInt8) : Option Proc :=
  match P.vspace (pageOf vaddr) with
  | .mapped f _ _ =>
    some { P with
      vspace := update P.vspace (pageOf vaddr) (.mapped f true true)
      frame := storeByte P.frame f vaddr byte }
  | _ => none

/-- A store by the server into a page of the process: `setup_projection_space` maps the frame a
second time, and the store marks the entry of that mapping only. Without a frame the server
stores to a mapping that does not exist. -/
def Proc.project (P : Proc) (vaddr : ℕ) (byte : UInt8) : Option Proc :=
  (getCap P.vspace vaddr).map fun f => { P with frame := storeByte P.frame f vaddr byte }

/-! ## Ending and starting processes -/

/-- The loop of `syscall_kill` over the last `n` VFrames of the list. -/
def freeLoop (P : Proc) : ℕ → Swap → Swap
  | 0, w => w
  | n + 1, w =>
    match (P.vframe n).pagefile with
    | some name => freeLoop P n (freePagefile w name)
    | none => freeLoop P n w

/-- `syscall_kill` with a signal that ends the process; it returns `-1` for a slot that is not in
use. -/
def syscallKill (s : Sys) (p : ℕ) : Sys :=
  match s.proc p with
  | none => s
  | some P =>
    { swap := freeLoop P P.vframes s.swap
      file := s.file
      proc := update s.proc p none }

/-- `alloc_pid`: the first slot that is not in use; `maxProcessNum` when the assertion fails. -/
def allocPid (s : Sys) : ℕ := breakIndex maxProcessNum fun p => (s.proc p).isNone

/-- The address space of a new process: the pages of the program image and the IPC buffer. -/
def imageSpace (image : ℕ → Bool) : VSpace := fun page => if image page then .image else .empty

/-- What `syscall_execve` does to the memory of the new process. -/
def startProcess (s : Sys) (image : ℕ → Bool) : Option Sys :=
  if allocPid s < maxProcessNum then
    (newProcess (imageSpace image)).map fun P => s.setProc (allocPid s) (s.toBacking, P)
  else none

/-! ## The fault server -/

/-- A fault message: a VM fault with its address and instruction pointer, or any other fault. -/
inductive Fault
  | vm (vaddr ip : ℕ)
  | other
deriving DecidableEq

/-- The addresses at which `handle_vmfault` expands the stack. -/
def Proc.expands (P : Proc) (vaddr : ℕ) : Bool :=
  P.heapTop ≤ vaddr && heapBaseVaddr ≤ vaddr && vaddr < stackTopVaddr

/-- `handle_vmfault`: the system and `resume`. The sender is a process in use. -/
def handleVmfault (s : Sys) (p : ℕ) (fault : Fault) (resume : Bool) : Option (Sys × Bool) :=
  match fault with
  | .other => some (s, resume)
  | .vm vaddr ip => do
    let P ← s.proc p
    let vframe ← P.findVframe vaddr
    if P.expands vaddr then
      (expandStack s.toBacking P vaddr).map fun r => (s.setProc p r, true)
    else
      match vframe with
      | none => some (if ip = 0 then syscallKill s p else s, false)
      | some i => (allocFrame s.toBacking P i).map fun r => (s.setProc p r, true)

/-! ## Runs -/

/-- What happens in the system. -/
inductive VmOp
  | read (p vaddr : ℕ)
  | write (p vaddr : ℕ) (byte : UInt8)
  | project (p vaddr : ℕ) (byte : UInt8)
  | fault (p vaddr ip : ℕ)
  | brk (p newBrk : ℕ)
  | start (image : ℕ → Bool)
  | kill (p : ℕ)

/-- A change of one process that leaves the pagefiles alone. -/
def Sys.withProc (s : Sys) (p : ℕ) (f : Proc → Option Proc) : Option Sys :=
  (s.proc p).bind fun P => (f P).map fun P => s.setProc p (s.toBacking, P)

/-- The effect of an operation; it has none when the operation is not possible or does not
return. -/
def execVm (s : Sys) : VmOp → Option Sys
  | .read p vaddr => s.withProc p fun P => P.read vaddr
  | .write p vaddr byte => s.withProc p fun P => P.write vaddr byte
  | .project p vaddr byte => s.withProc p fun P => P.project vaddr byte
  | .fault p vaddr ip => (handleVmfault s p (.vm vaddr ip) false).map Prod.fst
  | .brk p newBrk => s.withProc p fun P => (syscallBrk P newBrk).map Prod.snd
  | .start image => startProcess s image
  | .kill p => some (syscallKill s p)

/-- One operation of a kind that `ok` allows in the state it starts in. -/
def VmStep (ok : Sys → VmOp → Prop) (s s' : Sys) : Prop := ∃ op, ok s op ∧ execVm s op = some s'

/-- A run of operations that `ok` allows. -/
abbrev VmRun (ok : Sys → VmOp → Prop) : Sys → Sys → Prop := Relation.ReflTransGen (VmStep ok)

/-- The system after `pagefile_init`, before the first process starts. -/
def bootSys (w : Swap) (file : Name → Page) : Sys where
  swap := w
  file := file
  proc := fun _ => none

/-- Every reservation that the operation makes succeeds: the pages are free. -/
def ReservesOk (s : Sys) : VmOp → Prop
  | .fault p vaddr _ => ∀ P, s.proc p = some P → P.expands vaddr = true →
      P.vspace (pageOf vaddr) = .empty
  | .brk p newBrk => ∀ P, s.proc p = some P → ∀ vaddr, P.heapTop ≤ vaddr → vaddr < newBrk →
      P.vspace (pageOf vaddr) = .empty
  | _ => True

end SeL4Sys

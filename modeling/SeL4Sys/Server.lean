import SeL4Sys.DirOps
import SeL4Sys.Elf
import SeL4Sys.FileOps
import SeL4Sys.VmSystem

/-!
# The request handlers

`handle_syscall` with the functions it calls, and those that the workers call for it, as far as they
work on `proc_table`: the process table, the file tables and the two texts of a process control block.
Every access to one of these arrays goes through a function that checks its index. `Stop.outside` is an
access that the program makes outside the array, after which nothing is said about it; `Stop.halt` is a
failed assertion.

Address spaces, pages and pagefiles are not part of this model. What a request finds in the memory of
its sender is part of the message.
-/

namespace SeL4Sys

open Bytes Function

/-- `MAX_CWD_LEN` -/
abbrev maxCwdLen : ℕ := 32

/-- `struct PCB` -/
structure PCB where
  inuse : Bool
  fileTable : ℕ → FCB
  cwd : Buf
  cmd : Buf

/-- What the handlers share. -/
structure Server where
  fs : FS
  procTable : ℕ → PCB

/-- An access to one of the arrays. -/
inductive Access
  | procTable (i : ℤ)
  | fileTable (i : ℤ)
  | cwd (i : ℕ)
  | cmd (i : ℕ)

/-- Why a handler did not return. -/
inductive Stop
  | outside (a : Access)
  | halt

/-! ## Accesses -/

/-- `proc_table[i]` -/
def Server.proc (s : Server) (i : ℤ) : Except Stop PCB :=
  if 0 ≤ i ∧ i < maxProcessNum then .ok (s.procTable i.toNat) else .error (.outside (.procTable i))

/-- `proc_table[i]`, overwritten. -/
def Server.setPcb (s : Server) (i : ℤ) (p : PCB) : Except Stop Server :=
  if 0 ≤ i ∧ i < maxProcessNum then
    .ok { s with procTable := update s.procTable i.toNat p }
  else .error (.outside (.procTable i))

/-- `file_table[i]` -/
def PCB.file (p : PCB) (i : ℤ) : Except Stop FCB :=
  if 0 ≤ i ∧ i < maxFileNum then .ok (p.fileTable i.toNat) else .error (.outside (.fileTable i))

/-- `file_table[i]`, overwritten. -/
def PCB.setFile (p : PCB) (i : ℤ) (fcb : FCB) : Except Stop PCB :=
  if 0 ≤ i ∧ i < maxFileNum then
    .ok { p with fileTable := update p.fileTable i.toNat fcb }
  else .error (.outside (.fileTable i))

section strings
variable (field : ℕ → Access)

/-- One byte of a text is stored. -/
def storeText (text : Buf) (k : ℕ) (c : UInt8) : Except Stop Buf :=
  if k < maxCwdLen then .ok (update text k c) else .error (.outside (field k))

/-- `strcpy` into a text, from byte `k` on. -/
def strcpyTo (text : Buf) : ℕ → List UInt8 → Except Stop Buf
  | k, [] => storeText field text k 0
  | k, c :: cs => do
    let text ← storeText field text k c
    strcpyTo text (k + 1) cs

/-- The string in a text from byte `k` on, of which `left` bytes are inside. -/
def stringAt (text : Buf) : ℕ → ℕ → Except Stop (List UInt8)
  | 0, k => .error (.outside (field k))
  | left + 1, k =>
    if text k = 0 then .ok []
    else do
      let cs ← stringAt text left (k + 1)
      return text k :: cs

end strings

/-! ## Messages -/

/-- What `syscall_execve` finds besides: its buffer, the byte in front of the buffer of `read_disk`, and
whether the kernel objects and the memory that a process asks for are there. -/
structure ExecveEnv where
  elfFile : Buf
  byteBefore : UInt8
  granted : Bool

/-- What a request brings: the message registers, what its sender has in memory, and what the handler
finds in variables it does not initialise. -/
structure Message where
  number : ℕ
  mr : ℕ → ℕ
  text : ℕ → List UInt8
  bytes : ℕ → Buf
  locals : Locals
  buffer : Buf
  stack : ℕ → ℕ → Buf
  execve : ExecveEnv

/-- A message register in an `int`. -/
def Message.int (m : Message) (i : ℕ) : ℤ :=
  if m.mr i % 2 ^ 32 < 2 ^ 31 then m.mr i % 2 ^ 32 else (m.mr i % 2 ^ 32 : ℤ) - 2 ^ 32

/-- The requests of `vsyscall.h`. -/
inductive Syscall
  | read
  | write
  | sleep
  | getime
  | brk
  | openFile
  | close
  | unlink
  | lseek
  | execve
  | kill
  | getpid
  | exit
  | getcwd
  | ls
  | ps
  | chdir
deriving DecidableEq

def Syscall.ofNumber : ℕ → Option Syscall
  | 0 => some read
  | 1 => some write
  | 2 => some sleep
  | 3 => some getime
  | 4 => some brk
  | 5 => some openFile
  | 6 => some close
  | 7 => some unlink
  | 8 => some lseek
  | 9 => some execve
  | 10 => some kill
  | 11 => some getpid
  | 12 => some exit
  | 13 => some getcwd
  | 14 => some ls
  | 15 => some ps
  | 16 => some chdir
  | _ => none

/-! ## File requests

A handler returns the server and the value it sends back, if it sends one. -/

/-- The functions that take a control block look at it only when the number is that of a file: `fd < 3
|| fd >= MAX_FILE_NUM` comes first. -/
def Server.withFile (s : Server) (pcb fd : ℤ) (f : FCB → Except Stop (ℤ × FS × FCB)) :
    Except Stop (Server × Option ℤ) :=
  if fd < 3 ∨ maxFileNum ≤ fd then .ok (s, some (-1))
  else do
    let p ← s.proc pcb
    let fcb ← p.file fd
    let r ← f fcb
    let p ← p.setFile fd r.2.2
    let s ← { s with fs := r.2.1 }.setPcb pcb p
    return (s, some r.1)

/-- `readfile_handler` -/
def readfileHandler (s : Server) (pcb fd maxLen : ℤ) (str buffer : Buf) :
    Except Stop (Server × Option ℤ) :=
  s.withFile pcb fd fun fcb =>
    let r := syscallReadfile s.fs fcb fd str maxLen buffer
    .ok (r.1, s.fs, r.2.1)

/-- `writefile_handler` -/
def writefileHandler (s : Server) (pcb fd len : ℤ) (str buffer : Buf) (stack : ℕ → ℕ → Buf) :
    Except Stop (Server × Option ℤ) :=
  s.withFile pcb fd fun fcb =>
    match syscallWritefile s.fs fcb fd str len buffer stack with
    | some r => .ok r
    | none => .error .halt

/-- The values of `whence`. -/
def whenceOf (v : ℤ) : Option Whence :=
  if v = 0 then some .seekSet
  else if v = 1 then some .seekCur
  else if v = 2 then some .seekEnd
  else none

/-- `lseek_handler` -/
def lseekHandler (s : Server) (pcb fd offset whence : ℤ) : Except Stop (Server × Option ℤ) :=
  s.withFile pcb fd fun fcb =>
    let r := syscallLseek s.fs fcb fd offset (whenceOf whence)
    .ok (r.1, s.fs, r.2)

/-- The loop of `openfile_handler` from control block `i` on, for at most `n` control blocks. -/
def findFile (p : PCB) : ℕ → ℤ → Except Stop ℤ
  | 0, i => .ok i
  | n + 1, i => do
    let fcb ← p.file i
    if fcb.inuse then findFile p n (i + 1) else .ok i

/-- `openfile_handler` -/
def openfileHandler (s : Server) (pcb : ℤ) (path : List UInt8) (mode : ℤ) (l : Locals) :
    Except Stop (Server × Option ℤ) :=
  match syscallOpen s.fs path mode l with
  | none => .error .halt
  | some (inodeOffset, fs) =>
    if inodeOffset = -1 then .ok ({ s with fs := fs }, some (-1))
    else do
      let p ← s.proc pcb
      let i ← findFile p (maxFileNum - 3).toNat 3
      if i < maxFileNum then
        let p ← p.setFile i ⟨true, inodeOffset.toNat, 0, mode⟩
        let s ← { s with fs := fs }.setPcb pcb p
        return (s, some i)
      else .ok ({ s with fs := fs }, some (-1))

/-- `unlink_handler` -/
def unlinkHandler (s : Server) (path : List UInt8) (l : Locals) : Except Stop (Server × Option ℤ) :=
  match syscallUnlink s.fs path l with
  | none => .error .halt
  | some (ret, fs) => .ok ({ s with fs := fs }, some ret)

/-- `SYSCALL_CLOSE`. When the number is that of a control block nothing is sent back. -/
def closeFile (s : Server) (pcb fd : ℤ) : Except Stop (Server × Option ℤ) :=
  if maxFileNum ≤ fd ∨ fd < 0 then .ok (s, some (-1))
  else do
    let p ← s.proc pcb
    let fcb ← p.file fd
    let p ← p.setFile fd { fcb with inuse := false }
    let s ← s.setPcb pcb p
    return (s, none)

/-! ## Processes -/

/-- `pid_getproc`: the process control block is known by its index. -/
def pidGetproc (pid : ℕ) : Except Stop ℤ :=
  if pid < maxProcessNum then .ok pid else .error .halt

/-- The loop of `alloc_pid` from slot `i` on, over `n` slots. -/
def allocPidLoop (s : Server) : ℕ → ℕ → Except Stop ℕ
  | 0, _ => .error .halt
  | n + 1, i => do
    let p ← s.proc i
    if p.inuse then allocPidLoop s n (i + 1) else .ok i

/-- The control blocks of the standard streams in a new process. -/
def stdFile (flags : ℤ) : FCB := ⟨true, 2 ^ 32 - 1, 0, flags⟩

/-- `O_RDONLY` -/
def oRdonly : ℤ := 0

/-- `MAX_ELF_SIZE` -/
def maxElfSize : ℕ := 1024 * 1024

/-- The inode that `read_disk` returns for the place -1 of a failed open: a byte from in front of its
buffer, and the second sector of the disk. -/
def failedInode (d : Disk) (byteBefore : UInt8) : Inode :=
  Inode.decode fun i => if i = 0 then byteBefore else d (511 + i)

/-- The program as `syscall_execve` opens and reads it: the return value of `syscall_readfile` and the
buffer. The return value of `syscall_open` is not looked at. -/
def readElf (s : FS) (path : List UInt8) (m : Message) : ℤ × Buf :=
  let inodeOffset := ((syscallOpen s path oRdonly m.locals).map Prod.fst).getD (-1)
  let inode := if inodeOffset = -1 then failedInode s.disk m.execve.byteBefore
    else loadInode s.disk inodeOffset.toNat
  let r := readFrom s inode ⟨true, inodeOffset.toNat, 0, oRdonly⟩ m.execve.elfFile maxElfSize m.buffer
  (r.1, r.2.2)

/-- The program that is read is loaded. -/
def programLoads (s : Server) (path : List UInt8) (m : Message) : Bool :=
  elfLoads (readElf s.fs path m).2 (readElf s.fs path m).1 m.execve.granted

/-- The control blocks and texts of the process that takes slot `curPid`. The other control blocks are left
as they are. -/
def fillPcb (s : Server) (parent : ℤ) (path : List UInt8) (curPid : ℕ) :
    Except Stop (Server × Option ℤ) := do
  let pcb ← pidGetproc curPid
  let p ← s.proc pcb
  let p ← p.setFile 0 (stdFile 0)
  let p ← p.setFile 1 (stdFile 1)
  let p ← p.setFile 2 (stdFile 1)
  let father ← s.proc parent
  let cwd ← stringAt .cwd father.cwd maxCwdLen 0
  let cwd ← strcpyTo .cwd (fun _ => 0) 0 cwd
  let cmd ← strcpyTo .cmd (fun _ => 0) 0 path
  let s ← s.setPcb pcb { p with inuse := true, cwd := cwd, cmd := cmd }
  return (s, some curPid)

/-- `syscall_execve`. Opened for reading, a file system stays as it is. -/
def syscallExecve (s : Server) (parent : ℤ) (path : List UInt8) (m : Message) :
    Except Stop (Server × Option ℤ) := do
  let curPid ← allocPidLoop s maxProcessNum 0
  if programLoads s path m then fillPcb s parent path curPid else .error .halt

/-- The slot after `memset(proc_table + pid, 0, sizeof(PCB))`. -/
def zeroPCB : PCB := ⟨false, fun _ => ⟨false, 0, 0, 0⟩, fun _ => 0, fun _ => 0⟩

/-- `syscall_kill`. The index is not checked. -/
def syscallKillProc (s : Server) (pid sig : ℤ) : Except Stop (Server × ℤ) := do
  let p ← s.proc pid
  if p.inuse = false then .ok (s, -1)
  else if sig = 9 ∨ sig = 15 then
    let s ← s.setPcb pid zeroPCB
    return (s, 0)
  else .ok (s, -1)

/-- The loop of `syscall_ps` from slot `i` on, over `n` slots. The command of a process is printed with
`%9s`, up to its end. -/
def psLoop (s : Server) : ℕ → ℕ → Except Stop Unit
  | 0, _ => .ok ()
  | n + 1, i => do
    let p ← s.proc i
    if p.inuse then do
      let _ ← stringAt .cmd p.cmd maxCwdLen 0
      psLoop s n (i + 1)
    else psLoop s n (i + 1)

/-! ## Dispatch -/

/-- `handle_syscall`. The file requests are those of the workers. What the requests on time, memory and
directories do is not modelled here; they look at no array of a process control block. -/
def handleSyscall (s : Server) (badge : ℕ) (m : Message) : Except Stop (Server × Option ℤ) := do
  let sender ← pidGetproc badge
  match Syscall.ofNumber m.number with
  | some .read =>
    -- descriptor 0 is the keyboard and has no file control block
    if m.int 1 = 0 then .ok (s, none)
    else readfileHandler s sender (m.int 1) (m.int 2) (m.bytes (m.mr 3)) m.buffer
  | some .write =>
    -- descriptors 1 and 2 are the screen
    if m.int 1 = 1 ∨ m.int 1 = 2 then .ok (s, none)
    else writefileHandler s sender (m.int 1) (m.int 2) (m.bytes (m.mr 3)) m.buffer m.stack
  | some .openFile => openfileHandler s sender (m.text (m.mr 1)) (m.int 2) m.locals
  | some .close => closeFile s sender (m.int 1)
  | some .unlink => unlinkHandler s (m.text (m.mr 1)) m.locals
  | some .lseek => lseekHandler s sender (m.int 1) (m.int 2) (m.int 3)
  | some .execve => syscallExecve s sender (m.text (m.mr 1)) m
  | some .getcwd =>
    let p ← s.proc sender
    let _ ← stringAt .cwd p.cwd maxCwdLen 0
    return (s, none)
  | some .chdir =>
    let p ← s.proc sender
    let cwd ← strcpyTo .cwd p.cwd 0 (m.text (m.mr 1))
    let s ← s.setPcb sender { p with cwd := cwd }
    return (s, none)
  | some .ps =>
    let _ ← psLoop s maxProcessNum 0
    return (s, none)
  | some .kill =>
    let r ← syscallKillProc s (m.int 1) (m.int 2)
    return (r.1, some r.2)
  | some .exit =>
    -- a process that exits kills itself
    let r ← syscallKillProc s badge 9
    return (r.1, none)
  | some .getpid => .ok (s, some badge)
  | some .sleep => .ok (s, none)
  | some .getime => .ok (s, none)
  | some .brk => .ok (s, none)
  | some .ls => .ok (s, none)
  | none => .error .halt

/-! ## What the file requests change -/

section steps
variable {α β : Type}

@[simp] theorem ok_bind (v : α) (f : α → Except Stop β) : (Except.ok v >>= f) = f v := rfl

theorem bind_eq_ok {r : Except Stop α} {f : α → Except Stop β} {v : β} :
    (r >>= f) = .ok v ↔ ∃ u, r = .ok u ∧ f u = .ok v := by
  cases r with
  | ok u =>
    constructor
    · intro h
      exact ⟨u, rfl, h⟩
    · rintro ⟨u', hu, hf⟩
      cases hu
      exact hf
  | error e =>
    constructor
    · intro h
      cases h
    · rintro ⟨u, hu, _⟩
      cases hu

end steps

section table
variable {s : Server} {p : PCB} {i : ℕ}

theorem proc_eq (hi : i < maxProcessNum) : s.proc i = .ok (s.procTable i) := by
  rw [Server.proc, if_pos ⟨Int.natCast_nonneg i, by exact_mod_cast hi⟩, Int.toNat_natCast]

theorem setPcb_eq (hi : i < maxProcessNum) :
    s.setPcb i p = .ok { s with procTable := update s.procTable i p } := by
  rw [Server.setPcb, if_pos ⟨Int.natCast_nonneg i, by exact_mod_cast hi⟩, Int.toNat_natCast]

theorem file_eq {fd : ℤ} (h : 0 ≤ fd) (h' : fd < maxFileNum) :
    p.file fd = .ok (p.fileTable fd.toNat) := if_pos ⟨h, h'⟩

theorem setFile_eq {fd : ℤ} {fcb : FCB} (h : 0 ≤ fd) (h' : fd < maxFileNum) :
    p.setFile fd fcb = .ok { p with fileTable := update p.fileTable fd.toNat fcb } :=
  if_pos ⟨h, h'⟩

end table

/-- Only control blocks of process `i` change. -/
structure FilesOnly (i : ℕ) (s s' : Server) : Prop where
  others : ∀ l, l ≠ i → s'.procTable l = s.procTable l
  rest : ∀ l, (s'.procTable l).inuse = (s.procTable l).inuse
    ∧ (s'.procTable l).cwd = (s.procTable l).cwd ∧ (s'.procTable l).cmd = (s.procTable l).cmd

section files
variable {s s' : Server} {i : ℕ} {ret : Option ℤ}

theorem filesOnly_of_eq (h : s'.procTable = s.procTable) : FilesOnly i s s' :=
  ⟨fun l _ => by rw [h], fun l => by rw [h]; exact ⟨rfl, rfl, rfl⟩⟩

theorem filesOnly_setFile (hi : i < maxProcessNum) (fs : FS) {fd : ℤ} {fcb : FCB} {p : PCB}
    (hfile : (s.procTable i).setFile fd fcb = .ok p)
    (hset : { s with fs := fs }.setPcb i p = .ok s') : FilesOnly i s s' := by
  rw [setPcb_eq hi] at hset
  cases hset
  rw [PCB.setFile] at hfile
  split_ifs at hfile
  cases hfile
  constructor
  · intro l hl
    exact update_of_ne hl ..
  · intro l
    by_cases hl : l = i
    · simp only [hl, update_self]
      exact ⟨trivial, trivial, trivial⟩
    · simp only [update_of_ne hl]
      exact ⟨trivial, trivial, trivial⟩

theorem withFile_filesOnly (hi : i < maxProcessNum) {fd : ℤ}
    {f : FCB → Except Stop (ℤ × FS × FCB)} (hok : s.withFile i fd f = .ok (s', ret)) :
    FilesOnly i s s' := by
  rw [Server.withFile] at hok
  split_ifs at hok with hfd
  · cases hok
    exact filesOnly_of_eq rfl
  · rw [proc_eq hi, ok_bind] at hok
    have ⟨fcb, _, hok⟩ := bind_eq_ok.mp hok
    have ⟨r, _, hok⟩ := bind_eq_ok.mp hok
    have ⟨p, hp, hok⟩ := bind_eq_ok.mp hok
    have ⟨s₁, hs₁, hok⟩ := bind_eq_ok.mp hok
    cases hok
    exact filesOnly_setFile hi _ hp hs₁

theorem openfileHandler_filesOnly (hi : i < maxProcessNum) {path : List UInt8} {mode : ℤ}
    {l : Locals} (hok : openfileHandler s i path mode l = .ok (s', ret)) : FilesOnly i s s' := by
  rw [openfileHandler] at hok
  split at hok
  · cases hok
  · split_ifs at hok
    · cases hok
      exact filesOnly_of_eq rfl
    · rw [proc_eq hi, ok_bind] at hok
      have ⟨r, _, hok⟩ := bind_eq_ok.mp hok
      split_ifs at hok
      · have ⟨p, hp, hok⟩ := bind_eq_ok.mp hok
        have ⟨s₁, hs₁, hok⟩ := bind_eq_ok.mp hok
        cases hok
        exact filesOnly_setFile hi _ hp hs₁
      · cases hok
        exact filesOnly_of_eq rfl

theorem closeFile_filesOnly (hi : i < maxProcessNum) {fd : ℤ}
    (hok : closeFile s i fd = .ok (s', ret)) : FilesOnly i s s' := by
  rw [closeFile] at hok
  split_ifs at hok
  · cases hok
    exact filesOnly_of_eq rfl
  · rw [proc_eq hi, ok_bind] at hok
    have ⟨fcb, _, hok⟩ := bind_eq_ok.mp hok
    have ⟨p, hp, hok⟩ := bind_eq_ok.mp hok
    have ⟨s₁, hs₁, hok⟩ := bind_eq_ok.mp hok
    cases hok
    exact filesOnly_setFile hi s.fs hp hs₁

theorem unlinkHandler_procTable {path : List UInt8} {l : Locals}
    (hok : unlinkHandler s path l = .ok (s', ret)) : s'.procTable = s.procTable := by
  rw [unlinkHandler] at hok
  split at hok
  · cases hok
  · cases hok
    rfl

end files

/-! ## What a request does -/

/-- The slot that a request frees. -/
def Message.frees (m : Message) (badge : ℕ) : Option ℤ :=
  match Syscall.ofNumber m.number with
  | some .kill => if m.int 2 = 9 ∨ m.int 2 = 15 then some (m.int 1) else none
  | some .exit => some badge
  | _ => none

/-- Every request leaves the table as it is but for control blocks of its sender, starts a process, sets
the directory of its sender, or is a signal. -/
theorem handleSyscall_cases {s s' : Server} {badge : ℕ} {m : Message} {ret : Option ℤ}
    (hok : handleSyscall s badge m = .ok (s', ret)) : badge < maxProcessNum ∧
      (FilesOnly badge s s'
        ∨ (∃ path curPid, fillPcb s badge path curPid = .ok (s', ret))
        ∨ (∃ text cwd, strcpyTo .cwd (s.procTable badge).cwd 0 text = .ok cwd
          ∧ s.setPcb badge { s.procTable badge with cwd := cwd } = .ok s')
        ∨ ∃ pid sig v, syscallKillProc s pid sig = .ok (s', v)
          ∧ (sig = 9 ∨ sig = 15 → m.frees badge = some pid)) := by
  rw [handleSyscall] at hok
  have ⟨sender, hsender, hok⟩ := bind_eq_ok.mp hok
  rw [pidGetproc] at hsender
  split_ifs at hsender with hlive
  cases hsender
  refine ⟨hlive, ?_⟩
  cases hnum : Syscall.ofNumber m.number with
  | none =>
    rw [hnum] at hok
    cases hok
  | some number =>
    rw [hnum] at hok
    cases number with
    | read =>
      dsimp only at hok
      split_ifs at hok
      · cases hok
        exact Or.inl (filesOnly_of_eq rfl)
      · exact Or.inl (withFile_filesOnly hlive hok)
    | write =>
      dsimp only at hok
      split_ifs at hok
      · cases hok
        exact Or.inl (filesOnly_of_eq rfl)
      · exact Or.inl (withFile_filesOnly hlive hok)
    | openFile => exact Or.inl (openfileHandler_filesOnly hlive hok)
    | close => exact Or.inl (closeFile_filesOnly hlive hok)
    | unlink => exact Or.inl (filesOnly_of_eq (unlinkHandler_procTable hok))
    | lseek => exact Or.inl (withFile_filesOnly hlive hok)
    | execve =>
      have ⟨curPid, _, hok⟩ := bind_eq_ok.mp hok
      split_ifs at hok
      exact Or.inr (Or.inl ⟨_, curPid, hok⟩)
    | getcwd =>
      dsimp only at hok
      rw [proc_eq hlive, ok_bind] at hok
      have ⟨_, _, hok⟩ := bind_eq_ok.mp hok
      cases hok
      exact Or.inl (filesOnly_of_eq rfl)
    | chdir =>
      dsimp only at hok
      rw [proc_eq hlive, ok_bind] at hok
      have ⟨cwd, hcwd, hok⟩ := bind_eq_ok.mp hok
      have ⟨s₁, hs₁, hok⟩ := bind_eq_ok.mp hok
      cases hok
      exact Or.inr (Or.inr (Or.inl ⟨_, cwd, hcwd, hs₁⟩))
    | ps =>
      dsimp only at hok
      have ⟨_, _, hok⟩ := bind_eq_ok.mp hok
      cases hok
      exact Or.inl (filesOnly_of_eq rfl)
    | kill =>
      dsimp only at hok
      have ⟨r, hr, hok⟩ := bind_eq_ok.mp hok
      cases hok
      refine Or.inr (Or.inr (Or.inr ⟨_, _, r.2, hr, fun hsig => ?_⟩))
      simp only [Message.frees, hnum, if_pos hsig]
    | exit =>
      dsimp only at hok
      have ⟨r, hr, hok⟩ := bind_eq_ok.mp hok
      cases hok
      refine Or.inr (Or.inr (Or.inr ⟨_, _, r.2, hr, fun _ => ?_⟩))
      simp only [Message.frees, hnum]
    | _ =>
      cases hok
      exact Or.inl (filesOnly_of_eq rfl)

end SeL4Sys

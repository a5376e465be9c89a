import SeL4Sys.SyscallBounds

/-!
# File requests in flight

A file request is not served where it is received. `handle_syscall` puts what it needs into a
`FileData`, with the address of the sender's process control block, and a worker runs the handler some
time later. Until then other requests are received and served, and among them may be one that ends the
sender and one that starts a new process in its slot.

`Requests` is the server with the requests that were dispatched and have not run. Processes are told
apart by the slot and by the time at which they took it, which the program has no record of.
-/

namespace SeL4Sys

open Bytes Function Relation

/-- The handlers that `sysworker_dispatch_thread` is called with for a file. -/
inductive FileHandler
  | readfile
  | writefile
  | openfile
  | unlink
  | lseek
deriving DecidableEq

/-- A process: the slot it took, and when. -/
structure Process where
  slot : ℕ
  started : ℕ
deriving DecidableEq

/-- `struct FileData`, with the handler it is passed to. `pcb` is an index of the process table, and the
control block is that of `fd` in it. The process that sent the request is not part of the record. -/
structure FileData where
  handler : FileHandler
  pcb : ℕ
  fd : ℤ
  str : ℕ
  maxLen : ℤ
  issuer : Process

/-- What `handle_syscall` dispatches for a request, if it is one on a file. -/
def fileRequest (issuer : Process) (badge : ℕ) (m : Message) : Option FileData :=
  match Syscall.ofNumber m.number with
  | some .read =>
    if m.int 1 = 0 then none else some ⟨.readfile, badge, m.int 1, m.mr 3, m.int 2, issuer⟩
  | some .write =>
    if m.int 1 = 1 ∨ m.int 1 = 2 then none
    else some ⟨.writefile, badge, m.int 1, m.mr 3, m.int 2, issuer⟩
  | some .openFile => some ⟨.openfile, badge, 0, m.mr 1, m.int 2, issuer⟩
  | some .unlink => some ⟨.unlink, badge, 0, m.mr 1, 0, issuer⟩
  | some .lseek => some ⟨.lseek, badge, m.int 1, m.mr 3, m.int 2, issuer⟩
  | _ => none

/-- The handler runs. Texts and bytes are those that the worker finds at the address then. -/
def FileData.run (d : FileData) (s : Server) (m : Message) : Except Stop (Server × Option ℤ) :=
  match d.handler with
  | .readfile => readfileHandler s d.pcb d.fd d.maxLen (m.bytes d.str) m.buffer
  | .writefile => writefileHandler s d.pcb d.fd d.maxLen (m.bytes d.str) m.buffer m.stack
  | .openfile => openfileHandler s d.pcb (m.text d.str) d.maxLen m.locals
  | .unlink => unlinkHandler s (m.text d.str) m.locals
  | .lseek => lseekHandler s d.pcb d.fd d.maxLen ({ m with mr := fun _ => d.str }.int 0)

/-- A handler changes control blocks of its own slot only. -/
theorem FileData.run_filesOnly {d : FileData} {s s' : Server} {m : Message} {ret : Option ℤ}
    (hpcb : d.pcb < maxProcessNum) (hok : d.run s m = .ok (s', ret)) : FilesOnly d.pcb s s' := by
  rw [FileData.run] at hok
  cases hd : d.handler with
  | readfile =>
    rw [hd] at hok
    exact withFile_filesOnly hpcb hok
  | writefile =>
    rw [hd] at hok
    exact withFile_filesOnly hpcb hok
  | openfile =>
    rw [hd] at hok
    exact openfileHandler_filesOnly hpcb hok
  | unlink =>
    rw [hd] at hok
    exact filesOnly_of_eq (unlinkHandler_procTable hok)
  | lseek =>
    rw [hd] at hok
    exact withFile_filesOnly hpcb hok

/-! ## Steps -/

/-- The server, the requests in flight, and who has which slot. -/
structure Requests where
  server : Server
  pending : List FileData
  occupant : ℕ → Option Process
  clock : ℕ

/-- A server with nothing in flight. -/
def Requests.boot (s : Server) : Requests where
  server := s
  pending := []
  occupant := fun b => if (s.procTable b).inuse then some ⟨b, 0⟩ else none
  clock := 1

/-- Who has the slots after a request that was served at once: a slot that was freed has nobody, and one
that was taken has a new process. -/
def Requests.occupants (r : Requests) (s : Server) (b : ℕ) : Option Process :=
  if (s.procTable b).inuse = false then none
  else if (r.server.procTable b).inuse = false then some ⟨b, r.clock⟩
  else r.occupant b

/-- A process sends a request, or a worker completes one that was dispatched. -/
inductive RequestOp
  | request (badge : ℕ) (m : Message)
  | complete (i : ℕ) (m : Message)

/-- One step, if the server does not stop in it. -/
def Requests.exec (r : Requests) : RequestOp → Option Requests
  | .request badge m =>
    (r.occupant badge).bind fun issuer =>
      match fileRequest issuer badge m with
      | some d => if badge < maxProcessNum then some { r with pending := r.pending ++ [d] } else none
      | none =>
        match handleSyscall r.server badge m with
        | .ok (s, _) => some { r with server := s, occupant := r.occupants s, clock := r.clock + 1 }
        | .error _ => none
  | .complete i m =>
    (r.pending[i]?).bind fun d =>
      match d.run r.server m with
      | .ok (s, _) => some { r with server := s, pending := r.pending.eraseIdx i }
      | .error _ => none

/-- Steps in which every operation meets `ok`. -/
def RequestStep (ok : Requests → RequestOp → Prop) (r r' : Requests) : Prop :=
  ∃ op, ok r op ∧ r.exec op = some r'

/-- No slot is freed while a request that points to it is in flight. -/
def Drained (r : Requests) : RequestOp → Prop
  | .request badge m => ∀ d ∈ r.pending, m.frees badge ≠ some (d.pcb : ℤ)
  | .complete _ _ => True

/-- What a step does. -/
theorem Requests.exec_cases {r r' : Requests} {op : RequestOp} (h : r.exec op = some r') :
    (∃ badge m issuer d, op = .request badge m ∧ r.occupant badge = some issuer
      ∧ fileRequest issuer badge m = some d ∧ badge < maxProcessNum
      ∧ r' = { r with pending := r.pending ++ [d] })
    ∨ (∃ badge m s ret, op = .request badge m ∧ handleSyscall r.server badge m = .ok (s, ret)
      ∧ r' = { r with server := s, occupant := r.occupants s, clock := r.clock + 1 })
    ∨ ∃ i m d s ret, op = .complete i m ∧ r.pending[i]? = some d ∧ d.run r.server m = .ok (s, ret)
      ∧ r' = { r with server := s, pending := r.pending.eraseIdx i } := by
  cases op with
  | request badge m =>
    have ⟨issuer, hissuer, h⟩ := Option.bind_eq_some_iff.mp h
    cases hd : fileRequest issuer badge m with
    | some d =>
      simp only [hd] at h
      -- a file request is queued, any other one is handled at once
      split_ifs at h with hlive
      exact Or.inl ⟨badge, m, issuer, d, rfl, hissuer, hd, hlive, (Option.some.inj h).symm⟩
    | none =>
      simp only [hd] at h
      cases hs : handleSyscall r.server badge m with
      | error e =>
        rw [hs] at h
        cases h
      | ok v =>
        rw [hs] at h
        exact Or.inr (Or.inl ⟨badge, m, v.1, v.2, rfl, hs, (Option.some.inj h).symm⟩)
  | complete i m =>
    have ⟨d, hd, h⟩ := Option.bind_eq_some_iff.mp h
    cases hs : d.run r.server m with
    | error e =>
      simp only [hs] at h
      cases h
    | ok v =>
      simp only [hs] at h
      exact Or.inr (Or.inr ⟨i, m, d, v.1, v.2, rfl, hd, hs, (Option.some.inj h).symm⟩)

/-! ## Slots in use -/

section slots
variable {s s' : Server} {b : ℕ}

theorem setPcb_keeps_inuse {i : ℕ} (hi : i < maxProcessNum) {p : PCB} (hp : p.inuse = true)
    (hset : s.setPcb i p = .ok s') (hb : (s.procTable b).inuse = true) :
    (s'.procTable b).inuse = true := by
  rw [setPcb_eq hi] at hset
  cases hset
  by_cases hbi : b = i
  · simp only [hbi, update_self, hp]
  · simp only [update_of_ne hbi, hb]

/-- `syscall_kill` frees the slot it names, for the two signals only. -/
theorem syscallKillProc_keeps_inuse {pid sig ret : ℤ} (hok : syscallKillProc s pid sig = .ok (s', ret))
    (hb : (s.procTable b).inuse = true) (hpid : (sig = 9 ∨ sig = 15) → pid ≠ b) :
    (s'.procTable b).inuse = true := by
  rw [syscallKillProc] at hok
  obtain ⟨p, _, hok⟩ := bind_eq_ok.mp hok
  split_ifs at hok with huse hsig
  · cases hok
    exact hb
  · obtain ⟨s₁, hs₁, hok⟩ := bind_eq_ok.mp hok
    cases hok
    rw [Server.setPcb] at hs₁
    split_ifs at hs₁ with hrange
    cases hs₁
    have hne : b ≠ pid.toNat := by
      intro h
      apply hpid hsig
      omega
    simp only [update_of_ne hne, hb]
  · cases hok
    exact hb

theorem fillPcb_keeps_inuse {parent : ℤ} {path : List UInt8} {r : ℕ} {ret : Option ℤ}
    (hok : fillPcb s parent path r = .ok (s', ret)) (hb : (s.procTable b).inuse = true) :
    (s'.procTable b).inuse = true := by
  rw [fillPcb] at hok
  obtain ⟨pcb, hpcb, hok⟩ := bind_eq_ok.mp hok
  rw [pidGetproc] at hpcb
  split_ifs at hpcb with hlt
  cases hpcb
  obtain ⟨p, _, hok⟩ := bind_eq_ok.mp hok
  obtain ⟨p₁, _, hok⟩ := bind_eq_ok.mp hok
  obtain ⟨p₂, _, hok⟩ := bind_eq_ok.mp hok
  obtain ⟨p₃, _, hok⟩ := bind_eq_ok.mp hok
  obtain ⟨father, _, hok⟩ := bind_eq_ok.mp hok
  obtain ⟨cs, _, hok⟩ := bind_eq_ok.mp hok
  obtain ⟨cwd, _, hok⟩ := bind_eq_ok.mp hok
  obtain ⟨cmd, _, hok⟩ := bind_eq_ok.mp hok
  obtain ⟨s₁, hs₁, hok⟩ := bind_eq_ok.mp hok
  cases hok
  exact setPcb_keeps_inuse hlt (p := { p₃ with inuse := true, cwd := cwd, cmd := cmd }) rfl hs₁ hb

/-- A request keeps every slot but the one that it frees. -/
theorem handleSyscall_keeps_inuse {badge : ℕ} {m : Message} {ret : Option ℤ}
    (hok : handleSyscall s badge m = .ok (s', ret)) (hb : (s.procTable b).inuse = true)
    (hfrees : m.frees badge ≠ some (b : ℤ)) : (s'.procTable b).inuse = true := by
  have ⟨hlive, hcases⟩ := handleSyscall_cases hok
  rcases hcases with hfiles | ⟨path, r, hfill⟩ | ⟨text, cwd, _, hset⟩ | ⟨pid, sig, v, hkill, hpid⟩
  · rw [(hfiles.rest b).1, hb]
  · exact fillPcb_keeps_inuse hfill hb
  · by_cases hbi : b = badge
    · rw [hbi] at hb
      rw [hbi]
      exact setPcb_keeps_inuse hlive (p := { s.procTable badge with cwd := cwd }) hb hset hb
    · rw [setPcb_eq hlive] at hset
      cases hset
      simp only [update_of_ne hbi, hb]
  · refine syscallKillProc_keeps_inuse hkill hb fun hsig h => hfrees ?_
    rw [hpid hsig, h]

end slots

/-! ## Runs -/

/-- Every request in flight points to the slot of its sender, who is still there. -/
structure Requests.Current (r : Requests) : Prop where
  inuse_iff : ∀ b, (r.server.procTable b).inuse = true ↔ r.occupant b ≠ none
  pcb_lt : ∀ d ∈ r.pending, d.pcb < maxProcessNum
  occupant : ∀ d ∈ r.pending, r.occupant d.pcb = some d.issuer

section runs
variable {r r' : Requests}

theorem Requests.boot_current (s : Server) : (Requests.boot s).Current := by
  refine ⟨fun b => ?_, fun _ hd => (nomatch hd), fun _ hd => (nomatch hd)⟩
  simp [Requests.boot]

theorem fileRequest_pcb {issuer : Process} {badge : ℕ} {m : Message} {d : FileData}
    (h : fileRequest issuer badge m = some d) : d.pcb = badge ∧ d.issuer = issuer := by
  rw [fileRequest] at h
  split at h
  case h_1 =>
    split_ifs at h
    cases h
    exact ⟨rfl, rfl⟩
  case h_2 =>
    split_ifs at h
    cases h
    exact ⟨rfl, rfl⟩
  case h_6 => cases h
  all_goals
    cases h
    exact ⟨rfl, rfl⟩

theorem Requests.occupants_inuse_iff (hinuse : ∀ b, (r.server.procTable b).inuse = true ↔
    r.occupant b ≠ none) (s : Server) (b : ℕ) :
    (s.procTable b).inuse = true ↔ r.occupants s b ≠ none := by
  rw [Requests.occupants]
  split_ifs with hfree htaken
  · simp [hfree]
  · simpa using hfree
  · rw [← hinuse b]
    simp [hfree, htaken]

/-- A slot that was in use and still is has the process it had. -/
theorem Requests.occupants_of_inuse {s : Server} {b : ℕ} (hold : (r.server.procTable b).inuse = true)
    (hnew : (s.procTable b).inuse = true) : r.occupants s b = r.occupant b := by
  rw [Requests.occupants, if_neg (by simp [hnew]), if_neg (by simp [hold])]

theorem Requests.Current.exec (h : r.Current) {op : RequestOp} (hok : Drained r op)
    (hexec : r.exec op = some r') : r'.Current := by
  rcases Requests.exec_cases hexec with ⟨badge, m, issuer, d, rfl, hissuer, hd, hlive, rfl⟩ |
    ⟨badge, m, s, ret, rfl, hs, rfl⟩ | ⟨i, m, d, s, ret, rfl, hd, hs, rfl⟩
  · -- a request that is dispatched points to its sender
    have ⟨hpcb, hfrom⟩ := fileRequest_pcb hd
    refine ⟨h.inuse_iff, ?_, ?_⟩
    · intro d' hd'
      rcases List.mem_append.mp hd' with hd' | hd'
      · exact h.pcb_lt d' hd'
      · rw [List.mem_singleton.mp hd', hpcb]
        exact hlive
    · intro d' hd'
      rcases List.mem_append.mp hd' with hd' | hd'
      · exact h.occupant d' hd'
      · rw [List.mem_singleton.mp hd', hpcb, hfrom]
        exact hissuer
  · -- a slot that a request in flight points to is in use before and after
    refine ⟨Requests.occupants_inuse_iff h.inuse_iff s, h.pcb_lt, ?_⟩
    intro d hd
    have hold : (r.server.procTable d.pcb).inuse = true := by
      rw [h.inuse_iff, h.occupant d hd]
      exact Option.some_ne_none _
    have hnew := handleSyscall_keeps_inuse hs hold (hok d hd)
    exact (Requests.occupants_of_inuse hold hnew).trans (h.occupant d hd)
  · have hmem : d ∈ r.pending := List.mem_of_getElem? hd
    have hfiles := FileData.run_filesOnly (h.pcb_lt d hmem) hs
    refine ⟨?_, ?_, ?_⟩
    · intro b
      rw [← h.inuse_iff b]
      exact iff_of_eq (by rw [(hfiles.rest b).1])
    · intro d' hd'
      exact h.pcb_lt d' (List.mem_of_mem_eraseIdx hd')
    · intro d' hd'
      exact h.occupant d' (List.mem_of_mem_eraseIdx hd')

theorem Requests.Current.run {s : Server}
    (hrun : ReflTransGen (RequestStep Drained) (Requests.boot s) r) : r.Current := by
  induction hrun with
  | refl => exact Requests.boot_current s
  | tail _ hstep ih =>
    have ⟨_, hok, hexec⟩ := hstep
    exact ih.exec hok hexec

end runs

/-- When no slot is freed while a request that points to it is in flight, a request changes no file
table but that of the process that sent it. -/
theorem run_requests_isolated {s₀ : Server} {r : Requests}
    (hrun : ReflTransGen (RequestStep Drained) (Requests.boot s₀) r) {i : ℕ} {d : FileData}
    (hd : r.pending[i]? = some d) {m : Message} {r' : Requests}
    (hexec : r.exec (.complete i m) = some r') {b : ℕ} (hb : r.occupant b ≠ some d.issuer) :
    (r'.server.procTable b).fileTable = (r.server.procTable b).fileTable := by
  have hcur := Requests.Current.run hrun
  have hmem : d ∈ r.pending := List.mem_of_getElem? hd
  have hne : b ≠ d.pcb := by
    intro h
    apply hb
    rw [h]
    exact hcur.occupant d hmem
  rcases Requests.exec_cases hexec with ⟨_, _, _, _, hop, _⟩ | ⟨_, _, _, _, hop, _⟩ |
    ⟨_, _, d', s, ret, hop, hd', hs, rfl⟩
  · cases hop
  · cases hop
  · cases hop
    rw [hd] at hd'
    cases hd'
    show (s.procTable b).fileTable = _
    rw [(FileData.run_filesOnly (hcur.pcb_lt d hmem) hs).others b hne]

/-! ## A slot that is used again -/

/-- A program: the header, one segment, which is the file itself, and one section. -/
def programImage : List UInt8 :=
  [0x7f, 0x45, 0x4c, 0x46, 1, 1, 1, 0, 0, 0, 0, 0, 0, 0, 0, 0, 2, 0, 3, 0, 1, 0, 0, 0,
    -- e_entry, e_phoff, e_shoff, and from e_ehsize on the sizes and numbers of the entries
    0x54, 0x80, 4, 8, 52, 0, 0, 0, 84, 0, 0, 0, 0, 0, 0, 0, 52, 0, 32, 0, 1, 0, 40, 0, 1, 0, 0, 0,
    -- p_type, p_offset, p_vaddr, p_paddr, p_filesz, p_memsz, p_flags and p_align
    1, 0, 0, 0, 0, 0, 0, 0, 0, 0x80, 4, 8, 0, 0x80, 4, 8, 124, 0, 0, 0, 124, 0, 0, 0, 5, 0, 0, 0, 0, 16]

/-- A disk with the program as the only file `a`. -/
def programDisk : Disk := fun p =>
  if p < 4096 then 0
  -- the inodes of the root directory and of the file
  else if p < 4224 then [2, 0, 1, 0, 1, 0, 0, 0, 0, 4, 0, 0, 8, 8].getD (p - 4096) 0
  else if p < 1052672 then [1, 0, 1, 0, 1, 0, 0, 0, 124, 0, 0, 0, 10, 8].getD (p - 4224) 0
  -- the block of the root directory, and that of the file
  else if p < 1053696 then [0x80, 16, 0, 0, 97].getD (p - 1052672) 0
  else programImage.getD (p - 1053696) 0

/-- A message from a process with a path in its memory. -/
def pathMessage (number : ℕ) (path : List UInt8) (mr : ℕ → ℕ) : Message where
  number := number
  mr := mr
  text := fun _ => path
  bytes := fun _ _ => 0
  locals := zeroLocals
  buffer := fun _ => 0
  stack := fun _ _ _ => 0
  execve := { zeroEnv with granted := true }

/-- `open("/", O_RDONLY)` -/
def openRoot : Message := pathMessage 5 [slash] fun _ => 0

/-- `lseek(3, 5, SEEK_SET)` -/
def seekFive : Message := pathMessage 8 [slash] fun i => if i = 1 then 3 else if i = 2 then 5 else 0

/-- `execve("/a", 0, NULL)` -/
def execveProgram : Message := pathMessage 9 [slash, 97] fun _ => 0

/-- The operations of a list, one after the other. -/
def Requests.execAll (r : Requests) : List RequestOp → Option Requests
  | [] => some r
  | op :: ops => (r.exec op).bind fun r => r.execAll ops

theorem Requests.execAll_run {r r' : Requests} {ops : List RequestOp}
    (h : r.execAll ops = some r') : ReflTransGen (RequestStep fun _ _ => True) r r' := by
  induction ops generalizing r with
  | nil =>
    cases h
    exact .refl
  | cons op ops ih =>
    have ⟨r₁, hop, hops⟩ := Option.bind_eq_some_iff.mp h
    exact .head ⟨op, trivial, hop⟩ (ih hops)

/-- Two processes, in slots 0 and 1, that have sent nothing. -/
def twoIdle : Requests :=
  .boot ⟨smallFS programDisk 0 0, fun i => { zeroPCB with inuse := i == 0 || i == 1 }⟩

/-- Process 0 opens `/`, with process 1 beside it. -/
theorem run_requests_isolated_open :
    ∃ r r', ReflTransGen (RequestStep Drained) twoIdle r
      ∧ r.exec (.complete 0 openRoot) = some r'
      ∧ ((r'.server.procTable 0).fileTable 3).inuse = true
      ∧ (r'.server.procTable 1).fileTable = (r.server.procTable 1).fileTable := by
  let r : Requests := { twoIdle with pending := [⟨.openfile, 0, 0, 0, 0, ⟨0, 0⟩⟩] }
  have hstep : RequestStep Drained twoIdle r :=
    ⟨.request 0 openRoot, fun _ hd => (nomatch hd), rfl⟩
  have hrun := ReflTransGen.single hstep
  have hopen : ((r.exec (.complete 0 openRoot)).map fun r' =>
      ((r'.server.procTable 0).fileTable 3).inuse) = some true := by decide +kernel
  have ⟨r', hexec, hinuse⟩ := Option.map_eq_some_iff.mp hopen
  refine ⟨r, r', hrun, hexec, hinuse, run_requests_isolated hrun rfl hexec (b := 1) ?_⟩
  decide +kernel

/-- Process 1 sends a seek and is ended by process 0, which then starts a program. The new process takes
slot 1 and opens a file, and the seek moves its offset. -/
def seekAfterKill : List RequestOp :=
  [.request 1 seekFive, .request 0 (killMessage 1), .request 0 execveProgram, .request 1 openRoot,
    .complete 1 openRoot]

/-- A seek of a process that was ended moves the offset of the process that has its slot. -/
theorem stale_seek_moves_offset :
    ∃ r d r' g, ReflTransGen (RequestStep fun _ _ => True) twoIdle r
      ∧ r.pending[0]? = some d ∧ r.exec (.complete 0 seekFive) = some r'
      ∧ r.occupant 1 = some g ∧ g ≠ d.issuer
      ∧ (r'.server.procTable 1).fileTable ≠ (r.server.procTable 1).fileTable := by
  have hops : (twoIdle.execAll seekAfterKill).map (fun r => ((r.pending[0]?).map FileData.issuer,
      r.occupant 1, ((r.server.procTable 1).fileTable 3).offset))
        = some (some ⟨1, 0⟩, some ⟨1, 2⟩, 0) := by decide +kernel
  have hseek : (twoIdle.execAll seekAfterKill).bind (fun r => (r.exec (.complete 0 seekFive)).map
      fun r' => ((r'.server.procTable 1).fileTable 3).offset) = some 5 := by decide +kernel
  have ⟨r, hr, hst⟩ := Option.map_eq_some_iff.mp hops
  rw [hr] at hseek
  have ⟨r', hexec, hmoved⟩ := Option.map_eq_some_iff.mp hseek
  simp only [Prod.mk.injEq] at hst
  have ⟨hissuer, hocc, hoff⟩ := hst
  have ⟨d, hd, hfrom⟩ := Option.map_eq_some_iff.mp hissuer
  refine ⟨r, d, r', ⟨1, 2⟩, Requests.execAll_run hr, hd, hexec, hocc, ?_, ?_⟩
  · rw [hfrom]
    decide
  · intro heq
    rw [heq, hoff] at hmoved
    cases hmoved

end SeL4Sys

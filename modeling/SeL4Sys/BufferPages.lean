import SeL4Sys.DirRuns
import SeL4Sys.UserBuffers
import SeL4Sys.ContentRuns
import SeL4Sys.Shell

/-!
# Buffers in pages that may be swapped out

`readfile_handler` and `writefile_handler` reach the buffer of a process through the frame that
`vspace_get_cap` finds at its page. A page that is not in memory has no frame: `sel4utils_dup_and_map`
returns `NULL`, and the address of the buffer is the offset in the page alone.

The memory of the server itself is left out: where nothing of the process is mapped, an access of the
server has no result. The page where `sel4utils_dup_and_map` puts a frame is a parameter.
-/

namespace SeL4Sys

open Bytes Function

/-- `sel4utils_dup_and_map`, where `base` is the page that `vspace_map_pages` picks. -/
def dupAndMap (base : ℕ) : Option ℕ → ℕ
  | some _ => base
  | none => 0

/-- The bytes of a page from an address on. -/
def userBuf (page : Page) (vaddr : ℕ) : Buf := fun k =>
  if h : vaddr % pageSize + k < pageSize then page ⟨vaddr % pageSize + k, h⟩ else 0

/-- A page with the buffer at an address replaced. -/
def overlay (page : Page) (vaddr : ℕ) (str : Buf) : Page := fun o =>
  if vaddr % pageSize ≤ o.val then str (o.val - vaddr % pageSize) else page o

namespace Proc

/-- The frame that `setup_projection_space` looks up. -/
def projectedFrame (P : Proc) (vaddr : ℕ) : Option ℕ := getCap P.vspace (pageAlign4K vaddr)

/-- Where the server finds the buffer. -/
def projectedAddr (P : Proc) (base vaddr : ℕ) : ℕ :=
  setupProjectionSpace (dupAndMap base (P.projectedFrame vaddr)) vaddr

/-- What the server reads at an address while the page is projected; `none` when it faults. -/
def serverByte (P : Proc) (base vaddr q : ℕ) : Option UInt8 :=
  if pageOf q = pageOf base then
    (P.projectedFrame vaddr).map fun f => P.frame f (offsetOf q)
  else none

/-- The buffer as the server sees it. -/
def serverBuf (P : Proc) (base vaddr : ℕ) : Buf := fun k =>
  (P.serverByte base vaddr (P.projectedAddr base vaddr + k)).getD 0

/-- The process after the server has changed the buffer. -/
def storeBuf (P : Proc) (vaddr : ℕ) (str : Buf) : Proc :=
  match P.projectedFrame vaddr with
  | some f => { P with frame := update P.frame f (overlay (P.frame f) vaddr str) }
  | none => P

end Proc

/-- A handler around its file call. Every place of the buffer that the call touches has to be mapped,
and `sel4utils_unmap_dup` asserts that there is a frame at the address. -/
def withProjection {α : Type} (P : Proc) (base vaddr n : ℕ) (r : BufferRequest) (call : Buf → Option α) :
    Option α := do
  let str := P.serverBuf base vaddr
  let touched ← r.handle (dupAndMap base (P.projectedFrame vaddr)) vaddr n str
  if touched.all fun c => (List.range c.2).all fun k => (P.serverByte base vaddr (c.1 + k)).isSome then
    let out ← call str
    if (P.projectedFrame vaddr).isSome then some out else none
  else none

/-- `readfile_handler`: the two words of the reply, the control block and the process. -/
def Proc.readfileHandler (s : FS) (fcb : FCB) (fd : ℤ) (buffer : Buf) (P : Proc)
    (base vaddr n : ℕ) :
    Option (ℤ × ℕ × FCB × Proc) :=
  withProjection P base vaddr n (.readfile s fcb fd buffer) fun str =>
    let out := syscallReadfile s fcb fd str n buffer
    some (out.1, P.projectedAddr base vaddr, out.2.1, P.storeBuf vaddr out.2.2)

/-- `writefile_handler`: the reply, the file system and the control block. -/
def Proc.writefileHandler (s : FS) (fcb : FCB) (fd : ℤ) (buffer : Buf) (stack : ℕ → ℕ → Buf) (P : Proc)
    (base vaddr n : ℕ) : Option (ℤ × FS × FCB) :=
  withProjection P base vaddr n (.writefile s fcb fd buffer stack) fun str =>
    syscallWritefile s fcb fd str n buffer stack

/-! ## The page behind a buffer -/

variable {b : Backing} {P : Proc} {i f base vaddr n : ℕ} {r : Reservation}

theorem pageOf_pageAlign4K (vaddr : ℕ) : pageOf (pageAlign4K vaddr) = pageOf vaddr := by
  rw [pageOf, pageOf, pageAlign4K]
  simp only [pageSize]
  omega

/-- The frame of a page in memory holds the contents of the page. -/
theorem projectedFrame_inRAM (htable : P.Table) (hram : (P.vframe i).inRAM = true)
    (hr : (P.vframe i).reserve = some r) (hcovers : r.covers vaddr = true) :
    ∃ f a d, P.projectedFrame vaddr = some f ∧ P.vspace (pageOf r.start) = .mapped f a d := by
  have ⟨f, a, d, hmap⟩ := htable.mapped hram hr
  have hpage := (htable.covers_iff (htable.within i hram) hr).mp hcovers
  refine ⟨f, a, d, ?_, hmap⟩
  rw [Proc.projectedFrame, getCap, pageOf_pageAlign4K, hpage, hmap]

theorem projectedFrame_absent (htable : P.Table) (hi : i < P.vframes)
    (hram : (P.vframe i).inRAM = false) (hr : (P.vframe i).reserve = some r)
    (hcovers : r.covers vaddr = true) : P.projectedFrame vaddr = none := by
  rw [Proc.projectedFrame, getCap, pageOf_pageAlign4K, (htable.covers_iff hi hr).mp hcovers,
    htable.absent i r hi hram hr]

section frame
variable (hframe : P.projectedFrame vaddr = some f) (hbase : base % pageSize = 0)

include hframe

theorem projectedAddr_eq : P.projectedAddr base vaddr = base + vaddr % pageSize := by
  rw [Proc.projectedAddr, hframe, dupAndMap, setupProjectionSpace_eq]

include hbase

theorem serverByte_eq (k : ℕ) :
    P.serverByte base vaddr (base + vaddr % pageSize + k)
      = if h : vaddr % pageSize + k < pageSize then some (P.frame f ⟨vaddr % pageSize + k, h⟩)
        else none := by
  have hbase' : base % 4096 = 0 := hbase
  have hmod : vaddr % 4096 < 4096 := Nat.mod_lt _ (by norm_num)
  rw [Proc.serverByte, hframe]
  by_cases h : vaddr % pageSize + k < pageSize
  · have h' : vaddr % 4096 + k < 4096 := h
    have hpage : pageOf (base + vaddr % pageSize + k) = pageOf base := by
      show (base + vaddr % 4096 + k) / 4096 = base / 4096
      omega
    have hoffset : offsetOf (base + vaddr % pageSize + k) = ⟨vaddr % pageSize + k, h⟩ := by
      apply Fin.ext
      show (base + vaddr % 4096 + k) % 4096 = vaddr % 4096 + k
      omega
    rw [if_pos hpage, dif_pos h, Option.map_some, hoffset]
  · have h' : ¬ vaddr % 4096 + k < 4096 := h
    have hpage : pageOf (base + vaddr % pageSize + k) ≠ pageOf base := by
      show (base + vaddr % 4096 + k) / 4096 ≠ base / 4096
      omega
    rw [if_neg hpage, dif_neg h]

theorem serverBuf_eq : P.serverBuf base vaddr = userBuf (P.frame f) vaddr := by
  funext k
  rw [Proc.serverBuf, projectedAddr_eq hframe, serverByte_eq hframe hbase, userBuf]
  split_ifs <;> rfl

end frame

/-! ## The handlers -/

theorem BufferRequest.demand_le (q : BufferRequest) (n : ℕ) : q.demand n ≤ n := by
  cases q with
  | readstdin k => exact min_le_left ..
  | writestdout => exact le_rfl
  | readfile s fcb fd buffer =>
    rw [demand]
    split_ifs
    · exact Nat.zero_le n
    · exact min_le_left ..
  | writefile s fcb fd buffer stack =>
    rw [demand]
    split_ifs
    · exact Nat.zero_le n
    · exact le_rfl

section handlers
variable {α : Type} {q : BufferRequest} {call : Buf → Option α}

/-- With a frame the call works on the frame, when the buffer lies in the page. -/
theorem withProjection_some (hframe : P.projectedFrame vaddr = some f) (hbase : base % pageSize = 0)
    (hmounted : q.Mounted) (hlies : vaddr % pageSize + n ≤ pageSize) :
    withProjection P base vaddr n q call = call (userBuf (P.frame f) vaddr) := by
  have ⟨k, hcopies, hk, _⟩ := q.copies_consecutive hmounted (userBuf (P.frame f) vaddr) n
  have hdemand := q.demand_le n
  have hall : (((q.copies (userBuf (P.frame f) vaddr) n).map fun c =>
      (base + vaddr % pageSize + c.1, c.2)).all fun c => (List.range c.2).all fun j =>
        (P.serverByte base vaddr (c.1 + j)).isSome) = true := by
    simp only [List.all_eq_true, List.mem_map, List.mem_range]
    rintro _ ⟨c, hc, rfl⟩ j hj
    have htouched : Touched (q.copies (userBuf (P.frame f) vaddr) n) (c.1 + j) :=
      ⟨c, hc, Nat.le_add_right .., Nat.add_lt_add_left hj _⟩
    have hlt := (hcopies.touched_iff.mp htouched).2
    rw [Nat.add_assoc, serverByte_eq hframe hbase, dif_pos (by omega)]
    rfl
  rw [withProjection, serverBuf_eq hframe hbase, hframe, dupAndMap, BufferRequest.handle_eq,
    Option.bind_eq_bind, Option.bind_some, if_pos hall]
  simp

/-- Without a frame the handler does not come to its end. -/
theorem withProjection_none (hframe : P.projectedFrame vaddr = none) :
    withProjection P base vaddr n q call = none := by
  rw [withProjection, hframe]
  simp

end handlers

/-! ## Transfers -/

/-- The contents of the page of a VFrame, zeros when it has not been in memory yet. -/
def currentPage (b : Backing) (P : Proc) (i : ℕ) : Page := (content b P i).getD fun _ => 0

/-- `readfile_handler` puts into the page of VFrame `i` what `syscall_readfile` reads, and changes no
other page. -/
def ReadsInto (b : Backing) (P : Proc) (i : ℕ) (s : FS) (fcb : FCB) (fd : ℤ) (buffer : Buf)
    (base vaddr n : ℕ) : Prop :=
  let out := syscallReadfile s fcb fd (userBuf (currentPage b P i) vaddr) n buffer
  ∃ addr P', Proc.readfileHandler s fcb fd buffer P base vaddr n = some (out.1, addr, out.2.1, P')
    ∧ content b P' i = some (overlay (currentPage b P i) vaddr out.2.2)
    ∧ ∀ j, j ≠ i → content b P' j = content b P j

/-- `writefile_handler` writes what the page of VFrame `i` holds. -/
def WritesFrom (b : Backing) (P : Proc) (i : ℕ) (s : FS) (fcb : FCB) (fd : ℤ) (buffer : Buf)
    (stack : ℕ → ℕ → Buf) (base vaddr n : ℕ) : Prop :=
  Proc.writefileHandler s fcb fd buffer stack P base vaddr n
    = syscallWritefile s fcb fd (userBuf (currentPage b P i) vaddr) n buffer stack

/-- A buffer that is changed is part of the contents of one page. -/
theorem content_storeBuf (htable : P.Table) (hram : (P.vframe i).inRAM = true)
    (hr : (P.vframe i).reserve = some r) (hframe : P.projectedFrame vaddr = some f) {a d : Bool}
    (hmap : P.vspace (pageOf r.start) = .mapped f a d) (str : Buf) :
    content b (P.storeBuf vaddr str) i = some (overlay (P.frame f) vaddr str)
      ∧ ∀ j, j ≠ i → content b (P.storeBuf vaddr str) j = content b P j := by
  have hstore : P.storeBuf vaddr str
      = { P with frame := update P.frame f (overlay (P.frame f) vaddr str) } := by
    rw [Proc.storeBuf, hframe]
  rw [hstore]
  -- only the frame changes, so a page in memory holds what its frame holds now
  have hpage : ∀ j rj g aj dj, (P.vframe j).inRAM = true → (P.vframe j).reserve = some rj →
      P.vspace (pageOf rj.start) = .mapped g aj dj →
      content b { P with frame := update P.frame f (overlay (P.frame f) vaddr str) } j
        = some (update P.frame f (overlay (P.frame f) vaddr str) g) :=
    fun j rj g aj dj hramj hrj hmapj => content_inRAM
      (P := { P with frame := update P.frame f (overlay (P.frame f) vaddr str) }) hramj hrj hmapj
  refine ⟨?_, ?_⟩
  · rw [hpage i r f a d hram hr hmap, update_self]
  · intro j hj
    by_cases hramj : (P.vframe j).inRAM = true
    · have ⟨rj, g, aj, dj, hrj, hmapj⟩ := htable.resident j hramj
      have hg : g ≠ f := by
        intro heq
        rw [heq] at hmapj
        exact hj (htable.eq_of_frame hramj hram hrj hr hmapj hmap)
      rw [hpage j rj g aj dj hramj hrj hmapj, update_of_ne hg,
        content_inRAM hramj hrj hmapj]
    · have hramj : (P.vframe j).inRAM = false := by simpa using hramj
      rw [content_absent (P := P) hramj]
      exact content_absent hramj

section transfers
variable (s : FS) (fcb : FCB) (fd : ℤ) (buffer : Buf) (stack : ℕ → ℕ → Buf)

section resident
variable (htable : P.Table) (hram : (P.vframe i).inRAM = true) (hr : (P.vframe i).reserve = some r)
  (hcovers : r.covers vaddr = true) (hbase : base % pageSize = 0)
  (hmounted : 0 < s.superBlock.blockSize) (hlies : vaddr % pageSize + n ≤ pageSize)

include htable hram hr hcovers hbase hmounted hlies

theorem readsInto_inRAM : ReadsInto b P i s fcb fd buffer base vaddr n := by
  have ⟨f, a, d, hframe, hmap⟩ := projectedFrame_inRAM htable hram hr hcovers
  have hcurrent : currentPage b P i = P.frame f := by
    rw [currentPage, content_inRAM hram hr hmap, Option.getD_some]
  have hstored := content_storeBuf (b := b) htable hram hr hframe hmap
    (syscallReadfile s fcb fd (userBuf (P.frame f) vaddr) n buffer).2.2
  rw [ReadsInto, hcurrent]
  refine ⟨P.projectedAddr base vaddr, _, ?_, hstored⟩
  rw [Proc.readfileHandler,
    withProjection_some (q := .readfile s fcb fd buffer) hframe hbase hmounted hlies]

theorem writesFrom_inRAM : WritesFrom b P i s fcb fd buffer stack base vaddr n := by
  have ⟨f, a, d, hframe, hmap⟩ := projectedFrame_inRAM htable hram hr hcovers
  rw [WritesFrom, currentPage, content_inRAM hram hr hmap, Option.getD_some, Proc.writefileHandler,
    withProjection_some (q := .writefile s fcb fd buffer stack) hframe hbase hmounted hlies]

end resident

/-- In every state that is reached, for a buffer within a page of the process: the handlers work on
the current contents of the page when the page is in memory, and only then, except that
`writefile_handler` has nothing to show for a write that `syscall_writefile` itself does not finish. -/
theorem handlers_transfer_iff {w : Swap} {file : Name → Page} {sys : Sys} {p : ℕ}
    (hrun : VmRun (fun _ _ => True) (bootSys w file) sys) (hP : sys.proc p = some P)
    (hi : i < P.vframes) (hr : (P.vframe i).reserve = some r) (hcovers : r.covers vaddr = true)
    (hlies : vaddr % pageSize + n ≤ pageSize) (hbase : base % pageSize = 0)
    (hmounted : 0 < s.superBlock.blockSize) :
    (ReadsInto sys.toBacking P i s fcb fd buffer base vaddr n ↔ (P.vframe i).inRAM = true)
      ∧ ((P.vframe i).inRAM = true → WritesFrom sys.toBacking P i s fcb fd buffer stack base vaddr n)
      ∧ (syscallWritefile s fcb fd (userBuf (currentPage sys.toBacking P i) vaddr) n buffer stack ≠ none →
          WritesFrom sys.toBacking P i s fcb fd buffer stack base vaddr n → (P.vframe i).inRAM = true) := by
  have htable := (VmRun.procsOk bootSys_procsOk hrun p P hP).table
  have habsent : (P.vframe i).inRAM ≠ true → P.projectedFrame vaddr = none := by
    intro hram
    exact projectedFrame_absent htable hi (by simpa using hram) hr hcovers
  refine ⟨⟨?_, ?_⟩, ?_, ?_⟩
  · intro ⟨addr, P', hhandler, _⟩
    by_contra hram
    rw [Proc.readfileHandler, withProjection_none (habsent hram)] at hhandler
    cases hhandler
  · intro hram
    exact readsInto_inRAM s fcb fd buffer htable hram hr hcovers hbase hmounted hlies
  · intro hram
    exact writesFrom_inRAM s fcb fd buffer stack htable hram hr hcovers hbase hmounted hlies
  · intro hreturns hwrites
    by_contra hram
    rw [WritesFrom, Proc.writefileHandler, withProjection_none (habsent hram)] at hwrites
    exact hreturns hwrites.symm

end transfers

/-- Ten bytes of a directory are read into the first page of the stack of a process that has just
started. -/
theorem handlers_transfer_iff_stack : ReadsInto ⟨⟨[], 0⟩, fun _ _ => 0⟩ startedProc 0
    (dirFS 1) ⟨true, 4096, 0, 2⟩ 3 (fun _ => 0) pageSize (shellPage 0 * pageSize) 10 :=
  (handlers_transfer_iff (dirFS 1) ⟨true, 4096, 0, 2⟩ 3 (fun _ => 0)
    (fun _ _ _ => 0) (i := 0)
    (Relation.ReflTransGen.single ⟨_, trivial, exec_start ⟨[], 0⟩ fun _ _ => 0⟩) shellSys_proc
    (by decide) rfl (by decide) (by decide) (by decide) (by decide)).1.mpr rfl

/-- A page of the heap that the process has just got from `SYSCALL_BRK`: nothing is read into it. -/
theorem new_heap_page_not_read : ∃ sys P,
    VmRun (fun _ _ => True) (bootSys ⟨[], 0⟩ fun _ _ => 0) sys ∧ sys.proc 0 = some P ∧ 16 < P.vframes
      ∧ (P.vframe 16).reserve = some ⟨heapBaseVaddr, heapBaseVaddr + pageSize⟩
      ∧ ¬ ReadsInto sys.toBacking P 16 (dirFS 1) ⟨true, 4096, 0, 2⟩ 3 (fun _ => 0)
          pageSize heapBaseVaddr 10 := by
  refine ⟨shellSys ⟨⟨[], 0⟩, fun _ _ => 0⟩ (warmProc 17 stackPages), _, ?_, shellSys_proc, by decide, rfl, ?_⟩
  · exact warm_run (n := 1) (k := 0) (by decide) (by decide) (by decide) (by decide) trivial trivial
      trivial fun _ _ _ => trivial
  · intro ⟨addr, P', hhandler, _⟩
    rw [Proc.readfileHandler, withProjection_none (by decide)] at hhandler
    cases hhandler

end SeL4Sys

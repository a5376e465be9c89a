import SeL4Sys.Pagefile

/-!
# Virtual memory of a process

The VFrames of a process and the functions of `vmfault_handler.c` that work on them, with
`vspace_new_sized_stack` of `vspace.c` and the request `SYSCALL_BRK` of `syscall_handler.c`.

A VFrame is pushed at the head of the list and stays there while the process lives, so a pointer
to it is the number of VFrames that were pushed before it: the list runs from `vframes - 1` down
to `0` and the `next` of `i + 1` is `i`. Addresses are words of 32 bits. A run of the code that
dereferences `NULL`, fails an assertion or does not return has no result.
-/

namespace SeL4Sys

open Function

/-- `PAGE_SIZE_4K` -/
@[simp] abbrev pageSize : ℕ := 4096

/-- The number of values of a `seL4_Word`. -/
@[simp] abbrev wordNum : ℕ := 4294967296

/-- `MAX_PFRAME_NUM` -/
@[simp] abbrev maxPframeNum : ℕ := 256

/-- `HEAP_BASE_VADDR` -/
@[simp] abbrev heapBaseVaddr : ℕ := 0x10000000

/-- `STACK_TOP_VADDR` -/
@[simp] abbrev stackTopVaddr : ℕ := 0xc0000000

/-- The pages of the first stack, `STACK_SIZE` in pages. -/
@[simp] abbrev stackPages : ℕ := 16

/-- The contents of a page. -/
abbrev Page := Fin pageSize → UInt8

/-- What `reserve` of a VFrame points to. -/
structure Reservation where
  start : ℕ
  stop : ℕ
deriving DecidableEq

/-- An address in a reserved range. -/
def Reservation.covers (r : Reservation) (vaddr : ℕ) : Bool := r.start ≤ vaddr && vaddr < r.stop

/-- `VFrame` without its list pointer; `reserve` is `none` for `NULL`. -/
structure VFrame where
  reserve : Option Reservation
  accessed : ℕ
  dirty : ℕ
  inRAM : Bool
  pagefile : Option Name
deriving DecidableEq

/-- What the address space knows of a page: nothing, that it is reserved, that it belongs to the
program image or the IPC buffer, or the frame that is mapped there with the status bits of the
page table. -/
inductive VEntry
  | empty
  | reserved
  | image
  | mapped (frame : ℕ) (accessed dirty : Bool)
deriving DecidableEq

/-- The address space of a process, by page number. -/
abbrev VSpace := ℕ → VEntry

/-- The part of a PCB that virtual memory uses: the list of VFrames, `replacer`, `pframes_used`,
`heap_top`, the address space, and the frames it has obtained with their contents. -/
@[ext]
structure Proc where
  vframe : ℕ → VFrame
  vframes : ℕ
  replacer : Option ℕ
  pframesUsed : ℕ
  heapTop : ℕ
  vspace : VSpace
  frame : ℕ → Page
  frameNum : ℕ

/-- The page that an address lies in. -/
def pageOf (vaddr : ℕ) : ℕ := vaddr / pageSize

/-! ## The address space -/

/-- `vspace_reserve_range_at` for one page; both callers pass a page aligned address. -/
def reserveRangeAt (vs : VSpace) (vaddr : ℕ) : Option Reservation × VSpace :=
  if vs (pageOf vaddr) = .empty then
    (some ⟨vaddr, vaddr + pageSize⟩, update vs (pageOf vaddr) .reserved)
  else (none, vs)

/-- `vspace_map_pages_at_vaddr` for one page, whose error the callers ignore: a frame is mapped
where the page is reserved and no frame is mapped yet. -/
def mapPage (vs : VSpace) (vaddr frame : ℕ) : VSpace :=
  if vs (pageOf vaddr) = .reserved then
    update vs (pageOf vaddr) (.mapped frame false false)
  else vs

/-- `vspace_get_cap`; `none` when no frame is mapped. -/
def getCap (vs : VSpace) (vaddr : ℕ) : Option ℕ :=
  match vs (pageOf vaddr) with
  | .mapped frame _ _ => some frame
  | _ => none

/-- `seL4_X86_PageDirectory_GetStatusBits`: the accessed and the dirty bit. -/
def getStatusBits (vs : VSpace) (vaddr : ℕ) : Bool × Bool :=
  match vs (pageOf vaddr) with
  | .mapped _ accessed dirty => (accessed, dirty)
  | _ => (false, false)

namespace Proc

/-- `vspace_new_pages_at_vaddr` for one page: a frame from the kernel is filled with zeros. -/
def newPagesAtVaddr (P : Proc) (vaddr : ℕ) : Proc :=
  if P.vspace (pageOf vaddr) = .reserved then
    { P with
      vspace := mapPage P.vspace vaddr P.frameNum
      frame := update P.frame P.frameNum fun _ => 0
      frameNum := P.frameNum + 1 }
  else P

/-! ## The list of VFrames -/

/-- The head of the list. -/
def head (P : Proc) : Option ℕ := if P.vframes = 0 then none else some (P.vframes - 1)

/-- A VFrame in front of the list. -/
def push (P : Proc) (vf : VFrame) : Proc :=
  { P with vframe := update P.vframe P.vframes vf, vframes := P.vframes + 1 }

/-- A VFrame with new contents. -/
def setVframe (P : Proc) (i : ℕ) (vf : VFrame) : Proc :=
  { P with vframe := update P.vframe i vf }

/-- The loop of `find_vframe` over the last `n` VFrames of the list. The outer `none` is a `NULL`
reservation that is dereferenced. -/
def findLoop (P : Proc) (vaddr : ℕ) : ℕ → Option (Option ℕ)
  | 0 => some none
  | n + 1 =>
    match (P.vframe n).reserve with
    | none => none
    | some r => if r.covers vaddr then some (some n) else findLoop P vaddr n

/-- `find_vframe` -/
def findVframe (P : Proc) (vaddr : ℕ) : Option (Option ℕ) := P.findLoop vaddr P.vframes

/-! ## Replacing a page -/

/-- The first loop of `page_replace`, on one VFrame. No VFrame in memory has a `NULL`
reservation. -/
def refreshFrame (P : Proc) (vf : VFrame) : VFrame :=
  if vf.inRAM then
    let status := (vf.reserve.map fun r => getStatusBits P.vspace r.start).getD (false, false)
    { vf with accessed := 2 * status.1.toNat, dirty := 2 * status.2.toNat }
  else vf

/-- The first loop of `page_replace`: the status bits of all VFrames in memory. -/
def refresh (P : Proc) : Proc :=
  { P with vframe := fun i => if i < P.vframes then P.refreshFrame (P.vframe i) else P.vframe i }

/-- Where the second loop goes from VFrame `r`: to the next one, or back to the head. -/
def nextVframe (P : Proc) (r : ℕ) : ℕ := if r = 0 then P.vframes - 1 else r - 1

/-- The second chance that a VFrame in memory gets. -/
def age (vf : VFrame) : VFrame :=
  if vf.inRAM then
    if vf.dirty = 2 then { vf with dirty := 1 } else { vf with accessed := 1 }
  else vf

/-- A VFrame that the second loop of `page_replace` stops at. -/
def chosen (vf : VFrame) : Bool := vf.inRAM && vf.accessed < 2 && vf.dirty < 2

/-- A pass of the second loop that does not end it. -/
def pass (P : Proc) (r : ℕ) : Proc :=
  { P.setVframe r (age (P.vframe r)) with replacer := some (P.nextVframe r) }

/-- The second loop of `page_replace`: the VFrame to replace. -/
def chanceLoop : ℕ → Proc → Option (ℕ × Proc)
  | 0, _ => none
  | fuel + 1, P =>
    P.replacer.bind fun r => if chosen (P.vframe r) then some (r, P) else chanceLoop fuel (P.pass r)

end Proc

/-- The pagefiles and their contents. -/
structure Backing where
  swap : Swap
  file : Name → Page

/-- What `page_replace` decides about the pagefile of the page it replaces: the file, whether the
page is saved, and the list after a pagefile has been taken. -/
structure PageOut where
  name : Name
  save : Bool
  swap : Swap

/-- The pagefile of the page to replace, and whether it has to be written. -/
def pageOut (w : Swap) (vf : VFrame) : PageOut :=
  match vf.pagefile with
  | some name => ⟨name, vf.dirty != 0, w⟩
  | none => ⟨(getPagefile w).1, true, (getPagefile w).2⟩

namespace Proc

/-- The page of VFrame `v` is unmapped and stays reserved. -/
def unmap (P : Proc) (v : ℕ) (start : ℕ) (name : Name) : Proc :=
  { P with
    vframe := update P.vframe v
      { P.vframe v with pagefile := some name, inRAM := false }
    vspace := update P.vspace (pageOf start) .reserved }

/-- `read_file_to_page` into a frame, when the VFrame has a pagefile. -/
def pageIn (P : Proc) (b : Backing) (i f : ℕ) : Proc :=
  match (P.vframe i).pagefile with
  | some name => { P with frame := update P.frame f (b.file name) }
  | none => P

/-- A frame is mapped at the page of VFrame `i`. -/
def mapFrame (P : Proc) (i start f : ℕ) : Proc :=
  { P with
    vframe := update P.vframe i { P.vframe i with inRAM := true }
    vspace := mapPage P.vspace start f }

end Proc

/-- The pagefiles after the page in a frame has been saved, if it has to be. -/
def Backing.write (b : Backing) (out : PageOut) (page : Page) : Backing where
  swap := out.swap
  file := if out.save then update b.file out.name page else b.file

/-- `page_replace` -/
def pageReplace (b : Backing) (P : Proc) (i : ℕ) : Option (Backing × Proc) := do
  let (v, P) ← Proc.chanceLoop (3 * P.vframes) P.refresh
  let out := pageOut b.swap (P.vframe v)
  let r ← (P.vframe v).reserve
  let f ← getCap P.vspace r.start
  let b := b.write out (P.frame f)
  let P := (P.unmap v r.start out.name).pageIn b i f
  let r ← (P.vframe i).reserve
  some (b, P.mapFrame i r.start f)

/-- `alloc_frame` -/
def allocFrame (b : Backing) (P : Proc) (i : ℕ) : Option (Backing × Proc) :=
  if maxPframeNum ≤ P.pframesUsed then pageReplace b P i
  else do
    let r ← (P.vframe i).reserve
    let P := { P with pframesUsed := P.pframesUsed + 1 }.newPagesAtVaddr r.start
    some (b, P.setVframe i { P.vframe i with inRAM := true })

/-! ## Growing the stack and the heap -/

/-- The VFrame that `expand_stack` and `SYSCALL_BRK` make for a reservation. -/
def newVframe (reserve : Option Reservation) : VFrame := ⟨reserve, 0, 0, false, none⟩

/-- A page is reserved and a VFrame for it pushed. -/
def Proc.reservePage (P : Proc) (vaddr : ℕ) : Proc :=
  let r := reserveRangeAt P.vspace vaddr
  { P with vspace := r.2 }.push (newVframe r.1)

/-- `expand_stack` -/
def expandStack (b : Backing) (P : Proc) (faultVaddr : ℕ) : Option (Backing × Proc) :=
  allocFrame b (P.reservePage (pageOf faultVaddr * pageSize)) P.vframes

/-- A round of the loop of `SYSCALL_BRK`. -/
def Proc.grow (P : Proc) : Proc :=
  { P.reservePage P.heapTop with heapTop := (P.heapTop + pageSize) % wordNum }

/-- The loop of `SYSCALL_BRK`. -/
def brkLoop (newBrk : ℕ) : ℕ → Proc → Option Proc
  | 0, _ => none
  | fuel + 1, P => if P.heapTop < newBrk then brkLoop newBrk fuel P.grow else some P

/-- The request `SYSCALL_BRK`: the reply and the process. A loop that is still running after as
many rounds as there are pages has come back to where it was and does not end. -/
def syscallBrk (P : Proc) (newBrk : ℕ) : Option (ℕ × Proc) :=
  if newBrk = 0 then some (heapBaseVaddr, { P with heapTop := heapBaseVaddr })
  else if P.heapTop ≤ newBrk then
    (brkLoop newBrk (wordNum / pageSize) P).map fun P => (P.heapTop, P)
  else none

/-! ## A new process -/

/-- The loop of `vspace_new_sized_stack`. -/
def stackLoop : ℕ → ℕ → Proc → Option Proc
  | 0, _, P => some P
  | n + 1, cur, P => do
    let r := reserveRangeAt P.vspace cur
    let reserve ← r.1
    let P := { P with vspace := r.2 }.newPagesAtVaddr cur
    let P := P.push { newVframe (some reserve) with inRAM := true }
    stackLoop n (cur + pageSize) { P with pframesUsed := P.pframesUsed + 1 }

/-- A process without VFrames, in a slot of the table that has been cleared. -/
def emptyProc (vs : VSpace) : Proc where
  vframe := fun _ => newVframe none
  vframes := 0
  replacer := none
  pframesUsed := 0
  heapTop := 0
  vspace := vs
  frame := fun _ _ => 0
  frameNum := 0

/-- A process as `syscall_execve` and `load_shell` start it, in an address space that has the
program image and the IPC buffer. -/
def newProcess (vs : VSpace) : Option Proc :=
  (stackLoop stackPages (stackTopVaddr - stackPages * pageSize) (emptyProc vs)).map fun P =>
    { P with replacer := P.head }

end SeL4Sys

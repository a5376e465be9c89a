import SeL4Sys.Descriptors
import SeL4Sys.FaultService

/-!
# Pages on the disk

The fault server with its pagefiles in the file system. `get_pagefile` creates a file when its list has
none to give, and `write_page_to_file` and `read_file_to_page` open the file by its path and write or read
its first page. A path is looked up by the first entry that begins with its name, so two names can be one
file, and a write needs blocks that the disk may not have. As long as every call finds its file and its
room, the disk is a store with one page for each name, and a run on the disk is a run over that store.
-/

namespace SeL4Sys

open Bytes Function Relation

/-! ## The calls of `pagefile.c` -/

/-- What the locals of a call hold before they are set. -/
structure PageCall where
  locals : Locals
  buffer : Buf
  stack : ℕ → ℕ → Buf

/-- The bytes of a page in memory. -/
def pageBytes (page : Page) : Buf := fun k => page (offsetOf k)

/-- `write_page_to_file`: the inode that it opens, and the file system. After a failed open it goes on with
an inode that is not there: `none`, as for a failed assertion. -/
def writePageToFile (fs : FS) (filename : Name) (page : Page) (c : PageCall) : Option (ℕ × FS) := do
  let (o, fs) ← syscallOpen fs filename 2 c.locals
  if o < 0 then none
  else (syscallWritefile fs (pageFCB o.toNat) 3 (pageBytes page) 4096 c.buffer c.stack).map fun r =>
    (o.toNat, r.2.1)

/-- `read_file_to_page` -/
def readFileToPage (fs : FS) (filename : Name) (c : PageCall) : Option Page := do
  let (o, fs) ← syscallOpen fs filename 2 c.locals
  if o < 0 then none
  else
    let r := syscallReadfile fs (pageFCB o.toNat) 3 (fun _ => 0) 4096 c.buffer
    if r.1 = 4096 then some fun k => r.2.2 k else none

/-- The calls of one `page_replace`. -/
structure PageCalls where
  create : Locals
  write : PageCall
  read : PageCall

/-- The list of pagefiles and the file system. `home` is not in memory: it says for a name which inode its
page was last written to, as long as no other page was written there. -/
structure PageDisk where
  swap : Swap
  fs : FS
  home : Name → Option ℕ

/-- The page in inode `o` is from now on that of `name`. -/
def moveHome (home : Name → Option ℕ) (name : Name) (o : ℕ) : Name → Option ℕ := fun n =>
  if n = name then some o else if home n = some o then none else home n

namespace PageDisk

/-- `get_pagefile` makes a new name for a VFrame. -/
def makes (b : PageDisk) (vf : VFrame) : Bool :=
  vf.pagefile.isNone && (takeUnused b.swap.pagefiles).isNone

/-- The file system after `get_pagefile`, which creates the file of a new name. -/
def created (b : PageDisk) (vf : VFrame) (l : Locals) : Option FS :=
  if b.makes vf then (syscallOpen b.fs (pageOut b.swap vf).name 64 l).map Prod.snd else some b.fs

/-- What `page_replace` does with the page that goes out. -/
def save (b : PageDisk) (vf : VFrame) (page : Page) (c : PageCalls) : Option PageDisk := do
  let out := pageOut b.swap vf
  let fs ← b.created vf c.create
  if out.save then
    (writePageToFile fs out.name page c.write).map fun r => ⟨out.swap, r.2, moveHome b.home out.name r.1⟩
  else some ⟨out.swap, fs, b.home⟩

/-- What it does with the page that comes in, into frame `f`. -/
def readIn (b : PageDisk) (P : Proc) (i f : ℕ) (c : PageCall) : Option Proc :=
  match (P.vframe i).pagefile with
  | some name => (readFileToPage b.fs name c).map fun page =>
      { P with frame := update P.frame f page }
  | none => some P

/-- `page_replace` -/
def replace (b : PageDisk) (P : Proc) (i : ℕ) (c : PageCalls) : Option (PageDisk × Proc) := do
  let (v, P) ← Proc.chanceLoop (3 * P.vframes) P.refresh
  let r ← (P.vframe v).reserve
  let f ← getCap P.vspace r.start
  let b' ← b.save (P.vframe v) (P.frame f) c
  let P ← b'.readIn (P.unmap v r.start (pageOut b.swap (P.vframe v)).name) i f c.read
  let r ← (P.vframe i).reserve
  some (b', P.mapFrame i r.start f)

/-- `alloc_frame` -/
def alloc (b : PageDisk) (P : Proc) (i : ℕ) (c : PageCalls) : Option (PageDisk × Proc) :=
  if maxPframeNum ≤ P.pframesUsed then b.replace P i c
  else (P.vframe i).reserve.map fun r => (b, P.allotted i r)

end PageDisk

/-- All processes with the pagefiles on the disk. -/
structure DiskSys extends PageDisk where
  proc : ℕ → Option Proc

namespace DiskSys

/-- The system with process `p` and the disk as given. -/
def setProc (t : DiskSys) (p : ℕ) (r : PageDisk × Proc) : DiskSys where
  toPageDisk := r.1
  proc := update t.proc p (some r.2)

/-- `syscall_kill` -/
def kill (t : DiskSys) (p : ℕ) : DiskSys :=
  match t.proc p with
  | none => t
  | some P => { t with swap := freeLoop P P.vframes t.swap, proc := update t.proc p none }

/-- `handle_vmfault` for a VM fault -/
def handleVmfault (t : DiskSys) (p vaddr ip : ℕ) (c : PageCalls) : Option (DiskSys × Bool) := do
  let P ← t.proc p
  let vframe ← P.findVframe vaddr
  if P.expands vaddr then
    (t.alloc (P.reservePage (pageOf vaddr * pageSize)) P.vframes c).map fun r => (t.setProc p r, true)
  else
    match vframe with
    | none => some (if ip = 0 then t.kill p else t, false)
    | some i => (t.alloc P i c).map fun r => (t.setProc p r, true)

/-- The system with a store of pages in place of the disk. -/
def sys (t : DiskSys) (file : Name → Page) : Sys := { swap := t.swap, file := file, proc := t.proc }

end DiskSys

/-! ## Calls that find their file and their room -/

/-- The calls for a page that goes out: a file can be created, and the page is written to a regular file
with room for it. -/
structure SaveLegal (b : PageDisk) (vf : VFrame) (l : Locals) : Prop where
  create : b.makes vf = true → (∀ x ∈ (pageOut b.swap vf).name, x ≠ 0)
    ∧ LegalOpen b.fs (pageOut b.swap vf).name 64
  write : (pageOut b.swap vf).save = true → ∀ fs, b.created vf l = some fs →
    ∃ o, FoundAt fs (pageOut b.swap vf).name o ∧ WriteFits fs (pageFCB o) 4096

/-- The calls of one `alloc_frame`. The page that comes in is found where it was written to. -/
def AllocLegal (b : PageDisk) (P : Proc) (i : ℕ) (c : PageCalls) : Prop :=
  maxPframeNum ≤ P.pframesUsed → ∀ v P₁ r f,
    Proc.chanceLoop (3 * P.vframes) P.refresh = some (v, P₁) → (P₁.vframe v).reserve = some r →
    getCap P₁.vspace r.start = some f →
    SaveLegal b (P₁.vframe v) c.create
      ∧ ∀ name, ((P₁.unmap v r.start (pageOut b.swap (P₁.vframe v)).name).vframe i).pagefile = some name →
          ∀ b', b.save (P₁.vframe v) (P₁.frame f) c = some b' →
            ∃ o, b'.home name = some o ∧ FoundAt b'.fs name o

/-- The calls of one fault. -/
def FaultLegal (t : DiskSys) (p vaddr : ℕ) (c : PageCalls) : Prop := ∀ P, t.proc p = some P →
  (P.expands vaddr = true →
      AllocLegal t.toPageDisk (P.reservePage (pageOf vaddr * pageSize)) P.vframes c)
    ∧ (P.expands vaddr = false → ∀ i, P.findVframe vaddr = some (some i) →
        AllocLegal t.toPageDisk P i c)

/-! ## The pages on the disk -/

/-- The file at `o` begins with the page. -/
structure Stores (fs : FS) (o : ℕ) (page : Page) : Prop where
  inUse : fs.InUse o
  regular : ¬ IsDir fs.disk o
  bytes : (fs.content o).take pageSize = bytesOf (pageBytes page) pageSize

/-- The file system is well formed, and each page is where it was written to. -/
structure Stored (fs : FS) (home : Name → Option ℕ) (file : Name → Page) : Prop where
  ok : FsOk fs
  sizes : SizesOk fs
  pages : ∀ name o, home name = some o → Stores fs o (file name)

variable {b : PageDisk} {fs fs' : FS} {home : Name → Option ℕ} {file : Name → Page} {vf : VFrame}
  {name : Name} {page : Page} {o p vaddr ip i : ℕ} {c : PageCalls} {P P' : Proc} {t t' : DiskSys}
  {byte : UInt8}

theorem Stores.kept (h : Stores fs o page) (hsizes : SizesOk fs) (hused : fs'.InUse o)
    (hinode : loadInode fs'.disk o = loadInode fs.disk o)
    (hfile : ∀ p, p < (loadInode fs.disk o).blocks * 1024 →
      fileByte fs'.disk (loadInode fs.disk o) p = fileByte fs.disk (loadInode fs.disk o) p) :
    Stores fs' o page where
  inUse := hused
  regular := by
    rw [IsDir, hinode]
    exact h.regular
  bytes := by
    rw [content_eq_of_file hsizes h.inUse hinode hfile]
    exact h.bytes

/-- Creating a file keeps the pages. -/
theorem Stored.created (h : Stored b.fs b.home file) (hlegal : SaveLegal b vf l) :
    ∃ fs, b.created vf l = some fs ∧ Stored fs b.home file := by
  unfold PageDisk.created
  split_ifs with hmakes
  swap
  · exact ⟨b.fs, rfl, h⟩
  obtain ⟨hchars, hopen⟩ := hlegal.create hmakes
  obtain ⟨r, fs, hrun, hend⟩ := syscallOpen_end h.ok hchars hopen l
  refine ⟨fs, by rw [hrun]; rfl, ?_⟩
  cases hend with
  | found => exact h
  | failed => exact h
  | created x _ hnew =>
    refine ⟨hnew.ok, h.sizes.created hnew, fun name o ho => ?_⟩
    have hold := h.pages name o ho
    exact hold.kept h.sizes ((hnew.inUse o).mpr (Or.inl hold.inUse)) (hnew.inode o hold.inUse)
      (hnew.file o hold.inUse hold.regular)

/-- Writing a page puts it where the name leads to, and keeps the pages elsewhere. -/
theorem Stored.write (h : Stored fs home file) (hfound : FoundAt fs name o)
    (hfits : WriteFits fs (pageFCB o) 4096) (page : Page) (c : PageCall) :
    ∃ fs', writePageToFile fs name page c = some (o, fs')
      ∧ Stored fs' (moveHome home name o) (update file name page) := by
  obtain ⟨hopen, hused⟩ := syscallOpen_found h.ok hfound.chars hfound.passes hfound.leads 2 c.locals
  have hvalid : (pageFCB o).valid 3 = true := rfl
  have hlen : (0 : ℤ) < 4096 := by decide
  obtain ⟨fs', hwrite, hok, hsizes, hkept, pre, hpre, _, hcontent⟩ :=
    syscallWritefile_tree hvalid rfl (pageBytes page) c.buffer c.stack h.ok h.sizes hused le_rfl hlen hfits
  refine ⟨fs', ?_, hok, hsizes, fun n o' ho' => ?_⟩
  · have hneg : ¬ ((o : ℤ) < 0) := by omega
    simp only [writePageToFile, hopen, Option.bind_eq_bind, Option.bind_some, if_neg hneg,
      Int.toNat_natCast, hwrite, Option.map_some]
  unfold moveHome at ho'
  by_cases hn : n = name
  · rw [if_pos hn] at ho'
    obtain rfl := Option.some.inj ho'
    rw [hn, update_self]
    refine ⟨(hkept.inUse o).mpr hused, ?_, ?_⟩
    · rw [IsDir, show (loadInode fs'.disk o).type = _ from hkept.type]
      exact hfits.regular
    · have hnil : pre = [] := List.eq_nil_of_length_eq_zero hpre
      rw [show fs'.content o = _ from hcontent, hnil, List.nil_append, List.take_append_of_le_length]
      · exact List.take_of_length_le (length_bytesOf _ _).le
      · exact (length_bytesOf _ _).ge
  · rw [if_neg hn] at ho'
    by_cases hsame : home n = some o
    · rw [if_pos hsame] at ho'
      cases ho'
    rw [if_neg hsame] at ho'
    have hne : o' ≠ o := fun heq => hsame (heq ▸ ho')
    have hold := h.pages n o' ho'
    rw [update_of_ne hn]
    exact hold.kept h.sizes ((hkept.inUse o').mpr hold.inUse) (hkept.inode o' hold.inUse hne)
      (hkept.file o' hold.inUse hne)

/-- The page that goes out. -/
theorem Stored.save (h : Stored b.fs b.home file) (hlegal : SaveLegal b vf c.create) (page : Page) :
    ∃ b', b.save vf page c = some b' ∧ b'.swap = (pageOut b.swap vf).swap
      ∧ Stored b'.fs b'.home ((Backing.mk b.swap file).write (pageOut b.swap vf) page).file := by
  obtain ⟨fs, hcreated, hst⟩ := h.created hlegal
  unfold PageDisk.save Backing.write
  by_cases hsave : (pageOut b.swap vf).save = true
  · obtain ⟨o, hfound, hfits⟩ := hlegal.write hsave fs hcreated
    obtain ⟨fs', hwrite, hst'⟩ := hst.write hfound hfits page c.write
    simp only [hcreated, Option.bind_eq_bind, Option.bind_some, if_pos hsave, hwrite, Option.map_some]
    exact ⟨_, rfl, rfl, hst'⟩
  · simp only [hcreated, Option.bind_eq_bind, Option.bind_some, if_neg hsave]
    exact ⟨_, rfl, rfl, hst⟩

/-- The page that is read is the one that was written. -/
theorem Stored.read (h : Stored fs home file) (hhome : home name = some o) (hfound : FoundAt fs name o)
    (c : PageCall) : readFileToPage fs name c = some (file name) := by
  obtain ⟨hopen, hused⟩ := syscallOpen_found h.ok hfound.chars hfound.passes hfound.leads 2 c.locals
  obtain ⟨bytes, str', hbytes, hread, hstr⟩ := @syscallReadfile_content fs (pageFCB o) 3 h.ok h.sizes hused
    rfl rfl le_rfl (fun _ => 0) 4096 c.buffer
  have hpage : bytes = bytesOf (pageBytes (file name)) 4096 :=
    hbytes.trans (h.pages name o hhome).bytes
  have hlen : bytes.length = 4096 := by rw [hpage, length_bytesOf]
  have hneg : ¬ ((o : ℤ) < 0) := by omega
  simp only [readFileToPage, hopen, Option.bind_eq_bind, Option.bind_some, if_neg hneg, Int.toNat_natCast,
    hread, hlen, Nat.cast_ofNat, if_true, Option.some.injEq]
  rw [hlen, hpage] at hstr
  funext k
  have hk : offsetOf k = k := Fin.ext (Nat.mod_eq_of_lt k.isLt)
  rw [eq_of_bytesOf_eq hstr k.isLt, pageBytes, hk]

/-! ## The server on the disk -/

/-- The same process, and the disk holds the pages of the store. -/
def SamePages (x : PageDisk × Proc) (y : Backing × Proc) : Prop :=
  x.1.swap = y.1.swap ∧ Stored x.1.fs x.1.home y.1.file ∧ x.2 = y.2

/-- The page that `page_replace` picks is saved, and the page that comes in is found. -/
theorem Stored.picks (h : Stored b.fs b.home file) (hok : P.Ok) (hfull : maxPframeNum ≤ P.pframesUsed)
    (hlegal : AllocLegal b P i c) : ∃ v P₁ r f d b',
      Picks P P₁ v r f d ∧ Proc.chanceLoop (3 * P.vframes) P.refresh = some (v, P₁)
      ∧ (P₁.vframe v).reserve = some r ∧ getCap P₁.vspace r.start = some f
      ∧ b.save (P₁.vframe v) (P₁.frame f) c = some b'
      ∧ b'.swap = (pageOut b.swap (P₁.vframe v)).swap
      ∧ Stored b'.fs b'.home (Picks.backing ⟨b.swap, file⟩ P₁ v f).file
      ∧ ∀ name, ((Picks.evicted ⟨b.swap, file⟩ P₁ v r).vframe i).pagefile = some name →
          ∃ o, b'.home name = some o ∧ FoundAt b'.fs name o := by
  obtain ⟨v, P₁, r, f, d, hloop, hpicks⟩ := hok.picks
  obtain ⟨hres, hcap⟩ := hpicks.found
  obtain ⟨hsave, hread⟩ := hlegal hfull v P₁ r f hloop hres hcap
  obtain ⟨b', hb', hswap, hst⟩ := h.save hsave (P₁.frame f)
  exact ⟨v, P₁, r, f, d, b', hpicks, hloop, hres, hcap, hb', hswap, hst,
    fun name hname => hread name hname b' hb'⟩

/-- `alloc_frame` on the disk does what it does over the store. -/
theorem Stored.alloc (h : Stored b.fs b.home file) (hok : P.Ok) (hlegal : AllocLegal b P i c) :
    Option.Rel SamePages (b.alloc P i c) (allocFrame ⟨b.swap, file⟩ P i) := by
  unfold PageDisk.alloc
  by_cases hfull : maxPframeNum ≤ P.pframesUsed
  swap
  · rw [if_neg hfull]
    cases hr : (P.vframe i).reserve with
    | none =>
      rw [allocFrame_none hok hr]
      exact .none
    | some r =>
      rw [allocFrame_new (by omega) hr]
      exact .some ⟨rfl, h, rfl⟩
  rw [if_pos hfull, allocFrame_full hfull]
  obtain ⟨v, P₁, r, f, _, b', _, hloop, hres, hcap, hb', hswap, hst, hfound⟩ := h.picks hok hfull hlegal
  -- the page that comes in is the one of the store
  have hin : b'.readIn (Picks.evicted ⟨b.swap, file⟩ P₁ v r) i f c.read
      = some ((Picks.evicted ⟨b.swap, file⟩ P₁ v r).pageIn (Picks.backing ⟨b.swap, file⟩ P₁ v f) i f) := by
    unfold PageDisk.readIn Proc.pageIn
    cases hname : ((Picks.evicted ⟨b.swap, file⟩ P₁ v r).vframe i).pagefile with
    | none => rfl
    | some name =>
      obtain ⟨o, hhome, hat⟩ := hfound name hname
      simp only [hst.read hhome hat, Option.map_some]
  unfold Picks.evicted Picks.backing at hin
  simp only [PageDisk.replace, pageReplace, hloop, hres, hcap, hb', hin, Option.bind_eq_bind,
    Option.bind_some]
  cases (((P₁.unmap v r.start (pageOut b.swap (P₁.vframe v)).name).pageIn
      ((Backing.mk b.swap file).write (pageOut b.swap (P₁.vframe v)) (P₁.frame f)) i f).vframe
        i).reserve with
  | none => exact .none
  | some r' => exact .some ⟨hswap, hst, rfl⟩

/-- The same outcome of a fault. -/
def SameFault (x : DiskSys × Bool) (y : Sys × Bool) : Prop :=
  ∃ file, Stored x.1.fs x.1.home file ∧ y = (x.1.sys file, x.2)

theorem sameFault_setProc {x : Option (PageDisk × Proc)} {y : Option (Backing × Proc)}
    (h : Option.Rel SamePages x y) : Option.Rel SameFault (x.map fun r => (t.setProc p r, true))
      (y.map fun r => ((t.sys file).setProc p r, true)) := by
  cases h with
  | none => exact .none
  | @some x y hsame =>
    obtain ⟨hswap, hst, hproc⟩ := hsame
    refine .some ⟨y.1.file, hst, ?_⟩
    simp only [DiskSys.sys, DiskSys.setProc, Sys.setProc, hswap, hproc]

theorem sys_kill (t : DiskSys) (p : ℕ) (file : Name → Page) :
    (t.kill p).sys file = syscallKill (t.sys file) p := by
  simp only [DiskSys.kill, syscallKill, DiskSys.sys]
  cases t.proc p <;> rfl

/-- A fault on the disk ends as it does over the store. -/
theorem Stored.fault (h : Stored t.fs t.home file) (hok : (t.sys file).ProcsOk)
    (hlegal : FaultLegal t p vaddr c) (ip : ℕ) (resume : Bool) :
    Option.Rel SameFault (t.handleVmfault p vaddr ip c)
      (handleVmfault (t.sys file) p (.vm vaddr ip) resume) := by
  unfold DiskSys.handleVmfault handleVmfault
  simp only [Option.bind_eq_bind]
  cases hP : t.proc p with
  | none =>
    rw [show (t.sys file).proc p = none from hP]
    exact .none
  | some P =>
    rw [show (t.sys file).proc p = some P from hP, Option.bind_some, Option.bind_some]
    obtain ⟨hexpand, hpage⟩ := hlegal P hP
    cases hfind : P.findVframe vaddr with
    | none => exact .none
    | some vframe =>
      rw [Option.bind_some, Option.bind_some]
      cases hrange : P.expands vaddr with
      | true =>
        rw [if_pos rfl, if_pos rfl]
        exact sameFault_setProc (h.alloc ((hok p P hP).reservePage (Nat.mul_mod_left ..))
          (hexpand hrange))
      | false =>
        rw [if_neg Bool.false_ne_true, if_neg Bool.false_ne_true]
        cases vframe with
        | none =>
          refine .some ⟨file, ?_, ?_⟩
          · split_ifs
            · rw [DiskSys.kill]
              cases t.proc p <;> exact h
            · exact h
          · split_ifs
            · rw [sys_kill]
            · rfl
        | some i => exact sameFault_setProc (h.alloc (hok p P hP) (hpage hrange i hfind))

/-- A fault that returns on the disk. -/
theorem Stored.fault_some (h : Stored t.fs t.home file) (hok : (t.sys file).ProcsOk)
    (hlegal : FaultLegal t p vaddr c) {resume' : Bool}
    (hrun : t.handleVmfault p vaddr ip c = some (t', resume')) (resume : Bool) :
    ∃ file', Stored t'.fs t'.home file'
      ∧ handleVmfault (t.sys file) p (.vm vaddr ip) resume = some (t'.sys file', resume') := by
  have hrel := h.fault hok hlegal ip resume
  rw [hrun] at hrel
  cases hy : handleVmfault (t.sys file) p (.vm vaddr ip) resume with
  | none =>
    rw [hy] at hrel
    cases hrel
  | some y =>
    rw [hy, Option.rel_some_some] at hrel
    obtain ⟨file', hst, rfl⟩ := hrel
    exact ⟨file', hst, rfl⟩

/-! ## Runs -/

/-- Any other operation, which does not look at the pages on the disk. -/
structure DiskSys.Executes (t : DiskSys) (op : VmOp) (t' : DiskSys) : Prop where
  fs : t'.fs = t.fs
  home : t'.home = t.home
  exec : ∀ file, execVm (t.sys file) op = some (t'.sys file)

/-- What happens in the system: a fault whose calls find their files and room, another operation, or
requests that change other files on the disk. -/
inductive DiskStep (ok : Sys → VmOp → Prop) (t : DiskSys) : DiskSys → Prop
  | fault {t' : DiskSys} {p vaddr ip : ℕ} {resume : Bool} (c : PageCalls)
      (hok : ∀ file, ok (t.sys file) (.fault p vaddr ip)) (hlegal : FaultLegal t p vaddr c)
      (h : t.handleVmfault p vaddr ip c = some (t', resume)) : DiskStep ok t t'
  | other {t' : DiskSys} {op : VmOp} (hok : ∀ file, ok (t.sys file) op)
      (hop : ∀ p vaddr ip, op ≠ .fault p vaddr ip) (h : t.Executes op t') : DiskStep ok t t'
  | files {fs : FS} (h : ∀ file, Stored t.fs t.home file → Stored fs t.home file) :
      DiskStep ok t { t with fs := fs }

/-- A run on the disk. -/
abbrev DiskRun (ok : Sys → VmOp → Prop) : DiskSys → DiskSys → Prop := ReflTransGen (DiskStep ok)

/-- The system after `pagefile_init`. -/
def bootDisk (w : Swap) (fs : FS) : DiskSys := ⟨⟨w, fs, fun _ => none⟩, fun _ => none⟩

theorem bootDisk_stored {w : Swap} (hok : FsOk fs) (hsizes : SizesOk fs) (file : Name → Page) :
    Stored (bootDisk w fs).fs (bootDisk w fs).home file :=
  ⟨hok, hsizes, fun _ _ h => by cases h⟩

variable {ok : Sys → VmOp → Prop}

/-- A step on the disk is a step over the store, or none. -/
theorem DiskStep.sim (h : Stored t.fs t.home file) (hok : (t.sys file).ProcsOk) (hstep : DiskStep ok t t') :
    ∃ file', Stored t'.fs t'.home file'
      ∧ (t'.sys file' = t.sys file ∨ VmStep ok (t.sys file) (t'.sys file')) := by
  cases hstep with
  | @fault _ p vaddr ip resume c hop hlegal hrun =>
    obtain ⟨file', hst, hvm⟩ := h.fault_some hok hlegal hrun false
    exact ⟨file', hst, Or.inr ⟨_, hop file, by rw [execVm, hvm]; rfl⟩⟩
  | other hop _ hexec =>
    refine ⟨file, ?_, Or.inr ⟨_, hop file, hexec.exec file⟩⟩
    rw [hexec.fs, hexec.home]
    exact h
  | files hfiles => exact ⟨file, hfiles file h, Or.inl rfl⟩

/-- A run on the disk is a run over the store. `post` is what the processes have to meet after every
step. -/
theorem DiskRun.sim (post : (ℕ → Option Proc) → Prop) {t₀ : DiskSys} {file₀ : Name → Page}
    (h : Stored t₀.fs t₀.home file₀) (hok : (t₀.sys file₀).ProcsOk)
    (hrun : ReflTransGen (fun t t' => DiskStep ok t t' ∧ post t'.proc) t₀ t) :
    ∃ file, Stored t.fs t.home file ∧ (t.sys file).ProcsOk
      ∧ ReflTransGen (fun s s' => VmStep ok s s' ∧ post s'.proc) (t₀.sys file₀) (t.sys file) := by
  induction hrun with
  | refl => exact ⟨file₀, h, hok, .refl⟩
  | tail _ hstep ih =>
    obtain ⟨file, hst, hprocs, hvm⟩ := ih
    obtain ⟨file', hst', hsim⟩ := hstep.1.sim hst hprocs
    refine ⟨file', hst', ?_⟩
    rcases hsim with heq | hvmStep
    · rw [heq]
      exact ⟨hprocs, hvm⟩
    · exact ⟨VmRun.procsOk hprocs (.single hvmStep), hvm.tail ⟨hvmStep, hstep.2⟩⟩

theorem DiskRun.boot {w : Swap} (hfs : FsOk fs) (hsizes : SizesOk fs) (hrun : DiskRun ok (bootDisk w fs) t)
    (file₀ : Name → Page) : ∃ file, Stored t.fs t.home file ∧ (t.sys file).ProcsOk
      ∧ VmRun ok (bootSys w file₀) (t.sys file) := by
  obtain ⟨file, hst, hprocs, hvm⟩ := DiskRun.sim (fun _ => True)
    (bootDisk_stored hfs hsizes file₀) bootSys_procsOk
    (ReflTransGen.mono (fun _ _ h => ⟨h, trivial⟩) _ _ hrun)
  exact ⟨file, hst, hprocs, ReflTransGen.mono (fun _ _ h => h.1) _ _ hvm⟩

/-! ## A process on a disk with an empty root directory -/

/-- The disk with process 0 alone. -/
def shellDisk (P : Proc) : DiskSys := ⟨⟨⟨[], 0⟩, dirFS 0, fun _ => none⟩, (shellSys emptyBacking P).proc⟩

/-- Calls whose locals are all zero. -/
def zeroCalls : PageCalls :=
  ⟨zeroLocals, ⟨zeroLocals, fun _ => 0, fun _ _ _ => 0⟩, ⟨zeroLocals, fun _ => 0, fun _ _ _ => 0⟩⟩

theorem shellDisk_proc (P : Proc) : (shellDisk P).proc 0 = some P :=
  shellSys_proc (b := emptyBacking)

theorem bootDisk_starts (hok : ∀ file, ok (bootSys ⟨[], 0⟩ file) (.start fun _ => false)) :
    DiskStep ok (bootDisk ⟨[], 0⟩ (dirFS 0)) (shellDisk startedProc) :=
  .other hok (fun _ _ _ h => by cases h) ⟨rfl, rfl, exec_start _⟩

theorem shellDisk_step (op : VmOp) (hok : ∀ b, ok (shellSys b P) op)
    (hop : ∀ p vaddr ip, op ≠ .fault p vaddr ip)
    (h : ∀ b, execVm (shellSys b P) op = some (shellSys b P')) : DiskStep ok (shellDisk P) (shellDisk P') :=
  .other (fun _ => hok _) hop ⟨rfl, rfl, fun _ => h _⟩

/-! ## Stores of the server -/

/-- What should come of a fault at an address that VFrame `i` of process `p` covers: its page is in memory,
and there is no other VFrame. If the page was out, it is the one in its file, which was there before unless
another VFrame has the same pagefile. -/
structure DiskServiced (t t' : DiskSys) (p i : ℕ) (P P' : Proc) : Prop where
  proc : t'.proc p = some P'
  inRAM : (P'.vframe i).inRAM = true
  vframes : P'.vframes = P.vframes
  restored : ∀ name, (P.vframe i).inRAM = false → (P.vframe i).pagefile = some name →
    ∃ o page, FoundAt t'.fs name o ∧ Stores t'.fs o page
      ∧ (∀ file, content (t'.sys file).toBacking P' i = some page)
      ∧ ((∀ file, (t.sys file).SwapOk) → t.home name = some o ∧ Stores t.fs o page)

/-- Saving a page under another name does not change where this one is. -/
theorem PageDisk.save_home {b' : PageDisk} (h : b.save vf page c = some b')
    (hne : name ≠ (pageOut b.swap vf).name) (ho : b'.home name = some o) : b.home name = some o := by
  simp only [PageDisk.save, Option.bind_eq_bind, Option.bind_eq_some_iff] at h
  obtain ⟨fs, _, h⟩ := h
  split_ifs at h
  · obtain ⟨r, _, rfl⟩ := Option.map_eq_some_iff.mp h
    simp only [moveHome, if_neg hne] at ho
    split_ifs at ho
    exact ho
  · cases h
    exact ho

/-- The page that comes in is where it was written to. -/
theorem Stored.alloc_found (h : Stored t.fs t.home file) (hP : t.proc p = some P) (hok : P.Ok)
    (hbound : P.SwapBound) (hlegal : AllocLegal t.toPageDisk P i c) {r : PageDisk × Proc}
    (halloc : t.alloc P i c = some r) (hout : (P.vframe i).inRAM = false)
    (hname : (P.vframe i).pagefile = some name) :
    ∃ o, r.1.home name = some o ∧ FoundAt r.1.fs name o
      ∧ ((t.sys file).SwapOk → t.home name = some o) := by
  have hfull := hbound.full hname
  obtain ⟨v, P₁, rv, f, d, b', hpicks, hloop, hres, hcap, hsave, _, _, hfound⟩ := h.picks hok hfull hlegal
  obtain ⟨o, hhome, hat⟩ := hfound name (hpicks.evicted_pagefile hout hname)
  have hr : r.1 = b' := by
    simp only [PageDisk.alloc, if_pos hfull, PageDisk.replace, hloop, hres, hcap, hsave,
      Option.bind_eq_bind, Option.bind_some, Option.bind_eq_some_iff] at halloc
    obtain ⟨_, _, _, _, heq⟩ := halloc
    rw [← Option.some.inj heq]
  rw [hr]
  exact ⟨o, hhome, hat, fun hswap =>
    PageDisk.save_home hsave (hpicks.name_ne_of_out hout hswap hP hok hbound hname) hhome⟩

/-- A fault that is serviced over the store is serviced on the disk. -/
theorem Stored.diskServiced {file' : Name → Page} (h : Stored t.fs t.home file)
    (h' : Stored t'.fs t'.home file') (hserv : Serviced (t.sys file) (t'.sys file') p i P P')
    (hfound : ∀ name, (P.vframe i).inRAM = false → (P.vframe i).pagefile = some name →
      ∃ o, t'.home name = some o ∧ FoundAt t'.fs name o ∧ ((t.sys file).SwapOk → t.home name = some o)) :
    DiskServiced t t' p i P P' := by
  refine ⟨hserv.proc, hserv.inRAM, hserv.vframes, fun name hout hname => ?_⟩
  obtain ⟨hcontent, hkept⟩ := hserv.restored name hout hname
  obtain ⟨o, hhome, hat, hbefore⟩ := hfound name hout hname
  refine ⟨o, file' name, hat, h'.pages name o hhome, fun file => ?_, fun hswap => ?_⟩
  · refine Eq.trans ?_ hcontent
    rw [content, content, if_pos hserv.inRAM, if_pos hserv.inRAM]
  · have hhome₀ := hbefore (hswap file)
    rw [show file' name = file name from hkept (hswap file)]
    exact ⟨hhome₀, h.pages name o hhome₀⟩

/-- In every state of a run on a well-formed disk in which the pages that are reserved are free and the
calls of each fault find their files and room, every VFrame has a reservation, a fault whose calls do so at
an address that a VFrame covers is serviced through it if and only if the address is not taken for one of a
growing stack, and a new VFrame is made only for an address that no VFrame covers. -/
theorem disk_fault_serviced {w : Swap} (hfs : FsOk fs) (hsizes : SizesOk fs)
    (hrun : DiskRun ReservesOk (bootDisk w fs) t) (hP : t.proc p = some P) :
    P.Reserved
      ∧ (∀ vaddr ip c i, FaultLegal t p vaddr c → P.findVframe vaddr = some (some i) →
          ((∃ t' P', t.handleVmfault p vaddr ip c = some (t', true) ∧ DiskServiced t t' p i P P')
            ↔ P.expands vaddr = false))
      ∧ ∀ vaddr ip c t' resume P', FaultLegal t p vaddr c →
          t.handleVmfault p vaddr ip c = some (t', resume) → t'.proc p = some P' →
          P'.vframes ≠ P.vframes → P.findVframe vaddr = some none := by
  obtain ⟨file, hst, hprocs, hvm⟩ := DiskRun.boot hfs hsizes hrun fun _ _ => 0
  have hok := hprocs p P hP
  have hres := (VmRun.reserved (fun _ _ h => h) bootSys_procsOk bootSys_reserved hvm).2 p P hP
  refine ⟨hres, ?_, ?_⟩
  · intro vaddr ip c i hlegal hfind
    constructor
    · intro ⟨t', P', hfault, _⟩
      obtain ⟨file', _, hvmfault⟩ := hst.fault_some hprocs hlegal hfault true
      by_contra hrange
      rw [handleVmfault_covered hP hok hfind (by simpa using hrange)] at hvmfault
      cases hvmfault
    · intro hrange
      obtain ⟨s', P', hvmfault, hserv⟩ := handleVmfault_serviced (s := t.sys file) hP hok
        (boot_swapBound hvm hP) hres hfind hrange ip true
      have hrel := hst.fault hprocs hlegal ip true
      rw [hvmfault] at hrel
      cases hfault : t.handleVmfault p vaddr ip c with
      | none =>
        rw [hfault] at hrel
        cases hrel
      | some x =>
        rw [hfault, Option.rel_some_some] at hrel
        obtain ⟨file', hst', heq⟩ := hrel
        obtain ⟨rfl, hresume⟩ := Prod.mk.inj heq
        refine ⟨x.1, P', by rw [hresume], hst.diskServiced hst' hserv fun name hout hname => ?_⟩
        obtain ⟨r, halloc, hx⟩ : ∃ r, t.alloc P i c = some r ∧ (t.setProc p r, true) = x := by
          simpa [DiskSys.handleVmfault, hP, hfind, hrange] using hfault
        rw [← hx]
        exact hst.alloc_found hP hok (boot_swapBound hvm hP) ((hlegal P hP).2 hrange i hfind) halloc hout hname
  · intro vaddr ip c t' resume P' hlegal hfault
    obtain ⟨file', _, hvmfault⟩ := hst.fault_some hprocs hlegal hfault true
    exact handleVmfault_new (s := t.sys file) hP hok hres hvmfault

/-- The process touches its first page of heap. -/
theorem disk_fault_serviced_heap : ∃ t' P',
    (shellDisk (warmProc 17 stackPages)).handleVmfault 0 (shellPage 16 * pageSize) 1 zeroCalls
        = some (t', true)
      ∧ DiskServiced (shellDisk (warmProc 17 stackPages)) t' 0 16 (warmProc 17 stackPages) P' := by
  have hrun : DiskRun ReservesOk (bootDisk ⟨[], 0⟩ (dirFS 0)) (shellDisk (warmProc 17 stackPages)) := by
    have hreserves : ∀ b, ReservesOk (shellSys b startedProc) (.brk 0 0) :=
      fun _ _ _ _ _ h => absurd h (Nat.not_lt_zero _)
    have hzero := shellDisk_step _ hreserves (fun _ _ _ h => by cases h) fun _ => exec_brk_zero
    have hbrk := shellDisk_step (.brk 0 (shellTop (stackPages + 1)))
      (fun b => warm_reservesOk_brk (b := b) (n := 1) (by decide)) (fun _ _ _ h => by cases h)
      fun b => exec_brk (b := b) (n := 1) (by decide) (by decide)
    exact ((ReflTransGen.single (bootDisk_starts fun _ => trivial)).tail hzero).tail hbrk
  have hproc : (shellDisk (warmProc 17 stackPages)).proc 0 = some (warmProc 17 stackPages) :=
    shellDisk_proc _
  -- there are frames left, so no page goes out
  have hlegal : FaultLegal (shellDisk (warmProc 17 stackPages)) 0 (shellPage 16 * pageSize) zeroCalls := by
    intro P hP
    obtain rfl := Option.some.inj (hproc.symm.trans hP)
    exact ⟨fun _ hfull => absurd hfull (by decide), fun _ _ _ hfull => absurd hfull (by decide)⟩
  have h := (disk_fault_serviced (dirFS_ok (by decide)) (dirFS_sizes (by decide)) hrun hproc).2.1
  exact (h (shellPage 16 * pageSize) 1 zeroCalls 16 hlegal (by decide)).mpr (by decide)

end SeL4Sys

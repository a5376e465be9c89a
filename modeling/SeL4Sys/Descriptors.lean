import SeL4Sys.FileTree
import SeL4Sys.SyscallBounds

/-!
# Open descriptors

A control block holds the place of an inode, and nothing keeps that inode in use: there is no table of
the inodes that are open. `Session` is the server with a record of which file has which inode. A file is
told apart from later files in the same place by the time at which it was created, which the program
does not know.

As long as no request unlinks a file that is open, the inode of every control block in use is still that
of the file it was opened on (`session_denotes`). A file that is open can be unlinked, though
(`unlink_leaves_descriptor`).
-/

namespace SeL4Sys

open Bytes CString Function Relation

/-! ## The control blocks -/

/-- Control block `n` of process `p`. -/
def Server.fcb (s : Server) (p n : ℕ) : FCB := (s.procTable p).fileTable n

/-- The server with control block `n` of process `p` overwritten. -/
def Server.setFcb (s : Server) (p n : ℕ) (fcb : FCB) : Server where
  fs := s.fs
  procTable := update s.procTable p
    { s.procTable p with fileTable := update (s.procTable p).fileTable n fcb }

section table
variable {s s' : Server} {p n : ℕ} {fcb : FCB} {ret : Option ℤ}

@[simp] theorem setFcb_fs : (s.setFcb p n fcb).fs = s.fs := rfl

theorem setFcb_fcb (q k : ℕ) :
    (s.setFcb p n fcb).fcb q k = if q = p ∧ k = n then fcb else s.fcb q k := by
  simp only [Server.fcb, Server.setFcb]
  by_cases hq : q = p
  · rw [hq, update_self]
    by_cases hk : k = n
    · rw [hk, if_pos ⟨rfl, rfl⟩]
      exact update_self ..
    · rw [if_neg fun h => hk h.2]
      exact update_of_ne hk ..
  · rw [update_of_ne hq, if_neg fun h => hq h.1]

/-- What a request on a control block does: nothing when there is none with its number. -/
theorem withFile_eq_ok {fd : ℤ} {f : FCB → Except Stop (ℤ × FS × FCB)} (hp : p < maxProcessNum)
    (h : s.withFile p fd f = .ok (s', ret)) : s' = s ∨ ∃ (n : ℕ) (r : ℤ × FS × FCB), fd = n
      ∧ f (s.fcb p n) = .ok r ∧ s' = { s with fs := r.2.1 }.setFcb p n r.2.2 := by
  rw [Server.withFile] at h
  split_ifs at h with hfd
  · cases h
    exact Or.inl rfl
  · push Not at hfd
    rw [proc_eq hp, ok_bind, file_eq (by omega) hfd.2, ok_bind] at h
    obtain ⟨r, hr, h⟩ := bind_eq_ok.mp h
    rw [setFile_eq (by omega) hfd.2, ok_bind, setPcb_eq hp, ok_bind] at h
    cases h
    exact Or.inr ⟨fd.toNat, r, (Int.toNat_of_nonneg (by omega)).symm, hr, rfl⟩

theorem closeFile_eq_ok {fd : ℤ} (hp : p < maxProcessNum) (h : closeFile s p fd = .ok (s', ret)) :
    s' = s ∨ s' = s.setFcb p fd.toNat { s.fcb p fd.toNat with inuse := false } := by
  rw [closeFile] at h
  split_ifs at h with hfd
  · cases h
    exact Or.inl rfl
  · push Not at hfd
    rw [proc_eq hp, ok_bind, file_eq hfd.2 hfd.1, ok_bind, setFile_eq hfd.2 hfd.1, ok_bind, setPcb_eq hp,
      ok_bind] at h
    cases h
    exact Or.inr rfl

/-- The loop over the control blocks ends at one that is not in use, or behind the last one. -/
theorem findFile_eq_ok {b : PCB} {k : ℕ} {l r : ℤ} (hl : 0 ≤ l) (hk : l + k = maxFileNum)
    (h : findFile b k l = .ok r) : l ≤ r ∧ (r < maxFileNum → (b.fileTable r.toNat).inuse = false) := by
  induction k generalizing l with
  | zero =>
    cases h
    exact ⟨le_rfl, fun hlt => by omega⟩
  | succ k ih =>
    push_cast at hk
    rw [findFile, file_eq hl (by omega), ok_bind] at h
    split_ifs at h with huse
    · obtain ⟨hle, hfree⟩ := ih (by omega) (by omega) h
      exact ⟨by omega, hfree⟩
    · cases h
      exact ⟨le_rfl, fun _ => by simpa using huse⟩

/-- What `openfile_handler` does with the inode: it may take a control block that is not in use. -/
theorem openfileHandler_eq_ok {path : List UInt8} {mode : ℤ} {l : Locals} (hp : p < maxProcessNum)
    (h : openfileHandler s p path mode l = .ok (s', ret)) :
    ∃ o fs, syscallOpen s.fs path mode l = some (o, fs) ∧ (s' = { s with fs := fs } ∨ o ≠ -1 ∧ ∃ n,
      (s.fcb p n).inuse = false ∧ s' = { s with fs := fs }.setFcb p n ⟨true, o.toNat, 0, mode⟩) := by
  rw [openfileHandler] at h
  split at h
  · cases h
  · rename_i o fs hopen
    refine ⟨o, fs, hopen, ?_⟩
    split_ifs at h with hfail
    · cases h
      exact Or.inl rfl
    · rw [proc_eq hp, ok_bind] at h
      obtain ⟨i, hi, h⟩ := bind_eq_ok.mp h
      obtain ⟨hle, hfree⟩ := findFile_eq_ok (by norm_num) (by norm_num) hi
      split_ifs at h with hlt
      · rw [setFile_eq (by omega) hlt, ok_bind, setPcb_eq hp, ok_bind] at h
        cases h
        exact Or.inr ⟨hfail, i.toNat, hfree hlt, rfl⟩
      · cases h
        exact Or.inl rfl

/-- A file that is found gets the first control block, when that is free. -/
theorem openfileHandler_first {path : List UInt8} {mode o : ℤ} {l : Locals} {fs : FS}
    (hp : p < maxProcessNum) (hopen : syscallOpen s.fs path mode l = some (o, fs)) (ho : o ≠ -1)
    (hfree : (s.fcb p 3).inuse = false) : openfileHandler s p path mode l
      = .ok ({ s with fs := fs }.setFcb p 3 ⟨true, o.toNat, 0, mode⟩, some 3) := by
  have hfind : findFile (s.procTable p) (maxFileNum - 3).toNat 3 = .ok 3 := by
    show findFile (s.procTable p) (28 + 1) 3 = .ok 3
    rw [findFile, file_eq (by norm_num) (by norm_num), ok_bind]
    exact if_neg (by rw [show ((s.procTable p).fileTable (3 : ℤ).toNat).inuse = false from hfree]; simp)
  rw [openfileHandler, hopen]
  simp only [ho, if_false]
  rw [proc_eq hp, ok_bind, hfind, ok_bind, if_pos (by norm_num), setFile_eq (by norm_num) (by norm_num),
    ok_bind, setPcb_eq hp, ok_bind]
  rfl

theorem unlinkHandler_eq_ok {path : List UInt8} {l : Locals}
    (h : unlinkHandler s path l = .ok (s', ret)) :
    ∃ o fs, syscallUnlink s.fs path l = some (o, fs) ∧ s' = { s with fs := fs } := by
  rw [unlinkHandler] at h
  split at h
  · cases h
  · rename_i o fs hunlink
    cases h
    exact ⟨o, fs, hunlink, rfl⟩

theorem unlinkHandler_removed {path : List UInt8} {l : Locals} {o : ℤ} {fs : FS}
    (h : syscallUnlink s.fs path l = some (o, fs)) :
    unlinkHandler s path l = .ok ({ s with fs := fs }, some o) := by
  rw [unlinkHandler, h]

end table

/-! ## Requests -/

/-- A request on files, with the contents of the variables that its handler does not initialise. -/
inductive FileRequest
  | openFile (path : PathArg) (mode : ℤ) (l : Locals)
  | read (fd maxLen : ℤ) (str buffer : Buf)
  | write (fd len : ℤ) (str buffer : Buf) (stack : ℕ → ℕ → Buf)
  | lseek (fd offset whence : ℤ)
  | close (fd : ℤ)
  | unlink (path : PathArg) (l : Locals)

/-- The request is served for process `p`. -/
def FileRequest.serve (s : Server) (p : ℕ) : FileRequest → Except Stop (Server × Option ℤ)
  | openFile path mode l => openfileHandler s p path.chars mode l
  | read fd maxLen str buffer => readfileHandler s p fd maxLen str buffer
  | write fd len str buffer stack => writefileHandler s p fd len str buffer stack
  | lseek fd offset whence => lseekHandler s p fd offset whence
  | close fd => closeFile s p fd
  | unlink path l => unlinkHandler s path.chars l

/-- A file: the place of its inode, and when it was created. -/
structure File where
  slot : ℕ
  created : ℕ
deriving DecidableEq

/-- The server, which file has which inode, and which file each control block was opened on. -/
structure Session where
  server : Server
  file : ℕ → Option File
  opened : ℕ → ℕ → Option File
  clock : ℕ

/-- A descriptor that the calls accept. -/
abbrev Server.IsOpen (s : Server) (p n : ℕ) : Prop := (s.fcb p n).valid n = true

namespace Session

open Classical in
/-- Which file has which inode after a request: an inode that has come into use is that of a new file. -/
noncomputable def fileAfter (x : Session) (fs : FS) (y : ℕ) : Option File :=
  if fs.InUse y then
    if x.server.fs.InUse y then x.file y else some ⟨y, x.clock⟩
  else none

/-- The session after a request has left the server `s`. -/
noncomputable def next (x : Session) (s : Server) : Session where
  server := s
  file := x.fileAfter s.fs
  opened := fun p n =>
    if (s.fcb p n).valid n then
      if (x.server.fcb p n).valid n then x.opened p n else x.fileAfter s.fs (s.fcb p n).inodeOffset
    else none
  clock := x.clock + 1

open Classical in
/-- A server at which no file is open. -/
noncomputable def start (s : Server) : Session where
  server := s
  file := fun y => if s.fs.InUse y then some ⟨y, 0⟩ else none
  opened := fun _ _ => none
  clock := 1

/-- A request of a process that returns, and meets `ok`. -/
def Step (ok : Session → ℕ → FileRequest → Prop) (x x' : Session) : Prop :=
  ∃ p r s ret, p < maxProcessNum ∧ ok x p r ∧ r.serve x.server p = .ok (s, ret) ∧ x' = x.next s

/-- What is asked of a request. A file that is open is not unlinked; a write changes its file only; the
offset does not become negative; and the calls on paths are those that keep the file system well
formed. -/
def Legal (x : Session) (p : ℕ) : FileRequest → Prop
  | .openFile path mode _ => LegalOpen x.server.fs path.chars mode
  | .read _ _ _ _ => True
  | .write fd len _ _ _ => (x.server.fcb p fd.toNat).valid fd = true → 0 < len →
      WriteFits x.server.fs (x.server.fcb p fd.toNat) len
  | .lseek fd offset whence =>
      (x.server.fcb p fd.toNat).valid fd = true →
        0 ≤ (syscallLseek x.server.fs (x.server.fcb p fd.toNat) fd offset (whenceOf whence)).2.offset
  | .close _ => True
  | .unlink path _ => LegalUnlink x.server.fs path.chars ∧
      ∀ y, Leads x.server.fs.disk x.server.fs.rootOffset path.chars y →
        ∀ q n, x.server.IsOpen q n → (x.server.fcb q n).inodeOffset ≠ y

/-! ## What every request keeps -/

/-- The file system is well formed, an inode in use has a file, and the inode of an open descriptor is
in use, by the file that it was opened on. -/
structure Ok (x : Session) : Prop where
  fs : FsOk x.server.fs
  sizes : SizesOk x.server.fs
  file : ∀ y, x.server.fs.InUse y → ∃ f, x.file y = some f ∧ f.slot = y ∧ f.created < x.clock
  inUse : ∀ p n, x.server.IsOpen p n → x.server.fs.InUse (x.server.fcb p n).inodeOffset
  opened : ∀ p n, x.server.IsOpen p n → x.opened p n = x.file (x.server.fcb p n).inodeOffset
  offset : ∀ p n, x.server.IsOpen p n → 0 ≤ (x.server.fcb p n).offset

theorem Ok.start {s : Server} (hfs : FsOk s.fs) (hsizes : SizesOk s.fs) (hnone : ∀ p n, ¬ s.IsOpen p n) :
    (start s).Ok where
  fs := hfs
  sizes := hsizes
  file := fun y hy => ⟨⟨y, 0⟩, if_pos hy, rfl, Nat.one_pos⟩
  inUse := fun p n h => absurd h (hnone p n)
  opened := fun p n h => absurd h (hnone p n)
  offset := fun p n h => absurd h (hnone p n)

section steps
variable {x x' : Session} {s : Server} {p n : ℕ} {r : FileRequest}

/-- What a request of process `p` has done to the file system. -/
inductive FsEnd (x : Session) (p : ℕ) : FileRequest → FS → Prop
  | same {r : FileRequest} {fs : FS} (h : fs = x.server.fs) : FsEnd x p r fs
  | written {n : ℕ} {len : ℤ} {str buffer : Buf} {stack : ℕ → ℕ → Buf} {fs : FS}
      (hopen : x.server.IsOpen p n) (hlen : 0 < len)
      (h : OthersKept x.server.fs fs (x.server.fcb p n).inodeOffset) :
      FsEnd x p (.write n len str buffer stack) fs
  | created {path : PathArg} {mode : ℤ} {l : Locals} {fs : FS} {y : ℕ} (h : Created x.server.fs fs y) :
      FsEnd x p (.openFile path mode l) fs
  | removed {path : PathArg} {l : Locals} {fs : FS} {y : ℕ}
      (hleads : Leads x.server.fs.disk x.server.fs.rootOffset path.chars y)
      (h : Removed x.server.fs fs y) : FsEnd x p (.unlink path l) fs

/-- What request `r` of process `p` leaves: the control blocks that are open after it name inodes in use,
and those that were open before it still name the same one. -/
structure Keeps (x : Session) (p : ℕ) (r : FileRequest) (s : Server) : Prop where
  fs : FsOk s.fs
  sizes : SizesOk s.fs
  ends : x.FsEnd p r s.fs
  inUse : ∀ p n, s.IsOpen p n → s.fs.InUse (s.fcb p n).inodeOffset
  same : ∀ p n, s.IsOpen p n → x.server.IsOpen p n →
    (s.fcb p n).inodeOffset = (x.server.fcb p n).inodeOffset
  offset : ∀ p n, s.IsOpen p n → 0 ≤ (s.fcb p n).offset

theorem Ok.next (h : x.Ok) (hkeeps : x.Keeps p r s) : (x.next s).Ok where
  fs := hkeeps.fs
  sizes := hkeeps.sizes
  file := fun y hy => by
    have hy : s.fs.InUse y := hy
    show ∃ f, x.fileAfter s.fs y = some f ∧ f.slot = y ∧ f.created < x.clock + 1
    rw [fileAfter, if_pos hy]
    split_ifs with hold
    · have ⟨f, hf, hslot, hcreated⟩ := h.file y hold
      exact ⟨f, hf, hslot, by omega⟩
    · exact ⟨_, rfl, rfl, Nat.lt_succ_self _⟩
  inUse := hkeeps.inUse
  opened := fun p n hopen => by
    have hopen : s.IsOpen p n := hopen
    show (if _ then _ else none) = x.fileAfter s.fs (s.fcb p n).inodeOffset
    rw [if_pos hopen]
    split_ifs with hold
    · have hused := hkeeps.inUse p n hopen
      rw [hkeeps.same p n hopen hold] at hused ⊢
      rw [h.opened p n hold, fileAfter, if_pos hused, if_pos (h.inUse p n hold)]
    · rfl
  offset := hkeeps.offset

/-- A request that changes neither the file system nor a control block. -/
theorem Ok.keeps_same (h : x.Ok) : x.Keeps p r x.server :=
  ⟨h.fs, h.sizes, .same rfl, h.inUse, fun _ _ _ _ => rfl, h.offset⟩

/-- A control block is overwritten, in a file system that keeps the inodes in use. -/
theorem Ok.keeps_setFcb (h : x.Ok) {fs : FS} {fcb : FCB} (hfs : FsOk fs) (hsizes : SizesOk fs)
    (hend : x.FsEnd p r fs) (hused : ∀ y, x.server.fs.InUse y → fs.InUse y)
    (hfcb : fcb.valid n = true → fs.InUse fcb.inodeOffset ∧ 0 ≤ fcb.offset
      ∧ (x.server.IsOpen p n → fcb.inodeOffset = (x.server.fcb p n).inodeOffset)) :
    x.Keeps p r ({ x.server with fs := fs }.setFcb p n fcb) := by
  have hcases : ∀ q k, ({ x.server with fs := fs }.setFcb p n fcb).IsOpen q k →
      fs.InUse (({ x.server with fs := fs }.setFcb p n fcb).fcb q k).inodeOffset
      ∧ 0 ≤ (({ x.server with fs := fs }.setFcb p n fcb).fcb q k).offset
      ∧ (x.server.IsOpen q k → (({ x.server with fs := fs }.setFcb p n fcb).fcb q k).inodeOffset
          = (x.server.fcb q k).inodeOffset) := by
    intro q k hopen
    rw [Server.IsOpen, setFcb_fcb] at hopen
    rw [setFcb_fcb]
    split_ifs at hopen ⊢ with heq
    · rw [heq.1, heq.2]
      rw [heq.2] at hopen
      exact hfcb hopen
    · exact ⟨hused _ (h.inUse q k hopen), h.offset q k hopen, fun _ => rfl⟩
  refine ⟨hfs, hsizes, hend, ?_, ?_, ?_⟩
  · intro q k hopen
    exact (hcases q k hopen).1
  · intro q k hopen hold
    exact (hcases q k hopen).2.2 hold
  · intro q k hopen
    exact (hcases q k hopen).2.1

/-- The offset of a control block changes. -/
theorem Ok.keeps_offset (h : x.Ok) {fs : FS} {v : ℤ} (hfs : FsOk fs) (hsizes : SizesOk fs)
    (hend : x.FsEnd p r fs) (hused : ∀ y, x.server.fs.InUse y → fs.InUse y)
    (hv : x.server.IsOpen p n → 0 ≤ v) :
    x.Keeps p r ({ x.server with fs := fs }.setFcb p n { x.server.fcb p n with offset := v }) :=
  h.keeps_setFcb hfs hsizes hend hused fun hopen =>
    ⟨hused _ (h.inUse p n hopen), hv hopen, fun _ => rfl⟩

/-- A call that does not accept the control block. -/
theorem Ok.keeps_refused (h : x.Ok) : x.Keeps p r (x.server.setFcb p n (x.server.fcb p n)) :=
  h.keeps_offset h.fs h.sizes (.same rfl) (fun _ hy => hy) fun hopen => h.offset p n hopen

/-! ## One request -/

theorem Ok.keeps_close (h : x.Ok) {fd : ℤ} {ret : Option ℤ} (hp : p < maxProcessNum)
    (hok : closeFile x.server p fd = .ok (s, ret)) : x.Keeps p (.close fd) s := by
  rcases closeFile_eq_ok hp hok with heq | heq
  · rw [heq]
    exact h.keeps_same
  · rw [heq]
    refine h.keeps_setFcb h.fs h.sizes (.same rfl) (fun _ hy => hy) fun hvalid => ?_
    simp [FCB.valid] at hvalid

theorem Ok.keeps_lseek (h : x.Ok) {fd offset whence : ℤ} {ret : Option ℤ} (hp : p < maxProcessNum)
    (hlegal : x.Legal p (.lseek fd offset whence))
    (hok : lseekHandler x.server p fd offset whence = .ok (s, ret)) :
    x.Keeps p (.lseek fd offset whence) s := by
  rcases withFile_eq_ok hp hok with rfl | ⟨n, r, rfl, hr, rfl⟩
  · exact h.keeps_same
  · have ⟨v, hv⟩ := syscallLseek_fcb x.server.fs (x.server.fcb p n) n offset (whenceOf whence)
    cases hr
    rw [hv]
    refine h.keeps_offset h.fs h.sizes (.same rfl) (fun _ hy => hy) fun hopen => ?_
    have hpos := hlegal hopen
    rw [Int.toNat_natCast, hv] at hpos
    exact hpos

theorem Ok.keeps_read (h : x.Ok) {fd maxLen : ℤ} {str buffer : Buf} {ret : Option ℤ}
    (hp : p < maxProcessNum) (hok : readfileHandler x.server p fd maxLen str buffer = .ok (s, ret)) :
    x.Keeps p (.read fd maxLen str buffer) s := by
  rcases withFile_eq_ok hp hok with rfl | ⟨n, r, rfl, hr, rfl⟩
  · exact h.keeps_same
  cases hr
  by_cases hcond : (!(x.server.fcb p n).valid n || !modeCanRead (x.server.fcb p n).flags) = true
  · rw [syscallReadfile, if_pos hcond]
    exact h.keeps_refused
  simp only [Bool.or_eq_true, Bool.not_eq_true', not_or, Bool.not_eq_false] at hcond
  have hpos := h.offset p n hcond.1
  obtain ⟨bytes, str', _, hread, _⟩ := syscallReadfile_content h.fs h.sizes (h.inUse p n hcond.1) hcond.1
    hcond.2 hpos str maxLen buffer
  rw [hread]
  exact h.keeps_offset h.fs h.sizes (.same rfl) (fun _ hy => hy) fun _ => by omega

theorem Ok.keeps_write (h : x.Ok) {fd len : ℤ} {str buffer : Buf} {stack : ℕ → ℕ → Buf} {ret : Option ℤ}
    (hp : p < maxProcessNum) (hlegal : x.Legal p (.write fd len str buffer stack))
    (hok : writefileHandler x.server p fd len str buffer stack = .ok (s, ret)) :
    x.Keeps p (.write fd len str buffer stack) s := by
  rcases withFile_eq_ok hp hok with rfl | ⟨n, r, rfl, hr, rfl⟩
  · exact h.keeps_same
  by_cases hcond : (!(x.server.fcb p n).valid n || !modeCanWrite (x.server.fcb p n).flags) = true
  · rw [syscallWritefile, if_pos hcond] at hr
    cases hr
    exact h.keeps_refused
  simp only [Bool.or_eq_true, Bool.not_eq_true', not_or, Bool.not_eq_false] at hcond
  have hpos := h.offset p n hcond.1
  by_cases hlen : 0 < len
  · have hfits := hlegal hcond.1 hlen
    rw [Int.toNat_natCast] at hfits
    obtain ⟨fs, hcall, hfs, hsizes, hkept, _⟩ := syscallWritefile_tree hcond.1 hcond.2 str buffer stack h.fs
      h.sizes (h.inUse p n hcond.1) hpos hlen hfits
    rw [hcall] at hr
    cases hr
    exact h.keeps_offset hfs hsizes (.written hcond.1 hlen hkept) (fun y hy => (hkept.inUse y).mpr hy)
      fun _ => by omega
  · rw [syscallWritefile_nothing hcond.1 hcond.2 str buffer stack (not_lt.mp hlen)] at hr
    cases hr
    exact h.keeps_refused

/-- A new control block on an inode in use. -/
theorem Ok.keeps_open (h : x.Ok) {path : PathArg} {mode : ℤ} {l : Locals} {ret : Option ℤ}
    (hp : p < maxProcessNum) (hlegal : x.Legal p (.openFile path mode l))
    (hok : openfileHandler x.server p path.chars mode l = .ok (s, ret)) :
    x.Keeps p (.openFile path mode l) s := by
  have ⟨o, fs, hopen, hs⟩ := openfileHandler_eq_ok hp hok
  have ⟨o', fs', hopen', hend⟩ := syscallOpen_end h.fs path.no_zero hlegal l
  rw [hopen, Option.some.injEq, Prod.mk.injEq] at hopen'
  rw [← hopen'.1, ← hopen'.2] at hend
  -- the inodes in use stay, and the one that is returned is among them
  have ⟨hfs, hsizes, hfsEnd, hused, hnew⟩ : FsOk fs ∧ SizesOk fs ∧ x.FsEnd p (.openFile path mode l) fs
      ∧ (∀ y, x.server.fs.InUse y → fs.InUse y) ∧ (o ≠ -1 → fs.InUse o.toNat) := by
    cases hend with
    | found y _ hy =>
      exact ⟨h.fs, h.sizes, .same rfl, fun _ hy => hy, fun _ => by rwa [Int.toNat_natCast]⟩
    | failed => exact ⟨h.fs, h.sizes, .same rfl, fun _ hy => hy, fun hne => absurd rfl hne⟩
    | created y _ hcreated =>
      refine ⟨hcreated.ok, h.sizes.created hcreated, .created hcreated,
        fun z hz => (hcreated.inUse z).mpr (Or.inl hz), fun _ => ?_⟩
      rw [Int.toNat_natCast]
      exact (hcreated.inUse y).mpr (Or.inr rfl)
  rcases hs with rfl | ⟨hret, n, hfree, rfl⟩
  · exact ⟨hfs, hsizes, hfsEnd, fun q k hq => hused _ (h.inUse q k hq), fun _ _ _ _ => rfl, h.offset⟩
  · refine h.keeps_setFcb hfs hsizes hfsEnd hused fun _ => ⟨hnew hret, le_rfl, fun hold => ?_⟩
    -- the control block that is taken was not open
    rw [Server.IsOpen, FCB.valid, hfree, Bool.and_false] at hold
    cases hold

/-- A file that is not open is removed. -/
theorem Ok.keeps_unlink (h : x.Ok) {path : PathArg} {l : Locals} {ret : Option ℤ}
    (hlegal : x.Legal p (.unlink path l))
    (hok : unlinkHandler x.server path.chars l = .ok (s, ret)) : x.Keeps p (.unlink path l) s := by
  have ⟨o, fs, hunlink, hs⟩ := unlinkHandler_eq_ok hok
  have ⟨o', fs', hunlink', hend⟩ := syscallUnlink_end h.fs path.no_zero hlegal.1 l
  rw [hunlink, Option.some.injEq, Prod.mk.injEq] at hunlink'
  rw [← hunlink'.1, ← hunlink'.2] at hend
  rw [hs]
  cases hend with
  | failed => exact h.keeps_same
  | removed y _ hleads hremoved =>
    refine ⟨hremoved.ok, ?_, .removed hleads hremoved, ?_, fun _ _ _ _ => rfl, h.offset⟩
    · intro z hz
      have ⟨hz, hzy⟩ := (hremoved.inUse z).mp hz
      rw [hremoved.inode z hz hzy]
      exact h.sizes z hz
    · intro q k hopen
      exact (hremoved.inUse _).mpr ⟨h.inUse q k hopen, hlegal.2 y hleads q k hopen⟩

/-- Any request that meets its conditions. -/
theorem Ok.serve (h : x.Ok) {ret : Option ℤ} (hp : p < maxProcessNum) (hlegal : x.Legal p r)
    (hserve : r.serve x.server p = .ok (s, ret)) : x.Keeps p r s := by
  cases r with
  | openFile path mode l => exact h.keeps_open hp hlegal hserve
  | read fd maxLen str buffer => exact h.keeps_read hp hserve
  | write fd len str buffer stack => exact h.keeps_write hp hlegal hserve
  | lseek fd offset whence => exact h.keeps_lseek hp hlegal hserve
  | close fd => exact h.keeps_close hp hserve
  | unlink path l => exact h.keeps_unlink hlegal hserve

theorem Ok.step (h : x.Ok) (hstep : Step Legal x x') : x'.Ok := by
  have ⟨p, r, s, ret, hp, hlegal, hserve, hx'⟩ := hstep
  rw [hx']
  exact h.next (h.serve hp hlegal hserve)

theorem Ok.run (h : x.Ok) (hrun : ReflTransGen (Step Legal) x x') : x'.Ok := by
  induction hrun with
  | refl => exact h
  | tail _ hstep ih => exact ih.step hstep

end steps

/-! ## What a descriptor stands for -/

/-- Descriptor `n` of process `p` stands for the file `f` that it was opened on: its inode is still that
of `f`, a read returns bytes of `f`, and a write changes `f` and no other file. -/
structure Denotes (x : Session) (p n : ℕ) (f : File) : Prop where
  opened : x.opened p n = some f
  slot : f.slot = (x.server.fcb p n).inodeOffset
  inUse : x.server.fs.InUse f.slot
  file : x.file f.slot = some f
  reads : modeCanRead (x.server.fcb p n).flags = true → ∀ str maxLen buffer,
    ∃ (bytes : List UInt8) (str' : Buf),
      bytes = ((x.server.fs.content f.slot).drop (x.server.fcb p n).offset.toNat).take maxLen.toNat
      ∧ syscallReadfile x.server.fs (x.server.fcb p n) n str maxLen buffer
        = ((bytes.length : ℤ),
            { x.server.fcb p n with offset := (x.server.fcb p n).offset + bytes.length }, str')
      ∧ bytesOf str' bytes.length = bytes
  writes : modeCanWrite (x.server.fcb p n).flags = true → ∀ str len buffer stack, 0 < len →
    WriteFits x.server.fs (x.server.fcb p n) len →
    ∃ fs fcb, syscallWritefile x.server.fs (x.server.fcb p n) n str len buffer stack = some (len, fs, fcb)
      ∧ Overwrites (x.server.fs.content f.slot) (fs.content f.slot) (x.server.fcb p n).offset.toNat
          (bytesOf str len.toNat)
      ∧ (∀ y, fs.InUse y ↔ x.server.fs.InUse y)
      ∧ ∀ y, x.server.fs.InUse y → y ≠ f.slot → fs.content y = x.server.fs.content y

theorem Ok.denotes {x : Session} (h : x.Ok) {p n : ℕ} (hopen : x.server.IsOpen p n) :
    ∃ f, x.Denotes p n f := by
  have hused := h.inUse p n hopen
  have hpos := h.offset p n hopen
  have ⟨f, hfile, hslot, _⟩ := h.file _ hused
  refine ⟨f, ?_, hslot, ?_, ?_, ?_, ?_⟩
  · rw [h.opened p n hopen, hfile]
  · rwa [hslot]
  · rwa [hslot]
  · intro hmode str maxLen buffer
    rw [hslot]
    exact syscallReadfile_content h.fs h.sizes hused hopen hmode hpos str maxLen buffer
  · intro hmode str len buffer stack hlen hfits
    have ⟨fs, hcall, _, _, hkept, hover⟩ := syscallWritefile_tree hopen hmode str buffer stack h.fs h.sizes
      hused hpos hlen hfits
    rw [hslot]
    refine ⟨fs, _, hcall, hover, hkept.inUse, fun y hy hne => ?_⟩
    exact content_eq_of_file h.sizes hy (hkept.inode y hy hne) (hkept.file y hy hne)

end Session

/-- **Open descriptors.** From a well-formed file system and a server at which no file is open, in every
state that is reached by requests that meet their conditions, every open descriptor stands for the file
that it was opened on. -/
theorem session_denotes {s : Server} {x : Session} (hfs : FsOk s.fs) (hsizes : SizesOk s.fs)
    (hnone : ∀ p n, ¬ s.IsOpen p n)
    (hrun : ReflTransGen (Session.Step Session.Legal) (Session.start s) x) {p n : ℕ}
    (hopen : x.server.IsOpen p n) : ∃ f, x.Denotes p n f :=
  ((Session.Ok.start hfs hsizes hnone).run hrun).denotes hopen

/-! ## The file `/a` -/

theorem dirFS_leads_a : Leads (dirFS 1).disk (dirFS 1).rootOffset [slash, 97] 4224 := by
  rw [leads_last_iff isName_a, dirFS_root]
  decide +kernel

theorem dirFS_sizes {k : ℕ} (hk : k ≤ 8) : SizesOk (dirFS k) := by
  intro y hy
  obtain ⟨n, hn, rfl⟩ := (dirFS_inUse hk).mp hy
  cases n with
  | zero =>
    have hroot : loadInode (dirFS k).disk (4096 + 128 * 0) = oneBlockDir := dirDisk_root k
    rw [hroot]
    norm_num [oneBlockDir]
  | succ n =>
    have hfile : loadInode (dirFS k).disk (4096 + 128 * (n + 1)) = Files.emptyFile := by
      rw [show 4096 + 128 * (n + 1) = 4224 + 128 * n by omega]
      exact dirDisk_file (by omega)
    rw [hfile]
    norm_num [Files.emptyFile]

theorem oneProcess_not_isOpen (fs : FS) (p n : ℕ) : ¬ (oneProcess fs).IsOpen p n := by
  simp [Server.IsOpen, Server.fcb, oneProcess, zeroPCB, FCB.valid]

/-- The first process opens `/a` for reading and writing. -/
def openA : FileRequest := .openFile ⟨[slash, 97], path_a_no_zero⟩ 2 zeroLocals

/-- The server after that. -/
def serverA (fs : FS) : Server := (oneProcess fs).setFcb 0 3 ⟨true, 4224, 0, 2⟩

theorem serve_openA {fs : FS} (hopen : syscallOpen fs [slash, 97] 2 zeroLocals = some (4224, fs)) :
    openA.serve (oneProcess fs) 0 = .ok (serverA fs, some 3) := by
  have h := openfileHandler_first (s := oneProcess fs) (p := 0) (by norm_num) hopen (by norm_num) rfl
  rw [openA, FileRequest.serve, h]
  rfl

theorem dirFS_open_a : syscallOpen (dirFS 1) [slash, 97] 2 zeroLocals = some (4224, dirFS 1) := by
  have h : FsOk (dirFS 1) := dirFS_ok (by norm_num)
  exact (syscallOpen_found h (p := [slash, 97]) path_a_no_zero
    (passesNoFile_entry h.root_isDir (by decide)) dirFS_leads_a 2 zeroLocals).1

theorem openA_legal : (Session.start (oneProcess (dirFS 1))).Legal 0 openA := by
  have h : FsOk (dirFS 1) := dirFS_ok (by norm_num)
  refine ⟨passesNoFile_entry h.root_isDir (by decide), fun hmode => ?_⟩
  exact absurd hmode (by decide)

/-- The session after that. -/
noncomputable def sessionA (fs : FS) : Session := (Session.start (oneProcess fs)).next (serverA fs)

section sessionA
variable {fs fs' : FS} {ok : Session → ℕ → FileRequest → Prop}

theorem sessionA_isOpen : (sessionA fs).server.IsOpen 0 3 := rfl

theorem step_sessionA (hok : ok (Session.start (oneProcess fs)) 0 openA)
    (hopen : syscallOpen fs [slash, 97] 2 zeroLocals = some (4224, fs)) :
    Session.Step ok (Session.start (oneProcess fs)) (sessionA fs) :=
  ⟨0, openA, serverA fs, some 3, by norm_num, hok, serve_openA hopen, rfl⟩

/-- A process unlinks the file. -/
theorem step_unlinkA (hunlink : syscallUnlink fs [slash, 97] zeroLocals = some (0, fs')) :
    Session.Step (fun _ _ _ => True) (sessionA fs) ((sessionA fs).next { serverA fs with fs := fs' }) := by
  refine ⟨1, .unlink ⟨[slash, 97], path_a_no_zero⟩ zeroLocals, { serverA fs with fs := fs' }, some 0,
    by norm_num, trivial, ?_, rfl⟩
  have h := unlinkHandler_removed (s := serverA fs) hunlink
  rw [FileRequest.serve]
  exact h

theorem not_denotes_of_free (hfree : ¬ fs'.InUse 4224) :
    ((sessionA fs).next { serverA fs with fs := fs' }).server.IsOpen 0 3
      ∧ ¬ ∃ f, ((sessionA fs).next { serverA fs with fs := fs' }).Denotes 0 3 f := by
  refine ⟨rfl, ?_⟩
  intro ⟨f, hf⟩
  have hslot : f.slot = 4224 := hf.slot
  have hused : fs'.InUse f.slot := hf.inUse
  rw [hslot] at hused
  exact hfree hused

end sessionA

/-- The file is open. -/
theorem session_denotes_a : ∃ f, (sessionA (dirFS 1)).Denotes 0 3 f :=
  session_denotes (s := oneProcess (dirFS 1)) (dirFS_ok (by norm_num)) (dirFS_sizes (by norm_num))
    (oneProcess_not_isOpen _) (ReflTransGen.single (step_sessionA openA_legal dirFS_open_a))
    sessionA_isOpen

theorem dirFS_unlink_a : ∃ fs, syscallUnlink (dirFS 1) [slash, 97] zeroLocals = some (0, fs)
    ∧ ¬ fs.InUse 4224 := by
  have h : FsOk (dirFS 1) := dirFS_ok (by norm_num)
  have hwalk : walk (dirFS 1).disk (dirFS 1).rootOffset ([] ++ [[97]]) = some 4224 := by
    have hleads := (leads_last_iff isName_a).mp dirFS_leads_a
    simpa only [List.nil_append, walk, Option.bind_fun_some] using hleads
  have hpass : PassesNoFile (dirFS 1).disk (dirFS 1).rootOffset (absPath [] ++ slash :: [97]) :=
    passesNoFile_entry h.root_isDir (by decide)
  have hcase := syscallUnlink_case h (by simp) isName_a (no_zero_of_all rfl) hpass zeroLocals
  rw [absPath_nil, List.nil_append] at hcase
  generalize syscallUnlink (dirFS 1) [slash, 97] zeroLocals = r at hcase
  cases hcase with
  | nowhere hnone =>
    rw [hwalk] at hnone
    cases hnone
  | nonempty y hy hdir =>
    have hfile : loadInode (dirFS 1).disk (4224 + 128 * 0) = Files.emptyFile := dirDisk_file (by norm_num)
    have htype := hdir.1
    rw [hwalk, Option.some.injEq] at hy
    rw [← hy, hfile] at htype
    exact absurd htype (by decide)
  | long y _ _ hlong => exact absurd hlong (by decide)
  | removed o t y fs hy _ _ _ _ hunlinked =>
    rw [hwalk, Option.some.injEq] at hy
    refine ⟨fs, rfl, fun hused => ?_⟩
    exact ((hunlinked.removed.inUse 4224).mp hused).2 hy

/-- Another process unlinks the file, and the descriptor is left with an inode that is free. -/
theorem unlink_leaves_descriptor :
    FsOk (dirFS 1) ∧ SizesOk (dirFS 1) ∧ (∀ p n, ¬ (oneProcess (dirFS 1)).IsOpen p n)
      ∧ ∃ x, ReflTransGen (Session.Step fun _ _ _ => True)
          (Session.start (oneProcess (dirFS 1))) x
        ∧ x.server.IsOpen 0 3 ∧ ¬ ∃ f, x.Denotes 0 3 f := by
  have ⟨fs, hunlink, hfree⟩ := dirFS_unlink_a
  refine ⟨dirFS_ok (by norm_num), dirFS_sizes (by norm_num), oneProcess_not_isOpen _, _, ?_,
    @not_denotes_of_free (dirFS 1) fs hfree⟩
  exact (ReflTransGen.single (step_sessionA trivial dirFS_open_a)).tail (step_unlinkA hunlink)

end SeL4Sys

import SeL4Sys.Descriptors
import SeL4Sys.DirGrow

/-!
# What a file contains while processes work on files

The requests of all processes are served one after the other, in any order. What a regular file contains
changes only by a request that writes to that file: requests on other files, requests that create and
remove files, and requests that move or close descriptors leave it alone, although they all write to the
same disk.
-/

namespace SeL4Sys

open Bytes Relation

/-- What was written at `off` is found there. -/
theorem Overwrites.slice {old new bytes : List UInt8} {off k m : ℕ} (h : Overwrites old new off bytes)
    (hk : k + m ≤ bytes.length) : (new.drop (off + k)).take m = (bytes.drop k).take m := by
  have ⟨pre, hpre, _, hnew⟩ := h
  rw [hnew, List.append_assoc, ← hpre, ← List.drop_drop, List.drop_left,
    List.drop_append_of_le_length (by omega), List.take_append_of_le_length (by rw [List.length_drop]; omega)]

/-- What a request on an open control block does. -/
theorem withFile_of_isOpen {s : Server} {p n : ℕ} {k : FCB → Except Stop (ℤ × FS × FCB)} {o : ℤ} {fs : FS}
    {fcb : FCB} (hp : p < maxProcessNum) (hopen : s.IsOpen p n) (hk : k (s.fcb p n) = .ok (o, fs, fcb)) :
    s.withFile p n k = .ok ({ s with fs := fs }.setFcb p n fcb, some o) := by
  have ⟨⟨hlow, hhigh⟩, _⟩ : ((3 : ℤ) ≤ n ∧ (n : ℤ) < maxFileNum) ∧ (s.fcb p n).inuse = true := by
    simpa [Server.IsOpen, FCB.valid] using hopen
  rw [Server.withFile, if_neg (by omega), proc_eq hp, ok_bind, file_eq (by omega) hhigh, ok_bind]
  simp only [Int.toNat_natCast]
  rw [show (s.procTable p).fileTable n = s.fcb p n from rfl, hk, ok_bind, setFile_eq (by omega) hhigh,
    ok_bind, setPcb_eq hp, ok_bind]
  rfl

namespace Session

/-- The file `f` exists, it is a regular file, and it contains `c`. -/
structure Contains (x : Session) (f : File) (c : List UInt8) : Prop where
  inUse : x.server.fs.InUse f.slot
  file : x.file f.slot = some f
  regular : ¬ IsDir x.server.fs.disk f.slot
  content : x.server.fs.content f.slot = c

/-- The request writes to the inode at `y`. -/
def WritesTo (x : Session) (p y : ℕ) : FileRequest → Prop
  | .write fd len _ _ _ => 0 < len ∧ (x.server.fcb p fd.toNat).valid fd = true
      ∧ (x.server.fcb p fd.toNat).inodeOffset = y
  | _ => False

/-- The request removes the inode at `y`. -/
def Removes (x : Session) (y : ℕ) : FileRequest → Prop
  | .unlink path _ => Leads x.server.fs.disk x.server.fs.rootOffset path.chars y
  | _ => False

/-- A request that meets its conditions and neither writes to the file nor removes it. -/
def Spares (f : File) (x : Session) (p : ℕ) (r : FileRequest) : Prop :=
  x.Legal p r ∧ ¬ x.WritesTo p f.slot r ∧ ¬ x.Removes f.slot r

section spares
variable {x x' : Session} {s : Server} {f : File} {c : List UInt8}

/-- A file whose inode and bytes are kept. -/
theorem Contains.next (hx : x.Ok) (h : x.Contains f c) (hused : s.fs.InUse f.slot)
    (hinode : loadInode s.fs.disk f.slot = loadInode x.server.fs.disk f.slot)
    (hfile : ∀ q, q < (loadInode x.server.fs.disk f.slot).blocks * 1024 →
      fileByte s.fs.disk (loadInode x.server.fs.disk f.slot) q
        = fileByte x.server.fs.disk (loadInode x.server.fs.disk f.slot) q) :
    (x.next s).Contains f c where
  inUse := hused
  file := by
    show x.fileAfter s.fs f.slot = some f
    rw [fileAfter, if_pos hused, if_pos h.inUse, h.file]
  regular := by
    show ¬ (loadInode s.fs.disk f.slot).type ≠ regularType
    rw [hinode]
    exact h.regular
  content := (content_eq_of_file hx.sizes h.inUse hinode hfile).trans h.content

theorem Contains.next_same (hx : x.Ok) (h : x.Contains f c) (hfs : s.fs = x.server.fs) :
    (x.next s).Contains f c := by
  apply h.next hx
  · rw [hfs]
    exact h.inUse
  · rw [hfs]
  · intro q _
    rw [hfs]

theorem Contains.step (hx : x.Ok) (h : x.Contains f c) (hstep : Step (Spares f) x x') :
    x'.Contains f c := by
  have ⟨p, r, s, ret, hp, hspares, hserve, hx'⟩ := hstep
  rw [hx']
  obtain ⟨hlegal, hwrites, hremoves⟩ := hspares
  have hkeeps := hx.serve hp hlegal hserve
  cases hkeeps.ends with
  | same hfs => exact h.next_same hx hfs
  | @written n _ _ _ _ _ hopen hlen hkept =>
    -- the write goes to another inode, whose blocks are not those of the file
    have hne : f.slot ≠ (x.server.fcb p n).inodeOffset := by
      intro heq
      exact hwrites ⟨hlen, hopen, heq.symm⟩
    exact h.next hx ((hkept.inUse _).mpr h.inUse) (hkept.inode _ h.inUse hne) (hkept.file _ h.inUse hne)
  | created hcreated =>
    exact h.next hx ((hcreated.inUse _).mpr (Or.inl h.inUse)) (hcreated.inode _ h.inUse)
      (hcreated.file _ h.inUse h.regular)
  | @removed _ _ _ y hleads hremoved =>
    have hne : f.slot ≠ y := by
      rintro rfl
      exact hremoves hleads
    exact h.next hx ((hremoved.inUse _).mpr ⟨h.inUse, hne⟩) (hremoved.inode _ h.inUse hne)
      (hremoved.file _ h.inUse hne h.regular)

/-- Any requests that spare the file, of any processes and in any order. -/
theorem Contains.run (hx : x.Ok) (h : x.Contains f c)
    (hrun : ReflTransGen (Step (Spares f)) x x') : x'.Ok ∧ x'.Contains f c := by
  induction hrun with
  | refl => exact ⟨hx, h⟩
  | tail _ hstep ih =>
    have ⟨p, r, s, ret, hp, hspares, hserve, hx'⟩ := hstep
    exact ⟨ih.1.step ⟨p, r, s, ret, hp, hspares.1, hserve, hx'⟩, ih.2.step ih.1 hstep⟩

end spares

/-! ## A write and a read -/

section write
variable {x x' : Session} {f : File} {p n : ℕ} {len : ℤ}

/-- A regular file stays one when it is written. -/
theorem Ok.write_regular (hx : x.Ok) (hopen : x.server.IsOpen p n)
    (hmode : modeCanWrite (x.server.fcb p n).flags = true) (hlen : 0 < len)
    (hfits : WriteFits x.server.fs (x.server.fcb p n) len) {str buffer : Buf} {stack : ℕ → ℕ → Buf}
    {o : ℤ} {fs : FS} {fcb : FCB}
    (hcall : syscallWritefile x.server.fs (x.server.fcb p n) n str len buffer stack = some (o, fs, fcb)) :
    ¬ IsDir fs.disk (x.server.fcb p n).inodeOffset := by
  have hused := hx.inUse p n hopen
  have hoff := hx.offset p n hopen
  obtain ⟨fs', ino, hwrite, hw, hload⟩ := syscallWritefile_spec hx.fs.inodes.formatted hx.fs.owned hused
    (x.server.fcb p n) hused.isSlot rfl hopen hmode (Int.toNat_of_nonneg hoff).symm hfits.near
    (Int.pos_iff_toNat_pos.mp hlen) hfits.room.1 hfits.room.2 str buffer stack
  rw [Int.toNat_of_nonneg hlen.le, hcall, Option.some.injEq, Prod.mk.injEq, Prod.mk.injEq] at hwrite
  rw [hwrite.2.1, IsDir, hload, hw.type]
  exact hfits.regular

theorem Ok.denotes_opened (hx : x.Ok) (hopen : x.server.IsOpen p n) (hf : x.opened p n = some f) :
    x.Denotes p n f := by
  have ⟨g, hg⟩ := hx.denotes hopen
  rwa [Option.some.inj (hf.symm.trans hg.opened)]

/-- `writefile_handler` through an open descriptor: the file contains the bytes after it. -/
theorem Ok.write (hx : x.Ok) (hp : p < maxProcessNum) (hopen : x.server.IsOpen p n)
    (hmode : modeCanWrite (x.server.fcb p n).flags = true) (hlen : 0 < len)
    (hfits : WriteFits x.server.fs (x.server.fcb p n) len) (hf : x.opened p n = some f)
    (str buffer : Buf) (stack : ℕ → ℕ → Buf) :
    ∃ s c, writefileHandler x.server p n len str buffer stack = .ok (s, some len) ∧ (x.next s).Ok
      ∧ (x.next s).Contains f c ∧ Overwrites (x.server.fs.content f.slot) c
        (x.server.fcb p n).offset.toNat (bytesOf str len.toNat) := by
  have hd := hx.denotes_opened hopen hf
  have ⟨fs, hcall, _, _, hkept, hover⟩ := syscallWritefile_tree hopen hmode str buffer stack hx.fs
    hx.sizes (hx.inUse p n hopen) (hx.offset p n hopen) hlen hfits
  have hused := (hkept.inUse _).mpr hd.inUse
  have hserve : writefileHandler x.server p n len str buffer stack = .ok ({ x.server with fs := fs }.setFcb p n
      { x.server.fcb p n with offset := (x.server.fcb p n).offset + len }, some len) := by
    rw [writefileHandler]
    exact withFile_of_isOpen hp hopen (by rw [hcall])
  refine ⟨_, fs.content f.slot, hserve, ?_, ⟨?_, ?_, ?_, rfl⟩, ?_⟩
  · refine hx.step ⟨p, .write n len str buffer stack, _, _, hp, ?_, hserve, rfl⟩
    intro _ _
    rwa [Int.toNat_natCast]
  · exact hused
  · show x.fileAfter fs f.slot = some f
    rw [fileAfter, if_pos hused, if_pos hd.inUse, hd.file]
  · show ¬ IsDir fs.disk f.slot
    rw [hd.slot]
    exact hx.write_regular hopen hmode hlen hfits hcall
  · rwa [← hd.slot] at hover

/-- `syscall_readfile` through an open descriptor returns bytes of the file it was opened on. -/
theorem Contains.read (hx : x.Ok) {c : List UInt8} (h : x.Contains f c) (hopen : x.server.IsOpen p n)
    (hf : x.opened p n = some f) (hmode : modeCanRead (x.server.fcb p n).flags = true) (str : Buf)
    (maxLen : ℕ) (buffer : Buf) :
    ∃ (bytes : List UInt8) (str' : Buf), bytes = (c.drop (x.server.fcb p n).offset.toNat).take maxLen
      ∧ syscallReadfile x.server.fs (x.server.fcb p n) n str maxLen buffer = ((bytes.length : ℤ),
          { x.server.fcb p n with offset := (x.server.fcb p n).offset + bytes.length }, str')
      ∧ bytesOf str' bytes.length = bytes := by
  rw [← h.content]
  exact (hx.denotes_opened hopen hf).reads hmode str maxLen buffer

end write

end Session

open Session in
/-- **Files are shared.** In every state that is reached by requests that meet their conditions, a process
writes through an open descriptor. Then requests of any processes are served, in any order, that do not
write to the same file. A process that has the file open for reading, at an offset within what was written,
reads exactly the bytes that were written there. -/
theorem session_reads_written {s : Server} {x : Session} (hfs : FsOk s.fs) (hsizes : SizesOk s.fs)
    (hnone : ∀ p n, ¬ s.IsOpen p n) (hreach : ReflTransGen (Step Legal) (start s) x) {p n : ℕ}
    (hp : p < maxProcessNum) (hopen : x.server.IsOpen p n)
    (hmode : modeCanWrite (x.server.fcb p n).flags = true) {len : ℤ} (hlen : 0 < len)
    (hfits : WriteFits x.server.fs (x.server.fcb p n) len) (str buffer : Buf) (stack : ℕ → ℕ → Buf) :
    ∃ f s₁, x.opened p n = some f
      ∧ writefileHandler x.server p n len str buffer stack = .ok (s₁, some len)
      ∧ ∀ x₂, ReflTransGen (Step (Spares f)) (x.next s₁) x₂ →
        ∀ q m k maxLen : ℕ, x₂.server.IsOpen q m → x₂.opened q m = some f →
          modeCanRead (x₂.server.fcb q m).flags = true →
          (x₂.server.fcb q m).offset = (x.server.fcb p n).offset + k → k + maxLen ≤ len.toNat →
          ∀ dest buffer' : Buf, ∃ dest', syscallReadfile x₂.server.fs (x₂.server.fcb q m) m dest maxLen buffer'
              = ((maxLen : ℤ), { x₂.server.fcb q m with offset := (x₂.server.fcb q m).offset + maxLen }, dest')
            ∧ bytesOf dest' maxLen = ((bytesOf str len.toNat).drop k).take maxLen := by
  have hx := (Session.Ok.start hfs hsizes hnone).run hreach
  have ⟨f, hf⟩ := hx.denotes hopen
  have ⟨s₁, c, hserve, hx₁, hc, hover⟩ := hx.write hp hopen hmode hlen hfits hf.opened str buffer stack
  refine ⟨f, s₁, hf.opened, hserve, ?_⟩
  intro x₂ hrun q m k maxLen hopen₂ hf₂ hmode₂ hoff hk dest buffer'
  have ⟨hx₂, hc₂⟩ := hc.run hx₁ hrun
  have ⟨bytes, dest', hbytes, hread, hdest⟩ := hc₂.read hx₂ hopen₂ hf₂ hmode₂ dest maxLen buffer'
  have hpos := hx.offset p n hopen
  have hsum : (x₂.server.fcb q m).offset.toNat = (x.server.fcb p n).offset.toNat + k := by omega
  rw [hsum, hover.slice (by rwa [length_bytesOf])] at hbytes
  have hcount : bytes.length = maxLen := by
    rw [hbytes, List.length_take, List.length_drop, length_bytesOf]
    omega
  rw [hcount] at hread hdest
  exact ⟨dest', hread, hdest.trans hbytes⟩

/-! ## Two processes and the file `/a` -/

/-- The second process opens the file as well. -/
def serverAB : Server := (serverA (dirFS 1)).setFcb 1 3 ⟨true, 4224, 0, 2⟩

/-- The session in which both have it open. -/
noncomputable def sessionAB : Session := (sessionA (dirFS 1)).next serverAB

theorem dirFS_writeFits : WriteFits (dirFS 1) ⟨true, 4224, 0, 2⟩ 3 := by
  have hinode : loadInode (dirFS 1).disk 4224 = Files.emptyFile := dirDisk_file (t := 0) (by norm_num)
  have hview : FCB.inode ⟨true, 4224, 0, 2⟩ (dirFS 1) = Files.emptyFile := hinode
  refine ⟨?_, ?_, ?_⟩
  · rw [IsDir, hinode]
    exact fun hne => hne rfl
  · exact Nat.zero_le _
  · rw [hview]
    have hneed : blocksFor Files.emptyFile.blocks
        (max Files.emptyFile.blocks (((0 : ℤ).toNat + (3 : ℤ).toNat + 1023) / 1024)) = 1 := by
      rw [show Files.emptyFile.blocks = 0 from rfl]
      exact blocksFor_succ 0
    rw [RoomFor, hneed]
    refine ⟨fun j hj => ?_, by norm_num [dirFS, smallFS]⟩
    obtain rfl : j = 0 := by omega
    exact (getsFree_iff (smallFS_formatted _ _ _)).mpr (dirFS_hits 1)

theorem step_sessionAB : Session.Step Session.Legal (sessionA (dirFS 1)) sessionAB := by
  refine ⟨1, openA, serverAB, some 3, by norm_num, openA_legal, ?_, rfl⟩
  have h := openfileHandler_first (s := serverA (dirFS 1)) (p := 1) (by norm_num) dirFS_open_a
    (by norm_num) rfl
  show openfileHandler (serverA (dirFS 1)) ((1 : ℕ) : ℤ) [slash, 97] 2 zeroLocals = _
  rw [h]
  rfl

theorem reach_sessionAB :
    ReflTransGen (Session.Step Session.Legal) (.start (oneProcess (dirFS 1))) sessionAB :=
  (ReflTransGen.single (step_sessionA openA_legal dirFS_open_a)).tail step_sessionAB

theorem sessionAB_ok : sessionAB.Ok :=
  (Session.Ok.start (dirFS_ok (by norm_num)) (dirFS_sizes (by norm_num)) (oneProcess_not_isOpen _)).run
    reach_sessionAB

/-- A write of the first process leaves the descriptor of the second one as it was. -/
theorem sessionAB_second {s : Server} {f : File} {len : ℤ} {str buffer : Buf} {stack : ℕ → ℕ → Buf}
    {ret : Option ℤ} (hserve : writefileHandler serverAB (0 : ℕ) (3 : ℕ) len str buffer stack = .ok (s, ret))
    (hf : sessionAB.opened 0 3 = some f) :
    s.fcb 1 3 = ⟨true, 4224, 0, 2⟩ ∧ s.IsOpen 1 3 ∧ (sessionAB.next s).opened 1 3 = some f := by
  have hfcb : s.fcb 1 3 = ⟨true, 4224, 0, 2⟩ := by
    rcases withFile_eq_ok (by norm_num) hserve with rfl | ⟨n, r, _, _, rfl⟩
    · rfl
    · rw [setFcb_fcb, if_neg fun h => absurd h.1 (by norm_num)]
      rfl
  have hopen : s.IsOpen 1 3 := by
    rw [Server.IsOpen, hfcb]
    rfl
  have hsame : sessionAB.opened 1 3 = sessionAB.opened 0 3 :=
    (sessionAB_ok.opened 1 3 rfl).trans (sessionAB_ok.opened 0 3 rfl).symm
  have hkept : (sessionAB.next s).opened 1 3 = sessionAB.opened 1 3 := (if_pos hopen).trans (if_pos rfl)
  exact ⟨hfcb, hopen, hkept.trans (hsame.trans hf)⟩

/-- The first process writes three bytes, and the second one reads them. -/
theorem session_reads_written_a : ∃ s₁ r,
    writefileHandler serverAB 0 3 3 (fun _ => 7) (fun _ => 0) (fun _ _ _ => 0) = .ok (s₁, some 3)
      ∧ syscallReadfile s₁.fs (s₁.fcb 1 3) 3 (fun _ => 0) 3 (fun _ => 0) = r ∧ r.1 = 3
      ∧ bytesOf r.2.2 3 = [7, 7, 7] := by
  have ⟨f, s₁, hf, hserve, hreads⟩ := session_reads_written (p := 0) (n := 3) (dirFS_ok (by norm_num))
    (dirFS_sizes (by norm_num)) (oneProcess_not_isOpen _) reach_sessionAB (by norm_num) rfl rfl
    (show (0 : ℤ) < 3 by norm_num) dirFS_writeFits (fun _ => 7) (fun _ => 0) (fun _ _ _ => 0)
  have ⟨hfcb, hopen, hf₂⟩ := sessionAB_second hserve hf
  have hmode : modeCanRead (s₁.fcb 1 3).flags = true := by
    rw [hfcb]
    rfl
  have hoff : (s₁.fcb 1 3).offset = (sessionAB.server.fcb 0 3).offset + (0 : ℕ) := by
    rw [hfcb]
    rfl
  have ⟨dest', hread, hdest⟩ := hreads _ .refl 1 3 0 3 hopen hf₂ hmode hoff (by norm_num) (fun _ => 0)
    fun _ => 0
  exact ⟨s₁, _, hserve, hread, rfl, hdest⟩

end SeL4Sys

import SeL4Sys.CreateFinds
import SeL4Sys.Descriptors

/-!
# An open that is refused

`openfile_handler` opens the file before it looks for a control block. When all of them are in use it
sends back -1, and a file that the call has created stays on the disk.
-/

namespace SeL4Sys

/-! ## What `syscall_open` does to the file system -/

section alloc
variable {s s' : FS} {father dest : Inode} {o destOffset : ℕ} {stack : ℕ → Bytes.Buf}

theorem addEntry_availInodeNum {name : List UInt8} {type : ℤ} {i j : ℕ} {buffer : Bytes.Buf}
    (h : (addEntry s father o dest destOffset name type i j buffer).ret = 0) :
    (addEntry s father o dest destOffset name type i j buffer).fs.superBlock.availInodeNum
      = s.superBlock.availInodeNum - 1 := by
  rw [addEntry] at h ⊢
  by_cases havail : s.superBlock.availInodeNum = 0
  · have hnone : getAvailInode s = none := by
      rw [getAvailInode, getAvail, SuperBlock.avail, if_pos havail]
      rfl
    rw [hnone] at h
    cases h
  · obtain ⟨x, hget⟩ := getAvailInode_eq_some havail
    rw [hget] at h ⊢
    simp only [Option.elim_some, writeBlock] at h ⊢
    cases hsector : blockSector (taken .inode s) father i with
    | none =>
      rw [hsector] at h
      cases h
    | some b => rfl

/-- A creation takes an inode from the super block, whatever the state. -/
theorem allocInode_availInodeNum {name : List UInt8} {type : ℤ} {buffer : Bytes.Buf}
    (h : (allocInode s father o dest destOffset name type buffer stack).ret = 0) :
    (allocInode s father o dest destOffset name type buffer stack).fs.superBlock.availInodeNum
      = s.superBlock.availInodeNum - 1 := by
  unfold allocInode at h ⊢
  by_cases hname : name = []
  · rw [if_pos hname] at h
    cases h
  rw [if_neg hname] at h ⊢
  by_cases havail : s.superBlock.availInodeNum = 0
  · rw [if_pos havail] at h
    cases h
  rw [if_neg havail] at h ⊢
  cases hscan : scanDir s father (stopsAlloc name) buffer with
  | failed =>
    rw [hscan] at h
    cases h
  | found i j b =>
    rw [hscan] at h
    simp only at h ⊢
    by_cases hlive : entryInode (dirEntry b j) ≠ 0
    · rw [if_pos hlive] at h
      cases h
    · rw [if_neg hlive] at h ⊢
      exact addEntry_availInodeNum h
  | missing b =>
    rw [hscan] at h
    simp only at h ⊢
    cases halloc : allocBlock s father o stack with
    | none =>
      rw [halloc] at h
      cases h
    | some r =>
      rw [halloc] at h
      simp only [Option.elim_some] at h ⊢
      rw [addEntry_availInodeNum h, (allocBlock_keeps halloc).availInodeNum]

end alloc

section opening
variable {s fs : FS} {path : List UInt8} {mode o : ℤ} {l : Locals}

/-- What a call of `syscall_open` that returns has done: nothing, or a creation in the inode that the
lookup of the directory has found. -/
theorem syscallOpen_effect (h : syscallOpen s path mode l = some (o, fs)) :
    fs = s ∧ (o = -1 ∨ (readInode s l.destInode path l.lookupBuffer).ret = 0
        ∧ o = (readInode s l.destInode path l.lookupBuffer).inodeOffset)
        ∧ (∀ y, ¬ CreatesAt s path mode l y)
      ∨ (∃ y, CreatesAt s path mode l y) ∧ (∃ x : ℕ, o = x) ∧ fs ≠ s := by
  by_cases hfound : (readInode s l.destInode path l.lookupBuffer).ret = 0
  · rw [syscallOpen, if_pos hfound] at h
    obtain ⟨ho, hfs⟩ := Prod.mk.inj (Option.some.inj h)
    exact Or.inl ⟨hfs.symm, Or.inr ⟨hfound, ho.symm⟩, fun _ hat => hat.1.missing hfound⟩
  by_cases hat : ∃ y, CreatesAt s path mode l y
  · refine Or.inr ⟨hat, ?_⟩
    obtain ⟨y, hcreates, d, hfather, hret, -⟩ := hat
    rw [hcreates.open_eq (ne_nil_of_getFatherPath hfather) hfather] at h
    rcases createIn_eq_some h with ⟨hmissing, -⟩ | ⟨-, _, _, _, x, -, hx, halloc⟩
    · exact absurd hret hmissing
    · refine ⟨⟨x, hx⟩, fun heq => ?_⟩
      have havail := allocInode_availInodeNum (congrArg DirResult.ret halloc)
      rw [halloc] at havail
      simp only [heq] at havail
      omega
  · refine Or.inl ?_
    rw [not_exists] at hat
    rcases syscallOpen_cases h with ⟨hfs, hfound' | ho⟩ | ⟨hcreates, d, hfather, hcreate⟩
    · exact absurd hfound' hfound
    · exact ⟨hfs, Or.inl ho, hat⟩
    · rcases createIn_eq_some hcreate with ⟨-, hfs, ho⟩ | ⟨hret, -⟩
      · exact ⟨hfs, Or.inl ho, hat⟩
      · exact absurd ⟨hcreates, d, hfather, hret, rfl⟩ (hat _)

end opening

/-! ## The handler -/

/-- Every control block that `openfile_handler` may hand out is in use. -/
def TableFull (p : PCB) : Prop := ∀ j : ℤ, 3 ≤ j → j < maxFileNum → (p.fileTable j.toNat).inuse = true

/-- The path is not found, the mode asks for a creation, and the directory is found. -/
def OpenCreates (s : FS) (path : List UInt8) (mode : ℤ) (l : Locals) : Prop :=
  ∃ y, CreatesAt s path mode l y

/-- The process gets control block `fd` for inode `x`. -/
structure GetsDescriptor (s s' : Server) (p : ℕ) (path : List UInt8) (mode : ℤ) (l : Locals) (fd : ℤ) (x : ℕ) :
    Prop where
  first : 3 ≤ fd
  inTable : fd < maxFileNum
  unused : (s.fcb p fd.toNat).inuse = false
  least : ∀ j : ℤ, 3 ≤ j → j < fd → (s.fcb p j.toNat).inuse = true
  opened : syscallOpen s.fs path mode l = some ((x : ℤ), s'.fs)
  found : (readInode s.fs l.destInode path l.lookupBuffer).ret = 0
    → x = (readInode s.fs l.destInode path l.lookupBuffer).inodeOffset
  fcb : s'.fcb p fd.toNat = ⟨true, x, 0, mode⟩
  others : ∀ q k, ¬ (q = p ∧ k = fd.toNat) → s'.fcb q k = s.fcb q k

theorem findFile_spec (b : PCB) (k : ℕ) : ∀ {l : ℤ}, 0 ≤ l → l + k = maxFileNum →
    ∃ r, findFile b k l = .ok r ∧ l ≤ r ∧ (∀ j, l ≤ j → j < r → (b.fileTable j.toNat).inuse = true)
      ∧ (r < maxFileNum → (b.fileTable r.toNat).inuse = false) := by
  induction k with
  | zero => exact fun {l} hl hk => ⟨l, rfl, le_rfl, fun j _ _ => by omega, fun hlt => by omega⟩
  | succ k ih =>
    intro l hl hk
    push_cast at hk
    rw [findFile, file_eq hl (by omega), ok_bind]
    by_cases huse : (b.fileTable l.toNat).inuse = true
    · obtain ⟨r, hfind, hle, hbefore, hfree⟩ := ih (l := l + 1) (by omega) (by omega)
      refine ⟨r, by rw [if_pos huse, hfind], by omega, fun j hj hlt => ?_, hfree⟩
      rcases eq_or_lt_of_le hj with rfl | hgt
      · exact huse
      · exact hbefore j (by omega) hlt
    · exact ⟨l, if_neg huse, le_rfl, fun j _ _ => by omega, fun _ => by simpa using huse⟩

variable {s s' : Server} {p : ℕ} {path : List UInt8} {mode r : ℤ} {l : Locals}

/-- The three ends of `openfile_handler`: the open fails, the table is full, or there is a control block. -/
theorem openfileHandler_ends (hp : p < maxProcessNum)
    (h : openfileHandler s p path mode l = .ok (s', some r)) :
    ∃ o fs, syscallOpen s.fs path mode l = some (o, fs)
      ∧ (o = -1 ∧ r = -1 ∧ s' = { s with fs := fs }
        ∨ o ≠ -1 ∧ r = -1 ∧ s' = { s with fs := fs } ∧ TableFull (s.procTable p)
        ∨ o ≠ -1 ∧ (3 ≤ r ∧ r < maxFileNum) ∧ (s.fcb p r.toNat).inuse = false
          ∧ (∀ j : ℤ, 3 ≤ j → j < r → (s.fcb p j.toNat).inuse = true)
          ∧ s' = { s with fs := fs }.setFcb p r.toNat ⟨true, o.toNat, 0, mode⟩) := by
  rw [openfileHandler] at h
  cases hopen : syscallOpen s.fs path mode l with
  | none =>
    rw [hopen] at h
    cases h
  | some q =>
    obtain ⟨o, fs⟩ := q
    rw [hopen] at h
    dsimp only at h
    refine ⟨o, fs, rfl, ?_⟩
    by_cases hfail : o = -1
    · rw [if_pos hfail] at h
      cases h
      exact Or.inl ⟨hfail, rfl, rfl⟩
    · obtain ⟨i, hfind, hle, hbefore, hfree⟩ :=
        findFile_spec (s.procTable p) (maxFileNum - 3).toNat (l := 3) (by norm_num) (by norm_num)
      rw [if_neg hfail, proc_eq hp, ok_bind, hfind, ok_bind] at h
      refine Or.inr ?_
      by_cases hlt : i < maxFileNum
      · rw [if_pos hlt, setFile_eq (by omega) hlt, ok_bind, setPcb_eq hp, ok_bind] at h
        cases h
        exact Or.inr ⟨hfail, ⟨hle, hlt⟩, hfree hlt, hbefore, rfl⟩
      · rw [if_neg hlt] at h
        cases h
        exact Or.inl ⟨hfail, rfl, rfl, fun j hlow hhigh => hbefore j hlow (by omega)⟩

theorem openfileHandler_full (hp : p < maxProcessNum) (hfull : TableFull (s.procTable p)) {x : ℕ} {fs : FS}
    (hopen : syscallOpen s.fs path mode l = some ((x : ℤ), fs)) :
    openfileHandler s p path mode l = .ok ({ s with fs := fs }, some (-1)) := by
  obtain ⟨i, hfind, hle, -, hfree⟩ :=
    findFile_spec (s.procTable p) (maxFileNum - 3).toNat (l := 3) (by norm_num) (by norm_num)
  have hend : ¬ i < maxFileNum := by
    intro hlt
    have := hfull i hle hlt
    rw [hfree hlt] at this
    cases this
  rw [openfileHandler, hopen]
  dsimp only
  rw [if_neg (by omega), proc_eq hp, ok_bind, hfind, ok_bind, if_neg hend]

theorem withFs_eq_iff {fs : FS} : { s with fs := fs } = s ↔ fs = s.fs := by
  constructor
  · intro heq
    exact congrArg Server.fs heq
  · rintro rfl
    rfl

/-- **When a refused open has no effect.** A reply of -1 leaves everything as it was unless the call has
created the file and found the table of the process full. Any other reply is the least control block that
was not in use; it is set to the start of the file, and all other control blocks are as they were. -/
theorem openfile_refused_iff (hp : p < maxProcessNum)
    (h : openfileHandler s p path mode l = .ok (s', some r)) :
    (r = -1 → (s' = s ↔ ¬ (TableFull (s.procTable p) ∧ OpenCreates s.fs path mode l)))
      ∧ (r ≠ -1 → ∃ x, GetsDescriptor s s' p path mode l r x) := by
  obtain ⟨o, fs, hopen, hend⟩ := openfileHandler_ends hp h
  have heffect := syscallOpen_effect hopen
  rcases hend with ⟨ho, hr, hs'⟩ | ⟨ho, hr, hs', hfull⟩ | ⟨ho, ⟨hlow, hhigh⟩, hunused, hleast, hs'⟩
  · refine ⟨fun _ => ?_, fun hne => absurd hr hne⟩
    rw [hs', withFs_eq_iff]
    rcases heffect with ⟨hsame, -, hnot⟩ | ⟨-, ⟨x, hx⟩, -⟩
    · exact iff_of_true hsame fun ⟨_, y, hat⟩ => hnot y hat
    · omega
  · refine ⟨fun _ => ?_, fun hne => absurd hr hne⟩
    rw [hs', withFs_eq_iff]
    rcases heffect with ⟨hsame, -, hnot⟩ | ⟨hat, -, hne⟩
    · exact iff_of_true hsame fun ⟨_, y, hat⟩ => hnot y hat
    · exact iff_of_false hne fun hnot => hnot ⟨hfull, hat⟩
  · refine ⟨fun hr => by omega, fun _ => ?_⟩
    obtain ⟨x, hx, hfound⟩ : ∃ x : ℕ, o = x ∧ ((readInode s.fs l.destInode path l.lookupBuffer).ret = 0
        → x = (readInode s.fs l.destInode path l.lookupBuffer).inodeOffset) := by
      rcases heffect with ⟨-, hmin | ⟨-, hoff⟩, -⟩ | ⟨⟨_, hat⟩, ⟨x, hx⟩, -⟩
      · exact absurd hmin ho
      · exact ⟨_, hoff, fun _ => rfl⟩
      · exact ⟨x, hx, fun hfound => absurd hfound hat.1.missing⟩
    refine ⟨x, hlow, hhigh, hunused, hleast, ?_, hfound, ?_, fun q k hne => ?_⟩
    · rw [hs', setFcb_fs, hopen, hx]
    · rw [hs', setFcb_fcb, if_pos ⟨rfl, rfl⟩, hx, Int.toNat_natCast]
    · rw [hs', setFcb_fcb, if_neg hne]
      rfl

/-- Processes whose control blocks are all in use, or none of them, on the empty disk. -/
def oneTable (inuse : Bool) : Server :=
  ⟨dirFS 0, fun _ => ⟨true, fun _ => ⟨inuse, 0, 0, 0⟩, fun _ => 0, fun _ => 0⟩⟩

/-- The root directory gets control block 3. -/
theorem openfile_refused_iff_root :
    ∃ s' x, openfileHandler (oneTable false) 0 [slash] 0 zeroLocals = .ok (s', some 3)
      ∧ GetsDescriptor (oneTable false) s' 0 [slash] 0 zeroLocals 3 x := by
  have hopen : syscallOpen (oneTable false).fs [slash] 0 zeroLocals
      = some ((((dirFS 0).rootOffset : ℕ) : ℤ), dirFS 0) := by
    rw [syscallOpen, readInode_slash]
    rfl
  have hok := openfileHandler_first (s := oneTable false) (p := 0) (by decide) hopen (by omega) rfl
  obtain ⟨x, hx⟩ := (openfile_refused_iff (by decide) hok).2 (by decide)
  exact ⟨_, x, hok, hx⟩

/-- A table that is full, and a path that does not exist: the file is created, and the reply is -1. -/
theorem refused_open_creates :
    ∃ s', openfileHandler (oneTable true) 0 [slash, 97] 64 zeroLocals = .ok (s', some (-1))
      ∧ s'.fs ≠ (oneTable true).fs := by
  obtain ⟨x, fs, hmissing, hopen⟩ := dirFS_creates isName_a
  refine ⟨_, openfileHandler_full (by decide) (fun _ _ _ => rfl) hopen, ?_⟩
  rcases syscallOpen_effect hopen with ⟨-, hmin | ⟨hfound, -⟩, -⟩ | ⟨-, -, hne⟩
  · omega
  · exact absurd hfound hmissing
  · exact hne

end SeL4Sys

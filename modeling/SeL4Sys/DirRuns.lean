import SeL4Sys.Paths

/-!
# Creating and removing files

`syscall_open` with `O_CREAT` and `syscall_unlink` keep a file system well formed as long as a new
entry goes into a free slot of a directory, under a name that fits, and the inode allocator has
a free inode in reach. `runDir_linked` carries this to runs of any length. A directory that has to
grow is where it fails: the new block is not cleared (`ninth_file_not_linked`).
-/

namespace SeL4Sys

open Bytes Bitmap CString Loop

variable {s s' : FS} {o t x : ℕ} {c p : List UInt8}

/-! ## Creating -/

/-- A file was created at `x` and nothing else has changed but directories. -/
structure Created (s s' : FS) (x : ℕ) : Prop where
  ok : FsOk s'
  sectorNum : s'.superBlock.sectorNum = s.superBlock.sectorNum
  fresh : ¬ s.InUse x
  inUse : ∀ y, s'.InUse y ↔ s.InUse y ∨ y = x
  blockCount : (loadInode s'.disk x).blockCount = 0
  size : (loadInode s'.disk x).size = 0
  inode : ∀ y, s.InUse y → loadInode s'.disk y = loadInode s.disk y
  file : ∀ y, s.InUse y → ¬ IsDir s.disk y → ∀ p, p < (loadInode s.disk y).blocks * 1024 →
    fileByte s'.disk (loadInode s.disk y) p = fileByte s.disk (loadInode s.disk y) p

/-- The file at `x` was removed and nothing else has changed but directories. -/
structure Removed (s s' : FS) (x : ℕ) : Prop where
  ok : FsOk s'
  sectorNum : s'.superBlock.sectorNum = s.superBlock.sectorNum
  was : s.InUse x
  inUse : ∀ y, s'.InUse y ↔ s.InUse y ∧ y ≠ x
  inode : ∀ y, s.InUse y → y ≠ x → loadInode s'.disk y = loadInode s.disk y
  file : ∀ y, s.InUse y → y ≠ x → ¬ IsDir s.disk y → ∀ p, p < (loadInode s.disk y).blocks * 1024 →
    fileByte s'.disk (loadInode s.disk y) p = fileByte s.disk (loadInode s.disk y) p

/-- Slot `t` of the directory at `o` was cleared and the file at `x` that it named was released: its
inode, its blocks and nothing else. It was not a directory with entries. -/
structure Unlinked (s s' : FS) (o t x : ℕ) : Prop where
  live : Live s.disk (loadInode s.disk o) t
  target : slotInode s.disk (loadInode s.disk o) t = x
  leaf : ¬ ((loadInode s.disk x).type = directoryType ∧ ∃ u, Live s.disk (loadInode s.disk x) u)
  removed : Removed s s' x
  blocks : ∀ a, Used s.superBlock.sectorNum s'.disk a
    ↔ Used s.superBlock.sectorNum s.disk a ∧ ∀ n : Node, n.Live (loadInode s.disk x).blocks →
      a ≠ n.sector s.disk (loadInode s.disk x)
  cleared : slotInode s'.disk (loadInode s'.disk o) t = 0
  entries : ∀ u, u < slots (loadInode s.disk o) → u ≠ t → ∀ i, i < 128 →
    fileFrom s'.disk (loadInode s'.disk o) (128 * u) i = fileFrom s.disk (loadInode s.disk o) (128 * u) i
  contents : ∀ y, s.InUse y → y ≠ x → y ≠ o → ∀ p, p < (loadInode s.disk y).blocks * 1024 →
    fileByte s'.disk (loadInode s.disk y) p = fileByte s.disk (loadInode s.disk y) p

/-- The entries at which `allocInode` stops, as a test on slots. -/
theorem stopsAlloc_eq {d : Disk} {ino : Inode} (h : DirOk d ino) (hc : ∀ x ∈ c, x ≠ 0)
    (ht : t < slots ino) {b : Buf} (hb : Holds d ino (t / 8) b) :
    stopsAlloc c (dirEntry b (t % 8)) = (decide (slotInode d ino t = 0) || beginsWith d ino c t) := by
  have hmatch := matchesName_eq h hc (List.prefix_refl c) ht hb
  rw [matchesName, hb.entryInode_eq rfl] at hmatch
  rw [stopsAlloc, hb.entryInode_eq rfl, ← hmatch]
  by_cases hzero : slotInode d ino t = 0
  · simp [hzero]
  · have hne : (slotInode d ino t == 0) = false := beq_false_of_ne hzero
    simp only [bne, hne, decide_eq_false hzero, Bool.false_or, Bool.not_false, Bool.true_and]

theorem beginsWith_eq_false {d : Disk} {ino : Inode} (h : firstBegins d ino c = none)
    (ht : t < slots ino) : beginsWith d ino c t = false := by
  rw [firstBegins] at h
  split_ifs at h with hlt
  by_contra hne
  exact hlt (breakIndex_lt_of ht (by simpa using hne))

section
variable (h : FsOk s) (ho : s.InUse o) (hdir : IsDir s.disk o)
include h ho hdir

/-- `allocInode` in a directory with a free slot, for a name that no entry begins with, fills in a
free slot. -/
theorem allocInode_added (hc : IsName c) (hnone : firstBegins s.disk (loadInode s.disk o) c = none)
    (hfree : ∃ t, t < slots (loadInode s.disk o) ∧ slotInode s.disk (loadInode s.disk o) t = 0)
    (hh : Hits .inode s) {type : ℤ} (htype : type = regularType ∨ type = directoryType)
    (dest : Inode) (destOffset : ℕ) (buffer : Buf) (stack : ℕ → Buf) :
    ∃ t b x s' dest', allocInode s (loadInode s.disk o) o dest destOffset c type buffer stack
        = ⟨0, s', loadInode s.disk o, dest', x⟩
      ∧ t < slots (loadInode s.disk o) ∧ slotInode s.disk (loadInode s.disk o) t = 0
      ∧ Holds s.disk (loadInode s.disk o) (t / 8) b
      ∧ AddSpec s s' s.InUse (loadInode s.disk) o (t / 8) x type
          (setEntryInode (setEntryName b (t % 8) c) (t % 8) x) := by
  have hdirOk := h.dirOk ho hdir
  have hspec := scanDir_spec h.inodes.formatted hdirOk.count
    (fun t ht b hb => stopsAlloc_eq hdirOk hc.no_zero ht hb) buffer
  have havail : ¬ s.superBlock.availInodeNum = 0 := hh.avail
  rw [allocInode, if_neg hc.ne_nil, if_neg havail]
  cases hscan : scanDir s (loadInode s.disk o) (stopsAlloc c) buffer with
  | failed =>
    rw [hscan] at hspec
    cases hspec
  | missing b =>
    -- the free slot would have stopped the loop
    rw [hscan] at hspec
    obtain ⟨t, ht, hzero⟩ := hfree
    cases hspec with
    | missing _ hmiss _ _ =>
      have := hmiss t ht
      simp [hzero] at this
  | found i j b =>
    rw [hscan] at hspec
    cases hspec with
    | found t _ ht hgood _ hb =>
      have hzero : slotInode s.disk (loadInode s.disk o) t = 0 := by
        rw [beginsWith_eq_false hnone ht, Bool.or_false, decide_eq_true_eq] at hgood
        exact hgood
      have hk : t / 8 < (loadInode s.disk o).blocks := by
        unfold slots at ht
        omega
      have hfits : FitsInt 2 type := by
        rcases htype with rfl | rfl
        · norm_num [FitsInt, regularType]
        · norm_num [FitsInt, directoryType]
      obtain ⟨x, s', dest', hrun, hadd⟩ := addEntry_spec h.inodes hh h.owned (fun _ hy => hy) ho
        (loadInode_fits s.disk o) hk hfits dest destOffset c (t % 8) b
      refine ⟨t, b, x, s', dest', ?_, ht, hzero, hb, hadd⟩
      simp only [hb.entryInode_eq rfl, hzero, ne_eq, not_true_eq_false, if_false]
      exact hrun

/-- The file system is well formed after it, and all other files are as they were. -/
theorem allocInode_created (hc : IsName c) (hlen : c.length < 64)
    (hnone : firstBegins s.disk (loadInode s.disk o) c = none)
    (hfree : ∃ t, t < slots (loadInode s.disk o) ∧ slotInode s.disk (loadInode s.disk o) t = 0)
    (hh : Hits .inode s) {type : ℤ} (htype : type = regularType ∨ type = directoryType)
    (dest : Inode) (destOffset : ℕ) (buffer : Buf) (stack : ℕ → Buf) :
    ∃ x s' father dest', allocInode s (loadInode s.disk o) o dest destOffset c type buffer stack
      = ⟨0, s', father, dest', x⟩ ∧ Created s s' x := by
  obtain ⟨t, b, x, s', dest', hrun, ht, hzero, hb, hadd⟩ :=
    allocInode_added h ho hdir hc hnone hfree hh htype dest destOffset buffer stack
  refine ⟨x, s', _, dest', hrun, ?_⟩
  exact
    { ok := FsOk.link hadd h ho hdir ht hb hzero hc.no_zero hlen htype fun u hu hname => by
        have := beginsWith_eq_false hnone hu.1
        rw [beginsWith, decide_eq_false_iff_not, hname] at this
        exact this ⟨hu.2, List.prefix_refl c⟩
      sectorNum := hadd.sectorNum
      fresh := hadd.fresh
      inUse := fun _ => hadd.inUse_iff
      blockCount := hadd.blockCount
      size := hadd.size
      inode := fun _ hy => hadd.loadInode_eq hy
      file := fun y hy hfile p hp => by
        refine hadd.edit.other y hy p hp fun hyo => ?_
        rw [hyo] at hfile
        exact absurd hdir hfile }

/-! ## Removing -/

omit h ho hdir in
/-- A search for a name that an entry begins with ends at the first such entry. -/
theorem scanDir_found {ino : Inode} (hf : Formatted s) (hdirOk : DirOk s.disk ino)
    (hc : ∀ x ∈ c, x ≠ 0) (hfirst : firstBegins s.disk ino c = some x) (buffer : Buf) :
    ∃ t b, scanDir s ino (matchesName c c.length) buffer = .found (t / 8) (t % 8) b
      ∧ Live s.disk ino t ∧ slotInode s.disk ino t = x ∧ Holds s.disk ino (t / 8) b := by
  have hspec := scanDir_matchesName hf hdirOk hc (List.prefix_refl c) buffer
  cases hscan : scanDir s ino (matchesName c c.length) buffer with
  | failed =>
    rw [hscan] at hspec
    cases hspec
  | missing b =>
    rw [hscan] at hspec
    cases hspec with
    | missing _ hnone _ _ =>
      rw [firstBegins, breakIndex_eq_bound hnone, if_neg (lt_irrefl _)] at hfirst
      cases hfirst
  | found i j b =>
    rw [hscan] at hspec
    cases hspec with
    | found t _ ht hgood hmin hb =>
      rw [firstBegins, breakIndex_eq ht hgood hmin, if_pos ht] at hfirst
      rw [beginsWith, decide_eq_true_eq] at hgood
      exact ⟨t, b, rfl, ⟨ht, hgood.1⟩, Option.some.inj hfirst, hb⟩

/-- `freeInode` on the entry that begins with the name, when it is for a file or for an empty
directory. -/
theorem freeInode_unlinked (hc : IsName c)
    (hfirst : firstBegins s.disk (loadInode s.disk o) c = some x) {tmpName tmpBuffer : Buf}
    (hempty : (loadInode s.disk x).type = directoryType →
      getDirEntry s (loadInode s.disk x) 0 tmpName tmpBuffer = none)
    (dest : Inode) (destOffset : ℕ) (buffer : Buf) :
    ∃ t s' dest', freeInode s (loadInode s.disk o) dest destOffset c (loadInode s.disk x).type buffer
        tmpName tmpBuffer = ⟨0, s', loadInode s.disk o, dest', x⟩ ∧ Unlinked s s' o t x := by
  have hf := h.inodes.formatted
  have hdirOk := h.dirOk ho hdir
  obtain ⟨t, b, hscan, hlive, hx, hb⟩ := scanDir_found hf hdirOk hc.no_zero hfirst buffer
  have he := treeOf_entry_eq ⟨ho, hdir, hlive⟩
  rw [hx] at he
  have hxused : s.InUse x := h.tree.target_used o t _ x he
  have hleaf : IsDir s.disk x → ∀ u, ¬ Live s.disk (loadInode s.disk x) u := by
    intro hxdir
    rw [h.isDir_iff hxused] at hxdir
    exact (getDirEntry_zero_eq_none_iff hf (h.owned.blocks_le hxused) _ _).mp (hempty hxdir)
  -- the directory has an entry, so it is not what is removed
  have hox : o ≠ x := by
    rintro rfl
    exact hleaf hdir t hlive
  have hlink := h.links x hxused (h.tree.target_ne_root o t _ x he)
  have hk : t / 8 < (loadInode s.disk o).blocks := by
    have := hlive.1
    unfold slots at this
    omega
  obtain ⟨s₁, ino, s₂, s', hfree, hset, hwrite, hrem⟩ := release_spec (P := s.InUse) (v := 0)
    h.inodes h.owned hxused hxused ho hox hk (setEntryInode b (t % 8) 0)
  refine ⟨t, s', ino, ?_, ?_⟩
  · have hcond : ¬ ((loadInode s.disk x).type = directoryType
        ∧ getDirEntry s (loadInode s.disk x) 0 tmpName tmpBuffer ≠ none) :=
      fun hne => hne.2 (hempty hne.1)
    rw [freeInode, if_neg hc.ne_nil, hscan]
    simp only [hb.entryInode_eq rfl, hx, ne_eq, not_true_eq_false, if_false, hcond, hlink, sub_self,
      if_true, hfree, hset, Option.getD_some, hwrite]
  have hslot := hrem.edit.slotEdit hb fun j hj i hi => dirEntry_setEntryInode_of_ne hj hi
  have hload : loadInode s'.disk o = loadInode s.disk o := hrem.inode o ho hox
  exact
    { live := hlive
      target := hx
      leaf := fun hdir' => hleaf ((h.isDir_iff hxused).mpr hdir'.1) _ hdir'.2.choose_spec
      removed :=
        { ok := FsOk.unlink hrem ho hox hb hleaf h hdir hlive hx
          sectorNum := hrem.sectorNum
          was := hxused
          inUse := fun _ => hrem.inUse_iff
          inode := fun y hy hyx => hrem.inode y hy hyx
          file := fun y hy hyx hfile p hp => by
            refine hrem.edit.other y ⟨hy, hyx⟩ p hp fun hyo => ?_
            rw [hyo] at hfile
            exact absurd hdir hfile }
      blocks := hrem.blocks
      cleared := by
        rw [hload, hslot.slotInode_eq, entryInode_setEntryInode (by norm_num)]
      entries := fun u hu hut i hi => by
        rw [hload]
        exact hslot.other o ⟨ho, hox⟩ u hu (fun _ => hut) i hi
      contents := fun y hy hyx hyo p hp =>
        hrem.edit.other y ⟨hy, hyx⟩ p hp fun heq => absurd heq hyo }

end

/-! ## The system calls -/

/-- A call that would create a file can: the path is a path, its last name fits, and where its
directory exists there is a free slot and a free inode in reach. -/
def CanCreate (s : FS) (path : List UInt8) : Prop :=
  getFatherPath path ≠ none ∧ ∃ ds c, path = absPath ds ++ slash :: c ∧ (∀ x ∈ ds, IsName x)
    ∧ IsName c ∧ c.length < 64 ∧ ∀ o, walk s.disk s.rootOffset ds = some o →
      (∃ t, t < slots (loadInode s.disk o) ∧ slotInode s.disk (loadInode s.disk o) t = 0)
        ∧ NearHole .inode s

/-- The conditions on a call of `syscall_open`. -/
structure LegalOpen (s : FS) (path : List UInt8) (mode : ℤ) : Prop where
  passes : PassesNoFile s.disk s.rootOffset path
  create : createMode mode = true → (∀ o, ¬ Leads s.disk s.rootOffset path o) →
    ¬ (isDirPath path = some true ∧ isDirMode mode = false) → CanCreate s path

/-- The conditions on a call of `syscall_unlink`. -/
structure LegalUnlink (s : FS) (path : List UInt8) : Prop where
  passes : PassesNoFile s.disk s.rootOffset path
  father : ∀ o, Leads s.disk s.rootOffset path o → getFatherPath path ≠ none

/-- How a call of `syscall_open` ends: at an inode that was there, with `-1`, or at a new file. -/
inductive OpenEnd (s : FS) (path : List UInt8) : ℤ → FS → Prop
  | found (o : ℕ) (h : Leads s.disk s.rootOffset path o) (hused : s.InUse o) : OpenEnd s path o s
  | failed : OpenEnd s path (-1) s
  | created (x : ℕ) (s' : FS) (h : Created s s' x) : OpenEnd s path x s'

/-- A call that finds nothing and may create a file looks up the directory and goes on with
`allocInode` there. -/
theorem syscallOpen_create (h : FsOk s) (ds : List (List UInt8)) (hds : ∀ x ∈ ds, IsName x)
    (hc : IsName c) (hp : ∀ x ∈ absPath ds ++ slash :: c, x ≠ 0)
    (hpass : PassesNoFile s.disk s.rootOffset (absPath ds ++ slash :: c))
    (hnone : ∀ o, ¬ Leads s.disk s.rootOffset (absPath ds ++ slash :: c) o)
    (hfather : getFatherPath (absPath ds ++ slash :: c) ≠ none) (mode : ℤ)
    (hmode : createMode mode = true)
    (hdirMode : ¬ (isDirPath (absPath ds ++ slash :: c) = some true ∧ isDirMode mode = false))
    (l : Locals) :
    ∃ dest : Lookup, syscallOpen s (absPath ds ++ slash :: c) mode l
      = (walk s.disk s.rootOffset ds).elim (some (-1, s)) fun o =>
          let r := allocInode s (loadInode s.disk o) o dest.destInode dest.inodeOffset c
            (if isDirMode mode = true then directoryType else regularType) l.dirBuffer l.stack
          if r.ret = 0 then some ((r.destInodeOffset : ℤ), r.fs) else none := by
  have hfinds := readInode_finds h hp hpass l.destInode l.lookupBuffer
  have hfpre := fatherOf_isPrefix ds c
  have hfinds' := readInode_finds h (fun x hx => hp x (hfpre.subset hx))
    (hpass.initial hfpre) l.fatherInode l.fatherBuffer
  rw [syscallOpen]
  generalize readInode s l.destInode (absPath ds ++ slash :: c) l.lookupBuffer = dest at hfinds ⊢
  have hret : ¬ dest.ret = 0 := fun hret => hnone _ ((hfinds.leads _).mp ⟨hret, rfl⟩)
  have hne : absPath ds ++ slash :: c ≠ [] := by simp
  rw [isDirPath, if_neg hne, Option.some.injEq] at hdirMode
  refine ⟨dest, ?_⟩
  simp only [hret, if_false]
  rw [if_neg (by simp [hmode]), isDirPath, if_neg hne, Option.bind_some, if_neg hdirMode,
    getFatherPath_absPath hc hfather, Option.bind_some]
  generalize readInode s l.fatherInode (fatherOf ds) l.fatherBuffer = father at hfinds' ⊢
  cases hwalk : walk s.disk s.rootOffset ds with
  | none =>
    have hret' : ¬ father.ret = 0 := by
      intro hret'
      have := (leads_fatherOf_iff hds).mp ((hfinds'.leads _).mp ⟨hret', rfl⟩)
      rw [hwalk] at this
      cases this
    rw [if_pos hret', Option.elim_none]
  | some o =>
    obtain ⟨hret', hoff⟩ := (hfinds'.leads o).mpr ((leads_fatherOf_iff hds).mpr hwalk)
    simp only [ne_eq, hret', not_true_eq_false, if_false, lastName_append hc.no_slash,
      hfinds'.destInode hret', hoff, Option.elim_some]

theorem isName_snoc {ds : List (List UInt8)} (hds : ∀ x ∈ ds, IsName x) (hc : IsName c) :
    ∀ x ∈ ds ++ [c], IsName x := by
  intro x hx
  rcases List.mem_append.mp hx with hx | hx
  · exact hds x hx
  · rwa [List.mem_singleton.mp hx]

theorem absPath_snoc (ds : List (List UInt8)) (c : List UInt8) :
    absPath (ds ++ [c]) = absPath ds ++ slash :: c := by
  rw [absPath_append, absPath_cons, absPath_nil, List.append_nil]

/-- A path with a last name leads where that name leads from the directory. -/
theorem leads_snoc {d : Disk} {ds : List (List UInt8)} {o₁ : ℕ} (hds : ∀ x ∈ ds, IsName x)
    (hc : IsName c) (hwalk : walk d o ds = some o₁)
    (hfirst : firstBegins d (loadInode d o₁) c = some x) : Leads d o (absPath ds ++ slash :: c) x := by
  rw [← absPath_snoc, leads_absPath_iff (isName_snoc hds hc) (by simp), walk_append, hwalk, Option.bind_some, walk, hfirst]
  rfl

/-- What names lead to from the root without passing a file is in use. -/
theorem FsOk.inUse_walk {ds : List (List UInt8)} {r : List UInt8} (h : FsOk s)
    (hds : ∀ x ∈ ds, IsName x) (hp : ∀ x ∈ absPath ds ++ slash :: r, x ≠ 0)
    (hpass : PassesNoFile s.disk s.rootOffset (absPath ds ++ slash :: r))
    (hwalk : walk s.disk s.rootOffset ds = some o) : s.InUse o := by
  have hfpre := fatherOf_isPrefix ds r
  have hfinds := readInode_finds h (fun x hx => hp x (hfpre.subset hx)) (hpass.initial hfpre)
    Files.emptyFile fun _ => 0
  obtain ⟨hret, hoff⟩ := (hfinds.leads o).mpr ((leads_fatherOf_iff hds).mpr hwalk)
  rw [← hoff]
  exact hfinds.inUse hret

/-- A path that leads somewhere is opened there, and nothing changes. -/
theorem syscallOpen_found (h : FsOk s) (hp : ∀ x ∈ p, x ≠ 0)
    (hpass : PassesNoFile s.disk s.rootOffset p) (ho : Leads s.disk s.rootOffset p o) (mode : ℤ)
    (l : Locals) : syscallOpen s p mode l = some ((o : ℤ), s) ∧ s.InUse o := by
  have hfinds := readInode_finds h hp hpass l.destInode l.lookupBuffer
  obtain ⟨hret, hoff⟩ := (hfinds.leads o).mpr ho
  refine ⟨?_, hoff ▸ hfinds.inUse hret⟩
  rw [syscallOpen]
  simp only [hret, if_true, hoff]

/-- The type of a new file. -/
theorem fileType_cases (mode : ℤ) :
    (if isDirMode mode = true then directoryType else regularType) = regularType
      ∨ (if isDirMode mode = true then directoryType else regularType) = directoryType := by
  split_ifs
  · exact Or.inr rfl
  · exact Or.inl rfl

theorem syscallOpen_end (h : FsOk s) (hp : ∀ x ∈ p, x ≠ 0) {mode : ℤ} (hlegal : LegalOpen s p mode)
    (l : Locals) : ∃ r s', syscallOpen s p mode l = some (r, s') ∧ OpenEnd s p r s' := by
  by_cases hfound : ∃ o, Leads s.disk s.rootOffset p o
  · obtain ⟨o, ho⟩ := hfound
    obtain ⟨hopen, hused⟩ := syscallOpen_found h hp hlegal.passes ho mode l
    exact ⟨o, s, hopen, .found o ho hused⟩
  have hnone : ∀ o, ¬ Leads s.disk s.rootOffset p o := fun o ho => hfound ⟨o, ho⟩
  have hret : ¬ (readInode s l.destInode p l.lookupBuffer).ret = 0 := fun hret =>
    hnone _ (((readInode_finds h hp hlegal.passes l.destInode l.lookupBuffer).leads _).mp ⟨hret, rfl⟩)
  -- without the flag, and for a directory path with a file mode, the call returns -1
  by_cases hmode : createMode mode = true
  swap
  · refine ⟨-1, s, ?_, .failed⟩
    rw [syscallOpen]
    simp only [hret, if_false]
    rw [if_pos (by simpa using hmode)]
  by_cases hdirMode : isDirPath p = some true ∧ isDirMode mode = false
  · refine ⟨-1, s, ?_, .failed⟩
    rw [syscallOpen]
    simp only [hret, if_false]
    rw [if_neg (by simp [hmode]), hdirMode.1, Option.bind_some, if_pos ⟨rfl, hdirMode.2⟩]
  obtain ⟨hfather, ds, c, rfl, hds, hc, hlen, hroom⟩ := hlegal.create hmode hnone hdirMode
  obtain ⟨dest, hopen⟩ := syscallOpen_create h ds hds hc hp hlegal.passes hnone hfather mode
    hmode hdirMode l
  rw [hopen]
  cases hwalk : walk s.disk s.rootOffset ds with
  | none => exact ⟨_, _, rfl, .failed⟩
  | some o =>
    have hdir : IsDir s.disk o := hlegal.passes ds c _ hds rfl hwalk
    -- an entry that begins with the name would have been found by the first lookup
    have hfirst : firstBegins s.disk (loadInode s.disk o) c = none := by
      rw [Option.eq_none_iff_forall_ne_some]
      intro x hx
      exact hnone x (leads_snoc hds hc hwalk hx)
    obtain ⟨hfree, hnear⟩ := hroom _ hwalk
    obtain ⟨x, s', fa, de, hrun, hcreated⟩ := allocInode_created h
      (h.inUse_walk hds hp hlegal.passes hwalk) hdir hc hlen hfirst hfree
      (h.inodes.hits_of_nearHole hnear) (fileType_cases mode) dest.destInode dest.inodeOffset l.dirBuffer
      l.stack
    simp only [Option.elim_some, hrun]
    exact ⟨_, _, rfl, .created x s' hcreated⟩

/-- How a call of `syscall_unlink` ends: with `-1`, or with the file gone. -/
inductive UnlinkEnd (s : FS) (path : List UInt8) : ℤ → FS → Prop
  | failed : UnlinkEnd s path (-1) s
  | removed (x : ℕ) (s' : FS) (hleads : Leads s.disk s.rootOffset path x) (h : Removed s s' x) :
      UnlinkEnd s path 0 s'

/-- An inode that `syscall_unlink` does not remove. -/
def NonEmptyDir (d : Disk) (x : ℕ) : Prop :=
  (loadInode d x).type = directoryType ∧ ∃ u, Live d (loadInode d x) u

/-- How a call of `syscall_unlink` ends for a path with a last name: the names lead nowhere, or to a
directory with entries, the path of the directory does not fit its array, or the entry goes. -/
inductive UnlinkCase (s : FS) (ds : List (List UInt8)) (c : List UInt8) : Option (ℤ × FS) → Prop
  | nowhere (h : walk s.disk s.rootOffset (ds ++ [c]) = none) : UnlinkCase s ds c (some (-1, s))
  | nonempty (x : ℕ) (h : walk s.disk s.rootOffset (ds ++ [c]) = some x)
      (hx : NonEmptyDir s.disk x) : UnlinkCase s ds c (some (-1, s))
  | long (x : ℕ) (h : walk s.disk s.rootOffset (ds ++ [c]) = some x) (hx : ¬ NonEmptyDir s.disk x)
      (hlong : getFatherPath (absPath ds ++ slash :: c) = none) : UnlinkCase s ds c none
  | removed (o t x : ℕ) (s' : FS) (h : walk s.disk s.rootOffset (ds ++ [c]) = some x)
      (hx : ¬ NonEmptyDir s.disk x) (hfather : getFatherPath (absPath ds ++ slash :: c) ≠ none)
      (ho : walk s.disk s.rootOffset ds = some o) (hdir : s.InUse o ∧ IsDir s.disk o)
      (hunlinked : Unlinked s s' o t x) : UnlinkCase s ds c (some (0, s'))

theorem syscallUnlink_case (h : FsOk s) {ds : List (List UInt8)} (hds : ∀ x ∈ ds, IsName x)
    (hc : IsName c) (hp : ∀ x ∈ absPath ds ++ slash :: c, x ≠ 0)
    (hpass : PassesNoFile s.disk s.rootOffset (absPath ds ++ slash :: c)) (l : Locals) :
    UnlinkCase s ds c (syscallUnlink s (absPath ds ++ slash :: c) l) := by
  have hf := h.inodes.formatted
  have hleads : ∀ x, Leads s.disk s.rootOffset (absPath ds ++ slash :: c) x
      ↔ walk s.disk s.rootOffset (ds ++ [c]) = some x := by
    intro x
    rw [← absPath_snoc]
    exact leads_absPath_iff (isName_snoc hds hc) (by simp)
  have hfinds := readInode_finds h hp hpass l.destInode l.lookupBuffer
  rw [syscallUnlink]
  generalize readInode s l.destInode (absPath ds ++ slash :: c) l.lookupBuffer = dest at hfinds ⊢
  by_cases hret : dest.ret = 0
  swap
  · simp only [ne_eq, hret, not_false_eq_true, if_true]
    refine .nowhere (Option.eq_none_iff_forall_ne_some.mpr fun x hx => hret ?_)
    exact ((hfinds.leads x).mpr ((hleads x).mpr hx)).1
  have hwalk := (hleads _).mp ((hfinds.leads _).mp ⟨hret, rfl⟩)
  simp only [ne_eq, hret, not_true_eq_false, if_false, hfinds.destInode hret]
  have hblocks := h.owned.blocks_le (hfinds.inUse hret)
  have hempty := getDirEntry_zero_eq_none_iff hf hblocks l.tmpName l.tmpBuffer
  have hcond : (loadInode s.disk dest.inodeOffset).type = directoryType
      ∧ isEmptyDir s (loadInode s.disk dest.inodeOffset) l = false
      ↔ NonEmptyDir s.disk dest.inodeOffset := by
    rw [NonEmptyDir, isEmptyDir, Bool.eq_false_iff, ne_eq, Option.isNone_iff_eq_none, hempty,
      not_forall_not]
  by_cases hdirs : NonEmptyDir s.disk dest.inodeOffset
  · rw [if_pos (hcond.mpr hdirs)]
    exact .nonempty _ hwalk hdirs
  rw [if_neg fun hne => hdirs (hcond.mp hne)]
  by_cases hlong : getFatherPath (absPath ds ++ slash :: c) = none
  · rw [hlong]
    exact .long _ hwalk hdirs hlong
  rw [getFatherPath_absPath hc hlong, Option.bind_some]
  have hfpre := fatherOf_isPrefix ds c
  have hfinds' := readInode_finds h (fun x hx => hp x (hfpre.subset hx)) (hpass.initial hfpre)
    l.fatherInode l.fatherBuffer
  generalize readInode s l.fatherInode (fatherOf ds) l.fatherBuffer = father at hfinds' ⊢
  -- the directory is found as well, since the names lead through it
  obtain ⟨o, ho, hfirst⟩ : ∃ o, walk s.disk s.rootOffset ds = some o
      ∧ firstBegins s.disk (loadInode s.disk o) c = some dest.inodeOffset := by
    rw [walk_append] at hwalk
    obtain ⟨o, ho, hrest⟩ := Option.bind_eq_some_iff.mp hwalk
    exact ⟨o, ho, by simpa only [walk, Option.bind_fun_some] using hrest⟩
  obtain ⟨hret', hoff⟩ := (hfinds'.leads o).mpr ((leads_fatherOf_iff hds).mpr ho)
  have hdir : IsDir s.disk o := hpass ds c _ hds rfl ho
  have hused : s.InUse o := hoff ▸ hfinds'.inUse hret'
  simp only [hret', not_true_eq_false, if_false, lastName_append hc.no_slash,
    hfinds'.destInode hret', hoff]
  have hnone : (loadInode s.disk dest.inodeOffset).type = directoryType →
      getDirEntry s (loadInode s.disk dest.inodeOffset) 0 l.tmpName l.tmpBuffer = none := by
    intro htype
    rw [hempty]
    intro u hu
    exact hdirs ⟨htype, u, hu⟩
  obtain ⟨t, s', de, hrun, hunlinked⟩ := freeInode_unlinked h hused hdir hc hfirst hnone
    (loadInode s.disk dest.inodeOffset) dest.inodeOffset l.dirBuffer
  rw [hrun]
  exact .removed o t _ s' hwalk hdirs hlong ho ⟨hused, hdir⟩ hunlinked

theorem syscallUnlink_end (h : FsOk s) (hp : ∀ x ∈ p, x ≠ 0) (hlegal : LegalUnlink s p)
    (l : Locals) : ∃ r s', syscallUnlink s p l = some (r, s') ∧ UnlinkEnd s p r s' := by
  have hfinds := readInode_finds h hp hlegal.passes l.destInode l.lookupBuffer
  by_cases hret : (readInode s l.destInode p l.lookupBuffer).ret = 0
  swap
  · rw [syscallUnlink]
    simp only [ne_eq, hret, not_false_eq_true, if_true]
    exact ⟨_, _, rfl, .failed⟩
  have hleads := (hfinds.leads _).mp ⟨hret, rfl⟩
  have hfather := hlegal.father _ hleads
  obtain ⟨cs, hspells, hwalk⟩ := hleads
  rcases hspells.cases_last with ⟨q, rfl⟩ | ⟨ds, c, rfl, rfl, hds, hc⟩
  · -- after a separator at the end there is no name left
    have hname : lastName (q ++ [slash]) = [] := lastName_append (by simp)
    obtain ⟨f, hf⟩ := Option.ne_none_iff_exists'.mp hfather
    have hfree : ∀ fa de off ty b n b', freeInode s fa de off [] ty b n b' = ⟨-1, s, fa, de, off⟩ :=
      fun _ _ _ _ _ _ _ => if_pos rfl
    rw [syscallUnlink]
    simp only [ne_eq, hret, not_true_eq_false, if_false, hf, Option.bind_some, hname, hfree]
    split_ifs
    · exact ⟨_, _, rfl, .failed⟩
    · exact ⟨_, _, rfl, .failed⟩
    · exact ⟨_, _, rfl, .failed⟩
  have hcase := syscallUnlink_case h hds hc hp hlegal.passes l
  generalize syscallUnlink s (absPath ds ++ slash :: c) l = r at hcase
  cases hcase with
  | nowhere => exact ⟨_, _, rfl, .failed⟩
  | nonempty x => exact ⟨_, _, rfl, .failed⟩
  | long x _ _ hlong => exact absurd hlong hfather
  | removed o t x s' hx _ _ _ _ hunlinked =>
    exact ⟨_, _, rfl, .removed x s' ⟨_, hspells, hx⟩ hunlinked.removed⟩

/-! ## Runs -/

/-- A path argument: a C string. -/
structure PathArg where
  chars : List UInt8
  no_zero : ∀ x ∈ chars, x ≠ 0

/-- A call that changes directories, with the contents of the variables it does not initialise. -/
inductive DirCall
  | open (path : PathArg) (mode : ℤ) (l : Locals)
  | unlink (path : PathArg) (l : Locals)

/-- The file system after a call. `none` is a failed assertion, or an access outside an array. -/
def execDir (s : FS) : DirCall → Option FS
  | .open path mode l => (syscallOpen s path.chars mode l).map Prod.snd
  | .unlink path l => (syscallUnlink s path.chars l).map Prod.snd

/-- The file system after a sequence of calls. -/
def runDir (s : FS) : List DirCall → Option FS
  | [] => some s
  | call :: calls => (execDir s call).bind fun s' => runDir s' calls

/-- The conditions on a call. -/
def LegalDir (s : FS) : DirCall → Prop
  | .open path mode _ => LegalOpen s path.chars mode
  | .unlink path _ => LegalUnlink s path.chars

/-- Every call of the sequence meets its conditions in the state it is made in. -/
def LegalRun (s : FS) : List DirCall → Prop
  | [] => True
  | call :: calls => LegalDir s call ∧ ∀ s', execDir s call = some s' → LegalRun s' calls

theorem FsOk.exec (h : FsOk s) {call : DirCall} (hlegal : LegalDir s call) :
    ∃ s', execDir s call = some s' ∧ FsOk s' := by
  cases call with
  | «open» path mode l =>
    obtain ⟨r, s', hrun, hend⟩ := syscallOpen_end h path.no_zero hlegal l
    refine ⟨s', by rw [execDir, hrun]; rfl, ?_⟩
    cases hend with
    | found => exact h
    | failed => exact h
    | created x _ hcreated => exact hcreated.ok
  | unlink path l =>
    obtain ⟨r, s', hrun, hend⟩ := syscallUnlink_end h path.no_zero hlegal l
    refine ⟨s', by rw [execDir, hrun]; rfl, ?_⟩
    cases hend with
    | failed => exact h
    | removed x _ _ hremoved => exact hremoved.ok

/-- **Directories and inodes.** From a well-formed file system, a run of calls that meet their
conditions goes through, and in every state it reaches the entries of the directories and the
inodes in use correspond. -/
theorem runDir_linked (h : FsOk s) {calls : List DirCall} (hlegal : LegalRun s calls) :
    ∀ pre, pre <+: calls → ∃ s', runDir s pre = some s' ∧ Linked s' := by
  induction calls generalizing s with
  | nil =>
    intro pre hpre
    rw [List.prefix_nil.mp hpre]
    exact ⟨s, rfl, h.linked⟩
  | cons call calls ih =>
    intro pre hpre
    cases pre with
    | nil => exact ⟨s, rfl, h.linked⟩
    | cons call' pre =>
      obtain ⟨rfl, htail⟩ := List.cons_prefix_cons.mp hpre
      obtain ⟨s₁, hexec, hok⟩ := h.exec hlegal.1
      obtain ⟨s', hrun, hlinked⟩ := ih hok (hlegal.2 s₁ hexec) pre htail
      refine ⟨s', ?_, hlinked⟩
      rw [runDir, hexec, Option.bind_some, hrun]

/-! ## A root directory with some files on the small disk -/

/-- A bitmap in which the first `n` bits are set. -/
def setBelow (n : ℕ) : Buf := fun j =>
  if 8 * j + 8 ≤ n then 0xff else if n ≤ 8 * j then 0 else UInt8.ofNat (256 - 2 ^ (8 * j + 8 - n))

/-- A block of a directory in which the first `k` entries are for files named `a`, `b`, and so
on. -/
def dirBlock (k : ℕ) : Buf := fun i =>
  if i / 128 < k then
    if i % 128 < 4 then leByte (4224 + 128 * (i / 128)) (i % 128)
    else if i % 128 = 4 then UInt8.ofNat (97 + i / 128) else 0
  else 0

/-- The disk with a root directory of one block and `k` empty files in it. -/
def dirDisk (k : ℕ) : Disk := fun p =>
  if p < 2048 then 0
  else if p < 3072 then setBelow (k + 1) (p - 2048)
  else if p < 4096 then setBelow 1 (p - 3072)
  else if p < 4224 then oneBlockDir.encode (p - 4096)
  else if p < 4224 + 128 * k then Files.emptyFile.encode ((p - 4224) % 128)
  else if p < 1052672 then 0
  else if p < 1053696 then dirBlock k (p - 1052672) else 0

/-- The root directory with `k` empty files. -/
def dirFS (k : ℕ) : FS := smallFS (dirDisk k) (8191 - k) 24

section dirFS
variable {k : ℕ}

theorem setBelow_bit {n i : ℕ} (hn : n ≤ 9) : bit (setBelow n) i = decide (i < n) := by
  rcases Nat.lt_or_ge i 16 with hi | hi
  · have hsmall : ∀ n, n < 10 → ∀ i, i < 16 → bit (setBelow n) i = decide (i < n) := by decide
    exact hsmall n (by omega) i hi
  · rw [bit, setBelow, if_neg (by omega), if_pos (by omega), decide_eq_false (by omega)]
    simp

theorem dirDisk_inodeBitmap (k : ℕ) {j : ℕ} (hj : j < 1024) :
    window (dirDisk k) 2048 j = setBelow (k + 1) j := by
  rw [window_apply, dirDisk, if_neg (by omega), if_pos (by omega), Nat.add_sub_cancel_left]

theorem dirDisk_blockBitmap (k : ℕ) {j : ℕ} (hj : j < 1024) :
    window (dirDisk k) 3072 j = setBelow 1 j := by
  rw [window_apply, dirDisk, if_neg (by omega), if_neg (by omega), if_pos (by omega),
    Nat.add_sub_cancel_left]

theorem dirDisk_root (k : ℕ) : loadInode (dirDisk k) 4096 = oneBlockDir := by
  rw [loadInode_eq, ← Inode.decode_encode oneBlockDir_fits]
  apply Inode.decode_congr
  intro p hp
  rw [window_apply, dirDisk, if_neg (by omega), if_neg (by omega), if_neg (by omega),
    if_pos (by omega), Nat.add_sub_cancel_left]

theorem dirDisk_file {t : ℕ} (ht : t < k) :
    loadInode (dirDisk k) (4224 + 128 * t) = Files.emptyFile := by
  rw [loadInode_eq, ← Inode.decode_encode Files.emptyFile_fits]
  apply Inode.decode_congr
  intro p hp
  rw [window_apply, dirDisk, if_neg (by omega), if_neg (by omega), if_neg (by omega),
    if_neg (by omega), if_pos (by omega),
    show (4224 + 128 * t + p - 4224) % 128 = p by omega]

theorem dirDisk_slotInode (hk : k ≤ 8) {t : ℕ} (ht : t < 8) :
    slotInode (dirDisk k) oneBlockDir t = if t < k then 4224 + 128 * t else 0 := by
  have hslots : ∀ k, k ≤ 8 → ∀ t, t < 8 →
      slotInode (dirDisk k) oneBlockDir t = if t < k then 4224 + 128 * t else 0 := by decide +kernel
  exact hslots k hk t ht

theorem dirDisk_slotName (hk : k ≤ 8) {t : ℕ} (ht : t < k) :
    slotName (dirDisk k) oneBlockDir t = [UInt8.ofNat (97 + t)] := by
  have hnames : ∀ k, k ≤ 8 → ∀ t, t < k →
      slotName (dirDisk k) oneBlockDir t = [UInt8.ofNat (97 + t)] := by decide +kernel
  exact hnames k hk t ht

theorem dirDisk_live (hk : k ≤ 8) {t : ℕ} : Live (dirDisk k) oneBlockDir t ↔ t < k := by
  have hslots : slots oneBlockDir = 8 := rfl
  rw [Live, hslots]
  constructor
  · rintro ⟨ht, hlive⟩
    rw [dirDisk_slotInode hk ht] at hlive
    by_contra hge
    exact hlive (if_neg hge)
  · intro ht
    refine ⟨by omega, ?_⟩
    rw [dirDisk_slotInode hk (by omega), if_pos ht]
    omega

theorem slotOffset_small (n : ℕ) : slotOffset 2106 0 n = 4096 + 128 * n := by
  rw [slotOffset, tableSector, descBlocks_small, base_zero]

/-- The inodes in use are the first ones. -/
theorem dirFS_inUse (hk : k ≤ 8) {o : ℕ} : (dirFS k).InUse o ↔ ∃ n, n ≤ k ∧ o = 4096 + 128 * n := by
  have hoff : (Pool.region .inode 0).off 2106 = 2048 := by
    rw [Pool.region, Region.off_inodeBitmap, inodeBitmapSector, descBlocks_small, base_zero]
  have hbit : ∀ n, n < 8192 → poolBit .inode 2106 (dirDisk k) 0 n = decide (n < k + 1) := by
    intro n hn
    rw [poolBit, hoff, bit_congr (dirDisk_inodeBitmap k (by omega)), setBelow_bit (by omega)]
  rw [FS.InUse, dirFS, smallFS_sectorNum, smallFS_disk]
  constructor
  · rintro ⟨i, n, hi, hn, rfl, hset⟩
    rw [groups_small] at hi
    obtain rfl : i = 0 := by omega
    rw [inodesOf_small] at hn
    rw [hbit n hn, decide_eq_true_eq] at hset
    exact ⟨n, by omega, slotOffset_small n⟩
  · rintro ⟨n, hn, rfl⟩
    rw [← slotOffset_small]
    refine ⟨0, n, by rw [groups_small]; norm_num, by rw [inodesOf_small]; omega, rfl, ?_⟩
    rw [hbit n (by omega), decide_eq_true_eq]
    omega

theorem dirFS_consistent (hk : k ≤ 8) : Consistent .inode (dirFS k) := by
  apply smallFS_inode_consistent
  have hcount : clearCount (window (dirDisk k) 2048) 8192 + (k + 1) = 8192 := by
    apply clearCount_of_set_below
    · intro i hi
      rw [bit_congr (dirDisk_inodeBitmap k (by omega)), setBelow_bit (by omega)]
    · omega
  omega

/-- Only the first inode is that of a directory. -/
theorem dirFS_isDir (hk : k ≤ 8) {o : ℕ} (ho : (dirFS k).InUse o) :
    IsDir (dirDisk k) o ↔ o = 4096 := by
  obtain ⟨n, hn, rfl⟩ := (dirFS_inUse hk).mp ho
  cases n with
  | zero => simp [IsDir, dirDisk_root, oneBlockDir, regularType]
  | succ n =>
    rw [show 4096 + 128 * (n + 1) = 4224 + 128 * n by omega, IsDir, dirDisk_file (by omega)]
    exact iff_of_false (fun hne => hne rfl) (by omega)

/-- Only the root directory has a block. -/
theorem dirFS_live {o : ℕ} (hk : k ≤ 8) (ho : (dirFS k).InUse o) {n : Node}
    (hn : n.Live (loadInode (dirDisk k) o).blocks) : o = 4096 ∧ n = dataNode 0 := by
  obtain ⟨m, hm, rfl⟩ := (dirFS_inUse hk).mp ho
  cases m with
  | zero =>
    refine ⟨rfl, ?_⟩
    have hfirst := hn.first_lt
    rw [dirDisk_root, show oneBlockDir.blocks = 1 from rfl] at hfirst
    obtain ⟨j, hj, heq⟩ := hn.valid.eq_drop (show n.first = 0 by omega)
    rw [show newLevels 0 = 0 from rfl] at hj
    rw [heq, show j = 0 by omega]
    rfl
  | succ m =>
    have hfirst := hn.first_lt
    rw [show 4096 + 128 * (m + 1) = 4224 + 128 * m by omega, dirDisk_file (by omega)] at hfirst
    exact absurd hfirst (Nat.not_lt_zero _)

theorem dirFS_owned (hk : k ≤ 8) : Owned (dirFS k) (dirFS k).InUse (loadInode (dirFS k).disk) where
  count := fun o ho => by
    obtain ⟨n, hn, rfl⟩ := (dirFS_inUse hk).mp ho
    rw [dirFS, smallFS_disk]
    cases n with
    | zero =>
      rw [dirDisk_root]
      exact ⟨by decide, by decide⟩
    | succ n =>
      rw [show 4096 + 128 * (n + 1) = 4224 + 128 * n by omega, dirDisk_file (by omega)]
      exact ⟨le_rfl, Int.natCast_nonneg _⟩
  used := fun o ho n hn => by
    rw [dirFS, smallFS_disk] at hn ⊢
    obtain ⟨rfl, rfl⟩ := dirFS_live hk ho hn
    have hsector : (dataNode 0).sector (dirDisk k) (loadInode (dirDisk k) 4096)
        = dataSector 2106 0 0 := by
      rw [dirDisk_root, dataNode_direct (by norm_num), dataSector, tableSector, descBlocks_small,
        base_zero]
      rfl
    have hoff : (Pool.region .block 0).off 2106 = 3072 := by
      rw [Pool.region, Region.off_blockBitmap, blockBitmapSector, descBlocks_small, base_zero]
    rw [hsector, smallFS_sectorNum]
    refine ⟨0, 0, by rw [groups_small]; norm_num, by rw [blocksOf_small]; norm_num, rfl, ?_⟩
    rw [poolBit, hoff, bit_congr (dirDisk_blockBitmap k (by norm_num)), setBelow_bit (by norm_num)]
    decide
  inj := fun o o' ho ho' n m hn hm _ => by
    rw [dirFS, smallFS_disk] at hn hm
    obtain ⟨rfl, rfl⟩ := dirFS_live hk ho hn
    obtain ⟨rfl, rfl⟩ := dirFS_live hk ho' hm
    exact ⟨rfl, rfl⟩

theorem dirFS_entry (hk : k ≤ 8) {o t x : ℕ} {c : List UInt8} :
    (treeOf (dirFS k)).entry o t = some (c, x)
      ↔ o = 4096 ∧ t < k ∧ c = [UInt8.ofNat (97 + t)] ∧ x = 4224 + 128 * t := by
  rw [treeOf_entry_eq_some, dirFS, smallFS_disk, ← dirFS]
  constructor
  · rintro ⟨⟨ho, hdir, hlive⟩, hname, hinode⟩
    obtain rfl := (dirFS_isDir hk ho).mp hdir
    rw [dirDisk_root] at hlive hname hinode
    have ht := (dirDisk_live hk).mp hlive
    rw [dirDisk_slotName hk ht] at hname
    rw [dirDisk_slotInode hk (by omega), if_pos ht] at hinode
    exact ⟨rfl, ht, hname.symm, hinode.symm⟩
  · rintro ⟨rfl, ht, rfl, rfl⟩
    have ho : (dirFS k).InUse 4096 := (dirFS_inUse hk).mpr ⟨0, Nat.zero_le k, rfl⟩
    rw [dirDisk_root, dirDisk_slotName hk ht, dirDisk_slotInode hk (by omega), if_pos ht]
    exact ⟨⟨ho, (dirFS_isDir hk ho).mpr rfl, (dirDisk_live hk).mpr ht⟩, rfl, rfl⟩

theorem dirFS_tree (hk : k ≤ 8) : (treeOf (dirFS k)).WellFormed 4096 where
  root_used := (dirFS_inUse hk).mpr ⟨0, Nat.zero_le k, rfl⟩
  holder_used := by
    rintro o t ⟨c, x⟩ he
    rw [((dirFS_entry hk).mp he).1]
    exact (dirFS_inUse hk).mpr ⟨0, Nat.zero_le k, rfl⟩
  target_used := by
    intro o t c x he
    obtain ⟨_, ht, _, rfl⟩ := (dirFS_entry hk).mp he
    exact (dirFS_inUse hk).mpr ⟨t + 1, by omega, by omega⟩
  target_ne_root := by
    intro o t c x he
    obtain ⟨_, _, _, rfl⟩ := (dirFS_entry hk).mp he
    omega
  once := by
    intro o o' t t' c c' x he he'
    obtain ⟨rfl, _, _, rfl⟩ := (dirFS_entry hk).mp he
    obtain ⟨rfl, _, _, heq⟩ := (dirFS_entry hk).mp he'
    exact ⟨rfl, by omega⟩
  distinct := by
    intro o t t' c x x' he he'
    obtain ⟨_, ht, rfl, _⟩ := (dirFS_entry hk).mp he
    obtain ⟨_, ht', heq, _⟩ := (dirFS_entry hk).mp he'
    have hinj : ∀ t, t < 8 → ∀ t', t' < 8 →
        [UInt8.ofNat (97 + t)] = [UInt8.ofNat (97 + t')] → t = t' := by decide
    exact hinj t (by omega) t' (by omega) heq
  reached := by
    intro o ho
    obtain ⟨n, hn, rfl⟩ := (dirFS_inUse hk).mp ho
    cases n with
    | zero => exact .refl
    | succ n =>
      refine .single ⟨n, [UInt8.ofNat (97 + n)], (dirFS_entry hk).mpr ⟨rfl, by omega, rfl, ?_⟩⟩
      omega

theorem dirFS_rootOffset (k : ℕ) : (dirFS k).rootOffset = 4096 := by
  rw [dirFS, rootOffset_eq (smallFS_formatted _ _ _), smallFS_sectorNum, slotOffset_small]

theorem dirFS_root (k : ℕ) : loadInode (dirFS k).disk (dirFS k).rootOffset = oneBlockDir := by
  rw [dirFS_rootOffset, dirFS, smallFS_disk, dirDisk_root]

theorem dirFS_ok (hk : k ≤ 8) : FsOk (dirFS k) where
  inodes := dirFS_consistent hk
  owned := dirFS_owned hk
  tree := by
    rw [dirFS_rootOffset]
    exact dirFS_tree hk
  types := fun o ho => by
    obtain ⟨n, hn, rfl⟩ := (dirFS_inUse hk).mp ho
    rw [dirFS, smallFS_disk]
    cases n with
    | zero =>
      rw [dirDisk_root]
      exact Or.inr rfl
    | succ n =>
      rw [show 4096 + 128 * (n + 1) = 4224 + 128 * n by omega, dirDisk_file (by omega)]
      exact Or.inl rfl
  rootType := by
    rw [dirFS_rootOffset, dirFS, smallFS_disk, dirDisk_root]
    rfl
  links := fun o ho hne => by
    obtain ⟨n, hn, rfl⟩ := (dirFS_inUse hk).mp ho
    rw [dirFS_rootOffset] at hne
    rw [dirFS, smallFS_disk]
    cases n with
    | zero => exact absurd rfl hne
    | succ n =>
      rw [show 4096 + 128 * (n + 1) = 4224 + 128 * n by omega, dirDisk_file (by omega)]
      rfl
  short := fun o t ho hdir hlive => by
    have he := treeOf_entry_eq ⟨ho, hdir, hlive⟩
    rw [((dirFS_entry hk).mp he).2.2.1]
    simp

/-- The second byte of the inode bitmap has clear bits. -/
theorem dirFS_nearHole (hk : k ≤ 8) : NearHole .inode (dirFS k) := by
  have havail : ∀ i, ((dirFS k).groupDesc i).avail .inode = 8191 - k := fun _ => rfl
  have hbitmap : ∀ i, ((dirFS k).groupDesc i).bitmap .inode = 4 := fun _ => rfl
  have hbyte : ∀ k, k < 9 → setBelow (k + 1) 1 ≠ 0xff := by decide
  have hdisk := dirDisk_inodeBitmap k (show 1 < 1024 by norm_num)
  refine ⟨0, 1, ?_, ?_, by omega, by norm_num, ?_, ?_⟩
  · rw [dirFS, smallFS_sectorNum, groups_small]
    norm_num
  · rw [havail]
    omega
  · rw [havail]
    omega
  · rw [hbitmap, dirFS, smallFS_disk]
    rw [window_apply] at hdisk
    rw [hdisk]
    exact hbyte k (by omega)

theorem dirFS_freeSlot (hk : k < 8) : ∃ t, t < slots (loadInode (dirFS k).disk 4096)
    ∧ slotInode (dirFS k).disk (loadInode (dirFS k).disk 4096) t = 0 := by
  rw [dirFS, smallFS_disk, dirDisk_root]
  refine ⟨k, hk, ?_⟩
  rw [dirDisk_slotInode hk.le hk, if_neg (lt_irrefl k)]

end dirFS

theorem path_a_no_zero : ∀ x ∈ [slash, 97], x ≠ 0 := no_zero_of_all rfl

/-- Creating `/b` and removing `/a`. -/
def createRemove : List DirCall :=
  [.open ⟨[slash, 98], no_zero_of_all rfl⟩ 64 zeroLocals, .unlink ⟨[slash, 97], path_a_no_zero⟩ zeroLocals]

theorem createRemove_legal : LegalRun (dirFS 1) createRemove := by
  have h : FsOk (dirFS 1) := dirFS_ok (by norm_num)
  have hopen : LegalDir (dirFS 1) (.open ⟨[slash, 98], no_zero_of_all rfl⟩ 64 zeroLocals) := by
    refine ⟨passesNoFile_entry h.root_isDir (by decide), fun _ _ _ => ⟨by decide, [], [98], rfl,
      by simp, ⟨by decide, by decide, no_zero_of_all rfl⟩, by decide, fun o hwalk => ?_⟩⟩
    rw [← Option.some.inj hwalk, dirFS_rootOffset]
    exact ⟨dirFS_freeSlot (by norm_num), dirFS_nearHole (by norm_num)⟩
  refine ⟨hopen, fun s₁ hexec => ⟨?_, fun _ _ => trivial⟩⟩
  -- whatever the first call leaves is well formed
  obtain ⟨s₁', hexec', h₁⟩ := h.exec hopen
  rw [hexec, Option.some.injEq] at hexec'
  rw [← hexec'] at h₁
  exact ⟨passesNoFile_entry h₁.root_isDir (by decide), fun _ _ => by decide⟩

theorem runDir_linked_small :
    FsOk (dirFS 1) ∧ LegalRun (dirFS 1) createRemove
      ∧ ∃ s', runDir (dirFS 1) createRemove = some s' ∧ Linked s' :=
  ⟨dirFS_ok (by norm_num), createRemove_legal,
    runDir_linked (dirFS_ok (by norm_num)) createRemove_legal _ (List.prefix_refl _)⟩

end SeL4Sys

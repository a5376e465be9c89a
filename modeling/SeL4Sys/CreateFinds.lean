import SeL4Sys.CreateFrame
import SeL4Sys.NameStored
import SeL4Sys.PathReads

/-!
# What is created can be found

After `syscall_open` has created a file, the directories on its path are as they were but for the last
one, since none of them is below itself. So a lookup of the path gets to the directory again, and finds
the new entry there if the bytes of the name are all there. A path with two separators in a row creates
its file and is never found.
-/

namespace SeL4Sys

open Bytes CString Loop NameTree

variable {s s' : FS} {d : Disk} {d₁ n p : List UInt8} {c : List UInt8} {ds : List (List UInt8)}
  {o o₁ x y : ℕ} {mode : ℤ} {l : Locals} {buffer : Buf}

/-! ## The directories on the way -/

/-- What the names lead to, and what each of the names before leads to, is a directory. -/
def DirsAlong (d : Disk) (y : ℕ) (ds : List (List UInt8)) : Prop :=
  ∀ cs, cs <+: ds → ∀ z, walk d y cs = some z → IsDir d z

theorem PassesNoFile.dirsAlong (h : PassesNoFile d y (absPath ds ++ slash :: n))
    (hnames : ∀ c ∈ ds, IsName c) : DirsAlong d y ds := by
  rintro cs ⟨es, rfl⟩ z hwalk
  have hcs : ∀ c ∈ cs, IsName c := fun c hc => hnames c (List.mem_append_left _ hc)
  match es with
  | [] =>
    rw [List.append_nil] at h
    exact h cs n z hcs rfl hwalk
  | e :: es =>
    refine h cs (e ++ (absPath es ++ slash :: n)) z hcs ?_ hwalk
    rw [absPath_append, absPath_cons]
    simp

theorem DirsAlong.head (h : DirsAlong d y ds) : IsDir d y := h [] List.nil_prefix y rfl

theorem DirsAlong.tail (h : DirsAlong d y (c :: ds)) (hfirst : firstBegins d (loadInode d y) c = some o₁) :
    DirsAlong d o₁ ds := by
  intro cs hcs z hwalk
  refine h (c :: cs) (List.cons_prefix_cons.mpr ⟨rfl, hcs⟩) z ?_
  rw [walk, hfirst, Option.bind_some, hwalk]

/-- What the lookup takes in a directory is below it. -/
theorem treeOf_names_firstBegins (hy : s.InUse y) (hdir : IsDir s.disk y)
    (hfirst : firstBegins s.disk (loadInode s.disk y) c = some o) : (treeOf s).Names y o := by
  have ⟨t, hlive, _, hinode⟩ := firstBegins_eq_some hfirst
  refine ⟨t, slotName s.disk (loadInode s.disk y) t, ?_⟩
  rw [treeOf_entry_eq ⟨hy, hdir, hlive⟩, hinode]

theorem FsOk.walk_names (h : FsOk s) (hy : s.InUse y) (hdirs : DirsAlong s.disk y ds)
    (hwalk : walk s.disk y ds = some o) : Relation.ReflTransGen (treeOf s).Names y o := by
  induction ds generalizing y with
  | nil =>
    rw [Option.some.inj hwalk]
  | cons c ds ih =>
    rw [walk, Option.bind_eq_some_iff] at hwalk
    obtain ⟨o₁, hfirst, hwalk⟩ := hwalk
    exact (ih (h.inUse_firstBegins hy hdirs.head hfirst) (hdirs.tail hfirst) hwalk).head
      (treeOf_names_firstBegins hy hdirs.head hfirst)

theorem FsOk.walk_inUse (h : FsOk s) (hy : s.InUse y) (hdirs : DirsAlong s.disk y ds)
    (hwalk : walk s.disk y ds = some o) : s.InUse o := by
  rcases (h.walk_names hy hdirs hwalk).cases_tail with heq | ⟨b, _, t, c, hentry⟩
  · rw [heq]
    exact hy
  · exact h.tree.target_used b t c o hentry

/-- The names do not lead back to where they start. -/
theorem FsOk.walk_ne (h : FsOk s) (hy : s.InUse y) (hdirs : DirsAlong s.disk y (c :: ds))
    (hwalk : walk s.disk y (c :: ds) = some o) : y ≠ o := by
  rintro rfl
  rw [walk, Option.bind_eq_some_iff] at hwalk
  obtain ⟨o₁, hfirst, hwalk⟩ := hwalk
  -- the names behind the first one would close a cycle in the tree
  have hback := h.walk_names (h.inUse_firstBegins hy hdirs.head hfirst) (hdirs.tail hfirst) hwalk
  exact h.tree.acyclic hy (Relation.TransGen.head'
    (treeOf_names_firstBegins hy hdirs.head hfirst) hback)

/-! ## The way to the directory after a creation -/

section kept
variable (hk : KeepsFile s s' y)

include hk

theorem KeepsFile.firstBegins_eq : firstBegins s'.disk (loadInode s'.disk y) c
    = firstBegins s.disk (loadInode s.disk y) c := by
  have hslots : slots (loadInode s'.disk y) = slots (loadInode s.disk y) := by rw [hk.inode]
  have hbegins : ∀ t, t < slots (loadInode s.disk y) →
      beginsWith s'.disk (loadInode s'.disk y) c t = beginsWith s.disk (loadInode s.disk y) c t := by
    intro t ht
    rw [beginsWith, beginsWith, slotInode_congr fun i hi => hk.slot_eq ht hi,
      slotName_congr fun i hi => hk.slot_eq ht hi]
  unfold firstBegins
  simp only [hslots, breakIndex_congr hbegins]
  split_ifs with hlt
  · rw [slotInode_congr fun i hi => hk.slot_eq hlt hi]
  · rfl

theorem KeepsFile.dirOk (hdir : DirOk s.disk (loadInode s.disk y)) :
    DirOk s'.disk (loadInode s'.disk y) := by
  have hslots : slots (loadInode s'.disk y) = slots (loadInode s.disk y) := by rw [hk.inode]
  have hlive : ∀ {t}, Live s'.disk (loadInode s'.disk y) t → Live s.disk (loadInode s.disk y) t := by
    rintro t ⟨ht, hne⟩
    rw [hslots] at ht
    rw [slotInode_congr fun i hi => hk.slot_eq ht hi] at hne
    exact ⟨ht, hne⟩
  have hname : ∀ {t}, Live s'.disk (loadInode s'.disk y) t →
      slotName s'.disk (loadInode s'.disk y) t = slotName s.disk (loadInode s.disk y) t :=
    fun ht => slotName_congr fun i hi => hk.slot_eq (hlive ht).1 hi
  refine ⟨by rw [hk.inode]; exact hdir.count, ?_, ?_⟩
  · intro t ht
    rw [hname ht]
    exact hdir.short t (hlive ht)
  · intro t u ht hu heq
    rw [hname ht, hname hu] at heq
    exact hdir.distinct t u (hlive ht) (hlive hu) heq

end kept

/-- A path begins with a separator. -/
theorem exists_slash_cons (ds : List (List UInt8)) (n : List UInt8) :
    ∃ r, slash :: r = absPath ds ++ slash :: n := by
  cases ds with
  | nil => exact ⟨n, rfl⟩
  | cons e es =>
    refine ⟨e ++ absPath es ++ slash :: n, ?_⟩
    rw [absPath_cons, List.cons_append]

/-- The lookup goes along the names to the directory, when nothing but the directory has changed. -/
theorem lookupLoop_along (h : FsOk s) (hf' : Formatted s')
    (hkeeps : ∀ y, s.InUse y → y ≠ o → KeepsFile s s' y) (hnames : ∀ c ∈ ds, IsName c) (hy : s.InUse y)
    (hdirs : DirsAlong s.disk y ds) (hwalk : walk s.disk y ds = some o) {r : List UInt8}
    (hr : slash :: r = absPath ds ++ slash :: n) {m : ℕ} (hm : r.length ≤ m) (buffer : Buf) :
    ∃ m' buffer', n.length ≤ m' ∧ SameTail buffer buffer'
      ∧ lookupLoop s' m r y (loadInode s'.disk y) buffer
        = lookupLoop s' m' n o (loadInode s'.disk o) buffer' := by
  induction ds generalizing y r m buffer with
  | nil =>
    have hrn : r = n := (List.cons.inj hr).2
    rw [hrn] at hm ⊢
    rw [Option.some.inj hwalk]
    exact ⟨m, buffer, hm, fun _ _ => rfl, rfl⟩
  | cons c ds ih =>
    -- the directory is below this one, so this one is not what has changed
    have hkept := hkeeps y hy (h.walk_ne hy hdirs hwalk)
    have hdir := hdirs.head
    rw [walk, Option.bind_eq_some_iff] at hwalk
    obtain ⟨o₁, hfirst, hwalk⟩ := hwalk
    -- the string behind the first name
    obtain ⟨r', hr'⟩ := exists_slash_cons ds n
    have hsplit : r = c ++ slash :: r' := by
      rw [hr']
      rw [absPath_cons, List.cons_append, List.cons.injEq] at hr
      rw [hr.2, List.append_assoc]
    have hlen : r'.length ≤ m - 1 ∧ m = m - 1 + 1 := by
      rw [hsplit, List.length_append, List.length_cons] at hm
      omega
    have htype : (loadInode s'.disk y).type ≠ regularType := by
      rw [hkept.inode]
      exact hdir
    obtain ⟨b₁, htail₁, hmore⟩ := lookupLoop_more (o := y) hf' (hkept.dirOk (h.dirOk hy hdir)) htype
      (hnames c List.mem_cons_self) r' (m - 1) buffer
    obtain ⟨m', b₂, hm', htail₂, hrest⟩ := ih (fun e he => hnames e (List.mem_cons_of_mem _ he))
      (h.inUse_firstBegins hy hdir hfirst) (hdirs.tail hfirst) hwalk hr' hlen.1 b₁
    refine ⟨m', b₂, hm', fun i hi => (htail₂ i hi).trans (htail₁ i hi), ?_⟩
    rw [hsplit, hlen.2, hmore, hkept.firstBegins_eq, hfirst, Option.elim_some, hrest]

/-! ## The last name -/

/-- What the last pass returns. -/
def lastPass (d : Disk) (o : ℕ) (ino : Inode) : Scan → Lookup
  | .failed => ⟨-1, o, ino⟩
  | .missing _ => ⟨-1, o, ino⟩
  | .found _ j b => ⟨0, entryInode (dirEntry b j), loadInode d (entryInode (dirEntry b j))⟩

/-- The last pass over a directory of any contents. -/
theorem lookupLoop_name {ino : Inode} (hn : IsName n) (m : ℕ) (buffer : Buf) :
    lookupLoop s (m + 1) n o ino buffer
      = lastPass s.disk o ino (scanDir s ino (matchesName n n.length) buffer) := by
  obtain ⟨b, bs, hcons⟩ := List.exists_cons_of_ne_nil hn.ne_nil
  have hchr := stringChr_of_notMem hn.no_slash
  rw [hcons] at hchr ⊢
  rw [lookupLoop]
  simp only [hchr]
  rw [if_neg (by simp), if_neg (by simp)]
  cases scanDir s ino (matchesName (b :: bs) (b :: bs).length) buffer with
  | failed => rfl
  | missing _ => rfl
  | found _ j b => exact if_neg (by norm_num)

/-! ## The calls that create a file -/

/-- A call that creates the file at `p` and returns its inode. -/
structure CreatesFile (s s' : FS) (p : List UInt8) (mode : ℤ) (l : Locals) (x : ℕ) : Prop where
  missing : (readInode s l.destInode p l.lookupBuffer).ret ≠ 0
  returns : syscallOpen s p mode l = some (↑x, s')

/-- A lookup of the path and another call with it give the inode. -/
structure FoundAgain (s' : FS) (p : List UInt8) (x : ℕ) : Prop where
  found : ∀ destInode buffer, (readInode s' destInode p buffer).ret = 0
    ∧ (readInode s' destInode p buffer).inodeOffset = x
  opened : ∀ mode l, syscallOpen s' p mode l = some (↑x, s')

theorem foundAgain_of_found (h : ∀ destInode buffer, (readInode s' destInode p buffer).ret = 0
    ∧ (readInode s' destInode p buffer).inodeOffset = x) : FoundAgain s' p x where
  found := h
  opened := fun mode l => by
    have ⟨hret, hoffset⟩ := h l.destInode l.lookupBuffer
    rw [syscallOpen, if_pos hret, hoffset]

section created
variable (h : FsOk s) (hnames : ∀ c ∈ ds, IsName c) (hn : IsName n)
  (hpass : PassesNoFile s.disk s.rootOffset (absPath ds ++ slash :: n))
  (hwalk : walk s.disk s.rootOffset ds = some o)

include h hnames hn hpass hwalk

omit hn in
/-- The directory that the names lead to. -/
theorem FsOk.walk_dirOk : s.InUse o ∧ DirOk s.disk (loadInode s.disk o) := by
  have hdirs := hpass.dirsAlong hnames
  have ho := h.walk_inUse h.tree.root_used hdirs hwalk
  exact ⟨ho, h.dirOk ho (hdirs ds (List.prefix_refl ds) o hwalk)⟩

/-- A lookup of the path, before or after the directory has changed, looks for the name in it. -/
theorem readInode_along (hf' : Formatted s') (hroot : s'.rootOffset = s.rootOffset)
    (hkeeps : ∀ y, s.InUse y → y ≠ o → KeepsFile s s' y) (dest : Inode) (buffer : Buf) :
    ∃ m buffer', SameTail buffer buffer' ∧ readInode s' dest (absPath ds ++ slash :: n) buffer
      = lookupLoop s' (m + 1) n o (loadInode s'.disk o) buffer' := by
  have ⟨r, hr⟩ := exists_slash_cons ds n
  have ⟨m, b', hm, htail, hloop⟩ := lookupLoop_along h hf' hkeeps hnames h.tree.root_used
    (hpass.dirsAlong hnames) hwalk hr (Nat.le_succ r.length) buffer
  have hpos := List.length_pos_of_ne_nil hn.ne_nil
  refine ⟨m - 1, b', htail, ?_⟩
  rw [← hr, readInode_slash, hroot, hloop, show m - 1 + 1 = m by omega]

/-- The name was not in the directory. -/
theorem CreatesFile.firstBegins_eq (hc : CreatesFile s s' (absPath ds ++ slash :: n) mode l x) :
    firstBegins s.disk (loadInode s.disk o) n = none := by
  have hf := h.inodes.formatted
  have ⟨_, hdir⟩ := h.walk_dirOk hnames hpass hwalk
  have ⟨m, b', _, hread⟩ := readInode_along h hnames hn hpass hwalk hf rfl
    (fun y _ _ => KeepsFile.refl s y) l.destInode l.lookupBuffer
  have hmissing := hc.missing
  rw [hread, lookupLoop_last hf hdir hn] at hmissing
  match hfirst : firstBegins s.disk (loadInode s.disk o) n with
  | none => rfl
  | some o' =>
    rw [hfirst] at hmissing
    exact absurd rfl hmissing

/-- The entry is in the directory that the names lead to. -/
theorem CreatesFile.entryAdded (hc : CreatesFile s s' (absPath ds ++ slash :: n) mode l x)
    (hfree : FindsFree s (loadInode s.disk o)) :
    ∃ i j b, EntryPlace s (loadInode s.disk o) n l.dirBuffer i j b ∧ EntryAdded s s' o x i j b n := by
  rcases syscallOpen_cases hc.returns with ⟨_, hfound | hneg⟩ | ⟨_, f, hfather, hcreate⟩
  · exact absurd hfound hc.missing
  · omega
  -- the directory that the call looks up is the one of the names
  rw [getFatherPath_absPath hn (by rw [hfather]; simp), Option.some.injEq] at hfather
  rw [← hfather, lastName_append hn.no_slash] at hcreate
  have hbegin := fatherOf_isPrefix ds n
  have hfinds := readInode_finds h (fun y hy => absPath_name_no_zero hnames hn y (hbegin.subset hy))
    (hpass.initial hbegin) l.fatherInode l.fatherBuffer
  have ⟨hret, hoffset⟩ := (hfinds.leads o).mpr ((leads_fatherOf_iff hnames).mpr hwalk)
  rcases createIn_eq_some hcreate with ⟨hmissing, _⟩ | ⟨_, _, _, _, x', htype, hx, halloc⟩
  · exact absurd hret hmissing
  · rw [hfinds.destInode hret, hoffset] at halloc
    have ⟨ho, _⟩ := h.walk_dirOk hnames hpass hwalk
    rw [show x = x' by exact_mod_cast hx]
    exact allocInode_entryAdded h ho hfree htype halloc

/-- The path of a created file is found again when the whole name is there, and only then. -/
theorem CreatesFile.foundAgain_iff (hc : CreatesFile s s' (absPath ds ++ slash :: n) mode l x)
    (hfree : FindsFree s (loadInode s.disk o)) :
    (NameKept s.disk (loadInode s.disk o) l.dirBuffer n → FoundAgain s' (absPath ds ++ slash :: n) x)
      ∧ (CleanBlock (loadInode s.disk o) l.dirBuffer n →
        FoundAgain s' (absPath ds ++ slash :: n) x →
          NameKept s.disk (loadInode s.disk o) l.dirBuffer n) := by
  have hf := h.inodes.formatted
  have ⟨ho, hdir⟩ := h.walk_dirOk hnames hpass hwalk
  have hnone := hc.firstBegins_eq h hnames hn hpass hwalk
  have ⟨i, j, b, hplace, hadd⟩ := hc.entryAdded h hnames hn hpass hwalk hfree
  have hspec := hplace.spec hf hdir hn.no_zero
  have hroot : s'.rootOffset = s.rootOffset := by
    rw [rootOffset_eq hf, rootOffset_eq hadd.formatted, hadd.sectorNum]
  have hread := readInode_along h hnames hn hpass hwalk hadd.formatted hroot hadd.others
  constructor
  · intro hkept
    apply foundAgain_of_found
    intro dest buffer
    have ⟨m, b', _, heq⟩ := hread dest buffer
    have ⟨k, e, b₂, hscan, hx⟩ := hadd.scan_found hspec hf hdir hn.no_zero hnone (h.blocks_lt ho) hkept b'
    rw [heq, lookupLoop_name hn, hscan]
    exact ⟨rfl, hx⟩
  · intro hclean hagain
    apply hadd.nameKept hspec hf hdir hn.no_zero hnone (h.blocks_lt ho) hclean
    intro v
    -- the stack of the lookup may hold any byte behind the block that it reads
    have ⟨m, b', htail, heq⟩ := hread l.destInode fun _ => v
    have ⟨hret, _⟩ := hagain.found l.destInode fun _ => v
    refine ⟨b', htail, ?_⟩
    rw [heq, lookupLoop_name hn] at hret
    cases hscan : scanDir s' (loadInode s'.disk o) (matchesName n n.length) b' with
    | found k e b₂ => exact ⟨k, e, b₂, rfl⟩
    | failed =>
      rw [hscan] at hret
      cases hret
    | missing _ =>
      rw [hscan] at hret
      cases hret

end created

/-! ## All paths of a directory -/

theorem absPath_getLast (hnames : ∀ c ∈ ds, IsName c) : (absPath ds).getLast? ≠ some slash := by
  rcases List.eq_nil_or_concat ds with rfl | ⟨es, e, rfl⟩
  · simp
  · have he : IsName e := hnames e (by simp)
    have ⟨z, hz⟩ : ∃ z, e.getLast? = some z := Option.isSome_iff_exists.mp (by simp [he.ne_nil])
    have hlast : (absPath (es ++ [e])).getLast? = some z := by
      rw [absPath_append, absPath_cons, absPath_nil, List.append_nil, List.getLast?_append,
        List.getLast?_cons, hz]
      rfl
    rw [List.concat_eq_append, hlast]
    rintro ⟨⟩
    exact he.no_slash (List.mem_of_getLast? hz)

/-- The string in front of the name does not end with a separator, and the bytes of the name that do not
fit the field stand behind it. -/
structure Findable (s : FS) (d₁ : List UInt8) (o : ℕ) (buffer : Buf) (n : List UInt8) : Prop where
  single : d₁.getLast? ≠ some slash
  kept : NameKept s.disk (loadInode s.disk o) buffer n

/-- **What is created can be found.** A file that is created in a directory, with whatever string its
path has, is found again when the path and the stored name are good, and only then. -/
theorem created_found_iff (h : FsOk s) (hnames : ∀ c ∈ ds, IsName c)
    (hd : d₁ = absPath ds ∨ d₁ = absPath ds ++ [slash]) (hn : IsName n)
    (hpass : PassesNoFile s.disk s.rootOffset (d₁ ++ slash :: n))
    (hwalk : walk s.disk s.rootOffset ds = some o) (hfree : FindsFree s (loadInode s.disk o))
    (hc : CreatesFile s s' (d₁ ++ slash :: n) mode l x) :
    (Findable s d₁ o l.dirBuffer n → FoundAgain s' (d₁ ++ slash :: n) x)
      ∧ (CleanBlock (loadInode s.disk o) l.dirBuffer n → FoundAgain s' (d₁ ++ slash :: n) x →
        Findable s d₁ o l.dirBuffer n) := by
  rcases hd with rfl | rfl
  · have hiff := hc.foundAgain_iff h hnames hn hpass hwalk hfree
    refine ⟨fun hok => hiff.1 hok.kept, fun hclean hagain => ⟨?_, hiff.2 hclean hagain⟩⟩
    exact absPath_getLast hnames
  · refine ⟨fun hok => absurd (by simp) hok.single, fun _ hagain => ?_⟩
    -- two separators in a row are rejected
    have ⟨hret, _⟩ := hagain.found l.destInode l.lookupBuffer
    have hdouble : doubleSlash <:+: absPath ds ++ [slash] ++ slash :: n :=
      ⟨absPath ds, n, by simp [doubleSlash]⟩
    rw [readInode_malformed (Or.inr hdouble)] at hret
    cases hret

/-- A creation in a root directory with a free slot. -/
theorem open_creates (h : FsOk s) (hn : IsName n)
    (hnone : firstBegins s.disk (loadInode s.disk s.rootOffset) n = none)
    (hslot : ∃ t, t < slots (loadInode s.disk s.rootOffset)
      ∧ slotInode s.disk (loadInode s.disk s.rootOffset) t = 0) (hnear : NearHole .inode s)
    (hmode : createMode mode = true) : ∃ x s', CreatesFile s s' (slash :: n) mode l x := by
  have hdir := h.dirOk h.tree.root_used h.root_isDir
  have hmissing : (readInode s l.destInode (slash :: n) l.lookupBuffer).ret ≠ 0 := by
    rw [readInode_slash, lookupLoop_last h.inodes.formatted hdir hn, hnone]
    exact show (-1 : ℤ) ≠ 0 by decide
  have hdirPath : isDirPath (slash :: n) = some false := isDirPath_name (d := []) hn
  have hcreates : Creates s (slash :: n) mode l :=
    ⟨hmissing, hmode, fun htrue => by rw [hdirPath] at htrue; cases htrue⟩
  have hfather : getFatherPath ([] ++ slash :: n) = some [slash] := getFatherPath_append hn
  have hlast : lastName ([] ++ slash :: n) = n := lastName_append hn.no_slash
  rw [List.nil_append] at hfather hlast
  have hroot : readInode s l.fatherInode [slash] l.fatherBuffer
      = ⟨0, s.rootOffset, loadInode s.disk s.rootOffset⟩ := by
    rw [readInode_slash]
    rfl
  have ⟨_, _, x, s', _, halloc, _⟩ := allocInode_added h h.tree.root_used h.root_isDir hn hnone hslot
    (h.inodes.hits_of_nearHole hnear) (fileType_cases mode)
    (readInode s l.destInode (slash :: n) l.lookupBuffer).destInode
    (readInode s l.destInode (slash :: n) l.lookupBuffer).inodeOffset l.dirBuffer l.stack
  refine ⟨x, s', hmissing, ?_⟩
  rw [hcreates.open_eq (List.cons_ne_nil _ _) hfather, hlast, createIn, hroot]
  simp only [halloc, ne_eq, not_true_eq_false, if_false, if_true]

section small

variable (hn : IsName n)

include hn

/-- A file in the root directory of an empty disk. -/
theorem dirFS_creates : ∃ x s', CreatesFile (dirFS 0) s' (slash :: n) 64 zeroLocals x := by
  have hroot := dirFS_rootOffset 0
  refine open_creates (dirFS_ok (by decide)) hn ?_ ?_ (dirFS_nearHole (by decide)) (by decide)
  · rw [hroot]
    exact dirFS_firstBegins (by decide) fun t ht => absurd ht (Nat.not_lt_zero t)
  · rw [hroot]
    exact dirFS_freeSlot (by decide)

theorem dirFS_foundAgain_iff {s' : FS} {x : ℕ}
    (hc : CreatesFile (dirFS 0) s' (slash :: n) 64 zeroLocals x) :
    FoundAgain s' (slash :: n) x ↔ NameKept (dirDisk 0) oneBlockDir zeroLocals.dirBuffer n := by
  have h := dirFS_ok (show 0 ≤ 8 by decide)
  have hroot : loadInode (dirFS 0).disk (dirFS 0).rootOffset = oneBlockDir := dirFS_root 0
  have hpass : PassesNoFile (dirFS 0).disk (dirFS 0).rootOffset (absPath [] ++ slash :: n) :=
    passesNoFile_entry h.root_isDir hn.no_slash
  have hfree : FindsFree (dirFS 0) (loadInode (dirFS 0).disk (dirFS 0).rootOffset) := by
    rw [hroot]
    exact dirFS_findsFree (by decide) (by decide)
  have hiff := CreatesFile.foundAgain_iff h (by simp) hn hpass rfl hc hfree
  rw [hroot] at hiff
  exact ⟨hiff.2 (Or.inl (by decide)), hiff.1⟩

end small

theorem dirDisk_freeSlot : freeSlot (dirDisk 0) oneBlockDir = 0 := by decide +kernel

/-- There is nothing behind the name field of the first entry of the empty directory. -/
theorem dirDisk_byteBefore (buffer : Buf) :
    byteBefore (dirDisk 0) oneBlockDir buffer 64 = some 0 := by
  unfold byteBefore
  simp only [dirDisk_freeSlot]
  rw [if_neg (by decide), if_pos (by decide)]
  decide +kernel

/-- The file `/a`. -/
theorem created_found_iff_a : ∃ x s', CreatesFile (dirFS 0) s' [slash, 97] 64 zeroLocals x
    ∧ FoundAgain s' [slash, 97] x := by
  have h := dirFS_ok (show 0 ≤ 8 by decide)
  have hroot : loadInode (dirFS 0).disk (dirFS 0).rootOffset = oneBlockDir := dirFS_root 0
  have ⟨x, s', hc⟩ := dirFS_creates isName_a
  have hwalk : walk (dirFS 0).disk (dirFS 0).rootOffset [] = some (dirFS 0).rootOffset := rfl
  have hd : [] = absPath [] ∨ [] = absPath [] ++ [slash] := Or.inl rfl
  refine ⟨x, s', hc, (created_found_iff h (by simp) hd isName_a
    (passesNoFile_entry h.root_isDir isName_a.no_slash) hwalk ?_ hc).1 ⟨by simp, ?_⟩⟩
  · rw [hroot]
    exact dirFS_findsFree (by decide) (by decide)
  · exact nameKept_of_length (by decide)

/-- A name of 65 characters: the file is created and not found again. -/
theorem long_name_not_found : ∃ x s',
    CreatesFile (dirFS 0) s' (slash :: List.replicate 65 97) 64 zeroLocals x
      ∧ ¬ FoundAgain s' (slash :: List.replicate 65 97) x := by
  have hn : IsName (List.replicate 65 97) := ⟨by decide, by decide, no_zero_of_all rfl⟩
  have ⟨x, s', hc⟩ := dirFS_creates hn
  refine ⟨x, s', hc, fun hagain => ?_⟩
  -- byte 64 of the name would have to stand in the padding behind the field
  have hbyte := (dirFS_foundAgain_iff hn hc).mp hagain 64 (by decide) (by decide)
  rw [dirDisk_byteBefore, List.getElem_replicate] at hbyte
  cases hbyte

end SeL4Sys

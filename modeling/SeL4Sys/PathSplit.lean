import SeL4Sys.DirGrow

/-!
# The directory and the name in a path

`syscall_open` and `syscall_unlink` take the directory from `get_father_path`, which looks for the last
separator in front of the last character, and the name from `find_last_of` over the whole path. For a
path that ends in a separator the name is empty, and neither call does what it should with it.
-/

namespace SeL4Sys

open Bytes CString Loop

variable {d n p : List UInt8}

/-! ## What the calls do with the parts -/

/-- `syscall_open` after a path was not found, with the directory and the name that it works with. -/
def createIn (s : FS) (path : List UInt8) (mode : ℤ) (l : Locals) (fatherPath name : List UInt8) :
    Option (ℤ × FS) :=
  let dest := readInode s l.destInode path l.lookupBuffer
  let father := readInode s l.fatherInode fatherPath l.fatherBuffer
  if father.ret ≠ 0 then some (-1, s)
  else
    let type := if isDirMode mode = true then directoryType else regularType
    let r := allocInode s father.destInode father.inodeOffset dest.destInode dest.inodeOffset name
      type l.dirBuffer l.stack
    if r.ret = 0 then some (r.destInodeOffset, r.fs) else none

/-- `syscall_unlink` after a path was found, with the directory and the name that it works with. -/
def removeIn (s : FS) (path : List UInt8) (l : Locals) (fatherPath name : List UInt8) : ℤ × FS :=
  let dest := readInode s l.destInode path l.lookupBuffer
  let father := readInode s l.fatherInode fatherPath l.fatherBuffer
  if father.ret ≠ 0 then (-1, s)
  else
    let r := freeInode s father.destInode dest.destInode dest.inodeOffset name dest.destInode.type
      l.dirBuffer l.tmpName l.tmpBuffer
    (r.ret, r.fs)

/-- `syscall_open` gets as far as creating the path. -/
structure Creates (s : FS) (path : List UInt8) (mode : ℤ) (l : Locals) : Prop where
  missing : (readInode s l.destInode path l.lookupBuffer).ret ≠ 0
  create : createMode mode = true
  dirMode : isDirPath path = some true → isDirMode mode = true

/-- It looks for the directory of the path, and finds the inode at `o`. -/
def CreatesAt (s : FS) (path : List UInt8) (mode : ℤ) (l : Locals) (o : ℕ) : Prop :=
  Creates s path mode l ∧ ∃ f, getFatherPath path = some f
    ∧ (readInode s l.fatherInode f l.fatherBuffer).ret = 0
    ∧ (readInode s l.fatherInode f l.fatherBuffer).inodeOffset = o

/-- `syscall_unlink` gets as far as removing the path. -/
structure Removes (s : FS) (path : List UInt8) (l : Locals) : Prop where
  found : (readInode s l.destInode path l.lookupBuffer).ret = 0
  empty : (readInode s l.destInode path l.lookupBuffer).destInode.type = directoryType →
    isEmptyDir s (readInode s l.destInode path l.lookupBuffer).destInode l = true

/-- The path is taken apart into this directory and this name, and the calls work with them. -/
structure SplitsInto (path fatherPath name : List UInt8) : Prop where
  father_eq : getFatherPath path = some fatherPath
  name_eq : lastName path = name
  creates : ∀ s mode l, Creates s path mode l →
    syscallOpen s path mode l = createIn s path mode l fatherPath name
  removes : ∀ s l, Removes s path l →
    syscallUnlink s path l = some (removeIn s path l fatherPath name)

/-- The empty string has no directory. -/
theorem ne_nil_of_getFatherPath (hfather : getFatherPath p = some d) : p ≠ [] := by
  rintro rfl
  have hnone : getFatherPath [] = none := by decide
  rw [hnone] at hfather
  cases hfather

theorem Creates.open_eq {s : FS} {mode : ℤ} {l : Locals} (h : Creates s p mode l) (hne : p ≠ [])
    (hfather : getFatherPath p = some d) :
    syscallOpen s p mode l = createIn s p mode l d (lastName p) := by
  have ⟨t, ht⟩ : ∃ t, isDirPath p = some t := ⟨_, if_neg hne⟩
  have hdir : ¬ (t = true ∧ isDirMode mode = false) := by
    intro hboth
    have := h.dirMode (ht.trans (congrArg some hboth.1))
    rw [hboth.2] at this
    cases this
  unfold syscallOpen
  simp only [if_neg h.missing, h.create, ht, hfather, Option.bind_some, if_neg hdir, Bool.true_eq_false,
    if_false]
  rfl

theorem Removes.unlink_eq {s : FS} {l : Locals} (h : Removes s p l)
    (hfather : getFatherPath p = some d) :
    syscallUnlink s p l = some (removeIn s p l d (lastName p)) := by
  have hdir : ¬ ((readInode s l.destInode p l.lookupBuffer).destInode.type = directoryType
      ∧ isEmptyDir s (readInode s l.destInode p l.lookupBuffer).destInode l = false) := by
    intro hboth
    have := h.empty hboth.1
    rw [hboth.2] at this
    cases this
  unfold syscallUnlink removeIn
  simp only [h.found, hfather, Option.bind_some, if_neg hdir]
  split_ifs <;> simp_all

theorem splitsInto_of (hne : p ≠ []) (hfather : getFatherPath p = some d) :
    SplitsInto p d (lastName p) where
  father_eq := hfather
  name_eq := rfl
  creates := fun _ _ _ h => h.open_eq hne hfather
  removes := fun _ _ h => h.unlink_eq hfather

/-- A call that gets as far as creating and returns has a directory to create in. -/
theorem Creates.returns {s : FS} {mode : ℤ} {l : Locals} {r : ℤ × FS} (h : Creates s p mode l)
    (hopen : syscallOpen s p mode l = some r) :
    p ≠ [] ∧ ∃ d, getFatherPath p = some d ∧ createIn s p mode l d (lastName p) = some r := by
  have hmode : ¬ createMode mode = false := by
    rw [h.create]
    decide
  have hne : p ≠ [] := by
    intro hnil
    rw [syscallOpen, if_neg h.missing, if_neg hmode, hnil] at hopen
    cases hopen
  refine ⟨hne, ?_⟩
  cases hfather : getFatherPath p with
  | none =>
    rw [syscallOpen, if_neg h.missing, if_neg hmode, isDirPath, if_neg hne, Option.bind_some, hfather,
      Option.bind_none] at hopen
    split_ifs at hopen with hboth
    have hdir := h.dirMode ((if_neg hne).trans (congrArg some hboth.1))
    rw [hboth.2] at hdir
    cases hdir
  | some d =>
    rw [h.open_eq hne hfather] at hopen
    exact ⟨d, rfl, hopen⟩

/-- What a call of `syscall_open` that returns has done: nothing to the disk, or a creation. -/
theorem syscallOpen_cases {s s' : FS} {mode r : ℤ} {l : Locals}
    (h : syscallOpen s p mode l = some (r, s')) :
    s' = s ∧ ((readInode s l.destInode p l.lookupBuffer).ret = 0 ∨ r = -1)
      ∨ Creates s p mode l ∧ ∃ d, getFatherPath p = some d
        ∧ createIn s p mode l d (lastName p) = some (r, s') := by
  by_cases hfound : (readInode s l.destInode p l.lookupBuffer).ret = 0
  · rw [syscallOpen, if_pos hfound] at h
    exact Or.inl ⟨(Prod.mk.inj (Option.some.inj h)).2.symm, Or.inl hfound⟩
  by_cases hmode : createMode mode = false
  · rw [syscallOpen, if_neg hfound, if_pos hmode] at h
    obtain ⟨hr, hs'⟩ := Prod.mk.inj (Option.some.inj h)
    exact Or.inl ⟨hs'.symm, Or.inr hr.symm⟩
  by_cases hdir : isDirPath p = some true ∧ isDirMode mode = false
  · rw [syscallOpen, if_neg hfound, if_neg hmode, hdir.1, Option.bind_some, if_pos ⟨rfl, hdir.2⟩] at h
    obtain ⟨hr, hs'⟩ := Prod.mk.inj (Option.some.inj h)
    exact Or.inl ⟨hs'.symm, Or.inr hr.symm⟩
  -- only now is the directory of the path computed
  have hcreates : Creates s p mode l :=
    ⟨hfound, by simpa using hmode, fun htrue => by simpa using fun hfalse => hdir ⟨htrue, hfalse⟩⟩
  obtain ⟨-, d, hd, hcreate⟩ := hcreates.returns h
  exact Or.inr ⟨hcreates, d, hd, hcreate⟩

/-! ## Paths with a separator at the end -/

theorem isDirPath_concat (q : List UInt8) (x : UInt8) : isDirPath (q ++ [x]) = some (x == slash) := by
  unfold isDirPath
  rw [if_neg (by simp), List.length_append, List.length_singleton, Nat.add_sub_cancel,
    List.getD_append_right _ _ _ _ le_rfl, Nat.sub_self, List.getD_cons_zero]

/-- A path that ends in a name is not the path of a directory for `is_dir_path`. -/
theorem isDirPath_name {c : List UInt8} (hc : IsName c) : isDirPath (d ++ slash :: c) = some false := by
  have hlast : c = c.dropLast ++ [c.getLast hc.ne_nil] :=
    (List.dropLast_append_getLast hc.ne_nil).symm
  have hne : c.getLast hc.ne_nil ≠ slash := fun heq => hc.no_slash (heq ▸ List.getLast_mem hc.ne_nil)
  rw [hlast, ← List.cons_append, ← List.append_assoc, isDirPath_concat]
  simpa using hne

/-- The path `d/n`, or `d/n/`. -/
def pathTo (d n : List UInt8) (trailing : Bool) : List UInt8 :=
  d ++ slash :: n ++ if trailing then [slash] else []

/-- The path of the directory: the root when `d` is empty. -/
def dirOf (d : List UInt8) : List UInt8 := if d = [] then [slash] else d

variable {trailing : Bool}

theorem pathTo_ne_nil : pathTo d n trailing ≠ [] := by simp [pathTo]

theorem getFatherPath_pathTo (hne : n ≠ []) (hn : slash ∉ n) (hfit : d.length < 64) :
    getFatherPath (pathTo d n trailing) = some (dirOf d) := by
  have hdir : (if d = [] then some [slash] else if 64 ≤ d.length then none else some d)
      = some (dirOf d) := by
    unfold dirOf
    rw [if_neg (not_le.mpr hfit)]
    split_ifs <;> rfl
  unfold pathTo
  match trailing with
  | true => exact (getFatherPath_concat hn slash).trans hdir
  | false =>
    have hlast : n = n.dropLast ++ [n.getLast hne] := (List.dropLast_append_getLast hne).symm
    have hinit : slash ∉ n.dropLast := fun h => hn (List.dropLast_subset n h)
    rw [hlast, ← List.cons_append, ← List.append_assoc, if_neg Bool.false_ne_true, List.append_nil]
    exact (getFatherPath_concat hinit _).trans hdir

/-- The name is lost when a separator follows it. -/
theorem lastName_pathTo (hn : slash ∉ n) :
    lastName (pathTo d n trailing) = if trailing then [] else n := by
  unfold pathTo
  match trailing with
  | true => exact lastName_append List.not_mem_nil
  | false =>
    rw [if_neg Bool.false_ne_true, List.append_nil]
    exact lastName_append hn

/-- With an empty name nothing can be created, and the assertion of `syscall_open` fails. -/
theorem createIn_nil {s : FS} {mode : ℤ} {l : Locals}
    (hfather : (readInode s l.fatherInode d l.fatherBuffer).ret = 0) :
    createIn s p mode l d [] = none := by
  unfold createIn allocInode
  simp [hfather]

/-- With an empty name nothing is removed. -/
theorem removeIn_nil {s : FS} {l : Locals} : removeIn s p l d [] = (-1, s) := by
  unfold removeIn freeInode
  simp

/-- The path is split as it should be exactly if it does not end in a separator. If it does, the
calls fail. -/
theorem pathTo_splits_iff (hne : n ≠ []) (hn : slash ∉ n) (hfit : d.length < 64) :
    (SplitsInto (pathTo d n trailing) (dirOf d) n ↔ trailing = false)
      ∧ (trailing = true →
        (∀ s mode l, Creates s (pathTo d n trailing) mode l →
          (readInode s l.fatherInode (dirOf d) l.fatherBuffer).ret = 0 →
            syscallOpen s (pathTo d n trailing) mode l = none)
        ∧ ∀ s l, Removes s (pathTo d n trailing) l →
            syscallUnlink s (pathTo d n trailing) l = some (-1, s)) := by
  have hfather : getFatherPath (pathTo d n trailing) = some (dirOf d) :=
    getFatherPath_pathTo hne hn hfit
  have hsplits := splitsInto_of pathTo_ne_nil hfather
  rw [lastName_pathTo hn] at hsplits
  refine ⟨⟨?_, ?_⟩, ?_⟩
  · intro h
    by_contra htrailing
    have hname := hsplits.name_eq.symm.trans h.name_eq
    rw [if_pos (by simpa using htrailing)] at hname
    exact hne hname.symm
  · intro htrailing
    rw [htrailing] at hsplits ⊢
    exact hsplits
  · intro htrailing
    rw [if_pos htrailing] at hsplits
    refine ⟨?_, ?_⟩
    · intro s mode l hcreates hfather
      rw [hsplits.creates s mode l hcreates, createIn_nil hfather]
    · intro s l hremoves
      rw [hsplits.removes s l hremoves, removeIn_nil]

/-- The paths `/a` and `/a/`. -/
theorem pathTo_splits_iff_a :
    (SplitsInto (pathTo [] [97] false) (dirOf []) [97] ↔ false = false)
      ∧ (SplitsInto (pathTo [] [97] true) (dirOf []) [97] ↔ true = false) :=
  ⟨(pathTo_splits_iff (by decide) (by decide) (by decide)).1,
    (pathTo_splits_iff (by decide) (by decide) (by decide)).1⟩

/-- `open("/b/", O_CREAT | O_DIRECTORY)` in an empty root directory: the directory is right, the name
is not, and the call ends in the assertion. -/
theorem trailing_slash_not_created :
    getFatherPath [slash, 98, slash] = some [slash] ∧ lastName [slash, 98, slash] = []
      ∧ createMode 65600 = true ∧ isDirMode 65600 = true
      ∧ syscallOpen (dirFS 0) [slash, 98, slash] 65600 zeroLocals = none := by
  have hopen : (syscallOpen (dirFS 0) [slash, 98, slash] 65600 zeroLocals).isNone = true := by
    decide +kernel
  exact ⟨by decide, by decide, by decide, by decide, Option.isNone_iff_eq_none.mp hopen⟩

end SeL4Sys

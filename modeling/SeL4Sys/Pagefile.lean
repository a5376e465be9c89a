import SeL4Sys.DirOps

/-!
# Pagefiles

The list of pagefiles of `pagefile.c`: `pagefile_init`, `get_pagefile` and `free_pagefile`.
A name is the list of its characters; the list of pagefiles starts at its head.
-/

namespace SeL4Sys

open CString

/-- The name of a file. -/
abbrev Name := List UInt8

/-- `Pagefile` -/
structure Pagefile where
  name : Name
  inuse : Bool
deriving DecidableEq

/-- `pagefiles` and `pagefile_num` -/
structure Swap where
  pagefiles : List Pagefile
  pagefileNum : ℕ
deriving DecidableEq

/-- `PAGEFILE_PATH`, the text `/swap`. -/
def pagefilePath : Name := [47, 115, 119, 97, 112]

/-- The path of the entry `name` of the directory. -/
def entryPath (name : Name) : Name := pagefilePath ++ slash :: name

/-- The name `page%d`. -/
def pageEntry (n : ℕ) : Name := [112, 97, 103, 101] ++ decimal n

/-- The size of the array `name` of a pagefile. -/
abbrev pagefileNameSize : ℕ := 32

/-- One round of the loop of `pagefile_init`. -/
def Swap.addEntry (w : Swap) (name : Name) : Swap where
  pagefiles := ⟨entryPath name, false⟩ :: w.pagefiles
  pagefileNum := w.pagefileNum + 1

/-- `pagefile_init`, for the names that `getDirEntry` returns for the indices `0, 1, ..`; `none`
when `sprintf` writes past the end of the array `name`. -/
def pagefileInit (names : List Name) : Option Swap :=
  if ∀ name ∈ names, (entryPath name).length < pagefileNameSize then
    some (names.foldl Swap.addEntry ⟨[], 0⟩)
  else none

/-- The loop of `get_pagefile` over the list, and the mark on the entry it stops at. -/
def takeUnused : List Pagefile → Option (Name × List Pagefile)
  | [] => none
  | pf :: l =>
    if pf.inuse then (takeUnused l).map fun r => (r.1, pf :: r.2)
    else some (pf.name, { pf with inuse := true } :: l)

/-- `get_pagefile` -/
def getPagefile (w : Swap) : Name × Swap :=
  match takeUnused w.pagefiles with
  | some r => (r.1, { w with pagefiles := r.2 })
  | none =>
    let name := entryPath (pageEntry w.pagefileNum)
    (name, ⟨⟨name, true⟩ :: w.pagefiles, w.pagefileNum + 1⟩)

/-- The loop of `free_pagefile`. -/
def releaseFirst (filename : Name) : List Pagefile → List Pagefile
  | [] => []
  | pf :: l =>
    if pf.name = filename then { pf with inuse := false } :: l
    else pf :: releaseFirst filename l

/-- `free_pagefile` -/
def freePagefile (w : Swap) (filename : Name) : Swap :=
  { w with pagefiles := releaseFirst filename w.pagefiles }

/-! ## The list as a set of names -/

/-- The names in the list. -/
def Swap.names (w : Swap) : List Name := w.pagefiles.map Pagefile.name

/-- A name with an entry that is in use. -/
def Swap.InUse (w : Swap) (name : Name) : Prop := ∃ pf ∈ w.pagefiles, pf.name = name ∧ pf.inuse

/-- The names are distinct and none of them is one that `get_pagefile` has yet to make. -/
structure Swap.Ok (w : Swap) : Prop where
  nodup : w.names.Nodup
  fresh : ∀ m, w.pagefileNum ≤ m → entryPath (pageEntry m) ∉ w.names

variable {w w' : Swap} {l l' : List Pagefile} {name n : Name}

theorem entryPath_injective : Function.Injective entryPath := by
  intro a b h
  have := List.append_cancel_left h
  exact (List.cons.inj this).2

theorem entryPath_pageEntry_inj {a b : ℕ} (h : entryPath (pageEntry a) = entryPath (pageEntry b)) :
    a = b :=
  decimal_injective (List.append_cancel_left (entryPath_injective h))

/-! ## `get_pagefile` -/

/-- The entry that is taken was not in use, and is the only one that changes. -/
theorem takeUnused_spec (h : takeUnused l = some (name, l')) :
    ∃ l₁ l₂, l = l₁ ++ ⟨name, false⟩ :: l₂ ∧ l' = l₁ ++ ⟨name, true⟩ :: l₂ := by
  induction l generalizing l' with
  | nil => simp [takeUnused] at h
  | cons pf l ih =>
    rw [takeUnused] at h
    split_ifs at h with huse
    · have ⟨r, hr, heq⟩ := Option.map_eq_some_iff.mp h
      have hname : r.1 = name := congrArg Prod.fst heq
      have hlist : pf :: r.2 = l' := congrArg Prod.snd heq
      have hrest : takeUnused l = some (name, r.2) := by rw [hr, ← hname]
      have ⟨l₁, l₂, hl, hl'⟩ := ih hrest
      refine ⟨pf :: l₁, l₂, ?_, ?_⟩
      · rw [hl, List.cons_append]
      · rw [← hlist, hl', List.cons_append]
    · have heq := Option.some.inj h
      have hname : pf.name = name := congrArg Prod.fst heq
      have hlist : { pf with inuse := true } :: l = l' := congrArg Prod.snd heq
      refine ⟨[], l, ?_, ?_⟩
      · rw [List.nil_append, ← hname]
        simp only [Bool.not_eq_true] at huse
        rw [← huse]
      · rw [List.nil_append, ← hlist, ← hname]

theorem takeUnused_names (h : takeUnused l = some (name, l')) :
    l'.map Pagefile.name = l.map Pagefile.name := by
  have ⟨l₁, l₂, hl, hl'⟩ := takeUnused_spec h
  rw [hl, hl', List.map_append, List.map_append, List.map_cons, List.map_cons]

/-- What `get_pagefile` does: it takes a name that is not in use and keeps the list in order. -/
structure GetSpec (w : Swap) (name : Name) (w' : Swap) : Prop where
  ok : w'.Ok
  unused : ¬ w.InUse name
  inUse : ∀ n, w'.InUse n ↔ w.InUse n ∨ n = name

theorem getPagefile_spec (hok : w.Ok) : GetSpec w (getPagefile w).1 (getPagefile w).2 := by
  match h : takeUnused w.pagefiles with
  | some (name, l') =>
    have hget : getPagefile w = (name, { w with pagefiles := l' }) := by simp [getPagefile, h]
    have hnames : Swap.names { w with pagefiles := l' } = w.names := takeUnused_names h
    have ⟨l₁, l₂, hl, hl'⟩ := takeUnused_spec h
    rw [hget]
    refine ⟨⟨?_, ?_⟩, ?_, ?_⟩
    · rw [hnames]
      exact hok.nodup
    · rw [hnames]
      exact hok.fresh
    · -- a second entry of the same name would break distinctness
      intro ⟨pf, hpf, hname, huse⟩
      have hnodup := hok.nodup
      rw [Swap.names, hl, List.map_append, List.map_cons, List.nodup_middle,
        List.nodup_cons, ← List.map_append] at hnodup
      rw [hl, List.mem_append, List.mem_cons] at hpf
      rcases hpf with hmem | heq | hmem
      · exact hnodup.1 (List.mem_map.mpr ⟨pf, List.mem_append_left _ hmem, hname⟩)
      · rw [heq] at huse
        simp at huse
      · exact hnodup.1 (List.mem_map.mpr ⟨pf, List.mem_append_right _ hmem, hname⟩)
    · intro n
      simp only [Swap.InUse, hl, hl', List.mem_append, List.mem_cons]
      constructor
      · rintro ⟨pf, hmem | heq | hmem, hname, huse⟩
        · exact Or.inl ⟨pf, Or.inl hmem, hname, huse⟩
        · rw [heq] at hname
          exact Or.inr hname.symm
        · exact Or.inl ⟨pf, Or.inr (Or.inr hmem), hname, huse⟩
      · rintro (⟨pf, hmem | heq | hmem, hname, huse⟩ | heq)
        · exact ⟨pf, Or.inl hmem, hname, huse⟩
        · rw [heq] at huse
          simp at huse
        · exact ⟨pf, Or.inr (Or.inr hmem), hname, huse⟩
        · exact ⟨⟨name, true⟩, Or.inr (Or.inl rfl), heq.symm, rfl⟩
  | none =>
    have hget : getPagefile w = (entryPath (pageEntry w.pagefileNum),
        ⟨⟨entryPath (pageEntry w.pagefileNum), true⟩ :: w.pagefiles, w.pagefileNum + 1⟩) := by
      simp [getPagefile, h]
    have hnew := hok.fresh w.pagefileNum le_rfl
    rw [hget]
    refine ⟨⟨?_, ?_⟩, ?_, ?_⟩
    · exact List.nodup_cons.mpr ⟨hnew, hok.nodup⟩
    · intro m hm hmem
      have hm' : w.pagefileNum + 1 ≤ m := hm
      rcases List.mem_cons.mp hmem with heq | hold
      · have := entryPath_pageEntry_inj heq
        omega
      · exact hok.fresh m (by omega) hold
    · intro ⟨pf, hpf, hname, _⟩
      exact hnew (List.mem_map.mpr ⟨pf, hpf, hname⟩)
    · intro n
      simp only [Swap.InUse, List.mem_cons]
      constructor
      · rintro ⟨pf, heq | hmem, hname, huse⟩
        · rw [heq] at hname
          exact Or.inr hname.symm
        · exact Or.inl ⟨pf, hmem, hname, huse⟩
      · rintro (⟨pf, hmem, hname, huse⟩ | heq)
        · exact ⟨pf, Or.inr hmem, hname, huse⟩
        · exact ⟨_, Or.inl rfl, heq.symm, rfl⟩

/-! ## `free_pagefile` -/

theorem releaseFirst_names (l : List Pagefile) :
    (releaseFirst name l).map Pagefile.name = l.map Pagefile.name := by
  induction l with
  | nil => rfl
  | cons pf l ih =>
    rw [releaseFirst]
    split_ifs
    · rw [List.map_cons, List.map_cons]
    · rw [List.map_cons, List.map_cons, ih]

/-- With distinct names the entry that is released is the only one of its name. -/
theorem exists_mem_releaseFirst (hnodup : (l.map Pagefile.name).Nodup) :
    (∃ pf ∈ releaseFirst name l, pf.name = n ∧ pf.inuse)
      ↔ (∃ pf ∈ l, pf.name = n ∧ pf.inuse) ∧ n ≠ name := by
  induction l with
  | nil => simp [releaseFirst]
  | cons pf l ih =>
    rw [List.map_cons, List.nodup_cons] at hnodup
    have hnot : pf.name = n → ¬ ∃ q ∈ l, q.name = n ∧ q.inuse := by
      intro heq ⟨q, hq, hname, _⟩
      exact hnodup.1 (List.mem_map.mpr ⟨q, hq, hname.trans heq.symm⟩)
    rw [releaseFirst]
    split_ifs with hname
    · simp only [List.exists_mem_cons_iff, Bool.false_eq_true, and_false, false_or]
      constructor
      · intro h
        refine ⟨Or.inr h, fun heq => hnot (hname.trans heq.symm) h⟩
      · rintro ⟨⟨heq, _⟩ | h, hne⟩
        · exact absurd (heq.symm.trans hname) hne
        · exact h
    · rw [List.exists_mem_cons_iff, List.exists_mem_cons_iff, ih hnodup.2]
      constructor
      · rintro (⟨heq, huse⟩ | ⟨h, hne⟩)
        · exact ⟨Or.inl ⟨heq, huse⟩, fun hn => hname (heq.trans hn)⟩
        · exact ⟨Or.inr h, hne⟩
      · rintro ⟨h | h, hne⟩
        · exact Or.inl h
        · exact Or.inr ⟨h, hne⟩

theorem freePagefile_ok (hok : w.Ok) : (freePagefile w name).Ok := by
  have hnames : (freePagefile w name).names = w.names := releaseFirst_names _
  constructor
  · rw [hnames]
    exact hok.nodup
  · rw [hnames]
    exact hok.fresh

theorem freePagefile_inUse (hok : w.Ok) :
    (freePagefile w name).InUse n ↔ w.InUse n ∧ n ≠ name :=
  exists_mem_releaseFirst hok.nodup

/-! ## `pagefile_init` -/

/-- The directory of pagefiles has distinct names, and none that `get_pagefile` will form: its
counter starts at the number of entries. -/
structure BootNames (names : List Name) : Prop where
  nodup : names.Nodup
  fresh : ∀ m, names.length ≤ m → pageEntry m ∉ names

theorem foldl_addEntry (names : List Name) (w : Swap) :
    (names.foldl Swap.addEntry w).pagefiles
        = (names.reverse.map fun name => ⟨entryPath name, false⟩) ++ w.pagefiles
      ∧ (names.foldl Swap.addEntry w).pagefileNum = w.pagefileNum + names.length := by
  induction names generalizing w with
  | nil => simp
  | cons name names ih =>
    have ⟨hlist, hnum⟩ := ih (w.addEntry name)
    constructor
    · rw [List.foldl_cons, hlist, Swap.addEntry]
      simp
    · rw [List.foldl_cons, hnum, List.length_cons]
      show w.pagefileNum + 1 + names.length = w.pagefileNum + (names.length + 1)
      omega

theorem pagefileInit_pagefiles {names : List Name} (h : pagefileInit names = some w) :
    w.pagefiles = names.reverse.map (fun name => ⟨entryPath name, false⟩)
      ∧ w.pagefileNum = names.length := by
  rw [pagefileInit] at h
  split_ifs at h with hfit
  have ⟨hlist, hnum⟩ := foldl_addEntry names ⟨[], 0⟩
  rw [← Option.some.inj h]
  exact ⟨by simpa using hlist, by simpa using hnum⟩

theorem pagefileInit_ok {names : List Name} (h : pagefileInit names = some w)
    (hboot : BootNames names) : w.Ok := by
  have ⟨hlist, hnum⟩ := pagefileInit_pagefiles h
  have hnames : w.names = (names.map entryPath).reverse := by
    rw [Swap.names, hlist, List.map_map, ← List.map_reverse]
    rfl
  constructor
  · rw [hnames, List.nodup_reverse]
    exact hboot.nodup.map entryPath_injective
  · intro m hm
    rw [hnames, List.mem_reverse, List.mem_map_of_injective entryPath_injective]
    exact hboot.fresh m (by omega)

theorem pagefileInit_inUse {names : List Name} (h : pagefileInit names = some w) :
    ¬ w.InUse n := by
  intro ⟨pf, hpf, _, huse⟩
  rw [(pagefileInit_pagefiles h).1, List.mem_map] at hpf
  have ⟨_, _, heq⟩ := hpf
  rw [← heq] at huse
  simp at huse

end SeL4Sys

import SeL4Sys.DirGrow

/-!
# Removing the file that a path names

`syscall_unlink` looks its argument up twice, with `readInode` and with the loop of `freeInode`. Both
stop at the first entry whose name begins with the last component. They agree on the entry, and
what goes with it is the file it names; but it is the named file only when the lookup is exact.
-/

namespace SeL4Sys

open Bytes CString Loop NameTree

variable {s : FS} {o x : ℕ} {c : List UInt8} {ds : List (List UInt8)}

/-- The call returns, removes at most the entry of the directory at `o` that is named `c`, together
with its file, and returns `-1` when there is no such entry. -/
def UnlinksNamed (s : FS) (o : ℕ) (c path : List UInt8) (l : Locals) : Prop :=
  ∃ r s', syscallUnlink s path l = some (r, s')
    ∧ (r = 0 → ∃ t x, slotName s.disk (loadInode s.disk o) t = c ∧ Unlinked s s' o t x)
    ∧ ((∀ t, Live s.disk (loadInode s.disk o) t → slotName s.disk (loadInode s.disk o) t ≠ c) → r = -1)

/-- What the names lead to, each to the first entry that begins with it, is a directory with entries,
or it is what they lead to by exact names, and the path of the directory fits the array for it. -/
def LeadsExactly (s : FS) (ds : List (List UInt8)) (c : List UInt8) : Prop :=
  ∀ x, walk s.disk s.rootOffset (ds ++ [c]) = some x → ¬ NonEmptyDir s.disk x →
    getFatherPath (absPath ds ++ slash :: c) ≠ none ∧ Resolves s.disk s.rootOffset (ds ++ [c]) x

theorem FsOk.treeOk (h : FsOk s) : TreeOk s.disk s.rootOffset :=
  fun _ _ hr hdir => h.dirOk (h.inUse_of_resolves h.tree.root_used hr) hdir

/-- An inode in use is named in one place only. -/
theorem FsOk.slot_unique (h : FsOk s) {o' t t' : ℕ} (ho : s.InUse o) (hdir : IsDir s.disk o)
    (ht : Live s.disk (loadInode s.disk o) t) (ho' : s.InUse o') (hdir' : IsDir s.disk o')
    (ht' : Live s.disk (loadInode s.disk o') t')
    (heq : slotInode s.disk (loadInode s.disk o) t = slotInode s.disk (loadInode s.disk o') t') :
    o = o' ∧ t = t' :=
  h.tree.once _ _ _ _ _ _ _ (treeOf_entry_eq ⟨ho, hdir, ht⟩)
    (treeOf_entry_eq_some.mpr ⟨⟨ho', hdir', ht'⟩, rfl, heq.symm⟩)

/-- The entry that the lookup comes to is the named one when the lookup is exact. -/
theorem Unlinked.of_resolves (h : FsOk s) {o' t : ℕ} {s' : FS} (hunlinked : Unlinked s s' o' t x)
    (ho' : s.InUse o' ∧ IsDir s.disk o') (ho : Resolves s.disk s.rootOffset ds o)
    (hx : Resolves s.disk s.rootOffset (ds ++ [c]) x) :
    ∃ t, Live s.disk (loadInode s.disk o) t ∧ slotName s.disk (loadInode s.disk o) t = c
      ∧ Unlinked s s' o t x := by
  obtain ⟨o₁, ho₁, o₂, he, rfl⟩ := resolves_append.mp hx
  obtain ⟨hdir, u, hu, hname, hux⟩ := ho₁.det h.treeOk ho ▸ he
  have ⟨heq, heq'⟩ := h.slot_unique (h.inUse_of_resolves h.tree.root_used ho) hdir hu ho'.1 ho'.2
    hunlinked.live (hux.trans hunlinked.target.symm)
  subst heq heq'
  exact ⟨u, hu, hname, hunlinked⟩

/-- What was removed determines the file. -/
theorem Removed.det {s' : FS} {x' : ℕ} (h : Removed s s' x) (h' : Removed s s' x') : x = x' := by
  by_contra hne
  have hgone : ¬ s'.InUse x := fun hused => ((h.inUse x).mp hused).2 rfl
  exact hgone ((h'.inUse x).mpr ⟨h.was, hne⟩)

/-- **Removing the named file.** In a well-formed tree, for a path whose directory exists by exact
names, the call does what it says exactly when its lookup leads to the named file, to a directory
with entries, or nowhere. -/
theorem syscallUnlink_named_iff {s : FS} (h : FsOk s) {ds : List (List UInt8)}
    (hds : ∀ x ∈ ds, IsName x) {c : List UInt8} (hc : IsName c) {o : ℕ}
    (ho : Resolves s.disk s.rootOffset ds o) (hdir : IsDir s.disk o)
    (hpass : PassesNoFile s.disk s.rootOffset (absPath ds ++ slash :: c)) (l : Locals) :
    UnlinksNamed s o c (absPath ds ++ slash :: c) l ↔ LeadsExactly s ds c := by
  have hzero := absPath_name_no_zero hds hc
  have hcase := syscallUnlink_case h hds hc hzero hpass l
  unfold UnlinksNamed LeadsExactly
  generalize syscallUnlink s (absPath ds ++ slash :: c) l = r at hcase
  cases hcase with
  | nowhere hwalk =>
    refine iff_of_true ⟨-1, s, rfl, (fun h => nomatch h), fun _ => rfl⟩ fun x hx => ?_
    rw [hwalk] at hx
    cases hx
  | nonempty x hwalk hx =>
    refine iff_of_true ⟨-1, s, rfl, (fun h => nomatch h), fun _ => rfl⟩ fun y hy hne => absurd hx ?_
    rw [hwalk, Option.some.injEq] at hy
    rwa [hy]
  | long x hwalk hx hlong =>
    refine iff_of_false ?_ fun hall => (hall x hwalk hx).1 hlong
    rintro ⟨r, s', hr, _⟩
    cases hr
  | removed o' t x s' hwalk hx hfather ho' hdir' hunlinked =>
    constructor
    · rintro ⟨r, s'', hr, hnamed, hnone⟩ y hy _
      rw [Option.some.injEq, Prod.mk.injEq] at hr
      obtain ⟨u, x', hname, hu⟩ := hnamed hr.1.symm
      rw [← hr.2] at hu
      rw [hwalk, Option.some.injEq] at hy
      -- one call removes one file
      have hx' : y = x' := hy ▸ hunlinked.removed.det hu.removed
      refine ⟨hfather, resolves_append.mpr ⟨o, ho, y, ⟨hdir, u, hu.live, hname, ?_⟩, rfl⟩⟩
      rw [hx']
      exact hu.target
    · intro hall
      obtain ⟨u, hu, hname, hunlinked'⟩ := hunlinked.of_resolves h hdir' ho (hall x hwalk hx).2
      refine ⟨0, s', rfl, fun _ => ⟨u, x, hname, hunlinked'⟩, fun hnone => ?_⟩
      exact absurd hname (hnone u hu)

/-! ## Two root directories -/

theorem resolves_root : Resolves s.disk s.rootOffset [] s.rootOffset := rfl

/-- The directory with the one file `a`. -/
theorem syscallUnlink_named_iff_a :
    UnlinksNamed (dirFS 1) (dirFS 1).rootOffset [97] (absPath [] ++ slash :: [97]) zeroLocals := by
  have h : FsOk (dirFS 1) := dirFS_ok (by norm_num)
  have hc : IsName [97] := isName_a
  refine (syscallUnlink_named_iff h (by simp) hc resolves_root h.root_isDir
    (passesNoFile_entry h.root_isDir hc.no_slash) zeroLocals).mpr fun x hx _ => ⟨by decide, ?_⟩
  have hfirst : firstBegins (dirFS 1).disk (loadInode (dirFS 1).disk (dirFS 1).rootOffset) [97]
      = some x := by
    simpa only [List.nil_append, walk, Option.bind_fun_some] using hx
  obtain ⟨t, ht, _, hslot⟩ := firstBegins_eq_some hfirst
  refine ⟨x, ⟨h.root_isDir, t, ht, ?_, hslot⟩, rfl⟩
  rw [dirFS_root] at ht ⊢
  have ht₀ : t < 1 := (dirDisk_live (by norm_num)).mp ht
  rw [show t = 0 by omega]
  exact dirDisk_slotName (by norm_num) (by norm_num)

/-- The file `bc` is created next to `a`. -/
theorem open_bc : ∃ s' t x,
    runDir (dirFS 1) [.open ⟨[slash, 98, 99], no_zero_of_all rfl⟩ 64 zeroLocals] = some s' ∧ FsOk s'
      ∧ treeOf s' = (treeOf (dirFS 1)).link (dirFS 1).rootOffset t [98, 99] x
      ∧ s'.rootOffset = (dirFS 1).rootOffset ∧ (loadInode s'.disk x).type = regularType := by
  have h : FsOk (dirFS 1) := dirFS_ok (by norm_num)
  have hname : IsName [98, 99] := ⟨by decide, by decide, no_zero_of_all rfl⟩
  have hfirst := dirFS_firstBegins (c := [98, 99]) (by norm_num : 1 ≤ 8) (by decide)
  have hfree := dirFS_freeSlot (by norm_num : 1 < 8)
  rw [← dirFS_rootOffset 1] at hfirst hfree
  obtain ⟨dest, hopen⟩ := syscallOpen_create h [] (by simp) hname (no_zero_of_all rfl)
    (passesNoFile_entry h.root_isDir (by decide)) (fun o hleads => by
      rw [absPath_nil, List.nil_append, leads_last_iff hname, hfirst] at hleads
      cases hleads) (by decide) 64 (by decide) (by decide) zeroLocals
  obtain ⟨t, b, x, s', dest', hrun, ht, hzero, hb, hadd⟩ := allocInode_added h h.tree.root_used
    h.root_isDir hname hfirst hfree (h.inodes.hits_of_nearHole (dirFS_nearHole (by norm_num)))
    (Or.inl rfl) dest.destInode dest.inodeOffset zeroLocals.dirBuffer zeroLocals.stack
  have hok : FsOk s' := by
    refine FsOk.link hadd h h.tree.root_used h.root_isDir ht hb hzero hname.no_zero (by decide)
      (Or.inl rfl) fun u hu hsame => ?_
    exact hu.firstBegins_ne_none (hsame ▸ List.prefix_refl _) hfirst
  refine ⟨s', t, x, ?_, hok, ?_, ?_, hadd.type_eq⟩
  · have hmode : (if isDirMode 64 = true then directoryType else regularType) = regularType := by
      decide
    rw [absPath_nil, List.nil_append, walk, Option.elim_some, hmode] at hopen
    simp only [hrun, if_true] at hopen
    rw [runDir, execDir, hopen]
    rfl
  · exact hadd.treeOf_eq h h.tree.root_used h.root_isDir ht hb hname.no_zero (by decide)
  · rw [rootOffset_eq hok.inodes.formatted, hadd.sectorNum, ← rootOffset_eq h.inodes.formatted]

/-- Once `/bc` exists, removing `/b` removes it. -/
theorem unlink_removes_longer_name : ∃ s',
    runDir (dirFS 1) [.open ⟨[slash, 98, 99], no_zero_of_all rfl⟩ 64 zeroLocals] = some s' ∧ FsOk s'
      ∧ IsDir s'.disk s'.rootOffset
      ∧ ¬ UnlinksNamed s' s'.rootOffset [98] (absPath [] ++ slash :: [98]) zeroLocals := by
  obtain ⟨s', t, x, hrun, h, htree, hroot, htype⟩ := open_bc
  refine ⟨s', hrun, h, h.root_isDir, ?_⟩
  have hc : IsName [98] := ⟨by decide, by decide, no_zero_of_all rfl⟩
  -- the entries of the root directory are `a` and `bc`
  have hentries : ∀ u, Live s'.disk (loadInode s'.disk s'.rootOffset) u →
      (slotName s'.disk (loadInode s'.disk s'.rootOffset) u = [98, 99]
        ∧ slotInode s'.disk (loadInode s'.disk s'.rootOffset) u = x)
      ∨ slotName s'.disk (loadInode s'.disk s'.rootOffset) u = [97] := by
    intro u hu
    have he := treeOf_entry_eq ⟨h.tree.root_used, h.root_isDir, hu⟩
    rw [htree] at he
    rcases Tree.link_entry_cases he with ⟨_, _, heq⟩ | hold
    · rw [Prod.mk.injEq] at heq
      exact Or.inl heq
    · obtain ⟨_, hu₀, hname, _⟩ := (dirFS_entry (by norm_num)).mp hold
      rw [show u = 0 by omega] at hname
      exact Or.inr (by rw [show u = 0 by omega]; exact hname)
  have hlive : ∃ u, Live s'.disk (loadInode s'.disk s'.rootOffset) u
      ∧ slotName s'.disk (loadInode s'.disk s'.rootOffset) u = [98, 99] := by
    have he : (treeOf s').entry s'.rootOffset t = some ([98, 99], x) := by
      rw [htree, hroot]
      exact Tree.link_entry_self
    obtain ⟨⟨_, _, hu⟩, hname, _⟩ := treeOf_entry_eq_some.mp he
    exact ⟨t, hu, hname⟩
  have hexact : ∀ u, Live s'.disk (loadInode s'.disk s'.rootOffset) u →
      slotName s'.disk (loadInode s'.disk s'.rootOffset) u ≠ [98] := by
    intro u hu hname
    rcases hentries u hu with ⟨heq, _⟩ | heq
    · rw [hname] at heq
      cases heq
    · rw [hname] at heq
      cases heq
  have hpass : PassesNoFile s'.disk s'.rootOffset (absPath [] ++ slash :: [98]) :=
    passesNoFile_entry h.root_isDir hc.no_slash
  have hcase := syscallUnlink_case h (by simp) hc (no_zero_of_all rfl) hpass zeroLocals
  rintro ⟨r, s'', hr, _, hnone⟩
  rw [hr, hnone hexact] at hcase
  -- the first entry that begins with `b` is that of `bc`
  have hwalk : ∀ y, walk s'.disk s'.rootOffset ([] ++ [[98]]) = y ↔
      firstBegins s'.disk (loadInode s'.disk s'.rootOffset) [98] = y := by
    intro y
    simp only [List.nil_append, walk, Option.bind_fun_some]
  cases hcase with
  | nowhere hw =>
    obtain ⟨u, hu, hname⟩ := hlive
    exact hu.firstBegins_ne_none (by rw [hname]; decide) ((hwalk _).mp hw)
  | nonempty y hw hne =>
    obtain ⟨u, hu, hbegins, rfl⟩ := firstBegins_eq_some ((hwalk _).mp hw)
    rcases hentries u hu with ⟨_, hx⟩ | hname
    · rw [NonEmptyDir, hx, htype] at hne
      exact absurd hne.1 (by decide)
    · rw [hname] at hbegins
      exact absurd hbegins (by decide)

end SeL4Sys

import SeL4Sys.Lookup

/-!
# The types of the inodes on a path

`readInode` tests the type of the inode it has come to only when another '/' follows the next
component. What stands before the last '/' of a path is therefore never tested: its data are
searched for the last component, and a path with a '/' at its end leads to a regular file as well.
-/

namespace SeL4Sys

open Bytes CString Loop

variable {s : FS} {dir ino : Inode} {c r : List UInt8} {b : Buf} {n o : ℕ}

/-! ## What a lookup visits -/

/-- One pass of the loop of `readInode` that finds an entry: the inode whose blocks it searches, the
inode of the entry, and whether a '/' follows the component. -/
structure Visit where
  dir : Inode
  found : Inode
  slashed : Bool

/-- The visit keeps to directories. -/
def Visit.Ok (v : Visit) : Prop :=
  v.dir.type ≠ regularType ∧ (v.slashed = true → v.found.type = directoryType)

instance : DecidablePred Visit.Ok := fun v =>
  inferInstanceAs (Decidable (v.dir.type ≠ regularType ∧ (v.slashed = true → v.found.type = directoryType)))

/-- The passes of `lookupLoop` that find an entry. -/
def visits (s : FS) : ℕ → List UInt8 → Inode → Buf → List Visit
  | _, [], _, _ => []
  | 0, _ :: _, _, _ => []
  | fuel + 1, b :: bs, destInode, buffer =>
    let chr := stringChr (b :: bs) slash
    if chr.1 = 0 ∧ chr.2 = 0 then []
    else if chr.1 = 0 ∧ destInode.type = regularType then []
    else
      match scanDir s destInode (matchesName (b :: bs) chr.2) buffer with
      | .failed => []
      | .missing _ => []
      | .found _ j buffer =>
        let found := loadInode s.disk (entryInode (dirEntry buffer j))
        if chr.1 = 0 then
          ⟨destInode, found, true⟩ :: visits s fuel ((b :: bs).drop (chr.2 + 1)) found buffer
        else [⟨destInode, found, false⟩]

/-- The passes that `readInode` makes for a path. -/
def readInodeVisits (s : FS) (destFilePath : List UInt8) (buffer : Buf) : List Visit :=
  visits s destFilePath.length (destFilePath.drop 1) (loadInode s.disk s.rootOffset) buffer

/-! ## Where the names of a path lead -/

/-- The entry that the search for a name comes to, and the block buffer after it. -/
def enter (s : FS) (dir : Inode) (name : List UInt8) (buffer : Buf) : Option (Inode × Buf) :=
  match scanDir s dir (matchesName name name.length) buffer with
  | .found _ j buffer => some (loadInode s.disk (entryInode (dirEntry buffer j)), buffer)
  | _ => none

/-- The inode to which names lead one after the other. -/
def reach (s : FS) : List (List UInt8) → Inode → Buf → Option (Inode × Buf)
  | [], dir, buffer => some (dir, buffer)
  | c :: cs, dir, buffer => (enter s dir c buffer).bind fun q => reach s cs q.1 q.2

/-- The parts of a string that a '/' follows. -/
def slashedNames : List UInt8 → List (List UInt8)
  | [] => []
  | b :: bs =>
    if b = slash then [] :: slashedNames bs
    else
      match slashedNames bs with
      | [] => []
      | c :: cs => (b :: c) :: cs

theorem slashedNames_of_notMem (h : slash ∉ c) : slashedNames c = [] := by
  induction c with
  | nil => rfl
  | cons b bs ih =>
    rw [List.mem_cons, not_or] at h
    rw [slashedNames, if_neg (Ne.symm h.1), ih h.2]

theorem slashedNames_append (h : slash ∉ c) (r : List UInt8) :
    slashedNames (c ++ slash :: r) = c :: slashedNames r := by
  induction c with
  | nil => rfl
  | cons b bs ih =>
    rw [List.mem_cons, not_or] at h
    rw [List.cons_append, slashedNames, if_neg (Ne.symm h.1), ih h.2]

/-- A pass compares with the component alone, although it is given the rest of the path. -/
theorem matchesName_append (c r : List UInt8) :
    matchesName (c ++ r) c.length = matchesName c c.length := by
  funext e
  have hbytes : ∀ i, i < c.length → bufOf (c ++ r) i = bufOf c i := by
    intro i hi
    rw [bufOf_getElem hi, bufOf_getElem (by simp; omega), List.getElem_append_left hi]
  rw [matchesName, matchesName, strncmp_congr (fun _ _ => rfl) hbytes]

/-! ## The passes of a lookup that succeeds -/

/-- How a call of the loop that returns 0 begins, and what it visits. -/
inductive Walk (s : FS) (n : ℕ) (r : List UInt8) (o : ℕ) (dir : Inode) (b : Buf) : Prop
  | nil (hr : r = []) (hvisits : visits s n r dir b = [])
      (hloop : lookupLoop s n r o dir b = ⟨0, o, dir⟩)
  | last (o' : ℕ) (hr : r ≠ []) (hslash : slash ∉ r)
      (hvisits : visits s n r dir b = [⟨dir, loadInode s.disk o', false⟩])
      (hloop : lookupLoop s n r o dir b = ⟨0, o', loadInode s.disk o'⟩)
  | more (c r' : List UInt8) (found : Inode) (o' m : ℕ) (b' : Buf) (hn : n = m + 1)
      (hr : r = c ++ slash :: r') (hslash : slash ∉ c) (htype : dir.type ≠ regularType)
      (hfound : found = loadInode s.disk o') (henter : enter s dir c b = some (found, b'))
      (hvisits : visits s n r dir b = ⟨dir, found, true⟩ :: visits s m r' found b')
      (hloop : lookupLoop s n r o dir b = lookupLoop s m r' o' found b')

theorem lookupLoop_walk_last (hmem : slash ∉ r) (hr : r ≠ [])
    (hret : (lookupLoop s n r o dir b).ret = 0) : Walk s n r o dir b := by
  obtain ⟨x, xs, rfl⟩ := List.exists_cons_of_ne_nil hr
  cases n with
  | zero =>
    rw [lookupLoop] at hret
    cases hret
  | succ n =>
    have hchr := stringChr_of_notMem hmem
    have hvis := visits.eq_def s (n + 1) (x :: xs) dir b
    have hloop := lookupLoop.eq_def s (n + 1) (x :: xs) o dir b
    simp only [hchr] at hvis hloop
    rw [if_neg (by norm_num), if_neg (by norm_num)] at hvis hloop
    cases hscan : scanDir s dir (matchesName (x :: xs) (x :: xs).length) b with
    | failed =>
      rw [hloop, hscan] at hret
      cases hret
    | missing b' =>
      rw [hloop, hscan] at hret
      cases hret
    | found i j b' =>
      rw [hscan] at hvis hloop
      simp only at hvis hloop
      rw [if_neg (by norm_num)] at hvis hloop
      exact .last _ hr hmem hvis hloop

theorem lookupLoop_walk_more (hc : slash ∉ c) {r' : List UInt8} (hr : r = c ++ slash :: r')
    (hret : (lookupLoop s n r o dir b).ret = 0) : Walk s n r o dir b := by
  have hne : r ≠ [] := by simp [hr]
  have hchr := stringChr_append hc r'
  have hdrop : (c ++ slash :: r').drop (c.length + 1) = r' := by
    rw [List.drop_append]
    simp
  have henter := enter.eq_def s dir c b
  rw [← matchesName_append c (slash :: r')] at henter
  rw [← hr] at hchr hdrop henter
  obtain ⟨x, xs, rfl⟩ := List.exists_cons_of_ne_nil hne
  cases n with
  | zero =>
    rw [lookupLoop] at hret
    cases hret
  | succ n =>
    have hvis := visits.eq_def s (n + 1) (x :: xs) dir b
    have hloop := lookupLoop.eq_def s (n + 1) (x :: xs) o dir b
    simp only [hchr, hdrop, true_and] at hvis hloop
    -- The two tests in front of the search end the lookup with `-1`.
    by_cases hzero : c.length = 0
    · rw [hloop, if_pos hzero] at hret
      cases hret
    by_cases htype : dir.type = regularType
    · rw [hloop, if_neg hzero, if_pos htype] at hret
      cases hret
    rw [if_neg hzero, if_neg htype] at hvis hloop
    cases hscan : scanDir s dir (matchesName (x :: xs) c.length) b with
    | failed =>
      rw [hloop, hscan] at hret
      cases hret
    | missing b' =>
      rw [hloop, hscan] at hret
      cases hret
    | found i j b' =>
      rw [hscan] at hvis hloop henter
      exact .more c r' _ _ n b' rfl hr hc htype rfl henter hvis hloop

theorem lookupLoop_walk (hret : (lookupLoop s n r o dir b).ret = 0) : Walk s n r o dir b := by
  by_cases hr : r = []
  · rw [hr]
    exact .nil rfl (by rw [visits]) (by rw [lookupLoop])
  by_cases hmem : slash ∈ r
  · obtain ⟨c, r', hsplit, hc⟩ := List.eq_append_cons_of_mem hmem
    exact lookupLoop_walk_more hc hsplit hret
  · exact lookupLoop_walk_last hmem hr hret

/-! ## When a lookup keeps to directories -/

/-- What stands before a '/' is a file or a directory, and what stands before the last '/' is not a
regular file. The path `/` has no component. -/
structure DirectoriesFirst (s : FS) (r : List UInt8) (dir : Inode) (b : Buf) : Prop where
  typed : ∀ cs, cs ≠ [] → cs <+: slashedNames r → ∀ q, reach s cs dir b = some q →
    q.1.type = regularType ∨ q.1.type = directoryType
  last : r ≠ [] → ∀ q, reach s (slashedNames r) dir b = some q → q.1.type ≠ regularType

theorem reach_cons {found : Inode} {b' : Buf} (henter : enter s dir c b = some (found, b'))
    (cs : List (List UInt8)) : reach s (c :: cs) dir b = reach s cs found b' := by
  rw [reach, henter, Option.bind_some]

/-- Before a further '/' the code tests the type itself. -/
theorem type_of_slash_mem (hmem : slash ∈ r) (hret : (lookupLoop s n r o dir b).ret = 0) :
    dir.type ≠ regularType := by
  cases lookupLoop_walk hret with
  | nil hr =>
    rw [hr] at hmem
    cases hmem
  | last found hr hslash => exact absurd hmem hslash
  | more c r' found o' m b' hn hr hslash htype => exact htype

/-- One step of the condition along the path. -/
theorem directoriesFirst_more {r' : List UInt8} {found : Inode} {b' : Buf}
    (hr : r = c ++ slash :: r') (hslash : slash ∉ c) (henter : enter s dir c b = some (found, b'))
    (hnext : slash ∈ r' → found.type ≠ regularType) :
    DirectoriesFirst s r dir b ↔ found.type = directoryType ∧ DirectoriesFirst s r' found b' := by
  have hnames : slashedNames r = c :: slashedNames r' := by rw [hr, slashedNames_append hslash]
  constructor
  · intro h
    have htyped : found.type = regularType ∨ found.type = directoryType := by
      apply h.typed [c] (List.cons_ne_nil _ _) (by simp [hnames]) (found, b')
      rw [reach_cons henter, reach]
    have hlast : ∀ q, reach s (slashedNames r') found b' = some q → q.1.type ≠ regularType := by
      intro q hq
      apply h.last (by simp [hr]) q
      rwa [hnames, reach_cons henter]
    refine ⟨?_, ?_, fun _ => hlast⟩
    · -- the inode is not regular: it is what the path ends in, or the next pass has tested it
      by_cases hmem : slash ∈ r'
      · exact htyped.resolve_left (hnext hmem)
      · rw [slashedNames_of_notMem hmem] at hlast
        exact htyped.resolve_left (hlast (found, b') rfl)
    · intro cs hne hpre q hq
      have hpre' : c :: cs <+: slashedNames r := by
        rw [hnames, List.cons_prefix_cons]
        exact ⟨rfl, hpre⟩
      apply h.typed (c :: cs) (List.cons_ne_nil _ _) hpre' q
      rwa [reach_cons henter]
  · intro ⟨htype, h⟩
    have hnot : found.type ≠ regularType := by
      rw [htype]
      decide
    refine ⟨?_, ?_⟩
    · intro cs hne hpre q hq
      obtain ⟨x, xs, rfl⟩ := List.exists_cons_of_ne_nil hne
      rw [hnames, List.cons_prefix_cons] at hpre
      rw [hpre.1, reach_cons henter] at hq
      by_cases hxs : xs = []
      · rw [hxs, reach, Option.some.injEq] at hq
        rw [← hq]
        exact Or.inr htype
      · exact h.typed xs hxs hpre.2 q hq
    · intro _ q hq
      rw [hnames, reach_cons henter] at hq
      by_cases hr' : r' = []
      · rw [hr', slashedNames, reach, Option.some.injEq] at hq
        rwa [← hq]
      · exact h.last hr' q hq

theorem lookupLoop_visits_iff (hret : (lookupLoop s n r o dir b).ret = 0) :
    (∀ v ∈ visits s n r dir b, v.Ok) ↔ DirectoriesFirst s r dir b := by
  induction n using Nat.strong_induction_on generalizing r o dir b with
  | _ n ih =>
    cases lookupLoop_walk hret with
    | nil hr hvisits hloop =>
      rw [hvisits, hr]
      refine ⟨fun _ => ⟨?_, fun h => absurd rfl h⟩, fun _ v hv => nomatch hv⟩
      intro cs hne hpre
      exact absurd (List.prefix_nil.mp hpre) hne
    | last found hr hslash hvisits hloop =>
      rw [hvisits, List.forall_mem_singleton]
      constructor
      · intro h
        refine ⟨?_, ?_⟩
        · intro cs hne hpre
          rw [slashedNames_of_notMem hslash] at hpre
          exact absurd (List.prefix_nil.mp hpre) hne
        · intro _ q hq
          rw [slashedNames_of_notMem hslash, reach, Option.some.injEq] at hq
          rw [← hq]
          exact h.1
      · intro h
        refine ⟨h.last hr (dir, b) ?_, fun h => nomatch h⟩
        rw [slashedNames_of_notMem hslash, reach]
    | more c r' found o' m b' hn hr hslash htype hfound henter hvisits hloop =>
      rw [hloop] at hret
      rw [hvisits, List.forall_mem_cons, ih m (by omega) hret,
        directoriesFirst_more hr hslash henter fun hmem => type_of_slash_mem hmem hret]
      exact and_congr_left fun _ => ⟨fun h => h.2 rfl, fun h => ⟨htype, fun _ => h⟩⟩

/-- A path that `readInode` finds starts with a '/'. -/
theorem readInode_eq_lookupLoop {dest : Inode} {path : List UInt8}
    (hret : (readInode s dest path b).ret = 0) :
    readInode s dest path b = lookupLoop s path.length (path.drop 1) s.rootOffset
      (loadInode s.disk s.rootOffset) b := by
  have hread := readInode.eq_def s dest path b
  simp only at hread
  by_cases hpath : path = []
  · rw [hread, if_pos hpath] at hret
    cases hret
  by_cases hchr : (stringChr path slash).1 = -1 ∨ (stringChr path slash).2 ≠ 0
  · rw [hread, if_neg hpath, if_pos hchr] at hret
    cases hret
  rw [if_neg hpath, if_neg hchr] at hread
  rw [not_or, not_not] at hchr
  rw [hread, hchr.2]

/-- A lookup that succeeds has searched directories only, and has come to a directory before every
'/', exactly when what stands before the last '/' of the path is no regular file and every inode
before a '/' has one of the two types. -/
theorem readInode_directories_iff {s : FS} {dest : Inode} {path : List UInt8} {b : Buf}
    (hret : (readInode s dest path b).ret = 0) :
    (∀ v ∈ readInodeVisits s path b, v.Ok)
      ↔ DirectoriesFirst s (path.drop 1) (loadInode s.disk s.rootOffset) b := by
  rw [readInode_eq_lookupLoop hret] at hret
  exact lookupLoop_visits_iff hret

/-- The path `/a/` leads to the directory `a`. -/
theorem readInode_directories_iff_a :
    let s := { treeFS [97] with disk := Function.update (treeFS [97]).disk 4224 2 }
    (readInode s Files.emptyFile [slash, 97, slash] fun _ => 0).ret = 0
      ∧ ∀ v ∈ readInodeVisits s [slash, 97, slash] fun _ => 0, v.Ok := by
  intro s
  have hret : (readInode s Files.emptyFile [slash, 97, slash] fun _ => 0).ret = 0 := by decide +kernel
  have hreach : (reach s [[97]] (loadInode s.disk s.rootOffset) fun _ => 0).map (fun q => q.1.type)
      = some directoryType := by decide +kernel
  have htype : ∀ q, reach s [[97]] (loadInode s.disk s.rootOffset) (fun _ => 0) = some q →
      q.1.type = directoryType := by
    intro q hq
    rw [hq] at hreach
    exact Option.some.inj hreach
  have hnames : slashedNames ([slash, 97, slash].drop 1) = [[97]] := rfl
  refine ⟨hret, (readInode_directories_iff hret).mpr ⟨?_, fun _ q hq => ?_⟩⟩
  · intro cs hne hpre q hq
    obtain ⟨x, xs, rfl⟩ := List.exists_cons_of_ne_nil hne
    rw [hnames, List.cons_prefix_cons, List.prefix_nil] at hpre
    rw [hpre.1, hpre.2] at hq
    exact Or.inr (htype q hq)
  · rw [htype q hq]
    decide

/-- The path `/a/` leads to the regular file `a`. -/
theorem trailing_slash_finds_file :
    (readInode (treeFS [97]) Files.emptyFile [slash, 97, slash] fun _ => 0).ret = 0
      ∧ ¬ ∀ v ∈ readInodeVisits (treeFS [97]) [slash, 97, slash] fun _ => 0, v.Ok := by
  decide +kernel

end SeL4Sys

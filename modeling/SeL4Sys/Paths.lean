import SeL4Sys.DirTree

/-!
# Paths of any shape

What `readInode` does with an arbitrary string: it succeeds on the strings that spell a list of names
(`Spells`) when following these names from the root, each time to the first entry that begins
with the name, ends at an inode (`walk`). The statement needs that no regular file is passed on
the way, since the last pass of the loop looks into whatever it has reached. The second half is how
`get_father_path` and `find_last_of` split a path.
-/

namespace SeL4Sys

open Bytes CString Loop

variable {s : FS} {d : Disk} {o o' : ℕ} {c r p : List UInt8} {cs ds : List (List UInt8)}

/-! ## Strings and names -/

/-- The names, each with a separator in front. -/
def absPath (cs : List (List UInt8)) : List UInt8 := cs.flatMap (slash :: ·)

@[simp] theorem absPath_nil : absPath [] = [] := rfl

theorem absPath_cons (c : List UInt8) (cs : List (List UInt8)) :
    absPath (c :: cs) = slash :: (c ++ absPath cs) := List.flatMap_cons

theorem absPath_append (cs ds : List (List UInt8)) :
    absPath (cs ++ ds) = absPath cs ++ absPath ds := List.flatMap_append

theorem absPath_no_zero {ds : List (List UInt8)} (hds : ∀ x ∈ ds, IsName x) : ∀ y ∈ absPath ds, y ≠ 0 := by
  intro y hy
  obtain ⟨c, hc, hy⟩ := List.mem_flatMap.mp hy
  rcases List.mem_cons.mp hy with rfl | hy
  · decide
  · exact (hds c hc).no_zero y hy

/-- A path of names is a string. -/
theorem absPath_name_no_zero {ds : List (List UInt8)} {c : List UInt8} (hds : ∀ x ∈ ds, IsName x)
    (hc : IsName c) : ∀ y ∈ absPath ds ++ slash :: c, y ≠ 0 := by
  intro y hy
  rcases List.mem_append.mp hy with hy | hy
  · exact absPath_no_zero hds y hy
  rcases List.mem_cons.mp hy with rfl | hy
  · decide
  · exact hc.no_zero y hy

/-- The string is a path with these names. A separator may follow the last one. -/
inductive Spells : List UInt8 → List (List UInt8) → Prop
  | root : Spells [slash] []
  | last {c : List UInt8} (hc : IsName c) : Spells (slash :: c) [c]
  | more {c r : List UInt8} {cs : List (List UInt8)} (hc : IsName c) (h : Spells (slash :: r) cs) :
      Spells (slash :: (c ++ slash :: r)) (c :: cs)

theorem append_slash_inj {c' r' : List UInt8} (hc : slash ∉ c) (hc' : slash ∉ c')
    (h : c ++ slash :: r = c' ++ slash :: r') : c = c' ∧ r = r' := by
  induction c generalizing c' with
  | nil =>
    cases c' with
    | nil => exact ⟨rfl, (List.cons.inj h).2⟩
    | cons b bs =>
      have := (List.cons.inj h).1
      exact absurd List.mem_cons_self (this ▸ hc')
  | cons a as ih =>
    cases c' with
    | nil =>
      have := (List.cons.inj h).1
      exact absurd List.mem_cons_self (this ▸ hc)
    | cons b bs =>
      obtain ⟨hab, htail⟩ := List.cons.inj h
      obtain ⟨h₁, h₂⟩ := ih (fun hm => hc (List.mem_cons_of_mem a hm))
        (fun hm => hc' (List.mem_cons_of_mem b hm)) htail
      exact ⟨by rw [hab, h₁], h₂⟩

theorem not_spells_double : ¬ Spells (slash :: slash :: r) cs := by
  intro h
  generalize hp : slash :: slash :: r = p at h
  cases h with
  | root => simp at hp
  | last hc =>
    rw [← (List.cons.inj hp).2] at hc
    exact hc.no_slash List.mem_cons_self
  | @more c r' cs hc h =>
    have htail := (List.cons.inj hp).2
    exact hc.ne_nil (append_slash_inj (c := []) (by simp) hc.no_slash htail).1.symm

theorem spells_root_iff : Spells [slash] cs ↔ cs = [] := by
  constructor
  · intro h
    generalize hp : [slash] = p at h
    cases h with
    | root => rfl
    | last hc => exact absurd (List.cons.inj hp).2.symm hc.ne_nil
    | more hc h => simp at hp
  · rintro rfl
    exact .root

theorem spells_last_iff (hc : IsName c) : Spells (slash :: c) cs ↔ cs = [c] := by
  constructor
  · intro h
    generalize hp : slash :: c = p at h
    cases h with
    | root => exact absurd (List.cons.inj hp).2 hc.ne_nil
    | last hc' => rw [(List.cons.inj hp).2]
    | more hc' h =>
      have htail := (List.cons.inj hp).2
      exact absurd (by simp) (htail ▸ hc.no_slash)
  · rintro rfl
    exact .last hc

theorem spells_more_iff (hc : IsName c) : Spells (slash :: (c ++ slash :: r)) cs
    ↔ ∃ ds, cs = c :: ds ∧ Spells (slash :: r) ds := by
  constructor
  · intro h
    generalize hp : slash :: (c ++ slash :: r) = p at h
    cases h with
    | root => simp at hp
    | last hc' =>
      have htail := (List.cons.inj hp).2
      exact absurd (by simp) (htail ▸ hc'.no_slash)
    | @more c' r' cs hc' h =>
      obtain ⟨rfl, rfl⟩ := append_slash_inj hc.no_slash hc'.no_slash (List.cons.inj hp).2
      exact ⟨cs, rfl, h⟩
  · rintro ⟨ds, rfl, h⟩
    exact .more hc h

/-- The names can be read off the path. -/
theorem spells_absPath_iff (hnames : ∀ c ∈ cs, IsName c) (hne : cs ≠ []) :
    Spells (absPath cs) ds ↔ ds = cs := by
  induction cs generalizing ds with
  | nil => exact absurd rfl hne
  | cons c cs ih =>
    have hc := hnames c List.mem_cons_self
    cases cs with
    | nil =>
      rw [absPath_cons, absPath_nil, List.append_nil]
      exact spells_last_iff hc
    | cons c' cs =>
      have ih : ∀ es, Spells (absPath (c' :: cs)) es ↔ es = c' :: cs := fun es =>
        ih (fun x hx => hnames x (List.mem_cons_of_mem c hx)) (List.cons_ne_nil _ _)
      rw [absPath_cons, absPath_cons, spells_more_iff hc]
      simp only [absPath_cons] at ih
      simp only [ih, exists_eq_right]

/-- A path ends in a separator or in its last name. -/
theorem Spells.cases_last (h : Spells p cs) : (∃ q, p = q ++ [slash])
    ∨ ∃ ds c, cs = ds ++ [c] ∧ p = absPath ds ++ slash :: c ∧ (∀ x ∈ ds, IsName x) ∧ IsName c := by
  induction h with
  | root => exact Or.inl ⟨[], rfl⟩
  | @last c hc => exact Or.inr ⟨[], c, rfl, rfl, by simp, hc⟩
  | @more c r cs hc _ ih =>
    rcases ih with ⟨q, hq⟩ | ⟨ds, c', rfl, hp, hds, hc'⟩
    · exact Or.inl ⟨slash :: (c ++ q), by simp [hq]⟩
    · refine Or.inr ⟨c :: ds, c', rfl, by simp [hp, absPath_cons], ?_, hc'⟩
      intro x hx
      rcases List.mem_cons.mp hx with rfl | hx
      · exact hc
      · exact hds x hx

/-! ## Where the lookup goes -/

/-- The names followed from the inode at `o`, each to the first entry that begins with it. -/
def walk (d : Disk) : ℕ → List (List UInt8) → Option ℕ
  | o, [] => some o
  | o, c :: cs => (firstBegins d (loadInode d o) c).bind fun o₁ => walk d o₁ cs

theorem walk_append (cs ds : List (List UInt8)) :
    walk d o (cs ++ ds) = (walk d o cs).bind fun o₁ => walk d o₁ ds := by
  induction cs generalizing o with
  | nil => rfl
  | cons c cs ih =>
    rw [List.cons_append, walk, walk, Option.bind_assoc]
    congr 1
    funext o₁
    exact ih

/-- Whatever the names before a separator of the string lead to is a directory. -/
def PassesNoFile (d : Disk) (o : ℕ) (p : List UInt8) : Prop :=
  ∀ cs r o', (∀ c ∈ cs, IsName c) → p = absPath cs ++ slash :: r → walk d o cs = some o' → IsDir d o'

/-- The path leads from the inode at `o` to the inode at `o'`. -/
def Leads (d : Disk) (o : ℕ) (p : List UInt8) (o' : ℕ) : Prop :=
  ∃ cs, Spells p cs ∧ walk d o cs = some o'

theorem PassesNoFile.isDir (h : PassesNoFile d o (slash :: r)) : IsDir d o :=
  h [] r o (by simp) rfl rfl

/-- The path of an entry of the directory itself passes nothing else. -/
theorem passesNoFile_entry (hdir : IsDir d o) (hc : slash ∉ c) : PassesNoFile d o (slash :: c) := by
  intro cs r o' _ hp hwalk
  cases cs with
  | nil =>
    rw [← Option.some.inj hwalk]
    exact hdir
  | cons c' cs =>
    rw [absPath_cons, List.cons_append, List.cons.injEq] at hp
    exact absurd (by simp [hp.2]) hc

theorem PassesNoFile.initial {q : List UInt8} (h : PassesNoFile d o p) (hq : q <+: p) :
    PassesNoFile d o q := by
  obtain ⟨g, rfl⟩ := hq
  intro cs r o' hnames hp
  exact h cs (r ++ g) o' hnames (by rw [hp]; simp)

theorem PassesNoFile.tail (h : PassesNoFile d o (slash :: (c ++ slash :: r))) (hc : IsName c)
    {o₁ : ℕ} (hfirst : firstBegins d (loadInode d o) c = some o₁) :
    PassesNoFile d o₁ (slash :: r) := by
  intro cs r' o' hnames hp hwalk
  refine h (c :: cs) r' o' ?_ ?_ ?_
  · intro x hx
    rcases List.mem_cons.mp hx with rfl | hx
    · exact hc
    · exact hnames x hx
  · rw [absPath_cons, hp]
    simp
  · rw [walk, hfirst]
    exact hwalk

theorem leads_last_iff (hc : IsName c) :
    Leads d o (slash :: c) o' ↔ firstBegins d (loadInode d o) c = some o' := by
  rw [Leads]
  simp only [spells_last_iff hc, exists_eq_left, walk, Option.bind_fun_some]

theorem leads_more_iff (hc : IsName c) : Leads d o (slash :: (c ++ slash :: r)) o'
    ↔ ∃ o₁, firstBegins d (loadInode d o) c = some o₁ ∧ Leads d o₁ (slash :: r) o' := by
  simp only [Leads, spells_more_iff hc]
  constructor
  · rintro ⟨_, ⟨ds, rfl, hds⟩, hwalk⟩
    obtain ⟨o₁, hfirst, hwalk⟩ := Option.bind_eq_some_iff.mp hwalk
    exact ⟨o₁, hfirst, ds, hds, hwalk⟩
  · rintro ⟨o₁, hfirst, ds, hds, hwalk⟩
    exact ⟨c :: ds, ⟨ds, rfl, hds⟩, Option.bind_eq_some_iff.mpr ⟨o₁, hfirst, hwalk⟩⟩

theorem leads_absPath_iff (hnames : ∀ c ∈ cs, IsName c) (hne : cs ≠ []) :
    Leads d o (absPath cs) o' ↔ walk d o cs = some o' := by
  simp only [Leads, spells_absPath_iff hnames hne, exists_eq_left]

/-- What the first entry that begins with a name leads to is in use. -/
theorem FsOk.inUse_firstBegins (h : FsOk s) (ho : s.InUse o) (hdir : IsDir s.disk o)
    (hfirst : firstBegins s.disk (loadInode s.disk o) c = some o') : s.InUse o' := by
  obtain ⟨t, ht, _, rfl⟩ := firstBegins_eq_some hfirst
  exact h.inUse_slotInode ho hdir ht

/-- What a lookup from the inode at `o` leaves. -/
structure Finds (s : FS) (o : ℕ) (p : List UInt8) (l : Lookup) : Prop where
  leads : ∀ o', l.ret = 0 ∧ l.inodeOffset = o' ↔ Leads s.disk o p o'
  inUse : l.ret = 0 → s.InUse l.inodeOffset
  destInode : l.ret = 0 → l.destInode = loadInode s.disk l.inodeOffset

theorem Finds.of_not_leads {l : Lookup} (hl : l.ret ≠ 0) (h : ∀ o', ¬ Leads s.disk o p o') :
    Finds s o p l where
  leads := fun o' => iff_of_false (fun h' => hl h'.1) (h o')
  inUse := fun h' => absurd h' hl
  destInode := fun h' => absurd h' hl

/-- A string without zeros begins with a name, with a separator, or is such a name. -/
theorem split_slash (hp : ∀ x ∈ p, x ≠ 0) (hne : p ≠ []) :
    (∃ r, p = slash :: r) ∨ IsName p ∨ ∃ c r, IsName c ∧ p = c ++ slash :: r := by
  by_cases hmem : slash ∈ p
  · obtain ⟨c, r, rfl, hc⟩ := List.eq_append_cons_of_mem hmem
    cases c with
    | nil => exact Or.inl ⟨r, rfl⟩
    | cons b bs =>
      have hzero : ∀ x ∈ b :: bs, x ≠ 0 := fun x hx => hp x (List.mem_append_left _ hx)
      exact Or.inr (Or.inr ⟨b :: bs, r, ⟨List.cons_ne_nil b bs, hc, hzero⟩, rfl⟩)
  · exact Or.inr (Or.inl ⟨hne, hmem, hp⟩)

theorem finds_root (ho : s.InUse o) : Finds s o [slash] ⟨0, o, loadInode s.disk o⟩ where
  leads := fun o' => by simp [Leads, spells_root_iff, walk]
  inUse := fun _ => ho
  destInode := fun _ => rfl

/-- The loop finds what the string leads to. The induction is on the passes that are left. -/
theorem lookupLoop_finds (h : FsOk s) (n : ℕ) : ∀ (o : ℕ) (r : List UInt8) (buffer : Buf), s.InUse o →
    (∀ x ∈ r, x ≠ 0) → r.length ≤ n → PassesNoFile s.disk o (slash :: r) →
    Finds s o (slash :: r) (lookupLoop s n r o (loadInode s.disk o) buffer) := by
  have hf := h.inodes.formatted
  induction n with
  | zero =>
    intro o r buffer ho _ hlen _
    rw [List.eq_nil_of_length_eq_zero (Nat.le_zero.mp hlen), lookupLoop]
    exact finds_root ho
  | succ n ih =>
    intro o r buffer ho hzero hlen hpass
    have hdir := hpass.isDir
    have hdirOk := h.dirOk ho hdir
    by_cases hr : r = []
    · rw [hr, lookupLoop]
      exact finds_root ho
    rcases split_slash hzero hr with ⟨r', rfl⟩ | hname | ⟨c, r', hc, rfl⟩
    · -- two separators in a row
      apply Finds.of_not_leads
      · rw [lookupLoop]
        simp [stringChr]
      · rintro o' ⟨cs, hspells, _⟩
        exact not_spells_double hspells
    · rw [lookupLoop_last hf hdirOk hname]
      cases hfirst : firstBegins s.disk (loadInode s.disk o) r with
      | none =>
        refine Finds.of_not_leads (by simp) fun o' hleads => ?_
        rw [leads_last_iff hname, hfirst] at hleads
        cases hleads
      | some o₁ =>
        refine ⟨fun o' => ?_, fun _ => h.inUse_firstBegins ho hdir hfirst, fun _ => rfl⟩
        rw [leads_last_iff hname, hfirst]
        simp
    · obtain ⟨buffer', _, hloop⟩ := lookupLoop_more (o := o) hf hdirOk hdir hc r' n buffer
      rw [hloop]
      cases hfirst : firstBegins s.disk (loadInode s.disk o) c with
      | none =>
        refine Finds.of_not_leads (by simp) fun o' hleads => ?_
        obtain ⟨o₁, ho₁, _⟩ := (leads_more_iff hc).mp hleads
        rw [hfirst] at ho₁
        cases ho₁
      | some o₁ =>
        have hlen' : r'.length ≤ n := by
          simp only [List.length_append, List.length_cons] at hlen
          omega
        have hrest := ih o₁ r' buffer' (h.inUse_firstBegins ho hdir hfirst)
          (fun x hx => hzero x (by simp [hx])) hlen' (hpass.tail hc hfirst)
        refine ⟨fun o' => ?_, hrest.inUse, hrest.destInode⟩
        rw [leads_more_iff hc, hfirst, Option.elim_some, hrest.leads]
        simp

/-- `readInode` finds what the path leads to. -/
theorem readInode_finds (h : FsOk s) (hp : ∀ x ∈ p, x ≠ 0)
    (hpass : PassesNoFile s.disk s.rootOffset p) (destInode : Inode) (buffer : Buf) :
    Finds s s.rootOffset p (readInode s destInode p buffer) := by
  cases p with
  | nil =>
    apply Finds.of_not_leads (by simp [readInode])
    rintro o' ⟨cs, hspells, _⟩
    cases hspells
  | cons b r =>
    by_cases hb : b = slash
    · subst hb
      rw [readInode_slash]
      exact lookupLoop_finds h _ _ r buffer h.tree.root_used
        (fun x hx => hp x (List.mem_cons_of_mem _ hx)) (Nat.le_succ _) hpass
    · have hret : readInode s destInode (b :: r) buffer = ⟨-1, 0, destInode⟩ := by
        rw [readInode]
        simp [stringChr, Ne.symm hb]
      apply Finds.of_not_leads (by rw [hret]; simp)
      rintro o' ⟨cs, hspells, _⟩
      generalize hq : b :: r = q at hspells
      cases hspells with
      | root => exact hb (List.cons.inj hq).1
      | last _ => exact hb (List.cons.inj hq).1
      | more _ _ => exact hb (List.cons.inj hq).1

/-! ## The directory and the name -/

section split
variable {pre : List UInt8}

/-- The search from behind stops at the last separator. -/
theorem findLastLoop_append (hc : slash ∉ c) {m : ℕ} (hm : pre.length < m)
    (hle : m ≤ (pre ++ slash :: c).length) :
    findLastLoop (pre ++ slash :: c) slash m = pre.length := by
  induction m with
  | zero => omega
  | succ i ih =>
    rw [findLastLoop]
    rcases Nat.lt_succ_iff_lt_or_eq.mp hm with hlt | rfl
    · -- a character of the name
      obtain ⟨l, rfl⟩ := Nat.exists_eq_add_of_lt hlt
      have hl : l < c.length := by
        simp only [List.length_append, List.length_cons] at hle
        omega
      have hne : (pre ++ slash :: c).getD (pre.length + l + 1) 0 ≠ slash := by
        rw [List.getD_append_right _ _ _ _ (by omega),
          show pre.length + l + 1 - pre.length = l + 1 by omega, List.getD_cons_succ,
          List.getD_eq_getElem _ _ hl]
        exact fun heq => hc (heq ▸ List.getElem_mem hl)
      rw [if_neg hne]
      exact ih hlt (by omega)
    · rw [List.getD_append_right _ _ _ _ le_rfl, Nat.sub_self, List.getD_cons_zero, if_pos rfl]

theorem lastName_append (hc : slash ∉ c) : lastName (pre ++ slash :: c) = c := by
  have hlen : (pre ++ slash :: c).length = pre.length + c.length + 1 := by
    simp only [List.length_append, List.length_cons]
    omega
  rw [lastName, findLastOf, if_pos (by omega),
    show (((pre ++ slash :: c).length : ℤ) - 1 + 1).toNat = (pre ++ slash :: c).length by omega,
    findLastLoop_append hc (by omega) le_rfl, show ((pre.length : ℤ) + 1).toNat = pre.length + 1 by omega,
    List.drop_append]
  simp

/-- The search looks at the characters in front of its start only. -/
theorem findLastLoop_append_right {m : ℕ} (hm : m ≤ p.length) (r : List UInt8) (token : UInt8) :
    findLastLoop (p ++ r) token m = findLastLoop p token m := by
  induction m with
  | zero => rfl
  | succ i ih =>
    unfold findLastLoop
    rw [List.getD_append _ _ _ _ (by omega), ih (by omega)]

theorem findLastLoop_of_notMem (h : slash ∉ p) {m : ℕ} (hm : m ≤ p.length) :
    findLastLoop p slash m = -1 := by
  induction m with
  | zero => rfl
  | succ i ih =>
    unfold findLastLoop
    rw [List.getD_eq_getElem _ _ (by omega), if_neg, ih (by omega)]
    exact fun heq => h (heq ▸ List.getElem_mem _)

/-- `get_father_path` looks for the last separator in front of the last character. -/
theorem findLastOf_concat (p : List UInt8) (x : UInt8) :
    findLastOf (p ++ [x]) slash ((p ++ [x]).length - 2) = findLastLoop p slash p.length := by
  have hlen : (p ++ [x]).length = p.length + 1 := by rw [List.length_append, List.length_singleton]
  have hstart : (((p ++ [x]).length : ℤ) - 2 + 1).toNat = p.length := by omega
  unfold findLastOf
  rw [if_pos (by omega), hstart, findLastLoop_append_right le_rfl]

/-- The father of `pre/c`, with `x` the last character, is `pre`, or the root when `pre` is empty. -/
theorem getFatherPath_concat (hc : slash ∉ c) (x : UInt8) : getFatherPath (pre ++ slash :: c ++ [x])
    = if pre = [] then some [slash] else if 64 ≤ pre.length then none else some pre := by
  have hpos : findLastLoop (pre ++ slash :: c) slash (pre ++ slash :: c).length = pre.length := by
    apply findLastLoop_append hc _ le_rfl
    rw [List.length_append, List.length_cons]
    omega
  unfold getFatherPath
  simp only [findLastOf_concat, hpos, nameLength]
  by_cases hpre : pre = []
  · rw [if_pos (by simp [hpre]), if_pos hpre]
  · have : 0 < pre.length := List.length_pos_iff.mpr hpre
    rw [if_neg (by omega), if_neg hpre]
    by_cases hfit : 64 ≤ pre.length
    · rw [if_pos (Or.inr (by exact_mod_cast hfit)), if_pos hfit]
    · rw [if_neg (by omega), if_neg hfit, Int.toNat_natCast, List.append_assoc, List.take_left]

theorem exists_last_slash (h : slash ∈ p) : ∃ pre c, p = pre ++ slash :: c ∧ slash ∉ c := by
  have ⟨n, d, heq, hn⟩ := List.eq_append_cons_of_mem (List.mem_reverse.mpr h)
  refine ⟨d.reverse, n.reverse, ?_, fun hmem => hn (List.mem_reverse.mp hmem)⟩
  rw [← List.reverse_reverse p, heq]
  simp

theorem getFatherPath_append (hc : IsName c) : getFatherPath (pre ++ slash :: c)
    = if pre = [] then some [slash] else if 64 ≤ pre.length then none else some pre := by
  have hlast : c = c.dropLast ++ [c.getLast hc.ne_nil] :=
    (List.dropLast_append_getLast hc.ne_nil).symm
  have hinit : slash ∉ c.dropLast := fun h => hc.no_slash (List.dropLast_subset c h)
  rw [hlast, ← List.cons_append, ← List.append_assoc]
  exact getFatherPath_concat hinit _

/-- The string that stands for the directory of `absPath ds ++ slash :: c`. -/
def fatherOf (ds : List (List UInt8)) : List UInt8 := if ds = [] then [slash] else absPath ds

theorem leads_fatherOf_iff (hnames : ∀ x ∈ ds, IsName x) :
    Leads d o (fatherOf ds) o' ↔ walk d o ds = some o' := by
  rw [fatherOf]
  split_ifs with hds
  · rw [hds]
    simp [Leads, spells_root_iff, walk]
  · exact leads_absPath_iff hnames hds

theorem fatherOf_isPrefix (ds : List (List UInt8)) (c : List UInt8) :
    fatherOf ds <+: absPath ds ++ slash :: c := by
  rw [fatherOf]
  split_ifs with hds
  · rw [hds]
    exact ⟨c, rfl⟩
  · exact List.prefix_append _ _

/-- The father path when it fits. -/
theorem getFatherPath_absPath (hc : IsName c)
    (hfit : getFatherPath (absPath ds ++ slash :: c) ≠ none) :
    getFatherPath (absPath ds ++ slash :: c) = some (fatherOf ds) := by
  have hnil : absPath ds = [] ↔ ds = [] := by
    cases ds with
    | nil => simp
    | cons x xs => simp [absPath_cons]
  rw [getFatherPath_append hc] at hfit ⊢
  rw [fatherOf]
  by_cases hds : ds = []
  · rw [if_pos hds, if_pos (hnil.mpr hds)]
  · rw [if_neg hds, if_neg fun hpre => hds (hnil.mp hpre)]
    rw [if_neg fun hpre => hds (hnil.mp hpre)] at hfit
    split_ifs at hfit ⊢ with hlong
    · exact absurd rfl hfit
    · rfl

end split

end SeL4Sys

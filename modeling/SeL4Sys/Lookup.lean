import SeL4Sys.AllocRuns
import SeL4Sys.Directory

/-!
# Path lookup

`readInode` takes, in each directory, the first live entry whose name begins with the next
component of the path, because it compares over the length of the component only. `Resolves` is
what a path means: a chain of entries with exactly these names. The two agree along a path
when in each directory on it the first entry that begins with the component is that component
(`PrefixExact`), and they agree on all paths only then.
-/

namespace SeL4Sys

open Bytes CString Loop

variable {s : FS} {d : Disk} {ino : Inode} {o o' t : ℕ} {c : List UInt8} {cs pre : List (List UInt8)}

/-! ## What a path means -/

/-- A component of a path. -/
structure IsName (c : List UInt8) : Prop where
  ne_nil : c ≠ []
  no_slash : slash ∉ c
  no_zero : ∀ x ∈ c, x ≠ 0

/-- The inode at offset `o` is not a regular file. -/
def IsDir (d : Disk) (o : ℕ) : Prop := (loadInode d o).type ≠ regularType

/-- The directory at offset `o` has an entry named `c` for the inode at `o'`. -/
def Entry (d : Disk) (o : ℕ) (c : List UInt8) (o' : ℕ) : Prop :=
  IsDir d o ∧ ∃ t, Live d (loadInode d o) t ∧ slotName d (loadInode d o) t = c
    ∧ slotInode d (loadInode d o) t = o'

/-- The names lead from the inode at `o` to the inode at `o'`. -/
def Resolves (d : Disk) : ℕ → List (List UInt8) → ℕ → Prop
  | o, [], o' => o = o'
  | o, c :: cs, o' => ∃ o₁, Entry d o c o₁ ∧ Resolves d o₁ cs o'

/-- A directory whose blocks can be read, and whose live entries have different names that fit
their field. -/
structure DirOk (d : Disk) (ino : Inode) : Prop where
  count : ino.blocks ≤ maxBlocks
  short : ∀ t, Live d ino t → (slotName d ino t).length < 64
  distinct : ∀ t u, Live d ino t → Live d ino u → slotName d ino t = slotName d ino u → t = u

/-- Every directory in the tree below `o` is well formed. -/
def TreeOk (d : Disk) (o : ℕ) : Prop :=
  ∀ cs o', Resolves d o cs o' → IsDir d o' → DirOk d (loadInode d o')

theorem Entry.det (hdir : DirOk d (loadInode d o)) {o₁ o₂ : ℕ} (h₁ : Entry d o c o₁)
    (h₂ : Entry d o c o₂) : o₁ = o₂ := by
  obtain ⟨_, t, ht, hname, rfl⟩ := h₁
  obtain ⟨_, u, hu, hname', rfl⟩ := h₂
  rw [hdir.distinct t u ht hu (hname.trans hname'.symm)]

theorem resolves_append {ds : List (List UInt8)} :
    Resolves d o (cs ++ ds) o' ↔ ∃ o₁, Resolves d o cs o₁ ∧ Resolves d o₁ ds o' := by
  induction cs generalizing o with
  | nil => simp [Resolves]
  | cons c cs ih =>
    simp only [List.cons_append, Resolves, ih]
    constructor
    · rintro ⟨o₁, he, o₂, h₁, h₂⟩
      exact ⟨o₂, ⟨o₁, he, h₁⟩, h₂⟩
    · rintro ⟨o₂, ⟨o₁, he, h₁⟩, h₂⟩
      exact ⟨o₁, he, o₂, h₁, h₂⟩

theorem TreeOk.entry (h : TreeOk d o) {o₁ : ℕ} (he : Entry d o c o₁) : TreeOk d o₁ :=
  fun cs o' hr hdir => h (c :: cs) o' ⟨o₁, he, hr⟩ hdir

theorem TreeOk.dirOk (h : TreeOk d o) (hdir : IsDir d o) : DirOk d (loadInode d o) :=
  h [] o rfl hdir

theorem Resolves.det (htree : TreeOk d o) {o₁ o₂ : ℕ} (h₁ : Resolves d o cs o₁)
    (h₂ : Resolves d o cs o₂) : o₁ = o₂ := by
  induction cs generalizing o with
  | nil => exact h₁.symm.trans h₂
  | cons c cs ih =>
    obtain ⟨p₁, he₁, hr₁⟩ := h₁
    obtain ⟨p₂, he₂, hr₂⟩ := h₂
    have hp := Entry.det (htree.dirOk he₁.1) he₁ he₂
    rw [← hp] at hr₂
    exact ih (htree.entry he₁) hr₁ hr₂

/-! ## What one pass finds -/

/-- Slot `t` is live and its name begins with `c`. -/
def beginsWith (d : Disk) (ino : Inode) (c : List UInt8) (t : ℕ) : Bool :=
  decide (slotInode d ino t ≠ 0 ∧ c <+: slotName d ino t)

/-- The inode number of the first live entry whose name begins with `c`. -/
def firstBegins (d : Disk) (ino : Inode) (c : List UInt8) : Option ℕ :=
  let t := breakIndex (slots ino) (beginsWith d ino c)
  if t < slots ino then some (slotInode d ino t) else none

/-- The entry that is found begins with the name. -/
theorem firstBegins_eq_some (h : firstBegins d ino c = some o') :
    ∃ t, Live d ino t ∧ c <+: slotName d ino t ∧ slotInode d ino t = o' := by
  rw [firstBegins] at h
  split_ifs at h with hlt
  have hgood := breakIndex_spec hlt
  rw [beginsWith, decide_eq_true_eq] at hgood
  exact ⟨_, ⟨hlt, hgood.1⟩, hgood.2, Option.some.inj h⟩

theorem Live.firstBegins_ne_none {t : ℕ} (h : Live d ino t) (hc : c <+: slotName d ino t) :
    firstBegins d ino c ≠ none := by
  have hbegins : beginsWith d ino c t = true := by
    rw [beginsWith, decide_eq_true_eq]
    exact ⟨h.2, hc⟩
  rw [firstBegins, if_pos (breakIndex_lt_of h.1 hbegins)]
  simp

/-- An entry with the very name is one that begins with it. -/
theorem firstBegins_ne_none (h : Entry d o c o') : firstBegins d (loadInode d o) c ≠ none := by
  obtain ⟨_, t, ht, hname, _⟩ := h
  exact ht.firstBegins_ne_none (by rw [hname])

/-- The test of the loop is a test on slots. `rest` is the path from the component on. -/
theorem matchesName_eq (h : DirOk d ino) (hc : ∀ x ∈ c, x ≠ 0) {rest : List UInt8}
    (hrest : c <+: rest) (ht : t < slots ino) {b : Buf} (hb : Holds d ino (t / 8) b) :
    matchesName rest c.length (dirEntry b (t % 8)) = beginsWith d ino c t := by
  rw [matchesName, hb.entryInode_eq rfl, beginsWith]
  by_cases hzero : slotInode d ino t = 0
  · simp [hzero]
  · have hname : cstr (entryName (dirEntry b (t % 8))) 64 = slotName d ino t :=
      cstr_congr fun i hi => hb.entryName_eq rfl hi
    have hshort := h.short t ⟨ht, hzero⟩
    rw [← hname] at hshort ⊢
    have hiff := strncmp_eq_zero_iff_isPrefix (r := bufOf rest) hc (fun i hi => by
      rw [bufOf_getElem hi, bufOf_getElem (lt_of_lt_of_le hi hrest.length_le)]
      exact (List.IsPrefix.getElem hrest hi).symm) hshort
    rw [Bool.eq_iff_iff, Bool.and_eq_true, bne_iff_ne, beq_iff_eq, decide_eq_true_eq, hiff]

/-- The loop over the entries in the search for `c`. -/
theorem scanDir_matchesName (hf : Formatted s) (h : DirOk s.disk ino) (hc : ∀ x ∈ c, x ≠ 0)
    {rest : List UInt8} (hrest : c <+: rest) (buffer : Buf) :
    ScanSpec s.disk ino (beginsWith s.disk ino c) buffer
      (scanDir s ino (matchesName rest c.length) buffer) :=
  scanDir_spec hf h.count (fun _ ht _ hb => matchesName_eq h hc hrest ht hb) buffer

/-- The search for `c` ends at the first entry that begins with it. -/
theorem scanDir_firstBegins (hf : Formatted s) (h : DirOk s.disk ino) (hc : ∀ x ∈ c, x ≠ 0)
    {rest : List UInt8} (hrest : c <+: rest) (buffer : Buf) :
    (∃ i j b, scanDir s ino (matchesName rest c.length) buffer = .found i j b
        ∧ firstBegins s.disk ino c = some (entryInode (dirEntry b j)))
      ∨ ∃ b, scanDir s ino (matchesName rest c.length) buffer = .missing b
        ∧ firstBegins s.disk ino c = none := by
  have hspec := scanDir_matchesName hf h hc hrest buffer
  cases hscan : scanDir s ino (matchesName rest c.length) buffer with
  | failed =>
    rw [hscan] at hspec
    cases hspec
  | found i j b =>
    rw [hscan] at hspec
    cases hspec with
    | found t _ ht hgood hfirst hb =>
      refine Or.inl ⟨_, _, b, rfl, ?_⟩
      have hbreak := breakIndex_eq ht hgood hfirst
      rw [firstBegins, hbreak, if_pos ht, hb.entryInode_eq rfl]
  | missing b =>
    rw [hscan] at hspec
    cases hspec with
    | missing _ hnone _ _ =>
      refine Or.inr ⟨b, rfl, ?_⟩
      rw [firstBegins, breakIndex_eq_bound hnone, if_neg (lt_irrefl _)]

/-! ## Splitting the path -/

theorem stringChr_of_notMem (h : slash ∉ c) : stringChr c slash = (-1, c.length) := by
  induction c with
  | nil => rfl
  | cons b bs ih =>
    rw [List.mem_cons, not_or] at h
    rw [stringChr, if_neg h.1, ih h.2]
    rfl

theorem stringChr_append (h : slash ∉ c) (r : List UInt8) :
    stringChr (c ++ slash :: r) slash = (0, c.length) := by
  induction c with
  | nil => rfl
  | cons b bs ih =>
    rw [List.mem_cons, not_or] at h
    rw [List.cons_append, stringChr, if_neg h.1, ih h.2]
    rfl

/-- The components with a separator between any two. -/
def joinNames : List (List UInt8) → List UInt8
  | [] => []
  | [c] => c
  | c :: c' :: cs => c ++ slash :: joinNames (c' :: cs)

/-- The absolute path with these components. -/
def pathOf (cs : List (List UInt8)) : List UInt8 := slash :: joinNames cs

/-! ## The passes of the loop -/

/-- The last pass. -/
theorem lookupLoop_last (hf : Formatted s) (hdir : DirOk s.disk ino) (hc : IsName c) (n : ℕ)
    (buffer : Buf) :
    lookupLoop s (n + 1) c o ino buffer = (firstBegins s.disk ino c).elim ⟨-1, o, ino⟩
      fun o' => ⟨0, o', loadInode s.disk o'⟩ := by
  obtain ⟨b, bs, hcons⟩ := List.exists_cons_of_ne_nil hc.ne_nil
  have hchr := stringChr_of_notMem hc.no_slash
  have hscan := scanDir_firstBegins hf hdir hc.no_zero (List.prefix_refl c) buffer
  rw [hcons] at hchr ⊢
  rw [lookupLoop]
  simp only [hchr]
  rw [if_neg (by simp), if_neg (by simp), ← hcons]
  rcases hscan with ⟨i, j, b', hscan, hfirst⟩ | ⟨b', hscan, hfirst⟩
  · simp only [hscan, hfirst, Option.elim_some]
    rw [if_neg (by norm_num)]
  · simp only [hscan, hfirst, Option.elim_none]

/-- A pass with more to come. -/
theorem lookupLoop_more (hf : Formatted s) (hdir : DirOk s.disk ino) (htype : ino.type ≠ regularType)
    (hc : IsName c) (r : List UInt8) (n : ℕ) (buffer : Buf) :
    ∃ buffer', SameTail buffer buffer' ∧ lookupLoop s (n + 1) (c ++ slash :: r) o ino buffer
      = (firstBegins s.disk ino c).elim ⟨-1, o, ino⟩
          fun o' => lookupLoop s n r o' (loadInode s.disk o') buffer' := by
  obtain ⟨b, bs, hcons⟩ := List.exists_cons_of_ne_nil hc.ne_nil
  have hchr := stringChr_append hc.no_slash r
  have hscan := scanDir_firstBegins hf hdir hc.no_zero (List.prefix_append c (slash :: r)) buffer
  have hlen : ¬ c.length = 0 := by simpa using hc.ne_nil
  have hdrop : (c ++ slash :: r).drop (c.length + 1) = r := by
    rw [List.drop_append]
    simp
  have hhead : c ++ slash :: r = b :: (bs ++ slash :: r) := by rw [hcons, List.cons_append]
  rw [hhead] at hchr ⊢
  rw [lookupLoop]
  simp only [hchr]
  rw [if_neg (fun h => hlen h.2), if_neg (fun h => htype h.2), ← hhead, hdrop]
  rcases hscan with ⟨i, j, b', hscan, hfirst⟩ | ⟨b', hscan, hfirst⟩
  · refine ⟨b', scanDir_found_tail hf hdir.count hscan, ?_⟩
    simp only [hscan, hfirst, Option.elim_some]
    rw [if_pos trivial]
  · refine ⟨buffer, fun _ _ => rfl, ?_⟩
    simp only [hscan, hfirst, Option.elim_none]

/-! ## When the lookup is exact -/

/-- In the directory at `o`, the first live entry whose name begins with `c`, if there is one,
leads where an entry named `c` leads. -/
def PrefixExact (d : Disk) (o : ℕ) (c : List UInt8) : Prop :=
  ∀ o', firstBegins d (loadInode d o) c = some o' → Entry d o c o'

/-- A path of proper names of which no proper part names a regular file. -/
structure Admissible (d : Disk) (o : ℕ) (cs : List (List UInt8)) : Prop where
  ne_nil : cs ≠ []
  names : ∀ c ∈ cs, IsName c
  dirs : ∀ pre, pre <+: cs → pre ≠ cs → ∀ o', Resolves d o pre o' → IsDir d o'

/-- Every directory that the names lead to is exact for the name that follows. -/
def ExactAlong (d : Disk) (o : ℕ) (cs : List (List UInt8)) : Prop :=
  ∀ pre c, pre ++ [c] <+: cs → ∀ o', Resolves d o pre o' → PrefixExact d o' c

/-- The result is the one that the names stand for: success with the inode they lead to, and
`-1` when they lead nowhere. -/
def LooksUp (r : Lookup) (d : Disk) (o : ℕ) (cs : List (List UInt8)) : Prop :=
  (∀ o', r.ret = 0 ∧ r.inodeOffset = o' ↔ Resolves d o cs o')
    ∧ ((¬ ∃ o', Resolves d o cs o') → r.ret = -1)

theorem Admissible.isDir (h : Admissible d o cs) : IsDir d o :=
  h.dirs [] List.nil_prefix h.ne_nil.symm o rfl

theorem Admissible.tail {c' : List UInt8} (h : Admissible d o (c :: c' :: cs)) {o₁ : ℕ}
    (he : Entry d o c o₁) : Admissible d o₁ (c' :: cs) where
  ne_nil := List.cons_ne_nil _ _
  names := fun x hx => h.names x (List.mem_cons_of_mem c hx)
  dirs := fun pre hpre hne o' hr => by
    refine h.dirs (c :: pre) (List.cons_prefix_cons.mpr ⟨rfl, hpre⟩) ?_ o' ⟨o₁, he, hr⟩
    intro heq
    exact hne (List.cons_inj_right c |>.mp heq)

theorem Admissible.initial (h : Admissible d o cs) (hpre : pre <+: cs) (hne : pre ≠ []) :
    Admissible d o pre where
  ne_nil := hne
  names := fun x hx => h.names x (hpre.subset hx)
  dirs := fun q hq hqne o' hr => by
    refine h.dirs q (hq.trans hpre) ?_ o' hr
    intro heq
    rw [heq] at hq
    exact hqne (heq.trans (List.IsPrefix.eq_of_length hq (le_antisymm hq.length_le hpre.length_le)))

theorem ExactAlong.tail (h : ExactAlong d o (c :: cs)) {o₁ : ℕ} (he : Entry d o c o₁) :
    ExactAlong d o₁ cs := by
  intro pre c' hpre o' hr
  exact h (c :: pre) c' (List.cons_prefix_cons.mpr ⟨rfl, hpre⟩) o' ⟨o₁, he, hr⟩

theorem ExactAlong.head (h : ExactAlong d o (c :: cs)) : PrefixExact d o c :=
  h [] c (List.cons_prefix_cons.mpr ⟨rfl, List.nil_prefix⟩) o rfl

/-- Where the path goes on from, when the first step is exact. -/
theorem resolves_cons_iff (hdir : DirOk d (loadInode d o)) (hexact : PrefixExact d o c) :
    Resolves d o (c :: cs) o' ↔ ∃ o₁, firstBegins d (loadInode d o) c = some o₁
      ∧ Resolves d o₁ cs o' := by
  constructor
  · rintro ⟨o₁, he, hr⟩
    obtain ⟨o₂, ho₂⟩ := Option.ne_none_iff_exists'.mp (firstBegins_ne_none he)
    rw [he.det hdir (hexact o₂ ho₂)] at hr
    exact ⟨o₂, ho₂, hr⟩
  · rintro ⟨o₁, ho₁, hr⟩
    exact ⟨o₁, hexact o₁ ho₁, hr⟩

/-- What a pass makes of the first entry, when the passes after it are exact. -/
theorem looksUp_cons (hdir : DirOk d (loadInode d o)) (hexact : PrefixExact d o c) {a : Lookup}
    {f : ℕ → Lookup} (ha : a.ret = -1)
    (hrest : ∀ o₁, firstBegins d (loadInode d o) c = some o₁ → LooksUp (f o₁) d o₁ cs) :
    LooksUp ((firstBegins d (loadInode d o) c).elim a f) d o (c :: cs) := by
  have hiff : ∀ o', Resolves d o (c :: cs) o' ↔ ∃ o₁, firstBegins d (loadInode d o) c = some o₁
      ∧ Resolves d o₁ cs o' := fun o' => resolves_cons_iff hdir hexact
  cases hfirst : firstBegins d (loadInode d o) c with
  | none =>
    rw [Option.elim_none]
    refine ⟨fun o' => ?_, fun _ => ha⟩
    rw [hiff, hfirst, ha]
    simp
  | some o₁ =>
    have hlook := hrest o₁ hfirst
    rw [Option.elim_some]
    refine ⟨fun o' => ?_, fun hnone => hlook.2 fun ⟨o', hr⟩ => hnone ⟨o', ?_⟩⟩
    · rw [hlook.1, hiff, hfirst]
      simp
    · exact (hiff o').mpr ⟨o₁, hfirst, hr⟩

/-- The loop is exact along an exact path, by induction on the components. -/
theorem lookupLoop_exact (hf : Formatted s) (n : ℕ) :
    ∀ (o : ℕ) (buffer : Buf), TreeOk s.disk o → Admissible s.disk o cs → ExactAlong s.disk o cs →
      cs.length ≤ n →
      LooksUp (lookupLoop s n (joinNames cs) o (loadInode s.disk o) buffer) s.disk o cs := by
  induction cs generalizing n with
  | nil =>
    intro o buffer _ hadm
    exact absurd rfl hadm.ne_nil
  | cons c cs ih =>
    intro o buffer htree hadm hexact hn
    obtain ⟨n, rfl⟩ := Nat.exists_eq_add_of_le' (show 1 ≤ n by simp at hn; omega)
    have hdir := htree.dirOk hadm.isDir
    have hname := hadm.names c List.mem_cons_self
    cases cs with
    | nil =>
      rw [joinNames, lookupLoop_last hf hdir hname]
      refine looksUp_cons hdir hexact.head rfl fun o₁ _ => ⟨fun o' => ?_, fun hnone => ?_⟩
      · simp [Resolves]
      · exact absurd ⟨o₁, rfl⟩ hnone
    | cons c' cs =>
      obtain ⟨buffer', _, hloop⟩ := lookupLoop_more (o := o) hf hdir hadm.isDir hname
        (joinNames (c' :: cs)) n buffer
      rw [joinNames, hloop]
      refine looksUp_cons hdir hexact.head rfl fun o₁ hfirst => ?_
      -- what the code takes is the named entry, and the rest of the path is exact from there
      have he := hexact.head o₁ hfirst
      exact ih n o₁ buffer' (htree.entry he) (hadm.tail he) (hexact.tail he) (by simpa using hn)

/-- The loop follows an exact path to its last directory. -/
theorem lookupLoop_reaches (hf : Formatted s) (n : ℕ) :
    ∀ (o : ℕ) (buffer : Buf), TreeOk s.disk o → (∀ x ∈ pre, IsName x) → ExactAlong s.disk o pre →
      Resolves s.disk o pre o' →
      ∃ buffer', lookupLoop s (pre.length + n) (joinNames (pre ++ [c])) o (loadInode s.disk o) buffer
        = lookupLoop s n c o' (loadInode s.disk o') buffer' := by
  induction pre with
  | nil =>
    intro o buffer _ _ _ hr
    rw [show o = o' from hr]
    exact ⟨buffer, by simp [joinNames]⟩
  | cons x pre ih =>
    intro o buffer htree hnames hexact ⟨o₁, he, hr⟩
    have hdir := htree.dirOk he.1
    obtain ⟨buffer₁, _, hloop⟩ := lookupLoop_more (o := o) hf hdir he.1
      (hnames x List.mem_cons_self) (joinNames (pre ++ [c])) (pre.length + n) buffer
    obtain ⟨buffer', hrest⟩ := ih o₁ buffer₁ (htree.entry he)
      (fun y hy => hnames y (List.mem_cons_of_mem x hy)) (hexact.tail he) hr
    -- the exact entry is the one that is found
    obtain ⟨o₂, ho₂⟩ := Option.ne_none_iff_exists'.mp (firstBegins_ne_none he)
    have heq := he.det hdir (hexact.head o₂ ho₂)
    refine ⟨buffer', ?_⟩
    have hjoin : joinNames (x :: pre ++ [c]) = x ++ slash :: joinNames (pre ++ [c]) := by
      cases pre <;> rfl
    rw [hjoin, List.length_cons, Nat.add_right_comm, hloop, ho₂, Option.elim_some, ← heq, hrest]

/-- `readInode` on a path that starts with a '/' runs the loop from the root. -/
theorem readInode_slash (destInode : Inode) (r : List UInt8) (buffer : Buf) :
    readInode s destInode (slash :: r) buffer
      = lookupLoop s (r.length + 1) r s.rootOffset (loadInode s.disk s.rootOffset) buffer := by
  rw [readInode]
  simp [stringChr]

theorem length_le_joinNames (h : ∀ c ∈ cs, IsName c) : cs.length ≤ (joinNames cs).length := by
  induction cs with
  | nil => exact Nat.zero_le _
  | cons c cs ih =>
    have hpos := List.length_pos_iff.mpr (h c List.mem_cons_self).ne_nil
    have ih := ih fun x hx => h x (List.mem_cons_of_mem c hx)
    cases cs with
    | nil =>
      rw [joinNames, List.length_singleton]
      exact hpos
    | cons c' cs =>
      simp only [joinNames, List.length_cons, List.length_append] at ih ⊢
      omega

/-- **Path lookup.** In a well-formed tree `readInode` finds what a path stands for when every
directory on the path is exact for the name that follows; and it does so for all paths only if
every directory is exact for every name. -/
theorem readInode_exact (hf : Formatted s) (htree : TreeOk s.disk s.rootOffset) :
    (∀ cs, Admissible s.disk s.rootOffset cs → ExactAlong s.disk s.rootOffset cs →
      ∀ destInode buffer,
        LooksUp (readInode s destInode (pathOf cs) buffer) s.disk s.rootOffset cs)
    ∧ ((∀ cs, Admissible s.disk s.rootOffset cs → ∀ destInode buffer,
          LooksUp (readInode s destInode (pathOf cs) buffer) s.disk s.rootOffset cs)
        ↔ ∀ cs, Admissible s.disk s.rootOffset cs → ExactAlong s.disk s.rootOffset cs) := by
  have hsuff : ∀ cs, Admissible s.disk s.rootOffset cs → ExactAlong s.disk s.rootOffset cs →
      ∀ destInode buffer,
        LooksUp (readInode s destInode (pathOf cs) buffer) s.disk s.rootOffset cs := by
    intro cs hadm hexact destInode buffer
    rw [pathOf, readInode_slash]
    have := length_le_joinNames hadm.names
    exact lookupLoop_exact hf _ _ buffer htree hadm hexact (by omega)
  refine ⟨hsuff, fun hall => ?_, fun hall cs hadm => hsuff cs hadm (hall cs hadm)⟩
  -- by induction on the number of names before the one in question
  have hsteps : ∀ n pre c, pre.length = n → Admissible s.disk s.rootOffset (pre ++ [c]) →
      ∀ o', Resolves s.disk s.rootOffset pre o' → PrefixExact s.disk o' c := by
    intro n
    induction n using Nat.strong_induction_on with
    | _ n ih =>
      intro pre c hlen hadm o' hr o₁ hfirst
      have hexact : ExactAlong s.disk s.rootOffset pre := by
        intro q x hq o₂ hr₂
        refine ih q.length ?_ q x rfl (hadm.initial (hq.trans (List.prefix_append pre [c])) (by simp))
          o₂ hr₂
        have := hq.length_le
        simp only [List.length_append, List.length_singleton] at this
        omega
      have hnames : ∀ x ∈ pre, IsName x := fun x hx => hadm.names x (List.mem_append_left _ hx)
      have hisDir : IsDir s.disk o' :=
        hadm.dirs pre (List.prefix_append pre [c]) (by simp) o' hr
      have hdir := htree pre o' hr hisDir
      have hlook := (hall (pre ++ [c]) hadm (loadInode s.disk 0) fun _ => 0).1 o₁
      rw [pathOf, readInode_slash] at hlook
      have hfuel := length_le_joinNames hadm.names
      rw [List.length_append, List.length_singleton] at hfuel
      obtain ⟨m, hm⟩ := Nat.exists_eq_add_of_le
        (show pre.length + 1 ≤ (joinNames (pre ++ [c])).length + 1 by omega)
      obtain ⟨buffer', hreach⟩ := lookupLoop_reaches (c := c) hf (m + 1) s.rootOffset (fun _ => 0)
        htree hnames hexact hr
      rw [hm, show pre.length + 1 + m = pre.length + (m + 1) by omega, hreach,
        lookupLoop_last hf hdir (hadm.names c (by simp)), hfirst, Option.elim_some] at hlook
      obtain ⟨o₂, hr₂, he⟩ := resolves_append.mp (hlook.mp ⟨rfl, rfl⟩)
      rw [hr.det htree hr₂]
      obtain ⟨o₃, he, rfl⟩ := he
      exact he
  intro cs hadm pre c hpre o' hr
  exact hsteps pre.length pre c rfl (hadm.initial hpre (by simp)) o' hr

/-! ## A tree with one file on the small disk -/

/-- A root directory of one block, the first of the disk. -/
def oneBlockDir : Inode :=
  { type := 2, linkCount := 1, blockCount := 1, size := 1024,
    pointer := fun i => if i = 0 then 2056 else 0, singlyPointer := 0, doublyPointer := 0,
    triplyPointer := 0, pad := fun _ => 0 }

theorem oneBlockDir_fits : oneBlockDir.Fits := by
  constructor <;> simp only [oneBlockDir, FitsInt] <;> try norm_num
  · intro i
    split <;> norm_num
  · intro i hi
    omega

/-- A block with one entry, for the second inode. -/
def oneEntry (name : List UInt8) : Buf :=
  setEntryInode (setEntryName (fun _ => 0) 0 name) 0 4224

/-- The root directory with one entry, for an empty file. -/
def treeFS (name : List UInt8) : FS :=
  smallFS (storeInode (storeInode (patch (fun _ => 0) 1052672 1024 (oneEntry name))
    Files.emptyFile 4224) oneBlockDir 4096) 8190 24

section treeFS
variable (name : List UInt8)

theorem treeFS_formatted : Formatted (treeFS name) := smallFS_formatted _ _ _

theorem treeFS_root : loadInode (treeFS name).disk 4096 = oneBlockDir := by
  rw [treeFS, smallFS_disk]
  exact loadInode_storeInode oneBlockDir_fits

theorem treeFS_file : loadInode (treeFS name).disk 4224 = Files.emptyFile := by
  rw [treeFS, smallFS_disk, loadInode_congr (d := storeInode (patch (fun _ => 0) 1052672 1024
    (oneEntry name)) Files.emptyFile 4224)]
  · exact loadInode_storeInode Files.emptyFile_fits
  · rw [storeInode_eq _ oneBlockDir]
    exact agree_patch (by omega)

variable {name} (hname : name ∈ [[97], [97, 98]])

include hname

/-- Only the first slot is live. -/
theorem treeFS_slotInode {t : ℕ} (ht : t < 8) :
    slotInode (treeFS name).disk oneBlockDir t = if t = 0 then 4224 else 0 := by
  have hslots : ∀ name ∈ [[97], [97, 98]], ∀ t, t < 8 →
      slotInode (treeFS name).disk oneBlockDir t = if t = 0 then 4224 else 0 := by decide +kernel
  exact hslots name hname t ht

theorem treeFS_slotName : slotName (treeFS name).disk oneBlockDir 0 = name := by
  have hnames : ∀ name ∈ [[97], [97, 98]], slotName (treeFS name).disk oneBlockDir 0 = name := by
    decide +kernel
  exact hnames name hname

theorem treeFS_live {t : ℕ} : Live (treeFS name).disk oneBlockDir t ↔ t = 0 := by
  have hslots : slots oneBlockDir = 8 := rfl
  rw [Live, hslots]
  constructor
  · rintro ⟨ht, hlive⟩
    rw [treeFS_slotInode hname ht] at hlive
    by_contra h0
    exact hlive (if_neg h0)
  · rintro rfl
    rw [treeFS_slotInode hname (by norm_num), if_pos rfl]
    norm_num

theorem treeFS_entry {c : List UInt8} {o' : ℕ} :
    Entry (treeFS name).disk 4096 c o' ↔ name = c ∧ o' = 4224 := by
  have hslot := treeFS_slotInode hname (show 0 < 8 by norm_num)
  rw [Entry, IsDir, treeFS_root]
  constructor
  · rintro ⟨_, t, ht, hc, ho⟩
    rw [treeFS_live hname] at ht
    subst ht
    rw [treeFS_slotName hname] at hc
    rw [hslot, if_pos rfl] at ho
    exact ⟨hc, ho.symm⟩
  · rintro ⟨rfl, rfl⟩
    refine ⟨by decide, 0, (treeFS_live hname).mpr rfl, treeFS_slotName hname, ?_⟩
    rw [hslot, if_pos rfl]

theorem treeFS_treeOk : TreeOk (treeFS name).disk 4096 := by
  intro cs o' hr hdir
  cases cs with
  | nil =>
    obtain rfl : 4096 = o' := hr
    rw [treeFS_root]
    refine ⟨by decide, fun t ht => ?_, fun t u ht hu _ => ?_⟩
    · rw [treeFS_live hname] at ht
      have hlen : ∀ name ∈ [[97], [97, 98]], (name : List UInt8).length < 64 := by decide
      rw [ht, treeFS_slotName hname]
      exact hlen name hname
    · rw [treeFS_live hname] at ht hu
      rw [ht, hu]
  | cons c cs =>
    obtain ⟨o₁, he, hr⟩ := hr
    rw [treeFS_entry hname] at he
    rw [he.2] at hr
    -- the file has no entries
    have hfile : ¬ IsDir (treeFS name).disk 4224 := by
      rw [IsDir, treeFS_file]
      decide
    cases cs with
    | nil =>
      rw [← show 4224 = o' from hr] at hdir
      exact absurd hdir hfile
    | cons c' cs =>
      obtain ⟨_, he', _⟩ := hr
      exact absurd he'.1 hfile

/-- The first entry that begins with a prefix of the name is the only one. -/
theorem treeFS_firstBegins {c : List UInt8} (hc : c <+: name) :
    firstBegins (treeFS name).disk oneBlockDir c = some 4224 := by
  have hslot := treeFS_slotInode hname (show 0 < 8 by norm_num)
  rw [if_pos rfl] at hslot
  have hbegins : beginsWith (treeFS name).disk oneBlockDir c 0 = true := by
    rw [beginsWith, decide_eq_true_eq, treeFS_slotName hname, hslot]
    exact ⟨by norm_num, hc⟩
  have hslots : slots oneBlockDir = 8 := rfl
  rw [firstBegins, hslots, breakIndex_eq (by norm_num) hbegins (fun j hj => absurd hj (by omega)),
    if_pos (by norm_num), hslot]

omit hname in
theorem treeFS_admissible {c : List UInt8} (hc : IsName c) :
    Admissible (treeFS name).disk 4096 [c] where
  ne_nil := List.cons_ne_nil _ _
  names := fun x hx => by
    rw [List.mem_singleton] at hx
    rwa [hx]
  dirs := fun pre hpre hne o' hr => by
    cases pre with
    | nil =>
      rw [← show 4096 = o' from hr, IsDir, treeFS_root]
      decide
    | cons x pre =>
      rw [List.cons_prefix_cons, List.prefix_nil] at hpre
      rw [hpre.1, hpre.2] at hne
      exact absurd rfl hne

end treeFS

theorem isName_a : IsName [97] := ⟨by decide, by decide, no_zero_of_all rfl⟩

/-- The file `a` is found. -/
theorem readInode_exact_a :
    LooksUp (readInode (treeFS [97]) Files.emptyFile (pathOf [[97]]) fun _ => 0)
      (treeFS [97]).disk (treeFS [97]).rootOffset [[97]] := by
  have htree : TreeOk (treeFS [97]).disk 4096 := treeFS_treeOk (by decide)
  refine (readInode_exact (treeFS_formatted [97]) htree).1 _ (treeFS_admissible isName_a) ?_ _ _
  intro pre c hpre o' hr o₁ hfirst
  obtain ⟨rfl, rfl⟩ : pre = [] ∧ c = [97] := by
    cases pre with
    | nil => simpa using hpre
    | cons x pre =>
      have := hpre.length_le
      simp at this
  rw [← show 4096 = o' from hr] at hfirst ⊢
  rw [treeFS_root, treeFS_firstBegins (by decide) (List.prefix_refl _)] at hfirst
  exact (treeFS_entry (by decide)).mpr ⟨rfl, (Option.some.inj hfirst).symm⟩

/-- In a directory with the one file `ab`, the path `/a` is found as well. -/
theorem readInode_finds_longer_name :
    Formatted (treeFS [97, 98]) ∧ TreeOk (treeFS [97, 98]).disk (treeFS [97, 98]).rootOffset
      ∧ Admissible (treeFS [97, 98]).disk (treeFS [97, 98]).rootOffset [[97]]
      ∧ ¬ LooksUp (readInode (treeFS [97, 98]) Files.emptyFile (pathOf [[97]]) fun _ => 0)
          (treeFS [97, 98]).disk (treeFS [97, 98]).rootOffset [[97]] := by
  have hf := treeFS_formatted [97, 98]
  have htree : TreeOk (treeFS [97, 98]).disk 4096 := treeFS_treeOk (by decide)
  have hadm : Admissible (treeFS [97, 98]).disk 4096 [[97]] := treeFS_admissible isName_a
  refine ⟨hf, htree, hadm, fun hlook => ?_⟩
  have hdir := htree.dirOk hadm.isDir
  rw [pathOf, readInode_slash, joinNames, show (treeFS [97, 98]).rootOffset = 4096 from rfl, treeFS_root,
    lookupLoop_last hf (by rwa [treeFS_root] at hdir) isName_a,
    treeFS_firstBegins (by decide) (by decide), Option.elim_some] at hlook
  obtain ⟨o₁, he, _⟩ := (hlook.1 4224).mp ⟨rfl, rfl⟩
  exact absurd ((treeFS_entry (by decide)).mp he).1 (by decide)

end SeL4Sys

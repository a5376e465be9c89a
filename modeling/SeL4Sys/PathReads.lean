import SeL4Sys.Lookup
import SeL4Sys.Lib.StringRead

/-!
# The characters that a lookup reads

`stringChr` and `readInode` as they go through the path by positions. A position behind the
terminating zero ends the run, and so does a loop that takes more than `fuel` rounds. Neither happens:
the run returns what the functions on the rest of the path return. A path that is empty, does not
start with a separator or has two of them in a row is rejected.
-/

namespace SeL4Sys

open Bytes CString Loop

variable {s : FS} {ino : Inode} {p rest : List UInt8} {o fuel : ℕ} {b : Buf}

/-! ## By positions -/

/-- `stringChr` on the path from `start` on, at character `i`. -/
def stringChrAt (p : List UInt8) (start : ℕ) (token : UInt8) : ℕ → ℕ → Option (ℤ × ℕ)
  | 0, _ => none
  | fuel + 1, i => (charAt p (start + i)).bind fun c =>
    if c = 0 then some (-1, i)
    else if token = c then some (0, i)
    else stringChrAt p start token fuel (i + 1)

/-- The test of `readInode` on an entry, with the name in the path from `count` on. -/
def matchesNameAt (p : List UInt8) (count size : ℕ) (e : Buf) : Option Bool :=
  if entryInode e = 0 then some false
  else (strncmpAt p (entryName e) count size).map fun r => r == 0

/-- The loop over the entries of a block, `n` of them from `j` on. -/
def entryLoopAt (buffer : Buf) (test : Buf → Option Bool) : ℕ → ℕ → Option ℕ
  | 0, j => some j
  | n + 1, j => (test (dirEntry buffer j)).bind fun found =>
    if found then some j else entryLoopAt buffer test n (j + 1)

/-- The loop over the blocks of a directory. -/
def scanEntriesAt (s : FS) (inode : Inode) (test : Buf → Option Bool) : ℕ → ℕ → Buf → Option Scan
  | 0, _, buffer => some (.missing buffer)
  | n + 1, i, buffer =>
    (readBlock s inode i buffer).elim (some .failed) fun buffer =>
      (entryLoopAt buffer test s.entriesPerBlock 0).bind fun j =>
        if j < s.entriesPerBlock then some (.found i j buffer)
        else scanEntriesAt s inode test n (i + 1) buffer

/-- The loop of `readInode` at position `count`, with at most `chars` rounds for each `stringChr`. -/
def lookupLoopAt (s : FS) (p : List UInt8) (chars : ℕ) :
    ℕ → ℕ → ℕ → Inode → Buf → Option Lookup
  | 0, _, _, _, _ => none
  | fuel + 1, count, inodeOffset, destInode, buffer => (charAt p count).bind fun c =>
    if c = 0 then some ⟨0, inodeOffset, destInode⟩
    else (stringChrAt p count slash chars 0).bind fun chr =>
      if chr.1 = 0 ∧ chr.2 = 0 then some ⟨-1, inodeOffset, destInode⟩
      else if chr.1 = 0 ∧ destInode.type = regularType then some ⟨-1, inodeOffset, destInode⟩
      else
        (scanEntriesAt s destInode (matchesNameAt p count chr.2) destInode.blockCount.toNat 0
          buffer).bind fun
        | .failed => some ⟨-1, inodeOffset, destInode⟩
        | .missing _ => some ⟨-1, inodeOffset, destInode⟩
        | .found _ j buffer =>
          let inodeOffset := entryInode (dirEntry buffer j)
          let destInode := loadInode s.disk inodeOffset
          if chr.1 = 0 then
            lookupLoopAt s p chars fuel (count + (chr.2 + 1)) inodeOffset destInode buffer
          else some ⟨0, inodeOffset, destInode⟩

/-- `readInode`, with at most `fuel` rounds for each of its loops over the path. -/
def readInodeAt (s : FS) (fuel : ℕ) (destInode : Inode) (p : List UInt8) (buffer : Buf) :
    Option Lookup :=
  (charAt p 0).bind fun c =>
    if c = 0 then some ⟨-1, 0, destInode⟩
    else (stringChrAt p 0 slash fuel 0).bind fun chr =>
      if chr.1 = -1 ∨ chr.2 ≠ 0 then some ⟨-1, 0, destInode⟩
      else
        lookupLoopAt s p fuel fuel (chr.2 + 1) s.rootOffset (loadInode s.disk s.rootOffset) buffer

/-! ## The run returns what the list functions return -/

theorem bufOf_eq_zero_iff (hp : ∀ x ∈ p, x ≠ 0) {i : ℕ} : bufOf p i = 0 ↔ p.length ≤ i := by
  constructor
  · intro hzero
    by_contra hi
    rw [bufOf_getElem (by omega)] at hzero
    exact hp _ (List.getElem_mem _) hzero
  · exact bufOf_eq_zero

/-- `stringChr` ends at the terminating zero at the latest. -/
theorem stringChrAt_eq (hp : ∀ x ∈ p, x ≠ 0) {start i : ℕ} {token : UInt8}
    (hi : start + i ≤ p.length) (hfuel : p.length < start + i + fuel) :
    stringChrAt p start token fuel i
      = some ((stringChr (p.drop (start + i)) token).1,
          i + (stringChr (p.drop (start + i)) token).2) := by
  induction fuel generalizing i with
  | zero => omega
  | succ fuel ih =>
    rw [stringChrAt, charAt_eq hi, Option.bind_some]
    by_cases hlast : p.length ≤ start + i
    · rw [if_pos ((bufOf_eq_zero_iff hp).mpr hlast), List.drop_eq_nil_of_le hlast]
      rfl
    · have hlt : start + i < p.length := not_le.mp hlast
      rw [if_neg fun h => hlast ((bufOf_eq_zero_iff hp).mp h), List.drop_eq_getElem_cons hlt, stringChr,
        bufOf_getElem hlt]
      split_ifs with htoken
      · rfl
      · rw [ih (by omega) (by omega), ← Nat.add_assoc start i 1]
        simp only [Nat.add_assoc, Nat.add_comm 1]

theorem stringChrAt_zero (hp : ∀ x ∈ p, x ≠ 0) {start : ℕ} {token : UInt8}
    (hstart : start ≤ p.length) (hfuel : p.length < start + fuel) :
    stringChrAt p start token fuel 0 = some (stringChr (p.drop start) token) := by
  rw [stringChrAt_eq hp hstart hfuel, Nat.add_zero, Nat.zero_add]

theorem matchesNameAt_eq {count size : ℕ} (h : count + size ≤ p.length) (e : Buf) :
    matchesNameAt p count size e = some (matchesName (p.drop count) size e) := by
  unfold matchesNameAt matchesName
  rw [strncmpAt_eq (by omega)]
  by_cases hlive : entryInode e = 0
  · simp [hlive]
  · simp [hlive]

theorem entryLoopAt_eq {test : Buf → Option Bool} {test' : Buf → Bool}
    (h : ∀ e, test e = some (test' e)) (buffer : Buf) (n j : ℕ) :
    entryLoopAt buffer test n j
      = some (j + breakIndex n fun l => test' (dirEntry buffer (j + l))) := by
  induction n generalizing j with
  | zero => rfl
  | succ n ih =>
    rw [entryLoopAt, h, Option.bind_some, breakIndex_succ]
    by_cases hfound : test' (dirEntry buffer j) = true
    · simp [hfound]
    · rw [if_neg hfound, ih, if_neg (by simpa using hfound)]
      congr 1
      simp only [Nat.add_assoc, Nat.add_comm 1]

theorem scanEntriesAt_eq {test : Buf → Option Bool} {test' : Buf → Bool}
    (h : ∀ e, test e = some (test' e)) (n i : ℕ) (buffer : Buf) :
    scanEntriesAt s ino test n i buffer = some (scanEntries s ino test' n i buffer) := by
  induction n generalizing i buffer with
  | zero => rfl
  | succ n ih =>
    rw [scanEntriesAt, scanEntries]
    cases readBlock s ino i buffer with
    | none => rfl
    | some buffer' =>
      simp only [Option.elim_some, entryLoopAt_eq h, Option.bind_some, Nat.zero_add]
      split_ifs
      · rfl
      · exact ih (i + 1) buffer'

/-- The characters that `stringChr` counts belong to the string. -/
theorem stringChr_le (p : List UInt8) (token : UInt8) :
    (stringChr p token).2 + (if (stringChr p token).1 = 0 then 1 else 0) ≤ p.length := by
  induction p with
  | nil => simp [stringChr]
  | cons c p ih =>
    rw [stringChr]
    split_ifs at * <;> simp_all

/-- The loop from position `count` on, by induction on the rounds: each one that is not the last
takes a character at least. -/
theorem lookupLoopAt_eq (hp : ∀ x ∈ p, x ≠ 0) {chars count n : ℕ} {buffer : Buf}
    (hchars : p.length < chars) (hcount : count ≤ p.length) (hfuel : p.length < count + fuel)
    (hn : p.length ≤ count + n) :
    lookupLoopAt s p chars fuel count o ino buffer
      = some (lookupLoop s n (p.drop count) o ino buffer) := by
  induction fuel generalizing count n o ino buffer with
  | zero => omega
  | succ fuel ih =>
    rw [lookupLoopAt, charAt_eq hcount, Option.bind_some]
    by_cases hlast : p.length ≤ count
    · rw [if_pos ((bufOf_eq_zero_iff hp).mpr hlast), List.drop_eq_nil_of_le hlast, lookupLoop]
    · have hlt : count < p.length := not_le.mp hlast
      obtain ⟨n', hn'⟩ : ∃ n', n = n' + 1 := ⟨n - 1, by omega⟩
      subst hn'
      have hle := stringChr_le (p.drop count) slash
      rw [List.length_drop] at hle
      rw [if_neg fun h => hlast ((bufOf_eq_zero_iff hp).mp h), stringChrAt_zero hp hcount (by omega),
        Option.bind_some]
      have hmatches : ∀ e, matchesNameAt p count (stringChr (p.drop count) slash).2 e
          = some (matchesName (p.drop count) (stringChr (p.drop count) slash).2 e) :=
        matchesNameAt_eq (by omega)
      simp only [scanEntriesAt_eq hmatches, Option.bind_some]
      have hdrop : p.drop (count + ((stringChr (p.drop count) slash).2 + 1))
          = (p.drop count).drop ((stringChr (p.drop count) slash).2 + 1) := by
        rw [List.drop_drop]
      -- the next round starts behind the separator, which is inside the string
      have hrest : ∀ {o ino buffer}, (stringChr (p.drop count) slash).1 = 0 →
          lookupLoopAt s p chars fuel (count + ((stringChr (p.drop count) slash).2 + 1)) o ino buffer
            = some (lookupLoop s n' ((p.drop count).drop ((stringChr (p.drop count) slash).2 + 1))
                o ino buffer) := by
        intro o ino buffer hfound
        rw [if_pos hfound] at hle
        rw [← hdrop]
        exact ih (by omega) (by omega) (by omega)
      rw [List.drop_eq_getElem_cons hlt] at *
      rw [lookupLoop, scanDir]
      generalize scanEntries s ino (matchesName (p[count] :: p.drop (count + 1))
        (stringChr (p[count] :: p.drop (count + 1)) slash).2) ino.blockCount.toNat 0 buffer = found
      cases found with
      | failed => split_ifs <;> rfl
      | missing _ => split_ifs <;> rfl
      | found _ j _ =>
        split_ifs with hdouble hfile hmore
        · rfl
        · rfl
        · exact hrest hmore
        · rfl

/-- `readInode` ends, and looks at no character behind the terminating zero. -/
theorem readInodeAt_eq (hp : ∀ x ∈ p, x ≠ 0) (hfuel : p.length < fuel) :
    readInodeAt s fuel ino p b = some (readInode s ino p b) := by
  rw [readInodeAt, charAt_eq (Nat.zero_le _), Option.bind_some]
  unfold readInode
  by_cases hnil : p = []
  · rw [if_pos ((bufOf_eq_zero_iff hp).mpr (by simp [hnil])), if_pos hnil]
  · have hpos : 0 < p.length := List.length_pos_of_ne_nil hnil
    have hfirst : bufOf p 0 ≠ 0 := fun h => by
      have := (bufOf_eq_zero_iff hp).mp h
      omega
    rw [if_neg hfirst, if_neg hnil, stringChrAt_zero hp (Nat.zero_le _) (by omega),
      Option.bind_some, List.drop_zero]
    split_ifs with hstart
    · rfl
    · have hle := stringChr_le p slash
      apply lookupLoopAt_eq hp hfuel <;> split_ifs at hle <;> omega

/-! ## Malformed paths -/

/-- Two separators in a row. -/
abbrev doubleSlash : List UInt8 := [slash, slash]

/-- The separators come after the first component. -/
theorem doubleSlash_infix {c r : List UInt8} (hc : slash ∉ c)
    (h : doubleSlash <:+: c ++ slash :: r) : doubleSlash <:+: slash :: r := by
  induction c with
  | nil => exact h
  | cons x c ih =>
    rw [List.mem_cons, not_or] at hc
    rw [List.cons_append, List.infix_cons_iff] at h
    rcases h with h | h
    · exact absurd (List.cons_prefix_cons.mp h).1 hc.1
    · exact ih hc.2 h

/-- The loop meets every pair of separators that is still to come, by induction on the rounds. `rest`
follows a separator. -/
theorem lookupLoop_doubleSlash (h : doubleSlash <:+: slash :: rest) {buffer : Buf} :
    (lookupLoop s fuel rest o ino buffer).ret = -1 := by
  induction fuel generalizing rest o ino buffer with
  | zero =>
    cases rest with
    | nil => exact absurd h.length_le (by decide)
    | cons _ _ => rfl
  | succ fuel ih =>
    cases rest with
    | nil => exact absurd h.length_le (by decide)
    | cons x xs =>
      by_cases hmem : slash ∈ x :: xs
      · obtain ⟨c, r, heq, hc⟩ := List.eq_append_cons_of_mem hmem
        have hchr : stringChr (x :: xs) slash = (0, c.length) := by
          rw [heq]
          exact stringChr_append hc r
        rw [lookupLoop]
        simp only [hchr]
        split_ifs with hnil hreg
        · rfl
        · rfl
        · -- the component is not empty, so the pair is behind it
          have hrest : doubleSlash <:+: slash :: r := by
            apply doubleSlash_infix hc
            rw [← heq]
            rcases List.infix_cons_iff.mp h with hpre | hinf
            · rw [List.cons_prefix_cons, heq] at hpre
              cases c with
              | nil => exact absurd ⟨trivial, rfl⟩ hnil
              | cons y ys =>
                exact absurd (List.cons_prefix_cons.mp hpre.2).1 fun hy => hc (hy ▸ List.mem_cons_self)
            · exact hinf
          have hdrop : (x :: xs).drop (c.length + 1) = r := by
            rw [heq, List.drop_append]
            simp
          rw [hdrop]
          split
          · rfl
          · rfl
          · exact ih hrest
      · -- the last component: it has no separator
        rcases List.infix_cons_iff.mp h with hpre | hinf
        · rw [List.cons_prefix_cons] at hpre
          exact absurd (hpre.2.subset List.mem_cons_self) hmem
        · exact absurd (hinf.subset List.mem_cons_self) hmem

theorem readInode_malformed (h : p.head? ≠ some slash ∨ doubleSlash <:+: p) :
    (readInode s ino p b).ret = -1 := by
  unfold readInode
  match p, h with
  | [], _ => rfl
  | x :: xs, h =>
    rw [if_neg (List.cons_ne_nil x xs)]
    by_cases hx : slash = x
    · subst hx
      have hdouble : doubleSlash <:+: slash :: xs := h.resolve_left fun h => h rfl
      have hchr : stringChr (slash :: xs) slash = (0, 0) := rfl
      simp only [hchr]
      exact lookupLoop_doubleSlash hdouble
    · have hchr : (stringChr (x :: xs) slash).2 ≠ 0 := by
        rw [stringChr, if_neg hx]
        exact Nat.succ_ne_zero _
      rw [if_pos (Or.inr hchr)]

/-- The lookup of any string on any disk. -/
theorem readInode_rejects (hp : ∀ x ∈ p, x ≠ 0) :
    (∀ fuel, p.length < fuel → readInodeAt s fuel ino p b = some (readInode s ino p b))
      ∧ (p = [] ∨ p.head? ≠ some slash ∨ doubleSlash <:+: p → (readInode s ino p b).ret = -1) := by
  refine ⟨fun fuel hfuel => readInodeAt_eq hp hfuel, ?_⟩
  intro h
  apply readInode_malformed
  rcases h with hnil | h
  · rw [hnil]
    exact Or.inl (by decide)
  · exact h

/-- The path `/a//b` where there is a file `a`. -/
theorem readInode_rejects_double :
    (∀ fuel, 5 < fuel →
      readInodeAt (treeFS [97]) fuel Files.emptyFile [slash, 97, slash, slash, 98] (fun _ => 0)
        = some (readInode (treeFS [97]) Files.emptyFile [slash, 97, slash, slash, 98] fun _ => 0))
      ∧ (readInode (treeFS [97]) Files.emptyFile [slash, 97, slash, slash, 98] fun _ => 0).ret = -1 := by
  have hp : ∀ x ∈ [slash, 97, slash, slash, 98], x ≠ 0 := no_zero_of_all rfl
  exact ⟨(readInode_rejects hp).1,
    (readInode_rejects hp).2 (Or.inr (Or.inr ⟨[slash, 97], [98], rfl⟩))⟩

end SeL4Sys

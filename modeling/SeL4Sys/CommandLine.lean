import SeL4Sys.Lib.CString
import SeL4Sys.Lib.Words

/-!
# The command line of the shell

The main loop of the shell reads a line into `buf`, splits it at the spaces and runs a command. Splitting
writes zeros into `buf`, and `argv` gets pointers into it. Neither `BUF_SIZE` nor `MAX_ARGS` is tested
anywhere, so here every access to the two arrays can fail, and `tokenise_exact_iff` says for which lines
none does: then, and only then, the arguments are the words of the line.

The arrays keep what they held when the loop comes to the next line, and the model starts from any contents.
-/

namespace SeL4Sys.CommandLine

open Bytes CString Loop Words Function

/-- `BUF_SIZE` -/
@[simp] abbrev bufSize : ℕ := 64

/-- `MAX_ARGS` -/
@[simp] abbrev maxArgs : ℕ := 8

@[simp] abbrev newline : UInt8 := 10

@[simp] abbrev space : UInt8 := 32

/-- The characters of a string. -/
def ascii (s : String) : List UInt8 := s.toList.map fun c => c.toNat.toUInt8

/-- Why a line does not get to the commands. -/
inductive Stop
  /-- An access outside `buf`. -/
  | outsideBuf
  /-- A store outside `argv`. -/
  | outsideArgv
  /-- `getchar` has nothing to return. -/
  | noInput
deriving DecidableEq

/-- What an element of `argv` points to. -/
inductive Arg
  /-- `buf + p` -/
  | inBuf (p : ℕ)
  /-- A string of the program. -/
  | literal (s : List UInt8)

/-- `buf[p]` -/
def load (buf : Buf) (p : ℕ) : Except Stop UInt8 :=
  if p < bufSize then .ok (buf p) else .error .outsideBuf

/-- `buf[p] = c` -/
def store (buf : Buf) (p : ℕ) (c : UInt8) : Except Stop Buf :=
  if p < bufSize then .ok (update buf p c) else .error .outsideBuf

/-- `argv[i] = a` -/
def storeArg (argv : ℕ → Arg) (i : ℕ) (a : Arg) : Except Stop (ℕ → Arg) :=
  if i < maxArgs then .ok (update argv i a) else .error .outsideArgv

/-! ## Reading -/

/-- `while ((buf[k] = getchar()) != '\n') k++; buf[k] = 0;` with the input that is left. -/
def readLine : List UInt8 → ℕ → Buf → Except Stop (Buf × List UInt8)
  | [], _, _ => .error .noInput
  | c :: input, k, buf => do
    let buf ← store buf k c
    if c ≠ newline then readLine input (k + 1) buf
    else
      let buf ← store buf k 0
      return (buf, input)

/-! ## Splitting -/

/-- `while (test(*p)) p++;` The character that ends the loop is read as well. -/
def scan (buf : Buf) (test : UInt8 → Bool) (p : ℕ) : Except Stop ℕ :=
  let q := p + breakIndex (bufSize - p) fun j => !test (buf (p + j))
  if q < bufSize then .ok q else .error .outsideBuf

/-- The loop that fills `argv`. The first argument bounds the rounds: each of them moves `p` forward, so
after `bufSize` of them `p` is behind `buf`. -/
def splitLoop : ℕ → Buf → (ℕ → Arg) → ℕ → ℕ → Except Stop (Buf × (ℕ → Arg) × ℕ)
  | 0, _, _, _, _ => .error .outsideBuf
  | n + 1, buf, argv, argc, p => do
    if (← load buf p) = 0 then return (buf, argv, argc)
    -- remove any leading spaces
    let p ← scan buf (· == space) p
    if (← load buf p) = 0 then return (buf, argv, argc)
    -- start of the arg
    let argv ← storeArg argv argc (.inBuf p)
    let p ← scan buf (fun c => c != space && c != 0) p
    if (← load buf p) = 0 then return (buf, argv, argc + 1)
    -- null out first space
    let buf ← store buf p 0
    splitLoop n buf argv (argc + 1) (p + 1)

/-- The variables of `main`. -/
structure Shell where
  buf : Buf
  argv : ℕ → Arg
  argc : ℕ

/-- The string that an element of `argv` points to. -/
def Shell.string (s : Shell) : Arg → List UInt8
  | .inBuf p => cstr (window s.buf p) (bufSize - p)
  | .literal l => l

/-- `argv[0]` to `argv[argc - 1]` -/
def Shell.args (s : Shell) : List (List UInt8) :=
  (List.range s.argc).map fun i => s.string (s.argv i)

/-- The part of the main loop before the commands. -/
def tokenise (s : Shell) (input : List UInt8) : Except Stop (Shell × List UInt8) := do
  let (buf, input) ← readLine input 0 s.buf
  let (buf, argv, argc) ← splitLoop bufSize buf s.argv 0 0
  return (⟨buf, argv, argc⟩, input)

/-- The words of a line. -/
def lineWords (line : List UInt8) : List (List UInt8) := words (· == space) line

/-! ## Strings in the buffer -/

/-- From `p` on the buffer holds `l` and a zero. -/
def Holds (buf : Buf) (p : ℕ) (l : List UInt8) : Prop := ∀ i, i ≤ l.length → buf (p + i) = bufOf l i

section
variable {buf : Buf} {p k : ℕ} {l w line input : List UInt8}

theorem Holds.append_right (h : Holds buf p (w ++ l)) : Holds buf (p + w.length) l := by
  intro i hi
  rw [Nat.add_assoc, h _ (by rw [List.length_append]; omega), bufOf_append_right]

theorem Holds.zero (h : Holds buf p l) : buf (p + l.length) = 0 := by
  rw [h _ le_rfl, bufOf_eq_zero le_rfl]

theorem Holds.head {c : UInt8} (h : Holds buf p (c :: l)) : buf p = c := h 0 (Nat.zero_le _)

theorem Holds.congr {buf' : Buf} (h : Holds buf p l)
    (heq : ∀ i, i ≤ l.length → buf' (p + i) = buf (p + i)) : Holds buf' p l :=
  fun i hi => (heq i hi).trans (h i hi)

theorem Holds.cons {c : UInt8} (hc : buf p = c) (h : Holds buf (p + 1) l) : Holds buf p (c :: l) := by
  intro i hi
  cases i with
  | zero => exact hc
  | succ i =>
    rw [Nat.add_comm i 1, ← Nat.add_assoc, h i (by simpa using hi), Nat.add_comm 1 i]
    rfl

/-- A zero behind `w` ends the string there. -/
theorem Holds.cut (h : Holds buf p (w ++ l)) : Holds (update buf (p + w.length) 0) p w := by
  intro i hi
  by_cases hend : i = w.length
  · rw [hend, update_self, bufOf_eq_zero le_rfl]
  · rw [update_of_ne (by omega), h i (by rw [List.length_append]; omega),
      bufOf_append_left (by omega)]

theorem Holds.cstr_eq (h : Holds buf p l) (hl : ∀ c ∈ l, c ≠ 0) (hlen : p + l.length < bufSize) :
    cstr (window buf p) (bufSize - p) = l :=
  cstr_eq_of_bytes hl (by omega) fun i hi => h i hi

/-! ## Reading -/

theorem readLine_cons {c : UInt8} (hk : k < bufSize) (hc : c ≠ newline) :
    readLine (c :: input) k buf = readLine input (k + 1) (update buf k c) := by
  rw [readLine, store, if_pos hk]
  exact if_pos hc

theorem readLine_newline (hk : k < bufSize) : readLine (newline :: input) k buf
    = .ok (update (update buf k newline) k 0, input) := by
  rw [readLine, store, if_pos hk]
  show (store _ k 0 >>= _) = _
  rw [store, if_pos hk]
  rfl

theorem readLine_outside {c : UInt8} (hk : bufSize ≤ k) :
    readLine (c :: input) k buf = .error .outsideBuf := by
  rw [readLine, store, if_neg (by omega)]
  rfl

theorem readLine_eq (hline : ∀ c ∈ line, c ≠ newline) (hlen : k + line.length < bufSize) :
    ∃ buf', readLine (line ++ newline :: input) k buf = .ok (buf', input) ∧ Holds buf' k line
      ∧ ∀ q, q < k → buf' q = buf q := by
  induction line generalizing k buf with
  | nil =>
    refine ⟨_, readLine_newline (by omega), ?_, ?_⟩
    · intro i hi
      rw [Nat.le_zero.mp hi, Nat.add_zero, update_self]
      rfl
    · intro q hq
      rw [update_of_ne (by omega), update_of_ne (by omega)]
  | cons c line ih =>
    rw [List.length_cons] at hlen
    obtain ⟨buf', hread, hholds, hkeep⟩ := @ih (update buf k c) (k + 1)
      (fun d hd => hline d (List.mem_cons_of_mem _ hd)) (by omega)
    refine ⟨buf', ?_, ?_, ?_⟩
    · rw [List.cons_append, readLine_cons (by omega) (hline c List.mem_cons_self)]
      exact hread
    · refine hholds.cons ?_
      rw [hkeep k (by omega), update_self]
    · intro q hq
      rw [hkeep q (by omega), update_of_ne (by omega)]

/-- Nothing in the loop looks at the length of the line. -/
theorem readLine_long (hline : ∀ c ∈ line, c ≠ newline) (hlen : bufSize ≤ k + line.length) :
    readLine (line ++ newline :: input) k buf = .error .outsideBuf := by
  induction line generalizing k buf with
  | nil => exact readLine_outside hlen
  | cons c line ih =>
    rw [List.length_cons] at hlen
    rw [List.cons_append]
    by_cases hk : k < bufSize
    · rw [readLine_cons hk (hline c List.mem_cons_self)]
      exact ih (fun d hd => hline d (List.mem_cons_of_mem _ hd)) (by omega)
    · exact readLine_outside (not_lt.mp hk)

/-! ## Splitting -/

theorem load_eq (hp : p < bufSize) : load buf p = .ok (buf p) := if_pos hp

theorem store_eq {c : UInt8} (hp : p < bufSize) : store buf p c = .ok (update buf p c) :=
  if_pos hp

/-- The loop stops at the first character of `l`, or at the zero behind `w`. -/
theorem scan_eq {test : UInt8 → Bool} (h : Holds buf p (w ++ l)) (hw : ∀ c ∈ w, test c = true)
    (hl : test (bufOf l 0) = false) (hlen : p + w.length < bufSize) :
    scan buf test p = .ok (p + w.length) := by
  have hbreak : breakIndex (bufSize - p) (fun j => !test (buf (p + j))) = w.length := by
    apply breakIndex_eq (by omega)
    · rw [h _ (by rw [List.length_append]; omega), ← Nat.add_zero w.length, bufOf_append_right, hl]
      rfl
    · intro j hj
      rw [h _ (by rw [List.length_append]; omega), bufOf_append_left hj, bufOf_getElem hj,
        hw _ (List.getElem_mem hj)]
      rfl
  rw [scan, hbreak]
  exact if_pos hlen

/-- A line of spaces has no arguments. -/
theorem splitLoop_spaces {argv : ℕ → Arg} {argc n : ℕ} (h : Holds buf p l) (hl : ∀ c ∈ l, (c == space) = true)
    (hlen : p + l.length < bufSize) : splitLoop (n + 1) buf argv argc p = .ok (buf, argv, argc) := by
  rw [splitLoop, load_eq (by omega)]
  show (if buf p = 0 then _ else _) = _
  by_cases hp : buf p = 0
  · rw [if_pos hp]
    rfl
  · have hscan : scan buf (· == space) p = .ok (p + l.length) :=
      scan_eq (l := []) (by rwa [List.append_nil]) hl rfl hlen
    rw [if_neg hp, hscan]
    show (load buf (p + l.length) >>= _) = _
    rw [load_eq hlen]
    exact if_pos h.zero

/-- One round of the loop: the word `w` behind the spaces `s`. -/
theorem splitLoop_word {argv : ℕ → Arg} {argc n : ℕ} {s : List UInt8} (h : Holds buf p (s ++ (w ++ l)))
    (hs : ∀ c ∈ s, (c == space) = true) (hne : w ≠ []) (hw : ∀ c ∈ w, (c == space) = false)
    (hzero : ∀ c ∈ w, c ≠ 0) (hl : ∀ c ∈ l.head?, (c == space) = true)
    (hlen : p + (s ++ (w ++ l)).length < bufSize) :
    splitLoop (n + 1) buf argv argc p
      = (storeArg argv argc (.inBuf (p + s.length)) >>= fun argv =>
          if bufOf l 0 = 0 then .ok (buf, argv, argc + 1)
          else splitLoop n (update buf (p + s.length + w.length) 0) argv (argc + 1)
            (p + s.length + w.length + 1)) := by
  obtain ⟨b, w', rfl⟩ := List.exists_cons_of_ne_nil hne
  have hb : b ≠ 0 := hzero b List.mem_cons_self
  have hafter := h.append_right
  have hbehind := hafter.append_right
  simp only [List.length_append] at hlen
  have hfirst : buf p ≠ 0 := by
    cases s with
    | nil => rwa [h.head]
    | cons a s =>
      rw [h.head, eq_of_beq (hs a List.mem_cons_self)]
      decide
  have hspaces : scan buf (· == space) p = .ok (p + s.length) :=
    scan_eq h hs (hw b List.mem_cons_self) (by omega)
  have hword : scan buf (fun c => c != space && c != 0) (p + s.length)
      = .ok (p + s.length + (b :: w').length) := by
    refine scan_eq hafter ?_ ?_ (by omega)
    · intro c hc
      simp [bne, hw c hc, hzero c hc]
    · cases l with
      | nil => rfl
      | cons a l =>
        have ha : (bufOf (a :: l) 0 == space) = true := hl a rfl
        simp only [bne, ha, Bool.not_true, Bool.false_and]
  have hend : buf (p + s.length + (b :: w').length) = bufOf l 0 := hbehind 0 (Nat.zero_le _)
  rw [splitLoop, load_eq (by omega)]
  show (if buf p = 0 then _ else _) = _
  rw [if_neg hfirst, hspaces]
  show (load buf (p + s.length) >>= _) = _
  rw [load_eq (by omega)]
  show (if buf (p + s.length) = 0 then _ else _) = _
  rw [if_neg (by rwa [hafter.head])]
  refine congrArg (storeArg argv argc _ >>= ·) (funext fun argv => ?_)
  rw [hword]
  show (load buf (p + s.length + (b :: w').length) >>= _) = _
  rw [load_eq (by omega)]
  show (if buf (p + s.length + (b :: w').length) = 0 then _ else _) = _
  rw [hend, store_eq (by omega)]
  rfl

/-- The first arguments are the strings `ws`, which end before `p`. -/
def Split (buf : Buf) (argv : ℕ → Arg) (p : ℕ) (ws : List (List UInt8)) : Prop :=
  ∀ i (hi : i < ws.length), ∃ q, argv i = .inBuf q ∧ q + ws[i].length < p ∧ Holds buf q ws[i]
    ∧ ∀ c ∈ ws[i], c ≠ 0

variable {argv : ℕ → Arg} {ws : List (List UInt8)}

theorem Split.mono (h : Split buf argv p ws) (hp : p ≤ k) : Split buf argv k ws := by
  intro i hi
  obtain ⟨q, harg, hq, hholds⟩ := h i hi
  exact ⟨q, harg, hq.trans_le hp, hholds⟩

/-- One argument more, and nothing is written before `p`. -/
theorem Split.snoc {buf' : Buf} {q : ℕ} (h : Split buf argv p ws) (hkeep : ∀ r, r < p → buf' r = buf r)
    (hw : Holds buf' q w) (hzero : ∀ c ∈ w, c ≠ 0) (hpq : p ≤ q) (hqk : q + w.length < k) :
    Split buf' (update argv ws.length (.inBuf q)) k (ws ++ [w]) := by
  intro i hi
  by_cases hlast : i = ws.length
  · subst hlast
    rw [update_self, List.getElem_concat_length rfl]
    exact ⟨q, rfl, hqk, hw, hzero⟩
  · have hi' : i < ws.length := by
      rw [List.length_append, List.length_singleton] at hi
      omega
    obtain ⟨r, harg, hr, hholds, hnonzero⟩ := h i hi'
    rw [update_of_ne hlast, List.getElem_append_left hi']
    exact ⟨r, harg, by omega, hholds.congr fun j hj => hkeep _ (by omega), hnonzero⟩

/-- Strings that end in the buffer are what the arguments point to. -/
theorem Split.args_eq {s : Shell} (h : Split s.buf s.argv bufSize ws) (hargc : s.argc = ws.length) :
    s.args = ws := by
  rw [Shell.args, hargc]
  apply List.ext_getElem
  · rw [List.length_map, List.length_range]
  · intro i _ hi
    obtain ⟨q, harg, hq, hholds, hzero⟩ := h i hi
    rw [List.getElem_map, List.getElem_range, harg]
    exact hholds.cstr_eq hzero hq

/-- The loop, from any round on: the words of the rest of the line become arguments if there is room for them,
and otherwise it writes behind `argv`. -/
theorem splitLoop_run {n : ℕ} (hs : Split buf argv p ws) (hws : ws.length ≤ maxArgs) (h : Holds buf p l)
    (hzero : ∀ c ∈ l, c ≠ 0) (hlen : p + l.length < bufSize) (hn : bufSize ≤ p + n) :
    ((ws ++ lineWords l).length ≤ maxArgs
      ∧ ∃ buf' argv', splitLoop n buf argv ws.length p = .ok (buf', argv', (ws ++ lineWords l).length)
        ∧ Split buf' argv' bufSize (ws ++ lineWords l))
    ∨ (maxArgs < (ws ++ lineWords l).length
      ∧ splitLoop n buf argv ws.length p = .error .outsideArgv) := by
  induction n generalizing buf argv p l ws with
  | zero => omega
  | succ n ih =>
    obtain hall | ⟨s, w, t, rfl, hspaces, hne, hw, ht⟩ := cases_words (· == space) l
    · -- no word is left
      left
      rw [lineWords, words_eq_nil hall, List.append_nil]
      exact ⟨hws, buf, argv, splitLoop_spaces h hall hlen, hs.mono (by omega)⟩
    have hzero' : ∀ c ∈ w, c ≠ 0 := fun c hc =>
      hzero c (List.mem_append_right _ (List.mem_append_left _ hc))
    have hwords : ws ++ lineWords (s ++ (w ++ t)) = (ws ++ [w]) ++ lineWords t := by
      rw [lineWords, words_run hspaces hne hw ht, List.append_assoc]
      rfl
    rw [splitLoop_word h hspaces hne hw hzero' ht hlen, hwords, storeArg]
    simp only [List.length_append] at hlen
    by_cases hroom : ws.length < maxArgs
    · rw [if_pos hroom]
      show (_ ∧ ∃ buf' argv', (if bufOf t 0 = 0 then _ else _) = _ ∧ _)
        ∨ (_ ∧ (if bufOf t 0 = 0 then _ else _) = _)
      cases t with
      | nil =>
        -- the line ends with the word
        left
        have hword : Holds buf (p + s.length) w := by
          have := h.append_right
          rwa [List.append_nil] at this
        rw [if_pos (by rfl : bufOf [] 0 = 0), lineWords, words_eq_nil (by simp), List.append_nil,
          List.length_append, List.length_singleton]
        exact ⟨hroom, buf, _, rfl,
          hs.snoc (fun _ _ => rfl) hword hzero' (Nat.le_add_right _ _) (by omega)⟩
      | cons a t =>
        -- a space follows, which becomes the end of the word
        have hskip : lineWords (a :: t) = lineWords t := words_cons (ht a rfl)
        have hnonzero : bufOf (a :: t) 0 ≠ 0 := hzero a (by simp)
        have hbehind : Holds buf (p + s.length + w.length) ([a] ++ t) := h.append_right.append_right
        have hrest : Holds (update buf (p + s.length + w.length) 0) (p + s.length + w.length + 1) t :=
          hbehind.append_right.congr fun i _ => update_of_ne (by simp; omega) _ _
        have hkeep : ∀ r, r < p → update buf (p + s.length + w.length) 0 r = buf r :=
          fun r hr => update_of_ne (by omega) _ _
        have hone : (ws ++ [w]).length = ws.length + 1 := List.length_append
        rw [List.length_cons] at hlen
        rw [if_neg hnonzero, hskip, ← hone]
        exact ih (hs.snoc hkeep h.append_right.cut hzero' (Nat.le_add_right _ _) (Nat.lt_succ_self _))
          (by omega) hrest (fun c hc => hzero c (by simp [hc])) (by omega) (by omega)
    · -- `argv` is full
      right
      rw [if_neg hroom]
      simp only [List.length_append, List.length_singleton]
      exact ⟨by omega, rfl⟩

/-! ## The line -/

/-- The characters that can be in a line. -/
def IsLine (line : List UInt8) : Prop := ∀ c ∈ line, c ≠ newline ∧ c ≠ 0

instance (line : List UInt8) : Decidable (IsLine line) :=
  List.decidableBAll (fun c => c ≠ newline ∧ c ≠ 0) line

theorem tokenise_of_readLine {s : Shell} {buf' : Buf} {input' : List UInt8}
    (h : readLine input 0 s.buf = .ok (buf', input')) :
    tokenise s input = (splitLoop bufSize buf' s.argv 0 0).map fun r => (⟨r.1, r.2.1, r.2.2⟩, input') := by
  rw [tokenise, h]
  show (splitLoop bufSize buf' s.argv 0 0 >>= _) = _
  cases splitLoop bufSize buf' s.argv 0 0 <;> rfl

theorem tokenise_long (s : Shell) (hline : IsLine line) (hlen : bufSize ≤ line.length)
    (input : List UInt8) : tokenise s (line ++ newline :: input) = .error .outsideBuf := by
  rw [tokenise, readLine_long (fun c hc => (hline c hc).1) (by omega)]
  rfl

/-- A line that fits into `buf`. -/
theorem tokenise_short (s : Shell) (hline : IsLine line) (hlen : line.length < bufSize)
    (input : List UInt8) :
    ((lineWords line).length ≤ maxArgs ∧ ∃ s', tokenise s (line ++ newline :: input) = .ok (s', input)
        ∧ s'.args = lineWords line)
      ∨ (maxArgs < (lineWords line).length
        ∧ tokenise s (line ++ newline :: input) = .error .outsideArgv) := by
  obtain ⟨buf', hread, hholds, -⟩ := readLine_eq (k := 0) (fun c hc => (hline c hc).1) (by omega)
  rw [tokenise_of_readLine hread]
  have hnone : Split buf' s.argv 0 [] := nofun
  obtain ⟨hfew, buf'', argv', hsplit, hargs⟩ | ⟨hmany, hsplit⟩ := splitLoop_run hnone (Nat.zero_le _) hholds
    (fun c hc => (hline c hc).2) (by omega) (Nat.le_of_eq (Nat.zero_add bufSize).symm)
  · exact .inl ⟨hfew, ⟨buf'', argv', (lineWords line).length⟩, congrArg (Except.map _) hsplit,
      hargs.args_eq rfl⟩
  · exact .inr ⟨hmany, congrArg (Except.map _) hsplit⟩

/-- **The tokeniser.** For every line, every contents of the arrays and every input behind the line: the line
is read and split inside `buf` and `argv`, and the arguments are its words, if and only if it has fewer
than `BUF_SIZE` characters and at most `MAX_ARGS` words. -/
theorem tokenise_exact_iff (s : Shell) (hline : IsLine line) (input : List UInt8) :
    (∃ s', tokenise s (line ++ newline :: input) = .ok (s', input) ∧ s'.args = lineWords line)
      ↔ line.length < bufSize ∧ (lineWords line).length ≤ maxArgs := by
  by_cases hlen : line.length < bufSize
  · obtain ⟨hfew, hok⟩ | ⟨hmany, herror⟩ := tokenise_short s hline hlen input
    · exact iff_of_true hok ⟨hlen, hfew⟩
    · rw [herror]
      refine iff_of_false ?_ fun h => absurd h.2 (not_le.mpr hmany)
      rintro ⟨s', hs', -⟩
      cases hs'
  · rw [tokenise_long s hline (not_lt.mp hlen) input]
    refine iff_of_false ?_ fun h => hlen h.1
    rintro ⟨s', hs', -⟩
    cases hs'

/-- The variables when `main` starts. -/
def start : Shell := ⟨fun _ => 0, fun _ => .inBuf 0, 0⟩

/-- Spaces at the beginning, between the words and at the end. -/
theorem tokenise_exact_spaces :
    ∃ s', tokenise start (ascii "  cd   /bin " ++ newline :: []) = .ok (s', [])
      ∧ s'.args = [ascii "cd", ascii "/bin"] :=
  (tokenise_exact_iff start (by decide : IsLine (ascii "  cd   /bin ")) []).mpr ⟨by decide, by decide⟩

/-- Nine words, and a line of 64 characters. -/
theorem tokenise_outside :
    IsLine (ascii "a b c d e f g h i")
      ∧ tokenise start (ascii "a b c d e f g h i" ++ newline :: []) = .error .outsideArgv
      ∧ IsLine (List.replicate 64 97)
      ∧ tokenise start (List.replicate 64 97 ++ newline :: []) = .error .outsideBuf := by
  have hwords : IsLine (ascii "a b c d e f g h i") := by decide
  have hlong : IsLine (List.replicate 64 97) := by
    intro c hc
    rw [List.eq_of_mem_replicate hc]
    decide
  refine ⟨hwords, ?_, hlong, tokenise_long start hlong List.length_replicate.ge []⟩
  obtain ⟨hfew, -⟩ | ⟨-, herror⟩ := tokenise_short start hwords (by decide) []
  · exact absurd hfew (by decide)
  · exact herror

end

/-! ## The commands -/

inductive Command
  | pwd
  | ls
  | ps
  | secondTime
  | cd
  | exec
deriving DecidableEq

/-- `commands` -/
def commands : List (List UInt8 × Command) :=
  [(ascii "pwd", .pwd), (ascii "ls", .ls), (ascii "dir", .ls), (ascii "ps", .ps),
    (ascii "time", .secondTime), (ascii "cd", .cd), (ascii "exec", .exec)]

/-- A call of one of the commands with `argv[0]` to `argv[argc - 1]`. -/
structure Call where
  command : Command
  args : List (List UInt8)

/-- `argc = 2; argv[1] = argv[0]; argv[0] = "exec";` -/
def Shell.withExec (s : Shell) : Shell where
  buf := s.buf
  argv := update (update s.argv 1 (s.argv 0)) 0 (.literal (ascii "exec"))
  argc := 2

/-- One round of the main loop: the variables, the input that is left and the call, if the line has a word.
The commands leave the variables alone. -/
def mainRound (s : Shell) (input : List UInt8) : Except Stop (Shell × List UInt8 × Option Call) := do
  let (s, input) ← tokenise s input
  if s.argc = 0 then return (s, input, none)
  -- `strcmp(argv[0], commands[i].name) == 0`
  match commands.find? fun c => c.1 == s.string (s.argv 0) with
  | some c => return (s, input, some ⟨c.2, s.args⟩)
  | none => return (s.withExec, input, some ⟨.exec, s.withExec.args⟩)

/-- `n` rounds of the main loop, with the calls they make. -/
def mainLoop : ℕ → Shell → List UInt8 → Except Stop (Shell × List UInt8 × List Call)
  | 0, s, input => return (s, input, [])
  | n + 1, s, input => do
    let (s, input, call) ← mainRound s input
    let (s, input, calls) ← mainLoop n s input
    return (s, input, call.toList ++ calls)

end SeL4Sys.CommandLine

import Mathlib.Algebra.BigOperators.Ring.Finset
import SeL4Sys.Lib.Bytes

/-!
# Vectored writes

`sys_writev` sends the server one request for each element of the vector that is not empty, and adds
up what comes back in message register 0. The register is unsigned, and a refused write comes back as
`-1` in it. The loop neither looks at the replies nor stops.

A caller takes the result for the number of bytes that have been written, from the beginning of the
vector on (`PrefixWritten`). `sysWritev_prefixWritten_iff` says which replies make that true.
-/

namespace SeL4Sys

open Bytes

/-- What `writefile_handler` answers: `-1` or the number of bytes that were written. -/
inductive WriteReply
  | failed
  | accepted (n : ℕ)
deriving DecidableEq

namespace WriteReply

/-- `seL4_GetMR(0)` -/
def mr0 : WriteReply → ℕ
  | failed => toUnsigned 4 (-1)
  | accepted n => n

/-- The number that the server has stored in the register. -/
def value : WriteReply → ℤ
  | failed => -1
  | accepted n => n

/-- How many bytes the server has taken. -/
def count : WriteReply → ℕ
  | failed => 0
  | accepted n => n

end WriteReply

/-- `struct iovec` -/
structure Iovec where
  iovBase : ℕ
  iovLen : ℕ

/-- An element of the vector with the reply that a request for it gets. The server takes no more
than it is sent. -/
structure Chunk extends Iovec where
  reply : WriteReply
  legal : reply.count ≤ iovLen

/-- The whole element was written. -/
def Chunk.Complete (x : Chunk) : Prop := x.reply = .accepted x.iovLen

/-! ## The system call -/

/-- The loop over the vector: `ret`, and for which of the elements a request was sent. -/
def writevLoop : List Chunk → ℤ → ℤ × List Bool
  | [], ret => (ret, [])
  | x :: iov, ret =>
    if x.iovLen ≠ 0 then
      let r := writevLoop iov (asInt (ret + x.reply.mr0))
      (r.1, true :: r.2)
    else
      let r := writevLoop iov ret
      (r.1, false :: r.2)

/-- `sys_writev`. A thread without an endpoint to the server writes with `stdio_write`. -/
def sysWritev (endpoint : Bool) (stdioWrite : Iovec → ℕ) (fildes : ℤ) (iov : List Chunk) :
    ℤ × List Bool :=
  if endpoint then writevLoop iov 0
  else if fildes = 1 ∨ fildes = 2 then
    (iov.foldl (fun ret x => asInt (ret + stdioWrite x.toIovec)) 0, iov.map fun _ => false)
  else (0, iov.map fun _ => false)

/-! ## What a caller expects -/

/-- The bytes that the server has accepted, by their places in the concatenation of the elements;
`start` is the place of the first element. -/
def acceptedBytes (start : ℕ) : List Chunk → List Bool → List ℕ
  | x :: iov, sent :: flags =>
    (if sent then List.range' start x.reply.count else [])
      ++ acceptedBytes (start + x.iovLen) iov flags
  | _, _ => []

/-- The elements for which a request was sent. -/
def sentChunks : List Chunk → List Bool → List Chunk
  | x :: iov, sent :: flags => if sent then x :: sentChunks iov flags else sentChunks iov flags
  | _, _ => []

/-- The elements that are not empty. -/
def nonempty (iov : List Chunk) : List Chunk := iov.filter fun x => x.iovLen ≠ 0

/-- The result is negative if the first write fails and otherwise the length of a beginning of the
vector, which is all that was written, and nothing is sent behind an element that was not written
completely. -/
structure PrefixWritten (iov : List Chunk) (ret : ℤ) (sent : List Bool) : Prop where
  fails : ∀ x, (nonempty iov).head? = some x → x.reply = .failed → ret < 0
  written : (∀ x, (nonempty iov).head? = some x → x.reply ≠ .failed) →
    ∃ r : ℕ, ret = r ∧ acceptedBytes 0 iov sent = List.range r
  stops : (sentChunks iov sent).Pairwise fun x _ => x.Complete

/-- Every element but the last is written completely, and only an element that is alone is refused.
The empty ones do not count. -/
structure Uninterrupted (iov : List Chunk) : Prop where
  complete : (nonempty iov).Pairwise fun x _ => x.Complete
  alone : ∀ x ∈ nonempty iov, x.reply = .failed → nonempty iov = [x]
  fits : ((nonempty iov).map fun x => x.reply.count).sum < 2 ^ 31

/-! ## The loop -/

section
variable {iov : List Chunk} {x : Chunk}

theorem nonempty_cons_of_ne (hx : x.iovLen ≠ 0) : nonempty (x :: iov) = x :: nonempty iov :=
  List.filter_cons_of_pos (by simpa using hx)

theorem nonempty_cons_of_eq (hx : x.iovLen = 0) : nonempty (x :: iov) = nonempty iov :=
  List.filter_cons_of_neg (by simpa using hx)

theorem asInt_mr0 (z : ℤ) (r : WriteReply) : asInt (z + r.mr0) = asInt (z + r.value) := by
  cases r with
  | accepted n => rfl
  | failed =>
    show Int.bmod (z + 4294967295) (2 ^ 32) = Int.bmod (z + -1) (2 ^ 32)
    rw [show z + 4294967295 = z + -1 + (2 ^ 32 : ℕ) by push_cast; ring, Int.add_bmod_right]

/-- The replies are added up, cut off to 32 bits. -/
theorem writevLoop_fst (iov : List Chunk) (z : ℤ) : (writevLoop iov (asInt z)).1
    = asInt (z + ((nonempty iov).map fun x => x.reply.value).sum) := by
  induction iov generalizing z with
  | nil => simp [writevLoop, nonempty]
  | cons x iov ih =>
    rw [writevLoop]
    by_cases hx : x.iovLen = 0
    · rw [if_neg (not_not.mpr hx), nonempty_cons_of_eq hx]
      exact ih z
    · rw [if_pos hx, asInt_mr0, asInt_asInt_add, nonempty_cons_of_ne hx, List.map_cons,
        List.sum_cons, ← Int.add_assoc]
      exact ih (z + x.reply.value)

/-- A request is sent for every element that is not empty, whatever the replies. -/
theorem writevLoop_snd (iov : List Chunk) (z : ℤ) :
    (writevLoop iov z).2 = iov.map fun x => decide (x.iovLen ≠ 0) := by
  induction iov generalizing z with
  | nil => rfl
  | cons x iov ih =>
    rw [writevLoop, List.map_cons]
    by_cases hx : x.iovLen = 0
    · rw [if_neg (not_not.mpr hx), decide_eq_false (not_not.mpr hx)]
      exact congrArg _ (ih z)
    · rw [if_pos hx, decide_eq_true hx]
      exact congrArg _ (ih _)

theorem sentChunks_nonempty (iov : List Chunk) :
    sentChunks iov (iov.map fun x => decide (x.iovLen ≠ 0)) = nonempty iov := by
  induction iov with
  | nil => rfl
  | cons x iov ih =>
    rw [List.map_cons, sentChunks, ih]
    by_cases hx : x.iovLen = 0
    · rw [nonempty_cons_of_eq hx, if_neg (by simpa using hx)]
    · rw [nonempty_cons_of_ne hx, if_pos (by simpa using hx)]

/-- The empty elements take no place. -/
theorem acceptedBytes_nonempty (iov : List Chunk) (start : ℕ) :
    acceptedBytes start iov (iov.map fun x => decide (x.iovLen ≠ 0))
      = acceptedBytes start (nonempty iov) ((nonempty iov).map fun _ => true) := by
  induction iov generalizing start with
  | nil => rfl
  | cons x iov ih =>
    rw [List.map_cons, acceptedBytes, ih]
    by_cases hx : x.iovLen = 0
    · rw [nonempty_cons_of_eq hx, if_neg (by simpa using hx), List.nil_append, hx, Nat.add_zero]
    · rw [nonempty_cons_of_ne hx, List.map_cons, acceptedBytes, if_pos (by simpa using hx), if_pos rfl]

/-! ## Complete elements -/

theorem Chunk.Complete.value (h : x.Complete) : x.reply.value = x.iovLen := by
  rw [h]
  rfl

theorem Chunk.Complete.count (h : x.Complete) : x.reply.count = x.iovLen := by
  rw [h]
  rfl

/-- Complete elements and one behind them: what was accepted is a beginning. -/
theorem acceptedBytes_append {l : List Chunk} (hl : ∀ y ∈ l, y.Complete) (start : ℕ) :
    acceptedBytes start (l ++ [x]) ((l ++ [x]).map fun _ => true)
      = List.range' start ((l.map fun y => y.iovLen).sum + x.reply.count) := by
  induction l generalizing start with
  | nil => simp [acceptedBytes]
  | cons y l ih =>
    rw [List.cons_append, List.map_cons, acceptedBytes, if_pos rfl, (hl y List.mem_cons_self).count,
      ih fun z hz => hl z (List.mem_cons_of_mem _ hz), List.range'_append_1, List.map_cons, List.sum_cons,
      Nat.add_assoc]

theorem sum_value_append {l : List Chunk} (hl : ∀ y ∈ l, y.Complete) :
    ((l ++ [x]).map fun y => y.reply.value).sum
      = ((l.map fun y => y.iovLen).sum : ℕ) + x.reply.value := by
  have hmap : (l.map fun y => y.reply.value) = l.map fun y => (y.iovLen : ℤ) :=
    List.map_congr_left fun y hy => (hl y hy).value
  rw [List.map_append, List.sum_append, hmap, Nat.cast_list_sum, List.map_map]
  simp [Function.comp_def]

theorem sum_count_append {l : List Chunk} (hl : ∀ y ∈ l, y.Complete) :
    ((l ++ [x]).map fun y => y.reply.count).sum
      = (l.map fun y => y.iovLen).sum + x.reply.count := by
  have hmap : (l.map fun y => y.reply.count) = l.map fun y => y.iovLen :=
    List.map_congr_left fun y hy => (hl y hy).count
  rw [List.map_append, List.sum_append, hmap]
  simp

theorem Chunk.Complete.not_failed (h : x.Complete) : x.reply ≠ .failed := by
  rw [h]
  exact WriteReply.noConfusion

/-- A 32-bit sum is the number of bytes exactly if that number is below `2 ^ 31`. -/
theorem range_asInt_iff {m : ℕ} :
    (∃ r : ℕ, asInt m = r ∧ List.range m = List.range r) ↔ m < 2 ^ 31 := by
  constructor
  · intro h
    obtain ⟨r, hr, hrange⟩ := h
    have hlen := congrArg List.length hrange
    rw [List.length_range, List.length_range] at hlen
    have hlt := asInt_lt m
    omega
  · intro h
    exact ⟨m, asInt_natCast h, rfl⟩

/-- Elements that are all complete but the last, which is written in part. -/
theorem front_of_accepted {l : List Chunk} {n : ℕ} (hl : ∀ y ∈ l, y.Complete)
    (hx : x.reply = .accepted n) :
    (∃ r : ℕ, asInt ((l ++ [x]).map fun y => y.reply.value).sum = r
        ∧ acceptedBytes 0 (l ++ [x]) ((l ++ [x]).map fun _ => true) = List.range r)
      ↔ ((l ++ [x]).map fun y => y.reply.count).sum < 2 ^ 31 := by
  rw [sum_value_append hl, acceptedBytes_append hl, sum_count_append hl, hx, ← List.range_eq_range']
  exact range_asInt_iff

/-- A refusal behind complete elements takes one from the sum. -/
theorem not_front_of_failed {l : List Chunk} (hl : ∀ y ∈ l, y.Complete) (hx : x.reply = .failed) :
    ¬ ∃ r : ℕ, asInt ((l ++ [x]).map fun y => y.reply.value).sum = r
      ∧ acceptedBytes 0 (l ++ [x]) ((l ++ [x]).map fun _ => true) = List.range r := by
  rintro ⟨r, hr, hrange⟩
  rw [sum_value_append hl, hx] at hr
  rw [acceptedBytes_append hl, hx, ← List.range_eq_range'] at hrange
  have hlen := congrArg List.length hrange
  rw [List.length_range, List.length_range] at hlen
  simp only [WriteReply.value, WriteReply.count] at hr hlen
  rw [asInt, Int.bmod_def] at hr
  omega

/-! ## The result -/

/-- `PrefixWritten` on the elements that are not empty, all but the last of which are complete. -/
theorem front_iff_alone {ne : List Chunk} (hcomplete : ne.Pairwise fun x _ => x.Complete) :
    ((∀ x, ne.head? = some x → x.reply = .failed →
          asInt (ne.map fun y => y.reply.value).sum < 0)
        ∧ ((∀ x, ne.head? = some x → x.reply ≠ .failed) →
          ∃ r : ℕ, asInt (ne.map fun y => y.reply.value).sum = r
            ∧ acceptedBytes 0 ne (ne.map fun _ => true) = List.range r))
      ↔ (∀ x ∈ ne, x.reply = .failed → ne = [x])
        ∧ (ne.map fun x => x.reply.count).sum < 2 ^ 31 := by
  obtain rfl | ⟨l, x, rfl⟩ := ne.eq_nil_or_concat'
  · simp [acceptedBytes, asInt]
  obtain ⟨-, -, hbefore⟩ := List.pairwise_append.mp hcomplete
  have hl : ∀ y ∈ l, y.Complete := fun y hy => hbefore y hy x (List.mem_singleton_self x)
  cases hx : x.reply with
  | accepted n =>
    have hall : ∀ y ∈ l ++ [x], y.reply ≠ .failed := by
      intro y hy
      obtain hy | hy := List.mem_append.mp hy
      · exact (hl y hy).not_failed
      · rw [List.mem_singleton.mp hy, hx]
        exact WriteReply.noConfusion
    have hhead : ∀ y, (l ++ [x]).head? = some y → y.reply ≠ .failed :=
      fun y hy => hall y (List.mem_of_mem_head? hy)
    rw [← front_of_accepted hl hx]
    constructor
    · intro h
      exact ⟨fun y hy hfail => absurd hfail (hall y hy), h.2 hhead⟩
    · intro h
      exact ⟨fun y hy hfail => absurd hfail (hhead y hy), fun _ => h.2⟩
  | failed =>
    cases l with
    | nil =>
      have hone : asInt (([x] : List Chunk).map fun y => y.reply.value).sum = -1 := by
        rw [List.map_singleton, List.sum_singleton, hx]
        decide
      have hzero : (([x] : List Chunk).map fun y => y.reply.count).sum = 0 := by
        rw [List.map_singleton, List.sum_singleton, hx]
        rfl
      constructor
      · intro _
        exact ⟨fun y hy _ => by rw [List.mem_singleton.mp hy]; rfl, hzero ▸ by decide⟩
      · intro _
        exact ⟨fun y _ _ => hone ▸ by decide, fun h => absurd hx (h x rfl)⟩
    | cons y l =>
      have hfirst : ∀ z, (y :: l ++ [x]).head? = some z → z.reply ≠ .failed := by
        intro z hz
        cases hz
        exact (hl y List.mem_cons_self).not_failed
      constructor
      · intro h
        exact absurd (h.2 hfirst) (not_front_of_failed hl hx)
      · intro h
        have hlen := congrArg List.length (h.1 x (List.mem_append_right _ List.mem_cons_self) hx)
        simp at hlen

/-- **Vectored writes.** For every vector and all replies: the result of `sys_writev` is the length
of the beginning of the vector that was written, and nothing is sent behind it, if and only if all
elements but the last are written completely, none but the only one is refused, and the number of
bytes is one of type `ssize_t`. -/
theorem sysWritev_prefixWritten_iff (stdioWrite : Iovec → ℕ) (fildes : ℤ) (iov : List Chunk) :
    PrefixWritten iov (sysWritev true stdioWrite fildes iov).1 (sysWritev true stdioWrite fildes iov).2
      ↔ Uninterrupted iov := by
  have hcall : sysWritev true stdioWrite fildes iov = writevLoop iov (asInt 0) := rfl
  have hret := writevLoop_fst iov 0
  have hsent := writevLoop_snd iov (asInt 0)
  rw [Int.zero_add] at hret
  rw [hcall, hret, hsent]
  constructor
  · intro h
    have hcomplete := h.stops
    rw [sentChunks_nonempty] at hcomplete
    have hwritten := h.written
    rw [acceptedBytes_nonempty] at hwritten
    obtain ⟨halone, hfits⟩ := (front_iff_alone hcomplete).mp ⟨h.fails, hwritten⟩
    exact ⟨hcomplete, halone, hfits⟩
  · intro h
    obtain ⟨hfails, hwritten⟩ := (front_iff_alone h.complete).mpr ⟨h.alone, h.fits⟩
    refine ⟨hfails, ?_, ?_⟩
    · rwa [acceptedBytes_nonempty]
    · rw [sentChunks_nonempty]
      exact h.complete

/-- Two elements of five bytes with these replies. -/
def twoChunks (first second : WriteReply) (h : first.count ≤ 5 ∧ second.count ≤ 5) : List Chunk :=
  [{ iovBase := 4096, iovLen := 5, reply := first, legal := h.1 },
    { iovBase := 8192, iovLen := 5, reply := second, legal := h.2 }]

/-- The second element is written in part. -/
theorem sysWritev_prefixWritten_short :
    (sysWritev true (fun _ => 0) 3 (twoChunks (.accepted 5) (.accepted 3) (by decide))).1 = 8
      ∧ PrefixWritten (twoChunks (.accepted 5) (.accepted 3) (by decide))
        (sysWritev true (fun _ => 0) 3 (twoChunks (.accepted 5) (.accepted 3) (by decide))).1
        (sysWritev true (fun _ => 0) 3 (twoChunks (.accepted 5) (.accepted 3) (by decide))).2 := by
  refine ⟨by decide, (sysWritev_prefixWritten_iff _ _ _).mpr ⟨?_, ?_, by decide⟩⟩
  · exact .cons (fun _ _ => rfl) (.cons (by simp) .nil)
  · intro x hx hfail
    have hmem : x ∈ twoChunks (.accepted 5) (.accepted 3) (by decide) := List.mem_of_mem_filter hx
    obtain _ | ⟨_, _ | ⟨_, hmem⟩⟩ := hmem
    · cases hfail
    · cases hfail
    · cases hmem

/-- The first element is refused and the second is written: the sum of the replies is 4. -/
theorem sysWritev_refused_first :
    (sysWritev true (fun _ => 0) 3 (twoChunks .failed (.accepted 5) (by decide))).1 = 4
      ∧ acceptedBytes 0 (twoChunks .failed (.accepted 5) (by decide))
        (sysWritev true (fun _ => 0) 3 (twoChunks .failed (.accepted 5) (by decide))).2
          = [5, 6, 7, 8, 9]
      ∧ ¬ PrefixWritten (twoChunks .failed (.accepted 5) (by decide))
        (sysWritev true (fun _ => 0) 3 (twoChunks .failed (.accepted 5) (by decide))).1
        (sysWritev true (fun _ => 0) 3 (twoChunks .failed (.accepted 5) (by decide))).2 := by
  refine ⟨by decide, by decide, fun h => ?_⟩
  have hneg := h.fails _ rfl rfl
  revert hneg
  decide

end

end SeL4Sys

import Mathlib.Data.List.TakeWhile

/-!
# The words of a list

The words of a list are its maximal runs of elements that are no separators, in order. A list without
words consists of separators; otherwise a word stands behind some of them and is followed by a separator
or by the end of the list (`cases_words`), and the other words are those of what follows (`words_run`).
-/

namespace SeL4Sys.Words

variable {α : Type} {sep : α → Bool} {l s w t : List α}

/-- The pieces between the separators that are not empty. -/
def words (sep : α → Bool) (l : List α) : List (List α) := (l.splitOnP sep).filter fun w => !w.isEmpty

/-- The words before a separator and the words behind it. -/
theorem words_append_cons {a : α} (ha : sep a = true) (l l' : List α) :
    words sep (l ++ a :: l') = words sep l ++ words sep l' := by
  rw [words, List.splitOnP_append_cons l l' ha, List.filter_append]
  rfl

theorem words_cons {a : α} (ha : sep a = true) : words sep (a :: l) = words sep l :=
  words_append_cons ha [] l

theorem words_append (hs : ∀ a ∈ s, sep a = true) (l : List α) : words sep (s ++ l) = words sep l := by
  induction s with
  | nil => rfl
  | cons b s ih =>
    rw [List.cons_append, words_cons (hs b List.mem_cons_self)]
    exact ih fun a ha => hs a (List.mem_cons_of_mem _ ha)

theorem words_eq_nil (hl : ∀ a ∈ l, sep a = true) : words sep l = [] := by
  rw [← List.append_nil l, words_append hl]
  rfl

/-- A list without separators is a word. -/
theorem words_word (hne : w ≠ []) (hw : ∀ a ∈ w, sep a = false) : words sep w = [w] := by
  rw [words, List.splitOnP_eq_singleton hw]
  exact List.filter_cons_of_pos (by simpa using hne)

/-- The first word. -/
theorem words_run (hs : ∀ a ∈ s, sep a = true) (hne : w ≠ []) (hw : ∀ a ∈ w, sep a = false)
    (ht : ∀ a ∈ t.head?, sep a = true) : words sep (s ++ (w ++ t)) = w :: words sep t := by
  rw [words_append hs]
  cases t with
  | nil =>
    rw [List.append_nil, words_word hne hw]
    rfl
  | cons a t =>
    have ha : sep a = true := ht a rfl
    rw [words_append_cons ha, words_cons ha, words_word hne hw]
    rfl

/-- A list of separators, or one that begins with a word behind some separators. -/
theorem cases_words (sep : α → Bool) (l : List α) :
    (∀ a ∈ l, sep a = true)
    ∨ ∃ s w t, l = s ++ (w ++ t) ∧ (∀ a ∈ s, sep a = true) ∧ w ≠ [] ∧ (∀ a ∈ w, sep a = false)
      ∧ ∀ a ∈ t.head?, sep a = true := by
  have hl := l.takeWhile_append_dropWhile (p := sep)
  cases hm : l.dropWhile sep with
  | nil => exact .inl (List.dropWhile_eq_nil_iff.mp hm)
  | cons b m =>
    right
    have hb : sep b = false := by
      simpa [hm] using List.head_dropWhile_not sep (by simp [hm] : l.dropWhile sep ≠ [])
    refine ⟨l.takeWhile sep, (b :: m).takeWhile fun a => !sep a, (b :: m).dropWhile fun a => !sep a,
      ?_, fun a => List.mem_takeWhile_imp, by simp [hb], ?_, ?_⟩
    · rw [List.takeWhile_append_dropWhile, ← hm, hl]
    · intro a ha
      simpa using List.mem_takeWhile_imp ha
    · intro a ha
      have hnot := List.head?_dropWhile_not (fun a => !sep a) (b :: m)
      rw [Option.mem_def.mp ha] at hnot
      simpa using hnot

end SeL4Sys.Words

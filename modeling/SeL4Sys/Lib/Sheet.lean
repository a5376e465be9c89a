import Mathlib.Data.Nat.Notation
import Mathlib.Logic.Function.Basic
import Mathlib.Tactic.SplitIfs

/-!
# A sheet without an end

Rows of `w` cells that grow downwards, with a cursor and a mark. A screen of `h` rows is a window on it:
it shows the row of the cursor and the rows above it, and moves down with the cursor.
-/

namespace SeL4Sys

open Function

structure Sheet (α : Type) where
  text : ℕ → ℕ → α
  row : ℕ
  col : ℕ
  /-- The cursor does not go back over the mark. -/
  mark : ℕ

namespace Sheet

variable {α : Type} {w h : ℕ} {blank : α}

/-! ## Writing on the sheet -/

def empty (blank : α) : Sheet α := ⟨fun _ _ => blank, 0, 0, 0⟩

/-- A cell of the cursor's row. -/
def write (p : Sheet α) (c : ℕ) (a : α) : Sheet α :=
  { p with text := update p.text p.row (update (p.text p.row) c a) }

theorem text_write (p : Sheet α) (c : ℕ) (a : α) (r c' : ℕ) :
    (p.write c a).text r c' = if r = p.row ∧ c' = c then a else p.text r c' := by
  change update p.text p.row (update (p.text p.row) c a) r c' = _
  by_cases hr : r = p.row
  · simp only [hr, update_self, update_apply, true_and]
  · rw [update_of_ne hr, if_neg (fun hand => hr hand.1)]

@[simp] theorem row_write (p : Sheet α) (c : ℕ) (a : α) : (p.write c a).row = p.row := rfl

@[simp] theorem col_write (p : Sheet α) (c : ℕ) (a : α) : (p.write c a).col = p.col := rfl

@[simp] theorem mark_write (p : Sheet α) (c : ℕ) (a : α) : (p.write c a).mark = p.mark := rfl

def newline (p : Sheet α) : Sheet α := { p with row := p.row + 1, col := 0 }

/-- A full row starts the next one. -/
def advance (w : ℕ) (p : Sheet α) : Sheet α :=
  if p.col + 1 = w then p.newline else { p with col := p.col + 1 }

def put (w : ℕ) (a : α) (p : Sheet α) : Sheet α := (p.write p.col a).advance w

def erase (blank : α) (p : Sheet α) : Sheet α :=
  if p.mark < p.col then { p.write (p.col - 1) blank with col := p.col - 1 } else p

def setMark (p : Sheet α) : Sheet α := { p with mark := p.col }

/-- The cursor and the mark are on the row, and nothing is written below the cursor. -/
structure Within (w : ℕ) (blank : α) (p : Sheet α) : Prop where
  col_lt : p.col < w
  mark_lt : p.mark < w
  below : ∀ r c, p.row < r → p.text r c = blank

theorem Within.empty (hw : 0 < w) : Within w blank (empty blank) := ⟨hw, hw, fun _ _ _ => rfl⟩

variable {p : Sheet α}

theorem Within.newline (hp : Within w blank p) : Within w blank p.newline :=
  ⟨Nat.zero_lt_of_lt hp.col_lt, hp.mark_lt, fun r c hr => hp.below r c (Nat.lt_of_succ_lt hr)⟩

theorem Within.write (hp : Within w blank p) (c : ℕ) (a : α) : Within w blank (p.write c a) where
  col_lt := hp.col_lt
  mark_lt := hp.mark_lt
  below r c' hr := by
    have hne : r ≠ p.row := Nat.ne_of_gt hr
    rw [text_write, if_neg (fun hand => hne hand.1)]
    exact hp.below r c' hr

theorem Within.advance (hp : Within w blank p) : Within w blank (p.advance w) := by
  rw [Sheet.advance]
  split_ifs with hfull
  · exact hp.newline
  · have hcol := hp.col_lt
    exact ⟨by dsimp only; omega, hp.mark_lt, hp.below⟩

theorem Within.put (hp : Within w blank p) (a : α) : Within w blank (p.put w a) :=
  (hp.write p.col a).advance

theorem Within.erase (hp : Within w blank p) : Within w blank (p.erase blank) := by
  rw [Sheet.erase]
  split_ifs with hmark
  · have hcol := hp.col_lt
    exact ⟨by dsimp only; omega, hp.mark_lt, (hp.write _ _).below⟩
  · exact hp

theorem Within.setMark (hp : Within w blank p) : Within w blank p.setMark :=
  ⟨hp.col_lt, hp.col_lt, hp.below⟩

/-! ## The window -/

/-- The first row that a screen of `h` rows shows. -/
def top (h : ℕ) (p : Sheet α) : ℕ := p.row + 1 - h

/-- The row of the screen on which the cursor is. -/
def line (h : ℕ) (p : Sheet α) : ℕ := p.row - p.top h

/-- The cells on the screen. -/
def view (h : ℕ) (p : Sheet α) (r c : ℕ) : α := p.text (p.top h + r) c

theorem line_eq (hh : 0 < h) (p : Sheet α) : p.line h = min p.row (h - 1) := by
  rw [line, top]
  omega

theorem view_write (hh : 0 < h) (p : Sheet α) (c : ℕ) (a : α) (r c' : ℕ) :
    (p.write c a).view h r c' = if r = p.line h ∧ c' = c then a else p.view h r c' := by
  have hrow : p.top h + r = p.row ↔ r = p.line h := by
    rw [line, top]
    omega
  have htop : (p.write c a).top h = p.top h := rfl
  rw [view, htop, text_write]
  simp only [hrow, view]

/-- Above the last line of the screen the window stays. -/
theorem view_newline_above (hlow : p.line h + 1 < h) : p.newline.view h = p.view h := by
  have htop : p.newline.top h = p.top h := by
    simp only [line, top, newline] at hlow ⊢
    omega
  funext r c
  rw [view, htop]
  rfl

/-- From the last line on it moves down, and the row that comes up is blank. -/
theorem view_newline_last (hp : Within w blank p) (hlast : p.line h + 1 = h) {r c : ℕ} (hr : r < h) :
    p.newline.view h r c = if r + 1 < h then p.view h (r + 1) c else blank := by
  have hrow : p.newline.top h + r = p.top h + (r + 1) := by
    simp only [line, top, newline] at hlast ⊢
    omega
  rw [view, hrow]
  split_ifs with hnext
  · rfl
  · refine hp.below _ _ ?_
    simp only [line, top] at hlast ⊢
    omega

theorem line_newline_above (hlow : p.line h + 1 < h) : p.newline.line h = p.line h + 1 := by
  simp only [line, top, newline] at hlow ⊢
  omega

theorem line_newline_last (hlast : p.line h + 1 = h) : p.newline.line h = p.line h := by
  simp only [line, top, newline] at hlast ⊢
  omega

theorem line_lt (hh : 0 < h) (p : Sheet α) : p.line h < h := by
  rw [line_eq hh]
  omega

theorem text_row (hh : 0 < h) (p : Sheet α) (c : ℕ) : p.text p.row c = p.view h (p.line h) c := by
  have htop : p.top h ≤ p.row := by
    rw [top]
    omega
  rw [view, line, Nat.add_sub_cancel' htop]

/-! ## What is written behind the mark -/

/-- The cells of the row from the mark up to the cursor. -/
def behindMark (p : Sheet α) : List α := (List.range (p.col - p.mark)).map fun i => p.text p.row (p.mark + i)

theorem behindMark_put (hmark : p.mark ≤ p.col) (hfull : p.col + 1 ≠ w) (a : α) :
    (p.put w a).behindMark = p.behindMark ++ [a] := by
  have hcount : p.col + 1 - p.mark = p.col - p.mark + 1 := by omega
  rw [put, advance, col_write, if_neg hfull, behindMark, behindMark]
  simp only [mark_write, row_write, text_write, hcount, List.range_succ, List.map_append, List.map_cons,
    List.map_nil, true_and]
  congr 1
  · refine List.map_congr_left fun i hi => ?_
    rw [List.mem_range] at hi
    rw [if_neg (by omega)]
  · rw [if_pos (by omega)]

theorem behindMark_put_full (hfull : p.col + 1 = w) (a : α) : (p.put w a).behindMark = [] := by
  rw [put, advance, col_write, if_pos hfull, behindMark]
  simp only [newline, Nat.zero_sub, List.range_zero, List.map_nil]

theorem behindMark_erase : (p.erase blank).behindMark = p.behindMark.dropLast := by
  rw [erase]
  split_ifs with hright
  · have hcount : p.col - p.mark = p.col - 1 - p.mark + 1 := by omega
    rw [behindMark, behindMark]
    simp only [mark_write, row_write, text_write, hcount, List.range_succ, List.map_append, List.map_cons,
      List.map_nil, List.dropLast_concat, true_and]
    refine List.map_congr_left fun i hi => ?_
    rw [List.mem_range] at hi
    rw [if_neg (by omega)]
  · have hnil : p.behindMark = [] := by
      rw [behindMark, Nat.sub_eq_zero_of_le (by omega), List.range_zero, List.map_nil]
    rw [hnil, List.dropLast_nil]

end Sheet

end SeL4Sys

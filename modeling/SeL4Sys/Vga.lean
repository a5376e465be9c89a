import Mathlib.Tactic.NormNum
import Mathlib.Tactic.Linarith
import SeL4Sys.Lib.Sheet

/-!
# The screen

`vga.c`: 25 rows of 80 cells in the video memory, a cursor, and the waterline behind which `vga_delchar`
does not go back. Every access to the video memory is checked against the visible cells, so a call that
returns has used no other. `screen_shows_sheet` says what is on the screen after any calls: the last rows
of a sheet without an end.
-/

namespace SeL4Sys

open Function

def vgaWidth : ℕ := 80

def vgaHeight : ℕ := 25

/-- `VGA_COLOR` -/
def vgaColor : UInt16 := (0xc : UInt16) <<< 8

/-- The variables of `vga.c`. -/
structure Vga where
  vgaMem : ℕ → UInt16
  displayRow : ℤ
  displayCol : ℤ
  waterline : ℤ

/-- What `VGA_POS_PUTCHAR` stores. The conversion of a `char` extends its sign. -/
def vgaCell (ch : UInt8) : UInt16 := ch.toInt8.toInt16.toUInt16 ||| vgaColor

/-! ## The video memory -/

/-- `VGA_MEM[i]`; `none` outside the visible cells. -/
def vgaLoad (mem : ℕ → UInt16) (i : ℤ) : Option UInt16 :=
  if 0 ≤ i ∧ i < vgaWidth * vgaHeight then some (mem i.toNat) else none

/-- `VGA_MEM[i] = x` -/
def vgaStore (mem : ℕ → UInt16) (i : ℤ) (x : UInt16) : Option (ℕ → UInt16) :=
  if 0 ≤ i ∧ i < vgaWidth * vgaHeight then some (update mem i.toNat x) else none

/-- The inner loop of `clear_screen`, from row `j` on. -/
def clearColumn (i : ℕ) : ℕ → ℕ → (ℕ → UInt16) → Option (ℕ → UInt16)
  | 0, _, mem => some mem
  | n + 1, j, mem => do
    let mem ← vgaStore mem (j * vgaWidth + i : ℕ) (0 ||| vgaColor)
    clearColumn i n (j + 1) mem

/-- The outer loop of `clear_screen`, from column `i` on. -/
def clearColumns : ℕ → ℕ → (ℕ → UInt16) → Option (ℕ → UInt16)
  | 0, _, mem => some mem
  | n + 1, i, mem => do
    let mem ← clearColumn i vgaHeight 0 mem
    clearColumns n (i + 1) mem

/-- `clear_screen` -/
def clearScreen (mem : ℕ → UInt16) : Option (ℕ → UInt16) := clearColumns vgaWidth 0 mem

/-- The first loop of `scroll_screen`, from cell `i` on. -/
def scrollCells : ℕ → ℕ → (ℕ → UInt16) → Option (ℕ → UInt16)
  | 0, _, mem => some mem
  | n + 1, i, mem => do
    let x ← vgaLoad mem (i + vgaWidth : ℕ)
    let mem ← vgaStore mem i x
    scrollCells n (i + 1) mem

/-- The second loop of `scroll_screen`, from cell `i` on. -/
def blankCells : ℕ → ℕ → (ℕ → UInt16) → Option (ℕ → UInt16)
  | 0, _, mem => some mem
  | n + 1, i, mem => do
    let mem ← vgaStore mem i (0 ||| vgaColor)
    blankCells n (i + 1) mem

/-- `scroll_screen` -/
def scrollScreen (mem : ℕ → UInt16) : Option (ℕ → UInt16) := do
  let mem ← scrollCells (vgaWidth * (vgaHeight - 1)) 0 mem
  blankCells vgaWidth (vgaWidth * (vgaHeight - 1)) mem

/-! ## The calls -/

/-- `check_displayrow` -/
def checkDisplayrow (v : Vga) : Option Vga :=
  if v.displayRow = vgaHeight then do
    let mem ← scrollScreen v.vgaMem
    some { v with vgaMem := mem, displayRow := vgaHeight - 1, displayCol := 0 }
  else some v

/-- `check_displaycol` -/
def checkDisplaycol (v : Vga) : Option Vga :=
  if v.displayCol = vgaWidth then
    checkDisplayrow { v with displayCol := 0, displayRow := v.displayRow + 1 }
  else some v

/-- `VGA_POS_PUTCHAR` -/
def vgaPosPutchar (v : Vga) (ch : UInt8) : Option Vga := do
  let mem ← vgaStore v.vgaMem (v.displayRow * vgaWidth + v.displayCol) (vgaCell ch)
  some { v with vgaMem := mem }

/-- `vga_init`, with the video memory as it is mapped. -/
def vgaInit (mem : ℕ → UInt16) : Option Vga := do
  let mem ← clearScreen mem
  some ⟨mem, 0, 0, 0⟩

/-- `vga_putchar` -/
def vgaPutchar (v : Vga) (ch : UInt8) (mwaterline : Bool) : Option Vga := do
  let v ← (if ch = 10 then
      checkDisplayrow { v with displayCol := 0, displayRow := v.displayRow + 1 }
    else do
      let v ← vgaPosPutchar v ch
      checkDisplaycol { v with displayCol := v.displayCol + 1 })
  some { v with waterline := if mwaterline then v.displayCol else v.waterline }

/-- `vga_delchar` -/
def vgaDelchar (v : Vga) : Option Vga :=
  if v.displayCol > 0 ∧ v.displayCol > v.waterline then
    vgaPosPutchar { v with displayCol := v.displayCol - 1 } 0
  else some v

/-! ## The loops over the video memory -/

variable {mem : ℕ → UInt16} {i n : ℕ}

theorem vgaLoad_cell (hi : i < 2000) : vgaLoad mem (i : ℤ) = some (mem i) := by
  rw [vgaLoad, if_pos (by simp only [vgaWidth, vgaHeight]; omega), Int.toNat_natCast]

theorem vgaStore_cell (hi : i < 2000) (x : UInt16) :
    vgaStore mem (i : ℤ) x = some (update mem i x) := by
  rw [vgaStore, if_pos (by simp only [vgaWidth, vgaHeight]; omega), Int.toNat_natCast]

theorem clearColumn_spec (hi : i < 80) : ∀ (j : ℕ) (mem : ℕ → UInt16), j + n ≤ 25 →
    ∃ mem', clearColumn i n j mem = some mem' ∧ (∀ r, j ≤ r → r < j + n → mem' (r * 80 + i) = vgaCell 0)
      ∧ ∀ k, mem k = vgaCell 0 → mem' k = vgaCell 0 := by
  induction n with
  | zero => exact fun j mem _ => ⟨mem, rfl, fun r _ _ => by omega, fun k hk => hk⟩
  | succ n ih =>
    intro j mem hj
    obtain ⟨mem', hrun, hblank, hkeep⟩ := ih (j + 1) (update mem (j * 80 + i) (vgaCell 0))
      (by omega)
    refine ⟨mem', ?_, ?_, ?_⟩
    · rw [clearColumn, vgaWidth, vgaStore_cell (by omega)]
      exact hrun
    · intro r hlow hhigh
      by_cases hr : r = j
      · rw [hr]
        exact hkeep _ (update_self ..)
      · exact hblank r (by omega) (by omega)
    · intro k hk
      refine hkeep k ?_
      rw [update_apply, hk, ite_self]

theorem clearColumns_spec : ∀ (i : ℕ) (mem : ℕ → UInt16), i + n ≤ 80 →
    ∃ mem', clearColumns n i mem = some mem'
      ∧ (∀ r c, r < 25 → i ≤ c → c < i + n → mem' (r * 80 + c) = vgaCell 0)
      ∧ ∀ k, mem k = vgaCell 0 → mem' k = vgaCell 0 := by
  induction n with
  | zero => exact fun i mem _ => ⟨mem, rfl, fun r c _ _ _ => by omega, fun k hk => hk⟩
  | succ n ih =>
    intro i mem hi
    obtain ⟨mid, hcol, hcolBlank, hcolKeep⟩ := clearColumn_spec (n := 25) (i := i) (by omega) 0 mem
      (by omega)
    obtain ⟨mem', hrun, hblank, hkeep⟩ := ih (i + 1) mid (by omega)
    refine ⟨mem', ?_, ?_, fun k hk => hkeep k (hcolKeep k hk)⟩
    · rw [clearColumns, vgaHeight, hcol]
      exact hrun
    · intro r c hr hlow hhigh
      by_cases hc : c = i
      · rw [hc]
        exact hkeep _ (hcolBlank r (by omega) (by omega))
      · exact hblank r c hr (by omega) (by omega)

/-- The copy runs upwards, so a cell is read before it is overwritten. -/
theorem scrollCells_spec : ∀ (i : ℕ) (mem : ℕ → UInt16), i + n ≤ 1920 →
    ∃ mem', scrollCells n i mem = some mem'
      ∧ ∀ k, mem' k = if i ≤ k ∧ k < i + n then mem (k + 80) else mem k := by
  induction n with
  | zero =>
    intro i mem _
    refine ⟨mem, rfl, fun k => ?_⟩
    rw [if_neg (by omega)]
  | succ n ih =>
    intro i mem hi
    obtain ⟨mem', hrun, hcells⟩ := ih (i + 1) (update mem i (mem (i + 80))) (by omega)
    refine ⟨mem', ?_, fun k => ?_⟩
    · rw [scrollCells, vgaWidth, vgaLoad_cell (by omega), Option.bind_eq_bind, Option.bind_some,
        vgaStore_cell (by omega)]
      exact hrun
    · rw [hcells, update_apply, update_apply]
      by_cases hk : k = i
      · rw [if_neg (by omega), if_pos hk, if_pos (by omega), hk]
      · rw [if_neg hk]
        by_cases hin : i + 1 ≤ k ∧ k < i + 1 + n
        · rw [if_pos hin, if_neg (by omega), if_pos (by omega)]
        · rw [if_neg hin, if_neg (by omega)]

theorem blankCells_spec : ∀ (i : ℕ) (mem : ℕ → UInt16), i + n ≤ 2000 →
    ∃ mem', blankCells n i mem = some mem'
      ∧ ∀ k, mem' k = if i ≤ k ∧ k < i + n then vgaCell 0 else mem k := by
  induction n with
  | zero =>
    intro i mem _
    refine ⟨mem, rfl, fun k => ?_⟩
    rw [if_neg (by omega)]
  | succ n ih =>
    intro i mem hi
    obtain ⟨mem', hrun, hcells⟩ := ih (i + 1) (update mem i (vgaCell 0)) (by omega)
    refine ⟨mem', ?_, fun k => ?_⟩
    · rw [blankCells, vgaStore_cell (by omega)]
      exact hrun
    · rw [hcells, update_apply]
      by_cases hk : k = i
      · rw [if_neg (by omega), if_pos hk, if_pos (by omega)]
      · rw [if_neg hk]
        by_cases hin : i + 1 ≤ k ∧ k < i + 1 + n
        · rw [if_pos hin, if_pos (by omega)]
        · rw [if_neg hin, if_neg (by omega)]

theorem scrollScreen_spec (mem : ℕ → UInt16) : ∃ mem', scrollScreen mem = some mem'
    ∧ ∀ r c, r < 25 → c < 80 →
      mem' (r * 80 + c) = if r + 1 < 25 then mem ((r + 1) * 80 + c) else vgaCell 0 := by
  have hrows : vgaWidth * (vgaHeight - 1) = 1920 := by norm_num [vgaWidth, vgaHeight]
  have hwidth : vgaWidth = 80 := by norm_num [vgaWidth]
  obtain ⟨mid, hcopy, hmid⟩ := scrollCells_spec (n := 1920) 0 mem (by omega)
  obtain ⟨mem', hblank, hmem'⟩ := blankCells_spec (n := 80) 1920 mid (by omega)
  refine ⟨mem', ?_, fun r c hr hc => ?_⟩
  · rw [scrollScreen, hrows, hwidth, hcopy, Option.bind_eq_bind, Option.bind_some, hblank]
  · have hcell : r * 80 + c + 80 = (r + 1) * 80 + c := by omega
    rw [hmem', hmid, hcell]
    by_cases hlast : r + 1 < 25
    · rw [if_neg (by omega), if_pos (by omega), if_pos hlast]
    · rw [if_pos (by omega), if_neg hlast]

/-! ## The screen and the sheet -/

/-- The screen shows the last rows of the sheet, with the cursor and the waterline where they are there. -/
structure Shows (v : Vga) (p : Sheet UInt8) : Prop where
  row : v.displayRow = p.line 25
  col : v.displayCol = p.col
  mark : v.waterline = p.mark
  cells : ∀ r c, r < 25 → c < 80 → v.vgaMem (r * 80 + c) = vgaCell (p.view 25 r c)

variable {v : Vga} {p : Sheet UInt8}

theorem Shows.init (mem : ℕ → UInt16) : ∃ v, vgaInit mem = some v ∧ Shows v (Sheet.empty 0) := by
  obtain ⟨mem', hclear, hblank, -⟩ := clearColumns_spec (n := 80) 0 mem (by omega)
  refine ⟨⟨mem', 0, 0, 0⟩, ?_, rfl, rfl, rfl, fun r c hr hc => hblank r c hr (by omega) (by omega)⟩
  rw [vgaInit, clearScreen, vgaWidth, hclear, Option.bind_eq_bind, Option.bind_some]

/-- The start of the next row, with a scroll if the cursor is on the last line. -/
theorem Shows.newline (hs : Shows v p) (hp : Sheet.Within 80 0 p) :
    ∃ v', checkDisplayrow { v with displayCol := 0, displayRow := v.displayRow + 1 } = some v'
      ∧ Shows v' p.newline := by
  have hline := Sheet.line_lt (h := 25) (by omega) p
  have hrow := hs.row
  rw [checkDisplayrow]
  by_cases hlast : p.line 25 + 1 = 25
  · obtain ⟨mem', hscroll, hcells⟩ := scrollScreen_spec v.vgaMem
    rw [if_pos (by simp only [vgaHeight]; omega), hscroll, Option.bind_eq_bind, Option.bind_some]
    refine ⟨_, rfl, ?_, rfl, hs.mark, fun r c hr hc => ?_⟩
    · rw [Sheet.line_newline_last hlast]
      simp only [vgaHeight]
      omega
    · dsimp only
      rw [hcells r c hr hc, Sheet.view_newline_last hp hlast hr, apply_ite vgaCell]
      by_cases hup : r + 1 < 25
      · rw [if_pos hup, if_pos hup, hs.cells (r + 1) c hup hc]
      · rw [if_neg hup, if_neg hup]
  · have hlow : p.line 25 + 1 < 25 := by omega
    rw [if_neg (by simp only [vgaHeight]; omega)]
    refine ⟨_, rfl, ?_, rfl, hs.mark, fun r c hr hc => ?_⟩
    · rw [Sheet.line_newline_above hlow, hrow]
      rfl
    · rw [Sheet.view_newline_above hlow]
      exact hs.cells r c hr hc

/-- `VGA_POS_PUTCHAR` at a column of the row. -/
theorem Shows.write (hs : Shows v p) (ch : UInt8) {c : ℕ} (hc : c < 80) :
    ∃ v', vgaPosPutchar { v with displayCol := c } ch = some v'
      ∧ v'.displayCol = c ∧ Shows { v' with displayCol := p.col } (p.write c ch) := by
  have hline := Sheet.line_lt (h := 25) (by omega) p
  have hcell : v.displayRow * vgaWidth + c = (p.line 25 * 80 + c : ℕ) := by
    rw [hs.row, vgaWidth]
    push_cast
    rfl
  rw [vgaPosPutchar]
  dsimp only
  rw [hcell, vgaStore_cell (by omega), Option.bind_eq_bind, Option.bind_some]
  refine ⟨_, rfl, rfl, hs.row, rfl, hs.mark, fun r c' hr hc' => ?_⟩
  dsimp only
  rw [Sheet.view_write (by omega), update_apply, apply_ite vgaCell, hs.cells r c' hr hc']
  have hsame : r * 80 + c' = p.line 25 * 80 + c ↔ r = p.line 25 ∧ c' = c := by omega
  simp only [hsame]

theorem Shows.put (hs : Shows v p) (hp : Sheet.Within 80 0 p) (ch : UInt8) :
    ∃ v', (vgaPosPutchar v ch >>= fun v => checkDisplaycol { v with displayCol := v.displayCol + 1 })
        = some v' ∧ Shows v' (p.put 80 ch) := by
  have hself : { v with displayCol := (p.col : ℤ) } = v := by rw [← hs.col]
  obtain ⟨u, hrun, hcol, hu⟩ := hs.write ch hp.col_lt
  rw [hself] at hrun
  rw [hrun, Option.bind_eq_bind, Option.bind_some, checkDisplaycol, hcol, Sheet.put, Sheet.advance]
  by_cases hfull : (p.write p.col ch).col + 1 = 80
  · rw [if_pos (by dsimp only [vgaWidth, Sheet.write] at *; omega), if_pos hfull]
    exact hu.newline (hp.write _ _)
  · rw [if_neg (by dsimp only [vgaWidth, Sheet.write] at *; omega), if_neg hfull]
    refine ⟨_, rfl, hu.row, ?_, hu.mark, hu.cells⟩
    push_cast
    rfl

theorem Shows.erase (hs : Shows v p) (hp : Sheet.Within 80 0 p) :
    ∃ v', vgaDelchar v = some v' ∧ Shows v' (p.erase 0) := by
  have hcol := hs.col
  have hmark := hs.mark
  rw [vgaDelchar, Sheet.erase]
  by_cases hright : p.mark < p.col
  · have hcast : v.displayCol - 1 = (p.col - 1 : ℕ) := by omega
    rw [if_pos (by omega), if_pos hright, hcast]
    obtain ⟨u, hrun, hucol, hu⟩ := hs.write 0 (c := p.col - 1) (by have := hp.col_lt; omega)
    exact ⟨u, hrun, hu.row, hucol, hu.mark, hu.cells⟩
  · rw [if_neg (by omega), if_neg hright]
    exact ⟨v, rfl, hs⟩

/-! ## Every sequence of calls -/

inductive VgaCall
  | putchar (ch : UInt8) (mwaterline : Bool)
  | delchar
deriving DecidableEq

def VgaCall.run (v : Vga) : VgaCall → Option Vga
  | putchar ch mwaterline => vgaPutchar v ch mwaterline
  | delchar => vgaDelchar v

/-- What the call does to the sheet. -/
def VgaCall.layOut (p : Sheet UInt8) : VgaCall → Sheet UInt8
  | putchar ch mwaterline =>
    let p := if ch = 10 then p.newline else p.put vgaWidth ch
    if mwaterline then p.setMark else p
  | delchar => p.erase 0

/-- The sheet after the calls. -/
def sheetOf (calls : List VgaCall) : Sheet UInt8 := calls.foldl VgaCall.layOut (Sheet.empty 0)

theorem VgaCall.step (hs : Shows v p) (hp : Sheet.Within 80 0 p) (call : VgaCall) :
    Sheet.Within 80 0 (call.layOut p) ∧ ∃ v', call.run v = some v' ∧ Shows v' (call.layOut p) := by
  cases call with
  | putchar ch mwaterline =>
    obtain ⟨q, hlayOut, hq, u, hrun, hu⟩ : ∃ q, (if ch = 10 then p.newline else p.put 80 ch) = q
        ∧ Sheet.Within 80 0 q ∧ ∃ u, (if ch = 10 then
            checkDisplayrow { v with displayCol := 0, displayRow := v.displayRow + 1 }
          else vgaPosPutchar v ch >>= fun v => checkDisplaycol { v with displayCol := v.displayCol + 1 })
            = some u ∧ Shows u q := by
      split_ifs with hch
      · exact ⟨_, rfl, hp.newline, hs.newline hp⟩
      · exact ⟨_, rfl, hp.put ch, hs.put hp ch⟩
    rw [VgaCall.run, vgaPutchar, hrun, Option.bind_eq_bind, Option.bind_some, VgaCall.layOut, vgaWidth,
      hlayOut]
    cases mwaterline with
    | true => exact ⟨hq.setMark, _, rfl, hu.row, hu.col, hu.col, hu.cells⟩
    | false => exact ⟨hq, _, rfl, hu⟩
  | delchar => exact ⟨hp.erase, hs.erase hp⟩

theorem VgaCall.steps : ∀ {v : Vga} {p : Sheet UInt8}, Shows v p → Sheet.Within 80 0 p →
    ∀ calls : List VgaCall, Sheet.Within 80 0 (calls.foldl VgaCall.layOut p)
      ∧ ∃ v', calls.foldlM VgaCall.run v = some v' ∧ Shows v' (calls.foldl VgaCall.layOut p) := by
  intro v p hs hp calls
  induction calls generalizing v p with
  | nil => exact ⟨hp, v, rfl, hs⟩
  | cons call calls ih =>
    obtain ⟨hq, u, hrun, hu⟩ := call.step hs hp
    rw [List.foldlM_cons, hrun]
    exact ih hu hq

/-- **The screen shows the last 25 rows of the output.** After `vga_init` every sequence of calls returns,
without having used a cell outside the screen; the cursor and the waterline are on the screen, and the
visible cells are the rows of the sheet down to the cursor's. -/
theorem screen_shows_sheet (mem : ℕ → UInt16) (calls : List VgaCall) :
    ∃ v, (vgaInit mem >>= fun v => calls.foldlM VgaCall.run v) = some v
      ∧ (0 ≤ v.displayRow ∧ v.displayRow < vgaHeight)
      ∧ (0 ≤ v.displayCol ∧ v.displayCol < vgaWidth) ∧ (0 ≤ v.waterline ∧ v.waterline < vgaWidth)
      ∧ v.displayRow = min (sheetOf calls).row (vgaHeight - 1)
      ∧ v.displayCol = (sheetOf calls).col ∧ v.waterline = (sheetOf calls).mark
      ∧ ∀ r c, r < vgaHeight → c < vgaWidth →
        v.vgaMem (r * vgaWidth + c)
          = vgaCell ((sheetOf calls).text ((sheetOf calls).row + 1 - vgaHeight + r) c) := by
  obtain ⟨v₀, hinit, hs₀⟩ := Shows.init mem
  obtain ⟨hp, v, hrun, hs⟩ := VgaCall.steps hs₀ (Sheet.Within.empty (by omega)) calls
  change Sheet.Within 80 0 (sheetOf calls) at hp
  change Shows v (sheetOf calls) at hs
  have hline := Sheet.line_eq (h := 25) (by omega) (sheetOf calls)
  have hcol := hs.col
  have hcolLt := hp.col_lt
  have hmark := hs.mark
  have hmarkLt := hp.mark_lt
  have hrow := hs.row
  rw [hinit, Option.bind_eq_bind, Option.bind_some]
  simp only [vgaHeight, vgaWidth]
  exact ⟨v, hrun, by omega, by omega, by omega, by omega, hcol, hmark, hs.cells⟩

end SeL4Sys

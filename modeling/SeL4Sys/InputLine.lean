import SeL4Sys.Keyboard

/-!
# The input line

The characters on the screen between the waterline and the cursor, against the characters that are
queued. A key is put on the screen whether or not it was queued, so the two part when a character comes
in while the key buffer is full, and also when the row is full.
-/

namespace SeL4Sys

/-! ## What the input line shows -/

/-- The characters in the cells of the cursor's row from the waterline up to the cursor. -/
def shownInput (v : Vga) : List UInt8 :=
  (List.range (v.displayCol - v.waterline).toNat).map fun i : ℕ =>
    (v.vgaMem (v.displayRow * vgaWidth + v.waterline + i).toNat).toUInt8

/-- The character of a cell is its low byte. -/
theorem vgaCell_toUInt8 (ch : UInt8) : (vgaCell ch).toUInt8 = ch := by
  have hall : ∀ x : BitVec 8, (vgaCell ⟨x⟩).toUInt8 = ⟨x⟩ := by decide
  exact hall ch.toBitVec

variable {s : Console} {p : Sheet UInt8}

theorem shownInput_eq {v : Vga} (hp : Sheet.Within 80 0 p) (hs : Shows v p) :
    shownInput v = p.behindMark := by
  have hcount : (v.displayCol - v.waterline).toNat = p.col - p.mark := by
    have hcol := hs.col
    have hmark := hs.mark
    omega
  have hcol := hp.col_lt
  rw [shownInput, Sheet.behindMark, hcount]
  refine List.map_congr_left fun i hi => ?_
  rw [List.mem_range] at hi
  have hcell : (v.displayRow * vgaWidth + v.waterline + i).toNat = p.line 25 * 80 + (p.mark + i) := by
    rw [hs.row, hs.mark, vgaWidth]
    omega
  rw [hcell, hs.cells _ _ (Sheet.line_lt (by omega) p) (by omega), vgaCell_toUInt8,
    Sheet.text_row (h := 25) (by omega)]

/-! ## Key by key -/

/-- The predicate holds now and after each of the keys. -/
def AtStates (P : Console → Prop) (s : Console) : List UInt8 → Prop
  | [] => P s
  | code :: codes => P s ∧ ∀ s', kbdIrqHandle s code = some s' → AtStates P s' codes

/-- The predicate holds of each key and the state in which it comes. -/
def AtKeys (Q : Console → UInt8 → Prop) (s : Console) : List UInt8 → Prop
  | [] => True
  | code :: codes => Q s code ∧ ∀ s', kbdIrqHandle s code = some s' → AtKeys Q s' codes

theorem forall_next_iff {P : Console → Prop} {code : UInt8} {s' : Console}
    (hrun : kbdIrqHandle s code = some s') : (∀ u, kbdIrqHandle s code = some u → P u) ↔ P s' := by
  rw [hrun]
  exact ⟨fun hall => hall s' rfl, fun hp u heq => Option.some.inj heq ▸ hp⟩

theorem AtStates.head {P : Console → Prop} {codes : List UInt8} (h : AtStates P s codes) : P s := by
  cases codes with
  | nil => exact h
  | cons code codes => exact h.1

/-- The character of the key, zero if it has none. -/
def typedChar (s : Console) (code : UInt8) : UInt8 :=
  codeToChar (updateKbdState s.kbd.modifiers code) code

/-- The input line shows what is queued. -/
def LineShown (s : Console) : Prop := shownInput s.vga = s.kbd.queued

/-- The key has no character, or the key buffer and the last row of the screen have room for it. -/
def KeyHasRoom (s : Console) (code : UInt8) : Prop :=
  code ≠ 0xe → typedChar s code ≠ 0 →
    s.kbd.queued.length < maxKeybufferSize - 1
      ∧ (s.vga.displayRow = vgaHeight - 1 → s.vga.displayCol < vgaWidth - 1)

theorem lineShown_iff (hs : s.Holds p) : LineShown s ↔ p.behindMark = s.kbd.queued := by
  rw [LineShown, shownInput_eq hs.within hs.shows]

theorem echo_char {ch : UInt8} (hch : ch ≠ 10) : (LineEvent.char ch).echo p = p.put 80 ch := by
  rw [LineEvent.echo, VgaCall.layOut, if_neg hch, vgaWidth]
  rfl

theorem step_char (line : List UInt8) (ch : UInt8) :
    ((LineEvent.char ch).step line).1 = if line.length < 63 then line ++ [ch] else line := rfl

/-- A character: the line shows what is queued afterwards exactly if there is room in the buffer and in
the row. -/
theorem char_shown_iff {line : List UInt8} (hmark : p.mark ≤ p.col) (hline : p.behindMark = line)
    {ch : UInt8} (hch : ch ≠ 10) :
    ((LineEvent.char ch).echo p).behindMark = ((LineEvent.char ch).step line).1
      ↔ line.length < 63 ∧ p.col + 1 ≠ 80 := by
  rw [echo_char hch, step_char]
  by_cases hfull : p.col + 1 = 80
  · refine iff_of_false (fun heq => ?_) (fun hand => hand.2 hfull)
    have hlen := congrArg List.length heq
    rw [Sheet.behindMark_put_full hfull, List.length_nil] at hlen
    split_ifs at hlen with hroom
    · rw [List.length_append, List.length_singleton] at hlen
      omega
    · omega
  · rw [Sheet.behindMark_put hmark hfull, hline]
    by_cases hroom : line.length < 63
    · rw [if_pos hroom]
      exact iff_of_true rfl ⟨hroom, hfull⟩
    · rw [if_neg hroom]
      refine iff_of_false (fun heq => ?_) (fun hand => hroom hand.1)
      have hlen := congrArg List.length heq
      rw [List.length_append, List.length_singleton] at hlen
      omega

theorem mark_le_col_char (hmark : p.mark ≤ p.col) {ch : UInt8} (hch : ch ≠ 10) (hfull : p.col + 1 ≠ 80) :
    ((LineEvent.char ch).echo p).mark ≤ ((LineEvent.char ch).echo p).col := by
  rw [echo_char hch, Sheet.put, Sheet.advance, Sheet.col_write, if_neg hfull]
  exact Nat.le_succ_of_le hmark

/-- On a row above the last one a full row would start the next. -/
theorem row_char_full {ch : UInt8} (hch : ch ≠ 10) (hfull : p.col + 1 = 80) (habove : p.line 25 + 1 < 25) :
    ((LineEvent.char ch).echo p).line 25 = p.line 25 + 1 := by
  rw [echo_char hch, Sheet.put, Sheet.advance, Sheet.col_write, if_pos hfull]
  exact Sheet.line_newline_above habove

/-- One key, while the line shows what is queued and the cursor stays on its row of the screen. -/
theorem lineShown_key (hs : s.Holds p) (hmark : p.mark ≤ p.col) (hline : LineShown s) {code : UInt8}
    (hprint : code ≠ 0xe → typedChar s code ≠ 10) :
    ∃ s' p', kbdIrqHandle s code = some s' ∧ s'.Holds p'
      ∧ (s'.vga.displayRow = s.vga.displayRow → (LineShown s' ↔ KeyHasRoom s code))
      ∧ (LineShown s' → p'.mark ≤ p'.col) := by
  obtain ⟨s', hrun, hs', hmod, hqueued⟩ := kbdIrqHandle_spec hs code
  refine ⟨s', _, hrun, hs', ?_⟩
  have hrow := hs.shows.row
  have hrow' := hs'.shows.row
  have hcol := hs.shows.col
  have hcolLt := hs.within.col_lt
  rw [lineShown_iff hs']
  rw [lineShown_iff hs] at hline
  rw [hqueued, KeyHasRoom, typedChar]
  rw [typedChar] at hprint
  rw [keyEvent] at hrow' ⊢
  dsimp only at hrow' ⊢
  by_cases hback : code = 0xe
  · rw [if_pos hback]
    have hshown : (LineEvent.backspace.echo p).behindMark = (LineEvent.backspace.step s.kbd.queued).1 := by
      rw [LineEvent.echo, VgaCall.layOut, Sheet.behindMark_erase, hline]
      rfl
    refine ⟨fun _ => iff_of_true hshown fun hne => absurd hback hne, fun _ => ?_⟩
    rw [LineEvent.echo, VgaCall.layOut, Sheet.erase]
    split_ifs with hright
    · simp only [Sheet.mark_write]
      omega
    · exact hmark
  · rw [if_neg hback] at hrow' ⊢
    by_cases hch : codeToChar (updateKbdState s.kbd.modifiers code) code ≠ 0
    · rw [if_pos hch] at hrow' ⊢
      have hiff := char_shown_iff hmark hline (hprint hback)
      refine ⟨fun hstay => ?_, fun hshown => mark_le_col_char hmark (hprint hback) (hiff.mp hshown).2⟩
      have hfull : p.col + 1 = 80 → p.line 25 + 1 < 25 → False := by
        intro hfull habove
        rw [row_char_full (hprint hback) hfull habove] at hrow'
        omega
      have hlt := Sheet.line_lt (h := 25) (by omega) p
      rw [hiff]
      simp only [maxKeybufferSize, vgaHeight, vgaWidth]
      constructor
      · intro hroom _ _
        exact ⟨hroom.1, fun _ => by omega⟩
      · intro hroom
        have := hroom hback hch
        exact ⟨this.1, fun h80 => hfull h80 (by omega)⟩
    · rw [if_neg hch]
      exact ⟨fun _ => iff_of_true hline fun _ hne => absurd hne hch, fun _ => hmark⟩

theorem lineShown_keys (codes : List UInt8) : ∀ {s : Console} {p : Sheet UInt8} (row : ℤ), s.Holds p →
    p.mark ≤ p.col → LineShown s → AtKeys (fun s code => code ≠ 0xe → typedChar s code ≠ 10) s codes →
    AtStates (fun s => s.vga.displayRow = row) s codes →
    (AtStates LineShown s codes ↔ AtKeys KeyHasRoom s codes) := by
  induction codes with
  | nil => exact fun row hs hmark hline hprint hrow => iff_of_true hline trivial
  | cons code codes ih =>
    intro s p row hs hmark hline hprint hrow
    obtain ⟨s', p', hrun, hs', hiff, hmark'⟩ := lineShown_key hs hmark hline hprint.1
    have hrow' := hrow.2 s' hrun
    have hstay : s'.vga.displayRow = s.vga.displayRow := hrow'.head.trans hrow.1.symm
    rw [AtStates, AtKeys, forall_next_iff hrun, forall_next_iff hrun, ← hiff hstay]
    constructor
    · rintro ⟨-, hall⟩
      have hline' := hall.head
      exact ⟨hline', (ih row hs' (hmark' hline') hline' (hprint.2 s' hrun) hrow').mp hall⟩
    · rintro ⟨hline', hall⟩
      exact ⟨hline, (ih row hs' (hmark' hline') hline' (hprint.2 s' hrun) hrow').mpr hall⟩

/-- The state at the start of the first read. -/
theorem firstRead_spec : ∃ s outs, (consoleInit (fun _ => 0) >>= fun s => s.run [.readStart]) = some (s, outs)
    ∧ s.Holds (Sheet.empty 0) ∧ s.kbd.modifiers = keytableInit.modifiers ∧ s.kbd.queued = [] := by
  obtain ⟨s₀, hinit, hkbd, hs₀⟩ := consoleInit_spec fun _ => 0
  refine ⟨{ s₀ with kbd := { s₀.kbd with bufferTail := s₀.kbd.bufferHead } }, [[]], ?_, ⟨?_, hs₀.within,
    hs₀.shows⟩, ?_, ?_⟩
  · rw [hinit]
    rfl
  · rw [hkbd]
    exact ⟨0, 0, rfl, rfl, by omega, by omega⟩
  · rw [hkbd]
  · rw [hkbd]
    exact Ring.queue_self (show 0 < 64 by decide)

/-- The key of the letter a. -/
theorem typeA_step (hs : s.Holds p) (hmod : s.kbd.modifiers = keytableInit.modifiers)
    (hlen : s.kbd.queued.length ≤ 63) :
    ∃ s', kbdIrqHandle s 0x1e = some s' ∧ s'.Holds (p.put 80 97)
      ∧ s'.kbd.modifiers = keytableInit.modifiers ∧ s'.kbd.queued = (s.kbd.queued ++ [97]).take 63 := by
  have hevent : keyEvent s.kbd.modifiers 0x1e = .char 97 := by
    rw [hmod]
    rfl
  obtain ⟨s', hrun, hs', hmod', hqueued⟩ := kbdIrqHandle_spec hs 0x1e
  rw [hevent, echo_char (by decide)] at hs'
  refine ⟨s', hrun, hs', hmod'.trans (by rw [hmod]; rfl), ?_⟩
  rw [hqueued, hevent, step_char]
  split_ifs with hroom
  · rw [List.take_of_length_le]
    rw [List.length_append, List.length_singleton]
    omega
  · rw [List.take_append_of_le_length (by omega), List.take_of_length_le hlen]

/-- The key of the letter a, `n` times: the screen shows all of them, the buffer takes what it can. -/
theorem typeA_spec (n : ℕ) : ∀ {s : Console} {p : Sheet UInt8}, s.Holds p →
    s.kbd.modifiers = keytableInit.modifiers → p.mark ≤ p.col → p.col + n < 80 → s.kbd.queued.length ≤ 63 →
    AtKeys (fun s code => code ≠ 0xe → typedChar s code ≠ 10) s (List.replicate n 0x1e)
      ∧ AtStates (fun s' => s'.vga.displayRow = p.line 25) s (List.replicate n 0x1e)
      ∧ ∃ s', (List.replicate n 0x1e).foldlM kbdIrqHandle s = some s'
        ∧ shownInput s'.vga = p.behindMark ++ List.replicate n 97
        ∧ s'.kbd.queued = (s.kbd.queued ++ List.replicate n 97).take 63 := by
  induction n with
  | zero =>
    intro s p hs _ _ _ hlen
    refine ⟨trivial, hs.shows.row, s, rfl, ?_, ?_⟩
    · rw [shownInput_eq hs.within hs.shows, List.replicate_zero, List.append_nil]
    · rw [List.replicate_zero, List.append_nil, List.take_of_length_le hlen]
  | succ n ih =>
    intro s p hs hmod hmark hcol hlen
    have hchar : typedChar s 0x1e = 97 := by
      rw [typedChar, hmod]
      decide
    have hfull : p.col + 1 ≠ 80 := by omega
    have hput : p.put 80 97 = { p.write p.col 97 with col := p.col + 1 } := by
      rw [Sheet.put, Sheet.advance, Sheet.col_write, if_neg hfull]
    obtain ⟨s', hrun, hs', hmod', hqueued⟩ := typeA_step hs hmod hlen
    obtain ⟨hprint, hrow, s'', hruns, hshown, hqueued'⟩ := ih hs' hmod'
      (by rw [hput]; exact Nat.le_succ_of_le hmark) (by rw [hput]; dsimp only; omega)
      (by rw [hqueued]; exact List.length_take_le _ _)
    rw [hput] at hrow
    rw [List.replicate_succ]
    refine ⟨⟨fun _ => by rw [hchar]; decide, (forall_next_iff hrun).mpr hprint⟩,
      ⟨hs.shows.row, (forall_next_iff hrun).mpr hrow⟩, s'', ?_, ?_, ?_⟩
    · rw [List.foldlM_cons, hrun]
      exact hruns
    · rw [hshown, Sheet.behindMark_put hmark hfull, List.append_assoc]
      rfl
    · -- what the full buffer refused would be cut off anyway
      have hsplit : s.kbd.queued ++ List.replicate (n + 1) 97
          = (s.kbd.queued ++ [97]) ++ List.replicate n 97 := by
        rw [List.append_assoc]
        rfl
      have hrest : 63 - ((s.kbd.queued ++ [97]).take 63).length = 63 - (s.kbd.queued ++ [97]).length := by
        rw [List.length_take]
        omega
      rw [hqueued', hqueued, hsplit, List.take_append, List.take_take, Nat.min_self, hrest, ← List.take_append]

/-- **When the input line shows what will be read.** From any state of the console in which nothing is
queued and the cursor is at the waterline, over keys that are not the end of the line and leave the cursor
on its row of the screen: the line shows what is queued all along exactly if every character finds room in
the key buffer, and on the last row also in the row, where a full row scrolls. -/
theorem input_line_shown_iff {mem : ℕ → UInt16} {ops : List ConsoleOp} {outs : List (List UInt8)}
    (hreach : (consoleInit mem >>= fun s => s.run ops) = some (s, outs)) (hempty : s.kbd.queued = [])
    (hcol : s.vga.displayCol = s.vga.waterline) {codes : List UInt8}
    (hprint : AtKeys (fun s code => code ≠ 0xe → typedChar s code ≠ 10) s codes)
    (hrow : AtStates (fun s' => s'.vga.displayRow = s.vga.displayRow) s codes) :
    AtStates LineShown s codes ↔ AtKeys KeyHasRoom s codes := by
  obtain ⟨s₀, hinit, -, hs₀⟩ := consoleInit_spec mem
  obtain ⟨s₁, outs₁, p, hrun, hs, -⟩ := Console.run_spec ops hs₀
  rw [hinit, Option.bind_eq_bind, Option.bind_some, hrun] at hreach
  obtain rfl : s₁ = s := congrArg Prod.fst (Option.some.inj hreach)
  have hmark : p.mark = p.col := by
    rw [hs.shows.col, hs.shows.mark, Nat.cast_inj] at hcol
    exact hcol.symm
  refine lineShown_keys codes _ hs (le_of_eq hmark) ?_ hprint hrow
  rw [lineShown_iff hs, hempty, Sheet.behindMark, hmark, Nat.sub_self]
  rfl

/-- One letter at the start of the first read. -/
theorem input_line_shown_iff_letter :
    ∃ s outs, (consoleInit (fun _ => 0) >>= fun s => s.run [.readStart]) = some (s, outs)
      ∧ AtStates LineShown s (List.replicate 1 0x1e) := by
  obtain ⟨s, outs, hreach, hs, hmod, hempty⟩ := firstRead_spec
  obtain ⟨hprint, hrow, -⟩ := typeA_spec 1 hs hmod (Nat.le_refl _) (by decide) (by rw [hempty]; decide)
  have hcol : s.vga.displayCol = s.vga.waterline := hs.shows.col.trans hs.shows.mark.symm
  rw [← hs.shows.row] at hrow
  refine ⟨s, outs, hreach, (input_line_shown_iff hreach hempty hcol hprint hrow).mpr ⟨?_, fun _ _ => trivial⟩⟩
  intro _ _
  rw [hempty, hs.shows.row, hs.shows.col]
  decide

/-- 64 letters at the start of the first read: the screen shows 64 of them, and 63 are queued. -/
theorem dropped_key_is_shown :
    ∃ s outs s', (consoleInit (fun _ => 0) >>= fun s => s.run [.readStart]) = some (s, outs)
      ∧ s.kbd.queued = [] ∧ s.vga.displayCol = s.vga.waterline
      ∧ AtKeys (fun s code => code ≠ 0xe → typedChar s code ≠ 10) s (List.replicate 64 0x1e)
      ∧ AtStates (fun s' => s'.vga.displayRow = s.vga.displayRow) s (List.replicate 64 0x1e)
      ∧ (List.replicate 64 0x1e).foldlM kbdIrqHandle s = some s'
      ∧ shownInput s'.vga = List.replicate 64 97 ∧ s'.kbd.queued = List.replicate 63 97 := by
  obtain ⟨s, outs, hreach, hs, hmod, hempty⟩ := firstRead_spec
  obtain ⟨hprint, hrow, s', hrun, hshown, hqueued⟩ := typeA_spec 64 hs hmod (Nat.le_refl _) (by decide)
    (by rw [hempty]; decide)
  rw [← hs.shows.row] at hrow
  refine ⟨s, outs, s', hreach, hempty, hs.shows.col.trans hs.shows.mark.symm, hprint, hrow, hrun, ?_, ?_⟩
  · rw [hshown]
    rfl
  · rw [hqueued, hempty, List.nil_append, List.take_replicate]
    rfl

end SeL4Sys

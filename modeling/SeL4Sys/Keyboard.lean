import SeL4Sys.Lib.Bytes
import SeL4Sys.Lib.Ring
import SeL4Sys.UserBuffers
import SeL4Sys.Vga

/-!
# The keyboard

`keyboard.c` and the part of `stdio_handler.c` that reads the key buffer. A key event is one pass of
`kbd_irq_handle_mainloop`; the characters of a line wait in a ring of 64 cells, of which 63 are used.
`key_buffer_is_line_queue` says that over any sequence of key events, output and steps of
`readstdin_handler` the ring is the queue of a line.
-/

namespace SeL4Sys

open Bytes Function

/-! ## The keys -/

/-- `lshift`, `rshift` and `caps`. In `caps` the second bit is the lock, the first one says that the key
has been released since. -/
structure Modifiers where
  lshift : Bool
  rshift : Bool
  caps : Fin 4

/-- `KLSH_P` -/
def klshP : UInt8 := 0x2a

/-- `KRSH_P` -/
def krshP : UInt8 := 0x36

/-- `KCAP_P` -/
def kcapP : UInt8 := 0x3a

/-- `KF12_P` -/
def kf12P : UInt8 := 0x58

/-- `update_kbd_state` -/
def updateKbdState (m : Modifiers) (code : UInt8) : Modifiers :=
  if code ≤ kf12P + 0x80 then
    if code = klshP then { m with lshift := true }
    else if code = klshP + 0x80 then { m with lshift := false }
    else if code = krshP then { m with rshift := true }
    else if code = krshP + 0x80 then { m with rshift := false }
    else if code = kcapP then
      { m with caps := if m.caps = 0 then 2 else if m.caps = 3 then 1 else m.caps }
    else if code = kcapP + 0x80 then
      { m with caps := if m.caps = 2 then 3 else if m.caps = 1 then 0 else m.caps }
    else m
  else m

/-- The rows of `keyTable` as `keytable_init` fills them: runs of keys with consecutive codes. -/
def keyRuns : ℕ → List (ℕ × String)
  -- NCAPS_NSH
  | 0 => [(0x02, "1234567890-="), (0x10, "qwertyuiop[]\n"), (0x1e, "asdfghjkl;'`"),
      (0x2b, "\\zxcvbnm,./"), (0x39, " ")]
  -- NCAPS_SH
  | 1 => [(0x02, "!@#$%^&*()_+"), (0x10, "QWERTYUIOP\x7b\x7d\n"), (0x1e, "ASDFGHJKL:\"~"),
      (0x2b, "|ZXCVBNM<>?"), (0x39, " ")]
  -- CAPS_NSH
  | 2 => [(0x02, "1234567890-="), (0x10, "QWERTYUIOP[]\n"), (0x1e, "ASDFGHJKL;'`"),
      (0x2b, "\\ZXCVBNM,./"), (0x39, " ")]
  -- CAPS_SH
  | _ => [(0x02, "!@#$%^&*()_+"), (0x10, "qwertyuiop\x7b\x7d\n"), (0x1e, "asdfghjkl:\"~"),
      (0x2b, "|zxcvbnm<>?"), (0x39, " ")]

/-- `keyTable[row][code]`, zero where nothing is stored. -/
def keyTable (row code : ℕ) : UInt8 :=
  ((keyRuns row).findSome? fun run =>
    if run.1 ≤ code then (run.2.toList.map fun ch => ch.toNat.toUInt8)[code - run.1]? else none).getD 0

/-- `code_to_char` -/
def codeToChar (m : Modifiers) (code : UInt8) : UInt8 :=
  if code ≥ kf12P then 0
  else keyTable ((m.caps.val &&& 2) + if m.lshift || m.rshift then 1 else 0) code.toNat

/-! ## The key buffer -/

/-- The variables of `keyboard.c`. -/
structure Kbd where
  keyBuffer : ℕ → UInt8
  bufferHead : ℤ
  bufferTail : ℤ
  modifiers : Modifiers
  /-- `buf_full_ntfn` has been signalled. -/
  bufFull : Bool

/-- `key_buffer[i]`; `none` outside the array. -/
def keyLoad (keyBuffer : ℕ → UInt8) (i : ℤ) : Option UInt8 :=
  if 0 ≤ i ∧ i < maxKeybufferSize then some (keyBuffer i.toNat) else none

/-- `key_buffer[i] = ch` -/
def keyStore (keyBuffer : ℕ → UInt8) (i : ℤ) (ch : UInt8) : Option (ℕ → UInt8) :=
  if 0 ≤ i ∧ i < maxKeybufferSize then some (update keyBuffer i.toNat ch) else none

/-- `BUFFER_FULL` -/
def bufferFull (k : Kbd) : Prop := (k.bufferTail + 1).tmod maxKeybufferSize = k.bufferHead

instance (k : Kbd) : Decidable (bufferFull k) := inferInstanceAs (Decidable (_ = _))

/-- `BUFFER_EMPTY` -/
def bufferEmpty (k : Kbd) : Prop := k.bufferHead = k.bufferTail

instance (k : Kbd) : Decidable (bufferEmpty k) := inferInstanceAs (Decidable (_ = _))

/-- `keytable_init` -/
def keytableInit : Kbd := ⟨fun _ => 0, 0, 0, ⟨false, false, 0⟩, false⟩

/-- What the main loop does with the buffer for a backspace. -/
def removeKey (k : Kbd) : Kbd :=
  if ¬ bufferEmpty k then
    let tail := k.bufferTail - 1
    { k with bufferTail := if tail < 0 then tail + maxKeybufferSize else tail }
  else k

/-- What the main loop does with the buffer for a character. -/
def insertKey (k : Kbd) (ch : UInt8) : Option Kbd :=
  if ¬ bufferFull k then do
    let keyBuffer ← keyStore k.keyBuffer k.bufferTail ch
    some { k with
      keyBuffer := keyBuffer
      bufferTail := (k.bufferTail + 1).tmod maxKeybufferSize
      bufFull := k.bufFull || ch = 10 }
  else some { k with bufFull := true }

/-- The body of the loop of `readstdin_handler`: a character. -/
def readstdinPass (k : Kbd) : Option (Kbd × UInt8) := do
  let ch ← keyLoad k.keyBuffer k.bufferHead
  some ({ k with bufferHead := (k.bufferHead + 1).tmod maxKeybufferSize }, ch)

/-- The loop of `readstdin_handler` with at most `n` passes left: `read_len` and the buffer of the
process. -/
def readstdinCopy (maxLen : ℤ) : ℕ → Kbd → ℤ → Buf → Option (Kbd × ℤ × Buf)
  | 0, k, readLen, readData => some (k, readLen, readData)
  | n + 1, k, readLen, readData =>
    if k.bufferHead ≠ k.bufferTail ∧ readLen < maxLen then do
      let r ← readstdinPass k
      readstdinCopy maxLen n r.1 (readLen + 1) (update readData readLen.toNat r.2)
    else some (k, readLen, readData)

/-! ## The console -/

structure Console where
  kbd : Kbd
  vga : Vga

/-- The start: `keytable_init` and `vga_init`. -/
def consoleInit (mem : ℕ → UInt16) : Option Console := do
  let vga ← vgaInit mem
  some ⟨keytableInit, vga⟩

/-- A pass of `kbd_irq_handle_mainloop`. -/
def kbdIrqHandle (s : Console) (code : UInt8) : Option Console :=
  let kbd := { s.kbd with modifiers := updateKbdState s.kbd.modifiers code }
  if code = 0xe then do
    let vga ← vgaDelchar s.vga
    some ⟨removeKey kbd, vga⟩
  else
    let ch := codeToChar kbd.modifiers code
    if ch ≠ 0 then do
      let kbd ← insertKey kbd ch
      let vga ← vgaPutchar s.vga ch false
      some ⟨kbd, vga⟩
    else some ⟨kbd, s.vga⟩

/-- What happens at the console. The loop of `readstdin_handler` is a step as a whole and pass by pass, so
that key events can come between. -/
inductive ConsoleOp
  | key (code : UInt8)
  | output (ch : UInt8)
  | readStart
  | readWait
  | readPass
  | readCopy (maxLen : ℤ) (readData : Buf)

/-- One step, with the characters it delivers. -/
def Console.step (s : Console) : ConsoleOp → Option (Console × List UInt8)
  | .key code => do
    let s ← kbdIrqHandle s code
    some (s, [])
  | .output ch => do
    let vga ← vgaPutchar s.vga ch true
    some ({ s with vga := vga }, [])
  | .readStart => some ({ s with kbd := { s.kbd with bufferTail := s.kbd.bufferHead } }, [])
  -- without a signal the handler goes on waiting
  | .readWait => some ({ s with kbd := { s.kbd with bufFull := false } }, [])
  | .readPass =>
    if s.kbd.bufferHead ≠ s.kbd.bufferTail then do
      let r ← readstdinPass s.kbd
      some ({ s with kbd := r.1 }, [r.2])
    else some (s, [])
  | .readCopy maxLen readData => do
    let r ← readstdinCopy maxLen maxLen.toNat s.kbd 0 readData
    some ({ s with kbd := r.1 }, (List.range r.2.1.toNat).map r.2.2)

def Console.run (s : Console) : List ConsoleOp → Option (Console × List (List UInt8))
  | [] => some (s, [])
  | op :: ops => do
    let r ← s.step op
    let rest ← r.1.run ops
    some (rest.1, r.2 :: rest.2)

/-! ## The line -/

/-- What an event means for the line. -/
inductive LineEvent
  | char (ch : UInt8)
  | backspace
  | clear
  | take (maxLen : ℤ)
  | skip

/-- The line after the event, and what is delivered. -/
def LineEvent.step (line : List UInt8) : LineEvent → List UInt8 × List UInt8
  | char ch => (if line.length < maxKeybufferSize - 1 then line ++ [ch] else line, [])
  | backspace => (line.dropLast, [])
  | clear => ([], [])
  | take maxLen => (line.drop (min maxLen.toNat line.length), line.take (min maxLen.toNat line.length))
  | skip => (line, [])

def lineRun (line : List UInt8) : List LineEvent → List UInt8 × List (List UInt8)
  | [] => (line, [])
  | e :: es =>
    let r := e.step line
    let rest := lineRun r.1 es
    (rest.1, r.2 :: rest.2)

/-- The key as an event. -/
def keyEvent (m : Modifiers) (code : UInt8) : LineEvent :=
  if code = 0xe then .backspace
  else
    let ch := codeToChar (updateKbdState m code) code
    if ch ≠ 0 then .char ch else .skip

def ConsoleOp.event (m : Modifiers) : ConsoleOp → LineEvent
  | key code => keyEvent m code
  | output _ => .skip
  | readStart => .clear
  | readWait => .skip
  | readPass => .take 1
  | readCopy maxLen _ => .take maxLen

def ConsoleOp.modifiers (m : Modifiers) : ConsoleOp → Modifiers
  | key code => updateKbdState m code
  | _ => m

/-- The events of a sequence of steps. -/
def lineEvents (m : Modifiers) : List ConsoleOp → List LineEvent
  | [] => []
  | op :: ops => op.event m :: lineEvents (op.modifiers m) ops

/-! ## The ring is the line -/

/-- The characters that are queued. -/
def Kbd.queued (k : Kbd) : List UInt8 :=
  Ring.queue maxKeybufferSize k.keyBuffer k.bufferHead.toNat k.bufferTail.toNat

/-- The ends of the queue are cells of the ring. -/
structure Kbd.Ends (k : Kbd) (h t : ℕ) : Prop where
  head : k.bufferHead = h
  tail : k.bufferTail = t
  head_lt : h < 64
  tail_lt : t < 64

variable {k : Kbd} {h t : ℕ}

namespace Kbd.Ends

theorem queued_eq (hk : k.Ends h t) : k.queued = Ring.queue 64 k.keyBuffer h t := by
  rw [Kbd.queued, hk.head, hk.tail, Int.toNat_natCast, Int.toNat_natCast]

theorem head_eq_tail_iff (hk : k.Ends h t) : k.bufferHead = k.bufferTail ↔ k.queued = [] := by
  rw [hk.queued_eq, hk.head, hk.tail, Nat.cast_inj, Ring.head_eq_tail_iff hk.head_lt hk.tail_lt]

theorem next_eq (i : ℕ) : ((i : ℤ) + 1).tmod maxKeybufferSize = ((i + 1) % 64 : ℕ) := by
  rw [Int.tmod_eq_emod_of_nonneg (by omega)]
  push_cast
  rfl

theorem bufferFull_iff (hk : k.Ends h t) : bufferFull k ↔ k.queued.length = 63 := by
  rw [bufferFull, hk.tail, hk.head, next_eq, Nat.cast_inj, hk.queued_eq,
    @Ring.full_iff _ 64 h t k.keyBuffer hk.head_lt hk.tail_lt]

end Kbd.Ends

theorem removeKey_spec (hk : k.Ends h t) :
    ∃ t', (removeKey k).Ends h t' ∧ (removeKey k).queued = k.queued.dropLast := by
  rw [removeKey]
  by_cases hempty : bufferEmpty k
  · rw [if_neg (not_not_intro hempty), hk.head_eq_tail_iff.mp hempty]
    exact ⟨t, hk, rfl⟩
  · have hne : h ≠ t := by
      rw [bufferEmpty, hk.head, hk.tail, Nat.cast_inj] at hempty
      exact hempty
    have hends : Kbd.Ends { k with bufferTail :=
        if k.bufferTail - 1 < 0 then k.bufferTail - 1 + maxKeybufferSize else k.bufferTail - 1 }
        h (if t = 0 then 64 - 1 else t - 1) := by
      have htail := hk.tail
      have hlt := hk.tail_lt
      refine ⟨hk.head, ?_, hk.head_lt, ?_⟩
      · dsimp only [maxKeybufferSize]
        split_ifs <;> omega
      · split_ifs <;> omega
    rw [if_pos hempty]
    refine ⟨_, hends, ?_⟩
    rw [hends.queued_eq, hk.queued_eq]
    exact Ring.queue_popBack hk.head_lt hk.tail_lt hne rfl

theorem insertKey_spec (hk : k.Ends h t) (ch : UInt8) :
    ∃ k' t', insertKey k ch = some k' ∧ k'.Ends h t' ∧ k'.modifiers = k.modifiers
      ∧ k'.queued = if k.queued.length < 63 then k.queued ++ [ch] else k.queued := by
  have hle : k.queued.length ≤ 63 := by
    have : Ring.count 64 h t < 64 := Nat.mod_lt _ (by omega)
    rw [hk.queued_eq, Ring.length_queue]
    omega
  have hiff := hk.bufferFull_iff
  rw [insertKey]
  by_cases hfull : bufferFull k
  · have hlen := hiff.mp hfull
    rw [if_neg (not_not_intro hfull), if_neg (by omega)]
    exact ⟨_, t, rfl, ⟨hk.head, hk.tail, hk.head_lt, hk.tail_lt⟩, rfl, rfl⟩
  · have hlen : k.queued.length ≠ 63 := fun heq => hfull (hiff.mpr heq)
    have hroom : (t + 1) % 64 ≠ h := by
      rw [bufferFull, hk.tail, hk.head, Kbd.Ends.next_eq, Nat.cast_inj] at hfull
      exact hfull
    have hlt := hk.tail_lt
    have hstore : keyStore k.keyBuffer k.bufferTail ch = some (update k.keyBuffer t ch) := by
      rw [keyStore, hk.tail, if_pos (by simp only [maxKeybufferSize]; omega), Int.toNat_natCast]
    rw [if_pos hfull, if_pos (by omega), hstore, Option.bind_eq_bind, Option.bind_some, hk.tail,
      Kbd.Ends.next_eq]
    have hends : Kbd.Ends { k with
        keyBuffer := update k.keyBuffer t ch
        bufferTail := ((t + 1) % 64 : ℕ)
        bufFull := k.bufFull || ch = 10 } h ((t + 1) % 64) :=
      ⟨hk.head, rfl, hk.head_lt, Nat.mod_lt _ (by omega)⟩
    refine ⟨_, _, rfl, hends, rfl, ?_⟩
    rw [hends.queued_eq, hk.queued_eq]
    exact Ring.queue_push hk.head_lt hk.tail_lt hroom ch

theorem readstdinPass_spec (hk : k.Ends h t) (hne : k.bufferHead ≠ k.bufferTail) :
    ∃ k' h' ch, readstdinPass k = some (k', ch) ∧ k'.Ends h' t ∧ k'.modifiers = k.modifiers
      ∧ k.queued = ch :: k'.queued := by
  have hlt := hk.head_lt
  have hload : keyLoad k.keyBuffer k.bufferHead = some (k.keyBuffer h) := by
    rw [keyLoad, hk.head, if_pos (by simp only [maxKeybufferSize]; omega), Int.toNat_natCast]
  have hends : Kbd.Ends { k with bufferHead := ((h + 1) % 64 : ℕ) } ((h + 1) % 64) t :=
    ⟨rfl, hk.tail, Nat.mod_lt _ (by omega), hk.tail_lt⟩
  rw [readstdinPass, hload, Option.bind_eq_bind, Option.bind_some, hk.head, Kbd.Ends.next_eq]
  refine ⟨_, _, _, rfl, hends, rfl, ?_⟩
  rw [hk.head, hk.tail, Ne, Nat.cast_inj] at hne
  rw [hk.queued_eq, hends.queued_eq]
  exact Ring.queue_popFront hk.head_lt hk.tail_lt hne

theorem readstdinCopy_spec (maxLen n : ℕ) : ∀ {k : Kbd} {h t : ℕ} (readLen : ℕ) (readData : Buf),
    k.Ends h t → maxLen ≤ readLen + n → readLen ≤ maxLen →
    ∃ k' h' readData', readstdinCopy maxLen n k readLen readData
        = some (k', ((readLen + min (maxLen - readLen) k.queued.length : ℕ) : ℤ), readData')
      ∧ k'.Ends h' t ∧ k'.modifiers = k.modifiers ∧ k'.queued = k.queued.drop (maxLen - readLen)
      ∧ (∀ i, i < readLen → readData' i = readData i)
      ∧ ∀ i, i < min (maxLen - readLen) k.queued.length → readData' (readLen + i) = k.queued.getD i 0 := by
  induction n with
  | zero =>
    intro k h t readLen readData hk hfuel hle
    have hrest : maxLen - readLen = 0 := by omega
    rw [hrest]
    refine ⟨k, h, readData, ?_, hk, rfl, rfl, fun i _ => rfl, fun i hi => ?_⟩
    · rw [readstdinCopy, Nat.zero_min, Nat.add_zero]
    · omega
  | succ n ih =>
    intro k h t readLen readData hk hfuel hle
    rw [readstdinCopy]
    by_cases hgo : k.bufferHead ≠ k.bufferTail ∧ (readLen : ℤ) < maxLen
    · obtain ⟨k₁, h₁, ch, hpass, hk₁, hmod, hqueue⟩ := readstdinPass_spec hk hgo.1
      obtain ⟨k', h', readData', hrun, hk', hmod', hqueue', hkeep, hread⟩ :=
        ih (readLen + 1) (update readData readLen ch) hk₁ (by omega) (by omega)
      have hrest : maxLen - readLen = maxLen - (readLen + 1) + 1 := by omega
      rw [if_pos hgo, hpass, Option.bind_eq_bind, Option.bind_some, hqueue, hrest]
      refine ⟨k', h', readData', ?_, hk', hmod'.trans hmod, hqueue', ?_, ?_⟩
      · rw [Int.toNat_natCast, ← Nat.cast_succ, hrun, List.length_cons]
        congr 4
        omega
      · intro i hi
        rw [hkeep i (by omega), update_of_ne (by omega)]
      · intro i hi
        rw [List.length_cons] at hi
        cases i with
        | zero => rw [Nat.add_zero, hkeep readLen (by omega), update_self, List.getD_cons_zero]
        | succ i =>
          have := hread i (by omega)
          rw [List.getD_cons_succ, ← this]
          congr 1
          omega
    · rw [if_neg hgo]
      have hstop : maxLen - readLen = 0 ∨ k.queued = [] := by
        rw [← hk.head_eq_tail_iff]
        omega
      have hmin : min (maxLen - readLen) k.queued.length = 0 := by
        obtain hzero | hnil := hstop
        · rw [hzero, Nat.zero_min]
        · rw [hnil, List.length_nil, Nat.min_zero]
      refine ⟨k, h, readData, ?_, hk, rfl, ?_, fun i _ => rfl, fun i hi => ?_⟩
      · rw [hmin, Nat.add_zero]
      · obtain hzero | hnil := hstop
        · rw [hzero, List.drop_zero]
        · rw [hnil, List.drop_nil]
      · omega

/-- The loop as a whole: what is queued is delivered up to `max_len` characters. -/
theorem readstdinCopy_all (hk : k.Ends h t) (maxLen : ℤ) (readData : Buf) :
    ∃ k' h' readLen data, readstdinCopy maxLen maxLen.toNat k 0 readData = some (k', readLen, data)
      ∧ k'.Ends h' t ∧ k'.modifiers = k.modifiers
      ∧ k'.queued = k.queued.drop (min maxLen.toNat k.queued.length)
      ∧ (List.range readLen.toNat).map data = k.queued.take (min maxLen.toNat k.queued.length) := by
  have hdrop : ∀ m, k.queued.drop (min m k.queued.length) = k.queued.drop m := by
    intro m
    obtain hle | hle := Nat.le_total m k.queued.length
    · rw [Nat.min_eq_left hle]
    · rw [Nat.min_eq_right hle, List.drop_length, List.drop_eq_nil_of_le hle]
  obtain ⟨m, rfl⟩ | hneg : (∃ m : ℕ, maxLen = m) ∨ maxLen.toNat = 0 := by
    cases maxLen with
    | ofNat m => exact Or.inl ⟨m, rfl⟩
    | negSucc m => exact Or.inr rfl
  · obtain ⟨k', h', data, hrun, hends, hmod, hqueued, -, hread⟩ :=
      readstdinCopy_spec m m 0 readData hk (by omega) (by omega)
    simp only [Nat.sub_zero, Nat.zero_add] at hrun hread
    rw [Int.toNat_natCast]
    refine ⟨k', h', _, data, hrun, hends, hmod, ?_, ?_⟩
    · rw [hqueued, hdrop, Nat.sub_zero]
    · rw [Int.toNat_natCast]
      refine List.ext_getElem (by simp) fun i hi hi' => ?_
      rw [List.length_map, List.length_range] at hi
      have := hread i hi
      rw [List.getD_eq_getElem _ _ (by omega)] at this
      simp only [List.getElem_map, List.getElem_range, List.getElem_take]
      exact this
  · rw [hneg]
    refine ⟨k, h, 0, readData, rfl, hk, rfl, ?_, ?_⟩
    · rw [Nat.zero_min, List.drop_zero]
    · rw [Nat.zero_min, List.take_zero]
      rfl

/-- A key buffer whose ends are in range by their type. -/
def KeyBuffer.toKbd (k : KeyBuffer) (m : Modifiers) (bufFull : Bool) : Kbd :=
  ⟨fun i => if hi : i < maxKeybufferSize then k.keyBuffer ⟨i, hi⟩ else 0, k.head.val, k.tail.val, m, bufFull⟩

/-- The loop is the one of `UserBuffers`. -/
theorem readstdinCopy_eq_readstdinLoop (maxLen n : ℕ) (m : Modifiers) (bufFull : Bool) :
    ∀ (k : KeyBuffer) (readLen : ℕ) (str : Buf), ∃ k',
      readstdinCopy maxLen n (k.toKbd m bufFull) readLen str
        = some (k', ((readstdinLoop maxLen n k readLen str).1 : ℤ),
          (readstdinLoop maxLen n k readLen str).2.1) := by
  induction n with
  | zero => exact fun k readLen str => ⟨_, rfl⟩
  | succ n ih =>
    intro k readLen str
    have hlt := k.head.isLt
    have hgo : ((k.toKbd m bufFull).bufferHead ≠ (k.toKbd m bufFull).bufferTail ∧ (readLen : ℤ) < maxLen)
        ↔ k.head ≠ k.tail ∧ readLen < maxLen := by
      simp only [KeyBuffer.toKbd, ne_eq, Nat.cast_inj, Fin.val_inj, Nat.cast_lt]
    rw [readstdinCopy, readstdinLoop]
    by_cases hpass : k.head ≠ k.tail ∧ readLen < maxLen
    · have hload : keyLoad (k.toKbd m bufFull).keyBuffer (k.toKbd m bufFull).bufferHead
          = some (k.keyBuffer k.head) := by
        simp only [maxKeybufferSize] at hlt
        simp only [keyLoad, KeyBuffer.toKbd, maxKeybufferSize, Int.toNat_natCast, hlt, dif_pos]
        rw [if_pos (by omega)]
      have hnext : ((k.head.val : ℤ) + 1).tmod maxKeybufferSize = ((k.head + 1 : Fin 64).val : ℕ) := by
        rw [Kbd.Ends.next_eq, Fin.val_add]
        rfl
      rw [if_pos (hgo.mpr hpass), if_pos hpass, readstdinPass, hload, Option.bind_eq_bind,
        Option.bind_eq_bind, Option.bind_some, Option.bind_some]
      have hhead : (k.toKbd m bufFull).bufferHead = k.head.val := rfl
      rw [hhead, hnext, Int.toNat_natCast, ← Nat.cast_succ]
      exact ih { k with head := k.head + 1 } (readLen + 1) (update str readLen (k.keyBuffer k.head))
    · rw [if_neg (hgo.not.mpr hpass), if_neg hpass]
      exact ⟨_, rfl⟩

/-! ## The steps of the console -/

/-- What the screen shows of an event of the line. -/
def LineEvent.echo (p : Sheet UInt8) : LineEvent → Sheet UInt8
  | char ch => VgaCall.layOut p (.putchar ch false)
  | backspace => VgaCall.layOut p .delchar
  | _ => p

/-- The ends of the queue are cells of the ring, and the screen shows a sheet. -/
structure Console.Holds (s : Console) (p : Sheet UInt8) : Prop where
  ends : ∃ h t, s.kbd.Ends h t
  within : Sheet.Within 80 0 p
  shows : Shows s.vga p

theorem Kbd.Ends.withModifiers (hk : k.Ends h t) (m : Modifiers) :
    Kbd.Ends { k with modifiers := m } h t :=
  ⟨hk.head, hk.tail, hk.head_lt, hk.tail_lt⟩

variable {s : Console} {p : Sheet UInt8}

/-- The buffer and the screen make of a key what the event says. -/
theorem kbdIrqHandle_spec (hs : s.Holds p) (code : UInt8) :
    ∃ s', kbdIrqHandle s code = some s'
      ∧ s'.Holds ((keyEvent s.kbd.modifiers code).echo p)
      ∧ s'.kbd.modifiers = updateKbdState s.kbd.modifiers code
      ∧ s'.kbd.queued = ((keyEvent s.kbd.modifiers code).step s.kbd.queued).1 := by
  obtain ⟨h, t, hk⟩ := hs.ends
  have hkm := hk.withModifiers (updateKbdState s.kbd.modifiers code)
  rw [kbdIrqHandle, keyEvent]
  dsimp only
  by_cases hback : code = 0xe
  · obtain ⟨hq, vga, hdel, hshows⟩ := VgaCall.step hs.shows hs.within .delchar
    obtain ⟨t', hends, hqueued⟩ := removeKey_spec hkm
    rw [VgaCall.run] at hdel
    rw [if_pos hback, if_pos hback, hdel, Option.bind_eq_bind, Option.bind_some]
    refine ⟨_, rfl, ⟨⟨h, t', hends⟩, hq, hshows⟩, ?_, hqueued⟩
    rw [removeKey]
    split_ifs <;> rfl
  · rw [if_neg hback, if_neg hback]
    by_cases hch : codeToChar (updateKbdState s.kbd.modifiers code) code ≠ 0
    · obtain ⟨k', t', hinsert, hends, hmod, hqueued⟩ :=
        insertKey_spec hkm (codeToChar (updateKbdState s.kbd.modifiers code) code)
      obtain ⟨hq, vga, hput, hshows⟩ := VgaCall.step hs.shows hs.within
        (.putchar (codeToChar (updateKbdState s.kbd.modifiers code) code) false)
      rw [VgaCall.run] at hput
      rw [if_pos hch, if_pos hch, hinsert, Option.bind_eq_bind, Option.bind_some, hput,
        Option.bind_eq_bind, Option.bind_some]
      exact ⟨_, rfl, ⟨⟨h, t', hends⟩, hq, hshows⟩, hmod, hqueued⟩
    · rw [if_neg hch, if_neg hch]
      exact ⟨_, rfl, ⟨⟨h, t, hkm⟩, hs.within, hs.shows⟩, rfl, rfl⟩

theorem Console.step_spec (hs : s.Holds p) (op : ConsoleOp) :
    ∃ s' out p', s.step op = some (s', out) ∧ s'.Holds p'
      ∧ s'.kbd.modifiers = op.modifiers s.kbd.modifiers
      ∧ (s'.kbd.queued, out) = (op.event s.kbd.modifiers).step s.kbd.queued := by
  obtain ⟨h, t, hk⟩ := hs.ends
  cases op with
  | key code =>
    obtain ⟨s', hrun, hs', hmod, hqueued⟩ := kbdIrqHandle_spec hs code
    refine ⟨s', [], _, ?_, hs', hmod, ?_⟩
    · rw [Console.step, hrun, Option.bind_eq_bind, Option.bind_some]
    · rw [hqueued, ConsoleOp.event, keyEvent]
      dsimp only
      split_ifs <;> rfl
  | output ch =>
    obtain ⟨hq, vga, hput, hshows⟩ := VgaCall.step hs.shows hs.within (.putchar ch true)
    rw [VgaCall.run] at hput
    refine ⟨{ s with vga := vga }, [], _, ?_, ⟨⟨h, t, hk⟩, hq, hshows⟩, rfl, rfl⟩
    rw [Console.step, hput, Option.bind_eq_bind, Option.bind_some]
  | readStart =>
    have hends : Kbd.Ends { s.kbd with bufferTail := s.kbd.bufferHead } h h :=
      ⟨hk.head, hk.head, hk.head_lt, hk.head_lt⟩
    refine ⟨_, [], p, rfl, ⟨⟨h, h, hends⟩, hs.within, hs.shows⟩, rfl, ?_⟩
    rw [hends.queued_eq, Ring.queue_self hk.head_lt]
    rfl
  | readWait =>
    exact ⟨_, [], p, rfl, ⟨⟨h, t, ⟨hk.head, hk.tail, hk.head_lt, hk.tail_lt⟩⟩, hs.within, hs.shows⟩, rfl,
      rfl⟩
  | readPass =>
    rw [Console.step]
    by_cases hne : s.kbd.bufferHead ≠ s.kbd.bufferTail
    · obtain ⟨k', h', ch, hpass, hends, hmod, hqueued⟩ := readstdinPass_spec hk hne
      rw [if_pos hne, hpass, Option.bind_eq_bind, Option.bind_some]
      refine ⟨_, _, p, rfl, ⟨⟨h', t, hends⟩, hs.within, hs.shows⟩, hmod, ?_⟩
      simp [ConsoleOp.event, LineEvent.step, hqueued]
    · have hnil := hk.head_eq_tail_iff.mp (not_not.mp hne)
      rw [if_neg hne]
      refine ⟨_, _, p, rfl, hs, rfl, ?_⟩
      simp [ConsoleOp.event, LineEvent.step, hnil]
  | readCopy maxLen readData =>
    obtain ⟨k', h', readLen, data, hcopy, hends, hmod, hqueued, hdata⟩ :=
      readstdinCopy_all hk maxLen readData
    refine ⟨{ s with kbd := k' }, (List.range readLen.toNat).map data, p, ?_,
      ⟨⟨h', t, hends⟩, hs.within, hs.shows⟩, hmod, ?_⟩
    · rw [Console.step, hcopy, Option.bind_eq_bind, Option.bind_some]
    · rw [hdata]
      exact Prod.ext hqueued rfl

theorem Console.run_spec (ops : List ConsoleOp) : ∀ {s : Console} {p : Sheet UInt8}, s.Holds p →
    ∃ s' outs p', s.run ops = some (s', outs) ∧ s'.Holds p'
      ∧ (s'.kbd.queued, outs) = lineRun s.kbd.queued (lineEvents s.kbd.modifiers ops) := by
  induction ops with
  | nil => exact fun {s} {p} hs => ⟨s, [], p, rfl, hs, rfl⟩
  | cons op ops ih =>
    intro s p hs
    obtain ⟨s₁, out, p₁, hstep, hs₁, hmod, hline⟩ := s.step_spec hs op
    obtain ⟨s', outs, p', hrun, hs', hlines⟩ := ih hs₁
    refine ⟨s', out :: outs, p', ?_, hs', ?_⟩
    · rw [Console.run, hstep, Option.bind_eq_bind, Option.bind_some]
      dsimp only
      rw [hrun, Option.bind_eq_bind, Option.bind_some]
    · rw [lineEvents, lineRun, ← hline, ← hmod, ← hlines]

theorem consoleInit_spec (mem : ℕ → UInt16) : ∃ s, consoleInit mem = some s ∧ s.kbd = keytableInit
    ∧ s.Holds (Sheet.empty 0) := by
  obtain ⟨vga, hinit, hshows⟩ := Shows.init mem
  refine ⟨⟨keytableInit, vga⟩, ?_, rfl, ⟨0, 0, rfl, rfl, by omega, by omega⟩,
    Sheet.Within.empty (by omega), hshows⟩
  rw [consoleInit, hinit, Option.bind_eq_bind, Option.bind_some]

/-- **The key buffer is the queue of a line.** From the start every sequence of key events, output and
steps of `readstdin_handler` goes through, without an access outside `key_buffer` or the screen; the ends
of the queue stay cells of the ring, and what is queued and delivered is what the line queues and
delivers. -/
theorem key_buffer_is_line_queue (mem : ℕ → UInt16) (ops : List ConsoleOp) :
    ∃ s outs, (consoleInit mem >>= fun s => s.run ops) = some (s, outs)
      ∧ (0 ≤ s.kbd.bufferHead ∧ s.kbd.bufferHead < maxKeybufferSize)
      ∧ (0 ≤ s.kbd.bufferTail ∧ s.kbd.bufferTail < maxKeybufferSize)
      ∧ (s.kbd.queued, outs) = lineRun [] (lineEvents keytableInit.modifiers ops) := by
  obtain ⟨s₀, hinit, hkbd, hs₀⟩ := consoleInit_spec mem
  obtain ⟨s, outs, p, hrun, hs, hline⟩ := Console.run_spec ops hs₀
  obtain ⟨h, t, hk⟩ := hs.ends
  have hhead := hk.head
  have hheadLt := hk.head_lt
  have htail := hk.tail
  have htailLt := hk.tail_lt
  have hnil : keytableInit.queued = [] := rfl
  rw [hkbd, hnil] at hline
  rw [hinit, Option.bind_eq_bind, Option.bind_some, maxKeybufferSize]
  exact ⟨s, outs, hrun, by omega, by omega, hline⟩

end SeL4Sys

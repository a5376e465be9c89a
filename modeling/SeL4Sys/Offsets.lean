import SeL4Sys.BlockUse
import SeL4Sys.DirRuns
import SeL4Sys.Server
import SeL4Sys.UserBuffers

/-!
# Offsets in 32 bits

`syscall_lseek`, `syscall_readfile` and `syscall_writefile` with the `int` of the machine, and the copies
that the loops make between the string of the caller and the buffer for a block. A sum that leaves the
range of an `int` is stored as the machine stores it, as `asInt`.

`syscall_lseek` takes any offset, so a sequence of calls keeps the offset non-negative and the copies in
the buffer exactly as long as every seek goes to a place in the range, and every write ends in it. Up to
there the calls are those of `FileOps`, where the integers have no bounds.
-/

namespace SeL4Sys

open Bytes

/-! ## The copies of the loops -/

/-- A `memcpy` from or to the local buffer, which holds the block with this index. -/
structure BlockCopy where
  blockIndex : ℤ
  start : ℤ
  size : ℤ
deriving DecidableEq

/-- The copy stays in the buffer, and there is a block with the index. -/
def BlockCopy.Inside (blockSize : ℕ) (c : BlockCopy) : Prop :=
  0 ≤ c.blockIndex ∧ 0 ≤ c.start ∧ 0 ≤ c.size ∧ c.start + c.size ≤ blockSize

/-- The number of bytes that some copies move. -/
def moved (cs : List BlockCopy) : ℤ := (cs.map BlockCopy.size).sum

@[simp] theorem moved_nil : moved [] = 0 := rfl

@[simp] theorem moved_cons (c : BlockCopy) (cs : List BlockCopy) : moved (c :: cs) = c.size + moved cs :=
  List.sum_cons

/-! ## Reading -/

/-- `max_read_size` -/
def maxReadSize32 (s : FS) (inode : Inode) (maxLen : ℤ) (r : ReadState) : ℤ :=
  min (asInt (s.superBlock.blockSize - r.remainder))
    (min (asInt (inode.size - r.offset)) (asInt (maxLen - r.readLen)))

/-- One pass of the loop of `syscall_readfile`. -/
def readRound32 (s : FS) (inode : Inode) (maxLen : ℤ) (r : ReadState) : ReadState :=
  let buffer := (readBlock s inode r.quotient.toNat r.buffer).getD r.buffer
  let n := maxReadSize32 s inode maxLen r
  { offset := asInt (r.offset + n)
    quotient := asInt (r.quotient + 1)
    remainder := 0
    readLen := asInt (r.readLen + n)
    buffer := buffer
    str := patch r.str r.readLen.toNat n.toNat (window buffer r.remainder.toNat) }

/-- The copies of a loop, and its variables behind it. -/
structure ReadEnd where
  copies : List BlockCopy
  last : ReadState

/-- The loop of `syscall_readfile`. A pass moves a byte at least, or it is the last one: if the difference of
size and offset has left the range, the sum of both is the size again. -/
def readLoop32 (s : FS) (inode : Inode) (maxLen : ℤ) : ℕ → ReadState → ReadEnd
  | 0, r => ⟨[], r⟩
  | n + 1, r =>
    if r.readLen < maxLen ∧ r.offset < inode.size then
      let e := readLoop32 s inode maxLen n (readRound32 s inode maxLen r)
      ⟨⟨r.quotient, r.remainder, maxReadSize32 s inode maxLen r⟩ :: e.copies, e.last⟩
    else ⟨[], r⟩

/-- The variables of `syscall_readfile` in front of its loop. -/
def readStart (s : FS) (fcb : FCB) (str buffer : Buf) : ReadState where
  offset := fcb.offset
  quotient := fcb.offset.tdiv s.superBlock.blockSize
  remainder := fcb.offset.tmod s.superBlock.blockSize
  readLen := 0
  buffer := buffer
  str := str

/-- `syscall_readfile`: the copies, the return value, the control block and the caller's string. -/
def syscallReadfile32 (s : FS) (fcb : FCB) (fd : ℤ) (str : Buf) (maxLen : ℤ) (buffer : Buf) :
    List BlockCopy × ℤ × FCB × Buf :=
  if !fcb.valid fd || !modeCanRead fcb.flags then ([], -1, fcb, str)
  else
    let inode := loadInode s.disk fcb.inodeOffset
    if inode.size ≤ fcb.offset then ([], 0, fcb, str)
    else
      let e := readLoop32 s inode maxLen maxLen.toNat (readStart s fcb str buffer)
      (e.copies, e.last.readLen, { fcb with offset := e.last.offset }, e.last.str)

/-! ## Writing -/

/-- A block is added when the quotient is past the last one. -/
def addBlock (inodeOffset : ℕ) (stack : ℕ → Buf) (w : WriteState) : Option WriteState :=
  if w.inode.blockCount ≤ w.quotient then
    (allocBlock w.fs w.inode inodeOffset stack).map fun q => { w with fs := q.1, inode := q.2 }
  else some w

/-- `max_write_size` -/
def maxWriteSize32 (len : ℤ) (w : WriteState) : ℤ :=
  min (asInt (w.fs.superBlock.blockSize - w.remainder)) (asInt (len - w.writeLen))

/-- The block of one pass is written. -/
def writeChunk32 (str : Buf) (len : ℤ) (w : WriteState) : WriteState :=
  let buffer := (readBlock w.fs w.inode w.quotient.toNat w.buffer).getD w.buffer
  let n := maxWriteSize32 len w
  let buffer := patch buffer w.remainder.toNat n.toNat (window str w.writeLen.toNat)
  let offset := asInt (w.offset + n)
  { fs := (writeBlock w.fs w.inode w.quotient.toNat buffer).getD w.fs
    inode := { w.inode with size := max w.inode.size offset }
    offset := offset
    quotient := asInt (w.quotient + 1)
    remainder := 0
    writeLen := asInt (w.writeLen + n)
    buffer := buffer }

/-- The copies of a loop, its variables behind it, and whether it ran to its end. -/
structure WriteEnd where
  copies : List BlockCopy
  last : WriteState
  returned : Bool

/-- What the rest of the call goes on with. -/
def WriteEnd.result (e : WriteEnd) : Option WriteState := if e.returned then some e.last else none

/-- The loop of `syscall_writefile`. It does not run to its end if the assertion on `allocBlock` fails. -/
def writeLoop32 (inodeOffset : ℕ) (str : Buf) (len : ℤ) (stack : ℕ → ℕ → Buf) : ℕ → WriteState → WriteEnd
  | 0, w => ⟨[], w, true⟩
  | n + 1, w =>
    if w.writeLen < len then
      match addBlock inodeOffset (stack n) w with
      | none => ⟨[], w, false⟩
      | some v =>
        let e := writeLoop32 inodeOffset str len stack n (writeChunk32 str len v)
        ⟨⟨v.quotient, v.remainder, maxWriteSize32 len v⟩ :: e.copies, e.last, e.returned⟩
    else ⟨[], w, true⟩

/-- The variables of `syscall_writefile` in front of its loop. -/
def writeStart (s : FS) (fcb : FCB) (buffer : Buf) : WriteState where
  fs := s
  inode := loadInode s.disk fcb.inodeOffset
  offset := fcb.offset
  quotient := fcb.offset.tdiv s.superBlock.blockSize
  remainder := fcb.offset.tmod s.superBlock.blockSize
  writeLen := 0
  buffer := buffer

/-- `syscall_writefile`: the copies, the control block, and, if it returns, the return value and the file
system. -/
def syscallWritefile32 (s : FS) (fcb : FCB) (fd : ℤ) (str : Buf) (len : ℤ) (buffer : Buf)
    (stack : ℕ → ℕ → Buf) : List BlockCopy × FCB × Option (ℤ × FS) :=
  if !fcb.valid fd || !modeCanWrite fcb.flags then ([], fcb, some (-1, s))
  else
    let e := writeLoop32 fcb.inodeOffset str len stack len.toNat (writeStart s fcb buffer)
    (e.copies, { fcb with offset := e.last.offset }, e.result.map fun w =>
      (len, { w.fs with disk := storeInode w.fs.disk w.inode fcb.inodeOffset }))

/-! ## Seeking -/

/-- `syscall_lseek`: the sums of the unbounded call, stored in an `int`. -/
def syscallLseek32 (s : FS) (fcb : FCB) (fd : ℤ) (offset : ℤ) (whence : Option Whence) : ℤ × FCB :=
  let r := syscallLseek s fcb fd offset whence
  (asInt r.1, { r.2 with offset := asInt r.2.offset })

/-- The place that a seek asks for. -/
def seekTarget (s : FS) (fcb : FCB) (offset : ℤ) : Whence → ℤ
  | .seekSet => offset
  | .seekCur => fcb.offset + offset
  | .seekEnd => (loadInode s.disk fcb.inodeOffset).size + offset

/-! ## Sequences of calls -/

/-- A call on a control block. The arguments of type `int` are any. -/
inductive FcbCall
  | lseek (fd offset whence : Int32)
  | readfile (fd : Int32) (str : Buf) (maxLen : Int32) (buffer : Buf)
  | writefile (fd : Int32) (str : Buf) (len : Int32) (buffer : Buf) (stack : ℕ → ℕ → Buf)

/-- The copies of a call, the return value, and what it leaves; nothing but the control block if an
assertion has failed. -/
structure CallEnd where
  copies : List BlockCopy
  fcb : FCB
  outcome : Option (ℤ × FS)

def fcbCall (s : FS) (fcb : FCB) : FcbCall → CallEnd
  | .lseek fd offset whence =>
    let r := syscallLseek32 s fcb fd.toInt offset.toInt (whenceOf whence.toInt)
    ⟨[], r.2, some (r.1, s)⟩
  | .readfile fd str maxLen buffer =>
    let r := syscallReadfile32 s fcb fd.toInt str maxLen.toInt buffer
    ⟨r.1, r.2.2.1, some (r.2.1, s)⟩
  | .writefile fd str len buffer stack =>
    let r := syscallWritefile32 s fcb fd.toInt str len.toInt buffer stack
    ⟨r.1, r.2.1, r.2.2⟩

/-- `P` holds of every call of a sequence, in the state in which it is made. -/
def Along (P : FS → FCB → FcbCall → Prop) : FS → FCB → List FcbCall → Prop
  | _, _, [] => True
  | s, fcb, c :: cs =>
    P s fcb c ∧ ∀ ret s', (fcbCall s fcb c).outcome = some (ret, s') → Along P s' (fcbCall s fcb c).fcb cs

/-- The place is one that an offset can name. -/
def IsOffset (x : ℤ) : Prop := 0 ≤ x ∧ x < 2 ^ 31

/-- What is asked of a call: the offset stays non-negative, the copies stay in the buffer, and a seek to a
place that is no offset is refused. -/
structure CallSafe (s : FS) (fcb : FCB) (c : FcbCall) : Prop where
  offset : 0 ≤ (fcbCall s fcb c).fcb.offset
  copies : ∀ copy ∈ (fcbCall s fcb c).copies, copy.Inside s.superBlock.blockSize
  refused : ∀ fd offset whence w, c = .lseek fd offset whence → fcb.valid fd.toInt = true →
    whenceOf whence.toInt = some w → ¬ IsOffset (seekTarget s fcb offset.toInt w) →
    (fcbCall s fcb c).outcome = some (-1, s) ∧ (fcbCall s fcb c).fcb = fcb

/-- A seek goes to a place that is an offset, and a write does not go on behind the last one. A write that
returns has written `len` bytes, and one that ends in a failed assertion those it has copied. -/
def CallInRange (s : FS) (fcb : FCB) : FcbCall → Prop
  | .lseek fd offset whence => fcb.valid fd.toInt = true →
    ∀ w, whenceOf whence.toInt = some w → IsOffset (seekTarget s fcb offset.toInt w)
  | .readfile .. => True
  | .writefile fd str len buffer stack => fcb.valid fd.toInt = true → modeCanWrite fcb.flags = true →
    let r := fcbCall s fcb (.writefile fd str len buffer stack)
    fcb.offset + (if r.outcome.isSome then len.toInt else moved r.copies) < 2 ^ 31

/-- A control block with a non-negative offset, for a file with a non-negative size. -/
structure OpenOk (s : FS) (fcb : FCB) : Prop where
  blockSize_pos : 0 < s.superBlock.blockSize
  blockSize_lt : s.superBlock.blockSize < 2 ^ 31
  size : 0 ≤ (loadInode s.disk fcb.inodeOffset).size
  offset : IsOffset fcb.offset

theorem loadInode_size_lt (d : Disk) (o : ℕ) : (loadInode d o).size < 2 ^ 31 := by
  have hfits := (loadInode_fits d o).size
  unfold FitsInt at hfits
  omega

/-! ## The loop that reads -/

section read
variable {s : FS} {inode : Inode} {maxLen : ℤ} {r : ReadState}

/-- The variables of the loop, as long as no sum leaves the range. -/
structure ReadState.InRange (s : FS) (r : ReadState) : Prop where
  offset : IsOffset r.offset
  remainder_nonneg : 0 ≤ r.remainder
  remainder_lt : r.remainder < s.superBlock.blockSize
  quotient_nonneg : 0 ≤ r.quotient
  quotient_le : r.quotient ≤ r.offset
  readLen : 0 ≤ r.readLen

/-- A pass moves a byte at least, and none from behind the buffer or the file. -/
theorem maxReadSize_bounds (h : r.InRange s) (hlen : r.readLen < maxLen) (hoff : r.offset < inode.size) :
    1 ≤ maxReadSize s inode maxLen r ∧ r.remainder + maxReadSize s inode maxLen r ≤ s.superBlock.blockSize
      ∧ r.offset + maxReadSize s inode maxLen r ≤ inode.size
      ∧ r.readLen + maxReadSize s inode maxLen r ≤ maxLen := by
  have hlt := h.remainder_lt
  rw [maxReadSize]
  omega

variable (hblock : s.superBlock.blockSize < 2 ^ 31) (hsize : inode.size < 2 ^ 31) (hmax : maxLen < 2 ^ 31)

include hblock hsize hmax

theorem maxReadSize32_eq (h : r.InRange s) (hlen : r.readLen < maxLen) (hoff : r.offset < inode.size) :
    maxReadSize32 s inode maxLen r = maxReadSize s inode maxLen r := by
  have hrem := h.remainder_nonneg
  have hlt := h.remainder_lt
  have hnonneg := h.offset.1
  have hread := h.readLen
  rw [maxReadSize32, maxReadSize, asInt_of_fits (by omega) (by omega), asInt_of_fits (by omega) (by omega),
    asInt_of_fits (by omega) (by omega)]

theorem readRound32_eq (h : r.InRange s) (hlen : r.readLen < maxLen) (hoff : r.offset < inode.size) :
    readRound32 s inode maxLen r = readRound s inode maxLen r := by
  have hn := maxReadSize_bounds h hlen hoff
  have hnonneg := h.offset.1
  have hquot := h.quotient_nonneg
  have hle := h.quotient_le
  have hread := h.readLen
  rw [readRound32, maxReadSize32_eq hblock hsize hmax h hlen hoff, asInt_of_fits (by omega) (by omega),
    asInt_of_fits (by omega) (by omega), asInt_of_fits (by omega) (by omega)]
  rfl

theorem readRound_inRange (h : r.InRange s) (hlen : r.readLen < maxLen) (hoff : r.offset < inode.size) :
    (readRound s inode maxLen r).InRange s := by
  have hn := maxReadSize_bounds h hlen hoff
  have hnonneg := h.offset.1
  have hquot := h.quotient_nonneg
  have hle := h.quotient_le
  have hread := h.readLen
  have hlt := h.remainder_lt
  have hrem := h.remainder_nonneg
  unfold readRound
  constructor
  · constructor
    · show 0 ≤ r.offset + _
      omega
    · show r.offset + _ < 2 ^ 31
      omega
  · show (0 : ℤ) ≤ 0
    omega
  · show (0 : ℤ) < s.superBlock.blockSize
    omega
  · show 0 ≤ r.quotient + 1
    omega
  · show r.quotient + 1 ≤ r.offset + _
    omega
  · show 0 ≤ r.readLen + _
    omega

theorem readLoop32_spec (n : ℕ) : ∀ r : ReadState, r.InRange s →
    (readLoop32 s inode maxLen n r).last = readLoop s inode maxLen n r
      ∧ (readLoop s inode maxLen n r).InRange s
      ∧ ∀ copy ∈ (readLoop32 s inode maxLen n r).copies, copy.Inside s.superBlock.blockSize := by
  induction n with
  | zero => exact fun r h => ⟨rfl, h, by simp [readLoop32]⟩
  | succ n ih =>
    intro r h
    rw [readLoop32, readLoop]
    by_cases hcond : r.readLen < maxLen ∧ r.offset < inode.size
    · have hn := maxReadSize_bounds h hcond.1 hcond.2
      obtain ⟨hlast, hrange, hcopies⟩ := ih _ (readRound_inRange hblock hsize hmax h hcond.1 hcond.2)
      rw [if_pos hcond, if_pos hcond, readRound32_eq hblock hsize hmax h hcond.1 hcond.2,
        maxReadSize32_eq hblock hsize hmax h hcond.1 hcond.2]
      refine ⟨hlast, hrange, fun copy hcopy => ?_⟩
      rcases List.mem_cons.mp hcopy with rfl | hmem
      · exact ⟨h.quotient_nonneg, h.remainder_nonneg, zero_le_one.trans hn.1, hn.2.1⟩
      · exact hcopies copy hmem
    · rw [if_neg hcond, if_neg hcond]
      exact ⟨rfl, h, by simp⟩

end read

/-- `syscall_readfile` on a non-negative offset is the one of `FileOps`. -/
theorem syscallReadfile32_spec {s : FS} {fcb : FCB} (h : OpenOk s fcb) (fd : ℤ) (str : Buf) {maxLen : ℤ}
    (hmax : maxLen < 2 ^ 31) (buffer : Buf) :
    (syscallReadfile32 s fcb fd str maxLen buffer).2 = syscallReadfile s fcb fd str maxLen buffer
      ∧ OpenOk s (syscallReadfile s fcb fd str maxLen buffer).2.1
      ∧ ∀ copy ∈ (syscallReadfile32 s fcb fd str maxLen buffer).1, copy.Inside s.superBlock.blockSize := by
  rw [syscallReadfile32, syscallReadfile, readFrom]
  by_cases hvalid : (!fcb.valid fd || !modeCanRead fcb.flags) = true
  · rw [if_pos hvalid, if_pos hvalid]
    exact ⟨rfl, h, by simp⟩
  · rw [if_neg hvalid, if_neg hvalid]
    dsimp only
    by_cases hend : (loadInode s.disk fcb.inodeOffset).size ≤ fcb.offset
    · rw [if_pos hend, if_pos hend]
      exact ⟨rfl, h, by simp⟩
    · rw [if_neg hend, if_neg hend]
      have hstart : (readStart s fcb str buffer).InRange s :=
        { offset := h.offset
          remainder_nonneg := Int.tmod_nonneg _ h.offset.1
          remainder_lt := Int.tmod_lt_of_pos _ (Int.natCast_pos.mpr h.blockSize_pos)
          quotient_nonneg := Int.tdiv_nonneg h.offset.1 (Int.natCast_nonneg _)
          quotient_le := Int.tdiv_le_self _ h.offset.1
          readLen := le_rfl }
      obtain ⟨hlast, hrange, hcopies⟩ := readLoop32_spec h.blockSize_lt
        (loadInode_size_lt s.disk fcb.inodeOffset) hmax maxLen.toNat _ hstart
      refine ⟨?_, ⟨h.blockSize_pos, h.blockSize_lt, h.size, hrange.offset⟩, hcopies⟩
      rw [hlast]
      rfl

/-! ## The loop that writes -/

section write
variable {o : ℕ} {str : Buf} {len : ℤ} {stack : ℕ → Buf} {v : ℕ} {w w' : WriteState}

/-- The variables of the loop. The offset may have left the range. -/
structure WriteState.Ok (v : ℕ) (w : WriteState) : Prop where
  blockSize : w.fs.superBlock.blockSize = v
  remainder_nonneg : 0 ≤ w.remainder
  remainder_lt : w.remainder < v
  writeLen : 0 ≤ w.writeLen
  size : IsOffset w.inode.size
  le_offset : -2 ^ 31 ≤ w.offset
  offset_lt : w.offset < 2 ^ 31

theorem writeRound_eq (o : ℕ) (str : Buf) (len : ℤ) (stack : ℕ → Buf) (w : WriteState) :
    writeRound o str len stack w = (addBlock o stack w).map (writeChunk str len) := by
  rw [writeRound, addBlock]
  split_ifs
  · rw [Option.map_map]
    rfl
  · rfl

/-- Adding a block changes the file system and the inode only. -/
theorem addBlock_spec (h : w.Ok v) (hadd : addBlock o stack w = some w') :
    w'.Ok v ∧ w'.offset = w.offset ∧ w'.quotient = w.quotient ∧ w'.writeLen = w.writeLen := by
  rw [addBlock] at hadd
  split_ifs at hadd
  · obtain ⟨q, hq, rfl⟩ := Option.map_eq_some_iff.mp hadd
    have hsize : q.2.size = w.inode.size := (allocBlock_keeps hq).size
    exact ⟨{ h with
      blockSize := (allocBlock_blockSize hq).trans h.blockSize
      size := hsize ▸ h.size }, rfl, rfl, rfl⟩
  · cases hadd
    exact ⟨h, rfl, rfl, rfl⟩

theorem maxWriteSize_bounds (h : w.Ok v) (hlt : w.writeLen < len) :
    1 ≤ maxWriteSize len w ∧ w.remainder + maxWriteSize len w ≤ v
      ∧ w.writeLen + maxWriteSize len w ≤ len := by
  have hrem := h.remainder_lt
  rw [maxWriteSize, h.blockSize]
  omega

variable (hv : v < 2 ^ 31) (hlen : len < 2 ^ 31)

include hv hlen

theorem maxWriteSize32_eq (h : w.Ok v) (hlt : w.writeLen < len) :
    maxWriteSize32 len w = maxWriteSize len w := by
  have hrem := h.remainder_nonneg
  have hremLt := h.remainder_lt
  have hwrite := h.writeLen
  rw [maxWriteSize32, maxWriteSize, h.blockSize, asInt_of_fits (by omega) (by omega),
    asInt_of_fits (by omega) (by omega)]

theorem writeChunk32_writeLen (h : w.Ok v) (hlt : w.writeLen < len) :
    (writeChunk32 str len w).writeLen = w.writeLen + maxWriteSize len w := by
  have hn := maxWriteSize_bounds h hlt
  have hwrite := h.writeLen
  show asInt (w.writeLen + maxWriteSize32 len w) = _
  rw [maxWriteSize32_eq hv hlen h hlt, asInt_of_fits (by omega) (by omega)]

theorem writeChunk32_ok (h : w.Ok v) (hlt : w.writeLen < len) : (writeChunk32 str len w).Ok v where
  blockSize := by
    rw [← h.blockSize, writeChunk32, writeBlock]
    cases blockSector w.fs w.inode w.quotient.toNat <;> rfl
  remainder_nonneg := le_rfl
  remainder_lt := lt_of_le_of_lt h.remainder_nonneg h.remainder_lt
  writeLen := by
    have hn := maxWriteSize_bounds h hlt
    have hwrite := h.writeLen
    rw [writeChunk32_writeLen hv hlen h hlt]
    omega
  size := ⟨le_max_of_le_left h.size.1, max_lt h.size.2 (asInt_lt _)⟩
  le_offset := le_asInt _
  offset_lt := asInt_lt _

/-- A pass of the loop: `w'` is `w` with a block for the pass, and the pass copies a byte at least, and no
byte behind the buffer or the string. -/
structure Pass (v : ℕ) (str : Buf) (len : ℤ) (w w' : WriteState) : Prop where
  ok : w'.Ok v
  lt : w'.writeLen < len
  offset : w'.offset = w.offset
  quotient : w'.quotient = w.quotient
  writeLen : w'.writeLen = w.writeLen
  size : maxWriteSize32 len w' = maxWriteSize len w'
  pos : 1 ≤ maxWriteSize len w'
  inBuffer : w'.remainder + maxWriteSize len w' ≤ v
  inString : w.writeLen + maxWriteSize len w' ≤ len
  next : (writeChunk32 str len w').Ok v
  next_writeLen : (writeChunk32 str len w').writeLen = w.writeLen + maxWriteSize len w'

theorem addBlock_pass (h : w.Ok v) (hlt : w.writeLen < len) (hadd : addBlock o stack w = some w')
    (str : Buf) : Pass v str len w w' := by
  obtain ⟨h', hoffset, hquotient, hwrite⟩ := addBlock_spec h hadd
  have hlt' : w'.writeLen < len := by omega
  obtain ⟨hpos, hbuffer, hstring⟩ := maxWriteSize_bounds h' hlt'
  exact
    { ok := h'
      lt := hlt'
      offset := hoffset
      quotient := hquotient
      writeLen := hwrite
      size := maxWriteSize32_eq hv hlen h' hlt'
      pos := hpos
      inBuffer := hbuffer
      inString := hwrite ▸ hstring
      next := writeChunk32_ok hv hlen h' hlt'
      next_writeLen := hwrite ▸ writeChunk32_writeLen hv hlen h' hlt' }

/-- What a run of the loop moves, and the offset behind it. -/
theorem writeLoop32_spec (stack : ℕ → ℕ → Buf) (n : ℕ) : ∀ w : WriteState, w.Ok v →
    (writeLoop32 o str len stack n w).last.Ok v
      ∧ 0 ≤ moved (writeLoop32 o str len stack n w).copies
      ∧ moved (writeLoop32 o str len stack n w).copies ≤ max 0 (len - w.writeLen)
      ∧ (writeLoop32 o str len stack n w).last.offset
        = asInt (w.offset + moved (writeLoop32 o str len stack n w).copies) := by
  have hstop : ∀ w : WriteState, w.Ok v → w.offset = asInt (w.offset + moved []) := fun w h => by
    rw [moved_nil, add_zero, asInt_of_fits h.le_offset h.offset_lt]
  induction n with
  | zero =>
    intro w h
    rw [writeLoop32]
    exact ⟨h, le_rfl, le_max_left _ _, hstop w h⟩
  | succ n ih =>
    intro w h
    rw [writeLoop32]
    by_cases hlt : w.writeLen < len
    · rw [if_pos hlt]
      cases hadd : addBlock o (stack n) w with
      | none => exact ⟨h, le_rfl, le_max_left _ _, hstop w h⟩
      | some w' =>
        have hpass := addBlock_pass hv hlen h hlt hadd str
        have hpos := hpass.pos
        have hstring := hpass.inString
        obtain ⟨hok, hnonneg, hle, hlast⟩ := ih _ hpass.next
        rw [hpass.next_writeLen] at hle
        rw [moved_cons]
        dsimp only
        rw [hpass.size]
        refine ⟨hok, by omega, by omega, ?_⟩
        have hnext : (writeChunk32 str len w').offset = asInt (w'.offset + maxWriteSize32 len w') := rfl
        rw [hlast, hnext, asInt_asInt_add, hpass.size, hpass.offset, add_assoc]
    · rw [if_neg hlt]
      exact ⟨h, le_rfl, le_max_left _ _, hstop w h⟩

/-- A loop that runs to its end has moved all the bytes. -/
theorem writeLoop32_moved (stack : ℕ → ℕ → Buf) (n : ℕ) : ∀ w : WriteState, w.Ok v →
    len ≤ w.writeLen + n → (writeLoop32 o str len stack n w).returned = true →
    moved (writeLoop32 o str len stack n w).copies = max 0 (len - w.writeLen) := by
  induction n with
  | zero =>
    intro w h hfuel hret
    rw [writeLoop32, moved_nil]
    omega
  | succ n ih =>
    intro w h hfuel hret
    rw [writeLoop32] at hret ⊢
    by_cases hlt : w.writeLen < len
    · rw [if_pos hlt] at hret ⊢
      cases hadd : addBlock o (stack n) w with
      | none =>
        rw [hadd] at hret
        cases hret
      | some w' =>
        rw [hadd] at hret
        have hpass := addBlock_pass hv hlen h hlt hadd str
        have hpos := hpass.pos
        have hstring := hpass.inString
        have hnext := hpass.next_writeLen
        have hrest := ih _ hpass.next (by omega) hret
        rw [moved_cons]
        dsimp only
        rw [hrest, hnext, hpass.size]
        omega
    · rw [if_neg hlt, moved_nil]
      omega

/-- Without a sum that leaves the range the pass is the one of `FileOps`. -/
theorem writeChunk32_eq (h : w.Ok v) (hlt : w.writeLen < len) (hoff : 0 ≤ w.offset)
    (hend : w.offset + maxWriteSize len w < 2 ^ 31) (hquot : 0 ≤ w.quotient)
    (hle : w.quotient ≤ w.offset) : writeChunk32 str len w = writeChunk str len w := by
  have hn := maxWriteSize_bounds h hlt
  have hwrite := h.writeLen
  rw [writeChunk32, maxWriteSize32_eq hv hlen h hlt, asInt_of_fits (by omega) (by omega),
    asInt_of_fits (by omega) (by omega), asInt_of_fits (by omega) (by omega)]
  rfl

/-- A loop that ends in the range is the one of `FileOps`, and its copies stay in the buffer. -/
theorem writeLoop32_inRange (stack : ℕ → ℕ → Buf) (n : ℕ) : ∀ w : WriteState, w.Ok v → 0 ≤ w.offset →
    0 ≤ w.quotient → w.quotient ≤ w.offset →
    w.offset + moved (writeLoop32 o str len stack n w).copies < 2 ^ 31 →
    writeLoop o str len stack n w = (writeLoop32 o str len stack n w).result
      ∧ ∀ copy ∈ (writeLoop32 o str len stack n w).copies, copy.Inside v := by
  induction n with
  | zero =>
    intro w h hoff hquot hle hend
    exact ⟨rfl, by simp [writeLoop32]⟩
  | succ n ih =>
    intro w h hoff hquot hle hend
    rw [writeLoop32] at hend ⊢
    rw [writeLoop]
    by_cases hlt : w.writeLen < len
    · rw [if_pos hlt] at hend ⊢
      rw [if_pos hlt, writeRound_eq]
      cases hadd : addBlock o (stack n) w with
      | none => exact ⟨rfl, by simp⟩
      | some w' =>
        rw [hadd] at hend
        have hpass := addBlock_pass hv hlen h hlt hadd str
        have hok := hpass.next
        have hrest : 0 ≤ moved (writeLoop32 o str len stack n (writeChunk32 str len w')).copies :=
          (writeLoop32_spec hv hlen stack n _ hok).2.1
        have hpos := hpass.pos
        have hoffset := hpass.offset
        have hquotient := hpass.quotient
        rw [moved_cons] at hend
        dsimp only at hend ⊢
        rw [hpass.size] at hend
        have hchunk : writeChunk32 str len w' = writeChunk str len w' :=
          writeChunk32_eq hv hlen hpass.ok hpass.lt (by omega) (by omega) (by omega) (by omega)
        rw [hchunk] at hend hok hrest ⊢
        have hoff' : (writeChunk str len w').offset = w'.offset + maxWriteSize len w' := rfl
        have hquot' : (writeChunk str len w').quotient = w'.quotient + 1 := rfl
        obtain ⟨hloop, hcopies⟩ := ih _ hok (by omega) (by omega) (by omega) (by omega)
        rw [Option.map_some, Option.bind_some]
        refine ⟨hloop, fun copy hcopy => ?_⟩
        rcases List.mem_cons.mp hcopy with rfl | hmem
        · rw [hpass.size, hquotient]
          exact ⟨hquot, hpass.ok.remainder_nonneg, zero_le_one.trans hpos, hpass.inBuffer⟩
        · exact hcopies copy hmem
    · rw [if_neg hlt, if_neg hlt]
      exact ⟨rfl, by simp⟩

end write

section write
variable {s : FS} {fcb : FCB} (h : OpenOk s fcb)

include h

theorem writeStart_ok (buffer : Buf) : (writeStart s fcb buffer).Ok s.superBlock.blockSize where
  blockSize := rfl
  remainder_nonneg := Int.tmod_nonneg _ h.offset.1
  remainder_lt := Int.tmod_lt_of_pos _ (Int.natCast_pos.mpr h.blockSize_pos)
  writeLen := le_rfl
  size := ⟨h.size, loadInode_size_lt _ _⟩
  le_offset := le_trans (by norm_num) h.offset.1
  offset_lt := h.offset.2

/-- The offset behind `syscall_writefile`, and the file if the call returns. -/
theorem syscallWritefile32_spec (fd : ℤ) (str : Buf) {len : ℤ} (hlen : len < 2 ^ 31) (buffer : Buf)
    (stack : ℕ → ℕ → Buf) :
    (0 ≤ (syscallWritefile32 s fcb fd str len buffer stack).2.1.offset
        ↔ fcb.offset + moved (syscallWritefile32 s fcb fd str len buffer stack).1 < 2 ^ 31)
      ∧ ∀ ret s', (syscallWritefile32 s fcb fd str len buffer stack).2.2 = some (ret, s') →
        0 ≤ (syscallWritefile32 s fcb fd str len buffer stack).2.1.offset →
        OpenOk s' (syscallWritefile32 s fcb fd str len buffer stack).2.1 := by
  have hoff := h.offset
  rw [syscallWritefile32]
  by_cases hvalid : (!fcb.valid fd || !modeCanWrite fcb.flags) = true
  · rw [if_pos hvalid]
    refine ⟨iff_of_true hoff.1 ?_, fun ret s' hret _ => ?_⟩
    · rw [moved_nil, add_zero]
      exact hoff.2
    · cases hret
      exact h
  · rw [if_neg hvalid]
    dsimp only
    obtain ⟨hok, hnonneg, hle, hlast⟩ := @writeLoop32_spec fcb.inodeOffset str len _ h.blockSize_lt hlen
      stack len.toNat _ (writeStart_ok h buffer)
    have hstart : (writeStart s fcb buffer).offset = fcb.offset := rfl
    have hzero : (writeStart s fcb buffer).writeLen = 0 := rfl
    rw [hstart] at hlast
    rw [hzero] at hle
    constructor
    · -- the sum is below 2 ^ 32, as neither the offset nor the length reaches 2 ^ 31
      unfold IsOffset at hoff
      rw [hlast, asInt_nonneg_iff (by omega) (by omega)]
      omega
    · intro ret s' hret hend
      obtain ⟨w, hw, hws⟩ := Option.map_eq_some_iff.mp hret
      rw [WriteEnd.result] at hw
      split_ifs at hw
      cases hw
      cases hws
      exact
        { blockSize_pos := hok.blockSize.symm ▸ h.blockSize_pos
          blockSize_lt := hok.blockSize.symm ▸ h.blockSize_lt
          size := by
            dsimp only
            rw [loadInode_storeInode_eq, Inode.size_decode_encode]
            · exact hok.size.1
            · have := hok.size
              unfold IsOffset at this
              unfold FitsInt
              omega
          offset := ⟨hend, hok.offset_lt⟩ }

/-- A write that returns has moved the `len` bytes of the call, so the offset behind it is known before. -/
theorem moved_of_returns {fd : ℤ} (hvalid : fcb.valid fd = true) (hmode : modeCanWrite fcb.flags = true)
    {str : Buf} {len : ℤ} (hlen : len < 2 ^ 31) {buffer : Buf} {stack : ℕ → ℕ → Buf} {r : ℤ × FS}
    (hret : (syscallWritefile32 s fcb fd str len buffer stack).2.2 = some r) :
    moved (syscallWritefile32 s fcb fd str len buffer stack).1 = max 0 len := by
  rw [syscallWritefile32, if_neg (by simp [hvalid, hmode])] at hret ⊢
  obtain ⟨w, hw, -⟩ := Option.map_eq_some_iff.mp hret
  rw [WriteEnd.result] at hw
  split_ifs at hw with hreturned
  have hzero : (writeStart s fcb buffer).writeLen = 0 := rfl
  have hmoved := writeLoop32_moved h.blockSize_lt hlen stack len.toNat _ (writeStart_ok h buffer)
    (by omega) hreturned
  rwa [hzero, sub_zero] at hmoved

/-- A write that ends in the range is the one of `FileOps`, and its copies stay in the buffer. -/
theorem syscallWritefile32_inRange (fd : ℤ) (str : Buf) {len : ℤ} (hlen : len < 2 ^ 31) (buffer : Buf)
    (stack : ℕ → ℕ → Buf)
    (hend : fcb.offset + moved (syscallWritefile32 s fcb fd str len buffer stack).1 < 2 ^ 31) :
    syscallWritefile s fcb fd str len buffer stack
        = (syscallWritefile32 s fcb fd str len buffer stack).2.2.map (fun r =>
            (r.1, r.2, (syscallWritefile32 s fcb fd str len buffer stack).2.1))
      ∧ ∀ copy ∈ (syscallWritefile32 s fcb fd str len buffer stack).1,
        copy.Inside s.superBlock.blockSize := by
  rw [syscallWritefile32] at hend ⊢
  rw [syscallWritefile]
  by_cases hvalid : (!fcb.valid fd || !modeCanWrite fcb.flags) = true
  · rw [if_pos hvalid, if_pos hvalid]
    exact ⟨rfl, by simp⟩
  · rw [if_neg hvalid] at hend ⊢
    rw [if_neg hvalid]
    obtain ⟨hloop, hcopies⟩ := writeLoop32_inRange h.blockSize_lt hlen stack len.toNat _
      (writeStart_ok h buffer) h.offset.1 (Int.tdiv_nonneg h.offset.1 (Int.natCast_nonneg _))
      (Int.tdiv_le_self _ h.offset.1) hend
    refine ⟨?_, hcopies⟩
    change (writeLoop fcb.inodeOffset str len stack len.toNat (writeStart s fcb buffer)).map _ = _
    rw [hloop]
    dsimp only
    unfold WriteEnd.result
    split_ifs <;> rfl

end write

/-! ## Seeks -/

section seek
variable {s : FS} {fcb : FCB} (h : OpenOk s fcb)

include h

theorem asInt_offset : { fcb with offset := asInt fcb.offset } = fcb := by
  rw [asInt_of_fits (le_trans (by norm_num) h.offset.1) h.offset.2]

/-- A seek that the call refuses. -/
theorem syscallLseek32_refused (fd offset : ℤ) {whence : Option Whence}
    (hrefused : fcb.valid fd = true → whence = none) :
    syscallLseek32 s fcb fd offset whence = (-1, fcb) := by
  have hsame : syscallLseek s fcb fd offset whence = (-1, fcb) := by
    unfold syscallLseek
    by_cases hvalid : fcb.valid fd = true
    · rw [hvalid, hrefused hvalid]
      rfl
    · rw [Bool.not_eq_true _ |>.mp hvalid]
      rfl
  rw [syscallLseek32, hsame]
  dsimp only
  rw [asInt_offset h]
  rfl

theorem seekTarget_bounds (offset : Int32) (whence : Whence) :
    -2 ^ 31 ≤ seekTarget s fcb offset.toInt whence ∧ seekTarget s fcb offset.toInt whence < 2 ^ 32 := by
  have hlo := offset.le_toInt
  have hhi := offset.toInt_lt
  have hoff := h.offset
  have hsize := h.size
  have hsizeLt := loadInode_size_lt s.disk fcb.inodeOffset
  unfold IsOffset at hoff
  cases whence <;> rw [seekTarget] <;> omega

end seek

/-- Any other seek goes where it is told to. -/
theorem syscallLseek32_seeks {s : FS} {fcb : FCB} {fd : ℤ} (hvalid : fcb.valid fd = true) (offset : ℤ)
    (whence : Whence) : syscallLseek32 s fcb fd offset (some whence)
      = (asInt (seekTarget s fcb offset whence),
          { fcb with offset := asInt (seekTarget s fcb offset whence) }) := by
  unfold syscallLseek32 syscallLseek
  rw [hvalid]
  cases whence <;> rfl

/-! ## Whole sequences -/

section sequences
variable {s s' : FS} {fcb : FCB} {c : FcbCall}

/-- The offset behind a seek. -/
theorem lseek_offset_nonneg_iff (h : OpenOk s fcb) (fd offset whence : Int32) :
    0 ≤ (fcbCall s fcb (.lseek fd offset whence)).fcb.offset
      ↔ CallInRange s fcb (.lseek fd offset whence) := by
  rw [fcbCall, CallInRange]
  cases hw : whenceOf whence.toInt with
  | none =>
    rw [syscallLseek32_refused h _ _ fun _ => rfl]
    exact iff_of_true h.offset.1 fun _ w hnone => by cases hnone
  | some w =>
    by_cases hvalid : fcb.valid fd.toInt = true
    · have hbounds := seekTarget_bounds h offset w
      rw [syscallLseek32_seeks hvalid, forall_prop_of_true hvalid]
      simp only [Option.some.injEq, forall_eq']
      exact asInt_nonneg_iff hbounds.1 hbounds.2
    · rw [syscallLseek32_refused h _ _ fun hv => absurd hv hvalid]
      exact iff_of_true h.offset.1 fun hv => absurd hv hvalid

/-- A write moves nothing if it is refused, and `len` bytes if it returns. -/
theorem writefile_inRange_iff (h : OpenOk s fcb) (fd : Int32) (str : Buf) (len : Int32) (buffer : Buf)
    (stack : ℕ → ℕ → Buf) : CallInRange s fcb (.writefile fd str len buffer stack)
      ↔ fcb.offset + moved (fcbCall s fcb (.writefile fd str len buffer stack)).copies < 2 ^ 31 := by
  have hoff := h.offset
  unfold IsOffset at hoff
  rw [CallInRange]
  dsimp only
  by_cases hvalid : fcb.valid fd.toInt = true ∧ modeCanWrite fcb.flags = true
  · rw [forall_prop_of_true hvalid.1, forall_prop_of_true hvalid.2]
    cases hout : (fcbCall s fcb (.writefile fd str len buffer stack)).outcome with
    | none => rfl
    | some r =>
      have hmoved : moved (fcbCall s fcb (.writefile fd str len buffer stack)).copies = max 0 len.toInt :=
        moved_of_returns h hvalid.1 hvalid.2 len.toInt_lt hout
      rw [hmoved, Option.isSome_some, if_pos rfl]
      omega
  · have hnone : (fcbCall s fcb (.writefile fd str len buffer stack)).copies = [] := by
      rw [fcbCall, syscallWritefile32, if_pos (by simpa [imp_iff_not_or] using hvalid)]
    rw [hnone, moved_nil, add_zero]
    exact iff_of_true (fun hv hmode => absurd ⟨hv, hmode⟩ hvalid) hoff.2

/-- One call, whatever it is. -/
theorem callSafe_iff (h : OpenOk s fcb) : CallSafe s fcb c ↔ CallInRange s fcb c := by
  cases c with
  | lseek fd offset whence =>
    have hiff := lseek_offset_nonneg_iff h fd offset whence
    constructor
    · exact fun hsafe => hiff.mp hsafe.offset
    · intro hrange
      refine ⟨hiff.mpr hrange, by simp [fcbCall], fun _ _ _ w hc hvalid hw hout => ?_⟩
      cases hc
      exact absurd (hrange hvalid w hw) hout
  | readfile fd str maxLen buffer =>
    refine iff_of_true ?_ trivial
    obtain ⟨hsame, hok, hcopies⟩ := syscallReadfile32_spec h fd.toInt str maxLen.toInt_lt buffer
    refine ⟨?_, hcopies, fun _ _ _ _ hc => by cases hc⟩
    rw [fcbCall, hsame]
    exact hok.offset.1
  | writefile fd str len buffer stack =>
    have hiff := (syscallWritefile32_spec h fd.toInt str len.toInt_lt buffer stack).1
    rw [writefile_inRange_iff h]
    constructor
    · exact fun hsafe => hiff.mp hsafe.offset
    · exact fun hrange => ⟨hiff.mpr hrange,
        (syscallWritefile32_inRange h fd.toInt str len.toInt_lt buffer stack hrange).2,
        fun _ _ _ _ hc => by cases hc⟩

/-- The file behind a call that was safe. -/
theorem OpenOk.fcbCall (h : OpenOk s fcb) (hsafe : CallSafe s fcb c) {ret : ℤ}
    (hret : (fcbCall s fcb c).outcome = some (ret, s')) : OpenOk s' (fcbCall s fcb c).fcb := by
  cases c with
  | lseek fd offset whence =>
    cases hret
    refine ⟨h.blockSize_pos, h.blockSize_lt, ?_, hsafe.offset, asInt_lt _⟩
    obtain ⟨v, hv⟩ := syscallLseek_fcb s fcb fd.toInt offset.toInt (whenceOf whence.toInt)
    rw [SeL4Sys.fcbCall, syscallLseek32, hv]
    exact h.size
  | readfile fd str maxLen buffer =>
    cases hret
    obtain ⟨hsame, hok, -⟩ := syscallReadfile32_spec h fd.toInt str maxLen.toInt_lt buffer
    rw [SeL4Sys.fcbCall, hsame]
    exact hok
  | writefile fd str len buffer stack =>
    exact (syscallWritefile32_spec h fd.toInt str len.toInt_lt buffer stack).2 ret s' hret hsafe.offset

/-- **When offsets stay offsets.** A sequence of seeks, reads and writes with any arguments keeps the offset
of the control block non-negative, all copies in the block buffer and refuses the seeks to other places
exactly if there are no such seeks, and no write goes on to the offset 2 ^ 31. -/
theorem offsets_safe_iff (h : OpenOk s fcb) (cs : List FcbCall) :
    Along CallSafe s fcb cs ↔ Along CallInRange s fcb cs := by
  induction cs generalizing s fcb with
  | nil => exact Iff.rfl
  | cons c cs ih =>
    rw [Along, Along]
    constructor
    · rintro ⟨hsafe, hrest⟩
      exact ⟨(callSafe_iff h).mp hsafe, fun ret s' hret =>
        (ih (h.fcbCall hsafe hret)).mp (hrest ret s' hret)⟩
    · rintro ⟨hrange, hrest⟩
      have hsafe := (callSafe_iff h).mpr hrange
      exact ⟨hsafe, fun ret s' hret => (ih (h.fcbCall hsafe hret)).mpr (hrest ret s' hret)⟩

end sequences

/-! ## Two files -/

/-- A seek in the root directory, a read there, and a write behind what was read. -/
theorem offsets_safe_iff_seek :
    let cs : List FcbCall := [.lseek 3 1 0, .readfile 3 (fun _ => 0) 5 fun _ => 0,
      .writefile 3 (fun _ => 0) 2 (fun _ => 0) fun _ _ _ => 0]
    Along CallSafe (dirFS 1) ⟨true, 4096, 0, 2⟩ cs := by
  have hok : OpenOk (dirFS 1) ⟨true, 4096, 0, 2⟩ :=
    ⟨by decide, by decide, by decide +kernel, le_rfl, by decide⟩
  refine (offsets_safe_iff hok _).mpr ⟨fun _ w hw => ?_, fun _ s₁ h₁ => ⟨trivial, fun _ s₂ h₂ =>
    ⟨fun _ _ => ?_, fun _ _ _ => trivial⟩⟩⟩
  · cases hw
    exact ⟨by decide, by decide⟩
  · cases (Prod.mk.inj (Option.some.inj h₁)).2
    cases (Prod.mk.inj (Option.some.inj h₂)).2
    decide +kernel

/-- An empty file, open for reading and writing, on a disk of zeros. -/
def emptyFcb : FCB := ⟨true, 4096, 0, 2⟩

/-- `lseek(fd, -1, SEEK_SET)`, and a read of one byte: it copies from the place in front of the buffer. -/
theorem seek_to_minus_one :
    (fcbCall (smallFS (fun _ => 0) 8191 24) emptyFcb (.lseek 3 (-1) 0)).fcb = { emptyFcb with offset := -1 }
      ∧ (fcbCall (smallFS (fun _ => 0) 8191 24) { emptyFcb with offset := -1 }
          (.readfile 3 (fun _ => 0) 1 fun _ => 0)).copies = [⟨0, -1, 1⟩] := by
  constructor
  · rfl
  · decide +kernel

end SeL4Sys

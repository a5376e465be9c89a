import SeL4Sys.BlockMap

/-!
# File system calls on open files

`syscall_readfile`, `syscall_writefile` and `syscall_lseek` of `fs.c`. They take the file
control block that the process table holds for the descriptor `fd`.

The loops are bounded here by the number of bytes asked for, as every pass moves at least one
byte. Quotients and remainders are those of C; the index into the block buffer is taken as a
natural number. The local block buffers are not initialised in the source and are parameters.
-/

namespace SeL4Sys

open Bytes

/-- `MAX_FILE_NUM` -/
@[simp] abbrev maxFileNum : ℤ := 32

/-- `struct FCB` -/
structure FCB where
  inuse : Bool
  inodeOffset : ℕ
  offset : ℤ
  flags : ℤ
deriving DecidableEq

/-- `mode_can_read`: the lowest bit is clear. -/
def modeCanRead (mode : ℤ) : Bool := mode % 2 == 0

/-- `mode_can_write`: the two lowest bits are not `O_RDONLY`. -/
def modeCanWrite (mode : ℤ) : Bool := mode % 4 != 0

/-- The check on the descriptor and its control block that the calls share. -/
def FCB.valid (fcb : FCB) (fd : ℤ) : Bool := 3 ≤ fd && fd < maxFileNum && fcb.inuse

/-! ## Reading -/

/-- The variables of the loop of `syscall_readfile`. -/
structure ReadState where
  offset : ℤ
  quotient : ℤ
  remainder : ℤ
  readLen : ℤ
  buffer : Buf
  str : Buf

/-- The number of bytes that one pass copies. -/
def maxReadSize (s : FS) (inode : Inode) (maxLen : ℤ) (r : ReadState) : ℤ :=
  min (s.superBlock.blockSize - r.remainder) (min (inode.size - r.offset) (maxLen - r.readLen))

/-- One pass of the loop. The return value of `readBlock` is not looked at. -/
def readRound (s : FS) (inode : Inode) (maxLen : ℤ) (r : ReadState) : ReadState :=
  let buffer := (readBlock s inode r.quotient.toNat r.buffer).getD r.buffer
  let n := maxReadSize s inode maxLen r
  { offset := r.offset + n
    quotient := r.quotient + 1
    remainder := 0
    readLen := r.readLen + n
    buffer := buffer
    str := patch r.str r.readLen.toNat n.toNat (window buffer r.remainder.toNat) }

/-- The loop of `syscall_readfile`. -/
def readLoop (s : FS) (inode : Inode) (maxLen : ℤ) : ℕ → ReadState → ReadState
  | 0, r => r
  | n + 1, r =>
    if r.readLen < maxLen ∧ r.offset < inode.size then
      readLoop s inode maxLen n (readRound s inode maxLen r)
    else r

/-- `syscall_readfile` once it has read the inode. -/
def readFrom (s : FS) (inode : Inode) (fcb : FCB) (str : Buf) (maxLen : ℤ) (buffer : Buf) : ℤ × FCB × Buf :=
  if inode.size ≤ fcb.offset then (0, fcb, str)
  else
    let r := readLoop s inode maxLen maxLen.toNat
      { offset := fcb.offset
        quotient := fcb.offset.tdiv s.superBlock.blockSize
        remainder := fcb.offset.tmod s.superBlock.blockSize
        readLen := 0
        buffer := buffer
        str := str }
    (r.readLen, { fcb with offset := r.offset }, r.str)

/-- `syscall_readfile`: the return value, the control block and the caller's string. -/
def syscallReadfile (s : FS) (fcb : FCB) (fd : ℤ) (str : Buf) (maxLen : ℤ) (buffer : Buf) :
    ℤ × FCB × Buf :=
  if !fcb.valid fd || !modeCanRead fcb.flags then (-1, fcb, str)
  else readFrom s (loadInode s.disk fcb.inodeOffset) fcb str maxLen buffer

/-! ## Writing -/

/-- The variables of the loop of `syscall_writefile`. -/
structure WriteState where
  fs : FS
  inode : Inode
  offset : ℤ
  quotient : ℤ
  remainder : ℤ
  writeLen : ℤ
  buffer : Buf

/-- The number of bytes that one pass copies. -/
def maxWriteSize (len : ℤ) (w : WriteState) : ℤ :=
  min (w.fs.superBlock.blockSize - w.remainder) (len - w.writeLen)

/-- The block of one pass is written: it is read, the bytes are copied into the buffer and the
buffer is written back. -/
def writeChunk (str : Buf) (len : ℤ) (w : WriteState) : WriteState :=
  let buffer := (readBlock w.fs w.inode w.quotient.toNat w.buffer).getD w.buffer
  let n := maxWriteSize len w
  let buffer := patch buffer w.remainder.toNat n.toNat (window str w.writeLen.toNat)
  let offset := w.offset + n
  { fs := (writeBlock w.fs w.inode w.quotient.toNat buffer).getD w.fs
    inode := { w.inode with size := max w.inode.size offset }
    offset := offset
    quotient := w.quotient + 1
    remainder := 0
    writeLen := w.writeLen + n
    buffer := buffer }

/-- One pass of the loop. A block is added when the quotient is past the last one, one block
only; `none` is the failed assertion on `allocBlock`. -/
def writeRound (inodeOffset : ℕ) (str : Buf) (len : ℤ) (stack : ℕ → Buf) (w : WriteState) :
    Option WriteState :=
  if w.inode.blockCount ≤ w.quotient then
    (allocBlock w.fs w.inode inodeOffset stack).map fun q =>
      writeChunk str len { w with fs := q.1, inode := q.2 }
  else some (writeChunk str len w)

/-- The loop of `syscall_writefile`. -/
def writeLoop (inodeOffset : ℕ) (str : Buf) (len : ℤ) (stack : ℕ → ℕ → Buf) :
    ℕ → WriteState → Option WriteState
  | 0, w => some w
  | n + 1, w =>
    if w.writeLen < len then
      (writeRound inodeOffset str len (stack n) w).bind (writeLoop inodeOffset str len stack n)
    else some w

/-- `syscall_writefile`: the return value, the file system and the control block. The
`readBlock` after the loop only fills the local buffer. -/
def syscallWritefile (s : FS) (fcb : FCB) (fd : ℤ) (str : Buf) (len : ℤ) (buffer : Buf)
    (stack : ℕ → ℕ → Buf) : Option (ℤ × FS × FCB) :=
  if !fcb.valid fd || !modeCanWrite fcb.flags then some (-1, s, fcb)
  else
    (writeLoop fcb.inodeOffset str len stack len.toNat
      { fs := s
        inode := loadInode s.disk fcb.inodeOffset
        offset := fcb.offset
        quotient := fcb.offset.tdiv s.superBlock.blockSize
        remainder := fcb.offset.tmod s.superBlock.blockSize
        writeLen := 0
        buffer := buffer }).map fun w =>
      (len, { w.fs with disk := storeInode w.fs.disk w.inode fcb.inodeOffset },
        { fcb with offset := w.offset })

/-! ## Seeking -/

/-- The values of `whence` that `syscall_lseek` knows. -/
inductive Whence
  | seekSet
  | seekCur
  | seekEnd
deriving DecidableEq

/-- `syscall_lseek`: the return value and the control block. `none` is any other `whence`. -/
def syscallLseek (s : FS) (fcb : FCB) (fd : ℤ) (offset : ℤ) (whence : Option Whence) : ℤ × FCB :=
  if !fcb.valid fd then (-1, fcb)
  else
    match whence with
    | some .seekSet => (offset, { fcb with offset := offset })
    | some .seekCur => (fcb.offset + offset, { fcb with offset := fcb.offset + offset })
    | some .seekEnd =>
      let inode := loadInode s.disk fcb.inodeOffset
      (inode.size + offset, { fcb with offset := inode.size + offset })
    | none => (-1, fcb)

/-- A seek changes the offset only. -/
theorem syscallLseek_fcb (fs : FS) (fcb : FCB) (fd offset : ℤ) (whence : Option Whence) :
    ∃ v, (syscallLseek fs fcb fd offset whence).2 = { fcb with offset := v } := by
  unfold syscallLseek
  split_ifs
  · exact ⟨fcb.offset, rfl⟩
  · rcases whence with _ | _ | _ | _
    · exact ⟨fcb.offset, rfl⟩
    · exact ⟨_, rfl⟩
    · exact ⟨_, rfl⟩
    · exact ⟨_, rfl⟩

end SeL4Sys

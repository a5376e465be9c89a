import SeL4Sys.DirOps
import SeL4Sys.FileOps
import SeL4Sys.Lib.Interleave

/-!
# Requests in steps

The workers and the fault thread share `sBlock`, `gDesc` and the disk. This module has the
functions of `ext.c`, `fs.c` and `pagefile.c` that create and write files once more, as sequences
of the accesses they make to what is shared: every call of `read_disk` and `write_disk`, every
update of a counter of `sBlock` or `gDesc`, and every look at one of their fields. Another request
may come in between any two of them.

The functions are those of `BlockMap`, `FileOps` and `DirOps`, without the state: `StepsRun` shows
that each of them, run alone, is the function of the same name there.
-/

namespace SeL4Sys

open Bytes Bitmap Loop CString Interleave

/-! ## The accesses -/

/-- One access to `sBlock`, `gDesc` or the disk. The counters of free blocks and inodes are the
only fields of `sBlock` and `gDesc` that change after the disk has been mounted. -/
inductive FsOp
  | readDisk (destBuffer : Buf) (size num offset : ℕ)
  | writeDisk (srcBuffer : Buf) (size num offset : ℕ)
  /-- The fields of `sBlock` that do not change. -/
  | sBlock
  /-- The fields of `gDesc[i]` that do not change. -/
  | gDesc (i : ℕ)
  | avail (p : Pool)
  | groupAvail (p : Pool) (i : ℕ)
  /-- `superBlock->availBlockNum --`, or the same for inodes. -/
  | takeAvail (p : Pool)
  | takeGroupAvail (p : Pool) (i : ℕ)
  /-- `write_disk` of `sBlock` to its place. -/
  | writeSuper
  /-- `write_disk` of `gDesc` to its place. -/
  | writeDescs (groupNum : ℕ)

/-- What an access returns. -/
abbrev FsOp.Result : FsOp → Type
  | readDisk _ _ _ _ => Buf
  | sBlock => SuperBlock
  | gDesc _ => GroupDesc
  | avail _ => ℤ
  | groupAvail _ _ => ℤ
  | _ => Unit

/-- The super block without its counters. -/
def SuperBlock.fixed (b : SuperBlock) : SuperBlock := { b with availInodeNum := 0, availBlockNum := 0 }

/-- The descriptor without its counters. -/
def GroupDesc.fixed (g : GroupDesc) : GroupDesc := { g with availInodeNum := 0, availBlockNum := 0 }

/-- One access. -/
def FsOp.exec : (e : FsOp) → FS → FS × e.Result
  | readDisk destBuffer size num offset, s => (s, SeL4Sys.readDisk s.disk destBuffer size num offset)
  | writeDisk srcBuffer size num offset, s =>
    ({ s with disk := SeL4Sys.writeDisk s.disk srcBuffer size num offset }, ())
  | sBlock, s => (s, s.superBlock.fixed)
  | gDesc i, s => (s, (s.groupDesc i).fixed)
  | avail p, s => (s, s.superBlock.avail p)
  | groupAvail p i, s => (s, (s.groupDesc i).avail p)
  | takeAvail p, s =>
    ({ s with superBlock := s.superBlock.setAvail p (s.superBlock.avail p + -1) }, ())
  | takeGroupAvail p i, s =>
    ({ s with
        groupDesc := Function.update s.groupDesc i
          ((s.groupDesc i).setAvail p ((s.groupDesc i).avail p + -1)) }, ())
  | writeSuper, s =>
    ({ s with disk := SeL4Sys.writeDisk s.disk s.superBlock.encode superBlockSize 1 0 }, ())
  | writeDescs groupNum, s =>
    ({ s with
        disk := SeL4Sys.writeDisk s.disk (encodeDescs s.groupDesc) groupDescSize groupNum
          superBlockSize }, ())

/-- A function that makes accesses and returns an `α`. -/
abbrev Steps (α : Type) : Type := Prog FsOp FsOp.Result α

namespace Steps

def readDisk (destBuffer : Buf) (size num offset : ℕ) : Steps Buf :=
  Prog.perform (FsOp.readDisk destBuffer size num offset)

def writeDisk (srcBuffer : Buf) (size num offset : ℕ) : Steps Unit :=
  Prog.perform (FsOp.writeDisk srcBuffer size num offset)

def sBlock : Steps SuperBlock := Prog.perform FsOp.sBlock

def gDesc (i : ℕ) : Steps GroupDesc := Prog.perform (FsOp.gDesc i)

def avail (p : Pool) : Steps ℤ := Prog.perform (FsOp.avail p)

def groupAvail (p : Pool) (i : ℕ) : Steps ℤ := Prog.perform (FsOp.groupAvail p i)

def takeAvail (p : Pool) : Steps Unit := Prog.perform (FsOp.takeAvail p)

def takeGroupAvail (p : Pool) (i : ℕ) : Steps Unit := Prog.perform (FsOp.takeGroupAvail p i)

def writeSuper : Steps Unit := Prog.perform FsOp.writeSuper

def writeDescs (groupNum : ℕ) : Steps Unit := Prog.perform (FsOp.writeDescs groupNum)

/-- `read_disk(&inode, sizeof(Inode), 1, offset)` -/
def loadInode (offset : ℕ) : Steps Inode := do
  let bytes ← readDisk (fun _ => 0) inodeSize 1 offset
  return Inode.decode bytes

/-- `write_disk(&inode, sizeof(Inode), 1, offset)` -/
def storeInode (inode : Inode) (offset : ℕ) : Steps Unit := writeDisk inode.encode inodeSize 1 offset

/-! ## The allocators -/

/-- The loop over the groups, from group `i` on, with `n` of them left. -/
def findGroup (p : Pool) : ℕ → ℕ → Steps ℕ
  | 0, i => return i
  | n + 1, i => do
    let avail ← groupAvail p i
    if 1 ≤ avail then return i else findGroup p n (i + 1)

/-- The loop over the bytes of the bitmap, from byte `j` on. It looks at the counter of the group in every
round. `n` is the number of rounds: behind the bitmap the buffer holds 0, where the loop ends. -/
def findByte (p : Pool) (i : ℕ) (bitmap : Buf) : ℕ → ℕ → Steps ℕ
  | 0, j => return j
  | n + 1, j => do
    let avail ← groupAvail p i
    if (j : ℤ) < (avail + 7).tdiv 8 ∧ bitmap j = 0xff then findByte p i bitmap n (j + 1) else return j

/-- `getAvailBlock` and `getAvailInode` up to the address: the group and the number in it of the
entry that is handed out. -/
def getAvail (p : Pool) : Steps (Option (ℕ × ℕ)) := do
  let b ← sBlock
  let groupNum := calGroupNum b.sectorNum (b.blockSize / sectorSize)
  let superAvail ← avail p
  if superAvail = 0 then return none
  else do
    takeAvail p
    let i ← findGroup p groupNum 0
    let g ← gDesc i
    let bitmapOffset := if i < groupNum then g.bitmap p else 0
    let bitmap ← readDisk (fun _ => 0) blockBytes 1 (bitmapOffset * sectorSize)
    let j ← findByte p i bitmap (blockBytes + 1) 0
    let k := breakIndex 8 fun k => decide (((bitmap j).toNat >>> (7 - k)) % 2 = 0)
    takeGroupAvail p i
    writeSuper
    writeDescs groupNum
    writeDisk (orBit bitmap j k) blockBytes 1 (bitmapOffset * sectorSize)
    return some (i, j * 8 + k)

/-- `getAvailBlock` -/
def getAvailBlock (blockOffset : ℕ) : Steps (Option ℕ) := do
  let b ← sBlock
  match ← getAvail .block with
  | none => return none
  | some (i, n) =>
    let g ← gDesc i
    let groupNum := calGroupNum b.sectorNum (b.blockSize / sectorSize)
    let blockOffset := if i < groupNum then g.inodeTable else blockOffset
    return some (blockOffset + (inodeSize * 8 * b.blockSize / sectorSize
      + n * b.blockSize / sectorSize))

/-- `getAvailInode` -/
def getAvailInode : Steps (Option ℕ) := do
  let b ← sBlock
  match ← getAvail .inode with
  | none => return none
  | some (i, n) =>
    let g ← gDesc i
    let groupNum := calGroupNum b.sectorNum (b.blockSize / sectorSize)
    let inodeTableOffset := if i < groupNum then g.inodeTable else 0
    return some (inodeTableOffset * sectorSize + n * inodeSize)

/-! ## The blocks of a file -/

def readPointers (sector : ℕ) : Steps Buf := do
  let b ← sBlock
  readDisk (fun _ => 0) 1 b.blockSize (sector * sectorSize)

def writeSectors (sector : ℕ) (buffer : Buf) : Steps Unit := do
  let b ← sBlock
  writeDisk buffer 1 b.blockSize (sector * sectorSize)

/-- The descent that `readBlock` and `writeBlock` share. -/
def blockSector (inode : Inode) (blockIndex : ℕ) : Steps (Option ℕ) := do
  let b ← sBlock
  if blockIndex < b.bound0 then
    return some (inode.pointer blockIndex)
  else if blockIndex < b.bound1 then do
    let singlyPointerBuffer ← readPointers inode.singlyPointer
    return some (pointerAt singlyPointerBuffer (blockIndex - b.bound0))
  else if blockIndex < b.bound2 then do
    let doublyPointerBuffer ← readPointers inode.doublyPointer
    let quotient := (blockIndex - b.bound1) / b.divider0
    let remainder := (blockIndex - b.bound1) % b.divider0
    let singlyPointerBuffer ← readPointers (pointerAt doublyPointerBuffer quotient)
    return some (pointerAt singlyPointerBuffer remainder)
  else if blockIndex < b.bound3 then do
    let triplyPointerBuffer ← readPointers inode.triplyPointer
    let quotient := (blockIndex - b.bound2) / b.divider1
    let remainder := (blockIndex - b.bound2) % b.divider1
    let doublyPointerBuffer ← readPointers (pointerAt triplyPointerBuffer quotient)
    let singlyPointerBuffer ← readPointers (pointerAt doublyPointerBuffer (remainder / b.divider0))
    return some (pointerAt singlyPointerBuffer (remainder % b.divider0))
  else return none

/-- `readBlock` -/
def readBlock (inode : Inode) (blockIndex : ℕ) (buffer : Buf) : Steps (Option Buf) := do
  match ← blockSector inode blockIndex with
  | none => return none
  | some sector =>
    let b ← sBlock
    let buffer ← readDisk buffer 1 b.blockSize (sector * sectorSize)
    return some buffer

/-- `writeBlock`; it returns whether it succeeded. -/
def writeBlock (inode : Inode) (blockIndex : ℕ) (buffer : Buf) : Steps Bool := do
  match ← blockSector inode blockIndex with
  | none => return false
  | some sector =>
    writeSectors sector buffer
    return true

/-- `getAvailBlock` into a variable that holds 0, with the return value ignored. -/
def takeBlock : Steps ℕ := do
  let blockOffset ← getAvailBlock 0
  return blockOffset.getD 0

/-- The end of `allocLastBlock`. -/
def finishAlloc (inode : Inode) (inodeOffset : ℕ) : Steps Inode := do
  let inode := { inode with blockCount := inode.blockCount + 1 }
  storeInode inode inodeOffset
  return inode

/-- `allocLastBlock` -/
def allocLastBlock (inode : Inode) (inodeOffset blockOffset : ℕ) (stack : ℕ → Buf) :
    Steps (Option Inode) := do
  let b ← sBlock
  let blockCount := inode.blockCount.toNat
  if blockCount < b.bound0 then do
    let inode := { inode with pointer := Function.update inode.pointer blockCount blockOffset }
    some <$> finishAlloc inode inodeOffset
  else if blockCount = b.bound0 then do
    let singly ← takeBlock
    let inode := { inode with singlyPointer := singly }
    writeSectors singly (setPointer (stack 1) 0 blockOffset)
    some <$> finishAlloc inode inodeOffset
  else if blockCount < b.bound1 then do
    let singlyPointerBuffer ← readPointers inode.singlyPointer
    writeSectors inode.singlyPointer
      (setPointer singlyPointerBuffer (blockCount - b.bound0) blockOffset)
    some <$> finishAlloc inode inodeOffset
  else if blockCount = b.bound1 then do
    let singly ← takeBlock
    let doubly ← takeBlock
    let inode := { inode with doublyPointer := doubly }
    writeSectors singly (setPointer (stack 1) 0 blockOffset)
    writeSectors doubly (setPointer (stack 2) 0 singly)
    some <$> finishAlloc inode inodeOffset
  else if blockCount < b.bound2 ∧ (blockCount - b.bound1) % b.divider0 = 0 then do
    let singly ← takeBlock
    let doublyPointerBuffer ← readPointers inode.doublyPointer
    writeSectors singly (setPointer (stack 1) 0 blockOffset)
    writeSectors inode.doublyPointer
      (setPointer doublyPointerBuffer ((blockCount - b.bound1) / b.divider0) singly)
    some <$> finishAlloc inode inodeOffset
  else if blockCount < b.bound2 then do
    let doublyPointerBuffer ← readPointers inode.doublyPointer
    let singly := pointerAt doublyPointerBuffer ((blockCount - b.bound1) / b.divider0)
    let singlyPointerBuffer ← readPointers singly
    writeSectors singly
      (setPointer singlyPointerBuffer ((blockCount - b.bound1) % b.divider0) blockOffset)
    some <$> finishAlloc inode inodeOffset
  else if blockCount = b.bound2 then do
    let singly ← takeBlock
    let doubly ← takeBlock
    let triply ← takeBlock
    let inode := { inode with triplyPointer := triply }
    writeSectors singly (setPointer (stack 1) 0 blockOffset)
    writeSectors doubly (setPointer (stack 2) 0 singly)
    writeSectors triply (setPointer (stack 3) 0 doubly)
    some <$> finishAlloc inode inodeOffset
  else if blockCount < b.bound3 ∧ (blockCount - b.bound2) % b.divider1 = 0 then do
    let singly ← takeBlock
    let doubly ← takeBlock
    let triplyPointerBuffer ← readPointers inode.triplyPointer
    writeSectors singly (setPointer (stack 1) 0 blockOffset)
    writeSectors doubly (setPointer (stack 2) 0 singly)
    writeSectors inode.triplyPointer
      (setPointer triplyPointerBuffer ((blockCount - b.bound2) / b.divider1) doubly)
    some <$> finishAlloc inode inodeOffset
  else if blockCount < b.bound3 ∧ (blockCount - b.bound2) % b.divider0 = 0 then do
    let singly ← takeBlock
    let triplyPointerBuffer ← readPointers inode.triplyPointer
    let doubly := pointerAt triplyPointerBuffer ((blockCount - b.bound2) / b.divider1)
    let doublyPointerBuffer ← readPointers doubly
    writeSectors singly (setPointer (stack 1) 0 blockOffset)
    writeSectors doubly (setPointer doublyPointerBuffer
      ((blockCount - b.bound2) % b.divider1 / b.divider0) singly)
    some <$> finishAlloc inode inodeOffset
  else if blockCount < b.bound3 then do
    let triplyPointerBuffer ← readPointers inode.triplyPointer
    let doubly := pointerAt triplyPointerBuffer ((blockCount - b.bound2) / b.divider1)
    let doublyPointerBuffer ← readPointers doubly
    let singly :=
      pointerAt doublyPointerBuffer ((blockCount - b.bound2) % b.divider1 / b.divider0)
    let singlyPointerBuffer ← readPointers singly
    writeSectors singly (setPointer singlyPointerBuffer
      ((blockCount - b.bound2) % b.divider1 % b.divider0) blockOffset)
    some <$> finishAlloc inode inodeOffset
  else return none

/-- `allocBlock` -/
def allocBlock (inode : Inode) (inodeOffset : ℕ) (stack : ℕ → Buf) : Steps (Option Inode) := do
  let b ← sBlock
  let availBlockNum ← avail .block
  if availBlockNum < calNeededPointerBlocks b inode.blockCount + 1 then return none
  else do
    let blockOffset ← takeBlock
    let last ← allocLastBlock inode inodeOffset blockOffset stack
    return some (last.getD inode)

/-! ## Writing a file -/

/-- The variables of the loop of `syscall_writefile`. -/
structure WriteVars where
  inode : Inode
  offset : ℤ
  quotient : ℤ
  remainder : ℤ
  writeLen : ℤ
  buffer : Buf

/-- The block of one pass is written. The return values are not looked at. -/
def writeChunk (str : Buf) (len : ℤ) (v : WriteVars) : Steps WriteVars := do
  let b ← sBlock
  let read ← readBlock v.inode v.quotient.toNat v.buffer
  let n := min (b.blockSize - v.remainder) (len - v.writeLen)
  let buffer := patch (read.getD v.buffer) v.remainder.toNat n.toNat (window str v.writeLen.toNat)
  let _ ← writeBlock v.inode v.quotient.toNat buffer
  let offset := v.offset + n
  return {
    inode := { v.inode with size := max v.inode.size offset }
    offset := offset
    quotient := v.quotient + 1
    remainder := 0
    writeLen := v.writeLen + n
    buffer := buffer }

/-- One pass of the loop; `none` is the failed assertion on `allocBlock`. -/
def writeRound (inodeOffset : ℕ) (str : Buf) (len : ℤ) (stack : ℕ → Buf) (v : WriteVars) :
    Steps (Option WriteVars) := do
  if v.inode.blockCount ≤ v.quotient then do
    match ← allocBlock v.inode inodeOffset stack with
    | none => return none
    | some inode => some <$> writeChunk str len { v with inode := inode }
  else some <$> writeChunk str len v

/-- The loop of `syscall_writefile`. -/
def writeLoop (inodeOffset : ℕ) (str : Buf) (len : ℤ) (stack : ℕ → ℕ → Buf) :
    ℕ → WriteVars → Steps (Option WriteVars)
  | 0, v => return some v
  | n + 1, v =>
    if v.writeLen < len then do
      match ← writeRound inodeOffset str len (stack n) v with
      | none => return none
      | some v => writeLoop inodeOffset str len stack n v
    else return some v

/-- `syscall_writefile` from where it has read the inode: the return value and the control block.
`none` is the failed assertion. -/
def writeFrom (fcb : FCB) (str : Buf) (len : ℤ) (buffer : Buf) (stack : ℕ → ℕ → Buf)
    (inode : Inode) : Steps (Option (ℤ × FCB)) := do
  let b ← sBlock
  let last ← writeLoop fcb.inodeOffset str len stack len.toNat
    { inode := inode
      offset := fcb.offset
      quotient := fcb.offset.tdiv b.blockSize
      remainder := fcb.offset.tmod b.blockSize
      writeLen := 0
      buffer := buffer }
  match last with
  | none => return none
  | some v =>
    let _ ← readBlock v.inode 0 v.buffer
    storeInode v.inode fcb.inodeOffset
    return some (len, { fcb with offset := v.offset })

/-- `syscall_writefile` -/
def syscallWritefile (fcb : FCB) (fd : ℤ) (str : Buf) (len : ℤ) (buffer : Buf)
    (stack : ℕ → ℕ → Buf) : Steps (Option (ℤ × FCB)) := do
  if !fcb.valid fd || !modeCanWrite fcb.flags then return some (-1, fcb)
  else do
    let inode ← loadInode fcb.inodeOffset
    writeFrom fcb str len buffer stack inode

/-! ## Looking up and creating -/

/-- The loops over the entries of a directory, as in `SeL4Sys.scanEntries`. -/
def scanEntries (inode : Inode) (test : Buf → Bool) : ℕ → ℕ → Buf → Steps Scan
  | 0, _, buffer => return .missing buffer
  | n + 1, i, buffer => do
    let b ← sBlock
    let entries := b.blockSize / dirEntrySize
    match ← readBlock inode i buffer with
    | none => return .failed
    | some buffer =>
      let j := breakIndex entries fun j => test (dirEntry buffer j)
      if j < entries then return .found i j buffer else scanEntries inode test n (i + 1) buffer

def scanDir (inode : Inode) (test : Buf → Bool) (buffer : Buf) : Steps Scan :=
  scanEntries inode test inode.blockCount.toNat 0 buffer

/-- The loop of `readInode`. -/
def lookupLoop : ℕ → List UInt8 → ℕ → Inode → Buf → Steps Lookup
  | _, [], inodeOffset, destInode, _ => return ⟨0, inodeOffset, destInode⟩
  | 0, _ :: _, inodeOffset, destInode, _ => return ⟨-1, inodeOffset, destInode⟩
  | fuel + 1, b :: bs, inodeOffset, destInode, buffer =>
    let chr := stringChr (b :: bs) slash
    if chr.1 = 0 ∧ chr.2 = 0 then return ⟨-1, inodeOffset, destInode⟩
    else if chr.1 = 0 ∧ destInode.type = regularType then return ⟨-1, inodeOffset, destInode⟩
    else do
      match ← scanDir destInode (matchesName (b :: bs) chr.2) buffer with
      | .failed => return ⟨-1, inodeOffset, destInode⟩
      | .missing _ => return ⟨-1, inodeOffset, destInode⟩
      | .found _ j buffer =>
        let inodeOffset := entryInode (dirEntry buffer j)
        let destInode ← loadInode inodeOffset
        if chr.1 = 0 then lookupLoop fuel ((b :: bs).drop (chr.2 + 1)) inodeOffset destInode buffer
        else return ⟨0, inodeOffset, destInode⟩

/-- `readInode` -/
def readInode (destInode : Inode) (destFilePath : List UInt8) (buffer : Buf) : Steps Lookup :=
  let chr := stringChr destFilePath slash
  if destFilePath = [] then return ⟨-1, 0, destInode⟩
  else if chr.1 = -1 ∨ chr.2 ≠ 0 then return ⟨-1, 0, destInode⟩
  else do
    let g ← gDesc 0
    let inodeOffset := g.inodeTable * sectorSize
    let destInode ← loadInode inodeOffset
    lookupLoop destFilePath.length (destFilePath.drop (chr.2 + 1)) inodeOffset destInode buffer

/-- What `allocInode` leaves: the return value and the variables behind its pointer arguments. -/
structure DirVars where
  ret : ℤ
  fatherInode : Inode
  destInode : Inode
  destInodeOffset : ℕ

/-- The end of `allocInode`. -/
def addEntry (fatherInode : Inode) (fatherInodeOffset : ℕ) (destInode : Inode)
    (destInodeOffset : ℕ) (destFilename : List UInt8) (destFiletype : ℤ) (i j : ℕ)
    (buffer : Buf) : Steps DirVars := do
  match ← getAvailInode with
  | none => return ⟨-1, fatherInode, destInode, destInodeOffset⟩
  | some destInodeOffset =>
    let buffer := setEntryInode (setEntryName buffer j destFilename) j destInodeOffset
    let written ← writeBlock fatherInode i buffer
    if written = false then return ⟨-1, fatherInode, destInode, destInodeOffset⟩
    else do
      storeInode fatherInode fatherInodeOffset
      let destInode :=
        { destInode with type := destFiletype, linkCount := 1, blockCount := 0, size := 0 }
      storeInode destInode destInodeOffset
      return ⟨0, fatherInode, destInode, destInodeOffset⟩

/-- `allocInode` -/
def allocInode (fatherInode : Inode) (fatherInodeOffset : ℕ) (destInode : Inode)
    (destInodeOffset : ℕ) (destFilename : List UInt8) (destFiletype : ℤ) (buffer : Buf)
    (stack : ℕ → Buf) : Steps DirVars := do
  if destFilename = [] then return ⟨-1, fatherInode, destInode, destInodeOffset⟩
  else do
    let availInodeNum ← avail .inode
    if availInodeNum = 0 then return ⟨-1, fatherInode, destInode, destInodeOffset⟩
    else do
      match ← scanDir fatherInode (stopsAlloc destFilename) buffer with
      | .failed => return ⟨-1, fatherInode, destInode, destInodeOffset⟩
      | .found i j buffer =>
        if entryInode (dirEntry buffer j) ≠ 0 then
          return ⟨-1, fatherInode, destInode, destInodeOffset⟩
        else
          addEntry fatherInode fatherInodeOffset destInode destInodeOffset destFilename
            destFiletype i j buffer
      | .missing buffer =>
        let i := fatherInode.blockCount.toNat
        match ← allocBlock fatherInode fatherInodeOffset stack with
        | none => return ⟨-1, fatherInode, destInode, destInodeOffset⟩
        | some fatherInode =>
          let b ← sBlock
          let fatherInode := { fatherInode with size := fatherInode.blockCount * b.blockSize }
          addEntry fatherInode fatherInodeOffset destInode destInodeOffset destFilename
            destFiletype i 0 (memset buffer b.blockSize 0)

/-- `syscall_open`: the return value. `none` is a failed assertion, or an access outside an
array. -/
def syscallOpen (path : List UInt8) (mode : ℤ) (l : Locals) : Steps (Option ℤ) := do
  let dest ← readInode l.destInode path l.lookupBuffer
  if dest.ret = 0 then return some dest.inodeOffset
  else if createMode mode = false then return some (-1)
  else
    match isDirPath path with
    | none => return none
    | some dirPath =>
      if dirPath = true ∧ isDirMode mode = false then return some (-1)
      else
        match getFatherPath path with
        | none => return none
        | some fatherPath => do
          let father ← readInode l.fatherInode fatherPath l.fatherBuffer
          if father.ret ≠ 0 then return some (-1)
          else do
            let type := if isDirMode mode = true then directoryType else regularType
            let r ← allocInode father.destInode father.inodeOffset dest.destInode
              dest.inodeOffset (lastName path) type l.dirBuffer l.stack
            return if r.ret = 0 then some r.destInodeOffset else none

/-- `write_page_to_file`, which returns nothing. When the file cannot be opened, `syscall_writefile`
takes the `-1` for the offset of an inode, and `read_disk` reads in front of its buffer: `none`, as
for a failed assertion. -/
def writePageToFile (filename : List UInt8) (vaddr : Buf) (l : Locals) (buffer : Buf)
    (stack : ℕ → ℕ → Buf) : Steps (Option Unit) := do
  match ← syscallOpen filename 2 l with
  | none => return none
  | some inodeOffset =>
    if inodeOffset < 0 then return none
    else do
      let vfcb : FCB := { inuse := true, inodeOffset := inodeOffset.toNat, offset := 0, flags := 2 }
      let r ← syscallWritefile vfcb 3 vaddr 4096 buffer stack
      return r.map fun _ => ()

end Steps

end SeL4Sys

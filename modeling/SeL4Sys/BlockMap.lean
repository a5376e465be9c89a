import SeL4Sys.Alloc

/-!
# The blocks of a file

The functions of `ext.c` that find, read, write, add and remove the blocks of an inode. An
inode names twelve blocks directly; further ones hang below its singly, doubly and triply
indirect pointer. A pointer block is an array of little-endian words.

`readBlock` and `writeBlock` descend through the pointer blocks in the same way;
`blockSector` is that descent. The pointer buffers of `allocLastBlock` are not initialised,
so what they hold is an argument of the function: `stack 1`, `stack 2` and `stack 3` are
`singlyPointerBuffer`, `doublyPointerBuffer` and `triplyPointerBuffer`. Block counts are not
negative; the functions use them as array indices.
-/

namespace SeL4Sys

open Bytes

namespace SuperBlock

/-- Pointers per block. -/
def divider0 (b : SuperBlock) : ℕ := b.blockSize / 4

def divider1 (b : SuperBlock) : ℕ := b.divider0 * b.divider0

def divider2 (b : SuperBlock) : ℕ := b.divider1 * b.divider0

/-- The first block below the singly indirect pointer. -/
def bound0 (_ : SuperBlock) : ℕ := pointerNum

/-- The first block below the doubly indirect pointer. -/
def bound1 (b : SuperBlock) : ℕ := b.bound0 + b.divider0

/-- The first block below the triply indirect pointer. -/
def bound2 (b : SuperBlock) : ℕ := b.bound1 + b.divider1

/-- The largest number of blocks a file can have. -/
def bound3 (b : SuperBlock) : ℕ := b.bound2 + b.divider2

end SuperBlock

/-! ## Pointer blocks -/

/-- Entry `i` of a pointer buffer. -/
def pointerAt (buffer : Buf) (i : ℕ) : ℕ := leNat buffer (4 * i) 4

/-- `buffer[i] = v` -/
def setPointer (buffer : Buf) (i v : ℕ) : Buf := patch buffer (4 * i) 4 (leByte v)

/-- A pointer block as it is read into a buffer. -/
def FS.readPointers (s : FS) (b : ℕ) : Buf :=
  readDisk s.disk (fun _ => 0) 1 s.superBlock.blockSize (b * sectorSize)

/-- The write of a block. -/
def FS.writeSectors (s : FS) (b : ℕ) (buffer : Buf) : FS :=
  { s with disk := writeDisk s.disk buffer 1 s.superBlock.blockSize (b * sectorSize) }

/-! ## Reading and writing -/

/-- The descent that `readBlock` and `writeBlock` share: the sector of a block. -/
def blockSector (s : FS) (inode : Inode) (blockIndex : ℕ) : Option ℕ :=
  let b := s.superBlock
  if blockIndex < b.bound0 then
    some (inode.pointer blockIndex)
  else if blockIndex < b.bound1 then
    let singlyPointerBuffer := s.readPointers inode.singlyPointer
    some (pointerAt singlyPointerBuffer (blockIndex - b.bound0))
  else if blockIndex < b.bound2 then
    let doublyPointerBuffer := s.readPointers inode.doublyPointer
    let quotient := (blockIndex - b.bound1) / b.divider0
    let remainder := (blockIndex - b.bound1) % b.divider0
    let singlyPointerBuffer := s.readPointers (pointerAt doublyPointerBuffer quotient)
    some (pointerAt singlyPointerBuffer remainder)
  else if blockIndex < b.bound3 then
    let triplyPointerBuffer := s.readPointers inode.triplyPointer
    let quotient := (blockIndex - b.bound2) / b.divider1
    let remainder := (blockIndex - b.bound2) % b.divider1
    let doublyPointerBuffer := s.readPointers (pointerAt triplyPointerBuffer quotient)
    let singlyPointerBuffer := s.readPointers (pointerAt doublyPointerBuffer (remainder / b.divider0))
    some (pointerAt singlyPointerBuffer (remainder % b.divider0))
  else none

/-- `readBlock`: the buffer after a successful call. -/
def readBlock (s : FS) (inode : Inode) (blockIndex : ℕ) (buffer : Buf) : Option Buf :=
  (blockSector s inode blockIndex).map fun b =>
    readDisk s.disk buffer 1 s.superBlock.blockSize (b * sectorSize)

/-- `writeBlock` -/
def writeBlock (s : FS) (inode : Inode) (blockIndex : ℕ) (buffer : Buf) : Option FS :=
  (blockSector s inode blockIndex).map fun b => s.writeSectors b buffer

/-! ## Adding a block -/

/-- `calNeededPointerBlocks` -/
def calNeededPointerBlocks (b : SuperBlock) (blockCount : ℤ) : ℤ :=
  if blockCount = b.bound0 then 1
  else if blockCount = b.bound1 then 2
  else if blockCount < b.bound2 ∧ (blockCount - b.bound1).tmod b.divider0 = 0 then 1
  else if blockCount = b.bound2 then 3
  else if blockCount < b.bound3 ∧ (blockCount - b.bound2).tmod b.divider1 = 0 then 2
  else if blockCount < b.bound3 ∧ (blockCount - b.bound2).tmod b.divider0 = 0 then 1
  else if (b.bound3 : ℤ) ≤ blockCount then -1
  else 0

/-- `getAvailBlock` into a variable that holds 0, with the return value ignored. -/
def FS.takeBlock (s : FS) : FS × ℕ := (getAvailBlock s 0).getD (s, 0)

/-- The end of `allocLastBlock`: `inode->blockCount ++`, and the inode is written back. -/
def finishAlloc (s : FS) (inode : Inode) (inodeOffset : ℕ) : FS × Inode :=
  let inode := { inode with blockCount := inode.blockCount + 1 }
  ({ s with disk := storeInode s.disk inode inodeOffset }, inode)

/-- `allocLastBlock`; `none` is the return value `-1`. -/
def allocLastBlock (s : FS) (inode : Inode) (inodeOffset blockOffset : ℕ) (stack : ℕ → Buf) :
    Option (FS × Inode) :=
  let b := s.superBlock
  let blockCount := inode.blockCount.toNat
  if blockCount < b.bound0 then
    -- the inode has a pointer for it
    let inode := { inode with pointer := Function.update inode.pointer blockCount blockOffset }
    some (finishAlloc s inode inodeOffset)
  else if blockCount = b.bound0 then
    let singly := s.takeBlock
    let singlyPointerBuffer := setPointer (stack 1) 0 blockOffset
    -- the first block under the singly indirect pointer
    let inode := { inode with singlyPointer := singly.2 }
    let s := singly.1.writeSectors singly.2 singlyPointerBuffer
    some (finishAlloc s inode inodeOffset)
  else if blockCount < b.bound1 then
    let singlyPointerBuffer :=
      setPointer (s.readPointers inode.singlyPointer) (blockCount - b.bound0) blockOffset
    let s := s.writeSectors inode.singlyPointer singlyPointerBuffer
    some (finishAlloc s inode inodeOffset)
  else if blockCount = b.bound1 then
    let singly := s.takeBlock
    let doubly := singly.1.takeBlock
    let singlyPointerBuffer := setPointer (stack 1) 0 blockOffset
    let doublyPointerBuffer := setPointer (stack 2) 0 singly.2
    -- the first block under the doubly indirect pointer
    let inode := { inode with doublyPointer := doubly.2 }
    let s := doubly.1.writeSectors singly.2 singlyPointerBuffer
    let s := s.writeSectors doubly.2 doublyPointerBuffer
    some (finishAlloc s inode inodeOffset)
  else if blockCount < b.bound2 ∧ (blockCount - b.bound1) % b.divider0 = 0 then
    let singly := s.takeBlock
    let singlyPointerBuffer := setPointer (stack 1) 0 blockOffset
    -- the last singly indirect block is full
    let doublyPointerBuffer := setPointer (singly.1.readPointers inode.doublyPointer)
      ((blockCount - b.bound1) / b.divider0) singly.2
    let s := singly.1.writeSectors singly.2 singlyPointerBuffer
    let s := s.writeSectors inode.doublyPointer doublyPointerBuffer
    some (finishAlloc s inode inodeOffset)
  else if blockCount < b.bound2 then
    let doublyPointerBuffer := s.readPointers inode.doublyPointer
    let singly := pointerAt doublyPointerBuffer ((blockCount - b.bound1) / b.divider0)
    let singlyPointerBuffer :=
      setPointer (s.readPointers singly) ((blockCount - b.bound1) % b.divider0) blockOffset
    let s := s.writeSectors singly singlyPointerBuffer
    some (finishAlloc s inode inodeOffset)
  else if blockCount = b.bound2 then
    let singly := s.takeBlock
    let doubly := singly.1.takeBlock
    let triply := doubly.1.takeBlock
    let singlyPointerBuffer := setPointer (stack 1) 0 blockOffset
    let doublyPointerBuffer := setPointer (stack 2) 0 singly.2
    let triplyPointerBuffer := setPointer (stack 3) 0 doubly.2
    -- the first block under the triply indirect pointer
    let inode := { inode with triplyPointer := triply.2 }
    let s := triply.1.writeSectors singly.2 singlyPointerBuffer
    let s := s.writeSectors doubly.2 doublyPointerBuffer
    let s := s.writeSectors triply.2 triplyPointerBuffer
    some (finishAlloc s inode inodeOffset)
  else if blockCount < b.bound3 ∧ (blockCount - b.bound2) % b.divider1 = 0 then
    let singly := s.takeBlock
    let doubly := singly.1.takeBlock
    let singlyPointerBuffer := setPointer (stack 1) 0 blockOffset
    let doublyPointerBuffer := setPointer (stack 2) 0 singly.2
    -- the last doubly indirect block is full
    let triplyPointerBuffer := setPointer (doubly.1.readPointers inode.triplyPointer)
      ((blockCount - b.bound2) / b.divider1) doubly.2
    let s := doubly.1.writeSectors singly.2 singlyPointerBuffer
    let s := s.writeSectors doubly.2 doublyPointerBuffer
    let s := s.writeSectors inode.triplyPointer triplyPointerBuffer
    some (finishAlloc s inode inodeOffset)
  else if blockCount < b.bound3 ∧ (blockCount - b.bound2) % b.divider0 = 0 then
    let singly := s.takeBlock
    let singlyPointerBuffer := setPointer (stack 1) 0 blockOffset
    let triplyPointerBuffer := singly.1.readPointers inode.triplyPointer
    let doubly := pointerAt triplyPointerBuffer ((blockCount - b.bound2) / b.divider1)
    let doublyPointerBuffer := setPointer (singly.1.readPointers doubly)
      ((blockCount - b.bound2) % b.divider1 / b.divider0) singly.2
    let s := singly.1.writeSectors singly.2 singlyPointerBuffer
    let s := s.writeSectors doubly doublyPointerBuffer
    some (finishAlloc s inode inodeOffset)
  else if blockCount < b.bound3 then
    let triplyPointerBuffer := s.readPointers inode.triplyPointer
    let doubly := pointerAt triplyPointerBuffer ((blockCount - b.bound2) / b.divider1)
    let doublyPointerBuffer := s.readPointers doubly
    let singly :=
      pointerAt doublyPointerBuffer ((blockCount - b.bound2) % b.divider1 / b.divider0)
    let singlyPointerBuffer := setPointer (s.readPointers singly)
      ((blockCount - b.bound2) % b.divider1 % b.divider0) blockOffset
    let s := s.writeSectors singly singlyPointerBuffer
    some (finishAlloc s inode inodeOffset)
  else none

/-- `allocBlock`; `none` is the return value `-1`. The results of the two calls it makes are
ignored, so a file that is already as large as possible costs a block and stays as it is. -/
def allocBlock (s : FS) (inode : Inode) (inodeOffset : ℕ) (stack : ℕ → Buf) :
    Option (FS × Inode) :=
  if s.superBlock.availBlockNum < calNeededPointerBlocks s.superBlock inode.blockCount + 1 then
    none
  else
    let data := s.takeBlock
    some ((allocLastBlock data.1 inode inodeOffset data.2 stack).getD (data.1, inode))

/-! ## Removing blocks -/

/-- `setAllocBlock` with the return value ignored. -/
def FS.giveBlock (s : FS) (blockOffset : ℕ) : FS := (setAllocBlock s blockOffset).getD s

/-- The end of `freeLastBlock`: the inode is written back. -/
def finishFree (s : FS) (inode : Inode) (inodeOffset : ℕ) : ℤ × FS × Inode :=
  (0, { s with disk := storeInode s.disk inode inodeOffset }, inode)

/-- `freeLastBlock`: the return value, the file system and the inode after the call. -/
def freeLastBlock (s : FS) (inode : Inode) (inodeOffset : ℕ) : ℤ × FS × Inode :=
  let b := s.superBlock
  let inode := { inode with blockCount := inode.blockCount - 1 }
  let blockCount := inode.blockCount.toNat
  if blockCount < b.bound0 then
    let s := s.giveBlock (inode.pointer blockCount)
    finishFree s inode inodeOffset
  else if blockCount = b.bound0 then
    let singlyPointerBuffer := s.readPointers inode.singlyPointer
    let s := s.giveBlock (pointerAt singlyPointerBuffer 0)
    -- the pointer block goes with its only data block
    let s := s.giveBlock inode.singlyPointer
    finishFree s inode inodeOffset
  else if blockCount < b.bound1 then
    let singlyPointerBuffer := s.readPointers inode.singlyPointer
    let s := s.giveBlock (pointerAt singlyPointerBuffer (blockCount - b.bound0))
    finishFree s inode inodeOffset
  else if blockCount = b.bound1 then
    let doublyPointerBuffer := s.readPointers inode.doublyPointer
    let singlyPointerBuffer := s.readPointers (pointerAt doublyPointerBuffer 0)
    let s := s.giveBlock (pointerAt singlyPointerBuffer 0)
    let s := s.giveBlock (pointerAt doublyPointerBuffer 0)
    -- both pointer blocks go with their only data block
    let s := s.giveBlock inode.doublyPointer
    finishFree s inode inodeOffset
  else if blockCount < b.bound2 ∧ (blockCount - b.bound1) % b.divider0 = 0 then
    let doublyPointerBuffer := s.readPointers inode.doublyPointer
    let singly := pointerAt doublyPointerBuffer ((blockCount - b.bound1) / b.divider0)
    let singlyPointerBuffer := s.readPointers singly
    let s := s.giveBlock (pointerAt singlyPointerBuffer 0)
    let s := s.giveBlock singly
    finishFree s inode inodeOffset
  else if blockCount < b.bound2 then
    let doublyPointerBuffer := s.readPointers inode.doublyPointer
    let singly := pointerAt doublyPointerBuffer ((blockCount - b.bound1) / b.divider0)
    let singlyPointerBuffer := s.readPointers singly
    let s := s.giveBlock (pointerAt singlyPointerBuffer ((blockCount - b.bound1) % b.divider0))
    finishFree s inode inodeOffset
  else if blockCount = b.bound2 then
    let triplyPointerBuffer := s.readPointers inode.triplyPointer
    let doublyPointerBuffer := s.readPointers (pointerAt triplyPointerBuffer 0)
    let singlyPointerBuffer := s.readPointers (pointerAt doublyPointerBuffer 0)
    let s := s.giveBlock (pointerAt singlyPointerBuffer 0)
    let s := s.giveBlock (pointerAt doublyPointerBuffer 0)
    let s := s.giveBlock (pointerAt triplyPointerBuffer 0)
    -- all three pointer blocks go with their only data block
    let s := s.giveBlock inode.triplyPointer
    finishFree s inode inodeOffset
  else if blockCount < b.bound3 ∧ (blockCount - b.bound2) % b.divider1 = 0 then
    let triplyPointerBuffer := s.readPointers inode.triplyPointer
    let doubly := pointerAt triplyPointerBuffer ((blockCount - b.bound2) / b.divider1)
    let doublyPointerBuffer := s.readPointers doubly
    let singlyPointerBuffer := s.readPointers (pointerAt doublyPointerBuffer 0)
    let s := s.giveBlock (pointerAt singlyPointerBuffer 0)
    let s := s.giveBlock (pointerAt doublyPointerBuffer 0)
    let s := s.giveBlock doubly
    finishFree s inode inodeOffset
  else if blockCount < b.bound3 ∧ (blockCount - b.bound2) % b.divider0 = 0 then
    let triplyPointerBuffer := s.readPointers inode.triplyPointer
    let doubly := pointerAt triplyPointerBuffer ((blockCount - b.bound2) / b.divider1)
    let doublyPointerBuffer := s.readPointers doubly
    let singly :=
      pointerAt doublyPointerBuffer ((blockCount - b.bound2) % b.divider1 / b.divider0)
    let singlyPointerBuffer := s.readPointers singly
    let s := s.giveBlock (pointerAt singlyPointerBuffer 0)
    let s := s.giveBlock singly
    finishFree s inode inodeOffset
  else if blockCount < b.bound3 then
    let triplyPointerBuffer := s.readPointers inode.triplyPointer
    let doubly := pointerAt triplyPointerBuffer ((blockCount - b.bound2) / b.divider1)
    let doublyPointerBuffer := s.readPointers doubly
    let singly :=
      pointerAt doublyPointerBuffer ((blockCount - b.bound2) % b.divider1 / b.divider0)
    let singlyPointerBuffer := s.readPointers singly
    let s := s.giveBlock
      (pointerAt singlyPointerBuffer ((blockCount - b.bound2) % b.divider1 % b.divider0))
    finishFree s inode inodeOffset
  else (-1, s, inode)

/-- The loop of `freeBlock`. A round takes one from the block count, so the loop makes as
many rounds as the inode has blocks unless one of them fails. -/
def freeBlockLoop (inodeOffset : ℕ) : ℕ → FS → Inode → ℤ × FS × Inode
  | 0, s, inode => (0, s, inode)
  | n + 1, s, inode =>
    let r := freeLastBlock s inode inodeOffset
    if r.1 = -1 then r else freeBlockLoop inodeOffset n r.2.1 r.2.2

/-- `freeBlock` -/
def freeBlock (s : FS) (inode : Inode) (inodeOffset : ℕ) : ℤ × FS × Inode :=
  freeBlockLoop inodeOffset inode.blockCount.toNat s inode

end SeL4Sys

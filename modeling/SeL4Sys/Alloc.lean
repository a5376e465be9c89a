import SeL4Sys.Layout
import SeL4Sys.Lib.Bitmap
import SeL4Sys.Lib.Loop

/-!
# The block and inode allocators

`getAvailBlock` and `getAvailInode` are two copies of one search, and `setAllocBlock` and
`setAllocInode` two copies of one release: each works on one of the two `Pool`s, with its
own counters, its own bitmap block and its own address arithmetic. `getAvail` and
`setAlloc` are the common bodies.
-/

namespace SeL4Sys

open Bytes Bitmap Loop

/-- The two resources a group keeps a bitmap for. -/
inductive Pool
  | block
  | inode
deriving DecidableEq

/-- The free counter of the super block. -/
def SuperBlock.avail (b : SuperBlock) : Pool → ℤ
  | .block => b.availBlockNum
  | .inode => b.availInodeNum

/-- The super block with another free counter. -/
def SuperBlock.setAvail (b : SuperBlock) : Pool → ℤ → SuperBlock
  | .block, v => { b with availBlockNum := v }
  | .inode, v => { b with availInodeNum := v }

/-- The free counter of a group. -/
def GroupDesc.avail (g : GroupDesc) : Pool → ℤ
  | .block => g.availBlockNum
  | .inode => g.availInodeNum

/-- The descriptor with another free counter. -/
def GroupDesc.setAvail (g : GroupDesc) : Pool → ℤ → GroupDesc
  | .block, v => { g with availBlockNum := v }
  | .inode, v => { g with availInodeNum := v }

/-- The sector of a group's bitmap. -/
def GroupDesc.bitmap (g : GroupDesc) : Pool → ℕ
  | .block => g.blockBitmap
  | .inode => g.inodeBitmap

/-- The number of groups, as every function of `ext.c` recomputes it from the super block. -/
def FS.groupNum (s : FS) : ℕ :=
  calGroupNum s.superBlock.sectorNum (s.superBlock.blockSize / sectorSize)

/-- `calGroupSize(.., 0)`, by which the release functions find the group of an address. -/
def FS.groupSize (s : FS) : ℕ :=
  calGroupSize s.superBlock.sectorNum (s.superBlock.blockSize / sectorSize) s.groupNum 0

/-- The end of every allocator function: both free counters of the pool move by `delta`, the
header is written back, and then the bitmap block. -/
def commit (p : Pool) (s : FS) (i : ℕ) (delta : ℤ) (bitmapOffset : ℕ) (bitmap : Buf) : FS :=
  let s' : FS :=
    { s with
      superBlock := s.superBlock.setAvail p (s.superBlock.avail p + delta)
      groupDesc := Function.update s.groupDesc i
        ((s.groupDesc i).setAvail p ((s.groupDesc i).avail p + delta)) }
  { s' with
    disk := writeDisk (s'.writeHeader s.groupNum) bitmap blockBytes 1
      (bitmapOffset * sectorSize) }

/-! ## Searching and taking -/

section
variable (p : Pool) (s : FS)

/-- The group the search settles on: the first with something available, or `groupNum`. -/
def searchGroup : ℕ := breakIndex s.groupNum fun i => decide (1 ≤ (s.groupDesc i).avail p)

/-- The sector of the bitmap that is read; it stays 0 when no group was found. -/
def searchBitmapOffset : ℕ :=
  if searchGroup p s < s.groupNum then (s.groupDesc (searchGroup p s)).bitmap p else 0

/-- The bitmap block that is read. -/
def searchBitmap : Buf :=
  readDisk s.disk (fun _ => 0) blockBytes 1 (searchBitmapOffset p s * sectorSize)

/-- The byte loop. It is bounded by the number of available entries of the group, rounded up
to bytes, and not by the number of entries. -/
def searchByte : ℕ :=
  breakIndex (((s.groupDesc (searchGroup p s)).avail p + 7).tdiv 8).toNat
    fun j => decide (searchBitmap p s j ≠ 0xff)

/-- The bit loop over the byte at which the byte loop ended. -/
def searchBit : ℕ :=
  breakIndex 8 fun k =>
    decide (((searchBitmap p s (searchByte p s)).toNat >>> (7 - k)) % 2 = 0)

/-- The number in its group of the entry that is handed out, `j * 8 + k`. -/
def searchIndex : ℕ := searchByte p s * 8 + searchBit p s

/-- The state after the counters, the header and the bitmap are updated. When the bit loop
ran to its end the source shifts by `7 - 8`; the byte is `0xff` then and stays so whatever
the shift yields, as `mask` has it. -/
def taken : FS :=
  commit p s (searchGroup p s) (-1) (searchBitmapOffset p s)
    (orBit (searchBitmap p s) (searchByte p s) (searchBit p s))

/-- The common body of `getAvailBlock` and `getAvailInode`; `none` is the return value `-1`. -/
def getAvail : Option FS := if s.superBlock.avail p = 0 then none else some (taken p s)

end

/-- `getAvailBlock`: the state and `*blockOffset` after a successful call. -/
def getAvailBlock (s : FS) (blockOffset : ℕ) : Option (FS × ℕ) :=
  (getAvail .block s).map fun s' =>
    let blockOffset :=
      if searchGroup .block s < s.groupNum then
        (s.groupDesc (searchGroup .block s)).inodeTable
      else blockOffset
    (s', blockOffset + (inodeSize * 8 * s.superBlock.blockSize / sectorSize
      + searchIndex .block s * s.superBlock.blockSize / sectorSize))

/-- `getAvailInode`: the state and `*inodeOffset` after a successful call. -/
def getAvailInode (s : FS) : Option (FS × ℕ) :=
  (getAvail .inode s).map fun s' =>
    let inodeTableOffset :=
      if searchGroup .inode s < s.groupNum then
        (s.groupDesc (searchGroup .inode s)).inodeTable
      else 0
    (s', inodeTableOffset * sectorSize + searchIndex .inode s * inodeSize)

/-! ## Releasing -/

/-- Subtraction in `unsigned int`. -/
def subU32 (a b : ℕ) : ℕ := (a + 2 ^ 32 - b % 2 ^ 32) % 2 ^ 32

/-- The common body of `setAllocBlock` and `setAllocInode` for bit `k` of byte `j` of the
bitmap of group `i`; `none` is the return value `-1`. -/
def setAlloc (p : Pool) (s : FS) (i j k : ℕ) : Option FS :=
  let bitmapOffset := (s.groupDesc i).bitmap p
  let bitmap := readDisk s.disk (fun _ => 0) blockBytes 1 (bitmapOffset * sectorSize)
  if ((bitmap j).toNat >>> (7 - k)) % 2 = 0 then none
  else some (commit p s i 1 bitmapOffset (xorBit bitmap j k))

/-- The number in its group by which `setAllocBlock` knows a block. -/
def blockIndex (s : FS) (i blockOffset : ℕ) : ℕ :=
  subU32 (subU32 blockOffset (s.groupDesc i).inodeTable)
      (inodeSize * 8 * s.superBlock.blockSize / sectorSize)
    / (s.superBlock.blockSize / sectorSize)

/-- `setAllocBlock` -/
def setAllocBlock (s : FS) (blockOffset : ℕ) : Option FS :=
  let i := blockOffset / s.groupSize
  setAlloc .block s i (blockIndex s i blockOffset / 8) (blockIndex s i blockOffset % 8)

/-- The number in its group by which `setAllocInode` knows an inode. -/
def inodeIndex (s : FS) (i inodeOffset : ℕ) : ℕ :=
  subU32 inodeOffset ((s.groupDesc i).inodeTable * sectorSize) / inodeSize

/-- `setAllocInode` -/
def setAllocInode (s : FS) (inodeOffset : ℕ) : Option FS :=
  let i := inodeOffset / sectorSize / s.groupSize
  setAlloc .inode s i (inodeIndex s i inodeOffset / 8) (inodeIndex s i inodeOffset % 8)

end SeL4Sys

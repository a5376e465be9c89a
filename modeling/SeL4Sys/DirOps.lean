import SeL4Sys.BlockMap
import SeL4Sys.Lib.CString

/-!
# Directories and paths

`stringChr`, `getDirEntry`, `readInode`, `allocInode` and `freeInode` of `ext.c`, and
`syscall_open` and `syscall_unlink` of `fs.c` with the helpers that split a path.

A C string is the list of its bytes before the terminating zero. The inode number in a
directory entry is the byte offset of the inode. Local variables that the source does not
initialise are parameters.
-/

namespace SeL4Sys

open Bytes CString Loop

/-- `NAME_LENGTH` -/
@[simp] abbrev nameLength : ℕ := 64

/-- `sizeof(DirEntry)` -/
@[simp] abbrev dirEntrySize : ℕ := 128

/-- `REGULAR_TYPE` -/
abbrev regularType : ℤ := 1

/-- `DIRECTORY_TYPE` -/
abbrev directoryType : ℤ := 2

/-- The character that separates the components of a path. -/
abbrev slash : UInt8 := 47

/-! ## Directory entries -/

/-- The memory of entry `j` of a block of a directory. -/
def dirEntry (buffer : Buf) (j : ℕ) : Buf := window buffer (j * dirEntrySize)

/-- The field `inode` of an entry. -/
def entryInode (e : Buf) : ℕ := leNat e 0 4

/-- The field `name` of an entry. -/
def entryName (e : Buf) : Buf := window e 4

/-- The block with the field `inode` of entry `j` set. -/
def setEntryInode (buffer : Buf) (j v : ℕ) : Buf := patch buffer (j * dirEntrySize) 4 (leByte v)

/-- The block with `strncpy` done on the field `name` of entry `j`. -/
def setEntryName (buffer : Buf) (j : ℕ) (name : List UInt8) : Buf :=
  patch buffer (j * dirEntrySize + 4) nameLength
    (strncpy (entryName (dirEntry buffer j)) (bufOf name) nameLength)

/-- The number of entries in a block. -/
def FS.entriesPerBlock (s : FS) : ℕ := s.superBlock.blockSize / dirEntrySize

/-! ## Searching a directory -/

/-- How a loop over the entries of a directory ends: `readBlock` failed, it broke at entry `j` of
block `i`, or it ran to its end. The block buffer is what was read last. -/
inductive Scan
  | failed
  | found (i j : ℕ) (buffer : Buf)
  | missing (buffer : Buf)

/-- The loop over the blocks from `i` on, `n` of them, with the loop over the entries of each
block inside, which breaks at the first entry that passes the test. -/
def scanEntries (s : FS) (inode : Inode) (test : Buf → Bool) : ℕ → ℕ → Buf → Scan
  | 0, _, buffer => .missing buffer
  | n + 1, i, buffer =>
    (readBlock s inode i buffer).elim .failed fun buffer =>
      let j := breakIndex s.entriesPerBlock fun j => test (dirEntry buffer j)
      if j < s.entriesPerBlock then .found i j buffer
      else scanEntries s inode test n (i + 1) buffer

/-- The loop over all entries of a directory. -/
def scanDir (s : FS) (inode : Inode) (test : Buf → Bool) (buffer : Buf) : Scan :=
  scanEntries s inode test inode.blockCount.toNat 0 buffer

/-- A live entry whose name agrees with the first `length` characters of `name`. -/
def matchesName (name : List UInt8) (length : ℕ) (e : Buf) : Bool :=
  entryInode e != 0 && strncmp (entryName e) (bufOf name) length == 0

/-! ## Enumerating a directory -/

/-- The inner loop of `getDirEntry` from entry `j` on, with `n` entries left and `dirCount` live
ones passed. -/
def liveLoop (buffer : Buf) (dirIndex : ℤ) : ℕ → ℕ → ℤ → ℕ × ℤ
  | 0, j, dirCount => (j, dirCount)
  | n + 1, j, dirCount =>
    if entryInode (dirEntry buffer j) ≠ 0 then
      if dirCount = dirIndex then (j, dirCount)
      else liveLoop buffer dirIndex n (j + 1) (dirCount + 1)
    else liveLoop buffer dirIndex n (j + 1) dirCount

/-- The outer loop of `getDirEntry`. -/
def dirEntryLoop (s : FS) (inode : Inode) (dirIndex : ℤ) : ℕ → ℕ → ℤ → Buf → Option Buf
  | 0, _, _, _ => none
  | n + 1, i, dirCount, buffer =>
    (readBlock s inode i buffer).elim none fun buffer =>
      let r := liveLoop buffer dirIndex s.entriesPerBlock 0 dirCount
      if r.1 < s.entriesPerBlock then some (dirEntry buffer r.1)
      else dirEntryLoop s inode dirIndex n (i + 1) r.2 buffer

/-- `getDirEntry`: the fields `inode` and `name` of `destDirEntry`; `none` is the return value
`-1`. -/
def getDirEntry (s : FS) (inode : Inode) (dirIndex : ℤ) (name buffer : Buf) : Option (ℕ × Buf) :=
  (dirEntryLoop s inode dirIndex inode.blockCount.toNat 0 0 buffer).map fun e =>
    (entryInode e, strncpy name (entryName e) nameLength)

/-! ## Looking up a path -/

/-- `stringChr`: the return value and `size`. -/
def stringChr : List UInt8 → UInt8 → ℤ × ℕ
  | [], _ => (-1, 0)
  | b :: bs, token =>
    if token = b then (0, 0)
    else
      let r := stringChr bs token
      (r.1, r.2 + 1)

/-- What `readInode` leaves: its return value, `inodeOffset` and `destInode`. -/
structure Lookup where
  ret : ℤ
  inodeOffset : ℕ
  destInode : Inode

/-- The loop of `readInode` over the path from position `count` on. Every pass takes a character
at least. -/
def lookupLoop (s : FS) : ℕ → List UInt8 → ℕ → Inode → Buf → Lookup
  | _, [], inodeOffset, destInode, _ => ⟨0, inodeOffset, destInode⟩
  | 0, _ :: _, inodeOffset, destInode, _ => ⟨-1, inodeOffset, destInode⟩
  | fuel + 1, b :: bs, inodeOffset, destInode, buffer =>
    let chr := stringChr (b :: bs) slash
    if chr.1 = 0 ∧ chr.2 = 0 then ⟨-1, inodeOffset, destInode⟩
    else if chr.1 = 0 ∧ destInode.type = regularType then ⟨-1, inodeOffset, destInode⟩
    else
      match scanDir s destInode (matchesName (b :: bs) chr.2) buffer with
      | .failed => ⟨-1, inodeOffset, destInode⟩
      | .missing _ => ⟨-1, inodeOffset, destInode⟩
      | .found _ j buffer =>
        let inodeOffset := entryInode (dirEntry buffer j)
        let destInode := loadInode s.disk inodeOffset
        if chr.1 = 0 then lookupLoop s fuel ((b :: bs).drop (chr.2 + 1)) inodeOffset destInode buffer
        else ⟨0, inodeOffset, destInode⟩

/-- The offset of the inode of the root directory. -/
def FS.rootOffset (s : FS) : ℕ := (s.groupDesc 0).inodeTable * sectorSize

/-- `readInode` -/
def readInode (s : FS) (destInode : Inode) (destFilePath : List UInt8) (buffer : Buf) : Lookup :=
  let chr := stringChr destFilePath slash
  if destFilePath = [] then ⟨-1, 0, destInode⟩
  else if chr.1 = -1 ∨ chr.2 ≠ 0 then ⟨-1, 0, destInode⟩
  else
    lookupLoop s destFilePath.length (destFilePath.drop (chr.2 + 1)) s.rootOffset
      (loadInode s.disk s.rootOffset) buffer

/-! ## Creating and removing entries -/

/-- What `allocInode` and `freeInode` leave: the return value, the file system, and the variables
behind their pointer arguments. -/
structure DirResult where
  ret : ℤ
  fs : FS
  fatherInode : Inode
  destInode : Inode
  destInodeOffset : ℕ

/-- `memset(buffer, c, n)` -/
def memset (buffer : Buf) (c n : ℕ) : Buf := patch buffer 0 n fun _ => UInt8.ofNat c

/-- The entries at which the loop of `allocInode` stops: empty ones, and those whose name agrees
with `name` over its length. -/
def stopsAlloc (name : List UInt8) (e : Buf) : Bool :=
  entryInode e == 0 || strncmp (entryName e) (bufOf name) name.length == 0

/-- The end of `allocInode`: entry `j` of block `i` of the directory, which is in the buffer, is
filled in for a new inode. -/
def addEntry (s : FS) (fatherInode : Inode) (fatherInodeOffset : ℕ) (destInode : Inode)
    (destInodeOffset : ℕ) (destFilename : List UInt8) (destFiletype : ℤ) (i j : ℕ)
    (buffer : Buf) : DirResult :=
  (getAvailInode s).elim ⟨-1, s, fatherInode, destInode, destInodeOffset⟩
    fun (s, destInodeOffset) =>
      let buffer := setEntryInode (setEntryName buffer j destFilename) j destInodeOffset
      (writeBlock s fatherInode i buffer).elim ⟨-1, s, fatherInode, destInode, destInodeOffset⟩
        fun s =>
          let s := { s with disk := storeInode s.disk fatherInode fatherInodeOffset }
          let destInode :=
            { destInode with type := destFiletype, linkCount := 1, blockCount := 0, size := 0 }
          ⟨0, { s with disk := storeInode s.disk destInode destInodeOffset }, fatherInode,
            destInode, destInodeOffset⟩

/-- `allocInode`. The buffer of a new block is to be cleared by `memset`, with its last two
arguments exchanged. -/
def allocInode (s : FS) (fatherInode : Inode) (fatherInodeOffset : ℕ) (destInode : Inode)
    (destInodeOffset : ℕ) (destFilename : List UInt8) (destFiletype : ℤ) (buffer : Buf)
    (stack : ℕ → Buf) : DirResult :=
  if destFilename = [] then ⟨-1, s, fatherInode, destInode, destInodeOffset⟩
  else if s.superBlock.availInodeNum = 0 then ⟨-1, s, fatherInode, destInode, destInodeOffset⟩
  else
    match scanDir s fatherInode (stopsAlloc destFilename) buffer with
    | .failed => ⟨-1, s, fatherInode, destInode, destInodeOffset⟩
    | .found i j buffer =>
      if entryInode (dirEntry buffer j) ≠ 0 then
        ⟨-1, s, fatherInode, destInode, destInodeOffset⟩
      else
        addEntry s fatherInode fatherInodeOffset destInode destInodeOffset destFilename
          destFiletype i j buffer
    | .missing buffer =>
      let i := fatherInode.blockCount.toNat
      (allocBlock s fatherInode fatherInodeOffset stack).elim
        ⟨-1, s, fatherInode, destInode, destInodeOffset⟩ fun (s, fatherInode) =>
          let fatherInode :=
            { fatherInode with size := fatherInode.blockCount * s.superBlock.blockSize }
          addEntry s fatherInode fatherInodeOffset destInode destInodeOffset destFilename
            destFiletype i 0 (memset buffer s.superBlock.blockSize 0)

/-- `freeInode`, which does not use `fatherInodeOffset`. `tmpName` and `dirBuffer` are variables of
`getDirEntry`. -/
def freeInode (s : FS) (fatherInode : Inode) (destInode : Inode) (destInodeOffset : ℕ)
    (destFilename : List UInt8) (destFiletype : ℤ) (buffer tmpName dirBuffer : Buf) : DirResult :=
  if destFilename = [] then ⟨-1, s, fatherInode, destInode, destInodeOffset⟩
  else
    match scanDir s fatherInode (matchesName destFilename destFilename.length) buffer with
    | .failed => ⟨-1, s, fatherInode, destInode, destInodeOffset⟩
    | .missing _ => ⟨-1, s, fatherInode, destInode, destInodeOffset⟩
    | .found i j buffer =>
      let destInodeOffset := entryInode (dirEntry buffer j)
      let destInode := loadInode s.disk destInodeOffset
      if destInode.type ≠ destFiletype then ⟨-1, s, fatherInode, destInode, destInodeOffset⟩
      else if destFiletype = directoryType ∧ getDirEntry s destInode 0 tmpName dirBuffer ≠ none then
        ⟨-1, s, fatherInode, destInode, destInodeOffset⟩
      else
        let destInode := { destInode with linkCount := destInode.linkCount - 1 }
        let r : FS × Inode :=
          if destInode.linkCount = 0 then
            let r := freeBlock s destInode destInodeOffset
            ((setAllocInode r.2.1 destInodeOffset).getD r.2.1, r.2.2)
          else ({ s with disk := storeInode s.disk destInode destInodeOffset }, destInode)
        let buffer := setEntryInode buffer j 0
        ⟨0, (writeBlock r.1 fatherInode i buffer).getD r.1, fatherInode, r.2, destInodeOffset⟩

/-! ## Splitting a path -/

/-- The loop of `find_last_of`, which goes down; `i + 1` is still to be looked at. -/
def findLastLoop (str : List UInt8) (token : UInt8) : ℕ → ℤ
  | 0 => -1
  | i + 1 => if str.getD i 0 = token then i else findLastLoop str token i

/-- `find_last_of` -/
def findLastOf (str : List UInt8) (token : UInt8) (last : ℤ) : ℤ :=
  findLastLoop str token ((if last < str.length then last else str.length - 1) + 1).toNat

/-- `get_father_path`: the string in the array of `NAME_LENGTH` bytes that the callers pass. `none`
is a write outside the array. -/
def getFatherPath (src : List UInt8) : Option (List UInt8) :=
  let lastPos := findLastOf src slash (src.length - 2)
  if lastPos = 0 then some [slash]
  else if lastPos < 0 ∨ nameLength ≤ lastPos then none
  else some (src.take lastPos.toNat)

/-- `is_dir_path`. `none` is a read in front of an empty string. -/
def isDirPath (path : List UInt8) : Option Bool :=
  if path = [] then none else some (path.getD (path.length - 1) 0 == slash)

/-- `is_dir_mode`, the bit `O_DIRECTORY`. -/
def isDirMode (mode : ℤ) : Bool := mode / 2 ^ 16 % 2 == 1

/-- `mode & O_CREAT` -/
def createMode (mode : ℤ) : Bool := mode / 2 ^ 6 % 2 == 1

/-! ## The system calls -/

/-- The variables that `syscall_open` and `syscall_unlink` and the functions they call do not
initialise. -/
structure Locals where
  fatherInode : Inode
  destInode : Inode
  lookupBuffer : Buf
  fatherBuffer : Buf
  dirBuffer : Buf
  tmpName : Buf
  tmpBuffer : Buf
  stack : ℕ → Buf

/-- Variables that happen to hold zeros. -/
def zeroLocals : Locals :=
  { fatherInode := Files.emptyFile, destInode := Files.emptyFile, lookupBuffer := fun _ => 0,
    fatherBuffer := fun _ => 0, dirBuffer := fun _ => 0, tmpName := fun _ => 0,
    tmpBuffer := fun _ => 0, stack := fun _ _ => 0 }

/-- `is_empty_dir` -/
def isEmptyDir (s : FS) (inode : Inode) (l : Locals) : Bool :=
  (getDirEntry s inode 0 l.tmpName l.tmpBuffer).isNone

/-- The part of a path that is passed on as the name in the directory. -/
def lastName (path : List UInt8) : List UInt8 :=
  path.drop (findLastOf path slash (path.length - 1) + 1).toNat

/-- `syscall_open`: the return value and the file system. `none` is a failed assertion, or an access
outside an array. -/
def syscallOpen (s : FS) (path : List UInt8) (mode : ℤ) (l : Locals) : Option (ℤ × FS) :=
  let dest := readInode s l.destInode path l.lookupBuffer
  if dest.ret = 0 then some (dest.inodeOffset, s)
  else if createMode mode = false then some (-1, s)
  else
    (isDirPath path).bind fun dirPath =>
      if dirPath = true ∧ isDirMode mode = false then some (-1, s)
      else
        (getFatherPath path).bind fun fatherPath =>
          let father := readInode s l.fatherInode fatherPath l.fatherBuffer
          if father.ret ≠ 0 then some (-1, s)
          else
            let type := if isDirMode mode = true then directoryType else regularType
            let r := allocInode s father.destInode father.inodeOffset dest.destInode
              dest.inodeOffset (lastName path) type l.dirBuffer l.stack
            if r.ret = 0 then some (r.destInodeOffset, r.fs) else none

/-- `syscall_unlink`: the return value and the file system. `none` is an access outside an
array. -/
def syscallUnlink (s : FS) (path : List UInt8) (l : Locals) : Option (ℤ × FS) :=
  let dest := readInode s l.destInode path l.lookupBuffer
  if dest.ret ≠ 0 then some (-1, s)
  else if dest.destInode.type = directoryType ∧ isEmptyDir s dest.destInode l = false then
    some (-1, s)
  else
    (getFatherPath path).bind fun fatherPath =>
      let father := readInode s l.fatherInode fatherPath l.fatherBuffer
      if father.ret ≠ 0 then some (-1, s)
      else
        let r := freeInode s father.destInode dest.destInode dest.inodeOffset (lastName path)
          dest.destInode.type l.dirBuffer l.tmpName l.tmpBuffer
        some (r.ret, r.fs)

end SeL4Sys

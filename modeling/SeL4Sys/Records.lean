import SeL4Sys.Disk
import Mathlib.Tactic.IntervalCases

/-!
# On-disk records

The unions of `ext.h` as structures of their fields, with the bytes after the last field
kept in `pad`, so that a record read from the disk and written back is the same bytes.
Counts and sizes are the signed integers of the source; sector numbers and byte offsets,
which address the device, are read unsigned.

Every record comes with the round trip its users need: an inode that is written reads back as
itself, and a super block or a descriptor that is read has the bytes it was read from.
-/

namespace SeL4Sys

open Bytes

/-- `BLOCK_SIZE` -/
@[simp] abbrev blockBytes : ℕ := 1024

/-- `sizeof(Inode)` -/
@[simp] abbrev inodeSize : ℕ := 128

/-- `POINTER_NUM` -/
@[simp] abbrev pointerNum : ℕ := 12

/-- `union SuperBlock` -/
structure SuperBlock where
  sectorNum : ℕ
  inodeNum : ℤ
  blockNum : ℤ
  availInodeNum : ℤ
  availBlockNum : ℤ
  blockSize : ℕ
  inodesPerGroup : ℤ
  blocksPerGroup : ℤ
  pad : Buf

/-- The eight words of the fields. -/
def SuperBlock.word (b : SuperBlock) : ℕ → ℕ
  | 0 => b.sectorNum
  | 1 => toUnsigned 4 b.inodeNum
  | 2 => toUnsigned 4 b.blockNum
  | 3 => toUnsigned 4 b.availInodeNum
  | 4 => toUnsigned 4 b.availBlockNum
  | 5 => b.blockSize
  | 6 => toUnsigned 4 b.inodesPerGroup
  | _ => toUnsigned 4 b.blocksPerGroup

/-- The bytes of the super block. -/
def SuperBlock.encode (b : SuperBlock) : Buf :=
  fun p => if p < 32 then leByte (b.word (p / 4)) (p % 4) else b.pad (p - 32)

/-- The super block that 1024 bytes spell. -/
def SuperBlock.decode (m : Buf) : SuperBlock where
  sectorNum := leNat m 0 4
  inodeNum := leInt m 4 4
  blockNum := leInt m 8 4
  availInodeNum := leInt m 12 4
  availBlockNum := leInt m 16 4
  blockSize := leNat m 20 4
  inodesPerGroup := leInt m 24 4
  blocksPerGroup := leInt m 28 4
  pad := fun i => if i < 992 then m (32 + i) else 0

theorem SuperBlock.word_decode (m : Buf) {k : ℕ} (hk : k < 8) :
    (SuperBlock.decode m).word k = leNat m (4 * k) 4 := by
  interval_cases k <;> simp only [SuperBlock.word, SuperBlock.decode, toUnsigned_leInt]

/-- Reading a super block and writing it back. -/
theorem SuperBlock.encode_decode (m : Buf) {p : ℕ} (hp : p < 1024) :
    (SuperBlock.decode m).encode p = m p := by
  rw [SuperBlock.encode]
  split_ifs with h
  · rw [SuperBlock.word_decode m (by omega), leByte_leNat (by omega), Nat.div_add_mod]
  · simp only [SuperBlock.decode]
    rw [if_pos (by omega), Nat.add_sub_cancel' (by omega)]

theorem SuperBlock.sectorNum_decode {m : Buf} {b : SuperBlock}
    (hm : ∀ p, p < 1024 → m p = b.encode p) (hb : b.sectorNum < 256 ^ 4) :
    (SuperBlock.decode m).sectorNum = b.sectorNum := by
  have hbytes : ∀ j, j < 4 → m (0 + j) = leByte b.sectorNum j := by
    intro j hj
    rw [Nat.zero_add, hm j (by omega), SuperBlock.encode, if_pos (by omega),
      Nat.div_eq_of_lt hj, Nat.mod_eq_of_lt hj, SuperBlock.word]
  exact (leNat_of_bytes hbytes).trans (Nat.mod_eq_of_lt hb)

theorem SuperBlock.blockSize_decode {m : Buf} {b : SuperBlock}
    (hm : ∀ p, p < 1024 → m p = b.encode p) (hb : b.blockSize < 256 ^ 4) :
    (SuperBlock.decode m).blockSize = b.blockSize := by
  have hbytes : ∀ j, j < 4 → m (20 + j) = leByte b.blockSize j := by
    intro j hj
    rw [hm (20 + j) (by omega), SuperBlock.encode, if_pos (by omega),
      show (20 + j) / 4 = 5 by omega, show (20 + j) % 4 = j by omega, SuperBlock.word]
  exact (leNat_of_bytes hbytes).trans (Nat.mod_eq_of_lt hb)

/-- `union GroupDesc` -/
structure GroupDesc where
  inodeBitmap : ℕ
  blockBitmap : ℕ
  inodeTable : ℕ
  availInodeNum : ℤ
  availBlockNum : ℤ
  pad : Buf

/-- The five words of the fields. -/
def GroupDesc.word (g : GroupDesc) : ℕ → ℕ
  | 0 => g.inodeBitmap
  | 1 => g.blockBitmap
  | 2 => g.inodeTable
  | 3 => toUnsigned 4 g.availInodeNum
  | _ => toUnsigned 4 g.availBlockNum

/-- The bytes of one descriptor. -/
def GroupDesc.encode (g : GroupDesc) : Buf :=
  fun p => if p < 20 then leByte (g.word (p / 4)) (p % 4) else g.pad (p - 20)

/-- The descriptor that 32 bytes spell. -/
def GroupDesc.decode (m : Buf) : GroupDesc where
  inodeBitmap := leNat m 0 4
  blockBitmap := leNat m 4 4
  inodeTable := leNat m 8 4
  availInodeNum := leInt m 12 4
  availBlockNum := leInt m 16 4
  pad := fun i => if i < 12 then m (20 + i) else 0

theorem GroupDesc.word_decode (m : Buf) {k : ℕ} (hk : k < 5) :
    (GroupDesc.decode m).word k = leNat m (4 * k) 4 := by
  interval_cases k <;> simp only [GroupDesc.word, GroupDesc.decode, toUnsigned_leInt]

/-- Reading a descriptor and writing it back. -/
theorem GroupDesc.encode_decode (m : Buf) {p : ℕ} (hp : p < 32) :
    (GroupDesc.decode m).encode p = m p := by
  rw [GroupDesc.encode]
  split_ifs with h
  · rw [GroupDesc.word_decode m (by omega), leByte_leNat (by omega), Nat.div_add_mod]
  · simp only [GroupDesc.decode]
    rw [if_pos (by omega), Nat.add_sub_cancel' (by omega)]

/-- The bytes of the descriptor table. -/
def encodeDescs (groupDesc : ℕ → GroupDesc) : Buf :=
  fun p => (groupDesc (p / 32)).encode (p % 32)

/-- `union Inode`. `pointer` is the array of direct pointers. -/
@[ext]
structure Inode where
  type : ℤ
  linkCount : ℤ
  blockCount : ℤ
  size : ℤ
  pointer : ℕ → ℕ
  singlyPointer : ℕ
  doublyPointer : ℕ
  triplyPointer : ℕ
  pad : Buf

namespace Inode

/-- The seventeen words from `blockCount` on. -/
def word (ino : Inode) (k : ℕ) : ℕ :=
  if k = 0 then toUnsigned 4 ino.blockCount
  else if k = 1 then toUnsigned 4 ino.size
  else if k < 14 then ino.pointer (k - 2)
  else if k = 14 then ino.singlyPointer
  else if k = 15 then ino.doublyPointer
  else ino.triplyPointer

/-- The 128 bytes of the inode. -/
def encode (ino : Inode) : Buf := fun p =>
  if p < 2 then leByte (toUnsigned 2 ino.type) p
  else if p < 4 then leByte (toUnsigned 2 ino.linkCount) (p - 2)
  else if p < 72 then leByte (ino.word ((p - 4) / 4)) (p % 4)
  else ino.pad (p - 72)

/-- The inode that 128 bytes spell. -/
def decode (m : Buf) : Inode where
  type := leInt m 0 2
  linkCount := leInt m 2 2
  blockCount := leInt m 4 4
  size := leInt m 8 4
  pointer := fun i => if i < 12 then leNat m (12 + 4 * i) 4 else 0
  singlyPointer := leNat m 60 4
  doublyPointer := leNat m 64 4
  triplyPointer := leNat m 68 4
  pad := fun i => if i < 56 then m (72 + i) else 0

theorem decode_type (m : Buf) : (decode m).type = leInt m 0 2 := by rw [decode]

theorem decode_linkCount (m : Buf) : (decode m).linkCount = leInt m 2 2 := by rw [decode]

theorem decode_blockCount (m : Buf) : (decode m).blockCount = leInt m 4 4 := by rw [decode]

theorem decode_size (m : Buf) : (decode m).size = leInt m 8 4 := by rw [decode]

/-- Every field is a value of its C type, and nothing is stored outside the record. -/
structure Fits (ino : Inode) : Prop where
  type : FitsInt 2 ino.type
  linkCount : FitsInt 2 ino.linkCount
  blockCount : FitsInt 4 ino.blockCount
  size : FitsInt 4 ino.size
  pointer : ∀ i, ino.pointer i < 256 ^ 4
  pointer_out : ∀ i, 12 ≤ i → ino.pointer i = 0
  singlyPointer : ino.singlyPointer < 256 ^ 4
  doublyPointer : ino.doublyPointer < 256 ^ 4
  triplyPointer : ino.triplyPointer < 256 ^ 4
  pad_out : ∀ i, 56 ≤ i → ino.pad i = 0

theorem encode_word (ino : Inode) {k j : ℕ} (hk : k < 17) (hj : j < 4) :
    ino.encode (4 + 4 * k + j) = leByte (ino.word k) j := by
  unfold encode
  rw [if_neg (by omega), if_neg (by omega), if_pos (by omega),
    show (4 + 4 * k + j - 4) / 4 = k by omega, show (4 + 4 * k + j) % 4 = j by omega]

@[simp] theorem word_blockCount (ino : Inode) : ino.word 0 = toUnsigned 4 ino.blockCount := rfl

@[simp] theorem word_size (ino : Inode) : ino.word 1 = toUnsigned 4 ino.size := rfl

@[simp] theorem word_singlyPointer (ino : Inode) : ino.word 14 = ino.singlyPointer := rfl

@[simp] theorem word_doublyPointer (ino : Inode) : ino.word 15 = ino.doublyPointer := rfl

@[simp] theorem word_triplyPointer (ino : Inode) : ino.word 16 = ino.triplyPointer := rfl

theorem word_pointer (ino : Inode) {i : ℕ} (hi : i < 12) : ino.word (2 + i) = ino.pointer i := by
  rw [word, if_neg (by omega), if_neg (by omega), if_pos (by omega), Nat.add_sub_cancel_left]

/-- Word `k` of an encoded inode, read unsigned. -/
theorem leNat_encode (ino : Inode) {k : ℕ} (hk : k < 17) (hv : ino.word k < 256 ^ 4) :
    leNat ino.encode (4 + 4 * k) 4 = ino.word k := by
  rw [leNat_of_bytes fun j hj => encode_word ino hk hj, Nat.mod_eq_of_lt hv]

theorem blockCount_decode_encode {ino : Inode} (h : FitsInt 4 ino.blockCount) :
    (decode ino.encode).blockCount = ino.blockCount := by
  rw [decode_blockCount]
  refine leInt_of_bytes h fun j hj => ?_
  have hw := encode_word ino (k := 0) (by norm_num) hj
  rwa [word_blockCount] at hw

theorem size_decode_encode {ino : Inode} (h : FitsInt 4 ino.size) :
    (decode ino.encode).size = ino.size := by
  rw [decode_size]
  refine leInt_of_bytes h fun j hj => ?_
  have hw := encode_word ino (k := 1) (by norm_num) hj
  rwa [word_size] at hw

theorem type_decode_encode {ino : Inode} (h : FitsInt 2 ino.type) :
    (decode ino.encode).type = ino.type := by
  rw [decode_type]
  refine leInt_of_bytes h fun j hj => ?_
  rw [encode, if_pos (by omega), Nat.zero_add]

theorem linkCount_decode_encode {ino : Inode} (h : FitsInt 2 ino.linkCount) :
    (decode ino.encode).linkCount = ino.linkCount := by
  rw [decode_linkCount]
  refine leInt_of_bytes h fun j hj => ?_
  rw [encode, if_neg (by omega), if_pos (by omega), Nat.add_sub_cancel_left]

/-- Writing an inode and reading it back. -/
theorem decode_encode {ino : Inode} (h : ino.Fits) : decode ino.encode = ino := by
  ext i
  · exact type_decode_encode h.type
  · exact linkCount_decode_encode h.linkCount
  · exact blockCount_decode_encode h.blockCount
  · exact size_decode_encode h.size
  · by_cases hi : i < 12
    · have hw := word_pointer ino hi
      simp only [decode, if_pos hi]
      rw [show 12 + 4 * i = 4 + 4 * (2 + i) by omega,
        leNat_encode ino (by omega) (by rw [hw]; exact h.pointer i), hw]
    · simp only [decode, if_neg hi]
      rw [h.pointer_out i (by omega)]
  · have hw := leNat_encode ino (k := 14) (by norm_num)
    rw [word_singlyPointer] at hw
    exact hw h.singlyPointer
  · have hw := leNat_encode ino (k := 15) (by norm_num)
    rw [word_doublyPointer] at hw
    exact hw h.doublyPointer
  · have hw := leNat_encode ino (k := 16) (by norm_num)
    rw [word_triplyPointer] at hw
    exact hw h.triplyPointer
  · by_cases hi : i < 56
    · simp only [decode, if_pos hi]
      rw [encode, if_neg (by omega), if_neg (by omega), if_neg (by omega),
        Nat.add_sub_cancel_left]
    · simp only [decode, if_neg hi]
      rw [h.pad_out i (by omega)]

theorem word_decode (m : Buf) {k : ℕ} (hk : k < 17) : (decode m).word k = leNat m (4 + 4 * k) 4 := by
  by_cases hptr : 2 ≤ k ∧ k < 14
  · rw [word, if_neg (by omega), if_neg (by omega), if_pos hptr.2]
    simp only [decode]
    rw [if_pos (by omega)]
    congr 1
    omega
  · have hcases : k = 0 ∨ k = 1 ∨ k = 14 ∨ k = 15 ∨ k = 16 := by omega
    rcases hcases with rfl | rfl | rfl | rfl | rfl
    · rw [word_blockCount, decode_blockCount, toUnsigned_leInt]
    · rw [word_size, decode_size, toUnsigned_leInt]
    · rfl
    · rfl
    · rfl

/-- Reading an inode and writing it back. -/
theorem encode_decode (m : Buf) {p : ℕ} (hp : p < 128) : (decode m).encode p = m p := by
  rw [encode]
  split_ifs with htype hlink hword
  · rw [decode_type, toUnsigned_leInt, leByte_leNat htype, Nat.zero_add]
  · rw [decode_linkCount, toUnsigned_leInt, leByte_leNat (by omega), Nat.add_sub_cancel' (by omega)]
  · rw [word_decode m (by omega), leByte_leNat (by omega)]
    congr 1
    omega
  · simp only [decode]
    rw [if_pos (by omega), Nat.add_sub_cancel' (by omega)]

/-- Whatever the disk holds, the fields read are values of their types. -/
theorem decode_fits (m : Buf) : (decode m).Fits where
  type := by rw [decode_type]; exact leInt_fits m 0 2
  linkCount := by rw [decode_linkCount]; exact leInt_fits m 2 2
  blockCount := by rw [decode_blockCount]; exact leInt_fits m 4 4
  size := by rw [decode_size]; exact leInt_fits m 8 4
  pointer := fun i => by
    simp only [decode]
    split
    · exact leNat_lt m _ 4
    · norm_num
  pointer_out := fun i hi => by
    simp only [decode]
    rw [if_neg (by omega)]
  singlyPointer := leNat_lt m 60 4
  doublyPointer := leNat_lt m 64 4
  triplyPointer := leNat_lt m 68 4
  pad_out := fun i hi => by
    simp only [decode]
    rw [if_neg (by omega)]

/-- Reading an inode looks at its 128 bytes only. -/
theorem decode_congr {m m' : Buf} (h : ∀ p, p < 128 → m' p = m p) : decode m' = decode m := by
  have hint : ∀ off w, off + w ≤ 128 → leInt m' off w = leInt m off w := fun off w hw =>
    leInt_congr w fun j hj => h _ (by omega)
  have hnat : ∀ off w, off + w ≤ 128 → leNat m' off w = leNat m off w := fun off w hw =>
    leNat_congr w fun j hj => h _ (by omega)
  have hptr : (fun i => if i < 12 then leNat m' (12 + 4 * i) 4 else 0)
      = fun i => if i < 12 then leNat m (12 + 4 * i) 4 else 0 := by
    funext i
    split
    · exact hnat _ _ (by omega)
    · rfl
  have hpad : (fun i => if i < 56 then m' (72 + i) else 0)
      = fun i => if i < 56 then m (72 + i) else 0 := by
    funext i
    split
    · exact h _ (by omega)
    · rfl
  rw [decode, decode, hptr, hpad, hint 0 2 (by norm_num), hint 2 2 (by norm_num),
    hint 4 4 (by norm_num), hint 8 4 (by norm_num), hnat 60 4 (by norm_num),
    hnat 64 4 (by norm_num), hnat 68 4 (by norm_num)]

end Inode

/-! ## Inodes on the disk -/

/-- `read_disk(inode, sizeof(Inode), 1, offset)`. All bytes of the union are overwritten. -/
def loadInode (d : Disk) (offset : ℕ) : Inode :=
  Inode.decode (readDisk d (fun _ => 0) inodeSize 1 offset)

/-- `write_disk(inode, sizeof(Inode), 1, offset)` -/
def storeInode (d : Disk) (ino : Inode) (offset : ℕ) : Disk :=
  writeDisk d ino.encode inodeSize 1 offset

theorem loadInode_eq (d : Disk) (offset : ℕ) :
    loadInode d offset = Inode.decode (window d offset) := by
  rw [loadInode, readDisk_eq]
  exact Inode.decode_congr fun p hp => patch_zero_apply (by simpa using hp)

theorem storeInode_eq (d : Disk) (ino : Inode) (offset : ℕ) :
    storeInode d ino offset = patch d offset 128 ino.encode := by
  rw [storeInode, writeDisk_eq, inodeSize, Nat.mul_one]

theorem loadInode_fits (d : Disk) (offset : ℕ) : (loadInode d offset).Fits := by
  rw [loadInode_eq]
  exact Inode.decode_fits _

theorem loadInode_congr {d d' : Disk} {offset : ℕ} (h : Agree d d' offset 128) :
    loadInode d' offset = loadInode d offset := by
  rw [loadInode_eq, loadInode_eq]
  exact Inode.decode_congr fun p hp => h.window_eq hp

theorem loadInode_storeInode_eq (d : Disk) (ino : Inode) (offset : ℕ) :
    loadInode (storeInode d ino offset) offset = Inode.decode ino.encode := by
  rw [loadInode_eq, storeInode_eq]
  exact Inode.decode_congr fun p hp => patch_apply_add hp

/-- The inode read at the place where one was just written. -/
theorem loadInode_storeInode {d : Disk} {ino : Inode} {offset : ℕ} (h : ino.Fits) :
    loadInode (storeInode d ino offset) offset = ino := by
  rw [loadInode_storeInode_eq, Inode.decode_encode h]

theorem storeInode_loadInode (d : Disk) (offset : ℕ) : storeInode d (loadInode d offset) offset = d := by
  funext p
  rw [storeInode_eq, patch]
  split_ifs with hp
  · rw [loadInode_eq, Inode.encode_decode _ (by omega), window, Nat.add_sub_cancel' hp.1]
  · rfl

theorem blockCount_loadInode_storeInode {d : Disk} {ino : Inode} {offset : ℕ}
    (h : FitsInt 4 ino.blockCount) :
    (loadInode (storeInode d ino offset) offset).blockCount = ino.blockCount := by
  rw [loadInode_storeInode_eq, Inode.blockCount_decode_encode h]

end SeL4Sys

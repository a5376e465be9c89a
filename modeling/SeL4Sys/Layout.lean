import SeL4Sys.Geometry
import Mathlib.Tactic.NormNum

/-!
# Where everything is

With `SECTORS_PER_BLOCK` sectors per block the header of a group and its body have fixed
shapes, and every piece of metadata or data is a `Region` of the device: a window at a
known byte offset. `Region.disjoint` is the fact about the layout that everything else
rests on: distinct regions do not overlap, whatever the number of groups.

`Formatted` says that the mounted super block and descriptors are those of such a layout.
-/

namespace SeL4Sys

open Bytes

variable {S : ℕ}

/-- The number of groups on a disk of `S` sectors. -/
def groups (S : ℕ) : ℕ := calGroupNum S sectorsPerBlock

/-- The blocks of the descriptor table. -/
def descBlocks (S : ℕ) : ℕ := groupDescBlocks (groups S) sectorsPerBlock

/-- The sectors of a full group. -/
def fullSectors (S : ℕ) : ℕ := 18438 + 2 * descBlocks S

/-- The first sector of group `i`. -/
def base (S i : ℕ) : ℕ := i * fullSectors S

/-- The number of data blocks of group `i`. -/
def blocksOf (S i : ℕ) : ℕ := calBlocksPerGroup S sectorsPerBlock (groups S) i

/-- The number of inodes of group `i`. -/
def inodesOf (S i : ℕ) : ℕ := calInodesPerGroup S sectorsPerBlock (groups S) i

/-- The first sector of the inode bitmap of group `i`. -/
def inodeBitmapSector (S i : ℕ) : ℕ := base S i + 2 + 2 * descBlocks S

/-- The first sector of the block bitmap of group `i`. -/
def blockBitmapSector (S i : ℕ) : ℕ := base S i + 4 + 2 * descBlocks S

/-- The first sector of the inode table of group `i`. -/
def tableSector (S i : ℕ) : ℕ := base S i + 6 + 2 * descBlocks S

/-- The first sector of data block `n` of group `i`. -/
def dataSector (S i n : ℕ) : ℕ := tableSector S i + 2048 + 2 * n

/-- The byte offset of inode `n` of group `i`. -/
def slotOffset (S i n : ℕ) : ℕ := tableSector S i * 512 + 128 * n

/-! ## Sizes -/

theorem descBlocks_eq (S : ℕ) : descBlocks S = (groups S * 32 + 1023) / 1024 := by
  simp only [descBlocks, groupDescBlocks, groupDescSize, sectorSize, sectorsPerBlock]
  omega

theorem header_eq (S : ℕ) :
    groupHeaderSectors (descBlocks S) sectorsPerBlock = 6 + 2 * descBlocks S := by
  simp only [groupHeaderSectors, superBlockSize, sectorSize, sectorsPerBlock]
  omega

theorem header_add_body (S : ℕ) :
    groupHeaderSectors (descBlocks S) sectorsPerBlock + groupBodySectors sectorsPerBlock
      = fullSectors S := by
  rw [header_eq, fullSectors]
  simp only [groupBodySectors, inodeSize, sectorSize, sectorsPerBlock]
  omega

theorem blocksOf_eq (S i : ℕ) :
    blocksOf S i =
      if i + 1 < groups S then 8192
      else if i + 1 = groups S then
        if 6 + 2 * descBlocks S ≤ S % fullSectors S then
          if 2048 ≤ S % fullSectors S - (6 + 2 * descBlocks S) then
            (S % fullSectors S - (6 + 2 * descBlocks S) - 2048) / 2
          else 0
        else 8192
      else 0 := by
  rw [blocksOf, calBlocksPerGroup, ← descBlocks, header_add_body, header_eq]
  simp only [sectorSize, sectorsPerBlock, inodeSize, Nat.reduceMul]

theorem inodesOf_eq (S i : ℕ) :
    inodesOf S i =
      if i + 1 < groups S then 8192
      else if i + 1 = groups S then
        if 6 + 2 * descBlocks S ≤ S % fullSectors S then
          if 2048 ≤ S % fullSectors S - (6 + 2 * descBlocks S) then 8192
          else (S % fullSectors S - (6 + 2 * descBlocks S)) / 2 * 2 * 512 / 128
        else 8192
      else 0 := by
  rw [inodesOf, calInodesPerGroup, ← descBlocks, header_add_body, header_eq]
  simp only [sectorSize, sectorsPerBlock, inodeSize, Nat.reduceMul]

theorem groupSize_eq (S : ℕ) :
    calGroupSize S sectorsPerBlock (groups S) 0 =
      if 1 < groups S then fullSectors S
      else if 1 = groups S then
        if 6 + 2 * descBlocks S ≤ S % fullSectors S then S % fullSectors S else fullSectors S
      else 0 := by
  rw [calGroupSize, ← descBlocks, header_add_body, header_eq]

theorem fullSectors_pos (S : ℕ) : 0 < fullSectors S := by
  unfold fullSectors
  omega

/-- A bitmap block has room for a bit for every data block. -/
theorem blocksOf_le (S i : ℕ) : blocksOf S i ≤ 8192 := by
  have hlt : S % fullSectors S < fullSectors S := Nat.mod_lt _ (fullSectors_pos S)
  rw [blocksOf_eq]
  unfold fullSectors at *
  split_ifs <;> omega

/-- A bitmap block has room for a bit for every inode, and the inode table for every inode. -/
theorem inodesOf_le (S i : ℕ) : inodesOf S i ≤ 8192 := by
  rw [inodesOf_eq]
  split_ifs <;> omega

/-- The descriptors fit into the blocks reserved for them. -/
theorem descs_fit (S : ℕ) : 32 * groups S ≤ 1024 * descBlocks S := by
  rw [descBlocks_eq]
  omega

theorem base_zero (S : ℕ) : base S 0 = 0 := by rw [base, Nat.zero_mul]

theorem base_add_le {i j : ℕ} (h : i < j) : base S i + fullSectors S ≤ base S j := by
  unfold base
  calc i * fullSectors S + fullSectors S = (i + 1) * fullSectors S := by ring
    _ ≤ j * fullSectors S := Nat.mul_le_mul_right _ h

/-- The groups are where `initGroupHeader` counts them: its stride is the full group size
whenever there is a second group. -/
theorem stride_eq {i : ℕ} (h : i < groups S) :
    i * calGroupSize S sectorsPerBlock (groups S) 0 = base S i := by
  unfold base
  by_cases hone : 1 < groups S
  · rw [groupSize_eq, if_pos hone]
  · have hi : i = 0 := by omega
    rw [hi, Nat.zero_mul, Nat.zero_mul]

/-- The division by which the group of a sector is found, `k` sectors behind the inode table of the group. -/
theorem tableSector_add_div {i k : ℕ} (hi : i < groups S)
    (hk : 6 + 2 * descBlocks S + k < calGroupSize S sectorsPerBlock (groups S) 0) :
    (tableSector S i + k) / calGroupSize S sectorsPerBlock (groups S) 0 = i := by
  have hin : tableSector S i + k
      = calGroupSize S sectorsPerBlock (groups S) 0 * i + (6 + 2 * descBlocks S + k) := by
    rw [tableSector, ← stride_eq hi]
    ring
  rw [hin, Nat.mul_add_div (by omega), Nat.div_eq_of_lt hk, Nat.add_zero]

/-- The division by which `setAllocBlock` finds the group of a block. -/
theorem dataSector_div {i n : ℕ} (hi : i < groups S) (hn : n < blocksOf S i) :
    dataSector S i n / calGroupSize S sectorsPerBlock (groups S) 0 = i := by
  have hn' := lt_of_lt_of_le hn (blocksOf_le S i)
  rw [dataSector, Nat.add_assoc]
  apply tableSector_add_div hi
  rw [blocksOf_eq] at hn
  rw [groupSize_eq]
  unfold fullSectors at *
  split_ifs at hn ⊢ <;> omega

/-- The division by which `setAllocInode` finds the group of an inode. -/
theorem slotOffset_div {i n : ℕ} (hi : i < groups S) (hn : n < inodesOf S i) :
    slotOffset S i n / 512 / calGroupSize S sectorsPerBlock (groups S) 0 = i := by
  have hn' := lt_of_lt_of_le hn (inodesOf_le S i)
  have hsec : slotOffset S i n / 512 = tableSector S i + n / 4 := by
    unfold slotOffset
    omega
  rw [hsec]
  apply tableSector_add_div hi
  rw [inodesOf_eq] at hn
  rw [groupSize_eq]
  unfold fullSectors at *
  split_ifs at hn ⊢ <;> omega

/-! ## Regions -/

/-- The pieces of the device that the file system addresses. -/
inductive Region
  | super
  | descs
  | inodeBitmap (i : ℕ)
  | blockBitmap (i : ℕ)
  | inode (i n : ℕ)
  | data (i n : ℕ)
deriving DecidableEq

namespace Region

/-- The regions that exist on a disk of `S` sectors. -/
def Valid (S : ℕ) : Region → Prop
  | super => True
  | descs => True
  | inodeBitmap i => i < groups S
  | blockBitmap i => i < groups S
  | inode i n => i < groups S ∧ n < inodesOf S i
  | data i n => i < groups S ∧ n < blocksOf S i

/-- The group a region belongs to; the header in use is that of group 0. -/
def group : Region → ℕ
  | super => 0
  | descs => 0
  | inodeBitmap i => i
  | blockBitmap i => i
  | inode i _ => i
  | data i _ => i

/-- The byte offset of a region inside its group. -/
def rel (S : ℕ) : Region → ℕ
  | super => 0
  | descs => 1024
  | inodeBitmap _ => (2 + 2 * descBlocks S) * 512
  | blockBitmap _ => (4 + 2 * descBlocks S) * 512
  | inode _ n => (6 + 2 * descBlocks S) * 512 + 128 * n
  | data _ n => (6 + 2 * descBlocks S + 2048 + 2 * n) * 512

/-- The byte offset of a region on the device. -/
def off (S : ℕ) (r : Region) : ℕ := base S r.group * 512 + r.rel S

/-- The length of a region in bytes. -/
def len (S : ℕ) : Region → ℕ
  | super => 1024
  | descs => 32 * groups S
  | inodeBitmap _ => 1024
  | blockBitmap _ => 1024
  | inode _ _ => 128
  | data _ _ => 1024

theorem rel_add_len_le {r : Region} (h : r.Valid S) :
    r.rel S + r.len S ≤ fullSectors S * 512 := by
  have hd := descs_fit S
  unfold fullSectors
  cases r with
  | super => simp only [rel, len]; omega
  | descs => simp only [rel, len]; omega
  | inodeBitmap i => simp only [rel, len]; omega
  | blockBitmap i => simp only [rel, len]; omega
  | inode i n =>
    have hn := inodesOf_le S i
    have := h.2
    simp only [rel, len]
    omega
  | data i n =>
    have hn := blocksOf_le S i
    have := h.2
    simp only [rel, len]
    omega

/-- Inside one group the regions follow one another. -/
theorem disjoint_of_group {r r' : Region} (h : r.Valid S) (h' : r'.Valid S) (hne : r ≠ r')
    (hg : r.group = r'.group) :
    r.rel S + r.len S ≤ r'.rel S ∨ r'.rel S + r'.len S ≤ r.rel S := by
  have hd := descs_fit S
  have hbound : ∀ {q : Region}, q.Valid S → ∀ i n, q = inode i n → n < 8192 := by
    rintro q hq i n rfl
    exact lt_of_lt_of_le hq.2 (inodesOf_le S i)
  cases r <;> cases r' <;> simp only [group] at hg <;> (try subst hg) <;>
    simp only [rel, len] <;> simp only [ne_eq, reduceCtorEq, not_false_eq_true, not_true_eq_false,
      inode.injEq, data.injEq, true_and] at hne <;> first
    | omega
    | (have hn := hbound h _ _ rfl; omega)
    | (have hn := hbound h' _ _ rfl; omega)

/-- Distinct regions do not overlap. -/
theorem disjoint {r r' : Region} (h : r.Valid S) (h' : r'.Valid S) (hne : r ≠ r') :
    r.off S + r.len S ≤ r'.off S ∨ r'.off S + r'.len S ≤ r.off S := by
  have hle := rel_add_len_le h
  have hle' := rel_add_len_le h'
  unfold off
  rcases lt_trichotomy r.group r'.group with hlt | heq | hgt
  · have := base_add_le (S := S) hlt
    omega
  · have := disjoint_of_group h h' hne heq
    rw [heq]
    omega
  · have := base_add_le (S := S) hgt
    omega

/-- Overwriting a region leaves the others alone. -/
theorem agree_patch {r r' : Region} {m b : Buf} (h : r.Valid S) (h' : r'.Valid S) (hne : r ≠ r') :
    Agree m (patch m (r.off S) (r.len S) b) (r'.off S) (r'.len S) :=
  Bytes.agree_patch ((disjoint h h' hne).symm)

theorem off_super (S : ℕ) : super.off S = 0 := by
  rw [off, group, rel, base_zero]

theorem off_descs (S : ℕ) : descs.off S = 1024 := by
  rw [off, group, rel, base_zero, Nat.zero_mul, Nat.zero_add]

theorem off_inodeBitmap (S i : ℕ) :
    (inodeBitmap i).off S = inodeBitmapSector S i * 512 := by
  rw [off, group, rel, inodeBitmapSector]
  ring

theorem off_blockBitmap (S i : ℕ) :
    (blockBitmap i).off S = blockBitmapSector S i * 512 := by
  rw [off, group, rel, blockBitmapSector]
  ring

theorem off_inode (S i n : ℕ) : (inode i n).off S = slotOffset S i n := by
  rw [off, group, rel, slotOffset, tableSector]
  ring

theorem off_data (S i n : ℕ) : (data i n).off S = dataSector S i n * 512 := by
  rw [off, group, rel, dataSector, tableSector]
  ring

end Region

/-! ## Data blocks and inode slots -/

/-- `b` is the first sector of a data block. -/
def IsData (S b : ℕ) : Prop := ∃ i n, i < groups S ∧ n < blocksOf S i ∧ b = dataSector S i n

/-- `o` is the byte offset of an inode. -/
def IsSlot (S o : ℕ) : Prop := ∃ i n, i < groups S ∧ n < inodesOf S i ∧ o = slotOffset S i n

theorem dataSector_inj {i n i' n' : ℕ} (hi : i < groups S) (hn : n < blocksOf S i)
    (hi' : i' < groups S) (hn' : n' < blocksOf S i')
    (h : dataSector S i n = dataSector S i' n') : i = i' ∧ n = n' := by
  by_contra hne
  have hr : Region.data i n ≠ Region.data i' n' := by
    intro heq
    rw [Region.data.injEq] at heq
    exact hne heq
  have hv : (Region.data i n).Valid S := ⟨hi, hn⟩
  have hv' : (Region.data i' n').Valid S := ⟨hi', hn'⟩
  have hd := Region.disjoint hv hv' hr
  rw [Region.off_data, Region.off_data, h] at hd
  simp only [Region.len] at hd
  omega

theorem slotOffset_inj {i n i' n' : ℕ} (hi : i < groups S) (hn : n < inodesOf S i)
    (hi' : i' < groups S) (hn' : n' < inodesOf S i')
    (h : slotOffset S i n = slotOffset S i' n') : i = i' ∧ n = n' := by
  by_contra hne
  have hr : Region.inode i n ≠ Region.inode i' n' := by
    intro heq
    rw [Region.inode.injEq] at heq
    exact hne heq
  have hv : (Region.inode i n).Valid S := ⟨hi, hn⟩
  have hv' : (Region.inode i' n').Valid S := ⟨hi', hn'⟩
  have hd := Region.disjoint hv hv' hr
  rw [Region.off_inode, Region.off_inode, h] at hd
  simp only [Region.len] at hd
  omega

/-- A data block as a region. -/
theorem IsData.region {b : ℕ} (h : IsData S b) :
    ∃ i n, (Region.data i n).Valid S ∧ (Region.data i n).off S = b * 512 := by
  obtain ⟨i, n, hi, hn, rfl⟩ := h
  exact ⟨i, n, ⟨hi, hn⟩, Region.off_data S i n⟩

/-- A write to a data block leaves the other data blocks alone. -/
theorem IsData.agree_data {b b' : ℕ} {d : Disk} {buf : Buf} (h : IsData S b) (h' : IsData S b')
    (hne : b ≠ b') : Agree d (patch d (b * 512) 1024 buf) (b' * 512) 1024 := by
  obtain ⟨i, n, hv, ho⟩ := h.region
  obtain ⟨i', n', hv', ho'⟩ := h'.region
  have hr : Region.data i n ≠ Region.data i' n' := by
    intro heq
    rw [heq, ho'] at ho
    omega
  have := Region.agree_patch (m := d) (b := buf) hv hv' hr
  rwa [ho, ho'] at this

/-! ## How large things get -/

theorem groups_le (S : ℕ) : groups S ≤ S / 18440 + 1 := by
  have hloop : ∀ fuel d g, 1 ≤ d → calGroupNumLoop S sectorsPerBlock fuel d = some g →
      g ≤ S / 18440 + 1 := by
    intro fuel
    induction fuel with
    | zero =>
      intro d g _ h
      cases h
    | succ fuel ih =>
      intro d g hd h
      rw [calGroupNumLoop] at h
      have hden : superBlockSize / sectorSize + d * sectorsPerBlock
          + (1 + 1 + inodeSize * 8) * sectorsPerBlock
          + sectorSize * sectorsPerBlock * 8 * sectorsPerBlock = 18438 + 2 * d := by
        simp only [superBlockSize, sectorSize, sectorsPerBlock, inodeSize]
        omega
      rw [hden] at h
      have hq : S / (18438 + 2 * d) ≤ S / 18440 := Nat.div_le_div_left (by omega) (by omega)
      split_ifs at h
      · injection h; omega
      · injection h; omega
      · injection h; omega
      · injection h; omega
      · exact ih (d + 1) g (by omega) h
  exact hloop _ 1 _ le_rfl (calGroupNum_eq (by norm_num))

/-- `sBlock` and `gDesc` describe a layout with blocks of `BLOCK_SIZE` bytes on a disk whose
byte offsets fit into an `int`. -/
structure Formatted (s : FS) : Prop where
  blockSize : s.superBlock.blockSize = 1024
  groups_pos : 1 ≤ groups s.superBlock.sectorNum
  addressable : s.superBlock.sectorNum * 512 ≤ 2 ^ 31
  inodeBitmap : ∀ i, i < groups s.superBlock.sectorNum →
    (s.groupDesc i).inodeBitmap = inodeBitmapSector s.superBlock.sectorNum i
  blockBitmap : ∀ i, i < groups s.superBlock.sectorNum →
    (s.groupDesc i).blockBitmap = blockBitmapSector s.superBlock.sectorNum i
  inodeTable : ∀ i, i < groups s.superBlock.sectorNum →
    (s.groupDesc i).inodeTable = tableSector s.superBlock.sectorNum i

theorem tableSector_lt {i : ℕ} (hS : S * 512 ≤ 2 ^ 31) (hi : i < groups S) : tableSector S i < 2 ^ 22 := by
  have hg := groups_le S
  have hD : descBlocks S ≤ 8 := by rw [descBlocks_eq]; omega
  have hb : base S i ≤ 227 * fullSectors S := Nat.mul_le_mul_right _ (by omega)
  unfold tableSector
  unfold fullSectors at hb
  omega

/-- The disk ends before sector `2 ^ 23`. -/
theorem IsData.lt_sectors {b : ℕ} (hS : S * 512 ≤ 2 ^ 31) (h : IsData S b) : b < 2 ^ 23 := by
  obtain ⟨i, n, hi, hn, rfl⟩ := h
  have htable := tableSector_lt hS hi
  have hn' := blocksOf_le S i
  unfold dataSector
  omega

/-- The sector of a data block fits into a pointer. -/
theorem IsData.lt {b : ℕ} (hS : S * 512 ≤ 2 ^ 31) (h : IsData S b) : b < 256 ^ 4 :=
  (h.lt_sectors hS).trans (by norm_num)

/-- The byte offset of an inode fits into a directory entry. -/
theorem IsSlot.lt {o : ℕ} (hS : S * 512 ≤ 2 ^ 31) (h : IsSlot S o) : o < 256 ^ 4 := by
  obtain ⟨i, n, hi, hn, rfl⟩ := h
  have htable := tableSector_lt hS hi
  have hn' := inodesOf_le S i
  unfold slotOffset
  omega

theorem IsSlot.pos {o : ℕ} (h : IsSlot S o) : 0 < o := by
  obtain ⟨i, n, _, _, rfl⟩ := h
  unfold slotOffset tableSector
  omega

/-! ## A small disk

One group with 8192 inodes and 25 data blocks: its block bitmap is at byte 3072, its inode
table at byte 4096 and its data blocks start at sector 2056. -/

/-- The small disk with content `d` and free counters as given. -/
def smallFS (d : Disk) (availInodeNum availBlockNum : ℤ) : FS where
  disk := d
  superBlock :=
    { sectorNum := 2106
      inodeNum := 8192
      blockNum := 25
      availInodeNum := availInodeNum
      availBlockNum := availBlockNum
      blockSize := 1024
      inodesPerGroup := 8192
      blocksPerGroup := 8192
      pad := fun _ => 0 }
  groupDesc := fun _ =>
    { inodeBitmap := 4
      blockBitmap := 6
      inodeTable := 8
      availInodeNum := availInodeNum
      availBlockNum := availBlockNum
      pad := fun _ => 0 }

/-- A regular file without blocks. -/
def Files.emptyFile : Inode :=
  { type := 1, linkCount := 1, blockCount := 0, size := 0, pointer := fun _ => 0,
    singlyPointer := 0, doublyPointer := 0, triplyPointer := 0, pad := fun _ => 0 }

theorem Files.emptyFile_fits : Files.emptyFile.Fits := by
  constructor <;> simp [Files.emptyFile, FitsInt]

theorem groups_small : groups 2106 = 1 := by decide

theorem descBlocks_small : descBlocks 2106 = 1 := by rw [descBlocks_eq, groups_small]

theorem blocksOf_small : blocksOf 2106 0 = 25 := by
  rw [blocksOf_eq, fullSectors, descBlocks_small, groups_small]
  decide

theorem inodesOf_small : inodesOf 2106 0 = 8192 := by
  rw [inodesOf_eq, fullSectors, descBlocks_small, groups_small]
  decide

theorem smallFS_formatted (d : Disk) (availInodeNum availBlockNum : ℤ) :
    Formatted (smallFS d availInodeNum availBlockNum) where
  blockSize := rfl
  groups_pos := by
    change 1 ≤ groups 2106
    rw [groups_small]
  addressable := by
    change 2106 * 512 ≤ 2 ^ 31
    norm_num
  inodeBitmap := fun i hi => by
    change i < groups 2106 at hi
    change 4 = inodeBitmapSector 2106 i
    rw [groups_small] at hi
    rw [inodeBitmapSector, descBlocks_small, show i = 0 by omega, base_zero]
  blockBitmap := fun i hi => by
    change i < groups 2106 at hi
    change 6 = blockBitmapSector 2106 i
    rw [groups_small] at hi
    rw [blockBitmapSector, descBlocks_small, show i = 0 by omega, base_zero]
  inodeTable := fun i hi => by
    change i < groups 2106 at hi
    change 8 = tableSector 2106 i
    rw [groups_small] at hi
    rw [tableSector, descBlocks_small, show i = 0 by omega, base_zero]

end SeL4Sys

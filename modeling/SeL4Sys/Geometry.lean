import SeL4Sys.Records
import Mathlib.Algebra.BigOperators.Group.Finset.Basic

/-!
# Block groups

The functions of `ext.c` that divide the disk into groups, and the header that
`initGroupHeader` lays out for them. All sizes are in sectors unless a name says otherwise.
Every group starts with a copy of the super block and of the descriptor table, followed by
one block of inode bitmap, one of block bitmap, the inode table and the data blocks.
-/

namespace SeL4Sys

open Bytes

/-- `SECTORS_PER_BLOCK` -/
@[simp] abbrev sectorsPerBlock : ℕ := 2

/-- `sizeof(SuperBlock)` -/
@[simp] abbrev superBlockSize : ℕ := 1024

/-- `sizeof(GroupDesc)` -/
@[simp] abbrev groupDescSize : ℕ := 32

/-- The sectors before the inode table of a group with a table of `descBlocks` blocks. -/
def groupHeaderSectors (descBlocks spb : ℕ) : ℕ :=
  superBlockSize / sectorSize + (descBlocks + 1 + 1) * spb

/-- Inode table and data blocks of a full group. -/
def groupBodySectors (spb : ℕ) : ℕ := inodeSize * 8 * spb + sectorSize * spb * 8 * spb

/-- The blocks that the descriptors of `groupNum` groups take. -/
def groupDescBlocks (groupNum spb : ℕ) : ℕ :=
  (groupNum * groupDescSize + sectorSize * spb - 1) / (sectorSize * spb)

/-- The search of `calGroupNum` for a descriptor table large enough for the groups that
fit beside it; the first argument bounds the number of rounds. -/
def calGroupNumLoop (sectorNum spb : ℕ) : ℕ → ℕ → Option ℕ
  | 0, _ => none
  | fuel + 1, descBlocks =>
    let groupSectors := superBlockSize / sectorSize + descBlocks * spb
      + (1 + 1 + inodeSize * 8) * spb + sectorSize * spb * 8 * spb
    let quotient := sectorNum / groupSectors
    let remainder := sectorNum % groupSectors
    let groupNum := sectorSize / groupDescSize * descBlocks * spb
    if quotient = 0 ∧ remainder < groupHeaderSectors descBlocks spb then some 0
    else if quotient = 0 ∧ groupHeaderSectors descBlocks spb ≤ remainder then some 1
    else if quotient ≤ groupNum ∧ remainder < groupHeaderSectors descBlocks spb then
      some quotient
    else if quotient < groupNum ∧ groupHeaderSectors descBlocks spb ≤ remainder then
      some (quotient + 1)
    -- the two tests left, `quotient == groupNum` with a header's worth of sectors over and
    -- `quotient > groupNum`, both enlarge the table
    else calGroupNumLoop sectorNum spb fuel (descBlocks + 1)

/-- `calGroupNum`, for a positive block size. `calGroupNumLoop_isSome` shows that the
rounds granted here are enough. -/
def calGroupNum (sectorNum spb : ℕ) : ℕ := (calGroupNumLoop sectorNum spb (sectorNum + 1) 1).getD 0

/-- `calGroupSize` -/
def calGroupSize (sectorNum spb groupNum index : ℕ) : ℕ :=
  let header := groupHeaderSectors (groupDescBlocks groupNum spb) spb
  let remainder := sectorNum % (header + groupBodySectors spb)
  if index + 1 < groupNum then header + groupBodySectors spb
  else if index + 1 = groupNum then
    if header ≤ remainder then remainder else header + groupBodySectors spb
  else 0

/-- `calInodesPerGroup` -/
def calInodesPerGroup (sectorNum spb groupNum index : ℕ) : ℕ :=
  let header := groupHeaderSectors (groupDescBlocks groupNum spb) spb
  let remainder := sectorNum % (header + groupBodySectors spb)
  if index + 1 < groupNum then sectorSize * spb * 8
  else if index + 1 = groupNum then
    if header ≤ remainder then
      if inodeSize * 8 * spb ≤ remainder - header then sectorSize * spb * 8
      else (remainder - header) / spb * spb * sectorSize / inodeSize
    else sectorSize * spb * 8
  else 0

/-- `calBlocksPerGroup` -/
def calBlocksPerGroup (sectorNum spb groupNum index : ℕ) : ℕ :=
  let header := groupHeaderSectors (groupDescBlocks groupNum spb) spb
  let remainder := sectorNum % (header + groupBodySectors spb)
  if index + 1 < groupNum then sectorSize * spb * 8
  else if index + 1 = groupNum then
    if header ≤ remainder then
      if inodeSize * 8 * spb ≤ remainder - header then
        (remainder - header - inodeSize * 8 * spb) / spb
      else 0
    else sectorSize * spb * 8
  else 0

/-- The mounted file system: `sBlock`, `gDesc` and the device. -/
structure FS where
  disk : Disk
  superBlock : SuperBlock
  groupDesc : ℕ → GroupDesc

/-- The write-back of the header that ends every allocator function: `sBlock` at the start
of the device and the descriptors after it. The copies in the other groups are left as
they are. -/
def FS.writeHeader (s : FS) (groupNum : ℕ) : Disk :=
  let d := writeDisk s.disk s.superBlock.encode superBlockSize 1 0
  writeDisk d (encodeDescs s.groupDesc) groupDescSize groupNum superBlockSize

/-- `initGroupHeader`; `none` is the return value `-1`. -/
def initGroupHeader (s : FS) (sectorNum spb : ℕ) : Option FS :=
  let groupNum := calGroupNum sectorNum spb
  if groupNum = 0 then none
  else
    let descBlocks := groupDescBlocks groupNum spb
    let groupSize := calGroupSize sectorNum spb groupNum 0
    let inodesPerGroup := calInodesPerGroup sectorNum spb groupNum
    let blocksPerGroup := calBlocksPerGroup sectorNum spb groupNum
    let inodeNum : ℕ := ∑ i ∈ Finset.range groupNum, inodesPerGroup i
    let blockNum : ℕ := ∑ i ∈ Finset.range groupNum, blocksPerGroup i
    let groupDesc : ℕ → GroupDesc := fun i =>
      if i < groupNum then
        { s.groupDesc i with
          availInodeNum := inodesPerGroup i
          availBlockNum := blocksPerGroup i
          inodeBitmap := i * groupSize + (superBlockSize / sectorSize + descBlocks * spb)
          blockBitmap := i * groupSize + (superBlockSize / sectorSize + (descBlocks + 1) * spb)
          inodeTable := i * groupSize + (superBlockSize / sectorSize + (descBlocks + 1 + 1) * spb) }
      else s.groupDesc i
    let superBlock : SuperBlock :=
      { s.superBlock with
        sectorNum := sectorNum
        inodeNum := inodeNum
        blockNum := blockNum
        availInodeNum := inodeNum
        availBlockNum := blockNum
        blockSize := sectorSize * spb
        inodesPerGroup := sectorSize * spb * 8
        blocksPerGroup := sectorSize * spb * 8 }
    let copies := (List.range groupNum).foldl (fun d i =>
      let d := writeDisk d superBlock.encode superBlockSize 1 (i * groupSize * sectorSize)
      writeDisk d (encodeDescs groupDesc) groupDescSize groupNum
        (i * groupSize * sectorSize + superBlockSize * 1)) s.disk
    some ⟨copies, superBlock, groupDesc⟩

/-! ## The search for the number of groups -/

/-- With a positive block size the table catches up with the groups before the rounds run
out: round `descBlocks` only fails while at least `descBlocks` groups fit on the disk. -/
theorem calGroupNumLoop_isSome (sectorNum : ℕ) {spb : ℕ} (hspb : 1 ≤ spb) :
    ∀ fuel descBlocks, sectorNum + 2 ≤ fuel + descBlocks → 1 ≤ descBlocks →
      (calGroupNumLoop sectorNum spb fuel descBlocks).isSome = true
      ∨ fuel = 0 ∧ sectorNum < descBlocks := by
  intro fuel
  induction fuel with
  | zero =>
    intro descBlocks h _
    exact Or.inr ⟨rfl, by omega⟩
  | succ fuel ih =>
    intro descBlocks h hd
    left
    rw [calGroupNumLoop]
    split_ifs with h1 h2 h3 h4
    · rfl
    · rfl
    · rfl
    · rfl
    · -- the groups that fit already outnumber the table's entries
      set G := superBlockSize / sectorSize + descBlocks * spb
        + (1 + 1 + inodeSize * 8) * spb + sectorSize * spb * 8 * spb with hG
      have hGpos : 1 ≤ G := by rw [hG]; simp only [superBlockSize, sectorSize]; omega
      have hq : descBlocks ≤ sectorNum / G := by
        have hcap : descBlocks ≤ sectorSize / groupDescSize * descBlocks * spb := by
          simp only [sectorSize, groupDescSize]
          nlinarith
        by_contra hlt
        have hle : sectorNum / G < sectorSize / groupDescSize * descBlocks * spb := by omega
        by_cases hr : sectorNum % G < groupHeaderSectors descBlocks spb
        · exact h3 ⟨hle.le, hr⟩
        · exact h4 ⟨hle, by omega⟩
      have hs : descBlocks ≤ sectorNum := hq.trans (Nat.div_le_self _ _)
      rcases ih (descBlocks + 1) (by omega) (by omega) with hsome | ⟨hzero, hlt⟩
      · exact hsome
      · omega

/-- `calGroupNum` returns for every positive block size. -/
theorem calGroupNum_eq {sectorNum spb : ℕ} (hspb : 1 ≤ spb) :
    calGroupNumLoop sectorNum spb (sectorNum + 1) 1 = some (calGroupNum sectorNum spb) := by
  rcases calGroupNumLoop_isSome sectorNum hspb (sectorNum + 1) 1 (by omega) (by omega) with h | ⟨h, _⟩
  · rw [calGroupNum]
    obtain ⟨g, hg⟩ := Option.isSome_iff_exists.mp h
    rw [hg, Option.getD_some]
  · omega

end SeL4Sys

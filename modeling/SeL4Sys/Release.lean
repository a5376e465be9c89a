import SeL4Sys.Mount

/-!
# Release after allocation

`getAvailBlock` makes a sector number out of a group and a bit, `getAvailInode` a byte offset, and
`setAllocBlock` and `setAllocInode` find the group and the bit again, with other units and by a division by
the size of group 0. The two agree on every layout of `initGroupHeader`, so releasing what has just been
taken restores the super block, the descriptors and the bitmap.

The addresses are natural numbers here, which they are as long as nothing overflows in 32 bits.
-/

namespace SeL4Sys

open Bytes Bitmap

/-! ## Addresses -/

section
variable (s : FS) (i n : ℕ)

/-- `*blockOffset` for bit `n` of group `i`. -/
def blockAddress : ℕ :=
  (s.groupDesc i).inodeTable + (inodeSize * 8 * s.superBlock.blockSize / sectorSize
    + n * s.superBlock.blockSize / sectorSize)

/-- `*inodeOffset` for bit `n` of group `i`. -/
def inodeAddress : ℕ := (s.groupDesc i).inodeTable * sectorSize + n * inodeSize

/-- The group, the byte and the bit that `setAllocBlock` computes. -/
def decodeBlock (blockOffset : ℕ) : ℕ × ℕ × ℕ :=
  let i := blockOffset / s.groupSize
  (i, blockIndex s i blockOffset / 8, blockIndex s i blockOffset % 8)

/-- The group, the byte and the bit that `setAllocInode` computes. -/
def decodeInode (inodeOffset : ℕ) : ℕ × ℕ × ℕ :=
  let i := inodeOffset / sectorSize / s.groupSize
  (i, inodeIndex s i inodeOffset / 8, inodeIndex s i inodeOffset % 8)

theorem setAllocBlock_eq_decode (blockOffset : ℕ) : setAllocBlock s blockOffset
    = setAlloc .block s (decodeBlock s blockOffset).1 (decodeBlock s blockOffset).2.1
        (decodeBlock s blockOffset).2.2 := rfl

theorem setAllocInode_eq_decode (inodeOffset : ℕ) : setAllocInode s inodeOffset
    = setAlloc .inode s (decodeInode s inodeOffset).1 (decodeInode s inodeOffset).2.1
        (decodeInode s inodeOffset).2.2 := rfl

end

/-! ## The layout of `initGroupHeader` -/

/-- The layout of the disk is that of `s₁`; the counters and what is on the disk may be others. -/
structure SameGeometry (s₁ s : FS) : Prop where
  sectorNum : s.superBlock.sectorNum = s₁.superBlock.sectorNum
  blockSize : s.superBlock.blockSize = s₁.superBlock.blockSize
  inodeBitmap : ∀ i, i < s₁.groupNum → (s.groupDesc i).inodeBitmap = (s₁.groupDesc i).inodeBitmap
  blockBitmap : ∀ i, i < s₁.groupNum → (s.groupDesc i).blockBitmap = (s₁.groupDesc i).blockBitmap
  inodeTable : ∀ i, i < s₁.groupNum → (s.groupDesc i).inodeTable = (s₁.groupDesc i).inodeTable

/-- What is used of the layout: blocks of `BLOCK_SIZE` bytes, and an inode table behind every header. -/
structure LaidOut (S : ℕ) (s : FS) : Prop where
  sectorNum : s.superBlock.sectorNum = S
  blockSize : s.superBlock.blockSize = 1024
  inodeTable : ∀ i, i < groups S → (s.groupDesc i).inodeTable = tableSector S i

section layout
variable {S i n : ℕ} {s₀ s₁ s : FS} {p : Pool}

theorem SameGeometry.laidOut (hinit : initGroupHeader s₀ S sectorsPerBlock = some s₁)
    (h : SameGeometry s₁ s) : LaidOut S s := by
  obtain ⟨hsector, hblock, -, -⟩ := initGroupHeader_spec hinit
  have hnum : s₁.groupNum = groups S := by
    rw [FS.groupNum, hsector, hblock]
    rfl
  refine ⟨h.sectorNum.trans hsector, h.blockSize.trans hblock, fun i hi => ?_⟩
  have hdesc := (initGroupHeader_desc hinit hi).2.2.2.2
  have hstart : i * calGroupSize S sectorsPerBlock (calGroupNum S sectorsPerBlock) 0 = base S i := stride_eq hi
  have hheader : headerOf (calGroupNum S sectorsPerBlock) sectorsPerBlock = 6 + 2 * descBlocks S := header_eq S
  rw [h.inodeTable i (by rwa [hnum]), hdesc, hstart, hheader, tableSector]
  omega

theorem LaidOut.groupNum_eq (h : LaidOut S s) : s.groupNum = groups S := by
  rw [FS.groupNum, h.sectorNum, h.blockSize]
  rfl

theorem LaidOut.groupSize_eq (h : LaidOut S s) :
    s.groupSize = calGroupSize S sectorsPerBlock (groups S) 0 := by
  rw [FS.groupSize, h.groupNum_eq, h.sectorNum, h.blockSize]
  rfl

theorem LaidOut.blockAddress_eq (h : LaidOut S s) (hi : i < groups S) (n : ℕ) :
    blockAddress s i n = dataSector S i n := by
  rw [blockAddress, h.inodeTable i hi, h.blockSize, dataSector]
  simp only [inodeSize, sectorSize]
  omega

theorem LaidOut.inodeAddress_eq (h : LaidOut S s) (hi : i < groups S) (n : ℕ) :
    inodeAddress s i n = slotOffset S i n := by
  rw [inodeAddress, h.inodeTable i hi, slotOffset]
  simp only [inodeSize, sectorSize]
  omega

/-- The difference of two addresses of one group is small, so it comes out right in `unsigned int` wherever
the group is. -/
theorem subU32_of_le {a b : ℕ} (hle : b ≤ a) (hsmall : a - b < 2 ^ 32) : subU32 a b = a - b := by
  unfold subU32
  omega

/-- `setAllocBlock` finds the bit of an address again. -/
theorem LaidOut.decodeBlock_eq (h : LaidOut S s) (hi : i < groups S) (hn : n < blocksOf S i) :
    decodeBlock s (blockAddress s i n) = (i, n / 8, n % 8) := by
  have hlimit := blocksOf_le S i
  have hindex : blockIndex s i (dataSector S i n) = n := by
    rw [blockIndex, h.inodeTable i hi, h.blockSize]
    have hdiff : subU32 (dataSector S i n) (tableSector S i) = 2048 + 2 * n := by
      rw [dataSector, subU32_of_le (by omega) (by omega)]
      omega
    rw [hdiff]
    simp only [inodeSize, sectorSize]
    rw [subU32_of_le (by omega) (by omega)]
    omega
  rw [h.blockAddress_eq hi, decodeBlock, h.groupSize_eq, dataSector_div hi hn, hindex]

/-- `setAllocInode` finds the bit of an address again. -/
theorem LaidOut.decodeInode_eq (h : LaidOut S s) (hi : i < groups S) (hn : n < inodesOf S i) :
    decodeInode s (inodeAddress s i n) = (i, n / 8, n % 8) := by
  have hlimit := inodesOf_le S i
  have hindex : inodeIndex s i (slotOffset S i n) = n := by
    rw [inodeIndex, h.inodeTable i hi, slotOffset, subU32_of_le (by simp only [sectorSize]; omega)
      (by simp only [sectorSize]; omega)]
    simp only [inodeSize, sectorSize]
    omega
  rw [h.inodeAddress_eq hi, decodeInode, h.groupSize_eq, sectorSize, slotOffset_div hi hn, hindex]

end layout

/-! ## Taking and releasing -/

/-- Everything but the header on the disk is as before: the super block and the descriptors in memory, the
bitmap block of the pool, and the bytes behind the header. -/
structure Restored (p : Pool) (s s' : FS) : Prop where
  superBlock : s'.superBlock = s.superBlock
  groupDesc : s'.groupDesc = s.groupDesc
  bitmap : ∀ q, q < blockBytes → s'.disk (searchBitmapOffset p s * sectorSize + q)
    = s.disk (searchBitmapOffset p s * sectorSize + q)
  rest : ∀ q, superBlockSize + groupDescSize * s.groupNum ≤ q → s'.disk q = s.disk q

section restore
variable {p : Pool} {s : FS} {S i : ℕ}

@[simp] theorem SuperBlock.setAvail_setAvail (b : SuperBlock) (v w : ℤ) :
    (b.setAvail p v).setAvail p w = b.setAvail p w := by cases p <;> rfl

@[simp] theorem SuperBlock.setAvail_avail (b : SuperBlock) : b.setAvail p (b.avail p) = b := by
  cases p <;> rfl

@[simp] theorem GroupDesc.setAvail_setAvail (g : GroupDesc) (v w : ℤ) :
    (g.setAvail p v).setAvail p w = g.setAvail p w := by cases p <;> rfl

@[simp] theorem GroupDesc.setAvail_avail (g : GroupDesc) : g.setAvail p (g.avail p) = g := by
  cases p <;> rfl

section commits
variable {delta : ℤ} {bitmapOffset : ℕ} {bitmap bitmap' : Buf}

@[simp] theorem commit_groupNum : (commit p s i delta bitmapOffset bitmap).groupNum = s.groupNum := by
  rw [FS.groupNum, commit_sectorNum, commit_blockSize, ← FS.groupNum]

/-- The bitmap is written last. -/
theorem commit_disk_bitmap {q : ℕ} (hq : q < blockBytes) :
    (commit p s i delta bitmapOffset bitmap).disk (bitmapOffset * sectorSize + q) = bitmap q := by
  have hlen : q < blockBytes * 1 := by omega
  simp only [commit, writeDisk_eq]
  exact patch_apply_add hlen

theorem commit_disk_rest {q : ℕ} (hheader : superBlockSize + groupDescSize * s.groupNum ≤ q)
    (hout : q < bitmapOffset * sectorSize ∨ bitmapOffset * sectorSize + blockBytes ≤ q) :
    (commit p s i delta bitmapOffset bitmap).disk q = s.disk q := by
  simp only [commit, FS.writeHeader, writeDisk_eq]
  rw [patch_apply_out (by omega), patch_apply_out (by omega), patch_apply_out (by omega)]

/-- Two commits that move the counters back and forth. -/
theorem commit_commit_superBlock :
    (commit p (commit p s i delta bitmapOffset bitmap) i (-delta) bitmapOffset bitmap').superBlock
      = s.superBlock := by
  rw [commit_superBlock, commit_superBlock, SuperBlock.avail_setAvail, SuperBlock.setAvail_setAvail,
    add_neg_cancel_right, SuperBlock.setAvail_avail]

theorem commit_commit_groupDesc :
    (commit p (commit p s i delta bitmapOffset bitmap) i (-delta) bitmapOffset bitmap').groupDesc
      = s.groupDesc := by
  funext l
  by_cases hl : l = i
  · rw [commit_groupDesc, if_pos hl, commit_groupDesc, if_pos rfl, GroupDesc.avail_setAvail,
      GroupDesc.setAvail_setAvail, add_neg_cancel_right, GroupDesc.setAvail_avail, hl]
  · rw [commit_groupDesc, if_neg hl, commit_groupDesc, if_neg hl]

end commits

/-- Releasing the bit that the search has just set. -/
theorem setAlloc_taken (hgroup : searchGroup p s < s.groupNum) (hbyte : searchByte p s < blockBytes)
    (hbit : searchBit p s < 8) :
    ∃ s', setAlloc p (taken p s) (searchGroup p s) (searchByte p s) (searchBit p s) = some s'
      ∧ Restored p s s' := by
  have hoff : ((taken p s).groupDesc (searchGroup p s)).bitmap p = searchBitmapOffset p s := by
    rw [taken, commit_bitmap, searchBitmapOffset, if_pos hgroup]
  -- what is read back is the bitmap with the bit set
  have hread : ∀ q, q < blockBytes →
      readDisk (taken p s).disk (fun _ => 0) blockBytes 1 (searchBitmapOffset p s * sectorSize) q
        = orBit (searchBitmap p s) (searchByte p s) (searchBit p s) q := by
    intro q hq
    rw [readDisk_eq, patch_zero_apply (by omega), window_apply]
    exact commit_disk_bitmap hq
  have hset : ¬ ((readDisk (taken p s).disk (fun _ => 0) blockBytes 1
      (searchBitmapOffset p s * sectorSize) (searchByte p s)).toNat >>> (7 - searchBit p s)) % 2 = 0 := by
    rw [hread _ hbyte, shift_mod_two_eq_zero hbit, bit_orBit hbit, decide_eq_true rfl, Bool.or_true]
    exact Bool.noConfusion
  have hback : ∀ q, q < blockBytes → xorBit (readDisk (taken p s).disk (fun _ => 0) blockBytes 1
      (searchBitmapOffset p s * sectorSize)) (searchByte p s) (searchBit p s) q
        = s.disk (searchBitmapOffset p s * sectorSize + q) := by
    intro q hq
    rw [xorBit_congr (hread q hq) (hread _ hbyte), xorBit_orBit hbit (bit_searchBit hbit), searchBitmap,
      readDisk_eq, patch_zero_apply (by omega), window_apply]
  refine ⟨_, by rw [setAlloc, hoff, if_neg hset], ?_⟩
  constructor
  · exact commit_commit_superBlock
  · exact commit_commit_groupDesc
  · intro q hq
    rw [commit_disk_bitmap hq, hback q hq]
  · intro q hq
    by_cases hin : searchBitmapOffset p s * sectorSize ≤ q ∧ q < searchBitmapOffset p s * sectorSize + blockBytes
    · obtain ⟨r, rfl⟩ := Nat.exists_eq_add_of_le hin.1
      have hr : r < blockBytes := by omega
      rw [commit_disk_bitmap hr, hback r hr]
    · have hout : q < searchBitmapOffset p s * sectorSize
          ∨ searchBitmapOffset p s * sectorSize + blockBytes ≤ q := by omega
      have hnum : (taken p s).groupNum = s.groupNum := commit_groupNum
      rw [commit_disk_rest (by rwa [hnum]) hout, taken, commit_disk_rest hq hout]

end restore

section inverse
variable {S : ℕ} {s₀ s₁ s : FS} {p : Pool}

theorem LaidOut.taken (h : LaidOut S s) : LaidOut S (taken p s) where
  sectorNum := commit_sectorNum.trans h.sectorNum
  blockSize := commit_blockSize.trans h.blockSize
  inodeTable := fun i hi => (commit_inodeTable i).trans (h.inodeTable i hi)

/-- The byte and the bit of the entry that was handed out. -/
theorem searchIndex_div_mod (hbit : searchBit p s < 8) :
    searchIndex p s / 8 = searchByte p s ∧ searchIndex p s % 8 = searchBit p s := by
  rw [searchIndex]
  omega

theorem Hits.setAlloc_taken (h : LaidOut S s) (hh : Hits p s) :
    ∃ s', setAlloc p (SeL4Sys.taken p s) (searchGroup p s) (searchIndex p s / 8) (searchIndex p s % 8) = some s'
      ∧ Restored p s s' := by
  have hindex := hh.index.trans_le (p.limit_le _ _)
  have hgroup := hh.group
  rw [h.sectorNum, ← h.groupNum_eq] at hgroup
  obtain ⟨hdiv, hmod⟩ := searchIndex_div_mod hh.bit
  rw [hdiv, hmod]
  refine SeL4Sys.setAlloc_taken hgroup ?_ hh.bit
  rw [blockBytes]
  omega

theorem getAvailBlock_address (hav : s.superBlock.avail .block ≠ 0) (hg : searchGroup .block s < s.groupNum)
    (blockOffset : ℕ) : getAvailBlock s blockOffset
      = some (taken .block s, blockAddress s (searchGroup .block s) (searchIndex .block s)) := by
  rw [getAvailBlock, getAvail, if_neg hav, Option.map_some, if_pos hg, blockAddress]

theorem getAvailInode_address (hav : s.superBlock.avail .inode ≠ 0) (hg : searchGroup .inode s < s.groupNum) :
    getAvailInode s
      = some (taken .inode s, inodeAddress s (searchGroup .inode s) (searchIndex .inode s)) := by
  rw [getAvailInode, getAvail, if_neg hav, Option.map_some, if_pos hg, inodeAddress]

theorem Hits.releases_block (h : LaidOut S s) (hh : Hits .block s) (blockOffset : ℕ) :
    ∃ s' b s'', getAvailBlock s blockOffset = some (s', b) ∧ setAllocBlock s' b = some s''
      ∧ Restored .block s s'' := by
  obtain ⟨s'', hset, hrestored⟩ := hh.setAlloc_taken h
  obtain ⟨hav, hgroup, -, hindex⟩ := hh
  rw [h.sectorNum] at hgroup hindex
  refine ⟨_, _, s'', getAvailBlock_address hav (by rwa [h.groupNum_eq]) blockOffset, ?_, hrestored⟩
  -- the layout after the call is the same, and so is the address
  rw [h.blockAddress_eq hgroup, ← h.taken.blockAddress_eq hgroup, setAllocBlock_eq_decode,
    h.taken.decodeBlock_eq hgroup hindex]
  exact hset

theorem Hits.releases_inode (h : LaidOut S s) (hh : Hits .inode s) :
    ∃ s' o s'', getAvailInode s = some (s', o) ∧ setAllocInode s' o = some s'' ∧ Restored .inode s s'' := by
  obtain ⟨s'', hset, hrestored⟩ := hh.setAlloc_taken h
  obtain ⟨hav, hgroup, -, hindex⟩ := hh
  rw [h.sectorNum] at hgroup hindex
  refine ⟨_, _, s'', getAvailInode_address hav (by rwa [h.groupNum_eq]), ?_, hrestored⟩
  rw [h.inodeAddress_eq hgroup, ← h.taken.inodeAddress_eq hgroup, setAllocInode_eq_decode,
    h.taken.decodeInode_eq hgroup hindex]
  exact hset

/-- **Release inverts allocation.** For every layout of `initGroupHeader`, whatever the counters and the
bitmaps: the address of every bit of a bitmap is decoded to that bit, and if a search ends at a clear bit, the
release of the address that was handed out restores what the allocation has changed. -/
theorem release_inverts_allocation (hinit : initGroupHeader s₀ S sectorsPerBlock = some s₁)
    (hs : SameGeometry s₁ s) :
    (∀ i n, i < calGroupNum S sectorsPerBlock →
        n < calBlocksPerGroup S sectorsPerBlock (calGroupNum S sectorsPerBlock) i →
        decodeBlock s (blockAddress s i n) = (i, n / 8, n % 8))
      ∧ (∀ i n, i < calGroupNum S sectorsPerBlock →
        n < calInodesPerGroup S sectorsPerBlock (calGroupNum S sectorsPerBlock) i →
        decodeInode s (inodeAddress s i n) = (i, n / 8, n % 8))
      ∧ (Hits .block s → ∀ blockOffset, ∃ s' b s'', getAvailBlock s blockOffset = some (s', b)
        ∧ setAllocBlock s' b = some s'' ∧ Restored .block s s'')
      ∧ (Hits .inode s → ∃ s' o s'', getAvailInode s = some (s', o)
        ∧ setAllocInode s' o = some s'' ∧ Restored .inode s s'') := by
  have h := hs.laidOut hinit
  exact ⟨fun i n hi hn => h.decodeBlock_eq hi hn, fun i n hi hn => h.decodeInode_eq hi hn,
    fun hh blockOffset => hh.releases_block h blockOffset, fun hh => hh.releases_inode h⟩

theorem SameGeometry.of_formatted (h₁ : Formatted s₁) (h : Formatted s)
    (hsector : s.superBlock.sectorNum = s₁.superBlock.sectorNum) : SameGeometry s₁ s where
  sectorNum := hsector
  blockSize := h.blockSize.trans h₁.blockSize.symm
  inodeBitmap := fun i hi => by
    rw [h₁.groupNum_eq] at hi
    rw [h₁.inodeBitmap i hi, h.inodeBitmap i (hsector ▸ hi), hsector]
  blockBitmap := fun i hi => by
    rw [h₁.groupNum_eq] at hi
    rw [h₁.blockBitmap i hi, h.blockBitmap i (hsector ▸ hi), hsector]
  inodeTable := fun i hi => by
    rw [h₁.groupNum_eq] at hi
    rw [h₁.inodeTable i hi, h.inodeTable i (hsector ▸ hi), hsector]

/-- Every disk with room for a group can be formatted. -/
theorem exists_initGroupHeader (s₀ : FS) {spb : ℕ} (h : calGroupNum S spb ≠ 0) :
    ∃ s₁, initGroupHeader s₀ S spb = some s₁ := by
  rw [initGroupHeader, if_neg h]
  exact ⟨_, rfl⟩

/-- The last block of the second group of a disk of 20546 sectors, the last block of an empty disk of 2106
sectors, and the first one taken and released. -/
theorem release_inverts_allocation_small :
    (∃ s, initGroupHeader (smallFS (fun _ => 0) 0 0) 20546 sectorsPerBlock = some s
      ∧ decodeBlock s (blockAddress s 1 24) = (1, 3, 0))
    ∧ decodeBlock (smallFS (fun _ => 0) 8192 25) (blockAddress (smallFS (fun _ => 0) 8192 25) 0 24) = (0, 3, 0)
      ∧ ∃ s' b s'', getAvailBlock (smallFS (fun _ => 0) 8192 25) 0 = some (s', b)
        ∧ setAllocBlock s' b = some s'' ∧ Restored .block (smallFS (fun _ => 0) 8192 25) s'' := by
  have hgroups₂ : calGroupNum 20546 sectorsPerBlock ≠ 0 := by decide
  obtain ⟨s₂, hinit₂⟩ := exists_initGroupHeader (smallFS (fun _ => 0) 0 0) hgroups₂
  have hs₂ : SameGeometry s₂ s₂ := ⟨rfl, rfl, fun _ _ => rfl, fun _ _ => rfl, fun _ _ => rfl⟩
  refine ⟨⟨s₂, hinit₂, (release_inverts_allocation hinit₂ hs₂).1 1 24 (by decide) (by decide)⟩, ?_⟩
  have hgroups : calGroupNum 2106 sectorsPerBlock = 1 := groups_small
  obtain ⟨s₁, hinit⟩ := exists_initGroupHeader (smallFS (fun _ => 0) 0 0) (by rw [hgroups]; decide)
  have hs : SameGeometry s₁ (smallFS (fun _ => 0) 8192 25) := by
    refine .of_formatted (initGroupHeader_formatted (by norm_num) hinit) (smallFS_formatted _ _ _) ?_
    rw [(initGroupHeader_spec hinit).1]
    rfl
  have hcount : Consistent .block (smallFS (fun _ => 0) 8192 25) := smallFS_consistent (by decide)
  have hnear : NearHole .block (smallFS (fun _ => 0) 8192 25) :=
    (smallFS_nearHole_iff (by norm_num)).mpr ⟨0, by norm_num, by norm_num, by decide⟩
  obtain ⟨hdecode, -, hrelease, -⟩ := release_inverts_allocation hinit hs
  have hblocks : calBlocksPerGroup 2106 sectorsPerBlock (calGroupNum 2106 sectorsPerBlock) 0 = 25 := blocksOf_small
  exact ⟨hdecode 0 24 (by rw [hgroups]; decide) (by rw [hblocks]; decide),
    hrelease (hcount.hits_of_nearHole hnear) 0⟩

end inverse

end SeL4Sys

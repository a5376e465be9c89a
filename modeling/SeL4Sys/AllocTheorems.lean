import SeL4Sys.Alloc

/-!
# What the allocators do to the device

`commit` touches the header and one bitmap block and nothing else (`commit_agree`). From
that follow the two specifications the rest of the development uses: `getAvail` when its
search ends at a clear bit (`Hits`), and `setAlloc` on a set bit.
-/

namespace SeL4Sys

open Bytes Bitmap Loop

/-! ## Pools on a formatted disk -/

/-- The number of entries of a pool in group `i`. -/
def Pool.limit (p : Pool) (S i : ℕ) : ℕ :=
  match p with
  | .block => blocksOf S i
  | .inode => inodesOf S i

/-- The address by which an entry is handed out. -/
def Pool.address (p : Pool) (S i n : ℕ) : ℕ :=
  match p with
  | .block => dataSector S i n
  | .inode => slotOffset S i n

theorem Pool.address_inj {p : Pool} {S i n i' n' : ℕ} (hi : i < groups S) (hn : n < p.limit S i)
    (hi' : i' < groups S) (hn' : n' < p.limit S i')
    (h : p.address S i n = p.address S i' n') : i = i' ∧ n = n' := by
  cases p with
  | block => exact dataSector_inj hi hn hi' hn' h
  | inode => exact slotOffset_inj hi hn hi' hn' h

/-- The bitmap block of a pool in group `i`. -/
def Pool.region (p : Pool) (i : ℕ) : Region :=
  match p with
  | .block => .blockBitmap i
  | .inode => .inodeBitmap i

/-- Bit `n` of the pool's bitmap of group `i`. -/
def poolBit (p : Pool) (S : ℕ) (d : Disk) (i n : ℕ) : Bool :=
  bit (window d ((p.region i).off S)) n

section
variable {S : ℕ} {p : Pool} {s : FS}

theorem Pool.limit_le (p : Pool) (S i : ℕ) : p.limit S i ≤ 8192 := by
  cases p with
  | block => exact blocksOf_le S i
  | inode => exact inodesOf_le S i

theorem Pool.region_valid (p : Pool) {i : ℕ} (h : i < groups S) : (p.region i).Valid S := by
  cases p with
  | block => exact h
  | inode => exact h

theorem Pool.region_len (p : Pool) (S i : ℕ) : (p.region i).len S = 1024 := by
  cases p with
  | block => rfl
  | inode => rfl

theorem Pool.region_inj {p q : Pool} {i j : ℕ} (h : p.region i = q.region j) : p = q ∧ i = j := by
  cases p <;> cases q <;> simp_all [Pool.region]

theorem Pool.region_ne_super (p : Pool) (i : ℕ) : p.region i ≠ .super := by
  cases p <;> simp [Pool.region]

theorem Pool.region_ne_descs (p : Pool) (i : ℕ) : p.region i ≠ .descs := by
  cases p <;> simp [Pool.region]

/-- Agreement of two disks on a bitmap block is agreement on its bits. -/
theorem poolBit_congr {d d' : Disk} {i n : ℕ}
    (h : Agree d d' ((p.region i).off S) ((p.region i).len S)) (hn : n < 8192) :
    poolBit p S d' i n = poolBit p S d i n := by
  rw [Pool.region_len] at h
  exact bit_congr (h.window_eq (by omega))

theorem Formatted.spb_eq (h : Formatted s) :
    s.superBlock.blockSize / sectorSize = sectorsPerBlock := by
  simp [h.blockSize]

theorem Formatted.groupNum_eq (h : Formatted s) : s.groupNum = groups s.superBlock.sectorNum := by
  rw [FS.groupNum, h.spb_eq, groups]

theorem Formatted.groupSize_eq (h : Formatted s) :
    s.groupSize = calGroupSize s.superBlock.sectorNum sectorsPerBlock
      (groups s.superBlock.sectorNum) 0 := by
  rw [FS.groupSize, h.spb_eq, h.groupNum_eq]

theorem Formatted.bitmap_eq (h : Formatted s) {i : ℕ} (hi : i < groups s.superBlock.sectorNum) :
    (s.groupDesc i).bitmap p * 512 = (p.region i).off s.superBlock.sectorNum := by
  cases p with
  | block =>
    rw [Pool.region, Region.off_blockBitmap, ← h.blockBitmap i hi]
    rfl
  | inode =>
    rw [Pool.region, Region.off_inodeBitmap, ← h.inodeBitmap i hi]
    rfl

/-! ## Committing -/

@[simp] theorem SuperBlock.setAvail_sectorNum (b : SuperBlock) (v : ℤ) :
    (b.setAvail p v).sectorNum = b.sectorNum := by cases p <;> rfl

@[simp] theorem SuperBlock.setAvail_blockSize (b : SuperBlock) (v : ℤ) :
    (b.setAvail p v).blockSize = b.blockSize := by cases p <;> rfl

@[simp] theorem SuperBlock.avail_setAvail (b : SuperBlock) (v : ℤ) :
    (b.setAvail p v).avail p = v := by cases p <;> rfl

theorem SuperBlock.avail_setAvail_of_ne {q : Pool} (b : SuperBlock) (v : ℤ) (h : q ≠ p) :
    (b.setAvail p v).avail q = b.avail q := by
  cases p <;> cases q <;> simp_all [SuperBlock.avail, SuperBlock.setAvail]

@[simp] theorem GroupDesc.setAvail_bitmap {q : Pool} (g : GroupDesc) (v : ℤ) :
    (g.setAvail p v).bitmap q = g.bitmap q := by cases p <;> cases q <;> rfl

@[simp] theorem GroupDesc.setAvail_inodeTable (g : GroupDesc) (v : ℤ) :
    (g.setAvail p v).inodeTable = g.inodeTable := by cases p <;> rfl

@[simp] theorem GroupDesc.avail_setAvail (g : GroupDesc) (v : ℤ) :
    (g.setAvail p v).avail p = v := by cases p <;> rfl

theorem GroupDesc.avail_setAvail_of_ne {q : Pool} (g : GroupDesc) (v : ℤ) (h : q ≠ p) :
    (g.setAvail p v).avail q = g.avail q := by
  cases p <;> cases q <;> simp_all [GroupDesc.avail, GroupDesc.setAvail]

section commit
variable {i : ℕ} {delta : ℤ} {bitmapOffset : ℕ} {bitmap : Buf}

@[simp] theorem commit_sectorNum :
    (commit p s i delta bitmapOffset bitmap).superBlock.sectorNum = s.superBlock.sectorNum :=
  SuperBlock.setAvail_sectorNum _ _

@[simp] theorem commit_blockSize :
    (commit p s i delta bitmapOffset bitmap).superBlock.blockSize = s.superBlock.blockSize :=
  SuperBlock.setAvail_blockSize _ _

theorem commit_superBlock :
    (commit p s i delta bitmapOffset bitmap).superBlock
      = s.superBlock.setAvail p (s.superBlock.avail p + delta) := rfl

theorem commit_groupDesc (l : ℕ) :
    (commit p s i delta bitmapOffset bitmap).groupDesc l
      = if l = i then (s.groupDesc i).setAvail p ((s.groupDesc i).avail p + delta)
        else s.groupDesc l := by
  by_cases h : l = i
  · rw [if_pos h, h]
    exact Function.update_self ..
  · rw [if_neg h]
    exact Function.update_of_ne h ..

@[simp] theorem commit_bitmap (q : Pool) (l : ℕ) :
    ((commit p s i delta bitmapOffset bitmap).groupDesc l).bitmap q = (s.groupDesc l).bitmap q := by
  rw [commit_groupDesc]
  split
  · rename_i h
    rw [h, GroupDesc.setAvail_bitmap]
  · rfl

@[simp] theorem commit_inodeTable (l : ℕ) :
    ((commit p s i delta bitmapOffset bitmap).groupDesc l).inodeTable
      = (s.groupDesc l).inodeTable := by
  rw [commit_groupDesc]
  split
  · rename_i h
    rw [h, GroupDesc.setAvail_inodeTable]
  · rfl

/-- The device after a commit, as patches: the header in memory, and the bitmap block. -/
theorem commit_disk (hf : Formatted s) (p : Pool) (i : ℕ) (delta : ℤ) (bitmapOffset : ℕ)
    (bitmap : Buf) :
    (commit p s i delta bitmapOffset bitmap).disk
      = patch (patch (patch s.disk (Region.super.off s.superBlock.sectorNum)
            (Region.super.len s.superBlock.sectorNum)
            (commit p s i delta bitmapOffset bitmap).superBlock.encode)
          (Region.descs.off s.superBlock.sectorNum) (Region.descs.len s.superBlock.sectorNum)
          (encodeDescs (commit p s i delta bitmapOffset bitmap).groupDesc))
        (bitmapOffset * 512) 1024 bitmap := by
  simp only [commit, FS.writeHeader, writeDisk_eq, hf.groupNum_eq, Region.off_super,
    Region.off_descs, Region.len, superBlockSize, groupDescSize, blockBytes, sectorSize,
    Nat.mul_one]

/-- A commit keeps the layout. -/
theorem commit_formatted (hf : Formatted s) :
    Formatted (commit p s i delta bitmapOffset bitmap) where
  blockSize := by rw [commit_blockSize, hf.blockSize]
  groups_pos := by rw [commit_sectorNum]; exact hf.groups_pos
  addressable := by rw [commit_sectorNum]; exact hf.addressable
  inodeBitmap := fun l hl => by
    rw [commit_sectorNum] at hl ⊢
    exact (commit_bitmap .inode l).trans (hf.inodeBitmap l hl)
  blockBitmap := fun l hl => by
    rw [commit_sectorNum] at hl ⊢
    exact (commit_bitmap .block l).trans (hf.blockBitmap l hl)
  inodeTable := fun l hl => by
    rw [commit_sectorNum] at hl ⊢
    exact (commit_inodeTable l).trans (hf.inodeTable l hl)

/-- A commit leaves every region alone but the header and its bitmap block. -/
theorem commit_agree (hf : Formatted s) (hi : i < groups s.superBlock.sectorNum)
    (hoff : bitmapOffset * 512 = (p.region i).off s.superBlock.sectorNum) {r : Region}
    (hr : r.Valid s.superBlock.sectorNum) (hsuper : r ≠ .super) (hdescs : r ≠ .descs)
    (hbitmap : r ≠ p.region i) :
    Agree s.disk (commit p s i delta bitmapOffset bitmap).disk (r.off s.superBlock.sectorNum)
      (r.len s.superBlock.sectorNum) := by
  have hv := Pool.region_valid p hi
  rw [commit_disk hf, hoff, ← Pool.region_len p s.superBlock.sectorNum i]
  refine (Region.agree_patch ?_ hr hsuper.symm).trans ((Region.agree_patch ?_ hr hdescs.symm).trans
    (Region.agree_patch hv hr hbitmap.symm))
  · exact trivial
  · exact trivial

/-- The bitmap block after a commit is the one that was passed to it. -/
theorem commit_window (hf : Formatted s)
    (hoff : bitmapOffset * 512 = (p.region i).off s.superBlock.sectorNum) {n : ℕ} (hn : n < 1024) :
    window (commit p s i delta bitmapOffset bitmap).disk
      ((p.region i).off s.superBlock.sectorNum) n = bitmap n := by
  rw [commit_disk hf, ← hoff, window_apply, patch_apply_add hn]

/-- The pool's bits in the other groups are left alone by a commit. -/
theorem commit_poolBit_of_ne (hf : Formatted s) (hi : i < groups s.superBlock.sectorNum)
    (hoff : bitmapOffset * 512 = (p.region i).off s.superBlock.sectorNum) {q : Pool} {l n : ℕ}
    (hl : l < groups s.superBlock.sectorNum) (hn : n < 8192) (hne : q ≠ p ∨ l ≠ i) :
    poolBit q s.superBlock.sectorNum (commit p s i delta bitmapOffset bitmap).disk l n
      = poolBit q s.superBlock.sectorNum s.disk l n := by
  refine poolBit_congr (commit_agree hf hi hoff (Pool.region_valid q hl)
    (Pool.region_ne_super q l) (Pool.region_ne_descs q l) ?_) hn
  intro h
  have := Pool.region_inj h
  tauto

/-- The pool's bits in the group of a commit are those of the bitmap passed to it. -/
theorem commit_poolBit (hf : Formatted s)
    (hoff : bitmapOffset * 512 = (p.region i).off s.superBlock.sectorNum) {n : ℕ} (hn : n < 8192) :
    poolBit p s.superBlock.sectorNum (commit p s i delta bitmapOffset bitmap).disk i n
      = bit bitmap n :=
  bit_congr (commit_window hf hoff (by omega))

/-- The free counters of a pool are the same in both file systems. -/
structure SameCounters (p : Pool) (s s' : FS) : Prop where
  superBlock : s'.superBlock.avail p = s.superBlock.avail p
  group : ∀ l, (s'.groupDesc l).avail p = (s.groupDesc l).avail p

theorem SameCounters.refl (p : Pool) (s : FS) : SameCounters p s s := ⟨rfl, fun _ => rfl⟩

theorem SameCounters.trans {s s' s'' : FS} (h : SameCounters p s s') (h' : SameCounters p s' s'') :
    SameCounters p s s'' :=
  ⟨h'.superBlock.trans h.superBlock, fun l => (h'.group l).trans (h.group l)⟩

/-- A commit to one pool leaves the counters of the other alone. -/
theorem sameCounters_commit {q : Pool} (hq : q ≠ p) :
    SameCounters q s (commit p s i delta bitmapOffset bitmap) where
  superBlock := by rw [commit_superBlock, SuperBlock.avail_setAvail_of_ne _ _ hq]
  group := fun l => by
    rw [commit_groupDesc]
    split_ifs with hl
    · rw [GroupDesc.avail_setAvail_of_ne _ _ hq, hl]
    · rfl

end commit

/-! ## Taking an entry -/

/-- The search of `getAvail` ends at a clear bit of an entry of the pool: the call succeeds
and hands out an entry that was free. -/
structure Hits (p : Pool) (s : FS) : Prop where
  avail : s.superBlock.avail p ≠ 0
  group : searchGroup p s < groups s.superBlock.sectorNum
  bit : searchBit p s < 8
  index : searchIndex p s < p.limit s.superBlock.sectorNum (searchGroup p s)

theorem searchBitmapOffset_eq (hf : Formatted s)
    (hg : searchGroup p s < groups s.superBlock.sectorNum) :
    searchBitmapOffset p s * 512 = (p.region (searchGroup p s)).off s.superBlock.sectorNum := by
  rw [searchBitmapOffset, if_pos (by rw [hf.groupNum_eq]; exact hg)]
  exact hf.bitmap_eq hg

theorem searchBitmap_apply (hf : Formatted s)
    (hg : searchGroup p s < groups s.superBlock.sectorNum) {n : ℕ} (hn : n < 1024) :
    searchBitmap p s n
      = window s.disk ((p.region (searchGroup p s)).off s.superBlock.sectorNum) n := by
  have hoff := searchBitmapOffset_eq hf hg
  rw [searchBitmap, readDisk_eq, patch_zero_apply (by simpa using hn), ← hoff]

theorem searchIndex_eq : searchIndex p s = 8 * searchByte p s + searchBit p s := by
  rw [searchIndex, Nat.mul_comm]

theorem bit_searchBitmap (hf : Formatted s)
    (hg : searchGroup p s < groups s.superBlock.sectorNum) {n : ℕ} (hn : n < 8192) :
    bit (searchBitmap p s) n
      = poolBit p s.superBlock.sectorNum s.disk (searchGroup p s) n :=
  bit_congr (searchBitmap_apply hf hg (by omega))

/-- The bit at which the bit loop stops is clear. -/
theorem bit_searchBit (h : searchBit p s < 8) :
    bit (searchBitmap p s) (8 * searchByte p s + searchBit p s) = false := by
  have hstop := breakIndex_spec h
  rw [decide_eq_true_eq] at hstop
  exact (shift_mod_two_eq_zero h).mp hstop

/-- The entry handed out was free. -/
theorem Hits.clear (hf : Formatted s) (h : Hits p s) :
    poolBit p s.superBlock.sectorNum s.disk (searchGroup p s) (searchIndex p s) = false := by
  have hlim := Pool.limit_le p s.superBlock.sectorNum (searchGroup p s)
  have hn : searchIndex p s < 8192 := lt_of_lt_of_le h.index hlim
  rw [← bit_searchBitmap hf h.group hn, searchIndex_eq]
  exact bit_searchBit h.bit

/-- Taking an entry sets its bit and no other. -/
theorem taken_poolBit (hf : Formatted s)
    (hg : searchGroup p s < groups s.superBlock.sectorNum) (hbit : searchBit p s < 8) {l n : ℕ}
    (hl : l < groups s.superBlock.sectorNum) (hn : n < 8192) :
    poolBit p s.superBlock.sectorNum (taken p s).disk l n
      = (poolBit p s.superBlock.sectorNum s.disk l n
          || decide (l = searchGroup p s ∧ n = searchIndex p s)) := by
  have hoff := searchBitmapOffset_eq hf hg
  by_cases hl' : l = searchGroup p s
  · subst hl'
    rw [taken, commit_poolBit hf hoff hn, bit_orBit hbit, bit_searchBitmap hf hg hn,
      ← searchIndex_eq]
    simp
  · rw [taken, commit_poolBit_of_ne hf hg hoff hl hn (Or.inr hl')]
    simp [hl']

/-- When the bit loop finds nothing, no bit changes. -/
theorem taken_poolBit_of_miss (hf : Formatted s)
    (hg : searchGroup p s < groups s.superBlock.sectorNum) (hmiss : ¬ searchBit p s < 8) {l n : ℕ}
    (hl : l < groups s.superBlock.sectorNum) (hn : n < 8192) :
    poolBit p s.superBlock.sectorNum (taken p s).disk l n
      = poolBit p s.superBlock.sectorNum s.disk l n := by
  have hoff := searchBitmapOffset_eq hf hg
  by_cases hl' : l = searchGroup p s
  · subst hl'
    rw [taken, commit_poolBit hf hoff hn, orBit_of_le (by omega), bit_searchBitmap hf hg hn]
  · rw [taken, commit_poolBit_of_ne hf hg hoff hl hn (Or.inr hl')]

@[simp] theorem taken_sectorNum : (taken p s).superBlock.sectorNum = s.superBlock.sectorNum :=
  commit_sectorNum

theorem taken_formatted (hf : Formatted s) : Formatted (taken p s) := commit_formatted hf

/-- While something is available, a search that finds a group hands out a block of it. -/
theorem getAvailBlock_of_group (hf : Formatted s) (hav : s.superBlock.avail .block ≠ 0)
    (hg : searchGroup .block s < groups s.superBlock.sectorNum) (blockOffset : ℕ) :
    getAvailBlock s blockOffset
      = some (taken .block s, dataSector s.superBlock.sectorNum (searchGroup .block s)
          (searchIndex .block s)) := by
  rw [getAvailBlock, getAvail, if_neg hav, Option.map_some,
    if_pos (by rw [hf.groupNum_eq]; exact hg), hf.inodeTable _ hg, hf.blockSize, dataSector]
  simp only [inodeSize, sectorSize]
  congr 2
  omega

/-- A successful `getAvailBlock` hands out a data block. -/
theorem getAvailBlock_eq (hf : Formatted s) (h : Hits .block s) (blockOffset : ℕ) :
    getAvailBlock s blockOffset
      = some (taken .block s, dataSector s.superBlock.sectorNum (searchGroup .block s)
          (searchIndex .block s)) :=
  getAvailBlock_of_group hf h.avail h.group blockOffset

/-- The same for the inodes. -/
theorem getAvailInode_of_group (hf : Formatted s) (hav : s.superBlock.avail .inode ≠ 0)
    (hg : searchGroup .inode s < groups s.superBlock.sectorNum) :
    getAvailInode s
      = some (taken .inode s, slotOffset s.superBlock.sectorNum (searchGroup .inode s)
          (searchIndex .inode s)) := by
  rw [getAvailInode, getAvail, if_neg hav, Option.map_some,
    if_pos (by rw [hf.groupNum_eq]; exact hg), hf.inodeTable _ hg, slotOffset]
  simp only [inodeSize, sectorSize]
  congr 2
  omega

/-- A successful `getAvailInode` hands out an inode. -/
theorem getAvailInode_eq (hf : Formatted s) (h : Hits .inode s) :
    getAvailInode s
      = some (taken .inode s, slotOffset s.superBlock.sectorNum (searchGroup .inode s)
          (searchIndex .inode s)) :=
  getAvailInode_of_group hf h.avail h.group

/-! ## Releasing an entry -/

/-- What `setAlloc` leaves behind when the bit is set. -/
def released (p : Pool) (s : FS) (i n : ℕ) : FS :=
  commit p s i 1 ((s.groupDesc i).bitmap p)
    (xorBit (readDisk s.disk (fun _ => 0) blockBytes 1 ((s.groupDesc i).bitmap p * sectorSize))
      (n / 8) (n % 8))

theorem bit_readBitmap (hf : Formatted s) {i n : ℕ} (hi : i < groups s.superBlock.sectorNum)
    (hn : n < 8192) :
    bit (readDisk s.disk (fun _ => 0) blockBytes 1 ((s.groupDesc i).bitmap p * sectorSize)) n
      = poolBit p s.superBlock.sectorNum s.disk i n := by
  refine bit_congr ?_
  rw [readDisk_eq, patch_zero_apply (by simp; omega), ← hf.bitmap_eq hi]

theorem setAlloc_eq (hf : Formatted s) {i n : ℕ} (hi : i < groups s.superBlock.sectorNum)
    (hn : n < 8192) :
    setAlloc p s i (n / 8) (n % 8)
      = if poolBit p s.superBlock.sectorNum s.disk i n = true then some (released p s i n)
        else none := by
  have htest := shift_mod_two_eq_zero
    (m := readDisk s.disk (fun _ => 0) blockBytes 1 ((s.groupDesc i).bitmap p * sectorSize))
    (j := n / 8) (k := n % 8) (by omega)
  rw [Nat.div_add_mod, bit_readBitmap hf hi hn] at htest
  rw [setAlloc]
  by_cases h : poolBit p s.superBlock.sectorNum s.disk i n = true
  · rw [if_pos h, if_neg (by rw [htest]; simp [h]), released]
  · rw [if_neg h, if_pos (htest.mpr (by simpa using h))]

/-- Releasing an entry clears its bit and no other. -/
theorem released_poolBit (hf : Formatted s) {i n : ℕ} (hi : i < groups s.superBlock.sectorNum)
    (hn : n < 8192) (hset : poolBit p s.superBlock.sectorNum s.disk i n = true) {l m : ℕ}
    (hl : l < groups s.superBlock.sectorNum) (hm : m < 8192) :
    poolBit p s.superBlock.sectorNum (released p s i n).disk l m
      = (poolBit p s.superBlock.sectorNum s.disk l m && !decide (l = i ∧ m = n)) := by
  by_cases hli : l = i
  · subst hli
    rw [released, commit_poolBit hf (hf.bitmap_eq hi) hm, bit_xorBit (by omega), Nat.div_add_mod,
      bit_readBitmap hf hi hm]
    by_cases hmn : m = n
    · subst hmn
      simp [hset]
    · simp [hmn]
  · rw [released, commit_poolBit_of_ne hf hi (hf.bitmap_eq hi) hl hm (Or.inr hli)]
    simp [hli]

@[simp] theorem released_sectorNum {i n : ℕ} :
    (released p s i n).superBlock.sectorNum = s.superBlock.sectorNum := commit_sectorNum

theorem released_formatted (hf : Formatted s) {i n : ℕ} : Formatted (released p s i n) :=
  commit_formatted hf

theorem subU32_eq {a b : ℕ} (h : b ≤ a) (ha : a < 2 ^ 32) : subU32 a b = a - b := by
  unfold subU32
  omega

/-- The address arithmetic of `setAllocBlock` finds the entry that an address stands for. -/
theorem setAllocBlock_eq (hf : Formatted s) {i n : ℕ} (hi : i < groups s.superBlock.sectorNum)
    (hn : n < blocksOf s.superBlock.sectorNum i) :
    setAllocBlock s (dataSector s.superBlock.sectorNum i n)
      = setAlloc .block s i (n / 8) (n % 8) := by
  have hlt : dataSector s.superBlock.sectorNum i n < 256 ^ 4 :=
    IsData.lt hf.addressable ⟨i, n, hi, hn, rfl⟩
  have hidx : blockIndex s i (dataSector s.superBlock.sectorNum i n) = n := by
    rw [blockIndex, hf.inodeTable i hi, hf.blockSize]
    have hle : tableSector s.superBlock.sectorNum i ≤ dataSector s.superBlock.sectorNum i n := by
      unfold dataSector
      omega
    rw [subU32_eq hle (by omega), subU32_eq]
    · unfold dataSector
      simp only [inodeSize, sectorSize]
      omega
    · unfold dataSector
      simp only [inodeSize, sectorSize]
      omega
    · omega
  unfold setAllocBlock
  simp only [hf.groupSize_eq, dataSector_div hi hn, hidx]

/-- The address arithmetic of `setAllocInode` finds the entry that an address stands for. -/
theorem setAllocInode_eq (hf : Formatted s) {i n : ℕ} (hi : i < groups s.superBlock.sectorNum)
    (hn : n < inodesOf s.superBlock.sectorNum i) :
    setAllocInode s (slotOffset s.superBlock.sectorNum i n)
      = setAlloc .inode s i (n / 8) (n % 8) := by
  have hlt : slotOffset s.superBlock.sectorNum i n < 256 ^ 4 :=
    IsSlot.lt hf.addressable ⟨i, n, hi, hn, rfl⟩
  have hidx : inodeIndex s i (slotOffset s.superBlock.sectorNum i n) = n := by
    rw [inodeIndex, hf.inodeTable i hi]
    rw [subU32_eq]
    · unfold slotOffset
      simp only [inodeSize, sectorSize]
      omega
    · unfold slotOffset
      simp only [sectorSize]
      omega
    · omega
  unfold setAllocInode
  simp only [hf.groupSize_eq, sectorSize, slotOffset_div hi hn, hidx]

end

end SeL4Sys

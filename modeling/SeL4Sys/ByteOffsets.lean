import SeL4Sys.Release
import SeL4Sys.StepRegions

/-!
# Byte offsets in an int

Every function of `ext.c` turns a sector number into a byte offset by a multiplication with
`SECTOR_SIZE` and passes it to `read_disk` or `write_disk`, whose parameter is an `int`. The other
modules compute with the offsets as natural numbers. Here they are cut off to 32 bits:
`offsets_addressed_iff` says for which disks nothing is lost, and it is half of the sizes that the
comment on `SECTOR_NUM` admits.

The offsets are those of the accesses that `Steps` lists for `readBlock`, `writeBlock`,
`getAvailBlock`, `getAvailInode` and `readInode`, the copies of the header that `initGroupHeader`
writes and the inode offset that `getAvailInode` returns.
-/

namespace SeL4Sys

open Bytes Interleave

/-! ## What reaches the disk driver -/

/-- `int quotient = offset / SECTOR_SIZE` in `read_disk` and `write_disk`. -/
def firstSector (offset : ℤ) : ℤ := offset.tdiv sectorSize

/-- `int remainder = offset % SECTOR_SIZE` -/
def firstByte (offset : ℤ) : ℤ := offset.tmod sectorSize

/-- Byte offset `o` is a value of type `int`, and the driver begins at its sector. -/
structure Addressed (o : ℕ) : Prop where
  nonneg : 0 ≤ asInt o
  value : asInt o = o
  sector : firstSector (asInt o) = (o / sectorSize : ℕ)
  byte : firstByte (asInt o) = (o % sectorSize : ℕ)

theorem addressed_iff {o : ℕ} : Addressed o ↔ o < 2 ^ 31 := by
  constructor
  · intro h
    have hlt := asInt_lt o
    rw [h.value] at hlt
    omega
  · intro h
    have hexact := asInt_natCast h
    refine ⟨by omega, hexact, ?_, ?_⟩
    · rw [hexact, firstSector]
      rfl
    · rw [hexact, firstByte]
      rfl

/-! ## The offsets that are computed -/

/-- The offset of a call of `read_disk` or `write_disk`. -/
def FsOp.offset? : FsOp → Option ℕ
  | readDisk _ _ _ offset => some offset
  | writeDisk _ _ _ offset => some offset
  | writeSuper => some 0
  | writeDescs _ => some superBlockSize
  | _ => none

/-- The function passes offset `o` to the disk driver. -/
def Steps.Passes {α : Type} (p : Steps α) (s : FS) (o : ℕ) : Prop :=
  ∃ e ∈ p.trace FsOp.exec s, e.offset? = some o

/-- `i * groupSize * SECTOR_SIZE` in `initGroupHeader`. -/
def headerOffset (sectorNum spb i : ℕ) : ℕ :=
  i * calGroupSize sectorNum spb (calGroupNum sectorNum spb) 0 * sectorSize

/-- The byte offsets that the functions compute on the file system `s`. What stands in the inodes,
the pointer blocks and the directories is arbitrary, as long as it is on the disk. -/
inductive ComputesOffset (s : FS) : ℕ → Prop
  | superCopy {i : ℕ} (hi : i < s.groupNum) :
    ComputesOffset s (headerOffset s.superBlock.sectorNum sectorsPerBlock i)
  | descsCopy {i : ℕ} (hi : i < s.groupNum) :
    ComputesOffset s (headerOffset s.superBlock.sectorNum sectorsPerBlock i + superBlockSize * 1)
  | readBlock {inode : Inode} {blockIndex : ℕ} {buffer : Buf} {o : ℕ}
    (h : (Steps.readBlock inode blockIndex buffer).Passes s o)
    (hon : o / sectorSize < s.superBlock.sectorNum) : ComputesOffset s o
  | writeBlock {inode : Inode} {blockIndex : ℕ} {buffer : Buf} {o : ℕ}
    (h : (Steps.writeBlock inode blockIndex buffer).Passes s o)
    (hon : o / sectorSize < s.superBlock.sectorNum) : ComputesOffset s o
  | readInode {inode : Inode} {path : List UInt8} {buffer : Buf} {o : ℕ}
    (h : (Steps.readInode inode path buffer).Passes s o)
    (hon : o / sectorSize < s.superBlock.sectorNum) : ComputesOffset s o
  | getAvailBlock {blockOffset o : ℕ} (h : (Steps.getAvailBlock blockOffset).Passes s o) :
    ComputesOffset s o
  | getAvailInode {o : ℕ} (h : Steps.getAvailInode.Passes s o) : ComputesOffset s o
  /-- The inode that a successful search hands out. -/
  | newInode {s' : FS} {o : ℕ} (hhits : Hits .inode s) (h : SeL4Sys.getAvailInode s = some (s', o)) :
    ComputesOffset s o

/-! ## The accesses of the allocators -/

/-- An access to the disk is one to the header or to the bitmap that is searched. -/
def FsOp.OfAllocator (p : Pool) (s : FS) (e : FsOp) : Prop :=
  ∀ o, e.offset? = some o →
    o = 0 ∨ o = superBlockSize ∨ o = searchBitmapOffset p s * sectorSize

namespace Steps

section
variable {s s' : FS} {p : Pool} {e : FsOp} {o : ℕ}

theorem only_quiet (he : e.offset? = none) : Only (FsOp.OfAllocator p s) (Prog.perform e) s' := by
  apply only_perform
  intro o ho
  rw [he] at ho
  cases ho

theorem only_at (he : e.offset? = some o)
    (ho : o = 0 ∨ o = superBlockSize ∨ o = searchBitmapOffset p s * sectorSize) :
    Only (FsOp.OfAllocator p s) (Prog.perform e) s' := by
  apply only_perform
  intro o' ho'
  rw [he] at ho'
  cases ho'
  exact ho

theorem only_findGroup (p q : Pool) (n i : ℕ) :
    Only (FsOp.OfAllocator p s) (findGroup q n i) s' := by
  induction n generalizing i with
  | zero => exact only_pure
  | succ n ih =>
    rw [findGroup]
    apply Only.bind (only_quiet rfl) rfl
    split
    · exact only_pure
    · exact ih (i + 1)

theorem only_findByte (p q : Pool) (i : ℕ) (bitmap : Buf) (n j : ℕ) :
    Only (FsOp.OfAllocator p s) (findByte q i bitmap n j) s' := by
  induction n generalizing j with
  | zero => exact only_pure
  | succ n ih =>
    rw [findByte]
    apply Only.bind (only_quiet rfl) rfl
    split
    · exact ih (j + 1)
    · exact only_pure

theorem only_getAvail : Only (FsOp.OfAllocator p s) (getAvail p) s := by
  rw [getAvail]
  apply Only.bind (only_quiet rfl) (alone_sBlock s)
  apply Only.bind (only_quiet rfl) (alone_avail s p)
  split
  · exact only_pure
  apply Only.bind (only_quiet rfl) (alone_takeAvail s p)
  apply Only.bind (only_findGroup p p _ _) (alone_findGroup _ _ _ _)
  apply Only.bind (only_quiet rfl) (alone_gDesc _ _)
  simp only [Nat.zero_add, GroupDesc.fixed_bitmap]
  -- the bitmap is read, the header written and the bitmap written back
  apply Only.bind (only_at rfl (.inr (.inr rfl))) rfl
  apply Only.bind (only_findByte p p _ _ _ _) (alone_findByte _ _ _ _ _ _)
  apply Only.bind (only_quiet rfl) rfl
  apply Only.bind (only_at rfl (.inl rfl)) rfl
  apply Only.bind (only_at rfl (.inr (.inl rfl))) rfl
  exact Only.bind (only_at rfl (.inr (.inr rfl))) rfl only_pure

theorem only_getAvailBlock (blockOffset : ℕ) :
    Only (FsOp.OfAllocator .block s) (getAvailBlock blockOffset) s := by
  apply Only.bind (only_quiet rfl) (alone_sBlock s)
  apply Only.bind only_getAvail rfl
  split
  · exact only_pure
  · exact Only.bind (only_quiet rfl) rfl only_pure

theorem only_getAvailInode : Only (FsOp.OfAllocator .inode s) getAvailInode s := by
  apply Only.bind (only_quiet rfl) (alone_sBlock s)
  apply Only.bind only_getAvail rfl
  split
  · exact only_pure
  · exact Only.bind (only_quiet rfl) rfl only_pure

end

end Steps

/-! ## Where the offsets are -/

section
variable {S i n o : ℕ} {s₀ s₁ s : FS} {p : Pool}

/-- A group ends on the disk. -/
theorem base_add_groupSize_le (hi : i < groups S) :
    base S i + calGroupSize S sectorsPerBlock (groups S) i ≤ S := by
  have hend := groupEnd_le (by decide : 1 ≤ sectorsPerBlock) hi
  have hfull : fullOf (calGroupNum S sectorsPerBlock) sectorsPerBlock = fullSectors S :=
    header_add_body S
  rwa [hfull, ← base, ← groups] at hend

/-- The inode table of a group begins on the disk or at its end. -/
theorem tableSector_le (hi : i < groups S) : tableSector S i ≤ S := by
  have hend := base_add_groupSize_le hi
  have hheader : _ ≤ calGroupSize S sectorsPerBlock (groups S) i := header_le_groupSize hi
  have hsectors : headerOf (groups S) sectorsPerBlock = 6 + 2 * descBlocks S := header_eq S
  rw [tableSector]
  omega

/-- The inodes of a group are on the disk. -/
theorem slotOffset_lt (hi : i < groups S) (hn : n < inodesOf S i) : slotOffset S i n < S * 512 := by
  have hend := base_add_groupSize_le hi
  have hinodes : _ ≤ calGroupSize S sectorsPerBlock (groups S) i := (inodes_fit hi).2
  have hsectors : headerOf (groups S) sectorsPerBlock = 6 + 2 * descBlocks S := header_eq S
  rw [← inodesOf] at hinodes
  simp only [inodeSize, sectorSize] at hinodes
  rw [slotOffset, tableSector]
  omega

theorem SameGeometry.formatted (h₁ : Formatted s₁) (h : SameGeometry s₁ s) : Formatted s where
  blockSize := h.blockSize.trans h₁.blockSize
  groups_pos := h.sectorNum ▸ h₁.groups_pos
  addressable := h.sectorNum ▸ h₁.addressable
  inodeBitmap := fun i hi => by
    rw [h.sectorNum] at hi ⊢
    rw [h.inodeBitmap i (by rwa [h₁.groupNum_eq]), h₁.inodeBitmap i hi]
  blockBitmap := fun i hi => by
    rw [h.sectorNum] at hi ⊢
    rw [h.blockBitmap i (by rwa [h₁.groupNum_eq]), h₁.blockBitmap i hi]
  inodeTable := fun i hi => by
    rw [h.sectorNum] at hi ⊢
    rw [h.inodeTable i (by rwa [h₁.groupNum_eq]), h₁.inodeTable i hi]

/-- The bitmap that is searched lies before the inode table of its group. -/
theorem Formatted.searchBitmapOffset_lt (hf : Formatted s) :
    searchBitmapOffset p s + 2 ≤ s.superBlock.sectorNum := by
  have hfirst := tableSector_le (show 0 < groups s.superBlock.sectorNum from hf.groups_pos)
  rw [searchBitmapOffset]
  split_ifs with hg
  · rw [hf.groupNum_eq] at hg
    have htable := tableSector_le hg
    rw [tableSector] at htable
    cases p with
    | inode =>
      rw [GroupDesc.bitmap, hf.inodeBitmap _ hg, inodeBitmapSector]
      omega
    | block =>
      rw [GroupDesc.bitmap, hf.blockBitmap _ hg, blockBitmapSector]
      omega
  · rw [tableSector] at hfirst
    omega

theorem Formatted.allocator_lt (hf : Formatted s) {e : FsOp} (he : e.OfAllocator p s)
    (ho : e.offset? = some o) : o < s.superBlock.sectorNum * 512 := by
  have hbitmap := hf.searchBitmapOffset_lt (p := p)
  have hfirst := tableSector_le (show 0 < groups s.superBlock.sectorNum from hf.groups_pos)
  have hcases := he o ho
  rw [tableSector] at hfirst
  simp only [superBlockSize, sectorSize] at hcases
  omega

theorem Formatted.headerOffset_add_lt (hf : Formatted s) (hi : i < s.groupNum) :
    headerOffset s.superBlock.sectorNum sectorsPerBlock i + superBlockSize
      < s.superBlock.sectorNum * 512 := by
  rw [hf.groupNum_eq] at hi
  have htable := tableSector_le hi
  rw [tableSector] at htable
  rw [headerOffset, ← groups, stride_eq hi]
  simp only [superBlockSize, sectorSize]
  omega

/-- All offsets are on the disk. -/
theorem ComputesOffset.lt (hf : Formatted s) (h : ComputesOffset s o) :
    o < s.superBlock.sectorNum * 512 := by
  cases h with
  | superCopy hi => exact lt_of_le_of_lt (Nat.le_add_right _ _) (hf.headerOffset_add_lt hi)
  | descsCopy hi => exact hf.headerOffset_add_lt hi
  | readBlock h hon => exact (Nat.div_lt_iff_lt_mul (by decide)).mp hon
  | writeBlock h hon => exact (Nat.div_lt_iff_lt_mul (by decide)).mp hon
  | readInode h hon => exact (Nat.div_lt_iff_lt_mul (by decide)).mp hon
  | getAvailBlock h =>
    obtain ⟨e, he, ho⟩ := h
    exact hf.allocator_lt (Steps.only_getAvailBlock _ e he) ho
  | getAvailInode h =>
    obtain ⟨e, he, ho⟩ := h
    exact hf.allocator_lt (Steps.only_getAvailInode e he) ho
  | newInode hhits h =>
    have hlaid : LaidOut s.superBlock.sectorNum s := ⟨rfl, hf.blockSize, hf.inodeTable⟩
    rw [getAvailInode_address hhits.avail (by rw [hf.groupNum_eq]; exact hhits.group),
      hlaid.inodeAddress_eq hhits.group] at h
    cases h
    exact slotOffset_lt hhits.group hhits.index

/-- On a disk of more than `2 ^ 22` sectors a block can begin at byte `2 ^ 31`. -/
theorem computesOffset_far (hS : 2 ^ 22 < s.superBlock.sectorNum) : ComputesOffset s (2 ^ 31) := by
  have hpass : (Steps.readBlock { Files.emptyFile with pointer := fun _ => 2 ^ 22 } 0
      fun _ => 0).Passes s (2 ^ 22 * sectorSize) :=
    ⟨_, List.mem_cons_of_mem FsOp.sBlock (List.mem_cons_of_mem FsOp.sBlock List.mem_cons_self), rfl⟩
  exact .readBlock hpass (by simpa using hS)

/-- **Byte offsets.** On the layouts of `initGroupHeader`, whatever is on the disk, every offset is
passed to the disk driver as it was meant if and only if the disk has at most `2 ^ 22` sectors. -/
theorem offsets_addressed_iff (hinit : initGroupHeader s₀ S sectorsPerBlock = some s₁) :
    (∀ s, SameGeometry s₁ s → ∀ o, ComputesOffset s o → Addressed o) ↔ S ≤ 2 ^ 22 := by
  have hsector := (initGroupHeader_spec hinit).1
  constructor
  · intro h
    by_contra hlt
    have hfar : ComputesOffset s₁ (2 ^ 31) := computesOffset_far (by omega)
    have := addressed_iff.mp (h s₁ ⟨rfl, rfl, fun _ _ => rfl, fun _ _ => rfl, fun _ _ => rfl⟩ _ hfar)
    omega
  · intro hle s hs o ho
    have hf := hs.formatted (initGroupHeader_formatted (by omega) hinit)
    have hlt := ho.lt hf
    rw [hs.sectorNum, hsector] at hlt
    exact addressed_iff.mpr (by omega)

/-- The disk that the system is built for. -/
theorem offsets_addressed_build :
    ∃ s₁, initGroupHeader (smallFS (fun _ => 0) 0 0) 8196 sectorsPerBlock = some s₁
      ∧ ∀ s, SameGeometry s₁ s → ∀ o, ComputesOffset s o → Addressed o := by
  obtain ⟨s₁, hinit⟩ := exists_initGroupHeader (smallFS (fun _ => 0) 0 0)
    (by decide : calGroupNum 8196 sectorsPerBlock ≠ 0)
  exact ⟨s₁, hinit, (offsets_addressed_iff hinit).mpr (by norm_num)⟩

/-- The largest disk of the comment on `SECTOR_NUM`: the header of group 300 is written in front of
sector 0. -/
theorem headerCopy_before_disk :
    ∃ s₁, initGroupHeader (smallFS (fun _ => 0) 0 0) (2 ^ 23) sectorsPerBlock = some s₁
      ∧ SameGeometry s₁ s₁
      ∧ ComputesOffset s₁ 2836684800
      ∧ asInt (2836684800 : ℕ) = -1458282496 ∧ firstSector (asInt (2836684800 : ℕ)) = -2848208
      ∧ ¬ Addressed 2836684800 := by
  have hgroups : calGroupNum (2 ^ 23) sectorsPerBlock = 455 := by decide +kernel
  obtain ⟨s₁, hinit⟩ := exists_initGroupHeader (smallFS (fun _ => 0) 0 0)
    (by rw [hgroups]; decide : calGroupNum (2 ^ 23) sectorsPerBlock ≠ 0)
  obtain ⟨hsector, hblock, -, -⟩ := initGroupHeader_spec hinit
  have hoffset : headerOffset s₁.superBlock.sectorNum sectorsPerBlock 300 = 2836684800 := by
    rw [hsector, headerOffset, hgroups]
    decide
  have hnum : s₁.groupNum = 455 := by
    rw [FS.groupNum, hsector, hblock]
    exact hgroups
  refine ⟨s₁, hinit, ⟨rfl, rfl, fun _ _ => rfl, fun _ _ => rfl, fun _ _ => rfl⟩, ?_, by decide,
    by decide, ?_⟩
  · rw [← hoffset]
    exact .superCopy (by rw [hnum]; decide)
  · rw [addressed_iff]
    decide

end

end SeL4Sys

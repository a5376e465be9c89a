import SeL4Sys.DirRuns
import SeL4Sys.FileRuns

/-!
# Writing a file of the tree

`syscall_writefile` through a control block of a regular file in a well-formed file system: the inodes in
use, the tree of directories and all other files stay as they are.
-/

namespace SeL4Sys

open Bytes NameTree Function

variable {s s' : FS} {x y off m : ℕ} {str : Buf} {ino : Inode}

/-- What a file contains. -/
def FS.content (s : FS) (x : ℕ) : List UInt8 := contentOf s.disk (loadInode s.disk x)

/-- No file is larger than its blocks. -/
def SizesOk (s : FS) : Prop := ∀ x, s.InUse x → 0 ≤ (loadInode s.disk x).size
  ∧ (loadInode s.disk x).size ≤ (loadInode s.disk x).blockCount * 1024

/-- The inodes in use stay, and so does what each but that of `x` names. -/
structure OthersKept (s s' : FS) (x : ℕ) : Prop where
  sectorNum : s'.superBlock.sectorNum = s.superBlock.sectorNum
  type : (loadInode s'.disk x).type = (loadInode s.disk x).type
  inUse : ∀ y, s'.InUse y ↔ s.InUse y
  inode : ∀ y, s.InUse y → y ≠ x → loadInode s'.disk y = loadInode s.disk y
  file : ∀ y, s.InUse y → y ≠ x → ∀ p, p < (loadInode s.disk y).blocks * 1024 →
    fileByte s'.disk (loadInode s.disk y) p = fileByte s.disk (loadInode s.disk y) p

theorem content_eq_of_file (hsizes : SizesOk s) (hy : s.InUse y)
    (hinode : loadInode s'.disk y = loadInode s.disk y)
    (hfile : ∀ p, p < (loadInode s.disk y).blocks * 1024 →
      fileByte s'.disk (loadInode s.disk y) p = fileByte s.disk (loadInode s.disk y) p) :
    s'.content y = s.content y := by
  have hsize := hsizes y hy
  rw [FS.content, FS.content, hinode, contentOf, contentOf]
  refine bytesOf_congr fun p hp => hfile p ?_
  rw [Inode.blocks]
  omega

/-! ## Writing -/

section written
variable (h : FsOk s) (hx : s.InUse x)
  (hw : Written s s' s.InUse (loadInode s.disk) x x off m str ino) (hload : loadInode s'.disk x = ino)
include h hx hw hload

theorem Written.othersKept : OthersKept s s' x where
  sectorNum := hw.sectorNum
  type := by rw [hload, hw.type]
  inUse := fun y => by
    rw [FS.InUse, hw.sectorNum]
    exact hw.changes.inodeUsed_iff fun i => inodeBitmap_notMem_fileRegions _ _ _ _ i
  inode := fun y hy hyx => hw.loadInode_eq hy.isSlot hyx
  file := fun y hy hyx p hp => hw.fileByte_eq h.owned hx hy hyx hp

omit h hx in
/-- The inode of every file, once that of `x` is written back. -/
theorem Written.loadInode_update (hy : s.InUse y) :
    loadInode s'.disk y = update (loadInode s.disk) x ino y := by
  by_cases hyx : y = x
  · rw [hyx, update_self, hload]
  · rw [update_of_ne hyx, hw.loadInode_eq hy.isSlot hyx]

/-- A file that is not a directory has no part in the tree. -/
theorem Written.treeOf_eq (hfile : ¬ IsDir s.disk x) : treeOf s' = treeOf s := by
  have hkept := hw.othersKept h hx hload
  have hfile' : ¬ IsDir s'.disk x := by
    rwa [IsDir, hload, hw.type, ← IsDir]
  apply Tree.ext
  · funext y
    exact propext (hkept.inUse y)
  · funext y u
    by_cases hyx : y = x
    · rw [hyx, treeOf_entry_eq_none fun _ hdir => absurd hdir hfile,
        treeOf_entry_eq_none fun _ hdir => absurd hdir hfile']
    by_cases hy : s.InUse y
    · apply treeOf_entry_congr hy ((hkept.inUse y).mpr hy) (hkept.inode y hy hyx)
      intro hu i hi
      rw [slots] at hu
      exact hkept.file y hy hyx _ (by omega)
    · rw [treeOf_entry_eq_none fun hy' => absurd hy' hy,
        treeOf_entry_eq_none fun hy' => absurd ((hkept.inUse y).mp hy') hy]

/-- Writing a regular file keeps the file system well formed. -/
theorem FsOk.written (hfile : ¬ IsDir s.disk x) : FsOk s' := by
  have hkept := hw.othersKept h hx hload
  have htree := hw.treeOf_eq h hx hload hfile
  have hroot : s'.rootOffset = s.rootOffset := by
    rw [rootOffset_eq h.inodes.formatted, rootOffset_eq hw.formatted, hw.sectorNum]
  have hrootx : s.rootOffset ≠ x := fun heq => hfile (heq ▸ h.root_isDir)
  have hused := fun y => hkept.inUse y
  exact
    { inodes := h.inodes.transfer hw.formatted hw.sectorNum hw.alloc.inodeCounters hw.changes
        fun i => inodeBitmap_notMem_fileRegions _ _ _ _ i
      owned := hw.owned.restrict (fun y hy => (hused y).mp hy) fun y hy =>
        hw.loadInode_update hload ((hused y).mp hy)
      tree := by
        rw [htree, hroot]
        exact h.tree
      types := fun y hy => by
        have hy := (hused y).mp hy
        by_cases hyx : y = x
        · rw [hyx, hload, hw.type]
          exact h.types x hx
        · rw [hkept.inode y hy hyx]
          exact h.types y hy
      rootType := by
        rw [hroot, hkept.inode _ h.tree.root_used hrootx]
        exact h.rootType
      links := fun y hy hne => by
        rw [hroot] at hne
        have hy := (hused y).mp hy
        by_cases hyx : y = x
        · rw [hyx, hload, hw.linkCount]
          exact h.links x hx (hyx ▸ hne)
        · rw [hkept.inode y hy hyx]
          exact h.links y hy hne
      short := fun y u hy hydir hlive => by
        -- a live slot is an entry of the same tree
        have he := treeOf_entry_eq ⟨hy, hydir, hlive⟩
        rw [htree] at he
        have ⟨⟨hy, hydir, hlive⟩, hname, _⟩ := treeOf_entry_eq_some.mp he
        rw [← hname]
        exact h.short y u hy hydir hlive }

theorem SizesOk.written (hsizes : SizesOk s) : SizesOk s' := by
  have hkept := hw.othersKept h hx hload
  intro y hy
  have hy := (hkept.inUse y).mp hy
  by_cases hyx : y = x
  · have hold := hsizes x hx
    have hcount := hw.count
    have hpos := (hw.owned.count x hx).1
    rw [update_self] at hpos
    rw [hyx, hload, hw.size]
    rw [Inode.blocks, Inode.blocks] at hcount
    omega
  · rw [hkept.inode y hy hyx]
    exact hsizes y hy

end written

/-! ## The calls -/

/-- A negative number of bytes is none. -/
theorem syscallReadfile_toNat (s : FS) (fcb : FCB) (fd : ℤ) (str : Buf) (maxLen : ℤ) (buffer : Buf) :
    syscallReadfile s fcb fd str maxLen buffer = syscallReadfile s fcb fd str maxLen.toNat buffer := by
  rcases Int.le_total 0 maxLen with hpos | hneg
  · rw [Int.toNat_of_nonneg hpos]
  · rw [Int.toNat_of_nonpos hneg, syscallReadfile, syscallReadfile, readFrom, readFrom,
      Int.toNat_of_nonpos hneg]
    simp only [Nat.cast_zero, Int.toNat_zero, readLoop]

/-- `syscall_readfile` returns bytes of the file. -/
theorem syscallReadfile_content {fcb : FCB} {fd : ℤ} (h : FsOk s) (hsizes : SizesOk s)
    (hused : s.InUse fcb.inodeOffset) (hvalid : fcb.valid fd = true)
    (hmode : modeCanRead fcb.flags = true) (hoff : 0 ≤ fcb.offset) (str : Buf) (maxLen : ℤ) (buffer : Buf) :
    ∃ (bytes : List UInt8) (str' : Buf),
      bytes = ((s.content fcb.inodeOffset).drop fcb.offset.toNat).take maxLen.toNat
      ∧ syscallReadfile s fcb fd str maxLen buffer
        = ((bytes.length : ℤ), { fcb with offset := fcb.offset + bytes.length }, str')
      ∧ bytesOf str' bytes.length = bytes := by
  have ⟨hpos, hle⟩ := hsizes _ hused
  have hsize : (fcb.inode s).size = ((fcb.inode s).size.toNat : ℤ) := (Int.toNat_of_nonneg hpos).symm
  have hmax : (fcb.inode s).size.toNat ≤ maxBlocks * 1024 := by
    have hcount := h.owned.blocks_le hused
    rw [Inode.blocks] at hcount
    show (loadInode s.disk fcb.inodeOffset).size.toNat ≤ _
    omega
  obtain ⟨str', hread, hbytes⟩ := syscallReadfile_view h.inodes.formatted hvalid hmode
    (Int.toNat_of_nonneg hoff).symm hsize hmax maxLen.toNat str buffer
  refine ⟨(view s fcb).read maxLen.toNat, str', ?_, ?_, hbytes⟩
  · rw [ByteFile.read, view, FS.content]
  · rw [syscallReadfile_toNat, hread, Nat.cast_add, Int.toNat_of_nonneg hoff]

/-- `new` is `old` with the bytes at `off` replaced. What is between the end of `old` and `off` is left
open. -/
def Overwrites (old new : List UInt8) (off : ℕ) (bytes : List UInt8) : Prop :=
  ∃ pre, pre.length = off ∧ old.take off <+: pre ∧ new = pre ++ bytes ++ old.drop (off + bytes.length)

theorem take_contentOf_prefix (s : FS) {size : ℕ} (hsize : ino.size = (size : ℤ))
    (hblocks : size ≤ ino.blocks * 1024) :
    (contentOf s.disk ino).take off <+: bytesOf (oldByte s ino) off := by
  rcases Nat.le_total off size with hle | hge
  · rw [take_contentOf s hsize hblocks hle]
  · obtain ⟨n, rfl⟩ := Nat.exists_eq_add_of_le hge
    have hlength := length_contentOf s.disk hsize
    rw [bytesOf_add, take_contentOf s hsize hblocks le_rfl, List.take_of_length_le hlength.le,
      List.take_of_length_le (by omega)]
    exact List.prefix_append ..

/-- A write of `len` bytes that changes its file only: the file is regular, the offset is in its blocks
or in the next one, and the blocks that it needs are free. -/
structure WriteFits (s : FS) (fcb : FCB) (len : ℤ) : Prop where
  regular : ¬ IsDir s.disk fcb.inodeOffset
  near : fcb.offset.toNat / 1024 ≤ (fcb.inode s).blocks
  room : RoomFor s (fcb.inode s) (fcb.offset.toNat + len.toNat)

/-- The path leads to `o` through directories. -/
structure FoundAt (s : FS) (path : List UInt8) (o : ℕ) : Prop where
  chars : ∀ x ∈ path, x ≠ 0
  passes : PassesNoFile s.disk s.rootOffset path
  leads : Leads s.disk s.rootOffset path o

/-- The control block that `write_page_to_file` makes up. -/
def pageFCB (o : ℕ) : FCB := { inuse := true, inodeOffset := o, offset := 0, flags := 2 }

/-- A new file is empty. -/
theorem SizesOk.created {x : ℕ} (h : SizesOk s) (hnew : Created s s' x) : SizesOk s' := by
  intro y hy
  rcases (hnew.inUse y).mp hy with hy | rfl
  · rw [hnew.inode y hy]
    exact h y hy
  · rw [hnew.size, hnew.blockCount]
    exact ⟨le_rfl, le_rfl⟩

section call
variable {fcb : FCB} {fd len : ℤ} (hvalid : fcb.valid fd = true) (hmode : modeCanWrite fcb.flags = true)
  (str buffer : Buf) (stack : ℕ → ℕ → Buf)
include hvalid hmode

/-- Without a byte to write the inode is written back as it was read. -/
theorem syscallWritefile_nothing (hlen : len ≤ 0) :
    syscallWritefile s fcb fd str len buffer stack = some (len, s, fcb) := by
  rw [syscallWritefile, hvalid, hmode, Int.toNat_of_nonpos hlen, writeLoop]
  simp only [Bool.not_true, Bool.or_self, Bool.false_eq_true, if_false, Option.map_some,
    storeInode_loadInode]

theorem syscallWritefile_tree (h : FsOk s) (hsizes : SizesOk s) (hused : s.InUse fcb.inodeOffset)
    (hoff : 0 ≤ fcb.offset) (hlen : 0 < len) (hfits : WriteFits s fcb len) :
    ∃ s', syscallWritefile s fcb fd str len buffer stack
        = some (len, s', { fcb with offset := fcb.offset + len })
      ∧ FsOk s' ∧ SizesOk s' ∧ OthersKept s s' fcb.inodeOffset
      ∧ Overwrites (s.content fcb.inodeOffset) (s'.content fcb.inodeOffset) fcb.offset.toNat
          (bytesOf str len.toNat) := by
  have ⟨hpos, hle⟩ := hsizes _ hused
  have hsize : (loadInode s.disk fcb.inodeOffset).size
      = ((loadInode s.disk fcb.inodeOffset).size.toNat : ℤ) := (Int.toNat_of_nonneg hpos).symm
  have hblocks : (loadInode s.disk fcb.inodeOffset).size.toNat
      ≤ (loadInode s.disk fcb.inodeOffset).blocks * 1024 := by
    rw [Inode.blocks]
    omega
  obtain ⟨s', ino, hwrite, hw, hload⟩ := syscallWritefile_spec h.inodes.formatted h.owned hused fcb
    hused.isSlot rfl hvalid hmode (Int.toNat_of_nonneg hoff).symm hfits.near
    (Int.pos_iff_toNat_pos.mp hlen) hfits.room.1 hfits.room.2 str buffer stack
  rw [Nat.cast_add, Int.toNat_of_nonneg hoff, Int.toNat_of_nonneg hlen.le] at hwrite
  refine ⟨s', hwrite, h.written hused hw hload hfits.regular, hsizes.written h hused hw hload,
    hw.othersKept h hused hload, bytesOf (oldByte s (loadInode s.disk fcb.inodeOffset)) fcb.offset.toNat, ?_,
    take_contentOf_prefix s hsize hblocks, ?_⟩
  · rw [length_bytesOf]
  · rw [FS.content, hload, hw.contentOf_eq hsize hblocks, length_bytesOf]
    rfl

end call

end SeL4Sys

import SeL4Sys.BlockUse
import SeL4Sys.Lib.IndexTree

/-!
# The block tree of an inode

Seen from above, an inode is fifteen index trees: twelve of depth 0, the direct pointers, and
one each of depth 1, 2 and 3. A `Node` names a block in one of them, data block or pointer
block, and `Node.sector` is where that block lies. `dataNode k` is data block `k`.

The ten branches of `allocLastBlock` are one operation on these trees, `growDisk` and
`growInode`: new pointer blocks for the trailing zero digits of the index, each with the one
below it as its first entry, and one entry for the topmost of them in the block above or in
the inode. The ten branches of `freeLastBlock` give back the same blocks.
-/

namespace SeL4Sys

open Bytes IndexTree

/-- A block of a file: one of the fifteen trees, and the way down from its root, last step
first. -/
structure Node where
  root : ℕ
  path : List ℕ
deriving DecidableEq

/-- The levels of pointer blocks below root `r`. -/
def depth (r : ℕ) : ℕ := r - 11

/-- The index of the first data block below root `r`. -/
def rootStart (r : ℕ) : ℕ := if r ≤ 12 then r else if r = 13 then 268 else 65804

/-- The largest number of blocks of a file, `bound3`. -/
def maxBlocks : ℕ := 16843020

/-- The root that data block `k` is below. -/
def dataRoot (k : ℕ) : ℕ := if k < 12 then k else if k < 268 then 12 else if k < 65804 then 13 else 14

/-- Data block `k`. -/
def dataNode (k : ℕ) : Node :=
  ⟨dataRoot k, digits 256 (depth (dataRoot k)) (k - rootStart (dataRoot k))⟩

/-- The number of pointer blocks that come with data block `k`. -/
def newLevels (k : ℕ) : ℕ := zeros (dataNode k).path

namespace Node

/-- The index of the first data block below the node. -/
def first (n : Node) : ℕ := rootStart n.root + IndexTree.first 256 (depth n.root) n.path

/-- There is such a node. -/
structure Valid (n : Node) : Prop where
  root_lt : n.root < 15
  isNode : IsNode 256 (depth n.root) n.path

/-- The node is there in a file of `c` blocks. -/
structure Live (n : Node) (c : ℕ) : Prop where
  valid : n.Valid
  first_lt : n.first < c

end Node

/-! ## Nodes and indices -/

theorem index_bounds {k : ℕ} (h : k < maxBlocks) :
    rootStart (dataRoot k) ≤ k ∧ k - rootStart (dataRoot k) < 256 ^ depth (dataRoot k) := by
  unfold maxBlocks at h
  unfold dataRoot
  split_ifs with h₁ h₂ h₃
  · simp only [rootStart, depth, if_pos (show k ≤ 12 by omega), show k - 11 = 0 by omega]
    omega
  · norm_num [rootStart, depth]
    omega
  · norm_num [rootStart, depth]
    omega
  · norm_num [rootStart, depth]
    omega

theorem dataRoot_lt (k : ℕ) : dataRoot k < 15 := by
  unfold dataRoot
  split_ifs <;> omega

theorem dataNode_valid (k : ℕ) : (dataNode k).Valid :=
  ⟨dataRoot_lt k, isNode_digits (by norm_num) _ _⟩

/-- A data block is at the bottom of its tree. -/
theorem length_path_dataNode (k : ℕ) : (dataNode k).path.length = depth (dataNode k).root :=
  length_digits _ _

theorem first_dataNode {k : ℕ} (h : k < maxBlocks) : (dataNode k).first = k := by
  obtain ⟨hle, hlt⟩ := index_bounds h
  simp only [Node.first, dataNode, first_digits hlt]
  omega

theorem dataNode_live {k c : ℕ} (h : k < maxBlocks) (hc : k < c) : (dataNode k).Live c :=
  ⟨dataNode_valid k, by rw [first_dataNode h]; exact hc⟩

theorem dataNode_inj {k l : ℕ} (hk : k < maxBlocks) (hl : l < maxBlocks)
    (h : dataNode k = dataNode l) : k = l := by
  rw [← first_dataNode hk, ← first_dataNode hl, h]

/-- The trees cover the indices without overlap. -/
theorem Node.Valid.dataRoot_first {n : Node} (h : n.Valid) :
    dataRoot n.first = n.root ∧ n.first < maxBlocks := by
  have hlt := IndexTree.first_lt (by norm_num) h.isNode
  have hr := h.root_lt
  unfold Node.first
  generalize IndexTree.first 256 (depth n.root) n.path = m at hlt
  generalize n.root = r at hlt hr
  unfold dataRoot rootStart maxBlocks
  interval_cases r <;> norm_num [depth] at hlt ⊢ <;> first
    | omega
    | (constructor
       · split_ifs <;> omega
       · omega)

/-- The nodes that come with data block `k` are the block and its ancestors along the trailing
zeros of its index. -/
theorem Node.Valid.eq_drop {n : Node} (h : n.Valid) {k : ℕ} (hk : n.first = k) :
    ∃ j, j ≤ newLevels k ∧ n = ⟨dataRoot k, (dataNode k).path.drop j⟩ := by
  obtain ⟨hroot, -⟩ := h.dataRoot_first
  rw [hk] at hroot
  obtain ⟨r, l⟩ := n
  simp only at hroot
  subst hroot
  have hfirst : IndexTree.first 256 (depth (dataRoot k)) l = k - rootStart (dataRoot k) := by
    simp only [Node.first] at hk
    omega
  obtain ⟨hle, hdrop⟩ := eq_drop_of_first_eq (by norm_num) h.isNode hfirst
  exact ⟨_, hle, congrArg (Node.mk _) hdrop⟩

theorem first_drop_dataNode {k j : ℕ} (hk : k < maxBlocks) (hj : j ≤ newLevels k) :
    (Node.mk (dataRoot k) ((dataNode k).path.drop j)).first = k := by
  obtain ⟨hle, hlt⟩ := index_bounds hk
  have := IndexTree.first_drop hlt hj
  simp only [Node.first, dataNode] at this ⊢
  omega

/-- The parent of a live node is live. -/
theorem Node.Live.tail {r i c : ℕ} {l : List ℕ} (h : (Node.mk r (i :: l)).Live c) :
    (Node.mk r l).Live c := by
  refine ⟨⟨h.valid.root_lt, h.valid.isNode.tail⟩, ?_⟩
  have hlen : l.length < depth r := h.valid.isNode.length_le
  have hfirst := h.first_lt
  simp only [Node.first, first_cons hlen] at hfirst ⊢
  omega

/-- Below a nonzero entry the index has grown. -/
theorem first_lt_first_cons {r i : ℕ} {l : List ℕ} (h : (Node.mk r (i :: l)).Valid) (hi : i ≠ 0) :
    (Node.mk r l).first < (Node.mk r (i :: l)).first := by
  have hlen : l.length < depth r := h.isNode.length_le
  have hpos : 0 < 256 ^ (depth r - l.length - 1) * i :=
    Nat.mul_pos (Nat.pow_pos (by norm_num)) (by omega)
  simp only [Node.first, first_cons hlen]
  omega

/-! ## Where the blocks are -/

/-- Entry `i` of the pointer block at sector `b`. -/
def ptr (d : Disk) (b i : ℕ) : ℕ := leNat d (b * 512 + 4 * i) 4

/-- The pointer of the inode for root `r`. -/
def Inode.rootPointer (ino : Inode) (r : ℕ) : ℕ :=
  if r < 12 then ino.pointer r
  else if r = 12 then ino.singlyPointer
  else if r = 13 then ino.doublyPointer
  else ino.triplyPointer

/-- The inode with another pointer for root `r`. -/
def Inode.setRoot (ino : Inode) (r v : ℕ) : Inode :=
  if r < 12 then { ino with pointer := Function.update ino.pointer r v }
  else if r = 12 then { ino with singlyPointer := v }
  else if r = 13 then { ino with doublyPointer := v }
  else { ino with triplyPointer := v }

/-- Following pointers from root `r` down. -/
def resolve (d : Disk) (ino : Inode) (r : ℕ) : List ℕ → ℕ
  | [] => ino.rootPointer r
  | i :: l => ptr d (resolve d ino r l) i

/-- The sector of a block of the file. -/
def Node.sector (d : Disk) (ino : Inode) (n : Node) : ℕ := resolve d ino n.root n.path

theorem dataNode_direct {k : ℕ} (h : k < 12) : dataNode k = ⟨k, []⟩ := by
  rw [dataNode, dataRoot, if_pos h, depth, show k - 11 = 0 by omega, digits]

theorem dataNode_singly {k : ℕ} (h₁ : 12 ≤ k) (h₂ : k < 268) : dataNode k = ⟨12, [k - 12]⟩ := by
  rw [dataNode, dataRoot, if_neg (by omega), if_pos h₂]
  simp only [rootStart, depth, digits]
  norm_num
  omega

theorem dataNode_doubly {k : ℕ} (h₁ : 268 ≤ k) (h₂ : k < 65804) :
    dataNode k = ⟨13, [(k - 268) % 256, (k - 268) / 256]⟩ := by
  rw [dataNode, dataRoot, if_neg (by omega), if_neg (by omega), if_pos h₂]
  simp only [rootStart, depth, digits]
  norm_num
  omega

theorem dataNode_triply {k : ℕ} (h₁ : 65804 ≤ k) (h₂ : k < maxBlocks) :
    dataNode k = ⟨14, [(k - 65804) % 65536 % 256, (k - 65804) % 65536 / 256,
      (k - 65804) / 65536]⟩ := by
  unfold maxBlocks at h₂
  rw [dataNode, dataRoot, if_neg (by omega), if_neg (by omega), if_neg (by omega)]
  simp only [rootStart, depth, digits]
  norm_num
  omega

/-! ## Pointer buffers -/

section
variable {s : FS} (hf : Formatted s)
include hf

theorem Formatted.divider0 : s.superBlock.divider0 = 256 := by
  rw [SuperBlock.divider0, hf.blockSize]

theorem Formatted.divider1 : s.superBlock.divider1 = 65536 := by
  rw [SuperBlock.divider1, hf.divider0]

theorem Formatted.bound1 : s.superBlock.bound1 = 268 := by
  rw [SuperBlock.bound1, hf.divider0, SuperBlock.bound0]

theorem Formatted.bound2 : s.superBlock.bound2 = 65804 := by
  rw [SuperBlock.bound2, hf.bound1, hf.divider1]

theorem Formatted.bound3 : s.superBlock.bound3 = maxBlocks := by
  rw [SuperBlock.bound3, hf.bound2, SuperBlock.divider2, hf.divider1, hf.divider0, maxBlocks]

theorem readPointers_apply {b i : ℕ} (hi : i < 1024) :
    s.readPointers b i = s.disk (b * 512 + i) := by
  rw [FS.readPointers, readDisk_eq, hf.blockSize, patch_zero_apply (by omega), window_apply]

theorem pointerAt_readPointers {b i : ℕ} (hi : i < 256) :
    pointerAt (s.readPointers b) i = ptr s.disk b i := by
  refine leNat_congr 4 fun j hj => ?_
  rw [readPointers_apply hf (by omega), Nat.add_assoc]

theorem writeSectors_eq (b : ℕ) (buffer : Buf) :
    s.writeSectors b buffer = { s with disk := patch s.disk (b * 512) 1024 buffer } := by
  rw [FS.writeSectors, writeDisk_eq, hf.blockSize, sectorSize, Nat.one_mul]

/-- A pointer block that was read, changed in one entry and is written out. -/
theorem patch_setPointer_readPointers (d : Disk) (off b i v : ℕ) :
    patch d off 1024 (setPointer (s.readPointers b) i v)
      = patch d off 1024 (setPointer (window s.disk (b * 512)) i v) := by
  refine patch_congr fun j hj => ?_
  unfold setPointer
  by_cases hin : 4 * i ≤ j ∧ j < 4 * i + 4
  · rw [patch_apply_in hin.1 hin.2, patch_apply_in hin.1 hin.2]
  · rw [patch_apply_out (by omega), patch_apply_out (by omega), readPointers_apply hf hj,
      window_apply]

/-- The descent of `readBlock` and `writeBlock` follows the pointers to data block `k`. -/
theorem blockSector_eq {ino : Inode} {k : ℕ} (hk : k < maxBlocks) :
    blockSector s ino k = some ((dataNode k).sector s.disk ino) := by
  unfold blockSector
  simp only [hf.bound1, hf.bound2, hf.bound3, hf.divider0, hf.divider1, SuperBlock.bound0,
    pointerNum, if_pos hk]
  rcases lt_or_ge k 12 with h₀ | h₀
  · rw [if_pos h₀, dataNode_direct h₀, Node.sector, resolve, Inode.rootPointer, if_pos h₀]
  rw [if_neg (by omega)]
  rcases lt_or_ge k 268 with h₁ | h₁
  · rw [if_pos h₁, dataNode_singly h₀ h₁, pointerAt_readPointers hf (by omega)]
    rfl
  rw [if_neg (by omega)]
  rcases lt_or_ge k 65804 with h₂ | h₂
  · rw [if_pos h₂, dataNode_doubly h₁ h₂, pointerAt_readPointers hf (by omega),
      pointerAt_readPointers hf (by omega)]
    rfl
  · unfold maxBlocks at hk
    rw [if_neg (by omega), dataNode_triply h₂ hk, pointerAt_readPointers hf (by omega),
      pointerAt_readPointers hf (by omega), pointerAt_readPointers hf (by omega)]
    rfl

theorem blockSector_eq_none {ino : Inode} {k : ℕ} (hk : maxBlocks ≤ k) :
    blockSector s ino k = none := by
  have hk' : 16843020 ≤ k := hk
  unfold blockSector
  simp only [hf.bound1, hf.bound2, hf.bound3, hf.divider0, hf.divider1, SuperBlock.bound0,
    pointerNum]
  rw [if_neg (by omega), if_neg (by omega), if_neg (by omega), if_neg (by omega)]

end

end SeL4Sys

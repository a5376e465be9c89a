import SeL4Sys.BlockTree

/-!
# Growing and shrinking block trees

The ladders of `allocLastBlock` and `freeLastBlock` in terms of block trees: `allocLastBlock_eq`
and `freeLastBlock_eq` say that each of their branches is the one operation that the digits of
the block count call for.
-/

namespace SeL4Sys

open Bytes IndexTree

/-- The new pointer blocks at `b 1`, .., `b t`, written bottom up. Each has the block below it
as its first entry and leaves the rest as the buffer had it. -/
def plant (b : ℕ → ℕ) (stack : ℕ → Buf) (d : Disk) : ℕ → Disk
  | 0 => d
  | t + 1 => patch (plant b stack d t) (b (t + 1) * 512) 1024 (setPointer (stack (t + 1)) 0 (b t))

/-- The device after the new blocks `b 0`, .., `b t` are in place at node `rest` of root `r`. -/
def growDisk (d : Disk) (ino : Inode) (r : ℕ) (rest : List ℕ) (t : ℕ) (b : ℕ → ℕ)
    (stack : ℕ → Buf) : Disk :=
  match rest with
  | [] => plant b stack d t
  | i :: l => patch (plant b stack d t) (resolve d ino r l * 512) 1024
      (setPointer (window d (resolve d ino r l * 512)) i (b t))

/-- The inode after block `b` is in place at node `rest` of root `r`. -/
def growInode (ino : Inode) (r : ℕ) (rest : List ℕ) (b : ℕ) : Inode :=
  match rest with
  | [] => ino.setRoot r b
  | _ :: _ => ino

/-- The blocks that go into the tree with data block `b`. -/
def chain (s : FS) (b : ℕ) : ℕ → ℕ
  | 0 => b
  | j + 1 => s.fresh j

/-- The file system and the inode before the end of `allocLastBlock`. -/
def grown (s : FS) (ino : Inode) (k b : ℕ) (stack : ℕ → Buf) : FS × Inode :=
  let t := newLevels k
  let rest := (dataNode k).path.drop t
  ({ s.takes t with
      disk := growDisk (s.takes t).disk ino (dataRoot k) rest t (chain s b) stack },
    growInode ino (dataRoot k) rest (chain s b t))

/-! ## The branches -/

/-- The branches of the ladders, in their order: what the tests say about block `k`, its node, and how
many of the pointer blocks above it are new: as many as its path has leading zeros. -/
inductive Rung (k : ℕ) : Node → ℕ → Prop
  | direct (h : k < 12) : Rung k ⟨k, []⟩ 0
  | firstSingly (h : k = 12) : Rung k ⟨12, [0]⟩ 1
  | singly (h₁ : 12 < k) (h₂ : k < 268) : Rung k ⟨12, [k - 12]⟩ 0
  | firstDoubly (h : k = 268) : Rung k ⟨13, [0, 0]⟩ 2
  | newSingly (h₁ : 268 < k) (h₂ : k < 65804) (h₀ : (k - 268) % 256 = 0) :
    Rung k ⟨13, [0, (k - 268) / 256]⟩ 1
  | doubly (h₁ : 268 < k) (h₂ : k < 65804) (h₀ : (k - 268) % 256 ≠ 0) :
    Rung k ⟨13, [(k - 268) % 256, (k - 268) / 256]⟩ 0
  | firstTriply (h : k = 65804) : Rung k ⟨14, [0, 0, 0]⟩ 3
  | newDoubly (h : 65804 < k) (h₁ : (k - 65804) % 65536 = 0) :
    Rung k ⟨14, [0, 0, (k - 65804) / 65536]⟩ 2
  | newSinglyBelow (h : 65804 < k) (h₁ : (k - 65804) % 65536 ≠ 0) (h₀ : (k - 65804) % 256 = 0) :
    Rung k ⟨14, [0, (k - 65804) % 65536 / 256, (k - 65804) / 65536]⟩ 1
  | triply (h : 65804 < k) (h₁ : (k - 65804) % 65536 ≠ 0) (h₀ : (k - 65804) % 256 ≠ 0) :
    Rung k ⟨14, [(k - 65804) % 65536 % 256, (k - 65804) % 65536 / 256, (k - 65804) / 65536]⟩ 0

/-- Every block is on one of the branches. -/
theorem exists_rung {k : ℕ} (hk : k < maxBlocks) :
    ∃ n t, Rung k n t ∧ dataNode k = n ∧ zeros n.path = t := by
  have hk' : k < 16843020 := hk
  obtain h₀ | rfl | h₁ : k < 12 ∨ k = 12 ∨ 12 < k := lt_trichotomy k 12
  · exact ⟨_, _, .direct h₀, dataNode_direct h₀, rfl⟩
  · exact ⟨_, _, .firstSingly rfl, dataNode_singly le_rfl (by norm_num), rfl⟩
  obtain h₂ | rfl | h₂ : k < 268 ∨ k = 268 ∨ 268 < k := lt_trichotomy k 268
  · exact ⟨_, _, .singly h₁ h₂, dataNode_singly h₁.le h₂, if_neg (by omega)⟩
  · exact ⟨_, _, .firstDoubly rfl, dataNode_doubly le_rfl (by norm_num), rfl⟩
  obtain h₃ | rfl | h₃ : k < 65804 ∨ k = 65804 ∨ 65804 < k := lt_trichotomy k 65804
  · have hnode := dataNode_doubly h₂.le h₃
    by_cases h₀ : (k - 268) % 256 = 0
    · refine ⟨_, _, .newSingly h₂ h₃ h₀, by rw [hnode, h₀], ?_⟩
      rw [zeros, if_pos rfl, zeros, if_neg (by omega)]
    · exact ⟨_, _, .doubly h₂ h₃ h₀, hnode, if_neg h₀⟩
  · exact ⟨_, _, .firstTriply rfl, dataNode_triply le_rfl hk, rfl⟩
  have hnode := dataNode_triply h₃.le hk
  by_cases h₁ : (k - 65804) % 65536 = 0
  · refine ⟨_, _, .newDoubly h₃ h₁, by rw [hnode, h₁], ?_⟩
    rw [zeros, if_pos rfl, zeros, if_pos rfl, zeros, if_neg (by omega)]
  by_cases h₀ : (k - 65804) % 256 = 0
  · refine ⟨_, _, .newSinglyBelow h₃ h₁ h₀, ?_, ?_⟩
    · rw [hnode, show (k - 65804) % 65536 % 256 = 0 by omega]
    · rw [zeros, if_pos rfl, zeros, if_neg (by omega)]
  · exact ⟨_, _, .triply h₃ h₁ h₀, hnode, if_neg (by omega)⟩

/-! ## Growing -/

section
variable {s : FS} {ino : Inode} {k : ℕ}

theorem grown_eq {r t : ℕ} {path : List ℕ} (hnode : dataNode k = ⟨r, path⟩) (ht : zeros path = t)
    (b : ℕ) (stack : ℕ → Buf) :
    grown s ino k b stack
      = ({ s.takes t with disk := growDisk (s.takes t).disk ino r (path.drop t) t (chain s b) stack },
          growInode ino r (path.drop t) (chain s b t)) := by
  have hroot : dataRoot k = r := congrArg Node.root hnode
  simp only [grown, newLevels, hnode, ht, hroot]

/-- The number of pointer blocks that `allocBlock` reckons with. -/
theorem calNeededPointerBlocks_eq (hf : Formatted s) (hk : k < maxBlocks) :
    calNeededPointerBlocks s.superBlock k = newLevels k := by
  have hk' : k < 16843020 := hk
  unfold calNeededPointerBlocks newLevels
  simp only [hf.bound1, hf.bound2, hf.bound3, hf.divider0, hf.divider1, SuperBlock.bound0,
    pointerNum, maxBlocks, ← Int.dvd_iff_tmod_eq_zero]
  obtain ⟨n, t, hrung, hnode, ht⟩ := exists_rung hk
  rw [hnode, ht]
  split_ifs <;> cases hrung <;> omega

theorem calNeededPointerBlocks_full (hf : Formatted s) (hk : maxBlocks ≤ k) :
    calNeededPointerBlocks s.superBlock k = -1 := by
  have hk' : 16843020 ≤ k := hk
  unfold calNeededPointerBlocks
  simp only [hf.bound1, hf.bound2, hf.bound3, SuperBlock.bound0, pointerNum, maxBlocks]
  split_ifs <;> omega

theorem allocLastBlock_full (hf : Formatted s) (hcount : ino.blockCount = k) (hk : maxBlocks ≤ k)
    (inodeOffset b : ℕ) (stack : ℕ → Buf) : allocLastBlock s ino inodeOffset b stack = none := by
  have hk' : 16843020 ≤ k := hk
  have hn : ino.blockCount.toNat = k := by rw [hcount, Int.toNat_natCast]
  unfold allocLastBlock
  simp only [hn, hf.bound1, hf.bound2, hf.bound3, SuperBlock.bound0, pointerNum, maxBlocks]
  have hlt : ∀ b, b ≤ 16843020 → ¬ k < b := fun b hb => by omega
  rw [if_neg (hlt _ (by norm_num)), if_neg (by omega), if_neg (hlt _ (by norm_num)),
    if_neg (by omega), if_neg fun h => hlt _ (by norm_num) h.1, if_neg (hlt _ (by norm_num)),
    if_neg (by omega), if_neg fun h => hlt _ le_rfl h.1, if_neg fun h => hlt _ le_rfl h.1,
    if_neg (hlt _ le_rfl)]

/-- The pointer blocks are written after all the blocks have been taken. -/
theorem writeSectors_takes (hf : Formatted s) (j b : ℕ) (buffer : Buf) :
    (s.takes j).writeSectors b buffer
      = { s.takes j with disk := patch (s.takes j).disk (b * 512) 1024 buffer } :=
  writeSectors_eq (takes_formatted hf j).1 b buffer

theorem writeSectors_takes_patch (hf : Formatted s) (j b : ℕ) (d : Disk) (buffer : Buf) :
    FS.writeSectors { s.takes j with disk := d } b buffer
      = { s.takes j with disk := patch d (b * 512) 1024 buffer } := by
  rw [FS.writeSectors, writeDisk_eq, (takes_formatted hf j).1.blockSize, sectorSize, Nat.one_mul]

/-- Every branch of `allocLastBlock` grows the tree. -/
theorem allocLastBlock_eq (hf : Formatted s) (hcount : ino.blockCount = k) (hk : k < maxBlocks)
    (inodeOffset b : ℕ) (stack : ℕ → Buf) :
    allocLastBlock s ino inodeOffset b stack
      = some (finishAlloc (grown s ino k b stack).1 (grown s ino k b stack).2 inodeOffset) := by
  have hk' : k < 16843020 := hk
  have hn : ino.blockCount.toNat = k := by rw [hcount, Int.toNat_natCast]
  have htake : ∀ j, (s.takes j).takeBlock = (s.takes (j + 1), s.fresh j) := fun _ => rfl
  have htake₀ : s.takeBlock = (s.takes 1, s.fresh 0) := rfl
  obtain ⟨⟨r, path⟩, t, hrung, hnode, ht⟩ := exists_rung hk
  rw [grown_eq hnode ht]
  unfold allocLastBlock
  simp only [hn, hf.bound1, hf.bound2, hf.bound3, hf.divider0, hf.divider1,
    SuperBlock.bound0, pointerNum, maxBlocks, hk', true_and, ite_true, htake₀, htake,
    writeSectors_takes hf, writeSectors_takes_patch hf, writeSectors_eq hf]
  cases hrung with
  | direct h =>
    rw [if_pos h]
    simp only [List.drop_nil, growDisk, growInode, plant, chain, FS.takes, Inode.setRoot, if_pos h]
  | firstSingly h =>
    rw [if_neg (by omega), if_pos h]
    simp [growDisk, growInode, plant, chain, Inode.setRoot]
  | singly h₁ h₂ =>
    rw [if_neg (by omega), if_neg (by omega), if_pos h₂]
    simp [growDisk, growInode, plant, chain, resolve, Inode.rootPointer, FS.takes,
      patch_setPointer_readPointers hf]
  | firstDoubly h =>
    rw [if_neg (by omega), if_neg (by omega), if_neg (by omega), if_pos h]
    simp [growDisk, growInode, plant, chain, Inode.setRoot]
  | newSingly h₁ h₂ h₀ =>
    rw [if_neg (by omega), if_neg (by omega), if_neg (by omega), if_neg (by omega), if_pos ⟨h₂, h₀⟩]
    simp [growDisk, growInode, plant, chain, resolve, Inode.rootPointer,
      patch_setPointer_readPointers (takes_formatted hf 1).1]
  | doubly h₁ h₂ h₀ =>
    rw [if_neg (by omega), if_neg (by omega), if_neg (by omega), if_neg (by omega),
      if_neg fun h => h₀ h.2, if_pos h₂]
    simp [growDisk, growInode, plant, chain, resolve, Inode.rootPointer, FS.takes,
      patch_setPointer_readPointers hf, pointerAt_readPointers hf
        (show (k - 268) / 256 < 256 by omega)]
  | firstTriply h =>
    rw [if_neg (by omega), if_neg (by omega), if_neg (by omega), if_neg (by omega),
      if_neg (by omega), if_neg (by omega), if_pos h]
    simp [growDisk, growInode, plant, chain, Inode.setRoot]
  | newDoubly h h₁ =>
    rw [if_neg (by omega), if_neg (by omega), if_neg (by omega), if_neg (by omega),
      if_neg (by omega), if_neg (by omega), if_neg (by omega), if_pos h₁]
    simp [growDisk, growInode, plant, chain, resolve, Inode.rootPointer,
      patch_setPointer_readPointers (takes_formatted hf 2).1]
  | newSinglyBelow h h₁ h₀ =>
    rw [if_neg (by omega), if_neg (by omega), if_neg (by omega), if_neg (by omega),
      if_neg (by omega), if_neg (by omega), if_neg (by omega), if_neg h₁, if_pos h₀]
    simp [growDisk, growInode, plant, chain, resolve, Inode.rootPointer,
      patch_setPointer_readPointers (takes_formatted hf 1).1,
      pointerAt_readPointers (takes_formatted hf 1).1
        (show (k - 65804) / 65536 < 256 by omega)]
  | triply h h₁ h₀ =>
    rw [if_neg (by omega), if_neg (by omega), if_neg (by omega), if_neg (by omega),
      if_neg (by omega), if_neg (by omega), if_neg (by omega), if_neg h₁, if_neg h₀]
    simp [growDisk, growInode, plant, chain, resolve, Inode.rootPointer, FS.takes,
      patch_setPointer_readPointers hf,
      pointerAt_readPointers hf (show (k - 65804) / 65536 < 256 by omega),
      pointerAt_readPointers hf (show (k - 65804) % 65536 / 256 < 256 by omega)]

/-! ## Shrinking -/

/-- The blocks that data block `k` came with, from the data block upwards. -/
def levelBlocks (d : Disk) (ino : Inode) (k : ℕ) : List ℕ :=
  (List.range (newLevels k + 1)).map fun j =>
    (Node.mk (dataRoot k) ((dataNode k).path.drop j)).sector d ino

theorem levelBlocks_eq {r t : ℕ} {path : List ℕ} (hnode : dataNode k = ⟨r, path⟩)
    (ht : zeros path = t) (d : Disk) :
    levelBlocks d ino k = (List.range (t + 1)).map fun j => resolve d ino r (path.drop j) := by
  have hroot : dataRoot k = r := congrArg Node.root hnode
  simp only [levelBlocks, newLevels, hnode, ht, hroot, Node.sector]

/-- Every branch of `freeLastBlock` gives back the blocks that the last data block came
with. -/
theorem freeLastBlock_eq (hf : Formatted s) (hcount : ino.blockCount = k + 1) (hk : k < maxBlocks)
    (inodeOffset : ℕ) :
    freeLastBlock s ino inodeOffset
      = finishFree (s.gives (levelBlocks s.disk ino k)) { ino with blockCount := k }
          inodeOffset := by
  have hk' : k < 16843020 := hk
  have hsub : ino.blockCount - 1 = k := by omega
  obtain ⟨⟨r, path⟩, t, hrung, hnode, ht⟩ := exists_rung hk
  rw [levelBlocks_eq hnode ht]
  unfold freeLastBlock
  simp only [hsub, Int.toNat_natCast, hf.bound1, hf.bound2, hf.bound3, hf.divider0, hf.divider1,
    SuperBlock.bound0, pointerNum, maxBlocks, hk', true_and, ite_true]
  cases hrung with
  | direct h =>
    rw [if_pos h]
    simp [FS.gives, resolve, Inode.rootPointer, h]
  | firstSingly h =>
    rw [if_neg (by omega), if_pos h]
    simp [FS.gives, resolve, Inode.rootPointer, List.range_succ, pointerAt_readPointers hf]
  | singly h₁ h₂ =>
    rw [if_neg (by omega), if_neg (by omega), if_pos h₂]
    simp [FS.gives, resolve, Inode.rootPointer,
      pointerAt_readPointers hf (show k - 12 < 256 by omega)]
  | firstDoubly h =>
    rw [if_neg (by omega), if_neg (by omega), if_neg (by omega), if_pos h]
    simp [FS.gives, resolve, Inode.rootPointer, List.range_succ, pointerAt_readPointers hf]
  | newSingly h₁ h₂ h₀ =>
    rw [if_neg (by omega), if_neg (by omega), if_neg (by omega), if_neg (by omega), if_pos ⟨h₂, h₀⟩]
    simp [FS.gives, resolve, Inode.rootPointer, List.range_succ, pointerAt_readPointers hf,
      show (k - 268) / 256 < 256 by omega]
  | doubly h₁ h₂ h₀ =>
    rw [if_neg (by omega), if_neg (by omega), if_neg (by omega), if_neg (by omega),
      if_neg fun h => h₀ h.2, if_pos h₂]
    simp [FS.gives, resolve, Inode.rootPointer,
      pointerAt_readPointers hf (show (k - 268) / 256 < 256 by omega),
      pointerAt_readPointers hf (show (k - 268) % 256 < 256 by omega)]
  | firstTriply h =>
    rw [if_neg (by omega), if_neg (by omega), if_neg (by omega), if_neg (by omega),
      if_neg (by omega), if_neg (by omega), if_pos h]
    simp [FS.gives, resolve, Inode.rootPointer, List.range_succ, pointerAt_readPointers hf]
  | newDoubly h h₁ =>
    rw [if_neg (by omega), if_neg (by omega), if_neg (by omega), if_neg (by omega),
      if_neg (by omega), if_neg (by omega), if_neg (by omega), if_pos h₁]
    simp [FS.gives, resolve, Inode.rootPointer, List.range_succ, pointerAt_readPointers hf,
      show (k - 65804) / 65536 < 256 by omega]
  | newSinglyBelow h h₁ h₀ =>
    rw [if_neg (by omega), if_neg (by omega), if_neg (by omega), if_neg (by omega),
      if_neg (by omega), if_neg (by omega), if_neg (by omega), if_neg h₁, if_pos h₀]
    simp [FS.gives, resolve, Inode.rootPointer, List.range_succ, pointerAt_readPointers hf,
      show (k - 65804) / 65536 < 256 by omega, show (k - 65804) % 65536 / 256 < 256 by omega]
  | triply h h₁ h₀ =>
    rw [if_neg (by omega), if_neg (by omega), if_neg (by omega), if_neg (by omega),
      if_neg (by omega), if_neg (by omega), if_neg (by omega), if_neg h₁, if_neg h₀]
    simp [FS.gives, resolve, Inode.rootPointer,
      pointerAt_readPointers hf (show (k - 65804) / 65536 < 256 by omega),
      pointerAt_readPointers hf (show (k - 65804) % 65536 / 256 < 256 by omega),
      pointerAt_readPointers hf (show (k - 65804) % 256 < 256 by omega)]

end

end SeL4Sys

import SeL4Sys.BlockGrow

/-!
# Who owns which block

`Owned s P I` is the invariant of a family of inodes: all the blocks they reach, data and
pointer blocks alike, are in use and no two of them are the same. It is what makes files
independent of one another, and it is kept by adding a block (`Owned.alloc`), by writing one
(`Owned.write`) and by giving one back (`Owned.free`), as long as the allocator hands out
free blocks.
-/

namespace SeL4Sys

open Bytes IndexTree

variable {S : ℕ} {d d' : Disk}

/-! ## Pointers on the device -/

theorem ptr_congr {b i : ℕ} (h : Agree d d' (b * 512) 1024) (hi : i < 256) :
    ptr d' b i = ptr d b i :=
  leNat_congr 4 fun j hj => h _ (by omega) (by omega)

theorem ptr_patch {b i : ℕ} {buf : Buf} (hi : i < 256) :
    ptr (patch d (b * 512) 1024 buf) b i = pointerAt buf i := by
  refine leNat_congr 4 fun j hj => ?_
  rw [Nat.add_assoc, patch_apply_add (by omega)]

theorem pointerAt_setPointer {buf : Buf} {i v : ℕ} (hv : v < 256 ^ 4) :
    pointerAt (setPointer buf i v) i = v := by
  rw [pointerAt, setPointer, leNat_of_bytes (v := v) fun j hj => patch_apply_add hj, Nat.mod_eq_of_lt hv]

theorem pointerAt_setPointer_of_ne {buf : Buf} {i l v : ℕ} (h : l ≠ i) :
    pointerAt (setPointer buf i v) l = pointerAt buf l :=
  leNat_congr 4 fun j hj => patch_apply_out (by omega)

theorem pointerAt_window (b i : ℕ) : pointerAt (window d (b * 512)) i = ptr d b i :=
  leNat_congr 4 fun j _ => by rw [window_apply, Nat.add_assoc]

/-- A file's blocks are where they were when its inode and the pointers to them are as they
were. The induction is on the way down. -/
theorem sector_congr {ino ino' : Inode} {c : ℕ}
    (hroot : ∀ r, (Node.mk r []).Live c → ino'.rootPointer r = ino.rootPointer r)
    (hptr : ∀ r i l, (Node.mk r (i :: l)).Live c →
      ptr d' (resolve d ino r l) i = ptr d (resolve d ino r l) i)
    {n : Node} (hn : n.Live c) : n.sector d' ino' = n.sector d ino := by
  obtain ⟨r, path⟩ := n
  induction path with
  | nil => exact hroot r hn
  | cons i l ih =>
    have hl : resolve d' ino' r l = resolve d ino r l := ih hn.tail
    simp only [Node.sector, resolve] at hl ⊢
    rw [hl, hptr r i l hn]

/-- The blocks of a file depend on its pointers only. -/
theorem sector_eq_of_rootPointer {ino ino' : Inode}
    (h : ∀ r, ino'.rootPointer r = ino.rootPointer r) (n : Node) :
    n.sector d ino' = n.sector d ino := by
  obtain ⟨r, path⟩ := n
  simp only [Node.sector]
  induction path with
  | nil => exact h r
  | cons i l ih => rw [resolve, resolve, ih]

/-! ## What growing does to the pointers -/

/-- The regions that `growDisk` writes. -/
def growRegions (S : ℕ) (d : Disk) (ino : Inode) (r : ℕ) (rest : List ℕ) (t : ℕ) (b : ℕ → ℕ) :
    Set Region :=
  {q | (∃ j, 1 ≤ j ∧ j ≤ t ∧ q ∈ blockRegion S (b j))
    ∨ ∃ i l, rest = i :: l ∧ q ∈ blockRegion S (resolve d ino r l)}

/-- The new blocks are data blocks, different from one another and from the block above. -/
structure GrowOk (S : ℕ) (d : Disk) (ino : Inode) (r : ℕ) (rest : List ℕ) (t : ℕ) (b : ℕ → ℕ) :
    Prop where
  isData : ∀ j, j ≤ t → IsData S (b j)
  inj : ∀ j l, j ≤ t → l ≤ t → b j = b l → j = l
  digit : ∀ i l, rest = i :: l → i < 256
  parent : ∀ i l, rest = i :: l → IsData S (resolve d ino r l)
  parent_ne : ∀ i l, rest = i :: l → ∀ j, j ≤ t → b j ≠ resolve d ino r l

section grow
variable {ino : Inode} {r : ℕ} {rest : List ℕ} {t : ℕ} {b : ℕ → ℕ} (stack : ℕ → Buf)

theorem changesOnly_plant (h : ∀ j, j ≤ t → IsData S (b j)) :
    ChangesOnly S d (plant b stack d t) {q | ∃ j, 1 ≤ j ∧ j ≤ t ∧ q ∈ blockRegion S (b j)} := by
  induction t with
  | zero => exact ChangesOnly.refl _ _ _
  | succ t ih =>
    refine ((ih fun j hj => h j (by omega)).mono ?_).trans
      ((changesOnly_block _ _ (h (t + 1) le_rfl)).mono ?_)
    · rintro q ⟨j, h₁, h₂, hq⟩
      exact ⟨j, h₁, by omega, hq⟩
    · intro q hq
      exact ⟨t + 1, by omega, le_rfl, hq⟩

theorem changesOnly_growDisk (hdata : ∀ j, j ≤ t → IsData S (b j))
    (hparent : ∀ i l, rest = i :: l → IsData S (resolve d ino r l)) :
    ChangesOnly S d (growDisk d ino r rest t b stack) (growRegions S d ino r rest t b) := by
  have hplant := changesOnly_plant (S := S) (d := d) stack hdata
  cases rest with
  | nil => exact hplant.mono fun q hq => Or.inl hq
  | cons i l =>
    refine (hplant.mono fun q hq => Or.inl hq).trans
      ((changesOnly_block _ _ (hparent i l rfl)).mono ?_)
    exact fun q hq => Or.inr ⟨i, l, rfl, hq⟩

theorem GrowOk.changesOnly (h : GrowOk S d ino r rest t b) :
    ChangesOnly S d (growDisk d ino r rest t b stack) (growRegions S d ino r rest t b) :=
  changesOnly_growDisk stack h.isData h.parent

/-- A block that is none of those written. -/
theorem disjoint_growRegions {x : ℕ} (hnew : ∀ j, 1 ≤ j → j ≤ t → x ≠ b j)
    (hparent : ∀ i l, rest = i :: l → x ≠ resolve d ino r l) :
    Disjoint (blockRegion S x) (growRegions S d ino r rest t b) := by
  rw [Set.disjoint_left]
  rintro q hq (⟨j, h₁, h₂, hq'⟩ | ⟨i, l, hrest, hq'⟩)
  · exact Set.disjoint_left.mp (disjoint_blocks (hnew j h₁ h₂)) hq hq'
  · exact Set.disjoint_left.mp (disjoint_blocks (hparent i l hrest)) hq hq'

theorem region_notMem_growRegions (p : Pool) (i : ℕ) :
    p.region i ∉ growRegions S d ino r rest t b := by
  rintro (⟨j, _, _, hq⟩ | ⟨_, l, _, hq⟩)
  · exact region_notMem_block p S i _ hq
  · exact region_notMem_block p S i _ hq

/-- The first entry of a new pointer block is the block below. -/
theorem ptr_plant (h : GrowOk S d ino r rest t b) (hb : ∀ j, j ≤ t → b j < 256 ^ 4) {m j : ℕ}
    (hm : m ≤ t) (hj : j < m) : ptr (plant b stack d m) (b (j + 1)) 0 = b j := by
  induction m with
  | zero => omega
  | succ m ih =>
    rw [plant]
    rcases Nat.lt_succ_iff_lt_or_eq.mp hj with hlt | rfl
    · have hne : b (m + 1) ≠ b (j + 1) := by
        intro heq
        have := h.inj _ _ hm (by omega) heq
        omega
      rw [ptr_congr ((h.isData _ hm).agree_data (h.isData _ (by omega)) hne) (by norm_num),
        ih (by omega) hlt]
    · rw [ptr_patch (by norm_num), pointerAt_setPointer (hb j (by omega))]

theorem ptr_growDisk_new (h : GrowOk S d ino r rest t b) (hb : ∀ j, j ≤ t → b j < 256 ^ 4) {j : ℕ}
    (hj : j < t) : ptr (growDisk d ino r rest t b stack) (b (j + 1)) 0 = b j := by
  have hplant := ptr_plant stack h hb le_rfl hj
  cases rest with
  | nil => exact hplant
  | cons i l =>
    have hne := (h.parent_ne i l rfl (j + 1) (by omega)).symm
    rw [growDisk, ptr_congr ((h.parent i l rfl).agree_data (h.isData _ (by omega)) hne)
      (by norm_num), hplant]

/-- The entry for the topmost new block. -/
theorem ptr_growDisk_attach {i : ℕ} {l : List ℕ} (h : GrowOk S d ino r (i :: l) t b)
    (hb : b t < 256 ^ 4) :
    ptr (growDisk d ino r (i :: l) t b stack) (resolve d ino r l) i = b t := by
  rw [growDisk, ptr_patch (h.digit i l rfl), pointerAt_setPointer hb]

/-- The other entries of the block above are as they were. -/
theorem ptr_growDisk_other {i m : ℕ} {l : List ℕ} (hm : m < 256) (hne : m ≠ i) :
    ptr (growDisk d ino r (i :: l) t b stack) (resolve d ino r l) m
      = ptr d (resolve d ino r l) m := by
  rw [growDisk, ptr_patch hm, pointerAt_setPointer_of_ne hne, pointerAt_window]

end grow

/-! ## The invariant -/

/-- The number of blocks of a file. -/
abbrev Inode.blocks (ino : Inode) : ℕ := ino.blockCount.toNat

/-- The inodes `I x` with `P x` own their blocks: every block of each of them is in use, and
no block is reached twice. -/
structure Owned {ι : Type*} (s : FS) (P : ι → Prop) (I : ι → Inode) : Prop where
  count : ∀ x, P x → 0 ≤ (I x).blockCount ∧ (I x).blockCount ≤ maxBlocks
  used : ∀ x, P x → ∀ n : Node, n.Live (I x).blocks →
    Used s.superBlock.sectorNum s.disk (n.sector s.disk (I x))
  inj : ∀ x y, P x → P y → ∀ n m : Node, n.Live (I x).blocks → m.Live (I y).blocks →
    n.sector s.disk (I x) = m.sector s.disk (I y) → x = y ∧ n = m

section
variable {ι : Type*} {s : FS} {P : ι → Prop} {I : ι → Inode}

theorem Owned.blocks_le (h : Owned s P I) {x : ι} (hx : P x) : (I x).blocks ≤ maxBlocks := by
  obtain ⟨h₀, h₁⟩ := h.count x hx
  rw [Inode.blocks]
  omega

theorem Owned.isData (h : Owned s P I) {x : ι} (hx : P x) {n : Node} (hn : n.Live (I x).blocks) :
    IsData s.superBlock.sectorNum (n.sector s.disk (I x)) :=
  (h.used x hx n hn).isData

/-- Blocks stay where they are when the pointer blocks are left alone. -/
theorem sector_eq_of_agree {ino : Inode} {c : ℕ}
    (h : ∀ r i l, (Node.mk r (i :: l)).Live c → Agree d d' (resolve d ino r l * 512) 1024)
    {n : Node} (hn : n.Live c) : n.sector d' ino = n.sector d ino := by
  refine sector_congr (fun _ _ => rfl) (fun r i l hl => ?_) hn
  exact ptr_congr (h r i l hl) (hl.valid.isNode.lt i List.mem_cons_self)

/-- A data block is not the parent of anything. -/
theorem dataNode_ne_parent {r i k c : ℕ} {l : List ℕ} (h : (Node.mk r (i :: l)).Live c) :
    Node.mk r l ≠ dataNode k := by
  intro heq
  have hlen : l.length < depth r := h.valid.isNode.length_le
  have hfull := length_path_dataNode k
  rw [← heq] at hfull
  simp only at hfull
  omega

/-- The invariant carries over to a disk on which the same blocks are in use and the pointer
blocks are as they were. -/
theorem Owned.transfer (h : Owned s P I) {s' : FS}
    (hS : s'.superBlock.sectorNum = s.superBlock.sectorNum)
    (hsector : ∀ x, P x → ∀ n : Node, n.Live (I x).blocks →
      n.sector s'.disk (I x) = n.sector s.disk (I x))
    (hused : ∀ x, P x → ∀ n : Node, n.Live (I x).blocks →
      Used s.superBlock.sectorNum s'.disk (n.sector s.disk (I x))) : Owned s' P I where
  count := h.count
  used := fun x hx n hn => by
    rw [hS, hsector x hx n hn]
    exact hused x hx n hn
  inj := fun x y hx hy n m hn hm heq => by
    rw [hsector x hx n hn, hsector y hy m hm] at heq
    exact h.inj x y hx hy n m hn hm heq

/-- So is the invariant: only the block counts and the pointers matter. -/
theorem Owned.congr (h : Owned s P I) {I' : ι → Inode}
    (hcount : ∀ y, P y → (I' y).blockCount = (I y).blockCount)
    (hroot : ∀ y, P y → ∀ r, (I' y).rootPointer r = (I y).rootPointer r) : Owned s P I' where
  count := fun y hy => by
    rw [hcount y hy]
    exact h.count y hy
  used := fun y hy n hn => by
    rw [Inode.blocks, hcount y hy] at hn
    rw [sector_eq_of_rootPointer (hroot y hy)]
    exact h.used y hy n hn
  inj := fun y z hy hz n m hn hm heq => by
    rw [Inode.blocks, hcount y hy] at hn
    rw [Inode.blocks, hcount z hz] at hm
    rw [sector_eq_of_rootPointer (hroot y hy), sector_eq_of_rootPointer (hroot z hz)] at heq
    exact h.inj y z hy hz n m hn hm heq

/-! ## Writing a block -/

/-- `readBlock` on a block of the file. -/
theorem readBlock_eq (hf : Formatted s) {ino : Inode} {k : ℕ} (hk : k < maxBlocks) (buffer : Buf) :
    readBlock s ino k buffer
      = some (patch buffer 0 1024 (window s.disk ((dataNode k).sector s.disk ino * 512))) := by
  rw [readBlock, blockSector_eq hf hk, Option.map_some, readDisk_eq, hf.blockSize, Nat.one_mul]

/-- `writeBlock` on a block of the file. -/
theorem writeBlock_eq (hf : Formatted s) {ino : Inode} {k : ℕ} (hk : k < maxBlocks) (buffer : Buf) :
    writeBlock s ino k buffer = some { s with
      disk := patch s.disk ((dataNode k).sector s.disk ino * 512) 1024 buffer } := by
  rw [writeBlock, blockSector_eq hf hk, Option.map_some, writeSectors_eq hf]

/-- A file system with another disk has the same layout. -/
theorem Formatted.withDisk (hf : Formatted s) (d : Disk) : Formatted { s with disk := d } :=
  ⟨hf.blockSize, hf.groups_pos, hf.addressable, hf.inodeBitmap, hf.blockBitmap, hf.inodeTable⟩

/-- What writing data block `k` of file `x` does. -/
structure WriteSpec (s s' : FS) (P : ι → Prop) (I : ι → Inode) (x : ι) (k : ℕ) (buffer : Buf) :
    Prop where
  formatted : Formatted s'
  sectorNum : s'.superBlock.sectorNum = s.superBlock.sectorNum
  owned : Owned s' P I
  sector : ∀ y, P y → ∀ n : Node, n.Live (I y).blocks →
    n.sector s'.disk (I y) = n.sector s.disk (I y)
  written : ∀ i, i < 1024 → s'.disk ((dataNode k).sector s.disk (I x) * 512 + i) = buffer i
  alloc : SameAlloc s s'
  changes : ChangesOnly s.superBlock.sectorNum s.disk s'.disk
    (blockRegion s.superBlock.sectorNum ((dataNode k).sector s.disk (I x)))

/-- Writing a data block of one of the files keeps the invariant. -/
theorem Owned.write (hf : Formatted s) (h : Owned s P I) {x : ι} (hx : P x) {k : ℕ}
    (hk : k < (I x).blocks) (buffer : Buf) :
    ∃ s', writeBlock s (I x) k buffer = some s' ∧ WriteSpec s s' P I x k buffer := by
  have hmax : k < maxBlocks := lt_of_lt_of_le hk (h.blocks_le hx)
  have hlive := dataNode_live hmax hk
  have hdata := h.isData hx hlive
  have hchange := changesOnly_block s.disk buffer hdata
  -- the block that is written is not a pointer block of any file
  have hsector : ∀ y, P y → ∀ n : Node, n.Live (I y).blocks →
      n.sector (patch s.disk ((dataNode k).sector s.disk (I x) * 512) 1024 buffer) (I y)
        = n.sector s.disk (I y) := by
    intro y hy n hn
    refine sector_eq_of_agree (fun r i l hl => ?_) hn
    refine hchange.agree_block (h.isData hy hl.tail) (disjoint_blocks fun heq => ?_)
    exact dataNode_ne_parent hl (h.inj y x hy hx _ _ hl.tail hlive heq).2
  refine ⟨_, writeBlock_eq hf hmax buffer, hf.withDisk _, rfl, ?_, hsector, ?_, ?_, hchange⟩
  · refine h.transfer rfl hsector fun y hy n hn => ?_
    exact (hchange.used_iff fun i => region_notMem_block .block _ i _).mpr (h.used y hy n hn)
  · exact fun i hi => patch_apply_add hi
  · exact hchange.sameAlloc fun i => region_notMem_block .block _ i _

/-! ## Adding a block -/

/-- `growInode` leaves the counters alone. -/
theorem growInode_fields (ino : Inode) (r : ℕ) (rest : List ℕ) (b : ℕ) :
    (growInode ino r rest b).type = ino.type ∧ (growInode ino r rest b).linkCount = ino.linkCount
      ∧ (growInode ino r rest b).blockCount = ino.blockCount
      ∧ (growInode ino r rest b).size = ino.size := by
  cases rest with
  | nil =>
    rw [growInode, Inode.setRoot]
    split_ifs <;> exact ⟨rfl, rfl, rfl, rfl⟩
  | cons i l => exact ⟨rfl, rfl, rfl, rfl⟩

theorem rootPointer_setRoot (ino : Inode) {r r' : ℕ} (v : ℕ) (hr : r < 15) (hr' : r' < 15) :
    (ino.setRoot r v).rootPointer r' = if r' = r then v else ino.rootPointer r' := by
  unfold Inode.setRoot Inode.rootPointer
  split_ifs <;> simp_all
  all_goals omega

end

end SeL4Sys

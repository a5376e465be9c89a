import SeL4Sys.Ownership

/-!
# Adding and removing blocks keeps ownership

`allocBlock` and `freeLastBlock` on one inode of a family that owns its blocks.
-/

namespace SeL4Sys

open Bytes IndexTree Function

variable {ι : Type*} {s : FS} {P : ι → Prop} {I : ι → Inode} {x : ι} {c o : ℕ}

/-! ## Adding a block -/

/-- What adding a block to file `x`, with its inode at offset `o`, does when the new data block
is `b`. -/
structure AllocSpec [DecidableEq ι] (s s' : FS) (P : ι → Prop) (I : ι → Inode) (x : ι) (o b : ℕ) (ino : Inode) :
    Prop where
  formatted : Formatted s'
  sectorNum : s'.superBlock.sectorNum = s.superBlock.sectorNum
  type : ino.type = (I x).type
  linkCount : ino.linkCount = (I x).linkCount
  size : ino.size = (I x).size
  blockCount : ino.blockCount = (I x).blockCount + 1
  fits : (I x).Fits → ino.Fits
  stored : ino.Fits → loadInode s'.disk o = ino
  owned : Owned s' P (update I x ino)
  sector : ∀ y, P y → ∀ n : Node, n.Live (I y).blocks →
    n.sector s'.disk (update I x ino y) = n.sector s.disk (I y)
  new : (dataNode (I x).blocks).sector s'.disk ino = b
  isData : IsData s.superBlock.sectorNum b
  not_used : ¬ Used s.superBlock.sectorNum s.disk b
  used : ∀ a, Used s.superBlock.sectorNum s.disk a → Used s.superBlock.sectorNum s'.disk a
  alloc : SameAlloc (s.takes (newLevels (I x).blocks + 1)) s'
  content : ∀ a, IsData s.superBlock.sectorNum a →
    (∀ n : Node, n.Live ino.blocks → a = n.sector s'.disk ino → ∃ k, n = dataNode k) →
      Agree s.disk s'.disk (a * 512) 1024
  changes : ChangesOnly s.superBlock.sectorNum s.disk s'.disk
    {q | q ∈ poolRegions .block ∨ q ∈ slotRegion s.superBlock.sectorNum o
      ∨ ∃ n : Node, n.Live ino.blocks
          ∧ q ∈ blockRegion s.superBlock.sectorNum (n.sector s'.disk ino)}

/-- The node at which the new blocks are attached. -/
theorem rest_cons {i : ℕ} {l : List ℕ} (hc : c < maxBlocks)
    (h : (dataNode c).path.drop (newLevels c) = i :: l) :
    i ≠ 0 ∧ (Node.mk (dataRoot c) (i :: l)).Valid ∧ (Node.mk (dataRoot c) (i :: l)).first = c
      ∧ (Node.mk (dataRoot c) l).Live c := by
  have hvalid : (Node.mk (dataRoot c) (i :: l)).Valid := by
    rw [← h]
    exact ⟨(dataNode_valid c).root_lt, (dataNode_valid c).isNode.drop _⟩
  have hfirst : (Node.mk (dataRoot c) (i :: l)).first = c := by
    rw [← h]
    exact first_drop_dataNode hc le_rfl
  have hi : i ≠ 0 := by
    rcases drop_zeros (dataNode c).path with hnil | ⟨j, m, hcons, hj⟩
    · rw [newLevels, hnil] at h
      cases h
    · rw [newLevels, hcons] at h
      cases h
      exact hj
  refine ⟨hi, hvalid, hfirst, ⟨hvalid.root_lt, hvalid.isNode.tail⟩, ?_⟩
  have := first_lt_first_cons hvalid hi
  omega

/-- `allocBlock` when there are blocks enough. -/
theorem allocBlock_eq (hf : Formatted s) {ino : Inode} (hcount : ino.blockCount = c)
    (hc : c < maxBlocks) (havail : (newLevels c : ℤ) + 1 ≤ s.superBlock.availBlockNum)
    (stack : ℕ → Buf) :
    allocBlock s ino o stack = some (finishAlloc
      { s.takes (newLevels c + 1) with
        disk := growDisk (s.takes (newLevels c + 1)).disk ino (dataRoot c)
          ((dataNode c).path.drop (newLevels c)) (newLevels c) s.fresh stack }
      (growInode ino (dataRoot c) ((dataNode c).path.drop (newLevels c)) (s.fresh (newLevels c)))
      o) := by
  have hchain : chain s.takeBlock.1 s.takeBlock.2 = s.fresh := by
    funext j
    cases j with
    | zero => rfl
    | succ j => rw [chain, fresh_takeBlock]
  have hlast := allocLastBlock_eq (takeBlock_formatted hf).1 hcount hc o s.takeBlock.2 stack
  rw [grown, hchain, takes_takeBlock] at hlast
  rw [allocBlock, hcount, calNeededPointerBlocks_eq hf hc, if_neg (by omega)]
  simp only [hlast, Option.getD_some]

/-- `allocBlock` goes ahead only when enough blocks are available. -/
theorem allocBlock_avail (hf : Formatted s) {ino : Inode} (hcount : ino.blockCount = c)
    (hc : c < maxBlocks) {stack : ℕ → Buf} {q : FS × Inode}
    (h : allocBlock s ino o stack = some q) :
    (newLevels c : ℤ) + 1 ≤ s.superBlock.availBlockNum := by
  rw [allocBlock, hcount, calNeededPointerBlocks_eq hf hc] at h
  by_contra hlt
  rw [if_pos (by omega)] at h
  cases h

/-- `allocBlock` adds one to the block count, and leaves the layout alone, in any state. -/
theorem allocBlock_count (hf : Formatted s) {ino : Inode} (hcount : ino.blockCount = c)
    (hc : c < maxBlocks) {stack : ℕ → Buf} {q : FS × Inode}
    (h : allocBlock s ino o stack = some q) :
    Formatted q.1 ∧ q.2.blockCount = (c + 1 : ℕ) ∧ SameCounters .inode s q.1 := by
  have havail := allocBlock_avail hf hcount hc h
  rw [allocBlock_eq hf hcount hc havail stack, Option.some.injEq] at h
  rw [← h]
  have hcounters := sameCounters_takes s (newLevels c + 1)
  refine ⟨(takes_formatted hf (newLevels c + 1)).1.withDisk _, ?_,
    ⟨hcounters.superBlock, hcounters.group⟩⟩
  rw [finishAlloc]
  simp only [(growInode_fields ..).2.2.1, hcount, Nat.cast_add, Nat.cast_one]

/-- Taking blocks moves no block of any file. -/
theorem sector_takes (hf : Formatted s) (hown : Owned s P I) {m : ℕ} (hm : GetsFreeFor s m) {y : ι}
    (hy : P y) {n : Node} (hn : n.Live (I y).blocks) :
    n.sector (s.takes m).disk (I y) = n.sector s.disk (I y) := by
  refine sector_eq_of_agree (fun r i l hl => ?_) hn
  exact (changesOnly_takes hf hm).agree_block (hown.isData hy hl.tail) (disjoint_block_pool _ _ _)

/-- The disk after `allocBlock` has added data block `c` to the file `ino` at offset `o`. -/
def allocDisk (s : FS) (ino ino' : Inode) (c o : ℕ) (stack : ℕ → Buf) : Disk :=
  storeInode (growDisk (s.takes (newLevels c + 1)).disk ino (dataRoot c)
    ((dataNode c).path.drop (newLevels c)) (newLevels c) s.fresh stack) ino' o

/-- Pointers in data blocks are not touched by the write of the inode. -/
theorem ptr_allocDisk (ho : IsSlot s.superBlock.sectorNum o) (ino ino' : Inode) (stack : ℕ → Buf)
    {b i : ℕ} (hb : IsData s.superBlock.sectorNum b) (hi : i < 256) :
    ptr (allocDisk s ino ino' c o stack) b i
      = ptr (growDisk (s.takes (newLevels c + 1)).disk ino (dataRoot c)
          ((dataNode c).path.drop (newLevels c)) (newLevels c) s.fresh stack) b i :=
  ptr_congr ((changesOnly_slot _ ino' ho).agree_block hb (disjoint_block_slot _ _ _)) hi

section alloc
variable (hf : Formatted s) (hown : Owned s P I) (hx : P x) (hcount : (I x).blockCount = c)
  (hc : c < maxBlocks) (hget : GetsFreeFor s (newLevels c + 1))
include hf hown hx hcount hc hget

/-- The block above the new ones is one that the file has. -/
theorem resolve_parent {i : ℕ} {l : List ℕ}
    (h : (dataNode c).path.drop (newLevels c) = i :: l) :
    resolve (s.takes (newLevels c + 1)).disk (I x) (dataRoot c) l
        = resolve s.disk (I x) (dataRoot c) l
      ∧ (Node.mk (dataRoot c) l).Live (I x).blocks := by
  obtain ⟨_, _, _, hlive⟩ := rest_cons hc h
  have hlive' : (Node.mk (dataRoot c) l).Live (I x).blocks := by
    rw [Inode.blocks, hcount, Int.toNat_natCast]
    exact hlive
  exact ⟨sector_takes hf hown hget hx hlive', hlive'⟩

theorem growOk : GrowOk s.superBlock.sectorNum (s.takes (newLevels c + 1)).disk (I x) (dataRoot c)
    ((dataNode c).path.drop (newLevels c)) (newLevels c) s.fresh where
  isData := fun j hj => isData_fresh hf hget (by omega)
  inj := fun j l hj hl heq => fresh_inj hf hget (by omega) (by omega) heq
  digit := fun i l h => (rest_cons hc h).2.1.isNode.lt i List.mem_cons_self
  parent := fun i l h => by
    obtain ⟨heq, hlive⟩ := resolve_parent hf hown hx hcount hc hget h
    rw [heq]
    exact hown.isData hx hlive
  parent_ne := fun i l h j hj heq => by
    obtain ⟨hsame, hlive⟩ := resolve_parent hf hown hx hcount hc hget h
    rw [hsame] at heq
    refine (fresh_not_used hf hget (show j < newLevels c + 1 by omega)).1 ?_
    rw [heq]
    exact hown.used x hx _ hlive

variable (ho : IsSlot s.superBlock.sectorNum o) (ino' : Inode) (stack : ℕ → Buf)
include ho

/-- Everything `allocBlock` writes. -/
theorem changesOnly_allocDisk :
    ChangesOnly s.superBlock.sectorNum s.disk (allocDisk s (I x) ino' c o stack)
      {q | q ∈ poolRegions .block ∨ q ∈ slotRegion s.superBlock.sectorNum o
        ∨ q ∈ growRegions s.superBlock.sectorNum (s.takes (newLevels c + 1)).disk (I x)
            (dataRoot c) ((dataNode c).path.drop (newLevels c)) (newLevels c) s.fresh} := by
  have htake := changesOnly_takes hf hget
  have hgrow := (growOk hf hown hx hcount hc hget).changesOnly stack
  refine (htake.mono fun q hq => Or.inl hq).trans ((hgrow.mono fun q hq => Or.inr (Or.inr hq)).trans
    ((changesOnly_slot _ ino' ho).mono fun q hq => Or.inr (Or.inl hq)))

theorem ptr_allocDisk_new {j : ℕ} (hj : j < newLevels c) :
    ptr (allocDisk s (I x) ino' c o stack) (s.fresh (j + 1)) 0 = s.fresh j := by
  have hlt : ∀ j, j ≤ newLevels c → s.fresh j < 256 ^ 4 := fun j hj =>
    (isData_fresh hf hget (by omega)).lt hf.addressable
  rw [ptr_allocDisk ho (I x) ino' stack (isData_fresh hf hget (by omega))
    (by norm_num)]
  exact ptr_growDisk_new stack (growOk hf hown hx hcount hc hget) hlt hj

/-- The pointers to the blocks that the files have are as they were. -/
theorem ptr_allocDisk_old {y : ι} (hy : P y) {r i : ℕ} {l : List ℕ}
    (hl : (Node.mk r (i :: l)).Live (I y).blocks) :
    ptr (allocDisk s (I x) ino' c o stack) (resolve s.disk (I y) r l) i
      = ptr s.disk (resolve s.disk (I y) r l) i := by
  have hdata : IsData s.superBlock.sectorNum (resolve s.disk (I y) r l) := hown.isData hy hl.tail
  have hi : i < 256 := hl.valid.isNode.lt i List.mem_cons_self
  have htakes : ptr (s.takes (newLevels c + 1)).disk (resolve s.disk (I y) r l) i
      = ptr s.disk (resolve s.disk (I y) r l) i :=
    ptr_congr ((changesOnly_takes hf hget).agree_block hdata (disjoint_block_pool _ _ _)) hi
  have hgrowOk := growOk hf hown hx hcount hc hget
  rw [ptr_allocDisk ho (I x) ino' stack hdata hi, ← htakes]
  by_cases hparent : ∃ i' l', (dataNode c).path.drop (newLevels c) = i' :: l'
      ∧ resolve s.disk (I y) r l = resolve s.disk (I x) (dataRoot c) l'
  · -- the block above the new ones: the entry that changes is not live yet
    obtain ⟨i', l', hrest, heq⟩ := hparent
    obtain ⟨hsame, hlive⟩ := resolve_parent hf hown hx hcount hc hget hrest
    obtain ⟨rfl, hnode⟩ := hown.inj y x hy hx _ _ hl.tail hlive heq
    cases hnode
    have hne : i ≠ i' := by
      rintro rfl
      have hfirst := (rest_cons hc hrest).2.2.1
      have hlt := hl.first_lt
      rw [Inode.blocks, hcount, Int.toNat_natCast] at hlt
      omega
    rw [hrest, ← hsame]
    exact ptr_growDisk_other stack hi hne
  · -- any other block: it is neither new nor written
    refine ptr_congr ((hgrowOk.changesOnly stack).agree_block hdata
      (disjoint_growRegions ?_ ?_)) hi
    · intro j _ hj heq
      refine (fresh_not_used hf hget (show j < newLevels c + 1 by omega)).1 ?_
      rw [← heq]
      exact hown.used y hy _ hl.tail
    · intro i' l' hrest heq
      refine hparent ⟨i', l', hrest, ?_⟩
      rw [heq]
      exact (resolve_parent hf hown hx hcount hc hget hrest).1

/-- The blocks that the files have are where they were. -/
theorem sector_allocDisk_old [DecidableEq ι]
    (hino : ∀ r, (Node.mk r []).Live c → ino'.rootPointer r = (I x).rootPointer r)
    {y : ι} (hy : P y) {n : Node} (hn : n.Live (I y).blocks) :
    n.sector (allocDisk s (I x) ino' c o stack) (update I x ino' y)
      = n.sector s.disk (I y) := by
  refine sector_congr (fun r hr => ?_) (fun r i l hl => ?_) hn
  · by_cases hyx : y = x
    · subst hyx
      rw [update_self]
      refine hino r ?_
      rwa [Inode.blocks, hcount, Int.toNat_natCast] at hr
    · rw [update_of_ne hyx]
  · exact ptr_allocDisk_old hf hown hx hcount hc hget ho ino' stack hy hl

/-- The new blocks are in place. The induction goes down from the topmost of them. -/
theorem sector_allocDisk_new
    (hino : ∀ r, (Node.mk r []).Live c → ino'.rootPointer r = (I x).rootPointer r)
    (hnil : (dataNode c).path.drop (newLevels c) = [] →
      ino'.rootPointer (dataRoot c) = s.fresh (newLevels c))
    {j : ℕ} (hj : j ≤ newLevels c) :
    (Node.mk (dataRoot c) ((dataNode c).path.drop j)).sector
      (allocDisk s (I x) ino' c o stack) ino' = s.fresh j := by
  classical
  have hgrowOk := growOk hf hown hx hcount hc hget
  induction hd : newLevels c - j generalizing j with
  | zero =>
    obtain rfl : j = newLevels c := by omega
    rcases hrest : (dataNode c).path.drop (newLevels c) with _ | ⟨i, l⟩
    · exact hnil hrest
    · obtain ⟨hsame, hlive⟩ := resolve_parent hf hown hx hcount hc hget hrest
      have hold := sector_allocDisk_old hf hown hx hcount hc hget ho ino' stack hino hx hlive
      rw [update_self] at hold
      simp only [Node.sector, resolve] at hold ⊢
      -- the topmost new block hangs at a block of the file that was there before
      have hdata := hgrowOk.parent i l hrest
      rw [hold, ← hsame, ptr_allocDisk ho (I x) ino' stack hdata
        (hgrowOk.digit i l hrest)]
      rw [hrest] at hgrowOk ⊢
      exact ptr_growDisk_attach stack hgrowOk
        ((hgrowOk.isData _ le_rfl).lt hf.addressable)
  | succ m ih =>
    have hdrop : (dataNode c).path.drop j = 0 :: (dataNode c).path.drop (j + 1) := by
      have hz := eq_replicate_append_drop (l := (dataNode c).path) (j := newLevels c) le_rfl
      have hlen : j < newLevels c := by omega
      conv_lhs => rw [hz]
      conv_rhs => rw [hz]
      rw [List.drop_append_of_le_length (by simp; omega),
        List.drop_append_of_le_length (by simp; omega), List.drop_replicate, List.drop_replicate,
        show newLevels c - j = (newLevels c - (j + 1)) + 1 by omega, List.replicate_succ,
        List.cons_append]
    -- the block above is in place, and this one is at its pointer 0
    have habove := ih (j := j + 1) (by omega) (by omega)
    simp only [Node.sector] at habove ⊢
    rw [hdrop, resolve, habove]
    exact ptr_allocDisk_new hf hown hx hcount hc hget ho ino' stack (by omega)

end alloc

/-- The inode that `allocBlock` leaves behind when it has added data block `c`. -/
def allocedInode (s : FS) (ino : Inode) (c : ℕ) : Inode :=
  let ino' := growInode ino (dataRoot c) ((dataNode c).path.drop (newLevels c))
    (s.fresh (newLevels c))
  { ino' with blockCount := ino'.blockCount + 1 }

theorem rootPointer_allocedInode (s : FS) (ino : Inode) (c r : ℕ) :
    (allocedInode s ino c).rootPointer r
      = (growInode ino (dataRoot c) ((dataNode c).path.drop (newLevels c))
          (s.fresh (newLevels c))).rootPointer r := by
  simp only [allocedInode, Inode.rootPointer]

/-- The root pointers in use do not change. -/
theorem rootPointer_allocedInode_old (hc : c < maxBlocks) {ino : Inode} {r : ℕ}
    (hr : (Node.mk r []).Live c) : (allocedInode s ino c).rootPointer r = ino.rootPointer r := by
  rw [rootPointer_allocedInode]
  rcases hrest : (dataNode c).path.drop (newLevels c) with _ | ⟨i, l⟩
  · rw [growInode, rootPointer_setRoot _ _ (dataRoot_lt c) hr.valid.root_lt, if_neg]
    rintro rfl
    have hfirst := first_drop_dataNode hc le_rfl
    rw [hrest] at hfirst
    have := hr.first_lt
    omega
  · rfl

/-- The root pointer of a tree that is new is set. -/
theorem rootPointer_allocedInode_new {ino : Inode}
    (hrest : (dataNode c).path.drop (newLevels c) = []) :
    (allocedInode s ino c).rootPointer (dataRoot c) = s.fresh (newLevels c) := by
  rw [rootPointer_allocedInode, hrest, growInode,
    rootPointer_setRoot _ _ (dataRoot_lt c) (dataRoot_lt c), if_pos rfl]

theorem blocks_allocedInode {ino : Inode} (hcount : ino.blockCount = c) :
    (allocedInode s ino c).blockCount = ino.blockCount + 1 ∧ (allocedInode s ino c).blocks = c + 1 := by
  have h : (allocedInode s ino c).blockCount = ino.blockCount + 1 := by
    rw [allocedInode, (growInode_fields ..).2.2.1]
  exact ⟨h, by rw [Inode.blocks, h, hcount]; omega⟩

theorem Inode.Fits.setRoot {ino : Inode} (h : ino.Fits) {r v : ℕ} (hv : v < 256 ^ 4) :
    (ino.setRoot r v).Fits := by
  unfold Inode.setRoot
  split_ifs with hr
  · refine ⟨h.type, h.linkCount, h.blockCount, h.size, fun i => ?_, fun i hi => ?_,
      h.singlyPointer, h.doublyPointer, h.triplyPointer, h.pad_out⟩
    · by_cases hi : i = r
      · subst hi
        simpa using hv
      · simpa [update_of_ne hi] using h.pointer i
    · simpa [update_of_ne (show i ≠ r by omega)] using h.pointer_out i hi
  · exact ⟨h.type, h.linkCount, h.blockCount, h.size, h.pointer, h.pointer_out,
      hv, h.doublyPointer, h.triplyPointer, h.pad_out⟩
  · exact ⟨h.type, h.linkCount, h.blockCount, h.size, h.pointer, h.pointer_out,
      h.singlyPointer, hv, h.triplyPointer, h.pad_out⟩
  · exact ⟨h.type, h.linkCount, h.blockCount, h.size, h.pointer, h.pointer_out,
      h.singlyPointer, h.doublyPointer, hv, h.pad_out⟩

theorem Inode.Fits.withBlockCount {ino : Inode} (h : ino.Fits) {v : ℤ} (hv : FitsInt 4 v) :
    Inode.Fits { ino with blockCount := v } :=
  ⟨h.type, h.linkCount, hv, h.size, h.pointer, h.pointer_out, h.singlyPointer, h.doublyPointer,
    h.triplyPointer, h.pad_out⟩

theorem fitsInt_blockCount {k : ℕ} (hk : k ≤ maxBlocks) : FitsInt 4 (k : ℤ) := by
  have hk' : k ≤ 16843020 := hk
  unfold FitsInt
  norm_num
  omega

theorem fits_allocedInode {ino : Inode} (h : ino.Fits) (hcount : ino.blockCount = c)
    (hc : c < maxBlocks) (hb : s.fresh (newLevels c) < 256 ^ 4) : (allocedInode s ino c).Fits := by
  have hgrow : (growInode ino (dataRoot c) ((dataNode c).path.drop (newLevels c))
      (s.fresh (newLevels c))).Fits := by
    unfold growInode
    split
    · exact h.setRoot hb
    · exact h
  refine hgrow.withBlockCount ?_
  rw [(growInode_fields ..).2.2.1, hcount]
  exact_mod_cast fitsInt_blockCount (k := c + 1) (by omega)

/-- The disk that `allocBlock` leaves behind. -/
abbrev allocedDisk (s : FS) (ino : Inode) (c o : ℕ) (stack : ℕ → Buf) : Disk :=
  allocDisk s ino (allocedInode s ino c) c o stack

section alloced
variable [DecidableEq ι] (hf : Formatted s) (hown : Owned s P I) (hx : P x)
  (hcount : (I x).blockCount = c) (hc : c < maxBlocks) (hget : GetsFreeFor s (newLevels c + 1))
  (ho : IsSlot s.superBlock.sectorNum o) (stack : ℕ → Buf)
include hf hown hx hcount hc hget ho

theorem alloced_sector_old {y : ι} (hy : P y) {n : Node} (hn : n.Live (I y).blocks) :
    n.sector (allocedDisk s (I x) c o stack) (update I x (allocedInode s (I x) c) y)
      = n.sector s.disk (I y) :=
  sector_allocDisk_old hf hown hx hcount hc hget ho _ stack
    (fun _ hr => rootPointer_allocedInode_old hc hr) hy hn

omit [DecidableEq ι] in
theorem alloced_sector_new {j : ℕ} (hj : j ≤ newLevels c) :
    (Node.mk (dataRoot c) ((dataNode c).path.drop j)).sector
      (allocedDisk s (I x) c o stack) (allocedInode s (I x) c) = s.fresh j :=
  sector_allocDisk_new hf hown hx hcount hc hget ho _ stack
    (fun _ hr => rootPointer_allocedInode_old hc hr) rootPointer_allocedInode_new hj

omit [DecidableEq ι] in
/-- The new blocks are in use, and those that were. -/
theorem alloced_used_iff {a : ℕ} :
    Used s.superBlock.sectorNum (allocedDisk s (I x) c o stack) a
      ↔ Used s.superBlock.sectorNum s.disk a ∨ ∃ j, j < newLevels c + 1 ∧ a = s.fresh j := by
  rw [← used_takes hf hget]
  refine ((changesOnly_slot _ _ ho).used_iff fun i => region_notMem_slot .block _ i _).trans ?_
  exact ((growOk hf hown hx hcount hc hget).changesOnly stack).used_iff
    fun i => region_notMem_growRegions .block i

omit [DecidableEq ι] in
/-- To the allocator it is as if only the blocks had been taken. -/
theorem alloced_sameAlloc : SameAlloc (s.takes (newLevels c + 1))
    { s.takes (newLevels c + 1) with disk := allocedDisk s (I x) c o stack } := by
  have hS := (takes_formatted hf (newLevels c + 1)).2
  have hgrow := (growOk hf hown hx hcount hc hget).changesOnly stack
  have hslot := changesOnly_slot (growDisk (s.takes (newLevels c + 1)).disk (I x) (dataRoot c)
    ((dataNode c).path.drop (newLevels c)) (newLevels c) s.fresh stack) (allocedInode s (I x) c) ho
  have hboth := (hgrow.mono Set.subset_union_left).trans (hslot.mono Set.subset_union_right)
  rw [← hS] at hboth
  refine hboth.sameAlloc fun i hi => ?_
  rcases hi with hi | hi
  · exact region_notMem_growRegions .block i hi
  · exact region_notMem_slot .block _ i _ hi

omit hf hown hx hc hget ho in
/-- A block of a file is one it had, or one of the new ones. -/
theorem alloced_live_cases {y : ι} {n : Node}
    (hn : n.Live (update I x (allocedInode s (I x) c) y).blocks) :
    n.Live (I y).blocks
      ∨ y = x ∧ ∃ j, j ≤ newLevels c ∧ n = ⟨dataRoot c, (dataNode c).path.drop j⟩ := by
  by_cases hyx : y = x
  · subst hyx
    rw [update_self, (blocks_allocedInode hcount).2] at hn
    rcases Nat.lt_succ_iff_lt_or_eq.mp hn.first_lt with hlt | heq
    · refine Or.inl ⟨hn.valid, ?_⟩
      rwa [Inode.blocks, hcount, Int.toNat_natCast]
    · exact Or.inr ⟨rfl, hn.valid.eq_drop heq⟩
  · rw [update_of_ne hyx] at hn
    exact Or.inl hn

omit [DecidableEq ι] hf hown hx hget ho in
theorem alloced_live_new {j : ℕ} (hj : j ≤ newLevels c) :
    (Node.mk (dataRoot c) ((dataNode c).path.drop j)).Live (allocedInode s (I x) c).blocks := by
  refine ⟨⟨dataRoot_lt c, (dataNode_valid c).isNode.drop j⟩, ?_⟩
  rw [first_drop_dataNode hc hj, (blocks_allocedInode hcount).2]
  exact Nat.lt_succ_self c

/-- The block above the new ones, seen from the new state. -/
theorem alloced_parent {i : ℕ} {l : List ℕ}
    (hrest : (dataNode c).path.drop (newLevels c) = i :: l) :
    resolve (s.takes (newLevels c + 1)).disk (I x) (dataRoot c) l
        = (Node.mk (dataRoot c) l).sector (allocedDisk s (I x) c o stack) (allocedInode s (I x) c)
      ∧ (Node.mk (dataRoot c) (i :: l)).Live (allocedInode s (I x) c).blocks := by
  obtain ⟨hsame, hlive⟩ := resolve_parent hf hown hx hcount hc hget hrest
  have hold := alloced_sector_old hf hown hx hcount hc hget ho stack hx hlive
  rw [update_self] at hold
  refine ⟨by rw [hsame, hold]; rfl, ?_⟩
  rw [← hrest]
  exact alloced_live_new hcount hc le_rfl

theorem alloced_owned : Owned { s.takes (newLevels c + 1) with
    disk := allocedDisk s (I x) c o stack } P (update I x (allocedInode s (I x) c)) := by
  have hold := fun {y} (hy : P y) {n : Node} (hn : n.Live (I y).blocks) =>
    alloced_sector_old hf hown hx hcount hc hget ho stack hy hn
  have hnew := fun {j} (hj : j ≤ newLevels c) =>
    alloced_sector_new hf hown hx hcount hc hget ho stack hj
  have hused := fun a => alloced_used_iff hf hown hx hcount hc hget ho stack (a := a)
  have hS := (takes_formatted hf (newLevels c + 1)).2
  -- a block that a file had is in use already and cannot be a new one
  have hne : ∀ y, P y → ∀ n : Node, n.Live (I y).blocks → ∀ j, j ≤ newLevels c →
      n.sector s.disk (I y) ≠ s.fresh j := by
    intro y hy n hn j hj heq
    refine (fresh_not_used hf hget (show j < newLevels c + 1 by omega)).1 ?_
    rw [← heq]
    exact hown.used y hy n hn
  refine ⟨fun y hy => ?_, fun y hy n hn => ?_, fun y z hy hz n m hn hm heq => ?_⟩
  · by_cases hyx : y = x
    · subst hyx
      rw [update_self, (blocks_allocedInode hcount).1, hcount]
      omega
    · rw [update_of_ne hyx]
      exact hown.count y hy
  · rw [hS, hused]
    rcases alloced_live_cases hcount hn with hn | ⟨rfl, j, hj, rfl⟩
    · rw [hold hy hn]
      exact Or.inl (hown.used y hy n hn)
    · rw [update_self, hnew hj]
      exact Or.inr ⟨j, by omega, rfl⟩
  · rcases alloced_live_cases hcount hn with hn' | ⟨rfl, j, hj, rfl⟩ <;>
      rcases alloced_live_cases hcount hm with hm' | ⟨rfl, l, hl, rfl⟩
    · rw [hold hy hn', hold hz hm'] at heq
      exact hown.inj y z hy hz n m hn' hm' heq
    · rw [hold hy hn', update_self, hnew hl] at heq
      exact absurd heq (hne y hy n hn' l hl)
    · rw [hold hz hm', update_self, hnew hj] at heq
      exact absurd heq.symm (hne z hz m hm' j hj)
    · rw [update_self, hnew hj, hnew hl] at heq
      rw [fresh_inj hf hget (by omega) (by omega) heq]
      exact ⟨rfl, rfl⟩

/-- Data blocks, of files or not, keep their content. -/
theorem alloced_content {a : ℕ} (ha : IsData s.superBlock.sectorNum a)
    (hleaf : ∀ n : Node, n.Live (allocedInode s (I x) c).blocks →
      a = n.sector (allocedDisk s (I x) c o stack) (allocedInode s (I x) c) → ∃ k, n = dataNode k) :
    Agree s.disk (allocedDisk s (I x) c o stack) (a * 512) 1024 := by
  refine (changesOnly_allocDisk hf hown hx hcount hc hget ho _ stack).agree_block ha ?_
  have hgrow : Disjoint (blockRegion s.superBlock.sectorNum a)
      (growRegions s.superBlock.sectorNum (s.takes (newLevels c + 1)).disk (I x) (dataRoot c)
        ((dataNode c).path.drop (newLevels c)) (newLevels c) s.fresh) := by
    refine disjoint_growRegions (fun j h₁ hj heq => ?_) fun i l hrest heq => ?_
    · rw [← alloced_sector_new hf hown hx hcount hc hget ho stack hj] at heq
      obtain ⟨k, hk⟩ := hleaf _ (alloced_live_new hcount hc hj) heq
      -- a pointer block is reached by fewer steps than a data block
      have hlen := length_path_dataNode k
      have hfull : (dataNode c).path.length = depth (dataRoot c) := length_path_dataNode c
      have hz : newLevels c ≤ (dataNode c).path.length := zeros_le_length _
      rw [← hk] at hlen
      simp only [List.length_drop] at hlen
      omega
    · obtain ⟨hsame, hlive⟩ := alloced_parent hf hown hx hcount hc hget ho stack hrest
      obtain ⟨k, hk⟩ := hleaf _ hlive.tail (heq.trans hsame)
      exact dataNode_ne_parent hlive hk
  rw [Set.disjoint_left] at hgrow ⊢
  rintro q hq (hq' | hq' | hq')
  · exact Set.disjoint_left.mp (disjoint_block_pool _ _ _) hq hq'
  · exact Set.disjoint_left.mp (disjoint_block_slot _ _ _) hq hq'
  · exact hgrow hq hq'

/-- What is written besides the header, the bitmap and the inode are blocks of the file. -/
theorem alloced_changes : ChangesOnly s.superBlock.sectorNum s.disk (allocedDisk s (I x) c o stack)
    {q | q ∈ poolRegions .block ∨ q ∈ slotRegion s.superBlock.sectorNum o
      ∨ ∃ n : Node, n.Live (allocedInode s (I x) c).blocks ∧ q ∈ blockRegion s.superBlock.sectorNum
          (n.sector (allocedDisk s (I x) c o stack) (allocedInode s (I x) c))} := by
  refine (changesOnly_allocDisk hf hown hx hcount hc hget ho _ stack).mono ?_
  rintro q (hq | hq | ⟨j, _, hj, hq⟩ | ⟨i, l, hrest, hq⟩)
  · exact Or.inl hq
  · exact Or.inr (Or.inl hq)
  · refine Or.inr (Or.inr ⟨_, alloced_live_new hcount hc hj, ?_⟩)
    rwa [alloced_sector_new hf hown hx hcount hc hget ho stack hj]
  · obtain ⟨hsame, hlive⟩ := alloced_parent hf hown hx hcount hc hget ho stack hrest
    exact Or.inr (Or.inr ⟨_, hlive.tail, by rwa [← hsame]⟩)

end alloced

/-- Adding a block to one of the files keeps the invariant. -/
theorem Owned.alloc [DecidableEq ι] (hf : Formatted s) (hown : Owned s P I) (hx : P x)
    (hcount : (I x).blockCount = c) (hc : c < maxBlocks)
    (hget : GetsFreeFor s (newLevels c + 1)) (ho : IsSlot s.superBlock.sectorNum o)
    (havail : (newLevels c : ℤ) + 1 ≤ s.superBlock.availBlockNum) (stack : ℕ → Buf) :
    ∃ s' ino, allocBlock s (I x) o stack = some (s', ino)
      ∧ AllocSpec s s' P I x o (s.fresh 0) ino := by
  obtain ⟨hf', hS⟩ := takes_formatted hf (newLevels c + 1)
  have hfields := growInode_fields (I x) (dataRoot c) ((dataNode c).path.drop (newLevels c))
    (s.fresh (newLevels c))
  have hblocks : (I x).blocks = c := by rw [Inode.blocks, hcount, Int.toNat_natCast]
  refine ⟨{ s.takes (newLevels c + 1) with disk := allocedDisk s (I x) c o stack },
    allocedInode s (I x) c, allocBlock_eq hf hcount hc havail stack, ?_⟩
  exact
    { formatted := hf'.withDisk _
      sectorNum := hS
      type := hfields.1
      linkCount := hfields.2.1
      size := hfields.2.2.2
      blockCount := (blocks_allocedInode hcount).1
      fits := fun hfits => fits_allocedInode hfits hcount hc
        ((isData_fresh hf hget (Nat.lt_succ_self _)).lt hf.addressable)
      stored := fun hfits => loadInode_storeInode hfits
      owned := alloced_owned hf hown hx hcount hc hget ho stack
      sector := fun y hy n hn => alloced_sector_old hf hown hx hcount hc hget ho stack hy hn
      new := by
        rw [hblocks]
        exact alloced_sector_new hf hown hx hcount hc hget ho stack (Nat.zero_le _)
      isData := isData_fresh hf hget (Nat.succ_pos _)
      not_used := (fresh_not_used hf hget (Nat.succ_pos _)).1
      used := fun a ha => (alloced_used_iff hf hown hx hcount hc hget ho stack).mpr (Or.inl ha)
      alloc := by
        rw [hblocks]
        exact alloced_sameAlloc hf hown hx hcount hc hget ho stack
      content := fun a ha hleaf => alloced_content hf hown hx hcount hc hget ho stack ha hleaf
      changes := alloced_changes hf hown hx hcount hc hget ho stack }

end SeL4Sys

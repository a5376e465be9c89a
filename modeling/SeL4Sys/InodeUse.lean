import SeL4Sys.AllocRuns
import SeL4Sys.FileContent

/-!
# Inodes in use

`InodeUsed S d o` says that the inode at offset `o` is one whose bit is set. `getAvailInode` adds
the inode it hands out to them, and `setAllocInode` takes one away. Neither they nor a write to
an inode touches a block of a file, so the files stay what they are (`ChangesOnly.owned`).
-/

namespace SeL4Sys

open Bytes Bitmap

variable {S : ℕ} {d d' : Disk} {s s' : FS} {o x y : ℕ} {W : Set Region}

/-- The bit of the inode at offset `o` is set. -/
def InodeUsed (S : ℕ) (d : Disk) (o : ℕ) : Prop :=
  ∃ i n, i < groups S ∧ n < inodesOf S i ∧ o = slotOffset S i n ∧ poolBit .inode S d i n = true

theorem InodeUsed.isSlot (h : InodeUsed S d o) : IsSlot S o := by
  obtain ⟨i, n, hi, hn, ho, _⟩ := h
  exact ⟨i, n, hi, hn, ho⟩

theorem inodeUsed_slotOffset_iff {i n : ℕ} (hi : i < groups S) (hn : n < inodesOf S i) :
    InodeUsed S d (slotOffset S i n) ↔ poolBit .inode S d i n = true :=
  poolUsed_address_iff (p := .inode) hi hn

/-- Use depends on the inode bitmaps only. -/
theorem ChangesOnly.inodeUsed_iff (h : ChangesOnly S d d' W)
    (hW : ∀ i, Region.inodeBitmap i ∉ W) : InodeUsed S d' o ↔ InodeUsed S d o :=
  h.poolUsed_iff (p := .inode) hW

/-- Counters and bitmaps stay in step when neither changes. -/
theorem Consistent.transfer {p : Pool} (h : Consistent p s) (hf : Formatted s')
    (hS : s'.superBlock.sectorNum = s.superBlock.sectorNum) (hcounters : SameCounters p s s')
    (hchanges : ChangesOnly s.superBlock.sectorNum s.disk s'.disk W)
    (hW : ∀ i, p.region i ∉ W) : Consistent p s' where
  formatted := hf
  total := by
    rw [hcounters.superBlock, hS, h.total]
    exact Finset.sum_congr rfl fun i _ => (hcounters.group i).symm
  group := fun i hi => by
    rw [hS] at hi
    have hlim := Pool.limit_le p s.superBlock.sectorNum i
    rw [hf.bitmap_eq (by rwa [hS]), hcounters.group, h.count hi, hS]
    refine congrArg _ (clearCount_congr fun n hn => ?_)
    exact (hchanges.poolBit_eq hi (by omega) (hW i)).symm

/-! ## Taking and releasing an inode -/

/-- What a search that hits does: it marks an inode that was free. -/
theorem getAvailInode_spec (hf : Formatted s) (hh : Hits .inode s) :
    ∃ x, getAvailInode s = some (taken .inode s, x) ∧ IsSlot s.superBlock.sectorNum x
      ∧ ¬ InodeUsed s.superBlock.sectorNum s.disk x
      ∧ ∀ y, InodeUsed s.superBlock.sectorNum (taken .inode s).disk y
          ↔ InodeUsed s.superBlock.sectorNum s.disk y ∨ y = x := by
  refine ⟨_, getAvailInode_eq hf hh, ⟨_, _, hh.group, hh.index, rfl⟩, ?_, fun y => poolUsed_taken hf hh⟩
  rw [inodeUsed_slotOffset_iff hh.group hh.index, hh.clear hf]
  exact Bool.false_ne_true

/-- Hit or miss, what is handed out is the place of an inode. -/
theorem Consistent.getAvailInode_slot (h : Consistent .inode s)
    (havail : s.superBlock.availInodeNum ≠ 0) :
    searchGroup .inode s < groups s.superBlock.sectorNum
      ∧ ∃ x, getAvailInode s = some (SeL4Sys.taken .inode s, x) ∧ IsSlot s.superBlock.sectorNum x := by
  have hnonneg : 0 ≤ s.superBlock.availInodeNum := h.backed.avail_nonneg
  have hpos : 1 ≤ s.superBlock.avail .inode := by
    show 1 ≤ s.superBlock.availInodeNum
    omega
  have ⟨hgroup, _⟩ := h.backed.searchGroup_lt h.formatted hpos
  have hindex := h.backed.searchIndex_lt h.formatted hpos
  exact ⟨hgroup, _, getAvailInode_of_group h.formatted havail hgroup, _, _, hgroup, hindex, rfl⟩

/-- What the release of an inode in use does. -/
structure ReleaseSpec (s s' : FS) (x : ℕ) : Prop where
  formatted : Formatted s'
  sectorNum : s'.superBlock.sectorNum = s.superBlock.sectorNum
  used : ∀ y, InodeUsed s.superBlock.sectorNum s'.disk y
    ↔ InodeUsed s.superBlock.sectorNum s.disk y ∧ y ≠ x
  consistent : Consistent .inode s → Consistent .inode s'
  changes : ChangesOnly s.superBlock.sectorNum s.disk s'.disk (poolRegions .inode)

theorem setAllocInode_spec (hf : Formatted s) (hx : InodeUsed s.superBlock.sectorNum s.disk x) :
    ∃ s', setAllocInode s x = some s' ∧ ReleaseSpec s s' x := by
  obtain ⟨i, n, hi, hn, rfl, hset⟩ := hx
  have hlim := inodesOf_le s.superBlock.sectorNum i
  refine ⟨released .inode s i n, ?_, released_formatted hf, released_sectorNum,
    fun y => poolUsed_released hf hi hn hset, fun hc => hc.released hi hn hset, changesOnly_released hf hi⟩
  rw [setAllocInode_eq hf hi hn, setAlloc_eq hf hi (by omega), if_pos hset]

/-! ## Files stay what they are -/

section frame
variable {ι : Type*} {P Q : ι → Prop} {I J : ι → Inode}

/-- A smaller family owns its blocks, and only counts and pointers matter. -/
theorem Owned.restrict (h : Owned s P I) (hQ : ∀ z, Q z → P z) (hJ : ∀ z, Q z → J z = I z) :
    Owned s Q J where
  count := fun z hz => by
    rw [hJ z hz]
    exact h.count z (hQ z hz)
  used := fun z hz n hn => by
    rw [hJ z hz] at hn ⊢
    exact h.used z (hQ z hz) n hn
  inj := fun z w hz hw n m hn hm heq => by
    rw [hJ z hz] at hn heq
    rw [hJ w hw] at hm heq
    exact h.inj z w (hQ z hz) (hQ w hw) n m hn hm heq

/-- A file without blocks can be added. -/
theorem Owned.insert [DecidableEq ι] (h : Owned s P I) {z : ι} (hz : (I z).blockCount = 0) :
    Owned s (fun w => P w ∨ w = z) I := by
  -- a live block belongs to one of the old files
  have hold : ∀ w, P w ∨ w = z → ∀ n : Node, n.Live (I w).blocks → P w := by
    rintro w (hw | rfl) n hn
    · exact hw
    · have := hn.first_lt
      rw [Inode.blocks, hz] at this
      exact absurd this (Nat.not_lt_zero _)
  refine ⟨?_, fun w hw n hn => h.used w (hold w hw n hn) n hn, ?_⟩
  · rintro w (hw | rfl)
    · exact h.count w hw
    · rw [hz]
      exact ⟨le_rfl, by norm_num⟩
  · intro w v hw hv n m hn hm heq
    exact h.inj w v (hold w hw n hn) (hold v hv m hm) n m hn hm heq

variable (hchanges : ChangesOnly s.superBlock.sectorNum s.disk s'.disk W)
  (hW : ∀ b, Disjoint (blockRegion s.superBlock.sectorNum b) W) (hown : Owned s P I)
include hchanges hW hown

theorem ChangesOnly.sector_eq {z : ι} (hz : P z) {n : Node} (hn : n.Live (I z).blocks) :
    n.sector s'.disk (I z) = n.sector s.disk (I z) :=
  sector_eq_of_agree (fun _ _ _ hl => hchanges.agree_block (hown.isData hz hl.tail) (hW _)) hn

theorem ChangesOnly.fileByte_eq {z : ι} (hz : P z) {p : ℕ} (hp : p < (I z).blocks * 1024) :
    fileByte s'.disk (I z) p = fileByte s.disk (I z) p := by
  have hk : p / 1024 < (I z).blocks := by omega
  have hlive := dataNode_live (lt_of_lt_of_le hk (hown.blocks_le hz)) hk
  rw [fileByte, fileByte, hchanges.sector_eq hW hown hz hlive]
  exact hchanges.agree_block (hown.isData hz hlive) (hW _) _ (by omega) (by omega)

theorem ChangesOnly.owned (hS : s'.superBlock.sectorNum = s.superBlock.sectorNum)
    (hbitmaps : ∀ i, Region.blockBitmap i ∉ W) : Owned s' P I := by
  refine hown.transfer hS (fun z hz n hn => hchanges.sector_eq hW hown hz hn) fun z hz n hn => ?_
  exact (hchanges.used_iff hbitmaps).mpr (hown.used z hz n hn)

end frame

end SeL4Sys

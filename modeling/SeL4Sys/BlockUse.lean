import SeL4Sys.BlockMap
import SeL4Sys.Frame

/-!
# Blocks in use

`Used S d b` says that `b` is a data block whose bit is set. `FS.takes s j` is the file
system after `j` calls of `getAvailBlock`, the calls that one `allocBlock` makes in a row,
and `FS.fresh s j` the block that the next call hands out. When each call hands out a free
block and marks it (`GetsFree`), these blocks are new and distinct.
-/

namespace SeL4Sys

open Bytes Bitmap

variable {S : ℕ} {d d' : Disk} {s : FS} {b : ℕ}

/-- The bit of data block `b` is set. -/
def Used (S : ℕ) (d : Disk) (b : ℕ) : Prop :=
  ∃ i n, i < groups S ∧ n < blocksOf S i ∧ b = dataSector S i n ∧ poolBit .block S d i n = true

theorem Used.isData (h : Used S d b) : IsData S b := by
  obtain ⟨i, n, hi, hn, hb, _⟩ := h
  exact ⟨i, n, hi, hn, hb⟩

theorem used_dataSector_iff {i n : ℕ} (hi : i < groups S) (hn : n < blocksOf S i) :
    Used S d (dataSector S i n) ↔ poolBit .block S d i n = true :=
  poolUsed_address_iff (p := .block) hi hn

/-- Use depends on the block bitmaps only. -/
theorem ChangesOnly.used_iff {W : Set Region} (h : ChangesOnly S d d' W)
    (hW : ∀ i, Region.blockBitmap i ∉ W) : Used S d' b ↔ Used S d b :=
  h.poolUsed_iff (p := .block) hW

/-! ## Taking blocks -/

/-- The next `getAvailBlock` succeeds with a data block whose bit was clear, and sets it. -/
def GetsFree (s : FS) : Prop :=
  ∃ s' b, getAvailBlock s 0 = some (s', b) ∧ IsData s.superBlock.sectorNum b
    ∧ ¬ Used s.superBlock.sectorNum s.disk b ∧ Used s.superBlock.sectorNum s'.disk b

/-- The block that a search that hits hands out. -/
theorem takeBlock_eq (hf : Formatted s) (h : Hits .block s) :
    s.takeBlock = (taken .block s, dataSector s.superBlock.sectorNum (searchGroup .block s)
      (searchIndex .block s)) := by
  rw [FS.takeBlock, getAvailBlock_eq hf h 0, Option.getD_some]

theorem used_taken (hf : Formatted s) (h : Hits .block s) :
    Used s.superBlock.sectorNum s.takeBlock.1.disk b
      ↔ Used s.superBlock.sectorNum s.disk b ∨ b = s.takeBlock.2 := by
  rw [takeBlock_eq hf h]
  exact poolUsed_taken hf h

theorem Hits.isData_fresh (hf : Formatted s) (h : Hits .block s) :
    IsData s.superBlock.sectorNum s.takeBlock.2 := by
  rw [takeBlock_eq hf h]
  exact ⟨_, _, h.group, h.index, rfl⟩

theorem Hits.not_used_fresh (hf : Formatted s) (h : Hits .block s) :
    ¬ Used s.superBlock.sectorNum s.disk s.takeBlock.2 := by
  rw [takeBlock_eq hf h, used_dataSector_iff h.group h.index, h.clear hf]
  exact Bool.false_ne_true

/-- Without a group to search, the header's own first block is read and written as a bitmap:
no block bitmap changes. -/
theorem taken_poolBit_of_no_group (hf : Formatted s)
    (hg : ¬ searchGroup .block s < groups s.superBlock.sectorNum) {l n : ℕ}
    (hl : l < groups s.superBlock.sectorNum) (hn : n < 8192) :
    poolBit .block s.superBlock.sectorNum (taken .block s).disk l n
      = poolBit .block s.superBlock.sectorNum s.disk l n := by
  have hoff : searchBitmapOffset .block s * 512 = Region.super.off s.superBlock.sectorNum := by
    rw [searchBitmapOffset, if_neg (by rwa [hf.groupNum_eq]), Nat.zero_mul, Region.off_super]
  have hchange : ChangesOnly s.superBlock.sectorNum s.disk (taken .block s).disk
      {.super, .descs} := by
    rw [taken, commit_disk hf, hoff]
    refine (changesOnly_patch ?_ ?_).trans ((changesOnly_patch ?_ ?_).trans
      (changesOnly_patch (r := .super) ?_ ?_))
    all_goals first
      | exact trivial
      | simp
  exact hchange.poolBit_eq hl hn (by simp [Pool.region])

/-- A call hands out a free block and marks it exactly when its search ends at a clear bit of
a block of the disk. -/
theorem getsFree_iff (hf : Formatted s) : GetsFree s ↔ Hits .block s := by
  constructor
  · rintro ⟨s', b, hget, ⟨i, n, hi, hn, rfl⟩, hclear, hset⟩
    rw [used_dataSector_iff hi hn] at hclear hset
    have hn' : n < 8192 := lt_of_lt_of_le hn (blocksOf_le _ i)
    by_cases havail : s.superBlock.avail .block = 0
    · rw [getAvailBlock, getAvail, if_pos havail, Option.map_none] at hget
      cases hget
    · rw [getAvailBlock, getAvail, if_neg havail, Option.map_some, Option.some.injEq,
        Prod.mk.injEq] at hget
      rw [← hget.1] at hset
      have hg : searchGroup .block s < groups s.superBlock.sectorNum := by
        by_contra hg
        rw [taken_poolBit_of_no_group hf hg hi hn'] at hset
        exact hclear hset
      have hbit : searchBit .block s < 8 := by
        by_contra hbit
        rw [taken_poolBit_of_miss hf hg hbit hi hn'] at hset
        exact hclear hset
      rw [taken_poolBit hf hg hbit hi hn', Bool.or_eq_true, decide_eq_true_eq] at hset
      rcases hset with hset | ⟨rfl, rfl⟩
      · exact absurd hset hclear
      · exact ⟨havail, hg, hbit, hn⟩
  · intro h
    have hget := getAvailBlock_eq hf h 0
    have hfresh := h.isData_fresh hf
    have hnot := h.not_used_fresh hf
    have hused := (used_taken hf h (b := s.takeBlock.2)).mpr (Or.inr rfl)
    rw [takeBlock_eq hf h] at hfresh hnot hused
    exact ⟨_, _, hget, hfresh, hnot, hused⟩

/-- Whatever it finds, a call keeps the layout. -/
theorem takeBlock_formatted (hf : Formatted s) : Formatted s.takeBlock.1
    ∧ s.takeBlock.1.superBlock.sectorNum = s.superBlock.sectorNum := by
  rw [FS.takeBlock, getAvailBlock, getAvail]
  by_cases havail : s.superBlock.avail .block = 0
  · rw [if_pos havail, Option.map_none, Option.getD_none]
    exact ⟨hf, rfl⟩
  · rw [if_neg havail, Option.map_some, Option.getD_some]
    exact ⟨taken_formatted hf, taken_sectorNum⟩

/-! ## Several calls in a row -/

/-- The file system after `j` calls of `getAvailBlock`. -/
def FS.takes (s : FS) : ℕ → FS
  | 0 => s
  | j + 1 => (s.takes j).takeBlock.1

/-- The block that call number `j`, counted from 0, hands out. -/
def FS.fresh (s : FS) (j : ℕ) : ℕ := (s.takes j).takeBlock.2

/-- The first `m` calls hand out free blocks. -/
def GetsFreeFor (s : FS) (m : ℕ) : Prop := ∀ j, j < m → GetsFree (s.takes j)

theorem takes_takeBlock (s : FS) (j : ℕ) : s.takeBlock.1.takes j = s.takes (j + 1) := by
  induction j with
  | zero => rfl
  | succ j ih => rw [FS.takes, ih, ← FS.takes]

theorem fresh_takeBlock (s : FS) (j : ℕ) : s.takeBlock.1.fresh j = s.fresh (j + 1) := by
  rw [FS.fresh, FS.fresh, takes_takeBlock]

theorem GetsFreeFor.mono {m m' : ℕ} (h : GetsFreeFor s m) (hm : m' ≤ m) : GetsFreeFor s m' :=
  fun j hj => h j (by omega)

theorem takes_formatted (hf : Formatted s) (m : ℕ) : Formatted (s.takes m)
    ∧ (s.takes m).superBlock.sectorNum = s.superBlock.sectorNum := by
  induction m with
  | zero => exact ⟨hf, rfl⟩
  | succ m ih =>
    obtain ⟨hf', hS⟩ := takeBlock_formatted ih.1
    exact ⟨hf', hS.trans ih.2⟩

section takes
variable {m : ℕ} (hf : Formatted s) (h : GetsFreeFor s m)
include hf h

theorem takes_hits {j : ℕ} (hj : j < m) : Hits .block (s.takes j) :=
  (getsFree_iff (takes_formatted hf j).1).mp (h j hj)

theorem changesOnly_takes :
    ChangesOnly s.superBlock.sectorNum s.disk (s.takes m).disk (poolRegions .block) := by
  induction m with
  | zero => exact ChangesOnly.refl _ _ _
  | succ m ih =>
    obtain ⟨ihf, ihS⟩ := takes_formatted hf m
    have hh := takes_hits hf h (Nat.lt_succ_self m)
    have hstep := changesOnly_taken ihf hh.group
    rw [FS.takes, takeBlock_eq ihf hh]
    rw [ihS] at hstep
    exact (ih (h.mono (Nat.le_succ m))).trans hstep

theorem isData_fresh {j : ℕ} (hj : j < m) : IsData s.superBlock.sectorNum (s.fresh j) := by
  obtain ⟨ihf, ihS⟩ := takes_formatted hf j
  have := (takes_hits hf h hj).isData_fresh ihf
  rwa [ihS] at this

/-- After some calls, the blocks in use are those from before and those handed out. -/
theorem used_takes : Used s.superBlock.sectorNum (s.takes m).disk b
    ↔ Used s.superBlock.sectorNum s.disk b ∨ ∃ j, j < m ∧ b = s.fresh j := by
  induction m with
  | zero => simp [FS.takes]
  | succ m ih =>
    obtain ⟨ihf, ihS⟩ := takes_formatted hf m
    have hstep := used_taken (b := b) ihf (takes_hits hf h (Nat.lt_succ_self m))
    rw [ihS, ih (h.mono (Nat.le_succ m))] at hstep
    rw [FS.takes, hstep]
    constructor
    · rintro ((hu | ⟨j, hj, hb⟩) | hb)
      · exact Or.inl hu
      · exact Or.inr ⟨j, by omega, hb⟩
      · exact Or.inr ⟨m, by omega, hb⟩
    · rintro (hu | ⟨j, hj, hb⟩)
      · exact Or.inl (Or.inl hu)
      · rcases Nat.lt_succ_iff_lt_or_eq.mp hj with hj | rfl
        · exact Or.inl (Or.inr ⟨j, hj, hb⟩)
        · exact Or.inr hb

/-- A block handed out was not in use, and was not handed out by an earlier call. -/
theorem fresh_not_used {j : ℕ} (hj : j < m) :
    ¬ Used s.superBlock.sectorNum s.disk (s.fresh j) ∧ ∀ l, l < j → s.fresh l ≠ s.fresh j := by
  obtain ⟨ihf, ihS⟩ := takes_formatted hf j
  have hnot := (takes_hits hf h hj).not_used_fresh ihf
  rw [ihS, used_takes hf (h.mono hj.le)] at hnot
  exact ⟨fun hu => hnot (Or.inl hu), fun l hl heq => hnot (Or.inr ⟨l, hl, heq.symm⟩)⟩

theorem fresh_inj {j l : ℕ} (hj : j < m) (hl : l < m) (heq : s.fresh j = s.fresh l) : j = l := by
  rcases lt_trichotomy j l with hlt | hjl | hlt
  · exact absurd heq ((fresh_not_used hf h hl).2 j hlt)
  · exact hjl
  · exact absurd heq.symm ((fresh_not_used hf h hj).2 l hlt)

end takes

/-! ## What the allocator looks at -/

/-- The two file systems look the same to the block allocator: the header in memory and the
block bitmaps are the same. -/
structure SameAlloc (s s' : FS) : Prop where
  superBlock : s'.superBlock = s.superBlock
  groupDesc : s'.groupDesc = s.groupDesc
  bitmaps : ∀ i, i < groups s.superBlock.sectorNum →
    Agree s.disk s'.disk ((Region.blockBitmap i).off s.superBlock.sectorNum) 1024

theorem SameAlloc.refl (s : FS) : SameAlloc s s := ⟨rfl, rfl, fun _ _ => Agree.refl _ _ _⟩

theorem SameAlloc.trans {s s' s'' : FS} (h : SameAlloc s s') (h' : SameAlloc s' s'') :
    SameAlloc s s'' := by
  refine ⟨h'.superBlock.trans h.superBlock, h'.groupDesc.trans h.groupDesc, fun i hi => ?_⟩
  refine (h.bitmaps i hi).trans ?_
  have := h'.bitmaps i
  rw [h.superBlock] at this
  exact this hi

/-- Writing blocks and inodes makes no difference to the allocator. -/
theorem ChangesOnly.sameAlloc {W : Set Region}
    (h : ChangesOnly s.superBlock.sectorNum s.disk d W) (hW : ∀ i, Region.blockBitmap i ∉ W) :
    SameAlloc s { s with disk := d } :=
  ⟨rfl, rfl, fun i hi => h.agree (r := .blockBitmap i) hi (hW i)⟩

theorem SameAlloc.formatted {s s' : FS} (h : SameAlloc s s') (hf : Formatted s) : Formatted s' := by
  refine ⟨?_, ?_, ?_, ?_, ?_, ?_⟩ <;> rw [h.superBlock]
  · exact hf.blockSize
  · exact hf.groups_pos
  · exact hf.addressable
  · rw [h.groupDesc]
    exact hf.inodeBitmap
  · rw [h.groupDesc]
    exact hf.blockBitmap
  · rw [h.groupDesc]
    exact hf.inodeTable

/-- A commit with the same bitmap looks the same again: the bitmap of the group is written, the others
are as they were. -/
theorem SameAlloc.commit {s' : FS} (h : SameAlloc s s') (hf : Formatted s) {i : ℕ}
    (hi : i < groups s.superBlock.sectorNum) {delta : ℤ} {bitmapOffset : ℕ} {bitmap bitmap' : Buf}
    (hoff : bitmapOffset * 512 = (Pool.region .block i).off s.superBlock.sectorNum)
    (hbitmap : ∀ n, n < 1024 → bitmap' n = bitmap n) :
    SameAlloc (SeL4Sys.commit .block s i delta bitmapOffset bitmap)
      (SeL4Sys.commit .block s' i delta bitmapOffset bitmap') := by
  have hf' := h.formatted hf
  have hoff' : bitmapOffset * 512 = (Pool.region .block i).off s'.superBlock.sectorNum := by
    rw [h.superBlock, hoff]
  refine ⟨?_, ?_, ?_⟩
  · simp only [commit_superBlock, h.superBlock]
  · funext l
    simp only [commit_groupDesc, h.groupDesc]
  · intro l hl
    simp only [commit_sectorNum] at hl ⊢
    by_cases hli : l = i
    · subst hli
      intro p hp hp'
      have ⟨j, hj⟩ := Nat.exists_eq_add_of_le hp
      have hlt : j < 1024 := by omega
      -- the bitmap of the group is what the two calls write
      have hwin : window (SeL4Sys.commit .block s l delta bitmapOffset bitmap).disk _ j = bitmap j :=
        commit_window hf hoff hlt
      have hwin' : window (SeL4Sys.commit .block s' l delta bitmapOffset bitmap').disk _ j
          = bitmap' j := commit_window hf' hoff' hlt
      rw [h.superBlock, hbitmap j hlt] at hwin'
      rw [hj]
      exact hwin'.trans hwin.symm
    · have hne : Region.blockBitmap l ≠ Pool.region .block i := by
        intro heq
        exact hli (Pool.region_inj (p := .block) (q := .block) heq).2
      have hold : Agree s.disk (SeL4Sys.commit .block s i delta bitmapOffset bitmap).disk _ _ :=
        commit_agree hf hi hoff (r := .blockBitmap l) (Pool.region_valid .block hl)
          (Pool.region_ne_super .block l) (Pool.region_ne_descs .block l) hne
      have hnew : Agree s'.disk (SeL4Sys.commit .block s' i delta bitmapOffset bitmap').disk _ _ :=
        commit_agree hf' (by rwa [h.superBlock]) hoff' (r := .blockBitmap l)
          (Pool.region_valid .block (by rwa [h.superBlock])) (Pool.region_ne_super .block l)
          (Pool.region_ne_descs .block l) hne
      rw [h.superBlock] at hnew
      exact hold.symm.trans ((h.bitmaps l hl).trans hnew)

section sameAlloc
variable {s' : FS} (hf : Formatted s) (h : SameAlloc s s') (hh : Hits .block s)
include h

theorem SameAlloc.searchGroup_eq : searchGroup .block s' = searchGroup .block s := by
  unfold searchGroup FS.groupNum
  rw [h.superBlock, h.groupDesc]

include hf hh

/-- The bitmap that is read is the same. -/
theorem SameAlloc.searchBitmap_eq : searchBitmap .block s' = searchBitmap .block s := by
  have hoff := searchBitmapOffset_eq hf hh.group
  have hoff' : searchBitmapOffset .block s' = searchBitmapOffset .block s := by
    unfold searchBitmapOffset FS.groupNum
    rw [h.searchGroup_eq, h.superBlock, h.groupDesc]
  unfold searchBitmap
  rw [readDisk_eq, readDisk_eq, hoff']
  refine patch_congr fun j hj => ?_
  rw [show searchBitmapOffset .block s * sectorSize = _ from hoff]
  exact (h.bitmaps _ hh.group).window_eq (by simpa using hj)

theorem SameAlloc.searchBit_eq : searchByte .block s' = searchByte .block s
    ∧ searchBit .block s' = searchBit .block s := by
  have hbyte : searchByte .block s' = searchByte .block s := by
    unfold searchByte
    rw [h.searchBitmap_eq hf hh, h.searchGroup_eq, h.groupDesc]
  refine ⟨hbyte, ?_⟩
  unfold searchBit
  rw [hbyte, h.searchBitmap_eq hf hh]

theorem SameAlloc.hits : Hits .block s' := by
  obtain ⟨hbyte, hbit⟩ := h.searchBit_eq hf hh
  have hindex : searchIndex .block s' = searchIndex .block s := by
    unfold searchIndex
    rw [hbyte, hbit]
  refine ⟨?_, ?_, ?_, ?_⟩
  · rw [h.superBlock]
    exact hh.avail
  · rw [h.searchGroup_eq, h.superBlock]
    exact hh.group
  · rw [hbit]
    exact hh.bit
  · rw [hindex, h.searchGroup_eq, h.superBlock]
    exact hh.index

/-- The same block is handed out, and what is left looks the same again. -/
theorem SameAlloc.takeBlock : SameAlloc s.takeBlock.1 s'.takeBlock.1
    ∧ s'.takeBlock.2 = s.takeBlock.2 := by
  obtain ⟨hbyte, hbit⟩ := h.searchBit_eq hf hh
  have hf' := h.formatted hf
  have hh' := h.hits hf hh
  have hgroup := h.searchGroup_eq
  have hindex : searchIndex .block s' = searchIndex .block s := by
    unfold searchIndex
    rw [hbyte, hbit]
  rw [takeBlock_eq hf hh, takeBlock_eq hf' hh']
  refine ⟨?_, ?_⟩
  · have hoff : searchBitmapOffset .block s' = searchBitmapOffset .block s := by
      rw [searchBitmapOffset, searchBitmapOffset, hgroup, h.groupDesc, FS.groupNum, FS.groupNum,
        h.superBlock]
    show SameAlloc (taken .block s) (taken .block s')
    rw [taken, taken, hgroup, hoff, h.searchBitmap_eq hf hh, hbyte, hbit]
    exact h.commit hf hh.group (searchBitmapOffset_eq hf hh.group) fun _ _ => rfl
  · rw [hgroup, hindex, h.superBlock]

end sameAlloc

/-- Calls in a row keep looking the same. -/
theorem SameAlloc.takes {s' : FS} (h : SameAlloc s s') (hf : Formatted s) {m : ℕ}
    (hget : GetsFreeFor s m) : SameAlloc (s.takes m) (s'.takes m) := by
  induction m with
  | zero => exact h
  | succ m ih =>
    have ih := ih (hget.mono (Nat.le_succ m))
    exact (ih.takeBlock (takes_formatted hf m).1 (takes_hits hf hget (Nat.lt_succ_self m))).1

section
variable {s' : FS} (h : SameAlloc s s') (hf : Formatted s) {m : ℕ} (hget : GetsFreeFor s m)
include h hf hget

theorem SameAlloc.getsFreeFor : GetsFreeFor s' m := by
  intro j hj
  have hsame := h.takes hf (hget.mono hj.le)
  have hf' := (takes_formatted hf j).1
  exact (getsFree_iff (hsame.formatted hf')).mpr (hsame.hits hf' (takes_hits hf hget hj))

end

theorem takes_takes (s : FS) (m n : ℕ) : (s.takes m).takes n = s.takes (m + n) := by
  induction n with
  | zero => rfl
  | succ n ih => rw [FS.takes, ih, ← Nat.add_assoc, FS.takes]

/-- The calls that are left when some were made. -/
theorem GetsFreeFor.drop {m n : ℕ} (h : GetsFreeFor s (m + n)) : GetsFreeFor (s.takes m) n := by
  intro j hj
  rw [takes_takes]
  exact h (m + j) (by omega)

/-- Every call that hits takes one off the number of free blocks. -/
theorem avail_takes (hf : Formatted s) {m : ℕ} (hget : GetsFreeFor s m) :
    (s.takes m).superBlock.availBlockNum = s.superBlock.availBlockNum - m := by
  induction m with
  | zero => simp [FS.takes]
  | succ m ih =>
    have ih := ih (hget.mono (Nat.le_succ m))
    rw [FS.takes, takeBlock_eq (takes_formatted hf m).1 (takes_hits hf hget (Nat.lt_succ_self m))]
    simp only [taken, commit_superBlock, SuperBlock.setAvail, SuperBlock.avail, ih]
    push_cast
    ring

/-- The blocks that are taken do not count as inodes. -/
theorem sameCounters_takes (s : FS) (m : ℕ) : SameCounters .inode s (s.takes m) := by
  induction m with
  | zero => exact SameCounters.refl _ _
  | succ m ih =>
    refine ih.trans ?_
    rw [FS.takes, FS.takeBlock, getAvailBlock, getAvail]
    by_cases havail : (s.takes m).superBlock.avail .block = 0
    · rw [if_pos havail]
      exact SameCounters.refl _ _
    · rw [if_neg havail]
      exact sameCounters_commit (by decide)

theorem SameAlloc.inodeCounters {m : ℕ} (h : SameAlloc (s.takes m) s') : SameCounters .inode s s' := by
  have htakes := sameCounters_takes s m
  refine ⟨?_, fun l => ?_⟩
  · rw [h.superBlock, htakes.superBlock]
  · rw [h.groupDesc, htakes.group]

/-! ## Giving blocks back -/

/-- What a release of data block `b` does, whether or not its bit was set. -/
theorem giveBlock_spec (hf : Formatted s) (hb : IsData s.superBlock.sectorNum b) :
    Formatted (s.giveBlock b) ∧ (s.giveBlock b).superBlock.sectorNum = s.superBlock.sectorNum
      ∧ ChangesOnly s.superBlock.sectorNum s.disk (s.giveBlock b).disk (poolRegions .block)
      ∧ ∀ x, Used s.superBlock.sectorNum (s.giveBlock b).disk x
          ↔ Used s.superBlock.sectorNum s.disk x ∧ x ≠ b := by
  obtain ⟨i, n, hi, hn, rfl⟩ := hb
  have hlim := blocksOf_le s.superBlock.sectorNum i
  rw [FS.giveBlock, setAllocBlock_eq hf hi hn, setAlloc_eq hf hi (by omega)]
  by_cases hset : poolBit .block s.superBlock.sectorNum s.disk i n = true
  · rw [if_pos hset, Option.getD_some]
    exact ⟨released_formatted hf, released_sectorNum, changesOnly_released hf hi,
      fun x => poolUsed_released hf hi hn hset⟩
  · rw [if_neg hset, Option.getD_none]
    refine ⟨hf, rfl, ChangesOnly.refl _ _ _, fun x => ⟨fun hx => ⟨hx, ?_⟩, fun hx => hx.1⟩⟩
    rintro rfl
    exact hset ((used_dataSector_iff hi hn).mp hx)

/-- The file system after several blocks were given back, in order. -/
def FS.gives (s : FS) : List ℕ → FS
  | [] => s
  | b :: bs => (s.giveBlock b).gives bs

theorem gives_spec (hf : Formatted s) {bs : List ℕ}
    (hb : ∀ b ∈ bs, IsData s.superBlock.sectorNum b) :
    Formatted (s.gives bs) ∧ (s.gives bs).superBlock.sectorNum = s.superBlock.sectorNum
      ∧ ChangesOnly s.superBlock.sectorNum s.disk (s.gives bs).disk (poolRegions .block)
      ∧ ∀ x, Used s.superBlock.sectorNum (s.gives bs).disk x
          ↔ Used s.superBlock.sectorNum s.disk x ∧ x ∉ bs := by
  induction bs generalizing s with
  | nil => exact ⟨hf, rfl, ChangesOnly.refl _ _ _, fun x => by simp [FS.gives]⟩
  | cons b bs ih =>
    obtain ⟨hf', hS, hch, hused⟩ := giveBlock_spec hf (hb b List.mem_cons_self)
    obtain ⟨hf'', hS', hch', hused'⟩ := ih hf' fun x hx => by
      rw [hS]
      exact hb x (List.mem_cons_of_mem b hx)
    rw [hS] at hch' hused' hS'
    refine ⟨hf'', hS', hch.trans hch', fun x => ?_⟩
    rw [FS.gives, hused', hused, List.mem_cons, not_or]
    tauto

/-- The blocks that are given back do not count as inodes. -/
theorem sameCounters_gives (s : FS) (bs : List ℕ) : SameCounters .inode s (s.gives bs) := by
  induction bs generalizing s with
  | nil => exact SameCounters.refl _ _
  | cons b bs ih =>
    refine SameCounters.trans ?_ (ih (s.giveBlock b))
    simp only [FS.giveBlock, setAllocBlock, setAlloc]
    split_ifs
    · exact SameCounters.refl _ _
    · exact sameCounters_commit (by decide)

/-! ## What adding a block leaves alone -/

/-- The inodes that are left, and the length of the file. -/
structure AllocKeeps (s : FS) (ino : Inode) (q : FS × Inode) : Prop where
  availInodeNum : q.1.superBlock.availInodeNum = s.superBlock.availInodeNum
  size : q.2.size = ino.size

section keeps
variable {ino : Inode} {o : ℕ} {stack : ℕ → Buf} {q : FS × Inode}

theorem takeBlock_availInodeNum (s : FS) :
    s.takeBlock.1.superBlock.availInodeNum = s.superBlock.availInodeNum := by
  rw [FS.takeBlock, getAvailBlock, getAvail]
  split_ifs <;> rfl

/-- A branch of the ladder. -/
theorem AllocKeeps.of_ite {p : Prop} [Decidable p] {x : FS × Inode} {rest : Option (FS × Inode)}
    (h : (if p then some x else rest) = some q) (hx : AllocKeeps s ino x)
    (hrest : rest = some q → AllocKeeps s ino q) : AllocKeeps s ino q := by
  by_cases hp : p
  · rw [if_pos hp] at h
    exact Option.some.inj h ▸ hx
  · rw [if_neg hp] at h
    exact hrest h

theorem allocLastBlock_keeps (h : allocLastBlock s ino o b stack = some q) : AllocKeeps s ino q := by
  -- no branch takes more than three blocks
  have htake₁ := takeBlock_availInodeNum s
  have htake₂ := (takeBlock_availInodeNum s.takeBlock.1).trans htake₁
  have htake₃ := (takeBlock_availInodeNum s.takeBlock.1.takeBlock.1).trans htake₂
  unfold allocLastBlock at h
  dsimp only at h
  refine AllocKeeps.of_ite h ⟨rfl, rfl⟩ fun h => ?_
  refine AllocKeeps.of_ite h ⟨htake₁, rfl⟩ fun h => ?_
  refine AllocKeeps.of_ite h ⟨rfl, rfl⟩ fun h => ?_
  refine AllocKeeps.of_ite h ⟨htake₂, rfl⟩ fun h => ?_
  refine AllocKeeps.of_ite h ⟨htake₁, rfl⟩ fun h => ?_
  refine AllocKeeps.of_ite h ⟨rfl, rfl⟩ fun h => ?_
  refine AllocKeeps.of_ite h ⟨htake₃, rfl⟩ fun h => ?_
  refine AllocKeeps.of_ite h ⟨htake₂, rfl⟩ fun h => ?_
  refine AllocKeeps.of_ite h ⟨htake₁, rfl⟩ fun h => ?_
  refine AllocKeeps.of_ite h ⟨rfl, rfl⟩ fun h => ?_
  cases h

theorem allocBlock_keeps (h : allocBlock s ino o stack = some q) : AllocKeeps s ino q := by
  rw [allocBlock] at h
  split_ifs at h
  cases h
  cases hlast : allocLastBlock s.takeBlock.1 ino o s.takeBlock.2 stack with
  | none => exact ⟨takeBlock_availInodeNum s, rfl⟩
  | some r =>
    have hkeeps := allocLastBlock_keeps hlast
    exact ⟨hkeeps.availInodeNum.trans (takeBlock_availInodeNum s), hkeeps.size⟩

end keeps

end SeL4Sys

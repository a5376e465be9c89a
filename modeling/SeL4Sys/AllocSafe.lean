import SeL4Sys.FileBlocks
import SeL4Sys.Mount

/-!
# `allocBlock` is all or nothing

The comment of `allocBlock` promises that it changes nothing when it fails. It looks once, before it
starts, at the number of blocks it will need, and ignores what the calls it makes return. So it does
what it promises exactly when none of them goes wrong: the file must not be full, and every search for
a block must find a hole near the start of the bitmap.
-/

namespace SeL4Sys

open Bytes

/-! ## Searches that miss

A search takes one off the counters, hands out a block of the disk and sets a bit only if it hits. -/

section misses
variable {s : FS} {m : ℕ}

theorem Backed.takeBlock_eq (h : Backed .block s) (hf : Formatted s)
    (hpos : 1 ≤ s.superBlock.availBlockNum) :
    s.takeBlock = (SeL4Sys.taken .block s, dataSector s.superBlock.sectorNum (searchGroup .block s)
      (searchIndex .block s)) := by
  have hg := (h.searchGroup_lt hf hpos).1
  have hne : s.superBlock.avail .block ≠ 0 := by
    change s.superBlock.availBlockNum ≠ 0
    omega
  rw [FS.takeBlock, getAvailBlock_of_group hf hne hg, Option.getD_some]

theorem Backed.used_taken (h : Backed .block s) (hf : Formatted s)
    (hpos : 1 ≤ s.superBlock.availBlockNum) {b : ℕ}
    (hb : Used s.superBlock.sectorNum (SeL4Sys.taken .block s).disk b) :
    Used s.superBlock.sectorNum s.disk b ∨ (searchBit .block s < 8 ∧ b = s.takeBlock.2) := by
  have ⟨i, n, hi, hn, heq, hset⟩ := hb
  have hn' : n < 8192 := lt_of_lt_of_le hn (blocksOf_le _ i)
  have hg := (h.searchGroup_lt hf hpos).1
  by_cases hbit : searchBit .block s < 8
  · rw [taken_poolBit hf hg hbit hi hn', Bool.or_eq_true, decide_eq_true_eq] at hset
    rcases hset with hset | ⟨hgroup, hindex⟩
    · exact Or.inl ⟨i, n, hi, hn, heq, hset⟩
    · refine Or.inr ⟨hbit, ?_⟩
      rw [heq, hgroup, hindex, h.takeBlock_eq hf hpos]
  · rw [taken_poolBit_of_miss hf hg hbit hi hn'] at hset
    exact Or.inl ⟨i, n, hi, hn, heq, hset⟩

/-- What holds after some calls, whether or not they hit. -/
structure AfterTakes (s : FS) (m : ℕ) : Prop where
  backed : Backed .block (s.takes m)
  avail : (s.takes m).superBlock.availBlockNum = s.superBlock.availBlockNum - m
  changes : ChangesOnly s.superBlock.sectorNum s.disk (s.takes m).disk (poolRegions .block)
  isData : ∀ j, j < m → IsData s.superBlock.sectorNum (s.fresh j)
  used : ∀ b, Used s.superBlock.sectorNum (s.takes m).disk b →
    Used s.superBlock.sectorNum s.disk b
      ∨ ∃ j, j < m ∧ searchBit .block (s.takes j) < 8 ∧ b = s.fresh j

theorem Backed.afterTakes (h : Backed .block s) (hf : Formatted s)
    (hm : (m : ℤ) ≤ s.superBlock.availBlockNum) : AfterTakes s m := by
  induction m with
  | zero =>
    refine ⟨h, ?_, ChangesOnly.refl _ _ _, fun j hj => absurd hj (Nat.not_lt_zero j), fun b hb => Or.inl hb⟩
    show s.superBlock.availBlockNum = _
    simp
  | succ m ih =>
    have hprev := ih (by omega)
    have ⟨hf', hS⟩ := takes_formatted hf m
    have hpos : 1 ≤ (s.takes m).superBlock.availBlockNum := by
      rw [hprev.avail]
      omega
    have ⟨hg, _⟩ := hprev.backed.searchGroup_lt hf' hpos
    have hindex := hprev.backed.searchIndex_lt hf' hpos
    have htake := hprev.backed.takeBlock_eq hf' hpos
    have hstep : s.takes (m + 1) = SeL4Sys.taken .block (s.takes m) := by rw [FS.takes, htake]
    have hchanges := changesOnly_taken hf' hg
    have hused := fun b => hprev.backed.used_taken hf' hpos (b := b)
    rw [hS] at hchanges hused
    refine ⟨?_, ?_, ?_, ?_, ?_⟩
    · rw [hstep]
      exact hprev.backed.taken hf' hpos
    · rw [hstep]
      change (SeL4Sys.taken .block (s.takes m)).superBlock.avail .block = _
      rw [SeL4Sys.taken, commit_superBlock, SuperBlock.avail_setAvail]
      change (s.takes m).superBlock.availBlockNum + -1 = _
      rw [hprev.avail]
      push_cast
      ring
    · rw [hstep]
      exact hprev.changes.trans hchanges
    · intro j hj
      rcases Nat.lt_succ_iff_lt_or_eq.mp hj with hlt | rfl
      · exact hprev.isData j hlt
      · rw [FS.fresh, htake, hS]
        rw [hS] at hg hindex
        exact ⟨_, _, hg, hindex, rfl⟩
    · intro b hb
      rw [hstep] at hb
      rcases hused b hb with hb | ⟨hbit, hb⟩
      -- a bit that is set now was set before, or by the last call
      · rcases hprev.used b hb with hb | ⟨j, hj, hbit, hb⟩
        · exact Or.inl hb
        · exact Or.inr ⟨j, Nat.lt_succ_of_lt hj, hbit, hb⟩
      · exact Or.inr ⟨m, Nat.lt_succ_self m, hbit, hb⟩

/-- When as many bits were set as there were calls, all of them hit. -/
theorem AfterTakes.all_hit (h : AfterTakes s m) {bs : List ℕ} (hlen : bs.length = m)
    (hnodup : bs.Nodup)
    (hnew : ∀ b ∈ bs, ¬ Used s.superBlock.sectorNum s.disk b
      ∧ Used s.superBlock.sectorNum (s.takes m).disk b) {j : ℕ} (hj : j < m) :
    searchBit .block (s.takes j) < 8 := by
  -- the blocks of the list are among those of the calls that hit
  let hits := (List.range m).filter fun j => decide (searchBit .block (s.takes j) < 8)
  have hsub : bs ⊆ hits.map s.fresh := by
    intro b hb
    have ⟨hfree, hused⟩ := hnew b hb
    rcases h.used b hused with hused | ⟨l, hl, hbit, hb⟩
    · exact absurd hused hfree
    · refine List.mem_map.mpr ⟨l, ?_, hb.symm⟩
      exact List.mem_filter.mpr ⟨List.mem_range.mpr hl, decide_eq_true hbit⟩
  have hle := (hnodup.subperm hsub).length_le
  rw [List.length_map, hlen] at hle
  have hall : hits.length = (List.range m).length := by
    refine le_antisymm (List.length_filter_le ..) ?_
    rwa [List.length_range]
  exact of_decide_eq_true (List.length_filter_eq_length_iff.mp hall j (List.mem_range.mpr hj))

/-- Calls that all hit found holes near the start of the bitmap. -/
theorem Consistent.nearHole_of_all_hit (h : Consistent .block s)
    (hm : (m : ℤ) ≤ s.superBlock.availBlockNum)
    (hbit : ∀ j, j < m → searchBit .block (s.takes j) < 8) {j : ℕ} (hj : j < m) :
    NearHole .block (s.takes j) := by
  have hf := h.formatted
  induction j using Nat.strongRecOn with
  | ind j ih =>
    have hget : GetsFreeFor s j := h.getsFreeFor fun l hl => ih l hl (by omega)
    have hcons := h.takes hget
    have hpos : 1 ≤ (s.takes j).superBlock.availBlockNum := by
      rw [avail_takes hf hget]
      omega
    exact (hcons.searchBit_lt_iff_nearHole hpos).mp (hbit j hj)

end misses

/-! ## All or nothing -/

/-- Either the call fails, and leaves everything as it was, or the file has one block more and as many
blocks as `allocBlock` reckons with were taken. It fails when there are fewer of them, and when the file
is full. -/
def AllocSafe (s : FS) (ino : Inode) (o : ℕ) (stack : ℕ → Buf) : Prop :=
  (allocBlock s ino o stack = none
    ∨ ∃ s' ino' bs, allocBlock s ino o stack = some (s', ino')
      ∧ ino'.blockCount = ino.blockCount + 1
      ∧ (bs.length : ℤ) = calNeededPointerBlocks s.superBlock ino.blockCount + 1
      ∧ Took s s' bs)
  ∧ (s.superBlock.availBlockNum < calNeededPointerBlocks s.superBlock ino.blockCount + 1
      ∨ ino.blockCount = s.superBlock.bound3 → allocBlock s ino o stack = none)

/-- The file is not full, and when there are blocks enough every search finds a hole near the start of
the bitmap. -/
def AllocFinds (s : FS) (ino : Inode) : Prop :=
  ino.blockCount < s.superBlock.bound3
  ∧ (calNeededPointerBlocks s.superBlock ino.blockCount + 1 ≤ s.superBlock.availBlockNum →
      ∀ j : ℕ, (j : ℤ) ≤ calNeededPointerBlocks s.superBlock ino.blockCount →
        NearHole .block (s.takes j))

section safe
variable {s : FS} {ino : Inode} {o : ℕ} {stack : ℕ → Buf}

/-- A file that is full costs a block, if there is one, and stays as it is. -/
theorem allocBlock_full (hcons : Consistent .block s) (hfull : ino.blockCount = s.superBlock.bound3) :
    allocBlock s ino o stack = some (s.takeBlock.1, ino) := by
  have hf := hcons.formatted
  have hnonneg : 0 ≤ s.superBlock.availBlockNum := hcons.backed.avail_nonneg
  rw [hf.bound3] at hfull
  have hlast := allocLastBlock_full (takeBlock_formatted hf).1 hfull le_rfl o s.takeBlock.2 stack
  rw [allocBlock, hfull, calNeededPointerBlocks_full hf le_rfl, if_neg (by omega)]
  simp only [hlast, Option.getD_none]

/-- To the allocator, a call on a file that can grow is its calls of `getAvailBlock`, whether or not
they hit. -/
theorem BlocksOk.alloc_sameAlloc (hf : Formatted s) (htree : BlocksOk s ino)
    (ho : IsSlot s.superBlock.sectorNum o) {c : ℕ} (hcount : ino.blockCount = c) (hc : c < maxBlocks)
    (havail : (newLevels c : ℤ) + 1 ≤ s.superBlock.availBlockNum)
    (htakes : AfterTakes s (newLevels c + 1)) {s' : FS} {ino' : Inode}
    (halloc : allocBlock s ino o stack = some (s', ino')) :
    SameAlloc (s.takes (newLevels c + 1)) s' := by
  have hown := (blocksOk_iff_owned hf).mp htree
  have hblocks : ino.blocks = c := by rw [Inode.blocks, hcount, Int.toNat_natCast]
  rw [allocBlock_eq hf hcount hc havail] at halloc
  have hs' : s' = _ := (congrArg Prod.fst (Option.some.inj halloc)).symm
  -- the block above the new ones is where it was
  have hparent : ∀ i l, (dataNode c).path.drop (newLevels c) = i :: l →
      IsData s.superBlock.sectorNum (resolve (s.takes (newLevels c + 1)).disk ino (dataRoot c) l) := by
    intro i l hrest
    have hlive : (Node.mk (dataRoot c) l).Live ino.blocks := by
      rw [hblocks]
      exact (rest_cons hc hrest).2.2.2
    have hsector := hown.sector_eq (o := o) (htakes.changes.mono fun q hq => Or.inl hq) (y := ())
      trivial hlive
    have hdata := hown.isData (x := ()) trivial hlive
    rw [← hsector] at hdata
    exact hdata
  have hgrow := changesOnly_growDisk (d := (s.takes (newLevels c + 1)).disk) stack
    (fun j hj => htakes.isData j (Nat.lt_succ_of_le hj)) hparent
  have hboth := (hgrow.mono Set.subset_union_left).trans
    ((changesOnly_slot _ (allocedInode s ino c) ho).mono Set.subset_union_right)
  rw [← (takes_formatted hf (newLevels c + 1)).2] at hboth
  rw [hs']
  refine hboth.sameAlloc fun i hmem => ?_
  rcases hmem with hmem | hmem
  · exact region_notMem_growRegions .block i hmem
  · exact region_notMem_slot .block _ i _ hmem

theorem BlocksOk.allocSafe (hcons : Consistent .block s) (htree : BlocksOk s ino)
    (ho : IsSlot s.superBlock.sectorNum o) (h : AllocFinds s ino) : AllocSafe s ino o stack := by
  have hf := hcons.formatted
  obtain ⟨c, hcount⟩ := Int.eq_ofNat_of_zero_le htree.nonneg
  have hblocks : ino.blocks = c := by rw [Inode.blocks, hcount, Int.toNat_natCast]
  have hc : c < maxBlocks := by
    rw [← hblocks]
    exact htree.blocks_lt hf
  have hneeded := calNeededPointerBlocks_eq hf hc
  rw [AllocSafe]
  rw [AllocFinds] at h
  rw [hcount, hneeded] at h ⊢
  by_cases havail : (newLevels c : ℤ) + 1 ≤ s.superBlock.availBlockNum
  · have hget : GetsFreeFor s (newLevels c + 1) :=
      hcons.getsFreeFor fun j hj => h.2 havail j (by omega)
    obtain ⟨s', ino', halloc, happ⟩ := htree.alloc hf ho hcount hc havail hget stack
    refine ⟨Or.inr ⟨s', ino', _, halloc, ?_, ?_, happ.took⟩, ?_⟩
    · rw [happ.blockCount, hcount]
    · rw [List.length_map, List.length_range, hblocks]
      push_cast
      ring
    · rintro (hfew | hfull)
      · omega
      · omega
  · have hnone : allocBlock s ino o stack = none := by
      rw [allocBlock, hcount, hneeded, if_pos (by omega)]
    exact ⟨Or.inl hnone, fun _ => hnone⟩

theorem BlocksOk.allocFinds (hcons : Consistent .block s) (htree : BlocksOk s ino)
    (ho : IsSlot s.superBlock.sectorNum o) (h : AllocSafe s ino o stack) : AllocFinds s ino := by
  have hf := hcons.formatted
  obtain ⟨c, hcount⟩ := Int.eq_ofNat_of_zero_le htree.nonneg
  have hc : c < maxBlocks := by
    have hlt := htree.blocks_lt hf
    rwa [Inode.blocks, hcount, Int.toNat_natCast] at hlt
  have hneeded := calNeededPointerBlocks_eq hf hc
  have hresult := h.1
  rw [AllocFinds]
  rw [hcount, hneeded] at hresult ⊢
  refine ⟨by rw [hf.bound3]; exact_mod_cast hc, ?_⟩
  intro havail j hj
  rcases hresult with hnone | ⟨s', ino', bs, halloc, _, hlen, htook⟩
  · rw [allocBlock, hcount, hneeded, if_neg (by omega)] at hnone
    cases hnone
  · have htakes : AfterTakes s (newLevels c + 1) :=
      hcons.backed.afterTakes hf (by push_cast; omega)
    have hsame := htree.alloc_sameAlloc hf ho hcount hc havail htakes halloc
    -- the bits that the call has set are those that its searches have set
    have hnew : ∀ b ∈ bs, ¬ Used s.superBlock.sectorNum s.disk b
        ∧ Used s.superBlock.sectorNum (s.takes (newLevels c + 1)).disk b := by
      intro b hb
      refine ⟨(htook.free b hb).2, ?_⟩
      have hused := htook.used_iff.mpr (Or.inr hb)
      obtain ⟨i, n, hi, hn, heq, hset⟩ := hused
      refine ⟨i, n, hi, hn, heq, ?_⟩
      rw [← hset]
      have hS := (takes_formatted hf (newLevels c + 1)).2
      have hagree := hsame.bitmaps i (by rwa [hS])
      rw [hS] at hagree
      exact (poolBit_congr (p := .block) hagree (lt_of_lt_of_le hn (blocksOf_le _ i))).symm
    have hbit := fun l => htakes.all_hit (by omega) htook.nodup hnew (j := l)
    exact hcons.nearHole_of_all_hit (by push_cast; omega) hbit (by omega)

end safe

/-- **`allocBlock` is all or nothing** on a consistent file system exactly when the file is not full and
every search it makes finds a hole near the start of the bitmap. -/
theorem allocBlock_safe_iff {s : FS} (hcons : Consistent .block s) {ino : Inode}
    (hino : BlocksOk s ino ∨ ino.blockCount = s.superBlock.bound3) {o : ℕ}
    (ho : IsSlot s.superBlock.sectorNum o) (stack : ℕ → Buf) :
    AllocSafe s ino o stack ↔ AllocFinds s ino := by
  rcases hino with htree | hfull
  · exact ⟨htree.allocFinds hcons ho, htree.allocSafe hcons ho⟩
  · refine iff_of_false ?_ ?_
    · intro h
      have hnone := h.2 (Or.inr hfull)
      rw [allocBlock_full hcons hfull] at hnone
      cases hnone
    · intro h
      have hlt := h.1
      omega

/-- The thirteenth block of a file. -/
theorem allocBlock_safe_iff_indirect :
    AllocSafe directFS directFile (slotOffset 2106 0 1) (fun _ _ => 0) := by
  refine (allocBlock_safe_iff directFS_consistent (Or.inl directFile_blocksOk)
    (smallFS_isSlot _ _ _ (by norm_num : 1 < 8192)) _).mpr ⟨by decide, fun _ j hj => ?_⟩
  rw [directFS_needed] at hj
  exact directFS_nearHole (by omega)

/-- With blocks 0 to 23 in use and one left, a call on an empty file returns 0 and has taken nothing:
the block it adds was in use. -/
theorem packed_not_allocSafe :
    Consistent .block AllocRun.packed ∧ BlocksOk AllocRun.packed Files.emptyFile
      ∧ ¬ AllocSafe AllocRun.packed Files.emptyFile (slotOffset 2106 0 1) fun _ _ => 0 := by
  have hcons := AllocRun.packed_consistent
  have htree := blocksOk_empty AllocRun.packed (rfl : Files.emptyFile.blockCount = 0)
  have hslot : IsSlot AllocRun.packed.superBlock.sectorNum (slotOffset 2106 0 1) :=
    smallFS_isSlot _ _ _ (by norm_num)
  refine ⟨hcons, htree, fun hsafe => ?_⟩
  have hfinds := htree.allocFinds hcons hslot hsafe
  have hneeded : calNeededPointerBlocks AllocRun.packed.superBlock Files.emptyFile.blockCount = 0 :=
    calNeededPointerBlocks_small _ _ _
  have hnear := hfinds.2 (by rw [hneeded]; decide) 0 (by rw [hneeded]; exact le_rfl)
  exact AllocRun.packed_not_nearHole hnear

end SeL4Sys

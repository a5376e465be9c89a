import SeL4Sys.AllocSafe
import SeL4Sys.DirGrow

/-!
# The entries of a directory after a creation

When `allocInode` returns 0, the entries that `getDirEntry` enumerates are those from before and the
new one, if the new entry went into a slot that was empty. If a block had to be added, the slots
behind the new entry hold what was in the buffer: the last block of the directory, or whatever
the array held if there is none.
-/

namespace SeL4Sys

open Bytes CString Loop Function

variable {s : FS} {father dest : Inode} {o destOffset : ℕ} {name : List UInt8} {type : ℤ}
  {b : Buf} {stack : ℕ → Buf}

/-! ## Enumerating with `getDirEntry` -/

/-- The names and inodes that `getDirEntry` returns for the indices 0, 1, and so on. There are no
more of them than slots. -/
def dirList (s : FS) (inode : Inode) (tmpName tmpBuffer : Buf) : List (List UInt8 × ℕ) :=
  (List.range (slots inode)).filterMap fun k : ℕ =>
    (getDirEntry s inode k tmpName tmpBuffer).map fun e => (cstr e.2 64, e.1)

theorem filterMap_getElem? {α : Type*} (l : List α) (n : ℕ) :
    (List.range n).filterMap (fun k => l[k]?) = l.take n := by
  induction n with
  | zero => rfl
  | succ n ih =>
    rw [List.range_succ, List.filterMap_append, ih, List.take_add_one, List.filterMap_cons,
      List.filterMap_nil]
    cases l[n]? <;> rfl

theorem length_liveEntries_le (d : Disk) (ino : Inode) : (liveEntries d ino).length ≤ slots ino := by
  have := List.length_filterMap_le (entryAt d ino) (List.range (slots ino))
  rwa [List.length_range] at this

theorem dirList_eq (hf : Formatted s) (hcount : father.blocks ≤ maxBlocks) (tmpName tmpBuffer : Buf) :
    dirList s father tmpName tmpBuffer = liveEntries s.disk father := by
  have hget : ∀ k ∈ List.range (slots father),
      ((getDirEntry s father k tmpName tmpBuffer).map fun e => (cstr e.2 64, e.1))
        = (liveEntries s.disk father)[k]? := fun k _ => getDirEntry_eq hf hcount k _ _
  rw [dirList, List.filterMap_congr hget, filterMap_getElem?,
    List.take_of_length_le (length_liveEntries_le _ _)]

theorem mem_erase_range {n t u : ℕ} : u ∈ (List.range n).erase t ↔ u ≠ t ∧ u < n := by
  rw [List.nodup_range.mem_erase_iff, List.mem_range]

/-- A table with at most one empty place. -/
theorem le_length_filterMap_range {α : Type*} {f : ℕ → Option α} {n t : ℕ} (ht : t < n)
    (h : ∀ u, u < n → u ≠ t → (f u).isSome = true) :
    n - 1 ≤ ((List.range n).filterMap f).length := by
  have hothers : (((List.range n).erase t).filterMap f).length = ((List.range n).erase t).length := by
    rw [List.filterMap_length_eq_length]
    intro u hu
    have hu' := mem_erase_range.mp hu
    exact h u hu'.2 hu'.1
  have hsub : ((List.range n).erase t).Sublist (List.range n) := List.erase_sublist
  have hle := (hsub.filterMap f).length_le
  rwa [hothers, List.length_erase_of_mem (List.mem_range.mpr ht), List.length_range] at hle

/-- One place of a table is filled in. -/
theorem filterMap_range_perm {α : Type*} {f g : ℕ → Option α} {n t : ℕ} {a : α} (ht : t < n)
    (hf : f t = none) (hg : g t = some a) (hsame : ∀ u, u < n → u ≠ t → g u = f u) :
    ((List.range n).filterMap g).Perm (a :: (List.range n).filterMap f) := by
  have hperm := List.perm_cons_erase (List.mem_range.mpr ht)
  have hothers : ((List.range n).erase t).filterMap g = ((List.range n).erase t).filterMap f :=
    List.filterMap_congr fun u hu => by
      have hu' := mem_erase_range.mp hu
      exact hsame u hu'.2 hu'.1
  have hwith := hperm.filterMap g
  have hwithout := hperm.filterMap f
  rw [List.filterMap_cons_some hg, hothers] at hwith
  rw [List.filterMap_cons_none hf] at hwithout
  exact hwith.trans (hwithout.symm.cons a)

theorem entryAt_congr {d d' : Disk} {ino ino' : Inode} {t : ℕ}
    (h : ∀ i, i < 128 → fileFrom d' ino' (128 * t) i = fileFrom d ino (128 * t) i) :
    entryAt d' ino' t = entryAt d ino t := by
  rw [entryAt, entryAt, slotInode_congr h, slotName_congr h]

theorem entryAt_isSome {d : Disk} {ino : Inode} {t : ℕ} (h : slotInode d ino t ≠ 0) :
    (entryAt d ino t).isSome = true := by
  rw [entryAt, if_pos h]
  rfl

/-! ## The search for a place -/

/-- For a name that fits, the test reads the entry only. -/
theorem stopsAlloc_congr {e e' : Buf} (hlen : name.length < 64)
    (h : ∀ i, i < 128 → e' i = e i) : stopsAlloc name e' = stopsAlloc name e := by
  have hname : ∀ i, i < name.length → entryName e' i = entryName e i := fun i hi => h _ (by omega)
  rw [stopsAlloc, stopsAlloc, entryInode_congr h, strncmp_congr hname fun _ _ => rfl]

/-- What the search of `allocInode` ends with. -/
theorem scanDir_stopsAlloc (hf : Formatted s) (hcount : father.blocks ≤ maxBlocks)
    (hlen : name.length < 64) (b : Buf) :
    ScanSpec s.disk father (fun t => stopsAlloc name (fileFrom s.disk father (128 * t))) b
      (scanDir s father (stopsAlloc name) b) :=
  scanDir_spec hf hcount (fun _ _ _ hb => stopsAlloc_congr hlen fun _ hi => hb.dirEntry_eq rfl hi) b

/-! ## An empty slot -/

/-- A slot with an entry for the inode `x`. -/
theorem entryAt_setEntry {d : Disk} {t x : ℕ} (hname : ∀ y ∈ name, y ≠ 0) (hlen : name.length < 64)
    (hpos : 0 < x) (hx : x < 256 ^ 4)
    (h : ∀ i, i < 128 → fileFrom d father (128 * t) i
      = dirEntry (setEntryInode (setEntryName b (t % 8) name) (t % 8) x) (t % 8) i) :
    entryAt d father t = some (name, x) := by
  have hinode : slotInode d father t = x := by
    rw [← entryInode_setEntryInode (b := setEntryName b (t % 8) name) (j := t % 8) hx]
    exact entryInode_congr h
  have hslot : slotName d father t = name := by
    rw [← cstr_setEntry (b := b) (j := t % 8) (v := x) hname hlen]
    exact entryString_congr h
  rw [entryAt, hinode, hslot, if_pos (by omega)]

theorem addEntry_hole (hinodes : Consistent .inode s) (havail : s.superBlock.availInodeNum ≠ 0)
    (ho : IsSlot s.superBlock.sectorNum o) (hown : Owned s (· = o) fun _ => father)
    (hname : ∀ y ∈ name, y ≠ 0) (hlen : name.length < 64) {t : ℕ} (ht : t < slots father)
    (hb : Holds s.disk father (t / 8) b) (hfree : slotInode s.disk father t = 0) (dest : Inode)
    (destOffset : ℕ) (type : ℤ) :
    ∃ x s' dest', addEntry s father o dest destOffset name type (t / 8) (t % 8) b
        = ⟨0, s', father, dest', x⟩ ∧ Formatted s'
      ∧ (liveEntries s'.disk father).Perm ((name, x) :: liveEntries s.disk father) := by
  have hf := hinodes.formatted
  obtain ⟨hgroup, x, hget, hslot⟩ := hinodes.getAvailInode_slot havail
  have hk : t / 8 < father.blocks := by
    unfold slots at ht
    omega
  obtain ⟨s₂, hspec, hrun, _, hedit⟩ := addEntry_steps hf hgroup hget hslot ho hown rfl hk type dest
    destOffset name (t % 8) b
  have hslotEdit := hedit.slotEdit hb fun j hj i hi => dirEntry_setEntry_of_ne hj hi
  refine ⟨x, _, _, hrun, hspec.formatted.withDisk _, ?_⟩
  apply filterMap_range_perm ht
  · rw [entryAt, if_neg (not_not.mpr hfree)]
  · exact entryAt_setEntry hname hlen hslot.pos (hslot.lt hf.addressable) hslotEdit.entry
  · intro u hu hne
    exact entryAt_congr (hslotEdit.other o rfl u hu fun _ => hne)

/-! ## The first block of a directory -/

/-- What is left of a directory without blocks: the new entry, and those that the buffer held behind
its place. -/
theorem addEntry_first (hinodes : Consistent .inode s) (havail : s.superBlock.availInodeNum ≠ 0)
    (ho : IsSlot s.superBlock.sectorNum o) (hblocks : father.blocks = 1)
    (hdata : IsData s.superBlock.sectorNum (father.pointer 0))
    (hname : ∀ y ∈ name, y ≠ 0) (hlen : name.length < 64) (dest : Inode) (destOffset : ℕ) (type : ℤ)
    (b : Buf) :
    ∃ x s' dest', addEntry s father o dest destOffset name type 0 0 b = ⟨0, s', father, dest', x⟩
      ∧ Formatted s'
      ∧ liveEntries s'.disk father = (name, x) :: (List.range' 1 7).filterMap fun j =>
          if entryInode (dirEntry b j) ≠ 0 then some (viewEntry (dirEntry b j)) else none := by
  have hf := hinodes.formatted
  obtain ⟨hgroup, x, hget, hslot⟩ := hinodes.getAvailInode_slot havail
  generalize hbuf : setEntryInode (setEntryName b 0 name) 0 x = buf
  have hsector : ∀ d, (dataNode 0).sector d father = father.pointer 0 := fun d => rfl
  have hwrite : writeBlock (taken .inode s) father 0 buf = _ :=
    writeBlock_eq (taken_formatted hf) (by decide : 0 < maxBlocks) buf
  rw [hsector] at hwrite
  -- the two inodes are not written to the block
  generalize hd : patch (taken .inode s).disk (father.pointer 0 * 512) 1024 buf = d at hwrite
  have hchanges := changesOnly_storeBoth d father (newInode dest type) ho hslot
  have hagree := hchanges.agree_block hdata (disjoint_block_slots _ o x _)
  generalize hd' : storeInode (storeInode d father o) (newInode dest type) x = d' at hagree
  have hholds : Holds d' father 0 buf := by
    intro i hi
    rw [fileByte, Nat.mul_zero, Nat.zero_add, Nat.div_eq_of_lt hi, Nat.mod_eq_of_lt hi, hsector,
      hagree _ (by omega) (by omega), ← hd, patch_apply_add hi]
  refine ⟨x, { taken .inode s with disk := d' }, newInode dest type, ?_,
    (taken_formatted hf).withDisk _, ?_⟩
  · rw [addEntry, hget, Option.elim_some]
    simp only [hbuf, hwrite, Option.elim_some, hd']
  · have hfirst : entryAt d' father 0 = some (name, x) := by
      apply entryAt_setEntry (b := b) hname hlen hslot.pos (hslot.lt hf.addressable)
      intro i hi
      rw [hbuf]
      exact (hholds.dirEntry_eq (t := 0) rfl hi).symm
    have hslots : List.range (slots father) = 0 :: List.range' 1 7 := by
      rw [slots, hblocks]
      rfl
    rw [liveEntries, hslots, List.filterMap_cons_some hfirst]
    apply congrArg (List.cons _)
    apply List.filterMap_congr
    intro u hu
    have hu' := List.mem_range'_1.mp hu
    have hsame : ∀ i, i < 128 → dirEntry buf u i = dirEntry b u i := fun i hi => by
      rw [← hbuf]
      exact dirEntry_setEntry_of_ne (by omega) hi
    rw [hholds.entryAt_eq (t := u) (by omega), Nat.mod_eq_of_lt (by omega), viewEntry_congr hsame,
      entryInode_congr hsame]

theorem allocBlock_first (hinodes : Consistent .inode s) (hblocks : Consistent .block s)
    (ho : IsSlot s.superBlock.sectorNum o) (hempty : father.blockCount = 0) {s₁ : FS} {ino : Inode}
    (halloc : allocBlock s father o stack = some (s₁, ino)) :
    Consistent .inode s₁ ∧ s₁.superBlock.sectorNum = s.superBlock.sectorNum
      ∧ s₁.superBlock.availInodeNum = s.superBlock.availInodeNum ∧ ino.blocks = 1
      ∧ IsData s.superBlock.sectorNum (ino.pointer 0) := by
  have hf := hinodes.formatted
  have havail : 1 ≤ s.superBlock.availBlockNum := by
    have h := allocBlock_avail hf (c := 0) hempty (by decide) halloc
    rw [newLevels_zero] at h
    exact h
  have ⟨hgroup, _⟩ := hblocks.backed.searchGroup_lt hf havail
  have hindex := hblocks.backed.searchIndex_lt hf havail
  rw [allocBlock_empty_eq hf hempty havail, hblocks.backed.takeBlock_eq hf havail, finishAlloc,
    Option.some.injEq, Prod.mk.injEq] at halloc
  obtain ⟨rfl, rfl⟩ := halloc
  have hcounters : SameCounters .inode s (taken .block s) := sameCounters_commit (by decide)
  refine ⟨?_, rfl, hcounters.superBlock, ?_, ?_⟩
  · have htaken := changesOnly_taken hf hgroup
    have hstore := changesOnly_slot (taken .block s).disk { father with
      pointer := update father.pointer 0 (dataSector s.superBlock.sectorNum
        (searchGroup .block s) (searchIndex .block s)), blockCount := father.blockCount + 1 } ho
    -- neither the bitmap of the blocks nor the inode is in the bitmap of the inodes
    refine hinodes.transfer ((taken_formatted hf).withDisk _) rfl
      ⟨hcounters.superBlock, hcounters.group⟩
      ((htaken.mono fun q hq => Or.inl hq).trans (hstore.mono fun q hq => Or.inr hq) :
        ChangesOnly _ _ _ {q | q ∈ poolRegions .block ∨ q ∈ slotRegion s.superBlock.sectorNum o})
      fun i hi => ?_
    rcases hi with hi | hi
    · exact region_notMem_pool (p := .inode) (by decide) i hi
    · exact region_notMem_slot .inode _ i _ hi
  · show (father.blockCount + 1).toNat = 1
    rw [hempty]
    rfl
  · show IsData _ (update father.pointer 0 _ 0)
    rw [update_self]
    exact ⟨_, _, hgroup, hindex, rfl⟩

/-! ## A full directory -/

/-- A file that has all its blocks cannot be written behind them. -/
theorem addEntry_ret_ne (hf : Formatted s) {i : ℕ} (hi : maxBlocks ≤ i) (j : ℕ) :
    (addEntry s father o dest destOffset name type i j b).ret ≠ 0 := by
  rw [addEntry]
  cases hget : getAvailInode s with
  | none => exact show (-1 : ℤ) ≠ 0 by decide
  | some q =>
    have hf' : Formatted q.1 := by
      obtain ⟨s', hs', heq⟩ := Option.map_eq_some_iff.mp hget
      rw [← heq, ← getAvail_eq_some hs']
      exact taken_formatted hf
    have hsector : ∀ buf, writeBlock q.1 father i buf = none := fun buf => by
      rw [writeBlock, blockSector_eq_none hf' hi, Option.map_none]
    simp only [Option.elim_some, hsector, Option.elim_none]
    exact show (-1 : ℤ) ≠ 0 by decide

/-- The slots of a full directory that gets another block are all live but perhaps that of the new
entry. -/
theorem addEntry_full (hinodes : Consistent .inode s) (havail : s.superBlock.availInodeNum ≠ 0)
    (ho : IsSlot s.superBlock.sectorNum o) (hown : Owned s (· = o) fun _ => father)
    (hpos : 0 < father.blocks) (hmax : father.blocks < maxBlocks)
    (hget : GetsFreeFor s (newLevels father.blocks + 1))
    (hblocks : (newLevels father.blocks : ℤ) + 1 ≤ s.superBlock.availBlockNum)
    (hfull : ∀ t, t < slots father → slotInode s.disk father t ≠ 0)
    (hb : Holds s.disk father (father.blocks - 1) b) (dest : Inode) (destOffset : ℕ)
    (name : List UInt8) (type : ℤ) (stack : ℕ → Buf) :
    ∃ s₁ ino, allocBlock s father o stack = some (s₁, ino) ∧ ∀ v : ℤ, ∃ x s' dest',
      addEntry s₁ { ino with size := v } o dest destOffset name type father.blocks 0 b
        = ⟨0, s', { ino with size := v }, dest', x⟩
      ∧ Formatted s' ∧ ino.blocks = father.blocks + 1
      ∧ slots father + 7 ≤ (liveEntries s'.disk { ino with size := v }).length := by
  have hf := hinodes.formatted
  have hcount : father.blockCount = (father.blocks : ℕ) := by
    have := (hown.count o rfl).1
    rw [Inode.blocks]
    omega
  obtain ⟨s₁, ino, halloc, hspec⟩ := hown.alloc hf rfl hcount hmax hget ho hblocks stack
  have hgrown : ino.blocks = father.blocks + 1 := (hspec.evolved hown rfl).2
  refine ⟨s₁, ino, halloc, fun v => ?_⟩
  have hfather : update (fun _ => father) o { ino with size := v } o
      = { ino with size := v } := update_self ..
  have hcons₁ := hspec.inodes hinodes
  have havail₁ : s₁.superBlock.availInodeNum ≠ 0 := by
    intro h
    exact havail (hspec.alloc.inodeCounters.superBlock.symm.trans h)
  obtain ⟨hgroup, x, hgetInode, hslot⟩ := hcons₁.getAvailInode_slot havail₁
  have hk : father.blocks < (update (fun _ => father) o { ino with size := v } o).blocks := by
    rw [hfather]
    show father.blocks < ino.blocks
    omega
  obtain ⟨s₂, hwrite, hrun, _, hedit⟩ := addEntry_steps hcons₁.formatted hgroup hgetInode hslot
    (by rwa [hspec.sectorNum]) (hspec.owned_withSize v) rfl hk type dest destOffset name 0 b
  rw [hfather] at hrun hedit
  refine ⟨x, _, _, hrun, hwrite.formatted.withDisk _, hgrown, ?_⟩
  generalize hs' : storeBoth s₂ _ o (newInode dest type) x = s' at hedit
  have hslots : slots { ino with size := v } = 8 * father.blocks + 8 := by
    show 8 * ino.blocks = 8 * father.blocks + 8
    omega
  have hslots' : slots father = 8 * father.blocks := rfl
  -- the slots of the old blocks are as they were
  have hold : ∀ u, u < slots father → slotInode s'.disk { ino with size := v } u ≠ 0 := by
    intro u hu
    rw [slotInode_congr fun i hi => ?_]
    · exact hfull u hu
    · have hother := hedit.other o rfl (128 * u + i)
      rw [hfather] at hother
      rw [fileFrom, fileFrom, hother ?_ fun _ => by omega]
      · exact hspec.fileByte_withSize hown rfl v (show _ < father.blocks * 1024 by omega)
      · show _ < ino.blocks * 1024
        omega
  -- those of the new one hold what the last block held
  have hnew : ∀ j, 1 ≤ j → j < 8 →
      slotInode s'.disk { ino with size := v } (8 * father.blocks + j) ≠ 0 := by
    intro j hj hj'
    have hblock := hedit.block
    rw [hfather] at hblock
    have hentry := hblock.entryInode_eq (t := 8 * father.blocks + j) (by omega)
    have hlast := hb.entryInode_eq (t := 8 * (father.blocks - 1) + j) (by omega)
    rw [show (8 * father.blocks + j) % 8 = j by omega,
      entryInode_congr fun i hi => dirEntry_setEntry_of_ne (by omega) hi] at hentry
    rw [show (8 * (father.blocks - 1) + j) % 8 = j by omega] at hlast
    rw [← hentry, hlast]
    exact hfull _ (by omega)
  have hlen := le_length_filterMap_range (f := entryAt s'.disk { ino with size := v })
    (n := slots { ino with size := v }) (t := slots father) (by omega) fun u hu hne => by
      apply entryAt_isSome
      by_cases hlt : u < slots father
      · exact hold u hlt
      · have := hnew (u - slots father) (by omega) (by omega)
        rwa [show 8 * father.blocks + (u - slots father) = u by omega] at this
  rw [liveEntries]
  omega

/-! ## The calls that create a file -/

/-- How `allocInode` came to return 0: it found an empty slot, or it found none and added a block. -/
inductive AllocPlace (s : FS) (father : Inode) (o : ℕ) (dest : Inode) (destOffset : ℕ)
    (name : List UInt8) (type : ℤ) (buffer : Buf) (stack : ℕ → Buf) : Prop
  | hole (t : ℕ) (b : Buf) (ht : t < slots father) (hfree : slotInode s.disk father t = 0)
      (hb : Holds s.disk father (t / 8) b)
      (heq : allocInode s father o dest destOffset name type buffer stack
        = addEntry s father o dest destOffset name type (t / 8) (t % 8) b)
  | grown (b : Buf) (s₁ : FS) (ino : Inode)
      (hfull : ∀ t, t < slots father → slotInode s.disk father t ≠ 0)
      (hlast : 0 < father.blocks → Holds s.disk father (father.blocks - 1) b)
      (hempty : father.blocks = 0 → b = buffer)
      (halloc : allocBlock s father o stack = some (s₁, ino))
      (heq : allocInode s father o dest destOffset name type buffer stack
        = addEntry s₁ { ino with size := ino.blockCount * s₁.superBlock.blockSize } o dest destOffset
            name type father.blocks 0 b)

theorem allocInode_place (hf : Formatted s) (hcount : father.blocks ≤ maxBlocks)
    (hlen : name.length < 64)
    (hret : (allocInode s father o dest destOffset name type b stack).ret = 0) :
    s.superBlock.availInodeNum ≠ 0
      ∧ AllocPlace s father o dest destOffset name type b stack := by
  have halloc := allocInode.eq_def s father o dest destOffset name type b stack
  by_cases hempty : name = []
  · rw [halloc, if_pos hempty] at hret
    cases hret
  by_cases havail : s.superBlock.availInodeNum = 0
  · rw [halloc, if_neg hempty, if_pos havail] at hret
    cases hret
  rw [if_neg hempty, if_neg havail] at halloc
  refine ⟨havail, ?_⟩
  have hscan := scanDir_stopsAlloc hf hcount hlen b
  generalize scanDir s father (stopsAlloc name) b = scan at halloc hscan
  cases hscan with
  | found t b' ht hgood _ hb =>
    simp only at halloc
    by_cases hlive : entryInode (dirEntry b' (t % 8)) ≠ 0
    · rw [halloc, if_pos hlive] at hret
      cases hret
    rw [if_neg hlive] at halloc
    rw [not_not, hb.entryInode_eq rfl] at hlive
    exact .hole t b' ht hlive hb halloc
  | missing b' hnone hlast hfirst =>
    simp only [memset_zero] at halloc
    -- the search would have stopped at a free slot
    have hfull : ∀ t, t < slots father → slotInode s.disk father t ≠ 0 := by
      intro t ht hzero
      have hstop := hnone t ht
      rw [stopsAlloc, show entryInode (fileFrom s.disk father (128 * t)) = 0 from hzero] at hstop
      cases hstop
    cases hq : allocBlock s father o stack with
    | none =>
      rw [halloc, hq] at hret
      cases hret
    | some q =>
      rw [hq] at halloc
      exact .grown b' q.1 q.2 hfull hlast hfirst hq halloc

/-- There is room for the new entry: a slot of the directory is empty, or the directory has no block
and the array for the block holds no entries behind the first. -/
def HasRoom (d : Disk) (father : Inode) (buffer : Buf) : Prop :=
  (∃ t, t < slots father ∧ slotInode d father t = 0)
    ∨ (father.blocks = 0 ∧ ∀ j, 1 ≤ j → j < 8 → entryInode (dirEntry buffer j) = 0)

/-- The call adds one entry to those that `getDirEntry` enumerates. -/
def AddsOne (s : FS) (father : Inode) (o : ℕ) (dest : Inode) (destOffset : ℕ) (name : List UInt8)
    (type : ℤ) (buffer : Buf) (stack : ℕ → Buf) : Prop :=
  let r := allocInode s father o dest destOffset name type buffer stack
  ∀ tmpName tmpBuffer, (dirList r.fs r.fatherInode tmpName tmpBuffer).Perm
    ((name, r.destInodeOffset) :: dirList s father tmpName tmpBuffer)

section addsOne
variable (hf : Formatted s) (hcount : father.blocks ≤ maxBlocks) {s' : FS} {father' dest' : Inode}
  {x : ℕ} (hrun : allocInode s father o dest destOffset name type b stack = ⟨0, s', father', dest', x⟩)
  (hf' : Formatted s') (hcount' : father'.blocks ≤ maxBlocks)
include hf hcount hrun hf' hcount'

theorem addsOne_iff : AddsOne s father o dest destOffset name type b stack
    ↔ (liveEntries s'.disk father').Perm ((name, x) :: liveEntries s.disk father) := by
  unfold AddsOne
  simp only [hrun, dirList_eq hf hcount, dirList_eq hf' hcount']
  exact ⟨fun h => h b b, fun h _ _ => h⟩

end addsOne

/-- In a directory without blocks the entries in the buffer decide. -/
theorem addsOne_first (hinodes : Consistent .inode s) (hblocks : Consistent .block s)
    (havail : s.superBlock.availInodeNum ≠ 0) (ho : IsSlot s.superBlock.sectorNum o)
    (hzero : father.blockCount = 0) (hname : ∀ y ∈ name, y ≠ 0) (hlen : name.length < 64)
    {s₁ : FS} {ino : Inode} (halloc : allocBlock s father o stack = some (s₁, ino)) {v : ℤ}
    (heq : allocInode s father o dest destOffset name type b stack
      = addEntry s₁ { ino with size := v } o dest destOffset name type 0 0 b) :
    AddsOne s father o dest destOffset name type b stack
      ↔ ∀ j, 1 ≤ j → j < 8 → entryInode (dirEntry b j) = 0 := by
  have hf := hinodes.formatted
  have hblocks₀ : father.blocks = 0 := by
    rw [Inode.blocks, hzero]
    rfl
  obtain ⟨hcons₁, hS₁, havail₁, hone, hdata⟩ := allocBlock_first hinodes hblocks ho hzero halloc
  rw [← hS₁] at ho hdata
  obtain ⟨x, s', dest', hrun, hf', hlist⟩ := addEntry_first hcons₁ (by rwa [havail₁]) ho
    (show ({ ino with size := v } : Inode).blocks = 1 from hone) hdata hname hlen dest destOffset type b
  have hone' : ({ ino with size := v } : Inode).blocks ≤ maxBlocks := by
    show ino.blocks ≤ maxBlocks
    rw [hone]
    decide
  -- no entries before, so the new one has to be the only one
  have hbefore : liveEntries s.disk father = [] := by
    rw [liveEntries, slots, hblocks₀]
    rfl
  rw [addsOne_iff hf (by rw [hblocks₀]; exact Nat.zero_le _) (heq.trans hrun) hf' hone', hlist,
    hbefore, List.perm_cons, List.perm_nil, List.filterMap_eq_nil_iff]
  constructor
  · intro hall j hj hj'
    by_contra hlive
    have := hall j (List.mem_range'_1.mpr ⟨hj, by omega⟩)
    rw [if_pos hlive] at this
    cases this
  · intro hall j hj
    have hj' := List.mem_range'_1.mp hj
    rw [if_neg (not_not.mpr (hall j hj'.1 (by omega)))]

/-- A full directory gets more than one entry. -/
theorem not_addsOne_full (hinodes : Consistent .inode s) (havail : s.superBlock.availInodeNum ≠ 0)
    (ho : IsSlot s.superBlock.sectorNum o) (hown : Owned s (· = o) fun _ => father)
    (hpos : 0 < father.blocks) (hmax : father.blocks < maxBlocks)
    (hget : GetsFreeFor s (newLevels father.blocks + 1))
    (hfull : ∀ t, t < slots father → slotInode s.disk father t ≠ 0) {b' : Buf}
    (hb : Holds s.disk father (father.blocks - 1) b') {s₁ : FS} {ino : Inode}
    (halloc : allocBlock s father o stack = some (s₁, ino)) {v : ℤ}
    (heq : allocInode s father o dest destOffset name type b stack
      = addEntry s₁ { ino with size := v } o dest destOffset name type father.blocks 0 b') :
    ¬ AddsOne s father o dest destOffset name type b stack := by
  have hf := hinodes.formatted
  have hcount : father.blockCount = (father.blocks : ℕ) := by
    have := (hown.count o rfl).1
    rw [Inode.blocks]
    omega
  obtain ⟨s₂, ino₂, halloc₂, hadd⟩ := addEntry_full hinodes havail ho hown hpos hmax hget
    (allocBlock_avail hf hcount hmax halloc) hfull hb dest destOffset name type stack
  obtain ⟨rfl, rfl⟩ : s₁ = s₂ ∧ ino = ino₂ := by
    rw [halloc, Option.some.injEq, Prod.mk.injEq] at halloc₂
    exact halloc₂
  obtain ⟨x, s', dest', hrun, hf', hgrown, hlen⟩ := hadd v
  rw [addsOne_iff hf hmax.le (heq.trans hrun) hf' (by show ino.blocks ≤ _; omega)]
  intro hperm
  have hlength := hperm.length_eq
  have hle := length_liveEntries_le s.disk father
  rw [List.length_cons] at hlength
  omega

/-- **One entry more.** A call of `allocInode` that returns 0 adds exactly one entry when there is
room for it, and, in a file system whose free blocks are found, only then. -/
theorem allocInode_addsOne_iff {s : FS} (hinodes : Consistent .inode s) (hblocks : Consistent .block s)
    {father : Inode} (hown : BlocksOk s father) {o : ℕ} (ho : IsSlot s.superBlock.sectorNum o)
    {name : List UInt8} (hname : ∀ y ∈ name, y ≠ 0) (hlen : name.length < 64) (dest : Inode)
    (destOffset : ℕ) (type : ℤ) (b : Buf) (stack : ℕ → Buf)
    (hret : (allocInode s father o dest destOffset name type b stack).ret = 0) :
    (HasRoom s.disk father b → AddsOne s father o dest destOffset name type b stack)
      ∧ ((0 < father.blocks → GetsFreeFor s (newLevels father.blocks + 1)) →
          AddsOne s father o dest destOffset name type b stack → HasRoom s.disk father b) := by
  have hf := hinodes.formatted
  have hcount := blocks_le_maxBlocks hf hown.le
  obtain ⟨havail, hplace⟩ := allocInode_place hf hcount hlen hret
  cases hplace with
  | hole t b' ht hfree hb heq =>
    obtain ⟨x, s', dest', hrun, hf', hperm⟩ := addEntry_hole hinodes havail ho
      (hown.owned_at hf o) hname hlen ht hb hfree dest destOffset type
    have hadds := (addsOne_iff hf hcount (heq.trans hrun) hf' hcount).mpr hperm
    exact ⟨fun _ => hadds, fun _ _ => Or.inl ⟨t, ht, hfree⟩⟩
  | grown b' s₁ ino hfull hlast hempty halloc heq =>
    have hno : ¬ ∃ t, t < slots father ∧ slotInode s.disk father t = 0 := by
      intro ⟨t, ht, hzero⟩
      exact hfull t ht hzero
    rw [HasRoom, or_iff_right hno]
    rcases Nat.eq_zero_or_pos father.blocks with hzero | hpos
    · have hcount₀ : father.blockCount = 0 := by
        have := hown.nonneg
        rw [Inode.blocks] at hzero
        omega
      rw [hempty hzero, hzero] at heq
      rw [addsOne_first hinodes hblocks havail ho hcount₀ hname hlen halloc heq]
      exact ⟨fun h => h.2, fun _ h => ⟨hzero, h⟩⟩
    · -- a directory with all the blocks a file can have would not have got an entry
      have hmax : father.blocks < maxBlocks := by
        by_contra hge
        have hcount' : father.blockCount = s.superBlock.bound3 := by
          have hle := hown.le
          rw [hf.bound3] at hle ⊢
          rw [Inode.blocks] at hge
          omega
        rw [allocBlock_full hblocks hcount', Option.some.injEq, Prod.mk.injEq] at halloc
        rw [heq, ← halloc.1] at hret
        exact addEntry_ret_ne (takeBlock_formatted hf).1 (not_lt.mp hge) 0 hret
      refine ⟨fun h => absurd h.1 (by omega), fun hget hadds => absurd hadds ?_⟩
      exact not_addsOne_full hinodes havail ho (hown.owned_at hf o) hpos hmax (hget hpos) hfull
        (hlast hpos) halloc heq

/-- The root directory of `dirFS` as an argument of `allocInode`. -/
theorem dirFS_root_ok {k : ℕ} (hk : k ≤ 8) :
    BlocksOk (dirFS k) (loadInode (dirFS k).disk (dirFS k).rootOffset)
      ∧ IsSlot (dirFS k).superBlock.sectorNum (dirFS k).rootOffset := by
  have hok := dirFS_ok hk
  exact ⟨hok.owned.blocksOk hok.inodes.formatted hok.tree.root_used, hok.tree.root_used.isSlot⟩

/-- With one file in the root directory, the file `b` is added to it. -/
theorem allocInode_addsOne_iff_b :
    let s := dirFS 1
    let father := loadInode s.disk s.rootOffset
    (allocInode s father s.rootOffset Files.emptyFile 0 [98] regularType (fun _ => 0)
        fun _ _ => 0).ret = 0
      ∧ AddsOne s father s.rootOffset Files.emptyFile 0 [98] regularType (fun _ => 0)
          fun _ _ => 0 := by
  intro s father
  have hok : FsOk s := dirFS_ok (by norm_num)
  have ⟨hown, ho⟩ := dirFS_root_ok (by norm_num : 1 ≤ 8)
  have hfree := dirFS_freeSlot (by norm_num : 1 < 8)
  have hfirst := dirFS_firstBegins (c := [98]) (by norm_num : 1 ≤ 8) (by decide)
  rw [← dirFS_rootOffset 1] at hfree hfirst
  obtain ⟨x, s', father', dest', hrun, _⟩ := allocInode_created hok hok.tree.root_used hok.root_isDir
    (⟨by decide, by decide, no_zero_of_all rfl⟩ : IsName [98]) (by decide) hfirst hfree
    (hok.inodes.hits_of_nearHole (dirFS_nearHole (by norm_num))) (Or.inl rfl) Files.emptyFile 0
    (fun _ => 0) (fun _ _ => 0)
  have hret := congrArg DirResult.ret hrun
  exact ⟨hret, (allocInode_addsOne_iff hok.inodes (dirFS_blocks 1) hown ho (no_zero_of_all rfl) (by decide)
    Files.emptyFile 0 regularType (fun _ => 0) (fun _ _ => 0) hret).1 (Or.inl hfree)⟩

/-- With eight files in the root directory, creating the file `i` adds seven entries more. -/
theorem ninth_file_adds_eight :
    let s := dirFS 8
    let father := loadInode s.disk s.rootOffset
    (allocInode s father s.rootOffset Files.emptyFile 0 [105] regularType (fun _ => 0)
        fun _ _ => 0).ret = 0
      ∧ ¬ AddsOne s father s.rootOffset Files.emptyFile 0 [105] regularType (fun _ => 0)
          fun _ _ => 0 := by
  intro s father
  have hok : FsOk s := dirFS_ok le_rfl
  have ⟨hown, ho⟩ := dirFS_root_ok (le_refl 8)
  have hf := hok.inodes.formatted
  have hblocks : father.blocks = 1 := dirFS_rootBlocks 8
  have hfirst := dirFS_firstBegins (c := [105]) (le_refl 8) (by decide)
  rw [← dirFS_rootOffset 8] at hfirst
  have hget : GetsFreeFor s (newLevels father.blocks + 1) := by
    rw [hblocks]
    exact dirFS_getsFree 8
  obtain ⟨x, s', father', dest', hrun, _⟩ := allocInode_full hok hok.tree.root_used hok.root_isDir
    dirFS_full (by rw [hblocks]; norm_num) hget (by rw [hblocks]; decide) (dirFS_nearHole le_rfl)
    (⟨by decide, by decide, no_zero_of_all rfl⟩ : IsName [105]) hfirst regularType
    (by norm_num [FitsInt]) Files.emptyFile 0 (fun _ => 0) (fun _ _ => 0)
  have hret := congrArg DirResult.ret hrun
  refine ⟨hret, ?_⟩
  obtain ⟨havail, hplace⟩ := allocInode_place hf (by rw [hblocks]; decide) (by decide) hret
  cases hplace with
  | hole t b' ht hfree => exact absurd hfree (dirFS_full t ht)
  | grown b' s₁ ino hfull hlast hempty halloc heq =>
    exact not_addsOne_full hok.inodes havail ho (hown.owned_at hf _) (by rw [hblocks]; norm_num)
      (by rw [hblocks]; decide) hget hfull (hlast (by rw [hblocks]; norm_num)) halloc heq

end SeL4Sys

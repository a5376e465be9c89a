import SeL4Sys.AllocRuns
import SeL4Sys.GroupLayout
import Mathlib.Logic.Relation

/-!
# Mounting

`readGroupHeader` takes the super block and the descriptors from the first copy of the header.
Every allocator function ends in a `commit`, which writes that copy, so what is read is what the
functions work with. `Mountable` is what a run keeps for that: the copy on the disk, and counters
that never send a search outside the groups, where it would write a bitmap over the header.
-/

namespace SeL4Sys

open Bytes Bitmap

/-- `readGroupHeader`: the return value, and the super block and the descriptors after the call. -/
def readGroupHeader (d : Disk) (groupDesc : ℕ → GroupDesc) :
    ℤ × SuperBlock × (ℕ → GroupDesc) :=
  let superBlock := SuperBlock.decode (readDisk d (fun _ => 0) superBlockSize 1 0)
  let groupNum := calGroupNum superBlock.sectorNum (superBlock.blockSize / sectorSize)
  if groupNum = 0 then (-1, superBlock, groupDesc)
  else
    let table := readDisk d (encodeDescs groupDesc) groupDescSize groupNum superBlockSize
    (0, superBlock, fun i =>
      if i < groupNum then GroupDesc.decode (window table (groupDescSize * i)) else groupDesc i)

/-- The first copy of the header on the disk is the header in memory. -/
structure HeaderOnDisk (s : FS) : Prop where
  super : ∀ p, p < superBlockSize → s.disk p = s.superBlock.encode p
  descs : ∀ p, p < groupDescSize * groups s.superBlock.sectorNum →
    s.disk (superBlockSize + p) = encodeDescs s.groupDesc p

/-- A mount gives back the header in memory: `readGroupHeader` returns 0, and the bytes of the
super block and of every descriptor are the same. -/
def MountsBack (s : FS) : Prop :=
  ∀ groupDesc, (readGroupHeader s.disk groupDesc).1 = 0
    ∧ (∀ p, p < superBlockSize →
        (readGroupHeader s.disk groupDesc).2.1.encode p = s.superBlock.encode p)
    ∧ ∀ i, i < groups s.superBlock.sectorNum → ∀ p, p < groupDescSize →
        ((readGroupHeader s.disk groupDesc).2.2 i).encode p = (s.groupDesc i).encode p

section
variable {p : Pool} {s : FS}

theorem HeaderOnDisk.mountsBack (h : HeaderOnDisk s) (hf : Formatted s) : MountsBack s := by
  intro groupDesc
  have hsuper : ∀ p, p < superBlockSize →
      readDisk s.disk (fun _ => 0) superBlockSize 1 0 p = s.superBlock.encode p := by
    intro p hp
    rw [readDisk_eq, patch_zero_apply (by simpa using hp), window_zero]
    exact h.super p hp
  have hsector := SuperBlock.sectorNum_decode hsuper (by have := hf.addressable; omega)
  have hblock := SuperBlock.blockSize_decode hsuper (by rw [hf.blockSize]; norm_num)
  have hnum : calGroupNum s.superBlock.sectorNum (s.superBlock.blockSize / sectorSize)
      = groups s.superBlock.sectorNum := hf.groupNum_eq
  have hpos := hf.groups_pos
  -- the table has as many descriptors as the super block that was just read says
  have hread : readGroupHeader s.disk groupDesc
      = (0, SuperBlock.decode (readDisk s.disk (fun _ => 0) superBlockSize 1 0), fun i =>
          if i < groups s.superBlock.sectorNum then
            GroupDesc.decode (window (readDisk s.disk (encodeDescs groupDesc) groupDescSize
              (groups s.superBlock.sectorNum) superBlockSize) (groupDescSize * i))
          else groupDesc i) := by
    rw [readGroupHeader]
    simp only [hsector, hblock, hnum]
    rw [if_neg (by omega)]
  rw [hread]
  refine ⟨rfl, ?_, ?_⟩
  · intro p hp
    rw [SuperBlock.encode_decode _ hp, hsuper p hp]
  · intro i hi p hp
    simp only [groupDescSize] at hp
    have hin : 32 * i + p < 32 * groups s.superBlock.sectorNum := by omega
    have hdesc := h.descs (32 * i + p) hin
    simp only [if_pos hi]
    rw [GroupDesc.encode_decode _ hp, window_apply, readDisk_eq,
      patch_zero_apply (by simpa using hin), window_apply]
    rw [groupDescSize, hdesc, encodeDescs, show (32 * i + p) / 32 = i by omega,
      show (32 * i + p) % 32 = p by omega]

/-! ## The allocator writes the header back -/

section commit
variable {i : ℕ} {delta : ℤ} {bitmapOffset : ℕ} {bitmap : Buf}

/-- A commit to the bitmap of a group ends with the header in memory on the disk, whatever was
there before. -/
theorem commit_header (hf : Formatted s) (hi : i < groups s.superBlock.sectorNum)
    (hoff : bitmapOffset * 512 = (p.region i).off s.superBlock.sectorNum) :
    HeaderOnDisk (commit p s i delta bitmapOffset bitmap) := by
  have hv := Pool.region_valid p hi
  have hvs : Region.super.Valid s.superBlock.sectorNum := trivial
  have hvd : Region.descs.Valid s.superBlock.sectorNum := trivial
  have hsuper := Region.disjoint hv hvs (Pool.region_ne_super p i)
  have hdescs := Region.disjoint hv hvd (Pool.region_ne_descs p i)
  have hdisk := commit_disk hf p i delta bitmapOffset bitmap
  rw [Pool.region_len] at hsuper hdescs
  simp only [Region.off_super, Region.off_descs, Region.len, hoff] at hsuper hdescs hdisk
  constructor
  · intro q hq
    simp only [superBlockSize] at hq
    rw [hdisk, patch_apply_out (by omega), patch_apply_out (by omega), patch_zero_apply hq]
  · intro q hq
    simp only [commit_sectorNum, groupDescSize] at hq
    rw [hdisk, patch_apply_out (by simp only [superBlockSize]; omega), patch_apply_add hq]

/-- The counters stay within the clear bits when the commit keeps those of its group there. -/
theorem Backed.commit (h : Backed p s) (hf : Formatted s) (hi : i < groups s.superBlock.sectorNum)
    (hoff : bitmapOffset * 512 = (p.region i).off s.superBlock.sectorNum)
    (hnonneg : 0 ≤ (s.groupDesc i).avail p + delta)
    (hle : (s.groupDesc i).avail p + delta
      ≤ clearCount bitmap (p.limit s.superBlock.sectorNum i)) :
    Backed p (commit p s i delta bitmapOffset bitmap) where
  total := by
    rw [commit_sectorNum]
    exact commit_total h.total hi
  nonneg := fun l hl => by
    rw [commit_sectorNum] at hl
    rw [commit_avail]
    by_cases hli : l = i
    · rw [if_pos hli, hli]
      exact hnonneg
    · rw [if_neg hli, add_zero]
      exact h.nonneg l hl
  le := fun l hl => by
    rw [commit_sectorNum] at hl ⊢
    rw [commit_avail]
    have hlim := Pool.limit_le p s.superBlock.sectorNum l
    by_cases hli : l = i
    · subst hli
      rw [if_pos rfl]
      refine hle.trans (le_of_eq (congrArg _ (clearCount_congr fun n hn => ?_).symm))
      exact commit_poolBit hf hoff (by omega)
    · rw [if_neg hli, add_zero]
      refine (h.le l hl).trans (le_of_eq (congrArg _ (clearCount_congr fun n hn => ?_).symm))
      exact commit_poolBit_of_ne hf hi hoff hl (by omega) (Or.inr hli)

end commit

/-- The counters of a pool depend on its bitmaps only. -/
theorem Backed.congr {s' : FS} (h : Backed p s)
    (hS : s'.superBlock.sectorNum = s.superBlock.sectorNum) (hcount : SameCounters p s s')
    (hbits : ∀ l n, l < groups s.superBlock.sectorNum → n < 8192 →
      poolBit p s.superBlock.sectorNum s'.disk l n = poolBit p s.superBlock.sectorNum s.disk l n) :
    Backed p s' where
  total := by
    rw [hcount.superBlock, hS, h.total]
    exact Finset.sum_congr rfl fun l _ => (hcount.group l).symm
  nonneg := fun l hl => by
    rw [hcount.group]
    exact h.nonneg l (hS ▸ hl)
  le := fun l hl => by
    rw [hS] at hl ⊢
    rw [hcount.group]
    have hlim := Pool.limit_le p s.superBlock.sectorNum l
    exact (h.le l hl).trans (le_of_eq (congrArg _ (clearCount_congr fun n hn =>
      hbits l n hl (by omega)).symm))

theorem Backed.taken (h : Backed p s) (hf : Formatted s) (hpos : 1 ≤ s.superBlock.avail p) :
    Backed p (taken p s) := by
  have ⟨hg, hav⟩ := h.searchGroup_lt hf hpos
  have hle := h.le _ hg
  refine h.commit hf hg (searchBitmapOffset_eq hf hg) (by omega) ?_
  by_cases hbit : searchBit p s < 8
  · have hh : Hits p s := ⟨by omega, hg, hbit, h.searchIndex_lt hf hpos⟩
    have := clearCount_take hf hh
    omega
  · -- no bit is set, and the group promises one entry less
    have hlim := Pool.limit_le p s.superBlock.sectorNum (searchGroup p s)
    have hsame : clearCount (orBit (searchBitmap p s) (searchByte p s) (searchBit p s))
        (p.limit s.superBlock.sectorNum (searchGroup p s))
        = clearCount (window s.disk ((p.region (searchGroup p s)).off s.superBlock.sectorNum))
          (p.limit s.superBlock.sectorNum (searchGroup p s)) := by
      rw [orBit_of_le (by omega)]
      exact clearCount_congr fun n hn => bit_searchBitmap hf hg (by omega)
    omega

theorem Backed.released (h : Backed p s) (hf : Formatted s) {i n : ℕ}
    (hi : i < groups s.superBlock.sectorNum) (hn : n < p.limit s.superBlock.sectorNum i)
    (hset : poolBit p s.superBlock.sectorNum s.disk i n = true) :
    Backed p (released p s i n) := by
  have hcount := clearCount_release hf hi hn hset
  have hle := h.le i hi
  have hnonneg := h.nonneg i hi
  exact h.commit hf hi (hf.bitmap_eq hi) (by omega) (by omega)

/-- A commit to one pool leaves the counters of the other within its clear bits. -/
theorem Backed.commit_of_ne {q : Pool} (h : Backed q s) (hq : q ≠ p) (hf : Formatted s) {i : ℕ}
    {delta : ℤ} {bitmapOffset : ℕ} {bitmap : Buf} (hi : i < groups s.superBlock.sectorNum)
    (hoff : bitmapOffset * 512 = (p.region i).off s.superBlock.sectorNum) :
    Backed q (SeL4Sys.commit p s i delta bitmapOffset bitmap) :=
  h.congr commit_sectorNum (sameCounters_commit hq) fun _ _ hl hn =>
    commit_poolBit_of_ne hf hi hoff hl hn (Or.inl hq)

/-! ## What the calls of a run do -/

/-- The file system of a run: the layout, the header on the disk, and counters that no search can
outrun. -/
structure Mountable (s : FS) : Prop where
  formatted : Formatted s
  header : HeaderOnDisk s
  backed : ∀ p, Backed p s

theorem Mountable.taken (h : Mountable s) (hpos : 1 ≤ s.superBlock.avail p) :
    Mountable (taken p s) := by
  have ⟨hg, _⟩ := (h.backed p).searchGroup_lt h.formatted hpos
  have hoff := searchBitmapOffset_eq h.formatted hg
  refine ⟨taken_formatted h.formatted, commit_header h.formatted hg hoff, ?_⟩
  intro q
  by_cases hq : q = p
  · rw [hq]
    exact (h.backed p).taken h.formatted hpos
  · exact (h.backed q).commit_of_ne hq h.formatted hg hoff

theorem Mountable.released (h : Mountable s) {i n : ℕ}
    (hi : i < groups s.superBlock.sectorNum) (hn : n < p.limit s.superBlock.sectorNum i)
    (hset : poolBit p s.superBlock.sectorNum s.disk i n = true) : Mountable (released p s i n) := by
  have hoff := h.formatted.bitmap_eq (p := p) hi
  refine ⟨released_formatted h.formatted, commit_header h.formatted hi hoff, ?_⟩
  intro q
  by_cases hq : q = p
  · rw [hq]
    exact (h.backed p).released h.formatted hi hn hset
  · exact (h.backed q).commit_of_ne hq h.formatted hi hoff

/-- A search that is made at all ends within the disk, also when it sets no bit. -/
theorem Mountable.search_lt (h : Mountable s) (hav : s.superBlock.avail p ≠ 0) :
    Mountable (SeL4Sys.taken p s) ∧ searchGroup p s < groups s.superBlock.sectorNum
      ∧ searchIndex p s < p.limit s.superBlock.sectorNum (searchGroup p s) := by
  have hnonneg := (h.backed p).avail_nonneg
  have hpos : 1 ≤ s.superBlock.avail p := by omega
  exact ⟨h.taken hpos, ((h.backed p).searchGroup_lt h.formatted hpos).1,
    (h.backed p).searchIndex_lt h.formatted hpos⟩

/-- A call that succeeds hands out a data block. -/
theorem Mountable.getAvailBlock (h : Mountable s) {s' : FS} {blockOffset b : ℕ}
    (hget : getAvailBlock s blockOffset = some (s', b)) :
    Mountable s' ∧ s'.superBlock.sectorNum = s.superBlock.sectorNum
      ∧ IsData s.superBlock.sectorNum b := by
  have hav : s.superBlock.avail .block ≠ 0 := by
    intro hzero
    rw [SeL4Sys.getAvailBlock, getAvail, if_pos hzero] at hget
    cases hget
  obtain ⟨htaken, hg, hn⟩ := h.search_lt hav
  rw [getAvailBlock_of_group h.formatted hav hg] at hget
  cases hget
  exact ⟨htaken, taken_sectorNum, _, _, hg, hn, rfl⟩

/-- The same for the inodes. -/
theorem Mountable.getAvailInode (h : Mountable s) {s' : FS} {o : ℕ}
    (hget : getAvailInode s = some (s', o)) :
    Mountable s' ∧ s'.superBlock.sectorNum = s.superBlock.sectorNum
      ∧ IsSlot s.superBlock.sectorNum o := by
  have hav : s.superBlock.avail .inode ≠ 0 := by
    intro hzero
    rw [SeL4Sys.getAvailInode, getAvail, if_pos hzero] at hget
    cases hget
  obtain ⟨htaken, hg, hn⟩ := h.search_lt hav
  rw [getAvailInode_of_group h.formatted hav hg] at hget
  cases hget
  exact ⟨htaken, taken_sectorNum, _, _, hg, hn, rfl⟩

/-- A release that succeeds found its bit set. -/
theorem Mountable.setAlloc (h : Mountable s) {s' : FS} {i n : ℕ}
    (hi : i < groups s.superBlock.sectorNum) (hn : n < p.limit s.superBlock.sectorNum i)
    (hset : setAlloc p s i (n / 8) (n % 8) = some s') :
    Mountable s' ∧ s'.superBlock.sectorNum = s.superBlock.sectorNum := by
  have hlim := Pool.limit_le p s.superBlock.sectorNum i
  rw [setAlloc_eq h.formatted hi (by omega)] at hset
  split_ifs at hset with hbit
  cases hset
  exact ⟨h.released hi hn hbit, released_sectorNum⟩

/-- The bitmaps end before the inode table. -/
theorem Pool.region_rel_le (p : Pool) (S i : ℕ) :
    1024 + 32 * groups S ≤ (p.region i).rel S
      ∧ (p.region i).rel S + 1024 ≤ (6 + 2 * descBlocks S) * 512 := by
  have hdescs := descs_fit S
  cases p with
  | block =>
    rw [Pool.region, Region.rel]
    omega
  | inode =>
    rw [Pool.region, Region.rel]
    omega

/-- The bytes of the data blocks of group `i`. -/
def InDataArea (S i offset len : ℕ) : Prop :=
  dataSector S i 0 * sectorSize ≤ offset ∧ offset + len ≤ dataSector S i (blocksOf S i) * sectorSize

/-- A write to the data blocks of a group leaves the header and the bitmaps alone. -/
theorem Mountable.writeData (h : Mountable s) {buf : Buf} {size num offset i : ℕ}
    (hin : InDataArea s.superBlock.sectorNum i offset (size * num)) :
    Mountable { s with disk := writeDisk s.disk buf size num offset } := by
  obtain ⟨hlo, hhi⟩ := hin
  have hblocks := blocksOf_le s.superBlock.sectorNum i
  -- the data blocks of a group come after everything else in it
  have hrel : ∀ r : Region, r.Valid s.superBlock.sectorNum →
      r.rel s.superBlock.sectorNum + r.len s.superBlock.sectorNum
        ≤ (6 + 2 * descBlocks s.superBlock.sectorNum + 2048) * 512 →
      Agree s.disk (writeDisk s.disk buf size num offset) (r.off s.superBlock.sectorNum)
        (r.len s.superBlock.sectorNum) := by
    intro r hr hle
    rw [writeDisk_eq]
    apply agree_patch
    have hfull := Region.rel_add_len_le hr
    simp only [dataSector, tableSector, sectorSize] at hlo hhi
    unfold Region.off
    rcases lt_trichotomy r.group i with hlt | heq | hgt
    · have := base_add_le (S := s.superBlock.sectorNum) hlt
      omega
    · rw [heq]
      omega
    · have := base_add_le (S := s.superBlock.sectorNum) hgt
      unfold fullSectors at this
      omega
  have hdescs := descs_fit s.superBlock.sectorNum
  refine ⟨⟨h.formatted.1, h.formatted.2, h.formatted.3, h.formatted.4, h.formatted.5, h.formatted.6⟩,
    ⟨?_, ?_⟩, ?_⟩
  · intro q hq
    have hagree := hrel .super trivial (by simp only [Region.rel, Region.len]; omega)
    rw [Region.off_super, Region.len] at hagree
    have hq' : q < 0 + 1024 := by
      simp only [superBlockSize] at hq
      omega
    exact (hagree q (Nat.zero_le _) hq').trans (h.header.super q hq)
  · intro q hq
    have hagree := hrel .descs trivial (by simp only [Region.rel, Region.len]; omega)
    rw [Region.off_descs, Region.len] at hagree
    exact (hagree _ (Nat.le_add_right ..) (Nat.add_lt_add_left hq _)).trans (h.header.descs q hq)
  · intro p
    refine (h.backed p).congr rfl ⟨rfl, fun _ => rfl⟩ fun l n hl hn => ?_
    refine poolBit_congr (hrel _ (Pool.region_valid p hl) ?_) hn
    rw [Pool.region_len]
    have := Pool.region_rel_le p s.superBlock.sectorNum l
    omega

end

/-! ## Formatting -/

section format
variable {S : ℕ} {s₀ s : FS}

/-- The copies of the header that `initGroupHeader` writes, one at the start of every group: the
first one stays, and no bitmap is overwritten. -/
theorem copies_spec (sb gd : Buf) (d : Disk) {n : ℕ} (hn : n ≤ groups S) :
    let copies := (List.range n).foldl (fun d i => patch (patch d (base S i * 512) 1024 sb)
      (base S i * 512 + 1024) (32 * groups S) gd) d
    (1 ≤ n → (∀ q, q < 1024 → copies q = sb q) ∧ ∀ q, q < 32 * groups S → copies (1024 + q) = gd q)
      ∧ ∀ (p : Pool) l, Agree d copies ((p.region l).off S) 1024 := by
  have hdescs := descs_fit S
  induction n with
  | zero => exact ⟨fun h => absurd h (by decide), fun p l => Agree.refl d _ _⟩
  | succ n ih =>
    have ⟨hfirst, hbitmaps⟩ := ih (by omega)
    simp only [List.range_succ, List.foldl_append, List.foldl_cons, List.foldl_nil]
    generalize (List.range n).foldl (fun d i => patch (patch d (base S i * 512) 1024 sb)
      (base S i * 512 + 1024) (32 * groups S) gd) d = copies at hfirst hbitmaps ⊢
    refine ⟨fun _ => ?_, fun p l => (hbitmaps p l).trans ?_⟩
    -- the first copy is at the start of the disk, the later ones are behind it
    · by_cases hzero : n = 0
      · rw [hzero, base_zero, Nat.zero_mul, Nat.zero_add]
        refine ⟨fun q hq => ?_, fun q hq => patch_apply_add hq⟩
        rw [patch_apply_out (by omega), patch_zero_apply hq]
      · have ⟨hsuper, htable⟩ := hfirst (by omega)
        have hbase := base_add_le (S := S) (by omega : 0 < n)
        unfold fullSectors at hbase
        refine ⟨fun q hq => ?_, fun q hq => ?_⟩
        · rw [patch_apply_out (by omega), patch_apply_out (by omega), hsuper q hq]
        · rw [patch_apply_out (by omega), patch_apply_out (by omega), htable q hq]
    · have ⟨hlo, hhi⟩ := Pool.region_rel_le p S l
      have hgroup : (p.region l).group = l := by cases p <;> rfl
      -- a bitmap is in front of the group, behind the header of the group, or behind the group
      have hout : (p.region l).off S + 1024 ≤ base S n * 512
          ∨ base S n * 512 + 1024 + 32 * groups S ≤ (p.region l).off S := by
        rw [Region.off, hgroup]
        rcases lt_trichotomy l n with hlt | heq | hgt
        · have := base_add_le (S := S) hlt
          unfold fullSectors at this
          omega
        · rw [heq] at hlo ⊢
          omega
        · have := base_add_le (S := S) hgt
          unfold fullSectors at this
          omega
      rcases hout with hbefore | hafter
      · exact (agree_patch (Or.inl hbefore)).trans
          (agree_patch (Or.inl (hbefore.trans (Nat.le_add_right ..))))
      · exact (agree_patch (Or.inr ((Nat.le_add_right ..).trans hafter))).trans
          (agree_patch (Or.inr hafter))

/-- What `initGroupHeader` leaves in memory and on the disk. -/
theorem initGroupHeader_spec (h : initGroupHeader s₀ S sectorsPerBlock = some s) :
    s.superBlock.sectorNum = S ∧ s.superBlock.blockSize = 1024
      ∧ (∀ p, s.superBlock.avail p = ∑ i ∈ Finset.range (groups S), (p.limit S i : ℤ))
      ∧ s.disk = (List.range (groups S)).foldl (fun d i =>
          patch (patch d (base S i * 512) 1024 s.superBlock.encode)
            (base S i * 512 + 1024) (32 * groups S) (encodeDescs s.groupDesc)) s₀.disk := by
  rw [initGroupHeader] at h
  dsimp only at h
  split_ifs at h
  rw [← Option.some.inj h]
  refine ⟨rfl, rfl, ?_, ?_⟩
  · intro p
    cases p with
    | block => exact Nat.cast_sum ..
    | inode => exact Nat.cast_sum ..
  · apply List.foldl_ext
    intro d i hi
    have hstride := stride_eq (S := S) (List.mem_range.mp hi)
    rw [groups] at hstride
    simp only [writeDisk_eq, hstride, superBlockSize, groupDescSize, sectorSize, Nat.mul_one]
    rfl

theorem initGroupHeader_groups_pos (h : initGroupHeader s₀ S sectorsPerBlock = some s) :
    1 ≤ groups S := by
  by_contra hlt
  have hnone : calGroupNum S sectorsPerBlock = 0 := by
    rw [← groups]
    omega
  rw [initGroupHeader, if_pos hnone] at h
  cases h

theorem initGroupHeader_formatted (hS : S * 512 ≤ 2 ^ 31)
    (h : initGroupHeader s₀ S sectorsPerBlock = some s) : Formatted s := by
  obtain ⟨hsector, hblock, _, _⟩ := initGroupHeader_spec h
  have hpos := initGroupHeader_groups_pos h
  have hdesc := fun i (hi : i < groups S) => initGroupHeader_desc h hi
  have hstart : ∀ i, i < groups S →
      i * calGroupSize S sectorsPerBlock (calGroupNum S sectorsPerBlock) 0 = base S i :=
    fun i hi => stride_eq hi
  have hblocks : groupDescBlocks (calGroupNum S sectorsPerBlock) sectorsPerBlock = descBlocks S := rfl
  refine ⟨hblock, by rwa [hsector], by rwa [hsector], ?_, ?_, ?_⟩
  · intro i hi
    rw [hsector] at hi ⊢
    rw [(hdesc i hi).2.2.1, hstart i hi, hblocks, inodeBitmapSector]
    simp only [sectorsPerBlock]
    omega
  · intro i hi
    rw [hsector] at hi ⊢
    rw [(hdesc i hi).2.2.2.1, hstart i hi, hblocks, blockBitmapSector]
    simp only [sectorsPerBlock]
    omega
  · intro i hi
    rw [hsector] at hi ⊢
    rw [(hdesc i hi).2.2.2.2, hstart i hi, headerOf, hblocks, header_eq, tableSector]
    omega

theorem initGroupHeader_avail (h : initGroupHeader s₀ S sectorsPerBlock = some s) (p : Pool) {i : ℕ}
    (hi : i < groups S) : (s.groupDesc i).avail p = p.limit S i := by
  have hdesc := initGroupHeader_desc h hi
  cases p with
  | block => exact hdesc.2.1
  | inode => exact hdesc.1

/-- The disk that `initGroupHeader` leaves, when the bitmap blocks were zero before. -/
theorem initGroupHeader_mountable (hS : S * 512 ≤ 2 ^ 31)
    (h : initGroupHeader s₀ S sectorsPerBlock = some s)
    (hzero : ∀ (p : Pool) i q, i < groups S → q < blockBytes →
      s₀.disk ((s.groupDesc i).bitmap p * sectorSize + q) = 0) : Mountable s := by
  obtain ⟨hsector, _, havail, hdisk⟩ := initGroupHeader_spec h
  have hf := initGroupHeader_formatted hS h
  have hcopies := copies_spec s.superBlock.encode (encodeDescs s.groupDesc) s₀.disk (le_refl (groups S))
  simp only [← hdisk] at hcopies
  obtain ⟨hfirst, hbitmaps⟩ := hcopies
  obtain ⟨hsuper, htable⟩ := hfirst (initGroupHeader_groups_pos h)
  refine ⟨hf, ⟨hsuper, by rwa [hsector]⟩, fun p => ⟨?_, ?_, ?_⟩⟩
  · rw [hsector, havail p]
    exact Finset.sum_congr rfl fun i hi =>
      (initGroupHeader_avail h p (Finset.mem_range.mp hi)).symm
  · intro i hi
    rw [hsector] at hi
    rw [initGroupHeader_avail h p hi]
    exact Int.natCast_nonneg _
  · intro i hi
    rw [hsector] at hi ⊢
    -- no header copy is written over a bitmap, so all its bits are still clear
    have hclear : ∀ n, n < p.limit S i → poolBit p S s.disk i n = false := by
      intro n hn
      have hlim := Pool.limit_le p S i
      have hbyte := hzero p i (n / 8) hi (by simp only [blockBytes]; omega)
      have hoff := hf.bitmap_eq (p := p) (i := i) (by rwa [hsector])
      rw [hsector] at hoff
      simp only [sectorSize, hoff] at hbyte
      rw [poolBit, bit, (hbitmaps p i).window_eq (by omega), window_apply, hbyte]
      simp
    have hall : clearCount (window s.disk ((p.region i).off S)) (p.limit S i) = p.limit S i :=
      Nat.count_of_forall hclear
    rw [initGroupHeader_avail h p hi, hall]

end format

/-! ## Runs -/

/-- A file system together with the offsets that calls have returned. -/
structure MountRun where
  fs : FS
  blocks : List ℕ
  inodes : List ℕ

/-- One call that succeeds, or one write to the data blocks of a group. A call that fails leaves
everything as it was. -/
inductive MountStep (r : MountRun) : MountRun → Prop
  | getAvailBlock {s : FS} {blockOffset b : ℕ}
      (h : getAvailBlock r.fs blockOffset = some (s, b)) : MountStep r ⟨s, b :: r.blocks, r.inodes⟩
  | getAvailInode {s : FS} {o : ℕ}
      (h : getAvailInode r.fs = some (s, o)) : MountStep r ⟨s, r.blocks, o :: r.inodes⟩
  | setAllocBlock {s : FS} {b : ℕ} (hb : b ∈ r.blocks)
      (h : setAllocBlock r.fs b = some s) : MountStep r ⟨s, r.blocks, r.inodes⟩
  | setAllocInode {s : FS} {o : ℕ} (ho : o ∈ r.inodes)
      (h : setAllocInode r.fs o = some s) : MountStep r ⟨s, r.blocks, r.inodes⟩
  | writeData {buf : Buf} {size num offset i : ℕ} (hi : i < groups r.fs.superBlock.sectorNum)
      (h : InDataArea r.fs.superBlock.sectorNum i offset (size * num)) :
      MountStep r ⟨{ r.fs with disk := writeDisk r.fs.disk buf size num offset }, r.blocks, r.inodes⟩

/-- What holds between the steps of a run on a disk of `S` sectors. -/
structure MountRun.Inv (S : ℕ) (r : MountRun) : Prop where
  mountable : Mountable r.fs
  sectorNum : r.fs.superBlock.sectorNum = S
  blocks : ∀ b ∈ r.blocks, IsData S b
  inodes : ∀ o ∈ r.inodes, IsSlot S o

theorem MountStep.inv {S : ℕ} {r r' : MountRun} (hstep : MountStep r r') (h : r.Inv S) :
    r'.Inv S := by
  obtain ⟨hm, rfl, hblocks, hinodes⟩ := h
  cases hstep with
  | getAvailBlock hget =>
    have ⟨hm', hS, hb⟩ := hm.getAvailBlock hget
    exact ⟨hm', hS, List.forall_mem_cons.mpr ⟨hb, hblocks⟩, hinodes⟩
  | getAvailInode hget =>
    have ⟨hm', hS, ho⟩ := hm.getAvailInode hget
    exact ⟨hm', hS, hblocks, List.forall_mem_cons.mpr ⟨ho, hinodes⟩⟩
  | setAllocBlock hb hset =>
    have ⟨i, n, hi, hn, heq⟩ := hblocks _ hb
    rw [heq, setAllocBlock_eq hm.formatted hi hn] at hset
    have ⟨hm', hS⟩ := hm.setAlloc (p := .block) hi hn hset
    exact ⟨hm', hS, hblocks, hinodes⟩
  | setAllocInode ho hset =>
    have ⟨i, n, hi, hn, heq⟩ := hinodes _ ho
    rw [heq, setAllocInode_eq hm.formatted hi hn] at hset
    have ⟨hm', hS⟩ := hm.setAlloc (p := .inode) hi hn hset
    exact ⟨hm', hS, hblocks, hinodes⟩
  | writeData _ hin => exact ⟨hm.writeData hin, rfl, hblocks, hinodes⟩

theorem MountRun.Inv.run {S : ℕ} {r r' : MountRun} (h : r.Inv S)
    (hrun : Relation.ReflTransGen MountStep r r') : r'.Inv S := by
  induction hrun with
  | refl => exact h
  | tail _ hstep ih => exact hstep.inv ih

/-- The bitmap blocks of all groups, where the descriptors in memory have them, are zero on `d`. -/
def ZeroBitmaps (d : Disk) (s : FS) : Prop :=
  ∀ (p : Pool) i q, i < groups s.superBlock.sectorNum → q < blockBytes →
    d ((s.groupDesc i).bitmap p * sectorSize + q) = 0

/-- Formatting a disk that has room for a group succeeds, and in every run from there a mount gives
back the header in memory. -/
theorem run_mountsBack {S : ℕ} (hS : S * 512 ≤ 2 ^ 31) (hgroups : 1 ≤ calGroupNum S sectorsPerBlock)
    (s₀ : FS) :
    ∃ s, initGroupHeader s₀ S sectorsPerBlock = some s
      ∧ (ZeroBitmaps s₀.disk s → ∀ r, Relation.ReflTransGen MountStep ⟨s, [], []⟩ r →
          MountsBack r.fs) := by
  have hsome : ∃ s, initGroupHeader s₀ S sectorsPerBlock = some s := by
    rw [initGroupHeader]
    dsimp only
    rw [if_neg (by omega)]
    exact ⟨_, rfl⟩
  obtain ⟨s, hinit⟩ := hsome
  refine ⟨s, hinit, ?_⟩
  intro hzero r hrun
  have hsector := (initGroupHeader_spec hinit).1
  rw [ZeroBitmaps, hsector] at hzero
  have hstart : MountRun.Inv S ⟨s, [], []⟩ :=
    ⟨initGroupHeader_mountable hS hinit hzero, hsector, by simp, by simp⟩
  have hinv := hstart.run hrun
  exact hinv.mountable.header.mountsBack hinv.mountable.formatted

/-- On an empty disk of 2106 sectors, after one block was taken. -/
theorem run_mountsBack_small : ∃ s r, initGroupHeader (smallFS (fun _ => 0) 0 0) 2106 2 = some s
    ∧ MountStep ⟨s, [], []⟩ r ∧ r.blocks ≠ [] ∧ MountsBack r.fs := by
  have hgroups : 1 ≤ calGroupNum 2106 sectorsPerBlock := groups_small.ge
  have ⟨s, hinit, hback⟩ := run_mountsBack (by norm_num) hgroups (smallFS (fun _ => 0) 0 0)
  have ⟨_, _, havail, _⟩ := initGroupHeader_spec hinit
  have hav : s.superBlock.avail .block ≠ 0 := by
    rw [havail, groups_small, Finset.sum_range_one, Pool.limit, blocksOf_small]
    norm_num
  have hsome : ∃ s' b, getAvailBlock s 0 = some (s', b) := by
    rw [getAvailBlock, getAvail, if_neg hav]
    exact ⟨_, _, rfl⟩
  obtain ⟨s', b, hget⟩ := hsome
  have hstep : MountStep ⟨s, [], []⟩ ⟨s', [b], []⟩ := .getAvailBlock hget
  exact ⟨s, _, hinit, hstep, by simp, hback (fun _ _ _ _ _ => rfl) _ (.single hstep)⟩

end SeL4Sys

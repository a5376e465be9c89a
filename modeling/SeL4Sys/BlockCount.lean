import SeL4Sys.AllocRuns
import SeL4Sys.BlockUse

/-!
# Counting the blocks that are taken and given back

`Took s s' bs` says what taking the blocks of a list amounts to: their bits, which were clear, are set
and no others, and the counters have fallen by their number. `Gave` is the same for giving them back.
Taking the blocks of a list and giving them back restores every bit and every counter.
-/

namespace SeL4Sys

open Bytes Bitmap

section lists
variable {S : ℕ}

/-- Block `n` of group `i` is in the list. -/
def listed (S : ℕ) (bs : List ℕ) (i n : ℕ) : Bool :=
  decide (n < blocksOf S i ∧ dataSector S i n ∈ bs)

/-- The number of blocks of group `i` in the list. -/
def inGroup (S : ℕ) (bs : List ℕ) (i : ℕ) : ℕ :=
  bs.countP fun b => decide (∃ n, n < blocksOf S i ∧ b = dataSector S i n)

theorem listed_cons {i n : ℕ} (hi : i < groups S) (hn : n < blocksOf S i) (bs : List ℕ) {l m : ℕ}
    (hl : l < groups S) :
    listed S (dataSector S i n :: bs) l m = (decide (l = i ∧ m = n) || listed S bs l m) := by
  rw [listed, listed, ← Bool.decide_or, decide_eq_decide, List.mem_cons]
  constructor
  · rintro ⟨hm, heq | hmem⟩
    · exact Or.inl (dataSector_inj hl hm hi hn heq)
    · exact Or.inr ⟨hm, hmem⟩
  · rintro (⟨rfl, rfl⟩ | ⟨hm, hmem⟩)
    · exact ⟨hn, Or.inl rfl⟩
    · exact ⟨hm, Or.inr hmem⟩

theorem inGroup_cons {i n : ℕ} (hi : i < groups S) (hn : n < blocksOf S i) (bs : List ℕ) {l : ℕ}
    (hl : l < groups S) :
    inGroup S (dataSector S i n :: bs) l = inGroup S bs l + if l = i then 1 else 0 := by
  have hiff : (∃ m, m < blocksOf S l ∧ dataSector S i n = dataSector S l m) ↔ l = i := by
    constructor
    · rintro ⟨m, hm, heq⟩
      exact (dataSector_inj hl hm hi hn heq.symm).1
    · rintro rfl
      exact ⟨n, hn, rfl⟩
  rw [inGroup, inGroup, List.countP_cons]
  simp only [hiff, decide_eq_true_eq]

theorem listed_perm {bs bs' : List ℕ} (h : bs.Perm bs') (i n : ℕ) :
    listed S bs i n = listed S bs' i n := by
  rw [listed, listed, decide_eq_decide, h.mem_iff]

theorem inGroup_perm {bs bs' : List ℕ} (h : bs.Perm bs') (i : ℕ) :
    inGroup S bs i = inGroup S bs' i := h.countP_eq _

end lists

/-! ## Taking -/

/-- The blocks of `bs` were free in `s` and have been taken in `s'`. -/
structure Took (s s' : FS) (bs : List ℕ) : Prop where
  formatted : Formatted s'
  sectorNum : s'.superBlock.sectorNum = s.superBlock.sectorNum
  nodup : bs.Nodup
  free : ∀ b ∈ bs, IsData s.superBlock.sectorNum b ∧ ¬ Used s.superBlock.sectorNum s.disk b
  bits : ∀ i n, i < groups s.superBlock.sectorNum → n < 8192 →
    poolBit .block s.superBlock.sectorNum s'.disk i n
      = (poolBit .block s.superBlock.sectorNum s.disk i n || listed s.superBlock.sectorNum bs i n)
  total : s'.superBlock.availBlockNum = s.superBlock.availBlockNum - bs.length
  group : ∀ i, i < groups s.superBlock.sectorNum →
    (s'.groupDesc i).availBlockNum
      = (s.groupDesc i).availBlockNum - inGroup s.superBlock.sectorNum bs i

section took
variable {s s' : FS} {bs : List ℕ}

theorem Took.refl (hf : Formatted s) : Took s s [] where
  formatted := hf
  sectorNum := rfl
  nodup := List.nodup_nil
  free := fun _ hb => absurd hb List.not_mem_nil
  bits := fun i n _ _ => by simp [listed]
  total := by simp
  group := fun i _ => by simp [inGroup]

theorem Took.used_iff (h : Took s s' bs) {b : ℕ} :
    Used s.superBlock.sectorNum s'.disk b ↔ Used s.superBlock.sectorNum s.disk b ∨ b ∈ bs := by
  constructor
  · rintro ⟨i, n, hi, hn, rfl, hset⟩
    rw [h.bits i n hi (lt_of_lt_of_le hn (blocksOf_le _ i)), Bool.or_eq_true, listed,
      decide_eq_true_eq] at hset
    rcases hset with hset | hset
    · exact Or.inl ⟨i, n, hi, hn, rfl, hset⟩
    · exact Or.inr hset.2
  · intro hb
    have hdata : IsData s.superBlock.sectorNum b := by
      rcases hb with hb | hb
      · exact hb.isData
      · exact (h.free b hb).1
    have ⟨i, n, hi, hn, heq⟩ := hdata
    refine ⟨i, n, hi, hn, heq, ?_⟩
    rw [h.bits i n hi (lt_of_lt_of_le hn (blocksOf_le _ i)), Bool.or_eq_true, listed,
      decide_eq_true_eq]
    rw [heq] at hb
    rcases hb with hb | hb
    · exact Or.inl ((used_dataSector_iff hi hn).mp hb)
    · exact Or.inr ⟨hn, hb⟩

/-- One more block is taken. -/
theorem Took.take (h : Took s s' bs) (hh : Hits .block s') :
    Took s s'.takeBlock.1 (s'.takeBlock.2 :: bs) := by
  have hf := h.formatted
  have hgroup := hh.group
  have hindex : searchIndex .block s'
      < blocksOf s'.superBlock.sectorNum (searchGroup .block s') := hh.index
  have hfree := hh.not_used_fresh hf
  have hdata := hh.isData_fresh hf
  rw [h.sectorNum] at hgroup hindex hfree hdata
  rw [h.used_iff, not_or] at hfree
  have heq := takeBlock_eq hf hh
  rw [h.sectorNum] at heq
  refine ⟨(takeBlock_formatted hf).1, (takeBlock_formatted hf).2.trans h.sectorNum,
    List.nodup_cons.mpr ⟨hfree.2, h.nodup⟩, ?_, ?_, ?_, ?_⟩
  · intro b hb
    rcases List.mem_cons.mp hb with rfl | hb
    · exact ⟨hdata, hfree.1⟩
    · exact h.free b hb
  · intro i n hi hn
    have hbit := taken_poolBit hf hh.group hh.bit (l := i) (n := n) (by rwa [h.sectorNum]) hn
    rw [h.sectorNum] at hbit
    rw [heq, hbit, h.bits i n hi hn, listed_cons hgroup hindex bs hi, Bool.or_assoc,
      Bool.or_comm (listed _ _ _ _)]
  · rw [heq, List.length_cons]
    change (taken .block s').superBlock.avail .block = _
    rw [taken, commit_superBlock, SuperBlock.avail_setAvail]
    change s'.superBlock.availBlockNum + -1 = _
    rw [h.total]
    push_cast
    ring
  · intro i hi
    rw [heq, inGroup_cons hgroup hindex bs hi]
    change ((taken .block s').groupDesc i).avail .block = _
    rw [taken, commit_avail]
    change (s'.groupDesc i).availBlockNum + _ = _
    rw [h.group i hi]
    split_ifs <;> push_cast <;> ring

/-- What the allocator does not look at makes no difference. -/
theorem Took.congr (h : Took s s' bs) {s'' : FS} (hsame : SameAlloc s' s'') : Took s s'' bs where
  formatted := hsame.formatted h.formatted
  sectorNum := by rw [hsame.superBlock, h.sectorNum]
  nodup := h.nodup
  free := h.free
  bits := fun i n hi hn => by
    rw [← h.bits i n hi hn]
    refine poolBit_congr ?_ hn
    rw [← h.sectorNum]
    exact hsame.bitmaps i (by rwa [h.sectorNum])
  total := by rw [hsame.superBlock, h.total]
  group := fun i hi => by rw [hsame.groupDesc, h.group i hi]

/-- The blocks of `m` calls that hit, the last one first. -/
theorem Took.takes (h : Took s s' bs) {m : ℕ} (hget : GetsFreeFor s' m) :
    Took s (s'.takes m) (((List.range m).map s'.fresh).reverse ++ bs) := by
  induction m with
  | zero => exact h
  | succ m ih =>
    have hstep := (ih (hget.mono (Nat.le_succ m))).take (takes_hits h.formatted hget (Nat.lt_succ_self m))
    rw [List.range_succ, List.map_append, List.reverse_append]
    exact hstep

theorem listed_append (S : ℕ) (bs bs' : List ℕ) (i n : ℕ) :
    listed S (bs ++ bs') i n = (listed S bs i n || listed S bs' i n) := by
  rw [listed, listed, listed, ← Bool.decide_or, decide_eq_decide, List.mem_append]
  tauto

/-- More blocks are taken. -/
theorem Took.trans (h : Took s s' bs) {s'' : FS} {bs' : List ℕ} (h' : Took s' s'' bs') :
    Took s s'' (bs ++ bs') := by
  have hfree := h'.free
  have hbits := h'.bits
  have hgroup := h'.group
  rw [h.sectorNum] at hfree hbits hgroup
  refine ⟨h'.formatted, h'.sectorNum.trans h.sectorNum, ?_, ?_, ?_, ?_, ?_⟩
  · refine List.Nodup.append h.nodup h'.nodup ?_
    intro b hb hb'
    exact (hfree b hb').2 (h.used_iff.mpr (Or.inr hb))
  · intro b hb
    rcases List.mem_append.mp hb with hb | hb
    · exact h.free b hb
    · exact ⟨(hfree b hb).1, fun hused => (hfree b hb).2 (h.used_iff.mpr (Or.inl hused))⟩
  · intro i n hi hn
    rw [hbits i n hi hn, h.bits i n hi hn, listed_append, Bool.or_assoc]
  · rw [h'.total, h.total, List.length_append]
    push_cast
    ring
  · intro i hi
    rw [hgroup i hi, h.group i hi]
    simp only [inGroup, List.countP_append]
    push_cast
    ring

theorem Took.perm (h : Took s s' bs) {bs' : List ℕ} (hp : bs.Perm bs') : Took s s' bs' where
  formatted := h.formatted
  sectorNum := h.sectorNum
  nodup := hp.nodup_iff.mp h.nodup
  free := fun b hb => h.free b (hp.mem_iff.mpr hb)
  bits := fun i n hi hn => by rw [h.bits i n hi hn, listed_perm hp]
  total := by rw [h.total, hp.length_eq]
  group := fun i hi => by rw [h.group i hi, inGroup_perm hp]

end took

/-! ## Holes -/

section holes
variable {s : FS} {m : ℕ}

theorem takeBlock_of_hits (hf : Formatted s) (h : Hits .block s) : s.takeBlock.1 = taken .block s := by
  rw [takeBlock_eq hf h]

/-- Calls that hit keep the counters in step. -/
theorem Consistent.takes (h : Consistent .block s) (hget : GetsFreeFor s m) :
    Consistent .block (s.takes m) := by
  induction m with
  | zero => exact h
  | succ m ih =>
    have hprev := ih (hget.mono (Nat.le_succ m))
    have hhits := takes_hits h.formatted hget (Nat.lt_succ_self m)
    rw [FS.takes, takeBlock_of_hits hprev.formatted hhits]
    exact hprev.taken hhits

/-- Consistency is what the allocator looks at. -/
theorem Consistent.sameAlloc (h : Consistent .block s) {s' : FS} (hsame : SameAlloc s s') :
    Consistent .block s' := by
  refine ⟨hsame.formatted h.formatted, ?_, ?_⟩
  · rw [hsame.superBlock, hsame.groupDesc]
    exact h.total
  · intro i hi
    rw [hsame.superBlock] at hi
    rw [hsame.superBlock, hsame.groupDesc, h.group i hi]
    refine congrArg _ (clearCount_congr fun n hn => ?_).symm
    have hn' : n < 8192 := lt_of_lt_of_le hn (Pool.limit_le .block _ i)
    rw [h.formatted.bitmap_eq (p := .block) hi]
    exact poolBit_congr (p := .block) (hsame.bitmaps i hi) hn'

/-- Calls hand out free blocks when each of them finds a hole near the start of the bitmap. -/
theorem Consistent.getsFreeFor (h : Consistent .block s)
    (hnear : ∀ j, j < m → NearHole .block (s.takes j)) : GetsFreeFor s m := by
  induction m with
  | zero => exact fun j hj => absurd hj (Nat.not_lt_zero j)
  | succ m ih =>
    have hget := ih fun j hj => hnear j (Nat.lt_succ_of_lt hj)
    intro j hj
    rcases Nat.lt_succ_iff_lt_or_eq.mp hj with hlt | rfl
    · exact hget j hlt
    · have hcons := h.takes hget
      exact (getsFree_iff hcons.formatted).mpr (hcons.hits_of_nearHole (hnear j hj))

end holes

/-! ## Giving back -/

/-- The blocks of `bs` were in use in `s` and have been given back in `s'`. -/
structure Gave (s s' : FS) (bs : List ℕ) : Prop where
  formatted : Formatted s'
  sectorNum : s'.superBlock.sectorNum = s.superBlock.sectorNum
  bits : ∀ i n, i < groups s.superBlock.sectorNum → n < 8192 →
    poolBit .block s.superBlock.sectorNum s'.disk i n
      = (poolBit .block s.superBlock.sectorNum s.disk i n
          && !listed s.superBlock.sectorNum bs i n)
  total : s'.superBlock.availBlockNum = s.superBlock.availBlockNum + bs.length
  group : ∀ i, i < groups s.superBlock.sectorNum →
    (s'.groupDesc i).availBlockNum
      = (s.groupDesc i).availBlockNum + inGroup s.superBlock.sectorNum bs i

section gave
variable {s s' : FS} {bs : List ℕ}

theorem Gave.refl (hf : Formatted s) : Gave s s [] where
  formatted := hf
  sectorNum := rfl
  bits := fun i n _ _ => by simp [listed]
  total := by simp
  group := fun i _ => by simp [inGroup]

/-- One block that is in use is given back, and then the others. -/
theorem Gave.give {b : ℕ} (hf : Formatted s) (hb : Used s.superBlock.sectorNum s.disk b)
    (h : Gave (s.giveBlock b) s' bs) : Gave s s' (b :: bs) := by
  have ⟨i, n, hi, hn, heq, hset⟩ := hb
  subst heq
  have hn' : n < 8192 := lt_of_lt_of_le hn (blocksOf_le _ i)
  have hgive : s.giveBlock (dataSector s.superBlock.sectorNum i n) = released .block s i n := by
    rw [FS.giveBlock, setAllocBlock_eq hf hi hn, setAlloc_eq hf hi hn', if_pos hset, Option.getD_some]
  rw [hgive] at h
  have hS : (released .block s i n).superBlock.sectorNum = s.superBlock.sectorNum := released_sectorNum
  have hbits := h.bits
  have htotal := h.total
  have hgroup := h.group
  rw [hS] at hbits hgroup
  refine ⟨h.formatted, h.sectorNum.trans hS, ?_, ?_, ?_⟩
  · intro l m hl hm
    rw [hbits l m hl hm, released_poolBit hf hi hn' hset hl hm, listed_cons hi hn bs hl,
      Bool.not_or, Bool.and_assoc]
  · rw [htotal, List.length_cons]
    change (released .block s i n).superBlock.avail .block + _ = _
    rw [released, commit_superBlock, SuperBlock.avail_setAvail]
    change s.superBlock.availBlockNum + 1 + _ = _
    push_cast
    ring
  · intro l hl
    rw [hgroup l hl, inGroup_cons hi hn bs hl]
    change ((released .block s i n).groupDesc l).avail .block + _ = _
    rw [released, commit_avail]
    change (s.groupDesc l).availBlockNum + _ + _ = _
    split_ifs <;> push_cast <;> ring

/-- Blocks that are in use, all different, are given back in order. -/
theorem gave_gives (hf : Formatted s) (hnodup : bs.Nodup)
    (hused : ∀ b ∈ bs, Used s.superBlock.sectorNum s.disk b) : Gave s (s.gives bs) bs := by
  induction bs generalizing s with
  | nil => exact Gave.refl hf
  | cons b bs ih =>
    have hb := hused b List.mem_cons_self
    have ⟨hf', hS, _, hiff⟩ := giveBlock_spec hf hb.isData
    refine Gave.give hf hb (ih hf' (List.nodup_cons.mp hnodup).2 ?_)
    intro x hx
    rw [hS, hiff]
    refine ⟨hused x (List.mem_cons_of_mem b hx), ?_⟩
    rintro rfl
    exact (List.nodup_cons.mp hnodup).1 hx

theorem Gave.congr (h : Gave s s' bs) {s'' : FS} (hsame : SameAlloc s' s'') : Gave s s'' bs where
  formatted := hsame.formatted h.formatted
  sectorNum := by rw [hsame.superBlock, h.sectorNum]
  bits := fun i n hi hn => by
    rw [← h.bits i n hi hn]
    refine poolBit_congr ?_ hn
    rw [← h.sectorNum]
    exact hsame.bitmaps i (by rwa [h.sectorNum])
  total := by rw [hsame.superBlock, h.total]
  group := fun i hi => by rw [hsame.groupDesc, h.group i hi]

theorem Gave.perm (h : Gave s s' bs) {bs' : List ℕ} (hp : bs.Perm bs') : Gave s s' bs' where
  formatted := h.formatted
  sectorNum := h.sectorNum
  bits := fun i n hi hn => by rw [h.bits i n hi hn, listed_perm hp]
  total := by rw [h.total, hp.length_eq]
  group := fun i hi => by rw [h.group i hi, inGroup_perm hp]

/-- A release looks at what the allocator looks at. -/
theorem SameAlloc.giveBlock {b : ℕ} (h : SameAlloc s s') (hf : Formatted s)
    (hb : IsData s.superBlock.sectorNum b) : SameAlloc (s.giveBlock b) (s'.giveBlock b) := by
  have ⟨i, n, hi, hn, heq⟩ := hb
  subst heq
  have hf' := h.formatted hf
  have hn' : n < 8192 := lt_of_lt_of_le hn (blocksOf_le _ i)
  have hset : poolBit .block s.superBlock.sectorNum s'.disk i n
      = poolBit .block s.superBlock.sectorNum s.disk i n := poolBit_congr (h.bitmaps i hi) hn'
  have hgive := setAllocBlock_eq hf hi hn
  have hgive' := setAllocBlock_eq hf' (by rwa [h.superBlock]) (by rwa [h.superBlock] : n < _)
  rw [setAlloc_eq hf hi hn'] at hgive
  rw [setAlloc_eq hf' (by rwa [h.superBlock]) hn', h.superBlock, hset] at hgive'
  rw [FS.giveBlock, FS.giveBlock, hgive, hgive']
  split_ifs
  · rw [Option.getD_some, Option.getD_some, released, released, h.groupDesc]
    have hbytes : readDisk s'.disk (fun _ => 0) blockBytes 1
        ((s.groupDesc i).bitmap .block * sectorSize)
        = readDisk s.disk (fun _ => 0) blockBytes 1
            ((s.groupDesc i).bitmap .block * sectorSize) := by
      rw [readDisk_eq, readDisk_eq]
      refine patch_congr fun j hj => ?_
      rw [show (s.groupDesc i).bitmap .block * sectorSize = _ from hf.bitmap_eq hi]
      exact (h.bitmaps i hi).window_eq (by simpa using hj)
    rw [hbytes]
    exact h.commit hf hi (hf.bitmap_eq hi) fun _ _ => rfl
  · exact h

theorem SameAlloc.gives (h : SameAlloc s s') (hf : Formatted s)
    (hb : ∀ b ∈ bs, IsData s.superBlock.sectorNum b) : SameAlloc (s.gives bs) (s'.gives bs) := by
  induction bs generalizing s s' with
  | nil => exact h
  | cons b bs ih =>
    have hdata := hb b List.mem_cons_self
    have ⟨hf', hS, _, _⟩ := giveBlock_spec hf hdata
    refine ih (h.giveBlock hf hdata) hf' ?_
    intro x hx
    rw [hS]
    exact hb x (List.mem_cons_of_mem b hx)

theorem gives_append (s : FS) (bs bs' : List ℕ) : s.gives (bs ++ bs') = (s.gives bs).gives bs' := by
  induction bs generalizing s with
  | nil => rfl
  | cons b bs ih => exact ih (s.giveBlock b)

end gave

/-- All bits and all counters of the block allocator are the same. -/
structure SameBlocks (s s' : FS) : Prop where
  bits : ∀ i n, i < groups s.superBlock.sectorNum → n < 8192 →
    poolBit .block s.superBlock.sectorNum s'.disk i n
      = poolBit .block s.superBlock.sectorNum s.disk i n
  total : s'.superBlock.availBlockNum = s.superBlock.availBlockNum
  group : ∀ i, i < groups s.superBlock.sectorNum →
    (s'.groupDesc i).availBlockNum = (s.groupDesc i).availBlockNum

/-- Taking blocks and giving them back restores the allocator. -/
theorem Took.restore {s s₁ s₂ : FS} {bs : List ℕ} (htook : Took s s₁ bs) (hgave : Gave s₁ s₂ bs) :
    SameBlocks s s₂ := by
  have hbits := hgave.bits
  have hgroup := hgave.group
  rw [htook.sectorNum] at hbits hgroup
  refine ⟨?_, ?_, ?_⟩
  · intro i n hi hn
    rw [hbits i n hi hn, htook.bits i n hi hn]
    -- a block of the list was free
    cases hlisted : listed s.superBlock.sectorNum bs i n with
    | false => simp
    | true =>
      have ⟨hlt, hmem⟩ := of_decide_eq_true hlisted
      have hfree := (htook.free _ hmem).2
      rw [used_dataSector_iff hi hlt] at hfree
      simpa using hfree
  · rw [hgave.total, htook.total]
    ring
  · intro i hi
    rw [hgroup i hi, htook.group i hi]
    ring

end SeL4Sys

import SeL4Sys.OwnershipAlloc

/-!
# Giving blocks back keeps ownership

`freeLastBlock` and `freeBlock` on one inode of a family that owns its blocks. A block that is
given back is no block of any file any more, because no block is reached twice.
-/

namespace SeL4Sys

open Bytes IndexTree Function

variable {ι : Type*} [DecidableEq ι] {s : FS} {P : ι → Prop} {I : ι → Inode} {x : ι} {k o : ℕ}

/-- What cutting file `x`, with its inode at offset `o`, down to `k` blocks does. -/
structure FreeSpec (s s' : FS) (P : ι → Prop) (I : ι → Inode) (x : ι) (o k : ℕ) (ino : Inode) :
    Prop where
  formatted : Formatted s'
  sectorNum : s'.superBlock.sectorNum = s.superBlock.sectorNum
  inode : ino = { I x with blockCount := k }
  owned : Owned s' P (update I x ino)
  used : ∀ a, Used s.superBlock.sectorNum s'.disk a
    ↔ Used s.superBlock.sectorNum s.disk a
      ∧ ∀ n : Node, n.Live (I x).blocks → k ≤ n.first → a ≠ n.sector s.disk (I x)
  counters : SameCounters .inode s s'
  changes : ChangesOnly s.superBlock.sectorNum s.disk s'.disk
    {q | q ∈ poolRegions .block ∨ q ∈ slotRegion s.superBlock.sectorNum o}

omit [DecidableEq ι] in
/-- Writing the header, the bitmaps and the inode moves no block. -/
theorem Owned.sector_eq {d : Disk} {o : ℕ} (hown : Owned s P I)
    (hchanges : ChangesOnly s.superBlock.sectorNum s.disk d
      {q | q ∈ poolRegions .block ∨ q ∈ slotRegion s.superBlock.sectorNum o})
    {y : ι} (hy : P y) {n : Node} (hn : n.Live (I y).blocks) :
    n.sector d (I y) = n.sector s.disk (I y) := by
  refine sector_eq_of_agree (fun r i l hl => ?_) hn
  refine hchanges.agree_block (hown.isData hy hl.tail) ?_
  rw [Set.disjoint_left]
  rintro q hq (hq' | hq')
  · exact Set.disjoint_left.mp (disjoint_block_pool _ _ _) hq hq'
  · exact Set.disjoint_left.mp (disjoint_block_slot _ _ _) hq hq'

theorem mem_levelBlocks {d : Disk} {ino : Inode} {a : ℕ} : a ∈ levelBlocks d ino k
    ↔ ∃ j, j ≤ newLevels k ∧ a = (Node.mk (dataRoot k) ((dataNode k).path.drop j)).sector d ino := by
  simp only [levelBlocks, List.mem_map, List.mem_range, Nat.lt_succ_iff]
  constructor
  · rintro ⟨j, hj, h⟩
    exact ⟨j, hj, h.symm⟩
  · rintro ⟨j, hj, h⟩
    exact ⟨j, hj, h.symm⟩

omit [DecidableEq ι] in
/-- The inode's own pointers do not depend on its block count. -/
theorem sector_withBlockCount (d : Disk) (ino : Inode) (v : ℤ) (n : Node) :
    n.sector d { ino with blockCount := v } = n.sector d ino :=
  sector_eq_of_rootPointer (fun r => by simp only [Inode.rootPointer]) n

/-- Cutting a file down when the blocks beyond are no longer in use. -/
theorem Owned.shrink {s' : FS} (hown : Owned s P I) (hx : P x) (hk : k ≤ (I x).blocks)
    (hS : s'.superBlock.sectorNum = s.superBlock.sectorNum)
    (hsector : ∀ y, P y → ∀ n : Node, n.Live (I y).blocks →
      n.sector s'.disk (I y) = n.sector s.disk (I y))
    (hused : ∀ a, Used s.superBlock.sectorNum s'.disk a
      ↔ Used s.superBlock.sectorNum s.disk a
        ∧ ∀ n : Node, n.Live (I x).blocks → k ≤ n.first → a ≠ n.sector s.disk (I x)) :
    Owned s' P (update I x { I x with blockCount := k }) := by
  -- a live node of the cut family is a live node of the old one, at the same sector
  have hlive : ∀ y, P y → ∀ n : Node,
      n.Live (update I x { I x with blockCount := k } y).blocks →
      n.Live (I y).blocks ∧ (y = x → n.first < k)
        ∧ n.sector s'.disk (update I x { I x with blockCount := k } y)
            = n.sector s.disk (I y) := by
    intro y hy n hn
    by_cases hyx : y = x
    · subst hyx
      rw [update_self] at hn ⊢
      have hfirst : n.first < k := by simpa [Inode.blocks] using hn.first_lt
      have hn' : n.Live (I y).blocks := ⟨hn.valid, by omega⟩
      exact ⟨hn', fun _ => hfirst, by rw [sector_withBlockCount, hsector y hy n hn']⟩
    · rw [update_of_ne hyx] at hn ⊢
      exact ⟨hn, fun h => absurd h hyx, hsector y hy n hn⟩
  refine ⟨fun y hy => ?_, fun y hy n hn => ?_, fun y z hy hz n m hn hm heq => ?_⟩
  · by_cases hyx : y = x
    · subst hyx
      have hle := hown.blocks_le hy
      rw [update_self]
      simp only [Nat.cast_nonneg, Nat.cast_le, true_and]
      omega
    · rw [update_of_ne hyx]
      exact hown.count y hy
  · obtain ⟨hn', hfirst, hsec⟩ := hlive y hy n hn
    rw [hS, hsec, hused]
    refine ⟨hown.used y hy n hn', fun m hm hle heq => ?_⟩
    obtain ⟨rfl, rfl⟩ := hown.inj y x hy hx n m hn' hm heq
    have := hfirst rfl
    omega
  · obtain ⟨hn', _, hsec⟩ := hlive y hy n hn
    obtain ⟨hm', _, hsec'⟩ := hlive z hz m hm
    rw [hsec, hsec'] at heq
    exact hown.inj y z hy hz n m hn' hm' heq

/-- Giving back the last block of one of the files. -/
theorem Owned.freeLast (hf : Formatted s) (hown : Owned s P I) (hx : P x)
    (hcount : (I x).blockCount = k + 1) (ho : IsSlot s.superBlock.sectorNum o) :
    ∃ s' ino, freeLastBlock s (I x) o = (0, s', ino) ∧ FreeSpec s s' P I x o k ino := by
  have hblocks : (I x).blocks = k + 1 := by rw [Inode.blocks, hcount]; omega
  have hk : k < maxBlocks := by
    have := hown.blocks_le hx
    omega
  -- the blocks given back are the live nodes of `x` that start at `k`
  have hlevel : ∀ a, a ∈ levelBlocks s.disk (I x) k
      ↔ ∃ n : Node, n.Live (I x).blocks ∧ k ≤ n.first ∧ a = n.sector s.disk (I x) := by
    intro a
    rw [mem_levelBlocks]
    constructor
    · rintro ⟨j, hj, rfl⟩
      have hfirst := first_drop_dataNode hk hj
      exact ⟨_, ⟨⟨dataRoot_lt k, (dataNode_valid k).isNode.drop j⟩, by omega⟩, hfirst.ge, rfl⟩
    · rintro ⟨n, hn, hle, rfl⟩
      have := hn.first_lt
      obtain ⟨j, hj, rfl⟩ := hn.valid.eq_drop (show n.first = k by omega)
      exact ⟨j, hj, rfl⟩
  have hdata : ∀ a ∈ levelBlocks s.disk (I x) k, IsData s.superBlock.sectorNum a := by
    intro a ha
    obtain ⟨n, hn, _, rfl⟩ := (hlevel a).mp ha
    exact hown.isData hx hn
  obtain ⟨hf', hS, hchange, hused⟩ := gives_spec hf hdata
  have hslot := changesOnly_slot (s.gives (levelBlocks s.disk (I x) k)).disk
    { I x with blockCount := (k : ℤ) } ho
  have hchanges : ChangesOnly s.superBlock.sectorNum s.disk
      (storeInode (s.gives (levelBlocks s.disk (I x) k)).disk { I x with blockCount := (k : ℤ) } o)
      {q | q ∈ poolRegions .block ∨ q ∈ slotRegion s.superBlock.sectorNum o} :=
    (hchange.mono fun q hq => Or.inl hq).trans (hslot.mono fun q hq => Or.inr hq)
  have hused' : ∀ a, Used s.superBlock.sectorNum
      (storeInode (s.gives (levelBlocks s.disk (I x) k)).disk { I x with blockCount := (k : ℤ) } o) a
      ↔ Used s.superBlock.sectorNum s.disk a
        ∧ ∀ n : Node, n.Live (I x).blocks → k ≤ n.first → a ≠ n.sector s.disk (I x) := by
    intro a
    rw [hslot.used_iff fun i => region_notMem_slot .block _ i _, hused, hlevel]
    push Not
    rfl
  have hcounters := sameCounters_gives s (levelBlocks s.disk (I x) k)
  refine ⟨_, _, freeLastBlock_eq hf hcount hk o, hf'.withDisk _, hS, rfl, ?_, hused',
    ⟨hcounters.superBlock, hcounters.group⟩, hchanges⟩
  exact hown.shrink hx (by omega) hS (fun y hy n hn => hown.sector_eq hchanges hy hn) hused'

/-- Cutting down in two steps. -/
theorem FreeSpec.trans {s₁ s₂ : FS} {ino₁ ino₂ : Inode} {l : ℕ} (hown : Owned s P I) (hx : P x)
    (hk : k ≤ (I x).blocks) (h₁ : FreeSpec s s₁ P I x o k ino₁)
    (h₂ : FreeSpec s₁ s₂ P (update I x ino₁) x o l ino₂) (hl : l ≤ k) :
    FreeSpec s s₂ P I x o l ino₂ := by
  have hblocks : (update I x ino₁ x).blocks = k := by
    rw [update_self, h₁.inode, Inode.blocks]
    exact Int.toNat_natCast k
  have hsector : ∀ n : Node, n.Live (I x).blocks →
      n.sector s₁.disk (update I x ino₁ x) = n.sector s.disk (I x) := by
    intro n hn
    rw [update_self, h₁.inode, sector_withBlockCount]
    exact hown.sector_eq h₁.changes hx hn
  have hchanges := h₂.changes
  have hused := h₂.used
  rw [h₁.sectorNum] at hchanges hused
  refine ⟨h₂.formatted, h₂.sectorNum.trans h₁.sectorNum, ?_, ?_, fun a => ?_,
    h₁.counters.trans h₂.counters, h₁.changes.trans hchanges⟩
  · rw [h₂.inode, update_self, h₁.inode]
  · have := h₂.owned
    rwa [update_idem] at this
  · rw [hused, h₁.used, hblocks]
    constructor
    · rintro ⟨⟨ha, hhigh⟩, hlow⟩
      refine ⟨ha, fun n hn hle => ?_⟩
      -- what the first step has left is cut by the second one
      rcases Nat.lt_or_ge n.first k with hlt | hge
      · rw [← hsector n hn]
        exact hlow n ⟨hn.valid, hlt⟩ hle
      · exact hhigh n hn hge
    · rintro ⟨ha, hall⟩
      refine ⟨⟨ha, fun n hn hge => hall n hn (by omega)⟩, fun n hn hle => ?_⟩
      have hn' : n.Live (I x).blocks := ⟨hn.valid, lt_of_lt_of_le hn.first_lt hk⟩
      rw [hsector n hn']
      exact hall n hn' hle

/-- The loop of `freeBlock`. The induction is on the number of blocks. -/
theorem Owned.freeLoop (hf : Formatted s) (hown : Owned s P I) (hx : P x)
    (ho : IsSlot s.superBlock.sectorNum o) {c : ℕ} (hc : (I x).blocks = c) :
    ∃ s' ino, freeBlockLoop o c s (I x) = (0, s', ino) ∧ FreeSpec s s' P I x o 0 ino := by
  induction c generalizing s I with
  | zero =>
    have hzero : I x = { I x with blockCount := ((0 : ℕ) : ℤ) } := by
      have := (hown.count x hx).1
      rw [Inode.blocks] at hc
      rw [show ((0 : ℕ) : ℤ) = (I x).blockCount by omega]
    refine ⟨s, I x, rfl, hf, rfl, hzero, ?_, fun a => ?_, SameCounters.refl _ _,
      ChangesOnly.refl _ _ _⟩
    · rwa [update_eq_self]
    · refine ⟨fun ha => ⟨ha, fun n hn => ?_⟩, fun h => h.1⟩
      have := hn.first_lt
      omega
  | succ c ih =>
    have hcount : (I x).blockCount = c + 1 := by
      have := (hown.count x hx).1
      rw [Inode.blocks] at hc
      omega
    obtain ⟨s₁, ino₁, hlast, hspec⟩ := hown.freeLast hf hx hcount ho
    have hblocks : (update I x ino₁ x).blocks = c := by
      rw [update_self, hspec.inode, Inode.blocks]
      exact Int.toNat_natCast c
    obtain ⟨s₂, ino₂, hrest, hspec'⟩ :=
      ih hspec.formatted hspec.owned (by rw [hspec.sectorNum]; exact ho) hblocks
    refine ⟨s₂, ino₂, ?_, hspec.trans hown hx (by omega) hspec' (Nat.zero_le c)⟩
    rw [update_self] at hrest
    rw [freeBlockLoop, hlast, if_neg (by norm_num)]
    exact hrest

/-- Giving back all blocks of one of the files. -/
theorem Owned.freeAll (hf : Formatted s) (hown : Owned s P I) (hx : P x)
    (ho : IsSlot s.superBlock.sectorNum o) :
    ∃ s' ino, freeBlock s (I x) o = (0, s', ino) ∧ FreeSpec s s' P I x o 0 ino :=
  hown.freeLoop hf hx ho rfl

end SeL4Sys

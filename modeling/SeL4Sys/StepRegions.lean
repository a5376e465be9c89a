import SeL4Sys.Ownership
import SeL4Sys.StepPlaces

/-!
# The regions that a request uses

A request that takes nothing from the allocators reads and writes the disk only inside regions that
are known before it starts: a lookup reads the directories that it passes, a write to a file reads
and writes the inode and the blocks of that file. `FsOp.Within R W` says that an access reads no
bytes but those of the regions `R`, writes none but those of the regions `W`, and uses no counter.
Requests whose regions do not meet are in no conflict.
-/

namespace SeL4Sys

open Bytes Interleave

variable {S : ℕ} {R R' W W' : Set Region} {s : FS}

/-- The byte is in one of the regions. -/
def Covers (S : ℕ) (R : Set Region) (p : ℕ) : Prop :=
  ∃ r ∈ R, r.Valid S ∧ r.off S ≤ p ∧ p < r.off S + r.len S

theorem Covers.mono {p : ℕ} (h : Covers S R p) (hR : R ⊆ R') : Covers S R' p := by
  have ⟨r, hr, hp⟩ := h
  exact ⟨r, hR hr, hp⟩

/-- No byte is in two regions. -/
theorem Covers.not_of_disjoint {p : ℕ} (h : Covers S R p) (hR : Disjoint R R') :
    ¬ Covers S R' p := by
  intro h'
  have ⟨r, hr, hv, hp⟩ := h
  have ⟨r', hr', hv', hp'⟩ := h'
  have hne : r ≠ r' := by
    intro heq
    exact Set.disjoint_left.mp hR hr (heq ▸ hr')
  have := Region.disjoint hv hv' hne
  omega

theorem IsData.covers {b p : ℕ} (h : IsData S b) (h₁ : b * 512 ≤ p) (h₂ : p < b * 512 + 1024) :
    Covers S (blockRegion S b) p := by
  have ⟨i, n, hi, hn, hb⟩ := h
  subst hb
  refine ⟨.data i n, ⟨i, n, rfl, rfl⟩, ⟨hi, hn⟩, ?_⟩
  rw [Region.off_data]
  exact ⟨h₁, h₂⟩

theorem IsSlot.covers {o p : ℕ} (h : IsSlot S o) (h₁ : o ≤ p) (h₂ : p < o + 128) :
    Covers S (slotRegion S o) p := by
  have ⟨i, n, hi, hn, ho⟩ := h
  subst ho
  refine ⟨.inode i n, ⟨i, n, rfl, rfl⟩, ⟨hi, hn⟩, ?_⟩
  rw [Region.off_inode]
  exact ⟨h₁, h₂⟩

/-- The access reads the disk in the regions `R`, writes it in the regions `W`, and uses no
counter. -/
def FsOp.Within (S : ℕ) (R W : Set Region) : FsOp → Prop
  | readDisk _ size num offset => ∀ p, offset ≤ p → p < offset + size * num → Covers S R p
  | writeDisk _ size num offset => ∀ p, offset ≤ p → p < offset + size * num → Covers S W p
  | sBlock => True
  | gDesc _ => True
  | _ => False

theorem FsOp.Within.mono {e : FsOp} (h : e.Within S R W) (hR : R ⊆ R') (hW : W ⊆ W') :
    e.Within S R' W' := by
  cases e with
  | readDisk _ _ _ _ => exact fun p h₁ h₂ => (h p h₁ h₂).mono hR
  | writeDisk _ _ _ _ => exact fun p h₁ h₂ => (h p h₁ h₂).mono hW
  | _ => exact h

/-- A place that such an access writes is a byte of `W`. -/
theorem FsOp.Within.of_writes {e : FsOp} (h : e.Within S R W) {l : Place} (hl : l ∈ e.writes) :
    ∃ p, l = .byte p ∧ Covers S W p := by
  cases e with
  | writeDisk _ _ _ _ =>
    have ⟨p, hp, h₁, h₂⟩ := hl
    exact ⟨p, hp, h p h₁ h₂⟩
  | readDisk _ _ _ _ => cases hl
  | sBlock => cases hl
  | gDesc _ => cases hl
  | _ => cases h

/-- A byte that such an access reads or writes is one of `R` or `W`. -/
theorem FsOp.Within.of_uses {e : FsOp} (h : e.Within S R W) {p : ℕ}
    (hp : .byte p ∈ e.reads ∨ .byte p ∈ e.writes) : Covers S (R ∪ W) p := by
  cases hp with
  | inl hread =>
    cases e with
    | readDisk _ _ _ _ =>
      have ⟨q, hq, h₁, h₂⟩ := hread
      cases hq
      exact (h p h₁ h₂).mono Set.subset_union_left
    | writeDisk _ _ _ _ => cases hread
    | sBlock => cases hread
    | gDesc _ => cases hread
    | _ => cases h
  | inr hwrite =>
    have ⟨q, hq, hcov⟩ := h.of_writes hwrite
    cases hq
    exact hcov.mono Set.subset_union_right

/-- Accesses whose regions do not meet are in no conflict. -/
theorem FsOp.Within.not_conflict {e f : FsOp} (he : e.Within S R W) (hf : f.Within S R' W')
    (h : Disjoint W (R' ∪ W')) (h' : Disjoint W' (R ∪ W)) : ¬ fsPlaces.Conflict e f := by
  intro hc
  have ⟨l, hl⟩ := hc
  cases hl with
  | inl hw =>
    have ⟨p, hp, hcov⟩ := he.of_writes hw.1
    subst hp
    exact hcov.not_of_disjoint h (hf.of_uses hw.2)
  | inr hw =>
    have ⟨p, hp, hcov⟩ := hf.of_writes hw.1
    subst hp
    exact hcov.not_of_disjoint h' (he.of_uses hw.2)

/-- The blocks of the inode are data blocks in the regions `R`. -/
def BlocksIn (S : ℕ) (R : Set Region) (d : Disk) (ino : Inode) : Prop :=
  ∀ n : Node, n.Live ino.blocks → IsData S (n.sector d ino) ∧ blockRegion S (n.sector d ino) ⊆ R

namespace Steps

/-! ## The accesses of a request that runs alone -/

/-- Every access that the request makes when it runs alone is one of `Q`. -/
def Only {α : Type} (Q : FsOp → Prop) (p : Steps α) (s : FS) : Prop :=
  ∀ e ∈ p.trace FsOp.exec s, Q e

section
variable {α β : Type} {Q Q' : FsOp → Prop} {p : Steps α} {f : α → Steps β} {s s' : FS} {a : α}

theorem Only.mono (h : Only Q p s) (hQ : ∀ e, Q e → Q' e) : Only Q' p s :=
  fun e he => hQ e (h e he)

theorem only_pure : Only Q (pure a) s := nofun

theorem only_perform {e : FsOp} (h : Q e) : Only Q (Prog.perform e) s := by
  intro e' he'
  rw [List.mem_singleton.mp he']
  exact h

/-- A request that goes on from the state and with the result of its first part. -/
theorem Only.bind (hp : Only Q p s) (hrun : p.alone s = (s', a)) (hf : Only Q (f a) s') :
    Only Q (p >>= f) s := by
  intro e he
  rw [Prog.trace_bind, List.mem_append] at he
  rw [alone] at hrun
  rw [hrun] at he
  cases he with
  | inl h => exact hp e h
  | inr h => exact hf e h

theorem Only.then_pure {g : α → β} (hp : Only Q p s) : Only Q (p >>= fun a => pure (g a)) s :=
  Only.bind hp rfl only_pure

theorem Only.map {g : α → β} (hp : Only Q p s) : Only Q (g <$> p) s := hp.then_pure

/-- The fields of `sBlock` that do not change may always be looked at. -/
theorem Only.sBlock_bind {f : SuperBlock → Steps β}
    (hf : Only (FsOp.Within S R W) (f s.superBlock.fixed) s) :
    Only (FsOp.Within S R W) (sBlock >>= f) s :=
  Only.bind (only_perform trivial) rfl hf

end

/-! ## Blocks and inodes -/

variable {ino : Inode} {k : ℕ}

theorem only_loadInode {o : ℕ} (ho : IsSlot S o) (hR : slotRegion S o ⊆ R) :
    Only (FsOp.Within S R W) (loadInode o) s := by
  have hread : Only (FsOp.Within S R W) (readDisk (fun _ => 0) inodeSize 1 o) s := by
    apply only_perform
    intro p h₁ h₂
    exact (ho.covers h₁ h₂).mono hR
  exact Only.bind hread rfl only_pure

theorem only_storeInode {o : ℕ} (ho : IsSlot S o) (hW : slotRegion S o ⊆ W) :
    Only (FsOp.Within S R W) (storeInode ino o) s := by
  apply only_perform
  intro p h₁ h₂
  exact (ho.covers h₁ h₂).mono hW


theorem only_readBlocks (hf : Formatted s) {b : ℕ} (hb : IsData S b) (hR : blockRegion S b ⊆ R)
    (buffer : Buf) :
    Only (FsOp.Within S R W) (readDisk buffer 1 s.superBlock.blockSize (b * sectorSize)) s := by
  apply only_perform
  intro p h₁ h₂
  rw [hf.blockSize, Nat.one_mul] at h₂
  exact (hb.covers h₁ h₂).mono hR

theorem only_writeSectors (hf : Formatted s) {b : ℕ} (hb : IsData S b) (hW : blockRegion S b ⊆ W)
    (buffer : Buf) : Only (FsOp.Within S R W) (writeSectors b buffer) s := by
  apply Only.sBlock_bind
  apply only_perform
  intro p h₁ h₂
  rw [SuperBlock.fixed_blockSize, hf.blockSize, Nat.one_mul] at h₂
  exact (hb.covers h₁ h₂).mono hW

section
variable (hf : Formatted s) (hR : BlocksIn S R s.disk ino)
include hf hR

theorem only_readPointers {n : Node} (hn : n.Live ino.blocks) {b : ℕ}
    (hb : b = n.sector s.disk ino) : Only (FsOp.Within S R W) (readPointers b) s := by
  subst hb
  exact Only.sBlock_bind (only_readBlocks hf (hR n hn).1 (hR n hn).2 _)

/-- The descent reads the pointer blocks above data block `k`. -/
theorem only_blockSector (hk : k < maxBlocks) (hlt : k < ino.blocks) :
    Only (FsOp.Within S R W) (blockSector ino k) s := by
  have hlive := dataNode_live hk hlt
  apply Only.sBlock_bind
  simp only [SuperBlock.fixed_bound1, SuperBlock.fixed_bound2,
    SuperBlock.fixed_bound3, SuperBlock.fixed_divider0, SuperBlock.fixed_divider1, hf.bound1,
    hf.bound2, hf.bound3, hf.divider0, hf.divider1, SuperBlock.bound0, pointerNum, if_pos hk]
  by_cases h₀ : k < 12
  · rw [if_pos h₀]
    exact only_pure
  rw [if_neg h₀]
  by_cases h₁ : k < 268
  · rw [if_pos h₁]
    rw [dataNode_singly (by omega) h₁] at hlive
    exact Only.bind (only_readPointers hf hR hlive.tail rfl) rfl only_pure
  rw [if_neg h₁]
  by_cases h₂ : k < 65804
  · rw [if_pos h₂]
    rw [dataNode_doubly (by omega) h₂] at hlive
    apply Only.bind (only_readPointers hf hR hlive.tail.tail rfl) (alone_readPointers _ _)
    rw [pointerAt_readPointers hf (by omega)]
    exact Only.bind (only_readPointers hf hR hlive.tail rfl) rfl only_pure
  rw [if_neg h₂]
  rw [dataNode_triply (by omega) hk] at hlive
  unfold maxBlocks at hk
  apply Only.bind (only_readPointers hf hR hlive.tail.tail.tail rfl) (alone_readPointers _ _)
  rw [pointerAt_readPointers hf (by omega)]
  apply Only.bind (only_readPointers hf hR hlive.tail.tail rfl) (alone_readPointers _ _)
  rw [pointerAt_readPointers hf (by omega)]
  exact Only.bind (only_readPointers hf hR hlive.tail rfl) rfl only_pure

theorem only_readBlock (hk : k < maxBlocks) (hlt : k < ino.blocks) (buffer : Buf) :
    Only (FsOp.Within S R W) (readBlock ino k buffer) s := by
  have ⟨hdata, hin⟩ := hR _ (dataNode_live hk hlt)
  apply Only.bind (only_blockSector hf hR hk hlt) (alone_blockSector _ _ _)
  rw [blockSector_eq hf hk]
  apply Only.sBlock_bind
  exact Only.bind (only_readBlocks hf hdata hin _) rfl only_pure

theorem only_writeBlock (hW : BlocksIn S W s.disk ino) (hk : k < maxBlocks) (hlt : k < ino.blocks)
    (buffer : Buf) : Only (FsOp.Within S R W) (writeBlock ino k buffer) s := by
  have ⟨hdata, hin⟩ := hW _ (dataNode_live hk hlt)
  apply Only.bind (only_blockSector hf hR hk hlt) (alone_blockSector _ _ _)
  rw [blockSector_eq hf hk]
  exact Only.bind (only_writeSectors hf hdata hin _) rfl only_pure

end

end Steps

end SeL4Sys

import SeL4Sys.StepsRun

/-!
# The places that the accesses share

The state that requests share consists of the bytes of the disk, the fields of `sBlock` and
`gDesc` that no request changes, and the counters. `fsPlaces` says which of them each access reads
and writes. Two accesses conflict when one of them writes a place that the other one uses, and
only conflicting accesses can tell in which order they were made.
-/

namespace SeL4Sys

open Bytes Interleave Function

/-- A part of the shared state. -/
inductive Place
  | byte (p : ℕ)
  | sBlock
  | gDesc (i : ℕ)
  | avail (p : Pool)
  | groupAvail (p : Pool) (i : ℕ)

namespace Place

/-- What a place holds. -/
abbrev Val : Place → Type
  | byte _ => UInt8
  | sBlock => SuperBlock
  | gDesc _ => GroupDesc
  | avail _ => ℤ
  | groupAvail _ _ => ℤ

def get : (l : Place) → FS → l.Val
  | byte p, s => s.disk p
  | sBlock, s => s.superBlock.fixed
  | gDesc i, s => (s.groupDesc i).fixed
  | avail p, s => s.superBlock.avail p
  | groupAvail p i, s => (s.groupDesc i).avail p

end Place

/-- The bytes from `off` up to `off + n`. -/
def byteRange (off n : ℕ) : Set Place := {l | ∃ p, l = .byte p ∧ off ≤ p ∧ p < off + n}

namespace FsOp

/-- The places that an access reads. `writeSuper` and `writeDescs` read the structures that they
write to the disk. -/
def reads : FsOp → Set Place
  | readDisk _ size num offset => byteRange offset (size * num)
  | writeDisk _ _ _ _ => ∅
  | sBlock => {.sBlock}
  | gDesc i => {.gDesc i}
  | avail p => {.avail p}
  | groupAvail p i => {.groupAvail p i}
  | takeAvail p => {.avail p}
  | takeGroupAvail p i => {.groupAvail p i}
  | writeSuper => {l | l = .sBlock ∨ ∃ p, l = .avail p}
  | writeDescs groupNum => {l | ∃ i, i < groupNum ∧ (l = .gDesc i ∨ ∃ p, l = .groupAvail p i)}

/-- The places that an access writes. -/
def writes : FsOp → Set Place
  | writeDisk _ size num offset => byteRange offset (size * num)
  | takeAvail p => {.avail p}
  | takeGroupAvail p i => {.groupAvail p i}
  | writeSuper => byteRange 0 (superBlockSize * 1)
  | writeDescs groupNum => byteRange superBlockSize (groupDescSize * groupNum)
  | _ => ∅

end FsOp

/-! ## The structures as places -/

theorem SuperBlock.eq_of_fixed {b b' : SuperBlock} (h : b.fixed = b'.fixed)
    (havail : ∀ p, b.avail p = b'.avail p) : b = b' := by
  have hblock := havail .block
  have hinode := havail .inode
  cases b
  cases b'
  simp only [fixed, mk.injEq] at h
  simp only [avail] at hblock hinode
  simp only [mk.injEq]
  tauto

theorem GroupDesc.eq_of_fixed {g g' : GroupDesc} (h : g.fixed = g'.fixed)
    (havail : ∀ p, g.avail p = g'.avail p) : g = g' := by
  have hblock := havail .block
  have hinode := havail .inode
  cases g
  cases g'
  simp only [fixed, mk.injEq] at h
  simp only [avail] at hblock hinode
  simp only [mk.injEq]
  tauto

@[simp] theorem SuperBlock.fixed_setAvail (b : SuperBlock) (p : Pool) (v : ℤ) :
    (b.setAvail p v).fixed = b.fixed := by
  cases p <;> rfl

@[simp] theorem GroupDesc.fixed_setAvail (g : GroupDesc) (p : Pool) (v : ℤ) :
    (g.setAvail p v).fixed = g.fixed := by
  cases p <;> rfl

theorem FS.eq_of_places {s t : FS} (h : ∀ l : Place, l.get s = l.get t) : s = t := by
  have hdisk : s.disk = t.disk := funext fun p => h (.byte p)
  have hsuper : s.superBlock = t.superBlock :=
    SuperBlock.eq_of_fixed (h .sBlock) fun p => h (.avail p)
  have hdescs : s.groupDesc = t.groupDesc :=
    funext fun i => GroupDesc.eq_of_fixed (h (.gDesc i)) fun p => h (.groupAvail p i)
  cases s
  cases t
  simp only at hdisk hsuper hdescs
  rw [hdisk, hsuper, hdescs]

/-- The places other than bytes depend on the structures alone. -/
theorem Place.get_disk (l : Place) (s : FS) (d : Disk) (h : ∀ p, l = .byte p → d p = s.disk p) :
    l.get { s with disk := d } = l.get s := by
  cases l with
  | byte p => exact h p rfl
  | sBlock => rfl
  | gDesc i => rfl
  | avail p => rfl
  | groupAvail p i => rfl

/-- A write to the disk leaves the bytes outside it alone. -/
theorem writeDisk_of_notMem {d : Disk} {buf : Buf} {size num off p : ℕ}
    (h : .byte p ∉ byteRange off (size * num)) : writeDisk d buf size num off p = d p := by
  rw [writeDisk_eq]
  apply patch_apply_out
  by_contra hp
  exact h ⟨p, rfl, by omega, by omega⟩

/-- What a write stores does not depend on the state. -/
theorem Place.get_writeDisk {s t : FS} {buf buf' : Buf} {size num off : ℕ} {l : Place}
    (h : l ∈ byteRange off (size * num)) (hbuf : ∀ i, i < size * num → buf i = buf' i) :
    l.get { s with disk := writeDisk s.disk buf size num off }
      = l.get { t with disk := writeDisk t.disk buf' size num off } := by
  have ⟨p, hl, hp₁, hp₂⟩ := h
  subst hl
  show writeDisk s.disk buf size num off p = writeDisk t.disk buf' size num off p
  rw [writeDisk_eq, writeDisk_eq, patch_apply_in hp₁ hp₂, patch_apply_in hp₁ hp₂]
  exact hbuf _ (by omega)

/-- The first `n` descriptors are all that their part of the table depends on. -/
theorem encodeDescs_congr {g g' : ℕ → GroupDesc} {n : ℕ} (h : ∀ i, i < n → g i = g' i) {p : ℕ}
    (hp : p < groupDescSize * n) : encodeDescs g p = encodeDescs g' p := by
  rw [groupDescSize] at hp
  rw [encodeDescs, encodeDescs, h (p / 32) (by omega)]

/-! ## What the accesses do to the places -/

namespace FsOp

/-- An access leaves the places alone that it does not write. -/
theorem get_exec_of_notMem (e : FsOp) (s : FS) (l : Place) (h : l ∉ e.writes) :
    l.get (e.exec s).1 = l.get s := by
  have hdisk : ∀ (buf : Buf) (size num off : ℕ), l ∉ byteRange off (size * num) →
      l.get { s with disk := SeL4Sys.writeDisk s.disk buf size num off } = l.get s := by
    intro buf size num off hl
    apply Place.get_disk
    intro p hp
    exact writeDisk_of_notMem (hp ▸ hl)
  cases e with
  | readDisk _ _ _ _ => rfl
  | writeDisk _ _ _ _ => exact hdisk _ _ _ _ h
  | sBlock => rfl
  | gDesc _ => rfl
  | avail _ => rfl
  | groupAvail _ _ => rfl
  | takeAvail p =>
    cases l with
    | byte _ => rfl
    -- the counters are places of their own, apart from the rest of the super block
    | sBlock => exact SuperBlock.fixed_setAvail _ _ _
    | gDesc _ => rfl
    | avail q =>
      exact SuperBlock.avail_setAvail_of_ne _ _ fun hq => h (congrArg Place.avail hq)
    | groupAvail _ _ => rfl
  | takeGroupAvail p i =>
    cases l with
    | byte _ => rfl
    | sBlock => rfl
    | gDesc j =>
      by_cases hj : j = i
      · subst hj
        simp only [exec, Place.get, update_self, GroupDesc.fixed_setAvail]
      · simp only [exec, Place.get, update_of_ne hj]
    | avail _ => rfl
    | groupAvail q j =>
      by_cases hj : j = i
      · subst hj
        simp only [exec, Place.get, update_self]
        exact GroupDesc.avail_setAvail_of_ne _ _ fun hq => h (by rw [hq]; rfl)
      · simp only [exec, Place.get, update_of_ne hj]
  | writeSuper => exact hdisk _ _ _ _ h
  | writeDescs _ => exact hdisk _ _ _ _ h

/-- What an access returns depends on the places that it reads. -/
theorem exec_returns_congr (e : FsOp) (s t : FS) (h : ∀ l ∈ e.reads, l.get s = l.get t) :
    (e.exec s).2 = (e.exec t).2 := by
  cases e with
  | readDisk dest size num off =>
    show SeL4Sys.readDisk s.disk dest size num off = SeL4Sys.readDisk t.disk dest size num off
    rw [readDisk_eq, readDisk_eq]
    apply patch_congr
    intro i hi
    exact h (.byte (off + i)) ⟨off + i, rfl, by omega, by omega⟩
  | writeDisk _ _ _ _ => rfl
  | sBlock => exact h .sBlock rfl
  | gDesc i => exact h (.gDesc i) rfl
  | avail p => exact h (.avail p) rfl
  | groupAvail p i => exact h (.groupAvail p i) rfl
  | takeAvail _ => rfl
  | takeGroupAvail _ _ => rfl
  | writeSuper => rfl
  | writeDescs _ => rfl

/-- What an access writes depends on the places that it reads. -/
theorem exec_stores_congr (e : FsOp) (s t : FS) (h : ∀ l ∈ e.reads, l.get s = l.get t) (l : Place)
    (hl : l ∈ e.writes) : l.get (e.exec s).1 = l.get (e.exec t).1 := by
  cases e with
  | readDisk _ _ _ _ => cases hl
  | writeDisk _ _ _ _ =>
    exact Place.get_writeDisk hl fun _ _ => rfl
  | sBlock => cases hl
  | gDesc _ => cases hl
  | avail _ => cases hl
  | groupAvail _ _ => cases hl
  | takeAvail p =>
    cases hl
    have hread : s.superBlock.avail p = t.superBlock.avail p := h (.avail p) rfl
    simp only [exec, Place.get, SuperBlock.avail_setAvail, hread]
  | takeGroupAvail p i =>
    cases hl
    have hread : (s.groupDesc i).avail p = (t.groupDesc i).avail p := h (.groupAvail p i) rfl
    simp only [exec, Place.get, update_self, GroupDesc.avail_setAvail, hread]
  | writeSuper =>
    -- the whole super block is written, its counters with it
    have hsuper : s.superBlock = t.superBlock :=
      SuperBlock.eq_of_fixed (h .sBlock (.inl rfl)) fun p => h (.avail p) (.inr ⟨p, rfl⟩)
    apply Place.get_writeDisk hl
    intro i _
    rw [hsuper]
  | writeDescs n =>
    have hdescs : ∀ i, i < n → s.groupDesc i = t.groupDesc i := by
      intro i hi
      exact GroupDesc.eq_of_fixed (h (.gDesc i) ⟨i, hi, .inl rfl⟩)
        fun p => h (.groupAvail p i) ⟨i, hi, .inr ⟨p, rfl⟩⟩
    apply Place.get_writeDisk hl
    intro i hi
    exact encodeDescs_congr hdescs hi

end FsOp

/-- The shared state as a family of places. -/
def fsPlaces : Places FsOp.exec Place where
  Val := Place.Val
  get := Place.get
  reads := FsOp.reads
  writes := FsOp.writes
  ext := fun _ _ => FS.eq_of_places
  frame := FsOp.get_exec_of_notMem
  returns := FsOp.exec_returns_congr
  stores := FsOp.exec_stores_congr

end SeL4Sys

import SeL4Sys.Eviction

/-!
# Stores of the server

What the server stores into a page of a process through `setup_projection_space` is there until it
is overwritten, as long as each of its stores is to a page that has no pagefile yet or whose entry in
the page table is dirty.
-/

namespace SeL4Sys

open Relation

variable {s s' s₁ s₂ : Sys} {p i vaddr : ℕ} {P P' : Proc} {op : VmOp} {byte : UInt8}

/-- What the process reads at an address; `none` when it faults. -/
def Proc.load (P : Proc) (vaddr : ℕ) : Option UInt8 :=
  (getCap P.vspace vaddr).map fun f => P.frame f (offsetOf vaddr)

/-- A store to the address, by the process or by the server. -/
def StoresAt (p vaddr : ℕ) : VmOp → Prop
  | .write q vaddr' _ => q = p ∧ vaddr' = vaddr
  | .project q vaddr' _ => q = p ∧ vaddr' = vaddr
  | _ => False

/-- A step that stores elsewhere and after which the process lives. -/
def KeepStep (p vaddr : ℕ) (s s' : Sys) : Prop :=
  VmStep (fun s op => ProjectsUnsaved s op ∧ ¬ StoresAt p vaddr op) s s' ∧ s'.proc p ≠ none

/-- VFrame `i` of process `p` has the page of the address, in which the byte is stored. -/
structure Sys.Holds (s : Sys) (p i vaddr : ℕ) (byte : UInt8) (P : Proc) : Prop where
  saved : s.Saved
  proc : s.proc p = some P
  lt : i < P.vframes
  reserve : ∃ r, (P.vframe i).reserve = some r ∧ pageOf r.start = pageOf vaddr
  byte : ByteAt s.toBacking P i (offsetOf vaddr) byte

theorem eq_of_pageOf_offsetOf {a b : ℕ} (hpage : pageOf a = pageOf b)
    (hoffset : offsetOf a = offsetOf b) : a = b := by
  have hmod : a % pageSize = b % pageSize := congrArg Fin.val hoffset
  rw [pageOf, pageOf] at hpage
  rw [← Nat.div_add_mod a pageSize, ← Nat.div_add_mod b pageSize, hpage, hmod]

/-- A store to the byte is a store to the address. -/
theorem Proc.Hits.eq {a : ℕ} {r : Reservation} (h : P.Hits i (offsetOf vaddr) a)
    (hr : (P.vframe i).reserve = some r) (hpage : pageOf r.start = pageOf vaddr) : a = vaddr := by
  have ⟨hoffset, r', hr', hpage'⟩ := h
  rw [hr] at hr'
  rw [← Option.some.inj hr'] at hpage'
  exact eq_of_pageOf_offsetOf (hpage'.symm.trans hpage) hoffset

theorem Sys.Holds.misses (h : s.Holds p i vaddr byte P) (hop : ¬ StoresAt p vaddr op) :
    Misses p i (offsetOf vaddr) s op := by
  have ⟨r, hr, hpage⟩ := h.reserve
  have hself : ∀ q a, q = p → a ≠ vaddr → ∀ Q, s.proc q = some Q → ¬ Q.Hits i (offsetOf vaddr) a := by
    intro q a hq hne Q hQ hhits
    rw [hq, h.proc] at hQ
    rw [← Option.some.inj hQ] at hhits
    exact hne (hhits.eq hr hpage)
  cases op with
  | write q a _ => exact fun hq => hself q a hq fun heq => hop ⟨hq, heq⟩
  | project q a _ => exact fun hq => hself q a hq fun heq => hop ⟨hq, heq⟩
  | _ => trivial

theorem Sys.Holds.step (h : s.Holds p i vaddr byte P) (hstep : KeepStep p vaddr s s') :
    ∃ P', s'.Holds p i vaddr byte P' := by
  have ⟨⟨op, hop, hexec⟩, hlive⟩ := hstep
  have ⟨P', hP'⟩ := Option.ne_none_iff_exists'.mp hlive
  have hbig := h.saved.procs.big (VmRules.all_allows s op) hexec
  have ⟨hlt, hres⟩ := hbig.reserve_eq h.saved.procs h.proc hP' h.lt
  have ⟨Q, hQ, hbyte⟩ := execVm_byteIs h.saved hop.1 (h.misses hop.2) hexec ⟨P, h.proc, h.byte⟩ hlive
  rw [hP'] at hQ
  rw [← Option.some.inj hQ] at hbyte
  have ⟨r, hr, hpage⟩ := h.reserve
  exact ⟨P', execVm_saved h.saved hop.1 hexec, hP', hlt, ⟨r, hres.trans hr, hpage⟩, hbyte⟩

theorem Sys.Holds.run (h : s.Holds p i vaddr byte P)
    (hrun : ReflTransGen (KeepStep p vaddr) s s') : ∃ P', s'.Holds p i vaddr byte P' := by
  induction hrun with
  | refl => exact ⟨P, h⟩
  | tail _ hstep ih =>
    have ⟨P', h'⟩ := ih
    exact h'.step hstep

/-- The process reads the byte when the page is in memory. -/
theorem Sys.Holds.load (h : s.Holds p i vaddr byte P) (hcap : getCap P.vspace vaddr ≠ none) :
    P.load vaddr = some byte := by
  obtain ⟨f, hf⟩ := Option.ne_none_iff_exists'.mp hcap
  have hcap := hf
  rw [getCap] at hf
  split at hf
  · rename_i g a d hmap
    rw [Option.some.inj hf] at hmap
    obtain ⟨r, hr, hpage⟩ := h.reserve
    rw [← hpage] at hmap
    have hram := (h.saved.procs p P h.proc).table.inRAM_of_mapped h.lt hr hmap
    have hbyte := h.byte
    rw [ByteAt, content_inRAM hram hr hmap, Option.map_some] at hbyte
    rw [Proc.load, hcap, Option.map_some, hbyte]
  · cases hf

/-- The store of the server itself. -/
theorem Sys.Saved.project (hs : s.Saved) (hop : ProjectsUnsaved s (.project p vaddr byte))
    (hexec : execVm s (.project p vaddr byte) = some s') :
    ∃ i P', s'.Holds p i vaddr byte P' := by
  have hsaved := execVm_saved hs hop hexec
  cases execVm_executed hexec with
  | @project _ _ f _ P a d hP hmap =>
    have htable := (hs.procs p P hP).table
    obtain ⟨i, r, hram, hr, hpage⟩ := htable.owner _ f a d hmap
    rw [← hpage] at hmap
    refine ⟨i, _, hsaved, setProc_proc_self, htable.within i hram, ⟨r, hr, hpage⟩, ?_⟩
    rw [ByteAt, content_inRAM (P := { P with frame := storeByte P.frame f vaddr byte })
      hram hr hmap, Option.map_some]
    show some (storeByte P.frame f vaddr byte f (offsetOf vaddr)) = some byte
    rw [storeByte, Function.update_self, Function.update_self]

/-! The server stores 7 into VFrame 255 of the process that has stored to VFrames 0 to 254. -/

/-- The pagefiles after a boot with an empty directory. -/
def emptyBacking : Backing := ⟨⟨[], 0⟩, fun _ _ => 0⟩

theorem Packed.load {V : View} (h : Packed P V) (hi : i < packedNum) (hne : i ≠ V.out) :
    P.load (packedAddr i) = some (V.data i 0) := by
  have ⟨f, hmap, hdata⟩ := h.page i hi hne
  rw [Proc.load, getCap, pageOf_packedAddr, hmap, Option.map_some, hdata, offsetOf_packedAddr]

end SeL4Sys

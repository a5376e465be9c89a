import SeL4Sys.Projection

/-!
# Faults at pages that have a VFrame

A fault at an address that a VFrame covers brings the page of that VFrame into memory, with the
contents of its pagefile, unless `handle_vmfault` takes the address for one of a growing stack: then
it reserves a range that is reserved already.
-/

namespace SeL4Sys

variable {s s' : Sys} {p i vaddr ip : ℕ} {P P' : Proc} {b : Backing} {r : Backing × Proc}
  {name : Name}

/-- What should come of a fault at an address that VFrame `i` of process `p` covers: its page is in
memory, with the contents of its pagefile if it had one, and there is no other VFrame. The pagefile
has the contents it had before, unless another VFrame has it too. -/
structure Serviced (s s' : Sys) (p i : ℕ) (P P' : Proc) : Prop where
  proc : s'.proc p = some P'
  inRAM : (P'.vframe i).inRAM = true
  vframes : P'.vframes = P.vframes
  restored : ∀ name, (P.vframe i).inRAM = false → (P.vframe i).pagefile = some name →
    content s'.toBacking P' i = some (s'.file name) ∧ (s.SwapOk → s'.file name = s.file name)

/-- A page has a pagefile only once all frames are in use. -/
theorem Proc.SwapBound.full (h : P.SwapBound) (hfile : (P.vframe i).pagefile = some name) :
    maxPframeNum ≤ P.pframesUsed := by
  refine (h i ?_).2
  rw [hfile]
  exact fun h => by cases h

section out
variable {P₁ : Proc} {v f : ℕ} {rv : Reservation} {d : Bool} (hpicks : Picks P P₁ v rv f d)
  (hout : (P.vframe i).inRAM = false)
include hpicks hout

/-- A page that is out of memory is not the one that is picked. -/
theorem Picks.ne_of_out : i ≠ v := by
  intro heq
  rw [heq, hpicks.inRAM] at hout
  cases hout

/-- The page that goes out is saved under another name. -/
theorem Picks.name_ne_of_out (hswap : s.SwapOk) (hP : s.proc p = some P) (hok : P.Ok)
    (hbound : P.SwapBound) (hfile : (P.vframe i).pagefile = some name) :
    name ≠ (pageOut s.swap (P₁.vframe v)).name := by
  have hne := hpicks.name_ne hswap hP hok (x := (p, i)) fun h =>
    hpicks.ne_of_out hout (congrArg Prod.snd h)
  rw [link_of_proc hP, hbound.link, hfile] at hne
  exact fun h => hne (congrArg some h)

theorem Picks.evicted_pagefile (hfile : (P.vframe i).pagefile = some name) :
    ((evicted b P₁ v rv).vframe i).pagefile = some name := by
  rw [evicted, Proc.unmap_vframe_of_ne (hpicks.ne_of_out hout), hpicks.aged.pagefile, hfile]

end out

/-- `alloc_frame` reads the pagefile of the page that comes in. -/
theorem allocFrame_restores (hP : s.proc p = some P) (hok : P.Ok) (hbound : P.SwapBound)
    (hn : i < P.vframes) (hout : (P.vframe i).inRAM = false)
    (hfile : (P.vframe i).pagefile = some name) (h : allocFrame s.toBacking P i = some r) :
    content r.1 r.2 i = some (r.1.file name) ∧ (s.SwapOk → r.1.file name = s.file name) := by
  cases allocFrame_allocated hok h with
  | new res hr hnew => exact absurd (hbound.full hfile) (not_le.mpr hnew)
  | replaced res rv v f P₁ d hr hfull hpicks =>
    have hvframe : (Picks.evicted s.toBacking P₁ v rv).vframe i = P₁.vframe i :=
      Proc.unmap_vframe_of_ne (hpicks.ne_of_out hout)
    have hcontent : content (Picks.backing s.toBacking P₁ v f) (Picks.evicted s.toBacking P₁ v rv) i
        = some ((Picks.backing s.toBacking P₁ v f).file name) := by
      rw [content_absent, hpicks.evicted_pagefile hout hfile, Option.map_some]
      rw [hvframe, hpicks.aged.inRAM]
      exact hout
    refine ⟨?_, fun hswap => ?_⟩
    · rw [← hcontent]
      refine content_bringIn (hpicks.table_evicted hok) ?_ ?_ (hpicks.unmapped_evicted hok) ?_
      · show i < P₁.vframes
        rw [hpicks.aged.vframes]
        exact hn
      · rw [hvframe, hpicks.aged.reserve]
        exact hr
      · rw [hcontent]
        rfl
    · exact Picks.backing_file_of_ne (hpicks.name_ne_of_out hout hswap hP hok hbound hfile)

theorem VmSmall.run_swapBound {R : VmRules} (hok : s.ProcsOk)
    (hbound : ∀ p P, s.proc p = some P → P.SwapBound)
    (h : Relation.ReflTransGen (VmSmall R) s s') : ∀ p P, s'.proc p = some P → P.SwapBound := by
  induction h with
  | refl => exact hbound
  | tail hrun hstep ih =>
    have hok' := VmSmall.run_procsOk hok hrun
    refine hstep.forall_proc ih ?_ fun p P _ hP hproc => hproc.swapBound (hok' p P hP) (ih p P hP)
    intro image P hnew j hj
    exact absurd ((newProcess_stackOk hnew).1.pagefile j) hj

theorem boot_swapBound {ok : Sys → VmOp → Prop} {w : Swap} {file : Name → Page}
    (hrun : VmRun ok (bootSys w file) s) (hP : s.proc p = some P) : P.SwapBound :=
  VmSmall.run_swapBound bootSys_procsOk (fun _ _ h => by cases h)
    (VmRun.small (R := VmRules.all) (fun s op _ => VmRules.all_allows s op) bootSys_procsOk hrun).1 p P hP

/-- The stack is expanded at free pages only: a reservation that fails is dereferenced. -/
theorem expandStack_empty (hok : P.Ok) (h : expandStack b P vaddr = some r) :
    P.vspace (pageOf vaddr) = .empty := by
  by_contra hne
  have hne : P.vspace (pageOf (pageOf vaddr * pageSize)) ≠ .empty := by
    rw [pageOf_mul_pageSize]
    exact hne
  have hnone : ((P.reservePage (pageOf vaddr * pageSize)).vframe P.vframes).reserve = none := by
    rw [Proc.reservePage_vframe_self, Proc.reserveRangeAt_of_ne hne]
    rfl
  have hfails := allocFrame_none (b := b) (hok.reservePage (Nat.mul_mod_left ..)) hnone
  rw [expandStack, hfails] at h
  cases h

/-- At an address of a VFrame the stack cannot be expanded. -/
theorem expandStack_covered (hok : P.Ok) (hfind : P.findVframe vaddr = some (some i)) :
    expandStack b P vaddr = none := by
  have hi := findVframe_lt hfind
  have ⟨res, hr, hcovers⟩ := findVframe_covers hfind
  have hpage := (hok.table.covers_iff hi hr).mp hcovers
  rw [Option.eq_none_iff_forall_ne_some]
  intro r h
  apply hok.table.page_ne_empty hi hr
  rw [← hpage]
  exact expandStack_empty hok h

theorem handleVmfault_pageIn {resume : Bool} (hP : s.proc p = some P)
    (hfind : P.findVframe vaddr = some (some i)) (hrange : P.expands vaddr = false)
    (h : allocFrame s.toBacking P i = some r) :
    handleVmfault s p (.vm vaddr ip) resume = some (s.setProc p r, true) := by
  simp [handleVmfault, hP, hfind, hrange, h]

theorem handleVmfault_covered {resume : Bool} (hP : s.proc p = some P) (hok : P.Ok)
    (hfind : P.findVframe vaddr = some (some i)) (hrange : P.expands vaddr = true) :
    handleVmfault s p (.vm vaddr ip) resume = none := by
  simp [handleVmfault, hP, hfind, hrange, expandStack_covered hok hfind]

/-- A new VFrame is for an address that no VFrame covers. -/
theorem handleVmfault_new {resume resume' : Bool} (hP : s.proc p = some P) (hok : P.Ok)
    (hres : P.Reserved) (h : handleVmfault s p (.vm vaddr ip) resume = some (s', resume'))
    (hP' : s'.proc p = some P') (hnew : P'.vframes ≠ P.vframes) :
    P.findVframe vaddr = some none := by
  have ⟨vframe, hfind⟩ := findVframe_isSome vaddr hres
  cases vframe with
  | none => exact hfind
  | some j =>
    have ⟨Q, hQ, hcase⟩ := handleVmfault_vm h
    rw [hP] at hQ
    rw [← Option.some.inj hQ] at hcase
    cases hcase with
    | expand _ hexpand =>
      rw [expandStack_covered hok hfind] at hexpand
      cases hexpand
    | kill _ hnone _ =>
      rw [hfind] at hnone
      cases hnone
    | leave _ hnone _ =>
      rw [hfind] at hnone
      cases hnone
    | @pageIn i r _ hfind' halloc =>
      have hi := findVframe_lt hfind'
      have ⟨res, hr⟩ := Option.ne_none_iff_exists'.mp (hres i hi)
      have ⟨b', Q', heq, _, hnum, _⟩ := allocFrame_ok (b := s.toBacking) hok hi hr
      rw [heq] at halloc
      rw [← Option.some.inj halloc, setProc_proc_self] at hP'
      rw [← Option.some.inj hP'] at hnew
      exact absurd hnum hnew

/-- A fault at an address that a VFrame covers, which is not taken for one of a growing stack. -/
theorem handleVmfault_serviced (hP : s.proc p = some P) (hok : P.Ok) (hbound : P.SwapBound)
    (hres : P.Reserved) (hfind : P.findVframe vaddr = some (some i)) (hrange : P.expands vaddr = false)
    (ip : ℕ) (resume : Bool) :
    ∃ s' P', handleVmfault s p (.vm vaddr ip) resume = some (s', true) ∧ Serviced s s' p i P P' := by
  have hi := findVframe_lt hfind
  have ⟨res, hr⟩ := Option.ne_none_iff_exists'.mp (hres i hi)
  have ⟨b', P', heq, _, hnum, _, hram, _⟩ := allocFrame_ok (b := s.toBacking) hok hi hr
  refine ⟨_, P', handleVmfault_pageIn hP hfind hrange heq, setProc_proc_self, hram, hnum, ?_⟩
  intro name hout hfile
  exact allocFrame_restores hP hok hbound hi hout hfile heq

/-! A process with its memory full that has not touched its pages since. -/

theorem warm_run_reservesOk (b : Backing) : VmRun ReservesOk (bootSys b.swap b.file)
    (shellSys b (warmProc packedNum maxPframeNum)) := by
  refine warm_run (n := 241) (k := 240) (by decide) (by decide) (by decide) (by decide) trivial ?_
    (warm_reservesOk_brk (by decide)) ?_
  · exact fun _ _ _ _ h => absurd h (Nat.not_lt_zero _)
  · intro m hstack hm
    refine warm_reservesOk_fault hstack ?_ (pageOf_shellPage m)
    simp only [stackPages] at *
    omega

theorem warm_packed (b : Backing) : Packed (warmProc packedNum maxPframeNum) warmView :=
  warmProc_packed (VmRun.procsOk bootSys_procsOk (warm_run_reservesOk b) 0 _ shellSys_proc)

theorem warmView_victim : warmView.Victim 15 := by
  have hself : warmView.credit 15 = 0 := rfl
  refine ⟨by decide, ⟨0, by decide, rfl, fun j hj => absurd hj (Nat.not_lt_zero j)⟩, by decide, ?_⟩
  intro i _ _
  rw [hself]
  exact Nat.zero_le _

/-- The fault there replaces a page of the stack, and a fault at that page ends in a reservation that
fails. -/
theorem stack_page_not_serviced : ∃ s P,
    VmRun ReservesOk (bootSys emptyBacking.swap emptyBacking.file) s ∧ s.proc 0 = some P
      ∧ P.findVframe (packedAddr 15) = some (some 15)
      ∧ (P.vframe 15).inRAM = false ∧ (P.vframe 15).pagefile = some (entryPath (pageEntry 0))
      ∧ ∀ ip resume, handleVmfault s 0 (.vm (packedAddr 15) ip) resume = none := by
  have hpacked := warm_packed emptyBacking
  have ⟨P, hexec, hpacked'⟩ := hpacked.exec_fault (b := emptyBacking) warmView_victim (by decide) 1
  have hop : ReservesOk (shellSys emptyBacking (warmProc packedNum maxPframeNum))
      (.fault 0 (packedAddr 256) 1) :=
    warm_reservesOk_fault (i := 256) (by decide) (by decide) (pageOf_shellPage 256)
  have hfind := hpacked'.findVframe (j := 15) (by decide)
  refine ⟨_, P, (warm_run_reservesOk emptyBacking).tail ⟨_, hop, hexec⟩, shellSys_proc, hfind, ?_,
    hpacked'.pagefile 15 (by decide), ?_⟩
  · rw [← Bool.not_eq_true]
    exact fun hram => (hpacked'.inRAM 15 (by decide)).mp hram rfl
  · intro ip resume
    exact handleVmfault_covered shellSys_proc hpacked'.ok hfind (hpacked'.expands (by decide))

end SeL4Sys

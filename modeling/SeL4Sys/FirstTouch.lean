import SeL4Sys.FaultService
import SeL4Sys.Victim

/-!
# The first contents of a page

A page that has not been in memory yet has no pagefile, so `page_replace` maps the frame of the page
that it has picked as it is. The page starts with zeros exactly if the process may still obtain a new
frame or the page that is picked holds nothing but zeros.
-/

namespace SeL4Sys

open Function

variable {b : Backing} {P P₁ : Proc} {i v f : ℕ} {r r' : Reservation} {d : Bool}

/-- The search picks the victim. -/
theorem Proc.Ok.victim (hok : P.Ok)
    (hloop : Proc.chanceLoop (3 * P.vframes) P.refresh = some (v, P₁)) :
    ∃ n j, P.replacer = some n ∧ n < P.vframes ∧ P.Victim n j ∧ v = P.after n j := by
  have ⟨n, hn, hlt⟩ := hok.replacer
  have ⟨i, hi⟩ := hok.someone
  have ⟨j, P₂, hloop₂, hvictim⟩ := Proc.chanceLoop_ends hn hlt ⟨i, hok.table.within i hi, hi⟩
  have hv : v = P.after n j := (Prod.mk.inj (Option.some.inj (hloop.symm.trans hloop₂))).1
  exact ⟨n, j, hn, hlt, hvictim, hv⟩

/-- A page without a pagefile gets the frame of the page that is picked as it is. -/
theorem Picks.content_replaced (hpicks : Picks P P₁ v r f d) (hok : P.Ok) (hn : i < P.vframes)
    (hout : (P.vframe i).inRAM = false) (hfile : (P.vframe i).pagefile = none)
    (hr : (P.vframe i).reserve = some r') {b' : Backing} :
    content b' (replaced b P₁ i v f r r') i = content b P v := by
  have ⟨a, hmap⟩ := hpicks.mapped
  have hram : ((replaced b P₁ i v f r r').vframe i).inRAM = true :=
    (hpicks.replaced_inRAM i).mpr (Or.inl rfl)
  have hres : ((replaced b P₁ i v f r r').vframe i).reserve = some r' :=
    (hpicks.replaced_reserve i).trans hr
  have hmap' : (replaced b P₁ i v f r r').vspace (pageOf r'.start) = .mapped f false false := by
    rw [hpicks.replaced_vspace hok hn hout hr, update_self]
  have hiv : i ≠ v := by
    intro heq
    rw [heq, hpicks.inRAM] at hout
    cases hout
  have hnone : ((evicted b P₁ v r).vframe i).pagefile = none := by
    rw [evicted, Proc.unmap_pagefile, if_neg hiv, hpicks.aged.pagefile, hfile]
  have hframe : (replaced b P₁ i v f r r').frame = P₁.frame := by
    show ((evicted b P₁ v r).pageIn _ i f).frame = _
    unfold Proc.pageIn
    rw [hnone]
    rfl
  rw [content_inRAM hram hres hmap', content_inRAM hpicks.inRAM hpicks.reserve hmap, hframe,
    hpicks.aged.frame]

/-- A new frame holds zeros. -/
theorem Proc.Ok.content_allotted (hok : P.Ok) (hn : i < P.vframes)
    (hout : (P.vframe i).inRAM = false) (hr : (P.vframe i).reserve = some r) :
    content b (P.allotted i r) i = some fun _ => 0 := by
  have hram : ((P.allotted i r).vframe i).inRAM = true :=
    (Proc.allotted_inRAM i).mpr (Or.inl rfl)
  have hres : ((P.allotted i r).vframe i).reserve = some r := (Proc.allotted_reserve i).trans hr
  have habsent := hok.table.absent i r hn hout hr
  have hmap : (P.allotted i r).vspace (pageOf r.start) = .mapped P.frameNum false false := by
    rw [hok.table.allotted_eq hn hout hr]
    show mapPage P.vspace r.start P.frameNum (pageOf r.start) = _
    rw [mapPage, if_pos habsent, update_self]
  have hframe : (P.allotted i r).frame P.frameNum = fun _ => 0 := by
    rw [hok.table.allotted_eq hn hout hr]
    exact update_self ..
  rw [content_inRAM hram hres hmap, hframe]

/-- A new frame can be obtained, or the page of the victim holds zeros. -/
def StartsZero (b : Backing) (P : Proc) : Prop := P.pframesUsed < maxPframeNum
  ∨ ∃ n j, P.replacer = some n ∧ P.Victim n j ∧ content b P (P.after n j) = some fun _ => 0

/-- The contents of a page that comes into memory for the first time. -/
theorem allocFrame_zero_iff (hok : P.Ok) (hn : i < P.vframes) (hout : (P.vframe i).inRAM = false)
    (hfile : (P.vframe i).pagefile = none) (hr : (P.vframe i).reserve = some r) :
    ∃ b' P', allocFrame b P i = some (b', P') ∧ (P'.vframe i).inRAM = true
      ∧ (content b' P' i = some (fun _ => 0) ↔ StartsZero b P) := by
  by_cases hfull : maxPframeNum ≤ P.pframesUsed
  · have ⟨v, P₁, rv, f, d, hloop, hpicks⟩ := hok.picks
    have ⟨n, j, hrep, hlt, hvictim, hv⟩ := hok.victim hloop
    refine ⟨_, _, (allocFrame_full hfull).trans (pageReplace_of_picks hloop hpicks hr),
      (hpicks.replaced_inRAM i).mpr (Or.inl rfl), ?_⟩
    rw [hpicks.content_replaced hok hn hout hfile hr, hv]
    constructor
    · intro hzero
      exact Or.inr ⟨n, j, hrep, hvictim, hzero⟩
    · intro hcond
      have ⟨n', j', hrep', hvictim', hzero⟩ := hcond.resolve_left (not_lt.mpr hfull)
      have hnn : n' = n := Option.some.inj (hrep'.symm.trans hrep)
      subst hnn
      rw [hvictim.unique hlt hvictim']
      exact hzero
  · have hnew : P.pframesUsed < maxPframeNum := not_le.mp hfull
    refine ⟨b, _, allocFrame_new hnew hr, (Proc.allotted_inRAM i).mpr (Or.inl rfl), ?_⟩
    rw [hok.content_allotted hn hout hr]
    exact ⟨fun _ => Or.inl hnew, fun _ => rfl⟩

/-- A process that has used up its frames and touches the last page of its heap: the page that is
picked has not been written either. -/
theorem allocFrame_zero_iff_heap :
    let P := warmProc packedNum maxPframeNum
    ∃ b' P', allocFrame emptyBacking P 256 = some (b', P') ∧ (P'.vframe 256).inRAM = true
      ∧ (content b' P' 256 = some (fun _ => 0) ↔ StartsZero emptyBacking P) := by
  have hpacked := warm_packed emptyBacking
  have hout : ((warmProc packedNum maxPframeNum).vframe 256).inRAM = false := by
    rw [← Bool.not_eq_true]
    exact fun hram => (hpacked.inRAM 256 (by decide)).mp hram rfl
  apply allocFrame_zero_iff hpacked.ok (hpacked.vframes ▸ by decide) hout
    (hpacked.pagefile 256 (by decide)) (hpacked.reserve 256 (by decide))

theorem filledView_victim : (filledView 256).Victim 15 := by
  have hfull : ∀ i, i < packedNum → i ≠ 256 → (filledView 256).credit i = 2 := by
    intro i hi hne
    have hlt : i < 256 := by
      simp only [packedNum] at hi
      omega
    simp [View.credit, filledView, hlt]
  refine ⟨show 15 < packedNum by decide,
    ⟨0, by decide, rfl, fun j hj => absurd hj (Nat.not_lt_zero j)⟩, show 15 ≠ 256 by decide, ?_⟩
  intro i hi hne
  rw [hfull 15 (by decide) (by decide), hfull i hi hne]

/-- A process stores to all the pages that it may have in memory and touches another page of its
heap: what it sees there is the page that was replaced. -/
theorem new_page_shows_replaced_page : ∃ P b' P',
    VmRun OwnOp (bootSys emptyBacking.swap emptyBacking.file) (shellSys emptyBacking P)
      ∧ (P.vframe 256).inRAM = false ∧ (P.vframe 256).pagefile = none
      ∧ allocFrame emptyBacking P 256 = some (b', P')
      ∧ content b' P' 256 = content emptyBacking P 15
      ∧ content b' P' 256 = some (setFirst (fun _ => 0) 1)
      ∧ content b' P' 256 ≠ some fun _ => 0 := by
  have ⟨P, hrun, hpacked⟩ :=
    filled_run emptyBacking.swap emptyBacking.file (k := 256) (by decide)
  have ⟨P', halloc, hpacked'⟩ := hpacked.replace (b := emptyBacking) filledView_victim
  have hout : (P.vframe 256).inRAM = false := by
    rw [← Bool.not_eq_true]
    exact fun hram => (hpacked.inRAM 256 (by decide)).mp hram rfl
  have hafter : content ((filledView 256).backing emptyBacking 15) P' 256
      = some (setFirst (fun _ => 0) 1) :=
    hpacked'.content (by decide) (show 256 ≠ 15 by decide)
  have hbefore : content emptyBacking P 15 = some (setFirst (fun _ => 0) 1) :=
    hpacked.content (by decide) (show 15 ≠ 256 by decide)
  refine ⟨P, _, P', hrun, hout, hpacked.pagefile 256 (by decide), halloc,
    hafter.trans hbefore.symm, hafter, ?_⟩
  rw [hafter]
  intro heq
  exact absurd (congrFun (Option.some.inj heq) 0) (by decide)

end SeL4Sys

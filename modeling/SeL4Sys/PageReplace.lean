import SeL4Sys.PageTable

/-!
# Replacing a page and allocating a frame

`page_replace` picks a VFrame in memory, saves its page if its contents are not in a pagefile yet,
unmaps it and maps its frame at the page of the faulting VFrame. In a process whose table is in
order `alloc_frame` returns and keeps it in order.
-/

namespace SeL4Sys

open Function

/-- The table of a process is in order, `heap_top` is a page aligned word, `replacer` points into
the list and some VFrame is in memory. -/
structure Proc.Ok (P : Proc) : Prop where
  table : P.Table
  aligned : P.heapTop % pageSize = 0
  word : P.heapTop < wordNum
  replacer : ∃ r, P.replacer = some r ∧ r < P.vframes
  someone : ∃ i, (P.vframe i).inRAM = true

/-- The search of `page_replace` ends at VFrame `v` with the ages of `P₁`; the page of `v` has
frame `f`, and `d` is its dirty bit. -/
structure Picks (P P₁ : Proc) (v : ℕ) (r : Reservation) (f : ℕ) (d : Bool) : Prop where
  aged : P.Aged P₁
  replacer : P₁.replacer = some v
  inRAM : (P.vframe v).inRAM = true
  reserve : (P.vframe v).reserve = some r
  mapped : ∃ a, P.vspace (pageOf r.start) = .mapped f a d
  dirty : (P₁.vframe v).dirty ≠ 0 ↔ d = true

/-- The pagefiles after `page_replace` has picked VFrame `v`. -/
def Picks.backing (b : Backing) (P₁ : Proc) (v f : ℕ) : Backing :=
  b.write (pageOut b.swap (P₁.vframe v)) (P₁.frame f)

/-- The process after the page of VFrame `v` is unmapped. -/
def Picks.evicted (b : Backing) (P₁ : Proc) (v : ℕ) (r : Reservation) : Proc :=
  P₁.unmap v r.start (pageOut b.swap (P₁.vframe v)).name

/-- The process after `page_replace`. -/
def Picks.replaced (b : Backing) (P₁ : Proc) (i v f : ℕ) (r r' : Reservation) : Proc :=
  ((evicted b P₁ v r).pageIn (backing b P₁ v f) i f).mapFrame i r'.start f

variable {b : Backing} {P P₁ : Proc} {i v f : ℕ} {r r' : Reservation} {d : Bool}

/-! ## `page_replace` -/

theorem Proc.Ok.picks (h : P.Ok) : ∃ v P₁ r f d,
    Proc.chanceLoop (3 * P.vframes) P.refresh = some (v, P₁) ∧ Picks P P₁ v r f d := by
  have ⟨r₀, hr₀, hlt⟩ := h.replacer
  have ⟨v, P₁, hloop, haged, hrep, hram, hdirty⟩ :=
    Proc.chanceLoop_refresh h.table.within hr₀ hlt h.someone
  have ⟨r, f, a, d, hres, hmap⟩ := h.table.resident v hram
  refine ⟨v, P₁, r, f, d, hloop, haged, hrep, hram, hres, ⟨a, hmap⟩, ?_⟩
  have hstatus := (Proc.refresh_status (h.table.within v hram) hram hres hmap).2
  rw [Ne, hdirty v, hstatus]
  cases d <;> simp

theorem pageIn_vframe {Q : Proc} : (Q.pageIn b i f).vframe = Q.vframe := by
  rw [Proc.pageIn]
  split <;> rfl

theorem pageIn_vframes {Q : Proc} : (Q.pageIn b i f).vframes = Q.vframes := by
  rw [Proc.pageIn]
  split <;> rfl

theorem pageIn_vspace {Q : Proc} : (Q.pageIn b i f).vspace = Q.vspace := by
  rw [Proc.pageIn]
  split <;> rfl

theorem pageIn_frameNum {Q : Proc} : (Q.pageIn b i f).frameNum = Q.frameNum := by
  rw [Proc.pageIn]
  split <;> rfl

theorem pageIn_replacer {Q : Proc} : (Q.pageIn b i f).replacer = Q.replacer := by
  rw [Proc.pageIn]
  split <;> rfl

theorem pageIn_pframesUsed {Q : Proc} : (Q.pageIn b i f).pframesUsed = Q.pframesUsed := by
  rw [Proc.pageIn]
  split <;> rfl

theorem pageIn_heapTop {Q : Proc} : (Q.pageIn b i f).heapTop = Q.heapTop := by
  rw [Proc.pageIn]
  split <;> rfl

/-- The frame of the page that is picked. -/
theorem Picks.found (hpicks : Picks P P₁ v r f d) :
    (P₁.vframe v).reserve = some r ∧ getCap P₁.vspace r.start = some f := by
  have ⟨a, hmap⟩ := hpicks.mapped
  exact ⟨(hpicks.aged.reserve v).trans hpicks.reserve, by rw [getCap, hpicks.aged.vspace, hmap]⟩

/-- `page_replace` after its search. -/
theorem pageReplace_of_picks (hloop : Proc.chanceLoop (3 * P.vframes) P.refresh = some (v, P₁))
    (hpicks : Picks P P₁ v r f d) (hr : (P.vframe i).reserve = some r') :
    pageReplace b P i = some (Picks.backing b P₁ v f, Picks.replaced b P₁ i v f r r') := by
  have ⟨hres, hcap⟩ := hpicks.found
  have htarget : (((P₁.unmap v r.start (pageOut b.swap (P₁.vframe v)).name).pageIn
      (b.write (pageOut b.swap (P₁.vframe v)) (P₁.frame f)) i f).vframe i).reserve = some r' := by
    rw [pageIn_vframe, Proc.unmap_reserve, hpicks.aged.reserve, hr]
  simp only [pageReplace, hloop, hres, hcap, htarget, Option.bind_eq_bind, Option.bind_some]
  rfl

/-- `page_replace` returns. -/
theorem pageReplace_eq (h : P.Ok) (hr : (P.vframe i).reserve = some r') : ∃ v P₁ r f d,
    Picks P P₁ v r f d
      ∧ pageReplace b P i = some (Picks.backing b P₁ v f, Picks.replaced b P₁ i v f r r') := by
  have ⟨v, P₁, r, f, d, hloop, hpicks⟩ := h.picks
  exact ⟨v, P₁, r, f, d, hpicks, pageReplace_of_picks hloop hpicks hr⟩

/-- A VFrame without a reservation ends the server. -/
theorem pageReplace_none (h : P.Ok) (hr : (P.vframe i).reserve = none) :
    pageReplace b P i = none := by
  have ⟨v, P₁, r, f, d, hloop, hpicks⟩ := h.picks
  have ⟨hres, hcap⟩ := hpicks.found
  have htarget : (((P₁.unmap v r.start (pageOut b.swap (P₁.vframe v)).name).pageIn
      (b.write (pageOut b.swap (P₁.vframe v)) (P₁.frame f)) i f).vframe i).reserve = none := by
    rw [pageIn_vframe, Proc.unmap_reserve, hpicks.aged.reserve, hr]
  simp only [pageReplace, hloop, hres, hcap, htarget, Option.bind_eq_bind, Option.bind_some,
    Option.bind_none]

namespace Picks

theorem table (hpicks : Picks P P₁ v r f d) (h : P.Ok) : P₁.Table := h.table.aged hpicks.aged

theorem table_evicted (hpicks : Picks P P₁ v r f d) (h : P.Ok) : (evicted b P₁ v r).Table := by
  apply (hpicks.table h).unmap
  · rw [hpicks.aged.inRAM]
    exact hpicks.inRAM
  · rw [hpicks.aged.reserve]
    exact hpicks.reserve

theorem unmapped_evicted (hpicks : Picks P P₁ v r f d) (h : P.Ok) :
    (evicted b P₁ v r).Unmapped f := by
  have ⟨a, hmap⟩ := hpicks.mapped
  apply (hpicks.table h).unmapped_unmap (a := a) (d := d)
  rw [hpicks.aged.vspace]
  exact hmap

theorem table_pageIn (hpicks : Picks P P₁ v r f d) (h : P.Ok) :
    ((evicted b P₁ v r).pageIn (backing b P₁ v f) i f).Table :=
  (hpicks.table_evicted h).congr (fun j => by rw [pageIn_vframe]) (fun j => by rw [pageIn_vframe])
    pageIn_vframes pageIn_vspace (le_of_eq pageIn_frameNum.symm)

theorem frame_lt (hpicks : Picks P P₁ v r f d) (h : P.Ok) : f < P.frameNum := by
  have ⟨a, hmap⟩ := hpicks.mapped
  exact h.table.obtained _ f a d hmap

theorem table_replaced (hpicks : Picks P P₁ v r f d) (h : P.Ok) (hi : i < P.vframes)
    (hr : (P.vframe i).reserve = some r') : (replaced b P₁ i v f r r').Table := by
  apply (hpicks.table_pageIn h).mapFrame
  · rw [pageIn_vframes]
    show i < P₁.vframes
    rw [hpicks.aged.vframes]
    exact hi
  · rw [pageIn_vframe, evicted, Proc.unmap_reserve, hpicks.aged.reserve, hr]
  · rw [pageIn_frameNum]
    show f < P₁.frameNum
    rw [hpicks.aged.frameNum]
    exact hpicks.frame_lt h
  · rw [Proc.Unmapped, pageIn_vspace]
    exact hpicks.unmapped_evicted h

/-! The fields of the process after `page_replace`. -/

theorem replaced_vframes (hpicks : Picks P P₁ v r f d) :
    (replaced b P₁ i v f r r').vframes = P.vframes := by
  rw [replaced, Proc.mapFrame_vframes, pageIn_vframes]
  exact hpicks.aged.vframes

theorem replaced_replacer (hpicks : Picks P P₁ v r f d) :
    (replaced b P₁ i v f r r').replacer = some v := by
  show ((evicted b P₁ v r).pageIn _ i f).replacer = _
  rw [pageIn_replacer]
  exact hpicks.replacer

theorem replaced_pframesUsed (hpicks : Picks P P₁ v r f d) :
    (replaced b P₁ i v f r r').pframesUsed = P.pframesUsed := by
  show ((evicted b P₁ v r).pageIn _ i f).pframesUsed = _
  rw [pageIn_pframesUsed]
  exact hpicks.aged.pframesUsed

theorem replaced_heapTop (hpicks : Picks P P₁ v r f d) :
    (replaced b P₁ i v f r r').heapTop = P.heapTop := by
  show ((evicted b P₁ v r).pageIn _ i f).heapTop = _
  rw [pageIn_heapTop]
  exact hpicks.aged.heapTop

theorem replaced_frameNum (hpicks : Picks P P₁ v r f d) :
    (replaced b P₁ i v f r r').frameNum = P.frameNum := by
  show ((evicted b P₁ v r).pageIn _ i f).frameNum = _
  rw [pageIn_frameNum]
  exact hpicks.aged.frameNum

theorem replaced_reserve (hpicks : Picks P P₁ v r f d) (j : ℕ) :
    ((replaced b P₁ i v f r r').vframe j).reserve = (P.vframe j).reserve := by
  rw [replaced, Proc.mapFrame_reserve, pageIn_vframe, evicted, Proc.unmap_reserve]
  exact hpicks.aged.reserve j

theorem replaced_inRAM (hpicks : Picks P P₁ v r f d) (j : ℕ) :
    ((replaced b P₁ i v f r r').vframe j).inRAM = true
      ↔ j = i ∨ ((P.vframe j).inRAM = true ∧ j ≠ v) := by
  rw [replaced, Proc.mapFrame_inRAM, pageIn_vframe, evicted, Proc.unmap_inRAM, hpicks.aged.inRAM]

theorem replaced_pagefile (hpicks : Picks P P₁ v r f d) (j : ℕ) :
    ((replaced b P₁ i v f r r').vframe j).pagefile
      = if j = v then some (pageOut b.swap (P₁.vframe v)).name else (P.vframe j).pagefile := by
  rw [replaced, Proc.mapFrame_pagefile, pageIn_vframe, evicted, Proc.unmap_pagefile,
    hpicks.aged.pagefile]

/-- The frame moves from one page to the other. -/
theorem replaced_vspace (hpicks : Picks P P₁ v r f d) (h : P.Ok) (hn : i < P.vframes)
    (hi : (P.vframe i).inRAM = false) (hr : (P.vframe i).reserve = some r') :
    (replaced b P₁ i v f r r').vspace = update
      (update P.vspace (pageOf r.start) .reserved) (pageOf r'.start)
        (.mapped f false false) := by
  have hiv : i ≠ v := by
    intro heq
    rw [heq, hpicks.inRAM] at hi
    cases hi
  have hpages : pageOf r'.start ≠ pageOf r.start := fun heq =>
    hiv (h.table.distinct i v r' r hn (h.table.within v hpicks.inRAM) hr hpicks.reserve heq)
  have hvspace : (evicted b P₁ v r).vspace = update P.vspace (pageOf r.start) .reserved := by
    show update P₁.vspace _ _ = _
    rw [hpicks.aged.vspace]
  have habsent : (evicted b P₁ v r).vspace (pageOf r'.start) = .reserved := by
    rw [hvspace, update_of_ne hpages]
    exact h.table.absent i r' hn hi hr
  show mapPage ((evicted b P₁ v r).pageIn _ i f).vspace r'.start f = _
  rw [pageIn_vspace, mapPage, if_pos habsent, hvspace]

theorem ok (hpicks : Picks P P₁ v r f d) (h : P.Ok) (hi : i < P.vframes)
    (hr : (P.vframe i).reserve = some r') : (replaced b P₁ i v f r r').Ok where
  table := hpicks.table_replaced h hi hr
  aligned := by
    rw [hpicks.replaced_heapTop]
    exact h.aligned
  word := by
    rw [hpicks.replaced_heapTop]
    exact h.word
  replacer := by
    refine ⟨v, hpicks.replaced_replacer, ?_⟩
    rw [hpicks.replaced_vframes]
    exact h.table.within v hpicks.inRAM
  someone := ⟨i, (hpicks.replaced_inRAM i).mpr (Or.inl rfl)⟩

end Picks

/-! ## `alloc_frame` -/

/-- The process after `alloc_frame` has mapped a new frame. -/
def Proc.allotted (P : Proc) (i : ℕ) (r : Reservation) : Proc :=
  let Q := { P with pframesUsed := P.pframesUsed + 1 }.newPagesAtVaddr r.start
  Q.setVframe i { Q.vframe i with inRAM := true }

theorem allocFrame_full (hfull : maxPframeNum ≤ P.pframesUsed) :
    allocFrame b P i = pageReplace b P i := by
  rw [allocFrame, if_pos hfull]

theorem allocFrame_new (hnew : P.pframesUsed < maxPframeNum)
    (hr : (P.vframe i).reserve = some r) : allocFrame b P i = some (b, P.allotted i r) := by
  rw [allocFrame, if_neg (by omega), hr]
  rfl

theorem allocFrame_none (h : P.Ok) (hr : (P.vframe i).reserve = none) :
    allocFrame b P i = none := by
  by_cases hfull : maxPframeNum ≤ P.pframesUsed
  · rw [allocFrame_full hfull, pageReplace_none h hr]
  · rw [allocFrame, if_neg hfull, hr]
    rfl

namespace Proc

/-- A VFrame that is in memory already keeps its frame. -/
theorem Table.allotted_inRAM (h : P.Table) (hi : (P.vframe i).inRAM = true)
    (hr : (P.vframe i).reserve = some r) :
    P.allotted i r = { P with pframesUsed := P.pframesUsed + 1 } := by
  have ⟨f, a, d, hmap⟩ := h.mapped hi hr
  have hbusy : P.vspace (pageOf r.start) ≠ .reserved := by
    rw [hmap]
    exact fun h => by cases h
  have hvframe : update P.vframe i { P.vframe i with inRAM := true } = P.vframe := by
    rw [update_eq_self_iff, ← hi]
  simp only [allotted, newPagesAtVaddr, if_neg hbusy, setVframe, hvframe]

/-- A page that is reserved gets the new frame. -/
theorem allotted_of_reserved (h : P.vspace (pageOf r.start) = .reserved) :
    P.allotted i r = ({ P with
      pframesUsed := P.pframesUsed + 1
      frame := update P.frame P.frameNum fun _ => 0
      frameNum := P.frameNum + 1 }).mapFrame i r.start P.frameNum := by
  simp only [allotted, newPagesAtVaddr, if_pos h, setVframe, mapFrame]

/-- A VFrame that is not in memory gets the new frame. -/
theorem Table.allotted_eq (h : P.Table) (hn : i < P.vframes) (hi : (P.vframe i).inRAM = false)
    (hr : (P.vframe i).reserve = some r) :
    P.allotted i r = ({ P with
      pframesUsed := P.pframesUsed + 1
      frame := update P.frame P.frameNum fun _ => 0
      frameNum := P.frameNum + 1 }).mapFrame i r.start P.frameNum :=
  allotted_of_reserved (h.absent i r hn hi hr)

theorem Table.allotted (h : P.Table) (hn : i < P.vframes) (hr : (P.vframe i).reserve = some r) :
    (P.allotted i r).Table := by
  by_cases hi : (P.vframe i).inRAM = true
  · rw [h.allotted_inRAM hi hr]
    exact h.congr (fun _ => rfl) (fun _ => rfl) rfl rfl le_rfl
  · rw [h.allotted_eq hn (by simpa using hi) hr]
    have hmore : Table { P with
        pframesUsed := P.pframesUsed + 1
        frame := update P.frame P.frameNum fun _ => 0
        frameNum := P.frameNum + 1 } := h.congr (fun _ => rfl) (fun _ => rfl) rfl rfl (Nat.le_succ _)
    apply hmore.mapFrame hn hr (Nat.lt_succ_self _)
    -- the frame is new, so it is mapped nowhere
    intro page a d hmap
    have := h.obtained page _ a d hmap
    omega

/-! The fields of the process after a new frame. -/

theorem newPagesAtVaddr_vframe {vaddr : ℕ} : (P.newPagesAtVaddr vaddr).vframe = P.vframe := by
  rw [newPagesAtVaddr]
  split_ifs <;> rfl

theorem allotted_vframes : (P.allotted i r).vframes = P.vframes := by
  simp only [Proc.allotted, newPagesAtVaddr, setVframe]
  split_ifs <;> rfl

theorem allotted_replacer : (P.allotted i r).replacer = P.replacer := by
  simp only [Proc.allotted, newPagesAtVaddr, setVframe]
  split_ifs <;> rfl

theorem allotted_pframesUsed : (P.allotted i r).pframesUsed = P.pframesUsed + 1 := by
  simp only [Proc.allotted, newPagesAtVaddr, setVframe]
  split_ifs <;> rfl

theorem allotted_heapTop : (P.allotted i r).heapTop = P.heapTop := by
  simp only [Proc.allotted, newPagesAtVaddr, setVframe]
  split_ifs <;> rfl

theorem allotted_vframe_self :
    (P.allotted i r).vframe i = { P.vframe i with inRAM := true } := by
  simp only [Proc.allotted, setVframe, update_self, newPagesAtVaddr_vframe]

theorem allotted_vframe_of_ne {j : ℕ} (h : j ≠ i) : (P.allotted i r).vframe j = P.vframe j := by
  simp only [Proc.allotted, setVframe, update_of_ne h, newPagesAtVaddr_vframe]

theorem allotted_reserve (j : ℕ) : ((P.allotted i r).vframe j).reserve = (P.vframe j).reserve := by
  by_cases h : j = i
  · rw [h, allotted_vframe_self]
  · rw [allotted_vframe_of_ne h]

theorem allotted_pagefile (j : ℕ) :
    ((P.allotted i r).vframe j).pagefile = (P.vframe j).pagefile := by
  by_cases h : j = i
  · rw [h, allotted_vframe_self]
  · rw [allotted_vframe_of_ne h]

theorem allotted_inRAM (j : ℕ) :
    ((P.allotted i r).vframe j).inRAM = true ↔ j = i ∨ (P.vframe j).inRAM = true := by
  by_cases h : j = i
  · rw [h, allotted_vframe_self]
    simp
  · rw [allotted_vframe_of_ne h]
    simp [h]

theorem Ok.allotted (h : P.Ok) (hn : i < P.vframes) (hr : (P.vframe i).reserve = some r) :
    (P.allotted i r).Ok where
  table := h.table.allotted hn hr
  aligned := by
    rw [allotted_heapTop]
    exact h.aligned
  word := by
    rw [allotted_heapTop]
    exact h.word
  replacer := by
    rw [allotted_replacer, allotted_vframes]
    exact h.replacer
  someone := ⟨i, (allotted_inRAM i).mpr (Or.inl rfl)⟩

end Proc

/-- How a call of `alloc_frame` that returns has ended: with a new frame, or with the frame of a page that
was replaced. -/
inductive Allocated (b : Backing) (P : Proc) (i : ℕ) : Backing × Proc → Prop
  | new (r : Reservation) (hr : (P.vframe i).reserve = some r) (hnew : P.pframesUsed < maxPframeNum) :
      Allocated b P i (b, P.allotted i r)
  | replaced (r rv : Reservation) (v f : ℕ) (P₁ : Proc) (d : Bool) (hr : (P.vframe i).reserve = some r)
      (hfull : maxPframeNum ≤ P.pframesUsed) (hpicks : Picks P P₁ v rv f d) :
      Allocated b P i (Picks.backing b P₁ v f, Picks.replaced b P₁ i v f rv r)

theorem allocFrame_allocated {x : Backing × Proc} (hok : P.Ok) (h : allocFrame b P i = some x) :
    Allocated b P i x := by
  match hr : (P.vframe i).reserve with
  | none =>
    rw [allocFrame_none hok hr] at h
    cases h
  | some res =>
    by_cases hfull : maxPframeNum ≤ P.pframesUsed
    · obtain ⟨v, P₁, rv, f, d, hpicks, heq⟩ := pageReplace_eq (b := b) hok hr
      rw [allocFrame_full hfull, heq] at h
      rw [← Option.some.inj h]
      exact .replaced res rv v f P₁ d hr hfull hpicks
    · rw [allocFrame_new (by omega) hr] at h
      rw [← Option.some.inj h]
      exact .new res hr (by omega)

/-- `alloc_frame` returns for every VFrame with a reservation, and the VFrame is in memory. -/
theorem allocFrame_ok (h : P.Ok) (hi : i < P.vframes) (hr : (P.vframe i).reserve = some r) :
    ∃ b' P', allocFrame b P i = some (b', P') ∧ P'.Ok ∧ P'.vframes = P.vframes
      ∧ P'.heapTop = P.heapTop ∧ (P'.vframe i).inRAM = true
      ∧ ∀ j, (P'.vframe j).reserve = (P.vframe j).reserve := by
  by_cases hfull : maxPframeNum ≤ P.pframesUsed
  · have ⟨v, P₁, rv, f, d, hpicks, heq⟩ := pageReplace_eq (b := b) h hr
    refine ⟨_, _, (allocFrame_full hfull).trans heq, hpicks.ok h hi hr,
      hpicks.replaced_vframes, hpicks.replaced_heapTop, ?_, hpicks.replaced_reserve⟩
    exact (hpicks.replaced_inRAM i).mpr (Or.inl rfl)
  · refine ⟨b, P.allotted i r, allocFrame_new (by omega) hr, h.allotted hi hr,
      Proc.allotted_vframes, Proc.allotted_heapTop, ?_, Proc.allotted_reserve⟩
    exact (Proc.allotted_inRAM i).mpr (Or.inl rfl)

end SeL4Sys

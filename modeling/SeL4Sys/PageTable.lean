import SeL4Sys.SecondChance

/-!
# The table of a process

What holds of the VFrames, the address space and the frames of a process at all times, and how the
parts of `page_replace`, `alloc_frame`, `expand_stack` and `SYSCALL_BRK` keep it: a VFrame is
unmapped, a frame that is mapped nowhere is mapped at the page of a VFrame, a page is reserved.
-/

namespace SeL4Sys

open Function

/-- The VFrames agree with the address space: a VFrame in memory has a frame at its page, another
one a page that is only reserved; no two VFrames have the same page, and a frame is mapped at one
page, which is the page of a VFrame in memory. -/
structure Proc.Table (P : Proc) : Prop where
  within : P.Within
  range : ∀ i r, i < P.vframes → (P.vframe i).reserve = some r →
    r.start % pageSize = 0 ∧ r.stop = r.start + pageSize
  resident : ∀ i, (P.vframe i).inRAM = true →
    ∃ r f a d, (P.vframe i).reserve = some r ∧ P.vspace (pageOf r.start) = .mapped f a d
  absent : ∀ i r, i < P.vframes → (P.vframe i).inRAM = false → (P.vframe i).reserve = some r →
    P.vspace (pageOf r.start) = .reserved
  distinct : ∀ i j r r', i < P.vframes → j < P.vframes → (P.vframe i).reserve = some r →
    (P.vframe j).reserve = some r' → pageOf r.start = pageOf r'.start → i = j
  owner : ∀ page f a d, P.vspace page = .mapped f a d →
    ∃ i r, (P.vframe i).inRAM = true ∧ (P.vframe i).reserve = some r ∧ pageOf r.start = page
  obtained : ∀ page f a d, P.vspace page = .mapped f a d → f < P.frameNum
  single : ∀ page page' f a d a' d', P.vspace page = .mapped f a d →
    P.vspace page' = .mapped f a' d' → page = page'

/-- A frame that is mapped nowhere. -/
def Proc.Unmapped (P : Proc) (f : ℕ) : Prop := ∀ page a d, P.vspace page ≠ .mapped f a d

namespace Proc

variable {P P' : Proc} {i j v f : ℕ} {r r' : Reservation}

/-! ## Parts that the table does not depend on -/

/-- The table depends on the reservations, on which VFrames are in memory and on the address space
only. -/
theorem Table.congr (h : P.Table) (hreserve : ∀ i, (P'.vframe i).reserve = (P.vframe i).reserve)
    (hinRAM : ∀ i, (P'.vframe i).inRAM = (P.vframe i).inRAM) (hvframes : P'.vframes = P.vframes)
    (hvspace : P'.vspace = P.vspace) (hnum : P.frameNum ≤ P'.frameNum) : P'.Table where
  within i hi := by
    rw [hinRAM] at hi
    rw [hvframes]
    exact h.within i hi
  range i r hi hr := by
    rw [hvframes] at hi
    rw [hreserve] at hr
    exact h.range i r hi hr
  resident i hi := by
    rw [hinRAM] at hi
    rw [hreserve, hvspace]
    exact h.resident i hi
  absent i r hi hram hr := by
    rw [hvframes] at hi
    rw [hinRAM] at hram
    rw [hreserve] at hr
    rw [hvspace]
    exact h.absent i r hi hram hr
  distinct i j r r' hi hj hr hr' := by
    rw [hvframes] at hi hj
    rw [hreserve] at hr hr'
    exact h.distinct i j r r' hi hj hr hr'
  owner page f a d hmap := by
    rw [hvspace] at hmap
    have ⟨i, r, hram, hr, hpage⟩ := h.owner page f a d hmap
    exact ⟨i, r, by rw [hinRAM]; exact hram, by rw [hreserve]; exact hr, hpage⟩
  obtained page f a d hmap := by
    rw [hvspace] at hmap
    exact lt_of_lt_of_le (h.obtained page f a d hmap) hnum
  single page page' f a d a' d' hmap hmap' := by
    rw [hvspace] at hmap hmap'
    exact h.single page page' f a d a' d' hmap hmap'

theorem Table.aged (h : P.Table) (haged : P.Aged P') : P'.Table :=
  h.congr haged.reserve haged.inRAM haged.vframes haged.vspace (le_of_eq haged.frameNum.symm)

/-- The frame of a VFrame in memory. -/
theorem Table.mapped (h : P.Table) (hi : (P.vframe i).inRAM = true)
    (hr : (P.vframe i).reserve = some r) : ∃ f a d, P.vspace (pageOf r.start) = .mapped f a d := by
  have ⟨r₁, f, a, d, hr₁, hmap⟩ := h.resident i hi
  rw [hr] at hr₁
  rw [Option.some.inj hr₁]
  exact ⟨f, a, d, hmap⟩

theorem Table.inRAM_of_mapped (h : P.Table) (hi : i < P.vframes)
    (hr : (P.vframe i).reserve = some r) {a d : Bool}
    (hmap : P.vspace (pageOf r.start) = .mapped f a d) : (P.vframe i).inRAM = true := by
  by_contra hram
  have := h.absent i r hi (by simpa using hram) hr
  rw [hmap] at this
  cases this

/-- Two VFrames with the same frame are one. -/
theorem Table.eq_of_frame (h : P.Table) (hi : (P.vframe i).inRAM = true)
    (hj : (P.vframe j).inRAM = true) (hr : (P.vframe i).reserve = some r)
    (hr' : (P.vframe j).reserve = some r') {a d a' d' : Bool}
    (hmap : P.vspace (pageOf r.start) = .mapped f a d)
    (hmap' : P.vspace (pageOf r'.start) = .mapped f a' d') : i = j :=
  h.distinct i j r r' (h.within i hi) (h.within j hj) hr hr' (h.single _ _ f a d a' d' hmap hmap')

/-- A VFrame covers the addresses of its page. -/
theorem Table.covers_iff (h : P.Table) (hi : i < P.vframes) (hr : (P.vframe i).reserve = some r)
    {vaddr : ℕ} : r.covers vaddr = true ↔ pageOf vaddr = pageOf r.start := by
  have ⟨hstart, hstop⟩ := h.range i r hi hr
  rw [Reservation.covers, Bool.and_eq_true, decide_eq_true_eq, decide_eq_true_eq, hstop, pageOf,
    pageOf]
  simp only [pageSize] at *
  omega

/-! ## Unmapping a page -/

section unmap
variable {name : Name}

@[simp]
theorem unmap_vframe_self :
    (P.unmap v r.start name).vframe v = { P.vframe v with pagefile := some name, inRAM := false } :=
  update_self ..

theorem unmap_vframe_of_ne (h : j ≠ v) : (P.unmap v r.start name).vframe j = P.vframe j :=
  update_of_ne h ..

@[simp]
theorem unmap_reserve : ((P.unmap v r.start name).vframe j).reserve = (P.vframe j).reserve := by
  by_cases h : j = v
  · rw [h, unmap_vframe_self]
  · rw [unmap_vframe_of_ne h]

theorem unmap_inRAM :
    ((P.unmap v r.start name).vframe j).inRAM = true ↔ (P.vframe j).inRAM = true ∧ j ≠ v := by
  by_cases h : j = v
  · rw [h, unmap_vframe_self]
    simp
  · rw [unmap_vframe_of_ne h]
    simp [h]

theorem unmap_pagefile : ((P.unmap v r.start name).vframe j).pagefile
    = if j = v then some name else (P.vframe j).pagefile := by
  by_cases h : j = v
  · rw [h, unmap_vframe_self, if_pos rfl]
  · rw [unmap_vframe_of_ne h, if_neg h]

theorem unmap_vspace_self : (P.unmap v r.start name).vspace (pageOf r.start) = .reserved :=
  update_self ..

theorem unmap_vspace_of_ne {page : ℕ} (h : page ≠ pageOf r.start) :
    (P.unmap v r.start name).vspace page = P.vspace page :=
  update_of_ne h ..

/-- What is still mapped was mapped before, at another page. -/
theorem unmap_mapped {page : ℕ} {a d : Bool}
    (h : (P.unmap v r.start name).vspace page = .mapped f a d) :
    page ≠ pageOf r.start ∧ P.vspace page = .mapped f a d := by
  have hne : page ≠ pageOf r.start := by
    intro heq
    rw [heq, unmap_vspace_self] at h
    cases h
  rw [unmap_vspace_of_ne hne] at h
  exact ⟨hne, h⟩

theorem Table.unmap (h : P.Table) (hv : (P.vframe v).inRAM = true)
    (hr : (P.vframe v).reserve = some r) : (P.unmap v r.start name).Table := by
  have hvn := h.within v hv
  refine ⟨?_, ?_, ?_, ?_, ?_, ?_, ?_, ?_⟩
  · intro j hj
    exact h.within j (unmap_inRAM.mp hj).1
  · intro j r₁ hj hr₁
    rw [unmap_reserve] at hr₁
    exact h.range j r₁ hj hr₁
  · intro j hj
    have ⟨hram, hne⟩ := unmap_inRAM.mp hj
    have ⟨r₁, f, a, d, hr₁, hmap⟩ := h.resident j hram
    have hpage : pageOf r₁.start ≠ pageOf r.start :=
      fun heq => hne (h.distinct j v r₁ r (h.within j hram) hvn hr₁ hr heq)
    refine ⟨r₁, f, a, d, ?_, ?_⟩
    · rw [unmap_reserve]
      exact hr₁
    · rw [unmap_vspace_of_ne hpage]
      exact hmap
  · intro j r₁ hj hram hr₁
    rw [unmap_reserve] at hr₁
    by_cases hpage : pageOf r₁.start = pageOf r.start
    · rw [hpage, unmap_vspace_self]
    · have hne : j ≠ v := by
        intro heq
        rw [heq, hr] at hr₁
        rw [Option.some.inj hr₁] at hpage
        exact hpage rfl
      rw [unmap_vframe_of_ne hne] at hram
      rw [unmap_vspace_of_ne hpage]
      exact h.absent j r₁ hj hram hr₁
  · intro i j r₁ r₂ hi hj hr₁ hr₂
    rw [unmap_reserve] at hr₁ hr₂
    exact h.distinct i j r₁ r₂ hi hj hr₁ hr₂
  · intro page f a d hmap
    have ⟨hne, hold⟩ := unmap_mapped hmap
    have ⟨j, r₁, hram, hr₁, hpage⟩ := h.owner page f a d hold
    refine ⟨j, r₁, unmap_inRAM.mpr ⟨hram, ?_⟩, ?_, hpage⟩
    · intro heq
      rw [heq, hr] at hr₁
      rw [Option.some.inj hr₁] at hne
      exact hne hpage.symm
    · rw [unmap_reserve]
      exact hr₁
  · intro page f a d hmap
    exact h.obtained page f a d (unmap_mapped hmap).2
  · intro page page' f a d a' d' hmap hmap'
    exact h.single page page' f a d a' d' (unmap_mapped hmap).2 (unmap_mapped hmap').2

/-- The frame of the page is free to be mapped elsewhere. -/
theorem Table.unmapped_unmap (h : P.Table) {a d : Bool}
    (hmap : P.vspace (pageOf r.start) = .mapped f a d) : (P.unmap v r.start name).Unmapped f := by
  intro page a' d' hmap'
  have ⟨hne, hold⟩ := unmap_mapped hmap'
  exact hne (h.single page _ f a' d' a d hold hmap)

end unmap

/-! ## Mapping a frame -/

section mapFrame

@[simp]
theorem mapFrame_vframes : (P.mapFrame i r.start f).vframes = P.vframes := rfl

theorem mapFrame_vframe_self :
    (P.mapFrame i r.start f).vframe i = { P.vframe i with inRAM := true } :=
  update_self ..

theorem mapFrame_vframe_of_ne (h : j ≠ i) : (P.mapFrame i r.start f).vframe j = P.vframe j :=
  update_of_ne h ..

@[simp]
theorem mapFrame_reserve : ((P.mapFrame i r.start f).vframe j).reserve = (P.vframe j).reserve := by
  by_cases h : j = i
  · rw [h, mapFrame_vframe_self]
  · rw [mapFrame_vframe_of_ne h]

@[simp]
theorem mapFrame_pagefile :
    ((P.mapFrame i r.start f).vframe j).pagefile = (P.vframe j).pagefile := by
  by_cases h : j = i
  · rw [h, mapFrame_vframe_self]
  · rw [mapFrame_vframe_of_ne h]

theorem mapFrame_inRAM :
    ((P.mapFrame i r.start f).vframe j).inRAM = true ↔ j = i ∨ (P.vframe j).inRAM = true := by
  by_cases h : j = i
  · rw [h, mapFrame_vframe_self]
    simp
  · rw [mapFrame_vframe_of_ne h]
    simp [h]

/-- For a VFrame in memory the address space stays as it is. -/
theorem Table.mapFrame_vspace_inRAM (h : P.Table) (hi : (P.vframe i).inRAM = true)
    (hr : (P.vframe i).reserve = some r) : (P.mapFrame i r.start f).vspace = P.vspace := by
  have ⟨g, a, d, hmap⟩ := h.mapped hi hr
  rw [mapFrame, mapPage, if_neg]
  rw [hmap]
  exact fun h => by cases h

/-- For another VFrame the frame is mapped at its page. -/
theorem Table.mapFrame_vspace (h : P.Table) (hn : i < P.vframes) (hi : (P.vframe i).inRAM = false)
    (hr : (P.vframe i).reserve = some r) : (P.mapFrame i r.start f).vspace
      = update P.vspace (pageOf r.start) (.mapped f false false) := by
  rw [mapFrame, mapPage, if_pos (h.absent i r hn hi hr)]

theorem Table.mapFrame (h : P.Table) (hn : i < P.vframes) (hr : (P.vframe i).reserve = some r)
    (hf : f < P.frameNum) (hfree : P.Unmapped f) : (P.mapFrame i r.start f).Table := by
  by_cases hi : (P.vframe i).inRAM = true
  · -- a VFrame in memory keeps its frame
    have hvspace := h.mapFrame_vspace_inRAM (f := f) hi hr
    have hvframe : (P.mapFrame i r.start f).vframe = P.vframe := by
      funext j
      by_cases hj : j = i
      · rw [hj, mapFrame_vframe_self, ← hi]
      · rw [mapFrame_vframe_of_ne hj]
    exact h.congr (fun j => by rw [hvframe]) (fun j => by rw [hvframe]) rfl hvspace le_rfl
  have hi : (P.vframe i).inRAM = false := by simpa using hi
  have hvspace := h.mapFrame_vspace (f := f) hn hi hr
  have hself : (P.mapFrame i r.start f).vspace (pageOf r.start) = .mapped f false false := by
    rw [hvspace, update_self]
  have hother : ∀ page, page ≠ pageOf r.start → (P.mapFrame i r.start f).vspace page = P.vspace page := by
    intro page hne
    rw [hvspace, update_of_ne hne]
  refine ⟨?_, ?_, ?_, ?_, ?_, ?_, ?_, ?_⟩
  · intro j hj
    rcases mapFrame_inRAM.mp hj with heq | hram
    · rw [heq]
      exact hn
    · exact h.within j hram
  · intro j r₁ hj hr₁
    rw [mapFrame_reserve] at hr₁
    exact h.range j r₁ hj hr₁
  · intro j hj
    rcases mapFrame_inRAM.mp hj with heq | hram
    · refine ⟨r, f, false, false, ?_, hself⟩
      rw [mapFrame_reserve, heq]
      exact hr
    · have ⟨r₁, g, a, d, hr₁, hmap⟩ := h.resident j hram
      have hne : pageOf r₁.start ≠ pageOf r.start := by
        intro heq
        rw [heq, h.absent i r hn hi hr] at hmap
        cases hmap
      refine ⟨r₁, g, a, d, ?_, ?_⟩
      · rw [mapFrame_reserve]
        exact hr₁
      · rw [hother _ hne]
        exact hmap
  · intro j r₁ hj hram hr₁
    rw [mapFrame_reserve] at hr₁
    have hji : j ≠ i := by
      intro heq
      rw [heq, mapFrame_vframe_self] at hram
      cases hram
    rw [mapFrame_vframe_of_ne hji] at hram
    have hne : pageOf r₁.start ≠ pageOf r.start := fun heq => hji (h.distinct j i r₁ r hj hn hr₁ hr heq)
    rw [hother _ hne]
    exact h.absent j r₁ hj hram hr₁
  · intro j k r₁ r₂ hj hk hr₁ hr₂
    rw [mapFrame_reserve] at hr₁ hr₂
    exact h.distinct j k r₁ r₂ hj hk hr₁ hr₂
  · intro page g a d hmap
    by_cases hpage : page = pageOf r.start
    · refine ⟨i, r, mapFrame_inRAM.mpr (Or.inl rfl), ?_, hpage.symm⟩
      rw [mapFrame_reserve]
      exact hr
    · rw [hother _ hpage] at hmap
      have ⟨j, r₁, hram, hr₁, hpage₁⟩ := h.owner page g a d hmap
      refine ⟨j, r₁, mapFrame_inRAM.mpr (Or.inr hram), ?_, hpage₁⟩
      rw [mapFrame_reserve]
      exact hr₁
  · intro page g a d hmap
    by_cases hpage : page = pageOf r.start
    · rw [hpage, hself] at hmap
      cases hmap
      exact hf
    · rw [hother _ hpage] at hmap
      exact h.obtained page g a d hmap
  · intro page page' g a d a' d' hmap hmap'
    by_cases hpage : page = pageOf r.start
    · by_cases hpage' : page' = pageOf r.start
      · rw [hpage, hpage']
      · rw [hpage, hself] at hmap
        rw [hother _ hpage'] at hmap'
        cases hmap
        exact absurd hmap' (hfree _ _ _)
    · rw [hother _ hpage] at hmap
      by_cases hpage' : page' = pageOf r.start
      · rw [hpage', hself] at hmap'
        cases hmap'
        exact absurd hmap (hfree _ _ _)
      · rw [hother _ hpage'] at hmap'
        exact h.single page page' g a d a' d' hmap hmap'

end mapFrame

/-! ## Reserving a page -/

section reservePage
variable {vaddr : ℕ}

@[simp]
theorem reservePage_vframes : (P.reservePage vaddr).vframes = P.vframes + 1 := rfl

theorem reservePage_vframe_self :
    (P.reservePage vaddr).vframe P.vframes = newVframe (reserveRangeAt P.vspace vaddr).1 :=
  update_self ..

theorem reservePage_vframe_of_ne (h : j ≠ P.vframes) :
    (P.reservePage vaddr).vframe j = P.vframe j :=
  update_of_ne h ..

theorem reserveRangeAt_empty {vs : VSpace} (h : vs (pageOf vaddr) = .empty) : reserveRangeAt vs vaddr
    = (some ⟨vaddr, vaddr + pageSize⟩, update vs (pageOf vaddr) .reserved) := by
  rw [reserveRangeAt, if_pos h]

theorem reserveRangeAt_of_ne {vs : VSpace} (h : vs (pageOf vaddr) ≠ .empty) :
    reserveRangeAt vs vaddr = (none, vs) := by
  rw [reserveRangeAt, if_neg h]

theorem reservePage_vspace (h : P.vspace (pageOf vaddr) = .empty) : (P.reservePage vaddr).vspace
    = update P.vspace (pageOf vaddr) .reserved := by
  show (reserveRangeAt P.vspace vaddr).2 = _
  rw [reserveRangeAt_empty h]

theorem reservePage_vspace_of_ne (h : P.vspace (pageOf vaddr) ≠ .empty) :
    (P.reservePage vaddr).vspace = P.vspace := by
  show (reserveRangeAt P.vspace vaddr).2 = _
  rw [reserveRangeAt_of_ne h]

/-- The new VFrame is not in memory. -/
theorem reservePage_inRAM (hwithin : P.Within) :
    ((P.reservePage vaddr).vframe j).inRAM = (P.vframe j).inRAM := by
  by_cases hj : j = P.vframes
  · rw [hj, reservePage_vframe_self]
    show false = _
    by_contra hne
    have := hwithin _ (by simpa using Ne.symm hne)
    omega
  · rw [reservePage_vframe_of_ne hj]

/-- A page that is mapped stays mapped, and no other one is. -/
theorem reservePage_mapped {page : ℕ} {a d : Bool} :
    (P.reservePage vaddr).vspace page = .mapped f a d ↔ P.vspace page = .mapped f a d := by
  by_cases hempty : P.vspace (pageOf vaddr) = .empty
  · rw [reservePage_vspace hempty]
    by_cases hpage : page = pageOf vaddr
    · rw [hpage, update_self, hempty]
      simp
    · rw [update_of_ne hpage]
  · rw [reservePage_vspace_of_ne hempty]

/-- A page that is reserved stays reserved. -/
theorem reservePage_reserved {page : ℕ} (h : P.vspace page = .reserved) :
    (P.reservePage vaddr).vspace page = .reserved := by
  by_cases hempty : P.vspace (pageOf vaddr) = .empty
  · rw [reservePage_vspace hempty]
    by_cases hpage : page = pageOf vaddr
    · rw [hpage, update_self]
    · rw [update_of_ne hpage]
      exact h
  · rw [reservePage_vspace_of_ne hempty]
    exact h

/-- The reservation of the new VFrame is the page, which was free. -/
theorem reservePage_new (h : ((P.reservePage vaddr).vframe P.vframes).reserve = some r) :
    r = ⟨vaddr, vaddr + pageSize⟩ ∧ P.vspace (pageOf vaddr) = .empty
      ∧ (P.reservePage vaddr).vspace (pageOf vaddr) = .reserved := by
  rw [reservePage_vframe_self] at h
  by_cases hempty : P.vspace (pageOf vaddr) = .empty
  · rw [reserveRangeAt_empty hempty] at h
    refine ⟨(Option.some.inj h).symm, hempty, ?_⟩
    rw [reservePage_vspace hempty, update_self]
  · rw [reserveRangeAt_of_ne hempty] at h
    cases h

/-- The page of a VFrame is not free. -/
theorem Table.page_ne_empty (h : P.Table) (hi : i < P.vframes)
    (hr : (P.vframe i).reserve = some r) : P.vspace (pageOf r.start) ≠ .empty := by
  by_cases hram : (P.vframe i).inRAM = true
  · have ⟨f, a, d, hmap⟩ := h.mapped hram hr
    rw [hmap]
    exact fun h => by cases h
  · rw [h.absent i r hi (by simpa using hram) hr]
    exact fun h => by cases h

theorem Table.reservePage (h : P.Table) (haligned : vaddr % pageSize = 0) :
    (P.reservePage vaddr).Table := by
  refine ⟨?_, ?_, ?_, ?_, ?_, ?_, ?_, ?_⟩
  · intro j hj
    rw [reservePage_inRAM h.within] at hj
    have := h.within j hj
    rw [reservePage_vframes]
    omega
  · intro j r₁ hj hr₁
    by_cases hjn : j = P.vframes
    · rw [hjn] at hr₁
      rw [(reservePage_new hr₁).1]
      exact ⟨haligned, rfl⟩
    · rw [reservePage_vframe_of_ne hjn] at hr₁
      rw [reservePage_vframes] at hj
      exact h.range j r₁ (by omega) hr₁
  · intro j hj
    rw [reservePage_inRAM h.within] at hj
    have hjn : j ≠ P.vframes := by
      have := h.within j hj
      omega
    have ⟨r₁, f, a, d, hr₁, hmap⟩ := h.resident j hj
    refine ⟨r₁, f, a, d, ?_, reservePage_mapped.mpr hmap⟩
    rw [reservePage_vframe_of_ne hjn]
    exact hr₁
  · intro j r₁ hj hram hr₁
    by_cases hjn : j = P.vframes
    · rw [hjn] at hr₁
      rw [(reservePage_new hr₁).1]
      exact (reservePage_new hr₁).2.2
    · rw [reservePage_vframe_of_ne hjn] at hr₁ hram
      rw [reservePage_vframes] at hj
      exact reservePage_reserved (h.absent j r₁ (by omega) hram hr₁)
  · intro j k r₁ r₂ hj hk hr₁ hr₂ hpage
    rw [reservePage_vframes] at hj hk
    -- the new page was free and the pages of the other VFrames were not
    by_cases hjn : j = P.vframes
    · by_cases hkn : k = P.vframes
      · rw [hjn, hkn]
      · rw [hjn] at hr₁
        rw [reservePage_vframe_of_ne hkn] at hr₂
        have hnew := reservePage_new hr₁
        rw [hnew.1] at hpage
        have hbusy := h.page_ne_empty (by omega : k < P.vframes) hr₂
        rw [← hpage] at hbusy
        exact absurd hnew.2.1 hbusy
    · rw [reservePage_vframe_of_ne hjn] at hr₁
      by_cases hkn : k = P.vframes
      · rw [hkn] at hr₂
        have hnew := reservePage_new hr₂
        rw [hnew.1] at hpage
        have hbusy := h.page_ne_empty (by omega : j < P.vframes) hr₁
        rw [hpage] at hbusy
        exact absurd hnew.2.1 hbusy
      · rw [reservePage_vframe_of_ne hkn] at hr₂
        exact h.distinct j k r₁ r₂ (by omega) (by omega) hr₁ hr₂ hpage
  · intro page f a d hmap
    have ⟨j, r₁, hram, hr₁, hpage⟩ := h.owner page f a d (reservePage_mapped.mp hmap)
    have hjn : j ≠ P.vframes := by
      have := h.within j hram
      omega
    refine ⟨j, r₁, ?_, ?_, hpage⟩
    · rw [reservePage_vframe_of_ne hjn]
      exact hram
    · rw [reservePage_vframe_of_ne hjn]
      exact hr₁
  · intro page f a d hmap
    exact h.obtained page f a d (reservePage_mapped.mp hmap)
  · intro page page' f a d a' d' hmap hmap'
    exact h.single page page' f a d a' d' (reservePage_mapped.mp hmap) (reservePage_mapped.mp hmap')

end reservePage

end Proc

end SeL4Sys

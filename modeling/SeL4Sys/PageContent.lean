import SeL4Sys.PagefileRuns

/-!
# The contents of pages

The contents of a page are in its frame while it is in memory and in its pagefile otherwise.
`page_replace` keeps the contents of every page: the one that it picks is saved unless its pagefile
has the same contents already, which is what a clean dirty bit means, and the frame is filled from
the pagefile of the page that comes in.
-/

namespace SeL4Sys

open Function

/-- The contents of the page of a VFrame; none when it has not been in memory yet. -/
def content (b : Backing) (P : Proc) (i : ℕ) : Option Page :=
  if (P.vframe i).inRAM then
    (P.vframe i).reserve.bind fun r => (getCap P.vspace r.start).map P.frame
  else (P.vframe i).pagefile.map b.file

/-- A page in memory with a pagefile that has not been written since it was mapped has the contents
of its pagefile. -/
def Clean (b : Backing) (P : Proc) : Prop := ∀ i r f a name, (P.vframe i).inRAM = true →
  (P.vframe i).reserve = some r → P.vspace (pageOf r.start) = .mapped f a false →
  (P.vframe i).pagefile = some name → b.file name = P.frame f

/-- Only VFrames of the list have pagefiles, and none before the last frame has been obtained. -/
def Proc.SwapBound (P : Proc) : Prop :=
  ∀ i, (P.vframe i).pagefile ≠ none → i < P.vframes ∧ maxPframeNum ≤ P.pframesUsed

variable {b b' : Backing} {P P₁ Q : Proc} {i j v f : ℕ} {r r' : Reservation} {d : Bool}
  {name : Name} {page : Page}

theorem content_inRAM (hi : (P.vframe i).inRAM = true) (hr : (P.vframe i).reserve = some r)
    {a d : Bool} (hmap : P.vspace (pageOf r.start) = .mapped f a d) :
    content b P i = some (P.frame f) := by
  rw [content, if_pos hi, hr, Option.bind_some, getCap, hmap]
  rfl

theorem content_absent (hi : (P.vframe i).inRAM = false) :
    content b P i = (P.vframe i).pagefile.map b.file := by
  rw [content, hi]
  rfl

/-! ## The page that is replaced -/

namespace Picks

theorem backing_file_of_ne (h : name ≠ (pageOut b.swap (P₁.vframe v)).name) :
    (backing b P₁ v f).file name = b.file name := by
  show (if _ then update b.file _ _ else b.file) name = _
  split_ifs
  · rw [update_of_ne h]
  · rfl

/-- The pagefile has the contents of the page, whether it had to be written or not. -/
theorem backing_file_self (hpicks : Picks P P₁ v r f d) (hclean : Clean b P) :
    (backing b P₁ v f).file (pageOut b.swap (P₁.vframe v)).name = P.frame f := by
  have hframe : P₁.frame f = P.frame f := by rw [hpicks.aged.frame]
  show (if (pageOut b.swap (P₁.vframe v)).save then _ else b.file) _ = _
  by_cases hsave : (pageOut b.swap (P₁.vframe v)).save = true
  · rw [if_pos hsave, update_self, hframe]
  · rw [if_neg hsave]
    cases hfile : (P.vframe v).pagefile with
    | none =>
      rw [pageOut, hpicks.aged.pagefile, hfile] at hsave
      exact absurd rfl hsave
    | some name =>
      have hout : pageOut b.swap (P₁.vframe v)
          = ⟨name, (P₁.vframe v).dirty != 0, b.swap⟩ := by
        rw [pageOut, hpicks.aged.pagefile, hfile]
      rw [hout] at hsave ⊢
      have hd : d = false := by
        rw [← Bool.not_eq_true, ← hpicks.dirty]
        simpa using hsave
      obtain ⟨a, hmap⟩ := hpicks.mapped
      rw [hd] at hmap
      exact hclean v r f a name hpicks.inRAM hpicks.reserve hmap hfile

/-- After the page is saved and unmapped all contents are as before. -/
theorem content_evicted (hpicks : Picks P P₁ v r f d) (hok : P.Ok) (hclean : Clean b P)
    (hname : ∀ j, j ≠ v → (P.vframe j).pagefile ≠ some (pageOut b.swap (P₁.vframe v)).name) (j : ℕ) :
    content (backing b P₁ v f) (evicted b P₁ v r) j = content b P j := by
  by_cases hj : j = v
  · obtain ⟨a, hmap⟩ := hpicks.mapped
    rw [hj, content_inRAM hpicks.inRAM hpicks.reserve hmap, content_absent]
    · rw [evicted, Proc.unmap_pagefile, if_pos rfl, Option.map_some,
        hpicks.backing_file_self hclean]
    · rw [evicted, Proc.unmap_vframe_self]
  · have hvframe : (evicted b P₁ v r).vframe j = P₁.vframe j := Proc.unmap_vframe_of_ne hj
    by_cases hram : (P.vframe j).inRAM = true
    · obtain ⟨rj, g, a, e, hrj, hmap⟩ := hok.table.resident j hram
      have hpage : pageOf rj.start ≠ pageOf r.start := fun heq =>
        hj (hok.table.distinct j v rj r (hok.table.within j hram)
          (hok.table.within v hpicks.inRAM) hrj hpicks.reserve heq)
      rw [content_inRAM hram hrj hmap, content_inRAM (r := rj) (f := g) (a := a) (d := e)]
      · show some (P₁.frame g) = _
        rw [hpicks.aged.frame]
      · rw [hvframe, hpicks.aged.inRAM]
        exact hram
      · rw [hvframe, hpicks.aged.reserve]
        exact hrj
      · rw [evicted, Proc.unmap_vspace_of_ne hpage, hpicks.aged.vspace]
        exact hmap
    · have hram : (P.vframe j).inRAM = false := by simpa using hram
      rw [content_absent hram, content_absent]
      · rw [hvframe, hpicks.aged.pagefile]
        cases hfile : (P.vframe j).pagefile with
        | none => rfl
        | some name =>
          have hne : name ≠ (pageOut b.swap (P₁.vframe v)).name := by
            intro heq
            rw [heq] at hfile
            exact hname j hj hfile
          rw [Option.map_some, Option.map_some, backing_file_of_ne hne]
      · rw [hvframe, hpicks.aged.inRAM]
        exact hram

theorem clean_evicted (hpicks : Picks P P₁ v r f d) (hclean : Clean b P)
    (hname : ∀ j, j ≠ v → (P.vframe j).pagefile ≠ some (pageOut b.swap (P₁.vframe v)).name) :
    Clean (backing b P₁ v f) (evicted b P₁ v r) := by
  intro j rj g a name hram hrj hmap hfile
  rw [evicted, Proc.unmap_inRAM, hpicks.aged.inRAM] at hram
  rw [evicted, Proc.unmap_reserve, hpicks.aged.reserve] at hrj
  rw [evicted, Proc.unmap_pagefile, if_neg hram.2, hpicks.aged.pagefile] at hfile
  have hold := (Proc.unmap_mapped hmap).2
  rw [hpicks.aged.vspace] at hold
  have hne : name ≠ (pageOut b.swap (P₁.vframe v)).name := by
    intro heq
    rw [heq] at hfile
    exact hname j hram.2 hfile
  rw [backing_file_of_ne hne]
  show _ = P₁.frame g
  rw [hpicks.aged.frame]
  exact hclean j rj g a name hram.1 hrj hold hfile

end Picks

/-! ## The page that comes in -/

/-- A frame is filled from the pagefile of VFrame `i` and mapped at its page. -/
def Proc.bringIn (Q : Proc) (b : Backing) (i f : ℕ) (r : Reservation) : Proc :=
  (Q.pageIn b i f).mapFrame i r.start f

theorem pageIn_frame_of_ne {g : ℕ} (h : g ≠ f) : (Q.pageIn b i f).frame g = Q.frame g := by
  rw [Proc.pageIn]
  split
  · exact update_of_ne h ..
  · rfl

theorem pageIn_frame_self (h : (Q.vframe i).pagefile = some name) :
    (Q.pageIn b i f).frame f = b.file name := by
  rw [Proc.pageIn, h]
  exact update_self ..

section bringIn
variable (h : Q.Table) (hn : i < Q.vframes) (hr : (Q.vframe i).reserve = some r)
  (hf : Q.Unmapped f)

include h hn hr hf

omit hn in
theorem bringIn_vspace_mapped {page g : ℕ} {a d : Bool} :
    (Q.bringIn b i f r).vspace page = .mapped g a d →
      (page = pageOf r.start ∧ (Q.vframe i).inRAM = false ∧ g = f ∧ a = false ∧ d = false)
        ∨ (Q.vspace page = .mapped g a d ∧ g ≠ f) := by
  intro hmap
  have hspace : (Q.bringIn b i f r).vspace = mapPage Q.vspace r.start f := by
    show mapPage (Q.pageIn b i f).vspace r.start f = _
    rw [pageIn_vspace]
  rw [hspace, mapPage] at hmap
  have hold : Q.vspace page = .mapped g a d → g ≠ f := by
    intro hq heq
    rw [heq] at hq
    exact hf page a d hq
  split_ifs at hmap with hres
  · by_cases hpage : page = pageOf r.start
    · rw [hpage, update_self] at hmap
      refine Or.inl ⟨hpage, ?_, ?_⟩
      · by_contra hram
        obtain ⟨g', a', d', hmap'⟩ := h.mapped (by simpa using hram) hr
        rw [hres] at hmap'
        cases hmap'
      · cases hmap
        exact ⟨rfl, rfl, rfl⟩
    · rw [update_of_ne hpage] at hmap
      exact Or.inr ⟨hmap, hold hmap⟩
  · exact Or.inr ⟨hmap, hold hmap⟩

/-- Contents that exist stay. -/
theorem content_bringIn (hsome : (content b Q j).isSome) :
    content b (Q.bringIn b i f r) j = content b Q j := by
  have hvframe : ∀ k, k ≠ i → (Q.bringIn b i f r).vframe k = Q.vframe k := by
    intro k hk
    rw [Proc.bringIn, Proc.mapFrame_vframe_of_ne hk, pageIn_vframe]
  have hspace : (Q.bringIn b i f r).vspace = mapPage Q.vspace r.start f := by
    show mapPage (Q.pageIn b i f).vspace r.start f = _
    rw [pageIn_vspace]
  -- a page in memory has another frame and keeps it
  have hresident : (Q.vframe j).inRAM = true →
      content b (Q.bringIn b i f r) j = content b Q j := by
    intro hram
    obtain ⟨rj, g, a, d, hrj, hmap⟩ := h.resident j hram
    have hg : g ≠ f := by
      intro heq
      rw [heq] at hmap
      exact hf _ a d hmap
    have hmap' : (Q.bringIn b i f r).vspace (pageOf rj.start) = .mapped g a d := by
      rw [hspace, mapPage]
      split_ifs with hres
      · have hne : pageOf rj.start ≠ pageOf r.start := by
          intro heq
          rw [heq, hres] at hmap
          cases hmap
        rw [update_of_ne hne]
        exact hmap
      · exact hmap
    rw [content_inRAM hram hrj hmap, content_inRAM (r := rj) (f := g) (a := a) (d := d) _ _ hmap']
    · exact congrArg some (pageIn_frame_of_ne hg)
    · rw [Proc.bringIn, Proc.mapFrame_inRAM, pageIn_vframe]
      exact Or.inr hram
    · rw [Proc.bringIn, Proc.mapFrame_reserve, pageIn_vframe]
      exact hrj
  by_cases hram : (Q.vframe j).inRAM = true
  · exact hresident hram
  have hram : (Q.vframe j).inRAM = false := by simpa using hram
  by_cases hj : j = i
  · -- the page that comes in has a pagefile, since it has contents
    rw [hj] at hram hsome ⊢
    rw [content_absent hram, Option.isSome_map] at hsome
    obtain ⟨name, hfile⟩ := Option.isSome_iff_exists.mp hsome
    have hself : (Q.bringIn b i f r).vspace (pageOf r.start) = .mapped f false false := by
      rw [hspace, mapPage, if_pos (h.absent i r hn hram hr), update_self]
    rw [content_absent hram, hfile, Option.map_some, content_inRAM _ _ hself]
    · exact congrArg some (pageIn_frame_self hfile)
    · rw [Proc.bringIn, Proc.mapFrame_inRAM]
      exact Or.inl rfl
    · rw [Proc.bringIn, Proc.mapFrame_reserve, pageIn_vframe]
      exact hr
  · rw [content_absent hram, content_absent, hvframe j hj]
    rw [hvframe j hj]
    exact hram

theorem clean_bringIn (hclean : Clean b Q) : Clean b (Q.bringIn b i f r) := by
  intro k rk g a name hram hrk hmap hfile
  rw [Proc.bringIn, Proc.mapFrame_reserve, pageIn_vframe] at hrk
  rw [Proc.bringIn, Proc.mapFrame_pagefile, pageIn_vframe] at hfile
  rw [Proc.bringIn, Proc.mapFrame_inRAM, pageIn_vframe] at hram
  show _ = (Q.pageIn b i f).frame g
  have hkn : k < Q.vframes := by
    rcases hram with heq | hram
    · rw [heq]
      exact hn
    · exact h.within k hram
  rcases bringIn_vspace_mapped h hr hf hmap with ⟨hpage, _, hg, _⟩ | ⟨hold, hg⟩
  · have hki := h.distinct k i rk r hkn hn hrk hr hpage
    rw [hki] at hfile
    rw [hg, pageIn_frame_self hfile]
  · rw [pageIn_frame_of_ne hg]
    exact hclean k rk g a name (h.inRAM_of_mapped hkn hrk hold) hrk hold hfile

end bringIn

/-! ## `alloc_frame` -/

/-- What a step keeps of the contents: every page that has contents, and the meaning of the dirty
bits. -/
structure Keeps (b : Backing) (P : Proc) (r : Backing × Proc) : Prop where
  content : ∀ i, (content b P i).isSome → SeL4Sys.content r.1 r.2 i = SeL4Sys.content b P i
  clean : Clean r.1 r.2

theorem Picks.swapBound (hpicks : Picks P P₁ v r f d) (hok : P.Ok) (hbound : P.SwapBound)
    (hfull : maxPframeNum ≤ P.pframesUsed) : (replaced b P₁ i v f r r').SwapBound := by
  intro j hj
  rw [hpicks.replaced_vframes, hpicks.replaced_pframesUsed]
  refine ⟨?_, hfull⟩
  rw [hpicks.replaced_pagefile] at hj
  split_ifs at hj with hjv
  · rw [hjv]
    exact hok.table.within v hpicks.inRAM
  · exact (hbound j hj).1

theorem Proc.SwapBound.allotted (hbound : P.SwapBound) (i : ℕ) (r : Reservation) :
    (P.allotted i r).SwapBound := by
  intro j hj
  rw [Proc.allotted_pagefile] at hj
  have ⟨hlt, hfull⟩ := hbound j hj
  rw [Proc.allotted_vframes, Proc.allotted_pframesUsed]
  exact ⟨hlt, by omega⟩

theorem Proc.SwapBound.reservePage (hbound : P.SwapBound) (vaddr : ℕ) :
    (P.reservePage vaddr).SwapBound := by
  intro j hj
  have hne : j ≠ P.vframes := by
    intro heq
    rw [heq, Proc.reservePage_vframe_self] at hj
    exact hj rfl
  rw [Proc.reservePage_vframe_of_ne hne] at hj
  have ⟨hlt, hfull⟩ := hbound j hj
  exact ⟨Nat.lt_succ_of_lt hlt, hfull⟩

theorem ProcStep.swapBound {R : VmRules} {p : ℕ} {r : Backing × Proc} (hok : P.Ok)
    (hbound : P.SwapBound) (h : ProcStep R p (b, P) r) : r.2.SwapBound := by
  cases h with
  | load _ => exact hbound
  | store _ _ _ => exact hbound
  | project _ _ _ => exact hbound
  | heap _ _ => exact hbound
  | reserve _ => exact hbound.reservePage _
  | @alloc _ _ j r _ _ halloc =>
    cases allocFrame_allocated hok halloc with
    | new res hr hnew => exact hbound.allotted j res
    | replaced res rv v f P₁ d hr hfull hpicks => exact hpicks.swapBound hok hbound hfull

/-- A replacement keeps the contents when no other VFrame has the pagefile that is written. -/
theorem Picks.keeps (hpicks : Picks P P₁ v r f d) (hok : P.Ok) (hclean : Clean b P)
    (hn : i < P.vframes) (hr : (P.vframe i).reserve = some r')
    (hname : ∀ j, j ≠ v → (P.vframe j).pagefile ≠ some (pageOut b.swap (P₁.vframe v)).name) :
    Keeps b P (backing b P₁ v f, replaced b P₁ i v f r r') := by
  have htable := hpicks.table_evicted (b := b) hok
  have hn' : i < (evicted b P₁ v r).vframes := by
    show i < P₁.vframes
    rw [hpicks.aged.vframes]
    exact hn
  have hr' : ((evicted b P₁ v r).vframe i).reserve = some r' := by
    rw [evicted, Proc.unmap_reserve, hpicks.aged.reserve]
    exact hr
  have hevicted := hpicks.content_evicted hok hclean hname
  refine ⟨?_, ?_⟩
  · intro j hsome
    rw [← hevicted j] at hsome ⊢
    exact content_bringIn htable hn' hr' (hpicks.unmapped_evicted hok) hsome
  · exact clean_bringIn htable hn' hr' (hpicks.unmapped_evicted hok)
      (hpicks.clean_evicted hclean hname)

/-- A new frame is given before any page has been swapped. -/
theorem keeps_allotted (hok : P.Ok) (hbound : P.SwapBound)
    (hn : i < P.vframes) (hr : (P.vframe i).reserve = some r) (hnew : P.pframesUsed < maxPframeNum) :
    Keeps b P (b, P.allotted i r) := by
  have hnone : ∀ j, (P.vframe j).pagefile = none := by
    intro j
    by_contra hne
    have := (hbound j hne).2
    omega
  have hclean' : Clean b (P.allotted i r) := by
    intro j rj g a name _ _ _ hfile
    rw [Proc.allotted_pagefile, hnone j] at hfile
    cases hfile
  refine ⟨?_, hclean'⟩
  by_cases hi : (P.vframe i).inRAM = true
  · intro j _
    rw [hok.table.allotted_inRAM hi hr]
    rfl
  have hi : (P.vframe i).inRAM = false := by simpa using hi
  intro j hsome
  have hram : (P.vframe j).inRAM = true := by
    by_contra hram
    rw [content_absent (by simpa using hram), hnone j] at hsome
    cases hsome
  have ⟨rj, g, a, d, hrj, hmap⟩ := hok.table.resident j hram
  have hji : j ≠ i := by
    intro heq
    rw [heq, hi] at hram
    cases hram
  have habsent := hok.table.absent i r hn hi hr
  have hpage : pageOf rj.start ≠ pageOf r.start := by
    intro heq
    rw [heq, habsent] at hmap
    cases hmap
  -- the new frame is none of those that are mapped
  have hg : g ≠ P.frameNum := by
    have := hok.table.obtained _ g a d hmap
    omega
  rw [content_inRAM hram hrj hmap, hok.table.allotted_eq hn hi hr,
    content_inRAM (r := rj) (f := g) (a := a) (d := d)]
  · show some (update P.frame P.frameNum _ g) = _
    rw [update_of_ne hg]
  · rw [Proc.mapFrame_vframe_of_ne hji]
    exact hram
  · rw [Proc.mapFrame_vframe_of_ne hji]
    exact hrj
  · show mapPage P.vspace r.start P.frameNum _ = _
    rw [mapPage, if_pos habsent, update_of_ne hpage]
    exact hmap

end SeL4Sys

import SeL4Sys.PageContent

/-!
# A process with its memory full

A process with 16 pages of stack and 241 pages of heap of which all but one are in memory. A view of
it says which page is out, where the search for the next page to replace starts, and the status bits,
the pagefile and the contents of each page. Accesses and faults act on the view.
-/

namespace SeL4Sys

open Function

/-- The number of VFrames. -/
@[simp] abbrev packedNum : ℕ := 257

/-- What matters of the process. -/
structure View where
  out : ℕ
  rep : ℕ
  bits : ℕ → Bool × Bool
  pagefile : ℕ → Option Name
  data : ℕ → Page

/-- The first address of the page of VFrame `i`. -/
def packedAddr (i : ℕ) : ℕ := shellPage i * pageSize

/-- The reservation of VFrame `i`. -/
def packedRes (i : ℕ) : Reservation := ⟨packedAddr i, packedAddr i + pageSize⟩

/-- The process has its memory full and looks like the view. -/
structure Packed (P : Proc) (V : View) : Prop where
  ok : P.Ok
  vframes : P.vframes = packedNum
  used : P.pframesUsed = maxPframeNum
  heapTop : P.heapTop = shellTop packedNum
  out : V.out < packedNum
  replacer : P.replacer = some V.rep
  reserve : ∀ i, i < packedNum → (P.vframe i).reserve = some (packedRes i)
  inRAM : ∀ i, i < packedNum → ((P.vframe i).inRAM = true ↔ i ≠ V.out)
  pagefile : ∀ i, i < packedNum → (P.vframe i).pagefile = V.pagefile i
  page : ∀ i, i < packedNum → i ≠ V.out → ∃ f,
    P.vspace (shellPage i) = .mapped f (V.bits i).1 (V.bits i).2 ∧ P.frame f = V.data i

variable {P P' P₁ : Proc} {V : View} {b : Backing} {i j v : ℕ}

theorem pageOf_packedAddr (i : ℕ) : pageOf (packedAddr i) = shellPage i := pageOf_shellPage i

theorem offsetOf_packedAddr (i : ℕ) : offsetOf (packedAddr i) = 0 :=
  Fin.ext (Nat.mul_mod_left ..)

theorem packedPage_injective (hi : i < packedNum) (hj : j < packedNum)
    (h : shellPage i = shellPage j) : i = j := by
  apply shellPage_injective _ _ h
  · simp only [packedNum, stackPages] at *
    omega
  · simp only [packedNum, stackPages] at *
    omega

/-- The contents of the pages in memory. -/
theorem Packed.content (h : Packed P V) (hi : i < packedNum) (hne : i ≠ V.out) :
    content b P i = some (V.data i) := by
  have ⟨f, hmap, hdata⟩ := h.page i hi hne
  have hmap' : P.vspace (pageOf (packedRes i).start) = .mapped f (V.bits i).1 (V.bits i).2 := by
    rw [packedRes, pageOf_packedAddr]
    exact hmap
  rw [content_inRAM ((h.inRAM i hi).mpr hne) (h.reserve i hi) hmap', hdata]

/-! ## Accesses -/

/-- The view after an access to the page of VFrame `j`. -/
def View.access (V : View) (j : ℕ) (bits : Bool × Bool) (page : Page) : View :=
  { V with bits := update V.bits j bits, data := update V.data j page }

/-- The page with its first byte replaced. -/
def setFirst (page : Page) (byte : UInt8) : Page := update page 0 byte

/-- A change of the entry of a page and of the contents of its frame. -/
theorem Packed.touch (h : Packed P V) (hj : j < packedNum) {f : ℕ} {a d a' d' : Bool}
    (hmap : P.vspace (shellPage j) = .mapped f a d) (page : Page) :
    Packed { P with
      vspace := update P.vspace (shellPage j) (.mapped f a' d')
      frame := update P.frame f page } (V.access j (a', d') page) where
  ok := ⟨h.ok.table.touch hmap, h.ok.aligned, h.ok.word, h.ok.replacer, h.ok.someone⟩
  vframes := h.vframes
  used := h.used
  heapTop := h.heapTop
  out := h.out
  replacer := h.replacer
  reserve := h.reserve
  inRAM := h.inRAM
  pagefile := h.pagefile
  page i hi hout := by
    by_cases hij : i = j
    · rw [hij]
      refine ⟨f, ?_, ?_⟩
      · show update P.vspace _ _ _ = VEntry.mapped f (update V.bits j (a', d') j).1
          (update V.bits j (a', d') j).2
        rw [update_self, update_self]
      · show update P.frame f page f = update V.data j page j
        rw [update_self, update_self]
    · have ⟨g, hmap', hdata⟩ := h.page i hi hout
      have hpage : shellPage i ≠ shellPage j := fun heq => hij (packedPage_injective hi hj heq)
      have hg : g ≠ f := by
        intro heq
        rw [heq] at hmap'
        exact hpage (h.ok.table.single _ _ f _ _ _ _ hmap' hmap)
      refine ⟨g, ?_, ?_⟩
      · show update P.vspace _ _ _ = VEntry.mapped g (update V.bits j (a', d') i).1
          (update V.bits j (a', d') i).2
        rw [update_of_ne hpage, update_of_ne hij]
        exact hmap'
      · show update P.frame f page g = update V.data j page i
        rw [update_of_ne hg, update_of_ne hij]
        exact hdata

/-- A store by the process. -/
theorem Packed.write (h : Packed P V) (hj : j < packedNum) (hne : j ≠ V.out) (byte : UInt8) :
    ∃ P', P.write (packedAddr j) byte = some P'
      ∧ Packed P' (V.access j (true, true) (setFirst (V.data j) byte)) := by
  have ⟨f, hmap, hdata⟩ := h.page j hj hne
  refine ⟨_, ?_, h.touch hj hmap (setFirst (V.data j) byte)⟩
  simp only [Proc.write, pageOf_packedAddr, hmap, storeByte, offsetOf_packedAddr, hdata]
  rfl

/-- A store by the server. -/
theorem Packed.project (h : Packed P V) (hj : j < packedNum) (hne : j ≠ V.out) (byte : UInt8) :
    ∃ P', P.project (packedAddr j) byte = some P'
      ∧ Packed P' (V.access j (V.bits j) (setFirst (V.data j) byte)) := by
  have ⟨f, hmap, hdata⟩ := h.page j hj hne
  have hcap : getCap P.vspace (packedAddr j) = some f := by
    rw [getCap, pageOf_packedAddr, hmap]
  refine ⟨_, ?_, h.touch hj hmap (setFirst (V.data j) byte)⟩
  rw [Proc.project, hcap, Option.map_some, storeByte, offsetOf_packedAddr, hdata, ← hmap,
    update_eq_self]
  rfl

/-! ## Replacing a page -/

/-- The credits that the search sees. -/
def View.credit (V : View) (i : ℕ) : ℕ := (V.bits i).2.toNat + (V.bits i).1.toNat

/-- What `page_replace` decides about the pagefile of VFrame `v`. -/
def View.pageOut (V : View) (w : Swap) (v : ℕ) : PageOut :=
  SeL4Sys.pageOut w ⟨none, 0, (V.bits v).2.toNat, true, V.pagefile v⟩

/-- The pagefiles after the page of VFrame `v` has been replaced. -/
def View.backing (V : View) (b : Backing) (v : ℕ) : Backing :=
  b.write (V.pageOut b.swap v) (V.data v)

/-- The view after the page of VFrame `v` has been replaced by the one that was out. -/
def View.replace (V : View) (b : Backing) (v : ℕ) : View where
  out := v
  rep := v
  bits := update V.bits V.out (false, false)
  pagefile := update V.pagefile v (some (V.pageOut b.swap v).name)
  data := update V.data V.out
    (((V.pagefile V.out).map (V.backing b v).file).getD (V.data v))

/-- The first VFrame from `rep` on with the fewest credits. -/
structure View.Victim (V : View) (v : ℕ) : Prop where
  lt : V.rep < packedNum
  exists_turn : ∃ k, k < packedNum ∧ v = Proc.turn packedNum V.rep k
    ∧ ∀ j, j < k → Proc.turn packedNum V.rep j ≠ V.out →
      V.credit v < V.credit (Proc.turn packedNum V.rep j)
  ne : v ≠ V.out
  fewest : ∀ i, i < packedNum → i ≠ V.out → V.credit v ≤ V.credit i

theorem turn_lt {n r k : ℕ} (hr : r < n) (hk : k < n) : Proc.turn n r k < n := by
  rw [Proc.turn]
  split_ifs <;> omega

theorem Packed.credit (h : Packed P V) (hi : i < packedNum) :
    P.refresh.credit i = if i = V.out then none else some (V.credit i) := by
  rw [Proc.credit, Proc.aged_refresh.inRAM]
  by_cases hout : i = V.out
  · rw [if_pos hout, if_neg]
    exact fun hram => (h.inRAM i hi).mp hram hout
  · have hram := (h.inRAM i hi).mpr hout
    obtain ⟨f, hmap, _⟩ := h.page i hi hout
    have hstatus := Proc.refresh_status (h.vframes.symm ▸ hi) hram (h.reserve i hi)
      (by rw [packedRes, pageOf_packedAddr]; exact hmap)
    rw [if_pos hram, if_neg hout, hstatus.1, hstatus.2, View.credit]
    cases (V.bits i).1 <;> cases (V.bits i).2 <;> rfl

theorem Packed.victim (h : Packed P V) (hv : V.Victim v) {u : ℕ}
    (hloop : Proc.chanceLoop (3 * P.vframes) P.refresh = some (u, P₁)) : u = v := by
  have ⟨k, hk, hturn, hfirst⟩ := hv.exists_turn
  have hn := h.vframes
  have hcredit : ∀ j c, j < packedNum → P.refresh.credit (Proc.turn P.vframes V.rep j) = some c →
      Proc.turn packedNum V.rep j ≠ V.out ∧ V.credit (Proc.turn packedNum V.rep j) = c := by
    intro j c hj hc
    rw [hn, h.credit (turn_lt hv.lt hj)] at hc
    split_ifs at hc with hout
    exact ⟨hout, Option.some.inj hc⟩
  have hself : P.refresh.credit (Proc.turn P.vframes V.rep k) = some (V.credit v) := by
    rw [hn, ← hturn, h.credit (hturn ▸ turn_lt hv.lt hk), if_neg hv.ne]
  have hbound : V.credit v ≤ 2 := by
    rw [View.credit]
    have := Bool.toNat_le (V.bits v).1
    have := Bool.toNat_le (V.bits v).2
    omega
  have hu := Proc.chanceLoop_victim h.ok.table.within h.replacer (hn.symm ▸ hv.lt)
    (hn.symm ▸ hk) hbound hself
    (by
      intro j c hj hc
      rw [hn] at hj
      have ⟨hout, heq⟩ := hcredit j c hj hc
      rw [← heq]
      exact hv.fewest _ (turn_lt hv.lt hj) hout)
    (by
      intro j c hj hc
      have ⟨hout, heq⟩ := hcredit j c (by omega) hc
      rw [← heq]
      exact hfirst j hj hout)
    hloop
  rw [hu, hn, hturn]

theorem pageOut_congr {w : Swap} {vf vf' : VFrame} (hfile : vf.pagefile = vf'.pagefile)
    (hdirty : vf.dirty ≠ 0 ↔ vf'.dirty ≠ 0) : pageOut w vf = pageOut w vf' := by
  have hsave : (vf.dirty != 0) = (vf'.dirty != 0) := by
    rw [Bool.eq_iff_iff, bne_iff_ne, bne_iff_ne]
    exact hdirty
  rw [pageOut, pageOut, hfile, hsave]

/-- The search ends at the victim, whose frame and dirty bit are those of the view. -/
theorem Packed.picks (h : Packed P V) (hv : V.Victim v) : v < packedNum ∧ ∃ P₁ f,
    Proc.chanceLoop (3 * P.vframes) P.refresh = some (v, P₁)
      ∧ Picks P P₁ v (packedRes v) f (V.bits v).2
      ∧ P.vspace (shellPage v) = .mapped f (V.bits v).1 (V.bits v).2 ∧ P.frame f = V.data v := by
  have ⟨u, P₁, r, f, d, hloop, hpicks⟩ := h.ok.picks
  have hu : u = v := h.victim hv hloop
  rw [hu] at hloop hpicks
  have hvn : v < packedNum := by
    rw [← h.vframes]
    exact h.ok.table.within v hpicks.inRAM
  have hr : r = packedRes v := by
    have := hpicks.reserve
    rw [h.reserve v hvn] at this
    exact (Option.some.inj this).symm
  have ⟨a, hmap⟩ := hpicks.mapped
  have ⟨g, hmap', hdata⟩ := h.page v hvn hv.ne
  rw [hr] at hpicks hmap
  have hmap : P.vspace (pageOf (packedAddr v)) = .mapped f a d := hmap
  rw [pageOf_packedAddr, hmap'] at hmap
  cases hmap
  exact ⟨hvn, P₁, f, hloop, hpicks, hmap', hdata⟩

section replaced
variable {f : ℕ} (h : Packed P V) (hv : V.Victim v) (hvn : v < packedNum)
  (hpicks : Picks P P₁ v (packedRes v) f (V.bits v).2) (hdata : P.frame f = V.data v)

include h hvn hpicks

theorem Packed.pageOut_eq : pageOut b.swap (P₁.vframe v) = V.pageOut b.swap v := by
  refine pageOut_congr ((hpicks.aged.pagefile v).trans (h.pagefile v hvn)) ?_
  rw [hpicks.dirty]
  show _ ↔ (V.bits v).2.toNat ≠ 0
  cases (V.bits v).2 <;> simp

include hdata

theorem Packed.backing_eq : Picks.backing b P₁ v f = V.backing b v := by
  rw [Picks.backing, View.backing, h.pageOut_eq hvn hpicks, hpicks.aged.frame, hdata]

omit hvn hdata

theorem Packed.replaced_vspace :
    (Picks.replaced b P₁ V.out v f (packedRes v) (packedRes V.out)).vspace
      = update (update P.vspace (shellPage v) .reserved) (shellPage V.out)
          (.mapped f false false) := by
  have hn : V.out < P.vframes := by
    rw [h.vframes]
    exact h.out
  have hout : (P.vframe V.out).inRAM = false := by
    rw [← Bool.not_eq_true]
    exact fun hram => (h.inRAM _ h.out).mp hram rfl
  rw [← pageOf_packedAddr, ← pageOf_packedAddr]
  exact hpicks.replaced_vspace h.ok hn hout (h.reserve V.out h.out)

include hv hvn hdata

/-- The frame of the victim holds the page that was out: its pagefile, or what was in the frame if it has
none. -/
theorem Packed.replaced_frame :
    (Picks.replaced b P₁ V.out v f (packedRes v) (packedRes V.out)).frame f
      = (V.replace b v).data V.out := by
  show ((Picks.evicted b P₁ v _).pageIn (Picks.backing b P₁ v f) V.out f).frame f
    = update V.data V.out _ V.out
  rw [update_self, h.backing_eq hvn hpicks hdata]
  have hfile : ((Picks.evicted b P₁ v (packedRes v)).vframe V.out).pagefile = V.pagefile V.out := by
    rw [Picks.evicted, Proc.unmap_pagefile, if_neg hv.ne.symm, hpicks.aged.pagefile]
    exact h.pagefile _ h.out
  cases hname : V.pagefile V.out with
  | none =>
    rw [hname] at hfile
    rw [Proc.pageIn, hfile]
    show P₁.frame f = _
    rw [hpicks.aged.frame, hdata]
    rfl
  | some name =>
    rw [hname] at hfile
    rw [pageIn_frame_self hfile]
    rfl

omit hv hdata

/-- Another page has its frame still, which is not the one of the victim. -/
theorem Packed.replaced_other {a d : Bool} (hmap : P.vspace (shellPage v) = .mapped f a d)
    (hi : i < packedNum) (hout : i ≠ V.out) (hne : i ≠ v) : ∃ g,
    (Picks.replaced b P₁ V.out v f (packedRes v) (packedRes V.out)).vspace (shellPage i)
        = .mapped g (V.bits i).1 (V.bits i).2
      ∧ (Picks.replaced b P₁ V.out v f (packedRes v) (packedRes V.out)).frame g = V.data i := by
  obtain ⟨g, hmap', hdata⟩ := h.page i hi hout
  have hpage : shellPage i ≠ shellPage V.out := fun heq => hout (packedPage_injective hi h.out heq)
  have hpage' : shellPage i ≠ shellPage v := fun heq => hne (packedPage_injective hi hvn heq)
  have hg : g ≠ f := by
    intro heq
    rw [heq] at hmap'
    exact hpage' (h.ok.table.single _ _ f _ _ _ _ hmap' hmap)
  refine ⟨g, ?_, ?_⟩
  · rw [h.replaced_vspace hpicks, update_of_ne hpage, update_of_ne hpage', hmap']
  · show ((Picks.evicted b P₁ v _).pageIn (Picks.backing b P₁ v f) V.out f).frame g = _
    rw [pageIn_frame_of_ne hg, ← hdata]
    show P₁.frame g = _
    rw [hpicks.aged.frame]

end replaced

/-- The page of the victim is replaced by the page that is out. -/
theorem Packed.replace (h : Packed P V) (hv : V.Victim v) :
    ∃ P', allocFrame b P V.out = some (V.backing b v, P') ∧ Packed P' (V.replace b v) := by
  obtain ⟨hvn, P₁, f, hloop, hpicks, hmap, hdata⟩ := h.picks hv
  have hn : V.out < P.vframes := by
    rw [h.vframes]
    exact h.out
  have hres := h.reserve V.out h.out
  refine ⟨Picks.replaced b P₁ V.out v f (packedRes v) (packedRes V.out), ?_, ?_⟩
  · rw [allocFrame_full h.used.ge, pageReplace_of_picks hloop hpicks hres,
      h.backing_eq hvn hpicks hdata]
  refine ⟨hpicks.ok h.ok hn hres, ?_, ?_, ?_, hvn, hpicks.replaced_replacer, ?_, ?_, ?_, ?_⟩
  · exact hpicks.replaced_vframes.trans h.vframes
  · exact hpicks.replaced_pframesUsed.trans h.used
  · exact hpicks.replaced_heapTop.trans h.heapTop
  · exact fun i hi => (hpicks.replaced_reserve i).trans (h.reserve i hi)
  · intro i hi
    rw [hpicks.replaced_inRAM, h.inRAM i hi]
    show _ ↔ i ≠ v
    constructor
    · rintro (heq | ⟨_, hne⟩)
      · rw [heq]
        exact hv.ne.symm
      · exact hne
    · intro hne
      by_cases heq : i = V.out
      · exact Or.inl heq
      · exact Or.inr ⟨heq, hne⟩
  · intro i hi
    rw [hpicks.replaced_pagefile, h.pageOut_eq hvn hpicks]
    show _ = update V.pagefile v _ i
    by_cases heq : i = v
    · rw [if_pos heq, heq, update_self]
    · rw [if_neg heq, update_of_ne heq]
      exact h.pagefile i hi
  · intro i hi hne
    have hne : i ≠ v := hne
    by_cases heq : i = V.out
    · rw [heq]
      refine ⟨f, ?_, h.replaced_frame hv hvn hpicks hdata⟩
      show _ = VEntry.mapped f (update V.bits V.out (false, false) V.out).1
        (update V.bits V.out (false, false) V.out).2
      rw [h.replaced_vspace hpicks, update_self, update_self]
    · have ⟨g, hpage, hframe⟩ := h.replaced_other (b := b) hvn hpicks hmap hi heq hne
      refine ⟨g, ?_, ?_⟩
      · show _ = VEntry.mapped g (update V.bits V.out (false, false) i).1
          (update V.bits V.out (false, false) i).2
        rw [hpage, update_of_ne heq]
      · show _ = update V.data V.out _ i
        rw [hframe, update_of_ne heq]

/-! ## Operations -/

theorem Packed.exec_write (h : Packed P V) (hj : j < packedNum) (hne : j ≠ V.out) (byte : UInt8) :
    ∃ P', execVm (shellSys b P) (.write 0 (packedAddr j) byte) = some (shellSys b P')
      ∧ Packed P' (V.access j (true, true) (setFirst (V.data j) byte)) := by
  have ⟨P', hwrite, hpacked⟩ := h.write hj hne byte
  exact ⟨P', withProc_shell hwrite, hpacked⟩

theorem Packed.reserved (h : Packed P V) : P.Reserved := by
  intro i hi
  rw [h.vframes] at hi
  rw [h.reserve i hi]
  exact fun h => by cases h

theorem Packed.findVframe (h : Packed P V) (hj : j < packedNum) :
    P.findVframe (packedAddr j) = some (some j) :=
  h.reserved.findVframe h.ok.table (h.vframes.symm ▸ hj) (h.reserve j hj) rfl

/-- The stack is expanded at the pages of the stack, and not at those of the heap. -/
theorem Packed.expands (h : Packed P V) (hj : j < packedNum) :
    P.expands (packedAddr j) = decide (j < stackPages) := by
  rw [Proc.expands, h.heapTop, shellTop, packedAddr, shellPage]
  by_cases hstack : j < stackPages
  · simp only [if_pos hstack, packedNum, stackPages, stackPage, heapPage, pageSize, heapBaseVaddr,
      stackTopVaddr] at *
    simp only [hstack, Bool.and_eq_true, decide_eq_true_eq, decide_true]
    omega
  · have hlow : ¬ (heapPage + (packedNum - stackPages)) * pageSize
        ≤ (heapPage + (j - stackPages)) * pageSize := by
      simp only [packedNum, stackPages, heapPage, pageSize] at *
      omega
    rw [if_neg hstack, decide_eq_false hlow, decide_eq_false hstack, Bool.false_and, Bool.false_and]

/-- A fault at the page that is out. -/
theorem Packed.exec_fault (h : Packed P V) (hv : V.Victim v) (hstack : stackPages ≤ V.out)
    (ip : ℕ) : ∃ P', execVm (shellSys b P) (.fault 0 (packedAddr V.out) ip)
        = some (shellSys (V.backing b v) P')
      ∧ Packed P' (V.replace b v) := by
  have ⟨P', halloc, hpacked⟩ := h.replace (b := b) hv
  have hrange : P.expands (packedAddr V.out) = false := by
    rw [h.expands h.out]
    exact decide_eq_false (by omega)
  refine ⟨P', ?_, hpacked⟩
  rw [execVm_pageIn shellSys_proc (h.findVframe h.out) hrange halloc, setProc_shellSys]

/-- The view of the process when its memory has just become full. -/
def warmView : View where
  out := 256
  rep := 15
  bits _ := (false, false)
  pagefile _ := none
  data _ _ := 0

theorem warmProc_packed (hok : (warmProc packedNum maxPframeNum).Ok) :
    Packed (warmProc packedNum maxPframeNum) warmView where
  ok := hok
  vframes := rfl
  used := rfl
  heapTop := rfl
  out := by decide
  replacer := rfl
  reserve i hi := by
    rw [warmProc_vframe hi]
    rfl
  inRAM i hi := by
    rw [warmProc_vframe hi]
    show decide (i < maxPframeNum) = true ↔ i ≠ 256
    rw [decide_eq_true_eq]
    simp only [packedNum, maxPframeNum] at *
    omega
  pagefile i hi := by
    rw [warmProc_vframe hi]
    rfl
  page i hi hout := by
    refine ⟨i, ?_, rfl⟩
    have hlt : i < maxPframeNum := by
      have hout : i ≠ 256 := hout
      simp only [packedNum, maxPframeNum] at *
      omega
    exact (shellSpace_of_lt (by decide) hi).trans (if_pos hlt)

end SeL4Sys

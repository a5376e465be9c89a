import SeL4Sys.Shell

/-!
# The resident set

From the creation of a process on, the VFrames in memory are as many as `pframes_used`, which never
exceeds `MAX_PFRAME_NUM`, and the frames that the process has obtained are mapped one to one at
their pages: `page_replace` takes a frame from one page and gives it to another.
-/

namespace SeL4Sys

open Function

/-- The VFrames in memory. -/
def Proc.inRAMSet (P : Proc) : Finset ℕ :=
  (Finset.range P.vframes).filter fun i => (P.vframe i).inRAM = true

/-- Every frame that was obtained is mapped. -/
def Proc.AllMapped (P : Proc) : Prop :=
  ∀ f, f < P.frameNum → ∃ page a d, P.vspace page = .mapped f a d

/-- `pframes_used` counts the VFrames in memory, and every frame that was obtained is mapped. -/
structure Proc.Full (P : Proc) : Prop where
  count : P.inRAMSet.card = P.pframesUsed
  le : P.pframesUsed ≤ maxPframeNum
  mapped : P.AllMapped

/-- The resident set of a process: its size, a page for each frame that is the page of a VFrame in
memory, a frame for each VFrame in memory, and `replacer`. -/
structure ResidentSet (P : Proc) : Prop where
  count : P.inRAMSet.card = P.pframesUsed
  le : P.pframesUsed ≤ maxPframeNum
  frame : ∀ f, f < P.frameNum → ∃! page, ∃ a d, P.vspace page = .mapped f a d
  page : ∀ page f a d, P.vspace page = .mapped f a d →
    ∃ i r, (i < P.vframes ∧ (P.vframe i).inRAM = true)
      ∧ (P.vframe i).reserve = some r ∧ pageOf r.start = page
  inRAM : ∀ i, i < P.vframes → (P.vframe i).inRAM = true →
    ∃ r f a d, f < P.frameNum ∧ (P.vframe i).reserve = some r
      ∧ P.vspace (pageOf r.start) = .mapped f a d
  replacer : ∃ r, P.replacer = some r ∧ r < P.vframes

variable {R : VmRules} {b : Backing} {P P' P₁ : Proc} {r : Backing × Proc} {p i v f : ℕ}
  {rv res : Reservation} {d : Bool}

namespace Proc

theorem mem_inRAMSet (hwithin : P.Within) : i ∈ P.inRAMSet ↔ (P.vframe i).inRAM = true := by
  rw [inRAMSet, Finset.mem_filter, Finset.mem_range]
  exact ⟨fun h => h.2, fun h => ⟨hwithin i h, h⟩⟩

theorem Ok.residentSet (h : P.Ok) (hfull : P.Full) : ResidentSet P where
  count := hfull.count
  le := hfull.le
  frame f hf := by
    have ⟨page, a, d, hmap⟩ := hfull.mapped f hf
    refine ⟨page, ⟨a, d, hmap⟩, ?_⟩
    intro page' ⟨a', d', hmap'⟩
    exact h.table.single page' page f a' d' a d hmap' hmap
  page page f a d hmap := by
    have ⟨i, r, hram, hr, hpage⟩ := h.table.owner page f a d hmap
    exact ⟨i, r, ⟨h.table.within i hram, hram⟩, hr, hpage⟩
  inRAM i _ hram := by
    have ⟨r, f, a, d, hr, hmap⟩ := h.table.resident i hram
    exact ⟨r, f, a, d, h.table.obtained _ f a d hmap, hr, hmap⟩
  replacer := h.replacer

/-! ## The steps keep the set full -/

/-- The count and the frames do not depend on the bits, the contents and `heap_top`. -/
theorem Full.congr (h : P.Full) (hset : P'.inRAMSet = P.inRAMSet)
    (hused : P'.pframesUsed = P.pframesUsed) (hnum : P'.frameNum = P.frameNum)
    (hmapped : ∀ page f a d, P.vspace page = .mapped f a d →
      ∃ a' d', P'.vspace page = .mapped f a' d') : P'.Full where
  count := by
    rw [hset, hused]
    exact h.count
  le := by
    rw [hused]
    exact h.le
  mapped f hf := by
    rw [hnum] at hf
    have ⟨page, a, d, hmap⟩ := h.mapped f hf
    have ⟨a', d', hmap'⟩ := hmapped page f a d hmap
    exact ⟨page, a', d', hmap'⟩

theorem Full.touch (h : P.Full) {page f : ℕ} {a d a' d' : Bool}
    (hmap : P.vspace page = .mapped f a d) {frame : ℕ → Page} :
    Full { P with
      vspace := update P.vspace page (.mapped f a' d')
      frame := frame } := by
  refine h.congr rfl rfl rfl ?_
  intro q g a₁ d₁ hq
  by_cases heq : q = page
  · rw [heq, hmap] at hq
    cases hq
    refine ⟨a', d', ?_⟩
    rw [heq]
    exact update_self ..
  · exact ⟨a₁, d₁, (update_of_ne heq ..).trans hq⟩

theorem Full.reservePage (h : P.Full) (hwithin : P.Within) (vaddr : ℕ) :
    (P.reservePage vaddr).Full := by
  refine h.congr ?_ rfl rfl ?_
  · ext i
    rw [inRAMSet, inRAMSet, Finset.mem_filter, Finset.mem_filter, Finset.mem_range,
      Finset.mem_range, reservePage_inRAM hwithin, reservePage_vframes]
    constructor
    · exact fun hi => ⟨hwithin i hi.2, hi.2⟩
    · exact fun hi => ⟨by omega, hi.2⟩
  · exact fun page f a d hmap => ⟨a, d, reservePage_mapped.mpr hmap⟩

theorem AllMapped.reservePage (h : P.AllMapped) (vaddr : ℕ) : (P.reservePage vaddr).AllMapped := by
  intro f hf
  have ⟨page, a, d, hmap⟩ := h f hf
  exact ⟨page, a, d, reservePage_mapped.mpr hmap⟩

/-- The new frame is mapped at the page of the VFrame. -/
theorem AllMapped.allotted (h : P.AllMapped) (htable : P.Table) (hn : i < P.vframes)
    (hi : (P.vframe i).inRAM = false) (hr : (P.vframe i).reserve = some res) :
    (P.allotted i res).AllMapped := by
  intro f hf
  rw [htable.allotted_eq hn hi hr] at hf ⊢
  have habsent := htable.absent i res hn hi hr
  have hvspace : mapPage P.vspace res.start P.frameNum
      = update P.vspace (pageOf res.start) (.mapped P.frameNum false false) := by
    rw [mapPage, if_pos habsent]
  by_cases hlast : f = P.frameNum
  · refine ⟨pageOf res.start, false, false, ?_⟩
    show mapPage P.vspace res.start P.frameNum _ = _
    rw [hvspace, update_self, hlast]
  · have hlt : f < P.frameNum := by
      have : f < P.frameNum + 1 := hf
      omega
    obtain ⟨page, a, d, hmap⟩ := h f hlt
    have hne : page ≠ pageOf res.start := by
      intro heq
      rw [heq, habsent] at hmap
      cases hmap
    refine ⟨page, a, d, ?_⟩
    show mapPage P.vspace res.start P.frameNum page = _
    rw [hvspace, update_of_ne hne]
    exact hmap

/-- A new frame for a VFrame that is not in memory. -/
theorem Full.allotted (h : P.Full) (htable : P.Table) (hnew : P.pframesUsed < maxPframeNum)
    (hn : i < P.vframes) (hi : (P.vframe i).inRAM = false)
    (hr : (P.vframe i).reserve = some res) : (P.allotted i res).Full where
  count := by
    have hset : (P.allotted i res).inRAMSet = insert i P.inRAMSet := by
      ext j
      rw [mem_inRAMSet (htable.allotted hn hr).within, Finset.mem_insert,
        mem_inRAMSet htable.within, allotted_inRAM]
    have hnot : i ∉ P.inRAMSet := by
      rw [mem_inRAMSet htable.within, hi]
      exact Bool.false_ne_true
    rw [hset, Finset.card_insert_of_notMem hnot, h.count, allotted_pframesUsed]
  le := by
    rw [allotted_pframesUsed]
    exact hnew
  mapped := h.mapped.allotted htable hn hi hr

end Proc

/-- A replacement moves the frame of the page that is picked to the page of the VFrame. -/
theorem Picks.full (hpicks : Picks P P₁ v rv f d) (hok : P.Ok) (h : P.Full) (hn : i < P.vframes)
    (hi : (P.vframe i).inRAM = false) (hr : (P.vframe i).reserve = some res) :
    (replaced b P₁ i v f rv res).Full where
  count := by
    -- one page comes in for the one that goes out
    have hset : (replaced b P₁ i v f rv res).inRAMSet = insert i (P.inRAMSet.erase v) := by
      ext j
      rw [Proc.mem_inRAMSet (hpicks.table_replaced hok hn hr).within, hpicks.replaced_inRAM,
        Finset.mem_insert, Finset.mem_erase, Proc.mem_inRAMSet hok.table.within]
      tauto
    have hmem : v ∈ P.inRAMSet := (Proc.mem_inRAMSet hok.table.within).mpr hpicks.inRAM
    have hnot : i ∉ P.inRAMSet.erase v := by
      rw [Finset.mem_erase, Proc.mem_inRAMSet hok.table.within, hi]
      exact fun h => Bool.false_ne_true h.2
    rw [hset, Finset.card_insert_of_notMem hnot, Finset.card_erase_add_one hmem, h.count,
      hpicks.replaced_pframesUsed]
  le := by
    rw [hpicks.replaced_pframesUsed]
    exact h.le
  mapped g hg := by
    rw [hpicks.replaced_frameNum] at hg
    have ⟨a, hmap⟩ := hpicks.mapped
    rw [hpicks.replaced_vspace hok hn hi hr]
    by_cases hgf : g = f
    · exact ⟨pageOf res.start, false, false, by rw [update_self, hgf]⟩
    · have ⟨page, a', d', hmap'⟩ := h.mapped g hg
      have hne : page ≠ pageOf res.start := by
        intro heq
        rw [heq, hok.table.absent i res hn hi hr] at hmap'
        cases hmap'
      have hne' : page ≠ pageOf rv.start := by
        intro heq
        rw [heq, hmap] at hmap'
        cases hmap'
        exact hgf rfl
      refine ⟨page, a', d', ?_⟩
      rw [update_of_ne hne, update_of_ne hne']
      exact hmap'

/-- The rule that `alloc_frame` is called for VFrames that are not in memory. -/
def absentRules : VmRules where
  store _ _ _ := True
  project _ _ _ := True
  alloc _ P i := (P.vframe i).inRAM = false

theorem ProcStep.full (hok : P.Ok) (h : P.Full) (hstep : ProcStep absentRules p (b, P) r) :
    r.2.Full := by
  cases hstep with
  | load hmap => exact h.touch hmap
  | store byte hmap _ => exact h.touch hmap
  | project byte hmap _ => exact h.congr rfl rfl rfl fun page f a d hmap => ⟨a, d, hmap⟩
  | heap _ _ => exact h.congr rfl rfl rfl fun page f a d hmap => ⟨a, d, hmap⟩
  | reserve _ => exact h.reservePage hok.table.within _
  | @alloc _ _ i r hn hi halloc =>
    cases allocFrame_allocated hok halloc with
    | new res hr hnew => exact h.allotted hok.table hnew hn hi hr
    | replaced res rv v f P₁ d hr hfull hpicks => exact hpicks.full hok h hn hi hr

/-! ## A new process -/

/-- The stack of a new process takes a frame for each page. -/
theorem newProcess_full {image : ℕ → Bool} (h : newProcess (imageSpace image) = some P) :
    P.Full := by
  have hstack := newProcess_stackOk h
  have ⟨Q, hloop, heq⟩ := Option.map_eq_some_iff.mp h
  have hempty : (emptyProc (imageSpace image)).Table ∧ (emptyProc (imageSpace image)).AllMapped :=
    ⟨emptyProc_table image, fun f hf => absurd hf (Nat.not_lt_zero f)⟩
  have hQ : Q.Table ∧ Q.AllMapped := by
    refine stackLoop_induction (I := fun P => P.Table ∧ P.AllMapped) hempty (by decide) ?_ hloop
    intro P vaddr ⟨htable, hall⟩ haligned hfree
    have htable' := htable.reservePage haligned
    have hres := reservePage_reserve hfree
    have hram : ((P.reservePage vaddr).vframe P.vframes).inRAM = false := by
      rw [Proc.reservePage_vframe_self]
      rfl
    exact ⟨htable'.allotted (Nat.lt_succ_self _) hres,
      (hall.reservePage vaddr).allotted htable' (Nat.lt_succ_self _) hram hres⟩
  refine ⟨?_, ?_, ?_⟩
  · have hset : P.inRAMSet = Finset.range P.vframes := by
      apply Finset.filter_true_of_mem
      intro i hi
      exact hstack.1.inRAM i (Finset.mem_range.mp hi)
    rw [hset, Finset.card_range, hstack.1.used]
  · rw [hstack.1.used, hstack.2.1]
    decide
  · rw [← heq]
    exact hQ.2

/-! ## Runs -/

/-- The fault is not at a page that is in memory. -/
def FaultsAbsent (s : Sys) : VmOp → Prop
  | .fault p vaddr _ => ∀ P, s.proc p = some P → ∀ i, P.findVframe vaddr = some (some i) →
      (P.vframe i).inRAM = false
  | _ => True

/-- Every process has its resident set. -/
def Sys.ProcsFull (s : Sys) : Prop := ∀ p P, s.proc p = some P → P.Full

variable {s s' : Sys}

theorem absentRules_allows {op : VmOp} (h : FaultsAbsent s op) : absentRules.Allows s op := by
  cases op with
  | fault p vaddr ip =>
    intro P hP
    refine ⟨?_, fun _ i hfind => h P hP i hfind⟩
    intro _
    show ((P.reservePage _).vframe P.vframes).inRAM = false
    rw [Proc.reservePage_vframe_self]
    rfl
  | write p vaddr byte => exact fun _ _ => trivial
  | project p vaddr byte => exact fun _ _ => trivial
  | _ => trivial

theorem VmSmall.procsFull (hok : s.ProcsOk) (hfull : s.ProcsFull) (h : VmSmall absentRules s s') :
    s'.ProcsFull :=
  h.forall_proc hfull (fun _ _ => newProcess_full) fun p P _ hP hstep =>
    hstep.full (hok p P hP) (hfull p P hP)

theorem VmSmall.run_procsFull (hok : s.ProcsOk) (hfull : s.ProcsFull)
    (h : Relation.ReflTransGen (VmSmall absentRules) s s') : s'.ProcsFull := by
  induction h with
  | refl => exact hfull
  | tail hrun hstep ih => exact hstep.procsFull (VmSmall.run_procsOk hok hrun) ih

/-- In a process whose VFrames have their reservations every fault is handled. -/
theorem execVm_fault_isSome {p vaddr ip : ℕ} (hok : s.ProcsOk) (hres : s.Reserved)
    (hp : (s.proc p).isSome) (hop : ReservesOk s (.fault p vaddr ip)) :
    (execVm s (.fault p vaddr ip)).isSome := by
  have ⟨P, hP⟩ := Option.isSome_iff_exists.mp hp
  have ⟨vframe, hfind⟩ := findVframe_isSome vaddr (hres p P hP)
  by_cases hrange : P.expands vaddr = true
  · have ⟨b', P', heq, _⟩ := expandStack_ok (b := s.toBacking) (hok p P hP) (hop P hP hrange)
    rw [execVm_expand hP hfind hrange heq]
    rfl
  have hrange : P.expands vaddr = false := by simpa using hrange
  cases vframe with
  | none =>
    rw [execVm_unhandled hP hfind hrange]
    rfl
  | some i =>
    have hi := findVframe_lt hfind
    have ⟨res, hr⟩ := Option.ne_none_iff_exists'.mp (hres p P hP i hi)
    have ⟨b', P', heq, _⟩ := allocFrame_ok (b := s.toBacking) (hok p P hP) hi hr
    rw [execVm_pageIn hP hfind hrange heq]
    rfl

/-- In every run from boot in which reservations succeed and faults are at pages that are not in
memory, every process has its resident set, and its faults are handled. -/
theorem run_residentSet {w : Swap} {file : Name → Page} {s : Sys} {p : ℕ} {P : Proc}
    (hrun : VmRun (fun s op => ReservesOk s op ∧ FaultsAbsent s op) (bootSys w file) s)
    (hP : s.proc p = some P) :
    ResidentSet P ∧ ∀ vaddr ip, ReservesOk s (.fault p vaddr ip) →
      (execVm s (.fault p vaddr ip)).isSome := by
  have ⟨hsmall, hok⟩ := VmRun.small (R := absentRules) (fun _ _ h => absentRules_allows h.2)
    bootSys_procsOk hrun
  have hfull := VmSmall.run_procsFull bootSys_procsOk (fun _ _ h => by cases h) hsmall
  have hres := (VmRun.reserved (fun _ _ h => h.1) bootSys_procsOk bootSys_reserved hrun).2
  refine ⟨(hok p P hP).residentSet (hfull p P hP), ?_⟩
  intro vaddr ip hop
  exact execVm_fault_isSome hok hres (by rw [hP]; rfl) hop

/-- A process that has filled its memory: 16 pages of stack and 240 of its 241 pages of heap. -/
theorem run_residentSet_full : ResidentSet (warmProc 257 256) ∧ (warmProc 257 256).inRAMSet.card = 256 := by
  have hfault : ∀ m, stackPages ≤ m → m < stackPages + 240 →
      ReservesOk (shellSys ⟨⟨[], 0⟩, fun _ _ => 0⟩ (warmProc 257 m)) (.fault 0 (shellPage m * pageSize) 1)
      ∧ FaultsAbsent (shellSys ⟨⟨[], 0⟩, fun _ _ => 0⟩ (warmProc 257 m))
          (.fault 0 (shellPage m * pageSize) 1) := by
    intro m hstack hm
    have hlt : m < 257 := by
      simp only [stackPages] at hm
      omega
    refine ⟨warm_reservesOk_fault hstack hlt (pageOf_shellPage m), ?_⟩
    intro Q hQ i hfind
    rw [(shellSys_proc_eq hQ).2] at hfind ⊢
    rw [warmProc_findVframe (by decide) hlt (pageOf_shellPage m) hfind, warmProc_vframe hlt]
    exact decide_eq_false (lt_irrefl m)
  have hrun : VmRun (fun s op => ReservesOk s op ∧ FaultsAbsent s op)
      (bootSys ⟨[], 0⟩ fun _ _ => 0) (shellSys ⟨⟨[], 0⟩, fun _ _ => 0⟩ (warmProc 257 256)) :=
    warm_run (n := 241) (k := 240) (by decide) (by decide) (by decide) (by decide)
      ⟨trivial, trivial⟩ ⟨fun _ _ _ _ h => absurd h (Nat.not_lt_zero _), trivial⟩
      ⟨warm_reservesOk_brk (by decide), trivial⟩ hfault
  have hset := (run_residentSet hrun shellSys_proc).1
  exact ⟨hset, hset.count⟩

end SeL4Sys

import SeL4Sys.ContentRuns
import SeL4Sys.Packed

/-!
# Pages that are replaced and come back

A page comes back with the contents it had when it was replaced, as long as no two pages share a
pagefile. What the server stores into a page is lost when the page is replaced while its entry in
the page table is clean and it has a pagefile from before.
-/

namespace SeL4Sys

open Function Relation

/-! ## The stores of the process itself -/

/-- Every operation except a store of the server. -/
def OwnOp (_ : Sys) : VmOp → Prop
  | .project _ _ _ => False
  | _ => True

/-- The contents of the page of VFrame `i` of process `p`: in its frame while it is in memory. -/
def Sys.contents (s : Sys) (p i : ℕ) : Option Page :=
  (s.proc p).bind fun P => content s.toBacking P i

/-- VFrame `i` of process `p` is in memory, or is not. -/
def Sys.Ram (s : Sys) (p i : ℕ) (inRAM : Bool) : Prop :=
  ∃ P, s.proc p = some P ∧ (P.vframe i).inRAM = inRAM

/-- The page of VFrame `i` of process `p` is replaced in the step from `s` to `s₁`, is out of memory
until `s₂`, while the process lives, and comes back in the step to `s₃`. -/
structure RoundTrip (p i : ℕ) (s s₁ s₂ s₃ : Sys) : Prop where
  before : s.Ram p i true
  leaves : VmStep OwnOp s s₁
  out : s₁.Ram p i false
  away : ReflTransGen (fun t t' => VmStep OwnOp t t' ∧ t'.Ram p i false) s₁ s₂
  returns : VmStep OwnOp s₂ s₃
  back : s₃.Ram p i true

variable {s s' s₁ s₂ s₃ : Sys} {p i : ℕ} {P P' : Proc} {op : VmOp} {ok : Sys → VmOp → Prop}

theorem OwnOp.projectsUnsaved (h : OwnOp s op) : ProjectsUnsaved s op := by
  cases op with
  | project p vaddr byte => exact absurd h id
  | _ => trivial

theorem Sys.Ram.live {ram : Bool} (h : s.Ram p i ram) : s.proc p ≠ none := by
  have ⟨P, hP, _⟩ := h
  rw [hP]
  exact fun h => by cases h

/-- A page that is out of memory before or after the operation is not stored to. -/
theorem misses_of_out (hok : s.ProcsOk) (hop : OwnOp s op) (h : execVm s op = some s')
    (hP : s.proc p = some P) (hi : i < P.vframes)
    (hout : (P.vframe i).inRAM = false ∨ s'.Ram p i false) (o : Fin pageSize) :
    Misses p i o s op := by
  cases op with
  | project q vaddr byte => exact absurd hop id
  | write q vaddr byte =>
    intro hq Q hQ ⟨_, r, hr, hpage⟩
    rw [hq, hP] at hQ
    rw [← Option.some.inj hQ] at hr
    cases execVm_executed h with
    | @write _ _ f _ Q' a d hQ' hmap =>
      rw [hq, hP] at hQ'
      rw [← Option.some.inj hQ'] at hmap hout
      have hram : (P.vframe i).inRAM = true := by
        rw [← hpage] at hmap
        exact (hok p P hP).table.inRAM_of_mapped hi hr hmap
      rcases hout with hout | ⟨Q'', hQ'', hout⟩
      · rw [hram] at hout
        cases hout
      · rw [hq, setProc_proc_self] at hQ''
        rw [← Option.some.inj hQ''] at hout
        have hout : (P.vframe i).inRAM = false := hout
        rw [hram] at hout
        cases hout
  | _ => trivial

/-- A step in which the page leaves memory, stays out or comes back keeps its contents. -/
theorem Sys.ContentIs.step {res : Option Reservation} {page : Page} {ram : Bool} (hs : s.Saved)
    (hcontent : s.ContentIs p i res page) (hstep : VmStep OwnOp s s')
    (hout : s.Ram p i false ∨ s'.Ram p i false) (hlive : s'.Ram p i ram) :
    s'.Saved ∧ s'.ContentIs p i res page := by
  have ⟨op, hop, hexec⟩ := hstep
  have ⟨P, hP, hi, _⟩ := hcontent
  have hout' : (P.vframe i).inRAM = false ∨ s'.Ram p i false := by
    rcases hout with ⟨Q, hQ, hram⟩ | hout
    · rw [hP] at hQ
      rw [← Option.some.inj hQ] at hram
      exact Or.inl hram
    · exact Or.inr hout
  exact ⟨execVm_saved hs hop.projectsUnsaved hexec,
    execVm_contentIs hs hop.projectsUnsaved (misses_of_out hs.procs hop hexec hP hi hout') hexec
      hcontent hlive.live⟩

/-- While the page is out its contents stay. -/
theorem Sys.ContentIs.away {res : Option Reservation} {page : Page} (hs : s.Saved)
    (hcontent : s.ContentIs p i res page) (hout : s.Ram p i false)
    (h : ReflTransGen (fun t t' => VmStep OwnOp t t' ∧ t'.Ram p i false) s s') :
    (s'.Saved ∧ s'.ContentIs p i res page) ∧ s'.Ram p i false := by
  induction h with
  | refl => exact ⟨⟨hs, hcontent⟩, hout⟩
  | tail _ hstep ih => exact ⟨ih.1.2.step ih.1.1 hstep.1 (Or.inl ih.2) hstep.2, hstep.2⟩

/-- In every run from a boot at which the names in the directory are distinct from those formed
later, a page that comes back into memory has the contents it had when it was last replaced. -/
theorem roundTrip_contents {names : List Name} {w : Swap} {file : Name → Page}
    (hinit : pagefileInit names = some w) (hboot : BootNames names)
    (hrun : VmRun OwnOp (bootSys w file) s) (htrip : RoundTrip p i s s₁ s₂ s₃) :
    (s.contents p i).isSome ∧ s₃.contents p i = s.contents p i := by
  have hs : s.Saved :=
    VmRun.saved (fun _ _ h => h.projectsUnsaved) (bootSys_saved hinit hboot) hrun
  have ⟨P, hP, hram⟩ := htrip.before
  have htable := (hs.procs p P hP).table
  have ⟨r, f, a, d, hr, hmap⟩ := htable.resident i hram
  have hcontent : content s.toBacking P i = some (P.frame f) := content_inRAM hram hr hmap
  have hstart : s.ContentIs p i (some r) (P.frame f) := ⟨P, hP, htable.within i hram, hr, hcontent⟩
  have hleft := hstart.step hs htrip.leaves (Or.inr htrip.out) htrip.out
  have haway := hleft.2.away hleft.1 htrip.out htrip.away
  have hback := haway.1.2.step haway.1.1 htrip.returns (Or.inl haway.2) htrip.back
  have ⟨P₃, hP₃, _, _, hcontent₃⟩ := hback.2
  rw [Sys.contents, Sys.contents, hP, hP₃, Option.bind_some, Option.bind_some, hcontent, hcontent₃]
  exact ⟨rfl, rfl⟩

/-! A run in which the process stores 1 to the first bytes of VFrames 0 to 254, so that VFrame 255 is
replaced when the last page of the heap is touched, and VFrame 254 when 255 is touched again. -/

/-- The view after the stores to the first `k` VFrames. -/
def filledView (k : ℕ) : View where
  out := 256
  rep := 15
  bits i := if i < k then (true, true) else (false, false)
  pagefile _ := none
  data i := if i < k then setFirst (fun _ => 0) 1 else fun _ => 0

theorem filledView_succ (k : ℕ) :
    (filledView k).access k (true, true) (setFirst ((filledView k).data k) 1)
      = filledView (k + 1) := by
  have hdata : (filledView k).data k = fun _ => 0 := if_neg (lt_irrefl k)
  have hbits : update (filledView k).bits k (true, true) = (filledView (k + 1)).bits := by
    funext i
    by_cases hi : i = k
    · rw [hi, update_self]
      exact (if_pos (Nat.lt_succ_self k)).symm
    · rw [update_of_ne hi]
      show (if i < k then _ else _) = if i < k + 1 then _ else _
      simp only [show i < k + 1 ↔ i < k by omega]
  have hpages : update (filledView k).data k (setFirst (fun _ => 0) 1)
      = (filledView (k + 1)).data := by
    funext i
    by_cases hi : i = k
    · rw [hi, update_self]
      exact (if_pos (Nat.lt_succ_self k)).symm
    · rw [update_of_ne hi]
      show (if i < k then _ else _) = if i < k + 1 then _ else _
      simp only [show i < k + 1 ↔ i < k by omega]
  rw [View.access, hdata, hbits, hpages]
  rfl

/-- The run up to the point where the first `k` VFrames have been stored to. -/
theorem filled_run (w : Swap) (file : Name → Page) {k : ℕ} (hk : k ≤ 256) :
    ∃ P, VmRun OwnOp (bootSys w file) (shellSys ⟨w, file⟩ P) ∧ Packed P (filledView k) := by
  induction k with
  | zero =>
    have hrun : VmRun OwnOp (bootSys w file)
        (shellSys ⟨w, file⟩ (warmProc packedNum maxPframeNum)) :=
      warm_run (n := 241) (k := 240) (by decide) (by decide) (by decide) (by decide)
        trivial trivial trivial fun _ _ _ => trivial
    have hok := VmRun.procsOk bootSys_procsOk hrun 0 _ shellSys_proc
    have hview : filledView 0 = warmView := by
      simp [filledView, warmView]
    rw [hview]
    exact ⟨_, hrun, warmProc_packed hok⟩
  | succ k ih =>
    have ⟨P, hrun, hpacked⟩ := ih (by omega)
    have hlt : k < packedNum := by
      simp only [packedNum]
      omega
    have hne : k ≠ (filledView k).out := by
      show k ≠ 256
      omega
    have ⟨P', hexec, hpacked'⟩ := hpacked.exec_write (b := ⟨w, file⟩) hlt hne 1
    rw [filledView_succ] at hpacked'
    exact ⟨P', hrun.tail ⟨.write 0 (packedAddr k) 1, trivial, hexec⟩, hpacked'⟩

/-- The view after the stores to the first 255 VFrames, with any contents. -/
def stampedView (data : ℕ → Page) : View := { filledView 255 with data := data }

theorem stampedView_victim (data : ℕ → Page) : (stampedView data).Victim 255 := by
  have hfull : ∀ i, i < 255 → (stampedView data).credit i = 2 := by
    intro i hi
    simp [View.credit, stampedView, filledView, hi]
  have hself : (stampedView data).credit 255 = 0 := rfl
  refine ⟨show 15 < packedNum by decide, ⟨17, by decide, rfl, ?_⟩, show 255 ≠ 256 by decide, ?_⟩
  · intro j hj hout
    rw [hself, hfull]
    · decide
    · have hout : Proc.turn packedNum 15 j ≠ 256 := hout
      show Proc.turn packedNum 15 j < 255
      rw [Proc.turn] at *
      simp only [packedNum] at *
      split_ifs at * <;> omega
  · intro i _ _
    rw [hself]
    exact Nat.zero_le _

/-- The pagefiles after VFrame 255 has been replaced. -/
def firstBacking (data : ℕ → Page) (b : Backing) : Backing := (stampedView data).backing b 255

/-- The view after the last page of the heap has been stored to: VFrame 255 is out. -/
def touchedView (data : ℕ → Page) (b : Backing) : View :=
  ((stampedView data).replace b 255).access 256 (true, true)
    (setFirst (((stampedView data).replace b 255).data 256) 1)

theorem touchedView_victim (data : ℕ → Page) (b : Backing) : (touchedView data b).Victim 254 := by
  have hfull : ∀ i, i < packedNum → i ≠ 255 → (touchedView data b).credit i = 2 := by
    intro i hi hne
    by_cases hlast : i = 256
    · rw [hlast]
      rfl
    · have hlt : i < 255 := by
        simp only [packedNum] at hi
        omega
      simp [View.credit, touchedView, View.access, View.replace, stampedView, filledView, hlast, hlt]
  refine ⟨show 255 < packedNum by decide, ⟨1, by decide, rfl, ?_⟩, show 254 ≠ 255 by decide, ?_⟩
  · intro j hj hout
    rw [Nat.lt_one_iff] at hj
    rw [hj] at hout
    exact absurd rfl hout
  · intro i hi hne
    rw [hfull i hi hne, hfull 254 (by decide) (by decide)]

/-- The pagefiles after VFrame 255 and then VFrame 254 have been replaced. -/
def tripBacking (data : ℕ → Page) (b : Backing) : Backing :=
  (touchedView data b).backing (firstBacking data b) 254

/-- The view after VFrame 255 has come back. -/
def tripView (data : ℕ → Page) (b : Backing) : View :=
  (touchedView data b).replace (firstBacking data b) 254

/-- VFrame 255 is replaced and comes back. -/
theorem stamped_trip (data : ℕ → Page) (b : Backing) (h : Packed P (stampedView data)) :
    ∃ P₁ P₂ P₃,
      execVm (shellSys b P) (.fault 0 (packedAddr 256) 1) = some (shellSys (firstBacking data b) P₁)
      ∧ execVm (shellSys (firstBacking data b) P₁) (.write 0 (packedAddr 256) 1)
          = some (shellSys (firstBacking data b) P₂)
      ∧ execVm (shellSys (firstBacking data b) P₂) (.fault 0 (packedAddr 255) 1)
          = some (shellSys (tripBacking data b) P₃)
      ∧ Packed P₁ ((stampedView data).replace b 255) ∧ Packed P₂ (touchedView data b)
      ∧ Packed P₃ (tripView data b) := by
  have ⟨P₁, hexec₁, hpacked₁⟩ := h.exec_fault (b := b) (stampedView_victim data)
    (show stackPages ≤ 256 by decide) 1
  have ⟨P₂, hexec₂, hpacked₂⟩ := hpacked₁.exec_write (b := firstBacking data b) (j := 256)
    (by decide) (show 256 ≠ 255 by decide) 1
  have ⟨P₃, hexec₃, hpacked₃⟩ := Packed.exec_fault (V := touchedView data b)
    (b := firstBacking data b) hpacked₂ (touchedView_victim data b)
    (show stackPages ≤ 255 by decide) 1
  exact ⟨P₁, P₂, P₃, hexec₁, hexec₂, hexec₃, hpacked₁, hpacked₂, hpacked₃⟩

theorem Packed.ram (h : Packed P V) {b : Backing} (hi : i < packedNum) :
    (shellSys b P).Ram 0 i (decide (i ≠ V.out)) := by
  refine ⟨P, shellSys_proc, ?_⟩
  rw [Bool.eq_iff_iff, decide_eq_true_eq]
  exact h.inRAM i hi

/-- The contents after the stores. -/
abbrev filledData : ℕ → Page := (filledView 255).data

/-- The run up to the stores, and the round trip of VFrame 255. -/
theorem filled_trip (b : Backing) : ∃ P P₁ P₂ P₃,
    VmRun OwnOp (bootSys b.swap b.file) (shellSys b P)
      ∧ RoundTrip 0 255 (shellSys b P) (shellSys (firstBacking filledData b) P₁)
          (shellSys (firstBacking filledData b) P₂) (shellSys (tripBacking filledData b) P₃)
      ∧ Packed P (filledView 255) ∧ Packed P₃ (tripView filledData b) := by
  have ⟨P, hrun, hpacked⟩ := filled_run b.swap b.file (k := 255) (by decide)
  have ⟨P₁, P₂, P₃, hexec₁, hexec₂, hexec₃, hpacked₁, hpacked₂, hpacked₃⟩ :=
    stamped_trip filledData b hpacked
  refine ⟨P, P₁, P₂, P₃, hrun, ?_, hpacked, hpacked₃⟩
  exact {
    before := hpacked.ram (by decide)
    leaves := ⟨.fault 0 (packedAddr 256) 1, trivial, hexec₁⟩
    out := hpacked₁.ram (by decide)
    away := ReflTransGen.single
      ⟨⟨.write 0 (packedAddr 256) 1, trivial, hexec₂⟩, hpacked₂.ram (by decide)⟩
    returns := ⟨.fault 0 (packedAddr 255) 1, trivial, hexec₃⟩
    back := hpacked₃.ram (by decide) }

theorem Packed.contents (h : Packed P V) {b : Backing} (hi : i < packedNum) (hne : i ≠ V.out) :
    (shellSys b P).contents 0 i = some (V.data i) := by
  rw [Sys.contents, shellSys_proc, Option.bind_some]
  exact h.content hi hne

/-- What comes back is the file of VFrame 255 after VFrame 254 has been saved. -/
theorem tripView_data (b : Backing) : (tripView filledData b).data 255
    = update (update b.file (getPagefile b.swap).1 fun _ => 0)
        (getPagefile (getPagefile b.swap).2).1 (setFirst (fun _ => 0) 1) (getPagefile b.swap).1 :=
  rfl

/-- The round trip after a boot with an empty directory. -/
theorem roundTrip_contents_empty : ∃ P P₁ P₂ P₃,
    let b : Backing := ⟨⟨[], 0⟩, fun _ _ => 0⟩
    let s := shellSys b P
    let s₃ := shellSys (tripBacking filledData b) P₃
    RoundTrip 0 255 s (shellSys (firstBacking filledData b) P₁)
        (shellSys (firstBacking filledData b) P₂) s₃
      ∧ s₃.contents 0 255 = s.contents 0 255 := by
  have ⟨P, P₁, P₂, P₃, hrun, htrip, _⟩ := filled_trip ⟨⟨[], 0⟩, fun _ _ => 0⟩
  have hboot : BootNames [] := ⟨List.nodup_nil, fun _ _ => List.not_mem_nil⟩
  have hinit : pagefileInit [] = some ⟨[], 0⟩ := rfl
  have hkept := roundTrip_contents hinit hboot hrun htrip
  exact ⟨P, P₁, P₂, P₃, htrip, hkept.2⟩

/-- The pagefiles after a boot with one file `page1`, of zeros. -/
def page1Backing : Backing := ⟨⟨[⟨entryPath (pageEntry 1), false⟩], 1⟩, fun _ _ => 0⟩

/-- With one file `page1` at boot VFrames 255 and 254 get the same pagefile, and VFrame 255 comes
back with the contents of VFrame 254. -/
theorem page1_mixes_contents : ∃ s s₁ s₂ s₃,
    pagefileInit [pageEntry 1] = some page1Backing.swap
      ∧ VmRun OwnOp (bootSys page1Backing.swap page1Backing.file) s
      ∧ RoundTrip 0 255 s s₁ s₂ s₃
      ∧ s.contents 0 255 = some (fun _ => 0)
      ∧ s₃.contents 0 255 = some (setFirst (fun _ => 0) 1)
      ∧ s₃.contents 0 255 ≠ s.contents 0 255 := by
  have ⟨P, P₁, P₂, P₃, hrun, htrip, hpacked, hpacked₃⟩ := filled_trip page1Backing
  have hfirst : (getPagefile page1Backing.swap).1 = entryPath (pageEntry 1) := rfl
  have hsecond : (getPagefile (getPagefile page1Backing.swap).2).1 = entryPath (pageEntry 1) := rfl
  have hbefore : (shellSys page1Backing P).contents 0 255 = some (fun _ => 0) :=
    hpacked.contents (by decide) (by decide)
  have hafter : (shellSys (tripBacking filledData page1Backing) P₃).contents 0 255
      = some (setFirst (fun _ => 0) 1) := by
    rw [hpacked₃.contents (by decide) (show 255 ≠ 254 by decide), tripView_data, hfirst, hsecond,
      update_self]
  refine ⟨_, _, _, _, by decide, hrun, htrip, hbefore, hafter, ?_⟩
  rw [hbefore, hafter]
  intro heq
  have hbyte := congrFun (Option.some.inj heq) 0
  exact absurd hbyte (by decide)

end SeL4Sys

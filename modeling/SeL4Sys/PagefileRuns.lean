import SeL4Sys.Shell

/-!
# Pagefiles over whole runs

Each pagefile in use belongs to one VFrame of one process. `get_pagefile` gives a name that no
VFrame has, `free_pagefile` and `syscall_kill` give names back. This needs the names in the
directory at boot to be distinct from those that `get_pagefile` forms later: the counter in them
starts at the number of files, whatever these are called.
-/

namespace SeL4Sys

open Function Relation

/-! ## Names and holders -/

/-- The names in use are those that are linked, and no name is linked twice. -/
structure Held {ι : Type*} (w : Swap) (link : ι → Option Name) : Prop where
  ok : w.Ok
  inUse : ∀ name, w.InUse name ↔ ∃ x, link x = some name
  unique : ∀ x y name, link x = some name → link y = some name → x = y

namespace Held

variable {ι : Type*} {w : Swap} {link : ι → Option Name} {x : ι} {name : Name}

/-- The name that `get_pagefile` returns is not linked. -/
theorem getPagefile_ne (h : Held w link) (x : ι) : link x ≠ some (getPagefile w).1 := fun hx =>
  (getPagefile_spec h.ok).unused ((h.inUse _).mpr ⟨x, hx⟩)

theorem get [DecidableEq ι] (h : Held w link) (hx : link x = none) :
    Held (getPagefile w).2 (update link x (some (getPagefile w).1)) := by
  have hspec := getPagefile_spec h.ok
  have hother : ∀ {y name}, update link x (some (getPagefile w).1) y = some name →
      (y = x ∧ name = (getPagefile w).1) ∨ (y ≠ x ∧ link y = some name) := by
    intro y name hy
    by_cases hyx : y = x
    · rw [hyx, update_self] at hy
      exact Or.inl ⟨hyx, (Option.some.inj hy).symm⟩
    · rw [update_of_ne hyx] at hy
      exact Or.inr ⟨hyx, hy⟩
  refine ⟨hspec.ok, ?_, ?_⟩
  · intro name
    rw [hspec.inUse, h.inUse]
    constructor
    · rintro (⟨y, hy⟩ | heq)
      · have hyx : y ≠ x := by
          intro heq
          rw [heq, hx] at hy
          cases hy
        exact ⟨y, by rw [update_of_ne hyx]; exact hy⟩
      · exact ⟨x, by rw [update_self, heq]⟩
    · intro ⟨y, hy⟩
      rcases hother hy with ⟨_, heq⟩ | ⟨_, hold⟩
      · exact Or.inr heq
      · exact Or.inl ⟨y, hold⟩
  · intro y z name hy hz
    rcases hother hy with ⟨hyx, hname⟩ | ⟨hyx, hold⟩
    · rcases hother hz with ⟨hzx, _⟩ | ⟨_, hold'⟩
      · rw [hyx, hzx]
      · rw [hname] at hold'
        exact absurd hold' (h.getPagefile_ne z)
    · rcases hother hz with ⟨_, hname⟩ | ⟨_, hold'⟩
      · rw [hname] at hold
        exact absurd hold (h.getPagefile_ne y)
      · exact h.unique y z name hold hold'

theorem free [DecidableEq ι] (h : Held w link) (hx : link x = some name) :
    Held (freePagefile w name) (update link x none) := by
  have hother : ∀ {y n}, update link x none y = some n → y ≠ x ∧ link y = some n := by
    intro y n hy
    by_cases hyx : y = x
    · rw [hyx, update_self] at hy
      cases hy
    · rw [update_of_ne hyx] at hy
      exact ⟨hyx, hy⟩
  refine ⟨freePagefile_ok h.ok, ?_, ?_⟩
  · intro n
    rw [freePagefile_inUse h.ok, h.inUse]
    constructor
    · intro ⟨⟨y, hy⟩, hne⟩
      have hyx : y ≠ x := by
        intro heq
        rw [heq, hx] at hy
        exact hne (Option.some.inj hy).symm
      exact ⟨y, by rw [update_of_ne hyx]; exact hy⟩
    · intro ⟨y, hy⟩
      have ⟨hyx, hold⟩ := hother hy
      refine ⟨⟨y, hold⟩, ?_⟩
      intro heq
      rw [heq] at hold
      exact hyx (h.unique y x name hold hx)
  · intro y z n hy hz
    exact h.unique y z n (hother hy).2 (hother hz).2

end Held

/-! ## The links of the system -/

/-- The pagefile of VFrame `i` of a process. -/
def Proc.link (P : Proc) (i : ℕ) : Option Name :=
  if i < P.vframes then (P.vframe i).pagefile else none

/-- The pagefile of VFrame `i` of process `p`. -/
def Sys.link (s : Sys) (x : ℕ × ℕ) : Option Name := (s.proc x.1).bind fun P => P.link x.2

/-- The pagefiles in use are those of the VFrames of live processes, one each. -/
abbrev Sys.SwapOk (s : Sys) : Prop := Held s.swap s.link

variable {R : VmRules} {s s' : Sys} {p i : ℕ} {P P' : Proc} {b : Backing} {r : Backing × Proc}

theorem link_of_proc (hP : s.proc p = some P) : s.link (p, i) = P.link i := by
  rw [Sys.link, hP, Option.bind_some]

theorem link_setProc_self : (s.setProc p r).link (p, i) = r.2.link i :=
  link_of_proc setProc_proc_self

theorem link_setProc_of_ne {x : ℕ × ℕ} (h : x.1 ≠ p) : (s.setProc p r).link x = s.link x := by
  rw [Sys.link, Sys.link, setProc_proc_of_ne h]

/-- How a small step changes the pagefiles of a process: not at all, or a VFrame without a pagefile
gets one. -/
def LinkStep (b : Backing) (P : Proc) (r : Backing × Proc) : Prop :=
  (r.1.swap = b.swap ∧ ∀ i, r.2.link i = P.link i)
    ∨ ∃ v, v < P.vframes ∧ P.link v = none ∧ r.1.swap = (getPagefile b.swap).2
      ∧ ∀ i, r.2.link i = if i = v then some (getPagefile b.swap).1 else P.link i

theorem link_reservePage (P : Proc) (vaddr i : ℕ) : (P.reservePage vaddr).link i = P.link i := by
  rw [Proc.link, Proc.link, Proc.reservePage_vframes]
  by_cases hin : i = P.vframes
  · rw [if_pos (by omega), if_neg (by omega), hin, Proc.reservePage_vframe_self]
    rfl
  · rw [Proc.reservePage_vframe_of_ne hin]
    split_ifs <;> first | rfl | omega

/-- The choice of the pagefile in `page_replace`. -/
theorem Picks.linkStep {P₁ : Proc} {v f : ℕ} {rv res : Reservation} {d : Bool}
    (hpicks : Picks P P₁ v rv f d) (hok : P.Ok) :
    LinkStep b P (backing b P₁ v f, replaced b P₁ i v f rv res) := by
  have hv := hok.table.within v hpicks.inRAM
  have hlink : ∀ j, (replaced b P₁ i v f rv res).link j
      = if j = v then some (pageOut b.swap (P₁.vframe v)).name else P.link j := by
    intro j
    rw [Proc.link, Proc.link, hpicks.replaced_vframes, hpicks.replaced_pagefile]
    by_cases hj : j = v
    · rw [if_pos hj, if_pos (by omega), if_pos hj]
    · rw [if_neg hj, if_neg hj]
  match hfile : (P.vframe v).pagefile with
  | some name =>
    -- a page that has a pagefile keeps it
    have hout : pageOut b.swap (P₁.vframe v)
        = ⟨name, (P₁.vframe v).dirty != 0, b.swap⟩ := by
      rw [pageOut, hpicks.aged.pagefile, hfile]
    refine Or.inl ⟨?_, ?_⟩
    · show (pageOut b.swap (P₁.vframe v)).swap = _
      rw [hout]
    · intro j
      show (replaced b P₁ i v f rv res).link j = _
      rw [hlink, hout]
      by_cases hj : j = v
      · rw [if_pos hj, hj, Proc.link, if_pos hv, hfile]
      · rw [if_neg hj]
  | none =>
    -- a page that has none gets a new one
    have hout : pageOut b.swap (P₁.vframe v)
        = ⟨(getPagefile b.swap).1, true, (getPagefile b.swap).2⟩ := by
      rw [pageOut, hpicks.aged.pagefile, hfile]
    refine Or.inr ⟨v, hv, ?_, ?_, ?_⟩
    · rw [Proc.link, if_pos hv, hfile]
    · show (pageOut b.swap (P₁.vframe v)).swap = _
      rw [hout]
    · intro j
      show (replaced b P₁ i v f rv res).link j = _
      rw [hlink, hout]

theorem ProcStep.linkStep (hok : P.Ok) (h : ProcStep R p (b, P) r) : LinkStep b P r := by
  cases h with
  | load _ => exact Or.inl ⟨rfl, fun _ => rfl⟩
  | store _ _ _ => exact Or.inl ⟨rfl, fun _ => rfl⟩
  | project _ _ _ => exact Or.inl ⟨rfl, fun _ => rfl⟩
  | heap _ _ => exact Or.inl ⟨rfl, fun _ => rfl⟩
  | reserve _ => exact Or.inl ⟨rfl, link_reservePage P _⟩
  | @alloc _ _ i r hn _ halloc =>
    cases allocFrame_allocated hok halloc with
    | new res hr hnew =>
      refine Or.inl ⟨rfl, ?_⟩
      intro j
      show (P.allotted i res).link j = _
      rw [Proc.link, Proc.link, Proc.allotted_vframes, Proc.allotted_pagefile]
    | replaced res rv v f P₁ d hr hfull hpicks => exact hpicks.linkStep hok

theorem Sys.SwapOk.linkStep (h : s.SwapOk) (hP : s.proc p = some P)
    (hstep : LinkStep s.toBacking P r) : (s.setProc p r).SwapOk := by
  rcases hstep with ⟨hswap, hlink⟩ | ⟨v, _, hnone, hswap, hlink⟩
  · have hsame : (s.setProc p r).link = s.link := by
      funext x
      by_cases hx : x.1 = p
      · rw [← Prod.mk.eta (p := x), hx, link_setProc_self, hlink, link_of_proc hP]
      · rw [link_setProc_of_ne hx]
    show Held r.1.swap (s.setProc p r).link
    rw [hswap, hsame]
    exact h
  · have hnew : (s.setProc p r).link
        = update s.link (p, v) (some (getPagefile s.swap).1) := by
      funext x
      by_cases hx : x.1 = p
      · rw [← Prod.mk.eta (p := x), hx, link_setProc_self, hlink]
        by_cases hv : x.2 = v
        · rw [if_pos hv, hv, update_self]
        · rw [if_neg hv, update_of_ne (fun h => hv (congrArg Prod.snd h)), link_of_proc hP]
      · rw [link_setProc_of_ne hx, update_of_ne (fun h => hx (congrArg Prod.fst h))]
    show Held r.1.swap (s.setProc p r).link
    rw [hswap, hnew]
    apply Held.get h
    rw [link_of_proc hP]
    exact hnone

/-! ## Ending a process -/

/-- The loop of `syscall_kill` gives back the pagefiles of the last `n` VFrames. -/
theorem Held.freeLoop {w : Swap} {link : ℕ × ℕ → Option Name} {n : ℕ} (h : Held w link)
    (hlink : ∀ i, i < n → link (p, i) = (P.vframe i).pagefile) :
    Held (freeLoop P n w) fun x => if x.1 = p ∧ x.2 < n then none else link x := by
  induction n generalizing w link with
  | zero =>
    have hsame : (fun x : ℕ × ℕ => if x.1 = p ∧ x.2 < 0 then none else link x) = link := by
      funext x
      rw [if_neg (by omega)]
    rw [hsame]
    exact h
  | succ n ih =>
    rw [SeL4Sys.freeLoop]
    match hfile : (P.vframe n).pagefile with
    | none =>
      have hsame : (fun x : ℕ × ℕ => if x.1 = p ∧ x.2 < n + 1 then none else link x)
          = fun x => if x.1 = p ∧ x.2 < n then none else link x := by
        funext x
        by_cases hx : x = (p, n)
        · rw [hx, if_pos ⟨rfl, Nat.lt_succ_self n⟩, if_neg (by simp), hlink n (by omega), hfile]
        · have : x.1 = p → x.2 ≠ n := fun h₁ h₂ => hx (Prod.ext h₁ h₂)
          by_cases hxp : x.1 = p
          · have := this hxp
            split_ifs <;> first | rfl | omega
          · rw [if_neg (by tauto), if_neg (by tauto)]
      rw [hsame]
      exact ih h fun i hi => hlink i (by omega)
    | some name =>
      have hx : link (p, n) = some name := (hlink n (by omega)).trans hfile
      have hrest := ih (h.free hx) (by
        intro i hi
        rw [update_of_ne (by simp; omega)]
        exact hlink i (by omega))
      -- the link of this VFrame is cut first, the loop goes on with the ones below
      have hsame : (fun x : ℕ × ℕ => if x.1 = p ∧ x.2 < n + 1 then none else link x)
          = fun x => if x.1 = p ∧ x.2 < n then none else update link (p, n) none x := by
        funext x
        by_cases hx : x = (p, n)
        · rw [hx, if_pos ⟨rfl, Nat.lt_succ_self n⟩, if_neg (by simp), update_self]
        · rw [update_of_ne hx]
          by_cases hxp : x.1 = p
          · have : x.2 ≠ n := fun h₂ => hx (Prod.ext hxp h₂)
            split_ifs <;> first | rfl | omega
          · rw [if_neg (by tauto), if_neg (by tauto)]
      rw [hsame]
      exact hrest

theorem Sys.SwapOk.kill (h : s.SwapOk) (p : ℕ) : (syscallKill s p).SwapOk := by
  match hP : s.proc p with
  | none =>
    have hsame : syscallKill s p = s := by rw [syscallKill, hP]
    rw [hsame]
    exact h
  | some P =>
    have hswap : (syscallKill s p).swap = freeLoop P P.vframes s.swap := by rw [syscallKill, hP]
    have hlink : (syscallKill s p).link
        = fun x => if x.1 = p ∧ x.2 < P.vframes then none else s.link x := by
      funext x
      by_cases hx : x.1 = p
      · rw [Sys.link, syscallKill_proc, if_pos hx, Option.bind_none, ← Prod.mk.eta (p := x), hx,
          link_of_proc hP, Proc.link]
        split_ifs <;> first | rfl | omega
      · rw [Sys.link, syscallKill_proc, if_neg hx, if_neg (by tauto)]
        rfl
    show Held (syscallKill s p).swap (syscallKill s p).link
    rw [hswap, hlink]
    apply Held.freeLoop h
    intro i hi
    rw [link_of_proc hP, Proc.link, if_pos hi]

theorem Sys.SwapOk.start (h : s.SwapOk) (hp : s.proc p = none)
    {image : ℕ → Bool} (hnew : newProcess (imageSpace image) = some P) :
    (s.setProc p (s.toBacking, P)).SwapOk := by
  have hsame : (s.setProc p (s.toBacking, P)).link = s.link := by
    funext x
    by_cases hx : x.1 = p
    · rw [← Prod.mk.eta (p := x), hx, link_setProc_self, Sys.link, hp, Option.bind_none, Proc.link,
        (newProcess_stackOk hnew).1.pagefile, ite_self]
    · rw [link_setProc_of_ne hx]
  show Held s.swap (s.setProc p (s.toBacking, P)).link
  rw [hsame]
  exact h

theorem VmSmall.swapOk (hok : s.ProcsOk) (h : s.SwapOk) (hstep : VmSmall R s s') : s'.SwapOk := by
  cases hstep with
  | @proc p P r hP hproc => exact h.linkStep hP (hproc.linkStep (hok p P hP))
  | kill p => exact h.kill p
  | start hp hnew => exact h.start hp hnew

theorem VmSmall.run_swapOk (hok : s.ProcsOk) (h : s.SwapOk)
    (hrun : ReflTransGen (VmSmall R) s s') : s'.SwapOk := by
  induction hrun with
  | refl => exact h
  | tail hrun hstep ih => exact hstep.swapOk (VmSmall.run_procsOk hok hrun) ih

/-! ## Runs with calls of `get_pagefile` and `free_pagefile` -/

/-- What happens to pagefiles: an operation of the system, in which `page_replace` and
`syscall_kill` take and release them, or a single call of `get_pagefile` for a VFrame that has no
pagefile, or of `free_pagefile` for the name of a VFrame, which gives it up. -/
inductive SwapOp
  | vm (op : VmOp)
  | get (p i : ℕ)
  | free (p i : ℕ)

/-- A VFrame with its pagefile replaced. -/
def Proc.setPagefile (P : Proc) (i : ℕ) (pagefile : Option Name) : Proc :=
  P.setVframe i { P.vframe i with pagefile := pagefile }

/-- The effect of an operation. -/
def execSwap (s : Sys) : SwapOp → Option Sys
  | .vm op => execVm s op
  | .get p i => (s.proc p).bind fun P =>
      if i < P.vframes ∧ (P.vframe i).pagefile = none then
        some (s.setProc p (⟨(getPagefile s.swap).2, s.file⟩,
          P.setPagefile i (some (getPagefile s.swap).1)))
      else none
  | .free p i => (s.proc p).bind fun P =>
      (P.link i).map fun name =>
        s.setProc p (⟨freePagefile s.swap name, s.file⟩, P.setPagefile i none)

/-- Some operation leads from one state to the other. -/
def SwapStep (s s' : Sys) : Prop := ∃ op, execSwap s op = some s'

theorem setPagefile_vframe_self (pagefile : Option Name) :
    (P.setPagefile i pagefile).vframe i = { P.vframe i with pagefile := pagefile } :=
  update_self ..

theorem setPagefile_vframe_of_ne (pagefile : Option Name) {j : ℕ} (h : j ≠ i) :
    (P.setPagefile i pagefile).vframe j = P.vframe j :=
  update_of_ne h ..

theorem setPagefile_ok (hok : P.Ok) (pagefile : Option Name) : (P.setPagefile i pagefile).Ok := by
  have hvframe : ∀ j, ((P.setPagefile i pagefile).vframe j).reserve = (P.vframe j).reserve
      ∧ ((P.setPagefile i pagefile).vframe j).inRAM = (P.vframe j).inRAM := by
    intro j
    by_cases hj : j = i
    · rw [hj, setPagefile_vframe_self]
      exact ⟨rfl, rfl⟩
    · rw [setPagefile_vframe_of_ne pagefile hj]
      exact ⟨rfl, rfl⟩
  refine ⟨?_, hok.aligned, hok.word, hok.replacer, ?_⟩
  · exact hok.table.congr (fun j => (hvframe j).1) (fun j => (hvframe j).2) rfl rfl le_rfl
  · have ⟨j, hj⟩ := hok.someone
    exact ⟨j, by rw [(hvframe j).2]; exact hj⟩

theorem link_setPagefile (hi : i < P.vframes) (pagefile : Option Name) (j : ℕ) :
    (P.setPagefile i pagefile).link j = if j = i then pagefile else P.link j := by
  show (if j < P.vframes then ((P.setPagefile i pagefile).vframe j).pagefile else none) = _
  by_cases hj : j = i
  · rw [if_pos hj, hj, if_pos hi, setPagefile_vframe_self]
  · rw [if_neg hj, setPagefile_vframe_of_ne pagefile hj]
    rfl

theorem Sys.ProcsOk.setProc (hok : s.ProcsOk) (hr : r.2.Ok) : (s.setProc p r).ProcsOk := by
  intro q Q hQ
  by_cases hq : q = p
  · rw [hq, setProc_proc_self] at hQ
    rw [← Option.some.inj hQ]
    exact hr
  · rw [setProc_proc_of_ne hq] at hQ
    exact hok q Q hQ

theorem SwapStep.swapOk (hok : s.ProcsOk) (h : s.SwapOk) (hstep : SwapStep s s') :
    s'.ProcsOk ∧ s'.SwapOk := by
  have ⟨op, hexec⟩ := hstep
  cases op with
  | vm op =>
    have hsmall := (hok.big (VmRules.all_allows s op) hexec).small
    exact ⟨VmSmall.run_procsOk hok hsmall, VmSmall.run_swapOk hok h hsmall⟩
  | get p i =>
    have ⟨P, hP, hrest⟩ := Option.bind_eq_some_iff.mp hexec
    split_ifs at hrest with hcond
    rw [← Option.some.inj hrest]
    refine ⟨hok.setProc (setPagefile_ok (hok p P hP) _), h.linkStep hP (Or.inr ⟨i, hcond.1, ?_, ?_⟩)⟩
    · rw [Proc.link, if_pos hcond.1, hcond.2]
    · exact ⟨rfl, link_setPagefile hcond.1 _⟩
  | free p i =>
    have ⟨P, hP, hrest⟩ := Option.bind_eq_some_iff.mp hexec
    have ⟨name, hlink, heq⟩ := Option.map_eq_some_iff.mp hrest
    have hi : i < P.vframes := by
      by_contra hge
      rw [Proc.link, if_neg hge] at hlink
      cases hlink
    rw [← heq]
    refine ⟨hok.setProc (setPagefile_ok (hok p P hP) _), ?_⟩
    have hfreed : (s.setProc p (⟨freePagefile s.swap name, s.file⟩, P.setPagefile i none)).link
        = update s.link (p, i) none := by
      funext x
      by_cases hx : x.1 = p
      · rw [← Prod.mk.eta (p := x), hx, link_setProc_self, link_setPagefile hi]
        by_cases hxi : x.2 = i
        · rw [if_pos hxi, hxi, update_self]
        · rw [if_neg hxi, update_of_ne (fun h => hxi (congrArg Prod.snd h)),
            link_of_proc hP]
      · rw [link_setProc_of_ne hx, update_of_ne (fun h => hx (congrArg Prod.fst h))]
    show Held (freePagefile s.swap name) (Sys.link _)
    rw [hfreed]
    apply Held.free h
    rw [link_of_proc hP]
    exact hlink

theorem bootSys_swapOk {names : List Name} {w : Swap} {file : Name → Page}
    (hinit : pagefileInit names = some w) (hboot : BootNames names) : (bootSys w file).SwapOk := by
  refine ⟨pagefileInit_ok hinit hboot, ?_, fun _ _ _ h => by cases h⟩
  intro name
  constructor
  · exact fun h => absurd h (pagefileInit_inUse hinit)
  · intro ⟨_, h⟩
    cases h

/-- In every run from a boot at which the names are distinct, fit the array and are none of those
that `get_pagefile` forms later, the names in the list stay distinct, `get_pagefile` returns a name
that no VFrame has, the pagefiles in use are those of the VFrames of live processes, and no two
VFrames share one. -/
theorem swapRun_held {names : List Name} {w : Swap} {file : Name → Page} {s : Sys}
    (hinit : pagefileInit names = some w) (hboot : BootNames names)
    (hrun : ReflTransGen SwapStep (bootSys w file) s) :
    s.swap.names.Nodup
      ∧ (∀ p i, s.link (p, i) ≠ some (getPagefile s.swap).1)
      ∧ (∀ name, s.swap.InUse name ↔ ∃ p i, s.link (p, i) = some name)
      ∧ ∀ p i q j name, s.link (p, i) = some name → s.link (q, j) = some name → p = q ∧ i = j := by
  have hheld : s.ProcsOk ∧ s.SwapOk := by
    induction hrun with
    | refl => exact ⟨bootSys_procsOk, bootSys_swapOk hinit hboot⟩
    | tail _ hstep ih => exact hstep.swapOk ih.1 ih.2
  have h := hheld.2
  refine ⟨h.ok.nodup, fun p i => h.getPagefile_ne (p, i), ?_, ?_⟩
  · intro name
    rw [h.inUse, Prod.exists]
  · intro p i q j name hi hj
    exact Prod.mk.inj (h.unique (p, i) (q, j) name hi hj)

/-! Two stack pages of the first process take a pagefile each. -/

/-- The process with pagefiles for its first two VFrames. -/
def twoPagefiles (first second : Name) : Proc :=
  (startedProc.setPagefile 0 (some first)).setPagefile 1 (some second)

theorem swapRun_two {w w₁ w₂ : Swap} {file : Name → Page} {first second : Name}
    (hfirst : getPagefile w = (first, w₁)) (hsecond : getPagefile w₁ = (second, w₂)) :
    ReflTransGen SwapStep (bootSys w file)
      (shellSys ⟨w₂, file⟩ (twoPagefiles first second)) := by
  have hget₁ : execSwap (shellSys ⟨w, file⟩ startedProc) (.get 0 0)
      = some (shellSys ⟨w₁, file⟩ (startedProc.setPagefile 0 (some first))) := by
    have hswap : (shellSys ⟨w, file⟩ startedProc).swap = w := rfl
    rw [execSwap, shellSys_proc, Option.bind_some, if_pos ⟨by decide, rfl⟩, setProc_shellSys, hswap,
      hfirst]
    rfl
  have hget₂ : execSwap (shellSys ⟨w₁, file⟩ (startedProc.setPagefile 0 (some first))) (.get 0 1)
      = some (shellSys ⟨w₂, file⟩ (twoPagefiles first second)) := by
    have hswap : (shellSys ⟨w₁, file⟩ (startedProc.setPagefile 0 (some first))).swap = w₁ := rfl
    have hlt : 1 < (startedProc.setPagefile 0 (some first)).vframes := by
      show 1 < stackPages
      decide
    rw [execSwap, shellSys_proc, Option.bind_some, if_pos ⟨hlt, rfl⟩, setProc_shellSys, hswap,
      hsecond]
    rfl
  have hstart : SwapStep (bootSys w file) (shellSys ⟨w, file⟩ startedProc) :=
    ⟨.vm (.start fun _ => false), exec_start w file⟩
  exact ((ReflTransGen.single hstart).tail ⟨_, hget₁⟩).tail ⟨_, hget₂⟩

/-- The first two pagefiles after a boot with an empty directory. -/
theorem swapRun_held_two :
    let s := shellSys ⟨⟨[⟨entryPath (pageEntry 1), true⟩, ⟨entryPath (pageEntry 0), true⟩], 2⟩,
      fun _ _ => 0⟩ (twoPagefiles (entryPath (pageEntry 0)) (entryPath (pageEntry 1)))
    pagefileInit [] = some ⟨[], 0⟩ ∧ s.swap.names.Nodup
      ∧ ∀ p i, s.link (p, i) ≠ some (getPagefile s.swap).1 := by
  have hboot : BootNames [] := ⟨List.nodup_nil, fun _ _ => List.not_mem_nil⟩
  have hrun : ReflTransGen SwapStep (bootSys ⟨[], 0⟩ fun _ _ => 0) _ := swapRun_two rfl rfl
  have h := swapRun_held rfl hboot hrun
  exact ⟨rfl, h.1, h.2.1⟩

/-- With one file `page1` at boot the second page gets the name of the first. -/
theorem page1_shared :
    let s := shellSys ⟨⟨[⟨entryPath (pageEntry 1), true⟩, ⟨entryPath (pageEntry 1), true⟩], 2⟩,
      fun _ _ => 0⟩ (twoPagefiles (entryPath (pageEntry 1)) (entryPath (pageEntry 1)))
    [pageEntry 1].Nodup
      ∧ pagefileInit [pageEntry 1] = some ⟨[⟨entryPath (pageEntry 1), false⟩], 1⟩
      ∧ ReflTransGen SwapStep
          (bootSys ⟨[⟨entryPath (pageEntry 1), false⟩], 1⟩ fun _ _ => 0) s
      ∧ ¬ s.swap.names.Nodup
      ∧ s.link (0, 0) = s.link (0, 1) ∧ s.link (0, 0) = some (entryPath (pageEntry 1)) := by
  refine ⟨List.nodup_singleton _, by decide, swapRun_two rfl rfl, ?_, ?_, ?_⟩
  · show ¬ [entryPath (pageEntry 1), entryPath (pageEntry 1)].Nodup
    simp
  · rw [link_of_proc shellSys_proc, link_of_proc shellSys_proc]
    rfl
  · rw [link_of_proc shellSys_proc]
    rfl

end SeL4Sys

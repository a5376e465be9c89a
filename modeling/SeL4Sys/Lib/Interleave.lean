import Mathlib.Data.Set.Basic

/-!
# Programs in steps, and their interleavings

A `Prog` performs one operation after the other on a shared state, and what it does next depends
on what the operations returned. `run` is the program alone; `Interleaved` is two programs whose
operations alternate in any way.

The state consists of places. An operation reads some of them and writes some of them, and two
operations conflict when one writes a place that the other reads or writes. Operations that do
not conflict can be exchanged (`exec_comm`), so an interleaving in which all conflicts are
decided for the first program ends like the two programs one after the other
(`Interleaved.serial`). Programs that do not conflict when each runs alone have only such
interleavings (`Interleaved.firstLeads`).
-/

namespace SeL4Sys.Interleave

/-- A program over the operations `E`; operation `e` returns an `R e`. -/
inductive Prog (E : Type) (R : E → Type) (α : Type) : Type
  | done (a : α)
  | op (e : E) (k : R e → Prog E R α)

namespace Prog

variable {E : Type} {R : E → Type} {σ α β : Type}

/-- One program after the other. -/
def bind : Prog E R α → (α → Prog E R β) → Prog E R β
  | done a, f => f a
  | op e k, f => op e fun r => (k r).bind f

instance : Monad (Prog E R) where
  pure := done
  bind := bind

/-- The program that performs one operation. -/
def perform (e : E) : Prog E R (R e) := op e done

section run
variable (exec : (e : E) → σ → σ × R e)

/-- The program alone: the state in which it ends and what it returns. -/
def run : Prog E R α → σ → σ × α
  | done a, s => (s, a)
  | op e k, s => (k (exec e s).2).run (exec e s).1

/-- The operations that the program alone performs. -/
def trace : Prog E R α → σ → List E
  | done _, _ => []
  | op e k, s => e :: (k (exec e s).2).trace (exec e s).1

@[simp] theorem run_bind (p : Prog E R α) (f : α → Prog E R β) (s : σ) :
    (p >>= f).run exec s = (f (p.run exec s).2).run exec (p.run exec s).1 := by
  show (p.bind f).run exec s = _
  induction p generalizing s with
  | done a => rfl
  | op e k ih => exact ih _ _

@[simp] theorem run_map (f : α → β) (p : Prog E R α) (s : σ) :
    (f <$> p).run exec s = ((p.run exec s).1, f (p.run exec s).2) :=
  run_bind exec p (fun a => done (f a)) s

theorem trace_bind (p : Prog E R α) (f : α → Prog E R β) (s : σ) :
    (p >>= f).trace exec s
      = p.trace exec s ++ (f (p.run exec s).2).trace exec (p.run exec s).1 := by
  show (p.bind f).trace exec s = _
  induction p generalizing s with
  | done a => rfl
  | op e k ih => exact congrArg (List.cons e) (ih _ _)

/-- How many operations of a kind the program alone performs. -/
def count (kind : E → Bool) (p : Prog E R α) (s : σ) : ℕ := (p.trace exec s).countP kind

section count
variable (kind : E → Bool)

@[simp] theorem count_bind (p : Prog E R α) (f : α → Prog E R β) (s : σ) :
    (p >>= f).count exec kind s
      = p.count exec kind s + (f (p.run exec s).2).count exec kind (p.run exec s).1 := by
  rw [count, trace_bind, List.countP_append]
  rfl

@[simp] theorem count_map (f : α → β) (p : Prog E R α) (s : σ) :
    (f <$> p).count exec kind s = p.count exec kind s :=
  count_bind exec kind p (fun a => done (f a)) s

/-- A branch, with the numbers of its two sides. -/
theorem count_ite {c c' : Prop} [Decidable c] [Decidable c'] (hc : c ↔ c') {p q : Prog E R α}
    {s : σ} {m n : ℕ} (hq : q.count exec kind s = n) (hp : p.count exec kind s = m) :
    (if c then p else q).count exec kind s = if c' then m else n := by
  by_cases h : c
  · rw [if_pos h, if_pos (hc.mp h), hp]
  · rw [if_neg h, if_neg (fun h' => h (hc.mpr h')), hq]

end count

end run

end Prog

open Prog

variable {E : Type} {R : E → Type} {σ α β : Type} {exec : (e : E) → σ → σ × R e}

/-! ## Places -/

/-- The state seen as a family of places, with the places that each operation reads and writes:
an operation leaves the others alone, and what it returns and writes depends on what it reads. -/
structure Places (exec : (e : E) → σ → σ × R e) (L : Type) where
  Val : L → Type
  get : (l : L) → σ → Val l
  reads : E → Set L
  writes : E → Set L
  ext : ∀ s t, (∀ l, get l s = get l t) → s = t
  frame : ∀ e s l, l ∉ writes e → get l (exec e s).1 = get l s
  returns : ∀ e s t, (∀ l ∈ reads e, get l s = get l t) → (exec e s).2 = (exec e t).2
  stores : ∀ e s t, (∀ l ∈ reads e, get l s = get l t) →
    ∀ l ∈ writes e, get l (exec e s).1 = get l (exec e t).1

namespace Places

variable {L : Type} (P : Places exec L)

/-- One of the operations writes a place that the other one reads or writes. -/
def Conflict (e f : E) : Prop :=
  ∃ l, (l ∈ P.writes e ∧ (l ∈ P.reads f ∨ l ∈ P.writes f))
    ∨ (l ∈ P.writes f ∧ (l ∈ P.reads e ∨ l ∈ P.writes e))

variable {P}

theorem Conflict.symm {e f : E} (h : P.Conflict e f) : P.Conflict f e := by
  have ⟨l, hl⟩ := h
  exact ⟨l, hl.symm⟩

/-- An operation returns the same before and after one that it does not conflict with. -/
theorem exec_returns {e f : E} (h : ¬ P.Conflict e f) (s : σ) :
    (exec f (exec e s).1).2 = (exec f s).2 := by
  apply P.returns
  intro l hl
  apply P.frame
  intro hw
  exact h ⟨l, .inl ⟨hw, .inl hl⟩⟩

/-- The place `l` after `e` and `f`, when `f` does not write it. -/
theorem get_exec_exec {e f : E} (h : ¬ P.Conflict e f) (s : σ) {l : L} (hl : l ∉ P.writes f) :
    P.get l (exec f (exec e s).1).1 = P.get l (exec e (exec f s).1).1 := by
  rw [P.frame _ _ _ hl]
  by_cases he : l ∈ P.writes e
  · apply P.stores _ _ _ _ _ he
    intro m hm
    symm
    apply P.frame
    intro hw
    exact h ⟨m, .inr ⟨hw, .inl hm⟩⟩
  · rw [P.frame _ _ _ he, P.frame _ _ _ he, P.frame _ _ _ hl]

/-- Operations that do not conflict can be exchanged. -/
theorem exec_comm {e f : E} (h : ¬ P.Conflict e f) (s : σ) :
    (exec f (exec e s).1).1 = (exec e (exec f s).1).1 := by
  have h' : ¬ P.Conflict f e := fun hc => h hc.symm
  apply P.ext
  intro l
  by_cases hl : l ∈ P.writes f
  · have he : l ∉ P.writes e := fun he => h ⟨l, .inl ⟨he, .inr hl⟩⟩
    exact (get_exec_exec h' s he).symm
  · exact get_exec_exec h s hl

end Places

/-! ## Moving an operation over a program -/

section
variable {L : Type} {P : Places exec L} {p : Prog E R α} {e : E} {s : σ}

/-- Whether a program conflicts with an operation does not depend on the operation having been
performed. -/
theorem noConflict_after_iff : (∀ f ∈ p.trace exec (exec e s).1, ¬ P.Conflict e f)
    ↔ ∀ f ∈ p.trace exec s, ¬ P.Conflict e f := by
  induction p generalizing s with
  | done a => exact Iff.rfl
  | op f k ih =>
    rw [trace, trace, List.forall_mem_cons, List.forall_mem_cons]
    apply and_congr_right
    intro hf
    rw [Places.exec_returns hf s, Places.exec_comm hf s]
    exact ih _

/-- An operation before a program that performs nothing in conflict with it can as well be
performed after the program. -/
theorem run_after (h : ∀ f ∈ p.trace exec s, ¬ P.Conflict e f) :
    p.run exec (exec e s).1 = ((exec e (p.run exec s).1).1, (p.run exec s).2)
      ∧ p.trace exec (exec e s).1 = p.trace exec s
      ∧ (exec e (p.run exec s).1).2 = (exec e s).2 := by
  induction p generalizing s with
  | done a => exact ⟨rfl, rfl, rfl⟩
  | op f k ih =>
    have hf : ¬ P.Conflict e f := h f List.mem_cons_self
    have hstate : (exec f (exec e s).1).1 = (exec e (exec f s).1).1 := Places.exec_comm hf s
    have hret : (exec f (exec e s).1).2 = (exec f s).2 := Places.exec_returns hf s
    have hback : (exec e (exec f s).1).2 = (exec e s).2 :=
      Places.exec_returns (fun hc => hf hc.symm) s
    have ⟨hrun, htrace, hlast⟩ := ih (exec f s).2 (s := (exec f s).1)
      fun g hg => h g (List.mem_cons_of_mem _ hg)
    refine ⟨?_, ?_, hlast.trans hback⟩
    · rw [run, run, hret, hstate]
      exact hrun
    · rw [trace, trace, hret, hstate, htrace]

end

/-! ## Interleavings -/

section
variable (exec)

/-- The two programs run from a state, an operation of the one or of the other at a time. The list
is the operations in their order, those of the first program on the left. -/
inductive Interleaved : Prog E R α → Prog E R β → σ → List (E ⊕ E) → σ → α → β → Prop
  | done (a : α) (b : β) (s : σ) : Interleaved (.done a) (.done b) s [] s a b
  | fst {e : E} {k : R e → Prog E R α} {q : Prog E R β} {s t : σ} {es : List (E ⊕ E)} {a : α} {b : β}
      (h : Interleaved (k (exec e s).2) q (exec e s).1 es t a b) :
      Interleaved (.op e k) q s (.inl e :: es) t a b
  | snd {e : E} {p : Prog E R α} {k : R e → Prog E R β} {s t : σ} {es : List (E ⊕ E)} {a : α} {b : β}
      (h : Interleaved p (k (exec e s).2) (exec e s).1 es t a b) :
      Interleaved p (.op e k) s (.inr e :: es) t a b

end

section
variable {L : Type} (P : Places exec L)

/-- Of any two operations of the two programs that conflict, the one of the first program comes
first. -/
def FirstLeads (es : List (E ⊕ E)) : Prop :=
  es.Pairwise fun x y => ∀ e f, x = .inr e → y = .inl f → ¬ P.Conflict e f

end

section
variable {L : Type} {P : Places exec L} {p : Prog E R α} {q : Prog E R β} {s t : σ}
  {es : List (E ⊕ E)} {a : α} {b : β}

/-- The programs change places. -/
theorem Interleaved.swap (h : Interleaved exec p q s es t a b) :
    Interleaved exec q p s (es.map Sum.swap) t b a := by
  induction h with
  | done a b s => exact .done b a s
  | fst _ ih => exact .snd ih
  | snd _ ih => exact .fst ih

/-- What an interleaving in which conflicts are decided for the first program comes to. Apart from
its end it says that the operations of the first program are those it performs alone, which
carries the induction. -/
theorem Interleaved.serial_trace (h : Interleaved exec p q s es t a b) (hlead : FirstLeads P es) :
    (p.run exec s).2 = a ∧ q.run exec (p.run exec s).1 = (t, b)
      ∧ ∀ f ∈ p.trace exec s, .inl f ∈ es := by
  induction h with
  | done a b s =>
    refine ⟨rfl, rfl, ?_⟩
    intro f hf
    cases hf
  | fst _ ih =>
    have ⟨hp, hq, hmem⟩ := ih hlead.tail
    refine ⟨hp, hq, ?_⟩
    intro f hf
    cases List.mem_cons.mp hf with
    | inl heq => exact List.mem_cons.mpr (.inl (congrArg Sum.inl heq))
    | inr htail => exact List.mem_cons_of_mem _ (hmem f htail)
  | @snd e p k s t es a b _ ih =>
    have ⟨hp, hq, hmem⟩ := ih hlead.tail
    -- the operation that went ahead is in no conflict with what the first program still does
    have hno : ∀ f ∈ p.trace exec s, ¬ P.Conflict e f := by
      apply noConflict_after_iff.mp
      intro f hf
      exact List.rel_of_pairwise_cons hlead (hmem f hf) e f rfl rfl
    have ⟨hrun, htrace, hret⟩ := run_after hno
    rw [hrun] at hp hq
    refine ⟨hp, ?_, ?_⟩
    · rw [run, hret]
      exact hq
    · intro f hf
      rw [← htrace] at hf
      exact List.mem_cons_of_mem _ (hmem f hf)

/-- An interleaving in which all conflicts are decided for the first program ends like the first
program followed by the second. -/
theorem Interleaved.serial (h : Interleaved exec p q s es t a b) (hlead : FirstLeads P es) :
    p.run exec s = ((p.run exec s).1, a) ∧ q.run exec (p.run exec s).1 = (t, b) := by
  have ⟨hp, hq, _⟩ := h.serial_trace hlead
  exact ⟨Prod.ext rfl hp, hq⟩

/-- Programs that do not conflict perform in every interleaving what they perform alone. -/
theorem Interleaved.mem_trace (h : Interleaved exec p q s es t a b)
    (hno : ∀ e ∈ p.trace exec s, ∀ f ∈ q.trace exec s, ¬ P.Conflict e f) :
    (∀ e, .inl e ∈ es → e ∈ p.trace exec s) ∧ ∀ f, .inr f ∈ es → f ∈ q.trace exec s := by
  induction h with
  | done a b s => exact ⟨nofun, nofun⟩
  | @fst e k q s t es a b _ ih =>
    have hq : ∀ f ∈ q.trace exec s, ¬ P.Conflict e f := hno e List.mem_cons_self
    have htrace : q.trace exec (exec e s).1 = q.trace exec s := (run_after hq).2.1
    rw [htrace] at ih
    have ⟨hl, hr⟩ := ih fun f hf => hno f (List.mem_cons_of_mem _ hf)
    refine ⟨?_, ?_⟩
    · intro f hf
      cases List.mem_cons.mp hf with
      | inl heq => exact List.mem_cons.mpr (.inl (Sum.inl.inj heq))
      | inr htail => exact List.mem_cons_of_mem _ (hl f htail)
    · intro f hf
      exact hr f (List.mem_of_ne_of_mem Sum.inr_ne_inl hf)
  | @snd e p k s t es a b _ ih =>
    have hp : ∀ f ∈ p.trace exec s, ¬ P.Conflict e f :=
      fun f hf hc => hno f hf e List.mem_cons_self hc.symm
    have htrace : p.trace exec (exec e s).1 = p.trace exec s := (run_after hp).2.1
    rw [htrace] at ih
    have ⟨hl, hr⟩ := ih fun f hf g hg => hno f hf g (List.mem_cons_of_mem _ hg)
    refine ⟨?_, ?_⟩
    · intro f hf
      exact hl f (List.mem_of_ne_of_mem Sum.inl_ne_inr hf)
    · intro f hf
      cases List.mem_cons.mp hf with
      | inl heq => exact List.mem_cons.mpr (.inl (Sum.inr.inj heq))
      | inr htail => exact List.mem_cons_of_mem _ (hr f htail)

/-- Programs that do not conflict when each runs alone are in no conflict in any interleaving. -/
theorem Interleaved.firstLeads (h : Interleaved exec p q s es t a b)
    (hno : ∀ e ∈ p.trace exec s, ∀ f ∈ q.trace exec s, ¬ P.Conflict e f) : FirstLeads P es := by
  have ⟨hl, hr⟩ := h.mem_trace hno
  apply List.Pairwise.imp_of_mem _ (List.pairwise_of_forall fun _ _ => trivial)
  intro x y hx hy _ e f hxe hyf hc
  subst hxe
  subst hyf
  exact hno f (hl f hy) e (hr e hx) hc.symm

/-- The first program gets on before the rest is interleaved. -/
theorem Interleaved.after {γ : Type} {p : Prog E R γ} {f : γ → Prog E R α}
    (h : Interleaved exec (f (p.run exec s).2) q (p.run exec s).1 es t a b) :
    Interleaved exec (p >>= f) q s ((p.trace exec s).map .inl ++ es) t a b := by
  show Interleaved exec (p.bind f) q s _ t a b
  induction p generalizing s with
  | done c => exact h
  | op e k ih => exact .fst (ih _ h)

/-- Every schedule of one program after the other is an interleaving. -/
theorem interleaved_serial (p : Prog E R α) (q : Prog E R β) (s : σ) :
    Interleaved exec p q s
      ((p.trace exec s).map .inl ++ (q.trace exec (p.run exec s).1).map .inr)
      (q.run exec (p.run exec s).1).1 (p.run exec s).2 (q.run exec (p.run exec s).1).2 := by
  induction p generalizing s with
  | done a =>
    show Interleaved exec (.done a) q s ((q.trace exec s).map .inr) (q.run exec s).1 a
      (q.run exec s).2
    induction q generalizing s with
    | done b => exact .done a b s
    | op e k ih => exact .snd (ih _ _)
  | op e k ih => exact .fst (ih _ _)

/-- The second program runs while the first one is between two of its parts. -/
theorem interleaved_between {γ : Type} (p : Prog E R γ) (f : γ → Prog E R α) (q : Prog E R β)
    {s u v : σ} {c : γ} {b : β} (hp : p.run exec s = (u, c)) (hq : q.run exec u = (v, b)) :
    ∃ es, Interleaved exec (p >>= f) q s es ((f c).run exec v).1 ((f c).run exec v).2 b := by
  have hserial : Interleaved exec q (f c) u _ _ _ _ := interleaved_serial q (f c) u
  rw [hq] at hserial
  have hrest := hserial.swap
  generalize (List.map Sum.swap _) = es at hrest
  have hafter : Interleaved exec (f (p.run exec s).2) q (p.run exec s).1 es ((f c).run exec v).1
      ((f c).run exec v).2 b := by
    rw [hp]
    exact hrest
  exact ⟨_, hafter.after⟩

end

end SeL4Sys.Interleave

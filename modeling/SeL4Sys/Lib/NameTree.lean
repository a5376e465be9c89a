import Mathlib.Data.Nat.Notation
import Mathlib.Logic.Relation

/-!
# Trees of named entries

A tree of nodes held together by entries: a node has numbered slots, and the entry in a slot
gives a name to another node. `WellFormed` says that the entries and the nodes in use fit together:
the root and nothing else is reached without an entry, no node has two entries, and no two
entries of one node have the same name. Adding an entry for a new node (`link`) and removing the
entry of a node without entries (`unlink`) keep this.
-/

namespace SeL4Sys.NameTree

open Relation

variable {α β : Type*}

/-- The nodes in use and the entries in their slots. -/
@[ext]
structure Tree (α β : Type*) where
  used : α → Prop
  entry : α → ℕ → Option (β × α)

/-- The node `b` has an entry for the node `a`. -/
def Tree.Names (T : Tree α β) (b a : α) : Prop := ∃ t c, T.entry b t = some (c, a)

/-- Entries and nodes in use correspond, and entries of a node are told apart by their names. -/
structure Tree.WellFormed (T : Tree α β) (root : α) : Prop where
  root_used : T.used root
  holder_used : ∀ b t e, T.entry b t = some e → T.used b
  target_used : ∀ b t c a, T.entry b t = some (c, a) → T.used a
  target_ne_root : ∀ b t c a, T.entry b t = some (c, a) → a ≠ root
  once : ∀ b b' t t' c c' a, T.entry b t = some (c, a) → T.entry b' t' = some (c', a) →
    b = b' ∧ t = t'
  distinct : ∀ b t t' c a a', T.entry b t = some (c, a) → T.entry b t' = some (c, a') → t = t'
  reached : ∀ a, T.used a → ReflTransGen T.Names root a

namespace Tree.WellFormed

variable {T : Tree α β} {root a b : α} {c : β} {t : ℕ}

/-- Every node but the root has an entry. -/
theorem named (h : T.WellFormed root) (ha : T.used a) (hne : a ≠ root) : ∃ b, T.Names b a := by
  rcases (h.reached a ha).cases_tail with heq | ⟨b, _, hb⟩
  · exact absurd heq hne
  · exact ⟨b, hb⟩

/-- No node is below itself. The induction is along the way from the root: a way from a node back to it
ends with the one entry for the node, so there is one for the node before it. -/
theorem acyclic (h : T.WellFormed root) (ha : T.used a) : ¬ TransGen T.Names a a := by
  induction h.reached a ha with
  | refl =>
    intro hcycle
    have ⟨_, _, t, c, hlast⟩ := TransGen.tail'_iff.mp hcycle
    exact h.target_ne_root _ t c root hlast rfl
  | @tail b a _ hstep ih =>
    intro hcycle
    have ⟨t, c, hb⟩ := hstep
    have ⟨b', hway, t', c', hb'⟩ := TransGen.tail'_iff.mp hcycle
    have ⟨heq, _⟩ := h.once _ _ t' t c' c a hb' hb
    rw [heq] at hway
    exact ih (h.holder_used b t _ hb) (TransGen.head' hstep hway)

end Tree.WellFormed

section
variable [DecidableEq α] {T : Tree α β} {root a b : α} {c : β} {t : ℕ}

/-- The tree with an entry for a node that comes into use. -/
def Tree.link (T : Tree α β) (b : α) (t : ℕ) (c : β) (a : α) : Tree α β where
  used := fun x => T.used x ∨ x = a
  entry := fun x u => if x = b ∧ u = t then some (c, a) else T.entry x u

/-- The tree without an entry and without the node it named. -/
def Tree.unlink (T : Tree α β) (b : α) (t : ℕ) (a : α) : Tree α β where
  used := fun x => T.used x ∧ x ≠ a
  entry := fun x u => if x = b ∧ u = t then none else T.entry x u

theorem Tree.link_entry_self : (T.link b t c a).entry b t = some (c, a) := if_pos ⟨rfl, rfl⟩

theorem Tree.link_entry_of_ne {x : α} {u : ℕ} (h : ¬ (x = b ∧ u = t)) :
    (T.link b t c a).entry x u = T.entry x u := if_neg h

theorem Tree.link_entry_cases {x : α} {u : ℕ} {e : β × α}
    (h : (T.link b t c a).entry x u = some e) :
    (x = b ∧ u = t ∧ e = (c, a)) ∨ T.entry x u = some e := by
  by_cases hslot : x = b ∧ u = t
  · obtain ⟨rfl, rfl⟩ := hslot
    rw [Tree.link_entry_self] at h
    exact Or.inl ⟨rfl, rfl, (Option.some.inj h).symm⟩
  · rw [Tree.link_entry_of_ne hslot] at h
    exact Or.inr h

theorem Tree.unlink_entry_self : (T.unlink b t a).entry b t = none := if_pos ⟨rfl, rfl⟩

theorem Tree.unlink_entry_of_ne {x : α} {u : ℕ} (h : ¬ (x = b ∧ u = t)) :
    (T.unlink b t a).entry x u = T.entry x u := if_neg h

theorem Tree.unlink_entry_iff {x : α} {u : ℕ} {e : β × α} :
    (T.unlink b t a).entry x u = some e ↔ T.entry x u = some e ∧ ¬ (x = b ∧ u = t) := by
  by_cases hslot : x = b ∧ u = t
  · obtain ⟨rfl, rfl⟩ := hslot
    simp [Tree.unlink_entry_self]
  · simp [Tree.unlink_entry_of_ne hslot, hslot]

/-- An entry of the old tree is an entry of the tree with a link in a free slot. -/
theorem Tree.link_entry_of_old (hfree : T.entry b t = none) {x : α} {u : ℕ} {e : β × α}
    (h : T.entry x u = some e) : (T.link b t c a).entry x u = some e := by
  rw [Tree.link_entry_of_ne]
  · exact h
  · rintro ⟨rfl, rfl⟩
    rw [hfree] at h
    cases h

namespace Tree.WellFormed

/-- Naming a new node in a free slot, with a name that the node does not have yet. -/
theorem link (h : T.WellFormed root) (hb : T.used b) (hfree : T.entry b t = none)
    (ha : ¬ T.used a) (hc : ∀ u x, T.entry b u ≠ some (c, x)) :
    (T.link b t c a).WellFormed root where
  root_used := Or.inl h.root_used
  holder_used := by
    intro x u e he
    rcases Tree.link_entry_cases he with ⟨rfl, _⟩ | he
    · exact Or.inl hb
    · exact Or.inl (h.holder_used x u e he)
  target_used := by
    intro x u c' y he
    rcases Tree.link_entry_cases he with ⟨_, _, heq⟩ | he
    · exact Or.inr (congrArg Prod.snd heq)
    · exact Or.inl (h.target_used x u c' y he)
  target_ne_root := by
    intro x u c' y he
    rcases Tree.link_entry_cases he with ⟨_, _, heq⟩ | he
    · rintro rfl
      apply ha
      rw [← show y = a from congrArg Prod.snd heq]
      exact h.root_used
    · exact h.target_ne_root x u c' y he
  once := by
    intro x x' u u' c₁ c₂ y he he'
    rcases Tree.link_entry_cases he with ⟨hx, hu, heq⟩ | he₁
    · have hy : y = a := congrArg Prod.snd heq
      rcases Tree.link_entry_cases he' with ⟨hx', hu', _⟩ | he₂
      · exact ⟨hx.trans hx'.symm, hu.trans hu'.symm⟩
      · exact absurd (h.target_used x' u' c₂ y he₂) (by rwa [hy])
    · rcases Tree.link_entry_cases he' with ⟨_, _, heq⟩ | he₂
      · have hy : y = a := congrArg Prod.snd heq
        exact absurd (h.target_used x u c₁ y he₁) (by rwa [hy])
      · exact h.once x x' u u' c₁ c₂ y he₁ he₂
  distinct := by
    intro x u u' c' y y' he he'
    rcases Tree.link_entry_cases he with ⟨hx, hu, heq⟩ | he
    · rcases Tree.link_entry_cases he' with ⟨_, hu', _⟩ | he'
      · exact hu.trans hu'.symm
      · rw [hx, show c' = c from congrArg Prod.fst heq] at he'
        exact absurd he' (hc u' y')
    · rcases Tree.link_entry_cases he' with ⟨hx, _, heq⟩ | he'
      · rw [hx, show c' = c from congrArg Prod.fst heq] at he
        exact absurd he (hc u y)
      · exact h.distinct x u u' c' y y' he he'
  reached := by
    -- the old ways are still there, and the new node is one step behind `b`
    have hold : ∀ x, T.used x → ReflTransGen (T.link b t c a).Names root x := by
      intro x hx
      refine ReflTransGen.mono ?_ _ _ (h.reached x hx)
      rintro y z ⟨u, c', he⟩
      exact ⟨u, c', Tree.link_entry_of_old hfree he⟩
    intro x hx
    rcases hx with hx | rfl
    · exact hold x hx
    · exact (hold b hb).tail ⟨t, c, Tree.link_entry_self⟩

/-- Removing the entry of a node that has no entries of its own. -/
theorem unlink (h : T.WellFormed root) (he : T.entry b t = some (c, a))
    (hleaf : ∀ u, T.entry a u = none) : (T.unlink b t a).WellFormed root where
  root_used := ⟨h.root_used, (h.target_ne_root b t c a he).symm⟩
  holder_used := by
    intro x u e hx
    rw [Tree.unlink_entry_iff] at hx
    refine ⟨h.holder_used x u e hx.1, ?_⟩
    rintro rfl
    rw [hleaf u] at hx
    cases hx.1
  target_used := by
    intro x u c' y hx
    rw [Tree.unlink_entry_iff] at hx
    refine ⟨h.target_used x u c' y hx.1, ?_⟩
    rintro rfl
    exact hx.2 (h.once x b u t c' c y hx.1 he)
  target_ne_root := by
    intro x u c' y hx
    rw [Tree.unlink_entry_iff] at hx
    exact h.target_ne_root x u c' y hx.1
  once := by
    intro x x' u u' c₁ c₂ y hx hx'
    rw [Tree.unlink_entry_iff] at hx hx'
    exact h.once x x' u u' c₁ c₂ y hx.1 hx'.1
  distinct := by
    intro x u u' c' y y' hx hx'
    rw [Tree.unlink_entry_iff] at hx hx'
    exact h.distinct x u u' c' y y' hx.1 hx'.1
  reached := by
    -- a way to another node does not pass through `a`, which has no entries
    have hway : ∀ x, ReflTransGen T.Names root x → x ≠ a →
        ReflTransGen (T.unlink b t a).Names root x := by
      intro x hx
      induction hx with
      | refl => exact fun _ => .refl
      | @tail y z _ hstep ih =>
        intro hz
        obtain ⟨u, c', hu⟩ := hstep
        have hy : y ≠ a := by
          rintro rfl
          rw [hleaf u] at hu
          cases hu
        refine (ih hy).tail ⟨u, c', Tree.unlink_entry_iff.mpr ⟨hu, ?_⟩⟩
        rintro ⟨rfl, rfl⟩
        rw [he] at hu
        exact hz (congrArg Prod.snd (Option.some.inj hu)).symm
    intro x hx
    exact hway x (h.reached x hx.1) hx.2

end Tree.WellFormed

end

end SeL4Sys.NameTree

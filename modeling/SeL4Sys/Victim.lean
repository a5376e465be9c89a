import SeL4Sys.SecondChance

/-!
# The VFrame that is replaced

What the second chance search comes to, in terms of the status bits of the page table: the VFrames
in memory are weighed by their accessed and dirty bits, and the search ends at the first one of the
smallest weight from `replacer` on. VFrames that are not in memory stay as they are, and the field
`dirty` of the VFrame that is chosen tells whether its page has been written.
-/

namespace SeL4Sys

open Clock

namespace Proc

variable {P P' : Proc} {r v i fuel : ℕ}

/-- The accessed and the dirty bit of the page of a VFrame, as the page table has them. -/
def statusOf (P : Proc) (i : ℕ) : Bool × Bool :=
  ((P.vframe i).reserve.map fun r => getStatusBits P.vspace r.start).getD (false, false)

/-- The number of status bits that are set. -/
def weight (P : Proc) (i : ℕ) : ℕ := (P.statusOf i).1.toNat + (P.statusOf i).2.toNat

/-! ## The list alone -/

/-- The process with nothing in memory outside the list of VFrames. -/
def trim (P : Proc) : Proc :=
  { P with vframe := fun i => if i < P.vframes then P.vframe i else newVframe none }

theorem trim_vframe (hi : i < P.vframes) : P.trim.vframe i = P.vframe i := if_pos hi

theorem within_trim : P.trim.Within := by
  intro i hram
  by_contra hi
  have hout : P.trim.vframe i = newVframe none := if_neg hi
  rw [hout] at hram
  cases hram

theorem refresh_trim : P.trim.refresh = P.refresh.trim := by
  unfold refresh trim
  congr 1
  funext i
  by_cases hi : i < P.vframes
  · simp only [if_pos hi]
    rfl
  · simp only [if_neg hi]

theorem pass_trim (hr : r < P.vframes) : P.trim.pass r = (P.pass r).trim := by
  refine Proc.ext ?_ rfl rfl rfl rfl rfl rfl rfl
  funext i
  show (P.trim.pass r).vframe i = if i < P.vframes then (P.pass r).vframe i else newVframe none
  by_cases hir : i = r
  · subst hir
    rw [pass_vframe_self, pass_vframe_self, trim_vframe hr, if_pos hr]
  · rw [pass_vframe_of_ne hir, pass_vframe_of_ne hir]
    rfl

/-- The search stays inside the list. -/
theorem chanceLoop_trim (hr : P.replacer = some r) (hlt : r < P.vframes) :
    chanceLoop fuel P.trim = (chanceLoop fuel P).map fun q => (q.1, q.2.trim) := by
  induction fuel generalizing P r with
  | zero => rfl
  | succ fuel ih =>
    have hr' : P.trim.replacer = some r := hr
    rw [chanceLoop_succ hr', chanceLoop_succ hr, trim_vframe hlt]
    split_ifs
    · rfl
    · rw [pass_trim hlt]
      apply ih (P := P.pass r) rfl
      show P.nextVframe r < P.vframes
      unfold nextVframe
      split_ifs <;> omega

/-! ## What the search leaves alone -/

/-- VFrames that are not in memory stay as they are, by induction on the passes. -/
theorem chanceLoop_keeps (hr : P.replacer = some r) (h : chanceLoop fuel P = some (v, P'))
    (hout : (P.vframe i).inRAM = false) : P'.vframe i = P.vframe i := by
  induction fuel generalizing P r with
  | zero => simp [chanceLoop] at h
  | succ fuel ih =>
    rw [chanceLoop_succ hr] at h
    split_ifs at h with hc
    · rw [← (Prod.mk.inj (Option.some.inj h)).2]
    · have hpass : (P.pass r).vframe i = P.vframe i := by
        by_cases hir : i = r
        · subst hir
          rw [pass_vframe_self, age, hout]
          rfl
        · exact pass_vframe_of_ne hir
      rw [← hpass] at hout ⊢
      exact ih rfl h hout

theorem refresh_keeps (hout : (P.vframe i).inRAM = false) : P.refresh.vframe i = P.vframe i := by
  unfold refresh refreshFrame
  simp [hout]

/-! ## Weights and credits -/

theorem refresh_inRAM_status (hi : i < P.vframes) (hram : (P.vframe i).inRAM = true) :
    (P.refresh.vframe i).accessed = 2 * (P.statusOf i).1.toNat
      ∧ (P.refresh.vframe i).dirty = 2 * (P.statusOf i).2.toNat := by
  unfold refresh refreshFrame statusOf
  simp [hi, hram]

/-- The credits of a VFrame in memory at the start of the search are its weight. -/
theorem credit_refresh (hi : i < P.vframes) :
    P.refresh.credit i = if (P.vframe i).inRAM then some (P.weight i) else none := by
  unfold credit
  rw [aged_refresh.inRAM]
  by_cases hram : (P.vframe i).inRAM = true
  · have ⟨hacc, hdirty⟩ := refresh_inRAM_status hi hram
    rw [if_pos hram, if_pos hram, hacc, hdirty, weight]
    cases (P.statusOf i).1 <;> cases (P.statusOf i).2 <;> rfl
  · rw [if_neg hram, if_neg hram]

theorem credit_refresh_trim (hi : i < P.vframes) :
    P.trim.refresh.credit i = if (P.vframe i).inRAM then some (P.weight i) else none := by
  have hweight : P.trim.weight i = P.weight i := by
    unfold weight statusOf
    rw [trim_vframe hi]
    rfl
  have hi' : i < P.trim.vframes := hi
  rw [credit_refresh hi', trim_vframe hi, hweight]

theorem weight_le (P : Proc) (i : ℕ) : P.weight i ≤ 2 := by
  unfold weight
  have h₁ := Bool.toNat_le (P.statusOf i).1
  have h₂ := Bool.toNat_le (P.statusOf i).2
  omega

/-! ## The choice -/

/-- The VFrame that is `j` steps after `r`: `next`, or the head after the last one. -/
def after (P : Proc) (r j : ℕ) : ℕ := P.nextVframe^[j] r

theorem after_lt (hr : r < P.vframes) {j : ℕ} (hj : j < P.vframes) : P.after r j < P.vframes := by
  rw [after, iterate_nextVframe hr hj.le, turn]
  split_ifs <;> omega

/-- The VFrame `j` steps after `r` is the first one in memory of the smallest weight. -/
structure Victim (P : Proc) (r j : ℕ) : Prop where
  step : j < P.vframes
  inRAM : (P.vframe (P.after r j)).inRAM = true
  lightest : ∀ i, i < P.vframes → (P.vframe i).inRAM = true → P.weight (P.after r j) ≤ P.weight i
  first : ∀ i, i < j → (P.vframe (P.after r i)).inRAM = true →
    P.weight (P.after r j) < P.weight (P.after r i)

/-- Any two of them are the same: the one that comes first would be heavier than the other. -/
theorem Victim.unique (hr : r < P.vframes) {j j' : ℕ} (h : P.Victim r j) (h' : P.Victim r j') :
    j = j' := by
  have hle := h.lightest _ (after_lt hr h'.step) h'.inRAM
  have hle' := h'.lightest _ (after_lt hr h.step) h.inRAM
  rcases lt_trichotomy j j' with hlt | heq | hlt
  · have := h'.first j hlt h.inRAM
    omega
  · exact heq
  · have := h.first j' hlt h'.inRAM
    omega

/-- The search ends within three turns of the list, at that VFrame. -/
theorem chanceLoop_ends (hr : P.replacer = some r) (hlt : r < P.vframes)
    (hram : ∃ i, i < P.vframes ∧ (P.vframe i).inRAM = true) :
    ∃ j P', chanceLoop (3 * P.vframes) P.refresh = some (P.after r j, P') ∧ P.Victim r j := by
  have ⟨i₀, hi₀, hram₀⟩ := hram
  have hslot : ∀ i, i < P.vframes → turn P.vframes r i = P.after r i :=
    fun i hi => (iterate_nextVframe hlt hi.le).symm
  -- the first VFrame of the smallest weight
  have hexists : ∃ j, j < P.vframes ∧ (P.trim.refresh.credit (P.nextVframe^[j] r)).isSome := by
    have ⟨j, hj, hiter⟩ := exists_iterate_nextVframe hlt hi₀
    refine ⟨j, hj, ?_⟩
    rw [hiter, credit_refresh_trim hi₀, if_pos hram₀]
    rfl
  have ⟨j, m, hj, hm, hmin, hfirst⟩ := exists_first_fewest hexists
  have hcredit : ∀ i, i < P.vframes → P.trim.refresh.credit (P.nextVframe^[i] r)
      = if (P.vframe (P.after r i)).inRAM then some (P.weight (P.after r i)) else none :=
    fun i hi => credit_refresh_trim (after_lt hlt hi)
  have hinRAM : (P.vframe (P.after r j)).inRAM = true := by
    by_contra hout
    rw [hcredit j hj, if_neg hout] at hm
    cases hm
  have hweight : P.weight (P.after r j) = m := by
    rw [hcredit j hj, if_pos hinRAM] at hm
    exact Option.some.inj hm
  -- where the search on the list ends
  have hsome : ∃ i, (P.trim.vframe i).inRAM = true := ⟨i₀, by rw [trim_vframe hi₀]; exact hram₀⟩
  have ⟨v, Q, hloop, _⟩ := chanceLoop_refresh within_trim hr hlt hsome
  have hv : v = P.after r j := by
    rw [← hslot j hj]
    apply chanceLoop_victim within_trim hr hlt hj (hweight ▸ P.weight_le _) _ _ _ hloop
    · show P.trim.refresh.credit (turn P.vframes r j) = some m
      rw [hslot j hj]
      exact hm
    · intro i k hi hk
      apply hmin i k hi
      rw [← hk]
      exact congrArg _ (hslot i hi).symm
    · intro i k hi hk
      apply hfirst i k hi
      rw [← hk]
      exact congrArg _ (hslot i (by omega)).symm
  have htrim : chanceLoop (3 * P.vframes) P.trim.refresh
      = (chanceLoop (3 * P.vframes) P.refresh).map fun q => (q.1, q.2.trim) := by
    rw [refresh_trim]
    exact chanceLoop_trim (P := P.refresh) hr hlt
  have ⟨q, hq, hqv⟩ := Option.map_eq_some_iff.mp (htrim.symm.trans hloop)
  have hq₁ : q.1 = P.after r j := (congrArg Prod.fst hqv).trans hv
  have hrun : chanceLoop (3 * P.vframes) P.refresh = some (P.after r j, q.2) := by
    rw [hq, ← hq₁]
  refine ⟨j, q.2, hrun, hj, hinRAM, ?_, ?_⟩
  · intro i hi hi'
    have ⟨k, hk, hiter⟩ := exists_iterate_nextVframe hlt hi
    rw [hweight]
    apply hmin k _ hk
    rw [hiter, credit_refresh_trim hi, if_pos hi']
  · intro i hi hi'
    rw [hweight]
    apply hfirst i _ hi
    rw [hcredit i (by omega), if_pos hi']

/-- What the search has chosen, `j` steps after `r`, and what it leaves. -/
structure Chooses (P : Proc) (r j : ℕ) (P' : Proc) : Prop extends P.Victim r j where
  kept : ∀ i, i < P.vframes → (P.vframe i).inRAM = false → P'.vframe i = P.vframe i
  dirty : (P'.vframe (P.after r j)).dirty = 0 ↔ (P.statusOf (P.after r j)).2 = false

/-- The search on a list of VFrames of any length, from any position, with any status bits: it ends
within three turns of the list, at the first VFrame in memory of the smallest weight. -/
theorem chanceLoop_chooses (hr : P.replacer = some r) (hlt : r < P.vframes)
    (hram : ∃ i, i < P.vframes ∧ (P.vframe i).inRAM = true) :
    ∃ j P', chanceLoop (3 * P.vframes) P.refresh = some (P.after r j, P') ∧ P.Chooses r j P' := by
  have ⟨j, P', hrun, hvictim⟩ := chanceLoop_ends hr hlt hram
  have hrep : P.refresh.replacer = some r := hr
  refine ⟨j, P', hrun, hvictim, ?_, ?_⟩
  · intro i hi hout
    have hkeep := refresh_keeps hout
    rw [chanceLoop_keeps hrep hrun (by rw [hkeep]; exact hout), hkeep]
  · have hdirty := (chanceLoop_some hrep hrun).2.2.2 (P.after r j)
    rw [hdirty, (refresh_inRAM_status (after_lt hlt hvictim.step) hvictim.inRAM).2]
    cases (P.statusOf (P.after r j)).2 <;> simp

/-- Three VFrames: the head has been read, the next one is not in memory, and the last one, where the
search starts, has been written. -/
def threeFrames : Proc :=
  { emptyProc fun page => if page = 2 then .mapped 0 true true else .mapped 1 true false with
    vframe := fun i => ⟨some ⟨i * pageSize, (i + 1) * pageSize⟩, 0, 0, i != 1, none⟩
    vframes := 3
    replacer := some 2 }

theorem chanceLoop_chooses_three :
    ∃ j P', chanceLoop (3 * threeFrames.vframes) threeFrames.refresh = some (threeFrames.after 2 j, P')
      ∧ threeFrames.Chooses 2 j P' :=
  chanceLoop_chooses rfl (by decide) ⟨0, by decide, rfl⟩

/-- The head is chosen there, after the last VFrame has been passed twice. -/
example : (chanceLoop 9 threeFrames.refresh).map (fun q => (q.1, (q.2.vframe 2).dirty)) = some (0, 1) := by
  decide

end Proc

end SeL4Sys

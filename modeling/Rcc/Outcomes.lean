import Mathlib
import Rcc.Loops

/-!
# How runs end

A run comes to a state without a next one, which has a result or has none, or it goes on for ever. When each step of one system is
matched by steps of another, the runs of both end alike. A step may be matched by no step at all, as long as a rank becomes smaller with it:
otherwise a run without end could be matched by one that stands still.
-/

namespace Outcomes

open Loops (Reached Ends)

structure System (σ ρ : Type*) where
  step : σ → Option σ
  /-- of a state without a next one -/
  result : σ → Option ρ

inductive Outcome (ρ : Type*) where
  | ends (r : ρ)
  | stuck
  | forever

variable {σ τ ρ : Type*} {step : σ → Option σ} {s t u : σ}

/-! ## One system -/

theorem reached_next (h : step s = some t) (hreach : Reached step s u) : u = s ∨ Reached step t u := by
  rcases Relation.ReflTransGen.cases_head hreach with rfl | ⟨v, hstep, hrest⟩
  · exact .inl rfl
  · obtain rfl : t = v := Option.some_inj.mp (h.symm.trans hstep)
    exact .inr hrest

/-- The state at which a run stops is one only. -/
theorem stop_unique (ht : Reached step s t) (htstop : step t = none) (hu : Reached step s u) (hustop : step u = none) : t = u := by
  induction ht using Relation.ReflTransGen.head_induction_on with
  | refl =>
      rcases Relation.ReflTransGen.cases_head hu with rfl | ⟨v, hstep, -⟩
      · rfl
      · rw [htstop] at hstep
        cases hstep
  | head hstep _ ih =>
      rcases reached_next hstep hu with rfl | hu
      · rw [hustop] at hstep
        cases hstep
      · exact ih hu

theorem ends_of_stop (ht : Reached step s t) (hstop : step t = none) : Ends step s := by
  induction ht using Relation.ReflTransGen.head_induction_on with
  | refl =>
      refine ⟨t, fun u hu => ?_⟩
      rw [hstop] at hu
      cases hu
  | @head a b hstep _ ih =>
      refine ⟨a, fun u hu => ?_⟩
      obtain rfl : b = u := Option.some_inj.mp (hstep.symm.trans hu)
      exact ih

theorem Ends.stop (h : Ends step s) : ∃ t, Reached step s t ∧ step t = none := by
  induction h with
  | intro s _ ih =>
      cases hs : step s with
      | none => exact ⟨s, .refl, hs⟩
      | some t =>
          obtain ⟨u, hreach, hstop⟩ := ih t hs
          exact ⟨u, .head hs hreach, hstop⟩

namespace System

variable (M : System σ ρ) {N : System τ ρ} {o o' : Outcome ρ}

def Has (s : σ) : Outcome ρ → Prop
  | .ends r => ∃ t, Reached M.step s t ∧ M.step t = none ∧ M.result t = some r
  | .stuck => ∃ t, Reached M.step s t ∧ M.step t = none ∧ M.result t = none
  | .forever => ¬ Ends M.step s

variable {M}

theorem exists_outcome (M : System σ ρ) (s : σ) : ∃ o, M.Has s o := by
  by_cases hends : Ends M.step s
  · obtain ⟨t, hreach, hstop⟩ := Ends.stop hends
    cases hr : M.result t with
    | none => exact ⟨.stuck, t, hreach, hstop, hr⟩
    | some r => exact ⟨.ends r, t, hreach, hstop, hr⟩
  · exact ⟨.forever, hends⟩

/-- What an outcome says of the state where the run stops. -/
theorem Has.stop (h : M.Has s o) (ht : Reached M.step s t) (hstop : M.step t = none) :
    o = match M.result t with | some r => .ends r | none => .stuck := by
  cases o with
  | ends r =>
      obtain ⟨u, hu, hustop, hr⟩ := h
      rw [stop_unique ht hstop hu hustop, hr]
  | stuck =>
      obtain ⟨u, hu, hustop, hr⟩ := h
      rw [stop_unique ht hstop hu hustop, hr]
  | forever => exact absurd (ends_of_stop ht hstop) h

theorem Has.unique (h : M.Has s o) (h' : M.Has s o') : o = o' := by
  by_cases hends : Ends M.step s
  · obtain ⟨t, hreach, hstop⟩ := Ends.stop hends
    exact (h.stop hreach hstop).trans (h'.stop hreach hstop).symm
  · have hforever : ∀ p : Outcome ρ, M.Has s p → p = .forever := by
      intro p hp
      cases p with
      | forever => rfl
      | ends r =>
          obtain ⟨t, ht, hstop, -⟩ := hp
          exact absurd (ends_of_stop ht hstop) hends
      | stuck =>
          obtain ⟨t, ht, hstop, -⟩ := hp
          exact absurd (ends_of_stop ht hstop) hends
    rw [hforever o h, hforever o' h']

/-! ## Two systems -/

/-- At least one step. -/
def Passes (M : System σ ρ) : σ → σ → Prop := Relation.TransGen fun s t => M.step s = some t

theorem Passes.trans_left {s t u : σ} (h : M.Passes s t) (h' : Reached M.step t u) : M.Passes s u := Relation.TransGen.trans_left h h'

theorem Passes.trans_right {s t u : σ} (h : Reached M.step s t) (h' : M.Passes t u) : M.Passes s u := Relation.TransGen.trans_right h h'

theorem Passes.of_step (h : M.step s = some t) : M.Passes s t := .single h

theorem Passes.reached (h : M.Passes s t) : Reached M.step s t := Relation.TransGen.to_reflTransGen h

end System

/-- Each step of the first system is matched. -/
structure Simulates (M : System σ ρ) (N : System τ ρ) (R : σ → τ → Prop) (rank : σ → Nat) : Prop where
  step : ∀ {s t s'}, R s t → M.step s = some s' → ∃ t', R s' t' ∧ (N.Passes t t' ∨ Reached N.step t t' ∧ rank s' < rank s)
  stop : ∀ {s t}, R s t → M.step s = none → ∃ t', Reached N.step t t' ∧ N.step t' = none ∧ N.result t' = M.result s

namespace Simulates

variable {M : System σ ρ} {N : System τ ρ} {R : σ → τ → Prop} {rank : σ → Nat} {t : τ} {o : Outcome ρ}

theorem stops (h : Simulates M N R rank) (hR : R s t) (hreach : Reached M.step s u) (hstop : M.step u = none) :
    ∃ t', Reached N.step t t' ∧ N.step t' = none ∧ N.result t' = M.result u := by
  induction hreach using Relation.ReflTransGen.head_induction_on generalizing t with
  | refl => exact h.stop hR hstop
  | head hstep _ ih =>
      obtain ⟨t₁, hR₁, hmatch⟩ := h.step hR hstep
      obtain ⟨t', hrest, hend⟩ := ih hR₁
      refine ⟨t', ?_, hend⟩
      rcases hmatch with hpasses | ⟨hreached, -⟩
      · exact hpasses.reached.trans hrest
      · exact hreached.trans hrest

theorem ends (h : Simulates M N R rank) (hR : R s t) (hends : Ends N.step t) : Ends M.step s := by
  have hpasses : Acc (Relation.TransGen fun a b => N.step b = some a) t := Acc.transGen hends
  clear hends
  -- either the second system goes on, or it stands still and the rank becomes smaller
  induction hpasses generalizing s with
  | intro t _ ih =>
      induction hn : rank s using Nat.strongRecOn generalizing s with
      | ind n ihRank =>
          refine ⟨s, fun s' hstep => ?_⟩
          obtain ⟨t', hR', hmatch⟩ := h.step hR hstep
          rcases hmatch with hpasses | ⟨hreached, hrank⟩
          · exact ih t' (Relation.transGen_swap.mp hpasses) hR'
          · rcases Relation.reflTransGen_iff_eq_or_transGen.mp hreached with rfl | hpasses
            · exact ihRank (rank s') (hn ▸ hrank) hR' rfl
            · exact ih t' (Relation.transGen_swap.mp hpasses) hR'

theorem has_of_has (h : Simulates M N R rank) (hR : R s t) (hs : M.Has s o) : N.Has t o := by
  cases o with
  | ends r =>
      obtain ⟨u, hreach, hstop, hr⟩ := hs
      obtain ⟨t', hreach', hstop', hr'⟩ := h.stops hR hreach hstop
      exact ⟨t', hreach', hstop', hr'.trans hr⟩
  | stuck =>
      obtain ⟨u, hreach, hstop, hr⟩ := hs
      obtain ⟨t', hreach', hstop', hr'⟩ := h.stops hR hreach hstop
      exact ⟨t', hreach', hstop', hr'.trans hr⟩
  | forever => exact fun hends => hs (h.ends hR hends)

/-- As every run has one outcome, it is enough to follow the first system. -/
theorem has_iff (h : Simulates M N R rank) (hR : R s t) : M.Has s o ↔ N.Has t o := by
  refine ⟨h.has_of_has hR, fun ht => ?_⟩
  obtain ⟨o', hs⟩ := M.exists_outcome s
  rwa [ht.unique (h.has_of_has hR hs)]

end Simulates

end Outcomes

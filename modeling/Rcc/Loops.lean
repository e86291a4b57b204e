import Mathlib

/-!
# Loops that end

A loop goes from one state to the next until an iteration leaves it. It ends when there
is no infinite run. Where an iteration that does not leave the loop makes a measure
smaller or else changes nothing, a loop can only go on for ever by standing still: it
ends if and only if it reaches no state at which it does.
-/

namespace Loops

variable {σ : Type*} {step : σ → Option σ} {s t : σ}

/-- No run from here is infinite. An iteration without a next state leaves the loop. -/
def Ends (step : σ → Option σ) (s : σ) : Prop := Acc (fun t s => step s = some t) s

def Reached (step : σ → Option σ) : σ → σ → Prop := Relation.ReflTransGen fun s t => step s = some t

/-- Each iteration leaves the loop or makes the state smaller. -/
def Advances (size : σ → Nat) (step : σ → Option σ) : Prop := ∀ ⦃s t⦄, step s = some t → size t < size s

theorem Ends.reached (h : Ends step s) (hreach : Reached step s t) : Ends step t := by
  induction hreach with
  | refl => exact h
  | tail _ hstep ih => exact ih.inv hstep

/-- A loop that stands still goes on for ever. -/
theorem not_ends_of_stuck (h : step s = some s) : ¬ Ends step s := by
  intro hends
  induction hends with
  | intro s _ ih => exact ih s h h

theorem ends_of_reached (size : σ → Nat) (h : ∀ ⦃t u⦄, Reached step s t → step t = some u → size u < size t) : Ends step s := by
  induction hn : size s using Nat.strongRecOn generalizing s with
  | ind n ih =>
      refine ⟨s, fun t hstep => ?_⟩
      exact ih (size t) (hn ▸ h .refl hstep) (fun u v hreach hnext => h (.head hstep hreach) hnext) rfl

theorem Advances.ends {size : σ → Nat} (h : Advances size step) (s : σ) : Ends step s :=
  ends_of_reached size fun _ _ _ hstep => h hstep

/-- Each iteration makes the state smaller, leaves the loop, or changes nothing. -/
def AdvancesOrStays (size : σ → Nat) (step : σ → Option σ) : Prop := ∀ ⦃s t⦄, step s = some t → t ≠ s → size t < size s

theorem AdvancesOrStays.ends_iff {size : σ → Nat} (h : AdvancesOrStays size step) :
    Ends step s ↔ ∀ ⦃t u⦄, Reached step s t → step t = some u → size u < size t := by
  refine ⟨fun hends t u hreach hstep => h hstep fun heq => ?_, ends_of_reached size⟩
  exact not_ends_of_stuck (heq ▸ hstep) (hends.reached hreach)

end Loops

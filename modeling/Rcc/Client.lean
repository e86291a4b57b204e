import Mathlib

/-!
# Clients of a machine

A library for programs of which only this is known: they ask a machine, one
operation after the other, go on by the replies, and may give up. `Client` is
such a program as a tree, and `run` is its run from a state of the machine.

Two states may be related so that every operation has the same reply in both and
leads to related states; then no client tells them apart, which is `run_related`.
-/

namespace Client

/-- A program over the operations of a machine. -/
inductive Prog (Op : Type) (Reply : Op → Type) (α : Type) where
  | done (a : α)
  | exit
  | ask (op : Op) (k : Reply op → Prog Op Reply α)

variable {Op : Type} {Reply : Op → Type} {σ α : Type}

/-- The state at the end of the program and its result. -/
def run (step : (op : Op) → σ → σ × Reply op) : Prog Op Reply α → σ → Option (σ × α)
  | .done a, s => some (s, a)
  | .exit, _ => none
  | .ask op k, s => run step (k (step op s).2) (step op s).1

/-- The program that goes on to something else with its result. -/
def Prog.map {β : Type} (f : α → β) : Prog Op Reply α → Prog Op Reply β
  | .done a => .done (f a)
  | .exit => .exit
  | .ask op k => .ask op fun r => (k r).map f

theorem run_map {β : Type} (step : (op : Op) → σ → σ × Reply op) (f : α → β) (c : Prog Op Reply α) (s : σ) :
    (run step (c.map f) s).map Prod.snd = ((run step c s).map Prod.snd).map f := by
  induction c generalizing s with
  | done a => rfl
  | exit => rfl
  | ask op k ih => exact ih _ _

/-- The same results, and related states. -/
inductive Alike (R : σ → σ → Prop) : Option (σ × α) → Option (σ × α) → Prop where
  | none : Alike R none none
  | some {s t : σ} (h : R s t) (a : α) : Alike R (some (s, a)) (some (t, a))

namespace Alike

variable {R : σ → σ → Prop} {o o' : Option (σ × α)} {β : Type}

theorem map_eq (h : Alike R o o') {g g' : σ × α → β} (hg : ∀ s t a, R s t → g (s, a) = g' (t, a)) :
    o.map g = o'.map g' := by
  cases h with
  | none => rfl
  | some h a => exact congrArg Option.some (hg _ _ a h)

theorem bind_eq (h : Alike R o o') {k k' : σ × α → Option β} (hk : ∀ s t a, R s t → k (s, a) = k' (t, a)) :
    o.bind k = o'.bind k' := by
  cases h with
  | none => rfl
  | some h a => exact hk _ _ a h

end Alike

/-- The operations keep two states related and reply alike. -/
def Simulated (step : (op : Op) → σ → σ × Reply op) (R : σ → σ → Prop) : Prop :=
  ∀ op s t, R s t → (step op s).2 = (step op t).2 ∧ R (step op s).1 (step op t).1

variable {step : (op : Op) → σ → σ × Reply op} {R : σ → σ → Prop}

theorem run_related (hstep : Simulated step R) (c : Prog Op Reply α) {s t : σ} (h : R s t) :
    Alike R (run step c s) (run step c t) := by
  induction c generalizing s t with
  | done a => exact .some h a
  | exit => exact .none
  | ask op k ih =>
      obtain ⟨hreply, hnext⟩ := hstep op s t h
      rw [run, run, hreply]
      exact ih _ hnext

/-- What every operation keeps holds at the end of a program. -/
theorem run_invariant {I : σ → Prop} (hstep : ∀ op s, I s → I (step op s).1) (c : Prog Op Reply α)
    {s t : σ} {a : α} (hs : I s) (h : run step c s = some (t, a)) : I t := by
  induction c generalizing s with
  | done b =>
      obtain ⟨rfl, _⟩ := Prod.mk.inj (Option.some_inj.mp h)
      exact hs
  | exit => exact absurd h nofun
  | ask op k ih => exact ih _ (hstep op s hs) h

end Client

import Mathlib

/-!
# Saving and restoring

A library for values that are saved on a stack and restored from it. A `Cell` is a value
with those that were saved. Changes that save as often as they restore, and never restore
what they did not save, leave the stack as it was, so that they are undone by a save
before and a restore behind them.

Where one state holds a cell for each of many keys, and an event changes the cell of one,
the cell of a key after a run is given by the changes of this key alone.
-/

namespace Brackets

variable {α : Type}

/-- A value, and those that were saved, the newest first. -/
structure Cell (α : Type) where
  current : α
  saved : List α

inductive Change (α : Type) where
  | set (a : α)
  | push
  | pop

/-- Nothing is done where there is nothing to restore. -/
def Change.apply (c : Cell α) : Change α → Cell α
  | set a => { c with current := a }
  | push => { c with saved := c.current :: c.saved }
  | pop =>
      match c.saved with
      | [] => c
      | a :: rest => ⟨a, rest⟩

/-- How many values are saved, of those that were saved since. -/
def Change.depth (n : Nat) : Change α → Option Nat
  | set _ => some n
  | push => some (n + 1)
  | pop => if n = 0 then none else some (n - 1)

def Balanced (changes : List (Change α)) : Prop := changes.foldlM Change.depth 0 = some 0

/-- What is below the values that were saved since stays there. -/
theorem saved_run {changes : List (Change α)} {n m : Nat} (h : changes.foldlM Change.depth n = some m) {c : Cell α}
    {since rest : List α} (hsaved : c.saved = since ++ rest) (hn : since.length = n) :
    ∃ since', (changes.foldl Change.apply c).saved = since' ++ rest ∧ since'.length = m := by
  induction changes generalizing c n since with
  | nil =>
      obtain rfl := Option.some_inj.mp h
      exact ⟨since, hsaved, hn⟩
  | cons change changes ih =>
      rw [List.foldlM_cons] at h
      obtain ⟨k, hk, hrest⟩ := Option.bind_eq_some_iff.mp h
      rw [List.foldl_cons]
      cases change with
      | set a =>
          obtain rfl := Option.some_inj.mp hk
          exact ih hrest (c := { c with current := a }) hsaved hn
      | push =>
          obtain rfl := Option.some_inj.mp hk
          have hpushed : c.current :: c.saved = (c.current :: since) ++ rest := by
            rw [hsaved]
            rfl
          exact ih hrest (c := { c with saved := c.current :: c.saved }) hpushed (congrArg Nat.succ hn)
      | pop =>
          rw [Change.depth] at hk
          split at hk
          · exact absurd hk nofun
          · next hne =>
              obtain rfl := Option.some_inj.mp hk
              cases since with
              | nil => exact absurd hn.symm hne
              | cons a since =>
                  have hpopped : (Change.pop.apply c).saved = since ++ rest := by
                    rw [Change.apply, hsaved]
                    rfl
                  exact ih hrest hpopped (by rw [← hn]; rfl)

/-- Balanced changes between a save and a restore are undone. -/
theorem bracket {changes : List (Change α)} (h : Balanced changes) (c : Cell α) :
    (Change.push :: changes ++ [Change.pop]).foldl Change.apply c = c := by
  obtain ⟨since, hsaved, hlength⟩ := saved_run h (c := { c with saved := c.current :: c.saved })
    (List.nil_append (c.current :: c.saved)).symm rfl
  rw [List.eq_nil_of_length_eq_zero hlength, List.nil_append] at hsaved
  rw [List.foldl_append, List.foldl_cons]
  show Change.apply (changes.foldl Change.apply { c with saved := c.current :: c.saved }) Change.pop = c
  rw [Change.apply, hsaved]

/-! ## Many keys -/

section Keys

variable {σ ε κ : Type} [DecidableEq κ] {step : σ → ε → σ} {view : σ → κ → Cell α} {change : ε → κ × Change α} {I : σ → Prop}

/-- The changes of one key. -/
def changesOf (change : ε → κ × Change α) (k : κ) (events : List ε) : List (Change α) :=
  events.filterMap fun e => if (change e).1 = k then some (change e).2 else none

theorem changesOf_cons (e : ε) (events : List ε) (k : κ) : changesOf change k (e :: events) =
    if (change e).1 = k then (change e).2 :: changesOf change k events else changesOf change k events := by
  rw [changesOf, List.filterMap_cons]
  split
  · next hnone =>
      split at hnone
      · exact absurd hnone nofun
      · next hk => rw [if_neg hk, changesOf]
  · next hsome =>
      split at hsome
      · next hk =>
          obtain rfl := Option.some_inj.mp hsome
          rw [if_pos hk, changesOf]
      · exact absurd hsome nofun

theorem changesOf_append (events events' : List ε) (k : κ) :
    changesOf change k (events ++ events') = changesOf change k events ++ changesOf change k events' :=
  List.filterMap_append

/-- The cell of a key is changed by the events of this key. -/
theorem view_run (hI : ∀ s e, I s → I (step s e))
    (hview : ∀ s e k, I s → view (step s e) k = if (change e).1 = k then (change e).2.apply (view s k) else view s k)
    {s : σ} (hs : I s) (events : List ε) (k : κ) :
    view (events.foldl step s) k = (changesOf change k events).foldl Change.apply (view s k) := by
  induction events generalizing s with
  | nil => rfl
  | cons e events ih =>
      rw [List.foldl_cons, ih (hI s e hs), hview s e k hs, changesOf_cons]
      split
      · rfl
      · rfl

end Keys

end Brackets

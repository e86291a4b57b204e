import Mathlib

/-!
# Requests and answers

A machine answers one request after the other. A request may be one that it is not asked in its state. Where each answer of one
machine is like that of another, from states that belong together, so are the answers of whole runs.
-/

namespace Answers

/-- `none` is no answer. -/
structure Machine (σ ι ο : Type*) where
  answer : σ → ι → Option (σ × ο)

variable {σ τ ι ο ο' : Type*}

namespace Machine

def answers (M : Machine σ ι ο) : σ → List ι → Option (List ο)
  | _, [] => some []
  | s, i :: rest => (M.answer s i).bind fun (t, o) => (M.answers t rest).map (o :: ·)

variable {M : Machine σ ι ο} {s t : σ} {i : ι} {rest : List ι} {o : ο} {os : List ο}

theorem answers_cons (h : M.answer s i = some (t, o)) (hrest : M.answers t rest = some os) : M.answers s (i :: rest) = some (o :: os) := by
  simp only [answers, h, Option.bind_some, hrest, Option.map_some]

theorem of_answers_cons (h : M.answers s (i :: rest) = some os) :
    ∃ t o os', M.answer s i = some (t, o) ∧ M.answers t rest = some os' ∧ os = o :: os' := by
  rw [answers, Option.bind_eq_some_iff] at h
  obtain ⟨⟨t, o⟩, hanswer, h⟩ := h
  obtain ⟨os', hrest, rfl⟩ := Option.map_eq_some_iff.mp h
  exact ⟨t, o, os', hanswer, hrest, rfl⟩

end Machine

/-- The second machine answers whatever the first one does, and alike. -/
def Refines (M : Machine σ ι ο) (N : Machine τ ι ο') (R : σ → τ → Prop) (A : ο → ο' → Prop) : Prop :=
  ∀ ⦃s t i s' o⦄, R s t → M.answer s i = some (s', o) → ∃ t' o', N.answer t i = some (t', o') ∧ R s' t' ∧ A o o'

theorem Refines.answers {M : Machine σ ι ο} {N : Machine τ ι ο'} {R : σ → τ → Prop} {A : ο → ο' → Prop} (h : Refines M N R A) {s : σ} {t : τ}
    (hR : R s t) {requests : List ι} {os : List ο} (hs : M.answers s requests = some os) :
    ∃ os', N.answers t requests = some os' ∧ List.Forall₂ A os os' := by
  induction requests generalizing s t os with
  | nil =>
      cases hs
      exact ⟨[], rfl, .nil⟩
  | cons i rest ih =>
      obtain ⟨s', o, os₁, hanswer, hrest, rfl⟩ := Machine.of_answers_cons hs
      obtain ⟨t', o', hanswer', hR', hA⟩ := h hR hanswer
      obtain ⟨os', hrest', hAs⟩ := ih hR' hrest
      exact ⟨o' :: os', Machine.answers_cons hanswer' hrest', .cons hA hAs⟩

end Answers

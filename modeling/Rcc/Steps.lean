import Mathlib

/-!
# Runs of a step function

A library for programs that read a list from left to right and may stop: a run
is `List.foldlM` of a step in `Option`. `Everywhere` speaks of every step of a
run, in terms of what has been read, the state reached and the item that comes
next; both it and the run itself unfold from the right end, which is how
invariants of runs are proved.
-/

namespace Steps

variable {σ α : Type} {step : σ → α → Option σ} {s t : σ} {l : List α} {a : α}

/-- The last step of a run. -/
theorem foldlM_snoc :
    (l ++ [a]).foldlM step s = some t ↔ ∃ m, l.foldlM step s = some m ∧ step m a = some t := by
  rw [List.foldlM_append]
  show (l.foldlM step s).bind (fun m => (step m a).bind some) = some t ↔ _
  simp only [Option.bind_eq_some_iff, Option.some_inj, exists_eq_right]

/-- `P` holds at every step of the run over `l`. -/
def Everywhere (step : σ → α → Option σ) (s : σ) (P : List α → σ → α → Prop) (l : List α) : Prop :=
  ∀ before a after m, l = before ++ a :: after → before.foldlM step s = some m → P before m a

variable {P Q : List α → σ → α → Prop}

theorem everywhere_nil : Everywhere step s P [] :=
  fun before a after _ h => absurd h (by simp)

theorem everywhere_snoc {m : σ} (h : l.foldlM step s = some m) :
    Everywhere step s P (l ++ [a]) ↔ Everywhere step s P l ∧ P l m a := by
  constructor
  · intro hall
    refine ⟨fun before b after n hl hn => ?_, hall l a [] m rfl h⟩
    refine hall before b (after ++ [a]) n ?_ hn
    rw [hl, List.append_assoc, List.cons_append]
  · intro hboth before b after n hl hn
    obtain ⟨hall, hlast⟩ := hboth
    rcases List.eq_nil_or_concat after with rfl | ⟨after, last, rfl⟩
    · obtain ⟨rfl, hb⟩ := List.append_inj' hl rfl
      obtain rfl := List.singleton_inj.mp hb
      obtain rfl := Option.some_inj.mp (h.symm.trans hn)
      exact hlast
    · rw [List.concat_eq_append, ← List.cons_append, ← List.append_assoc] at hl
      obtain ⟨hl, _⟩ := List.append_inj' hl rfl
      exact hall before b after n hl hn

theorem everywhere_cons {m : σ} (h : step s a = some m) :
    Everywhere step s P (a :: l) ↔ P [] s a ∧ Everywhere step m (fun before => P (a :: before)) l := by
  constructor
  · intro hall
    refine ⟨hall [] a l s rfl rfl, fun before b after n hl hn => ?_⟩
    refine hall (a :: before) b after n (by rw [hl]; rfl) ?_
    rw [List.foldlM_cons, h]
    exact hn
  · intro hboth before b after n hl hn
    cases before with
    | nil =>
        obtain ⟨rfl, _⟩ := List.cons.inj hl
        obtain rfl := Option.some_inj.mp hn
        exact hboth.1
    | cons c before =>
        obtain ⟨rfl, htail⟩ := List.cons.inj hl
        rw [List.foldlM_cons, h] at hn
        exact hboth.2 before b after n htail hn

theorem everywhere_prefix {after : List α} (h : Everywhere step s P (l ++ after)) : Everywhere step s P l := by
  intro before a rest m hl hm
  exact h before a (rest ++ after) m (by rw [hl, List.append_assoc, List.cons_append]) hm

theorem everywhere_congr (h : ∀ before a after m, l = before ++ a :: after →
    before.foldlM step s = some m → (P before m a ↔ Q before m a)) :
    Everywhere step s P l ↔ Everywhere step s Q l :=
  forall_congr' fun before => forall_congr' fun a => forall_congr' fun after =>
    forall_congr' fun m => forall_congr' fun hl => forall_congr' fun hm => h before a after m hl hm

/-- A run goes on from each of its steps. -/
theorem foldlM_split {m : σ} {before after : List α} (h : l.foldlM step s = some t)
    (hl : l = before ++ a :: after) (hm : before.foldlM step s = some m) :
    ∃ m', step m a = some m' ∧ after.foldlM step m' = some t := by
  rw [hl, List.foldlM_append] at h
  have hrun : (before.foldlM step s).bind (fun m => (a :: after).foldlM step m) = some t := h
  rw [hm, Option.bind_some, List.foldlM_cons] at hrun
  exact Option.bind_eq_some_iff.mp hrun

/-- What holds at every step of a run whatever the state is a property of the items. -/
theorem everywhere_items {R : α → Prop} (h : l.foldlM step s = some t) :
    Everywhere step s (fun _ _ a => R a) l ↔ ∀ a ∈ l, R a := by
  induction l using List.reverseRecOn generalizing t with
  | nil => exact iff_of_true everywhere_nil fun a ha => absurd ha List.not_mem_nil
  | append_singleton rest a ih =>
      obtain ⟨m, hm, _⟩ := foldlM_snoc.mp h
      rw [everywhere_snoc hm, ih hm]
      simp only [List.mem_append, List.mem_singleton, or_imp, forall_and, forall_eq]

/-- A state invariant that every step keeps holds after every run. -/
theorem invariant {I : σ → Prop} (hstep : ∀ m a t, I m → step m a = some t → I t) (hs : I s)
    (h : l.foldlM step s = some t) : I t := by
  induction l using List.reverseRecOn generalizing t with
  | nil =>
      obtain rfl := Option.some_inj.mp h
      exact hs
  | append_singleton rest a ih =>
      obtain ⟨m, hm, ht⟩ := foldlM_snoc.mp h
      exact hstep m a t (ih hm) ht

end Steps

import Mathlib

/-!
# Cancelling on a stack

Names are cancelled by the mark `up` behind them, and where there is a root, a mark that
nothing is before is dropped. In whatever order that is done, what is left in the end is
the stack that one scan from the left builds: a step does not change the stack, and the
stack is reached.
-/

namespace Cancelling

variable {α : Type*} [DecidableEq α] {up : α} {rooted : Bool}

/-- One name or one mark at the root is dropped. -/
inductive Cancel (up : α) (rooted : Bool) : List α → List α → Prop
  | pair (before : List α) {x : α} (after : List α) (hx : x ≠ up) :
      Cancel up rooted (before ++ x :: up :: after) (before ++ after)
  | root (after : List α) (h : rooted = true) : Cancel up rooted (up :: after) after

/-- What is left when nothing more can be dropped. -/
structure NormalForm (up : α) (rooted : Bool) (names normal : List α) : Prop where
  reached : Relation.ReflTransGen (Cancel up rooted) names normal
  ended : ∀ next, ¬ Cancel up rooted normal next

/-- The scan, with the last name in front. -/
def push (up : α) (rooted : Bool) (stack : List α) (x : α) : List α :=
  if x = up then
    match stack with
    | last :: rest => if last ≠ up then rest else if rooted then stack else x :: stack
    | [] => if rooted then stack else [x]
  else x :: stack

theorem push_name {x : α} (hx : x ≠ up) (stack : List α) : push up rooted stack x = x :: stack := if_neg hx

theorem push_up {x : α} (hx : x ≠ up) (stack : List α) : push up rooted (x :: stack) up = stack := by
  rw [push, if_pos rfl]
  exact if_pos hx

theorem foldl_cancel {names next : List α} (h : Cancel up rooted names next) :
    names.foldl (push up rooted) [] = next.foldl (push up rooted) [] := by
  cases h with
  | pair before after hx =>
      rw [List.foldl_append, List.foldl_cons, List.foldl_cons, push_name hx, push_up hx, List.foldl_append]
  | root after h =>
      rw [List.foldl_cons, push, if_pos rfl, if_pos h]

theorem foldl_reached {names next : List α} (h : Relation.ReflTransGen (Cancel up rooted) names next) :
    names.foldl (push up rooted) [] = next.foldl (push up rooted) [] := by
  induction h with
  | refl => rfl
  | tail _ hstep ih => rw [ih, foldl_cancel hstep]

/-- The stack is reached. -/
theorem reaches_foldl (names stack : List α) (hstack : rooted = true → up ∉ stack) :
    Relation.ReflTransGen (Cancel up rooted) (stack.reverse ++ names) (names.foldl (push up rooted) stack).reverse := by
  induction names generalizing stack with
  | nil =>
      rw [List.append_nil]
      exact .refl
  | cons x names ih =>
      have hkeep : ∀ h : rooted = true → up ∉ x :: stack, Relation.ReflTransGen (Cancel up rooted) (stack.reverse ++ x :: names)
          (names.foldl (push up rooted) (x :: stack)).reverse := by
        intro h
        have hgoal := ih (x :: stack) h
        rw [List.reverse_cons, List.append_assoc] at hgoal
        exact hgoal
      rw [List.foldl_cons]
      by_cases hx : x = up
      · subst hx
        cases stack with
        | nil =>
            by_cases hr : rooted = true
            · rw [push, if_pos rfl, if_pos hr]
              exact .head (.root names hr) (ih [] hstack)
            · rw [push, if_pos rfl, if_neg hr]
              exact hkeep fun h => absurd h hr
        | cons last rest =>
            by_cases hlast : last = x
            · have hr : ¬ rooted = true := fun h => hstack h (hlast ▸ List.mem_cons_self)
              rw [push, if_pos rfl, if_neg (fun h => h hlast), if_neg hr]
              exact hkeep fun h => absurd h hr
            · rw [push_up hlast, List.reverse_cons, List.append_assoc]
              exact .head (.pair rest.reverse names hlast) (ih rest fun h hmem => hstack h (List.mem_cons_of_mem _ hmem))
      · rw [push_name hx]
        refine hkeep fun h hmem => ?_
        rcases List.mem_cons.mp hmem with heq | hmem
        · exact hx heq.symm
        · exact hstack h hmem

/-- The stack of the scan is what is left in the end. -/
theorem NormalForm.eq {names normal : List α} (h : NormalForm up rooted names normal) :
    normal = (names.foldl (push up rooted) []).reverse := by
  have hreach := @reaches_foldl α _ up rooted normal [] fun _ => List.not_mem_nil
  rw [List.reverse_nil, List.nil_append, ← foldl_reached h.reached] at hreach
  rcases Relation.ReflTransGen.cases_head hreach with heq | ⟨next, hstep, _⟩
  · exact heq
  · exact absurd hstep (h.ended next)

/-- A scan of the stack builds it again. -/
theorem foldl_foldl (names : List α) :
    (names.foldl (push up rooted) []).reverse.foldl (push up rooted) [] = names.foldl (push up rooted) [] :=
  (foldl_reached (reaches_foldl names [] fun _ => List.not_mem_nil)).symm

theorem length_push_le (stack : List α) (x : α) : (push up rooted stack x).length ≤ stack.length + 1 := by
  rw [push.eq_def]
  split
  · split
    · split
      · exact Nat.le_succ_of_le (Nat.le_succ _)
      split
      · exact Nat.le_succ _
      · exact Nat.le_refl _
    · split
      · exact Nat.zero_le _
      · exact Nat.le_refl _
  · exact Nat.le_refl _

theorem length_foldl_le (names stack : List α) : (names.foldl (push up rooted) stack).length ≤ stack.length + names.length := by
  induction names generalizing stack with
  | nil => exact Nat.le_refl _
  | cons x names ih =>
      have hih := ih (push up rooted stack x)
      have hpush := @length_push_le α _ up rooted stack x
      rw [List.foldl_cons, List.length_cons]
      omega

theorem Cancel.length_lt {names next : List α} (h : Cancel up rooted names next) : next.length < names.length := by
  cases h with
  | pair before after _ =>
      rw [List.length_append, List.length_append, List.length_cons, List.length_cons]
      omega
  | root after _ => exact Nat.lt_succ_self _

/-- A step from the stack would lead to a shorter text of the same stack. -/
theorem normalForm_foldl (names : List α) : NormalForm up rooted names (names.foldl (push up rooted) []).reverse := by
  refine ⟨reaches_foldl names [] fun _ => List.not_mem_nil, fun next hnext => ?_⟩
  have hsame := foldl_cancel hnext
  rw [foldl_foldl] at hsame
  have hlt := hnext.length_lt
  have hle := @length_foldl_le α _ up rooted next []
  rw [← hsame, List.length_nil, Nat.zero_add] at hle
  rw [List.length_reverse] at hlt
  exact absurd hle (Nat.not_le_of_lt hlt)

theorem mem_push {stack : List α} {x y : α} (h : y ∈ push up rooted stack x) : y ∈ stack ∨ y = x := by
  rw [push.eq_def] at h
  split at h
  · split at h
    · split at h
      · exact .inl (List.mem_cons_of_mem _ h)
      split at h
      · exact .inl h
      · exact (List.mem_cons.mp h).symm
    · split at h
      · exact .inl h
      · exact .inr (List.mem_singleton.mp h)
  · exact (List.mem_cons.mp h).symm

theorem mem_foldl {names stack : List α} {y : α} (h : y ∈ names.foldl (push up rooted) stack) : y ∈ stack ∨ y ∈ names := by
  induction names generalizing stack with
  | nil => exact .inl h
  | cons x names ih =>
      rcases ih h with hmem | hmem
      · rcases mem_push hmem with hmem | rfl
        · exact .inl hmem
        · exact .inr List.mem_cons_self
      · exact .inr (List.mem_cons_of_mem _ hmem)

/-! ## The bottom of the stack -/

/-- Somewhere more marks than names are behind: a mark is at the root. -/
def Rises (up : α) (depth : Nat) (names : List α) : Prop :=
  ∃ k, depth + (names.take k).countP (· ≠ up) < (names.take k).count up

theorem Rises.nil {depth : Nat} : ¬ Rises up depth [] := by
  rintro ⟨k, hk⟩
  rw [List.take_nil] at hk
  exact absurd hk (Nat.not_lt_zero _)

theorem rises_name {x : α} (hx : x ≠ up) {depth : Nat} {names : List α} : Rises up depth (x :: names) ↔ Rises up (depth + 1) names := by
  have hcount : ∀ k, (depth + ((x :: names).take (k + 1)).countP (· ≠ up) < ((x :: names).take (k + 1)).count up) ↔
      depth + 1 + (names.take k).countP (· ≠ up) < (names.take k).count up := by
    intro k
    rw [List.take_succ_cons, List.countP_cons_of_pos (by simpa using hx), List.count_cons_of_ne hx]
    omega
  constructor
  · rintro ⟨k, hk⟩
    cases k with
    | zero => exact absurd hk (Nat.not_lt_zero _)
    | succ k => exact ⟨k, (hcount k).mp hk⟩
  · rintro ⟨k, hk⟩
    exact ⟨k + 1, (hcount k).mpr hk⟩

theorem rises_up {depth : Nat} {names : List α} : Rises up (depth + 1) (up :: names) ↔ Rises up depth names := by
  have hcount : ∀ k, (depth + 1 + ((up :: names).take (k + 1)).countP (· ≠ up) < ((up :: names).take (k + 1)).count up) ↔
      depth + (names.take k).countP (· ≠ up) < (names.take k).count up := by
    intro k
    rw [List.take_succ_cons, List.countP_cons_of_neg (by simp), List.count_cons_self]
    omega
  constructor
  · rintro ⟨k, hk⟩
    cases k with
    | zero => exact absurd hk (Nat.not_lt_zero _)
    | succ k => exact ⟨k, (hcount k).mp hk⟩
  · rintro ⟨k, hk⟩
    exact ⟨k + 1, (hcount k).mpr hk⟩

theorem rises_root {names : List α} : Rises up 0 (up :: names) := by
  refine ⟨1, ?_⟩
  rw [List.take_succ_cons, List.take_zero, List.countP_cons_of_neg (by simp), List.count_cons_self]
  exact Nat.zero_lt_one

/-- A name at the bottom goes with the first mark at the root. -/
theorem foldl_bottom {bottom : α} (hbottom : bottom ≠ up) (names stack : List α) (hstack : up ∉ stack) :
    (Rises up stack.length names → names.foldl (push up true) (stack ++ [bottom]) = names.foldl (push up true) stack) ∧
      (¬ Rises up stack.length names →
        names.foldl (push up true) (stack ++ [bottom]) = names.foldl (push up true) stack ++ [bottom]) := by
  induction names generalizing stack with
  | nil => exact ⟨fun h => absurd h Rises.nil, fun _ => rfl⟩
  | cons x names ih =>
      rw [List.foldl_cons, List.foldl_cons]
      by_cases hx : x = up
      · subst hx
        cases stack with
        | nil =>
            refine ⟨fun _ => ?_, fun h => absurd rises_root h⟩
            rw [List.nil_append, push_up hbottom, push, if_pos rfl, if_pos rfl]
        | cons last rest =>
            have hlast : last ≠ x := fun heq => hstack (heq ▸ List.mem_cons_self)
            rw [List.cons_append, push_up hlast, push_up hlast, List.length_cons, rises_up]
            exact ih rest fun hmem => hstack (List.mem_cons_of_mem _ hmem)
      · rw [push_name hx, push_name hx, rises_name hx]
        refine ih (x :: stack) fun hmem => ?_
        rcases List.mem_cons.mp hmem with heq | hmem
        · exact hx heq.symm
        · exact hstack hmem

end Cancelling

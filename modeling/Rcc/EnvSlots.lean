import Mathlib
import Rcc.Opt
import Rcc.Scope

/-!
# The slots of the interpreter's environment

`eval_ast` keeps a variable at its frame offset divided by 8. The offsets come from `new_var`, which packs variables of
up to 4 bytes, so two of them can lie in the same 8 bytes: an offset is the end of its variable, and the second
of two meets the first one if that ends a multiple of 8.

So what matters is where the frame ends: at a multiple of 8 or in the middle (`middle`).
-/

namespace Rcc.EnvSlots

/-! ## Variables as the parser creates them -/

/-- A parameter or local with the size and alignment of its type. -/
structure Variable where
  var : LVar
  shape : VarTy
  /-- as every alignment is -/
  align_pow : ∃ k, shape.align = 2 ^ k

/-- `new_var` for one after the other. -/
def newVars : Nat → List Variable → List LVar
  | _, [] => []
  | stackOffset, v :: rest =>
      { v.var with offset := newOffset stackOffset v.shape } :: newVars (newOffset stackOffset v.shape) rest

/-- `stack_offset` then. -/
def extent (stackOffset : Nat) (vars : List Variable) : Nat :=
  vars.foldl (fun stackOffset v => newOffset stackOffset v.shape) stackOffset

theorem extent_cons (stackOffset : Nat) (v : Variable) (rest : List Variable) :
    extent stackOffset (v :: rest) = extent (newOffset stackOffset v.shape) rest := rfl

/-- These are the offsets of the frame. -/
theorem newVars_offsets (scope : Scope) (vars : List Variable) :
    ((vars.map (·.shape)).foldl newVar scope).locals.map (·.offset) =
      ((newVars scope.stackOffset vars).map (·.offset)).reverse ++ scope.locals.map (·.offset) := by
  induction vars generalizing scope with
  | nil => rfl
  | cons v rest ih =>
      refine (ih (newVar scope v.shape)).trans ?_
      rw [newVars, List.map_cons, List.reverse_cons, List.append_assoc]
      rfl

/-! ## Where the next variable is put -/

/-- At most 4 bytes, and aligned to no more. -/
def Small (ty : VarTy) : Prop := ty.size ≤ 4 ∧ ty.align ≤ 4

instance (ty : VarTy) : Decidable (Small ty) := inferInstanceAs (Decidable (_ ∧ _))

/-- Does the frame end in the middle of 8 bytes, behind another variable? -/
def middle (mid : Bool) (ty : VarTy) : Bool :=
  if 4 < ty.align then false else mid ^^ decide ((max ty.size 4 + 3) / 4 % 2 = 1)

/-- A small variable comes only where the variable before it has left the frame in the middle of 8 bytes. -/
def Paired : Bool → List VarTy → Prop
  | _, [] => True
  | mid, ty :: rest => (∀ next ∈ rest.head?, Small next → middle mid ty = true) ∧ Paired (middle mid ty) rest

theorem alignTo_pow (n k : Nat) :
    alignTo n (2 ^ k) % 2 ^ k = 0 ∧ n ≤ alignTo n (2 ^ k) ∧ alignTo n (2 ^ k) < n + 2 ^ k := by
  have hpos : 0 < 2 ^ k := Nat.two_pow_pos k
  have hmask : (n + 2 ^ k - 1) &&& (2 ^ k - 1) = (n + 2 ^ k - 1) % 2 ^ k := Nat.and_two_pow_sub_one_eq_mod _ k
  have hlt := Nat.mod_lt (n + 2 ^ k - 1) hpos
  have hle := Nat.mod_le (n + 2 ^ k - 1) (2 ^ k)
  rw [alignTo, hmask]
  refine ⟨?_, by omega, by omega⟩
  exact Nat.sub_mod_eq_zero_of_mod_eq (Nat.mod_mod _ _).symm

/-- A variable aligned to 8 or more ends at a multiple of 8. -/
theorem newOffset_wide {v : Variable} (h : 4 < v.shape.align) (stackOffset : Nat) :
    newOffset stackOffset v.shape % 8 = 0 := by
  obtain ⟨k, hk⟩ := v.align_pow
  have hk3 : 3 ≤ k := by
    by_contra hlt
    have hle : 2 ^ k ≤ 2 ^ 2 := Nat.pow_le_pow_right (by decide) (by omega)
    omega
  rw [newOffset, if_neg (show ¬ v.shape.align < 4 by omega), hk]
  have hmod := (alignTo_pow (stackOffset + if v.shape.size < 4 then 4 else v.shape.size) k).1
  exact Nat.mod_eq_zero_of_dvd ((Nat.pow_dvd_pow 2 hk3).trans (Nat.dvd_of_mod_eq_zero hmod))

/-- Any other takes whole words of 4 bytes. -/
theorem newOffset_narrow {ty : VarTy} (h : ty.align ≤ 4) {stackOffset : Nat} (hword : stackOffset % 4 = 0) :
    newOffset stackOffset ty = stackOffset + 4 * ((max ty.size 4 + 3) / 4) := by
  have halign : (if ty.align < 4 then 4 else ty.align) = 2 ^ 2 := by
    split <;> omega
  have hsize : (if ty.size < 4 then 4 else ty.size) = max ty.size 4 := by
    split <;> omega
  obtain ⟨hmod, hge, hlt⟩ := alignTo_pow (stackOffset + max ty.size 4) 2
  rw [newOffset, halign, hsize]
  omega

/-- The frame ends in words, and `middle` follows where. -/
structure Ends (mid : Bool) (stackOffset : Nat) : Prop where
  word : stackOffset % 4 = 0
  mid_iff : mid = true ↔ stackOffset % 8 = 4

theorem Ends.next {mid : Bool} {stackOffset : Nat} (h : Ends mid stackOffset) (v : Variable) :
    Ends (middle mid v.shape) (newOffset stackOffset v.shape) := by
  obtain ⟨hword, hmid⟩ := h
  unfold middle
  by_cases hwide : 4 < v.shape.align
  · have hend := newOffset_wide hwide stackOffset
    rw [if_pos hwide]
    exact ⟨by omega, iff_of_false (by decide) (by omega)⟩
  · rw [if_neg hwide, newOffset_narrow (by omega) hword]
    refine ⟨by omega, ?_⟩
    generalize (max v.shape.size 4 + 3) / 4 = words
    cases mid with
    | true =>
        have := hmid.mp rfl
        simp only [Bool.true_bne, Bool.not_eq_true', decide_eq_false_iff_not]
        omega
    | false =>
        have : ¬ stackOffset % 8 = 4 := fun heq => absurd (hmid.mpr heq) (by decide)
        simp only [Bool.false_bne, decide_eq_true_eq]
        omega

/-- A variable ends in other 8 bytes than the one before it, unless it is small and that one ends a multiple of 8. -/
theorem Ends.slot_lt_iff {mid : Bool} {stackOffset : Nat} (h : Ends mid stackOffset) (v : Variable) :
    stackOffset / 8 < newOffset stackOffset v.shape / 8 ↔ (Small v.shape → mid = true) := by
  obtain ⟨hword, hmid⟩ := h
  have hge := newOffset_ge stackOffset v.shape
  rw [hmid]
  by_cases hwide : 4 < v.shape.align
  · have hend := newOffset_wide hwide stackOffset
    exact iff_of_true (by omega) fun hsmall => absurd hsmall.2 (by omega)
  · rw [newOffset_narrow (by omega) hword]
    by_cases hsize : v.shape.size ≤ 4
    · have hone : (max v.shape.size 4 + 3) / 4 = 1 := by omega
      rw [hone]
      exact ⟨fun hlt _ => by omega, fun hsmall => by have := hsmall ⟨hsize, by omega⟩; omega⟩
    · have htwo : 2 ≤ (max v.shape.size 4 + 3) / 4 := by omega
      exact iff_of_true (by omega) fun hsmall => absurd hsmall.1 hsize

/-! ## All slots -/

theorem slot_ge {vars : List Variable} {stackOffset : Nat} :
    ∀ u ∈ newVars stackOffset vars, stackOffset / 8 ≤ slot u := by
  induction vars generalizing stackOffset with
  | nil => exact fun _ hu => absurd hu List.not_mem_nil
  | cons v rest ih =>
      have hge := newOffset_ge stackOffset v.shape
      intro u hu
      rcases List.mem_cons.mp hu with rfl | hu
      · exact Nat.div_le_div_right (by omega : stackOffset ≤ newOffset stackOffset v.shape)
      · exact (Nat.div_le_div_right (by omega)).trans (ih u hu)

/-- All later variables are in other slots if the next one is. -/
theorem Ends.slots_lt_iff {mid : Bool} {stackOffset : Nat} (h : Ends mid stackOffset) (vars : List Variable) :
    (∀ u ∈ newVars stackOffset vars, stackOffset / 8 < slot u) ↔
      ∀ next ∈ (vars.map (·.shape)).head?, Small next → mid = true := by
  cases vars with
  | nil => exact iff_of_true (fun _ hu => absurd hu List.not_mem_nil) (fun _ hnext => by cases hnext)
  | cons v rest =>
      have hhead : (∀ next ∈ ((v :: rest).map (·.shape)).head?, Small next → mid = true) ↔
          (Small v.shape → mid = true) := by
        rw [List.map_cons, List.head?_cons]
        exact ⟨fun hall => hall _ rfl, fun hone next hnext => by cases hnext; exact hone⟩
      rw [hhead, ← h.slot_lt_iff]
      constructor
      · exact fun hall => hall _ List.mem_cons_self
      · intro hlt u hu
        rcases List.mem_cons.mp hu with rfl | hu
        · exact hlt
        · exact hlt.trans_le (slot_ge u hu)

theorem Ends.pairwise_iff {mid : Bool} {stackOffset : Nat} (h : Ends mid stackOffset) (vars : List Variable) :
    ((newVars stackOffset vars).map slot).Pairwise (· < ·) ↔ Paired mid (vars.map (·.shape)) := by
  induction vars generalizing mid stackOffset with
  | nil => exact iff_of_true List.Pairwise.nil trivial
  | cons v rest ih =>
      have hnext := h.next v
      rw [newVars, List.map_cons, List.pairwise_cons, ih hnext, List.map_cons, Paired,
        ← hnext.slots_lt_iff, List.forall_mem_map]
      rfl

/-- The slots do not decrease. -/
theorem slots_sorted (vars : List Variable) (stackOffset : Nat) :
    ((newVars stackOffset vars).map slot).Pairwise (· ≤ ·) := by
  induction vars generalizing stackOffset with
  | nil => exact List.Pairwise.nil
  | cons v rest ih =>
      rw [newVars, List.map_cons, List.pairwise_cons, List.forall_mem_map]
      exact ⟨slot_ge, ih _⟩

theorem le_extent (vars : List Variable) (stackOffset : Nat) : stackOffset ≤ extent stackOffset vars := by
  induction vars generalizing stackOffset with
  | nil => exact le_refl _
  | cons v rest ih =>
      have hge := newOffset_ge stackOffset v.shape
      have := ih (newOffset stackOffset v.shape)
      rw [extent_cons]
      omega

theorem slots_lt_iff {vars : List Variable} {stackOffset : Nat} (h : stackOffset < 2048) :
    (∀ i ∈ (newVars stackOffset vars).map slot, i < 256) ↔ extent stackOffset vars < 2048 := by
  induction vars generalizing stackOffset with
  | nil => exact iff_of_true (fun _ hi => absurd hi List.not_mem_nil) h
  | cons v rest ih =>
      have hfirst : newOffset stackOffset v.shape / 8 < 256 ↔ newOffset stackOffset v.shape < 2048 := by omega
      have hle := le_extent rest (newOffset stackOffset v.shape)
      rw [newVars, List.map_cons, List.forall_mem_cons, extent_cons]
      show newOffset stackOffset v.shape / 8 < 256 ∧ _ ↔ _
      rw [hfirst]
      by_cases hlt : newOffset stackOffset v.shape < 2048
      · rw [ih hlt]
        exact and_iff_right hlt
      · exact iff_of_false (fun hand => hlt hand.1) (by omega)

theorem ends_start : Ends false 80 := ⟨rfl, by decide⟩

/-- `int` variables -/
def intVar (id : Nat) : Variable where
  var := ⟨id, "", 0, tyInt, true⟩
  shape := ⟨4, 4⟩
  align_pow := ⟨2, rfl⟩

end Rcc.EnvSlots

import Mathlib
import Rcc.TypeCompat

/-!
# Where the comparisons of types are right

`__builtin_types_compatible_p` sees the fields of the base and no further, so it cannot tell pointers to pointers apart, nor arrays of
different lengths, functions, or structures of one size; nor `char` from `signed char`, or enumerations. Where two pointed-to types agree in
the fields and are not compatible, or are compatible and do not agree, it is wrong, and only there.

`type_equal` goes down. The selection takes the last association that is equal to the controlling type, so it is right if equality and
compatibility pick the same association out of those there are.
-/

namespace Rcc.TypeCompat

variable {σ : Objects}

/-! ## Types of different forms -/

/-- Scalars, pointers, arrays, functions, structures. -/
def CType.form : CType → Nat
  | .scalar .. => 0
  | .ptr .. => 1
  | .array .. => 2
  | .func .. => 3
  | .struct .. => 4

def Kind.form : Kind → Nat
  | .ptr => 1
  | .array => 2
  | .func => 3
  | .struct | .union => 4
  | _ => 0

/-- A kind tells the form. -/
theorem form_kind (t : CType) : (t.kind σ).form = t.form := by
  cases t with
  | scalar qual s => cases s <;> rfl
  | struct qual object =>
      rw [CType.kind]
      split
      · rfl
      · rfl
  | _ => rfl

theorem kind_ne {t t' : CType} (h : t.form ≠ t'.form) : t.kind σ ≠ t'.kind σ := fun heq =>
  h ((form_kind t).symm.trans ((congrArg Kind.form heq).trans (form_kind t')))

theorem not_alike {t t' : CType} (h : t.form ≠ t'.form) : ¬ t.Alike σ t' := by
  cases t <;> cases t' <;> first | exact absurd rfl h | exact id

/-! ## Scalars -/

/-- The pairs that differ in no field. -/
def Scalar.Told (s s' : Scalar) : Prop :=
  ¬ (s = .char ∧ s' = .signedChar) ∧ ¬ (s = .signedChar ∧ s' = .char) ∧ ∀ tag tag', s = .enum tag → s' = .enum tag' → tag = tag'

def Scalar.SameFields (s s' : Scalar) : Prop := s.kind = s'.kind ∧ s.size = s'.size ∧ s.isUnsigned = s'.isUnsigned

theorem Scalar.told_iff (s s' : Scalar) : s.Told s' ↔ (s.SameFields s' ↔ s.Compatible s') := by
  cases s <;> cases s' <;> simp [Told, SameFields, Compatible, kind, size, isUnsigned]

/-- Scalars whose kinds have but one size. -/
theorem Scalar.size_eq {s s' : Scalar} (h : s.kind = s'.kind) : s.size = s'.size := by
  cases s <;> cases s' <;> first | rfl | cases h

theorem Scalar.isUnsigned_eq {s s' : Scalar} (h : s.kind = s'.kind) (hbare : s.kind ∈ [Kind.void, .bool, .float, .double, .ldouble]) :
    s.isUnsigned = s'.isUnsigned := by
  cases s <;> cases s' <;> first | rfl | (simp [kind] at hbare; done) | cases h

theorem typesCompatible_scalar (qual qual' : Nat) (s s' : Scalar) :
    typesCompatible σ (.scalar qual s) (.scalar qual' s') = true ↔ s.SameFields s' := by
  have hscalar : s.kind.form = 0 := by cases s <;> rfl
  have hk : CType.kind σ (.scalar qual s) = s.kind := rfl
  have hk' : CType.kind σ (.scalar qual' s') = s'.kind := rfl
  by_cases hkind : s.kind = s'.kind
  · have hsize := Scalar.size_eq hkind
    have hbare := Scalar.isUnsigned_eq hkind
    have hfields : s.SameFields s' ↔ s.isUnsigned = s'.isUnsigned := ⟨fun h => h.2.2, fun h => ⟨hkind, hsize, h⟩⟩
    rw [hfields, typesCompatible, hk, hk', if_pos hkind]
    simp only [CType.size, CType.isUnsigned, hsize]
    revert hbare hscalar
    cases s.kind <;> simp [Kind.form]
    all_goals exact decide_eq_true_iff
  · rw [typesCompatible, hk, hk', if_neg hkind]
    exact iff_of_false Bool.false_ne_true fun h => hkind h.1

/-! ## `__builtin_types_compatible_p` -/

/-- Where the fields of what is pointed to are the same exactly if the types are compatible: seen from outside, by the form. -/
def PointeesTold (σ : Objects) : CType → CType → Prop
  | .scalar qual s, .scalar qual' s' => qual = qual' → s.Told s'
  | .ptr qual base, .ptr qual' base' => qual = qual' → base.Compatible σ base'
  | .array qual len base, .array qual' len' base' =>
      (base.size σ * len.getD 0 = base'.size σ * len'.getD 0 ∧ qual = qual') ↔
        CType.Compatible σ (.array qual len base) (.array qual' len' base')
  | .func returnTy prototype params isVariadic, .func returnTy' prototype' params' isVariadic' =>
      CType.Alike σ (.func returnTy prototype params isVariadic) (.func returnTy' prototype' params' isVariadic')
  | .struct qual object, .struct qual' object' =>
      σ.isUnion (σ.tag object) = σ.isUnion (σ.tag object') →
        ((σ.size object = σ.size object' ∧ σ.qual object = σ.qual object') ↔ (qual = qual' ∧ σ.tag object = σ.tag object'))
  | _, _ => True

theorem sameFields_iff {t t' : CType} :
    sameFields σ t t' = true ↔
      t.kind σ = t'.kind σ ∧ t.size σ = t'.size σ ∧ t.isUnsigned = t'.isUnsigned ∧ t.qual σ = t'.qual σ := by
  simp [sameFields, and_assoc]

theorem pointeesTold_iff (t t' : CType) : PointeesTold σ t t' ↔ (sameFields σ t t' = true ↔ t.Compatible σ t') := by
  by_cases hform : t.form = t'.form
  · rw [sameFields_iff]
    cases t with
    | scalar qual s =>
        cases t' with
        | scalar qual' s' =>
            show (qual = qual' → s.Told s') ↔
              ((s.kind = s'.kind ∧ s.size = s'.size ∧ s.isUnsigned = s'.isUnsigned ∧ qual = qual') ↔
                (qual = qual' ∧ s.Compatible s'))
            rw [Scalar.told_iff, Scalar.SameFields]
            by_cases hqual : qual = qual'
            · simp [hqual]
            · simp [hqual]
        | _ => cases hform
    | ptr qual base =>
        cases t' with
        | ptr qual' base' =>
            show (qual = qual' → base.Compatible σ base') ↔
              ((Kind.ptr = .ptr ∧ 8 = 8 ∧ false = false ∧ qual = qual') ↔ (qual = qual' ∧ base.Compatible σ base'))
            simp
        | _ => cases hform
    | array qual len base =>
        cases t' with
        | array qual' len' base' => simp [PointeesTold, CType.kind, CType.size, CType.isUnsigned, CType.qual]
        | _ => cases hform
    | func returnTy prototype params isVariadic =>
        cases t' with
        | func returnTy' prototype' params' isVariadic' =>
            simp [PointeesTold, CType.kind, CType.size, CType.isUnsigned, CType.qual, CType.Compatible, CType.quals]
        | _ => cases hform
    | struct qual object =>
        cases t' with
        | struct qual' object' =>
            have hkind : (CType.struct qual object).kind σ = (CType.struct qual' object').kind σ ↔
                σ.isUnion (σ.tag object) = σ.isUnion (σ.tag object') := by
              simp only [CType.kind]
              cases σ.isUnion (σ.tag object) <;> cases σ.isUnion (σ.tag object') <;> simp
            rw [hkind]
            simp only [PointeesTold, CType.size, CType.isUnsigned, CType.qual, CType.Compatible, CType.quals, CType.Alike]
            by_cases hunion : σ.isUnion (σ.tag object) = σ.isUnion (σ.tag object')
            · simp [hunion]
            · have htag : σ.tag object ≠ σ.tag object' := fun h => hunion (congrArg σ.isUnion h)
              simp [hunion, htag]
        | _ => cases hform
  · have hfields : ¬ sameFields σ t t' = true := fun h => kind_ne hform (sameFields_iff.mp h).1
    have hcompat : ¬ t.Compatible σ t' := fun h => not_alike hform h.2
    refine iff_of_true ?_ (iff_of_false hfields hcompat)
    cases t <;> cases t' <;> first | exact absurd rfl hform | trivial

/-- Where `__builtin_types_compatible_p` is right. -/
def BuiltinRight (σ : Objects) : CType → CType → Prop
  | .scalar _ s, .scalar _ s' => s.Told s'
  | .ptr _ base, .ptr _ base' => PointeesTold σ base base'
  | .array qual len base, .array qual' len' base' =>
      (base.kind σ = base'.kind σ ∧ base.size σ = base'.size σ) ↔
        CType.Compatible σ (.array qual len base) (.array qual' len' base')
  | .func returnTy prototype params isVariadic, .func returnTy' prototype' params' isVariadic' =>
      CType.Alike σ (.func returnTy prototype params isVariadic) (.func returnTy' prototype' params' isVariadic')
  | .struct _ object, .struct _ object' => σ.tag object = σ.tag object' → object = object'
  | _, _ => True

theorem builtinRight_iff (t1 t2 : CType) :
    BuiltinRight σ t1 t2 ↔ (typesCompatible σ t1 t2 = true ↔ t1.unqualified.Compatible σ t2.unqualified) := by
  by_cases hform : t1.form = t2.form
  · cases t1 with
    | scalar qual s =>
        cases t2 with
        | scalar qual' s' =>
            rw [typesCompatible_scalar, BuiltinRight, Scalar.told_iff]
            show _ ↔ (s.SameFields s' ↔ 0 = 0 ∧ s.Compatible s')
            simp
        | _ => cases hform
    | ptr qual base =>
        cases t2 with
        | ptr qual' base' =>
            rw [BuiltinRight, pointeesTold_iff]
            show _ ↔ (sameFields σ base base' = true ↔ 0 = 0 ∧ base.Compatible σ base')
            simp
        | _ => cases hform
    | array qual len base =>
        cases t2 with
        | array qual' len' base' =>
            have hcode : typesCompatible σ (.array qual len base) (.array qual' len' base') = true ↔
                base.kind σ = base'.kind σ ∧ base.size σ = base'.size σ := by
              show (decide (base.kind σ = base'.kind σ) && decide (base.size σ = base'.size σ) && true) = true ↔ _
              simp
            rw [hcode]
            exact Iff.rfl
        | _ => cases hform
    | func returnTy prototype params isVariadic =>
        cases t2 with
        | func returnTy' prototype' params' isVariadic' =>
            rw [BuiltinRight]
            show _ ↔ (true = true ↔ 0 = 0 ∧ _)
            simp [CType.unqualified]
        | _ => cases hform
    | struct qual object =>
        cases t2 with
        | struct qual' object' =>
            have hcode : typesCompatible σ (.struct qual object) (.struct qual' object') = true ↔ object = object' := by
              have hform := form_kind (σ := σ) (.struct qual object)
              rw [typesCompatible]
              by_cases hkind : (CType.struct qual object).kind σ = (CType.struct qual' object').kind σ
              · rw [if_pos hkind]
                revert hform
                generalize CType.kind σ (.struct qual object) = kind
                intro hform
                cases kind <;> first | exact decide_eq_true_iff | cases hform
              · rw [if_neg hkind]
                exact iff_of_false Bool.false_ne_true fun h => hkind (by rw [h]; rfl)
            rw [hcode]
            show (σ.tag object = σ.tag object' → object = object') ↔
              (object = object' ↔ 0 = 0 ∧ σ.tag object = σ.tag object')
            refine ⟨fun h => ⟨fun heq => ⟨rfl, congrArg σ.tag heq⟩, fun heq => h heq.2⟩, fun h heq => h.mpr ⟨rfl, heq⟩⟩
        | _ => cases hform
  · have hcode : ¬ typesCompatible σ t1 t2 = true := by
      rw [typesCompatible, if_neg (kind_ne hform)]
      exact Bool.false_ne_true
    have hcompat : ¬ t1.unqualified.Compatible σ t2.unqualified := fun h => by
      refine not_alike ?_ h.2
      cases t1 <;> cases t2 <;> exact hform
    refine iff_of_true ?_ (iff_of_false hcode hcompat)
    cases t1 <;> cases t2 <;> first | exact absurd rfl hform | trivial

/-! ## `_Generic` -/

/-- A qualifier more, which an array has for its elements. -/
def CType.addQual (more : Nat) : CType → CType
  | .scalar qual s => .scalar (qual ||| more) s
  | .ptr qual base => .ptr (qual ||| more) base
  | .array qual len base => .array (qual ||| more) len base
  | .func returnTy prototype params isVariadic => .func returnTy prototype params isVariadic
  | .struct qual object => .struct (qual ||| more) object

/-- The type of the controlling expression after the conversions of C. -/
def CType.converted : CType → CType
  | .array qual _ base => .ptr 0 (base.addQual qual)
  | .func returnTy prototype params isVariadic => .ptr 0 (.func returnTy prototype params isVariadic)
  | t => t.unqualified

section Selection

variable (σ : Objects) (ctrl : CType) (associations : List (Option CType))

/-- The association has a type with which the controlling expression is compatible. -/
def Suits (place : Nat) : Prop := ∃ ty, associations[place]? = some (some ty) ∧ ctrl.converted.Compatible σ ty

/-- The association has a type that the parser takes for equal. -/
def Taken (place : Nat) : Prop := ∃ ty, associations[place]? = some (some ty) ∧ typeEqual σ (controlTy ctrl) ty = true

/-- What the standard asks of a selection: one association at most is suitable, and `default` is there at most once. -/
def Valid : Prop :=
  (∀ i j, Suits σ ctrl associations i → Suits σ ctrl associations j → i = j) ∧
    ∀ i j : Nat, associations[i]? = some none → associations[j]? = some none → i = j

/-- The suitable association, else the default one, else none. -/
def Selects (selected : Option Nat) : Prop :=
  (∃ place, selected = some place ∧ Suits σ ctrl associations place) ∨
    (∀ place, ¬ Suits σ ctrl associations place) ∧
      ((∃ place, selected = some place ∧ associations[place]? = some none) ∨
        selected = none ∧ ∀ place : Nat, associations[place]? ≠ some none)

end Selection

variable {ctrl ctrlTy : CType} {associations : List (Option CType)}

/-- The last place where something holds, if there is one. -/
def IsLast (P : Nat → Prop) (place : Option Nat) : Prop :=
  (∃ i, place = some i ∧ P i ∧ ∀ j, P j → j ≤ i) ∨ place = none ∧ ∀ i, ¬ P i

/-- The place of the last element with a property. -/
def lastWhere {α : Type} (p : α → Bool) : List α → Option Nat
  | [] => none
  | x :: rest => ((lastWhere p rest).map (· + 1)).or (if p x then some 0 else none)

theorem lastWhere_isLast {α : Type} (p : α → Bool) (l : List α) :
    IsLast (fun i => ∃ x, l[i]? = some x ∧ p x = true) (lastWhere p l) := by
  induction l with
  | nil => exact .inr ⟨rfl, fun i ⟨x, hx, _⟩ => by cases hx⟩
  | cons x rest ih =>
      rw [lastWhere]
      rcases ih with ⟨i, heq, hi, hlast⟩ | ⟨heq, hnone⟩
      · rw [heq]
        refine .inl ⟨i + 1, rfl, hi, fun j hj => ?_⟩
        cases j with
        | zero => exact Nat.zero_le _
        | succ j => exact Nat.succ_le_succ (hlast j hj)
      · rw [heq]
        by_cases hx : p x = true
        · rw [if_pos hx]
          refine .inl ⟨0, rfl, ⟨x, rfl, hx⟩, fun j hj => ?_⟩
          cases j with
          | zero => exact Nat.le_refl 0
          | succ j => exact absurd hj (hnone j)
        · rw [if_neg hx]
          refine .inr ⟨rfl, fun j hj => ?_⟩
          cases j with
          | zero =>
              obtain ⟨y, hy, hp⟩ := hj
              cases hy
              exact hx hp
          | succ j => exact hnone j hj

/-- An association that the parser takes. -/
def takes (σ : Objects) (ctrlTy : CType) (association : Option CType) : Bool := association.any (typeEqual σ ctrlTy)

theorem genericLoop_eq (place : Nat) (associations : List (Option CType)) (selected default_expr : Option Nat) :
    genericLoop σ ctrlTy place associations selected default_expr =
      (((lastWhere (takes σ ctrlTy) associations).map (· + place)).or selected).or
        (((lastWhere Option.isNone associations).map (· + place)).or default_expr) := by
  induction associations generalizing place selected default_expr with
  | nil => rfl
  | cons association rest ih =>
      have hplace : ∀ i : Nat, i + (place + 1) = i + 1 + place := fun i => by omega
      cases association with
      | none =>
          rw [genericLoop, ih, lastWhere, lastWhere]
          cases lastWhere (takes σ ctrlTy) rest <;> cases lastWhere Option.isNone rest <;> simp [takes, hplace]
      | some ty =>
          have htakes : takes σ ctrlTy (some ty) = typeEqual σ ctrlTy ty := rfl
          rw [genericLoop, ih, lastWhere, lastWhere, htakes]
          cases typeEqual σ ctrlTy ty <;> cases lastWhere (takes σ ctrlTy) rest <;> cases lastWhere Option.isNone rest <;>
            simp [hplace]

theorem taken_iff {place : Nat} :
    Taken σ ctrl associations place ↔ ∃ x, associations[place]? = some x ∧ takes σ (controlTy ctrl) x = true := by
  constructor
  · rintro ⟨ty, hty, htaken⟩
    exact ⟨some ty, hty, htaken⟩
  · rintro ⟨x, hx, htakes⟩
    cases x with
    | none => cases htakes
    | some ty => exact ⟨ty, hx, htakes⟩

/-- The selection is the last association taken, else the last default. -/
theorem generic_isLast (σ : Objects) (ctrl : CType) (associations : List (Option CType)) :
    (∃ place, generic σ ctrl associations = some place ∧ Taken σ ctrl associations place ∧
      ∀ j, Taken σ ctrl associations j → j ≤ place) ∨
    (∀ j, ¬ Taken σ ctrl associations j) ∧ IsLast (fun i => associations[i]? = some none) (generic σ ctrl associations) := by
  have hgeneric : generic σ ctrl associations =
      (lastWhere (takes σ (controlTy ctrl)) associations).or (lastWhere Option.isNone associations) := by
    rw [generic, genericLoop_eq]
    cases lastWhere (takes σ (controlTy ctrl)) associations <;> cases lastWhere Option.isNone associations <;> rfl
  rcases lastWhere_isLast (takes σ (controlTy ctrl)) associations with ⟨i, heq, hi, hlast⟩ | ⟨heq, hnone⟩
  · refine .inl ⟨i, ?_, taken_iff.mpr hi, fun j hj => hlast j (taken_iff.mp hj)⟩
    rw [hgeneric, heq]
    rfl
  · refine .inr ⟨fun j hj => hnone j (taken_iff.mp hj), ?_⟩
    have hdefault := lastWhere_isLast Option.isNone associations
    simp only [Option.isNone_iff_eq_none, exists_eq_right] at hdefault
    rw [hgeneric, heq]
    exact hdefault

/-- Where a selection is right: a suitable association is taken, and what is taken is suitable or in front of a suitable one. -/
def SelectionRight (σ : Objects) (ctrl : CType) (associations : List (Option CType)) : Prop :=
  (∀ place, Suits σ ctrl associations place → Taken σ ctrl associations place) ∧
    ∀ place, Taken σ ctrl associations place → ∃ suitable, place ≤ suitable ∧ Suits σ ctrl associations suitable

theorem not_default_of_typed {place : Nat} {ty : CType} (h : associations[place]? = some (some ty)) :
    associations[place]? ≠ some none := fun hnone => by
  rw [h] at hnone
  cases hnone

theorem selectionRight_iff (hvalid : Valid σ ctrl associations) :
    SelectionRight σ ctrl associations ↔ Selects σ ctrl associations (generic σ ctrl associations) := by
  have hgeneric := generic_isLast σ ctrl associations
  constructor
  · rintro ⟨htaken, hsuitable⟩
    rcases hgeneric with ⟨place, heq, hplace, hlast⟩ | ⟨hnone, hdefault⟩
    · obtain ⟨suitable, hle, hsuits⟩ := hsuitable place hplace
      obtain rfl := Nat.le_antisymm hle (hlast suitable (htaken suitable hsuits))
      exact .inl ⟨place, heq, hsuits⟩
    · refine .inr ⟨fun place hsuits => hnone place (htaken place hsuits), ?_⟩
      rcases hdefault with ⟨i, heq, hi, -⟩ | ⟨heq, hno⟩
      · exact .inl ⟨i, heq, hi⟩
      · exact .inr ⟨heq, hno⟩
  · rintro (⟨place, heq, hsuits⟩ | ⟨hno, hselected⟩)
    · have honly : ∀ i, Suits σ ctrl associations i → i = place := fun i hi => hvalid.1 i place hi hsuits
      rcases hgeneric with ⟨last, heq', hlast, hmost⟩ | ⟨-, hdefault⟩
      · obtain rfl := Option.some.inj (heq.symm.trans heq')
        exact ⟨fun i hi => honly i hi ▸ hlast, fun j hj => ⟨place, hmost j hj, hsuits⟩⟩
      · obtain ⟨ty, hty, -⟩ := hsuits
        rcases hdefault with ⟨i, heq', hi, -⟩ | ⟨heq', -⟩
        · obtain rfl := Option.some.inj (heq.symm.trans heq')
          exact absurd hi (not_default_of_typed hty)
        · cases heq.symm.trans heq'
    · refine ⟨fun place hsuits => absurd hsuits (hno place), fun place htaken => ?_⟩
      rcases hgeneric with ⟨last, heq, ⟨ty, hty, -⟩, -⟩ | ⟨hnone, -⟩
      · rcases hselected with ⟨i, heq', hi⟩ | ⟨heq', -⟩
        · obtain rfl := Option.some.inj (heq.symm.trans heq')
          exact absurd hi (not_default_of_typed hty)
        · cases heq.symm.trans heq'
      · exact absurd htaken (hnone place)

end Rcc.TypeCompat

import Rcc.CheckType
import Rcc.C11Type

/-!
# Operators: typing against conditions on the operand types

What `check_type` computes against what C11 assigns, at one operator.
`TypedAt` is the promise at a node: the type is the standard's, and the
operands have the common type the operation is performed in. `ExactAt` is the
condition on the operand types under which the pass keeps it.

The pass casts by size (`castOperand`), not by type, so an operand of the
common type's size but not of the common type stays as it is; the composite
rules of `?:` and of pointer comparison cast nothing at all; and three kinds
get a type outright: a pointer difference and `sizeof` are `int`, a
dereferenced function designator is refused.

The equivalences here are about typed operands (`binRight_iff`,
`condRight_iff`); `TypingSound` carries them over the tree.
-/

namespace Rcc

open C11

/-! ## The two properties -/

section Properties

variable (nullConst : Node Unit → Bool)

/-- The operands (or arms) of the typed node have the type `t`. -/
def OperandsHave (t : Ty) : Node Ty → Prop
  | .bin _ lhs rhs _ => valueType lhs.ty = t ∧ valueType rhs.ty = t
  | .cond _ then_ els _ => valueType then_.ty = t ∧ valueType els.ty = t
  | _ => True

/-- The multiplication that scales the index of pointer arithmetic is an
arithmetic node like any other: it has the common type of its operands and so
have they. -/
def ScaleTyped : Node Ty → Prop
  | .bin kind base (.cast (.bin .mul index size ty) _) _ =>
      kind = .add ∨ kind = .sub → base.ty.base?.isSome →
        ty = common (valueType index.ty) (valueType size.ty) ∧
          valueType index.ty = ty ∧ valueType size.ty = ty
  | _ => True

/-- `check_type` is right at the root of `e`: where the standard assigns a
type it is the type of the node, up to top-level qualifiers unless `e` is an
lvalue, and where the operands are converted to a common type they have it. -/
def TypedAt (e : Node Unit) : Prop :=
  ∀ t, c11Type nullConst e = some t → ∃ n, checkType e = some n ∧
    n.ty.unqual = t.unqual ∧ (isLvalue e → n.ty = t) ∧ ScaleTyped n ∧
    ∀ c, operandType nullConst e = some c → OperandsHave c n

/-- The size tests of `castOperand` give both operands of the arithmetic
types `l` and `r` the common type: each has it already or is narrower (or is
an integer meeting a floating type), and no `unsigned int` meets a signed
8-byte integer. -/
def arithExact (l r : Ty) : Bool :=
  let c := common l r
  (l == c || if isFlonum c then isInteger l else decide (l.size < c.size)) &&
  (r == c || if isFlonum c then isInteger r else decide (r.size < c.size)) &&
  !(l == tyUint && r.size == 8 && !r.isUnsigned && isInteger r) &&
  !(r == tyUint && l.size == 8 && !l.isUnsigned && isInteger l)

/-- The condition on the value types of two operands: exact arithmetic, no
pointer difference, `int` indices, and for pointer comparisons operands that
have the common type already. -/
def binExact (kind : BinKind) (nl nr : Bool) (l r : Ty) : Prop :=
  if isNumber l && isNumber r then
    kind.isArith || kind.isCompare → arithExact l r
  else
    (kind = .sub → ¬ (l.isPtr ∧ r.isPtr)) ∧
      (kind = .add ∨ kind = .sub → (isInteger l → l = tyInt) ∧ (isInteger r → r = tyInt)) ∧
      ∀ c, binOperandTy nl nr l r kind = some c → l = c ∧ r = c

/-- The condition on the value types of two arms: both have the type of the
whole already. -/
def condExact (nl nr : Bool) (l r : Ty) : Prop :=
  ∀ c, condOperandTy nl nr l r = some c → l = c ∧ r = c

/-- The condition at the root of `e`, in terms of the standard's types of its
operands. -/
def operandsExact (e : Node Unit) : Prop :=
  match e with
  | .bin kind lhs rhs _ => ∀ l r, c11Type nullConst lhs = some l →
      c11Type nullConst rhs = some r →
      binExact kind (nullConst lhs) (nullConst rhs) (valueType l) (valueType r)
  | .un .sizeof _ _ => False
  | .un .deref lhs _ => ∀ l, c11Type nullConst lhs = some l → isFunc l = false
  | .member lhs m _ => ∀ l, c11Type nullConst lhs = some l → m.ty.qual ||| l.qual = m.ty.qual
  | .cond _ then_ els _ => ∀ l r, c11Type nullConst then_ = some l →
      c11Type nullConst els = some r →
      isFunc l = false ∧ condExact (nullConst then_) (nullConst els) (valueType l) (valueType r)
  | _ => True

/-- The condition, where the standard assigns a type at all. -/
def ExactAt (e : Node Unit) : Prop :=
  (c11Type nullConst e).isSome → operandsExact nullConst e

end Properties

/-! ## Types up to qualifiers

Everything below compares types modulo their top-level qualifiers, and the
value type of an expression is what survives. -/

theorem valueType_congr {a b : Ty} (h : a.unqual = b.unqual) : valueType a = valueType b := by
  cases a <;> cases b <;> simp only [Ty.unqual, Ty.withQual, reduceCtorEq] at h <;>
    first
      | exact h
      | (cases h; rfl)

@[simp] theorem isInteger_valueType (t : Ty) : isInteger (valueType t) = isInteger t := by
  cases t <;> rfl

@[simp] theorem isFlonum_valueType (t : Ty) : isFlonum (valueType t) = isFlonum t := by
  cases t <;> rfl

@[simp] theorem isNumber_valueType (t : Ty) : isNumber (valueType t) = isNumber t := by
  simp [isNumber]

theorem valueType_of_isNumber {t : Ty} (h : isNumber t = true) : valueType t = t.unqual := by
  cases t <;> first
    | rfl
    | (simp [isNumber, isInteger, isFlonum] at h)

/-- The unqualified arithmetic types. -/
def arithTypes : List Ty :=
  [tyBool, tyChar, tyUchar, tyShort, tyUshort, tyInt, tyUint, tyLong, tyUlong, tyLlong, tyUllong,
    tyFloat, tyDouble, tyLdouble]

theorem unqual_mem_arithTypes {t : Ty} (h : isNumber t = true) : t.unqual ∈ arithTypes := by
  match t with
  | .bool _ =>
      show Ty.bool 0 ∈ arithTypes
      decide
  | .integer k u _ =>
      show Ty.integer k u 0 ∈ arithTypes
      cases k <;> cases u <;> decide
  | .flonum k _ =>
      show Ty.flonum k 0 ∈ arithTypes
      cases k <;> decide
  | .void _ | .ptr _ _ | .array _ _ _ | .vla _ _ | .func _ _ | .struct _ _ _ =>
      exact absurd h (by simp [isNumber, isInteger, isFlonum])

/-! ## The arithmetic conversions -/

/-- The type `castOperand` leaves an operand of type `t` with. -/
def castTy (ty t : Ty) : Ty :=
  if isFlonum ty then (if isInteger t then ty else t)
  else if isInteger ty then (if ty.size > t.size then ty else t)
  else t

@[simp] theorem castOperand_ty (ty : Ty) (n : Node Ty) : (castOperand ty n).ty = castTy ty n.ty := by
  unfold castOperand castTy insertArithCast
  split
  · split <;> rfl
  · split
    · split <;> rfl
    · rfl

theorem castTy_unqual (ty t : Ty) : (castTy ty t).unqual = castTy ty.unqual t.unqual := by
  unfold castTy
  rw [isFlonum_unqual, isInteger_unqual, isInteger_unqual, Ty.size_unqual, Ty.size_unqual]
  split
  · split <;> rfl
  · split
    · split <;> rfl
    · rfl

/-- The operands end up with the common type exactly under `arithExact`. -/
theorem castTy_eq_common_iff : ∀ l ∈ arithTypes, ∀ r ∈ arithTypes,
    (castTy (usualArithType l r) l = common l r ∧ castTy (usualArithType l r) r = common l r) ↔
      arithExact l r = true := by
  decide

/-- The type of the node is then the common type as well. -/
theorem usualArithType_of_arithExact : ∀ l ∈ arithTypes, ∀ r ∈ arithTypes,
    arithExact l r = true → usualArithType l r = common l r := by
  decide

theorem isNumber_castTy {l r : Ty} (hl : isNumber l = true) (hr : isNumber r = true) :
    isNumber (castTy (usualArithType l r) l) = true ∧
      isNumber (castTy (usualArithType l r) r) = true := by
  have hall : ∀ a ∈ arithTypes, ∀ b ∈ arithTypes,
      isNumber (castTy (usualArithType a b) a) = true ∧
        isNumber (castTy (usualArithType a b) b) = true := by decide
  have h := hall _ (unqual_mem_arithTypes hl) _ (unqual_mem_arithTypes hr)
  rwa [usualArithType_unqual, ← castTy_unqual, ← castTy_unqual, isNumber_unqual,
    isNumber_unqual] at h

theorem operandsHave_arithNode (kind : BinKind) {nl nr : Node Ty} (ty : Ty)
    (hl : isNumber nl.ty = true) (hr : isNumber nr.ty = true) :
    OperandsHave (common (valueType nl.ty) (valueType nr.ty))
        (arithNode kind nl nr (usualArithType nl.ty nr.ty) ty) ↔
      arithExact (valueType nl.ty) (valueType nr.ty) = true := by
  have hn := isNumber_castTy hl hr
  rw [← castTy_eq_common_iff _ (by rw [valueType_of_isNumber hl]; exact unqual_mem_arithTypes hl)
    _ (by rw [valueType_of_isNumber hr]; exact unqual_mem_arithTypes hr)]
  simp only [OperandsHave, arithNode, castOperand_ty]
  rw [valueType_of_isNumber hn.1, valueType_of_isNumber hn.2, castTy_unqual, castTy_unqual,
    valueType_of_isNumber hl, valueType_of_isNumber hr, usualArithType_unqual]

theorem usualArithType_unqual_of_exact {a b : Ty} (ha : isNumber a = true)
    (hb : isNumber b = true) (h : arithExact (valueType a) (valueType b) = true) :
    (usualArithType a b).unqual = common (valueType a) (valueType b) := by
  rw [valueType_of_isNumber ha, valueType_of_isNumber hb] at h ⊢
  rw [← usualArithType_unqual]
  exact usualArithType_of_arithExact _ (unqual_mem_arithTypes ha) _ (unqual_mem_arithTypes hb) h

/-! ## Binary operators -/

/-- At the root of a binary node other than assignment and comma: type,
operands and inserted multiplication are right together. -/
def BinRight (kind : BinKind) (nl nr : Bool) (a b : Node Ty) (t : Ty) : Prop :=
  (typeBin kind a b).ty.unqual = t.unqual ∧ ScaleTyped (typeBin kind a b) ∧
    ∀ c, binOperandTy nl nr (valueType a.ty) (valueType b.ty) kind = some c →
      OperandsHave c (typeBin kind a b)

theorem base?_of_isNumber {t : Ty} (h : isNumber t = true) : t.base? = none := by
  cases t <;> first
    | rfl
    | (simp [isNumber, isInteger, isFlonum] at h)

theorem scaleTyped_of_base {kind : BinKind} {a b : Node Ty} {ty : Ty}
    (h : a.ty.base? = none) : ScaleTyped (.bin kind a b ty) := by
  unfold ScaleTyped
  split
  · next heq =>
    cases heq
    intro _ hb
    rw [h] at hb
    exact absurd hb (by decide)
  · trivial

theorem scaleTyped_of_kind {kind : BinKind} {a b : Node Ty} {ty : Ty}
    (h : ¬ (kind = .add ∨ kind = .sub)) : ScaleTyped (.bin kind a b ty) := by
  unfold ScaleTyped
  split
  · next heq =>
    cases heq
    intro hk
    exact absurd hk h
  · trivial

theorem scaleTyped_arithNode (kind : BinKind) {a b : Node Ty} (ty : Ty)
    (ha : isNumber a.ty = true) (hb : isNumber b.ty = true) :
    ScaleTyped (arithNode kind a b (usualArithType a.ty b.ty) ty) := by
  refine scaleTyped_of_base ?_
  rw [castOperand_ty]
  exact base?_of_isNumber (isNumber_castTy ha hb).1

/-- Two numbers under a kind with the usual arithmetic conversions. -/
theorem binRight_number {kind : BinKind} (nl nr : Bool) {a b : Node Ty} {t : Ty}
    (hk : kind.isArith = true) (ha : isNumber a.ty = true) (hb : isNumber b.ty = true)
    (hnode : typeBin kind a b =
      arithNode kind a b (usualArithType a.ty b.ty) (usualArithType a.ty b.ty))
    (ht : t = common (valueType a.ty) (valueType b.ty)) :
    BinRight kind nl nr a b t ↔ binExact kind nl nr (valueType a.ty) (valueType b.ty) := by
  have hop := operandsHave_arithNode kind (usualArithType a.ty b.ty) ha hb
  have hsc := scaleTyped_arithNode kind (usualArithType a.ty b.ty) ha hb
  unfold BinRight binExact binOperandTy
  rw [hnode, ht]
  simp only [isNumber_valueType, ha, hb, hk, Bool.and_self, Bool.true_or, if_true,
    Option.some.injEq, forall_eq', forall_const]
  constructor
  · rintro ⟨_, _, h⟩
    exact hop.mp h
  · intro h
    refine ⟨?_, hsc, hop.mpr h⟩
    have hu := usualArithType_unqual_of_exact ha hb h
    show (usualArithType a.ty b.ty).unqual = _
    rw [hu, ← hu, Ty.unqual_unqual]

/-- Two numbers compared. -/
theorem binRight_compare_number {kind : BinKind} (nl nr : Bool) {a b : Node Ty}
    (hk : kind.isCompare = true) (hka : kind.isArith = false)
    (ha : isNumber a.ty = true) (hb : isNumber b.ty = true)
    (hnode : typeBin kind a b = arithNode kind a b (usualArithType a.ty b.ty) tyInt) :
    BinRight kind nl nr a b tyInt ↔ binExact kind nl nr (valueType a.ty) (valueType b.ty) := by
  have hop := operandsHave_arithNode kind tyInt ha hb
  have hsc := scaleTyped_arithNode kind tyInt ha hb
  unfold BinRight binExact binOperandTy compareCommon
  rw [hnode]
  simp only [isNumber_valueType, ha, hb, hk, hka, Bool.and_self, Bool.false_or, if_true,
    Option.some.injEq, forall_eq', forall_const, Bool.false_eq_true, if_false]
  exact ⟨fun h => hop.mp h.2.2, fun h => ⟨rfl, hsc, hop.mpr h⟩⟩

/-- The base of a pointer operand is that of its value. -/
theorem base_of_isObjectPtr {t : Ty} (h : isObjectPtr (valueType t) = true) :
    ∃ base, t.base? = some base ∧ valueType t = pointerTo base ∧
      (decayArray t base).unqual = pointerTo base ∧ isNumber t = false := by
  match t with
  | .ptr base q => exact ⟨base, rfl, rfl, rfl, rfl⟩
  | .array base len q => exact ⟨base, rfl, rfl, rfl, rfl⟩
  | .vla base q => exact ⟨base, rfl, rfl, rfl, rfl⟩
  | .func ret q => exact absurd h (by simp [valueType, isObjectPtr, pointerTo, isFunc])
  | .void _ | .bool _ | .integer _ _ _ | .flonum _ _ | .struct _ _ _ =>
      exact absurd h (by simp [valueType, isObjectPtr, Ty.unqual, Ty.withQual])

/-- A scaled index: the inserted multiplication is `int` times `int`. -/
theorem scaleTyped_scaleIndex {kind : BinKind} {p i : Node Ty} {size : Nat} {ty : Ty}
    (hk : kind = .add ∨ kind = .sub) (hp : p.ty.base?.isSome = true) :
    ScaleTyped (.bin kind p (scaleIndex i size) ty) ↔ valueType i.ty = tyInt := by
  show (kind = .add ∨ kind = .sub → p.ty.base?.isSome →
    tyInt = common (valueType i.ty) (valueType tyInt) ∧ valueType i.ty = tyInt ∧
      valueType tyInt = tyInt) ↔ _
  constructor
  · intro h
    exact (h hk hp).2.1
  · intro h _ _
    rw [h]
    exact ⟨rfl, rfl, rfl⟩

/-- Pointer and index, in either order, as `check_type` leaves them. -/
theorem binRight_index {kind : BinKind} (nl nr : Bool) {a b p i : Node Ty} {base t : Ty}
    (hk : kind = .add ∨ kind = .sub) (hbase : p.ty.base? = some base)
    (hnode : typeBin kind a b =
      .bin kind p (scaleIndex i base.size) (decayArray p.ty base))
    (ht : (decayArray p.ty base).unqual = t.unqual)
    (hnone : binOperandTy nl nr (valueType a.ty) (valueType b.ty) kind = none) :
    BinRight kind nl nr a b t ↔ valueType i.ty = tyInt := by
  unfold BinRight
  rw [hnode, hnone, scaleTyped_scaleIndex hk (by rw [hbase]; rfl)]
  simp only [reduceCtorEq, false_implies, implies_true, and_true]
  exact ⟨fun h => h.2, fun h => ⟨ht, h⟩⟩

theorem typeAddSub_number (kind : BinKind) {a b : Node Ty} (ha : isNumber a.ty = true)
    (hb : isNumber b.ty = true) :
    typeAddSub kind a b =
      arithNode kind a b (usualArithType a.ty b.ty) (usualArithType a.ty b.ty) := by
  simp only [typeAddSub, ha, hb, Bool.and_self, if_true]

/-- Pointer and integer. -/
theorem typeAddSub_left (kind : BinKind) {a b : Node Ty} {base : Ty}
    (ha : a.ty.base? = some base) (hn : isNumber a.ty = false) (hb : isInteger b.ty = true) :
    typeAddSub kind a b = .bin kind a (scaleIndex b base.size) (decayArray a.ty base) := by
  simp only [typeAddSub, hn, ha, hb, Bool.false_and, Bool.false_eq_true, if_false, if_true]

/-- Integer and pointer: the operands change places. -/
theorem typeAddSub_right {a b : Node Ty} {base : Ty} (ha : isInteger a.ty = true)
    (hb : b.ty.base? = some base) (hn : isNumber b.ty = false) :
    typeAddSub .add a b = .bin .add b (scaleIndex a base.size) (decayArray b.ty base) := by
  have ha0 : a.ty.base? = none := base?_of_isNumber (by simp [isNumber, ha])
  simp only [typeAddSub, hn, ha0, hb, ha, Bool.and_false, Bool.false_eq_true, if_false, if_true,
    reduceCtorEq]

/-- Pointer and pointer. -/
theorem typeAddSub_ptr (kind : BinKind) {a b : Node Ty} {base : Ty}
    (ha : a.ty.base? = some base) (hn : isNumber a.ty = false) (hb : isNumber b.ty = false) :
    typeAddSub kind a b = .bin kind a b tyInt := by
  have hi : isInteger b.ty = false := by
    simp only [isNumber, Bool.or_eq_false_iff] at hb
    exact hb.1
  simp only [typeAddSub, hn, ha, hi, Bool.false_and, Bool.false_eq_true, if_false]

theorem isPtr_of_isObjectPtr {t : Ty} (h : isObjectPtr t = true) : t.isPtr = true := by
  cases t <;> first
    | rfl
    | (simp [isObjectPtr] at h)

theorem isInteger_of_isPtr {t : Ty} (h : t.isPtr = true) : isInteger t = false := by
  cases t <;> first
    | rfl
    | (simp [Ty.isPtr] at h)

theorem isPtr_of_isInteger {t : Ty} (h : isInteger t = true) : t.isPtr = false := by
  cases t <;> first
    | rfl
    | (simp [isInteger] at h)

theorem isNumber_of_isInteger {t : Ty} (h : isInteger t = true) : isNumber t = true := by
  simp [isNumber, h]

/-- No arithmetic kind converts operands that are not both numbers. -/
theorem binOperandTy_arith_none {kind : BinKind} (nl nr : Bool) {l r : Ty}
    (hk : kind.isArith = true) (h : (isNumber l && isNumber r) = false) :
    binOperandTy nl nr l r kind = none := by
  simp only [binOperandTy, hk, h, if_true, Bool.false_eq_true, if_false]

/-- `binExact` of a pointer and an index. -/
theorem binExact_index {kind : BinKind} (nl nr : Bool) {l r : Ty}
    (hk : kind = .add ∨ kind = .sub) (h : (isNumber l && isNumber r) = false)
    (hp : (l.isPtr && r.isPtr) = false) :
    binExact kind nl nr l r ↔ (isInteger l → l = tyInt) ∧ (isInteger r → r = tyInt) := by
  have ha : kind.isArith = true := by
    rcases hk with rfl | rfl <;> rfl
  have hp' : ¬ (l.isPtr = true ∧ r.isPtr = true) := by
    rintro ⟨h1, h2⟩
    rw [h1, h2] at hp
    exact absurd hp (by decide)
  unfold binExact
  rw [h, binOperandTy_arith_none nl nr ha h]
  simp only [Bool.false_eq_true, if_false, reduceCtorEq, false_implies, implies_true, and_true]
  exact ⟨fun hx => hx.2 hk, fun hx => ⟨fun _ => hp', fun _ => hx⟩⟩

/-- Pointer plus or minus integer. -/
theorem binRight_ptr_int {kind : BinKind} (nl nr : Bool) {a b : Node Ty}
    (hk : kind = .add ∨ kind = .sub) (hp : isObjectPtr (valueType a.ty) = true)
    (hi : isInteger (valueType b.ty) = true) :
    BinRight kind nl nr a b (valueType a.ty) ↔
      binExact kind nl nr (valueType a.ty) (valueType b.ty) := by
  obtain ⟨base, hbase, hv, hd, hn⟩ := base_of_isObjectPtr hp
  have hpi := isInteger_of_isPtr (isPtr_of_isObjectPtr hp)
  have hnum : (isNumber (valueType a.ty) && isNumber (valueType b.ty)) = false := by
    simp only [isNumber_valueType, hn, Bool.false_and]
  have ha : kind.isArith = true := by
    rcases hk with rfl | rfl <;> rfl
  have hib : isInteger b.ty = true := by rwa [isInteger_valueType] at hi
  have hnode : typeBin kind a b =
      .bin kind a (scaleIndex b base.size) (decayArray a.ty base) := by
    rcases hk with rfl | rfl <;> exact typeAddSub_left _ hbase hn hib
  rw [binRight_index nl nr hk hbase hnode (by rw [hd, hv]; rfl)
    (binOperandTy_arith_none nl nr ha hnum),
    binExact_index nl nr hk hnum (by rw [isPtr_of_isInteger hi, Bool.and_false])]
  simp only [hpi, hi, Bool.false_eq_true, false_implies, true_and, forall_const]

/-- Integer plus pointer. -/
theorem binRight_int_ptr (nl nr : Bool) {a b : Node Ty}
    (hi : isInteger (valueType a.ty) = true) (hp : isObjectPtr (valueType b.ty) = true) :
    BinRight .add nl nr a b (valueType b.ty) ↔
      binExact .add nl nr (valueType a.ty) (valueType b.ty) := by
  obtain ⟨base, hbase, hv, hd, hn⟩ := base_of_isObjectPtr hp
  have hpi := isInteger_of_isPtr (isPtr_of_isObjectPtr hp)
  have hnum : (isNumber (valueType a.ty) && isNumber (valueType b.ty)) = false := by
    simp only [isNumber_valueType, hn, Bool.and_false]
  have hia : isInteger a.ty = true := by rwa [isInteger_valueType] at hi
  rw [binRight_index nl nr (.inl rfl) hbase (typeAddSub_right hia hbase hn) (by rw [hd, hv]; rfl)
    (binOperandTy_arith_none nl nr rfl hnum),
    binExact_index nl nr (.inl rfl) hnum (by rw [isPtr_of_isInteger hi, Bool.false_and])]
  simp only [hpi, hi, Bool.false_eq_true, false_implies, and_true, forall_const]

/-- A pointer difference is `int`, never `ptrdiff_t`. -/
theorem binRight_ptr_ptr (nl nr : Bool) {a b : Node Ty}
    (ha : isObjectPtr (valueType a.ty) = true) (hb : isObjectPtr (valueType b.ty) = true) :
    BinRight .sub nl nr a b tyLong ↔ binExact .sub nl nr (valueType a.ty) (valueType b.ty) := by
  obtain ⟨base, hbase, _, _, hn⟩ := base_of_isObjectPtr ha
  obtain ⟨_, _, _, _, hn'⟩ := base_of_isObjectPtr hb
  have hnode : typeBin .sub a b = .bin .sub a b tyInt := typeAddSub_ptr .sub hbase hn hn'
  unfold BinRight binExact
  rw [hnode]
  simp only [isNumber_valueType, hn, Bool.false_and, Bool.false_eq_true, if_false]
  constructor
  · rintro ⟨h, _⟩
    exact absurd h (show ¬ tyInt.unqual = tyLong.unqual by decide)
  · rintro ⟨h, _⟩
    exact absurd ⟨isPtr_of_isObjectPtr ha, isPtr_of_isObjectPtr hb⟩ (h trivial)

/-- `+` and `-`. -/
theorem binRight_addSub {kind : BinKind} (nl nr : Bool) {a b : Node Ty} {t : Ty}
    (hk : kind = .add ∨ kind = .sub)
    (h : binTy nl nr (valueType a.ty) (valueType b.ty) kind = some t) :
    BinRight kind nl nr a b t ↔ binExact kind nl nr (valueType a.ty) (valueType b.ty) := by
  by_cases hnum : (isNumber (valueType a.ty) && isNumber (valueType b.ty)) = true
  · obtain ⟨ha, hb⟩ : isNumber a.ty = true ∧ isNumber b.ty = true := by
      simpa only [isNumber_valueType, Bool.and_eq_true] using hnum
    rcases hk with rfl | rfl
    · simp only [binTy, hnum, if_true, Option.some.injEq] at h
      exact binRight_number nl nr rfl ha hb (typeAddSub_number .add ha hb) h.symm
    · simp only [binTy, hnum, if_true, Option.some.injEq] at h
      exact binRight_number nl nr rfl ha hb (typeAddSub_number .sub ha hb) h.symm
  · rcases hk with rfl | rfl
    · simp only [binTy, hnum, Bool.false_eq_true, if_false] at h
      split at h
      · next hpi =>
        cases h
        rw [Bool.and_eq_true] at hpi
        exact binRight_ptr_int nl nr (.inl rfl) hpi.1 hpi.2
      · split at h
        · next hip =>
          cases h
          rw [Bool.and_eq_true] at hip
          exact binRight_int_ptr nl nr hip.1 hip.2
        · cases h
    · simp only [binTy, hnum, Bool.false_eq_true, if_false] at h
      split at h
      · next hpi =>
        cases h
        rw [Bool.and_eq_true] at hpi
        exact binRight_ptr_int nl nr (.inr rfl) hpi.1 hpi.2
      · split at h
        · next hpp =>
          cases h
          rw [Bool.and_eq_true, Bool.and_eq_true] at hpp
          exact binRight_ptr_ptr nl nr hpp.1.1 hpp.1.2
        · cases h

/-- `*`, `/`, `%` and the bitwise operators. -/
theorem binRight_mul {kind : BinKind} (nl nr : Bool) {a b : Node Ty} {t : Ty}
    (hk : kind.isArith = true) (hnode : typeBin kind a b = typeMul kind a b)
    (ht : t = common (valueType a.ty) (valueType b.ty))
    (ha : isNumber (valueType a.ty) = true) (hb : isNumber (valueType b.ty) = true) :
    BinRight kind nl nr a b t ↔ binExact kind nl nr (valueType a.ty) (valueType b.ty) := by
  rw [isNumber_valueType] at ha hb
  exact binRight_number nl nr hk ha hb hnode ht

/-- Comparisons. -/
theorem binRight_compare {kind : BinKind} (nl nr : Bool) {a b : Node Ty}
    (hk : kind.isCompare = true) (hka : kind.isArith = false)
    (hnode : typeBin kind a b = typeCompare kind a b) :
    BinRight kind nl nr a b tyInt ↔ binExact kind nl nr (valueType a.ty) (valueType b.ty) := by
  have hkk : ¬ (kind = .add ∨ kind = .sub) := by
    rintro (rfl | rfl) <;> exact absurd hk (by decide)
  by_cases hnum : (isNumber a.ty && isNumber b.ty) = true
  · have h2 := hnum
    rw [Bool.and_eq_true] at h2
    refine binRight_compare_number nl nr hk hka h2.1 h2.2 ?_
    rw [hnode, typeCompare, if_pos hnum]
  · have hn : typeBin kind a b = .bin kind a b tyInt := by
      rw [hnode, typeCompare, if_neg hnum]
    unfold BinRight binExact
    rw [hn]
    simp only [isNumber_valueType, hnum, Bool.false_eq_true, if_false, OperandsHave]
    exact ⟨fun h => ⟨fun hs => absurd (.inr hs) hkk, fun hs => absurd hs hkk, h.2.2⟩,
      fun h => ⟨rfl, scaleTyped_of_kind hkk, h.2.2⟩⟩

/-- Shifts and logical operators convert their operands apart, so there is
nothing to be exact about. -/
theorem binRight_free {kind : BinKind} (nl nr : Bool) {a b : Node Ty} {ty t : Ty}
    (hka : kind.isArith = false) (hk : kind.isCompare = false)
    (hnode : typeBin kind a b = .bin kind a b ty) (ht : ty.unqual = t.unqual) :
    BinRight kind nl nr a b t ↔ binExact kind nl nr (valueType a.ty) (valueType b.ty) := by
  have hkk : ¬ (kind = .add ∨ kind = .sub) := by
    rintro (rfl | rfl) <;> exact absurd hka (by decide)
  have hop : ∀ l r, binOperandTy nl nr l r kind = none := by
    intro l r
    simp only [binOperandTy, hka, hk, Bool.false_eq_true, if_false]
  have hex : binExact kind nl nr (valueType a.ty) (valueType b.ty) := by
    unfold binExact
    split
    · intro hx
      rw [hka, hk] at hx
      exact absurd hx (by decide)
    · refine ⟨fun hs => absurd (.inr hs) hkk, fun hs => absurd hs hkk, fun c hc => ?_⟩
      rw [hop] at hc
      cases hc
  refine iff_of_true ?_ hex
  unfold BinRight
  rw [hnode]
  refine ⟨ht, scaleTyped_of_kind hkk, fun c hc => ?_⟩
  rw [hop] at hc
  cases hc

/-- The promoted type of an operand is that of its value. -/
theorem integerPromotion_promote {t : Ty} (h : isInteger (valueType t) = true) :
    (integerPromotion t).unqual = (promote (valueType t)).unqual := by
  rw [isInteger_valueType] at h
  match t with
  | .bool _ => rfl
  | .integer .char _ _ | .integer .short _ _ | .integer .int _ _ | .integer .long _ _
  | .integer .llong _ _ => rfl
  | .void _ | .flonum _ _ | .ptr _ _ | .array _ _ _ | .vla _ _ | .func _ _ | .struct _ _ _ =>
      exact absurd h (by simp [isInteger])

/-- Type, operands and inserted multiplication are right exactly under
`binExact`, whatever the operator. -/
theorem binRight_iff {kind : BinKind} (nl nr : Bool) {a b : Node Ty} {t : Ty}
    (h : binTy nl nr (valueType a.ty) (valueType b.ty) kind = some t) :
    BinRight kind nl nr a b t ↔ binExact kind nl nr (valueType a.ty) (valueType b.ty) := by
  cases kind with
  | add => exact binRight_addSub nl nr (.inl rfl) h
  | sub => exact binRight_addSub nl nr (.inr rfl) h
  | mul | div =>
      simp only [binTy, Option.ite_none_right_eq_some, Option.some.injEq, Bool.and_eq_true] at h
      exact binRight_mul nl nr rfl rfl h.2.symm h.1.1 h.1.2
  | mod | bitand | bitxor | bitor =>
      simp only [binTy, Option.ite_none_right_eq_some, Option.some.injEq, Bool.and_eq_true] at h
      exact binRight_mul nl nr rfl rfl h.2.symm (isNumber_of_isInteger h.1.1)
        (isNumber_of_isInteger h.1.2)
  | eq | ne | lt | le =>
      simp only [binTy, Option.ite_none_right_eq_some, Option.some.injEq] at h
      rw [← h.2]
      exact binRight_compare nl nr rfl rfl rfl
  | shl | shr =>
      simp only [binTy, Option.ite_none_right_eq_some, Option.some.injEq, Bool.and_eq_true] at h
      rw [← h.2]
      exact binRight_free nl nr rfl rfl rfl (integerPromotion_promote h.1.1)
  | logand | logor =>
      simp only [binTy, Option.ite_none_right_eq_some, Option.some.injEq] at h
      rw [← h.2]
      exact binRight_free nl nr rfl rfl rfl rfl
  | assign | comma => exact absurd h (by simp [binTy])

/-! ## Conditional expressions -/

/-- Two numbers of their common type already get it from the pass too. -/
theorem usualArithType_of_common : ∀ l ∈ arithTypes, ∀ r ∈ arithTypes,
    l = common l r → r = common l r → usualArithType l r = common l r := by
  decide

/-- An operand whose value is a pointer, unless it designates a function. -/
theorem base_of_valueType {t base : Ty} (hv : valueType t = pointerTo base)
    (hf : isFunc t = false) :
    t.base? = some base ∧ t.isVoid = false ∧ (decayArray t base).unqual = pointerTo base := by
  match t with
  | .ptr _ _ | .array _ _ _ | .vla _ _ =>
      simp only [valueType, Ty.unqual, Ty.withQual, pointerTo, Ty.ptr.injEq, and_true] at hv
      subst hv
      exact ⟨rfl, rfl, rfl⟩
  | .func _ _ => cases hf
  | .void _ | .bool _ | .integer _ _ _ | .flonum _ _ | .struct _ _ _ => cases hv

/-- Such an operand is not an array when its base is no array element. -/
theorem unqual_of_valueType {t base : Ty} (hv : valueType t = pointerTo base)
    (hf : isFunc t = false) (hbad : isBadArray t = false)
    (hbase : (isFunc base || base.isVoid) = true) : t.unqual = pointerTo base := by
  match t with
  | .ptr _ _ => exact hv
  | .array _ _ _ | .vla _ _ =>
      simp only [valueType, pointerTo, Ty.ptr.injEq, and_true] at hv
      subst hv
      rw [isBadArray, hbase] at hbad
      cases hbad
  | .func _ _ => cases hf
  | .void _ | .bool _ | .integer _ _ _ | .flonum _ _ | .struct _ _ _ => cases hv

theorem elseCompletes_self (base : Ty) : elseCompletes base base = false := by
  unfold elseCompletes
  split
  · cases (Ty.array _ _ _).size <;> rfl
  · rfl

/-- Merging two equal bases changes nothing. -/
theorem condPointer_same {tty ety base : Ty} (hv : valueType ety = pointerTo base)
    (hf : isFunc ety = false) (hbad : isBadArray ety = false)
    (ht : (decayArray tty base).unqual = pointerTo base) :
    (condPointer tty ety base base).unqual = pointerTo base := by
  unfold condPointer
  rw [elseCompletes_self]
  by_cases hvoid : base.isVoid = true
  · simp only [hvoid, Bool.or_self, if_true, Bool.not_true, Bool.false_eq_true, if_false,
      Nat.or_self, ne_eq, not_true_eq_false]
    exact unqual_of_valueType hv hf hbad (by rw [hvoid, Bool.or_true])
  · simp only [hvoid, Bool.or_self, Bool.false_eq_true, if_false, Nat.or_self, ne_eq,
      not_true_eq_false]
    exact ht

/-- Arms of one pointer type: whatever branch of the switch is taken, the
result is that type. -/
theorem condType_ptr {a b : Node Ty} {base : Ty} (hfa : isFunc a.ty = false)
    (hba : isBadArray a.ty = false) (hbb : isBadArray b.ty = false)
    (ha : valueType a.ty = pointerTo base) (hb : valueType b.ty = pointerTo base) :
    (condType a b).unqual = pointerTo base := by
  obtain ⟨hab, hav, had⟩ := base_of_valueType ha hfa
  by_cases hfb : isFunc b.ty = true
  · have hbn : b.ty.base? = none ∧ b.ty.isVoid = false ∧ isFunc base = true := by
      cases hbt : b.ty <;> rw [hbt] at hfb hb <;> first
        | (cases hfb; done)
        | skip
      simp only [valueType, pointerTo, Ty.ptr.injEq, and_true] at hb
      subst hb
      exact ⟨rfl, rfl, rfl⟩
    simp only [condType, hav, hbn.2.1, hab, hbn.1, Bool.or_self, Bool.false_eq_true, if_false]
    split
    · exact had
    · exact unqual_of_valueType ha hfa hba (by rw [hbn.2.2, Bool.true_or])
  · rw [Bool.not_eq_true] at hfb
    obtain ⟨hbb', hbv, hbd⟩ := base_of_valueType hb hfb
    simp only [condType, hav, hbv, hab, hbb', Bool.or_self, Bool.false_eq_true, if_false]
    split
    · exact hbd
    · split
      · exact had
      · exact condPointer_same hb hfb hbb had

theorem isNullPtrConst_func {n : Node Ty} (h : isFunc n.ty = true) :
    isNullPtrConst n = false := by
  cases n with
  | num val ty =>
      have hi : isInteger ty = false := by
        cases ty <;> first
          | rfl
          | cases h
      show (isInteger ty && val == 0) = false
      rw [hi, Bool.false_and]
  | cast inner ty =>
      cases ty <;> first
        | rfl
        | cases h
  | _ => rfl

/-- A function designator as first arm stays one. -/
theorem condType_func {a b : Node Ty} (hf : isFunc a.ty = true) (hb : b.ty.isVoid = false) :
    condType a b = a.ty := by
  obtain ⟨hbase, hvoid, hnum⟩ :
      a.ty.base? = none ∧ a.ty.isVoid = false ∧ isNumber a.ty = false := by
    cases ht : a.ty <;> rw [ht] at hf <;> first
      | exact ⟨rfl, rfl, rfl⟩
      | cases hf
  cases hbb : b.ty.base? <;>
    simp only [condType, hbase, hvoid, hnum, hb, hbb, isNullPtrConst_func hf, Bool.or_self,
      Bool.false_and, Bool.false_eq_true, if_false]

/-- A pointer value has no qualifiers of its own. -/
theorem valueType_eq_pointerTo {t : Ty} (h : (valueType t).isPtr = true) :
    ∃ base, valueType t = pointerTo base := by
  match t with
  | .ptr base _ | .array base _ _ | .vla base _ => exact ⟨base, rfl⟩
  | .func ret _ => exact ⟨_, rfl⟩
  | .void _ | .bool _ | .integer _ _ _ | .flonum _ _ | .struct _ _ _ => cases h

theorem isFunc_of_valueType {t : Ty} (h : (valueType t).isPtr = false) : isFunc t = false := by
  cases t <;> first
    | rfl
    | cases h

/-- The arms and the type of a conditional expression. -/
def CondRight (nl nr : Bool) (a b : Node Ty) (t : Ty) : Prop :=
  (condType a b).unqual = t.unqual ∧
    ∀ c, condOperandTy nl nr (valueType a.ty) (valueType b.ty) = some c →
      valueType a.ty = c ∧ valueType b.ty = c

/-- Two numbers. -/
theorem condRight_number {nl nr : Bool} {a b : Node Ty} {t : Ty}
    (ha : isNumber a.ty = true) (hb : isNumber b.ty = true)
    (h : condTy nl nr (valueType a.ty) (valueType b.ty) = some t) :
    CondRight nl nr a b t ↔
      isFunc a.ty = false ∧ condExact nl nr (valueType a.ty) (valueType b.ty) := by
  have hf : isFunc a.ty = false := by
    cases hat : a.ty <;> rw [hat] at ha <;> first
      | rfl
      | (simp [isNumber, isInteger, isFlonum] at ha)
  have ht : t = common (valueType a.ty) (valueType b.ty) := by
    simpa only [condTy, isNumber_valueType, ha, hb, Bool.and_self, if_true, Option.some.injEq,
      eq_comm] using h
  refine ⟨fun hx => ⟨hf, hx.2⟩, fun hx => ⟨?_, hx.2⟩⟩
  have hop : condOperandTy nl nr (valueType a.ty) (valueType b.ty) = some t := by
    simp only [condOperandTy, isNumber_valueType, ha, hb, Bool.and_self, Bool.true_or, if_true, h]
  obtain ⟨hl, hr⟩ := hx.2 t hop
  have hvoid : ∀ t : Ty, isNumber t = true → t.isVoid = false := by
    intro t ht
    cases t <;> first
      | rfl
      | (simp [isNumber, isInteger, isFlonum] at ht)
  simp only [condType, hvoid _ ha, hvoid _ hb, base?_of_isNumber ha, base?_of_isNumber hb, ha, hb,
    Bool.or_self, Bool.and_self, Bool.false_eq_true, if_false, if_true]
  rw [← usualArithType_unqual, ← valueType_of_isNumber ha, ← valueType_of_isNumber hb]
  have hmem : ∀ t : Ty, isNumber t = true → valueType t ∈ arithTypes := by
    intro t ht
    rw [valueType_of_isNumber ht]
    exact unqual_mem_arithTypes ht
  rw [usualArithType_of_common _ (hmem _ ha) _ (hmem _ hb) (hl.trans ht) (hr.trans ht), ← ht, ← hl,
    valueType_of_isNumber ha, Ty.unqual_unqual]

/-- A pointer on either side. -/
theorem condRight_ptr {nl nr : Bool} {a b : Node Ty} {t : Ty}
    (hba : isBadArray a.ty = false) (hbb : isBadArray b.ty = false)
    (hptr : ((valueType a.ty).isPtr || (valueType b.ty).isPtr) = true)
    (h : condTy nl nr (valueType a.ty) (valueType b.ty) = some t) :
    CondRight nl nr a b t ↔
      isFunc a.ty = false ∧ condExact nl nr (valueType a.ty) (valueType b.ty) := by
  have hop : condOperandTy nl nr (valueType a.ty) (valueType b.ty) = some t := by
    rw [condOperandTy, Bool.or_assoc, hptr, Bool.or_true, if_pos rfl, h]
  have harms : ∀ {x y : Ty}, valueType x = t → valueType y = t →
      ((valueType x).isPtr || (valueType y).isPtr) = true → ∃ base, t = pointerTo base := by
    intro x y hx hy hp
    rw [hy, ← hx, Bool.or_self] at hp
    obtain ⟨base, hbase⟩ := valueType_eq_pointerTo hp
    exact ⟨base, hx ▸ hbase⟩
  constructor
  · rintro ⟨hty, hc⟩
    refine ⟨?_, hc⟩
    obtain ⟨ha, hb⟩ := hc t hop
    obtain ⟨base, rfl⟩ := harms ha hb hptr
    have hbv : b.ty.isVoid = false := by
      cases hbt : b.ty <;> rw [hbt] at hb <;> first
        | rfl
        | cases hb
    by_cases hf : isFunc a.ty = true
    · rw [condType_func hf hbv] at hty
      cases hat : a.ty <;> rw [hat] at hty hf <;> first
        | (cases hf; done)
        | cases hty
    · rwa [Bool.not_eq_true] at hf
  · rintro ⟨hf, hc⟩
    refine ⟨?_, hc⟩
    obtain ⟨ha, hb⟩ := hc t hop
    obtain ⟨base, rfl⟩ := harms ha hb hptr
    exact condType_ptr hf hba hbb ha hb

/-- Arms that are not converted: two structures, or two `void`s. -/
theorem condRight_other {nl nr : Bool} {a b : Node Ty} {t : Ty}
    (hnum : (isNumber a.ty && isNumber b.ty) = false)
    (hptr : ((valueType a.ty).isPtr || (valueType b.ty).isPtr) = false)
    (h : condTy nl nr (valueType a.ty) (valueType b.ty) = some t) :
    CondRight nl nr a b t ↔
      isFunc a.ty = false ∧ condExact nl nr (valueType a.ty) (valueType b.ty) := by
  have hop : condOperandTy nl nr (valueType a.ty) (valueType b.ty) = none := by
    rw [condOperandTy, Bool.or_assoc, hptr, isNumber_valueType, isNumber_valueType, hnum,
      Bool.or_self, if_neg (by decide)]
  have hf : isFunc a.ty = false := by
    rw [Bool.or_eq_false_iff] at hptr
    exact isFunc_of_valueType hptr.1
  have hvac : ∀ {P : Ty → Prop} (c : Ty),
      condOperandTy nl nr (valueType a.ty) (valueType b.ty) = some c → P c := by
    intro P c hc
    rw [hop] at hc
    cases hc
  refine iff_of_true ⟨?_, hvac⟩ ⟨hf, hvac⟩
  simp only [condTy, isNumber_valueType, hnum, Bool.false_eq_true, if_false] at h
  cases hat : a.ty <;> cases hbt : b.ty <;>
    simp only [hat, hbt, valueType, Ty.unqual, Ty.withQual, pointerTo, Ty.isPtr, Bool.or_self,
      Bool.or_true, Bool.true_or, Bool.true_eq_false, reduceCtorEq] at h hptr
  · cases h
    simp only [condType, hat, Ty.isVoid, Bool.true_or, if_true]
  · simp only [Option.ite_none_right_eq_some, Option.some.injEq] at h
    obtain ⟨_, rfl⟩ := h
    simp only [condType, hat, hbt, Ty.isVoid, Ty.base?, isNumber, isInteger, isFlonum, Bool.or_self,
      Bool.and_self, Bool.false_eq_true, if_false]
    rfl

/-- Type and arms are right exactly when the first arm is no function
designator and both arms have the common type already. -/
theorem condRight_iff {nl nr : Bool} {a b : Node Ty} {t : Ty}
    (hba : isBadArray a.ty = false) (hbb : isBadArray b.ty = false)
    (h : condTy nl nr (valueType a.ty) (valueType b.ty) = some t) :
    CondRight nl nr a b t ↔
      isFunc a.ty = false ∧ condExact nl nr (valueType a.ty) (valueType b.ty) := by
  cases hnum : isNumber a.ty && isNumber b.ty with
  | true =>
      rw [Bool.and_eq_true] at hnum
      exact condRight_number hnum.1 hnum.2 h
  | false =>
      cases hptr : (valueType a.ty).isPtr || (valueType b.ty).isPtr with
      | true => exact condRight_ptr hba hbb hptr h
      | false => exact condRight_other hnum hptr h

end Rcc

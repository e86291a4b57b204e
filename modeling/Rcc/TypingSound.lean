import Rcc.TypingOperators

/-!
# Typing soundness

`check_type` against the standard on whole trees. A node's type depends on
its operands only through their types up to qualifiers, and those are right
by the induction hypothesis, so each constructor is one equivalence between
`TypedAt` and `ExactAt` at the root; the induction collects them.

The one thing an operand passes on besides its value type is the exact type
of an lvalue, qualifiers included: `&`, members and function designators read
it. Only lvalues have function type (`isLvalue_of_isFunc`).
-/

namespace Rcc

open C11

/-! ## Node by node -/

/-- Decay of the right operand of a comma. -/
theorem commaType_unqual {t r : Ty} (hu : t.unqual = r.unqual)
    (hq : isFunc r = true → r.qual = 0) (hf : isFunc r = true → t = r) :
    (commaType t).unqual = (valueType r).unqual := by
  cases r <;> first
    | (rw [hf rfl]
       have hq0 := hq rfl
       simp only [Ty.qual] at hq0
       subst hq0
       rfl)
    | (cases t <;> simp only [Ty.unqual, Ty.withQual, reduceCtorEq] at hu; cases hu; rfl)

theorem isFunc_valueType (t : Ty) : isFunc (valueType t) = false := by
  cases t <;> rfl

theorem isFunc_promote {t : Ty} (h : isFunc t = false) : isFunc (promote t) = false := by
  match t with
  | .bool _ | .integer .char _ _ | .integer .short _ _ | .integer .int _ _
  | .integer .long _ _ | .integer .llong _ _ => rfl
  | .void _ | .flonum _ _ | .ptr _ _ | .array _ _ _ | .vla _ _ | .struct _ _ _ => rfl
  | .func _ _ => cases h

theorem isFunc_commonInt {l r : Ty} (hl : isFunc l = false) (hr : isFunc r = false) :
    isFunc (commonInt l r) = false := by
  have hu : ∀ t : Ty, isFunc t = false → isFunc (toUnsigned t) = false := by
    intro t ht
    cases t <;> first
      | rfl
      | cases ht
  unfold commonInt
  cases l.isUnsigned <;> cases r.isUnsigned <;> simp only <;> repeat' split
  all_goals first
    | exact hl
    | exact hr
    | exact hu _ hl
    | exact hu _ hr

theorem isFunc_common {l r : Ty} (hl : isFunc l = false) (hr : isFunc r = false) :
    isFunc (common l r) = false := by
  unfold common
  split <;> first
    | rfl
    | exact isFunc_commonInt (isFunc_promote hl) (isFunc_promote hr)

theorem isFunc_binTy {nl nr : Bool} {l r t : Ty} {kind : BinKind} (hl : isFunc l = false)
    (hr : isFunc r = false) (h : binTy nl nr l r kind = some t) : isFunc t = false := by
  have hc := isFunc_common hl hr
  have hp := isFunc_promote hl
  cases kind <;> simp only [binTy] at h <;> (repeat' split at h) <;> cases h <;>
    first
      | rfl
      | exact hl
      | exact hr
      | exact hc
      | exact hp

theorem isFunc_condTy {nl nr : Bool} {l r t : Ty} (hl : isFunc l = false)
    (hr : isFunc r = false) (h : condTy nl nr l r = some t) : isFunc t = false := by
  have hc := isFunc_common hl hr
  unfold condTy at h
  (repeat' split at h) <;> cases h <;>
    first
      | rfl
      | exact hl
      | exact hr
      | exact hc

theorem isFunc_unqual (t : Ty) : isFunc t.unqual = isFunc t := by
  cases t <;> rfl

theorem isBadArray_unqual (t : Ty) : isBadArray t.unqual = isBadArray t := by
  cases t <;> rfl

section Nodes

variable {nullConst : Node Unit → Bool}

theorem c11Type_bin {kind : BinKind} (lhs rhs : Node Unit) (ha : kind ≠ .assign)
    (hc : kind ≠ .comma) :
    c11Type nullConst (.bin kind lhs rhs ()) = (c11Type nullConst lhs).bind fun l =>
      (c11Type nullConst rhs).bind fun r =>
        binTy (nullConst lhs) (nullConst rhs) (valueType l) (valueType r) kind := by
  cases kind <;> first
    | rfl
    | exact absurd rfl ha
    | exact absurd rfl hc

theorem c11Type_bin_notFunc {kind : BinKind} {lhs rhs : Node Unit} {t : Ty}
    (h : c11Type nullConst (.bin kind lhs rhs ()) = some t) : isFunc t = false := by
  by_cases ha : kind = .assign
  · subst ha
    obtain ⟨l, _, h⟩ := Option.bind_eq_some_iff.mp h
    obtain ⟨r, _, h⟩ := Option.bind_eq_some_iff.mp h
    simp only [Option.ite_none_right_eq_some, Option.some.injEq, Bool.and_eq_true,
      Bool.not_eq_true'] at h
    obtain ⟨⟨⟨_, hf⟩, _⟩, rfl⟩ := h
    rw [isFunc_unqual, hf]
  · by_cases hc : kind = .comma
    · subst hc
      obtain ⟨l, _, h⟩ := Option.bind_eq_some_iff.mp h
      obtain ⟨r, _, h⟩ := Option.bind_eq_some_iff.mp h
      simp only [Option.ite_none_left_eq_some, Option.some.injEq] at h
      rw [← h.2]
      exact isFunc_valueType r
    · rw [c11Type_bin lhs rhs ha hc] at h
      obtain ⟨l, _, h⟩ := Option.bind_eq_some_iff.mp h
      obtain ⟨r, _, h⟩ := Option.bind_eq_some_iff.mp h
      exact isFunc_binTy (isFunc_valueType l) (isFunc_valueType r) h

theorem c11Type_un_notFunc {kind : UnKind} {lhs : Node Unit} {t : Ty}
    (h : c11Type nullConst (.un kind lhs ()) = some t) (hd : kind ≠ .deref) :
    isFunc t = false := by
  obtain ⟨l, _, h⟩ := Option.bind_eq_some_iff.mp h
  have hv := isFunc_valueType l
  cases kind <;> simp only [Option.ite_none_right_eq_some, Option.some.injEq] at h
  case deref => exact absurd rfl hd
  case neg =>
    rw [← h.2]
    split
    · exact hv
    · exact isFunc_promote hv
  case bitnot => exact h.2 ▸ isFunc_promote hv
  case postInc | postDec =>
    simp only [Bool.and_eq_true] at h
    rw [← h.2, isFunc_unqual]
    have hs := h.1.2
    cases l <;> first
      | rfl
      | cases hs
  all_goals first
    | (rw [← h.2]; rfl)
    | (rw [← h]; rfl)

/-- Functions are only ever designated: no operator yields one. -/
theorem isLvalue_of_isFunc {e : Node Unit} {t : Ty} (h : c11Type nullConst e = some t)
    (hf : isFunc t = true) : isLvalue e = true := by
  have hno : isFunc t = false → isLvalue e = true := by
    intro hx
    rw [hx] at hf
    cases hf
  match e with
  | .lvar _ | .member _ _ _ | .un .deref _ _ => rfl
  | .null =>
      cases h
      cases hf
  | .str _ | .ret _ | .ifStmt _ _ _ | .block _ | .exprStmt _ | .other _ => cases h
  | .bin _ _ _ _ => exact hno (c11Type_bin_notFunc h)
  | .un .neg _ _ | .un .not _ _ | .un .bitnot _ _ | .un .addr _ _ | .un .postInc _ _
  | .un .postDec _ _ | .un .sizeof _ _ => exact hno (c11Type_un_notFunc h (by decide))
  | .link node next =>
      obtain ⟨l, _, h⟩ := Option.bind_eq_some_iff.mp h
      obtain ⟨r, _, h⟩ := Option.bind_eq_some_iff.mp h
      cases h
      cases hf
  | .num _ ty | .fnum ty =>
      simp only [c11Type, Option.ite_none_right_eq_some, Option.some.injEq] at h
      obtain ⟨hi, rfl⟩ := h
      cases ty <;> first
        | (cases hi; done)
        | cases hf
  | .cast lhs ty =>
      obtain ⟨l, _, h⟩ := Option.bind_eq_some_iff.mp h
      simp only [Option.ite_none_right_eq_some, Option.some.injEq] at h
      obtain ⟨hc, rfl⟩ := h
      cases ty <;> first
        | (cases hf; done)
        | (simp [castOk, Ty.isVoid, isNumber, isInteger, isFlonum, Ty.isPtr] at hc)
  | .cond c then_ els _ =>
      obtain ⟨_, _, h⟩ := Option.bind_eq_some_iff.mp h
      obtain ⟨l, _, h⟩ := Option.bind_eq_some_iff.mp h
      obtain ⟨r, _, h⟩ := Option.bind_eq_some_iff.mp h
      simp only [Option.ite_none_right_eq_some] at h
      exact hno (isFunc_condTy (isFunc_valueType l) (isFunc_valueType r) h.2)
  | .funcall _ args ty =>
      obtain ⟨_, _, h⟩ := Option.bind_eq_some_iff.mp h
      simp only [Option.ite_none_left_eq_some, Option.some.injEq, Bool.or_eq_true, not_or,
        Bool.not_eq_true] at h
      exact hno (h.2 ▸ h.1.1)

/-- A typed operand, as the rules of its parent see it. -/
theorem TypedAt.operand {e : Node Unit} (h : TypedAt nullConst e) {t : Ty}
    (ht : c11Type nullConst e = some t) :
    ∃ n, checkType e = some n ∧ n.ty.unqual = t.unqual ∧ valueType n.ty = valueType t ∧
      (isLvalue e = true → n.ty = t) := by
  obtain ⟨n, hn, hu, hl, _⟩ := h t ht
  exact ⟨n, hn, hu, valueType_congr hu, hl⟩

/-- Nothing is promised of a node the standard gives no type. -/
theorem typedAt_iff_of_none {e : Node Unit} (h : c11Type nullConst e = none) :
    TypedAt nullConst e ↔ ExactAt nullConst e := by
  refine iff_of_true ?_ ?_
  · intro t ht
    rw [h] at ht
    cases ht
  · intro hs
    rw [h] at hs
    cases hs

/-- The equivalence at a node with a type, spelled out. -/
theorem typedAt_iff_of_some {e : Node Unit} {t : Ty} {n : Node Ty}
    (ht : c11Type nullConst e = some t) (hn : checkType e = some n) (hl : isLvalue e = false)
    (h : (n.ty.unqual = t.unqual ∧ ScaleTyped n ∧
        ∀ c, operandType nullConst e = some c → OperandsHave c n) ↔ operandsExact nullConst e) :
    TypedAt nullConst e ↔ ExactAt nullConst e := by
  unfold TypedAt ExactAt
  rw [ht, hn, ← h]
  simp only [Option.some.injEq, forall_eq', exists_eq_left', hl, Bool.false_eq_true, false_implies,
    true_and, Option.isSome_some, forall_const]

theorem typedAt_bin {kind : BinKind} {lhs rhs : Node Unit} (ha : kind ≠ .assign)
    (hc : kind ≠ .comma) (hl : TypedAt nullConst lhs) (hr : TypedAt nullConst rhs) :
    TypedAt nullConst (.bin kind lhs rhs ()) ↔ ExactAt nullConst (.bin kind lhs rhs ()) := by
  cases ht : c11Type nullConst (.bin kind lhs rhs ()) with
  | none => exact typedAt_iff_of_none ht
  | some t =>
      have ht' := ht
      rw [c11Type_bin lhs rhs ha hc] at ht'
      obtain ⟨l, hlt, ht'⟩ := Option.bind_eq_some_iff.mp ht'
      obtain ⟨r, hrt, ht'⟩ := Option.bind_eq_some_iff.mp ht'
      obtain ⟨a, hla, _, hav, _⟩ := hl.operand hlt
      obtain ⟨b, hrb, _, hbv, _⟩ := hr.operand hrt
      have hn : checkType (.bin kind lhs rhs ()) = some (typeBin kind a b) := by
        simp only [checkType, hla, hrb]
        rfl
      refine typedAt_iff_of_some ht hn rfl ?_
      rw [← hav, ← hbv] at ht'
      have hop : operandType nullConst (.bin kind lhs rhs ()) =
          binOperandTy (nullConst lhs) (nullConst rhs) (valueType a.ty) (valueType b.ty) kind := by
        simp only [operandType, hlt, hrt, hav, hbv]
        rfl
      rw [hop]
      refine (binRight_iff _ _ ht').trans ?_
      rw [hav, hbv]
      constructor
      · intro h l' r' hl' hr'
        rw [hlt] at hl'
        rw [hrt] at hr'
        cases hl'
        cases hr'
        exact h
      · intro h
        exact h l r hlt hrt

theorem typedAt_assign {lhs rhs : Node Unit} (hl : TypedAt nullConst lhs)
    (hr : TypedAt nullConst rhs) :
    TypedAt nullConst (.bin .assign lhs rhs ()) ↔
      ExactAt nullConst (.bin .assign lhs rhs ()) := by
  cases ht : c11Type nullConst (.bin .assign lhs rhs ()) with
  | none => exact typedAt_iff_of_none ht
  | some t =>
      obtain ⟨l, hlt, ht'⟩ := Option.bind_eq_some_iff.mp ht
      obtain ⟨r, hrt, ht'⟩ := Option.bind_eq_some_iff.mp ht'
      simp only [Option.ite_none_right_eq_some, Option.some.injEq] at ht'
      obtain ⟨a, hla, hau, _⟩ := hl.operand hlt
      obtain ⟨b, hrb, _⟩ := hr.operand hrt
      have hn : checkType (.bin .assign lhs rhs ()) = some (typeBin .assign a b) := by
        simp only [checkType, hla, hrb]
        rfl
      have hop : operandType nullConst (.bin .assign lhs rhs ()) = none := by
        simp only [operandType, hlt, hrt]
        rfl
      refine typedAt_iff_of_some ht hn rfl (iff_of_true ⟨?_, ?_, ?_⟩ ?_)
      · show a.ty.unqual = _
        rw [hau, ← ht'.2, Ty.unqual_unqual]
      · exact scaleTyped_of_kind (by decide)
      · intro c hc
        rw [hop] at hc
        cases hc
      · intro l r _ _
        unfold binExact
        split
        · intro h
          cases h
        · exact ⟨fun h => (by cases h), fun h => (by cases h <;> contradiction),
            fun c h => (by cases h)⟩

theorem typedAt_comma {lhs rhs : Node Unit} (hl : TypedAt nullConst lhs)
    (hr : TypedAt nullConst rhs) :
    TypedAt nullConst (.bin .comma lhs rhs ()) ↔
      ExactAt nullConst (.bin .comma lhs rhs ()) := by
  cases ht : c11Type nullConst (.bin .comma lhs rhs ()) with
  | none => exact typedAt_iff_of_none ht
  | some t =>
      obtain ⟨l, hlt, ht'⟩ := Option.bind_eq_some_iff.mp ht
      obtain ⟨r, hrt, ht'⟩ := Option.bind_eq_some_iff.mp ht'
      simp only [Option.ite_none_left_eq_some, Option.some.injEq, Bool.and_eq_true,
        decide_eq_true_eq, not_and, Decidable.not_not, ne_eq] at ht'
      obtain ⟨hq, rfl⟩ := ht'
      obtain ⟨a, hla, _⟩ := hl.operand hlt
      obtain ⟨b, hrb, hbu, _, hbl⟩ := hr.operand hrt
      have hn : checkType (.bin .comma lhs rhs ()) = some (typeBin .comma a b) := by
        simp only [checkType, hla, hrb]
        rfl
      have hop : operandType nullConst (.bin .comma lhs rhs ()) = none := by
        simp only [operandType, hlt, hrt]
        rfl
      refine typedAt_iff_of_some ht hn rfl (iff_of_true ⟨?_, ?_, ?_⟩ ?_)
      · exact commaType_unqual hbu hq (fun hf => hbl (isLvalue_of_isFunc hrt hf))
      · exact scaleTyped_of_kind (by decide)
      · intro c hc
        rw [hop] at hc
        cases hc
      · intro l r _ _
        unfold binExact
        split
        · intro h
          cases h
        · exact ⟨fun h => (by cases h), fun h => (by cases h <;> contradiction),
            fun c h => (by cases h)⟩

theorem typedAt_cond {c then_ els : Node Unit} (hc : TypedAt nullConst c)
    (hl : TypedAt nullConst then_) (hr : TypedAt nullConst els) :
    TypedAt nullConst (.cond c then_ els ()) ↔ ExactAt nullConst (.cond c then_ els ()) := by
  cases ht : c11Type nullConst (.cond c then_ els ()) with
  | none => exact typedAt_iff_of_none ht
  | some t =>
      obtain ⟨ct, hct, ht'⟩ := Option.bind_eq_some_iff.mp ht
      obtain ⟨l, hlt, ht'⟩ := Option.bind_eq_some_iff.mp ht'
      obtain ⟨r, hrt, ht'⟩ := Option.bind_eq_some_iff.mp ht'
      simp only [Option.ite_none_right_eq_some, Bool.and_eq_true, Bool.not_eq_true'] at ht'
      obtain ⟨⟨⟨_, hbl⟩, hbr⟩, ht'⟩ := ht'
      obtain ⟨nc, hnc, _⟩ := hc.operand hct
      obtain ⟨a, hla, hau, hav, _⟩ := hl.operand hlt
      obtain ⟨b, hrb, hbu, hbv, _⟩ := hr.operand hrt
      have hn : checkType (.cond c then_ els ()) = some (.cond nc a b (condType a b)) := by
        simp only [checkType, hnc, hla, hrb]
        rfl
      refine typedAt_iff_of_some ht hn rfl ?_
      have hop : operandType nullConst (.cond c then_ els ()) =
          condOperandTy (nullConst then_) (nullConst els) (valueType a.ty) (valueType b.ty) := by
        simp only [operandType, hlt, hrt, hav, hbv]
        rfl
      rw [hop]
      have hbad : ∀ {x y : Ty}, x.unqual = y.unqual → isBadArray y = false →
          isBadArray x = false := by
        intro x y hxy hy
        rwa [← isBadArray_unqual, hxy, isBadArray_unqual]
      rw [← hav, ← hbv] at ht'
      have hiff := condRight_iff (hbad hau hbl) (hbad hbu hbr) ht'
      have hf : isFunc a.ty = isFunc l := by rw [← isFunc_unqual, hau, isFunc_unqual]
      rw [hav, hbv, hf] at hiff
      constructor
      · intro h l' r' hl' hr'
        rw [hlt] at hl'
        rw [hrt] at hr'
        cases hl'
        cases hr'
        exact hiff.mp ⟨h.1, h.2.2⟩
      · intro h
        have hx := hiff.mpr (h l r hlt hrt)
        exact ⟨hx.1, trivial, hx.2⟩

/-- `neg` and `~` of a number. -/
theorem negType_unqual {t v : Ty} (hv : valueType t = v) (hn : isNumber v = true) :
    (if isFlonum t then t else integerPromotion t).unqual =
      (if isFlonum v then v else promote v).unqual := by
  subst hv
  rw [isFlonum_valueType]
  rw [isNumber_valueType] at hn
  split
  · rw [valueType_of_isNumber hn, Ty.unqual_unqual]
  · next hf =>
    refine integerPromotion_promote ?_
    rw [isInteger_valueType]
    rwa [isNumber, Bool.or_eq_true, or_iff_left hf] at hn

/-- The unary operators that are always typed right. -/
theorem typedAt_un_of {kind : UnKind} {lhs : Node Unit} {t : Ty} {a : Node Ty}
    (ht : c11Type nullConst (.un kind lhs ()) = some t) (ha : checkType lhs = some a) (ty : Ty)
    (hd : kind ≠ .deref) (hs : kind ≠ .sizeof) (hty : typeUn kind a = some (.un kind a ty))
    (hu : ty.unqual = t.unqual) :
    TypedAt nullConst (.un kind lhs ()) ↔ ExactAt nullConst (.un kind lhs ()) := by
  have hn : checkType (.un kind lhs ()) = some (.un kind a ty) := by
    rw [← hty]
    simp only [checkType, ha]
    rfl
  refine typedAt_iff_of_some ht hn ?_ (iff_of_true ⟨hu, trivial, fun c _ => trivial⟩ ?_)
  · cases kind <;> first
      | rfl
      | exact absurd rfl hd
  · cases kind <;> trivial

/-- `*`: right unless the operand designates a function. -/
theorem typedAt_deref {lhs : Node Unit} (hl : TypedAt nullConst lhs) :
    TypedAt nullConst (.un .deref lhs ()) ↔ ExactAt nullConst (.un .deref lhs ()) := by
  cases ht : c11Type nullConst (.un .deref lhs ()) with
  | none => exact typedAt_iff_of_none ht
  | some t =>
      obtain ⟨l, hlt, ht'⟩ := Option.bind_eq_some_iff.mp ht
      obtain ⟨a, hla, hau, hav, _⟩ := hl.operand hlt
      have hn : checkType (.un .deref lhs ()) = a.ty.base?.map (.un .deref a) := by
        simp only [checkType, hla]
        rfl
      have hf : isFunc a.ty = isFunc l := by rw [← isFunc_unqual, hau, isFunc_unqual]
      simp only at ht'
      rw [← hav] at ht'
      constructor
      · intro h _ l' hl'
        rw [hlt] at hl'
        cases hl'
        obtain ⟨n, hn', _⟩ := h t ht
        rw [hn] at hn'
        rw [← hf]
        cases hat : a.ty <;> rw [hat] at hn' <;> first
          | rfl
          | cases hn'
      · intro h
        have hfl := h (by rw [ht]; rfl) l hlt
        rw [← hf] at hfl
        have hbase : a.ty.base? = some t := by
          rw [← ht']
          cases hat : a.ty <;> rw [hat] at hfl ht' <;> first
            | rfl
            | cases hfl
        intro t' ht''
        rw [ht] at ht''
        cases ht''
        rw [hn, hbase]
        exact ⟨.un .deref a t, rfl, rfl, fun _ => rfl, trivial, fun c _ => trivial⟩

/-- `sizeof` is `int`, never `size_t`. -/
theorem typedAt_sizeof {lhs : Node Unit} (hl : TypedAt nullConst lhs) :
    TypedAt nullConst (.un .sizeof lhs ()) ↔ ExactAt nullConst (.un .sizeof lhs ()) := by
  cases ht : c11Type nullConst (.un .sizeof lhs ()) with
  | none => exact typedAt_iff_of_none ht
  | some t =>
      obtain ⟨l, hlt, ht'⟩ := Option.bind_eq_some_iff.mp ht
      cases ht'
      obtain ⟨a, hla, _⟩ := hl.operand hlt
      have hn : checkType (.un .sizeof lhs ()) = some (.un .sizeof a tyInt) := by
        simp only [checkType, hla]
        rfl
      refine typedAt_iff_of_some ht hn rfl (iff_of_false ?_ id)
      rintro ⟨h, _⟩
      exact absurd h (show ¬ tyInt.unqual = tyUlong.unqual by decide)

theorem typedAt_un {kind : UnKind} {lhs : Node Unit} (hl : TypedAt nullConst lhs) :
    TypedAt nullConst (.un kind lhs ()) ↔ ExactAt nullConst (.un kind lhs ()) := by
  by_cases hd : kind = .deref
  · subst hd
    exact typedAt_deref hl
  by_cases hs : kind = .sizeof
  · subst hs
    exact typedAt_sizeof hl
  cases ht : c11Type nullConst (.un kind lhs ()) with
  | none => exact typedAt_iff_of_none ht
  | some t =>
      obtain ⟨l, hlt, ht'⟩ := Option.bind_eq_some_iff.mp ht
      obtain ⟨a, hla, hau, hav, hal⟩ := hl.operand hlt
      cases kind with
      | deref => exact absurd rfl hd
      | sizeof => exact absurd rfl hs
      | neg =>
          simp only [Option.ite_none_right_eq_some, Option.some.injEq] at ht'
          obtain ⟨hnum, rfl⟩ := ht'
          exact typedAt_un_of ht hla _ hd hs rfl (negType_unqual hav hnum)
      | not =>
          simp only [Option.ite_none_right_eq_some, Option.some.injEq] at ht'
          obtain ⟨_, rfl⟩ := ht'
          exact typedAt_un_of ht hla _ hd hs rfl rfl
      | bitnot =>
          simp only [Option.ite_none_right_eq_some, Option.some.injEq] at ht'
          obtain ⟨hint, rfl⟩ := ht'
          rw [← hav] at hint
          refine typedAt_un_of ht hla _ hd hs rfl ?_
          rw [← hav]
          exact integerPromotion_promote hint
      | addr =>
          simp only [Option.ite_none_right_eq_some, Option.some.injEq] at ht'
          obtain ⟨hlv, rfl⟩ := ht'
          exact typedAt_un_of ht hla _ hd hs rfl (by rw [hal hlv])
      | postInc | postDec =>
          simp only [Option.ite_none_right_eq_some, Option.some.injEq] at ht'
          obtain ⟨_, rfl⟩ := ht'
          exact typedAt_un_of ht hla _ hd hs rfl (by rw [hau, Ty.unqual_unqual])

/-- A member keeps the qualifiers of its declaration and no others. -/
theorem typedAt_member {lhs : Node Unit} {m : Member} (hl : TypedAt nullConst lhs) :
    TypedAt nullConst (.member lhs m ()) ↔ ExactAt nullConst (.member lhs m ()) := by
  cases ht : c11Type nullConst (.member lhs m ()) with
  | none => exact typedAt_iff_of_none ht
  | some t =>
      obtain ⟨l, hlt, ht'⟩ := Option.bind_eq_some_iff.mp ht
      simp only [Option.ite_none_right_eq_some, Option.some.injEq] at ht'
      obtain ⟨hbit, rfl⟩ := ht'
      obtain ⟨a, hla, _⟩ := hl.operand hlt
      have hn : checkType (.member lhs m ()) = some (.member a m m.ty) := by
        have hmt : memberType m = m.ty := by
          rw [memberType, hbit, if_neg (by decide)]
        simp only [checkType, hla, ← hmt]
        rfl
      constructor
      · intro h _ l' hl'
        rw [hlt] at hl'
        cases hl'
        obtain ⟨n, hn', _, hty, _⟩ := h _ ht
        rw [hn] at hn'
        cases hn'
        have hq := congrArg Ty.qual (hty rfl)
        rw [Ty.qual_withQual] at hq
        exact hq.symm
      · intro h t' ht'
        rw [ht] at ht'
        cases ht'
        have hq : m.ty.qual ||| l.qual = m.ty.qual := h (by rw [ht]; rfl) l hlt
        refine ⟨_, hn, ?_, fun _ => ?_, trivial, fun c _ => trivial⟩
        · rw [Ty.unqual_withQual]
          rfl
        · rw [hq, Ty.withQual_qual]
          rfl

theorem typedAt_cast {lhs : Node Unit} {ty : Ty} (hl : TypedAt nullConst lhs) :
    TypedAt nullConst (.cast lhs ty) ↔ ExactAt nullConst (.cast lhs ty) := by
  cases ht : c11Type nullConst (.cast lhs ty) with
  | none => exact typedAt_iff_of_none ht
  | some t =>
      obtain ⟨l, hlt, ht'⟩ := Option.bind_eq_some_iff.mp ht
      simp only [Option.ite_none_right_eq_some, Option.some.injEq] at ht'
      obtain ⟨_, rfl⟩ := ht'
      obtain ⟨a, hla, _⟩ := hl.operand hlt
      have hn : checkType (.cast lhs ty) = some (.cast a ty) := by
        simp only [checkType, hla]
        rfl
      refine typedAt_iff_of_some ht hn rfl (iff_of_true ⟨?_, trivial, fun c _ => trivial⟩ trivial)
      rw [Ty.unqual_unqual]
      rfl

theorem typedAt_funcall {funcname : String} {args : Node Unit} {ty : Ty}
    (hl : TypedAt nullConst args) :
    TypedAt nullConst (.funcall funcname args ty) ↔
      ExactAt nullConst (.funcall funcname args ty) := by
  cases ht : c11Type nullConst (.funcall funcname args ty) with
  | none => exact typedAt_iff_of_none ht
  | some t =>
      obtain ⟨l, hlt, ht'⟩ := Option.bind_eq_some_iff.mp ht
      simp only [Option.ite_none_left_eq_some, Option.some.injEq] at ht'
      obtain ⟨_, rfl⟩ := ht'
      obtain ⟨a, hla, _⟩ := hl.operand hlt
      have hn : checkType (.funcall funcname args ty) = some (.funcall funcname a ty) := by
        simp only [checkType, hla]
        rfl
      exact typedAt_iff_of_some ht hn rfl (iff_of_true ⟨rfl, trivial, fun c _ => trivial⟩ trivial)

theorem typedAt_link {node next : Node Unit} (hl : TypedAt nullConst node)
    (hr : TypedAt nullConst next) :
    TypedAt nullConst (.link node next) ↔ ExactAt nullConst (.link node next) := by
  cases ht : c11Type nullConst (.link node next) with
  | none => exact typedAt_iff_of_none ht
  | some t =>
      obtain ⟨l, hlt, ht'⟩ := Option.bind_eq_some_iff.mp ht
      obtain ⟨r, hrt, ht'⟩ := Option.bind_eq_some_iff.mp ht'
      cases ht'
      obtain ⟨a, hla, _⟩ := hl.operand hlt
      obtain ⟨b, hrb, _⟩ := hr.operand hrt
      have hn : checkType (.link node next) = some (.link a b) := by
        simp only [checkType, hla, hrb]
        rfl
      exact typedAt_iff_of_some ht hn rfl (iff_of_true ⟨rfl, trivial, fun c _ => trivial⟩ trivial)

/-- A node whose type is settled before the pass. -/
theorem typedAt_leaf {e : Node Unit} {n : Node Ty} (hn : checkType e = some n)
    (hop : operandType nullConst e = none) (hsc : ScaleTyped n) (hex : operandsExact nullConst e)
    (hty : ∀ t, c11Type nullConst e = some t → n.ty = t) :
    TypedAt nullConst e ↔ ExactAt nullConst e := by
  refine iff_of_true ?_ (fun _ => hex)
  intro t ht
  refine ⟨n, hn, by rw [hty t ht], fun _ => hty t ht, hsc, ?_⟩
  intro c hc
  rw [hop] at hc
  cases hc

end Nodes

/-! ## Whole trees -/

/-- `check_type` gives every node of a tree the type of the standard, and the
operands of every operator and the arms of every conditional the common type,
exactly when every node meets the condition on its operand types: no pointer
difference, no `sizeof`, no index but an `int`, no `*` or `?:` on a function
designator, no member of a more qualified object, pairs of numbers under
`arithExact`, and arms and compared pointers of one type beforehand. -/
theorem typed_everywhere_iff (nullConst : Node Unit → Bool) (e : Node Unit) :
    e.Everywhere (TypedAt nullConst) ↔ e.Everywhere (ExactAt nullConst) := by
  have hand : ∀ {p q : Prop} {ps qs : Prop}, (ps ↔ qs) → (ps → (p ↔ q)) →
      (p ∧ ps ↔ q ∧ qs) := by
    intro p q ps qs hs h
    constructor
    · rintro ⟨hp, hps⟩
      exact ⟨(h hps).mp hp, hs.mp hps⟩
    · rintro ⟨hq, hqs⟩
      exact ⟨(h (hs.mpr hqs)).mpr hq, hs.mpr hqs⟩
  induction e with
  | null =>
      exact typedAt_leaf rfl rfl trivial trivial (fun t h => Option.some.inj h)
  | num val ty =>
      refine typedAt_leaf rfl rfl trivial trivial (fun t h => ?_)
      exact Option.some.inj (Option.ite_none_right_eq_some.mp h).2
  | fnum ty =>
      refine typedAt_leaf rfl rfl trivial trivial (fun t h => ?_)
      exact Option.some.inj (Option.ite_none_right_eq_some.mp h).2
  | lvar var =>
      exact typedAt_leaf rfl rfl trivial trivial (fun t h => Option.some.inj h)
  | str _ => exact typedAt_iff_of_none rfl
  | link node next ihn ihx =>
      exact hand (and_congr ihn ihx) (fun h => typedAt_link h.1.self h.2.self)
  | bin kind lhs rhs u ihl ihr =>
      refine hand (and_congr ihl ihr) (fun h => ?_)
      by_cases ha : kind = .assign
      · subst ha
        exact typedAt_assign h.1.self h.2.self
      by_cases hc : kind = .comma
      · subst hc
        exact typedAt_comma h.1.self h.2.self
      exact typedAt_bin ha hc h.1.self h.2.self
  | un kind lhs u ihl => exact hand ihl (fun h => typedAt_un h.self)
  | cast lhs ty ihl => exact hand ihl (fun h => typedAt_cast h.self)
  | cond c then_ els u ihc iht ihe =>
      exact hand (and_congr ihc (and_congr iht ihe))
        (fun h => typedAt_cond h.1.self h.2.1.self h.2.2.self)
  | member lhs m u ihl => exact hand ihl (fun h => typedAt_member h.self)
  | funcall f args ty iha => exact hand iha (fun h => typedAt_funcall h.self)
  | ret _ ih | block _ ih | exprStmt _ ih | other _ ih =>
      exact hand ih (fun _ => typedAt_iff_of_none rfl)
  | ifStmt _ _ _ ihc iht ihe =>
      exact hand (and_congr ihc (and_congr iht ihe)) (fun _ => typedAt_iff_of_none rfl)

/-- `1L + 2u`: `long` holds every `unsigned int`, so the sum is a `long`; the
pass makes it `unsigned long long`. -/
theorem long_plus_unsigned_not_typed :
    ¬ ∀ e : Node Unit, e.Everywhere (TypedAt fun _ => false) := by
  intro h
  obtain ⟨n, hn, hty, _⟩ := (h (.bin .add (.num 1 tyLong) (.num 2 tyUint) ())).self tyLong rfl
  cases hn
  exact absurd hty (show ¬ tyUllong.unqual = tyLong.unqual by decide)

end Rcc

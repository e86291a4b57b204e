import Mathlib

/-!
# Compatible types

The types of C as declarations give them, the fields of the `Type` that the parser makes of each, and the two comparisons:
`__builtin_types_compatible_p`, which looks at the outer type and the fields of its base, and `type_equal` of `_Generic`, which goes down.
Beside them is the standard's own notion.

A structure is one object, which every mention of it refers to; but the parameter list of a function has copies. So a mention names an
object, and `Objects` has what it holds when the comparison is made. A qualifier of a structure is written into the object, and is
then one of every mention.
-/

namespace Rcc.TypeCompat

inductive Scalar where
  | void
  | bool
  | char
  | signedChar
  | unsignedChar
  | short (isUnsigned : Bool)
  | int (isUnsigned : Bool)
  | long (isUnsigned : Bool)
  | llong (isUnsigned : Bool)
  | float
  | double
  | ldouble
  | enum (tag : Nat)
deriving DecidableEq, Repr

mutual

/-- A type with its qualifiers, as bits. Those of an array are ones of its elements. -/
inductive CType where
  | scalar (qual : Nat) (s : Scalar)
  | ptr (qual : Nat) (base : CType)
  /-- no length if it is not known -/
  | array (qual : Nat) (len : Option Nat) (base : CType)
  /-- A function without a prototype has no parameters here. Those of a prototype are adjusted. -/
  | func (returnTy : CType) (prototype : Bool) (params : Params) (isVariadic : Bool)
  | struct (qual : Nat) (object : Nat)

inductive Params where
  | nil
  | cons (param : CType) (rest : Params)

end

/-- The structures and unions. -/
structure Objects where
  tag : Nat → Nat
  isUnion : Nat → Bool
  size : Nat → Nat
  qual : Nat → Nat

/-! ## The standard -/

/-- Of one type, or an enumeration and its `int`. -/
def Scalar.Compatible (s s' : Scalar) : Prop :=
  s = s' ∨ (∃ tag, s = .enum tag ∧ s' = .int false) ∨ ∃ tag, s = .int false ∧ s' = .enum tag

/-- The qualifiers of a type; an array has those of its elements. -/
def CType.quals : CType → Nat
  | .scalar qual _ | .ptr qual _ | .struct qual _ => qual
  | .array qual _ base => qual ||| base.quals
  | .func .. => 0

/-- The default argument promotions leave the type as it is. -/
def CType.SelfPromoting : CType → Prop
  | .scalar _ s => s ∉ [.bool, .char, .signedChar, .unsignedChar, .short false, .short true, .float]
  | _ => True

def Params.AllSelfPromoting : Params → Prop
  | .nil => True
  | .cons param rest => param.SelfPromoting ∧ rest.AllSelfPromoting

section

variable (σ : Objects)

mutual

/-- Compatible but for qualifiers of the types themselves, or of what they are arrays of. -/
def CType.Alike : CType → CType → Prop
  | .scalar _ s, .scalar _ s' => s.Compatible s'
  | .ptr _ base, .ptr _ base' => base.quals = base'.quals ∧ base.Alike base'
  | .array _ len base, .array _ len' base' => (len = none ∨ len' = none ∨ len = len') ∧ base.Alike base'
  | .func returnTy prototype params isVariadic, .func returnTy' prototype' params' isVariadic' =>
      returnTy.quals = returnTy'.quals ∧ returnTy.Alike returnTy' ∧
        if prototype ∧ prototype' then isVariadic = isVariadic' ∧ params.Alike params'
        else isVariadic = false ∧ isVariadic' = false ∧ params.AllSelfPromoting ∧ params'.AllSelfPromoting
  | .struct _ object, .struct _ object' => σ.tag object = σ.tag object'
  | _, _ => False

/-- The qualifiers of a parameter do not count. -/
def Params.Alike : Params → Params → Prop
  | .nil, .nil => True
  | .cons param rest, .cons param' rest' => param.Alike param' ∧ rest.Alike rest'
  | _, _ => False

end

/-- Compatible types are qualified the same. -/
def CType.Compatible (t t' : CType) : Prop := t.quals = t'.quals ∧ t.Alike σ t'

/-- Without the qualifiers on top; an array has none. -/
def CType.unqualified : CType → CType
  | .scalar _ s => .scalar 0 s
  | .ptr _ base => .ptr 0 base
  | .struct _ object => .struct 0 object
  | t => t

/-! ## The fields of a `Type` -/

inductive Kind where
  | void | bool | char | short | int | long | llong | float | double | ldouble
  | ptr | array | func | struct | union
deriving DecidableEq, Repr

def Scalar.kind : Scalar → Kind
  | .void => .void
  | .bool => .bool
  | .char | .signedChar | .unsignedChar => .char
  | .short _ => .short
  -- a copy of `ty_int`
  | .int _ | .enum _ => .int
  | .long _ => .long
  | .llong _ => .llong
  | .float => .float
  | .double => .double
  | .ldouble => .ldouble

def Scalar.size : Scalar → Nat
  | .void | .bool | .char | .signedChar | .unsignedChar => 1
  | .short _ => 2
  | .int _ | .enum _ | .float => 4
  | .long _ | .llong _ | .double => 8
  | .ldouble => 16

def Scalar.isUnsigned : Scalar → Bool
  | .bool | .unsignedChar => true
  | .short u | .int u | .long u | .llong u => u
  | _ => false

def Scalar.isSignedChar (s : Scalar) : Bool := s = .signedChar

def CType.kind : CType → Kind
  | .scalar _ s => s.kind
  | .ptr .. => .ptr
  | .array .. => .array
  | .func .. => .func
  | .struct _ object => if σ.isUnion (σ.tag object) then .union else .struct

/-- The length of an array that has none is 0. -/
def CType.size : CType → Nat
  | .scalar _ s => s.size
  | .ptr .. => 8
  | .array _ len base => base.size * len.getD 0
  | .func .. => 1
  | .struct _ object => σ.size object

def CType.isUnsigned : CType → Bool
  | .scalar _ s => s.isUnsigned
  | _ => false

def CType.qual : CType → Nat
  | .scalar qual _ | .ptr qual _ | .array qual _ _ => qual
  | .func .. => 0
  | .struct _ object => σ.qual object

def CType.base? : CType → Option CType
  | .ptr _ base | .array _ _ base => some base
  | _ => none

/-- `array_of` does not set it. -/
def CType.arrayLen : CType → Nat := fun _ => 0

/-! ## `__builtin_types_compatible_p` -/

/-- The comparison of what two pointers point to. -/
def sameFields (t t' : CType) : Bool :=
  t.kind σ = t'.kind σ && t.size σ = t'.size σ && t.isUnsigned = t'.isUnsigned && t.qual σ = t'.qual σ

/-- `t1 == t2`, for structures. -/
def sameObject : CType → CType → Bool
  | .struct _ object, .struct _ object' => object = object'
  | _, _ => false

def typesCompatible (t1 t2 : CType) : Bool :=
  if t1.kind σ = t2.kind σ then
    match t1.kind σ with
    | .void | .bool => true
    | .char | .short | .int | .long | .llong => t1.size σ = t2.size σ && t1.isUnsigned = t2.isUnsigned
    | .float | .double | .ldouble => t1.size σ = t2.size σ
    | .ptr =>
        match t1.base?, t2.base? with
        | some base1, some base2 => sameFields σ base1 base2
        | _, _ => false
    | .array =>
        match t1.base?, t2.base? with
        | some base1, some base2 =>
            base1.kind σ = base2.kind σ && base1.size σ = base2.size σ &&
              (t1.arrayLen = 0 || t2.arrayLen = 0 || t1.arrayLen = t2.arrayLen)
        | _, _ => false
    | .struct | .union => sameObject t1 t2
    | .func => t1.size σ = t2.size σ && t1.isUnsigned = t2.isUnsigned
  else false

/-! ## `_Generic` -/

mutual

/-- `type_equal`. Two types that are one object are equal in any case, which only matters for structures. -/
def typeEqual : CType → CType → Bool
  | .scalar qual s, .scalar qual' s' =>
      s.kind = s'.kind && qual = qual' && s.isUnsigned = s'.isUnsigned && (s.kind ≠ .char || s.isSignedChar = s'.isSignedChar)
  | .ptr qual base, .ptr qual' base' => qual = qual' && typeEqual base base'
  | .array qual len base, .array qual' len' base' =>
      qual = qual' && base.size σ * len.getD 0 = base'.size σ * len'.getD 0 && typeEqual base base'
  | .func returnTy _ params isVariadic, .func returnTy' _ params' isVariadic' =>
      isVariadic = isVariadic' && typeEqual returnTy returnTy' && paramsEqual params params'
  | .struct _ object, .struct _ object' => object = object'
  | _, _ => false

/-- Either side may lack them. -/
def paramsEqual : Params → Params → Bool
  | .nil, _ | _, .nil => true
  | .cons param rest, .cons param' rest' => typeEqual param param' && restEqual rest rest'

/-- The loop. -/
def restEqual : Params → Params → Bool
  | .cons param rest, .cons param' rest' => typeEqual param param' && restEqual rest rest'
  | .nil, .nil => true
  | _, _ => false

end

/-- The type of the controlling expression, after the conversions that the parser makes. -/
def controlTy : CType → CType
  | .array _ _ base => .ptr 0 base
  | .func returnTy prototype params isVariadic => .ptr 0 (.func returnTy prototype params isVariadic)
  | t => t.unqualified

/-- The loop over the associations from a place on, of which `default` has no type. The expressions are known by their places. -/
def genericLoop (ctrlTy : CType) : Nat → List (Option CType) → (selected default_expr : Option Nat) → Option Nat
  | _, [], selected, default_expr => selected.or default_expr
  | place, none :: rest, selected, _ => genericLoop ctrlTy (place + 1) rest selected (some place)
  | place, some ty :: rest, selected, default_expr =>
      genericLoop ctrlTy (place + 1) rest (if typeEqual σ ctrlTy ty then some place else selected) default_expr

/-- The place of the selected expression, or none for an error. -/
def generic (ctrl : CType) (associations : List (Option CType)) : Option Nat :=
  genericLoop σ (controlTy ctrl) 0 associations none none

end

end Rcc.TypeCompat

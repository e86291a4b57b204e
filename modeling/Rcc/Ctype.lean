import Rcc.FixedWidth

/-!
# C types (`rcc.h`, `type.c`)

The part of `Type` the typing and evaluation passes read. The source keeps a
size and a signedness in every `Type`; for the arithmetic types they are those
of the `ty_*` constants, so here a type is built from its kind and the fields
are functions, and a 3-byte `int` cannot be written down. The target is the
LP64 one (`_WIN32` off): `long` is 8 bytes, `long double` 16.

`is_enum`, `is_signed_char`, alignments and the bit-field mode are not read by
anything modelled over these types and are left out.
-/

namespace Rcc

open FixedWidth

/-- The integer kinds `TY_CHAR` to `TY_LLONG`; `TY_BOOL` is apart because it
has one signedness. -/
inductive IntKind where
  | char | short | int | long | llong
deriving DecidableEq, Repr

/-- The floating kinds. -/
inductive FloKind where
  | float | double | ldouble
deriving DecidableEq, Repr

/-- `Type`. The last field of each is `qual`, the `TypeQual` flags. -/
inductive Ty where
  | void (qual : Nat)
  | bool (qual : Nat)
  | integer (kind : IntKind) (isUnsigned : Bool) (qual : Nat)
  | flonum (kind : FloKind) (qual : Nat)
  | ptr (base : Ty) (qual : Nat)
  | array (base : Ty) (len : Nat) (qual : Nat)
  | vla (base : Ty) (qual : Nat)
  | func (returnTy : Ty) (qual : Nat)
  | struct (tag : Nat) (size : Nat) (qual : Nat)
deriving DecidableEq, Repr

def IntKind.size : IntKind → Nat
  | .char => 1
  | .short => 2
  | .int => 4
  | .long => 8
  | .llong => 8

def FloKind.size : FloKind → Nat
  | .float => 4
  | .double => 8
  | .ldouble => 16

theorem IntKind.size_pos (k : IntKind) : 0 < k.size := by
  cases k <;> decide

theorem IntKind.size_le (k : IntKind) : k.size ≤ 8 := by
  cases k <;> decide

namespace Ty

/-- `sizeof`, with the source's values for `void`, functions and VLAs. -/
def size : Ty → Nat
  | .void _ => 1
  | .bool _ => 1
  | .integer k _ _ => k.size
  | .flonum k _ => k.size
  | .ptr _ _ => 8
  | .array base len _ => base.size * len
  | .vla _ _ => 16
  | .func _ _ => 1
  | .struct _ size _ => size

def isUnsigned : Ty → Bool
  | .bool _ => true
  | .integer _ u _ => u
  | _ => false

def qual : Ty → Nat
  | .void q | .bool q | .integer _ _ q | .flonum _ q | .ptr _ q | .array _ _ q
  | .vla _ q | .func _ q | .struct _ _ q => q

/-- The same type with other qualifiers. -/
def withQual (q : Nat) : Ty → Ty
  | .void _ => .void q
  | .bool _ => .bool q
  | .integer k u _ => .integer k u q
  | .flonum k _ => .flonum k q
  | .ptr base _ => .ptr base q
  | .array base len _ => .array base len q
  | .vla base _ => .vla base q
  | .func ret _ => .func ret q
  | .struct tag size _ => .struct tag size q

/-- The unqualified version of a type. -/
def unqual (t : Ty) : Ty := t.withQual 0

/-- The `base` pointer, null outside pointers and arrays. -/
def base? : Ty → Option Ty
  | .ptr base _ | .array base _ _ | .vla base _ => some base
  | _ => none

def isPtr : Ty → Bool
  | .ptr _ _ => true
  | _ => false

/-- `kind == TY_ARRAY || kind == TY_VLA`. -/
def isArrayLike : Ty → Bool
  | .array _ _ _ | .vla _ _ => true
  | _ => false

def isVoid : Ty → Bool
  | .void _ => true
  | _ => false

@[simp] theorem qual_withQual (t : Ty) (q : Nat) : (t.withQual q).qual = q := by
  cases t <;> rfl

@[simp] theorem withQual_withQual (t : Ty) (p q : Nat) :
    (t.withQual p).withQual q = t.withQual q := by
  cases t <;> rfl

@[simp] theorem withQual_qual (t : Ty) : t.withQual t.qual = t := by
  cases t <;> rfl

@[simp] theorem unqual_unqual (t : Ty) : t.unqual.unqual = t.unqual := by
  simp [unqual]

@[simp] theorem unqual_withQual (t : Ty) (q : Nat) : (t.withQual q).unqual = t.unqual := by
  simp [unqual]

@[simp] theorem size_withQual (t : Ty) (q : Nat) : (t.withQual q).size = t.size := by
  cases t <;> rfl

@[simp] theorem isUnsigned_withQual (t : Ty) (q : Nat) :
    (t.withQual q).isUnsigned = t.isUnsigned := by
  cases t <;> rfl

@[simp] theorem size_unqual (t : Ty) : t.unqual.size = t.size := size_withQual t 0

@[simp] theorem isUnsigned_unqual (t : Ty) : t.unqual.isUnsigned = t.isUnsigned :=
  isUnsigned_withQual t 0

end Ty

/-! ## The type constants -/

def tyVoid : Ty := .void 0
def tyBool : Ty := .bool 0
def tyChar : Ty := .integer .char false 0
def tyUchar : Ty := .integer .char true 0
def tyShort : Ty := .integer .short false 0
def tyUshort : Ty := .integer .short true 0
def tyInt : Ty := .integer .int false 0
def tyUint : Ty := .integer .int true 0
def tyLong : Ty := .integer .long false 0
def tyUlong : Ty := .integer .long true 0
def tyLlong : Ty := .integer .llong false 0
def tyUllong : Ty := .integer .llong true 0
def tyFloat : Ty := .flonum .float 0
def tyDouble : Ty := .flonum .double 0
def tyLdouble : Ty := .flonum .ldouble 0

/-! ## Predicates and conversions of `type.c` -/

def isInteger : Ty → Bool
  | .bool _ | .integer _ _ _ => true
  | _ => false

def isFlonum : Ty → Bool
  | .flonum _ _ => true
  | _ => false

def isNumber (t : Ty) : Bool := isInteger t || isFlonum t

def getIntegerType (size : Nat) (isUnsigned : Bool) : Ty :=
  if size ≤ 1 then (if isUnsigned then tyUchar else tyChar)
  else if size ≤ 2 then (if isUnsigned then tyUshort else tyShort)
  else if size ≤ 4 then (if isUnsigned then tyUint else tyInt)
  else if isUnsigned then tyUllong else tyLlong

def pointerTo (base : Ty) : Ty := .ptr base 0

def integerPromotion (t : Ty) : Ty :=
  if !isInteger t then t
  else if t.size < 4 then tyInt
  else t

def isLdouble : Ty → Bool
  | .flonum .ldouble _ => true
  | _ => false

def isDouble : Ty → Bool
  | .flonum .double _ => true
  | _ => false

def getFloatType (lhs rhs : Ty) : Ty :=
  if isLdouble lhs || isLdouble rhs then tyLdouble
  else if isDouble lhs || isDouble rhs then tyDouble
  else tyFloat

def intRank : Ty → Nat
  | .bool _ => 0
  | .integer .char _ _ => 1
  | .integer .short _ _ => 2
  | .integer .int _ _ => 3
  | .integer .long _ _ => 4
  | .integer .llong _ _ => 5
  | _ => 3

def usualArithType (lhs rhs : Ty) : Ty :=
  if isFlonum lhs || isFlonum rhs then getFloatType lhs rhs
  else
    let lhs := integerPromotion lhs
    let rhs := integerPromotion rhs
    let isUnsigned := lhs.isUnsigned || rhs.isUnsigned
    -- Pick the type with higher integer rank
    let higher := if intRank lhs ≥ intRank rhs then lhs else rhs
    if isUnsigned == higher.isUnsigned then higher
    else getIntegerType higher.size isUnsigned

@[simp] theorem isInteger_unqual (t : Ty) : isInteger t.unqual = isInteger t := by
  cases t <;> rfl

@[simp] theorem isFlonum_unqual (t : Ty) : isFlonum t.unqual = isFlonum t := by
  cases t <;> rfl

@[simp] theorem isNumber_unqual (t : Ty) : isNumber t.unqual = isNumber t := by
  simp [isNumber]

@[simp] theorem intRank_unqual (t : Ty) : intRank t.unqual = intRank t := by
  match t with
  | .integer .char _ _ | .integer .short _ _ | .integer .int _ _
  | .integer .long _ _ | .integer .llong _ _ => rfl
  | .void _ | .bool _ | .flonum _ _ | .ptr _ _ | .array _ _ _ | .vla _ _
  | .func _ _ | .struct _ _ _ => rfl

@[simp] theorem getIntegerType_unqual (size : Nat) (u : Bool) :
    (getIntegerType size u).unqual = getIntegerType size u := by
  unfold getIntegerType
  cases u <;> repeat' (first | rfl | split)

theorem integerPromotion_unqual (t : Ty) :
    integerPromotion t.unqual = (integerPromotion t).unqual := by
  unfold integerPromotion
  rw [isInteger_unqual, Ty.size_unqual]
  split
  · rfl
  · split <;> rfl

theorem getFloatType_unqual (l r : Ty) : getFloatType l.unqual r.unqual = getFloatType l r := by
  have hl : ∀ t : Ty, isLdouble t.unqual = isLdouble t := by
    intro t
    match t with
    | .flonum .float _ | .flonum .double _ | .flonum .ldouble _ => rfl
    | .void _ | .bool _ | .integer _ _ _ | .ptr _ _ | .array _ _ _ | .vla _ _
    | .func _ _ | .struct _ _ _ => rfl
  have hd : ∀ t : Ty, isDouble t.unqual = isDouble t := by
    intro t
    match t with
    | .flonum .float _ | .flonum .double _ | .flonum .ldouble _ => rfl
    | .void _ | .bool _ | .integer _ _ _ | .ptr _ _ | .array _ _ _ | .vla _ _
    | .func _ _ | .struct _ _ _ => rfl
  unfold getFloatType
  rw [hl, hl, hd, hd]

/-- Qualifiers of the operands never change the common type, only its own
qualifiers. -/
theorem usualArithType_unqual (l r : Ty) :
    usualArithType l.unqual r.unqual = (usualArithType l r).unqual := by
  unfold usualArithType
  rw [isFlonum_unqual, isFlonum_unqual, getFloatType_unqual, integerPromotion_unqual,
    integerPromotion_unqual]
  split
  · unfold getFloatType
    repeat' (first | rfl | split)
  · simp only [Ty.isUnsigned_unqual, intRank_unqual]
    split
    · simp only [Ty.isUnsigned_unqual, Ty.size_unqual]
      split
      · rfl
      · rw [getIntegerType_unqual]
    · simp only [Ty.isUnsigned_unqual, Ty.size_unqual]
      split
      · rfl
      · rw [getIntegerType_unqual]

/-! ## Types as fixed-width integers

How a value of a scalar type sits in a machine word: an integer type is its
own width and signedness, an address is an unsigned 64-bit number. -/

/-- The width and signedness of an integer kind. -/
def IntKind.intTy (k : IntKind) (isUnsigned : Bool) : IntTy :=
  ⟨8 * k.size, !isUnsigned, by have := k.size_pos; omega⟩

theorem addrTy_pos : 0 < 64 := by decide

/-- Addresses. -/
def addrTy : IntTy := ⟨64, false, addrTy_pos⟩

/-- The fixed-width integer type whose values a scalar of type `t` holds.
`_Bool` is the 8-bit unsigned type it is stored as. -/
def Ty.intTy? : Ty → Option IntTy
  | .bool _ => some (IntKind.char.intTy true)
  | .integer k u _ => some (k.intTy u)
  | .ptr _ _ | .array _ _ _ | .vla _ _ | .func _ _ => some addrTy
  | _ => none

theorem Ty.intTy?_bits_le {t : Ty} {τ : IntTy} (h : t.intTy? = some τ) : τ.bits ≤ 64 := by
  cases t <;> simp only [Ty.intTy?, Option.some.injEq, reduceCtorEq] at h
  case integer k u q =>
    subst h
    have := k.size_le
    simp only [IntKind.intTy]
    omega
  all_goals subst h; decide

end Rcc

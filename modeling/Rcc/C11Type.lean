import Rcc.Node

/-!
# The types C11 assigns

What the standard says about the type of an expression, stated on the parsed
tree without looking at `type.c`: the integer promotions (6.3.1.1), the usual
arithmetic conversions (6.3.1.8), lvalue conversion and decay (6.3.2.1), and
one rule for each operator of 6.5. `c11Type` is `none` where a constraint is
violated, so nothing is promised about such a tree.

Which integer constant expressions are null pointer constants depends on
their value, not on any type, so it stays a parameter: `nullConst` may be any
predicate. String literals and bit-field members are left out: the leaves are
of arithmetic and pointer type, and the type of a bit-field is not a `Ty`.
-/

namespace Rcc.C11

open Rcc

/-- 6.3.1.1p2: `int` holds every value of the types below it. -/
def promote : Ty → Ty
  | .bool _ | .integer .char _ _ | .integer .short _ _ => tyInt
  | t => t.unqual

/-- The integer conversion rank (6.3.1.1p1). -/
def rank : Ty → Nat
  | .bool _ => 0
  | .integer .char _ _ => 1
  | .integer .short _ _ => 2
  | .integer .int _ _ => 3
  | .integer .long _ _ => 4
  | .integer .llong _ _ => 5
  | _ => 0

/-- The unsigned type of the same rank. -/
def toUnsigned : Ty → Ty
  | .integer k _ _ => .integer k true 0
  | t => t

/-- 6.3.1.8p1, the integer half, on promoted types. -/
def commonInt (l r : Ty) : Ty :=
  if l = r then l
  else if l.isUnsigned = r.isUnsigned then (if rank l ≥ rank r then l else r)
  else
    let u := if l.isUnsigned then l else r
    let s := if l.isUnsigned then r else l
    if rank u ≥ rank s then u
    -- the signed type can represent every value of the unsigned one
    else if u.size < s.size then s
    else toUnsigned s

/-- 6.3.1.8p1: the common real type of two arithmetic types. -/
def common (l r : Ty) : Ty :=
  match l, r with
  | .flonum .ldouble _, _ | _, .flonum .ldouble _ => tyLdouble
  | .flonum .double _, _ | _, .flonum .double _ => tyDouble
  | .flonum .float _, _ | _, .flonum .float _ => tyFloat
  | l, r => commonInt (promote l) (promote r)

/-- 6.3.2.1: the type of the value an expression of type `t` stands for. -/
def valueType : Ty → Ty
  | .array base _ _ | .vla base _ => pointerTo base
  | .func ret _ => pointerTo (.func ret 0)
  | t => t.unqual

def isScalar (t : Ty) : Bool := isNumber t || t.isPtr

def isFunc : Ty → Bool
  | .func _ _ => true
  | _ => false

/-- No array has such elements (6.7.6.2p1). -/
def isBadArray : Ty → Bool
  | .array base _ _ | .vla base _ => isFunc base || base.isVoid
  | _ => false

/-- A pointer to an object type, as arithmetic on pointers wants (6.5.6p2). -/
def isObjectPtr : Ty → Bool
  | .ptr base _ => !isFunc base && !base.isVoid
  | _ => false

/-- Pointees whose pointers may meet: the same type up to qualifiers, or two
arrays of the same element one of which has no length. -/
def compatible (a b : Ty) : Bool :=
  a.unqual = b.unqual || match a, b with
    | .array ea la _, .array eb lb _ => ea == eb && (la == 0 || lb == 0)
    | _, _ => false

/-- The composite of two compatible pointees: the one with a length. -/
def composite (a b : Ty) : Ty :=
  match a with
  | .array _ 0 _ => b
  | _ => a

/-- Designates an object or a function (6.3.2.1p1). -/
def isLvalue : Node Unit → Bool
  | .lvar _ | .member _ _ _ => true
  | .un .deref _ _ => true
  | _ => false

section Rules

/-! `nl` and `nr` say whether the left and right operand is a null pointer
constant; `l` and `r` are value types. -/

variable (nl nr : Bool) (l r : Ty)

/-- The type two comparison operands are converted to, `none` when nothing is
converted (6.5.8, 6.5.9). -/
def compareCommon : Option Ty :=
  if isNumber l && isNumber r then some (common l r)
  else match l, r with
    | .ptr bl _, .ptr br _ =>
        if nl then some r
        else if nr then some l
        else if bl.isVoid then some l
        else if br.isVoid then some r
        else none
    | .ptr _ _, _ => some l
    | _, .ptr _ _ => some r
    | _, _ => none

/-- Operands `==` and `!=` accept. -/
def equalityOk : Bool :=
  isNumber l && isNumber r || match l, r with
    | .ptr bl _, .ptr br _ => nl || nr || bl.isVoid || br.isVoid || compatible bl br
    | .ptr _ _, _ => nr && isInteger r
    | _, .ptr _ _ => nl && isInteger l
    | _, _ => false

/-- Operands the relational operators accept. -/
def relationalOk : Bool :=
  isNumber l && isNumber r || match l, r with
    | .ptr bl _, .ptr br _ => compatible bl br
    | _, _ => false

/-- 6.5.16.1p1: a value of type `r` may be assigned to an object of type `l`. -/
def assignable : Bool :=
  isNumber l && isNumber r || match l, r with
    | .ptr bl _, .ptr br _ => nr || bl.isVoid || br.isVoid || compatible bl br
    | .ptr _ _, _ => nr && isInteger r
    | .bool _, .ptr _ _ => true
    | .struct tl _ _, .struct tr _ _ => tl == tr
    | _, _ => false

/-- 6.5.15: the type of a conditional expression. -/
def condTy : Option Ty :=
  if isNumber l && isNumber r then some (common l r)
  else match l, r with
    | .void _, .void _ => some tyVoid
    | .struct tl sl _, .struct tr _ _ => if tl = tr then some (.struct tl sl 0) else none
    | .ptr bl _, .ptr br _ =>
        let q := bl.qual ||| br.qual
        if nl then some r
        else if nr then some l
        else if bl.isVoid || br.isVoid then some (pointerTo (.void q))
        else if compatible bl br then some (pointerTo ((composite bl br).withQual q))
        else none
    | .ptr _ _, _ => if nr && isInteger r then some l else none
    | _, .ptr _ _ => if nl && isInteger l then some r else none
    | _, _ => none

/-- The binary operators but assignment and comma. -/
def binTy (kind : BinKind) : Option Ty :=
  match kind with
  | .add =>
      if isNumber l && isNumber r then some (common l r)
      else if isObjectPtr l && isInteger r then some l
      else if isInteger l && isObjectPtr r then some r
      else none
  | .sub =>
      if isNumber l && isNumber r then some (common l r)
      else if isObjectPtr l && isInteger r then some l
      -- ptrdiff_t
      else if isObjectPtr l && isObjectPtr r && relationalOk l r then some tyLong
      else none
  | .mul | .div => if isNumber l && isNumber r then some (common l r) else none
  | .mod | .bitand | .bitxor | .bitor =>
      if isInteger l && isInteger r then some (common l r) else none
  | .shl | .shr => if isInteger l && isInteger r then some (promote l) else none
  | .logand | .logor => if isScalar l && isScalar r then some tyInt else none
  | .eq | .ne => if equalityOk nl nr l r then some tyInt else none
  | .lt | .le => if relationalOk l r then some tyInt else none
  | .assign | .comma => none

/-- The type the operands of a binary operator are converted to; `none` where
there is no such type (pointer arithmetic, shifts, logical operators). -/
def binOperandTy (kind : BinKind) : Option Ty :=
  if kind.isArith then (if isNumber l && isNumber r then some (common l r) else none)
  else if kind.isCompare then compareCommon nl nr l r
  else none

/-- The type the arms of a conditional are converted to; `none` for arms of
`void` or structure type, which are not. -/
def condOperandTy : Option Ty :=
  if (isNumber l && isNumber r) || l.isPtr || r.isPtr then condTy nl nr l r else none

/-- A cast of a value of type `l` to `r` (6.5.4). -/
def castOk : Bool :=
  r.isVoid || isNumber l && isNumber r ||
    (l.isPtr || isInteger l) && (r.isPtr || isInteger r)

end Rules

variable (nullConst : Node Unit → Bool)

/-- The type of an expression. An lvalue keeps the qualifiers of the object,
everything else is unqualified. -/
def c11Type : Node Unit → Option Ty
  | .null => some tyVoid
  | .link node next => do
      let _ ← c11Type node
      let _ ← c11Type next
      return tyVoid
  | .num _ ty => if isInteger ty then some ty else none
  | .fnum ty => if isFlonum ty then some ty else none
  | .lvar var => some var.ty
  | .bin .assign lhs rhs _ => do
      let l ← c11Type lhs
      let r ← c11Type rhs
      if isLvalue lhs && !l.isArrayLike && !isFunc l &&
          assignable (nullConst rhs) (valueType l) (valueType r) then some l.unqual
      else none
  | .bin .comma lhs rhs _ => do
      let _ ← c11Type lhs
      let r ← c11Type rhs
      -- 6.7.3p9: a qualified function type has no meaning
      if isFunc r && r.qual ≠ 0 then none else some (valueType r)
  | .bin kind lhs rhs _ => do
      let l ← c11Type lhs
      let r ← c11Type rhs
      binTy (nullConst lhs) (nullConst rhs) (valueType l) (valueType r) kind
  | .un kind lhs _ => do
      let l ← c11Type lhs
      let v := valueType l
      match kind with
      | .neg => if isNumber v then some (if isFlonum v then v else promote v) else none
      | .not => if isScalar v then some tyInt else none
      | .bitnot => if isInteger v then some (promote v) else none
      | .addr => if isLvalue lhs then some (pointerTo l) else none
      | .deref => v.base?
      | .postInc | .postDec => if isLvalue lhs && isScalar l then some l.unqual else none
      -- size_t
      | .sizeof => some tyUlong
  | .cast lhs ty => do
      let l ← c11Type lhs
      if castOk (valueType l) ty then some ty.unqual else none
  | .cond cond then_ els _ => do
      let c ← c11Type cond
      let l ← c11Type then_
      let r ← c11Type els
      if isScalar (valueType c) && !isBadArray l && !isBadArray r then
        condTy (nullConst then_) (nullConst els) (valueType l) (valueType r)
      else none
  -- 6.5.2.3p3: the qualifiers of the whole apply to the member
  | .member lhs m _ => do
      let l ← c11Type lhs
      if m.bitWidth = 0 then some (m.ty.withQual (m.ty.qual ||| l.qual)) else none
  -- 6.7.6.3p1: functions return neither functions nor arrays
  | .funcall _ args ty => do
      let _ ← c11Type args
      if isFunc ty || ty.isArrayLike then none else some ty
  | .str _ | .ret _ | .ifStmt _ _ _ | .block _ | .exprStmt _ | .other _ => none

/-- The type the operands of an arithmetic, bitwise or comparison operator,
or the arms of a conditional, are converted to. -/
def operandType : Node Unit → Option Ty
  | .bin kind lhs rhs _ => do
      let l ← c11Type nullConst lhs
      let r ← c11Type nullConst rhs
      binOperandTy (nullConst lhs) (nullConst rhs) (valueType l) (valueType r) kind
  | .cond _ then_ els _ => do
      let l ← c11Type nullConst then_
      let r ← c11Type nullConst els
      condOperandTy (nullConst then_) (nullConst els) (valueType l) (valueType r)
  | _ => none

end Rcc.C11

import Rcc.Node

/-!
# `check_type`

`add_type_internal` of `type.c` on expressions: children first, then one
switch on the kind that sets `ty` and, for the arithmetic kinds, replaces an
operand by an `ND_CAST` of it. Each case of the switch is a function of its
own here, over the already typed operands.

`none` is the `error_tok` of an invalid dereference, the one way the pass
refuses a tree. A cast arrives with its type set, its operand checked by the
parser beforehand (`unary`), so checking the operand first is what happens.
-/

namespace Rcc

/-- `insert_arith_cast`. -/
def insertArithCast (operand : Node Ty) (ty : Ty) : Node Ty := .cast operand ty

/-- `new_scale_mul`: the index times the element size, which comes as an `int`, typed `int`. -/
def newScaleMul (rhs : Node Ty) (size : Nat) : Node Ty :=
  .bin .mul rhs (.num ((BitVec.ofNat 32 size).signExtend 64) tyInt) tyInt

/-- The scaled index with the widening cast around it: `new_scale_mul` gives
an `int` node, so the `size < 8` test always casts. -/
def scaleIndex (index : Node Ty) (size : Nat) : Node Ty :=
  let mul := newScaleMul index size
  if mul.ty.size < 8 then .cast mul (if mul.ty.isUnsigned then tyUlong else tyLong) else mul

/-- `pointer_to(base)` for an array or VLA, the type itself otherwise. -/
def decayArray (t base : Ty) : Ty := if t.isArrayLike then pointerTo base else t

/-- An operand of an arithmetic node of type `ty`: cast when `ty` is floating
and the operand an integer, or when `ty` is a wider integer type. -/
def castOperand (ty : Ty) (operand : Node Ty) : Node Ty :=
  if isFlonum ty then
    if isInteger operand.ty then insertArithCast operand ty else operand
  else if isInteger ty then
    if ty.size > operand.ty.size then insertArithCast operand ty else operand
  else operand

/-- Both operands converted as the kinds with usual arithmetic conversions do
it. -/
def arithNode (kind : BinKind) (lhs rhs : Node Ty) (common ty : Ty) : Node Ty :=
  .bin kind (castOperand common lhs) (castOperand common rhs) ty

/-- `case ND_ADD: case ND_SUB:` -/
def typeAddSub (kind : BinKind) (lhs rhs : Node Ty) : Node Ty :=
  let lty := lhs.ty
  let rty := rhs.ty
  if isNumber lty && isNumber rty then
    let ty := usualArithType lty rty
    arithNode kind lhs rhs ty ty
  else match lty.base?, rty.base? with
    | some lbase, _ =>
        if isInteger rty then
          .bin kind lhs (scaleIndex rhs lbase.size) (decayArray lty lbase)
        -- ptr - ptr: for now just output int
        else .bin kind lhs rhs tyInt
    | none, some rbase =>
        if isInteger lty then
          -- int - ptr is invalid; int + ptr swaps the operands
          if kind = .sub then .bin kind lhs rhs tyInt
          else .bin kind rhs (scaleIndex lhs rbase.size) (decayArray rty rbase)
        else .bin kind lhs rhs tyInt
    | none, none => .bin kind lhs rhs tyInt

/-- `case ND_MUL:` to `case ND_BITOR:` -/
def typeMul (kind : BinKind) (lhs rhs : Node Ty) : Node Ty :=
  let ty := usualArithType lhs.ty rhs.ty
  arithNode kind lhs rhs ty ty

/-- `case ND_EQ:` to `case ND_LE:` -/
def typeCompare (kind : BinKind) (lhs rhs : Node Ty) : Node Ty :=
  if isNumber lhs.ty && isNumber rhs.ty then
    arithNode kind lhs rhs (usualArithType lhs.ty rhs.ty) tyInt
  else .bin kind lhs rhs tyInt

/-- `case ND_ASSIGN:` -/
def typeAssign (lhs rhs : Node Ty) : Node Ty :=
  let lf := isFlonum lhs.ty
  let rf := isFlonum rhs.ty
  let cast := (lf && !rf) || (!lf && rf) || (lf && rf && lhs.ty.size != rhs.ty.size) ||
    (!lf && !rf && isInteger lhs.ty && isInteger rhs.ty && decide (lhs.ty.size > rhs.ty.size))
  .bin .assign lhs (if cast then .cast rhs lhs.ty else rhs) lhs.ty

/-- `case ND_COMMA:`: never an lvalue, so arrays and functions decay. -/
def commaType : Ty → Ty
  | .array base _ _ | .vla base _ => pointerTo base
  | .func ret q => pointerTo (.func ret q)
  | t => t

/-- The two-operand cases. -/
def typeBin (kind : BinKind) (lhs rhs : Node Ty) : Node Ty :=
  match kind with
  | .add | .sub => typeAddSub kind lhs rhs
  | .mul | .div | .mod | .bitand | .bitxor | .bitor => typeMul kind lhs rhs
  | .shl | .shr => .bin kind lhs rhs (integerPromotion lhs.ty)
  | .logand | .logor => .bin kind lhs rhs tyInt
  | .eq | .ne | .lt | .le => typeCompare kind lhs rhs
  | .assign => typeAssign lhs rhs
  | .comma => .bin .comma lhs rhs (commaType rhs.ty)

/-- The one-operand cases. -/
def typeUn (kind : UnKind) (lhs : Node Ty) : Option (Node Ty) :=
  match kind with
  | .neg => some (.un kind lhs (if isFlonum lhs.ty then lhs.ty else integerPromotion lhs.ty))
  | .not => some (.un kind lhs tyInt)
  | .bitnot => some (.un kind lhs (integerPromotion lhs.ty))
  | .addr => some (.un kind lhs (pointerTo lhs.ty))
  | .deref => lhs.ty.base?.map (.un kind lhs)
  | .postInc | .postDec => some (.un kind lhs lhs.ty)
  | .sizeof => some (.un kind lhs tyInt)

/-- An integer literal 0 (`then_null` before it is extended). -/
def isZeroNum {τ : Type} : Node τ → Bool
  | .num val ty => isInteger ty && val == 0
  | _ => false

/-- A null pointer constant as `case ND_COND` sees one: 0, or 0 cast to
unqualified `void *`. -/
def isNullPtrConst {τ : Type} : Node τ → Bool
  | .cast inner (.ptr base _) => base.isVoid && base.qual == 0 && isZeroNum inner
  | n => isZeroNum n

/-- The then-base is an incomplete array and the els-base is complete. -/
def elseCompletes (tbase ebase : Ty) : Bool :=
  match tbase, ebase with
  | .array _ _ _, .array _ _ _ => tbase.size == 0 && decide (ebase.size > 0)
  | _, _ => false

/-- The composite of two pointer arms. -/
def condPointer (tty ety tbase ebase : Ty) : Ty :=
  if tbase.isVoid || ebase.isVoid then
    -- Pick the void* side; if both void*, pick then-side
    let vptr := if !ebase.isVoid then tty else ety
    let vbase := if !ebase.isVoid then tbase else ebase
    let combined := tbase.qual ||| ebase.qual
    if vbase.qual ≠ combined then .ptr (vbase.withQual combined) vptr.qual
    else vptr
  else
    let thenPtr := decayArray tty tbase
    let elsPtr := decayArray ety ebase
    let useEls := elseCompletes tbase ebase
    let chosen := if useEls then elsPtr else thenPtr
    let chosenBase := if useEls then ebase else tbase
    let combined := chosenBase.qual ||| (if useEls then tbase.qual else ebase.qual)
    if chosenBase.qual ≠ combined then .ptr (chosenBase.withQual combined) chosen.qual
    else chosen

/-- `case ND_COND:`: the type of the whole; no arm is ever cast. -/
def condType (then_ els : Node Ty) : Ty :=
  let tty := then_.ty
  let ety := els.ty
  if tty.isVoid || ety.isVoid then tyVoid
  else match tty.base?, ety.base? with
    | tb, some ebase =>
        if isNullPtrConst then_ then decayArray ety ebase
        else match tb with
          | some tbase =>
              if isNullPtrConst els then decayArray tty tbase
              else condPointer tty ety tbase ebase
          | none => tty
    | some tbase, none =>
        if isNullPtrConst els then decayArray tty tbase else tty
    | none, none =>
        if isNumber tty && isNumber ety then usualArithType tty ety else tty

/-- `case ND_MEMBER:`: a narrow bit-field reads as `int` or `unsigned`. -/
def memberType (m : Member) : Ty :=
  if m.bitWidth > 0 then
    if m.ty.size ≥ 8 then m.ty
    else if m.bitWidth < 32 || (m.bitWidth == 32 && !m.ty.isUnsigned) then tyInt
    else if m.bitWidth == 32 then tyUint
    else m.ty
  else m.ty

/-- `check_type`. -/
def checkType : Node Unit → Option (Node Ty)
  | .null => some .null
  | .link node next => do return .link (← checkType node) (← checkType next)
  | .num val ty => some (.num val ty)
  | .fnum ty => some (.fnum ty)
  | .str id => some (.str id)
  | .lvar var => some (.lvar var)
  | .bin kind lhs rhs _ => do
      let lhs ← checkType lhs
      let rhs ← checkType rhs
      return typeBin kind lhs rhs
  | .un kind lhs _ => do
      let lhs ← checkType lhs
      typeUn kind lhs
  | .cast lhs ty => do return .cast (← checkType lhs) ty
  | .cond cond then_ els _ => do
      let cond ← checkType cond
      let then_ ← checkType then_
      let els ← checkType els
      return .cond cond then_ els (condType then_ els)
  | .member lhs m _ => do return .member (← checkType lhs) m (memberType m)
  | .funcall funcname args ty => do return .funcall funcname (← checkType args) ty
  | .ret lhs => do return .ret (← checkType lhs)
  | .ifStmt cond then_ els => do
      return .ifStmt (← checkType cond) (← checkType then_) (← checkType els)
  | .block body => do return .block (← checkType body)
  | .exprStmt lhs => do return .exprStmt (← checkType lhs)
  | .other kids => do return .other (← checkType kids)

end Rcc

import Rcc.Gen
import Rcc.CheckType
import Rcc.CValue

/-!
# Code generation for casts and assignments (`gen`)

The integer branches of `case ND_CAST`, and `case ND_ASSIGN` where the left operand is an
integer and no bit-field, for x86-64. What the rest of `gen` and `gen_addr` do with the
operands is not looked at: they are `other` and `genAddr`, and a cast of a cast or an
assignment to the value of an assignment comes back here.

What is in a register above the width of its type is nobody's business as long as no one
reads it. So whether a register holds a value is a question of what is read later.
`Use` has the ways in which the generated code reads a register that holds an integer.
-/

namespace Rcc.Convert

open FixedWidth

/-! ## What is printed -/

/-- `sign_extend_to` -/
def signExtendTo (r : Reg) (fromSize toSize : Nat) : List Line :=
  if toSize ≤ fromSize then []
  else if toSize = 8 then
    if fromSize = 2 then [.op (.extend true .w .q r)]
    else if fromSize = 1 then [.op (.extend true .b .q r)]
    else [.op (.movslq r)]
  else if toSize = 4 then
    if fromSize = 2 then [.op (.extend true .w .l r)]
    else if fromSize = 1 then [.op (.extend true .b .l r)]
    else [.op (.mov32 r)]
  else []

/-- `zero_extend_to` -/
def zeroExtendTo (r : Reg) (fromSize toSize : Nat) : List Line :=
  if toSize ≤ fromSize then []
  else if toSize = 8 ∨ toSize = 4 then
    if fromSize = 2 then [.op (.extend false .w .l r)]
    else if fromSize = 1 then [.op (.extend false .b .l r)]
    else [.op (.mov32 r)]
  else []

/-- What `case ND_CAST` prints between integers. -/
def castLines (src to_ : Ty) (r : Reg) : List Line :=
  if to_.size = 1 then [.op (.extend (!to_.isUnsigned) .b .l r)]
  else if to_.size = 2 then [.op (.extend (!to_.isUnsigned) .w .l r)]
  else if to_.size = 4 ∧ src.size = 8 then [.op (.mov32 r)]
  else if to_.size = 8 ∧ src.size < 8 then
    if src.isUnsigned then zeroExtendTo r src.size 8 else signExtendTo r src.size 8
  else []

/-- `mov %s, -%d(%%rbp)` -/
def storeLocal (size : Nat) (src : Reg) (off : Nat) : Line :=
  if size = 1 then .op (.storeLow .b src off)
  else if size = 2 then .op (.storeLow .w src off)
  else if size = 4 then .op (.store .l src off)
  else .op (.store .q src off)

/-- What is done to the result of an assignment to a narrow variable. -/
def maskLines (ty : Ty) (r : Reg) : List Line :=
  if ty.isUnsigned ∧ ty.size < 4 then [.op (.aluImm .and .l (BitVec.ofNat 32 (2 ^ (ty.size * 8) - 1)) r)] else []

/-! ## `gen` -/

/-- A local variable that is no array is stored to directly: its offset. -/
def directOffset : Node Ty → Option Nat
  | .lvar var =>
      match var.ty with
      | .array _ _ _ => none
      | _ => if var.isLocal then some var.offset else none
  | _ => none

def isBitField : Node Ty → Bool
  | .member _ m _ => decide (m.bitWidth > 0)
  | _ => false

variable (other genAddr : Node Ty → Gen Reg)

/-- `case ND_CAST`, from what generates the operand. -/
def genCast (operand : Gen Reg) (src to_ : Ty) : Gen Reg := do
  let r ← operand
  Gen.emit (castLines src to_ r)
  pure r

/-- `case ND_ASSIGN`, from what generates the right operand. -/
def genAssign (lhs : Node Ty) (rhs : Gen Reg) : Gen Reg :=
  match directOffset lhs with
  | some off => do
      let r2 ← rhs
      Gen.emit [storeLocal lhs.ty.size r2 off]
      Gen.emit (maskLines lhs.ty r2)
      pure r2
  | none => do
      let r1 ← genAddr lhs
      let r2 ← rhs
      Gen.emit [.op (.put lhs.ty.size r2 r1)]
      freeReg r1
      pure r2

def gen : Node Ty → Gen Reg
  | .cast lhs to_ => if isInteger lhs.ty && isInteger to_ then genCast (gen lhs) lhs.ty to_ else other (.cast lhs to_)
  | .bin .assign lhs rhs ty =>
      if isInteger lhs.ty && isInteger rhs.ty && !isBitField lhs then genAssign genAddr lhs (gen rhs)
      else other (.bin .assign lhs rhs ty)
  | n => other n

/-! ## What is read -/

/-- The ways of reading a register. -/
inductive Use where
  /-- by an operator, at `reg(r, op_size(ty))` -/
  | operand
  /-- by a store, a test or an extension, at `reg(r, ty->size)` -/
  | low
  /-- by a conversion to floating point -/
  | toFloat
deriving DecidableEq

/-- How a value of the type sits in as many bits as it has. -/
def bitsOf : Ty → IntTy
  | .integer k u _ => k.intTy u
  | _ => IntKind.char.intTy true

/-- The bits that are read and their sign. -/
def Use.reads (ty : Ty) : Use → IntTy
  | operand => bitsOf (integerPromotion ty)
  | low => bitsOf ty
  | toFloat =>
      if ty.isUnsigned then
        if ty.size = 8 then bitsOf ty
        -- `cvtsi2sd` has no unsigned form, and takes all of the register
        else if ty.size = 4 then i64
        else bitsOf tyInt
      else if ty.size < 4 then bitsOf tyInt
      else bitsOf ty

/-- The register holds the value of that type, whoever reads it. -/
def Carries (ty : Ty) (v : Int) (w : BitVec 64) : Prop := ∀ use : Use, (use.reads ty).wrap w.toInt = v

def isBool : Ty → Bool
  | .bool _ => true
  | _ => false

/-- Is it `unsigned`? -/
def isUint (ty : Ty) : Bool := isInteger ty && ty.isUnsigned && decide (ty.size = 4)

/-- The conversion of C to an integer type. -/
def converted : Ty → Int → Int
  | .bool _, v => if v = 0 then 0 else 1
  | ty, v => (bitsOf ty).wrap v

theorem convert_int (rnd : FloKind → Rat → Rat) {ty : Ty} (h : isInteger ty = true) (v : Int) :
    convert rnd ty (.int v) = some (.int (converted ty v)) := by
  cases ty with
  | bool q =>
      show some (Val.ofBool (decide ((v : Rat) ≠ 0))) = _
      rw [Val.ofBool, converted]
      by_cases hv : v = 0
      · rw [if_pos hv, hv]
        rfl
      · rw [if_neg hv, decide_eq_true (Int.cast_ne_zero.mpr hv)]
        rfl
  | integer k u q => rfl
  | _ => cases h

/-! ## Conversions -/

/-- A cast, or an assignment whose operands have their types. -/
inductive Conversion where
  | cast (lhs : Node Ty) (to_ : Ty)
  | assign (lhs rhs : Node Ty)

namespace Conversion

/-- As `check_type` leaves it. -/
def node : Conversion → Node Ty
  | cast lhs to_ => .cast lhs to_
  | assign lhs rhs => typeAssign lhs rhs

def operand : Conversion → Node Ty
  | cast lhs _ => lhs
  | assign _ rhs => rhs

def target : Conversion → Ty
  | cast _ to_ => to_
  | assign lhs _ => lhs.ty

/-- Between integer types, and to no bit-field. -/
def Integer (c : Conversion) : Prop :=
  isInteger c.operand.ty = true ∧ isInteger c.target = true ∧
    match c with
    | cast _ _ => True
    | assign lhs _ => isBitField lhs = false

/-- The operands are generated: the register of the address, if there is one, and that of the value. -/
def operands : Conversion → Gen (Option Reg × Reg)
  | cast lhs _ => do
      let r ← gen other genAddr lhs
      pure (none, r)
  | assign lhs rhs =>
      match directOffset lhs with
      | some _ => do
          let r2 ← gen other genAddr rhs
          pure (none, r2)
      | none => do
          let r1 ← genAddr lhs
          let r2 ← gen other genAddr rhs
          pure (some r1, r2)

/-- The conversion goes well for the value `v` of the operand, which is in the register as `w`. -/
def Suits (v : Int) (w : BitVec 64) : Conversion → Prop
  | cast lhs to_ =>
      (isBool to_ = true → v = 0 ∨ v % 256 = 1) ∧ (isUint to_ = true → lhs.ty.size ≤ 4 → w.toNat < 2 ^ 32)
  | assign lhs rhs =>
      if lhs.ty.size < 4 ∧ ¬ rhs.ty.size < lhs.ty.size then
        if (directOffset lhs).isSome ∧ lhs.ty.isUnsigned then
          -- all but the low bits are masked
          isBool lhs.ty = true → v = 0 ∨ v % 256 = 1
        else if isBool lhs.ty then v = 0 ∨ (bitsOf tyInt).wrap v = 1
        else (bitsOf lhs.ty).InRange ((bitsOf tyInt).wrap v)
      else isUint lhs.ty = true → w.toNat < 2 ^ 32

end Conversion

end Rcc.Convert

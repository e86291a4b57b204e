import Rcc.RegAlloc
import Rcc.Node

/-!
# Code generation for integer expressions (`gen`)

`gen` walks a typed tree and prints its code; what it returns is the register
that the value will be in. This is `gen` for x86-64 on constants, on local
variables of integer type and on the operators + - * & ^ | and the comparisons,
with everything the source does to a constant right operand.

A register is taken for every leaf and given back when it has been combined into
the left operand, so the registers in use while a subtree is generated are those
of the left operands on the way to it.
-/

namespace Rcc

/-! ## Operands -/

/-- `op_size` -/
def opSize (ty : Ty) : Nat :=
  if isInteger ty ∧ ty.size < 4 then 4 else if ty.size > 8 then 8 else ty.size

/-- The column of `reg(r, sz)` for the sizes that operators work at. -/
def Width.ofSize : Nat → Option Width
  | 4 => some .l
  | 8 => some .q
  | _ => none

/-- `val == (int32_t)val` -/
def fitsInt32 (val : BitVec 64) : Bool := val == (val.setWidth 32).signExtend 64

/-- A right operand that is printed as an immediate. -/
def immediate : Node Ty → Option (BitVec 32)
  | .num val _ => if fitsInt32 val then some (val.setWidth 32) else none
  | _ => none

/-- `use_unsigned_cmp` -/
def useUnsignedCmp (lhs rhs : Ty) : Bool :=
  let promoteInt (ty : Ty) : Ty := if isInteger ty ∧ ty.size < 4 then tyInt else ty
  let lhs := promoteInt lhs
  let rhs := promoteInt rhs
  let size := if lhs.size > rhs.size then lhs.size else rhs.size
  let size := if size < 4 then 4 else size
  (getIntegerType size (lhs.isUnsigned || rhs.isUnsigned)).isUnsigned

/-! ## What is printed -/

/-- `inst`, for the kinds that are not comparisons. -/
def BinKind.inst : BinKind → Option AluOp
  | .add => some .add
  | .sub => some .sub
  | .mul => some .imul
  | .bitand => some .and
  | .bitxor => some .xor
  | .bitor => some .or
  | _ => none

/-- `set`, for the comparisons. -/
def BinKind.set (isUnsigned : Bool) : BinKind → Option CC
  | .eq => some .e
  | .ne => some .ne
  | .lt => some (if isUnsigned then .b else .l)
  | .le => some (if isUnsigned then .be else .le)
  | _ => none

/-- The kinds of the binary operator branch. -/
def BinKind.isGenOp (kind : BinKind) : Bool := kind.inst.isSome || kind.isCompare

/-- The instruction of the operator between two registers. -/
def opLine (kind : BinKind) (w : Width) (src dst : Reg) : Line :=
  match kind.inst with
  | some inst => .op (.alu inst w src dst)
  | none => .op (.cmp w src dst)

/-- The same with a constant on the right: nothing for an identity, a shift for a
product with a power of two. -/
def immLines (kind : BinKind) (w : Width) (imm : BitVec 32) (dst : Reg) : List Line :=
  if kind = .mul ∧ imm = 1 ∨
      (kind = .add ∨ kind = .sub ∨ kind = .bitor ∨ kind = .bitxor) ∧ imm = 0 then []
  else if kind = .mul ∧ 0 < imm.toInt ∧ imm &&& (imm - 1) = 0 then
    [.op (.shl w (Nat.log2 imm.toNat) dst)]
  else
    match kind.inst with
    | some inst => [.op (.aluImm inst w imm dst)]
    | none => [.op (.cmpImm w imm dst)]

/-- What turns the flags of a comparison into its value. -/
def setLines (kind : BinKind) (isUnsigned : Bool) (dst : Reg) : List Line :=
  match kind.set isUnsigned with
  | some cc => [.op (.setcc cc), .op (.movzblAl dst)]
  | none => []

/-- `sz` of the binary operator branch. -/
def binSize (kind : BinKind) (lhs rhs ty : Ty) : Nat :=
  let sz := if kind.isCompare then opSize lhs else opSize ty
  if sz < opSize rhs then opSize rhs else sz

/-- Does the right operand of a 64-bit operation need its sign extended? -/
def extendsRhs (w : Width) (rhs : Ty) : Bool :=
  w == .q && opSize rhs == 4 && !(isInteger rhs && rhs.isUnsigned)

/-! ## `gen` -/

def gen : Node Ty → Gen Reg
  | .num val ty =>
      match Width.ofSize (opSize ty) with
      | some w => do
          let r ← allocReg
          Gen.emit [.op (if fitsInt32 val then .movImm w (val.setWidth 32) r else .movabs val r)]
          pure r
      | none => Gen.error
  | .lvar var =>
      -- `emit_load`; bytes and 16-bit words are extended, which is not modelled
      match Width.ofSize var.ty.size with
      | some w =>
          if var.isLocal ∧ isInteger var.ty then do
            let r ← allocReg
            Gen.emit [.op (.load w var.offset r)]
            pure r
          else Gen.error
      | none => Gen.error
  | .bin kind lhs rhs ty =>
      match Width.ofSize (binSize kind lhs.ty rhs.ty ty) with
      | some w =>
          if kind.isGenOp ∧ isInteger lhs.ty ∧ isInteger rhs.ty then do
            let rLhs ← gen lhs
            match immediate rhs with
            | some imm =>
                Gen.emit (immLines kind w imm rLhs)
                Gen.emit (setLines kind (useUnsignedCmp lhs.ty rhs.ty) rLhs)
                pure rLhs
            | none =>
                let rRhs ← gen rhs
                Gen.emit (if extendsRhs w rhs.ty then [.op (.movslq rRhs)] else [])
                Gen.emit [opLine kind w rRhs rLhs]
                freeReg rRhs
                Gen.emit (setLines kind (useUnsignedCmp lhs.ty rhs.ty) rLhs)
                pure rLhs
          else Gen.error
      | none => Gen.error
  | _ => Gen.error

end Rcc

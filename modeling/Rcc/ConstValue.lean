import Rcc.CValue

/-!
# The value of a constant expression

What C gives a type-checked expression over integer constants, casts,
operators and the addresses of `offsetof`: the operators of `CValue` at the
types on the nodes. It is the statement the evaluator of the parser is
compared with, and does not look at it.

A type-checked tree has the scaling of pointer arithmetic spelled out as a
multiplication typed `int`. That multiplication is not an operator of the
expression: the index counts elements whatever their size, so below a pointer
it is read exactly (`Mode.scaled`).
-/

namespace Rcc

open FixedWidth

/-- What is asked of a node: its value, its address, or the byte offset it
stands for as the scaled index of a pointer. -/
inductive Mode where
  | value | address | scaled
deriving DecidableEq, Repr

/-- How the right operand is read: an integer next to a pointer is an offset. -/
def rhsMode (kind : BinKind) (lty rty : Ty) : Mode :=
  if (kind = .add ∨ kind = .sub) ∧ lty.base?.isSome ∧ rty.base? = none then .scaled else .value

section Rounding

variable (rnd : FloKind → Rat → Rat)

/-- Binary operators over the values of their operands. -/
def binRule (kind : BinKind) (ty lty rty : Ty) (a b : Option Val) : Option Val :=
  match kind with
  | .logand => do
      let x ← a
      if x.truthy then return .ofBool (← b).truthy else return .ofBool false
  | .logor => do
      let x ← a
      if x.truthy then return .ofBool true else return .ofBool (← b).truthy
  | .comma => b
  | .assign => none
  | .eq | .ne | .lt | .le => do compareVal rnd kind lty rty (← a) (← b)
  | .add | .sub =>
      match lty.base?, rty.base? with
      | some _, none => do offsetVal kind (← a) (← b)
      | some base, some _ => if kind = .sub then do ptrDiff base.size (← a) (← b) else none
      | none, _ => do arithVal rnd kind ty lty rty (← a) (← b)
  | _ => do arithVal rnd kind ty lty rty (← a) (← b)

/-- Unary operators at `ty`. -/
def unRule (kind : UnKind) (ty : Ty) (x : Val) : Option Val :=
  match kind, ty.intTy?, x with
  | .not, _, x => some (.ofBool (!x.truthy))
  | .neg, some τ, .int z => some (.int (τ.wrap (-z)))
  | .neg, none, .flo q => some (.flo (-q))
  | .bitnot, some τ, .int z => some (.int (τ.wrap (-z - 1)))
  | _, _, _ => none

/-- `sizeof` of an operand of type `ty`; a VLA has no constant size. -/
def sizeofRule : Ty → Option Val
  | .vla _ _ => none
  | ty => some (.int ((IntKind.long.intTy true).wrap ty.size))

/-- The value, address or offset a node denotes. -/
def cval : Node Ty → Mode → Option Val
  | .num val ty, .value => convert rnd ty (.int val.toInt)
  | .bin kind lhs rhs ty, .value =>
      binRule rnd kind ty lhs.ty rhs.ty (cval lhs .value)
        (cval rhs (rhsMode kind lhs.ty rhs.ty))
  | .bin .mul lhs (.num size _) _, .scaled =>
      match cval lhs .value with
      | some (.int n) => some (.int (n * size.toInt))
      | _ => none
  | .un .sizeof .null _, .value => none
  | .un .sizeof lhs _, .value => sizeofRule lhs.ty
  | .un .addr lhs _, .value => cval lhs .address
  | .un kind lhs ty, .value => (cval lhs .value).bind (unRule kind ty)
  | .un .deref lhs _, .address => cval lhs .value
  | .member lhs m _, .address =>
      (cval lhs .address).bind fun p => offsetVal .add p (.int m.offset)
  | .cast lhs ty, .value => (cval lhs .value).bind (convert rnd ty)
  | .cast lhs _, .scaled => cval lhs .scaled
  | .cond cond then_ els ty, .value =>
      (cval cond .value).bind fun c =>
        (if c.truthy then cval then_ .value else cval els .value).bind (convert rnd ty)
  | _, _ => none

end Rounding

end Rcc

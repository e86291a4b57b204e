import Rcc.C11Type

/-!
# Values and operators of C

What the standard says an operator computes, over mathematical values: an
integer or an address is an `Int`, a floating value a `Rat`. Every operation
names the type it is performed at and reduces to it (integers wrap there,
which is also what the generated code does on signed overflow); `none` where
the behaviour is undefined or there is no value.

How a floating format rounds is the parameter `rnd`: no theorem depends on it.
-/

namespace Rcc

open FixedWidth

/-- The value of an expression of scalar type. -/
inductive Val where
  | int (z : Int)
  | flo (q : Rat)
deriving DecidableEq, Repr

namespace Val

def toRat : Val → Rat
  | .int z => z
  | .flo q => q

/-- Compares unequal to 0. -/
def truthy (x : Val) : Bool := decide (x.toRat ≠ 0)

/-- The `int` a comparison or logical operator yields. -/
def ofBool (b : Bool) : Val := .int (if b then 1 else 0)

end Val

/-- The integral part. -/
def trunc (q : Rat) : Int := q.num.tdiv q.den

/-! ## Integer operators -/

/-- The result of a kind that only reduces at the end. The bitwise operators
read their operands as two's complement; bits above the width of the type do
not reach it. -/
def exactInt (kind : BinKind) (x y : Int) : Int :=
  match kind with
  | .add => x + y
  | .sub => x - y
  | .mul => x * y
  | .shl => x * 2 ^ y.toNat
  | .bitand => (pattern64 x &&& pattern64 y).toInt
  | .bitxor => (pattern64 x ^^^ pattern64 y).toInt
  | .bitor => (pattern64 x ||| pattern64 y).toInt
  | _ => 0

/-- A binary operator at an integer type. -/
def intBin (τ : IntTy) (kind : BinKind) (x y : Int) : Option Int :=
  match kind with
  | .add | .sub | .mul | .bitand | .bitxor | .bitor => some (τ.wrap (exactInt kind x y))
  | .shl => if 0 ≤ y ∧ y < τ.bits then some (τ.wrap (exactInt .shl x y)) else none
  | .shr => if 0 ≤ y ∧ y < τ.bits then some (τ.wrap x / 2 ^ y.toNat) else none
  | .div =>
      if τ.wrap y ≠ 0 ∧ τ.InRange ((τ.wrap x).tdiv (τ.wrap y)) then
        some ((τ.wrap x).tdiv (τ.wrap y))
      else none
  | .mod =>
      if τ.wrap y ≠ 0 ∧ τ.InRange ((τ.wrap x).tdiv (τ.wrap y)) then
        some ((τ.wrap x).tmod (τ.wrap y))
      else none
  | _ => none

/-- `==`, `!=`, `<` and `<=`. -/
def relHolds (kind : BinKind) (x y : Rat) : Bool :=
  match kind with
  | .eq => decide (x = y)
  | .ne => decide (x ≠ y)
  | .lt => decide (x < y)
  | .le => decide (x ≤ y)
  | _ => false

/-! ## Operators at a type -/

section Rounding

variable (rnd : FloKind → Rat → Rat)

/-- Conversion to a scalar type (6.3.1, 6.3.2.3). -/
def convert : Ty → Val → Option Val
  | .bool _, x => some (.ofBool x.truthy)
  | .integer k u _, .int z => some (.int ((k.intTy u).wrap z))
  | .integer k u _, .flo q =>
      if (k.intTy u).InRange (trunc q) then some (.int (trunc q)) else none
  | .flonum k _, x => some (.flo (rnd k x.toRat))
  | .ptr _ _, .int z => some (.int (addrTy.wrap z))
  | _, _ => none

/-- A binary operator at a floating type. -/
def floBin (k : FloKind) (kind : BinKind) (x y : Rat) : Option Rat :=
  match kind with
  | .add => some (rnd k (x + y))
  | .sub => some (rnd k (x - y))
  | .mul => some (rnd k (x * y))
  | .div => if y = 0 then none else some (rnd k (x / y))
  | _ => none

/-- An arithmetic or shift operator performed at `ty`, on operands of types
`lty` and `rty`. -/
def arithVal (kind : BinKind) (ty lty rty : Ty) (a b : Val) : Option Val :=
  if isInteger lty && isInteger rty then
    match ty.intTy?, a, b with
    | some τ, .int x, .int y => (intBin τ kind x y).map .int
    | _, _, _ => none
  else
    match ty, convert rnd ty a, convert rnd ty b with
    | .flonum k _, some (.flo x), some (.flo y) => (floBin rnd k kind x y).map .flo
    | _, _, _ => none

/-- The type a comparison is made at. -/
def compareTy (lty rty : Ty) : Option Ty :=
  if isNumber lty && isNumber rty then some (C11.common lty.unqual rty.unqual)
  else if lty.isPtr then some lty.unqual
  else if rty.isPtr then some rty.unqual
  else none

def compareVal (kind : BinKind) (lty rty : Ty) (a b : Val) : Option Val := do
  let ty ← compareTy lty rty
  let a' ← convert rnd ty a
  let b' ← convert rnd ty b
  return .ofBool (relHolds kind a'.toRat b'.toRat)

end Rounding

/-- A pointer plus or minus a number of bytes. -/
def offsetVal (kind : BinKind) : Val → Val → Option Val
  | .int p, .int n => some (.int (addrTy.wrap (if kind = .sub then p - n else p + n)))
  | _, _ => none

/-- The difference of two pointers to elements of `size` bytes of one array. -/
def ptrDiff (size : Nat) : Val → Val → Option Val
  | .int p, .int q =>
      if size ≠ 0 ∧ i64.InRange (p - q) ∧ (size : Int) ∣ p - q then
        some (.int ((p - q) / size))
      else none
  | _, _ => none

end Rcc

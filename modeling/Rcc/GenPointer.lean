import Rcc.GenConvert

/-!
# Pointer arithmetic (`check_type`, `gen`)

`check_type` scales an index by a multiplication that it puts into the tree itself, typed
`int` whatever the index is, with a cast to `long` around it; a difference of two pointers it types
`int`, and `gen` divides it. This is the branch of `gen` for binary operators, on
integers and pointers, for x86-64. What generates the operands is not looked at: it is `other`.

`treeValue` reads the same tree without code: every node at its own type.
-/

namespace Rcc.Pointers

open FixedWidth
open Rcc.Convert (bitsOf converted genCast Carries)

/-! ## What is printed -/

/-- The column of `reg(r, sz)`, from four bytes on. -/
def regWidth (sz : Nat) : Width := if sz = 4 then .l else .q

/-- What turns a difference of addresses into one of elements. -/
def diffLines (sz : Nat) (elemSz : BitVec 32) (r : Reg) : List Line :=
  if elemSz.toInt > 1 then
    if elemSz &&& (elemSz - 1) = 0 then [.op (.sar (regWidth sz) (Nat.log2 elemSz.toNat) r)]
    else if sz = 8 ∨ sz = 4 then [.op (.divide (regWidth sz) elemSz r)]
    -- the full register and `%eax` do not go together
    else [.op (.movEax r)]
  else []

/-- The width of an unsigned bit-field of 33 to 63 bits. -/
def fieldWidth : Node Ty → Nat
  | .member _ m _ => if 32 < m.bitWidth ∧ m.bitWidth < 64 ∧ 8 ≤ m.ty.size ∧ m.ty.isUnsigned then m.bitWidth else 0
  | _ => 0

/-- The mask for sums and products with such fields. -/
def fieldLines (kind : BinKind) (lhs rhs : Node Ty) (r : Reg) : List Line :=
  let bw := max (fieldWidth lhs) (fieldWidth rhs)
  if (kind = .mul ∨ kind = .add ∨ kind = .sub) ∧ 0 < bw then [.op (.andMask (BitVec.ofNat 64 (2 ^ bw - 1)) r)] else []

/-! ## `gen` -/

def isScalar (ty : Ty) : Bool := isInteger ty || ty.base?.isSome

/-- The branch of the binary operators, from what generates the operands. -/
def genBinary (kind : BinKind) (lhs rhs : Node Ty) (ty : Ty) (genLhs genRhs : Gen Reg) : Gen Reg :=
  let sz := binSize kind lhs.ty rhs.ty ty
  let w := regWidth sz
  genLhs >>= fun rLhs =>
    match immediate rhs with
    | some imm => do
        Gen.emit (immLines kind w imm rLhs)
        Gen.emit (setLines kind (useUnsignedCmp lhs.ty rhs.ty) rLhs)
        Gen.emit (fieldLines kind lhs rhs rLhs)
        pure rLhs
    | none => do
        let rRhs ← genRhs
        Gen.emit (if extendsRhs w rhs.ty then [.op (.movslq rRhs)] else [])
        Gen.emit [opLine kind w rRhs rLhs]
        Gen.emit (match kind, lhs.ty.base?, rhs.ty.base? with
          | .sub, some base, some _ => diffLines sz (BitVec.ofNat 32 base.size) rLhs
          | _, _, _ => [])
        freeReg rRhs
        Gen.emit (setLines kind (useUnsignedCmp lhs.ty rhs.ty) rLhs)
        Gen.emit (fieldLines kind lhs rhs rLhs)
        pure rLhs

def gen (other : Node Ty → Gen Reg) : Node Ty → Gen Reg
  | .cast lhs to_ => if isInteger lhs.ty && isInteger to_ then genCast (gen other lhs) lhs.ty to_ else other (.cast lhs to_)
  | .bin kind lhs rhs ty =>
      if kind.isGenOp && isScalar lhs.ty && isScalar rhs.ty then genBinary kind lhs rhs ty (gen other lhs) (gen other rhs)
      else other (.bin kind lhs rhs ty)
  -- `gen_addr` of what a pointer points to
  | .un .addr (.un .deref lhs _) _ => gen other lhs
  | n => other n

/-! ## What is in the tree -/

/-- The size by which `gen` divides. -/
def elemSize (base : Ty) : BitVec 32 := BitVec.ofNat 32 base.size

/-- So many bytes, divided by it. -/
def elements (elemSz : BitVec 32) (bytes : Int) : Int :=
  if elemSz.toInt > 1 then if elemSz &&& (elemSz - 1) = 0 then bytes / elemSz.toInt else bytes.tdiv elemSz.toInt else bytes

/-- An operator at the type of its node, or on addresses. -/
def nodeValue (kind : BinKind) (lty rty ty : Ty) (a b : Int) : Option Int :=
  match kind with
  | .mul => some (converted ty (a * b))
  | .add => some (if lty.base?.isSome then addrTy.wrap (a + b) else converted ty (a + b))
  | .sub =>
      match lty.base?, rty.base? with
      | some base, some _ => some (converted ty (elements (elemSize base) (i64.wrap (a - b))))
      | some _, none => some (addrTy.wrap (a - b))
      | none, _ => some (converted ty (a - b))
  | _ => none

/-- The value of a tree whose nodes compute at their own types; other nodes have the values of `leaf`. -/
def treeValue (leaf : Node Ty → Option Int) : Node Ty → Option Int
  | .num val ty => some (converted ty val.toInt)
  | .cast lhs to_ =>
      if isInteger lhs.ty && isInteger to_ then (treeValue leaf lhs).map (converted to_) else leaf (.cast lhs to_)
  | .bin kind lhs rhs ty =>
      match kind with
      | .add | .sub | .mul => do nodeValue kind lhs.ty rhs.ty ty (← treeValue leaf lhs) (← treeValue leaf rhs)
      | _ => leaf (.bin kind lhs rhs ty)
  | .un .addr (.un .deref lhs _) _ => treeValue leaf lhs
  | n => leaf n

/-! ## The expressions -/

/-- An index applied to a pointer. -/
inductive Offset where
  /-- `p + i` -/
  | plus
  /-- `i + p` -/
  | swapped
  /-- `p - i` -/
  | minus
  /-- `&p[i]` -/
  | element
deriving DecidableEq

namespace Offset

/-- As it is parsed. -/
def node (p i : Node Unit) : Offset → Node Unit
  | plus => .bin .add p i ()
  | swapped => .bin .add i p ()
  | minus => .bin .sub p i ()
  | element => .un .addr (.un .deref (.bin .add p i ()) ()) ()

/-- The address, where the elements have so many bytes. -/
def moved (pv iv : Int) (size : Nat) : Offset → Int
  | minus => pv - iv * size
  | plus | swapped | element => pv + iv * size

end Offset

/-- The bytes that are passed over are an `int`; and to count the elements with the size in their type gives the
same low half. (It is their size, where they are no VLAs.) -/
def Fits (base : Ty) (size : Nat) (iv : Int) : Prop :=
  (bitsOf tyInt).InRange (i64.wrap (iv * size)) ∧ (2 ^ 32 : Int) ∣ iv * (size - base.size)

/-- There is an instruction for it, where the right operand has that type: not with an array of five, six or
seven bytes, whose elements have a size that is no power of two. -/
def Divides (base right : Ty) : Prop :=
  opSize right ≤ 4 ∨ opSize right = 8 ∨ (elemSize base).toInt ≤ 1 ∨ elemSize base &&& (elemSize base - 1) = 0

/-- The number of elements is an `int`, and to count them with the size in their type gives the same one. -/
def Counts (base : Ty) (size : Nat) (k : Int) : Prop :=
  (bitsOf tyInt).InRange k ∧ (2 ^ 32 : Int) ∣ elements (elemSize base) (k * size) - k

/-- The elements have so many bytes: the size in their type, but for a VLA, whose size is not known there. -/
def ElementSize (size : Nat) : Ty → Prop
  | .vla _ _ => True
  | base => size = base.size

end Rcc.Pointers

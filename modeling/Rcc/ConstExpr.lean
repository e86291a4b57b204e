import Rcc.Node

/-!
# Constant expressions (`eval_const_expr`)

The evaluator of `parser.c` behind array sizes, case labels, enumerators,
bit-field widths and static initialisers. It knows no types: every value is a
`long long`, a cast passes its operand on, and division, right shift and
comparison are the signed ones. Signed overflow and shift counts of 64 and
more are taken as the host computes them, `LLONG_MIN / -1` stops it.

`eval_const_addr_expr` and `eval_const_expr` call each other on the same node,
so the two are one recursion over the tree with the caller's choice as an
argument, and the source's two functions are its instances.
-/

namespace Rcc

/-- How a call ends: the process is killed, `false`, or `true` and `*val`. -/
inductive Outcome where
  | trap
  | fail
  | done (val : BitVec 64)
deriving DecidableEq, Repr

def Outcome.bind : Outcome → (BitVec 64 → Outcome) → Outcome
  | .trap, _ => .trap
  | .fail, _ => .fail
  | .done v, f => f v

theorem Outcome.bind_eq_done {o : Outcome} {f : BitVec 64 → Outcome} {v : BitVec 64} :
    o.bind f = .done v ↔ ∃ u, o = .done u ∧ f u = .done v := by
  cases o <;> simp [Outcome.bind]

/-- A C truth value. -/
def boolWord (b : Bool) : BitVec 64 := if b then 1 else 0

/-- What the evaluator stores for two operand values. -/
def evalBin (kind : BinKind) (lhs rhs : BitVec 64) : Outcome :=
  match kind with
  | .add => .done (lhs + rhs)
  | .sub => .done (lhs - rhs)
  | .mul => .done (lhs * rhs)
  | .div =>
      if rhs = 0 then .fail
      else if lhs = BitVec.intMin 64 ∧ rhs = -1 then .trap
      else .done (lhs.sdiv rhs)
  | .mod =>
      if rhs = 0 then .fail
      else if lhs = BitVec.intMin 64 ∧ rhs = -1 then .trap
      else .done (lhs.srem rhs)
  | .shl => .done (lhs <<< (rhs.toNat % 64))
  | .shr => .done (lhs.sshiftRight (rhs.toNat % 64))
  | .bitand => .done (lhs &&& rhs)
  | .bitxor => .done (lhs ^^^ rhs)
  | .bitor => .done (lhs ||| rhs)
  | .eq => .done (boolWord (lhs == rhs))
  | .ne => .done (boolWord (lhs != rhs))
  | .lt => .done (boolWord (lhs.slt rhs))
  | .le => .done (boolWord (lhs.sle rhs))
  | .logand => .done (boolWord (lhs != 0 && rhs != 0))
  | .logor => .done (boolWord (lhs != 0 || rhs != 0))
  | .assign | .comma => .fail

/-- `case ND_SIZEOF:` -/
def evalSizeof : Node Ty → Ty → Outcome
  | .null, .vla _ _ => .fail
  | .null, ty => .done (BitVec.ofNat 64 ty.size)
  | lhs, _ =>
      match lhs.ty with
      | .vla _ _ => .fail
      | ty => .done (BitVec.ofNat 64 ty.size)

/-- Both evaluators: `addr` says which of the two is called on the node. -/
def evalConst : Node Ty → Bool → Outcome
  | .num val _, _ => .done val
  | .bin .comma _ rhs _, _ => evalConst rhs false
  | .bin .assign _ _ _, _ => .fail
  | .bin kind lhs rhs _, _ =>
      (evalConst lhs false).bind fun l => (evalConst rhs false).bind fun r => evalBin kind l r
  | .un .neg lhs _, _ => (evalConst lhs false).bind fun l => .done (-l)
  | .un .not lhs _, _ => (evalConst lhs false).bind fun l => .done (boolWord (l == 0))
  | .un .bitnot lhs _, _ => (evalConst lhs false).bind fun l => .done (~~~l)
  | .un .sizeof lhs ty, _ => evalSizeof lhs ty
  -- offsetof: &((struct S*)0)->member
  | .un .addr lhs _, _ => evalConst lhs true
  | .un .deref lhs _, addr => if addr then evalConst lhs false else .fail
  | .member lhs m _, addr =>
      if addr then
        (evalConst lhs true).bind fun base => .done (base + BitVec.ofNat 64 m.offset)
      else .fail
  | .cast lhs _, _ => evalConst lhs false
  | .cond cond then_ els _, _ =>
      (evalConst cond false).bind fun c =>
        if c != 0 then evalConst then_ false else evalConst els false
  | _, _ => .fail

/-- `eval_const_expr`. -/
def evalConstExpr (node : Node Ty) : Outcome := evalConst node false

/-- `eval_const_addr_expr`. -/
def evalConstAddrExpr (node : Node Ty) : Outcome := evalConst node true

/-- `case ND_ADDR:` as the source has it: `&*x = x`, then the address
evaluator, which gives the same. -/
theorem evalConstExpr_addr (lhs : Node Ty) (ty : Ty) :
    evalConstExpr (.un .addr lhs ty) = match lhs with
      | .un .deref x _ => evalConstExpr x
      | _ => evalConstAddrExpr lhs := by
  show evalConst lhs true = _
  split
  · rfl
  · rfl

/-- `default:` of `eval_const_addr_expr`. -/
theorem evalConstAddrExpr_default (node : Node Ty)
    (hm : ∀ lhs m ty, node ≠ .member lhs m ty) (hd : ∀ lhs ty, node ≠ .un .deref lhs ty) :
    evalConstAddrExpr node = evalConstExpr node := by
  unfold evalConstAddrExpr evalConstExpr
  cases node with
  | member lhs m ty => exact absurd rfl (hm lhs m ty)
  | un kind lhs ty =>
      cases kind with
      | deref => exact absurd rfl (hd lhs ty)
      | _ => rfl
  | bin kind lhs rhs ty => cases kind <;> rfl
  | _ => rfl

end Rcc

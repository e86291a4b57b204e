import Rcc.ConstExpr

/-!
# The optimizer (`opt.c`)

`optimize_node` folds bottom-up: an arithmetic node over two numbers becomes a
number, and a call of a defined function with constant arguments is run at
compile time by `eval_ast`, a second interpreter of the tree in which every
value is an `int` and the variables of a call are 256 slots found by frame
offset divided by 8.

The interpreter has no bound on the depth of calls, so the model takes one:
`fuel` calls may be nested, and running out stands for the compiler's own
stack overflow. That, a host division of `INT_MIN` by -1 and a slot past the
array are one outcome, `crash`: nothing comes back.
-/

namespace Rcc

/-- An entry of `Function.locals`. -/
structure Local where
  var : LVar
  cleanupFunc : Option String
deriving DecidableEq, Repr

/-- `Function`, as far as the optimizer reads it. `body` is a list of
statements, null for a declaration. -/
structure Function where
  name : String
  params : List LVar
  locals : List Local
  body : Node Ty

/-- `TLItem`. -/
inductive TLItem where
  | func (fn : Function)
  | asm

structure Program where
  items : List TLItem

/-- The first `TL_FUNC` of that name. -/
def Program.target? (prog : Program) (funcname : String) : Option Function :=
  prog.items.findSome? fun
    | .func fn => if fn.name = funcname then some fn else none
    | .asm => none

/-- `has_cleanup_local`. -/
def hasCleanupLocal (fn : Function) : Bool := fn.locals.any fun l => l.cleanupFunc.isSome

def Node.isNull {τ : Type} : Node τ → Bool
  | .null => true
  | _ => false

/-! ## `eval_ast` -/

/-- `CF_NEXT` and `CF_RETURN`. -/
inductive Flow where
  | next | ret
deriving DecidableEq, Repr

/-- `int env[256]`. -/
abbrev Env := Nat → BitVec 32

/-- `env[i] = val`. -/
def Env.set (env : Env) (i : Nat) (val : BitVec 32) : Env :=
  fun j => if j = i then val else env j

/-- The slot of a variable. -/
def slot (var : LVar) : Nat := var.offset / 8

/-- How an interpreter call ends: not at all, with `*success` false, or with a
value. -/
inductive Ended (α : Type) where
  | crash
  | fail
  | ok (a : α)
deriving DecidableEq, Repr

def Ended.bind {α β : Type} : Ended α → (α → Ended β) → Ended β
  | .crash, _ => .crash
  | .fail, _ => .fail
  | .ok a, f => f a

/-- The kinds `eval_ast` computes. -/
def BinKind.isEvalOp : BinKind → Bool
  | .add | .sub | .mul | .div | .mod | .eq | .ne | .lt | .le => true
  | _ => false

/-- The arithmetic and comparison cases. -/
def evalOp (kind : BinKind) (l r : BitVec 32) : Ended (BitVec 32) :=
  match kind with
  | .add => .ok (l + r)
  | .sub => .ok (l - r)
  | .mul => .ok (l * r)
  | .div =>
      if r = 0 then .fail
      else if l = BitVec.intMin 32 ∧ r = -1 then .crash
      else .ok (l.sdiv r)
  | .mod =>
      if r = 0 then .fail
      else if l = BitVec.intMin 32 ∧ r = -1 then .crash
      else .ok (l.srem r)
  | .eq => .ok (if l = r then 1 else 0)
  | .ne => .ok (if l ≠ r then 1 else 0)
  | .lt => .ok (if l.slt r then 1 else 0)
  | .le => .ok (if l.sle r then 1 else 0)
  | _ => .fail

section Interpreter

-- what a nested call returns
variable (call : String → List (BitVec 32) → Ended (BitVec 32))

mutual

/-- `eval_ast`. A list is run as the bodies of blocks and functions are: until
a return, with the value of the last statement run. -/
def evalAst : Node Ty → Env → Ended (BitVec 32 × Env × Flow)
  | .null, env => .ok (0, env, .next)
  | .link node next, env =>
      (evalAst node env).bind fun (val, env, cf) =>
        if cf = .ret ∨ next.isNull then .ok (val, env, cf) else evalAst next env
  | .num val _, env => .ok (val.setWidth 32, env, .next)
  | .lvar var, env =>
      if slot var < 256 then .ok (env (slot var), env, .next) else .crash
  | .bin .assign (.lvar var) rhs _, env =>
      (evalAst rhs env).bind fun (val, env, _) =>
        if slot var < 256 then .ok (val, env.set (slot var) val, .next) else .crash
  | .bin .assign _ _ _, _ => .fail
  | .bin kind lhs rhs _, env =>
      if kind.isEvalOp then
        (evalAst lhs env).bind fun (l, env, _) => (evalAst rhs env).bind fun (r, env, _) =>
          (evalOp kind l r).bind fun val => .ok (val, env, .next)
      else .fail
  | .block body, env =>
      (evalAst body env).bind fun (val, env, cf) =>
        .ok (if cf = .ret then val else 0, env, cf)
  | .ret lhs, env => (evalAst lhs env).bind fun (val, env, _) => .ok (val, env, .ret)
  | .ifStmt cond then_ els, env =>
      (evalAst cond env).bind fun (c, env, _) =>
        if c ≠ 0 then evalAst then_ env else evalAst els env
  | .exprStmt lhs, env => (evalAst lhs env).bind fun (val, env, _) => .ok (val, env, .next)
  | .funcall funcname args _, env =>
      (evalArgs args 0 env).bind fun (vals, env) =>
        (call funcname vals).bind fun val => .ok (val, env, .next)
  | _, _ => .fail

/-- The argument loop, which gives up at the tenth. -/
def evalArgs : Node Ty → Nat → Env → Ended (List (BitVec 32) × Env)
  | .link arg next, nargs, env =>
      (evalAst arg env).bind fun (val, env, _) =>
        if nargs + 1 ≥ 10 then .fail
        else (evalArgs next (nargs + 1) env).bind fun (vals, env) => .ok (val :: vals, env)
  | _, _, env => .ok ([], env)

end

end Interpreter

/-- The parameters take the arguments in order; extra ones on either side are
dropped. -/
def bindParams : List LVar → List (BitVec 32) → Env → Ended Env
  | param :: params, arg :: args, env =>
      if slot param < 256 then bindParams params args (env.set (slot param) arg) else .crash
  | _, _, env => .ok env

/-- Runs the body of `fn` on `args` in a zeroed environment. -/
def runBody (call : String → List (BitVec 32) → Ended (BitVec 32)) (fn : Function)
    (args : List (BitVec 32)) : Ended (BitVec 32) :=
  (bindParams fn.params args fun _ => 0).bind fun env =>
    (evalAst call fn.body env).bind fun (val, _, _) => .ok val

/-- `case ND_FUNCALL:` of `eval_ast`, after the arguments. -/
def runCall (prog : Program) : Nat → String → List (BitVec 32) → Ended (BitVec 32)
  | 0, _, _ => .crash
  | fuel + 1, funcname, args =>
      match prog.target? funcname with
      | none => .fail
      | some fn =>
          if fn.body.isNull ∨ fn.name = "printf" then .fail
          else runBody (runCall prog fuel) fn args

/-! ## `optimize_node` -/

/-- The kinds folded over two numbers. -/
def BinKind.isFolded : BinKind → Bool
  | .add | .sub | .mul | .div | .mod => true
  | _ => false

/-- `has_addr_arg`. -/
def hasAddrArg : Node Ty → Bool
  | .link (.un .addr _ _) _ => true
  | .link _ next => hasAddrArg next
  | _ => false

/-- The values of constant arguments, none if one is not a number. -/
def constArgs : Node Ty → Option (List (BitVec 64))
  | .link (.num val _) next => (constArgs next).map (val :: ·)
  | .link _ _ => none
  | _ => some []

/-- An arithmetic node with its operands already optimized. -/
def foldBin (kind : BinKind) (lhs rhs : Node Ty) (ty : Ty) : Option (Node Ty) :=
  match lhs, rhs with
  | .num l _, .num r _ =>
      if kind.isFolded then
        match evalBin kind l r with
        | .trap => none
        -- avoid div by zero
        | .fail => some (.bin kind lhs rhs ty)
        | .done val => some (.num val ty)
      else some (.bin kind lhs rhs ty)
  | _, _ => some (.bin kind lhs rhs ty)

section

variable (prog : Program) (fuel : Nat)

/-- A call with its arguments already optimized. Only the first ten values
are kept. -/
def foldCall (funcname : String) (args : Node Ty) (ty : Ty) : Option (Node Ty) :=
  match constArgs args, prog.target? funcname with
  | some vals, some fn =>
      if hasAddrArg args ∨ funcname = "printf" ∨ fn.body.isNull ∨ hasCleanupLocal fn then
        some (.funcall funcname args ty)
      else
        match runBody (runCall prog fuel) fn ((vals.take 10).map (·.setWidth 32)) with
        | .crash => none
        | .fail => some (.funcall funcname args ty)
        -- assume integer
        | .ok val => some (.num (val.signExtend 64) ty)
  | _, _ => some (.funcall funcname args ty)

/-- `optimize_node`. -/
def optimizeNode : Node Ty → Option (Node Ty)
  | .null => some .null
  | .link node next => do return .link (← optimizeNode node) (← optimizeNode next)
  | .num val ty => some (.num val ty)
  | .fnum ty => some (.fnum ty)
  | .str id => some (.str id)
  | .lvar var => some (.lvar var)
  | .bin kind lhs rhs ty => do foldBin kind (← optimizeNode lhs) (← optimizeNode rhs) ty
  | .un kind lhs ty => do return .un kind (← optimizeNode lhs) ty
  | .cast lhs ty => do return .cast (← optimizeNode lhs) ty
  | .cond cond then_ els ty => do
      return .cond (← optimizeNode cond) (← optimizeNode then_) (← optimizeNode els) ty
  | .member lhs m ty => do return .member (← optimizeNode lhs) m ty
  | .funcall funcname args ty => do foldCall prog fuel funcname (← optimizeNode args) ty
  | .ret lhs => do return .ret (← optimizeNode lhs)
  | .ifStmt cond then_ els => do
      return .ifStmt (← optimizeNode cond) (← optimizeNode then_) (← optimizeNode els)
  | .block body => do return .block (← optimizeNode body)
  | .exprStmt lhs => do return .exprStmt (← optimizeNode lhs)
  | .other kids => do return .other (← optimizeNode kids)

end

end Rcc

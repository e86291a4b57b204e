import Rcc.HostArith

/-!
# Functions run at compile time

`optimize` and the interpreter it asks, as computations that make requests: to run a function of the program as it is then, and to
add, divide and so on. For while a tree is rewritten, in place, the interpreter sees what has been rewritten already. Of a list it sees
no more than the part up to a new node, until the next one is linked behind it.

A call has no end when it leads to itself. The interpreter can also be killed: by a call through a variable, which has no name to compare,
by the division of the least `int` by -1, or by a variable past the end of `env`.
-/

namespace Rcc.Ctfe

open FixedWidth Recursion

/-! ## Programs -/

inductive Kind where
  | num (val : BitVec 64)
  | lvar (offset : Nat)
  | bin (kind : BinKind)
  | block
  | ret
  | ifStmt
  | exprStmt
  /-- The name is null when a variable is called, and every declared function is one. -/
  | funcall (funcname : Option String)
  | addr
  | other
deriving DecidableEq, Repr

/-- `Node *`; a list is made of `link`s. -/
inductive Node where
  | null
  | link (node next : Node)
  | node (kind : Kind) (lhs rhs cond then_ els init inc body args : Node)
deriving DecidableEq, Repr

def Node.isNull : Node → Bool
  | .null => true
  | _ => false

structure Function where
  name : String
  /-- the frame offsets of the parameters -/
  params : List Nat
  /-- `cleanup_func` of each local -/
  cleanups : List (Option String)
  body : Node
deriving DecidableEq

/-- `TLItem` -/
inductive Item where
  | func (fn : Function)
  | asm
deriving DecidableEq

structure Program where
  items : List Item

/-- A function of the program. -/
abbrev Program.Defined (prog : Program) := { fn : Function // Item.func fn ∈ prog.items }

/-- The first function with the name. -/
def Program.target? (prog : Program) (funcname : String) : Option prog.Defined :=
  prog.items.attach.findSome? fun item =>
    match item with
    | ⟨.func fn, h⟩ => if fn.name = funcname then some ⟨fn, h⟩ else none
    | ⟨.asm, _⟩ => none

/-- A function and at most ten arguments. -/
structure Call (prog : Program) where
  fn : prog.Defined
  args : { args : List Int // args.length ≤ 10 }

/-- What the interpreter asks for. -/
inductive Request (prog : Program) where
  | call (call : Call prog)
  | op (τ : IntTy) (o : Operation)

/-! ## `eval_ast` -/

abbrev Env := Nat → Int

/-- `env[i] = val` -/
def setSlot {C : Type} (env : Env) (offset : Nat) (val : Int) : Eval C Env :=
  if offset / 8 < 256 then .ok fun i => if i = offset / 8 then val else env i else .crash

/-- The arithmetic and comparison cases. -/
def evalOp {prog : Program} (kind : BinKind) (l r : Int) : Eval (Request prog) Int :=
  match kind with
  | .add => .ask (.op i32 (.add l r))
  | .sub => .ask (.op i32 (.sub l r))
  | .mul => .ask (.op i32 (.mul l r))
  | .div => if hr : r = 0 then .fail else .ask (.op i32 (.div l r hr))
  | .mod => if hr : r = 0 then .fail else .ask (.op i32 (.mod l r hr))
  | .eq => .ok (truth (l = r))
  | .ne => .ok (truth (l ≠ r))
  | .lt => .ok (truth (l < r))
  | .le => .ok (truth (l ≤ r))
  | _ => .fail

section Interpreter

variable (prog : Program)

mutual

/-- `eval_ast`. A list is run as the bodies of blocks and functions are: until a return, with the value of the last
statement run. -/
def evalAst : Node → Env → Eval (Request prog) (Int × Env × Flow)
  | .null, env => .ok (0, env, .next)
  | .link node next, env =>
      (evalAst node env).andThen fun (val, env, cf) =>
        if cf = .ret ∨ next.isNull then .ok (val, env, cf) else evalAst next env
  | .node kind lhs rhs cond then_ els _ _ body args, env =>
      match kind with
      | .num val => .ok ((val.setWidth 32).toInt, env, .next)
      | .lvar offset => if offset / 8 < 256 then .ok (env (offset / 8), env, .next) else .crash
      | .bin .assign =>
          match lhs with
          | .node (.lvar offset) .. =>
              (evalAst rhs env).bind fun
                | .ok (val, env, _) => (setSlot env offset val).andThen fun env => .ok (val, env, .next)
                -- the slot is set to 0 then
                | .fail => (setSlot env offset 0).andThen fun _ => .fail
                | .crash => Eval.crash
          | _ => .fail
      | .bin kind =>
          if kind.isEvalOp then
            (evalAst lhs env).andThen fun (l, env, _) => (evalAst rhs env).andThen fun (r, env, _) =>
              (evalOp kind l r).andThen fun val => .ok (val, env, .next)
          else .fail
      | .block =>
          (evalAst body env).andThen fun (val, env, cf) => .ok (if cf = .ret then val else 0, env, cf)
      | .ret => (evalAst lhs env).andThen fun (val, env, _) => .ok (val, env, .ret)
      | .ifStmt =>
          (evalAst cond env).andThen fun (c, env, _) => if c ≠ 0 then evalAst then_ env else evalAst els env
      | .exprStmt => (evalAst lhs env).andThen fun (val, env, _) => .ok (val, env, .next)
      | .funcall funcname =>
          (evalArgs args 9 env).andThen fun (vals, env) =>
            match funcname with
            -- `strcmp(item->fn->name, NULL)`
            | none => .crash
            | some funcname =>
                match prog.target? funcname with
                | none => .fail
                | some fn =>
                    if fn.1.body.isNull ∨ fn.1.name = "printf" then .fail
                    else (Eval.ask (.call ⟨fn, vals.1, Nat.le_succ_of_le vals.2⟩)).andThen fun val => .ok (val, env, .next)
      | .addr | .other => .fail

/-- The argument loop, with room for so many; it gives up at the one after. -/
def evalArgs : Node → (room : Nat) → Env → Eval (Request prog) ({ vals : List Int // vals.length ≤ room } × Env)
  | .link arg next, room, env =>
      (evalAst arg env).andThen fun (val, env, _) =>
        match room with
        | 0 => .fail
        | room + 1 =>
            (evalArgs next room env).andThen fun (vals, env) => .ok (⟨val :: vals.1, Nat.succ_le_succ vals.2⟩, env)
  | _, _, env => .ok (⟨[], Nat.zero_le _⟩, env)

end

/-- The parameters take the arguments in order; extra ones on either side are dropped. -/
def bindParams {C : Type} : List Nat → List Int → Env → Eval C Env
  | param :: params, arg :: args, env => (setSlot env param arg).andThen fun env => bindParams params args env
  | _, _, env => .ok env

/-- The body of a function with the arguments in a new environment. -/
def callBody (c : Call prog) : Eval (Request prog) Int :=
  (bindParams c.fn.1.params c.args.1 fun _ => 0).andThen fun env =>
    (evalAst prog c.fn.1.body env).andThen fun (val, _, _) => .ok val

end Interpreter

/-! ## `optimize_node` -/

/-- A request, and the program as it is then. -/
structure Run where
  prog : Program
  request : Request prog

/-- What a run does, when operations end so. What it asks for itself is of the same program. -/
def runWith (arithmetic : IntTy → Operation → Ended Int) (run : Run) : Eval Run Int :=
  match run.request with
  | .call call => (callBody run.prog call).on fun request => ⟨run.prog, request⟩
  | .op τ o => .done (arithmetic τ o)

/-- As the compiler does it. -/
abbrev runBody : Run → Eval Run Int := runWith fun τ o => o.machine τ

def hasCleanupLocal (fn : Function) : Bool := fn.cleanups.any Option.isSome

/-- `has_addr_arg` -/
def hasAddrArg : Node → Bool
  | .link (.node .addr ..) _ => true
  | .link _ next => hasAddrArg next
  | _ => false

/-- The values of constant arguments, none if one is not a number. -/
def constArgs : Node → Option (List (BitVec 64))
  | .link (.node (.num val) ..) next => (constArgs next).map (val :: ·)
  | .link _ _ => none
  | _ => some []

/-- A new `ND_NUM` -/
def newNum (val : BitVec 64) : Node := .node (.num val) .null .null .null .null .null .null .null .null .null

/-- A node that is left as it is, or a new one in its place. -/
inductive Result where
  | same (node : Node)
  | new (node : Node)

def Result.node : Result → Node
  | same node | new node => node

/-- The operation of a kind that is folded, unless the divisor is 0. -/
def foldOperation (kind : BinKind) (l r : Int) : Option Operation :=
  match kind with
  | .add => some (.add l r)
  | .sub => some (.sub l r)
  | .mul => some (.mul l r)
  | .div => if hr : r = 0 then none else some (.div l r hr)
  | .mod => if hr : r = 0 then none else some (.mod l r hr)
  | _ => none

/-- A number in place of the node, if there is one. -/
def foldTo (node : Node) : Ended Int → Eval Run Result
  | .crash => Eval.crash
  | .fail => Eval.ok (.same node)
  -- assume integer
  | .ok val => Eval.ok (.new (newNum (BitVec.ofInt 64 val)))

/-- An arithmetic node with its operands already optimized. -/
def foldBin (prog : Program) (kind : BinKind) (node lhs rhs : Node) : Eval Run Result :=
  match lhs, rhs with
  | .node (.num l) .., .node (.num r) .. =>
      match foldOperation kind l.toInt r.toInt with
      | some o => .call ⟨prog, .op i64 o⟩ (foldTo node)
      | none => .ok (.same node)
  | _, _ => .ok (.same node)

/-- At most ten values, as `int`s. -/
def keptArgs (vals : List (BitVec 64)) : { args : List Int // args.length ≤ 10 } :=
  ⟨(vals.take 10).map fun val => (val.setWidth 32).toInt, by
    rw [List.length_map]
    exact List.length_take_le 10 vals⟩

/-- A call with its arguments already optimized, in such a program. Only the first ten values are kept. -/
def foldCall (prog : Program) (funcname : String) (node args : Node) : Eval Run Result :=
  match constArgs args, prog.target? funcname with
  | some vals, some fn =>
      if hasAddrArg args ∨ funcname = "printf" ∨ fn.1.body.isNull ∨ hasCleanupLocal fn.1 then .ok (.same node)
      else .call ⟨prog, .call ⟨fn, keptArgs vals⟩⟩ (foldTo node)
  | _, _ => .ok (.same node)

mutual

/-- `optimize_node`. `ctx` is the program with the node in its place. -/
def optimizeNode (ctx : Node → Program) : Node → Eval Run Result
  | .null => .ok (.same .null)
  | .link node next => .ok (.same (.link node next))
  | .node kind lhs rhs cond then_ els init inc body args =>
      (optimizeNode (fun n => ctx (.node kind n rhs cond then_ els init inc body args)) lhs).andThen fun lhs' =>
      let lhs := lhs'.node
      (optimizeNode (fun n => ctx (.node kind lhs n cond then_ els init inc body args)) rhs).andThen fun rhs' =>
      let rhs := rhs'.node
      (optimizeNode (fun n => ctx (.node kind lhs rhs n then_ els init inc body args)) cond).andThen fun cond' =>
      let cond := cond'.node
      (optimizeNode (fun n => ctx (.node kind lhs rhs cond n els init inc body args)) then_).andThen fun then' =>
      let then_ := then'.node
      (optimizeNode (fun n => ctx (.node kind lhs rhs cond then_ n init inc body args)) els).andThen fun els' =>
      let els := els'.node
      (optimizeNode (fun n => ctx (.node kind lhs rhs cond then_ els n inc body args)) init).andThen fun init' =>
      let init := init'.node
      (optimizeNode (fun n => ctx (.node kind lhs rhs cond then_ els init n body args)) inc).andThen fun inc' =>
      let inc := inc'.node
      (optimizeList (fun n => ctx (.node kind lhs rhs cond then_ els init inc n args)) false body).andThen fun body =>
      (optimizeList (fun n => ctx (.node kind lhs rhs cond then_ els init inc body n)) false args).andThen fun args =>
      let node := Node.node kind lhs rhs cond then_ els init inc body args
      match kind with
      | .bin kind => foldBin (ctx node) kind node lhs rhs
      | .funcall (some funcname) => foldCall (ctx node) funcname node args
      | _ => .ok (.same node)

/-- The loop over a list. Behind a new node the rest of the list is hidden until the next one is linked. -/
def optimizeList (ctx : Node → Program) (hidden : Bool) : Node → Eval Run Node
  | .link node next =>
      (optimizeNode (fun n => ctx (if hidden then .null else .link n next)) node).andThen fun
        | .same node => (optimizeList (fun rest => ctx (.link node rest)) false next).andThen fun rest => .ok (.link node rest)
        | .new node => (optimizeList (fun rest => ctx (.link node rest)) true next).andThen fun rest => .ok (.link node rest)
  | list => .ok list

end

/-- The loop over the items, of which the first ones are optimized. -/
def optimizeItems (first : List Item) : List Item → Eval Run Program
  | [] => .ok ⟨first⟩
  | .asm :: items => optimizeItems (first ++ [.asm]) items
  | .func fn :: items =>
      (optimizeList (fun body => ⟨first ++ .func { fn with body := body } :: items⟩) false fn.body).andThen fun body =>
        optimizeItems (first ++ [.func { fn with body := body }]) items

/-- `optimize` -/
def optimize (prog : Program) : Eval Run Program := optimizeItems [] prog.items

end Rcc.Ctfe

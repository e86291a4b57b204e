import Rcc.CheckType
import Rcc.Lexer
import Rcc.Names

/-!
# Expressions in the parser

From `expr` down to `primary`, on the kinds and the texts of the tokens. `primary` has
`check_type` go over what it has read, so the tree of a parenthesized expression has
its types and its casts when the operators around it are built.

Where a call, a subscript, a member, a cast, a string, a compound assignment, a
statement expression or a word that `unary` or `primary` asks for begins, there is no
result here; nor is there one where the parser reports an error.
-/

namespace Rcc

/-- A tree with other types. -/
def Node.map {σ τ : Type} (f : σ → τ) : Node σ → Node τ
  | .null => .null
  | .link node next => .link (node.map f) (next.map f)
  | .num val ty => .num val ty
  | .fnum ty => .fnum ty
  | .str id => .str id
  | .lvar var => .lvar var
  | .bin kind lhs rhs ty => .bin kind (lhs.map f) (rhs.map f) (f ty)
  | .un kind lhs ty => .un kind (lhs.map f) (f ty)
  | .cast lhs ty => .cast (lhs.map f) ty
  | .cond c then_ els ty => .cond (c.map f) (then_.map f) (els.map f) (f ty)
  | .member lhs m ty => .member (lhs.map f) m (f ty)
  | .funcall funcname args ty => .funcall funcname (args.map f) ty
  | .ret lhs => .ret (lhs.map f)
  | .ifStmt c then_ els => .ifStmt (c.map f) (then_.map f) (els.map f)
  | .block body => .block (body.map f)
  | .exprStmt lhs => .exprStmt (lhs.map f)
  | .other kids => .other (kids.map f)

namespace Parser

open Lexer

/-- A tree while it is built: the operators that `check_type` has been over have types. -/
abbrev Built := Node (Option Ty)

/-- `new_binary` -/
def newBinary (kind : BinKind) (lhs rhs : Built) : Built := .bin kind lhs rhs none

/-- The types, where all are there. -/
def Built.types (node : Built) : Node Ty := node.map fun ty => ty.getD tyVoid

/-- `check_type`, which leaves what has a type as it is. -/
def check : Built → Option Built
  | .bin kind lhs rhs none => do
      let lhs ← check lhs
      let rhs ← check rhs
      return (typeBin kind (Built.types lhs) (Built.types rhs)).map some
  | .un kind lhs none => do
      let lhs ← check lhs
      return (← typeUn kind (Built.types lhs)).map some
  | .cond cond then_ els none => do
      let cond ← check cond
      let then_ ← check then_
      let els ← check els
      return .cond cond then_ els (some (condType (Built.types then_) (Built.types els)))
  | node => some node

/-! ## Tokens -/

abbrev Tok := TokenKind × Text

/-- What is built, and the tokens behind it. -/
abbrev Parse := List Tok → Option (Built × List Tok)

def equalc (tok : List Tok) (op : String) : Bool :=
  match tok with
  | t :: _ => t.2 = op.toList
  | [] => false

/-- `skip` -/
def skip (tok : List Tok) (op : String) : Option (List Tok) := if equalc tok op then some tok.tail else none

/-- The words that a type begins with: those of `is_typename` and `is_storage_class`,
and those of attributes. -/
def typeWords : List String :=
  ["__attribute__", "__attribute", "__declspec", "_Alignas", "int", "char", "void", "float", "double", "_Bool",
    "struct", "union", "enum", "typeof", "__typeof", "__typeof__", "_Atomic", "typedef", "extern", "static",
    "inline", "__inline", "__inline__", "register", "auto", "const", "__const", "__const__", "volatile",
    "__volatile", "__volatile__", "restrict", "__restrict", "__restrict__", "signed", "__signed__", "unsigned",
    "short", "long"]

/-- The words that `unary` and `primary` ask for. -/
def exprWords : List String :=
  ["__builtin_offsetof", "__builtin_va_start", "__builtin_va_copy", "__builtin_va_arg", "__builtin_va_end",
    "__builtin_constant_p", "__builtin_types_compatible_p", "__builtin_classify_type", "__atomic_add_fetch",
    "__atomic_and_fetch", "__atomic_clear", "__atomic_compare_exchange", "__atomic_compare_exchange_n",
    "__atomic_exchange", "__atomic_exchange_n", "__atomic_fetch_add", "__atomic_fetch_and", "__atomic_fetch_nand",
    "__atomic_fetch_or", "__atomic_fetch_sub", "__atomic_fetch_xor", "__atomic_is_lock_free", "__atomic_load",
    "__atomic_load_n", "__atomic_nand_fetch", "__atomic_or_fetch", "__atomic_signal_fence", "__atomic_store",
    "__atomic_store_n", "__atomic_sub_fetch", "__atomic_test_and_set", "__atomic_thread_fence",
    "__atomic_xor_fetch", "__sync_bool_compare_and_swap", "__sync_fetch_and_add", "__sync_fetch_and_and",
    "__sync_fetch_and_nand", "__sync_fetch_and_or", "__sync_fetch_and_sub", "__sync_fetch_and_xor",
    "__sync_lock_release", "__sync_lock_test_and_set", "__sync_synchronize", "__sync_val_compare_and_swap",
    "sizeof", "__alignof__", "__alignof", "_Alignof", "_Generic", "__FUNCTION__", "__func__",
    "__PRETTY_FUNCTION__"]

/-- `is_typename` -/
def isTypename (s : Names) (tok : List Tok) : Bool :=
  typeWords.any (equalc tok) ||
    match tok with
    | t :: _ => (s.findTypedef (String.ofList t.2)).isSome
    | [] => false

/-! ## Numbers -/

/-- The type of a number by its value and its text. -/
def numType (val : BitVec 64) (text : Text) : Ty :=
  let suffix := text.reverse.takeWhile fun c => c = 'u' || c = 'U' || c = 'l' || c = 'L'
  let isU := suffix.any fun c => c = 'u' || c = 'U'
  let lCount := suffix.countP fun c => c = 'l' || c = 'L'
  if 2 ≤ lCount then (if isU then tyUllong else tyLlong)
  else if lCount = 1 then (if isU then tyUlong else tyLong)
  else if isU then (if 0 ≤ val.toInt ∧ val.toInt ≤ 0xFFFFFFFF then tyUint else tyUllong)
  else if -2147483648 ≤ val.toInt ∧ val.toInt ≤ 2147483647 then tyInt
  else if text.head? = some '0' ∧ 1 < text.length ∧ 0 ≤ val.toInt ∧ val.toInt ≤ 4294967295 then tyUint
  else tyLlong

/-- `new_num` -/
def newNum (val : BitVec 64) (text : Text) : Built := .num val (numType val text)

/-! ## Operands -/

/-- An identifier that no `(` follows. -/
def name (s : Names) (text : Text) : Option Built :=
  match s.findEnumConst (String.ofList text) with
  | some ec => some (newNum ec.val text)
  | none =>
      if text = "NULL".toList then some (newNum 0 text)
      else (s.findVar (String.ofList text)).map fun var => .lvar var

/-- What `primary` goes on with behind an operand. -/
def postfixes (node : Built) : List Tok → Option (Built × List Tok)
  | [] => some (node, [])
  | t :: tok =>
      if ["(", "[", ".", "->"].any (equalc (t :: tok)) then none
      else if equalc (t :: tok) "++" then (check (.un .postInc node none)).bind fun node => postfixes node tok
      else if equalc (t :: tok) "--" then (check (.un .postDec node none)).bind fun node => postfixes node tok
      else some (node, t :: tok)

def operand (s : Names) (expr : Parse) : Parse
  | [] => none
  | t :: tok =>
      if equalc (t :: tok) "(" then
        if equalc tok "\x7b" then none
        else (expr tok).bind fun (node, tok) => (skip tok ")").map fun tok => (node, tok)
      else
        match t.1 with
        | .ident _ => if equalc tok "(" then none else (name s t.2).map fun node => (node, tok)
        | .num val => some (newNum val t.2, tok)
        | _ => none

def primary (s : Names) (expr : Parse) (tok : List Tok) : Option (Built × List Tok) :=
  (operand s expr tok).bind fun (node, tok) => (check node).bind fun node => postfixes node tok

/-- `is_cast` -/
def isCast (s : Names) (tok : List Tok) : Bool := equalc tok "(" && isTypename s tok.tail

def unary (s : Names) (expr : Parse) : Parse
  | [] => none
  | t :: tok =>
      let start := t :: tok
      let one := newNum 1 t.2
      if exprWords.any (equalc start) then none
      else if equalc start "++" then
        (unary s expr tok).map fun (lhs, tok) => (newBinary .assign lhs (newBinary .add lhs one), tok)
      else if equalc start "--" then
        (unary s expr tok).map fun (lhs, tok) => (newBinary .assign lhs (newBinary .sub lhs one), tok)
      else if equalc start "+" then unary s expr tok
      else if equalc start "-" then (unary s expr tok).map fun (lhs, tok) => (.un .neg lhs none, tok)
      else if equalc start "!" then (unary s expr tok).map fun (lhs, tok) => (.un .not lhs none, tok)
      else if equalc start "~" then (unary s expr tok).map fun (lhs, tok) => (.un .bitnot lhs none, tok)
      else if equalc start "&" then (unary s expr tok).map fun (lhs, tok) => (.un .addr lhs none, tok)
      else if equalc start "*" then (unary s expr tok).map fun (lhs, tok) => (.un .deref lhs none, tok)
      else if isCast s start then none
      else primary s expr start

/-! ## Operators -/

/-- An operator, and the node it makes of its operands. -/
abbrev Operators := List (String × (Built → Built → Built))

/-- The loop of a level: an operator, another operand, and so on. -/
def operators (ops : Operators) (sub : Parse) (node : Built) (tok : List Tok) : Option (Built × List Tok) :=
  match ops.find? fun op => equalc tok op.1 with
  | none => some (node, tok)
  | some op =>
      match sub tok.tail with
      | none => none
      | some (rhs, rest) => if rest.length < tok.length then operators ops sub (op.2 node rhs) rest else none
termination_by tok.length

/-- A level of operators that group from the left. -/
def level (ops : Operators) (sub : Parse) : Parse := fun tok =>
  (sub tok).bind fun (node, tok) => operators ops sub node tok

def mulOps : Operators := [("*", newBinary .mul), ("/", newBinary .div), ("%", newBinary .mod)]

def addOps : Operators := [("+", newBinary .add), ("-", newBinary .sub)]

def shiftOps : Operators := [("<<", newBinary .shl), (">>", newBinary .shr)]

def relationalOps : Operators :=
  [("<", newBinary .lt), ("<=", newBinary .le), (">", fun node rhs => newBinary .lt rhs node), (">=", fun node rhs => newBinary .le rhs node)]

def equalityOps : Operators := [("==", newBinary .eq), ("!=", newBinary .ne)]

def bitandOps : Operators := [("&", newBinary .bitand)]

def bitxorOps : Operators := [("^", newBinary .bitxor)]

def bitorOps : Operators := [("|", newBinary .bitor)]

def logandOps : Operators := [("&&", newBinary .logand)]

def logorOps : Operators := [("||", newBinary .logor)]

def commaOps : Operators := [(",", newBinary .comma)]

section Levels

variable (s : Names) (expr : Parse)

def mul : Parse := level mulOps (unary s expr)

def add : Parse := level addOps (mul s expr)

def shift : Parse := level shiftOps (add s expr)

def relational : Parse := level relationalOps (shift s expr)

def equality : Parse := level equalityOps (relational s expr)

def bitand : Parse := level bitandOps (equality s expr)

def bitxor : Parse := level bitxorOps (bitand s expr)

def bitor : Parse := level bitorOps (bitxor s expr)

def logand : Parse := level logandOps (bitor s expr)

def logor : Parse := level logorOps (logand s expr)

def conditional : Nat → Parse
  | 0, _ => none
  | n + 1, tok =>
      (logor s expr tok).bind fun (cond, tok) =>
        if equalc tok "?" then
          (expr tok.tail).bind fun (then_, tok) =>
            (skip tok ":").bind fun tok =>
              (conditional n tok).map fun (els, tok) => (.cond cond then_ els none, tok)
        else some (cond, tok)

/-- The operators that `to_assign` is for. -/
def compoundAssignments : List String := ["+=", "-=", "*=", "/=", "%=", "&=", "|=", "^=", "<<=", ">>="]

def assign : Nat → Parse
  | 0, _ => none
  | n + 1, tok =>
      (conditional s expr (n + 1) tok).bind fun (node, tok) =>
        if equalc tok "=" then (assign n tok.tail).map fun (rhs, tok) => (newBinary .assign node rhs, tok)
        else if compoundAssignments.any (equalc tok) then none
        else some (node, tok)

end Levels

/-- `expr`; the bound is on how deep expressions are in one another. -/
def expr (s : Names) : Nat → Parse
  | 0, _ => none
  | n + 1, tok => level commaOps (assign s (expr s n) n) tok

end Parser

end Rcc

import Rcc.Ctype

/-!
# The syntax tree (`struct Node`)

One inductive type stands for `Node *`, so the null pointer is a tree and a
list chained through `next` is a tree of `link`s. A node kind whose children
mean something keeps its own constructor; families that the passes treat
alike (the binary and the unary kinds) share one, indexed by the kind.

`τ` is what a node carries for `ty`. The parser leaves `ty` null on operators
and sets it on leaves and casts, so an expression as parsed is a `Node Unit`,
and the one `check_type` leaves behind is a `Node Ty`.
-/

namespace Rcc

/-- `struct LVar`, as far as the expression passes read it. `id` stands for
the address of the object: two occurrences are the same variable exactly when
their `id`s agree. `offset` is the frame offset of a local, 0 otherwise. -/
structure LVar where
  id : Nat
  name : String
  offset : Nat
  ty : Ty
  isLocal : Bool
deriving DecidableEq, Repr

/-- `struct Member`. -/
structure Member where
  ty : Ty
  offset : Nat
  bitWidth : Nat
deriving DecidableEq, Repr

/-- The kinds with a `lhs` and a `rhs`. -/
inductive BinKind where
  | add | sub | mul | div | mod | shl | shr | bitand | bitxor | bitor
  | eq | ne | lt | le | logand | logor | assign | comma
deriving DecidableEq, Repr

/-- The kinds with a `lhs` alone; `ND_CAST` is apart, its type is preset. -/
inductive UnKind where
  | neg | not | bitnot | addr | deref | postInc | postDec | sizeof
deriving DecidableEq, Repr

/-- `Node *`. -/
inductive Node (τ : Type) where
  /-- the null pointer -/
  | null
  /-- a list element and its `next` -/
  | link (node next : Node τ)
  | num (val : BitVec 64) (ty : Ty)
  | fnum (ty : Ty)
  | str (id : Nat)
  | lvar (var : LVar)
  | bin (kind : BinKind) (lhs rhs : Node τ) (ty : τ)
  | un (kind : UnKind) (lhs : Node τ) (ty : τ)
  | cast (lhs : Node τ) (ty : Ty)
  | cond (cond then_ els : Node τ) (ty : τ)
  | member (lhs : Node τ) (member : Member) (ty : τ)
  /-- a direct call; `ty` is the return type of the declared function -/
  | funcall (funcname : String) (args : Node τ) (ty : Ty)
  | ret (lhs : Node τ)
  | ifStmt (cond then_ els : Node τ)
  | block (body : Node τ)
  | exprStmt (lhs : Node τ)
  /-- any other kind, with its children in one list -/
  | other (kids : Node τ)
deriving Repr

/-- Does the kind take the usual arithmetic conversions on both sides and
produce the common type? -/
def BinKind.isArith : BinKind → Bool
  | .add | .sub | .mul | .div | .mod | .bitand | .bitxor | .bitor => true
  | _ => false

/-- The comparison kinds. -/
def BinKind.isCompare : BinKind → Bool
  | .eq | .ne | .lt | .le => true
  | _ => false

/-- `node->ty`. Statements and null have none; `void` stands in. -/
def Node.ty : Node Ty → Ty
  | .num _ ty | .fnum ty | .bin _ _ _ ty | .un _ _ ty | .cast _ ty | .cond _ _ _ ty
  | .member _ _ ty | .funcall _ _ ty => ty
  | .str _ => pointerTo tyChar
  | .lvar var => var.ty
  | .null | .link _ _ | .ret _ | .ifStmt _ _ _ | .block _ | .exprStmt _ | .other _ => tyVoid

/-- `P` holds of the tree and of every tree in it. -/
def Node.Everywhere {τ : Type} (P : Node τ → Prop) : Node τ → Prop
  | .null => P .null
  | .link node next => P (.link node next) ∧ node.Everywhere P ∧ next.Everywhere P
  | .num val ty => P (.num val ty)
  | .fnum ty => P (.fnum ty)
  | .str id => P (.str id)
  | .lvar var => P (.lvar var)
  | .bin kind lhs rhs ty =>
      P (.bin kind lhs rhs ty) ∧ lhs.Everywhere P ∧ rhs.Everywhere P
  | .un kind lhs ty => P (.un kind lhs ty) ∧ lhs.Everywhere P
  | .cast lhs ty => P (.cast lhs ty) ∧ lhs.Everywhere P
  | .cond c then_ els ty =>
      P (.cond c then_ els ty) ∧ c.Everywhere P ∧ then_.Everywhere P ∧ els.Everywhere P
  | .member lhs m ty => P (.member lhs m ty) ∧ lhs.Everywhere P
  | .funcall f args ty => P (.funcall f args ty) ∧ args.Everywhere P
  | .ret lhs => P (.ret lhs) ∧ lhs.Everywhere P
  | .ifStmt c then_ els =>
      P (.ifStmt c then_ els) ∧ c.Everywhere P ∧ then_.Everywhere P ∧ els.Everywhere P
  | .block body => P (.block body) ∧ body.Everywhere P
  | .exprStmt lhs => P (.exprStmt lhs) ∧ lhs.Everywhere P
  | .other kids => P (.other kids) ∧ kids.Everywhere P

theorem Node.Everywhere.self {τ : Type} {P : Node τ → Prop} {n : Node τ}
    (h : n.Everywhere P) : P n := by
  cases n <;> first
    | exact h
    | exact h.1

end Rcc

import Rcc.Node

/-!
# How often a left operand is evaluated

The parser turns `l op= r` into an assignment through a temporary pointer, so that `l` is evaluated once. It does not do
so if `l` is a bit-field, and never for `++l` and `--l`: there `l` occurs twice in the tree. The assignment to a
bit-field then generates the address twice, unless the right operand reads the same member.

What an evaluation does is the list of its side effects, each under its own number. A piece of the code can run more
than once, but it never does what the source does not say, so the lists of the code and of the source are compared as
permutations: they agree exactly when no operand with a side effect is generated again (or left out, as an assignment
is whose address is taken).
-/

namespace Rcc.Lvalues

/-! ## Code -/

/-- Generated code, as far as it decides which side effects there are. -/
inductive Code where
  | none
  /-- `error_tok` -/
  | fails
  | effect (id : Nat)
  | seq (first second : Code)
  /-- a conditional jump, under the number of the operand it tests -/
  | branch (id : Nat) (met other : Code)
deriving DecidableEq, Repr

namespace Code

/-- Generated without an error. -/
def compiles : Code → Prop
  | fails => False
  | seq a b => a.compiles ∧ b.compiles
  | branch _ a b => a.compiles ∧ b.compiles
  | _ => True

instance : (c : Code) → Decidable c.compiles
  | none | effect _ => isTrue trivial
  | fails => isFalse id
  | seq a b | branch _ a b => @instDecidableAnd a.compiles b.compiles (instDecidableCompiles a) (instDecidableCompiles b)

/-- The side effects of a run in which the tests come out as `choose` says. -/
def exec (choose : Nat → Bool) : Code → List Nat
  | none | fails => []
  | effect id => [id]
  | seq a b => a.exec choose ++ b.exec choose
  | branch id a b => if choose id then a.exec choose else b.exec choose

end Code

/-! ## Trees -/

/-- Which case of `ND_ASSIGN` a type selects. -/
inductive Class where
  /-- arrays, structures and unions; the right operand is generated by address if its type is one too -/
  | aggregate (byAddress : Bool)
  | flonum
  | scalar
deriving DecidableEq, Repr

/-- `Node *`. Variables and constants are all `leaf`: neither the address nor the value of one has a side effect. -/
inductive Tree where
  | leaf
  | call (id : Nat) (aggregate : Bool) (callee args : Tree)
  /-- an argument, of a type passed by address or not, and those behind it -/
  | arg (byAddress : Bool) (node next : Tree)
  | un (lhs : Tree)
  | cast (aggregate : Bool) (lhs : Tree)
  | bin (kind : BinKind) (lhs rhs : Tree)
  | logical (id : Nat) (lhs rhs : Tree)
  | cond (id : Nat) (cond then_ els : Tree)
  | comma (lhs rhs : Tree)
  | addr (lhs : Tree)
  | deref (lhs : Tree)
  | member (lhs : Tree) (member : Nat) (bitField : Bool)
  /-- without a number where the object is a temporary of the parser -/
  | assign (id : Option Nat) (cls : Class) (lhs rhs : Tree)
  | postInc (id : Nat) (lhs : Tree)
  /-- the statements, and `stmt_expr_result` -/
  | stmtExpr (body result : Tree)
deriving DecidableEq, Repr

namespace Tree

/-- `node->lhs->member->bit_width > 0` -/
def bitField? : Tree → Option Nat
  | member _ m true => some m
  | _ => Option.none

def isMember (m : Nat) : Tree → Bool
  | member _ m' _ => m' == m
  | _ => false

/-- `rhs_reads_same` -/
def rhsReadsSame (m : Nat) : Tree → Bool
  | member _ m' _ => m' == m
  | bin kind l r => kind ∈ [.add, .sub, .mul, .div, .bitand, .bitor, .bitxor] && (l.isMember m || r.isMember m)
  | _ => false

end Tree

/-- What the store of an assignment does. -/
def store : Option Nat → Code
  | some id => .effect id
  | none => .none

/-- `ND_ASSIGN`, from the code for the address and the value of both operands. -/
def genAssign (id : Option Nat) (cls : Class) (l r : Tree) (la ra rv : Code) : Code :=
  match cls with
  | .aggregate byAddress => .seq la (.seq (if byAddress then ra else rv) (store id))
  | .flonum => .seq rv (.seq la (store id))
  | .scalar =>
      match l.bitField? with
      | some m => .seq rv (.seq (if r.rhsReadsSame m then la else .seq la la) (store id))
      | none => .seq la (.seq rv (store id))

mutual

/-- `gen` -/
def gen : Tree → Code
  | .leaf => .none
  | .call id _ callee args => .seq (gen callee) (.seq (gen args) (.effect id))
  | .arg byAddress a next => .seq (if byAddress then genAddr a else gen a) (gen next)
  | .un l => gen l
  | .cast _ l => gen l
  | .bin _ l r => .seq (gen l) (gen r)
  | .logical id l r => .seq (gen l) (.branch id (gen r) .none)
  | .cond id c t e => .seq (gen c) (.branch id (gen t) (gen e))
  | .comma l r => .seq (gen l) (gen r)
  | .addr l => genAddr l
  | .deref l => gen l
  | .member l _ _ => genAddr l
  | .assign id cls l r => genAssign id cls l r (genAddr l) (genAddr r) (gen r)
  | .postInc id l => .seq (genAddr l) (.effect id)
  | .stmtExpr body result => .seq (gen body) (gen result)

/-- `gen_addr` -/
def genAddr : Tree → Code
  | .leaf => .none
  | .deref l => gen l
  | .member l _ _ => genAddr l
  | .cond id c t e => .seq (gen c) (.branch id (genAddr t) (genAddr e))
  | .cast aggregate l => if aggregate then genAddr l else .fails
  | .comma l r => .seq (gen l) (genAddr r)
  | .call id aggregate callee args =>
      if aggregate then .seq (gen callee) (.seq (gen args) (.effect id)) else .fails
  -- the assignment itself is not generated
  | .assign _ _ l _ => genAddr l
  -- the last statement is one of the body
  | .stmtExpr body result => .seq (gen body) (.seq (gen result) (genAddr result))
  | _ => .fails

end

/-! ## Expressions -/

/-- An expression as it is written. -/
inductive Expr where
  | leaf
  | call (id : Nat) (aggregate : Bool) (callee args : Expr)
  | arg (byAddress : Bool) (e next : Expr)
  | un (e : Expr)
  | cast (aggregate : Bool) (e : Expr)
  | bin (kind : BinKind) (l r : Expr)
  | logical (id : Nat) (l r : Expr)
  | cond (id : Nat) (c t e : Expr)
  | comma (l r : Expr)
  | addr (e : Expr)
  | deref (e : Expr)
  | member (e : Expr) (member : Nat) (bitField : Bool)
  | assign (id : Nat) (cls : Class) (l r : Expr)
  /-- `l op= r` -/
  | compound (id : Nat) (kind : BinKind) (cls : Class) (l r : Expr)
  /-- `++l`, and `--l` -/
  | preInc (id : Nat) (decrement : Bool) (cls : Class) (l : Expr)
  | postInc (id : Nat) (l : Expr)
  | stmtExpr (body result : Expr)
deriving DecidableEq, Repr

/-- `to_assign` -/
def toAssign (id : Nat) (kind : BinKind) (cls : Class) (lhs rhs : Tree) : Tree :=
  match lhs.bitField? with
  | some _ => .assign (some id) cls lhs (.bin kind lhs rhs)
  | none => .comma (.assign none .scalar .leaf (.addr lhs))
      (.assign (some id) cls (.deref .leaf) (.bin kind (.deref .leaf) rhs))

namespace Expr

/-- What the parser makes of an expression. -/
def tree : Expr → Tree
  | leaf => .leaf
  | call id aggregate callee args => .call id aggregate callee.tree args.tree
  | arg byAddress e next => .arg byAddress e.tree next.tree
  | un e => .un e.tree
  | cast aggregate e => .cast aggregate e.tree
  | bin kind l r => .bin kind l.tree r.tree
  | logical id l r => .logical id l.tree r.tree
  | cond id c t e => .cond id c.tree t.tree e.tree
  | comma l r => .comma l.tree r.tree
  | addr e => .addr e.tree
  | deref e => .deref e.tree
  | member e m bitField => .member e.tree m bitField
  | assign id cls l r => .assign (some id) cls l.tree r.tree
  | compound id kind cls l r => toAssign id kind cls l.tree r.tree
  | preInc id decrement cls l =>
      .assign (some id) cls l.tree (.bin (if decrement then .sub else .add) l.tree .leaf)
  | postInc id l => .postInc id l.tree
  | stmtExpr body result => .stmtExpr body.tree result.tree

/-- All side effects that are written in an expression. -/
def ids : Expr → List Nat
  | leaf => []
  | call id _ callee args => callee.ids ++ (args.ids ++ [id])
  | arg _ e next => e.ids ++ next.ids
  | un e | cast _ e | addr e | deref e | member e _ _ => e.ids
  | bin _ l r | logical _ l r | comma l r => l.ids ++ r.ids
  | cond _ c t e => c.ids ++ (t.ids ++ e.ids)
  | assign id _ l r | compound id _ _ l r => l.ids ++ (r.ids ++ [id])
  | preInc id _ _ l | postInc id l => l.ids ++ [id]
  | stmtExpr body result => body.ids ++ result.ids

/-- The side effects of an evaluation in which each operand that is needed is evaluated once. -/
def effects (choose : Nat → Bool) : Expr → List Nat
  | leaf => []
  | call id _ callee args => callee.effects choose ++ (args.effects choose ++ [id])
  | arg _ e next => e.effects choose ++ next.effects choose
  | un e | cast _ e | addr e | deref e | member e _ _ => e.effects choose
  | bin _ l r | comma l r => l.effects choose ++ r.effects choose
  | logical id l r => l.effects choose ++ (if choose id then r.effects choose else [])
  | cond id c t e => c.effects choose ++ (if choose id then t.effects choose else e.effects choose)
  | assign id _ l r | compound id _ _ l r => l.effects choose ++ (r.effects choose ++ [id])
  | preInc id _ _ l | postInc id l => l.effects choose ++ [id]
  | stmtExpr body result => body.effects choose ++ result.effects choose

/-- The number of the member if the expression is a bit-field. -/
def bitField? : Expr → Option Nat
  | member _ m true => some m
  | _ => none

def isMember (m : Nat) : Expr → Bool
  | member _ m' _ => m' == m
  | _ => false

/-- The member itself, or an operator that keeps the place of the bits on it. -/
def readsSame (m : Nat) : Expr → Bool
  | member _ m' _ => m' == m
  | bin kind l r => kind ∈ [.add, .sub, .mul, .div, .bitand, .bitor, .bitxor] && (l.isMember m || r.isMember m)
  | _ => false

/-- The address of the left operand of an assignment is computed once. -/
def addressedOnce (cls : Class) (l r : Expr) : Bool :=
  match cls, l.bitField? with
  | .scalar, some m => r.readsSame m
  | _, _ => true

/-- The side effects of computing where an object is. -/
def placeEffects (choose : Nat → Bool) : Expr → List Nat
  | deref e | member e _ _ => e.effects choose
  | cast _ e => e.placeEffects choose
  | cond id c t e => c.effects choose ++ (if choose id then t.placeEffects choose else e.placeEffects choose)
  | comma l r => l.effects choose ++ r.placeEffects choose
  | call id aggregate callee args => (call id aggregate callee args).effects choose
  | assign _ _ l _ | compound _ _ _ l _ | preInc _ _ _ l => l.effects choose
  | stmtExpr body result => body.effects choose ++ result.effects choose
  | _ => []

mutual

/-- Nothing with a side effect is evaluated twice or left out when the value is computed. -/
def Once (choose : Nat → Bool) : Expr → Prop
  | leaf => True
  | call _ _ callee args => callee.Once choose ∧ args.Once choose
  | arg byAddress e next => (if byAddress then e.AddressOnce choose else e.Once choose) ∧ next.Once choose
  | un e | cast _ e | deref e => e.Once choose
  | bin _ l r | comma l r => l.Once choose ∧ r.Once choose
  | logical id l r => l.Once choose ∧ (choose id = true → r.Once choose)
  | cond id c t e => c.Once choose ∧ (if choose id then t.Once choose else e.Once choose)
  | addr e | member e _ _ => e.AddressOnce choose
  | assign _ cls l r =>
      (if addressedOnce cls l r then l.AddressOnce choose else l.effects choose = []) ∧
        (if cls = .aggregate true then r.AddressOnce choose else r.Once choose)
  | compound _ _ _ l r =>
      (if l.bitField?.isNone then l.AddressOnce choose else l.effects choose = []) ∧ r.Once choose
  | preInc _ _ _ l => l.effects choose = []
  | postInc _ l => l.AddressOnce choose
  | stmtExpr body result => body.Once choose ∧ result.Once choose

/-- Nor when the address is. -/
def AddressOnce (choose : Nat → Bool) : Expr → Prop
  | leaf => True
  | call _ _ callee args => callee.Once choose ∧ args.Once choose
  | deref e => e.Once choose
  | member e _ _ => e.AddressOnce choose
  | cast _ e => e.AddressOnce choose
  | cond id c t e => c.Once choose ∧ (if choose id then t.AddressOnce choose else e.AddressOnce choose)
  | comma l r => l.Once choose ∧ r.AddressOnce choose
  | stmtExpr body result => body.Once choose ∧ result.Once choose ∧ result.placeEffects choose = []
  | _ => False

end

/-- What C lets stand on the left of an assignment, with the literals that the parser turns into a comma. -/
def isLvalue : Expr → Bool
  | leaf | deref _ | member .. => true
  | comma _ r => r.isLvalue
  | _ => false

/-- The left operands are lvalues. -/
def Formed : Expr → Prop
  | leaf => True
  | un e | cast _ e | addr e | deref e | member e _ _ => e.Formed
  | call _ _ l r | arg _ l r | bin _ l r | logical _ l r | comma l r | stmtExpr l r => l.Formed ∧ r.Formed
  | cond _ c t e => c.Formed ∧ t.Formed ∧ e.Formed
  | assign _ _ l r | compound _ _ _ l r => l.isLvalue = true ∧ l.Formed ∧ r.Formed
  | preInc _ _ _ l | postInc _ l => l.isLvalue = true ∧ l.Formed

/-- The left operand of an assignment, in any of its forms. -/
def left? : Expr → Option Expr
  | assign _ _ l _ | compound _ _ _ l _ | preInc _ _ _ l | postInc _ l => some l
  | _ => none

/-- The left operand of an assignment is evaluated once, or it does not matter. -/
def LeftOnce (choose : Nat → Bool) : Expr → Prop
  | assign _ cls l r => if addressedOnce cls l r then l.AddressOnce choose else l.effects choose = []
  | compound _ _ _ l _ => if l.bitField?.isNone then l.AddressOnce choose else l.effects choose = []
  | preInc _ _ _ l => l.effects choose = []
  | postInc _ l => l.AddressOnce choose
  | _ => True

end Expr

/-! ## Operands that are evaluated several times -/

/-- `v` has the effects of `q`, and those of `p` as often as `n` says. -/
def Copies (n : Nat) (v p q : List Nat) : Prop :=
  ∀ x, v.count x = n * p.count x + q.count x

theorem Copies.append (p q : List Nat) : Copies 1 (p ++ q) p q := by
  intro x
  simp [List.count_append]

/-- Among numbers that `q` does not have, `v` is right if `p` is and is run once, or if there is nothing to do. -/
theorem Copies.left_iff {n : Nat} {v p q e ids : List Nat} (hv : Copies n v p q) (hp : p ⊆ e)
    (hi : e ⊆ ids) (hq : ∀ x ∈ ids, x ∉ q) (hd : e.Nodup) :
    (∀ x ∈ ids, v.count x = e.count x) ↔ if n = 1 then p.Perm e else e = [] := by
  have hcount : ∀ x ∈ ids, v.count x = n * p.count x := by
    intro x hx
    rw [hv x, List.count_eq_zero.2 (hq x hx), Nat.add_zero]
  constructor
  · intro h
    split
    · next h1 =>
        refine List.perm_iff_count.2 fun x => ?_
        by_cases hx : x ∈ e
        · rw [← h x (hi hx), hcount x (hi hx), h1, Nat.one_mul]
        · rw [List.count_eq_zero.2 hx, List.count_eq_zero.2 fun h => hx (hp h)]
    · next h1 =>
        refine List.eq_nil_iff_forall_not_mem.2 fun x hx => h1 ?_
        have hone : n * p.count x = 1 := by
          rw [← hcount x (hi hx), h x (hi hx), List.count_eq_one_of_mem hd hx]
        exact Nat.eq_one_of_mul_eq_one_right hone
  · intro h x hx
    rw [hcount x hx]
    split at h
    · next h1 => rw [h1, Nat.one_mul, h.count_eq]
    · subst h
      rw [List.subset_nil.1 hp]
      simp

/-- If the two parts have no effect in common, each must be right. -/
theorem Copies.perm_iff {n : Nat} {v p q e f : List Nat} (hv : Copies n v p q) (hp : p ⊆ e) (hq : q ⊆ f)
    (hd : (e ++ f).Nodup) :
    v.Perm (e ++ f) ↔ (if n = 1 then p.Perm e else e = []) ∧ q.Perm f := by
  obtain ⟨he, -, hef⟩ := List.nodup_append.1 hd
  have hnf : ∀ x ∈ e, x ∉ f := fun x hx hf => hef x hx x hf rfl
  rw [← hv.left_iff hp (List.Subset.refl e) (fun x hx h => hnf x hx (hq h)) he]
  simp only [List.perm_iff_count, List.count_append]
  constructor
  · intro h
    refine ⟨fun x hx => by rw [h x, List.count_eq_zero.2 (hnf x hx), Nat.add_zero], fun x => ?_⟩
    by_cases hx : x ∈ e
    · rw [List.count_eq_zero.2 (hnf x hx), List.count_eq_zero.2 fun h => hnf x hx (hq h)]
    · have := h x
      rw [hv x, List.count_eq_zero.2 fun h => hx (hp h), List.count_eq_zero.2 hx] at this
      omega
  · rintro ⟨h1, h2⟩ x
    by_cases hx : x ∈ e
    · rw [h1 x hx, List.count_eq_zero.2 (hnf x hx), Nat.add_zero]
    · rw [hv x, h2 x, List.count_eq_zero.2 fun h => hx (hp h), List.count_eq_zero.2 hx]
      omega

theorem perm_append_iff {p q e f : List Nat} (hp : p ⊆ e) (hq : q ⊆ f) (hd : (e ++ f).Nodup) :
    (p ++ q).Perm (e ++ f) ↔ p.Perm e ∧ q.Perm f := by
  rw [(Copies.append p q).perm_iff hp hq hd, if_pos rfl]

/-- What has been done already can only be added if it is nothing. -/
theorem perm_again_iff {v p e : List Nat} (hd : e.Nodup) (hv : v ⊆ e) (hp : p ⊆ v) :
    (v ++ p).Perm e ↔ v.Perm e ∧ p = [] := by
  refine ⟨fun h => ?_, fun ⟨h, hp⟩ => by rwa [hp, List.append_nil]⟩
  suffices hp : p = [] by
    rw [hp, List.append_nil] at h
    exact ⟨h, hp⟩
  refine List.eq_nil_iff_forall_not_mem.2 fun x hx => ?_
  have h1 := h.count_eq x
  rw [List.count_append, List.count_eq_one_of_mem hd (hv (hp hx))] at h1
  have h2 := List.count_pos_iff.2 hx
  have h3 := List.count_pos_iff.2 (hp hx)
  omega

theorem append_subset_append {p q e f : List Nat} (hp : p ⊆ e) (hq : q ⊆ f) : p ++ q ⊆ e ++ f :=
  List.append_subset.2 ⟨List.subset_append_of_subset_left f hp, List.subset_append_of_subset_right e hq⟩

theorem perm_append_singleton_iff {p e : List Nat} {x : Nat} : (p ++ [x]).Perm (e ++ [x]) ↔ p.Perm e :=
  List.perm_append_right_iff [x]

/-! ## What the code does -/

namespace Expr

/-- The side effects of the code for the value. -/
def valueRun (choose : Nat → Bool) (e : Expr) : List Nat := (gen e.tree).exec choose

/-- The side effects of the code for the address. -/
def placeRun (choose : Nat → Bool) (e : Expr) : List Nat := (genAddr e.tree).exec choose

end Expr

section Runs

open Rcc.Lvalues.Expr

attribute [local simp] effects placeEffects Once AddressOnce

variable {choose : Nat → Bool}

@[simp] theorem exec_fails : Code.fails.exec choose = [] := rfl
@[simp] theorem exec_none : Code.none.exec choose = [] := rfl
@[simp] theorem exec_effect (id : Nat) : (Code.effect id).exec choose = [id] := rfl
@[simp] theorem exec_seq (a b : Code) : (Code.seq a b).exec choose = a.exec choose ++ b.exec choose := rfl
@[simp] theorem exec_branch (id : Nat) (a b : Code) :
    (Code.branch id a b).exec choose = if choose id then a.exec choose else b.exec choose := rfl

@[simp] theorem compiles_seq (a b : Code) : (Code.seq a b).compiles ↔ a.compiles ∧ b.compiles := Iff.rfl
@[simp] theorem compiles_branch (id : Nat) (a b : Code) : (Code.branch id a b).compiles ↔ a.compiles ∧ b.compiles :=
  Iff.rfl
@[simp] theorem compiles_fails : ¬ Code.fails.compiles := id

/-! ### The runs of the operands -/

@[simp] theorem valueRun_call (id : Nat) (aggregate : Bool) (callee args : Expr) :
    (call id aggregate callee args).valueRun choose = callee.valueRun choose ++ (args.valueRun choose ++ [id]) := rfl
@[simp] theorem valueRun_arg (byAddress : Bool) (e next : Expr) :
    (arg byAddress e next).valueRun choose =
      (if byAddress then e.placeRun choose else e.valueRun choose) ++ next.valueRun choose := by
  cases byAddress <;> rfl
@[simp] theorem valueRun_bin (kind : BinKind) (l r : Expr) :
    (bin kind l r).valueRun choose = l.valueRun choose ++ r.valueRun choose := rfl
@[simp] theorem valueRun_logical (id : Nat) (l r : Expr) :
    (logical id l r).valueRun choose = l.valueRun choose ++ if choose id then r.valueRun choose else [] := rfl
@[simp] theorem valueRun_cond (id : Nat) (c t e : Expr) :
    (cond id c t e).valueRun choose =
      c.valueRun choose ++ if choose id then t.valueRun choose else e.valueRun choose := rfl
@[simp] theorem placeRun_cond (id : Nat) (c t e : Expr) :
    (cond id c t e).placeRun choose =
      c.valueRun choose ++ if choose id then t.placeRun choose else e.placeRun choose := rfl
@[simp] theorem valueRun_comma (l r : Expr) :
    (comma l r).valueRun choose = l.valueRun choose ++ r.valueRun choose := rfl
@[simp] theorem placeRun_comma (l r : Expr) :
    (comma l r).placeRun choose = l.valueRun choose ++ r.placeRun choose := rfl
@[simp] theorem valueRun_member (e : Expr) (m : Nat) (bitField : Bool) :
    (member e m bitField).valueRun choose = e.placeRun choose := rfl
@[simp] theorem valueRun_postInc (id : Nat) (l : Expr) :
    (postInc id l).valueRun choose = l.placeRun choose ++ [id] := rfl
@[simp] theorem placeRun_assign (id : Nat) (cls : Class) (l r : Expr) :
    (assign id cls l r).placeRun choose = l.placeRun choose := rfl
@[simp] theorem valueRun_stmtExpr (body result : Expr) :
    (stmtExpr body result).valueRun choose = body.valueRun choose ++ result.valueRun choose := rfl
@[simp] theorem placeRun_stmtExpr (body result : Expr) :
    (stmtExpr body result).placeRun choose =
      body.valueRun choose ++ (result.valueRun choose ++ result.placeRun choose) := rfl

@[simp] theorem bitField?_tree (e : Expr) : e.tree.bitField? = e.bitField? := by
  cases e with
  | compound id kind cls l r =>
      simp only [tree, toAssign, bitField?]
      split <;> rfl
  | member e m bitField => cases bitField <;> rfl
  | _ => rfl

@[simp] theorem isMember_tree (m : Nat) (e : Expr) : e.tree.isMember m = e.isMember m := by
  cases e with
  | compound id kind cls l r =>
      simp only [tree, toAssign, isMember]
      split <;> rfl
  | _ => rfl

@[simp] theorem rhsReadsSame_tree (m : Nat) (e : Expr) : e.tree.rhsReadsSame m = e.readsSame m := by
  cases e with
  | compound id kind cls l r =>
      simp only [tree, toAssign, readsSame]
      split <;> rfl
  | bin kind l r => simp [tree, Tree.rhsReadsSame, readsSame]
  | _ => rfl

theorem bitField?_some {e : Expr} {m : Nat} (h : e.bitField? = some m) : ∃ a, e = member a m true := by
  cases e with
  | member a m' b =>
      cases b with
      | true => exact ⟨a, by rw [Option.some.inj h]⟩
      | false => cases h
  | _ => cases h

/-- An lvalue is evaluated the same way for its value and for its address. -/
theorem valueRun_lvalue {e : Expr} (h : e.isLvalue = true) : e.valueRun choose = e.placeRun choose := by
  induction e with
  | leaf | deref _ _ | member _ _ _ _ => rfl
  | comma l r _ ihr =>
      simp [ihr h]
  | _ => cases h

/-! ### Assignments -/

section Assignments

attribute [local simp] tree toAssign gen genAddr genAssign store

/-- The right operand of an assignment, by address or by value. -/
def rightRun (choose : Nat → Bool) (cls : Class) (r : Expr) : List Nat :=
  if cls = .aggregate true then r.placeRun choose else r.valueRun choose

theorem copies_assign (id : Nat) (cls : Class) (l r : Expr) :
    Copies (if addressedOnce cls l r then 1 else 2) ((assign id cls l r).valueRun choose) (l.placeRun choose)
      (rightRun choose cls r ++ [id]) := by
  intro x
  cases cls with
  | aggregate byAddress =>
      cases byAddress <;>
        simp [valueRun, placeRun, rightRun, addressedOnce, List.count_append]
  | flonum =>
      simp [valueRun, placeRun, rightRun, addressedOnce, List.count_append]
      omega
  | scalar =>
      cases hb : l.bitField? with
      | none =>
          simp [valueRun, placeRun, rightRun, addressedOnce, hb, List.count_append]
      | some m =>
          by_cases hr : r.readsSame m = true
          · simp [valueRun, placeRun, rightRun, addressedOnce, hb, hr, List.count_append]
            omega
          · simp [valueRun, placeRun, rightRun, addressedOnce, hb, hr, List.count_append]
            omega

theorem tree_compound_of_none {l : Expr} (hb : l.bitField? = none) (id : Nat) (kind : BinKind) (cls : Class) (r : Expr) :
    (compound id kind cls l r).tree = .comma (.assign none .scalar .leaf (.addr l.tree))
      (.assign (some id) cls (.deref .leaf) (.bin kind (.deref .leaf) r.tree)) := by
  simp [hb]

theorem tree_compound_of_some {l : Expr} {m : Nat} (hb : l.bitField? = some m) (id : Nat) (kind : BinKind) (cls : Class)
    (r : Expr) :
    (compound id kind cls l r).tree = .assign (some id) cls l.tree (.bin kind l.tree r.tree) := by
  simp [hb]

/-- The store through the temporary. -/
def storeRun (choose : Nat → Bool) (id : Nat) (kind : BinKind) (cls : Class) (r : Expr) : List Nat :=
  (gen (.assign (some id) cls (.deref .leaf) (.bin kind (.deref .leaf) r.tree))).exec choose

theorem valueRun_compound_of_none {l : Expr} (hb : l.bitField? = none) (id : Nat) (kind : BinKind) (cls : Class)
    (r : Expr) :
    (compound id kind cls l r).valueRun choose = l.placeRun choose ++ storeRun choose id kind cls r := by
  rw [valueRun, tree_compound_of_none hb, gen, exec_seq, storeRun]
  simp [Tree.bitField?, placeRun]

theorem placeRun_compound_of_none {l : Expr} (hb : l.bitField? = none) (id : Nat) (kind : BinKind) (cls : Class)
    (r : Expr) : (compound id kind cls l r).placeRun choose = l.placeRun choose := by
  rw [placeRun, tree_compound_of_none hb, genAddr, exec_seq]
  simp [Tree.bitField?, placeRun]

/-- The tree in which the left operand occurs twice: it is evaluated twice, or three times if `gen` does not look for
the operator. -/
theorem copies_duplicated (id : Nat) (kind : BinKind) (cls : Class) {l : Expr} (r : Expr)
    (hl : l.valueRun choose = l.placeRun choose) (hc : (gen (assign id cls l (bin kind l r)).tree).compiles) :
    ∃ n, 2 ≤ n ∧ Copies n ((assign id cls l (bin kind l r)).valueRun choose) (l.placeRun choose)
      (r.valueRun choose ++ [id]) := by
  have hcls : cls ≠ .aggregate true := by
    rintro rfl
    simp at hc
  have hr : rightRun choose cls (bin kind l r) = l.placeRun choose ++ r.valueRun choose := by
    rw [rightRun, if_neg hcls, ← hl]
    rfl
  have h := @copies_assign choose id cls l (bin kind l r)
  rw [hr] at h
  refine ⟨(if addressedOnce cls l (bin kind l r) then 1 else 2) + 1, by split <;> omega, fun x => ?_⟩
  rw [h x, List.count_append, List.count_append, List.count_append, Nat.succ_mul]
  omega

theorem copies_compound (id : Nat) (kind : BinKind) (cls : Class) (l r : Expr)
    (hc : (gen (compound id kind cls l r).tree).compiles) :
    ∃ n, (n = 1 ↔ l.bitField?.isNone = true) ∧
      Copies n ((compound id kind cls l r).valueRun choose) (l.placeRun choose) (r.valueRun choose ++ [id]) := by
  cases hb : l.bitField? with
  | none =>
      refine ⟨1, by simp, fun x => ?_⟩
      rw [tree_compound_of_none hb] at hc
      rw [valueRun, tree_compound_of_none hb]
      cases cls with
      | aggregate byAddress =>
          cases byAddress with
          | true => simp at hc
          | false =>
              simp [valueRun, placeRun, Tree.bitField?, List.count_append]
      | flonum | scalar =>
          simp [valueRun, placeRun, Tree.bitField?, List.count_append]
  | some m =>
      have hl : l.valueRun choose = l.placeRun choose := by
        obtain ⟨a, rfl⟩ := bitField?_some hb
        rfl
      have ht : (compound id kind cls l r).tree = (assign id cls l (bin kind l r)).tree := tree_compound_of_some hb ..
      rw [ht] at hc
      obtain ⟨n, hn, h⟩ := copies_duplicated id kind cls r hl hc
      refine ⟨n, by simp; omega, ?_⟩
      rw [valueRun, ht]
      exact h

/-- Whatever the operand of `++l` is, it occurs twice in the tree. -/
theorem copies_preInc (id : Nat) (decrement : Bool) (cls : Class) {l : Expr} (hl : l.isLvalue = true)
    (hc : (gen (preInc id decrement cls l).tree).compiles) :
    ∃ n, 2 ≤ n ∧ Copies n ((preInc id decrement cls l).valueRun choose) (l.placeRun choose) [id] :=
  copies_duplicated id (if decrement then .sub else .add) cls leaf (valueRun_lvalue hl) hc

end Assignments

theorem mem_genAssign {id : Option Nat} {cls : Class} {l r : Tree} {la ra rv : Code} {x : Nat}
    (h : x ∈ (genAssign id cls l r la ra rv).exec choose) :
    x ∈ la.exec choose ∨ x ∈ ra.exec choose ∨ x ∈ rv.exec choose ∨ id = some x := by
  have hs : x ∈ (store id).exec choose → id = some x := by
    cases id with
    | none => intro h; simp [store] at h
    | some id => intro h; simpa [store, eq_comm] using h
  unfold genAssign at h
  split at h
  · split at h <;> simp only [exec_seq, List.mem_append] at h <;> tauto
  · simp only [exec_seq, List.mem_append] at h
    tauto
  · split at h
    · split at h <;> simp only [exec_seq, List.mem_append] at h <;> tauto
    · simp only [exec_seq, List.mem_append] at h
      tauto

/-- The code does nothing that the expression does not say. -/
theorem runs_subset (e : Expr) :
    e.valueRun choose ⊆ e.effects choose ∧ e.placeRun choose ⊆ e.effects choose := by
  induction e with
  | leaf => exact ⟨List.Subset.refl _, List.Subset.refl _⟩
  | call id aggregate callee args ihc iha =>
      have h : (call id aggregate callee args).valueRun choose ⊆ (call id aggregate callee args).effects choose :=
        append_subset_append ihc.1 (append_subset_append iha.1 (List.Subset.refl _))
      refine ⟨h, ?_⟩
      cases aggregate with
      | true => exact h
      | false => exact List.nil_subset _
  | arg byAddress e next ihe ihn =>
      refine ⟨?_, List.nil_subset _⟩
      rw [valueRun_arg]
      refine append_subset_append ?_ ihn.1
      split
      · exact ihe.2
      · exact ihe.1
  | un e ih => exact ⟨ih.1, List.nil_subset _⟩
  | cast aggregate e ih =>
      refine ⟨ih.1, ?_⟩
      cases aggregate with
      | true => exact ih.2
      | false => exact List.nil_subset _
  | bin kind l r ihl ihr => exact ⟨append_subset_append ihl.1 ihr.1, List.nil_subset _⟩
  | logical id l r ihl ihr =>
      refine ⟨append_subset_append ihl.1 ?_, List.nil_subset _⟩
      simp only [exec_branch, exec_none]
      split
      · exact ihr.1
      · exact List.nil_subset _
  | cond id c t e ihc iht ihe =>
      rw [valueRun_cond, placeRun_cond, effects]
      constructor <;> refine append_subset_append ihc.1 ?_ <;> split
      · exact iht.1
      · exact ihe.1
      · exact iht.2
      · exact ihe.2
  | comma l r ihl ihr => exact ⟨append_subset_append ihl.1 ihr.1, append_subset_append ihl.1 ihr.2⟩
  | addr e ih => exact ⟨ih.2, List.nil_subset _⟩
  | deref e ih => exact ⟨ih.1, ih.1⟩
  | member e m bitField ih => exact ⟨ih.2, ih.2⟩
  | assign id cls l r ihl ihr =>
      simp only [effects, List.subset_def, List.mem_append, List.mem_singleton]
      refine ⟨fun {x} hx => ?_, fun {x} hx => .inl (ihl.2 hx)⟩
      obtain h | h | h | h := mem_genAssign hx
      · exact .inl (ihl.2 h)
      · exact .inr (.inl (ihr.2 h))
      · exact .inr (.inl (ihr.1 h))
      · exact .inr (.inr (Option.some.inj h).symm)
  | compound id kind cls l r ihl ihr =>
      simp only [effects, List.subset_def, List.mem_append, List.mem_singleton]
      cases hb : l.bitField? with
      | none =>
          rw [valueRun_compound_of_none hb, placeRun_compound_of_none hb]
          refine ⟨fun {x} hx => ?_, fun {x} hx => .inl (ihl.2 hx)⟩
          refine (List.mem_append.1 hx).imp (fun h => ihl.2 h) fun hx => ?_
          simp only [storeRun, gen, genAddr] at hx
          obtain h | h | h | h := mem_genAssign hx
          · simp at h
          · simp at h
          · simp only [exec_seq, exec_none, List.nil_append] at h
            exact .inl (ihr.1 h)
          · exact .inr (Option.some.inj h).symm
      | some m =>
          rw [valueRun, placeRun, tree_compound_of_some hb]
          refine ⟨fun {x} hx => ?_, fun {x} hx => .inl (ihl.2 hx)⟩
          obtain h | h | h | h := mem_genAssign hx
          · exact .inl (ihl.2 h)
          · simp [genAddr] at h
          · simp only [gen, exec_seq, List.mem_append] at h
            exact h.imp (fun h => ihl.1 h) fun h => .inl (ihr.1 h)
          · exact .inr (.inr (Option.some.inj h).symm)
  | preInc id decrement cls l ih =>
      simp only [effects, List.subset_def, List.mem_append, List.mem_singleton]
      refine ⟨fun {x} hx => ?_, fun {x} hx => .inl (ih.2 hx)⟩
      obtain h | h | h | h := mem_genAssign hx
      · exact .inl (ih.2 h)
      · simp [genAddr] at h
      · simp only [gen, exec_seq, exec_none, List.append_nil] at h
        exact .inl (ih.1 h)
      · exact .inr (Option.some.inj h).symm
  | postInc id l ih => exact ⟨append_subset_append ih.2 (List.Subset.refl _), List.nil_subset _⟩
  | stmtExpr body result ihb ihr =>
      exact ⟨append_subset_append ihb.1 ihr.1,
        append_subset_append ihb.1 (List.append_subset.2 ⟨ihr.1, ihr.2⟩)⟩

/-! ### The address of the value of a statement expression -/

theorem placeRun_subset (e : Expr) : e.placeRun choose ⊆ e.placeEffects choose := by
  induction e with
  | leaf => exact List.nil_subset _
  | call id aggregate callee args => exact (runs_subset (call id aggregate callee args)).2
  | cast aggregate e ih =>
      cases aggregate with
      | true => exact ih
      | false => exact List.nil_subset _
  | cond id c t e ihc iht ihe =>
      rw [placeRun_cond, placeEffects]
      refine append_subset_append (runs_subset c).1 ?_
      split
      · exact iht
      · exact ihe
  | comma l r ihl ihr => exact append_subset_append (runs_subset l).1 ihr
  | deref e _ => exact (runs_subset e).1
  | member e m bitField _ => exact (runs_subset e).2
  | assign id cls l r _ _ => exact (runs_subset l).2
  | preInc id decrement cls l _ => exact (runs_subset l).2
  | compound id kind cls l r _ _ =>
      cases hb : l.bitField? with
      | none =>
          rw [placeRun_compound_of_none hb]
          exact (runs_subset l).2
      | some m =>
          rw [placeRun, tree_compound_of_some hb]
          exact (runs_subset l).2
  | stmtExpr body result _ _ => exact (runs_subset (stmtExpr body result)).2
  | arg | un | bin | logical | addr | postInc => exact List.nil_subset _

theorem placeRun_assign_subset (id : Nat) (cls : Class) (l r : Expr) :
    (assign id cls l r).placeRun choose ⊆ (assign id cls l r).valueRun choose := by
  intro x hx
  have h := @copies_assign choose id cls l r x
  have hpos : 0 < (l.placeRun choose).count x := List.count_pos_iff.2 hx
  refine List.count_pos_iff.1 ?_
  rw [h]
  split <;> omega

/-- The code for the address does nothing that the code for the value does not do. -/
theorem placeRun_subset_valueRun (e : Expr) : e.placeRun choose ⊆ e.valueRun choose := by
  induction e with
  | call id aggregate callee args =>
      cases aggregate with
      | true => exact List.Subset.refl _
      | false => exact List.nil_subset _
  | cast aggregate e ih =>
      cases aggregate with
      | true => exact ih
      | false => exact List.nil_subset _
  | cond id c t e ihc iht ihe =>
      rw [placeRun_cond, valueRun_cond]
      refine append_subset_append (List.Subset.refl _) ?_
      split
      · exact iht
      · exact ihe
  | comma l r ihl ihr => exact append_subset_append (List.Subset.refl _) ihr
  | assign id cls l r => exact placeRun_assign_subset id cls l r
  | preInc id decrement cls l =>
      exact placeRun_assign_subset id cls l (bin (if decrement then .sub else .add) l leaf)
  | compound id kind cls l r =>
      cases hb : l.bitField? with
      | none =>
          rw [placeRun_compound_of_none hb, valueRun_compound_of_none hb]
          exact List.subset_append_left _ _
      | some m =>
          rw [placeRun, valueRun, tree_compound_of_some hb]
          exact placeRun_assign_subset id cls l (bin kind l r)
  | stmtExpr body result ihb ihr =>
      exact append_subset_append (List.Subset.refl _) (List.append_subset.2 ⟨List.Subset.refl _, ihr⟩)
  | leaf | deref | member => exact List.Subset.refl _
  | arg | un | bin | logical | addr | postInc => exact List.nil_subset _

theorem rightRun_subset (cls : Class) (r : Expr) : rightRun choose cls r ⊆ r.effects choose := by
  unfold rightRun
  split
  · exact (runs_subset r).2
  · exact (runs_subset r).1

theorem assign_perm_iff {id : Nat} {cls : Class} {l r : Expr} (hd : ((assign id cls l r).effects choose).Nodup) :
    ((assign id cls l r).valueRun choose).Perm ((assign id cls l r).effects choose) ↔
      (if addressedOnce cls l r then (l.placeRun choose).Perm (l.effects choose) else l.effects choose = []) ∧
        (rightRun choose cls r).Perm (r.effects choose) := by
  rw [effects, (copies_assign id cls l r).perm_iff (runs_subset l).2
    (append_subset_append (rightRun_subset cls r) (List.Subset.refl [id])) hd, perm_append_singleton_iff]
  by_cases h : addressedOnce cls l r = true <;> simp [h]

theorem compound_perm_iff {id : Nat} {kind : BinKind} {cls : Class} {l r : Expr}
    (hd : ((compound id kind cls l r).effects choose).Nodup) (hc : (gen (compound id kind cls l r).tree).compiles) :
    ((compound id kind cls l r).valueRun choose).Perm ((compound id kind cls l r).effects choose) ↔
      (if l.bitField?.isNone then (l.placeRun choose).Perm (l.effects choose) else l.effects choose = []) ∧
        (r.valueRun choose).Perm (r.effects choose) := by
  obtain ⟨n, h1, h⟩ := @copies_compound choose id kind cls l r hc
  rw [effects, h.perm_iff (runs_subset l).2
    (append_subset_append (runs_subset r).1 (List.Subset.refl [id])) hd, perm_append_singleton_iff]
  by_cases hb : l.bitField?.isNone = true
  · simp [h1.2 hb, hb]
  · simp [h1, hb]

theorem preInc_perm_iff {id : Nat} {decrement : Bool} {cls : Class} {l : Expr}
    (hd : ((preInc id decrement cls l).effects choose).Nodup) (hl : l.isLvalue = true)
    (hc : (gen (preInc id decrement cls l).tree).compiles) :
    ((preInc id decrement cls l).valueRun choose).Perm ((preInc id decrement cls l).effects choose) ↔
      l.effects choose = [] := by
  obtain ⟨n, hn, h⟩ := @copies_preInc choose id decrement cls l hl hc
  rw [effects, h.perm_iff (runs_subset l).2 (List.Subset.refl [id]) hd, if_neg (by omega)]
  simp

theorem postInc_perm_iff {id : Nat} {l : Expr} :
    ((postInc id l).valueRun choose).Perm ((postInc id l).effects choose) ↔
      (l.placeRun choose).Perm (l.effects choose) :=
  perm_append_singleton_iff

/-- If a value is computed right, computing its address does nothing exactly if there is nothing to do for its
place. -/
theorem placeRun_eq_nil_iff {e : Expr} (hf : e.Formed) (hd : (e.effects choose).Nodup) (hg : (gen e.tree).compiles)
    (hc : (genAddr e.tree).compiles) (hv : (e.valueRun choose).Perm (e.effects choose)) :
    e.placeRun choose = [] ↔ e.placeEffects choose = [] := by
  refine ⟨fun hp => ?_, fun h => List.subset_nil.1 (h ▸ placeRun_subset e)⟩
  induction e with
  | leaf => rfl
  | call id aggregate callee args =>
      cases aggregate with
      | true => simp [placeRun, tree, genAddr] at hp
      | false => simp [tree, genAddr] at hc
  | cast aggregate e ih =>
      cases aggregate with
      | true => exact ih hf hd hg hc hv hp
      | false => simp [tree, genAddr] at hc
  | deref e ih =>
      have hp : e.valueRun choose = [] := hp
      have hv : (e.valueRun choose).Perm (e.effects choose) := hv
      exact (hp ▸ hv).nil_eq.symm
  | member e m bitField ih =>
      have hp : e.placeRun choose = [] := hp
      have hv : (e.placeRun choose).Perm (e.effects choose) := hv
      exact (hp ▸ hv).nil_eq.symm
  | cond id c t e ihc iht ihe =>
      simp only [valueRun_cond, effects] at hv hd
      simp only [placeRun_cond, List.append_eq_nil_iff] at hp
      obtain ⟨hpc, hp⟩ := hp
      simp only [placeEffects, List.append_eq_nil_iff]
      split at hp
      · next hch =>
          simp only [hch, if_true] at hv hd ⊢
          rw [perm_append_iff (runs_subset c).1 (runs_subset t).1 hd] at hv
          exact ⟨(hpc ▸ hv.1).nil_eq.symm, iht hf.2.1 (List.nodup_append.1 hd).2.1 hg.2.1 hc.2.1 hv.2 hp⟩
      · next hch =>
          simp only [hch, Bool.false_eq_true, if_false] at hv hd ⊢
          rw [perm_append_iff (runs_subset c).1 (runs_subset e).1 hd] at hv
          exact ⟨(hpc ▸ hv.1).nil_eq.symm, ihe hf.2.2 (List.nodup_append.1 hd).2.1 hg.2.2 hc.2.2 hv.2 hp⟩
  | comma l r ihl ihr =>
      simp only [valueRun_comma, effects] at hv hd
      simp only [placeRun_comma, List.append_eq_nil_iff] at hp
      rw [perm_append_iff (runs_subset l).1 (runs_subset r).1 hd] at hv
      simp only [placeEffects, List.append_eq_nil_iff]
      exact ⟨(hp.1 ▸ hv.1).nil_eq.symm, ihr hf.2 (List.nodup_append.1 hd).2.1 hg.2 hc.2 hv.2 hp.2⟩
  | assign id cls l r =>
      have h := ((assign_perm_iff hd).1 hv).1
      rw [placeRun_assign] at hp
      split at h
      · exact (hp ▸ h).nil_eq.symm
      · exact h
  | preInc id decrement cls l => exact (preInc_perm_iff hd hf.1 hg).1 hv
  | compound id kind cls l r =>
      have h := ((compound_perm_iff hd hg).1 hv).1
      split at h
      · next hb =>
          rw [placeRun_compound_of_none (by simpa using hb)] at hp
          exact (hp ▸ h).nil_eq.symm
      · exact h
  | stmtExpr body result =>
      simp only [placeRun_stmtExpr, List.append_eq_nil_iff] at hp
      rw [valueRun_stmtExpr, hp.1, hp.2.1] at hv
      exact hv.nil_eq.symm
  | arg | un | bin | logical | addr | postInc => simp [tree, genAddr] at hc

/-! ## When nothing is evaluated twice -/

theorem compiles_genAssign {id : Option Nat} {cls : Class} {l r : Tree} {la ra rv : Code} :
    (genAssign id cls l r la ra rv).compiles ↔
      la.compiles ∧ (if cls = .aggregate true then ra.compiles else rv.compiles) := by
  have hs : (store id).compiles := by cases id <;> trivial
  cases cls with
  | aggregate byAddress => cases byAddress <;> simp [genAssign, hs]
  | flonum => simp [genAssign, hs, and_comm]
  | scalar =>
      unfold genAssign
      cases l.bitField? with
      | none => simp [hs]
      | some m => by_cases hr : r.rhsReadsSame m = true <;> simp [hs, hr, and_comm]

/-- In C the value of an assignment is no object. The code takes the address of its left operand, and stores
nothing. -/
theorem not_perm_of_unstored {id : Nat} {p e f : List Nat} (hp : p ⊆ e) (hd : (e ++ f).Nodup) (hid : id ∈ f) :
    ¬ p.Perm (e ++ f) := by
  intro h
  have hm : id ∈ p := h.mem_iff.2 (List.mem_append_right e hid)
  exact (List.nodup_append.1 hd).2.2 id (hp hm) id hid rfl

theorem compiles_compound {id : Nat} {kind : BinKind} {cls : Class} {l r : Expr}
    (hc : (gen (compound id kind cls l r).tree).compiles) :
    (l.bitField?.isNone = true → (genAddr l.tree).compiles) ∧ (gen r.tree).compiles := by
  cases hb : l.bitField? with
  | none =>
      rw [tree_compound_of_none hb] at hc
      simp only [gen, genAddr, compiles_seq, compiles_genAssign] at hc
      simp only [reduceCtorEq, if_false] at hc
      refine ⟨fun _ => hc.1.2, ?_⟩
      split at hc
      · exact absurd hc.2.2 compiles_fails
      · exact hc.2.2.2
  | some m =>
      rw [tree_compound_of_some hb] at hc
      simp only [gen, genAddr, compiles_genAssign, compiles_seq] at hc
      refine ⟨fun _ => hc.1, ?_⟩
      split at hc
      · exact absurd hc.2 compiles_fails
      · exact hc.2.2

theorem runs_iff (e : Expr) (hf : e.Formed) (hd : (e.effects choose).Nodup) :
    ((gen e.tree).compiles → ((e.valueRun choose).Perm (e.effects choose) ↔ e.Once choose)) ∧
      ((genAddr e.tree).compiles → ((e.placeRun choose).Perm (e.effects choose) ↔ e.AddressOnce choose)) := by
  induction e with
  | leaf => exact ⟨fun _ => by simp [valueRun, tree, gen],
      fun _ => by simp [placeRun, tree, genAddr]⟩
  | call id aggregate callee args ihc iha =>
      have hdc := List.nodup_append.1 hd
      have hda := List.nodup_append.1 hdc.2.1
      have h : (gen callee.tree).compiles → (gen args.tree).compiles →
          (((call id aggregate callee args).valueRun choose).Perm ((call id aggregate callee args).effects choose) ↔
            callee.Once choose ∧ args.Once choose) := by
        intro hcc hca
        rw [valueRun_call, effects, perm_append_iff (runs_subset callee).1
          (append_subset_append (runs_subset args).1 (List.Subset.refl [id])) hd, perm_append_singleton_iff,
          (ihc hf.1 hdc.1).1 hcc, (iha hf.2 hda.1).1 hca]
      refine ⟨fun hc => h hc.1 hc.2.1, fun hc => ?_⟩
      cases aggregate with
      | true => exact h hc.1 hc.2.1
      | false => exact absurd hc compiles_fails
  | arg byAddress e next ihe ihn =>
      have hde := List.nodup_append.1 hd
      refine ⟨fun hc => ?_, fun hc => absurd hc compiles_fails⟩
      cases byAddress with
      | true =>
          rw [valueRun_arg, effects, Once]
          simp only [if_true]
          rw [perm_append_iff (runs_subset e).2 (runs_subset next).1 hd, (ihe hf.1 hde.1).2 hc.1,
            (ihn hf.2 hde.2.1).1 hc.2]
      | false =>
          rw [valueRun_arg, effects, Once]
          simp only [Bool.false_eq_true, if_false]
          rw [perm_append_iff (runs_subset e).1 (runs_subset next).1 hd, (ihe hf.1 hde.1).1 hc.1,
            (ihn hf.2 hde.2.1).1 hc.2]
  | un e ih => exact ⟨(ih hf hd).1, fun hc => absurd hc compiles_fails⟩
  | cast aggregate e ih =>
      refine ⟨(ih hf hd).1, fun hc => ?_⟩
      cases aggregate with
      | true => exact (ih hf hd).2 hc
      | false => exact absurd hc compiles_fails
  | bin kind l r ihl ihr =>
      have hdl := List.nodup_append.1 hd
      refine ⟨fun hc => ?_, fun hc => absurd hc compiles_fails⟩
      rw [valueRun_bin, effects, Once, perm_append_iff (runs_subset l).1 (runs_subset r).1 hd,
        (ihl hf.1 hdl.1).1 hc.1, (ihr hf.2 hdl.2.1).1 hc.2]
  | logical id l r ihl ihr =>
      refine ⟨fun hc => ?_, fun hc => absurd hc compiles_fails⟩
      simp only [valueRun_logical, effects, Once] at hd ⊢
      have hdl := List.nodup_append.1 hd
      by_cases hch : choose id = true
      · simp only [hch, if_true, forall_const] at hd hdl ⊢
        rw [perm_append_iff (runs_subset l).1 (runs_subset r).1 hd, (ihl hf.1 hdl.1).1 hc.1,
          (ihr hf.2 hdl.2.1).1 hc.2.1]
      · simp only [hch, Bool.false_eq_true, if_false, List.append_nil, false_implies, and_true] at hd ⊢
        exact (ihl hf.1 hdl.1).1 hc.1
  | cond id c t e ihc iht ihe =>
      simp only [valueRun_cond, placeRun_cond, effects, Once, AddressOnce] at hd ⊢
      have hdc := List.nodup_append.1 hd
      by_cases hch : choose id = true
      · simp only [hch, if_true] at hd hdc ⊢
        refine ⟨fun hc => ?_, fun hc => ?_⟩
        · rw [perm_append_iff (runs_subset c).1 (runs_subset t).1 hd, (ihc hf.1 hdc.1).1 hc.1,
            (iht hf.2.1 hdc.2.1).1 hc.2.1]
        · rw [perm_append_iff (runs_subset c).1 (runs_subset t).2 hd, (ihc hf.1 hdc.1).1 hc.1,
            (iht hf.2.1 hdc.2.1).2 hc.2.1]
      · simp only [hch, Bool.false_eq_true, if_false] at hd hdc ⊢
        refine ⟨fun hc => ?_, fun hc => ?_⟩
        · rw [perm_append_iff (runs_subset c).1 (runs_subset e).1 hd, (ihc hf.1 hdc.1).1 hc.1,
            (ihe hf.2.2 hdc.2.1).1 hc.2.2]
        · rw [perm_append_iff (runs_subset c).1 (runs_subset e).2 hd, (ihc hf.1 hdc.1).1 hc.1,
            (ihe hf.2.2 hdc.2.1).2 hc.2.2]
  | comma l r ihl ihr =>
      have hdl := List.nodup_append.1 hd
      simp only [valueRun_comma, placeRun_comma, effects, Once, AddressOnce]
      refine ⟨fun hc => ?_, fun hc => ?_⟩
      · rw [perm_append_iff (runs_subset l).1 (runs_subset r).1 hd, (ihl hf.1 hdl.1).1 hc.1,
          (ihr hf.2 hdl.2.1).1 hc.2]
      · rw [perm_append_iff (runs_subset l).1 (runs_subset r).2 hd, (ihl hf.1 hdl.1).1 hc.1,
          (ihr hf.2 hdl.2.1).2 hc.2]
  | addr e ih => exact ⟨(ih hf hd).2, fun hc => absurd hc compiles_fails⟩
  | deref e ih => exact ⟨(ih hf hd).1, (ih hf hd).1⟩
  | member e m bitField ih => exact ⟨(ih hf hd).2, (ih hf hd).2⟩
  | assign id cls l r ihl ihr =>
      have hdl := List.nodup_append.1 hd
      have hdr := (List.nodup_append.1 hdl.2.1).1
      refine ⟨fun hc => ?_, fun _ => ?_⟩
      · rw [tree, gen, compiles_genAssign] at hc
        rw [assign_perm_iff hd, (ihl hf.2.1 hdl.1).2 hc.1, Once, rightRun]
        obtain ⟨-, hc⟩ := hc
        split at hc
        · next h => rw [if_pos h, if_pos h, (ihr hf.2.2 hdr).2 hc]
        · next h => rw [if_neg h, if_neg h, (ihr hf.2.2 hdr).1 hc]
      · simp only [AddressOnce, iff_false]
        exact not_perm_of_unstored (runs_subset l).2 hd (List.mem_append_right _ (List.mem_singleton_self id))
  | compound id kind cls l r ihl ihr =>
      have hdl := List.nodup_append.1 hd
      have hdr := (List.nodup_append.1 hdl.2.1).1
      refine ⟨fun hc => ?_, fun _ => ?_⟩
      · obtain ⟨hcl, hcr⟩ := compiles_compound hc
        rw [compound_perm_iff hd hc, Once, (ihr hf.2.2 hdr).1 hcr]
        split
        · next hb => rw [(ihl hf.2.1 hdl.1).2 (hcl hb)]
        · rfl
      · simp only [AddressOnce, iff_false]
        have hp : (compound id kind cls l r).placeRun choose ⊆ l.effects choose := placeRun_subset _
        exact not_perm_of_unstored hp hd (List.mem_append_right _ (List.mem_singleton_self id))
  | preInc id decrement cls l ih =>
      refine ⟨fun hc => preInc_perm_iff hd hf.1 hc, fun _ => ?_⟩
      simp only [AddressOnce, iff_false]
      exact not_perm_of_unstored (runs_subset l).2 hd (List.mem_singleton_self id)
  | postInc id l ih =>
      refine ⟨fun hc => ?_, fun hc => absurd hc compiles_fails⟩
      rw [postInc_perm_iff, Once, (ih hf.2 (List.nodup_append.1 hd).1).2 hc.1]
  | stmtExpr body result ihb ihr =>
      have hdb := List.nodup_append.1 hd
      refine ⟨fun hc => ?_, fun hc => ?_⟩
      · rw [valueRun_stmtExpr, effects, Once, perm_append_iff (runs_subset body).1 (runs_subset result).1 hd,
          (ihb hf.1 hdb.1).1 hc.1, (ihr hf.2 hdb.2.1).1 hc.2]
      · rw [placeRun_stmtExpr, effects, AddressOnce, perm_append_iff (runs_subset body).1
          (List.append_subset.2 (runs_subset result)) hd, (ihb hf.1 hdb.1).1 hc.1,
          perm_again_iff hdb.2.1 (runs_subset result).1 (placeRun_subset_valueRun result),
          ← (ihr hf.2 hdb.2.1).1 hc.2.1]
        refine and_congr_right fun _ => and_congr_right fun hv => ?_
        exact placeRun_eq_nil_iff hf.2 hdb.2.1 hc.2.1 hc.2.2 hv

theorem effects_sublist (e : Expr) : (e.effects choose).Sublist e.ids := by
  induction e with
  | leaf => exact List.Sublist.refl _
  | call id aggregate callee args ihc iha => exact ihc.append (iha.append (List.Sublist.refl _))
  | assign id cls l r ihl ihr => exact ihl.append (ihr.append (List.Sublist.refl _))
  | compound id kind cls l r ihl ihr => exact ihl.append (ihr.append (List.Sublist.refl _))
  | arg byAddress e next ihe ihn => exact ihe.append ihn
  | bin kind l r ihl ihr => exact ihl.append ihr
  | comma l r ihl ihr => exact ihl.append ihr
  | stmtExpr body result ihb ihr => exact ihb.append ihr
  | un e ih | cast aggregate e ih | addr e ih | deref e ih | member e m bitField ih => exact ih
  | preInc id decrement cls l ih => exact ih.append (List.Sublist.refl _)
  | postInc id l ih => exact ih.append (List.Sublist.refl _)
  | logical id l r ihl ihr =>
      refine ihl.append ?_
      split
      · exact ihr
      · exact List.nil_sublist _
  | cond id c t e ihc iht ihe =>
      refine ihc.append ?_
      split
      · exact iht.trans (List.sublist_append_left _ _)
      · exact ihe.trans (List.sublist_append_right _ _)

/-- What belongs to the left operand is in no other. -/
theorem left_count_iff {n : Nat} {v q f : List Nat} {l : Expr} (hv : Copies n v (l.placeRun choose) q)
    (hq : q ⊆ f) (hd : (l.ids ++ f).Nodup) :
    (∀ id ∈ l.ids, v.count id = (l.effects choose).count id) ↔
      if n = 1 then (l.placeRun choose).Perm (l.effects choose) else l.effects choose = [] := by
  obtain ⟨hl, -, hlf⟩ := List.nodup_append.1 hd
  exact hv.left_iff (runs_subset l).2 (effects_sublist l).subset (fun x hx h => hlf x hx x (hq h) rfl)
    ((effects_sublist l).nodup hl)

theorem placeRun_perm_iff {l : Expr} {f : List Nat} (hf : l.Formed) (hd : (l.ids ++ f).Nodup)
    (hc : (genAddr l.tree).compiles) : (l.placeRun choose).Perm (l.effects choose) ↔ l.AddressOnce choose :=
  (runs_iff l hf ((effects_sublist l).nodup (List.nodup_append.1 hd).1)).2 hc

end Runs

end Rcc.Lvalues

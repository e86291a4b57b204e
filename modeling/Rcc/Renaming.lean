import Rcc.Parser

/-!
# The names of a program

`new_num` finds the type of a number by its value and by the letters that its token ends
with. That is how an integer constant is written; but the parser has it make the number
of an enumeration constant too, from the token of the name. So the type of such a number
is that of a constant with the suffix that the name happens to have.

A renaming changes the identifiers of a program and the names that are declared, and keeps
them apart. The parser does the same with the renamed tokens, step by step, as long as each
enumeration constant has the type that it had; and if one has not, the expression that is
its name has another type.
-/

namespace Rcc

/-! ## Trees with other variables -/

/-- A tree with other variables. -/
def Node.mapVars {τ : Type} (g : LVar → LVar) : Node τ → Node τ
  | .null => .null
  | .link node next => .link (node.mapVars g) (next.mapVars g)
  | .num val ty => .num val ty
  | .fnum ty => .fnum ty
  | .str id => .str id
  | .lvar var => .lvar (g var)
  | .bin kind lhs rhs ty => .bin kind (lhs.mapVars g) (rhs.mapVars g) ty
  | .un kind lhs ty => .un kind (lhs.mapVars g) ty
  | .cast lhs ty => .cast (lhs.mapVars g) ty
  | .cond c then_ els ty => .cond (c.mapVars g) (then_.mapVars g) (els.mapVars g) ty
  | .member lhs m ty => .member (lhs.mapVars g) m ty
  | .funcall funcname args ty => .funcall funcname (args.mapVars g) ty
  | .ret lhs => .ret (lhs.mapVars g)
  | .ifStmt c then_ els => .ifStmt (c.mapVars g) (then_.mapVars g) (els.mapVars g)
  | .block body => .block (body.mapVars g)
  | .exprStmt lhs => .exprStmt (lhs.mapVars g)
  | .other kids => .other (kids.mapVars g)

section Typing

variable {g : LVar → LVar} {σ τ : Type}

theorem map_mapVars (f : σ → τ) (n : Node σ) : (n.mapVars g).map f = (n.map f).mapVars g := by
  induction n with
  | null => rfl
  | link node next ihn iht => simp only [Node.mapVars, Node.map, ihn, iht]
  | num val ty => rfl
  | fnum ty => rfl
  | str id => rfl
  | lvar var => rfl
  | bin kind lhs rhs ty ihl ihr => simp only [Node.mapVars, Node.map, ihl, ihr]
  | un kind lhs ty ih => simp only [Node.mapVars, Node.map, ih]
  | cast lhs ty ih => simp only [Node.mapVars, Node.map, ih]
  | cond c then_ els ty ihc iht ihe => simp only [Node.mapVars, Node.map, ihc, iht, ihe]
  | member lhs m ty ih => simp only [Node.mapVars, Node.map, ih]
  | funcall funcname args ty ih => simp only [Node.mapVars, Node.map, ih]
  | ret lhs ih => simp only [Node.mapVars, Node.map, ih]
  | ifStmt c then_ els ihc iht ihe => simp only [Node.mapVars, Node.map, ihc, iht, ihe]
  | block body ih => simp only [Node.mapVars, Node.map, ih]
  | exprStmt lhs ih => simp only [Node.mapVars, Node.map, ih]
  | other kids ih => simp only [Node.mapVars, Node.map, ih]

variable (hg : ∀ var, (g var).ty = var.ty)

include hg

theorem ty_mapVars (n : Node Ty) : (n.mapVars g).ty = n.ty := by
  cases n with
  | lvar var => exact hg var
  | null | link | num | fnum | str | bin | un | cast | cond | member | funcall | ret | ifStmt | block | exprStmt | other => rfl

omit hg in
theorem isZeroNum_mapVars (n : Node τ) : isZeroNum (n.mapVars g) = isZeroNum n := by
  cases n with
  | null | link | num | fnum | str | lvar | bin | un | cast | cond | member | funcall | ret | ifStmt | block | exprStmt
  | other => rfl

omit hg in
theorem isNullPtrConst_mapVars (n : Node τ) : isNullPtrConst (n.mapVars g) = isNullPtrConst n := by
  cases n with
  | cast inner ty =>
      cases ty with
      | ptr base q => exact congrArg (base.isVoid && base.qual == 0 && ·) (isZeroNum_mapVars inner)
      | void | bool | integer | flonum | array | vla | func | struct => rfl
  | null | link | num | fnum | str | lvar | bin | un | cond | member | funcall | ret | ifStmt | block | exprStmt | other => rfl

theorem castOperand_mapVars (ty : Ty) (n : Node Ty) : castOperand ty (n.mapVars g) = (castOperand ty n).mapVars g := by
  rw [castOperand, castOperand, ty_mapVars hg]
  split
  · split
    · rfl
    · rfl
  split
  · split
    · rfl
    · rfl
  · rfl

theorem arithNode_mapVars (kind : BinKind) (l r : Node Ty) (common ty : Ty) :
    arithNode kind (l.mapVars g) (r.mapVars g) common ty = (arithNode kind l r common ty).mapVars g := by
  rw [arithNode, arithNode, castOperand_mapVars hg, castOperand_mapVars hg]
  rfl

omit hg in
theorem scaleIndex_mapVars (n : Node Ty) (size : Nat) : scaleIndex (n.mapVars g) size = (scaleIndex n size).mapVars g := by
  rfl

theorem typeAddSub_mapVars (kind : BinKind) (l r : Node Ty) :
    typeAddSub kind (l.mapVars g) (r.mapVars g) = (typeAddSub kind l r).mapVars g := by
  rw [typeAddSub, typeAddSub]
  simp only [ty_mapVars hg]
  split
  · exact arithNode_mapVars hg _ _ _ _ _
  · cases l.ty.base? with
    | some lbase =>
        dsimp only
        split
        · rfl
        · rfl
    | none =>
        cases r.ty.base? with
        | none => rfl
        | some rbase =>
            dsimp only
            split
            · split
              · rfl
              · rfl
            · rfl

theorem typeBin_mapVars (kind : BinKind) (l r : Node Ty) :
    typeBin kind (l.mapVars g) (r.mapVars g) = (typeBin kind l r).mapVars g := by
  have hmul : typeMul kind (l.mapVars g) (r.mapVars g) = (typeMul kind l r).mapVars g := by
    rw [typeMul, typeMul, ty_mapVars hg, ty_mapVars hg]
    exact arithNode_mapVars hg _ _ _ _ _
  have hcompare : typeCompare kind (l.mapVars g) (r.mapVars g) = (typeCompare kind l r).mapVars g := by
    rw [typeCompare, typeCompare, ty_mapVars hg, ty_mapVars hg]
    split
    · exact arithNode_mapVars hg _ _ _ _ _
    · rfl
  have hassign : typeAssign (l.mapVars g) (r.mapVars g) = (typeAssign l r).mapVars g := by
    simp only [typeAssign, ty_mapVars hg, Node.mapVars]
    split
    · rfl
    · rfl
  have haddSub := typeAddSub_mapVars hg kind l r
  cases kind with
  | add | sub => exact haddSub
  | mul | div | mod | bitand | bitxor | bitor => exact hmul
  | eq | ne | lt | le => exact hcompare
  | assign => exact hassign
  | shl | shr => simp only [typeBin, ty_mapVars hg, Node.mapVars]
  | logand | logor => rfl
  | comma => simp only [typeBin, ty_mapVars hg, Node.mapVars]

theorem typeUn_mapVars (kind : UnKind) (l : Node Ty) : typeUn kind (l.mapVars g) = (typeUn kind l).map (Node.mapVars g) := by
  cases kind with
  | neg | bitnot | addr | postInc | postDec => simp only [typeUn, ty_mapVars hg, Option.map_some, Node.mapVars]
  | not | sizeof => rfl
  | deref =>
      rw [typeUn, typeUn, ty_mapVars hg]
      cases l.ty.base? with
      | none => rfl
      | some base => rfl

theorem condType_mapVars (then_ els : Node Ty) : condType (then_.mapVars g) (els.mapVars g) = condType then_ els := by
  simp only [condType, ty_mapVars hg, isNullPtrConst_mapVars]

end Typing

namespace Parser

open Lexer

/-! ## Renaming -/

/-- The texts that the parser asks for. -/
def reserved : List String :=
  typeWords ++ (exprWords ++ (compoundAssignments ++ ["NULL", "(", ")", "[", "\x7b", ".", "->", "++", "--", "+", "-", "!", "~",
    "&", "*", "/", "%", "<<", ">>", "<", "<=", ">", ">=", "==", "!=", "^", "|", "&&", "||", ",", "?", ":", "="]))

/-- A text that begins as an identifier. -/
def identHead (w : Text) : Bool := headIs (fun c => isIdent1 c || 128 ≤ c.toNat) w

/-- Another text for each identifier that is no word of the language. -/
structure Renaming where
  map : Text → Text
  injective : Function.Injective map
  fixes : ∀ op ∈ reserved, map op.toList = op.toList
  other : ∀ w, identHead w = false → map w = w

namespace Renaming

variable (ρ : Renaming)

def name (x : String) : String := String.ofList (ρ.map x.toList)

def var (v : LVar) : LVar := { v with name := ρ.name v.name }

def names (s : Names) : Names where
  locals := s.locals.map ρ.var
  globals := s.globals.map ρ.var
  typedefs := s.typedefs.map fun td => { td with name := ρ.name td.name }
  enumConsts := s.enumConsts.map fun ec => { ec with name := ρ.name ec.name }

def kind : TokenKind → TokenKind
  | .ident w => .ident (ρ.map w)
  | k => k

def toks (tok : List Tok) : List Tok := tok.map fun t => (ρ.kind t.1, ρ.map t.2)

def result (r : Built × List Tok) : Built × List Tok := (r.1.mapVars ρ.var, ρ.toks r.2)

end Renaming

/-- The token of a number is not written as an identifier. -/
def Plain (tok : List Tok) : Prop := ∀ t ∈ tok, ∀ v, t.1 = .num v → identHead t.2 = false

/-- The trees of the expressions of a program are the same, but for the names of the variables. -/
def Unchanged (ρ : Renaming) (s : Names) : Prop :=
  ∀ n tok, Plain tok → expr (ρ.names s) n (ρ.toks tok) = (expr s n tok).map ρ.result

section Lookup

variable (ρ : Renaming)

theorem name_inj {x y : String} : ρ.name x = ρ.name y ↔ x = y := by
  rw [Renaming.name, Renaming.name, String.ofList_inj, ρ.injective.eq_iff, String.toList_inj]

theorem name_ofList (w : Text) : ρ.name (String.ofList w) = String.ofList (ρ.map w) := by
  rw [Renaming.name, String.toList_ofList]

theorem find_rename {α : Type} (nameOf : α → String) (f : α → α) (hf : ∀ a, nameOf (f a) = ρ.name (nameOf a)) (l : List α)
    (x : String) : (l.map f).find? (fun a => nameOf a = ρ.name x) = (l.find? fun a => nameOf a = x).map f := by
  rw [List.find?_map]
  refine congrArg (Option.map f) (congrArg (fun p => l.find? p) (funext fun a => ?_))
  show decide (nameOf (f a) = ρ.name x) = decide (nameOf a = x)
  rw [hf, decide_eq_decide]
  exact name_inj ρ

theorem findVar_rename (s : Names) (x : String) : (ρ.names s).findVar (ρ.name x) = (s.findVar x).map ρ.var := by
  have hfind : ∀ l : List LVar, (l.map ρ.var).find? (fun var => var.name = ρ.name x) =
      (l.find? fun var => var.name = x).map ρ.var :=
    fun l => find_rename ρ LVar.name ρ.var (fun _ => rfl) l x
  rw [Names.findVar, Names.findVar]
  show ((s.locals.map ρ.var).find? _).or ((s.globals.map ρ.var).find? _) = _
  rw [hfind, hfind, Option.map_or]

theorem findTypedef_rename (s : Names) (x : String) : ((ρ.names s).findTypedef (ρ.name x)).isSome = (s.findTypedef x).isSome := by
  have hfind := find_rename ρ Typedef.name (fun td => { td with name := ρ.name td.name }) (fun _ => rfl) s.typedefs x
  rw [Names.findTypedef, Names.findTypedef]
  show ((s.typedefs.map _).find? _).isSome = _
  rw [hfind, Option.isSome_map]

theorem findEnumConst_rename (s : Names) (x : String) : (ρ.names s).findEnumConst (ρ.name x) =
    (s.findEnumConst x).map fun ec => { ec with name := ρ.name ec.name } :=
  find_rename ρ EnumConst.name _ (fun _ => rfl) s.enumConsts x

end Lookup

section Tokens

variable {ρ : Renaming} {tok : List Tok} {op : String}

theorem equalc_toks (hop : op ∈ reserved) (tok : List Tok) : equalc (ρ.toks tok) op = equalc tok op := by
  cases tok with
  | nil => rfl
  | cons t tok =>
      show decide (ρ.map t.2 = op.toList) = decide (t.2 = op.toList)
      rw [decide_eq_decide, ← ρ.fixes op hop, ρ.injective.eq_iff, ρ.fixes op hop]

theorem any_equalc_toks {ops : List String} (hops : ∀ op ∈ ops, op ∈ reserved) (tok : List Tok) :
    ops.any (equalc (ρ.toks tok)) = ops.any (equalc tok) := by
  rw [Bool.eq_iff_iff, List.any_eq_true, List.any_eq_true]
  exact exists_congr fun op => and_congr_right fun hop => by rw [equalc_toks (hops op hop)]

theorem tail_toks (tok : List Tok) : (ρ.toks tok).tail = ρ.toks tok.tail := by
  rw [Renaming.toks, Renaming.toks, List.map_tail]

theorem skip_toks (hop : op ∈ reserved) (tok : List Tok) : skip (ρ.toks tok) op = (skip tok op).map ρ.toks := by
  rw [skip, skip, equalc_toks hop, tail_toks]
  split
  · rfl
  · rfl

theorem Plain.tail (h : Plain tok) : Plain tok.tail := fun t ht => h t (List.mem_of_mem_tail ht)

theorem Plain.skip {rest : List Tok} (h : Plain tok) (hskip : skip tok op = some rest) : Plain rest := by
  obtain ⟨_, hrest⟩ := Option.ite_none_right_eq_some.mp hskip
  obtain rfl := Option.some_inj.mp hrest
  exact h.tail

theorem isTypename_toks (s : Names) (tok : List Tok) : isTypename (ρ.names s) (ρ.toks tok) = isTypename s tok := by
  have hwords : ∀ op ∈ typeWords, op ∈ reserved := fun op hop => List.mem_append_left _ hop
  rw [isTypename.eq_def, isTypename.eq_def, any_equalc_toks hwords]
  refine congrArg (typeWords.any (equalc tok) || ·) ?_
  cases tok with
  | nil => rfl
  | cons t tok =>
      show ((ρ.names s).findTypedef (String.ofList (ρ.map t.2))).isSome = _
      rw [← name_ofList, findTypedef_rename]

end Tokens

/-! ## The parser -/

section Parse

variable {ρ : Renaming} {s : Names} {tok : List Tok}

/-- The results of a part of the parser on the renamed tokens and on the tokens. -/
structure SameResult (ρ : Renaming) (r' r : Option (Built × List Tok)) : Prop where
  eq : r' = r.map ρ.result
  plain : ∀ x, r = some x → Plain x.2

/-- A part of the parser for the renamed program, and that for the program. -/
def SameParse (ρ : Renaming) (p' p : Parse) : Prop := ∀ tok, Plain tok → SameResult ρ (p' (ρ.toks tok)) (p tok)

theorem SameResult.none : SameResult ρ none none := ⟨rfl, fun x h => absurd h.symm (Option.some_ne_none x)⟩

theorem SameResult.some {node : Built} (h : Plain tok) : SameResult ρ (some (node.mapVars ρ.var, ρ.toks tok)) (some (node, tok)) :=
  ⟨rfl, fun x hx => by
    obtain rfl := Option.some_inj.mp hx
    exact h⟩

theorem SameResult.bind {r' r : Option (Built × List Tok)} {f' f : Built × List Tok → Option (Built × List Tok)} (h : SameResult ρ r' r)
    (hf : ∀ x, Plain x.2 → SameResult ρ (f' (ρ.result x)) (f x)) : SameResult ρ (r'.bind f') (r.bind f) := by
  cases hr : r with
  | none =>
      rw [h.eq, hr]
      exact .none
  | some x =>
      rw [h.eq, hr]
      exact hf x (h.plain x hr)

theorem SameResult.ite {b : Bool} {r₁' r₁ r₂' r₂ : Option (Built × List Tok)} (h₁ : b = true → SameResult ρ r₁' r₁)
    (h₂ : SameResult ρ r₂' r₂) : SameResult ρ (if b then r₁' else r₂') (if b then r₁ else r₂) := by
  cases b with
  | true => exact h₁ rfl
  | false => exact h₂

theorem SameResult.map {r' r : Option (Built × List Tok)} (h : SameResult ρ r' r) (f' f : Built → Built)
    (hf : ∀ node, f' (node.mapVars ρ.var) = (f node).mapVars ρ.var) :
    SameResult ρ (r'.map fun x => (f' x.1, x.2)) (r.map fun x => (f x.1, x.2)) := by
  cases hr : r with
  | none =>
      rw [h.eq, hr]
      exact .none
  | some x =>
      rw [h.eq, hr]
      refine ⟨?_, fun y hy => ?_⟩
      · show Option.some (f' (x.1.mapVars ρ.var), ρ.toks x.2) = Option.some ((f x.1).mapVars ρ.var, ρ.toks x.2)
        rw [hf]
      · obtain rfl := Option.some_inj.mp hy
        exact h.plain x hr

/-- The types of a tree do not depend on the names of its variables. -/
theorem types_mapVars (node : Built) : Built.types (node.mapVars ρ.var) = (Built.types node).mapVars ρ.var :=
  map_mapVars _ node

theorem check_mapVars (node : Built) : check (node.mapVars ρ.var) = (check node).map (Node.mapVars ρ.var) := by
  have hty : ∀ var : LVar, (ρ.var var).ty = var.ty := fun _ => rfl
  induction node with
  | bin kind lhs rhs ty ihl ihr =>
      cases ty with
      | some ty => rfl
      | none =>
          rw [Node.mapVars, check, check, ihl, ihr]
          cases check lhs with
          | none => rfl
          | some l =>
              cases check rhs with
              | none => rfl
              | some r =>
                  show some ((typeBin kind (Built.types (l.mapVars ρ.var)) (Built.types (r.mapVars ρ.var))).map some) = _
                  rw [types_mapVars, types_mapVars, typeBin_mapVars hty, map_mapVars]
                  rfl
  | un kind lhs ty ih =>
      cases ty with
      | some ty => rfl
      | none =>
          rw [Node.mapVars, check, check, ih]
          cases check lhs with
          | none => rfl
          | some l =>
              show ((typeUn kind (Built.types (l.mapVars ρ.var))).bind fun n => some (n.map some)) =
                ((typeUn kind (Built.types l)).bind fun n => some (n.map some)).map _
              rw [types_mapVars, typeUn_mapVars hty]
              cases typeUn kind (Built.types l) with
              | none => rfl
              | some n => exact congrArg some (map_mapVars some n)
  | cond c then_ els ty ihc iht ihe =>
      cases ty with
      | some ty => rfl
      | none =>
          rw [Node.mapVars, check, check, ihc, iht, ihe]
          cases check c with
          | none => rfl
          | some c =>
              cases check then_ with
              | none => rfl
              | some t =>
                  cases check els with
                  | none => rfl
                  | some e =>
                      show some (Node.cond _ _ _ (some (condType (Built.types (t.mapVars ρ.var)) (Built.types (e.mapVars ρ.var))))) = _
                      rw [types_mapVars, types_mapVars, condType_mapVars hty]
                      rfl
  | null | link | num | fnum | str | lvar | cast | member | funcall | ret | ifStmt | block | exprStmt | other => rfl

/-- Each enumeration constant has the type that it had. -/
def Keeps (ρ : Renaming) (s : Names) : Prop :=
  ∀ x ec, s.findEnumConst x = some ec → numType ec.val (ρ.map x.toList) = numType ec.val x.toList

theorem reserved_of (ops : List String) (h : ops.all (reserved.contains ·) = true) : ∀ op ∈ ops, op ∈ reserved :=
  fun op hop => List.contains_iff_mem.mp (List.all_eq_true.mp h op hop)

theorem name_rename (hkeeps : Keeps ρ s) (text : Text) :
    name (ρ.names s) (ρ.map text) = (name s text).map (Node.mapVars ρ.var) := by
  have hnull : ρ.map "NULL".toList = "NULL".toList := ρ.fixes "NULL" (reserved_of ["NULL"] (by decide) "NULL" (List.mem_singleton_self _))
  rw [name, name, ← name_ofList, findEnumConst_rename, findVar_rename]
  cases henum : s.findEnumConst (String.ofList text) with
  | some ec =>
      have htype := hkeeps _ ec henum
      rw [String.toList_ofList] at htype
      show some (Node.num ec.val (numType ec.val (ρ.map text))) = some (Node.num ec.val (numType ec.val text))
      rw [htype]
  | none =>
      dsimp only [Option.map_none]
      have hiff : ρ.map text = "NULL".toList ↔ text = "NULL".toList := by
        rw [← hnull, ρ.injective.eq_iff, hnull]
      by_cases htext : text = "NULL".toList
      · rw [if_pos (hiff.mpr htext), if_pos htext, hiff.mpr htext, htext]
        rfl
      · rw [if_neg fun h => htext (hiff.mp h), if_neg htext]
        cases s.findVar (String.ofList text) with
        | none => rfl
        | some var => rfl

theorem postfixes_rename (node : Built) (tok : List Tok) (h : Plain tok) :
    SameResult ρ (postfixes (node.mapVars ρ.var) (ρ.toks tok)) (postfixes node tok) := by
  have hops := reserved_of ["(", "[", ".", "->"] (by decide)
  have hinc : "++" ∈ reserved := reserved_of ["++"] (by decide) _ (List.mem_singleton_self _)
  have hdec : "--" ∈ reserved := reserved_of ["--"] (by decide) _ (List.mem_singleton_self _)
  induction tok generalizing node with
  | nil => exact .some h
  | cons t tok ih =>
      have hstep : ∀ kind, SameResult ρ ((check (.un kind (node.mapVars ρ.var) none)).bind fun node => postfixes node (ρ.toks tok))
          ((check (.un kind node none)).bind fun node => postfixes node tok) := by
        intro kind
        have hcheck := @check_mapVars ρ (.un kind node none)
        rw [Node.mapVars] at hcheck
        rw [hcheck]
        cases check (.un kind node none) with
        | none => exact .none
        | some n => exact ih n h.tail
      have hcons : ρ.toks (t :: tok) = (ρ.kind t.1, ρ.map t.2) :: ρ.toks tok := rfl
      rw [hcons, postfixes, postfixes, ← hcons, any_equalc_toks hops, equalc_toks hinc, equalc_toks hdec]
      split
      · exact .none
      split
      · exact hstep .postInc
      split
      · exact hstep .postDec
      · exact .some h

variable {e' e : Parse}

theorem operand_rename (hkeeps : Keeps ρ s) (he : SameParse ρ e' e) : SameParse ρ (operand (ρ.names s) e') (operand s e) := by
  have hparen := reserved_of ["(", "\x7b", ")"] (by decide)
  have hopen : "(" ∈ reserved := hparen _ (by decide)
  have hbrace : "\x7b" ∈ reserved := hparen _ (by decide)
  have hclose : ")" ∈ reserved := hparen _ (by decide)
  intro tok h
  cases tok with
  | nil => exact .none
  | cons t tok =>
      have htail : Plain tok := h.tail
      have hcons : ρ.toks (t :: tok) = (ρ.kind t.1, ρ.map t.2) :: ρ.toks tok := rfl
      rw [hcons, operand, operand, ← hcons, equalc_toks hopen, equalc_toks hbrace, equalc_toks hopen]
      split
      · split
        · exact .none
        · refine (he tok htail).bind fun x hx => ?_
          have hskip := @skip_toks ρ ")" hclose x.2
          show SameResult ρ ((skip (ρ.toks x.2) ")").map fun tok => (x.1.mapVars ρ.var, tok)) ((skip x.2 ")").map fun tok => (x.1, tok))
          rw [hskip]
          cases hrest : skip x.2 ")" with
          | none => exact .none
          | some rest => exact .some (hx.skip hrest)
      · obtain ⟨kind, text⟩ := t
        cases kind with
        | ident w =>
            dsimp only [Renaming.kind]
            split
            · exact .none
            · rw [name_rename hkeeps]
              cases name s text with
              | none => exact .none
              | some node => exact .some htail
        | num val =>
            have hfix : ρ.map text = text := ρ.other text (h (.num val, text) List.mem_cons_self val rfl)
            show SameResult ρ (some (newNum val (ρ.map text), ρ.toks tok)) (some (newNum val text, tok))
            rw [hfix]
            exact @SameResult.some ρ tok (newNum val text) htail
        | fnum | str | punct | eof => exact .none

theorem primary_rename (hkeeps : Keeps ρ s) (he : SameParse ρ e' e) : SameParse ρ (primary (ρ.names s) e') (primary s e) := by
  intro tok h
  refine (operand_rename hkeeps he tok h).bind fun x hx => ?_
  show SameResult ρ ((check (x.1.mapVars ρ.var)).bind fun node => postfixes node (ρ.toks x.2)) ((check x.1).bind fun node => postfixes node x.2)
  rw [check_mapVars]
  cases check x.1 with
  | none => exact .none
  | some node => exact postfixes_rename node x.2 hx

theorem unary_rename (hkeeps : Keeps ρ s) (he : SameParse ρ e' e) : SameParse ρ (unary (ρ.names s) e') (unary s e) := by
  have hfirst := reserved_of ["++", "--", "+", "-", "!", "~", "&", "*", "("] (by decide)
  have hwords : ∀ op ∈ exprWords, op ∈ reserved := fun op hop => List.mem_append_right _ (List.mem_append_left _ hop)
  intro tok h
  induction tok with
  | nil => exact .none
  | cons t tok ih =>
      have htail : SameResult ρ (unary (ρ.names s) e' (ρ.toks tok)) (unary s e tok) := ih h.tail
      have hcons : ρ.toks (t :: tok) = (ρ.kind t.1, ρ.map t.2) :: ρ.toks tok := rfl
      have hcast : isCast (ρ.names s) (ρ.toks (t :: tok)) = isCast s (t :: tok) := by
        rw [isCast, isCast, equalc_toks (hfirst "(" (by decide)), tail_toks, isTypename_toks]
      have hone : ∀ op ∈ reserved, equalc (t :: tok) op = true → ρ.map t.2 = t.2 := by
        intro op hop hequal
        have htext : t.2 = op.toList := of_decide_eq_true hequal
        rw [htext, ρ.fixes op hop]
      rw [hcons, unary, unary, ← hcons, any_equalc_toks hwords, equalc_toks (hfirst "++" (by decide)),
        equalc_toks (hfirst "--" (by decide)), equalc_toks (hfirst "+" (by decide)), equalc_toks (hfirst "-" (by decide)),
        equalc_toks (hfirst "!" (by decide)), equalc_toks (hfirst "~" (by decide)), equalc_toks (hfirst "&" (by decide)),
        equalc_toks (hfirst "*" (by decide)), hcast]
      refine .ite (fun _ => .none) (.ite (fun hequal => ?_) (.ite (fun hequal => ?_) (.ite (fun _ => htail) ?_)))
      · rw [hone _ (hfirst "++" (by decide)) hequal]
        exact htail.map (fun lhs => newBinary .assign lhs (newBinary .add lhs (newNum 1 t.2)))
          (fun lhs => newBinary .assign lhs (newBinary .add lhs (newNum 1 t.2))) fun _ => rfl
      · rw [hone _ (hfirst "--" (by decide)) hequal]
        exact htail.map (fun lhs => newBinary .assign lhs (newBinary .sub lhs (newNum 1 t.2)))
          (fun lhs => newBinary .assign lhs (newBinary .sub lhs (newNum 1 t.2))) fun _ => rfl
      have hun : ∀ kind, SameResult ρ ((unary (ρ.names s) e' (ρ.toks tok)).map fun x => (.un kind x.1 none, x.2))
          ((unary s e tok).map fun x => (.un kind x.1 none, x.2)) :=
        fun kind => htail.map (fun lhs => .un kind lhs none) (fun lhs => .un kind lhs none) fun _ => rfl
      exact .ite (fun _ => hun .neg) (.ite (fun _ => hun .not) (.ite (fun _ => hun .bitnot) (.ite (fun _ => hun .addr)
        (.ite (fun _ => hun .deref) (.ite (fun _ => .none) (primary_rename hkeeps he _ h))))))

/-- The operators of a level are asked for, and their nodes do not depend on the names of variables. -/
def Uniform (ρ : Renaming) (ops : Operators) : Prop :=
  ∀ op ∈ ops, op.1 ∈ reserved ∧ ∀ l r, op.2 (l.mapVars ρ.var) (r.mapVars ρ.var) = (op.2 l r).mapVars ρ.var

theorem find_operator {ops : Operators} (hops : Uniform ρ ops) (tok : List Tok) :
    (ops.find? fun op => equalc (ρ.toks tok) op.1) = ops.find? fun op => equalc tok op.1 :=
  List.find?_congr fun op hop => equalc_toks (hops op hop).1 tok

theorem operators_rename {ops : Operators} {sub' sub : Parse} (hops : Uniform ρ ops) (hsub : SameParse ρ sub' sub)
    (node : Built) (tok : List Tok) (h : Plain tok) :
    SameResult ρ (operators ops sub' (node.mapVars ρ.var) (ρ.toks tok)) (operators ops sub node tok) := by
  induction hn : tok.length using Nat.strongRecOn generalizing node tok with
  | ind n ih =>
      rw [operators, operators, find_operator hops]
      cases hfind : ops.find? (fun op => equalc tok op.1) with
      | none => exact .some h
      | some op =>
          dsimp only
          have hop := hops op (List.mem_of_find?_eq_some hfind)
          have htail := hsub tok.tail h.tail
          rw [tail_toks, htail.eq]
          cases hrest : sub tok.tail with
          | none => exact .none
          | some r =>
              dsimp only [Option.map_some, Renaming.result]
              have hlength : ∀ tok, (ρ.toks tok).length = tok.length := fun tok => List.length_map _
              rw [hlength, hlength, hop.2]
              by_cases hlt : r.2.length < tok.length
              · rw [if_pos hlt, if_pos hlt]
                exact ih r.2.length (hn ▸ hlt) _ r.2 (htail.plain r hrest) rfl
              · rw [if_neg hlt, if_neg hlt]
                exact .none

theorem level_rename {ops : Operators} {sub' sub : Parse} (hops : Uniform ρ ops) (hsub : SameParse ρ sub' sub) :
    SameParse ρ (level ops sub') (level ops sub) :=
  fun tok h => (hsub tok h).bind fun x hx => operators_rename hops hsub x.1 x.2 hx

theorem uniform_newBinary (ops : List (String × BinKind)) (h : ops.all (fun op => reserved.contains op.1) = true) :
    Uniform ρ (ops.map fun op => (op.1, newBinary op.2)) := by
  intro op hop
  obtain ⟨o, ho, rfl⟩ := List.mem_map.mp hop
  exact ⟨List.contains_iff_mem.mp (List.all_eq_true.mp h o ho), fun _ _ => rfl⟩

theorem uniform_relational : Uniform ρ relationalOps := by
  intro op hop
  have hmem := reserved_of ["<", "<=", ">", ">="] (by decide) op.1
  simp only [relationalOps, List.mem_cons, List.not_mem_nil, or_false] at hop
  rcases hop with rfl | rfl | rfl | rfl
  · exact ⟨hmem (by decide), fun _ _ => rfl⟩
  · exact ⟨hmem (by decide), fun _ _ => rfl⟩
  · exact ⟨hmem (by decide), fun _ _ => rfl⟩
  · exact ⟨hmem (by decide), fun _ _ => rfl⟩

theorem logor_rename (hkeeps : Keeps ρ s) (he : SameParse ρ e' e) : SameParse ρ (logor (ρ.names s) e') (logor s e) := by
  have hmul := level_rename (uniform_newBinary [("*", .mul), ("/", .div), ("%", .mod)] (by decide)) (unary_rename hkeeps he)
  have hadd := level_rename (uniform_newBinary [("+", .add), ("-", .sub)] (by decide)) hmul
  have hshift := level_rename (uniform_newBinary [("<<", .shl), (">>", .shr)] (by decide)) hadd
  have hrelational := level_rename uniform_relational hshift
  have hequality := level_rename (uniform_newBinary [("==", .eq), ("!=", .ne)] (by decide)) hrelational
  have hbitand := level_rename (uniform_newBinary [("&", .bitand)] (by decide)) hequality
  have hbitxor := level_rename (uniform_newBinary [("^", .bitxor)] (by decide)) hbitand
  have hbitor := level_rename (uniform_newBinary [("|", .bitor)] (by decide)) hbitxor
  have hlogand := level_rename (uniform_newBinary [("&&", .logand)] (by decide)) hbitor
  exact level_rename (uniform_newBinary [("||", .logor)] (by decide)) hlogand

theorem conditional_rename (hkeeps : Keeps ρ s) (he : SameParse ρ e' e) (n : Nat) :
    SameParse ρ (conditional (ρ.names s) e' n) (conditional s e n) := by
  have hops := reserved_of ["?", ":"] (by decide)
  have hquestion : "?" ∈ reserved := hops _ (by decide)
  have hcolon : ":" ∈ reserved := hops _ (by decide)
  induction n with
  | zero => exact fun tok h => .none
  | succ n ih =>
      intro tok h
      refine (logor_rename hkeeps he tok h).bind fun c hc => ?_
      show SameResult ρ (if equalc (ρ.toks c.2) "?" then _ else _) (if equalc c.2 "?" then _ else _)
      rw [equalc_toks hquestion]
      refine .ite (fun _ => ?_) (.some hc)
      rw [tail_toks]
      refine (he c.2.tail hc.tail).bind fun t ht => ?_
      have hskip := @skip_toks ρ ":" hcolon t.2
      show SameResult ρ ((skip (ρ.toks t.2) ":").bind fun tok => _) ((skip t.2 ":").bind fun tok => _)
      rw [hskip]
      cases hrest : skip t.2 ":" with
      | none => exact .none
      | some rest =>
          exact (ih rest (ht.skip hrest)).map (fun els => .cond (c.1.mapVars ρ.var) (t.1.mapVars ρ.var) els none)
            (fun els => .cond c.1 t.1 els none) fun _ => rfl

theorem assign_rename (hkeeps : Keeps ρ s) (he : SameParse ρ e' e) (n : Nat) :
    SameParse ρ (assign (ρ.names s) e' n) (assign s e n) := by
  have hequals : "=" ∈ reserved := reserved_of ["="] (by decide) _ (by decide)
  have hcompound := reserved_of compoundAssignments (by decide)
  induction n with
  | zero => exact fun tok h => .none
  | succ n ih =>
      intro tok h
      refine (conditional_rename hkeeps he (n + 1) tok h).bind fun x hx => ?_
      show SameResult ρ (if equalc (ρ.toks x.2) "=" then _ else if compoundAssignments.any (equalc (ρ.toks x.2)) then _ else _)
        (if equalc x.2 "=" then _ else if compoundAssignments.any (equalc x.2) then _ else _)
      rw [equalc_toks hequals, any_equalc_toks hcompound, tail_toks]
      refine .ite (fun _ => ?_) (.ite (fun _ => .none) (.some hx))
      exact (ih x.2.tail hx.tail).map _ (fun rhs => newBinary .assign x.1 rhs) fun _ => rfl

theorem expr_rename (hkeeps : Keeps ρ s) (n : Nat) : SameParse ρ (expr (ρ.names s) n) (expr s n) := by
  induction n with
  | zero => exact fun tok h => .none
  | succ n ih => exact level_rename (uniform_newBinary [(",", .comma)] (by decide)) (assign_rename hkeeps ih n)

end Parse

/-! ## Endings -/

/-- The letters that a word ends with, as `new_num` counts them: whether there is a `u`, and how many `l`
up to two. -/
def ending (w : Text) : Bool × Nat :=
  let letters := w.reverse.takeWhile isSuffix
  (letters.any fun c => c = 'u' || c = 'U', min 2 (letters.countP fun c => c = 'l' || c = 'L'))

def fitsInt (val : BitVec 64) : Bool := -2147483648 ≤ val.toInt ∧ val.toInt ≤ 2147483647

def fitsUint (val : BitVec 64) : Bool := 0 ≤ val.toInt ∧ val.toInt ≤ 0xFFFFFFFF

/-- Numbers with this value have the same type with either ending: `ll` is the type of a value that `int`
has not, and `ull` of one that `unsigned` has not. -/
def SameType (val : BitVec 64) (e e' : Bool × Nat) : Prop :=
  e = e' ∨ (fitsInt val = false ∧ e ∈ [(false, 0), (false, 2)] ∧ e' ∈ [(false, 0), (false, 2)]) ∨
    (fitsUint val = false ∧ e ∈ [(true, 0), (true, 2)] ∧ e' ∈ [(true, 0), (true, 2)])

/-- The type of a number whose token does not begin with a zero, by whether `int` and `unsigned` have its
value. -/
def typeOf (int uint : Bool) (e : Bool × Nat) : Ty :=
  match e with
  | (u, 0) => if u then (if uint then tyUint else tyUllong) else if int then tyInt else tyLlong
  | (u, 1) => if u then tyUlong else tyLong
  | (u, _) => if u then tyUllong else tyLlong

theorem numType_ending (val : BitVec 64) {w : Text} (hw : w.head? ≠ some '0') :
    numType val w = typeOf (fitsInt val) (fitsUint val) (ending w) := by
  have hzero : ¬ (w.head? = some '0' ∧ 1 < w.length ∧ 0 ≤ val.toInt ∧ val.toInt ≤ 4294967295) := fun h => hw h.1
  have hletters : (w.reverse.takeWhile fun c => c = 'u' || c = 'U' || c = 'l' || c = 'L') = w.reverse.takeWhile isSuffix := rfl
  rw [numType, ending, hletters, if_neg hzero, fitsInt, fitsUint]
  generalize (w.reverse.takeWhile isSuffix).countP (fun c => decide (c = 'l') || decide (c = 'L')) = l
  generalize (w.reverse.takeWhile isSuffix).any (fun c => decide (c = 'u') || decide (c = 'U')) = u
  by_cases h2 : 2 ≤ l
  · rw [if_pos h2, Nat.min_eq_left h2]
    rfl
  · rw [if_neg h2, Nat.min_eq_right (by omega)]
    have hl : l = 0 ∨ l = 1 := by omega
    rcases hl with rfl | rfl
    · rw [if_neg (by decide)]
      simp only [typeOf, decide_eq_true_eq]
    · rfl

theorem typeOf_eq_iff (int uint : Bool) {e e' : Bool × Nat} (he : e.2 < 3) (he' : e'.2 < 3) :
    typeOf int uint e = typeOf int uint e' ↔
      e = e' ∨ (int = false ∧ e ∈ [(false, 0), (false, 2)] ∧ e' ∈ [(false, 0), (false, 2)]) ∨
        (uint = false ∧ e ∈ [(true, 0), (true, 2)] ∧ e' ∈ [(true, 0), (true, 2)]) := by
  have hmem : ∀ {e : Bool × Nat}, e.2 < 3 → e ∈ [(false, 0), (false, 1), (false, 2), (true, 0), (true, 1), (true, 2)] := by
    intro e he
    obtain ⟨u, l⟩ := e
    have hl : l = 0 ∨ l = 1 ∨ l = 2 := by
      have hlt : l < 3 := he
      omega
    rcases hl with rfl | rfl | rfl <;> cases u <;> decide
  have hall : ∀ e ∈ [(false, 0), (false, 1), (false, 2), (true, 0), (true, 1), (true, 2)],
      ∀ e' ∈ [(false, 0), (false, 1), (false, 2), (true, 0), (true, 1), (true, 2)], typeOf int uint e = typeOf int uint e' ↔
        e = e' ∨ (int = false ∧ e ∈ [(false, 0), (false, 2)] ∧ e' ∈ [(false, 0), (false, 2)]) ∨
          (uint = false ∧ e ∈ [(true, 0), (true, 2)] ∧ e' ∈ [(true, 0), (true, 2)]) := by
    cases int <;> cases uint <;> decide
  exact hall e (hmem he) e' (hmem he')

/-- Two words give a number the same type just when their letters are the same, or tell it nothing new. -/
theorem numType_eq_iff (val : BitVec 64) {w w' : Text} (hw : w.head? ≠ some '0') (hw' : w'.head? ≠ some '0') :
    numType val w = numType val w' ↔ SameType val (ending w) (ending w') := by
  have hlt : ∀ w, (ending w).2 < 3 := fun w => Nat.lt_succ_of_le (Nat.min_le_left 2 _)
  rw [numType_ending val hw, numType_ending val hw']
  exact typeOf_eq_iff _ _ (hlt w) (hlt w')

/-! ## A name alone -/

section Alone

variable {ρ : Renaming} {s : Names}

theorem equalc_alone {w : Text} (hw : ∀ op ∈ reserved, w ≠ op.toList) {op : String} (hop : op ∈ reserved) :
    equalc [(.ident w, w)] op = false :=
  decide_eq_false (hw op hop)

theorem level_alone {ops : Operators} {sub : Parse} {tok : List Tok} {node : Built} (h : sub tok = some (node, [])) :
    level ops sub tok = some (node, []) := by
  have hfind : (ops.find? fun op => equalc [] op.1) = none := List.find?_eq_none.mpr fun op _ => Bool.false_ne_true
  rw [level, h]
  show operators ops sub node [] = _
  rw [operators, hfind]

/-- The expression that is the name of an enumeration constant is its number. -/
theorem expr_alone {x : String} {ec : EnumConst} (h : s.findEnumConst x = some ec) (hw : ∀ op ∈ reserved, x.toList ≠ op.toList) :
    expr s 2 [(.ident x.toList, x.toList)] = some (newNum ec.val x.toList, []) := by
  have hequal : ∀ ops : List String, ops.all (reserved.contains ·) = true →
      ∀ op ∈ ops, equalc [(.ident x.toList, x.toList)] op = false :=
    fun ops hops op hop => equalc_alone hw (reserved_of ops hops op hop)
  have hparen := hequal ["("] (by decide) "(" (by decide)
  have hunary := hequal ["++", "--", "+", "-", "!", "~", "&", "*"] (by decide)
  have hwords : exprWords.any (equalc [(.ident x.toList, x.toList)]) = false := by
    rw [List.any_eq_false]
    intro op hop
    rw [equalc_alone hw (List.mem_append_right _ (List.mem_append_left _ hop))]
    exact Bool.false_ne_true
  have hname : name s x.toList = some (newNum ec.val x.toList) := by
    rw [name, String.ofList_toList, h]
  have hoperand : ∀ e, operand s e [(.ident x.toList, x.toList)] = some (newNum ec.val x.toList, []) := by
    intro e
    rw [operand, if_neg (Bool.eq_false_iff.mp hparen)]
    show (if equalc [] "(" then none else (name s x.toList).map _) = _
    rw [hname]
    rfl
  have hprimary : ∀ e, primary s e [(.ident x.toList, x.toList)] = some (newNum ec.val x.toList, []) := by
    intro e
    rw [primary, hoperand]
    rfl
  have hunaryAlone : ∀ e, unary s e [(.ident x.toList, x.toList)] = some (newNum ec.val x.toList, []) := by
    intro e
    have hcast : isCast s [(.ident x.toList, x.toList)] = false := by
      rw [isCast, hparen, Bool.false_and]
    rw [unary, hwords, hunary "++" (by decide), hunary "--" (by decide), hunary "+" (by decide), hunary "-" (by decide),
      hunary "!" (by decide), hunary "~" (by decide), hunary "&" (by decide), hunary "*" (by decide), hcast]
    exact hprimary e
  have hlogor : ∀ e, logor s e [(.ident x.toList, x.toList)] = some (newNum ec.val x.toList, []) := fun e =>
    level_alone (level_alone (level_alone (level_alone (level_alone (level_alone (level_alone (level_alone (level_alone
      (level_alone (hunaryAlone e))))))))))
  have hassign : ∀ e, assign s e 1 [(.ident x.toList, x.toList)] = some (newNum ec.val x.toList, []) := by
    intro e
    have hconditional : conditional s e 1 [(.ident x.toList, x.toList)] = some (newNum ec.val x.toList, []) := by
      rw [conditional, hlogor]
      rfl
    rw [assign, hconditional]
    rfl
  exact level_alone (hassign (expr s 1))

end Alone

/-! ## The types of numbers -/

/-- The type of a number, if only its value counts. -/
def plainType (val : BitVec 64) : Ty := if fitsInt val then tyInt else tyLlong

theorem identHead_head {w : Text} (h : identHead w = true) : w.head? ≠ some '0' := by
  intro hzero
  obtain ⟨t, rfl⟩ := List.head?_eq_some_iff.mp hzero
  cases h

theorem identHead_map {ρ : Renaming} {w : Text} (h : identHead w = true) : identHead (ρ.map w) = true := by
  by_contra hno
  have hfix := ρ.injective (ρ.other (ρ.map w) (Bool.eq_false_iff.mpr hno))
  rw [hfix] at hno
  exact hno h

theorem keeps_iff {ρ : Renaming} {s : Names} : Keeps ρ s ↔
    ∀ x ec, s.findEnumConst x = some ec → SameType ec.val (ending (ρ.map x.toList)) (ending x.toList) := by
  refine forall_congr' fun x => forall_congr' fun ec => forall_congr' fun _ => ?_
  cases hhead : identHead x.toList with
  | false =>
      rw [ρ.other _ hhead]
      exact iff_of_true rfl (.inl rfl)
  | true => exact numType_eq_iff ec.val (identHead_head (identHead_map hhead)) (identHead_head hhead)

theorem unchanged_iff (ρ : Renaming) (s : Names) : Unchanged ρ s ↔ Keeps ρ s := by
  constructor
  · intro h x ec hec
    by_cases hreserved : ∃ op ∈ reserved, x.toList = op.toList
    · obtain ⟨op, hop, hx⟩ := hreserved
      rw [hx, ρ.fixes op hop]
    · have hx : ∀ op ∈ reserved, x.toList ≠ op.toList := fun op hop heq => hreserved ⟨op, hop, heq⟩
      have hρx : ∀ op ∈ reserved, (ρ.name x).toList ≠ op.toList := by
        intro op hop heq
        rw [Renaming.name, String.toList_ofList, ← ρ.fixes op hop, ρ.injective.eq_iff] at heq
        exact hx op hop heq
      have hrenamed : (ρ.names s).findEnumConst (ρ.name x) = some { ec with name := ρ.name ec.name } := by
        rw [findEnumConst_rename, hec]
        rfl
      have hplain : Plain [(.ident x.toList, x.toList)] := by
        intro t ht v hv
        obtain rfl := List.mem_singleton.mp ht
        cases hv
      have hboth := h 2 [(.ident x.toList, x.toList)] hplain
      have hname := expr_alone hrenamed hρx
      rw [Renaming.name, String.toList_ofList] at hname
      rw [expr_alone hec hx] at hboth
      have heq := Option.some_inj.mp (hname.symm.trans hboth)
      exact (Node.num.inj (Prod.mk.inj heq).1).2
  · exact fun h n tok hplain => (expr_rename h n tok hplain).eq

/-- `one` and `full` change places. -/
def swapOneFull : Renaming where
  map := Equiv.swap "one".toList "full".toList
  injective := (Equiv.swap "one".toList "full".toList).injective
  fixes := by
    have hne : ∀ op ∈ reserved, op.toList ≠ "one".toList ∧ op.toList ≠ "full".toList := by
      decide +kernel
    exact fun op hop => Equiv.swap_apply_of_ne_of_ne (hne op hop).1 (hne op hop).2
  other := by
    intro w hw
    refine Equiv.swap_apply_of_ne_of_ne (fun h => ?_) fun h => ?_
    · rw [h] at hw
      cases hw
    · rw [h] at hw
      cases hw

/-- `enum { one = 1 };` -/
def enumOne : Names := ⟨[], [], [], [⟨"one", 1⟩]⟩

end Parser

end Rcc

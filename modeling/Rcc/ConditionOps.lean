import Mathlib
import Rcc.Condition
import Rcc.HostArith

/-!
# Conditions as requests

The evaluator of `#if` once more, asking for products, quotients, remainders, sums, differences and negations. Answered by the machine,
it is the evaluator on `long` (`refines_eval`), which has no result where this one is killed.
-/

namespace Rcc.Preprocess.Asking

open FixedWidth Recursion
open Lexer (Text isdigit startswith)
open Files (Preprocessor)

/-- A value and what is behind it, or no end of the expansion. -/
abbrev Eval := Preprocessor → Text → Rcc.Eval Operation (Preprocessor × Int × Text)

/-- Without a value the compiler is gone. -/
def ended {α : Type} : Option α → Ended α
  | some a => .ok a
  | none => .crash

abbrev Ops := List (String × (Int → Int → Rcc.Eval Operation Int))

def evalRest (sub : Eval) (ops : Ops) : Nat → Preprocessor → Int → Text → Rcc.Eval Operation (Preprocessor × Int × Text)
  | 0, st, val, p => .ok (st, val, skipSpaces p)
  | n + 1, st, val, p =>
      match ops.find? fun op => startswith (skipSpaces p) op.1 with
      | none => .ok (st, val, skipSpaces p)
      | some op =>
          (sub st ((skipSpaces p).drop op.1.length)).andThen fun (st, rhs, rest) =>
            (op.2 val rhs).andThen fun val => evalRest sub ops n st val rest

def evalLevel (sub : Eval) (ops : Ops) : Eval := fun st p =>
  (sub st p).andThen fun (st, val, rest) => evalRest sub ops p.length st val rest

def mulOps : Ops :=
  [("*", fun a b => .ask (.mul a b)),
    ("/", fun a b => if hb : b = 0 then .ok 0 else .ask (.div a b hb)),
    ("%", fun a b => if hb : b = 0 then .ok 0 else .ask (.mod a b hb))]

def addOps : Ops := [("+", fun a b => .ask (.add a b)), ("-", fun a b => .ask (.sub a b))]

/-- Operators with a value for all operands. -/
def always (ops : Preprocess.Ops) : Ops := ops.map fun op => (op.1, fun a b => .done (ended (op.2 a b)))

/-- From `eval_mul` to the `||` of `eval_pp_expr`. -/
def evalBinary (primary : Eval) : Eval :=
  let add := evalLevel (evalLevel primary mulOps) addOps
  evalLevel (evalLevel (evalLevel (evalLevel add (always relOps)) (always eqOps)) (always landOps)) (always lorOps)

def evalTernary (expr : Eval) : Preprocessor → Int → Text → Rcc.Eval Operation (Preprocessor × Int × Text) := fun st val p =>
  match skipSpaces p with
  | '?' :: p =>
      (expr st p).andThen fun (st, trueVal, rest) =>
        (expr st (skipChar ':' (skipSpaces rest))).andThen fun (st, falseVal, rest) =>
          .ok (st, if val ≠ 0 then trueVal else falseVal, rest)
  | p => .ok (st, val, p)

/-- `eval_primary`, given itself and `eval_pp_expr` for a shorter text. -/
def evalPrimaryStep (fs : FileSystem) (filename : Text) (expr primary : Eval) : Eval := fun st p =>
  let p := skipSpaces p
  if startswith p "defined" then .done (ended (evalDefined st (p.drop 7)))
  else if startswith p "__has_include" then .done (ended (evalHasInclude fs filename st p))
  else
    match p with
    | [] => .ok (st, 0, p)
    | c :: q =>
        if c = '(' then
          (expr st q).andThen fun (st, val, rest) => .ok (st, val, skipChar ')' (skipSpaces rest))
        else if c = '!' then (primary st q).andThen fun (st, val, rest) => .ok (st, ofBool (val = 0), rest)
        else if c = '-' then
          (primary st q).andThen fun (st, val, rest) => (Rcc.Eval.ask (.neg val)).andThen fun val => .ok (st, val, rest)
        else if isdigit c then .ok (st, saturate (digits p).1, (digits p).2)
        else if isIdent1 c then .done (ended (evalName filename st p))
        else .ok (st, 0, p)

mutual

/-- `eval_primary` -/
def evalPrimary (fs : FileSystem) (filename : Text) : Nat → Eval
  | 0, _, _ => .crash
  | n + 1, st, p => evalPrimaryStep fs filename (evalPpExpr fs filename n) (evalPrimary fs filename n) st p

/-- `eval_pp_expr` -/
def evalPpExpr (fs : FileSystem) (filename : Text) : Nat → Eval
  | 0, _, _ => .crash
  | n + 1, st, p =>
      (evalBinary (evalPrimary fs filename n) st p).andThen fun (st, val, rest) =>
        evalTernary (evalPpExpr fs filename n) st val rest

end

/-! ## On `long` -/

/-- With the answers of the machine, the one is the other. -/
def Refines (e : Eval) (e' : Preprocess.Eval) : Prop := ∀ st p, (e st p).run (machineAnswer i64) = some (ended (e' st p))

/-- Operators of the same names with the same values. -/
def RefinesOps (ops : Ops) (ops' : Preprocess.Ops) : Prop :=
  List.Forall₂ (fun op op' => op.1 = op'.1 ∧ ∀ a b, (op.2 a b).run (machineAnswer i64) = some (ended (op'.2 a b))) ops ops'

theorem run_next {α β : Type} {t : Rcc.Eval Operation α} {o : Option α} (ht : t.run (machineAnswer i64) = some (ended o))
    {f : α → Rcc.Eval Operation β} {g : α → Option β} (hf : ∀ a, (f a).run (machineAnswer i64) = some (ended (g a))) :
    (t.andThen f).run (machineAnswer i64) = some (ended (o.bind g)) := by
  rw [Eval.run_andThen, ht]
  cases o with
  | none => rfl
  | some a => exact hf a

section Refines

variable {sub expr primary : Eval} {sub' expr' primary' : Preprocess.Eval} {ops : Ops} {ops' : Preprocess.Ops}

theorem RefinesOps.find (h : RefinesOps ops ops') (p : Text) :
    Option.Rel (fun op op' => op.1 = op'.1 ∧ ∀ a b, (op.2 a b).run (machineAnswer i64) = some (ended (op'.2 a b)))
      (ops.find? fun op => startswith p op.1) (ops'.find? fun op => startswith p op.1) := by
  induction h with
  | nil => exact .none
  | @cons op op' ops ops' hop _ ih =>
      rw [List.find?_cons, List.find?_cons, ← hop.1]
      split
      · exact .some hop
      · exact ih

theorem refines_rest (hsub : Refines sub sub') (hops : RefinesOps ops ops') (n : Nat) (st : Preprocessor) (val : Int) (p : Text) :
    (evalRest sub ops n st val p).run (machineAnswer i64) = some (ended (Preprocess.evalRest sub' ops' n st val p)) := by
  induction n generalizing st val p with
  | zero => rfl
  | succ n ih =>
      rw [evalRest, Preprocess.evalRest]
      have hfind := hops.find (skipSpaces p)
      revert hfind
      generalize ops.find? _ = found
      generalize ops'.find? _ = found'
      intro hfind
      cases hfind with
      | none => rfl
      | @some op op' hop =>
          dsimp only
          rw [hop.1]
          exact run_next (hsub _ _) fun a => run_next (hop.2 _ _) fun val => ih _ _ _

theorem Refines.level (hsub : Refines sub sub') (hops : RefinesOps ops ops') :
    Refines (evalLevel sub ops) (Preprocess.evalLevel sub' ops') := fun st p =>
  run_next (hsub st p) fun a => refines_rest hsub hops p.length a.1 a.2.1 a.2.2

theorem refines_always (ops : Preprocess.Ops) : RefinesOps (always ops) ops := by
  induction ops with
  | nil => exact .nil
  | cons op ops ih => exact .cons ⟨rfl, fun a b => rfl⟩ ih

/-- A quotient or a remainder, of which the divisor is asked first. -/
theorem run_guarded {a b v : Int} {o : b ≠ 0 → Operation}
    (ho : ∀ hb, (o hb).machine i64 = if a = -2 ^ 63 ∧ b = -1 then .crash else .ok v) :
    (if hb : b = 0 then .ok 0 else .ask (o hb) : Rcc.Eval Operation Int).run (machineAnswer i64) =
      some (ended (if b = 0 then some 0 else if a = -2 ^ 63 ∧ b = -1 then none else some v)) := by
  by_cases hb : b = 0
  · rw [dif_pos hb, if_pos hb]
    rfl
  · rw [dif_neg hb, if_neg hb]
    refine congrArg some ((ho hb).trans ?_)
    split
    · rfl
    · rfl

theorem refines_mulOps : RefinesOps mulOps Preprocess.mulOps :=
  .cons ⟨rfl, fun _ _ => rfl⟩ (.cons ⟨rfl, fun _ _ => run_guarded fun _ => rfl⟩ (.cons ⟨rfl, fun _ _ => run_guarded fun _ => rfl⟩ .nil))

theorem refines_addOps : RefinesOps addOps Preprocess.addOps := .cons ⟨rfl, fun _ _ => rfl⟩ (.cons ⟨rfl, fun _ _ => rfl⟩ .nil)

theorem Refines.binary (hprimary : Refines primary primary') : Refines (evalBinary primary) (Preprocess.evalBinary primary') :=
  (((((hprimary.level refines_mulOps).level refines_addOps).level (refines_always relOps)).level (refines_always eqOps)).level
    (refines_always landOps)).level (refines_always lorOps)

/-- A value that is only handed on. -/
theorem run_last {α β : Type} {t : Rcc.Eval Operation α} {o : Option α} (ht : t.run (machineAnswer i64) = some (ended o))
    (f : α → β) : (t.andThen fun a => .ok (f a)).run (machineAnswer i64) = some (ended (o.map f)) := by
  rw [Eval.run_andThen, ht]
  cases o with
  | none => rfl
  | some a => rfl

/-- Without a question mark there is nothing to do. -/
theorem evalTernary_none (expr : Eval) (expr' : Preprocess.Eval) {p : Text} (h : ∀ q, skipSpaces p ≠ '?' :: q) (st : Preprocessor) (val : Int) :
    evalTernary expr st val p = .ok (st, val, skipSpaces p) ∧
      Preprocess.evalTernary expr' st val p = some (st, val, skipSpaces p) := by
  rw [evalTernary, Preprocess.evalTernary]
  constructor
  · split
    · next q heq => exact absurd heq (h q)
    · rfl
  · split
    · next q heq => exact absurd heq (h q)
    · rfl

theorem refines_ternary (hexpr : Refines expr expr') (st : Preprocessor) (val : Int) (p : Text) :
    (evalTernary expr st val p).run (machineAnswer i64) = some (ended (Preprocess.evalTernary expr' st val p)) := by
  by_cases hmark : ∃ q, skipSpaces p = '?' :: q
  · obtain ⟨q, hq⟩ := hmark
    rw [evalTernary, Preprocess.evalTernary, hq]
    exact run_next (hexpr _ _) fun a => run_last (hexpr _ _) _
  · obtain ⟨hops, hvalues⟩ := evalTernary_none expr expr' (fun q hq => hmark ⟨q, hq⟩) st val
    rw [hops, hvalues]
    rfl

theorem refines_primary (fs : FileSystem) (filename : Text) (hexpr : Refines expr expr') (hprimary : Refines primary primary') :
    Refines (evalPrimaryStep fs filename expr primary) (Preprocess.evalPrimaryStep fs filename expr' primary') := by
  intro st p
  unfold evalPrimaryStep Preprocess.evalPrimaryStep
  generalize skipSpaces p = p
  dsimp only
  by_cases hdefined : startswith p "defined"
  · rw [if_pos hdefined, if_pos hdefined]
    rfl
  rw [if_neg hdefined, if_neg hdefined]
  by_cases hinclude : startswith p "__has_include"
  · rw [if_pos hinclude, if_pos hinclude]
    rfl
  rw [if_neg hinclude, if_neg hinclude]
  cases p with
  | nil => rfl
  | cons c q =>
      dsimp only
      by_cases hparen : c = '('
      · rw [if_pos hparen, if_pos hparen]
        exact run_last (hexpr _ _) _
      rw [if_neg hparen, if_neg hparen]
      by_cases hnot : c = '!'
      · rw [if_pos hnot, if_pos hnot]
        exact run_last (hprimary _ _) _
      rw [if_neg hnot, if_neg hnot]
      by_cases hneg : c = '-'
      · rw [if_pos hneg, if_pos hneg, Option.map_eq_bind]
        exact run_next (hprimary _ _) fun a => rfl
      rw [if_neg hneg, if_neg hneg]
      split
      · rfl
      · split
        · rfl
        · rfl

/-- **The evaluator on `long`** is this one, with the answers of the machine. -/
theorem refines_eval (fs : FileSystem) (filename : Text) (n : Nat) :
    Refines (evalPrimary fs filename n) (Preprocess.evalPrimary fs filename n) ∧
      Refines (evalPpExpr fs filename n) (Preprocess.evalPpExpr fs filename n) := by
  induction n with
  | zero => exact ⟨fun _ _ => rfl, fun _ _ => rfl⟩
  | succ n ih =>
      refine ⟨refines_primary fs filename ih.2 ih.1, fun st p => ?_⟩
      exact run_next (ih.1.binary st p) fun a => refines_ternary ih.2 _ _ _

end Refines

end Rcc.Preprocess.Asking

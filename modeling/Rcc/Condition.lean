import Rcc.Expand

/-!
# Conditions and the files they ask for

`eval_condition` is a descent over the text itself: each level reads what the levels
below it give, and looks for its operators there. A macro stands for the number at the
beginning of its expanded body. Text that nothing can be made of has the value 0, and
what is behind it is not read.

`n` bounds the descent and is enough when it is twice the length of the text. There is no
result where the expansion of a macro has none, and for the one division of the machine
that traps.
-/

namespace Rcc.Preprocess

open Lexer (Text isspace isdigit isxdigit headIs startswith)
open Files (Preprocessor)

/-! ## Files -/

/-- What can be opened, and where it is looked for. -/
structure FileSystem where
  read : Text → Option Text
  realpath : Text → Option Text
  includeDir : Text
  userIncludePaths : List Text
  sysIncludePaths : List Text

/-- `path_dirname` -/
def pathDirname (path : Text) : Text := (path.reverse.dropWhile (· ≠ '/')).reverse

/-- `path_join` -/
def pathJoin (dir file : Text) : Text :=
  if dir = [] then file else if dir.getLast? = some '/' then dir ++ file else dir ++ '/' :: file

/-- The components of a path, where several slashes are one. -/
def components : Nat → Text → List Text
  | 0, _ => []
  | _ + 1, [] => []
  | n + 1, p => p.takeWhile (· ≠ '/') :: components n ((p.dropWhile (· ≠ '/')).dropWhile (· = '/'))

/-- One component more, with the last one in front. -/
def addComponent (absolute : Bool) (comps : List Text) (comp : Text) : List Text :=
  if comp = ['.'] then comps
  else if comp = ['.', '.'] then
    match comps with
    | last :: rest => if last ≠ ['.', '.'] then rest else if absolute then comps else comp :: comps
    | [] => if absolute then comps else [comp]
  else comp :: comps

/-- `canonical_path` -/
def canonicalPath (path : Text) : Text :=
  if path = [] || 4096 ≤ path.length then path
  else
    let absolute := headIs (· = '/') path
    let rest := if absolute then path.tail else path
    let comps := ((components rest.length rest).foldl (addComponent absolute) []).reverse
    let out := (if absolute then ['/'] else []) ++ ['/'].intercalate comps
    if out = [] then ['.'] else out

/-- `resolve_include` -/
def resolveInclude (fs : FileSystem) (currFile spec : Text) (isAngle : Bool) : Option Text :=
  let adjacent := if isAngle then [] else [pathJoin (pathDirname currFile) spec]
  let dirs := [fs.includeDir, "include".toList] ++ fs.userIncludePaths ++ fs.sysIncludePaths
  let found := (adjacent ++ dirs.map (pathJoin · spec) ++ [spec]).find? fun path => (fs.read path).isSome
  found.map canonicalPath

/-- `full_path` -/
def fullPath (fs : FileSystem) (path : Text) : Text := (fs.realpath path).getD path

/-! ## Numbers -/

def isOctal (c : Char) : Bool := '0' ≤ c && c ≤ '7'

/-- Digits with the base 0 of `strtol`, and what is behind them. -/
def digits : Text → Nat × Text
  | '0' :: x :: p =>
      if (x = 'x' || x = 'X') && headIs isxdigit p then (Lexer.digitsValue 16 (p.takeWhile isxdigit), p.dropWhile isxdigit)
      else (Lexer.digitsValue 8 ((x :: p).takeWhile isOctal), (x :: p).dropWhile isOctal)
  | p => (Lexer.digitsValue 10 (p.takeWhile isdigit), p.dropWhile isdigit)

/-- A value outside `long` is the nearest one in it. -/
def saturate (n : Int) : Int := max (-2 ^ 63) (min n (2 ^ 63 - 1))

/-- `strtol(p, NULL, 0)` -/
def strtol (p : Text) : Int :=
  match p.dropWhile isspace with
  | '-' :: q => saturate (- ((digits q).1 : Int))
  | '+' :: q => saturate (digits q).1
  | q => saturate (digits q).1

/-- The arithmetic of `long`. -/
def long (n : Int) : Int := n.bmod (2 ^ 64)

def ofBool (b : Bool) : Int := if b then 1 else 0

/-! ## The levels -/

/-- `skip_spaces` -/
def skipSpaces (p : Text) : Text := p.dropWhile Lexer.isBlank

abbrev Eval := Preprocessor → Text → Option (Preprocessor × Int × Text)

/-- A name in parentheses or without. -/
def evalDefined : Eval := fun st p =>
  let p := skipSpaces p
  let p := if headIs (· = '(') p then skipSpaces p.tail else p
  let rest := skipSpaces (p.dropWhile isIdent2)
  some (st, ofBool (findEntry st (p.takeWhile isIdent2)).isSome, if headIs (· = ')') rest then rest.tail else rest)

/-- Behind a character, if it is there. -/
def skipChar (c : Char) (p : Text) : Text := if headIs (· = c) p then p.tail else p

/-- An expanded operand of `__has_include`, in front of what is behind it. -/
def expandedSpec (spec rest : Text) : Text × Bool × Text :=
  match spec with
  | '"' :: spec => (spec.dropLast, false, rest)
  | '<' :: spec => (spec.dropLast, true, rest)
  | spec => (spec, false, rest)

/-- The operand of `__has_include`: the state, the name, whether it was in angle brackets,
and what is behind it. -/
def hasIncludeSpec (filename : Text) (st : Preprocessor) (p : Text) : Option (Preprocessor × Text × Bool × Text) :=
  match p with
  | '"' :: p => some (st, p.takeWhile (· ≠ '"'), false, (p.dropWhile (· ≠ '"')).tail)
  | '<' :: p => some (st, p.takeWhile (· ≠ '>'), true, (p.dropWhile (· ≠ '>')).tail)
  | p =>
      let rest := p.dropWhile (· ≠ ')')
      match trim (p.takeWhile (· ≠ ')')) with
      | '"' :: spec => some (st, spec.dropLast, false, rest)
      | spec =>
          (expandText ⟨filename, 1⟩ depths st spec).map fun (st, spec) => (st, expandedSpec spec rest)

def evalHasInclude (fs : FileSystem) (filename : Text) : Eval := fun st p =>
  let p := skipSpaces (skipChar '(' (skipSpaces (p.drop (if startswith p "__has_include_next" then 18 else 13))))
  (hasIncludeSpec filename st p).map fun (st, spec, isAngle, rest) =>
    (st, ofBool (resolveInclude fs filename spec isAngle).isSome, skipChar ')' rest)

/-- A name that is no operator. -/
def evalName (filename : Text) : Eval := fun st p =>
  match findEntry st (p.takeWhile isIdent2) with
  | some e =>
      if e.definition.isFunction then some (st, 0, p.dropWhile isIdent2)
      else (expandText ⟨filename, 1⟩ depths st e.definition.body.toList).map fun (st, sb) =>
        (st, strtol sb, p.dropWhile isIdent2)
  | none => some (st, 0, p.dropWhile isIdent2)

/-- Operators of one level, with what they make of the values beside them. -/
abbrev Ops := List (String × (Int → Int → Option Int))

/-- The loop of one level behind its first operand. -/
def evalRest (sub : Eval) (ops : Ops) : Nat → Preprocessor → Int → Text → Option (Preprocessor × Int × Text)
  | 0, st, val, p => some (st, val, skipSpaces p)
  | n + 1, st, val, p =>
      match ops.find? fun op => startswith (skipSpaces p) op.1 with
      | none => some (st, val, skipSpaces p)
      | some op =>
          (sub st ((skipSpaces p).drop op.1.length)).bind fun (st, rhs, rest) =>
            (op.2 val rhs).bind fun val => evalRest sub ops n st val rest

def evalLevel (sub : Eval) (ops : Ops) : Eval := fun st p =>
  (sub st p).bind fun (st, val, rest) => evalRest sub ops p.length st val rest

def mulOps : Ops :=
  [("*", fun a b => some (long (a * b))),
    ("/", fun a b => if b = 0 then some 0 else if a = -2 ^ 63 ∧ b = -1 then none else some (a.tdiv b)),
    ("%", fun a b => if b = 0 then some 0 else if a = -2 ^ 63 ∧ b = -1 then none else some (a.tmod b))]

def addOps : Ops := [("+", fun a b => some (long (a + b))), ("-", fun a b => some (long (a - b)))]

def relOps : Ops :=
  [("<=", fun a b => some (ofBool (a ≤ b))), (">=", fun a b => some (ofBool (b ≤ a))),
    ("<", fun a b => some (ofBool (a < b))), (">", fun a b => some (ofBool (b < a)))]

def eqOps : Ops := [("==", fun a b => some (ofBool (a = b))), ("!=", fun a b => some (ofBool (a ≠ b)))]

def landOps : Ops := [("&&", fun a b => some (ofBool (a ≠ 0 && b ≠ 0)))]

def lorOps : Ops := [("||", fun a b => some (ofBool (a ≠ 0 || b ≠ 0)))]

/-- From `eval_mul` to the `||` of `eval_pp_expr`. -/
def evalBinary (primary : Eval) : Eval :=
  evalLevel (evalLevel (evalLevel (evalLevel (evalLevel (evalLevel primary mulOps) addOps) relOps) eqOps) landOps) lorOps

/-- The part of `eval_pp_expr` behind its first operand. -/
def evalTernary (expr : Eval) : Preprocessor → Int → Text → Option (Preprocessor × Int × Text) := fun st val p =>
  match skipSpaces p with
  | '?' :: p =>
      (expr st p).bind fun (st, trueVal, rest) =>
        (expr st (skipChar ':' (skipSpaces rest))).map fun (st, falseVal, rest) =>
          (st, if val ≠ 0 then trueVal else falseVal, rest)
  | p => some (st, val, p)

/-- `eval_primary`, given itself and `eval_pp_expr` for a shorter text. -/
def evalPrimaryStep (fs : FileSystem) (filename : Text) (expr primary : Eval) : Eval := fun st p =>
  let p := skipSpaces p
  if startswith p "defined" then evalDefined st (p.drop 7)
  else if startswith p "__has_include" then evalHasInclude fs filename st p
  else
    match p with
    | [] => some (st, 0, p)
    | c :: q =>
        if c = '(' then
          (expr st q).map fun (st, val, rest) => (st, val, skipChar ')' (skipSpaces rest))
        else if c = '!' then (primary st q).map fun (st, val, rest) => (st, ofBool (val = 0), rest)
        else if c = '-' then (primary st q).map fun (st, val, rest) => (st, long (- val), rest)
        else if isdigit c then some (st, saturate (digits p).1, (digits p).2)
        else if isIdent1 c then evalName filename st p
        else some (st, 0, p)

mutual

/-- `eval_primary` -/
def evalPrimary (fs : FileSystem) (filename : Text) : Nat → Eval
  | 0, _, _ => none
  | n + 1, st, p => evalPrimaryStep fs filename (evalPpExpr fs filename n) (evalPrimary fs filename n) st p

/-- `eval_pp_expr` -/
def evalPpExpr (fs : FileSystem) (filename : Text) : Nat → Eval
  | 0, _, _ => none
  | n + 1, st, p =>
      (evalBinary (evalPrimary fs filename n) st p).bind fun (st, val, rest) =>
        evalTernary (evalPpExpr fs filename n) st val rest

end

/-- `eval_condition` -/
def evalCondition (fs : FileSystem) (filename : Text) (st : Preprocessor) (expr : Text) : Option (Preprocessor × Int) :=
  (evalPpExpr fs filename (2 * expr.length + 2) st expr).map fun (st, val, _) => (st, val)

/-! ## What stays -/

/-- An evaluation changes no macro. -/
def Keeps (e : Eval) : Prop := ∀ ⦃st st' p val rest⦄, e st p = some (st', val, rest) → SameMacros st st'

section Keeps

variable {sub expr primary : Eval} {fs : FileSystem} {filename : Text} {st st' : Preprocessor} {val : Int} {p rest : Text}

theorem keeps_rest (hsub : Keeps sub) {ops : Ops} {n : Nat} {v : Int} (h : evalRest sub ops n st v p = some (st', val, rest)) :
    SameMacros st st' := by
  induction n generalizing st v p with
  | zero =>
      obtain ⟨rfl, _⟩ := Prod.mk.inj (Option.some_inj.mp (show some (st, _) = some (st', val, rest) from h))
      exact .refl st
  | succ n ih =>
      rw [evalRest] at h
      split at h
      · obtain ⟨rfl, _⟩ := Prod.mk.inj (Option.some_inj.mp h)
        exact .refl st
      · obtain ⟨⟨st₁, rhs, rest₁⟩, hrhs, hbind⟩ := Option.bind_eq_some_iff.mp h
        obtain ⟨w, _, hloop⟩ := Option.bind_eq_some_iff.mp hbind
        exact (hsub hrhs).trans (ih hloop)

theorem Keeps.level (hsub : Keeps sub) (ops : Ops) : Keeps (evalLevel sub ops) := by
  intro st st' p val rest h
  obtain ⟨⟨st₁, v, rest₁⟩, hfirst, hloop⟩ := Option.bind_eq_some_iff.mp h
  exact (hsub hfirst).trans (keeps_rest hsub hloop)

theorem Keeps.binary (hprimary : Keeps primary) : Keeps (evalBinary primary) :=
  (((((hprimary.level mulOps).level addOps).level relOps).level eqOps).level landOps).level lorOps

theorem keeps_ternary (hexpr : Keeps expr) {v : Int} (h : evalTernary expr st v p = some (st', val, rest)) :
    SameMacros st st' := by
  rw [evalTernary] at h
  split at h
  · obtain ⟨⟨st₁, v₁, rest₁⟩, htrue, hmap⟩ := Option.bind_eq_some_iff.mp h
    obtain ⟨⟨st₂, v₂, rest₂⟩, hfalse, heq⟩ := Option.map_eq_some_iff.mp hmap
    obtain ⟨rfl, _⟩ := Prod.mk.inj heq
    exact (hexpr htrue).trans (hexpr hfalse)
  · obtain ⟨rfl, _⟩ := Prod.mk.inj (Option.some_inj.mp h)
    exact .refl st

theorem hasIncludeSpec_same {spec : Text} {isAngle : Bool}
    (h : hasIncludeSpec filename st p = some (st', spec, isAngle, rest)) : SameMacros st st' := by
  have hrefl : ∀ {t : Text × Bool × Text}, some (st, t) = some (st', spec, isAngle, rest) → SameMacros st st' :=
    fun heq => (Prod.mk.inj (Option.some_inj.mp heq)).1 ▸ .refl st
  rw [hasIncludeSpec.eq_def] at h
  split at h
  · exact hrefl h
  · exact hrefl h
  · split at h
    · exact hrefl h
    · obtain ⟨⟨st₁, sb⟩, hexpand, heq⟩ := Option.map_eq_some_iff.mp h
      exact (Prod.mk.inj heq).1 ▸ expandText_same hexpand

theorem keeps_primary (hexpr : Keeps expr) (hprimary : Keeps primary) : Keeps (evalPrimaryStep fs filename expr primary) := by
  intro st st' p val rest h
  have hrefl : ∀ {t : Int × Text}, some (st, t) = some (st', val, rest) → SameMacros st st' :=
    fun heq => (Prod.mk.inj (Option.some_inj.mp heq)).1 ▸ .refl st
  rw [evalPrimaryStep] at h
  split at h
  · exact hrefl h
  split at h
  · obtain ⟨⟨st₁, spec, isAngle, rest₁⟩, hspec, heq⟩ := Option.map_eq_some_iff.mp h
    obtain ⟨rfl, _⟩ := Prod.mk.inj heq
    exact hasIncludeSpec_same hspec
  split at h
  · exact hrefl h
  split at h
  · obtain ⟨⟨st₁, v, rest₁⟩, hval, heq⟩ := Option.map_eq_some_iff.mp h
    exact (Prod.mk.inj heq).1 ▸ hexpr hval
  split at h
  · obtain ⟨⟨st₁, v, rest₁⟩, hval, heq⟩ := Option.map_eq_some_iff.mp h
    exact (Prod.mk.inj heq).1 ▸ hprimary hval
  split at h
  · obtain ⟨⟨st₁, v, rest₁⟩, hval, heq⟩ := Option.map_eq_some_iff.mp h
    exact (Prod.mk.inj heq).1 ▸ hprimary hval
  split at h
  · exact hrefl h
  split at h
  · rw [evalName] at h
    split at h
    · split at h
      · exact hrefl h
      · obtain ⟨⟨st₁, sb⟩, hexpand, heq⟩ := Option.map_eq_some_iff.mp h
        exact (Prod.mk.inj heq).1 ▸ expandText_same hexpand
    · exact hrefl h
  · exact hrefl h

theorem keeps_eval (fs : FileSystem) (filename : Text) (n : Nat) :
    Keeps (evalPrimary fs filename n) ∧ Keeps (evalPpExpr fs filename n) := by
  induction n with
  | zero => exact ⟨nofun, nofun⟩
  | succ n ih =>
      refine ⟨fun _ _ _ _ _ h => keeps_primary ih.2 ih.1 h, fun _ _ _ _ _ h => ?_⟩
      obtain ⟨⟨st₁, v, rest₁⟩, hbinary, hternary⟩ := Option.bind_eq_some_iff.mp h
      exact (ih.1.binary hbinary).trans (keeps_ternary ih.2 hternary)

end Keeps

/-- `eval_condition` changes no macro. -/
theorem evalCondition_same {fs : FileSystem} {filename : Text} {st st' : Preprocessor} {expr : Text} {val : Int}
    (h : evalCondition fs filename st expr = some (st', val)) : SameMacros st st' := by
  obtain ⟨⟨st₁, v, rest⟩, heval, heq⟩ := Option.map_eq_some_iff.mp h
  exact (Prod.mk.inj heq).1 ▸ (keeps_eval fs filename _).2 heval

end Rcc.Preprocess

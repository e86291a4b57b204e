import Rcc.Loops
import Rcc.PreprocessFile
import Rcc.Steps

/-!
# Does the preprocessor come to an end?

The loops of `preprocess_file` and of what it calls go through a text, and each iteration
goes on behind what it came upon. One does not: over the parameters of a macro the loop
moves for identifiers, blanks, commas and `...` alone, and stands still at any other
character. So a file is gone through to its end just when the parameters of every macro
on the way are made of these.

`expand_text` calls itself so many depths deep at most, and the evaluation of a condition
calls itself for a shorter text.
-/

namespace Rcc.Preprocess

open Lexer (Text isspace isdigit headIs startswith)
open Files (Preprocessor)
open PragmaPack (PackState)
open Loops (Ends Reached Advances AdvancesOrStays)

/-! ## The loops -/

/-- An iteration of the loop of `strip_comments`. -/
def stripStep : Bool × Text → Option (Bool × Text)
  | (_, []) => none
  | (true, c :: p) =>
      if c = '\n' then some (false, p) else if c = '\\' && p ≠ [] then some (true, p.tail) else some (c ≠ '"', p)
  | (false, c :: p) =>
      if c = '"' then some (true, p)
      else if c = '/' && headIs (· = '/') p then some (false, p.dropWhile (· ≠ '\n'))
      else if c = '/' && headIs (· = '*') p then some (false, (blankComment p.tail).2)
      else some (false, p)

/-- An iteration of the loop over the lines. -/
def linesStep (p : Text) : Option Text := if p = [] then none else some (p.dropWhile (· ≠ '\n')).tail

/-- An iteration of the loop of `count_unmatched_parens`. -/
def parensStep : Text → Option Text
  | [] => none
  | c :: p => some (if isQuote c then (literal c p).2 else p)

/-- An iteration of the loop of `parse_macro_args`, with the depth of parentheses. -/
def argsStep : Nat × Text → Option (Nat × Text)
  | (_, []) => none
  | (depth, c :: p) =>
      if isQuote c then some (depth, (literal c p).2)
      else if c = '(' then some (depth + 1, p)
      else if c = ')' then if depth = 1 then none else some (depth - 1, p)
      else some (depth, p)

/-- An iteration of the loop of `expand_text`. -/
def expandStep (expand : Preprocessor → Text → Option (Preprocessor × Text)) (place : Place) :
    Preprocessor × Option Char × Text → Option (Preprocessor × Option Char × Text)
  | (_, _, []) => none
  | (st, prev, c :: p) => (expandAt expand place st prev c p).map fun (st, _, rest) => (st, some c, rest)

/-- An iteration of the loop of `substitute_macro`. -/
def itemsStep (isVariadic : Bool) : Text → Option Text
  | [] => none
  | c :: p => some (item isVariadic c p).2

/-- An iteration of the loop of `paste_tokens`. -/
def pasteStep : Text → Option Text
  | [] => none
  | c :: p => some (if c = '#' && headIs (· = '#') p then p.tail.dropWhile isspace else p)

/-- An iteration of the loop of `canonical_path`. -/
def componentsStep (p : Text) : Option Text :=
  if p = [] then none else some ((p.dropWhile (· ≠ '/')).dropWhile (· = '/'))

/-- An iteration of the loop of one level of a condition. -/
def levelStep (sub : Eval) (ops : Ops) : Preprocessor × Int × Text → Option (Preprocessor × Int × Text)
  | (st, val, p) =>
      (ops.find? fun op => startswith (skipSpaces p) op.1).bind fun op =>
        (sub st ((skipSpaces p).drop op.1.length)).bind fun (st, rhs, rest) => (op.2 val rhs).map fun val => (st, val, rest)

/-- An iteration of the loop over the parameters of a macro. -/
def paramsStep (p : Text) : Option Text :=
  if p = [] || headIs (· = ')') p then none
  else
    let q := p.dropWhile isspace
    if startswith q "..." then
      let rest := (q.drop 3).dropWhile isspace
      if headIs (· = ',') rest then some rest.tail else none
    else
      let rest := (q.dropWhile isIdent2).dropWhile isspace
      if headIs (· = ',') rest then some rest.tail else some rest

/-! ## What an iteration consumes -/

theorem literal_le (quote : Char) (p : Text) : (literal quote p).2.length ≤ p.length := by
  fun_induction literal quote p with
  | case1 => exact Nat.le_refl _
  | case2 => exact Nat.zero_le _
  | case3 => exact Nat.le_succ _
  | case4 c p h ih => exact Nat.le_succ_of_le (Nat.le_succ_of_le ih)
  | case5 c d p h h' ih => exact Nat.le_succ_of_le ih

theorem blankComment_le (p : Text) : (blankComment p).2.length ≤ p.length := by
  fun_induction blankComment p with
  | case1 => exact Nat.le_refl _
  | case2 => exact Nat.zero_le _
  | case3 => exact Nat.le_succ_of_le (Nat.le_succ _)
  | case4 c d p h ih => exact Nat.le_succ_of_le ih

theorem stripStep_advances : Advances (fun s => s.2.length) stripStep := by
  rintro ⟨inString, p⟩ t h
  cases p with
  | nil =>
      cases inString with
      | false => exact absurd h nofun
      | true => exact absurd h nofun
  | cons c p =>
      have hlt : ∀ {b : Bool} {q : Text}, some (b, q) = some t → q.length ≤ p.length → t.2.length < (c :: p).length :=
        fun heq hle => Option.some_inj.mp heq ▸ Nat.lt_succ_of_le hle
      have htail := (List.tail_sublist p).length_le
      cases inString with
      | true =>
          rw [stripStep] at h
          split at h
          · exact hlt h (Nat.le_refl _)
          split at h
          · exact hlt h htail
          · exact hlt h (Nat.le_refl _)
      | false =>
          rw [stripStep] at h
          split at h
          · exact hlt h (Nat.le_refl _)
          split at h
          · exact hlt h (List.dropWhile_sublist _).length_le
          split at h
          · exact hlt h (Nat.le_trans (blankComment_le _) htail)
          · exact hlt h (Nat.le_refl _)

theorem linesStep_advances : Advances List.length linesStep := by
  intro p q h
  obtain ⟨hp, h⟩ := Option.ite_none_left_eq_some.mp h
  obtain rfl := Option.some_inj.mp h
  obtain ⟨c, p, rfl⟩ := List.exists_cons_of_ne_nil hp
  cases hdrop : (c :: p).dropWhile (· ≠ '\n') with
  | nil => exact Nat.succ_pos _
  | cons d q =>
      have hle := (List.dropWhile_sublist (fun c => decide (c ≠ '\n')) (l := c :: p)).length_le
      rw [hdrop] at hle
      exact hle

theorem parensStep_advances : Advances List.length parensStep := by
  intro p q h
  cases p with
  | nil => exact absurd h nofun
  | cons c p =>
      obtain rfl := Option.some_inj.mp h
      split
      · exact Nat.lt_succ_of_le (literal_le c p)
      · exact Nat.lt_succ_self _

theorem argsStep_advances : Advances (fun s => s.2.length) argsStep := by
  rintro ⟨depth, p⟩ t h
  cases p with
  | nil => exact absurd h nofun
  | cons c p =>
      have hlt : ∀ {k : Nat} {q : Text}, some (k, q) = some t → q.length ≤ p.length → t.2.length < (c :: p).length :=
        fun heq hle => Option.some_inj.mp heq ▸ Nat.lt_succ_of_le hle
      rw [argsStep] at h
      split at h
      · exact hlt h (literal_le c p)
      split at h
      · exact hlt h (Nat.le_refl _)
      split at h
      · split at h
        · exact absurd h nofun
        · exact hlt h (Nat.le_refl _)
      · exact hlt h (Nat.le_refl _)

theorem item_le (isVariadic : Bool) (c : Char) (p : Text) : (item isVariadic c p).2.length ≤ p.length := by
  have hpaste : (p.tail.dropWhile isspace).length ≤ p.length :=
    ((List.dropWhile_sublist _).trans (List.tail_sublist p)).length_le
  have hname : (p.dropWhile isspace).length ≤ p.length := (List.dropWhile_sublist _).length_le
  rw [item]
  split
  · exact literal_le c p
  split
  · dsimp only
    split
    · exact Nat.le_trans (List.drop_sublist 11 _).length_le hpaste
    · exact hpaste
  split
  · dsimp only
    split
    · exact Nat.le_trans (List.dropWhile_sublist _).length_le hname
    · exact hname
  split
  · exact (List.dropWhile_sublist _).length_le
  · exact Nat.le_refl _

theorem itemsStep_advances (isVariadic : Bool) : Advances List.length (itemsStep isVariadic) := by
  intro p q h
  cases p with
  | nil => exact absurd h nofun
  | cons c p =>
      obtain rfl := Option.some_inj.mp h
      exact Nat.lt_succ_of_le (item_le isVariadic c p)

theorem pasteStep_advances : Advances List.length pasteStep := by
  intro p q h
  cases p with
  | nil => exact absurd h nofun
  | cons c p =>
      obtain rfl := Option.some_inj.mp h
      split
      · exact Nat.lt_succ_of_le ((List.dropWhile_sublist _).trans (List.tail_sublist p)).length_le
      · exact Nat.lt_succ_self _

theorem componentsStep_advances : Advances List.length componentsStep := by
  intro p q h
  obtain ⟨hp, h⟩ := Option.ite_none_left_eq_some.mp h
  obtain rfl := Option.some_inj.mp h
  obtain ⟨c, p, rfl⟩ := List.exists_cons_of_ne_nil hp
  by_cases hc : c = '/'
  · rw [List.dropWhile_cons_of_neg (by simpa using hc), List.dropWhile_cons_of_pos (by simpa using hc)]
    exact Nat.lt_succ_of_le (List.dropWhile_sublist _).length_le
  · rw [List.dropWhile_cons_of_pos (by simpa using hc)]
    exact Nat.lt_succ_of_le ((List.dropWhile_sublist _).trans (List.dropWhile_sublist _)).length_le

theorem macroArgsLoop_le {n depth : Nat} {arg p rest : Text} {args args' : List Text}
    (h : macroArgsLoop n arg args depth p = some (args', rest)) : rest.length ≤ p.length := by
  induction n generalizing arg args depth p with
  | zero => exact absurd h nofun
  | succ n ih =>
      cases p with
      | nil => exact absurd h nofun
      | cons c p =>
          rw [macroArgsLoop] at h
          split at h
          · exact Nat.le_succ_of_le (Nat.le_trans (ih h) (literal_le c p))
          split at h
          · exact Nat.le_succ_of_le (ih h)
          split at h
          · split at h
            · rw [← (Prod.mk.inj (Option.some_inj.mp h)).2]
              exact Nat.le_succ _
            · obtain ⟨-, h⟩ := Option.ite_none_right_eq_some.mp h
              rw [← (Prod.mk.inj (Option.some_inj.mp h)).2]
              exact Nat.le_succ _
          split at h
          · exact Nat.le_succ_of_le (ih h)
          split at h
          · obtain ⟨-, h⟩ := Option.ite_none_right_eq_some.mp h
            exact Nat.le_succ_of_le (ih h)
          · exact Nat.le_succ_of_le (ih h)

theorem expandAt_le {expand : Preprocessor → Text → Option (Preprocessor × Text)} {place : Place} {st st' : Preprocessor}
    {prev : Option Char} {c : Char} {p sb rest : Text} (h : expandAt expand place st prev c p = some (st', sb, rest)) :
    rest.length ≤ p.length := by
  have hsome : ∀ {t : Preprocessor} {a q : Text}, some (t, a, q) = some (st', sb, rest) → q.length ≤ p.length → rest.length ≤ p.length :=
    fun heq hle => (Prod.mk.inj (Prod.mk.inj (Option.some_inj.mp heq)).2).2 ▸ hle
  have hname : (p.dropWhile isIdent2).length ≤ p.length := (List.dropWhile_sublist _).length_le
  rw [expandAt] at h
  split at h
  · exact hsome h hname
  split at h
  · exact hsome h (literal_le c p)
  split at h
  · cases expandName_cases h with
    | line | file | counter | kept | painted => exact hname
    | call _ _ hargs _ =>
        have hle := (List.dropWhile_sublist isspace (l := p.dropWhile isIdent2)).length_le
        rw [hargs.1, List.length_cons] at hle
        have hrest := macroArgsLoop_le hargs.2
        omega
    | rescan => exact hname
  · exact hsome h (Nat.le_refl _)

theorem expandStep_advances (expand : Preprocessor → Text → Option (Preprocessor × Text)) (place : Place) :
    Advances (fun s => s.2.2.length) (expandStep expand place) := by
  rintro ⟨st, prev, p⟩ t h
  cases p with
  | nil => exact absurd h nofun
  | cons c p =>
      obtain ⟨⟨st', sb, rest⟩, hat, rfl⟩ := Option.map_eq_some_iff.mp h
      exact Nat.lt_succ_of_le (expandAt_le hat)

/-! ## Conditions -/

/-- An evaluation does not go back. -/
def Shrinks (e : Eval) : Prop := ∀ ⦃st st' p val rest⦄, e st p = some (st', val, rest) → rest.length ≤ p.length

theorem skipSpaces_le (p : Text) : (skipSpaces p).length ≤ p.length := (List.dropWhile_sublist _).length_le

theorem skipChar_le (c : Char) (p : Text) : (skipChar c p).length ≤ p.length := by
  rw [skipChar]
  split
  · exact (List.tail_sublist p).length_le
  · exact Nat.le_refl _

/-- No operator is the empty text. -/
def Spelled (ops : Ops) : Prop := ∀ op ∈ ops, op.1.toList ≠ []

theorem operator_shorter {p : Text} {w : String} (hw : w.toList ≠ []) (h : startswith (skipSpaces p) w = true) :
    ((skipSpaces p).drop w.length).length < p.length := by
  obtain ⟨rest, hrest⟩ := List.isPrefixOf_iff_prefix.mp h
  have hle := skipSpaces_le p
  have hpos := List.length_pos_of_ne_nil hw
  rw [← hrest, List.length_append] at hle
  rw [← hrest, List.length_drop, List.length_append, ← String.length_toList]
  omega

theorem levelStep_advances {sub : Eval} (hsub : Shrinks sub) {ops : Ops} (hops : Spelled ops) :
    Advances (fun s => s.2.2.length) (levelStep sub ops) := by
  rintro ⟨st, val, p⟩ t h
  obtain ⟨op, hop, h⟩ := Option.bind_eq_some_iff.mp h
  obtain ⟨⟨st', rhs, rest⟩, hrhs, h⟩ := Option.bind_eq_some_iff.mp h
  obtain ⟨v, -, rfl⟩ := Option.map_eq_some_iff.mp h
  have hstart := List.find?_some hop
  exact Nat.lt_of_le_of_lt (hsub hrhs) (operator_shorter (hops op (List.mem_of_find?_eq_some hop)) hstart)

theorem shrinks_rest {sub : Eval} (hsub : Shrinks sub) {ops : Ops} {n : Nat} {st st' : Preprocessor} {v val : Int} {p rest : Text}
    (h : evalRest sub ops n st v p = some (st', val, rest)) : rest.length ≤ p.length := by
  induction n generalizing st v p with
  | zero =>
      obtain ⟨-, h⟩ := Prod.mk.inj (Option.some_inj.mp (show some (st, v, skipSpaces p) = some (st', val, rest) from h))
      rw [← (Prod.mk.inj h).2]
      exact skipSpaces_le p
  | succ n ih =>
      rw [evalRest] at h
      split at h
      · obtain ⟨-, h⟩ := Prod.mk.inj (Option.some_inj.mp h)
        rw [← (Prod.mk.inj h).2]
        exact skipSpaces_le p
      · next op hop =>
          obtain ⟨⟨st₁, rhs, rest₁⟩, hrhs, hbind⟩ := Option.bind_eq_some_iff.mp h
          obtain ⟨w, -, hloop⟩ := Option.bind_eq_some_iff.mp hbind
          have hdrop := (List.drop_sublist op.1.length (skipSpaces p)).length_le
          exact Nat.le_trans (ih hloop) (Nat.le_trans (hsub hrhs) (Nat.le_trans hdrop (skipSpaces_le p)))

theorem Shrinks.level {sub : Eval} (hsub : Shrinks sub) (ops : Ops) : Shrinks (evalLevel sub ops) := by
  intro st st' p val rest h
  obtain ⟨⟨st₁, v, rest₁⟩, hfirst, hloop⟩ := Option.bind_eq_some_iff.mp h
  exact Nat.le_trans (shrinks_rest hsub hloop) (hsub hfirst)

theorem Shrinks.binary {primary : Eval} (h : Shrinks primary) : Shrinks (evalBinary primary) :=
  (((((h.level mulOps).level addOps).level relOps).level eqOps).level landOps).level lorOps

theorem shrinks_ternary {expr : Eval} (hexpr : Shrinks expr) {st st' : Preprocessor} {v val : Int} {p rest : Text}
    (h : evalTernary expr st v p = some (st', val, rest)) : rest.length ≤ p.length := by
  rw [evalTernary.eq_def] at h
  split at h
  · next q hq =>
      obtain ⟨⟨st₁, v₁, rest₁⟩, htrue, hmap⟩ := Option.bind_eq_some_iff.mp h
      obtain ⟨⟨st₂, v₂, rest₂⟩, hfalse, heq⟩ := Option.map_eq_some_iff.mp hmap
      obtain ⟨-, heq⟩ := Prod.mk.inj heq
      obtain ⟨-, rfl⟩ := Prod.mk.inj heq
      have hle := skipSpaces_le p
      rw [hq, List.length_cons] at hle
      have hcolon := Nat.le_trans (skipChar_le ':' (skipSpaces rest₁)) (skipSpaces_le rest₁)
      exact Nat.le_trans (hexpr hfalse) (Nat.le_trans hcolon (Nat.le_trans (hexpr htrue) (Nat.le_of_succ_le hle)))
  · obtain ⟨-, h⟩ := Prod.mk.inj (Option.some_inj.mp h)
    rw [← (Prod.mk.inj h).2]
    exact skipSpaces_le p

theorem digits_le (p : Text) : (digits p).2.length ≤ p.length := by
  rw [digits.eq_def]
  split
  · split
    · exact Nat.le_succ_of_le (Nat.le_succ_of_le (List.dropWhile_sublist _).length_le)
    · exact Nat.le_succ_of_le (List.dropWhile_sublist _).length_le
  · exact (List.dropWhile_sublist _).length_le

theorem evalDefined_shrinks : Shrinks evalDefined := by
  intro st st' p val rest h
  obtain ⟨-, h⟩ := Prod.mk.inj (Option.some_inj.mp h)
  obtain ⟨-, rfl⟩ := Prod.mk.inj h
  have hopen : ∀ q : Text, (if headIs (· = '(') q then skipSpaces q.tail else q).length ≤ q.length := by
    intro q
    split
    · exact Nat.le_trans (skipSpaces_le _) (List.tail_sublist q).length_le
    · exact Nat.le_refl _
  exact Nat.le_trans (skipChar_le ')' _) (Nat.le_trans (skipSpaces_le _)
    (Nat.le_trans (List.dropWhile_sublist _).length_le (Nat.le_trans (hopen _) (skipSpaces_le p))))

theorem hasIncludeSpec_le {filename p spec rest : Text} {st st' : Preprocessor} {isAngle : Bool}
    (h : hasIncludeSpec filename st p = some (st', spec, isAngle, rest)) : rest.length ≤ p.length := by
  have hsome : ∀ {t : Preprocessor} {a q : Text} {b : Bool}, some (t, a, b, q) = some (st', spec, isAngle, rest) →
      q.length ≤ p.length → rest.length ≤ p.length := by
    intro t a q b heq hle
    exact (Prod.mk.inj (Prod.mk.inj (Prod.mk.inj (Option.some_inj.mp heq)).2).2).2 ▸ hle
  have hexpanded : ∀ s r : Text, (expandedSpec s r).2.2 = r := by
    intro s r
    rw [expandedSpec.eq_def]
    split
    · rfl
    · rfl
    · rfl
  rw [hasIncludeSpec.eq_def] at h
  split at h
  · exact hsome h (Nat.le_succ_of_le ((List.tail_sublist _).trans (List.dropWhile_sublist _)).length_le)
  · exact hsome h (Nat.le_succ_of_le ((List.tail_sublist _).trans (List.dropWhile_sublist _)).length_le)
  · split at h
    · exact hsome h (List.dropWhile_sublist _).length_le
    · obtain ⟨⟨st₁, sb⟩, -, heq⟩ := Option.map_eq_some_iff.mp h
      have hrest := congrArg (fun t => t.2.2.2) heq
      have hrest : (expandedSpec sb (p.dropWhile (· ≠ ')'))).2.2 = rest := hrest
      rw [← hrest, hexpanded]
      exact (List.dropWhile_sublist _).length_le

theorem evalHasInclude_shrinks (fs : FileSystem) (filename : Text) : Shrinks (evalHasInclude fs filename) := by
  intro st st' p val rest h
  obtain ⟨⟨st₁, spec, isAngle, rest₁⟩, hspec, heq⟩ := Option.map_eq_some_iff.mp h
  obtain ⟨-, heq⟩ := Prod.mk.inj heq
  obtain ⟨-, rfl⟩ := Prod.mk.inj heq
  exact Nat.le_trans (skipChar_le ')' _) (Nat.le_trans (hasIncludeSpec_le hspec) (Nat.le_trans (skipSpaces_le _)
    (Nat.le_trans (skipChar_le '(' _) (Nat.le_trans (skipSpaces_le _) (List.drop_sublist _ p).length_le))))

theorem evalName_shrinks (filename : Text) : Shrinks (evalName filename) := by
  intro st st' p val rest h
  have hsome : ∀ {t : Preprocessor} {v : Int}, some (t, v, p.dropWhile isIdent2) = some (st', val, rest) → rest.length ≤ p.length :=
    fun heq => (Prod.mk.inj (Prod.mk.inj (Option.some_inj.mp heq)).2).2 ▸ (List.dropWhile_sublist _).length_le
  rw [evalName] at h
  split at h
  · split at h
    · exact hsome h
    · obtain ⟨⟨st₁, sb⟩, -, heq⟩ := Option.map_eq_some_iff.mp h
      exact hsome (congrArg some heq)
  · exact hsome h

theorem shrinks_primary {fs : FileSystem} {filename : Text} {expr primary : Eval} (hexpr : Shrinks expr) (hprimary : Shrinks primary) :
    Shrinks (evalPrimaryStep fs filename expr primary) := by
  intro st st' p val rest h
  have hspaces := skipSpaces_le p
  refine Nat.le_trans ?_ hspaces
  rw [evalPrimaryStep] at h
  generalize skipSpaces p = q at h
  have hsome : ∀ {t : Preprocessor} {v : Int} {r : Text}, some (t, v, r) = some (st', val, rest) → r.length ≤ q.length → rest.length ≤ q.length :=
    fun heq hle => (Prod.mk.inj (Prod.mk.inj (Option.some_inj.mp heq)).2).2 ▸ hle
  split at h
  · exact Nat.le_trans (evalDefined_shrinks h) (List.drop_sublist 7 q).length_le
  split at h
  · exact evalHasInclude_shrinks fs filename h
  split at h
  · exact hsome h (Nat.le_refl _)
  split at h
  · obtain ⟨⟨st₁, v, rest₁⟩, hval, heq⟩ := Option.map_eq_some_iff.mp h
    exact hsome (congrArg some heq) (Nat.le_succ_of_le (Nat.le_trans (skipChar_le ')' _) (Nat.le_trans (skipSpaces_le _) (hexpr hval))))
  split at h
  · obtain ⟨⟨st₁, v, rest₁⟩, hval, heq⟩ := Option.map_eq_some_iff.mp h
    exact hsome (congrArg some heq) (Nat.le_succ_of_le (hprimary hval))
  split at h
  · obtain ⟨⟨st₁, v, rest₁⟩, hval, heq⟩ := Option.map_eq_some_iff.mp h
    exact hsome (congrArg some heq) (Nat.le_succ_of_le (hprimary hval))
  split at h
  · exact hsome h (digits_le _)
  split at h
  · exact evalName_shrinks filename h
  · exact hsome h (Nat.le_refl _)

theorem shrinks_eval (fs : FileSystem) (filename : Text) (n : Nat) :
    Shrinks (evalPrimary fs filename n) ∧ Shrinks (evalPpExpr fs filename n) := by
  induction n with
  | zero => exact ⟨nofun, nofun⟩
  | succ n ih =>
      refine ⟨fun _ _ _ _ _ h => shrinks_primary ih.2 ih.1 h, fun _ _ _ _ _ h => ?_⟩
      obtain ⟨⟨st₁, v, rest₁⟩, hbinary, hternary⟩ := Option.bind_eq_some_iff.mp h
      exact Nat.le_trans (shrinks_ternary ih.2 hternary) (ih.1.binary hbinary)

/-! ## The recursion of a condition -/

/-- The same for texts up to this length. -/
def Agree (n : Nat) (e e' : Eval) : Prop := ∀ st p, p.length ≤ n → e st p = e' st p

theorem Agree.mono {n m : Nat} {e e' : Eval} (h : Agree n e e') (hm : m ≤ n) : Agree m e e' := fun st p hp => h st p (Nat.le_trans hp hm)

theorem agree_rest {n k : Nat} {sub sub' : Eval} (h : Agree n sub sub') (hsub : Shrinks sub) (ops : Ops) (st : Preprocessor) (val : Int)
    {p : Text} (hp : p.length ≤ n) : evalRest sub ops k st val p = evalRest sub' ops k st val p := by
  induction k generalizing st val p with
  | zero => rfl
  | succ k ih =>
      rw [evalRest, evalRest]
      split
      · rfl
      · next op hop =>
          have hdrop := Nat.le_trans (List.drop_sublist op.1.length (skipSpaces p)).length_le (Nat.le_trans (skipSpaces_le p) hp)
          rw [← h st _ hdrop]
          refine Option.bind_congr fun r hrhs => ?_
          obtain ⟨st', rhs, rest⟩ := r
          exact Option.bind_congr fun v _ => ih st' v (Nat.le_trans (hsub hrhs) hdrop)

theorem Agree.level {n : Nat} {sub sub' : Eval} (h : Agree n sub sub') (hsub : Shrinks sub) (ops : Ops) :
    Agree n (evalLevel sub ops) (evalLevel sub' ops) := by
  intro st p hp
  rw [evalLevel, evalLevel, ← h st p hp]
  exact Option.bind_congr fun ⟨st', val, rest⟩ hfirst => agree_rest h hsub ops st' val (Nat.le_trans (hsub hfirst) hp)

theorem Agree.binary {n : Nat} {primary primary' : Eval} (h : Agree n primary primary') (hprimary : Shrinks primary) :
    Agree n (evalBinary primary) (evalBinary primary') :=
  have hmul := hprimary.level mulOps
  have hadd := hmul.level addOps
  have hrel := hadd.level relOps
  have heq := hrel.level eqOps
  (((((h.level hprimary mulOps).level hmul addOps).level hadd relOps).level hrel eqOps).level heq landOps).level (heq.level landOps) lorOps

theorem agree_ternary {n : Nat} {expr expr' : Eval} (h : Agree n expr expr') (hexpr : Shrinks expr) (st : Preprocessor) (val : Int)
    {p : Text} (hp : p.length ≤ n + 1) : evalTernary expr st val p = evalTernary expr' st val p := by
  have hle := skipSpaces_le p
  rw [evalTernary.eq_def, evalTernary.eq_def]
  split
  · next q hq =>
      rw [hq, List.length_cons] at hle
      have hqn : q.length ≤ n := Nat.le_of_succ_le_succ (Nat.le_trans hle hp)
      rw [← h st q hqn]
      refine Option.bind_congr fun ⟨st', v, rest⟩ htrue => ?_
      have hcolon := Nat.le_trans (skipChar_le ':' (skipSpaces rest)) (skipSpaces_le rest)
      exact congrArg (Option.map _) (h st' _ (Nat.le_trans hcolon (Nat.le_trans (hexpr htrue) hqn)))
  · rfl

/-- `eval_primary` calls itself and `eval_pp_expr` for shorter texts. -/
theorem agree_primary {n : Nat} {fs : FileSystem} {filename : Text} {expr expr' primary primary' : Eval} (hexpr : Agree n expr expr')
    (hprimary : Agree n primary primary') :
    Agree (n + 1) (evalPrimaryStep fs filename expr primary) (evalPrimaryStep fs filename expr' primary') := by
  intro st p hp
  have hle := Nat.le_trans (skipSpaces_le p) hp
  rw [evalPrimaryStep, evalPrimaryStep]
  generalize skipSpaces p = q at hle
  split
  · rfl
  split
  · rfl
  cases q with
  | nil => rfl
  | cons c q =>
      have hq : q.length ≤ n := Nat.le_of_succ_le_succ hle
      dsimp only
      rw [hexpr st q hq, hprimary st q hq]

/-- A bound that is above twice the length of the text is never met. -/
theorem eval_congr (fs : FileSystem) (filename : Text) (n : Nat) :
    (∀ m k, 2 * k + 1 ≤ n → 2 * k + 1 ≤ m → Agree k (evalPrimary fs filename n) (evalPrimary fs filename m)) ∧
      ∀ m k, 2 * k + 2 ≤ n → 2 * k + 2 ≤ m → Agree k (evalPpExpr fs filename n) (evalPpExpr fs filename m) := by
  induction n with
  | zero => exact ⟨fun m k hn => absurd hn (Nat.not_succ_le_zero _), fun m k hn => absurd hn (Nat.not_succ_le_zero _)⟩
  | succ n ih =>
      refine ⟨fun m k hn hm => ?_, fun m k hn hm => ?_⟩
      · obtain ⟨m, rfl⟩ := Nat.exists_eq_add_one_of_ne_zero (show m ≠ 0 by omega)
        cases k with
        | zero =>
            intro st p hp
            rw [List.eq_nil_of_length_eq_zero (Nat.le_zero.mp hp)]
            rfl
        | succ k => exact agree_primary (ih.2 m k (by omega) (by omega)) (ih.1 m k (by omega) (by omega))
      · obtain ⟨m, rfl⟩ := Nat.exists_eq_add_one_of_ne_zero (show m ≠ 0 by omega)
        intro st p hp
        have hbinary := (ih.1 m k (by omega) (by omega)).binary (shrinks_eval fs filename n).1
        rw [evalPpExpr, evalPpExpr, ← hbinary st p hp]
        refine Option.bind_congr fun ⟨st', val, rest⟩ hval => ?_
        have hrest := Nat.le_trans ((shrinks_eval fs filename n).1.binary hval) hp
        cases k with
        | zero =>
            rw [List.eq_nil_of_length_eq_zero (Nat.le_zero.mp hrest)]
            rfl
        | succ k => exact agree_ternary (ih.2 m k (by omega) (by omega)) (shrinks_eval fs filename n).2 st' val hrest

/-! ## The bounds of the model -/

section Bounds

variable {n m : Nat} {p : Text}

theorem stripComments_nil (n : Nat) (inString : Bool) : stripComments n inString [] = [] := by
  cases n with
  | zero => rfl
  | succ n =>
      cases inString with
      | false => rfl
      | true => rfl

theorem stripComments_congr {inString : Bool} (hn : p.length ≤ n) (hm : p.length ≤ m) :
    stripComments n inString p = stripComments m inString p := by
  induction n generalizing p m inString with
  | zero => rw [List.eq_nil_of_length_eq_zero (Nat.le_zero.mp hn), stripComments_nil, stripComments_nil]
  | succ n ih =>
      cases p with
      | nil => rw [stripComments_nil, stripComments_nil]
      | cons c p =>
          obtain ⟨m, rfl⟩ := Nat.exists_eq_add_one_of_ne_zero (Nat.ne_zero_of_lt hm)
          rw [List.length_cons] at hn hm
          have hstep : ∀ {b : Bool} {q : Text}, q.length ≤ p.length → stripComments n b q = stripComments m b q :=
            fun hq => ih (by omega) (by omega)
          have htail := (List.tail_sublist p).length_le
          cases inString with
          | true => rw [stripComments, stripComments, hstep (Nat.le_refl _), hstep htail, hstep (Nat.le_refl _)]
          | false =>
              rw [stripComments, stripComments, hstep (Nat.le_refl _), hstep (List.dropWhile_sublist _).length_le,
                hstep (Nat.le_trans (blankComment_le _) htail), hstep (Nat.le_refl _)]

theorem splitLines_nil (n : Nat) : splitLines n [] = [] := by
  cases n with
  | zero => rfl
  | succ n => rfl

theorem splitLines_congr (hn : p.length ≤ n) (hm : p.length ≤ m) : splitLines n p = splitLines m p := by
  induction n generalizing p m with
  | zero => rw [List.eq_nil_of_length_eq_zero (Nat.le_zero.mp hn), splitLines_nil, splitLines_nil]
  | succ n ih =>
      cases p with
      | nil => rw [splitLines_nil, splitLines_nil]
      | cons c p =>
          obtain ⟨m, rfl⟩ := Nat.exists_eq_add_one_of_ne_zero (Nat.ne_zero_of_lt hm)
          have hlt := linesStep_advances (show linesStep (c :: p) = some _ from if_neg (List.cons_ne_nil c p))
          exact congrArg (_ :: ·) (ih (Nat.le_of_lt_succ (Nat.lt_of_lt_of_le hlt hn)) (Nat.le_of_lt_succ (Nat.lt_of_lt_of_le hlt hm)))

theorem countUnmatchedParens_nil (n : Nat) : countUnmatchedParens n [] = 0 := by
  cases n with
  | zero => rfl
  | succ n => rfl

theorem countUnmatchedParens_congr (hn : p.length ≤ n) (hm : p.length ≤ m) : countUnmatchedParens n p = countUnmatchedParens m p := by
  induction n generalizing p m with
  | zero => rw [List.eq_nil_of_length_eq_zero (Nat.le_zero.mp hn), countUnmatchedParens_nil, countUnmatchedParens_nil]
  | succ n ih =>
      cases p with
      | nil => rw [countUnmatchedParens_nil, countUnmatchedParens_nil]
      | cons c p =>
          obtain ⟨m, rfl⟩ := Nat.exists_eq_add_one_of_ne_zero (Nat.ne_zero_of_lt hm)
          rw [List.length_cons] at hn hm
          have hliteral := literal_le c p
          rw [countUnmatchedParens, countUnmatchedParens, ih (show (literal c p).2.length ≤ n by omega) (show _ ≤ m by omega),
            ih (show p.length ≤ n by omega) (show p.length ≤ m by omega)]

theorem macroArgsLoop_congr {arg : Text} {args : List Text} {depth : Nat} (hn : p.length < n) (hm : p.length < m) :
    macroArgsLoop n arg args depth p = macroArgsLoop m arg args depth p := by
  induction n generalizing p m arg args depth with
  | zero => exact absurd hn (Nat.not_lt_zero _)
  | succ n ih =>
      obtain ⟨m, rfl⟩ := Nat.exists_eq_add_one_of_ne_zero (Nat.ne_zero_of_lt hm)
      cases p with
      | nil => rfl
      | cons c p =>
          rw [List.length_cons] at hn hm
          have hliteral := literal_le c p
          have hstep : ∀ {arg : Text} {args : List Text} {depth : Nat} {q : Text}, q.length ≤ p.length →
              macroArgsLoop n arg args depth q = macroArgsLoop m arg args depth q := fun hq => ih (by omega) (by omega)
          rw [macroArgsLoop, macroArgsLoop, hstep hliteral]
          simp only [hstep (Nat.le_refl p.length)]

theorem itemsLoop_nil (n : Nat) (isVariadic : Bool) : itemsLoop isVariadic n [] = [] := by
  cases n with
  | zero => rfl
  | succ n => rfl

theorem itemsLoop_congr {isVariadic : Bool} (hn : p.length ≤ n) (hm : p.length ≤ m) : itemsLoop isVariadic n p = itemsLoop isVariadic m p := by
  induction n generalizing p m with
  | zero => rw [List.eq_nil_of_length_eq_zero (Nat.le_zero.mp hn), itemsLoop_nil, itemsLoop_nil]
  | succ n ih =>
      cases p with
      | nil => rw [itemsLoop_nil, itemsLoop_nil]
      | cons c p =>
          obtain ⟨m, rfl⟩ := Nat.exists_eq_add_one_of_ne_zero (Nat.ne_zero_of_lt hm)
          rw [List.length_cons] at hn hm
          have hle := item_le isVariadic c p
          rw [itemsLoop, itemsLoop, ih (by omega) (show _ ≤ m by omega)]

theorem pasteLoop_nil (n : Nat) (sb : Text) : pasteLoop n sb [] = sb := by
  cases n with
  | zero => rfl
  | succ n => rfl

theorem pasteLoop_congr {sb : Text} (hn : p.length ≤ n) (hm : p.length ≤ m) : pasteLoop n sb p = pasteLoop m sb p := by
  induction n generalizing p m sb with
  | zero => rw [List.eq_nil_of_length_eq_zero (Nat.le_zero.mp hn), pasteLoop_nil, pasteLoop_nil]
  | succ n ih =>
      cases p with
      | nil => rw [pasteLoop_nil, pasteLoop_nil]
      | cons c p =>
          obtain ⟨m, rfl⟩ := Nat.exists_eq_add_one_of_ne_zero (Nat.ne_zero_of_lt hm)
          rw [List.length_cons] at hn hm
          have hle : (p.tail.dropWhile isspace).length ≤ p.length := ((List.dropWhile_sublist _).trans (List.tail_sublist p)).length_le
          rw [pasteLoop, pasteLoop, ih (show (p.tail.dropWhile isspace).length ≤ n by omega) (show _ ≤ m by omega),
            ih (show p.length ≤ n by omega) (show p.length ≤ m by omega)]

theorem expandLoop_nil {expand : Preprocessor → Text → Option (Preprocessor × Text)} {place : Place} (n : Nat) (st : Preprocessor)
    (prev : Option Char) : expandLoop expand place n st prev [] = some (st, []) := by
  cases n with
  | zero => rfl
  | succ n => rfl

theorem expandLoop_congr {expand : Preprocessor → Text → Option (Preprocessor × Text)} {place : Place} {st : Preprocessor}
    {prev : Option Char} (hn : p.length ≤ n) (hm : p.length ≤ m) :
    expandLoop expand place n st prev p = expandLoop expand place m st prev p := by
  induction n generalizing p m st prev with
  | zero => rw [List.eq_nil_of_length_eq_zero (Nat.le_zero.mp hn), expandLoop_nil, expandLoop_nil]
  | succ n ih =>
      cases p with
      | nil => rw [expandLoop_nil, expandLoop_nil]
      | cons c p =>
          obtain ⟨m, rfl⟩ := Nat.exists_eq_add_one_of_ne_zero (Nat.ne_zero_of_lt hm)
          rw [List.length_cons] at hn hm
          rw [expandLoop, expandLoop]
          refine Option.bind_congr fun ⟨st', sb, rest⟩ hat => ?_
          have hle := expandAt_le hat
          exact congrArg (Option.map _) (ih (by omega) (by omega))

theorem components_nil (n : Nat) : components n [] = [] := by
  cases n with
  | zero => rfl
  | succ n => rfl

theorem components_congr (hn : p.length ≤ n) (hm : p.length ≤ m) : components n p = components m p := by
  induction n generalizing p m with
  | zero => rw [List.eq_nil_of_length_eq_zero (Nat.le_zero.mp hn), components_nil, components_nil]
  | succ n ih =>
      cases p with
      | nil => rw [components_nil, components_nil]
      | cons c p =>
          obtain ⟨m, rfl⟩ := Nat.exists_eq_add_one_of_ne_zero (Nat.ne_zero_of_lt hm)
          have hlt := componentsStep_advances (show componentsStep (c :: p) = some _ from if_neg (List.cons_ne_nil c p))
          exact congrArg (_ :: ·) (ih (Nat.le_of_lt_succ (Nat.lt_of_lt_of_le hlt hn)) (Nat.le_of_lt_succ (Nat.lt_of_lt_of_le hlt hm)))

theorem evalRest_nil {sub : Eval} {ops : Ops} (hops : Spelled ops) (n : Nat) (st : Preprocessor) (val : Int) :
    evalRest sub ops n st val [] = some (st, val, []) := by
  cases n with
  | zero => rfl
  | succ n =>
      have hnone : ops.find? (fun op => startswith (skipSpaces []) op.1) = none := by
        refine List.find?_eq_none.mpr fun op hop hstart => ?_
        obtain ⟨rest, hrest⟩ := List.isPrefixOf_iff_prefix.mp hstart
        exact hops op hop (List.append_eq_nil_iff.mp hrest).1
      rw [evalRest, hnone]
      rfl

theorem evalRest_congr {sub : Eval} (hsub : Shrinks sub) {ops : Ops} (hops : Spelled ops) {st : Preprocessor} {val : Int}
    (hn : p.length ≤ n) (hm : p.length ≤ m) : evalRest sub ops n st val p = evalRest sub ops m st val p := by
  induction n generalizing p m st val with
  | zero => rw [List.eq_nil_of_length_eq_zero (Nat.le_zero.mp hn), evalRest_nil hops, evalRest_nil hops]
  | succ n ih =>
      cases m with
      | zero => rw [List.eq_nil_of_length_eq_zero (Nat.le_zero.mp hm), evalRest_nil hops, evalRest_nil hops]
      | succ m =>
          rw [evalRest, evalRest]
          split
          · rfl
          · next op hop =>
              have hstart := List.find?_some hop
              have hlt := operator_shorter (hops op (List.mem_of_find?_eq_some hop)) hstart
              refine Option.bind_congr fun r hrhs => ?_
              obtain ⟨st', rhs, rest⟩ := r
              have hle := hsub hrhs
              exact Option.bind_congr fun v _ => ih (by omega) (by omega)

end Bounds

/-! ## The parameters of a macro -/

/-- A character that the loop passes over. -/
def isListChar (c : Char) : Bool := isIdent2 c || isspace c || c = ','

/-- The text of a list of parameters: identifiers, blanks and commas to the end, to a parenthesis or
to `...`. Behind `...` the list goes on if there is a comma. -/
inductive ParamList : Text → Prop where
  | nil : ParamList []
  | close (p : Text) : ParamList (')' :: p)
  | cons {c : Char} {p : Text} (hc : isListChar c = true) (h : ParamList p) : ParamList (c :: p)
  | dots {p : Text} (h : headIs (· = ',') (p.dropWhile isspace) = false) : ParamList ('.' :: '.' :: '.' :: p)
  | more {p : Text} (h : headIs (· = ',') (p.dropWhile isspace) = true) (hrest : ParamList (p.dropWhile isspace).tail) :
      ParamList ('.' :: '.' :: '.' :: p)

theorem ParamList.append {w p : Text} (hw : ∀ c ∈ w, isListChar c = true) (h : ParamList p) : ParamList (w ++ p) := by
  induction w with
  | nil => exact h
  | cons c w ih => exact .cons (hw c List.mem_cons_self) (ih fun d hd => hw d (List.mem_cons_of_mem _ hd))

theorem ParamList.of_dropWhile {f : Char → Bool} (hf : ∀ c, f c = true → isListChar c = true) {p : Text}
    (h : ParamList (p.dropWhile f)) : ParamList p := by
  have happend := h.append (w := p.takeWhile f) fun c hc => hf c (List.mem_takeWhile_imp hc)
  rw [List.takeWhile_append_dropWhile] at happend
  exact happend

theorem ParamList.tail {c : Char} {p : Text} (hc : isListChar c = true) (h : ParamList (c :: p)) : ParamList p := by
  cases h with
  | close => exact absurd hc (by decide)
  | cons _ h => exact h
  | dots => exact absurd hc (by decide)
  | more => exact absurd hc (by decide)

theorem ParamList.dropWhile {f : Char → Bool} (hf : ∀ c, f c = true → isListChar c = true) {p : Text} (h : ParamList p) :
    ParamList (p.dropWhile f) := by
  induction p with
  | nil => exact h
  | cons c p ih =>
      by_cases hc : f c = true
      · rw [List.dropWhile_cons_of_pos hc]
        exact ih (h.tail (hf c hc))
      · rw [List.dropWhile_cons_of_neg hc]
        exact h

theorem isListChar_space (c : Char) (h : isspace c = true) : isListChar c = true := by
  rw [isListChar, h, Bool.or_true, Bool.true_or]

theorem isListChar_ident (c : Char) (h : isIdent2 c = true) : isListChar c = true := by
  rw [isListChar, h, Bool.true_or, Bool.true_or]

theorem dots_cases {q : Text} (h : startswith q "..." = true) : ∃ rest, q = '.' :: '.' :: '.' :: rest := by
  obtain ⟨rest, hrest⟩ := List.isPrefixOf_iff_prefix.mp h
  exact ⟨rest, hrest.symm⟩

theorem comma_cases {q : Text} (h : headIs (· = ',') q = true) : ∃ rest, q = ',' :: rest := by
  cases q with
  | nil => exact absurd h nofun
  | cons c rest => exact ⟨rest, congrArg (· :: rest) (of_decide_eq_true h)⟩

/-- A character that the loop passes over makes it move. -/
theorem moves_of_isListChar {c : Char} {p : Text} (hc : isListChar c = true)
    (hcomma : headIs (· = ',') ((((c :: p).dropWhile isspace).dropWhile isIdent2).dropWhile isspace) = false) :
    ((((c :: p).dropWhile isspace).dropWhile isIdent2).dropWhile isspace).length < (c :: p).length := by
  have hle : ∀ q : Text, ((q.dropWhile isIdent2).dropWhile isspace).length ≤ q.length := fun q =>
    ((List.dropWhile_sublist _).trans (List.dropWhile_sublist _)).length_le
  by_cases hspace : isspace c = true
  · rw [List.dropWhile_cons_of_pos hspace]
    exact Nat.lt_succ_of_le (Nat.le_trans (hle _) (List.dropWhile_sublist _).length_le)
  · rw [List.dropWhile_cons_of_neg hspace] at hcomma ⊢
    by_cases hident : isIdent2 c = true
    · rw [List.dropWhile_cons_of_pos hident]
      exact Nat.lt_succ_of_le ((List.dropWhile_sublist _).trans (List.dropWhile_sublist _)).length_le
    · rw [List.dropWhile_cons_of_neg hident, List.dropWhile_cons_of_neg hspace] at hcomma
      rw [Bool.not_eq_true] at hspace hident
      rw [isListChar, hspace, hident, Bool.false_or, Bool.false_or] at hc
      exact absurd (hcomma.symm.trans hc) nofun

/-- Behind an iteration. -/
theorem paramList_step {p q : Text} (h : ParamList p) (hstep : paramsStep p = some q) : ParamList q ∧ q.length < p.length := by
  have hlist := h.dropWhile isListChar_space
  have hle := (List.dropWhile_sublist isspace (l := p)).length_le
  obtain ⟨hend, hstep⟩ := Option.ite_none_left_eq_some.mp hstep
  dsimp only at hstep
  split at hstep
  · next hdots =>
      obtain ⟨rest, hrest⟩ := dots_cases hdots
      rw [hrest] at hstep hlist hle
      obtain ⟨hcomma, hstep⟩ := Option.ite_none_right_eq_some.mp hstep
      obtain rfl := Option.some_inj.mp hstep
      have hcomma : headIs (· = ',') (rest.dropWhile isspace) = true := hcomma
      refine ⟨?_, ?_⟩
      · cases hlist with
        | cons hc _ => exact absurd hc (by decide)
        | dots hnot => exact absurd (hcomma.symm.trans hnot) nofun
        | more _ hmore => exact hmore
      · have htail : (rest.dropWhile isspace).tail.length ≤ rest.length :=
          ((List.tail_sublist _).trans (List.dropWhile_sublist _)).length_le
        rw [List.length_cons, List.length_cons, List.length_cons] at hle
        show (rest.dropWhile isspace).tail.length < p.length
        omega
  · next hdots =>
      have hrest := (hlist.dropWhile isListChar_ident).dropWhile isListChar_space
      split at hstep
      · next hcomma =>
          obtain rfl := Option.some_inj.mp hstep
          have hlength := ((List.dropWhile_sublist isspace).trans
            (List.dropWhile_sublist isIdent2 (l := p.dropWhile isspace))).length_le
          obtain ⟨rest, heq⟩ := comma_cases hcomma
          rw [heq] at hrest hlength ⊢
          exact ⟨hrest.tail (by decide), Nat.lt_of_lt_of_le (Nat.lt_succ_self _) (Nat.le_trans hlength hle)⟩
      · next hcomma =>
          obtain rfl := Option.some_inj.mp hstep
          refine ⟨hrest, ?_⟩
          cases h with
          | nil => exact absurd rfl hend
          | close => exact absurd rfl hend
          | cons hc _ => exact moves_of_isListChar hc (Bool.not_eq_true _ ▸ hcomma)
          | dots => exact absurd rfl hdots
          | more => exact absurd rfl hdots

theorem paramList_of_step {p : Text} (h : ∀ q, paramsStep p = some q → ParamList q) : ParamList p := by
  by_cases hend : (p = [] || headIs (· = ')') p) = true
  · cases p with
    | nil => exact .nil
    | cons c p =>
        obtain rfl : c = ')' := of_decide_eq_true hend
        exact .close p
  · rw [paramsStep, if_neg hend] at h
    refine .of_dropWhile isListChar_space ?_
    by_cases hdots : startswith (p.dropWhile isspace) "..." = true
    · obtain ⟨rest, hrest⟩ := dots_cases hdots
      rw [hrest] at h ⊢
      by_cases hcomma : headIs (· = ',') (rest.dropWhile isspace) = true
      · exact .more hcomma (h _ (if_pos hcomma))
      · exact .dots (Bool.not_eq_true _ ▸ hcomma)
    · refine .of_dropWhile isListChar_ident (.of_dropWhile isListChar_space ?_)
      dsimp only at h
      rw [if_neg hdots] at h
      by_cases hcomma : headIs (· = ',') (((p.dropWhile isspace).dropWhile isIdent2).dropWhile isspace) = true
      · rw [if_pos hcomma] at h
        have htail := h _ rfl
        obtain ⟨rest, heq⟩ := comma_cases hcomma
        rw [heq] at htail ⊢
        exact .cons (by decide) htail
      · rw [if_neg hcomma] at h
        exact h _ rfl

theorem paramsStep_ends_iff {p : Text} : Ends paramsStep p ↔ ParamList p := by
  constructor
  · intro h
    induction h with
    | intro p _ ih => exact paramList_of_step ih
  · intro h
    refine Loops.ends_of_reached List.length fun t u hreach hstep => ?_
    have hlist : ∀ {t}, Reached paramsStep p t → ParamList t := by
      intro t hreach
      induction hreach with
      | refl => exact h
      | tail _ hnext ih => exact (paramList_step ih hnext).1
    exact (paramList_step (hlist hreach) hstep).2

/-- The bounded loop of the model goes on as the loop does. -/
theorem paramsLoop_step (n : Nat) (params : List Text) (isVariadic isGnuVariadic : Bool) (before p : Text) :
    (paramsStep p = none → ∃ r, paramsLoop (n + 1) params isVariadic isGnuVariadic before p = some r) ∧
      ∀ q, paramsStep p = some q → ∃ params' isVariadic' isGnuVariadic' before',
        paramsLoop (n + 1) params isVariadic isGnuVariadic before p = paramsLoop n params' isVariadic' isGnuVariadic' before' q := by
  rw [paramsStep, paramsLoop]
  split
  · exact ⟨fun _ => ⟨_, rfl⟩, nofun⟩
  dsimp only
  split
  · split
    · exact ⟨nofun, fun q hq => Option.some_inj.mp hq ▸ ⟨_, _, _, _, rfl⟩⟩
    · exact ⟨fun _ => ⟨_, rfl⟩, nofun⟩
  · split
    · exact ⟨nofun, fun q hq => Option.some_inj.mp hq ▸ ⟨_, _, _, _, rfl⟩⟩
    · exact ⟨nofun, fun q hq => Option.some_inj.mp hq ▸ ⟨_, _, _, _, rfl⟩⟩

theorem paramList_of_paramsLoop {n : Nat} {params : List Text} {isVariadic isGnuVariadic : Bool} {before p : Text} {r : Params}
    (h : paramsLoop n params isVariadic isGnuVariadic before p = some r) : ParamList p := by
  induction n generalizing params isVariadic isGnuVariadic before p with
  | zero => exact absurd h nofun
  | succ n ih =>
      refine paramList_of_step fun q hq => ?_
      obtain ⟨_, _, _, _, hstep⟩ := (paramsLoop_step n params isVariadic isGnuVariadic before p).2 q hq
      exact ih (hstep ▸ h)

/-- The bound of `define` is enough: it has no result for these parameters only where the loop goes
on for ever. -/
theorem paramsLoop_of_paramList {n : Nat} {p : Text} (h : ParamList p) (hn : p.length < n) (params : List Text)
    (isVariadic isGnuVariadic : Bool) (before : Text) : ∃ r, paramsLoop n params isVariadic isGnuVariadic before p = some r := by
  induction n generalizing params isVariadic isGnuVariadic before p with
  | zero => exact absurd hn (Nat.not_lt_zero _)
  | succ n ih =>
      obtain ⟨hends, hgoes⟩ := paramsLoop_step n params isVariadic isGnuVariadic before p
      cases hstep : paramsStep p with
      | none => exact hends hstep
      | some q =>
          obtain ⟨hlist, hlt⟩ := paramList_step h hstep
          obtain ⟨params', isVariadic', isGnuVariadic', before', hloop⟩ := hgoes q hstep
          rw [hloop]
          exact ih hlist (by omega) params' isVariadic' isGnuVariadic' before'

/-! ## A file -/

/-- The loops that always end, with what gets smaller in them. -/
inductive Scan : {σ : Type} → (σ → Nat) → (σ → Option σ) → Prop where
  | strip : Scan (fun s => s.2.length) stripStep
  | lines : Scan List.length linesStep
  | parens : Scan List.length parensStep
  | expand (expand : Preprocessor → Text → Option (Preprocessor × Text)) (place : Place) :
      Scan (fun s => s.2.2.length) (expandStep expand place)
  | args : Scan (fun s => s.2.length) argsStep
  | items (isVariadic : Bool) : Scan List.length (itemsStep isVariadic)
  | paste : Scan List.length pasteStep
  | components : Scan List.length componentsStep
  | level {sub : Eval} {ops : Ops} (hsub : Shrinks sub) (hops : Spelled ops) : Scan (fun s => s.2.2.length) (levelStep sub ops)

theorem Scan.advances {σ : Type} {size : σ → Nat} {step : σ → Option σ} (h : Scan size step) : Advances size step := by
  cases h with
  | strip => exact stripStep_advances
  | lines => exact linesStep_advances
  | parens => exact parensStep_advances
  | expand expand place => exact expandStep_advances expand place
  | args => exact argsStep_advances
  | items isVariadic => exact itemsStep_advances isVariadic
  | paste => exact pasteStep_advances
  | components => exact componentsStep_advances
  | level hsub hops => exact levelStep_advances hsub hops

/-- The turn at a line comes to the loop over the parameters of a macro, at `q`. -/
def Defines (ctx : Context) (s : FileState) (line : Line) (q : Text) : Prop :=
  ∃ p t, hash line.text = some p ∧ s.flush ctx = some t ∧ directive t.active p = .define ∧
    (argumentOf "define" p).dropWhile isIdent2 = '(' :: q

/-- Every loop ends on the way through a file, as each iteration makes what is left shorter or leaves
the loop, and an evaluation is called for shorter texts. -/
structure Terminates (ctx : Context) (pp : Preprocessor) (pack : PackState) (input : Text) : Prop where
  scans : ∀ {σ : Type} {size : σ → Nat} {step : σ → Option σ}, Scan size step → Advances size step ∧ ∀ s, Ends step s
  conditions : ∀ {n : Nat} {expr expr' primary primary' : Eval}, Agree n expr expr' → Agree n primary primary' →
    Agree (n + 1) (evalPrimaryStep ctx.fs ctx.filename expr primary) (evalPrimaryStep ctx.fs ctx.filename expr' primary')
  params : Steps.Everywhere (step ctx) (.start pp pack) (fun _ s line => ∀ q, Defines ctx s line q →
    Ends paramsStep q ∧ ∀ t u, Reached paramsStep q t → paramsStep t = some u → u.length < t.length) (linesOf input)

/-- The preprocessor comes to the end of a file if and only if there is nothing but identifiers,
blanks, commas and `...` among the parameters of the macros on the way. -/
theorem preprocess_terminates_iff (ctx : Context) (pp : Preprocessor) (pack : PackState) (input : Text) : Terminates ctx pp pack input ↔
    Steps.Everywhere (step ctx) (.start pp pack) (fun _ s line => ∀ q, Defines ctx s line q → ParamList q) (linesOf input) := by
  constructor
  · intro h before line after s hlines hrun q hq
    exact paramsStep_ends_iff.mp (h.params before line after s hlines hrun q hq).1
  · intro h
    refine ⟨fun hscan => ⟨hscan.advances, fun s => hscan.advances.ends s⟩, agree_primary, ?_⟩
    intro before line after s hlines hrun q hq
    have hlist := h before line after s hlines hrun q hq
    refine ⟨paramsStep_ends_iff.mpr hlist, fun t u hreach hstep => ?_⟩
    exact (paramList_step (paramsStep_ends_iff.mp ((paramsStep_ends_iff.mpr hlist).reached hreach)) hstep).2

/-- `#define F(+)` -/
theorem plus_parameter_stuck : ¬ ∀ ctx pp pack input, Terminates ctx pp pack input := by
  intro h
  have hparams := (h alone noMacros ⟨0, []⟩ "#define F(+)\n".toList).params [] ⟨"#define F(+)".toList, 1⟩ [] _ (by decide) rfl
  have hstuck : paramsStep "+)".toList = some "+)".toList := by decide
  obtain ⟨hends, -⟩ := hparams "+)".toList ⟨"define F(+)".toList, _, by decide, rfl, by decide, by decide⟩
  exact Loops.not_ends_of_stuck hstuck hends

end Rcc.Preprocess

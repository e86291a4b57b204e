import Rcc.OneLine

/-!
# Where an identifier comes from

The expansion of macros once more, of characters that carry where they come from: the
macros whose bodies they were written in, and whether a scan has met them as a name of a
macro that was being expanded then. The macros being expanded are an argument of their own
here, beside the flags of the table, and the names that are replaced are written down.
Nothing else is different: without what the characters carry it is `expand_text`.
-/

namespace Rcc.Preprocess

open Lexer (Text isspace isdigit headIs startswith)
open Macros (Definition Entry Table)
open Files (Preprocessor)

structure Traced where
  char : Char
  /-- the macros from whose expansions it comes -/
  origins : List Text
  /-- in a name that was met while its macro was being expanded -/
  met : Bool
deriving DecidableEq

def chars (p : List Traced) : Text := p.map Traced.char

/-- A text that is written by these macros. -/
def written (origins : List Text) (t : Text) : List Traced := t.map fun c => ⟨c, origins, false⟩

def Traced.isBlank (c : Traced) : Bool := isspace c.char

def Traced.isIdent2 (c : Traced) : Bool := Preprocess.isIdent2 c.char

/-! ## Substitution -/

section Substitution

variable (origins : List Text)

def stripEndTraced (s : List Traced) : List Traced := (s.reverse.dropWhile Traced.isBlank).reverse

def trimTraced (s : List Traced) : List Traced := stripEndTraced (s.dropWhile Traced.isBlank)

def quoteTraced (s : List Traced) : List Traced :=
  written origins ['"'] ++ s.flatMap (fun c => if c.char = '"' || c.char = '\\' then written origins ['\\'] ++ [c] else [c]) ++
    written origins ['"']

def literalTraced (quote : Char) (p : List Traced) : List Traced × List Traced :=
  (p.take (literal quote (chars p)).1.length, p.drop (literal quote (chars p)).1.length)

def joinCommaTraced : List (List Traced) → List Traced
  | [] => []
  | [arg] => arg
  | arg :: args => arg ++ written origins [','] ++ joinCommaTraced args

def mergeArgsTraced (d : Definition) (args : List (List Traced)) : List (List Traced) :=
  if d.isVariadic && d.params.length < args.length then
    args.take (vaSlot d) ++ [joinCommaTraced origins (args.drop (vaSlot d))]
  else args

def formTraced (d : Definition) (args raw : List (List Traced)) : Item → Option (List Traced)
  | .stringize name =>
      (findParamIndex d name).bind fun k =>
        if k < (mergeArgsTraced origins d args).length then some (quoteTraced origins (raw.getD k [])) else none
  | .name name =>
      if d.isVariadic && name = vaArgs.toList then some ((mergeArgsTraced origins d args).getD (vaSlot d) [])
      else (findParamIndex d name).bind fun k => (mergeArgsTraced origins d args)[k]?
  | .pasteVa => (mergeArgsTraced origins d args)[vaSlot d]?
  | .literal _ | .paste | .hash | .char _ => none

def dropCommaTraced (sb : List Traced) : List Traced :=
  if (chars (stripEndTraced sb)).getLast? = some ',' then (stripEndTraced sb).dropLast else stripEndTraced sb

def substStepTraced (sb : List Traced) (item : Item) (form : Option (List Traced)) : List Traced :=
  match form, item with
  | some text, _ => sb ++ text
  | none, .pasteVa => dropCommaTraced sb
  | none, item => sb ++ written origins item.spelling

def pasteEndTraced (sb q : List Traced) : List Traced :=
  if (chars (stripEndTraced sb)).getLast? = (chars q).head? && headIs (fun c => c ∈ "+-&|<>".toList) (chars q) then
    stripEndTraced sb ++ written origins [' ']
  else stripEndTraced sb

def pasteLoopTraced : Nat → List Traced → List Traced → List Traced
  | 0, sb, _ => sb
  | _ + 1, sb, [] => sb
  | n + 1, sb, c :: p =>
      if c.char = '#' && headIs (· = '#') (chars p) then
        pasteLoopTraced n (pasteEndTraced origins sb (p.tail.dropWhile Traced.isBlank)) (p.tail.dropWhile Traced.isBlank)
      else pasteLoopTraced n (sb ++ [c]) p

def substituteTraced (d : Definition) (args raw : List (List Traced)) : List Traced :=
  let sb := (items d).foldl (fun sb item => substStepTraced origins sb item (formTraced origins d args raw item)) []
  pasteLoopTraced origins sb.length [] sb

end Substitution

/-! ## Expansion -/

def macroArgsTraced : Nat → List Traced → List (List Traced) → Nat → List Traced → Option (List (List Traced) × List Traced)
  | 0, _, _, _, _ => none
  | _ + 1, _, _, _, [] => none
  | n + 1, arg, args, depth, c :: p =>
      if isQuote c.char then
        macroArgsTraced n (arg ++ c :: (literalTraced c.char p).1) args depth (literalTraced c.char p).2
      else if c.char = '(' then macroArgsTraced n (arg ++ [c]) args (depth + 1) p
      else if c.char = ')' && depth = 1 then
        if arg = [] && args = [] then some ([], p)
        else if args.length < maxArgs then some (args ++ [trimTraced arg], p) else none
      else if c.char = ')' then macroArgsTraced n (arg ++ [c]) args (depth - 1) p
      else if c.char = ',' && depth = 1 then
        if args.length < maxArgs then macroArgsTraced n [] (args ++ [trimTraced arg]) depth p else none
      else macroArgsTraced n (arg ++ [c]) args depth p

def padArgsTraced (d : Definition) (args : List (List Traced)) : List (List Traced) :=
  args ++ List.replicate (d.params.length - args.length) []

/-- The state, and the names that macros were put for. -/
structure Tracing where
  st : Preprocessor
  replaced : List (List Traced)

/-- A macro is put for this name. -/
def Tracing.replace (s : Tracing) (name : List Traced) : Tracing := { s with replaced := s.replaced ++ [name] }

/-- The macros by which the text is written that stands for this name. -/
def originsOf (name : List Traced) : List Text := chars name :: (name.flatMap Traced.origins).eraseDups

/-- A scan comes upon a name, and these macros are being expanded. -/
def meet (active : List Text) (name : List Traced) : List Traced :=
  if chars name ∈ active then name.map fun c => { c with met := true } else name

section Step

-- the expansion of one depth more, with the macros that are being expanded
variable (expand : List Text → Tracing → List Traced → Option (Tracing × List Traced)) (active : List Text)

def traceArgs (s : Tracing) : List (List Traced) → Option (Tracing × List (List Traced))
  | [] => some (s, [])
  | arg :: args =>
      (expand active s arg).bind fun (s, arg) => (traceArgs s args).map fun (s, args) => (s, arg :: args)

def traceRescan (s : Tracing) (name : Text) (text : List Traced) : Option (Tracing × List Traced) :=
  (expand (name :: active) { s with st := setDisabled s.st name true } text).map fun (s, sb) =>
    ({ s with st := setDisabled s.st name false }, sb)

def traceCall (s : Tracing) (name : List Traced) (d : Definition) (args : List (List Traced)) : Option (Tracing × List Traced) :=
  if ! d.isVariadic && d.params.length < args.length then
    some (s, name ++ (written [] ['('] ++ (joinCommaTraced [] args ++ written [] [')'])))
  else if (padArgsTraced d args).length ≤ maxArgs then
    (traceArgs expand active (s.replace name) (padArgsTraced d args)).bind fun (s, expanded) =>
      traceRescan expand active s (chars name) (substituteTraced (originsOf name) d expanded (padArgsTraced d args))
  else none

/-- The name of a macro. -/
def traceMacro (s : Tracing) (name p : List Traced) (e : Entry) : Option (Tracing × List Traced × List Traced) :=
  if e.disabled then some (s, written [] [paint] ++ name, p)
  else if e.definition.isFunction then
    match p.dropWhile Traced.isBlank with
    | [] => some (s, name, p)
    | c :: q =>
        if c.char = '(' then
          (macroArgsTraced (q.length + 1) [] [] 1 q).bind fun (args, rest) =>
            (traceCall expand active s name e.definition args).map fun (s, sb) => (s, sb, rest)
        else some (s, name, p)
  else
    (traceRescan expand active (s.replace name) (chars name) (written (originsOf name) e.definition.body.toList)).map
      fun (s, sb) => (s, sb, p)

def traceName (place : Place) (s : Tracing) (prev : Option Char) (name p : List Traced) : Option (Tracing × List Traced × List Traced) :=
  if chars name = "__LINE__".toList then some (s, written [] (toString place.lineNo).toList, p)
  else if chars name = "__FILE__".toList then some (s, written [] (quoteString place.filename), p)
  else if chars name = "__COUNTER__".toList then
    some ({ s with st := { s.st with ppCounter := s.st.ppCounter + 1 } }, written [] (toString s.st.ppCounter).toList, p)
  else if isFunctionName (chars name) then some (s, name, p)
  else if isHasInclude (chars name) && headIs (· = '(') (chars (p.dropWhile Traced.isBlank)) then some (s, name, p)
  else if isSuffix prev (chars name) then some (s, name, p)
  else
    match findEntry s.st (chars name) with
    | none => some (s, meet active name, p)
    | some e => traceMacro expand active s (meet active name) p e

def traceAt (place : Place) (s : Tracing) (prev : Option Char) (c : Traced) (p : List Traced) :
    Option (Tracing × List Traced × List Traced) :=
  if c.char = paint then some (s, c :: p.takeWhile Traced.isIdent2, p.dropWhile Traced.isIdent2)
  else if isQuote c.char then some (s, c :: (literalTraced c.char p).1, (literalTraced c.char p).2)
  else if isIdent1 c.char then
    traceName expand active place s prev (c :: p.takeWhile Traced.isIdent2) (p.dropWhile Traced.isIdent2)
  else some (s, [c], p)

def traceLoop (place : Place) : Nat → Tracing → Option Char → List Traced → Option (Tracing × List Traced)
  | 0, s, _, _ => some (s, [])
  | _ + 1, s, _, [] => some (s, [])
  | n + 1, s, prev, c :: p =>
      (traceAt expand active place s prev c p).bind fun (s, sb, rest) =>
        (traceLoop place n s (some c.char) rest).map fun (s, more) => (s, sb ++ more)

end Step

/-- `expand_text`, where these macros are being expanded. -/
def traceText (place : Place) : Nat → List Text → Tracing → List Traced → Option (Tracing × List Traced)
  | 0, _, s, text => some (s, text)
  | n + 1, active, s, text =>
      (traceLoop (traceText place n) active place text.length s none text).bind fun (s, sb) =>
        if chars sb = chars text then some (s, sb) else traceText place n active s sb

/-! ## Without what the characters carry -/

section Chars

variable {origins : List Text} {s p q sb : List Traced} {args raw : List (List Traced)} {d : Definition}

@[simp] theorem chars_nil : chars [] = [] := rfl

@[simp] theorem chars_cons (c : Traced) (p : List Traced) : chars (c :: p) = c.char :: chars p := rfl

@[simp] theorem chars_append (p q : List Traced) : chars (p ++ q) = chars p ++ chars q := List.map_append

@[simp] theorem chars_written (origins : List Text) (t : Text) : chars (written origins t) = t := by
  rw [chars, written, List.map_map]
  exact List.map_id t

@[simp] theorem length_chars (p : List Traced) : (chars p).length = p.length := List.length_map ..

theorem chars_eq_nil : chars p = [] ↔ p = [] := List.map_eq_nil_iff

@[simp] theorem chars_tail (p : List Traced) : chars p.tail = (chars p).tail := List.map_tail ..

@[simp] theorem chars_dropWhile (p : List Traced) : chars (p.dropWhile Traced.isBlank) = (chars p).dropWhile isspace :=
  List.dropWhile_map .. |>.symm

@[simp] theorem chars_stripEnd (s : List Traced) : chars (stripEndTraced s) = stripEnd (chars s) := by
  rw [stripEndTraced, stripEnd, chars, List.map_reverse, ← chars, chars_dropWhile, chars, List.map_reverse, ← chars]

@[simp] theorem chars_trim (s : List Traced) : chars (trimTraced s) = trim (chars s) := by
  rw [trimTraced, chars_stripEnd, chars_dropWhile, trim]

@[simp] theorem chars_quote (s : List Traced) : chars (quoteTraced origins s) = quoteString (chars s) := by
  have hbody : chars (s.flatMap fun c => if c.char = '"' || c.char = '\\' then written origins ['\\'] ++ [c] else [c]) =
      (chars s).flatMap fun c => if c = '"' || c = '\\' then ['\\', c] else [c] := by
    induction s with
    | nil => rfl
    | cons c s ih =>
        rw [List.flatMap_cons, chars_append, ih, chars_cons, List.flatMap_cons]
        split <;> rfl
  rw [quoteTraced, chars_append, chars_append, hbody, chars_written]
  rfl

theorem chars_literal (q : Char) (p : List Traced) :
    chars (literalTraced q p).1 = (literal q (chars p)).1 ∧ chars (literalTraced q p).2 = (literal q (chars p)).2 := by
  have happend := OneLine.literal_append q (chars p)
  constructor
  · show chars (p.take _) = _
    rw [chars, List.map_take, ← chars]
    exact (congrArg (List.take _) happend.symm).trans List.take_left
  · show chars (p.drop _) = _
    rw [chars, List.map_drop, ← chars]
    exact (congrArg (List.drop _) happend.symm).trans List.drop_left

@[simp] theorem chars_joinComma (args : List (List Traced)) : chars (joinCommaTraced origins args) = joinComma (args.map chars) := by
  fun_induction joinCommaTraced origins args with
  | case1 => rfl
  | case2 arg => rfl
  | case3 arg args hargs ih =>
      cases args with
      | nil => exact absurd rfl hargs
      | cons a args =>
          rw [chars_append, chars_append, ih, chars_written, List.append_assoc]
          rfl

@[simp] theorem map_mergeArgs (d : Definition) (args : List (List Traced)) :
    (mergeArgsTraced origins d args).map chars = mergeArgs d (args.map chars) := by
  rw [mergeArgsTraced, mergeArgs, List.length_map]
  split
  · rw [List.map_append, List.map_take, List.map_singleton, chars_joinComma, List.map_drop]
  · rfl

theorem chars_getD (args : List (List Traced)) (k : Nat) : chars (args.getD k []) = (args.map chars).getD k [] := by
  rw [List.getD_eq_getElem?_getD, List.getD_eq_getElem?_getD, List.getElem?_map]
  cases args[k]? with
  | none => rfl
  | some arg => rfl

theorem map_form (d : Definition) (args raw : List (List Traced)) (it : Item) :
    (formTraced origins d args raw it).map chars = form d (args.map chars) (raw.map chars) it := by
  have hmerge : ∀ k, (mergeArgsTraced origins d args)[k]?.map chars = (mergeArgs d (args.map chars))[k]? := fun k => by
    rw [← List.getElem?_map, map_mergeArgs]
  cases it with
  | stringize name =>
      rw [formTraced, form, Option.map_bind, ← @map_mergeArgs origins, List.length_map]
      refine congrArg _ (funext fun k => ?_)
      show Option.map chars (if _ then _ else _) = _
      split
      · rw [Option.map_some, chars_quote, chars_getD]
      · rfl
  | name name =>
      rw [formTraced, form]
      split
      · rw [Option.map_some, chars_getD, map_mergeArgs]
      · rw [Option.map_bind]
        exact congrArg _ (funext hmerge)
  | pasteVa => exact hmerge _
  | literal _ | paste | hash | char _ => rfl

@[simp] theorem chars_dropComma (sb : List Traced) : chars (dropCommaTraced sb) = dropComma (chars sb) := by
  rw [dropCommaTraced, dropComma, chars_stripEnd]
  split
  · rw [chars, List.map_dropLast, ← chars, chars_stripEnd]
  · exact chars_stripEnd sb

theorem chars_substStep (sb : List Traced) (it : Item) (f : Option (List Traced)) :
    chars (substStepTraced origins sb it f) = substStep (chars sb) it (f.map chars) := by
  cases f with
  | some text => exact chars_append sb text
  | none =>
      cases it with
      | pasteVa => exact chars_dropComma sb
      | literal _ | paste | stringize _ | hash | name _ | char _ => exact (chars_append _ _).trans (by rw [chars_written]; rfl)

@[simp] theorem chars_pasteEnd (sb q : List Traced) : chars (pasteEndTraced origins sb q) = pasteEnd (chars sb) (chars q) := by
  rw [pasteEndTraced, pasteEnd, chars_stripEnd]
  split
  · rw [chars_append, chars_stripEnd, chars_written]
  · exact chars_stripEnd sb

theorem chars_pasteLoop (n : Nat) (sb p : List Traced) :
    chars (pasteLoopTraced origins n sb p) = pasteLoop n (chars sb) (chars p) := by
  induction n generalizing sb p with
  | zero => rfl
  | succ n ih =>
      cases p with
      | nil => rfl
      | cons c p =>
          rw [pasteLoopTraced, chars_cons, pasteLoop]
          split
          · rw [ih, chars_pasteEnd, chars_dropWhile, chars_tail]
          · rw [ih, chars_append]
            rfl

@[simp] theorem chars_substitute (d : Definition) (args raw : List (List Traced)) :
    chars (substituteTraced origins d args raw) = substituteMacro d (args.map chars) (raw.map chars) := by
  have hfold : ∀ (its : List Item) (sb : List Traced),
      chars (its.foldl (fun sb it => substStepTraced origins sb it (formTraced origins d args raw it)) sb) =
        its.foldl (fun sb it => substStep sb it (form d (args.map chars) (raw.map chars) it)) (chars sb) := by
    intro its
    induction its with
    | nil => exact fun sb => rfl
    | cons it its ih =>
        intro sb
        rw [List.foldl_cons, List.foldl_cons, ih, chars_substStep, map_form]
  rw [substituteTraced, substituteMacro, pasteTokens, chars_pasteLoop, hfold, ← length_chars, hfold]
  rfl

@[simp] theorem chars_takeWhile_ident (p : List Traced) : chars (p.takeWhile Traced.isIdent2) = (chars p).takeWhile isIdent2 :=
  (List.takeWhile_map ..).symm

@[simp] theorem chars_dropWhile_ident (p : List Traced) : chars (p.dropWhile Traced.isIdent2) = (chars p).dropWhile isIdent2 :=
  (List.dropWhile_map ..).symm

@[simp] theorem chars_meet (active : List Text) (name : List Traced) : chars (meet active name) = chars name := by
  rw [meet]
  split
  · exact List.map_map ..
  · rfl

theorem map_macroArgs (n : Nat) (arg : List Traced) (args : List (List Traced)) (depth : Nat) (p : List Traced) :
    (macroArgsTraced n arg args depth p).map (fun r => (r.1.map chars, chars r.2)) =
      macroArgsLoop n (chars arg) (args.map chars) depth (chars p) := by
  induction n generalizing arg args depth p with
  | zero => rfl
  | succ n ih =>
      cases p with
      | nil => rfl
      | cons c p =>
          obtain ⟨hfst, hsnd⟩ := chars_literal c.char p
          have hmore : chars (arg ++ [c]) = chars arg ++ [c.char] := chars_append arg [c]
          have hsnoc : (args ++ [trimTraced arg]).map chars = args.map chars ++ [trim (chars arg)] := by
            rw [List.map_append, List.map_singleton, chars_trim]
          have hnil : (chars arg = [] && args.map chars = []) = (arg = [] && args = []) := by
            rw [Bool.and_eq_decide]
            simp only [chars_eq_nil, List.map_eq_nil_iff, Bool.and_eq_decide, decide_eq_true_eq]
          rw [macroArgsTraced, chars_cons, macroArgsLoop, hnil, List.length_map]
          split
          · rw [ih, chars_append, chars_cons, hfst, hsnd]
          split
          · rw [ih, hmore]
          split
          · split
            · rfl
            split
            · rw [Option.map_some, hsnoc]
            · rfl
          split
          · rw [ih, hmore]
          split
          · split
            · rw [ih, hsnoc]
              rfl
            · rfl
          · rw [ih, hmore]

@[simp] theorem map_padArgs (d : Definition) (args : List (List Traced)) :
    (padArgsTraced d args).map chars = padArgs d (args.map chars) := by
  rw [padArgsTraced, padArgs, List.map_append, List.map_replicate, List.length_map]
  rfl

end Chars

/-- What is left of a result. -/
def erase (r : Tracing × List Traced) : Preprocessor × Text := (r.1.st, chars r.2)

def eraseRest (r : Tracing × List Traced × List Traced) : Preprocessor × Text × Text := (r.1.st, chars r.2.1, chars r.2.2)

section Erase

variable {trace : List Text → Tracing → List Traced → Option (Tracing × List Traced)}
  {expand : Preprocessor → Text → Option (Preprocessor × Text)} {active : List Text} {s : Tracing} {place : Place}
  (htrace : ∀ active s p, (trace active s p).map erase = expand s.st (chars p))

include htrace

theorem map_traceArgs (args : List (List Traced)) :
    (traceArgs trace active s args).map (fun r => (r.1.st, r.2.map chars)) = expandArgs expand s.st (args.map chars) := by
  induction args generalizing s with
  | nil => rfl
  | cons arg args ih =>
      rw [traceArgs, List.map_cons, expandArgs, ← htrace active s arg, Option.map_bind, Option.bind_map]
      refine congrArg _ (funext fun r => ?_)
      show Option.map _ (Option.map _ _) = Option.map _ (expandArgs expand r.1.st _)
      rw [← ih, Option.map_map, Option.map_map]
      rfl

theorem map_traceRescan (name : Text) (text : List Traced) :
    (traceRescan trace active s name text).map erase = rescan expand s.st name (chars text) := by
  rw [traceRescan, rescan, ← htrace (name :: active) { s with st := setDisabled s.st name true } text, Option.map_map, Option.map_map]
  rfl

theorem map_traceCall (name : List Traced) (d : Definition) (args : List (List Traced)) :
    (traceCall trace active s name d args).map erase = expandCall expand s.st (chars name) d (args.map chars) := by
  rw [traceCall, expandCall, List.length_map, ← map_padArgs, List.length_map]
  split
  · show some (s.st, chars (name ++ _)) = _
    rw [chars_append, chars_append, chars_append, chars_written, chars_written, chars_joinComma]
    rfl
  · split
    · have hargs : _ = expandArgs expand s.st _ :=
        @map_traceArgs trace expand active (s.replace name) htrace (padArgsTraced d args)
      rw [← hargs, Option.map_bind, Option.bind_map]
      refine congrArg _ (funext fun r => ?_)
      show Option.map erase _ = _
      rw [map_traceRescan htrace, chars_substitute]
      rfl
    · rfl

/-- What the name of a macro stands for in the code. -/
theorem map_traceMacro (name p : List Traced) (e : Entry) :
    (traceMacro trace active s name p e).map eraseRest =
      if e.disabled then some (s.st, paint :: chars name, chars p)
      else if e.definition.isFunction then
        match (chars p).dropWhile isspace with
        | '(' :: q =>
            (parseMacroArgs q).bind fun (args, rest) =>
              (expandCall expand s.st (chars name) e.definition args).map fun (st, sb) => (st, sb, rest)
        | _ => some (s.st, chars name, chars p)
      else (rescan expand s.st (chars name) e.definition.body.toList).map fun (st, sb) => (st, sb, chars p) := by
  rw [traceMacro]
  split
  · rfl
  split
  · rw [← chars_dropWhile]
    generalize p.dropWhile Traced.isBlank = q
    cases q with
    | nil => rfl
    | cons c q =>
        rw [chars_cons]
        dsimp only
        split
        · next hc =>
            have hargs : _ = parseMacroArgs (chars q) := (map_macroArgs (q.length + 1) [] [] 1 q).trans
              (by rw [parseMacroArgs, length_chars]; rfl)
            rw [hc]
            show _ = (parseMacroArgs (chars q)).bind _
            rw [← hargs, Option.map_bind, Option.bind_map]
            refine congrArg _ (funext fun r => ?_)
            show Option.map _ (Option.map _ _) = Option.map _ (expandCall expand s.st (chars name) e.definition (r.1.map chars))
            rw [← @map_traceCall trace expand active s htrace, Option.map_map, Option.map_map]
            rfl
        · next hc =>
            split
            · next heq => exact absurd (List.cons.inj heq).1 hc
            · rfl
  · have hrescan : _ = rescan expand s.st (chars name) _ :=
      @map_traceRescan trace expand active (s.replace name) htrace (chars name) (written (originsOf name) e.definition.body.toList)
    rw [chars_written] at hrescan
    rw [← hrescan, Option.map_map, Option.map_map]
    rfl

theorem map_traceName (prev : Option Char) (name p : List Traced) :
    (traceName trace active place s prev name p).map eraseRest = expandName expand place s.st prev (chars name) (chars p) := by
  rw [traceName, expandName, chars_dropWhile]
  split
  · exact congrArg (fun t => some (s.st, t, chars p)) (chars_written ..)
  split
  · exact congrArg (fun t => some (s.st, t, chars p)) (chars_written ..)
  split
  · exact congrArg (fun t => some (_, t, chars p)) (chars_written ..)
  split
  · rfl
  split
  · rfl
  split
  · rfl
  cases findEntry s.st (chars name) with
  | none => exact congrArg (fun t => some (s.st, t, chars p)) (chars_meet ..)
  | some e =>
      have hmacro := @map_traceMacro trace expand active s htrace (meet active name) p e
      rw [chars_meet] at hmacro
      exact hmacro

theorem map_traceAt (prev : Option Char) (c : Traced) (p : List Traced) :
    (traceAt trace active place s prev c p).map eraseRest = expandAt expand place s.st prev c.char (chars p) := by
  obtain ⟨hfst, hsnd⟩ := chars_literal c.char p
  rw [traceAt, expandAt, ← chars_takeWhile_ident, ← chars_dropWhile_ident]
  split
  · rfl
  split
  · rw [← hfst, ← hsnd]
    rfl
  split
  · exact map_traceName htrace prev _ _
  · rfl

theorem map_traceLoop (n : Nat) (prev : Option Char) (p : List Traced) :
    (traceLoop trace active place n s prev p).map erase = expandLoop expand place n s.st prev (chars p) := by
  induction n generalizing s prev p with
  | zero => rfl
  | succ n ih =>
      cases p with
      | nil => rfl
      | cons c p =>
          rw [traceLoop, chars_cons, expandLoop, ← map_traceAt htrace, Option.map_bind, Option.bind_map]
          refine congrArg _ (funext fun r => ?_)
          show Option.map _ (Option.map _ _) = Option.map _ (expandLoop expand place n r.1.st (some c.char) (chars r.2.2))
          rw [← ih, Option.map_map, Option.map_map]
          refine congrArg (Option.map · _) (funext fun r' => ?_)
          exact congrArg (Prod.mk _) (chars_append r.2.1 r'.2)

end Erase

/-- What the characters carry changes nothing. -/
theorem map_traceText (place : Place) (n : Nat) (active : List Text) (s : Tracing) (p : List Traced) :
    (traceText place n active s p).map erase = expandText place n s.st (chars p) := by
  induction n generalizing active s p with
  | zero => rfl
  | succ n ih =>
      rw [traceText, expandText, length_chars, ← map_traceLoop ih, Option.map_bind, Option.bind_map]
      refine congrArg _ (funext fun r => ?_)
      show Option.map _ (if chars r.2 = chars p then _ else _) = if chars r.2 = chars p then _ else _
      split
      · rfl
      · exact ih active r.1 r.2

end Rcc.Preprocess

import Rcc.InputFiles
import Rcc.Substitute

/-!
# Expansion of macros

`expand_text` goes through a text, expands what it comes upon, and begins again with the
result as long as that changes the text; a bound on the depth ends this. `expandAt` is
what it does at one place, given the expansion of one depth more.

A macro that is being expanded is disabled in the table, and a name of it is painted
with a marker that comes out at the end. There is no result where an error is reported or
arguments are written behind their array.
-/

namespace Rcc.Preprocess

open Lexer (Text isspace isdigit headIs startswith)
open Macros (Definition Entry Table)
open Files (Preprocessor)

/-- The marker of painted names. -/
def paint : Char := '\x02'

/-- `strip_bluepaint` -/
def stripBluepaint (s : Text) : Text := s.filter (· ≠ paint)

/-- `args[32]` -/
def maxArgs : Nat := 32

/-- The loop of `parse_macro_args`, with the argument it is in: the arguments, and what is
behind the parenthesis. -/
def macroArgsLoop : Nat → Text → List Text → Nat → Text → Option (List Text × Text)
  | 0, _, _, _, _ => none
  | _ + 1, _, _, _, [] => none
  | n + 1, arg, args, depth, c :: p =>
      if isQuote c then macroArgsLoop n (arg ++ c :: (literal c p).1) args depth (literal c p).2
      else if c = '(' then macroArgsLoop n (arg ++ [c]) args (depth + 1) p
      else if c = ')' && depth = 1 then
        if arg = [] && args = [] then some ([], p)
        else if args.length < maxArgs then some (args ++ [trim arg], p) else none
      else if c = ')' then macroArgsLoop n (arg ++ [c]) args (depth - 1) p
      else if c = ',' && depth = 1 then
        if args.length < maxArgs then macroArgsLoop n [] (args ++ [trim arg]) depth p else none
      else macroArgsLoop n (arg ++ [c]) args depth p

/-- `parse_macro_args` -/
def parseMacroArgs (p : Text) : Option (List Text × Text) := macroArgsLoop (p.length + 1) [] [] 1 p

def findEntry (st : Preprocessor) (name : Text) : Option Entry :=
  (st.table.findMacro (String.ofList name)).map st.table.entry

/-- `push_disabled` and `pop_disabled` -/
def setDisabled (st : Preprocessor) (name : Text) (disabled : Bool) : Preprocessor :=
  st.setTable (st.table.setDisabled (String.ofList name) disabled)

/-- The names that the parser resolves. -/
def isFunctionName (name : Text) : Bool :=
  ["__FUNCTION__", "__func__", "__PRETTY_FUNCTION__"].any fun s => s.toList = name

def isHasInclude (name : Text) : Bool :=
  ["__has_include", "__has_include_next"].any fun s => s.toList = name

/-- The suffix of a number. -/
def isSuffix (prev : Option Char) (name : Text) : Bool :=
  prev.any (fun c => isdigit c || c = '.') && name.all fun c => c ∈ "FfLlUu".toList

/-- What `expand_text` is called with everywhere. -/
structure Place where
  filename : Text
  lineNo : Nat

/-- The arguments that are missing are empty. -/
def padArgs (d : Definition) (args : List Text) : List Text :=
  args ++ List.replicate (d.params.length - args.length) []

section Step

-- the expansion of one depth more
variable (expand : Preprocessor → Text → Option (Preprocessor × Text))

/-- The arguments, expanded one after the other. -/
def expandArgs (st : Preprocessor) : List Text → Option (Preprocessor × List Text)
  | [] => some (st, [])
  | arg :: args =>
      (expand st arg).bind fun (st, arg) => (expandArgs st args).map fun (st, args) => (st, arg :: args)

/-- A text that comes from a macro. -/
def rescan (st : Preprocessor) (name text : Text) : Option (Preprocessor × Text) :=
  (expand (setDisabled st name true) text).map fun (st, sb) => (setDisabled st name false, sb)

/-- The call of a macro with these arguments. -/
def expandCall (st : Preprocessor) (name : Text) (d : Definition) (args : List Text) :
    Option (Preprocessor × Text) :=
  if ! d.isVariadic && d.params.length < args.length then some (st, name ++ '(' :: (joinComma args ++ [')']))
  else if (padArgs d args).length ≤ maxArgs then
    (expandArgs expand st (padArgs d args)).bind fun (st, expanded) =>
      rescan expand st name (substituteMacro d expanded (padArgs d args))
  else none

/-- A name, behind which is `p`: what stands for it, and what is behind it. -/
def expandName (place : Place) (st : Preprocessor) (prev : Option Char) (name p : Text) :
    Option (Preprocessor × Text × Text) :=
  if name = "__LINE__".toList then some (st, (toString place.lineNo).toList, p)
  else if name = "__FILE__".toList then some (st, quoteString place.filename, p)
  else if name = "__COUNTER__".toList then
    some ({ st with ppCounter := st.ppCounter + 1 }, (toString st.ppCounter).toList, p)
  else if isFunctionName name then some (st, name, p)
  else if isHasInclude name && headIs (· = '(') (p.dropWhile isspace) then some (st, name, p)
  else if isSuffix prev name then some (st, name, p)
  else
    match findEntry st name with
    | none => some (st, name, p)
    | some e =>
        if e.disabled then some (st, paint :: name, p)
        else if e.definition.isFunction then
          match p.dropWhile isspace with
          | '(' :: q =>
              (parseMacroArgs q).bind fun (args, rest) =>
                (expandCall expand st name e.definition args).map fun (st, sb) => (st, sb, rest)
          | _ => some (st, name, p)
        else (rescan expand st name e.definition.body.toList).map fun (st, sb) => (st, sb, p)

/-- What stands for what the loop comes upon at `c :: p`, and what is behind it. -/
def expandAt (place : Place) (st : Preprocessor) (prev : Option Char) (c : Char) (p : Text) :
    Option (Preprocessor × Text × Text) :=
  if c = paint then some (st, c :: p.takeWhile isIdent2, p.dropWhile isIdent2)
  else if isQuote c then some (st, c :: (literal c p).1, (literal c p).2)
  else if isIdent1 c then expandName expand place st prev (c :: p.takeWhile isIdent2) (p.dropWhile isIdent2)
  else some (st, [c], p)

/-- The loop. A digit or a point before a name is an item of its own. -/
def expandLoop (place : Place) : Nat → Preprocessor → Option Char → Text → Option (Preprocessor × Text)
  | 0, st, _, _ => some (st, [])
  | _ + 1, st, _, [] => some (st, [])
  | n + 1, st, prev, c :: p =>
      (expandAt expand place st prev c p).bind fun (st, sb, rest) =>
        (expandLoop place n st (some c) rest).map fun (st, more) => (st, sb ++ more)

end Step

/-- `expand_text`, where so many depths are left. -/
def expandText (place : Place) : Nat → Preprocessor → Text → Option (Preprocessor × Text)
  | 0, st, text => some (st, text)
  | n + 1, st, text =>
      (expandLoop (expandText place n) place text.length st none text).bind fun (st, sb) =>
        if sb = text then some (st, sb) else expandText place n st sb

/-- The depth at the beginning: `depth > 20` ends it. -/
def depths : Nat := 21

/-- What may stand for a name. -/
inductive Named (expand : Preprocessor → Text → Option (Preprocessor × Text)) (place : Place) (st : Preprocessor)
    (name p : Text) : Preprocessor → Text → Text → Prop where
  | line : Named expand place st name p st (toString place.lineNo).toList p
  | file : Named expand place st name p st (quoteString place.filename) p
  | counter : Named expand place st name p { st with ppCounter := st.ppCounter + 1 } (toString st.ppCounter).toList p
  | kept : Named expand place st name p st name p
  | painted : Named expand place st name p st (paint :: name) p
  | call {st' : Preprocessor} {sb q rest : Text} {args : List Text} {i : Nat}
      (hfind : st.table.findMacro (String.ofList name) = some i) (hdisabled : (st.table.entry i).disabled = false)
      (hargs : p.dropWhile isspace = '(' :: q ∧ parseMacroArgs q = some (args, rest))
      (hcall : expandCall expand st name (st.table.entry i).definition args = some (st', sb)) :
      Named expand place st name p st' sb rest
  | rescan {st' : Preprocessor} {sb : Text} {i : Nat}
      (hfind : st.table.findMacro (String.ofList name) = some i) (hdisabled : (st.table.entry i).disabled = false)
      (hrescan : rescan expand st name (st.table.entry i).definition.body.toList = some (st', sb)) :
      Named expand place st name p st' sb p

theorem expandName_cases {expand : Preprocessor → Text → Option (Preprocessor × Text)} {place : Place}
    {st st' : Preprocessor} {prev : Option Char} {name p sb rest : Text}
    (h : expandName expand place st prev name p = some (st', sb, rest)) : Named expand place st name p st' sb rest := by
  have hsome : ∀ {r : Preprocessor × Text × Text}, Named expand place st name p r.1 r.2.1 r.2.2 →
      some r = some (st', sb, rest) → Named expand place st name p st' sb rest := by
    intro r hr heq
    rw [Option.some_inj.mp heq] at hr
    exact hr
  rw [expandName] at h
  split at h
  · exact hsome .line h
  split at h
  · exact hsome .file h
  split at h
  · exact hsome .counter h
  split at h
  · exact hsome .kept h
  split at h
  · exact hsome .kept h
  split at h
  · exact hsome .kept h
  split at h
  · exact hsome .kept h
  next e hentry =>
    obtain ⟨i, hfind, rfl⟩ := Option.map_eq_some_iff.mp hentry
    split at h
    · exact hsome .painted h
    next hd =>
      have hdisabled : (st.table.entry i).disabled = false := Bool.not_eq_true _ ▸ hd
      split at h
      · split at h
        · next q hq =>
            obtain ⟨⟨args, rest'⟩, hargs, hmap⟩ := Option.bind_eq_some_iff.mp h
            obtain ⟨⟨st₁, sb₁⟩, hcall, heq⟩ := Option.map_eq_some_iff.mp hmap
            exact hsome (.call hfind hdisabled ⟨hq, hargs⟩ hcall) (congrArg some heq)
        · exact hsome .kept h
      · obtain ⟨⟨st₁, sb₁⟩, hrescan, heq⟩ := Option.map_eq_some_iff.mp h
        exact hsome (.rescan hfind hdisabled hrescan) (congrArg some heq)

/-! ## What stays -/

/-- The macros and the marked files are the same. -/
structure SameMacros (s t : Preprocessor) : Prop where
  table : t.table = s.table
  onceFiles : t.onceFiles = s.onceFiles

theorem SameMacros.refl (s : Preprocessor) : SameMacros s s := ⟨rfl, rfl⟩

theorem SameMacros.trans {s t u : Preprocessor} (h : SameMacros s t) (h' : SameMacros t u) : SameMacros s u :=
  ⟨h'.table.trans h.table, h'.onceFiles.trans h.onceFiles⟩

section Frame

variable {expand : Preprocessor → Text → Option (Preprocessor × Text)} {place : Place} {st st' : Preprocessor}
  {name sb : Text}
  (hexpand : ∀ st text st' sb, expand st text = some (st', sb) → SameMacros st st')

include hexpand

theorem expandArgs_same {args args' : List Text} (h : expandArgs expand st args = some (st', args')) : SameMacros st st' := by
  induction args generalizing st st' args' with
  | nil =>
      obtain ⟨rfl, _⟩ := Prod.mk.inj (Option.some_inj.mp (show some (st, []) = some (st', args') from h))
      exact .refl st
  | cons arg args ih =>
      obtain ⟨⟨st₁, sb⟩, harg, hrest⟩ := Option.bind_eq_some_iff.mp h
      obtain ⟨⟨st₂, sbs⟩, hargs, heq⟩ := Option.map_eq_some_iff.mp hrest
      obtain ⟨rfl, _⟩ := Prod.mk.inj heq
      exact (hexpand _ _ _ _ harg).trans (ih hargs)

/-- The macro is enabled again. -/
theorem rescan_same {i : Nat} {text : Text} (hfind : st.table.findMacro (String.ofList name) = some i)
    (hdisabled : (st.table.entry i).disabled = false) (h : rescan expand st name text = some (st', sb)) :
    SameMacros st st' := by
  obtain ⟨⟨st₁, sb₁⟩, htext, heq⟩ := Option.map_eq_some_iff.mp h
  obtain ⟨rfl, _⟩ := Prod.mk.inj heq
  have hsame := hexpand _ _ _ _ htext
  refine ⟨?_, hsame.onceFiles⟩
  show st₁.table.setDisabled _ false = _
  rw [hsame.table]
  exact st.table.setDisabled_setDisabled hfind hdisabled

theorem expandCall_same {i : Nat} {d : Definition} {args : List Text}
    (hfind : st.table.findMacro (String.ofList name) = some i) (hdisabled : (st.table.entry i).disabled = false)
    (h : expandCall expand st name d args = some (st', sb)) : SameMacros st st' := by
  rw [expandCall] at h
  split at h
  · obtain ⟨rfl, _⟩ := Prod.mk.inj (Option.some_inj.mp h)
    exact .refl st
  · split at h
    · obtain ⟨⟨st₁, expanded⟩, hargs, hrescan⟩ := Option.bind_eq_some_iff.mp h
      have hsame := expandArgs_same hexpand hargs
      have hfind₁ : st₁.table.findMacro (String.ofList name) = some i := hsame.table.symm ▸ hfind
      have hdisabled₁ : (st₁.table.entry i).disabled = false := hsame.table.symm ▸ hdisabled
      exact hsame.trans (rescan_same hexpand hfind₁ hdisabled₁ hrescan)
    · exact absurd h nofun

theorem expandName_same {prev : Option Char} {p rest : Text}
    (h : expandName expand place st prev name p = some (st', sb, rest)) : SameMacros st st' := by
  cases expandName_cases h with
  | line | file | kept | painted => exact .refl st
  | counter => exact ⟨rfl, rfl⟩
  | call hfind hdisabled _ hcall => exact expandCall_same hexpand hfind hdisabled hcall
  | rescan hfind hdisabled hrescan => exact rescan_same hexpand hfind hdisabled hrescan

theorem expandAt_same {prev : Option Char} {c : Char} {p rest : Text}
    (h : expandAt expand place st prev c p = some (st', sb, rest)) : SameMacros st st' := by
  have hrefl : ∀ {t : Text × Text}, some (st, t) = some (st', sb, rest) → SameMacros st st' :=
    fun heq => (Prod.mk.inj (Option.some_inj.mp heq)).1 ▸ .refl st
  rw [expandAt] at h
  split at h
  · exact hrefl h
  split at h
  · exact hrefl h
  split at h
  · exact expandName_same hexpand h
  · exact hrefl h

theorem expandLoop_same {n : Nat} {prev : Option Char} {p : Text}
    (h : expandLoop expand place n st prev p = some (st', sb)) : SameMacros st st' := by
  induction n generalizing st st' prev p sb with
  | zero =>
      obtain ⟨rfl, _⟩ := Prod.mk.inj (Option.some_inj.mp (show some (st, []) = some (st', sb) from h))
      exact .refl st
  | succ n ih =>
      cases p with
      | nil =>
          obtain ⟨rfl, _⟩ := Prod.mk.inj (Option.some_inj.mp (show some (st, []) = some (st', sb) from h))
          exact .refl st
      | cons c p =>
          obtain ⟨⟨st₁, sb₁, rest⟩, hat, hrest⟩ := Option.bind_eq_some_iff.mp h
          obtain ⟨⟨st₂, more⟩, hloop, heq⟩ := Option.map_eq_some_iff.mp hrest
          obtain ⟨rfl, _⟩ := Prod.mk.inj heq
          exact (expandAt_same hexpand hat).trans (ih hloop)

end Frame

/-- `expand_text` changes no macro. -/
theorem expandText_same {place : Place} {n : Nat} {st st' : Preprocessor} {text sb : Text}
    (h : expandText place n st text = some (st', sb)) : SameMacros st st' := by
  induction n generalizing st st' text sb with
  | zero =>
      obtain ⟨rfl, _⟩ := Prod.mk.inj (Option.some_inj.mp (show some (st, text) = some (st', sb) from h))
      exact .refl st
  | succ n ih =>
      obtain ⟨⟨st₁, sb₁⟩, hloop, hrest⟩ := Option.bind_eq_some_iff.mp h
      have hsame := expandLoop_same (fun _ _ _ _ => ih) hloop
      replace hrest : (if sb₁ = text then some (st₁, sb₁) else expandText place n st₁ sb₁) = some (st', sb) := hrest
      split at hrest
      · obtain ⟨rfl, _⟩ := Prod.mk.inj (Option.some_inj.mp hrest)
        exact hsame
      · exact hsame.trans (ih hrest)

end Rcc.Preprocess

import Rcc.Condition

/-!
# The lines of a file

`preprocess_file` goes through the lines of a file, of which each has taken in those that
continue it. `step` is what it does with one. A line is a directive or text, and a
directive is told by the beginning of its name; in a part that is not active, all but the
conditional directives are the same as text.

Text with an open parenthesis is kept until the parenthesis is closed, and expanded
then. There is no result where an error is reported, where a stack or an array has no
room, or where the loop over the parameters of a macro does not move.
-/

namespace Rcc.Preprocess

open Lexer (Text isspace isdigit headIs startswith)
open Macros (Table)
open Files (Preprocessor)
open PragmaPack (PackState)

/-! ## Lines -/

/-- A line, and how many it was written on. -/
structure Line where
  text : Text
  count : Nat
deriving DecidableEq

/-- The loop of `splice_lines_with_counts`, where `last` is the last character of the
buffer: the text, and `line_counts`. -/
def spliceLoop (count : Nat) (last : Option Char) : Text → Text × List Nat
  | [] => ([], if 1 < count || last ≠ some '\n' then [count] else [])
  | [c] =>
      if c = '\n' then ([c], count :: (spliceLoop 1 (some c) []).2) else ([c], (spliceLoop count (some c) []).2)
  | c :: d :: p =>
      if c = '\\' && d = '\n' then spliceLoop (count + 1) last p
      else if c = '\n' then (c :: (spliceLoop 1 (some c) (d :: p)).1, count :: (spliceLoop 1 (some c) (d :: p)).2)
      else (c :: (spliceLoop count (some c) (d :: p)).1, (spliceLoop count (some c) (d :: p)).2)

/-- `splice_lines_with_counts` -/
def splice (input : Text) : Text × List Nat := spliceLoop 1 none input

/-- Blanks for what is before the end of a comment, and for its end. -/
def blankComment : Text → Text × Text
  | [] => ([], [])
  | [c] => ([if c = '\n' then c else ' '], [])
  | c :: d :: p =>
      if c = '*' && d = '/' then ([' ', ' '], p)
      else ((if c = '\n' then c else ' ') :: (blankComment (d :: p)).1, (blankComment (d :: p)).2)

/-- `strip_comments` -/
def stripComments : Nat → Bool → Text → Text
  | 0, _, _ => []
  | _ + 1, _, [] => []
  | n + 1, true, c :: p =>
      if c = '\n' then c :: stripComments n false p
      else if c = '\\' && p ≠ [] then c :: p.take 1 ++ stripComments n true p.tail
      else c :: stripComments n (c ≠ '"') p
  | n + 1, false, c :: p =>
      if c = '"' then c :: stripComments n true p
      else if c = '/' && headIs (· = '/') p then
        (c :: p.takeWhile (· ≠ '\n')).map (fun _ => ' ') ++ stripComments n false (p.dropWhile (· ≠ '\n'))
      else if c = '/' && headIs (· = '*') p then
        [' ', ' '] ++ (blankComment p.tail).1 ++ stripComments n false (blankComment p.tail).2
      else c :: stripComments n false p

def splitLines : Nat → Text → List Text
  | 0, _ => []
  | _ + 1, [] => []
  | n + 1, p => p.takeWhile (· ≠ '\n') :: splitLines n (p.dropWhile (· ≠ '\n')).tail

/-- The lines that the loop goes through. -/
def linesOf (input : Text) : List Line :=
  let text := stripComments (splice input).1.length false (splice input).1
  List.zipWith Line.mk (splitLines text.length text) (splice input).2

/-! ## Parentheses -/

/-- `count_unmatched_parens` -/
def countUnmatchedParens : Nat → Text → Int
  | 0, _ => 0
  | _ + 1, [] => 0
  | n + 1, c :: p =>
      if isQuote c then countUnmatchedParens n (literal c p).2
      else (if c = '(' then 1 else if c = ')' then -1 else 0) + countUnmatchedParens n p

/-- `count_parens_preserve_quote`, with the quotation mark that is open behind it -/
def countParens : Option Char → Text → Int × Option Char
  | quote, [] => (0, quote)
  | some q, [c] => (0, if c = q then none else some q)
  | some q, c :: d :: p =>
      if c = q then countParens none (d :: p)
      else if c = '\\' then countParens (some q) p else countParens (some q) (d :: p)
  | none, c :: p =>
      if isQuote c then countParens (some c) p
      else ((if c = '(' then 1 else if c = ')' then -1 else 0) + (countParens none p).1, (countParens none p).2)

/-! ## The state -/

/-- `CondIncl` -/
structure CondIncl where
  parentActive : Bool
  active : Bool
  branchTaken : Bool
deriving DecidableEq

/-- The text that is kept, with the number of its first line, how many lines it was
written on, and what is open in it. -/
structure Acc where
  text : Text
  lineNo : Nat
  physCount : Nat
  parens : Int
  quote : Option Char
deriving DecidableEq

structure FileState where
  pp : Preprocessor
  pack : PackState
  out : Text
  conds : List CondIncl
  active : Bool
  lineNo : Nat
  acc : Acc

/-- What is the same for all lines of a file: its names, and `preprocess_file` for
another file, given its name and contents. -/
structure Context where
  fs : FileSystem
  filename : Text
  fpath : Text
  included : Preprocessor → PackState → Text → Text → Option (Preprocessor × PackState × Text)

namespace FileState

def emit (s : FileState) (text : Text) : FileState := { s with out := s.out ++ text }

def newlines (n : Nat) : Text := List.replicate n '\n'

def setTable (s : FileState) (table : Table) : FileState := { s with pp := s.pp.setTable table }

/-- A text is expanded and put out. -/
def emitExpanded (ctx : Context) (s : FileState) (lineNo : Nat) (text : Text) : Option FileState :=
  (expandText ⟨ctx.filename, lineNo⟩ depths s.pp text).map fun (pp, sb) =>
    { s with pp, out := s.out ++ stripBluepaint sb }

/-- The text that was kept is put out. -/
def flush (ctx : Context) (s : FileState) : Option FileState :=
  if s.acc.text = [] then some s
  else (s.emitExpanded ctx s.acc.lineNo s.acc.text).map fun s =>
    { s with out := s.out ++ newlines s.acc.physCount, acc := { s.acc with text := [], physCount := 0 } }

end FileState

open FileState (newlines)

/-! ## Directives -/

/-- The directives, and a line that is none of them or not active. -/
inductive Directive where
  | pragma | define | undef | include_ | cond | elif | ifdef | ifndef | else_ | endif | other
deriving DecidableEq

/-- What a line is taken for that begins with `#` and `s`. -/
def directive (active : Bool) (s : Text) : Directive :=
  if startswith s "pragma" && active then .pragma
  else if startswith s "define" && active then .define
  else if startswith s "undef" && active then .undef
  else if startswith s "include" && active then .include_
  else if startswith s "if" && ! startswith s "ifdef" && ! startswith s "ifndef" then .cond
  else if startswith s "elif" then .elif
  else if startswith s "ifdef" then .ifdef
  else if startswith s "ifndef" then .ifndef
  else if startswith s "else" then .else_
  else if startswith s "endif" then .endif
  else .other

/-- What is behind the name of a directive. -/
def argumentOf (name : String) (s : Text) : Text := (s.drop name.length).dropWhile isspace

/-- A name in quotation marks or without. -/
def pragmaName (s : Text) : Text :=
  match s with
  | '"' :: p => p.takeWhile (· ≠ '"')
  | p => p.takeWhile isIdent2

/-- `push_macro` and `pop_macro` with their operand, if there is a parenthesis. -/
def pragmaMacro (s : FileState) (change : Table → String → Table) (p : Text) : FileState :=
  match p with
  | '(' :: p => (s.setTable (change s.pp.table (String.ofList (pragmaName (p.dropWhile isspace))))).emit (newlines 1)
  | _ => s

/-- The directives that are written for `#pragma pack`. -/
def packText : PragmaPack.Line → Text
  | .pack (some n) => "# pragma pack(".toList ++ (toString n).toList ++ ")\n".toList
  | .pack none => "# pragma pack()\n".toList
  | .token _ => []

/-- `#pragma`, before its operand. -/
def pragma (ctx : Context) (s : FileState) (p : Text) : Option FileState :=
  if startswith p "once" then some ({ s with pp := s.pp.markOnceFile (String.ofList ctx.fpath) }.emit (newlines 1))
  else if startswith p "pack" then
    (PragmaPack.pragmaPack s.pack (p.drop 4)).map fun (pack, lines) => { s with pack }.emit (lines.flatMap packText)
  else if startswith p "push_macro" then some (pragmaMacro s Table.pushMacro (argumentOf "push_macro" p))
  else if startswith p "pop_macro" then some (pragmaMacro s Table.popMacro (argumentOf "pop_macro" p))
  else if startswith p "unicode" then
    some (s.emit ("# pragma unicode".toList ++ (argumentOf "unicode" p).takeWhile (fun c => ! isspace c) ++ newlines 1))
  else some (s.emit (newlines 1))

/-- `params[32]` -/
def maxParams : Nat := 32

/-- The parameters of a macro. -/
structure Params where
  params : List Text
  isVariadic : Bool
  isGnuVariadic : Bool
  rest : Text

/-- The loop over the parameters, with the text before it from right to left. -/
def paramsLoop : Nat → List Text → Bool → Bool → Text → Text → Option Params
  | 0, _, _, _, _, _ => none
  | n + 1, params, isVariadic, isGnuVariadic, before, p =>
      if p = [] || headIs (· = ')') p then some ⟨params, isVariadic, isGnuVariadic, skipChar ')' p⟩
      else
        let q := p.dropWhile isspace
        let before := (p.takeWhile isspace).reverse ++ before
        if startswith q "..." then
          let back := before.dropWhile isspace
          let gnu := params ≠ [] && headIs (fun c => c ≠ ',' && isIdent2 c) back
          let rest := (q.drop 3).dropWhile isspace
          if headIs (· = ',') rest then paramsLoop n params true gnu (',' :: before) rest.tail
          else some ⟨params, true, gnu, skipChar ')' rest⟩
        else
          let name := q.takeWhile isIdent2
          let rest := (q.dropWhile isIdent2).dropWhile isspace
          let before := ((q.dropWhile isIdent2).takeWhile isspace).reverse ++ (name.reverse ++ before)
          let params := if name = [] then params else params ++ [name]
          if headIs (· = ',') rest then paramsLoop n params isVariadic isGnuVariadic (',' :: before) rest.tail
          else paramsLoop n params isVariadic isGnuVariadic before rest

/-- `#define` with the parameters and what is behind them. -/
def defineFunction (t : Table) (name : Text) (params : Params) : Table :=
  let t := t.defineMacro (String.ofList name) true (params.params.map String.ofList) (String.ofList (trim params.rest))
  if params.isVariadic then t.setVariadic (String.ofList name) params.isGnuVariadic else t

/-- `#define`, before the name. -/
def define (t : Table) (p : Text) : Option Table :=
  let name := p.takeWhile isIdent2
  match p.dropWhile isIdent2 with
  | '(' :: q =>
      (paramsLoop (q.length + 1) [] false false ('(' :: name.reverse) q).bind fun params =>
        if params.params.length ≤ maxParams then some (defineFunction t name params) else none
  | q => some (t.defineMacro (String.ofList name) false [] (String.ofList (trim q)))

/-- The operand of `#include`: the name, and whether it is in angle brackets. -/
def includeSpec (p : Text) : Option (Text × Bool) :=
  match p with
  | '"' :: q => some (q.takeWhile (· ≠ '"'), false)
  | '<' :: q => some (q.takeWhile (· ≠ '>'), true)
  | _ => none

/-- `read_pp_file` -/
def readPpFile (fs : FileSystem) (path : Text) : Option Text :=
  (fs.read path).map fun text => if text.getLast? = some '\n' then text else text ++ ['\n']

def marker (n : Nat) (name : Text) : Text := "# ".toList ++ (toString n).toList ++ " \"".toList ++ name ++ "\"\n".toList

/-- The file of an `#include` in its place. -/
def includeFile (ctx : Context) (s : FileState) (spec : Text) (isAngle : Bool) : Option FileState :=
  (resolveInclude ctx.fs ctx.fpath spec isAngle).bind fun path =>
    (readPpFile ctx.fs path).bind fun inc =>
      (ctx.included s.pp s.pack (fullPath ctx.fs path) inc).map fun (pp, pack, text) =>
        { s with
          pp, pack
          out := s.out ++ marker (s.lineNo + 1) spec ++ text ++ marker (s.lineNo + 1) ctx.fpath
          lineNo := s.lineNo + inc.count '\n' }

/-- `#include`, before its operand. -/
def include_ (ctx : Context) (s : FileState) (p : Text) : Option FileState :=
  match includeSpec p with
  | some (spec, isAngle) => includeFile ctx s spec isAngle
  | none =>
      (expandText ⟨ctx.filename, 1⟩ depths s.pp p).bind fun (pp, sb) =>
        match includeSpec ((stripBluepaint sb).dropWhile isspace) with
        | some (spec, isAngle) => includeFile ctx { s with pp } spec isAngle
        | none => some { s with pp }

/-- A group begins with a condition. -/
def pushCond (s : FileState) (val : Bool) : FileState :=
  { s with
    conds := ⟨s.active, s.active && val, s.active && val⟩ :: s.conds
    active := s.active && val
    out := s.out ++ newlines 1 }

/-- `#elif`, before its condition. -/
def elif (ctx : Context) (s : FileState) (p : Text) : Option FileState :=
  match s.conds with
  | [] => some ({ s with active := false }.emit (newlines 1))
  | ci :: conds =>
      if ci.branchTaken || ! ci.parentActive then
        some ({ s with conds := { ci with active := false } :: conds, active := false }.emit (newlines 1))
      else
        (evalCondition ctx.fs ctx.filename s.pp (trim p)).map fun (pp, val) =>
          { s with
            pp
            conds := { ci with active := val ≠ 0, branchTaken := val ≠ 0 } :: conds
            active := val ≠ 0 }.emit (newlines 1)

def else_ (s : FileState) : FileState :=
  match s.conds with
  | [] => s.emit (newlines 1)
  | ci :: conds =>
      { s with
        conds := { ci with active := ci.parentActive && ! ci.branchTaken, branchTaken := true } :: conds
        active := ci.parentActive && ! ci.branchTaken }.emit (newlines 1)

def endif (s : FileState) : FileState :=
  match s.conds with
  | [] => s.emit (newlines 1)
  | ci :: conds => { s with conds, active := ci.parentActive }.emit (newlines 1)

/-- A directive on so many lines, behind its `#`. -/
def runDirective (ctx : Context) (s : FileState) (count : Nat) (p : Text) : Option FileState :=
  match directive s.active p with
  | .pragma => pragma ctx s (argumentOf "pragma" p)
  | .define => (define s.pp.table (argumentOf "define" p)).map fun t => (s.setTable t).emit (newlines count)
  | .undef =>
      let name := (argumentOf "undef" p).takeWhile isIdent2
      some ((s.setTable (s.pp.table.undef (String.ofList name))).emit (newlines count))
  | .include_ => include_ ctx s (argumentOf "include" p)
  | .cond =>
      (evalCondition ctx.fs ctx.filename s.pp (argumentOf "if" p)).map fun (pp, val) => pushCond { s with pp } (val ≠ 0)
  | .elif => elif ctx s (argumentOf "elif" p)
  | .ifdef => some (pushCond s (findEntry s.pp ((argumentOf "ifdef" p).takeWhile isIdent2)).isSome)
  | .ifndef => some (pushCond s (findEntry s.pp ((argumentOf "ifndef" p).takeWhile isIdent2)).isNone)
  | .else_ => some (else_ s)
  | .endif => some (endif s)
  | .other => some (s.emit (newlines count))

/-! ## Text -/

/-- A line of text that is kept. -/
def keep (s : FileState) (line : Line) : FileState :=
  let acc := if s.acc.text = [] then { s.acc with lineNo := s.lineNo, parens := 0, quote := none } else s.acc
  let (parens, quote) := countParens acc.quote line.text
  { s with
    acc :=
      { acc with
        text := (if acc.text = [] then line.text else acc.text ++ ' ' :: line.text)
        physCount := acc.physCount + line.count
        parens := acc.parens + parens
        quote } }

def runText (ctx : Context) (s : FileState) (line : Line) : Option FileState :=
  if s.acc.text ≠ [] || 0 < countUnmatchedParens line.text.length line.text then
    if (keep s line).acc.parens ≤ 0 then (keep s line).flush ctx else some (keep s line)
  else (s.emitExpanded ctx s.lineNo line.text).map fun s => s.emit (newlines line.count)

/-! ## The file -/

/-- What is behind the `#` of a directive. -/
def hash (text : Text) : Option Text :=
  match text.dropWhile Lexer.isBlank with
  | '#' :: p => some (p.dropWhile isspace)
  | _ => none

/-- One turn of the loop, but for the line number. -/
def turn (ctx : Context) (s : FileState) (line : Line) : Option FileState :=
  match hash line.text with
  | some p => (s.flush ctx).bind fun s => runDirective ctx s line.count p
  | none =>
      if s.active then runText ctx s line
      else (s.flush ctx).map fun s => s.emit (newlines line.count)

def step (ctx : Context) (s : FileState) (line : Line) : Option FileState :=
  (turn ctx s line).map fun s => { s with lineNo := s.lineNo + line.count }

def FileState.start (pp : Preprocessor) (pack : PackState) : FileState where
  pp := pp
  pack := pack
  out := []
  conds := []
  active := true
  lineNo := 1
  acc := ⟨[], 0, 0, 0, none⟩

/-- The loop over the lines, and what is kept at the end. -/
def preprocessLines (ctx : Context) (pp : Preprocessor) (pack : PackState) (input : Text) : Option FileState :=
  ((linesOf input).foldlM (step ctx) (.start pp pack)).bind fun s => s.flush ctx

/-- `preprocess_file`, where so many files may be inside of each other. -/
def preprocessFile (fs : FileSystem) : Nat → Preprocessor → PackState → Text → Text → Option (Preprocessor × PackState × Text)
  | n, pp, pack, filename, input =>
      if pp.isOnceFile (String.ofList (fullPath fs filename)) then some (pp, pack, [])
      else
        match n with
        | 0 => none
        | n + 1 =>
            (preprocessLines ⟨fs, filename, fullPath fs filename, preprocessFile fs n⟩ pp pack input).map fun s =>
              (s.pp, s.pack, s.out)

/-- What `preprocess` does with a file, once the macros are those before it. -/
def preprocess (fs : FileSystem) (pp : Preprocessor) (pack : PackState) (filename input : Text) :
    Option (Preprocessor × PackState × Text) :=
  preprocessFile fs 246 pp pack (canonicalPath filename) input

/-! ## A file where there is no other -/

def noFiles : FileSystem := ⟨fun _ => none, fun _ => none, [], [], []⟩

def alone : Context := ⟨noFiles, [], [], fun _ _ _ _ => none⟩

def noMacros : Preprocessor := ⟨.empty, [], 0⟩

/-! ## What stays -/

/-- Nothing is done but to put out text or to keep it. -/
structure Quiet (s t : FileState) : Prop where
  macros : SameMacros s.pp t.pp
  pack : t.pack = s.pack
  conds : t.conds = s.conds
  active : t.active = s.active
  lineNo : t.lineNo = s.lineNo

theorem Quiet.refl (s : FileState) : Quiet s s := ⟨.refl s.pp, rfl, rfl, rfl, rfl⟩

theorem Quiet.trans {s t u : FileState} (h : Quiet s t) (h' : Quiet t u) : Quiet s u :=
  ⟨h.macros.trans h'.macros, h'.pack.trans h.pack, h'.conds.trans h.conds, h'.active.trans h.active,
    h'.lineNo.trans h.lineNo⟩

section Quiet

variable {ctx : Context} {s t : FileState} {line : Line}

theorem quiet_emitExpanded {lineNo : Nat} {text : Text} (h : s.emitExpanded ctx lineNo text = some t) : Quiet s t := by
  obtain ⟨⟨pp, sb⟩, hexpand, rfl⟩ := Option.map_eq_some_iff.mp h
  exact ⟨expandText_same hexpand, rfl, rfl, rfl, rfl⟩

theorem quiet_flush (h : s.flush ctx = some t) : Quiet s t := by
  rw [FileState.flush] at h
  split at h
  · obtain rfl := Option.some_inj.mp h
    exact .refl s
  · obtain ⟨s₁, hemit, rfl⟩ := Option.map_eq_some_iff.mp h
    have hquiet := quiet_emitExpanded hemit
    exact ⟨hquiet.macros, hquiet.pack, hquiet.conds, hquiet.active, hquiet.lineNo⟩

theorem quiet_keep (s : FileState) (line : Line) : Quiet s (keep s line) := ⟨.refl s.pp, rfl, rfl, rfl, rfl⟩

theorem quiet_runText (h : runText ctx s line = some t) : Quiet s t := by
  rw [runText] at h
  split at h
  · split at h
    · exact (quiet_keep s line).trans (quiet_flush h)
    · obtain rfl := Option.some_inj.mp h
      exact quiet_keep s line
  · obtain ⟨s₁, hemit, rfl⟩ := Option.map_eq_some_iff.mp h
    have hquiet := quiet_emitExpanded hemit
    exact ⟨hquiet.macros, hquiet.pack, hquiet.conds, hquiet.active, hquiet.lineNo⟩

end Quiet

/-- Only the macros, the packing and the output are others. -/
structure Stays (s t : FileState) : Prop where
  conds : t.conds = s.conds
  active : t.active = s.active
  lineNo : t.lineNo = s.lineNo
  acc : t.acc = s.acc

theorem pragma_stays {ctx : Context} {s t : FileState} {p : Text} (h : pragma ctx s p = some t) : Stays s t := by
  have hmacro : ∀ change q, Stays s (pragmaMacro s change q) := by
    intro change q
    rw [pragmaMacro.eq_def]
    split
    · exact ⟨rfl, rfl, rfl, rfl⟩
    · exact ⟨rfl, rfl, rfl, rfl⟩
  rw [pragma] at h
  split at h
  · obtain rfl := Option.some_inj.mp h
    exact ⟨rfl, rfl, rfl, rfl⟩
  split at h
  · obtain ⟨⟨pack, lines⟩, _, rfl⟩ := Option.map_eq_some_iff.mp h
    exact ⟨rfl, rfl, rfl, rfl⟩
  split at h
  · obtain rfl := Option.some_inj.mp h
    exact hmacro _ _
  split at h
  · obtain rfl := Option.some_inj.mp h
    exact hmacro _ _
  split at h
  · obtain rfl := Option.some_inj.mp h
    exact ⟨rfl, rfl, rfl, rfl⟩
  · obtain rfl := Option.some_inj.mp h
    exact ⟨rfl, rfl, rfl, rfl⟩

/-- A directive that is no `#include` goes on with the same line, and with what is kept. -/
theorem runDirective_lineNo {ctx : Context} {s t : FileState} {count : Nat} {p : Text}
    (hdirective : directive s.active p ≠ .include_) (h : runDirective ctx s count p = some t) :
    t.lineNo = s.lineNo ∧ t.acc = s.acc := by
  rw [runDirective] at h
  split at h
  · have hstays := pragma_stays h
    exact ⟨hstays.lineNo, hstays.acc⟩
  · obtain ⟨table, _, rfl⟩ := Option.map_eq_some_iff.mp h
    exact ⟨rfl, rfl⟩
  · obtain rfl := Option.some_inj.mp h
    exact ⟨rfl, rfl⟩
  · next hinclude => exact absurd hinclude hdirective
  · obtain ⟨⟨pp, val⟩, _, rfl⟩ := Option.map_eq_some_iff.mp h
    exact ⟨rfl, rfl⟩
  · rw [elif] at h
    split at h
    · obtain rfl := Option.some_inj.mp h
      exact ⟨rfl, rfl⟩
    · split at h
      · obtain rfl := Option.some_inj.mp h
        exact ⟨rfl, rfl⟩
      · obtain ⟨⟨pp, val⟩, _, rfl⟩ := Option.map_eq_some_iff.mp h
        exact ⟨rfl, rfl⟩
  · obtain rfl := Option.some_inj.mp h
    exact ⟨rfl, rfl⟩
  · obtain rfl := Option.some_inj.mp h
    exact ⟨rfl, rfl⟩
  · obtain rfl := Option.some_inj.mp h
    rw [else_]
    split
    · exact ⟨rfl, rfl⟩
    · exact ⟨rfl, rfl⟩
  · obtain rfl := Option.some_inj.mp h
    rw [endif]
    split
    · exact ⟨rfl, rfl⟩
    · exact ⟨rfl, rfl⟩
  · obtain rfl := Option.some_inj.mp h
    exact ⟨rfl, rfl⟩

end Rcc.Preprocess

import Rcc.Client
import Rcc.MacroTable
import Rcc.PragmaPack

/-!
# The input files of one invocation

`main` preprocesses, tokenizes and parses one file after the other, and what a
file finds in the variables of the three modules is what the files before it have
left there, save for what `preprocess`, `tokenize` and `parse` set first.

A file is known only by what it does with the variables: it is a program that
asks for operations on them, in each of the three modules, and what it makes of
the replies is its text, its tokens and its tree. So nothing depends on what the
text of a file is. An error is the end of the whole run.

The variables that only go into messages on standard error are those of lines;
the scripts allowed in identifiers are left out. So are the variables that `parse`
sets in every function before it reads them, and the names of files, which
`tokenize` sets first.
-/

namespace Rcc.Files

open Client (Prog run)
open Macros (Table Entry Definition)
open PragmaPack (PackState)

/-! ## Preprocessor -/

structure Preprocessor where
  table : Table
  onceFiles : List String
  ppCounter : Nat

/-- What a file does with the variables of the preprocessor. -/
inductive PpOp where
  | findMacro (name : String)
  | defineMacro (name : String) (isFunction : Bool) (params : List String) (body : String)
  | setVariadic (name : String) (isGnuVariadic : Bool)
  | setDisabled (name : String) (disabled : Bool)
  | undef (name : String)
  | pushMacro (name : String)
  | popMacro (name : String)
  | dumpMacros
  | isOnceFile (path : String)
  | markOnceFile (path : String)
  /-- `pp_counter++` -/
  | counter
  /-- what stands behind `#pragma pack` -/
  | pragmaPack (text : List Char)

def PpReply : PpOp → Type
  | .findMacro _ => Option Entry
  | .dumpMacros => List (String × Definition)
  | .isOnceFile _ => Bool
  | .counter => Nat
  | .pragmaPack _ => Option (List PragmaPack.Line)
  | _ => Unit

def Preprocessor.setTable (p : Preprocessor) (table : Table) : Preprocessor := { p with table }

/-- `is_once_file` -/
def Preprocessor.isOnceFile (p : Preprocessor) (path : String) : Bool := p.onceFiles.contains path

/-- `mark_once_file` -/
def Preprocessor.markOnceFile (p : Preprocessor) (path : String) : Preprocessor :=
  if p.isOnceFile path then p else { p with onceFiles := path :: p.onceFiles }

def ppStep : (op : PpOp) → Preprocessor × PackState → (Preprocessor × PackState) × PpReply op
  | .findMacro name, (p, pack) => ((p, pack), (p.table.findMacro name).map p.table.entry)
  | .defineMacro name isFunction params body, (p, pack) =>
      ((p.setTable (p.table.defineMacro name isFunction params body), pack), ())
  | .setVariadic name isGnuVariadic, (p, pack) =>
      ((p.setTable (p.table.setVariadic name isGnuVariadic), pack), ())
  | .setDisabled name disabled, (p, pack) => ((p.setTable (p.table.setDisabled name disabled), pack), ())
  | .undef name, (p, pack) => ((p.setTable (p.table.undef name), pack), ())
  | .pushMacro name, (p, pack) => ((p.setTable (p.table.pushMacro name), pack), ())
  | .popMacro name, (p, pack) => ((p.setTable (p.table.popMacro name), pack), ())
  | .dumpMacros, (p, pack) => ((p, pack), p.table.dump)
  | .isOnceFile path, (p, pack) => ((p, pack), p.isOnceFile path)
  | .markOnceFile path, (p, pack) => ((p.markOnceFile path, pack), ())
  | .counter, (p, pack) => (({ p with ppCounter := p.ppCounter + 1 }, pack), p.ppCounter)
  | .pragmaPack text, (p, pack) =>
      match PragmaPack.pragmaPack pack text with
      | some (pack, lines) => ((p, pack), some lines)
      | none => ((p, pack), none)

/-! ## Lexer -/

/-- `current_input` in the text, `current_line_offset` and `line_num` -/
structure Lines where
  input : Nat
  lineOffset : Nat
  lineNum : Int

inductive LexOp where
  /-- `# n "file"` -/
  | lineDirective (lines : Lines)
  /-- what `compute_line_no` reads -/
  | lines

def LexReply : LexOp → Type
  | .lineDirective _ => Unit
  | .lines => Lines

def lexStep : (op : LexOp) → Lines → Lines × LexReply op
  | .lineDirective lines, _ => (lines, ())
  | .lines, lines => (lines, lines)

/-! ## Parser -/

/-- The variables by which one part of the parser leaves something to another. -/
inductive Cell where
  | pendingCleanupFunc | pendingCleanupTok | pendingConstructor | pendingDestructor | pendingMode
  | pendingAsmName | pendingAliasTarget | pendingVlaStructCapture | parserCurrentFn
deriving DecidableEq

section Parser

-- what the parser has for a name, and leaves in a variable: types, values, nodes
variable (D : Type)

abbrev Cells := Cell → Option D

/-- Declarations, the newest first. -/
abbrev Names := List (String × D)

/-- The lists that blocks take back. -/
structure Scope where
  locals : Names D
  typedefs : Names D
  tags : Names D
  enumConsts : Names D

structure Parser where
  globals : Names D
  strLits : List D
  scope : Scope D
  strLitCounter : Nat
  staticLocalCounter : Nat
  cells : Cells D
  /-- what the calls under way have saved -/
  frames : List (Scope D)

variable {D}

/-- Which of the lists a construct takes back: `compound_stmt_ex` all, `for` not the
tags, `if`, `while`, `do` and `switch` the enumeration constants. -/
inductive Construct where
  | block | forStmt | other

def Scope.restore (scope saved : Scope D) : Construct → Scope D
  | .block => saved
  | .forStmt => { saved with tags := scope.tags }
  | .other => { scope with enumConsts := saved.enumConsts }

inductive ParseOp (D : Type) where
  | addGlobal (name : String) (d : D)
  | findGlobal (name : String)
  | addLocal (name : String) (d : D)
  | findLocal (name : String)
  /-- `locals = NULL` -/
  | clearLocals
  | addTypedef (name : String) (d : D)
  | findTypedef (name : String)
  | pushTag (name : String) (d : D)
  | findTag (name : String)
  | addEnumConst (name : String) (d : D)
  | findEnumConst (name : String)
  | newStrLit (d : D)
  /-- `static_local_counter++` -/
  | staticLocal
  | enter
  | leave (c : Construct)
  | get (c : Cell)
  | set (c : Cell) (d : Option D)
  /-- `struct_pack = pack_align` -/
  | structPack
  /-- `pack_align = tok->val` -/
  | packAlign (n : Nat)
  | lines

def ParseReply : ParseOp D → Type
  | .findGlobal _ => Option D
  | .findLocal _ => Option D
  | .findTypedef _ => Option D
  | .findTag _ => Option D
  | .findEnumConst _ => Option D
  | .newStrLit _ => Nat
  | .staticLocal => Nat
  | .get _ => Option D
  | .structPack => Nat
  | .lines => Lines
  | _ => Unit

/-- The first of the name. -/
def Names.find (l : Names D) (name : String) : Option D := (l.find? fun p => p.1 = name).map Prod.snd

structure ParseState (D : Type) where
  parser : Parser D
  pack : PackState
  lines : Lines

def Parser.setScope (p : Parser D) (scope : Scope D) : Parser D := { p with scope }

def ParseState.setScope (s : ParseState D) (scope : Scope D) : ParseState D :=
  { s with parser := s.parser.setScope scope }

def Parser.leave (p : Parser D) (c : Construct) : Parser D :=
  match p.frames with
  | [] => p
  | saved :: frames => { p with scope := p.scope.restore saved c, frames }

def parseStep : (op : ParseOp D) → ParseState D → ParseState D × ParseReply op
  | .addGlobal name d, s =>
      ({ s with parser := { s.parser with globals := (name, d) :: s.parser.globals } }, ())
  | .findGlobal name, s => (s, Names.find s.parser.globals name)
  | .addLocal name d, s =>
      (s.setScope { s.parser.scope with locals := (name, d) :: s.parser.scope.locals }, ())
  | .findLocal name, s => (s, Names.find s.parser.scope.locals name)
  | .clearLocals, s => (s.setScope { s.parser.scope with locals := [] }, ())
  | .addTypedef name d, s =>
      (s.setScope { s.parser.scope with typedefs := (name, d) :: s.parser.scope.typedefs }, ())
  | .findTypedef name, s => (s, Names.find s.parser.scope.typedefs name)
  | .pushTag name d, s =>
      (s.setScope { s.parser.scope with tags := (name, d) :: s.parser.scope.tags }, ())
  | .findTag name, s => (s, Names.find s.parser.scope.tags name)
  | .addEnumConst name d, s =>
      (s.setScope { s.parser.scope with enumConsts := (name, d) :: s.parser.scope.enumConsts }, ())
  | .findEnumConst name, s => (s, Names.find s.parser.scope.enumConsts name)
  | .newStrLit d, s =>
      ({ s with parser := { s.parser with
          strLits := d :: s.parser.strLits, strLitCounter := s.parser.strLitCounter + 1 } },
        s.parser.strLitCounter)
  | .staticLocal, s =>
      ({ s with parser := { s.parser with staticLocalCounter := s.parser.staticLocalCounter + 1 } },
        s.parser.staticLocalCounter)
  | .enter, s =>
      ({ s with parser := { s.parser with frames := s.parser.scope :: s.parser.frames } }, ())
  | .leave c, s => ({ s with parser := s.parser.leave c }, ())
  | .get c, s => (s, s.parser.cells c)
  | .set c d, s =>
      ({ s with parser := { s.parser with cells := fun c' => if c' = c then d else s.parser.cells c' } },
        ())
  | .structPack, s => (s, s.pack.align)
  | .packAlign n, s => ({ s with pack := { s.pack with align := n } }, ())
  | .lines, s => (s, s.lines)

end Parser

/-! ## The loop over the files -/

/-- `-D` and `-U` -/
inductive MacroArg where
  | define (arg : String)
  | undef (name : String)

/-- A macro that `preprocess` defines before the first file, by `define_macro` or
only where `find_macro` finds none. -/
structure Predefined where
  unlessDefined : Bool
  name : String
  isFunction : Bool
  params : List String
  body : String

/-- The options, and what comes with the compiler and the target: the predefined
macros, the typedefs of `init_builtins`, and what the declaration of
`__builtin_va_list` makes of the variables under the packing: what they are then,
and its type. -/
structure Config (D : Type) where
  args : List MacroArg
  predefined : List Predefined
  builtins : Names D
  vaList : Cells D → Nat → Cells D × D
  optE : Bool

structure State (D : Type) where
  pp : Preprocessor
  pack : PackState
  lines : Lines
  parser : Parser D

/-- A file, by what it asks for. -/
structure File (D : Type) where
  preprocess : Prog PpOp PpReply String
  tokenize : String → Prog LexOp LexReply String
  parse : String → Prog (ParseOp D) ParseReply String

/-- The text, and the tokens and the tree if there are any. -/
structure Output where
  text : String
  compiled : Option (String × String)
deriving DecidableEq

/-- The entry of `add_define` -/
def defineEntry (arg : String) : Entry :=
  ⟨String.ofList (arg.toList.takeWhile (· ≠ '=')),
    ⟨false, false, false, [], match arg.toList.dropWhile (· ≠ '=') with
      | [] => "1"
      | _ :: body => String.ofList body⟩, false⟩

def MacroArg.apply (t : Table) : MacroArg → Table
  | .define arg => t.addDefine (defineEntry arg)
  | .undef name => t.undef name

def Predefined.apply (t : Table) (p : Predefined) : Table :=
  if p.unlessDefined ∧ (t.findMacro p.name).isSome then t
  else t.defineMacro p.name p.isFunction p.params p.body

variable {D : Type}

/-- Before the first file. -/
def Config.initial (cfg : Config D) : State D where
  pp := ⟨cfg.args.foldl MacroArg.apply Table.empty, [], 0⟩
  pack := ⟨0, []⟩
  lines := ⟨0, 0, 1⟩
  parser := ⟨[], [], ⟨[], cfg.builtins, [], []⟩, 0, 0, fun _ => none, []⟩

/-- What `preprocess` does first. -/
def Config.startTable (cfg : Config D) (t : Table) : Table :=
  if t.clearMacros.inited then t.clearMacros
  else (cfg.predefined.foldl Predefined.apply t.clearMacros).save

/-- The variables of the preprocessor then. -/
def Config.startPp (cfg : Config D) (s : State D) : Preprocessor × PackState :=
  (s.pp.setTable (cfg.startTable s.pp.table), s.pack)

/-- What `parse` does first. -/
def Config.startParser (cfg : Config D) (p : Parser D) (pack : PackState) : Parser D where
  globals := []
  strLits := []
  scope := { p.scope with
    typedefs := ("__builtin_va_list", (cfg.vaList p.cells pack.align).2) :: p.scope.typedefs }
  strLitCounter := p.strLitCounter
  staticLocalCounter := p.staticLocalCounter
  cells := (cfg.vaList p.cells pack.align).1
  frames := []

/-- What `tokenize` does first. -/
def Lines.start (l : Lines) : Lines := ⟨0, l.lineOffset, l.lineNum⟩

/-- The loop in `main` behind `preprocess`. -/
def Config.compileText (cfg : Config D) (s : State D) (f : File D) (pp : Preprocessor) (pack : PackState)
    (text : String) : Option (State D × Output) :=
  if cfg.optE then some (⟨pp, pack, s.lines, s.parser⟩, ⟨text, none⟩)
  else (run lexStep (f.tokenize text) s.lines.start).bind fun (lines, tokens) =>
    (run parseStep (f.parse tokens) ⟨cfg.startParser s.parser pack, pack, lines⟩).map
      fun (p, tree) => (⟨pp, p.pack, p.lines, p.parser⟩, ⟨text, some (tokens, tree)⟩)

/-- One turn of the loop in `main`. -/
def Config.compile (cfg : Config D) (s : State D) (f : File D) : Option (State D × Output) :=
  (run ppStep f.preprocess (cfg.startPp s)).bind
    fun ((pp, pack), text) => cfg.compileText s f pp pack text

/-- The state when these files are done. -/
def Config.after (cfg : Config D) (files : List (File D)) : Option (State D) :=
  files.foldlM (fun s f => (cfg.compile s f).map Prod.fst) cfg.initial

/-- What a file gives in this state. -/
def Config.output (cfg : Config D) (s : State D) (f : File D) : Option Output :=
  (cfg.compile s f).map Prod.snd

end Rcc.Files

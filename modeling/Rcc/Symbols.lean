import Mathlib

/-!
# The symbols of a translation unit

For each name with linkage there is one variable in `globals`, which the declarations change one after the other, and `codegen` looks at what they have
left. An object is printed unless the last declaration at file scope was `extern`; whether it had been defined is not asked. A function is printed
where its body is, and its symbol is exported by what the declarations before the body say of it, and by what is left of the variable at the end.

Static objects of blocks and compound literals get labels of their own, by numbers. An object whose label has been printed is left out, which is
meant for names given by `__asm__`. Those, and aliases, are left out here, as are types: an object has its initializer, if it has one.
-/

namespace Rcc.Symbols

/-! ## Declarations -/

/-- A name of the source, or one that is made for a static object of a block, `.Lstatic.n`, or for a compound literal, `.Lanon.n`. -/
inductive Name where
  | ident (x : String)
  | static (n : Nat)
  | anon (n : Nat)
deriving DecidableEq, Repr

/-- What the specifiers say. -/
structure VarAttr where
  isExtern : Bool := false
  isStatic : Bool := false
  isInline : Bool := false
  isWeak : Bool := false
deriving DecidableEq, Repr

/-- Where the address of a compound literal is found: inside of another initializer, or as one of a pointer. -/
inductive Place where
  | inner
  | outer
deriving DecidableEq, Repr

/-- What the parser comes upon. -/
inductive Event (I : Type*) where
  /-- an object at file scope -/
  | object (x : String) (attr : VarAttr) (init : Option I)
  /-- a function at file scope, with a body or without -/
  | function (x : String) (attr : VarAttr) (body : Bool)
  /-- `extern` in a block -/
  | blockObject (x : String)
  | blockFunction (x : String) (isWeak : Bool)
  | staticLocal (init : Option I)
  | anonymous (place : Place) (init : I)

/-! ## The parser -/

/-- A variable of `globals`. For a function `has_init` says that there is a declaration without `inline`. -/
structure LVar (I : Type*) where
  name : Name
  isExtern : Bool := false
  isStatic : Bool := false
  isInline : Bool := false
  isWeak : Bool := false
  isFunction : Bool := false
  hasInit : Bool := false
  init : Option I := none

/-- A function with its body. -/
structure Function where
  name : String
  isStatic : Bool
  isInline : Bool
  isExtern : Bool
  isWeak : Bool
deriving DecidableEq, Repr

structure State (I : Type*) where
  /-- the newest first -/
  globals : List (LVar I) := []
  items : List Function := []
  staticLocalCounter : Nat := 0
  /-- `anon_count` is one variable for each place -/
  anonCount : Place → Nat := fun _ => 0

variable {I : Type*}

/-- `find_global_name` -/
def findGlobalName (name : Name) (globals : List (LVar I)) : Option (LVar I) := globals.find? fun var => var.name = name

/-- The first variable with the name becomes another. -/
def update (name : Name) (f : LVar I → LVar I) : List (LVar I) → List (LVar I)
  | [] => []
  | var :: globals => if var.name = name then f var :: globals else var :: update name f globals

namespace LVar

/-- What a declaration of an object makes of the variable. -/
def declare (attr : VarAttr) (init : Option I) (var : LVar I) : LVar I :=
  { var with isExtern := attr.isExtern, isStatic := attr.isStatic, init := init.or var.init }

/-- What a declaration of a function makes of a variable that is there. -/
def redeclare (attr : VarAttr) (var : LVar I) : LVar I :=
  { var with
    isInline := var.isInline || attr.isInline
    isWeak := var.isWeak || attr.isWeak
    isStatic := var.isStatic || attr.isStatic
    isExtern := var.isExtern || attr.isExtern
    hasInit := var.hasInit || (!attr.isInline && !attr.isStatic) }

/-- The symbol of a function that is declared for the first time. -/
def function (x : String) (attr : VarAttr) : LVar I where
  name := .ident x
  isExtern := attr.isExtern || (!attr.isInline && !attr.isStatic)
  isFunction := true
  isInline := attr.isInline
  isWeak := attr.isWeak
  isStatic := attr.isStatic
  hasInit := !attr.isInline && !attr.isStatic

/-- The function with its body, when the symbol has been registered. -/
def define (x : String) (attr : VarAttr) (sym : LVar I) : Function where
  name := x
  isStatic := attr.isStatic || sym.isStatic
  isInline := attr.isInline
  isExtern := attr.isExtern || sym.hasInit
  isWeak := attr.isWeak || sym.isWeak

end LVar

/-- A variable that is there is changed, and else there is a new one. -/
def register (new : LVar I) (change : LVar I → LVar I) (globals : List (LVar I)) : List (LVar I) :=
  match findGlobalName new.name globals with
  | some _ => update new.name change globals
  | none => new :: globals

/-- The function, if it has a body. -/
def defined (x : String) (attr : VarAttr) (body : Bool) (globals : List (LVar I)) : List Function :=
  if body then ((findGlobalName (.ident x) globals).map (LVar.define x attr)).toList else []

namespace State

def step (s : State I) : Event I → State I
  | .object x attr init =>
      { s with globals := register (({ name := .ident x } : LVar I).declare attr init) (LVar.declare attr init) s.globals }
  | .function x attr body =>
      let globals := register (.function x attr) (LVar.redeclare attr) s.globals
      { s with globals := globals, items := s.items ++ defined x attr body globals }
  | .blockObject x => { s with globals := register { name := .ident x, isExtern := true } id s.globals }
  | .blockFunction x isWeak =>
      { s with
        globals := register { name := .ident x, isExtern := true, isFunction := true, isWeak := isWeak }
          (fun var => { var with isWeak := var.isWeak || isWeak }) s.globals }
  | .staticLocal init =>
      { s with
        globals := { name := .static s.staticLocalCounter, isStatic := true, init := init } :: s.globals
        staticLocalCounter := s.staticLocalCounter + 1 }
  | .anonymous place init =>
      { s with
        globals := { name := .anon (s.anonCount place), init := some init } :: s.globals
        anonCount := Function.update s.anonCount place (s.anonCount place + 1) }

/-- The whole unit. -/
def run (events : List (Event I)) : State I := events.foldl step {}

end State

/-! ## The code -/

/-- A name, or one that the assembler does not take for a register. -/
inductive Sym where
  | name (name : Name)
  | safe (x : String)
deriving DecidableEq, Repr

inductive Line (I : Type*) where
  | globl (name : Name)
  | weak (name : Name)
  | label (sym : Sym)
  | set (name : Name) (sym : Sym)
  /-- the bytes of an object, or the instructions of a function -/
  | data (init : Option I)
  | body

section

variable (isAsmReserved : String → Bool)

/-- Is it a name for which another label is printed? -/
def Name.isReserved : Name → Bool
  | .ident x => isAsmReserved x
  | _ => false

def Name.safe : Name → Sym
  | .ident x => if isAsmReserved x then .safe x else .name (.ident x)
  | name => .name name

/-- An object. -/
def objectLines (var : LVar I) : List (Line I) :=
  (if var.isStatic then [] else [.globl var.name]) ++ .label (var.name.safe isAsmReserved) ::
    (if var.name.isReserved isAsmReserved then [.set var.name (var.name.safe isAsmReserved)] else []) ++ [.data var.init]

/-- The objects that are printed, with the labels that have been. -/
def printed : List Name → List (LVar I) → List (LVar I)
  | _, [] => []
  | emitted, var :: globals =>
      if var.isExtern || var.isFunction || var.name ∈ emitted then printed emitted globals
      else var :: printed (var.name :: emitted) globals

/-- Is the symbol exported? -/
def Function.exported (globals : List (LVar I)) (fn : Function) : Bool :=
  let sym := globals.find? fun g => g.isFunction && g.name = .ident fn.name
  let look := fn.isInline && !fn.isExtern
  let hasNoninlineDecl := look && sym.any (·.hasInit)
  let hadExternDecl := look && sym.any fun g => g.isExtern && !g.isWeak
  !fn.isStatic && (!fn.isInline || fn.isExtern || hasNoninlineDecl || hadExternDecl)

def functionLines (globals : List (LVar I)) (fn : Function) : List (Line I) :=
  (if fn.isWeak then [.weak (.ident fn.name)] else if fn.exported globals then [.globl (.ident fn.name)] else []) ++
    (if isAsmReserved fn.name then [.set (.ident fn.name) (.safe fn.name)] else []) ++
      [.label ((Name.ident fn.name).safe isAsmReserved), .body]

/-- `codegen` -/
def codegen (s : State I) : List (Line I) :=
  (printed [] s.globals).flatMap (objectLines isAsmReserved) ++ s.items.flatMap (functionLines isAsmReserved s.globals)

end

/-! ## What the linker gets -/

inductive Binding where
  | local
  | global
  | weak
deriving DecidableEq, Repr

def Line.defines (name : Name) : Line I → Bool
  | .label sym => sym = .name name
  | .set name' _ => name' = name
  | _ => false

def Line.isGlobl (name : Name) : Line I → Bool
  | .globl name' => name' = name
  | _ => false

def Line.isWeak (name : Name) : Line I → Bool
  | .weak name' => name' = name
  | _ => false

/-- The symbol of a name in the object file, if it is defined there. -/
def symbol (lines : List (Line I)) (name : Name) : Option Binding :=
  if lines.any (Line.defines name) then
    some (if lines.any (Line.isWeak name) then .weak else if lines.any (Line.isGlobl name) then .global else .local)
  else none

end Rcc.Symbols

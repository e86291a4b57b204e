import Mathlib
import Rcc.TypeCompat

/-!
# Declarations

A declaration names its type from the inside out. `declspec` reads the words in front, in any order, and `declarator` what is around the name:
where a parenthesis opens, what is behind the one that closes it is read first, and then what is inside.

For the tokenizer a keyword is an identifier like any other. Whether a parenthesis is around a declarator or around parameters is not
asked where no name has been read; and where one has been, a list that begins with a word that is no type, and a comma or the end behind it, is one of names.

The specifier of a structure or an enumeration is two tokens here, and the length of an array one. Attributes, `typeof`, `_Atomic` with a type,
and what `__asm__` says of a name are left out. The qualifiers of a structure go to the object that every mention has.
-/

namespace Rcc.Declarators

open TypeCompat (Scalar)

/-! ## Words and types -/

/-- The words of the types that have no names. -/
inductive Basic where
  | void | bool | char | short | int | long | float | double | signed | unsigned | int64
deriving DecidableEq, Repr

inductive Qualifier where
  | const | volatile | restrict | atomic
deriving DecidableEq, Repr

/-- `register` goes the way of `auto`. -/
inductive Storage where
  | typedef | extern_ | static | inline | auto
deriving DecidableEq, Repr

inductive Tag where
  | struct | union | enum
deriving DecidableEq, Repr

/-- The words that the parser knows, each with one spelling, and all others. -/
inductive Word where
  | basic (w : Basic)
  | qual (q : Qualifier)
  | storage (s : Storage)
  /-- `__cdecl` and so on -/
  | convention
  | asm
  | typeof
  | tag (kw : Tag)
  | ident (x : String)
deriving DecidableEq, Repr

inductive Tok where
  | word (w : Word)
  /-- the name of a structure or enumeration, its members, or both -/
  | body (object : Nat)
  /-- the length of an array, with its value if that is constant -/
  | expr (val : Option Int)
  | star | lparen | rparen | lbrack | rbrack | comma | dots | semi
  /-- any other punctuator -/
  | other
deriving DecidableEq, Repr

def Qualifier.bit : Qualifier → Nat
  | .const => 1
  | .volatile => 2
  | .restrict => 4
  | .atomic => 8

mutual

/-- What the parser knows of a type. An array without a length has length 0. -/
inductive Ty where
  | scalar (qual : Nat) (s : Scalar)
  | struct (object : Nat)
  | ptr (qual : Nat) (base : Ty)
  | array (qual : Nat) (len : Int) (base : Ty)
  | vla (qual : Nat) (base : Ty)
  | func (qual : Nat) (returnTy : Ty) (params : Params) (isVariadic : Bool)

/-- A name may be any word. -/
inductive Params where
  | nil
  | cons (name : Option Word) (ty : Ty) (rest : Params)

end

namespace Ty

/-- `pointer_to` -/
def pointerTo (base : Ty) : Ty := ptr 0 base

/-- `array_of`, or `vla_of` if the length is not constant. -/
def arrayOf (len : Option Int) (base : Ty) : Ty :=
  match len with
  | some len => array 0 len base
  | none => vla 0 base

/-- `func_type` -/
def funcType (returnTy : Ty) (params : Params) (isVariadic : Bool) : Ty := func 0 returnTy params isVariadic

/-- `ty->qual |= quals`, in a copy unless it is a structure. -/
def addQuals (quals : Nat) : Ty → Ty
  | scalar qual s => scalar (qual ||| quals) s
  | struct object => struct object
  | ptr qual base => ptr (qual ||| quals) base
  | array qual len base => array (qual ||| quals) len base
  | vla qual base => vla (qual ||| quals) base
  | func qual returnTy params isVariadic => func (qual ||| quals) returnTy params isVariadic

/-- The type of a parameter. -/
def adjust : Ty → Ty
  | array _ _ base => pointerTo base
  | func qual returnTy params isVariadic => pointerTo (func qual returnTy params isVariadic)
  | ty => ty

end Ty

/-! ## The parser -/

structure Attr where
  isTypedef : Bool := false
  isExtern : Bool := false
  isStatic : Bool := false
  isInline : Bool := false
deriving DecidableEq, Repr

/-- The variables of `declspec`. -/
structure Specs where
  ty : Option Ty := none
  isSigned : Bool := false
  isUnsigned : Bool := false
  isShort : Bool := false
  longCount : Nat := 0
  isInt : Bool := false
  isChar : Bool := false
  isFloat : Bool := false
  isDouble : Bool := false
  isBool : Bool := false
  isVoid : Bool := false
  quals : Nat := 0
  attr : Attr := {}

namespace Specs

def basic (s : Specs) : Basic → Specs
  | .void => { s with isVoid := true }
  | .bool => { s with isBool := true }
  | .char => { s with isChar := true }
  | .short => { s with isShort := true }
  | .int => { s with isInt := true }
  | .long => { s with longCount := s.longCount + 1 }
  | .float => { s with isFloat := true }
  | .double => { s with isDouble := true }
  | .signed => { s with isSigned := true }
  | .unsigned => { s with isUnsigned := true }
  | .int64 => { s with longCount := 2 }

def storage (s : Specs) : Storage → Specs
  | .typedef => { s with attr := { s.attr with isTypedef := true } }
  | .extern_ => { s with attr := { s.attr with isExtern := true } }
  | .static => { s with attr := { s.attr with isStatic := true } }
  | .inline => { s with attr := { s.attr with isInline := true } }
  | .auto => s

def qual (s : Specs) (q : Qualifier) : Specs := { s with quals := s.quals ||| q.bit }

/-- There is a type, and the name of one is that of what is declared. -/
def seen (s : Specs) : Bool :=
  s.isInt || s.isChar || s.isShort || 0 < s.longCount || s.isFloat || s.isDouble || s.isBool || s.isVoid || s.isSigned || s.isUnsigned ||
    s.ty.isSome

def scalar (s : Specs) : Scalar :=
  if s.isVoid then .void
  else if s.isBool then .bool
  else if s.isFloat then .float
  else if s.isDouble && 1 ≤ s.longCount then .ldouble
  else if s.isDouble then .double
  else if s.isChar then
    if s.isSigned && !s.isUnsigned then .signedChar else if s.isUnsigned then .unsignedChar else .char
  else if s.isShort then .short s.isUnsigned
  else if 2 ≤ s.longCount then .llong s.isUnsigned
  else if s.longCount = 1 then .long s.isUnsigned
  -- with a warning if there is no word at all
  else .int s.isUnsigned

def type (s : Specs) : Ty := (s.ty.getD (.scalar 0 s.scalar)).addQuals s.quals

end Specs

/-- A copy of `ty_int` for an enumeration. -/
def Tag.type (object : Nat) : Tag → Ty
  | .struct | .union => .struct object
  | .enum => .scalar 0 (.enum object)

/-- `skip` -/
def skip (tok : Tok) : List Tok → Option (List Tok)
  | t :: toks => if t = tok then some toks else none
  | [] => none

/-- `collect_type_quals` -/
def collectTypeQuals : List Tok → Nat × List Tok
  | .word (.qual q) :: toks => (q.bit ||| (collectTypeQuals toks).1, (collectTypeQuals toks).2)
  | toks => (0, toks)

theorem collectTypeQuals_length (toks : List Tok) : (collectTypeQuals toks).2.length ≤ toks.length := by
  induction toks with
  | nil => simp [collectTypeQuals]
  | cons t toks ih =>
      unfold collectTypeQuals
      split
      · simp_all
        omega
      · simp

/-- The loop of `declarator` over the stars, with the qualifiers behind each. -/
def pointers (ty : Ty) : List Tok → Ty × List Tok
  | .star :: toks => pointers (ty.pointerTo.addQuals (collectTypeQuals toks).1) (collectTypeQuals toks).2
  | toks => (ty, toks)
termination_by toks => toks.length
decreasing_by
  have := collectTypeQuals_length toks
  simp
  omega

/-- The loop of `declarator` in front of the name. -/
def conventions (ty : Ty) : List Tok → Ty × List Tok
  | .word .convention :: toks => conventions ty toks
  | .star :: toks => conventions ty.pointerTo toks
  | toks => (ty, toks)

/-- Behind the parenthesis that closes the one that is open, at this depth. -/
def afterParen : Nat → List Tok → List Tok
  | 0, toks => toks
  | _ + 1, [] => []
  | depth + 1, .lparen :: toks => afterParen (depth + 2) toks
  | depth + 1, .rparen :: toks => afterParen depth toks
  | depth + 1, _ :: toks => afterParen (depth + 1) toks

/-- What may be between a bracket and the length. -/
def beforeLength : Tok → Bool
  | .word (.qual q) => q ≠ .atomic
  | .word (.storage s) => s = .static
  | _ => false

/-- A dimension, behind its bracket. -/
def dimension (toks : List Tok) : Option (Option Int × List Tok) :=
  match toks.dropWhile beforeLength with
  | .rbrack :: toks => some (some 0, toks)
  | .star :: toks => do
      let toks ← skip .rbrack toks
      some (some 0, toks)
  | .expr val :: toks => do
      let toks ← skip .rbrack toks
      some (val, toks)
  | _ => none

/-- The loop of `type_suffix`, when `dims` has room for so many. -/
def dimensions : Nat → List Tok → Option (List (Option Int) × List Tok)
  | 0, .lbrack :: _ => none
  | room + 1, .lbrack :: toks => do
      let (len, toks) ← dimension toks
      let (lens, toks) ← dimensions room toks
      some (len :: lens, toks)
  | _, toks => some ([], toks)

section

variable (typedefs : String → Option Ty)

/-- `is_typename` -/
def isTypename : Tok → Bool
  | .word (.basic w) => w ≠ .int64
  | .word (.qual _) | .word (.storage _) | .word .typeof | .word (.tag _) => true
  | .word (.ident x) => (typedefs x).isSome
  | _ => false

/-- The loop of `declspec`. -/
def specifiers (s : Specs) : List Tok → Option (Specs × List Tok)
  | .word (.basic w) :: toks => specifiers (s.basic w) toks
  | .word (.storage c) :: toks => specifiers (s.storage c) toks
  | .word (.qual .atomic) :: .lparen :: tok :: toks =>
      if isTypename typedefs tok then none else some (s.qual .atomic, .lparen :: tok :: toks)
  | .word (.qual q) :: toks => specifiers (s.qual q) toks
  | .word .convention :: toks => specifiers s toks
  | .word .typeof :: _ => none
  | .word (.tag kw) :: .body object :: toks => specifiers { s with ty := kw.type object } toks
  | .word (.tag _) :: _ => none
  | .word (.ident x) :: toks =>
      match typedefs x with
      | some ty => if s.seen then some (s, .word (.ident x) :: toks) else specifiers { s with ty := ty } toks
      | none => some (s, .word (.ident x) :: toks)
  | toks => some (s, toks)

/-- `declspec` -/
def declspec (toks : List Tok) : Option (Ty × Attr × List Tok) := do
  let (s, toks) ← specifiers typedefs {} toks
  some (s.type, s.attr, toks)

/-- Is it a list of names, as in an old definition? -/
def isNames : List Tok → Bool
  | .word w :: tok :: _ => !isTypename typedefs (.word w) && (tok = .rparen || tok = .comma)
  | _ => false

mutual

/-- `declarator`: the type, the name, and what is behind. The bound is on how deep the calls are in each other. -/
def declarator : Nat → Ty → List Tok → Option (Ty × Option Word × List Tok)
  | 0, _, _ => none
  | n + 1, ty, toks =>
      match pointers ty toks with
      | (ty, .lparen :: start) => do
          let (suffixed, rest) ← typeSuffix n ty (afterParen 1 start)
          -- where it ends inside is not looked at
          let (ty, name, _) ← declarator n suffixed start
          some (ty, name, rest)
      | (ty, toks) =>
          match conventions ty toks with
          | (ty, .word .asm :: toks) => some (ty, none, .word .asm :: toks)
          | (ty, .word w :: toks) => do
              let (ty, rest) ← typeSuffix n ty toks
              some (ty, some w, rest)
          | (ty, toks) => do
              let (ty, rest) ← typeSuffix n ty toks
              some (ty, none, rest)

/-- `type_suffix` -/
def typeSuffix : Nat → Ty → List Tok → Option (Ty × List Tok)
  | 0, _, _ => none
  | n + 1, ty, toks => do
      let (lens, toks) ← dimensions 16 toks
      let ty := lens.foldr Ty.arrayOf ty
      match toks with
      | .lparen :: next => if isNames typedefs next then some (ty, toks) else declaratorParams n ty next
      | _ => some (ty, toks)

/-- `declarator_params` -/
def declaratorParams : Nat → Ty → List Tok → Option (Ty × List Tok)
  | 0, _, _ => none
  | _ + 1, ty, .word (.basic .void) :: .rparen :: toks => some (ty.funcType .nil false, toks)
  | n + 1, ty, toks => do
      let (params, isVariadic, rest) ← paramLoop n true toks
      some (ty.funcType params isVariadic, rest)

/-- The loop of `declarator_params`, and the parenthesis behind it. There is no comma in front of the first. -/
def paramLoop : Nat → Bool → List Tok → Option (Params × Bool × List Tok)
  | 0, _, _ => none
  | _ + 1, _, .rparen :: toks => some (.nil, false, toks)
  | n + 1, first, toks => do
      let toks ← if first then some toks else skip .comma toks
      match toks with
      | .dots :: toks => do
          let toks ← skip .rparen toks
          some (.nil, true, toks)
      | .semi :: toks => paramLoop n first toks
      | toks => do
          let (base, _, toks) ← declspec typedefs toks
          let (ty, name, toks) ← declarator n base toks
          let (params, isVariadic, toks) ← paramLoop n false toks
          some (.cons name ty.adjust params, isVariadic, toks)

end

/-- The beginning of a declaration up to the end of its first declarator. -/
def declaration (toks : List Tok) : Option (Attr × Ty × Option Word × List Tok) := do
  let (base, attr, behind) ← declspec typedefs toks
  let (ty, name, rest) ← declarator typedefs (2 * toks.length + 2) base behind
  some (attr, ty, name, rest)

/-- `type_name` -/
def typeName (toks : List Tok) : Option (Ty × List Tok) := do
  let (_, ty, _, rest) ← declaration typedefs toks
  some (ty, rest)

end

end Rcc.Declarators

import Rcc.Parser

/-!
# Loops that skip tokens

What the parser has in front of it is a list of tokens, and the end of the input when there are none. To go on from there is to go past
the end: the next pointer of `TK_EOF` is null. A comparison with a text is safe there, and so is one with the token behind the current
one.

Expressions and type names are read by other functions, that have loops of their own. All that is asked of them is that they come back
with no more tokens than they were given; the length is what bounds the loops here.
-/

namespace Rcc.Parser.EndOfInput

open Lexer (TokenKind)

/-- How a walk over tokens ends: past the end of the input, with an error that is reported, or well. -/
inductive Walk (α : Type) where
  | past
  | error
  | here (a : α)

def Walk.bind {α β : Type} : Walk α → (α → Walk β) → Walk β
  | .past, _ => .past
  | .error, _ => .error
  | .here a, f => f a

instance : Monad Walk where
  pure := .here
  bind := .bind

/-- `tok = tok->next` -/
def next : List Tok → Walk (List Tok)
  | [] => .past
  | _ :: rest => .here rest

/-- `tok = skip(tok, op)` -/
def skipOp (op : String) (tok : List Tok) : Walk (List Tok) := if equalc tok op then .here tok.tail else .error

/-- `if (equalc(tok, op)) tok = tok->next;` -/
def skipIf (op : String) (tok : List Tok) : List Tok := if equalc tok op then tok.tail else tok

def isIdent : List Tok → Bool
  | (.ident _, _) :: _ => true
  | _ => false

def isStr : List Tok → Bool
  | (.str .., _) :: _ => true
  | _ => false

/-- Any of the texts -/
def isOneOf (names : List String) (tok : List Tok) : Bool := names.any (equalc tok)

/-- The readers of expressions and types. -/
structure Callees where
  isTypename : List Tok → Walk Bool
  typeName : List Tok → Walk (List Tok)
  /-- an expression with a constant value -/
  constant : List Tok → Walk (List Tok)
  assign : List Tok → Walk (List Tok)
  typeName_le : ∀ tok rest, typeName tok = .here rest → rest.length ≤ tok.length
  constant_le : ∀ tok rest, constant tok = .here rest → rest.length ≤ tok.length

/-! ## Brackets -/

/-- `while (depth > 0 && tok->kind != TK_EOF)` -/
def skipNested (left right : String) : Nat → List Tok → List Tok
  | 0, tok => tok
  | _ + 1, [] => []
  | depth + 1, t :: rest =>
      if t.2 = left.toList then skipNested left right (depth + 2) rest
      else if t.2 = right.toList then skipNested left right depth rest
      else skipNested left right (depth + 1) rest

/-- A loop that is left at depth 0 only after the first token. -/
def skipGroup (left right : String) : List Tok → Walk (List Tok)
  | [] => .past
  | t :: rest => .here (skipNested left right (if t.2 = left.toList then 1 else 0) rest)

/-- `skip_balanced` -/
def skipBalanced : List Tok → Walk (List Tok) := skipGroup "(" ")"

/-- `if (equalc(tok, "(")) tok = skip_balanced(tok);` -/
def skipArgs (tok : List Tok) : Walk (List Tok) := if equalc tok "(" then skipBalanced tok else .here tok

/-- `peek_past_attr`, null when there is no attribute -/
def peekPastAttr (tok : List Tok) : Walk (Option (List Tok)) :=
  if !isOneOf ["__attribute__", "__attribute"] tok then pure none
  else do
    let tok ← next tok
    if !equalc tok "(" then pure none
    else do
      let tok ← next tok
      if !equalc tok "(" then pure none
      else do
        let tok ← next tok
        let tok := skipNested "(" ")" 1 tok
        if !equalc tok ")" then pure none
        else do
          let tok ← next tok
          pure (some tok)

/-- What is behind the parentheses around a declarator. -/
def afterParen (tok : List Tok) : Walk (List Tok) := do
  let start ← next tok
  pure (skipNested "(" ")" 1 start)

/-! ## `read_type_attrs` -/

/-- A type or a constant, and the parenthesis behind it. -/
def alignment (c : Callees) (tok : List Tok) : Walk (List Tok) := do
  let isType ← c.isTypename tok
  let tok ← (if isType then c.typeName tok else c.constant tok)
  skipOp ")" tok

/-- The argument of `aligned`, if there is one. -/
def alignmentArg (c : Callees) (tok : List Tok) : Walk (List Tok) := if equalc tok "(" then alignment c tok.tail else .here tok

/-- The argument of `mode`. -/
def modeArg (tok : List Tok) : Walk (List Tok) := if isIdent tok then next tok else .here tok

def nameArgs : List String := ["__cleanup__", "cleanup", "alias", "__alias__"]

def plainArgs : List String :=
  ["weak", "ms_struct", "gcc_struct", "packed", "__packed__", "constructor", "__constructor__", "destructor", "__destructor__"]

/-- One attribute with its comma. -/
def oneAttribute (c : Callees) (tok : List Tok) : Walk (List Tok) :=
  if isOneOf nameArgs tok then do
    let tok ← next tok
    let tok ← skipOp "(" tok
    -- whatever the argument is
    let tok ← next tok
    let tok ← skipOp ")" tok
    pure (skipIf "," tok)
  else if isOneOf ["aligned", "__aligned__"] tok then do
    let tok ← next tok
    let tok ← alignmentArg c tok
    pure (skipIf "," tok)
  else if isOneOf plainArgs tok then do
    let tok ← next tok
    let tok ← skipArgs tok
    pure (skipIf "," tok)
  else if isOneOf ["mode", "__mode__"] tok then do
    let tok ← next tok
    let tok ← skipOp "(" tok
    let tok ← modeArg tok
    let tok ← skipOp ")" tok
    pure (skipIf "," tok)
  else if equalc tok "(" then do
    let tok ← skipBalanced tok
    pure (skipIf "," tok)
  else do
    let tok ← next tok
    pure (skipIf "," tok)

/-- `!(equalc(tok, ")") && equalc(tok->next, ")"))`, negated -/
def closing (tok : List Tok) : Bool := equalc tok ")" && equalc tok.tail ")"

/-- The loop over the attributes. -/
def attributes (c : Callees) : Nat → List Tok → Walk (List Tok)
  | 0, _ => .error
  | n + 1, tok => if closing tok then .here tok else do attributes c n (← oneAttribute c tok)

/-- The strings of an `asm`, and lone underscores. -/
def skipAsmStrings : List Tok → List Tok
  | [] => []
  | t :: rest => if isStr (t :: rest) || (isIdent (t :: rest) && equalc (t :: rest) "_") then skipAsmStrings rest else t :: rest

/-- One specifier; none if the loop ends here. -/
def specifier (c : Callees) (tok : List Tok) : Walk (Option (List Tok)) :=
  if equalc tok "_Alignas" then do
    let tok ← next tok
    let tok ← skipOp "(" tok
    let tok ← alignment c tok
    pure (some tok)
  else if isOneOf ["__asm__", "__asm", "asm"] tok then do
    let tok ← next tok
    if !equalc tok "(" then pure none
    else do
      let tok := skipAsmStrings tok.tail
      if equalc tok ")" then pure (some tok.tail) else pure none
  else if isOneOf ["__attribute__", "__attribute"] tok then do
    let tok ← next tok
    let tok ← skipOp "(" tok
    let tok ← skipOp "(" tok
    let tok ← attributes c (tok.length + 1) tok
    let tok ← skipOp ")" tok
    let tok ← skipOp ")" tok
    pure (some tok)
  else if equalc tok "__declspec" then do
    let tok ← next tok
    let tok ← skipArgs tok
    pure (some tok)
  else pure none

/-- The loop over the specifiers. -/
def specifiers (c : Callees) : Nat → List Tok → Walk (List Tok)
  | 0, _ => .error
  | n + 1, tok => do
      match ← specifier c tok with
      | some rest => specifiers c n rest
      | none => pure tok

/-- `read_type_attrs` -/
def readTypeAttrs (c : Callees) (tok : List Tok) : Walk (List Tok) := specifiers c (tok.length + 1) tok

/-! ## `skip_initializer` -/

/-- A range in a designator, with the bracket behind it. -/
def skipRange (tok : List Tok) : Walk (List Tok) :=
  if equalc tok "..." then next (tok.tail.dropWhile fun t => t.2 ≠ "]".toList) else .here tok

/-- A designator, and the `=` behind it; none if there is no designator. -/
def designator (tok : List Tok) : Walk (Option (List Tok)) :=
  if equalc tok "." && isIdent tok.tail then pure (some (skipIf "=" tok.tail.tail))
  else if equalc tok "[" then do
    let tok := skipNested "[" "]" 1 tok.tail
    let tok ← skipRange tok
    pure (some (skipIf "=" tok))
  else pure none

def skipInitializerFrom (c : Callees) : Nat → List Tok → Walk (List Tok)
  | 0, _ => .error
  | n + 1, tok => do
      match ← designator tok with
      | some rest => skipInitializerFrom c n rest
      | none => if equalc tok "\x7b" then skipGroup "\x7b" "\x7d" tok else c.assign tok

/-- `skip_initializer` -/
def skipInitializer (c : Callees) (tok : List Tok) : Walk (List Tok) := skipInitializerFrom c (tok.length + 1) tok

/-! ## The elements of a compound literal -/

/-- The depth behind a token. -/
def depthBehind (t : Tok) (depth : Nat) : Nat :=
  if t.2 = "\x7b".toList then depth + 1 else if t.2 = "\x7d".toList then depth - 1 else depth

/-- The first loop, from one element to the next. Nothing is done with its count. -/
def scanElements : Nat → List Tok → Walk Unit
  | _, [] => .past
  | 0, [t] => if t.2 = "\x7d".toList then .here () else .past
  | _ + 1, [_] => .past
  | depth, t :: u :: rest =>
      if depth = 0 ∧ t.2 = "\x7d".toList then .here ()
      else if depthBehind t depth = 0 ∧ u.2 = ",".toList then scanElements 0 rest
      else scanElements (depthBehind t depth) (u :: rest)

/-- The commas up to the closing brace, and one more. -/
def countElements : Nat → Nat → List Tok → Walk Nat
  | _, _, [] => .past
  | depth, count, t :: rest =>
      if depth = 0 ∧ t.2 = "\x7d".toList then .here count
      else countElements (depthBehind t depth) (if depth = 0 ∧ t.2 = ",".toList then count + 1 else count) rest

/-- The token in front of the first closing brace. -/
def beforeEnd : List Tok → List Tok → Walk (List Tok)
  | _, [] => .past
  | before, t :: rest => if t.2 = "\x7d".toList then .here before else beforeEnd (t :: rest) rest

/-- How many elements an array without a length has. -/
def literalCount (tok : List Tok) : Walk Nat := do
  scanElements 0 tok
  let count ← countElements 0 1 tok
  let before ← beforeEnd tok tok
  pure (if equalc before "," then count - 1 else count)

end Rcc.Parser.EndOfInput

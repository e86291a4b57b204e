import Rcc.Initializer

/-!
# The length of an array

If an array is declared without a length, `count_array_initializer` reads its initializer in advance to find how many
elements there are. It has its own idea of where an element ends: something in braces, one expression, or for a
struct without braces as many expressions as the members take, unless the first one looks like a struct itself.

An assignment expression is one token here, with what the two routines learn of it. `global_init_one` is the walk of
`Initializer` once more, for strings and addresses besides constants, and with the places that are written instead of
the values. It is not followed into compound literals, which are no constants.
-/

namespace Rcc.ArrayLength

open Initializer (Kind Members)

/-! ## Tokens -/

/-- What an expression is to `global_init_one`. -/
inductive Value where
  | arith (val : Int)
  | string (len : Nat)
  /-- An address. `read_global_label_initializer` stops behind the name if `whole` is false. -/
  | address (whole : Bool)
deriving DecidableEq, Repr

/-- What an expression begins with: a struct variable, a compound literal or anything else. -/
inductive First where
  | structVar | literal | other
deriving DecidableEq, Repr

inductive Tok where
  | lbrace | rbrace | comma | dot | lbrack | rbrack | ellipsis | eq
  | ident (name : String)
  /-- an assignment expression -/
  | expr (first : First) (value : Value)
deriving DecidableEq, Repr

/-- `(int)` -/
def toInt (v : Int) : Int := (BitVec.ofInt 32 v).toInt

/-- `assign` -/
def assign : List Tok → Option (Value × List Tok)
  | .expr _ value :: rest => some (value, rest)
  | _ => none

/-- `skip` -/
def skip (t : Tok) : List Tok → Option (List Tok)
  | t' :: rest => if t = t' then some rest else none
  | [] => none

/-- `equalc(tok, t)` -/
def startsWith (t : Tok) : List Tok → Bool
  | t' :: _ => t = t'
  | [] => false

def startsWithString : List Tok → Bool
  | .expr _ (.string _) :: _ => true
  | _ => false

/-- `if (equalc(tok, ",")) tok = tok->next;` -/
def skipComma : List Tok → List Tok
  | .comma :: rest => rest
  | toks => toks

/-! ## The length -/

/-- To the bracket that closes, or the end. -/
def skipBrackets : Nat → List Tok → List Tok
  | 0, toks => toks
  | _, [] => []
  | depth + 1, .lbrack :: rest => skipBrackets (depth + 2) rest
  | depth + 1, .rbrack :: rest => skipBrackets depth rest
  | depth + 1, _ :: rest => skipBrackets (depth + 1) rest

def skipBraces : Nat → List Tok → List Tok
  | 0, toks => toks
  | _, [] => []
  | depth + 1, .lbrace :: rest => skipBraces (depth + 2) rest
  | depth + 1, .rbrace :: rest => skipBraces depth rest
  | depth + 1, _ :: rest => skipBraces (depth + 1) rest

/-- Behind the next `]`. -/
def skipPastBracket : List Tok → List Tok
  | [] => []
  | .rbrack :: rest => rest
  | _ :: rest => skipPastBracket rest

def skipEq : List Tok → List Tok
  | .eq :: rest => rest
  | toks => toks

def skipInitializerFrom : Nat → List Tok → Option (List Tok)
  | 0, _ => none
  | n + 1, .dot :: .ident _ :: rest => skipInitializerFrom n (skipEq rest)
  | n + 1, .lbrack :: rest =>
      match skipBrackets 1 rest with
      | .ellipsis :: rest => skipInitializerFrom n (skipEq (skipPastBracket rest))
      | rest => skipInitializerFrom n (skipEq rest)
  | _ + 1, .lbrace :: rest => some (skipBraces 1 rest)
  | _ + 1, toks => (assign toks).map Prod.snd

/-- `skip_initializer` -/
def skipInitializer (toks : List Tok) : Option (List Tok) := skipInitializerFrom (toks.length + 1) toks

/-- The loop over the elements of an array, `i` of them being left. -/
def skipElements (one : List Tok → Option (List Tok)) : Nat → List Tok → Option (List Tok)
  | 0, toks => some toks
  | i + 1, toks =>
      if startsWith .rbrace toks then some toks
      else (one toks).bind fun toks => skipElements one i (if 0 < i then skipComma toks else toks)

def isChar : Initializer.Ty → Bool
  | .scalar (.int 1) => true
  | _ => false

def isNil : Members → Bool
  | .nil => true
  | _ => false

mutual

/-- `skip_flat_aggregate_init` -/
def skipFlatAggregateInit : Initializer.Ty → List Tok → Option (List Tok)
  | .record isUnion _ members, toks => skipFlatMembers isUnion members toks
  | .array base len, toks =>
      if startsWith .lbrace toks ∨ isChar base ∧ startsWithString toks then skipInitializer toks
      else skipElements (skipFlatAggregateInit base) (Initializer.Ty.array base len).arrayLen toks
  | .scalar _, toks => (assign toks).map Prod.snd

/-- Its loop over the members. -/
def skipFlatMembers (isUnion : Bool) : Members → List Tok → Option (List Tok)
  | .nil, toks => some toks
  | .member _ ty _ next, toks =>
      if startsWith .rbrace toks then some toks
      else (skipFlatAggregateInit ty toks).bind fun toks =>
        let toks := if isNil next then toks else skipComma toks
        if isUnion then some toks else skipFlatMembers isUnion next toks
  | .bitField _ _ next, toks =>
      if startsWith .rbrace toks then some toks
      else (assign toks).bind fun p =>
        let toks := if isNil next then p.2 else skipComma p.2
        if isUnion then some toks else skipFlatMembers isUnion next toks

end

/-- `peek_const_expr` -/
def peekConstExpr : Value → Int
  | .arith v => v
  | _ => -1

/-- The designator: `eidx`, and the tokens behind it. -/
def countDesignator (idx : Int) : List Tok → Option (Int × List Tok)
  | .lbrack :: toks => do
      let (v, toks) ← assign toks
      let (eidx, toks) ← match toks with
        | .ellipsis :: toks => (assign toks).map fun p => (toInt (peekConstExpr p.1), p.2)
        | toks => some (toInt (peekConstExpr v), toks)
      let toks ← skip .rbrack toks
      let toks ← skip .eq toks
      some (eidx, toks)
  | toks => some (idx, toks)

/-- `is_struct_expr` -/
def isStructExpr : List Tok → Bool
  | .expr first _ :: _ => first ≠ .other
  | _ => false

/-- `find_compound_literal_start(tok)` -/
def isLiteral : List Tok → Bool
  | .expr first _ :: _ => first = .literal
  | _ => false

def isRecord : Initializer.Ty → Bool
  | .record .. => true
  | _ => false

/-- What is taken for an element. -/
def skipElement (elemTy : Initializer.Ty) (toks : List Tok) : Option (List Tok) :=
  if isRecord elemTy ∧ ¬ startsWith .lbrace toks ∧ ¬ isStructExpr toks then skipFlatAggregateInit elemTy toks
  else skipInitializer toks

/-- The loop: `count`, `max_idx` and the tokens at its end. -/
def countElements (elemTy : Initializer.Ty) : Nat → Nat → Int → Int → List Tok → Option (Nat × Int × List Tok)
  | 0, _, _, _, _ => none
  | n + 1, count, maxIdx, idx, toks =>
      if startsWith .rbrace toks then some (count, maxIdx, toks)
      else (countDesignator idx toks).bind fun (eidx, toks) => (skipElement elemTy toks).bind fun toks =>
        match toks with
        | .comma :: .rbrace :: rest => some (count + 1, max maxIdx eidx, .rbrace :: rest)
        | .comma :: rest => countElements elemTy n (count + 1) (max maxIdx eidx) (eidx + 1) rest
        | toks => some (count + 1, max maxIdx eidx, toks)

/-- `count_array_initializer`, and what it leaves. There are fewer elements in a file than an `int` can count. -/
def countArrayInitializer (elemTy : Initializer.Ty) (toks : List Tok) : Option (Int × List Tok) := do
  let toks ← skip .lbrace toks
  let (count, maxIdx, toks) ← countElements elemTy (toks.length + 1) 0 (-1) 0 toks
  let toks ← skip .rbrace toks
  some (if (count : Int) ≤ maxIdx then toInt (maxIdx + 1) else count, toks)

/-! ## The initializer -/

/-- Bytes of the object that are written. -/
structure Range where
  offset : Int
  size : Nat
deriving DecidableEq, Repr

/-- The tokens that are left, and what was written. -/
abbrev Walk := Option (List Tok × List Range)

def stay (toks : List Tok) : Walk := some (toks, [])

def Walk.andThen (w : Walk) (k : List Tok → Walk) : Walk :=
  w.bind fun p => (k p.1).map fun q => (q.1, p.2 ++ q.2)

def Walk.close (w : Walk) : Walk :=
  w.bind fun p => (skip .rbrace p.1).map fun toks => (toks, p.2)

/-- `skip_initializer`, as a part of a walk -/
def skipOver (toks : List Tok) : Walk := (skipInitializer toks).bind stay

/-- Behind an element: `more` if another one follows. -/
def afterElement (toks : List Tok) (more : List Tok → Walk) : Walk :=
  match toks with
  | .comma :: .rbrace :: rest => stay (.rbrace :: rest)
  | .comma :: rest => more rest
  | toks => stay toks

/-- A value for a scalar. There is none for an address that is not read to its end. -/
def putScalar (k : Kind) (offset : Int) (value : Value) (toks : List Tok) : Walk :=
  match k, value with
  | .ptr, .string _ => some (toks, [⟨offset, 8⟩])
  | .ptr, .address true => some (toks, [⟨offset, 8⟩])
  | .flo size, .arith _ => some (toks, [⟨offset, size⟩])
  -- `write_scalar_bytes`
  | k, .arith _ => some (toks, if offset < 0 then [] else [⟨offset, k.size⟩])
  | _, _ => none

/-- `eval_const_expr`, which leaves the variable if there is no value. -/
def evalConstExpr (val : Int) : Value → Int
  | .arith v => v
  | _ => val

/-- The designator: `sidx`, `eidx` and the tokens behind. -/
def arrayDesignator (idx : Int) : List Tok → Option (Int × Int × List Tok)
  | .lbrack :: toks => do
      let (v, toks) ← assign toks
      let sidx := toInt (evalConstExpr 0 v)
      let (eidx, toks) ← match toks with
        | .ellipsis :: toks => (assign toks).map fun p => (toInt (evalConstExpr sidx p.1), p.2)
        | toks => some (sidx, toks)
      let toks ← skip .rbrack toks
      let toks ← skip .eq toks
      some (sidx, eidx, toks)
  | toks => some (idx, idx, toks)

mutual

/-- `global_init_flat_array` -/
def globalInitFlatArray : Nat → Initializer.Ty → Int → List Tok → Walk
  | 0, _, _, _ => none
  | n + 1, .array base len, offset, toks =>
      globalFlatElements n base (Initializer.Ty.array base len).arrayLen 0 offset toks
  | n + 1, ty, offset, toks => globalInitOne n ty offset toks
termination_by structural n => n

/-- Its loop, from element `i` on. -/
def globalFlatElements : Nat → Initializer.Ty → Nat → Nat → Int → List Tok → Walk
  | 0, _, _, _, _, _ => none
  | n + 1, base, len, i, offset, toks =>
      if i < len ∧ ¬ startsWith .rbrace toks then
        (globalInitFlatArray n base (offset + i * base.size) toks).andThen fun toks =>
          globalFlatElements n base len (i + 1) offset (if i + 1 < len then skipComma toks else toks)
      else stay toks
termination_by structural n => n

/-- `global_init_member` -/
def globalInitMember : Nat → Members → Int → List Tok → Walk
  | 0, _, _, _ => none
  | _ + 1, .nil, _, _ => none
  -- nothing is written if the value is no constant
  | _ + 1, .bitField _ f _, base, toks =>
      (assign toks).bind fun p => match p.1 with
        | .arith _ => some (p.2, [⟨base + f.mem.offset, f.mem.ty.size⟩])
        | _ => stay p.2
  | n + 1, .member _ ty offset _, base, toks =>
      match ty with
      | .array elem _ =>
          if ¬ startsWith .lbrace toks ∧ ¬ (isChar elem ∧ startsWithString toks) then
            globalInitFlatArray n ty (base + offset) toks
          else globalInitOne n ty (base + offset) toks
      | ty => globalInitOne n ty (base + offset) toks
termination_by structural n => n

/-- `global_init_one` -/
def globalInitOne : Nat → Initializer.Ty → Int → List Tok → Walk
  | 0, _, _, _ => none
  | n + 1, .array base len, offset, toks =>
      if startsWith .lbrace toks then
        (globalElements n base (Initializer.Ty.array base len).arrayLen 0 offset toks.tail).close
      else match isChar base, toks with
        | true, .expr _ (.string strlen) :: toks =>
            let size := (Initializer.Ty.array base len).size
            some (toks, [⟨offset, if 0 < size ∧ size < strlen + 1 then size else strlen + 1⟩])
        | _, toks =>
            if isLiteral toks then none
            -- `single element`
            else globalInitOne n base offset toks
  | n + 1, .record isUnion size members, offset, toks =>
      if startsWith .lbrace toks then (globalMembers n (.record isUnion size members) members offset toks.tail).close
      else if isLiteral toks then none
      -- `flatten into members`
      else match members with
        | .nil => stay toks
        | members =>
            (globalInitMember n members offset toks).andThen fun toks =>
              if isUnion then stay toks else globalFlatMembers n members.next offset toks
  | n + 1, .scalar k, offset, toks =>
      if startsWith .lbrace toks then (globalInitOne n (.scalar k) offset toks.tail).close
      else (assign toks).bind fun p => putScalar k offset p.1 p.2
termination_by structural n => n

/-- The elements in braces, `idx` being the next. -/
def globalElements : Nat → Initializer.Ty → Nat → Int → Int → List Tok → Walk
  | 0, _, _, _, _, _ => none
  | n + 1, base, len, idx, offset, toks =>
      if startsWith .rbrace toks then stay toks
      else (arrayDesignator idx toks).bind fun (sidx, eidx, toks) =>
        (globalRange n base len sidx eidx offset toks toks).andThen fun toks =>
          afterElement toks (globalElements n base len (eidx + 1) offset)
termination_by structural n => n

/-- `for (int i = sidx; i <= eidx; i++)` -/
def globalRange : Nat → Initializer.Ty → Nat → Int → Int → Int → List Tok → List Tok → Walk
  | 0, _, _, _, _, _, _, _ => none
  | n + 1, base, len, i, eidx, offset, valStart, toks =>
      if i ≤ eidx then
        Walk.andThen
          (if len = 0 ∨ i < len then globalInitOne n base (offset + i * base.size) valStart
            else skipOver valStart) fun toks =>
          globalRange n base len (i + 1) eidx offset valStart toks
      else stay toks
termination_by structural n => n

/-- The members in braces, `mem` being the next. -/
def globalMembers : Nat → Initializer.Ty → Members → Int → List Tok → Walk
  | 0, _, _, _, _ => none
  | n + 1, ty, mem, offset, .dot :: .ident name :: toks =>
      (skip .eq toks).bind fun toks =>
        match ty.findMember name with
        | some m => (globalInitMember n m offset toks).andThen fun toks =>
            afterElement toks (globalMembers n ty m.next offset)
        | none => Walk.andThen (skipOver toks) fun toks => afterElement toks (globalMembers n ty mem offset)
  | n + 1, ty, mem, offset, toks =>
      if startsWith .rbrace toks then stay toks
      else
        Walk.andThen
          (match mem with
            | .nil => skipOver toks
            | mem => globalInitMember n mem offset toks) fun toks =>
          afterElement toks (globalMembers n ty mem.next offset)
termination_by structural n => n

/-- The members behind the first without braces. -/
def globalFlatMembers : Nat → Members → Int → List Tok → Walk
  | 0, _, _, _ => none
  | _ + 1, .nil, _, toks => stay toks
  | n + 1, mem, offset, toks =>
      if startsWith .rbrace toks then stay toks
      else
        let toks := skipComma toks
        if startsWith .rbrace toks then stay toks
        else (globalInitMember n mem offset toks).andThen (globalFlatMembers n mem.next offset)
termination_by structural n => n

end

end Rcc.ArrayLength

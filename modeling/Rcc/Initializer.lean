import Rcc.StaticField

/-!
# Initializers

The two walks over an initializer of integer constants: `global_init_one` puts
the values into the bytes of a static object, `local_init_one` makes assignments
for an automatic one. Both read tokens and go down the type in step with them.

A walk gives the tokens that are left and, in order, what it came by. It has no
result where the compiler reports an error and where its fuel ends. `assign` is
asked for constants only: a number, and behind it what no expression goes on
with. String literals, compound literals and labels are no such initializers.
-/

namespace Rcc.Initializer

open BitField (Arch Field)
open ByteMem (Mem)

/-! ## Types -/

/-- Integers have 1, 2, 4 or 8 bytes. -/
inductive Kind where
  | bool
  | int (size : Nat)
  | ptr
  | flo (size : Nat)
deriving DecidableEq, Repr

def Kind.size : Kind → Nat
  | bool => 1
  | int size => size
  | ptr => 8
  | flo size => size

mutual

inductive Ty where
  | scalar (k : Kind)
  | array (base : Ty) (len : Nat)
  | record (isUnion : Bool) (size : Nat) (members : Members)

/-- A `Member *`: a member and those behind it. -/
inductive Members where
  | nil
  | member (name : Option String) (ty : Ty) (offset : Nat) (next : Members)
  | bitField (name : String) (f : Field) (next : Members)

end

namespace Ty

def size : Ty → Nat
  | scalar k => k.size
  | array base len => base.size * len
  | record _ size _ => size

/-- `array_len` -/
def arrayLen : Ty → Nat
  | array base len => if base.size = 0 then 0 else base.size * len / base.size
  | _ => 0

def isArray : Ty → Bool
  | array _ _ => true
  | _ => false

def isScalar : Ty → Bool
  | scalar _ => true
  | _ => false

end Ty

/-- `syn->offset += mem->offset` -/
def Members.shift (by' : Nat) : Members → Members
  | nil => nil
  | member name ty offset next => member name ty (offset + by') next
  | bitField name f next =>
      bitField name { f with mem := { f.mem with offset := f.mem.offset + by' } } next

mutual

/-- `find_member_by_name`, for a type -/
def Ty.findMember (name : String) : Ty → Option Members
  | .record _ _ members => members.find name
  | .scalar _ => none
  | .array _ _ => none

/-- and for its members. -/
def Members.find (name : String) : Members → Option Members
  | .nil => none
  | .member none ty offset next =>
      match ty.findMember name with
      | some found => some (found.shift offset)
      | none => next.find name
  | .member (some n) ty offset next =>
      if n = name then some (.member (some n) ty offset next) else next.find name
  | .bitField n f next => if n = name then some (.bitField n f next) else next.find name

end

/-- `m->next` -/
def Members.next : Members → Members
  | nil => nil
  | member _ _ _ next => next
  | bitField _ _ next => next

/-! ## Tokens -/

inductive Tok where
  | lbrace | rbrace | comma | dot | lbrack | rbrack | ellipsis | eq | colon
  | ident (name : String)
  | num (val : BitVec 64)
deriving DecidableEq, Repr

/-- What may stand behind a constant. -/
def endsExpr : List Tok → Bool
  | [] => true
  | .comma :: _ => true
  | .rbrace :: _ => true
  | .rbrack :: _ => true
  | .ellipsis :: _ => true
  | _ => false

/-- `assign` and the value of the node. -/
def assign : List Tok → Option (BitVec 64 × List Tok)
  | .num v :: rest => if endsExpr rest then some (v, rest) else none
  | _ => none

/-- `skip` -/
def skip (t : Tok) : List Tok → Option (List Tok)
  | t' :: rest => if t = t' then some rest else none
  | [] => none

/-- To the bracket that closes, or the end. -/
def skipBrackets : Nat → List Tok → List Tok
  | 0, toks => toks
  | _, [] => []
  | depth + 1, .lbrack :: rest => skipBrackets (depth + 2) rest
  | depth + 1, .rbrack :: rest => skipBrackets depth rest
  | depth + 1, _ :: rest => skipBrackets (depth + 1) rest

def skipBraces : Nat → List Tok → List Tok
  | 0, toks => toks
  | _, [] => []
  | depth + 1, .lbrace :: rest => skipBraces (depth + 2) rest
  | depth + 1, .rbrace :: rest => skipBraces depth rest
  | depth + 1, _ :: rest => skipBraces (depth + 1) rest

/-- Behind the next `]`. -/
def skipPastBracket : List Tok → List Tok
  | [] => []
  | .rbrack :: rest => rest
  | _ :: rest => skipPastBracket rest

/-- `if (equalc(tok, "=")) tok = tok->next;` -/
def skipEq : List Tok → List Tok
  | .eq :: rest => rest
  | toks => toks

def skipInitializerFrom : Nat → List Tok → Option (List Tok)
  | 0, _ => none
  | n + 1, .dot :: .ident _ :: rest => skipInitializerFrom n (skipEq rest)
  | n + 1, .lbrack :: rest =>
      match skipBrackets 1 rest with
      | .ellipsis :: rest => skipInitializerFrom n (skipEq (skipPastBracket rest))
      | rest => skipInitializerFrom n (skipEq rest)
  | _ + 1, .lbrace :: rest => some (skipBraces 1 rest)
  | _ + 1, toks => (assign toks).map Prod.snd

/-- `skip_initializer` -/
def skipInitializer (toks : List Tok) : Option (List Tok) := skipInitializerFrom (toks.length + 1) toks

/-- `(int)` of a constant -/
def toInt (v : BitVec 64) : Int := (v.setWidth 32).toInt

/-- What precedes the value in an array: `sidx`, `eidx` and the tokens behind. -/
def arrayDesignator (idx : Int) : List Tok → Option (Int × Int × List Tok)
  | .lbrack :: toks => do
      let (sv, toks) ← assign toks
      let (eidx, toks) ← match toks with
        | .ellipsis :: toks => (assign toks).map fun p => (toInt p.1, p.2)
        | toks => some (toInt sv, toks)
      let toks ← skip .rbrack toks
      let toks ← skip .eq toks
      some (toInt sv, eidx, toks)
  | toks => some (idx, idx, toks)

def startsWith (t : Tok) : List Tok → Bool
  | t' :: _ => t = t'
  | [] => false

/-- A walk: the tokens left, and what was come by. -/
abbrev Walk (α : Type) := Option (List Tok × List α)

/-- Nothing is consumed. -/
def stay {α : Type} (toks : List Tok) : Walk α := some (toks, [])

def Walk.andThen {α : Type} (w : Walk α) (k : List Tok → Walk α) : Walk α :=
  w.bind fun p => (k p.1).map fun q => (q.1, p.2 ++ q.2)

/-- Something is come by, and the walk goes on. -/
def emit {α : Type} (e : α) (w : Walk α) : Walk α := w.map fun p => (p.1, e :: p.2)

/-- `skip_initializer`, as a part of a walk -/
def skipOver {α : Type} (toks : List Tok) : Walk α := (skipInitializer toks).bind stay

/-- `skip(tok, "}")` at the end -/
def Walk.close {α : Type} (w : Walk α) : Walk α :=
  w.bind fun p => (skip .rbrace p.1).map fun toks => (toks, p.2)

/-- Behind an element: `more` if another one follows. -/
def afterElement {α : Type} (toks : List Tok) (more : List Tok → Walk α) : Walk α :=
  match toks with
  | .comma :: .rbrace :: rest => stay (.rbrace :: rest)
  | .comma :: rest => more rest
  | toks => stay toks

/-! ## Static objects -/

/-- A value for a part of an object. -/
inductive Put where
  | scalar (k : Kind) (offset : Int) (val : BitVec 64)
  | bits (f : Field) (offset : Int) (val : BitVec 64)

/-- What `global_init_one` comes by: the values it writes, and the places where
`local_init_one` has a way of its own. -/
inductive Event where
  | put (p : Put)
  /-- `.name =`, and whether a brace follows -/
  | designated (m : Members) (braced : Bool)
  /-- `.name =` without such a member, or a name where a value should be -/
  | name
  /-- `[sidx ... eidx] =`, and whether a brace follows -/
  | range (base : Ty) (sidx eidx : Int) (braced : Bool)

def noteName (toks : List Tok) (w : Walk Event) : Walk Event :=
  match toks with
  | .ident _ :: _ => emit .name w
  | _ => w

mutual

/-- `global_init_flat_array` -/
def globalInitFlatArray : Nat → Ty → Int → List Tok → Walk Event
  | 0, _, _, _ => none
  | n + 1, .array base len, offset, toks =>
      globalFlatElements n base (Ty.array base len).arrayLen 0 offset toks
  | n + 1, ty, offset, toks => globalInitOne n ty offset toks
termination_by structural n => n

/-- Its loop, from element `i` on. -/
def globalFlatElements : Nat → Ty → Nat → Nat → Int → List Tok → Walk Event
  | 0, _, _, _, _, _ => none
  | n + 1, base, len, i, offset, toks =>
      if i < len ∧ ¬ startsWith .rbrace toks then
        (globalInitFlatArray n base (offset + i * base.size) toks).andThen fun toks =>
          globalFlatElements n base len (i + 1) offset
            (if i + 1 < len ∧ startsWith .comma toks then toks.tail else toks)
      else stay toks
termination_by structural n => n

/-- `global_init_member` -/
def globalInitMember : Nat → Members → Int → List Tok → Walk Event
  | 0, _, _, _ => none
  | _ + 1, .nil, _, _ => none
  | _ + 1, .bitField _ f _, base, toks =>
      (assign toks).bind fun p => emit (.put (.bits f (base + f.mem.offset) p.1)) (stay p.2)
  | n + 1, .member _ ty offset _, base, toks =>
      if ty.isArray ∧ ¬ startsWith .lbrace toks then globalInitFlatArray n ty (base + offset) toks
      else globalInitOne n ty (base + offset) toks
termination_by structural n => n

/-- `global_init_one` -/
def globalInitOne : Nat → Ty → Int → List Tok → Walk Event
  | 0, _, _, _ => none
  | n + 1, .array base len, offset, .lbrace :: toks =>
      (globalElements n base (Ty.array base len).arrayLen 0 offset toks).close
  | n + 1, .record isUnion size members, offset, .lbrace :: toks =>
      (globalMembers n (.record isUnion size members) members offset toks).close
  -- `flatten into members`
  | n + 1, .record isUnion _ members, offset, toks =>
      match members with
      | .nil => stay toks
      | members =>
          (globalInitMember n members offset toks).andThen fun toks =>
            if isUnion then stay toks else globalFlatMembers n members.next offset toks
  -- `single element`
  | n + 1, .array base _, offset, toks => globalInitOne n base offset toks
  | n + 1, .scalar k, offset, .lbrace :: toks =>
      (globalInitOne n (.scalar k) offset toks).close
  | _ + 1, .scalar k, offset, toks =>
      (assign toks).bind fun p => emit (.put (.scalar k offset p.1)) (stay p.2)
termination_by structural n => n

/-- The elements in braces, `idx` being the next. -/
def globalElements : Nat → Ty → Nat → Int → Int → List Tok → Walk Event
  | 0, _, _, _, _, _ => none
  | n + 1, base, len, idx, offset, toks =>
      if startsWith .rbrace toks then stay toks
      else (arrayDesignator idx toks).bind fun (sidx, eidx, toks) =>
        let w := (globalRange n base len sidx eidx offset toks toks).andThen fun toks =>
          afterElement toks (globalElements n base len (eidx + 1) offset)
        if sidx = eidx then w else emit (.range base sidx eidx (startsWith .lbrace toks)) w
termination_by structural n => n

/-- `for (int i = sidx; i <= eidx; i++)` -/
def globalRange : Nat → Ty → Nat → Int → Int → Int → List Tok → List Tok → Walk Event
  | 0, _, _, _, _, _, _, _ => none
  | n + 1, base, len, i, eidx, offset, valStart, toks =>
      if i ≤ eidx then
        Walk.andThen
          (if len = 0 ∨ i < len then globalInitOne n base (offset + i * base.size) valStart
            else skipOver valStart) fun toks =>
          globalRange n base len (i + 1) eidx offset valStart toks
      else stay toks
termination_by structural n => n

/-- The members in braces, `mem` being the next. -/
def globalMembers : Nat → Ty → Members → Int → List Tok → Walk Event
  | 0, _, _, _, _ => none
  | n + 1, ty, mem, offset, .dot :: .ident name :: toks =>
      (skip .eq toks).bind fun toks =>
        match ty.findMember name with
        | some m => emit (.designated m (startsWith .lbrace toks)) <|
            (globalInitMember n m offset toks).andThen fun toks =>
              afterElement toks (globalMembers n ty m.next offset)
        | none => emit .name <| Walk.andThen (skipOver toks) fun toks =>
            afterElement toks (globalMembers n ty mem offset)
  | n + 1, ty, mem, offset, toks =>
      if startsWith .rbrace toks then stay toks
      else
        noteName toks <| Walk.andThen
          (match mem with
            | .nil => skipOver toks
            | mem => globalInitMember n mem offset toks) fun toks =>
          afterElement toks (globalMembers n ty mem.next offset)
termination_by structural n => n

/-- The members behind the first without braces. -/
def globalFlatMembers : Nat → Members → Int → List Tok → Walk Event
  | 0, _, _, _ => none
  | _ + 1, .nil, _, toks => stay toks
  | n + 1, mem, offset, toks =>
      if startsWith .rbrace toks then stay toks
      else
        let toks := if startsWith .comma toks then toks.tail else toks
        if startsWith .rbrace toks then stay toks
        else (globalInitMember n mem offset toks).andThen (globalFlatMembers n mem.next offset)
termination_by structural n => n

end

/-! ## Automatic objects -/

/-- The nodes that name a part of an object: `ND_MEMBER`, and `*(base + idx)`. -/
inductive LVal where
  | var
  | member (lhs : LVal) (offset : Nat)
  | bitField (lhs : LVal) (f : Field)
  | elem (lhs : LVal) (size : Nat) (idx : Int)

/-- The address, counted from that of the object. -/
def LVal.addr : LVal → Int
  | var => 0
  | member lhs offset => lhs.addr + offset
  | bitField lhs f => lhs.addr + f.mem.offset
  | elem lhs size idx => lhs.addr + idx * size

/-- An `ND_ASSIGN` of a constant, with the type of its left side. -/
structure Assign where
  lhs : LVal
  ty : Ty
  val : BitVec 64

/-- A chain of designators: what it names, and `false` if a name is unknown. -/
def localChain : LVal → Ty → List Tok → LVal × Ty × Bool × List Tok
  | lhs, ty, .dot :: .ident name :: toks =>
      match ty.findMember name with
      | some (.member _ ty offset _) => localChain (.member lhs offset) ty toks
      | some (.bitField _ f _) => localChain (.bitField lhs f) (.scalar (.int f.mem.ty.size)) toks
      | _ => (lhs, ty, false, toks)
  | lhs, ty, toks => (lhs, ty, true, toks)

mutual

/-- `local_init_flat_array` -/
def localInitFlatArray : Nat → LVal → Ty → List Tok → Walk Assign
  | 0, _, _, _ => none
  | n + 1, lhs, .array base len, toks =>
      localFlatElements n lhs base (Ty.array base len).arrayLen 0 toks
  | n + 1, lhs, ty, toks => localInitOne n lhs ty toks
termination_by structural n => n

def localFlatElements : Nat → LVal → Ty → Nat → Nat → List Tok → Walk Assign
  | 0, _, _, _, _, _ => none
  | n + 1, lhs, base, len, i, toks =>
      if i < len ∧ ¬ startsWith .rbrace toks then
        (localInitFlatArray n (.elem lhs base.size i) base toks).andThen fun toks =>
          localFlatElements n lhs base len (i + 1)
            (if i + 1 < len ∧ startsWith .comma toks then toks.tail else toks)
      else stay toks
termination_by structural n => n

/-- `local_init_member` -/
def localInitMember : Nat → LVal → Members → List Tok → Walk Assign
  | 0, _, _, _ => none
  | _ + 1, _, .nil, _ => none
  | n + 1, lhs, .bitField _ f _, toks =>
      localInitOne n (.bitField lhs f) (.scalar (.int f.mem.ty.size)) toks
  | n + 1, lhs, .member _ ty offset _, toks =>
      if ty.isArray ∧ ¬ startsWith .lbrace toks then localInitFlatArray n (.member lhs offset) ty toks
      else localInitOne n (.member lhs offset) ty toks
termination_by structural n => n

/-- `local_init_one` -/
def localInitOne : Nat → LVal → Ty → List Tok → Walk Assign
  | 0, _, _, _ => none
  | n + 1, lhs, .array base len, .lbrace :: toks =>
      (localElements n lhs base (Ty.array base len).arrayLen 0 toks).close
  | n + 1, lhs, .record isUnion size members, .lbrace :: toks =>
      (localMembers n lhs (.record isUnion size members) members toks).close
  -- a single expression first, to see whether it is a struct
  | n + 1, lhs, .record isUnion _ members, toks =>
      (assign toks).bind fun _ =>
        match members with
        | .nil => stay toks
        | members =>
            (localInitMember n lhs members toks).andThen fun toks =>
              if isUnion then stay toks else localFlatMembers n lhs members.next toks
  | n + 1, lhs, .array base _, toks => localInitOne n (.elem lhs base.size 0) base toks
  | n + 1, lhs, .scalar k, .lbrace :: toks => (localInitOne n lhs (.scalar k) toks).close
  | _ + 1, lhs, .scalar k, toks =>
      (assign toks).bind fun p => emit ⟨lhs, .scalar k, p.1⟩ (stay p.2)
termination_by structural n => n

def localElements : Nat → LVal → Ty → Nat → Int → List Tok → Walk Assign
  | 0, _, _, _, _, _ => none
  | n + 1, lhs, base, len, idx, toks =>
      if startsWith .rbrace toks then stay toks
      else (arrayDesignator idx toks).bind fun (sidx, eidx, toks) =>
        Walk.andThen
          -- the value is put into a variable of its own once
          (if sidx ≠ eidx ∧ ¬ startsWith .lbrace toks then
            (assign toks).bind fun p => (localRangeOnce n lhs base len sidx eidx p.1).map fun as =>
              (p.2, as)
          else localRange n lhs base len sidx eidx toks toks) fun toks => afterElement toks (localElements n lhs base len (eidx + 1))
termination_by structural n => n

/-- The assignments of that variable. -/
def localRangeOnce : Nat → LVal → Ty → Nat → Int → Int → BitVec 64 → Option (List Assign)
  | 0, _, _, _, _, _, _ => none
  | n + 1, lhs, base, len, i, eidx, val =>
      if i ≤ eidx then
        (localRangeOnce n lhs base len (i + 1) eidx val).map fun as =>
          if len = 0 ∨ i < len then ⟨.elem lhs base.size i, base, val⟩ :: as else as
      else some []
termination_by structural n => n

def localRange : Nat → LVal → Ty → Nat → Int → Int → List Tok → List Tok → Walk Assign
  | 0, _, _, _, _, _, _, _ => none
  | n + 1, lhs, base, len, i, eidx, valStart, toks =>
      if i ≤ eidx then
        Walk.andThen
          (if len = 0 ∨ i < len then localInitOne n (.elem lhs base.size i) base valStart
            else skipOver valStart) fun toks =>
          localRange n lhs base len (i + 1) eidx valStart toks
      else stay toks
termination_by structural n => n

def localMembers : Nat → LVal → Ty → Members → List Tok → Walk Assign
  | 0, _, _, _, _ => none
  | n + 1, lhs, ty, _, .dot :: .ident name :: toks =>
      let (chainLhs, chainTy, chainOk, rest) := localChain lhs ty (.dot :: .ident name :: toks)
      (skip .eq rest).bind fun toks =>
        Walk.andThen (if chainOk then localInitOne n chainLhs chainTy toks else skipOver toks) fun toks =>
          afterElement toks
            (localMembers n lhs ty (((ty.findMember name).map Members.next).getD .nil))
  -- `member: value`
  | n + 1, lhs, ty, mem, .ident name :: .colon :: toks =>
      match ty.findMember name with
      | some m => (localInitMember n lhs m toks).andThen fun toks =>
          afterElement toks (localMembers n lhs ty m.next)
      | none => Walk.andThen (skipOver toks) fun toks => afterElement toks (localMembers n lhs ty mem)
  | n + 1, lhs, ty, mem, toks =>
      if startsWith .rbrace toks then stay toks
      else
        Walk.andThen
          (match mem with
            | .nil => skipOver toks
            | mem => localInitMember n lhs mem toks) fun toks =>
          afterElement toks (localMembers n lhs ty mem.next)
termination_by structural n => n

def localFlatMembers : Nat → LVal → Members → List Tok → Walk Assign
  | 0, _, _, _ => none
  | _ + 1, _, .nil, toks => stay toks
  | n + 1, lhs, mem, toks =>
      if startsWith .rbrace toks then stay toks
      else
        let toks := if startsWith .comma toks then toks.tail else toks
        if startsWith .rbrace toks then stay toks
        else (localInitMember n lhs mem toks).andThen (localFlatMembers n lhs mem.next)
termination_by structural n => n

end

/-! ## What the values become -/

/-- The conversions to floating numbers, which host and target do alike: an integer
to `double`, and that to `float`. -/
structure Floats where
  dbl : Int → BitVec 64
  flt : BitVec 64 → BitVec 32

/-- `memcpy` to `var->init_data + offset` -/
def LVarCopy (var : StaticField.LVar) (offset : Nat) (size : Nat) (val : Nat) : StaticField.LVar :=
  { var with initData := ByteMem.store var.initData (BitVec.ofNat 64 offset) size val }

variable (fl : Floats)

/-- A value is written. There is no result if the offset is none for an `int`, or
before the bytes. -/
def putStatic (var : StaticField.LVar) (p : Put) : Option StaticField.LVar :=
  let inInt (offset : Int) : Bool := -2 ^ 31 ≤ offset ∧ offset < 2 ^ 31
  match p with
  | .scalar (.int size) offset val =>
      if inInt offset then
        some (if offset < 0 then var else StaticField.writeScalarBytes var offset.toNat size val)
      else none
  | .scalar .bool offset val =>
      if inInt offset then
        some (if offset < 0 then var else StaticField.writeScalarBytes var offset.toNat 1 val)
      else none
  | .scalar .ptr offset val =>
      if inInt offset then
        some (if offset < 0 then var
          else StaticField.writeScalarBytes var offset.toNat 8 ((val.setWidth 32).signExtend 64))
      else none
  | .scalar (.flo size) offset val =>
      if inInt offset ∧ 0 ≤ offset then
        some (if size = 4 then LVarCopy var offset.toNat 4 (fl.flt (fl.dbl val.toInt)).toNat
          else LVarCopy var offset.toNat 8 (fl.dbl val.toInt).toNat)
      else none
  | .bits f offset val =>
      if inInt offset ∧ 0 ≤ offset then
        some (StaticField.globalInitMember { f.mem with offset := offset.toNat } val var)
      else none

/-- The bytes of a static object. -/
def image (events : List Event) (var : StaticField.LVar) : Option StaticField.LVar :=
  events.foldlM (fun var e => match e with
    | .put p => putStatic fl var p
    | _ => some var) var

/-- What an assignment is to memory. Nothing is said of a value that is assigned
to an array or a struct. -/
def Assign.put? (s : Assign) : Option Put :=
  match s.lhs, s.ty with
  | .bitField _ f, _ => some (.bits f s.lhs.addr s.val)
  | _, .scalar k => some (.scalar k s.lhs.addr s.val)
  | _, _ => none

/-- The assignment, in the memory of an object at `a`. -/
def putRun (arch : Arch) (a : BitVec 64) (m : Mem) (p : Put) : Option Mem :=
  match p with
  | .scalar (.int size) offset val =>
      some (ByteMem.store m (a + BitVec.ofInt 64 offset) (BitField.accessBytes size) val.toNat)
  | .scalar .bool offset val =>
      some (ByteMem.store m (a + BitVec.ofInt 64 offset) (BitField.accessBytes 1) val.toNat)
  | .scalar .ptr offset val => some (ByteMem.store m (a + BitVec.ofInt 64 offset) 8 val.toNat)
  | .scalar (.flo size) offset val =>
      some (if size = 4 then ByteMem.store m (a + BitVec.ofInt 64 offset) 4 (fl.flt (fl.dbl val.toNat)).toNat
        else ByteMem.store m (a + BitVec.ofInt 64 offset) 8 (fl.dbl val.toNat).toNat)
  | .bits f offset val => (BitField.assignCode arch f false).map fun code =>
      (BitField.run code ⟨fun | .ra => a + BitVec.ofInt 64 offset | _ => val, m⟩).mem

/-- The memory of an object at `a` behind the assignments. -/
def execute (arch : Arch) (a : BitVec 64) (code : List Assign) (m : Mem) : Option Mem :=
  code.foldlM (fun m s => s.put?.bind (putRun fl arch a m)) m

end Rcc.Initializer

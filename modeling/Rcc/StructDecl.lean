import Rcc.Scope

/-!
# Struct and union definitions (`struct_decl`)

What the member loop of `struct_decl` does with each declarator, and what the
closing brace makes of it. A member is named or not and has a type and a bit
width, 0 if it is no bit-field; of the type, the loop looks at its kind, size
and alignment.

Three ways of placing bit-fields share the cursors `offset` (in bytes) and
`bit_pos`: by units of the declared type, densely under a pack value, and in
runs of one type as the Microsoft compilers do. In a run `bit_pos` counts from
the beginning of the run, elsewhere from that of the struct.

`bit_pos` and the offsets kept in a member are `int`s. A definition so large
that one of them would not hold its value has no layout here.
-/

namespace Rcc.StructDecl

inductive TypeKind where
  | void | bool | int | char | short | long | llong | float | double | ldouble
  | ptr | array | vla | struct | union | func
deriving DecidableEq, Repr

/-- What is read of a member's type. No type has alignment 0. -/
structure MemTy where
  kind : TypeKind
  size : Nat
  align : Nat
  align_pos : 0 < align
deriving Repr

instance : DecidableEq MemTy := fun s t =>
  decidable_of_iff (s.kind = t.kind ∧ s.size = t.size ∧ s.align = t.align) (by
    obtain ⟨kind, size, align, _⟩ := s
    obtain ⟨kind', size', align', _⟩ := t
    simp)

/-- One declarator in the braces. -/
structure Decl where
  named : Bool
  ty : MemTy
  bitWidth : Nat
deriving DecidableEq, Repr

/-- `struct Member` -/
structure Member where
  named : Bool
  ty : MemTy
  offset : Nat
  bitWidth : Nat
  bitOffset : Nat
  bfLoadSize : Nat
deriving DecidableEq, Repr

/-- `bitfield_mode` -/
inductive BfMode where
  | default | gcc | ms
deriving DecidableEq, Repr

/-- What a definition is laid out under: the `#pragma pack` value in force, the
attributes of the definition, and the command line. -/
structure Config where
  isUnion : Bool
  packAlign : Nat
  isPacked : Bool
  bitfieldMode : BfMode
  optMsBitfields : Bool
  /-- `struct_attr_align`, 0 without the attribute -/
  attrAlign : Nat
deriving DecidableEq, Repr

/-- `struct_pack` -/
def Config.structPack (cfg : Config) : Nat :=
  if cfg.isPacked ∧ cfg.packAlign = 0 then 1 else cfg.packAlign

/-- `use_ms_bitfields` -/
def Config.useMsBitfields (cfg : Config) : Bool :=
  !cfg.isUnion && match cfg.bitfieldMode with
    | .ms => true
    | .gcc => false
    | .default => cfg.optMsBitfields

/-- An alignment under the pack value. -/
def Config.cap (cfg : Config) (align : Nat) : Nat :=
  if 0 < cfg.structPack ∧ cfg.structPack < align then cfg.structPack else align

/-- The local variables of the member loop. -/
structure Layout where
  members : List Member
  offset : Nat
  maxSize : Nat
  maxAlign : Nat
  bitPos : Nat
  msRunBase : Nat
  msPrevKind : TypeKind
  msPrevBitWidth : Nat
deriving DecidableEq, Repr

/-- Behind the opening brace. -/
def Layout.start : Layout where
  members := []
  offset := 0
  maxSize := 0
  maxAlign := 1
  bitPos := 0
  msRunBase := 0
  msPrevKind := .func
  msPrevBitWidth := 0

/-- `cur = cur->next = mem` -/
def Layout.push (L : Layout) (m : Member) : Layout := { L with members := L.members ++ [m] }

/-! ## Members that are no bit-fields -/

/-- An anonymous struct or union. -/
def placeAggregate (cfg : Config) (d : Decl) (L : Layout) : Layout :=
  if cfg.isUnion then
    { L with maxSize := max L.maxSize d.ty.size }.push ⟨d.named, d.ty, 0, 0, 0, 0⟩
  else
    let a := cfg.cap d.ty.align
    let offset := alignTo L.offset a
    { L with
      offset := offset + d.ty.size
      bitPos := (offset + d.ty.size) * 8
      maxAlign := max L.maxAlign a }.push ⟨d.named, d.ty, offset, 0, 0, 0⟩

def placeOrdinary (cfg : Config) (d : Decl) (L : Layout) : Layout :=
  if cfg.isUnion then
    { L with
      maxSize := max L.maxSize d.ty.size
      maxAlign := max L.maxAlign d.ty.align }.push ⟨d.named, d.ty, 0, 0, 0, 0⟩
  else
    let a := cfg.cap d.ty.align
    let offset := alignTo L.offset a
    { L with
      offset := offset + d.ty.size
      bitPos := (offset + d.ty.size) * 8
      msPrevKind := .func
      msPrevBitWidth := 0
      maxAlign := max L.maxAlign a }.push ⟨d.named, d.ty, offset, 0, 0, 0⟩

/-! ## Bit-fields in runs -/

/-- `new_run` -/
def newRun (d : Decl) (L : Layout) : Bool :=
  decide (L.bitPos + d.bitWidth > d.ty.size * 8) ||
    (decide (0 < d.bitWidth) == decide (d.ty.kind ≠ L.msPrevKind))

/-- A new run begins, or the last one goes on. -/
def enterRun (cfg : Config) (d : Decl) (L : Layout) : Layout :=
  if newRun d L then
    let offset := alignTo L.offset (cfg.cap d.ty.align)
    { L with
      offset := if 0 < d.bitWidth ∨ 0 < L.msPrevBitWidth then offset + d.ty.size else offset
      msRunBase := offset
      bitPos := 0 }
  else L

/-- Behind the bit-field. -/
def leaveRun (d : Decl) (L : Layout) : Layout :=
  { L with
    msPrevKind := d.ty.kind
    msPrevBitWidth := d.bitWidth
    bitPos := L.bitPos + d.bitWidth }

/-! ## Unnamed bit-fields -/

/-- The unit of the declared type that `bit_pos` is in. -/
def unitBase (d : Decl) (L : Layout) : Nat := L.bitPos / (d.ty.size * 8) * d.ty.size

/-- The first unit in which the bit-field fits, and the place in it. -/
def fitUnit (d : Decl) (L : Layout) : Nat × Nat :=
  let base := unitBase d L
  let bitOff := L.bitPos - base * 8
  if bitOff + d.bitWidth > d.ty.size * 8 then (base + d.ty.size, 0) else (base, bitOff)

def placeUnnamed (cfg : Config) (d : Decl) (L : Layout) : Layout :=
  if cfg.isUnion then L
  else if cfg.useMsBitfields then
    let L := leaveRun d (enterRun cfg d L)
    { L with
      maxAlign := if 0 < d.bitWidth then max L.maxAlign (cfg.cap d.ty.align) else L.maxAlign }
  else if d.bitWidth = 0 then
    -- to the next unit of the declared type, whatever the pack value
    let base := unitBase d L + if L.bitPos % (d.ty.size * 8) ≠ 0 then d.ty.size else 0
    { L with offset := max L.offset base, bitPos := base * 8 }
  else if 0 < cfg.structPack then
    let bitPos := L.bitPos + d.bitWidth
    { L with offset := max L.offset ((bitPos + 7) / 8), bitPos }
  else
    let (base, bitOff) := fitUnit d L
    let bitPos := base * 8 + bitOff + d.bitWidth
    { L with offset := max L.offset ((bitPos + 7) / 8), bitPos }

/-! ## Named bit-fields -/

/-- `while (ls < needed) ls *= 2`, with `needed` rounds to spare. -/
def loadSize (needed : Nat) : Nat → Nat → Nat
  | 0, ls => ls
  | fuel + 1, ls => if ls < needed then loadSize needed fuel (ls * 2) else ls

/-- Where a densely packed bit-field begins. -/
def packedPos (cfg : Config) (d : Decl) (L : Layout) : Nat :=
  if d.ty.size < d.ty.align then
    alignTo ((L.bitPos + 7) / 8) (cfg.cap d.ty.align) * 8
  else L.bitPos

/-- The unit and the place in it, an alignment above the size of the type
respected. -/
def alignedUnit (d : Decl) (L : Layout) : Nat × Nat :=
  if d.ty.size < d.ty.align then (alignTo (fitUnit d L).1 d.ty.align, 0) else fitUnit d L

def placeBitField (cfg : Config) (d : Decl) (L : Layout) : Layout :=
  let unit := d.ty.size
  if cfg.isUnion then
    { L with
      maxSize := max L.maxSize unit
      maxAlign := max L.maxAlign unit }.push ⟨d.named, d.ty, 0, d.bitWidth, 0, 0⟩
  else if cfg.useMsBitfields then
    let R := enterRun cfg d L
    { leaveRun d R with
      maxAlign := max (max R.maxAlign (cfg.cap d.ty.align)) unit }.push
        ⟨d.named, d.ty, R.msRunBase, d.bitWidth, R.bitPos, 0⟩
  else if 0 < cfg.structPack then
    let pos := packedPos cfg d L
    let bitOff := pos % 8
    let needed := (bitOff + d.bitWidth + 7) / 8
    let bitPos := pos + d.bitWidth
    { L with
      offset := max L.offset ((bitPos + 7) / 8)
      bitPos
      maxAlign := max L.maxAlign unit }.push
        ⟨d.named, d.ty, pos / 8, d.bitWidth, bitOff,
          if unit < needed then loadSize needed needed unit else 0⟩
  else
    let (base, bitOff) := alignedUnit d L
    let bitPos := base * 8 + bitOff + d.bitWidth
    { L with
      offset := max L.offset ((bitPos + 7) / 8)
      bitPos
      maxAlign := max (max L.maxAlign d.ty.align) unit }.push
        ⟨d.named, d.ty, base, d.bitWidth, bitOff, 0⟩

/-! ## The definition -/

def TypeKind.isAggregate : TypeKind → Bool
  | .struct | .union => true
  | _ => false

/-- `x` in a variable of type `int`. -/
def fitsInt (x : Nat) : Bool := x < 2 ^ 31

/-- A bit-field's step, if the bit cursor is one that an `int` holds before and
after. -/
def bitStep (d : Decl) (L L' : Layout) : Option Layout :=
  if fitsInt (L.bitPos + d.bitWidth + 7) ∧ fitsInt (L'.bitPos + 7) ∧ fitsInt L'.msRunBase then some L'
  else none

/-- An ordinary step, if the member's offset is one that an `int` holds. -/
def byteStep (L' : Layout) : Option Layout :=
  if L'.members.all fun m => fitsInt m.offset then some L' else none

/-- One round of the member loop. There is no layout if the width is out of
range, or where a zero-width bit-field of an empty type divides by zero. -/
def declare (cfg : Config) (L : Layout) (d : Decl) : Option Layout :=
  if d.ty.size * 8 < d.bitWidth then none
  else if d.named then
    if 0 < d.bitWidth then bitStep d L (placeBitField cfg d L)
    else byteStep (placeOrdinary cfg d L)
  else if d.bitWidth = 0 ∧ d.ty.kind.isAggregate then byteStep (placeAggregate cfg d L)
  else if d.ty.size = 0 ∧ ¬ cfg.isUnion ∧ ¬ cfg.useMsBitfields then none
  else bitStep d L (placeUnnamed cfg d L)

/-- The type that the definition makes. -/
structure StructType where
  members : List Member
  size : Nat
  align : Nat
deriving DecidableEq, Repr

/-- The closing brace. -/
def finish (cfg : Config) (L : Layout) : StructType :=
  let finalAlign := max (cfg.cap L.maxAlign) cfg.attrAlign
  { members := L.members
    size := alignTo (if cfg.isUnion then L.maxSize else L.offset) finalAlign
    align := finalAlign }

/-- The member loop. -/
def declareAll (cfg : Config) (decls : List Decl) : Option Layout :=
  decls.foldlM (declare cfg) Layout.start

/-- `struct_decl` -/
def structDecl (cfg : Config) (decls : List Decl) : Option StructType :=
  (declareAll cfg decls).map (finish cfg)

end Rcc.StructDecl

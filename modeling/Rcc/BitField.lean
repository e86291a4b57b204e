import Rcc.ByteMem
import Rcc.StructLaw

/-!
# Code for bit-fields

What `gen` prints for bit-fields, behind the code for the address and for the
value assigned: the load of a member, the assignment, and the increments and
decrements. An `Ins` is one printed instruction of either target; `andq %rax, rt`
and `and rt, rt, x16` are the same one, with `%rax` or `x16` as the scratch
register. The registers have the names of the variables that hold their numbers,
which are distinct.

`(1ULL << bw) - 1` is a number only for widths below 64. Where the generator
computes it for 64, there is no code here. The processors of both targets shift
by nothing instead of 64, so the mask comes out as 0.
-/

namespace Rcc.BitField

open ByteMem (Mem)

inductive Arch where
  | x86 | arm64
deriving DecidableEq, Repr

inductive Reg where
  | ra | rt | rv | r2 | r | r3 | rn | rAddr | tmp | scratch
deriving DecidableEq, Repr

/-- `reg(r, 4)` or `reg64[r]` -/
inductive Size where
  | half | full
deriving DecidableEq, Repr

inductive Ins where
  /-- `movzbl`, `movzwl`, `movl`, `movq`, or `ldrb`, `ldrh`, `ldr` of `k` bytes -/
  | load (k : Nat) (dst base : Reg) (off : Nat)
  /-- `movsbl`, `movswl`, or `ldrsb`, `ldrsh` into half a register -/
  | loadSigned (k : Nat) (dst base : Reg)
  | store (k : Nat) (src base : Reg)
  /-- `movabsq $v, %rax` or `emit_mov_imm64` -/
  | imm (dst : Reg) (v : BitVec 64)
  | mov (dst src : Reg)
  | and (dst src : Reg)
  | or (s : Size) (dst src : Reg)
  | andImm (dst : Reg) (v : BitVec 32)
  | shl (dst : Reg) (n : Nat)
  | shr (dst : Reg) (n : Nat)
  | sar (dst : Reg) (n : Nat)
  | addImm (s : Size) (dst : Reg) (n : Nat)
  | subImm (s : Size) (dst : Reg) (n : Nat)
deriving DecidableEq, Repr

/-! ## The machine -/

structure State where
  reg : Reg → BitVec 64
  mem : Mem

def State.set (s : State) (dst : Reg) (v : BitVec 64) : State := { s with reg := Function.update s.reg dst v }

/-- A result in half a register clears the other half. -/
def Size.fit : Size → BitVec 64 → BitVec 64
  | .half, v => (v.setWidth 32).setWidth 64
  | .full, v => v

def Ins.exec (s : State) : Ins → State
  | .load k dst base off =>
      s.set dst (BitVec.ofNat 64 (ByteMem.load s.mem (s.reg base + BitVec.ofNat 64 off) k))
  | .loadSigned k dst base =>
      s.set dst (((BitVec.ofNat (8 * k) (ByteMem.load s.mem (s.reg base) k)).signExtend 32).setWidth 64)
  | .store k src base => { s with mem := ByteMem.store s.mem (s.reg base) k (s.reg src).toNat }
  | .imm dst v => s.set dst v
  | .mov dst src => s.set dst (s.reg src)
  | .and dst src => s.set dst (s.reg dst &&& s.reg src)
  | .or size dst src => s.set dst (size.fit (s.reg dst ||| s.reg src))
  | .andImm dst v => s.set dst (((s.reg dst).setWidth 32 &&& v).setWidth 64)
  | .shl dst n => s.set dst (s.reg dst <<< (n % 64))
  | .shr dst n => s.set dst (s.reg dst >>> (n % 64))
  | .sar dst n => s.set dst ((s.reg dst).sshiftRight (n % 64))
  | .addImm size dst n => s.set dst (size.fit (s.reg dst + BitVec.ofNat 64 n))
  | .subImm size dst n => s.set dst (size.fit (s.reg dst - BitVec.ofNat 64 n))

def run (code : List Ins) (s : State) : State := code.foldl Ins.exec s

/-! ## Members -/

/-- A bit-field of an integer type, and what is read of the type besides. -/
structure Field where
  mem : StructDecl.Member
  isUnsigned : Bool
  isEnum : Bool
  size_mem : mem.ty.size ∈ [1, 2, 4, 8]
  bool_unsigned : mem.ty.kind = .bool → mem.ty.size = 1 ∧ isUnsigned = true
  enum_size : isEnum = true → mem.ty.size = 4

namespace Field

variable (f : Field)

/-- `bw`, `bo` and `unit_sz` -/
def bw : Nat := f.mem.bitWidth

def bo : Nat := f.mem.bitOffset

def unitSz : Nat := f.mem.window

def isBool : Bool := f.mem.ty.kind = .bool

/-- Fields of enumerated types are read without a sign. -/
def zext : Bool := f.isUnsigned || f.isEnum

/-- The width of an expression that names the field. -/
def exprBits : Nat := if f.mem.ty.size < 8 then 32 else 64

def exprSize : Size := if f.mem.ty.size < 8 then .half else .full

end Field

/-! ## The parts -/

/-- `(1ULL << bw) - 1` -/
def lowMask (bw : Nat) : Option (BitVec 64) := if bw < 64 then some ((1 : BitVec 64) <<< bw - 1) else none

/-- The cases of `BF_LOAD` and `BF_STORE` -/
def accessBytes (sz : Nat) : Nat := if sz = 1 then 1 else if sz = 2 then 2 else if sz = 4 then 4 else 8

def bfLoad (sz : Nat) (base dst : Reg) : Ins := .load (accessBytes sz) dst base 0

def bfStore (sz : Nat) (base src : Reg) : Ins := .store (accessBytes sz) src base

/-- `eff_sz` and the like -/
def effSz (sz : Nat) : Nat := if sz > 8 then 8 else sz

/-- The cases for reading a field: AArch64 reads a byte as two. -/
def readBytes (arch : Arch) (eff : Nat) : Nat :=
  match arch with
  | .x86 => accessBytes eff
  | .arm64 => if eff ≤ 2 then 2 else if eff = 4 then 4 else 8

/-- `if (bo > 0) printf("  shr …")` -/
def shrBo (bo : Nat) (dst : Reg) : List Ins := if 0 < bo then [.shr dst bo] else []

def shlBo (bo : Nat) (dst : Reg) : List Ins := if 0 < bo then [.shl dst bo] else []

/-- The extension of a field that was shifted to the bottom of a register. -/
def extend (f : Field) (dst : Reg) : Option (List Ins) :=
  if f.zext then (lowMask f.bw).map fun m => [.imm .scratch m, .and dst .scratch]
  else some [.shl dst (64 - f.bw), .sar dst (64 - f.bw)]

/-- Only if the field is narrower than what was loaded. -/
def extendFrom (f : Field) (dst : Reg) (loadBits : Nat) : Option (List Ins) :=
  if f.bw < loadBits then extend f dst else some []

/-! ## Loads -/

/-- `emit_load` -/
def emitLoad (f : Field) (dst : Reg) : Ins :=
  if f.mem.ty.size = 1 ∨ f.mem.ty.size = 2 then
    if f.isUnsigned then .load f.mem.ty.size dst dst 0 else .loadSigned f.mem.ty.size dst dst
  else if f.mem.ty.size = 4 then .load 4 dst dst 0
  else .load 8 dst dst 0

/-- `case ND_MEMBER`, with the address in the register of the result -/
def memberCode (arch : Arch) (f : Field) (dst : Reg) : Option (List Ins) :=
  let ls := f.mem.bfLoadSize
  if ls ≠ 0 then
    let eff := effSz ls
    let straddles := ls > 8 ∧ f.bo + f.bw > 64
    (extendFrom f dst (ls * 8)).map fun ext =>
      (if straddles then [.mov .rAddr dst] else []) ++
        (.load (readBytes arch eff) dst dst 0 :: shrBo f.bo dst) ++
        (if straddles then
          [.load 1 .tmp .rAddr 8, .andImm .tmp ((1 : BitVec 32) <<< (f.bo + f.bw - 64) - 1),
            .shl .tmp (64 - f.bo), .or .full dst .tmp]
        else []) ++
        ext
  else (extendFrom f dst (f.mem.ty.size * 8)).map fun ext => emitLoad f dst :: shrBo f.bo dst ++ ext

/-! ## Assignments -/

/-- The value of the assignment, read back from the member. -/
def reloadCode (arch : Arch) (f : Field) : Option (List Ins) :=
  let eff := effSz f.unitSz
  (extendFrom f .rt (eff * 8)).map fun ext => .load (readBytes arch eff) .rt .ra 0 :: shrBo f.bo .rt ++ ext

/-- The bits of a field that are in the ninth byte. -/
def overflowCode (f : Field) : List Ins :=
  let ovfMask := (1 : BitVec 32) <<< (f.bo + f.bw - 64) - 1
  [.addImm .full .ra 8, .load 1 .rt .ra 0, .andImm .rt (~~~ovfMask &&& 0xff), .mov .rv .r2,
    .shr .rv (64 - f.bo), .andImm .rv ovfMask, .or .half .rt .rv, .store 1 .rt .ra]

/-- The unit in `rt` without the field, and the value of the field in `rv`. -/
def insertCode (arch : Arch) (low mask : BitVec 64) : List Ins :=
  match arch with
  | .x86 => [.imm .scratch (~~~mask), .and .rt .scratch, .mov .rv .r2, .imm .scratch low, .and .rv .scratch]
  | .arm64 => [.imm .scratch (~~~mask), .and .rt .scratch, .imm .scratch low, .mov .rv .r2, .and .rv .scratch]

/-- What x86-64 prints first for a value that reads the field itself. The unit is
loaded again behind it. -/
def earlyCode (arch : Arch) (f : Field) (low : BitVec 64) : List Ins :=
  match arch with
  | .x86 => shrBo f.bo .rt ++
      (if f.bw < f.unitSz * 8 then [.imm .scratch low, .and .rt .scratch] else []) ++
      [bfLoad f.unitSz .ra .rt]
  | .arm64 => []

/-- The size that the unit is written back with in that case. -/
def sameStoreSz (arch : Arch) (f : Field) : Nat :=
  match arch with
  | .x86 => f.unitSz
  | .arm64 => effSz f.unitSz

/-- `case ND_ASSIGN` for a bit-field, with the value in `r2` and the address in
`ra`. -/
def assignCode (arch : Arch) (f : Field) (rhsReadsSame : Bool) : Option (List Ins) :=
  (lowMask f.bw).bind fun low => (reloadCode arch f).map fun reload =>
    let eff := effSz f.unitSz
    if rhsReadsSame then
      bfLoad eff .ra .rt :: earlyCode arch f low ++ insertCode arch low (low <<< f.bo) ++
        shlBo f.bo .rv ++ [.or .full .rt .rv, bfStore (sameStoreSz arch f) .ra .rt] ++ reload
    else
      bfLoad eff .ra .rt :: insertCode arch low (low <<< f.bo) ++ shlBo f.bo .rv ++
        [.or .full .rt .rv, bfStore eff .ra .rt] ++
        (if f.unitSz > 8 ∧ f.bo + f.bw > 64 then overflowCode f else []) ++ reload

/-! ## Increments and decrements -/

inductive Delta where
  | inc | dec
deriving DecidableEq, Repr

def Delta.ins (d : Delta) (s : Size) (dst : Reg) : Ins :=
  match d with
  | .inc => .addImm s dst 1
  | .dec => .subImm s dst 1

/-- `++x` is `x = x + 1`. The sum has the width of an expression. -/
def preCode (arch : Arch) (f : Field) (d : Delta) : Option (List Ins) :=
  (memberCode arch f .r2).bind fun load => (assignCode arch f true).map fun assign =>
    load ++ d.ins f.exprSize .r2 :: assign

/-- The register that is incremented: `reg(rn, 4)` or `reg64[rn]`. -/
def postSize : Arch → Size
  | .x86 => .half
  | .arm64 => .full

/-- `case ND_POST_INC` and `case ND_POST_DEC`, with the address in `r` -/
def postCode (arch : Arch) (f : Field) (d : Delta) : Option (List Ins) :=
  let eff := effSz f.unitSz
  (lowMask f.bw).bind fun low => (extendFrom f .r3 (eff * 8)).map fun ext =>
    bfLoad eff .r .r2 :: .mov .r3 .r2 :: shrBo f.bo .r3 ++ ext ++
      [.imm .scratch (~~~(low <<< f.bo)), .and .r2 .scratch, .mov .rn .r3, .imm .scratch low,
        .and .rn .scratch, d.ins (postSize arch) .rn, .imm .scratch low, .and .rn .scratch] ++
      shlBo f.bo .rn ++ [.or .full .r2 .rn, bfStore eff .r .r2]

/-! ## The law -/

/-- The value of the field as an expression, with the address of its storage in
`r`. -/
def loaded (arch : Arch) (f : Field) (s : State) : Option Int :=
  (memberCode arch f .r).map fun code =>
    let x := ((run code s).reg .r).setWidth f.exprBits
    if f.zext then x.toNat else x.toInt

/-- What a field holds after it was given a value. -/
def Field.value (f : Field) (v : Int) : Int :=
  if f.isBool then if v = 0 then 0 else 1
  else if f.zext then (BitVec.ofInt f.bw v).toNat
  else (BitVec.ofInt f.bw v).toInt

/-- All of memory but the field is as it was. -/
def Untouched (f : Field) (a : BitVec 64) (m m' : Mem) : Prop :=
  ∀ j < 2 ^ 67, ¬ (f.bo ≤ j ∧ j < f.bo + f.bw) → ByteMem.bit m' a j = ByteMem.bit m a j

/-- From one memory to the other, the field was given a value. -/
structure Updated (arch : Arch) (f : Field) (a : BitVec 64) (m m' : Mem) (v : Int) : Prop where
  later : ∀ t : State, t.mem = m' → t.reg .r = a → loaded arch f t = some (f.value v)
  untouched : Untouched f a m m'

/-- The ways to change a field. -/
inductive Access where
  | assign (rhsReadsSame : Bool) (v : Int)
  | pre (d : Delta)
  | post (d : Delta)
deriving DecidableEq, Repr

def Delta.value : Delta → Int
  | .inc => 1
  | .dec => -1

/-- The bit-field law, for one field and one way to change it. -/
def Law (arch : Arch) (f : Field) : Access → Prop
  | .assign rhsReadsSame v => ∀ s : State, (s.reg .r2).setWidth f.exprBits = BitVec.ofInt f.exprBits v →
      ∃ code, assignCode arch f rhsReadsSame = some code ∧
        Updated arch f (s.reg .ra) s.mem (run code s).mem v
  | .pre d => ∀ s : State, s.reg .r2 = s.reg .ra → s.reg .r = s.reg .ra →
      ∃ code old, preCode arch f d = some code ∧ loaded arch f s = some old ∧
        Updated arch f (s.reg .ra) s.mem (run code s).mem (old + d.value)
  | .post d => ∀ s : State,
      ∃ code old, postCode arch f d = some code ∧ loaded arch f s = some old ∧
        Updated arch f (s.reg .r) s.mem (run code s).mem (old + d.value)

end Rcc.BitField

import Mathlib
import Rcc.CallArgs
import Rcc.Answers

/-!
# Parameters and variable arguments (System V)

A call puts its arguments into registers and on the stack. The function that is called stores its parameters into variables, one after the
other, and a variadic one the registers behind them into its save area; there, and on the stack, `va_arg` looks for the arguments that have no
name.

Only what is said about the places of arguments is known to both. A `float` is passed as a `double`, and a structure of more than eight
bytes by its address. A smaller one is passed like an integer, if it has the size of one.
-/

namespace Rcc.Callee

open Rcc.CallArgs (ArgReg Size)

/-! ## What is passed -/

/-- How an argument is passed. -/
inductive Kind where
  | integer (size : Size)
  | flonum
  | struct_ (size : Nat) (big : 8 < size)
deriving DecidableEq, Repr

/-- The type of a parameter: `float` or not. -/
inductive ParamType where
  | float
  | other (kind : Kind)
deriving DecidableEq, Repr

def ParamType.kind : ParamType → Kind
  | .float => .flonum
  | .other kind => kind

inductive Place where
  | reg (r : ArgReg)
  | stack (n : Nat)
deriving DecidableEq, Repr

/-- `gp_reg_args`, `fp_reg_args` and `stack_args` of a call. -/
structure Next where
  gp : Nat
  fp : Nat
  stack : Nat
deriving DecidableEq, Repr

namespace Next

/-- A structure that is returned has a hidden argument. -/
def start (hidden : Bool) : Next := ⟨hidden.toNat, 0, 0⟩

def place (n : Next) : Kind → Place
  | .flonum => if h : n.fp < 8 then .reg (.xmm ⟨n.fp, h⟩) else .stack n.stack
  | _ => if h : n.gp < 6 then .reg (.gp ⟨n.gp, h⟩) else .stack n.stack

def after (n : Next) : Kind → Next
  | .flonum => if n.fp < 8 then { n with fp := n.fp + 1 } else { n with stack := n.stack + 1 }
  | _ => if n.gp < 6 then { n with gp := n.gp + 1 } else { n with stack := n.stack + 1 }

end Next

/-- The loop over `argv`. -/
def places : Next → List Kind → List Place
  | _, [] => []
  | n, k :: rest => n.place k :: places (n.after k) rest

/-- What the function finds. Words of the frame are 8 bytes, and their addresses from `%rbp` on: the stack begins at 16. -/
structure Entry where
  gp : Fin 6 → BitVec 64
  xmm : Fin 8 → BitVec 128
  al : BitVec 8
  word : Int → BitVec 64
  /-- where structures are -/
  mem : BitVec 64 → BitVec 8

def Entry.at (e : Entry) : Place → BitVec 64
  | .reg (.gp i) => e.gp i
  | .reg (.xmm i) => (e.xmm i).setWidth 64
  | .stack n => e.word (16 + 8 * n)

/-- Do the bits of the kind agree? -/
def Kind.Same : Kind → BitVec 64 → BitVec 64 → Prop
  | .integer size, v, v' => v.setWidth size.bits = v'.setWidth size.bits
  | _, v, v' => v = v'

/-- Each argument is at its place. -/
def Passed (e : Entry) (values : Nat → BitVec 64) : (index : Nat) → Next → List Kind → Prop
  | _, _, [] => True
  | i, n, k :: rest => k.Same (e.at (n.place k)) (values i) ∧ Passed e values (i + 1) (n.after k) rest

/-! ## What the function does -/

/-- What is stored into the variable of a parameter. -/
inductive Content where
  | bits (v : BitVec 64)
  | bytes (b : List (BitVec 8))

structure Regs where
  gp : Fin 6 → BitVec 64
  xmm : Fin 8 → BitVec 128
  al : BitVec 8

/-- The loop at `.L.pcopy`: from the last byte to the first, each by way of `%al`. -/
def pcopy (src : Nat → BitVec 8) : (r10 : Nat) → (al : BitVec 8) → List (BitVec 8) → BitVec 8 × List (BitVec 8)
  | 0, al, copied => (al, copied)
  | r10 + 1, _, copied => pcopy src r10 (src r10) (src r10 :: copied)

/-- `cvtsd2ss` -/
abbrev Narrow := BitVec 64 → BitVec 32

variable (narrow : Narrow) (e : Entry)

/-- `%xmm0` gets a `float` in its lowest part. -/
def Regs.setLow (r : Regs) (v : BitVec 32) : Regs := { r with xmm := Function.update r.xmm 0 ((r.xmm 0).extractLsb 127 32 ++ v) }

/-- A load from memory clears the rest. -/
def Regs.loadXmm (r : Regs) (v : BitVec 64) : Regs := { r with xmm := Function.update r.xmm 0 (v.setWidth 128) }

/-- A word of the stack. -/
def Entry.stackWord (n : Nat) : BitVec 64 := e.word (16 + 8 * n)

/-- A byte of the stack. -/
def Entry.stackByte (i : Nat) : BitVec 8 := (e.stackWord (i / 8) >>> (8 * (i % 8))).setWidth 8

/-- One parameter. -/
def storeParam (n : Next) (r : Regs) : ParamType → Content × Regs
  | .float =>
      if h : n.fp < 8 then
        let v := narrow ((r.xmm ⟨n.fp, h⟩).setWidth 64)
        (.bits (v.setWidth 64), r.setLow v)
      else
        let v := ((e.stackWord n.stack).setWidth 32).setWidth 64
        (.bits v, r.loadXmm v)
  | .other .flonum =>
      if h : n.fp < 8 then (.bits ((r.xmm ⟨n.fp, h⟩).setWidth 64), r)
      else (.bits (e.stackWord n.stack), r.loadXmm (e.stackWord n.stack))
  | .other (.integer size) =>
      if h : n.gp < 6 then (.bits (((r.gp ⟨n.gp, h⟩).setWidth size.bits).setWidth 64), r)
      else
        let v := e.stackWord n.stack
        (.bits ((v.setWidth size.bits).setWidth 64), { r with al := v.setWidth 8 })
  | .other (.struct_ size _) =>
      let src := if h : n.gp < 6 then fun i => e.mem (r.gp ⟨n.gp, h⟩ + BitVec.ofNat 64 i) else fun i => e.stackByte (8 * n.stack + i)
      let (al, copied) := pcopy src size r.al []
      (.bytes copied, { r with al := al })

def storeParams : Next → Regs → List ParamType → List Content × Regs
  | _, r, [] => ([], r)
  | n, r, t :: rest =>
      let (content, r) := storeParam narrow e n r t
      let (contents, r) := storeParams (n.after t.kind) r rest
      (content :: contents, r)

/-! ## Variable arguments -/

/-- Is a parameter stored by way of `%al`? -/
def ParamType.ClobbersAl : ParamType → Place → Prop
  | .other (.struct_ ..), _ => True
  | .other (.integer _), .stack _ => True
  | _, _ => False

def clobbersAl : Next → List ParamType → Prop
  | _, [] => False
  | n, t :: rest => t.ClobbersAl (n.place t.kind) ∨ clobbersAl (n.after t.kind) rest

/-- The registers from the first one that has no name: what is stored into the save area, and where. -/
def saves (ofs : Int) (n : Next) (r : Regs) : List (Int × BitVec 64) :=
  ((List.finRange 6).filter fun i => n.gp ≤ i.val).map (fun i => (-(ofs - 8 * i.val), r.gp i)) ++
    if n.fp < 8 ∧ r.al ≠ 0 then
      ((List.finRange 8).filter fun i => n.fp ≤ i.val).flatMap fun i =>
        [(-(ofs - 48 - 16 * i.val), (r.xmm i).setWidth 64), (-(ofs - 48 - 16 * i.val) + 8, (r.xmm i).extractLsb 127 64)]
    else []

/-- `va_list` -/
structure VaList where
  gpOffset : Nat
  fpOffset : Nat
  overflowArgArea : Int
  regSaveArea : Int
deriving DecidableEq, Repr

def vaStart (ofs : Int) (n : Next) : VaList := ⟨8 * n.gp, 16 * n.fp + 48, 16 + 8 * n.stack, -ofs⟩

/-- The address that an argument is read from. -/
def vaArg (l : VaList) : Kind → Int × VaList
  | .flonum =>
      if l.fpOffset ≤ 160 then (l.regSaveArea + l.fpOffset, { l with fpOffset := l.fpOffset + 16 })
      else (l.overflowArgArea, { l with overflowArgArea := l.overflowArgArea + 8 })
  | _ =>
      if l.gpOffset ≤ 40 then (l.regSaveArea + l.gpOffset, { l with gpOffset := l.gpOffset + 8 })
      else (l.overflowArgArea, { l with overflowArgArea := l.overflowArgArea + 8 })

/-- What a function does with its lists. `va_end` does nothing. -/
inductive Request where
  | start (list : Nat)
  | copy (dest src : Nat)
  | arg (list : Nat) (kind : Kind)
deriving DecidableEq, Repr

/-- A variadic function. -/
structure Function where
  hidden : Bool
  params : List ParamType
  stackSize : Nat

namespace Function

variable (f : Function)

/-- `param_index`, `param_xmm_index` and `stack_param_index` behind the parameters. -/
def next : Next := f.params.foldl (fun n t => n.after t.kind) (.start f.hidden)

/-- `va_reg_save_ofs` -/
def vaRegSaveOfs : Int := f.stackSize + 176

/-- Behind the code that stores the parameters. -/
def entered : Regs := (storeParams narrow e (.start f.hidden) ⟨e.gp, e.xmm, e.al⟩ f.params).2

/-- The frame when the body begins. -/
def frame : Int → BitVec 64 :=
  (saves f.vaRegSaveOfs f.next (f.entered narrow e)).foldl (fun m w => Function.update m w.1 w.2) e.word

/-- Each list in the memory of the function. An argument is read from its address; a structure is at what is read. -/
def lists : Answers.Machine (Nat → VaList) Request (Option (BitVec 64)) where
  answer s
    | .start a => some (Function.update s a (vaStart f.vaRegSaveOfs f.next), none)
    | .copy d a => some (Function.update s d (s a), none)
    | .arg a k => some (Function.update s a (vaArg (s a) k).2, some (f.frame narrow e (vaArg (s a) k).1))

end Function

/-! ## What C says -/

/-- The variable of a parameter has the value of the argument. -/
def ParamType.Holds (v : BitVec 64) : ParamType → Content → Prop
  | .float, .bits b => b.setWidth 32 = narrow v
  | .other (.struct_ size _), .bytes b => b = (List.range size).map fun i => e.mem (v + BitVec.ofNat 64 i)
  | .other (.struct_ ..), .bits _ => False
  | .other k, .bits b => k.Same b v
  | _, .bytes _ => False

/-- Each list is somewhere in the arguments that have no name, which begin at this index. -/
def given (values : Nat → BitVec 64) (index : Nat) (rest : List Kind) : Answers.Machine (Nat → Option Nat) Request (Option (Kind × BitVec 64)) where
  answer s
    | .start a => some (Function.update s a (some 0), none)
    | .copy d a => (s a).map fun n => (Function.update s d (some n), none)
    | .arg a k =>
        (s a).bind fun n =>
          if rest[n]? = some k then some (Function.update s a (some (n + 1)), some (k, values (index + n))) else none

end Rcc.Callee

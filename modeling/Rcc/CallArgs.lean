import Rcc.Requests

/-!
# The arguments of a call (`gen_funcall`, System V)

Where an argument goes depends on its type and on the types in front of it. Those that go to registers are evaluated one after the other,
each into a register that `alloc_reg` hands out; then those that go to the stack; and then the registers are moved, in two passes, to where
the callee looks for them. A register is freed as soon as it has been moved.

An argument is any expression. What matters of its evaluation is what it asks of the allocator, and whether it calls a function, as the
callee may change `%rsi`: the registers `%r10` and `%r11` are saved around a call, and the others that are handed out belong to the caller.
The value of an argument is what its register holds when `gen` returns.

The store of an argument to the stack is below the frame, and left out.
-/

namespace Rcc.CallArgs

/-! ## Arguments -/

/-- The size of an integer, by the suffix of its instructions. -/
inductive Size where
  | b | w | l | q
deriving DecidableEq, Repr

def Size.bits : Size → Nat
  | .b => 8
  | .w => 16
  | .l => 32
  | .q => 64

/-- What is read of `argv[i]->ty`. A pointer is an integer of 8 bytes. -/
inductive ArgType where
  | integer (size : Size) (isUnsigned : Bool)
  | flonum
deriving DecidableEq, Repr

def ArgType.isFlonum : ArgType → Bool
  | .flonum => true
  | .integer .. => false

/-- What is generated for a part of an expression: registers are taken for a while, and functions are called. -/
inductive Work where
  | done
  /-- `alloc_reg`, the work inside, `free_reg`, and the work behind -/
  | temp (inner next : Work)
  | call (next : Work)
deriving DecidableEq, Repr

/-- What is done before the register of the value is allocated, and what after. -/
structure Arg where
  type : ArgType
  before : Work
  after : Work
deriving DecidableEq, Repr

/-- An index of `argreg64`, or of `argxmm`. -/
inductive ArgReg where
  | gp (i : Fin 6)
  | xmm (i : Fin 8)
deriving DecidableEq, Repr

/-- `%rsi`, the second of `argreg64` -/
abbrev ArgReg.rsi : ArgReg := .gp 1

/-- An argument that goes to a register, with its position. -/
structure Slot where
  index : Nat
  arg : Arg
  reg : ArgReg
deriving DecidableEq, Repr

/-- The loop over `argv`: the arguments for registers, and those for the stack. -/
def assignRegs : (index gpRegArgs fpRegArgs : Nat) → List Arg → List Slot × List (Nat × Arg)
  | _, _, _, [] => ([], [])
  | i, gp, fp, a :: rest =>
      if a.type.isFlonum then
        if h : fp < 8 then
          let (slots, stack) := assignRegs (i + 1) gp (fp + 1) rest
          (⟨i, a, .xmm ⟨fp, h⟩⟩ :: slots, stack)
        else
          let (slots, stack) := assignRegs (i + 1) gp fp rest
          (slots, (i, a) :: stack)
      else if h : gp < 6 then
        let (slots, stack) := assignRegs (i + 1) (gp + 1) fp rest
        (⟨i, a, .gp ⟨gp, h⟩⟩ :: slots, stack)
      else
        let (slots, stack) := assignRegs (i + 1) gp fp rest
        (slots, (i, a) :: stack)

/-- The buffer for a structure that is returned: none, one whose address is in a register already, or one of the call's own. -/
inductive RetBuf where
  | none
  | given (hiddenRetReg : Reg)
  | own
deriving DecidableEq, Repr

/-- A call, as far as its arguments go. -/
structure Call where
  retBuf : RetBuf
  args : List Arg
deriving DecidableEq, Repr

namespace Call

variable (c : Call)

/-- `has_hidden_retbuf` -/
def hasHiddenRetbuf : Bool := c.retBuf ≠ .none

def slots : List Slot := (assignRegs 0 c.hasHiddenRetbuf.toNat 0 c.args).1

def stackArgs : List (Nat × Arg) := (assignRegs 0 c.hasHiddenRetbuf.toNat 0 c.args).2

end Call

/-! ## Evaluation -/

/-- The allocator, the registers it deals in and the frame; and how many values have been thrown away. -/
structure World where
  gen : GenState
  mach : Machine
  count : Nat

namespace World

/-- `alloc_reg`, and a value for the register. -/
def alloc (w : World) (v : BitVec 64) : Option (Reg × World) :=
  (allocReg w.gen).bind fun (r, code, gen) => (exec code w.mach).map fun m => (r, ⟨gen, m.set r v, w.count + 1⟩)

/-- `free_reg` -/
def free (w : World) (r : Reg) : Option World :=
  (freeReg r w.gen).bind fun (_, code, gen) => (exec code w.mach).map fun m => ⟨gen, m, w.count⟩

/-- A register gets a value. -/
def put (w : World) (r : Reg) (v : BitVec 64) : World := { w with mach := w.mach.set r v }

/-- A function has been called, and has left something in `%rsi`. -/
def called (w : World) (v : BitVec 64) : World := ⟨w.gen, w.mach.set 7 v, w.count + 1⟩

/-- `used_regs |= reg_arg_mask` -/
def remark (w : World) : List Reg → Option World
  | [] => some w
  | r :: mask => (remarkReg r w.gen).bind fun (_, _, gen) => World.remark { w with gen } mask

end World

variable (junk values : Nat → BitVec 64)

/-- The work is done. What is in `junk` are the values that nobody asks for. -/
def Work.run : Work → World → Option World
  | .done, w => some w
  | .temp inner next, w =>
      (w.alloc (junk w.count)).bind fun (r, w) => (inner.run w).bind fun w => (w.free r).bind next.run
  | .call next, w => next.run (w.called (junk w.count))

/-- `gen(argv[i])`: the register, and the value in it. -/
def Arg.eval (a : Arg) (v : BitVec 64) (w : World) : Option (Reg × World) :=
  (a.before.run junk w).bind fun w =>
    (w.alloc (junk w.count)).bind fun (r, w) => (a.after.run junk w).map fun w => (r, w.put r v)

/-- An argument for a register, and `arg_regs[i]`. -/
structure Item where
  slot : Slot
  source : Reg
deriving DecidableEq, Repr

/-- The arguments for registers, in their order. -/
def evalRegArgs : List Slot → World → Option (List Item × World)
  | [], w => some ([], w)
  | s :: slots, w =>
      (s.arg.eval junk (values s.index) w).bind fun (r, w) =>
        (evalRegArgs slots w).map fun (items, w) => (⟨s, r⟩ :: items, w)

/-- The arguments for the stack, from the last one to the first. -/
def evalStackArgs (regArgMask : List Reg) : List (Nat × Arg) → World → Option World
  | [], w => some w
  | (i, a) :: rest, w =>
      (w.remark regArgMask).bind fun w =>
        (a.eval junk (values i) w).bind fun (r, w) =>
          (w.free r).bind fun w => (w.remark regArgMask).bind (evalStackArgs regArgMask rest)

/-! ## The moves -/

/-- With the argument registers. The second of `gp` is `%rsi`, which is one of those that are handed out. -/
structure Cpu where
  world : World
  gp : Fin 6 → BitVec 64
  xmm : Fin 8 → BitVec 64

namespace Cpu

def read (c : Cpu) : ArgReg → BitVec 64
  | .gp i => if i = 1 then c.world.mach.reg 7 else c.gp i
  | .xmm i => c.xmm i

def write (c : Cpu) (reg : ArgReg) (v : BitVec 64) : Cpu :=
  match reg with
  | .gp i => if i = 1 then { c with world := c.world.put 7 v } else { c with gp := Function.update c.gp i v }
  | .xmm i => { c with xmm := Function.update c.xmm i v }

/-- The hidden argument. -/
def passRetBuf (c : Cpu) : RetBuf → Option Cpu
  | .none => some c
  | .given r => some (c.write (.gp 0) (c.world.mach.reg r))
  | .own => (c.world.alloc (junk c.world.count)).map fun (r, w) => { c with world := w }.write (.gp 0) (w.mach.reg r)

end Cpu

/-- What `movsbl`, `movzbl`, `movslq` and their kind write to the argument register. -/
def ArgType.moved : ArgType → BitVec 64 → BitVec 64
  | .integer .b isUnsigned, v => (extendLow (!isUnsigned) .b 32 v).setWidth 64
  | .integer .w isUnsigned, v => (extendLow (!isUnsigned) .w 32 v).setWidth 64
  | .integer .l true, v => (v.setWidth 32).setWidth 64
  | .integer .l false, v => (v.setWidth 32).signExtend 64
  | .integer .q _, v => v
  | .flonum, v => v

/-- `rsi_src` -/
def Item.rsiSrc (x : Item) : Bool := !x.slot.arg.type.isFlonum && x.source = 7

/-- One argument is moved, and its register freed. -/
def Cpu.move (c : Cpu) (x : Item) : Option Cpu :=
  let c := c.write x.slot.reg (x.slot.arg.type.moved (c.world.mach.reg x.source))
  (c.world.free x.source).map fun w => { c with world := w }

def movePass (first : Bool) : List Item → Cpu → Option Cpu
  | [], c => some c
  | x :: items, c => if x.rsiSrc = first then (c.move x).bind (movePass first items) else movePass first items c

/-- `gen_funcall`, from the first argument to the call instruction. -/
def Call.pass (call : Call) (c : Cpu) : Option Cpu :=
  (evalRegArgs junk values call.slots c.world).bind fun (items, w) =>
    (evalStackArgs junk values (items.map Item.source) call.stackArgs.reverse w).bind fun w =>
      ({ c with world := w }.passRetBuf junk call.retBuf).bind fun c =>
        (movePass true items c).bind (movePass false items)

/-! ## What the callee expects -/

/-- The ABI: an integer goes to the next of six registers, of which a hidden argument has taken the first, and a floating value to the next
of eight. -/
def abiReg (hidden : Bool) (before : List Arg) (a : Arg) : Option ArgReg :=
  if a.type.isFlonum then
    if h : before.countP (fun a => a.type.isFlonum) < 8 then some (.xmm ⟨_, h⟩) else none
  else
    if h : hidden.toNat + before.countP (fun a => !a.type.isFlonum) < 6 then some (.gp ⟨_, h⟩) else none

/-- Do the bits of the type agree? -/
def ArgType.Same : ArgType → BitVec 64 → BitVec 64 → Prop
  | .integer size _, v, v' => v.setWidth size.bits = v'.setWidth size.bits
  | .flonum, v, v' => v = v'

/-- Every argument that goes to a register is in the register that the ABI says, with its value. -/
def Call.Placed (call : Call) (c : Cpu) : Prop :=
  ∀ before a after, call.args = before ++ a :: after → ∀ reg, abiReg call.hasHiddenRetbuf before a = some reg →
    a.type.Same (c.read reg) (values before.length)

end Rcc.CallArgs

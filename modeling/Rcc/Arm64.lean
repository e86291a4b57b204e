import Rcc.ByteMem
import Rcc.Peephole
import Rcc.Pieces

/-!
# Constants and frame accesses on ARM64

The part of the processor that constants and accesses to the frame need, and what the assembler makes of a line of text. A constant is put
together from pieces of 16 bits: `mov` with the first clears the rest of the register, `movk` writes one more over its bits. An access reaches
back 256 bytes from a register, and a constant of `sub` has 12 bits; the assembler takes no other.
-/

namespace Rcc.Arm64

open Lexer (Text)
open Peephole (decimal)

/-! ## Registers -/

inductive Reg where
  | x (n : Fin 31)
  /-- the low half of `x` -/
  | w (n : Fin 31)
  /-- the low quarter of a vector register -/
  | s (n : Fin 32)
  | d (n : Fin 32)
deriving DecidableEq, Repr

def Reg.width : Reg → Nat
  | .x _ => 64
  | .w _ => 32
  | .s _ => 32
  | .d _ => 64

def Reg.isGeneral : Reg → Bool
  | .x _ => true
  | .w _ => true
  | .s _ => false
  | .d _ => false

structure State where
  x : Fin 31 → BitVec 64
  v : Fin 32 → BitVec 128
  mem : ByteMem.Mem

namespace State

def setX (s : State) (n : Fin 31) (val : BitVec 64) : State := { s with x := Function.update s.x n val }

def setV (s : State) (n : Fin 32) (val : BitVec 128) : State := { s with v := Function.update s.v n val }

def get (s : State) : (r : Reg) → BitVec r.width
  | .x n => s.x n
  | .w n => (s.x n).setWidth 32
  | .s n => (s.v n).setWidth 32
  | .d n => (s.v n).setWidth 64

/-- What is above a part of a register is cleared. -/
def set (s : State) : (r : Reg) → BitVec r.width → State
  | .x n, val => s.setX n val
  | .w n, val => s.setX n (BitVec.setWidth 64 val)
  | .s n, val => s.setV n (BitVec.setWidth 128 val)
  | .d n, val => s.setV n (BitVec.setWidth 128 val)

def load (s : State) (r : Reg) (a : BitVec 64) : State :=
  s.set r (BitVec.ofNat r.width (ByteMem.load s.mem a (r.width / 8)))

def store (s : State) (r : Reg) (a : BitVec 64) : State :=
  { s with mem := ByteMem.store s.mem a (r.width / 8) (s.get r).toNat }

@[simp] theorem setX_x (s : State) (n : Fin 31) (val : BitVec 64) : (s.setX n val).x = Function.update s.x n val := rfl

@[simp] theorem setX_setX (s : State) (n : Fin 31) (val val' : BitVec 64) : (s.setX n val).setX n val' = s.setX n val' := by
  simp only [setX, Function.update_idem]

@[simp] theorem get_set (s : State) (r : Reg) (val : BitVec r.width) : (s.set r val).get r = val := by
  cases r with
  | x n => exact Function.update_self n val s.x
  | w n =>
      simp only [get, set, setX_x, Function.update_self]
      exact BitVec.setWidth_setWidth_of_le val (by decide)
  | s n =>
      simp only [get, set, setV, Function.update_self]
      exact BitVec.setWidth_setWidth_of_le val (by decide)
  | d n =>
      simp only [get, set, setV, Function.update_self]
      exact BitVec.setWidth_setWidth_of_le val (by decide)

@[simp] theorem set_set (s : State) (r : Reg) (val val' : BitVec r.width) : (s.set r val).set r val' = s.set r val' := by
  cases r with
  | x n => exact setX_setX s n val val'
  | w n => exact setX_setX s n _ _
  | s n => simp only [set, setV, Function.update_idem]
  | d n => simp only [set, setV, Function.update_idem]

end State

/-! ## Instructions -/

inductive Access where
  | ldr | str
deriving DecidableEq, Repr

inductive Instr where
  /-- `mov r, #imm` -/
  | mov (r : Reg) (imm : Nat)
  /-- `movk r, #imm, lsl #shift` -/
  | movk (r : Reg) (imm shift : Nat)
  /-- `sub dst, src, #imm` -/
  | subImm (dst src : Fin 31) (imm : Nat)
  /-- `sub dst, a, b` -/
  | sub (dst a b : Fin 31)
  /-- `ldr r, [base, #-back]` or `str` -/
  | access (op : Access) (r : Reg) (base : Fin 31) (back : Nat)
deriving DecidableEq, Repr

def Access.exec (s : State) (r : Reg) (a : BitVec 64) : Access → State
  | .ldr => s.load r a
  | .str => s.store r a

/-- None for what cannot be encoded. -/
def Instr.exec (s : State) : Instr → Option State
  | .mov r imm => if r.isGeneral ∧ imm < 2 ^ 16 then some (s.set r (BitVec.ofNat _ imm)) else none
  | .movk r imm shift =>
      if r.isGeneral ∧ imm < 2 ^ 16 ∧ 16 ∣ shift ∧ shift < r.width then
        some (s.set r (Pieces.insert shift (BitVec.ofNat 16 imm) (s.get r)))
      else none
  | .subImm dst src imm => if imm < 2 ^ 12 then some (s.setX dst (s.x src - BitVec.ofNat 64 imm)) else none
  | .sub dst a b => some (s.setX dst (s.x a - s.x b))
  | .access op r base back => if back ≤ 256 then some (op.exec s r (s.x base - BitVec.ofNat 64 back)) else none

/-! ## The assembler -/

def isGap (c : Char) : Bool := c = ' ' || c = ','

def words (line : Text) : List Text := (line.splitOnP isGap).filter (· ≠ [])

def number (digits : Text) : Option Nat :=
  if digits ≠ [] ∧ ∀ c ∈ digits, c.isDigit = true then some (Nat.ofDigitChars 10 digits 0) else none

/-- The number of a register. -/
def index (bound : Nat) (digits : Text) : Option (Fin bound) :=
  (number digits).bind fun n => if h : n < bound then some ⟨n, h⟩ else none

def Reg.ofName : Text → Option Reg
  | 'x' :: n => (index 31 n).map .x
  | 'w' :: n => (index 31 n).map .w
  | 's' :: n => (index 32 n).map .s
  | 'd' :: n => (index 32 n).map .d
  | _ => none

def xReg : Text → Option (Fin 31)
  | 'x' :: n => index 31 n
  | _ => none

def immediate : Text → Option Nat
  | '#' :: digits => number digits
  | _ => none

/-- What is before a closing bracket. -/
def closed (word : Text) : Option Text := if word.getLast? = some ']' then some word.dropLast else none

/-- The operands of an access: `[base]` or `[base, #-back]`. -/
def address : List Text → Option (Fin 31 × Nat)
  | ['[' :: base] => do return (← xReg (← closed base), 0)
  | ['[' :: base, '#' :: '-' :: back] => do return (← xReg base, ← number (← closed back))
  | _ => none

def Access.ofName (word : Text) : Option Access :=
  if word = "ldr".toList then some .ldr else if word = "str".toList then some .str else none

def Instr.ofWords : List Text → Option Instr
  | mnemonic :: r :: operands =>
      if mnemonic = "mov".toList then
        match operands with
        | [imm] => do return .mov (← Reg.ofName r) (← immediate imm)
        | _ => none
      else if mnemonic = "movk".toList then
        match operands with
        | [imm, lsl, shift] =>
            if lsl = "lsl".toList then do return .movk (← Reg.ofName r) (← immediate imm) (← immediate shift) else none
        | _ => none
      else if mnemonic = "sub".toList then
        match operands with
        | [a, '#' :: imm] => do return .subImm (← xReg r) (← xReg a) (← number imm)
        | [a, b] => do return .sub (← xReg r) (← xReg a) (← xReg b)
        | _ => none
      else do
        let op ← Access.ofName mnemonic
        let (base, back) ← address operands
        return .access op (← Reg.ofName r) base back
  | _ => none

/-- The instruction of a line. -/
def Instr.read (line : Text) : Option Instr := Instr.ofWords (words line)

/-- The lines one after the other. -/
def run : List Text → State → Option State
  | [], s => some s
  | line :: lines, s => do run lines (← (← Instr.read line).exec s)

/-! ## Reading what is printed -/

def Reg.name : Reg → Text
  | .x n => 'x' :: decimal n
  | .w n => 'w' :: decimal n
  | .s n => 's' :: decimal n
  | .d n => 'd' :: decimal n

/-- A word of a line. -/
structure Solid (word : Text) : Prop where
  ne_nil : word ≠ []
  no_gap : ∀ c ∈ word, isGap c = false

theorem words_gap {c : Char} (hc : isGap c = true) (line : Text) : words (c :: line) = words line := by
  have hnone : ∀ c ∈ ([] : Text), isGap c = false := fun c h => absurd h List.not_mem_nil
  rw [words, ← List.nil_append (c :: line), List.splitOnP_append_cons_of_forall_mem hnone c hc]
  rfl

theorem words_cons {word : Text} (h : Solid word) {c : Char} (hc : isGap c = true) (line : Text) :
    words (word ++ c :: line) = word :: words line := by
  rw [words, List.splitOnP_append_cons_of_forall_mem h.no_gap c hc, List.filter_cons, if_pos (by simpa using h.ne_nil)]
  rfl

theorem words_last {word : Text} (h : Solid word) : words word = [word] := by
  rw [words, List.splitOnP_eq_singleton h.no_gap, List.filter_cons, if_pos (by simpa using h.ne_nil)]
  rfl

theorem decimal_natCast (n : Nat) : decimal (n : Int) = Nat.toDigits 10 n := Nat.toList_repr

theorem isDigit_of_mem_decimal {n : Nat} {c : Char} (hc : c ∈ decimal (n : Int)) : c.isDigit = true := by
  rw [decimal_natCast] at hc
  exact Nat.isDigit_of_mem_toDigits (by decide) (by decide) hc

theorem isGap_of_isDigit {c : Char} (hc : c.isDigit = true) : isGap c = false := by
  cases hgap : isGap c with
  | false => rfl
  | true =>
      simp only [isGap, Bool.or_eq_true, decide_eq_true_eq] at hgap
      rcases hgap with rfl | rfl <;> exact absurd hc (by decide)

theorem solid_decimal (n : Nat) : Solid (decimal (n : Int)) where
  ne_nil := by
    rw [decimal_natCast]
    exact Nat.toDigits_ne_nil
  no_gap c hc := isGap_of_isDigit (isDigit_of_mem_decimal hc)

theorem Solid.cons {word : Text} (h : Solid word) {c : Char} (hc : isGap c = false) : Solid (c :: word) :=
  ⟨List.cons_ne_nil c word, List.forall_mem_cons.mpr ⟨hc, h.no_gap⟩⟩

theorem Solid.snoc {word : Text} (h : Solid word) {c : Char} (hc : isGap c = false) : Solid (word ++ [c]) where
  ne_nil := by simp
  no_gap c' hc' := by
    rcases List.mem_append.mp hc' with hword | hlast
    · exact h.no_gap c' hword
    · rwa [List.mem_singleton.mp hlast]

@[simp] theorem number_decimal (n : Nat) : number (decimal (n : Int)) = some n := by
  rw [number, if_pos ⟨(solid_decimal n).ne_nil, fun c hc => isDigit_of_mem_decimal hc⟩, decimal_natCast,
    Nat.ofDigitChars_toDigits (by decide) (by decide)]

@[simp] theorem index_decimal {bound : Nat} (n : Fin bound) : index bound (decimal (n : Nat)) = some n := by
  simp [index]

@[simp] theorem ofName_name (r : Reg) : Reg.ofName r.name = some r := by
  cases r <;> simp [Reg.name, Reg.ofName]

@[simp] theorem xReg_name (n : Fin 31) : xReg (Reg.x n).name = some n := by
  simp [Reg.name, xReg]

theorem solid_name (r : Reg) : Solid r.name := by
  cases r with
  | x n => exact (solid_decimal n).cons (by decide)
  | w n => exact (solid_decimal n).cons (by decide)
  | s n => exact (solid_decimal n).cons (by decide)
  | d n => exact (solid_decimal n).cons (by decide)

@[simp] theorem closed_snoc (word : Text) : closed (word ++ [']']) = some word := by
  simp [closed]

end Rcc.Arm64

import Rcc.Spans
import Rcc.DoubleBits

/-!
# The x86-64 code the generator prints

One `Op` is one printed instruction without control transfer, one `Line` one
line of a function body. The eight registers that the allocator deals in are
numbered as in `reg64`:

    0 %r10   1 %r11   2 %rbx   3 %r12   4 %r13   5 %r14   6 %r15   7 %rsi

`%rbp` does not move inside a body, so memory is addressed by the distance from
it: `-n(%rbp)` is address `-n`. The flags are those of the last comparison; what
arithmetic leaves in them is never read, and the model forgets it.
-/

namespace Rcc

open Spans (Mem)

/-- An index of `reg64`. -/
abbrev Reg := Fin 8

instance reg_ne_zero : NeZero 8 := ⟨by decide⟩

/-- `reg32` or `reg64`. -/
inductive Width where
  | l | q
deriving DecidableEq, Repr

/-- `reg8` or `reg16` -/
inductive Low where
  | b | w
deriving DecidableEq, Repr

def Low.bits : Low → Nat
  | .b => 8
  | .w => 16

/-- The two-operand instructions of the integer operators. -/
inductive AluOp where
  | add | sub | imul | and | xor | or
deriving DecidableEq, Repr

/-- The conditions of `set…` and `j…`. -/
inductive CC where
  | e | ne | l | le | g | ge | b | be | a | ae | p | np
deriving DecidableEq, Repr

inductive Op where
  /-- `mov $imm, dst` -/
  | movImm (w : Width) (imm : BitVec 32) (dst : Reg)
  /-- `movabs $imm, dst` -/
  | movabs (imm : BitVec 64) (dst : Reg)
  /-- `mov src, dst` on the full registers -/
  | mov (src dst : Reg)
  /-- `movslq r, r`, the low half extended to the full register -/
  | movslq (r : Reg)
  /-- `mov -off(%rbp), dst` -/
  | load (w : Width) (off : Nat) (dst : Reg)
  /-- `mov src, -off(%rbp)` -/
  | store (w : Width) (src : Reg) (off : Nat)
  | alu (op : AluOp) (w : Width) (src dst : Reg)
  | aluImm (op : AluOp) (w : Width) (imm : BitVec 32) (dst : Reg)
  /-- `shl $count, dst` -/
  | shl (w : Width) (count : Nat) (dst : Reg)
  /-- `cmp src, dst` -/
  | cmp (w : Width) (src dst : Reg)
  /-- `cmp $imm, dst` -/
  | cmpImm (w : Width) (imm : BitVec 32) (dst : Reg)
  /-- `cmp src, dst` on the low bytes or words -/
  | cmpLow (low : Low) (src dst : Reg)
  | cmpLowImm (low : Low) (imm : BitVec 32) (dst : Reg)
  /-- `movq dst, %xmm0`, `movq src, %xmm1`, `ucomisd %xmm1, %xmm0` -/
  | ucomisd (src dst : Reg)
  /-- `set… %al` -/
  | setcc (cc : CC)
  /-- `set… %al`, `set… %cl`, `andb %cl, %al` -/
  | setBoth (cc₁ cc₂ : CC)
  /-- the same with `orb` -/
  | setEither (cc₁ cc₂ : CC)
  /-- `movzbl %al, dst` -/
  | movzblAl (dst : Reg)
  /-- `movb $imm, -off(%rbp)` -/
  | movbImm (imm : BitVec 8) (off : Nat)
  /-- `movb %al, -off(%rbp)` -/
  | movbAl (off : Nat)
  /-- `movzbl -off(%rbp), dst` -/
  | movzbl (off : Nat) (dst : Reg)
  /-- `movs…` or `movz…` from the low byte or word of a register to the register -/
  | extend (signed : Bool) (low : Low) (w : Width) (r : Reg)
  /-- `mov r, r` on the low halves -/
  | mov32 (r : Reg)
  /-- `mov src, -off(%rbp)` of a low byte or word -/
  | storeLow (low : Low) (src : Reg) (off : Nat)
  /-- `mov src, (addr)` of so many bytes; an address is its distance from `%rbp` -/
  | put (size : Nat) (src addr : Reg)
  /-- `sar $count, r` -/
  | sar (w : Width) (count : Nat) (r : Reg)
  /-- `mov r, %rax`, `cqo`, `mov $imm, %r11`, `idiv %r11`, `mov %rax, r`, or the same on the low
  halves; nothing reads the remainder in `%rdx` -/
  | divide (w : Width) (imm : BitVec 32) (r : Reg)
  /-- `mov r, %eax` from a full register, which is no instruction -/
  | movEax (r : Reg)
  /-- `movabsq $mask, %rax` and `andq %rax, r` -/
  | andMask (mask : BitVec 64) (r : Reg)
deriving DecidableEq, Repr

inductive Line where
  | op (op : Op)
  | label (name : Nat)
  | jmp (target : Nat)
  | jcc (cc : CC) (target : Nat)
deriving DecidableEq, Repr

/-! ## The machine -/

structure Flags where
  zf : Bool
  sf : Bool
  cf : Bool
  of : Bool
  pf : Bool
deriving DecidableEq, Repr

/-- Has it an even number of ones? -/
def parity (b : BitVec 8) : Bool := (List.finRange 8).foldl (fun even i => even != b.getLsbD i) true

/-- What `cmp b, a` sets: the flags of `a - b`. -/
def Flags.ofSub {n : Nat} (a b : BitVec n) : Flags where
  zf := a - b == 0
  sf := (a - b).msb
  cf := a.ult b
  of := BitVec.ssubOverflow a b
  pf := parity ((a - b).setWidth 8)

/-- What `ucomisd b, a` sets. -/
def Flags.ofOrder (order : Option Ordering) : Flags where
  zf := order ≠ some .lt && order ≠ some .gt
  sf := false
  cf := order ≠ some .eq && order ≠ some .gt
  of := false
  pf := order = none

def CC.holds : CC → Flags → Bool
  | .e, f => f.zf
  | .ne, f => !f.zf
  | .l, f => f.sf != f.of
  | .le, f => f.zf || f.sf != f.of
  | .g, f => !(f.zf || f.sf != f.of)
  | .ge, f => f.sf == f.of
  | .b, f => f.cf
  | .be, f => f.cf || f.zf
  | .a, f => !(f.cf || f.zf)
  | .ae, f => !f.cf
  | .p, f => f.pf
  | .np, f => !f.pf

structure Machine where
  reg : Reg → BitVec 64
  al : BitVec 8
  /-- of the last comparison, when no arithmetic came after it -/
  flags : Option Flags
  mem : Mem

namespace Machine

def set (m : Machine) (r : Reg) (v : BitVec 64) : Machine :=
  { m with reg := Function.update m.reg r v }

/-- The low half, as `reg32` names it. -/
def get32 (m : Machine) (r : Reg) : BitVec 32 := (m.reg r).setWidth 32

/-- A write to the low half clears the high one. -/
def set32 (m : Machine) (r : Reg) (v : BitVec 32) : Machine := m.set r (v.setWidth 64)

/-- `k` bytes at `-off(%rbp)`. -/
def load (m : Machine) (off k : Nat) : Nat := Spans.load m.mem (-off) k

def store (m : Machine) (off k v : Nat) : Machine :=
  { m with mem := Spans.store m.mem (-off) k v }

@[simp] theorem set_reg (m : Machine) (r : Reg) (v : BitVec 64) :
    (m.set r v).reg = Function.update m.reg r v := rfl

@[simp] theorem set_mem (m : Machine) (r : Reg) (v : BitVec 64) : (m.set r v).mem = m.mem := rfl

@[simp] theorem store_reg (m : Machine) (off k v : Nat) : (m.store off k v).reg = m.reg := rfl

theorem set_reg_of_ne (m : Machine) {r q : Reg} (v : BitVec 64) (h : q ≠ r) :
    (m.set r v).reg q = m.reg q := by
  rw [set_reg, Function.update_of_ne h]

theorem get32_set32 (m : Machine) (r : Reg) (v : BitVec 32) : (m.set32 r v).get32 r = v := by
  simp only [get32, set32, set_reg, Function.update_self]
  exact BitVec.setWidth_setWidth_of_le v (by decide)

end Machine

def AluOp.apply {n : Nat} : AluOp → BitVec n → BitVec n → BitVec n
  | .add, a, b => a + b
  | .sub, a, b => a - b
  | .imul, a, b => a * b
  | .and, a, b => a &&& b
  | .xor, a, b => a ^^^ b
  | .or, a, b => a ||| b

/-- The low bits of a word, extended. -/
def extendLow (signed : Bool) (low : Low) (n : Nat) (v : BitVec 64) : BitVec n :=
  if signed then (v.setWidth low.bits).signExtend n else (v.setWidth low.bits).setWidth n

/-- What `idiv` leaves, unless it faults. -/
def quotient {n : Nat} (a b : BitVec n) : Option (BitVec n) :=
  let q := a.toInt.tdiv b.toInt
  if b.toInt = 0 ∨ (BitVec.ofInt n q).toInt ≠ q then none else some (BitVec.ofInt n q)

/-- One instruction, `none` where it reads flags that nothing has set. -/
def Op.run : Op → Machine → Option Machine
  | .movImm .l imm dst, m => some (m.set32 dst imm)
  | .movImm .q imm dst, m => some (m.set dst (imm.signExtend 64))
  | .movabs imm dst, m => some (m.set dst imm)
  | .mov src dst, m => some (m.set dst (m.reg src))
  | .movslq r, m => some (m.set r ((m.get32 r).signExtend 64))
  | .load .l off dst, m => some (m.set32 dst (BitVec.ofNat 32 (m.load off 4)))
  | .load .q off dst, m => some (m.set dst (BitVec.ofNat 64 (m.load off 8)))
  | .store .l src off, m => some (m.store off 4 (m.get32 src).toNat)
  | .store .q src off, m => some (m.store off 8 (m.reg src).toNat)
  | .alu op .l src dst, m =>
      some { m.set32 dst (op.apply (m.get32 dst) (m.get32 src)) with flags := none }
  | .alu op .q src dst, m =>
      some { m.set dst (op.apply (m.reg dst) (m.reg src)) with flags := none }
  | .aluImm op .l imm dst, m =>
      some { m.set32 dst (op.apply (m.get32 dst) imm) with flags := none }
  | .aluImm op .q imm dst, m =>
      some { m.set dst (op.apply (m.reg dst) (imm.signExtend 64)) with flags := none }
  | .shl .l count dst, m => some { m.set32 dst (m.get32 dst <<< count) with flags := none }
  | .shl .q count dst, m => some { m.set dst (m.reg dst <<< count) with flags := none }
  | .cmp .l src dst, m => some { m with flags := some (.ofSub (m.get32 dst) (m.get32 src)) }
  | .cmp .q src dst, m => some { m with flags := some (.ofSub (m.reg dst) (m.reg src)) }
  | .cmpImm .l imm dst, m => some { m with flags := some (.ofSub (m.get32 dst) imm) }
  | .cmpImm .q imm dst, m => some { m with flags := some (.ofSub (m.reg dst) (imm.signExtend 64)) }
  | .cmpLow low src dst, m =>
      some { m with flags := some (.ofSub ((m.reg dst).setWidth low.bits) ((m.reg src).setWidth low.bits)) }
  | .cmpLowImm low imm dst, m => some { m with flags := some (.ofSub ((m.reg dst).setWidth low.bits) (imm.setWidth low.bits)) }
  | .ucomisd src dst, m => some { m with flags := some (.ofOrder (Double.compare (m.reg dst) (m.reg src))) }
  | .setcc cc, m => m.flags.map fun f => { m with al := if cc.holds f then 1 else 0 }
  | .setBoth cc₁ cc₂, m => m.flags.map fun f => { m with al := if cc₁.holds f && cc₂.holds f then 1 else 0, flags := none }
  | .setEither cc₁ cc₂, m => m.flags.map fun f => { m with al := if cc₁.holds f || cc₂.holds f then 1 else 0, flags := none }
  | .movzblAl dst, m => some (m.set32 dst (m.al.setWidth 32))
  | .movbImm imm off, m => some (m.store off 1 imm.toNat)
  | .movbAl off, m => some (m.store off 1 m.al.toNat)
  | .movzbl off dst, m => some (m.set32 dst (BitVec.ofNat 32 (m.load off 1)))
  | .extend signed low .l r, m => some (m.set32 r (extendLow signed low 32 (m.reg r)))
  | .extend signed low .q r, m => some (m.set r (extendLow signed low 64 (m.reg r)))
  | .mov32 r, m => some (m.set32 r (m.get32 r))
  | .storeLow low src off, m => some (m.store off (low.bits / 8) (m.reg src).toNat)
  | .put size src addr, m => some { m with mem := Spans.store m.mem (m.reg addr).toInt size (m.reg src).toNat }
  | .sar .l count r, m => some { m.set32 r ((m.get32 r).sshiftRight count) with flags := none }
  | .sar .q count r, m => some { m.set r ((m.reg r).sshiftRight count) with flags := none }
  -- `%r11` is a register that is handed out
  | .divide .l imm r, m =>
      (quotient (m.get32 r) imm).map fun q =>
        { (m.set32 1 imm).set32 r q with al := q.setWidth 8, flags := none }
  | .divide .q imm r, m =>
      (quotient (m.reg r) (imm.signExtend 64)).map fun q =>
        { (m.set 1 (imm.signExtend 64)).set r q with al := q.setWidth 8, flags := none }
  | .movEax _, _ => none
  | .andMask mask r, m => some { m.set r (m.reg r &&& mask) with al := mask.setWidth 8, flags := none }

/-- Straight-line code; there is no result where a jump is met. -/
def exec : List Line → Machine → Option Machine
  | [], m => some m
  | .op o :: rest, m => (o.run m).bind (exec rest)
  | .label _ :: rest, m => exec rest m
  | .jmp _ :: _, _ | .jcc _ _ :: _, _ => none

theorem exec_append (c d : List Line) (m : Machine) :
    exec (c ++ d) m = (exec c m).bind (exec d) := by
  induction c generalizing m with
  | nil => rfl
  | cons line rest ih =>
      cases line with
      | op o =>
          show (o.run m).bind (exec (rest ++ d)) = ((o.run m).bind (exec rest)).bind (exec d)
          rw [Option.bind_assoc]
          exact congrArg _ (funext ih)
      | label name => exact ih m
      | jmp target => rfl
      | jcc cc target => rfl

/-- Code that runs, and then more that runs. -/
theorem exec_append_of_some {c d : List Line} {m m₁ m₂ : Machine} (hc : exec c m = some m₁)
    (hd : exec d m₁ = some m₂) : exec (c ++ d) m = some m₂ := by
  rw [exec_append, hc, Option.bind_some, hd]

/-! ## The flags of a comparison -/

theorem CC.holds_e {n : Nat} (a b : BitVec n) : CC.e.holds (.ofSub a b) = decide (a = b) := by
  rw [Bool.eq_iff_iff]
  simp only [holds, Flags.ofSub, beq_iff_eq, decide_eq_true_eq]
  rw [BitVec.sub_eq_iff_eq_add, BitVec.ofNat_eq_ofNat, BitVec.zero_add]

theorem CC.holds_ne {n : Nat} (a b : BitVec n) : CC.ne.holds (.ofSub a b) = decide (a ≠ b) := by
  have h := holds_e a b
  simp only [holds] at h ⊢
  rw [h, decide_not]

theorem CC.holds_b {n : Nat} (a b : BitVec n) : CC.b.holds (.ofSub a b) = a.ult b := rfl

/-- The sign of the difference, corrected by the overflow, is the order. -/
theorem CC.holds_l {n : Nat} (a b : BitVec n) : CC.l.holds (.ofSub a b) = a.slt b := by
  simp only [holds, Flags.ofSub, BitVec.msb_eq_toInt, BitVec.toInt_sub, BitVec.ssubOverflow,
    BitVec.slt]
  have ha := BitVec.toInt_lt (x := a)
  have ha' := BitVec.le_toInt a
  have hb := BitVec.toInt_lt (x := b)
  have hb' := BitVec.le_toInt b
  cases n with
  | zero => rw [BitVec.eq_nil a, BitVec.eq_nil b]; rfl
  | succ n =>
      simp only [Nat.add_sub_cancel] at ha ha' hb hb' ⊢
      generalize a.toInt = x, b.toInt = y at ha ha' hb hb' ⊢
      have hpow : ((2 ^ (n + 1) : Nat) : Int) = 2 * 2 ^ n := by
        rw [Nat.cast_pow, pow_succ, mul_comm]
        rfl
      have hpos : (0 : Int) < 2 ^ n := Int.pow_pos (by decide)
      have hmod : ∀ c, (x - y).bmod (2 ^ (n + 1)) = c ↔ _ := fun c =>
        Int.bmod_eq_iff (Nat.two_pow_pos (n + 1))
      simp only [hpow] at hmod
      generalize (2 : Int) ^ n = h at ha ha' hb hb' hpow hpos hmod ⊢
      by_cases hover : h ≤ x - y
      · rw [(hmod (x - y - 2 * h)).mpr ⟨by omega, by omega, ⟨-1, by ring⟩⟩]
        rw [decide_eq_true (show x - y - 2 * h < 0 by omega), decide_eq_true hover,
          decide_eq_false (show ¬ x < y by omega), Bool.true_or]
        rfl
      · by_cases hunder : x - y < -h
        · rw [(hmod (x - y + 2 * h)).mpr ⟨by omega, by omega, ⟨1, by ring⟩⟩]
          rw [decide_eq_false (show ¬ x - y + 2 * h < 0 by omega), decide_eq_true hunder,
            decide_eq_true (show x < y by omega), Bool.or_true]
          rfl
        · rw [(hmod (x - y)).mpr ⟨by omega, by omega, ⟨0, by ring⟩⟩]
          rw [decide_eq_false hover, decide_eq_false hunder, Bool.or_false, Bool.bne_false]
          exact decide_eq_decide.mpr (by omega)

theorem CC.holds_le {n : Nat} (a b : BitVec n) : CC.le.holds (.ofSub a b) = a.sle b := by
  have he := holds_e a b
  have hl := holds_l a b
  simp only [holds] at he hl ⊢
  rw [he, hl, Bool.eq_iff_iff]
  simp only [Bool.or_eq_true, decide_eq_true_eq, BitVec.slt, BitVec.sle]
  rw [← BitVec.toInt_inj]
  omega

theorem CC.holds_be {n : Nat} (a b : BitVec n) : CC.be.holds (.ofSub a b) = a.ule b := by
  have he := holds_e a b
  have hb := holds_b a b
  simp only [holds] at he hb ⊢
  rw [he, hb, Bool.eq_iff_iff, Bool.or_eq_true, decide_eq_true_eq, BitVec.ult_iff_lt, BitVec.ule_iff_le,
    BitVec.lt_def, BitVec.le_def, ← BitVec.toNat_inj]
  exact Nat.le_iff_lt_or_eq.symm

end Rcc

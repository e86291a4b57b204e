import Rcc.Jump
import Rcc.GenPointerSound

/-!
# Branching on a condition

`gen_cond_branch_inv` jumps if a condition is false. It prints comparisons for a second time, with
a branch on the flags where `gen` has a `set`; any other condition it takes from `gen`, and compares it with 0
at the size of its type.

Both begin with the same code for the operands. What comes behind that is compared here, from
the same machine: is the jump taken just when the value is zero?
-/

namespace Rcc.CondBranch

open Rcc.Convert
open Rcc.Pointers (regWidth)

/-! ## What is printed -/

/-- `cmp` of two registers, as `reg(r, sz)` names them. -/
def compareLine (sz : Nat) (src dst : Reg) : Line :=
  if sz = 1 then .op (.cmpLow .b src dst)
  else if sz = 2 then .op (.cmpLow .w src dst)
  else .op (.cmp (regWidth sz) src dst)

/-- `cmp` with a constant -/
def compareImm (sz : Nat) (imm : BitVec 32) (dst : Reg) : Line :=
  if sz = 1 then .op (.cmpLowImm .b imm dst)
  else if sz = 2 then .op (.cmpLowImm .w imm dst)
  else .op (.cmpImm (regWidth sz) imm dst)

/-- `sz` of a comparison -/
def compareSize (lhs rhs : Ty) : Nat := if opSize lhs < opSize rhs then opSize rhs else opSize lhs

/-- Does `gen` extend the right operand? -/
def widensRhs (lhs rhs : Ty) : Bool :=
  compareSize lhs rhs == 8 && opSize rhs == 4 && !(isInteger rhs && rhs.isUnsigned)

/-- The value of a comparison of doubles. -/
def floatSet (kind : BinKind) (dst : Reg) : List Line :=
  match kind with
  | .eq => [.op (.setBoth .e .np), .op (.movzblAl dst)]
  | .ne => [.op (.setEither .ne .p), .op (.movzblAl dst)]
  | .lt => [.op (.setcc .b), .op (.movzblAl dst)]
  | .le => [.op (.setcc .be), .op (.movzblAl dst)]
  | _ => []

/-- `gen` of a comparison -/
def genCompare (kind : BinKind) (lhs rhs : Node Ty) (genLhs genRhs : Gen Reg) : Gen Reg := do
  let rLhs ← genLhs
  if isFlonum lhs.ty || isFlonum rhs.ty then
    let rRhs ← genRhs
    Gen.emit [.op (.ucomisd rRhs rLhs)]
    Gen.emit (floatSet kind rLhs)
    freeReg rRhs
    pure rLhs
  else
    match immediate rhs with
    | some imm =>
        Gen.emit [compareImm (compareSize lhs.ty rhs.ty) imm rLhs]
        Gen.emit (setLines kind (useUnsignedCmp lhs.ty rhs.ty) rLhs)
        pure rLhs
    | none =>
        let rRhs ← genRhs
        Gen.emit (if widensRhs lhs.ty rhs.ty then [.op (.movslq rRhs)] else [])
        Gen.emit [compareLine (compareSize lhs.ty rhs.ty) rRhs rLhs]
        freeReg rRhs
        Gen.emit (setLines kind (useUnsignedCmp lhs.ty rhs.ty) rLhs)
        pure rLhs

/-- `gen`; `other` generates what is no comparison. -/
def gen (other : Node Ty → Gen Reg) : Node Ty → Gen Reg
  | .bin kind lhs rhs ty =>
      if kind.isCompare then genCompare kind lhs rhs (gen other lhs) (gen other rhs)
      else other (.bin kind lhs rhs ty)
  | n => other n

/-- `++rcc_label_count` -/
def nextLabel : Gen Nat := fun s => some (s.labelCount + 1, [], { s with labelCount := s.labelCount + 1 })

/-- The jumps after a comparison of doubles. -/
def floatJumps (kind : BinKind) (label : Nat) : Gen Unit :=
  match kind with
  | .eq => Gen.emit [.jcc .ne label, .jcc .p label]
  | .ne => do
      let skip ← nextLabel
      Gen.emit [.jcc .p skip, .jcc .e label, .label skip]
  | .lt => Gen.emit [.jcc .ae label, .jcc .p label]
  | .le => Gen.emit [.jcc .a label, .jcc .p label]
  | _ => pure ()

/-- `jmp`, for the comparisons -/
def jump (isUnsigned : Bool) : BinKind → Option CC
  | .eq => some .ne
  | .ne => some .e
  | .lt => some (if isUnsigned then .ae else .ge)
  | .le => some (if isUnsigned then .a else .g)
  | _ => none

def jumpLines (kind : BinKind) (isUnsigned : Bool) (label : Nat) : List Line :=
  ((jump isUnsigned kind).map fun cc => .jcc cc label).toList

/-- The first part of `gen_cond_branch_inv`. -/
def genCompareBranch (gen : Node Ty → Gen Reg) (label : Nat) (kind : BinKind) (lhs rhs : Node Ty) : Gen Unit :=
  if isFlonum lhs.ty then do
    let rLhs ← gen lhs
    let rRhs ← gen rhs
    Gen.emit [.op (.ucomisd rRhs rLhs)]
    floatJumps kind label
    freeReg rRhs
    freeReg rLhs
  else do
    let rLhs ← gen lhs
    match immediate rhs with
    | some imm => Gen.emit [compareImm (compareSize lhs.ty rhs.ty) imm rLhs]
    | none =>
        let rRhs ← gen rhs
        Gen.emit [compareLine (compareSize lhs.ty rhs.ty) rRhs rLhs]
        freeReg rRhs
    freeReg rLhs
    Gen.emit (jumpLines kind (useUnsignedCmp lhs.ty rhs.ty) label)

/-- The second part. -/
def genTest (value : Gen Reg) (ty : Ty) (label : Nat) : Gen Unit := do
  let r ← value
  Gen.emit [compareImm ty.size 0 r]
  freeReg r
  Gen.emit [.jcc .e label]

def genCondBranchInv (gen : Node Ty → Gen Reg) (label : Nat) : Node Ty → Gen Unit
  | .bin kind lhs rhs ty =>
      if kind.isCompare then genCompareBranch gen label kind lhs rhs
      else genTest (gen (.bin kind lhs rhs ty)) ty label
  | n => genTest (gen n) n.ty label

/-! ## When they agree -/

/-- A value of the type in a register is zero. -/
def IsZero (ty : Ty) (w : BitVec 64) : Prop :=
  if isFlonum ty then Double.magnitude w = 0
  else if isInteger ty then w.setWidth (8 * opSize ty) = 0
  else w = 0

/-- The bits that `reg(r, size)` names. -/
def regBits (size : Nat) : Nat := if size = 1 then 8 else if size = 2 then 16 else if size = 4 then 32 else 64

/-- The register is zero if those bits of it are that are as many as the type has. -/
def TestedWhole (ty : Ty) (w : BitVec 64) : Prop :=
  if isFlonum ty then
    -- a `float` is a double in its register
    if ty.size = 4 then w.setWidth 32 = 0 → Double.magnitude w = 0 else w ≠ Double.negZero
  else if isInteger ty then w.setWidth (8 * ty.size) = 0 → w.setWidth (8 * opSize ty) = 0
  else w.setWidth (regBits ty.size) = 0 → w = 0

/-- The order of two registers at a size. -/
def holds (kind : BinKind) (isUnsigned : Bool) (sz : Nat) (x y : BitVec 64) : Bool :=
  match kind with
  | .eq => x.setWidth (regBits sz) = y.setWidth (regBits sz)
  | .ne => x.setWidth (regBits sz) ≠ y.setWidth (regBits sz)
  | .lt => if isUnsigned then (x.setWidth (regBits sz)).ult (y.setWidth (regBits sz))
      else (x.setWidth (regBits sz)).slt (y.setWidth (regBits sz))
  | .le => if isUnsigned then (x.setWidth (regBits sz)).ule (y.setWidth (regBits sz))
      else (x.setWidth (regBits sz)).sle (y.setWidth (regBits sz))
  | _ => false

/-- From a machine on, the code of a branch jumps if and only if the code of a value leaves zero, under a condition and
only then. -/
def Agree (value branch : List Line) (label : Nat) (ty : Ty) (r : Reg) (m : Machine) (condition : Prop) : Prop :=
  ∃ mv t mb, exec value m = some mv ∧ runTo branch none m = some (t, mb) ∧ (t = none ∨ t = some label) ∧
    ((t = some label ↔ IsZero ty (mv.reg r)) ↔ condition)

/-! ## Values of comparisons -/

variable {kind : BinKind} {m : Machine} {f : Flags} {label : Nat}

/-- 0 or 1, as `movzbl` leaves it -/
def bit (b : Bool) : BitVec 64 := if b then 1 else 0

theorem isZero_bit (b : Bool) : IsZero tyInt (bit b) ↔ b = false := by
  have hint : IsZero tyInt (bit b) ↔ (bit b).setWidth 32 = 0 := Iff.rfl
  rw [hint]
  cases b <;> decide

theorem bit_of_al (b : Bool) : ((if b then 1 else 0 : BitVec 8).setWidth 32).setWidth 64 = bit b := by
  cases b <;> rfl

/-- A value and a jump. -/
theorem jumps_iff {b jumps condition : Bool} (h : jumps = (condition == !b)) (label : Nat) :
    ((if jumps then some label else none) = some label ↔ IsZero tyInt (bit b)) ↔ condition = true := by
  subst h
  rw [isZero_bit]
  cases b <;> cases condition <;> simp

theorem exec_movzblAl {lines : List Line} {m₁ : Machine} (dst : Reg) {b : Bool} (hrun : exec lines m = some m₁)
    (hal : m₁.al = if b then 1 else 0) :
    ∃ m', exec (lines ++ [.op (.movzblAl dst)]) m = some m' ∧ m'.reg dst = bit b ∧ ∀ q, q ≠ dst → m'.reg q = m₁.reg q := by
  refine ⟨_, exec_append_of_some hrun rfl, ?_, fun q hq => m₁.set_reg_of_ne _ hq⟩
  show Function.update m₁.reg dst _ dst = _
  rw [Function.update_self, hal, bit_of_al]

/-- `set` and `movzbl` -/
theorem exec_setLines {isUnsigned : Bool} {cc : CC} (hset : kind.set isUnsigned = some cc) (dst : Reg) (hflags : m.flags = some f) :
    ∃ m', exec (setLines kind isUnsigned dst) m = some m' ∧ m'.reg dst = bit (cc.holds f) := by
  have hrun : exec [.op (.setcc cc)] m = some { m with al := if cc.holds f then 1 else 0 } := by
    refine exec_one ?_
    rw [Op.run, hflags]
    rfl
  obtain ⟨m', hexec, hvalue, _⟩ := exec_movzblAl dst hrun rfl
  rw [setLines, hset]
  exact ⟨m', hexec, hvalue⟩

/-! ## Floating-point comparisons -/

/-- The value of a comparison of doubles, from the flags. -/
def floatHolds (kind : BinKind) (f : Flags) : Bool :=
  match kind with
  | .eq => CC.e.holds f && CC.np.holds f
  | .ne => CC.ne.holds f || CC.p.holds f
  | .lt => CC.b.holds f
  | .le => CC.be.holds f
  | _ => false

/-- Is the jump taken? -/
def floatTaken (kind : BinKind) (f : Flags) : Bool :=
  match kind with
  | .eq => CC.ne.holds f || CC.p.holds f
  | .ne => !CC.p.holds f && CC.e.holds f
  | .lt => CC.ae.holds f || CC.p.holds f
  | .le => CC.a.holds f || CC.p.holds f
  | _ => false

/-- An order, or doubles that have none, which `<` and `<=` find in order. -/
theorem floatTaken_eq (hkind : kind.isCompare = true) (order : Option Ordering) :
    floatTaken kind (.ofOrder order) = (decide (kind = .lt ∨ kind = .le → order ≠ none) == !floatHolds kind (.ofOrder order)) := by
  have hcases : kind = .eq ∨ kind = .ne ∨ kind = .lt ∨ kind = .le := by
    cases kind <;> simp_all [BinKind.isCompare]
  rcases hcases with rfl | rfl | rfl | rfl <;> rcases order with _ | _ | _ | _ <;> decide

theorem exec_floatSet (hkind : kind.isCompare = true) (dst : Reg) (hflags : m.flags = some f) :
    ∃ m', exec (floatSet kind dst) m = some m' ∧ m'.reg dst = bit (floatHolds kind f) ∧ ∀ q, q ≠ dst → m'.reg q = m.reg q := by
  have hset : ∀ cc : CC, exec [.op (.setcc cc)] m = some { m with al := if cc.holds f then 1 else 0 } := by
    intro cc
    refine exec_one ?_
    rw [Op.run, hflags]
    rfl
  cases kind with
  | eq =>
      have hrun : exec [.op (.setBoth .e .np)] m =
          some { m with al := if CC.e.holds f && CC.np.holds f then 1 else 0, flags := none } := by
        refine exec_one ?_
        rw [Op.run, hflags]
        rfl
      exact exec_movzblAl dst hrun rfl
  | ne =>
      have hrun : exec [.op (.setEither .ne .p)] m =
          some { m with al := if CC.ne.holds f || CC.p.holds f then 1 else 0, flags := none } := by
        refine exec_one ?_
        rw [Op.run, hflags]
        rfl
      exact exec_movzblAl dst hrun rfl
  | lt => exact exec_movzblAl dst (hset .b) rfl
  | le => exact exec_movzblAl dst (hset .be) rfl
  | _ => cases hkind

/-- Two jumps to the label, the second one if the first is not taken. -/
theorem runTo_jumps (cc₁ cc₂ : CC) (label : Nat) (hflags : m.flags = some f) :
    runTo [.jcc cc₁ label, .jcc cc₂ label] none m = some (if cc₁.holds f || cc₂.holds f then some label else none, m) := by
  rw [runTo_jcc hflags]
  cases cc₁.holds f with
  | true => exact runTo_skip (by simp) m
  | false => exact runTo_jcc hflags cc₂ label []

/-- The jumps of a comparison, whose label was there before those that are counted now. -/
theorem floatJumps_spec (hkind : kind.isCompare = true) (label : Nat) {s : GenState} (hlabel : label ≤ s.labelCount) :
    ∃ lines s', floatJumps kind label s = some ((), lines, s') ∧ s'.used = s.used ∧
      ∀ m f, m.flags = some f → runTo lines none m = some (if floatTaken kind f then some label else none, m) := by
  cases kind with
  | eq => exact ⟨_, s, rfl, rfl, fun m f hflags => runTo_jumps .ne .p label hflags⟩
  | ne =>
      refine ⟨_, _, rfl, rfl, fun m f hflags => ?_⟩
      show runTo [.jcc .p (s.labelCount + 1), .jcc .e label, .label (s.labelCount + 1)] none m = _
      have hne : Line.label (s.labelCount + 1) ≠ .label label := fun heq => by
        have := Line.label.inj heq
        omega
      rw [runTo_jcc hflags, floatTaken]
      cases CC.p.holds f with
      | true =>
          show runTo [.jcc .e label, .label (s.labelCount + 1)] (some (s.labelCount + 1)) m = some (none, m)
          rw [runTo, if_neg (fun heq => by cases heq)]
          exact runTo_label _ [] m
      | false =>
          show runTo [.jcc .e label, .label (s.labelCount + 1)] none m = some (if CC.e.holds f then some label else none, m)
          rw [runTo_jcc hflags]
          cases CC.e.holds f with
          | true => exact runTo_skip (by simpa using hne.symm) m
          | false => rfl
  | lt => exact ⟨_, s, rfl, rfl, fun m f hflags => runTo_jumps .ae .p label hflags⟩
  | le => exact ⟨_, s, rfl, rfl, fun m f hflags => runTo_jumps .a .p label hflags⟩
  | _ => cases hkind

/-! ## Other comparisons -/

/-- The flags of a comparison at a size. -/
def flagsOf (sz : Nat) (x y : BitVec 64) : Flags := .ofSub (x.setWidth (regBits sz)) (y.setWidth (regBits sz))

theorem exec_compareLine (sz : Nat) (src dst : Reg) (m : Machine) :
    exec [compareLine sz src dst] m = some { m with flags := some (flagsOf sz (m.reg dst) (m.reg src)) } := by
  rw [compareLine, flagsOf, regBits]
  by_cases h1 : sz = 1
  · rw [if_pos h1, if_pos h1]
    rfl
  rw [if_neg h1, if_neg h1]
  by_cases h2 : sz = 2
  · rw [if_pos h2, if_pos h2]
    rfl
  rw [if_neg h2, if_neg h2, regWidth]
  by_cases h4 : sz = 4
  · rw [if_pos h4, if_pos h4]
    rfl
  rw [if_neg h4, if_neg h4, BitVec.setWidth_eq, BitVec.setWidth_eq]
  rfl

theorem exec_compareImm (sz : Nat) (imm : BitVec 32) (dst : Reg) (m : Machine) :
    exec [compareImm sz imm dst] m = some { m with flags := some (flagsOf sz (m.reg dst) (imm.signExtend 64)) } := by
  have hlow : ∀ k ≤ 32, (imm.signExtend 64).setWidth k = imm.setWidth k := by
    intro k hk
    refine BitVec.eq_of_getLsbD_eq fun j hj => ?_
    rw [BitVec.getLsbD_setWidth, BitVec.getLsbD_signExtend, BitVec.getLsbD_setWidth, if_pos (by omega),
      decide_eq_true (show j < 64 by omega), Bool.true_and]
  rw [compareImm, flagsOf, regBits]
  by_cases h1 : sz = 1
  · rw [if_pos h1, if_pos h1, hlow 8 (by decide)]
    rfl
  rw [if_neg h1, if_neg h1]
  by_cases h2 : sz = 2
  · rw [if_pos h2, if_pos h2, hlow 16 (by decide)]
    rfl
  rw [if_neg h2, if_neg h2, regWidth]
  by_cases h4 : sz = 4
  · rw [if_pos h4, if_pos h4, hlow 32 (by decide), BitVec.setWidth_eq]
    rfl
  rw [if_neg h4, if_neg h4, BitVec.setWidth_eq, BitVec.setWidth_eq]
  rfl

/-- The `set` and the jump of a comparison are opposites. -/
theorem set_jump (hkind : kind.isCompare = true) (isUnsigned : Bool) :
    ∃ cc cc', kind.set isUnsigned = some cc ∧ jump isUnsigned kind = some cc' ∧
      (∀ f, cc'.holds f = !cc.holds f) ∧ ∀ sz x y, cc.holds (flagsOf sz x y) = holds kind isUnsigned sz x y := by
  have hge : ∀ f, CC.ge.holds f = !CC.l.holds f := fun f => by
    rw [CC.holds, CC.holds]
    cases f.sf <;> cases f.of <;> rfl
  cases kind with
  | eq => exact ⟨_, _, rfl, rfl, fun f => rfl, fun sz x y => CC.holds_e _ _⟩
  | ne => exact ⟨_, _, rfl, rfl, fun f => (Bool.not_not _).symm, fun sz x y => CC.holds_ne _ _⟩
  | lt =>
      cases isUnsigned with
      | true => exact ⟨_, _, rfl, rfl, fun f => rfl, fun sz x y => CC.holds_b _ _⟩
      | false => exact ⟨_, _, rfl, rfl, hge, fun sz x y => CC.holds_l _ _⟩
  | le =>
      cases isUnsigned with
      | true => exact ⟨_, _, rfl, rfl, fun f => rfl, fun sz x y => CC.holds_be _ _⟩
      | false => exact ⟨_, _, rfl, rfl, fun f => rfl, fun sz x y => CC.holds_le _ _⟩
  | _ => cases hkind

theorem runTo_jumpLines {isUnsigned : Bool} {cc : CC} (hjump : jump isUnsigned kind = some cc) (label : Nat) (hflags : m.flags = some f) :
    runTo (jumpLines kind isUnsigned label) none m = some (if cc.holds f then some label else none, m) := by
  rw [jumpLines, hjump]
  exact runTo_jcc hflags cc label []

/-! ## Both together -/

variable {other : Node Ty → Gen Reg} {lhs rhs : Node Ty} {s s₁ s₂ : GenState} {r₁ r₂ : Reg} {c₁ c₂ : List Line}

/-- What a comparison prints as a value and as a branch begins with the same code, and then they agree under a condition. -/
def Compares (other : Node Ty → Gen Reg) (label : Nat) (kind : BinKind) (lhs rhs : Node Ty) (s : GenState) (pre : List Line)
    (condition : Machine → Prop) : Prop :=
  ∃ r value branch s' s'', gen other (.bin kind lhs rhs tyInt) s = some (r, pre ++ value, s') ∧
    genCondBranchInv (gen other) label (.bin kind lhs rhs tyInt) s = some ((), pre ++ branch, s'') ∧
    ∀ m, Agree value branch label tyInt r m (condition m)

/-- Two flags that the value and the branch look at. -/
theorem agree_of_flags {value branch : List Line} {b b' : Bool} {mv mb : Machine} {condition : Prop}
    (hvalue : exec value m = some mv) (hbit : mv.reg r₁ = bit b)
    (hbranch : runTo branch none m = some (if b' then some label else none, mb)) (hcondition : (b' = !b) ↔ condition) :
    Agree value branch label tyInt r₁ m condition := by
  refine ⟨mv, _, mb, hvalue, hbranch, ?_, ?_⟩
  · cases b' <;> simp
  · rw [hbit, isZero_bit, ← hcondition]
    cases b <;> cases b' <;> simp

theorem compares_imm (hkind : kind.isCompare = true) (label : Nat) (hfloat : isFlonum lhs.ty = false) {imm : BitVec 32}
    (himm : immediate rhs = some imm) (hrhs : isFlonum rhs.ty = false) (hl : gen other lhs s = some (r₁, c₁, s₁)) :
    Compares other label kind lhs rhs s c₁ fun _ => True := by
  obtain ⟨cc, cc', hset, hjump, hopposite, _⟩ := set_jump hkind (useUnsignedCmp lhs.ty rhs.ty)
  obtain ⟨back, s₂, hfree, _, hback⟩ := freeReg_quiet r₁ s₁
  refine ⟨r₁, [compareImm (compareSize lhs.ty rhs.ty) imm r₁] ++ (setLines kind (useUnsignedCmp lhs.ty rhs.ty) r₁ ++ []),
    [compareImm (compareSize lhs.ty rhs.ty) imm r₁] ++ (back ++ jumpLines kind (useUnsignedCmp lhs.ty rhs.ty) label),
    s₁, s₂, ?_, ?_, fun m => ?_⟩
  · rw [gen, if_pos hkind, genCompare]
    refine Gen.bind_eq_some.mpr ⟨r₁, c₁, s₁, _, hl, ?_, rfl⟩
    rw [hfloat, hrhs, himm]
    rfl
  · rw [genCondBranchInv, if_pos hkind, genCompareBranch, if_neg (by rw [hfloat]; decide)]
    refine Gen.bind_eq_some.mpr ⟨r₁, c₁, s₁, _, hl, ?_, rfl⟩
    rw [himm]
    exact Gen.bind_eq_some.mpr ⟨(), _, s₁, _, rfl, Gen.bind_eq_some.mpr ⟨(), back, s₂, _, hfree, rfl, rfl⟩, rfl⟩
  · have hcompare := exec_compareImm (compareSize lhs.ty rhs.ty) imm r₁ m
    generalize flagsOf (compareSize lhs.ty rhs.ty) (m.reg r₁) (imm.signExtend 64) = f at hcompare
    obtain ⟨mv, hvalue, hbit⟩ := exec_setLines hset r₁ (show Machine.flags { m with flags := some f } = some f from rfl)
    obtain ⟨mb, hrun, hflags, _⟩ := hback { m with flags := some f }
    rw [List.append_nil]
    have hbranch := runTo_jumpLines hjump label hflags
    rw [← runTo_append_of_some (runTo_of_exec hrun), ← runTo_append_of_some (runTo_of_exec hcompare)] at hbranch
    exact agree_of_flags (exec_append_of_some hcompare hvalue) hbit hbranch (iff_of_true (hopposite f) trivial)

/-- Only the value has the right operand extended. -/
def Widened (kind : BinKind) (lhs rhs : Ty) (r₁ r₂ : Reg) (m : Machine) : Prop :=
  widensRhs lhs rhs = true → r₁ ≠ r₂ →
    holds kind (useUnsignedCmp lhs rhs) 8 (m.reg r₁) (((m.reg r₂).setWidth 32).signExtend 64) =
      holds kind (useUnsignedCmp lhs rhs) 8 (m.reg r₁) (m.reg r₂)

theorem holds_self (hkind : kind.isCompare = true) (isUnsigned : Bool) (sz : Nat) (x y : BitVec 64) :
    holds kind isUnsigned sz x x = holds kind isUnsigned sz y y := by
  cases kind with
  | eq => exact (decide_eq_true rfl).trans (decide_eq_true rfl).symm
  | ne => exact (decide_eq_false fun h => h rfl).trans (decide_eq_false fun h => h rfl).symm
  | lt => cases isUnsigned <;> simp [holds, BitVec.ult, BitVec.slt]
  | le => cases isUnsigned <;> simp [holds, BitVec.ule, BitVec.sle]
  | _ => cases hkind

theorem compares_reg (hkind : kind.isCompare = true) (label : Nat) (hfloat : isFlonum lhs.ty = false) (himm : immediate rhs = none)
    (hrhs : isFlonum rhs.ty = false) (hl : gen other lhs s = some (r₁, c₁, s₁)) (hr : gen other rhs s₁ = some (r₂, c₂, s₂)) :
    Compares other label kind lhs rhs s (c₁ ++ c₂) (Widened kind lhs.ty rhs.ty r₁ r₂) := by
  obtain ⟨cc, cc', hset, hjump, hopposite, hholds⟩ := set_jump hkind (useUnsignedCmp lhs.ty rhs.ty)
  obtain ⟨back₂, s₃, hfree₂, _, hback₂⟩ := freeReg_quiet r₂ s₂
  obtain ⟨back₁, s₄, hfree₁, _, hback₁⟩ := freeReg_quiet r₁ s₃
  generalize hsz : compareSize lhs.ty rhs.ty = sz at *
  refine ⟨r₁, (if widensRhs lhs.ty rhs.ty then [.op (.movslq r₂)] else []) ++ ([compareLine sz r₂ r₁] ++
      (back₂ ++ (setLines kind (useUnsignedCmp lhs.ty rhs.ty) r₁ ++ []))),
    [compareLine sz r₂ r₁] ++ (back₂ ++ (back₁ ++ jumpLines kind (useUnsignedCmp lhs.ty rhs.ty) label)), s₃, s₄, ?_, ?_, fun m => ?_⟩
  · rw [gen, if_pos hkind, genCompare]
    refine Gen.bind_eq_some.mpr ⟨r₁, c₁, s₁, _, hl, ?_, List.append_assoc _ _ _⟩
    rw [hfloat, hrhs, himm, hsz]
    refine Gen.bind_eq_some.mpr ⟨r₂, c₂, s₂, _, hr, ?_, rfl⟩
    refine Gen.bind_eq_some.mpr ⟨(), _, s₂, _, rfl, ?_, rfl⟩
    refine Gen.bind_eq_some.mpr ⟨(), _, s₂, _, rfl, ?_, rfl⟩
    exact Gen.bind_eq_some.mpr ⟨(), back₂, s₃, _, hfree₂, rfl, rfl⟩
  · rw [genCondBranchInv, if_pos hkind, genCompareBranch, if_neg (by rw [hfloat]; decide)]
    refine Gen.bind_eq_some.mpr ⟨r₁, c₁, s₁, _, hl, ?_, List.append_assoc _ _ _⟩
    rw [himm, hsz]
    refine Gen.bind_eq_some.mpr ⟨r₂, c₂, s₂, _, hr, ?_, rfl⟩
    refine Gen.bind_eq_some.mpr ⟨(), _, s₂, _, rfl, ?_, rfl⟩
    refine Gen.bind_eq_some.mpr ⟨(), back₂, s₃, _, hfree₂, ?_, rfl⟩
    exact Gen.bind_eq_some.mpr ⟨(), back₁, s₄, _, hfree₁, rfl, rfl⟩
  · obtain ⟨m₁, hwiden, hregs⟩ : ∃ m₁, exec (if widensRhs lhs.ty rhs.ty then [.op (.movslq r₂)] else []) m = some m₁ ∧
        m₁.reg = if widensRhs lhs.ty rhs.ty then Function.update m.reg r₂ (((m.reg r₂).setWidth 32).signExtend 64) else m.reg := by
      cases widensRhs lhs.ty rhs.ty with
      | true => exact ⟨_, rfl, rfl⟩
      | false => exact ⟨m, rfl, rfl⟩
    have hcompare := exec_compareLine sz r₂ r₁ m₁
    have hcompare' := exec_compareLine sz r₂ r₁ m
    obtain ⟨m₂, hrun₂, hflags₂, _⟩ := hback₂ { m₁ with flags := some (flagsOf sz (m₁.reg r₁) (m₁.reg r₂)) }
    obtain ⟨mv, hvalue, hbit⟩ := exec_setLines hset r₁ hflags₂
    obtain ⟨m₂', hrun₂', hflags₂', _⟩ := hback₂ { m with flags := some (flagsOf sz (m.reg r₁) (m.reg r₂)) }
    obtain ⟨mb, hrun₁, hflags₁, _⟩ := hback₁ m₂'
    have hbranch := runTo_jumpLines hjump label (hflags₁.trans hflags₂')
    rw [← runTo_append_of_some (runTo_of_exec hrun₁), ← runTo_append_of_some (runTo_of_exec hrun₂'),
      ← runTo_append_of_some (runTo_of_exec hcompare')] at hbranch
    rw [List.append_nil]
    refine agree_of_flags (exec_append_of_some hwiden (exec_append_of_some hcompare (exec_append_of_some hrun₂ hvalue))) hbit hbranch ?_
    rw [hopposite, Bool.not_inj_iff, hholds, hholds, hregs, Widened]
    cases hw : widensRhs lhs.ty rhs.ty with
    | false => exact iff_of_true rfl fun h => absurd h Bool.false_ne_true
    | true =>
        have hsz8 : sz = 8 := by
          rw [widensRhs, hsz, Bool.and_eq_true, Bool.and_eq_true, beq_iff_eq] at hw
          exact hw.1.1
        subst hsz8
        rw [if_pos rfl, Function.update_self]
        by_cases hne : r₁ = r₂
        · subst hne
          rw [Function.update_self]
          exact iff_of_true (holds_self hkind _ _ _ _) fun _ h => absurd rfl h
        · rw [Function.update_of_ne hne]
          exact ⟨fun h _ _ => h.symm, fun h => (h rfl hne).symm⟩

theorem compares_float (hkind : kind.isCompare = true) (label : Nat) (hfloat : isFlonum lhs.ty = true)
    (hl : gen other lhs s = some (r₁, c₁, s₁)) (hr : gen other rhs s₁ = some (r₂, c₂, s₂)) (hne : r₁ ≠ r₂) (hlabel : label ≤ s₂.labelCount) :
    Compares other label kind lhs rhs s (c₁ ++ c₂) fun m =>
      kind = .lt ∨ kind = .le → Double.compare (m.reg r₁) (m.reg r₂) ≠ none := by
  obtain ⟨jumps, s₃, hjumps, _, hrun⟩ := floatJumps_spec hkind label hlabel
  obtain ⟨back, s', hfree, _, hback⟩ := freeReg_quiet r₂ s₂
  obtain ⟨back₂, s₄, hfree₂, hlabels₂, hback₂⟩ := freeReg_quiet r₂ s₃
  obtain ⟨back₁, s₅, hfree₁, hlabels₁, hback₁⟩ := freeReg_quiet r₁ s₄
  refine ⟨r₁, [.op (.ucomisd r₂ r₁)] ++ (floatSet kind r₁ ++ (back ++ [])), [.op (.ucomisd r₂ r₁)] ++ (jumps ++ (back₂ ++ back₁)),
    s', s₅, ?_, ?_, fun m => ?_⟩
  · rw [gen, if_pos hkind, genCompare]
    refine Gen.bind_eq_some.mpr ⟨r₁, c₁, s₁, _, hl, ?_, List.append_assoc _ _ _⟩
    rw [hfloat]
    refine Gen.bind_eq_some.mpr ⟨r₂, c₂, s₂, _, hr, ?_, rfl⟩
    refine Gen.bind_eq_some.mpr ⟨(), _, s₂, _, rfl, ?_, rfl⟩
    refine Gen.bind_eq_some.mpr ⟨(), _, s₂, _, rfl, ?_, rfl⟩
    exact Gen.bind_eq_some.mpr ⟨(), back, s', _, hfree, rfl, rfl⟩
  · rw [genCondBranchInv, if_pos hkind, genCompareBranch, if_pos hfloat]
    refine Gen.bind_eq_some.mpr ⟨r₁, c₁, s₁, _, hl, ?_, List.append_assoc _ _ _⟩
    refine Gen.bind_eq_some.mpr ⟨r₂, c₂, s₂, _, hr, ?_, rfl⟩
    refine Gen.bind_eq_some.mpr ⟨(), _, s₂, _, rfl, ?_, rfl⟩
    refine Gen.bind_eq_some.mpr ⟨(), jumps, s₃, _, hjumps, ?_, rfl⟩
    exact Gen.bind_eq_some.mpr ⟨(), back₂, s₄, _, hfree₂, hfree₁, rfl⟩
  · have hcompare : exec [.op (.ucomisd r₂ r₁)] m =
        some { m with flags := some (.ofOrder (Double.compare (m.reg r₁) (m.reg r₂))) } := rfl
    show Agree _ _ label tyInt r₁ m (kind = .lt ∨ kind = .le → Double.compare (m.reg r₁) (m.reg r₂) ≠ none)
    generalize Double.compare (m.reg r₁) (m.reg r₂) = order at *
    obtain ⟨m₁, hset, hbit, _⟩ := exec_floatSet hkind r₁ (show Machine.flags { m with flags := some (.ofOrder order) } = _ from rfl)
    obtain ⟨mv, hexec, _, hregs⟩ := hback m₁
    have hvalue := exec_append_of_some hcompare (exec_append_of_some hset hexec)
    have htaken := hrun { m with flags := some (.ofOrder order) } _ rfl
    obtain ⟨mb, hbranch⟩ : ∃ mb, runTo (jumps ++ (back₂ ++ back₁)) none { m with flags := some (.ofOrder order) } =
        some (if floatTaken kind (.ofOrder order) then some label else none, mb) := by
      rw [runTo_append_of_some htaken]
      cases floatTaken kind (.ofOrder order) with
      | true => exact ⟨_, runTo_skip (fun hmem => (List.mem_append.mp hmem).elim (hlabels₂ label) (hlabels₁ label)) _⟩
      | false =>
          obtain ⟨m₂, hexec₂, _⟩ := hback₂ { m with flags := some (.ofOrder order) }
          obtain ⟨m₃, hexec₁, _⟩ := hback₁ m₂
          exact ⟨m₃, runTo_of_exec (exec_append_of_some hexec₂ hexec₁)⟩
    rw [← runTo_append_of_some (runTo_of_exec hcompare)] at hbranch
    rw [List.append_nil]
    refine agree_of_flags hvalue ((hregs r₁ hne).trans hbit) hbranch ?_
    rw [floatTaken_eq hkind]
    by_cases hordered : kind = .lt ∨ kind = .le → order ≠ none
    · rw [decide_eq_true hordered]
      exact iff_of_true (Bool.true_beq _) hordered
    · rw [decide_eq_false hordered]
      exact iff_of_false (by cases floatHolds kind (.ofOrder order) <;> decide) hordered

/-! ## Other conditions -/

variable {n : Node Ty} {ty : Ty} {w : BitVec 64} {r : Reg} {c : List Line}

def isComparison : Node Ty → Bool
  | .bin kind _ _ _ => kind.isCompare
  | _ => false

theorem genCondBranchInv_test (h : isComparison n = false) (value : Node Ty → Gen Reg) (label : Nat) :
    genCondBranchInv value label n = genTest (value n) n.ty label := by
  cases n with
  | bin kind lhs rhs ty => exact if_neg (by rw [show kind.isCompare = false from h]; decide)
  | _ => rfl

theorem flonum_size (h : isFlonum ty = true) : ty.size = 4 ∨ ty.size = 8 ∨ ty.size = 16 := by
  cases ty with
  | flonum k q => cases k <;> simp [Ty.size, FloKind.size]
  | _ => cases h

/-- The bits that are tested are zero and the value is not, or the other way round. -/
theorem tested_iff (ty : Ty) (w : BitVec 64) : (w.setWidth (regBits ty.size) = 0 ↔ IsZero ty w) ↔ TestedWhole ty w := by
  rw [IsZero, TestedWhole]
  by_cases hfloat : isFlonum ty = true
  · rw [if_pos hfloat, if_pos hfloat, Double.magnitude_eq_zero_iff]
    by_cases h4 : ty.size = 4
    · rw [if_pos h4, h4]
      refine ⟨Iff.mp, fun h => ⟨h, fun hzero => ?_⟩⟩
      rcases hzero with rfl | rfl <;> decide
    · have hbits : regBits ty.size = 64 := by
        rcases flonum_size hfloat with h | h | h
        · exact absurd h h4
        · rw [h]
          rfl
        · rw [h]
          rfl
      rw [if_neg h4, hbits, BitVec.setWidth_eq]
      constructor
      · rintro h rfl
        exact absurd (h.mpr (.inr rfl)) (by decide)
      · exact fun hne => ⟨.inl, fun h => h.resolve_right hne⟩
  rw [if_neg hfloat, if_neg hfloat]
  by_cases hint : isInteger ty = true
  · rw [if_pos hint, if_pos hint]
    have hbits : regBits ty.size = 8 * ty.size := by rcases size_cases hint with h | h | h | h <;> rw [h] <;> rfl
    have hle : 8 * ty.size ≤ 8 * opSize ty := by
      rw [opSize]
      rcases size_cases hint with h | h | h | h <;> simp [h, hint]
    rw [hbits]
    refine ⟨Iff.mp, fun h => ⟨h, fun hzero => ?_⟩⟩
    rw [← BitVec.setWidth_setWidth_of_le w hle, hzero]
    exact BitVec.setWidth_zero _ _
  · rw [if_neg hint, if_neg hint]
    refine ⟨Iff.mp, fun h => ⟨h, fun hzero => ?_⟩⟩
    rw [hzero]
    exact BitVec.setWidth_zero _ _

theorem low_zero_iff (τ : FixedWidth.IntTy) {k : Nat} (hk : τ.bits = k) (hle : k ≤ 64) (w : BitVec 64) :
    w.setWidth k = 0 ↔ τ.wrap w.toInt = 0 := by
  subst hk
  have hlow : ((w.setWidth τ.bits).toNat : Int) = w.toInt % (2 ^ τ.bits : Nat) := wrap_toInt_unsigned τ.pos hle w
  rw [← BitVec.toNat_inj]
  show (w.setWidth τ.bits).toNat = (0#τ.bits).toNat ↔ _
  rw [BitVec.toNat_ofNat, Nat.zero_mod]
  constructor
  · intro hzero
    refine FixedWidth.IntTy.wrap_eq_of_emod τ.inRange_zero ?_
    rw [← hlow, hzero]
    rfl
  · intro hzero
    have hmod := τ.wrap_emod w.toInt
    rw [hzero, ← hlow, Int.zero_emod] at hmod
    exact_mod_cast hmod.symm

/-- A register that holds an integer for everyone who reads it. -/
theorem testedWhole_carries (hint : isInteger ty = true) {v : Int} (hv : Carries ty v w) : TestedWhole ty w := by
  have hfloat : isFlonum ty = false := by cases ty <;> first | rfl | cases hint
  rw [TestedWhole, if_neg (by rw [hfloat]; decide), if_pos hint]
  intro hzero
  have hpromoted : (bitsOf (integerPromotion ty)).bits = 8 * opSize ty := by
    by_cases hsize : ty.size < 4
    · rw [promotion_narrow hint hsize, opSize, if_pos ⟨hint, hsize⟩]
      rfl
    · rw [promotion_wide hsize, bitsOf_bits hint, opSize, if_neg (fun h => hsize h.2)]
      rcases size_cases hint with h | h | h | h <;> rw [h] <;> rfl
  have hle : 8 * opSize ty ≤ 64 := by
    rw [opSize]
    rcases size_cases hint with h | h | h | h <;> simp [h, hint]
  have hsize : 8 * ty.size ≤ 64 := by rcases size_cases hint with h | h | h | h <;> rw [h] <;> decide
  have hv0 : v = 0 := (hv .low).symm.trans ((low_zero_iff (bitsOf ty) (bitsOf_bits hint) hsize w).mp hzero)
  exact (low_zero_iff (bitsOf (integerPromotion ty)) hpromoted hle w).mpr ((hv .operand).trans hv0)

theorem agree_test (h : isComparison n = false) (label : Nat) (hgen : gen other n s = some (r, c, s₁)) :
    ∃ branch s', genCondBranchInv (gen other) label n s = some ((), c ++ branch, s') ∧
      ∀ m, Agree [] branch label n.ty r m (TestedWhole n.ty (m.reg r)) := by
  obtain ⟨back, s₂, hfree, _, hback⟩ := freeReg_quiet r s₁
  refine ⟨[compareImm n.ty.size 0 r] ++ (back ++ [.jcc .e label]), s₂, ?_, fun m => ?_⟩
  · rw [genCondBranchInv_test h, genTest]
    refine Gen.bind_eq_some.mpr ⟨r, c, s₁, _, hgen, ?_, rfl⟩
    exact Gen.bind_eq_some.mpr ⟨(), _, s₁, _, rfl, Gen.bind_eq_some.mpr ⟨(), back, s₂, _, hfree, rfl, rfl⟩, rfl⟩
  · have hcompare := exec_compareImm n.ty.size 0 r m
    obtain ⟨mb, hrun, hflags, _⟩ := hback { m with flags := some (flagsOf n.ty.size (m.reg r) ((0 : BitVec 32).signExtend 64)) }
    have hzero : CC.e.holds (flagsOf n.ty.size (m.reg r) ((0 : BitVec 32).signExtend 64)) =
        decide ((m.reg r).setWidth (regBits n.ty.size) = 0) := by
      rw [flagsOf, CC.holds_e, show (0 : BitVec 32).signExtend 64 = 0 from by decide]
      exact congrArg (fun z => decide (_ = z)) (BitVec.setWidth_zero _ _)
    have hbranch := runTo_jcc hflags .e label []
    rw [hzero, ← runTo_append_of_some (runTo_of_exec hrun), ← runTo_append_of_some (runTo_of_exec hcompare)] at hbranch
    refine ⟨m, _, mb, rfl, hbranch, ?_, ?_⟩
    · split <;> simp
    · rw [← tested_iff]
      split <;> simp_all

/-! ## Typed conditions -/

theorem isFlonum_getIntegerType (size : Nat) (isUnsigned : Bool) : isFlonum (getIntegerType size isUnsigned) = false := by
  rw [getIntegerType]
  split_ifs <;> rfl

theorem isFlonum_common {l r : Ty} (hl : isNumber l = true) (hr : isNumber r = true) :
    isFlonum (usualArithType l r) = (isFlonum l || isFlonum r) := by
  rw [usualArithType]
  cases hfloat : isFlonum l || isFlonum r with
  | true =>
      rw [if_pos rfl, getFloatType]
      split <;> first | rfl | (split <;> rfl)
  | false =>
      obtain ⟨hlf, hrf⟩ := Bool.or_eq_false_iff.mp hfloat
      have hprom : ∀ t : Ty, isNumber t = true → isFlonum t = false → isFlonum (integerPromotion t) = false := by
        intro t hnum hf
        rw [isNumber, hf, Bool.or_false] at hnum
        rw [integerPromotion, if_neg (by rw [hnum]; decide)]
        split
        · rfl
        · exact hf
      have hhigher : isFlonum (if intRank (integerPromotion l) ≥ intRank (integerPromotion r) then integerPromotion l
          else integerPromotion r) = false := by
        split
        · exact hprom l hl hlf
        · exact hprom r hr hrf
      rw [if_neg Bool.false_ne_true]
      dsimp only
      generalize (if intRank (integerPromotion l) ≥ intRank (integerPromotion r) then integerPromotion l
        else integerPromotion r) = higher at hhigher ⊢
      split
      · exact hhigher
      · exact isFlonum_getIntegerType _ _

/-- Both operands of a comparison of numbers are floating, or none. -/
theorem isFlonum_operand {common : Ty} {x : Node Ty} (hx : isNumber x.ty = true) (hfloat : isFlonum common = false → isFlonum x.ty = false) :
    isFlonum (castOperand common x).ty = isFlonum common := by
  rw [castOperand]
  cases hcommon : isFlonum common with
  | true =>
      rw [if_pos rfl]
      cases hint : isInteger x.ty with
      | true => exact hcommon
      | false =>
          rw [isNumber, hint, Bool.false_or] at hx
          exact hx
  | false =>
      rw [if_neg Bool.false_ne_true]
      split
      · split
        · exact hcommon
        · exact hfloat hcommon
      · exact hfloat hcommon

/-- C does not compare a floating operand with one that is no number. -/
def ComparesNumbers (raw : Node Unit) : Prop :=
  ∀ kind a b u l r, raw = .bin kind a b u → checkType a = some l → checkType b = some r →
    isFlonum l.ty = true ∨ isFlonum r.ty = true → isNumber l.ty = true ∧ isNumber r.ty = true

theorem checkType_comparison {raw : Node Unit} (hraw : ComparesNumbers raw) (hn : checkType raw = some (.bin kind lhs rhs ty))
    (hkind : kind.isCompare = true) : ty = tyInt ∧ isFlonum rhs.ty = isFlonum lhs.ty := by
  cases raw with
  | bin kind' a b u =>
      rw [checkType] at hn
      obtain ⟨l, hl, hn⟩ := Option.bind_eq_some_iff.mp hn
      obtain ⟨r, hr, hn⟩ := Option.bind_eq_some_iff.mp hn
      have hn := Option.some_inj.mp hn
      obtain ⟨_, _, _, hbin⟩ := Pointers.typeBin_bin kind' l r
      obtain rfl : kind' = kind := by
        rw [hbin] at hn
        exact (Node.bin.inj hn).1
      have htype : typeBin kind' l r = typeCompare kind' l r := by cases kind' <;> first | rfl | cases hkind
      rw [htype, typeCompare] at hn
      have hpair := hraw kind' a b u l r rfl hl hr
      split at hn
      · next hnum =>
          obtain ⟨hlnum, hrnum⟩ := Bool.and_eq_true_iff.mp hnum
          obtain ⟨_, rfl, rfl, rfl⟩ := Node.bin.inj hn
          have hcommon := isFlonum_common hlnum hrnum
          have hnone : isFlonum (usualArithType l.ty r.ty) = false → isFlonum l.ty = false ∧ isFlonum r.ty = false := fun h =>
            Bool.or_eq_false_iff.mp (hcommon.symm.trans h)
          exact ⟨rfl, (isFlonum_operand hrnum fun h => (hnone h).2).trans (isFlonum_operand hlnum fun h => (hnone h).1).symm⟩
      · next hnum =>
          obtain ⟨_, rfl, rfl, rfl⟩ := Node.bin.inj hn
          have hnot : ∀ h : isFlonum l.ty = true ∨ isFlonum r.ty = true, False := fun h =>
            hnum (Bool.and_eq_true_iff.mpr (hpair h))
          refine ⟨rfl, ?_⟩
          rw [Bool.eq_false_iff.mpr fun h => hnot (.inl h), Bool.eq_false_iff.mpr fun h => hnot (.inr h)]
  | un kind' l u =>
      rw [checkType] at hn
      obtain ⟨l', _, hn⟩ := Option.bind_eq_some_iff.mp hn
      cases kind' with
      | deref =>
          obtain ⟨_, _, hn⟩ := Option.map_eq_some_iff.mp hn
          cases hn
      | _ => cases hn
  | _ => simp [checkType, Option.bind_eq_some_iff] at hn

/-- A floating literal leaves its bits in a register. -/
def genLiteral (bits : BitVec 64) : Node Ty → Gen Reg
  | .fnum _ => do
      let r ← allocReg
      Gen.emit [.op (.movabs bits r)]
      pure r
  | _ => Gen.error

end Rcc.CondBranch

import Rcc.Gen

/-!
# Integer expressions are generated right while the registers last

`regNeed` is the number of registers a tree takes: one for a leaf, and for an
operator between two registers one more than its right operand if that is the
deeper one. As long as that many are free, nothing is spilled, and the code
computes the tree into the lowest free register and touches no other
(`gen_within`).

With all registers taken there is one more case that goes well, a tree that
needs only one: `%rsi` is lent out and comes back with the result (`gen_full`).
But when the right operand of an operator finds all registers taken, it is given
`%rsi`, although that holds the left operand; and as that is freed, the left
operand is no longer marked (`contract_fails`).
-/

namespace Rcc

/-! ## Integer trees -/

/-- The type `int`, under any qualifiers. -/
def IsInt (ty : Ty) : Prop := ∃ q, ty = .integer .int false q

/-- A tree of type `int` over local `int` variables, constants, + - * & ^ | and the
comparisons. Where a local may begin is `new_var`'s doing. -/
def IntTree : Node Ty → Prop
  | .num _ ty => IsInt ty
  | .lvar var => var.isLocal = true ∧ IsInt var.ty ∧ 84 ≤ var.offset
  | .bin kind lhs rhs ty => kind.isGenOp = true ∧ IsInt ty ∧ IntTree lhs ∧ IntTree rhs
  | _ => False

/-- The operators on `int`. -/
def intOp (kind : BinKind) (a b : BitVec 32) : BitVec 32 :=
  match kind with
  | .add => a + b
  | .sub => a - b
  | .mul => a * b
  | .bitand => a &&& b
  | .bitxor => a ^^^ b
  | .bitor => a ||| b
  | .eq => if a = b then 1 else 0
  | .ne => if a ≠ b then 1 else 0
  | .lt => if a.slt b then 1 else 0
  | .le => if a.sle b then 1 else 0
  | _ => 0

/-- The value of a tree, with the variables in memory. -/
def intValue (mem : Spans.Mem) : Node Ty → BitVec 32
  | .num val _ => val.setWidth 32
  | .lvar var => BitVec.ofNat 32 (Spans.load mem (-var.offset) 4)
  | .bin kind lhs rhs _ => intOp kind (intValue mem lhs) (intValue mem rhs)
  | _ => 0

/-- The registers that generating the tree takes at once. -/
def regNeed : Node Ty → Nat
  | .bin _ lhs rhs _ =>
      if (immediate rhs).isSome then regNeed lhs else max (regNeed lhs) (regNeed rhs + 1)
  | _ => 1

theorem regNeed_pos (t : Node Ty) : 0 < regNeed t := by
  induction t with
  | bin kind lhs rhs ty ihl ihr =>
      unfold regNeed
      split <;> omega
  | _ => exact Nat.one_pos

theorem IntTree.ty {t : Node Ty} (h : IntTree t) : IsInt t.ty := by
  cases t with
  | num val ty => exact h
  | lvar var => exact h.2.1
  | bin kind lhs rhs ty => exact h.2.1
  | _ => exact False.elim h

/-- Locals lie below the slots, so what is spilled changes no value. -/
theorem intValue_store {t : Node Ty} (h : IntTree t) (mem : Spans.Mem) {off : Nat} (hoff : off ≤ 80)
    (v : Nat) : intValue (Spans.store mem (-off) 8 v) t = intValue mem t := by
  induction t with
  | num val ty => rfl
  | lvar var =>
      have hge := h.2.2
      refine congrArg _ (Spans.load_store_disjoint mem v (.inl ?_))
      simp only [Spans.Span.at]
      omega
  | bin kind lhs rhs ty ihl ihr =>
      rw [intValue, intValue, ihl h.2.2.1, ihr h.2.2.2]
  | _ => exact False.elim h

/-! ## What one operator's code does -/

/-- One register has a new value and nothing else of registers and memory has. -/
structure Puts (m m' : Machine) (dst : Reg) (v : BitVec 32) : Prop where
  value : m'.get32 dst = v
  others : ∀ q, q ≠ dst → m'.reg q = m.reg q
  mem : m'.mem = m.mem

theorem puts_set32 (m : Machine) (flags : Option Flags) (dst : Reg) (v : BitVec 32) :
    Puts m { m.set32 dst v with flags } dst v where
  value := m.get32_set32 dst v
  others _ hq := m.set_reg_of_ne _ hq
  mem := rfl

theorem boolByte (p : Bool) :
    (if p then 1 else 0 : BitVec 8).setWidth 32 = (if p then 1 else 0 : BitVec 32) := by
  cases p <;> rfl

/-- The comparison's value from its flags. -/
theorem exec_setLines {kind : BinKind} (hkind : kind.isCompare = true) (dst : Reg) {m : Machine}
    {a b : BitVec 32} (hflags : m.flags = some (.ofSub a b)) :
    ∃ m', exec (setLines kind false dst) m = some m' ∧ Puts m m' dst (intOp kind a b) := by
  have hrun : ∀ cc : CC, ∃ m', exec [.op (.setcc cc), .op (.movzblAl dst)] m = some m' ∧
      Puts m m' dst (if cc.holds (.ofSub a b) then 1 else 0) := by
    intro cc
    let set : Machine := { m with al := if cc.holds (.ofSub a b) then 1 else 0 }
    refine ⟨set.set32 dst (if cc.holds (.ofSub a b) then 1 else 0), ?_,
      ⟨set.get32_set32 dst _, fun q hq => set.set_reg_of_ne _ hq, rfl⟩⟩
    simp only [exec, Op.run, hflags, Option.map_some, Option.bind_some, boolByte, set]
  cases kind with
  | eq =>
      have h := hrun .e
      simp only [CC.holds_e, decide_eq_true_eq] at h
      exact h
  | ne =>
      have h := hrun .ne
      simp only [CC.holds_ne, decide_eq_true_eq] at h
      exact h
  | lt =>
      have h := hrun .l
      rw [CC.holds_l] at h
      exact h
  | le =>
      have h := hrun .le
      rw [CC.holds_le] at h
      exact h
  | _ => cases hkind

theorem setLines_of_inst {kind : BinKind} {inst : AluOp} (h : kind.inst = some inst) (dst : Reg) :
    setLines kind false dst = [] := by
  cases kind <;> first
    | rfl
    | cases h

theorem isCompare_of_not_inst {kind : BinKind} (h : kind.isGenOp = true) (hi : kind.inst = none) :
    kind.isCompare = true := by
  rw [BinKind.isGenOp, hi] at h
  exact h

theorem apply_inst {kind : BinKind} {inst : AluOp} (h : kind.inst = some inst) (a b : BitVec 32) :
    inst.apply a b = intOp kind a b := by
  cases kind <;> cases h <;> rfl

/-- Operator and comparison between two registers. -/
theorem exec_opLine {kind : BinKind} (hkind : kind.isGenOp = true) (src dst : Reg) (m : Machine) :
    ∃ m', exec (opLine kind .l src dst :: setLines kind false dst) m = some m' ∧
      Puts m m' dst (intOp kind (m.get32 dst) (m.get32 src)) := by
  cases hi : kind.inst with
  | some inst =>
      simp only [opLine, hi, setLines_of_inst hi]
      refine ⟨_, rfl, ?_⟩
      rw [← apply_inst hi]
      exact puts_set32 m none dst _
  | none =>
      simp only [opLine, hi]
      let compared : Machine := { m with flags := some (.ofSub (m.get32 dst) (m.get32 src)) }
      obtain ⟨m', hrun, hputs⟩ :=
        exec_setLines (isCompare_of_not_inst hkind hi) dst (m := compared) rfl
      exact ⟨m', hrun, hputs.value, hputs.others, hputs.mem⟩

theorem exists_two_pow {imm : BitVec 32} (hpos : 0 < imm.toInt) (hpow : imm &&& (imm - 1) = 0) :
    ∃ k < 32, imm.toNat = 2 ^ k := by
  have hne : imm.toNat ≠ 0 := by
    intro h
    rw [BitVec.eq_of_toNat_eq (y := 0) h] at hpos
    exact absurd hpos (by decide)
  have hone : (imm - 1).toNat = imm.toNat - 1 := by
    rw [BitVec.toNat_sub]
    have := imm.isLt
    show (2 ^ 32 - 1 + imm.toNat) % 2 ^ 32 = _
    omega
  have hnat : imm.toNat &&& (imm.toNat - 1) = 0 := by
    rw [← hone, ← BitVec.toNat_and, hpow]
    rfl
  obtain ⟨k, hk⟩ := (Nat.and_sub_one_eq_zero_iff_isPowerOfTwo hne).mp hnat
  refine ⟨k, ?_, hk⟩
  have := imm.isLt
  rw [hk] at this
  exact (Nat.pow_lt_pow_iff_right (by decide)).mp this

/-- A product with a power of two is a shift. -/
theorem mul_eq_shiftLeft {a imm : BitVec 32} (hpos : 0 < imm.toInt) (hpow : imm &&& (imm - 1) = 0) :
    a <<< Nat.log2 imm.toNat = a * imm := by
  obtain ⟨k, hlt, hk⟩ := exists_two_pow hpos hpow
  rw [hk, Nat.log2_two_pow, BitVec.shiftLeft_eq_mul_twoPow]
  congr 1
  refine BitVec.eq_of_toNat_eq ?_
  rw [BitVec.toNat_twoPow, hk, Nat.mod_eq_of_lt (Nat.pow_lt_pow_right (by decide) hlt)]

/-- Operator and comparison with a constant on the right. -/
theorem exec_immLines {kind : BinKind} (hkind : kind.isGenOp = true) (imm : BitVec 32) (dst : Reg)
    (m : Machine) :
    ∃ m', exec (immLines kind .l imm dst ++ setLines kind false dst) m = some m' ∧
      Puts m m' dst (intOp kind (m.get32 dst) imm) := by
  unfold immLines
  split
  · next hid =>
      have hsame : intOp kind (m.get32 dst) imm = m.get32 dst ∧ setLines kind false dst = [] := by
        rcases hid with ⟨rfl, rfl⟩ | ⟨rfl | rfl | rfl | rfl, rfl⟩
        · exact ⟨BitVec.mul_one _, rfl⟩
        · exact ⟨BitVec.add_zero _, rfl⟩
        · exact ⟨BitVec.sub_zero _, rfl⟩
        · exact ⟨BitVec.or_zero, rfl⟩
        · exact ⟨BitVec.xor_zero, rfl⟩
      rw [hsame.1, hsame.2]
      exact ⟨m, rfl, rfl, fun _ _ => rfl, rfl⟩
  · split
    · next hpow =>
        obtain ⟨rfl, hpos, hand⟩ := hpow
        refine ⟨_, rfl, ?_⟩
        rw [intOp, ← mul_eq_shiftLeft hpos hand]
        exact puts_set32 m none dst _
    · cases hi : kind.inst with
      | some inst =>
          simp only [setLines_of_inst hi, List.append_nil]
          refine ⟨_, rfl, ?_⟩
          rw [← apply_inst hi]
          exact puts_set32 m none dst _
      | none =>
          let compared : Machine := { m with flags := some (.ofSub (m.get32 dst) imm) }
          obtain ⟨m', hrun, hputs⟩ :=
            exec_setLines (isCompare_of_not_inst hkind hi) dst (m := compared) rfl
          exact ⟨m', hrun, hputs.value, hputs.others, hputs.mem⟩

/-! ## `gen` on integer trees -/

theorem opSize_int {ty : Ty} (h : IsInt ty) : opSize ty = 4 := by
  obtain ⟨q, rfl⟩ := h
  rfl

theorem isInteger_int {ty : Ty} (h : IsInt ty) : isInteger ty = true := by
  obtain ⟨q, rfl⟩ := h
  rfl

theorem useUnsignedCmp_int {lhs rhs : Ty} (hl : IsInt lhs) (hr : IsInt rhs) :
    useUnsignedCmp lhs rhs = false := by
  obtain ⟨q, rfl⟩ := hl
  obtain ⟨p, rfl⟩ := hr
  rfl

theorem gen_num {val : BitVec 64} {ty : Ty} (h : IsInt ty) :
    gen (.num val ty) = allocReg >>= fun r => Gen.emit
      [.op (if fitsInt32 val then .movImm .l (val.setWidth 32) r else .movabs val r)] >>= fun _ =>
        pure r := by
  rw [gen, opSize_int h]
  rfl

theorem gen_lvar {var : LVar} (h : IntTree (.lvar var)) :
    gen (.lvar var) = allocReg >>= fun r => Gen.emit [.op (.load .l var.offset r)] >>= fun _ =>
      pure r := by
  obtain ⟨hlocal, ⟨q, hty⟩, _⟩ := h
  rw [gen, hty]
  show (if _ then _ else _) = _
  rw [if_pos ⟨hlocal, rfl⟩]

/-- Behind the left operand. -/
def genRhs (kind : BinKind) (rhs : Node Ty) (rLhs : Reg) : Gen Reg :=
  match immediate rhs with
  | some imm => Gen.emit (immLines kind .l imm rLhs) >>= fun _ =>
      Gen.emit (setLines kind false rLhs) >>= fun _ => pure rLhs
  | none => gen rhs >>= fun rRhs => Gen.emit [] >>= fun _ =>
      Gen.emit [opLine kind .l rRhs rLhs] >>= fun _ => freeReg rRhs >>= fun _ =>
        Gen.emit (setLines kind false rLhs) >>= fun _ => pure rLhs

theorem genRhs_imm {kind : BinKind} {rhs : Node Ty} {imm : BitVec 32}
    (himm : immediate rhs = some imm) (r : Reg) (s : GenState) :
    genRhs kind rhs r s = some (r, immLines kind .l imm r ++ setLines kind false r, s) := by
  rw [genRhs, himm]
  show some (r, immLines kind .l imm r ++ (setLines kind false r ++ []), s) = _
  rw [List.append_nil]

theorem genRhs_reg {kind : BinKind} {rhs : Node Ty} (himm : immediate rhs = none) {r k : Reg}
    {s s₁ s₂ : GenState} {code back : List Line} (hgen : gen rhs s = some (k, code, s₁))
    (hfree : freeReg k s₁ = some ((), back, s₂)) :
    genRhs kind rhs r s =
      some (r, code ++ (opLine kind .l k r :: (back ++ setLines kind false r)), s₂) := by
  have hset : (back ++ (setLines kind false r ++ []) : List Line) = back ++ setLines kind false r := by
    rw [List.append_nil]
  rw [genRhs, himm, ← hset]
  exact Gen.bind_eq_some.mpr ⟨k, code, s₁, _, hgen,
    Gen.bind_eq_some.mpr ⟨(), [], s₁, _, rfl,
      Gen.bind_eq_some.mpr ⟨(), [opLine kind .l k r], s₁, _, rfl,
        Gen.bind_eq_some.mpr ⟨(), back, s₂, _, hfree, rfl, rfl⟩, rfl⟩, rfl⟩, rfl⟩

theorem gen_bin {kind : BinKind} {lhs rhs : Node Ty} {ty : Ty}
    (h : IntTree (.bin kind lhs rhs ty)) :
    gen (.bin kind lhs rhs ty) = gen lhs >>= genRhs kind rhs := by
  obtain ⟨hkind, hty, hl, hr⟩ := h
  have hsize : binSize kind lhs.ty rhs.ty ty = 4 := by
    simp only [binSize, opSize_int hty, opSize_int hl.ty, opSize_int hr.ty, ite_self]
  rw [gen, hsize]
  show (if _ then _ else _) = _
  rw [if_pos ⟨hkind, isInteger_int hl.ty, isInteger_int hr.ty⟩, useUnsignedCmp_int hl.ty hr.ty]
  rfl

/-- Loading a constant. -/
theorem run_num (val : BitVec 64) (r : Reg) (m : Machine) :
    ∃ m', (if fitsInt32 val then Op.movImm .l (val.setWidth 32) r else .movabs val r).run m =
        some m' ∧ Puts m m' r (val.setWidth 32) := by
  split
  · exact ⟨_, rfl, puts_set32 m m.flags r _⟩
  · refine ⟨_, rfl, ?_, fun q hq => m.set_reg_of_ne _ hq, rfl⟩
    rw [Machine.get32, Machine.set_reg, Function.update_self]

/-! ## With registers to spare -/

/-- What `gen` does when it need not spill: the value comes into the lowest free
register, and otherwise generator and machine are as before. -/
def GenWithin (t : Node Ty) (s : GenState) (i : Reg) : Prop :=
  ∃ code s', gen t s = some (i, code, s') ∧ s'.used = insert i s.used ∧
    s'.spilled = s.spilled ∧ s'.slots = s.slots ∧
      ∀ m, ∃ m', exec code m = some m' ∧ m'.get32 i = intValue m.mem t ∧
        (∀ q ∈ s.used, m'.reg q = m.reg q) ∧ m'.mem = m.mem

/-- A leaf: one register, one instruction. -/
theorem genWithin_leaf {t : Node Ty} {s : GenState} {i : Reg} {o : Reg → Op}
    (hgen : gen t = allocReg >>= fun r => Gen.emit [.op (o r)] >>= fun _ => pure r)
    (hrun : ∀ r m, ∃ m', (o r).run m = some m' ∧ Puts m m' r (intValue m.mem t))
    (hi : i ∉ s.used) (hlow : ∀ j < i, j ∈ s.used) : GenWithin t s i := by
  refine ⟨[.op (o i)], s.take i, ?_, rfl, rfl, rfl, fun m => ?_⟩
  · rw [hgen, Gen.bind_eq_some]
    refine ⟨i, [], s.take i, _, allocReg_free hi hlow, ?_, rfl⟩
    rfl
  · obtain ⟨m', hm', hputs⟩ := hrun i m
    refine ⟨m', ?_, hputs.value, fun q hq => hputs.others q fun hqi => hi (hqi ▸ hq), hputs.mem⟩
    simp only [exec, hm', Option.bind_some]

theorem genWithin_num {val : BitVec 64} {ty : Ty} (h : IsInt ty) {s : GenState} {i : Reg}
    (hi : i ∉ s.used) (hlow : ∀ j < i, j ∈ s.used) : GenWithin (.num val ty) s i :=
  genWithin_leaf (gen_num h) (run_num val) hi hlow

theorem genWithin_lvar {var : LVar} (h : IntTree (.lvar var)) {s : GenState} {i : Reg}
    (hi : i ∉ s.used) (hlow : ∀ j < i, j ∈ s.used) : GenWithin (.lvar var) s i :=
  genWithin_leaf (gen_lvar h) (fun r m => ⟨_, rfl, puts_set32 m m.flags r _⟩) hi hlow

theorem immediate_value {rhs : Node Ty} {imm : BitVec 32} (h : immediate rhs = some imm)
    (mem : Spans.Mem) : intValue mem rhs = imm := by
  cases rhs with
  | num val ty => exact Option.some_inj.mp (Option.ite_none_right_eq_some.mp h).2
  | _ => cases h

/-- An operator on a register and a constant. -/
theorem genWithin_imm {kind : BinKind} {lhs rhs : Node Ty} {ty : Ty}
    (h : IntTree (.bin kind lhs rhs ty)) {imm : BitVec 32} (himm : immediate rhs = some imm)
    {s : GenState} {i : Reg} (hi : i ∉ s.used) (hl : GenWithin lhs s i) :
    GenWithin (.bin kind lhs rhs ty) s i := by
  obtain ⟨code, s', hgen, hused, hspilled, hslots, hcode⟩ := hl
  refine ⟨code ++ (immLines kind .l imm i ++ setLines kind false i), s', ?_, hused, hspilled,
    hslots, fun m => ?_⟩
  · rw [gen_bin h]
    exact Gen.bind_eq_some.mpr ⟨i, code, s', _, hgen, genRhs_imm himm i s', rfl⟩
  · obtain ⟨m₁, hm₁, hval, hothers, hmem⟩ := hcode m
    obtain ⟨m₂, hm₂, hputs⟩ := exec_immLines h.1 imm i m₁
    refine ⟨m₂, exec_append_of_some hm₁ hm₂, ?_, fun q hq => ?_, hputs.mem.trans hmem⟩
    · rw [hputs.value, hval, intValue, immediate_value himm]
    · rw [hputs.others q fun hqi => hi (hqi ▸ hq), hothers q hq]

/-- An operator between two registers: the right operand comes into the next
register, which is free again afterwards. -/
theorem genWithin_reg {kind : BinKind} {lhs rhs : Node Ty} {ty : Ty}
    (h : IntTree (.bin kind lhs rhs ty)) (himm : immediate rhs = none) {s : GenState} {i : Reg}
    (hi : i ∉ s.used) (hl : GenWithin lhs s i)
    (hr : ∀ s₁ : GenState, s₁.used = insert i s.used → ∃ k, k ∉ s₁.used ∧ GenWithin rhs s₁ k) :
    GenWithin (.bin kind lhs rhs ty) s i := by
  obtain ⟨cl, s₁, hgenl, husedl, hspilledl, hslotsl, hcodel⟩ := hl
  obtain ⟨k, hk, cr, s₂, hgenr, husedr, hspilledr, hslotsr, hcoder⟩ := hr s₁ husedl
  have hki : k ≠ i := fun hki => hk (hki ▸ husedl ▸ Finset.mem_insert_self i s.used)
  have hkspilled : k ∉ s₂.spilled := fun hmem =>
    hk (s₁.spilled_used (hspilledr ▸ hmem))
  refine ⟨cl ++ (cr ++ (opLine kind .l k i :: ([] ++ setLines kind false i))), s₂.drop k, ?_, ?_,
    ?_, hslotsr.trans hslotsl, fun m => ?_⟩
  · rw [gen_bin h]
    exact Gen.bind_eq_some.mpr ⟨i, cl, s₁, _, hgenl,
      genRhs_reg himm hgenr (freeReg_unspilled hkspilled), rfl⟩
  · show s₂.used.erase k = _
    rw [husedr, Finset.erase_insert hk, husedl]
  · show s₂.spilled.erase k = _
    rw [Finset.erase_eq_of_notMem hkspilled, hspilledr, hspilledl]
  · obtain ⟨m₁, hm₁, hvall, hothersl, hmeml⟩ := hcodel m
    obtain ⟨m₂, hm₂, hvalr, hothersr, hmemr⟩ := hcoder m₁
    obtain ⟨m₃, hm₃, hputs⟩ := exec_opLine h.1 k i m₂
    have hkeep : m₂.get32 i = m₁.get32 i := by
      rw [Machine.get32, hothersr i (husedl ▸ Finset.mem_insert_self i s.used), Machine.get32]
    refine ⟨m₃, exec_append_of_some hm₁ (exec_append_of_some hm₂ hm₃), ?_, fun q hq => ?_,
      hputs.mem.trans (hmemr.trans hmeml)⟩
    · rw [hputs.value, hkeep, hvall, hvalr, hmeml]
      rfl
    · have hq₁ : q ∈ s₁.used := husedl ▸ Finset.mem_insert_of_mem hq
      rw [hputs.others q fun hqi => hi (hqi ▸ hq), hothersr q hq₁, hothersl q hq]

/-- **Registers to spare.** A tree that needs no more registers than are free is
computed into the lowest of them. -/
theorem gen_within {t : Node Ty} (h : IntTree t) {s : GenState} {i : Reg} (hi : i ∉ s.used)
    (hlow : ∀ j < i, j ∈ s.used) (hneed : s.used.card + regNeed t ≤ 8) : GenWithin t s i := by
  induction t generalizing s i with
  | num val ty => exact genWithin_num h hi hlow
  | lvar var => exact genWithin_lvar h hi hlow
  | bin kind lhs rhs ty ihl ihr =>
      obtain ⟨_, _, hl, hr⟩ := id h
      unfold regNeed at hneed
      cases himm : immediate rhs with
      | some imm =>
          rw [himm] at hneed
          exact genWithin_imm h himm hi (ihl hl hi hlow hneed)
      | none =>
          rw [himm, if_neg (by decide)] at hneed
          refine genWithin_reg h himm hi (ihl hl hi hlow (by omega)) fun s₁ hused => ?_
          have hcard : s₁.used.card = s.used.card + 1 := by
            rw [hused, Finset.card_insert_of_notMem hi]
          have hfree : s₁.used ≠ Finset.univ := by
            intro huniv
            have hpos := regNeed_pos rhs
            rw [huniv, Finset.card_fin] at hcard
            omega
          obtain ⟨k, hk, hklow⟩ := exists_lowest_free hfree
          exact ⟨k, hk, ihr hr hk hklow (by omega)⟩
  | _ => exact False.elim h

/-! ## With all registers taken -/

/-- What `gen` does when it must spill at once: `%rsi` goes to its slot, and then
the value comes into it. -/
def GenFull (t : Node Ty) (s : GenState) : Prop :=
  ∃ off code s', gen t s = some (7, .op (.store .q 7 off) :: code, s') ∧ s'.used = Finset.univ ∧
    7 ∈ s'.spilled ∧ s'.slots.slot 7 = off ∧
      ∀ m, ∃ m', exec code m = some m' ∧ Puts m m' 7 (intValue m.mem t)

theorem genFull_leaf {t : Node Ty} {s : GenState} {o : Reg → Op}
    (hgen : gen t = allocReg >>= fun r => Gen.emit [.op (o r)] >>= fun _ => pure r)
    (hrun : ∀ r m, ∃ m', (o r).run m = some m' ∧ Puts m m' r (intValue m.mem t))
    (hfull : s.used = Finset.univ) : GenFull t s := by
  refine ⟨(s.slots.offset 7).1, [.op (o 7)], s.spill 7, ?_, ?_, Finset.mem_insert_self 7 _,
    s.slots.offset_slot 7, fun m => ?_⟩
  · rw [hgen]
    exact Gen.bind_eq_some.mpr ⟨7, _, s.spill 7, _, allocReg_full hfull, rfl, rfl⟩
  · show insert 7 (s.used.erase 7) = _
    rw [hfull, Finset.insert_erase (Finset.mem_univ 7)]
  · obtain ⟨m', hm', hputs⟩ := hrun 7 m
    exact ⟨m', by simp only [exec, hm', Option.bind_some], hputs⟩

/-- A tree that needs one register is a leaf with constants applied to it. -/
theorem gen_full {t : Node Ty} (h : IntTree t) {s : GenState} (hfull : s.used = Finset.univ)
    (hneed : regNeed t = 1) : GenFull t s := by
  induction t with
  | num val ty => exact genFull_leaf (gen_num h) (run_num val) hfull
  | lvar var =>
      exact genFull_leaf (gen_lvar h) (fun r m => ⟨_, rfl, puts_set32 m m.flags r _⟩) hfull
  | bin kind lhs rhs ty ihl _ =>
      obtain ⟨hkind, _, hl, _⟩ := id h
      unfold regNeed at hneed
      cases himm : immediate rhs with
      | some imm =>
          rw [himm] at hneed
          obtain ⟨off, code, s', hgen, hused, hspilled, hslot, hcode⟩ := ihl hl hneed
          refine ⟨off, code ++ (immLines kind .l imm 7 ++ setLines kind false 7), s', ?_, hused,
            hspilled, hslot, fun m => ?_⟩
          · rw [gen_bin h]
            exact Gen.bind_eq_some.mpr ⟨7, _, s', _, hgen, genRhs_imm himm 7 s', rfl⟩
          · obtain ⟨m₁, hm₁, hputs₁⟩ := hcode m
            obtain ⟨m₂, hm₂, hputs₂⟩ := exec_immLines hkind imm 7 m₁
            refine ⟨m₂, exec_append_of_some hm₁ hm₂, ?_, fun q hq => ?_,
              hputs₂.mem.trans hputs₁.mem⟩
            · rw [hputs₂.value, hputs₁.value, intValue, immediate_value himm]
            · rw [hputs₂.others q hq, hputs₁.others q hq]
      | none =>
          rw [himm, if_neg (by decide)] at hneed
          have hpos := regNeed_pos rhs
          omega
  | _ => exact False.elim h

/-! ## The contract of a call -/

/-- What is asked of a call of `gen`: its code leaves the tree's value in the
register that is returned, that register is still marked, and when it is freed
every register that was marked before has its old value. -/
def Contract (s : GenState) (t : Node Ty) : Prop :=
  ∃ r code s', gen t s = some (r, code, s') ∧ r ∈ s'.used ∧
    ∃ back s'', freeReg r s' = some ((), back, s'') ∧
      ∀ m, ∃ m₁ m₂, exec code m = some m₁ ∧ m₁.get32 r = intValue m.mem t ∧
        exec back m₁ = some m₂ ∧ ∀ q ∈ s.used, m₂.reg q = m.reg q

/-- `P` holds of the call for a tree and of every call it makes. -/
def EveryCall (P : GenState → Node Ty → Prop) : Node Ty → GenState → Prop
  | .bin kind lhs rhs ty, s =>
      P s (.bin kind lhs rhs ty) ∧ EveryCall P lhs s ∧
        (immediate rhs = none → ∀ r code s', gen lhs s = some (r, code, s') → EveryCall P rhs s')
  | t, s => P s t

theorem GenWithin.contract {t : Node Ty} {s : GenState} {i : Reg} (hi : i ∉ s.used)
    (h : GenWithin t s i) : Contract s t := by
  obtain ⟨code, s', hgen, hused, hspilled, _, hcode⟩ := h
  have hunspilled : i ∉ s'.spilled := fun hmem => hi (s.spilled_used (hspilled ▸ hmem))
  refine ⟨i, code, s', hgen, hused ▸ Finset.mem_insert_self i s.used, [], s'.drop i,
    freeReg_unspilled hunspilled, fun m => ?_⟩
  obtain ⟨m₁, hm₁, hval, hothers, _⟩ := hcode m
  exact ⟨m₁, m₁, hm₁, hval, rfl, hothers⟩

theorem GenFull.contract {t : Node Ty} (ht : IntTree t) {s : GenState} (h : GenFull t s) :
    Contract s t := by
  obtain ⟨off, code, s', hgen, hused, hspilled, hslot, hcode⟩ := h
  refine ⟨7, _, s', hgen, hused ▸ Finset.mem_univ 7, [.op (.load .q off 7)], s'.drop 7, ?_,
    fun m => ?_⟩
  · rw [freeReg_spilled hspilled, hslot]
  · have hoff : off ≤ 80 := hslot ▸ s'.slots.slot_le 7
    obtain ⟨m₁, hm₁, hputs⟩ := hcode (m.store off 8 (m.reg 7).toNat)
    have hold : BitVec.ofNat 64 (m₁.load off 8) = m.reg 7 := by
      rw [Machine.load, hputs.mem]
      have hsame : Spans.load (m.store off 8 (m.reg 7).toNat).mem (-off) 8 =
          (m.reg 7).toNat % 256 ^ 8 := Spans.load_store_same m.mem _ 8 _
      rw [hsame]
      refine BitVec.eq_of_toNat_eq ?_
      rw [BitVec.toNat_ofNat]
      have := (m.reg 7).isLt
      omega
    refine ⟨m₁, m₁.set 7 (m.reg 7), ?_, ?_, ?_, fun q _ => ?_⟩
    · exact hm₁
    · rw [hputs.value]
      exact intValue_store ht m.mem hoff _
    · show some (m₁.set 7 (BitVec.ofNat 64 (m₁.load off 8))) = _
      rw [hold]
    · by_cases hq : q = 7
      · rw [hq, Machine.set_reg, Function.update_self]
      · rw [Machine.set_reg_of_ne _ _ hq, hputs.others q hq, Machine.store_reg]

theorem card_lt_of_ne_univ {s : GenState} (h : s.used ≠ Finset.univ) : s.used.card < 8 :=
  lt_of_lt_of_eq (Finset.card_lt_univ_of_notMem (exists_lowest_free h).choose_spec.1)
    (Finset.card_fin 8)

/-- A call that finds the registers it needs, or needs but one, keeps the contract. -/
theorem contract_of_need {t : Node Ty} (ht : IntTree t) {s : GenState}
    (h : regNeed t ≤ max 1 (8 - s.used.card)) : Contract s t := by
  have hpos := regNeed_pos t
  by_cases hfull : s.used = Finset.univ
  · rw [hfull, Finset.card_fin] at h
    exact (gen_full ht hfull (by omega)).contract ht
  · have hlt := card_lt_of_ne_univ hfull
    obtain ⟨i, hi, hlow⟩ := exists_lowest_free hfull
    exact (gen_within ht hi hlow (by omega)).contract hi

theorem everyCall_of_need {t : Node Ty} (ht : IntTree t) {s : GenState}
    (h : regNeed t ≤ max 1 (8 - s.used.card)) : EveryCall Contract t s := by
  induction t generalizing s with
  | num val ty => exact contract_of_need ht h
  | lvar var => exact contract_of_need ht h
  | bin kind lhs rhs ty ihl ihr =>
      obtain ⟨_, _, hl, hr⟩ := id ht
      refine ⟨contract_of_need ht h, ?_, ?_⟩
      · refine ihl hl (le_trans ?_ h)
        conv_rhs => unfold regNeed
        split <;> omega
      · intro himm r code s' hgen
        unfold regNeed at h
        rw [himm, if_neg (by decide)] at h
        have hpos := regNeed_pos rhs
        have hfull : s.used ≠ Finset.univ := by
          intro hfull
          rw [hfull, Finset.card_fin] at h
          omega
        obtain ⟨i, hi, hlow⟩ := exists_lowest_free hfull
        obtain ⟨c, s₁, hgen₁, hused, _⟩ := gen_within hl hi hlow (by omega)
        rw [hgen₁] at hgen
        cases hgen
        refine ihr hr ?_
        rw [hused, Finset.card_insert_of_notMem hi]
        omega
  | _ => exact False.elim ht

/-! ## Without registers to spare -/

/-- With the left operand in `%rsi` and no register free, the right operand comes
into `%rsi` too, and freeing it unmarks the result. -/
theorem contract_fails {kind : BinKind} {lhs rhs : Node Ty} {ty : Ty}
    (h : IntTree (.bin kind lhs rhs ty)) (himm : immediate rhs = none) {s s₁ : GenState}
    {code : List Line} (hl : gen lhs s = some (7, code, s₁)) (hr : GenFull rhs s₁) :
    ¬ Contract s (.bin kind lhs rhs ty) := by
  obtain ⟨off, c, s₂, hgenr, _, hspilled, _, _⟩ := hr
  rintro ⟨r, code', s', hgen, hmark, _⟩
  rw [gen_bin h, Gen.bind_eq_some.mpr
    ⟨7, code, s₁, _, hl, genRhs_reg himm hgenr (freeReg_spilled hspilled), rfl⟩] at hgen
  cases hgen
  exact Finset.notMem_erase 7 s₂.used hmark

/-- The lowest registers are in use, as they are wherever `alloc_reg` was all
that took any. -/
def Lowest (used : Finset Reg) : Prop := ∀ i ∈ used, ∀ j < i, j ∈ used

theorem Lowest.card {used : Finset Reg} (h : Lowest used) {i : Reg} (hi : i ∉ used)
    (hlow : ∀ j < i, j ∈ used) : used.card = i.val := by
  have hset : used = Finset.Iio i := by
    ext q
    rw [Finset.mem_Iio]
    exact ⟨fun hq => lt_of_not_ge fun hge => hi ((eq_or_lt_of_le hge).elim (fun heq => heq ▸ hq)
      (h q hq i)), hlow q⟩
  rw [hset, Fin.card_Iio]

theorem Lowest.insert {used : Finset Reg} (h : Lowest used) {i : Reg}
    (hlow : ∀ j < i, j ∈ used) : Lowest (insert i used) := by
  intro q hq j hj
  rcases Finset.mem_insert.mp hq with rfl | hq
  · exact Finset.mem_insert_of_mem (hlow j hj)
  · exact Finset.mem_insert_of_mem (h q hq j hj)

theorem need_of_everyCall {t : Node Ty} (ht : IntTree t) {s : GenState} (hs : Lowest s.used)
    (h : EveryCall Contract t s) : regNeed t ≤ max 1 (8 - s.used.card) := by
  induction t generalizing s with
  | num val ty => exact le_max_left _ _
  | lvar var => exact le_max_left _ _
  | bin kind lhs rhs ty ihl ihr =>
      obtain ⟨_, _, hl, hr⟩ := id ht
      obtain ⟨hself, hcalll, hcallr⟩ := h
      have hneedl := ihl hl hs hcalll
      unfold regNeed
      cases himm : immediate rhs with
      | some imm => exact hneedl
      | none =>
          rw [if_neg (by decide)]
          have hposl := regNeed_pos lhs
          have hposr := regNeed_pos rhs
          by_cases hfull : s.used = Finset.univ
          · rw [hfull, Finset.card_fin] at hneedl
            obtain ⟨off, c, s₁, hgen, hused, _⟩ := gen_full hl hfull (by omega)
            have hlow₁ : Lowest s₁.used := fun _ _ j _ => hused ▸ Finset.mem_univ j
            have hneedr := ihr hr hlow₁ (hcallr himm _ _ _ hgen)
            rw [hused, Finset.card_fin] at hneedr
            exact absurd hself
              (contract_fails ht himm hgen (gen_full hr hused (by omega)))
          · have hlt := card_lt_of_ne_univ hfull
            obtain ⟨i, hi, hlow⟩ := exists_lowest_free hfull
            obtain ⟨c, s₁, hgen, hused, _⟩ := gen_within hl hi hlow (by omega)
            have hneedr := ihr hr (hused ▸ hs.insert hlow) (hcallr himm _ _ _ hgen)
            have hcard₁ : s₁.used.card = s.used.card + 1 := by
              rw [hused, Finset.card_insert_of_notMem hi]
            by_cases hlast : s.used.card = 7
            · have hi7 : i = 7 := Fin.ext ((hs.card hi hlow).symm.trans hlast)
              have huniv : s₁.used = Finset.univ :=
                Finset.eq_univ_of_card _ (by rw [hcard₁, hlast]; rfl)
              subst hi7
              exact absurd hself
                (contract_fails ht himm hgen (gen_full hr huniv (by omega)))
            · omega
  | _ => exact False.elim ht

/-- **Integer expressions.** Take any integer tree and any state of the generator.
If the tree needs no more registers than are free, or just one, then `gen` keeps
its contract for the tree and for every subtree it is called for on the way. And
where the registers in use are the lowest, as in every expression statement, it
keeps it only then. -/
theorem gen_right_iff {t : Node Ty} (ht : IntTree t) (s : GenState) :
    (regNeed t ≤ max 1 (8 - s.used.card) → EveryCall Contract t s) ∧
      (Lowest s.used → EveryCall Contract t s → regNeed t ≤ max 1 (8 - s.used.card)) :=
  ⟨everyCall_of_need ht, need_of_everyCall ht⟩

/-- `int a`, the first local of its function. -/
def localA : LVar where
  id := 0
  name := "a"
  offset := 84
  ty := tyInt
  isLocal := true

/-- `a + (a + (… + a))` with `n` plus signs. -/
def nestedSum : Nat → Node Ty
  | 0 => .lvar localA
  | n + 1 => .bin .add (.lvar localA) (nestedSum n) tyInt

/-- Eight operands fit the eight registers. -/
theorem nestedSum_right : EveryCall Contract (nestedSum 7) (GenState.init 0) := by
  have hint : IsInt tyInt := ⟨0, rfl⟩
  have hleaf : IntTree (.lvar localA) := ⟨rfl, hint, le_refl _⟩
  have htree : ∀ n, IntTree (nestedSum n) := by
    intro n
    induction n with
    | zero => exact hleaf
    | succ n ih => exact ⟨rfl, hint, hleaf, ih⟩
  exact (gen_right_iff (htree 7) (GenState.init 0)).1 (by decide)

/-- Nine do not: with `a` = 1 the code computes 8. -/
theorem nestedSum_not_right : ¬ Contract (GenState.init 0) (nestedSum 8) := by
  rintro ⟨r, code, s', hgen, _, _, _, _, hrun⟩
  let m : Machine := ⟨fun _ => 0, 0, none, fun a => if a = -84 then 1 else 0⟩
  obtain ⟨m₁, _, hcode, hval, _⟩ := hrun m
  have hcomputed : ((gen (nestedSum 8) (GenState.init 0)).bind fun p =>
      (exec p.2.1 m).map fun m => m.get32 p.1) = some 8 := by decide +kernel
  have hwanted : intValue m.mem (nestedSum 8) = 9 := by decide +kernel
  rw [hgen, Option.bind_some, hcode, Option.map_some, hval, hwanted] at hcomputed
  exact absurd hcomputed (by decide)

end Rcc

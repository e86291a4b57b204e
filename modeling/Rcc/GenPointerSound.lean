import Rcc.GenPointer
import Rcc.GenConvertSound
import Rcc.GenSound

/-!
# When pointer arithmetic is right

An index is multiplied in the low half of its register, and the product is extended. So what
is added to the pointer is the product reduced to an `int`, and it is the right number of bytes
if that much is an `int` to begin with (`reduced_iff`). How wide the type of the index is makes no difference, nor
whether it is signed.

A difference of pointers is computed in full, and then it is typed `int`.
-/

namespace Rcc.Pointers

open FixedWidth
open Rcc.Convert

/-! ## The index -/

theorem i32_inRange_iff {x : Int} : Convert.i32.InRange x ↔ -(2 ^ 31) ≤ x ∧ x < 2 ^ 31 := Iff.rfl

theorem i32_wrap_cases (z : Int) : ∃ k : Int, Convert.i32.wrap z = z + 2 ^ 32 * k ∧ -(2 ^ 31) ≤ Convert.i32.wrap z ∧ Convert.i32.wrap z < 2 ^ 31 := by
  have hr := i32_inRange_iff.mp (Convert.i32.inRange_wrap z)
  have he : Convert.i32.wrap z % 2 ^ 32 = z % 2 ^ 32 := Convert.i32.wrap_emod z
  refine ⟨Convert.i32.wrap z / 2 ^ 32 - z / 2 ^ 32, ?_, hr⟩
  have h1 := Int.emod_add_mul_ediv (Convert.i32.wrap z) (2 ^ 32)
  have h2 := Int.emod_add_mul_ediv z (2 ^ 32)
  linarith

/-- A product that is reduced to an `int` has the right number of bytes modulo the address space. -/
theorem reduced_iff (base : Ty) (size : Nat) (iv : Int) :
    (2 ^ 64 : Int) ∣ Convert.i32.wrap (iv * base.size) - iv * size ↔ Fits base size iv := by
  obtain ⟨a, ha, hlo, hhi⟩ := i32_wrap_cases (iv * base.size)
  obtain ⟨b, hb, _, _⟩ := i64_wrap_cases (iv * size)
  rw [Fits, i32_inRange_iff, Int.mul_sub]
  generalize iv * (size : Int) = x at *
  generalize iv * (base.size : Int) = y at *
  omega

theorem addr_wrap_eq_iff {x y : Int} : addrTy.wrap x = addrTy.wrap y ↔ (2 ^ 64 : Int) ∣ x - y := by
  show x % (2 ^ 64 : Nat) = y % (2 ^ 64 : Nat) ↔ _
  omega

theorem moved_iff (base : Ty) (size : Nat) (pv iv : Int) (o : Offset) :
    (2 ^ 64 : Int) ∣ o.moved pv (Convert.i32.wrap (iv * base.size)) 1 - o.moved pv iv size ↔ Fits base size iv := by
  rw [← reduced_iff]
  generalize Convert.i32.wrap (iv * base.size) = y
  cases o <;> simp only [Offset.moved] <;> omega

/-! ## The tree -/

variable {p i : Node Ty} {base : Ty} {iv pv : Int} {leaf : Node Ty → Option Int}

theorem base_not_integer (h : p.ty.base? = some base) : isInteger p.ty = false ∧ isFlonum p.ty = false := by
  cases hty : p.ty with
  | bool q => rw [hty] at h; cases h
  | integer k u q => rw [hty] at h; cases h
  | flonum k q => rw [hty] at h; cases h
  | _ => exact ⟨rfl, rfl⟩

theorem integer_no_base (h : isInteger i.ty = true) : i.ty.base? = none := by
  cases hty : i.ty with
  | bool q => rfl
  | integer k u q => rfl
  | _ => rw [hty] at h; cases h

theorem decayArray_base (h : p.ty.base? = some base) : (decayArray p.ty base).base? = some base ∧ opSize (decayArray p.ty base) = 8 := by
  cases hty : p.ty with
  | ptr b q =>
      rw [hty] at h
      exact ⟨h, rfl⟩
  | array b len q => exact ⟨rfl, rfl⟩
  | vla b q => exact ⟨rfl, rfl⟩
  | _ => rw [hty] at h; cases h

/-- An index is always multiplied, and the product always extended. -/
theorem scaleIndex_eq (i : Node Ty) (size : Nat) : scaleIndex i size = .cast (newScaleMul i size) tyLong := rfl

/-- The node of the sum or difference. -/
def offsetNode (kind : BinKind) (p i : Node Ty) (base : Ty) : Node Ty :=
  .bin kind p (scaleIndex i base.size) (decayArray p.ty base)

theorem typeBin_pointer {kind : BinKind} (hkind : kind = .add ∨ kind = .sub) (hp : p.ty.base? = some base)
    (hi : isInteger i.ty = true) : typeBin kind p i = offsetNode kind p i base := by
  have hnum : isNumber p.ty = false := by rw [isNumber, (base_not_integer hp).1, (base_not_integer hp).2]; rfl
  have htype : typeBin kind p i = typeAddSub kind p i := by rcases hkind with rfl | rfl <;> rfl
  rw [htype, typeAddSub, hnum, hp, hi]
  rfl

theorem typeBin_swapped (hp : p.ty.base? = some base) (hi : isInteger i.ty = true) :
    typeBin .add i p = offsetNode .add p i base := by
  have hnum : isNumber p.ty = false := by rw [isNumber, (base_not_integer hp).1, (base_not_integer hp).2]; rfl
  show typeAddSub .add i p = _
  rw [typeAddSub, hnum, Bool.and_false, integer_no_base hi, hp, hi]
  rfl

/-- What is behind `&` and `[]`. -/
def Offset.kind : Offset → BinKind
  | minus => .sub
  | plus | swapped | element => .add

def Offset.checked (p i : Node Ty) (base : Ty) : Offset → Node Ty
  | element => .un .addr (.un .deref (offsetNode .add p i base) base) (pointerTo base)
  | o => offsetNode o.kind p i base

theorem checkType_offset {rp ri : Node Unit} (hp : checkType rp = some p) (hi : checkType ri = some i)
    (hbase : p.ty.base? = some base) (hint : isInteger i.ty = true) (o : Offset) :
    checkType (o.node rp ri) = some (o.checked p i base) := by
  have hbin : ∀ {l r : Node Unit} {l' r' : Node Ty} (kind : BinKind), checkType l = some l' → checkType r = some r' →
      checkType (.bin kind l r ()) = some (typeBin kind l' r') := by
    intro l r l' r' kind hl hr
    rw [checkType, hl, hr]
    rfl
  cases o with
  | plus => exact (hbin .add hp hi).trans (congrArg some (typeBin_pointer (.inl rfl) hbase hint))
  | swapped => exact (hbin .add hi hp).trans (congrArg some (typeBin_swapped hbase hint))
  | minus => exact (hbin .sub hp hi).trans (congrArg some (typeBin_pointer (.inr rfl) hbase hint))
  | element =>
      have hsum := (hbin .add hp hi).trans (congrArg some (typeBin_pointer (.inl rfl) hbase hint))
      have hty : (offsetNode .add p i base).ty.base? = some base := (decayArray_base hbase).1
      rw [Offset.node, checkType, checkType, hsum]
      show (typeUn .deref (offsetNode .add p i base)).bind (typeUn .addr) = _
      rw [typeUn, hty]
      rfl

/-- The size, as the `int` that it comes as. -/
theorem toInt_size (size : Nat) : (BitVec.ofNat 32 size).toInt = Convert.i32.wrap size := by
  have hwrap : Convert.i32.wrap size = (size : Int).bmod (2 ^ Convert.i32.bits) := if_pos rfl
  rw [BitVec.toInt_eq_toNat_bmod, BitVec.toNat_ofNat, Int.natCast_mod, Int.emod_bmod, hwrap, show Convert.i32.bits = 32 from rfl]

theorem i32_mul_wrap (x y : Int) : Convert.i32.wrap (x * Convert.i32.wrap y) = Convert.i32.wrap (x * y) := by
  rw [← IntTy.wrap_mul_wrap, IntTy.wrap_wrap, IntTy.wrap_mul_wrap]

theorem treeValue_scaled (hi : treeValue leaf i = some iv) (size : Nat) :
    treeValue leaf (scaleIndex i size) = some (Convert.i32.wrap (iv * size)) := by
  have hsize : ((BitVec.ofNat 32 size).signExtend 64).toInt = Convert.i32.wrap size := by
    rw [BitVec.toInt_signExtend_of_le (by decide), toInt_size]
  have hmul : treeValue leaf (newScaleMul i size) = some (Convert.i32.wrap (iv * Convert.i32.wrap (Convert.i32.wrap size))) := by
    rw [← hsize, newScaleMul, treeValue, hi]
    rfl
  have hlong : (bitsOf tyLong).wrap (Convert.i32.wrap (iv * size)) = Convert.i32.wrap (iv * size) := wrap_signed_wrap rfl (by decide) _
  rw [IntTy.wrap_wrap, i32_mul_wrap] at hmul
  rw [scaleIndex_eq, treeValue, hmul]
  exact congrArg some hlong

theorem treeValue_offset (hbase : p.ty.base? = some base) (hp : treeValue leaf p = some pv) (hi : treeValue leaf i = some iv)
    (o : Offset) : treeValue leaf (o.checked p i base) = some (addrTy.wrap (o.moved pv (Convert.i32.wrap (iv * base.size)) 1)) := by
  have hindex : (scaleIndex i base.size).ty.base? = none := rfl
  have hsum : treeValue leaf (offsetNode .add p i base) = some (addrTy.wrap (pv + Convert.i32.wrap (iv * base.size))) := by
    rw [offsetNode, treeValue, hp, treeValue_scaled hi]
    simp only [Option.bind_eq_bind, Option.bind_some, nodeValue, hbase]
    rfl
  have hdiff : treeValue leaf (offsetNode .sub p i base) = some (addrTy.wrap (pv - Convert.i32.wrap (iv * base.size))) := by
    rw [offsetNode, treeValue, hp, treeValue_scaled hi]
    simp only [Option.bind_eq_bind, Option.bind_some, nodeValue, hbase, hindex]
  have hone : Convert.i32.wrap (iv * base.size) * ((1 : Nat) : Int) = Convert.i32.wrap (iv * base.size) := Int.mul_one _
  cases o with
  | minus => rw [Offset.moved, hone]; exact hdiff
  | plus => rw [Offset.moved, hone]; exact hsum
  | swapped => rw [Offset.moved, hone]; exact hsum
  | element => rw [Offset.moved, hone]; exact hsum

/-! ## The code of the index -/

variable {other : Node Ty → Gen Reg} {s s₁ s₂ : GenState} {r r₁ r₂ : Reg} {code code₁ code₂ : List Line} {w : BitVec 64}

/-- A field's mask leaves the low half as it is. -/
theorem exec_fieldLines (kind : BinKind) (lhs rhs : Node Ty) (r : Reg) (m : Machine) :
    ∃ m', exec (fieldLines kind lhs rhs r) m = some m' ∧ Puts m m' r (m.get32 r) := by
  rw [fieldLines]
  split
  · next h =>
      refine ⟨_, exec_one rfl, ?_, fun q hq => m.set_reg_of_ne _ hq, rfl⟩
      have hwide : ∀ n : Node Ty, 0 < fieldWidth n → 32 < fieldWidth n := by
        intro n hn
        cases n with
        | member lhs f ty =>
            rw [fieldWidth] at hn ⊢
            split at hn
            · next hc => rw [if_pos hc]; exact hc.1
            · cases hn
        | _ => cases hn
      have hbw : 32 ≤ max (fieldWidth lhs) (fieldWidth rhs) := by
        have hl := hwide lhs
        have hr := hwide rhs
        have hpos := h.2
        omega
      generalize max (fieldWidth lhs) (fieldWidth rhs) = bw at hbw
      show (Function.update m.reg r (m.reg r &&& BitVec.ofNat 64 (2 ^ bw - 1)) r).setWidth 32 = (m.reg r).setWidth 32
      rw [Function.update_self]
      refine BitVec.eq_of_getLsbD_eq fun j hj => ?_
      rw [BitVec.getLsbD_setWidth, BitVec.getLsbD_setWidth, BitVec.getLsbD_and, BitVec.getLsbD_ofNat, Nat.testBit_two_pow_sub_one,
        decide_eq_true (show j < bw by omega), decide_eq_true (show j < 64 by omega), Bool.and_true, Bool.and_true]
  · exact ⟨m, rfl, rfl, fun _ _ => rfl, rfl⟩

theorem setWidth_signExtend (x : BitVec 32) : (x.signExtend 64).setWidth 32 = x := by
  refine BitVec.eq_of_getLsbD_eq fun j hj => ?_
  rw [BitVec.getLsbD_setWidth, BitVec.getLsbD_signExtend, if_pos hj, decide_eq_true hj, decide_eq_true (show j < 64 by omega),
    Bool.true_and, Bool.true_and]

/-- The right operand of the multiplication. -/
def sizeNode (size : Nat) : Node Ty := .num ((BitVec.ofNat 32 size).signExtend 64) tyInt

theorem immediate_size (size : Nat) : immediate (sizeNode size) = some (BitVec.ofNat 32 size) := by
  rw [sizeNode, immediate, fitsInt32, setWidth_signExtend, beq_self_eq_true, if_pos rfl]

section Operators

variable {kind : BinKind} {lhs rhs : Node Ty} {ty : Ty} {genLhs genRhs : Gen Reg}

/-- An operator with a constant on the right. -/
theorem genBinary_imm {imm : BitVec 32} (himm : immediate rhs = some imm) (h : genLhs s = some (r, code, s₁)) :
    genBinary kind lhs rhs ty genLhs genRhs s = some (r, code ++
      (immLines kind (regWidth (binSize kind lhs.ty rhs.ty ty)) imm r ++
        (setLines kind (useUnsignedCmp lhs.ty rhs.ty) r ++ fieldLines kind lhs rhs r)), s₁) := by
  refine Gen.bind_eq_some.mpr ⟨r, code, s₁, _, h, ?_, rfl⟩
  rw [himm]
  conv_rhs => rw [← List.append_nil (fieldLines kind lhs rhs r)]
  rfl

/-- What is printed for a difference of pointers. -/
def differenceLines (kind : BinKind) (lhs rhs : Node Ty) (ty : Ty) (r : Reg) : List Line :=
  match kind, lhs.ty.base?, rhs.ty.base? with
  | .sub, some base, some _ => diffLines (binSize kind lhs.ty rhs.ty ty) (BitVec.ofNat 32 base.size) r
  | _, _, _ => []

/-- An operator between two registers. -/
theorem genBinary_reg (himm : immediate rhs = none) (hl : genLhs s = some (r₁, code₁, s₁)) (hr : genRhs s₁ = some (r₂, code₂, s₂))
    {back : List Line} {s₃ : GenState} (hback : freeReg r₂ s₂ = some ((), back, s₃)) :
    genBinary kind lhs rhs ty genLhs genRhs s = some (r₁, code₁ ++ (code₂ ++
      ((if extendsRhs (regWidth (binSize kind lhs.ty rhs.ty ty)) rhs.ty then [.op (.movslq r₂)] else []) ++
        ([opLine kind (regWidth (binSize kind lhs.ty rhs.ty ty)) r₂ r₁] ++
          (differenceLines kind lhs rhs ty r₁ ++
            (back ++ (setLines kind (useUnsignedCmp lhs.ty rhs.ty) r₁ ++ fieldLines kind lhs rhs r₁)))))), s₃) := by
  refine Gen.bind_eq_some.mpr ⟨r₁, code₁, s₁, _, hl, ?_, rfl⟩
  rw [himm]
  conv_rhs => rw [← List.append_nil (fieldLines kind lhs rhs r₁)]
  refine Gen.bind_eq_some.mpr ⟨r₂, code₂, s₂, _, hr, ?_, rfl⟩
  refine Gen.bind_eq_some.mpr ⟨(), _, s₂, _, rfl, ?_, rfl⟩
  refine Gen.bind_eq_some.mpr ⟨(), _, s₂, _, rfl, ?_, rfl⟩
  refine Gen.bind_eq_some.mpr ⟨(), differenceLines kind lhs rhs ty r₁, s₂, _, rfl, ?_, rfl⟩
  exact Gen.bind_eq_some.mpr ⟨(), back, s₃, _, hback, rfl, rfl⟩

end Operators

/-- Behind the index: the product and its extension. -/
def scaleLines (i : Node Ty) (size : Nat) (r : Reg) : List Line :=
  immLines .mul .l (BitVec.ofNat 32 size) r ++
    (fieldLines .mul i (sizeNode size) r ++ castLines tyInt tyLong r)

theorem gen_scaled (hint : isInteger i.ty = true) (size : Nat) (h : gen other i s = some (r, code, s₁)) :
    gen other (scaleIndex i size) s = some (r, code ++ scaleLines i size r, s₁) := by
  have hmul : gen other (newScaleMul i size) s = some (r, code ++ (immLines .mul .l (BitVec.ofNat 32 size) r ++
      fieldLines .mul i (sizeNode size) r), s₁) := by
    have hgen : gen other (newScaleMul i size) =
        genBinary .mul i (sizeNode size) tyInt (gen other i) (gen other (sizeNode size)) := by
      rw [newScaleMul, gen, isScalar, hint]
      rfl
    rw [hgen]
    exact genBinary_imm (immediate_size size) h
  have hgen : gen other (scaleIndex i size) = genCast (gen other (newScaleMul i size)) tyInt tyLong := by
    rw [scaleIndex_eq, gen]
    rfl
  rw [hgen, scaleLines, ← List.append_assoc, ← List.append_assoc, ← List.append_nil (castLines tyInt tyLong r)]
  refine Gen.bind_eq_some.mpr ⟨r, _, s₁, _, hmul, rfl, ?_⟩
  simp only [List.append_assoc]

theorem exec_scaleLines (hint : isInteger i.ty = true) (size : Nat) (r : Reg) {m : Machine} (hi : Carries i.ty iv (m.reg r)) :
    ∃ m', exec (scaleLines i size r) m = some m' ∧ Leaves m m' r (Convert.i32.wrap (iv * size)) := by
  obtain ⟨m₁, hmul, hproduct⟩ := @exec_immLines .mul rfl (BitVec.ofNat 32 size) r m
  rw [show setLines .mul false r = [] from rfl, List.append_nil] at hmul
  obtain ⟨m₂, hfield, hkept⟩ := exec_fieldLines .mul i (sizeNode size) r m₁
  obtain ⟨m₃, hcast, hleaves⟩ := @exec_castLines tyInt tyLong rfl rfl r m₂
  refine ⟨m₃, exec_append_of_some hmul (exec_append_of_some hfield hcast), ?_, fun q hq => ?_, ?_⟩
  · have hlow : ∀ w : BitVec 64, (w.setWidth 32).toInt = Convert.i32.wrap w.toInt := wrap_toInt_signed (by decide) (by decide)
    have hwrap : ∀ x : Int, x.bmod (2 ^ 32) = Convert.i32.wrap x := fun x => (if_pos rfl).symm
    rw [hleaves.value]
    show Convert.i32.wrap (m₂.reg r).toInt = _
    rw [← hlow, show (m₂.reg r).setWidth 32 = m₂.get32 r from rfl, hkept.value, hproduct.value]
    show ((m.get32 r) * BitVec.ofNat 32 size).toInt = _
    rw [BitVec.toInt_mul, Machine.get32, hlow, hi.low hint (le_refl 32), toInt_size, hwrap, IntTy.wrap_mul_wrap]
  · rw [hleaves.others q hq, hkept.others q hq, hproduct.others q hq]
  · rw [hleaves.mem, hkept.mem, hproduct.mem]

/-! ## Sums and differences with an index -/

theorem typeBin_bin (kind : BinKind) (lhs rhs : Node Ty) : ∃ l r ty, typeBin kind lhs rhs = .bin kind l r ty := by
  have haddsub : ∀ kind, ∃ l r ty, typeAddSub kind lhs rhs = .bin kind l r ty := by
    intro kind
    rw [typeAddSub]
    split
    · exact ⟨_, _, _, rfl⟩
    split
    · split
      · exact ⟨_, _, _, rfl⟩
      · exact ⟨_, _, _, rfl⟩
    · split
      · split
        · exact ⟨_, _, _, rfl⟩
        · exact ⟨_, _, _, rfl⟩
      · exact ⟨_, _, _, rfl⟩
    · exact ⟨_, _, _, rfl⟩
  have hcompare : ∀ kind, ∃ l r ty, typeCompare kind lhs rhs = .bin kind l r ty := by
    intro kind
    rw [typeCompare]
    split
    · exact ⟨_, _, _, rfl⟩
    · exact ⟨_, _, _, rfl⟩
  cases kind with
  | add | sub => exact haddsub _
  | eq | ne | lt | le => exact hcompare _
  | _ => exact ⟨_, _, _, rfl⟩

/-- A member has the type that `check_type` gives it. -/
theorem checkType_member {rp : Node Unit} {lhs : Node Ty} {f : Member} {ty : Ty} (h : checkType rp = some (.member lhs f ty)) :
    ty = memberType f := by
  cases rp with
  | member l m u =>
      rw [checkType, Option.bind_eq_bind, Option.bind_eq_some_iff] at h
      obtain ⟨l', _, heq⟩ := h
      cases heq
      rfl
  | bin kind l r u =>
      rw [checkType] at h
      obtain ⟨l', _, h⟩ := Option.bind_eq_some_iff.mp h
      obtain ⟨r', _, h⟩ := Option.bind_eq_some_iff.mp h
      obtain ⟨_, _, _, hbin⟩ := typeBin_bin kind l' r'
      cases hbin.symm.trans (Option.some_inj.mp h)
  | un kind l u =>
      rw [checkType] at h
      obtain ⟨l', _, h⟩ := Option.bind_eq_some_iff.mp h
      cases kind with
      | deref =>
          obtain ⟨_, _, h⟩ := Option.map_eq_some_iff.mp h
          cases h
      | _ => cases h
  | _ => simp [checkType, Option.bind_eq_some_iff] at h

/-- A pointer is no bit-field. -/
theorem fieldWidth_pointer {rp : Node Unit} (hp : checkType rp = some p) (hbase : p.ty.base? = some base) : fieldWidth p = 0 := by
  cases p with
  | member lhs f ty =>
      have hty := checkType_member hp
      rw [fieldWidth]
      split
      · next hc =>
          obtain ⟨hlow, _, hsize, hunsigned⟩ := hc
          have hwide : memberType f = f.ty := by rw [memberType, if_pos (by omega), if_pos hsize]
          have hb : f.ty.base? = some base := by rw [← hwide, ← hty]; exact hbase
          cases hfty : f.ty with
          | bool q => rw [hfty] at hb; cases hb
          | integer k u q => rw [hfty] at hb; cases hb
          | _ => rw [hfty] at hunsigned; cases hunsigned
      · rfl
  | _ => rfl

theorem fieldLines_none {kind : BinKind} {lhs rhs : Node Ty} (hl : fieldWidth lhs = 0) (hr : fieldWidth rhs = 0) (r : Reg) :
    fieldLines kind lhs rhs r = [] := by
  rw [fieldLines, hl, hr, if_neg]
  exact fun h => absurd h.2 (by decide)

/-- What is printed behind the operands. -/
def offsetLines (o : Offset) (i : Node Ty) (base : Ty) (r₁ r₂ : Reg) (back : List Line) : List Line :=
  scaleLines i base.size r₂ ++ ([.op (.alu (if o = .minus then .sub else .add) .q r₂ r₁)] ++ back)

theorem gen_offsetNode {kind : BinKind} (hkind : kind = .add ∨ kind = .sub) (hbase : p.ty.base? = some base) (hfield : fieldWidth p = 0)
    (hint : isInteger i.ty = true) (hp : gen other p s = some (r₁, code₁, s₁)) (hi : gen other i s₁ = some (r₂, code₂, s₂))
    {back : List Line} {s₃ : GenState} (hback : freeReg r₂ s₂ = some ((), back, s₃)) :
    gen other (offsetNode kind p i base) s = some (r₁, code₁ ++ (code₂ ++ (scaleLines i base.size r₂ ++
      ([.op (.alu (if kind = .sub then .sub else .add) .q r₂ r₁)] ++ back))), s₃) := by
  have hsize : binSize kind p.ty (scaleIndex i base.size).ty (decayArray p.ty base) = 8 := by
    have hcompare : kind.isCompare = false := by rcases hkind with rfl | rfl <;> rfl
    rw [binSize, hcompare, (decayArray_base hbase).2]
    rfl
  have hgen : gen other (offsetNode kind p i base) =
      genBinary kind p (scaleIndex i base.size) (decayArray p.ty base) (gen other p) (gen other (scaleIndex i base.size)) := by
    have hop : kind.isGenOp = true := by rcases hkind with rfl | rfl <;> rfl
    rw [offsetNode, gen, hop, isScalar, hbase, Option.isSome_some, Bool.or_true]
    rfl
  have hcode := @genBinary_reg _ _ _ _ _ _ _ kind p (scaleIndex i base.size) (decayArray p.ty base) _ _ rfl hp
    (gen_scaled hint base.size hi) _ _ hback
  have hdiff : differenceLines kind p (scaleIndex i base.size) (decayArray p.ty base) r₁ = [] := by
    have hindex : (scaleIndex i base.size).ty.base? = none := rfl
    rcases hkind with rfl | rfl
    · rfl
    · simp only [differenceLines, hbase, hindex]
  have hset : setLines kind (useUnsignedCmp p.ty (scaleIndex i base.size).ty) r₁ = [] := by rcases hkind with rfl | rfl <;> rfl
  have hline : opLine kind .q r₂ r₁ = .op (.alu (if kind = .sub then .sub else .add) .q r₂ r₁) := by
    rcases hkind with rfl | rfl <;> rfl
  rw [hsize, hdiff, hset, fieldLines_none hfield rfl, show regWidth 8 = .q from rfl, hline, List.append_nil, List.append_nil] at hcode
  rw [hgen, hcode, List.append_assoc]
  rfl

theorem gen_offset (o : Offset) (hbase : p.ty.base? = some base) (hfield : fieldWidth p = 0) (hint : isInteger i.ty = true)
    (hp : gen other p s = some (r₁, code₁, s₁)) (hi : gen other i s₁ = some (r₂, code₂, s₂))
    {back : List Line} {s₃ : GenState} (hback : freeReg r₂ s₂ = some ((), back, s₃)) :
    gen other (o.checked p i base) s = some (r₁, code₁ ++ (code₂ ++ offsetLines o i base r₁ r₂ back), s₃) := by
  have hnode := fun kind hkind => @gen_offsetNode p i base other s s₁ s₂ r₁ r₂ code₁ code₂ kind hkind hbase hfield hint hp hi back s₃ hback
  cases o with
  | plus => exact hnode .add (.inl rfl)
  | swapped => exact hnode .add (.inl rfl)
  | minus => exact hnode .sub (.inr rfl)
  | element => exact hnode .add (.inl rfl)

theorem exec_offsetLines (o : Offset) (hint : isInteger i.ty = true) (hne : r₁ ≠ r₂) {m : Machine} (hp : m.reg r₁ = pattern64 pv)
    (hi : Carries i.ty iv (m.reg r₂)) (s₂ : GenState) {back : List Line} {s₃ : GenState}
    (hback : freeReg r₂ s₂ = some ((), back, s₃)) : ∃ m', exec (offsetLines o i base r₁ r₂ back) m = some m' ∧
      m'.reg r₁ = pattern64 (o.moved pv (Convert.i32.wrap (iv * base.size)) 1) := by
  obtain ⟨m₁, hscale, hleaves⟩ := exec_scaleLines hint base.size r₂ hi
  obtain ⟨back', hfree, hrun⟩ := freeReg_others r₂ s₂
  rw [hback, Option.some_inj, Prod.mk.injEq, Prod.mk.injEq] at hfree
  obtain ⟨_, rfl, _⟩ := hfree
  let moved : BitVec 64 := (if o = .minus then AluOp.sub else .add).apply (m₁.reg r₁) (m₁.reg r₂)
  obtain ⟨m₃, hfreed, hothers⟩ := hrun { m₁.set r₁ moved with flags := none }
  refine ⟨m₃, exec_append_of_some hscale (exec_append_of_some (exec_one rfl) hfreed), ?_⟩
  have hindex : m₁.reg r₂ = pattern64 (Convert.i32.wrap (iv * base.size)) := by rw [← hleaves.value, pattern64_toInt]
  rw [hothers r₁ hne]
  show Function.update m₁.reg r₁ moved r₁ = _
  rw [Function.update_self]
  show (if o = .minus then AluOp.sub else .add).apply (m₁.reg r₁) (m₁.reg r₂) = _
  rw [hleaves.others r₁ hne, hp, hindex]
  have hone : Convert.i32.wrap (iv * base.size) * ((1 : Nat) : Int) = Convert.i32.wrap (iv * base.size) := Int.mul_one _
  cases o with
  | minus => rw [Offset.moved, hone, pattern64_sub]; rfl
  | plus => rw [Offset.moved, hone, pattern64_add]; rfl
  | swapped => rw [Offset.moved, hone, pattern64_add]; rfl
  | element => rw [Offset.moved, hone, pattern64_add]; rfl

/-- An index: the typed tree has the right address, and the code computes it, if and only if the bytes fit. -/
def OffsetRight (other : Node Ty → Gen Reg) (p i : Node Ty) (base : Ty) (n : Node Ty) (o : Offset) : Prop :=
  (∀ (leaf : Node Ty → Option Int) pv iv size, treeValue leaf p = some pv → treeValue leaf i = some iv →
    (treeValue leaf n = some (addrTy.wrap (o.moved pv iv size)) ↔ Fits base size iv)) ∧
  ∀ s r₁ c₁ s₁ r₂ c₂ s₂, gen other p s = some (r₁, c₁, s₁) → gen other i s₁ = some (r₂, c₂, s₂) →
    ∃ tail s', gen other n s = some (r₁, c₁ ++ (c₂ ++ tail), s') ∧
      ∀ m pv iv size, r₁ ≠ r₂ → m.reg r₁ = pattern64 pv → Carries i.ty iv (m.reg r₂) →
        ∃ m', exec tail m = some m' ∧ (m'.reg r₁ = pattern64 (o.moved pv iv size) ↔ Fits base size iv)

theorem offset_right (other : Node Ty → Gen Reg) {rp : Node Unit} (hp : checkType rp = some p) (hbase : p.ty.base? = some base)
    (hint : isInteger i.ty = true) (o : Offset) : OffsetRight other p i base (o.checked p i base) o := by
  constructor
  · intro leaf pv iv size hpv hiv
    rw [treeValue_offset hbase hpv hiv, Option.some_inj, addr_wrap_eq_iff, moved_iff]
  · intro s r₁ c₁ s₁ r₂ c₂ s₂ hgp hgi
    obtain ⟨back, hback, _⟩ := freeReg_others r₂ s₂
    refine ⟨_, _, gen_offset o hbase (fieldWidth_pointer hp hbase) hint hgp hgi hback, fun m pv iv size hne hpv hiv => ?_⟩
    obtain ⟨m', hrun, hvalue⟩ := @exec_offsetLines i base iv pv r₁ r₂ o hint hne m hpv hiv s₂ back _ hback
    refine ⟨m', hrun, ?_⟩
    rw [hvalue, pattern64_eq_iff, ← moved_iff base size pv iv o]
    show _ % (2 ^ 64 : Int) = _ % (2 ^ 64 : Int) ↔ _
    generalize o.moved pv _ 1 = x
    generalize o.moved pv iv size = y
    omega

/-! ## Differences -/

variable {q : Node Ty} {base' : Ty} {k qv : Int} {size : Nat}

/-- A right operand that is an array and not wide has few bytes. -/
theorem opSize_pointer (h : p.ty.base? = some base) :
    opSize p.ty = 8 ∨ ∃ len qual, p.ty = .array base len qual ∧ opSize p.ty = base.size * len ∧ base.size * len < 8 := by
  cases hty : p.ty with
  | ptr b ql => exact .inl rfl
  | vla b ql => exact .inl rfl
  | array b len ql =>
      rw [hty] at h
      obtain rfl : b = base := Option.some_inj.mp h
      have hsize : opSize (.array b len ql) = if b.size * len > 8 then 8 else b.size * len := rfl
      rw [hsize]
      by_cases hwide : b.size * len > 8
      · exact .inl (if_pos hwide)
      · rw [if_neg hwide]
        by_cases height : b.size * len = 8
        · exact .inl height
        · exact .inr ⟨len, ql, rfl, rfl, by omega⟩
  | _ => rw [hty] at h; cases h

theorem typeBin_difference (hq : q.ty.base? = some base) (hp : p.ty.base? = some base') :
    typeBin .sub q p = .bin .sub q p tyInt := by
  have hnum : isNumber q.ty = false := by rw [isNumber, (base_not_integer hq).1, (base_not_integer hq).2]; rfl
  show typeAddSub .sub q p = _
  rw [typeAddSub, hnum, hq, hp, (base_not_integer hp).1]
  rfl

theorem checkType_difference {rq rp : Node Unit} (hq : checkType rq = some q) (hp : checkType rp = some p)
    (hqb : q.ty.base? = some base) (hpb : p.ty.base? = some base') :
    checkType (.bin .sub rq rp ()) = some (.bin .sub q p tyInt) := by
  rw [checkType, hq, hp]
  exact congrArg some (typeBin_difference hqb hpb)

theorem counts_iff (base : Ty) (size : Nat) (k : Int) :
    Convert.i32.wrap (elements (elemSize base) (k * size)) = k ↔ Counts base size k := by
  rw [Counts, i32_inRange_iff]
  obtain ⟨a, ha, hlo, hhi⟩ := i32_wrap_cases (elements (elemSize base) (k * size))
  generalize elements (elemSize base) (k * size) = x at *
  omega

theorem treeValue_difference (hqb : q.ty.base? = some base) (hpb : p.ty.base? = some base')
    (hq : treeValue leaf q = some (pv + k * size)) (hp : treeValue leaf p = some pv) (hrange : i64.InRange (k * size)) :
    treeValue leaf (.bin .sub q p tyInt) = some (Convert.i32.wrap (elements (elemSize base) (k * size))) := by
  rw [treeValue, hq, hp]
  simp only [Option.bind_eq_bind, Option.bind_some, nodeValue, hqb, hpb]
  rw [show pv + k * size - pv = k * size by omega, IntTy.wrap_of_inRange hrange]
  rfl

theorem toInt_low (w : BitVec 64) : (w.setWidth 32).toInt = Convert.i32.wrap w.toInt := wrap_toInt_signed (by decide) (by decide) w

theorem i32_toInt (v : BitVec 32) : Convert.i32.wrap v.toInt = v.toInt := by
  rw [IntTy.wrap_eq_self_iff, i32_inRange_iff]
  have hlo := v.le_toInt
  have hhi := v.toInt_lt
  omega

theorem quotient_eq {n : Nat} (hn : 0 < n) {a b : BitVec n} (hb : 1 < b.toInt) :
    ∃ q : BitVec n, quotient a b = some q ∧ q.toInt = a.toInt.tdiv b.toInt := by
  have hlo := a.le_toInt
  have hhi := a.toInt_lt
  have hle : (a.toInt.tdiv b.toInt).natAbs ≤ a.toInt.natAbs := by
    rw [Int.natAbs_tdiv]
    exact Nat.div_le_self _ _
  have hself : (BitVec.ofInt n (a.toInt.tdiv b.toInt)).toInt = a.toInt.tdiv b.toInt := by
    have hsign : 0 ≤ a.toInt → 0 ≤ a.toInt.tdiv b.toInt := fun h => Int.tdiv_nonneg h (by omega)
    have hneg : a.toInt ≤ 0 → a.toInt.tdiv b.toInt ≤ 0 := fun h => by
      have hflip : 0 ≤ (-a.toInt).tdiv b.toInt := Int.tdiv_nonneg (by omega) (by omega)
      rw [Int.neg_tdiv] at hflip
      omega
    exact BitVec.toInt_ofInt_eq_self hn (by omega) (by omega)
  refine ⟨_, if_neg ?_, hself⟩
  rintro (hzero | hne)
  · omega
  · exact hne hself

/-- The division of so many bytes, if the difference is there. -/
theorem exec_diffLines {sz : Nat} {elemSz : BitVec 32} {r : Reg} {m : Machine} {x : Int}
    (hx : if sz = 4 then (m.get32 r).toInt = x else (m.reg r).toInt = x)
    (hdivides : sz = 8 ∨ sz = 4 ∨ elemSz.toInt ≤ 1 ∨ elemSz &&& (elemSz - 1) = 0) :
    ∃ m', exec (diffLines sz elemSz r) m = some m' ∧ (m'.get32 r).toInt = Convert.i32.wrap (elements elemSz x) := by
  rw [diffLines, elements]
  by_cases hone : elemSz.toInt > 1
  swap
  · rw [if_neg hone, if_neg hone]
    refine ⟨m, rfl, ?_⟩
    split at hx
    · rw [← hx, i32_toInt]
    · rw [← hx]
      exact toInt_low _
  rw [if_pos hone, if_pos hone]
  by_cases hpow : elemSz &&& (elemSz - 1) = 0
  · obtain ⟨j, hj, hnat⟩ := exists_two_pow (by omega) hpow
    have hsize : elemSz.toInt = 2 ^ j := by
      rw [BitVec.toInt_eq_toNat_cond] at hone ⊢
      split at hone
      · next h => rw [if_pos h, hnat, Nat.cast_pow]; rfl
      · omega
    rw [if_pos hpow, if_pos hpow, hnat, Nat.log2_two_pow, hsize]
    by_cases h4 : sz = 4
    · rw [if_pos h4] at hx
      rw [regWidth, if_pos h4]
      refine ⟨_, exec_one rfl, ?_⟩
      have hshift : ((m.get32 r).sshiftRight j).toInt = x / 2 ^ j := by
        rw [BitVec.toInt_sshiftRight, hx, Int.shiftRight_eq_div_pow, Nat.cast_pow]
        rfl
      show ((m.set32 r ((m.get32 r).sshiftRight j)).get32 r).toInt = _
      rw [m.get32_set32, ← hshift, i32_toInt]
    · rw [if_neg h4] at hx
      rw [regWidth, if_neg h4]
      refine ⟨_, exec_one rfl, ?_⟩
      show ((m.set r ((m.reg r).sshiftRight j)).get32 r).toInt = _
      rw [Machine.get32, Machine.set_reg, Function.update_self, toInt_low, BitVec.toInt_sshiftRight, hx, Int.shiftRight_eq_div_pow,
        Nat.cast_pow]
      rfl
  have hsz : sz = 8 ∨ sz = 4 := by
    rcases hdivides with h | h | h | h
    · exact .inl h
    · exact .inr h
    · omega
    · exact absurd h hpow
  rw [if_neg hpow, if_neg hpow, if_pos hsz]
  by_cases h4 : sz = 4
  · rw [if_pos h4] at hx
    rw [regWidth, if_pos h4]
    obtain ⟨quot, hquot, hvalue⟩ := @quotient_eq 32 (by decide) (m.get32 r) elemSz hone
    refine ⟨{ (m.set32 1 elemSz).set32 r quot with al := quot.setWidth 8, flags := none }, exec_one ?_, ?_⟩
    · rw [Op.run, hquot]
      rfl
    · show (((m.set32 1 elemSz).set32 r quot).get32 r).toInt = _
      rw [Machine.get32_set32, ← hx, ← hvalue, i32_toInt]
  · rw [if_neg h4] at hx
    rw [regWidth, if_neg h4]
    have hwide : (elemSz.signExtend 64).toInt = elemSz.toInt := BitVec.toInt_signExtend_of_le (by decide)
    obtain ⟨quot, hquot, hvalue⟩ := @quotient_eq 64 (by decide) (m.reg r) (elemSz.signExtend 64) (by rw [hwide]; exact hone)
    refine ⟨{ (m.set 1 (elemSz.signExtend 64)).set r quot with al := quot.setWidth 8, flags := none }, exec_one ?_, ?_⟩
    · rw [Op.run, hquot]
      rfl
    · show (((m.set 1 (elemSz.signExtend 64)).set r quot).get32 r).toInt = _
      rw [Machine.get32, Machine.set_reg, Function.update_self, toInt_low, hvalue, hwide, hx]

theorem binSize_difference (q p : Node Ty) : binSize .sub q.ty p.ty tyInt = max 4 (opSize p.ty) := by
  rw [binSize]
  show (if 4 < opSize p.ty then opSize p.ty else 4) = _
  split <;> omega

/-- The code behind the two pointers. -/
def differenceTail (p : Node Ty) (base : Ty) (r₁ r₂ : Reg) (back : List Line) : List Line :=
  [opLine .sub (regWidth (max 4 (opSize p.ty))) r₂ r₁] ++ (diffLines (max 4 (opSize p.ty)) (elemSize base) r₁ ++ back)

theorem gen_difference (hqb : q.ty.base? = some base) (hpb : p.ty.base? = some base') (himm : immediate p = none)
    (hqf : fieldWidth q = 0) (hpf : fieldWidth p = 0) (hq : gen other q s = some (r₁, code₁, s₁))
    (hp : gen other p s₁ = some (r₂, code₂, s₂)) {back : List Line} {s₃ : GenState} (hback : freeReg r₂ s₂ = some ((), back, s₃)) :
    gen other (.bin .sub q p tyInt) s = some (r₁, code₁ ++ (code₂ ++ differenceTail p base r₁ r₂ back), s₃) := by
  have hgen : gen other (.bin .sub q p tyInt) = genBinary .sub q p tyInt (gen other q) (gen other p) := by
    rw [gen, isScalar, isScalar, hqb, hpb, Option.isSome_some, Option.isSome_some, Bool.or_true, Bool.or_true]
    rfl
  have hcode := @genBinary_reg _ _ _ _ _ _ _ .sub q p tyInt _ _ himm hq hp _ _ hback
  have hdiff : differenceLines .sub q p tyInt r₁ = diffLines (max 4 (opSize p.ty)) (elemSize base) r₁ := by
    simp only [differenceLines, hqb, hpb, binSize_difference]
    rfl
  have hextends : extendsRhs (regWidth (max 4 (opSize p.ty))) p.ty = false := by
    rw [extendsRhs, regWidth]
    by_cases h4 : opSize p.ty = 4
    · rw [h4]
      rfl
    · rw [beq_false_of_ne h4, Bool.and_false, Bool.false_and]
  rw [binSize_difference, hdiff, hextends, fieldLines_none hqf hpf, show setLines .sub _ r₁ = [] from rfl, List.append_nil,
    List.append_nil] at hcode
  rw [hgen, hcode]
  rfl

/-- The difference of the addresses, at the width of the operation. -/
theorem exec_subtraction {sz : Nat} {m : Machine} {x y : Int} (hx : m.reg r₁ = pattern64 x) (hy : m.reg r₂ = pattern64 y)
    (hrange : i64.InRange (x - y)) (hnarrow : sz = 4 → Convert.i32.InRange (x - y)) :
    ∃ m', exec [opLine .sub (regWidth sz) r₂ r₁] m = some m' ∧
      if sz = 4 then (m'.get32 r₁).toInt = x - y else (m'.reg r₁).toInt = x - y := by
  have hdiff : m.reg r₁ - m.reg r₂ = pattern64 (x - y) := by rw [hx, hy, pattern64_sub]
  rw [regWidth]
  by_cases h4 : sz = 4
  · rw [if_pos h4]
    refine ⟨_, exec_one rfl, ?_⟩
    rw [if_pos h4]
    show ((m.set32 r₁ (m.get32 r₁ - m.get32 r₂)).get32 r₁).toInt = _
    have hlow : m.get32 r₁ - m.get32 r₂ = (m.reg r₁ - m.reg r₂).setWidth 32 := by
      rw [BitVec.sub_eq_add_neg, BitVec.sub_eq_add_neg, BitVec.setWidth_add _ _ (by decide), BitVec.setWidth_neg_of_le (by decide)]
      rfl
    rw [m.get32_set32, hlow, toInt_low, hdiff, toInt_pattern64, IntTy.wrap_of_inRange hrange,
      IntTy.wrap_of_inRange (hnarrow h4)]
  · rw [if_neg h4]
    refine ⟨_, exec_one rfl, ?_⟩
    rw [if_neg h4]
    show (Function.update m.reg r₁ (m.reg r₁ - m.reg r₂) r₁).toInt = _
    rw [Function.update_self, hdiff, toInt_pattern64, IntTy.wrap_of_inRange hrange]

theorem exec_differenceTail (hdivides : Divides base p.ty) {m : Machine} (hq : m.reg r₁ = pattern64 qv) (hp : m.reg r₂ = pattern64 pv)
    (hrange : i64.InRange (qv - pv)) (hnarrow : opSize p.ty ≤ 4 → Convert.i32.InRange (qv - pv)) (hne : r₁ ≠ r₂) {back : List Line}
    {s₃ : GenState} (hback : freeReg r₂ s₂ = some ((), back, s₃)) : ∃ m', exec (differenceTail p base r₁ r₂ back) m = some m' ∧
      Convert.i32.wrap (m'.reg r₁).toInt = Convert.i32.wrap (elements (elemSize base) (qv - pv)) := by
  obtain ⟨back', hfree, hrun⟩ := freeReg_others r₂ s₂
  rw [hback, Option.some_inj, Prod.mk.injEq, Prod.mk.injEq] at hfree
  obtain ⟨_, rfl, _⟩ := hfree
  have hsz : max 4 (opSize p.ty) = 4 → opSize p.ty ≤ 4 := by omega
  obtain ⟨m₁, hsub, hvalue⟩ := @exec_subtraction r₁ r₂ (max 4 (opSize p.ty)) m qv pv hq hp hrange (fun h => hnarrow (hsz h))
  have hcan : max 4 (opSize p.ty) = 8 ∨ max 4 (opSize p.ty) = 4 ∨ (elemSize base).toInt ≤ 1 ∨
      elemSize base &&& (elemSize base - 1) = 0 := by
    rcases hdivides with h | h | h | h
    · exact .inr (.inl (by omega))
    · exact .inl (by omega)
    · exact .inr (.inr (.inl h))
    · exact .inr (.inr (.inr h))
  obtain ⟨m₂, hdiff, hcount⟩ := exec_diffLines hvalue hcan
  obtain ⟨m₃, hfreed, hothers⟩ := hrun m₂
  refine ⟨m₃, exec_append_of_some hsub (exec_append_of_some hdiff hfreed), ?_⟩
  rw [hothers r₁ hne, ← toInt_low, ← hcount]
  rfl

/-- Otherwise a line is printed that is no instruction. -/
theorem exec_not_divides (h : ¬ Divides base p.ty) (m : Machine) (back : List Line) :
    exec (differenceTail p base r₁ r₂ back) m = none := by
  rw [Divides, not_or, not_or, not_or] at h
  obtain ⟨hfour, height, hone, hpow⟩ := h
  have hsz : ¬ (max 4 (opSize p.ty) = 8 ∨ max 4 (opSize p.ty) = 4) := by omega
  have hlines : diffLines (max 4 (opSize p.ty)) (elemSize base) r₁ = [.op (.movEax r₁)] := by
    rw [diffLines, if_pos (by omega), if_neg hpow, if_neg hsz]
  rw [differenceTail, hlines, exec_append]
  cases exec [opLine .sub (regWidth (max 4 (opSize p.ty))) r₂ r₁] m with
  | none => rfl
  | some m' => rfl

/-- What an array holds in all is no more than its own size. -/
theorem narrow_range (hpb : p.ty.base? = some base') (hsize : ElementSize size base')
    (hlen : ∀ len qual, p.ty = .array base' len qual → k.natAbs ≤ len) (h4 : opSize p.ty ≤ 4) : Convert.i32.InRange (k * size) := by
  obtain height | ⟨len, qual, hty, hop, _⟩ := opSize_pointer hpb
  · omega
  have hk := hlen len qual hty
  rw [hop] at h4
  have hbytes : k.natAbs * size ≤ 4 := by
    cases base' with
    | vla b ql =>
        have hvla : Ty.size (.vla b ql) = 16 := rfl
        rw [hvla] at h4
        have hnone : k.natAbs = 0 := by omega
        rw [hnone, Nat.zero_mul]
        omega
    | _ =>
        rw [hsize]
        calc k.natAbs * _ ≤ len * _ := Nat.mul_le_mul_right _ hk
          _ ≤ 4 := by rw [Nat.mul_comm]; exact h4
  have habs : (k * size).natAbs ≤ 4 := by rw [Int.natAbs_mul, Int.natAbs_natCast]; exact hbytes
  rw [i32_inRange_iff]
  omega

theorem carries_int (v : Int) (w : BitVec 64) : Carries tyInt v w ↔ Convert.i32.wrap w.toInt = v :=
  carries_wide rfl (by decide) (fun _ => rfl)

/-- A difference: the typed tree is the number of elements if and only if that is counted rightly, and the code leaves it
if and only if there is an instruction, too. -/
def DifferenceRight (other : Node Ty → Gen Reg) (q p : Node Ty) (base base' : Ty) (n : Node Ty) : Prop :=
  (∀ (leaf : Node Ty → Option Int) pv k (size : Nat), i64.InRange (k * size) → treeValue leaf q = some (pv + k * size) →
    treeValue leaf p = some pv → (treeValue leaf n = some k ↔ Counts base size k)) ∧
  ∀ s r₁ c₁ s₁ r₂ c₂ s₂, gen other q s = some (r₁, c₁, s₁) → gen other p s₁ = some (r₂, c₂, s₂) →
    ∃ tail s', gen other n s = some (r₁, c₁ ++ (c₂ ++ tail), s') ∧
      ∀ m pv k (size : Nat), r₁ ≠ r₂ → ElementSize size base' → i64.InRange (k * size) →
        (∀ len qual, p.ty = .array base' len qual → k.natAbs ≤ len) →
        m.reg r₁ = pattern64 (pv + k * size) → m.reg r₂ = pattern64 pv →
        ((∃ m', exec tail m = some m' ∧ Carries tyInt k (m'.reg r₁)) ↔ Counts base size k ∧ Divides base p.ty)

theorem difference_right (other : Node Ty → Gen Reg) {rq rp : Node Unit} (hq : checkType rq = some q) (hp : checkType rp = some p)
    (hqb : q.ty.base? = some base) (hpb : p.ty.base? = some base') (himm : immediate p = none) :
    DifferenceRight other q p base base' (.bin .sub q p tyInt) := by
  constructor
  · intro leaf pv k size hrange hqv hpv
    rw [treeValue_difference hqb hpb hqv hpv hrange, Option.some_inj, counts_iff]
  · intro s r₁ c₁ s₁ r₂ c₂ s₂ hgq hgp
    obtain ⟨back, hback, _⟩ := freeReg_others r₂ s₂
    refine ⟨_, _, gen_difference hqb hpb himm (fieldWidth_pointer hq hqb) (fieldWidth_pointer hp hpb) hgq hgp hback, ?_⟩
    intro m pv k size hne hsize hrange hlen hqv hpv
    have hk : pv + k * size - pv = k * size := by omega
    constructor
    · rintro ⟨m', hrun, hcarries⟩
      have hdivides : Divides base p.ty := by
        by_contra hno
        rw [exec_not_divides hno] at hrun
        cases hrun
      obtain ⟨m'', hrun', hvalue⟩ := @exec_differenceTail p base pv s₂ r₁ r₂ (pv + k * size) hdivides m hqv hpv (by rwa [hk])
        (fun h4 => hk.symm ▸ narrow_range hpb hsize hlen h4) hne back _ hback
      obtain rfl : m'' = m' := Option.some_inj.mp (hrun'.symm.trans hrun)
      rw [carries_int, hvalue, hk, counts_iff] at hcarries
      exact ⟨hcarries, hdivides⟩
    · rintro ⟨hcounts, hdivides⟩
      obtain ⟨m', hrun, hvalue⟩ := @exec_differenceTail p base pv s₂ r₁ r₂ (pv + k * size) hdivides m hqv hpv (by rwa [hk])
        (fun h4 => hk.symm ▸ narrow_range hpb hsize hlen h4) hne back _ hback
      refine ⟨m', hrun, ?_⟩
      rw [carries_int, hvalue, hk, counts_iff]
      exact hcounts

/-! ## Both -/

/-- A pointer is no number: those are integers. -/
theorem immediate_pointer {rp : Node Unit} (hp : checkType rp = some p) (hpb : p.ty.base? = some base)
    (hnum : ∀ val ty, rp = .num val ty → isInteger ty = true) : immediate p = none := by
  cases p with
  | num val ty =>
      have hraw : rp = .num val ty := by
        cases rp with
        | num v t =>
            cases hp
            rfl
        | bin kind l r u =>
            rw [checkType] at hp
            obtain ⟨l', _, hp⟩ := Option.bind_eq_some_iff.mp hp
            obtain ⟨r', _, hp⟩ := Option.bind_eq_some_iff.mp hp
            obtain ⟨_, _, _, hbin⟩ := typeBin_bin kind l' r'
            cases hbin.symm.trans (Option.some_inj.mp hp)
        | un kind l u =>
            rw [checkType] at hp
            obtain ⟨l', _, hp⟩ := Option.bind_eq_some_iff.mp hp
            cases kind with
            | deref =>
                obtain ⟨_, _, hp⟩ := Option.map_eq_some_iff.mp hp
                cases hp
            | _ => cases hp
        | _ => simp [checkType, Option.bind_eq_some_iff] at hp
      have hnone : (Node.num val ty).ty.base? = none := integer_no_base (hnum val ty hraw)
      rw [hnone] at hpb
      cases hpb
  | _ => rfl

/-- For elements that are no VLAs, and whose size is an `int`, the bytes have to fit and nothing else. -/
theorem fits_iff_inRange (hsize : size = base.size) (iv : Int) : Fits base size iv ↔ Convert.i32.InRange (i64.wrap (iv * size)) := by
  rw [Fits, hsize, sub_self, mul_zero]
  exact and_iff_left (dvd_zero _)

theorem counts_iff_inRange (hsize : size = base.size) (hpos : 0 < size) (hint : size < 2 ^ 31) (k : Int) :
    Counts base size k ↔ Convert.i32.InRange k := by
  have htoInt : (elemSize base).toInt = size := by
    rw [elemSize, ← hsize, BitVec.toInt_eq_toNat_of_lt (by rw [BitVec.toNat_ofNat]; omega), BitVec.toNat_ofNat,
      Nat.mod_eq_of_lt (by omega)]
  have hcount : elements (elemSize base) (k * size) = k := by
    rw [elements, htoInt]
    split
    · split
      · exact Int.mul_ediv_cancel k (by omega)
      · exact Int.mul_tdiv_cancel k (by omega)
    · rw [show (size : Int) = 1 by omega, mul_one]
  rw [Counts, hcount, sub_self]
  exact and_iff_left (dvd_zero _)

/-- **Pointer arithmetic.** An index of any integer type that is applied to a pointer moves it as far as it should, in the
typed tree and in what is generated for it, if and only if the bytes are an `int`; and a difference is the number of elements
if and only if that is one, and there is an instruction for the division. -/
theorem pointer_arithmetic_iff (other : Node Ty → Gen Reg) {rp ri rq : Node Unit} (hp : checkType rp = some p)
    (hi : checkType ri = some i) (hq : checkType rq = some q) (hpb : p.ty.base? = some base) (hqb : q.ty.base? = some base')
    (hint : isInteger i.ty = true) (hnum : ∀ val ty, rp = .num val ty → isInteger ty = true) :
    (∀ o : Offset, ∃ n, checkType (o.node rp ri) = some n ∧ OffsetRight other p i base n o) ∧
      ∃ n, checkType (.bin .sub rq rp ()) = some n ∧ DifferenceRight other q p base' base n :=
  ⟨fun o => ⟨_, checkType_offset hp hi hpb hint o, offset_right other hp hpb hint o⟩,
    _, checkType_difference hq hp hqb hpb, difference_right other hq hp hqb hpb (immediate_pointer hp hpb hnum)⟩

/-- The load of a local that fills its register. -/
def loadLocal : Node Ty → Gen Reg
  | .lvar var => do
      let r ← allocReg
      Gen.emit [.op (.load .q var.offset r)]
      pure r
  | _ => Gen.error

/-- `char *p`, `char *q` and `long i` -/
def charPtr (name : String) (id offset : Nat) : LVar :=
  { id := id, name := name, offset := offset, ty := pointerTo tyChar, isLocal := true }

def longIndex : LVar := { id := 2, name := "i", offset := 100, ty := tyLong, isLocal := true }

/-- `p + i` with an index of five, and `q - p` -/
theorem charPointers_right : (∃ n, checkType (.bin .add (.lvar (charPtr "p" 0 84)) (.lvar longIndex) ()) = some n ∧
      ∃ tail s', gen loadLocal n (GenState.init 0) = some (0, [.op (.load .q 84 0)] ++ ([.op (.load .q 100 1)] ++ tail), s') ∧
        ∀ m, m.reg 0 = pattern64 1000 → m.reg 1 = pattern64 5 → ∃ m', exec tail m = some m' ∧ m'.reg 0 = pattern64 1005) ∧
    ∃ n, checkType (.bin .sub (.lvar (charPtr "q" 1 92)) (.lvar (charPtr "p" 0 84)) ()) = some n ∧
      ∃ tail s', gen loadLocal n (GenState.init 0) = some (0, [.op (.load .q 92 0)] ++ ([.op (.load .q 84 1)] ++ tail), s') ∧
        ∀ m, m.reg 0 = pattern64 1005 → m.reg 1 = pattern64 1000 → ∃ m', exec tail m = some m' ∧ Carries tyInt 5 (m'.reg 0) := by
  obtain ⟨hindex, hdifference⟩ := @pointer_arithmetic_iff (.lvar (charPtr "p" 0 84)) (.lvar longIndex) tyChar
    (.lvar (charPtr "q" 1 92)) tyChar loadLocal (.lvar (charPtr "p" 0 84)) (.lvar longIndex) (.lvar (charPtr "q" 1 92)) rfl rfl rfl
    rfl rfl rfl (fun val ty h => by cases h)
  constructor
  · obtain ⟨n, hn, _, hcode⟩ := hindex .plus
    refine ⟨n, hn, ?_⟩
    obtain ⟨tail, s', hgen, hrun⟩ := hcode (GenState.init 0) 0 [.op (.load .q 84 0)] _ 1 [.op (.load .q 100 1)] _ rfl rfl
    refine ⟨tail, s', hgen, fun m hpv hiv => ?_⟩
    have hcarries : Carries tyLong 5 (m.reg 1) := (carries_wide rfl (by decide) fun _ => rfl).mpr (by rw [hiv]; decide)
    obtain ⟨m', hexec, hiff⟩ := hrun m 1000 5 1 (by decide) hpv hcarries
    exact ⟨m', hexec, hiff.mpr ((fits_iff_inRange rfl 5).mpr (by decide))⟩
  · obtain ⟨n, hn, _, hcode⟩ := hdifference
    refine ⟨n, hn, ?_⟩
    obtain ⟨tail, s', hgen, hrun⟩ := hcode (GenState.init 0) 0 [.op (.load .q 92 0)] _ 1 [.op (.load .q 84 1)] _ rfl rfl
    refine ⟨tail, s', hgen, fun m hqv hpv => ?_⟩
    refine (hrun m 1000 5 1 (by decide) rfl (by decide) (fun len qual h => by cases h) hqv hpv).mpr ⟨?_, .inr (.inl rfl)⟩
    exact (counts_iff_inRange rfl (by decide) (by decide) 5).mpr (by decide)

/-- An index of 2^31, and a pointer. -/
def farIndex : Node Ty → Option Int
  | .lvar var => if var = longIndex then some (2 ^ 31) else some (2 ^ 40)
  | _ => none

/-- `p + i` there: the product is -2^31. -/
theorem charPointers_wrong : ¬ ∀ (leaf : Node Ty → Option Int) (rp ri : Node Unit) (p i : Node Ty) (base : Ty), checkType rp = some p →
    checkType ri = some i → p.ty.base? = some base → isInteger i.ty = true → ∀ o : Offset, ∃ n, checkType (o.node rp ri) = some n ∧
      ∀ pv iv, treeValue leaf p = some pv → treeValue leaf i = some iv → treeValue leaf n = some (addrTy.wrap (o.moved pv iv base.size)) := by
  intro hclaim
  obtain ⟨n, hn, hvalue⟩ := hclaim farIndex (.lvar (charPtr "p" 0 84)) (.lvar longIndex) _ _ tyChar rfl rfl rfl rfl .plus
  obtain rfl := Option.some_inj.mp hn
  have hsum := hvalue (2 ^ 40) (2 ^ 31) rfl rfl
  exact absurd hsum (by decide)

end Rcc.Pointers

import Rcc.Opt
import Rcc.ConstExprSound

/-!
# Constant folding

`optimize_node` folds with the same 64-bit operators as the constant
expression evaluator, on numbers whose types it ignores, and gives the result
the type of the node. So one operator is right exactly where the word
operators of `WordOps` are, and the work here is the tree: what a folded
operand stands for is what the operand itself is worth, by the induction
hypothesis, and that is what the condition at the next node is about.

A call folded at compile time counts as the number it was folded to; whether
that number is what the call returns is a matter of `eval_ast`.
-/

namespace Rcc

open FixedWidth

/-! ## Numbers at a type -/

/-- The value a number of type `ty` stands for: an unsigned 64-bit type and an
address read the field as unsigned. -/
def readNum (ty : Ty) (val : BitVec 64) : Val :=
  match ty.intTy? with
  | some τ => .int (if τ.signed ∨ τ.bits < 64 then val.toInt else val.toNat)
  | none => .flo val.toInt

theorem pattern64_toNat (val : BitVec 64) : pattern64 val.toNat = val := by
  rw [pattern64, BitVec.ofInt_natCast, BitVec.ofNat_toNat, BitVec.setWidth_eq]

theorem holds_readNum (ty : Ty) (val : BitVec 64) : Holds val (readNum ty val) := by
  unfold readNum
  split
  · rw [holds_int]
    split
    · exact (pattern64_toInt val).symm
    · exact (pattern64_toNat val).symm
  · exact rfl

/-- Of the values of a type, a number reads as the one its word stands for. -/
theorem readNum_eq_int {ty : Ty} {τ : IntTy} (hτ : ty.intTy? = some τ) {val : BitVec 64} {z : Int}
    (hz : τ.InRange z) : readNum ty val = .int z ↔ Holds val (.int z) := by
  have hw := Ty.intTy?_bits_le hτ
  have hr := i64_inRange_iff.mp (i64_wrap_toInt val ▸ i64.inRange_wrap val.toInt)
  simp only [readNum, hτ, Val.int.injEq]
  rw [holds_int, ← BitVec.toInt_inj, toInt_pattern64]
  split
  · next hs =>
    have hz64 : i64.InRange z := by
      by_cases hb : τ.bits < 64
      · exact hz.widen rfl hb
      · have hb64 : τ.bits = 64 := by omega
        have hsg := hs.resolve_right hb
        have heq : τ = i64 := by
          cases τ
          simp only at hb64 hsg
          subst hb64 hsg
          rfl
        exact heq ▸ hz
    rw [IntTy.wrap_of_inRange hz64]
  · next hs =>
    rw [not_or] at hs
    have hb64 : τ.bits = 64 := by omega
    have hlo : 0 ≤ z ∧ z < 2 ^ 64 := by
      unfold IntTy.InRange IntTy.lo IntTy.hi at hz
      rw [if_neg hs.1, if_neg hs.1, hb64] at hz
      exact hz
    obtain ⟨k, hk, _, _⟩ := i64_wrap_cases z
    have hn := val.isLt
    have ht : val.toInt = if 2 * val.toNat < 2 ^ 64 then (val.toNat : Int) else val.toNat - 2 ^ 64 :=
      BitVec.toInt_eq_toNat_cond val
    constructor
    · intro h
      split at ht <;> omega
    · intro h
      split at ht <;> omega

theorem readNum_eq_flo {ty : Ty} (hτ : ty.intTy? = none) {val : BitVec 64} {q : Rat} :
    readNum ty val = .flo q ↔ Holds val (.flo q) := by
  simp only [readNum, hτ, Val.flo.injEq]
  exact Iff.rfl

/-! ## The value of a foldable node -/

/-- Pointer arithmetic is typed as `check_type` types it. -/
def pointerTyped (ty lty rty : Ty) : Bool :=
  match lty.base?, rty.base? with
  | some _, some _ => ty == tyInt
  | some _, none => ty.isPtr
  | none, _ => true

section Fold

variable (rnd : FloKind → Rat → Rat) (prog : Program) (fuel : Nat)

/-- What a node is worth in C: a number, an arithmetic node over nodes that are
worth something, a call that is folded. -/
def foldVal : Node Ty → Option Val
  | .num val ty => some (readNum ty val)
  | .bin kind lhs rhs ty =>
      if kind.isFolded && pointerTyped ty lhs.ty rhs.ty then
        match foldVal lhs, foldVal rhs with
        | some a, some b => binRule rnd kind ty lhs.ty rhs.ty (some a) (some b)
        | _, _ => none
      else none
  | .funcall funcname args ty =>
      match optimizeNode prog fuel (.funcall funcname args ty) with
      | some (.num val t) => some (readNum t val)
      | _ => none
  | _ => none

/-- If `optimize_node` replaces the arithmetic node `n` by a number, the
number stands for what `n` is worth. -/
def FoldRightAt : Node Ty → Prop
  | .bin kind lhs rhs ty => ∀ val t x,
      optimizeNode prog fuel (.bin kind lhs rhs ty) = some (.num val t) →
        foldVal rnd prog fuel (.bin kind lhs rhs ty) = some x → readNum t val = x
  | _ => True

/-- The condition at an arithmetic node that is replaced, on what its operands
are worth. -/
def FoldExactAt : Node Ty → Prop
  | .bin kind lhs rhs ty => ∀ val t x a b,
      optimizeNode prog fuel (.bin kind lhs rhs ty) = some (.num val t) →
        foldVal rnd prog fuel (.bin kind lhs rhs ty) = some x →
          foldVal rnd prog fuel lhs = some a → foldVal rnd prog fuel rhs = some b →
            binExactVal rnd kind ty lhs.ty rhs.ty a b
  | _ => True

variable {rnd prog fuel}

/-- Replacing a node keeps its type. -/
theorem optimizeNode_ty {n : Node Ty} {val : BitVec 64} {t : Ty}
    (h : optimizeNode prog fuel n = some (.num val t)) : n.ty = t := by
  cases n with
  | num v ty =>
      cases h
      rfl
  | bin kind lhs rhs ty =>
      obtain ⟨l, _, h⟩ := Option.bind_eq_some_iff.mp h
      obtain ⟨r, _, h⟩ := Option.bind_eq_some_iff.mp h
      unfold foldBin at h
      (repeat' split at h) <;> cases h
      rfl
  | funcall f args ty =>
      obtain ⟨a, _, h⟩ := Option.bind_eq_some_iff.mp h
      unfold foldCall at h
      (repeat' split at h) <;> cases h
      rfl
  | null | fnum | str | lvar => cases h
  | un _ lhs | cast lhs | member lhs | ret lhs | block lhs | exprStmt lhs | other lhs =>
      obtain ⟨a, _, h⟩ := Option.bind_eq_some_iff.mp h
      cases h
  | link a b =>
      obtain ⟨_, _, h⟩ := Option.bind_eq_some_iff.mp h
      obtain ⟨_, _, h⟩ := Option.bind_eq_some_iff.mp h
      cases h
  | cond a b c | ifStmt a b c =>
      obtain ⟨_, _, h⟩ := Option.bind_eq_some_iff.mp h
      obtain ⟨_, _, h⟩ := Option.bind_eq_some_iff.mp h
      obtain ⟨_, _, h⟩ := Option.bind_eq_some_iff.mp h
      cases h

/-- A replaced arithmetic node had two numbers for operands, and the number is
what the word operator gives. -/
theorem optimizeNode_bin {kind : BinKind} {lhs rhs : Node Ty} {ty t : Ty} {val : BitVec 64}
    (h : optimizeNode prog fuel (.bin kind lhs rhs ty) = some (.num val t)) :
    t = ty ∧ kind.isFolded = true ∧ ∃ l r lt rt,
      optimizeNode prog fuel lhs = some (.num l lt) ∧
        optimizeNode prog fuel rhs = some (.num r rt) ∧ evalBin kind l r = .done val := by
  have ht := optimizeNode_ty h
  obtain ⟨l, hl, h⟩ := Option.bind_eq_some_iff.mp h
  obtain ⟨r, hr, h⟩ := Option.bind_eq_some_iff.mp h
  unfold foldBin at h
  split at h
  · split at h
    · next hk =>
      split at h
      · cases h
      · cases h
      · next v hv =>
        cases h
        exact ⟨rfl, hk, _, _, _, _, hl, hr, hv⟩
    · cases h
  · cases h

/-- A right operand, once a number, stands for what it is worth. -/
theorem foldRight_operand {n : Node Ty} (h : FoldRightAt rnd prog fuel n) {val : BitVec 64}
    {t : Ty} {a : Val} (hn : optimizeNode prog fuel n = some (.num val t))
    (ha : foldVal rnd prog fuel n = some a) : Holds val a := by
  have hread : readNum t val = a := by
    cases n with
    | num v ty =>
        cases hn
        cases ha
        rfl
    | bin kind lhs rhs ty => exact h val t a hn ha
    | funcall f args ty =>
        simp only [foldVal, hn, Option.some.injEq] at ha
        exact ha
    | _ => cases ha
  exact hread ▸ holds_readNum t val

theorem tmod_between (x y : Int) : (0 ≤ x → 0 ≤ x.tmod y ∧ x.tmod y ≤ x) ∧
    (x < 0 → x ≤ x.tmod y ∧ x.tmod y ≤ 0) := by
  have habs : (x.tmod y).natAbs ≤ x.natAbs := by
    rw [Int.natAbs_tmod]
    exact Nat.mod_le _ _
  refine ⟨fun h => ?_, fun h => ?_⟩
  · have := Int.tmod_nonneg y h
    omega
  · have := Int.tmod_nonneg y (show 0 ≤ -x by omega)
    rw [Int.neg_tmod] at this
    omega

/-- A folded kind yields a value of the type it is performed at. -/
theorem inRange_intBin {τ : IntTy} {kind : BinKind} (hk : kind.isFolded = true) {x y z : Int}
    (h : intBin τ kind x y = some z) : τ.InRange z := by
  cases kind <;> simp only [intBin, Option.ite_none_right_eq_some, Option.some.injEq,
    reduceCtorEq] at h
  case add | sub | mul => exact h ▸ τ.inRange_wrap _
  case div => exact h.2 ▸ h.1.2
  case mod =>
    rw [← h.2]
    obtain ⟨h1, h2⟩ := tmod_between (τ.wrap x) (τ.wrap y)
    obtain ⟨hlo, hhi⟩ := τ.inRange_wrap x
    have hl := τ.lo_nonpos
    have hh := τ.hi_pos
    unfold IntTy.InRange
    by_cases h0 : 0 ≤ τ.wrap x
    · have := h1 h0
      omega
    · have := h2 (by omega)
      omega
  all_goals cases hk

theorem readNum_arithVal {kind : BinKind} (hk : kind.isFolded = true) {ty lty rty : Ty}
    {a b x : Val} (val : BitVec 64) (h : arithVal rnd kind ty lty rty a b = some x) :
    readNum ty val = x ↔ Holds val x := by
  unfold arithVal at h
  split at h
  · split at h
    · next hτ =>
      obtain ⟨r, hr, rfl⟩ := Option.map_eq_some_iff.mp h
      exact readNum_eq_int hτ (inRange_intBin hk hr)
    · cases h
  · split at h
    · obtain ⟨r, _, rfl⟩ := Option.map_eq_some_iff.mp h
      exact readNum_eq_flo rfl
    · cases h

theorem readNum_offsetVal {kind : BinKind} {ty : Ty} (hty : ty.isPtr = true) {a b x : Val}
    (val : BitVec 64) (h : offsetVal kind a b = some x) : readNum ty val = x ↔ Holds val x := by
  have haddr : ty.intTy? = some addrTy := by
    cases ty <;> first
      | rfl
      | cases hty
  cases a <;> cases b <;> cases h
  exact readNum_eq_int haddr (addrTy.inRange_wrap _)

theorem readNum_ptrDiff {size : Nat} {a b x : Val} (val : BitVec 64)
    (h : ptrDiff size a b = some x) : readNum tyInt val = x ↔ Holds val x := by
  obtain ⟨z, rfl, hz⟩ := ptrDiff_inRange h
  show Val.int val.toInt = .int z ↔ _
  rw [holds_int, ← BitVec.toInt_inj, toInt_pattern64, IntTy.wrap_of_inRange hz, Val.int.injEq]

/-- Reading the folded number at the type of the node gives the value exactly
when the word stands for it. -/
theorem readNum_binRule {kind : BinKind} (hk : kind.isFolded = true) {ty lty rty : Ty}
    (hp : pointerTyped ty lty rty = true) {a b x : Val} (val : BitVec 64)
    (h : binRule rnd kind ty lty rty (some a) (some b) = some x) :
    readNum ty val = x ↔ Holds val x := by
  unfold pointerTyped at hp
  cases kind with
  | add =>
      cases hl : lty.base? with
      | none =>
          simp only [binRule, hl] at h
          exact readNum_arithVal hk val h
      | some base =>
          cases hr : rty.base? with
          | none =>
              simp only [binRule, hl, hr] at h hp
              exact readNum_offsetVal hp val h
          | some _ => simp [binRule, hl, hr] at h
  | sub =>
      cases hl : lty.base? with
      | none =>
          simp only [binRule, hl] at h
          exact readNum_arithVal hk val h
      | some base =>
          cases hr : rty.base? with
          | none =>
              simp only [binRule, hl, hr] at h hp
              exact readNum_offsetVal hp val h
          | some _ =>
              simp only [binRule, hl, hr, beq_iff_eq] at h hp
              subst hp
              exact readNum_ptrDiff val h
  | mul | div | mod => exact readNum_arithVal hk val h
  | _ => cases hk

/-! ## Folding, node by node -/

theorem foldRightAt_bin {kind : BinKind} {lhs rhs : Node Ty} {ty : Ty}
    (hl : FoldRightAt rnd prog fuel lhs) (hr : FoldRightAt rnd prog fuel rhs) :
    FoldRightAt rnd prog fuel (.bin kind lhs rhs ty) ↔
      FoldExactAt rnd prog fuel (.bin kind lhs rhs ty) := by
  have hnode : ∀ val t x a b,
      optimizeNode prog fuel (.bin kind lhs rhs ty) = some (.num val t) →
        foldVal rnd prog fuel (.bin kind lhs rhs ty) = some x →
          foldVal rnd prog fuel lhs = some a → foldVal rnd prog fuel rhs = some b →
            (readNum t val = x ↔ binExactVal rnd kind ty lhs.ty rhs.ty a b) := by
    intro val t x a b hn hx ha hb
    obtain ⟨rfl, hk, l, r, lt, rt, hln, hrn, hv⟩ := optimizeNode_bin hn
    simp only [foldVal, hk, Bool.true_and, ha, hb, Option.ite_none_right_eq_some] at hx
    rw [readNum_binRule hk hx.1 val hx.2]
    refine holds_binRule ?_ (foldRight_operand hl hln ha) (foldRight_operand hr hrn hb) hv hx.2
    refine ⟨?_, ?_, ?_⟩ <;> (rintro rfl; cases hk)
  constructor
  · intro h val t x a b hn hx ha hb
    exact (hnode val t x a b hn hx ha hb).mp (h val t x hn hx)
  · intro h val t x hn hx
    obtain ⟨a, b, ha, hb⟩ : ∃ a b, foldVal rnd prog fuel lhs = some a ∧
        foldVal rnd prog fuel rhs = some b := by
      have hx' := hx
      simp only [foldVal, Option.ite_none_right_eq_some] at hx'
      cases ha : foldVal rnd prog fuel lhs with
      | none => simp [ha] at hx'
      | some a =>
          cases hb : foldVal rnd prog fuel rhs with
          | none => simp [ha, hb] at hx'
          | some b => exact ⟨a, b, rfl, rfl⟩
    exact (hnode val t x a b hn hx ha hb).mpr (h val t x a b hn hx ha hb)

end Fold

/-- Every arithmetic node of a tree that `optimize_node` replaces, at any
depth, becomes the number the node is worth in C exactly when every replaced
node meets its condition: the 64-bit sum, difference or product is in the
range of the type of the node (or the type has 64 bits), signed 64-bit
division and remainder agree with those at the type, floating results are the
integers the 64-bit operators give, and subtracted pointers are equal or point
to bytes. -/
theorem fold_right_everywhere_iff (rnd : FloKind → Rat → Rat) (prog : Program) (fuel : Nat)
    (n : Node Ty) :
    n.Everywhere (FoldRightAt rnd prog fuel) ↔ n.Everywhere (FoldExactAt rnd prog fuel) := by
  induction n with
  | bin kind lhs rhs ty ihl ihr =>
      exact and_iff_and_of (and_congr ihl ihr) (fun h => foldRightAt_bin h.1.self h.2.self)
  | link a b iha ihb => exact and_iff_and_of (and_congr iha ihb) (fun _ => Iff.rfl)
  | un _ _ _ ih | cast _ _ ih | member _ _ _ ih | funcall _ _ _ ih | ret _ ih | block _ ih
  | exprStmt _ ih | other _ ih => exact and_iff_and_of ih (fun _ => Iff.rfl)
  | cond _ _ _ _ iha ihb ihc | ifStmt _ _ _ iha ihb ihc =>
      exact and_iff_and_of (and_congr iha (and_congr ihb ihc)) (fun _ => Iff.rfl)
  | _ => exact Iff.rfl

/-- `(0u - 1u) / 2u` is 2147483647, and the number it is replaced by is 0: the
difference is kept as -1. -/
theorem fold_unsigned_not_right :
    ¬ ∀ (rnd : FloKind → Rat → Rat) (prog : Program) (fuel : Nat) (e : Node Unit) (n : Node Ty),
      checkType e = some n → n.Everywhere (FoldRightAt rnd prog fuel) := by
  intro h
  have hn := h (fun _ q => q) ⟨[]⟩ 0
    (.bin .div (.bin .sub (.num 0 tyUint) (.num 1 tyUint) ()) (.num 2 tyUint) ()) _ rfl
  have hval := hn.self 0 tyUint (.int 2147483647) rfl rfl
  exact absurd hval (by decide)

end Rcc

import Mathlib
import Rcc.HostArith

/-!
# Constant expressions as requests

`eval_const_expr` once more, asking for the operations that may be undefined instead of computing them. Answered by the machine, it is
the evaluator on words (`run_evalConst`): the values are the signed readings of the same bits.
-/

namespace Rcc

open FixedWidth Recursion

namespace HostOps

/-- The words of two values, joined. -/
def onWords (f : BitVec 64 → BitVec 64 → BitVec 64) (l r : Int) : Int := (f (BitVec.ofInt 64 l) (BitVec.ofInt 64 r)).toInt

/-- What the evaluator makes of two operand values. -/
def evalBin (kind : BinKind) (lhs rhs : Int) : Eval Operation Int :=
  match kind with
  | .add => .ask (.add lhs rhs)
  | .sub => .ask (.sub lhs rhs)
  | .mul => .ask (.mul lhs rhs)
  | .div => if hr : rhs = 0 then .fail else .ask (.div lhs rhs hr)
  | .mod => if hr : rhs = 0 then .fail else .ask (.mod lhs rhs hr)
  | .shl => .ask (.shl lhs rhs)
  | .shr => .ask (.shr lhs rhs)
  | .bitand => .ok (onWords (· &&& ·) lhs rhs)
  | .bitxor => .ok (onWords (· ^^^ ·) lhs rhs)
  | .bitor => .ok (onWords (· ||| ·) lhs rhs)
  | .eq => .ok (truth (lhs = rhs))
  | .ne => .ok (truth (lhs ≠ rhs))
  | .lt => .ok (truth (lhs < rhs))
  | .le => .ok (truth (lhs ≤ rhs))
  | .logand => .ok (truth (lhs ≠ 0 && rhs ≠ 0))
  | .logor => .ok (truth (lhs ≠ 0 || rhs ≠ 0))
  | .assign | .comma => .fail

/-- The end of an evaluation on words. -/
def ended : Outcome → Ended Int
  | .trap => .crash
  | .fail => .fail
  | .done val => .ok val.toInt

/-- Both evaluators: `addr` says which of the two is called on the node. -/
def evalConst : Node Ty → Bool → Eval Operation Int
  | .num val _, _ => .ok val.toInt
  | .bin .comma _ rhs _, _ => evalConst rhs false
  | .bin .assign _ _ _, _ => .fail
  | .bin kind lhs rhs _, _ => (evalConst lhs false).andThen fun l => (evalConst rhs false).andThen fun r => evalBin kind l r
  | .un .neg lhs _, _ => (evalConst lhs false).andThen fun l => .ask (.neg l)
  | .un .not lhs _, _ => (evalConst lhs false).andThen fun l => .ok (truth (l = 0))
  | .un .bitnot lhs _, _ => (evalConst lhs false).andThen fun l => .ok (-l - 1)
  | .un .sizeof lhs ty, _ => .done (ended (evalSizeof lhs ty))
  -- offsetof: &((struct S*)0)->member
  | .un .addr lhs _, _ => evalConst lhs true
  | .un .deref lhs _, addr => if addr then evalConst lhs false else .fail
  | .member lhs m _, addr => if addr then (evalConst lhs true).andThen fun base => .ask (.add base m.offset) else .fail
  | .cast lhs _, _ => evalConst lhs false
  | .cond cond then_ els _, _ =>
      (evalConst cond false).andThen fun c => if c ≠ 0 then evalConst then_ false else evalConst els false
  | _, _ => .fail

/-! ## On words -/

theorem toInt_boolWord (b : Bool) : (boolWord b).toInt = truth b := by
  cases b with
  | false => rfl
  | true => rfl

theorem onWords_toInt (f : BitVec 64 → BitVec 64 → BitVec 64) (l r : BitVec 64) : onWords f l.toInt r.toInt = (f l r).toInt := by
  rw [onWords, BitVec.ofInt_toInt, BitVec.ofInt_toInt]

theorem toInt_eq_zero_iff (r : BitVec 64) : r.toInt = 0 ↔ r = 0 := by
  rw [← BitVec.toInt_inj]
  rfl

/-- A shift count counts by its low six bits. -/
theorem count_toInt (r : BitVec 64) : (r.toInt % (i64.bits : Int)).toNat = r.toNat % 64 := by
  have h : i64.bits = 64 := rfl
  rw [h, BitVec.toInt_eq_toNat_cond]
  split
  · omega
  · omega

theorem least_iff (l r : BitVec 64) : (l.toInt = i64.lo ∧ r.toInt = -1) ↔ (l = BitVec.intMin 64 ∧ r = -1) := by
  rw [← BitVec.toInt_inj (x := l), ← BitVec.toInt_inj (x := r)]
  rfl

theorem wrap_eq_bmod (z : Int) : i64.wrap z = z.bmod (2 ^ 64) := rfl

theorem shl_toInt (l r : BitVec 64) : (l <<< (r.toNat % 64)).toInt = i64.wrap (l.toInt * 2 ^ (r.toNat % 64)) := by
  rw [BitVec.toInt_shiftLeft, BitVec.toInt_eq_toNat_bmod, Nat.shiftLeft_eq, Nat.cast_mul, wrap_eq_bmod, Int.bmod_mul_bmod,
    Nat.cast_pow]
  rfl

theorem run_evalBin (kind : BinKind) (l r : BitVec 64) :
    (evalBin kind l.toInt r.toInt).run (machineAnswer i64) = some (ended (Rcc.evalBin kind l r)) := by
  have hzero := toInt_eq_zero_iff r
  have hleast := least_iff l r
  cases kind with
  | add => exact congrArg (some ∘ Ended.ok) (BitVec.toInt_add l r).symm
  | sub => exact congrArg (some ∘ Ended.ok) BitVec.toInt_sub.symm
  | mul => exact congrArg (some ∘ Ended.ok) (BitVec.toInt_mul l r).symm
  | div =>
      by_cases hr : r = 0
      · rw [evalBin, dif_pos (hzero.mpr hr), Rcc.evalBin, if_pos hr]
        rfl
      · rw [evalBin, dif_neg (mt hzero.mp hr), Rcc.evalBin, if_neg hr]
        show some (Operation.machine i64 _) = _
        rw [Operation.machine]
        by_cases h : l = BitVec.intMin 64 ∧ r = -1
        · rw [if_pos h, if_pos (hleast.mpr h)]
          rfl
        · rw [if_neg h, if_neg (mt hleast.mp h), ended, BitVec.toInt_sdiv_of_ne_or_ne l r (not_and_or.mp h)]
  | mod =>
      by_cases hr : r = 0
      · rw [evalBin, dif_pos (hzero.mpr hr), Rcc.evalBin, if_pos hr]
        rfl
      · rw [evalBin, dif_neg (mt hzero.mp hr), Rcc.evalBin, if_neg hr]
        show some (Operation.machine i64 _) = _
        rw [Operation.machine]
        by_cases h : l = BitVec.intMin 64 ∧ r = -1
        · rw [if_pos h, if_pos (hleast.mpr h)]
          rfl
        · rw [if_neg h, if_neg (mt hleast.mp h), ended, BitVec.toInt_srem]
  | shl =>
      show some (Ended.ok (i64.wrap (l.toInt * 2 ^ (r.toInt % (i64.bits : Int)).toNat))) = some (Ended.ok (l <<< (r.toNat % 64)).toInt)
      rw [count_toInt, shl_toInt]
  | shr =>
      show some (Ended.ok (l.toInt / 2 ^ (r.toInt % (i64.bits : Int)).toNat)) = some (Ended.ok (l.sshiftRight (r.toNat % 64)).toInt)
      rw [count_toInt, BitVec.toInt_sshiftRight, Int.shiftRight_eq_div_pow]
      rfl
  | bitand => exact congrArg (some ∘ Ended.ok) (onWords_toInt _ l r)
  | bitxor => exact congrArg (some ∘ Ended.ok) (onWords_toInt _ l r)
  | bitor => exact congrArg (some ∘ Ended.ok) (onWords_toInt _ l r)
  | eq =>
      refine congrArg (some ∘ Ended.ok) (Eq.trans ?_ (toInt_boolWord (l == r)).symm)
      exact congrArg truth (decide_eq_decide.mpr BitVec.toInt_inj)
  | ne =>
      refine congrArg (some ∘ Ended.ok) (Eq.trans ?_ (toInt_boolWord (l != r)).symm)
      exact congrArg truth (Bool.eq_iff_iff.mpr (by simp [BitVec.toInt_inj]))
  | lt => exact congrArg (some ∘ Ended.ok) (toInt_boolWord (l.slt r)).symm
  | le => exact congrArg (some ∘ Ended.ok) (toInt_boolWord (l.sle r)).symm
  | logand =>
      refine congrArg (some ∘ Ended.ok) (Eq.trans ?_ (toInt_boolWord (l != 0 && r != 0)).symm)
      exact congrArg truth (Bool.eq_iff_iff.mpr (by simp [toInt_eq_zero_iff]))
  | logor =>
      refine congrArg (some ∘ Ended.ok) (Eq.trans ?_ (toInt_boolWord (l != 0 || r != 0)).symm)
      exact congrArg truth (Bool.eq_iff_iff.mpr (by simp [toInt_eq_zero_iff]))
  | assign => rfl
  | comma => rfl

theorem not_toInt (l : BitVec 64) : -l.toInt - 1 = (~~~l).toInt := by
  have hlt := l.isLt
  rw [BitVec.toInt_eq_toNat_cond, BitVec.toInt_eq_toNat_cond, BitVec.toNat_not]
  split
  · split
    · omega
    · omega
  · split
    · omega
    · omega

theorem offset_toInt (base : BitVec 64) (offset : Nat) : i64.wrap (base.toInt + offset) = (base + BitVec.ofNat 64 offset).toInt := by
  rw [BitVec.toInt_add, BitVec.toInt_ofNat', wrap_eq_bmod, Int.add_bmod_bmod]

/-- An operand and then the rest. -/
theorem run_operand {t : Eval Operation Int} {o : Outcome} (ht : t.run (machineAnswer i64) = some (ended o))
    {f : Int → Eval Operation Int} {g : BitVec 64 → Outcome}
    (hf : ∀ val, (f val.toInt).run (machineAnswer i64) = some (ended (g val))) :
    (t.andThen f).run (machineAnswer i64) = some (ended (o.bind g)) := by
  rw [Eval.run_andThen, ht]
  cases o with
  | trap => rfl
  | fail => rfl
  | done val => exact hf val

/-- **The evaluator on words** is this one, with the answers of the machine. -/
theorem run_evalConst (node : Node Ty) (addr : Bool) :
    (evalConst node addr).run (machineAnswer i64) = some (ended (Rcc.evalConst node addr)) := by
  induction node generalizing addr with
  | bin kind lhs rhs ty ihl ihr =>
      have hboth : ∀ kind, ((evalConst lhs false).andThen fun l => (evalConst rhs false).andThen fun r => evalBin kind l r).run
          (machineAnswer i64) = some (ended ((Rcc.evalConst lhs false).bind fun l => (Rcc.evalConst rhs false).bind fun r =>
            Rcc.evalBin kind l r)) := fun kind =>
        run_operand (ihl false) fun l => run_operand (ihr false) fun r => run_evalBin kind l r
      cases kind with
      | comma => exact ihr false
      | assign => rfl
      | _ => exact hboth _
  | un kind lhs ty ih =>
      cases kind with
      | neg => exact run_operand (ih false) fun l => congrArg (some ∘ Ended.ok) BitVec.toInt_neg.symm
      | not =>
          refine run_operand (ih false) fun l => congrArg (some ∘ Ended.ok) (Eq.trans ?_ (toInt_boolWord (l == 0)).symm)
          exact congrArg truth (decide_eq_decide.mpr (toInt_eq_zero_iff l))
      | bitnot => exact run_operand (ih false) fun l => congrArg (some ∘ Ended.ok) (not_toInt l)
      | sizeof => rfl
      | addr => exact ih true
      | deref =>
          cases addr with
          | false => rfl
          | true => exact ih false
      | _ => rfl
  | cast lhs ty ih => exact ih false
  | member lhs m ty ih =>
      cases addr with
      | false => rfl
      | true => exact run_operand (ih true) fun base => congrArg (some ∘ Ended.ok) (offset_toInt base m.offset)
  | cond cond then_ els ty ihc iht ihe =>
      refine run_operand (ihc false) fun c => ?_
      by_cases hc : c = 0
      · subst hc
        exact ihe false
      · rw [if_pos (mt (toInt_eq_zero_iff c).mp hc), if_pos (bne_iff_ne.mpr hc)]
        exact iht false
  | _ => rfl

end HostOps

end Rcc

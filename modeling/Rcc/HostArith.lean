import Rcc.FixedWidth
import Rcc.Opt
import Rcc.Recursion

/-!
# The arithmetic that the compiler does itself

An evaluation asks for each operation that C does not define on all operands. The answer is what the machine gives: sums, differences,
products and left shifts come back into the range, a shift count counts by its low bits, and the division of the least value by -1 kills
the process. Evaluated exactly, a sum is the sum.

An evaluation also ends without a value, or is killed itself; an operation that is killed kills what has asked for it.
-/

namespace Rcc

open FixedWidth Recursion

/-- `int` -/
def i32 : IntTy := ⟨32, true, by decide⟩

/-- The operations that may be undefined. A divisor is not 0: everywhere that is asked before. -/
inductive Operation where
  | add (l r : Int)
  | sub (l r : Int)
  | mul (l r : Int)
  | neg (l : Int)
  | div (l r : Int) (hr : r ≠ 0)
  | mod (l r : Int) (hr : r ≠ 0)
  | shl (l count : Int)
  | shr (l count : Int)

namespace Operation

/-- No overflow, no division by 0 or of the least value by -1, no shift by a negative count or by the width or more. -/
def Defined (τ : IntTy) : Operation → Prop
  | add l r => τ.InRange (l + r)
  | sub l r => τ.InRange (l - r)
  | mul l r => τ.InRange (l * r)
  | neg l => τ.InRange (-l)
  | div l r _ | mod l r _ => r ≠ 0 ∧ ¬ (l = τ.lo ∧ r = -1)
  | shl _ count | shr _ count => 0 ≤ count ∧ count < τ.bits

def machine (τ : IntTy) : Operation → Ended Int
  | add l r => .ok (τ.wrap (l + r))
  | sub l r => .ok (τ.wrap (l - r))
  | mul l r => .ok (τ.wrap (l * r))
  | neg l => .ok (τ.wrap (-l))
  | div l r _ => if l = τ.lo ∧ r = -1 then .crash else .ok (l.tdiv r)
  | mod l r _ => if l = τ.lo ∧ r = -1 then .crash else .ok (l.tmod r)
  | shl l count => .ok (τ.wrap (l * 2 ^ (count % τ.bits).toNat))
  | shr l count => .ok (l / 2 ^ (count % τ.bits).toNat)

/-- Without a range; only a left shift loses the bits above it. -/
def exact (τ : IntTy) : Operation → Int
  | add l r => l + r
  | sub l r => l - r
  | mul l r => l * r
  | neg l => -l
  | div l r _ => l.tdiv r
  | mod l r _ => l.tmod r
  | shl l count => τ.wrap (l * 2 ^ count.toNat)
  | shr l count => l / 2 ^ count.toNat

theorem machine_of_defined {τ : IntTy} {o : Operation} (h : o.Defined τ) : o.machine τ = .ok (o.exact τ) := by
  cases o with
  | add l r => exact congrArg Ended.ok (IntTy.wrap_of_inRange h)
  | sub l r => exact congrArg Ended.ok (IntTy.wrap_of_inRange h)
  | mul l r => exact congrArg Ended.ok (IntTy.wrap_of_inRange h)
  | neg l => exact congrArg Ended.ok (IntTy.wrap_of_inRange h)
  | div l r hr => exact if_neg h.2
  | mod l r hr => exact if_neg h.2
  | shl l count => rw [machine, exact, Int.emod_eq_of_lt h.1 h.2]
  | shr l count => rw [machine, exact, Int.emod_eq_of_lt h.1 h.2]

/-- All operands are of the type. -/
def Operands (τ : IntTy) : Operation → Prop
  | add l r | sub l r | mul l r | div l r _ | mod l r _ | shl l r | shr l r => τ.InRange l ∧ τ.InRange r
  | neg l => τ.InRange l

theorem tdiv_inRange {τ : IntTy} (hs : τ.signed = true) {l r : Int} (hl : τ.InRange l) (h : ¬ (l = τ.lo ∧ r = -1)) :
    τ.InRange (l.tdiv r) := by
  obtain ⟨half, hlo, hhi⟩ : ∃ half : Nat, τ.lo = -half ∧ τ.hi = half := ⟨2 ^ (τ.bits - 1), if_pos hs, if_pos hs⟩
  have habs : (l.tdiv r).natAbs = l.natAbs / r.natAbs := Int.natAbs_tdiv l r
  have hle : l.natAbs / r.natAbs ≤ l.natAbs := Nat.div_le_self _ _
  unfold IntTy.InRange at hl ⊢
  rw [hlo, hhi] at hl ⊢
  rw [hlo] at h
  by_cases hlt : l.natAbs < half
  · omega
  by_cases hr : r = -1
  · omega
  by_cases hone : r = 1
  · subst hone
    rwa [Int.tdiv_one]
  -- a divisor of at least 2 halves the least value
  have hhalf : 2 * (l.natAbs / r.natAbs) ≤ l.natAbs := by
    rcases Nat.eq_zero_or_pos r.natAbs with hz | hp
    · rw [hz, Nat.div_zero]
      exact Nat.zero_le _
    · have hmul := Nat.div_mul_le_self l.natAbs r.natAbs
      have htwo : 2 ≤ r.natAbs := by omega
      nlinarith
  omega

theorem tmod_inRange {τ : IntTy} {l r : Int} (hl : τ.InRange l) : τ.InRange (l.tmod r) := by
  have hlo := τ.lo_nonpos
  have hhi := τ.hi_pos
  have habs : (l.tmod r).natAbs = l.natAbs % r.natAbs := Int.natAbs_tmod l r
  have hle : l.natAbs % r.natAbs ≤ l.natAbs := Nat.mod_le _ _
  unfold IntTy.InRange at hl ⊢
  rcases Int.le_total 0 l with h | h
  · have := Int.tmod_nonneg r h
    omega
  · have hneg := Int.neg_tmod (-l) r
    have := Int.tmod_nonneg r (Int.neg_nonneg.mpr h)
    rw [Int.neg_neg] at hneg
    omega

theorem ediv_inRange {τ : IntTy} {l : Int} (hl : τ.InRange l) (k : Nat) : τ.InRange (l / 2 ^ k) := by
  have hlo := τ.lo_nonpos
  have hhi := τ.hi_pos
  have hp : (0 : Int) < 2 ^ k := by positivity
  refine ⟨(Int.le_ediv_iff_mul_le hp).mpr ?_, Int.ediv_lt_of_lt_mul hp ?_⟩
  · nlinarith [hl.1]
  · nlinarith [hl.2]

/-- What the machine answers is of the type of its operands. -/
theorem machine_inRange {τ : IntTy} (hs : τ.signed = true) {o : Operation} (ho : o.Operands τ) {v : Int}
    (h : o.machine τ = .ok v) : τ.InRange v := by
  cases o with
  | add l r => exact Ended.ok.inj h ▸ τ.inRange_wrap _
  | sub l r => exact Ended.ok.inj h ▸ τ.inRange_wrap _
  | mul l r => exact Ended.ok.inj h ▸ τ.inRange_wrap _
  | neg l => exact Ended.ok.inj h ▸ τ.inRange_wrap _
  | div l r hr =>
      rw [machine] at h
      split at h
      · cases h
      · rename_i hleast
        exact Ended.ok.inj h ▸ tdiv_inRange hs ho.1 hleast
  | mod l r hr =>
      rw [machine] at h
      split at h
      · cases h
      · exact Ended.ok.inj h ▸ tmod_inRange ho.1
  | shl l count => exact Ended.ok.inj h ▸ τ.inRange_wrap _
  | shr l count => exact Ended.ok.inj h ▸ ediv_inRange ho.1 _

end Operation

/-- A C truth value. -/
def truth (b : Bool) : Int := if b then 1 else 0

/-! ## Evaluations -/

/-- A computation that may fail or be killed. -/
abbrev Eval (C α : Type) := Calls C (Ended Int) (Ended α)

namespace Eval

variable {C α β : Type}

def ok (a : α) : Eval C α := .done (.ok a)

def fail : Eval C α := .done .fail

def crash : Eval C α := .done .crash

def andThen (t : Eval C α) (f : α → Eval C β) : Eval C β :=
  t.bind fun
    | .ok a => f a
    | .fail => fail
    | .crash => crash

/-- The answer; what is killed there is killed here. -/
def ask (c : C) : Eval C Int := .call c .done

theorem run_andThen (t : Eval C α) (f : α → Eval C β) (answer : C → Option (Ended Int)) :
    (t.andThen f).run answer = (t.run answer).bind fun
      | .ok a => (f a).run answer
      | .fail => some .fail
      | .crash => some .crash := by
  induction t with
  | done a =>
      cases a with
      | ok a => rfl
      | fail => rfl
      | crash => rfl
  | call c k ih =>
      show (answer c).bind (fun r => (((k r).bind _).run answer)) = _
      rw [Calls.run, Option.bind_assoc]
      exact congrArg _ (funext ih)

end Eval

/-- The answers of the machine, at once. -/
def machineAnswer (τ : IntTy) (o : Operation) : Option (Ended Int) := some (o.machine τ)

end Rcc

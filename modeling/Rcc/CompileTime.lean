import Mathlib
import Rcc.ConditionOps
import Rcc.ConstOps
import Rcc.Ctfe

/-!
# Is the compiler's arithmetic defined?

The four evaluators ask for a divisor before they divide, and that is all they ask. So whether they keep to operations that C defines is
a matter of the expressions: of what comes about when these are evaluated exactly, with integers of any size. As long as all is in range
the two evaluations are the same one (`Recursion.evaluated_good_iff`); so the first operation that is not defined on the machine is the
first one out of range in the exact evaluation, and if there is none in the one, there is none in the other.
-/

namespace Rcc

open FixedWidth Recursion

/-- An operation of `long long` or `long`, as the machine ends it. -/
def onMachine (o : Operation) : Eval Operation Int := .done (o.machine i64)

/-- With integers of any size. -/
def exactly (o : Operation) : Eval Operation Int := .done (.ok (o.exact i64))

theorem onMachine_of_defined {o : Operation} (h : o.Defined i64) : onMachine o = exactly o :=
  congrArg Calls.done (Operation.machine_of_defined h)

namespace Ctfe

/-- What a run does when it is done exactly. -/
abbrev exactBody : Run → Eval Run Int := runWith fun τ o => .ok (o.exact τ)

/-- Is the run, if it is an operation, defined? -/
def Run.Defined (run : Run) : Prop :=
  match run.request with
  | .call _ => True
  | .op τ o => o.Defined τ

theorem runBody_of_defined {run : Run} (h : run.Defined) : runBody run = exactBody run := by
  obtain ⟨prog, request⟩ := run
  cases request with
  | call c => rfl
  | op τ o => exact congrArg Calls.done (Operation.machine_of_defined h)

end Ctfe

/-- All operations of an evaluation are defined. -/
def AllDefined {α : Type} (body : Operation → Eval Operation Int) (t : Eval Operation α) : Prop :=
  ∀ o, Evaluated body t o → o.Defined i64

/-- `(-9223372036854775807 - 1) / -1` -/
def leastOverMinusOne : Node Ty :=
  let long : Ty := .integer .long false 0
  let num (val : BitVec 64) : Node Ty := .num val long
  .bin .div (.bin .sub (.un .neg (num 0x7fffffffffffffff) long) (num 1) long) (.un .neg (num 1) long) long

end Rcc

import Rcc.RegAlloc

/-!
# Jumps forward

`exec` is for straight-line code. Tests jump, but never back: either to a label that comes later in
the same piece of code, or out of it. So a run reads the lines once, and after a jump
it passes over lines until its label comes.
-/

namespace Rcc

/-- The label that is looked for, if a jump was taken, and the machine. At the end, it is the label that the code
is left for, if it is not left at its end. -/
def runTo : List Line → Option Nat → Machine → Option (Option Nat × Machine)
  | [], target, m => some (target, m)
  | line :: rest, some n, m => runTo rest (if line = .label n then none else some n) m
  | .op o :: rest, none, m => (o.run m).bind (runTo rest none)
  | .label _ :: rest, none, m => runTo rest none m
  | .jmp n :: rest, none, m => runTo rest (some n) m
  | .jcc cc n :: rest, none, m => m.flags.bind fun f => runTo rest (if cc.holds f then some n else none) m

variable {c d : List Line} {m m' : Machine} {target : Option Nat} {n : Nat}

theorem runTo_append (c d : List Line) (target : Option Nat) (m : Machine) :
    runTo (c ++ d) target m = (runTo c target m).bind fun r => runTo d r.1 r.2 := by
  induction c generalizing target m with
  | nil => rfl
  | cons line rest ih =>
      cases target with
      | some n => exact ih _ m
      | none =>
          cases line with
          | op o =>
              show (o.run m).bind (runTo (rest ++ d) none) = ((o.run m).bind (runTo rest none)).bind _
              rw [Option.bind_assoc]
              exact congrArg _ (funext (ih none))
          | label name => exact ih none m
          | jmp name => exact ih (some name) m
          | jcc cc name =>
              show m.flags.bind _ = (m.flags.bind _).bind _
              rw [Option.bind_assoc]
              exact congrArg _ (funext fun f => ih _ m)

/-- Code that runs, and then more. -/
theorem runTo_append_of_some {r : Option Nat × Machine} (hc : runTo c target m = some r) :
    runTo (c ++ d) target m = runTo d r.1 r.2 := by
  rw [runTo_append, hc, Option.bind_some]

/-- Straight-line code is run to its end. -/
theorem runTo_of_exec (h : exec c m = some m') : runTo c none m = some (none, m') := by
  induction c generalizing m with
  | nil =>
      obtain rfl := Option.some_inj.mp h
      rfl
  | cons line rest ih =>
      cases line with
      | op o =>
          obtain ⟨m₁, hop, hrest⟩ := Option.bind_eq_some_iff.mp h
          show (o.run m).bind _ = _
          rw [hop, Option.bind_some, ih hrest]
      | label name => exact ih h
      | jmp name => cases h
      | jcc cc name => cases h

/-- A jump passes over code that does not have its label. -/
theorem runTo_skip (h : .label n ∉ c) (m : Machine) : runTo c (some n) m = some (some n, m) := by
  induction c with
  | nil => rfl
  | cons line rest ih =>
      obtain ⟨hne, hrest⟩ := List.ne_and_not_mem_of_not_mem_cons h
      rw [runTo, if_neg hne.symm, ih hrest]

/-- A jump to the label that comes next. -/
theorem runTo_label (n : Nat) (c : List Line) (m : Machine) : runTo (.label n :: c) (some n) m = runTo c none m := by
  rw [runTo, if_pos rfl]

theorem runTo_jcc {f : Flags} (h : m.flags = some f) (cc : CC) (n : Nat) (c : List Line) :
    runTo (.jcc cc n :: c) none m = runTo c (if cc.holds f then some n else none) m := by
  rw [runTo, h, Option.bind_some]

/-- What `free_reg` prints is passed over by jumps, and leaves the flags and the other registers. -/
theorem freeReg_quiet (r : Reg) (s : GenState) : ∃ back s', freeReg r s = some ((), back, s') ∧ (∀ n, .label n ∉ back) ∧
    ∀ m, ∃ m', exec back m = some m' ∧ m'.flags = m.flags ∧ ∀ q, q ≠ r → m'.reg q = m.reg q := by
  by_cases h : r ∈ s.spilled
  · exact ⟨_, _, freeReg_spilled h, by simp, fun m => ⟨_, rfl, rfl, fun q hq => m.set_reg_of_ne _ hq⟩⟩
  · exact ⟨[], _, freeReg_unspilled h, by simp, fun m => ⟨m, rfl, rfl, fun _ _ => rfl⟩⟩

end Rcc

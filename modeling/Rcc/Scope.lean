import Rcc.Spans

/-!
# Where the parser puts locals (`new_var`)

The parser numbers the bytes below the frame pointer upwards: `stack_offset`
starts at 80 in every function and grows with each variable, and a variable is
found at its offset, counted downwards. Eighty bytes are left to the code
generator for its spill slots.

A `Scope` is the parser's side of the frame. Its field `chain` says what
`new_var` keeps: the variables lie one after the other, the newest lowest, and
none above `-80`.
-/

namespace Rcc

open Spans (Span Chain)

/-- `align_to`, `(n + align - 1) & ~(align - 1)`: what the mask takes away is
subtracted. -/
def alignTo (n align : Nat) : Nat := n + align - 1 - ((n + align - 1) &&& (align - 1))

theorem le_alignTo (n : Nat) {align : Nat} (h : 0 < align) : n ≤ alignTo n align := by
  have hand : (n + align - 1) &&& (align - 1) ≤ align - 1 := Nat.and_le_right
  unfold alignTo
  omega

/-- `size` and `align` of a variable's type. -/
structure VarTy where
  size : Nat
  align : Nat
deriving DecidableEq, Repr

/-- A variable in the frame. -/
structure FrameVar where
  offset : Nat
  size : Nat
deriving DecidableEq, Repr

/-- The bytes of a variable, by their distance from the frame pointer. -/
def FrameVar.span (v : FrameVar) : Span := Span.at (-v.offset) v.size

/-- `stack_offset` and the local variables, newest first. -/
structure Scope where
  stackOffset : Nat
  locals : List FrameVar
  chain : Chain (-stackOffset) (locals.map FrameVar.span) (-80)

/-- At the head of a function. -/
def Scope.empty : Scope where
  stackOffset := 80
  locals := []
  chain := le_refl (-80)

/-- `stack_offset` after `new_var`. -/
def newOffset (stackOffset : Nat) (ty : VarTy) : Nat :=
  alignTo (stackOffset + if ty.size < 4 then 4 else ty.size) (if ty.align < 4 then 4 else ty.align)

theorem le_newOffset (stackOffset : Nat) (ty : VarTy) :
    stackOffset + ty.size ≤ newOffset stackOffset ty := by
  have halign : 0 < if ty.align < 4 then 4 else ty.align := by
    split <;> omega
  have h := le_alignTo (stackOffset + if ty.size < 4 then 4 else ty.size) halign
  have hsize : ty.size ≤ if ty.size < 4 then 4 else ty.size := by
    split <;> omega
  unfold newOffset
  omega

/-- A variable begins at `-84` at the highest. -/
theorem newOffset_ge (stackOffset : Nat) (ty : VarTy) : stackOffset + 4 ≤ newOffset stackOffset ty := by
  have halign : 0 < if ty.align < 4 then 4 else ty.align := by
    split <;> omega
  have h := le_alignTo (stackOffset + if ty.size < 4 then 4 else ty.size) halign
  have hsize : 4 ≤ if ty.size < 4 then 4 else ty.size := by
    split <;> omega
  unfold newOffset
  omega

/-- `new_var` for a local. -/
def newVar (scope : Scope) (ty : VarTy) : Scope where
  stackOffset := newOffset scope.stackOffset ty
  locals := ⟨newOffset scope.stackOffset ty, ty.size⟩ :: scope.locals
  chain := by
    have h := le_newOffset scope.stackOffset ty
    refine ⟨le_refl _, ?_, scope.chain.mono ?_ (le_refl _)⟩
    · simp only [FrameVar.span, Span.at]
      omega
    · simp only [FrameVar.span, Span.at]
      omega

/-- The scope of a function whose variables have these types, in the order in
which the parser meets them. -/
def declare (tys : List VarTy) : Scope := tys.foldl newVar Scope.empty

/-- `fn->stack_size` -/
def Scope.stackSize (scope : Scope) : Nat := alignTo scope.stackOffset 16

theorem Scope.le_stackSize (scope : Scope) : scope.stackOffset ≤ scope.stackSize :=
  le_alignTo scope.stackOffset (by decide)

/-- The locals lie between the bottom of the sized frame and `-80`. -/
theorem Scope.chain_stackSize (scope : Scope) :
    Chain (-scope.stackSize) (scope.locals.map FrameVar.span) (-80) := by
  have h := scope.le_stackSize
  exact scope.chain.mono (by omega) (le_refl _)

end Rcc

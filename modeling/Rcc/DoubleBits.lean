import Mathlib

/-!
# Doubles as words

A double of 64 bits has its sign in the highest bit. Below it the magnitude grows with the word, past
the infinity at `0x7ff << 52` to the NaNs. So doubles are compared as the magnitudes
with their signs are, if neither is a NaN; and there are two zeros.
-/

namespace Double

/-- The word without the sign. -/
def magnitude (x : BitVec 64) : Nat := x.toNat % 2 ^ 63

def isNan (x : BitVec 64) : Bool := 0x7ff * 2 ^ 52 < magnitude x

/-- The magnitude with its sign. -/
def signed (x : BitVec 64) : Int := if x.msb then -(magnitude x) else magnitude x

/-- Two doubles, which may be unordered. -/
def compare (x y : BitVec 64) : Option Ordering := if isNan x || isNan y then none else some (Ord.compare (signed x) (signed y))

def negZero : BitVec 64 := 1 <<< 63

theorem magnitude_eq_zero_iff (x : BitVec 64) : magnitude x = 0 ↔ x = 0 ∨ x = negZero := by
  rw [magnitude, ← BitVec.toNat_inj, ← BitVec.toNat_inj]
  have hlt := x.isLt
  show _ ↔ x.toNat = 0 ∨ x.toNat = 2 ^ 63
  omega

end Double

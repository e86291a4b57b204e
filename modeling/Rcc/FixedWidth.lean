import Mathlib

/-!
# Fixed-width integers over `Int`

A library for reading machine integers as mathematical ones. An `IntTy` is a
width and a signedness; `wrap` is reduction into its range, and `pattern64`
is the 64-bit word that holds an integer. The lemmas say when the two agree:
reduction is the identity exactly on the range, it respects the ring
operations, and a word determines the integer it holds as soon as the type
is at most 64 bits wide.

What the rest of the development uses is the range calculus (`inRange_wrap`,
`wrap_eq_self_iff`), the congruences, and `wrap_wrap_iff`: a reduction inside
a wider one is invisible exactly when there was nothing to reduce.
-/

namespace FixedWidth

/-- A width and a signedness. -/
structure IntTy where
  bits : Nat
  signed : Bool
  pos : 0 < bits
deriving DecidableEq, Repr

namespace IntTy

/-- The least value of the type. -/
def lo (τ : IntTy) : Int := if τ.signed then -(2 ^ (τ.bits - 1) : Nat) else 0

/-- One past the greatest value of the type. -/
def hi (τ : IntTy) : Int := if τ.signed then (2 ^ (τ.bits - 1) : Nat) else (2 ^ τ.bits : Nat)

/-- The values of the type. -/
def InRange (τ : IntTy) (x : Int) : Prop := τ.lo ≤ x ∧ x < τ.hi

instance (τ : IntTy) (x : Int) : Decidable (τ.InRange x) :=
  inferInstanceAs (Decidable (_ ∧ _))

/-- Reduction into the range of the type. -/
def wrap (τ : IntTy) (x : Int) : Int :=
  if τ.signed then x.bmod (2 ^ τ.bits) else x % (2 ^ τ.bits : Nat)

theorem two_pow_bits (τ : IntTy) : (2 ^ τ.bits : Nat) = 2 * 2 ^ (τ.bits - 1) := by
  obtain ⟨k, hk⟩ : ∃ k, τ.bits = k + 1 := ⟨τ.bits - 1, by have := τ.pos; omega⟩
  rw [hk, Nat.pow_succ]
  simp only [Nat.add_sub_cancel]
  omega

theorem half_pos (τ : IntTy) : 0 < (2 ^ (τ.bits - 1) : Nat) := Nat.two_pow_pos _

/-- The range spans exactly `2 ^ bits` values. -/
theorem hi_eq (τ : IntTy) : τ.hi = τ.lo + (2 ^ τ.bits : Nat) := by
  have h2 := τ.two_pow_bits
  unfold hi lo
  split
  · rw [h2]
    omega
  · omega

theorem lo_nonpos (τ : IntTy) : τ.lo ≤ 0 := by
  have h1 := τ.half_pos
  unfold lo
  split
  · exact Int.neg_nonpos_of_nonneg (Int.natCast_nonneg _)
  · exact Int.le_refl 0

theorem hi_pos (τ : IntTy) : 0 < τ.hi := by
  have h1 := τ.half_pos
  have h2 := Nat.two_pow_pos τ.bits
  unfold hi
  split <;> omega

theorem inRange_zero (τ : IntTy) : τ.InRange 0 := ⟨τ.lo_nonpos, τ.hi_pos⟩

theorem inRange_wrap (τ : IntTy) (x : Int) : τ.InRange (τ.wrap x) := by
  have h2 := τ.two_pow_bits
  have h1 := τ.half_pos
  unfold InRange wrap lo hi
  split
  · have hl := Int.le_bmod (x := x) (m := 2 ^ τ.bits) (by omega)
    have hu := Int.bmod_lt (x := x) (m := 2 ^ τ.bits) (by omega)
    rw [h2] at hl hu ⊢
    omega
  · have hp : (0 : Int) < (2 ^ τ.bits : Nat) := by omega
    exact ⟨Int.emod_nonneg x (by omega), Int.emod_lt_of_pos x hp⟩

theorem wrap_of_inRange {τ : IntTy} {x : Int} (h : τ.InRange x) : τ.wrap x = x := by
  have h2 := τ.two_pow_bits
  unfold InRange lo hi at h
  unfold wrap
  split at h
  · rename_i hs
    rw [if_pos hs]
    apply Int.bmod_eq_of_le
    · rw [h2]; omega
    · rw [h2]; omega
  · rename_i hs
    rw [if_neg hs]
    exact Int.emod_eq_of_lt h.1 h.2

theorem wrap_eq_self_iff {τ : IntTy} {x : Int} : τ.wrap x = x ↔ τ.InRange x :=
  ⟨fun h => h ▸ τ.inRange_wrap x, wrap_of_inRange⟩

@[simp] theorem wrap_wrap (τ : IntTy) (x : Int) : τ.wrap (τ.wrap x) = τ.wrap x :=
  wrap_of_inRange (τ.inRange_wrap x)

/-- Reduction changes a value by a multiple of `2 ^ bits`. -/
theorem wrap_emod (τ : IntTy) (x : Int) :
    τ.wrap x % (2 ^ τ.bits : Nat) = x % (2 ^ τ.bits : Nat) := by
  unfold wrap
  split
  · exact Int.bmod_emod
  · exact Int.emod_emod_of_dvd x (Int.dvd_refl _)

theorem wrap_congr {τ : IntTy} {x y : Int}
    (h : x % (2 ^ τ.bits : Nat) = y % (2 ^ τ.bits : Nat)) : τ.wrap x = τ.wrap y := by
  unfold wrap
  split
  · rw [← Int.emod_bmod x, ← Int.emod_bmod y, h]
  · exact h

/-- The only value of the range congruent to `x` is `wrap x`. -/
theorem wrap_eq_of_emod {τ : IntTy} {x y : Int} (hy : τ.InRange y)
    (h : x % (2 ^ τ.bits : Nat) = y % (2 ^ τ.bits : Nat)) : τ.wrap x = y := by
  rw [wrap_congr h, wrap_of_inRange hy]

theorem wrap_add_wrap (τ : IntTy) (x y : Int) :
    τ.wrap (τ.wrap x + τ.wrap y) = τ.wrap (x + y) := by
  apply wrap_congr
  rw [Int.add_emod, wrap_emod, wrap_emod, ← Int.add_emod]

theorem wrap_sub_wrap (τ : IntTy) (x y : Int) :
    τ.wrap (τ.wrap x - τ.wrap y) = τ.wrap (x - y) := by
  apply wrap_congr
  rw [Int.sub_emod, wrap_emod, wrap_emod, ← Int.sub_emod]

theorem wrap_mul_wrap (τ : IntTy) (x y : Int) :
    τ.wrap (τ.wrap x * τ.wrap y) = τ.wrap (x * y) := by
  apply wrap_congr
  rw [Int.mul_emod, wrap_emod, wrap_emod, ← Int.mul_emod]

theorem wrap_neg_wrap (τ : IntTy) (x : Int) : τ.wrap (-τ.wrap x) = τ.wrap (-x) := by
  have h := wrap_sub_wrap τ 0 x
  rw [wrap_of_inRange τ.inRange_zero] at h
  simpa using h

/-- A wider signed type has every value of a narrower type. -/
theorem InRange.widen {σ τ : IntTy} (hs : σ.signed = true) (hw : τ.bits < σ.bits) {x : Int}
    (h : τ.InRange x) : σ.InRange x := by
  have h1 : (2 ^ τ.bits : Nat) ≤ 2 ^ (σ.bits - 1) := Nat.pow_le_pow_right (by omega) (by omega)
  have h2 : (2 ^ (τ.bits - 1) : Nat) ≤ 2 ^ τ.bits := Nat.pow_le_pow_right (by omega) (by omega)
  unfold InRange lo hi at h ⊢
  rw [if_pos hs, if_pos hs]
  split at h <;> omega

/-- Reducing at a narrower type first is invisible only when the value was in
its range. -/
theorem wrap_wrap_iff {σ τ : IntTy} (hs : σ.signed = true) (hw : τ.bits ≤ σ.bits) (x : Int) :
    σ.wrap (τ.wrap x) = σ.wrap x ↔ τ.bits = σ.bits ∨ τ.InRange (σ.wrap x) := by
  by_cases hb : τ.bits = σ.bits
  · refine iff_of_true (wrap_congr ?_) (.inl hb)
    rw [← hb, wrap_emod]
  · have hlt : τ.bits < σ.bits := by omega
    rw [or_iff_right hb, wrap_of_inRange ((τ.inRange_wrap x).widen hs hlt)]
    have hd : ((2 ^ τ.bits : Nat) : Int) ∣ (2 ^ σ.bits : Nat) :=
      Int.natCast_dvd_natCast.mpr (Nat.pow_dvd_pow 2 hw)
    have hx : τ.wrap (σ.wrap x) = τ.wrap x := by
      apply wrap_congr
      rw [← Int.emod_emod_of_dvd (σ.wrap x) hd, σ.wrap_emod, Int.emod_emod_of_dvd x hd]
    rw [← hx, wrap_eq_self_iff]

end IntTy

/-- The signed 64-bit type. -/
def i64 : IntTy := ⟨64, true, by decide⟩

theorem i64_inRange_iff {x : Int} : i64.InRange x ↔ -(2 ^ 63) ≤ x ∧ x < 2 ^ 63 := Iff.rfl

/-- A reduction to 64 bits changes a value by a multiple of `2 ^ 64`. -/
theorem i64_wrap_cases (z : Int) :
    ∃ k : Int, i64.wrap z = z + 2 ^ 64 * k ∧ -(2 ^ 63) ≤ i64.wrap z ∧ i64.wrap z < 2 ^ 63 := by
  have hr := i64_inRange_iff.mp (i64.inRange_wrap z)
  have he : i64.wrap z % 2 ^ 64 = z % 2 ^ 64 := i64.wrap_emod z
  refine ⟨i64.wrap z / 2 ^ 64 - z / 2 ^ 64, ?_, hr⟩
  have h1 := Int.emod_add_mul_ediv (i64.wrap z) (2 ^ 64)
  have h2 := Int.emod_add_mul_ediv z (2 ^ 64)
  linarith

/-! ## Words

The 64-bit word holding an integer, and when it determines the integer. -/

/-- The 64-bit pattern of an integer. -/
def pattern64 (x : Int) : BitVec 64 := BitVec.ofInt 64 x

/-- The signed reading of a 64-bit pattern. -/
theorem toInt_pattern64 (x : Int) : (pattern64 x).toInt = i64.wrap x := by
  simp [pattern64, IntTy.wrap, i64]

theorem pattern64_eq_iff {x y : Int} :
    pattern64 x = pattern64 y ↔ x % (2 ^ 64 : Nat) = y % (2 ^ 64 : Nat) := by
  rw [← BitVec.toInt_inj, toInt_pattern64, toInt_pattern64]
  constructor
  · intro h
    have hx := i64.wrap_emod x
    rw [h, i64.wrap_emod] at hx
    exact hx.symm
  · intro h
    exact (IntTy.wrap_congr h : i64.wrap x = i64.wrap y)

@[simp] theorem pattern64_toInt (v : BitVec 64) : pattern64 v.toInt = v := by
  simp [pattern64]

theorem pattern64_add (x y : Int) : pattern64 (x + y) = pattern64 x + pattern64 y :=
  BitVec.ofInt_add x y

theorem pattern64_mul (x y : Int) : pattern64 (x * y) = pattern64 x * pattern64 y :=
  BitVec.ofInt_mul x y

theorem pattern64_neg (x : Int) : pattern64 (-x) = -pattern64 x :=
  BitVec.ofInt_neg

theorem pattern64_sub (x y : Int) : pattern64 (x - y) = pattern64 x - pattern64 y := by
  rw [Int.sub_eq_add_neg, pattern64_add, pattern64_neg, BitVec.sub_eq_add_neg]

/-- A word determines its value at any type of at most 64 bits. -/
theorem pattern64_inj {τ : IntTy} (hw : τ.bits ≤ 64) {x y : Int} (hx : τ.InRange x)
    (hy : τ.InRange y) (h : pattern64 x = pattern64 y) : x = y := by
  have hm : x % (2 ^ τ.bits : Nat) = y % (2 ^ τ.bits : Nat) := by
    have hd : ((2 ^ τ.bits : Nat) : Int) ∣ (2 ^ 64 : Nat) :=
      Int.natCast_dvd_natCast.mpr (Nat.pow_dvd_pow 2 hw)
    rw [← Int.emod_emod_of_dvd x hd, ← Int.emod_emod_of_dvd y hd, pattern64_eq_iff.mp h]
  rw [← IntTy.wrap_of_inRange hx, IntTy.wrap_congr hm, IntTy.wrap_of_inRange hy]

/-- Reduction at a full-width type never shows in the word. -/
theorem pattern64_wrap_of_full {τ : IntTy} (hw : τ.bits = 64) (x : Int) :
    pattern64 (τ.wrap x) = pattern64 x := by
  rw [pattern64_eq_iff, ← hw, τ.wrap_emod]

end FixedWidth

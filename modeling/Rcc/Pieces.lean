import Mathlib

/-!
# Words put together from pieces

A word is cut into pieces of `k` bits, the lowest first, and put together again by writing each piece over its bits. What has been put
together after some pieces is the word below the next one (`insert_below`); it is all of the word as soon as nothing but zeros is left of it, or
when its width is reached.
-/

namespace Pieces

variable {w k : Nat}

/-- The `k` bits from bit `s` on. -/
def piece (k s : Nat) (v : BitVec w) : BitVec k := (v >>> s).setWidth k

/-- A piece written over the bits from bit `s` on. -/
def insert (s : Nat) (c : BitVec k) (v : BitVec w) : BitVec w :=
  (v &&& ~~~((BitVec.allOnes k).setWidth w <<< s)) ||| (c.setWidth w <<< s)

/-- The bits below bit `s`. -/
def below (s : Nat) (v : BitVec w) : BitVec w := (v.setWidth s).setWidth w

theorem getLsbD_piece (s : Nat) (v : BitVec w) (i : Nat) :
    (piece k s v).getLsbD i = (decide (i < k) && v.getLsbD (s + i)) := by
  simp only [piece, BitVec.getLsbD_setWidth, BitVec.getLsbD_ushiftRight]

theorem getLsbD_below (s : Nat) (v : BitVec w) (i : Nat) : (below s v).getLsbD i = (decide (i < s) && v.getLsbD i) := by
  simp only [below, BitVec.getLsbD_setWidth]
  by_cases hi : i < w
  · simp only [hi, decide_true, Bool.true_and]
  · simp only [BitVec.getLsbD_of_ge v i (not_lt.mp hi), Bool.and_false]

theorem getLsbD_insert (s : Nat) (c : BitVec k) (v : BitVec w) {i : Nat} (hi : i < w) :
    (insert s c v).getLsbD i = if s ≤ i ∧ i < s + k then c.getLsbD (i - s) else v.getLsbD i := by
  have hsub : i - s < w := by omega
  simp only [insert, BitVec.getLsbD_or, BitVec.getLsbD_and, BitVec.getLsbD_not, BitVec.getLsbD_shiftLeft,
    BitVec.getLsbD_setWidth, BitVec.getLsbD_allOnes, hi, hsub, decide_true, Bool.true_and]
  by_cases hlow : s ≤ i
  · have hge : ¬ i < s := by omega
    by_cases hhigh : i < s + k
    · have hin : i - s < k := by omega
      simp [hlow, hge, hhigh, hin]
    · have hout : ¬ i - s < k := by omega
      simp [hge, hhigh, hout, BitVec.getLsbD_of_ge c (i - s) (not_lt.mp hout)]
  · have hlt : i < s := by omega
    simp [hlow, hlt]

/-- One more piece. -/
theorem insert_below (s : Nat) (v : BitVec w) : insert s (piece k s v) (below s v) = below (s + k) v := by
  refine BitVec.eq_of_getLsbD_eq fun i hi => ?_
  rw [getLsbD_insert s _ _ hi, getLsbD_piece, getLsbD_below, getLsbD_below]
  by_cases hlow : s ≤ i
  · by_cases hhigh : i < s + k
    · have hin : i - s < k := by omega
      simp [hlow, hhigh, hin]
    · have hout : ¬ i < s := by omega
      simp [hhigh, hout]
  · have hin : i < s := by omega
    have hin' : i < s + k := by omega
    simp [hlow, hin, hin']

/-- Nothing but zeros is left. -/
theorem below_of_rest {s : Nat} {v : BitVec w} (h : v.toNat >>> s = 0) : below s v = v := by
  have hlt : v.toNat < 2 ^ s := by
    rwa [Nat.shiftRight_eq_div_pow, Nat.div_eq_zero_iff_lt (Nat.two_pow_pos s)] at h
  refine BitVec.eq_of_toNat_eq ?_
  rw [below, BitVec.toNat_setWidth, BitVec.toNat_setWidth, Nat.mod_eq_of_lt hlt, Nat.mod_eq_of_lt v.isLt]

/-- The width is reached. -/
theorem below_of_width {s : Nat} (h : w ≤ s) (v : BitVec w) : below s v = v :=
  below_of_rest (Nat.shiftRight_eq_zero v.toNat s (v.isLt.trans_le (Nat.pow_le_pow_right (by decide) h)))

/-- The lowest piece. -/
theorem below_piece (v : BitVec w) : below k v = (piece k 0 v).setWidth w := by
  rw [below, piece, BitVec.ushiftRight_zero]

/-- A piece from what is left of the word. -/
theorem piece_eq_ofNat (s : Nat) (v : BitVec w) : piece k s v = BitVec.ofNat k (v.toNat >>> s) := by
  refine BitVec.eq_of_toNat_eq ?_
  rw [piece, BitVec.toNat_setWidth, BitVec.toNat_ushiftRight, BitVec.toNat_ofNat]

end Pieces

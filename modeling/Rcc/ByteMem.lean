import Mathlib

/-!
# Memory by bits

A library for code that reads and writes memory in units of bytes to get at
single bits. Addresses wrap around at `2 ^ 64`, so all of memory is counted from
any one byte of it: `bit m a j` is its bit `j`, and the number in `k` bytes, least
significant first, has the bits below `8 * k` of that count.
-/

namespace ByteMem

/-- A byte at every address. -/
abbrev Mem := BitVec 64 → BitVec 8

/-- The bits of memory, counted from an address. -/
def bit (m : Mem) (a : BitVec 64) (j : Nat) : Bool := (m (a + BitVec.ofNat 64 (j / 8))).getLsbD (j % 8)

/-- The number in the `k` bytes at `a`. -/
def load (m : Mem) : BitVec 64 → Nat → Nat
  | _, 0 => 0
  | a, k + 1 => 2 ^ 8 * load m (a + 1) k + (m a).toNat

/-- `v` written to the `k` bytes at `a`. -/
def store (m : Mem) (a : BitVec 64) (k v : Nat) : Mem := fun b =>
  if (b - a).toNat < k then BitVec.ofNat 8 (v >>> (8 * (b - a).toNat)) else m b

variable {m : Mem} {a : BitVec 64} {j k : Nat}

theorem bit_add (m : Mem) (a : BitVec 64) (n j : Nat) :
    bit m (a + BitVec.ofNat 64 n) j = bit m a (8 * n + j) := by
  have hdiv : (8 * n + j) / 8 = n + j / 8 := Nat.mul_add_div (by decide) n j
  have hmod : (8 * n + j) % 8 = j % 8 := Nat.mul_add_mod 8 n j
  rw [bit, bit, hdiv, hmod, BitVec.ofNat_add, BitVec.add_assoc]

theorem testBit_load (m : Mem) (a : BitVec 64) (k j : Nat) :
    (load m a k).testBit j = (decide (j < 8 * k) && bit m a j) := by
  induction k generalizing a j with
  | zero => simp only [load, Nat.zero_testBit, Nat.mul_zero, Nat.not_lt_zero, decide_false, Bool.false_and]
  | succ k ih =>
      rw [load, Nat.testBit_two_pow_mul_add _ (m a).isLt]
      split
      · next hlt =>
        have hin : j < 8 * (k + 1) := by omega
        rw [bit, Nat.div_eq_of_lt hlt, Nat.mod_eq_of_lt hlt, BitVec.add_zero, decide_eq_true hin,
          Bool.true_and]
        rfl
      · next hge =>
        have hbit : bit m (a + 1) (j - 8) = bit m a j := by
          rw [show (1 : BitVec 64) = BitVec.ofNat 64 1 from rfl, bit_add]
          congr 1
          omega
        rw [ih, hbit]
        congr 1
        exact decide_eq_decide.mpr (by omega)

/-- A store leaves the bits behind it and before it. -/
theorem bit_store (m : Mem) (a : BitVec 64) (k v : Nat) (hj : j < 2 ^ 67) :
    bit (store m a k v) a j = if j < 8 * k then v.testBit j else bit m a j := by
  have hoff : (a + BitVec.ofNat 64 (j / 8) - a).toNat = j / 8 := by
    rw [BitVec.add_comm, BitVec.add_sub_cancel, BitVec.toNat_ofNat, Nat.mod_eq_of_lt (by omega)]
  rw [bit, store, hoff]
  by_cases hlt : j < 8 * k
  · have hin : j / 8 < k := by omega
    have hmod : j % 8 < 8 := Nat.mod_lt j (by decide)
    rw [if_pos hin, if_pos hlt, BitVec.getLsbD_ofNat, Nat.testBit_shiftRight, Nat.div_add_mod,
      decide_eq_true hmod, Bool.true_and]
  · have hout : ¬ j / 8 < k := by omega
    rw [if_neg hout, if_neg hlt]
    rfl

/-- The same for a store at a later address. -/
theorem bit_store_add (m : Mem) (a : BitVec 64) (n k v : Nat) (hj : j < 2 ^ 67)
    (hn : 8 * (n + k) ≤ 2 ^ 67) :
    bit (store m (a + BitVec.ofNat 64 n) k v) a j =
      if 8 * n ≤ j ∧ j < 8 * (n + k) then v.testBit (j - 8 * n) else bit m a j := by
  by_cases hle : 8 * n ≤ j
  · obtain ⟨i, rfl⟩ := Nat.exists_eq_add_of_le hle
    rw [← bit_add, bit_store _ _ _ _ (by omega), bit_add, Nat.add_sub_cancel_left]
    by_cases hlt : i < 8 * k
    · rw [if_pos hlt, if_pos (by omega)]
    · rw [if_neg hlt, if_neg (by omega)]
  · have hout : ¬ (a + BitVec.ofNat 64 (j / 8) - (a + BitVec.ofNat 64 n)).toNat < k := by
      rw [BitVec.toNat_sub, BitVec.toNat_add, BitVec.toNat_add, BitVec.toNat_ofNat, BitVec.toNat_ofNat]
      have ha := a.isLt
      omega
    rw [if_neg (fun h => hle h.1), bit, store, if_neg hout]
    rfl

/-- The addresses wrap around. -/
theorem bit_period (m : Mem) (a : BitVec 64) (j : Nat) : bit m a (j + 2 ^ 67) = bit m a j := by
  have hdiv : (j + 2 ^ 67) / 8 = j / 8 + 2 ^ 64 := by omega
  have hmod : (j + 2 ^ 67) % 8 = j % 8 := by omega
  have haddr : BitVec.ofNat 64 (j / 8 + 2 ^ 64) = BitVec.ofNat 64 (j / 8) :=
    BitVec.eq_of_toNat_eq (by rw [BitVec.toNat_ofNat, BitVec.toNat_ofNat, Nat.add_mod_right])
  rw [bit, bit, hdiv, hmod, haddr]

/-- A range that was overwritten, counted from an earlier address. -/
theorem bit_rebase {m' : Mem} {n lo hi : Nat} {x : Nat → Bool}
    (h : ∀ i < 2 ^ 67, bit m' (a + BitVec.ofNat 64 n) i =
      if lo ≤ i ∧ i < hi then x (i - lo) else bit m (a + BitVec.ofNat 64 n) i)
    (hhi : 8 * n + hi ≤ 2 ^ 67) (hj : j < 2 ^ 67) :
    bit m' a j = if 8 * n + lo ≤ j ∧ j < 8 * n + hi then x (j - (8 * n + lo)) else bit m a j := by
  by_cases hle : 8 * n ≤ j
  · obtain ⟨i, rfl⟩ := Nat.exists_eq_add_of_le hle
    rw [← bit_add, h i (by omega), bit_add, Nat.add_sub_add_left]
    simp only [Nat.add_le_add_iff_left, Nat.add_lt_add_iff_left]
  · -- the position is met again at the end of the count from the later address
    have hwrap : 8 * n + (j + 2 ^ 67 - 8 * n) = j + 2 ^ 67 := by omega
    have hi := h (j + 2 ^ 67 - 8 * n) (by omega)
    rw [if_neg (by omega), bit_add, bit_add, hwrap, bit_period, bit_period] at hi
    rw [hi, if_neg (by omega)]

/-- The same bytes in two places. -/
def SameBytes (m : Mem) (a : BitVec 64) (m' : Mem) (a' : BitVec 64) (n : Nat) : Prop :=
  ∀ i < n, m (a + BitVec.ofNat 64 i) = m' (a' + BitVec.ofNat 64 i)

theorem sameBytes_iff {m' : Mem} {a' : BitVec 64} {n : Nat} :
    SameBytes m a m' a' n ↔ ∀ j < min (n * 8) (2 ^ 67), bit m a j = bit m' a' j := by
  constructor
  · intro h j hj
    rw [bit, bit, h (j / 8) (by omega)]
  · intro h i hi
    have hwrap : BitVec.ofNat 64 i = BitVec.ofNat 64 (i % 2 ^ 64) :=
      BitVec.eq_of_toNat_eq (by rw [BitVec.toNat_ofNat, BitVec.toNat_ofNat, Nat.mod_mod])
    have hle := Nat.mod_le i (2 ^ 64)
    have hlt := Nat.mod_lt i (Nat.two_pow_pos 64)
    apply BitVec.eq_of_getLsbD_eq
    intro k hk
    have hbit := h (8 * (i % 2 ^ 64) + k) (by omega)
    rw [← bit_add, ← bit_add] at hbit
    rw [hwrap]
    simpa only [bit, Nat.div_eq_of_lt hk, Nat.mod_eq_of_lt hk, BitVec.add_zero] using hbit

end ByteMem

import Rcc.ConstExpr
import Rcc.CValue

/-!
# Operators on 64-bit words

`eval_const_expr` computes in signed 64-bit words. A word stands for a value
when it is that value read as a signed 64-bit number (`Holds`), and the
question at each operator is whether the 64-bit result still stands for the
result at the operator's type. One lemma for each family of operators answers
it with a condition on the operands (`holds_convert`, `holds_intBin`,
`holds_floBin`, `holds_compareVal`, `holds_ptrDiff`).

The condition for everything that only reduces at the end is one: the type
has 64 bits or the 64-bit result is in its range (`i64_wrap_wrap_iff`).
-/

namespace Rcc

open FixedWidth

/-! ## Words and values -/

/-- A value as the evaluator keeps it. -/
def Val.read : Val → Rat
  | .int z => i64.wrap z
  | .flo q => q

/-- The word stands for the value. -/
def Holds (v : BitVec 64) (x : Val) : Prop := (v.toInt : Rat) = x.read

/-- Values of scalar types have at most 64 bits. -/
def Val.Word : Val → Prop
  | .int z => -(2 ^ 63) ≤ z ∧ z < 2 ^ 64
  | .flo _ => True

theorem holds_int {v : BitVec 64} {z : Int} : Holds v (.int z) ↔ v = pattern64 z := by
  unfold Holds Val.read
  rw [← BitVec.toInt_inj, toInt_pattern64]
  exact Int.cast_inj

theorem holds_flo {v : BitVec 64} {q : Rat} : Holds v (.flo q) ↔ (v.toInt : Rat) = q := Iff.rfl

theorem i64_wrap_toInt (v : BitVec 64) : i64.wrap v.toInt = v.toInt := by
  rw [← toInt_pattern64, pattern64_toInt]

/-- Reduction at an integer type of C shows in the word unless the value fits. -/
theorem i64_wrap_wrap_iff {τ : IntTy} (hw : τ.bits ≤ 64) (x : Int) :
    i64.wrap (τ.wrap x) = i64.wrap x ↔ τ.bits = 64 ∨ τ.InRange (i64.wrap x) :=
  IntTy.wrap_wrap_iff rfl hw x

theorem intTy_bits_le (k : IntKind) (u : Bool) : (k.intTy u).bits ≤ 64 := by
  have := k.size_le
  simp only [IntKind.intTy]
  omega

/-- The range of every type of at most 64 bits. -/
theorem word_of_inRange {τ : IntTy} (hw : τ.bits ≤ 64) {z : Int} (h : τ.InRange z) :
    (Val.int z).Word := by
  have h1 : (2 ^ (τ.bits - 1) : Nat) ≤ 2 ^ 63 := Nat.pow_le_pow_right (by omega) (by omega)
  have h2 : (2 ^ τ.bits : Nat) ≤ 2 ^ 64 := Nat.pow_le_pow_right (by omega) hw
  unfold IntTy.InRange IntTy.lo IntTy.hi at h
  unfold Val.Word
  split at h <;> omega

theorem word_wrap {τ : IntTy} (hw : τ.bits ≤ 64) (z : Int) : (Val.int (τ.wrap z)).Word :=
  word_of_inRange hw (τ.inRange_wrap z)

theorem word_ofBool (b : Bool) : (Val.ofBool b).Word := by
  cases b <;> exact ⟨by decide, by decide⟩

/-- Testing a word against 0 or 1 tests the value. -/
theorem i64_wrap_eq_small {z b : Int} (hz : (Val.int z).Word) (hb : b = 0 ∨ b = 1) :
    i64.wrap z = b ↔ z = b := by
  obtain ⟨k, hk, hlo, hhi⟩ := i64_wrap_cases z
  obtain ⟨h1, h2⟩ := hz
  constructor
  · intro h
    omega
  · intro h
    omega

theorem read_eq_small {x : Val} (hx : x.Word) (b : Int) (hb : b = 0 ∨ b = 1) :
    x.read = b ↔ x.toRat = b := by
  cases x with
  | int z =>
      show ((i64.wrap z : Int) : Rat) = b ↔ (z : Rat) = b
      rw [Int.cast_inj, Int.cast_inj]
      exact i64_wrap_eq_small hx hb
  | flo q => exact Iff.rfl

/-- `!` and the tests of `&&`, `||` and `?:` see the value. -/
theorem holds_truthy {v : BitVec 64} {x : Val} (h : Holds v x) (hx : x.Word) :
    (v != 0) = x.truthy := by
  have hz : v = 0 ↔ x.toRat = 0 := by
    have hr := read_eq_small hx 0 (.inl rfl)
    rw [Int.cast_zero, ← h] at hr
    rw [← hr, ← BitVec.toInt_inj]
    exact (Int.cast_eq_zero (α := Rat)).symm
  unfold Val.truthy
  by_cases hv : v = 0
  · simp [hv, hz.mp hv]
  · rw [bne_iff_ne.mpr hv, eq_comm, decide_eq_true_iff]
    exact mt hz.mpr hv

theorem holds_boolWord (b : Bool) : Holds (boolWord b) (.ofBool b) := by
  cases b <;> rfl

/-! ## Conversions -/

section Rounding

variable (rnd : FloKind → Rat → Rat)

/-- The conversion to `ty` leaves the number as the evaluator keeps it. -/
def ConvExact (ty : Ty) (x : Val) : Prop :=
  match ty, x with
  | .bool _, x => x.toRat = 0 ∨ x.toRat = 1
  | .integer k u _, .int z => (k.intTy u).bits = 64 ∨ (k.intTy u).InRange (i64.wrap z)
  | .flonum k _, x => rnd k x.toRat = x.read
  | _, _ => True

theorem trunc_intCast (z : Int) : trunc (z : Rat) = z := by
  simp [trunc]

theorem convert_word {ty : Ty} {x y : Val} (h : convert rnd ty x = some y) : y.Word := by
  cases ty with
  | bool q =>
      cases h
      exact word_ofBool _
  | integer k u q =>
      cases x with
      | int z =>
          cases h
          exact word_wrap (intTy_bits_le k u) z
      | flo q =>
          simp only [convert, Option.ite_none_right_eq_some, Option.some.injEq] at h
          rw [← h.2]
          exact word_of_inRange (intTy_bits_le k u) h.1
  | flonum k q =>
      cases h
      exact trivial
  | ptr base q =>
      cases x with
      | int z =>
          cases h
          exact word_wrap (by decide) z
      | flo q => cases h
  | _ => cases h

/-- The word of an operand goes on to stand for its conversion exactly under
`ConvExact`. -/
theorem holds_convert {ty : Ty} {v : BitVec 64} {x y : Val} (hv : Holds v x) (hx : x.Word)
    (h : convert rnd ty x = some y) : Holds v y ↔ ConvExact rnd ty x := by
  cases ty with
  | bool q =>
      cases h
      have hb : ∀ b : Int, b = 0 ∨ b = 1 → ((v.toInt : Rat) = b ↔ x.toRat = b) := by
        intro b hb
        rw [hv, read_eq_small hx b hb]
      show (v.toInt : Rat) = (Val.ofBool x.truthy).read ↔ x.toRat = 0 ∨ x.toRat = 1
      by_cases h0 : x.toRat = 0
      · have ht : x.truthy = false := by simp [Val.truthy, h0]
        rw [ht]
        exact iff_of_true ((hb 0 (.inl rfl)).mpr (by rw [h0]; rfl)) (.inl h0)
      · have ht : x.truthy = true := by simp [Val.truthy, h0]
        rw [ht, or_iff_right h0]
        have h1 := hb 1 (.inr rfl)
        rwa [Int.cast_one] at h1
  | integer k u q =>
      cases x with
      | int z =>
          cases h
          rw [holds_int] at hv ⊢
          rw [hv, ← BitVec.toInt_inj, toInt_pattern64, toInt_pattern64, eq_comm]
          exact i64_wrap_wrap_iff (intTy_bits_le k u) z
      | flo q =>
          simp only [convert, Option.ite_none_right_eq_some, Option.some.injEq] at h
          rw [← h.2]
          refine iff_of_true ?_ trivial
          have hq : (v.toInt : Rat) = q := hv
          rw [← hq, trunc_intCast, holds_int, pattern64_toInt]
  | flonum k q =>
      cases h
      show (v.toInt : Rat) = rnd k x.toRat ↔ rnd k x.toRat = x.read
      rw [hv, eq_comm]
  | ptr base q =>
      cases x with
      | int z =>
          cases h
          rw [holds_int] at hv ⊢
          refine iff_of_true ?_ trivial
          rw [hv, pattern64_wrap_of_full rfl]
      | flo q => cases h
  | _ => cases h

end Rounding

/-! ## Integer operators -/

/-- The operator at `τ` agrees with the signed 64-bit one on these operands:
a result reduced only at the end fits or has the full width, and where
signedness matters the two readings give the same. -/
def intExact (τ : IntTy) (kind : BinKind) (x y : Int) : Prop :=
  match kind with
  | .div => i64.wrap ((τ.wrap x).tdiv (τ.wrap y)) = (i64.wrap x).tdiv (i64.wrap y)
  | .mod => i64.wrap ((τ.wrap x).tmod (τ.wrap y)) = (i64.wrap x).tmod (i64.wrap y)
  | .shr => i64.wrap (τ.wrap x / 2 ^ y.toNat) = i64.wrap x / 2 ^ y.toNat
  | _ => τ.bits = 64 ∨ τ.InRange (i64.wrap (exactInt kind x y))

/-- The kinds that reduce only at the end. -/
def BinKind.reduces : BinKind → Bool
  | .add | .sub | .mul | .shl | .bitand | .bitxor | .bitor => true
  | _ => false

/-- A shift count in range is its word's. -/
theorem toNat_pattern64 {y : Int} (h0 : 0 ≤ y) (h : y < 64) :
    (pattern64 y).toNat % 64 = y.toNat := by
  obtain ⟨n, rfl⟩ := Int.eq_ofNat_of_zero_le h0
  have hn : n < 64 := by omega
  have hp : pattern64 (n : Int) = BitVec.ofNat 64 n := by
    simp [pattern64]
  rw [hp, BitVec.toNat_ofNat]
  simp only [Int.toNat_natCast]
  omega

/-- What the evaluator stores for the kinds that reduce at the end. -/
theorem evalBin_reduces {kind : BinKind} (hk : kind.reduces = true) {x y : Int}
    (hs : kind = .shl → 0 ≤ y ∧ y < 64) :
    evalBin kind (pattern64 x) (pattern64 y) = .done (pattern64 (exactInt kind x y)) := by
  cases kind with
  | add => rw [evalBin, exactInt, pattern64_add]
  | sub => rw [evalBin, exactInt, pattern64_sub]
  | mul => rw [evalBin, exactInt, pattern64_mul]
  | bitand | bitxor | bitor => rw [evalBin, exactInt, pattern64_toInt]
  | shl =>
      obtain ⟨h0, h⟩ := hs rfl
      rw [evalBin, exactInt, toNat_pattern64 h0 h, pattern64_mul]
      have hp : pattern64 (2 ^ y.toNat) = BitVec.twoPow 64 y.toNat := by
        have hc : ((2 : Int) ^ y.toNat) = ((2 ^ y.toNat : Nat) : Int) := by norm_num
        rw [pattern64, hc, BitVec.ofInt_natCast]
        apply BitVec.eq_of_toNat_eq
        rw [BitVec.toNat_ofNat, BitVec.toNat_twoPow]
      rw [hp, BitVec.shiftLeft_eq_mul_twoPow]
  | _ => cases hk

/-- The word of an arithmetic result at `τ` is the one stored exactly under
`intExact`. -/
theorem holds_intBin {τ : IntTy} (hw : τ.bits ≤ 64) {kind : BinKind} {x y z : Int}
    {v : BitVec 64} (hv : evalBin kind (pattern64 x) (pattern64 y) = .done v)
    (hz : intBin τ kind x y = some z) : Holds v (.int z) ↔ intExact τ kind x y := by
  have hread : Holds v (.int z) ↔ v.toInt = i64.wrap z := by
    rw [holds_int, ← BitVec.toInt_inj, toInt_pattern64]
  have hreduces : kind.reduces = true → (kind = .shl → 0 ≤ y ∧ y < 64) →
      z = τ.wrap (exactInt kind x y) →
      (Holds v (.int z) ↔ τ.bits = 64 ∨ τ.InRange (i64.wrap (exactInt kind x y))) := by
    rintro hk hs rfl
    rw [evalBin_reduces hk hs] at hv
    cases hv
    rw [hread, toInt_pattern64, eq_comm]
    exact i64_wrap_wrap_iff hw _
  cases kind with
  | add | sub | mul | bitand | bitxor | bitor =>
      exact hreduces rfl (fun h => by cases h) (Option.some.inj hz).symm
  | shl =>
      simp only [intBin, Option.ite_none_right_eq_some, Option.some.injEq] at hz
      obtain ⟨⟨h0, hb⟩, rfl⟩ := hz
      exact hreduces rfl (fun _ => ⟨h0, by omega⟩) rfl
  | shr =>
      simp only [intBin, Option.ite_none_right_eq_some, Option.some.injEq] at hz
      obtain ⟨⟨h0, hb⟩, rfl⟩ := hz
      cases hv
      rw [hread, toNat_pattern64 h0 (by omega), BitVec.toInt_sshiftRight, toInt_pattern64,
        Int.shiftRight_eq_div_pow, eq_comm]
      norm_num [intExact]
  | div =>
      simp only [intBin, Option.ite_none_right_eq_some, Option.some.injEq] at hz
      obtain ⟨_, rfl⟩ := hz
      simp only [evalBin] at hv
      split at hv
      · cases hv
      · split at hv
        · cases hv
        · next hno =>
          cases hv
          have hne : pattern64 x ≠ BitVec.intMin 64 ∨ pattern64 y ≠ -1 := by
            rwa [not_and_or] at hno
          rw [hread, BitVec.toInt_sdiv_of_ne_or_ne _ _ hne, toInt_pattern64, toInt_pattern64,
            eq_comm]
          exact Iff.rfl
  | mod =>
      simp only [intBin, Option.ite_none_right_eq_some, Option.some.injEq] at hz
      obtain ⟨_, rfl⟩ := hz
      simp only [evalBin] at hv
      split at hv
      · cases hv
      · split at hv
        · cases hv
        · cases hv
          rw [hread, BitVec.toInt_srem, toInt_pattern64, toInt_pattern64, eq_comm]
          exact Iff.rfl
  | _ => cases hz

/-! ## Floating operators, comparisons and addresses -/

section Rounding

variable (rnd : FloKind → Rat → Rat)

/-- The signed 64-bit operators, as the evaluator applies them to operands of
floating type too. -/
def wordOp (kind : BinKind) (x y : Int) : Int :=
  match kind with
  | .add => i64.wrap (x + y)
  | .sub => i64.wrap (x - y)
  | .mul => i64.wrap (x * y)
  | .div => x.tdiv y
  | _ => 0

/-- The rounded result is the integer the 64-bit operator gives. -/
def floExact (k : FloKind) (kind : BinKind) (a b : Val) : Prop :=
  ∀ x y r, convert rnd (.flonum k 0) a = some (.flo x) →
    convert rnd (.flonum k 0) b = some (.flo y) → floBin rnd k kind x y = some r →
      r = wordOp kind (trunc a.read) (trunc b.read)

/-- The two readings of the operands are in the same relation. -/
def compareExact (kind : BinKind) (lty rty : Ty) (a b : Val) : Prop :=
  ∀ ty a' b', compareTy lty rty = some ty → convert rnd ty a = some a' →
    convert rnd ty b = some b' →
      relHolds kind a'.toRat b'.toRat = relHolds kind a.read b.read

theorem holds_floBin {k : FloKind} {kind : BinKind} {a b : Val} {u w v : BitVec 64}
    {x y r : Rat} (ha : Holds u a) (hb : Holds w b)
    (hx : convert rnd (.flonum k 0) a = some (.flo x))
    (hy : convert rnd (.flonum k 0) b = some (.flo y)) (hv : evalBin kind u w = .done v)
    (hr : floBin rnd k kind x y = some r) : Holds v (.flo r) ↔ floExact rnd k kind a b := by
  have hta : trunc a.read = u.toInt := by rw [← ha, trunc_intCast]
  have htb : trunc b.read = w.toInt := by rw [← hb, trunc_intCast]
  have hiff : floExact rnd k kind a b ↔ r = wordOp kind u.toInt w.toInt := by
    unfold floExact
    rw [hta, htb]
    constructor
    · intro h
      exact h x y r hx hy hr
    · intro h x' y' r' hx' hy' hr'
      rw [hx] at hx'
      rw [hy] at hy'
      cases hx'
      cases hy'
      rw [hr] at hr'
      cases hr'
      exact h
  have hword : v.toInt = wordOp kind u.toInt w.toInt := by
    cases kind with
    | add =>
        cases hv
        rw [wordOp, ← toInt_pattern64, pattern64_add, pattern64_toInt, pattern64_toInt]
    | sub =>
        cases hv
        rw [wordOp, ← toInt_pattern64, pattern64_sub, pattern64_toInt, pattern64_toInt]
    | mul =>
        cases hv
        rw [wordOp, ← toInt_pattern64, pattern64_mul, pattern64_toInt, pattern64_toInt]
    | div =>
        simp only [evalBin] at hv
        split at hv
        · cases hv
        · split at hv
          · cases hv
          · next hno =>
            cases hv
            exact BitVec.toInt_sdiv_of_ne_or_ne _ _ (by rwa [not_and_or] at hno)
    | _ => cases hr
  rw [hiff, holds_flo, hword, eq_comm]

theorem boolWord_holds_iff (b c : Bool) : Holds (boolWord b) (.ofBool c) ↔ c = b := by
  rw [Val.ofBool, holds_int]
  cases b <;> cases c <;> decide

/-- A comparison of words is the comparison of what they stand for. -/
theorem evalBin_compare {kind : BinKind} (hk : kind.isCompare = true) {a b : Val}
    {u w v : BitVec 64} (ha : Holds u a) (hb : Holds w b) (hv : evalBin kind u w = .done v) :
    v = boolWord (relHolds kind a.read b.read) := by
  rw [← ha, ← hb]
  cases kind with
  | eq =>
      cases hv
      simp only [relHolds, Int.cast_inj, BitVec.toInt_inj]
      rfl
  | ne =>
      cases hv
      simp only [relHolds, ne_eq, Int.cast_inj, BitVec.toInt_inj, decide_not]
      rfl
  | lt | le =>
      cases hv
      simp only [relHolds, Int.cast_lt, Int.cast_le]
      rfl
  | _ => cases hk

theorem holds_compareVal {kind : BinKind} (hk : kind.isCompare = true) {lty rty : Ty} {a b x : Val}
    {u w v : BitVec 64} (ha : Holds u a) (hb : Holds w b) (hv : evalBin kind u w = .done v)
    (hx : compareVal rnd kind lty rty a b = some x) :
    Holds v x ↔ compareExact rnd kind lty rty a b := by
  obtain ⟨ty, hty, hx⟩ := Option.bind_eq_some_iff.mp hx
  obtain ⟨a', ha', hx⟩ := Option.bind_eq_some_iff.mp hx
  obtain ⟨b', hb', hx⟩ := Option.bind_eq_some_iff.mp hx
  cases hx
  rw [evalBin_compare hk ha hb hv, boolWord_holds_iff]
  unfold compareExact
  constructor
  · intro h ty' x' y' hty' hx' hy'
    rw [hty] at hty'
    cases hty'
    rw [ha'] at hx'
    rw [hb'] at hy'
    cases hx'
    cases hy'
    exact h
  · intro h
    exact h ty a' b' hty ha' hb'

end Rounding

/-- Offsets are exact: addresses have the evaluator's width. -/
theorem holds_offsetVal {kind : BinKind} (hk : kind = .add ∨ kind = .sub) {a b x : Val}
    {u w v : BitVec 64} (ha : Holds u a) (hb : Holds w b) (hv : evalBin kind u w = .done v)
    (hx : offsetVal kind a b = some x) : Holds v x := by
  cases a with
  | flo _ => cases b <;> cases hx
  | int p =>
      cases b with
      | flo _ => cases hx
      | int n =>
          rw [holds_int] at ha hb
          subst ha hb
          cases hx
          rw [holds_int]
          rcases hk with rfl | rfl <;> cases hv
          · rw [if_neg (by decide), pattern64_wrap_of_full rfl, pattern64_add]
          · rw [if_pos rfl, pattern64_wrap_of_full rfl, pattern64_sub]

/-- A pointer difference is stored in bytes: right only where it is 0 or
elements are bytes. -/
theorem holds_ptrDiff {size : Nat} {a b x : Val} {u w v : BitVec 64} (ha : Holds u a)
    (hb : Holds w b) (hv : evalBin .sub u w = .done v) (hx : ptrDiff size a b = some x) :
    Holds v x ↔ a = b ∨ size = 1 := by
  cases a with
  | flo _ => cases b <;> cases hx
  | int p =>
      cases b with
      | flo _ => cases hx
      | int q =>
          rw [holds_int] at ha hb
          subst ha hb
          cases hv
          simp only [ptrDiff, Option.ite_none_right_eq_some, Option.some.injEq] at hx
          obtain ⟨⟨hs, hr, d, hd⟩, rfl⟩ := hx
          have hs0 : (size : Int) ≠ 0 := by exact_mod_cast hs
          have hs1 : 1 ≤ (size : Int) := by omega
          have hdr : i64.InRange d := by
            rw [i64_inRange_iff] at hr ⊢
            rw [hd] at hr
            constructor <;> nlinarith
          rw [holds_int, ← pattern64_sub, hd, Int.mul_ediv_cancel_left _ hs0, ← BitVec.toInt_inj,
            toInt_pattern64, toInt_pattern64, IntTy.wrap_of_inRange hdr,
            IntTy.wrap_of_inRange (hd ▸ hr), Val.int.injEq]
          constructor
          · intro h
            have hz : (size - 1 : Int) * d = 0 := by linarith
            rcases mul_eq_zero.mp hz with h1 | h0
            · right
              omega
            · left
              rw [h0, mul_zero] at hd
              omega
          · rintro (rfl | rfl)
            · have h0 : (size : Int) * d = 0 := by omega
              rcases mul_eq_zero.mp h0 with h1 | h1
              · exact absurd h1 hs0
              · rw [h0, h1]
            · simp

end Rcc

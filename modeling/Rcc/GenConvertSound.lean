import Rcc.GenConvert
import Mathlib

/-!
# When casts and assignments are generated right

A register that holds an integer is read at its own width, at the width of `int`, and once,
where an `unsigned` becomes a floating value, in full. So it holds a value of a narrow type
if its low half is that value as an `int` (`carries_narrow`), and an `unsigned` only if its
high half is clear (`carries_uint`).

Every instruction that is printed reduces the register to some type, and reductions compose.
What is left over are three kinds of conversions: to `_Bool`, where there is a reduction
too; to `unsigned` from a type of the same or less width, where nothing is printed; and the value of
an assignment to something narrow, which is reduced only for unsigned local variables.
-/

namespace Rcc.Convert

open FixedWidth

/-! ## Bits of a word -/

theorem wrap_toInt_signed {k : Nat} (hk : 0 < k) (h : k ≤ 64) (w : BitVec 64) :
    (w.setWidth k).toInt = (⟨k, true, hk⟩ : IntTy).wrap w.toInt := by
  show _ = w.toInt.bmod (2 ^ k)
  rw [BitVec.toInt_setWidth, BitVec.toInt_eq_toNat_bmod, Int.bmod_bmod_of_dvd (Nat.pow_dvd_pow 2 h)]

theorem wrap_toInt_unsigned {k : Nat} (hk : 0 < k) (h : k ≤ 64) (w : BitVec 64) :
    ((w.setWidth k).toNat : Int) = (⟨k, false, hk⟩ : IntTy).wrap w.toInt := by
  show _ = w.toInt % (2 ^ k : Nat)
  have hdvd : ((2 ^ k : Nat) : Int) ∣ ((2 ^ 64 : Nat) : Int) := Int.natCast_dvd_natCast.mpr (Nat.pow_dvd_pow 2 h)
  rw [BitVec.toNat_setWidth, BitVec.toInt_eq_toNat_bmod, ← Int.emod_emod_of_dvd _ hdvd, Int.bmod_emod,
    Int.emod_emod_of_dvd _ hdvd]
  rfl

def lowTy (signed : Bool) (low : Low) : IntTy := ⟨low.bits, signed, by cases low <;> decide⟩

theorem toInt_extendLow (signed : Bool) (low : Low) {n : Nat} (hn : low.bits < n) (w : BitVec 64) :
    (extendLow signed low n w).toInt = (lowTy signed low).wrap w.toInt := by
  have hpos : 0 < low.bits := (lowTy signed low).pos
  have hle : low.bits ≤ 64 := by cases low <;> decide
  cases signed with
  | true =>
      rw [extendLow, if_pos rfl, BitVec.toInt_signExtend_of_le (Nat.le_of_lt hn), wrap_toInt_signed hpos hle]
      rfl
  | false =>
      rw [extendLow, if_neg Bool.false_ne_true, BitVec.toInt_setWidth, wrap_toInt_unsigned hpos hle]
      -- there is room for the sign
      have hrange := (lowTy false low).inRange_wrap w.toInt
      have hpow : 2 * 2 ^ low.bits ≤ 2 ^ n := by
        rw [← Nat.pow_succ']
        exact Nat.pow_le_pow_right (by decide) hn
      have hhi : (lowTy false low).hi = (2 ^ low.bits : Nat) := rfl
      have hlo : (lowTy false low).lo = 0 := rfl
      rw [IntTy.InRange, hhi, hlo] at hrange
      refine Int.bmod_eq_of_le ?_ ?_
      · have hzero : -((2 ^ n : Nat) / 2 : Int) ≤ 0 := by omega
        exact le_trans hzero hrange.1
      · have hup : ((2 ^ low.bits : Nat) : Int) ≤ ((2 ^ n : Nat) + 1) / 2 := by omega
        exact lt_of_lt_of_le hrange.2 hup

/-! ## Reductions -/

/-- The 32 bits of an `int` and of an `unsigned`. -/
abbrev i32 : IntTy := bitsOf tyInt
abbrev u32 : IntTy := bitsOf tyUint

/-- A reduction does not show in a narrower one. -/
theorem wrap_wrap_of_le {σ τ : IntTy} (h : σ.bits ≤ τ.bits) (x : Int) : σ.wrap (τ.wrap x) = σ.wrap x := by
  refine IntTy.wrap_congr ?_
  have hdvd : ((2 ^ σ.bits : Nat) : Int) ∣ ((2 ^ τ.bits : Nat) : Int) := Int.natCast_dvd_natCast.mpr (Nat.pow_dvd_pow 2 h)
  rw [← Int.emod_emod_of_dvd (τ.wrap x) hdvd, τ.wrap_emod, Int.emod_emod_of_dvd x hdvd]

theorem wrap_eq_of_wrap_eq {σ τ : IntTy} (h : σ.bits ≤ τ.bits) {x v : Int} (hv : τ.wrap x = v) : σ.wrap v = σ.wrap x := by
  rw [← hv, wrap_wrap_of_le h]

/-- A wider signed type keeps what was reduced. -/
theorem wrap_signed_wrap {σ τ : IntTy} (hs : σ.signed = true) (h : τ.bits < σ.bits) (x : Int) : σ.wrap (τ.wrap x) = τ.wrap x :=
  IntTy.wrap_of_inRange ((τ.inRange_wrap x).widen hs h)

theorem i64_toInt (w : BitVec 64) : i64.wrap w.toInt = w.toInt := by
  rw [IntTy.wrap_eq_self_iff, i64_inRange_iff]
  have hlo := w.le_toInt
  have hhi := w.toInt_lt
  omega

/-! ## What it takes to hold a value -/

variable {ty : Ty} {v : Int} {w : BitVec 64}

theorem bitsOf_bits (h : isInteger ty = true) : (bitsOf ty).bits = 8 * ty.size := by
  cases ty with
  | bool q => rfl
  | integer k u q => rfl
  | _ => cases h

theorem size_cases (h : isInteger ty = true) : ty.size = 1 ∨ ty.size = 2 ∨ ty.size = 4 ∨ ty.size = 8 := by
  cases ty with
  | bool q => exact .inl rfl
  | integer k u q => cases k <;> simp [Ty.size, IntKind.size]
  | _ => cases h

theorem promotion_narrow (h : isInteger ty = true) (hsize : ty.size < 4) : integerPromotion ty = tyInt := by
  rw [integerPromotion, if_neg (by rw [h]; decide), if_pos hsize]

theorem promotion_wide (hsize : ¬ ty.size < 4) : integerPromotion ty = ty := by
  rw [integerPromotion, if_neg hsize, ite_self]

theorem carries_iff (ty : Ty) (v : Int) (w : BitVec 64) : Carries ty v w ↔
    (bitsOf (integerPromotion ty)).wrap w.toInt = v ∧ (bitsOf ty).wrap w.toInt = v ∧
      (Use.reads ty .toFloat).wrap w.toInt = v := by
  constructor
  · intro h
    exact ⟨h .operand, h .low, h .toFloat⟩
  · rintro ⟨hoperand, hlow, hfloat⟩ use
    cases use with
    | operand => exact hoperand
    | low => exact hlow
    | toFloat => exact hfloat

/-- In the low half, as an `int`. -/
theorem carries_narrow (h : isInteger ty = true) (hsize : ty.size < 4) :
    Carries ty v w ↔ i32.wrap w.toInt = v ∧ (bitsOf ty).wrap w.toInt = v := by
  have hfloat : Use.reads ty .toFloat = i32 := by
    rw [Use.reads, if_neg (show ¬ ty.size = 8 by omega), if_neg (show ¬ ty.size = 4 by omega), if_pos hsize, ite_self]
  rw [carries_iff, promotion_narrow h hsize, hfloat]
  exact ⟨fun ⟨h1, h2, _⟩ => ⟨h1, h2⟩, fun ⟨h1, h2⟩ => ⟨h1, h2, h1⟩⟩

/-- With nothing above it. -/
theorem carries_uint (hsize : ty.size = 4) (hu : ty.isUnsigned = true) :
    Carries ty v w ↔ (bitsOf ty).wrap w.toInt = v ∧ w.toInt = v := by
  have hfloat : Use.reads ty .toFloat = i64 := by
    rw [Use.reads, if_pos hu, if_neg (show ¬ ty.size = 8 by omega), if_pos hsize]
  rw [carries_iff, promotion_wide (by omega), hfloat, i64_toInt]
  exact ⟨fun ⟨_, h⟩ => h, fun h => ⟨h.1, h⟩⟩

theorem carries_wide (h : isInteger ty = true) (hwide : ¬ ty.size < 4) (hu : ty.size = 4 → ty.isUnsigned = false) :
    Carries ty v w ↔ (bitsOf ty).wrap w.toInt = v := by
  have hfloat : Use.reads ty .toFloat = bitsOf ty := by
    rw [Use.reads]
    by_cases hsigned : ty.isUnsigned = true
    · have hne : ¬ ty.size = 4 := fun hsize => Bool.false_ne_true ((hu hsize).symm.trans hsigned)
      have hsize : ty.size = 8 := by
        have hcases := size_cases h
        omega
      rw [if_pos hsigned, if_pos hsize]
    · rw [if_neg hsigned, if_neg hwide]
  rw [carries_iff, promotion_wide hwide, hfloat]
  exact ⟨fun h => h.1, fun h => ⟨h, h, h⟩⟩

/-! ## What the instructions leave -/

theorem intTy_eq {σ τ : IntTy} (hbits : σ.bits = τ.bits) (hsigned : σ.signed = τ.signed) : σ = τ := by
  cases σ
  cases τ
  cases hbits
  cases hsigned
  rfl

theorem bitsOf_signed (h : isInteger ty = true) : (bitsOf ty).signed = !ty.isUnsigned := by
  cases ty with
  | bool q => rfl
  | integer k u q => rfl
  | _ => cases h

theorem bitsOf_byte (h : isInteger ty = true) (hsize : ty.size = 1) : lowTy (!ty.isUnsigned) .b = bitsOf ty :=
  intTy_eq (by rw [bitsOf_bits h, hsize]; rfl) (bitsOf_signed h).symm

theorem bitsOf_word (h : isInteger ty = true) (hsize : ty.size = 2) : lowTy (!ty.isUnsigned) .w = bitsOf ty :=
  intTy_eq (by rw [bitsOf_bits h, hsize]; rfl) (bitsOf_signed h).symm

theorem toInt_clear (v : BitVec 32) : (v.setWidth 64).toInt = v.toNat := by
  rw [BitVec.toInt_setWidth]
  have hlt := v.isLt
  exact Int.bmod_eq_of_le (by omega) (by omega)

theorem toInt_setWidth64 (v : BitVec 32) : (v.setWidth 64).toInt = u32.wrap v.toInt := by
  rw [toInt_clear]
  show _ = v.toInt % (2 ^ 32 : Nat)
  have hlt := v.isLt
  rw [BitVec.toInt_eq_toNat_bmod, Int.bmod_emod]
  omega

theorem toInt_low32 (w : BitVec 64) : ((w.setWidth 32).setWidth 64).toInt = u32.wrap w.toInt := by
  rw [toInt_setWidth64, wrap_toInt_signed (by decide) (by decide)]
  exact wrap_wrap_of_le (show u32.bits ≤ 32 from le_refl 32) _

/-- What `castLines` leaves of what is in the register. -/
def castInt (src to_ : Ty) (x : Int) : Int :=
  if to_.size < 4 then u32.wrap ((bitsOf to_).wrap x)
  else if to_.size = 4 ∧ src.size = 8 then u32.wrap x
  else if to_.size = 8 ∧ src.size < 8 then (bitsOf src).wrap x
  else x

/-- One register has a new value; nothing else of the registers and the memory has. -/
structure Leaves (m m' : Machine) (r : Reg) (x : Int) : Prop where
  value : (m'.reg r).toInt = x
  others : ∀ q, q ≠ r → m'.reg q = m.reg q
  mem : m'.mem = m.mem

theorem leaves_set (m : Machine) (r : Reg) (v : BitVec 64) (flags : Option Flags) :
    Leaves m { m.set r v with flags } r v.toInt where
  value := show (Function.update m.reg r v r).toInt = v.toInt by rw [Function.update_self]
  others _ hq := m.set_reg_of_ne v hq
  mem := rfl

theorem exec_one {o : Op} {m m' : Machine} (h : o.run m = some m') : exec [.op o] m = some m' := by
  show (o.run m).bind (exec []) = _
  rw [h]
  rfl

theorem exec_extend32 (signed : Bool) (low : Low) (r : Reg) (m : Machine) :
    ∃ m', exec [.op (.extend signed low .l r)] m = some m' ∧ Leaves m m' r (u32.wrap ((lowTy signed low).wrap (m.reg r).toInt)) := by
  have hlow : low.bits < 32 := by cases low <;> decide
  refine ⟨_, exec_one rfl, ?_⟩
  rw [← toInt_extendLow signed low hlow, ← toInt_setWidth64]
  exact leaves_set m r _ m.flags

theorem exec_extend64 (signed : Bool) (low : Low) (r : Reg) (m : Machine) :
    ∃ m', exec [.op (.extend signed low .q r)] m = some m' ∧ Leaves m m' r ((lowTy signed low).wrap (m.reg r).toInt) := by
  have hlow : low.bits < 64 := by cases low <;> decide
  refine ⟨_, exec_one rfl, ?_⟩
  rw [← toInt_extendLow signed low hlow]
  exact leaves_set m r _ m.flags

theorem exec_mov32 (r : Reg) (m : Machine) :
    ∃ m', exec [.op (.mov32 r)] m = some m' ∧ Leaves m m' r (u32.wrap (m.reg r).toInt) := by
  refine ⟨_, exec_one rfl, ?_⟩
  rw [← toInt_low32]
  exact leaves_set m r _ m.flags

theorem exec_movslq (r : Reg) (m : Machine) :
    ∃ m', exec [.op (.movslq r)] m = some m' ∧ Leaves m m' r (i32.wrap (m.reg r).toInt) := by
  refine ⟨_, exec_one rfl, ?_⟩
  have hvalue : ((m.get32 r).signExtend 64).toInt = i32.wrap (m.reg r).toInt := by
    rw [BitVec.toInt_signExtend_of_le (by decide), Machine.get32, wrap_toInt_signed (by decide) (by decide)]
    rfl
  rw [← hvalue]
  exact leaves_set m r _ m.flags

theorem u32_wrap_narrow {τ : IntTy} (hs : τ.signed = false) (h : τ.bits ≤ 32) (x : Int) : u32.wrap (τ.wrap x) = τ.wrap x := by
  refine IntTy.wrap_of_inRange ?_
  obtain ⟨hlo, hhi⟩ := τ.inRange_wrap x
  have hpow : (2 ^ τ.bits : Nat) ≤ 2 ^ 32 := Nat.pow_le_pow_right (by decide) h
  rw [IntTy.lo, hs, if_neg Bool.false_ne_true] at hlo
  rw [IntTy.hi, hs, if_neg Bool.false_ne_true] at hhi
  exact ⟨hlo, lt_of_lt_of_le hhi (Int.ofNat_le.mpr hpow)⟩

/-- The code of a cast to eight bytes. -/
theorem exec_widen {src : Ty} (h : isInteger src = true) (hsize : src.size < 8) (r : Reg) (m : Machine) :
    ∃ m', exec (if src.isUnsigned then zeroExtendTo r src.size 8 else signExtendTo r src.size 8) m = some m' ∧
      Leaves m m' r ((bitsOf src).wrap (m.reg r).toInt) := by
  have hcases := size_cases h
  have hbits := bitsOf_bits h
  have hsigned := bitsOf_signed h
  by_cases hu : src.isUnsigned = true
  · rw [hu] at hsigned
    rw [if_pos hu, ← u32_wrap_narrow hsigned (by omega)]
    rw [zeroExtendTo, if_neg (by omega), if_pos (.inl rfl)]
    by_cases h2 : src.size = 2
    · rw [if_pos h2, ← bitsOf_word h h2, hu]
      exact exec_extend32 false .w r m
    rw [if_neg h2]
    by_cases h1 : src.size = 1
    · rw [if_pos h1, ← bitsOf_byte h h1, hu]
      exact exec_extend32 false .b r m
    · have h4 : bitsOf src = u32 := intTy_eq (by rw [hbits]; show _ = 32; omega) hsigned
      rw [if_neg h1, h4, wrap_wrap_of_le (le_refl _)]
      exact exec_mov32 r m
  · have hu := eq_false_of_ne_true hu
    rw [hu] at hsigned
    rw [hu, if_neg Bool.false_ne_true, signExtendTo, if_neg (by omega), if_pos rfl]
    by_cases h2 : src.size = 2
    · rw [if_pos h2, ← bitsOf_word h h2, hu]
      exact exec_extend64 true .w r m
    rw [if_neg h2]
    by_cases h1 : src.size = 1
    · rw [if_pos h1, ← bitsOf_byte h h1, hu]
      exact exec_extend64 true .b r m
    · have h4 : bitsOf src = i32 := intTy_eq (by rw [hbits]; show _ = 32; omega) hsigned
      rw [if_neg h1, h4]
      exact exec_movslq r m

theorem exec_castLines {src to_ : Ty} (hsrc : isInteger src = true) (hto : isInteger to_ = true) (r : Reg) (m : Machine) :
    ∃ m', exec (castLines src to_ r) m = some m' ∧ Leaves m m' r (castInt src to_ (m.reg r).toInt) := by
  have hcases := size_cases hto
  rw [castLines, castInt]
  by_cases h1 : to_.size = 1
  · rw [if_pos h1, if_pos (by omega), ← bitsOf_byte hto h1]
    exact exec_extend32 _ .b r m
  rw [if_neg h1]
  by_cases h2 : to_.size = 2
  · rw [if_pos h2, if_pos (by omega), ← bitsOf_word hto h2]
    exact exec_extend32 _ .w r m
  rw [if_neg h2, if_neg (show ¬ to_.size < 4 by omega)]
  by_cases h4 : to_.size = 4 ∧ src.size = 8
  · rw [if_pos h4, if_pos h4]
    exact exec_mov32 r m
  rw [if_neg h4, if_neg h4]
  by_cases h8 : to_.size = 8 ∧ src.size < 8
  · rw [if_pos h8, if_pos h8]
    exact exec_widen hsrc h8.2 r m
  · rw [if_neg h8, if_neg h8]
    exact ⟨m, rfl, rfl, fun _ _ => rfl, rfl⟩

/-! ## Conversions in a register -/

variable {src to_ : Ty} {w' : BitVec 64}

/-- The low half of the register is that of the value. -/
theorem Carries.low (h : isInteger src = true) (hv : Carries src v w) {σ : IntTy} (hσ : σ.bits ≤ 32) :
    σ.wrap w.toInt = σ.wrap v := by
  have hwide : 32 ≤ (bitsOf (integerPromotion src)).bits := by
    by_cases hsize : src.size < 4
    · rw [promotion_narrow h hsize]
      exact le_refl 32
    · rw [promotion_wide hsize, bitsOf_bits h]
      omega
  exact (wrap_eq_of_wrap_eq (le_trans hσ hwide) (hv .operand)).symm

/-- Of eight bytes, all of it is. -/
theorem Carries.full (h : isInteger src = true) (hsize : src.size = 8) (hv : Carries src v w) {σ : IntTy} (hσ : σ.bits ≤ 64) :
    σ.wrap w.toInt = σ.wrap v := by
  have hbits : (bitsOf src).bits = 64 := by rw [bitsOf_bits h, hsize]
  exact (wrap_eq_of_wrap_eq (le_of_le_of_eq hσ hbits.symm) (hv .low)).symm

theorem converted_int (h : isInteger ty = true) (hbool : isBool ty = false) (v : Int) : converted ty v = (bitsOf ty).wrap v := by
  cases ty with
  | bool q => cases hbool
  | integer k u q => rfl
  | _ => cases h

theorem converted_bool (hbool : isBool ty = true) (v : Int) : converted ty v = if v = 0 then 0 else 1 := by
  cases ty with
  | bool q => rfl
  | _ => cases hbool

theorem bitsOf_bool (hbool : isBool ty = true) (v : Int) : (bitsOf ty).wrap v = v % 256 := by
  cases ty with
  | bool q => rfl
  | _ => cases hbool

theorem not_bool_of_size (hsize : ty.size ≠ 1) : isBool ty = false := by
  cases ty with
  | bool q => exact absurd rfl hsize
  | _ => rfl

/-- To reduce is to convert, but for `_Bool`. -/
theorem wrap_eq_converted_iff (h : isInteger ty = true) (v : Int) :
    (bitsOf ty).wrap v = converted ty v ↔ (isBool ty = true → v = 0 ∨ v % 256 = 1) := by
  cases hbool : isBool ty with
  | false => exact iff_of_true (converted_int h hbool v).symm fun hb => absurd hb Bool.false_ne_true
  | true =>
      rw [converted_bool hbool, bitsOf_bool hbool]
      constructor
      · intro heq _
        split at heq
        · next hv => exact .inl hv
        · exact .inr heq
      · intro himp
        rcases himp rfl with hv | hv
        · rw [hv]
          rfl
        · rw [hv, if_neg]
          rintro rfl
          cases hv

/-- A narrow value that was reduced in the register. -/
theorem carries_reduced_iff (h : isInteger ty = true) (hsize : ty.size < 4) (hi32 : i32.wrap w'.toInt = (bitsOf ty).wrap v) :
    Carries ty (converted ty v) w' ↔ (isBool ty = true → v = 0 ∨ v % 256 = 1) := by
  have hbits : (bitsOf ty).bits ≤ i32.bits := by
    rw [bitsOf_bits h]
    show _ ≤ 32
    omega
  have hlow : (bitsOf ty).wrap w'.toInt = (bitsOf ty).wrap v := by
    rw [← wrap_wrap_of_le hbits, hi32, IntTy.wrap_wrap]
  rw [carries_narrow h hsize, hi32, hlow, and_self, wrap_eq_converted_iff h]

/-- And one that was not. -/
theorem carries_kept_iff (h : isInteger ty = true) (hsize : ty.size < 4) (hi32 : i32.wrap w'.toInt = i32.wrap v) :
    Carries ty (converted ty v) w' ↔
      if isBool ty then v = 0 ∨ i32.wrap v = 1 else (bitsOf ty).InRange (i32.wrap v) := by
  have hbits : (bitsOf ty).bits ≤ i32.bits := by
    rw [bitsOf_bits h]
    show _ ≤ 32
    omega
  have hlow : (bitsOf ty).wrap w'.toInt = (bitsOf ty).wrap (i32.wrap v) := by rw [← hi32, wrap_wrap_of_le hbits]
  rw [carries_narrow h hsize, hi32, hlow]
  cases hbool : isBool ty with
  | false =>
      rw [if_neg Bool.false_ne_true, converted_int h hbool, wrap_wrap_of_le hbits, and_iff_left rfl, ← IntTy.wrap_eq_self_iff,
        wrap_wrap_of_le hbits]
      exact eq_comm
  | true =>
      rw [if_pos rfl, converted_bool hbool, bitsOf_bool hbool]
      constructor
      · rintro ⟨heq, _⟩
        split at heq
        · next hv => exact .inl hv
        · exact .inr heq
      · rintro (rfl | hone)
        · exact ⟨rfl, rfl⟩
        · rw [hone, if_neg]
          · exact ⟨rfl, rfl⟩
          · rintro rfl
            cases hone

theorem uint_iff : isUint ty = true ↔ isInteger ty = true ∧ ty.isUnsigned = true ∧ ty.size = 4 := by
  rw [isUint, Bool.and_eq_true, Bool.and_eq_true, decide_eq_true_eq, and_assoc]

theorem clear_iff (w : BitVec 64) : u32.wrap w.toInt = w.toInt ↔ w.toNat < 2 ^ 32 := by
  rw [IntTy.wrap_eq_self_iff]
  show 0 ≤ w.toInt ∧ w.toInt < (2 ^ 32 : Nat) ↔ _
  rw [BitVec.toInt_eq_toNat_cond]
  have hlt := w.isLt
  split <;> omega

/-- A value of four bytes or more, of which no bit is wrong. -/
theorem carries_wide_iff (h : isInteger ty = true) (hwide : ¬ ty.size < 4) (hvalue : (bitsOf ty).wrap w'.toInt = (bitsOf ty).wrap v) :
    Carries ty (converted ty v) w' ↔ (isUint ty = true → w'.toNat < 2 ^ 32) := by
  have hconverted := converted_int h (not_bool_of_size (by omega)) v
  by_cases huint : isUint ty = true
  · obtain ⟨_, hu, hsize⟩ := uint_iff.mp huint
    have hbits : bitsOf ty = u32 := by
      refine intTy_eq ?_ ?_
      · rw [bitsOf_bits h, hsize]
        rfl
      · rw [bitsOf_signed h, hu]
        rfl
    rw [carries_uint hsize hu, hconverted, ← hvalue, and_iff_right rfl, hbits, eq_comm, clear_iff]
    exact ⟨fun hc _ => hc, fun hc => hc huint⟩
  · have hu : ty.size = 4 → ty.isUnsigned = false := by
      intro hsize
      exact eq_false_of_ne_true fun hu => huint (uint_iff.mpr ⟨h, hu, hsize⟩)
    rw [carries_wide h hwide hu, hconverted]
    exact iff_of_true hvalue fun hc => absurd hc huint

theorem cast_carries_iff (hsrc : isInteger src = true) (hto : isInteger to_ = true) (hv : Carries src v w)
    (hw : w'.toInt = castInt src to_ w.toInt) : Carries to_ (converted to_ v) w' ↔
      (isBool to_ = true → v = 0 ∨ v % 256 = 1) ∧ (isUint to_ = true → src.size ≤ 4 → w.toNat < 2 ^ 32) := by
  have hbits := bitsOf_bits hto
  have hsrcs := size_cases hsrc
  have htos := size_cases hto
  rw [castInt] at hw
  by_cases hnarrow : to_.size < 4
  · have huint : isUint to_ ≠ true := fun hu => absurd (uint_iff.mp hu).2.2 (by omega)
    have hlt : (bitsOf to_).bits < 32 := by omega
    rw [if_pos hnarrow] at hw
    rw [carries_reduced_iff hto hnarrow, iff_comm, and_iff_left fun hu => absurd hu huint]
    rw [hw, wrap_wrap_of_le (le_refl 32), wrap_signed_wrap rfl hlt, hv.low hsrc (Nat.le_of_lt hlt)]
  rw [if_neg hnarrow] at hw
  have hbool : isBool to_ ≠ true := fun hb => Bool.false_ne_true ((not_bool_of_size (by omega)).symm.trans hb)
  rw [iff_comm, and_iff_right fun hb => absurd hb hbool, iff_comm]
  by_cases h4 : to_.size = 4 ∧ src.size = 8
  · rw [if_pos h4] at hw
    have hvalue : (bitsOf to_).wrap w'.toInt = (bitsOf to_).wrap v := by
      rw [hw, wrap_wrap_of_le (show _ ≤ 32 by omega), hv.low hsrc (by omega)]
    rw [carries_wide_iff hto hnarrow hvalue]
    have hclear : w'.toNat < 2 ^ 32 := by
      rw [← clear_iff, hw, IntTy.wrap_wrap]
    exact iff_of_true (fun _ => hclear) fun _ hle => absurd hle (by omega)
  rw [if_neg h4] at hw
  by_cases h8 : to_.size = 8 ∧ src.size < 8
  · rw [if_pos h8, show (bitsOf src).wrap w.toInt = v from hv .low] at hw
    have huint : isUint to_ ≠ true := fun hu => absurd (uint_iff.mp hu).2.2 (by omega)
    rw [carries_wide_iff hto hnarrow (by rw [hw])]
    exact iff_of_true (fun hu => absurd hu huint) fun hu => absurd hu huint
  · rw [if_neg h8] at hw
    have hsame : w' = w := BitVec.eq_of_toInt_eq hw
    have hvalue : (bitsOf to_).wrap w'.toInt = (bitsOf to_).wrap v := by
      rw [hsame]
      by_cases hsize : src.size = 8
      · exact hv.full hsrc hsize (by omega)
      · exact hv.low hsrc (by omega)
    rw [carries_wide_iff hto hnarrow hvalue, hsame]
    constructor
    · exact fun h hu _ => h hu
    · intro h hu
      have hsize := (uint_iff.mp hu).2.2
      exact h hu (by omega)

/-! ## Assignments -/

/-- What is in the register behind the cast that the right operand may have. -/
def widenedInt (lhs rhs : Ty) (x : Int) : Int := if rhs.size < lhs.size then castInt rhs lhs x else x

/-- And behind the mask, which is for variables. -/
def assignedInt (lhs rhs : Ty) (direct : Bool) (x : Int) : Int :=
  if direct = true ∧ lhs.isUnsigned = true ∧ lhs.size < 4 then (bitsOf lhs).wrap (widenedInt lhs rhs x) else widenedInt lhs rhs x

theorem exec_maskLines (h : isInteger ty = true) (r : Reg) (m : Machine) : ∃ m', exec (maskLines ty r) m = some m' ∧
    Leaves m m' r (if ty.isUnsigned = true ∧ ty.size < 4 then (bitsOf ty).wrap (m.reg r).toInt else (m.reg r).toInt) := by
  rw [maskLines]
  by_cases hmask : ty.isUnsigned = true ∧ ty.size < 4
  · rw [if_pos hmask, if_pos hmask]
    refine ⟨_, exec_one rfl, ?_⟩
    have hbits := bitsOf_bits h
    have hcases := size_cases h
    have hpos : 0 < ty.size * 8 := by omega
    have hpow : 2 ^ (ty.size * 8) ≤ 2 ^ 32 := Nat.pow_le_pow_right (by decide) (by omega)
    have hone := Nat.one_le_two_pow (n := ty.size * 8)
    have hmasked : (m.get32 r &&& BitVec.ofNat 32 (2 ^ (ty.size * 8) - 1)).toNat = ((m.reg r).setWidth (ty.size * 8)).toNat := by
      rw [BitVec.toNat_and, BitVec.toNat_ofNat, Nat.mod_eq_of_lt (by omega), Nat.and_two_pow_sub_one_eq_mod, Machine.get32,
        BitVec.toNat_setWidth, BitVec.toNat_setWidth, Nat.mod_mod_of_dvd _ (Nat.pow_dvd_pow 2 (by omega))]
    have htype : (⟨ty.size * 8, false, hpos⟩ : IntTy) = bitsOf ty := by
      refine intTy_eq (show ty.size * 8 = _ by omega) ?_
      rw [bitsOf_signed h, hmask.1]
      rfl
    have hvalue : ((m.get32 r &&& BitVec.ofNat 32 (2 ^ (ty.size * 8) - 1)).setWidth 64).toInt = (bitsOf ty).wrap (m.reg r).toInt := by
      rw [toInt_clear, hmasked, wrap_toInt_unsigned hpos (by omega), htype]
    rw [← hvalue]
    exact leaves_set m r _ none
  · rw [if_neg hmask, if_neg hmask]
    exact ⟨m, rfl, rfl, fun _ _ => rfl, rfl⟩

theorem assign_carries_iff {lhs rhs : Node Ty} (hl : isInteger lhs.ty = true) (hr : isInteger rhs.ty = true)
    (hv : Carries rhs.ty v w) (hw : w'.toInt = assignedInt lhs.ty rhs.ty (directOffset lhs).isSome w.toInt) :
    Carries lhs.ty (converted lhs.ty v) w' ↔ (Conversion.assign lhs rhs).Suits v w := by
  have hbits := bitsOf_bits hl
  have hls := size_cases hl
  have hrs := size_cases hr
  rw [assignedInt, widenedInt] at hw
  rw [Conversion.Suits]
  by_cases hwiden : rhs.ty.size < lhs.ty.size
  · rw [if_neg (show ¬(lhs.ty.size < 4 ∧ ¬rhs.ty.size < lhs.ty.size) from fun h => h.2 hwiden)]
    rw [if_pos hwiden] at hw
    have hbool : isBool lhs.ty ≠ true := fun hb => Bool.false_ne_true ((not_bool_of_size (by omega)).symm.trans hb)
    by_cases hmask : (directOffset lhs).isSome = true ∧ lhs.ty.isUnsigned = true ∧ lhs.ty.size < 4
    · have huint : isUint lhs.ty ≠ true := fun hu => absurd (uint_iff.mp hu).2.2 (by omega)
      have hlt : (bitsOf lhs.ty).bits < 32 := by omega
      rw [if_pos hmask, castInt, if_pos hmask.2.2, wrap_wrap_of_le (show _ ≤ 32 by omega), IntTy.wrap_wrap] at hw
      rw [carries_reduced_iff hl hmask.2.2 (by rw [hw, wrap_signed_wrap rfl hlt, hv.low hr (Nat.le_of_lt hlt)])]
      exact iff_of_true (fun hb => absurd hb hbool) fun hu => absurd hu huint
    · rw [if_neg hmask] at hw
      rw [cast_carries_iff hr hl hv hw, and_iff_right fun hb => absurd hb hbool]
      exact forall_congr' fun _ => ⟨fun h => h (by omega), fun h _ => h⟩
  · rw [if_neg hwiden] at hw
    by_cases hnarrow : lhs.ty.size < 4
    · rw [if_pos ⟨hnarrow, hwiden⟩]
      by_cases hmask : (directOffset lhs).isSome = true ∧ lhs.ty.isUnsigned = true
      · rw [if_pos ⟨hmask.1, hmask.2, hnarrow⟩] at hw
        rw [if_pos hmask]
        refine carries_reduced_iff hl hnarrow ?_
        rw [hw, wrap_signed_wrap rfl (show _ < 32 by omega), hv.low hr (by omega)]
      · rw [if_neg fun h => hmask ⟨h.1, h.2.1⟩] at hw
        rw [if_neg hmask]
        refine carries_kept_iff hl hnarrow ?_
        rw [hw, hv.low hr (le_refl 32)]
    · rw [if_neg fun h => hnarrow h.2.2] at hw
      rw [if_neg fun h => hnarrow h.1]
      have hsame : w' = w := BitVec.eq_of_toInt_eq hw
      have hvalue : (bitsOf lhs.ty).wrap w'.toInt = (bitsOf lhs.ty).wrap v := by
        rw [hsame]
        by_cases hsize : rhs.ty.size = 8
        · exact hv.full hr hsize (by omega)
        · exact hv.low hr (by omega)
      rw [carries_wide_iff hl hnarrow hvalue, hsame]

/-! ## The code -/

variable {other genAddr : Node Ty → Gen Reg} {lhs rhs : Node Ty} {s s₁ : GenState} {r : Reg} {code : List Line}

/-- What is printed for the cast of a right operand. -/
def widenLines (lhs rhs : Ty) (r : Reg) : List Line := if rhs.size < lhs.size then castLines rhs lhs r else []

theorem exec_widenLines (hl : isInteger lhs.ty = true) (hr : isInteger rhs.ty = true) (r : Reg) (m : Machine) :
    ∃ m', exec (widenLines lhs.ty rhs.ty r) m = some m' ∧ Leaves m m' r (widenedInt lhs.ty rhs.ty (m.reg r).toInt) := by
  rw [widenLines, widenedInt]
  split
  · exact exec_castLines hr hl r m
  · exact ⟨m, rfl, rfl, fun _ _ => rfl, rfl⟩

theorem gen_cast (hsrc : isInteger lhs.ty = true) (hto : isInteger to_ = true)
    (h : gen other genAddr lhs s = some (r, code, s₁)) :
    gen other genAddr (.cast lhs to_) s = some (r, code ++ castLines lhs.ty to_ r, s₁) := by
  have hgen : gen other genAddr (.cast lhs to_) = genCast (gen other genAddr lhs) lhs.ty to_ := by
    rw [gen, hsrc, hto]
    rfl
  rw [hgen, ← List.append_nil (castLines lhs.ty to_ r)]
  exact Gen.bind_eq_some.mpr ⟨r, code, s₁, _, h, rfl, rfl⟩

theorem not_flonum (h : isInteger ty = true) : isFlonum ty = false := by
  cases ty with
  | bool q => rfl
  | integer k u q => rfl
  | _ => cases h

/-- The right operand as `check_type` leaves it. -/
def widenedRhs (lhs rhs : Node Ty) : Node Ty := if rhs.ty.size < lhs.ty.size then .cast rhs lhs.ty else rhs

theorem typeAssign_int (hl : isInteger lhs.ty = true) (hr : isInteger rhs.ty = true) :
    typeAssign lhs rhs = .bin .assign lhs (widenedRhs lhs rhs) lhs.ty := by
  rw [typeAssign, widenedRhs, not_flonum hl, not_flonum hr, hl, hr]
  by_cases hsize : rhs.ty.size < lhs.ty.size
  · rw [if_pos hsize]
    simp only [decide_eq_true (show lhs.ty.size > rhs.ty.size from hsize)]
    rfl
  · rw [if_neg hsize]
    simp only [decide_eq_false (show ¬ lhs.ty.size > rhs.ty.size from hsize)]
    rfl

theorem gen_widenedRhs (hl : isInteger lhs.ty = true) (hr : isInteger rhs.ty = true)
    (h : gen other genAddr rhs s = some (r, code, s₁)) :
    gen other genAddr (widenedRhs lhs rhs) s = some (r, code ++ widenLines lhs.ty rhs.ty r, s₁) := by
  rw [widenedRhs, widenLines]
  split
  · exact gen_cast hr hl h
  · rw [List.append_nil]
    exact h

theorem gen_assign (hl : isInteger lhs.ty = true) (hr : isInteger rhs.ty = true) (hfield : isBitField lhs = false) :
    gen other genAddr (typeAssign lhs rhs) = genAssign genAddr lhs (gen other genAddr (widenedRhs lhs rhs)) := by
  have hty : isInteger (widenedRhs lhs rhs).ty = true := by
    rw [widenedRhs]
    split
    · exact hl
    · exact hr
  rw [typeAssign_int hl hr, gen, hl, hty, hfield]
  rfl

theorem exec_storeLocal (size : Nat) (r : Reg) (off : Nat) (m : Machine) :
    ∃ m', exec [storeLocal size r off] m = some m' ∧ m'.reg = m.reg := by
  rw [storeLocal]
  split
  · exact ⟨_, exec_one rfl, rfl⟩
  split
  · exact ⟨_, exec_one rfl, rfl⟩
  split
  · exact ⟨_, exec_one rfl, rfl⟩
  · exact ⟨_, exec_one rfl, rfl⟩

/-- To give back the register of the address changes no other. -/
theorem freeReg_others (r₁ : Reg) (s : GenState) : ∃ back, freeReg r₁ s = some ((), back, s.drop r₁) ∧
    ∀ m, ∃ m', exec back m = some m' ∧ ∀ q, q ≠ r₁ → m'.reg q = m.reg q := by
  by_cases hspilled : r₁ ∈ s.spilled
  · refine ⟨_, freeReg_spilled hspilled, fun m => ⟨_, exec_one rfl, fun q hq => m.set_reg_of_ne _ hq⟩⟩
  · exact ⟨[], freeReg_unspilled hspilled, fun m => ⟨m, rfl, fun _ _ => rfl⟩⟩

/-- The operands are generated, and then a conversion that is as good as the tail behind them: in every
machine in which the register holds the value of the operand, and the address is in another one. -/
def ConvertedBy (other genAddr : Node Ty → Gen Reg) (c : Conversion) (s : GenState) (addr : Option Reg) (r : Reg)
    (before : List Line) : Prop :=
  ∃ tail s', gen other genAddr c.node s = some (r, before ++ tail, s') ∧
    ∀ m v, addr ≠ some r → Carries c.operand.ty v (m.reg r) →
      ∃ m', exec tail m = some m' ∧ (Carries c.target (converted c.target v) (m'.reg r) ↔ c.Suits v (m.reg r))

theorem convertedBy_cast (hsrc : isInteger lhs.ty = true) (hto : isInteger to_ = true)
    (h : gen other genAddr lhs s = some (r, code, s₁)) : ConvertedBy other genAddr (.cast lhs to_) s none r code := by
  refine ⟨castLines lhs.ty to_ r, s₁, gen_cast hsrc hto h, fun m v _ hv => ?_⟩
  obtain ⟨m', hrun, hleaves⟩ := exec_castLines hsrc hto r m
  exact ⟨m', hrun, cast_carries_iff hsrc hto hv hleaves.value⟩

theorem convertedBy_direct (hl : isInteger lhs.ty = true) (hr : isInteger rhs.ty = true) (hfield : isBitField lhs = false)
    {off : Nat} (hoff : directOffset lhs = some off) (h : gen other genAddr rhs s = some (r, code, s₁)) :
    ConvertedBy other genAddr (.assign lhs rhs) s none r code := by
  refine ⟨widenLines lhs.ty rhs.ty r ++ ([storeLocal lhs.ty.size r off] ++ maskLines lhs.ty r), s₁, ?_, fun m v _ hv => ?_⟩
  · rw [Conversion.node, gen_assign hl hr hfield, genAssign, hoff, ← List.append_assoc, ← List.append_nil (maskLines lhs.ty r)]
    exact Gen.bind_eq_some.mpr ⟨r, _, s₁, _, gen_widenedRhs hl hr h, rfl, rfl⟩
  · obtain ⟨m₁, hwiden, hleaves⟩ := exec_widenLines hl hr r m
    obtain ⟨m₂, hstore, hreg⟩ := exec_storeLocal lhs.ty.size r off m₁
    obtain ⟨m₃, hmask, hmasked⟩ := exec_maskLines hl r m₂
    refine ⟨m₃, exec_append_of_some hwiden (exec_append_of_some hstore hmask), assign_carries_iff hl hr hv ?_⟩
    rw [hmasked.value, hreg, hleaves.value, assignedInt, hoff]
    by_cases hcond : lhs.ty.isUnsigned = true ∧ lhs.ty.size < 4
    · rw [if_pos hcond, if_pos ⟨rfl, hcond⟩]
    · rw [if_neg hcond, if_neg fun h => hcond h.2]

theorem convertedBy_address (hl : isInteger lhs.ty = true) (hr : isInteger rhs.ty = true) (hfield : isBitField lhs = false)
    (hoff : directOffset lhs = none) {r₁ : Reg} {codeAddr : List Line} {s₂ : GenState}
    (haddr : genAddr lhs s = some (r₁, codeAddr, s₁)) (h : gen other genAddr rhs s₁ = some (r, code, s₂)) :
    ConvertedBy other genAddr (.assign lhs rhs) s (some r₁) r (codeAddr ++ code) := by
  obtain ⟨back, hfree, hback⟩ := freeReg_others r₁ s₂
  refine ⟨widenLines lhs.ty rhs.ty r ++ ([.op (.put lhs.ty.size r r₁)] ++ back), s₂.drop r₁, ?_, fun m v hne hv => ?_⟩
  · rw [Conversion.node, gen_assign hl hr hfield, genAssign, hoff, List.append_assoc, ← List.append_nil back, ← List.append_assoc code]
    exact Gen.bind_eq_some.mpr ⟨r₁, codeAddr, s₁, _, haddr,
      Gen.bind_eq_some.mpr ⟨r, _, s₂, _, gen_widenedRhs hl hr h,
        Gen.bind_eq_some.mpr ⟨(), _, s₂, _, rfl, Gen.bind_eq_some.mpr ⟨(), back, _, _, hfree, rfl, rfl⟩, rfl⟩, rfl⟩, rfl⟩
  · obtain ⟨m₁, hwiden, hleaves⟩ := exec_widenLines hl hr r m
    obtain ⟨m₂, hput, hreg⟩ : ∃ m₂, exec [.op (.put lhs.ty.size r r₁)] m₁ = some m₂ ∧ m₂.reg = m₁.reg := ⟨_, exec_one rfl, rfl⟩
    obtain ⟨m₃, hrun, hothers⟩ := hback m₂
    refine ⟨m₃, exec_append_of_some hwiden (exec_append_of_some hput hrun), assign_carries_iff hl hr hv ?_⟩
    have hr₁ : r ≠ r₁ := fun heq => hne (congrArg some heq.symm)
    rw [hothers r hr₁, hreg, hleaves.value, assignedInt, hoff]
    rfl

def noAddr : Node Ty → Gen Reg := fun _ => Gen.error

/-- `(short)70000` -/
def castShort : Conversion := .cast (.num 70000 tyInt) tyShort

/-- `c = 200`, where `c` is a `char` -/
def assignChar : Conversion :=
  .assign (.lvar { id := 0, name := "c", offset := 84, ty := tyChar, isLocal := true }) (.num 200 tyInt)

end Rcc.Convert

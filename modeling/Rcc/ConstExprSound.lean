import Rcc.CheckType
import Rcc.ConstValue
import Rcc.WordOps

/-!
# Constant expressions: where the evaluator is right

`RightAt` is the promise at one node, `ConstExactAt` the condition on the
values of its operands. `Reached` carries either over the subexpressions the
value comes from: the right operand of `&&` only when the left one is not 0,
one arm of `?:`, the operand of a comma but not what it discards. The
induction is over the tree with the mode a node is read in.
-/

namespace Rcc

open FixedWidth

/-! ## The two properties of a node -/

section Nodes

variable (rnd : FloKind → Rat → Rat)

/-- The condition on the operands of an arithmetic or shift operator. -/
def arithExactVal (kind : BinKind) (ty lty rty : Ty) (a b : Val) : Prop :=
  if isInteger lty && isInteger rty then
    match ty.intTy?, a, b with
    | some τ, .int x, .int y => intExact τ kind x y
    | _, _, _ => True
  else
    match ty with
    | .flonum k _ => floExact rnd k kind a b
    | _ => True

/-- The condition on the operands of a binary operator. -/
def binExactVal (kind : BinKind) (ty lty rty : Ty) (a b : Val) : Prop :=
  match kind with
  | .logand | .logor | .comma | .assign => True
  | .eq | .ne | .lt | .le => compareExact rnd kind lty rty a b
  | .add | .sub =>
      match lty.base?, rty.base? with
      | some _, none => True
      | some base, some _ => a = b ∨ base.size = 1
      | none, _ => arithExactVal rnd kind ty lty rty a b
  | _ => arithExactVal rnd kind ty lty rty a b

/-- The condition on the operand of a unary operator at `ty`. -/
def unExactVal (kind : UnKind) (ty : Ty) (a : Val) : Prop :=
  match kind, ty.intTy?, a with
  | .neg, some τ, .int z => τ.bits = 64 ∨ τ.InRange (i64.wrap (-z))
  | .neg, none, .flo q => q ≠ -(2 ^ 63)
  | .bitnot, some τ, .int z => τ.bits = 64 ∨ τ.InRange (i64.wrap (-z - 1))
  | _, _, _ => True

/-- The condition at a node, on the values of its operands. -/
def nodeExact : Node Ty → Prop
  | .num val ty => ConvExact rnd ty (.int val.toInt)
  | .bin kind lhs rhs ty => ∀ a b, cval rnd lhs .value = some a →
      cval rnd rhs (rhsMode kind lhs.ty rhs.ty) = some b →
        binExactVal rnd kind ty lhs.ty rhs.ty a b
  | .un kind lhs ty => ∀ a, cval rnd lhs .value = some a → unExactVal kind ty a
  | .cast lhs ty => ∀ a, cval rnd lhs .value = some a → ConvExact rnd ty a
  | .cond c then_ els ty => ∀ t x, cval rnd c .value = some t →
      (if t.truthy then cval rnd then_ .value else cval rnd els .value) = some x →
        ConvExact rnd ty x
  | _ => True

/-- The evaluator is right about `n`: what it stores is the value. -/
def RightAt (n : Node Ty) : Prop :=
  ∀ v x, evalConstExpr n = .done v → cval rnd n .value = some x → Holds v x

/-- The condition at `n`, where the evaluator succeeds and there is a value. -/
def ConstExactAt (n : Node Ty) : Prop :=
  ∀ v x, evalConstExpr n = .done v → cval rnd n .value = some x → nodeExact rnd n

/-- `P` holds of `n` and of every subexpression its value comes from. -/
def Reached (P : Node Ty → Prop) : Node Ty → Mode → Prop
  | .num val ty, .value => P (.num val ty)
  | .bin kind lhs rhs ty, .value =>
      P (.bin kind lhs rhs ty) ∧ (kind ≠ .comma → Reached P lhs .value) ∧
        ((kind = .logand → ∀ x, cval rnd lhs .value = some x → x.truthy = true) →
          (kind = .logor → ∀ x, cval rnd lhs .value = some x → x.truthy = false) →
          Reached P rhs (rhsMode kind lhs.ty rhs.ty))
  | .bin .mul lhs (.num _ _) _, .scaled => Reached P lhs .value
  | .un .sizeof lhs ty, .value => P (.un .sizeof lhs ty)
  | .un .addr lhs ty, .value => P (.un .addr lhs ty) ∧ Reached P lhs .address
  | .un kind lhs ty, .value => P (.un kind lhs ty) ∧ Reached P lhs .value
  | .un .deref lhs _, .address => Reached P lhs .value
  | .member lhs _ _, .address => Reached P lhs .address
  | .cast lhs ty, .value => P (.cast lhs ty) ∧ Reached P lhs .value
  | .cast lhs _, .scaled => Reached P lhs .scaled
  | .cond c then_ els ty, .value =>
      P (.cond c then_ els ty) ∧ Reached P c .value ∧
        ∀ x, cval rnd c .value = some x →
          if x.truthy then Reached P then_ .value else Reached P els .value
  | _, _ => True

/-! ## Values have at most 64 bits -/

variable {rnd}

theorem word_offsetVal {kind : BinKind} {a b x : Val} (h : offsetVal kind a b = some x) :
    x.Word := by
  cases a <;> cases b <;> cases h
  exact word_wrap (by decide) _

theorem word_intBin {τ : IntTy} (hw : τ.bits ≤ 64) {kind : BinKind} {x y z : Int}
    (h : intBin τ kind x y = some z) : (Val.int z).Word := by
  obtain ⟨hlo, hhi⟩ := word_wrap hw x
  cases kind <;> simp only [intBin, Option.ite_none_right_eq_some, Option.some.injEq,
    reduceCtorEq] at h
  case shr =>
    rw [← h.2]
    have hp : (0 : Int) < 2 ^ y.toNat := by positivity
    constructor
    · rw [Int.le_ediv_iff_mul_le hp]
      nlinarith
    · rw [Int.ediv_lt_iff_lt_mul hp]
      nlinarith
  case div => exact h.2 ▸ word_of_inRange hw h.1.2
  case mod =>
    rw [← h.2]
    have habs : ((τ.wrap x).tmod (τ.wrap y)).natAbs ≤ (τ.wrap x).natAbs := by
      rw [Int.natAbs_tmod]
      exact Nat.mod_le _ _
    constructor
    · by_cases h0 : 0 ≤ τ.wrap x
      · have := Int.tmod_nonneg (τ.wrap y) h0
        omega
      · omega
    · omega
  case shl => exact h.2 ▸ word_wrap hw _
  all_goals exact h ▸ word_wrap hw _

theorem word_arithVal {kind : BinKind} {ty lty rty : Ty} {a b x : Val}
    (h : arithVal rnd kind ty lty rty a b = some x) : x.Word := by
  unfold arithVal at h
  split at h
  · split at h
    · next τ y z hτ =>
      obtain ⟨w, hw, rfl⟩ := Option.map_eq_some_iff.mp h
      exact word_intBin (Ty.intTy?_bits_le hτ) hw
    · cases h
  · split at h
    · obtain ⟨w, _, rfl⟩ := Option.map_eq_some_iff.mp h
      exact trivial
    · cases h

theorem word_compareVal {kind : BinKind} {lty rty : Ty} {a b x : Val}
    (h : compareVal rnd kind lty rty a b = some x) : x.Word := by
  obtain ⟨ty, _, h⟩ := Option.bind_eq_some_iff.mp h
  obtain ⟨a', _, h⟩ := Option.bind_eq_some_iff.mp h
  obtain ⟨b', _, h⟩ := Option.bind_eq_some_iff.mp h
  cases h
  exact word_ofBool _

theorem ptrDiff_inRange {size : Nat} {a b x : Val} (h : ptrDiff size a b = some x) :
    ∃ z, x = .int z ∧ i64.InRange z := by
  cases a <;> cases b <;> simp only [ptrDiff, reduceCtorEq, Option.ite_none_right_eq_some,
    Option.some.injEq] at h
  obtain ⟨⟨hs, hr, d, hd⟩, rfl⟩ := h
  have hs0 : (size : Int) ≠ 0 := by exact_mod_cast hs
  have hs1 : 1 ≤ (size : Int) := by omega
  refine ⟨_, rfl, ?_⟩
  rw [i64_inRange_iff, hd] at hr
  rw [i64_inRange_iff, hd, Int.mul_ediv_cancel_left _ hs0]
  constructor <;> nlinarith

theorem word_ptrDiff {size : Nat} {a b x : Val} (h : ptrDiff size a b = some x) : x.Word := by
  obtain ⟨z, rfl, hz⟩ := ptrDiff_inRange h
  exact word_of_inRange (by decide) hz

theorem word_unRule {kind : UnKind} {ty : Ty} {a x : Val} (h : unRule kind ty a = some x) :
    x.Word := by
  unfold unRule at h
  split at h
  · cases h
    exact word_ofBool _
  · next τ _ hτ =>
    cases h
    exact word_wrap (Ty.intTy?_bits_le hτ) _
  · cases h
    exact trivial
  · next τ _ hτ =>
    cases h
    exact word_wrap (Ty.intTy?_bits_le hτ) _
  · cases h

theorem word_sizeofRule {ty : Ty} {x : Val} (h : sizeofRule ty = some x) : x.Word := by
  unfold sizeofRule at h
  split at h
  · cases h
  · cases h
    exact word_wrap (by decide) _

/-- A binary operator other than comma. -/
theorem word_binRule {kind : BinKind} {ty lty rty : Ty} {a b : Option Val} {x : Val}
    (hc : kind ≠ .comma) (h : binRule rnd kind ty lty rty a b = some x) : x.Word := by
  have harith : ∀ kind, (do arithVal rnd kind ty lty rty (← a) (← b)) = some x → x.Word := by
    intro kind h
    obtain ⟨p, _, h⟩ := Option.bind_eq_some_iff.mp h
    obtain ⟨q, _, h⟩ := Option.bind_eq_some_iff.mp h
    exact word_arithVal h
  have hoffset : ∀ kind, (do offsetVal kind (← a) (← b)) = some x → x.Word := by
    intro kind h
    obtain ⟨p, _, h⟩ := Option.bind_eq_some_iff.mp h
    obtain ⟨q, _, h⟩ := Option.bind_eq_some_iff.mp h
    exact word_offsetVal h
  cases kind with
  | comma => exact absurd rfl hc
  | assign => cases h
  | logand | logor =>
      obtain ⟨p, _, h⟩ := Option.bind_eq_some_iff.mp h
      split at h
      all_goals first
        | (cases h; exact word_ofBool _)
        | (obtain ⟨q, _, h⟩ := Option.bind_eq_some_iff.mp h
           cases h
           exact word_ofBool _)
  | eq | ne | lt | le =>
      obtain ⟨p, _, h⟩ := Option.bind_eq_some_iff.mp h
      obtain ⟨q, _, h⟩ := Option.bind_eq_some_iff.mp h
      exact word_compareVal h
  | add | sub =>
      simp only [binRule] at h
      split at h
      · exact hoffset _ h
      · split at h
        · obtain ⟨p, _, h⟩ := Option.bind_eq_some_iff.mp h
          obtain ⟨q, _, h⟩ := Option.bind_eq_some_iff.mp h
          exact word_ptrDiff h
        · cases h
      · exact harith _ h
  | _ => exact harith _ h

theorem word_cval (n : Node Ty) :
    ∀ m x, m ≠ .scaled → cval rnd n m = some x → x.Word := by
  induction n with
  | num val ty =>
      intro m x hm h
      cases m <;> first
        | exact convert_word rnd h
        | cases h
  | bin kind lhs rhs ty ihl ihr =>
      intro m x hm h
      cases m with
      | value =>
          by_cases hc : kind = .comma
          · subst hc
            exact ihr .value x (by decide) h
          · exact word_binRule hc h
      | address => cases kind <;> cases h
      | scaled => exact absurd rfl hm
  | un kind lhs ty ih =>
      intro m x hm h
      cases m with
      | value =>
          cases kind with
          | sizeof =>
              cases lhs <;> first
                | exact word_sizeofRule h
                | cases h
          | addr => exact ih .address x (by decide) h
          | _ =>
              obtain ⟨a, _, h⟩ := Option.bind_eq_some_iff.mp h
              exact word_unRule h
      | address =>
          cases kind with
          | deref => exact ih .value x (by decide) h
          | sizeof => cases lhs <;> cases h
          | _ => cases h
      | scaled => exact absurd rfl hm
  | member lhs m' ty ih =>
      intro m x hm h
      cases m with
      | address =>
          obtain ⟨a, _, h⟩ := Option.bind_eq_some_iff.mp h
          exact word_offsetVal h
      | _ => cases h
  | cast lhs ty ih =>
      intro m x hm h
      cases m with
      | value =>
          obtain ⟨a, _, h⟩ := Option.bind_eq_some_iff.mp h
          exact convert_word rnd h
      | address => cases h
      | scaled => exact absurd rfl hm
  | cond c then_ els ty ihc iht ihe =>
      intro m x hm h
      cases m with
      | value =>
          obtain ⟨a, _, h⟩ := Option.bind_eq_some_iff.mp h
          obtain ⟨b, _, h⟩ := Option.bind_eq_some_iff.mp h
          exact convert_word rnd h
      | _ => cases h
  | _ =>
      intro m x hm h
      cases h

/-! ## Node by node -/

variable (rnd) in
/-- The word stands for what the node denotes in mode `m`. -/
def HoldsAt (n : Node Ty) (m : Mode) : Prop :=
  ∀ v x, evalConst n (m == .address) = .done v → cval rnd n m = some x → Holds v x

theorem rightAt_iff_of {n : Node Ty}
    (h : ∀ v x, evalConstExpr n = .done v → cval rnd n .value = some x →
      (Holds v x ↔ nodeExact rnd n)) : RightAt rnd n ↔ ConstExactAt rnd n := by
  constructor
  · intro hr v x hv hx
    exact (h v x hv hx).mp (hr v x hv hx)
  · intro hc v x hv hx
    exact (h v x hv hx).mpr (hc v x hv hx)

theorem evalConst_bin {kind : BinKind} (lhs rhs : Node Ty) (ty : Ty) (addr : Bool)
    (hc : kind ≠ .comma) (ha : kind ≠ .assign) :
    evalConst (.bin kind lhs rhs ty) addr =
      (evalConst lhs false).bind fun l => (evalConst rhs false).bind fun r => evalBin kind l r := by
  cases kind <;> first
    | rfl
    | exact absurd rfl hc
    | exact absurd rfl ha

theorem rhsMode_ne_address (kind : BinKind) (lty rty : Ty) :
    (rhsMode kind lty rty == .address) = false := by
  unfold rhsMode
  split <;> rfl

theorem holds_num (val : BitVec 64) : Holds val (.int val.toInt) := by
  rw [holds_int, pattern64_toInt]

theorem word_toInt (val : BitVec 64) : (Val.int val.toInt).Word := by
  have hr := i64_inRange_iff.mp (i64_wrap_toInt val ▸ i64.inRange_wrap val.toInt)
  constructor <;> omega

theorem rightAt_num (val : BitVec 64) (ty : Ty) :
    RightAt rnd (.num val ty) ↔ ConstExactAt rnd (.num val ty) := by
  refine rightAt_iff_of fun v x hv hx => ?_
  cases hv
  exact holds_convert rnd (holds_num val) (word_toInt val) hx

theorem rightAt_cast {lhs : Node Ty} {ty : Ty} (h : HoldsAt rnd lhs .value) :
    RightAt rnd (.cast lhs ty) ↔ ConstExactAt rnd (.cast lhs ty) := by
  refine rightAt_iff_of fun v x hv hx => ?_
  obtain ⟨a, ha, hx⟩ := Option.bind_eq_some_iff.mp hx
  rw [holds_convert rnd (h v a hv ha) (word_cval lhs .value a (by decide) ha) hx]
  constructor
  · intro he a' ha'
    rw [ha] at ha'
    cases ha'
    exact he
  · intro he
    exact he a ha

theorem rightAt_cond {c then_ els : Node Ty} {ty : Ty} (hc : HoldsAt rnd c .value)
    (ht : ∀ x, cval rnd c .value = some x → x.truthy = true → HoldsAt rnd then_ .value)
    (he : ∀ x, cval rnd c .value = some x → x.truthy = false → HoldsAt rnd els .value) :
    RightAt rnd (.cond c then_ els ty) ↔ ConstExactAt rnd (.cond c then_ els ty) := by
  refine rightAt_iff_of fun v x hv hx => ?_
  obtain ⟨u, hu, hv⟩ := Outcome.bind_eq_done.mp hv
  obtain ⟨t, htv, hx⟩ := Option.bind_eq_some_iff.mp hx
  obtain ⟨a, ha, hx⟩ := Option.bind_eq_some_iff.mp hx
  rw [holds_truthy (hc u t hu htv) (word_cval c .value t (by decide) htv)] at hv
  have harm : Holds v a ∧ a.Word := by
    cases htt : t.truthy with
    | true =>
        rw [htt] at hv ha
        exact ⟨ht t htv htt v a hv ha, word_cval then_ .value a (by decide) ha⟩
    | false =>
        rw [htt] at hv ha
        exact ⟨he t htv htt v a hv ha, word_cval els .value a (by decide) ha⟩
  rw [holds_convert rnd harm.1 harm.2 hx]
  constructor
  · intro hex t' a' ht' ha'
    rw [htv] at ht'
    cases ht'
    rw [ha] at ha'
    cases ha'
    exact hex
  · intro hex
    exact hex t a htv ha

theorem evalSizeof_right {lhs : Node Ty} {ty : Ty} {v : BitVec 64} {x : Val}
    (hn : lhs ≠ .null) (hv : evalSizeof lhs ty = .done v) (hx : sizeofRule lhs.ty = some x) :
    Holds v x := by
  unfold evalSizeof at hv
  unfold sizeofRule at hx
  split at hx
  · cases hx
  · next hty =>
    cases hx
    split at hv
    · exact absurd rfl hn
    · exact absurd rfl hn
    · split at hv
      · next hvla => exact absurd hvla (hty _ _)
      · cases hv
        rw [holds_int, pattern64_wrap_of_full rfl, pattern64, BitVec.ofInt_natCast]

/-- Negating a word negates what it stands for, the least one apart. -/
theorem toInt_neg_iff (u : BitVec 64) :
    (((-u).toInt : Int) : Rat) = -(u.toInt : Rat) ↔ (u.toInt : Rat) ≠ -(2 ^ 63) := by
  have hu := i64_inRange_iff.mp (i64_wrap_toInt u ▸ i64.inRange_wrap u.toInt)
  have hn : (-u).toInt = i64.wrap (-u.toInt) := by
    rw [← toInt_pattern64, pattern64_neg, pattern64_toInt]
  have hcast : (u.toInt : Rat) = -(2 ^ 63) ↔ u.toInt = -(2 ^ 63) := by
    constructor
    · intro h
      exact_mod_cast h
    · intro h
      rw [h]
      norm_num
  rw [hn, ne_eq, hcast, ← Int.cast_neg, Int.cast_inj, IntTy.wrap_eq_self_iff, i64_inRange_iff]
  omega

/-- `-`, `!` and `~`. -/
theorem holds_unRule {kind : UnKind} {ty : Ty} {a x : Val} {u v : BitVec 64} (hu : Holds u a)
    (hw : a.Word)
    (hv : v = match kind with | .neg => -u | .not => boolWord (u == 0) | _ => ~~~u)
    (hx : unRule kind ty a = some x) : Holds v x ↔ unExactVal kind ty a := by
  subst hv
  have hreduce : ∀ {τ : IntTy} {r y : Int}, τ.bits ≤ 64 → pattern64 r = pattern64 y →
      (Holds (pattern64 r) (.int (τ.wrap y)) ↔ τ.bits = 64 ∨ τ.InRange (i64.wrap y)) := by
    intro τ r y hτ hr
    rw [hr, holds_int, ← BitVec.toInt_inj, toInt_pattern64, toInt_pattern64, eq_comm]
    exact i64_wrap_wrap_iff hτ _
  cases kind with
  | not =>
      have hn : (u == 0) = !a.truthy := by rw [← holds_truthy hu hw, bne, Bool.not_not]
      cases hx
      show Holds (boolWord (u == 0)) _ ↔ True
      rw [hn]
      exact iff_of_true (holds_boolWord _) trivial
  | neg =>
      cases hτ : ty.intTy? with
      | some τ =>
          cases a with
          | int z =>
              simp only [unRule, hτ, Option.some.injEq] at hx
              subst hx
              rw [holds_int] at hu
              subst hu
              simp only [unExactVal, hτ, ← pattern64_neg]
              exact hreduce (Ty.intTy?_bits_le hτ) rfl
          | flo q => simp [unRule, hτ] at hx
      | none =>
          cases a with
          | int z => simp [unRule, hτ] at hx
          | flo q =>
              simp only [unRule, hτ, Option.some.injEq] at hx
              subst hx
              simp only [unExactVal, hτ]
              rw [holds_flo] at hu
              rw [holds_flo, ← hu]
              exact toInt_neg_iff u
  | bitnot =>
      cases hτ : ty.intTy? with
      | some τ =>
          cases a with
          | int z =>
              simp only [unRule, hτ, Option.some.injEq] at hx
              subst hx
              rw [holds_int] at hu
              subst hu
              have hnot : ~~~pattern64 z = pattern64 (-z - 1) := by
                rw [pattern64_sub, pattern64_neg, BitVec.not_eq_neg_add]
                rfl
              simp only [unExactVal, hτ, hnot]
              exact hreduce (Ty.intTy?_bits_le hτ) rfl
          | flo q => simp [unRule, hτ] at hx
      | none => simp [unRule, hτ] at hx
  | _ => simp [unRule] at hx

theorem rightAt_un {kind : UnKind} {lhs : Node Ty} {ty : Ty} (hs : kind ≠ .sizeof)
    (ha : kind ≠ .addr) (h : HoldsAt rnd lhs .value) :
    RightAt rnd (.un kind lhs ty) ↔ ConstExactAt rnd (.un kind lhs ty) := by
  refine rightAt_iff_of fun v x hv hx => ?_
  have hx' : (cval rnd lhs .value).bind (unRule kind ty) = some x := by
    cases kind <;> first
      | exact hx
      | exact absurd rfl hs
      | exact absurd rfl ha
  obtain ⟨a, hav, hx'⟩ := Option.bind_eq_some_iff.mp hx'
  have hnode : nodeExact rnd (.un kind lhs ty) ↔ unExactVal kind ty a := by
    constructor
    · intro he
      exact he a hav
    · intro he a' ha'
      rw [hav] at ha'
      cases ha'
      exact he
  rw [hnode]
  have hw := word_cval lhs .value a (by decide) hav
  cases kind with
  | neg | not | bitnot =>
      obtain ⟨u, hu, hv⟩ := Outcome.bind_eq_done.mp hv
      cases hv
      exact holds_unRule (h u a hu hav) hw rfl hx'
  | sizeof => exact absurd rfl hs
  | addr => exact absurd rfl ha
  | deref | postInc | postDec => cases hv

/-- Arithmetic and shifts. -/
theorem holds_arithVal {kind : BinKind} {ty lty rty : Ty} {a b x : Val} {u w v : BitVec 64}
    (ha : Holds u a) (hb : Holds w b) (hv : evalBin kind u w = .done v)
    (hx : arithVal rnd kind ty lty rty a b = some x) :
    Holds v x ↔ arithExactVal rnd kind ty lty rty a b := by
  unfold arithVal at hx
  unfold arithExactVal
  split at hx
  · next hint =>
    rw [if_pos hint]
    split at hx
    · next τ y z hτ =>
      obtain ⟨r, hr, rfl⟩ := Option.map_eq_some_iff.mp hx
      rw [holds_int] at ha hb
      subst ha hb
      simpa only [hτ] using holds_intBin (Ty.intTy?_bits_le hτ) hv hr
    · cases hx
  · next hint =>
    rw [if_neg hint]
    split at hx
    · next k q y z hy hz =>
      obtain ⟨r, hr, rfl⟩ := Option.map_eq_some_iff.mp hx
      exact holds_floBin rnd ha hb hy hz hv hr
    · cases hx

/-- Binary operators that evaluate both operands. -/
theorem holds_binRule {kind : BinKind} {ty lty rty : Ty} {a b x : Val} {u w v : BitVec 64}
    (hlog : kind ≠ .logand ∧ kind ≠ .logor ∧ kind ≠ .comma)
    (ha : Holds u a) (hb : Holds w b) (hv : evalBin kind u w = .done v)
    (hx : binRule rnd kind ty lty rty (some a) (some b) = some x) :
    Holds v x ↔ binExactVal rnd kind ty lty rty a b := by
  cases kind with
  | logand => exact absurd rfl hlog.1
  | logor => exact absurd rfl hlog.2.1
  | comma => exact absurd rfl hlog.2.2
  | assign => cases hx
  | eq | ne | lt | le => exact holds_compareVal rnd rfl ha hb hv hx
  | mul | div | mod | shl | shr | bitand | bitxor | bitor => exact holds_arithVal ha hb hv hx
  | add =>
      cases hl : lty.base? with
      | none =>
          simp only [binRule, binExactVal, hl] at hx ⊢
          exact holds_arithVal ha hb hv hx
      | some base =>
          cases hr : rty.base? with
          | none =>
              simp only [binRule, binExactVal, hl, hr] at hx ⊢
              exact iff_of_true (holds_offsetVal (.inl rfl) ha hb hv hx) trivial
          | some _ => simp [binRule, hl, hr] at hx
  | sub =>
      cases hl : lty.base? with
      | none =>
          simp only [binRule, binExactVal, hl] at hx ⊢
          exact holds_arithVal ha hb hv hx
      | some base =>
          cases hr : rty.base? with
          | none =>
              simp only [binRule, binExactVal, hl, hr] at hx ⊢
              exact iff_of_true (holds_offsetVal (.inr rfl) ha hb hv hx) trivial
          | some _ =>
              simp only [binRule, binExactVal, hl, hr] at hx ⊢
              exact holds_ptrDiff ha hb hv hx

/-- The logical operators: the right operand matters only where C evaluates
it. -/
theorem holds_logical {kind : BinKind} (hk : kind = .logand ∨ kind = .logor) {ty lty rty : Ty}
    {a x : Val} {b : Option Val} {u w v : BitVec 64} (ha : Holds u a) (hwa : a.Word)
    (hb : ∀ y, b = some y → a.truthy = (kind == .logand) → Holds w y ∧ y.Word)
    (hv : evalBin kind u w = .done v)
    (hx : binRule rnd kind ty lty rty (some a) b = some x) : Holds v x := by
  have hu := holds_truthy ha hwa
  rcases hk with rfl | rfl
  · cases hv
    rw [hu]
    cases ht : a.truthy with
    | true =>
        simp only [binRule, Option.pure_def, Option.bind_eq_bind, Option.bind_some, ht,
          if_true] at hx
        obtain ⟨y, hy, hx⟩ := Option.bind_eq_some_iff.mp hx
        cases hx
        obtain ⟨hwy, hyw⟩ := hb y hy ht
        rw [holds_truthy hwy hyw, Bool.true_and]
        exact holds_boolWord _
    | false =>
        simp only [binRule, Option.pure_def, Option.bind_eq_bind, Option.bind_some, ht,
          Bool.false_eq_true, if_false, Option.some.injEq] at hx
        rw [← hx, Bool.false_and]
        exact holds_boolWord _
  · cases hv
    rw [hu]
    cases ht : a.truthy with
    | true =>
        simp only [binRule, Option.pure_def, Option.bind_eq_bind, Option.bind_some, ht,
          if_true, Option.some.injEq] at hx
        rw [← hx, Bool.true_or]
        exact holds_boolWord _
    | false =>
        simp only [binRule, Option.pure_def, Option.bind_eq_bind, Option.bind_some, ht,
          Bool.false_eq_true, if_false] at hx
        obtain ⟨y, hy, hx⟩ := Option.bind_eq_some_iff.mp hx
        cases hx
        obtain ⟨hwy, hyw⟩ := hb y hy ht
        rw [holds_truthy hwy hyw, Bool.false_or]
        exact holds_boolWord _

theorem binRule_operands {kind : BinKind} {ty lty rty : Ty} {a b : Option Val} {x : Val}
    (hlog : kind ≠ .logand ∧ kind ≠ .logor ∧ kind ≠ .comma)
    (h : binRule rnd kind ty lty rty a b = some x) : ∃ p q, a = some p ∧ b = some q := by
  cases a with
  | none =>
      cases kind <;> simp [binRule] at h hlog
      all_goals (split at h <;> simp at h)
  | some p =>
      cases b with
      | none =>
          cases kind <;> simp [binRule] at h hlog
          all_goals (split at h <;> simp at h)
      | some q => exact ⟨p, q, rfl, rfl⟩

theorem rightAt_bin {kind : BinKind} {lhs rhs : Node Ty} {ty : Ty} (hc : kind ≠ .comma)
    (hl : HoldsAt rnd lhs .value)
    (hr : (kind = .logand → ∀ x, cval rnd lhs .value = some x → x.truthy = true) →
      (kind = .logor → ∀ x, cval rnd lhs .value = some x → x.truthy = false) →
      HoldsAt rnd rhs (rhsMode kind lhs.ty rhs.ty)) :
    RightAt rnd (.bin kind lhs rhs ty) ↔ ConstExactAt rnd (.bin kind lhs rhs ty) := by
  refine rightAt_iff_of fun v x hv hx => ?_
  by_cases has : kind = .assign
  · subst has
    cases hv
  rw [evalConstExpr, evalConst_bin lhs rhs ty false hc has] at hv
  obtain ⟨u, hu, hv⟩ := Outcome.bind_eq_done.mp hv
  obtain ⟨w, hw, hv⟩ := Outcome.bind_eq_done.mp hv
  have hx' : binRule rnd kind ty lhs.ty rhs.ty (cval rnd lhs .value)
      (cval rnd rhs (rhsMode kind lhs.ty rhs.ty)) = some x := hx
  have hrhs : HoldsAt rnd rhs (rhsMode kind lhs.ty rhs.ty) → ∀ y,
      cval rnd rhs (rhsMode kind lhs.ty rhs.ty) = some y → Holds w y := by
    intro h y hy
    refine h w y ?_ hy
    rwa [rhsMode_ne_address]
  by_cases hlog : kind = .logand ∨ kind = .logor
  · have hmode : rhsMode kind lhs.ty rhs.ty = .value := by
      rcases hlog with rfl | rfl <;> simp [rhsMode]
    obtain ⟨a, ha⟩ : ∃ a, cval rnd lhs .value = some a := by
      cases hcl : cval rnd lhs .value with
      | some a => exact ⟨a, rfl⟩
      | none =>
          rw [hcl] at hx'
          rcases hlog with rfl | rfl <;> cases hx'
    rw [ha] at hx'
    have hcond : ∀ t : Bool, a.truthy = t → ∀ x, cval rnd lhs .value = some x → x.truthy = t := by
      intro t ht x hx
      rw [ha] at hx
      cases hx
      exact ht
    refine iff_of_true (holds_logical hlog (hl u a hu ha) (word_cval lhs .value a (by decide) ha)
      ?_ hv hx') ?_
    · intro y hy ht
      refine ⟨hrhs (hr ?_ ?_) y hy, ?_⟩
      · rintro rfl
        exact hcond true ht
      · rintro rfl
        exact hcond false ht
      · rw [hmode] at hy
        exact word_cval rhs .value y (by decide) hy
    · intro a' b' _ _
      rcases hlog with rfl | rfl <;> exact trivial
  · have hne : kind ≠ .logand ∧ kind ≠ .logor := not_or.mp hlog
    obtain ⟨a, b, ha, hb⟩ := binRule_operands ⟨hne.1, hne.2, hc⟩ hx'
    rw [ha, hb] at hx'
    have hguard := hr (fun h => absurd h hne.1) (fun h => absurd h hne.2)
    rw [holds_binRule ⟨hne.1, hne.2, hc⟩ (hl u a hu ha) (hrhs hguard b hb) hv hx']
    constructor
    · intro he a' b' ha' hb'
      rw [ha] at ha'
      rw [hb] at hb'
      cases ha'
      cases hb'
      exact he
    · intro he
      exact he a b ha hb

/-! ## Whole expressions -/

/-- An address steps by the member's offset. -/
theorem holdsAt_member {lhs : Node Ty} {m : Member} {ty : Ty} (h : HoldsAt rnd lhs .address) :
    HoldsAt rnd (.member lhs m ty) .address := by
  intro v x hv hx
  obtain ⟨u, hu, hv⟩ := Outcome.bind_eq_done.mp hv
  obtain ⟨a, ha, hx⟩ := Option.bind_eq_some_iff.mp hx
  have hoff : Holds (BitVec.ofNat 64 m.offset) (.int m.offset) := by
    rw [holds_int, pattern64, BitVec.ofInt_natCast]
  exact holds_offsetVal (.inl rfl) (h u a hu ha) hoff hv hx

/-- The scaled index: its product is never reduced in 64 bits either. -/
theorem holdsAt_scaled {lhs : Node Ty} {size : BitVec 64} {sty ty : Ty}
    (h : HoldsAt rnd lhs .value) : HoldsAt rnd (.bin .mul lhs (.num size sty) ty) .scaled := by
  intro v x hv hx
  obtain ⟨u, hu, hv⟩ := Outcome.bind_eq_done.mp hv
  cases hv
  cases ha : cval rnd lhs .value with
  | none => simp [cval, ha] at hx
  | some a =>
      cases a with
      | flo q => simp [cval, ha] at hx
      | int n =>
          simp only [cval, ha, Option.some.injEq] at hx
          subst hx
          have hn := h u _ hu ha
          rw [holds_int] at hn ⊢
          rw [pattern64_mul, hn, pattern64_toInt]

theorem rightAt_sizeof (lhs : Node Ty) (ty : Ty) :
    RightAt rnd (.un .sizeof lhs ty) ↔ ConstExactAt rnd (.un .sizeof lhs ty) := by
  refine rightAt_iff_of fun v x hv hx => iff_of_true ?_ (fun _ _ => trivial)
  have hn : lhs ≠ .null := by
    rintro rfl
    cases hx
  have hx' : sizeofRule lhs.ty = some x := by
    cases lhs <;> first
      | exact hx
      | cases hx
  exact evalSizeof_right hn hv hx'

theorem rightAt_addr {lhs : Node Ty} {ty : Ty} (h : HoldsAt rnd lhs .address) :
    RightAt rnd (.un .addr lhs ty) ↔ ConstExactAt rnd (.un .addr lhs ty) :=
  rightAt_iff_of fun v x hv hx => iff_of_true (h v x hv hx) (fun _ _ => trivial)

theorem rightAt_comma {lhs rhs : Node Ty} {ty : Ty} (h : HoldsAt rnd rhs .value) :
    RightAt rnd (.bin .comma lhs rhs ty) ↔ ConstExactAt rnd (.bin .comma lhs rhs ty) :=
  rightAt_iff_of fun v x hv hx => iff_of_true (h v x hv hx) (fun _ _ _ _ => trivial)

/-- Two hereditary properties agree when they agree below and, given that, at
the root. -/
theorem and_iff_and_of {p q a b : Prop} (hs : a ↔ b) (h : a → (p ↔ q)) : p ∧ a ↔ q ∧ b :=
  (and_congr_left h).trans (and_congr_right' hs)

/-- The evaluator is right about a whole expression when it is right about
what is reached, and it is right about what is reached exactly where every
reached node meets its condition. -/
theorem reached_iff (n : Node Ty) : ∀ m,
    (Reached rnd (RightAt rnd) n m ↔ Reached rnd (ConstExactAt rnd) n m) ∧
      (Reached rnd (RightAt rnd) n m → HoldsAt rnd n m) := by
  have hnone : ∀ {n : Node Ty} {m : Mode}, cval rnd n m = none → HoldsAt rnd n m := by
    intro n m h v x _ hx
    rw [h] at hx
    cases hx
  induction n with
  | num val ty =>
      intro m
      cases m with
      | value => exact ⟨rightAt_num val ty, id⟩
      | _ => exact ⟨Iff.rfl, fun _ => hnone rfl⟩
  | bin kind lhs rhs ty ihl ihr =>
      intro m
      cases m with
      | value =>
          refine ⟨and_iff_and_of ?_ ?_, fun h => h.1⟩
          · exact and_congr (imp_congr_right fun _ => (ihl .value).1)
              (imp_congr_right fun _ => imp_congr_right fun _ => (ihr _).1)
          · rintro ⟨hl, hr⟩
            by_cases hc : kind = .comma
            · subst hc
              refine rightAt_comma ((ihr .value).2 (hr ?_ ?_)) <;> exact nofun
            · exact rightAt_bin hc ((ihl .value).2 (hl hc)) (fun h1 h2 => (ihr _).2 (hr h1 h2))
      | scaled =>
          cases kind <;> cases rhs <;> first
            | exact ⟨(ihl .value).1, fun h => holdsAt_scaled ((ihl .value).2 h)⟩
            | exact ⟨Iff.rfl, fun _ => hnone rfl⟩
      | address => exact ⟨by cases kind <;> exact Iff.rfl, fun _ => hnone (by cases kind <;> rfl)⟩
  | un kind lhs ty ih =>
      intro m
      cases m with
      | value =>
          cases kind with
          | sizeof => exact ⟨rightAt_sizeof lhs ty, id⟩
          | addr =>
              exact ⟨and_iff_and_of (ih .address).1 (fun h => rightAt_addr ((ih .address).2 h)),
                fun h => h.1⟩
          | _ =>
              refine ⟨and_iff_and_of (ih .value).1 (fun h => ?_), fun h => h.1⟩
              exact rightAt_un (by decide) (by decide) ((ih .value).2 h)
      | address =>
          cases kind with
          | deref => exact ⟨(ih .value).1, (ih .value).2⟩
          | sizeof => exact ⟨by cases lhs <;> exact Iff.rfl, fun _ => hnone (by cases lhs <;> rfl)⟩
          | _ => exact ⟨Iff.rfl, fun _ => hnone rfl⟩
      | scaled =>
          cases kind <;> cases lhs <;> exact ⟨Iff.rfl, fun _ => hnone rfl⟩
  | member lhs m' ty ih =>
      intro m
      cases m with
      | address => exact ⟨(ih .address).1, fun h => holdsAt_member ((ih .address).2 h)⟩
      | _ => exact ⟨Iff.rfl, fun _ => hnone rfl⟩
  | cast lhs ty ih =>
      intro m
      cases m with
      | value =>
          exact ⟨and_iff_and_of (ih .value).1 (fun h => rightAt_cast ((ih .value).2 h)),
            fun h => h.1⟩
      | scaled => exact ⟨(ih .scaled).1, (ih .scaled).2⟩
      | address => exact ⟨Iff.rfl, fun _ => hnone rfl⟩
  | cond c then_ els ty ihc iht ihe =>
      intro m
      cases m with
      | value =>
          refine ⟨and_iff_and_of (and_congr (ihc .value).1 ?_) ?_, fun h => h.1⟩
          · refine forall_congr' fun x => imp_congr_right fun _ => ?_
            split
            · exact (iht .value).1
            · exact (ihe .value).1
          · rintro ⟨hc, harm⟩
            refine rightAt_cond ((ihc .value).2 hc) (fun x hx ht => ?_) (fun x hx ht => ?_)
            · have h := harm x hx
              rw [if_pos ht] at h
              exact (iht .value).2 h
            · have h := harm x hx
              rw [ht, if_neg (by decide)] at h
              exact (ihe .value).2 h
      | _ => exact ⟨Iff.rfl, fun _ => hnone rfl⟩
  | _ => exact fun m => ⟨Iff.rfl, fun _ => hnone rfl⟩

end Nodes

/-- `eval_const_expr` stores the value of an expression and of everything that
value comes from exactly when each of those nodes meets its condition: the
64-bit result of an operator that only reduces, of a cast, of a constant and
of the chosen arm of `?:` fits the type of the node (or that type has 64
bits); division, remainder, right shift and comparison meet operands on which
the signed 64-bit operator agrees with the one at the type; floating results
are the integers the 64-bit operators give; and pointers are subtracted only
when equal or to bytes. The value of `n` itself is then right, whatever `&&`,
`||` and `?:` leave unevaluated. -/
theorem constExpr_right_iff (rnd : FloKind → Rat → Rat) (n : Node Ty) :
    (Reached rnd (RightAt rnd) n .value ↔ Reached rnd (ConstExactAt rnd) n .value) ∧
      (Reached rnd (ConstExactAt rnd) n .value → RightAt rnd n) :=
  ⟨(reached_iff n .value).1, fun h => (reached_iff n .value).2 ((reached_iff n .value).1.mpr h)⟩

/-- `(char)300` is 44, and 300 is what array sizes and case labels get. -/
theorem constExpr_cast_not_right :
    ¬ ∀ (rnd : FloKind → Rat → Rat) (e : Node Unit) (n : Node Ty), checkType e = some n →
      RightAt rnd n := by
  intro h
  have hcast := h (fun _ q => q) (.cast (.num 300 tyInt) tyChar) _ rfl 300 (.int 44) rfl rfl
  rw [holds_int] at hcast
  exact absurd hcast (by decide)

end Rcc

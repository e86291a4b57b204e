import Rcc.Spelling

/-!
# Integer constants

The value of an integer constant is that of its digits, as `strtoull` or a loop of
`tokenize` reads them. Its type is found later, in `new_num`, by the letters at its end,
its first character and its value, which has become a signed one by then.

C11 has a list of types for each kind of constant, of which the first one that can
represent the value is taken (6.4.4.1). A binary constant is taken for one that is not
decimal. Both the list and `new_num` depend on four things only: whether the constant is
decimal, whether there is a `u`, how many `l` there are, and the value.
-/

namespace Rcc.Parser

open Lexer

/-! ## Constants -/

def unsignedSuffixes : List Text := [['u'], ['U']]

def longSuffixes : List Text := [['l'], ['L'], ['l', 'l'], ['L', 'L']]

/-- The suffixes that there are. -/
def suffixes : List Text :=
  [] :: (unsignedSuffixes ++ longSuffixes ++
    unsignedSuffixes.flatMap fun u => longSuffixes.flatMap fun l => [u ++ l, l ++ u])

/-- The digits of a binary constant, behind `0b` or `0B`. -/
structure Binary where
  letter : Char
  digits : Text
  letter_mem : letter ∈ ['b', 'B']
  digits_ne : digits ≠ []
  digits_mem : ∀ d ∈ digits, d = '0' ∨ d = '1'
  fits : digitsValue 2 digits < 2 ^ 64

/-- An integer constant with a valid suffix, whose value fits in 64 bits. -/
inductive IntConstant where
  | plain (c : Constant) (valid : c.suffix ∈ suffixes)
  | binary (b : Binary) (suffix : Text) (valid : suffix ∈ suffixes)

namespace IntConstant

def text : IntConstant → Text
  | plain c _ => c.text
  | binary b suffix _ => '0' :: b.letter :: (b.digits ++ suffix)

def suffix : IntConstant → Text
  | plain c _ => c.suffix
  | binary _ suffix _ => suffix

def value : IntConstant → Nat
  | plain c _ => digitsValue c.base c.digits
  | binary b _ _ => digitsValue 2 b.digits

def isDecimal : IntConstant → Bool
  | plain c _ => c.base = 10
  | binary _ _ _ => false

end IntConstant

def isU (c : Char) : Bool := c = 'u' || c = 'U'

def isL (c : Char) : Bool := c = 'l' || c = 'L'

/-! ## C11 -/

/-- The types for a constant, by whether it is decimal, whether there is a `u` in its suffix and
how many `l`. -/
def typeList (decimal u : Bool) (l : Nat) : List Ty :=
  match u, l with
  | false, 0 => if decimal then [tyInt, tyLong, tyLlong] else [tyInt, tyUint, tyLong, tyUlong, tyLlong, tyUllong]
  | true, 0 => [tyUint, tyUlong, tyUllong]
  | false, 1 => if decimal then [tyLong, tyLlong] else [tyLong, tyUlong, tyLlong, tyUllong]
  | true, 1 => [tyUlong, tyUllong]
  | false, _ => if decimal then [tyLlong] else [tyLlong, tyUllong]
  | true, _ => [tyUllong]

/-- An integer type has the value. -/
def represents (v : Nat) (ty : Ty) : Bool := v < 2 ^ (if ty.isUnsigned then ty.size * 8 else ty.size * 8 - 1)

/-- The type of a constant, unless no type of the list has its value. -/
def IntConstant.c11Type (c : IntConstant) : Option Ty :=
  (typeList c.isDecimal (c.suffix.any isU) (c.suffix.countP isL)).find? (represents c.value)

/-! ## The node -/

/-- What `tokenize` makes of the beginning of a text, and `new_num` of the token. -/
def constantNode (uc : Unicode) (p : Text) : Option Built :=
  match lexeme uc p with
  | some (.token (.num val), rest) => some (newNum val (between p rest))
  | _ => none

/-- Before whatever is no part of it, the constant has its value, and its type if there is one. -/
def IntConstant.IsC11 (uc : Unicode) (c : IntConstant) : Prop :=
  ∀ r, (∀ d q, r = d :: q → isBreak d = true) →
    ∃ ty, constantNode uc (c.text ++ r) = some (.num (BitVec.ofNat 64 c.value) ty) ∧ ∀ ty', c.c11Type = some ty' → ty = ty'

/-- `numType` by what it depends on. -/
def typeBy (zero u : Bool) (l : Nat) (v : Nat) : Ty :=
  if 2 ≤ l then (if u then tyUllong else tyLlong)
  else if l = 1 then (if u then tyUlong else tyLong)
  else if u then (if v < 2 ^ 32 then tyUint else tyUllong)
  else if v < 2 ^ 31 ∨ 2 ^ 64 - 2 ^ 31 ≤ v then tyInt
  else if zero ∧ v < 2 ^ 32 then tyUint
  else tyLlong

theorem toInt_ofNat {v : Nat} (hv : v < 2 ^ 64) :
    (BitVec.ofNat 64 v).toInt = if v < 2 ^ 63 then (v : Int) else v - 2 ^ 64 := by
  rw [BitVec.toInt_eq_toNat_cond, BitVec.toNat_ofNat, Nat.mod_eq_of_lt hv]
  split
  · rw [if_pos (by omega)]
  · rw [if_neg (by omega)]
    rfl

theorem numType_eq {w s : Text} {v : Nat} (hw : w ≠ []) (hlast : ∀ d ∈ w.getLast?, isSuffix d = false)
    (hs : ∀ d ∈ s, isSuffix d = true) (hv : v < 2 ^ 64) : numType (BitVec.ofNat 64 v) (w ++ s) =
      typeBy (decide (w.head? = some '0' ∧ 1 < (w ++ s).length)) (s.any isU) (s.countP isL) v := by
  have hsuffix : (w ++ s).reverse.takeWhile isSuffix = s.reverse := by
    obtain ⟨init, last, rfl⟩ := (List.eq_nil_or_concat w).resolve_left hw
    rw [List.concat_eq_append] at hlast ⊢
    have hstop : isSuffix last = false := hlast last (by rw [List.getLast?_concat]; rfl)
    have hreverse : (init ++ [last] ++ s).reverse = s.reverse ++ last :: init.reverse := by
      rw [List.reverse_append, List.reverse_append]
      rfl
    rw [hreverse, List.takeWhile_append_of_pos (fun d hd => hs d (List.mem_reverse.mp hd)),
      List.takeWhile_cons_of_neg (Bool.eq_false_iff.mp hstop), List.append_nil]
  have htake : (w ++ s).reverse.takeWhile (fun c => c = 'u' || c = 'U' || c = 'l' || c = 'L') = s.reverse := hsuffix
  have hhead : (w ++ s).head? = w.head? := by
    obtain ⟨d, w, rfl⟩ := List.exists_cons_of_ne_nil hw
    rfl
  have hzero : (0 ≤ (BitVec.ofNat 64 v).toInt ∧ (BitVec.ofNat 64 v).toInt ≤ 4294967295) ↔ v < 2 ^ 32 := by
    rw [toInt_ofNat hv]
    split
    · omega
    · omega
  have hint : (-2147483648 ≤ (BitVec.ofNat 64 v).toInt ∧ (BitVec.ofNat 64 v).toInt ≤ 2147483647) ↔
      (v < 2 ^ 31 ∨ 2 ^ 64 - 2 ^ 31 ≤ v) := by
    rw [toInt_ofNat hv]
    split
    · omega
    · omega
  rw [numType, htake, hhead]
  simp only [List.any_reverse, List.countP_reverse, decide_eq_true_eq, typeBy, hint, hzero, and_assoc]
  rfl

/-! ## The list -/

theorem represents_eq (v : Nat) : represents v tyInt = decide (v < 2 ^ 31) ∧ represents v tyUint = decide (v < 2 ^ 32) ∧
    represents v tyLong = decide (v < 2 ^ 63) ∧ represents v tyUlong = decide (v < 2 ^ 64) ∧
    represents v tyLlong = decide (v < 2 ^ 63) ∧ represents v tyUllong = decide (v < 2 ^ 64) :=
  ⟨rfl, rfl, rfl, rfl, rfl, rfl⟩

/-- When `new_num` finds the type of the list. -/
def GoodBy (decimal u : Bool) (l : Nat) (v : Nat) : Prop :=
  v < 2 ^ 31 ∨ (v < 2 ^ 32 ∧ (decimal = false ∨ u = true ∨ 0 < l)) ∨ (0 < l ∧ (u = true ∨ v < 2 ^ 63)) ∨
    (decimal = true ∧ u = false ∧ 2 ^ 63 ≤ v)

theorem typeBy_iff {decimal u : Bool} {l v : Nat} (hl : l ≤ 2) (hv : v < 2 ^ 64) {zero : Bool}
    (hzero : 2 ^ 31 ≤ v → zero = ! decimal) :
    (∀ ty, (typeList decimal u l).find? (represents v) = some ty → typeBy zero u l v = ty) ↔ GoodBy decimal u l v := by
  obtain ⟨hint, huint, hlong, hulong, hllong, hullong⟩ := represents_eq v
  have hl : l = 0 ∨ l = 1 ∨ l = 2 := by omega
  have hrange : v < 2 ^ 31 ∨ (2 ^ 31 ≤ v ∧ v < 2 ^ 32) ∨ (2 ^ 32 ≤ v ∧ v < 2 ^ 63) ∨ 2 ^ 63 ≤ v := by omega
  have hne : tyLlong ≠ tyLong ∧ tyLlong ≠ tyUlong ∧ tyLlong ≠ tyUllong ∧ tyLong ≠ tyUlong ∧ tyUllong ≠ tyUlong ∧
    tyInt ≠ tyUlong := by decide
  rw [GoodBy]
  rcases hrange with h | h | h | h
  · have h31 : v < 2147483648 := h
    have h32 : v < 4294967296 := by omega
    have h63 : v < 9223372036854775808 := by omega
    have h64 : v < 18446744073709551616 := hv
    cases decimal <;> cases u <;> rcases hl with rfl | rfl | rfl <;>
      simp [typeList, hint, huint, hlong, hulong, hllong, hullong, typeBy, h31, h32, h63, h64]
  · have h31 : ¬ v < 2147483648 := by omega
    have h32 : v < 4294967296 := by omega
    have h63 : v < 9223372036854775808 := by omega
    have h64 : v < 18446744073709551616 := hv
    have hbig : ¬ 18446744071562067968 ≤ v := by omega
    rw [hzero h.1]
    cases decimal <;> cases u <;> rcases hl with rfl | rfl | rfl <;>
      simp [typeList, hint, huint, hlong, hulong, hllong, hullong, typeBy, h31, h32, h63, h64, hbig, hne]
  · have h31 : ¬ v < 2147483648 := by omega
    have h32 : ¬ v < 4294967296 := by omega
    have h63 : v < 9223372036854775808 := by omega
    have h64 : v < 18446744073709551616 := hv
    have hbig : ¬ 18446744071562067968 ≤ v := by omega
    cases decimal <;> cases u <;> rcases hl with rfl | rfl | rfl <;>
      simp [typeList, hint, huint, hlong, hulong, hllong, hullong, typeBy, h31, h32, h63, h64, hbig, hne]
  · have h31 : ¬ v < 2147483648 := by omega
    have h32 : ¬ v < 4294967296 := by omega
    have h63 : ¬ v < 9223372036854775808 := by omega
    have h64 : v < 18446744073709551616 := hv
    have h63' : 9223372036854775808 ≤ v := h
    have hulong' : ¬ (if 18446744071562067968 ≤ v then tyInt else tyLlong) = tyUlong := by
      split
      · exact hne.2.2.2.2.2
      · exact hne.2.1
    cases decimal <;> cases u <;> rcases hl with rfl | rfl | rfl <;>
      simp [typeList, hint, huint, hlong, hulong, hllong, hullong, typeBy, h31, h32, h63, h63', h64, hne, hulong']

/-! ## The text -/

variable {uc : Unicode}

theorem suffix_valid {s : Text} (h : s ∈ suffixes) : (∀ c ∈ s, isSuffix c = true) ∧ s.countP isL ≤ 2 := by
  have hall : ∀ s ∈ suffixes, (∀ c ∈ s, isSuffix c = true) ∧ s.countP isL ≤ 2 := by decide
  exact hall s h

theorem xdigit_no_suffix {c : Char} (h : isxdigit c = true) : isSuffix c = false := by
  refine eq_false_of_ne_true fun hc => ?_
  simp only [isSuffix, Bool.or_eq_true, decide_eq_true_eq] at hc
  rcases hc with ((rfl | rfl) | rfl) | rfl
  · cases h
  · cases h
  · cases h
  · cases h

theorem binary_digits (b : Binary) : ∀ d ∈ b.digits, isxdigit d = true ∧ isdigit d = true ∧
    (decide (d = '0') || decide (d = '1')) = true := by
  intro d hd
  rcases b.digits_mem d hd with rfl | rfl
  · decide
  · decide

/-- The digits and the suffix of a binary constant, and what is behind it. -/
theorem binary_split (b : Binary) {s r : Text} (hs : ∀ c ∈ s, isSuffix c = true) (hr : ∀ d q, r = d :: q → isBreak d = true) :
    (b.digits ++ s ++ r).dropWhile (fun c => c = '0' || c = '1') = s ++ r ∧
      (b.digits ++ s).takeWhile (fun c => c = '0' || c = '1') = b.digits := by
  have hstop : ∀ {q : Text}, Ends q → ∀ d q', q = d :: q' → (decide (d = '0') || decide (d = '1')) = false := by
    intro q hq d q' heq
    refine eq_false_of_ne_true fun hd => ?_
    have hno := (hq d q' heq).2.1
    simp only [Bool.or_eq_true, decide_eq_true_eq] at hd
    rcases hd with rfl | rfl
    · cases hno
    · cases hno
  have hends := ends_suffix hs (ends_break hr).1
  have hends' : Ends s := by
    have h := ends_suffix hs (r := []) fun x q hq => absurd hq.symm (List.cons_ne_nil x q)
    rwa [List.append_nil] at h
  rw [List.append_assoc]
  exact ⟨(dropWhile_stop (fun d hd => (binary_digits b d hd).2.2) (hstop hends)).1,
    (dropWhile_stop (fun d hd => (binary_digits b d hd).2.2) (hstop hends')).2⟩

theorem lexeme_binary (b : Binary) {s r : Text} (hs : ∀ c ∈ s, isSuffix c = true) (hr : ∀ d q, r = d :: q → isBreak d = true) :
    lexeme uc ('0' :: b.letter :: (b.digits ++ s) ++ r) =
      some (.token (.num (BitVec.ofNat 64 (digitsValue 2 b.digits))), r) := by
  obtain ⟨hdrop, htake⟩ := binary_split b hs hr
  have hletter : (b.letter = 'x' || b.letter = 'X') = false ∧ (b.letter = 'b' || b.letter = 'B') = true := by
    rcases List.mem_cons.mp b.letter_mem with h | h
    · rw [h]
      decide
    · rw [List.mem_singleton.mp h]
      decide
  have hfloat : headIs (fun c => c = 'f' || c = 'F') (s ++ r) = false :=
    (ends_suffix hs (ends_break hr).1).headIs fun c hc => by
      rw [Bool.or_eq_true, decide_eq_true_eq, decide_eq_true_eq] at hc
      rcases hc with rfl | rfl
      · exact .inr (by decide)
      · exact .inr (by decide)
  have hsuffix : Lexer.suffix false (s ++ r) = (false, r) := by
    rw [Lexer.suffix, if_neg (Bool.eq_false_iff.mp hfloat), Bool.and_false, if_neg Bool.false_ne_true,
      (dropWhile_stop hs (ends_break hr).2).1]
  have hnumber : number ('0' :: b.letter :: (b.digits ++ s) ++ r) = (false, r) := by
    show (if b.letter = 'x' || b.letter = 'X' then _ else if b.letter = 'b' || b.letter = 'B' then
      Lexer.suffix false ((b.digits ++ s ++ r).dropWhile fun c => c = '0' || c = '1') else _) = _
    rw [hletter.1, hletter.2, if_neg Bool.false_ne_true, if_pos rfl, hdrop, hsuffix]
  have hvalue : intValue ('0' :: b.letter :: (b.digits ++ s)) = BitVec.ofNat 64 (digitsValue 2 b.digits) := by
    rw [intValue, if_pos hletter.2, htake]
  have hbetween : between ('0' :: b.letter :: (b.digits ++ s) ++ r) r = '0' :: b.letter :: (b.digits ++ s) := between_append _ _
  rw [lexeme]
  simp only [hnumber, hbetween, hvalue]
  rfl

namespace IntConstant

/-- What is before the suffix. -/
def body : IntConstant → Text
  | plain c _ => c.pre ++ c.digits
  | binary b _ _ => '0' :: b.letter :: b.digits

variable (c : IntConstant)

theorem text_eq : c.text = c.body ++ c.suffix := by
  cases c with
  | plain c valid => rfl
  | binary b suffix valid => rfl

theorem valid : c.suffix ∈ suffixes := by
  cases c with
  | plain c valid => exact valid
  | binary b suffix valid => exact valid

theorem value_lt : c.value < 2 ^ 64 := by
  cases c with
  | plain c valid => exact c.fits
  | binary b suffix valid => exact b.fits

theorem body_ne : c.body ≠ [] := by
  cases c with
  | plain c valid => exact List.append_ne_nil_of_right_ne_nil _ c.digits_ne
  | binary b suffix valid => exact List.cons_ne_nil _ _

/-- The last digit is no letter of a suffix. -/
theorem body_last : ∀ d ∈ c.body.getLast?, isSuffix d = false := by
  have hlast : ∀ {pre digits : Text}, digits ≠ [] → (∀ d ∈ digits, isxdigit d = true) →
      ∀ d ∈ (pre ++ digits).getLast?, isSuffix d = false := by
    intro pre digits hne hdigits d hd
    rw [List.getLast?_append_of_ne_nil _ hne] at hd
    exact xdigit_no_suffix (hdigits d (List.mem_of_getLast? hd))
  cases c with
  | plain c valid => exact hlast c.digits_ne fun d hd => (c.digits_lt d hd).1
  | binary b suffix valid =>
      exact @hlast ['0', b.letter] b.digits b.digits_ne fun d hd => (binary_digits b d hd).1

/-- A constant with a large value begins with a zero unless it is decimal. -/
theorem zero_eq (h : 2 ^ 31 ≤ c.value) :
    decide (c.body.head? = some '0' ∧ 1 < (c.body ++ c.suffix).length) = ! c.isDecimal := by
  cases c with
  | binary b suffix valid =>
      refine decide_eq_true ⟨rfl, ?_⟩
      show 1 < (_ :: _ :: (b.digits ++ suffix)).length
      rw [List.length_cons, List.length_cons]
      omega
  | plain c valid =>
      have h : 2 ^ 31 ≤ digitsValue c.base c.digits := h
      show decide ((c.pre ++ c.digits).head? = some '0' ∧ 1 < (c.pre ++ c.digits ++ c.suffix).length) = ! decide (c.base = 10)
      have hlength : 0 < c.digits.length := List.length_pos_of_ne_nil c.digits_ne
      have hpre : c.pre ≠ [] → c.base = 16 := fun hne => if_pos hne
      rcases List.mem_cons.mp c.pre_mem with hp | hp
      · rw [hp, List.nil_append, Constant.base, if_neg (not_not_intro hp)]
        obtain ⟨d, ds, hds⟩ := List.exists_cons_of_ne_nil c.digits_ne
        by_cases hzero : c.digits.head? = some '0'
        · rw [if_pos hzero]
          refine decide_eq_true ⟨hzero, ?_⟩
          cases ds with
          | nil =>
              rw [hds] at hzero
              obtain rfl := Option.some_inj.mp hzero
              rw [hds, Constant.base, if_neg (not_not_intro hp), hds] at h
              exact absurd h (by decide)
          | cons e ds =>
              rw [hds, List.length_append, List.length_cons, List.length_cons]
              omega
        · rw [if_neg hzero]
          exact decide_eq_false fun hboth => hzero hboth.1
      · have hhead : ∃ x, c.pre = ['0', x] := by
          rcases List.mem_cons.mp hp with hp | hp
          · exact ⟨'x', hp⟩
          · exact ⟨'X', List.mem_singleton.mp hp⟩
        obtain ⟨x, hx⟩ := hhead
        rw [hpre (by rw [hx]; exact List.cons_ne_nil _ _), hx]
        refine decide_eq_true ⟨rfl, ?_⟩
        rw [List.length_append, List.length_append, List.length_cons, List.length_cons]
        omega

theorem constantNode_eq {r : Text} (hr : ∀ d q, r = d :: q → isBreak d = true) :
    constantNode uc (c.text ++ r) = some (newNum (BitVec.ofNat 64 c.value) c.text) := by
  have hlexeme : lexeme uc (c.text ++ r) = some (.token (.num (BitVec.ofNat 64 c.value)), r) := by
    cases c with
    | plain c valid => exact lexeme_constant c hr
    | binary b suffix valid => exact lexeme_binary b (suffix_valid valid).1 hr
  rw [constantNode, hlexeme]
  show some (newNum _ (between (c.text ++ r) r)) = _
  rw [between_append]

theorem numType_text : numType (BitVec.ofNat 64 c.value) c.text =
    typeBy (decide (c.body.head? = some '0' ∧ 1 < (c.body ++ c.suffix).length)) (c.suffix.any isU) (c.suffix.countP isL)
      c.value := by
  rw [text_eq]
  exact numType_eq c.body_ne c.body_last (suffix_valid c.valid).1 c.value_lt

/-- The value and the suffix that are needed: a value that `int` has; one of 32 bits, if the constant
is not decimal or has a suffix; an `l`, if there is a `u` or the value is below 2⁶³. A decimal constant
without `u` has no type of the list from there on. -/
def Good : Prop := GoodBy c.isDecimal (c.suffix.any isU) (c.suffix.countP isL) c.value

/-- **Integer constants.** The node for a constant has its value, and the type that C11 gives
the constant, if and only if it is a good one. -/
theorem isC11_iff (uc : Unicode) : c.IsC11 uc ↔ c.Good := by
  have htype := @typeBy_iff c.isDecimal (c.suffix.any isU) _ _ (suffix_valid c.valid).2 c.value_lt _ c.zero_eq
  rw [← c.numType_text] at htype
  refine Iff.trans ⟨fun h ty' hty' => ?_, fun h r hr => ?_⟩ htype
  · obtain ⟨ty, hnode, hty⟩ := h [] fun d q hq => absurd hq.symm (List.cons_ne_nil d q)
    rw [c.constantNode_eq fun d q hq => absurd hq.symm (List.cons_ne_nil d q)] at hnode
    have hnum : numType (BitVec.ofNat 64 c.value) c.text = ty := (Node.num.inj (Option.some_inj.mp hnode)).2
    exact hnum.trans (hty ty' hty')
  · exact ⟨_, c.constantNode_eq hr, h⟩

end IntConstant

/-- `0xFFFFFFFFFFFFFFFF` -/
def allOnes : IntConstant := .plain
  { pre := ['0', 'x']
    digits := List.replicate 16 'F'
    suffix := []
    pre_mem := by decide
    digits_ne := by decide
    digits_lt := by decide
    suffix_mem := by decide
    fits := by decide }
  (by decide)

/-- It should be an `unsigned long` and is an `int`. -/
theorem allOnes_not_isC11 : ¬ ∀ uc (c : IntConstant), c.IsC11 uc := by
  intro h
  obtain ⟨ty, hnode, hty⟩ := h ⟨fun _ => false, fun _ => false, fun _ _ h => absurd h Bool.false_ne_true⟩ allOnes [] fun d q hq =>
    absurd hq.symm (List.cons_ne_nil d q)
  rw [allOnes.constantNode_eq fun d q hq => absurd hq.symm (List.cons_ne_nil d q)] at hnode
  have hint : tyInt = ty := (Node.num.inj (Option.some_inj.mp hnode)).2
  have hulong : ty = tyUlong := hty tyUlong (by decide)
  exact absurd (hint.trans hulong) (by decide)

end Rcc.Parser

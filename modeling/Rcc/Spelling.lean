import Rcc.LexerLines
import Rcc.Precedence

/-!
# Expressions as text

The tokens of an expression, written one behind the other with blanks between them or
without, are the tokens that `tokenize` makes. An operator is followed by an operand or an
opening parenthesis, and an operand by an operator or a closing one, so that no token
could take in the character behind it.
-/

namespace Rcc.Parser

open Lexer

variable {uc : Unicode}

/-! ## Identifiers -/

/-- A character that an identifier may begin with. -/
def IdentFirst (uc : Unicode) (c : Nat) : Prop :=
  c < 128 ∧ isIdent1 (Char.ofNat c) = true ∨ 128 ≤ c ∧ c < 2 ^ 21 ∧ uc.ident1 c = true

/-- A character that an identifier may go on with. -/
def IdentNext (uc : Unicode) (c : Nat) : Prop :=
  c < 128 ∧ isIdent2 (Char.ofNat c) = true ∨ 128 ≤ c ∧ c < 2 ^ 21 ∧ uc.ident2 c = true

def Identifier (uc : Unicode) (w : Text) : Prop :=
  ∃ (c : Nat) (cs : List Nat), w = utf8 c ++ cs.flatMap utf8 ∧ IdentFirst uc c ∧ ∀ d ∈ cs, IdentNext uc d

/-- A character that an identifier or a number would not go on with. -/
def isBreak (c : Char) : Bool :=
  c.toNat < 128 && ! isIdent2 c && ! c = '.' && ! c = '"' && ! c = '\''

theorem toNat_ofNat {n : Nat} (h : n < 256) : (Char.ofNat n).toNat = n := by
  have hvalid : n.isValidChar := .inl (by omega)
  rw [Char.ofNat, dif_pos hvalid]
  rfl

/-- A byte that goes on with a character adds its last six bits. -/
theorem continuation_byte (n c d : Nat) (hd : d < 64) (p : Text) :
    continuation (n + 1) c (Char.ofNat (0x80 + d) :: p) = continuation n (c * 64 + d) p := by
  have hbyte : (Char.ofNat (0x80 + d)).toNat = 0x80 + d := toNat_ofNat (by omega)
  rw [continuation, hbyte, if_pos (by omega)]
  congr 1
  omega

theorem decodeUtf8_utf8 {c : Nat} (hc : c < 2 ^ 21) (r : Text) :
    decodeUtf8 (utf8 c ++ r) = some (c, (utf8 c).length) := by
  rw [utf8]
  split
  · have hbyte : (Char.ofNat c).toNat = c := toNat_ofNat (by omega)
    show decodeUtf8 (Char.ofNat c :: r) = some (c, 1)
    rw [decodeUtf8, hbyte, if_pos (by omega)]
  · split
    · have hbyte : (Char.ofNat (0xC0 + c / 64)).toNat = 0xC0 + c / 64 := toNat_ofNat (by omega)
      show decodeUtf8 (Char.ofNat (0xC0 + c / 64) :: Char.ofNat (0x80 + c % 64) :: r) = some (c, 2)
      rw [decodeUtf8, hbyte, if_neg (by omega), if_neg (by omega), if_neg (by omega), if_pos (by omega),
        continuation_byte _ _ _ (by omega), continuation]
      show some (_, 2) = some (c, 2)
      congr 2
      omega
    · split
      · have hbyte : (Char.ofNat (0xE0 + c / 4096)).toNat = 0xE0 + c / 4096 := toNat_ofNat (by omega)
        show decodeUtf8 (Char.ofNat (0xE0 + c / 4096) :: Char.ofNat (0x80 + c / 64 % 64) :: Char.ofNat (0x80 + c % 64) :: r) =
          some (c, 3)
        rw [decodeUtf8, hbyte, if_neg (by omega), if_neg (by omega), if_pos (by omega),
          continuation_byte _ _ _ (by omega), continuation_byte _ _ _ (by omega), continuation]
        show some (_, 3) = some (c, 3)
        congr 2
        omega
      · have hbyte : (Char.ofNat (0xF0 + c / 262144 % 8)).toNat = 0xF0 + c / 262144 % 8 := toNat_ofNat (by omega)
        show decodeUtf8 (Char.ofNat (0xF0 + c / 262144 % 8) :: Char.ofNat (0x80 + c / 4096 % 64) ::
          Char.ofNat (0x80 + c / 64 % 64) :: Char.ofNat (0x80 + c % 64) :: r) = some (c, 4)
        rw [decodeUtf8, hbyte, if_neg (by omega), if_pos (by omega), continuation_byte _ _ _ (by omega),
          continuation_byte _ _ _ (by omega), continuation_byte _ _ _ (by omega), continuation]
        show some (_, 4) = some (c, 4)
        congr 2
        omega

theorem decodeUtf8_break (uc : Unicode) {r : Text} (hr : ∀ c q, r = c :: q → isBreak c = true) :
    ∃ c, c < 128 ∧ decodeUtf8 r = some (c, 1) ∧ (headIs isIdent2 r || uc.ident2 c) = false := by
  have hno : ∀ c < 128, isIdent2 (Char.ofNat c) = false → uc.ident2 c = false := fun c hc h => by
    by_contra hident
    exact absurd (h.symm.trans (uc.ascii c hc (eq_true_of_ne_false hident))) nofun
  cases r with
  | nil => exact ⟨0, by omega, rfl, hno 0 (by omega) rfl⟩
  | cons d q =>
      have hbreak := hr d q rfl
      simp only [isBreak, Bool.and_eq_true, decide_eq_true_eq, Bool.not_eq_true'] at hbreak
      obtain ⟨⟨⟨⟨hd, hident⟩, _⟩, _⟩, _⟩ := hbreak
      refine ⟨d.toNat, hd, ?_, ?_⟩
      · rw [decodeUtf8, if_pos hd]
      · rw [hno d.toNat hd (by rw [Char.ofNat_toNat]; exact hident), Bool.or_false]
        exact hident

/-- The characters behind the first. -/
theorem identRest_chars {cs : List Nat} (hcs : ∀ d ∈ cs, IdentNext uc d) {r : Text}
    (hr : ∀ c q, r = c :: q → isBreak c = true) {n : Nat} (hn : cs.length < n) :
    identRest uc n (cs.flatMap utf8 ++ r) = some r := by
  induction cs generalizing n with
  | nil =>
      obtain ⟨n, rfl⟩ := Nat.exists_eq_add_of_lt hn
      obtain ⟨c, _, hdecode, hno⟩ := decodeUtf8_break uc hr
      show (decodeUtf8 r).bind _ = some r
      rw [hdecode]
      show (if headIs isIdent2 r || uc.ident2 c then _ else some r) = some r
      rw [if_neg (Bool.eq_false_iff.mp hno)]
  | cons d cs ih =>
      obtain ⟨n, rfl⟩ := Nat.exists_eq_add_of_lt hn
      have hd := hcs d List.mem_cons_self
      have hlt : d < 2 ^ 21 := by
        rcases hd with ⟨h, _⟩ | ⟨_, h, _⟩
        · exact Nat.lt_trans h (by decide)
        · exact h
      have hgo : (headIs isIdent2 (utf8 d ++ (cs.flatMap utf8 ++ r)) || uc.ident2 d) = true := by
        rcases hd with ⟨h, hident⟩ | ⟨_, _, hident⟩
        · rw [utf8, if_pos h]
          show (isIdent2 (Char.ofNat d) || _) = true
          rw [hident, Bool.true_or]
        · rw [hident, Bool.or_true]
      rw [List.flatMap_cons, List.append_assoc]
      show (decodeUtf8 (utf8 d ++ (cs.flatMap utf8 ++ r))).bind _ = some r
      rw [decodeUtf8_utf8 hlt]
      show (if headIs isIdent2 (utf8 d ++ (cs.flatMap utf8 ++ r)) || uc.ident2 d then
        identRest uc _ ((utf8 d ++ (cs.flatMap utf8 ++ r)).drop (utf8 d).length) else _) = some r
      rw [if_pos hgo, List.drop_left]
      refine ih (fun x hx => hcs x (List.mem_cons_of_mem _ hx)) ?_
      rw [List.length_cons]
      omega

theorem between_append (w r : Text) : between (w ++ r) r = w := by
  rw [between, List.length_append, Nat.add_sub_cancel, List.take_left]

theorem utf8_head {c : Nat} (hc : 128 ≤ c) (hlt : c < 2 ^ 21) :
    ∃ n q, utf8 c = Char.ofNat n :: q ∧ 128 ≤ n ∧ n < 256 := by
  rw [utf8, if_neg (by omega)]
  split
  · exact ⟨_, _, rfl, by omega, by omega⟩
  · split
    · exact ⟨_, _, rfl, by omega, by omega⟩
    · exact ⟨_, _, rfl, by omega, by omega⟩

/-- A test that no first character of an identifier passes. -/
theorem Identifier.head {w : Text} (hw : Identifier uc w) {f : Char → Bool}
    (hf : ∀ n < 256, isIdent1 (Char.ofNat n) = true ∨ 128 ≤ n → f (Char.ofNat n) = false) :
    ∃ d q, w = d :: q ∧ f d = false := by
  obtain ⟨c, cs, rfl, hc, _⟩ := hw
  rcases hc with ⟨hlt, hident⟩ | ⟨hge, hlt, _⟩
  · refine ⟨Char.ofNat c, cs.flatMap utf8, ?_, hf c (by omega) (.inl hident)⟩
    rw [utf8, if_pos hlt]
    rfl
  · obtain ⟨n, q, hn, hn1, hn2⟩ := utf8_head hge hlt
    exact ⟨Char.ofNat n, q ++ cs.flatMap utf8, by rw [hn]; rfl, hf n hn2 (.inr hn1)⟩

/-- What `lexeme` looks for before it comes to identifiers begins with other characters. -/
theorem lexeme_word {uc : Unicode} {n : Nat} {p : Text} (hspace : isspace (Char.ofNat n) = false)
    (hother : Char.ofNat n ∉ ['#', '/', '.']) (hdigit : isdigit (Char.ofNat n) = false) :
    lexeme uc (Char.ofNat n :: p) =
      if headIs (fun c => 128 ≤ c.toNat) (Char.ofNat n :: p) then
        (decodeUtf8 (Char.ofNat n :: p)).bind fun (c, len) =>
          if uc.ident1 c then identifier uc (Char.ofNat n :: p) len else none
      else if headIs isIdent1 (Char.ofNat n :: p) && ! (headIs isPrefixChar (Char.ofNat n :: p) &&
          headIs (fun c => c = '"' || c = '\'') p) then identifier uc (Char.ofNat n :: p) 1
      else quoted (Char.ofNat n :: p) := by
  simp only [List.mem_cons, List.not_mem_nil, or_false, not_or] at hother
  obtain ⟨hsharp, hslash, hdot⟩ := hother
  have hhash : headIs (fun c => decide (c = '#')) (Char.ofNat n :: p) = false := decide_eq_false hsharp
  have hpoint : headIs (fun c => decide (c = '.')) (Char.ofNat n :: p) = false := decide_eq_false hdot
  have hbeq : ('/' == Char.ofNat n) = false := beq_false_of_ne fun h => hslash h.symm
  have hline : startswith (Char.ofNat n :: p) "//" = false := by
    show (('/' == Char.ofNat n) && _) = false
    rw [hbeq, Bool.false_and]
  have hblock : startswith (Char.ofNat n :: p) "/*" = false := by
    show (('/' == Char.ofNat n) && _) = false
    rw [hbeq, Bool.false_and]
  have hblank : headIs isspace (Char.ofNat n :: p) = false := hspace
  have hnum : headIs isdigit (Char.ofNat n :: p) = false := hdigit
  rw [lexeme]
  simp only [hhash, hpoint, hline, hblock, hblank, hnum, Bool.false_eq_true, if_false, Bool.false_and, Bool.or_false]
  rfl

theorem lexeme_identifier {w r : Text} (hw : Identifier uc w) (hr : ∀ c q, r = c :: q → isBreak c = true) :
    lexeme uc (w ++ r) = some (.token (.ident w), r) := by
  obtain ⟨c, cs, rfl, hc, hcs⟩ := hw
  have hlen : ∀ b : Char, ∀ q : Text, utf8 c = b :: q →
      identifier uc (utf8 c ++ cs.flatMap utf8 ++ r) (utf8 c).length = some (.token (.ident (utf8 c ++ cs.flatMap utf8)), r) := by
    intro b q hb
    rw [identifier, List.append_assoc, List.drop_left, identRest_chars hcs hr, Option.map_some, ← List.append_assoc,
      between_append]
    have hle : ∀ cs : List Nat, cs.length ≤ (cs.flatMap utf8).length := by
      intro cs
      induction cs with
      | nil => exact Nat.le_refl 0
      | cons d cs ih =>
          have hpos : 0 < (utf8 d).length := by
            rw [utf8, List.length_map]
            split
            · exact Nat.zero_lt_one
            · split
              · exact Nat.zero_lt_two
              · split <;> exact Nat.succ_pos _
          rw [List.flatMap_cons, List.length_append, List.length_cons]
          omega
    have := hle cs
    rw [List.length_append, List.length_append]
    omega
  rcases hc with ⟨hlt, hident⟩ | ⟨hge, hlt, hident⟩
  · have hone : utf8 c = [Char.ofNat c] := by
      rw [utf8, if_pos hlt]
      rfl
    have hascii : ∀ n < 128, isIdent1 (Char.ofNat n) = true → isspace (Char.ofNat n) = false ∧
        Char.ofNat n ∉ ['#', '/', '.'] ∧ isdigit (Char.ofNat n) = false := by decide
    obtain ⟨hspace, hother, hdigit⟩ := hascii c hlt hident
    have hquote : headIs (fun c => decide (c = '"') || decide (c = '\'')) (cs.flatMap utf8 ++ r) = false := by
      cases cs with
      | nil =>
          cases r with
          | nil => rfl
          | cons d q =>
              have hbreak := hr d q rfl
              simp only [isBreak, Bool.and_eq_true, Bool.not_eq_true'] at hbreak
              obtain ⟨⟨_, hdouble⟩, hsingle⟩ := hbreak
              show (decide (d = '"') || decide (d = '\'')) = false
              rw [hdouble, hsingle]
              rfl
      | cons d cs =>
          have hnone : ∀ n < 256, (isIdent2 (Char.ofNat n) = true ∨ 128 ≤ n) →
              (decide (Char.ofNat n = '"') || decide (Char.ofNat n = '\'')) = false := by decide +kernel
          rw [List.flatMap_cons]
          rcases hcs d List.mem_cons_self with ⟨hd, hnext⟩ | ⟨hd, hd', _⟩
          · rw [utf8, if_pos hd]
            exact hnone d (by omega) (.inl hnext)
          · obtain ⟨n, q, hn, hge, hlt⟩ := utf8_head hd hd'
            rw [hn]
            exact hnone n hlt (.inr hge)
    have hsmall : headIs (fun c => decide (128 ≤ c.toNat)) (Char.ofNat c :: (cs.flatMap utf8 ++ r)) = false := by
      refine decide_eq_false ?_
      rw [toNat_ofNat (by omega)]
      omega
    have hword : headIs isIdent1 (Char.ofNat c :: (cs.flatMap utf8 ++ r)) = true := hident
    have hshape : utf8 c ++ cs.flatMap utf8 ++ r = Char.ofNat c :: (cs.flatMap utf8 ++ r) := by
      rw [hone]
      rfl
    have hgo := hlen _ _ hone
    rw [hone] at hgo
    rw [hshape, lexeme_word hspace hother hdigit, if_neg (Bool.eq_false_iff.mp hsmall), hword, hquote, Bool.and_false, hone]
    exact hgo
  · obtain ⟨n, q, hn, hn1, hn2⟩ := utf8_head hge hlt
    have hbyte : ∀ n < 256, 128 ≤ n → isspace (Char.ofNat n) = false ∧ Char.ofNat n ∉ ['#', '/', '.'] ∧
        isdigit (Char.ofNat n) = false := by decide +kernel
    obtain ⟨hspace, hother, hdigit⟩ := hbyte n hn2 hn1
    have hlarge : headIs (fun c => decide (128 ≤ c.toNat)) (Char.ofNat n :: (q ++ (cs.flatMap utf8 ++ r))) = true := by
      refine decide_eq_true ?_
      rw [toNat_ofNat hn2]
      exact hn1
    have hshape : utf8 c ++ cs.flatMap utf8 ++ r = Char.ofNat n :: (q ++ (cs.flatMap utf8 ++ r)) := by
      rw [hn, List.append_assoc]
      rfl
    have hdecode := decodeUtf8_utf8 hlt (cs.flatMap utf8 ++ r)
    rw [← List.append_assoc, hshape] at hdecode
    have hgo := hlen _ _ hn
    rw [hshape] at hgo
    rw [hshape, lexeme_word hspace hother hdigit, if_pos hlarge, hdecode]
    show (if uc.ident1 c then _ else none) = _
    rw [if_pos hident]
    exact hgo

/-! ## Constants -/

/-- No digits, no exponent and no suffix of a floating constant go on here. -/
def Ends (q : Text) : Prop :=
  ∀ c q', q = c :: q' → isxdigit c = false ∧ isdigit c = false ∧
    c ∉ ['.', 'e', 'E', 'p', 'P', 'f', 'F', 'x', 'X', 'b', 'B']

theorem ends_break {r : Text} (hr : ∀ c q, r = c :: q → isBreak c = true) :
    Ends r ∧ ∀ c q, r = c :: q → isSuffix c = false := by
  have hall : ∀ n < 128, isBreak (Char.ofNat n) = true → isxdigit (Char.ofNat n) = false ∧ isdigit (Char.ofNat n) = false ∧
      Char.ofNat n ∉ ['.', 'e', 'E', 'p', 'P', 'f', 'F', 'x', 'X', 'b', 'B'] ∧ isSuffix (Char.ofNat n) = false := by
    decide +kernel
  have hchar : ∀ c q, r = c :: q → isxdigit c = false ∧ isdigit c = false ∧
      c ∉ ['.', 'e', 'E', 'p', 'P', 'f', 'F', 'x', 'X', 'b', 'B'] ∧ isSuffix c = false := by
    intro c q hq
    have hbreak := hr c q hq
    have hlt : c.toNat < 128 := by
      simp only [isBreak, Bool.and_eq_true, decide_eq_true_eq] at hbreak
      exact hbreak.1.1.1.1
    have h := hall c.toNat hlt
    rw [Char.ofNat_toNat] at h
    exact h hbreak
  exact ⟨fun c q hq => ⟨(hchar c q hq).1, (hchar c q hq).2.1, (hchar c q hq).2.2.1⟩, fun c q hq => (hchar c q hq).2.2.2⟩

theorem ends_suffix {w r : Text} (hw : ∀ c ∈ w, isSuffix c = true) (hr : Ends r) : Ends (w ++ r) := by
  cases w with
  | nil => exact hr
  | cons d w =>
      intro c q hq
      obtain ⟨rfl, -⟩ := List.cons.inj hq
      have hd := hw d List.mem_cons_self
      simp only [isSuffix, Bool.or_eq_true, decide_eq_true_eq] at hd
      rcases hd with ((rfl | rfl) | rfl) | rfl <;> decide

theorem Ends.headIs {q : Text} (h : Ends q) {f : Char → Bool}
    (hf : ∀ c, f c = true → isxdigit c = true ∨ c ∈ ['.', 'e', 'E', 'p', 'P', 'f', 'F', 'x', 'X', 'b', 'B']) :
    Lexer.headIs f q = false := by
  cases q with
  | nil => rfl
  | cons c q =>
      obtain ⟨hx, _, hno⟩ := h c q rfl
      refine eq_false_of_ne_true fun hc => ?_
      rcases hf c hc with h | h
      · exact absurd (hx.symm.trans h) nofun
      · exact hno h

theorem dropWhile_stop {f : Char → Bool} {w q : Text} (hw : ∀ c ∈ w, f c = true) (hq : ∀ c q', q = c :: q' → f c = false) :
    (w ++ q).dropWhile f = q ∧ (w ++ q).takeWhile f = w := by
  rw [List.dropWhile_append_of_pos hw, List.takeWhile_append_of_pos hw]
  cases q with
  | nil => exact ⟨rfl, List.append_nil w⟩
  | cons c q =>
      have hc := hq c q rfl
      rw [List.dropWhile_cons_of_neg (Bool.eq_false_iff.mp hc), List.takeWhile_cons_of_neg (Bool.eq_false_iff.mp hc)]
      exact ⟨rfl, List.append_nil w⟩

/-- Behind the digits of an integer there is only its suffix. -/
theorem numberRest_suffix {w r : Text} (hw : ∀ c ∈ w, isSuffix c = true) (hr : ∀ c q, r = c :: q → isBreak c = true)
    (may : Bool) (digit : Char → Bool) {e E : Char} (he : e ∈ ['e', 'p']) (hE : E ∈ ['E', 'P']) :
    numberRest may digit e E (w ++ r) = (false, r) := by
  have hends := ends_suffix hw (ends_break hr).1
  have hpoint : headIs (fun c => decide (c = '.')) (w ++ r) = false :=
    hends.headIs fun c hc => .inr (of_decide_eq_true hc ▸ List.mem_cons_self)
  have hfraction : fraction may digit (w ++ r) = (false, w ++ r) := by
    rw [fraction, hpoint]
    rfl
  have hexponent : exponent e E (w ++ r) = (false, w ++ r) := by
    cases hq : w ++ r with
    | nil => rfl
    | cons c q =>
        obtain ⟨_, _, hno⟩ := hends c q hq
        have hsub : ∀ x ∈ ['e', 'p'] ++ ['E', 'P'], x ∈ ['.', 'e', 'E', 'p', 'P', 'f', 'F', 'x', 'X', 'b', 'B'] := by decide
        have hc : ¬ (c = e ∨ c = E) := by
          rintro (rfl | rfl)
          · exact hno (hsub c (List.mem_append_left _ he))
          · exact hno (hsub c (List.mem_append_right _ hE))
        rw [exponent, if_neg]
        rw [Bool.or_eq_true, decide_eq_true_eq, decide_eq_true_eq]
        exact hc
  have hfloat : headIs (fun c => decide (c = 'f') || decide (c = 'F')) (w ++ r) = false :=
    hends.headIs fun c hc => by
      rw [Bool.or_eq_true, decide_eq_true_eq, decide_eq_true_eq] at hc
      rcases hc with rfl | rfl <;> exact .inr (by decide)
  rw [numberRest, hfraction, hexponent]
  show suffix false (w ++ r) = (false, r)
  rw [suffix, if_neg (Bool.eq_false_iff.mp hfloat), Bool.and_false, if_neg Bool.false_ne_true,
    (dropWhile_stop hw (ends_break hr).2).1]

variable (c : Constant) {rest : Text}

/-- The second character of an integer without prefix is no letter of one. -/
theorem second_char {c : Constant} {q : Text} {x d : Char} (hpre : c.pre = []) (hends : Ends q)
    (h : c.digits ++ q = d :: x :: rest) : x ∉ ['x', 'X', 'b', 'B'] := by
  obtain ⟨e, ds, hds⟩ := List.exists_cons_of_ne_nil c.digits_ne
  rw [hds] at h
  obtain ⟨rfl, htail⟩ := List.cons.inj h
  intro hmem
  cases ds with
  | nil =>
      have hsub : ∀ y ∈ ['x', 'X', 'b', 'B'], y ∈ ['.', 'e', 'E', 'p', 'P', 'f', 'F', 'x', 'X', 'b', 'B'] := by decide
      exact (hends x rest htail).2.2 (hsub x hmem)
  | cons d ds =>
      obtain ⟨rfl, -⟩ := List.cons.inj htail
      have hdigit := Constant.digits_decimal hpre d (hds ▸ List.mem_cons_of_mem _ List.mem_cons_self)
      have hall : ∀ x ∈ ['x', 'X', 'b', 'B'], isdigit x = false := by decide
      exact absurd (hdigit.symm.trans (hall d hmem)) nofun

theorem number_constant {r : Text} (hr : ∀ c q, r = c :: q → isBreak c = true) : number (c.text ++ r) = (false, r) := by
  have hrest : ∀ may digit {e E}, e ∈ ['e', 'p'] → E ∈ ['E', 'P'] → numberRest may digit e E (c.suffix ++ r) = (false, r) :=
    fun may digit => numberRest_suffix c.suffix_mem hr may digit
  have hends := ends_suffix c.suffix_mem (ends_break hr).1
  have htext : c.text ++ r = c.pre ++ (c.digits ++ (c.suffix ++ r)) := by
    rw [Constant.text, List.append_assoc, List.append_assoc]
  have hhex : ∀ q, q = c.digits ++ (c.suffix ++ r) → numberRest true isxdigit 'p' 'P' (q.dropWhile isxdigit) = (false, r) := by
    rintro q rfl
    rw [(dropWhile_stop (fun d hd => (c.digits_lt d hd).1) fun x q hx => (hends x q hx).1).1]
    exact hrest _ _ (by decide) (by decide)
  rcases List.mem_cons.mp c.pre_mem with hpre | hpre
  · have hdec : decimal (c.digits ++ (c.suffix ++ r)) = (false, r) := by
      rw [decimal]
      simp only [(dropWhile_stop (Constant.digits_decimal hpre) fun x q hx => (hends x q hx).2.1).1]
      exact hrest _ _ (by decide) (by decide)
    rw [htext, hpre, List.nil_append, number.eq_def]
    split
    · next x rest hq =>
        have hx := second_char hpre hends hq
        simp only [List.mem_cons, List.not_mem_nil, or_false, not_or] at hx
        obtain ⟨h1, h2, h3, h4⟩ := hx
        rw [if_neg (by simp only [h1, h2, decide_false, Bool.or_self, Bool.false_eq_true, not_false_eq_true]),
          if_neg (by simp only [h3, h4, decide_false, Bool.or_self, Bool.false_eq_true, not_false_eq_true])]
        exact hdec
    · exact hdec
  · rcases List.mem_cons.mp hpre with hpre | hpre
    · rw [htext, hpre]
      exact hhex _ rfl
    · rw [htext, List.mem_singleton.mp hpre]
      exact hhex _ rfl

theorem min_value (c : Constant) : BitVec.ofNat 64 (min (digitsValue c.base c.digits) (2 ^ 64 - 1)) = c.value := by
  have hfits : digitsValue c.base c.digits < 2 ^ 64 := c.fits
  rw [Nat.min_eq_left (by omega)]
  rfl

theorem intValue_constant : intValue c.text = c.value := by
  have hends : Ends c.suffix := by
    have h := ends_suffix c.suffix_mem (r := []) fun x q hq => absurd hq.symm (List.cons_ne_nil x q)
    rwa [List.append_nil] at h
  have htext : c.text = c.pre ++ (c.digits ++ c.suffix) := by rw [Constant.text, List.append_assoc]
  have hhex : c.pre ≠ [] → BitVec.ofNat 64 (min (digitsValue 16 ((c.digits ++ c.suffix).takeWhile isxdigit)) (2 ^ 64 - 1)) =
      c.value := by
    intro hpre
    rw [(dropWhile_stop (fun d hd => (c.digits_lt d hd).1) fun x q hx => (hends x q hx).1).2, ← min_value, Constant.base,
      if_pos hpre]
  have hhead : headIs isxdigit (c.digits ++ c.suffix) = true := by
    obtain ⟨d, ds, hds⟩ := List.exists_cons_of_ne_nil c.digits_ne
    rw [hds]
    exact (c.digits_lt d (hds ▸ List.mem_cons_self)).1
  rcases List.mem_cons.mp c.pre_mem with hpre | hpre
  · have hbase : c.base = if c.digits.head? = some '0' then 8 else 10 := by
      rw [Constant.base, if_neg (not_not_intro hpre)]
    have hoctal : c.digits.head? = some '0' → ∀ d ∈ c.digits, (decide ('0' ≤ d) && decide (d ≤ '7')) = true := by
      intro hzero d hd
      have hdigit := Constant.digits_decimal hpre d hd
      have hlt := (c.digits_lt d hd).2
      rw [if_neg (not_not_intro hpre), if_pos hzero, hexValue, if_pos hdigit] at hlt
      have hge : '0' ≤ d := of_decide_eq_true (Bool.and_eq_true_iff.mp hdigit).1
      rw [Bool.and_eq_true, decide_eq_true_eq, decide_eq_true_eq]
      refine ⟨hge, ?_⟩
      show d.toNat ≤ 55
      omega
    rw [htext, hpre, List.nil_append]
    -- the letter of a binary constant is no digit and no suffix
    have hplain : intValue (c.digits ++ c.suffix) = strtoull (c.digits ++ c.suffix) := by
      rw [intValue.eq_def]
      split
      · next x rest hq =>
          have hx := second_char hpre hends hq
          simp only [List.mem_cons, List.not_mem_nil, or_false, not_or] at hx
          rw [if_neg (by simp only [hx.2.2.1, hx.2.2.2, decide_false, Bool.or_self, Bool.false_eq_true, not_false_eq_true])]
      · rfl
    rw [hplain, strtoull.eq_def]
    split
    · next x ds hq =>
        obtain ⟨d, dt, hds⟩ := List.exists_cons_of_ne_nil c.digits_ne
        rw [hds] at hq
        obtain ⟨rfl, htail⟩ := List.cons.inj hq
        have htail : dt ++ c.suffix = x :: ds := htail
        have hzero : c.digits.head? = some '0' := by rw [hds]; rfl
        have htake : (dt ++ c.suffix).takeWhile (fun c => decide ('0' ≤ c) && decide (c ≤ '7')) = dt := by
          refine (dropWhile_stop (fun x hx => hoctal hzero x (hds ▸ List.mem_cons_of_mem _ hx)) fun x q hx => ?_).2
          have hno := (hends x q hx).2.1
          refine eq_false_of_ne_true fun hyes => ?_
          obtain ⟨hge, hle⟩ := Bool.and_eq_true_iff.mp hyes
          have hle : x ≤ '9' := Char.le_trans (of_decide_eq_true hle) (by decide)
          exact absurd (hno.symm.trans (Bool.and_eq_true_iff.mpr ⟨hge, decide_eq_true hle⟩)) Bool.false_ne_true
        have hval : digitsValue 8 dt = digitsValue c.base c.digits := by
          rw [hbase, if_pos hzero, hds]
          rfl
        have hx := second_char hpre hends (hds ▸ hq)
        simp only [List.mem_cons, List.not_mem_nil, or_false, not_or] at hx
        simp only [hx.1, hx.2.1, decide_false, Bool.or_self, Bool.false_and, Bool.false_eq_true, if_false]
        rw [← htail, htake, hval]
        exact min_value c
    · next hq =>
        have htake : (c.digits ++ c.suffix).takeWhile isdigit = c.digits :=
          (dropWhile_stop (Constant.digits_decimal hpre) fun x q hx => (hends x q hx).2.1).2
        have hval : digitsValue 10 c.digits = digitsValue c.base c.digits := by
          rw [hbase]
          split
          · next hzero =>
              obtain ⟨dt, hds⟩ := List.head?_eq_some_iff.mp hzero
              cases dt with
              | nil =>
                  rw [hds]
                  rfl
              | cons x dt =>
                  refine absurd ?_ (hq x (dt ++ c.suffix))
                  rw [hds]
                  rfl
          · rfl
        simp only [htake, hval]
        exact min_value c
  · rcases List.mem_cons.mp hpre with hpre | hpre
    · rw [htext, hpre]
      show BitVec.ofNat 64 (min (if (true || _) && headIs isxdigit (c.digits ++ c.suffix) then _ else _) _) = c.value
      rw [hhead]
      exact hhex (by rw [hpre]; exact List.cons_ne_nil _ _)
    · rw [List.mem_singleton] at hpre
      rw [htext, hpre]
      show BitVec.ofNat 64 (min (if (false || true) && headIs isxdigit (c.digits ++ c.suffix) then _ else _) _) = c.value
      rw [hhead]
      exact hhex (by rw [hpre]; exact List.cons_ne_nil _ _)

theorem lexeme_constant {r : Text} (hr : ∀ c q, r = c :: q → isBreak c = true) :
    lexeme uc (c.text ++ r) = some (.token (.num c.value), r) := by
  obtain ⟨d, w, htext, hd⟩ := c.head_digit
  have hall : ∀ n < 128, isdigit (Char.ofNat n) = true → isspace (Char.ofNat n) = false ∧ Char.ofNat n ≠ '#' ∧
      Char.ofNat n ≠ '/' := by decide +kernel
  have hlt : d.toNat < 128 := by
    have hle : d ≤ '9' := of_decide_eq_true (Bool.and_eq_true_iff.mp hd).2
    have hle : d.toNat ≤ 57 := hle
    omega
  have hchar := hall d.toNat hlt
  rw [Char.ofNat_toNat] at hchar
  obtain ⟨hspace, hsharp, hslash⟩ := hchar hd
  have hbeq : ('/' == d) = false := beq_false_of_ne fun h => hslash h.symm
  have hline : startswith (c.text ++ r) "//" = false := by
    rw [htext]
    show (('/' == d) && _) = false
    rw [hbeq, Bool.false_and]
  have hblock : startswith (c.text ++ r) "/*" = false := by
    rw [htext]
    show (('/' == d) && _) = false
    rw [hbeq, Bool.false_and]
  have hblank : headIs isspace (c.text ++ r) = false := by rw [htext]; exact hspace
  have hhash : headIs (fun c => decide (c = '#')) (c.text ++ r) = false := by
    rw [htext]
    exact decide_eq_false hsharp
  have hnum : headIs isdigit (c.text ++ r) = true := by rw [htext]; exact hd
  rw [lexeme]
  simp only [hblank, hhash, hline, hblock, hnum, Bool.false_eq_true, if_false, Bool.true_or, if_true,
    number_constant c hr, between_append, intValue_constant]

/-! ## Punctuators -/

/-- A character that could be the second one of a punctuator, or of what begins a comment. -/
def isSecond (c : Char) : Bool := ['=', '<', '>', '&', '|', '+', '-', '.', '*', '/'].any (c = ·)

theorem startswith_append {w r : Text} {q : String} (hq : ∀ c ∈ q.toList.tail, isSecond c = true)
    (hw : w ≠ []) (hr : headIs isSecond r = false) : startswith (w ++ r) q = startswith w q := by
  rw [startswith, startswith, Bool.eq_iff_iff, List.isPrefixOf_iff_prefix, List.isPrefixOf_iff_prefix]
  refine ⟨fun h => ?_, fun h => h.trans (List.prefix_append w r)⟩
  by_cases hlen : q.toList.length ≤ w.length
  · exact List.prefix_of_prefix_length_le h (List.prefix_append w r) hlen
  · cases r with
    | nil => rwa [List.append_nil] at h
    | cons c r =>
        -- the character behind is one of the punctuator
        have hall : w ++ [c] <+: w ++ c :: r := ⟨r, by simp only [List.append_assoc, List.cons_append, List.nil_append]⟩
        have hin : w ++ [c] <+: q.toList := by
          refine List.prefix_of_prefix_length_le hall h ?_
          rw [List.length_append, List.length_singleton]
          omega
        obtain ⟨d, w, rfl⟩ := List.exists_cons_of_ne_nil hw
        obtain ⟨t, ht⟩ := hin
        have hmem : c ∈ q.toList.tail := by
          rw [← ht]
          exact List.mem_append_left _ (List.mem_append_right _ List.mem_cons_self)
        exact absurd ((hq c hmem).symm.trans hr) nofun

theorem readPunct_append {w r : Text} (hw : w ≠ []) (hr : headIs isSecond r = false) : readPunct (w ++ r) = readPunct w := by
  have hstart : ∀ q ∈ ["...", "<<=", ">>=", "==", "!=", "<=", ">=", "++", "--", "&&", "||", "->", "<<", ">>", "+=", "-=",
      "*=", "/=", "%=", "&=", "|=", "^="], startswith (w ++ r) q = startswith w q := by
    have hall : ∀ q ∈ ["...", "<<=", ">>=", "==", "!=", "<=", ">=", "++", "--", "&&", "||", "->", "<<", ">>", "+=", "-=",
      "*=", "/=", "%=", "&=", "|=", "^="], ∀ c ∈ q.toList.tail, isSecond c = true := by decide
    exact fun q hq => startswith_append (hall q hq) hw hr
  have hany : ∀ qs : List String, (∀ q ∈ qs, startswith (w ++ r) q = startswith w q) →
      qs.any (startswith (w ++ r)) = qs.any (startswith w) := by
    intro qs hqs
    rw [Bool.eq_iff_iff, List.any_eq_true, List.any_eq_true]
    exact exists_congr fun q => and_congr_right fun hq => by rw [hqs q hq]
  have hhead : headIs ispunct (w ++ r) = headIs ispunct w := by
    obtain ⟨d, w, rfl⟩ := List.exists_cons_of_ne_nil hw
    rfl
  rw [readPunct, readPunct, hstart "..." (by decide), hany ["<<=", ">>="] fun q hq => hstart q (by revert q; decide),
    hany _ fun q hq => hstart q (by revert q; decide), hhead]

/-- What `lexeme` makes of an operator or a parenthesis. -/
theorem lexeme_punctuator {d : Char} {w r : Text} (hd : d ∈ "()*/%+-<>=!&|^?:,".toList)
    (hcomment : startswith (d :: w ++ r) "//" = false ∧ startswith (d :: w ++ r) "/*" = false)
    (hread : readPunct (d :: w ++ r) = (d :: w).length) : lexeme uc (d :: w ++ r) = some (.token .punct, r) := by
  have hall : ∀ d ∈ "()*/%+-<>=!&|^?:,".toList, isspace d = false ∧ decide (d = '#') = false ∧ isdigit d = false ∧
      decide (d = '.') = false ∧ decide (128 ≤ d.toNat) = false ∧ isIdent1 d = false ∧ decide (d = '"') = false ∧
      isPrefixChar d = false ∧ decide (d = '\'') = false := by decide
  obtain ⟨hspace, hsharp, hdigit, hdot, hascii, hident, hdouble, hpre, hsingle⟩ := hall d hd
  have hhead : ∀ f : Char → Bool, headIs f (d :: w ++ r) = f d := fun f => rfl
  have hquoted : quoted (d :: w ++ r) = some (.token .punct, r) := by
    rw [quoted, charPrefix]
    simp only [hhead, hdouble, hpre, Bool.false_and, Bool.false_eq_true, if_false, List.drop_zero, hsingle, hread]
    rw [List.length_cons, if_neg (Nat.succ_ne_zero _), ← List.length_cons, List.drop_left]
  rw [lexeme]
  simp only [hhead, hspace, hsharp, hdigit, hdot, hascii, hident, Bool.false_and, Bool.or_false, Bool.false_eq_true,
    if_false, hcomment.1, hcomment.2]
  exact hquoted

def opTexts : List String :=
  ["*", "/", "%", "+", "-", "<<", ">>", "<", "<=", ">", ">=", "==", "!=", "&", "^", "|", "&&", "||", "=", ",", "?", ":"]

theorem lexeme_operator {text : String} (htext : text ∈ opTexts) {r : Text} (hr : headIs isSecond r = false) :
    lexeme uc (text.toList ++ r) = some (.token .punct, r) := by
  have hall : ∀ text ∈ opTexts, text.toList.head?.any (· ∈ "()*/%+-<>=!&|^?:,".toList) = true ∧
      readPunct text.toList = text.toList.length ∧ startswith text.toList "//" = false ∧
        startswith text.toList "/*" = false := by decide
  obtain ⟨hhead, hread, hline, hblock⟩ := hall text htext
  have hsecond : ∀ q ∈ ["//", "/*"], ∀ c ∈ q.toList.tail, isSecond c = true := by decide
  cases hw : text.toList with
  | nil =>
      rw [hw] at hhead
      exact absurd hhead nofun
  | cons d w =>
      rw [hw] at hhead hread hline hblock
      refine lexeme_punctuator (of_decide_eq_true hhead) ⟨?_, ?_⟩ ?_
      · rw [startswith_append (hsecond "//" (by decide)) (List.cons_ne_nil d w) hr, hline]
      · rw [startswith_append (hsecond "/*" (by decide)) (List.cons_ne_nil d w) hr, hblock]
      · rw [readPunct_append (List.cons_ne_nil d w) hr, hread]

theorem lexeme_paren {text : String} (htext : text ∈ ["(", ")"]) (r : Text) :
    lexeme uc (text.toList ++ r) = some (.token .punct, r) := by
  have hall : ∀ text ∈ ["(", ")"], ∃ d ∈ "()*/%+-<>=!&|^?:,".toList, text.toList = [d] ∧ ispunct d = true ∧
      ∀ q ∈ ["...", "<<=", ">>=", "==", "!=", "<=", ">=", "++", "--", "&&", "||", "->", "<<", ">>", "+=", "-=", "*=", "/=",
        "%=", "&=", "|=", "^=", "//", "/*"], q.toList.head? ≠ some d := by decide
  obtain ⟨d, hd, heq, hpunct, hno⟩ := hall text htext
  have hstart : ∀ q ∈ ["...", "<<=", ">>=", "==", "!=", "<=", ">=", "++", "--", "&&", "||", "->", "<<", ">>", "+=", "-=", "*=",
      "/=", "%=", "&=", "|=", "^=", "//", "/*"], startswith (d :: [] ++ r) q = false := by
    have hne : ∀ q ∈ ["...", "<<=", ">>=", "==", "!=", "<=", ">=", "++", "--", "&&", "||", "->", "<<", ">>", "+=", "-=", "*=",
      "/=", "%=", "&=", "|=", "^=", "//", "/*"], q.toList ≠ [] := by decide
    intro q hq
    refine eq_false_of_ne_true fun h => ?_
    obtain ⟨t, ht⟩ := List.isPrefixOf_iff_prefix.mp h
    obtain ⟨e, es, hes⟩ := List.exists_cons_of_ne_nil (hne q hq)
    rw [hes] at ht
    obtain ⟨rfl, -⟩ := List.cons.inj ht
    exact hno q hq (by rw [hes]; rfl)
  have hany : ∀ qs : List String, (∀ q ∈ qs, startswith (d :: [] ++ r) q = false) →
      qs.any (startswith (d :: [] ++ r)) = false := fun qs hqs => List.any_eq_false.mpr fun q hq => Bool.eq_false_iff.mp (hqs q hq)
  rw [heq]
  refine lexeme_punctuator hd ⟨hstart "//" (by decide), hstart "/*" (by decide)⟩ ?_
  have hhead : headIs ispunct (d :: [] ++ r) = true := hpunct
  rw [readPunct, hstart "..." (by decide), hany ["<<=", ">>="] fun q hq => hstart q (by revert q; decide),
    hany _ fun q hq => hstart q (by revert q; decide), hhead]
  rfl

/-! ## The whole text -/

/-- The tokens of an operand. -/
def IsOperand (uc : Unicode) (t : Tok) : Prop :=
  (∃ w, Identifier uc w ∧ t = (.ident w, w)) ∨ ∃ c : Constant, t = (.num c.value, c.text)

/-- Operands and operators take turns, between parentheses; `true` is before an operand. -/
def Turns (uc : Unicode) : Bool → List Tok → Prop
  | true, [] => False
  | false, [] => True
  | true, t :: tok => (t = punct "(" ∧ Turns uc true tok) ∨ (IsOperand uc t ∧ Turns uc false tok)
  | false, t :: tok => (t = punct ")" ∧ Turns uc false tok) ∨ ((∃ op ∈ opTexts, t = punct op) ∧ Turns uc true tok)

/-- A text with these tokens, and blanks before them and behind. -/
def Spells : List Tok → Text → Prop
  | [], p => ∀ c ∈ p, isspace c = true
  | t :: tok, p => ∃ blanks rest, (∀ c ∈ blanks, isspace c = true) ∧ p = blanks ++ (t.2 ++ rest) ∧ Spells tok rest

/-- The tokens that lexemes are made into. -/
def tokens (ls : Lexemes) : List Tok :=
  ls.filterMap fun
    | (.token kind, text) => some (kind, text)
    | (.char val pre, text) => some (.num val, text.drop pre)
    | (.string val pre _, text) => some (.str val pre, text)
    | _ => none

theorem Turns.parens {tok rest : List Tok} {needed : Bool} (h : ∀ rest, Turns uc false rest → Turns uc true (tok ++ rest))
    (hrest : Turns uc false rest) : Turns uc true (parens needed tok ++ rest) := by
  cases needed with
  | false => exact h rest hrest
  | true =>
      refine .inl ⟨rfl, ?_⟩
      rw [List.append_eq, List.append_assoc]
      exact h _ (.inl ⟨rfl, hrest⟩)

theorem turns_render {t : Tree} (hvars : ∀ v ∈ t.vars, Identifier uc v.name.toList) (rest : List Tok)
    (hrest : Turns uc false rest) : Turns uc true (t.render ++ rest) := by
  induction t generalizing rest with
  | var v => exact .inr ⟨.inl ⟨_, hvars v List.mem_cons_self, rfl⟩, hrest⟩
  | const c => exact .inr ⟨.inr ⟨c, rfl⟩, hrest⟩
  | bin op lhs rhs ihl ihr =>
      rw [Tree.render, List.append_assoc]
      refine Turns.parens (ihl fun v hv => hvars v (List.mem_append_left _ hv)) (.inr ⟨⟨op.text, ?_, rfl⟩, ?_⟩)
      · cases op <;> decide
      · exact Turns.parens (ihr fun v hv => hvars v (List.mem_append_right _ hv)) hrest
  | cond c then_ els ihc iht ihe =>
      rw [Tree.render, List.append_assoc]
      refine Turns.parens (ihc fun v hv => hvars v (List.mem_append_left _ hv)) (.inr ⟨⟨"?", by decide, rfl⟩, ?_⟩)
      rw [List.append_eq, List.append_assoc]
      refine iht (fun v hv => hvars v (List.mem_append_right _ (List.mem_append_left _ hv))) _ (.inr ⟨⟨":", by decide, rfl⟩, ?_⟩)
      exact Turns.parens (ihe fun v hv => hvars v (List.mem_append_right _ (List.mem_append_right _ hv))) hrest

theorem tokens_cons (l : Lexeme) (text : Text) (ls : Lexemes) : tokens ((l, text) :: ls) = tokens [(l, text)] ++ tokens ls :=
  List.filterMap_append (l := [(l, text)])

theorem spans_blanks {blanks q : Text} {ls : Lexemes} (hb : ∀ c ∈ blanks, isspace c = true) (h : spans uc q = some ls) :
    ∃ ls', spans uc (blanks ++ q) = some ls' ∧ tokens ls' = tokens ls := by
  induction blanks with
  | nil => exact ⟨ls, h, rfl⟩
  | cons c blanks ih =>
      obtain ⟨ls', hls, htok⟩ := ih fun d hd => hb d (List.mem_cons_of_mem _ hd)
      have hblank : lexeme uc (c :: (blanks ++ q)) = some (.blank, blanks ++ q) := by
        rw [lexeme, if_pos (show headIs isspace (c :: (blanks ++ q)) = true from hb c List.mem_cons_self)]
        rfl
      exact ⟨_, spans_cons hblank (Nat.lt_succ_self _) hls, htok⟩

/-- What a text begins with where an operand or an operator is to come. -/
def Begins (operand : Bool) (p : Text) : Prop :=
  if operand then headIs isSecond p = false else ∀ c q, p = c :: q → isBreak c = true

theorem begins_blank {c : Char} {p : Text} (hc : isspace c = true) (operand : Bool) : Begins operand (c :: p) := by
  have hlt : c.toNat < 128 := by
    rcases Bool.or_eq_true_iff.mp hc with hc | hc
    · rw [of_decide_eq_true hc]
      decide
    · have hle : c.toNat ≤ 13 := of_decide_eq_true (Bool.and_eq_true_iff.mp hc).2
      omega
  have hall : ∀ n < 128, isspace (Char.ofNat n) = true → isSecond (Char.ofNat n) = false ∧ isBreak (Char.ofNat n) = true := by
    decide +kernel
  have hchar := hall c.toNat hlt
  rw [Char.ofNat_toNat] at hchar
  cases operand with
  | true => exact (hchar hc).1
  | false =>
      intro d q hd
      obtain ⟨rfl, -⟩ := List.cons.inj hd
      exact (hchar hc).2

/-- A token where its turn is: what it begins with, and what `lexeme` makes of it. -/
structure Lexes (uc : Unicode) (before : Bool) (t : Tok) (after : Bool) : Prop where
  begins : ∀ p, Begins before (t.2 ++ p)
  nonempty : t.2 ≠ []
  lexeme : ∀ r, Begins after r → lexeme uc (t.2 ++ r) = some (.token t.1, r)

theorem lexes_operand {t : Tok} (h : IsOperand uc t) : Lexes uc true t false := by
  rcases h with ⟨w, hw, rfl⟩ | ⟨c, rfl⟩
  · have hhead := hw.head (f := isSecond) (by decide +kernel)
    obtain ⟨d, q, rfl, hd⟩ := hhead
    exact ⟨fun p => hd, List.cons_ne_nil d q, fun r hr => lexeme_identifier hw hr⟩
  · obtain ⟨d, w, htext, hd⟩ := c.head_digit
    have hsecond : isSecond d = false := by
      have hall : ∀ n < 128, isdigit (Char.ofNat n) = true → isSecond (Char.ofNat n) = false := by decide +kernel
      have hle : d ≤ '9' := of_decide_eq_true (Bool.and_eq_true_iff.mp hd).2
      have hle : d.toNat ≤ 57 := hle
      have hchar := hall d.toNat (by omega)
      rw [Char.ofNat_toNat] at hchar
      exact hchar hd
    refine ⟨fun p => ?_, ?_, fun r hr => lexeme_constant c hr⟩
    · show headIs isSecond (c.text ++ p) = false
      rw [htext]
      exact hsecond
    · show c.text ≠ []
      rw [htext]
      exact List.cons_ne_nil d w

theorem begins_of_head {text : String} {operand : Bool} {d : Char} {w : Text} (heq : text.toList = d :: w)
    (h : if operand then isSecond d = false else isBreak d = true) (p : Text) : Begins operand (text.toList ++ p) := by
  rw [heq]
  cases operand with
  | true => exact h
  | false =>
      intro c q hc
      obtain ⟨rfl, -⟩ := List.cons.inj hc
      exact h

theorem lexes_open : Lexes uc true (punct "(") true :=
  ⟨begins_of_head rfl rfl, by decide, fun r _ => lexeme_paren (by decide) r⟩

theorem lexes_close : Lexes uc false (punct ")") false :=
  ⟨begins_of_head rfl rfl, by decide, fun r _ => lexeme_paren (by decide) r⟩

theorem lexes_operator {op : String} (h : op ∈ opTexts) : Lexes uc false (punct op) true := by
  have hall : ∀ op ∈ opTexts, op.toList.head?.any isBreak = true := by decide
  have hhead := hall op h
  cases hw : op.toList with
  | nil =>
      rw [hw] at hhead
      exact absurd hhead nofun
  | cons d w =>
      rw [hw] at hhead
      exact ⟨begins_of_head hw hhead, by show op.toList ≠ []; rw [hw]; exact List.cons_ne_nil d w,
        fun r hr => lexeme_operator h hr⟩

/-- The tokens of the text are those it was written from. -/
theorem spans_spells {operand : Bool} {tok : List Tok} {p : Text} (hturns : Turns uc operand tok) (hp : Spells tok p) :
    Begins operand p ∧ ∃ ls, spans uc p = some ls ∧ tokens ls = tok := by
  induction tok generalizing operand p with
  | nil =>
      cases operand with
      | true => exact absurd hturns nofun
      | false =>
          refine ⟨?_, ?_⟩
          · intro c q hq
            subst hq
            exact begins_blank (hp c List.mem_cons_self) false c q rfl
          · have h := spans_blanks hp (spans_nil uc)
            rw [List.append_nil] at h
            exact h
  | cons t tok ih =>
      obtain ⟨blanks, rest, hblanks, rfl, hrest⟩ := hp
      obtain ⟨after, hlex, hafter⟩ : ∃ after, Lexes uc operand t after ∧ Turns uc after tok := by
        cases operand with
        | true =>
            rcases hturns with ⟨rfl, h⟩ | ⟨ht, h⟩
            · exact ⟨true, lexes_open, h⟩
            · exact ⟨false, lexes_operand ht, h⟩
        | false =>
            rcases hturns with ⟨rfl, h⟩ | ⟨⟨op, hop, rfl⟩, h⟩
            · exact ⟨false, lexes_close, h⟩
            · exact ⟨true, lexes_operator hop, h⟩
      obtain ⟨hbegins, ls, hls, htok⟩ := ih hafter hrest
      refine ⟨?_, ?_⟩
      · cases blanks with
        | nil => exact hlex.begins rest
        | cons c blanks => exact begins_blank (hblanks c List.mem_cons_self) operand
      · have hlen : rest.length < (t.2 ++ rest).length := by
          have hpos := List.length_pos_of_ne_nil hlex.nonempty
          rw [List.length_append]
          omega
        obtain ⟨ls', hls', htok'⟩ := spans_blanks hblanks (spans_cons (hlex.lexeme rest hbegins) hlen hls)
        refine ⟨ls', hls', ?_⟩
        rw [htok', tokens_cons, htok, between_append]
        rfl

/-- The tokens of the list that `tokenize` makes, as the parser looks at them. -/
def toks (s : Tokenizer) : List Tok := s.tokens.reverse.map fun p => (p.2.kind, p.2.text)

theorem toks_run (s : Tokenizer) (ls : Lexemes) : toks (ls.foldl Tokenizer.step s) = toks s ++ tokens ls := by
  induction ls generalizing s with
  | nil => exact (List.append_nil _).symm
  | cons x ls ih =>
      obtain ⟨l, text⟩ := x
      have hstep : toks (s.step (l, text)) = toks s ++ tokens [(l, text)] := by
        have hmade : ((made s (l, text)).map fun t => (t.kind, t.text)).toList = tokens [(l, text)] := by
          cases l with
          | string val pre counted => cases pre <;> rfl
          | blank | comment | directive | marker _ _ _ _ | token _ | char _ _ => rfl
        rw [toks, tokens_step, List.reverse_append, List.map_append, ← hmade]
        cases made s (l, text) <;> rfl
      rw [List.foldl_cons, ih, hstep, List.append_assoc, tokens_cons l text ls]

theorem tokenize_spells {tok : List Tok} {p : Text} (hturns : Turns uc true tok) (hp : Spells tok p) (filename : Text) :
    ∃ s, tokenize uc filename p = some s ∧ toks s = tok ++ [(.eof, [])] := by
  obtain ⟨_, ls, hls, htok⟩ := spans_spells hturns hp
  refine ⟨_, tokenize_of_spans hls, ?_⟩
  show ((_, _) :: (ls.foldl Tokenizer.step (.start filename)).tokens).reverse.map _ = _
  rw [List.reverse_cons, List.map_append]
  show toks (ls.foldl Tokenizer.step (.start filename)) ++ _ = _
  rw [toks_run, htok]
  rfl

/-! ## The round trip -/

/-- A variable that can be declared and is found. -/
structure Known (uc : Unicode) (s : Names) (v : LVar) : Prop where
  identifier : Identifier uc v.name.toList
  word : v.name ∉ exprWords
  found : s.findVar v.name = some v

/-- A text of the expression has its tokens; from these `expr` builds its tree and goes no
further; and `check_type`, which has been over what stood in parentheses, makes of it
what it makes of the tree. -/
structure RoundTrip (uc : Unicode) (s : Names) (t : Tree) : Prop where
  tokens : ∀ filename p, Spells t.render p → ∃ st, tokenize uc filename p = some st ∧ toks st = t.render ++ [(.eof, [])]
  parses : ∀ rest, Stop 0 rest → ∃ N, ∀ n, N ≤ n → expr s n (t.render ++ rest) = some (t.node, rest)
  types : check t.node = (checkType t.raw).map (Node.map some)

theorem Known.leads {s : Names} {v : LVar} (h : Known uc s v) : Leads (.ident v.name.toList, v.name.toList) := by
  intro op hop heq
  rcases List.mem_append.mp hop with hop | hop
  · exact h.word (String.toList_inj.mp heq ▸ hop)
  · obtain ⟨d, q, hd, hno⟩ := h.identifier.head (f := fun c => ['+', '-', '!', '~', '&', '*', '(', '\x7b'].any (c = ·))
      (by decide +kernel)
    have hall : ∀ op ∈ ["++", "--", "+", "-", "!", "~", "&", "*", "(", "\x7b"],
        op.toList.head?.any (fun c => ['+', '-', '!', '~', '&', '*', '(', '\x7b'].any (c = ·)) = true := by decide
    have hhead := hall op hop
    rw [← heq, hd] at hhead
    exact absurd (hno.symm.trans hhead) nofun

theorem leading_of_known {s : Names} {t : Tree} (h : ∀ v ∈ t.vars, Known uc s v) : t.Leading := fun v hv => (h v hv).leads

theorem clear_of_roundTrip {s : Names} {t : Tree} (h : ∀ v ∈ t.vars, Known uc s v) (hround : RoundTrip uc s t) : Clear s t := by
  obtain ⟨N, hN⟩ := hround.parses [] fun _ _ => rfl
  have hexpr := hN (N + (t.size + 2)) (Nat.le_add_right N _)
  rw [expr_render (leading_of_known h) (Nat.le_add_left _ N) fun _ _ => rfl] at hexpr
  obtain ⟨node, hnode, heq⟩ := Option.map_eq_some_iff.mp hexpr
  rw [(Prod.mk.inj heq).1] at hnode
  exact (read_eq_node_iff fun v hv => (h v hv).found).mp hnode

theorem roundTrip_of_clear {s : Names} {t : Tree} (h : ∀ v ∈ t.vars, Known uc s v) (hclear : Clear s t) : RoundTrip uc s t := by
  refine ⟨fun filename p hp => ?_, fun rest hrest => ⟨t.size + 2, fun n hn => ?_⟩, check_node t⟩
  · have hturns := turns_render (fun v hv => (h v hv).identifier) [] trivial
    rw [List.append_nil] at hturns
    exact tokenize_spells hturns hp filename
  · rw [expr_render (leading_of_known h) hn hrest, read_clear (fun v hv => (h v hv).found) hclear]
    rfl

/-- An expression comes back exactly where no variable in it has the name of an enumeration
constant, and none behind an opening parenthesis that of a typedef. -/
theorem roundTrip_iff_clear {s : Names} {t : Tree} (h : ∀ v ∈ t.vars, Known uc s v) : RoundTrip uc s t ↔ Clear s t :=
  ⟨clear_of_roundTrip h, roundTrip_of_clear h⟩

/-- `(x + 1) * 2` -/
theorem sum_times_two_roundTrip : RoundTrip ⟨fun _ => false, fun _ => false, fun _ _ h => absurd h Bool.false_ne_true⟩
    ⟨[⟨0, "x", 4, tyInt, true⟩], [], [], []⟩
    (.bin .mul (.bin .add (.var ⟨0, "x", 4, tyInt, true⟩) (.const ⟨[], ['1'], [], by decide, by decide, by decide, by decide, by decide⟩))
      (.const ⟨[], ['2'], [], by decide, by decide, by decide, by decide, by decide⟩)) := by
  refine (roundTrip_iff_clear ?_).mpr ⟨?_, ?_⟩
  · intro v hv
    obtain rfl := List.mem_singleton.mp hv
    exact ⟨⟨120, [], rfl, .inl ⟨by decide, rfl⟩, nofun⟩, by decide, rfl⟩
  · decide
  · decide

/-- A variable `T` in the scope of a typedef `T`: `(T + 1) * 2` is taken for a cast. -/
theorem shadowed_typedef_no_roundTrip : ¬ ∀ (uc : Unicode) (s : Names) (t : Tree), (∀ v ∈ t.vars, Known uc s v) →
    RoundTrip uc s t := by
  intro h
  have hknown : ∀ v ∈ [(⟨0, "T", 4, tyInt, true⟩ : LVar)], Known ⟨fun _ => false, fun _ => false, fun _ _ h => absurd h Bool.false_ne_true⟩
      ⟨[⟨0, "T", 4, tyInt, true⟩], [], [⟨"T", tyInt⟩], []⟩ v := by
    intro v hv
    obtain rfl := List.mem_singleton.mp hv
    exact ⟨⟨84, [], rfl, .inl ⟨by decide, rfl⟩, nofun⟩, by decide, rfl⟩
  have hround := h _ _ (.bin .mul (.bin .add (.var ⟨0, "T", 4, tyInt, true⟩)
    (.const ⟨[], ['1'], [], by decide, by decide, by decide, by decide, by decide⟩))
      (.const ⟨[], ['2'], [], by decide, by decide, by decide, by decide, by decide⟩)) hknown
  refine absurd ((clear_of_roundTrip ?_ hround).groups _ List.mem_cons_self) (by decide)
  exact hknown

end Rcc.Parser

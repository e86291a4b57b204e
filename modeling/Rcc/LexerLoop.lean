import Rcc.LexerLines
import Rcc.Loops

/-!
# Does the tokenizer come to an end?

Each iteration of the loop of `tokenize` goes on behind what it came upon, but one: at a
byte of 128 and more it goes on where it is, when `is32_ident1` does not take the
character that is there or `decode_utf8` has not moved. So the loop ends just when it
never comes to such a place.

Here `decode_utf8` is only known on the bytes below 128.
-/

namespace Rcc.Lexer

open Loops (Ends Reached Advances AdvancesOrStays)

/-- `decode_utf8`, which reports an error or gives a character and how far it has moved,
with `is32_ident1` and `is32_ident2`. -/
structure Decoder where
  decode : Text → Option (Nat × Nat)
  ident1 : Nat → Bool
  ident2 : Nat → Bool
  decode_nil : decode [] = some (0, 1)
  decode_ascii : ∀ (c : Char) (p : Text), c.toNat < 128 → decode (c :: p) = some (c.toNat, 1)
  ascii : ∀ c < 128, ident2 c = true → isIdent2 (Char.ofNat c) = true

/-- What `unicode.c` has. -/
def Unicode.decoder (uc : Unicode) : Decoder where
  decode := decodeUtf8
  ident1 := uc.ident1
  ident2 := uc.ident2
  decode_nil := rfl
  decode_ascii := fun _ _ h => if_pos h
  ascii := uc.ascii

/-! ## The loops -/

/-- An iteration of the loop over an identifier. -/
def identStep (d : Decoder) (p : Text) : Option Text :=
  (d.decode p).bind fun (c, len) => if headIs isIdent2 p || (d.ident2 c && len ≠ 0) then some (p.drop len) else none

/-- The loop over an identifier; there is no result where an error is reported. -/
def identLoop (d : Decoder) : Nat → Text → Option Text
  | 0, _ => none
  | n + 1, p =>
      (d.decode p).bind fun (c, len) =>
        if headIs isIdent2 p || (d.ident2 c && len ≠ 0) then identLoop d n (p.drop len) else some p

/-- An iteration of the loop over a string. -/
def stringStep (p : Text) : Option Text :=
  if p = [] || headIs (fun c => c = '"' || c = '\n') p then none else (stringChar p).map Prod.snd

/-- An iteration of the loop over the strings that are concatenated. -/
def piecesStep (p : Text) : Option Text :=
  (stringBody (p.length + 1) p).bind fun (_, rest) =>
    let q := rest.dropWhile isspace
    let q := if headIs isPrefixChar q && headIs (· = '"') q.tail then q.tail else q
    match q with
    | '"' :: p => some p
    | _ => none

/-- An iteration of the loop over a character constant. -/
def charStep : Text → Option Text
  | [] => none
  | c :: p =>
      if c = '\'' || c = '\n' then none
      else if c = '\\' then (readEscapedChar p).map Prod.snd else some p

/-- The loops within an iteration of the loop of `tokenize`. -/
inductive InnerLoop where
  | identifier | string | pieces | char

def InnerLoop.step (d : Decoder) : InnerLoop → Text → Option Text
  | .identifier => identStep d
  | .string => stringStep
  | .pieces => piecesStep
  | .char => charStep

/-- An iteration of the loop of `tokenize`. At the end of the text it returns, and where an
error is reported there is nothing to go on with either. -/
def turn (d : Decoder) (p : Text) : Option Text :=
  if p = [] then none
  else if headIs isspace p then some p.tail
  else
    match if headIs (· = '#') p then hash p else none with
    | some r => some r.2
    | none =>
        if startswith p "//" then some (p.dropWhile (· ≠ '\n'))
        else if startswith p "/*" then afterComment (p.drop 2)
        else if headIs isdigit p || (headIs (· = '.') p && headIs isdigit p.tail) then some (number p).2
        else if headIs (fun c => 128 ≤ c.toNat) p then
          (d.decode p).bind fun (c, len) =>
            if ! d.ident1 c || len = 0 then some p else identLoop d (p.length + 1) (p.drop len)
        else if headIs isIdent1 p && ! (headIs isPrefixChar p &&
            headIs (fun c => c = '"' || c = '\'') p.tail) then identLoop d (p.length + 1) (p.drop 1)
        else (quoted p).map Prod.snd

/-! ## What the inner loops consume -/

theorem length_drop_lt {p : Text} {n : Nat} (hp : p ≠ []) (hn : n ≠ 0) : (p.drop n).length < p.length := by
  have hlength := List.length_pos_of_ne_nil hp
  rw [List.length_drop]
  omega

theorem isdigit_ascii {c : Char} (h : isdigit c = true) : c.toNat < 128 := by
  have hle : c ≤ '9' := of_decide_eq_true (Bool.and_eq_true_iff.mp h).2
  have hle : c.toNat ≤ 57 := hle
  omega

theorem isIdent2_ascii {c : Char} (h : isIdent2 c = true) : c.toNat < 128 := by
  have hrange : ∀ d e : Char, (decide (d ≤ c) && decide (c ≤ e)) = true → e.toNat < 128 → c.toNat < 128 := by
    intro d e hle he
    have hle : c.toNat ≤ e.toNat := of_decide_eq_true (Bool.and_eq_true_iff.mp hle).2
    omega
  rcases Bool.or_eq_true_iff.mp h with hident | hdigit
  · rcases Bool.or_eq_true_iff.mp hident with hident | hdollar
    · rcases Bool.or_eq_true_iff.mp hident with hident | hunder
      · rcases Bool.or_eq_true_iff.mp hident with hlower | hupper
        · exact hrange 'a' 'z' hlower (by decide)
        · exact hrange 'A' 'Z' hupper (by decide)
      · rw [of_decide_eq_true hunder]
        decide
    · rw [of_decide_eq_true hdollar]
      decide
  · exact isdigit_ascii hdigit

/-- Where an identifier goes on, `decode_utf8` has moved, and not behind the end of the text. -/
theorem ident_moves {d : Decoder} {p : Text} {c len : Nat} (hdecode : d.decode p = some (c, len))
    (h : (headIs isIdent2 p || (d.ident2 c && len ≠ 0)) = true) : p ≠ [] ∧ len ≠ 0 := by
  cases p with
  | nil =>
      rw [d.decode_nil] at hdecode
      obtain ⟨rfl, rfl⟩ := Prod.mk.inj (Option.some_inj.mp hdecode)
      rcases Bool.or_eq_true_iff.mp h with hident | hident
      · exact absurd hident nofun
      · exact absurd (d.ascii 0 (by decide) (Bool.and_eq_true_iff.mp hident).1) (by decide)
  | cons b p =>
      refine ⟨List.cons_ne_nil b p, ?_⟩
      rcases Bool.or_eq_true_iff.mp h with hident | hident
      · have hb : isIdent2 b = true := hident
        rw [d.decode_ascii b p (isIdent2_ascii hb)] at hdecode
        obtain ⟨_, rfl⟩ := Prod.mk.inj (Option.some_inj.mp hdecode)
        exact Nat.one_ne_zero
      · exact of_decide_eq_true (Bool.and_eq_true_iff.mp hident).2

theorem identStep_advances (d : Decoder) : Advances List.length (identStep d) := by
  intro p q h
  obtain ⟨⟨c, len⟩, hdecode, h⟩ := Option.bind_eq_some_iff.mp h
  obtain ⟨hident, h⟩ := Option.ite_none_right_eq_some.mp h
  obtain rfl := Option.some_inj.mp h
  obtain ⟨hp, hlen⟩ := ident_moves hdecode hident
  exact length_drop_lt hp hlen

theorem readEscapedChar_shorter {p rest : Text} {v : Char} (h : readEscapedChar p = some (v, rest)) : rest.length < p.length := by
  cases p with
  | nil => cases h
  | cons c p =>
      rw [readEscapedChar] at h
      split at h
      · split at h
        · obtain ⟨-, rfl⟩ := Prod.mk.inj (Option.some_inj.mp h)
          exact Nat.lt_succ_of_le (List.dropWhile_sublist isxdigit).length_le
        · cases h
      · simp only at h
        split at h
        · next hoctal =>
            obtain ⟨-, rfl⟩ := Prod.mk.inj (Option.some_inj.mp h)
            exact length_drop_lt (List.cons_ne_nil c p) fun hzero => hoctal (List.eq_nil_of_length_eq_zero hzero)
        · obtain ⟨-, rfl⟩ := Prod.mk.inj (Option.some_inj.mp h)
          exact Nat.lt_succ_self _

theorem stringChar_shorter {p rest val : Text} (h : stringChar p = some (val, rest)) : rest.length < p.length := by
  have huniversal : ∀ {n : Nat} {q : Text}, stringChar.universal n q = some (val, rest) → rest.length ≤ q.length := by
    intro n q hval
    obtain ⟨-, hval⟩ := Option.ite_none_right_eq_some.mp hval
    obtain ⟨-, rfl⟩ := Prod.mk.inj (Option.some_inj.mp hval)
    exact (List.drop_sublist n q).length_le
  rw [stringChar.eq_def] at h
  split at h
  · exact Nat.lt_succ_of_lt (Nat.lt_succ_of_le (huniversal h))
  · exact Nat.lt_succ_of_lt (Nat.lt_succ_of_le (huniversal h))
  · obtain ⟨⟨v, r⟩, hread, h⟩ := Option.map_eq_some_iff.mp h
    obtain ⟨-, rfl⟩ := Prod.mk.inj h
    exact Nat.lt_succ_of_lt (readEscapedChar_shorter hread)
  · obtain ⟨-, rfl⟩ := Prod.mk.inj (Option.some_inj.mp h)
    exact Nat.lt_succ_self _
  · cases h

theorem stringStep_advances : Advances List.length stringStep := by
  intro p q h
  obtain ⟨-, h⟩ := Option.ite_none_left_eq_some.mp h
  obtain ⟨⟨val, rest⟩, hchar, rfl⟩ := Option.map_eq_some_iff.mp h
  exact stringChar_shorter hchar

theorem stringBody_shorter {n : Nat} {p rest val : Text} (h : stringBody n p = some (val, rest)) : rest.length < p.length := by
  induction n generalizing p val with
  | zero => cases h
  | succ n ih =>
      cases p with
      | nil => cases h
      | cons c p =>
          rw [stringBody] at h
          split at h
          · obtain ⟨-, rfl⟩ := Prod.mk.inj (Option.some_inj.mp h)
            exact Nat.lt_succ_self _
          split at h
          · cases h
          · obtain ⟨⟨v, q⟩, hchar, h⟩ := Option.bind_eq_some_iff.mp h
            obtain ⟨⟨vals, r⟩, hbody, h⟩ := Option.map_eq_some_iff.mp h
            obtain ⟨-, rfl⟩ := Prod.mk.inj h
            exact Nat.lt_trans (ih hbody) (stringChar_shorter hchar)

/-- Where the next string begins, if there is one. -/
theorem nextString_le (rest : Text) : (if headIs isPrefixChar (rest.dropWhile isspace) && headIs (· = '"') (rest.dropWhile isspace).tail
    then (rest.dropWhile isspace).tail else rest.dropWhile isspace).length ≤ rest.length := by
  have hle := (List.dropWhile_sublist isspace (l := rest)).length_le
  split
  · exact Nat.le_trans (List.tail_sublist _).length_le hle
  · exact hle

theorem piecesStep_advances : Advances List.length piecesStep := by
  intro p q h
  obtain ⟨⟨val, rest⟩, hbody, h⟩ := Option.bind_eq_some_iff.mp h
  have hshorter := stringBody_shorter hbody
  have hle := nextString_le rest
  simp only at h
  split at h
  · next q' heq =>
      obtain rfl := Option.some_inj.mp h
      rw [heq, List.length_cons] at hle
      omega
  · exact absurd h nofun

theorem charStep_advances : Advances List.length charStep := by
  intro p q h
  cases p with
  | nil => exact absurd h nofun
  | cons c p =>
      rw [charStep] at h
      split at h
      · exact absurd h nofun
      split at h
      · obtain ⟨⟨v, rest⟩, hread, rfl⟩ := Option.map_eq_some_iff.mp h
        exact Nat.lt_succ_of_lt (readEscapedChar_shorter hread)
      · obtain rfl := Option.some_inj.mp h
        exact Nat.lt_succ_self _

theorem InnerLoop.ends (d : Decoder) (loop : InnerLoop) (p : Text) : Ends (loop.step d) p := by
  cases loop with
  | identifier => exact (identStep_advances d).ends p
  | string => exact stringStep_advances.ends p
  | pieces => exact piecesStep_advances.ends p
  | char => exact charStep_advances.ends p

/-! ## What an iteration consumes -/

theorem identLoop_le {d : Decoder} {n : Nat} {p rest : Text} (h : identLoop d n p = some rest) : rest.length ≤ p.length := by
  induction n generalizing p with
  | zero => exact absurd h nofun
  | succ n ih =>
      obtain ⟨⟨c, len⟩, hdecode, h⟩ := Option.bind_eq_some_iff.mp h
      simp only at h
      split at h
      · exact Nat.le_trans (ih h) (List.drop_sublist len p).length_le
      · rw [Option.some_inj.mp h]

theorem stringPieces_shorter {n counted : Nat} {p rest val : Text} (h : stringPieces n p = some (val, rest, counted)) :
    rest.length < p.length := by
  induction n generalizing p val counted with
  | zero => exact absurd h nofun
  | succ n ih =>
      obtain ⟨⟨v, rest'⟩, hbody, h⟩ := Option.bind_eq_some_iff.mp h
      have hshorter := stringBody_shorter hbody
      have hle := nextString_le rest'
      simp only at h
      split at h
      · next q heq =>
          obtain ⟨⟨vals, r, more⟩, hpieces, h⟩ := Option.map_eq_some_iff.mp h
          obtain ⟨-, h⟩ := Prod.mk.inj h
          obtain ⟨rfl, -⟩ := Prod.mk.inj h
          have hih := ih hpieces
          rw [heq, List.length_cons] at hle
          omega
      · obtain ⟨-, h⟩ := Prod.mk.inj (Option.some_inj.mp h)
        obtain ⟨rfl, -⟩ := Prod.mk.inj h
        exact hshorter

theorem charBody_shorter {n : Nat} {last c : Char} {p rest : Text} (h : charBody n last p = some (c, rest)) :
    rest.length < p.length := by
  induction n generalizing p last with
  | zero => cases h
  | succ n ih =>
      cases p with
      | nil => cases h
      | cons d p =>
          rw [charBody] at h
          split at h
          · obtain ⟨-, rfl⟩ := Prod.mk.inj (Option.some_inj.mp h)
            exact Nat.lt_succ_self _
          split at h
          · cases h
          split at h
          · obtain ⟨⟨v, q⟩, hread, hbody⟩ := Option.bind_eq_some_iff.mp h
            exact Nat.lt_succ_of_lt (Nat.lt_trans (ih hbody) (readEscapedChar_shorter hread))
          · exact Nat.lt_succ_of_lt (ih h)

theorem quoted_shorter {p rest : Text} {l : Lexeme} (hp : p ≠ []) (h : quoted p = some (l, rest)) : rest.length < p.length := by
  have htail : p.tail.tail.length < p.length := by
    have hlt := length_drop_lt hp Nat.one_ne_zero
    rw [List.drop_one] at hlt
    exact Nat.lt_of_le_of_lt (List.tail_sublist p.tail).length_le hlt
  rw [quoted] at h
  split at h
  · obtain ⟨⟨val, rest', counted⟩, hpieces, h⟩ := Option.map_eq_some_iff.mp h
    obtain ⟨-, rfl⟩ := Prod.mk.inj h
    exact Nat.lt_of_lt_of_le (stringPieces_shorter hpieces) (List.tail_sublist p).length_le
  split at h
  · obtain ⟨⟨val, rest', counted⟩, hpieces, h⟩ := Option.map_eq_some_iff.mp h
    obtain ⟨-, rfl⟩ := Prod.mk.inj h
    exact Nat.lt_trans (stringPieces_shorter hpieces) htail
  split at h
  · obtain ⟨⟨c, rest'⟩, hbody, h⟩ := Option.map_eq_some_iff.mp h
    obtain ⟨-, rfl⟩ := Prod.mk.inj h
    exact Nat.lt_of_lt_of_le (charBody_shorter hbody)
      (Nat.le_trans (List.tail_sublist _).length_le (List.drop_sublist _ p).length_le)
  split at h
  · cases h
  · next hpunct =>
      obtain ⟨-, rfl⟩ := Prod.mk.inj (Option.some_inj.mp h)
      exact length_drop_lt hp hpunct

theorem dropLine_shorter {c : Char} {p : Text} (hc : c ≠ '\n') : ((c :: p).dropWhile (· ≠ '\n')).length < (c :: p).length := by
  rw [List.dropWhile_cons_of_pos (by simpa using hc)]
  exact Nat.lt_succ_of_le (List.dropWhile_sublist _).length_le

theorem hash_shorter {p rest : Text} {l : Lexeme} (hp : headIs (· = '#') p = true) (h : hash p = some (l, rest)) :
    rest.length < p.length := by
  cases p with
  | nil => exact absurd hp nofun
  | cons c p =>
      obtain rfl : c = '#' := of_decide_eq_true hp
      rw [hash] at h
      simp only at h
      split at h
      · obtain ⟨-, rfl⟩ := Prod.mk.inj (Option.some_inj.mp h)
        refine Nat.lt_succ_of_le (List.Sublist.length_le ?_)
        exact (List.dropWhile_sublist _).trans ((List.tail_sublist _).trans ((List.dropWhile_sublist _).trans
          ((List.tail_sublist _).trans ((List.dropWhile_sublist _).trans ((List.dropWhile_sublist _).trans
            (List.dropWhile_sublist _))))))
      · obtain ⟨_, h⟩ := Option.ite_none_left_eq_some.mp h
        obtain ⟨-, rfl⟩ := Prod.mk.inj (Option.some_inj.mp h)
        exact Nat.lt_of_le_of_lt (List.tail_sublist _).length_le (dropLine_shorter (by decide))

theorem decimal_shorter {c : Char} {p : Text} (h : (isdigit c || (c = '.' && headIs isdigit p)) = true) :
    (decimal (c :: p)).2.length < (c :: p).length := by
  by_cases hc : isdigit c = true
  · rw [decimal, List.dropWhile_cons_of_pos hc]
    have hpast := (past_numberRest (! headIs (· = '.') (p.dropWhile isdigit).tail) (show isdigit '\n' = false by decide)
      (show 'e' ≠ '\n' by decide) (show 'E' ≠ '\n' by decide) (p.dropWhile isdigit)).suffix.length_le
    exact Nat.lt_succ_of_le (Nat.le_trans hpast (List.dropWhile_sublist isdigit).length_le)
  · rw [Bool.not_eq_true] at hc
    rw [hc, Bool.false_or] at h
    obtain ⟨hpoint, hdigit⟩ := Bool.and_eq_true_iff.mp h
    obtain rfl := of_decide_eq_true hpoint
    have hmay : headIs (· = '.') p = false := by
      cases p with
      | nil => rfl
      | cons d p =>
          refine decide_eq_false fun hd => ?_
          subst hd
          exact absurd (show isdigit '.' = true from hdigit) (by decide)
    rw [decimal, List.dropWhile_cons_of_neg (by rw [hc]; exact Bool.false_ne_true), List.tail_cons, hmay]
    show (suffix _ (exponent 'e' 'E' (p.dropWhile isdigit)).2).2.length < _
    have hexponent := (past_exponent (show 'e' ≠ '\n' by decide) (show 'E' ≠ '\n' by decide) (p.dropWhile isdigit)).suffix.length_le
    have hsuffix := (past_suffix ((fraction true isdigit ('.' :: p)).1 || (exponent 'e' 'E' (p.dropWhile isdigit)).1)
      (exponent 'e' 'E' (p.dropWhile isdigit)).2).suffix.length_le
    have hdrop := (List.dropWhile_sublist isdigit (l := p)).length_le
    exact Nat.lt_succ_of_le (Nat.le_trans hsuffix (Nat.le_trans hexponent hdrop))

theorem number_shorter {p : Text} (h : (headIs isdigit p || (headIs (· = '.') p && headIs isdigit p.tail)) = true) :
    (number p).2.length < p.length := by
  cases p with
  | nil => exact absurd h nofun
  | cons c p =>
      have hdecimal := decimal_shorter (show (isdigit c || (c = '.' && headIs isdigit p)) = true from h)
      rw [number.eq_def]
      split
      · next x rest heq =>
          have hlength : rest.length < (c :: p).length := by
            rw [heq]
            exact Nat.lt_succ_of_lt (Nat.lt_succ_self _)
          split
          · have hpast := (past_numberRest true (show isxdigit '\n' = false by decide) (show 'p' ≠ '\n' by decide)
              (show 'P' ≠ '\n' by decide) (rest.dropWhile isxdigit)).suffix.length_le
            exact Nat.lt_of_le_of_lt (Nat.le_trans hpast (List.dropWhile_sublist _).length_le) hlength
          split
          · have hpast := (past_suffix false (rest.dropWhile fun c => c = '0' || c = '1')).suffix.length_le
            exact Nat.lt_of_le_of_lt (Nat.le_trans hpast (List.dropWhile_sublist _).length_le) hlength
          · exact hdecimal
      · exact hdecimal

/-! ## An iteration -/

/-- The place where the loop stands still. -/
def Stuck (d : Decoder) (p : Text) : Prop :=
  headIs (fun c => 128 ≤ c.toNat) p = true ∧ ∃ c len, d.decode p = some (c, len) ∧ (d.ident1 c = false ∨ len = 0)

theorem turn_shorter {d : Decoder} {p q : Text} (h : turn d p = some q) : Stuck d p ∧ q = p ∨ q.length < p.length := by
  rw [turn] at h
  split at h
  · exact absurd h nofun
  next hp =>
    have htail : p.tail.length < p.length := by
      rw [← List.drop_one]
      exact length_drop_lt hp Nat.one_ne_zero
    split at h
    · obtain rfl := Option.some_inj.mp h
      exact .inr htail
    split at h
    · next r hhash =>
        obtain rfl := Option.some_inj.mp h
        split at hhash
        · next hsharp => exact .inr (hash_shorter hsharp hhash)
        · exact absurd hhash nofun
    split at h
    · next hcomment =>
        obtain rfl := Option.some_inj.mp h
        obtain ⟨rest, rfl⟩ := List.isPrefixOf_iff_prefix.mp hcomment
        exact .inr (dropLine_shorter (by decide))
    split at h
    · have hle := (afterComment_suffix h).length_le
      exact .inr (Nat.lt_of_le_of_lt hle (length_drop_lt hp (by decide)))
    split at h
    · next hnumber =>
        obtain rfl := Option.some_inj.mp h
        exact .inr (number_shorter hnumber)
    split at h
    · next h128 =>
        obtain ⟨⟨c, len⟩, hdecode, h⟩ := Option.bind_eq_some_iff.mp h
        simp only at h
        split at h
        · next hstuck =>
            refine .inl ⟨⟨h128, c, len, hdecode, ?_⟩, (Option.some_inj.mp h).symm⟩
            rcases Bool.or_eq_true_iff.mp hstuck with hident | hlen
            · exact .inl (Bool.not_eq_true' _ ▸ hident)
            · exact .inr (of_decide_eq_true hlen)
        · next hmoves =>
            rw [Bool.or_eq_true, not_or] at hmoves
            exact .inr (Nat.lt_of_le_of_lt (identLoop_le h) (length_drop_lt hp fun hlen => hmoves.2 (decide_eq_true hlen)))
    split at h
    · exact .inr (Nat.lt_of_le_of_lt (identLoop_le h) (length_drop_lt hp Nat.one_ne_zero))
    · obtain ⟨⟨l, rest⟩, hquoted, rfl⟩ := Option.map_eq_some_iff.mp h
      exact .inr (quoted_shorter hp hquoted)

theorem turn_stuck {d : Decoder} {p : Text} (h : Stuck d p) : turn d p = some p := by
  obtain ⟨h128, c, len, hdecode, hnot⟩ := h
  cases p with
  | nil => exact absurd h128 nofun
  | cons b p =>
      have hb : 128 ≤ b.toNat := of_decide_eq_true h128
      have hne : ∀ e : Char, e.toNat < 128 → b ≠ e := by
        rintro e he rfl
        exact absurd hb (Nat.not_le_of_lt he)
      have hspace : isspace b = false := by
        rw [isspace, decide_eq_false (hne ' ' (by decide)), Bool.false_or, Bool.and_eq_false_iff]
        exact .inr (decide_eq_false (by omega))
      have hdigit : isdigit b = false := Bool.eq_false_iff.mpr fun h => absurd hb (Nat.not_le_of_lt (isdigit_ascii h))
      have hslash : ∀ w : String, w.toList.head? = some '/' → startswith (b :: p) w = false := by
        intro w hw
        refine Bool.eq_false_iff.mpr fun hprefix => ?_
        obtain ⟨rest, hrest⟩ := List.isPrefixOf_iff_prefix.mp hprefix
        have hhead := congrArg List.head? hrest
        rw [List.head?_append, hw] at hhead
        exact hne '/' (by decide) (Option.some_inj.mp hhead).symm
      have hstays : (! d.ident1 c || decide (len = 0)) = true := by
        rcases hnot with hident | hlen
        · rw [hident]
          rfl
        · rw [decide_eq_true hlen, Bool.or_true]
      rw [turn, if_neg (List.cons_ne_nil b p), if_neg (by rw [headIs, hspace]; exact Bool.false_ne_true),
        if_neg (by rw [headIs, decide_eq_false (hne '#' (by decide))]; exact Bool.false_ne_true)]
      show (if startswith (b :: p) "//" = true then _ else _) = _
      rw [if_neg (by rw [hslash "//" rfl]; exact Bool.false_ne_true), if_neg (by rw [hslash "/*" rfl]; exact Bool.false_ne_true),
        if_neg (by rw [headIs, hdigit, headIs, decide_eq_false (hne '.' (by decide))]; exact Bool.false_ne_true), if_pos h128, hdecode]
      exact if_pos hstays

/-! ## The bounds of the model -/

/-- A bound above the length of the text is never met. -/
theorem identLoop_congr {d : Decoder} {n m : Nat} {p : Text} (hn : p.length < n) (hm : p.length < m) : identLoop d n p = identLoop d m p := by
  induction n generalizing p m with
  | zero => exact absurd hn (Nat.not_lt_zero _)
  | succ n ih =>
      obtain ⟨m, rfl⟩ := Nat.exists_eq_add_one_of_ne_zero (Nat.ne_zero_of_lt hm)
      rw [identLoop, identLoop]
      refine Option.bind_congr fun ⟨c, len⟩ hdecode => ?_
      dsimp only
      split
      · next hident =>
          obtain ⟨hp, hlen⟩ := ident_moves hdecode hident
          have hlt := length_drop_lt hp hlen
          exact ih (by omega) (by omega)
      · rfl

theorem stringBody_congr {n m : Nat} {p : Text} (hn : p.length < n) (hm : p.length < m) : stringBody n p = stringBody m p := by
  induction n generalizing p m with
  | zero => exact absurd hn (Nat.not_lt_zero _)
  | succ n ih =>
      obtain ⟨m, rfl⟩ := Nat.exists_eq_add_one_of_ne_zero (Nat.ne_zero_of_lt hm)
      cases p with
      | nil => rfl
      | cons c p =>
          rw [stringBody, stringBody]
          split
          · rfl
          split
          · rfl
          · refine Option.bind_congr fun r hchar => ?_
            obtain ⟨val, q⟩ := r
            have hlt := stringChar_shorter hchar
            exact congrArg (Option.map _) (ih (by omega) (by omega))

theorem stringPieces_congr {n m : Nat} {p : Text} (hn : p.length < n) (hm : p.length < m) : stringPieces n p = stringPieces m p := by
  induction n generalizing p m with
  | zero => exact absurd hn (Nat.not_lt_zero _)
  | succ n ih =>
      obtain ⟨m, rfl⟩ := Nat.exists_eq_add_one_of_ne_zero (Nat.ne_zero_of_lt hm)
      rw [stringPieces, stringPieces]
      refine Option.bind_congr fun ⟨val, rest⟩ hbody => ?_
      have hshorter := stringBody_shorter hbody
      have hle := nextString_le rest
      dsimp only
      split
      · next q heq =>
          rw [heq, List.length_cons] at hle
          rw [ih (by omega) (show q.length < m by omega)]
      · rfl

theorem charBody_congr {n m : Nat} {last : Char} {p : Text} (hn : p.length < n) (hm : p.length < m) :
    charBody n last p = charBody m last p := by
  induction n generalizing p m last with
  | zero => exact absurd hn (Nat.not_lt_zero _)
  | succ n ih =>
      obtain ⟨m, rfl⟩ := Nat.exists_eq_add_one_of_ne_zero (Nat.ne_zero_of_lt hm)
      cases p with
      | nil => rfl
      | cons c p =>
          rw [List.length_cons] at hn hm
          rw [charBody, charBody]
          split
          · rfl
          split
          · rfl
          split
          · refine Option.bind_congr fun r hread => ?_
            obtain ⟨v, q⟩ := r
            have hlt := readEscapedChar_shorter hread
            exact ih (Nat.lt_trans hlt (by omega)) (Nat.lt_trans hlt (by omega))
          · exact ih (by omega) (by omega)

/-! ## The lexemes -/

theorem decodeUtf8_moves {p : Text} {c len : Nat} (h : decodeUtf8 p = some (c, len)) : len ≠ 0 := by
  have hmap : ∀ {o : Option Nat} {n : Nat}, n ≠ 0 → o.map (fun x => (x, n)) = some (c, len) → len ≠ 0 := by
    intro o n hn h
    obtain ⟨x, -, hx⟩ := Option.map_eq_some_iff.mp h
    exact (Prod.mk.inj hx).2 ▸ hn
  rw [decodeUtf8.eq_def] at h
  split at h
  · rw [← (Prod.mk.inj (Option.some_inj.mp h)).2]
    exact Nat.one_ne_zero
  · simp only at h
    split at h
    · rw [← (Prod.mk.inj (Option.some_inj.mp h)).2]
      exact Nat.one_ne_zero
    split at h
    · exact hmap (by decide) h
    split at h
    · exact hmap (by decide) h
    split at h
    · exact hmap (by decide) h
    · exact absurd h nofun

theorem identLoop_eq (uc : Unicode) (n : Nat) (p : Text) : identLoop uc.decoder n p = identRest uc n p := by
  induction n generalizing p with
  | zero => rfl
  | succ n ih =>
      rw [identLoop, identRest]
      refine Option.bind_congr fun ⟨c, len⟩ hdecode => ?_
      have hlen : decide (len ≠ 0) = true := decide_eq_true (decodeUtf8_moves hdecode)
      show (if (headIs isIdent2 p || (uc.ident2 c && decide (len ≠ 0))) = true then _ else _) = _
      rw [hlen, Bool.and_true, ih]

theorem identifier_snd (uc : Unicode) (p : Text) (first : Nat) :
    (identifier uc p first).map Prod.snd = identLoop uc.decoder (p.length + 1) (p.drop first) := by
  rw [identifier, Option.map_map, identLoop_eq]
  exact Option.map_id'

/-- An iteration goes on behind the lexeme, where the loop does not stand still. -/
theorem lexeme_snd {uc : Unicode} {p : Text} (hp : p ≠ []) (hstuck : ¬ Stuck uc.decoder p) :
    (lexeme uc p).map Prod.snd = turn uc.decoder p := by
  rw [lexeme, turn, if_neg hp]
  split
  · rfl
  cases if headIs (· = '#') p = true then hash p else none with
  | some r => rfl
  | none =>
      dsimp only
      split
      · rfl
      split
      · rw [Option.map_map]
        exact Option.map_id'
      split
      · rfl
      split
      · next h128 =>
          rw [Option.map_bind]
          refine Option.bind_congr fun r hdecode => ?_
          obtain ⟨c, len⟩ := r
          have hident : uc.ident1 c = true := by
            by_contra hnot
            exact hstuck ⟨h128, c, len, hdecode, .inl (Bool.not_eq_true _ ▸ hnot)⟩
          have hlen := decodeUtf8_moves hdecode
          show (if uc.ident1 c = true then identifier uc p len else none).map Prod.snd =
            if (! uc.ident1 c || decide (len = 0)) = true then some p else identLoop uc.decoder (p.length + 1) (p.drop len)
          rw [hident, decide_eq_false hlen, if_pos rfl]
          exact identifier_snd uc p len
      split
      · exact identifier_snd uc p 1
      · rfl

/-! ## The whole text -/

/-- The loop comes to an end: each iteration consumes something or leaves the loop, and so do those
of the loops within. -/
structure Terminates (d : Decoder) (input : Text) : Prop where
  consumes : ∀ ⦃p q⦄, Reached (turn d) input p → turn d p = some q → q.length < p.length
  ends : Ends (turn d) input
  inner : ∀ (loop : InnerLoop) (p : Text), Ends (loop.step d) p

/-- A character begins here that an identifier may begin with, if there is none of the basic ones;
or an error is reported. -/
def Begins (d : Decoder) (p : Text) : Prop :=
  headIs (fun c => 128 ≤ c.toNat) p = true → ∀ c len, d.decode p = some (c, len) → d.ident1 c = true ∧ len ≠ 0

theorem begins_iff {d : Decoder} {p : Text} : Begins d p ↔ ¬ Stuck d p := by
  constructor
  · rintro h ⟨h128, c, len, hdecode, hident | hlen⟩
    · exact absurd ((h h128 c len hdecode).1.symm.trans hident) nofun
    · exact (h h128 c len hdecode).2 hlen
  · intro h h128 c len hdecode
    refine ⟨?_, fun hlen => h ⟨h128, c, len, hdecode, .inr hlen⟩⟩
    exact Bool.not_eq_false _ ▸ fun hident => h ⟨h128, c, len, hdecode, .inl hident⟩

/-- `tokenize` comes to an end if and only if its loop comes to no byte of 128 or more at which no
identifier begins. -/
theorem tokenize_terminates_iff (d : Decoder) (input : Text) : Terminates d input ↔ ∀ p, Reached (turn d) input p → Begins d p := by
  constructor
  · intro h p hreach
    refine begins_iff.mpr fun hstuck => ?_
    exact absurd (h.consumes hreach (turn_stuck hstuck)) (Nat.lt_irrefl _)
  · intro h
    have hconsumes : ∀ ⦃p q⦄, Reached (turn d) input p → turn d p = some q → q.length < p.length := by
      intro p q hreach hturn
      rcases turn_shorter hturn with ⟨hstuck, -⟩ | hlt
      · exact absurd hstuck (begins_iff.mp (h p hreach))
      · exact hlt
    exact ⟨hconsumes, Loops.ends_of_reached List.length hconsumes, InnerLoop.ends d⟩

/-- The bytes C2 A7 are `§`, which no identifier begins with. -/
theorem section_sign_stuck : ¬ ∀ d input, Terminates d input := by
  intro h
  have hends := h (Unicode.decoder ⟨fun _ => false, fun _ => false, nofun⟩) [Char.ofNat 0xC2, Char.ofNat 0xA7]
  have hstuck := turn_stuck (d := Unicode.decoder ⟨fun _ => false, fun _ => false, nofun⟩)
    (p := [Char.ofNat 0xC2, Char.ofNat 0xA7]) ⟨rfl, 0xA7, 2, rfl, .inl rfl⟩
  exact absurd (hends.consumes .refl hstuck) (Nat.lt_irrefl _)

end Rcc.Lexer

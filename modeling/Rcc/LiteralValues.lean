import Rcc.CLiteral
import Rcc.ScratchBuffer

/-!
# The values of literals

String literals and character constants have the same escapes, and `tokenize` reads them
with `read_escaped_char` in both. But in a string every character is put into the buffer,
and a universal character name is decoded before; a character constant keeps only the byte
that was read last, as an unsigned one, and its prefix is passed over.

So the bytes of strings are right. A character constant is right where the byte that is left
is its value: not for a negative `char`, not for what takes more than a byte in the type of
the prefix, and not for a universal character name, of which the last digit is left.
-/

namespace Rcc.Lexer

open CLiteral

variable {uc : Unicode} {p q rest t digits : Text} {n : Nat}

/-! ## UTF-8 -/

theorem char_toNat_lt (c : Char) : c.toNat < 0x110000 := by
  rcases c.valid with h | ⟨_, h⟩
  · exact Nat.lt_trans h (by decide)
  · exact h

/-- The code writes the bytes of UTF-8. -/
theorem utf8Bytes_eq (c : Char) : utf8Bytes c = utf8 c.toNat := by
  have hlt := char_toNat_lt c
  have hbyte : ∀ {v w : Nat}, v % 256 = w → Char.ofNat (UInt8.ofNat v).toNat = Char.ofNat w := by
    intro v w h
    rw [UInt8.toNat_ofNat', h]
  have hval : c.val.toNat = c.toNat := rfl
  rw [utf8Bytes, String.utf8EncodeChar, hval, utf8]
  generalize c.toNat = v at hlt
  by_cases h1 : v ≤ 0x7f
  · rw [if_pos h1, if_pos (show v < 0x80 by omega)]
    exact congrArg (· :: []) (hbyte (by omega))
  rw [if_neg h1, if_neg (show ¬ v < 0x80 by omega)]
  by_cases h2 : v ≤ 0x7ff
  · rw [if_pos h2, if_pos (show v < 0x800 by omega)]
    simp only [List.map_cons, List.map_nil]
    rw [hbyte (show _ = 0xC0 + v / 64 by omega), hbyte (show _ = 0x80 + v % 64 by omega)]
  rw [if_neg h2, if_neg (show ¬ v < 0x800 by omega)]
  by_cases h3 : v ≤ 0xffff
  · rw [if_pos h3, if_pos (show v < 0x10000 by omega)]
    simp only [List.map_cons, List.map_nil]
    rw [hbyte (show _ = 0xE0 + v / 4096 by omega), hbyte (show _ = 0x80 + v / 64 % 64 by omega),
      hbyte (show _ = 0x80 + v % 64 by omega)]
  · rw [if_neg h3, if_neg (show ¬ v < 0x10000 by omega)]
    simp only [List.map_cons, List.map_nil]
    rw [hbyte (show _ = 0xF0 + v / 262144 % 8 by omega), hbyte (show _ = 0x80 + v / 4096 % 64 by omega),
      hbyte (show _ = 0x80 + v / 64 % 64 by omega), hbyte (show _ = 0x80 + v % 64 by omega)]

theorem utf8Bytes_ascii {c : Char} (h : c.toNat < 128) : utf8Bytes c = [c] := by
  rw [utf8Bytes_eq, utf8, if_pos h, List.map_singleton, Char.ofNat_toNat]

theorem utf8Bytes_ne_nil (c : Char) : utf8Bytes c ≠ [] := by
  rw [utf8Bytes, Ne, List.map_eq_nil_iff]
  exact String.utf8EncodeChar_ne_nil

theorem byte_toNat {v : Nat} (h : v < 256) : (Char.ofNat v).toNat = v := by
  rw [Char.toNat_ofNat, if_pos (.inl (Nat.lt_trans h (by decide)))]

/-- Outside of ASCII there are more bytes, none of which is in ASCII. -/
theorem utf8Bytes_large {c : Char} (h : 128 ≤ c.toNat) : (∀ b ∈ utf8Bytes c, 128 ≤ b.toNat) ∧ 1 < (utf8Bytes c).length ∧
    (utf8Bytes c).getLast? = some (Char.ofNat (0x80 + c.toNat % 64)) := by
  have hlt := char_toNat_lt c
  have hbytes : ∀ {l : List Nat}, (∀ v ∈ l, 128 ≤ v ∧ v < 256) → ∀ b ∈ l.map Char.ofNat, 128 ≤ b.toNat := by
    intro l hl b hb
    obtain ⟨v, hv, rfl⟩ := List.mem_map.mp hb
    rw [byte_toNat (hl v hv).2]
    exact (hl v hv).1
  rw [utf8Bytes_eq, utf8]
  generalize c.toNat = v at h hlt
  rw [if_neg (show ¬ v < 0x80 by omega)]
  split
  · refine ⟨hbytes ?_, by simp, rfl⟩
    simp only [List.forall_mem_cons]
    exact ⟨by omega, by omega, fun _ h => absurd h List.not_mem_nil⟩
  split
  · refine ⟨hbytes ?_, by simp, rfl⟩
    simp only [List.forall_mem_cons]
    exact ⟨by omega, by omega, by omega, fun _ h => absurd h List.not_mem_nil⟩
  · refine ⟨hbytes ?_, by simp, rfl⟩
    simp only [List.forall_mem_cons]
    exact ⟨by omega, by omega, by omega, by omega, fun _ h => absurd h List.not_mem_nil⟩

/-! ## Escapes -/

theorem isHex_eq (c : Char) : isHex c = isxdigit c := rfl

theorem digit_eq {c : Char} (h : isHex c = true) : digit c = hexValue c := by
  have hx := isxdigit_iff.mp (isHex_eq c ▸ h)
  have hnine : c ≤ '9' ↔ c.toNat ≤ 57 := Iff.rfl
  have hdigit := @isdigit_iff c
  rw [digit, hexValue]
  by_cases hc : c ≤ '9'
  · have hle := hnine.mp hc
    have hd : isdigit c = true := hdigit.mpr (by omega)
    rw [if_pos hc, if_pos hd]
    rfl
  · have hd : ¬ isdigit c = true := fun hd => hc (hnine.mpr (hdigit.mp hd).2)
    rw [if_neg hc, if_neg hd]
    rfl

theorem numeral_eq {base : Nat} (h : ∀ c ∈ digits, isHex c = true) : digitsValue base digits = numeral base digits := by
  have hfold : ∀ (n : Nat) (l : Text), (∀ c ∈ l, isHex c = true) →
      l.foldl (fun n c => n * base + hexValue c) n = l.foldl (fun n c => n * base + digit c) n := by
    intro n l hl
    induction l generalizing n with
    | nil => rfl
    | cons c l ih =>
        obtain ⟨hc, hl⟩ := List.forall_mem_cons.mp hl
        rw [List.foldl_cons, List.foldl_cons, digit_eq hc, ih _ hl]
  exact hfold 0 digits h

/-- A digit is none of the characters that end a literal or begin an escape. -/
theorem isHex_ne {c d : Char} (h : isHex c = true) (hd : isHex d = false) : c ≠ d := by
  rintro rfl
  exact Bool.false_ne_true (hd.symm.trans h)

theorem takeWhile_digits {f : Char → Bool} (h : ∀ c ∈ digits, f c = true) (ht : ∀ c ∈ t.head?, f c = false) :
    (digits ++ t).takeWhile f = digits ∧ (digits ++ t).dropWhile f = t := by
  rw [List.takeWhile_append_of_pos h, List.dropWhile_append_of_pos h]
  cases t with
  | nil => exact ⟨List.append_nil _, rfl⟩
  | cons c t =>
      have hc : ¬ f c = true := ne_true_of_eq_false (ht c rfl)
      rw [List.takeWhile_cons_of_neg hc, List.dropWhile_cons_of_neg hc]
      exact ⟨List.append_nil _, rfl⟩

theorem readEscapedChar_simple {c : Char} (h : (simpleValue c).isSome = true) (t : Text) :
    readEscapedChar (c :: t) = some (Char.ofNat ((simpleValue c).getD 0), t) := by
  unfold simpleValue at h
  split at h
  case h_12 => cases h
  all_goals rfl

theorem readEscapedChar_octal (hne : digits ≠ []) (hlength : digits.length ≤ 3) (hdigits : ∀ c ∈ digits, isOctal c = true)
    (hends : digits.length = 3 ∨ ∀ c ∈ t.head?, isOctal c = false) :
    readEscapedChar (digits ++ t) = some (Char.ofNat (numeral 8 digits % 256), t) := by
  have htake : ((digits ++ t).take 3).takeWhile isOctal = digits := by
    rw [List.take_append, List.take_of_length_le hlength]
    refine (takeWhile_digits hdigits fun c hc => ?_).1
    rcases hends with h | h
    · rw [h, Nat.sub_self, List.take_zero] at hc
      cases hc
    · refine h c ?_
      rw [List.head?_take] at hc
      split at hc
      · cases hc
      · exact hc
  cases digits with
  | nil => exact absurd rfl hne
  | cons c digits =>
      have hc := hdigits c List.mem_cons_self
      have hx : c ≠ 'x' := by
        rintro rfl
        exact absurd hc (by decide)
      have hoctal : (c :: (digits ++ t).take 2).takeWhile (fun c => '0' ≤ c && c ≤ '7') = c :: digits := htake
      rw [List.cons_append, readEscapedChar, if_neg hx]
      dsimp only
      rw [hoctal, if_pos (List.cons_ne_nil c digits), numeral_eq fun d hd => isHex_of_isOctal (hdigits d hd)]
      have hdrop : (c :: (digits ++ t)).drop (c :: digits).length = t := List.drop_left
      rw [hdrop]

theorem readEscapedChar_hex (hne : digits ≠ []) (hdigits : ∀ c ∈ digits, isHex c = true) (hends : ∀ c ∈ t.head?, isHex c = false) :
    readEscapedChar ('x' :: (digits ++ t)) = some (Char.ofNat (numeral 16 digits % 256), t) := by
  obtain ⟨htake, hdrop⟩ := takeWhile_digits hdigits hends
  have hhead : headIs isxdigit (digits ++ t) = true := by
    cases digits with
    | nil => exact absurd rfl hne
    | cons c digits => exact hdigits c List.mem_cons_self
  rw [readEscapedChar, if_pos rfl, if_pos hhead]
  show some (Char.ofNat (digitsValue 16 ((digits ++ t).takeWhile isHex) % 256), (digits ++ t).dropWhile isHex) = _
  rw [htake, hdrop, numeral_eq hdigits]

theorem universal_digits (hdigits : ∀ c ∈ digits, isHex c = true) (hvalid : (numeral 16 digits).isValidChar)
    (t : Text) : stringChar.universal digits.length (digits ++ t) = some (utf8Bytes (Char.ofNat (numeral 16 digits)), t) := by
  have htake : (digits ++ t).take digits.length = digits := List.take_left
  have hall : digits.all isxdigit = true := List.all_eq_true.mpr hdigits
  have hcode : (Char.ofNat (numeral 16 digits)).toNat = numeral 16 digits := by rw [Char.toNat_ofNat, if_pos hvalid]
  have hlt := char_toNat_lt (Char.ofNat (numeral 16 digits))
  rw [hcode] at hlt
  rw [stringChar.universal, htake, hall, decide_eq_true rfl, Bool.true_and, if_pos rfl, numeral_eq hdigits, List.drop_left,
    Nat.mod_eq_of_lt (by omega), utf8Bytes_eq, hcode]

/-! ## Strings -/

theorem stringBody_plain {bs : Text} (hbs : ∀ b ∈ bs, b ≠ '"' ∧ b ≠ '\\' ∧ b ≠ '\n') (n : Nat) (t : Text) :
    stringBody (n + bs.length) (bs ++ t) = (stringBody n t).map fun r => (bs ++ r.1, r.2) := by
  induction bs with
  | nil => exact Option.map_id'.symm
  | cons b bs ih =>
      obtain ⟨⟨hquote, hescape, hline⟩, hbs⟩ := List.forall_mem_cons.mp hbs
      have hchar : stringChar (b :: (bs ++ t)) = some ([b], bs ++ t) :=
        stringChar.eq_4 b _ (fun _ h _ => hescape h) (fun _ h _ => hescape h) hescape
      rw [List.length_cons, ← Nat.add_assoc, List.cons_append, stringBody, if_neg hquote, if_neg hline, hchar, Option.bind_some]
      dsimp only
      rw [ih hbs, Option.map_map]
      rfl

theorem stringBody_escape {c : Char} (hu : ∀ p, q = 'u' :: p → False) (hU : ∀ p, q = 'U' :: p → False)
    (h : readEscapedChar q = some (c, t)) (n : Nat) : stringBody (n + 1) ('\\' :: q) = (stringBody n t).map fun r => (c :: r.1, r.2) := by
  have hchar : stringChar ('\\' :: q) = some ([c], t) := by
    rw [stringChar.eq_3 q hu hU, h]
    rfl
  rw [stringBody, if_neg (by decide), if_neg (by decide), hchar]
  rfl

/-- The bytes of a character are none that the loops look for. -/
theorem utf8Bytes_plain {c quote : Char} (hquote : c ≠ quote) (hascii : quote.toNat < 128) : ∀ b ∈ utf8Bytes c, b ≠ quote := by
  rintro b hb rfl
  by_cases hc : c.toNat < 128
  · rw [utf8Bytes_ascii hc] at hb
    exact hquote (List.mem_singleton.mp hb).symm
  · have hlarge := (utf8Bytes_large (Nat.le_of_not_lt hc)).1 b hb
    omega

/-- A character of a string: its bytes are put in front of those of the rest. -/
theorem stringBody_char {x : CChar} (hx : x.Valid '"' 8) (hends : x.Ends t) : ∃ k ≤ x.spelling.length, ∀ n,
    stringBody (n + k) (x.spelling ++ t) = (stringBody n t).map fun r => (x.bytes ++ r.1, r.2) := by
  cases x with
  | plain c =>
      obtain ⟨hquote, hescape, hline, _⟩ := hx
      exact ⟨(utf8Bytes c).length, Nat.le_refl _, fun n => stringBody_plain (fun b hb => ⟨utf8Bytes_plain hquote (by decide) b hb,
        utf8Bytes_plain hescape (by decide) b hb, utf8Bytes_plain hline (by decide) b hb⟩) n t⟩
  | simple c =>
      refine ⟨1, by simp [CChar.spelling], stringBody_escape (fun p h => ?_) (fun p h => ?_) (readEscapedChar_simple hx t)⟩
      · obtain rfl := (List.cons.inj h).1
        cases hx
      · obtain rfl := (List.cons.inj h).1
        cases hx
  | octal digits =>
      obtain ⟨hne, hlength, hdigits, hvalue⟩ := hx
      have hhead : ∀ d p, digits ++ t = d :: p → isOctal d = true := by
        intro d p h
        cases digits with
        | nil => exact absurd rfl hne
        | cons c digits => exact (List.cons.inj h).1 ▸ hdigits c List.mem_cons_self
      have hread := readEscapedChar_octal hne hlength hdigits hends
      rw [Nat.mod_eq_of_lt (show _ < 256 from hvalue)] at hread
      refine ⟨1, Nat.succ_pos _, stringBody_escape (fun p h => ?_) (fun p h => ?_) hread⟩
      · exact absurd (hhead 'u' p h) (by decide)
      · exact absurd (hhead 'U' p h) (by decide)
  | hex digits =>
      obtain ⟨hne, hdigits, hvalue⟩ := hx
      have hread := readEscapedChar_hex hne hdigits hends
      rw [Nat.mod_eq_of_lt (show _ < 256 from hvalue)] at hread
      refine ⟨1, Nat.succ_pos _, stringBody_escape (fun p h => ?_) (fun p h => ?_) hread⟩
      · exact absurd (List.cons.inj h).1 (by decide)
      · exact absurd (List.cons.inj h).1 (by decide)
  | universal digits =>
      obtain ⟨hlength, hdigits, hvalid, _⟩ := hx
      have huniversal := universal_digits hdigits hvalid t
      refine ⟨1, Nat.succ_pos _, fun n => ?_⟩
      have hchar : stringChar ((CChar.universal digits).spelling ++ t) = some ((CChar.universal digits).bytes, t) := by
        rw [CChar.spelling]
        rcases hlength with h | h
        · rw [h] at huniversal ⊢
          exact huniversal
        · rw [h] at huniversal ⊢
          exact huniversal
      show stringBody (n + 1) ('\\' :: (_ ++ t)) = _
      rw [stringBody, if_neg (by decide), if_neg (by decide)]
      exact congrArg (fun r => Option.bind r _) hchar

/-- The characters of a literal, up to its quotation mark. -/
theorem stringBody_chars {cs : List CChar} (hcs : WellSpelled '"' 8 cs) (rest : Text) (hn : (spell cs).length < n) :
    stringBody n (spell cs ++ '"' :: rest) = some (bytesOf cs, rest) := by
  induction cs generalizing n with
  | nil =>
      obtain ⟨n, rfl⟩ := Nat.exists_eq_add_one_of_ne_zero (Nat.ne_zero_of_lt hn)
      rfl
  | cons x cs ih =>
      obtain ⟨hx, hends, hcs⟩ := hcs
      have hends : x.Ends (spell cs ++ '"' :: rest) := hends.append fun d hd => Option.some_inj.mp hd ▸ rfl
      obtain ⟨k, hk, hchar⟩ := stringBody_char hx hends
      rw [spell_cons, List.length_append] at hn
      obtain ⟨n, rfl⟩ : ∃ m, n = m + k := ⟨n - k, by omega⟩
      rw [spell_cons, List.append_assoc, hchar, ih hcs (by omega)]
      rfl

/-! ## Character constants -/

/-- The byte that is left of a character of a constant. -/
def lastByte : CChar → Char
  | .plain c => if c.toNat < 128 then c else Char.ofNat (0x80 + c.toNat % 64)
  | .universal digits => digits.getLast?.getD (Char.ofNat 0)
  | c => Char.ofNat (c.code % 256)

theorem charBody_plain {bs : Text} (hbs : ∀ b ∈ bs, b ≠ '\'' ∧ b ≠ '\\' ∧ b ≠ '\n') (n : Nat) (last : Char) (t : Text) :
    charBody (n + bs.length) last (bs ++ t) = charBody n (bs.getLast?.getD last) t := by
  induction bs generalizing last with
  | nil => rfl
  | cons b bs ih =>
      obtain ⟨⟨hquote, hescape, hline⟩, hbs⟩ := List.forall_mem_cons.mp hbs
      rw [List.length_cons, ← Nat.add_assoc, List.cons_append, charBody, if_neg hquote, if_neg hline, if_neg hescape, ih hbs,
        List.getLast?_cons]
      rfl

theorem charBody_escape {c : Char} (h : readEscapedChar q = some (c, t)) (n : Nat) (last : Char) :
    charBody (n + 1) last ('\\' :: q) = charBody n c t := by
  rw [charBody, if_neg (by decide), if_neg (by decide), if_pos rfl, h]
  rfl

/-- A character of a constant: only its last byte is left. -/
theorem charBody_char {x : CChar} {bits : Nat} (hx : x.Valid '\'' bits) (hends : x.Ends t) : ∃ k ≤ x.spelling.length, ∀ n last,
    charBody (n + k) last (x.spelling ++ t) = charBody n (lastByte x) t := by
  cases x with
  | plain c =>
      obtain ⟨hquote, hescape, hline, _⟩ := hx
      refine ⟨(utf8Bytes c).length, Nat.le_refl _, fun n last => ?_⟩
      rw [CChar.spelling, charBody_plain (fun b hb => ⟨utf8Bytes_plain hquote (by decide) b hb,
        utf8Bytes_plain hescape (by decide) b hb, utf8Bytes_plain hline (by decide) b hb⟩), lastByte]
      by_cases hc : c.toNat < 128
      · rw [if_pos hc, utf8Bytes_ascii hc]
        rfl
      · rw [if_neg hc, (utf8Bytes_large (Nat.le_of_not_lt hc)).2.2]
        rfl
  | simple c =>
      have hread := readEscapedChar_simple hx t
      have hcode : lastByte (.simple c) = Char.ofNat ((simpleValue c).getD 0) := by
        have hx : (simpleValue c).isSome = true := hx
        unfold lastByte CChar.code
        unfold simpleValue at hx ⊢
        split at hx
        case h_12 => cases hx
        all_goals rfl
      exact ⟨1, by simp [CChar.spelling], fun n last => hcode ▸ charBody_escape hread n last⟩
  | octal digits =>
      obtain ⟨hne, hlength, hdigits, _⟩ := hx
      exact ⟨1, Nat.succ_pos _, charBody_escape (readEscapedChar_octal hne hlength hdigits hends)⟩
  | hex digits =>
      obtain ⟨hne, hdigits, _⟩ := hx
      exact ⟨1, Nat.succ_pos _, charBody_escape (readEscapedChar_hex hne hdigits hends)⟩
  | universal digits =>
      obtain ⟨hlength, hdigits, _⟩ := hx
      refine ⟨digits.length + 1, by simp [CChar.spelling], fun n last => ?_⟩
      have hplain : ∀ b ∈ digits, b ≠ '\'' ∧ b ≠ '\\' ∧ b ≠ '\n' := fun b hb =>
        ⟨isHex_ne (hdigits b hb) rfl, isHex_ne (hdigits b hb) rfl, isHex_ne (hdigits b hb) rfl⟩
      have hread : ∃ c, readEscapedChar ((if digits.length = 4 then 'u' else 'U') :: (digits ++ t)) = some (c, digits ++ t) := by
        split
        · exact ⟨'u', rfl⟩
        · exact ⟨'U', rfl⟩
      obtain ⟨c, hread⟩ := hread
      show charBody (n + digits.length + 1) last ('\\' :: (_ :: (digits ++ t))) = _
      rw [charBody_escape hread, charBody_plain hplain, lastByte]
      obtain ⟨d, hd⟩ : ∃ d, digits.getLast? = some d := by
        refine Option.isSome_iff_exists.mp (List.getLast?_isSome.mpr fun hnil => ?_)
        rw [hnil] at hlength
        exact absurd hlength (by decide)
      rw [hd]
      rfl

theorem charBody_chars {cs : List CChar} {bits : Nat} (hcs : WellSpelled '\'' bits cs) (last : Char) (rest : Text)
    (hn : (spell cs).length < n) :
    charBody n last (spell cs ++ '\'' :: rest) = some (((cs.map lastByte).getLast?).getD last, rest) := by
  induction cs generalizing n last with
  | nil =>
      obtain ⟨n, rfl⟩ := Nat.exists_eq_add_one_of_ne_zero (Nat.ne_zero_of_lt hn)
      rfl
  | cons x cs ih =>
      obtain ⟨hx, hends, hcs⟩ := hcs
      have hends : x.Ends (spell cs ++ '\'' :: rest) := hends.append fun d hd => Option.some_inj.mp hd ▸ rfl
      obtain ⟨k, hk, hchar⟩ := charBody_char hx hends
      rw [spell_cons, List.length_append] at hn
      obtain ⟨n, rfl⟩ : ∃ m, n = m + k := ⟨n - k, by omega⟩
      rw [spell_cons, List.append_assoc, hchar, ih hcs _ (by omega), List.map_cons, List.getLast?_cons]
      rfl

/-! ## Literals -/

/-- A character constant, or string literals with white space between them. -/
inductive Literal where
  | char (pre : Option Encoding) (cs : List CChar)
  | string (first : List CChar) (more : List (Text × List CChar))

namespace Literal

/-- The literals behind the first, each with what is before it. -/
def moreText (more : List (Text × List CChar)) : Text := more.flatMap fun m => m.1 ++ '"' :: (spell m.2 ++ ['"'])

def text : Literal → Text
  | char pre cs => (pre.map Encoding.char).toList ++ '\'' :: (spell cs ++ ['\''])
  | string first more => '"' :: (spell first ++ '"' :: moreText more)

def stringBytes (first : List CChar) (more : List (Text × List CChar)) : Text := bytesOf first ++ more.flatMap fun m => bytesOf m.2

/-- It is a literal of C, where `wchar_t` has so many bits. -/
def Valid (wchar : Nat) : Literal → Prop
  | char pre cs => cs ≠ [] ∧ WellSpelled '\'' (pre.elim 8 (Encoding.bits wchar)) cs
  | string first more => WellSpelled '"' 8 first ∧ ∀ m ∈ more, (∀ c ∈ m.1, isspace c = true) ∧ WellSpelled '"' 8 m.2

/-- No literal follows that belongs to these. -/
def Before (rest : Text) : Literal → Prop
  | char _ _ => True
  | string _ _ => nextLiteral rest = none

end Literal

/-- The kind of the token that is made. -/
def Lexeme.kind? : Lexeme → Option TokenKind
  | .token kind => some kind
  | .char val _ => some (.num val)
  | .string val pre _ => some (.str val pre)
  | .blank | .comment | .directive | .marker _ _ _ _ => none

theorem step_kind (s : Tokenizer) {l : Lexeme} {kind : TokenKind} (h : l.kind? = some kind) (text : Text) :
    ((s.step (l, text)).tokens.head?.map fun token => token.2.kind) = some kind := by
  cases l with
  | token kind' => exact h
  | char val pre => exact h
  | string val pre counted =>
      cases pre with
      | none => exact h
      | some c => exact h
  | blank | comment | directive | marker => cases h

/-- A token is made of the literal, with the value that C gives it, if it does, or with its bytes, for
which there is room in the buffer. -/
def Decoded (uc : Unicode) (wchar : Nat) (rest : Text) : Literal → Prop
  | lit@(.char pre cs) => ∃ l val, lexeme uc (lit.text ++ rest) = some (l, rest) ∧ l.kind? = some (.num val) ∧
      ∀ v ∈ constantValue wchar pre cs, val.toInt = v
  | lit@(.string first more) => ∃ l, lexeme uc (lit.text ++ rest) = some (l, rest) ∧
      l.kind? = some (.str (Literal.stringBytes first more) none) ∧ ∀ i ∈ scratchWrites (lit.text ++ rest).tail, i < scratchSize

/-- The last byte is the value. -/
def KeepsValue (pre : Option Encoding) : CChar → Prop
  | .plain c => pre = none ∨ c.toNat < 0xC0
  | .simple _ => True
  | .octal digits => numeral 8 digits < if pre = none then 128 else 256
  | .hex digits => numeral 16 digits < if pre = none then 128 else 256
  | .universal _ => False

/-- A character constant that C gives a value is a character that keeps it, and the strings have no
more bytes than there is room for. -/
def Literal.Decodable (wchar : Nat) : Literal → Prop
  | char pre cs => ∀ x, cs = [x] → (constantValue wchar pre cs).isSome = true → KeepsValue pre x
  | string first more => (stringBytes first more).length < scratchSize

theorem nextLiteral_quote {blank : Text} (h : ∀ c ∈ blank, isspace c = true) (p : Text) : nextLiteral (blank ++ '"' :: p) = some p := by
  have hdrop : (blank ++ '"' :: p).dropWhile isspace = '"' :: p := by
    rw [List.dropWhile_append_of_pos h]
    rfl
  rw [nextLiteral, hdrop]
  rfl

theorem stringPieces_more {first : List CChar} {more : List (Text × List CChar)} (hfirst : WellSpelled '"' 8 first)
    (hmore : ∀ m ∈ more, (∀ c ∈ m.1, isspace c = true) ∧ WellSpelled '"' 8 m.2) (hrest : nextLiteral rest = none) (hn : more.length < n) :
    ∃ counted, stringPieces n (spell first ++ '"' :: (Literal.moreText more ++ rest)) =
      some (Literal.stringBytes first more, rest, counted) := by
  induction more generalizing n first with
  | nil =>
      obtain ⟨n, rfl⟩ := Nat.exists_eq_add_one_of_ne_zero (Nat.ne_zero_of_lt hn)
      rw [stringPieces_next, stringBody_chars hfirst _ (by rw [List.length_append]; omega), Option.bind_some]
      dsimp only
      rw [show Literal.moreText [] ++ rest = rest from rfl, hrest]
      exact ⟨_, by rw [Literal.stringBytes, List.flatMap_nil, List.append_nil]⟩
  | cons m more ih =>
      obtain ⟨n, rfl⟩ := Nat.exists_eq_add_one_of_ne_zero (Nat.ne_zero_of_lt hn)
      obtain ⟨⟨hblank, hm⟩, hmore⟩ := List.forall_mem_cons.mp hmore
      have htext : Literal.moreText (m :: more) ++ rest = m.1 ++ '"' :: (spell m.2 ++ '"' :: (Literal.moreText more ++ rest)) := by
        rw [Literal.moreText, List.flatMap_cons, List.append_assoc, List.append_assoc, List.cons_append, List.append_assoc]
        rfl
      obtain ⟨counted, hpieces⟩ := ih hm hmore (Nat.lt_of_succ_lt_succ hn)
      rw [stringPieces_next, stringBody_chars hfirst _ (by rw [List.length_append]; omega), Option.bind_some]
      dsimp only
      rw [htext, nextLiteral_quote hblank]
      dsimp only
      rw [hpieces]
      exact ⟨_, rfl⟩

/-! ## One character -/

/-- The last digit of a universal character name is another character. -/
theorem lastByte_universal {quote : Char} {bits : Nat} (hx : (CChar.universal digits).Valid quote bits) :
    (lastByte (.universal digits)).toNat % 256 ≠ numeral 16 digits := by
  obtain ⟨hlength, hdigits, _, hvalue⟩ := hx
  rcases List.eq_nil_or_concat digits with rfl | ⟨init, d, rfl⟩
  · exact absurd hlength (by decide)
  rw [List.concat_eq_append] at hdigits hvalue ⊢
  have hd := hdigits d (List.mem_append_right _ List.mem_cons_self)
  have hrange := isxdigit_iff.mp (isHex_eq d ▸ hd)
  rw [lastByte, List.getLast?_concat]
  show d.toNat % 256 ≠ _
  simp only [List.mem_cons, List.not_mem_nil, or_false] at hvalue
  omega

theorem code_simple {c : Char} (h : (simpleValue c).isSome = true) : (simpleValue c).getD 0 < 128 := by
  unfold simpleValue at h ⊢
  split at h
  case h_12 => cases h
  all_goals decide

theorem lastByte_code {x : CChar} (h : lastByte x = Char.ofNat (x.code % 256)) : (lastByte x).toNat % 256 = x.code % 256 := by
  rw [h, byte_toNat (Nat.mod_lt _ (by decide)), Nat.mod_mod]

theorem lastByte_plain (c : Char) : (lastByte (.plain c)).toNat % 256 = if c.toNat < 128 then c.toNat else 0x80 + c.toNat % 64 := by
  rw [lastByte]
  split
  · exact Nat.mod_eq_of_lt (by omega)
  · rw [byte_toNat (by omega)]
    omega

/-- A `char` is signed. -/
theorem toInt_byte {v : Nat} (h : v < 256) : (BitVec.ofNat 8 v).toInt = if v < 128 then (v : Int) else v - 256 := by
  rw [BitVec.toInt_eq_toNat_cond, BitVec.toNat_ofNat, Nat.mod_eq_of_lt h]
  by_cases hv : v < 128
  · rw [if_pos (by omega), if_pos hv]
  · rw [if_neg (by omega), if_neg hv]
    rfl

/-- The value of the token of one character that is a byte. -/
theorem narrow_iff {x : CChar} (hx : x.Valid '\'' 8) (hbyte : x.bytes.length = 1) :
    (((lastByte x).toNat % 256 : Nat) : Int) = (BitVec.ofNat 8 x.code).toInt ↔ KeepsValue none x := by
  have hnumber : ∀ {v : Nat}, v < 256 → (((v % 256 : Nat) : Int) = (BitVec.ofNat 8 v).toInt ↔ v < 128) := by
    intro v hv
    rw [toInt_byte hv, Nat.mod_eq_of_lt hv]
    split
    · next h => exact iff_of_true rfl h
    · next h => exact iff_of_false (by omega) h
  cases x with
  | plain c =>
      have hc : c.toNat < 128 := by
        by_contra hc
        have hlength := (utf8Bytes_large (Nat.le_of_not_lt hc)).2.1
        have hbyte : (utf8Bytes c).length = 1 := hbyte
        omega
      rw [lastByte_plain, if_pos hc, CChar.code, toInt_byte (by omega), if_pos hc]
      exact iff_of_true rfl (.inl rfl)
  | simple c =>
      have hc := code_simple hx
      rw [lastByte_code rfl]
      exact iff_of_true ((hnumber (Nat.lt_trans hc (by decide))).mpr hc) trivial
  | octal digits =>
      rw [lastByte_code rfl]
      exact hnumber hx.2.2.2
  | hex digits =>
      rw [lastByte_code rfl]
      exact hnumber hx.2.2
  | universal digits =>
      have hcode : numeral 16 digits < 128 := by
        by_contra hc
        have hnat : (Char.ofNat (numeral 16 digits)).toNat = numeral 16 digits := by rw [Char.toNat_ofNat, if_pos hx.2.2.1]
        have hlength := (utf8Bytes_large (hnat.symm ▸ Nat.le_of_not_lt hc)).2.1
        have hbyte : (utf8Bytes (Char.ofNat (numeral 16 digits))).length = 1 := hbyte
        omega
      refine iff_of_false (fun heq => lastByte_universal hx ?_) id
      rw [CChar.code, toInt_byte (by omega), if_pos hcode] at heq
      exact Int.natCast_inj.mp heq

/-- The value of the token of one character with a prefix. -/
theorem wide_iff {x : CChar} {e : Encoding} {bits : Nat} (hx : x.Valid '\'' bits) :
    (((lastByte x).toNat % 256 : Nat) : Int) = x.code ↔ KeepsValue (some e) x := by
  have hnumber : ∀ {v : Nat}, (((v % 256 : Nat) : Int) = v ↔ v < 256) := by
    intro v
    omega
  cases x with
  | plain c =>
      rw [lastByte_plain, KeepsValue, CChar.code]
      constructor
      · intro h
        right
        split at h
        · omega
        · omega
      · intro h
        rcases h with h | h
        · cases h
        · split
          · rfl
          · omega
  | simple c =>
      have hc := code_simple hx
      rw [lastByte_code rfl]
      exact iff_of_true (hnumber.mpr (Nat.lt_trans hc (by decide))) trivial
  | octal digits =>
      rw [lastByte_code rfl]
      exact hnumber
  | hex digits =>
      rw [lastByte_code rfl]
      exact hnumber
  | universal digits => exact iff_of_false (fun heq => lastByte_universal hx (Int.natCast_inj.mp heq)) id

theorem value_iff {x : CChar} {pre : Option Encoding} {wchar : Nat} {v : Int} (hx : x.Valid '\'' (pre.elim 8 (Encoding.bits wchar)))
    (hv : constantValue wchar pre [x] = some v) : (((lastByte x).toNat % 256 : Nat) : Int) = v ↔ KeepsValue pre x := by
  cases pre with
  | none =>
      obtain ⟨hbyte, hv⟩ := Option.ite_none_right_eq_some.mp hv
      obtain rfl := Option.some_inj.mp hv
      exact narrow_iff hx hbyte
  | some e =>
      obtain ⟨_, hv⟩ := Option.ite_none_right_eq_some.mp hv
      obtain rfl := Option.some_inj.mp hv
      exact wide_iff hx

/-! ## Tokens -/

theorem lexeme_char (uc : Unicode) (pre : Option Encoding) (q : Text) : lexeme uc ((pre.map Encoding.char).toList ++ '\'' :: q) =
    (charBody (((pre.map Encoding.char).toList ++ '\'' :: q).length + 1) (Char.ofNat 0) q).map fun r =>
      (.char (BitVec.ofNat 64 (r.1.toNat % 256)) (pre.map Encoding.char).toList.length, r.2) := by
  cases pre with
  | none => rfl
  | some e =>
      cases e with
      | L => rfl
      | u => rfl
      | U => rfl

theorem toInt_word {v : Nat} (h : v < 256) : (BitVec.ofNat 64 v).toInt = v := by
  rw [BitVec.toInt_eq_toNat_cond, BitVec.toNat_ofNat, Nat.mod_eq_of_lt (by omega), if_pos (by omega)]

variable {wchar : Nat}

theorem decoded_char {pre : Option Encoding} {cs : List CChar} (hlit : (Literal.char pre cs).Valid wchar) (rest : Text) :
    Decoded uc wchar rest (.char pre cs) ↔ (Literal.char pre cs).Decodable wchar := by
  obtain ⟨hne, hspelled⟩ := hlit
  have htext : (Literal.char pre cs).text ++ rest = (pre.map Encoding.char).toList ++ '\'' :: (spell cs ++ '\'' :: rest) := by
    rw [Literal.text, List.append_assoc, List.cons_append, List.append_assoc]
    rfl
  have hlexeme := lexeme_char uc pre (spell cs ++ '\'' :: rest)
  rw [charBody_chars hspelled _ rest (by rw [List.length_append, List.length_cons, List.length_append]; omega), Option.map_some,
    ← htext] at hlexeme
  have hlt := Nat.mod_lt (((cs.map lastByte).getLast?).getD (Char.ofNat 0)).toNat (show 0 < 256 by decide)
  constructor
  · rintro ⟨l, val, hl, hkind, hvalue⟩ x rfl hsome
    obtain ⟨rfl, _⟩ := Prod.mk.inj (Option.some_inj.mp (hlexeme.symm.trans hl))
    obtain rfl := TokenKind.num.inj (Option.some_inj.mp hkind)
    obtain ⟨v, hv⟩ := Option.isSome_iff_exists.mp hsome
    have heq := hvalue v hv
    rw [toInt_word hlt] at heq
    exact (value_iff hspelled.1 hv).mp heq
  · intro hdecodable
    refine ⟨_, _, hlexeme, rfl, fun v hv => ?_⟩
    rw [toInt_word hlt]
    cases cs with
    | nil => exact absurd rfl hne
    | cons x cs =>
        cases cs with
        | nil => exact (value_iff hspelled.1 hv).mpr (hdecodable x rfl (Option.isSome_of_mem hv))
        | cons y cs =>
            cases pre with
            | none => cases hv
            | some e => cases hv

theorem length_moreText (more : List (Text × List CChar)) : more.length ≤ (Literal.moreText more).length := by
  induction more with
  | nil => exact Nat.le_refl 0
  | cons m more ih =>
      rw [Literal.moreText] at ih ⊢
      rw [List.flatMap_cons, List.length_append, List.length_append, List.length_cons, List.length_cons]
      omega

/-- What is read behind the quotation mark of a run of strings, and whether it fits the buffer. -/
theorem stringPieces_literal {first : List CChar} {more : List (Text × List CChar)} (hlit : (Literal.string first more).Valid wchar)
    (hrest : (Literal.string first more).Before rest) (hn : ((Literal.string first more).text ++ rest).length ≤ n) :
    (∃ counted, stringPieces n ((Literal.string first more).text ++ rest).tail = some (Literal.stringBytes first more, rest, counted)) ∧
      ((∀ i ∈ scratchWrites ((Literal.string first more).text ++ rest).tail, i < scratchSize) ↔
        (Literal.stringBytes first more).length < scratchSize) := by
  obtain ⟨hfirst, hmore⟩ := hlit
  have htext : (Literal.string first more).text ++ rest = '"' :: (spell first ++ '"' :: (Literal.moreText more ++ rest)) := by
    rw [Literal.text, List.cons_append, List.append_assoc, List.cons_append]
  rw [htext, List.length_cons] at hn
  have hmany : more.length < (spell first ++ '"' :: (Literal.moreText more ++ rest)).length := by
    have hlength := length_moreText more
    rw [List.length_append, List.length_cons, List.length_append]
    omega
  rw [htext, List.tail_cons]
  obtain ⟨counted, hpieces⟩ := stringPieces_more hfirst hmore hrest (Nat.lt_succ_of_lt hmany)
  refine ⟨stringPieces_more hfirst hmore hrest (show more.length < n by omega), ?_⟩
  rw [fitsScratch_iff, FitsScratch, stringPieces_bytes hpieces]
  rfl

theorem decoded_string {first : List CChar} {more : List (Text × List CChar)} (hlit : (Literal.string first more).Valid wchar)
    (hrest : (Literal.string first more).Before rest) :
    Decoded uc wchar rest (.string first more) ↔ (Literal.string first more).Decodable wchar := by
  obtain ⟨⟨counted, hread⟩, hroom⟩ := stringPieces_literal hlit hrest (Nat.le_succ _)
  have hstart : stringStart ((Literal.string first more).text ++ rest) = some ((Literal.string first more).text ++ rest).tail := rfl
  have hlexeme := @lexeme_string _ uc _ hstart
  rw [hread] at hlexeme
  constructor
  · rintro ⟨_, _, _, hwrites⟩
    exact hroom.mp hwrites
  · intro hdecodable
    exact ⟨_, hlexeme, rfl, hroom.mpr hdecodable⟩

/-- The same with a prefix. -/
theorem lexeme_wide (uc : Unicode) (e : Encoding) {first : List CChar} {more : List (Text × List CChar)}
    (hlit : (Literal.string first more).Valid wchar) (hrest : (Literal.string first more).Before rest) :
    ∃ l, lexeme uc (e.char :: (Literal.string first more).text ++ rest) = some (l, rest) ∧
      l.kind? = some (.str (Literal.stringBytes first more) (some e.char)) ∧
        ((∀ i ∈ scratchWrites ((Literal.string first more).text ++ rest).tail, i < scratchSize) ↔
          (Literal.stringBytes first more).length < scratchSize) := by
  have hstart : stringStart (e.char :: (Literal.string first more).text ++ rest) = some ((Literal.string first more).text ++ rest).tail := by
    cases e <;> rfl
  have hlexeme := @lexeme_string _ uc _ hstart
  obtain ⟨⟨counted, hread⟩, hroom⟩ := stringPieces_literal hlit hrest
    (show _ ≤ (e.char :: (Literal.string first more).text ++ rest).length + 1 by
      rw [List.cons_append, List.length_cons]
      omega)
  rw [hread] at hlexeme
  refine ⟨_, hlexeme, ?_, hroom⟩
  cases e <;> rfl

/-- **The values of literals.** For every character constant and every run of strings, the token has the value
and the bytes that C gives them if and only if a constant of one character is none of those that lose their
value, and the bytes of the strings fit the buffer. -/
theorem literal_decoded_iff (uc : Unicode) {lit : Literal} (hlit : lit.Valid wchar) (hrest : lit.Before rest) :
    Decoded uc wchar rest lit ↔ lit.Decodable wchar := by
  cases lit with
  | char pre cs => exact decoded_char hlit rest
  | string first more => exact decoded_string hlit hrest

/-- `"\xe9" "\u20ac"` -/
def euroRun : Literal := .string [.hex ['e', '9']] [([' '], [.universal ['2', '0', 'a', 'c']])]

theorem euroRun_decoded : Decoded asciiUnicode 32 [';'] euroRun := by
  have hvalid : euroRun.Valid 32 := by
    refine ⟨⟨⟨by decide, by decide, by decide⟩, fun c hc => (by cases hc), trivial⟩, fun m hm => ?_⟩
    obtain rfl := List.mem_singleton.mp hm
    exact ⟨by decide, ⟨.inl rfl, by decide, by decide, .inl (by decide)⟩, trivial, trivial⟩
  have hbefore : euroRun.Before [';'] := show nextLiteral [';'] = none from rfl
  have hfits : euroRun.Decodable 32 := show 4 < 2048 by decide
  exact (literal_decoded_iff asciiUnicode hvalid hbefore).mpr hfits

/-- `'\xff'` is -1, and the token is 255. -/
theorem char_not_decoded : ¬ ∀ (uc : Unicode) (wchar : Nat) (rest : Text) (lit : Literal), lit.Valid wchar → lit.Before rest →
    Decoded uc wchar rest lit := by
  intro h
  have hvalid : (Literal.char none [.hex ['f', 'f']]).Valid 32 :=
    ⟨List.cons_ne_nil _ _, ⟨by decide, by decide, by decide⟩, fun c hc => (by cases hc), trivial⟩
  have hkeeps : KeepsValue none (.hex ['f', 'f']) :=
    (decoded_char hvalid [';']).mp (h asciiUnicode 32 [';'] _ hvalid trivial) _ rfl (by decide)
  exact absurd (show numeral 16 ['f', 'f'] < 128 from hkeeps) (by decide)

end Rcc.Lexer

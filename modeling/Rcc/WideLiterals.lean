import Rcc.StrLit
import Rcc.LiteralValues
import Rcc.Spelling

/-!
# Wide string literals

The lexer leaves a wide literal in UTF-8, with its prefix beside. For an array its characters are counted, once
for the length and once for the copy, and `codegen` decodes them to print them. There is one unit for each
character, but in two bytes those above U+FFFF take two units, and those are only printed, not counted.

The initialiser of a static pointer makes a literal of which the size of its units is not known (`label`), or
a narrow one (`reloc`).
-/

namespace Rcc.Literals

open CLiteral
open Lexer (Literal lexeme utf8 decodeUtf8 scratchWrites scratchSize)
open Rcc.Parser (decodeUtf8_utf8 toNat_ofNat)

/-! ## What there should be -/

/-- The units of UTF-16. -/
def utf16 (c : Nat) : List Nat :=
  if c < 0x10000 then [c] else [0xD800 + (c - 0x10000) / 0x400, 0xDC00 + (c - 0x10000) % 0x400]

/-- The code units of a literal, of so many bytes each. -/
def codeUnits (size : Nat) (codes : List Nat) : List Nat := if size = 2 then codes.flatMap utf16 else codes

/-- The characters, as numbers. -/
def codesOf (first : List CChar) (more : List (Lexer.Text × List CChar)) : List Nat :=
  first.map CChar.code ++ more.flatMap fun m => m.2.map CChar.code

/-- Source characters and universal character names. -/
def OfCharacters (cs : List CChar) : Prop := ∀ x ∈ cs, (∃ c, x = .plain c) ∨ ∃ digits, x = .universal digits

/-- The size of the units, where `wchar_t` has `wchar` bytes. -/
def unitSize (wchar : Nat) (e : Encoding) : Nat := e.bits (8 * wchar) / 8

/-- The bytes of the token, as the compiler's `char`s. -/
def bytesOfText (t : Lexer.Text) : List (BitVec 8) := t.map fun c => BitVec.ofNat 8 c.toNat

/-- The units are printed, with a NUL; and as many are in an array that is initialised with them, and copied to it. -/
structure WideRight (wchar : Nat) (e : Encoding) (codes : List Nat) (str : List (BitVec 8)) (use : Use) : Prop where
  printed : strLines (newStrLit wchar (some e.char) str use) =
    some ((codeUnits (unitSize wchar e) codes ++ [0]).map (unitSize wchar e, ·))
  counted : use = .expression → inferArrayLen 0 (some e.char) str = (codeUnits (unitSize wchar e) codes).length + 1 ∧
    ∃ n, strLen (newStrLit wchar (some e.char) str use) = some n ∧
      min n (inferArrayLen 0 (some e.char) str * unitSize wchar e) = ((codeUnits (unitSize wchar e) codes).length + 1) * unitSize wchar e

/-- With two bytes a unit, there is no character above U+FFFF; and an initialiser of a static pointer is that literal, with four. -/
def WideKeeps (wchar : Nat) (e : Encoding) (codes : List Nat) : Use → Prop
  | .expression => unitSize wchar e = 2 → ∀ c ∈ codes, c < 0x10000
  | .label => unitSize wchar e = 4
  | .reloc => False

/-! ## UTF-8 -/

section Codes

variable {codes : List Nat} {c n : Nat}

/-- What `utf8` is made of: a byte that begins a character, and bytes that go on with it. -/
theorem utf8_bytes (h0 : c ≠ 0) (hc : c < 2 ^ 21) : ∃ (b : Nat) (bs : List Nat), utf8 c = Char.ofNat b :: bs.map Char.ofNat ∧ 0 < b ∧ b < 256 ∧
    (b < 128 ∨ 192 ≤ b) ∧ ∀ x ∈ bs, 128 ≤ x ∧ x < 192 := by
  rw [utf8]
  split
  · exact ⟨c, [], rfl, by omega, by omega, by omega, fun x hx => absurd hx List.not_mem_nil⟩
  split
  · refine ⟨0xC0 + c / 64, [0x80 + c % 64], rfl, by omega, by omega, by omega, ?_⟩
    simp only [List.forall_mem_cons]
    exact ⟨by omega, fun x hx => absurd hx List.not_mem_nil⟩
  split
  · refine ⟨0xE0 + c / 4096, [0x80 + c / 64 % 64, 0x80 + c % 64], rfl, by omega, by omega, by omega, ?_⟩
    simp only [List.forall_mem_cons]
    exact ⟨by omega, by omega, fun x hx => absurd hx List.not_mem_nil⟩
  · refine ⟨0xF0 + c / 262144 % 8, [0x80 + c / 4096 % 64, 0x80 + c / 64 % 64, 0x80 + c % 64], rfl, by omega, by omega, by omega, ?_⟩
    simp only [List.forall_mem_cons]
    exact ⟨by omega, by omega, by omega, fun x hx => absurd hx List.not_mem_nil⟩

/-- Characters that are not NUL. -/
def Characters (codes : List Nat) : Prop := ∀ c ∈ codes, c ≠ 0 ∧ c < 0x110000

theorem codePoints_utf8 (h : Characters codes) (hn : codes.length < n) : codePoints n (codes.flatMap utf8) = some codes := by
  induction codes generalizing n with
  | nil =>
      obtain ⟨n, rfl⟩ := Nat.exists_eq_add_one_of_ne_zero (Nat.ne_zero_of_lt hn)
      rfl
  | cons c codes ih =>
      obtain ⟨⟨h0, hc⟩, hcodes⟩ := List.forall_mem_cons.mp h
      obtain ⟨n, rfl⟩ := Nat.exists_eq_add_one_of_ne_zero (Nat.ne_zero_of_lt hn)
      obtain ⟨b, bs, hutf8, hpos, hbyte, _⟩ := utf8_bytes h0 (by omega)
      have hnul : Char.ofNat b ≠ Char.ofNat 0 := by
        intro heq
        have hnat := congrArg Char.toNat heq
        rw [toNat_ofNat hbyte, toNat_ofNat (by decide)] at hnat
        omega
      have hdecode := @decodeUtf8_utf8 c (by omega) (codes.flatMap utf8)
      rw [List.flatMap_cons]
      have hstep : codePoints (n + 1) (utf8 c ++ codes.flatMap utf8) =
          (decodeUtf8 (utf8 c ++ codes.flatMap utf8)).bind fun r =>
            (codePoints n ((utf8 c ++ codes.flatMap utf8).drop r.2)).map (r.1 :: ·) := by
        rw [hutf8, List.cons_append, codePoints, if_neg hnul]
      rw [hstep, hdecode, Option.bind_some]
      dsimp only
      rw [List.drop_left, ih hcodes (Nat.lt_of_succ_lt_succ hn)]
      rfl

theorem text_bytesOfText {t : Lexer.Text} (h : ∀ c ∈ t, c.toNat < 256) : text (bytesOfText t) = t := by
  induction t with
  | nil => rfl
  | cons c t ih =>
      obtain ⟨hc, ht⟩ := List.forall_mem_cons.mp h
      have hchar : Char.ofNat (BitVec.ofNat 8 c.toNat).toNat = c := by
        rw [BitVec.toNat_ofNat, Nat.mod_eq_of_lt hc, Char.ofNat_toNat]
      exact congrArg₂ _ hchar (ih ht)

/-- A continuation byte. -/
theorem continuation_iff (b : BitVec 8) : b &&& 0xC0 = 0x80 ↔ 128 ≤ b.toNat ∧ b.toNat < 192 := by
  revert b
  decide +kernel

/-- Every character has one byte that begins it, and none is NUL. -/
theorem bytes_utf8 (h0 : c ≠ 0) (hc : c < 2 ^ 21) : (∀ x ∈ utf8 c, x.toNat < 256) ∧ (∀ b ∈ bytesOfText (utf8 c), b ≠ 0) ∧
    (bytesOfText (utf8 c)).countP (fun b => b &&& 0xC0 ≠ 0x80) = 1 := by
  obtain ⟨b, bs, hutf8, hpos, hbyte, hbegins, hcontinues⟩ := utf8_bytes h0 hc
  have hchars : utf8 c = (b :: bs).map Char.ofNat := hutf8
  have hbytes : bytesOfText (utf8 c) = (b :: bs).map (BitVec.ofNat 8) := by
    rw [hchars, bytesOfText, List.map_map]
    refine List.map_inj_left.mpr fun x hx => ?_
    show BitVec.ofNat 8 (Char.ofNat x).toNat = _
    rcases List.mem_cons.mp hx with rfl | hx
    · rw [toNat_ofNat hbyte]
    · have hrange := hcontinues x hx
      rw [toNat_ofNat (by omega)]
  have hnat : ∀ x < 256, (BitVec.ofNat 8 x).toNat = x := fun x hx => by rw [BitVec.toNat_ofNat, Nat.mod_eq_of_lt hx]
  have hall : ∀ x ∈ b :: bs, 0 < x ∧ x < 256 := by
    refine List.forall_mem_cons.mpr ⟨⟨hpos, hbyte⟩, fun x hx => ?_⟩
    have hrange := hcontinues x hx
    omega
  refine ⟨fun x hx => ?_, fun y hy => ?_, ?_⟩
  · rw [hchars] at hx
    obtain ⟨v, hv, rfl⟩ := List.mem_map.mp hx
    rw [toNat_ofNat (hall v hv).2]
    exact (hall v hv).2
  · rw [hbytes] at hy
    obtain ⟨v, hv, rfl⟩ := List.mem_map.mp hy
    intro hzero
    have hv0 := hnat v (hall v hv).2
    rw [hzero] at hv0
    have hvpos := (hall v hv).1
    exact absurd hv0 (Nat.ne_of_lt hvpos)
  · have hrest : (bs.map (BitVec.ofNat 8)).countP (fun b => b &&& 0xC0 ≠ 0x80) = 0 := by
      refine List.countP_eq_zero.mpr fun y hy => ?_
      obtain ⟨v, hv, rfl⟩ := List.mem_map.mp hy
      have hrange := hcontinues v hv
      rw [decide_eq_true_eq, not_not, continuation_iff, hnat v (by omega)]
      exact hrange
    rw [hbytes, List.map_cons, List.countP_cons_of_pos, hrest]
    rw [decide_eq_true_eq, Ne, continuation_iff, hnat b hbyte]
    omega

theorem bytesOfText_cons (c : Nat) (codes : List Nat) :
    bytesOfText ((c :: codes).flatMap utf8) = bytesOfText (utf8 c) ++ bytesOfText (codes.flatMap utf8) := by
  rw [List.flatMap_cons, bytesOfText, List.map_append]
  rfl

theorem bytes_codes (h : Characters codes) : (∀ x ∈ codes.flatMap utf8, x.toNat < 256) ∧
    (∀ b ∈ bytesOfText (codes.flatMap utf8), b ≠ 0) ∧
      (bytesOfText (codes.flatMap utf8)).countP (fun b => b &&& 0xC0 ≠ 0x80) = codes.length := by
  induction codes with
  | nil => exact ⟨fun x hx => absurd hx List.not_mem_nil, fun b hb => absurd hb List.not_mem_nil, rfl⟩
  | cons c codes ih =>
      obtain ⟨⟨h0, hc⟩, hcodes⟩ := List.forall_mem_cons.mp h
      obtain ⟨hsmall, hne, hcount⟩ := bytes_utf8 h0 (show c < 2 ^ 21 by omega)
      obtain ⟨ihsmall, ihne, ihcount⟩ := ih hcodes
      rw [bytesOfText_cons]
      refine ⟨fun x hx => ?_, fun b hb => ?_, ?_⟩
      · rw [List.flatMap_cons] at hx
        rcases List.mem_append.mp hx with hx | hx
        · exact hsmall x hx
        · exact ihsmall x hx
      · rcases List.mem_append.mp hb with hb | hb
        · exact hne b hb
        · exact ihne b hb
      · rw [List.countP_append, hcount, ihcount, List.length_cons, Nat.add_comm]

/-- `utf8_len` counts the characters. -/
theorem utf8Len_codes (h : Characters codes) : utf8Len (bytesOfText (codes.flatMap utf8)) = codes.length := by
  obtain ⟨_, hne, hcount⟩ := bytes_codes h
  have hall : (bytesOfText (codes.flatMap utf8)).takeWhile (· ≠ 0) = bytesOfText (codes.flatMap utf8) :=
    List.takeWhile_eq_self_iff.mpr fun b hb => decide_eq_true (hne b hb)
  rw [utf8Len, hall, hcount]

theorem length_codes_le (h : Characters codes) : codes.length ≤ (codes.flatMap utf8).length := by
  obtain ⟨_, _, hcount⟩ := bytes_codes h
  have hle := @List.countP_le_length _ (fun b : BitVec 8 => b &&& 0xC0 ≠ 0x80) (bytesOfText (codes.flatMap utf8))
  rw [hcount, bytesOfText, List.length_map] at hle
  exact hle

/-! ## Units -/

theorem units_two {c : Nat} (h : c < 0x110000) : units 2 c = utf16 c := by
  rw [units, if_pos rfl, utf16]
  by_cases hc : c < 0x10000
  · rw [if_neg (by omega), if_pos hc]
  · have hhigh : 0xD800 ||| (c - 0x10000) >>> 10 = 0xD800 + (c - 0x10000) / 0x400 := by
      rw [Nat.shiftRight_eq_div_pow]
      exact (Nat.two_pow_add_eq_or_of_lt (i := 10) (show (c - 0x10000) / 2 ^ 10 < 2 ^ 10 by omega) 54).symm
    have hlow : 0xDC00 ||| (c - 0x10000) &&& 0x3FF = 0xDC00 + (c - 0x10000) % 0x400 := by
      rw [show 0x3FF = 2 ^ 10 - 1 from rfl, Nat.and_two_pow_sub_one_eq_mod]
      exact (Nat.two_pow_add_eq_or_of_lt (i := 10) (show (c - 0x10000) % 2 ^ 10 < 2 ^ 10 by omega) 55).symm
    rw [if_pos (by omega), if_neg hc, hhigh, hlow]

theorem units_codes (h : Characters codes) (size : Nat) : codes.flatMap (units size) = codeUnits size codes := by
  rw [codeUnits]
  by_cases h2 : size = 2
  · subst h2
    rw [if_pos rfl]
    exact List.flatMap_congr fun c hc => units_two (h c hc).2
  · have hone : ∀ c, units size c = [c] := fun c => if_neg h2
    rw [if_neg h2, List.flatMap_congr fun c _ => hone c]
    exact List.flatMap_singleton' codes

/-- One unit for a character, but for those above U+FFFF. -/
theorem length_utf16 (codes : List Nat) : codes.length ≤ (codes.flatMap utf16).length ∧
    ((codes.flatMap utf16).length = codes.length ↔ ∀ c ∈ codes, c < 0x10000) := by
  induction codes with
  | nil => exact ⟨le_refl _, iff_of_true rfl fun c hc => absurd hc List.not_mem_nil⟩
  | cons c codes ih =>
      obtain ⟨hle, hiff⟩ := ih
      rw [List.flatMap_cons, List.length_append, List.length_cons, List.forall_mem_cons, ← hiff, utf16]
      by_cases hc : c < 0x10000
      · rw [if_pos hc, List.length_singleton]
        omega
      · rw [if_neg hc]
        simp only [List.length_cons, List.length_nil]
        omega

end Codes

/-! ## Literals -/

/-- The bytes of a character are those of UTF-8. -/
theorem bytes_char {x : CChar} {quote : Char} {bits : Nat} (hx : x.Valid quote bits)
    (hchar : (∃ c, x = .plain c) ∨ ∃ digits, x = .universal digits) :
    x.bytes = utf8 x.code ∧ x.code ≠ 0 ∧ x.code < 0x110000 := by
  rcases hchar with ⟨c, rfl⟩ | ⟨digits, rfl⟩
  · obtain ⟨_, _, _, hnul⟩ := hx
    refine ⟨Lexer.utf8Bytes_eq c, fun h0 => hnul ?_, Lexer.char_toNat_lt c⟩
    rw [← Char.ofNat_toNat c]
    exact congrArg Char.ofNat h0
  · obtain ⟨_, _, hvalid, hvalue⟩ := hx
    have hnat : (Char.ofNat (numeral 16 digits)).toNat = numeral 16 digits := by
      rw [Char.toNat_ofNat, if_pos hvalid]
    have hlt := Lexer.char_toNat_lt (Char.ofNat (numeral 16 digits))
    rw [hnat] at hlt
    refine ⟨?_, ?_, hlt⟩
    · rw [CChar.bytes, Lexer.utf8Bytes_eq, hnat]
      rfl
    · show numeral 16 digits ≠ 0
      rcases hvalue with h | h
      · omega
      · intro h0
        rw [h0] at h
        exact absurd h (by decide)

theorem bytesOf_chars {cs : List CChar} {quote : Char} {bits : Nat} (hcs : WellSpelled quote bits cs) (hchars : OfCharacters cs) :
    bytesOf cs = (cs.map CChar.code).flatMap utf8 ∧ Characters (cs.map CChar.code) := by
  induction cs with
  | nil => exact ⟨rfl, fun c hc => absurd hc List.not_mem_nil⟩
  | cons x cs ih =>
      obtain ⟨hx, _, hcs⟩ := hcs
      obtain ⟨hchar, hchars⟩ := List.forall_mem_cons.mp hchars
      obtain ⟨hbytes, hcode⟩ := bytes_char hx hchar
      obtain ⟨ihbytes, ihcodes⟩ := ih hcs hchars
      rw [List.map_cons, List.flatMap_cons, ← ihbytes, ← hbytes]
      exact ⟨rfl, List.forall_mem_cons.mpr ⟨hcode, ihcodes⟩⟩

/-- The literals behind the first are of characters, too. -/
def AllCharacters (first : List CChar) (more : List (Lexer.Text × List CChar)) : Prop := OfCharacters first ∧ ∀ m ∈ more, OfCharacters m.2

theorem stringBytes_chars {first : List CChar} {more : List (Lexer.Text × List CChar)} {wchar : Nat}
    (hlit : (Literal.string first more).Valid wchar) (hchars : AllCharacters first more) :
    Literal.stringBytes first more = (codesOf first more).flatMap utf8 ∧ Characters (codesOf first more) := by
  obtain ⟨hfirst, hmore⟩ := hlit
  obtain ⟨hcfirst, hcmore⟩ := hchars
  obtain ⟨hbytes, hcodes⟩ := bytesOf_chars hfirst hcfirst
  have hrest : (more.flatMap fun m => bytesOf m.2) = (more.flatMap fun m => m.2.map CChar.code).flatMap utf8 ∧
      Characters (more.flatMap fun m => m.2.map CChar.code) := by
    induction more with
    | nil => exact ⟨rfl, fun c hc => absurd hc List.not_mem_nil⟩
    | cons m more ih =>
        obtain ⟨⟨_, hm⟩, hmore⟩ := List.forall_mem_cons.mp hmore
        obtain ⟨hcm, hcmore⟩ := List.forall_mem_cons.mp hcmore
        obtain ⟨hmbytes, hmcodes⟩ := bytesOf_chars hm hcm
        obtain ⟨ihbytes, ihcodes⟩ := ih hmore hcmore
        rw [List.flatMap_cons, List.flatMap_cons, List.flatMap_append, ← ihbytes, ← hmbytes]
        refine ⟨rfl, fun c hc => ?_⟩
        rcases List.mem_append.mp hc with hc | hc
        · exact hmcodes c hc
        · exact ihcodes c hc
  rw [Literal.stringBytes, codesOf, List.flatMap_append, ← hbytes, ← hrest.1]
  refine ⟨rfl, fun c hc => ?_⟩
  rcases List.mem_append.mp hc with hc | hc
  · exact hcodes c hc
  · exact hrest.2 c hc

section Emission

variable {wchar : Nat} {e : Encoding} {codes : List Nat} {use : Use}

theorem prefixSize_eq (hw : wchar = 2 ∨ wchar = 4) : prefixSize wchar (some e.char) = unitSize wchar e ∧
    (unitSize wchar e = 2 ∨ unitSize wchar e = 4) := by
  rcases hw with rfl | rfl <;> cases e <;> exact ⟨rfl, by decide⟩

/-- A wide literal with the characters in UTF-8 is decoded as it is printed. -/
theorem strLines_wide (h : Characters codes) (c : Char) (size : Nat) :
    strLines ⟨bytesOfText (codes.flatMap utf8), (bytesOfText (codes.flatMap utf8)).length, some c, size⟩ =
      some ((codeUnits size codes ++ [0]).map ((if size = 2 then 2 else 4), ·)) := by
  rw [strLines]
  dsimp only
  rw [text_bytesOfText (bytes_codes h).1, codePoints_utf8 h (Nat.lt_succ_of_le (length_codes_le h)), Option.map_some, units_codes h]

theorem strLen_wide (h : Characters codes) (c : Char) (size : Nat) :
    strLen ⟨bytesOfText (codes.flatMap utf8), (bytesOfText (codes.flatMap utf8)).length, some c, size⟩ =
      some ((codes.length + 1) * size) := by
  rw [strLen]
  dsimp only
  rw [text_bytesOfText (bytes_codes h).1, codePoints_utf8 h (Nat.lt_succ_of_le (length_codes_le h)), Option.map_some]

/-- Lines begin with the size of their unit. -/
theorem size_eq_of_lines {a b : Nat} {l l' : List Nat} (h : (l ++ [0]).map (a, ·) = (l' ++ [0]).map (b, ·)) : a = b := by
  have hlast := congrArg List.getLast? h
  rw [List.map_append, List.map_append, List.map_singleton, List.map_singleton, List.getLast?_concat, List.getLast?_concat] at hlast
  cases hlast
  rfl

theorem counted_iff (hw : wchar = 2 ∨ wchar = 4) (h : Characters codes) :
    (inferArrayLen 0 (some e.char) (bytesOfText (codes.flatMap utf8)) = (codeUnits (unitSize wchar e) codes).length + 1 ∧
      ∃ n, strLen (newStrLit wchar (some e.char) (bytesOfText (codes.flatMap utf8)) .expression) = some n ∧
        min n (inferArrayLen 0 (some e.char) (bytesOfText (codes.flatMap utf8)) * unitSize wchar e) =
          ((codeUnits (unitSize wchar e) codes).length + 1) * unitSize wchar e) ↔
      WideKeeps wchar e codes .expression := by
  have hinferred : inferArrayLen 0 (some e.char) (bytesOfText (codes.flatMap utf8)) = codes.length + 1 := by
    rw [inferArrayLen, if_neg (not_not_intro rfl), utf8Len_codes h]
  have hlen : strLen (newStrLit wchar (some e.char) (bytesOfText (codes.flatMap utf8)) .expression) =
      some ((codes.length + 1) * unitSize wchar e) := by
    rw [newStrLit, (prefixSize_eq hw).1]
    exact strLen_wide h _ _
  have hiff : (codeUnits (unitSize wchar e) codes).length = codes.length ↔ WideKeeps wchar e codes .expression := by
    rw [codeUnits, WideKeeps]
    by_cases h2 : unitSize wchar e = 2
    · rw [if_pos h2, (length_utf16 codes).2]
      exact ⟨fun hall _ => hall, fun hall => hall h2⟩
    · rw [if_neg h2]
      exact iff_of_true rfl fun heq => absurd heq h2
  rw [hinferred, hlen, ← hiff]
  constructor
  · rintro ⟨heq, _⟩
    omega
  · intro heq
    rw [heq]
    exact ⟨rfl, _, rfl, Nat.min_self _⟩

/-- From the token on. -/
theorem wideRight_iff (hw : wchar = 2 ∨ wchar = 4) (h : Characters codes) :
    WideRight wchar e codes (bytesOfText (codes.flatMap utf8)) use ↔ WideKeeps wchar e codes use := by
  obtain ⟨hsize, hcases⟩ := @prefixSize_eq wchar e hw
  cases use with
  | expression =>
      rw [← counted_iff hw h]
      refine ⟨fun hright => hright.counted rfl, fun hcounted => ⟨?_, fun _ => hcounted⟩⟩
      rw [newStrLit, hsize, strLines_wide h]
      rcases hcases with h2 | h4
      · rw [h2]
        rfl
      · rw [h4]
        rfl
  | label =>
      have hlines := strLines_wide h e.char 1
      constructor
      · intro hright
        have hprinted := hright.printed
        rw [newStrLit, hlines, Option.some_inj] at hprinted
        exact (size_eq_of_lines hprinted).symm
      · intro h4
        have h4 : unitSize wchar e = 4 := h4
        refine ⟨?_, fun huse => by cases huse⟩
        rw [newStrLit, hlines, h4]
        rfl
  | reloc =>
      refine iff_of_false (fun hright => ?_) id
      have hprinted := hright.printed
      have hlast : ((List.range (strlen (bytesOfText (codes.flatMap utf8)) + 1)).map (fun i =>
          (1, ((bytesOfText (codes.flatMap utf8)).getD i 0).toNat)) ++ [(1, 0)]).getLast? = some (1, 0) := List.getLast?_concat
      rw [newStrLit, strLines, Option.some_inj] at hprinted
      rw [hprinted, List.map_append, List.map_singleton, List.getLast?_concat, Option.some_inj, Prod.mk.injEq] at hlast
      omega

end Emission

/-- A token is made of the literals, and there is room for its bytes; and what is made of it is right. -/
def WideDecoded (uc : Lexer.Unicode) (wchar : Nat) (rest : Lexer.Text) (e : Encoding) (first : List CChar)
    (more : List (Lexer.Text × List CChar)) (use : Use) : Prop :=
  ∃ l bytes, lexeme uc (e.char :: (Literal.string first more).text ++ rest) = some (l, rest) ∧ l.kind? = some (.str bytes (some e.char)) ∧
    (∀ i ∈ scratchWrites ((Literal.string first more).text ++ rest).tail, i < scratchSize) ∧
      WideRight wchar e (codesOf first more) (bytesOfText bytes) use

/-- **Wide literals.** For every literal of characters and universal character names: its units are printed, and counted
and copied for arrays, if and only if its UTF-8 fits the buffer, no character takes two units in an array, and it is not in the
initialiser of a static pointer that has units of two bytes or is not the literal alone. -/
theorem wide_literal_iff (uc : Lexer.Unicode) {wchar : Nat} (hw : wchar = 2 ∨ wchar = 4) (e : Encoding) {first : List CChar}
    {more : List (Lexer.Text × List CChar)} {rest : Lexer.Text} (hlit : (Literal.string first more).Valid (8 * wchar))
    (hrest : (Literal.string first more).Before rest) (hchars : AllCharacters first more) (use : Use) :
    WideDecoded uc wchar rest e first more use ↔
      ((codesOf first more).flatMap utf8).length < scratchSize ∧ WideKeeps wchar e (codesOf first more) use := by
  obtain ⟨hbytes, hcodes⟩ := stringBytes_chars hlit hchars
  obtain ⟨l, hlexeme, hkind, hroom⟩ := Lexer.lexeme_wide uc e hlit hrest
  rw [hbytes] at hkind hroom
  rw [← hroom, ← wideRight_iff hw hcodes]
  constructor
  · rintro ⟨l', bytes, hlexeme', hkind', hwrites, hright⟩
    obtain rfl : l = l' := (Prod.mk.inj (Option.some_inj.mp (hlexeme.symm.trans hlexeme'))).1
    rw [hkind, Option.some_inj, Lexer.TokenKind.str.injEq] at hkind'
    rw [← hkind'.1] at hright
    exact ⟨hwrites, hright⟩
  · rintro ⟨hwrites, hright⟩
    exact ⟨l, _, hlexeme, hkind, hwrites, hright⟩

/-- `L"€"` -/
def euroSign : List CChar := [.universal ['2', '0', 'a', 'c']]

theorem euroSign_decoded : WideDecoded Lexer.asciiUnicode 4 [';'] .L euroSign [] .expression := by
  have hvalid : (Literal.string euroSign []).Valid (8 * 4) :=
    ⟨⟨⟨.inl rfl, by decide, by decide, .inl (by decide)⟩, trivial, trivial⟩, fun m hm => absurd hm List.not_mem_nil⟩
  have hbefore : (Literal.string euroSign []).Before [';'] := show Lexer.nextLiteral [';'] = none from rfl
  have hchars : AllCharacters euroSign [] :=
    ⟨fun x hx => .inr ⟨_, List.mem_singleton.mp hx⟩, fun m hm => absurd hm List.not_mem_nil⟩
  have hfits : ((codesOf euroSign []).flatMap utf8).length < scratchSize := show 3 < 2048 by decide
  have hfour : WideKeeps 4 .L (codesOf euroSign []) .expression := fun h2 => absurd h2 (by decide)
  exact (wide_literal_iff Lexer.asciiUnicode (.inr rfl) .L hvalid hbefore hchars .expression).mpr ⟨hfits, hfour⟩

/-- `u"\U0001F600"`: two units are printed, and one is counted. -/
def grinningFace : List CChar := [.universal ['0', '0', '0', '1', 'F', '6', '0', '0']]

theorem grinningFace_wrong : ¬ ∀ (uc : Lexer.Unicode) (wchar : Nat) (e : Encoding) (first : List CChar)
    (more : List (Lexer.Text × List CChar)) (rest : Lexer.Text) (use : Use), wchar = 2 ∨ wchar = 4 →
      (Literal.string first more).Valid (8 * wchar) → (Literal.string first more).Before rest → AllCharacters first more →
        WideDecoded uc wchar rest e first more use := by
  intro hclaim
  have hvalid : (Literal.string grinningFace []).Valid (8 * 4) :=
    ⟨⟨⟨.inr rfl, by decide, by decide, .inl (by decide)⟩, trivial, trivial⟩, fun m hm => absurd hm List.not_mem_nil⟩
  have hbefore : (Literal.string grinningFace []).Before [';'] := show Lexer.nextLiteral [';'] = none from rfl
  have hchars : AllCharacters grinningFace [] :=
    ⟨fun x hx => .inr ⟨_, List.mem_singleton.mp hx⟩, fun m hm => absurd hm List.not_mem_nil⟩
  obtain ⟨l, bytes, hlexeme, hkind, _, hright⟩ :=
    hclaim Lexer.asciiUnicode 4 .u grinningFace [] [';'] .expression (.inr rfl) hvalid hbefore hchars
  obtain ⟨hbytes, hcodes⟩ := stringBytes_chars hvalid hchars
  obtain ⟨l', hlexeme', hkind', _⟩ := Lexer.lexeme_wide Lexer.asciiUnicode .u hvalid hbefore
  obtain rfl : l' = l := (Prod.mk.inj (Option.some_inj.mp (hlexeme'.symm.trans hlexeme))).1
  rw [hkind', Option.some_inj, Lexer.TokenKind.str.injEq, hbytes] at hkind
  rw [← hkind.1, wideRight_iff (.inr rfl) hcodes] at hright
  have hsmall := hright rfl 0x1F600 (by decide)
  exact absurd hsmall (by decide)

end Rcc.Literals

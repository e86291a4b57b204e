import Mathlib

/-!
# Characters in literals

A character constant or a string literal is a sequence of characters and escapes between
quotation marks. An escape takes as many digits as it can, so a sequence is the one that its
text is read as if none of its escapes could go on with what comes next.

Text is a list of bytes, each as a character below 256. Characters outside of ASCII are
spelled in UTF-8, and universal character names stand for the same bytes.
-/

namespace Rcc.CLiteral

/-- What makes a constant a wide one. -/
inductive Encoding where
  | L | u | U
deriving DecidableEq

namespace Encoding

def char : Encoding → Char
  | L => 'L'
  | u => 'u'
  | U => 'U'

/-- The width of the type, where `wchar_t` has so many bits. All of the types are unsigned. -/
def bits (wchar : Nat) : Encoding → Nat
  | L => wchar
  | u => 16
  | U => 32

end Encoding

/-! ## Digits -/

def isOctal (c : Char) : Bool := '0' ≤ c && c ≤ '7'

def isHex (c : Char) : Bool := ('0' ≤ c && c ≤ '9') || ('a' ≤ c && c ≤ 'f') || ('A' ≤ c && c ≤ 'F')

theorem isHex_of_isOctal {c : Char} (h : isOctal c = true) : isHex c = true := by
  obtain ⟨hlow, hhigh⟩ := Bool.and_eq_true_iff.mp h
  have hhigh : c ≤ '9' := le_trans (of_decide_eq_true hhigh) (by decide)
  exact Bool.or_eq_true_iff.mpr (.inl (Bool.or_eq_true_iff.mpr (.inl (Bool.and_eq_true_iff.mpr ⟨hlow, decide_eq_true hhigh⟩))))

def digit (c : Char) : Nat :=
  if c ≤ '9' then c.toNat - '0'.toNat else if 'a' ≤ c then c.toNat - 'a'.toNat + 10 else c.toNat - 'A'.toNat + 10

def numeral (base : Nat) (digits : List Char) : Nat := digits.foldl (fun n c => n * base + digit c) 0

/-! ## Characters -/

inductive CChar where
  | plain (c : Char)
  /-- `\n` and the like -/
  | simple (c : Char)
  | octal (digits : List Char)
  | hex (digits : List Char)
  /-- `\u` with four digits or `\U` with eight -/
  | universal (digits : List Char)
deriving DecidableEq

def simpleValue : Char → Option Nat
  | '\'' => some 39
  | '"' => some 34
  | '?' => some 63
  | '\\' => some 92
  | 'a' => some 7
  | 'b' => some 8
  | 'f' => some 12
  | 'n' => some 10
  | 'r' => some 13
  | 't' => some 9
  | 'v' => some 11
  | _ => none

def utf8Bytes (c : Char) : List Char := (String.utf8EncodeChar c).map fun b => Char.ofNat b.toNat

namespace CChar

/-- The number of the character, or that of an escape. -/
def code : CChar → Nat
  | plain c => c.toNat
  | simple c => (simpleValue c).getD 0
  | octal digits => numeral 8 digits
  | hex digits => numeral 16 digits
  | universal digits => numeral 16 digits

def spelling : CChar → List Char
  | plain c => utf8Bytes c
  | simple c => ['\\', c]
  | octal digits => '\\' :: digits
  | hex digits => '\\' :: 'x' :: digits
  | universal digits => '\\' :: (if digits.length = 4 then 'u' else 'U') :: digits

/-- The bytes that it stands for. -/
def bytes : CChar → List Char
  | plain c => utf8Bytes c
  | universal digits => utf8Bytes (Char.ofNat (numeral 16 digits))
  | c => [Char.ofNat c.code]

/-- Between such quotation marks, where the values of the type have so many bits. -/
def Valid (quote : Char) (bits : Nat) : CChar → Prop
  | plain c => c ≠ quote ∧ c ≠ '\\' ∧ c ≠ '\n' ∧ c ≠ Char.ofNat 0
  | simple c => (simpleValue c).isSome = true
  | octal digits => digits ≠ [] ∧ digits.length ≤ 3 ∧ (∀ c ∈ digits, isOctal c = true) ∧ numeral 8 digits < 2 ^ bits
  | hex digits => digits ≠ [] ∧ (∀ c ∈ digits, isHex c = true) ∧ numeral 16 digits < 2 ^ bits
  | universal digits =>
      (digits.length = 4 ∨ digits.length = 8) ∧ (∀ c ∈ digits, isHex c = true) ∧ (numeral 16 digits).isValidChar ∧
        (0xA0 ≤ numeral 16 digits ∨ numeral 16 digits ∈ [0x24, 0x40, 0x60])

/-- It does not go on with what comes next. -/
def Ends (next : List Char) : CChar → Prop
  | octal digits => digits.length = 3 ∨ ∀ c ∈ next.head?, isOctal c = false
  | hex _ => ∀ c ∈ next.head?, isHex c = false
  | plain _ | simple _ | universal _ => True

end CChar

/-! ## Sequences -/

def spell (cs : List CChar) : List Char := cs.flatMap CChar.spelling

def bytesOf (cs : List CChar) : List Char := cs.flatMap CChar.bytes

theorem spell_cons (c : CChar) (cs : List CChar) : spell (c :: cs) = c.spelling ++ spell cs := rfl

/-- The sequence that the text between the quotation marks is read as. -/
def WellSpelled (quote : Char) (bits : Nat) : List CChar → Prop
  | [] => True
  | c :: cs => c.Valid quote bits ∧ c.Ends (spell cs) ∧ WellSpelled quote bits cs

/-- Behind all of them stands something that is no digit. -/
theorem CChar.Ends.append {c : CChar} {next rest : List Char} (h : c.Ends next) (hrest : ∀ d ∈ rest.head?, isHex d = false) :
    c.Ends (next ++ rest) := by
  have hoctal : ∀ d, isHex d = false → isOctal d = false := fun d hd =>
    Bool.eq_false_iff.mpr fun ho => ne_true_of_eq_false hd (isHex_of_isOctal ho)
  cases next with
  | nil =>
      cases c with
      | octal digits => exact .inr fun d hd => hoctal d (hrest d hd)
      | hex digits => exact hrest
      | plain | simple | universal => trivial
  | cons d next =>
      cases c with
      | octal digits => exact h
      | hex digits => exact h
      | plain | simple | universal => trivial

/-- The value that C gives to a character constant, if it gives one: to a single character that is one
byte, as a signed `char`, and to a single character that is in the wide type. -/
def constantValue (wchar : Nat) : Option Encoding → List CChar → Option Int
  | none, [c] => if c.bytes.length = 1 then some (BitVec.ofNat 8 c.code).toInt else none
  | some e, [c] => if c.code < 2 ^ e.bits wchar then some c.code else none
  | _, _ => none

end Rcc.CLiteral

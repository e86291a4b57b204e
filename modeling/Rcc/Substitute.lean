import Rcc.Lexer
import Rcc.MacroTable

/-!
# The body of a macro

`substitute_macro` goes through the body of a macro with one loop. As in the tokenizer
the loop is split here: `item` is what it comes upon at a place, `items` the whole body
cut into these, and `substitute` puts something into the buffer for each. Behind the
loop `paste_tokens` takes the `##` out of the buffer.

What is put for a parameter depends on the parameter and on the kind of item alone. So
the step has it as an argument, `form`, and the code is the step with the form it takes.
-/

namespace Rcc.Preprocess

open Lexer (Text isspace isdigit headIs startswith)
open Macros (Definition)

/-! ## Text -/

/-- `pp_is_ident1` -/
def isIdent1 (c : Char) : Bool := Lexer.isIdent1 c || 128 ≤ c.toNat

/-- `pp_is_ident2` -/
def isIdent2 (c : Char) : Bool := isIdent1 c || isdigit c

def stripEnd (s : Text) : Text := (s.reverse.dropWhile isspace).reverse

/-- `trim_copy` -/
def trim (s : Text) : Text := stripEnd (s.dropWhile isspace)

/-- `quote_string` -/
def quoteString (s : Text) : Text :=
  '"' :: s.flatMap (fun c => if c = '"' || c = '\\' then ['\\', c] else [c]) ++ ['"']

/-- A literal behind its first quotation mark, and what is behind it. It may have no end. -/
def literal (quote : Char) : Text → Text × Text
  | [] => ([], [])
  | [c] => ([c], [])
  | c :: d :: p =>
      if c = quote then ([c], d :: p)
      else if c = '\\' then (c :: d :: (literal quote p).1, (literal quote p).2)
      else (c :: (literal quote (d :: p)).1, (literal quote (d :: p)).2)

def isQuote (c : Char) : Bool := c = '"' || c = '\''

theorem headIs_dropWhile (f : Char → Bool) (p : Text) : headIs f (p.dropWhile f) = false := by
  induction p with
  | nil => rfl
  | cons c p ih =>
      by_cases hc : f c = true
      · rw [List.dropWhile_cons_of_pos hc, ih]
      · rw [List.dropWhile_cons_of_neg hc]
        exact Bool.eq_false_iff.mpr hc

/-! ## Kinds of characters -/

section Kinds

variable {c : Char}

theorem isIdent2_of_isIdent1 (hc : isIdent1 c = true) : isIdent2 c = true := Bool.or_eq_true_iff.mpr (.inl hc)

theorem isIdent1_toNat (hc : isIdent1 c = true) : c.toNat = 36 ∨ 65 ≤ c.toNat := by
  have hrange : ∀ d e : Char, (decide (d ≤ c) && decide (c ≤ e)) = true → d.toNat ≤ c.toNat := fun d e h =>
    of_decide_eq_true (Bool.and_eq_true_iff.mp h).1
  rcases Bool.or_eq_true_iff.mp hc with hident | hlarge
  · rcases Bool.or_eq_true_iff.mp hident with hident | hdollar
    · rcases Bool.or_eq_true_iff.mp hident with hident | hunder
      · rcases Bool.or_eq_true_iff.mp hident with hlower | hupper
        · exact .inr (Nat.le_trans (by decide) (hrange _ _ hlower))
        · exact .inr (Nat.le_trans (by decide) (hrange _ _ hupper))
      · rw [of_decide_eq_true hunder]
        exact .inr (by decide)
    · rw [of_decide_eq_true hdollar]
      exact .inl rfl
  · exact .inr (Nat.le_trans (by decide) (of_decide_eq_true hlarge))

theorem isQuote_of_isIdent1 (hc : isIdent1 c = true) : ¬ isQuote c = true := by
  intro hquote
  rcases Bool.or_eq_true_iff.mp hquote with h | h
  · rw [of_decide_eq_true h] at hc
    exact absurd hc (by decide)
  · rw [of_decide_eq_true h] at hc
    exact absurd hc (by decide)

theorem isspace_of_isIdent1 (hc : isIdent1 c = true) : ¬ isspace c = true := by
  intro hspace
  have hnat := isIdent1_toNat hc
  rcases Bool.or_eq_true_iff.mp hspace with h | h
  · rw [of_decide_eq_true h] at hnat
    exact absurd hnat (by decide)
  · have hle : c.toNat ≤ 13 := of_decide_eq_true (Bool.and_eq_true_iff.mp h).2
    omega

theorem isspace_of_isIdent2 {c : Char} (hc : isIdent2 c = true) : ¬ isspace c = true := by
  rcases Bool.or_eq_true_iff.mp hc with hident | hdigit
  · exact isspace_of_isIdent1 hident
  · intro hspace
    have hlow : 48 ≤ c.toNat := of_decide_eq_true (Bool.and_eq_true_iff.mp hdigit).1
    rcases Bool.or_eq_true_iff.mp hspace with h | h
    · rw [of_decide_eq_true h] at hlow
      exact absurd hlow (by decide)
    · have hle : c.toNat ≤ 13 := of_decide_eq_true (Bool.and_eq_true_iff.mp h).2
      omega

theorem isspace_of_isQuote (hc : isQuote c = true) : ¬ isspace c = true := by
  rcases Bool.or_eq_true_iff.mp hc with h | h
  · rw [of_decide_eq_true h]
    decide
  · rw [of_decide_eq_true h]
    decide

end Kinds

/-- A literal with something behind it has an end. -/
theorem literal_end {q : Char} {p : Text} (h : (literal q p).2 ≠ []) : ∃ u, (literal q p).1 = u ++ [q] := by
  fun_induction literal q p with
  | case1 => exact absurd rfl h
  | case2 c => exact absurd rfl h
  | case3 d p => exact ⟨[], rfl⟩
  | case4 d p hq ih =>
      obtain ⟨u, hu⟩ := ih h
      exact ⟨'\\' :: d :: u, by rw [hu]; rfl⟩
  | case5 c d p hq hc ih =>
      obtain ⟨u, hu⟩ := ih h
      exact ⟨c :: u, by rw [hu]; rfl⟩

/-! ## The items of a body -/

inductive Item where
  | literal (text : Text)
  | paste
  /-- `##` and `__VA_ARGS__` -/
  | pasteVa
  | stringize (name : Text)
  | hash
  | name (name : Text)
  | char (c : Char)
deriving DecidableEq

def vaArgs : String := "__VA_ARGS__"

/-- What the loop comes upon at `c :: p`, and what is behind it. -/
def item (isVariadic : Bool) (c : Char) (p : Text) : Item × Text :=
  if isQuote c then (.literal (c :: (literal c p).1), (literal c p).2)
  else if c = '#' && headIs (· = '#') p then
    let q := p.tail.dropWhile isspace
    if isVariadic && startswith q vaArgs && ! headIs isIdent2 (q.drop 11) then (.pasteVa, q.drop 11) else (.paste, q)
  else if c = '#' then
    let q := p.dropWhile isspace
    if headIs isIdent1 q then (.stringize (q.takeWhile isIdent2), q.dropWhile isIdent2) else (.hash, q)
  else if isIdent1 c then (.name (c :: p.takeWhile isIdent2), p.dropWhile isIdent2)
  else (.char c, p)

def itemsLoop (isVariadic : Bool) : Nat → Text → List Item
  | 0, _ => []
  | _ + 1, [] => []
  | n + 1, c :: p => (item isVariadic c p).1 :: itemsLoop isVariadic n (item isVariadic c p).2

def items (d : Definition) : List Item := itemsLoop d.isVariadic d.body.toList.length d.body.toList

/-! ## Arguments -/

/-- `find_param_index` -/
def findParamIndex (d : Definition) (name : Text) : Option Nat := d.params.findIdx? fun param => param.toList = name

/-- Where the merged arguments are. -/
def vaSlot (d : Definition) : Nat := if d.isGnuVariadic then d.params.length - 1 else d.params.length

/-- The parameter with the name of an item. -/
def slot (d : Definition) (name : Text) : Option Nat :=
  if d.isVariadic && name = vaArgs.toList then some (vaSlot d) else findParamIndex d name

def joinComma : List Text → Text
  | [] => []
  | [arg] => arg
  | arg :: args => arg ++ ',' :: joinComma args

/-- `args` and `argc`, once the variadic ones are in one slot. -/
def mergeArgs (d : Definition) (args : List Text) : List Text :=
  if d.isVariadic && d.params.length < args.length then args.take (vaSlot d) ++ [joinComma (args.drop (vaSlot d))]
  else args

/-! ## Substitution -/

/-- What the loop puts for a parameter; `none` leaves the item as it is. -/
def form (d : Definition) (args raw : List Text) : Item → Option Text
  | .stringize name =>
      (findParamIndex d name).bind fun k =>
        if k < (mergeArgs d args).length then some (quoteString (raw.getD k [])) else none
  | .name name =>
      if d.isVariadic && name = vaArgs.toList then some ((mergeArgs d args).getD (vaSlot d) [])
      else (findParamIndex d name).bind fun k => (mergeArgs d args)[k]?
  | .pasteVa => (mergeArgs d args)[vaSlot d]?
  | .literal _ | .paste | .hash | .char _ => none

/-- The spelling of an item in the buffer. -/
def Item.spelling : Item → Text
  | .literal text => text
  | .paste => ['#', '#']
  | .pasteVa => []
  | .stringize text => '#' :: text
  | .hash => ['#']
  | .name text => text
  | .char c => [c]

/-- Without a comma at the end: `,##__VA_ARGS__` where `__VA_ARGS__` is empty. -/
def dropComma (sb : Text) : Text :=
  if (stripEnd sb).getLast? = some ',' then (stripEnd sb).dropLast else stripEnd sb

def substStep (sb : Text) (item : Item) (form : Option Text) : Text :=
  match form, item with
  | some text, _ => sb ++ text
  | none, .pasteVa => dropComma sb
  | none, item => sb ++ item.spelling

/-- The buffer before a `##`: a blank keeps two operators apart. -/
def pasteEnd (sb q : Text) : Text :=
  if (stripEnd sb).getLast? = q.head? && headIs (fun c => c ∈ "+-&|<>".toList) q then stripEnd sb ++ [' ']
  else stripEnd sb

/-- The loop of `paste_tokens`, with the buffer `sb`. -/
def pasteLoop : Nat → Text → Text → Text
  | 0, sb, _ => sb
  | _ + 1, sb, [] => sb
  | n + 1, sb, c :: p =>
      if c = '#' && headIs (· = '#') p then
        pasteLoop n (pasteEnd sb (p.tail.dropWhile isspace)) (p.tail.dropWhile isspace)
      else pasteLoop n (sb ++ [c]) p

/-- `paste_tokens` -/
def pasteTokens (s : Text) : Text := pasteLoop s.length [] s

/-- `substitute_macro` -/
def substituteMacro (d : Definition) (args raw : List Text) : Text :=
  pasteTokens ((items d).foldl (fun sb item => substStep sb item (form d args raw item)) [])

end Rcc.Preprocess

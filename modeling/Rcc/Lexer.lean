import Mathlib

/-!
# The tokenizer

`tokenize` goes through the text with one loop, and counts the lines as it goes. The
loop is split here. `lexeme` is what it comes upon at a place, `spans` the whole text
cut into these, and `Tokenizer.step` what it does about one: it counts lines, sees a
line marker, or makes a token.

The text is one of bytes. The value of a floating constant is left out; so is the
warning about homoglyphs. There is no result where the tokenizer reports an error,
reads behind the end of the text or goes on for ever.
-/

namespace Rcc.Lexer

abbrev Text := List Char

/-! ## Characters -/

-- goes through the list, not through all characters there are
instance (priority := 2000) decidableForallMem {p : Char → Prop} [DecidablePred p] (l : Text) : Decidable (∀ c ∈ l, p c) :=
  List.decidableBAll p l

instance (priority := 2000) decidableExistsMem {p : Char → Prop} [DecidablePred p] (l : Text) : Decidable (∃ c ∈ l, p c) :=
  List.decidableBEx p l

def isspace (c : Char) : Bool := c = ' ' || (9 ≤ c.toNat && c.toNat ≤ 13)

def isdigit (c : Char) : Bool := '0' ≤ c && c ≤ '9'

def isxdigit (c : Char) : Bool := isdigit c || ('a' ≤ c && c ≤ 'f') || ('A' ≤ c && c ≤ 'F')

def ispunct (c : Char) : Bool :=
  ('!' ≤ c && c ≤ '/') || (':' ≤ c && c ≤ '@') || ('[' ≤ c && c.toNat ≤ 96) || ('\x7b' ≤ c && c ≤ '~')

def isIdent1 (c : Char) : Bool := ('a' ≤ c && c ≤ 'z') || ('A' ≤ c && c ≤ 'Z') || c = '_' || c = '$'

def isIdent2 (c : Char) : Bool := isIdent1 c || isdigit c

def isBlank (c : Char) : Bool := c = ' ' || c = '\t'

/-- The tables of `is32_ident1` and `is32_ident2`. Below 128 they have no other
characters than `is_ident2`. -/
structure Unicode where
  ident1 : Nat → Bool
  ident2 : Nat → Bool
  ascii : ∀ c < 128, ident2 c = true → isIdent2 (Char.ofNat c) = true

/-- Tables without any character. -/
def asciiUnicode : Unicode := ⟨fun _ => false, fun _ => false, fun _ _ h => absurd h Bool.false_ne_true⟩

/-- The bytes that go on with a character, added to it. -/
def continuation : Nat → Nat → Text → Option Nat
  | 0, c, _ => some c
  | n + 1, c, b :: p => if b.toNat / 64 = 2 then continuation n (c * 64 + b.toNat % 64) p else none
  | _ + 1, _, [] => none

/-- `decode_utf8`: the character, and how many bytes it has. -/
def decodeUtf8 : Text → Option (Nat × Nat)
  | [] => some (0, 1)
  | b :: p =>
      let b := b.toNat
      if b < 128 then some (b, 1)
      else if 0xF0 ≤ b then (continuation 3 (b % 8) p).map (·, 4)
      else if 0xE0 ≤ b then (continuation 2 (b % 16) p).map (·, 3)
      else if 0xC0 ≤ b then (continuation 1 (b % 32) p).map (·, 2)
      else none

def isPrefixChar (c : Char) : Bool := c = 'L' || c = 'u' || c = 'U'

/-- `startswith` -/
def startswith (p : Text) (q : String) : Bool := q.toList.isPrefixOf p

/-- `*p` satisfies a test; the 0 at the end of the text does not. -/
def headIs (f : Char → Bool) : Text → Bool
  | c :: _ => f c
  | [] => false

/-- `read_punct` -/
def readPunct (p : Text) : Nat :=
  if startswith p "..." then 3
  else if ["<<=", ">>="].any (startswith p) then 3
  else if ["==", "!=", "<=", ">=", "++", "--", "&&", "||", "->", "<<", ">>", "+=", "-=", "*=", "/=", "%=",
      "&=", "|=", "^="].any (startswith p) then 2
  else if headIs ispunct p then 1 else 0

/-! ## Numbers -/

/-- `from_hex` of a hexadecimal digit -/
def hexValue (c : Char) : Nat :=
  if isdigit c then c.toNat - 48 else if 'a' ≤ c then c.toNat - 97 + 10 else c.toNat - 65 + 10

/-- Digits to a base, without end. -/
def digitsValue (base : Nat) (digits : Text) : Nat :=
  digits.foldl (fun n c => n * base + hexValue c) 0

/-- `strtoull(q, NULL, 0)` -/
def strtoull (q : Text) : BitVec 64 :=
  let value := match q with
    | '0' :: x :: digits =>
        if (x = 'x' || x = 'X') && headIs isxdigit digits then digitsValue 16 (digits.takeWhile isxdigit)
        else digitsValue 8 ((x :: digits).takeWhile fun c => '0' ≤ c && c ≤ '7')
    | q => digitsValue 10 (q.takeWhile isdigit)
  BitVec.ofNat 64 (min value (2 ^ 64 - 1))

def isSuffix (c : Char) : Bool := c = 'u' || c = 'U' || c = 'l' || c = 'L'

/-- `e`, with a sign and digits. -/
def exponent (e E : Char) (p : Text) : Bool × Text :=
  match p with
  | c :: rest =>
      if c = e || c = E then (true, ((if headIs (fun c => c = '+' || c = '-') rest then rest.tail else rest).dropWhile isdigit))
      else (false, p)
  | [] => (false, p)

/-- A point with digits behind it, where one may stand. -/
def fraction (may : Bool) (digit : Char → Bool) (p : Text) : Bool × Text :=
  if headIs (· = '.') p && may then (true, p.tail.dropWhile digit) else (false, p)

/-- The suffix of a number, of which it is known whether it is floating. -/
def suffix (isFloat : Bool) (p : Text) : Bool × Text :=
  if headIs (fun c => c = 'f' || c = 'F') p then (true, p.tail)
  else if headIs (fun c => c = 'l' || c = 'L') p && isFloat then (isFloat, p.tail)
  else (isFloat, p.dropWhile isSuffix)

/-- What comes behind the first digits. -/
def numberRest (may : Bool) (digit : Char → Bool) (e E : Char) (p : Text) : Bool × Text :=
  let point := fraction may digit p
  let power := exponent e E point.2
  suffix (point.1 || power.1) power.2

def decimal (p : Text) : Bool × Text :=
  let p := p.dropWhile isdigit
  numberRest (! headIs (· = '.') p.tail) isdigit 'e' 'E' p

/-- A numeric literal: whether it is floating, and what is behind it. -/
def number (p : Text) : Bool × Text :=
  match p with
  | '0' :: x :: rest =>
      if x = 'x' || x = 'X' then numberRest true isxdigit 'p' 'P' (rest.dropWhile isxdigit)
      else if x = 'b' || x = 'B' then suffix false (rest.dropWhile fun c => c = '0' || c = '1')
      else decimal p
  | _ => decimal p

/-- `cur->val` of an integer -/
def intValue (q : Text) : BitVec 64 :=
  match q with
  | '0' :: x :: digits =>
      if x = 'b' || x = 'B' then BitVec.ofNat 64 (digitsValue 2 (digits.takeWhile fun c => c = '0' || c = '1'))
      else strtoull q
  | q => strtoull q

/-! ## Characters and strings -/

def getEscapeChar (c : Char) : Char :=
  match c with
  | 'a' => Char.ofNat 7
  | 'b' => Char.ofNat 8
  | 'f' => Char.ofNat 12
  | 'n' => '\n'
  | 'r' => '\r'
  | 't' => '\t'
  | 'v' => Char.ofNat 11
  | '0' => Char.ofNat 0
  | c => c

/-- `read_escaped_char`, behind the backslash -/
def readEscapedChar : Text → Option (Char × Text)
  | [] => none
  | c :: p =>
      if c = 'x' then
        if headIs isxdigit p then
          some (Char.ofNat (digitsValue 16 (p.takeWhile isxdigit) % 256), p.dropWhile isxdigit)
        else none
      else
        let octal := (c :: p.take 2).takeWhile fun c => '0' ≤ c && c ≤ '7'
        if octal ≠ [] then some (Char.ofNat (digitsValue 8 octal % 256), (c :: p).drop octal.length)
        else some (getEscapeChar c, p)

/-- The bytes of `\u` and `\U`. -/
def utf8 (val : Nat) : Text :=
  (if val < 0x80 then [val]
    else if val < 0x800 then [0xC0 + val / 64, 0x80 + val % 64]
    else if val < 0x10000 then [0xE0 + val / 4096, 0x80 + val / 64 % 64, 0x80 + val % 64]
    else [0xF0 + val / 262144 % 8, 0x80 + val / 4096 % 64, 0x80 + val / 64 % 64, 0x80 + val % 64]).map Char.ofNat

/-- Some characters of a string literal: one, or what a backslash stands for. -/
def stringChar : Text → Option (Text × Text)
  | '\\' :: 'u' :: p => universal 4 p
  | '\\' :: 'U' :: p => universal 8 p
  | '\\' :: p => (readEscapedChar p).map fun r => ([r.1], r.2)
  | c :: p => some ([c], p)
  | [] => none
where
  universal (digits : Nat) (p : Text) : Option (Text × Text) :=
    if (p.take digits).length = digits && (p.take digits).all isxdigit then
      some (utf8 (digitsValue 16 (p.take digits) % 2 ^ 32), p.drop digits)
    else none

/-- To the quote that closes a string, which must be on the line. -/
def stringBody : Nat → Text → Option (Text × Text)
  | 0, _ => none
  | _ + 1, [] => none
  | n + 1, c :: p =>
      if c = '"' then some ([], p)
      else if c = '\n' then none
      else (stringChar (c :: p)).bind fun (val, p) => (stringBody n p).map fun (vals, rest) => (val ++ vals, rest)

/-- A string literal, with those it is concatenated with: its value, what is behind
it, and the lines that are counted on the way, those of the blanks behind it too. -/
def stringPieces : Nat → Text → Option (Text × Text × Nat)
  | 0, _ => none
  | n + 1, p =>
      (stringBody (p.length + 1) p).bind fun (val, rest) =>
        let q := rest.dropWhile isspace
        let counted := (rest.takeWhile isspace).count '\n'
        let q := if headIs isPrefixChar q && headIs (· = '"') q.tail then q.tail else q
        match q with
        | '"' :: p => (stringPieces n p).map fun (vals, rest, more) => (val ++ vals, rest, counted + more)
        | _ => some (val, rest, counted)

/-- To the quote that closes a character constant. Its value is the last character. -/
def charBody : Nat → Char → Text → Option (Char × Text)
  | 0, _, _ => none
  | _ + 1, _, [] => none
  | n + 1, last, c :: p =>
      if c = '\'' then some (last, p)
      else if c = '\n' then none
      else if c = '\\' then (readEscapedChar p).bind fun r => charBody n r.1 r.2
      else charBody n c p

/-! ## Lexemes -/

inductive TokenKind where
  | num (val : BitVec 64)
  | fnum
  | ident (name : Text)
  /-- with the character before the quote -/
  | str (val : Text) (pre : Option Char)
  | punct
  | eof
deriving DecidableEq

/-- What the loop comes upon. Behind a string it has counted lines already; a marker
has its number, its file, and how long it is to the quote; the end of its line may
be that of the text. -/
inductive Lexeme where
  | blank
  | comment
  | directive
  | marker (n : Nat) (file : Text) (offset : Nat) (ended : Bool)
  | token (kind : TokenKind)
  /-- with as many characters before the quote -/
  | char (val : BitVec 64) (pre : Nat)
  | string (val : Text) (pre : Option Char) (counted : Nat)
deriving DecidableEq

/-- A `#` that begins no marker, where the search for one has come to `q`; but that
of `#pragma pack` is left. -/
def directive (q p : Text) : Option (Lexeme × Text) :=
  if startswith q "pragma" && startswith ((q.drop 6).dropWhile isBlank) "pack" then none
  else some (.directive, (p.dropWhile (· ≠ '\n')).tail)

def hash (p : Text) : Option (Lexeme × Text) :=
  let q := p.tail.dropWhile isBlank
  let q' := (q.dropWhile isdigit).dropWhile isBlank
  let file := q'.tail.takeWhile (· ≠ '"')
  let behind := q'.tail.dropWhile (· ≠ '"')
  if headIs isdigit q && headIs (· = '"') q' && behind ≠ [] then
    let rest := behind.tail.dropWhile (· ≠ '\n')
    some (.marker (digitsValue 10 (q.takeWhile isdigit)) file (p.length - behind.tail.length) (rest = []), rest)
  else directive (if headIs isdigit q then (if headIs (· = '"') q' then behind else q') else q) p

/-- Behind `*/` -/
def afterComment : Text → Option Text
  | '*' :: '/' :: p => some p
  | _ :: p => afterComment p
  | [] => none

/-- Behind the characters that an identifier goes on with. -/
def identRest (uc : Unicode) : Nat → Text → Option Text
  | 0, _ => none
  | n + 1, p =>
      (decodeUtf8 p).bind fun (c, len) =>
        if headIs isIdent2 p || uc.ident2 c then identRest uc n (p.drop len) else some p

/-- What is between a place and one behind it. -/
def between (p rest : Text) : Text := p.take (p.length - rest.length)

def identifier (uc : Unicode) (p : Text) (first : Nat) : Option (Lexeme × Text) :=
  (identRest uc (p.length + 1) (p.drop first)).map fun rest => (.token (.ident (between p rest)), rest)

/-- The characters before the quote of a character constant. -/
def charPrefix (p : Text) : Nat := if headIs isPrefixChar p && headIs (· = '\'') p.tail then 1 else 0

/-- A string, a character constant or a punctuator. -/
def quoted (p : Text) : Option (Lexeme × Text) :=
  if headIs (· = '"') p then
    (stringPieces (p.length + 1) p.tail).map fun (val, rest, counted) => (.string val none counted, rest)
  else if headIs isPrefixChar p && headIs (· = '"') p.tail then
    (stringPieces (p.length + 1) p.tail.tail).map fun (val, rest, counted) => (.string val p.head? counted, rest)
  else if headIs (· = '\'') (p.drop (charPrefix p)) then
    (charBody (p.length + 1) (Char.ofNat 0) (p.drop (charPrefix p)).tail).map fun (c, rest) =>
      (.char (BitVec.ofNat 64 (c.toNat % 256)) (charPrefix p), rest)
  else if readPunct p = 0 then none else some (.token .punct, p.drop (readPunct p))

/-- What the loop comes upon at `p`, and what is behind it. -/
def lexeme (uc : Unicode) (p : Text) : Option (Lexeme × Text) :=
  if headIs isspace p then some (.blank, p.tail)
  else
    match if headIs (· = '#') p then hash p else none with
    | some r => some r
    | none =>
        if startswith p "//" then some (.comment, p.dropWhile (· ≠ '\n'))
        else if startswith p "/*" then (afterComment (p.drop 2)).map fun rest => (.comment, rest)
        else if headIs isdigit p || (headIs (· = '.') p && headIs isdigit p.tail) then
          let (isFloat, rest) := number p
          some (.token (if isFloat then .fnum else .num (intValue (between p rest))), rest)
        else if headIs (fun c => 128 ≤ c.toNat) p then
          (decodeUtf8 p).bind fun (c, len) => if uc.ident1 c then identifier uc p len else none
        else if headIs isIdent1 p && ! (headIs isPrefixChar p &&
            headIs (fun c => c = '"' || c = '\'') p.tail) then identifier uc p 1
        else quoted p

/-- The text cut into what the loop comes upon. -/
def spans (uc : Unicode) (p : Text) : Option (List (Lexeme × Text)) :=
  if p = [] then some []
  else
    match lexeme uc p with
    | none => none
    | some (l, rest) =>
        if rest.length < p.length then (spans uc rest).map fun ls => (l, between p rest) :: ls else none
termination_by p.length

theorem spans_cons {uc : Unicode} {p rest : Text} {l : Lexeme} {ls : List (Lexeme × Text)}
    (h : lexeme uc p = some (l, rest)) (hlt : rest.length < p.length) (hrest : spans uc rest = some ls) : spans uc p = some ((l, between p rest) :: ls) := by
  have hne : p ≠ [] := List.ne_nil_of_length_pos (Nat.zero_lt_of_lt hlt)
  rw [spans, if_neg hne, h]
  show (if rest.length < p.length then (spans uc rest).map _ else none) = _
  rw [if_pos hlt, hrest]
  rfl

theorem spans_nil (uc : Unicode) : spans uc [] = some [] := by
  rw [spans, if_pos rfl]

/-! ## The lines -/

/-- `loc` is counted from the beginning of the text; `text` is what was read. -/
structure Token where
  kind : TokenKind
  loc : Int
  len : Nat
  lineno : Int
  filename : Text
  text : Text
deriving DecidableEq

/-- The variables of the loop: the place, `cur_lineno`, `current_input`,
`current_line_offset`, `line_num`, `current_debug_filename`, and the tokens, the last
one first, each with the number of lexemes before it. -/
structure Tokenizer where
  count : Nat
  pos : Nat
  curLineno : Int
  currentInput : Nat
  currentLineOffset : Nat
  lineNum : Int
  filename : Text
  tokens : List (Nat × Token)

/-- For the first file. -/
def Tokenizer.start (filename : Text) : Tokenizer := ⟨0, 0, 1, 0, 0, 1, filename, []⟩

/-- `new_token`, with debug info on -/
def Tokenizer.newToken (s : Tokenizer) (kind : TokenKind) (loc : Int) (len : Nat) (text : Text) : Tokenizer :=
  { s with tokens := (s.count, ⟨kind, loc, len, s.curLineno, s.filename, text⟩) :: s.tokens }

/-- Behind a lexeme. -/
def Tokenizer.move (s : Tokenizer) (text : Text) (lines : Int) : Tokenizer :=
  { s with count := s.count + 1, pos := s.pos + text.length, curLineno := s.curLineno + lines }

def Tokenizer.step (s : Tokenizer) : Lexeme × Text → Tokenizer
  | (.blank, text) => s.move text (text.count '\n')
  | (.comment, text) => s.move text (text.count '\n')
  | (.directive, text) => s.move text (text.count '\n')
  | (.marker n file offset ended, text) =>
      { s with
        count := s.count + 1
        pos := s.pos + text.length
        -- the end of the line is counted here, and met again
        curLineno := if ended then n else n + 1
        currentInput := s.pos
        currentLineOffset := offset
        lineNum := n - 1
        filename := file }
  | (.token kind, text) => (s.newToken kind s.pos text.length text).move text 0
  | (.char val pre, text) =>
      (s.newToken (.num val) (s.pos + pre) (text.length - pre) (text.drop pre)).move text 0
  | (.string val none counted, text) =>
      ({ s with curLineno := s.curLineno + counted }.newToken (.str val none) s.pos val.length text).move text 0
  -- `start = p - prefix`, where `prefix` is the character
  | (.string val (some c) counted, text) =>
      ({ s with curLineno := s.curLineno + counted }.newToken (.str val (some c)) (s.pos + 1 - c.toNat)
        val.length text).move text 0

/-- The state at the end, where the last token is that of the end. -/
def tokenize (uc : Unicode) (filename input : Text) : Option Tokenizer :=
  (spans uc input).map fun ls =>
    let s := ls.foldl Tokenizer.step (.start filename)
    s.newToken .eof s.pos 0 []

theorem tokenize_of_spans {uc : Unicode} {filename input : Text} {ls : List (Lexeme × Text)} (h : spans uc input = some ls) :
    tokenize uc filename input = some ((ls.foldl Tokenizer.step (.start filename)).newToken .eof
      (ls.foldl Tokenizer.step (.start filename)).pos 0 []) := by
  rw [tokenize, h]
  rfl

/-- `while (current_input < line && line[-1] != '\n') line--;` -/
def lineStart (input : Text) (currentInput : Nat) : Nat → Nat
  | 0 => 0
  | line + 1 => if currentInput < line + 1 ∧ input[line]? ≠ some '\n' then lineStart input currentInput line else line + 1

/-- The lines that end from `p` to `line`. -/
def countLines (input : Text) (p line : Nat) : Nat := ((input.take line).drop p).count '\n'

/-- `compute_line_no` -/
def computeLineNo (input : Text) (s : Tokenizer) (loc : Int) : Int :=
  -- a place before the text is left as it is
  let line := lineStart input s.currentInput loc.toNat
  if s.currentLineOffset = 0 ∨ loc < s.currentInput + s.currentLineOffset then
    1 + countLines input s.currentInput line
  else s.lineNum + countLines input (s.currentInput + s.currentLineOffset) line

end Rcc.Lexer

import Rcc.LexerLoop

/-!
# The buffer of a string literal

`tokenize` decodes a string literal into a buffer of 2048 bytes, and the literals that
follow it into the same one, behind it. Nothing counts the bytes. So the elements that
are written are those from the first on, one for each byte that the literals stand for,
and one more for the 0 behind them if the last literal has an end.

How many bytes they stand for is said by the text alone: one for a character and for an
escape, and one to four for a universal character name.
-/

namespace Rcc.Lexer

open Loops (Reached)

/-! ## What is written -/

/-- The length of `buf`. -/
def scratchSize : Nat := 2048

/-- Some characters of a literal, behind `len` bytes: the indices that are written, the new
`len`, and what is behind the characters, unless an error is reported. -/
def charWrites (len : Nat) (p : Text) : List Nat × Option (Nat × Text) :=
  match stringChar p with
  | some (val, rest) => (List.range' len val.length, some (len + val.length, rest))
  -- a backslash at the end of the text escapes the 0 behind it
  | none => (if p = ['\\'] then [len] else [], none)

/-- A literal, behind `len` bytes. -/
def bodyWrites : Nat → Nat → Text → List Nat × Option (Nat × Text)
  | 0, _, _ => ([], none)
  | _ + 1, _, [] => ([], none)
  | n + 1, len, c :: p =>
      if c = '"' then ([], some (len, p))
      else if c = '\n' then ([], none)
      else
        match charWrites len (c :: p) with
        | (written, none) => (written, none)
        | (written, some (len, p)) => (written ++ (bodyWrites n len p).1, (bodyWrites n len p).2)

/-- Behind the quote of the literal that a literal is concatenated with. -/
def nextLiteral (rest : Text) : Option Text :=
  let q := rest.dropWhile isspace
  let q := if headIs isPrefixChar q && headIs (· = '"') q.tail then q.tail else q
  match q with
  | '"' :: p => some p
  | _ => none

/-- A literal with those it is concatenated with, behind `len` bytes. -/
def pieceWrites : Nat → Nat → Text → List Nat
  | 0, _, _ => []
  | n + 1, len, p =>
      match bodyWrites (p.length + 1) len p with
      | (written, none) => written
      | (written, some (len, rest)) =>
          written ++
            match nextLiteral rest with
            | some p => pieceWrites n len p
            | none => [len]

/-- The indices of the buffer that are written for a string literal, from behind its quote. -/
def scratchWrites (p : Text) : List Nat := pieceWrites (p.length + 1) 0 p

/-- Behind the quote, where a string literal begins. -/
def stringStart (p : Text) : Option Text :=
  if headIs (· = '"') p then some p.tail
  else if headIs isPrefixChar p && headIs (· = '"') p.tail then some p.tail.tail
  else none

/-- Wherever the loop of `tokenize` comes to a string literal, what is written is in the buffer. -/
def InScratch (d : Decoder) (input : Text) : Prop :=
  ∀ p q, Reached (turn d) input p → stringStart p = some q → ∀ i ∈ scratchWrites q, i < scratchSize

/-! ## What the literals stand for -/

/-- How long a character is in UTF-8. -/
def utf8Size (val : Nat) : Nat := if val < 0x80 then 1 else if val < 0x800 then 2 else if val < 0x10000 then 3 else 4

/-- A universal character name with so many digits: its bytes, and what is behind it, if it has them. -/
def universalSize (digits : Nat) (p : Text) : Nat × Option Text :=
  if (p.take digits).length = digits && (p.take digits).all isxdigit then
    (utf8Size (digitsValue 16 (p.take digits)), some (p.drop digits))
  else (0, none)

/-- Behind an escape that begins with these characters. -/
def afterEscape : Text → Option Text
  | [] => none
  | c :: p =>
      if c = 'x' then if headIs isxdigit p then some (p.dropWhile isxdigit) else none
      else some ((c :: p).drop (max 1 ((c :: p.take 2).takeWhile fun c => '0' ≤ c && c ≤ '7').length))

/-- A character of a literal, in the same way. -/
def charBytes : Text → Nat × Option Text
  | '\\' :: 'u' :: p => universalSize 4 p
  | '\\' :: 'U' :: p => universalSize 8 p
  | '\\' :: p => (if afterEscape p = none && p ≠ [] then 0 else 1, afterEscape p)
  | _ :: p => (1, some p)
  | [] => (0, none)

/-- The characters up to the quote that closes a literal. -/
def bodyBytes : Nat → Text → Nat × Option Text
  | 0, _ => (0, none)
  | _ + 1, [] => (0, none)
  | n + 1, c :: p =>
      if c = '"' then (0, some p)
      else if c = '\n' then (0, none)
      else
        match charBytes (c :: p) with
        | (k, none) => (k, none)
        | (k, some p) => (k + (bodyBytes n p).1, (bodyBytes n p).2)

/-- All the literals that are concatenated, and whether the last one is closed. -/
def runBytes : Nat → Text → Nat × Bool
  | 0, _ => (0, false)
  | n + 1, p =>
      match bodyBytes (p.length + 1) p with
      | (k, none) => (k, false)
      | (k, some rest) =>
          match nextLiteral rest with
          | some p => (k + (runBytes n p).1, (runBytes n p).2)
          | none => (k, true)

/-- From behind its quote, a string literal stands for no more bytes than there is room for,
with a 0 if it is closed. -/
def FitsScratch (p : Text) : Prop :=
  (runBytes (p.length + 1) p).1 + (runBytes (p.length + 1) p).2.toNat ≤ scratchSize

/-! ## Characters -/

variable {p rest : Text} {len n : Nat}

theorem length_utf8 (val : Nat) : (utf8 val).length = utf8Size val := by
  rw [utf8, utf8Size, List.length_map]
  split
  · rfl
  split
  · rfl
  split
  · rfl
  · rfl

theorem isdigit_iff {c : Char} : isdigit c = true ↔ 48 ≤ c.toNat ∧ c.toNat ≤ 57 := by
  rw [isdigit, Bool.and_eq_true, decide_eq_true_eq, decide_eq_true_eq]
  exact Iff.rfl

theorem isxdigit_iff {c : Char} : isxdigit c = true ↔
    (48 ≤ c.toNat ∧ c.toNat ≤ 57) ∨ (97 ≤ c.toNat ∧ c.toNat ≤ 102) ∨ (65 ≤ c.toNat ∧ c.toNat ≤ 70) := by
  rw [isxdigit, Bool.or_eq_true, Bool.or_eq_true, isdigit_iff, or_assoc]
  simp only [Bool.and_eq_true, decide_eq_true_eq]
  exact Iff.rfl

theorem hexValue_lt {c : Char} (h : isxdigit c = true) : hexValue c < 16 := by
  have hx := isxdigit_iff.mp h
  rw [hexValue]
  split
  · next hd =>
      have hdigit := isdigit_iff.mp hd
      omega
  · next hd =>
      have hdigit : ¬ (48 ≤ c.toNat ∧ c.toNat ≤ 57) := fun h => hd (isdigit_iff.mpr h)
      split
      · next ha =>
          have ha : 97 ≤ c.toNat := ha
          omega
      · next ha =>
          have ha : ¬ 97 ≤ c.toNat := ha
          omega

theorem digitsValue_snoc (base : Nat) (digits : Text) (c : Char) :
    digitsValue base (digits ++ [c]) = digitsValue base digits * base + hexValue c := by
  rw [digitsValue, List.foldl_append]
  rfl

theorem digitsValue_hex {digits : Text} (h : ∀ c ∈ digits, isxdigit c = true) :
    digitsValue 16 digits < 16 ^ digits.length := by
  induction digits using List.reverseRecOn with
  | nil => exact Nat.one_pos
  | append_singleton digits c ih =>
      have hlast := hexValue_lt (h c (List.mem_append_right _ (List.mem_singleton_self c)))
      have hinit := ih fun d hd => h d (List.mem_append_left _ hd)
      rw [digitsValue_snoc, List.length_append, List.length_singleton, pow_succ]
      omega

theorem universal_size {digits : Nat} (hdigits : digits ≤ 8) (p : Text) :
    universalSize digits p = match stringChar.universal digits p with
      | some (val, rest) => (val.length, some rest)
      | none => (0, none) := by
  rw [universalSize, stringChar.universal]
  split
  · next h =>
      obtain ⟨hlength, hall⟩ := Bool.and_eq_true_iff.mp h
      have hvalue := digitsValue_hex (List.all_eq_true.mp hall)
      rw [of_decide_eq_true hlength] at hvalue
      have hpow : 16 ^ digits ≤ 2 ^ 32 := Nat.pow_le_pow_right (by decide) hdigits
      dsimp only
      rw [length_utf8, Nat.mod_eq_of_lt (Nat.lt_of_lt_of_le hvalue hpow)]
  · rfl

theorem afterEscape_eq (p : Text) : afterEscape p = (readEscapedChar p).map Prod.snd := by
  cases p with
  | nil => rfl
  | cons c p =>
      rw [afterEscape, readEscapedChar]
      split
      · split
        · rfl
        · rfl
      · dsimp only
        split
        · next h =>
            have hpos := List.length_pos_of_ne_nil h
            rw [Nat.max_eq_right hpos]
            rfl
        · next h =>
            rw [Decidable.not_not.mp h]
            rfl

/-- The text says of a character how many bytes it is decoded to. -/
theorem charBytes_eq (p : Text) :
    charBytes p = match stringChar p with
      | some (val, rest) => (val.length, some rest)
      | none => (if p = ['\\'] then 1 else 0, none) := by
  rw [charBytes.eq_def]
  split
  · next q =>
      rw [stringChar, universal_size (by decide), if_neg (by simp)]
  · next q =>
      rw [stringChar, universal_size (by decide), if_neg (by simp)]
  · next q hu hU =>
      rw [stringChar.eq_3 q hu hU, afterEscape_eq]
      cases hread : readEscapedChar q with
      | none =>
          by_cases hq : q = []
          · rw [hq]
            rfl
          · rw [if_pos (by simp [hq])]
            show _ = (if '\\' :: q = ['\\'] then 1 else 0, none)
            rw [if_neg (by simp [hq])]
            rfl
      | some r => rfl
  · next c q hu hU hescape =>
      rw [stringChar.eq_4 c q hu hU hescape]
      rfl
  · rfl

theorem charWrites_eq (len : Nat) (p : Text) : charWrites len p =
    (List.range' len (charBytes p).1, (charBytes p).2.map fun rest => (len + (charBytes p).1, rest)) := by
  rw [charWrites, charBytes_eq]
  cases stringChar p with
  | none =>
      dsimp only
      split
      · rfl
      · rfl
  | some r => rfl

/-! ## Literals -/

theorem bodyWrites_eq (n len : Nat) (p : Text) : bodyWrites n len p =
    (List.range' len (bodyBytes n p).1, (bodyBytes n p).2.map fun rest => (len + (bodyBytes n p).1, rest)) := by
  induction n generalizing len p with
  | zero => rfl
  | succ n ih =>
      cases p with
      | nil => rfl
      | cons c p =>
          rw [bodyWrites, bodyBytes]
          split
          · rfl
          split
          · rfl
          rw [charWrites_eq]
          cases hchar : charBytes (c :: p) with
          | mk k q =>
              cases q with
              | none => rfl
              | some q =>
                  dsimp only [Option.map_some]
                  rw [ih, ← Nat.add_assoc]
                  dsimp only
                  rw [← List.range'_append_1]

/-- What is written for the literals is one element after the other. -/
theorem pieceWrites_eq (n len : Nat) (p : Text) :
    pieceWrites n len p = List.range' len ((runBytes n p).1 + (runBytes n p).2.toNat) := by
  induction n generalizing len p with
  | zero => rfl
  | succ n ih =>
      rw [pieceWrites, runBytes, bodyWrites_eq]
      cases hbody : bodyBytes (p.length + 1) p with
      | mk k rest =>
          cases rest with
          | none => rfl
          | some rest =>
              dsimp only [Option.map_some]
              cases hnext : nextLiteral rest with
              | none =>
                  dsimp only
                  rw [Bool.toNat_true, ← List.range'_append_1]
                  rfl
              | some q =>
                  dsimp only
                  rw [ih, Nat.add_assoc, List.range'_append_1]

theorem fitsScratch_iff (p : Text) : (∀ i ∈ scratchWrites p, i < scratchSize) ↔ FitsScratch p := by
  rw [scratchWrites, pieceWrites_eq, FitsScratch]
  generalize (runBytes (p.length + 1) p).1 + _ = k
  constructor
  · intro h
    cases k with
    | zero => exact Nat.zero_le _
    | succ k => exact h k (List.mem_range'_1.mpr ⟨Nat.zero_le k, by omega⟩)
  · intro h i hi
    have hlt := (List.mem_range'_1.mp hi).2
    omega

/-- **The buffer of a string literal.** All that is written while a text is cut into tokens
is in the buffer if and only if, wherever the loop comes to a string literal, it and those
that follow it stand for at most 2047 bytes, or 2048 before an error. -/
theorem scratch_in_bounds_iff (d : Decoder) (input : Text) : InScratch d input ↔
    ∀ p q, Reached (turn d) input p → stringStart p = some q → FitsScratch q :=
  forall_congr' fun _ => forall_congr' fun q => forall_congr' fun _ => forall_congr' fun _ => fitsScratch_iff q

/-! ## The value -/

theorem stringBody_bytes {val : Text} (h : stringBody n p = some (val, rest)) : bodyBytes n p = (val.length, some rest) := by
  induction n generalizing p val with
  | zero => cases h
  | succ n ih =>
      cases p with
      | nil => cases h
      | cons c p =>
          rw [stringBody] at h
          rw [bodyBytes]
          split at h
          · next hc =>
              obtain ⟨rfl, rfl⟩ := Prod.mk.inj (Option.some_inj.mp h)
              rw [if_pos hc]
              rfl
          split at h
          · cases h
          · next hquote hline =>
              obtain ⟨⟨v, q⟩, hchar, h⟩ := Option.bind_eq_some_iff.mp h
              obtain ⟨⟨vals, r⟩, hbody, h⟩ := Option.map_eq_some_iff.mp h
              obtain ⟨rfl, rfl⟩ := Prod.mk.inj h
              rw [if_neg hquote, if_neg hline, charBytes_eq, hchar]
              dsimp only
              rw [ih hbody, List.length_append]

theorem stringPieces_next (n : Nat) (p : Text) : stringPieces (n + 1) p =
    (stringBody (p.length + 1) p).bind fun r =>
      match nextLiteral r.2 with
      | some q => (stringPieces n q).map fun s => (r.1 ++ s.1, s.2.1, (r.2.takeWhile isspace).count '\n' + s.2.2)
      | none => some (r.1, r.2, (r.2.takeWhile isspace).count '\n') := by
  rw [stringPieces]
  refine Option.bind_congr fun r _ => ?_
  unfold nextLiteral
  dsimp only
  generalize (if headIs isPrefixChar (r.2.dropWhile isspace) && headIs (· = '"') (r.2.dropWhile isspace).tail
    then (r.2.dropWhile isspace).tail else r.2.dropWhile isspace) = q
  cases q with
  | nil => rfl
  | cons c q =>
      by_cases hquote : c = '"'
      · subst hquote
        rfl
      · simp [hquote]

/-- The value of the literals has the bytes that they stand for. -/
theorem stringPieces_bytes {val : Text} {counted : Nat} (h : stringPieces n p = some (val, rest, counted)) :
    runBytes n p = (val.length, true) := by
  induction n generalizing p val counted with
  | zero => cases h
  | succ n ih =>
      rw [stringPieces_next] at h
      obtain ⟨⟨v, q⟩, hbody, h⟩ := Option.bind_eq_some_iff.mp h
      rw [runBytes, stringBody_bytes hbody]
      dsimp only at h ⊢
      cases hnext : nextLiteral q with
      | none =>
          rw [hnext] at h
          obtain ⟨rfl, _⟩ := Prod.mk.inj (Option.some_inj.mp h)
          rfl
      | some r =>
          rw [hnext] at h
          obtain ⟨⟨vals, q', more⟩, hpieces, h⟩ := Option.map_eq_some_iff.mp h
          obtain ⟨rfl, hrest⟩ := Prod.mk.inj h
          obtain ⟨rfl, _⟩ := Prod.mk.inj hrest
          dsimp only
          rw [ih hpieces, List.length_append]

/-- At the place of a string literal the loop decodes it, from behind its quote. -/
theorem lexeme_string {uc : Unicode} {q : Text} (h : stringStart p = some q) : lexeme uc p =
    (stringPieces (p.length + 1) q).map fun r => (.string r.1 (if headIs (· = '"') p then none else p.head?) r.2.2, r.2.1) := by
  cases p with
  | nil => cases h
  | cons c p =>
      rw [stringStart] at h
      by_cases hc : c = '"'
      · obtain rfl := hc
        obtain rfl := Option.some_inj.mp h
        rfl
      · have hhead : headIs (· = '"') (c :: p) = false := decide_eq_false hc
        rw [hhead, if_neg Bool.false_ne_true] at h
        obtain ⟨hpre, h⟩ := Option.ite_none_right_eq_some.mp h
        obtain rfl := Option.some_inj.mp h
        obtain ⟨hpre, hquote⟩ := Bool.and_eq_true_iff.mp hpre
        cases p with
        | nil => cases hquote
        | cons d p =>
            obtain rfl : d = '"' := of_decide_eq_true hquote
            have hcases : c = 'L' ∨ c = 'u' ∨ c = 'U' := by
              have hpre : isPrefixChar c = true := hpre
              simpa only [isPrefixChar, Bool.or_eq_true, decide_eq_true_eq, or_assoc] using hpre
            rcases hcases with rfl | rfl | rfl
            · rfl
            · rfl
            · rfl

/-- The text of a literal without an escape. -/
theorem bodyBytes_plain {s : Text} (hplain : ∀ c ∈ s, c ≠ '"' ∧ c ≠ '\\' ∧ c ≠ '\n') (rest : Text) (hn : s.length < n) :
    bodyBytes n (s ++ '"' :: rest) = (s.length, some rest) := by
  induction s generalizing n with
  | nil =>
      obtain ⟨n, rfl⟩ := Nat.exists_eq_add_one_of_ne_zero (Nat.ne_zero_of_lt hn)
      rfl
  | cons c s ih =>
      obtain ⟨n, rfl⟩ := Nat.exists_eq_add_one_of_ne_zero (Nat.ne_zero_of_lt hn)
      obtain ⟨⟨hquote, hescape, hline⟩, hplain⟩ := List.forall_mem_cons.mp hplain
      have hchar : charBytes (c :: (s ++ '"' :: rest)) = (1, some (s ++ '"' :: rest)) :=
        charBytes.eq_4 c _ (fun _ h _ => hescape h) (fun _ h _ => hescape h) hescape
      rw [List.cons_append, bodyBytes, if_neg hquote, if_neg hline, hchar]
      dsimp only
      rw [ih hplain (Nat.lt_of_succ_lt_succ hn), List.length_cons, Nat.add_comm]

theorem fitsScratch_plain {s : Text} (hplain : ∀ c ∈ s, c ≠ '"' ∧ c ≠ '\\' ∧ c ≠ '\n') :
    FitsScratch (s ++ ['"']) ↔ s.length < scratchSize := by
  have hlength : s.length < (s ++ ['"']).length + 1 := by
    rw [List.length_append]
    omega
  have hnext : nextLiteral [] = none := rfl
  rw [FitsScratch, runBytes, bodyBytes_plain hplain [] hlength]
  dsimp only
  rw [hnext]
  exact Iff.rfl

/-- A literal of 2048 letters leaves no room for the 0. -/
theorem long_literal_out_of_bounds (d : Decoder) :
    ¬ InScratch d ('"' :: (List.replicate 2048 'a' ++ ['"'])) := by
  intro h
  have hplain : ∀ c ∈ List.replicate 2048 'a', c ≠ '"' ∧ c ≠ '\\' ∧ c ≠ '\n' := by
    intro c hc
    rw [List.eq_of_mem_replicate hc]
    decide
  have hfits := (fitsScratch_plain hplain).mp ((fitsScratch_iff _).mp (h _ _ .refl rfl))
  rw [List.length_replicate] at hfits
  exact absurd hfits (by decide)

/-- No scripts are allowed in identifiers. -/
def asciiDecoder : Decoder := asciiUnicode.decoder

theorem not_inScratch : ¬ ∀ d input, InScratch d input :=
  fun h => long_literal_out_of_bounds asciiDecoder (h asciiDecoder _)

end Rcc.Lexer

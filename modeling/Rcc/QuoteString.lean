import Rcc.ScratchBuffer
import Rcc.Substitute

/-!
# A text in quotation marks

`quote_string` writes a text as a string literal, and `tokenize` reads literals. The two
are in different files; what the one puts a backslash before is just what the other does
not take for itself, the quotation mark and the backslash. So every character is written
as one or two that are read as this character alone, whatever is behind them, and the
text comes back.
-/

namespace Rcc.Preprocess

open Lexer

/-- A character as `quote_string` writes it. -/
def escaped (c : Char) : Text := if c = '"' || c = '\\' then ['\\', c] else [c]

theorem quoteString_eq (s : Text) : quoteString s = '"' :: (s.flatMap escaped ++ ['"']) := rfl

variable {s : Text} {c : Char} {n : Nat}

/-- A character that is written is read as itself, and nothing behind it with it. -/
theorem stringChar_escaped (c : Char) (p : Text) : stringChar (escaped c ++ p) = some ([c], p) := by
  rw [escaped]
  split
  · next hc =>
      rcases Bool.or_eq_true_iff.mp hc with hquote | hescape
      · obtain rfl := of_decide_eq_true hquote
        rfl
      · obtain rfl := of_decide_eq_true hescape
        rfl
  · next hc =>
      have hescape : c ≠ '\\' := fun h => hc (Bool.or_eq_true_iff.mpr (.inr (decide_eq_true h)))
      exact stringChar.eq_4 c p (fun _ h _ => hescape h) (fun _ h _ => hescape h) hescape

/-- Neither the end of the literal nor that of the line. -/
theorem escaped_cons (hline : c ≠ '\n') : ∃ d t, escaped c = d :: t ∧ d ≠ '"' ∧ d ≠ '\n' := by
  rw [escaped]
  split
  · exact ⟨'\\', [c], rfl, by decide, by decide⟩
  · next hc =>
      exact ⟨c, [], rfl, fun h => hc (Bool.or_eq_true_iff.mpr (.inl (decide_eq_true h))), hline⟩

theorem length_le_escaped (s : Text) : s.length ≤ (s.flatMap escaped).length := by
  induction s with
  | nil => exact Nat.le_refl 0
  | cons c s ih =>
      have hpos : 0 < (escaped c).length := by
        rw [escaped]
        split
        · exact Nat.zero_lt_succ _
        · exact Nat.zero_lt_succ _
      rw [List.flatMap_cons, List.length_append, List.length_cons]
      omega

theorem stringBody_escaped (hline : '\n' ∉ s) (rest : Text) (hn : s.length < n) :
    stringBody n (s.flatMap escaped ++ '"' :: rest) = some (s, rest) := by
  induction s generalizing n with
  | nil =>
      obtain ⟨n, rfl⟩ := Nat.exists_eq_add_one_of_ne_zero (Nat.ne_zero_of_lt hn)
      rfl
  | cons c s ih =>
      obtain ⟨n, rfl⟩ := Nat.exists_eq_add_one_of_ne_zero (Nat.ne_zero_of_lt hn)
      have hc : c ≠ '\n' := fun h => hline (h ▸ List.mem_cons_self)
      have hs : '\n' ∉ s := fun h => hline (List.mem_cons_of_mem c h)
      obtain ⟨d, t, hescaped, hquote, hd⟩ := escaped_cons hc
      have hchar := stringChar_escaped c (s.flatMap escaped ++ '"' :: rest)
      rw [hescaped, List.cons_append] at hchar
      rw [List.flatMap_cons, hescaped, List.append_assoc, List.cons_append, stringBody, if_neg hquote, if_neg hd, hchar,
        Option.bind_some]
      dsimp only
      rw [ih hs (Nat.lt_of_succ_lt_succ hn)]
      rfl

theorem stringPieces_escaped (hline : '\n' ∉ s) (hn : 0 < n) :
    stringPieces n (s.flatMap escaped ++ ['"']) = some (s, [], 0) := by
  obtain ⟨n, rfl⟩ := Nat.exists_eq_add_one_of_ne_zero (Nat.ne_zero_of_lt hn)
  have hlength : s.length < (s.flatMap escaped ++ ['"']).length + 1 := by
    have hle := length_le_escaped s
    rw [List.length_append]
    omega
  rw [stringPieces, stringBody_escaped hline [] hlength]
  rfl

theorem lexeme_quoteString (uc : Unicode) (hline : '\n' ∉ s) : lexeme uc (quoteString s) = some (.string s none 0, []) := by
  rw [quoteString_eq, lexeme_string rfl, List.tail_cons, stringPieces_escaped hline (Nat.zero_lt_succ _)]
  rfl

/-- The loop comes to the literal and to the end of the text. -/
theorem reached_quoteString {d : Decoder} (hline : '\n' ∉ s) {p : Text}
    (h : Loops.Reached (Lexer.turn d) (quoteString s) p) : p = quoteString s ∨ p = [] := by
  have hturn : Lexer.turn d (quoteString s) = some [] := by
    rw [quoteString_eq]
    show (quoted _).map Prod.snd = _
    have hquoted : quoted ('"' :: (s.flatMap escaped ++ ['"'])) =
        (stringPieces _ (s.flatMap escaped ++ ['"'])).map fun r => (.string r.1 none r.2.2, r.2.1) := rfl
    rw [hquoted, stringPieces_escaped hline (Nat.zero_lt_succ _)]
    rfl
  rcases h.cases_head with rfl | ⟨q, hstep, hrest⟩
  · exact .inl rfl
  · obtain rfl := Option.some_inj.mp (hturn.symm.trans hstep)
    rcases hrest.cases_head with rfl | ⟨q, hstep, _⟩
    · exact .inr rfl
    · cases hstep

/-- **Stringizing.** What `quote_string` writes for a text is read as one string literal
with the bytes of the text, and then the end; and nothing is written behind the buffer. -/
theorem tokenize_quoteString (uc : Unicode) (filename : Text) (hline : '\n' ∉ s) (hfits : s.length < scratchSize) :
    (tokenize uc filename (quoteString s)).map (fun t => t.tokens.reverse.map Prod.snd) =
        some [⟨.str s none, 0, s.length, 1, filename, quoteString s⟩, ⟨.eof, (quoteString s).length, 0, 1, filename, []⟩] ∧
      InScratch uc.decoder (quoteString s) := by
  constructor
  · have hspans : spans uc (quoteString s) = some [(.string s none 0, quoteString s)] := by
      have hbetween : between (quoteString s) [] = quoteString s := List.take_length
      rw [spans_cons (lexeme_quoteString uc hline) (Nat.zero_lt_succ _) (spans_nil uc), hbetween]
    rw [tokenize_of_spans hspans]
    simp [Tokenizer.step, Tokenizer.start, Tokenizer.newToken, Tokenizer.move]
  · intro p q hreach hstart
    rcases reached_quoteString hline hreach with rfl | rfl
    · obtain rfl := Option.some_inj.mp hstart
      refine (fitsScratch_iff _).mpr ?_
      rw [FitsScratch]
      show (runBytes _ (s.flatMap escaped ++ ['"'])).1 + (runBytes _ (s.flatMap escaped ++ ['"'])).2.toNat ≤ _
      rw [stringPieces_bytes (stringPieces_escaped hline (Nat.zero_lt_succ _))]
      exact hfits
    · cases hstart

/-- A quotation mark, a backslash and an `x`. -/
theorem tokenize_quoteString_escapes :
    (tokenize asciiUnicode [] (quoteString ['"', '\\', 'x'])).map (fun t => t.tokens.reverse.map Prod.snd) =
        some [⟨.str ['"', '\\', 'x'] none, 0, 3, 1, [], "\"\\\"\\\\x\"".toList⟩, ⟨.eof, 7, 0, 1, [], []⟩] ∧
      InScratch asciiUnicode.decoder "\"\\\"\\\\x\"".toList :=
  tokenize_quoteString asciiUnicode [] (by decide) (by decide)

end Rcc.Preprocess

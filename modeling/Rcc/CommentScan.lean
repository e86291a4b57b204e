import Rcc.PreprocessLoops

/-!
# What is a comment

A text is read from left to right, and a mode tells what a character belongs to: the
text itself, a literal, or a comment. It depends on what is taken for a literal. For C
these are strings and character constants; `strip_comments` knows only strings. The two
readings part where one of them is inside a literal and the other is not, and that is
seen at the next `//` or `/*` there.

A literal that is not closed ends with its line.
-/

namespace Rcc.Preprocess

open Lexer (Text headIs)

/-! ## Modes -/

/-- What is being read. Behind the first character of `/*` comes `star`, and behind that of `*/`
comes `slash`. -/
inductive Mode where
  | code
  | literal (quote : Char) (escaped : Bool)
  | line
  | star
  | block
  | slash
deriving DecidableEq

/-- A comment opens here, if anything does. -/
def opens (c : Char) (p : Text) : Bool := c = '/' && headIs (fun d => d = '/' || d = '*') p

namespace Mode

/-- The mode behind a character, before `p`. -/
def next (quotes : Char → Bool) : Mode → Char → Text → Mode
  | .code, c, p =>
      if quotes c then .literal c false
      else if opens c p then if headIs (· = '/') p then .line else .star
      else .code
  | .literal quote true, _, _ => .literal quote false
  | .literal quote false, c, _ =>
      if c = '\n' then .code else if c = '\\' then .literal quote true else if c = quote then .code else .literal quote false
  | .line, c, _ => if c = '\n' then .code else .line
  | .star, _, _ => .block
  | .block, c, p => if c = '*' && headIs (· = '/') p then .slash else .block
  | .slash, _, _ => .code

/-- The character belongs to a comment. -/
def comment : Mode → Char → Text → Bool
  | .code, c, p => opens c p
  | .literal _ _, _, _ => false
  | .line, c, _ => c ≠ '\n'
  | .star, _, _ | .block, _, _ | .slash, _, _ => true

/-- Outside of comments. -/
def outside : Mode → Bool
  | .code | .literal _ _ => true
  | .line | .star | .block | .slash => false

end Mode

/-- The mode before a place of the text. -/
def modeAt (quotes : Char → Bool) : Mode → Text → Nat → Mode
  | m, _, 0 => m
  | m, [], _ + 1 => m
  | m, c :: p, i + 1 => modeAt quotes (m.next quotes c p) p i

/-- The character at a place belongs to a comment. -/
def inComment (quotes : Char → Bool) (m : Mode) (p : Text) (i : Nat) : Bool :=
  match p.drop i with
  | [] => false
  | c :: q => (modeAt quotes m p i).comment c q

/-- The text with its comments blanked. -/
def blankComments (quotes : Char → Bool) : Mode → Text → Text
  | _, [] => []
  | m, c :: p => (if m.comment c p && c ≠ '\n' then ' ' else c) :: blankComments quotes (m.next quotes c p) p

/-! ## The code -/

/-- The quotation mark of a string. -/
def isStringQuote (c : Char) : Bool := c = '"'

theorem blankComments_newline {quotes : Char → Bool} (hquotes : quotes '\n' = false) (p : Text) :
    blankComments quotes .code ('\n' :: p) = '\n' :: blankComments quotes .code p := by
  have hnext : Mode.next quotes .code '\n' p = .code := by
    rw [Mode.next, hquotes]
    rfl
  rw [blankComments, hnext, Bool.and_comm]
  rfl

theorem blankComments_line {quotes : Char → Bool} (hquotes : quotes '\n' = false) (p : Text) : blankComments quotes .line p =
    (p.takeWhile (· ≠ '\n')).map (fun _ => ' ') ++ blankComments quotes .code (p.dropWhile (· ≠ '\n')) := by
  induction p with
  | nil => rfl
  | cons c p ih =>
      by_cases hc : c = '\n'
      · rw [hc, List.takeWhile_cons_of_neg (by simp), List.dropWhile_cons_of_neg (by simp), blankComments_newline hquotes]
        rfl
      · have hcomment : Mode.comment .line c p = true := decide_eq_true hc
        rw [List.takeWhile_cons_of_pos (by simpa using hc), List.dropWhile_cons_of_pos (by simpa using hc), blankComments, hcomment,
          decide_eq_true hc, Mode.next, if_neg hc, ih]
        rfl

theorem blankComments_block (quotes : Char → Bool) (p : Text) :
    blankComments quotes .block p = (blankComment p).1 ++ blankComments quotes .code (blankComment p).2 := by
  have hblank : ∀ c : Char, (if (true && decide (c ≠ '\n')) = true then ' ' else c) = if c = '\n' then c else ' ' := by
    intro c
    by_cases hc : c = '\n'
    · rw [if_pos hc, hc]
      rfl
    · rw [if_neg hc, decide_eq_true hc]
      rfl
  fun_induction blankComment p with
  | case1 => rfl
  | case2 c => exact congrArg (· :: []) (hblank c)
  | case3 c d p h =>
      obtain ⟨hc, hd⟩ := Bool.and_eq_true_iff.mp h
      obtain rfl := of_decide_eq_true hc
      obtain rfl := of_decide_eq_true hd
      rfl
  | case4 c d p h ih =>
      have hnext : Mode.next quotes .block c (d :: p) = .block := if_neg h
      rw [blankComments, hnext, ih]
      exact congrArg (· :: _) (hblank c)

theorem stripComments_eq {n : Nat} {p : Text} (hn : p.length ≤ n) (inString : Bool) :
    stripComments n inString p = blankComments isStringQuote (if inString then .literal '"' false else .code) p := by
  induction n generalizing p inString with
  | zero => rw [List.eq_nil_of_length_eq_zero (Nat.le_zero.mp hn)]; rfl
  | succ n ih =>
      cases p with
      | nil => cases inString with | false => rfl | true => rfl
      | cons c p =>
          have hp : p.length ≤ n := Nat.le_of_succ_le_succ hn
          have htail : p.tail.length ≤ n := Nat.le_trans (List.tail_sublist p).length_le hp
          cases inString with
          | true =>
              rw [stripComments, if_pos rfl, blankComments]
              show _ = c :: blankComments isStringQuote (Mode.next isStringQuote (.literal '"' false) c p) p
              rw [Mode.next]
              split
              · rw [ih hp]
                rfl
              split
              · next hback =>
                  obtain ⟨hc, hne⟩ := Bool.and_eq_true_iff.mp hback
                  rw [if_pos (of_decide_eq_true hc), ih htail]
                  cases p with
                  | nil => exact absurd rfl (of_decide_eq_true hne)
                  | cons d p => rfl
              · next hback =>
                  rw [ih hp]
                  by_cases hc : c = '\\'
                  · cases p with
                    | nil =>
                        rw [if_pos hc, hc]
                        rfl
                    | cons d p => exact absurd (by rw [hc]; rfl) hback
                  · rw [if_neg hc]
                    by_cases hquote : c = '"'
                    · rw [if_pos hquote, hquote]
                      rfl
                    · rw [if_neg hquote, decide_eq_true hquote]
                      rfl
          | false =>
              rw [stripComments, if_neg Bool.false_ne_true, blankComments]
              by_cases hquote : c = '"'
              · rw [if_pos hquote, ih hp, hquote]
                rfl
              have hstring : isStringQuote c = false := decide_eq_false hquote
              rw [if_neg hquote, Mode.comment, Mode.next, hstring, if_neg Bool.false_ne_true, opens]
              by_cases hc : c = '/'
              · subst hc
                cases p with
                | nil =>
                    cases n with
                    | zero => rfl
                    | succ n => rfl
                | cons d p =>
                    by_cases hline : d = '/'
                    · subst hline
                      refine (if_pos rfl).trans ?_
                      rw [ih (Nat.le_trans (List.dropWhile_sublist _).length_le hp)]
                      exact congrArg (' ' :: ·) (blankComments_line rfl _).symm
                    have hslash : headIs (· = '/') (d :: p) = false := decide_eq_false hline
                    by_cases hblock : d = '*'
                    · subst hblock
                      refine (if_neg Bool.false_ne_true).trans ((if_pos rfl).trans ?_)
                      rw [List.tail_cons, ih (Nat.le_trans (blankComment_le p) (Nat.le_of_succ_le hp))]
                      exact congrArg (' ' :: ' ' :: ·) (blankComments_block _ p).symm
                    · have hopens : headIs (fun d => d = '/' || d = '*') (d :: p) = false := by
                        show (decide (d = '/') || decide (d = '*')) = false
                        rw [decide_eq_false hline, decide_eq_false hblock, Bool.or_false]
                      have hstar : headIs (· = '*') (d :: p) = false := decide_eq_false hblock
                      rw [hslash, hstar, hopens, Bool.and_false, if_neg Bool.false_ne_true, if_neg Bool.false_ne_true,
                        if_neg Bool.false_ne_true, if_neg (by simp), ih hp]
                      rfl
              · rw [decide_eq_false hc, Bool.false_and, Bool.false_and, Bool.false_and, if_neg Bool.false_ne_true,
                  if_neg Bool.false_ne_true, ih hp]
                rfl

/-! ## The comments of C -/

theorem getElem?_blankComments (quotes : Char → Bool) (m : Mode) (p : Text) (i : Nat) :
    (blankComments quotes m p)[i]? = p[i]?.map fun c => if inComment quotes m p i && c ≠ '\n' then ' ' else c := by
  induction p generalizing m i with
  | nil => rfl
  | cons c p ih =>
      cases i with
      | zero => rfl
      | succ i => exact ih (m.next quotes c p) i

theorem length_blankComments (quotes : Char → Bool) (m : Mode) (p : Text) : (blankComments quotes m p).length = p.length := by
  induction p generalizing m with
  | nil => rfl
  | cons c p ih => exact congrArg (· + 1) (ih _)

/-- The comments of C are blanked, and nothing else is changed. -/
structure StripsComments (p out : Text) : Prop where
  length : out.length = p.length
  newlines : ∀ i : Nat, out[i]? = some '\n' ↔ p[i]? = some '\n'
  blanked : ∀ (i : Nat) (c : Char), p[i]? = some c → c ≠ '\n' → inComment isQuote .code p i = true → out[i]? = some ' '
  kept : ∀ (i : Nat) (c : Char), p[i]? = some c → inComment isQuote .code p i = false → out[i]? = some c

theorem stripsComments_blankComments (p : Text) : StripsComments p (blankComments isQuote .code p) := by
  have hget := getElem?_blankComments isQuote .code p
  have hblank : ∀ i c, (if (inComment isQuote .code p i && decide (c ≠ '\n')) = true then ' ' else c) = '\n' ↔ c = '\n' := by
    intro i c
    by_cases hc : c = '\n'
    · rw [decide_eq_false (not_not_intro hc), Bool.and_false, if_neg Bool.false_ne_true]
    · split
      · exact ⟨fun heq => absurd heq (by decide), fun heq => absurd heq hc⟩
      · exact Iff.rfl
  refine ⟨length_blankComments isQuote .code p, fun i => ?_, fun i c hi hc hcomment => ?_, fun i c hi hcomment => ?_⟩
  · rw [hget]
    cases hi : p[i]? with
    | none => exact Iff.rfl
    | some c => exact Option.some_inj.trans ((hblank i c).trans Option.some_inj.symm)
  · rw [hget, hi, hcomment, Option.map_some, decide_eq_true hc]
    rfl
  · rw [hget, hi, hcomment]
    rfl

theorem stripsComments_iff {p out : Text} : StripsComments p out ↔ out = blankComments isQuote .code p := by
  refine ⟨fun h => ?_, fun h => h ▸ stripsComments_blankComments p⟩
  refine List.ext_getElem? fun i => ?_
  rw [getElem?_blankComments]
  cases hi : p[i]? with
  | none =>
      have hlength := h.length ▸ List.getElem?_eq_none_iff.mp hi
      exact List.getElem?_eq_none hlength
  | some c =>
      cases hcomment : inComment isQuote .code p i with
      | false => exact h.kept i c hi hcomment
      | true =>
          by_cases hc : c = '\n'
          · subst hc
            exact (h.newlines i).mpr hi
          · rw [h.blanked i c hi hc hcomment, Option.map_some, decide_eq_true hc]
            rfl

/-! ## Two readings -/

/-- Two readings of one text with the same comments so far. -/
structure Coupled (a b : Mode) : Prop where
  outside : a.outside = b.outside
  inside : a.outside = false → a = b

theorem outside_next {quotes : Char → Bool} {m : Mode} {c : Char} {p : Text} (hm : m.outside = true)
    (h : m = .code → opens c p = false) : (m.next quotes c p).outside = true := by
  cases m with
  | code =>
      rw [Mode.next, h rfl, if_neg Bool.false_ne_true]
      split
      · rfl
      · rfl
  | literal quote escaped =>
      cases escaped with
      | true => rfl
      | false =>
          rw [Mode.next]
          split
          · rfl
          split
          · rfl
          split
          · rfl
          · rfl
  | line | star | block | slash => exact absurd hm nofun

theorem comment_outside {m : Mode} (hm : m.outside = true) (c : Char) (p : Text) : m.comment c p = (decide (m = .code) && opens c p) := by
  cases m with
  | code => rfl
  | literal quote escaped => rfl
  | line | star | block | slash => exact absurd hm nofun

theorem eq_slash_of_opens {c : Char} {p : Text} (h : opens c p = true) : c = '/' := of_decide_eq_true (Bool.and_eq_true_iff.mp h).1

/-- Inside of comments a reading does not look for quotation marks. -/
theorem next_inside {quotesA quotesB : Char → Bool} {m : Mode} (hm : m.outside = false) (c : Char) (p : Text) :
    m.next quotesA c p = m.next quotesB c p := by
  cases m with
  | code | literal => exact absurd hm nofun
  | line | star | block | slash => rfl

section Readings

variable {quotesA quotesB : Char → Bool} {a b : Mode} {c : Char} {p : Text}

theorem Coupled.outside_of (ha : a.outside = true) (hb : b.outside = true) : Coupled a b :=
  ⟨ha.trans hb.symm, fun hnot => absurd (ha.symm.trans hnot) nofun⟩

/-- The readings stay coupled where a comment opens for both or for none. -/
theorem Coupled.next (h : Coupled a b) (ha : quotesA '/' = false) (hb : quotesB '/' = false)
    (hopens : opens c p = true → (a = .code ↔ b = .code)) : Coupled (a.next quotesA c p) (b.next quotesB c p) := by
  cases hout : a.outside with
  | false =>
      obtain rfl := h.inside hout
      rw [@next_inside quotesA quotesB a hout]
      exact ⟨rfl, fun _ => rfl⟩
  | true =>
      have hout' : b.outside = true := h.outside ▸ hout
      cases hopen : opens c p with
      | false => exact .outside_of (outside_next hout fun _ => hopen) (outside_next hout' fun _ => hopen)
      | true =>
          by_cases hcode : a = .code
          · have hcode' := (hopens hopen).mp hcode
            subst hcode hcode'
            obtain rfl := eq_slash_of_opens hopen
            rw [Mode.next, Mode.next, ha, hb]
            exact ⟨rfl, fun _ => rfl⟩
          · have hcode' : ¬ b = .code := fun hb' => hcode ((hopens hopen).mpr hb')
            exact .outside_of (outside_next hout fun heq => absurd heq hcode) (outside_next hout' fun heq => absurd heq hcode')

/-- One character of both readings. -/
theorem Coupled.head_iff (h : Coupled a b) : (if (a.comment c p && c ≠ '\n') = true then ' ' else c) =
    (if (b.comment c p && c ≠ '\n') = true then ' ' else c) ↔ (opens c p = true → (a = .code ↔ b = .code)) := by
  cases hout : a.outside with
  | false =>
      obtain rfl := h.inside hout
      exact ⟨fun _ _ => Iff.rfl, fun _ => rfl⟩
  | true =>
      have hout' : b.outside = true := h.outside ▸ hout
      rw [comment_outside hout, comment_outside hout']
      cases hopen : opens c p with
      | false =>
          rw [Bool.and_false, Bool.and_false]
          exact ⟨fun _ hnot => absurd hnot nofun, fun _ => rfl⟩
      | true =>
          obtain rfl := eq_slash_of_opens hopen
          by_cases hcode : a = .code
          · by_cases hcode' : b = .code
            · rw [decide_eq_true hcode, decide_eq_true hcode']
              exact ⟨fun _ _ => ⟨fun _ => hcode', fun _ => hcode⟩, fun _ => rfl⟩
            · rw [decide_eq_true hcode, decide_eq_false hcode']
              exact ⟨fun heq => absurd heq (by decide), fun hiff => absurd ((hiff rfl).mp hcode) hcode'⟩
          · by_cases hcode' : b = .code
            · rw [decide_eq_false hcode, decide_eq_true hcode']
              exact ⟨fun heq => absurd heq (by decide), fun hiff => absurd ((hiff rfl).mpr hcode') hcode⟩
            · rw [decide_eq_false hcode, decide_eq_false hcode']
              exact ⟨fun _ _ => ⟨fun heq => absurd heq hcode, fun heq => absurd heq hcode'⟩, fun _ => rfl⟩

theorem blankComments_eq_iff (h : Coupled a b) (ha : quotesA '/' = false) (hb : quotesB '/' = false) :
    blankComments quotesA a p = blankComments quotesB b p ↔
      ∀ i, (∃ c q, p.drop i = c :: q ∧ opens c q = true) → (modeAt quotesA a p i = .code ↔ modeAt quotesB b p i = .code) := by
  induction p generalizing a b with
  | nil => exact ⟨fun _ i ⟨c, q, hdrop, _⟩ => absurd (List.drop_nil.symm.trans hdrop) nofun, fun _ => rfl⟩
  | cons c p ih =>
      rw [blankComments, blankComments, List.cons.injEq, h.head_iff]
      constructor
      · rintro ⟨hhead, htail⟩ i ⟨d, q, hdrop, hopens⟩
        cases i with
        | zero =>
            obtain ⟨rfl, rfl⟩ := List.cons.inj (show c :: p = d :: q from hdrop)
            exact hhead hopens
        | succ i => exact (ih (h.next ha hb hhead)).mp htail i ⟨d, q, hdrop, hopens⟩
      · intro hall
        have hhead : opens c p = true → (a = .code ↔ b = .code) := fun hopens => hall 0 ⟨c, p, rfl, hopens⟩
        exact ⟨hhead, (ih (h.next ha hb hhead)).mpr fun i hi => hall (i + 1) hi⟩

end Readings

/-- `strip_comments` blanks the comments of C if and only if at each `//` and `/*` the text is inside
of a literal either way, or not, whether character constants are read as literals or not. -/
theorem stripComments_iff (p : Text) : StripsComments p (stripComments p.length false p) ↔
    ∀ i, (∃ c q, p.drop i = c :: q ∧ opens c q = true) → (modeAt isStringQuote .code p i = .code ↔ modeAt isQuote .code p i = .code) := by
  rw [stripsComments_iff, stripComments_eq (Nat.le_refl _), if_neg Bool.false_ne_true]
  exact blankComments_eq_iff ⟨rfl, fun _ => rfl⟩ rfl rfl

/-- Behind `'"'` there is a comment. -/
theorem quote_constant_not_stripped : ¬ ∀ p, StripsComments p (stripComments p.length false p) := by
  intro h
  have hblanked := (h "'\"' // c".toList).blanked 4 '/' (by decide) (by decide) (by decide)
  exact absurd hblanked (by decide)

end Rcc.Preprocess

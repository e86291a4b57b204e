import Rcc.CommentScan
import Rcc.LineCounts
import Rcc.SpliceLaw

/-!
# Lines without comments

A text from which the comments have been taken has none, so nothing is taken from it
again. And a line that does not end in a backslash leaves the reading in the text itself or
in a comment, never in a string; so its comments depend on what is before it only as far as
it begins in one.
-/

namespace Rcc.Preprocess

open Lexer (Text isspace headIs)

variable {quotes : Char → Bool} {m : Mode} {p q raw : Text} {c : Char}

namespace Mode

/-- What the blanked text is read in. -/
def uncomment (m : Mode) : Mode := if m.outside then m else .code

/-- Neither in a string nor behind the first or second character of a comment. -/
def Starts (m : Mode) : Prop := m = .code ∨ m = .block

def escaped : Mode → Bool
  | .literal _ true => true
  | _ => false

end Mode

/-! ## Again -/

theorem headIs_blankComments {f : Char → Bool} (hblank : f ' ' = false) (h : headIs f p = false) :
    headIs f (blankComments quotes m p) = false := by
  cases p with
  | nil => rfl
  | cons c p =>
      rw [blankComments]
      show f (if _ then _ else _) = false
      split
      · exact hblank
      · exact h

theorem opens_blankComments (h : opens c p = false) : opens c (blankComments quotes m p) = false := by
  rw [opens] at h ⊢
  rcases Bool.and_eq_false_iff.mp h with hc | hp
  · rw [hc, Bool.false_and]
  · rw [headIs_blankComments rfl hp, Bool.and_false]

section Again

variable (hslash : quotes '/' = false) (hblank : quotes ' ' = false) (hnewline : quotes '\n' = false)
include hslash hblank hnewline

/-- One character: it is read outside of comments, and the mode behind it is that of the rest. -/
theorem next_uncomment (m m' : Mode) (c : Char) (p : Text) :
    m.uncomment.comment (if m.comment c p && c ≠ '\n' then ' ' else c) (blankComments quotes m' p) = false ∧
      m.uncomment.next quotes (if m.comment c p && c ≠ '\n' then ' ' else c) (blankComments quotes m' p) =
        (m.next quotes c p).uncomment := by
  have hcode : ∀ d, quotes d = false → opens d p = false → Mode.comment .code d (blankComments quotes m' p) = false ∧
      Mode.next quotes .code d (blankComments quotes m' p) = .code := by
    intro d hd hopens
    have hopens : opens d (blankComments quotes m' p) = false := opens_blankComments hopens
    refine ⟨hopens, ?_⟩
    rw [Mode.next, hd, hopens]
    rfl
  -- what is left of a character of a comment
  have hcomment : Mode.comment .code (if (true && decide (c ≠ '\n')) = true then ' ' else c) (blankComments quotes m' p) = false ∧
      Mode.next quotes .code (if (true && decide (c ≠ '\n')) = true then ' ' else c) (blankComments quotes m' p) = .code := by
    by_cases hc : c = '\n'
    · rw [if_neg (by simp [hc]), hc]
      exact hcode '\n' hnewline rfl
    · rw [if_pos (by simp [hc])]
      exact hcode ' ' hblank rfl
  cases m with
  | code =>
      cases hopens : opens c p with
      | true =>
          have hquote : quotes c = false := eq_slash_of_opens hopens ▸ hslash
          have hnext : (Mode.next quotes .code c p).uncomment = .code := by
            rw [Mode.next, hquote, hopens, if_neg Bool.false_ne_true, if_pos rfl]
            split
            · rfl
            · rfl
          rw [hnext, show Mode.comment .code c p = true from hopens]
          exact hcomment
      | false =>
          rw [show Mode.comment .code c p = false from hopens, Bool.false_and, if_neg Bool.false_ne_true]
          cases hc : quotes c with
          | true =>
              refine ⟨opens_blankComments hopens, ?_⟩
              show Mode.next quotes .code c (blankComments quotes m' p) = _
              rw [Mode.next, hc, Mode.next, hc]
              rfl
          | false =>
              have hnext : (Mode.next quotes .code c p).uncomment = .code := by
                rw [Mode.next, hc, hopens]
                rfl
              rw [hnext]
              exact hcode c hc hopens
  | literal quote escaped =>
      refine ⟨rfl, ?_⟩
      show Mode.next quotes (.literal quote escaped) c (blankComments quotes m' p) = (Mode.next quotes (.literal quote escaped) c p).uncomment
      cases escaped with
      | true => rfl
      | false =>
          have houtside : (Mode.next quotes (.literal quote false) c p).outside = true := outside_next rfl fun h => by cases h
          rw [Mode.uncomment, if_pos houtside]
          rfl
  | line =>
      by_cases hc : c = '\n'
      · rw [show Mode.comment .line c p = false from decide_eq_false (not_not_intro hc), Bool.false_and, if_neg Bool.false_ne_true, hc]
        exact hcode '\n' hnewline rfl
      · have hnext : (Mode.next quotes .line c p).uncomment = .code := by
          rw [Mode.next, if_neg hc]
          rfl
        rw [hnext, show Mode.comment .line c p = true from decide_eq_true hc]
        exact hcomment
  | star => exact hcomment
  | block =>
      have hnext : (Mode.next quotes .block c p).uncomment = .code := by
        rw [Mode.next]
        split
        · rfl
        · rfl
      rw [hnext]
      exact hcomment
  | slash => exact hcomment

/-- What has no comments is read without any. -/
theorem blankComments_again (m : Mode) (p : Text) :
    blankComments quotes m.uncomment (blankComments quotes m p) = blankComments quotes m p := by
  induction p generalizing m with
  | nil => rfl
  | cons c p ih =>
      obtain ⟨hcomment, hnext⟩ := next_uncomment hslash hblank hnewline m (m.next quotes c p) c p
      show (if m.uncomment.comment (if _ then ' ' else c) (blankComments quotes (m.next quotes c p) p) && _ then _ else _) ::
        blankComments quotes (m.uncomment.next quotes _ _) _ = _ :: _
      rw [hcomment, hnext, ih]
      rfl

end Again

/-! ## A line -/

/-- The mode behind a text. -/
def behind (quotes : Char → Bool) : Mode → Text → Mode
  | m, [] => m
  | m, c :: p => behind quotes (m.next quotes c p) p

/-- A line end does not change how what is before it is read. -/
theorem blankComments_newline_append (m : Mode) (p rest : Text) : blankComments quotes m (p ++ '\n' :: rest) =
    blankComments quotes m p ++ '\n' :: blankComments quotes ((behind quotes m p).next quotes '\n' rest) rest := by
  induction p generalizing m with
  | nil =>
      show (if _ then _ else _) :: _ = '\n' :: _
      rw [if_neg (by simp)]
      rfl
  | cons c p ih =>
      have hhead : ∀ f : Char → Bool, f '\n' = false → headIs f (p ++ '\n' :: rest) = headIs f p := by
        intro f hf
        cases p with
        | nil => exact hf
        | cons d p => rfl
      have hcomment : m.comment c (p ++ '\n' :: rest) = m.comment c p := by
        cases m with
        | code => exact congrArg (decide (c = '/') && ·) (hhead _ rfl)
        | literal | line | star | block | slash => rfl
      have hnext : m.next quotes c (p ++ '\n' :: rest) = m.next quotes c p := by
        cases m with
        | code =>
            rw [Mode.next, Mode.next, show opens c (p ++ '\n' :: rest) = opens c p from congrArg (decide (c = '/') && ·) (hhead _ rfl),
              hhead _ rfl]
        | literal quote escaped =>
            cases escaped with
            | true => rfl
            | false => rfl
        | line | star | slash => rfl
        | block => rw [Mode.next, Mode.next, hhead _ rfl]
      rw [List.cons_append, blankComments, hcomment, hnext, ih, behind, blankComments, List.cons_append]

/-- Only a backslash at the end leaves a string open at the next character. -/
theorem behind_escaped (h : p = [] → m.escaped = false) (hp : continued p = false) : (behind quotes m p).escaped = false := by
  induction p generalizing m with
  | nil => exact h rfl
  | cons c p ih =>
      refine ih (fun hnil => ?_) ?_
      · subst hnil
        have hc : c ≠ '\\' := fun heq => of_decide_eq_false hp (congrArg some heq)
        cases m with
        | code =>
            rw [Mode.next]
            split
            · rfl
            split
            · rfl
            · rfl
        | literal quote escaped =>
            cases escaped with
            | true => rfl
            | false =>
                rw [Mode.next, if_neg hc]
                split
                · rfl
                split
                · rfl
                · rfl
        | line =>
            rw [Mode.next]
            split
            · rfl
            · rfl
        | star | slash => rfl
        | block =>
            rw [Mode.next]
            split
            · rfl
            · rfl
      · cases p with
        | nil => rfl
        | cons d p => exact hp

theorem starts_next (hnewline : quotes '\n' = false) (h : m.escaped = false) (p : Text) : (m.next quotes '\n' p).Starts := by
  cases m with
  | code =>
      refine .inl ?_
      rw [Mode.next, hnewline]
      rfl
  | literal quote escaped =>
      cases escaped with
      | true => cases h
      | false => exact .inl rfl
  | line => exact .inl rfl
  | star => exact .inr rfl
  | block => exact .inr rfl
  | slash => exact .inl rfl

theorem Mode.Starts.escaped (h : m.Starts) : m.escaped = false := by
  rcases h with rfl | rfl
  · rfl
  · rfl

theorem Mode.Starts.uncomment (h : m.Starts) : m.uncomment = .code := by
  rcases h with rfl | rfl
  · rfl
  · rfl

/-! ## Parts -/

/-- Before a text that has no quotation marks and slashes. -/
theorem blankComments_plain (hp : ∀ c ∈ p, c ≠ '/' ∧ quotes c = false) (q : Text) :
    blankComments quotes .code (p ++ q) = p ++ blankComments quotes .code q := by
  induction p with
  | nil => rfl
  | cons c p ih =>
      obtain ⟨hslash, hquote⟩ := hp c List.mem_cons_self
      have hopens : opens c (p ++ q) = false := by rw [opens, decide_eq_false hslash, Bool.false_and]
      have hnext : Mode.next quotes .code c (p ++ q) = .code := by
        rw [Mode.next, hquote, hopens]
        rfl
      rw [List.cons_append, blankComments, hnext, ih fun d hd => hp d (List.mem_cons_of_mem _ hd),
        show Mode.comment .code c (p ++ q) = false from hopens]
      rfl

/-- A character of a text without comments. -/
theorem uncommented_cons (hm : m.outside = true) (h : blankComments quotes m (c :: p) = c :: p) :
    (m.next quotes c p).outside = true ∧ blankComments quotes (m.next quotes c p) p = p ∧ (m = .code → opens c p = false) := by
  rw [blankComments] at h
  obtain ⟨hc, hrest⟩ := List.cons.inj h
  have hopens : m = .code → opens c p = false := by
    rintro rfl
    refine Bool.eq_false_iff.mpr fun hopens => ?_
    rw [show Mode.comment .code c p = true from hopens, eq_slash_of_opens hopens] at hc
    exact absurd hc (by decide)
  exact ⟨outside_next hm hopens, hrest, hopens⟩

theorem behind_outside (hm : m.outside = true) (h : blankComments quotes m p = p) : (behind quotes m p).outside = true := by
  induction p generalizing m with
  | nil => exact hm
  | cons c p ih =>
      obtain ⟨houtside, hrest, _⟩ := uncommented_cons hm h
      exact ih houtside hrest

/-- The beginning of a text without comments has none. -/
theorem blankComments_left (hm : m.outside = true) (h : blankComments quotes m (p ++ q) = p ++ q) : blankComments quotes m p = p := by
  induction p generalizing m with
  | nil => rfl
  | cons c p ih =>
      rw [List.cons_append] at h
      obtain ⟨houtside, hrest, hopens⟩ := uncommented_cons hm h
      cases m with
      | code =>
          -- if a comment opened before `p`, it would before `p ++ q`
          have hleft : opens c p = false := by
            refine Bool.eq_false_iff.mpr fun hleft => ?_
            obtain ⟨hslash, hp⟩ := Bool.and_eq_true_iff.mp hleft
            cases p with
            | nil => cases hp
            | cons d p =>
                have hopen : opens c (d :: p ++ q) = true := Bool.and_eq_true_iff.mpr ⟨hslash, hp⟩
                exact Bool.false_ne_true ((hopens rfl).symm.trans hopen)
          have hnext : Mode.next quotes .code c p = Mode.next quotes .code c (p ++ q) := by
            rw [Mode.next, Mode.next, hleft, hopens rfl]
            rfl
          rw [blankComments, show Mode.comment .code c p = false from hleft, hnext, ih houtside hrest]
          rfl
      | literal quote escaped =>
          have hnext : Mode.next quotes (.literal quote escaped) c p = Mode.next quotes (.literal quote escaped) c (p ++ q) := by
            cases escaped with
            | true => rfl
            | false => rfl
          rw [blankComments, hnext, ih houtside hrest]
          rfl
      | line | star | block | slash => cases hm

/-! ## The lines of a text -/

/-- The lines that the loop goes through, of a text that has been spliced and stripped. -/
def linesIn (p : Text) : List Text := splitLines p.length p

theorem linesIn_newline (h : OneLine p) (rest : Text) : linesIn (p ++ '\n' :: rest) = p :: linesIn rest := by
  have hfree : ∀ c ∈ p, decide (c ≠ '\n') = true := fun c hc => decide_eq_true fun heq => h (heq ▸ hc)
  have htake : (p ++ '\n' :: rest).takeWhile (fun c => decide (c ≠ '\n')) = p := by
    rw [List.takeWhile_append_of_pos hfree]
    exact List.append_nil p
  have hdrop : (p ++ '\n' :: rest).dropWhile (fun c => decide (c ≠ '\n')) = '\n' :: rest := by
    rw [List.dropWhile_append_of_pos hfree]
    rfl
  have hsplit : splitLines (p.length + rest.length + 1) (p ++ '\n' :: rest) =
      (p ++ '\n' :: rest).takeWhile (fun c => decide (c ≠ '\n')) ::
        splitLines (p.length + rest.length) ((p ++ '\n' :: rest).dropWhile (fun c => decide (c ≠ '\n'))).tail := by
    cases p with
    | nil => rfl
    | cons c p => rfl
  rw [linesIn, List.length_append, List.length_cons, ← Nat.add_assoc, hsplit, htake, hdrop, List.tail_cons, linesIn,
    splitLines_congr (Nat.le_add_left _ _) (Nat.le_refl _)]

theorem linesIn_last (h : OneLine p) (hne : p ≠ []) : linesIn p = [p] := by
  have hfree : ∀ c ∈ p, decide (c ≠ '\n') = true := fun c hc => decide_eq_true fun heq => h (heq ▸ hc)
  cases p with
  | nil => exact absurd rfl hne
  | cons c p =>
      show (c :: p).takeWhile (fun c => decide (c ≠ '\n')) :: splitLines _ ((c :: p).dropWhile (fun c => decide (c ≠ '\n'))).tail = _
      rw [List.takeWhile_eq_self_iff.mpr hfree, List.dropWhile_eq_nil_iff.mpr hfree, List.tail_nil, splitLines_nil]

theorem oneLine_blankComments (h : OneLine p) (m : Mode) : OneLine (blankComments quotes m p) := by
  induction p generalizing m with
  | nil => exact h
  | cons c p ih =>
      refine OneLine.cons ?_ (ih h.tail _)
      split
      · decide
      · exact h.head

section Lines

variable {raws : List Text} (hraws : ∀ raw ∈ raws, OneLine raw ∧ continued raw = false) (hnewline : quotes '\n' = false)
include hraws hnewline

/-- Each line is read by itself, from one of two modes. -/
theorem linesIn_blankComments (hm : m.Starts) (rest : Text) : ∃ lines m', m'.Starts ∧ lines.length = raws.length ∧
    (∀ line ∈ lines, ∃ (m : Mode) (raw : Text), m.Starts ∧ line = blankComments quotes m raw) ∧
    linesIn (blankComments quotes m (unlines raws ++ rest)) = lines ++ linesIn (blankComments quotes m' rest) := by
  induction raws generalizing m with
  | nil => exact ⟨[], m, hm, rfl, fun line hline => absurd hline List.not_mem_nil, rfl⟩
  | cons raw raws ih =>
      obtain ⟨hraw, hrest⟩ := List.forall_mem_cons.mp hraws
      have hescaped : (behind quotes m raw).escaped = false := behind_escaped (fun _ => hm.escaped) hraw.2
      have hnext := starts_next hnewline hescaped (unlines raws ++ rest)
      obtain ⟨lines, m', hm', hlength, hlines, heq⟩ := ih hrest hnext
      refine ⟨blankComments quotes m raw :: lines, m', hm', congrArg (· + 1) hlength, fun line hline => ?_, ?_⟩
      · rcases List.mem_cons.mp hline with rfl | hline
        · exact ⟨m, raw, hm, rfl⟩
        · exact hlines line hline
      · rw [unlines_cons, List.append_assoc, List.cons_append, blankComments_newline_append,
          linesIn_newline (oneLine_blankComments hraw.1 m), heq, List.cons_append]

/-- Where there are no comments, the lines are those that were written. -/
theorem linesIn_uncommented (hclean : ∀ raw ∈ raws, blankComments quotes .code raw = raw) (rest : Text) :
    linesIn (blankComments quotes .code (unlines raws ++ rest)) = raws ++ linesIn (blankComments quotes .code rest) := by
  induction raws with
  | nil => rfl
  | cons raw raws ih =>
      obtain ⟨hraw, hrest⟩ := List.forall_mem_cons.mp hraws
      obtain ⟨hcleanRaw, hcleanRest⟩ := List.forall_mem_cons.mp hclean
      have hcode : (behind quotes .code raw).next quotes '\n' (unlines raws ++ rest) = .code := by
        have hopens : opens '\n' (unlines raws ++ rest) = false := rfl
        have houtside : ((behind quotes .code raw).next quotes '\n' (unlines raws ++ rest)).outside = true :=
          outside_next (behind_outside rfl hcleanRaw) fun _ => hopens
        have hescaped : (behind quotes .code raw).escaped = false := behind_escaped (fun _ => rfl) hraw.2
        rcases starts_next hnewline hescaped (unlines raws ++ rest) with h | h
        · exact h
        · rw [h] at houtside
          cases houtside
      rw [unlines_cons, List.append_assoc, List.cons_append, blankComments_newline_append, hcode, hcleanRaw,
        linesIn_newline hraw.1, ih hrest hcleanRest, List.cons_append]

end Lines

/-! ## Splicing -/

theorem withoutPairs_line (h : OneLine p) (rest : Text) : withoutPairs (p ++ '\n' :: rest) =
    if continued p then p.dropLast ++ withoutPairs rest else p ++ '\n' :: withoutPairs rest := by
  obtain ⟨last, hloop⟩ := spliceLoop_line h 1 none rest
  have hfst := congrArg Prod.fst hloop
  rw [spliceLoop_fst] at hfst
  rw [hfst]
  split
  · rw [spliceLoop_fst]
  · rw [spliceLoop_fst]

/-- The line ends that are left are those of the lines that do not go on. -/
theorem count_withoutPairs {raws : List Text} (hraws : ∀ raw ∈ raws, OneLine raw) :
    (withoutPairs (unlines raws)).count '\n' = raws.countP (! continued ·) := by
  induction raws with
  | nil => rfl
  | cons raw raws ih =>
      obtain ⟨hraw, hrest⟩ := List.forall_mem_cons.mp hraws
      rw [unlines_cons, withoutPairs_line hraw]
      cases hc : continued raw with
      | true =>
          rw [if_pos rfl, List.count_append, List.count_eq_zero.mpr (hraw.sub (List.dropLast_subset _)), Nat.zero_add, ih hrest,
            List.countP_cons_of_neg (by rw [hc]; decide)]
      | false =>
          rw [if_neg Bool.false_ne_true, List.count_append, List.count_eq_zero.mpr hraw, Nat.zero_add, List.count_cons_self, ih hrest,
            List.countP_cons_of_pos (by rw [hc]; decide)]

/-- Only the last line can go on. -/
theorem withoutPairs_unlines {raws : List Text} (hraws : ∀ raw ∈ raws, OneLine raw ∧ continued raw = false) {raw : Text} (hraw : OneLine raw) :
    withoutPairs (unlines (raws ++ [raw])) = unlines raws ++ if continued raw then raw.dropLast else raw ++ ['\n'] := by
  induction raws with
  | nil =>
      rw [List.nil_append, unlines_cons, withoutPairs_line hraw]
      split
      · exact List.append_nil _
      · rfl
  | cons raw' raws ih =>
      obtain ⟨hraw', hrest⟩ := List.forall_mem_cons.mp hraws
      rw [List.cons_append, unlines_cons, withoutPairs_line hraw'.1, hraw'.2, if_neg Bool.false_ne_true, ih hrest, unlines_cons,
        List.append_assoc, List.cons_append]

theorem linesOf_texts (input : Text) :
    (linesOf input).map Line.text = linesIn (blankComments isStringQuote .code (withoutPairs input)) := by
  have htexts : ∀ (texts : List Text) (counts : List Nat), texts.length ≤ counts.length →
      (List.zipWith Line.mk texts counts).map Line.text = texts := by
    intro texts
    induction texts with
    | nil => exact fun _ _ => rfl
    | cons text texts ih =>
        intro counts hcounts
        cases counts with
        | nil => exact absurd hcounts (Nat.not_succ_le_zero _)
        | cons count counts => exact congrArg (text :: ·) (ih counts (Nat.le_of_succ_le_succ hcounts))
  have hstrip := stripComments_eq (Nat.le_refl (splice input).1.length) false
  rw [linesOf, htexts _ _ (lines_le_counts input), hstrip, splice, spliceLoop_fst]
  rfl

theorem length_linesOf_le (input : Text) : (linesOf input).length ≤ (withoutPairs input).count '\n' + 1 ∧
    (input = [] ∨ (withoutPairs input).getLast? = some '\n' → (linesOf input).length = (withoutPairs input).count '\n') := by
  have hstrip := stripComments_eq (Nat.le_refl (withoutPairs input).length) false
  have hmask := stripComments_newlines (Nat.le_refl (withoutPairs input).length) false
  have hcount : (blankComments isStringQuote .code (withoutPairs input)).count '\n' = (withoutPairs input).count '\n' := by
    rw [count_newline, count_newline (withoutPairs input), ← hmask, hstrip]
    rfl
  have hlength : (linesOf input).length = (linesIn (blankComments isStringQuote .code (withoutPairs input))).length := by
    rw [← linesOf_texts, List.length_map]
  rw [hlength, ← hcount]
  refine ⟨length_splitLines_le, fun hend => length_splitLines (Nat.le_refl _) ?_⟩
  rcases hend with rfl | hend
  · exact .inl rfl
  · refine .inr (getLast?_newline ?_ hend)
    rw [← hmask, hstrip]
    rfl

end Rcc.Preprocess

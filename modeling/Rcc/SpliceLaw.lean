import Rcc.LineCounts

/-!
# The law of line splicing

`splice_lines_with_counts` takes the backslashes at the ends of lines out of a text, with
the line ends behind them. Where a logical line begins in the input is told by what is
before it: nothing, or text that ends in a line end that stays.
-/

namespace Rcc.Preprocess

open Lexer (Text headIs)

/-- The text without its pairs of a backslash and a line end. -/
def withoutPairs : Text → Text
  | [] => []
  | [c] => [c]
  | c :: d :: p => if c = '\\' && d = '\n' then withoutPairs p else c :: withoutPairs (d :: p)

/-- Behind this part of the input a logical line begins. -/
def EndsLine (before : Text) : Prop := before = [] ∨ ∃ line, before = line ++ ['\n'] ∧ line.getLast? ≠ some '\\'

theorem withoutPairs_cons (c : Char) (p : Text) :
    withoutPairs (c :: p) = if c = '\\' && headIs (· = '\n') p then withoutPairs p.tail else c :: withoutPairs p := by
  cases p with
  | nil =>
      rw [show headIs (· = '\n') [] = false from rfl, Bool.and_false, if_neg nofun]
      rfl
  | cons d p => rfl

theorem spliceLoop_fst (count : Nat) (last : Option Char) (p : Text) : (spliceLoop count last p).1 = withoutPairs p := by
  fun_induction spliceLoop count last p with
  | case1 => rfl
  | case2 => rfl
  | case3 => rfl
  | case4 count last c d p h ih => rw [withoutPairs, if_pos h, ih]
  | case5 count last d p h ih => rw [withoutPairs, if_neg h, ih]
  | case6 count last c d p h hc ih => rw [withoutPairs, if_neg h, ih]

/-- What goes on with the same logical line. -/
theorem EndsLine.tail {c : Char} {before : Text} (h : EndsLine (c :: before)) (hbefore : before ≠ []) : EndsLine before := by
  obtain hnil | ⟨line, hline, hlast⟩ := h
  · exact absurd hnil (List.cons_ne_nil c before)
  · cases line with
    | nil => exact absurd (List.cons.inj hline).2 hbefore
    | cons d line =>
        refine .inr ⟨line, (List.cons.inj hline).2, fun hback => hlast ?_⟩
        rw [List.getLast?_cons, hback]
        rfl

theorem EndsLine.eq_newline {c : Char} (h : EndsLine [c]) : c = '\n' := by
  obtain hnil | ⟨line, hline, _⟩ := h
  · exact absurd hnil (List.cons_ne_nil c [])
  · obtain ⟨_, hc⟩ := List.append_inj' (show [] ++ [c] = line ++ ['\n'] from hline) rfl
    exact List.singleton_inj.mp hc

/-- A pair ends no line. -/
theorem EndsLine.pair {before : Text} (h : EndsLine ('\\' :: '\n' :: before)) : before ≠ [] ∧ EndsLine before := by
  have hne : before ≠ [] := by
    rintro rfl
    obtain hnil | ⟨line, hline, hlast⟩ := h
    · exact absurd hnil (List.cons_ne_nil _ _)
    · obtain ⟨hline, _⟩ := List.append_inj' (show ['\\'] ++ ['\n'] = line ++ ['\n'] from hline) rfl
      exact hlast (hline ▸ rfl)
  exact ⟨hne, (h.tail (List.cons_ne_nil _ _)).tail hne⟩

/-- The text and the counts divide where a logical line begins. -/
theorem spliceLoop_append {before : Text} (hends : EndsLine before) (hne : before ≠ []) (count : Nat) (last : Option Char) (rest : Text) :
    (spliceLoop (count + 1) last (before ++ rest)).1 = withoutPairs before ++ withoutPairs rest ∧
      ((spliceLoop (count + 1) last (before ++ rest)).2.take ((withoutPairs before).count '\n')).sum =
        count + before.count '\n' := by
  induction hn : before.length using Nat.strongRecOn generalizing before count last with
  | ind n ih =>
      cases before with
      | nil => exact absurd rfl hne
      | cons c b =>
          have hlt : b.length < n := hn ▸ Nat.lt_succ_self _
          rw [List.cons_append, spliceLoop_cons, withoutPairs_cons]
          by_cases hb : b = []
          · -- the line end itself
            subst hb
            obtain rfl := hends.eq_newline
            rw [if_neg nofun, if_pos rfl, if_neg nofun, spliceLoop_fst]
            exact ⟨rfl, rfl⟩
          have hhead : headIs (· = '\n') (b ++ rest) = headIs (· = '\n') b := by
            obtain ⟨d, b', rfl⟩ := List.exists_cons_of_ne_nil hb
            rfl
          rw [hhead]
          split
          · next hpair =>
              obtain ⟨d, b', rfl⟩ := List.exists_cons_of_ne_nil hb
              obtain ⟨hc, hd⟩ := Bool.and_eq_true_iff.mp hpair
              obtain rfl := of_decide_eq_true hc
              obtain rfl : d = '\n' := of_decide_eq_true hd
              obtain ⟨hne', hends'⟩ := hends.pair
              obtain ⟨htext, hsum⟩ := ih b'.length (Nat.lt_of_succ_lt hlt) hends' hne' (count + 1) last rfl
              refine ⟨htext, hsum.trans ?_⟩
              rw [List.count_cons_of_ne (by decide), List.count_cons_self]
              omega
          split
          · next hc =>
              subst hc
              obtain ⟨htext, hsum⟩ := ih b.length hlt (hends.tail hb) hb 0 (some '\n') rfl
              refine ⟨congrArg ('\n' :: ·) htext, ?_⟩
              rw [List.count_cons_self, List.count_cons_self, List.take_succ_cons, List.sum_cons, hsum]
              omega
          · next hc =>
              obtain ⟨htext, hsum⟩ := ih b.length hlt (hends.tail hb) hb count (some c) rfl
              refine ⟨congrArg (c :: ·) htext, ?_⟩
              rw [List.count_cons_of_ne hc, List.count_cons_of_ne hc]
              exact hsum

theorem EndsLine.cons {c : Char} {before : Text} (h : EndsLine before) (hbefore : before ≠ [])
    (hpair : (c = '\\' && headIs (· = '\n') before) = false) : EndsLine (c :: before) := by
  obtain hnil | ⟨line, rfl, hlast⟩ := h
  · exact absurd hnil hbefore
  · refine .inr ⟨c :: line, rfl, fun hback => ?_⟩
    cases line with
    | nil =>
        obtain rfl := Option.some_inj.mp hback
        exact absurd hpair (by decide)
    | cons d line =>
        rw [List.getLast?_cons_cons] at hback
        exact hlast hback

/-- Each logical line of the text begins somewhere in the input. -/
theorem exists_before {input : Text} {k : Nat} (hk : k ≤ (withoutPairs input).count '\n') :
    ∃ before rest, input = before ++ rest ∧ EndsLine before ∧ (withoutPairs before).count '\n' = k := by
  induction hn : input.length using Nat.strongRecOn generalizing input k with
  | ind n ih =>
      cases k with
      | zero => exact ⟨[], input, rfl, .inl rfl, rfl⟩
      | succ k =>
          cases input with
          | nil => exact absurd hk (Nat.not_succ_le_zero k)
          | cons c p =>
              have hlt : p.length < n := hn ▸ Nat.lt_succ_self _
              have hne : ∀ before : Text, (withoutPairs before).count '\n' = k + 1 → before ≠ [] := by
                rintro before hcount rfl
                exact absurd hcount (Nat.succ_ne_zero k).symm
              rw [withoutPairs_cons] at hk
              split at hk
              · next hpair =>
                  obtain ⟨hc, hd⟩ := Bool.and_eq_true_iff.mp hpair
                  obtain rfl := of_decide_eq_true hc
                  cases p with
                  | nil => exact absurd hd nofun
                  | cons d p =>
                      obtain rfl : d = '\n' := of_decide_eq_true hd
                      obtain ⟨before, rest, rfl, hends, hcount⟩ := ih p.length (Nat.lt_of_succ_lt hlt) hk rfl
                      refine ⟨'\\' :: '\n' :: before, rest, rfl, ?_, hcount⟩
                      obtain hnil | ⟨line, rfl, hlast⟩ := hends
                      · exact absurd hnil (hne before hcount)
                      · refine .inr ⟨'\\' :: '\n' :: line, rfl, fun hback => ?_⟩
                        cases line with
                        | nil => exact absurd hback (by decide)
                        | cons d line =>
                            rw [List.getLast?_cons_cons, List.getLast?_cons_cons] at hback
                            exact hlast hback
              · next hpair =>
                  rw [Bool.not_eq_true] at hpair
                  by_cases hc : c = '\n'
                  · subst hc
                    rw [List.count_cons_self] at hk
                    obtain ⟨before, rest, rfl, hends, hcount⟩ := ih p.length hlt (Nat.le_of_succ_le_succ hk) rfl
                    refine ⟨'\n' :: before, rest, rfl, ?_, ?_⟩
                    · by_cases hbefore : before = []
                      · exact .inr ⟨[], by rw [hbefore]; rfl, nofun⟩
                      · exact hends.cons hbefore rfl
                    · rw [withoutPairs_cons, if_neg nofun, List.count_cons_self, hcount]
                  · rw [List.count_cons_of_ne hc] at hk
                    obtain ⟨before, rest, rfl, hends, hcount⟩ := ih p.length hlt hk rfl
                    have hbefore := hne before hcount
                    have hhead : headIs (· = '\n') (before ++ rest) = headIs (· = '\n') before := by
                      obtain ⟨d, b, rfl⟩ := List.exists_cons_of_ne_nil hbefore
                      rfl
                    rw [hhead] at hpair
                    refine ⟨c :: before, rest, rfl, hends.cons hbefore hpair, ?_⟩
                    rw [withoutPairs_cons, if_neg (Bool.eq_false_iff.mp hpair), List.count_cons_of_ne hc, hcount]

/-! ## A count for every line -/

theorem length_splitLines_le {n : Nat} {p : Text} : (splitLines n p).length ≤ p.count '\n' + 1 := by
  induction n generalizing p with
  | zero => exact Nat.zero_le _
  | succ n ih =>
      cases p with
      | nil => exact Nat.zero_le _
      | cons c p =>
          have hsplit : (c :: p).takeWhile (fun c => decide (c ≠ '\n')) ++ (c :: p).dropWhile (fun c => decide (c ≠ '\n')) = c :: p :=
            List.takeWhile_append_dropWhile
          have hcount := congrArg (List.count '\n') hsplit
          rw [List.count_append] at hcount
          show (splitLines n ((c :: p).dropWhile fun c => decide (c ≠ '\n')).tail).length + 1 ≤ (c :: p).count '\n' + 1
          cases hdrop : (c :: p).dropWhile (fun c => decide (c ≠ '\n')) with
          | nil =>
              have hnil : splitLines n [] = [] := by
                cases n with
                | zero => rfl
                | succ n => rfl
              rw [List.tail_nil, hnil]
              exact Nat.succ_le_succ (Nat.zero_le _)
          | cons d q =>
              have hd : d = '\n' := by
                have hhead := List.head?_dropWhile_not (fun c => decide (c ≠ '\n')) (c :: p)
                rw [hdrop] at hhead
                exact Decidable.of_not_not (of_decide_eq_false hhead)
              rw [hdrop, hd, List.count_cons_self] at hcount
              have hq := ih (p := q)
              show (splitLines n q).length + 1 ≤ _
              omega

/-- Every line end is counted, and so is text behind the last one. -/
theorem spliceLoop_length (count : Nat) (last : Option Char) (p : Text) :
    (withoutPairs p).count '\n' ≤ (spliceLoop count last p).2.length ∧
      ((withoutPairs p).getLast?.or last ≠ some '\n' → (withoutPairs p).count '\n' + 1 ≤ (spliceLoop count last p).2.length) := by
  have hlast : ∀ (last : Option Char) (c : Char) (q : Text), (c :: q).getLast?.or last = q.getLast?.or (some c) := by
    intro last c q
    rw [List.getLast?_cons]
    cases q.getLast? with
    | none => rfl
    | some d => rfl
  induction hn : p.length using Nat.strongRecOn generalizing p count last with
  | ind n ih =>
      cases p with
      | nil =>
          refine ⟨Nat.zero_le _, fun hend => ?_⟩
          have hend : last ≠ some '\n' := hend
          have hcounts : (spliceLoop count last []).2 = [count] := if_pos (by rw [decide_eq_true hend, Bool.or_true])
          rw [hcounts]
          exact Nat.le_refl 1
      | cons c p =>
          have hlt : p.length < n := hn ▸ Nat.lt_succ_self _
          rw [spliceLoop_cons, withoutPairs_cons]
          split
          · exact ih p.tail.length (Nat.lt_of_le_of_lt (List.tail_sublist p).length_le hlt) (count + 1) last p.tail rfl
          split
          · next hc =>
              subst hc
              obtain ⟨hle, hrest⟩ := ih p.length hlt 1 (some '\n') p rfl
              rw [List.count_cons_self, hlast]
              exact ⟨Nat.succ_le_succ hle, fun hend => Nat.succ_le_succ (hrest hend)⟩
          · next hc =>
              obtain ⟨hle, hrest⟩ := ih p.length hlt count (some c) p rfl
              rw [List.count_cons_of_ne hc, hlast]
              exact ⟨hle, hrest⟩

/-- The loop takes no more lines than there are counts. -/
theorem lines_le_counts (input : Text) :
    (splitLines (stripComments (splice input).1.length false (splice input).1).length
      (stripComments (splice input).1.length false (splice input).1)).length ≤ (splice input).2.length := by
  have hmask := stripComments_newlines (Nat.le_refl (splice input).1.length) false
  obtain ⟨hle, hrest⟩ := spliceLoop_length 1 none input
  rw [← spliceLoop_fst 1 none input, show spliceLoop 1 none input = splice input from rfl] at hle hrest
  have hcount : (stripComments (splice input).1.length false (splice input).1).count '\n' = (splice input).1.count '\n' := by
    rw [count_newline, hmask, ← count_newline]
  by_cases hend : (splice input).1.getLast? = some '\n'
  · rw [length_splitLines (Nat.le_refl _) (.inr (getLast?_newline hmask hend)), hcount]
    exact hle
  · refine Nat.le_trans length_splitLines_le (hcount ▸ hrest ?_)
    rw [Option.or_none]
    exact hend

/-- The text that is left has the pairs taken out. Each of its lines begins in the input where the
counts before it tell, and there is a count for each line of the loop. -/
theorem splice_law (input : Text) :
    (splice input).1 = withoutPairs input ∧
      (∀ before rest, input = before ++ rest → EndsLine before →
        withoutPairs input = withoutPairs before ++ withoutPairs rest ∧
          1 + ((splice input).2.take ((withoutPairs before).count '\n')).sum = 1 + before.count '\n') ∧
      (∀ k ≤ (withoutPairs input).count '\n',
        ∃ before rest, input = before ++ rest ∧ EndsLine before ∧ (withoutPairs before).count '\n' = k) ∧
      (splitLines (stripComments (splice input).1.length false (splice input).1).length
        (stripComments (splice input).1.length false (splice input).1)).length ≤ (splice input).2.length := by
  refine ⟨spliceLoop_fst 1 none input, fun before rest hinput hends => ?_, fun k hk => exists_before hk, lines_le_counts input⟩
  by_cases hne : before = []
  · subst hne
    rw [hinput]
    exact ⟨rfl, rfl⟩
  · obtain ⟨htext, hsum⟩ := spliceLoop_append hends hne 0 none rest
    rw [spliceLoop_fst] at htext
    rw [hinput]
    exact ⟨htext, congrArg (1 + ·) (hsum.trans (Nat.zero_add _))⟩

end Rcc.Preprocess

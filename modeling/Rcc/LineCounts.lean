import Rcc.OneLine

/-!
# Lines and the lines they are written on

A file is read as lines that each end in a line end. `joinLines` puts those together that
are one line, each one that ends in a backslash with the next. `splice_lines_with_counts`
counts just these; what `strip_comments` does to the text keeps its line ends.
-/

namespace Rcc.Preprocess

open Lexer (Text isspace isdigit headIs startswith)

/-! ## Written lines -/

def unlines (raws : List Text) : Text := raws.flatMap (· ++ ['\n'])

/-- The next line goes on with this one. -/
def continued (raw : Text) : Bool := raw.getLast? = some '\\'

def joinLines : List Text → List (List Text)
  | [] => []
  | raw :: rest =>
      if continued raw then
        match joinLines rest with
        | [] => [[raw]]
        | line :: lines => (raw :: line) :: lines
      else [raw] :: joinLines rest

/-- How many written lines are before a line. -/
def writtenBefore (raws : List Text) (k : Nat) : Nat := ((joinLines raws).take k).flatten.length

theorem joinLines_flatten (raws : List Text) : (joinLines raws).flatten = raws := by
  induction raws with
  | nil => rfl
  | cons raw rest ih =>
      rw [joinLines]
      split
      · cases h : joinLines rest with
        | nil =>
            rw [h] at ih
            rw [← ih]
            rfl
        | cons line lines =>
            rw [h] at ih
            rw [← ih]
            rfl
      · rw [List.flatten_cons, ih]
        rfl

/-- There is a written line to every line. -/
theorem joinLines_pos (raws : List Text) : ∀ line ∈ joinLines raws, 0 < line.length := by
  induction raws with
  | nil => exact fun line hline => absurd hline List.not_mem_nil
  | cons raw rest ih =>
      intro line hline
      rw [joinLines] at hline
      split at hline
      · cases h : joinLines rest with
        | nil =>
            rw [h] at hline
            rw [List.mem_singleton.mp hline]
            exact Nat.succ_pos _
        | cons first lines =>
            rw [h] at hline
            rcases List.mem_cons.mp hline with rfl | hline
            · exact Nat.succ_pos _
            · exact ih line (h ▸ List.mem_cons_of_mem _ hline)
      · rcases List.mem_cons.mp hline with rfl | hline
        · exact Nat.succ_pos _
        · exact ih line hline

theorem unlines_cons (raw : Text) (raws : List Text) : unlines (raw :: raws) = raw ++ '\n' :: unlines raws := by
  rw [unlines, List.flatMap_cons, List.append_assoc]
  rfl

theorem ends_tail {raw rest : Text} (h : (raw ++ '\n' :: rest).getLast? = some '\n') :
    rest = [] ∨ rest.getLast? = some '\n' := by
  rcases List.eq_nil_or_concat rest with rfl | ⟨init, c, rfl⟩
  · exact .inl rfl
  · right
    rw [List.concat_eq_append] at h ⊢
    rw [List.getLast?_append, List.getLast?_cons, List.getLast?_concat] at h
    rw [List.getLast?_concat]
    exact h

/-- A text that ends in a line end is one of written lines. -/
theorem exists_unlines {input : Text} (h : input = [] ∨ input.getLast? = some '\n') :
    ∃ raws : List Text, (∀ raw ∈ raws, OneLine raw) ∧ unlines raws = input := by
  induction hn : input.length using Nat.strongRecOn generalizing input with
  | ind n ih =>
      rcases h with rfl | hlast
      · exact ⟨[], fun raw hraw => absurd hraw List.not_mem_nil, rfl⟩
      · have hmem : '\n' ∈ input := List.mem_of_getLast? hlast
        obtain ⟨raw, rest, rfl, hraw⟩ := List.eq_append_cons_of_mem hmem
        have hrest := ends_tail hlast
        have hlt : rest.length < n := by
          rw [← hn, List.length_append, List.length_cons]
          omega
        obtain ⟨raws, hraws, hunlines⟩ := ih rest.length hlt hrest rfl
        refine ⟨raw :: raws, fun r hr => ?_, ?_⟩
        · rcases List.mem_cons.mp hr with rfl | hr
          · exact hraw
          · exact hraws r hr
        · rw [unlines_cons, hunlines]

/-! ## Splicing -/

theorem spliceLoop_cons (count : Nat) (last : Option Char) (c : Char) (p : Text) : spliceLoop count last (c :: p) =
    if c = '\\' && headIs (· = '\n') p then spliceLoop (count + 1) last p.tail
    else if c = '\n' then (c :: (spliceLoop 1 (some c) p).1, count :: (spliceLoop 1 (some c) p).2)
    else (c :: (spliceLoop count (some c) p).1, (spliceLoop count (some c) p).2) := by
  cases p with
  | nil =>
      rw [show headIs (· = '\n') [] = false from rfl, Bool.and_false, if_neg nofun, spliceLoop]
      rfl
  | cons d p =>
      rw [spliceLoop]
      rfl

/-- One written line. -/
theorem spliceLoop_line {raw : Text} (hraw : OneLine raw) (count : Nat) (last : Option Char) (rest : Text) :
    ∃ last', spliceLoop count last (raw ++ '\n' :: rest) =
      if continued raw then (raw.dropLast ++ (spliceLoop (count + 1) last' rest).1, (spliceLoop (count + 1) last' rest).2)
      else (raw ++ '\n' :: (spliceLoop 1 (some '\n') rest).1, count :: (spliceLoop 1 (some '\n') rest).2) := by
  induction raw generalizing last with
  | nil => exact ⟨none, by rw [List.nil_append, spliceLoop_cons]; rfl⟩
  | cons c raw ih =>
      rw [List.cons_append, spliceLoop_cons]
      cases raw with
      | nil =>
          refine ⟨last, ?_⟩
          by_cases hc : c = '\\'
          · rw [hc]
            rfl
          · have hcontinued : continued [c] = false := decide_eq_false fun h => hc (Option.some_inj.mp h)
            rw [decide_eq_false hc, Bool.false_and, if_neg nofun, if_neg hraw.head, hcontinued, List.nil_append, spliceLoop_cons]
            rfl
      | cons d raw =>
          have hd : d ≠ '\n' := hraw.tail.head
          obtain ⟨last', hrest⟩ := ih hraw.tail (some c)
          refine ⟨last', ?_⟩
          rw [show headIs (· = '\n') (d :: raw ++ '\n' :: rest) = false from decide_eq_false hd, Bool.and_false, if_neg nofun,
            if_neg hraw.head, hrest]
          have hcontinued : continued (c :: d :: raw) = continued (d :: raw) := rfl
          rw [hcontinued]
          split
          · rfl
          · rfl

/-- The file does not end within a line. -/
def Ended (raws : List Text) : Prop := ∀ raw ∈ raws.getLast?, continued raw = false

instance (raws : List Text) : Decidable (Ended raws) :=
  inferInstanceAs (Decidable (∀ raw ∈ raws.getLast?, continued raw = false))

theorem Ended.tail {raw : Text} {raws : List Text} (h : Ended (raw :: raws)) : Ended raws := by
  intro last hlast
  refine h last ?_
  rw [List.getLast?_cons, show raws.getLast? = some last from hlast]
  rfl

theorem Ended.ne_nil {raw : Text} {raws : List Text} (h : Ended (raw :: raws)) (hraw : continued raw = true) : raws ≠ [] := by
  rintro rfl
  exact absurd (hraw.symm.trans (h raw rfl)) nofun

/-- What is counted. -/
theorem spliceLoop_counts {raws : List Text} (hraws : ∀ raw ∈ raws, OneLine raw) (hended : Ended raws) (count : Nat)
    (last : Option Char) : (spliceLoop count last (unlines raws)).2 =
      match joinLines raws with
      | [] => if 1 < count || last ≠ some '\n' then [count] else []
      | line :: lines => (count + line.length - 1) :: lines.map List.length := by
  induction raws generalizing count last with
  | nil => rfl
  | cons raw rest ih =>
      have hih := ih (fun r hr => hraws r (List.mem_cons_of_mem _ hr)) hended.tail
      obtain ⟨last', hline⟩ := spliceLoop_line (hraws raw List.mem_cons_self) count last (unlines rest)
      rw [unlines_cons, hline, joinLines]
      cases hc : continued raw with
      | true =>
          show (spliceLoop (count + 1) last' (unlines rest)).2 = _
          rw [hih, if_pos rfl]
          cases hjoin : joinLines rest with
          | nil =>
              have hnil : rest = [] := by rw [← joinLines_flatten rest, hjoin]; rfl
              exact absurd hnil (hended.ne_nil hc)
          | cons line lines =>
              show (count + 1 + line.length - 1) :: _ = (count + (line.length + 1) - 1) :: _
              rw [Nat.add_right_comm, Nat.add_assoc]
      | false =>
          show count :: (spliceLoop 1 (some '\n') (unlines rest)).2 = (count + 1 - 1) :: (joinLines rest).map List.length
          rw [hih, Nat.add_sub_cancel]
          cases joinLines rest with
          | nil => rfl
          | cons line lines =>
              show count :: (1 + line.length - 1) :: _ = _
              rw [Nat.add_sub_cancel_left]
              rfl

/-- The text has as many lines. -/
theorem spliceLoop_text {raws : List Text} (hraws : ∀ raw ∈ raws, OneLine raw) (hended : Ended raws) (count : Nat)
    (last : Option Char) : (spliceLoop count last (unlines raws)).1.count '\n' = (joinLines raws).length ∧
      (raws ≠ [] → (spliceLoop count last (unlines raws)).1.getLast? = some '\n') := by
  induction raws generalizing count last with
  | nil => exact ⟨rfl, fun h => absurd rfl h⟩
  | cons raw rest ih =>
      have hih := ih (fun r hr => hraws r (List.mem_cons_of_mem _ hr)) hended.tail
      have hraw := hraws raw List.mem_cons_self
      obtain ⟨last', hline⟩ := spliceLoop_line hraw count last (unlines rest)
      rw [unlines_cons, hline, joinLines]
      cases hc : continued raw with
      | true =>
          have hne := hended.ne_nil hc
          obtain ⟨hcount, hlast⟩ := hih (count + 1) last'
          show (raw.dropLast ++ (spliceLoop (count + 1) last' (unlines rest)).1).count '\n' = _ ∧
            (_ → (raw.dropLast ++ (spliceLoop (count + 1) last' (unlines rest)).1).getLast? = _)
          rw [if_pos rfl, List.count_append, List.count_eq_zero.mpr (hraw.sub (List.dropLast_subset _)), hcount, Nat.zero_add,
            List.getLast?_append, hlast hne]
          refine ⟨?_, fun _ => rfl⟩
          cases hjoin : joinLines rest with
          | nil =>
              have hnil : rest = [] := by rw [← joinLines_flatten rest, hjoin]; rfl
              exact absurd hnil hne
          | cons line lines => rfl
      | false =>
          obtain ⟨hcount, hlast⟩ := hih 1 (some '\n')
          show (raw ++ '\n' :: (spliceLoop 1 (some '\n') (unlines rest)).1).count '\n' = (_ :: joinLines rest).length ∧
            (_ → (raw ++ '\n' :: (spliceLoop 1 (some '\n') (unlines rest)).1).getLast? = _)
          rw [List.count_append, List.count_eq_zero.mpr hraw, Nat.zero_add, List.count_cons_self, hcount, List.length_cons,
            List.getLast?_append, List.getLast?_cons]
          refine ⟨rfl, fun _ => ?_⟩
          cases rest with
          | nil => rfl
          | cons raw' rest =>
              rw [hlast (List.cons_ne_nil _ _)]
              rfl

/-! ## Comments -/

def isNewline (c : Char) : Bool := c = '\n'

theorem blankComment_newlines (p : Text) :
    ((blankComment p).1 ++ (blankComment p).2).map isNewline = p.map isNewline := by
  have hblank : ∀ c, isNewline (if c = '\n' then c else ' ') = isNewline c := by
    intro c
    split
    · rfl
    · next hc => exact (decide_eq_false hc).symm
  fun_induction blankComment p with
  | case1 => rfl
  | case2 c => exact congrArg (· :: []) (hblank c)
  | case3 c d p h =>
      obtain ⟨hc, hd⟩ := Bool.and_eq_true_iff.mp h
      rw [of_decide_eq_true hc, of_decide_eq_true hd]
      rfl
  | case4 c d p h ih =>
      show isNewline (if c = '\n' then c else ' ') :: ((blankComment (d :: p)).1 ++ (blankComment (d :: p)).2).map isNewline = _
      rw [hblank, ih, List.map_cons (a := c)]

/-- The line ends stay where they are. -/
theorem stripComments_newlines {n : Nat} {p : Text} (h : p.length ≤ n) (inString : Bool) :
    (stripComments n inString p).map isNewline = p.map isNewline := by
  induction n generalizing p inString with
  | zero => rw [List.eq_nil_of_length_eq_zero (Nat.le_zero.mp h)]; rfl
  | succ n ih =>
      cases p with
      | nil => cases inString with | false => rfl | true => rfl
      | cons c p =>
          have hp : p.length ≤ n := Nat.le_of_succ_le_succ h
          have htail : p.tail.length ≤ n := Nat.le_trans (List.tail_sublist p).length_le hp
          cases inString with
          | true =>
              rw [stripComments]
              split
              · rw [List.map_cons, List.map_cons, ih hp]
              split
              · rw [List.cons_append, List.map_cons, List.map_append, ih htail, ← List.map_append, List.map_cons]
                cases p with
                | nil => rfl
                | cons d p => rfl
              · rw [List.map_cons, List.map_cons, ih hp]
          | false =>
              rw [stripComments]
              split
              · rw [List.map_cons, List.map_cons, ih hp]
              split
              · next hslash =>
                  have hc : c = '/' := of_decide_eq_true (Bool.and_eq_true_iff.mp hslash).1
                  have hcomment : (c :: p.takeWhile (· ≠ '\n')).map (isNewline ∘ fun _ => ' ') = (c :: p.takeWhile (· ≠ '\n')).map isNewline := by
                    refine List.map_congr_left fun d hd => ?_
                    rcases List.mem_cons.mp hd with rfl | hd
                    · rw [hc]
                      rfl
                    · have hne : decide (d ≠ '\n') = true := List.mem_takeWhile_imp (p := fun c => decide (c ≠ '\n')) hd
                      exact (decide_eq_false (of_decide_eq_true hne)).symm
                  have hdrop := Nat.le_trans (List.dropWhile_sublist (fun c => decide (c ≠ '\n')) (l := p)).length_le hp
                  rw [List.map_append, List.map_map, hcomment, ih hdrop, ← List.map_append, List.cons_append, List.takeWhile_append_dropWhile]
              split
              · next hslash =>
                  have hc : c = '/' := of_decide_eq_true (Bool.and_eq_true_iff.mp hslash).1
                  cases p with
                  | nil => exact absurd (Bool.and_eq_true_iff.mp hslash).2 nofun
                  | cons d p =>
                      have hd : d = '*' := of_decide_eq_true (Bool.and_eq_true_iff.mp hslash).2
                      have hmap := blankComment_newlines p
                      have hlength := congrArg List.length hmap
                      rw [List.length_map, List.length_map, List.length_append] at hlength
                      have hrest : (blankComment p).2.length ≤ n := by
                        rw [List.length_cons] at hp
                        omega
                      show ([' ', ' '] ++ (blankComment p).1 ++ stripComments n false (blankComment p).2).map isNewline = _
                      rw [List.map_append, ih hrest, ← List.map_append, List.append_assoc, List.map_append, hmap, hc, hd]
                      rfl
              · rw [List.map_cons, List.map_cons, ih hp]

theorem count_newline (p : Text) : p.count '\n' = (p.map isNewline).count true := by
  induction p with
  | nil => rfl
  | cons c p ih =>
      rw [List.map_cons, List.count_cons, List.count_cons, ih]
      rcases Decidable.em (c = '\n') with rfl | hc
      · rfl
      · have hnot : isNewline c = false := decide_eq_false hc
        rw [hnot, beq_eq_false_iff_ne.mpr hc]
        rfl

theorem getLast?_newline {p q : Text} (h : p.map isNewline = q.map isNewline) (hq : q.getLast? = some '\n') :
    p.getLast? = some '\n' := by
  have hlast := congrArg List.getLast? h
  rw [List.getLast?_map, List.getLast?_map, hq] at hlast
  obtain ⟨c, hc, hnewline⟩ := Option.map_eq_some_iff.mp hlast
  rw [hc, of_decide_eq_true (show decide (c = '\n') = true from hnewline)]

/-! ## The lines of a file -/

theorem splitLines_oneLine {n : Nat} {p : Text} : ∀ line ∈ splitLines n p, OneLine line := by
  induction n generalizing p with
  | zero => exact fun line hline => absurd hline List.not_mem_nil
  | succ n ih =>
      cases p with
      | nil => exact fun line hline => absurd hline List.not_mem_nil
      | cons c p =>
          intro line hline
          rcases List.mem_cons.mp (show line ∈ (c :: p).takeWhile (· ≠ '\n') :: splitLines n _ from hline) with rfl | hline
          · exact fun hmem => absurd (List.mem_takeWhile_imp hmem) (by decide)
          · exact ih line hline

theorem length_splitLines {n : Nat} {p : Text} (hn : p.length ≤ n) (h : p = [] ∨ p.getLast? = some '\n') :
    (splitLines n p).length = p.count '\n' := by
  induction n generalizing p with
  | zero => rw [List.eq_nil_of_length_eq_zero (Nat.le_zero.mp hn)]; rfl
  | succ n ih =>
      rcases h with rfl | hlast
      · rfl
      · obtain ⟨raw, rest, rfl, hraw⟩ := List.eq_append_cons_of_mem (List.mem_of_getLast? hlast)
        have hfree : ∀ c ∈ raw, decide (c ≠ '\n') = true := fun c hc => decide_eq_true fun heq => hraw (heq ▸ hc)
        have hrest := ends_tail hlast
        have hdrop : (raw ++ '\n' :: rest).dropWhile (fun c => decide (c ≠ '\n')) = '\n' :: rest := by
          rw [List.dropWhile_append_of_pos hfree]
          rfl
        have hsplit : splitLines (n + 1) (raw ++ '\n' :: rest) =
            (raw ++ '\n' :: rest).takeWhile (fun c => decide (c ≠ '\n')) :: splitLines n rest := by
          cases raw with
          | nil => rfl
          | cons c raw =>
              show _ :: splitLines n ((c :: raw ++ '\n' :: rest).dropWhile fun c => decide (c ≠ '\n')).tail = _
              rw [hdrop]
              rfl
        rw [List.length_append, List.length_cons] at hn
        rw [hsplit, List.length_cons, ih (by omega) hrest, List.count_append, List.count_eq_zero.mpr hraw, List.count_cons_self]
        omega

theorem count_zipWith {texts : List Text} {counts : List Nat} (h : texts.length = counts.length) :
    (List.zipWith Line.mk texts counts).map Line.count = counts := by
  induction texts generalizing counts with
  | nil => rw [List.eq_nil_of_length_eq_zero h.symm]; rfl
  | cons text texts ih =>
      cases counts with
      | nil => exact absurd h nofun
      | cons count counts =>
          rw [List.zipWith_cons_cons, List.map_cons, ih (Nat.succ_inj.mp h)]

/-- Each line counts the lines it is written on. -/
theorem linesOf_counts {raws : List Text} (hraws : ∀ raw ∈ raws, OneLine raw) (hended : Ended raws) :
    (linesOf (unlines raws)).map Line.count = (joinLines raws).map List.length := by
  cases raws with
  | nil => rfl
  | cons raw rest =>
      have hcounts : (splice (unlines (raw :: rest))).2 = (joinLines (raw :: rest)).map List.length := by
        rw [splice, spliceLoop_counts hraws hended]
        cases hjoin : joinLines (raw :: rest) with
        | nil =>
            have hflat := joinLines_flatten (raw :: rest)
            rw [hjoin] at hflat
            exact absurd hflat nofun
        | cons line lines =>
            show (1 + line.length - 1) :: _ = _
            rw [Nat.add_sub_cancel_left]
            rfl
      obtain ⟨hcount, hlast⟩ := spliceLoop_text hraws hended 1 none
      have hmask := stripComments_newlines (Nat.le_refl (splice (unlines (raw :: rest))).1.length) false
      rw [linesOf, count_zipWith, hcounts]
      rw [length_splitLines (Nat.le_refl _) (.inr (getLast?_newline hmask (hlast (List.cons_ne_nil _ _)))), count_newline, hmask,
        ← count_newline, hcounts, List.length_map]
      exact hcount

theorem linesOf_count_pos {raws : List Text} (hraws : ∀ raw ∈ raws, OneLine raw) (hended : Ended raws) :
    ∀ line ∈ linesOf (unlines raws), 0 < line.count := by
  intro line hline
  have hmem : line.count ∈ (joinLines raws).map List.length := linesOf_counts hraws hended ▸ List.mem_map_of_mem hline
  obtain ⟨written, hwritten, hcount⟩ := List.mem_map.mp hmem
  exact hcount ▸ joinLines_pos raws written hwritten

/-- The lines before one are written on the lines before it. -/
theorem sum_counts {raws : List Text} (hraws : ∀ raw ∈ raws, OneLine raw) (hended : Ended raws) {before after : List Line}
    (hlines : linesOf (unlines raws) = before ++ after) : (before.map Line.count).sum = writtenBefore raws before.length := by
  have hcounts := congrArg (List.take before.length) (linesOf_counts hraws hended)
  rw [hlines, List.map_append, List.take_left' (List.length_map _), ← List.map_take] at hcounts
  rw [hcounts, writtenBefore, List.length_flatten]

theorem sum_counts_all {raws : List Text} (hraws : ∀ raw ∈ raws, OneLine raw) (hended : Ended raws) :
    ((linesOf (unlines raws)).map Line.count).sum = raws.length := by
  rw [linesOf_counts hraws hended, ← List.length_flatten, joinLines_flatten]

theorem text_mem_of_zipWith {texts : List Text} {counts : List Nat} {line : Line}
    (h : line ∈ List.zipWith Line.mk texts counts) : line.text ∈ texts := by
  induction texts generalizing counts with
  | nil => exact absurd h List.not_mem_nil
  | cons text texts ih =>
      cases counts with
      | nil => exact absurd h List.not_mem_nil
      | cons count counts =>
          rcases List.mem_cons.mp h with rfl | h
          · exact List.mem_cons_self
          · exact List.mem_cons_of_mem _ (ih h)

theorem linesOf_oneLine {input : Text} : ∀ line ∈ linesOf input, OneLine line.text := fun line hline =>
  splitLines_oneLine line.text (text_mem_of_zipWith hline)

end Rcc.Preprocess

import Rcc.Peephole

/-!
# The peephole loop ends

A rewrite that empties a line leaves fewer lines, and only patterns 1, 2 and 4 leave as many. Patterns 2 and 4 take away a load from the
frame, or an instruction with a register as its first operand, and nothing makes a new one (`Reducible`): what they write is a plain
move or has a number there.

Pattern 1 turns a plain move into another one. It gives the second line the first operand of the first line, which that line does not
have as its second; so the pair is done with, and only the pair behind it can have become possible. If a possible pair counts twice
as much as the next one, the sum goes down (`chances`).
-/

namespace Rcc.Peephole

open Lexer (Text isspace isdigit headIs)
open BitField (Arch)

/-! ## Lines that patterns 2 and 4 take away -/

/-- The mnemonics of pattern 4. -/
def Folds (op : Text) : Prop := isAny ["cmp", "add", "sub", "and", "or", "xor", "imul"] (opName op) = true

instance (op : Text) : Decidable (Folds op) := inferInstanceAs (Decidable (_ = true))

/-- An instruction of these whose first operand is a register. -/
def Arithmetic (line : Text) : Prop :=
  ∃ r ∈ peepOpRegReg line 16 64 32, Folds r.1 ∧ (physRegId .x86 r.2.1).isSome = true

instance (line : Text) : Decidable (Arithmetic line) :=
  inferInstanceAs (Decidable (∃ r ∈ peepOpRegReg line 16 64 32, Folds r.1 ∧ (physRegId .x86 r.2.1).isSome = true))

/-- A load from the frame, or such an instruction. -/
def Reducible (arch : Arch) (line : Text) : Prop :=
  match arch with
  | .x86 => (peepMovRegRbp line).isSome = true ∨ Arithmetic line
  | .arm64 => (peepArmLdrFp line 32).isSome = true

instance (arch : Arch) (line : Text) : Decidable (Reducible arch line) :=
  match arch with
  | .x86 => inferInstanceAs (Decidable ((peepMovRegRbp line).isSome = true ∨ Arithmetic line))
  | .arm64 => inferInstanceAs (Decidable ((peepArmLdrFp line 32).isSome = true))

theorem expect_some {r : String} {p q : Text} (h : expect r p = some q) : p = r.toList ++ q := by
  unfold expect at h
  split at h
  · next hstarts =>
      obtain ⟨t, rfl⟩ := List.isPrefixOf_iff_prefix.mp hstarts
      cases h
      rw [List.drop_left]
  · cases h

theorem fitting_some {size : Nat} {s t : Text} (h : fitting size s = some t) : t = s := by
  unfold fitting at h
  split at h
  · cases h
    rfl
  · cases h

theorem splitComma_some {p q r : Text} (h : splitComma p = some (q, r)) : q = p.takeWhile (· ≠ ',') := by
  unfold splitComma at h
  split at h
  · cases h
    rfl
  · cases h

/-- Where the mnemonic and the first operand are. -/
theorem peepOpRegReg_some {line : Text} {opSize dstSize srcSize : Nat} {op od os : Text}
    (h : peepOpRegReg line opSize dstSize srcSize = some (op, od, os)) :
    ∃ p, line = "  ".toList ++ p ∧ op = p.takeWhile (· ≠ ' ') ∧
      od = (p.dropWhile (· ≠ ' ')).tail.takeWhile (· ≠ ',') := by
  rw [peepOpRegReg] at h
  obtain ⟨p, hp, h⟩ := Option.bind_eq_some_iff.mp h
  refine ⟨p, expect_some hp, ?_⟩
  split at h
  · cases h
  obtain ⟨op', hop, h⟩ := Option.bind_eq_some_iff.mp h
  obtain ⟨⟨dst, q⟩, hcomma, h⟩ := Option.bind_eq_some_iff.mp h
  obtain ⟨dst', hdst, h⟩ := Option.bind_eq_some_iff.mp h
  obtain ⟨src, -, h⟩ := Option.bind_eq_some_iff.mp h
  cases h
  exact ⟨fitting_some hop, (fitting_some hdst).trans (splitComma_some hcomma)⟩

/-- Plain moves are none. -/
theorem move_not_reducible (arch : Arch) (t : Text) : ¬ Reducible arch ("  mov ".toList ++ t) := by
  cases arch with
  | x86 =>
      rintro (hload | ⟨⟨op, od, os⟩, hparse, hfolds, -⟩)
      · cases hload
      · obtain ⟨p, hline, rfl, -⟩ := peepOpRegReg_some hparse
        cases hline
        cases hfolds
  | arm64 =>
      intro hload
      cases hload

theorem movl_not_reducible (t : Text) : ¬ Reducible .x86 ("  movl $".toList ++ t) := by
  rintro (hload | ⟨⟨op, od, os⟩, hparse, hfolds, -⟩)
  · cases hload
  · obtain ⟨p, hline, rfl, -⟩ := peepOpRegReg_some hparse
    cases hline
    cases hfolds

theorem isAny_iff {names : List String} {s : Text} : isAny names s = true ↔ ∃ name ∈ names, s = name.toList := by
  simp only [isAny, List.any_eq_true, beq_iff_eq]

theorem head_of_opName (op : Text) : (opName op).head? = op.head? := by
  unfold opName
  split
  · next hcond => rw [List.head?_dropLast, if_pos hcond.1]
  · rfl

/-- A mnemonic of pattern 4 has its first letter in common with one of the list. -/
theorem Folds.head {op : Text} (h : Folds op) : op.head? ≠ some 'm' ∧ op.head? ≠ none := by
  obtain ⟨name, hname, heq⟩ := isAny_iff.mp h
  have hlist : ∀ name ∈ ["cmp", "add", "sub", "and", "or", "xor", "imul"],
      name.toList.head? ≠ some 'm' ∧ name.toList.head? ≠ none := by decide
  rw [← head_of_opName, heq]
  exact hlist name hname

theorem dollar_no_register (s : Text) : physRegId .x86 ('$' :: s) = none := rfl

/-- With a number for its first operand it is done. -/
theorem number_not_reducible {op t : Text} (hfolds : Folds op) (hop : ' ' ∉ op) :
    ¬ Reducible .x86 ("  ".toList ++ (op ++ (" $".toList ++ t))) := by
  rintro (hload | ⟨⟨op', od, os⟩, hparse, -, hreg⟩)
  · obtain ⟨_, hload⟩ := Option.isSome_iff_exists.mp hload
    obtain ⟨p, hmov, -⟩ := Option.bind_eq_some_iff.mp hload
    have hline := expect_some hmov
    cases op with
    | nil => exact hfolds.head.2 rfl
    | cons c op =>
        have hthird : some c = some 'm' := congrArg (fun line => (List.drop 2 line).head?) hline
        exact hfolds.head.1 hthird
  · obtain ⟨p, hline, -, rfl⟩ := peepOpRegReg_some hparse
    obtain rfl := List.append_cancel_left hline
    have hskip : (op ++ (" $".toList ++ t)).dropWhile (· ≠ ' ') = " $".toList ++ t := by
      refine (List.dropWhile_append_of_pos fun c hc => ?_).trans rfl
      exact decide_eq_true fun heq => hop (heq ▸ hc)
    rw [hskip] at hreg
    cases hreg

/-! ## What the patterns do -/

/-- What a rewrite makes of a pair of lines: it does away with a move that has passed something on, or with a reducible line, or empties
one of the two. -/
inductive Rewritten (arch : Arch) (a b : Text) : Text → Text → Prop
  | passed {b' : Text} (hne : b' ≠ []) (hchance : (pattern1 arch a b).isSome = true) (hdone : (pattern1 arch a b').isSome = false)
      (hplain : ¬ Reducible arch b') : Rewritten arch a b a b'
  | reduced {b' : Text} (hne : b' ≠ []) (hred : Reducible arch b) (hdone : ¬ Reducible arch b') : Rewritten arch a b a b'
  | first : Rewritten arch a b [] b
  | second : Rewritten arch a b a []

theorem splitComma_cons {q r : Text} (hq : ',' ∉ q) : splitComma (q ++ ',' :: r) = some (q, r) := by
  have hne : ∀ c ∈ q, decide (c ≠ ',') = true := fun c hc =>
    decide_eq_true (show c ≠ ',' from fun heq => hq (heq ▸ hc))
  have htake : (q ++ ',' :: r).takeWhile (· ≠ ',') = q :=
    (List.takeWhile_append_of_pos hne).trans (List.append_nil q)
  have hdrop : (q ++ ',' :: r).dropWhile (· ≠ ',') = ',' :: r := (List.dropWhile_append_of_pos hne).trans rfl
  rw [splitComma, if_pos (List.mem_append_right q List.mem_cons_self), htake, hdrop]
  rfl

theorem comma_not_mem_takeWhile (p : Text) : ',' ∉ p.takeWhile (· ≠ ',') := by
  intro hmem
  have hne := List.mem_takeWhile_imp hmem
  exact of_decide_eq_true hne rfl

/-- The first operand of a move is the one that is written there. -/
theorem peepMovRegReg_move {d s d' s' : Text} {dstSize srcSize : Nat} (hd : ',' ∉ d)
    (h : peepMovRegReg ("  mov ".toList ++ d ++ ", ".toList ++ s) dstSize srcSize = some (d', s')) : d' = d := by
  rw [peepMovRegReg] at h
  obtain ⟨p, hp, h⟩ := Option.bind_eq_some_iff.mp h
  obtain ⟨⟨q, r⟩, hcomma, h⟩ := Option.bind_eq_some_iff.mp h
  obtain ⟨dst, hdst, h⟩ := Option.bind_eq_some_iff.mp h
  obtain ⟨src, -, h⟩ := Option.bind_eq_some_iff.mp h
  cases h
  have hline := expect_some hp
  rw [List.append_assoc, List.append_assoc] at hline
  obtain rfl := List.append_cancel_left hline
  have hsplit : splitComma (d ++ (", ".toList ++ s)) = some (d, ' ' :: s) := splitComma_cons hd
  cases hsplit.symm.trans hcomma
  exact fitting_some hdst

theorem peepMovRegReg_comma {line d s : Text} {dstSize srcSize : Nat} (h : peepMovRegReg line dstSize srcSize = some (d, s)) :
    ',' ∉ d := by
  rw [peepMovRegReg] at h
  obtain ⟨p, -, h⟩ := Option.bind_eq_some_iff.mp h
  obtain ⟨⟨q, r⟩, hcomma, h⟩ := Option.bind_eq_some_iff.mp h
  obtain ⟨dst, hdst, h⟩ := Option.bind_eq_some_iff.mp h
  obtain ⟨src, -, h⟩ := Option.bind_eq_some_iff.mp h
  cases h
  rw [fitting_some hdst, splitComma_some hcomma]
  exact comma_not_mem_takeWhile p

/-- What pattern 1 asks for, and what it writes. -/
theorem pattern1_some {arch : Arch} {a b a' b' : Text} (h : pattern1 arch a b = some (a', b')) :
    ∃ d1 s1 d2 s2, peepMovRegReg a 80 80 = some (d1, s1) ∧ peepMovRegReg b 80 80 = some (d2, s2) ∧ d2 = s1 ∧ d1 ≠ d2 ∧
      a' = a ∧ b' = "  mov ".toList ++ d1 ++ ", ".toList ++ s2 := by
  rw [pattern1] at h
  obtain ⟨⟨d1, s1⟩, ha, h⟩ := Option.bind_eq_some_iff.mp h
  obtain ⟨⟨d2, s2⟩, hb, h⟩ := Option.bind_eq_some_iff.mp h
  simp only [] at h
  split at h
  · next hcond =>
      cases h
      exact ⟨d1, s1, d2, s2, ha, hb, hcond.1, hcond.2.1, rfl, rfl⟩
  · cases h

theorem pattern1_rewritten {arch : Arch} {a b a' b' : Text} (h : pattern1 arch a b = some (a', b')) :
    Rewritten arch a b a' b' := by
  obtain ⟨d1, s1, d2, s2, ha, hb, rfl, hne, rfl, rfl⟩ := pattern1_some h
  refine .passed (fun hnil => by cases hnil) (Option.isSome_of_eq_some h) ?_ ?_
  · by_contra hsome
    obtain ⟨⟨a'', b''⟩, hagain⟩ := Option.isSome_iff_exists.mp (eq_true_of_ne_false hsome)
    obtain ⟨d1', s1', d2', s2', ha', hb', -, hne', -, -⟩ := pattern1_some hagain
    cases ha.symm.trans ha'
    exact hne' (peepMovRegReg_move (peepMovRegReg_comma ha) hb').symm
  · rw [List.append_assoc, List.append_assoc]
    exact move_not_reducible arch _

theorem storeLoad_rewritten {a b a' b' : Text} (h : storeLoad a b = some (a', b')) : Rewritten .x86 a b a' b' := by
  rw [storeLoad] at h
  obtain ⟨⟨off1, sr⟩, -, h⟩ := Option.bind_eq_some_iff.mp h
  obtain ⟨⟨quad, off2, dr⟩, hb, h⟩ := Option.bind_eq_some_iff.mp h
  simp only [] at h
  split at h
  · cases h
  obtain ⟨sr', -, h⟩ := Option.bind_eq_some_iff.mp h
  cases h
  refine .reduced (fun hnil => by cases hnil) (Or.inl (Option.isSome_of_eq_some hb)) ?_
  rw [List.append_assoc, List.append_assoc]
  exact move_not_reducible .x86 _

theorem storeImmLoad_rewritten {a b a' b' : Text} (h : storeImmLoad a b = some (a', b')) : Rewritten .x86 a b a' b' := by
  rw [storeImmLoad] at h
  obtain ⟨⟨off1, val⟩, -, h⟩ := Option.bind_eq_some_iff.mp h
  obtain ⟨⟨quad, off2, dr⟩, hb, h⟩ := Option.bind_eq_some_iff.mp h
  simp only [] at h
  split at h
  · cases h
    refine .reduced (fun hnil => by cases hnil) (Or.inl (Option.isSome_of_eq_some hb)) ?_
    rw [List.append_assoc]
    exact movl_not_reducible _
  · cases h

theorem armStoreLoad_rewritten {a b a' b' : Text} (h : armStoreLoad a b = some (a', b')) : Rewritten .arm64 a b a' b' := by
  rw [armStoreLoad] at h
  obtain ⟨⟨sr, off1⟩, -, h⟩ := Option.bind_eq_some_iff.mp h
  obtain ⟨⟨dr, off2⟩, hb, h⟩ := Option.bind_eq_some_iff.mp h
  simp only [] at h
  split at h
  · cases h
    refine .reduced (fun hnil => by cases hnil) (Option.isSome_of_eq_some hb) ?_
    rw [List.append_assoc, List.append_assoc]
    exact move_not_reducible .arm64 _
  · cases h

theorem pattern2_rewritten {arch : Arch} {a b a' b' : Text} (h : pattern2 arch a b = some (a', b')) :
    Rewritten arch a b a' b' := by
  cases arch with
  | x86 =>
      rcases Option.or_eq_some_iff.mp h with h | ⟨-, h⟩
      · exact storeLoad_rewritten h
      · exact storeImmLoad_rewritten h
  | arm64 => exact armStoreLoad_rewritten h

theorem pattern3_rewritten {arch : Arch} {a b a' b' : Text} (h : pattern3 arch a b = some (a', b')) :
    Rewritten arch a b a' b' := by
  rw [pattern3] at h
  obtain ⟨target, -, h⟩ := Option.bind_eq_some_iff.mp h
  obtain ⟨label, -, h⟩ := Option.bind_eq_some_iff.mp h
  split at h
  · cases h
    exact .first
  · cases h

theorem space_not_mem_takeWhile (p : Text) : ' ' ∉ p.takeWhile (· ≠ ' ') := by
  intro hmem
  have hne := List.mem_takeWhile_imp hmem
  exact of_decide_eq_true hne rfl

theorem pattern4_rewritten {arch : Arch} {a b a' b' : Text} (h : pattern4 arch a b = some (a', b')) :
    Rewritten arch a b a' b' := by
  cases arch with
  | arm64 => cases h
  | x86 =>
      rw [pattern4] at h
      obtain ⟨⟨imm, rd⟩, -, h⟩ := Option.bind_eq_some_iff.mp h
      simp only [] at h
      split at h
      · cases h
      obtain ⟨⟨check, _⟩, -, h⟩ := Option.bind_eq_some_iff.mp h
      simp only [] at h
      split at h
      · cases h
      obtain ⟨⟨op, od, os⟩, hparse, h⟩ := Option.bind_eq_some_iff.mp h
      simp only [] at h
      split at h
      · cases h
      next hsame =>
      split at h
      · cases h
      next hfolds =>
      split at h
      · cases h
        exact .second
      · cases h
        rw [Bool.not_eq_true, Bool.not_eq_false'] at hfolds
        have hreg : (physRegId .x86 od).isSome = true := by
          rw [samePhys, Bool.not_eq_true, Bool.not_eq_false'] at hsame
          exact (Bool.and_eq_true_iff.mp hsame).1
        obtain ⟨p, -, hop, -⟩ := peepOpRegReg_some hparse
        refine .reduced (fun hnil => by cases hnil) (Or.inr ⟨_, hparse, hfolds, hreg⟩) ?_
        have hspace : ' ' ∉ op := hop ▸ space_not_mem_takeWhile p
        simp only [List.append_assoc]
        exact number_not_reducible hfolds hspace

theorem rewritePair_rewritten {arch : Arch} {a b a' b' : Text} (h : rewritePair arch a b = some (a', b')) :
    Rewritten arch a b a' b' := by
  rcases Option.or_eq_some_iff.mp h with h | ⟨-, h⟩
  · exact pattern1_rewritten h
  rcases Option.or_eq_some_iff.mp h with h | ⟨-, h⟩
  · exact pattern2_rewritten h
  rcases Option.or_eq_some_iff.mp h with h | ⟨-, h⟩
  · exact pattern3_rewritten h
  · exact pattern4_rewritten h

/-! ## The lines that are left -/

/-- A pair that pattern 1 fits counts twice as much as the next one. -/
def chances (arch : Arch) : List Text → Nat
  | [] => 0
  | [_] => 0
  | a :: b :: w => (if (pattern1 arch a b).isSome then 2 ^ w.length else 0) + chances arch (b :: w)

theorem chances_lt (arch : Arch) (a : Text) (w : List Text) : chances arch (a :: w) < 2 ^ w.length := by
  induction w generalizing a with
  | nil => exact Nat.one_pos
  | cons b w ih =>
      have hlt := ih b
      rw [chances, List.length_cons, Nat.pow_succ]
      split <;> omega

/-- How many lines of a window can be reduced. -/
def reducibles (arch : Arch) (w : List Text) : Nat := w.countP fun line => decide (Reducible arch line)

/-- Lines before and after a rewrite, without the empty ones: there are fewer, or fewer that are reducible, or pairs further on have
become possible in place of one. -/
inductive Less (arch : Arch) : List Text → List Text → Prop
  | fewer {w w' : List Text} (hlen : w'.length < w.length) : Less arch w w'
  | reduced {w w' : List Text} (hlen : w'.length = w.length) (hred : reducibles arch w' < reducibles arch w) : Less arch w w'
  | passed {w w' : List Text} (hlen : w'.length = w.length) (hred : reducibles arch w' ≤ reducibles arch w)
      (hhead : w'.head? = w.head?) (hchances : chances arch w' < chances arch w) : Less arch w w'

theorem reducibles_cons (arch : Arch) (a : Text) (w : List Text) :
    reducibles arch (a :: w) = reducibles arch w + if Reducible arch a then 1 else 0 := by
  rw [reducibles, List.countP_cons, reducibles]
  simp only [decide_eq_true_eq]

theorem chances_cons {arch : Arch} {a : Text} {w w' : List Text} (hlen : w'.length = w.length) (hhead : w'.head? = w.head?)
    (h : chances arch w' < chances arch w) : chances arch (a :: w') < chances arch (a :: w) := by
  cases w with
  | nil => exact absurd h (Nat.not_lt_zero _)
  | cons b w =>
      cases w' with
      | nil => cases hhead
      | cons b' w' =>
          cases hhead
          rw [chances, chances, Nat.succ.inj hlen]
          exact Nat.add_lt_add_left h _

theorem Less.cons {arch : Arch} {w w' : List Text} (h : Less arch w w') (a : Text) : Less arch (a :: w) (a :: w') := by
  cases h with
  | fewer hlen => exact .fewer (Nat.succ_lt_succ hlen)
  | reduced hlen hred =>
      refine .reduced (congrArg Nat.succ hlen) ?_
      rw [reducibles_cons, reducibles_cons]
      exact Nat.add_lt_add_right hred _
  | passed hlen hred hhead hchances =>
      refine .passed (congrArg Nat.succ hlen) ?_ rfl (chances_cons hlen hhead hchances)
      rw [reducibles_cons, reducibles_cons]
      exact Nat.add_le_add_right hred _

/-- Not empty. -/
def full (line : Text) : List Text := if line = [] then [] else [line]

theorem full_nil : full [] = [] := if_pos rfl

theorem full_of_ne {line : Text} (h : line ≠ []) : full line = [line] := if_neg h

theorem printed_cons (a : Text) (w : List Text) : printed (a :: w) = full a ++ printed w := by
  rw [printed, List.filter_cons, full, printed]
  split
  · next h => rw [if_neg (of_decide_eq_true h), List.singleton_append]
  · next h =>
      rw [if_pos (by_contra fun hne => h (decide_eq_true hne)), List.nil_append]

theorem printed_append (w w' : List Text) : printed (w ++ w') = printed w ++ printed w' := List.filter_append w w'

/-- A pair that is rewritten, and what is behind it. -/
theorem Rewritten.less {arch : Arch} {a b a' b' : Text} (h : Rewritten arch a b a' b') (ha : a ≠ []) (hb : b ≠ [])
    (w : List Text) : Less arch (a :: b :: w) (full a' ++ (full b' ++ w)) := by
  cases h with
  | passed hne hchance hdone hplain =>
      rw [full_of_ne ha, full_of_ne hne]
      refine .passed rfl ?_ rfl ?_
      · show reducibles arch (a :: b' :: w) ≤ reducibles arch (a :: b :: w)
        rw [reducibles_cons, reducibles_cons, reducibles_cons, reducibles_cons, if_neg hplain]
        omega
      · have hlt := chances_lt arch b' w
        show chances arch (a :: b' :: w) < chances arch (a :: b :: w)
        rw [chances, chances, hdone, if_pos hchance]
        simp only [Bool.false_eq_true, if_false]
        omega
  | reduced hne hred hdone =>
      rw [full_of_ne ha, full_of_ne hne]
      refine .reduced rfl ?_
      show reducibles arch (a :: b' :: w) < reducibles arch (a :: b :: w)
      rw [reducibles_cons, reducibles_cons, reducibles_cons, reducibles_cons, if_neg hdone, if_pos hred]
      omega
  | first =>
      rw [full_nil, full_of_ne hb]
      exact .fewer (Nat.lt_succ_self _)
  | second =>
      rw [full_of_ne ha, full_nil]
      exact .fewer (Nat.lt_succ_self _)

/-! ## The window -/

theorem nextLine_some {w blank after : List Text} {line : Text} (h : nextLine w = some (blank, line, after)) :
    w = blank ++ line :: after ∧ printed blank = [] ∧ line ≠ [] := by
  induction w generalizing blank with
  | nil => cases h
  | cons a w ih =>
      cases a with
      | cons c a =>
          cases h
          exact ⟨rfl, rfl, List.cons_ne_nil c a⟩
      | nil =>
          rw [nextLine] at h
          obtain ⟨⟨blank', line', after'⟩, hnext, h⟩ := Option.map_eq_some_iff.mp h
          cases h
          obtain ⟨rfl, hblank, hline⟩ := ih hnext
          exact ⟨rfl, (printed_cons _ _).trans hblank, hline⟩

theorem pattern5_empties {arch : Arch} {rest a b c a' b' c' : Text} (h : pattern5 arch rest a b c = some (a', b', c')) :
    c' = [] := by
  cases arch with
  | x86 =>
      rw [pattern5, loadOpMove] at h
      obtain ⟨⟨r1, mem1⟩, -, h⟩ := Option.bind_eq_some_iff.mp h
      obtain ⟨⟨op2, r2, imm2⟩, -, h⟩ := Option.bind_eq_some_iff.mp h
      obtain ⟨⟨d3, r3⟩, -, h⟩ := Option.bind_eq_some_iff.mp h
      simp only [] at h
      split at h
      · cases h
      split at h
      · cases h
      · cases h
        rfl
  | arm64 =>
      rw [pattern5, armLoadOpMove] at h
      obtain ⟨p, -, h⟩ := Option.bind_eq_some_iff.mp h
      simp only [] at h
      split at h
      · cases h
      obtain ⟨p', -, h⟩ := Option.bind_eq_some_iff.mp h
      split at h
      · cases h
      obtain ⟨⟨op2, r2, imm2⟩, -, h⟩ := Option.bind_eq_some_iff.mp h
      obtain ⟨⟨d3, r3⟩, -, h⟩ := Option.bind_eq_some_iff.mp h
      simp only [] at h
      split at h
      · cases h
      split at h
      · cases h
      obtain ⟨_, -, h⟩ := Option.bind_eq_some_iff.mp h
      split at h
      · cases h
      obtain ⟨_, -, h⟩ := Option.bind_eq_some_iff.mp h
      cases h
      rfl

theorem length_full_le (line : Text) : (full line).length ≤ 1 := by
  rw [full]
  split
  · exact Nat.zero_le 1
  · exact le_refl 1

theorem rewriteAt_less {arch : Arch} {rest a : Text} {w w' : List Text} (ha : a ≠ []) (h : rewriteAt arch rest a w = some w') :
    w'.length = (a :: w).length ∧ Less arch (printed (a :: w)) (printed w') := by
  rw [rewriteAt] at h
  split at h
  · cases h
  next blank b after hnext =>
  obtain ⟨rfl, hblank, hb⟩ := nextLine_some hnext
  split at h
  · next a' b' hpair =>
      cases h
      refine ⟨by simp only [List.cons_append, List.length_cons, List.length_append], ?_⟩
      simp only [List.cons_append, printed_cons, printed_append, hblank, List.nil_append]
      rw [full_of_ne ha, full_of_ne hb]
      exact (rewritePair_rewritten hpair).less ha hb (printed after)
  split at h
  · cases h
  next blank' c after' hnext' =>
  obtain ⟨rfl, hblank', hc⟩ := nextLine_some hnext'
  obtain ⟨⟨a', b', c'⟩, hpattern, h⟩ := Option.map_eq_some_iff.mp h
  cases h
  obtain rfl := pattern5_empties hpattern
  refine ⟨by simp only [List.cons_append, List.length_cons, List.length_append]; omega, .fewer ?_⟩
  have hleft := length_full_le a'
  have hleft' := length_full_le b'
  simp only [List.cons_append, printed_cons, printed_append, hblank, hblank', List.nil_append, List.length_append]
  rw [full_nil, full_of_ne ha, full_of_ne hb, full_of_ne hc]
  simp only [List.length_cons, List.length_nil]
  omega

/-- **One rewrite.** It leaves the lines in a window as many, and makes less of them. -/
theorem rewrite_less {arch : Arch} {rest : Text} {w w' : List Text} (h : rewrite arch rest w = some w') :
    w'.length = w.length ∧ Less arch (printed w) (printed w') := by
  induction w generalizing w' with
  | nil => cases h
  | cons a w ih =>
      rw [rewrite] at h
      split at h
      · next hat =>
          cases h
          split at hat
          · cases hat
          · next ha => exact rewriteAt_less ha hat
      · obtain ⟨w'', hrest, h⟩ := Option.map_eq_some_iff.mp h
        cases h
        obtain ⟨hlen, hless⟩ := ih hrest
        refine ⟨congrArg Nat.succ hlen, ?_⟩
        rw [printed_cons, printed_cons, full]
        split
        · exact hless
        · exact hless.cons a

theorem Less.length_le {arch : Arch} {w w' : List Text} (h : Less arch w w') : w'.length ≤ w.length := by
  cases h with
  | fewer hlen => exact hlen.le
  | reduced hlen _ => exact hlen.le
  | passed hlen _ _ _ => exact hlen.le

/-! ## The loop -/

/-- How many rewrites there can be. -/
def cost (arch : Arch) (w : List Text) : Nat := 16 * w.length + 4 * reducibles arch w + chances arch w

theorem reducibles_le (arch : Arch) (w : List Text) : reducibles arch w ≤ w.length := List.countP_le_length

theorem chances_le (arch : Arch) {w : List Text} (h : w.length ≤ 3) : chances arch w ≤ 3 := by
  cases w with
  | nil => exact Nat.zero_le 3
  | cons a w =>
      have hlt := chances_lt arch a w
      have hpow : 2 ^ w.length ≤ 2 ^ 2 := Nat.pow_le_pow_right (by decide) (Nat.le_of_succ_le_succ h)
      omega

theorem Less.cost_lt {arch : Arch} {w w' : List Text} (h : Less arch w w') (hlen : w.length ≤ 3) :
    cost arch w' < cost arch w := by
  have hle := h.length_le
  have hred := reducibles_le arch w'
  have hchances := chances_le arch (hle.trans hlen)
  rw [cost, cost]
  cases h with
  | fewer hlt => omega
  | reduced heq hlt => omega
  | passed heq hle' _ hlt => omega

/-- The loop ends within as many rewrites. -/
theorem settle_ends (arch : Arch) (rest : Text) {n : Nat} {w : List Text} (hlen : w.length ≤ 3) (hn : cost arch (printed w) < n) :
    ∃ w', settle arch rest n w = some w' ∧ w'.length = w.length ∧ (printed w').length ≤ (printed w).length := by
  induction n generalizing w with
  | zero => exact absurd hn (Nat.not_lt_zero _)
  | succ n ih =>
      rw [settle]
      cases hrewrite : rewrite arch rest w with
      | none => exact ⟨w, rfl, rfl, le_refl _⟩
      | some w₁ =>
          obtain ⟨hlen₁, hless⟩ := rewrite_less hrewrite
          have hprinted : (printed w).length ≤ 3 := (List.length_filter_le _ w).trans hlen
          have hlt := hless.cost_lt hprinted
          obtain ⟨w₂, hsettle, hlen₂, hle⟩ := ih (hlen₁.trans_le hlen) (by omega)
          exact ⟨w₂, hsettle, hlen₂.trans hlen₁, hle.trans hless.length_le⟩

theorem cost_lt (arch : Arch) {w : List Text} (h : w.length ≤ 3) : cost arch (printed w) < 64 := by
  have hprinted : (printed w).length ≤ 3 := (List.length_filter_le _ w).trans h
  have hred := reducibles_le arch (printed w)
  have hchances := chances_le arch hprinted
  rw [cost]
  omega

theorem emitLines_ends (arch : Arch) {w : List Text} (lines : List (Text × Text)) (hlen : w.length ≤ 3) :
    ∃ out, emitLines arch 64 w lines = some out ∧
      out.length ≤ (printed w).length + (printed (lines.map (·.1))).length := by
  induction lines generalizing w with
  | nil => exact ⟨printed w, rfl, Nat.le_add_right _ _⟩
  | cons head lines ih =>
      obtain ⟨line, rest⟩ := head
      have hwindow : ((if w.length = 3 then w.tail else w) ++ [line]).length ≤ 3 := by
        rw [List.length_append, List.length_singleton]
        split
        · rw [List.length_tail]
          omega
        · omega
      obtain ⟨w', hsettle, hlen', hle⟩ := settle_ends arch rest hwindow (cost_lt arch hwindow)
      obtain ⟨out, hout, hle'⟩ := ih (hlen'.trans_le hwindow)
      refine ⟨(if w.length = 3 then printed (w.take 1) else []) ++ out, ?_, ?_⟩
      · simp only [emitLines, hsettle, hout, Option.bind_eq_bind, Option.bind_some, Option.pure_def]
      · have hsplit : printed w = printed (w.take 1) ++ printed w.tail := by
          rw [← printed_append, ← List.drop_one, List.take_append_drop]
        rw [List.map_cons, printed_cons, List.length_append, List.length_append]
        rw [printed_append, List.length_append, printed_cons, List.length_append] at hle
        split at hle <;> rename_i hfull
        · rw [if_pos hfull, hsplit, List.length_append]
          simp only [printed, List.filter_nil, List.length_nil] at hle hle' ⊢
          omega
        · rw [if_neg hfull]
          simp only [printed, List.filter_nil, List.length_nil] at hle hle' ⊢
          omega

/-- **The peephole optimizer ends.** For each line it reads, less than 64 rewrites are possible, and none of them makes more lines out
of those in the window. So it prints no more lines than there are in the text that are not empty. -/
theorem peephole_ends (arch : Arch) :
    (∀ rest w, w.length ≤ 3 → (∃ w', settle arch rest 64 w = some w') ∧
      ∀ w', rewrite arch rest w = some w' → (printed w').length ≤ (printed w).length) ∧
    ∀ bodyText, ∃ out, emitPeepholeBody arch 64 bodyText = some out ∧
      out.length ≤ (printed ((bodyLines bodyText).map (·.1))).length := by
  refine ⟨fun rest w hlen => ⟨?_, fun w' h => (rewrite_less h).2.length_le⟩, fun bodyText => ?_⟩
  · obtain ⟨w', hsettle, -⟩ := settle_ends arch rest hlen (cost_lt arch hlen)
    exact ⟨w', hsettle⟩
  · obtain ⟨out, hout, hle⟩ := @emitLines_ends arch [] (bodyLines bodyText) (Nat.zero_le 3)
    exact ⟨out, hout, hle.trans_eq (Nat.zero_add _)⟩

end Rcc.Peephole

import Rcc.Operands
import Rcc.OneLine
import Rcc.PreprocessLoops

/-!
# Named and anonymous variadic macros

`#define M(p, args...)` and `#define M(p, ...)` have their variable arguments in slots of
their own: that of `args` is a parameter and is padded, so there always is an argument for
it, and that behind the parameters may be empty. `__VA_ARGS__` is looked for behind `##`,
and is no parameter to `#`; the name is one, and nothing else.

So a body with `__VA_ARGS__` for the name is cut into the same items, but where the name
stands behind `##`, and these are replaced alike, but where it stands behind `#`. Where
it stands behind neither, the two macros are the same in any table.
-/

namespace Rcc.Preprocess

open Lexer (Text isspace isdigit headIs startswith)
open Macros (Definition)

/-! ## The two macros -/

/-- The loop that puts `__VA_ARGS__` for a name, outside literals. -/
def anonymizeLoop (name : Text) : Nat → Text → Text
  | 0, _ => []
  | _ + 1, [] => []
  | n + 1, c :: p =>
      if isQuote c then c :: (literal c p).1 ++ anonymizeLoop name n (literal c p).2
      else if isIdent1 c then
        (if c :: p.takeWhile isIdent2 = name then vaArgs.toList else c :: p.takeWhile isIdent2) ++
          anonymizeLoop name n (p.dropWhile isIdent2)
      else c :: anonymizeLoop name n p

def anonymize (name p : Text) : Text := anonymizeLoop name p.length p

/-- `#define M(p1, ..., pk, args...) body` -/
def named (params : List String) (args : String) (body : Text) : Definition :=
  ⟨true, true, true, params ++ [args], String.ofList body⟩

/-- `#define M(p1, ..., pk, ...) body`, with `__VA_ARGS__` for `args` in the body -/
def anonymous (params : List String) (args : String) (body : Text) : Definition :=
  ⟨true, true, false, params, String.ofList (anonymize args.toList body)⟩

def Item.anonymize (name : Text) : Item → Item
  | .name a => .name (if a = name then vaArgs.toList else a)
  | .stringize a => .stringize (if a = name then vaArgs.toList else a)
  | item => item

/-- An identifier. -/
structure Ident (w : Text) : Prop where
  head : headIs isIdent1 w = true
  all : ∀ c ∈ w, isIdent2 c = true

/-- The variable arguments are no operand of `#`, and stand behind no `##`. -/
structure NoOperand (name : Text) (its : List Item) : Prop where
  stringize : Item.stringize name ∉ its
  paste : its.IsChain fun a b => a = .paste → b ≠ .name name
  pasteVa : Item.pasteVa ∉ its

/-! ## The text -/

section Anonymize

variable {name p : Text} {c : Char}

theorem anonymizeLoop_nil (n : Nat) : anonymizeLoop name n [] = [] := by
  cases n with
  | zero => rfl
  | succ n => rfl

theorem anonymizeLoop_congr {n m : Nat} (hn : p.length ≤ n) (hm : p.length ≤ m) :
    anonymizeLoop name n p = anonymizeLoop name m p := by
  induction n generalizing p m with
  | zero => rw [List.eq_nil_of_length_eq_zero (Nat.le_zero.mp hn), anonymizeLoop_nil, anonymizeLoop_nil]
  | succ n ih =>
      cases p with
      | nil => rw [anonymizeLoop_nil, anonymizeLoop_nil]
      | cons c p =>
          obtain ⟨m, rfl⟩ := Nat.exists_eq_add_one_of_ne_zero (Nat.ne_zero_of_lt hm)
          have hliteral := literal_le c p
          have hdrop := (List.dropWhile_suffix isIdent2 (l := p)).length_le
          rw [List.length_cons] at hn hm
          rw [anonymizeLoop, anonymizeLoop, @ih (literal c p).2 m (by omega) (by omega), @ih (p.dropWhile isIdent2) m (by omega) (by omega),
            @ih p m (by omega) (by omega)]

theorem anonymize_nil : anonymize name [] = [] := rfl

theorem anonymize_quote (hc : isQuote c = true) :
    anonymize name (c :: p) = c :: (literal c p).1 ++ anonymize name (literal c p).2 := by
  rw [anonymize, List.length_cons, anonymizeLoop, if_pos hc, anonymize, anonymizeLoop_congr (literal_le c p) (Nat.le_refl _)]

theorem anonymize_ident (hc : isIdent1 c = true) :
    anonymize name (c :: p) = (if c :: p.takeWhile isIdent2 = name then vaArgs.toList else c :: p.takeWhile isIdent2) ++
      anonymize name (p.dropWhile isIdent2) := by
  rw [anonymize, List.length_cons, anonymizeLoop, if_neg (isQuote_of_isIdent1 hc), if_pos hc, anonymize,
    anonymizeLoop_congr (List.dropWhile_suffix isIdent2).length_le (Nat.le_refl _)]

theorem anonymize_char (hquote : ¬ isQuote c = true) (hc : ¬ isIdent1 c = true) : anonymize name (c :: p) = c :: anonymize name p := by
  rw [anonymize, List.length_cons, anonymizeLoop, if_neg hquote, if_neg hc]
  rfl

/-- The first character is the same one, or both begin a name. -/
theorem headIs_anonymize {f : Char → Bool} (hf : ∀ c d, isIdent1 c = true → isIdent1 d = true → f c = f d) (p : Text) :
    headIs f (anonymize name p) = headIs f p := by
  cases p with
  | nil => rfl
  | cons c p =>
      by_cases hc : isIdent1 c = true
      · rw [anonymize_ident hc]
        split
        · exact hf '_' c (by decide) hc
        · rfl
      by_cases hquote : isQuote c = true
      · rw [anonymize_quote hquote]
        rfl
      · rw [anonymize_char hquote hc]
        rfl

theorem dropWhile_anonymize (p : Text) : (anonymize name p).dropWhile isspace = anonymize name (p.dropWhile isspace) := by
  induction p with
  | nil => rfl
  | cons c p ih =>
      by_cases hspace : isspace c = true
      · rw [anonymize_char (fun h => isspace_of_isQuote h hspace) (fun h => isspace_of_isIdent1 h hspace), List.dropWhile_cons_of_pos hspace,
          List.dropWhile_cons_of_pos hspace, ih]
      · have hhead : headIs isspace (anonymize name (c :: p)) = false := by
          rw [headIs_anonymize fun c d hc hd => (Bool.eq_false_iff.mpr (isspace_of_isIdent1 hc)).trans
            (Bool.eq_false_iff.mpr (isspace_of_isIdent1 hd)).symm]
          exact Bool.eq_false_iff.mpr hspace
        rw [List.dropWhile_cons_of_neg hspace]
        cases hw : anonymize name (c :: p) with
        | nil => rfl
        | cons d q =>
            rw [hw] at hhead
            exact List.dropWhile_cons_of_neg (ne_true_of_eq_false hhead)

theorem literal_fst_cons (q d : Char) (p : Text) : ∃ t, (literal q (d :: p)).1 = d :: t := by
  cases p with
  | nil => exact ⟨[], rfl⟩
  | cons e p =>
      rw [literal]
      split
      · exact ⟨[], rfl⟩
      split
      · exact ⟨_, rfl⟩
      · exact ⟨_, rfl⟩

/-- A literal is left as it is, and ends where it did. -/
theorem literal_literal {q : Char} {p r : Text} (h : (literal q p).2 = [] → r = []) :
    literal q ((literal q p).1 ++ r) = ((literal q p).1, r) := by
  fun_induction literal q p with
  | case1 =>
      rw [h rfl]
      rfl
  | case2 c =>
      rw [h rfl]
      rfl
  | case3 d p =>
      cases r with
      | nil => rfl
      | cons e r =>
          show literal q (q :: e :: r) = _
          rw [literal, if_pos rfl]
  | case4 d p hq ih =>
      show literal q ('\\' :: d :: ((literal q p).1 ++ r)) = _
      rw [literal, if_neg hq, if_pos rfl, ih h]
  | case5 c d p hq hc ih =>
      obtain ⟨t, ht⟩ := literal_fst_cons q d p
      have hih := ih h
      rw [ht] at hih ⊢
      show literal q (c :: d :: (t ++ r)) = _
      rw [literal, if_neg hq, if_neg hc]
      exact congrArg (fun l => (c :: l.1, l.2)) hih

theorem headIs_hash_anonymize (p : Text) : headIs (· = '#') (anonymize name p) = headIs (· = '#') p := by
  have hne : ∀ c, isIdent1 c = true → decide (c = '#') = false := fun c hc => decide_eq_false fun h => absurd (h ▸ hc) (by decide)
  exact headIs_anonymize (fun c d hc hd => (hne c hc).trans (hne d hd).symm) p

theorem headIs_isIdent1_anonymize (p : Text) : headIs isIdent1 (anonymize name p) = headIs isIdent1 p :=
  headIs_anonymize (fun _ _ hc hd => hc.trans hd.symm) p

theorem takeWhile_append_isIdent2 {w r : Text} (hw : ∀ c ∈ w, isIdent2 c = true) (hr : headIs isIdent2 r = false) :
    (w ++ r).takeWhile isIdent2 = w ∧ (w ++ r).dropWhile isIdent2 = r := by
  rw [List.takeWhile_append_of_pos hw, List.dropWhile_append_of_pos hw]
  cases r with
  | nil => exact ⟨List.append_nil w, rfl⟩
  | cons c r =>
      have hc : ¬ isIdent2 c = true := ne_true_of_eq_false hr
      rw [List.takeWhile_cons_of_neg hc, List.dropWhile_cons_of_neg hc]
      exact ⟨List.append_nil w, rfl⟩

/-- A name at the beginning. -/
theorem ident_anonymize (hp : headIs isIdent1 p = true) :
    (anonymize name p).takeWhile isIdent2 = (if p.takeWhile isIdent2 = name then vaArgs.toList else p.takeWhile isIdent2) ∧
      (anonymize name p).dropWhile isIdent2 = anonymize name (p.dropWhile isIdent2) := by
  cases p with
  | nil => exact absurd hp nofun
  | cons c p =>
      have hc : isIdent2 c = true := isIdent2_of_isIdent1 hp
      rw [anonymize_ident hp, List.takeWhile_cons_of_pos hc, List.dropWhile_cons_of_pos hc]
      refine takeWhile_append_isIdent2 ?_ ?_
      · split
        · decide
        · exact List.forall_mem_cons.mpr ⟨hc, fun _ h => List.mem_takeWhile_imp h⟩
      · rw [headIs_anonymize fun c d hc hd => (isIdent2_of_isIdent1 hc).trans (isIdent2_of_isIdent1 hd).symm]
        exact headIs_dropWhile isIdent2 p

/-- Behind `##`: `__VA_ARGS__` and no more. -/
theorem vaArgs_iff (p : Text) : (startswith p vaArgs && ! headIs isIdent2 (p.drop 11)) = true ↔ p.takeWhile isIdent2 = vaArgs.toList := by
  rw [Bool.and_eq_true_iff, Bool.not_eq_true']
  constructor
  · rintro ⟨hstart, hhead⟩
    obtain ⟨r, rfl⟩ := List.isPrefixOf_iff_prefix.mp hstart
    exact (takeWhile_append_isIdent2 (by decide) hhead).1
  · intro htake
    have hp := List.takeWhile_append_dropWhile (p := isIdent2) (l := p)
    rw [htake] at hp
    refine ⟨List.isPrefixOf_iff_prefix.mpr ⟨_, hp⟩, ?_⟩
    rw [← hp]
    exact headIs_dropWhile isIdent2 p

/-- `__VA_ARGS__` is behind `##` where it was. -/
theorem vaArgs_anonymize (h : p.takeWhile isIdent2 ≠ name) :
    (startswith (anonymize name p) vaArgs && ! headIs isIdent2 ((anonymize name p).drop 11)) =
      (startswith p vaArgs && ! headIs isIdent2 (p.drop 11)) := by
  rw [Bool.eq_iff_iff, vaArgs_iff, vaArgs_iff]
  by_cases hp : headIs isIdent1 p = true
  · rw [(ident_anonymize hp).1, if_neg h]
  · have hne : ∀ q : Text, ¬ headIs isIdent1 q = true → q.takeWhile isIdent2 ≠ vaArgs.toList := by
      intro q hq htake
      rw [← List.takeWhile_append_dropWhile (p := isIdent2) (l := q), htake] at hq
      exact hq rfl
    exact iff_of_false (hne _ (by rw [headIs_isIdent1_anonymize]; exact hp)) (hne _ hp)

/-- What the loop comes upon. -/
inductive Reads (v : Bool) : Char → Text → Item × Text → Prop where
  | literal {c : Char} {p : Text} (hquote : isQuote c = true) : Reads v c p (.literal (c :: (literal c p).1), (literal c p).2)
  | pasteVa {q : Text} (hva : (v && startswith (q.dropWhile isspace) vaArgs && ! headIs isIdent2 ((q.dropWhile isspace).drop 11)) = true) :
      Reads v '#' ('#' :: q) (.pasteVa, (q.dropWhile isspace).drop 11)
  | paste {q : Text} (hva : ¬ (v && startswith (q.dropWhile isspace) vaArgs && ! headIs isIdent2 ((q.dropWhile isspace).drop 11)) = true) :
      Reads v '#' ('#' :: q) (.paste, q.dropWhile isspace)
  | stringize {p : Text} (hp : headIs (· = '#') p = false) (hhead : headIs isIdent1 (p.dropWhile isspace) = true) :
      Reads v '#' p (.stringize ((p.dropWhile isspace).takeWhile isIdent2), (p.dropWhile isspace).dropWhile isIdent2)
  | hash {p : Text} (hp : headIs (· = '#') p = false) (hhead : ¬ headIs isIdent1 (p.dropWhile isspace) = true) :
      Reads v '#' p (.hash, p.dropWhile isspace)
  | name {c : Char} {p : Text} (hc : isIdent1 c = true) : Reads v c p (.name ((c :: p).takeWhile isIdent2), (c :: p).dropWhile isIdent2)
  | char {c : Char} {p : Text} (hquote : ¬ isQuote c = true) (hhash : c ≠ '#') (hc : ¬ isIdent1 c = true) : Reads v c p (.char c, p)

section Item

variable (v : Bool)

theorem item_of_isIdent1 (hc : isIdent1 c = true) (p : Text) :
    item v c p = (.name ((c :: p).takeWhile isIdent2), (c :: p).dropWhile isIdent2) := by
  have hhash : ¬ c = '#' := fun h => absurd (h ▸ hc) (by decide)
  rw [item, if_neg (isQuote_of_isIdent1 hc), if_neg fun h => hhash (of_decide_eq_true (Bool.and_eq_true_iff.mp h).1), if_neg hhash,
    if_pos hc, List.takeWhile_cons_of_pos (isIdent2_of_isIdent1 hc), List.dropWhile_cons_of_pos (isIdent2_of_isIdent1 hc)]

theorem item_of_isQuote (hc : isQuote c = true) (p : Text) : item v c p = (.literal (c :: (literal c p).1), (literal c p).2) := by
  rw [item, if_pos hc]

theorem item_paste (p : Text) : item v '#' ('#' :: p) =
    if v && startswith (p.dropWhile isspace) vaArgs && ! headIs isIdent2 ((p.dropWhile isspace).drop 11) then
      (.pasteVa, (p.dropWhile isspace).drop 11)
    else (.paste, p.dropWhile isspace) := rfl

theorem item_hash (hp : headIs (· = '#') p = false) : item v '#' p =
    if headIs isIdent1 (p.dropWhile isspace) then
      (.stringize ((p.dropWhile isspace).takeWhile isIdent2), (p.dropWhile isspace).dropWhile isIdent2)
    else (.hash, p.dropWhile isspace) := by
  rw [item, if_neg (by decide), hp, Bool.and_false, if_neg Bool.false_ne_true, if_pos rfl]

theorem item_char (hquote : ¬ isQuote c = true) (hhash : c ≠ '#') (hc : ¬ isIdent1 c = true) (p : Text) : item v c p = (.char c, p) := by
  rw [item, if_neg hquote, if_neg fun h => hhash (of_decide_eq_true (Bool.and_eq_true_iff.mp h).1), if_neg hhash, if_neg hc]

theorem item_reads (c : Char) (p : Text) : Reads v c p (item v c p) := by
  by_cases hc : isIdent1 c = true
  · rw [item_of_isIdent1 v hc]
    exact .name hc
  by_cases hquote : isQuote c = true
  · rw [item_of_isQuote v hquote]
    exact .literal hquote
  by_cases hhash : c = '#'
  · subst hhash
    cases hp : headIs (· = '#') p with
    | true =>
        cases p with
        | nil => exact absurd hp nofun
        | cons d q =>
            obtain rfl := of_decide_eq_true (show decide (d = '#') = true from hp)
            rw [item_paste]
            split
            · next hva => exact .pasteVa hva
            · next hva => exact .paste hva
    | false =>
        rw [item_hash v hp]
        split
        · next hhead => exact .stringize hp hhead
        · next hhead => exact .hash hp hhead
  · rw [item_char v hquote hhash hc]
    exact .char hquote hhash hc

end Item

/-- The item, and what is behind it. -/
theorem item_anonymize (hva : (item true c p).1 ≠ .pasteVa)
    (hpaste : (item true c p).1 = .paste → ((item true c p).2).takeWhile isIdent2 ≠ name) :
    ∃ d q, anonymize name (c :: p) = d :: q ∧
      item true d q = ((item true c p).1.anonymize name, anonymize name (item true c p).2) := by
  have hread := item_reads true c p
  revert hva hpaste
  generalize item true c p = r at hread
  intro hva hpaste
  cases hread with
  | name hc =>
      obtain ⟨htake, hdrop⟩ := @ident_anonymize name (c :: p) hc
      have hhead := (@headIs_isIdent1_anonymize name (c :: p)).trans hc
      cases hw : anonymize name (c :: p) with
      | nil =>
          rw [hw] at hhead
          exact absurd hhead nofun
      | cons d q =>
          rw [hw] at hhead htake hdrop
          refine ⟨d, q, rfl, ?_⟩
          rw [item_of_isIdent1 true hhead, htake, hdrop]
          rfl
  | literal hquote =>
      refine ⟨c, _, anonymize_quote hquote, ?_⟩
      have hend : (literal c p).2 = [] → anonymize name (literal c p).2 = [] := fun h => congrArg (anonymize name) h
      rw [item_of_isQuote true hquote]
      exact congrArg (fun l => (Item.literal (c :: l.1), l.2)) (literal_literal hend)
  | pasteVa h => exact absurd rfl hva
  | @paste q hnot =>
      refine ⟨_, _, anonymize_char (by decide) (by decide), ?_⟩
      have hbehind : (q.dropWhile isspace).takeWhile isIdent2 ≠ name := hpaste rfl
      rw [Bool.true_and] at hnot
      rw [anonymize_char (by decide) (by decide), item_paste, dropWhile_anonymize, Bool.true_and, vaArgs_anonymize hbehind, if_neg hnot]
      rfl
  | stringize hp hhead =>
      refine ⟨_, _, anonymize_char (by decide) (by decide), ?_⟩
      rw [item_hash true ((headIs_hash_anonymize p).trans hp), dropWhile_anonymize, headIs_isIdent1_anonymize, if_pos hhead,
        (ident_anonymize hhead).1, (ident_anonymize hhead).2]
      rfl
  | hash hp hhead =>
      refine ⟨_, _, anonymize_char (by decide) (by decide), ?_⟩
      rw [item_hash true ((headIs_hash_anonymize p).trans hp), dropWhile_anonymize, headIs_isIdent1_anonymize, if_neg hhead]
      rfl
  | char hquote hhash hc =>
      refine ⟨c, _, anonymize_char hquote hc, ?_⟩
      rw [item_char true hquote hhash hc]
      rfl

theorem item_eq_paste (h : (item true c p).1 = .paste) :
    ∃ q, c = '#' ∧ p = '#' :: q ∧ item true c p = (.paste, q.dropWhile isspace) := by
  have hread := item_reads true c p
  revert h
  generalize item true c p = r at hread
  intro h
  cases hread with
  | @paste q hnot => exact ⟨q, rfl, rfl, rfl⟩
  | literal | pasteVa | stringize | hash | name | char => exact absurd h nofun

/-- The items of a body, and those with `__VA_ARGS__` for the name. -/
inductive Twins (name : Text) : List Item → List Item → Prop where
  | nil : Twins name [] []
  | behind {its its' : List Item} (h : Twins name its its') : Twins name (.paste :: .name name :: its) (.pasteVa :: its')
  | item {it : Item} {its its' : List Item} (hva : it ≠ .pasteVa) (hnext : it = .paste → its.head? ≠ some (.name name))
      (h : Twins name its its') : Twins name (it :: its) (it.anonymize name :: its')

/-- The name at the beginning of a text. -/
theorem itemsLoop_name (hname : headIs isIdent1 name = true) {q : Text} (htake : q.takeWhile isIdent2 = name) {n : Nat} (hn : q.length ≤ n) :
    headIs isIdent1 q = true ∧ itemsLoop true n q = .name name :: itemsLoop true n (q.dropWhile isIdent2) := by
  cases q with
  | nil =>
      rw [← htake] at hname
      exact absurd hname nofun
  | cons d q =>
      have hd : isIdent1 d = true := by
        rw [← htake, List.takeWhile_cons] at hname
        split at hname
        · exact hname
        · exact absurd hname nofun
      obtain ⟨n, rfl⟩ := Nat.exists_eq_add_one_of_ne_zero (Nat.ne_zero_of_lt hn)
      refine ⟨hd, ?_⟩
      rw [itemsLoop, item_of_isIdent1 true hd, htake]
      have hlt : ((d :: q).dropWhile isIdent2).length ≤ n := by
        rw [List.dropWhile_cons_of_pos (isIdent2_of_isIdent1 hd)]
        exact Nat.le_trans (List.dropWhile_suffix _).length_le (Nat.le_of_succ_le_succ hn)
      rw [itemsLoop_congr hlt (Nat.le_succ_of_le hlt)]

theorem takeWhile_of_head? {n : Nat} {q : Text} (h : (itemsLoop true n q).head? = some (.name name)) : q.takeWhile isIdent2 = name := by
  cases n with
  | zero => exact absurd h nofun
  | succ n =>
      cases q with
      | nil => exact absurd h nofun
      | cons d q =>
          have hitem : (item true d q).1 = .name name := Option.some_inj.mp h
          have hread := item_reads true d q
          revert hitem
          generalize item true d q = r at hread
          intro hitem
          cases hread with
          | name hd => exact Item.name.inj hitem
          | literal | pasteVa | paste | stringize | hash | char => exact absurd hitem nofun

/-- Where the name is behind `##`, there is `## __VA_ARGS__`. -/
theorem item_behind (hname : headIs isIdent1 name = true) {q : Text} (htake : (q.dropWhile isspace).takeWhile isIdent2 = name)
    (hhead : headIs isIdent1 (q.dropWhile isspace) = true) :
    item true '#' ('#' :: anonymize name q) = (.pasteVa, anonymize name ((q.dropWhile isspace).dropWhile isIdent2)) := by
  obtain ⟨hword, hrest⟩ := @ident_anonymize name (q.dropWhile isspace) hhead
  rw [if_pos htake] at hword
  have hva := (vaArgs_iff (anonymize name (q.dropWhile isspace))).mpr hword
  have hdrop : (anonymize name (q.dropWhile isspace)).drop 11 = (anonymize name (q.dropWhile isspace)).dropWhile isIdent2 := by
    have happend := List.takeWhile_append_dropWhile (p := isIdent2) (l := anonymize name (q.dropWhile isspace))
    rw [hword] at happend
    conv_lhs => rw [← happend]
    rfl
  rw [item_paste, dropWhile_anonymize, Bool.true_and, if_pos hva, hdrop, hrest]

theorem twins_itemsLoop (hname : headIs isIdent1 name = true) {n m : Nat} (hn : p.length ≤ n) (hm : (anonymize name p).length ≤ m)
    (hva : Item.pasteVa ∉ itemsLoop true n p) : Twins name (itemsLoop true n p) (itemsLoop true m (anonymize name p)) := by
  induction n generalizing p m with
  | zero =>
      rw [List.eq_nil_of_length_eq_zero (Nat.le_zero.mp hn), anonymize_nil, itemsLoop_nil, itemsLoop_nil]
      exact .nil
  | succ n ih =>
      cases p with
      | nil =>
          rw [anonymize_nil, itemsLoop_nil, itemsLoop_nil]
          exact .nil
      | cons c p =>
          rw [itemsLoop] at hva ⊢
          obtain ⟨hne, hrest⟩ := not_or.mp fun h => hva (List.mem_cons.mpr h)
          have hle := item_le true c p
          rw [List.length_cons] at hn
          by_cases hbehind : (item true c p).1 = .paste ∧ ((item true c p).2).takeWhile isIdent2 = name
          · obtain ⟨hpaste, htake⟩ := hbehind
            obtain ⟨q, rfl, rfl, heq⟩ := item_eq_paste hpaste
            rw [heq] at htake hrest hle ⊢
            have hq : (q.dropWhile isspace).length ≤ n := Nat.le_trans hle (Nat.le_of_succ_le_succ hn)
            obtain ⟨hhead, hitems⟩ := itemsLoop_name hname htake hq
            have hanonymize : anonymize name ('#' :: '#' :: q) = '#' :: '#' :: anonymize name q := by
              rw [anonymize_char (by decide) (by decide), anonymize_char (by decide) (by decide)]
            rw [hanonymize] at hm ⊢
            obtain ⟨m, rfl⟩ := Nat.exists_eq_add_one_of_ne_zero (Nat.ne_zero_of_lt hm)
            have hle' := item_le true '#' ('#' :: anonymize name q)
            rw [item_behind hname htake hhead] at hle'
            show Twins name (.paste :: itemsLoop true n (q.dropWhile isspace)) _
            rw [itemsLoop, item_behind hname htake hhead]
            show Twins name (.paste :: itemsLoop true n (q.dropWhile isspace)) _
            have hrest : Item.pasteVa ∉ itemsLoop true n (q.dropWhile isspace) := hrest
            rw [hitems] at hrest ⊢
            refine .behind (ih ?_ (Nat.le_trans hle' (Nat.le_of_succ_le_succ hm)) fun h => hrest (List.mem_cons_of_mem _ h))
            exact Nat.le_trans (List.dropWhile_suffix _).length_le hq
          · obtain ⟨d, q, heq, hitem⟩ := item_anonymize (Ne.symm hne) fun hpaste htake => hbehind ⟨hpaste, htake⟩
            rw [heq, List.length_cons] at hm
            obtain ⟨m, rfl⟩ := Nat.exists_eq_add_one_of_ne_zero (Nat.ne_zero_of_lt hm)
            have hq := item_le true d q
            rw [hitem] at hq
            rw [heq, itemsLoop, hitem]
            refine .item (Ne.symm hne) (fun hpaste hhead => hbehind ⟨hpaste, ?_⟩)
              (ih (by omega) (Nat.le_trans hq (Nat.le_of_succ_le_succ hm)) hrest)
            exact takeWhile_of_head? hhead

/-- Where it is behind none, the items are the same. -/
theorem Twins.eq_map {its its' : List Item} (h : Twins name its its') (hpaste : its.IsChain fun a b => a = .paste → b ≠ .name name) :
    its' = its.map (Item.anonymize name) := by
  induction h with
  | nil => rfl
  | behind h ih =>
      obtain ⟨hnext, _⟩ := List.isChain_cons.mp hpaste
      exact absurd rfl (hnext _ rfl rfl)
  | item hva hnext h ih => rw [ih (List.isChain_cons.mp hpaste).2, List.map_cons]

end Anonymize

/-! ## The arguments -/

section Substitution

variable {params : List String} {args : String} {body : Text}

theorem items_named : items (named params args body) = itemsLoop true body.length body := by
  rw [items, named, String.toList_ofList]

theorem items_anonymous (hname : headIs isIdent1 args.toList = true) (h : NoOperand args.toList (items (named params args body))) :
    items (anonymous params args body) = (items (named params args body)).map (Item.anonymize args.toList) := by
  obtain ⟨_, hpaste, hva⟩ := h
  rw [items_named] at hpaste hva ⊢
  rw [items, anonymous, String.toList_ofList]
  exact (twins_itemsLoop hname (Nat.le_refl _) (Nat.le_refl _) hva).eq_map hpaste

theorem vaSlot_named : vaSlot (named params args body) = params.length := by
  rw [vaSlot, named, if_pos rfl, List.length_append]
  rfl

theorem vaSlot_anonymous : vaSlot (anonymous params args body) = params.length := rfl

/-- The parameters are the same, and the name is behind them. -/
theorem findParamIndex_named (a : Text) : findParamIndex (named params args body) a =
    (findParamIndex (anonymous params args body) a).or (if args.toList = a then some params.length else none) := by
  rw [findParamIndex, named, List.findIdx?_append]
  refine congrArg (Option.or _) ?_
  by_cases ha : args.toList = a
  · rw [if_pos ha, List.findIdx?_cons, if_pos (decide_eq_true ha), Option.map_some, Nat.zero_add]
  · rw [if_neg ha, List.findIdx?_cons, if_neg fun h => ha (of_decide_eq_true h)]
    rfl

/-- The arguments of the two: for the name there is an empty one, where there are no variable ones. -/
def Padded (k : Nat) (l l' : List Text) : Prop := k ≤ l'.length ∧ l = if k < l'.length then l' else l' ++ [[]]

theorem padded_padArgs (l : List Text) :
    Padded params.length (padArgs (named params args body) l) (padArgs (anonymous params args body) l) := by
  have hlength := length_padArgs (anonymous params args body) l
  have hparams : (named params args body).params.length = params.length + 1 := List.length_append
  refine ⟨hlength ▸ Nat.le_max_right .., ?_⟩
  rw [hlength, padArgs, padArgs, hparams]
  show l ++ List.replicate (params.length + 1 - l.length) [] =
    if params.length < max l.length params.length then l ++ List.replicate (params.length - l.length) []
    else l ++ List.replicate (params.length - l.length) [] ++ [[]]
  split
  · next hlt => rw [Nat.sub_eq_zero_of_le (by omega), Nat.sub_eq_zero_of_le (by omega)]
  · next hge => rw [Nat.succ_sub (by omega), List.replicate_succ', List.append_assoc]

theorem Padded.getElem? {k : Nat} {l l' : List Text} (h : Padded k l l') {j : Nat} (hj : j < k) : l[j]? = l'[j]? := by
  obtain ⟨hle, rfl⟩ := h
  split
  · rfl
  · exact List.getElem?_append_left (Nat.lt_of_lt_of_le hj hle)

theorem Padded.getElem?_last {k : Nat} {l l' : List Text} (h : Padded k l l') : l[k]? = some (l'.getD k []) := by
  obtain ⟨hle, rfl⟩ := h
  split
  · next hlt => rw [List.getElem?_eq_getElem hlt, List.getD_eq_getElem _ _ hlt]
  · next hge =>
      have heq : l'.length = k := Nat.le_antisymm (Nat.le_of_not_lt hge) hle
      rw [List.getD_eq_default _ _ (Nat.le_of_eq heq), ← heq]
      exact List.getElem?_concat_length

theorem Padded.lt {k : Nat} {l l' : List Text} (h : Padded k l l') : k < l.length :=
  (List.getElem?_eq_some_iff.mp h.getElem?_last).1

/-- When the variable ones are merged they are in the same slot. -/
theorem padded_mergeArgs {l l' : List Text} (h : Padded params.length l l') :
    Padded params.length (mergeArgs (named params args body) l) (mergeArgs (anonymous params args body) l') := by
  obtain ⟨hle, rfl⟩ := h
  have hparams : (named params args body).params.length = params.length + 1 := List.length_append
  have hanonymous : mergeArgs (anonymous params args body) l' =
      if params.length < l'.length then l'.take params.length ++ [joinComma (l'.drop params.length)] else l' := by
    rw [mergeArgs]
    exact if_congr decide_eq_true_iff rfl rfl
  have hnamed : ∀ l, mergeArgs (named params args body) l =
      if params.length + 1 < l.length then l.take params.length ++ [joinComma (l.drop params.length)] else l := fun l => by
    rw [mergeArgs, vaSlot_named, hparams]
    exact if_congr decide_eq_true_iff rfl rfl
  rw [hanonymous, hnamed]
  by_cases hlt : params.length < l'.length
  · have htake : (l'.take params.length ++ [joinComma (l'.drop params.length)]).length = params.length + 1 := by
      rw [List.length_append, List.length_take_of_le hle]
      rfl
    rw [if_pos hlt, if_pos hlt]
    refine ⟨htake ▸ Nat.le_succ _, Eq.trans ?_ (if_pos (htake ▸ Nat.lt_succ_self _)).symm⟩
    split
    · rfl
    · next hge =>
        have hone : l'.drop params.length = [l'[params.length]] := by
          rw [List.drop_eq_getElem_cons hlt, List.drop_eq_nil_of_le (Nat.le_of_not_lt hge)]
        rw [hone, joinComma, ← hone, List.take_append_drop]
  · rw [if_neg hlt, if_neg hlt, if_neg]
    · exact ⟨hle, by rw [if_neg hlt]⟩
    · rw [List.length_append]
      exact Nat.not_lt.mpr (Nat.succ_le_succ (Nat.le_of_not_lt hlt))

variable {l l' raw raw' : List Text} {a : Text}

theorem findParamIndex_none {name : String} (h : name ∉ params) : findParamIndex (anonymous params args body) name.toList = none :=
  List.findIdx?_eq_none_iff.mpr fun param hparam => decide_eq_false fun heq => h (String.toList_inj.mp heq ▸ hparam)

/-- The name of an item, but the name of the variable arguments. -/
theorem form_name_named (hl : Padded params.length l l') (ha : args.toList ≠ a) :
    form (anonymous params args body) l' raw' (.name a) = form (named params args body) l raw (.name a) := by
  have hmerge := @padded_mergeArgs params args body _ _ hl
  rw [form, form, findParamIndex_named, if_neg ha, Option.or_none, vaSlot_named, vaSlot_anonymous]
  show (if (true && decide (a = vaArgs.toList)) = true then _ else _) = if (true && decide (a = vaArgs.toList)) = true then _ else _
  split
  · rw [List.getD_eq_getElem?_getD (l := mergeArgs (named params args body) l), hmerge.getElem?_last]
    rfl
  · cases hfind : findParamIndex (anonymous params args body) a with
    | none => rfl
    | some j => exact (hmerge.getElem? (findParamIndex_lt hfind)).symm

theorem form_name_args (hl : Padded params.length l l') (hargs : args ∉ params) (hva : args ≠ vaArgs) :
    ∃ t, form (anonymous params args body) l' raw' (.name vaArgs.toList) = some t ∧
      form (named params args body) l raw (.name args.toList) = some t := by
  have hmerge := @padded_mergeArgs params args body _ _ hl
  refine ⟨(mergeArgs (anonymous params args body) l').getD params.length [], ?_, ?_⟩
  · rw [form, vaSlot_anonymous]
    exact if_pos (show (true && decide (vaArgs.toList = vaArgs.toList)) = true by simp)
  · have hne : ¬ (true && decide (args.toList = vaArgs.toList)) = true := fun h => hva (String.toList_inj.mp (of_decide_eq_true h))
    rw [form, findParamIndex_named, findParamIndex_none hargs, if_pos rfl, Option.none_or, Option.bind_some, hmerge.getElem?_last]
    exact if_neg hne

theorem form_stringize_named (hl : Padded params.length l l') (hraw : Padded params.length raw raw') (ha : args.toList ≠ a) :
    form (anonymous params args body) l' raw' (.stringize a) = form (named params args body) l raw (.stringize a) := by
  have hmerge := @padded_mergeArgs params args body _ _ hl
  rw [form, form, findParamIndex_named, if_neg ha, Option.or_none]
  cases hfind : findParamIndex (anonymous params args body) a with
  | none => rfl
  | some j =>
      have hj : j < params.length := findParamIndex_lt hfind
      rw [Option.bind_some, Option.bind_some, if_pos (Nat.lt_of_lt_of_le hj hmerge.1), if_pos (Nat.lt_trans hj hmerge.lt),
        List.getD_eq_getElem?_getD, List.getD_eq_getElem?_getD, hraw.getElem? hj]

/-- What is put for an item is the same. -/
theorem substStep_named (hl : Padded params.length l l') (hraw : Padded params.length raw raw') (hargs : args ∉ params)
    (hva : args ≠ vaArgs) {it : Item} (hstringize : it ≠ .stringize args.toList) (hpasteVa : it ≠ .pasteVa) (sb : Text) :
    substStep sb (it.anonymize args.toList) (form (anonymous params args body) l' raw' (it.anonymize args.toList)) =
      substStep sb it (form (named params args body) l raw it) := by
  cases it with
  | pasteVa => exact absurd rfl hpasteVa
  | literal _ | paste | hash | char _ => rfl
  | stringize a =>
      have ha : args.toList ≠ a := fun h => hstringize (h ▸ rfl)
      rw [Item.anonymize, if_neg ha.symm, form_stringize_named hl hraw ha]
  | name a =>
      by_cases ha : args.toList = a
      · obtain ⟨t, hanonymous, hnamed⟩ := @form_name_args params args body _ _ raw raw' hl hargs hva
        rw [Item.anonymize, if_pos ha.symm, hanonymous, ← ha, hnamed]
        rfl
      · rw [Item.anonymize, if_neg fun h => ha h.symm, form_name_named hl ha]

theorem foldl_substStep_named (hl : Padded params.length l l') (hraw : Padded params.length raw raw') (hargs : args ∉ params)
    (hva : args ≠ vaArgs) {its : List Item} (hstringize : Item.stringize args.toList ∉ its) (hpasteVa : Item.pasteVa ∉ its) (sb : Text) :
    (its.map (Item.anonymize args.toList)).foldl (fun sb it => substStep sb it (form (anonymous params args body) l' raw' it)) sb =
      its.foldl (fun sb it => substStep sb it (form (named params args body) l raw it)) sb := by
  induction its generalizing sb with
  | nil => rfl
  | cons it its ih =>
      obtain ⟨hne, hrest⟩ := not_or.mp fun h => hstringize (List.mem_cons.mpr h)
      obtain ⟨hneVa, hrestVa⟩ := not_or.mp fun h => hpasteVa (List.mem_cons.mpr h)
      rw [List.map_cons, List.foldl_cons, List.foldl_cons, substStep_named hl hraw hargs hva (Ne.symm hne) (Ne.symm hneVa)]
      exact ih hrest hrestVa _

/-- The two are the same for the arguments of any call. -/
theorem substituteMacro_named (hname : headIs isIdent1 args.toList = true) (hargs : args ∉ params) (hva : args ≠ vaArgs)
    (h : NoOperand args.toList (items (named params args body))) (hl : Padded params.length l l') (hraw : Padded params.length raw raw') :
    substituteMacro (anonymous params args body) l' raw' = substituteMacro (named params args body) l raw := by
  rw [substituteMacro, substituteMacro, items_anonymous hname h, foldl_substStep_named hl hraw hargs hva h.stringize h.pasteVa]

end Substitution

end Rcc.Preprocess

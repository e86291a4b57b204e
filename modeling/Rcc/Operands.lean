import Rcc.Expand

/-!
# Operands of `#` and `##`

A parameter that is an operand of `#` or `##` is to be replaced by its argument as it is
written, every other one by the argument fully expanded. `required` says this for the
items of a body, by what is before and behind an item; the code has only the item, and
takes the expanded argument for a parameter beside `##`.

Whether the code takes what is required can be told from one item and the arguments. The
buffer is then what it should be, but for the `##` in it: `paste_tokens` takes them from
the text, and with them those that come from an argument or stand in a literal.
-/

namespace Rcc.Preprocess

open Lexer (Text isspace isdigit headIs startswith)
open Macros (Definition)
open Files (Preprocessor)

/-! ## What is required -/

/-- The argument for a parameter. Those for `...` or for a named `...` are taken together. -/
def argument (d : Definition) (l : List Text) (k : Nat) : Text :=
  if d.isVariadic && k = vaSlot d then joinComma (l.drop k) else l.getD k []

/-- `##` is next to the item. Blanks behind `##` are no items. -/
def besidePaste (before after : List Item) : Bool :=
  before.getLast? = some .paste ||
    match after.dropWhile (fun item => match item with | .char c => isspace c | _ => false) with
    | .paste :: _ => true
    | .pasteVa :: _ => true
    | _ => false

/-- What replaces an item. Without variadic arguments there is nothing to replace in
`## __VA_ARGS__`, and a comma is dropped. -/
def required (d : Definition) (args raw : List Text) (before : List Item) (item : Item) (after : List Item) :
    Option Text :=
  match item with
  | .stringize name => (slot d name).map fun k => quoteString (argument d raw k)
  | .name name =>
      (slot d name).map fun k => if besidePaste before after then argument d raw k else argument d args k
  | .pasteVa => if vaSlot d < raw.length then some (argument d raw (vaSlot d)) else none
  | .literal _ | .paste | .hash | .char _ => none

/-- How `expand_text` calls `substitute_macro`: arguments that are missing are empty. A
named `...` has a parameter before it. -/
structure Call (d : Definition) (args raw : List Text) : Prop where
  length : raw.length = args.length
  enough : d.params.length ≤ args.length
  fixed : d.isVariadic = false → args.length = d.params.length
  gnu : d.isGnuVariadic = true → d.isVariadic = true ∧ d.params ≠ []
  params : vaArgs ∉ d.params

/-- Every parameter is replaced by what is required. -/
def Right (d : Definition) (args raw : List Text) : Prop :=
  ∀ before item after, items d = before ++ item :: after →
    form d args raw item = required d args raw before item after

/-- Beside `##` an argument is the same when it is expanded, and `#` is not put before
`__VA_ARGS__`, nor before a named `...` with more than one argument. -/
def Unchanged (d : Definition) (args raw : List Text) : Prop :=
  ∀ before item after, items d = before ++ item :: after →
    match item with
    | .stringize name =>
        d.isVariadic = true → name ≠ vaArgs.toList ∧ (findParamIndex d name = some (vaSlot d) → raw.length ≤ vaSlot d + 1)
    | .name name => besidePaste before after = true → ∀ k ∈ slot d name, argument d raw k = argument d args k
    | .pasteVa => argument d raw (vaSlot d) = argument d args (vaSlot d)
    | .literal _ | .paste | .hash | .char _ => True

/-! ## What is taken -/

variable {d : Definition} {args raw : List Text} {name : Text} {k : Nat}

theorem findParamIndex_lt (h : findParamIndex d name = some k) : k < d.params.length :=
  (List.findIdx?_eq_some_iff_findIdx_eq.mp h).1

theorem findParamIndex_vaArgs (h : vaArgs ∉ d.params) : findParamIndex d vaArgs.toList = none := by
  refine List.findIdx?_eq_none_iff.mpr fun param hparam => decide_eq_false fun heq => h ?_
  rw [← String.toList_inj.mp heq]
  exact hparam

theorem vaSlot_le : vaSlot d ≤ d.params.length := by
  rw [vaSlot]
  split
  · exact Nat.sub_le _ _
  · exact Nat.le_refl _

/-- A parameter is not behind the slot of the variadic arguments. -/
theorem le_vaSlot (h : k < d.params.length) : k ≤ vaSlot d := by
  rw [vaSlot]
  split
  · exact Nat.le_sub_one_of_lt h
  · exact Nat.le_of_lt h

theorem slot_le (h : slot d name = some k) : k ≤ vaSlot d := by
  rw [slot] at h
  split at h
  · exact Nat.le_of_eq (Option.some_inj.mp h).symm
  · exact le_vaSlot (findParamIndex_lt h)

/-- Without `...` the slot of a name is that of a parameter. -/
theorem slot_lt (h : slot d name = some k) (hv : d.isVariadic = false) : k < d.params.length := by
  rw [slot, hv] at h
  exact findParamIndex_lt h

theorem getElem?_mergeArgs_lt (hlt : k < vaSlot d) (hlen : d.params.length ≤ args.length) :
    (mergeArgs d args)[k]? = args[k]? := by
  rw [mergeArgs]
  split
  · rw [List.getElem?_append_left (by rw [List.length_take]; exact Nat.lt_min.mpr ⟨hlt, Nat.lt_of_lt_of_le hlt (Nat.le_trans vaSlot_le hlen)⟩)]
    exact List.getElem?_take_of_lt hlt
  · rfl

theorem joinComma_drop (h : args.length ≤ k + 1) : joinComma (args.drop k) = args.getD k [] := by
  rcases Nat.lt_or_ge k args.length with hlt | hge
  · rw [List.drop_eq_getElem_cons hlt, List.drop_eq_nil_of_le h, List.getD_eq_getElem _ _ hlt]
    rfl
  · rw [List.drop_eq_nil_of_le hge, List.getD_eq_default _ _ hge]
    rfl

/-- In the slot of the variadic arguments are all of them, if there are any. -/
theorem getElem?_mergeArgs_vaSlot (hv : d.isVariadic = true) (hlen : d.params.length ≤ args.length) :
    (mergeArgs d args)[vaSlot d]? = if vaSlot d < args.length then some (joinComma (args.drop (vaSlot d))) else none := by
  rw [mergeArgs, hv, Bool.true_and]
  by_cases hlt : d.params.length < args.length
  · have hslot : vaSlot d < args.length := Nat.lt_of_le_of_lt vaSlot_le hlt
    have htake : (args.take (vaSlot d)).length = vaSlot d := List.length_take_of_le (Nat.le_of_lt hslot)
    rw [if_pos (decide_eq_true hlt), if_pos hslot, List.getElem?_append_right (Nat.le_of_eq htake), htake, Nat.sub_self]
    rfl
  · rw [if_neg fun h => hlt (of_decide_eq_true h)]
    split
    · next hslot =>
        have hle : args.length ≤ vaSlot d + 1 := by
          rw [vaSlot]
          split <;> omega
        rw [joinComma_drop hle, List.getElem?_eq_getElem hslot, List.getD_eq_getElem _ _ hslot]
    · next hslot => exact List.getElem?_eq_none (Nat.le_of_not_lt hslot)

variable (h : Call d args raw)

include h

/-- What is taken for the slot of a name. -/
theorem Call.getElem?_mergeArgs (hk : slot d name = some k) :
    (mergeArgs d args)[k]? = if k < args.length then some (argument d args k) else none := by
  rw [argument]
  cases hv : d.isVariadic with
  | false =>
      have hlt : k < args.length := by
        rw [h.fixed hv]
        exact slot_lt hk hv
      rw [mergeArgs, hv, if_pos hlt, List.getD_eq_getElem _ _ hlt]
      exact List.getElem?_eq_getElem hlt
  | true =>
      rcases Nat.lt_or_eq_of_le (slot_le hk) with hlt | heq
      · have hlt' : k < args.length := Nat.lt_of_lt_of_le hlt (Nat.le_trans vaSlot_le h.enough)
        have hne : (true && decide (k = vaSlot d)) = false := decide_eq_false (Nat.ne_of_lt hlt)
        rw [getElem?_mergeArgs_lt hlt h.enough, if_pos hlt', hne, List.getElem?_eq_getElem hlt']
        exact congrArg some (List.getD_eq_getElem _ _ hlt').symm
      · rw [heq, getElem?_mergeArgs_vaSlot hv h.enough, if_pos (show (true && decide (vaSlot d = vaSlot d)) = true by simp)]

theorem Call.lt_length (hk : findParamIndex d name = some k) : k < args.length :=
  Nat.lt_of_lt_of_le (findParamIndex_lt hk) h.enough

theorem Call.slot_of_find (hk : findParamIndex d name = some k) : slot d name = some k := by
  rw [slot]
  split
  · next hva =>
      rw [of_decide_eq_true (Bool.and_eq_true_iff.mp hva).2, findParamIndex_vaArgs h.params] at hk
      exact absurd hk nofun
  · exact hk

/-- The argument for a name that is no operand. -/
theorem Call.form_name : form d args raw (.name name) = (slot d name).map (argument d args) := by
  rw [form]
  split
  · next hva =>
      have hk : slot d name = some (vaSlot d) := by rw [slot, if_pos hva]
      rw [hk, List.getD_eq_getElem?_getD, h.getElem?_mergeArgs hk]
      split
      · rfl
      · next hge =>
          show some [] = some (argument d args (vaSlot d))
          rw [argument, (Bool.and_eq_true_iff.mp hva).1, if_pos (show (true && decide (vaSlot d = vaSlot d)) = true by simp),
            List.drop_eq_nil_of_le (Nat.le_of_not_lt hge)]
          rfl
  · next hva =>
      rw [slot, if_neg hva]
      cases hk : findParamIndex d name with
      | none => rfl
      | some k =>
          rw [Option.bind_some, h.getElem?_mergeArgs (h.slot_of_find hk), if_pos (h.lt_length hk)]
          rfl

theorem Call.form_stringize : form d args raw (.stringize name) =
    (findParamIndex d name).map fun k => quoteString (raw.getD k []) := by
  rw [form]
  cases hk : findParamIndex d name with
  | none => rfl
  | some k =>
      have hsome := h.getElem?_mergeArgs (h.slot_of_find hk)
      rw [if_pos (h.lt_length hk)] at hsome
      rw [Option.bind_some, if_pos (List.getElem?_eq_some_iff.mp hsome).1]
      rfl

theorem Call.form_pasteVa : form d args raw .pasteVa =
    if vaSlot d < raw.length then some (argument d args (vaSlot d)) else none := by
  rw [form, h.length]
  cases hv : d.isVariadic with
  | false =>
      have hgnu : d.isGnuVariadic = false := by
        cases hg : d.isGnuVariadic with
        | false => rfl
        | true => exact absurd (hv.symm.trans (h.gnu hg).1) nofun
      have hge : args.length ≤ vaSlot d := by
        rw [vaSlot, hgnu]
        exact Nat.le_of_eq (h.fixed hv)
      rw [mergeArgs, hv, if_neg (Nat.not_lt.mpr hge)]
      exact List.getElem?_eq_none hge
  | true =>
      have hk : slot d vaArgs.toList = some (vaSlot d) := by
        rw [slot, hv, if_pos (show (true && decide (vaArgs.toList = vaArgs.toList)) = true by simp)]
      exact h.getElem?_mergeArgs hk

omit h

/-! ## Where they agree -/

theorem length_quoteString (s t : Text) : (quoteString s).length < (quoteString (s ++ ',' :: t)).length := by
  simp only [quoteString, List.length_append, List.length_cons, List.flatMap_append, List.flatMap_cons]
  split
  · next hc => exact absurd hc (by decide)
  · simp only [List.length_cons, List.length_nil]
    omega

/-- Several arguments are no single one. -/
theorem quoteString_joinComma (hk : k < args.length) :
    quoteString (args.getD k []) = quoteString (joinComma (args.drop k)) ↔ args.length ≤ k + 1 := by
  constructor
  · intro heq
    by_contra hlt
    rw [Nat.not_le] at hlt
    rw [List.drop_eq_getElem_cons hk, List.drop_eq_getElem_cons hlt, List.getD_eq_getElem _ _ hk, joinComma] at heq
    · exact absurd (congrArg List.length heq) (Nat.ne_of_lt (length_quoteString _ _))
    · exact nofun
  · intro hle
    rw [joinComma_drop hle]

include h

theorem Call.stringize_iff (before after : List Item) :
    form d args raw (.stringize name) = required d args raw before (.stringize name) after ↔
      (d.isVariadic = true →
        name ≠ vaArgs.toList ∧ (findParamIndex d name = some (vaSlot d) → raw.length ≤ vaSlot d + 1)) := by
  rw [h.form_stringize]
  show _ = (slot d name).map _ ↔ _
  rw [slot]
  cases hv : d.isVariadic with
  | false =>
      refine iff_of_true ?_ nofun
      refine congrArg (fun f => (findParamIndex d name).map f) (funext fun k => ?_)
      rw [argument, hv]
      rfl
  | true =>
      rw [Bool.true_and, forall_prop_of_true rfl]
      by_cases hva : name = vaArgs.toList
      · rw [if_pos (decide_eq_true hva), hva, findParamIndex_vaArgs h.params]
        exact iff_of_false nofun fun hne => hne.1 rfl
      · rw [if_neg (fun hd => hva (of_decide_eq_true hd))]
        cases hk : findParamIndex d name with
        | none => exact iff_of_true rfl ⟨hva, nofun⟩
        | some k =>
            show some _ = some (quoteString (argument d raw k)) ↔ _
            have hlen : k < raw.length := h.length ▸ h.lt_length hk
            rw [Option.some_inj, Option.some_inj, argument, hv, Bool.true_and]
            by_cases hslot : k = vaSlot d
            · rw [if_pos (decide_eq_true hslot), quoteString_joinComma hlen, ← hslot]
              exact ⟨fun hle => ⟨hva, fun _ => hle⟩, fun hboth => hboth.2 rfl⟩
            · rw [if_neg (fun hd => hslot (of_decide_eq_true hd))]
              exact iff_of_true rfl ⟨hva, fun heq => absurd heq hslot⟩

theorem Call.name_iff (before after : List Item) :
    form d args raw (.name name) = required d args raw before (.name name) after ↔
      (besidePaste before after = true → ∀ k ∈ slot d name, argument d raw k = argument d args k) := by
  rw [h.form_name]
  show _ = (slot d name).map _ ↔ _
  cases slot d name with
  | none => exact iff_of_true rfl fun _ k hk => absurd hk nofun
  | some k =>
      show some _ = some _ ↔ _
      rw [Option.some_inj]
      cases besidePaste before after with
      | false => exact iff_of_true rfl nofun
      | true =>
          show argument d args k = argument d raw k ↔ _
          rw [forall_prop_of_true rfl]
          exact ⟨fun heq j hj => Option.some_inj.mp hj ▸ heq.symm, fun hall => (hall k rfl).symm⟩

theorem Call.pasteVa_iff (before after : List Item) :
    form d args raw .pasteVa = required d args raw before .pasteVa after ↔
      argument d raw (vaSlot d) = argument d args (vaSlot d) := by
  rw [h.form_pasteVa, required]
  split
  · exact Option.some_inj.trans eq_comm
  · next hge =>
      refine iff_of_true rfl ?_
      have hraw : raw.length ≤ vaSlot d := Nat.le_of_not_lt hge
      have hargs : args.length ≤ vaSlot d := h.length ▸ hraw
      rw [argument, argument]
      split
      · rw [List.drop_eq_nil_of_le hraw, List.drop_eq_nil_of_le hargs]
      · rw [List.getD_eq_default _ _ hraw, List.getD_eq_default _ _ hargs]

theorem Call.right_iff : Right d args raw ↔ Unchanged d args raw := by
  refine forall_congr' fun before => forall_congr' fun item => forall_congr' fun after => forall_congr' fun _ => ?_
  cases item with
  | stringize name => exact h.stringize_iff before after
  | name name => exact h.name_iff before after
  | pasteVa => exact h.pasteVa_iff before after
  | literal _ | paste | hash | char _ => exact iff_of_true rfl trivial

omit h

/-! ## The text -/

theorem stripEnd_append {s t : Text} (h : t.all isspace = true) : stripEnd (s ++ t) = stripEnd s := by
  rw [stripEnd, List.reverse_append, List.dropWhile_append_of_pos]
  · rfl
  · exact fun c hc => List.all_eq_true.mp h c (List.mem_reverse.mp hc)

theorem stripEnd_concat {s : Text} {c : Char} (h : ¬ isspace c = true) : stripEnd (s ++ [c]) = s ++ [c] :=
  List.rdropWhile_concat_neg isspace s c h

/-- A character, or a `##` of the body. -/
inductive Cell where
  | char (c : Char)
  | paste
deriving DecidableEq

def Cell.spelling : Cell → Text
  | .char c => [c]
  | .paste => ['#', '#']

def Cell.isspace : Cell → Bool
  | .char c => Lexer.isspace c
  | .paste => false

/-- What stands in the buffer of the code. -/
def text (cells : List Cell) : Text := cells.flatMap Cell.spelling

def stripEndCells (sb : List Cell) : List Cell := (sb.reverse.dropWhile Cell.isspace).reverse

def dropCommaCells (sb : List Cell) : List Cell :=
  if (stripEndCells sb).getLast? = some (.char ',') then (stripEndCells sb).dropLast else stripEndCells sb

def cellStep (sb : List Cell) (item : Item) (form : Option Text) : List Cell :=
  match form, item with
  | some text, _ => sb ++ text.map .char
  | none, .pasteVa => dropCommaCells sb
  | none, .paste => sb ++ [.paste]
  | none, item => sb ++ item.spelling.map .char

/-- The body with what is required for its parameters. -/
def replaced (d : Definition) (args raw : List Text) (sb : List Cell) (before : List Item) : List Item → List Cell
  | [] => sb
  | item :: after =>
      replaced d args raw (cellStep sb item (required d args raw before item after)) (before ++ [item]) after

/-- The loop of `paste_tokens`, for the `##` of the body alone. -/
def pasteCellsLoop : Nat → Text → List Cell → Text
  | 0, sb, _ => sb
  | _ + 1, sb, [] => sb
  | n + 1, sb, .char c :: p => pasteCellsLoop n (sb ++ [c]) p
  | n + 1, sb, .paste :: p =>
      pasteCellsLoop n (pasteEnd sb (text (p.dropWhile Cell.isspace))) (p.dropWhile Cell.isspace)

def pasteCells (cells : List Cell) : Text := pasteCellsLoop cells.length [] cells

/-- Next to each other these are not taken for another `##`. -/
def Cell.Apart (a b : Cell) : Prop := a = .char '#' → b ≠ .char '#' ∧ b ≠ .paste

section Cells

variable {sb p : List Cell} {item : Item}

theorem text_cons (a : Cell) (p : List Cell) : text (a :: p) = a.spelling ++ text p := List.flatMap_cons ..

theorem text_append (p q : List Cell) : text (p ++ q) = text p ++ text q := List.flatMap_append ..

theorem text_chars (s : Text) : text (s.map .char) = s := by
  induction s with
  | nil => rfl
  | cons c s ih =>
      rw [List.map_cons, text_cons, ih]
      rfl

theorem text_dropWhile (p : List Cell) : text (p.dropWhile Cell.isspace) = (text p).dropWhile Lexer.isspace := by
  induction p with
  | nil => rfl
  | cons a p ih =>
      rw [text_cons, List.dropWhile_cons]
      cases a with
      | paste => rfl
      | char c =>
          show text (if Lexer.isspace c = true then _ else _) = (c :: text p).dropWhile Lexer.isspace
          rw [List.dropWhile_cons]
          split
          · exact ih
          · rfl

theorem text_reverse (p : List Cell) : text p.reverse = (text p).reverse := by
  induction p with
  | nil => rfl
  | cons a p ih =>
      rw [List.reverse_cons, text_append, ih, text_cons a p, List.reverse_append]
      cases a with
      | char c => rfl
      | paste => rfl

theorem text_stripEnd (sb : List Cell) : text (stripEndCells sb) = stripEnd (text sb) := by
  rw [stripEndCells, stripEnd, text_reverse, text_dropWhile, text_reverse]

theorem text_dropComma (sb : List Cell) : text (dropCommaCells sb) = dropComma (text sb) := by
  rw [dropCommaCells, dropComma, ← text_stripEnd]
  rcases List.eq_nil_or_concat (stripEndCells sb) with hnil | ⟨init, a, hlast⟩
  · rw [hnil]
    rfl
  · rw [hlast, List.concat_eq_append, List.getLast?_concat, text_append, List.dropLast_concat]
    cases a with
    | paste =>
        show text (if some Cell.paste = some (.char ',') then _ else _) = if (text init ++ ['#', '#']).getLast? = some ',' then _ else _
        rw [if_neg nofun, List.getLast?_append, show ['#', '#'].getLast?.or (text init).getLast? = some '#' from rfl,
          if_neg (by simp)]
        exact text_append init [.paste]
    | char c =>
        show text (if some (Cell.char c) = some (.char ',') then _ else _) = if (text init ++ [c]).getLast? = some ',' then (text init ++ [c]).dropLast else _
        rw [List.getLast?_concat, List.dropLast_concat]
        by_cases hc : c = ','
        · rw [if_pos (by rw [hc]), if_pos (by rw [hc])]
        · rw [if_neg fun h => hc (Cell.char.inj (Option.some_inj.mp h)), if_neg fun h => hc (Option.some_inj.mp h), text_append]

theorem text_cellStep (sb : List Cell) (item : Item) (form : Option Text) :
    text (cellStep sb item form) = substStep (text sb) item form := by
  cases form with
  | some t => exact (text_append sb _).trans (congrArg (text sb ++ ·) (text_chars t))
  | none =>
      cases item with
      | pasteVa => exact text_dropComma sb
      | paste => exact text_append sb _
      | literal t => exact (text_append sb _).trans (congrArg (text sb ++ ·) (text_chars _))
      | stringize t => exact (text_append sb _).trans (congrArg (text sb ++ ·) (text_chars _))
      | hash => exact text_append sb _
      | name t => exact (text_append sb _).trans (congrArg (text sb ++ ·) (text_chars _))
      | char c => exact text_append sb _

theorem headIs_text_of_apart {a : Cell} (h : (a :: p).IsChain Cell.Apart) (ha : a = .char '#') :
    headIs (· = '#') (text p) = false := by
  cases p with
  | nil => rfl
  | cons b p =>
      obtain ⟨hb, _⟩ := List.isChain_cons_cons.mp h
      cases b with
      | paste => exact absurd rfl (hb ha).2
      | char c => exact decide_eq_false fun hc => (hb ha).1 (congrArg Cell.char hc)

/-- `paste_tokens` finds the `##` of the body and no others. -/
theorem pasteLoop_text {n m : Nat} {sb : Text} (h : p.IsChain Cell.Apart) (hn : (text p).length ≤ n)
    (hm : p.length ≤ m) : pasteLoop n sb (text p) = pasteCellsLoop m sb p := by
  induction m generalizing n sb p with
  | zero =>
      rw [List.eq_nil_of_length_eq_zero (Nat.le_zero.mp hm)]
      cases n with
      | zero => rfl
      | succ n => rfl
  | succ m ih =>
      cases p with
      | nil =>
          cases n with
          | zero => rfl
          | succ n => rfl
      | cons a p =>
          have hp : p.length ≤ m := Nat.le_of_succ_le_succ hm
          rw [text_cons, List.length_append] at hn
          cases a with
          | char c =>
              obtain ⟨n, rfl⟩ : ∃ k, n = k + 1 := ⟨n - 1, by simp only [Cell.spelling, List.length_singleton] at hn; omega⟩
              have hhash : (decide (c = '#') && headIs (· = '#') (text p)) = false := by
                by_cases hc : c = '#'
                · rw [headIs_text_of_apart h (congrArg Cell.char hc), Bool.and_false]
                · rw [decide_eq_false hc, Bool.false_and]
              show pasteLoop (n + 1) sb (c :: text p) = pasteCellsLoop m (sb ++ [c]) p
              rw [pasteLoop, hhash]
              refine ih h.tail ?_ hp
              simp only [Cell.spelling, List.length_singleton] at hn
              omega
          | paste =>
              obtain ⟨n, rfl⟩ : ∃ k, n = k + 1 := ⟨n - 1, by simp only [Cell.spelling, List.length_cons] at hn; omega⟩
              have hq : (p.dropWhile Cell.isspace).length ≤ m := Nat.le_trans (List.dropWhile_suffix _).length_le hp
              have hchain : (p.dropWhile Cell.isspace).IsChain Cell.Apart := h.tail.suffix (List.dropWhile_suffix _)
              have htext : (text (p.dropWhile Cell.isspace)).length ≤ n := by
                rw [text_dropWhile]
                have hle := (List.dropWhile_suffix Lexer.isspace (l := text p)).length_le
                simp only [Cell.spelling, List.length_cons, List.length_nil] at hn
                omega
              show pasteLoop n (pasteEnd sb ((text p).dropWhile Lexer.isspace)) ((text p).dropWhile Lexer.isspace) = _
              rw [pasteCellsLoop, ← text_dropWhile]
              exact ih hchain htext hq

end Cells

/-- The buffer, where the loop takes what is required. -/
theorem Right.foldl_eq (h : Right d args raw) {before after : List Item} (hitems : items d = before ++ after)
    (sb : List Cell) :
    after.foldl (fun sb item => substStep sb item (form d args raw item)) (text sb) =
      text (replaced d args raw sb before after) := by
  induction after generalizing before sb with
  | nil => rfl
  | cons item after ih =>
      rw [List.foldl_cons, h before item after hitems, ← text_cellStep]
      exact ih (by rw [hitems, List.append_assoc, List.singleton_append]) _

theorem Call.substituteMacro_eq (h : Call d args raw) (hunchanged : Unchanged d args raw)
    (happart : (replaced d args raw [] [] (items d)).IsChain Cell.Apart) :
    substituteMacro d args raw = pasteCells (replaced d args raw [] [] (items d)) := by
  have hright := h.right_iff.mpr hunchanged
  have hbuffer : (items d).foldl (fun sb item => substStep sb item (form d args raw item)) [] =
      text (replaced d args raw [] [] (items d)) := hright.foldl_eq (List.nil_append _).symm []
  rw [substituteMacro, pasteTokens, hbuffer]
  exact pasteLoop_text happart (Nat.le_refl _) (Nat.le_refl _)

/-! ## Calls -/

variable {expand : Preprocessor → Text → Option (Preprocessor × Text)} {st st' : Preprocessor}

theorem length_expandArgs (h : expandArgs expand st args = some (st', raw)) : raw.length = args.length := by
  induction args generalizing st st' raw with
  | nil =>
      obtain ⟨_, rfl⟩ := Prod.mk.inj (Option.some_inj.mp (show some (st, []) = some (st', raw) from h))
      rfl
  | cons arg args ih =>
      obtain ⟨⟨_, _⟩, _, hrest⟩ := Option.bind_eq_some_iff.mp h
      obtain ⟨⟨_, _⟩, hargs, heq⟩ := Option.map_eq_some_iff.mp hrest
      obtain ⟨_, rfl⟩ := Prod.mk.inj heq
      rw [List.length_cons, List.length_cons, ih hargs]

theorem length_padArgs (d : Definition) (args : List Text) :
    (padArgs d args).length = max args.length d.params.length := by
  rw [padArgs, List.length_append, List.length_replicate]
  omega

/-- In a call of a macro a parameter beside `#` or `##` is replaced by its argument as it
is written, and every other by the argument that `expand_text` has expanded, just when no
argument beside `##` changes when it is expanded and `#` has one argument behind it. What
is expanded then is the body with these in it, if `paste_tokens` finds no other `##`. -/
theorem expandCall_right_iff {expanded : List Text} (hgnu : d.isGnuVariadic = true → d.isVariadic = true ∧ d.params ≠ [])
    (hparams : vaArgs ∉ d.params) (hargs : d.isVariadic = false → args.length ≤ d.params.length)
    (hmax : (padArgs d args).length ≤ maxArgs) (h : expandArgs expand st (padArgs d args) = some (st', expanded)) :
    (Right d expanded (padArgs d args) ↔ Unchanged d expanded (padArgs d args)) ∧
      (Unchanged d expanded (padArgs d args) →
        (replaced d expanded (padArgs d args) [] [] (items d)).IsChain Cell.Apart →
          expandCall expand st name d args =
            rescan expand st' name (pasteCells (replaced d expanded (padArgs d args) [] [] (items d)))) := by
  have hlength := length_expandArgs h
  have hcall : Call d expanded (padArgs d args) := by
    refine ⟨hlength.symm, ?_, fun hv => ?_, hgnu, hparams⟩
    · rw [hlength, length_padArgs]
      exact Nat.le_max_right ..
    · rw [hlength, length_padArgs]
      exact Nat.max_eq_right (hargs hv)
  refine ⟨hcall.right_iff, fun hunchanged happart => ?_⟩
  have hfits : (! d.isVariadic && decide (d.params.length < args.length)) = false := by
    cases hv : d.isVariadic with
    | true => rfl
    | false => exact decide_eq_false (Nat.not_lt.mpr (hargs hv))
  rw [expandCall, hfits, if_pos hmax, h, ← hcall.substituteMacro_eq hunchanged happart]
  rfl

/-- `#define STR(x) #x`, `#define CAT(x, y) x ## y` and `#define X 1` -/
def stringOf : Definition := ⟨true, false, false, ["x"], "#x"⟩

def pasteOf : Definition := ⟨true, false, false, ["x", "y"], "x ## y"⟩

def withX : Preprocessor := ⟨Macros.Table.empty.defineMacro "X" false [] "1", [], 0⟩

def firstLine : Place := ⟨[], 1⟩

/-- `STR(X)` is `"X"`. -/
theorem stringOf_right : ∃ st, expandCall (expandText firstLine 1) withX "STR".toList stringOf [['X']] =
    rescan (expandText firstLine 1) st "STR".toList ['"', 'X', '"'] := by
  obtain ⟨⟨st, expanded⟩, hexpand, rfl⟩ := Option.map_eq_some_iff.mp
    (show (expandArgs (expandText firstLine 1) withX [['X']]).map Prod.snd = some [['1']] by decide +kernel)
  refine ⟨st, (expandCall_right_iff (d := stringOf) nofun (by decide) (fun _ => Nat.le_refl _) (by decide) hexpand).2
    (fun before item after heq => ?_) ?_⟩
  · obtain ⟨rfl, hcons⟩ | ⟨a, _, hnil⟩ := List.cons_eq_append_iff.mp (show [Item.stringize ['x']] = _ from heq)
    · obtain ⟨rfl, _⟩ := List.cons.inj hcons
      exact nofun
    · exact absurd hnil.symm (by simp)
  · have hapart : ∀ c d, c ≠ '#' → Cell.Apart (.char c) d := fun c d hc h => absurd (Cell.char.inj h) hc
    exact .cons_cons (hapart _ _ (by simp)) (.cons_cons (hapart _ _ (by simp)) (.singleton _))

/-- In `CAT(X, 2)` the 1 is taken for `X`. -/
theorem pasteOf_not_right : ¬ ∀ (place : Place) (n : Nat) (st st' : Preprocessor) (d : Definition) (args expanded : List Text),
    (d.isGnuVariadic = true → d.isVariadic = true ∧ d.params ≠ []) → vaArgs ∉ d.params →
      (d.isVariadic = false → args.length ≤ d.params.length) → (padArgs d args).length ≤ maxArgs →
        expandArgs (expandText place n) st (padArgs d args) = some (st', expanded) → Right d expanded (padArgs d args) := by
  intro h
  obtain ⟨⟨st, expanded⟩, hexpand, rfl⟩ := Option.map_eq_some_iff.mp
    (show (expandArgs (expandText firstLine 1) withX [['X'], ['2']]).map Prod.snd = some [['1'], ['2']] by decide +kernel)
  have hright := h firstLine 1 withX st pasteOf [['X'], ['2']] _ nofun (by decide) (fun _ => Nat.le_refl _) (by decide) hexpand
  exact absurd (hright [] (.name ['x']) [.char ' ', .paste, .name ['y']] rfl) (by decide)

end Rcc.Preprocess

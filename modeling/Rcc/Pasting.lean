import Rcc.OneLine
import Rcc.Operands

/-!
# Where tokens are pasted

A `##` of a replacement list joins the two tokens beside it, and any other `##` is text.
`substitute_macro` writes both in one buffer, and `paste_tokens` goes over the buffer and
cannot tell them from each other. The `##` of `## __VA_ARGS__` is left out of the buffer,
and the body of a macro without parameters is not gone over at all.

Here every character of the buffer is marked with whether it is of a `##` of the body.
The marks are only carried along, and without them the marked loop is `paste_tokens`. What
is required, `joinAtoms`, is told from the atoms the buffer is written from: these have
each `##` of the body, and what is left of an argument without tokens.

Between two characters that stay there are blanks, `##` and empty arguments: a gap. Both
the code and what is required put only blanks for a gap, so the texts are the same just
when they put the same ones for each. A `#` that is taken for a part of `##` is lost, and
what is lost is counted.
-/

namespace Rcc.Preprocess

open Lexer (Text isspace headIs)
open Macros (Definition)

/-! ## Marks -/

/-- A character, and whether it is of a `##` of the body. -/
abbrev Mark := Char × Bool

def Mark.isBlank (m : Mark) : Bool := isspace m.1

def Cell.marks : Cell → List Mark
  | .char c => [(c, false)]
  | .paste => [('#', true), ('#', true)]

def marks (cells : List Cell) : List Mark := cells.flatMap Cell.marks

/-- A text without `##` of the body. -/
def plain (t : Text) : List Mark := t.map fun c => (c, false)

/-- Without the blanks at the end. -/
def stripMarks (sb : List Mark) : List Mark := (sb.reverse.dropWhile Mark.isBlank).reverse

/-- These stay two operators when they are next to each other. -/
def staysApart (a b : Option Char) : Bool := a = b && b.any fun c => c ∈ "+-&|<>".toList

/-- `pasteEnd` -/
def pasteEndMarks (sb q : List Mark) : List Mark :=
  if staysApart ((stripMarks sb).getLast?.map Prod.fst) (q.head?.map Prod.fst) then stripMarks sb ++ [(' ', false)]
  else stripMarks sb

/-- `pasteLoop` -/
def pasteMarksLoop : Nat → List Mark → List Mark → List Mark
  | 0, sb, _ => sb
  | _ + 1, sb, [] => sb
  | n + 1, sb, m :: p =>
      if m.1 = '#' && headIs (· = '#') (p.map Prod.fst) then
        pasteMarksLoop n (pasteEndMarks sb (p.tail.dropWhile Mark.isBlank)) (p.tail.dropWhile Mark.isBlank)
      else pasteMarksLoop n (sb ++ [m]) p

/-- `pasteTokens` -/
def pasteMarks (p : List Mark) : List Mark := pasteMarksLoop p.length [] p

/-! ## Atoms -/

/-- What a replacement list becomes: characters, the `##` of the body, which may be left
out of the buffer, and arguments of which there is nothing but blanks. -/
inductive Atom where
  | char (c : Char)
  | paste (written : Bool)
  | empty (t : Text) (blank : t.all isspace = true)
deriving DecidableEq

def Atom.cells : Atom → List Cell
  | .char c => [.char c]
  | .paste written => if written then [.paste] else []
  | .empty t _ => t.map .char

/-- The buffer of the code. -/
def cells (atoms : List Atom) : List Cell := atoms.flatMap Atom.cells

def Atom.isBlank : Atom → Bool
  | .char c => isspace c
  | .paste _ | .empty _ _ => false

/-- What may stand between two characters that are no blanks. -/
def Atom.isGap : Atom → Bool
  | .char c => isspace c
  | .paste _ | .empty _ _ => true

/-- What is nothing or blanks in the buffer. -/
def Atom.isSpace : Atom → Bool
  | .char c => isspace c
  | .paste written => ! written
  | .empty _ _ => true

def argumentAtoms (t : Text) : List Atom :=
  if h : t.all isspace = true then [.empty t h] else t.map .char

/-- The blanks before a `##`, and those of an empty argument before it, are left out. -/
def stripAtoms (sb : List Atom) : List Atom :=
  match sb.reverse.dropWhile Atom.isBlank with
  | .empty _ _ :: p => p.reverse ++ [.empty [] rfl]
  | p => p.reverse

def stripSpaces (sb : List Atom) : List Atom := (sb.reverse.dropWhile Atom.isSpace).reverse

/-- `dropComma` -/
def dropCommaAtoms (sb : List Atom) : List Atom :=
  if (stripSpaces sb).getLast? = some (.char ',') then (stripSpaces sb).dropLast else stripSpaces sb

/-- `substStep`. The comma before `## __VA_ARGS__` is not joined with anything. -/
def atomStep (sb : List Atom) (item : Item) (form : Option Text) : List Atom :=
  match form, item with
  | some t, .pasteVa =>
      if (stripAtoms sb).getLast? = some (.char ',') then sb ++ argumentAtoms t
      else sb ++ .paste false :: argumentAtoms t
  | some t, _ => sb ++ argumentAtoms t
  | none, .pasteVa => dropCommaAtoms sb ++ [.empty [] rfl]
  | none, .paste => sb ++ [.paste true]
  | none, item => sb ++ item.spelling.map .char

/-- The body of a macro without parameters. -/
def bodyLoop : Nat → Text → List Atom
  | 0, _ => []
  | _ + 1, [] => []
  | n + 1, c :: p =>
      if isQuote c then (c :: (literal c p).1).map .char ++ bodyLoop n (literal c p).2
      else if c = '#' && headIs (· = '#') p then .paste true :: bodyLoop n p.tail
      else .char c :: bodyLoop n p

def atoms (d : Definition) (args raw : List Text) : List Atom :=
  if d.isFunction then (items d).foldl (fun sb item => atomStep sb item (form d args raw item)) []
  else bodyLoop d.body.toList.length d.body.toList

/-- What is expanded next, with its marks. -/
def pasted (d : Definition) (args raw : List Text) : List Mark :=
  if d.isFunction then pasteMarks (marks (cells (atoms d args raw))) else marks (cells (atoms d args raw))

/-! ## What is required -/

/-- The atoms so far, and whether a `##` is right before: blanks are left out there, and an
empty argument is put in for them. -/
def joinStep (sb : Bool × List Atom) : Atom → Bool × List Atom
  | .char c => if sb.1 && isspace c then sb else (false, sb.2 ++ [.char c])
  | .paste _ => (true, stripAtoms sb.2)
  | .empty t h => (false, sb.2 ++ [if sb.1 then .empty [] rfl else .empty t h])

/-- The tokens beside each `##` are joined. Nothing is joined across an empty argument. -/
def joinAtoms (atoms : List Atom) : List Atom := (atoms.foldl joinStep (false, [])).2

/-- Each `##` of the body joins the two tokens beside it, and no other `##` is changed. -/
def Pasted (d : Definition) (args raw : List Text) : Prop :=
  pasted d args raw = marks (cells (joinAtoms (atoms d args raw)))

/-! ## Gaps -/

/-- What is between two characters that are no blanks. -/
structure Gap where
  before : Option Char
  atoms : List Atom
  after : Option Char

/-- What the code leaves of it: all the blanks, unless it finds a `##`. -/
def Gap.left (g : Gap) : Text :=
  if Atom.paste true ∈ g.atoms then if staysApart g.before g.after then [' '] else [] else text (cells g.atoms)

/-- The blanks that no `##` is beside. -/
def Gap.due (g : Gap) : Text := text (cells (joinAtoms g.atoms))

def gapsFrom (before : Option Char) (gap : List Atom) : List Atom → List Gap
  | [] => [⟨before, gap, none⟩]
  | .char c :: p =>
      if isspace c then gapsFrom before (gap ++ [.char c]) p else ⟨before, gap, some c⟩ :: gapsFrom (some c) [] p
  | atom :: p => gapsFrom before (gap ++ [atom]) p

def gaps (atoms : List Atom) : List Gap := gapsFrom none [] atoms

/-- No `#` but those of a `##` of the body is next to another, and in each gap the code
leaves what is to stay. Without parameters there is no `##` in the body. -/
def Pasteable (d : Definition) (args raw : List Text) : Prop :=
  if d.isFunction then
    (cells (atoms d args raw)).IsChain Cell.Apart ∧ ∀ g ∈ gaps (atoms d args raw), g.left = g.due
  else Atom.paste true ∉ atoms d args raw

/-! ## The marks are carried along -/

theorem map_dropWhile (p : List Mark) : (p.dropWhile Mark.isBlank).map Prod.fst = (p.map Prod.fst).dropWhile isspace := by
  induction p with
  | nil => rfl
  | cons m p ih =>
      rw [List.map_cons]
      by_cases hm : isspace m.1 = true
      · rw [List.dropWhile_cons_of_pos hm, List.dropWhile_cons_of_pos (show m.isBlank = true from hm), ih]
      · rw [List.dropWhile_cons_of_neg hm, List.dropWhile_cons_of_neg (show ¬ m.isBlank = true from hm), List.map_cons]

theorem map_stripMarks (sb : List Mark) : (stripMarks sb).map Prod.fst = stripEnd (sb.map Prod.fst) := by
  rw [stripMarks, stripEnd, List.map_reverse, map_dropWhile, List.map_reverse]

theorem pasteEnd_eq (sb q : Text) :
    pasteEnd sb q = if staysApart (stripEnd sb).getLast? q.head? then stripEnd sb ++ [' '] else stripEnd sb := by
  rw [pasteEnd, staysApart]
  cases q with
  | nil => rw [show headIs _ [] = Option.any _ ([] : Text).head? from rfl]
  | cons c q => rfl

theorem map_pasteEndMarks (sb q : List Mark) : (pasteEndMarks sb q).map Prod.fst = pasteEnd (sb.map Prod.fst) (q.map Prod.fst) := by
  rw [pasteEndMarks, pasteEnd_eq, ← map_stripMarks, List.getLast?_map, List.head?_map]
  split
  · rw [List.map_append]
    rfl
  · rfl

theorem map_pasteMarksLoop (n : Nat) (sb p : List Mark) :
    (pasteMarksLoop n sb p).map Prod.fst = pasteLoop n (sb.map Prod.fst) (p.map Prod.fst) := by
  induction n generalizing sb p with
  | zero => rfl
  | succ n ih =>
      cases p with
      | nil => rfl
      | cons m p =>
          rw [pasteMarksLoop, List.map_cons, pasteLoop]
          split
          · rw [ih, map_pasteEndMarks, map_dropWhile, List.map_tail]
          · rw [ih, List.map_append]
            rfl

theorem marks_cons (a : Cell) (cs : List Cell) : marks (a :: cs) = a.marks ++ marks cs := List.flatMap_cons ..

theorem map_marks (cs : List Cell) : (marks cs).map Prod.fst = text cs := by
  induction cs with
  | nil => rfl
  | cons a cs ih =>
      rw [text_cons, ← ih, marks_cons, List.map_append]
      cases a with
      | char c => rfl
      | paste => rfl

theorem map_pasteMarks (cs : List Cell) : (pasteMarks (marks cs)).map Prod.fst = pasteTokens (text cs) := by
  rw [pasteMarks, map_pasteMarksLoop, map_marks, pasteTokens, ← map_marks, List.length_map]
  rfl

/-! ## The buffer -/

theorem cells_append (p q : List Atom) : cells (p ++ q) = cells p ++ cells q := List.flatMap_append

theorem cells_chars (t : Text) : cells (t.map .char) = t.map .char := by
  induction t with
  | nil => rfl
  | cons c t ih => exact congrArg (Cell.char c :: ·) ih

theorem text_argumentAtoms (t : Text) : text (cells (argumentAtoms t)) = t := by
  rw [argumentAtoms]
  split
  · exact (congrArg text (List.append_nil _)).trans (text_chars t)
  · rw [cells_chars, text_chars]

theorem cells_singleton (atom : Atom) : cells [atom] = atom.cells := List.append_nil _

theorem text_cells_concat (sb : List Atom) (atom : Atom) :
    text (cells (sb ++ [atom])) = text (cells sb) ++ text atom.cells := by
  rw [cells_append, text_append, cells_singleton]

theorem stripSpaces_of_isSpace {atom : Atom} (h : atom.isSpace = true) (sb : List Atom) :
    stripSpaces (sb ++ [atom]) = stripSpaces sb :=
  List.rdropWhile_concat_pos Atom.isSpace sb atom h

theorem stripSpaces_of_not_isSpace {atom : Atom} (h : ¬ atom.isSpace = true) (sb : List Atom) :
    stripSpaces (sb ++ [atom]) = sb ++ [atom] :=
  List.rdropWhile_concat_neg Atom.isSpace sb atom h

theorem all_text_of_isSpace {atom : Atom} (h : atom.isSpace = true) : (text atom.cells).all isspace = true := by
  cases atom with
  | char c => exact Bool.and_eq_true_iff.mpr ⟨h, rfl⟩
  | paste written =>
      rw [(Bool.not_eq_true' written).mp h]
      rfl
  | empty t ht => exact (text_chars t).symm ▸ ht

/-- An atom that is seen ends with a character that is no blank. -/
theorem text_of_not_isSpace {atom : Atom} (h : ¬ atom.isSpace = true) :
    ∃ s c, text atom.cells = s ++ [c] ∧ ¬ isspace c = true ∧ (c = ',' ↔ atom = .char ',') := by
  cases atom with
  | char c => exact ⟨[], c, rfl, h, fun hc => congrArg Atom.char hc, Atom.char.inj⟩
  | paste written =>
      cases written with
      | true => exact ⟨['#'], '#', rfl, by decide, nofun, nofun⟩
      | false => exact absurd rfl h
  | empty t ht => exact absurd rfl h

theorem text_stripSpaces (sb : List Atom) : text (cells (stripSpaces sb)) = stripEnd (text (cells sb)) := by
  induction sb using List.reverseRecOn with
  | nil => rfl
  | append_singleton sb atom ih =>
      by_cases hpart : atom.isSpace = true
      · rw [stripSpaces_of_isSpace hpart, ih, text_cells_concat, stripEnd_append (all_text_of_isSpace hpart)]
      · obtain ⟨s, c, htext, hc, _⟩ := text_of_not_isSpace hpart
        rw [stripSpaces_of_not_isSpace hpart, text_cells_concat, htext, ← List.append_assoc, stripEnd_concat hc]

theorem text_dropCommaAtoms (sb : List Atom) : text (cells (dropCommaAtoms sb)) = dropComma (text (cells sb)) := by
  rw [dropCommaAtoms, dropComma, ← text_stripSpaces]
  induction sb using List.reverseRecOn with
  | nil => rfl
  | append_singleton sb atom ih =>
      by_cases hpart : atom.isSpace = true
      · rw [stripSpaces_of_isSpace hpart, ih]
      · obtain ⟨s, c, htext, _, hcomma⟩ := text_of_not_isSpace hpart
        rw [stripSpaces_of_not_isSpace hpart, text_cells_concat, htext, ← List.append_assoc, List.getLast?_concat,
          List.getLast?_concat, List.dropLast_concat, List.dropLast_concat]
        by_cases hc : c = ','
        · rw [if_pos (congrArg some hc), if_pos (congrArg some (hcomma.mp hc))]
          rw [hcomma.mp hc] at htext
          obtain ⟨rfl, _⟩ := List.append_inj' (show [] ++ [','] = s ++ [c] from htext) rfl
          rw [List.append_nil]
        · rw [if_neg fun h => hc (Option.some_inj.mp h), if_neg fun h => hc (hcomma.mpr (Option.some_inj.mp h)), text_cells_concat, htext, List.append_assoc]

theorem text_atomStep (sb : List Atom) (item : Item) (form : Option Text) :
    text (cells (atomStep sb item form)) = substStep (text (cells sb)) item form := by
  have hput : ∀ t : Text, text (cells (sb ++ t.map .char)) = text (cells sb) ++ t := fun t => by
    rw [cells_append, text_append, cells_chars, text_chars]
  cases form with
  | some t =>
      have harg : text (cells (sb ++ argumentAtoms t)) = text (cells sb) ++ t := by
        rw [cells_append, text_append, text_argumentAtoms]
      cases item with
      | pasteVa =>
          rw [atomStep]
          split
          · exact harg
          · rw [cells_append, text_append]
            exact congrArg (text (cells sb) ++ ·) (text_argumentAtoms t)
      | literal _ | paste | stringize _ | hash | name _ | char _ => exact harg
  | none =>
      cases item with
      | pasteVa =>
          show text (cells (dropCommaAtoms sb ++ [.empty [] rfl])) = _
          rw [text_cells_concat, text_dropCommaAtoms]
          exact List.append_nil _
      | paste => exact text_cells_concat sb (.paste true)
      | literal t => exact hput t
      | stringize t => exact hput ('#' :: t)
      | hash => exact hput ['#']
      | name t => exact hput t
      | char c => exact hput [c]

theorem text_foldl_atomStep (f : Item → Option Text) (its : List Item) (sb : List Atom) :
    text (cells (its.foldl (fun sb item => atomStep sb item (f item)) sb)) =
      its.foldl (fun sb item => substStep sb item (f item)) (text (cells sb)) := by
  induction its generalizing sb with
  | nil => rfl
  | cons item its ih => rw [List.foldl_cons, List.foldl_cons, ih, text_atomStep]

theorem text_bodyLoop (n : Nat) (p : Text) (h : p.length ≤ n) : text (cells (bodyLoop n p)) = p := by
  induction n generalizing p with
  | zero => rw [List.eq_nil_of_length_eq_zero (Nat.le_zero.mp h)]; rfl
  | succ n ih =>
      cases p with
      | nil => rfl
      | cons c p =>
          have hp : p.length ≤ n := Nat.le_of_succ_le_succ h
          rw [bodyLoop]
          split
          · have hle : (literal c p).2.length ≤ n := by
              rw [← OneLine.literal_append c p, List.length_append] at hp
              omega
            rw [cells_append, text_append, cells_chars, text_chars, ih _ hle, List.cons_append, OneLine.literal_append]
          split
          · next hpaste =>
              obtain ⟨hc, hhead⟩ := Bool.and_eq_true_iff.mp hpaste
              obtain rfl := of_decide_eq_true hc
              cases p with
              | nil => exact absurd hhead nofun
              | cons d p =>
                  obtain rfl := of_decide_eq_true (show decide (d = '#') = true from hhead)
                  show '#' :: '#' :: text (cells (bodyLoop n p)) = _
                  rw [ih p (Nat.le_of_succ_le hp)]
          · show c :: text (cells (bodyLoop n p)) = _
            rw [ih p hp]

/-- Without the marks it is what the code expands. -/
theorem map_pasted (d : Definition) (args raw : List Text) :
    (pasted d args raw).map Prod.fst = if d.isFunction then substituteMacro d args raw else d.body.toList := by
  rw [pasted, atoms]
  cases d.isFunction with
  | true => exact (map_pasteMarks _).trans (congrArg pasteTokens (text_foldl_atomStep _ _ []))
  | false => exact (map_marks _).trans (text_bodyLoop _ _ (Nat.le_refl _))

/-! ## The `##` of the body alone -/

/-- The step of `paste_tokens` that finds these, and whether one is right before. -/
def seenStep (sb : Bool × Text) : Cell → Bool × Text
  | .char c =>
      if sb.1 && isspace c then sb
      else (false, (if sb.1 && staysApart sb.2.getLast? (some c) then sb.2 ++ [' '] else sb.2) ++ [c])
  | .paste => (true, stripEnd sb.2)

theorem plain_append (s t : Text) : plain (s ++ t) = plain s ++ plain t := List.map_append

theorem plain_dropWhile (t : Text) : (plain t).dropWhile Mark.isBlank = plain (t.dropWhile isspace) := List.dropWhile_map ..

theorem stripMarks_plain (sb : Text) : stripMarks (plain sb) = plain (stripEnd sb) := by
  rw [stripMarks, stripEnd, plain, ← List.map_reverse]
  exact (congrArg List.reverse (plain_dropWhile _)).trans List.map_reverse.symm

theorem stripEnd_stripEnd (sb : Text) : stripEnd (stripEnd sb) = stripEnd sb := List.rdropWhile_idempotent isspace sb

theorem map_plain (t : Text) : (plain t).map Prod.fst = t := by
  rw [plain, List.map_map]
  exact List.map_id t

theorem pasteEndMarks_plain (sb : Text) (q : List Mark) : pasteEndMarks (plain sb) q =
    plain (if staysApart (stripEnd sb).getLast? (q.head?.map Prod.fst) then stripEnd sb ++ [' '] else stripEnd sb) := by
  rw [pasteEndMarks, stripMarks_plain, ← List.getLast?_map, map_plain]
  split
  · exact (plain_append _ [' ']).symm
  · rfl

theorem staysApart_hash (a : Option Char) : staysApart a (some '#') = false := by
  rw [staysApart, show (some '#').any (fun c => c ∈ "+-&|<>".toList) = false from rfl, Bool.and_false]

theorem headIs_marks_of_apart {a : Cell} {cs : List Cell} (h : (a :: cs).IsChain Cell.Apart) (ha : a = .char '#') :
    headIs (· = '#') ((marks cs).map Prod.fst) = false := by
  rw [map_marks]
  exact headIs_text_of_apart h ha

theorem pasteMarksLoop_char {c : Char} {cs : List Cell} (h : (Cell.char c :: cs).IsChain Cell.Apart) (n : Nat) (sb : List Mark) :
    pasteMarksLoop (n + 1) sb (marks (.char c :: cs)) = pasteMarksLoop n (sb ++ plain [c]) (marks cs) := by
  have hhash : (decide (c = '#') && headIs (· = '#') ((marks cs).map Prod.fst)) = false := by
    by_cases hc : c = '#'
    · rw [headIs_marks_of_apart h (congrArg Cell.char hc), Bool.and_false]
    · rw [decide_eq_false hc, Bool.false_and]
  show pasteMarksLoop (n + 1) sb ((c, false) :: marks cs) = _
  rw [pasteMarksLoop, hhash]
  rfl

theorem pasteMarksLoop_paste (cs : List Cell) (n : Nat) (sb : List Mark) :
    pasteMarksLoop (n + 1) sb (marks (.paste :: cs)) =
      pasteMarksLoop n (pasteEndMarks sb ((marks cs).dropWhile Mark.isBlank)) ((marks cs).dropWhile Mark.isBlank) := rfl

/-- Where no other `#` is taken for one of them, the loop finds these. -/
theorem pasteMarksLoop_plain {cs : List Cell} (h : cs.IsChain Cell.Apart) (n : Nat) (sb : Text) :
    ((marks cs).length ≤ n → pasteMarksLoop n (plain sb) (marks cs) = plain (cs.foldl seenStep (false, sb)).2) ∧
      (((marks cs).dropWhile Mark.isBlank).length ≤ n → stripEnd sb = sb →
        pasteMarksLoop n (pasteEndMarks (plain sb) ((marks cs).dropWhile Mark.isBlank)) ((marks cs).dropWhile Mark.isBlank) =
          plain (cs.foldl seenStep (true, sb)).2) := by
  have hnil : ∀ (n : Nat) (sb : List Mark), pasteMarksLoop n sb [] = sb := fun n sb => by
    cases n with
    | zero => rfl
    | succ n => rfl
  induction cs generalizing n sb with
  | nil =>
      refine ⟨fun _ => hnil _ _, fun _ hsb => ?_⟩
      show pasteMarksLoop n (pasteEndMarks (plain sb) []) [] = plain sb
      rw [hnil, pasteEndMarks_plain, hsb, show staysApart sb.getLast? (([] : List Mark).head?.map Prod.fst) = false from by
        rw [staysApart]
        exact Bool.and_false _]
      rfl
  | cons a cs ih =>
      cases a with
      | char c =>
          have hput : ∀ sb : Text, (marks cs).length + 1 ≤ n →
              pasteMarksLoop n (plain sb) (marks (.char c :: cs)) = plain (cs.foldl seenStep (false, sb ++ [c])).2 := by
            intro sb hn
            obtain ⟨n, rfl⟩ := Nat.exists_eq_succ_of_ne_zero (Nat.ne_zero_of_lt hn)
            rw [pasteMarksLoop_char h, ← plain_append]
            exact (ih h.tail n _).1 (Nat.le_of_succ_le_succ hn)
          refine ⟨hput sb, fun hn hsb => ?_⟩
          by_cases hc : isspace c = true
          · rw [show (marks (.char c :: cs)).dropWhile Mark.isBlank = (marks cs).dropWhile Mark.isBlank from
              List.dropWhile_cons_of_pos hc] at hn ⊢
            rw [List.foldl_cons, seenStep, if_pos (show (true && isspace c) = true from hc)]
            exact (ih h.tail n sb).2 hn hsb
          · rw [show (marks (.char c :: cs)).dropWhile Mark.isBlank = marks (.char c :: cs) from
              List.dropWhile_cons_of_neg hc] at hn ⊢
            rw [List.foldl_cons, seenStep, if_neg (show ¬ (true && isspace c) = true from hc), pasteEndMarks_plain, hsb]
            exact hput _ hn
      | paste =>
          have hfound : ∀ sb : Text, ((marks cs).dropWhile Mark.isBlank).length + 1 ≤ n →
              pasteMarksLoop n (plain sb) (marks (.paste :: cs)) = plain (cs.foldl seenStep (true, stripEnd sb)).2 := by
            intro sb hn
            obtain ⟨n, rfl⟩ := Nat.exists_eq_succ_of_ne_zero (Nat.ne_zero_of_lt hn)
            rw [pasteMarksLoop_paste, pasteEndMarks_plain, ← (ih h.tail n _).2 (Nat.le_of_succ_le_succ hn) (stripEnd_stripEnd sb),
              pasteEndMarks_plain, stripEnd_stripEnd]
          have hlength : (marks (.paste :: cs)).length = (marks cs).length + 2 := by
            rw [marks_cons, List.length_append, Nat.add_comm]
            rfl
          have hle := (List.dropWhile_suffix Mark.isBlank (l := marks cs)).length_le
          refine ⟨fun hn => hfound sb (by omega), fun hn hsb => ?_⟩
          -- behind a `##` there is another one
          have hdrop : (marks (.paste :: cs)).dropWhile Mark.isBlank = marks (.paste :: cs) := rfl
          have happly := hfound sb (by rw [hdrop] at hn; omega)
          rw [hsb] at happly
          rw [hdrop, List.foldl_cons, seenStep, hsb, ← happly, pasteEndMarks_plain, hsb,
            show staysApart sb.getLast? ((marks (.paste :: cs)).head?.map Prod.fst) = false from staysApart_hash _]
          rfl

/-- What the code makes of the atoms, where no other `#` is taken for a `##` of the body. -/
theorem pasteMarks_of_apart {ps : List Atom} (h : (cells ps).IsChain Cell.Apart) :
    pasteMarks (marks (cells ps)) = plain ((cells ps).foldl seenStep (false, [])).2 :=
  (pasteMarksLoop_plain h _ []).1 (Nat.le_refl _)

/-! ## In a gap -/

section Gaps

variable {gap : List Atom} {atom : Atom}

theorem isGap_blank {c : Char} (h : (Atom.char c).isGap = true) : isspace c = true := h

theorem seen_chars {t : Text} (sb : Text) : (t.map Cell.char).foldl seenStep (false, sb) = (false, sb ++ t) := by
  induction t generalizing sb with
  | nil => rw [List.append_nil]; rfl
  | cons c t ih =>
      rw [List.map_cons, List.foldl_cons, seenStep, if_neg (show ¬ (false && isspace c) = true from nofun), ih]
      exact congrArg (false, ·) (List.append_assoc sb [c] t)

theorem seen_blanks {t : Text} (ht : t.all isspace = true) (sb : Text) :
    (t.map Cell.char).foldl seenStep (true, sb) = (true, sb) := by
  induction t with
  | nil => rfl
  | cons c t ih =>
      obtain ⟨hc, ht⟩ := Bool.and_eq_true_iff.mp ht
      rw [List.map_cons, List.foldl_cons, seenStep, if_pos (show (true && isspace c) = true from hc), ih ht]

/-- A `##` that is written, or blanks. -/
theorem cells_of_isGap (h : atom.isGap = true) :
    (atom = .paste true ∧ atom.cells = [.paste]) ∨
      (atom ≠ .paste true ∧ ∃ t : Text, t.all isspace = true ∧ atom.cells = t.map .char) := by
  cases atom with
  | char c => exact .inr ⟨nofun, [c], Bool.and_eq_true_iff.mpr ⟨h, rfl⟩, rfl⟩
  | paste written =>
      cases written with
      | true => exact .inl ⟨rfl, rfl⟩
      | false => exact .inr ⟨nofun, [], rfl, rfl⟩
  | empty t ht => exact .inr ⟨nofun, t, ht, rfl⟩

theorem cells_cons (atom : Atom) (gap : List Atom) : cells (atom :: gap) = atom.cells ++ cells gap := List.flatMap_cons

/-- Behind a `##` nothing is put for what is left of a gap. -/
theorem seen_behind {sb : Text} (hsb : stripEnd sb = sb) (hgap : ∀ atom ∈ gap, atom.isGap = true) :
    (cells gap).foldl seenStep (true, sb) = (true, sb) := by
  induction gap with
  | nil => rfl
  | cons atom gap ih =>
      obtain ⟨hpart, hgap⟩ := List.forall_mem_cons.mp hgap
      rw [cells_cons, List.foldl_append]
      rcases cells_of_isGap hpart with ⟨_, hpaste⟩ | ⟨_, t, ht, hblanks⟩
      · rw [hpaste, List.foldl_cons, seenStep, hsb]
        exact ih hgap
      · rw [hblanks, seen_blanks ht]
        exact ih hgap

theorem seen_gap {sb : Text} (hsb : stripEnd sb = sb) (hgap : ∀ atom ∈ gap, atom.isGap = true) :
    (cells gap).foldl seenStep (false, sb) =
      if Atom.paste true ∈ gap then (true, sb) else (false, sb ++ text (cells gap)) := by
  suffices h : ∀ w : Text, w.all isspace = true → (cells gap).foldl seenStep (false, sb ++ w) =
      if Atom.paste true ∈ gap then (true, sb) else (false, sb ++ w ++ text (cells gap)) by
    have hnil := h [] rfl
    rw [List.append_nil] at hnil
    exact hnil
  induction gap with
  | nil =>
      intro w _
      rw [if_neg List.not_mem_nil]
      exact congrArg (false, ·) (List.append_nil _).symm
  | cons atom gap ih =>
      intro w hw
      obtain ⟨hpart, hrest⟩ := List.forall_mem_cons.mp hgap
      rw [cells_cons, List.foldl_append]
      rcases cells_of_isGap hpart with ⟨rfl, hpaste⟩ | ⟨hne, t, ht, hblanks⟩
      · rw [hpaste, List.foldl_cons, seenStep, stripEnd_append hw, hsb, if_pos List.mem_cons_self]
        exact seen_behind hsb hrest
      · simp only [hblanks, List.mem_cons, hne.symm, false_or, text_append, text_chars]
        rw [seen_chars, List.append_assoc sb, ih hrest (w ++ t) (by rw [List.all_append, hw, ht]; rfl)]
        simp only [List.append_assoc]

/-- A gap begins behind these. -/
def Closed (sb : List Atom) : Prop := ∀ atom ∈ sb.getLast?, atom.isGap = false

theorem stripAtoms_of_closed {sb : List Atom} (hsb : Closed sb) : sb.reverse.dropWhile Atom.isBlank = sb.reverse ∧ stripAtoms sb = sb := by
  rcases List.eq_nil_or_concat sb with rfl | ⟨init, atom, rfl⟩
  · exact ⟨rfl, rfl⟩
  · have hpart := hsb atom (List.concat_eq_append ▸ List.getLast?_concat)
    cases atom with
    | char c =>
        have hdrop : (init.concat (.char c)).reverse.dropWhile Atom.isBlank = (init.concat (.char c)).reverse := by
          rw [List.concat_eq_append, List.reverse_concat]
          exact List.dropWhile_cons_of_neg (ne_true_of_eq_false hpart)
        refine ⟨hdrop, ?_⟩
        rw [stripAtoms, hdrop, List.concat_eq_append, List.reverse_concat]
        show (Atom.char c :: init.reverse).reverse = _
        rw [List.reverse_cons, List.reverse_reverse]
    | paste written => exact absurd hpart nofun
    | empty t ht => exact absurd hpart nofun

theorem stripAtoms_append {sb : List Atom} (hsb : Closed sb) (u : List Atom) : stripAtoms (sb ++ u) = sb ++ stripAtoms u := by
  obtain ⟨hdrop, hstrip⟩ := stripAtoms_of_closed hsb
  rw [stripAtoms, List.reverse_append, List.dropWhile_append, stripAtoms]
  cases hu : u.reverse.dropWhile Atom.isBlank with
  | nil =>
      rw [stripAtoms] at hstrip
      rw [if_pos (show ([] : List Atom).isEmpty = true from rfl), hstrip]
      exact (List.append_nil sb).symm
  | cons atom p =>
      rw [if_neg (show ¬ (atom :: p).isEmpty = true from nofun)]
      cases atom with
      | char _ | paste _ => simp only [List.cons_append, List.reverse_cons, List.reverse_append, List.reverse_reverse, List.append_assoc]
      | empty t ht => simp only [List.cons_append, List.reverse_append, List.reverse_reverse, List.append_assoc]

theorem joinStep_append {sb : List Atom} (hsb : Closed sb) (skip : Bool) (u : List Atom) (atom : Atom) :
    joinStep (skip, sb ++ u) atom = ((joinStep (skip, u) atom).1, sb ++ (joinStep (skip, u) atom).2) := by
  cases atom with
  | char c =>
      rw [joinStep, joinStep]
      split
      · rfl
      · exact congrArg (false, ·) (List.append_assoc ..)
  | paste written => exact congrArg (true, ·) (stripAtoms_append hsb u)
  | empty t ht => exact congrArg (false, ·) (List.append_assoc ..)

/-- What is put for a gap does not depend on what is before it. -/
theorem foldl_joinStep_append {sb : List Atom} (hsb : Closed sb) (s : Bool × List Atom) (gap : List Atom) :
    gap.foldl joinStep (s.1, sb ++ s.2) = ((gap.foldl joinStep s).1, sb ++ (gap.foldl joinStep s).2) := by
  induction gap generalizing s with
  | nil => rfl
  | cons atom gap ih => rw [List.foldl_cons, List.foldl_cons, joinStep_append hsb, ih]

theorem mem_stripAtoms {sb : List Atom} (h : atom ∈ stripAtoms sb) : atom ∈ sb ∨ atom = .empty [] rfl := by
  have hmem : ∀ p ∈ sb.reverse.dropWhile Atom.isBlank, p ∈ sb := fun p hp =>
    List.mem_reverse.mp ((List.dropWhile_suffix _).mem hp)
  rw [stripAtoms] at h
  split at h
  · next heq =>
      rcases List.mem_append.mp h with hinit | hlast
      · exact .inl (hmem atom (heq ▸ List.mem_cons_of_mem _ (List.mem_reverse.mp hinit)))
      · exact .inr (List.mem_singleton.mp hlast)
  · exact .inl (hmem atom (List.mem_reverse.mp h))

/-- No `##` is left, and nothing is new but an empty argument without its blanks. -/
theorem mem_foldl_joinStep {ps : List Atom} {s : Bool × List Atom} (h : atom ∈ (ps.foldl joinStep s).2) :
    atom ∈ s.2 ∨ (atom ∈ ps ∧ ∀ written, atom ≠ .paste written) ∨ atom = .empty [] rfl := by
  induction ps generalizing s with
  | nil => exact .inl h
  | cons p ps ih =>
      rcases ih h with hstep | ⟨hmem, hne⟩ | hempty
      · have hput : atom ∈ (joinStep s p).2 → atom ∈ s.2 ∨ (atom = p ∧ ∀ written, atom ≠ .paste written) ∨ atom = .empty [] rfl := by
          intro hin
          cases p with
          | char c =>
              rw [joinStep] at hin
              split at hin
              · exact .inl hin
              · rcases List.mem_append.mp hin with hs | hlast
                · exact .inl hs
                · exact .inr (.inl ⟨List.mem_singleton.mp hlast, (List.mem_singleton.mp hlast) ▸ nofun⟩)
          | paste written => exact (mem_stripAtoms hin).imp_right .inr
          | empty t ht =>
              rcases List.mem_append.mp (show atom ∈ s.2 ++ [_] from hin) with hs | hlast
              · exact .inl hs
              · have heq := List.mem_singleton.mp hlast
                split at heq
                · exact .inr (.inr heq)
                · exact .inr (.inl ⟨heq, heq ▸ nofun⟩)
        rcases hput hstep with hs | ⟨rfl, hne⟩ | hempty
        · exact .inl hs
        · exact .inr (.inl ⟨List.mem_cons_self, hne⟩)
        · exact .inr (.inr hempty)
      · exact .inr (.inl ⟨List.mem_cons_of_mem _ hmem, hne⟩)
      · exact .inr (.inr hempty)

/-! ## From gap to gap -/

/-- The text with `f` put for each gap. -/
def filled (f : Gap → Text) (gs : List Gap) : Text := gs.flatMap fun g => f g ++ g.after.toList

theorem filled_cons (f : Gap → Text) (g : Gap) (gs : List Gap) : filled f (g :: gs) = f g ++ g.after.toList ++ filled f gs :=
  List.flatMap_cons

theorem Gap.left_none (before : Option Char) (gap : List Atom) :
    Gap.left ⟨before, gap, none⟩ = if Atom.paste true ∈ gap then [] else text (cells gap) := by
  have hapart : staysApart before none = false := Bool.and_false _
  rw [Gap.left, hapart]
  rfl

/-- An atom of a gap goes on with it. -/
theorem gapsFrom_cons {before : Option Char} (h : atom.isGap = true) (gap p : List Atom) :
    gapsFrom before gap (atom :: p) = gapsFrom before (gap ++ [atom]) p := by
  cases atom with
  | char c => rw [gapsFrom, if_pos (show isspace c = true from h)]
  | paste _ | empty _ _ => rfl

theorem forall_isGap_concat (hgap : ∀ p ∈ gap, p.isGap = true) (h : atom.isGap = true) :
    ∀ p ∈ gap ++ [atom], p.isGap = true :=
  List.forall_mem_append.mpr ⟨hgap, fun _ hp => List.mem_singleton.mp hp ▸ h⟩

theorem char_of_not_isGap (h : ¬ atom.isGap = true) : ∃ c, atom = .char c ∧ ¬ isspace c = true := by
  cases atom with
  | char c => exact ⟨c, rfl, h⟩
  | paste _ | empty _ _ => exact absurd rfl h

theorem seen_eq_filled {sb : Text} {p : List Atom} (hgap : ∀ atom ∈ gap, atom.isGap = true) (hsb : stripEnd sb = sb) :
    ((cells (gap ++ p)).foldl seenStep (false, sb)).2 = sb ++ filled Gap.left (gapsFrom sb.getLast? gap p) := by
  induction p generalizing gap sb with
  | nil =>
      rw [List.append_nil, seen_gap hsb hgap]
      show _ = sb ++ filled _ [⟨sb.getLast?, gap, none⟩]
      rw [filled_cons, Gap.left_none]
      split
      · exact (List.append_nil sb).symm
      · exact congrArg (sb ++ ·) ((List.append_nil _).trans (List.append_nil _)).symm
  | cons atom p ih =>
      by_cases hpart : atom.isGap = true
      · rw [gapsFrom_cons hpart, ← ih (forall_isGap_concat hgap hpart) hsb, List.append_assoc]
        rfl
      · obtain ⟨c, rfl, hc⟩ := char_of_not_isGap hpart
        have hput : seenStep ((cells gap).foldl seenStep (false, sb)) (.char c) =
            (false, sb ++ Gap.left ⟨sb.getLast?, gap, some c⟩ ++ [c]) := by
          rw [seen_gap hsb hgap, Gap.left]
          split
          · rw [seenStep, if_neg (show ¬ (true && isspace c) = true from hc), Bool.true_and]
            split
            · rfl
            · rw [List.append_nil]
          · rfl
        rw [cells_append, List.foldl_append, cells_cons, List.foldl_append, Atom.cells, List.foldl_cons, hput, gapsFrom, if_neg hc]
        have hnext := @ih [] (sb ++ Gap.left ⟨sb.getLast?, gap, some c⟩ ++ [c]) (fun _ h => absurd h List.not_mem_nil) (stripEnd_concat hc)
        rw [List.getLast?_concat] at hnext
        rw [filled_cons, ← List.append_assoc, ← List.append_assoc]
        exact hnext

theorem text_foldl_joinStep {sb : List Atom} (hsb : Closed sb) (gap : List Atom) :
    text (cells (gap.foldl joinStep (false, sb)).2) = text (cells sb) ++ text (cells (joinAtoms gap)) := by
  have happend := foldl_joinStep_append hsb (false, []) gap
  rw [List.append_nil] at happend
  rw [happend, cells_append, text_append]
  rfl

theorem joined_eq_filled {sb : List Atom} {p : List Atom} (before : Option Char) (hsb : Closed sb) :
    text (cells ((gap ++ p).foldl joinStep (false, sb)).2) = text (cells sb) ++ filled Gap.due (gapsFrom before gap p) := by
  induction p generalizing gap sb before with
  | nil =>
      rw [List.append_nil, text_foldl_joinStep hsb]
      exact congrArg (text (cells sb) ++ ·) ((List.append_nil _).trans (List.append_nil _)).symm
  | cons atom p ih =>
      by_cases hpart : atom.isGap = true
      · rw [gapsFrom_cons hpart, ← ih before hsb, List.append_assoc]
        rfl
      · obtain ⟨c, rfl, hc⟩ := char_of_not_isGap hpart
        have hput : ∀ s : Bool × List Atom, joinStep s (.char c) = (false, s.2 ++ [.char c]) := fun s => by
          rw [joinStep, if_neg fun hboth => hc (Bool.and_eq_true_iff.mp hboth).2]
        have hclosed : Closed ((gap.foldl joinStep (false, sb)).2 ++ [.char c]) := by
          intro atom hlast
          rw [List.getLast?_concat] at hlast
          exact Option.some_inj.mp hlast ▸ Bool.not_eq_true _ ▸ hc
        have hnext := @ih [] _ (some c) hclosed
        rw [text_cells_concat, text_foldl_joinStep hsb] at hnext
        rw [List.foldl_append, List.foldl_cons, hput, gapsFrom, if_neg hc, filled_cons, ← List.append_assoc, ← List.append_assoc]
        exact hnext

theorem blanks_append_inj {u v s t : Text} {c : Char} (hu : u.all isspace = true) (hv : v.all isspace = true)
    (hc : ¬ isspace c = true) : u ++ c :: s = v ++ c :: t ↔ u = v ∧ s = t := by
  refine ⟨fun h => ?_, fun h => h.1 ▸ h.2 ▸ rfl⟩
  have htake : ∀ w r : Text, w.all isspace = true → (w ++ c :: r).takeWhile isspace = w := fun w r hw => by
    rw [List.takeWhile_append_of_pos (List.all_eq_true.mp hw), List.takeWhile_cons_of_neg hc, List.append_nil]
  have huv : u = v := by rw [← htake u s hu, h, htake v t hv]
  exact ⟨huv, (List.cons.inj (List.append_cancel_left (huv ▸ h))).2⟩

/-- Where only blanks are put for the gaps, these can be told from the text. -/
theorem filled_inj {f f' : Gap → Text} {before : Option Char} {p : List Atom} (hgap : ∀ atom ∈ gap, atom.isGap = true)
    (h : ∀ g : Gap, (∀ atom ∈ g.atoms, atom.isGap = true) → (f g).all isspace = true ∧ (f' g).all isspace = true) :
    filled f (gapsFrom before gap p) = filled f' (gapsFrom before gap p) ↔ ∀ g ∈ gapsFrom before gap p, f g = f' g := by
  induction p generalizing gap before with
  | nil =>
      show filled f [⟨before, gap, none⟩] = filled f' [⟨before, gap, none⟩] ↔ ∀ g ∈ [Gap.mk before gap none], f g = f' g
      rw [filled_cons, filled_cons, List.forall_mem_singleton]
      show f _ ++ [] ++ [] = f' _ ++ [] ++ [] ↔ _
      simp only [List.append_nil]
  | cons atom p ih =>
      by_cases hpart : atom.isGap = true
      · rw [gapsFrom_cons hpart]
        exact ih (forall_isGap_concat hgap hpart)
      · obtain ⟨c, rfl, hc⟩ := char_of_not_isGap hpart
        obtain ⟨hf, hf'⟩ := h ⟨before, gap, some c⟩ hgap
        rw [gapsFrom, if_neg hc, filled_cons, filled_cons, List.append_assoc, List.append_assoc, List.forall_mem_cons,
          ← @ih [] _ fun _ h => absurd h List.not_mem_nil]
        exact blanks_append_inj hf hf' hc

end Gaps

/-! ## What is lost -/

/-- A character that is no blank and not of a `##` of the body. -/
def Mark.stays (m : Mark) : Bool := ! m.2 && ! m.isBlank

theorem countP_dropWhile_isBlank (p : List Mark) : (p.dropWhile Mark.isBlank).countP Mark.stays = p.countP Mark.stays := by
  induction p with
  | nil => rfl
  | cons m p ih =>
      by_cases hm : m.isBlank = true
      · rw [List.dropWhile_cons_of_pos hm, ih, List.countP_cons_of_neg]
        rw [Mark.stays, hm, Bool.not_true, Bool.and_false]
        exact Bool.false_ne_true
      · rw [List.dropWhile_cons_of_neg hm]

theorem countP_pasteEndMarks (sb q : List Mark) : (pasteEndMarks sb q).countP Mark.stays = sb.countP Mark.stays := by
  have hstrip : (stripMarks sb).countP Mark.stays = sb.countP Mark.stays := by
    rw [stripMarks, List.countP_reverse, countP_dropWhile_isBlank, List.countP_reverse]
  rw [pasteEndMarks]
  split
  · rw [List.countP_append, hstrip]
    rfl
  · exact hstrip

theorem countP_pasteMarksLoop_le (n : Nat) (sb p : List Mark) :
    (pasteMarksLoop n sb p).countP Mark.stays ≤ sb.countP Mark.stays + p.countP Mark.stays := by
  induction n generalizing sb p with
  | zero => exact Nat.le_add_right _ _
  | succ n ih =>
      cases p with
      | nil => exact Nat.le_refl _
      | cons m p =>
          rw [pasteMarksLoop]
          split
          · refine Nat.le_trans (ih _ _) ?_
            rw [countP_pasteEndMarks, countP_dropWhile_isBlank]
            exact Nat.add_le_add_left ((List.tail_suffix p).sublist.trans (List.sublist_cons_self m p)).countP_le _
          · refine Nat.le_trans (ih _ _) (Nat.le_of_eq ?_)
            rw [List.countP_append, Nat.add_assoc, ← List.countP_append, List.singleton_append]

theorem marks_dropWhile (cs : List Cell) : marks (cs.dropWhile Cell.isspace) = (marks cs).dropWhile Mark.isBlank := by
  induction cs with
  | nil => rfl
  | cons a cs ih =>
      cases a with
      | paste => rfl
      | char c =>
          by_cases hc : isspace c = true
          · rw [List.dropWhile_cons_of_pos (show (Cell.char c).isspace = true from hc), ih]
            exact (List.dropWhile_cons_of_pos (show Mark.isBlank (c, false) = true from hc)).symm
          · rw [List.dropWhile_cons_of_neg (show ¬ (Cell.char c).isspace = true from hc)]
            exact (List.dropWhile_cons_of_neg (show ¬ Mark.isBlank (c, false) = true from hc)).symm

theorem apart_of_dropWhile {cs : List Cell} (h : (cs.dropWhile Cell.isspace).IsChain Cell.Apart) : cs.IsChain Cell.Apart := by
  induction cs with
  | nil => exact .nil
  | cons a cs ih =>
      by_cases ha : a.isspace = true
      · rw [List.dropWhile_cons_of_pos ha] at h
        refine List.isChain_cons.mpr ⟨fun b _ hhash => ?_, ih h⟩
        rw [hhash] at ha
        exact absurd ha (by decide)
      · rw [List.dropWhile_cons_of_neg ha] at h
        exact h

theorem apart_of_headIs {a : Cell} {cs : List Cell}
    (h : ¬ (a = .char '#' ∧ headIs (· = '#') ((marks cs).map Prod.fst) = true)) : ∀ b ∈ cs.head?, Cell.Apart a b := by
  intro b hb ha
  obtain ⟨p, rfl⟩ := List.head?_eq_some_iff.mp hb
  have hne : headIs (· = '#') ((marks (b :: p)).map Prod.fst) ≠ true := fun hhead => h ⟨ha, hhead⟩
  refine ⟨fun hchar => hne ?_, fun hpaste => hne ?_⟩
  · rw [hchar]
    rfl
  · rw [hpaste]
    rfl

/-- A `#` that is taken for one of a `##` of the body is lost. -/
theorem countP_pasteMarksLoop_lt {cs : List Cell} (h : ¬ cs.IsChain Cell.Apart) {n : Nat} (hn : (marks cs).length ≤ n)
    (sb : List Mark) :
    (pasteMarksLoop n sb (marks cs)).countP Mark.stays < sb.countP Mark.stays + (marks cs).countP Mark.stays := by
  induction n generalizing cs sb with
  | zero =>
      cases cs with
      | nil => exact absurd .nil h
      | cons a cs =>
          cases a with
          | char c => exact absurd hn (Nat.not_succ_le_zero _)
          | paste => exact absurd hn (Nat.not_succ_le_zero _)
  | succ n ih =>
      cases cs with
      | nil => exact absurd .nil h
      | cons a cs =>
          cases a with
          | paste =>
              have hrest : ¬ (cs.dropWhile Cell.isspace).IsChain Cell.Apart := fun hchain =>
                h (List.isChain_cons.mpr ⟨fun _ _ => nofun, apart_of_dropWhile hchain⟩)
              rw [pasteMarksLoop_paste, ← marks_dropWhile]
              have hle : (marks (cs.dropWhile Cell.isspace)).length ≤ n := by
                rw [marks_dropWhile]
                exact Nat.le_trans (List.dropWhile_suffix _).length_le (Nat.le_of_succ_le (Nat.le_of_succ_le_succ hn))
              have hlt := ih hrest hle (pasteEndMarks sb (marks (cs.dropWhile Cell.isspace)))
              rw [countP_pasteEndMarks] at hlt
              rw [marks_dropWhile, countP_dropWhile_isBlank] at hlt
              rw [marks_dropWhile]
              exact hlt
          | char c =>
              by_cases hpair : c = '#' ∧ headIs (· = '#') ((marks cs).map Prod.fst) = true
              · show (pasteMarksLoop (n + 1) sb ((c, false) :: marks cs)).countP _ < _ + ((c, false) :: marks cs).countP _
                rw [pasteMarksLoop, if_pos (Bool.and_eq_true_iff.mpr ⟨decide_eq_true hpair.1, hpair.2⟩), hpair.1,
                  List.countP_cons_of_pos (show Mark.stays ('#', false) = true from rfl)]
                refine Nat.lt_of_le_of_lt (countP_pasteMarksLoop_le _ _ _) ?_
                rw [countP_pasteEndMarks, countP_dropWhile_isBlank]
                exact Nat.add_lt_add_left (Nat.lt_succ_of_le (List.tail_suffix _).sublist.countP_le) _
              · have hrest : ¬ cs.IsChain Cell.Apart := fun hchain =>
                  h (List.isChain_cons.mpr ⟨apart_of_headIs fun hboth => hpair ⟨Cell.char.inj hboth.1, hboth.2⟩, hchain⟩)
                have hlt := ih hrest (Nat.le_of_succ_le_succ hn) (sb ++ [(c, false)])
                show (pasteMarksLoop (n + 1) sb ((c, false) :: marks cs)).countP _ < _ + ((c, false) :: marks cs).countP _
                rw [pasteMarksLoop, if_neg fun hboth =>
                  hpair ⟨of_decide_eq_true (Bool.and_eq_true_iff.mp hboth).1, (Bool.and_eq_true_iff.mp hboth).2⟩]
                rw [List.countP_append, Nat.add_assoc, ← List.countP_append, List.singleton_append] at hlt
                exact hlt

theorem countP_blanks {t : Text} (h : t.all isspace = true) : (marks (t.map .char)).countP Mark.stays = 0 := by
  induction t with
  | nil => rfl
  | cons c t ih =>
      obtain ⟨hc, ht⟩ := Bool.and_eq_true_iff.mp h
      rw [List.map_cons, marks_cons, List.countP_append, ih ht]
      show [(c, false)].countP Mark.stays = 0
      rw [List.countP_singleton, Mark.stays, Mark.isBlank, hc]
      rfl

theorem countP_marks_cells (ps : List Atom) : (marks (cells ps)).countP Mark.stays = ps.countP fun atom => ! atom.isGap := by
  induction ps with
  | nil => rfl
  | cons atom ps ih =>
      have hpart : (marks atom.cells).countP Mark.stays = if (! atom.isGap) = true then 1 else 0 := by
        by_cases hgap : atom.isGap = true
        · rw [if_neg (by rw [hgap]; exact Bool.false_ne_true)]
          rcases cells_of_isGap hgap with ⟨_, hpaste⟩ | ⟨_, t, ht, hblanks⟩
          · rw [hpaste]
            rfl
          · rw [hblanks, countP_blanks ht]
        · obtain ⟨c, rfl, hc⟩ := char_of_not_isGap hgap
          show [(c, false)].countP Mark.stays = if (! isspace c) = true then 1 else 0
          rw [List.countP_singleton]
          rfl
      rw [cells_cons, List.countP_cons, ← ih, marks, List.flatMap_append, List.countP_append, Nat.add_comm]
      exact congrArg _ hpart

theorem countP_stripAtoms (sb : List Atom) :
    (stripAtoms sb).countP (fun atom => ! atom.isGap) = sb.countP fun atom => ! atom.isGap := by
  have hdrop : ∀ p : List Atom, (p.dropWhile Atom.isBlank).countP (fun atom => ! atom.isGap) = p.countP fun atom => ! atom.isGap := by
    intro p
    induction p with
    | nil => rfl
    | cons atom p ih =>
        by_cases hpart : atom.isBlank = true
        · have hgap : atom.isGap = true := by
            cases atom with
            | char c => exact hpart
            | paste _ | empty _ _ => exact absurd hpart nofun
          rw [List.dropWhile_cons_of_pos hpart, ih, List.countP_cons_of_neg (by rw [hgap]; exact Bool.false_ne_true)]
        · rw [List.dropWhile_cons_of_neg hpart]
  rw [← List.countP_reverse (l := sb), ← hdrop sb.reverse, stripAtoms]
  split
  · next heq =>
      rw [heq, List.countP_append, List.countP_reverse]
      rfl
  · rw [List.countP_reverse]

theorem countP_foldl_joinStep (ps : List Atom) (s : Bool × List Atom) :
    (ps.foldl joinStep s).2.countP (fun atom => ! atom.isGap) =
      s.2.countP (fun atom => ! atom.isGap) + ps.countP fun atom => ! atom.isGap := by
  induction ps generalizing s with
  | nil => rfl
  | cons atom ps ih =>
      have hstep : (joinStep s atom).2.countP (fun atom => ! atom.isGap) =
          s.2.countP (fun atom => ! atom.isGap) + [atom].countP fun atom => ! atom.isGap := by
        cases atom with
        | char c =>
            rw [joinStep]
            split
            · next hskip =>
                rw [List.countP_cons_of_neg]
                · rfl
                · rw [show (Atom.char c).isGap = true from (Bool.and_eq_true_iff.mp hskip).2]
                  exact Bool.false_ne_true
            · exact List.countP_append
        | paste written => exact countP_stripAtoms s.2
        | empty t ht =>
            refine List.countP_append.trans (congrArg (s.2.countP (fun atom => ! atom.isGap) + ·) ?_)
            split
            · rfl
            · rfl
      rw [List.foldl_cons, ih, hstep, Nat.add_assoc, ← List.countP_append, List.singleton_append]

theorem countP_joinAtoms (ps : List Atom) :
    (joinAtoms ps).countP (fun atom => ! atom.isGap) = ps.countP fun atom => ! atom.isGap :=
  (countP_foldl_joinStep ps (false, [])).trans (Nat.zero_add _)

/-! ## What is pasted -/

theorem marks_chars (t : Text) : marks (t.map .char) = plain t := by
  induction t with
  | nil => rfl
  | cons c t ih => exact congrArg ((c, false) :: ·) ih

theorem marks_cells_of_not_mem {ps : List Atom} (h : Atom.paste true ∉ ps) : marks (cells ps) = plain (text (cells ps)) := by
  induction ps with
  | nil => rfl
  | cons atom ps ih =>
      obtain ⟨hne, hps⟩ := not_or.mp fun hmem => h (List.mem_cons.mpr hmem)
      have hpart : marks atom.cells = plain (text atom.cells) := by
        cases atom with
        | char c => rfl
        | paste written =>
            cases written with
            | true => exact absurd rfl hne
            | false => rfl
        | empty t ht => rw [Atom.cells, marks_chars, text_chars]
      rw [cells_cons, text_append, plain_append, ← ih hps, ← hpart, marks, List.flatMap_append]
      rfl

theorem not_mem_joinAtoms (ps : List Atom) (written : Bool) : Atom.paste written ∉ joinAtoms ps := fun h => by
  rcases mem_foldl_joinStep h with hnil | ⟨_, hne⟩ | hempty
  · exact absurd hnil List.not_mem_nil
  · exact hne written rfl
  · exact absurd hempty nofun

theorem all_text_gap {gap : List Atom} (h : ∀ atom ∈ gap, atom.isGap = true) (hpaste : Atom.paste true ∉ gap) :
    (text (cells gap)).all isspace = true := by
  induction gap with
  | nil => rfl
  | cons atom gap ih =>
      obtain ⟨hpart, hgap⟩ := List.forall_mem_cons.mp h
      obtain ⟨hne, hmem⟩ := not_or.mp fun hmem => hpaste (List.mem_cons.mpr hmem)
      obtain ⟨rfl, _⟩ | ⟨_, t, ht, hblanks⟩ := cells_of_isGap hpart
      · exact absurd rfl hne
      · rw [cells_cons, text_append, List.all_append, hblanks, text_chars, ht, ih hgap hmem]
        rfl

theorem all_left {g : Gap} (h : ∀ atom ∈ g.atoms, atom.isGap = true) : g.left.all isspace = true := by
  rw [Gap.left]
  split
  · split
    · rfl
    · rfl
  · next hpaste => exact all_text_gap h hpaste

theorem all_due {g : Gap} (h : ∀ atom ∈ g.atoms, atom.isGap = true) : g.due.all isspace = true := by
  refine all_text_gap (fun atom hpart => ?_) (not_mem_joinAtoms _ true)
  rcases mem_foldl_joinStep hpart with hnil | ⟨hmem, _⟩ | rfl
  · exact absurd hnil List.not_mem_nil
  · exact h atom hmem
  · rfl

/-- Over the atoms of any body. -/
theorem pasteMarks_eq_iff (ps : List Atom) :
    pasteMarks (marks (cells ps)) = marks (cells (joinAtoms ps)) ↔
      (cells ps).IsChain Cell.Apart ∧ ∀ g ∈ gaps ps, g.left = g.due := by
  by_cases h : (cells ps).IsChain Cell.Apart
  · have hseen : ((cells ps).foldl seenStep (false, [])).2 = filled Gap.left (gaps ps) :=
      @seen_eq_filled [] [] ps (fun _ h => absurd h List.not_mem_nil) rfl
    have hjoined : text (cells (joinAtoms ps)) = filled Gap.due (gaps ps) :=
      @joined_eq_filled [] [] ps none fun _ h => absurd h (Option.not_mem_none _)
    rw [pasteMarks_of_apart h, marks_cells_of_not_mem (not_mem_joinAtoms ps true), hseen, hjoined]
    have hinj : Function.Injective plain := List.map_injective_iff.mpr fun c d hcd => (Prod.mk.inj hcd).1
    rw [hinj.eq_iff, gaps, filled_inj (fun _ hmem => absurd hmem List.not_mem_nil) fun g hg => ⟨all_left hg, all_due hg⟩]
    exact (and_iff_right h).symm
  · refine iff_of_false (fun heq => ?_) fun hboth => h hboth.1
    have hlt := countP_pasteMarksLoop_lt h (Nat.le_refl _) []
    rw [← pasteMarks, heq, countP_marks_cells, countP_marks_cells, countP_joinAtoms, List.countP_nil, Nat.zero_add] at hlt
    exact absurd hlt (Nat.lt_irrefl _)

theorem foldl_joinStep_of_not_mem {ps : List Atom} (h : ∀ written, Atom.paste written ∉ ps) (sb : List Atom) :
    ps.foldl joinStep (false, sb) = (false, sb ++ ps) := by
  induction ps generalizing sb with
  | nil => rw [List.append_nil]; rfl
  | cons atom ps ih =>
      have hstep : joinStep (false, sb) atom = (false, sb ++ [atom]) := by
        cases atom with
        | char c => rfl
        | paste written => exact absurd List.mem_cons_self (h written)
        | empty t ht => rfl
      rw [List.foldl_cons, hstep, ih fun written hmem => h written (List.mem_cons_of_mem _ hmem), List.append_assoc]
      rfl

/-- A body that is not gone over is right when there is nothing to join. -/
theorem marks_eq_iff {ps : List Atom} (hps : Atom.paste false ∉ ps) :
    marks (cells ps) = marks (cells (joinAtoms ps)) ↔ Atom.paste true ∉ ps := by
  constructor
  · intro heq hmem
    have hmark : ('#', true) ∈ marks (cells ps) :=
      List.mem_flatMap.mpr ⟨.paste, List.mem_flatMap.mpr ⟨_, hmem, List.mem_cons_self⟩, List.mem_cons_self⟩
    rw [heq, marks_cells_of_not_mem (not_mem_joinAtoms ps true)] at hmark
    obtain ⟨c, _, hc⟩ := List.mem_map.mp hmark
    exact absurd (Prod.mk.inj hc).2 nofun
  · intro hmem
    rw [joinAtoms, foldl_joinStep_of_not_mem]
    · rfl
    · intro written
      cases written with
      | true => exact hmem
      | false => exact hps

theorem not_mem_bodyLoop (n : Nat) (p : Text) : Atom.paste false ∉ bodyLoop n p := by
  induction n generalizing p with
  | zero => exact List.not_mem_nil
  | succ n ih =>
      cases p with
      | nil => exact List.not_mem_nil
      | cons c p =>
          rw [bodyLoop]
          split
          · refine List.not_mem_append (fun hmem => ?_) (ih _)
            obtain ⟨_, _, hc⟩ := List.mem_map.mp hmem
            exact absurd hc nofun
          split
          · exact List.not_mem_cons_of_ne_of_not_mem nofun (ih _)
          · exact List.not_mem_cons_of_ne_of_not_mem nofun (ih _)

/-- The `##` of a body are what is pasted, and all that is, for the bodies and arguments
where no other `#` gets next to a `#` and the blanks come out right at each `##`; for a
macro without parameters, where the body has none. -/
theorem pasted_iff (d : Definition) (args raw : List Text) :
    (pasted d args raw).map Prod.fst = (if d.isFunction then substituteMacro d args raw else d.body.toList) ∧
      (Pasted d args raw ↔ Pasteable d args raw) := by
  refine ⟨map_pasted d args raw, ?_⟩
  rw [Pasted, pasted, Pasteable]
  cases hd : d.isFunction with
  | true => exact pasteMarks_eq_iff _
  | false =>
      refine marks_eq_iff ?_
      rw [atoms, hd]
      exact not_mem_bodyLoop _ _

/-- `#define AB a ## b` and `#define TAG(x) x "##"` -/
def plainPaste : Definition := ⟨false, false, false, [], "a ## b"⟩

def quotedPaste : Definition := ⟨true, false, false, ["x"], "x \"##\""⟩

/-- The first is left as it is, and the second takes the `##` out of the string. -/
theorem plainPaste_not_pasted : ¬ Pasted plainPaste [] [] ∧ ¬ Pasted quotedPaste [['1']] [['1']] := by
  rw [Pasted, Pasted]
  exact ⟨by decide +kernel, by decide +kernel⟩

/-- `#define CAT(x, y) x ## y z`: behind an empty argument a blank stays. -/
example : (joinAtoms (atoms ⟨true, false, false, ["x", "y"], "x ## y z"⟩ [['1'], []] [['1'], []])).flatMap Atom.cells =
    "1 z".toList.map Cell.char := by decide +kernel

end Rcc.Preprocess

import Rcc.LineCounts
import Rcc.Steps

/-!
# `__LINE__`, and the markers around included files

A text is expanded with one number for every `__LINE__` in it. So the number is right if
it is the number of the line on which the `__LINE__` is written, and an `Origin` says that
of each character: text that is kept comes from several lines, and a line from all those
that it was written on. In a condition there is no such number.

A marker names a file and the number of the next line in it. The one before an included
file has the number of a line of the file that includes it. Where no file is included,
`line_no` is the number of the line; a text gets the number of the line it begins on.
-/

namespace Rcc.Preprocess

open Lexer (Text isspace isdigit headIs startswith)
open Macros (Table)
open Files (Preprocessor)
open PragmaPack (PackState)

/-! ## Where text is written -/

/-- The written lines of a file. -/
def rawsOf (input : Text) : List Text := splitLines input.length input

/-- The line that a text begins on, and that of each of its characters. -/
structure Origin where
  first : Nat
  places : List Nat

/-- The lines of the characters of a line. The backslashes at its ends are not in it. -/
def placesOf (n : Nat) : List Text → List Nat
  | [] => []
  | [raw] => List.replicate raw.length n
  | raw :: rest => List.replicate (raw.length - 1) n ++ placesOf (n + 1) rest

structure Numbered where
  line : Line
  origin : Origin

def numberFrom : Nat → List Line → List (List Text) → List Numbered
  | n, line :: lines, raws :: groups => ⟨line, n, placesOf n raws⟩ :: numberFrom (n + raws.length) lines groups
  | _, _, _ => []

/-- The lines of a file, with where they are written. -/
def numbered (input : Text) : List Numbered := numberFrom 1 (linesOf input) (joinLines (rawsOf input))

/-- Text that is kept, with a line more; there is a blank between them. -/
def Origin.keep (kept : Origin) (s : FileState) (l : Numbered) : Origin :=
  if s.acc.text = [] then l.origin else ⟨kept.first, kept.places ++ l.origin.first :: l.origin.places⟩

/-- `preprocess_file`, with where the text that is kept is written. -/
def numberedStep (ctx : Context) (s : FileState × Origin) (l : Numbered) : Option (FileState × Origin) :=
  (step ctx s.1 l.line).map fun t => (t, s.2.keep s.1 l)

/-! ## What leads to `__LINE__` -/

/-- The names of a text that are in no literal, with where they begin. -/
def namesFrom : Nat → Nat → Text → List (Nat × Text)
  | 0, _, _ => []
  | _ + 1, _, [] => []
  | n + 1, k, c :: p =>
      if isQuote c then namesFrom n (k + 1 + (literal c p).1.length) (literal c p).2
      else if isIdent1 c then
        (k, c :: p.takeWhile isIdent2) :: namesFrom n (k + 1 + (p.takeWhile isIdent2).length) (p.dropWhile isIdent2)
      else namesFrom n (k + 1) p

def names (text : Text) : List (Nat × Text) := namesFrom text.length 0 text

/-- `__LINE__`, and the macros with such a name in their body. -/
inductive LeadsToLine (t : Table) : Text → Prop where
  | line : LeadsToLine t "__LINE__".toList
  | body {name used : Text} {i k : Nat} (hfind : t.findMacro (String.ofList name) = some i)
      (hused : (k, used) ∈ names (t.entry i).definition.body.toList) (hline : LeadsToLine t used) : LeadsToLine t name

/-- Without the operands of `defined`. -/
def withoutDefined : List (Nat × Text) → List (Nat × Text)
  | [] => []
  | [name] => [name]
  | name :: operand :: rest =>
      if name.2 = "defined".toList then withoutDefined rest else name :: withoutDefined (operand :: rest)

/-! ## What is to hold -/

/-- The names of a text that is expanded, and what is put for `__LINE__` for a name. -/
structure Piece where
  names : List (Nat × Text)
  origin : Origin
  number : Text → Nat

/-- Every `__LINE__` is the number of the line where it is written, or where the macro is
named that it comes from. -/
def Piece.Right (t : Table) (piece : Piece) : Prop :=
  ∀ k name, (k, name) ∈ piece.names → LeadsToLine t name → piece.origin.places[k]? = some (piece.number name)

/-- The text that was kept, when it is put out. -/
def flushed (s : FileState) (kept : Origin) : List Piece :=
  if s.acc.text = [] then [] else [⟨names s.acc.text, kept, fun _ => s.acc.lineNo⟩]

/-- The texts that are put out at a line. -/
def texts (s : FileState) (kept : Origin) (l : Numbered) : List Piece :=
  match hash l.line.text with
  | some _ => flushed s kept
  | none =>
      if s.active then
        if s.acc.text ≠ [] || 0 < countUnmatchedParens l.line.text.length l.line.text then
          if (keep s l.line).acc.parens ≤ 0 then flushed (keep s l.line) (kept.keep s l) else []
        else [⟨names l.line.text, l.origin, fun _ => s.lineNo⟩]
      else flushed s kept

/-- In a condition `__LINE__` is 0, and the body of a macro is expanded as on line 1. -/
def conditionNumber (name : Text) : Nat := if name = "__LINE__".toList then 0 else 1

/-- The condition of a line, at the end of its text. -/
def operand (l : Numbered) (p : Text) : Piece where
  names := withoutDefined (names p)
  origin := ⟨l.origin.first, l.origin.places.drop (l.line.text.length - p.length)⟩
  number := conditionNumber

/-- The condition that decides at a line. -/
def condition? (s : FileState) (l : Numbered) : Option Piece :=
  (hash l.line.text).bind fun p =>
    match directive s.active p with
    | .cond => if s.active then some (operand l (argumentOf "if" p)) else none
    | .elif =>
        if s.conds.head?.any fun ci => ! ci.branchTaken && ci.parentActive then some (operand l (argumentOf "elif" p)) else none
    | _ => none

/-- The file that is named behind an `#include`, and the preprocessor behind the name. -/
def includeOperand (ctx : Context) (s : FileState) (p : Text) : Option (Preprocessor × Text × Bool) :=
  match includeSpec p with
  | some spec => some (s.pp, spec)
  | none =>
      (expandText ⟨ctx.filename, 1⟩ depths s.pp p).bind fun (pp, sb) =>
        (includeSpec ((stripBluepaint sb).dropWhile isspace)).map fun spec => (pp, spec)

/-- The file that is included at a line, and the state in which it is. -/
def included? (ctx : Context) (s : FileState) (l : Numbered) : Option (FileState × Preprocessor × Text × Bool) :=
  (hash l.line.text).bind fun p =>
    if directive s.active p = .include_ then
      (s.flush ctx).bind fun s => (includeOperand ctx s (argumentOf "include" p)).map fun operand => (s, operand)
    else none

/-- The text of an included file is between a marker for its first line and one for the
line behind the `#include`, and its own lines are right. -/
def MarkersRight (ctx : Context) (nested : Preprocessor → PackState → Text → Text → Prop) (s : FileState) (l : Numbered) : Prop :=
  ∀ s₁ pp spec isAngle t, included? ctx s l = some (s₁, pp, spec, isAngle) → step ctx s l.line = some t →
    ∃ path inc text, resolveInclude ctx.fs ctx.fpath spec isAngle = some path ∧ readPpFile ctx.fs path = some inc ∧
      nested pp s₁.pack (fullPath ctx.fs path) inc ∧
      t.out = s₁.out ++ marker 1 spec ++ text ++ marker (l.origin.first + l.line.count) ctx.fpath

def LineRight (ctx : Context) (nested : Preprocessor → PackState → Text → Text → Prop) (s : FileState × Origin) (l : Numbered) : Prop :=
  (∀ piece ∈ texts s.1 s.2 l, piece.Right s.1.pp.table) ∧ (∀ piece ∈ condition? s.1 l, piece.Right s.1.pp.table) ∧
    MarkersRight ctx nested s.1 l

/-- A file by itself. -/
def FileRight (ctx : Context) (nested : Preprocessor → PackState → Text → Text → Prop) (pp : Preprocessor) (pack : PackState)
    (input : Text) : Prop :=
  Steps.Everywhere (numberedStep ctx) (.start pp pack, ⟨0, []⟩) (fun _ => LineRight ctx nested) (numbered input) ∧
    ∀ m, (numbered input).foldlM (numberedStep ctx) (.start pp pack, ⟨0, []⟩) = some m →
      ∀ piece ∈ flushed m.1 m.2, piece.Right m.1.pp.table

/-- What `preprocess_file` works with. -/
def contextOf (fs : FileSystem) (n : Nat) (filename : Text) : Context :=
  ⟨fs, filename, fullPath fs filename, preprocessFile fs n⟩

/-- A file with all that it includes. -/
def LinesRight (fs : FileSystem) : Nat → Preprocessor → PackState → Text → Text → Prop
  | 0, _, _, _, _ => True
  | n + 1, pp, pack, filename, input =>
      pp.isOnceFile (String.ofList (fullPath fs filename)) = true ∨
        FileRight (contextOf fs n filename) (LinesRight fs n) pp pack input

/-! ## When it does -/

/-- Each name that leads to `__LINE__` is on the line that the text begins on. -/
def Piece.OnFirstLine (t : Table) (piece : Piece) : Prop :=
  ∀ k name, (k, name) ∈ piece.names → LeadsToLine t name → piece.origin.places[k]? = some piece.origin.first

/-- There is no `__LINE__`, and names that lead to it are on line 1. -/
def Piece.OnLineOne (t : Table) (piece : Piece) : Prop :=
  ∀ k name, (k, name) ∈ piece.names → LeadsToLine t name → name ≠ "__LINE__".toList ∧ piece.origin.places[k]? = some 1

def LineReady (ctx : Context) (s : FileState × Origin) (l : Numbered) : Prop :=
  (∀ piece ∈ texts s.1 s.2 l, piece.OnFirstLine s.1.pp.table) ∧ (∀ piece ∈ condition? s.1 l, piece.OnLineOne s.1.pp.table) ∧
    included? ctx s.1 l = none

def FileReady (ctx : Context) (pp : Preprocessor) (pack : PackState) (input : Text) : Prop :=
  Steps.Everywhere (numberedStep ctx) (.start pp pack, ⟨0, []⟩) (fun _ => LineReady ctx) (numbered input) ∧
    ∀ m, (numbered input).foldlM (numberedStep ctx) (.start pp pack, ⟨0, []⟩) = some m →
      ∀ piece ∈ flushed m.1 m.2, piece.OnFirstLine m.1.pp.table

/-! ## The lines of a file -/

theorem splitLines_unlines {raws : List Text} (hraws : ∀ raw ∈ raws, OneLine raw) {n : Nat} (hn : (unlines raws).length ≤ n) :
    splitLines n (unlines raws) = raws := by
  induction raws generalizing n with
  | nil =>
      cases n with
      | zero => rfl
      | succ n => rfl
  | cons raw raws ih =>
      have hraw : ∀ c ∈ raw, decide (c ≠ '\n') = true := fun c hc =>
        decide_eq_true fun heq => hraws raw List.mem_cons_self (heq ▸ hc)
      rw [unlines_cons, List.length_append, List.length_cons] at hn
      cases n with
      | zero => omega
      | succ n =>
          have htake : (raw ++ '\n' :: unlines raws).takeWhile (fun c => decide (c ≠ '\n')) = raw := by
            rw [List.takeWhile_append_of_pos hraw]
            exact List.append_nil raw
          have hdrop : (raw ++ '\n' :: unlines raws).dropWhile (fun c => decide (c ≠ '\n')) = '\n' :: unlines raws := by
            rw [List.dropWhile_append_of_pos hraw]
            rfl
          have hsplit : splitLines (n + 1) (raw ++ '\n' :: unlines raws) =
              (raw ++ '\n' :: unlines raws).takeWhile (fun c => decide (c ≠ '\n')) ::
                splitLines n ((raw ++ '\n' :: unlines raws).dropWhile (fun c => decide (c ≠ '\n'))).tail := by
            cases raw with
            | nil => rfl
            | cons c raw => rfl
          rw [unlines_cons, hsplit, htake, hdrop, List.tail_cons, ih (fun r hr => hraws r (List.mem_cons_of_mem _ hr)) (by omega)]

theorem map_numberFrom {n : Nat} {lines : List Line} {groups : List (List Text)} (h : lines.length = groups.length) :
    (numberFrom n lines groups).map Numbered.line = lines := by
  induction lines generalizing n groups with
  | nil =>
      rw [numberFrom]
      · rfl
      · exact fun _ _ _ _ h => absurd h nofun
  | cons line lines ih =>
      cases groups with
      | nil => exact absurd h nofun
      | cons raws groups => rw [numberFrom, List.map_cons, ih (Nat.succ_inj.mp h)]

theorem le_of_mem_placesOf {raws : List Text} {n k : Nat} (h : k ∈ placesOf n raws) : n ≤ k := by
  induction raws generalizing n with
  | nil => exact absurd h List.not_mem_nil
  | cons raw rest ih =>
      cases rest with
      | nil => exact Nat.le_of_eq (List.eq_of_mem_replicate h).symm
      | cons raw' rest =>
          rcases List.mem_append.mp (show k ∈ List.replicate (raw.length - 1) n ++ placesOf (n + 1) (raw' :: rest) from h) with h | h
          · exact Nat.le_of_eq (List.eq_of_mem_replicate h).symm
          · exact Nat.le_of_succ_le (ih h)

/-- A line begins behind those before it. -/
theorem origin_numberFrom {n : Nat} {lines : List Line} {groups : List (List Text)}
    (h : lines.map Line.count = groups.map List.length) {before after : List Numbered} {l : Numbered}
    (hl : numberFrom n lines groups = before ++ l :: after) :
    l.origin.first = n + (before.map fun b => b.line.count).sum ∧ ∀ k ∈ l.origin.places, n ≤ k := by
  induction lines generalizing n groups before with
  | nil =>
      rw [numberFrom] at hl
      · exact absurd hl (by simp)
      · exact fun _ _ _ _ h => absurd h nofun
  | cons line lines ih =>
      cases groups with
      | nil => exact absurd h nofun
      | cons raws groups =>
          obtain ⟨hcount, hrest⟩ := List.cons.inj h
          rw [numberFrom] at hl
          cases before with
          | nil =>
              obtain ⟨rfl, _⟩ := List.cons.inj hl
              exact ⟨rfl, fun k hk => le_of_mem_placesOf hk⟩
          | cons b before =>
              obtain ⟨rfl, htail⟩ := List.cons.inj hl
              obtain ⟨hfirst, hplaces⟩ := ih hrest htail
              refine ⟨?_, fun k hk => Nat.le_trans (Nat.le_add_right _ _) (hplaces k hk)⟩
              rw [hfirst, List.map_cons, List.sum_cons, ← hcount, Nat.add_assoc]

/-! ## The numbers of the code -/

variable {ctx : Context} {s t : FileState} {kept : Origin} {l : Numbered} {p : Text} {count : Nat}

theorem include_none (hnone : includeOperand ctx s p = none) (h : include_ ctx s p = some t) : t.lineNo = s.lineNo ∧ t.acc = s.acc := by
  rw [includeOperand] at hnone
  rw [include_] at h
  split at h
  · next spec isAngle hspec =>
      rw [hspec] at hnone
      cases hnone
  · next hspec =>
      rw [hspec] at hnone
      obtain ⟨⟨pp, sb⟩, hexpand, hrest⟩ := Option.bind_eq_some_iff.mp h
      rw [hexpand] at hnone
      replace hnone : (includeSpec ((stripBluepaint sb).dropWhile isspace)).map (fun spec => (pp, spec)) = none := hnone
      dsimp only at hrest
      rw [Option.map_eq_none_iff.mp hnone] at hrest
      obtain rfl := Option.some_inj.mp hrest
      exact ⟨rfl, rfl⟩

theorem include_some {pp : Preprocessor} {spec : Text} {isAngle : Bool} (hsome : includeOperand ctx s p = some (pp, spec, isAngle))
    (h : include_ ctx s p = some t) : includeFile ctx { s with pp } spec isAngle = some t := by
  rw [includeOperand] at hsome
  rw [include_] at h
  split at h
  · next spec' isAngle' hspec =>
      rw [hspec] at hsome
      obtain ⟨rfl, hrest⟩ := Prod.mk.inj (Option.some_inj.mp hsome)
      obtain ⟨rfl, rfl⟩ := Prod.mk.inj hrest
      exact h
  · next hspec =>
      rw [hspec] at hsome
      obtain ⟨⟨pp', sb⟩, hexpand, hrest⟩ := Option.bind_eq_some_iff.mp h
      rw [hexpand] at hsome
      obtain ⟨spec', hspec', heq⟩ := Option.map_eq_some_iff.mp hsome
      obtain ⟨rfl, rfl⟩ := Prod.mk.inj heq
      dsimp only at hrest
      rw [hspec'] at hrest
      exact hrest

theorem flush_acc (h : s.flush ctx = some t) : t.acc.text = [] := by
  rw [FileState.flush] at h
  split at h
  · next hempty =>
      obtain rfl := Option.some_inj.mp h
      exact hempty
  · obtain ⟨s₁, _, rfl⟩ := Option.map_eq_some_iff.mp h
    rfl

/-- `line_no` is the number of the line, and so is the number that is kept. -/
structure Counted (s : FileState) (kept : Origin) (first : Nat) : Prop where
  lineNo : s.lineNo = first
  acc : s.acc.text ≠ [] → s.acc.lineNo = kept.first

theorem counted_keep (h : Counted s kept l.origin.first) : Counted (keep s l.line) (kept.keep s l) l.origin.first := by
  refine ⟨h.lineNo, fun _ => ?_⟩
  show (if s.acc.text = [] then _ else s.acc : Acc).lineNo = _
  rw [Origin.keep]
  split
  · exact h.lineNo
  · next hkept => exact h.acc hkept

theorem counted_runText (h : Counted s kept l.origin.first) (hrun : runText ctx s l.line = some t) :
    Counted t (kept.keep s l) l.origin.first := by
  refine ⟨(quiet_runText hrun).lineNo.trans h.lineNo, fun hkept => ?_⟩
  rw [runText] at hrun
  split at hrun
  · split at hrun
    · exact absurd (flush_acc hrun) hkept
    · obtain rfl := Option.some_inj.mp hrun
      exact (counted_keep h).acc hkept
  · next hempty =>
      obtain ⟨s₁, hemit, rfl⟩ := Option.map_eq_some_iff.mp hrun
      obtain ⟨_, _, rfl⟩ := Option.map_eq_some_iff.mp hemit
      rw [Bool.or_eq_true, not_or, decide_eq_true_eq, not_not] at hempty
      exact absurd hempty.1 hkept

/-- The number of a line behind one that includes no file. -/
theorem counted_step (h : Counted s kept l.origin.first) (hnone : included? ctx s l = none) (hstep : step ctx s l.line = some t) :
    Counted t (kept.keep s l) (l.origin.first + l.line.count) := by
  obtain ⟨s₁, hturn, rfl⟩ := Option.map_eq_some_iff.mp hstep
  suffices hcounted : Counted s₁ (kept.keep s l) l.origin.first from ⟨congrArg (· + l.line.count) hcounted.lineNo, hcounted.acc⟩
  rw [turn] at hturn
  split at hturn
  · next p hp =>
      obtain ⟨s₂, hflush, hrun⟩ := Option.bind_eq_some_iff.mp hturn
      have hempty := flush_acc hflush
      have hrest : s₁.lineNo = s₂.lineNo ∧ s₁.acc = s₂.acc := by
        by_cases hinclude : directive s₂.active p = .include_
        · rw [runDirective, hinclude] at hrun
          rw [included?, hp, Option.bind_some, ← (quiet_flush hflush).active, if_pos hinclude, hflush] at hnone
          exact include_none (Option.map_eq_none_iff.mp hnone) hrun
        · exact runDirective_lineNo hinclude hrun
      refine ⟨hrest.1.trans ((quiet_flush hflush).lineNo.trans h.lineNo), fun hkept => ?_⟩
      rw [hrest.2] at hkept
      exact absurd hempty hkept
  · split at hturn
    · exact counted_runText h hturn
    · obtain ⟨s₂, hflush, rfl⟩ := Option.map_eq_some_iff.mp hturn
      exact ⟨(quiet_flush hflush).lineNo.trans h.lineNo, fun hkept => absurd (flush_acc hflush) hkept⟩

/-- The number of the next line does not become less. -/
theorem lineNo_step_le (h : step ctx s l.line = some t) : s.lineNo ≤ t.lineNo := by
  obtain ⟨s₁, hturn, rfl⟩ := Option.map_eq_some_iff.mp h
  suffices hle : s.lineNo ≤ s₁.lineNo from Nat.le_trans hle (Nat.le_add_right _ _)
  rw [turn] at hturn
  split at hturn
  · next p hp =>
      obtain ⟨s₂, hflush, hrun⟩ := Option.bind_eq_some_iff.mp hturn
      rw [← (quiet_flush hflush).lineNo]
      by_cases hinclude : directive s₂.active p = .include_
      · rw [runDirective, hinclude] at hrun
        cases hoperand : includeOperand ctx s₂ (argumentOf "include" p) with
        | none => exact Nat.le_of_eq (include_none hoperand hrun).1.symm
        | some operand =>
            obtain ⟨path, _, hread⟩ := Option.bind_eq_some_iff.mp (include_some hoperand hrun)
            obtain ⟨inc, _, hmap⟩ := Option.bind_eq_some_iff.mp hread
            obtain ⟨_, _, rfl⟩ := Option.map_eq_some_iff.mp hmap
            exact Nat.le_add_right _ _
      · exact Nat.le_of_eq (runDirective_lineNo hinclude hrun).1.symm
  · split at hturn
    · exact Nat.le_of_eq (quiet_runText hturn).lineNo.symm
    · obtain ⟨s₂, hflush, rfl⟩ := Option.map_eq_some_iff.mp hturn
      exact Nat.le_of_eq (quiet_flush hflush).lineNo.symm

/-! ## Texts and conditions -/

theorem flushed_number (hacc : s.acc.text ≠ [] → s.acc.lineNo = kept.first) :
    ∀ piece ∈ flushed s kept, ∀ name, piece.number name = piece.origin.first := by
  intro piece hpiece name
  rw [flushed] at hpiece
  split at hpiece
  · exact absurd hpiece List.not_mem_nil
  · next hkept =>
      rw [List.mem_singleton.mp hpiece]
      exact hacc hkept

/-- A text that is put out gets the number of the line it begins on. -/
theorem texts_number (h : Counted s kept l.origin.first) :
    ∀ piece ∈ texts s kept l, ∀ name, piece.number name = piece.origin.first := by
  have hflushed := flushed_number h.acc
  rw [texts]
  split
  · exact hflushed
  split
  · split
    · split
      · exact flushed_number (counted_keep h).acc
      · exact fun piece hpiece => absurd hpiece List.not_mem_nil
    · intro piece hpiece name
      rw [List.mem_singleton.mp hpiece]
      exact h.lineNo
  · exact hflushed

theorem right_iff_onFirstLine {table : Table} {piece : Piece} (h : ∀ name, piece.number name = piece.origin.first) :
    piece.Right table ↔ piece.OnFirstLine table := by
  refine forall_congr' fun k => forall_congr' fun name => forall_congr' fun _ => forall_congr' fun _ => ?_
  rw [h name]

/-- Conditions have the numbers 0 and 1. -/
theorem right_iff_onLineOne {table : Table} {piece : Piece} (h : condition? s l = some piece) (hplaces : ∀ k ∈ l.origin.places, 1 ≤ k) :
    piece.Right table ↔ piece.OnLineOne table := by
  have hoperand : ∃ p, piece = operand l p := by
    obtain ⟨p, _, hdirective⟩ := Option.bind_eq_some_iff.mp h
    split at hdirective
    · split at hdirective
      · exact ⟨_, (Option.some_inj.mp hdirective).symm⟩
      · exact absurd hdirective nofun
    · split at hdirective
      · exact ⟨_, (Option.some_inj.mp hdirective).symm⟩
      · exact absurd hdirective nofun
    · exact absurd hdirective nofun
  obtain ⟨p, rfl⟩ := hoperand
  refine forall_congr' fun k => forall_congr' fun name => forall_congr' fun _ => forall_congr' fun _ => ?_
  show _ = some (if name = "__LINE__".toList then 0 else 1) ↔ _
  split
  · next hname =>
      refine iff_of_false (fun hzero => ?_) fun hne => hne.1 hname
      have hmem := List.mem_of_getElem? hzero
      exact absurd (hplaces 0 (List.mem_of_mem_drop hmem)) (by decide)
  · next hname => exact (and_iff_right hname).symm

/-! ## Markers -/

theorem marker_append (n : Nat) (name rest : Text) :
    marker n name ++ rest = "# ".toList ++ (Nat.toDigits 10 n ++ ' ' :: ('"' :: (name ++ ("\"\n".toList ++ rest)))) := by
  rw [marker, show (toString n).toList = Nat.toDigits 10 n from Nat.toList_repr]
  simp only [List.append_assoc]
  rfl

/-- The number of a marker can be read from the text. -/
theorem marker_inj {a b : Nat} {name name' rest rest' : Text} (h : marker a name ++ rest = marker b name' ++ rest') : a = b := by
  have hdigits : ∀ (n : Nat) (q : Text), (Nat.toDigits 10 n ++ ' ' :: q).takeWhile Char.isDigit = Nat.toDigits 10 n := by
    intro n q
    rw [List.takeWhile_append_of_pos fun c hc => Nat.isDigit_of_mem_toDigits (by decide) (by decide) hc]
    exact List.append_nil _
  rw [marker_append, marker_append] at h
  have htake := congrArg (List.takeWhile Char.isDigit) (List.append_cancel_left h)
  rw [hdigits, hdigits] at htake
  have hvalue := congrArg (fun digits => Nat.ofDigitChars 10 digits 0) htake
  simpa only [Nat.ofDigitChars_toDigits (b := 10) (by decide) (by decide)] using hvalue

/-- The marker before an included file is for a line of the file that includes it. -/
theorem included?_eq_none {nested : Preprocessor → PackState → Text → Text → Prop} (hpos : 1 ≤ s.lineNo)
    (hstep : step ctx s l.line = some t) (hright : MarkersRight ctx nested s l) : included? ctx s l = none := by
  cases hincluded : included? ctx s l with
  | none => rfl
  | some found =>
      obtain ⟨s₁, pp, spec, isAngle⟩ := found
      obtain ⟨_, _, text, _, _, _, hout⟩ := hright s₁ pp spec isAngle t hincluded hstep
      obtain ⟨p, hp, hfound⟩ := Option.bind_eq_some_iff.mp hincluded
      split at hfound
      · next hinclude =>
          obtain ⟨s₂, hflush, hmap⟩ := Option.bind_eq_some_iff.mp hfound
          obtain ⟨operand, hoperand, heq⟩ := Option.map_eq_some_iff.mp hmap
          obtain ⟨rfl, rfl⟩ := Prod.mk.inj heq
          have hquiet := quiet_flush hflush
          obtain ⟨s₃, hturn, rfl⟩ := Option.map_eq_some_iff.mp hstep
          rw [turn, hp] at hturn
          obtain ⟨s₄, hflush', hrun⟩ := Option.bind_eq_some_iff.mp hturn
          obtain rfl := Option.some_inj.mp (hflush.symm.trans hflush')
          rw [runDirective, hquiet.active, hinclude] at hrun
          obtain ⟨path, _, hread⟩ := Option.bind_eq_some_iff.mp (include_some hoperand hrun)
          obtain ⟨inc, _, hmap⟩ := Option.bind_eq_some_iff.mp hread
          obtain ⟨⟨pp', pack, text'⟩, _, rfl⟩ := Option.map_eq_some_iff.mp hmap
          replace hout : s₂.out ++ marker (s₂.lineNo + 1) spec ++ text' ++ marker (s₂.lineNo + 1) ctx.fpath =
            s₂.out ++ marker 1 spec ++ text ++ marker (l.origin.first + l.line.count) ctx.fpath := hout
          simp only [List.append_assoc] at hout
          have hnumber := marker_inj (List.append_cancel_left hout)
          rw [hquiet.lineNo] at hnumber
          omega
      · cases hfound

/-! ## The file -/

variable {pp : Preprocessor} {pack : PackState}

/-- The places are only watched. -/
theorem foldlM_numberedStep (lines : List Numbered) (kept : Origin) :
    (lines.foldlM (numberedStep ctx) (s, kept)).map Prod.fst = (lines.map Numbered.line).foldlM (step ctx) s := by
  induction lines generalizing s kept with
  | nil => rfl
  | cons l lines ih =>
      rw [List.foldlM_cons, List.map_cons, List.foldlM_cons, numberedStep]
      cases h : step ctx s l.line with
      | none => rfl
      | some t => exact ih (s := t) _

/-- Behind lines that include no file the number is right. -/
theorem counted_run {lines : List Numbered} {n : Nat} (hstart : Counted s kept n)
    (hfirst : ∀ before l after, lines = before ++ l :: after → l.origin.first = n + (before.map fun b => b.line.count).sum)
    (hnone : Steps.Everywhere (numberedStep ctx) (s, kept) (fun _ m l => included? ctx m.1 l = none) lines)
    {m : FileState × Origin} (hrun : lines.foldlM (numberedStep ctx) (s, kept) = some m) :
    Counted m.1 m.2 (n + (lines.map fun b => b.line.count).sum) := by
  induction lines using List.reverseRecOn generalizing m with
  | nil =>
      obtain rfl := Option.some_inj.mp hrun
      exact hstart
  | append_singleton before l ih =>
      obtain ⟨m₁, hm₁, hstep⟩ := Steps.foldlM_snoc.mp hrun
      obtain ⟨hbefore, hlast⟩ := (Steps.everywhere_snoc hm₁).mp hnone
      have hcounted := ih (fun b l' after hl => hfirst b l' (after ++ [l]) (by rw [hl, List.append_assoc]; rfl)) hbefore hm₁
      rw [← hfirst before l [] rfl] at hcounted
      obtain ⟨t, ht, rfl⟩ := Option.map_eq_some_iff.mp hstep
      have hnext := counted_step hcounted hlast ht
      rw [hfirst before l [] rfl, Nat.add_assoc] at hnext
      rw [List.map_append, List.sum_append]
      exact hnext

theorem lineNo_run_le {lines : List Numbered} {m : FileState × Origin}
    (hrun : lines.foldlM (numberedStep ctx) (s, kept) = some m) : s.lineNo ≤ m.1.lineNo := by
  refine Steps.invariant (I := fun m => s.lineNo ≤ m.1.lineNo) (fun m l t hle hstep => ?_) (Nat.le_refl _) hrun
  obtain ⟨t, ht, rfl⟩ := Option.map_eq_some_iff.mp hstep
  exact Nat.le_trans hle (lineNo_step_le ht)

section File

variable {nested : Preprocessor → PackState → Text → Text → Prop} {raws : List Text} (hraws : ∀ raw ∈ raws, OneLine raw)
  (hended : Ended raws)

include hraws hended

theorem map_numbered : (numbered (unlines raws)).map Numbered.line = linesOf (unlines raws) := by
  have hlength := congrArg List.length (linesOf_counts hraws hended)
  rw [List.length_map, List.length_map] at hlength
  rw [numbered, rawsOf, splitLines_unlines hraws (Nat.le_refl _), map_numberFrom hlength]

theorem origin_numbered {before after : List Numbered} {l : Numbered} (hl : numbered (unlines raws) = before ++ l :: after) :
    l.origin.first = 1 + (before.map fun b => b.line.count).sum ∧ ∀ k ∈ l.origin.places, 1 ≤ k := by
  rw [numbered, rawsOf, splitLines_unlines hraws (Nat.le_refl _)] at hl
  exact origin_numberFrom (linesOf_counts hraws hended) hl

/-- Where no file is included, `line_no` is the number of the next line. -/
theorem counted_before (hnone : Steps.Everywhere (numberedStep ctx) (.start pp pack, ⟨0, []⟩)
      (fun _ m l => included? ctx m.1 l = none) (numbered (unlines raws)))
    {before after : List Numbered} (hl : numbered (unlines raws) = before ++ after) {m : FileState × Origin}
    (hm : before.foldlM (numberedStep ctx) (.start pp pack, ⟨0, []⟩) = some m) :
    Counted m.1 m.2 (1 + (before.map fun b => b.line.count).sum) := by
  refine counted_run ⟨rfl, fun h => absurd rfl h⟩ (fun b l a hb => ?_) (Steps.everywhere_prefix (hl ▸ hnone)) hm
  have hsplit : numbered (unlines raws) = b ++ l :: (a ++ after) := by rw [hl, hb, List.append_assoc, List.cons_append]
  exact (origin_numbered hraws hended hsplit).1

/-- The lines of a file are right if it includes no other, and names that lead to
`__LINE__` are where their text begins. -/
theorem fileRight_iff_fileReady (hdone : (preprocessLines ctx pp pack (unlines raws)).isSome) :
    FileRight ctx nested pp pack (unlines raws) ↔ FileReady ctx pp pack (unlines raws) := by
  obtain ⟨out, hout⟩ := Option.isSome_iff_exists.mp hdone
  obtain ⟨t, ht, _⟩ := Option.bind_eq_some_iff.mp hout
  have hrun : ∃ m, (numbered (unlines raws)).foldlM (numberedStep ctx) (.start pp pack, ⟨0, []⟩) = some m := by
    rw [← map_numbered hraws hended, ← foldlM_numberedStep _ ⟨0, []⟩] at ht
    obtain ⟨m, hm, _⟩ := Option.map_eq_some_iff.mp ht
    exact ⟨m, hm⟩
  obtain ⟨last, hlast⟩ := hrun
  -- the texts and the conditions of one line
  have hline : Steps.Everywhere (numberedStep ctx) (.start pp pack, ⟨0, []⟩) (fun _ m l => included? ctx m.1 l = none)
      (numbered (unlines raws)) → ∀ before l after m, numbered (unlines raws) = before ++ l :: after →
      before.foldlM (numberedStep ctx) (.start pp pack, ⟨0, []⟩) = some m →
      (∀ piece ∈ texts m.1 m.2 l, piece.Right m.1.pp.table ↔ piece.OnFirstLine m.1.pp.table) ∧
        (∀ piece ∈ condition? m.1 l, piece.Right m.1.pp.table ↔ piece.OnLineOne m.1.pp.table) := by
    intro hnone before l after m hl hm
    obtain ⟨hfirst, hplaces⟩ := origin_numbered hraws hended hl
    have hcounted := counted_before hraws hended hnone hl hm
    rw [← hfirst] at hcounted
    exact ⟨fun piece hpiece => right_iff_onFirstLine (texts_number hcounted piece hpiece),
      fun piece hpiece => right_iff_onLineOne hpiece hplaces⟩
  have hend : Steps.Everywhere (numberedStep ctx) (.start pp pack, ⟨0, []⟩) (fun _ m l => included? ctx m.1 l = none)
      (numbered (unlines raws)) → ∀ m, (numbered (unlines raws)).foldlM (numberedStep ctx) (.start pp pack, ⟨0, []⟩) = some m →
      ∀ piece ∈ flushed m.1 m.2, piece.Right m.1.pp.table ↔ piece.OnFirstLine m.1.pp.table := by
    intro hnone m hm piece hpiece
    have hcounted := counted_before hraws hended hnone (List.append_nil _).symm hm
    exact right_iff_onFirstLine (flushed_number hcounted.acc piece hpiece)
  constructor
  · rintro ⟨hright, hflushed⟩
    have hnone : Steps.Everywhere (numberedStep ctx) (.start pp pack, ⟨0, []⟩) (fun _ m l => included? ctx m.1 l = none)
        (numbered (unlines raws)) := by
      intro before l after m hl hm
      obtain ⟨m', hstep, _⟩ := Steps.foldlM_split hlast hl hm
      obtain ⟨t', ht', _⟩ := Option.map_eq_some_iff.mp hstep
      exact included?_eq_none (lineNo_run_le hm) ht' (hright before l after m hl hm).2.2
    refine ⟨fun before l after m hl hm => ?_, fun m hm piece hpiece => (hend hnone m hm piece hpiece).mp (hflushed m hm piece hpiece)⟩
    obtain ⟨htexts, hconditions⟩ := hline hnone before l after m hl hm
    obtain ⟨hright, hcondition, _⟩ := hright before l after m hl hm
    exact ⟨fun piece hpiece => (htexts piece hpiece).mp (hright piece hpiece),
      fun piece hpiece => (hconditions piece hpiece).mp (hcondition piece hpiece), hnone before l after m hl hm⟩
  · rintro ⟨hready, hflushed⟩
    have hnone : Steps.Everywhere (numberedStep ctx) (.start pp pack, ⟨0, []⟩) (fun _ m l => included? ctx m.1 l = none)
        (numbered (unlines raws)) := fun before l after m hl hm => (hready before l after m hl hm).2.2
    refine ⟨fun before l after m hl hm => ?_, fun m hm piece hpiece => (hend hnone m hm piece hpiece).mpr (hflushed m hm piece hpiece)⟩
    obtain ⟨htexts, hconditions⟩ := hline hnone before l after m hl hm
    obtain ⟨hready, hcondition, hincluded⟩ := hready before l after m hl hm
    refine ⟨fun piece hpiece => (htexts piece hpiece).mpr (hready piece hpiece),
      fun piece hpiece => (hconditions piece hpiece).mpr (hcondition piece hpiece), fun s₁ pp spec isAngle t h => ?_⟩
    rw [hincluded] at h
    exact absurd h nofun

end File

/-- A file with a line that goes on, and no other file. -/
def twoLines : List Text := ["int x = __LINE__ + \\".toList, "  1;".toList, "int y = __LINE__;".toList]

def oneFile : FileSystem := ⟨fun path => if path = "a.h".toList then some "int a;\n".toList else none, fun _ => none, [], [], []⟩

end Rcc.Preprocess

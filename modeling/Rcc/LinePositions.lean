import Rcc.LineCounts
import Rcc.Steps

/-!
# Where the text of a line is put

The output is to have as many line ends before the text of a line as there are written
lines before the line. A line owes as many line ends as it was written on; `text` lines,
`#define`, `#undef` and lines that are not active put out all of them, the other
directives one, or none.

What is put out and what is kept make a sum, and each line adds to it what it puts out.
No line puts out too much, so that a line end that is missing is missing to the end.
-/

namespace Rcc.Preprocess

open Lexer (Text isspace isdigit headIs startswith)
open Macros (Definition Table)
open Files (Preprocessor)
open PragmaPack (PackState)
open FileState (newlines)

def newlineCount (text : Text) : Nat := text.count '\n'

/-! ## What is to hold -/

/-- What was put out before the text of a line. -/
def textStart (ctx : Context) (s : FileState) (line : Line) : Option Text :=
  match hash line.text with
  | some _ => (s.flush ctx).map FileState.out
  | none => some s.out

/-- Text comes from a line that is active and not blank, and from a `#pragma`. -/
def HasText (s : FileState) (line : Line) : Prop :=
  match hash line.text with
  | some p => directive s.active p = .pragma
  | none => s.active = true ∧ line.text.all isspace = false

/-- The text of every line is put behind as many line ends as lines are written before
it, and there are as many as lines in all. -/
def InPlace (ctx : Context) (pp : Preprocessor) (pack : PackState) (raws : List Text) : Prop :=
  Steps.Everywhere (step ctx) (.start pp pack)
      (fun before s line => HasText s line → ∀ out ∈ textStart ctx s line, newlineCount out = writtenBefore raws before.length)
      (linesOf (unlines raws)) ∧
    ∀ t, preprocessLines ctx pp pack (unlines raws) = some t → newlineCount t.out = raws.length

/-- The line ends that `#pragma` puts out. -/
def pragmaNewlines (p : Text) : Nat :=
  if startswith p "once" then 1
  else if startswith p "pack" then
    let q := PragmaPack.skipChar '(' (PragmaPack.skipBlanks (p.drop 4))
    if startswith q "push" || startswith q "pop" || (PragmaPack.digit q).isSome then 1 else 0
  else if startswith p "push_macro" then if headIs (· = '(') (argumentOf "push_macro" p) then 1 else 0
  else if startswith p "pop_macro" then if headIs (· = '(') (argumentOf "pop_macro" p) then 1 else 0
  else 1

/-- The line ends that a directive puts out. -/
def newlinesOf (active : Bool) (count : Nat) (p : Text) : Nat :=
  match directive active p with
  | .define | .undef | .other => count
  | .pragma => pragmaNewlines (argumentOf "pragma" p)
  | .include_ => 0
  | .cond | .elif | .ifdef | .ifndef | .else_ | .endif => 1

/-- A directive puts out the line ends of its line, and no text is put to other text
that is kept. -/
def InStep (s : FileState) (line : Line) : Prop :=
  match hash line.text with
  | some p => newlinesOf s.active line.count p = line.count
  | none => s.active = true → s.acc.text ≠ [] → line.text.all isspace = true

/-- No `#include`, by what the line begins with. -/
def NoInclude (line : Line) : Prop := ∀ p ∈ hash line.text, startswith p "include" = false

/-! ## Line ends in a state -/

/-- No macro has a line end in its body, those that were pushed included. -/
structure OneLineMacros (t : Table) : Prop where
  table : OneLineBodies t
  stack : ∀ ms ∈ t.stack, ∀ d ∈ ms.definition, OneLine d.body.toList

/-- There is no line end in the macros, nor in the text that is kept. -/
structure Flat (s : FileState) : Prop where
  bodies : OneLineMacros s.pp.table
  text : OneLine s.acc.text
  empty : s.acc.text = [] ↔ s.acc.physCount = 0

/-- The line ends that are put out and those that are kept. -/
def FileState.total (s : FileState) : Nat := newlineCount s.out + s.acc.physCount

theorem newlineCount_newlines (n : Nat) : newlineCount (newlines n) = n := by
  rw [newlineCount, newlines, List.count_replicate_self]

theorem newlineCount_append (s t : Text) : newlineCount (s ++ t) = newlineCount s + newlineCount t := List.count_append

theorem newlineCount_oneLine {s : Text} (h : OneLine s) : newlineCount s = 0 := List.count_eq_zero.mpr h

variable {ctx : Context} {s t : FileState} {line : Line} {p : Text} {count : Nat}

theorem total_emit (s : FileState) (text : Text) : (s.emit text).total = s.total + newlineCount text := by
  show newlineCount (s.out ++ text) + s.acc.physCount = _
  rw [newlineCount_append, FileState.total, Nat.add_right_comm]

theorem Flat.emit (h : Flat s) (text : Text) : Flat (s.emit text) := ⟨h.bodies, h.text, h.empty⟩

section Text

variable (hfile : OneLine ctx.filename)

include hfile

theorem flat_emitExpanded {lineNo : Nat} {text : Text} (h : Flat s) (htext : OneLine text)
    (hemit : s.emitExpanded ctx lineNo text = some t) :
    Flat t ∧ t.total = s.total ∧ t.acc = s.acc := by
  obtain ⟨⟨pp, sb⟩, hexpand, rfl⟩ := Option.map_eq_some_iff.mp hemit
  have hsb : OneLine (stripBluepaint sb) :=
    (oneLine_expandText hfile h.bodies.table htext hexpand).sub List.filter_sublist.subset
  refine ⟨⟨?_, h.text, h.empty⟩, ?_, rfl⟩
  · show OneLineMacros pp.table
    rw [(expandText_same hexpand).table]
    exact h.bodies
  · show newlineCount (s.out ++ stripBluepaint sb) + s.acc.physCount = _
    rw [newlineCount_append, newlineCount_oneLine hsb]
    rfl

/-- Nothing is kept any more, and the sum is put out. -/
theorem flat_flush (h : Flat s) (hflush : s.flush ctx = some t) :
    Flat t ∧ newlineCount t.out = s.total ∧ t.acc.text = [] := by
  rw [FileState.flush] at hflush
  split at hflush
  · next hempty =>
      obtain rfl := Option.some_inj.mp hflush
      refine ⟨h, ?_, hempty⟩
      rw [FileState.total, h.empty.mp hempty, Nat.add_zero]
  · obtain ⟨s₁, hemit, rfl⟩ := Option.map_eq_some_iff.mp hflush
    obtain ⟨hflat, htotal, _⟩ := flat_emitExpanded hfile h h.text hemit
    refine ⟨⟨hflat.bodies, .nil, iff_of_true rfl rfl⟩, ?_, rfl⟩
    show newlineCount (s₁.out ++ newlines s₁.acc.physCount) = _
    rw [newlineCount_append, newlineCount_newlines]
    exact htotal

end Text

theorem Flat.total_eq (h : Flat s) (hempty : s.acc.text = []) : s.total = newlineCount s.out := by
  rw [FileState.total, h.empty.mp hempty, Nat.add_zero]

theorem flat_keep (h : Flat s) (hline : OneLine line.text) (hcount : 0 < line.count)
    (htext : s.acc.text ≠ [] ∨ line.text ≠ []) :
    Flat (keep s line) ∧ (keep s line).total = s.total + line.count := by
  have hacc : (keep s line).acc.text = if s.acc.text = [] then line.text else s.acc.text ++ ' ' :: line.text := by
    show (if (if s.acc.text = [] then _ else s.acc : Acc).text = [] then _ else _ ++ _) = _
    split
    · rfl
    · rfl
  have hphys : (keep s line).acc.physCount = s.acc.physCount + line.count := by
    show (if s.acc.text = [] then _ else s.acc : Acc).physCount + _ = _
    split
    · rfl
    · rfl
  have hne : (keep s line).acc.text ≠ [] := by
    rw [hacc]
    split
    · next hempty => exact htext.resolve_left fun hne => hne hempty
    · exact List.append_ne_nil_of_right_ne_nil _ (List.cons_ne_nil _ _)
  refine ⟨⟨h.bodies, ?_, iff_of_false hne ?_⟩, ?_⟩
  · rw [hacc]
    split
    · exact hline
    · exact h.text.append (.cons (by decide) hline)
  · omega
  · rw [FileState.total, hphys, ← Nat.add_assoc]
    rfl

/-- A line of text puts out all of its line ends, or they are kept. -/
theorem flat_runText (hfile : OneLine ctx.filename) (h : Flat s) (hline : OneLine line.text) (hcount : 0 < line.count)
    (hrun : runText ctx s line = some t) : Flat t ∧ t.total = s.total + line.count := by
  rw [runText] at hrun
  split at hrun
  · next hkeep =>
      have htext : s.acc.text ≠ [] ∨ line.text ≠ [] := by
        rcases Bool.or_eq_true_iff.mp hkeep with hacc | hparens
        · exact .inl (of_decide_eq_true hacc)
        · right
          intro hnil
          rw [hnil] at hparens
          exact absurd hparens (by decide)
      obtain ⟨hflat, htotal⟩ := flat_keep h hline hcount htext
      split at hrun
      · obtain ⟨hflushed, hout, hempty⟩ := flat_flush hfile hflat hrun
        exact ⟨hflushed, by rw [hflushed.total_eq hempty, hout, htotal]⟩
      · obtain rfl := Option.some_inj.mp hrun
        exact ⟨hflat, htotal⟩
  · obtain ⟨s₁, hemit, rfl⟩ := Option.map_eq_some_iff.mp hrun
    obtain ⟨hflat, htotal, _⟩ := flat_emitExpanded hfile h hline hemit
    refine ⟨hflat.emit _, ?_⟩
    rw [total_emit, newlineCount_newlines, htotal]

/-! ## Directives -/

theorem oneLine_skipChar (c : Char) (h : OneLine p) : OneLine (skipChar c p) := by
  rw [skipChar]
  split
  · exact h.sub (List.tail_sublist p).subset
  · exact h

theorem oneLine_paramsLoop {n : Nat} {params : List Text} {isVariadic isGnuVariadic : Bool} {before : Text} {r : Params}
    (hp : OneLine p) (h : paramsLoop n params isVariadic isGnuVariadic before p = some r) : OneLine r.rest := by
  induction n generalizing params isVariadic isGnuVariadic before p with
  | zero => exact absurd h nofun
  | succ n ih =>
      have hdots : OneLine (((p.dropWhile isspace).drop 3).dropWhile isspace) := ((hp.dropWhile _).drop 3).dropWhile _
      have hname : OneLine (((p.dropWhile isspace).dropWhile isIdent2).dropWhile isspace) :=
        ((hp.dropWhile _).dropWhile _).dropWhile _
      rw [paramsLoop] at h
      split at h
      · obtain rfl := Option.some_inj.mp h
        exact oneLine_skipChar ')' hp
      dsimp only at h
      split at h
      · split at h
        · exact ih (hdots.sub (List.tail_sublist _ |>.subset)) h
        · obtain rfl := Option.some_inj.mp h
          exact oneLine_skipChar ')' hdots
      · split at h
        · exact ih (hname.sub (List.tail_sublist _ |>.subset)) h
        · exact ih hname h

namespace OneLineMacros

variable {table : Table} {name : String} {d : Definition}

theorem write (h : OneLineMacros table) (i : Nat) (hd : OneLine d.body.toList) (disabled : Bool) :
    OneLineMacros (table.write i d disabled) := by
  refine ⟨fun k => ?_, h.stack⟩
  rw [Table.entry_write]
  split
  · exact hd
  · exact h.table k

theorem put (h : OneLineMacros table) (hd : OneLine d.body.toList) : OneLineMacros (table.put name d) := by
  rw [Table.put]
  split
  · exact h.write _ hd _
  · refine ⟨fun k => ?_, h.stack⟩
    rw [Table.entry_insert]
    split
    · exact hd
    · exact h.table k

theorem undef (h : OneLineMacros table) : OneLineMacros (table.undef name) := by
  refine ⟨fun k => ?_, h.stack⟩
  rw [Table.entry_undef]
  exact h.table k

theorem setVariadic (h : OneLineMacros table) (gnu : Bool) : OneLineMacros (table.setVariadic name gnu) := by
  rw [Table.setVariadic]
  split
  · next i _ => exact h.write i (d := { (table.entry i).definition with isVariadic := true, isGnuVariadic := gnu }) (h.table i) _
  · exact h

theorem pushMacro (h : OneLineMacros table) : OneLineMacros (table.pushMacro name) := by
  refine ⟨h.table, fun ms hms d hd => ?_⟩
  rcases List.mem_cons.mp hms with rfl | hms
  · obtain ⟨i, _, rfl⟩ := Option.map_eq_some_iff.mp hd
    exact h.table i
  · exact h.stack ms hms d hd

theorem popMacro (h : OneLineMacros table) : OneLineMacros (table.popMacro name) := by
  rw [Table.popMacro]
  split
  · exact h
  · next ms hfind =>
      have hpopped : OneLineMacros (table.setStack (table.stack.eraseP fun ms => ms.name = name)) :=
        ⟨h.table, fun ms hms => h.stack ms (List.mem_of_mem_eraseP hms)⟩
      dsimp only
      split
      · exact hpopped.undef
      · next d hd => exact hpopped.put (h.stack ms (List.mem_of_find?_eq_some hfind) d hd)

theorem defineMacro (h : OneLineMacros table) (name : String) (isFunction : Bool) (params : List String) (hp : OneLine p) :
    OneLineMacros (table.defineMacro name isFunction params (String.ofList (trim p))) :=
  h.put (show OneLine (String.ofList (trim p)).toList from String.toList_ofList.symm ▸ hp.trim)

theorem define {table' : Table} (h : OneLineMacros table) (hp : OneLine p) (hdefine : define table p = some table') :
    OneLineMacros table' := by
  have hrest := hp.dropWhile isIdent2
  rw [Preprocess.define] at hdefine
  split at hdefine
  · next q hq =>
      rw [hq] at hrest
      obtain ⟨params, hparams, hlength⟩ := Option.bind_eq_some_iff.mp hdefine
      have hbody := h.defineMacro (String.ofList (p.takeWhile isIdent2)) true (params.params.map String.ofList)
        (oneLine_paramsLoop hrest.tail hparams)
      split at hlength
      · obtain rfl := Option.some_inj.mp hlength
        rw [defineFunction]
        split
        · exact hbody.setVariadic _
        · exact hbody
      · exact absurd hlength nofun
  · obtain rfl := Option.some_inj.mp hdefine
    exact h.defineMacro _ false [] hrest

end OneLineMacros

theorem newlineCount_pragmaPack {pack pack' : PackState} {lines : List PragmaPack.Line}
    (h : PragmaPack.pragmaPack pack p = some (pack', lines)) : newlineCount (lines.flatMap packText) =
      if startswith (PragmaPack.skipChar '(' (PragmaPack.skipBlanks p)) "push" ||
        startswith (PragmaPack.skipChar '(' (PragmaPack.skipBlanks p)) "pop" ||
        (PragmaPack.digit (PragmaPack.skipChar '(' (PragmaPack.skipBlanks p))).isSome then 1 else 0 := by
  have hsome : ∀ n, newlineCount ([PragmaPack.Line.pack (some n)].flatMap packText) = 1 := by
    intro n
    show newlineCount ("# pragma pack(".toList ++ (toString n).toList ++ ")\n".toList ++ []) = 1
    rw [List.append_nil, newlineCount_append, newlineCount_append, newlineCount_oneLine (OneLine.number n)]
    rfl
  have hnone : newlineCount ([PragmaPack.Line.pack none].flatMap packText) = 1 := rfl
  rw [PragmaPack.pragmaPack] at h
  generalize PragmaPack.skipChar '(' (PragmaPack.skipBlanks p) = q at h ⊢
  rcases Bool.eq_false_or_eq_true (startswith q "push") with hpush | hpush
  · rw [hpush, Bool.true_or, Bool.true_or, if_pos rfl]
    rw [if_pos (show List.isPrefixOf ['p', 'u', 's', 'h'] q = true from hpush)] at h
    split at h
    · obtain ⟨_, rfl⟩ := Prod.mk.inj (Option.some_inj.mp h)
      exact hsome _
    · cases h
  rw [if_neg (show ¬ List.isPrefixOf ['p', 'u', 's', 'h'] q = true from Bool.eq_false_iff.mp hpush)] at h
  rcases Bool.eq_false_or_eq_true (startswith q "pop") with hpop | hpop
  · rw [hpush, hpop, Bool.or_true, Bool.true_or, if_pos rfl]
    rw [if_pos (show List.isPrefixOf ['p', 'o', 'p'] q = true from hpop)] at h
    split at h
    · obtain ⟨_, rfl⟩ := Prod.mk.inj (Option.some_inj.mp h)
      exact hnone
    · cases h
  rw [if_neg (show ¬ List.isPrefixOf ['p', 'o', 'p'] q = true from Bool.eq_false_iff.mp hpop)] at h
  rw [hpush, hpop, Bool.or_false, Bool.false_or]
  split at h
  · next n hdigit =>
      obtain ⟨_, rfl⟩ := Prod.mk.inj (Option.some_inj.mp h)
      rw [hdigit, Option.isSome_some, if_pos rfl]
      exact hsome n
  · next hdigit =>
      obtain ⟨_, rfl⟩ := Prod.mk.inj (Option.some_inj.mp h)
      rw [hdigit]
      rfl

/-- So many line ends are put out. -/
structure Puts (s t : FileState) (n : Nat) : Prop where
  flat : Flat t
  total : t.total = s.total + n

theorem Flat.puts (h : Flat s) {text : Text} (hmacros : OneLineMacros t.pp.table) (hacc : t.acc = s.acc)
    (hout : t.out = s.out ++ text) : Puts s t (newlineCount text) := by
  refine ⟨⟨hmacros, hacc ▸ h.text, hacc ▸ h.empty⟩, ?_⟩
  rw [FileState.total, hacc, hout, newlineCount_append, FileState.total, Nat.add_right_comm]

theorem Flat.puts_newlines (h : Flat s) {n : Nat} (hmacros : OneLineMacros t.pp.table) (hacc : t.acc = s.acc)
    (hout : t.out = s.out ++ newlines n) : Puts s t n :=
  newlineCount_newlines n ▸ h.puts hmacros hacc hout

theorem puts_pragmaMacro (h : Flat s) {change : Table → String → Table}
    (hchange : ∀ name, OneLineMacros (change s.pp.table name)) (p : Text) :
    Puts s (pragmaMacro s change p) (if headIs (· = '(') p then 1 else 0) := by
  rw [pragmaMacro.eq_def]
  split
  · exact h.puts_newlines (hchange _) rfl rfl
  · next hparen =>
      have hhead : headIs (· = '(') p = false := by
        cases p with
        | nil => rfl
        | cons c p => exact decide_eq_false fun hc => hparen p (hc ▸ rfl)
      rw [hhead]
      exact ⟨h, rfl⟩

theorem puts_pragma (h : Flat s) (hp : OneLine p) (hpragma : pragma ctx s p = some t) : Puts s t (pragmaNewlines p) := by
  rw [pragma] at hpragma
  rw [pragmaNewlines]
  split at hpragma
  · next honce =>
      obtain rfl := Option.some_inj.mp hpragma
      rw [if_pos honce]
      refine h.puts_newlines ?_ rfl rfl
      show OneLineMacros (s.pp.markOnceFile _).table
      rw [Files.Preprocessor.markOnceFile]
      split
      · exact h.bodies
      · exact h.bodies
  next honce =>
  rw [if_neg honce]
  split at hpragma
  · next hpack =>
      obtain ⟨⟨pack, lines⟩, hlines, rfl⟩ := Option.map_eq_some_iff.mp hpragma
      rw [if_pos hpack]
      dsimp only
      rw [← newlineCount_pragmaPack hlines]
      exact h.puts h.bodies rfl rfl
  next hpack =>
  rw [if_neg hpack]
  split at hpragma
  · next hpush =>
      obtain rfl := Option.some_inj.mp hpragma
      rw [if_pos hpush]
      exact puts_pragmaMacro h (fun _ => h.bodies.pushMacro) _
  next hpush =>
  rw [if_neg hpush]
  split at hpragma
  · next hpop =>
      obtain rfl := Option.some_inj.mp hpragma
      rw [if_pos hpop]
      exact puts_pragmaMacro h (fun _ => h.bodies.popMacro) _
  next hpop =>
  rw [if_neg hpop]
  split at hpragma
  · obtain rfl := Option.some_inj.mp hpragma
    have hone : newlineCount ("# pragma unicode".toList ++ (argumentOf "unicode" p).takeWhile (fun c => ! isspace c) ++ newlines 1) = 1 := by
      have hword : OneLine ((argumentOf "unicode" p).takeWhile fun c => ! isspace c) := ((hp.drop 7).dropWhile isspace).takeWhile _
      rw [newlineCount_append, newlineCount_append, newlineCount_oneLine hword]
      rfl
    exact ⟨h.emit _, by rw [total_emit, hone]⟩
  · obtain rfl := Option.some_inj.mp hpragma
    exact h.puts_newlines h.bodies rfl rfl

theorem puts_elif (h : Flat s) (helif : elif ctx s p = some t) : Puts s t 1 := by
  rw [elif] at helif
  split at helif
  · obtain rfl := Option.some_inj.mp helif
    exact h.puts_newlines h.bodies rfl rfl
  · split at helif
    · obtain rfl := Option.some_inj.mp helif
      exact h.puts_newlines h.bodies rfl rfl
    · obtain ⟨⟨pp, val⟩, heval, rfl⟩ := Option.map_eq_some_iff.mp helif
      refine h.puts_newlines ?_ rfl rfl
      show OneLineMacros pp.table
      rw [(evalCondition_same heval).table]
      exact h.bodies

theorem puts_else (h : Flat s) : Puts s (else_ s) 1 := by
  rw [else_]
  split
  · exact h.puts_newlines h.bodies rfl rfl
  · exact h.puts_newlines h.bodies rfl rfl

theorem puts_endif (h : Flat s) : Puts s (endif s) 1 := by
  rw [endif]
  split
  · exact h.puts_newlines h.bodies rfl rfl
  · exact h.puts_newlines h.bodies rfl rfl

theorem puts_runDirective (h : Flat s) (hp : OneLine p) (hinclude : directive s.active p ≠ .include_)
    (hrun : runDirective ctx s count p = some t) : Puts s t (newlinesOf s.active count p) := by
  have hargument : ∀ name, OneLine (argumentOf name p) := fun name => (hp.drop _).dropWhile _
  rw [runDirective] at hrun
  rw [newlinesOf]
  cases hdirective : directive s.active p with
  | pragma =>
      rw [hdirective] at hrun
      exact puts_pragma h (hargument _) hrun
  | define =>
      rw [hdirective] at hrun
      obtain ⟨table, hdefine, rfl⟩ := Option.map_eq_some_iff.mp hrun
      exact h.puts_newlines (h.bodies.define (hargument _) hdefine) rfl rfl
  | undef =>
      rw [hdirective] at hrun
      obtain rfl := Option.some_inj.mp hrun
      exact h.puts_newlines h.bodies.undef rfl rfl
  | include_ => exact absurd hdirective hinclude
  | cond =>
      rw [hdirective] at hrun
      obtain ⟨⟨pp, val⟩, heval, rfl⟩ := Option.map_eq_some_iff.mp hrun
      refine h.puts_newlines ?_ rfl rfl
      show OneLineMacros pp.table
      rw [(evalCondition_same heval).table]
      exact h.bodies
  | elif =>
      rw [hdirective] at hrun
      exact puts_elif h hrun
  | ifdef | ifndef =>
      rw [hdirective] at hrun
      obtain rfl := Option.some_inj.mp hrun
      exact h.puts_newlines h.bodies rfl rfl
  | else_ =>
      rw [hdirective] at hrun
      obtain rfl := Option.some_inj.mp hrun
      exact puts_else h
  | endif =>
      rw [hdirective] at hrun
      obtain rfl := Option.some_inj.mp hrun
      exact puts_endif h
  | other =>
      rw [hdirective] at hrun
      obtain rfl := Option.some_inj.mp hrun
      exact h.puts_newlines h.bodies rfl rfl

/-! ## The lines -/

/-- A directive puts out the line ends of its line. -/
def Full (s : FileState) (line : Line) : Prop := ∀ p ∈ hash line.text, newlinesOf s.active line.count p = line.count

/-- Nothing is put to text that is kept. -/
def Alone (s : FileState) (line : Line) : Prop :=
  hash line.text = none → s.active = true → s.acc.text ≠ [] → line.text.all isspace = true

theorem inStep_iff : InStep s line ↔ Full s line ∧ Alone s line := by
  rw [InStep, Full, Alone]
  cases hash line.text with
  | some p =>
      refine ⟨fun h => ⟨fun q hq => Option.some_inj.mp hq ▸ h, nofun⟩, fun h => h.1 p rfl⟩
  | none => exact ⟨fun h => ⟨nofun, fun _ => h⟩, fun h => h.2 rfl⟩

theorem newlinesOf_le (active : Bool) (hcount : 0 < count) (p : Text) : newlinesOf active count p ≤ count := by
  have hpragma : ∀ q, pragmaNewlines q ≤ 1 := by
    intro q
    rw [pragmaNewlines]
    split
    · exact Nat.le_refl 1
    split
    · dsimp only
      split
      · exact Nat.le_refl 1
      · exact Nat.zero_le 1
    split
    · split
      · exact Nat.le_refl 1
      · exact Nat.zero_le 1
    split
    · split
      · exact Nat.le_refl 1
      · exact Nat.zero_le 1
    · exact Nat.le_refl 1
  rw [newlinesOf]
  split
  · exact Nat.le_refl count
  · exact Nat.le_refl count
  · exact Nat.le_refl count
  · exact Nat.le_trans (hpragma _) hcount
  · exact Nat.zero_le count
  · exact hcount
  · exact hcount
  · exact hcount
  · exact hcount
  · exact hcount
  · exact hcount

theorem hash_oneLine (hline : OneLine line.text) (hp : hash line.text = some p) : OneLine p := by
  rw [hash] at hp
  split at hp
  · next q hq =>
      obtain rfl := Option.some_inj.mp hp
      have hrest := hline.dropWhile Lexer.isBlank
      rw [hq] at hrest
      exact hrest.tail.dropWhile _
  · exact absurd hp nofun

theorem directive_ne_include (active : Bool) (h : startswith p "include" = false) : directive active p ≠ .include_ := by
  rw [directive, h, Bool.false_and, if_neg Bool.false_ne_true]
  repeat' split
  all_goals exact nofun

/-- What one line puts out. -/
theorem puts_step (hfile : OneLine ctx.filename) (h : Flat s) (hline : OneLine line.text) (hcount : 0 < line.count)
    (hinclude : NoInclude line) (hstep : step ctx s line = some t) :
    ∃ n, Puts s t n ∧ n ≤ line.count ∧ (n = line.count ↔ Full s line) := by
  obtain ⟨s₁, hturn, rfl⟩ := Option.map_eq_some_iff.mp hstep
  suffices hputs : ∃ n, Puts s s₁ n ∧ n ≤ line.count ∧ (n = line.count ↔ Full s line) by
    obtain ⟨n, hn, hrest⟩ := hputs
    exact ⟨n, ⟨⟨hn.flat.bodies, hn.flat.text, hn.flat.empty⟩, hn.total⟩, hrest⟩
  rw [turn] at hturn
  split at hturn
  · next p hp =>
      obtain ⟨s₂, hflush, hrun⟩ := Option.bind_eq_some_iff.mp hturn
      obtain ⟨hflat, hout, hempty⟩ := flat_flush hfile h hflush
      have hactive := (quiet_flush hflush).active
      have hputs := puts_runDirective hflat (hash_oneLine hline hp) (directive_ne_include _ (hinclude p hp)) hrun
      rw [hactive] at hputs
      refine ⟨newlinesOf s.active line.count p, ⟨hputs.flat, ?_⟩, newlinesOf_le _ hcount p, ?_⟩
      · rw [hputs.total, hflat.total_eq hempty, hout]
      · rw [Full, hp]
        exact ⟨fun hn q hq => Option.some_inj.mp hq ▸ hn, fun hfull => hfull p rfl⟩
  · next hnone =>
      have hfull : Full s line := by
        rw [Full, hnone]
        exact nofun
      refine ⟨line.count, ?_, Nat.le_refl _, iff_of_true rfl hfull⟩
      split at hturn
      · obtain ⟨hflat, htotal⟩ := flat_runText hfile h hline hcount hturn
        exact ⟨hflat, htotal⟩
      · obtain ⟨s₂, hflush, rfl⟩ := Option.map_eq_some_iff.mp hturn
        obtain ⟨hflat, hout, hempty⟩ := flat_flush hfile h hflush
        have hputs := hflat.puts_newlines (t := s₂.emit (newlines line.count)) hflat.bodies rfl rfl
        refine ⟨hputs.flat, ?_⟩
        rw [hputs.total, hflat.total_eq hempty, hout]

/-- After a run, the sum is no more than the written lines, and as much if every directive
put out the line ends of its line. -/
theorem puts_run (hfile : OneLine ctx.filename) {start : FileState} (hstart : Flat start) {lines : List Line}
    (hlines : ∀ line ∈ lines, OneLine line.text ∧ 0 < line.count ∧ NoInclude line)
    (hrun : lines.foldlM (step ctx) start = some t) :
    Flat t ∧ t.total ≤ start.total + (lines.map Line.count).sum ∧
      (t.total = start.total + (lines.map Line.count).sum ↔
        Steps.Everywhere (step ctx) start (fun _ => Full) lines) := by
  induction lines using List.reverseRecOn generalizing t with
  | nil =>
      obtain rfl := Option.some_inj.mp hrun
      exact ⟨hstart, Nat.le_refl _, iff_of_true rfl Steps.everywhere_nil⟩
  | append_singleton before line ih =>
      obtain ⟨m, hm, hstep⟩ := Steps.foldlM_snoc.mp hrun
      obtain ⟨hflat, hle, hiff⟩ := ih (fun l hl => hlines l (List.mem_append_left _ hl)) hm
      obtain ⟨hline, hcount, hinclude⟩ := hlines line (List.mem_append_right _ List.mem_cons_self)
      obtain ⟨n, hputs, hn, hfull⟩ := puts_step hfile hflat hline hcount hinclude hstep
      have hsum : ((before ++ [line]).map Line.count).sum = (before.map Line.count).sum + line.count := by
        rw [List.map_append, List.sum_append]
        rfl
      rw [Steps.everywhere_snoc hm, ← hiff, ← hfull, hsum, hputs.total]
      refine ⟨hputs.flat, by omega, by omega⟩

/-- The text of every line is in place, and all line ends are there, if every directive
puts out the line ends of its line and nothing is put to text that is kept. -/
theorem inPlace_iff_inStep {pp : Preprocessor} {pack : PackState} {raws : List Text} (hraws : ∀ raw ∈ raws, OneLine raw)
    (hended : Ended raws) (hfile : OneLine ctx.filename) (hmacros : OneLineMacros pp.table)
    (hinclude : ∀ line ∈ linesOf (unlines raws), NoInclude line)
    (hdone : (preprocessLines ctx pp pack (unlines raws)).isSome) :
    InPlace ctx pp pack raws ↔ Steps.Everywhere (step ctx) (.start pp pack) (fun _ => InStep) (linesOf (unlines raws)) := by
  obtain ⟨t, ht⟩ := Option.isSome_iff_exists.mp hdone
  obtain ⟨m, hm, hflush⟩ := Option.bind_eq_some_iff.mp ht
  have hstart : Flat (.start pp pack) := ⟨hmacros, .nil, iff_of_true rfl rfl⟩
  have hlines : ∀ line ∈ linesOf (unlines raws), OneLine line.text ∧ 0 < line.count ∧ NoInclude line := fun line hline =>
    ⟨linesOf_oneLine line hline, linesOf_count_pos hraws hended line hline, hinclude line hline⟩
  -- the state before a line, when all directives so far put out their line ends
  have hbefore : ∀ before line after s, linesOf (unlines raws) = before ++ line :: after →
      before.foldlM (step ctx) (.start pp pack) = some s →
      Flat s ∧ (Steps.Everywhere (step ctx) (.start pp pack) (fun _ => Full) (linesOf (unlines raws)) →
        s.total = writtenBefore raws before.length) := by
    intro before line after s hl hs
    have hmem : ∀ l ∈ before, l ∈ linesOf (unlines raws) := fun l hmem => hl ▸ List.mem_append_left _ hmem
    obtain ⟨hflat, _, hiff⟩ := puts_run hfile hstart (fun l hmem' => hlines l (hmem l hmem')) hs
    refine ⟨hflat, fun hfull => ?_⟩
    have htotal := hiff.mpr (Steps.everywhere_prefix (hl ▸ hfull))
    rw [sum_counts hraws hended hl] at htotal
    exact htotal.trans (Nat.zero_add _)
  obtain ⟨hflat, _, hiff⟩ := puts_run hfile hstart hlines hm
  have hall : newlineCount t.out = raws.length ↔
      Steps.Everywhere (step ctx) (.start pp pack) (fun _ => Full) (linesOf (unlines raws)) := by
    rw [(flat_flush hfile hflat hflush).2.1, ← hiff, sum_counts_all hraws hended]
    exact ⟨fun h => h.trans (Nat.zero_add _).symm, fun h => h.trans (Nat.zero_add _)⟩
  constructor
  · rintro ⟨hplaces, hcount⟩ before line after s hl hs
    have hfull := hall.mp (hcount t ht)
    obtain ⟨hflat, htotal⟩ := hbefore before line after s hl hs
    refine inStep_iff.mpr ⟨hfull before line after s hl hs, fun hhash hactive hkept => ?_⟩
    by_contra hblank
    have htext : HasText s line := by
      rw [HasText.eq_def, hhash]
      exact ⟨hactive, Bool.eq_false_iff.mpr hblank⟩
    have hstart : textStart ctx s line = some s.out := by rw [textStart, hhash]
    have hout := hplaces before line after s hl hs htext s.out hstart
    have hphys : s.acc.physCount ≠ 0 := fun hzero => hkept (hflat.empty.mpr hzero)
    have hsum : newlineCount s.out + s.acc.physCount = writtenBefore raws before.length := htotal hfull
    omega
  · intro hstep
    have hfull : Steps.Everywhere (step ctx) (.start pp pack) (fun _ => Full) (linesOf (unlines raws)) :=
      fun before line after s hl hs => (inStep_iff.mp (hstep before line after s hl hs)).1
    refine ⟨fun before line after s hl hs htext out hout => ?_, fun t' ht' => ?_⟩
    · obtain ⟨hflat, htotal⟩ := hbefore before line after s hl hs
      rw [← htotal hfull]
      rw [HasText.eq_def] at htext
      rw [textStart] at hout
      cases hhash : hash line.text with
      | some p =>
          rw [hhash] at hout
          obtain ⟨s', hflushed, rfl⟩ := Option.map_eq_some_iff.mp hout
          exact (flat_flush hfile hflat hflushed).2.1
      | none =>
          rw [hhash] at htext hout
          obtain rfl := Option.some_inj.mp hout
          have hempty : s.acc.text = [] := by
            by_contra hkept
            have hblank := (inStep_iff.mp (hstep before line after s hl hs)).2 hhash htext.1 hkept
            exact absurd (hblank.symm.trans htext.2) nofun
          exact (hflat.total_eq hempty).symm
    · obtain rfl := Option.some_inj.mp (ht.symm.trans ht')
      exact hall.mpr hfull

instance (line : Line) : Decidable (NoInclude line) :=
  inferInstanceAs (Decidable (∀ p ∈ hash line.text, startswith p "include" = false))

theorem oneLineMacros_empty : OneLineMacros Table.empty := ⟨fun _ => OneLine.nil, nofun⟩

/-- A macro on two lines, and a condition on one. -/
def definition : List Text := ["#define A \\".toList, " 1".toList, "#if A".toList, "int x = A;".toList, "#endif".toList]

theorem definition_inPlace_iff : InPlace alone noMacros ⟨0, []⟩ definition ↔
    Steps.Everywhere (step alone) (.start noMacros ⟨0, []⟩) (fun _ => InStep) (linesOf (unlines definition)) :=
  inPlace_iff_inStep (by decide) (by decide) (by decide) oneLineMacros_empty (by decide) (by decide +kernel)

/-- A condition on two lines puts out one line end. -/
def condition : List Text := ["#if 1 \\".toList, "".toList, "int x;".toList, "#endif".toList]

theorem condition_not_inPlace : ¬ ∀ (ctx : Context) (pp : Preprocessor) (pack : PackState) (raws : List Text),
    (∀ raw ∈ raws, OneLine raw) → Ended raws → OneLine ctx.filename → OneLineMacros pp.table →
    (∀ line ∈ linesOf (unlines raws), NoInclude line) → (preprocessLines ctx pp pack (unlines raws)).isSome →
    InPlace ctx pp pack raws := by
  intro h
  have hplace := h alone noMacros ⟨0, []⟩ condition (by decide) (by decide) (by decide) oneLineMacros_empty (by decide)
    (by decide +kernel)
  have hout : (preprocessLines alone noMacros ⟨0, []⟩ (unlines condition)).map (fun t => newlineCount t.out) = some 3 := by
    decide +kernel
  obtain ⟨t, ht, hcount⟩ := Option.map_eq_some_iff.mp hout
  exact absurd ((hplace.2 t ht).symm.trans hcount) (by decide)

end Rcc.Preprocess

import Rcc.MacroArrays
import Rcc.MacroHistory

/-!
# What a line does to the macros

Of all that `preprocess_file` does with a line, only four directives write the table of
macros, and each of them one name. So what holds of the definitions that are written holds
of all that are found, and after so many lines not more names are found.
-/

namespace Rcc.Preprocess

open Lexer (Text isspace isdigit headIs startswith)
open Macros (Definition Table Act History)
open Files (Preprocessor)
open FileState (newlines)

/-! ## `#define` -/

/-- What `#define` reads, before the name: the name, and what it stands for. -/
def definitionOf (p : Text) : Option (String × Definition) :=
  match p.dropWhile isIdent2 with
  | '(' :: q =>
      (paramsLoop (q.length + 1) [] false false ('(' :: (p.takeWhile isIdent2).reverse) q).bind fun params =>
        if params.params.length ≤ maxParams then some (String.ofList (p.takeWhile isIdent2), params.definition) else none
  | q => some (String.ofList (p.takeWhile isIdent2), ⟨false, false, false, [], String.ofList (trim q)⟩)

/-- A definition is put into the table. -/
def writeDefinition (t : Table) (m : String × Definition) : Table :=
  t.define m.1 m.2.isFunction m.2.params m.2.body (if m.2.isVariadic then some m.2.isGnuVariadic else none)

theorem definitionOf_function {p q : Text} (h : p.dropWhile isIdent2 = '(' :: q) : definitionOf p =
    (paramsLoop (q.length + 1) [] false false ('(' :: (p.takeWhile isIdent2).reverse) q).bind fun params =>
      if params.params.length ≤ maxParams then some (String.ofList (p.takeWhile isIdent2), params.definition) else none := by
  rw [definitionOf]
  split
  · next q' hq =>
      obtain rfl := (List.cons.inj (hq.symm.trans h)).2
      rfl
  · next hparen => exact absurd h (hparen q)

theorem definitionOf_object {p : Text} (h : headIs (· = '(') (p.dropWhile isIdent2) = false) : definitionOf p =
    some (String.ofList (p.takeWhile isIdent2), ⟨false, false, false, [], String.ofList (trim (p.dropWhile isIdent2))⟩) := by
  rw [definitionOf]
  split
  · next q hq =>
      rw [hq] at h
      cases h
  · rfl

theorem define_eq (t : Table) (p : Text) : define t p = (definitionOf p).map (writeDefinition t) := by
  rw [define]
  split
  · next q hq =>
      rw [definitionOf_function hq]
      cases hloop : paramsLoop (q.length + 1) [] false false ('(' :: (p.takeWhile isIdent2).reverse) q with
      | none => rfl
      | some params =>
          rw [Option.bind_some, Option.bind_some]
          split
          · rw [Option.map_some, writeDefinition, defineFunction, Params.definition]
            cases params.isVariadic with
            | false => rfl
            | true => rfl
          · rfl
  · next hparen =>
      rw [definitionOf_object]
      · rfl
      · cases hrest : p.dropWhile isIdent2 with
        | nil => rfl
        | cons c q => exact decide_eq_false fun hc => hparen q (hc ▸ hrest)

/-- A named variadic is variadic. -/
theorem definitionOf_gnu {p : Text} {m : String × Definition} (h : definitionOf p = some m) :
    m.2.isGnuVariadic = true → m.2.isVariadic = true := by
  rw [definitionOf] at h
  split at h
  · obtain ⟨params, _, hparams⟩ := Option.bind_eq_some_iff.mp h
    obtain ⟨_, hparams⟩ := Option.ite_none_right_eq_some.mp hparams
    obtain rfl := Option.some_inj.mp hparams
    exact fun hgnu => (Bool.and_eq_true_iff.mp hgnu).1
  · obtain rfl := Option.some_inj.mp h
    exact id

theorem defined_self {d : Definition} (hgnu : d.isGnuVariadic = true → d.isVariadic = true) :
    Macros.defined d.isFunction d.params d.body (if d.isVariadic then some d.isGnuVariadic else none) = d := by
  obtain ⟨isFunction, isVariadic, isGnuVariadic, params, body⟩ := d
  cases isVariadic with
  | true => rfl
  | false =>
      cases isGnuVariadic with
      | true => exact absurd (hgnu rfl) Bool.false_ne_true
      | false => rfl

/-! ## Lines -/

/-- The definition that a line is the directive for. -/
def DefinedBy (text : Text) (m : String × Definition) : Prop :=
  ∃ p, hash text = some p ∧ directive true p = .define ∧ definitionOf (argumentOf "define" p) = some m

/-- What a line can do to the macros, if anything. -/
inductive LineAct (text : Text) : Act → Prop
  | define {m : String × Definition} (h : DefinedBy text m) :
      LineAct text (.define m.1 m.2.isFunction m.2.params m.2.body (if m.2.isVariadic then some m.2.isGnuVariadic else none))
  | undef (name : String) : LineAct text (.undef name)
  | pushMacro (name : String) : LineAct text (.pushMacro name)
  | popMacro (name : String) : LineAct text (.popMacro name)

/-- The table after a line. -/
def LineStep (text : Text) (t t' : Table) : Prop := t' = t ∨ ∃ a, LineAct text a ∧ t' = a.apply t

theorem LineStep.same {text : Text} {t : Table} : LineStep text t t := .inl rfl

theorem LineAct.step {text : Text} {a : Act} (h : LineAct text a) (t : Table) : LineStep text t (a.apply t) := .inr ⟨a, h, rfl⟩

theorem directive_true {active : Bool} {p : Text} (h : directive active p = .define) : directive true p = .define := by
  cases active with
  | true => exact h
  | false =>
      rw [directive] at h
      simp only [Bool.and_false, Bool.false_eq_true, if_false] at h
      repeat' (split at h <;> try cases h)

section Step

variable {s s' : FileState} {line : Line} {p : Text} {count : Nat}

theorem pragmaMacro_step (text : Text) (s : FileState) {change : Table → String → Table}
    (hchange : ∀ name, LineStep text s.pp.table (change s.pp.table name)) (p : Text) :
    LineStep text s.pp.table (pragmaMacro s change p).pp.table := by
  rw [pragmaMacro.eq_def]
  split
  · exact hchange _
  · exact .same

theorem pragma_step {ctx : Context} (text : Text) (h : pragma ctx s p = some s') :
    LineStep text s.pp.table s'.pp.table := by
  have hmark : ∀ path, (s.pp.markOnceFile path).table = s.pp.table := by
    intro path
    rw [Preprocessor.markOnceFile]
    split
    · rfl
    · rfl
  rw [pragma] at h
  split at h
  · obtain rfl := Option.some_inj.mp h
    exact (hmark (String.ofList ctx.fpath)).symm ▸ .same
  split at h
  · obtain ⟨⟨pack, lines⟩, _, rfl⟩ := Option.map_eq_some_iff.mp h
    exact .same
  split at h
  · obtain rfl := Option.some_inj.mp h
    exact pragmaMacro_step text s (fun name => (LineAct.pushMacro name).step _) _
  split at h
  · obtain rfl := Option.some_inj.mp h
    exact pragmaMacro_step text s (fun name => (LineAct.popMacro name).step _) _
  split at h
  · obtain rfl := Option.some_inj.mp h
    exact .same
  · obtain rfl := Option.some_inj.mp h
    exact .same

theorem includeFile_alone (s : FileState) (spec : Text) (isAngle : Bool) : includeFile alone s spec isAngle = none := by
  rw [includeFile]
  cases resolveInclude alone.fs alone.fpath spec isAngle with
  | none => rfl
  | some path =>
      rw [Option.bind_some]
      cases readPpFile alone.fs path with
      | none => rfl
      | some inc => rfl

theorem include_step (h : include_ alone s p = some s') : s'.pp.table = s.pp.table := by
  rw [include_] at h
  split at h
  · rw [includeFile_alone] at h
    cases h
  · obtain ⟨⟨pp, sb⟩, hexpand, h⟩ := Option.bind_eq_some_iff.mp h
    dsimp only at h
    split at h
    · rw [includeFile_alone] at h
      cases h
    · obtain rfl := Option.some_inj.mp h
      exact (expandText_same hexpand).table

theorem elif_step {ctx : Context} (h : elif ctx s p = some s') : s'.pp.table = s.pp.table := by
  rw [elif] at h
  split at h
  · obtain rfl := Option.some_inj.mp h
    rfl
  split at h
  · obtain rfl := Option.some_inj.mp h
    rfl
  · obtain ⟨⟨pp, val⟩, heval, rfl⟩ := Option.map_eq_some_iff.mp h
    exact (evalCondition_same heval).table

theorem else_step (s : FileState) : (else_ s).pp.table = s.pp.table := by
  rw [else_]
  split
  · rfl
  · rfl

theorem endif_step (s : FileState) : (endif s).pp.table = s.pp.table := by
  rw [endif]
  split
  · rfl
  · rfl

/-- One case for each directive. -/
theorem runDirective_step {text : Text} (hhash : hash text = some p) (h : runDirective alone s count p = some s') :
    LineStep text s.pp.table s'.pp.table := by
  have hsame : ∀ {t : Table}, t = s.pp.table → LineStep text s.pp.table t := fun heq => heq ▸ .same
  rw [runDirective] at h
  split at h
  · exact pragma_step text h
  · next hdefine =>
      obtain ⟨t, ht, rfl⟩ := Option.map_eq_some_iff.mp h
      rw [define_eq] at ht
      obtain ⟨m, hm, rfl⟩ := Option.map_eq_some_iff.mp ht
      exact (LineAct.define ⟨p, hhash, directive_true hdefine, hm⟩).step _
  · obtain rfl := Option.some_inj.mp h
    exact (LineAct.undef _).step _
  · exact hsame (include_step h)
  · obtain ⟨⟨pp, val⟩, heval, rfl⟩ := Option.map_eq_some_iff.mp h
    exact hsame (evalCondition_same heval).table
  · exact hsame (elif_step h)
  · obtain rfl := Option.some_inj.mp h
    exact .same
  · obtain rfl := Option.some_inj.mp h
    exact .same
  · obtain rfl := Option.some_inj.mp h
    exact hsame (else_step s)
  · obtain rfl := Option.some_inj.mp h
    exact hsame (endif_step s)
  · obtain rfl := Option.some_inj.mp h
    exact .same

theorem step_lineStep (h : step alone s line = some s') : LineStep line.text s.pp.table s'.pp.table := by
  obtain ⟨s₁, hturn, rfl⟩ := Option.map_eq_some_iff.mp h
  show LineStep line.text s.pp.table s₁.pp.table
  rw [turn] at hturn
  split at hturn
  · next p hhash =>
      obtain ⟨s₂, hflush, hrun⟩ := Option.bind_eq_some_iff.mp hturn
      have htable := (quiet_flush hflush).macros.table
      exact htable ▸ runDirective_step hhash hrun
  · split at hturn
    · have htable := (quiet_runText hturn).macros.table
      exact htable ▸ .same
    · obtain ⟨s₂, hflush, rfl⟩ := Option.map_eq_some_iff.mp hturn
      have htable := (quiet_flush hflush).macros.table
      exact htable ▸ .same

end Step

/-! ## Runs -/

/-- What is found, and what is kept on the stack. -/
structure AllMacros (P : String → Definition → Prop) (h : History) : Prop where
  current : ∀ name d, h.current name = some d → P name d
  pushed : ∀ ms ∈ h.pushed, ∀ d, ms.definition = some d → P ms.name d

section Act

variable {text : Text} {a : Act} {h : History} {P : String → Definition → Prop} {dump : List (String × Definition)}

theorem AllMacros.set (hall : AllMacros P h) {name : String} {d : Option Definition} (hd : ∀ d', d = some d' → P name d') :
    AllMacros P (h.set name d) := by
  refine ⟨fun n d' hn => ?_, hall.pushed⟩
  have hset : (if n = name then d else h.current n) = some d' := hn
  split at hset
  · next heq => exact heq ▸ hd d' hset
  · exact hall.current n d' hset

theorem LineAct.allMacros (hact : LineAct text a) (hdefines : ∀ m, DefinedBy text m → P m.1 m.2) (hall : AllMacros P h) :
    AllMacros P (h.after dump a) := by
  cases hact with
  | define hm =>
      obtain ⟨p, _, _, hdefinition⟩ := id hm
      refine hall.set fun d hd => ?_
      rw [defined_self (definitionOf_gnu hdefinition)] at hd
      exact Option.some_inj.mp hd ▸ hdefines _ hm
  | undef name => exact hall.set fun d hd => by cases hd
  | pushMacro name =>
      refine ⟨hall.current, fun ms hms d hd => ?_⟩
      rcases List.mem_cons.mp hms with rfl | hms
      · exact hall.current name d hd
      · exact hall.pushed ms hms d hd
  | popMacro name =>
      rw [History.after]
      split
      · exact hall
      · next ms hfind =>
          have hname : ms.name = name := by simpa using List.find?_some hfind
          have herase : AllMacros P { h with pushed := h.pushed.eraseP fun ms => ms.name = name } :=
            ⟨hall.current, fun ms hms => hall.pushed ms (List.mem_of_mem_eraseP hms)⟩
          exact herase.set fun d hd => hname ▸ hall.pushed ms (List.mem_of_find?_eq_some hfind) d hd

/-- One name is written. -/
theorem LineAct.others (hact : LineAct text a) : ∃ name, ∀ n ≠ name, (h.after dump a).current n = h.current n := by
  cases hact with
  | @define m hm => exact ⟨m.1, fun n hn => if_neg hn⟩
  | undef name => exact ⟨name, fun n hn => if_neg hn⟩
  | pushMacro name => exact ⟨name, fun n _ => rfl⟩
  | popMacro name =>
      refine ⟨name, fun n hn => ?_⟩
      rw [History.after]
      split
      · rfl
      · exact if_neg hn

end Act

/-- A run of lines, as the history is told of it: not more names are written than there are lines, and what
holds of every definition in the lines holds of every macro. -/
theorem run_history {lines : List Line} {s s' : FileState} {h : History} (hrun : lines.foldlM (step alone) s = some s')
    (hI : Macros.Invariant (s.pp.table, h)) : ∃ h', Macros.Invariant (s'.pp.table, h') ∧
      (∃ names : List String, names.length ≤ lines.length ∧ ∀ n ∉ names, h'.current n = h.current n) ∧
      ∀ P : String → Definition → Prop, (∀ line ∈ lines, ∀ m, DefinedBy line.text m → P m.1 m.2) → AllMacros P h → AllMacros P h' := by
  induction lines generalizing s h with
  | nil =>
      obtain rfl := Option.some_inj.mp hrun
      exact ⟨h, hI, ⟨[], Nat.le_refl 0, fun _ _ => rfl⟩, fun _ _ hall => hall⟩
  | cons line lines ih =>
      rw [List.foldlM_cons] at hrun
      obtain ⟨s₁, hstep, hrun⟩ := Option.bind_eq_some_iff.mp hrun
      rcases step_lineStep hstep with hsame | ⟨a, hact, happly⟩
      · obtain ⟨h', hI', ⟨names, hlength, hnames⟩, hall⟩ := ih hrun (hsame ▸ hI)
        exact ⟨h', hI', ⟨names, Nat.le_succ_of_le hlength, hnames⟩, fun P hP =>
          hall P fun line hline => hP line (List.mem_cons_of_mem _ hline)⟩
      · have hallowed : a.Allowed (s.pp.table, h) := by
          cases hact with
          | define | undef | pushMacro | popMacro => trivial
        obtain ⟨h', hI', ⟨names, hlength, hnames⟩, hall⟩ := ih hrun (happly ▸ hI.step hallowed)
        obtain ⟨name, hothers⟩ := @LineAct.others line.text a h s.pp.table.dump hact
        refine ⟨h', hI', ⟨name :: names, Nat.succ_le_succ hlength, fun n hn => ?_⟩, fun P hP hbefore => ?_⟩
        · rw [List.mem_cons, not_or] at hn
          rw [hnames n hn.2, hothers n hn.1]
        · exact hall P (fun line hline => hP line (List.mem_cons_of_mem _ hline))
            (hact.allMacros (hP line List.mem_cons_self) hbefore)

/-! ## Definitions only -/

section Definitions

variable {s : FileState} {line : Line} {m : String × Definition}

theorem step_definedBy (hacc : s.acc.text = []) (hactive : s.active = true) (h : DefinedBy line.text m) :
    ∃ s', step alone s line = some s' ∧ s'.pp.table = writeDefinition s.pp.table m ∧ s'.acc.text = [] ∧ s'.active = true := by
  obtain ⟨p, hhash, hdirective, hdefinition⟩ := h
  have hturn : turn alone s line = some ((s.setTable (writeDefinition s.pp.table m)).emit (newlines line.count)) := by
    rw [turn, hhash]
    show (s.flush alone).bind _ = _
    rw [FileState.flush, if_pos hacc, Option.bind_some, runDirective, hactive, hdirective]
    show (define s.pp.table _).map _ = _
    rw [define_eq, hdefinition]
    rfl
  rw [step, hturn]
  exact ⟨_, rfl, rfl, hacc, hactive⟩

/-- Lines with a definition each. -/
theorem run_definedBy {lines : List Line} {ms : List (String × Definition)} (hacc : s.acc.text = []) (hactive : s.active = true)
    (h : List.Forall₂ (fun line m => DefinedBy line.text m) lines ms) :
    ∃ s', lines.foldlM (step alone) s = some s' ∧ s'.pp.table = ms.foldl writeDefinition s.pp.table ∧ s'.acc.text = [] := by
  induction h generalizing s with
  | nil => exact ⟨s, rfl, rfl, hacc⟩
  | cons hm _ ih =>
      obtain ⟨s₁, hstep, htable, hacc, hactive⟩ := step_definedBy hacc hactive hm
      obtain ⟨s', hrun, htable', hacc'⟩ := ih hacc hactive
      refine ⟨s', ?_, ?_, hacc'⟩
      · rw [List.foldlM_cons, hstep]
        exact hrun
      · rw [htable', htable]
        rfl

theorem lookup_writeDefinition (t : Table) (hgnu : m.2.isGnuVariadic = true → m.2.isVariadic = true) (n : String) :
    (writeDefinition t m).lookup n = if n = m.1 then some m.2 else t.lookup n := by
  rw [writeDefinition, Macros.Table.lookup_define, defined_self hgnu]

/-- What is found when each name is defined once. -/
theorem lookup_definitions {ms : List (String × Definition)} (hgnu : ∀ m ∈ ms, m.2.isGnuVariadic = true → m.2.isVariadic = true)
    (hnodup : (ms.map Prod.fst).Nodup) (t : Table) :
    (∀ m ∈ ms, (ms.foldl writeDefinition t).lookup m.1 = some m.2) ∧
      ∀ n ∉ ms.map Prod.fst, (ms.foldl writeDefinition t).lookup n = t.lookup n := by
  induction ms generalizing t with
  | nil => exact ⟨fun m hm => absurd hm List.not_mem_nil, fun n _ => rfl⟩
  | cons m ms ih =>
      obtain ⟨hm, hms⟩ := List.forall_mem_cons.mp hgnu
      obtain ⟨hnot, hnodup⟩ := List.nodup_cons.mp hnodup
      obtain ⟨hfound, hothers⟩ := ih hms hnodup (writeDefinition t m)
      refine ⟨fun m' hm' => ?_, fun n hn => ?_⟩
      · rcases List.mem_cons.mp hm' with rfl | hm'
        · exact (hothers _ hnot).trans ((lookup_writeDefinition t hm _).trans (if_pos rfl))
        · exact hfound m' hm'
      · rw [List.map_cons, List.mem_cons, not_or] at hn
        exact (hothers n hn.2).trans ((lookup_writeDefinition t hm n).trans (if_neg hn.1))

end Definitions

end Rcc.Preprocess

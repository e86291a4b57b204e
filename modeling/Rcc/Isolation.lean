import Rcc.InputFiles
import Rcc.MacroRenaming

/-!
# Whether the input files are isolated

`Isolated` says that every file of a run gives what it gives alone. It does not
hold of all runs: nothing sets `pp_counter`, `once_files`, the packing, the lines,
the lists of the parser and its counters back before the next file, and of the
macros `clear_macros` sets the list back, not its nodes.

`Restored` says of the state before a file that these are as they were before the
first one. Then the file cannot tell: the table of macros is the same but for the
places of its nodes, the lists of the parser give the same for every name, and
every operation keeps it so and replies alike.
-/

namespace Rcc.Files

open Client (Prog run Simulated Alike run_related run_invariant)
open Macros (Table Entry Definition)
open Macros.Table (Same Renames Kept Hashed)
open PragmaPack (PackState)

variable {D : Type} {cfg : Config D}

/-! ## Preprocessor -/

/-- A directive names a digit. -/
structure Small (pack : PackState) : Prop where
  align : pack.align ≤ 9
  stack : ∀ a ∈ pack.stack, a ≤ 9

theorem digit_le {s : List Char} {n : Nat} (h : PragmaPack.digit s = some n) : n ≤ 9 := by
  rw [PragmaPack.digit.eq_def] at h
  split at h
  · next c _ =>
      split at h
      · next hc =>
          have hle : c.toNat ≤ 57 := hc.2
          have hzero : '0'.toNat = 48 := rfl
          rw [← Option.some_inj.mp h, hzero]
          omega
      · exact absurd h nofun
  · exact absurd h nofun

theorem Small.pragmaPack {pack pack' : PackState} {text : List Char} {lines : List PragmaPack.Line}
    (h : Small pack) (hpack : PragmaPack.pragmaPack pack text = some (pack', lines)) : Small pack' := by
  rw [PragmaPack.pragmaPack] at hpack
  dsimp only at hpack
  split at hpack
  · split at hpack
    · obtain ⟨rfl, _⟩ := Prod.mk.inj (Option.some_inj.mp hpack)
      refine ⟨?_, fun a ha => ?_⟩
      · cases hd : PragmaPack.digit (PragmaPack.skipChar ',' (PragmaPack.skipBlanks
          ((PragmaPack.skipChar '(' (PragmaPack.skipBlanks text)).drop 4))) with
        | none => exact h.align
        | some n => exact digit_le hd
      · rcases List.mem_cons.mp ha with rfl | ha
        · exact h.align
        · exact h.stack a ha
    · cases hpack
  · split at hpack
    · split at hpack
      · next align below hstack =>
          obtain ⟨rfl, _⟩ := Prod.mk.inj (Option.some_inj.mp hpack)
          have hall := h.stack
          rw [hstack] at hall
          exact ⟨hall align List.mem_cons_self, fun a ha => hall a (List.mem_cons_of_mem _ ha)⟩
      · cases hpack
    · split at hpack
      · next n hd =>
          obtain ⟨rfl, _⟩ := Prod.mk.inj (Option.some_inj.mp hpack)
          exact ⟨digit_le hd, h.stack⟩
      · obtain ⟨rfl, _⟩ := Prod.mk.inj (Option.some_inj.mp hpack)
        exact h

/-- No difference can be seen. -/
structure PpSame (s t : Preprocessor × PackState) : Prop where
  table : Same s.1.table t.1.table
  onceFiles : s.1.onceFiles = t.1.onceFiles
  ppCounter : s.1.ppCounter = t.1.ppCounter
  pack : s.2 = t.2
  small : Small s.2

namespace PpSame

variable {p q : Preprocessor} {pack pack' : PackState}

theorem setTable (h : PpSame (p, pack) (q, pack')) {table table' : Table} (ht : Same table table') :
    PpSame (p.setTable table, pack) (q.setTable table', pack') :=
  ⟨ht, h.onceFiles, h.ppCounter, h.pack, h.small⟩

theorem isOnceFile (h : PpSame (p, pack) (q, pack')) (path : String) : p.isOnceFile path = q.isOnceFile path :=
  congrArg (fun l : List String => l.contains path) h.onceFiles

end PpSame

theorem ppStep_same : Simulated ppStep PpSame := by
  rintro op ⟨p, pack⟩ ⟨q, pack'⟩ h
  obtain ⟨place, hren⟩ := h.table
  obtain rfl : pack = pack' := h.pack
  cases op with
  | findMacro name => exact ⟨hren.lookup name, h⟩
  | defineMacro name isFunction params body => exact ⟨rfl, h.setTable (hren.put name _)⟩
  | setVariadic name isGnuVariadic => exact ⟨rfl, h.setTable ⟨place, hren.setVariadic name isGnuVariadic⟩⟩
  | setDisabled name disabled => exact ⟨rfl, h.setTable ⟨place, hren.setDisabled name disabled⟩⟩
  | undef name => exact ⟨rfl, h.setTable ⟨place, hren.undef name⟩⟩
  | pushMacro name => exact ⟨rfl, h.setTable ⟨place, hren.pushMacro name⟩⟩
  | popMacro name => exact ⟨rfl, h.setTable (hren.popMacro name)⟩
  | dumpMacros => exact ⟨hren.dump, h⟩
  | isOnceFile path => exact ⟨h.isOnceFile path, h⟩
  | markOnceFile path =>
      refine ⟨rfl, ?_⟩
      show PpSame (p.markOnceFile path, pack) (q.markOnceFile path, pack)
      rw [Preprocessor.markOnceFile, Preprocessor.markOnceFile, h.isOnceFile]
      split
      · exact h
      · exact ⟨h.table, congrArg (path :: ·) h.onceFiles, h.ppCounter, rfl, h.small⟩
  | counter => exact ⟨h.ppCounter, h.table, h.onceFiles, congrArg (· + 1) h.ppCounter, rfl, h.small⟩
  | pragmaPack text =>
      cases hpack : PragmaPack.pragmaPack pack text with
      | none =>
          rw [ppStep, ppStep, hpack]
          exact ⟨rfl, h⟩
      | some r =>
          rw [ppStep, ppStep, hpack]
          exact ⟨rfl, h.table, h.onceFiles, h.ppCounter, rfl, h.small.pragmaPack hpack⟩

/-! ## Parser -/

/-- The same for every name. -/
def SameNames (l l' : Names D) : Prop := ∀ name, l.find name = l'.find name

theorem SameNames.cons {l l' : Names D} (h : SameNames l l') (name : String) (d : D) :
    SameNames ((name, d) :: l) ((name, d) :: l') := by
  intro n
  rw [Names.find, Names.find, List.find?_cons, List.find?_cons]
  split
  · rfl
  · exact h n

structure ScopeSame (s t : Scope D) : Prop where
  locals : SameNames s.locals t.locals
  typedefs : SameNames s.typedefs t.typedefs
  tags : SameNames s.tags t.tags
  enumConsts : SameNames s.enumConsts t.enumConsts

theorem ScopeSame.restore {s t saved saved' : Scope D} (h : ScopeSame s t) (hsaved : ScopeSame saved saved')
    (c : Construct) : ScopeSame (s.restore saved c) (t.restore saved' c) := by
  cases c with
  | block => exact hsaved
  | forStmt => exact ⟨hsaved.locals, hsaved.typedefs, h.tags, hsaved.enumConsts⟩
  | other => exact ⟨h.locals, h.typedefs, h.tags, hsaved.enumConsts⟩

structure ParserSame (s t : Parser D) : Prop where
  globals : s.globals = t.globals
  strLits : s.strLits = t.strLits
  scope : ScopeSame s.scope t.scope
  strLitCounter : s.strLitCounter = t.strLitCounter
  staticLocalCounter : s.staticLocalCounter = t.staticLocalCounter
  cells : s.cells = t.cells
  frames : List.Forall₂ ScopeSame s.frames t.frames

theorem ParserSame.leave {s t : Parser D} (h : ParserSame s t) (c : Construct) :
    ParserSame (s.leave c) (t.leave c) := by
  have hframes := h.frames
  rw [Parser.leave, Parser.leave]
  cases hs : s.frames with
  | nil =>
      rw [hs] at hframes
      rw [List.forall₂_nil_left_iff.mp hframes]
      exact h
  | cons saved frames =>
      rw [hs] at hframes
      obtain ⟨saved', frames', hsaved, hrest, ht⟩ := List.forall₂_cons_left_iff.mp hframes
      rw [ht]
      exact { h with scope := h.scope.restore hsaved c, frames := hrest }

structure ParseSame (s t : ParseState D) : Prop where
  parser : ParserSame s.parser t.parser
  pack : s.pack = t.pack
  lines : s.lines = t.lines

theorem ParseSame.setScope {s t : ParseState D} (h : ParseSame s t) {scope scope' : Scope D}
    (hscope : ScopeSame scope scope') : ParseSame (s.setScope scope) (t.setScope scope') :=
  { h with parser := { h.parser with scope := hscope } }

theorem parseStep_same : Simulated (parseStep (D := D)) ParseSame := by
  intro op s t h
  have hp := h.parser
  have hs := hp.scope
  cases op with
  | addGlobal name d => exact ⟨rfl, { h with parser := { hp with globals := congrArg ((name, d) :: ·) hp.globals } }⟩
  | findGlobal name => exact ⟨congrArg (fun l : Names D => l.find name) hp.globals, h⟩
  | addLocal name d => exact ⟨rfl, h.setScope { hs with locals := hs.locals.cons name d }⟩
  | findLocal name => exact ⟨hs.locals name, h⟩
  | clearLocals => exact ⟨rfl, h.setScope { hs with locals := fun _ => rfl }⟩
  | addTypedef name d => exact ⟨rfl, h.setScope { hs with typedefs := hs.typedefs.cons name d }⟩
  | findTypedef name => exact ⟨hs.typedefs name, h⟩
  | pushTag name d => exact ⟨rfl, h.setScope { hs with tags := hs.tags.cons name d }⟩
  | findTag name => exact ⟨hs.tags name, h⟩
  | addEnumConst name d => exact ⟨rfl, h.setScope { hs with enumConsts := hs.enumConsts.cons name d }⟩
  | findEnumConst name => exact ⟨hs.enumConsts name, h⟩
  | newStrLit d =>
      exact ⟨hp.strLitCounter, { h with parser := { hp with
        strLits := congrArg (d :: ·) hp.strLits, strLitCounter := congrArg (· + 1) hp.strLitCounter } }⟩
  | staticLocal =>
      exact ⟨hp.staticLocalCounter, { h with parser := { hp with
        staticLocalCounter := congrArg (· + 1) hp.staticLocalCounter } }⟩
  | enter => exact ⟨rfl, { h with parser := { hp with frames := .cons hs hp.frames } }⟩
  | leave c => exact ⟨rfl, { h with parser := hp.leave c }⟩
  | get c => exact ⟨congrFun hp.cells c, h⟩
  | set c d =>
      exact ⟨rfl, { h with parser := { hp with
        cells := congrArg (fun (cells : Cells D) c' => if c' = c then d else cells c') hp.cells } }⟩
  | structPack => exact ⟨congrArg PackState.align h.pack, h⟩
  | packAlign n => exact ⟨rfl, { h with pack := congrArg (fun p : PackState => { p with align := n }) h.pack }⟩
  | lines => exact ⟨h.lines, h⟩

/-! ## Between the files -/

/-- The table of which the snapshot is made. -/
def Config.firstTable (cfg : Config D) : Table := cfg.startTable cfg.initial.pp.table

/-- What nothing sets back is as it was before the first file. -/
structure Restored (cfg : Config D) (s : State D) : Prop where
  /-- the macros of the command line and of the compiler are there, as they were -/
  snapshot : (cfg.startTable s.pp.table).snapshot = cfg.firstTable.snapshot
  onceFiles : s.pp.onceFiles = []
  ppCounter : s.pp.ppCounter = 0
  pack : s.pack = ⟨0, []⟩
  lineOffset : s.lines.lineOffset = 0
  lineNum : s.lines.lineNum = 1
  locals : s.parser.scope.locals = []
  /-- `__builtin_va_list` is declared by `parse` -/
  typedefs : ∀ name, name ≠ "__builtin_va_list" → s.parser.scope.typedefs.find name = cfg.builtins.find name
  tags : s.parser.scope.tags = []
  enumConsts : s.parser.scope.enumConsts = []
  strLitCounter : s.parser.strLitCounter = 0
  staticLocalCounter : s.parser.staticLocalCounter = 0
  /-- the declaration of `__builtin_va_list` does not see the variables, and leaves nothing in them -/
  cells : cfg.optE = false → ∀ align ≤ 9,
    cfg.vaList s.parser.cells align = cfg.vaList (fun _ => none) align

/-- What holds of a state between the files, whatever they are. -/
structure Between (cfg : Config D) (s : State D) : Prop where
  table : s.pp.table = cfg.initial.pp.table ∨ Kept cfg.firstTable s.pp.table
  /-- with `-E` nothing is tokenized and parsed -/
  untouched : cfg.optE = true → s.lines = cfg.initial.lines ∧ s.parser = cfg.initial.parser

theorem ppStep_kept (op : PpOp) (s : Preprocessor × PackState) (h : Kept cfg.firstTable s.1.table) :
    Kept cfg.firstTable (ppStep op s).1.1.table := by
  obtain ⟨p, pack⟩ := s
  cases op with
  | findMacro name => exact h
  | defineMacro name isFunction params body => exact h.put name _
  | setVariadic name isGnuVariadic => exact h.setVariadic name isGnuVariadic
  | setDisabled name disabled => exact h.setDisabled name disabled
  | undef name => exact h.undef name
  | pushMacro name => exact h.setStack _
  | popMacro name => exact h.popMacro name
  | dumpMacros => exact h
  | isOnceFile path => exact h
  | markOnceFile path =>
      show Kept _ (p.markOnceFile path).table
      rw [Preprocessor.markOnceFile]
      split
      · exact h
      · exact h
  | counter => exact h
  | pragmaPack text =>
      rw [ppStep]
      split
      · exact h
      · exact h

/-! ### The first table -/

theorem apply_inited (args : List MacroArg) {t : Table} (h : t.inited = false) :
    (args.foldl MacroArg.apply t).inited = false := by
  induction args generalizing t with
  | nil => exact h
  | cons arg args ih =>
      refine ih ?_
      cases arg with
      | define arg => exact h
      | undef name => exact h

/-- The list is not empty if the command line has macros, and the chains are made of it. -/
structure Starting (t : Table) : Prop where
  hashed : t.Hashed
  stack : t.stack = []
  saved : t.savedMacros = none
  cmdline : t.macros = none → t.cmdlineMacros = none

theorem Starting.put {t : Table} (h : Starting t) (name : String) (definition : Definition) :
    Starting (t.put name definition) := by
  refine ⟨h.hashed.put name definition, ?_, ?_, ?_⟩
  · rw [Table.put]
    split
    · exact h.stack
    · exact h.stack
  · rw [Table.put]
    split
    · exact h.saved
    · exact h.saved
  · rw [Table.put]
    split
    · exact h.cmdline
    · intro hnone
      cases hnone

theorem Starting.apply {t : Table} (h : Starting t) (p : Predefined) : Starting (p.apply t) := by
  rw [Predefined.apply]
  split
  · exact h
  · exact h.put _ _

theorem Starting.foldl {t : Table} (h : Starting t) (l : List Predefined) :
    Starting (l.foldl Predefined.apply t) := by
  induction l generalizing t with
  | nil => exact h
  | cons p l ih => exact ih (h.apply p)

theorem apply_saved (args : List MacroArg) {t : Table} (h : t.savedMacros = none) :
    (args.foldl MacroArg.apply t).savedMacros = none := by
  induction args generalizing t with
  | nil => exact h
  | cons arg args ih =>
      refine ih ?_
      cases arg with
      | define arg => exact h
      | undef name => exact h

/-- Before the snapshot is made. -/
def Config.builtTable (cfg : Config D) : Table :=
  cfg.predefined.foldl Predefined.apply cfg.initial.pp.table.clearMacros

theorem Config.firstTable_eq (cfg : Config D) : cfg.firstTable = cfg.builtTable.save := by
  have hinited : cfg.initial.pp.table.clearMacros.inited = false := apply_inited cfg.args rfl
  rw [Config.firstTable, Config.startTable, hinited]
  rfl

theorem Config.starting (cfg : Config D) : Starting cfg.builtTable := by
  have hsaved : cfg.initial.pp.table.savedMacros = none := apply_saved cfg.args rfl
  refine Starting.foldl ⟨Table.hashed_clearMacros, rfl, hsaved, fun h => ?_⟩ cfg.predefined
  have hstart : cfg.initial.pp.table.start = none := h
  rw [Table.start, hsaved] at hstart
  exact hstart

theorem Config.firstTable_snapped (cfg : Config D) : cfg.firstTable.Snapped := by
  have hbuilt := cfg.starting
  rw [cfg.firstTable_eq]
  exact ⟨rfl, hbuilt.cmdline, hbuilt.hashed, hbuilt.stack⟩

theorem Config.startTable_of_kept {t : Table} (h : Kept cfg.firstTable t) :
    cfg.startTable t = t.clearMacros := by
  have hinited : t.clearMacros.inited = true := by
    rw [h.clearMacros.inited, cfg.firstTable_eq]
    rfl
  rw [Config.startTable, if_pos hinited]

/-- The table is cleared to one that is like the first. -/
theorem Restored.table {s : State D} (h : Restored cfg s) (hs : Between cfg s) :
    Same (cfg.startTable s.pp.table) cfg.firstTable := by
  rcases hs.table with htable | hkept
  · rw [htable]
    exact ⟨id, fun i j _ _ hij => hij, fun i _ => rfl, (List.map_id _).symm, fun name => (List.map_id _).symm, rfl⟩
  · have hsnap := h.snapshot
    rw [Config.startTable_of_kept hkept] at hsnap ⊢
    exact hkept.same_clearMacros cfg.firstTable_snapped hsnap

theorem Restored.small {s : State D} (h : Restored cfg s) : Small s.pack := by
  rw [h.pack]
  exact ⟨Nat.zero_le _, fun a ha => absurd ha List.not_mem_nil⟩

theorem Restored.lines {s : State D} (h : Restored cfg s) : s.lines.start = cfg.initial.lines.start := by
  rw [Lines.start, h.lineOffset, h.lineNum]
  rfl

theorem find_cons_of_ne {name n : String} (h : name ≠ n) (d : D) (l : Names D) :
    Names.find ((n, d) :: l) name = l.find name := by
  rw [Names.find, List.find?_cons_of_neg fun heq => h (of_decide_eq_true heq).symm]
  rfl

theorem Restored.parser {s : State D} (h : Restored cfg s) (hE : cfg.optE = false) {pack : PackState}
    (hpack : pack.align ≤ 9) :
    ParserSame (cfg.startParser s.parser pack) (cfg.startParser cfg.initial.parser pack) := by
  have hcells := h.cells hE pack.align hpack
  refine ⟨rfl, rfl, ⟨?_, ?_, ?_, ?_⟩, h.strLitCounter, h.staticLocalCounter, congrArg Prod.fst hcells, .nil⟩
  · show SameNames s.parser.scope.locals _
    rw [h.locals]
    exact fun _ => rfl
  · intro name
    show Names.find (("__builtin_va_list", (cfg.vaList s.parser.cells pack.align).2) :: _) name =
      Names.find (("__builtin_va_list", (cfg.vaList (fun _ => none) pack.align).2) :: cfg.builtins) name
    rw [hcells]
    by_cases hname : name = "__builtin_va_list"
    · rw [hname]
      rfl
    · rw [find_cons_of_ne hname, find_cons_of_ne hname, h.typedefs name hname]
  · show SameNames s.parser.scope.tags _
    rw [h.tags]
    exact fun _ => rfl
  · show SameNames s.parser.scope.enumConsts _
    rw [h.enumConsts]
    exact fun _ => rfl

theorem Restored.compileText_eq {s : State D} (h : Restored cfg s) (f : File D) (pp pp' : Preprocessor)
    {pack : PackState} (hpack : pack.align ≤ 9) (text : String) :
    (cfg.compileText s f pp pack text).map Prod.snd =
      (cfg.compileText cfg.initial f pp' pack text).map Prod.snd := by
  rw [Config.compileText, Config.compileText, h.lines]
  split
  · rfl
  · next hE =>
    cases run lexStep (f.tokenize text) cfg.initial.lines.start with
    | none => rfl
    | some r =>
        obtain ⟨lines, tokens⟩ := r
        have hparse := run_related parseStep_same (f.parse tokens)
          (show ParseSame ⟨cfg.startParser s.parser pack, pack, lines⟩
            ⟨cfg.startParser cfg.initial.parser pack, pack, lines⟩ from
            ⟨h.parser (eq_false_of_ne_true hE) hpack, rfl, rfl⟩)
        rw [Option.bind_some, Option.bind_some, Option.map_map, Option.map_map]
        exact hparse.map_eq fun _ _ _ _ => rfl

/-- A file gives what it gives alone. -/
theorem Restored.output_eq {s : State D} (h : Restored cfg s) (hs : Between cfg s) (f : File D) :
    cfg.output s f = cfg.output cfg.initial f := by
  have hpp := run_related ppStep_same f.preprocess
    (show PpSame (cfg.startPp s) (cfg.startPp cfg.initial) from
      ⟨h.table hs, h.onceFiles, h.ppCounter, h.pack, h.small⟩)
  rw [Config.output, Config.output, Config.compile, Config.compile, Option.map_bind, Option.map_bind]
  refine hpp.bind_eq ?_
  rintro ⟨pp, pack⟩ ⟨pp', pack'⟩ text hsame
  obtain rfl : pack = pack' := hsame.pack
  exact h.compileText_eq f pp pp' hsame.small.align text

theorem Between.start {s : State D} (h : Between cfg s) : Kept cfg.firstTable (cfg.startTable s.pp.table) := by
  rcases h.table with htable | hkept
  · rw [htable]
    exact Kept.refl _
  · rw [Config.startTable_of_kept hkept]
    exact hkept.clearMacros

theorem compileText_pp {s t : State D} {f : File D} {pp : Preprocessor} {pack : PackState} {text : String}
    {out : Output} (h : cfg.compileText s f pp pack text = some (t, out)) :
    t.pp = pp ∧ (cfg.optE = true → t.lines = s.lines ∧ t.parser = s.parser) := by
  rw [Config.compileText] at h
  split at h
  · obtain ⟨rfl, _⟩ := Prod.mk.inj (Option.some_inj.mp h)
    exact ⟨rfl, fun _ => ⟨rfl, rfl⟩⟩
  · next hE =>
      obtain ⟨⟨lines, tokens⟩, _, h⟩ := Option.bind_eq_some_iff.mp h
      obtain ⟨⟨p, tree⟩, _, h⟩ := Option.map_eq_some_iff.mp h
      obtain ⟨rfl, _⟩ := Prod.mk.inj h
      exact ⟨rfl, fun h => absurd h hE⟩

theorem Between.compile {s t : State D} (h : Between cfg s) {f : File D}
    (hstep : (cfg.compile s f).map Prod.fst = some t) : Between cfg t := by
  obtain ⟨⟨t', out⟩, hcompile, rfl⟩ := Option.map_eq_some_iff.mp hstep
  obtain ⟨⟨⟨pp, pack⟩, text⟩, hpp, hrest⟩ := Option.bind_eq_some_iff.mp hcompile
  have hkept : Kept cfg.firstTable pp.table := run_invariant (I := fun s => Kept cfg.firstTable s.1.table)
    ppStep_kept f.preprocess h.start hpp
  obtain ⟨htable, huntouched⟩ := compileText_pp hrest
  refine ⟨.inr ?_, fun hE => ?_⟩
  · show Kept cfg.firstTable t'.pp.table
    rw [htable]
    exact hkept
  · rw [(huntouched hE).1, (huntouched hE).2]
    exact h.untouched hE

theorem between_after {files : List (File D)} {s : State D} (h : cfg.after files = some s) : Between cfg s :=
  Steps.invariant (fun _ _ _ hs hstep => hs.compile hstep) ⟨.inl rfl, fun _ => ⟨rfl, rfl⟩⟩ h

/-! ## What a file can tell -/

/-- No file that comes next can tell. -/
def Unseen (cfg : Config D) (s : State D) : Prop := ∀ f, cfg.output s f = cfg.output cfg.initial f

theorem option_eq_of_map {α : Type} {o o' : Option α} (h : ∀ g : α → String, o.map g = o'.map g) : o = o' := by
  classical
  cases o with
  | none =>
      cases o' with
      | none => rfl
      | some b => exact absurd (h fun _ => "") nofun
  | some a =>
      cases o' with
      | none => exact absurd (h fun _ => "") nofun
      | some b =>
          have hab : (if a = b then "yes" else "no") = if b = b then "yes" else "no" :=
            Option.some_inj.mp (h fun x => if x = b then "yes" else "no")
          rw [if_pos (rfl : b = b)] at hab
          split at hab
          · next heq => rw [heq]
          · exact absurd hab (by decide)

/-- A file that is preprocessed only. -/
def probe (c : Prog PpOp PpReply String) : File D := ⟨c, fun _ => .done "", fun _ => .done ""⟩

/-- A file that is parsed behind these steps of the preprocessor. -/
def parseProbe (c : Prog PpOp PpReply String) (d : Prog (ParseOp D) ParseReply String) : File D :=
  ⟨c, fun _ => .done "", fun _ => d⟩

theorem text_probe (cfg : Config D) (s : State D) (c : Prog PpOp PpReply String) :
    (cfg.output s (probe c)).map Output.text = (run ppStep c (cfg.startPp s)).map Prod.snd := by
  have htext : ∀ pp pack text,
      ((cfg.compileText s (probe c) pp pack text).map Prod.snd).map Output.text = some text :=
    fun pp pack text => by
      rw [Config.compileText]
      split
      · rfl
      · rfl
  show ((Option.bind (run ppStep c (cfg.startPp s)) _).map Prod.snd).map Output.text = _
  cases run ppStep c (cfg.startPp s) with
  | none => rfl
  | some r => exact htext _ _ _

/-- The result of a program in the parser, behind steps of the preprocessor. -/
def Config.parsed {α : Type} (cfg : Config D) (s : State D) (c : Prog PpOp PpReply String)
    (d : Prog (ParseOp D) ParseReply α) : Option α :=
  (run ppStep c (cfg.startPp s)).bind fun r =>
    (run parseStep d ⟨cfg.startParser s.parser r.1.2, r.1.2, s.lines.start⟩).map Prod.snd

theorem tree_probe (hE : cfg.optE = false) (s : State D) (c : Prog PpOp PpReply String)
    (d : Prog (ParseOp D) ParseReply String) :
    (cfg.output s (parseProbe c d)).bind (fun out => out.compiled.map Prod.snd) = cfg.parsed s c d := by
  have htree : ∀ pp pack text,
      ((cfg.compileText s (parseProbe c d) pp pack text).map Prod.snd).bind (fun out => out.compiled.map Prod.snd) =
        (run parseStep d ⟨cfg.startParser s.parser pack, pack, s.lines.start⟩).map Prod.snd :=
    fun pp pack text => by
      rw [Config.compileText, if_neg (by rw [hE]; nofun)]
      show ((Option.map _ (run parseStep d _)).map Prod.snd).bind _ = _
      cases run parseStep d ⟨cfg.startParser s.parser pack, pack, s.lines.start⟩ with
      | none => rfl
      | some r => rfl
  rw [Config.parsed]
  show ((Option.bind (run ppStep c (cfg.startPp s)) _).map Prod.snd).bind _ = _
  cases run ppStep c (cfg.startPp s) with
  | none => rfl
  | some r => exact htree _ _ _

theorem pack_of_pragmaPack {pack : PackState} (h : ∀ text, (PragmaPack.pragmaPack pack text).map Prod.snd =
    (PragmaPack.pragmaPack ⟨0, []⟩ text).map Prod.snd) : pack = ⟨0, []⟩ := by
  obtain ⟨align, stack⟩ := pack
  have hpop := h ['(', 'p', 'o', 'p', ')']
  have hpush := h ['(', 'p', 'u', 's', 'h', ')']
  cases stack with
  | cons a below => exact absurd hpop nofun
  | nil =>
      have halign : align = 0 :=
        Option.some_inj.mp (PragmaPack.Line.pack.inj (List.cons.inj (Option.some_inj.mp hpush)).1)
      rw [halign]

theorem nil_of_find {l : Names D} (h : ∀ name, Names.find l name = none) : l = [] := by
  cases l with
  | nil => rfl
  | cons p l =>
      have hp : Names.find (p :: l) p.1 = some p.2 := by
        rw [Names.find, List.find?_cons_of_pos (p := fun q : String × D => decide (q.1 = p.1)) (decide_eq_true rfl)]
        rfl
      exact absurd (hp.symm.trans (h p.1)) nofun

/-- The packing as one digit. -/
def digitText (n : Nat) : List Char := ['(', Char.ofNat (48 + n), ')']

theorem pragmaPack_digitText : ∀ n < 10, 0 < n →
    PragmaPack.pragmaPack ⟨0, []⟩ (digitText n) = some (⟨n, []⟩, [.pack (some n)]) := by
  decide

theorem parsed_digit {α : Type} {s : State D} (hs : s.pack = ⟨0, []⟩) {n : Nat} (hpos : 0 < n) (hn : n < 10)
    (d : Prog (ParseOp D) ParseReply α) :
    cfg.parsed s (.ask (.pragmaPack (digitText n)) fun _ => .done "") d =
      (run parseStep d ⟨cfg.startParser s.parser ⟨n, []⟩, ⟨n, []⟩, s.lines.start⟩).map Prod.snd := by
  have hstep : (ppStep (.pragmaPack (digitText n)) (cfg.startPp s)).1.2 = ⟨n, []⟩ := by
    rw [Config.startPp, hs, ppStep, pragmaPack_digitText n hn hpos]
  show (run parseStep d ⟨cfg.startParser s.parser (ppStep (.pragmaPack (digitText n)) (cfg.startPp s)).1.2, _, _⟩).map
    Prod.snd = _
  rw [hstep]

/-- As many `#undef`s, and then `find_macro`. -/
def undefThenFind (name : String) : Nat → Prog PpOp PpReply (Option Entry)
  | 0 => .ask (.findMacro name) .done
  | k + 1 => .ask (.undef name) fun _ => undefThenFind name k

theorem run_undefThenFind (name : String) (k : Nat) (s : Preprocessor × PackState) :
    (run ppStep (undefThenFind name k) s).map Prod.snd =
      some (((s.1.table.chain name)[k]?).map s.1.table.entry) := by
  induction k generalizing s with
  | zero =>
      show some ((s.1.table.findMacro name).map s.1.table.entry) = _
      rw [Table.findMacro_eq, List.head?_eq_getElem?]
  | succ k ih =>
      show (run ppStep (undefThenFind name k) (ppStep (.undef name) s).1).map Prod.snd = _
      rw [ih]
      show some ((((s.1.table.undef name).chain name)[k]?).map (s.1.table.undef name).entry) = _
      rw [Table.chain_undef, if_pos rfl, List.getElem?_tail, funext (s.1.table.entry_undef name)]

namespace Unseen

variable {s : State D} {α : Type} (h : Unseen cfg s)
include h

theorem preprocess (c : Prog PpOp PpReply α) :
    (run ppStep c (cfg.startPp s)).map Prod.snd = (run ppStep c (cfg.startPp cfg.initial)).map Prod.snd := by
  refine option_eq_of_map fun g => ?_
  rw [← Client.run_map, ← Client.run_map, ← text_probe cfg, ← text_probe cfg, h]

theorem parse (hE : cfg.optE = false) (c : Prog PpOp PpReply String) (d : Prog (ParseOp D) ParseReply α) :
    cfg.parsed s c d = cfg.parsed cfg.initial c d := by
  have hmap : ∀ (t : State D) (g : α → String), cfg.parsed t c (d.map g) = (cfg.parsed t c d).map g := fun t g => by
    rw [Config.parsed, Config.parsed, Option.map_bind]
    exact congrArg _ (funext fun r => Client.run_map _ _ _ _)
  refine option_eq_of_map fun g => ?_
  rw [← hmap, ← hmap, ← tree_probe hE s, ← tree_probe hE, h]

/-- An operation of the preprocessor has the same reply. -/
theorem ppReply (op : PpOp) : (ppStep op (cfg.startPp s)).2 = (ppStep op (cfg.startPp cfg.initial)).2 :=
  Option.some_inj.mp (h.preprocess (.ask op .done))

/-- And one of the parser. -/
theorem parseReply (hE : cfg.optE = false) (op : ParseOp D) :
    (parseStep op ⟨cfg.startParser s.parser s.pack, s.pack, s.lines.start⟩).2 =
      (parseStep op ⟨cfg.startParser cfg.initial.parser ⟨0, []⟩, ⟨0, []⟩, cfg.initial.lines.start⟩).2 :=
  Option.some_inj.mp (h.parse hE (.done "") (.ask op .done))

theorem ppCounter : s.pp.ppCounter = 0 := h.ppReply .counter

theorem onceFiles : s.pp.onceFiles = [] := by
  cases hf : s.pp.onceFiles with
  | nil => rfl
  | cons path l =>
      have hpath : s.pp.onceFiles.contains path = false := h.ppReply (.isOnceFile path)
      rw [hf, List.contains_cons, beq_self_eq_true] at hpath
      exact absurd hpath nofun

theorem pragmaPack (text : List Char) :
    (PragmaPack.pragmaPack s.pack text).map Prod.snd = (PragmaPack.pragmaPack ⟨0, []⟩ text).map Prod.snd := by
  have hreply : ∀ p pack, (ppStep (.pragmaPack text) (p, pack)).2 =
      (PragmaPack.pragmaPack pack text).map Prod.snd := fun p pack => by
    rw [ppStep]
    cases PragmaPack.pragmaPack pack text with
    | none => rfl
    | some r => rfl
  have hsame := h.ppReply (.pragmaPack text)
  rw [Config.startPp, Config.startPp, hreply, hreply] at hsame
  exact hsame

theorem pack : s.pack = ⟨0, []⟩ := pack_of_pragmaPack h.pragmaPack

theorem lines (hE : cfg.optE = false) : s.lines.start = cfg.initial.lines.start := h.parseReply hE .lines

theorem strLitCounter (hE : cfg.optE = false) : s.parser.strLitCounter = 0 :=
  h.parseReply hE (.newStrLit (cfg.vaList (fun _ => none) 0).2)

theorem staticLocalCounter (hE : cfg.optE = false) : s.parser.staticLocalCounter = 0 :=
  h.parseReply hE .staticLocal

theorem locals (hE : cfg.optE = false) : s.parser.scope.locals = [] :=
  nil_of_find fun name => h.parseReply hE (ParseOp.findLocal name)

theorem tags (hE : cfg.optE = false) : s.parser.scope.tags = [] :=
  nil_of_find fun name => h.parseReply hE (ParseOp.findTag name)

theorem enumConsts (hE : cfg.optE = false) : s.parser.scope.enumConsts = [] :=
  nil_of_find fun name => h.parseReply hE (ParseOp.findEnumConst name)

theorem typedefs (hE : cfg.optE = false) {name : String} (hname : name ≠ "__builtin_va_list") :
    s.parser.scope.typedefs.find name = cfg.builtins.find name := by
  have hfind := h.parseReply hE (.findTypedef name)
  have hhead := fun (d : D) l => find_cons_of_ne hname d l
  exact (hhead _ _).symm.trans (hfind.trans (hhead _ _))

/-- Any packing up to 9 may be there when the file is parsed. -/
theorem packed (hE : cfg.optE = false) {align : Nat} (halign : align ≤ 9) (op : ParseOp D) :
    (parseStep op ⟨cfg.startParser s.parser ⟨align, []⟩, ⟨align, []⟩, s.lines.start⟩).2 =
      (parseStep op ⟨cfg.startParser cfg.initial.parser ⟨align, []⟩, ⟨align, []⟩, cfg.initial.lines.start⟩).2 := by
  rcases Nat.eq_zero_or_pos align with rfl | hpos
  · have hreply := h.parseReply hE op
    rw [h.pack] at hreply
    exact hreply
  · have hparsed := h.parse hE (.ask (.pragmaPack (digitText align)) fun _ => .done "") (.ask op .done)
    rw [parsed_digit h.pack hpos (Nat.lt_succ_of_le halign),
      parsed_digit rfl hpos (Nat.lt_succ_of_le halign)] at hparsed
    exact Option.some_inj.mp hparsed

theorem cells (hE : cfg.optE = false) {align : Nat} (halign : align ≤ 9) :
    cfg.vaList s.parser.cells align = cfg.vaList (fun _ => none) align := by
  have hfind := fun name => h.packed hE halign (.findTypedef name)
  refine Prod.ext (funext fun c => h.packed hE halign (.get c)) ?_
  exact Option.some_inj.mp (hfind "__builtin_va_list")

/-- The macros of a name, the oldest first: after as many `#undef`s the next is found. -/
theorem chain (name : String) :
    ((cfg.startTable s.pp.table).chain name).map (cfg.startTable s.pp.table).entry =
      (cfg.firstTable.chain name).map cfg.firstTable.entry := by
  refine List.ext_getElem? fun k => ?_
  have hfind := h.preprocess (undefThenFind name k)
  rw [run_undefThenFind, run_undefThenFind] at hfind
  rw [List.getElem?_map, List.getElem?_map]
  exact Option.some_inj.mp hfind

theorem snapshot (hs : Between cfg s) :
    (cfg.startTable s.pp.table).snapshot = cfg.firstTable.snapshot := by
  rcases hs.table with htable | hkept
  · rw [htable]
    rfl
  · have hsnapped := cfg.firstTable_snapped
    have hchain := h.chain
    rw [Config.startTable_of_kept hkept] at hchain ⊢
    refine hkept.clearMacros.snapshot_eq fun name => ?_
    have hname := hchain name
    rw [Table.hashed_clearMacros, hkept.list_clearMacros hsnapped, hsnapped.hashed, ← hsnapped.saved,
      List.map_reverse, List.map_reverse] at hname
    exact List.reverse_injective hname

theorem restored (hs : Between cfg s) : Restored cfg s := by
  cases hE : cfg.optE with
  | false =>
      have hlines := h.lines hE
      exact ⟨h.snapshot hs, h.onceFiles, h.ppCounter, h.pack, congrArg Lines.lineOffset hlines,
        congrArg Lines.lineNum hlines, h.locals hE, fun _ hname => h.typedefs hE hname, h.tags hE,
        h.enumConsts hE, h.strLitCounter hE, h.staticLocalCounter hE, fun _ _ halign => h.cells hE halign⟩
  | true =>
      obtain ⟨hlines, hparser⟩ := hs.untouched hE
      refine ⟨h.snapshot hs, h.onceFiles, h.ppCounter, h.pack, ?_, ?_, ?_, ?_, ?_, ?_, ?_, ?_, ?_⟩
      · rw [hlines]; rfl
      · rw [hlines]; rfl
      · rw [hparser]; rfl
      · rw [hparser]; exact fun _ _ => rfl
      · rw [hparser]; rfl
      · rw [hparser]; rfl
      · rw [hparser]; rfl
      · rw [hparser]; rfl
      · exact fun hfalse => absurd hfalse (by rw [hE]; nofun)

end Unseen

/-- No file can tell that others were before it exactly when what nothing sets back is
as it was. -/
theorem unseen_iff {s : State D} (hs : Between cfg s) : Unseen cfg s ↔ Restored cfg s :=
  ⟨fun h => h.restored hs, fun h f => h.output_eq hs f⟩

/-- After any of the files, whatever file comes next gives what it gives alone. -/
def Isolated (cfg : Config D) (files : List (File D)) : Prop :=
  ∀ before after s, files = before ++ after → cfg.after before = some s → Unseen cfg s

/-- A compiler that defines nothing, and `-E`. -/
def bare : Config String where
  args := []
  predefined := []
  builtins := []
  vaList cells _ := (cells, "struct __va_list_tag[1]")
  optE := true

/-- `#define N 1` -/
def defineN : File String := probe (.ask (.defineMacro "N" false [] "1") fun _ => .done "\n")

/-- `__COUNTER__` -/
def takeCounter : File String := probe (.ask .counter fun (n : Nat) => .done (toString n))

end Rcc.Files

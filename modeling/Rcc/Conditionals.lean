import Rcc.PreprocessFile
import Rcc.Steps

/-!
# Conditional groups

The groups that a line is in are kept beside the state, each by what the conditions of
its branches were when they were reached, with the newest in front. `#else` is a branch
whose condition is true. A group has selected the branch it is in when this is the first
of them that is true.

`preprocess_file` keeps three flags for each group instead. They agree with the groups,
line by line, as long as it takes a line for a conditional directive just when it is one.
It looks at the beginning of a name only, so that `#elsewhere` is taken for `#else`;
`Plain` excludes these.
-/

namespace Rcc.Preprocess

open Lexer (Text isspace isdigit headIs startswith)
open Macros (Table)
open Files (Preprocessor)
open PragmaPack (PackState)
open FileState (newlines)

/-! ## Groups -/

inductive Conditional where
  | if_ | ifdef | ifndef | elif | else_ | endif
deriving DecidableEq

def conditionals : List (String × Conditional) :=
  [("if", .if_), ("ifdef", .ifdef), ("ifndef", .ifndef), ("elif", .elif), ("else", .else_), ("endif", .endif)]

/-- The name of a directive. -/
def directiveName (p : Text) : Text := p.takeWhile isIdent2

/-- The conditional directive with this name, behind the `#`. -/
def conditional (p : Text) : Option Conditional :=
  (conditionals.find? fun word => word.1.toList = directiveName p).map Prod.snd

/-- A line that is a conditional directive, and what is behind its `#`. -/
def Line.conditional (line : Line) : Option (Conditional × Text) :=
  (hash line.text).bind fun p => (Preprocess.conditional p).map fun c => (c, p)

/-- What the conditions of the branches were, that of the newest in front. -/
abbrev Group := List Bool

/-- The newest branch is the first whose condition was true. -/
def Group.selected : Group → Bool
  | [] => false
  | val :: older => val && ! older.any id

/-- Whether the condition of a branch is true. -/
def truth (ctx : Context) (s : FileState) (c : Conditional) (p : Text) : Bool :=
  match c with
  | .if_ => (evalCondition ctx.fs ctx.filename s.pp (argumentOf "if" p)).any fun r => r.2 ≠ 0
  | .elif => (evalCondition ctx.fs ctx.filename s.pp (trim (argumentOf "elif" p))).any fun r => r.2 ≠ 0
  | .ifdef => (findEntry s.pp ((argumentOf "ifdef" p).takeWhile isIdent2)).isSome
  | .ifndef => (findEntry s.pp ((argumentOf "ifndef" p).takeWhile isIdent2)).isNone
  | .else_ | .endif => true

/-- The groups behind a directive whose condition is `val`, the innermost in front. -/
def Conditional.groups (c : Conditional) (val : Bool) (groups : List Group) : List Group :=
  match c, groups with
  | .if_, _ | .ifdef, _ | .ifndef, _ => [val] :: groups
  | .elif, group :: rest | .else_, group :: rest => (val :: group) :: rest
  | .elif, [] | .else_, [] => []
  | .endif, _ => groups.tail

/-- The groups behind a line. The text before the line is out when its condition is
reached. -/
def groupsAfter (ctx : Context) (s : FileState) (groups : List Group) (line : Line) : List Group :=
  match line.conditional with
  | none => groups
  | some (c, p) => c.groups ((s.flush ctx).any fun s => truth ctx s c p) groups

/-- The groups that are open behind a directive, by whether they had an `#else`. -/
def Conditional.nest (c : Conditional) (groups : List Bool) : Option (List Bool) :=
  match c, groups with
  | .if_, _ | .ifdef, _ | .ifndef, _ => some (false :: groups)
  | .elif, false :: rest => some (false :: rest)
  | .else_, false :: rest => some (true :: rest)
  | .endif, _ :: rest => some rest
  | _, _ => none

def nest (groups : List Bool) (line : Line) : Option (List Bool) :=
  match line.conditional with
  | none => some groups
  | some (c, _) => c.nest groups

def WellNested (lines : List Line) : Prop := lines.foldlM nest [] = some []

/-! ## What is to hold -/

/-- `preprocess_file` beside the groups. -/
def groupStep (ctx : Context) (s : FileState × List Group) (line : Line) : Option (FileState × List Group) :=
  (step ctx s.1 line).map fun t => (t, groupsAfter ctx s.1 s.2 line)

/-- The line is active if every group has selected the branch it is in. If it is not, it
changes no macro and asks for no file. -/
def Correct (ctx : Context) (s : FileState × List Group) (line : Line) : Prop :=
  s.1.active = s.2.all Group.selected ∧
    (s.2.all Group.selected = false →
      (∀ included, step { ctx with included } s.1 line = step ctx s.1 line) ∧
        ∀ t, step ctx s.1 line = some t → SameMacros s.1.pp t.pp ∧ t.pack = s.1.pack)

/-- A name that begins like that of a conditional directive is one. -/
def Plain (line : Line) : Prop :=
  ∀ p ∈ hash line.text, ∀ word ∈ ["if", "elif", "else", "endif"], startswith p word = true → (conditional p).isSome = true

/-! ## Names -/

theorem isPrefixOf_takeWhile {f : Char → Bool} {q : Text} (hq : ∀ c ∈ q, f c = true) (p : Text) :
    q.isPrefixOf (p.takeWhile f) = q.isPrefixOf p := by
  induction q generalizing p with
  | nil => simp only [List.isPrefixOf_nil_left]
  | cons c q ih =>
      cases p with
      | nil => rfl
      | cons d p =>
          have hrest := ih (fun e he => hq e (List.mem_cons_of_mem _ he)) p
          rw [List.takeWhile_cons]
          split
          · rw [List.isPrefixOf_cons_cons, List.isPrefixOf_cons_cons, hrest]
          · next hd =>
              have hne : (c == d) = false := beq_eq_false_iff_ne.mpr fun heq => hd (heq ▸ hq c List.mem_cons_self)
              rw [List.isPrefixOf_cons_cons, hne]
              rfl

/-- The beginning of a name is in the name. -/
theorem startswith_directiveName (p : Text) {word : String} (hword : word.toList.all isIdent2 = true) :
    startswith p word = startswith (directiveName p) word :=
  (isPrefixOf_takeWhile (List.all_eq_true.mp hword) p).symm

def directiveWords : List String :=
  ["pragma", "define", "undef", "include", "if", "ifdef", "ifndef", "elif", "else", "endif"]

/-- A line is taken for a directive by the name alone. -/
theorem directive_directiveName (active : Bool) (p : Text) : directive active p = directive active (directiveName p) := by
  have hwords : ∀ word ∈ directiveWords, startswith p word = startswith (directiveName p) word := fun word hword =>
    startswith_directiveName p ((show ∀ word ∈ directiveWords, word.toList.all isIdent2 = true by decide) word hword)
  simp only [directiveWords, List.mem_cons, List.not_mem_nil, or_false, forall_eq_or_imp, forall_eq] at hwords
  obtain ⟨hpragma, hdefine, hundef, hinclude, hif, hifdef, hifndef, helif, helse, hendif⟩ := hwords
  rw [directive, directive, hpragma, hdefine, hundef, hinclude, hif, hifdef, hifndef, helif, helse, hendif]

def Directive.conditional : Directive → Option Conditional
  | .cond => some .if_
  | .elif => some .elif
  | .ifdef => some .ifdef
  | .ifndef => some .ifndef
  | .else_ => some .else_
  | .endif => some .endif
  | .pragma | .define | .undef | .include_ | .other => none

/-- Conditional directives are taken for what they are. -/
theorem directive_of_conditional {p : Text} {c : Conditional} (h : conditional p = some c) (active : Bool) :
    (directive active p).conditional = some c := by
  obtain ⟨⟨word, c'⟩, hfind, rfl⟩ := Option.map_eq_some_iff.mp h
  have hname : word.toList = directiveName p := by simpa using List.find?_some hfind
  have hall : ∀ w ∈ conditionals, ∀ active, (directive active w.1.toList).conditional = some w.2 := by decide
  rw [directive_directiveName, ← hname]
  exact hall _ (List.mem_of_find?_eq_some hfind) active

theorem startswith_of_startswith {p : Text} {word word' : String} (h : word.toList <+: word'.toList)
    (hword : startswith p word = false) : startswith p word' = false := by
  refine Bool.eq_false_iff.mpr fun hword' => Bool.eq_false_iff.mp hword ?_
  exact List.isPrefixOf_iff_prefix.mpr (h.trans (List.isPrefixOf_iff_prefix.mp hword'))

/-- Under `Plain` nothing else is taken for one. -/
theorem directive_of_none {p : Text} (h : conditional p = none) (active : Bool)
    (hplain : ∀ word ∈ ["if", "elif", "else", "endif"], startswith p word = true → (conditional p).isSome = true) :
    (directive active p).conditional = none := by
  have hwords : ∀ word ∈ ["if", "elif", "else", "endif"], startswith p word = false := fun word hword =>
    Bool.eq_false_iff.mpr fun hstart => absurd (hplain word hword hstart) (by rw [h]; nofun)
  simp only [List.mem_cons, List.not_mem_nil, or_false, forall_eq_or_imp, forall_eq] at hwords
  obtain ⟨hif, helif, helse, hendif⟩ := hwords
  have hifdef : startswith p "ifdef" = false := startswith_of_startswith (by decide) hif
  have hifndef : startswith p "ifndef" = false := startswith_of_startswith (by decide) hif
  rw [directive, hif, helif, helse, hendif, hifdef, hifndef]
  split
  · rfl
  split
  · rfl
  split
  · rfl
  split
  · rfl
  · rfl

/-! ## The flags -/

/-- The flags of the open groups. Whether a branch was taken is of no account in a group
that is not active. -/
def Flags : List CondIncl → List Group → Bool → Prop
  | [], [], active => active = true
  | ci :: conds, group :: groups, active =>
      active = (ci.parentActive && group.selected) ∧ (ci.parentActive = true → ci.branchTaken = group.any id) ∧
        Flags conds groups ci.parentActive
  | _, _, _ => False

variable {ctx : Context} {s t : FileState} {line : Line} {p : Text} {groups : List Group} {group : Group}

theorem Flags.active_eq {conds : List CondIncl} {active : Bool} (h : Flags conds groups active) :
    active = groups.all Group.selected := by
  induction conds generalizing groups active with
  | nil =>
      cases groups with
      | nil => exact h
      | cons => exact h.elim
  | cons ci conds ih =>
      cases groups with
      | nil => exact h.elim
      | cons group groups =>
          obtain ⟨hactive, _, hrest⟩ := h
          rw [hactive, ih hrest, List.all_cons, Bool.and_comm]

theorem flags_pushCond (h : Flags s.conds groups s.active) (val : Bool) :
    Flags (pushCond s val).conds ([val] :: groups) (pushCond s val).active := by
  refine ⟨?_, fun hactive => ?_, h⟩
  · show (s.active && val) = (s.active && (val && ! false))
    rw [Bool.not_false, Bool.and_true]
  · show (s.active && val) = (val || false)
    rw [show s.active = true from hactive, Bool.true_and, Bool.or_false]

theorem flags_elif (h : Flags s.conds (group :: groups) s.active) (helif : elif ctx s (argumentOf "elif" p) = some t) :
    Flags t.conds ((truth ctx s .elif p :: group) :: groups) t.active := by
  rw [elif] at helif
  split at helif
  · next hconds =>
      rw [hconds] at h
      exact h.elim
  · next ci conds hconds =>
      rw [hconds] at h
      obtain ⟨_, htaken, hrest⟩ := h
      split at helif
      · next hskip =>
          obtain rfl := Option.some_inj.mp helif
          show (false = (ci.parentActive && (_ && ! group.any id))) ∧
            (ci.parentActive = true → ci.branchTaken = (_ || group.any id)) ∧ Flags conds groups ci.parentActive
          -- the branch is not selected, whatever its condition would be
          rcases Bool.eq_false_or_eq_true ci.parentActive with hparent | hparent
          · have htakes : ci.branchTaken = true := by
              rw [hparent, Bool.not_true, Bool.or_false] at hskip
              exact hskip
            have hany : group.any id = true := (htaken hparent).symm.trans htakes
            refine ⟨?_, fun _ => ?_, hrest⟩
            · rw [hany, Bool.not_true, Bool.and_false, Bool.and_false]
            · rw [htakes, hany, Bool.or_true]
          · refine ⟨?_, fun hp => absurd (hparent.symm.trans hp) Bool.false_ne_true, hrest⟩
            rw [hparent, Bool.false_and]
      · next hskip =>
          obtain ⟨⟨pp, val⟩, heval, rfl⟩ := Option.map_eq_some_iff.mp helif
          have htruth : truth ctx s .elif p = decide (val ≠ 0) := by
            rw [truth, heval]
            rfl
          rw [Bool.or_eq_true, not_or, Bool.not_eq_true, Bool.not_eq_true, Bool.not_eq_false'] at hskip
          have hany := (htaken hskip.2).symm.trans hskip.1
          rw [htruth]
          refine ⟨?_, fun _ => ?_, hrest⟩
          · show decide (val ≠ 0) = (ci.parentActive && (decide (val ≠ 0) && ! group.any id))
            rw [hskip.2, hany, Bool.not_false, Bool.and_true, Bool.true_and]
          · show decide (val ≠ 0) = (decide (val ≠ 0) || group.any id)
            rw [hany, Bool.or_false]

theorem flags_else (h : Flags s.conds (group :: groups) s.active) :
    Flags (else_ s).conds ((true :: group) :: groups) (else_ s).active := by
  rw [else_]
  split
  · next hconds =>
      rw [hconds] at h
      exact h.elim
  · next ci conds hconds =>
      rw [hconds] at h
      obtain ⟨_, htaken, hrest⟩ := h
      refine ⟨?_, fun _ => rfl, hrest⟩
      show (ci.parentActive && ! ci.branchTaken) = (ci.parentActive && ! group.any id)
      cases hparent : ci.parentActive with
      | false => rfl
      | true => rw [htaken hparent]

theorem flags_endif (h : Flags s.conds (group :: groups) s.active) : Flags (endif s).conds groups (endif s).active := by
  rw [endif]
  split
  · next hconds =>
      rw [hconds] at h
      exact h.elim
  · next ci conds hconds =>
      rw [hconds] at h
      exact h.2.2

/-! ## The lines -/

theorem includeFile_flags {spec : Text} {isAngle : Bool} (h : includeFile ctx s spec isAngle = some t) :
    t.conds = s.conds ∧ t.active = s.active := by
  obtain ⟨path, _, hread⟩ := Option.bind_eq_some_iff.mp h
  obtain ⟨inc, _, hmap⟩ := Option.bind_eq_some_iff.mp hread
  obtain ⟨⟨pp, pack, text⟩, _, rfl⟩ := Option.map_eq_some_iff.mp hmap
  exact ⟨rfl, rfl⟩

theorem include_flags (h : include_ ctx s p = some t) : t.conds = s.conds ∧ t.active = s.active := by
  rw [include_] at h
  split at h
  · exact includeFile_flags h
  · obtain ⟨⟨pp, sb⟩, _, hmap⟩ := Option.bind_eq_some_iff.mp h
    dsimp only at hmap
    split at hmap
    · exact includeFile_flags (s := { s with pp }) hmap
    · obtain rfl := Option.some_inj.mp hmap
      exact ⟨rfl, rfl⟩

/-- The other directives leave the flags. -/
theorem runDirective_flags {count : Nat} (hother : (directive s.active p).conditional = none)
    (h : runDirective ctx s count p = some t) : t.conds = s.conds ∧ t.active = s.active := by
  rw [runDirective] at h
  split at h
  · have hstays := pragma_stays h
    exact ⟨hstays.conds, hstays.active⟩
  · obtain ⟨table, _, rfl⟩ := Option.map_eq_some_iff.mp h
    exact ⟨rfl, rfl⟩
  · obtain rfl := Option.some_inj.mp h
    exact ⟨rfl, rfl⟩
  · exact include_flags h
  · next hd => exact absurd hother (by rw [hd]; exact Option.some_ne_none _)
  · next hd => exact absurd hother (by rw [hd]; exact Option.some_ne_none _)
  · next hd => exact absurd hother (by rw [hd]; exact Option.some_ne_none _)
  · next hd => exact absurd hother (by rw [hd]; exact Option.some_ne_none _)
  · next hd => exact absurd hother (by rw [hd]; exact Option.some_ne_none _)
  · next hd => exact absurd hother (by rw [hd]; exact Option.some_ne_none _)
  · obtain rfl := Option.some_inj.mp h
    exact ⟨rfl, rfl⟩

def Conditional.directive : Conditional → Directive
  | .if_ => .cond
  | .elif => .elif
  | .ifdef => .ifdef
  | .ifndef => .ifndef
  | .else_ => .else_
  | .endif => .endif

theorem eq_of_conditional {d : Directive} {c : Conditional} (h : d.conditional = some c) : d = c.directive := by
  cases d with
  | pragma | define | undef | include_ | other => exact absurd h nofun
  | cond | elif | ifdef | ifndef | else_ | endif =>
      obtain rfl := Option.some_inj.mp h
      rfl

/-- The flags agree with the groups, and there are as many groups as the nesting says. -/
structure Agrees (s : FileState) (groups : List Group) (nesting : List Bool) : Prop where
  flags : Flags s.conds groups s.active
  length : nesting.length = groups.length

variable {nesting nesting' : List Bool}

/-- What a conditional directive does, when the text before it is out. -/
theorem agrees_conditional {c : Conditional} {count : Nat} (hflags : Flags s.conds groups s.active)
    (hlength : nesting.length = groups.length) (hconditional : conditional p = some c)
    (hnest : c.nest nesting = some nesting') (h : runDirective ctx s count p = some t) :
    Agrees t (c.groups (truth ctx s c p) groups) nesting' := by
  have hdirective := eq_of_conditional (directive_of_conditional hconditional s.active)
  rw [runDirective, hdirective] at h
  cases c with
  | if_ =>
      obtain ⟨⟨pp, val⟩, heval, rfl⟩ := Option.map_eq_some_iff.mp h
      obtain rfl := Option.some_inj.mp hnest
      have htruth : truth ctx s .if_ p = decide (val ≠ 0) := by
        rw [truth, heval]
        rfl
      rw [htruth]
      exact ⟨flags_pushCond (s := { s with pp }) hflags _, congrArg Nat.succ hlength⟩
  | ifdef =>
      obtain rfl := Option.some_inj.mp (show some (pushCond s _) = some t from h)
      obtain rfl := Option.some_inj.mp hnest
      exact ⟨flags_pushCond hflags _, congrArg Nat.succ hlength⟩
  | ifndef =>
      obtain rfl := Option.some_inj.mp (show some (pushCond s _) = some t from h)
      obtain rfl := Option.some_inj.mp hnest
      exact ⟨flags_pushCond hflags _, congrArg Nat.succ hlength⟩
  | elif =>
      cases groups with
      | nil =>
          rw [List.eq_nil_of_length_eq_zero hlength] at hnest
          cases hnest
      | cons group groups =>
          refine ⟨flags_elif hflags h, ?_⟩
          cases nesting with
          | nil => cases hnest
          | cons seen rest =>
              cases seen with
              | true => cases hnest
              | false =>
                  obtain rfl := Option.some_inj.mp hnest
                  exact hlength
  | else_ =>
      obtain rfl := Option.some_inj.mp (show some (else_ s) = some t from h)
      cases groups with
      | nil =>
          rw [List.eq_nil_of_length_eq_zero hlength] at hnest
          cases hnest
      | cons group groups =>
          refine ⟨flags_else hflags, ?_⟩
          cases nesting with
          | nil => cases hnest
          | cons seen rest =>
              cases seen with
              | true => cases hnest
              | false =>
                  obtain rfl := Option.some_inj.mp hnest
                  exact hlength
  | endif =>
      obtain rfl := Option.some_inj.mp (show some (endif s) = some t from h)
      cases groups with
      | nil =>
          rw [List.eq_nil_of_length_eq_zero hlength] at hnest
          cases hnest
      | cons group groups =>
          cases nesting with
          | nil => cases hnest
          | cons seen rest =>
              obtain rfl := Option.some_inj.mp hnest
              exact ⟨flags_endif hflags, Nat.succ_inj.mp hlength⟩

/-- A line keeps the agreement. -/
theorem agrees_turn (h : Agrees s groups nesting) (hplain : Plain line) (hnest : nest nesting line = some nesting')
    (hturn : turn ctx s line = some t) : Agrees t (groupsAfter ctx s groups line) nesting' := by
  rw [turn] at hturn
  rw [nest, Line.conditional] at hnest
  rw [groupsAfter, Line.conditional]
  cases hhash : hash line.text with
  | none =>
      rw [hhash] at hturn hnest
      obtain rfl := Option.some_inj.mp hnest
      replace hturn : (if s.active then runText ctx s line else (s.flush ctx).map fun s => s.emit (newlines line.count)) = some t := hturn
      have hquiet : t.conds = s.conds ∧ t.active = s.active := by
        split at hturn
        · exact ⟨(quiet_runText hturn).conds, (quiet_runText hturn).active⟩
        · obtain ⟨s₁, hflush, rfl⟩ := Option.map_eq_some_iff.mp hturn
          exact ⟨(quiet_flush hflush).conds, (quiet_flush hflush).active⟩
      refine ⟨?_, h.length⟩
      rw [hquiet.1, hquiet.2]
      exact h.flags
  | some p =>
      rw [hhash] at hturn hnest
      obtain ⟨s₁, hflush, hrun⟩ := Option.bind_eq_some_iff.mp hturn
      have hquiet := quiet_flush hflush
      have hflags : Flags s₁.conds groups s₁.active := by
        rw [hquiet.conds, hquiet.active]
        exact h.flags
      cases hc : conditional p with
      | none =>
          rw [Option.bind_some, hc] at hnest
          rw [Option.bind_some, hc]
          obtain rfl := Option.some_inj.mp hnest
          have hframe := runDirective_flags (directive_of_none hc _ (hplain p hhash)) hrun
          refine ⟨?_, h.length⟩
          rw [hframe.1, hframe.2]
          exact hflags
      | some c =>
          rw [Option.bind_some, hc] at hnest
          rw [Option.bind_some, hc, hflush]
          exact agrees_conditional hflags h.length hc hnest hrun

/-! ## Lines that are not active -/

theorem directive_inactive (p : Text) {d : Directive} (hd : d ∈ [Directive.pragma, .define, .undef, .include_]) :
    directive false p ≠ d := by
  intro heq
  rw [← heq] at hd
  revert hd
  simp only [directive, Bool.and_false, Bool.false_eq_true, if_false]
  split
  · decide
  split
  · decide
  split
  · decide
  split
  · decide
  split
  · decide
  split
  · decide
  · decide

/-- The directives that are left change no macro. -/
theorem runDirective_inactive {count : Nat} (hactive : s.active = false) (h : runDirective ctx s count p = some t) :
    SameMacros s.pp t.pp ∧ t.pack = s.pack := by
  rw [runDirective, hactive] at h
  split at h
  · next hd => exact absurd hd (directive_inactive p (by decide))
  · next hd => exact absurd hd (directive_inactive p (by decide))
  · next hd => exact absurd hd (directive_inactive p (by decide))
  · next hd => exact absurd hd (directive_inactive p (by decide))
  · obtain ⟨⟨pp, val⟩, heval, rfl⟩ := Option.map_eq_some_iff.mp h
    exact ⟨evalCondition_same heval, rfl⟩
  · rw [elif] at h
    split at h
    · obtain rfl := Option.some_inj.mp h
      exact ⟨.refl s.pp, rfl⟩
    · split at h
      · obtain rfl := Option.some_inj.mp h
        exact ⟨.refl s.pp, rfl⟩
      · obtain ⟨⟨pp, val⟩, heval, rfl⟩ := Option.map_eq_some_iff.mp h
        exact ⟨evalCondition_same heval, rfl⟩
  · obtain rfl := Option.some_inj.mp h
    exact ⟨.refl s.pp, rfl⟩
  · obtain rfl := Option.some_inj.mp h
    exact ⟨.refl s.pp, rfl⟩
  · obtain rfl := Option.some_inj.mp h
    rw [else_]
    split
    · exact ⟨.refl s.pp, rfl⟩
    · exact ⟨.refl s.pp, rfl⟩
  · obtain rfl := Option.some_inj.mp h
    rw [endif]
    split
    · exact ⟨.refl s.pp, rfl⟩
    · exact ⟨.refl s.pp, rfl⟩
  · obtain rfl := Option.some_inj.mp h
    exact ⟨.refl s.pp, rfl⟩

/-- They ask for no file. -/
theorem runDirective_included {count : Nat} (hactive : s.active = false)
    (included : Preprocessor → PackState → Text → Text → Option (Preprocessor × PackState × Text)) :
    runDirective { ctx with included } s count p = runDirective ctx s count p := by
  rw [runDirective, runDirective, hactive]
  cases hd : directive false p with
  | pragma | define | undef | include_ => exact absurd hd (directive_inactive p (by decide))
  | cond | elif | ifdef | ifndef | else_ | endif | other => rfl

theorem step_inactive (hactive : s.active = false) :
    (∀ included, step { ctx with included } s line = step ctx s line) ∧
      ∀ t, step ctx s line = some t → SameMacros s.pp t.pp ∧ t.pack = s.pack := by
  constructor
  · intro included
    rw [step, step, turn, turn]
    refine congrArg (Option.map _) ?_
    cases hash line.text with
    | none => rw [hactive]; rfl
    | some p =>
        show (s.flush ctx).bind _ = (s.flush ctx).bind _
        cases hflush : s.flush ctx with
        | none => rfl
        | some s₁ => exact runDirective_included ((quiet_flush hflush).active.trans hactive) included
  · intro t h
    obtain ⟨t₁, hturn, rfl⟩ := Option.map_eq_some_iff.mp h
    show SameMacros s.pp t₁.pp ∧ t₁.pack = s.pack
    rw [turn, hactive] at hturn
    split at hturn
    · obtain ⟨s₁, hflush, hrun⟩ := Option.bind_eq_some_iff.mp hturn
      have hquiet := quiet_flush hflush
      have hframe := runDirective_inactive (hquiet.active.trans hactive) hrun
      exact ⟨hquiet.macros.trans hframe.1, hframe.2.trans hquiet.pack⟩
    · obtain ⟨s₁, hflush, rfl⟩ := Option.map_eq_some_iff.mp hturn
      exact ⟨(quiet_flush hflush).macros, (quiet_flush hflush).pack⟩

/-! ## Runs -/

theorem nest_split {lines before after : List Line} {line : Line} (h : WellNested lines) (hl : lines = before ++ line :: after) :
    ∃ nesting nesting', before.foldlM nest [] = some nesting ∧ nest nesting line = some nesting' := by
  rw [WellNested, hl, List.foldlM_append] at h
  obtain ⟨nesting, hbefore, hrest⟩ := Option.bind_eq_some_iff.mp h
  obtain ⟨nesting', hline, _⟩ := Option.bind_eq_some_iff.mp (show (nest nesting line).bind _ = some [] from hrest)
  exact ⟨nesting, nesting', hbefore, hline⟩

theorem agrees_run {pp : Preprocessor} {pack : PackState} {lines : List Line} {m : FileState × List Group}
    (hplain : ∀ line ∈ lines, Plain line) (hnest : lines.foldlM nest [] = some nesting)
    (hrun : lines.foldlM (groupStep ctx) (.start pp pack, []) = some m) : Agrees m.1 m.2 nesting := by
  induction lines using List.reverseRecOn generalizing m nesting with
  | nil =>
      obtain rfl := Option.some_inj.mp hrun
      obtain rfl := Option.some_inj.mp hnest
      exact ⟨rfl, rfl⟩
  | append_singleton lines line ih =>
      obtain ⟨before, hbefore, hstep⟩ := Steps.foldlM_snoc.mp hrun
      obtain ⟨outer, houter, hline⟩ := Steps.foldlM_snoc.mp hnest
      have hagrees := ih (fun l hl => hplain l (List.mem_append_left _ hl)) houter hbefore
      obtain ⟨t, ht, rfl⟩ := Option.map_eq_some_iff.mp hstep
      obtain ⟨t₁, hturn, rfl⟩ := Option.map_eq_some_iff.mp ht
      have hturned := agrees_turn hagrees (hplain line (List.mem_append_right _ List.mem_cons_self)) hline hturn
      exact ⟨hturned.flags, hturned.length⟩

/-- In a well nested source whose directives are plain, at every line the flag is true if
and only if every group has selected the branch the line is in, and a line that is not
active defines, undefines and includes nothing. -/
theorem active_iff_selected {pp : Preprocessor} {pack : PackState} {lines : List Line} (hnested : WellNested lines)
    (hplain : ∀ line ∈ lines, Plain line) :
    Steps.Everywhere (groupStep ctx) (.start pp pack, []) (fun _ s line => Correct ctx s line) lines := by
  intro before line after m hl hm
  obtain ⟨nesting, _, hbefore, _⟩ := nest_split hnested hl
  have hmem : ∀ l ∈ before, l ∈ lines := fun l hmem => by
    rw [hl]
    exact List.mem_append_left _ hmem
  have hagrees := agrees_run (fun l hmem' => hplain l (hmem l hmem')) hbefore hm
  have hactive := hagrees.flags.active_eq
  exact ⟨hactive, fun hnone => step_inactive (hactive.trans hnone)⟩

/-- The groups are only watched. -/
theorem foldlM_groupStep (lines : List Line) (groups : List Group) :
    (lines.foldlM (groupStep ctx) (s, groups)).map Prod.fst = lines.foldlM (step ctx) s := by
  induction lines generalizing s groups with
  | nil => rfl
  | cons line lines ih =>
      rw [List.foldlM_cons, List.foldlM_cons, groupStep]
      cases h : step ctx s line with
      | none => rfl
      | some t => exact ih (s := t) _

instance (line : Line) : Decidable (Plain line) :=
  inferInstanceAs (Decidable (∀ p ∈ hash line.text, ∀ word ∈ ["if", "elif", "else", "endif"],
    startswith p word = true → (conditional p).isSome = true))

/-- A group in a group that is skipped. -/
theorem skipped_group_selected : Steps.Everywhere (groupStep alone) (.start noMacros ⟨0, []⟩, [])
    (fun _ s line => Correct alone s line)
    (linesOf "#if 0\n#ifndef A\n#define A\n#else\n#endif\n#elif 1\nint x;\n#endif\n".toList) :=
  active_iff_selected (show _ = some [] by decide) (by decide)

/-- A line that is no directive ends the part that is skipped. -/
theorem elsewhere_not_selected : ¬ ∀ (ctx : Context) (pp : Preprocessor) (pack : PackState) (lines : List Line),
    WellNested lines → Steps.Everywhere (groupStep ctx) (.start pp pack, []) (fun _ s line => Correct ctx s line) lines := by
  intro h
  have hcorrect := h alone noMacros ⟨0, []⟩ (linesOf "#if 0\n#elsewhere\nint x;\n#endif\n".toList)
    (show _ = some [] by decide)
  have hline := hcorrect [⟨"#if 0".toList, 1⟩, ⟨"#elsewhere".toList, 1⟩] ⟨"int x;".toList, 1⟩ [⟨"#endif".toList, 1⟩] _ rfl rfl
  exact absurd hline.1 (by decide)

end Rcc.Preprocess

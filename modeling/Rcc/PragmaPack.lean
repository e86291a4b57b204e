import Rcc.Steps

/-!
# `#pragma pack`, in the preprocessor and in the parser

Both keep a packing value, in the same variable. The preprocessor reads the
directives from the text, follows them with a stack, and writes a directive of
its own into its output wherever it took one to change the value. The parser
begins where the preprocessor ended, with that value, and follows what it finds
written; a struct is laid out under the value at its opening brace.

`Stack` is what the directives say. The directives read so far determine what
each of the three machines holds, so each is a function of them, latest first;
the parser holds the right value at a struct or not, and `Kept` tells which by
the last directive alone.
-/

namespace Rcc.PragmaPack

/-! ## The text -/

/-- The alignments that a directive names. -/
inductive PackSize where
  | one | two | four | eight | sixteen
deriving DecidableEq, Repr

def PackSize.val : PackSize → Nat
  | .one => 1
  | .two => 2
  | .four => 4
  | .eight => 8
  | .sixteen => 16

def PackSize.text : PackSize → List Char
  | .one => ['1']
  | .two => ['2']
  | .four => ['4']
  | .eight => ['8']
  | .sixteen => ['1', '6']

inductive Directive where
  | set (n : PackSize)
  | push (n : Option PackSize)
  | pop
  | reset
deriving DecidableEq, Repr

def isspace (c : Char) : Bool :=
  c = ' ' || c = '\t' || c = '\n' || c = '\x0b' || c = '\x0c' || c = '\r'

/-- Blanks between the tokens of a directive. -/
structure Blanks where
  chars : List Char
  blank : ∀ c ∈ chars, isspace c = true

/-- What stands in the parentheses of a directive. -/
def Directive.arg (w : Nat → Blanks) : Directive → List Char
  | .set n => n.text
  | .push none => ['p', 'u', 's', 'h']
  | .push (some n) => ['p', 'u', 's', 'h'] ++ ((w 2).chars ++ ',' :: ((w 3).chars ++ n.text))
  | .pop => ['p', 'o', 'p']
  | .reset => []

/-- What stands behind `#pragma pack`. -/
def Directive.text (w : Nat → Blanks) (d : Directive) : List Char :=
  (w 0).chars ++ '(' :: ((w 1).chars ++ (d.arg w ++ ((w 4).chars ++ [')'])))

/-- What the parser is in the middle of: the braces of a struct or union, a
compound statement, or anything else, such as an unfinished declaration. -/
inductive Construct where
  | structBody | block | other
deriving DecidableEq, Repr

inductive Token where
  | start (c : Construct)
  | finish
deriving DecidableEq, Repr

/-- A source file, from where it is read on. -/
inductive Source where
  | eof
  | pragma (d : Directive) (w : Nat → Blanks) (rest : Source)
  | token (t : Token) (rest : Source)
  | included (file rest : Source)

/-! ## The preprocessor -/

/-- `pack_align`, and `pack_align_stack` below `pack_align_idx` -/
structure PackState where
  align : Nat
  stack : List Nat
deriving DecidableEq, Repr

/-- What the preprocessor passes on. A directive is written out as
`# pragma pack(n)` or `# pragma pack()`. -/
inductive Line where
  | token (t : Token)
  | pack (arg : Option Nat)
deriving DecidableEq, Repr

def skipBlanks (s : List Char) : List Char := s.dropWhile isspace

/-- Behind the character and the blanks that follow it, if it is there. -/
def skipChar (c : Char) (s : List Char) : List Char :=
  match s with
  | c' :: rest => if c' = c then skipBlanks rest else s
  | [] => s

/-- `*s - '0'`, if `*s` is a digit and not zero. -/
def digit (s : List Char) : Option Nat :=
  match s with
  | c :: _ => if '1' ≤ c ∧ c ≤ '9' then some (c.toNat - '0'.toNat) else none
  | [] => none

/-- The branch of `preprocess_file` for `#pragma pack`. There is no state beyond
the ends of `pack_align_stack`. -/
def pragmaPack (st : PackState) (s : List Char) : Option (PackState × List Line) :=
  let s := skipChar '(' (skipBlanks s)
  if ['p', 'u', 's', 'h'].isPrefixOf s then
    if st.stack.length < 16 then
      let s := skipChar ',' (skipBlanks (s.drop 4))
      let align := (digit s).getD st.align
      some (⟨align, st.align :: st.stack⟩, [.pack (some align)])
    else none
  else if ['p', 'o', 'p'].isPrefixOf s then
    match st.stack with
    | align :: below => some (⟨align, below⟩, [.pack none])
    | [] => none
  else match digit s with
    | some n => some (⟨n, st.stack⟩, [.pack (some n)])
    | none => some (st, [])

/-- `preprocess_file`. An included file goes on with the same state. -/
def preprocess (st : PackState) : Source → Option (PackState × List Line)
  | .eof => some (st, [])
  | .pragma d w rest =>
      (pragmaPack st (d.text w)).bind fun (st, lines) =>
        (preprocess st rest).map fun (st, more) => (st, lines ++ more)
  | .token t rest => (preprocess st rest).map fun (st, more) => (st, .token t :: more)
  | .included file rest =>
      (preprocess st file).bind fun (st, lines) =>
        (preprocess st rest).map fun (st, more) => (st, lines ++ more)

/-! ## The parser -/

/-- `pack_align`, the constructs that are open, and what `struct_pack` was
initialised to for each struct so far. -/
structure ParseState where
  packAlign : Nat
  nesting : List Construct
  used : List Nat
deriving DecidableEq, Repr

/-- The parser looks for directives in `parse` and in `compound_stmt`. -/
def looksForPragma (nesting : List Construct) : Bool :=
  match nesting with
  | [] => true
  | c :: _ => c = .block

def parseLine (P : ParseState) (l : Line) : Option ParseState :=
  match l with
  | .token (.start c) =>
      some { P with
        nesting := c :: P.nesting
        used := if c = .structBody then P.used ++ [P.packAlign] else P.used }
  | .token .finish =>
      match P.nesting with
      | _ :: nesting => some { P with nesting }
      | [] => none
  | .pack arg => if looksForPragma P.nesting then some { P with packAlign := arg.getD 0 } else none

/-- The values under which the structs of a source are laid out. -/
def compile (src : Source) : Option (List Nat) :=
  (preprocess ⟨0, []⟩ src).bind fun (st, lines) =>
    (lines.foldlM parseLine ⟨st.align, [], []⟩).map (·.used)

/-! ## What the directives say -/

/-- The value in force and those pushed before it. -/
structure Stack where
  top : Nat
  below : List Nat
deriving DecidableEq, Repr

/-- A pop without a push changes nothing. -/
def Stack.apply (S : Stack) (d : Directive) : Stack :=
  match d with
  | .set n => { S with top := n.val }
  | .push n => ⟨(n.map PackSize.val).getD S.top, S.top :: S.below⟩
  | .pop => match S.below with
    | top :: below => ⟨top, below⟩
    | [] => S
  | .reset => { S with top := 0 }

/-- A text with its included files in place. -/
inductive Item where
  | directive (d : Directive)
  | token (t : Token)
deriving DecidableEq, Repr

def Source.items : Source → List Item
  | .eof => []
  | .pragma d _ rest => .directive d :: rest.items
  | .token t rest => .token t :: rest.items
  | .included file rest => file.items ++ rest.items

/-- The directives of a text, latest first, and the constructs open behind it. -/
structure Text where
  read : List Directive
  nesting : List Construct
deriving DecidableEq, Repr

/-- Texts are well bracketed. -/
def Text.next (t : Text) (i : Item) : Option Text :=
  match i with
  | .directive d => some { t with read := d :: t.read }
  | .token (.start c) => some { t with nesting := c :: t.nesting }
  | .token .finish =>
      match t.nesting with
      | _ :: nesting => some { t with nesting }
      | [] => none

/-- The value in force behind the directives. -/
def inForce (ds : List Directive) : Stack := ds.foldr (fun d S => S.apply d) ⟨0, []⟩

/-- The values that the structs of a text should be laid out under. -/
def wanted : List Directive → List Item → List Nat
  | _, [] => []
  | ds, .directive d :: rest => wanted (d :: ds) rest
  | ds, .token (.start .structBody) :: rest => (inForce ds).top :: wanted ds rest
  | ds, .token _ :: rest => wanted ds rest

/-- The preprocessor and the parser do with the directives what they say. -/
def Agrees (src : Source) : Prop := compile src = some (wanted [] src.items)

/-! ## One directive -/

variable {st st' : PackState} {P P' : ParseState} {d : Directive} {ds : List Directive}
  {ns : List Construct} {is : List Item}

/-- What the preprocessor takes a size for. -/
def PackSize.digit : PackSize → Nat
  | .sixteen => 1
  | n => n.val

/-- `pragmaPack` on the directives themselves. -/
def ppStep (st : PackState) : Directive → Option (PackState × List Line)
  | .set n => some (⟨n.digit, st.stack⟩, [.pack (some n.digit)])
  | .push n =>
      if st.stack.length < 16 then
        let align := (n.map PackSize.digit).getD st.align
        some (⟨align, st.align :: st.stack⟩, [.pack (some align)])
      else none
  | .pop => match st.stack with
    | align :: below => some (⟨align, below⟩, [.pack none])
    | [] => none
  | .reset => some (st, [])

theorem skipBlanks_blanks (w : Blanks) (s : List Char) : skipBlanks (w.chars ++ s) = skipBlanks s :=
  List.dropWhile_append_of_pos w.blank

theorem skipBlanks_char {c : Char} (h : isspace c = false) (s : List Char) :
    skipBlanks (c :: s) = c :: s := by
  rw [skipBlanks, List.dropWhile_cons_of_neg (by rw [h]; decide)]

theorem skipChar_self (c : Char) (s : List Char) : skipChar c (c :: s) = skipBlanks s := if_pos rfl

theorem skipChar_ne {c c' : Char} (h : c' ≠ c) (s : List Char) : skipChar c (c' :: s) = c' :: s :=
  if_neg h

theorem PackSize.skipBlanks_text (n : PackSize) (s : List Char) :
    skipBlanks (n.text ++ s) = n.text ++ s := by
  cases n <;> exact skipBlanks_char rfl _

theorem PackSize.digit_text (n : PackSize) (s : List Char) : PragmaPack.digit (n.text ++ s) = some n.digit := by
  cases n <;> rfl

theorem PackSize.not_push (n : PackSize) (s : List Char) :
    ['p', 'u', 's', 'h'].isPrefixOf (n.text ++ s) = false := by
  cases n <;> rfl

theorem PackSize.not_pop (n : PackSize) (s : List Char) :
    ['p', 'o', 'p'].isPrefixOf (n.text ++ s) = false := by
  cases n <;> rfl

/-- The preprocessor reads a directive as it is meant, up to the second digit. -/
theorem pragmaPack_text (st : PackState) (w : Nat → Blanks) (d : Directive) :
    pragmaPack st (d.text w) = ppStep st d := by
  rw [pragmaPack, Directive.text, skipBlanks_blanks, skipBlanks_char (by decide), skipChar_self,
    skipBlanks_blanks]
  cases d with
  | set n =>
      simp only [Directive.arg, n.skipBlanks_text, n.not_push, n.not_pop, n.digit_text]
      rfl
  | push n =>
      cases n with
      | none =>
          have hblank : skipBlanks ((w 4).chars ++ [')']) = [')'] := by
            rw [skipBlanks_blanks]
            rfl
          simp only [Directive.arg, List.cons_append, List.nil_append, skipBlanks_char (c := 'p') rfl,
            List.isPrefixOf_cons_cons, List.isPrefixOf_nil_left, List.drop_succ_cons, List.drop_zero, hblank]
          rfl
      | some n =>
          simp only [Directive.arg, List.cons_append, List.nil_append, skipBlanks_char (c := 'p') rfl,
            List.isPrefixOf_cons_cons, List.isPrefixOf_nil_left, List.drop_succ_cons, List.drop_zero]
          simp only [List.append_assoc, List.cons_append, skipBlanks_blanks,
            skipBlanks_char (c := ',') rfl, skipChar_self, n.skipBlanks_text, n.digit_text]
          rfl
  | pop => rfl
  | reset =>
      simp only [Directive.arg, List.nil_append, skipBlanks_blanks]
      rfl

/-! ## The preprocessor and the parser in step -/

/-- Both on one item: the parser takes what the preprocessor writes for it. -/
def step (s : PackState × ParseState) (i : Item) : Option (PackState × ParseState) :=
  match i with
  | .directive d => (ppStep s.1 d).bind fun (st, lines) => (lines.foldlM parseLine s.2).map fun P => (st, P)
  | .token t => (parseLine s.2 (.token t)).map fun P => (s.1, P)

/-- The passes one after the other. -/
def passes (st : PackState) (P : ParseState) (src : Source) : Option (PackState × ParseState) :=
  (preprocess st src).bind fun (st, lines) => (lines.foldlM parseLine P).map fun P => (st, P)

/-- The parser takes what was written before the rest of a source, then the rest. -/
theorem passes_append (lines : List Line) (rest : Source) :
    (((preprocess st rest).map fun (st, more) => (st, lines ++ more)).bind fun (st, lines) =>
        (lines.foldlM parseLine P).map fun P => (st, P)) =
      (lines.foldlM parseLine P).bind fun P => passes st P rest := by
  unfold passes
  cases preprocess st rest with
  | none =>
      cases lines.foldlM parseLine P with
      | none => rfl
      | some P => rfl
  | some r =>
      simp only [Option.map_some, Option.bind_some, List.foldlM_append]
      cases hlines : lines.foldlM parseLine P with
      | none => rfl
      | some P => rfl

/-- The passes one after the other do what they do in step. -/
theorem passes_eq (src : Source) (st : PackState) (P : ParseState) :
    passes st P src = src.items.foldlM step (st, P) := by
  induction src generalizing st P with
  | eof => rfl
  | pragma d w rest ih =>
      rw [passes, preprocess, pragmaPack_text, Source.items, List.foldlM_cons, step]
      cases ppStep st d with
      | none => rfl
      | some r =>
          simp only [Option.bind_some, passes_append, ih]
          cases r.2.foldlM parseLine P with
          | none => rfl
          | some P => rfl
  | token t rest ih =>
      rw [passes, preprocess, Source.items, List.foldlM_cons, step]
      refine (passes_append [.token t] rest).trans ?_
      simp only [ih, List.foldlM_cons, List.foldlM_nil]
      cases parseLine P (.token t) with
      | none => rfl
      | some P => rfl
  | included file rest ihf ih =>
      rw [Source.items, List.foldlM_append, ← ihf, passes, passes, preprocess]
      cases preprocess st file with
      | none => rfl
      | some r =>
          simp only [Option.bind_some, passes_append, ih]
          cases r.2.foldlM parseLine P with
          | none => rfl
          | some P => rfl

/-- The preprocessor behind the directives, where it has a state. -/
def PackState.apply (st : PackState) (d : Directive) : PackState :=
  match d with
  | .set n => { st with align := n.digit }
  | .push n => ⟨(n.map PackSize.digit).getD st.align, st.align :: st.stack⟩
  | .pop => match st.stack with
    | align :: below => ⟨align, below⟩
    | [] => st
  | .reset => st

def ppValue (ds : List Directive) : PackState := ds.foldr (fun d st => st.apply d) ⟨0, []⟩

/-- What the parser holds behind the directives, if it began with the value `last`. -/
def parserValue (last : Nat) : List Directive → Nat
  | [] => last
  | .set n :: _ => n.digit
  | .push (some n) :: _ => n.digit
  | .push none :: ds => (ppValue ds).align
  | .pop :: _ => 0
  | .reset :: ds => parserValue last ds

/-! ## When the value is kept -/

/-- The parser has no packing value: the last thing it was told is a pop, or a
push of the preprocessor's zero. -/
def Cleared (last : Nat) : List Directive → Prop
  | [] => last = 0
  | .set _ :: _ => False
  | .push (some _) :: _ => False
  | .push none :: ds => (ppValue ds).align = 0
  | .pop :: _ => True
  | .reset :: ds => Cleared last ds

/-- The parser has the value in force, by the directive it comes from. -/
def Kept (last : Nat) : List Directive → Prop
  | [] => last = 0
  | .set n :: _ => n ≠ .sixteen
  | .push (some n) :: _ => n ≠ .sixteen
  | .push none :: ds => (ppValue ds).align = (inForce ds).top
  | .pop :: ds => ((inForce ds).apply .pop).top = 0
  | .reset :: ds => Cleared last ds

theorem PackSize.digit_eq_iff (n : PackSize) : n.digit = n.val ↔ n ≠ .sixteen := by
  cases n <;> decide

theorem PackSize.digit_pos (n : PackSize) : 0 < n.digit := by
  cases n <;> decide

theorem cleared_iff (last : Nat) (ds : List Directive) : Cleared last ds ↔ parserValue last ds = 0 := by
  induction ds with
  | nil => exact Iff.rfl
  | cons d ds ih =>
      match d with
      | .set n => exact iff_of_false id (Nat.ne_of_gt n.digit_pos)
      | .push (some n) => exact iff_of_false id (Nat.ne_of_gt n.digit_pos)
      | .push none => exact Iff.rfl
      | .pop => exact iff_of_true trivial rfl
      | .reset => exact ih

theorem kept_iff (last : Nat) (ds : List Directive) :
    Kept last ds ↔ parserValue last ds = (inForce ds).top := by
  match ds with
  | [] => exact Iff.rfl
  | .set n :: _ => exact n.digit_eq_iff.symm
  | .push (some n) :: _ => exact n.digit_eq_iff.symm
  | .push none :: ds => exact Iff.rfl
  | .pop :: ds => exact eq_comm
  | .reset :: ds => exact cleared_iff last ds

/-- There is a place on the stack, or a value on it. -/
def HasRoom (ds : List Directive) : Directive → Prop
  | .push _ => (inForce ds).below.length < 16
  | .pop => (inForce ds).below ≠ []
  | _ => True

/-- What an item takes to be treated as it should. -/
def Fine (last : Nat) (t : Text) : Item → Prop
  | .directive d => HasRoom t.read d ∧ (d ≠ .reset → looksForPragma t.nesting = true)
  | .token (.start .structBody) => Kept last t.read
  | .token _ => True

/-! ## Whole texts -/

variable {last : Nat} {used : List Nat} {t : Text} {src : Source}

theorem stack_length (ds : List Directive) : (ppValue ds).stack.length = (inForce ds).below.length := by
  induction ds with
  | nil => rfl
  | cons d ds ih =>
      show ((ppValue ds).apply d).stack.length = ((inForce ds).apply d).below.length
      cases d with
      | set n => exact ih
      | push n => exact congrArg (· + 1) ih
      | pop =>
          rw [PackState.apply, Stack.apply]
          match hst : (ppValue ds).stack, hS : (inForce ds).below with
          | [], [] => rw [hst, hS]
          | [], _ :: _ => rw [hst, hS] at ih; exact absurd ih nofun
          | _ :: _, [] => rw [hst, hS] at ih; exact absurd ih nofun
          | _ :: _, _ :: _ => rw [hst, hS] at ih; exact Nat.succ.inj ih
      | reset => exact ih

theorem ppStep_apply {lines : List Line} (h : ppStep st d = some (st', lines)) : st' = st.apply d := by
  cases d with
  | set n => exact (congrArg Prod.fst (Option.some_inj.mp h)).symm
  | push n => exact (congrArg Prod.fst (Option.some_inj.mp (Option.ite_none_right_eq_some.mp h).2)).symm
  | pop =>
      rw [ppStep] at h
      rw [PackState.apply]
      cases hst : st.stack with
      | nil =>
          rw [hst] at h
          exact absurd h nofun
      | cons align below =>
          rw [hst] at h
          exact (congrArg Prod.fst (Option.some_inj.mp h)).symm
  | reset => exact (congrArg Prod.fst (Option.some_inj.mp h)).symm

/-- The machines where the directives are behind both. -/
def behind (last : Nat) (used : List Nat) (t : Text) : PackState × ParseState :=
  (ppValue t.read, ⟨parserValue last t.read, t.nesting, used⟩)

theorem parseLine_pack {P' : ParseState} {arg : Option Nat} : parseLine P (.pack arg) = some P' ↔
    looksForPragma P.nesting = true ∧ P' = { P with packAlign := arg.getD 0 } := by
  rw [parseLine, Option.ite_none_right_eq_some, Option.some_inj, eq_comm (a := P')]

/-- A directive that is written out. -/
theorem step_written {arg : Option Nat} {s : PackState × ParseState}
    (h : ppStep st d = some (st', [.pack arg])) : step (st, P) (.directive d) = some s ↔
      looksForPragma P.nesting = true ∧ s = (st', { P with packAlign := arg.getD 0 }) := by
  simp only [step, h, Option.bind_some, List.foldlM_cons, List.foldlM_nil]
  show ((parseLine P (.pack arg)).bind some).map _ = _ ↔ _
  simp only [Option.bind_fun_some, Option.map_eq_some_iff, parseLine_pack, and_assoc, exists_and_left,
    exists_eq_left, eq_comm (b := s)]

theorem step_directive {s : PackState × ParseState} : step (behind last used t) (.directive d) = some s ↔
    (HasRoom t.read d ∧ (d ≠ .reset → looksForPragma t.nesting = true)) ∧
      s = behind last used { t with read := d :: t.read } := by
  have hlen := stack_length t.read
  cases d with
  | set n =>
      rw [behind, step_written rfl]
      simp only [HasRoom, ne_eq, reduceCtorEq, not_false_eq_true, forall_true_left, true_and]
      rfl
  | push n =>
      by_cases hroom : (ppValue t.read).stack.length < 16
      · have hsome : ppStep (ppValue t.read) (.push n) = some
            (⟨(n.map PackSize.digit).getD (ppValue t.read).align,
              (ppValue t.read).align :: (ppValue t.read).stack⟩,
              [.pack (some ((n.map PackSize.digit).getD (ppValue t.read).align))]) := if_pos hroom
        rw [behind, step_written hsome]
        simp only [HasRoom, ← hlen, hroom, ne_eq, reduceCtorEq, not_false_eq_true, forall_true_left,
          true_and]
        cases n with
        | none => rfl
        | some n => rfl
      · have hnone : ppStep (ppValue t.read) (.push n) = none := if_neg hroom
        rw [behind, step, hnone]
        exact iff_of_false nofun fun h => hroom (hlen ▸ h.1.1)
  | pop =>
      cases hst : (ppValue t.read).stack with
      | nil =>
          have hnone : ppStep (ppValue t.read) .pop = none := by rw [ppStep, hst]
          rw [behind, step, hnone]
          refine iff_of_false nofun fun h => h.1.1 (List.eq_nil_of_length_eq_zero ?_)
          rw [← hlen, hst]
          rfl
      | cons align below =>
          have hsome : ppStep (ppValue t.read) .pop = some (⟨align, below⟩, [.pack none]) := by
            rw [ppStep, hst]
          have hnext : ppValue (.pop :: t.read) = ⟨align, below⟩ := (ppStep_apply hsome).symm
          have hroom : (inForce t.read).below ≠ [] := fun hnil => by
            rw [hst, hnil] at hlen
            exact absurd hlen nofun
          rw [behind, step_written hsome, behind, hnext]
          simp only [HasRoom, hroom, ne_eq, reduceCtorEq, not_false_eq_true, forall_true_left, true_and]
          rfl
  | reset =>
      rw [step]
      simp only [HasRoom, ne_eq, not_true_eq_false, false_imp_iff, and_self, true_and]
      exact (Option.some_inj.trans eq_comm)

theorem next_read {t' : Text} {tok : Token} (h : t.next (.token tok) = some t') : t'.read = t.read := by
  cases tok with
  | start c => rw [← Option.some_inj.mp h]
  | finish =>
      rw [Text.next] at h
      cases hns : t.nesting with
      | nil =>
          rw [hns] at h
          exact absurd h nofun
      | cons c ns =>
          rw [hns] at h
          rw [← Option.some_inj.mp h]

/-- What a token adds to the values used. -/
def noteStruct (value : Nat) (tok : Token) : List Nat :=
  if tok = .start .structBody then [value] else []

theorem step_token (last : Nat) (used : List Nat) (t : Text) (tok : Token) :
    step (behind last used t) (.token tok) =
      (t.next (.token tok)).map (behind last (used ++ noteStruct (parserValue last t.read) tok)) := by
  cases tok with
  | start c =>
      cases c with
      | structBody => rfl
      | block => rw [noteStruct, if_neg nofun, List.append_nil]; rfl
      | other => rw [noteStruct, if_neg nofun, List.append_nil]; rfl
  | finish =>
      rw [noteStruct, if_neg nofun, List.append_nil, step, parseLine, Text.next]
      show Option.map _ (match t.nesting with | _ :: nesting => _ | [] => none) = _
      cases t.nesting with
      | nil => rfl
      | cons c ns => rfl

/-- The preprocessor alone. -/
theorem preprocess_state {lines : List Line} (hpp : preprocess (ppValue ds) src = some (st, lines))
    (ht : src.items.foldlM Text.next ⟨ds, ns⟩ = some t) : st = ppValue t.read := by
  induction src generalizing ds ns st lines t with
  | eof =>
      rw [← Option.some_inj.mp ht]
      exact (congrArg Prod.fst (Option.some_inj.mp hpp)).symm
  | pragma d w rest ih =>
      obtain ⟨⟨st₁, lines₁⟩, hd, hmore⟩ := Option.bind_eq_some_iff.mp hpp
      obtain ⟨⟨st₂, lines₂⟩, hrest, heq⟩ := Option.map_eq_some_iff.mp hmore
      have hst₁ : st₁ = ppValue (d :: ds) := ppStep_apply (pragmaPack_text _ w d ▸ hd)
      exact (congrArg Prod.fst heq).symm.trans (ih (hst₁ ▸ hrest) ht)
  | token tok rest ih =>
      obtain ⟨⟨st₂, lines₂⟩, hrest, heq⟩ := Option.map_eq_some_iff.mp hpp
      rw [Source.items, List.foldlM_cons] at ht
      obtain ⟨⟨ds', ns'⟩, ht', hitems⟩ := Option.bind_eq_some_iff.mp ht
      obtain rfl : ds' = ds := next_read ht'
      exact (congrArg Prod.fst heq).symm.trans (ih hrest hitems)
  | included file rest ihf ih =>
      obtain ⟨⟨st₁, lines₁⟩, hfile, hmore⟩ := Option.bind_eq_some_iff.mp hpp
      obtain ⟨⟨st₂, lines₂⟩, hrest, heq⟩ := Option.map_eq_some_iff.mp hmore
      rw [Source.items, List.foldlM_append] at ht
      obtain ⟨t', ht', hitems⟩ := Option.bind_eq_some_iff.mp ht
      have hst₁ : st₁ = ppValue t'.read := ihf hfile ht'
      exact (congrArg Prod.fst heq).symm.trans (ih (hst₁ ▸ hrest) hitems)

theorem length_noteStruct (a b : Nat) (tok : Token) :
    (noteStruct a tok).length = (noteStruct b tok).length := by
  rw [noteStruct, noteStruct]
  split <;> rfl

theorem wanted_token (ds : List Directive) (tok : Token) (rest : List Item) :
    wanted ds (.token tok :: rest) = noteStruct (inForce ds).top tok ++ wanted ds rest := by
  cases tok with
  | start c => cases c <;> rfl
  | finish => rfl

theorem fine_token (last : Nat) (t : Text) (tok : Token) : Fine last t (.token tok) ↔
    noteStruct (parserValue last t.read) tok = noteStruct (inForce t.read).top tok := by
  cases tok with
  | start c =>
      cases c with
      | structBody => exact (kept_iff last t.read).trans List.singleton_inj.symm
      | block => exact iff_of_true trivial rfl
      | other => exact iff_of_true trivial rfl
  | finish => exact iff_of_true trivial rfl

theorem parseLine_grows {l : Line} (h : parseLine P l = some P') : P.used <+: P'.used := by
  match l with
  | .pack arg =>
      exact (parseLine_pack.mp h).2 ▸ List.prefix_rfl
  | .token (.start c) =>
      rw [← Option.some_inj.mp h]
      show P.used <+: if c = .structBody then _ else _
      split
      · exact List.prefix_append _ _
      · exact List.prefix_rfl
  | .token .finish =>
      rw [parseLine] at h
      cases hns : P.nesting with
      | nil =>
          rw [hns] at h
          exact absurd h nofun
      | cons c ns =>
          rw [hns] at h
          exact Option.some_inj.mp h ▸ List.prefix_rfl

theorem step_grows {s s' : PackState × ParseState} {i : Item} (h : step s i = some s') :
    s.2.used <+: s'.2.used := by
  cases i with
  | directive d =>
      obtain ⟨⟨st, lines⟩, _, hlines⟩ := Option.bind_eq_some_iff.mp h
      obtain ⟨P, hP, rfl⟩ := Option.map_eq_some_iff.mp hlines
      exact Steps.invariant (I := fun Q => s.2.used <+: Q.used)
        (fun _ _ _ hI hl => hI.trans (parseLine_grows hl)) List.prefix_rfl hP
  | token tok =>
      obtain ⟨P, hP, rfl⟩ := Option.map_eq_some_iff.mp h
      exact parseLine_grows hP

/-- The values used are only added to. -/
theorem used_grows {s s' : PackState × ParseState} (h : is.foldlM step s = some s') :
    s.2.used <+: s'.2.used :=
  Steps.invariant (I := fun r => s.2.used <+: r.2.used) (fun _ _ _ hI hi => hI.trans (step_grows hi))
    List.prefix_rfl h

theorem run_iff (ht : is.foldlM Text.next ⟨ds, ns⟩ = some t) :
    (∃ s, is.foldlM step (behind last used ⟨ds, ns⟩) = some s ∧ s.2.used = used ++ wanted ds is) ↔
      Steps.Everywhere Text.next ⟨ds, ns⟩ (fun _ => Fine last) is := by
  induction is generalizing ds ns used with
  | nil =>
      refine iff_of_true ⟨_, rfl, ?_⟩ Steps.everywhere_nil
      rw [wanted, List.append_nil]
      rfl
  | cons i rest ih =>
      rw [List.foldlM_cons] at ht
      obtain ⟨t', ht', hrest⟩ := Option.bind_eq_some_iff.mp ht
      rw [Steps.everywhere_cons ht', List.foldlM_cons]
      cases i with
      | directive d =>
          obtain rfl := Option.some_inj.mp ht'
          rw [← ih hrest]
          constructor
          · intro h
            obtain ⟨s, hrun, hused⟩ := h
            obtain ⟨m, hm, hrun⟩ := Option.bind_eq_some_iff.mp hrun
            obtain ⟨hfine, hm⟩ := step_directive.mp hm
            exact ⟨hfine, s, hm ▸ hrun, hused⟩
          · intro h
            obtain ⟨hfine, s, hrun, hused⟩ := h
            exact ⟨s, Option.bind_eq_some_iff.mpr ⟨_, step_directive.mpr ⟨hfine, rfl⟩, hrun⟩, hused⟩
      | token tok =>
          obtain ⟨ds', ns'⟩ := t'
          obtain rfl : ds' = ds := next_read ht'
          rw [step_token, ht', Option.map_some, fine_token, wanted_token,
            ← @ih ds' ns' (used ++ noteStruct (parserValue last ds') tok) hrest]
          show (∃ s, List.foldlM step _ rest = some s ∧ _) ↔ _
          constructor
          · intro h
            obtain ⟨s, hrun, hused⟩ := h
            obtain ⟨more, hmore⟩ := used_grows hrun
            rw [hused] at hmore
            have hsplit := List.append_cancel_left ((List.append_assoc _ _ _).symm.trans hmore)
            have hnote := (List.append_inj hsplit (length_noteStruct _ _ _)).1
            exact ⟨hnote, s, hrun, by rw [hused, hnote, List.append_assoc]⟩
          · intro h
            obtain ⟨hnote, s, hrun, hused⟩ := h
            exact ⟨s, hrun, by rw [hused, hnote, List.append_assoc]⟩

theorem compile_eq (ht : src.items.foldlM Text.next ⟨[], []⟩ = some t) :
    compile src = (src.items.foldlM step (behind (ppValue t.read).align [] ⟨[], []⟩)).map
      fun s => s.2.used := by
  rw [← passes_eq, passes, compile]
  show (preprocess (ppValue []) src).bind _ = _
  cases hpp : preprocess (ppValue []) src with
  | none =>
      show none = Option.map _ ((preprocess (ppValue []) src).bind _)
      rw [hpp]
      rfl
  | some r =>
      obtain ⟨st, lines⟩ := r
      obtain rfl : st = ppValue t.read := preprocess_state hpp ht
      show Option.map _ (lines.foldlM parseLine _) = Option.map _ ((preprocess (ppValue []) src).bind _)
      rw [hpp, Option.bind_some, Option.map_map]
      rfl

/-- **`#pragma pack`.** The parser lays every struct out under the value that the
directives before it say, if and only if every directive that is written out
stands where the parser looks for one and the stack is neither full nor empty
for it, and every struct is behind a directive whose value is kept. -/
theorem pack_agrees_iff (ht : src.items.foldlM Text.next ⟨[], []⟩ = some t) :
    Agrees src ↔ Steps.Everywhere Text.next ⟨[], []⟩ (fun _ => Fine (ppValue t.read).align) src.items := by
  rw [Agrees, compile_eq ht, Option.map_eq_some_iff, ← run_iff ht]
  exact Iff.rfl

/-- Nothing between the tokens. -/
def noBlanks (_ : Nat) : Blanks := ⟨[], fun _ h => absurd h List.not_mem_nil⟩

/-- A header with `#pragma pack(push, 1)` and a struct, and behind the header
`#pragma pack(pop)` and another one. -/
def packedHeader : Source :=
  .included
    (.pragma (.push (some .one)) noBlanks (.token (.start .structBody) (.token .finish .eof)))
    (.pragma .pop noBlanks (.token (.start .structBody) (.token .finish .eof)))

theorem packedHeader_agrees : Agrees packedHeader := by
  refine (pack_agrees_iff (t := ⟨[.pop, .push (some .one)], []⟩) rfl).mpr ?_
  refine (Steps.everywhere_cons rfl).mpr ⟨⟨Nat.zero_lt_succ _, fun _ => rfl⟩, ?_⟩
  refine (Steps.everywhere_cons rfl).mpr ⟨fun h => absurd h (by decide), ?_⟩
  refine (Steps.everywhere_cons rfl).mpr ⟨trivial, ?_⟩
  refine (Steps.everywhere_cons rfl).mpr ⟨⟨List.cons_ne_nil _ _, fun _ => rfl⟩, ?_⟩
  refine (Steps.everywhere_cons rfl).mpr ⟨rfl, ?_⟩
  exact (Steps.everywhere_cons rfl).mpr ⟨trivial, Steps.everywhere_nil⟩

/-- `#pragma pack(2)`, `#pragma pack(push, 1)`, `#pragma pack(pop)` and a struct:
its value should be 2 and is 0. -/
theorem popForgets_not_agrees : ¬ Agrees
    (.pragma (.set .two) noBlanks (.pragma (.push (some .one)) noBlanks (.pragma .pop noBlanks
      (.token (.start .structBody) (.token .finish .eof))))) := by
  show compile _ ≠ some _
  decide

end Rcc.PragmaPack

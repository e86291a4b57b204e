import Rcc.CleanLines
import Rcc.MacroSteps
import Rcc.SpliceLaw
import Rcc.VariadicCalls

/-!
# The dump of the macros

`dump_macros` writes a `#define` for each macro, the newest first. A text with these lines
is preprocessed like any other, so it is spliced and its comments are taken out before a
directive is seen. `Printable` is what a `#define` leaves in the table, and for such a macro
the directive that is written is read as it was meant, but for two things that the text does
not have: the name of a named variadic stands apart from its points, and the body is not
told from a comment or from a line that goes on.

That nothing else can make up for it is counted: each line writes one name, so if all names
come back no two lines have become one, then nothing is read inside of a string, and so no
body with a comment can come back.
-/

namespace Rcc.Preprocess

open Lexer (Text isspace headIs startswith)
open Macros (Definition Table History)

/-! ## The code -/

/-- The loop over the parameters, and the points. -/
def dumpParams (d : Definition) : Text :=
  ", ".toList.intercalate (d.params.map String.toList) ++
    (if d.isVariadic then (if d.params ≠ [] then ", ".toList else []) ++ "...".toList else [])

/-- A macro before its body. -/
def dumpHead (name : String) (d : Definition) : Text :=
  "#define ".toList ++ name.toList ++ (if d.isFunction then '(' :: dumpParams d ++ [')'] else []) ++ [' ']

/-- `dump_macros` -/
def dumpMacros (t : Table) : Text := t.dump.flatMap fun m => dumpHead m.1 m.2 ++ m.2.body.toList ++ ['\n']

/-- The macros of some text. -/
def Preprocessed (input : Text) (t : Table) : Prop :=
  ∃ pack s, preprocessLines alone noMacros pack input = some s ∧ s.pp.table = t

/-- The text that is written for the macros gives macros of the same names, each for the same. -/
def DumpsBack (t : Table) : Prop := ∃ t', Preprocessed (dumpMacros t) t' ∧ ∀ name, t'.lookup name = t.lookup name

/-! ## What is defined -/

def Word (w : Text) : Prop := w ≠ [] ∧ ∀ c ∈ w, isIdent2 c = true

/-- A macro that is left by a `#define`. -/
structure Printable (name : String) (d : Definition) : Prop where
  word : ∀ c ∈ name.toList, isIdent2 c = true
  params : ∀ param ∈ d.params, Word param.toList
  length : d.params.length ≤ maxParams
  object : d.isFunction = false → d.params = [] ∧ d.isVariadic = false
  gnu : d.isGnuVariadic = true → d.isVariadic = true
  body : trim d.body.toList = d.body.toList
  oneLine : OneLine d.body.toList
  nameless : name = "" → d.isFunction = false → headIs (fun c => isIdent2 c || c = '(') d.body.toList = false

theorem paramsLoop_words {n : Nat} {params : List Text} {isVariadic isGnu : Bool} {before p : Text} {r : Params}
    (hparams : ∀ w ∈ params, Word w) (h : paramsLoop n params isVariadic isGnu before p = some r) : ∀ w ∈ r.params, Word w := by
  induction n generalizing params isVariadic isGnu before p with
  | zero => cases h
  | succ n ih =>
      rw [paramsLoop] at h
      dsimp only at h
      split at h
      · obtain rfl := Option.some_inj.mp h
        exact hparams
      split at h
      · split at h
        · exact ih hparams h
        · obtain rfl := Option.some_inj.mp h
          exact hparams
      · have hnext : ∀ w ∈ (if (p.dropWhile isspace).takeWhile isIdent2 = [] then params else
            params ++ [(p.dropWhile isspace).takeWhile isIdent2]), Word w := by
          split
          · exact hparams
          · next hne =>
              intro w hw
              rcases List.mem_append.mp hw with hw | hw
              · exact hparams w hw
              · rw [List.mem_singleton.mp hw]
                exact ⟨hne, fun c hc => List.mem_takeWhile_imp hc⟩
        split at h
        · exact ih hnext h
        · exact ih hnext h

/-- What can be between the parentheses of a definition, and the last of them. -/
def isParamChar (c : Char) : Bool := isIdent2 c || isspace c || c = ',' || c = '.' || c = ')'

/-- The loop goes over the parameters only. -/
theorem paramsLoop_rest {n : Nat} {params : List Text} {isVariadic isGnu : Bool} {before p : Text} {r : Params}
    (h : paramsLoop n params isVariadic isGnu before p = some r) : ∃ u, p = u ++ r.rest ∧ ∀ c ∈ u, isParamChar c = true := by
  have hskip : ∀ (ch : Char) (p : Text), isParamChar ch = true → ∃ u, p = u ++ skipChar ch p ∧ ∀ c ∈ u, isParamChar c = true := by
    intro ch p hch
    rw [skipChar]
    split
    · next hhead =>
        cases p with
        | nil => cases hhead
        | cons c p =>
            refine ⟨[c], rfl, fun d hd => ?_⟩
            rw [List.mem_singleton.mp hd, show c = ch from of_decide_eq_true hhead]
            exact hch
    · exact ⟨[], rfl, fun c hc => absurd hc List.not_mem_nil⟩
  have happend : ∀ {u v w : Text}, (∀ c ∈ u, isParamChar c = true) →
      (∃ u', v = u' ++ w ∧ ∀ c ∈ u', isParamChar c = true) → ∃ u', u ++ v = u' ++ w ∧ ∀ c ∈ u', isParamChar c = true := by
    rintro u v w hu ⟨u', rfl, hu'⟩
    exact ⟨u ++ u', (List.append_assoc u u' w).symm, List.forall_mem_append.mpr ⟨hu, hu'⟩⟩
  have hspaces : ∀ p : Text, ∀ c ∈ p.takeWhile isspace, isParamChar c = true := by
    intro p c hc
    have hspace : isspace c = true := List.mem_takeWhile_imp hc
    simp [isParamChar, hspace]
  induction n generalizing params isVariadic isGnu before p with
  | zero => cases h
  | succ n ih =>
      rw [paramsLoop] at h
      dsimp only at h
      split at h
      · obtain rfl := Option.some_inj.mp h
        exact hskip ')' p (by decide)
      rw [← List.takeWhile_append_dropWhile (p := isspace) (l := p)]
      refine happend (hspaces p) ?_
      generalize p.dropWhile isspace = q at h ⊢
      have hcomma : ∀ {rest : Text} (before : Text) (params : List Text) (isVariadic isGnu : Bool), headIs (· = ',') rest = true →
          paramsLoop n params isVariadic isGnu before rest.tail = some r → ∃ u, rest = u ++ r.rest ∧ ∀ c ∈ u, isParamChar c = true := by
        intro rest before params isVariadic isGnu hhead hloop
        obtain ⟨rest, rfl⟩ := comma_cases hhead
        exact happend (u := [',']) (by decide) (ih hloop)
      split at h
      · next hdots =>
          obtain ⟨q', rfl⟩ := List.isPrefixOf_iff_prefix.mp hdots
          refine happend (by decide) ?_
          rw [← List.takeWhile_append_dropWhile (p := isspace) (l := q')]
          refine happend (hspaces q') ?_
          have hdrop : (("...".toList ++ q').drop 3).dropWhile isspace = q'.dropWhile isspace := rfl
          rw [hdrop] at h
          split at h
          · next hhead => exact hcomma _ _ _ _ hhead h
          · obtain rfl := Option.some_inj.mp h
            exact hskip ')' _ (by decide)
      · rw [← List.takeWhile_append_dropWhile (p := isIdent2) (l := q)]
        refine happend (fun c hc => ?_) ?_
        · have hident : isIdent2 c = true := List.mem_takeWhile_imp hc
          simp [isParamChar, hident]
        rw [← List.takeWhile_append_dropWhile (p := isspace) (l := q.dropWhile isIdent2)]
        refine happend (hspaces _) ?_
        split at h
        · next hhead => exact hcomma _ _ _ _ hhead h
        · exact ih h

theorem headIs_of_part {f : Char → Bool} {p q : Text} (hpre : p <+: q) (h : headIs f q = false) : headIs f p = false := by
  obtain ⟨r, rfl⟩ := hpre
  cases p with
  | nil => rfl
  | cons c p => exact h

theorem trim_part (p : Text) : trim p <+: p.dropWhile isspace := List.rdropWhile_prefix isspace _

theorem trim_trim (p : Text) : trim (trim p) = trim p := by
  have hend : stripEnd (trim p) = trim p := List.rdropWhile_idempotent isspace _
  exact (trim_eq_iff (trim p)).mpr ⟨headIs_of_part (trim_part p) (headIs_dropWhile isspace p), (stripEnd_eq_iff _).mp hend⟩

theorem definitionOf_printable {p : Text} {m : String × Definition} (hp : OneLine p) (hspace : headIs isspace p = false)
    (h : definitionOf p = some m) : Printable m.1 m.2 := by
  have hname : ∀ c ∈ (String.ofList (p.takeWhile isIdent2)).toList, isIdent2 c = true := by
    rw [String.toList_ofList]
    exact fun c hc => List.mem_takeWhile_imp hc
  have hgnu := definitionOf_gnu h
  rw [definitionOf] at h
  split at h
  · next q hq =>
      obtain ⟨params, hloop, h⟩ := Option.bind_eq_some_iff.mp h
      obtain ⟨hlength, h⟩ := Option.ite_none_right_eq_some.mp h
      obtain rfl := Option.some_inj.mp h
      obtain ⟨u, hu, _⟩ := paramsLoop_rest hloop
      have hrest : OneLine params.rest := by
        have hdrop := hp.dropWhile isIdent2
        rw [hq, hu] at hdrop
        exact hdrop.tail.sub (List.subset_append_right u _)
      have hwords := paramsLoop_words (fun w hw => absurd hw List.not_mem_nil) hloop
      exact {
        word := hname
        params := fun param hparam => by
          obtain ⟨w, hw, rfl⟩ := List.mem_map.mp hparam
          rw [String.toList_ofList]
          exact hwords w hw
        length := (List.length_map String.ofList).trans_le hlength
        object := fun h => by cases h
        gnu := hgnu
        body := by rw [Params.definition, String.toList_ofList]; exact trim_trim _
        oneLine := by rw [Params.definition, String.toList_ofList]; exact hrest.trim
        nameless := fun _ h => by cases h }
  · next hparen =>
      obtain rfl := Option.some_inj.mp h
      exact {
        word := hname
        params := fun param hparam => absurd hparam List.not_mem_nil
        length := Nat.zero_le _
        object := fun _ => ⟨rfl, rfl⟩
        gnu := hgnu
        body := by rw [String.toList_ofList]; exact trim_trim _
        oneLine := by rw [String.toList_ofList]; exact (hp.dropWhile _).trim
        nameless := fun hnil _ => by
          rw [String.toList_ofList]
          have htake : p.takeWhile isIdent2 = [] := by
            have hlist := congrArg String.toList hnil
            rw [String.toList_ofList] at hlist
            exact hlist
          have hdrop : p.dropWhile isIdent2 = p := by
            have happend := List.takeWhile_append_dropWhile (p := isIdent2) (l := p)
            rw [htake] at happend
            exact happend
          have hhead : headIs (fun c => isIdent2 c || c = '(') p = false := by
            cases p with
            | nil => rfl
            | cons c q =>
                have hident : isIdent2 c = false := by
                  refine Bool.eq_false_iff.mpr fun hc => ?_
                  rw [List.takeWhile_cons_of_pos hc] at htake
                  cases htake
                refine Bool.or_eq_false_iff.mpr ⟨hident, decide_eq_false fun hc => ?_⟩
                exact hparen q (hdrop.trans (hc ▸ rfl))
          rw [hdrop]
          refine headIs_of_part (trim_part p) ?_
          rw [(dropWhile_of_headIs hspace).1]
          exact hhead }

/-! ## What is read -/

section Params

variable {n : Nat} {ps : List Text} {before w q x sp : Text} {isVariadic : Bool}

theorem Word.cons (h : Word w) : ∃ c r, w = c :: r ∧ isIdent2 c = true := by
  cases w with
  | nil => exact absurd rfl h.1
  | cons c r => exact ⟨c, r, rfl, h.2 c List.mem_cons_self⟩

theorem ne_of_isIdent2 {c d : Char} (hc : isIdent2 c = true) (hd : isIdent2 d = false) : c ≠ d := by
  rintro rfl
  exact Bool.false_ne_true (hd.symm.trans hc)

/-- The loop takes a parameter, with or without a blank before it. -/
theorem paramsLoop_word (hw : Word w) (hsp : sp = [] ∨ sp = [' ']) (hident : headIs isIdent2 q = false) (hspace : headIs isspace q = false) :
    paramsLoop (n + 1) ps false false before (sp ++ (w ++ q)) =
      if headIs (· = ',') q then paramsLoop n (ps ++ [w]) false false (',' :: (w.reverse ++ (sp.reverse ++ before))) q.tail
      else paramsLoop n (ps ++ [w]) false false (w.reverse ++ (sp.reverse ++ before)) q := by
  obtain ⟨htake, hdrop⟩ := takeWhile_append_isIdent2 hw.2 hident
  obtain ⟨hdropSpace, htakeSpace⟩ := dropWhile_of_headIs hspace
  obtain ⟨c, r, rfl, hc⟩ := hw.cons
  have hhead : headIs isspace (c :: r ++ q) = false := Bool.eq_false_iff.mpr (isspace_of_isIdent2 hc)
  have hfirst : (sp ++ (c :: r ++ q)).dropWhile isspace = c :: r ++ q ∧ (sp ++ (c :: r ++ q)).takeWhile isspace = sp := by
    obtain ⟨hd, ht⟩ := dropWhile_of_headIs hhead
    rcases hsp with rfl | rfl
    · exact ⟨hd, ht⟩
    · exact ⟨hd, congrArg (' ' :: ·) ht⟩
  have hparen : ¬ (decide (sp ++ (c :: r ++ q) = []) || headIs (· = ')') (sp ++ (c :: r ++ q))) = true := by
    rcases hsp with rfl | rfl
    · rw [decide_eq_false (show ¬ [] ++ (c :: r ++ q) = [] from fun h => by cases h), Bool.false_or]
      exact ne_true_of_eq_false (decide_eq_false (ne_of_isIdent2 hc (by decide)))
    · exact Bool.false_ne_true
  have hdots : ¬ startswith (c :: r ++ q) "..." = true := by
    intro hstart
    obtain ⟨q', hq⟩ := List.isPrefixOf_iff_prefix.mp hstart
    exact ne_of_isIdent2 hc (by decide : isIdent2 '.' = false) (List.cons.inj hq).1.symm
  rw [paramsLoop, if_neg hparen]
  simp only [hfirst.1, hfirst.2, if_neg hdots, htake, hdrop, hdropSpace, htakeSpace, if_neg (List.cons_ne_nil c r),
    List.reverse_nil, List.nil_append]

/-- The points behind a comma are no named variadic. -/
theorem paramsLoop_comma_dots (before : Text) :
    paramsLoop (n + 1) ps false false (',' :: before) (' ' :: ("...)".toList ++ x)) = some ⟨ps, true, false, x⟩ := by
  have hgnu : (decide (ps ≠ []) && headIs (fun c => c ≠ ',' && isIdent2 c) ((' ' :: ',' :: before).dropWhile isspace)) = false :=
    Bool.and_false _
  rw [← hgnu]
  rfl

/-- What is written behind a parameter, before `x`. -/
def dumpRest (isVariadic : Bool) (ws : List Text) (x : Text) : Text :=
  ws.flatMap (", ".toList ++ ·) ++ ((if isVariadic then ", ...".toList else []) ++ ')' :: x)

theorem paramsLoop_dumpRest {ws : List Text} (hw : Word w) (hws : ∀ w ∈ ws, Word w) (hsp : sp = [] ∨ sp = [' '])
    (hn : ws.length + 2 ≤ n) : paramsLoop n ps false false before (sp ++ (w ++ dumpRest isVariadic ws x)) =
      some ⟨ps ++ w :: ws, isVariadic, false, x⟩ := by
  induction ws generalizing w sp ps before n with
  | nil =>
      obtain ⟨n, rfl⟩ : ∃ k, n = k + 2 := ⟨n - 2, by rw [List.length_nil] at hn; omega⟩
      cases isVariadic with
      | false =>
          rw [paramsLoop_word hw hsp rfl rfl]
          rfl
      | true =>
          rw [paramsLoop_word hw hsp rfl rfl]
          exact (if_pos rfl).trans (paramsLoop_comma_dots (w.reverse ++ (sp.reverse ++ before)))
  | cons w' ws ih =>
      obtain ⟨n, rfl⟩ : ∃ k, n = k + 1 := ⟨n - 1, by omega⟩
      obtain ⟨hw', hws'⟩ := List.forall_mem_cons.mp hws
      have hrest : dumpRest isVariadic (w' :: ws) x = ',' :: ([' '] ++ (w' ++ dumpRest isVariadic ws x)) := by
        rw [dumpRest, List.flatMap_cons, List.append_assoc, List.append_assoc]
        rfl
      rw [hrest, paramsLoop_word hw hsp rfl rfl]
      refine (if_pos rfl).trans ?_
      rw [List.tail_cons, ih hw' hws' (.inr rfl) (by rw [List.length_cons] at hn; omega), List.append_assoc]
      rfl

theorem length_dumpRest (isVariadic : Bool) (ws : List Text) (x : Text) : ws.length < (dumpRest isVariadic ws x).length := by
  induction ws with
  | nil =>
      cases isVariadic with
      | false => exact Nat.succ_pos _
      | true => exact Nat.succ_pos _
  | cons w ws ih =>
      have hlength : (dumpRest isVariadic (w :: ws) x).length = (", ".toList ++ w).length + (dumpRest isVariadic ws x).length := by
        rw [← List.length_append, dumpRest, List.flatMap_cons, List.append_assoc]
        rfl
      have hpos : 0 < (", ".toList ++ w).length := Nat.succ_pos _
      rw [hlength, List.length_cons]
      omega

theorem intercalate_cons (sep w : Text) (ws : List Text) : sep.intercalate (w :: ws) = w ++ ws.flatMap (sep ++ ·) := by
  induction ws generalizing w with
  | nil => rfl
  | cons w' ws ih =>
      rw [List.flatMap_cons, List.append_assoc, ← ih w']
      rfl

end Params

/-- What a macro is when its directive is read again, with `x` for the body. -/
def readBack (d : Definition) (x : Text) : Definition := { d with isGnuVariadic := false, body := String.ofList (trim x) }

/-- The text behind the name of the directive. -/
def dumpTail (name : String) (d : Definition) (x : Text) : Text :=
  name.toList ++ ((if d.isFunction then '(' :: dumpParams d ++ [')'] else []) ++ ' ' :: x)

section Read

variable {name : String} {d : Definition} {x : Text}

theorem paramsLoop_dumped (h : Printable name d) (before : Text) : paramsLoop ((dumpParams d ++ ')' :: x).length + 1) [] false false
    before (dumpParams d ++ ')' :: x) = some ⟨d.params.map String.toList, d.isVariadic, false, x⟩ := by
  cases hparams : d.params.map String.toList with
  | nil =>
      rw [List.map_eq_nil_iff] at hparams
      rw [dumpParams, hparams]
      cases d.isVariadic with
      | false => rfl
      | true => rfl
  | cons w ws =>
      have hwords : ∀ w' ∈ w :: ws, Word w' := by
        rw [← hparams]
        intro w' hw'
        obtain ⟨param, hparam, rfl⟩ := List.mem_map.mp hw'
        exact h.params param hparam
      obtain ⟨hw, hws⟩ := List.forall_mem_cons.mp hwords
      have hne : d.params ≠ [] := fun hnil => by
        rw [hnil] at hparams
        cases hparams
      have htext : dumpParams d ++ ')' :: x = [] ++ (w ++ dumpRest d.isVariadic ws x) := by
        rw [dumpParams, hparams, intercalate_cons, if_pos hne, dumpRest, List.nil_append, List.append_assoc, List.append_assoc]
        rfl
      have hlength := length_dumpRest d.isVariadic ws x
      have hpos := List.length_pos_of_ne_nil hw.1
      rw [htext]
      refine paramsLoop_dumpRest hw hws (.inl rfl) ?_
      rw [List.nil_append, List.length_append]
      omega

theorem trim_blank (x : Text) : trim (' ' :: x) = trim x := rfl

/-- The directive is read with what it was written for, but for a named variadic. -/
theorem definitionOf_dumpTail (h : Printable name d)
    (hx : name = "" → d.isFunction = false → headIs (fun c => isIdent2 c || c = '(') (x.dropWhile isspace) = false) :
    definitionOf ((dumpTail name d x).dropWhile isspace) = some (name, readBack d x) := by
  cases hfunction : d.isFunction with
  | true =>
      have htail : dumpTail name d x = name.toList ++ '(' :: (dumpParams d ++ ')' :: ' ' :: x) := by
        rw [dumpTail, hfunction, if_pos rfl, List.cons_append, List.cons_append, List.append_assoc]
        rfl
      obtain ⟨htake, hdrop⟩ := @takeWhile_append_isIdent2 name.toList ('(' :: (dumpParams d ++ ')' :: ' ' :: x)) h.word rfl
      have hspace : headIs isspace (dumpTail name d x) = false := by
        rw [htail]
        cases hname : name.toList with
        | nil => rfl
        | cons c r => exact Bool.eq_false_iff.mpr (isspace_of_isIdent2 (h.word c (hname ▸ List.mem_cons_self)))
      rw [(dropWhile_of_headIs hspace).1, htail, definitionOf_function hdrop, paramsLoop_dumped h, Option.bind_some, htake,
        String.ofList_toList, if_pos ((List.length_map String.toList).trans_le h.length)]
      rw [Params.definition, map_toList, Bool.and_false, trim_blank, readBack, hfunction]
  | false =>
      obtain ⟨hparams, hvariadic⟩ := h.object hfunction
      have hread : readBack d x = ⟨false, false, false, [], String.ofList (trim x)⟩ := by
        rw [readBack, hparams, hvariadic, hfunction]
      have htail : dumpTail name d x = name.toList ++ ' ' :: x := by
        rw [dumpTail, hfunction]
        rfl
      rw [hread, htail]
      by_cases hname : name = ""
      · have hhead := hx hname hfunction
        have hnone : headIs isIdent2 (x.dropWhile isspace) = false ∧ headIs (· = '(') (x.dropWhile isspace) = false := by
          cases hrest : x.dropWhile isspace with
          | nil => exact ⟨rfl, rfl⟩
          | cons c r =>
              rw [hrest] at hhead
              exact Bool.or_eq_false_iff.mp hhead
        obtain ⟨hdrop, htake⟩ := dropWhile_of_headIs hnone.1
        have hempty : (name.toList ++ ' ' :: x).dropWhile isspace = x.dropWhile isspace := by
          rw [hname]
          rfl
        have htrim : trim (x.dropWhile isspace) = trim x := by
          rw [trim, trim, (dropWhile_of_headIs (headIs_dropWhile isspace x)).1]
        rw [hempty, definitionOf_object (hdrop.symm ▸ hnone.2), hdrop, htake, htrim, hname]
      · obtain ⟨htake, hdrop⟩ := @takeWhile_append_isIdent2 name.toList (' ' :: x) h.word rfl
        have hspace : headIs isspace (name.toList ++ ' ' :: x) = false := by
          cases hlist : name.toList with
          | nil => exact absurd (String.toList_eq_nil_iff.mp hlist) hname
          | cons c r => exact Bool.eq_false_iff.mpr (isspace_of_isIdent2 (h.word c (hlist ▸ List.mem_cons_self)))
        rw [(dropWhile_of_headIs hspace).1, definitionOf_object (hdrop.symm ▸ rfl), htake, hdrop, String.ofList_toList, trim_blank]

end Read

/-! ## A line of the dump -/

/-- A line that is written, without its end. -/
def dumpLine (m : String × Definition) : Text := dumpHead m.1 m.2 ++ m.2.body.toList

theorem dumpMacros_eq (t : Table) : dumpMacros t = unlines (t.dump.map dumpLine) := by
  rw [dumpMacros, unlines, List.flatMap_map]
  rfl

/-- No comment, string or line ends or begins at this character. -/
def isPlain (c : Char) : Bool := c ≠ '/' && ! isStringQuote c && c ≠ '\n' && c ≠ '\\'

theorem isPlain_of_ident {c : Char} (hc : isIdent2 c = true) : isPlain c = true := by
  have hslash := ne_of_isIdent2 hc (by decide : isIdent2 '/' = false)
  have hquote := ne_of_isIdent2 hc (by decide : isIdent2 '"' = false)
  have hnewline := ne_of_isIdent2 hc (by decide : isIdent2 '\n' = false)
  have hback := ne_of_isIdent2 hc (by decide : isIdent2 '\\' = false)
  simp [isPlain, isStringQuote, hslash, hquote, hnewline, hback]

section Line

variable {name : String} {d : Definition} {x : Text}

theorem dumpParams_plain (h : Printable name d) : ∀ c ∈ dumpParams d, isPlain c = true := by
  have hwords : ∀ ws : List Text, (∀ w ∈ ws, Word w) → ∀ c ∈ ", ".toList.intercalate ws, isPlain c = true := by
    intro ws hws
    cases ws with
    | nil => exact fun c hc => absurd hc List.not_mem_nil
    | cons w ws =>
        obtain ⟨hw, hws⟩ := List.forall_mem_cons.mp hws
        rw [intercalate_cons]
        refine List.forall_mem_append.mpr ⟨fun c hc => isPlain_of_ident (hw.2 c hc), fun c hc => ?_⟩
        obtain ⟨w', hw', hc⟩ := List.mem_flatMap.mp hc
        rcases List.mem_append.mp hc with hc | hc
        · exact (by decide : ∀ c ∈ ", ".toList, isPlain c = true) c hc
        · exact isPlain_of_ident ((hws w' hw').2 c hc)
  refine List.forall_mem_append.mpr ⟨hwords _ fun w hw => ?_, ?_⟩
  · obtain ⟨param, hparam, rfl⟩ := List.mem_map.mp hw
    exact h.params param hparam
  · split
    · split
      · decide
      · decide
    · exact fun c hc => absurd hc List.not_mem_nil

theorem dumpHead_plain (h : Printable name d) : ∀ c ∈ dumpHead name d, isPlain c = true := by
  refine List.forall_mem_append.mpr ⟨List.forall_mem_append.mpr ⟨List.forall_mem_append.mpr ⟨by decide, fun c hc => ?_⟩, ?_⟩, by decide⟩
  · exact isPlain_of_ident (h.word c hc)
  · split
    · exact List.forall_mem_append.mpr ⟨List.forall_mem_cons.mpr ⟨by decide, dumpParams_plain h⟩, by decide⟩
    · exact fun c hc => absurd hc List.not_mem_nil

theorem plain_parts {c : Char} (h : isPlain c = true) : (c ≠ '/' ∧ isStringQuote c = false) ∧ c ≠ '\n' ∧ c ≠ '\\' := by
  simp only [isPlain, Bool.and_eq_true, decide_eq_true_eq, Bool.not_eq_true'] at h
  exact ⟨⟨h.1.1.1, h.1.1.2⟩, h.1.2, h.2⟩

theorem blankComments_dumpHead (h : Printable name d) (x : Text) : blankComments isStringQuote .code (dumpHead name d ++ x) =
    dumpHead name d ++ blankComments isStringQuote .code x :=
  blankComments_plain (fun c hc => (plain_parts (dumpHead_plain h c hc)).1) x

theorem oneLine_dumpHead (h : Printable name d) (hx : OneLine x) : OneLine (dumpHead name d ++ x) :=
  OneLine.append (fun hmem => (plain_parts (dumpHead_plain h _ hmem)).2.1 rfl) hx

theorem continued_dumpHead (name : String) (d : Definition) (x : Text) : continued (dumpHead name d ++ x) = continued x := by
  rcases List.eq_nil_or_concat x with rfl | ⟨init, c, rfl⟩
  · have hlast : (dumpHead name d).getLast? = some ' ' := List.getLast?_concat
    rw [List.append_nil, continued, hlast]
    rfl
  · rw [List.concat_eq_append, ← List.append_assoc, continued, continued, List.getLast?_concat, List.getLast?_concat]

theorem definedBy_text {r : Text} {m : String × Definition} (h : definitionOf (r.dropWhile isspace) = some m) :
    DefinedBy ("#define ".toList ++ r) m := by
  have hhash : hash ("#define ".toList ++ r) = some ("define ".toList ++ r) := rfl
  have hdirective : directive true ("define ".toList ++ r) = .define := rfl
  have hargument : argumentOf "define" ("define ".toList ++ r) = r.dropWhile isspace := rfl
  exact ⟨_, hhash, hdirective, hargument ▸ h⟩

theorem definedBy_dumpHead (h : Printable name d)
    (hx : name = "" → d.isFunction = false → headIs (fun c => isIdent2 c || c = '(') (x.dropWhile isspace) = false) :
    DefinedBy (dumpHead name d ++ x) (name, readBack d x) := by
  have happend : ∀ a b c x : Text, a ++ b ++ c ++ [' '] ++ x = a ++ (b ++ (c ++ ' ' :: x)) := by
    intro a b c x
    rw [List.append_assoc, List.append_assoc, List.append_assoc]
    rfl
  have htext : dumpHead name d ++ x = "#define ".toList ++ dumpTail name d x := happend _ _ _ x
  exact htext ▸ definedBy_text (definitionOf_dumpTail h hx)

theorem readBack_self (h : Printable name d) (hgnu : d.isGnuVariadic = false) : readBack d d.body.toList = d := by
  rw [readBack, h.body, String.ofList_toList]
  obtain ⟨isFunction, isVariadic, isGnuVariadic, params, body⟩ := d
  obtain rfl : isGnuVariadic = false := hgnu
  rfl

end Line

/-! ## A line without comments -/

/-- The text has no comments, as `strip_comments` reads it. -/
def Uncommented (p : Text) : Prop := blankComments isStringQuote .code p = p

section Uncommented

variable {u p : Text}

theorem Uncommented.right (hu : ∀ c ∈ u, c ≠ '/' ∧ isStringQuote c = false) (h : Uncommented (u ++ p)) : Uncommented p := by
  rw [Uncommented, blankComments_plain hu] at h
  exact List.append_cancel_left h

theorem Uncommented.dropWhile {f : Char → Bool} (hf : ∀ c, f c = true → c ≠ '/' ∧ isStringQuote c = false) (h : Uncommented p) :
    Uncommented (p.dropWhile f) := by
  rw [← List.takeWhile_append_dropWhile (p := f) (l := p)] at h
  exact h.right fun c hc => hf c (List.mem_takeWhile_imp hc)

theorem uncut_of_not {f : Char → Bool} (hslash : f '/' = false) (hquote : f '"' = false) (c : Char) (hc : f c = true) :
    c ≠ '/' ∧ isStringQuote c = false := by
  refine ⟨fun heq => ?_, decide_eq_false fun heq => ?_⟩
  · rw [heq, hslash] at hc
    cases hc
  · rw [heq, hquote] at hc
    cases hc

theorem Uncommented.trim (h : Uncommented p) : Uncommented (trim p) := by
  have hdrop := h.dropWhile (f := isspace) (uncut_of_not rfl rfl)
  obtain ⟨q, hq⟩ := trim_part p
  rw [← hq] at hdrop
  exact blankComments_left rfl hdrop

theorem directive_define (h : directive true p = .define) : startswith p "define" = true := by
  by_contra hdefine
  rw [directive, Bool.eq_false_iff.mpr hdefine] at h
  simp only [Bool.false_and, Bool.false_eq_true, if_false] at h
  repeat' (split at h <;> try cases h)

/-- The body that a line without comments defines has none. -/
theorem Uncommented.body {m : String × Definition} (h : Uncommented p) (hm : DefinedBy p m) : Uncommented m.2.body.toList := by
  obtain ⟨q, hhash, hdirective, hdefinition⟩ := hm
  have hq : Uncommented q := by
    rw [hash] at hhash
    have hdrop := h.dropWhile (f := Lexer.isBlank) (uncut_of_not rfl rfl)
    split at hhash
    · next q' hq' =>
        obtain rfl := Option.some_inj.mp hhash
        rw [hq'] at hdrop
        have hbehind : Uncommented q' := Uncommented.right (u := ['#']) (by decide) hdrop
        exact hbehind.dropWhile (uncut_of_not rfl rfl)
    · cases hhash
  obtain ⟨q', rfl⟩ := List.isPrefixOf_iff_prefix.mp (directive_define hdirective)
  have hbehind : Uncommented q' := hq.right (by decide)
  have hargument : Uncommented (argumentOf "define" ("define".toList ++ q')) := hbehind.dropWhile (uncut_of_not rfl rfl)
  generalize argumentOf "define" ("define".toList ++ q') = arg at hargument hdefinition
  have hrest := hargument.dropWhile (f := isIdent2) (uncut_of_not (by decide) (by decide))
  rw [definitionOf] at hdefinition
  split at hdefinition
  · next r hr =>
      obtain ⟨params, hloop, hdefinition⟩ := Option.bind_eq_some_iff.mp hdefinition
      obtain ⟨_, hdefinition⟩ := Option.ite_none_right_eq_some.mp hdefinition
      obtain rfl := Option.some_inj.mp hdefinition
      obtain ⟨u, hu, hchars⟩ := paramsLoop_rest hloop
      rw [hr] at hrest
      have hr' : Uncommented r := Uncommented.right (u := ['(']) (by decide) hrest
      rw [hu] at hr'
      have hbody := (hr'.right fun c hc => uncut_of_not (by decide) (by decide) c (hchars c hc)).trim
      rw [Params.definition, String.toList_ofList]
      exact hbody
  · obtain rfl := Option.some_inj.mp hdefinition
    rw [String.toList_ofList]
    exact hrest.trim

end Uncommented

/-! ## Tables -/

/-- The macros of a table, as they are written: each name once, and each printable. -/
structure Dumpable (t : Table) : Prop where
  nodup : (t.dump.map Prod.fst).Nodup
  found : ∀ name d, t.lookup name = some d ↔ (name, d) ∈ t.dump
  printable : ∀ m ∈ t.dump, Printable m.1 m.2

section Tables

variable {input : Text} {t : Table}

/-- What is told of the macros of a text. -/
theorem Preprocessed.history (h : Preprocessed input t) : ∃ hist : History, Macros.Invariant (t, hist) ∧
    (∃ names : List String, names.length ≤ (linesOf input).length ∧ ∀ n ∉ names, hist.current n = none) ∧
    ∀ P : String → Definition → Prop, (∀ line ∈ linesOf input, ∀ m, DefinedBy line.text m → P m.1 m.2) → AllMacros P hist := by
  obtain ⟨pack, s, hrun, rfl⟩ := h
  obtain ⟨s₁, hlines, hflush⟩ := Option.bind_eq_some_iff.mp hrun
  obtain ⟨hist, hI, hnames, hall⟩ := run_history hlines Macros.invariant_start
  rw [← (quiet_flush hflush).macros.table] at hI
  refine ⟨hist, hI, hnames, fun P hP => hall P hP ⟨fun name d hd => ?_, fun ms hms => ?_⟩⟩
  · cases hd
  · cases hms

theorem nodup_of_onceIn {l : List (String × Definition)} (h : Macros.OnceIn l) : (l.map Prod.fst).Nodup := by
  refine List.nodup_iff_count_le_one.mpr fun name => ?_
  have hcount : (l.map Prod.fst).count name = (l.filter fun p => p.1 = name).length := by
    rw [List.count_eq_countP, List.countP_map, List.countP_eq_length_filter]
    refine congrArg List.length (List.filter_congr fun p _ => ?_)
    exact beq_eq_decide p.1 name
  exact hcount ▸ h name

theorem Preprocessed.dumpable (h : Preprocessed input t) : Dumpable t := by
  obtain ⟨hist, hI, _, hall⟩ := h.history
  have hnodup := nodup_of_onceIn (Macros.once_iff_dump.mp hI.once)
  have hfound : ∀ name d, t.lookup name = some d ↔ (name, d) ∈ t.dump := by
    intro name d
    have hlookup : t.lookup name = Macros.newest t.dump name := hI.once.lookup hI.hashed name
    rw [hlookup, Macros.newest]
    constructor
    · intro hd
      obtain ⟨m, hfind, rfl⟩ := Option.map_eq_some_iff.mp hd
      have hname : m.1 = name := by simpa using List.find?_some hfind
      exact hname ▸ List.mem_of_find?_eq_some hfind
    · intro hmem
      cases hfind : t.dump.find? fun p => p.1 = name with
      | none => exact absurd (List.find?_eq_none.mp hfind _ hmem) (by simp)
      | some m =>
          have hname : m.1 = name := by simpa using List.find?_some hfind
          have heq : m = (name, d) := List.inj_on_of_nodup_map hnodup (List.mem_of_find?_eq_some hfind) hmem hname
          rw [heq]
          rfl
  refine ⟨hnodup, hfound, fun m hm => ?_⟩
  have hprintable : AllMacros Printable hist := hall Printable fun line hline m hm => by
    obtain ⟨p, hhash, _, hdefinition⟩ := hm
    have hp : OneLine p := by
      rw [hash] at hhash
      have hdrop := (linesOf_oneLine line hline).dropWhile Lexer.isBlank
      split at hhash
      · next q hq =>
          obtain rfl := Option.some_inj.mp hhash
          rw [hq] at hdrop
          exact hdrop.tail.dropWhile isspace
      · cases hhash
    exact definitionOf_printable ((hp.drop _).dropWhile isspace) (headIs_dropWhile isspace _) hdefinition
  refine hprintable.current m.1 m.2 ?_
  rw [← hI.lookup]
  exact (hfound m.1 m.2).mpr hm

end Tables

/-! ## The text of a table -/

/-- What is left of the body of the last macro: a backslash at its end takes the last line end with it. -/
def lastBody (d : Definition) : Text := if continued d.body.toList then d.body.toList.dropLast else d.body.toList

def reread (m : String × Definition) : String × Definition := (m.1, readBack m.2 m.2.body.toList)

section Text

variable {ms : List (String × Definition)} {m : String × Definition}

theorem Printable.bodyPart {name : String} {d : Definition} (h : Printable name d) {x : Text} (hx : x <+: d.body.toList)
    (hname : name = "") (hfunction : d.isFunction = false) : headIs (fun c => isIdent2 c || c = '(') (x.dropWhile isspace) = false := by
  have hspace := headIs_of_part hx ((trim_eq_iff _).mp h.body).1
  rw [(dropWhile_of_headIs hspace).1]
  exact headIs_of_part hx (h.nameless hname hfunction)

theorem lastBody_part (d : Definition) : lastBody d <+: d.body.toList := by
  rw [lastBody]
  split
  · exact List.dropLast_prefix _
  · exact List.prefix_refl _

theorem dropLast_dumpLine (h : continued m.2.body.toList = true) : (dumpLine m).dropLast = dumpHead m.1 m.2 ++ m.2.body.toList.dropLast := by
  refine List.dropLast_append_of_ne_nil fun hnil => ?_
  rw [hnil] at h
  cases h

/-- The lines of a text where only the last can go on, and where there are no comments. -/
theorem linesOf_dump (hms : ∀ m ∈ ms, Printable m.1 m.2 ∧ continued m.2.body.toList = false ∧ Uncommented m.2.body.toList)
    (hm : Printable m.1 m.2) (hclean : Uncommented m.2.body.toList) :
    (linesOf (unlines ((ms ++ [m]).map dumpLine))).map Line.text = ms.map dumpLine ++ [dumpHead m.1 m.2 ++ lastBody m.2] := by
  have hline : ∀ {m : String × Definition}, Printable m.1 m.2 → OneLine (dumpLine m) := fun h => oneLine_dumpHead h h.oneLine
  have huncommented : ∀ {m : String × Definition}, Printable m.1 m.2 → Uncommented m.2.body.toList → Uncommented (dumpLine m) := by
    intro m hprintable hbody
    rw [Uncommented, dumpLine, blankComments_dumpHead hprintable, hbody]
  have hraws : ∀ raw ∈ ms.map dumpLine, OneLine raw ∧ continued raw = false := by
    intro raw hraw
    obtain ⟨m, hm, rfl⟩ := List.mem_map.mp hraw
    exact ⟨hline (hms m hm).1, (continued_dumpHead _ _ _).trans (hms m hm).2.1⟩
  have hcleanRaws : ∀ raw ∈ ms.map dumpLine, blankComments isStringQuote .code raw = raw := by
    intro raw hraw
    obtain ⟨m, hm, rfl⟩ := List.mem_map.mp hraw
    exact huncommented (hms m hm).1 (hms m hm).2.2
  have hlast := huncommented hm hclean
  rw [linesOf_texts, List.map_append, List.map_singleton, withoutPairs_unlines hraws (hline hm),
    linesIn_uncommented hraws rfl hcleanRaws]
  refine congrArg (ms.map dumpLine ++ ·) ?_
  rw [show continued (dumpLine m) = continued m.2.body.toList from continued_dumpHead _ _ _, lastBody]
  cases hcontinued : continued m.2.body.toList with
  | true =>
      rw [if_pos rfl, if_pos rfl, ← dropLast_dumpLine hcontinued]
      have hinit : blankComments isStringQuote .code (dumpLine m).dropLast = (dumpLine m).dropLast := by
        obtain ⟨q, hq⟩ := List.dropLast_prefix (dumpLine m)
        rw [← hq] at hlast
        exact blankComments_left rfl hlast
      rw [hinit]
      refine linesIn_last ((hline hm).sub (List.dropLast_subset _)) ?_
      rw [dropLast_dumpLine hcontinued]
      exact List.append_ne_nil_of_left_ne_nil (List.append_ne_nil_of_right_ne_nil _ (List.cons_ne_nil _ _)) _
  | false =>
      rw [if_neg Bool.false_ne_true, if_neg Bool.false_ne_true, blankComments_newline_append, hlast, linesIn_newline (hline hm)]
      rfl

/-- Such a text is preprocessed to the macros that its lines are read as. -/
theorem preprocess_dump (hms : ∀ m ∈ ms, Printable m.1 m.2 ∧ continued m.2.body.toList = false ∧ Uncommented m.2.body.toList)
    (hm : Printable m.1 m.2) (hclean : Uncommented m.2.body.toList) (pack : PragmaPack.PackState) :
    ∃ s, preprocessLines alone noMacros pack (unlines ((ms ++ [m]).map dumpLine)) = some s ∧
      s.pp.table = (ms.map reread ++ [(m.1, readBack m.2 (lastBody m.2))]).foldl writeDefinition .empty := by
  have hlines : List.Forall₂ (fun (line : Line) m => DefinedBy line.text m) (linesOf (unlines ((ms ++ [m]).map dumpLine)))
      (ms.map reread ++ [(m.1, readBack m.2 (lastBody m.2))]) := by
    rw [← List.forall₂_map_left_iff (f := Line.text), linesOf_dump hms hm hclean]
    refine List.rel_append ?_ (.cons (definedBy_dumpHead hm (hm.bodyPart (lastBody_part m.2))) .nil)
    rw [List.forall₂_map_left_iff, List.forall₂_map_right_iff, List.forall₂_same]
    exact fun m hm => definedBy_dumpHead (hms m hm).1 ((hms m hm).1.bodyPart (List.prefix_refl _))
  obtain ⟨s, hrun, htable, hacc⟩ := run_definedBy (s := .start noMacros pack) rfl rfl hlines
  refine ⟨s, ?_, htable⟩
  rw [preprocessLines, hrun, Option.bind_some, FileState.flush, if_pos hacc]

end Text

/-! ## What comes back -/

/-- The text of a macro has all that the macro is. -/
def Dumps (d : Definition) : Prop :=
  d.isGnuVariadic = false ∧ continued d.body.toList = false ∧ stripComments d.body.toList.length false d.body.toList = d.body.toList

theorem stripComments_eq_self (p : Text) : stripComments p.length false p = p ↔ Uncommented p := by
  rw [stripComments_eq (Nat.le_refl _)]
  rfl

section Back

variable {t t' : Table} {ms : List (String × Definition)} {m : String × Definition}

theorem reread_self (h : Printable m.1 m.2) (hd : Dumps m.2) : reread m = m := Prod.ext rfl (readBack_self h hd.1)

theorem Dumpable.lookup_eq (ht : Dumpable t) (hgnu : ∀ m ∈ t.dump, m.2.isGnuVariadic = true → m.2.isVariadic = true) (name : String) :
    (t.dump.foldl writeDefinition .empty).lookup name = t.lookup name := by
  obtain ⟨hfound, hothers⟩ := lookup_definitions hgnu ht.nodup .empty
  by_cases hname : name ∈ t.dump.map Prod.fst
  · obtain ⟨m, hm, rfl⟩ := List.mem_map.mp hname
    exact (hfound m hm).trans ((ht.found m.1 m.2).mpr hm).symm
  · rw [hothers name hname]
    cases hlookup : t.lookup name with
    | none => rfl
    | some d => exact absurd (List.mem_map_of_mem ((ht.found name d).mp hlookup)) hname

theorem dumpsBack_of_dumps (ht : Dumpable t) (hdumps : ∀ m ∈ t.dump, Dumps m.2) : DumpsBack t := by
  have hgnu : ∀ m ∈ t.dump, m.2.isGnuVariadic = true → m.2.isVariadic = true := fun m hm => (ht.printable m hm).gnu
  rw [DumpsBack, dumpMacros_eq]
  refine ⟨t.dump.foldl writeDefinition .empty, ?_, ht.lookup_eq hgnu⟩
  have hprintable := ht.printable
  rcases List.eq_nil_or_concat t.dump with hnil | ⟨ms, m, hconcat⟩
  · rw [hnil]
    exact ⟨⟨0, []⟩, .start noMacros ⟨0, []⟩, rfl, rfl⟩
  · rw [List.concat_eq_append] at hconcat
    rw [hconcat] at hprintable hdumps ⊢
    obtain ⟨hms, hm⟩ := List.forall_mem_append.mp hprintable
    obtain ⟨hdms, hdm⟩ := List.forall_mem_append.mp hdumps
    have hm := hm m List.mem_cons_self
    have hdm := hdm m List.mem_cons_self
    have hgood : ∀ m ∈ ms, Printable m.1 m.2 ∧ continued m.2.body.toList = false ∧ Uncommented m.2.body.toList := fun m hm =>
      ⟨hms m hm, (hdms m hm).2.1, (stripComments_eq_self _).mp (hdms m hm).2.2⟩
    obtain ⟨s, hrun, htable⟩ := preprocess_dump hgood hm ((stripComments_eq_self _).mp hdm.2.2) ⟨0, []⟩
    refine ⟨⟨0, []⟩, s, hrun, htable.trans ?_⟩
    have hsame : ms.map reread = ms := (List.map_congr_left fun m hm => reread_self (hms m hm) (hdms m hm)).trans (List.map_id' ms)
    have hlast : lastBody m.2 = m.2.body.toList := if_neg (ne_true_of_eq_false hdm.2.1)
    rw [hsame, hlast]
    exact congrArg (fun l => (ms ++ [l]).foldl writeDefinition .empty) (reread_self hm hdm)

theorem getLast?_withoutPairs {raws : List Text} {raw : Text} (hraws : ∀ raw ∈ raws, OneLine raw) (hraw : OneLine raw)
    (hlast : continued raw = false) : (withoutPairs (unlines (raws ++ [raw]))).getLast? = some '\n' := by
  induction raws with
  | nil =>
      rw [List.nil_append, unlines_cons, withoutPairs_line hraw, hlast, if_neg Bool.false_ne_true]
      exact List.getLast?_concat
  | cons raw' raws ih =>
      obtain ⟨hraw', hrest⟩ := List.forall_mem_cons.mp hraws
      rw [List.cons_append, unlines_cons, withoutPairs_line hraw']
      split
      · rw [List.getLast?_append, ih hrest]
        rfl
      · rw [List.getLast?_append, List.getLast?_cons, ih hrest]
        rfl

/-- If there are as many lines as were written, only the last goes on. -/
theorem continued_of_length {raws : List Text} {raw : Text} (hraws : ∀ raw ∈ raws, OneLine raw) (hraw : OneLine raw)
    (h : raws.length + 1 ≤ (linesOf (unlines (raws ++ [raw]))).length) : ∀ raw ∈ raws, continued raw = false := by
  have hall : ∀ r ∈ raws ++ [raw], OneLine r := List.forall_mem_append.mpr ⟨hraws, List.forall_mem_singleton.mpr hraw⟩
  obtain ⟨hle, heq⟩ := length_linesOf_le (unlines (raws ++ [raw]))
  have hcount := count_withoutPairs hall
  rw [List.countP_append] at hcount
  have hcountP : raws.length ≤ raws.countP (! continued ·) := by
    cases hc : continued raw with
    | true =>
        rw [List.countP_cons_of_neg (by rw [hc]; decide), List.countP_nil] at hcount
        omega
    | false =>
        have hlength := heq (.inr (getLast?_withoutPairs hraws hraw hc))
        rw [List.countP_cons_of_pos (by rw [hc]; decide), List.countP_nil] at hcount
        omega
  have hfull := List.countP_eq_length.mp (Nat.le_antisymm List.countP_le_length hcountP)
  intro r hr
  have hr := hfull r hr
  simpa using hr

/-- Each of the names is written by a line of its own. -/
theorem length_le_lines {input : Text} (ht : Dumpable t) (h : Preprocessed input t') (hlookup : ∀ name, t'.lookup name = t.lookup name) :
    t.dump.length ≤ (linesOf input).length := by
  obtain ⟨hist, hI, ⟨names, hlength, hnames⟩, _⟩ := h.history
  have hsubset : t.dump.map Prod.fst ⊆ names := by
    intro name hname
    obtain ⟨m, hm, rfl⟩ := List.mem_map.mp hname
    by_contra hnot
    have hsome := (ht.found m.1 m.2).mpr hm
    rw [← hlookup, hI.lookup, hnames m.1 hnot] at hsome
    cases hsome
  have hle := (List.subperm_of_subset ht.nodup hsubset).length_le
  rw [List.length_map] at hle
  exact Nat.le_trans hle hlength

/-- No line begins in a string, so none has comments when they have been taken out. -/
theorem linesOf_uncommented {raws : List Text} {raw : Text} (hraws : ∀ raw ∈ raws, OneLine raw ∧ continued raw = false) (hraw : OneLine raw) :
    ∀ line ∈ linesOf (unlines (raws ++ [raw])), Uncommented line.text := by
  have hagain : ∀ (m : Mode) (p : Text), m.Starts → Uncommented (blankComments isStringQuote m p) := by
    intro m p hm
    have hsame := @blankComments_again isStringQuote rfl rfl rfl m p
    rw [hm.uncomment] at hsame
    exact hsame
  intro line hline
  have htext : line.text ∈ (linesOf (unlines (raws ++ [raw]))).map Line.text := List.mem_map_of_mem hline
  obtain ⟨lines, m', hm', _, hlines, heq⟩ := @linesIn_blankComments isStringQuote .code raws hraws rfl (.inl rfl)
    (if continued raw then raw.dropLast else raw ++ ['\n'])
  rw [linesOf_texts, withoutPairs_unlines hraws hraw, heq] at htext
  rcases List.mem_append.mp htext with htext | htext
  · obtain ⟨m, p, hm, hp⟩ := hlines _ htext
    rw [hp]
    exact hagain m p hm
  · split at htext
    · have hinit : OneLine raw.dropLast := hraw.sub (List.dropLast_subset _)
      by_cases hnil : blankComments isStringQuote m' raw.dropLast = []
      · rw [hnil] at htext
        cases htext
      · rw [linesIn_last (oneLine_blankComments hinit m') hnil] at htext
        rw [List.mem_singleton.mp htext]
        exact hagain m' _ hm'
    · rw [blankComments_newline_append, linesIn_newline (oneLine_blankComments hraw m')] at htext
      rcases List.mem_cons.mp htext with htext | htext
      · rw [htext]
        exact hagain m' raw hm'
      · cases htext

theorem dumps_of_dumpsBack (ht : Dumpable t) (h : DumpsBack t) : ∀ m ∈ t.dump, Dumps m.2 := by
  obtain ⟨t', hpre, hlookup⟩ := h
  have hlength := length_le_lines ht hpre hlookup
  have hprintable := ht.printable
  have hnodup := ht.nodup
  have hback : ∀ m ∈ t.dump, t'.lookup m.1 = some m.2 := fun m hm => (hlookup m.1).trans ((ht.found m.1 m.2).mpr hm)
  rw [dumpMacros_eq] at hpre hlength
  rcases List.eq_nil_or_concat t.dump with hnil | ⟨ms, m, hconcat⟩
  · rw [hnil]
    exact fun m hm => absurd hm List.not_mem_nil
  rw [List.concat_eq_append] at hconcat
  rw [hconcat] at hpre hlength hprintable hback hnodup ⊢
  obtain ⟨hms, hm⟩ := List.forall_mem_append.mp hprintable
  have hm := hm m List.mem_cons_self
  -- no line but the last goes on
  have hline : ∀ {m : String × Definition}, Printable m.1 m.2 → OneLine (dumpLine m) := fun h => oneLine_dumpHead h h.oneLine
  have hraws : ∀ raw ∈ ms.map dumpLine, OneLine raw := by
    intro raw hraw
    obtain ⟨m, hm, rfl⟩ := List.mem_map.mp hraw
    exact hline (hms m hm)
  rw [List.map_append, List.map_singleton] at hlength hpre
  have hcontinued := continued_of_length hraws (hline hm) (by rw [List.length_append] at hlength; rw [List.length_map]; exact hlength)
  -- so no body has a comment
  obtain ⟨hist, hI, _, hall⟩ := hpre.history
  have hbodies : AllMacros (fun _ d => Uncommented d.body.toList) hist := hall _ fun line hline' m' hm' =>
    (linesOf_uncommented (fun raw hraw => ⟨hraws raw hraw, hcontinued raw hraw⟩) (hline hm) line hline').body hm'
  have hclean : ∀ m' ∈ ms ++ [m], Uncommented m'.2.body.toList := fun m' hm' =>
    hbodies.current m'.1 m'.2 ((hI.lookup m'.1).symm.trans (hback m' hm'))
  -- and each line is read as it was written
  have hgood : ∀ m ∈ ms, Printable m.1 m.2 ∧ continued m.2.body.toList = false ∧ Uncommented m.2.body.toList := by
    intro m' hm'
    refine ⟨hms m' hm', ?_, hclean m' (List.mem_append_left _ hm')⟩
    exact (continued_dumpHead m'.1 m'.2 m'.2.body.toList).symm.trans (hcontinued _ (List.mem_map_of_mem hm'))
  obtain ⟨pack, s, hrun, rfl⟩ := hpre
  obtain ⟨s', hrun', htable⟩ := preprocess_dump hgood hm (hclean m (List.mem_append_right _ List.mem_cons_self)) pack
  rw [List.map_append, List.map_singleton] at hrun'
  obtain rfl := Option.some_inj.mp (hrun'.symm.trans hrun)
  have hnames : (ms.map reread ++ [(m.1, readBack m.2 (lastBody m.2))]).map Prod.fst = (ms ++ [m]).map Prod.fst := by
    rw [List.map_append, List.map_append, List.map_map]
    rfl
  have hread : ∀ m' ∈ ms.map reread ++ [(m.1, readBack m.2 (lastBody m.2))], m'.2.isGnuVariadic = false := by
    refine List.forall_mem_append.mpr ⟨fun m' hm' => ?_, List.forall_mem_singleton.mpr rfl⟩
    obtain ⟨m₀, _, rfl⟩ := List.mem_map.mp hm'
    rfl
  obtain ⟨hfound, _⟩ := lookup_definitions (fun m' hm' h => absurd (h.symm.trans (hread m' hm')) (by decide)) (hnames ▸ hnodup) .empty
  rw [← htable] at hfound
  have hsame : ∀ m' ∈ ms, readBack m'.2 m'.2.body.toList = m'.2 := fun m' hm' =>
    Option.some_inj.mp ((hfound (reread m') (List.mem_append_left _ (List.mem_map_of_mem hm'))).symm.trans
      (hback m' (List.mem_append_left _ hm')))
  have hsameLast : readBack m.2 (lastBody m.2) = m.2 :=
    Option.some_inj.mp ((hfound (m.1, readBack m.2 (lastBody m.2)) (List.mem_append_right _ List.mem_cons_self)).symm.trans
      (hback m (List.mem_append_right _ List.mem_cons_self)))
  refine List.forall_mem_append.mpr ⟨fun m' hm' => ?_, List.forall_mem_singleton.mpr ?_⟩
  · exact ⟨congrArg Definition.isGnuVariadic (hsame m' hm').symm, (hgood m' hm').2.1, (stripComments_eq_self _).mpr (hgood m' hm').2.2⟩
  · refine ⟨congrArg Definition.isGnuVariadic hsameLast.symm, ?_,
      (stripComments_eq_self _).mpr (hclean m (List.mem_append_right _ List.mem_cons_self))⟩
    -- a body that lost its last character is shorter
    by_contra hcontinued
    have hbody : trim (lastBody m.2) = m.2.body.toList := by
      have hlist := congrArg (fun d : Definition => d.body.toList) hsameLast
      rw [show (readBack m.2 (lastBody m.2)).body = String.ofList (trim (lastBody m.2)) from rfl, String.toList_ofList] at hlist
      exact hlist
    rw [Bool.not_eq_false] at hcontinued
    have hle := (trim_part (lastBody m.2)).length_le
    have hdrop := (List.dropWhile_sublist isspace (l := lastBody m.2)).length_le
    rw [hbody] at hle
    rw [lastBody, if_pos hcontinued] at hdrop hle
    have hpos : 0 < m.2.body.toList.length := List.length_pos_of_ne_nil fun hnil => by
      rw [hnil] at hcontinued
      cases hcontinued
    rw [List.length_dropLast] at hdrop
    omega

end Back

/-! ## One definition -/

section OneDefinition

variable {input : Text} {line : Line} {m : String × Definition}

theorem preprocessed_one (hlines : linesOf input = [line]) (hm : DefinedBy line.text m) :
    Preprocessed input (writeDefinition .empty m) := by
  obtain ⟨s, hrun, htable, hacc⟩ := run_definedBy (s := .start noMacros ⟨0, []⟩) rfl rfl (.cons hm .nil)
  refine ⟨⟨0, []⟩, s, ?_, htable⟩
  rw [preprocessLines, hlines, hrun, Option.bind_some, FileState.flush, if_pos hacc]

theorem mem_dump_one (hlines : linesOf input = [line]) (hm : DefinedBy line.text m) (hgnu : m.2.isGnuVariadic = true → m.2.isVariadic = true)
    (m' : String × Definition) : m' ∈ (writeDefinition .empty m).dump ↔ m' = m := by
  have hfound := (preprocessed_one hlines hm).dumpable.found m'.1 m'.2
  rw [lookup_writeDefinition .empty hgnu] at hfound
  refine hfound.symm.trans ⟨fun h => ?_, fun h => ?_⟩
  · split at h
    · next hname => exact Prod.ext hname (Option.some_inj.mp h).symm
    · cases h
  · rw [h, if_pos rfl]

end OneDefinition

/-- **The dump of the macros.** For the macros that preprocessing any text leaves, the text that is written
for them is preprocessed to the same macros if and only if none is a named variadic, and no body ends in a
backslash or has in it what is taken for a comment. -/
theorem dump_macros_iff {input : Text} {t : Table} (h : Preprocessed input t) : DumpsBack t ↔
    ∀ m ∈ t.dump, m.2.isGnuVariadic = false ∧ continued m.2.body.toList = false ∧
      stripComments m.2.body.toList.length false m.2.body.toList = m.2.body.toList :=
  ⟨dumps_of_dumpsBack h.dumpable, dumpsBack_of_dumps h.dumpable⟩

/-- `#define LOG(fmt, ...) (printf(fmt, __VA_ARGS__))` -/
def logMacro : String × Definition := ("LOG", ⟨true, true, false, ["fmt"], "(printf(fmt, __VA_ARGS__))"⟩)

def logLine : Line := ⟨"#define LOG(fmt,...) (printf(fmt, __VA_ARGS__))".toList, 1⟩

theorem logMacro_dumpsBack : DumpsBack (writeDefinition .empty logMacro) := by
  have hlines : linesOf (logLine.text ++ ['\n']) = [logLine] := by decide
  have hm : DefinedBy logLine.text logMacro := ⟨_, rfl, rfl, by decide⟩
  refine (dump_macros_iff (preprocessed_one hlines hm)).mpr fun m hmem => ?_
  rw [(mem_dump_one hlines hm (by decide) m).mp hmem]
  exact ⟨rfl, rfl, by decide⟩

/-- `#define LOG(args...) printf(args)` is written with one parameter more. -/
theorem named_variadic_not_dumped : ¬ ∀ (input : Text) (t : Table), Preprocessed input t → DumpsBack t := by
  intro h
  have hlines : linesOf "#define LOG(args...) printf(args)\n".toList = [⟨"#define LOG(args...) printf(args)".toList, 1⟩] := by decide
  have hm : DefinedBy "#define LOG(args...) printf(args)".toList ("LOG", ⟨true, true, true, ["args"], "printf(args)"⟩) :=
    ⟨_, rfl, rfl, by decide⟩
  have hpre := preprocessed_one hlines hm
  have hdumps := dumps_of_dumpsBack hpre.dumpable (h _ _ hpre) _ ((mem_dump_one hlines hm (fun _ => rfl) _).mpr rfl)
  exact absurd hdumps.1 (by decide)

end Rcc.Preprocess

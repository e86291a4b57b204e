import Rcc.MacroCongruence
import Rcc.PreprocessFile
import Rcc.Variadic

/-!
# Calls of variadic macros

The arguments of a call are padded for the named macro with one more, which is empty. It is
expanded to nothing and changes nothing, so the call of the other macro has the same ones;
and what stands for the call is then the same. As no depth of the expansion tells tables
with such macros from each other, neither does any text.

`#define` makes the two from a list of parameters that ends with `args...` or with `...`.
-/

namespace Rcc.Preprocess

open Lexer (Text isspace isdigit headIs startswith)
open Macros (Definition Table)
open Files (Preprocessor)

/-! ## Calls -/

/-- A macro that is the same, or one of the two that are the other. -/
inductive Twin : Definition → Definition → Prop where
  | refl (d : Definition) : Twin d d
  | named {params : List String} {args : String} {body : Text} (hname : headIs isIdent1 args.toList = true) (hargs : args ∉ params)
      (hva : args ≠ vaArgs) (hparams : params.length < maxArgs) (h : NoOperand args.toList (items (named params args body))) :
      Twin (named params args body) (anonymous params args body)

section Calls

variable {params : List String} {args : String} {body : Text} {R : Definition → Definition → Prop} {s t : Preprocessor}
  {expand : Preprocessor → Text → Option (Preprocessor × Text)}

theorem expandArgs_concat (hexpand : Uniform R expand) (st : Preprocessor) (l : List Text) :
    expandArgs expand st (l ++ [[]]) = (expandArgs expand st l).map fun (st, l) => (st, l ++ [[]]) := by
  induction l generalizing st with
  | nil =>
      show (expand st []).bind _ = _
      rw [hexpand.nil]
      rfl
  | cons arg l ih =>
      show (expand st arg).bind _ = ((expand st arg).bind _).map _
      rw [Option.map_bind]
      refine Option.bind_congr fun ⟨st, arg⟩ _ => ?_
      show (expandArgs expand st (l ++ [[]])).map _ = ((expandArgs expand st l).map _).map _
      rw [ih, Option.map_map, Option.map_map]
      rfl

theorem expandArgs_padded (hexpand : Uniform R expand) {k : Nat} {l l' : List Text} (h : Padded k l l') (st : Preprocessor) :
    expandArgs expand st l = (expandArgs expand st l').map fun (st, l) => (st, if k < l'.length then l else l ++ [[]]) := by
  rw [h.2]
  split
  · exact Option.map_id'.symm
  · exact expandArgs_concat hexpand st l'

/-- The call of the named one has the other's arguments, and comes to the same. -/
theorem expandCall_named (hexpand : Uniform R expand) (hst : Alike R s t) (hname : headIs isIdent1 args.toList = true)
    (hargs : args ∉ params) (hva : args ≠ vaArgs) (hparams : params.length < maxArgs)
    (h : NoOperand args.toList (items (named params args body))) (name : Text) (l : List Text) :
    Outcomes R (expandCall expand s name (named params args body) l) (expandCall expand t name (anonymous params args body) l) := by
  have hpad := @padded_padArgs params args body l
  have hlength := length_padArgs (named params args body) l
  have hlength' := length_padArgs (anonymous params args body) l
  rw [show (named params args body).params.length = params.length + 1 from List.length_append] at hlength
  rw [show (anonymous params args body).params.length = params.length from rfl] at hlength'
  have hvariadic : ∀ n, ¬ (! true && decide (n < l.length)) = true := fun n => Bool.false_ne_true
  rw [expandCall, expandCall]
  refine (congrArg₂ (Outcomes R) (if_neg (hvariadic _)) (if_neg (hvariadic _))).mpr ?_
  by_cases hmax : (padArgs (anonymous params args body) l).length ≤ maxArgs
  · rw [if_pos hmax, if_pos (by omega), expandArgs_padded hexpand hpad, Option.bind_map]
    rcases (hexpand.expandArgs hst (padArgs (anonymous params args body) l)).none_or_some with
      ⟨hnone, hnone'⟩ | ⟨s', t', expanded, hst', hsome, hsome'⟩
    · rw [hnone, hnone']
      exact .none
    · rw [hsome, hsome', Option.bind_some, Option.bind_some]
      have hexpanded : Padded params.length (if params.length < (padArgs (anonymous params args body) l).length then expanded
          else expanded ++ [[]]) expanded := by
        refine ⟨?_, ?_⟩
        · rw [length_expandArgs hsome]
          exact hpad.1
        · rw [length_expandArgs hsome]
      show Outcomes R (rescan expand s' name (substituteMacro _ _ _)) (rescan expand t' name (substituteMacro _ _ _))
      rw [substituteMacro_named hname hargs hva h hexpanded hpad]
      exact hexpand.rescan hst' name _
  · rw [if_neg hmax, if_neg (by omega)]
    exact .none

theorem congruent_twin : Congruent Twin where
  isFunction h := by
    cases h with
    | refl => rfl
    | named => rfl
  body h hfun := by
    cases h with
    | refl => rfl
    | named => exact absurd hfun nofun
  call := by
    intro d d' h expand hexpand s t hst name l
    cases h with
    | refl d => exact hexpand.expandCall hst name d l
    | named hname hargs hva hparams h => exact expandCall_named hexpand hst hname hargs hva hparams h name l

end Calls

/-! ## The directives -/

/-- `p1,...,pk,` -/
def listed (params : List String) : Text := params.flatMap fun param => param.toList ++ [',']

section Define

variable {w p before : Text} {ps : List Text} {n : Nat} {gnu : Bool}

theorem Ident.cons (h : Ident w) : ∃ c r, w = c :: r ∧ isIdent1 c = true := by
  cases w with
  | nil => exact absurd h.head nofun
  | cons c r => exact ⟨c, r, rfl, h.head⟩

/-- Before `...` the name is seen. -/
theorem Ident.last (h : Ident w) (before : Text) :
    headIs (fun c => c ≠ ',' && isIdent2 c) ((w.reverse ++ before).dropWhile isspace) = true := by
  rcases List.eq_nil_or_concat w with rfl | ⟨init, c, rfl⟩
  · exact absurd h.head nofun
  · have hc := h.all c (List.concat_eq_append ▸ List.mem_append_right _ List.mem_cons_self)
    rw [List.concat_eq_append, List.reverse_concat, List.cons_append, List.dropWhile_cons_of_neg (isspace_of_isIdent2 hc)]
    refine Bool.and_eq_true_iff.mpr ⟨decide_eq_true fun hcomma => ?_, hc⟩
    rw [hcomma] at hc
    exact absurd hc (by decide)

theorem ne_of_isIdent1 {c d : Char} (hc : isIdent1 c = true) (hd : isIdent1 d = false) : c ≠ d := by
  rintro rfl
  exact absurd (hc.symm.trans hd) nofun

theorem dropWhile_of_headIs {f : Char → Bool} (h : headIs f p = false) : p.dropWhile f = p ∧ p.takeWhile f = [] := by
  cases p with
  | nil => exact ⟨rfl, rfl⟩
  | cons c p =>
      have hc : ¬ f c = true := ne_true_of_eq_false h
      exact ⟨List.dropWhile_cons_of_neg hc, List.takeWhile_cons_of_neg hc⟩

/-- The loop takes an identifier. -/
theorem paramsLoop_ident (h : Ident w) (hident : headIs isIdent2 p = false) (hspace : headIs isspace p = false) :
    paramsLoop (n + 1) ps false false before (w ++ p) =
      if headIs (· = ',') p then paramsLoop n (ps ++ [w]) false false (',' :: (w.reverse ++ before)) p.tail
      else paramsLoop n (ps ++ [w]) false false (w.reverse ++ before) p := by
  obtain ⟨htake, hdrop⟩ := takeWhile_append_isIdent2 h.all hident
  obtain ⟨hdropSpace, htakeSpace⟩ := dropWhile_of_headIs hspace
  obtain ⟨c, r, rfl, hc⟩ := h.cons
  have hparen : ¬ (decide (c :: r ++ p = []) || headIs (· = ')') (c :: r ++ p)) = true := by
    rw [decide_eq_false (show ¬ c :: r ++ p = [] from nofun), Bool.false_or]
    exact ne_true_of_eq_false (decide_eq_false (ne_of_isIdent1 hc (by decide)))
  obtain ⟨hdropFirst, htakeFirst⟩ := @dropWhile_of_headIs (c :: r ++ p) isspace (Bool.eq_false_iff.mpr (isspace_of_isIdent1 hc))
  have hdots : ¬ startswith (c :: r ++ p) "..." = true := by
    intro hstart
    obtain ⟨q, hq⟩ := List.isPrefixOf_iff_prefix.mp hstart
    exact ne_of_isIdent1 hc (by decide : isIdent1 '.' = false) (List.cons.inj hq).1.symm
  rw [paramsLoop, if_neg hparen]
  simp only [hdropFirst, htakeFirst, if_neg hdots, htake, hdrop, hdropSpace, htakeSpace, if_neg (List.cons_ne_nil c r),
    List.reverse_nil, List.nil_append]

/-- `...` behind a name, or behind none. -/
theorem paramsLoop_dots (hps : gnu = (decide (ps ≠ []) && headIs (fun c => c ≠ ',' && isIdent2 c) (before.dropWhile isspace))) :
    paramsLoop (n + 1) ps false false before ("...)".toList ++ p) = some ⟨ps, true, gnu, p⟩ := by
  rw [hps]
  rfl

theorem paramsLoop_listed {params : List String} (h : ∀ param ∈ params, Ident param.toList) (n : Nat) (ps : List Text) (before p : Text) :
    ∃ before', (params ≠ [] → headIs (· = ',') before' = true) ∧ (params = [] → before' = before) ∧
      paramsLoop (n + params.length) ps false false before (listed params ++ p) =
        paramsLoop n (ps ++ params.map String.toList) false false before' p := by
  induction params generalizing ps before with
  | nil => exact ⟨before, fun h => absurd rfl h, fun _ => rfl, by rw [List.map_nil, List.append_nil]; rfl⟩
  | cons param params ih =>
      obtain ⟨hparam, hparams⟩ := List.forall_mem_cons.mp h
      obtain ⟨before', hcomma, hnil, heq⟩ := ih hparams (ps ++ [param.toList]) (',' :: (param.toList.reverse ++ before))
      refine ⟨before', fun _ => ?_, fun h => absurd h (List.cons_ne_nil _ _), ?_⟩
      · cases params with
        | nil =>
            rw [hnil rfl]
            rfl
        | cons param params => exact hcomma (List.cons_ne_nil _ _)
      · rw [List.length_cons, ← Nat.add_assoc, listed, List.flatMap_cons, List.append_assoc, List.append_assoc,
          paramsLoop_ident hparam rfl rfl]
        rw [List.append_assoc] at heq
        exact (if_pos rfl).trans heq

variable {params : List String} {args : String} {body : Text} {name : String} {table : Table}

theorem map_toList (params : List String) : (params.map String.toList).map String.ofList = params := by
  rw [List.map_map]
  exact List.map_id'' (fun s => String.ofList_toList) params

theorem length_listed (params : List String) : params.length ≤ (listed params).length := by
  induction params with
  | nil => exact Nat.le_refl _
  | cons param params ih =>
      rw [listed, List.flatMap_cons, List.length_append, List.length_append, List.length_cons, Nat.add_comm]
      exact Nat.add_le_add (Nat.le_add_left ..) ih

variable (table) in
/-- A list of parameters that ends with `...`, and the body behind it. -/
theorem define_dots (hname : Ident name.toList) {q : Text} {ps : List Text} (hps : ps.length ≤ maxParams)
    (h : paramsLoop (q.length + 1) [] false false ('(' :: name.toList.reverse) q = some ⟨ps, true, gnu, body⟩) (htrim : trim body = body) :
    define table (name.toList ++ '(' :: q) =
      some ((table.put name ⟨true, false, false, ps.map String.ofList, String.ofList body⟩).setVariadic name gnu) := by
  obtain ⟨htake, hdrop⟩ := @takeWhile_append_isIdent2 name.toList ('(' :: q) hname.all rfl
  rw [define]
  simp only [htake, hdrop, h, Option.bind_some, if_pos hps, defineFunction, htrim, String.ofList_toList]
  rfl

/-- `#define M(p1,...,pk,args...)body` -/
theorem define_named (hname : Ident name.toList) (h : ∀ param ∈ params, Ident param.toList) (hargs : Ident args.toList)
    (hlength : params.length < maxParams) (htrim : trim body = body) :
    define table (name.toList ++ '(' :: (listed params ++ (args.toList ++ ("...)".toList ++ body)))) =
      some ((table.put name ⟨true, false, false, params ++ [args], String.ofList body⟩).setVariadic name true) := by
  have hloop : paramsLoop ((listed params ++ (args.toList ++ ("...)".toList ++ body))).length + 1) [] false false
      ('(' :: name.toList.reverse) (listed params ++ (args.toList ++ ("...)".toList ++ body))) =
        some ⟨params.map String.toList ++ [args.toList], true, true, body⟩ := by
    obtain ⟨m, hm⟩ : ∃ m, (listed params ++ (args.toList ++ ("...)".toList ++ body))).length + 1 = m + 2 + params.length := by
      have hle := length_listed params
      refine ⟨(listed params ++ (args.toList ++ ("...)".toList ++ body))).length + 1 - 2 - params.length, ?_⟩
      simp only [List.length_append, show "...)".toList.length = 4 from rfl]
      omega
    obtain ⟨before, _, _, heq⟩ := paramsLoop_listed h (m + 2) [] ('(' :: name.toList.reverse) (args.toList ++ ("...)".toList ++ body))
    rw [hm, heq, paramsLoop_ident hargs rfl rfl]
    refine (if_neg nofun).trans (paramsLoop_dots ?_)
    rw [decide_eq_true (show [] ++ params.map String.toList ++ [args.toList] ≠ [] by simp), Bool.true_and]
    exact (hargs.last before).symm
  have hparams := define_dots table hname ?_ hloop htrim
  · rw [hparams, List.map_append, map_toList]
    simp only [List.map_cons, List.map_nil, String.ofList_toList]
  · rw [List.length_append, List.length_map]
    exact hlength

/-- `#define M(p1,...,pk,...)body` -/
theorem define_anonymous (hname : Ident name.toList) (h : ∀ param ∈ params, Ident param.toList)
    (hlength : params.length < maxParams) (htrim : trim body = body) :
    define table (name.toList ++ '(' :: (listed params ++ ("...)".toList ++ body))) =
      some ((table.put name ⟨true, false, false, params, String.ofList body⟩).setVariadic name false) := by
  have hloop : paramsLoop ((listed params ++ ("...)".toList ++ body)).length + 1) [] false false
      ('(' :: name.toList.reverse) (listed params ++ ("...)".toList ++ body)) = some ⟨params.map String.toList, true, false, body⟩ := by
    obtain ⟨m, hm⟩ : ∃ m, (listed params ++ ("...)".toList ++ body)).length + 1 = m + 1 + params.length := by
      have hle := length_listed params
      refine ⟨(listed params ++ ("...)".toList ++ body)).length + 1 - 1 - params.length, ?_⟩
      simp only [List.length_append, show "...)".toList.length = 4 from rfl]
      omega
    obtain ⟨before, hcomma, hnil, heq⟩ := paramsLoop_listed h (m + 1) [] ('(' :: name.toList.reverse) ("...)".toList ++ body)
    rw [hm, heq]
    refine paramsLoop_dots ?_
    cases params with
    | nil => rfl
    | cons param params =>
        obtain ⟨q, rfl⟩ := comma_cases (hcomma (List.cons_ne_nil _ _))
        exact (Bool.and_false _).symm
  have hparams := define_dots table hname ?_ hloop htrim
  · rw [hparams, map_toList]
  · rw [List.length_map]
    exact Nat.le_of_lt hlength

end Define

/-! ## The text -/

/-- No blank is last. -/
def EndsWell (p : Text) : Prop := ∀ c ∈ p.getLast?, ¬ isspace c = true

theorem stripEnd_eq_iff (p : Text) : stripEnd p = p ↔ EndsWell p := by
  refine (List.rdropWhile_eq_self_iff (p := isspace) (l := p)).trans ⟨fun h c hc => ?_, fun h hp => ?_⟩
  · obtain ⟨hp, rfl⟩ := List.mem_getLast?_eq_getLast hc
    exact h hp
  · exact h _ (List.getLast_mem_getLast? hp)

theorem trim_eq_iff (p : Text) : trim p = p ↔ headIs isspace p = false ∧ EndsWell p := by
  rw [← stripEnd_eq_iff]
  constructor
  · intro h
    have hle : p.length ≤ (p.dropWhile isspace).length := by
      have hprefix : (trim p).length ≤ (p.dropWhile isspace).length := (List.rdropWhile_prefix isspace _).length_le
      rw [h] at hprefix
      exact hprefix
    have hdrop : p.dropWhile isspace = p := (List.dropWhile_suffix isspace).eq_of_length_le hle
    refine ⟨hdrop ▸ headIs_dropWhile isspace p, ?_⟩
    rw [trim, hdrop] at h
    exact h
  · rintro ⟨hhead, hlast⟩
    rw [trim, (dropWhile_of_headIs hhead).1, hlast]

theorem endsWell_append {u v : Text} : EndsWell (u ++ v) ↔ (v = [] → EndsWell u) ∧ EndsWell v := by
  rcases List.eq_nil_or_concat v with rfl | ⟨init, c, rfl⟩
  · rw [List.append_nil]
    exact ⟨fun h => ⟨fun _ => h, fun c hc => absurd hc (Option.not_mem_none c)⟩, fun h => h.1 rfl⟩
  · have hlast : ∀ w : Text, EndsWell (w ++ [c]) ↔ ¬ isspace c = true := fun w => by
      rw [EndsWell, List.getLast?_concat]
      exact ⟨fun h => h c rfl, fun h d hd => Option.some_inj.mp hd ▸ h⟩
    rw [List.concat_eq_append, ← List.append_assoc, hlast, hlast]
    exact ⟨fun h => ⟨fun hnil => absurd hnil (by simp), h⟩, fun h => h.2⟩

theorem anonymize_eq_nil {name p : Text} (h : anonymize name p = []) : p = [] := by
  cases p with
  | nil => rfl
  | cons c p =>
      by_cases hc : isIdent1 c = true
      · rw [anonymize_ident hc] at h
        have hword := (List.append_eq_nil_iff.mp h).1
        split at hword
        · exact absurd hword (by decide)
        · exact absurd hword (List.cons_ne_nil _ _)
      by_cases hquote : isQuote c = true
      · rw [anonymize_quote hquote] at h
        exact absurd h (List.cons_ne_nil _ _)
      · rw [anonymize_char hquote hc] at h
        exact absurd h (List.cons_ne_nil _ _)

theorem EndsWell.anonymize {p : Text} (name : Text) (h : EndsWell p) : EndsWell (anonymize name p) := by
  obtain ⟨n, hn⟩ : ∃ n, p.length ≤ n := ⟨_, Nat.le_refl _⟩
  induction n generalizing p with
  | zero => rw [List.eq_nil_of_length_eq_zero (Nat.le_zero.mp hn)]; exact fun c hc => absurd hc (Option.not_mem_none c)
  | succ n ih =>
      cases p with
      | nil => exact fun c hc => absurd hc (Option.not_mem_none c)
      | cons c p =>
          have hp : p.length ≤ n := Nat.le_of_succ_le_succ hn
          by_cases hc : isIdent1 c = true
          · have hdrop := (List.dropWhile_suffix isIdent2 (l := p)).length_le
            rw [← List.takeWhile_append_dropWhile (p := isIdent2) (l := p), ← List.cons_append, endsWell_append] at h
            rw [anonymize_ident hc, endsWell_append]
            refine ⟨fun _ => ?_, ih h.2 (Nat.le_trans hdrop hp)⟩
            split
            · intro c hc
              obtain rfl := Option.some_inj.mp (show some '_' = some c from hc)
              decide
            · intro d hd
              refine isspace_of_isIdent2 ?_
              rcases List.mem_cons.mp (List.mem_of_mem_getLast? hd) with rfl | hmem
              · exact isIdent2_of_isIdent1 hc
              · exact List.mem_takeWhile_imp hmem
          by_cases hquote : isQuote c = true
          · rw [← OneLine.literal_append c p, ← List.cons_append, endsWell_append] at h
            rw [anonymize_quote hquote, endsWell_append]
            exact ⟨fun hnil => h.1 (anonymize_eq_nil hnil), ih h.2 (Nat.le_trans (literal_le c p) hp)⟩
          · rw [← List.singleton_append, endsWell_append] at h
            rw [anonymize_char hquote hc, ← List.singleton_append, endsWell_append]
            exact ⟨fun hnil => h.1 (anonymize_eq_nil hnil), ih h.2 hp⟩

theorem trim_anonymize {body : Text} (name : Text) (h : trim body = body) : trim (anonymize name body) = anonymize name body := by
  obtain ⟨hhead, hlast⟩ := (trim_eq_iff body).mp h
  refine (trim_eq_iff _).mpr ⟨?_, EndsWell.anonymize name hlast⟩
  rw [headIs_anonymize fun c d hc hd => (Bool.eq_false_iff.mpr (isspace_of_isIdent1 hc)).trans
    (Bool.eq_false_iff.mpr (isspace_of_isIdent1 hd)).symm]
  exact hhead

/-- The two macros give the same text for any text, whatever macros there are. -/
def VariadicAgree (params : List String) (args name : String) (body : Text) : Prop :=
  ∀ (st : Preprocessor) (place : Place) (n : Nat) (text : Text), ∃ t t',
    define st.table (name.toList ++ '(' :: (listed params ++ (args.toList ++ ("...)".toList ++ body)))) = some t ∧
      define st.table (name.toList ++ '(' :: (listed params ++ ("...)".toList ++ anonymize args.toList body))) = some t' ∧
      (expandText place n (st.setTable t) text).map Prod.snd = (expandText place n (st.setTable t') text).map Prod.snd

/-- They do where the variable arguments are no operand of `#` and stand behind no `##`. -/
theorem agree_of_noOperand {params : List String} {args name : String} {body : Text} (hname : Ident name.toList)
    (hparams : ∀ param ∈ params, Ident param.toList) (hargs : Ident args.toList) (hmem : args ∉ params) (hva : args ≠ vaArgs)
    (hlength : params.length < maxParams) (htrim : trim body = body) (h : NoOperand args.toList (items (named params args body))) :
    VariadicAgree params args name body := by
  intro st place n text
  refine ⟨_, _, define_named hname hparams hargs hlength htrim, define_anonymous hname hparams hlength (trim_anonymize args.toList htrim), ?_⟩
  refine ((congruent_twin.uniform place n).outcomes (alike_setVariadic .refl st name ?_) text).map_snd
  exact .named hargs.head hmem hva hlength h

end Rcc.Preprocess

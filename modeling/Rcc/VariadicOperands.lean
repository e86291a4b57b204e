import Rcc.VariadicCalls

/-!
# Where the two macros differ

Where the variable arguments are an operand of `#`, the named macro has a string for them
and the other has `#__VA_ARGS__`: the quotation marks can be counted, for `paste_tokens`
leaves them as they are. Where they stand behind `##`, the named macro pastes them and the
other puts them: an argument that begins with a blank keeps it there, and the text is
longer. Each `##` of the buffer that is left out makes it so, if no other `#` is next to it.
-/

namespace Rcc.Preprocess

open Lexer (Text isspace isdigit headIs startswith)
open Macros (Definition Table)
open Files (Preprocessor)

/-! ## Items next to each other -/

/-- A `##` takes the blanks behind it, and a literal with something behind it has an end. -/
structure Follows (a b : Item) : Prop where
  paste : a = .paste → ∀ c, b = .char c → ¬ isspace c = true
  literal : ∀ w, a = .literal w → ∃ u q, w = u ++ [q] ∧ isQuote q = true

theorem head?_itemsLoop {v : Bool} {n : Nat} {p : Text} {b : Item} (h : b ∈ (itemsLoop v n p).head?) :
    ∃ c q, p = c :: q ∧ b = (item v c q).1 := by
  cases n with
  | zero => exact absurd h (Option.not_mem_none b)
  | succ n =>
      cases p with
      | nil => exact absurd h (Option.not_mem_none b)
      | cons c q => exact ⟨c, q, rfl, (Option.some_inj.mp h).symm⟩

theorem follows_itemsLoop (v : Bool) (n : Nat) (p : Text) : (itemsLoop v n p).IsChain Follows := by
  induction n generalizing p with
  | zero => exact .nil
  | succ n ih =>
      cases p with
      | nil => exact .nil
      | cons c p =>
          rw [itemsLoop]
          refine List.isChain_cons.mpr ⟨fun b hb => ?_, ih _⟩
          have hread := item_reads v c p
          revert hb
          generalize item v c p = r at hread
          intro hb
          cases hread with
          | pasteVa | stringize | hash | name | char => exact ⟨(fun h => by cases h), fun w h => by cases h⟩
          | literal hquote =>
              refine ⟨(fun h => by cases h), fun w hw => ?_⟩
              obtain rfl := Item.literal.inj hw
              have hne : (literal c p).2 ≠ [] := fun hnil => by
                rw [hnil, itemsLoop_nil] at hb
                exact absurd hb (Option.not_mem_none b)
              obtain ⟨u, hu⟩ := literal_end hne
              exact ⟨c :: u, c, by rw [hu]; rfl, hquote⟩
          | @paste q hva =>
              refine ⟨fun _ d hd hspace => ?_, fun w h => by cases h⟩
              obtain ⟨e, r, hq, he⟩ := head?_itemsLoop hb
              have hblank := headIs_dropWhile isspace q
              rw [show q.dropWhile isspace = e :: r from hq] at hblank
              rw [hd] at he
              have hread := item_reads v e r
              revert he
              generalize item v e r = i at hread
              intro he
              cases hread with
              | char hquote hhash hc => exact absurd ((Item.char.inj he) ▸ hspace) (ne_true_of_eq_false hblank)
              | literal | pasteVa | paste | stringize | hash | name => cases he

/-- What an item is. -/
def Item.Proper : Item → Prop
  | .name a => Ident a
  | .stringize a => Ident a
  | .char c => c ≠ '#'
  | _ => True

theorem ident_takeWhile {p : Text} (h : headIs isIdent1 p = true) : Ident (p.takeWhile isIdent2) := by
  cases p with
  | nil => exact absurd h nofun
  | cons c p =>
      refine ⟨?_, fun d hd => List.mem_takeWhile_imp hd⟩
      rw [List.takeWhile_cons_of_pos (isIdent2_of_isIdent1 h)]
      exact h

theorem proper_of_mem {v : Bool} {n : Nat} {p : Text} {it : Item} (h : it ∈ itemsLoop v n p) : it.Proper := by
  induction n generalizing p with
  | zero => exact absurd h List.not_mem_nil
  | succ n ih =>
      cases p with
      | nil => exact absurd h List.not_mem_nil
      | cons c p =>
          rcases List.mem_cons.mp h with rfl | hrest
          · have hread := item_reads v c p
            generalize item v c p = r at hread
            cases hread with
            | literal | pasteVa | paste | hash => exact trivial
            | char hquote hhash hc => exact hhash
            | name hc => exact ident_takeWhile hc
            | stringize hp hhead => exact ident_takeWhile hhead
          · exact ih hrest

/-! ## The buffer -/

/-- What is put for an item. -/
def put (d : Definition) (l raw : List Text) (it : Item) : Text := (form d l raw it).getD it.spelling

section Buffer

variable {params : List String} {args : String} {body : Text} {l raw raw' : List Text}

theorem substStep_put {d : Definition} {it : Item} (h : it = .pasteVa → (form d l raw it).isSome = true) (sb : Text) :
    substStep sb it (form d l raw it) = sb ++ put d l raw it := by
  rw [put]
  cases hform : form d l raw it with
  | some t => rfl
  | none =>
      cases it with
      | pasteVa =>
          rw [hform] at h
          exact absurd (h rfl) nofun
      | literal _ | paste | stringize _ | hash | name _ | char _ => rfl

theorem foldl_put {d : Definition} {its : List Item} (h : Item.pasteVa ∈ its → (form d l raw .pasteVa).isSome = true) (sb : Text) :
    its.foldl (fun sb it => substStep sb it (form d l raw it)) sb = sb ++ its.flatMap (put d l raw) := by
  induction its generalizing sb with
  | nil => exact (List.append_nil sb).symm
  | cons it its ih =>
      rw [List.foldl_cons, substStep_put fun hit => hit ▸ h (hit ▸ List.mem_cons_self), ih fun hmem => h (List.mem_cons_of_mem _ hmem),
        List.flatMap_cons, List.append_assoc]

/-- There are variable arguments. -/
def Given (params : List String) (l : List Text) : Prop := l.length = params.length + 1

theorem padded_given (h : Given params l) : Padded params.length l l :=
  ⟨h ▸ Nat.le_succ _, (if_pos (h ▸ Nat.lt_succ_self _)).symm⟩

theorem mergeArgs_given (h : Given params l) :
    mergeArgs (named params args body) l = l ∧ mergeArgs (anonymous params args body) l = l := by
  have hlt : params.length < l.length := h ▸ Nat.lt_succ_self _
  have hlast : l.drop params.length = [l[params.length]] := by
    rw [List.drop_eq_getElem_cons hlt, List.drop_eq_nil_of_le (Nat.le_of_eq h)]
  constructor
  · rw [mergeArgs, if_neg]
    rw [show (named params args body).params.length = params.length + 1 from List.length_append, h, decide_eq_false (Nat.lt_irrefl _),
      Bool.and_false]
    exact Bool.false_ne_true
  · rw [mergeArgs]
    refine (if_pos (show (true && decide (params.length < l.length)) = true from decide_eq_true hlt)).trans ?_
    rw [vaSlot_anonymous, hlast, joinComma, ← hlast, List.take_append_drop]

theorem put_named (h : Given params l) (hraw : Given params raw) (hargs : args ∉ params) (hva : args ≠ vaArgs) {it : Item}
    (hstringize : it ≠ .stringize args.toList) (hpasteVa : it ≠ .pasteVa) :
    put (anonymous params args body) l raw (it.anonymize args.toList) = put (named params args body) l raw it := by
  have heq := @substStep_named params args body l l raw raw (padded_given h) (padded_given hraw) hargs hva it hstringize hpasteVa []
  rw [substStep_put fun hit => absurd hit hpasteVa, substStep_put fun hit => ?_] at heq
  · exact heq
  · cases it with
    | pasteVa => exact absurd rfl hpasteVa
    | literal | paste | stringize | hash | name | char => exact absurd hit nofun

/-- The argument for `## __VA_ARGS__`. -/
theorem form_pasteVa_given (h : Given params l) :
    form (anonymous params args body) l raw .pasteVa = some (l.getD params.length []) := by
  rw [form, (mergeArgs_given h).2]
  exact (padded_given h).getElem?_last

theorem put_name_args (h : Given params l) (hargs : args ∉ params) (hva : args ≠ vaArgs) :
    put (named params args body) l raw (.name args.toList) = l.getD params.length [] := by
  obtain ⟨t, ht, ht'⟩ := @form_name_args params args body l l raw raw (padded_given h) hargs hva
  have hform : form (anonymous params args body) l raw (.name vaArgs.toList) = some (l.getD params.length []) := by
    rw [form, vaSlot_anonymous, (mergeArgs_given h).2]
    exact if_pos (show (true && decide (vaArgs.toList = vaArgs.toList)) = true by simp)
  rw [put, ht', ← ht, hform]
  rfl

theorem put_stringize_args (h : Given params l) (hargs : args ∉ params) :
    put (named params args body) l raw (.stringize args.toList) = quoteString (raw.getD params.length []) := by
  rw [put, form, findParamIndex_named, findParamIndex_none hargs, if_pos rfl, (mergeArgs_given h).1]
  show (if params.length < l.length then some (quoteString _) else none).getD _ = _
  rw [if_pos (h ▸ Nat.lt_succ_self _)]
  rfl

theorem put_stringize_vaArgs (hparams : vaArgs ∉ params) :
    put (anonymous params args body) l raw (.stringize vaArgs.toList) = '#' :: vaArgs.toList := by
  rw [put, form, findParamIndex_none hparams]
  rfl

end Buffer

/-! ## Quotation marks -/

def isMark (c : Char) : Bool := c = '"'

theorem countP_dropWhile_isspace (p : Text) : (p.dropWhile isspace).countP isMark = p.countP isMark := by
  induction p with
  | nil => rfl
  | cons c p ih =>
      by_cases hc : isspace c = true
      · have hmark : ¬ isMark c = true := fun h => by
          rw [of_decide_eq_true h] at hc
          exact absurd hc (by decide)
        rw [List.dropWhile_cons_of_pos hc, ih, List.countP_cons_of_neg hmark]
      · rw [List.dropWhile_cons_of_neg hc]

theorem countP_pasteEnd (sb q : Text) : (pasteEnd sb q).countP isMark = sb.countP isMark := by
  have hstrip : (stripEnd sb).countP isMark = sb.countP isMark := by
    rw [stripEnd, List.countP_reverse, countP_dropWhile_isspace, List.countP_reverse]
  rw [pasteEnd]
  split
  · rw [List.countP_append, hstrip]
    rfl
  · exact hstrip

/-- `paste_tokens` leaves the quotation marks. -/
theorem countP_pasteLoop {n : Nat} {sb p : Text} (hn : p.length ≤ n) :
    (pasteLoop n sb p).countP isMark = sb.countP isMark + p.countP isMark := by
  induction n generalizing sb p with
  | zero =>
      rw [List.eq_nil_of_length_eq_zero (Nat.le_zero.mp hn)]
      rfl
  | succ n ih =>
      cases p with
      | nil => rfl
      | cons c p =>
          rw [pasteLoop]
          split
          · next hpair =>
              obtain ⟨hc, hhead⟩ := Bool.and_eq_true_iff.mp hpair
              cases p with
              | nil => cases hhead
              | cons d p =>
                  obtain rfl := of_decide_eq_true hc
                  obtain rfl := of_decide_eq_true (show decide (d = '#') = true from hhead)
                  have hle := (List.dropWhile_suffix isspace (l := p)).length_le
                  simp only [List.length_cons] at hn
                  rw [List.tail_cons, ih (by omega), countP_pasteEnd, countP_dropWhile_isspace]
                  rfl
          · rw [ih (Nat.le_of_succ_le_succ hn), List.countP_append, Nat.add_assoc, ← List.countP_append, List.singleton_append]

theorem countP_pasteTokens (s : Text) : (pasteTokens s).countP isMark = s.countP isMark :=
  (countP_pasteLoop (Nat.le_refl _)).trans (Nat.zero_add _)

section Stringize

variable {params : List String} {args : String} {body : Text} {l raw : List Text}

/-- For each `#` before the name there are two quotation marks more. -/
theorem countP_twins (h : Given params l) (hraw : Given params raw) (hargs : args ∉ params) (hva : args ≠ vaArgs)
    (hparams : vaArgs ∉ params) {its its' : List Item} (htwins : Twins args.toList its its') :
    (its'.flatMap (put (anonymous params args body) l raw)).countP isMark + (if Item.stringize args.toList ∈ its then 1 else 0) ≤
      (its.flatMap (put (named params args body) l raw)).countP isMark := by
  induction htwins with
  | nil => exact Nat.le_refl _
  | @behind its its' htwins ih =>
      have hmem : Item.stringize args.toList ∈ .paste :: .name args.toList :: its ↔ Item.stringize args.toList ∈ its := by
        simp only [List.mem_cons, reduceCtorEq, false_or]
      have hpaste : put (named params args body) l raw .paste = ['#', '#'] := rfl
      have hput : put (anonymous params args body) l raw .pasteVa = l.getD params.length [] := by
        rw [put, form_pasteVa_given h]
        rfl
      simp only [List.flatMap_cons, List.countP_append, hmem, hpaste, hput, put_name_args h hargs hva]
      have hhash : ['#', '#'].countP isMark = 0 := rfl
      omega
  | @item it its its' hne hnext htwins ih =>
      simp only [List.flatMap_cons, List.countP_append, List.mem_cons]
      by_cases hit : it = .stringize args.toList
      · subst hit
        have hput : (put (anonymous params args body) l raw ((Item.stringize args.toList).anonymize args.toList)).countP isMark = 0 := by
          rw [Item.anonymize, if_pos rfl, put_stringize_vaArgs hparams]
          decide
        have hquote : 1 ≤ (put (named params args body) l raw (.stringize args.toList)).countP isMark := by
          rw [put_stringize_args h hargs, quoteString, List.cons_append, List.countP_cons_of_pos (show isMark '"' = true from rfl)]
          exact Nat.le_add_left ..
        rw [if_pos (.inl rfl)]
        omega
      · have hput := @put_named params args body l raw h hraw hargs hva it hit hne
        have hiff : Item.stringize args.toList = it ∨ Item.stringize args.toList ∈ its ↔ Item.stringize args.toList ∈ its :=
          or_iff_right fun heq => hit heq.symm
        simp only [hput, hiff]
        omega

end Stringize

/-! ## A `##` that is left out -/

/-- No `#` is last, but for blanks. -/
def Settled (u : Text) : Prop := (stripEnd u).getLast? ≠ some '#'

theorem settled_nil : Settled [] := nofun

theorem all_or_concat (v : Text) : v.all isspace = true ∨ ∃ w c t, v = w ++ c :: t ∧ ¬ isspace c = true ∧ t.all isspace = true := by
  induction v using List.reverseRecOn with
  | nil => exact .inl rfl
  | append_singleton v d ih =>
      by_cases hd : isspace d = true
      · rcases ih with hall | ⟨w, c, t, rfl, hc, ht⟩
        · left
          rw [List.all_append, hall, List.all_cons, hd]
          rfl
        · refine .inr ⟨w, c, t ++ [d], by rw [List.append_assoc, List.cons_append], hc, ?_⟩
          rw [List.all_append, ht, List.all_cons, hd]
          rfl
      · exact .inr ⟨v, d, [], rfl, hd, rfl⟩

theorem settled_append {u w t : Text} {c : Char} (hc : ¬ isspace c = true) (ht : t.all isspace = true) :
    Settled (u ++ (w ++ c :: t)) ↔ c ≠ '#' := by
  have heq : u ++ (w ++ c :: t) = (u ++ w ++ [c]) ++ t := by simp only [List.append_assoc, List.singleton_append]
  rw [Settled, heq, stripEnd_append ht, stripEnd_concat hc, List.getLast?_concat]
  exact not_congr Option.some_inj

theorem settled_blanks {u t : Text} (ht : t.all isspace = true) : Settled (u ++ t) ↔ Settled u := by
  rw [Settled, stripEnd_append ht, Settled]

theorem Settled.suffix {u v : Text} (h : Settled (u ++ v)) : Settled v := by
  rcases all_or_concat v with hall | ⟨w, c, t, rfl, hc, ht⟩
  · exact (@settled_blanks [] v hall).mpr settled_nil
  · exact (@settled_append [] w t c hc ht).mpr ((settled_append hc ht).mp h)

/-- A text is gone over up to its end, whatever is behind it. -/
theorem pasteLoop_settled {u : Text} (hu : Settled u) (sb : Text) :
    ∃ sb', ∀ v n, (u ++ v).length ≤ n → pasteLoop n sb (u ++ v) = pasteLoop v.length sb' v := by
  obtain ⟨k, hk⟩ : ∃ k, u.length ≤ k := ⟨_, Nat.le_refl _⟩
  induction k generalizing u sb with
  | zero =>
      rw [List.eq_nil_of_length_eq_zero (Nat.le_zero.mp hk)]
      exact ⟨sb, fun v n hn => pasteLoop_congr hn (Nat.le_refl _)⟩
  | succ k ih =>
      cases u with
      | nil => exact ⟨sb, fun v n hn => pasteLoop_congr hn (Nat.le_refl _)⟩
      | cons c u =>
          by_cases hpair : c = '#' ∧ headIs (· = '#') u = true
          · obtain ⟨rfl, hhead⟩ := hpair
            cases u with
            | nil => exact absurd hhead nofun
            | cons d u =>
                obtain rfl := of_decide_eq_true (show decide (d = '#') = true from hhead)
                -- behind the `##` there is a character to go on with
                cases hdrop : u.dropWhile isspace with
                | nil =>
                    have hall : u.all isspace = true := List.all_eq_true.mpr (List.dropWhile_eq_nil_iff.mp hdrop)
                    exact absurd rfl ((@settled_append [] ['#'] u '#' (by decide) hall).mp hu)
                | cons e r =>
                    have hsuffix : Settled (u.dropWhile isspace) := by
                      refine Settled.suffix (u := '#' :: '#' :: u.takeWhile isspace) ?_
                      rw [List.cons_append, List.cons_append, List.takeWhile_append_dropWhile]
                      exact hu
                    have hle := (List.dropWhile_suffix isspace (l := u)).length_le
                    simp only [List.length_cons] at hk
                    rw [hdrop] at hsuffix hle
                    obtain ⟨sb', hsb'⟩ := ih hsuffix (pasteEnd sb [e]) (by omega)
                    refine ⟨sb', fun v n hn => ?_⟩
                    obtain ⟨n, rfl⟩ := Nat.exists_eq_add_one_of_ne_zero (Nat.ne_zero_of_lt hn)
                    have hbehind : (u ++ v).dropWhile isspace = e :: r ++ v := by
                      rw [List.dropWhile_append, hdrop]
                      rfl
                    show pasteLoop n (pasteEnd sb ((u ++ v).dropWhile isspace)) ((u ++ v).dropWhile isspace) = _
                    rw [hbehind]
                    refine hsb' v n ?_
                    simp only [List.length_append, List.length_cons] at hn hle ⊢
                    omega
          · obtain ⟨sb', hsb'⟩ := ih (Settled.suffix (u := [c]) hu) (sb ++ [c]) (Nat.le_of_succ_le_succ hk)
            refine ⟨sb', fun v n hn => ?_⟩
            obtain ⟨n, rfl⟩ := Nat.exists_eq_add_one_of_ne_zero (Nat.ne_zero_of_lt hn)
            have hnot : ¬ (decide (c = '#') && headIs (· = '#') (u ++ v)) = true := by
              intro hboth
              obtain ⟨hc, hhead⟩ := Bool.and_eq_true_iff.mp hboth
              cases u with
              | nil => exact absurd (of_decide_eq_true hc) ((@settled_append [] [] [] c (of_decide_eq_true hc ▸ by decide) rfl).mp hu)
              | cons d u => exact hpair ⟨of_decide_eq_true hc, hhead⟩
            show (if (decide (c = '#') && headIs (· = '#') (u ++ v)) = true then _ else pasteLoop n (sb ++ [c]) (u ++ v)) = _
            rw [if_neg hnot]
            exact hsb' v n (Nat.le_of_succ_le_succ hn)

theorem stripEnd_anchored {c : Char} (hc : ¬ isspace c = true) (t : Text) : ∃ t', ∀ w, stripEnd (w ++ c :: t) = w ++ c :: t' := by
  rcases all_or_concat t with hall | ⟨t₁, d, t₂, rfl, hd, ht⟩
  · refine ⟨[], fun w => ?_⟩
    rw [← List.singleton_append, ← List.append_assoc, stripEnd_append hall, stripEnd_concat hc]
  · refine ⟨t₁ ++ [d], fun w => ?_⟩
    rw [show w ++ c :: (t₁ ++ d :: t₂) = (w ++ c :: t₁ ++ [d]) ++ t₂ by simp, stripEnd_append ht, stripEnd_concat hd]
    simp only [List.append_assoc, List.cons_append]

theorem pasteEnd_anchored {c : Char} (hc : ¬ isspace c = true) (t q : Text) : ∃ t', ∀ w, pasteEnd (w ++ c :: t) q = w ++ c :: t' := by
  obtain ⟨t', ht'⟩ := stripEnd_anchored hc t
  have hlast : ∀ w : Text, (w ++ c :: t').getLast? = (c :: t').getLast? := fun w => by
    rw [List.getLast?_append_of_ne_nil _ (List.cons_ne_nil _ _)]
  by_cases hsame : ((c :: t').getLast? = q.head? && headIs (fun c => c ∈ "+-&|<>".toList) q) = true
  · refine ⟨t' ++ [' '], fun w => ?_⟩
    rw [pasteEnd, ht', hlast, if_pos hsame, List.append_assoc, List.cons_append]
  · refine ⟨t', fun w => ?_⟩
    rw [pasteEnd, ht', hlast, if_neg hsame]

/-- What is before a character that is no blank is not gone back to. -/
theorem pasteLoop_anchored (n : Nat) (w : Text) {c : Char} (hc : ¬ isspace c = true) (t v : Text) :
    pasteLoop n (w ++ c :: t) v = w ++ pasteLoop n (c :: t) v := by
  induction n generalizing t v with
  | zero => rfl
  | succ n ih =>
      cases v with
      | nil => rfl
      | cons d v =>
          rw [pasteLoop, pasteLoop]
          split
          · obtain ⟨t', ht'⟩ := pasteEnd_anchored hc t (v.tail.dropWhile isspace)
            have hnil := ht' []
            rw [List.nil_append, List.nil_append] at hnil
            rw [ht', hnil]
            exact ih t' _
          · rw [List.append_assoc, List.cons_append]
            exact ih (t ++ [d]) v

/-- Without a `##` before it the text is longer by a blank. -/
theorem length_pasteTokens_lt {u : Text} (hu : Settled u) (v : Text) :
    (pasteTokens (u ++ ("## 1".toList ++ v))).length < (pasteTokens (u ++ (" 1".toList ++ v))).length := by
  obtain ⟨sb, hsb⟩ := pasteLoop_settled hu []
  have hone : ¬ isspace '1' = true := by decide
  have hpasted : pasteLoop ("## 1".toList ++ v).length sb ("## 1".toList ++ v) = stripEnd sb ++ pasteLoop v.length ['1'] v := by
    have hend : pasteEnd sb ('1' :: v) = stripEnd sb := by
      rw [pasteEnd, show headIs (fun c => c ∈ "+-&|<>".toList) ('1' :: v) = false from rfl, Bool.and_false]
      rfl
    show pasteLoop (v.length + 2) (pasteEnd sb ('1' :: v) ++ ['1']) v = _
    rw [hend, pasteLoop_anchored _ _ hone, pasteLoop_congr (Nat.le_add_right v.length 2) (Nat.le_refl _)]
  have hput : pasteLoop (" 1".toList ++ v).length sb (" 1".toList ++ v) = sb ++ [' '] ++ pasteLoop v.length ['1'] v :=
    pasteLoop_anchored v.length (sb ++ [' ']) hone [] v
  have hle : (stripEnd sb).length ≤ sb.length := (List.rdropWhile_prefix isspace sb).length_le
  rw [pasteTokens, pasteTokens, hsb _ _ (Nat.le_refl _), hsb _ _ (Nat.le_refl _), hpasted, hput]
  simp only [List.length_append, List.length_singleton]
  omega

/-! ## An argument that begins with a blank -/

section Probe

variable {params : List String} {args : String} {body : Text} {u : Text}

/-- The arguments of the call. -/
def probe (params : List String) : List Text := List.replicate params.length ['1'] ++ [" 1".toList]

/-- They are spelled so, where `E` stands for nothing. -/
def spelled (params : List String) : List Text := List.replicate params.length ['1'] ++ ["E 1".toList]

def withE : Preprocessor := ⟨Table.empty.defineMacro "E" false [] "", [], 0⟩

theorem given_spelled (params : List String) : Given params (spelled params) := by
  rw [Given, spelled, List.length_append, List.length_replicate]
  rfl

theorem given_probe (params : List String) : Given params (probe params) := by
  rw [Given, probe, List.length_append, List.length_replicate]
  rfl

theorem probe_last (params : List String) : (probe params).getD params.length [] = " 1".toList := by
  rw [probe, List.getD_append_right _ _ _ _ (Nat.le_of_eq List.length_replicate), List.length_replicate, Nat.sub_self]
  rfl

theorem mem_probe {t : Text} (h : t ∈ probe params) : ∃ w, t = w ++ ['1'] := by
  rcases List.mem_append.mp h with hone | hlast
  · exact ⟨[], (List.eq_of_mem_replicate hone)⟩
  · exact ⟨[' '], List.mem_singleton.mp hlast⟩

/-- A text that ends with this character. -/
theorem settled_concat (w : Text) {c : Char} (hc : ¬ isspace c = true) (hhash : c ≠ '#') : Settled (u ++ (w ++ [c])) :=
  (settled_append hc rfl).mpr hhash

theorem Ident.settled {a : Text} (h : Ident a) : Settled (u ++ a) := by
  rcases List.eq_nil_or_concat a with rfl | ⟨w, c, rfl⟩
  · exact absurd h.head nofun
  · rw [List.concat_eq_append] at h ⊢
    have hc : isIdent2 c = true := h.all c (List.mem_append_right _ List.mem_cons_self)
    refine settled_concat w (isspace_of_isIdent2 hc) fun hhash => ?_
    rw [hhash] at hc
    exact absurd hc (by decide)

theorem settled_put_name {a : Text} (h : Ident a) : Settled (u ++ put (named params args body) (probe params) (spelled params) (.name a)) := by
  rw [put]
  cases hform : form (named params args body) (probe params) (spelled params) (.name a) with
  | none => exact h.settled
  | some t =>
      have hmem : t ∈ probe params := by
        rw [form, (mergeArgs_given (given_probe params)).1, vaSlot_named, probe_last] at hform
        split at hform
        · rw [← Option.some_inj.mp hform]
          exact List.mem_append_right _ List.mem_cons_self
        · obtain ⟨k, _, hk⟩ := Option.bind_eq_some_iff.mp hform
          exact List.mem_of_getElem? hk
      obtain ⟨w, rfl⟩ := mem_probe hmem
      exact settled_concat w (by decide) (by decide)

theorem settled_put_stringize {a : Text} (h : Ident a) :
    Settled (u ++ put (named params args body) (probe params) (spelled params) (.stringize a)) := by
  rw [put]
  cases hform : form (named params args body) (probe params) (spelled params) (.stringize a) with
  | none =>
      show Settled (u ++ '#' :: a)
      rw [← List.singleton_append, ← List.append_assoc]
      exact h.settled
  | some t =>
      obtain ⟨k, _, hk⟩ := Option.bind_eq_some_iff.mp hform
      split at hk
      · rw [← Option.some_inj.mp hk, quoteString]
        exact settled_concat _ (by decide) (by decide)
      · cases hk

/-- The items of a body whose every `#` has a parameter behind it, and whose every `##` two tokens beside it. -/
structure Regular (its : List Item) : Prop where
  follows : its.IsChain Follows
  proper : ∀ it ∈ its, it.Proper
  hash : Item.hash ∉ its
  paste : its.IsChain fun a b => a = .paste → b ≠ .paste

/-- What is before is settled, or nothing comes for which it has to be. -/
def Ready (u : Text) (its : List Item) : Prop :=
  Settled u ∨ ∀ b ∈ its.head?, b ≠ .paste ∧ ∀ c, b = .char c → ¬ isspace c = true

theorem Regular.tail {it : Item} {its : List Item} (h : Regular (it :: its)) : Regular its :=
  ⟨h.follows.tail, fun i hi => h.proper i (List.mem_cons_of_mem _ hi), fun hi => h.hash (List.mem_cons_of_mem _ hi), h.paste.tail⟩

theorem Regular.ready (params : List String) (args : String) (body : Text) {it : Item} {its : List Item} (h : Regular (it :: its)) (hva : it ≠ .pasteVa) (hu : Ready u (it :: its)) :
    Ready (u ++ put (named params args body) (probe params) (spelled params) it) its := by
  have hproper := h.proper it List.mem_cons_self
  obtain ⟨hfollows, _⟩ := List.isChain_cons.mp h.follows
  cases it with
  | pasteVa => exact absurd rfl hva
  | hash => exact absurd List.mem_cons_self h.hash
  | name a => exact .inl (settled_put_name hproper)
  | stringize a => exact .inl (settled_put_stringize hproper)
  | paste => exact .inr fun b hb => ⟨(List.isChain_cons.mp h.paste).1 b hb rfl, (hfollows b hb).paste rfl⟩
  | literal w =>
      cases its with
      | nil => exact .inr fun b hb => absurd hb (Option.not_mem_none b)
      | cons b its =>
          obtain ⟨v, q, rfl, hq⟩ := (hfollows b rfl).literal w rfl
          refine .inl (settled_concat v (isspace_of_isQuote hq) fun hhash => ?_)
          rw [hhash] at hq
          exact absurd hq (by decide)
  | char c =>
      left
      by_cases hc : isspace c = true
      · refine (settled_blanks (t := [c]) (Bool.and_eq_true_iff.mpr ⟨hc, rfl⟩)).mpr (hu.resolve_right fun hhead => ?_)
        exact (hhead _ rfl).2 c rfl hc
      · exact settled_concat [] hc hproper

/-- A `##` behind which the name stands makes the text shorter. -/
theorem length_twins (hargs : args ∉ params) (hva : args ≠ vaArgs) {its its' : List Item} (htwins : Twins args.toList its its')
    (hstringize : Item.stringize args.toList ∉ its) (h : Regular its) (hu : Ready u its) :
    (its.IsChain fun a b => a = .paste → b ≠ .name args.toList) ∧
        (pasteTokens (u ++ its.flatMap (put (named params args body) (probe params) (spelled params)))).length ≤
          (pasteTokens (u ++ its'.flatMap (put (anonymous params args body) (probe params) (spelled params)))).length ∨
      (pasteTokens (u ++ its.flatMap (put (named params args body) (probe params) (spelled params)))).length <
        (pasteTokens (u ++ its'.flatMap (put (anonymous params args body) (probe params) (spelled params)))).length := by
  have hgiven := given_probe params
  induction htwins generalizing u with
  | nil => exact .inl ⟨.nil, Nat.le_refl _⟩
  | @behind its its' htwins ih =>
      have hsettled : Settled u := hu.resolve_right fun hhead => (hhead _ rfl).1 rfl
      have hname : put (named params args body) (probe params) (spelled params) (.name args.toList) = " 1".toList := by
        rw [put_name_args hgiven hargs hva, probe_last]
      have hpasteVa : put (anonymous params args body) (probe params) (spelled params) .pasteVa = " 1".toList := by
        rw [put, form_pasteVa_given hgiven, probe_last]
        rfl
      have hnext := ih (u := u ++ " 1".toList) (fun hmem => hstringize (List.mem_cons_of_mem _ (List.mem_cons_of_mem _ hmem)))
        h.tail.tail (.inl (settled_concat [' '] (by decide) (by decide)))
      have hlt := length_pasteTokens_lt hsettled (its.flatMap (put (named params args body) (probe params) (spelled params)))
      have hle : (pasteTokens (u ++ (" 1".toList ++ its.flatMap (put (named params args body) (probe params) (spelled params))))).length ≤
          (pasteTokens (u ++ (" 1".toList ++ its'.flatMap (put (anonymous params args body) (probe params) (spelled params))))).length := by
        rw [← List.append_assoc, ← List.append_assoc]
        rcases hnext with ⟨_, hle⟩ | hlt
        · exact hle
        · exact Nat.le_of_lt hlt
      right
      rw [List.flatMap_cons, List.flatMap_cons, List.flatMap_cons, hname, hpasteVa]
      exact Nat.lt_of_lt_of_le hlt hle
  | @item it its its' hne hnext htwins ih =>
      have hit : it ≠ .stringize args.toList := fun heq => hstringize (heq ▸ List.mem_cons_self)
      have hrest := ih (fun hmem => hstringize (List.mem_cons_of_mem _ hmem)) h.tail (h.ready params args body hne hu)
      rw [List.flatMap_cons, List.flatMap_cons, put_named hgiven (given_spelled params) hargs hva hit hne, ← List.append_assoc, ← List.append_assoc]
      refine hrest.imp_left fun ⟨hchain, hle⟩ => ⟨List.isChain_cons.mpr ⟨fun b hb hpaste hname => hnext hpaste ?_, hchain⟩, hle⟩
      rw [← hname]
      exact hb

end Probe

/-! ## When the two agree -/

section Agree

variable {params : List String} {args name : String} {body : Text}

theorem regular_items (d : Definition) (hhash : Item.hash ∉ items d) (hpaste : (items d).IsChain fun a b => a = .paste → b ≠ .paste) :
    Regular (items d) :=
  ⟨follows_itemsLoop _ _ _, fun _ hit => proper_of_mem hit, hhash, hpaste⟩

/-- The text of the call with these arguments. -/
theorem substituteMacro_probe (hva : Item.pasteVa ∉ items (named params args body)) :
    substituteMacro (named params args body) (probe params) (spelled params) =
        pasteTokens ((items (named params args body)).flatMap (put (named params args body) (probe params) (spelled params))) ∧
      substituteMacro (anonymous params args body) (probe params) (spelled params) =
        pasteTokens ((items (anonymous params args body)).flatMap (put (anonymous params args body) (probe params) (spelled params))) := by
  rw [substituteMacro, substituteMacro, foldl_put fun hmem => absurd hmem hva, foldl_put fun _ => ?_]
  · exact ⟨rfl, rfl⟩
  · rw [form_pasteVa_given (given_probe params)]
    rfl

/-- The same text for any call, where the arguments are expanded at any depth. -/
def SameText (params : List String) (args : String) (body : Text) : Prop :=
  ∀ (st s t : Preprocessor) (place : Place) (n : Nat) (l expanded expanded' : List Text), (∀ arg ∈ l, trim arg = arg) →
    expandArgs (expandText place n) st (padArgs (named params args body) l) = some (s, expanded) →
      expandArgs (expandText place n) st (padArgs (anonymous params args body) l) = some (t, expanded') →
        substituteMacro (anonymous params args body) expanded' (padArgs (anonymous params args body) l) =
          substituteMacro (named params args body) expanded (padArgs (named params args body) l)

theorem expandText_one : expandText firstLine 1 withE ['1'] = some (withE, ['1']) := rfl

/-- The arguments of the call are expanded to these. -/
theorem expandArgs_spelled (params : List String) :
    ∃ s, expandArgs (expandText firstLine 1) withE (spelled params) = some (s, probe params) := by
  obtain ⟨⟨s, _⟩, hlast, rfl⟩ := Option.map_eq_some_iff.mp
    (show (expandText firstLine 1 withE "E 1".toList).map Prod.snd = some " 1".toList by decide +kernel)
  refine ⟨s, ?_⟩
  rw [spelled, probe]
  generalize params.length = k
  induction k with
  | zero =>
      show (expandText firstLine 1 withE "E 1".toList).bind _ = _
      rw [hlast]
      rfl
  | succ k ih =>
      rw [List.replicate_succ, List.cons_append, List.cons_append, expandArgs, expandText_one, Option.bind_some]
      show (expandArgs _ withE (List.replicate k ['1'] ++ ["E 1".toList])).map _ = _
      rw [ih]
      rfl

theorem padArgs_spelled : padArgs (named params args body) (spelled params) = spelled params ∧
    padArgs (anonymous params args body) (spelled params) = spelled params := by
  have hlength : (spelled params).length = params.length + 1 := given_spelled params
  have hpad : ∀ d : Definition, d.params.length ≤ params.length + 1 → padArgs d (spelled params) = spelled params := by
    intro d hd
    rw [padArgs, hlength, Nat.sub_eq_zero_of_le hd]
    exact List.append_nil _
  exact ⟨hpad _ (Nat.le_of_eq List.length_append), hpad _ (Nat.le_succ _)⟩

theorem trim_of_mem_spelled {arg : Text} (h : arg ∈ spelled params) : trim arg = arg := by
  rcases List.mem_append.mp h with hone | hlast
  · rw [List.eq_of_mem_replicate hone]
    rfl
  · rw [List.mem_singleton.mp hlast]
    decide

theorem sameText_iff (hargs : Ident args.toList) (hmem : args ∉ params) (hva : args ≠ vaArgs) (hparams : vaArgs ∉ params)
    (hpasteVa : Item.pasteVa ∉ items (named params args body)) (h : Regular (items (named params args body))) :
    SameText params args body ↔ NoOperand args.toList (items (named params args body)) := by
  constructor
  · intro hsame
    obtain ⟨s, hs⟩ := expandArgs_spelled params
    obtain ⟨hpad, hpad'⟩ := @padArgs_spelled params args body
    have heq := hsame withE s s firstLine 1 (spelled params) (probe params) (probe params) (fun _ => trim_of_mem_spelled)
      (hpad.symm ▸ hs) (hpad'.symm ▸ hs)
    obtain ⟨hnamed, hanonymous⟩ := substituteMacro_probe hpasteVa
    rw [hpad, hpad', hnamed, hanonymous] at heq
    have htwins : Twins args.toList (items (named params args body)) (items (anonymous params args body)) := by
      rw [items_named] at hpasteVa ⊢
      rw [items, anonymous, String.toList_ofList]
      exact twins_itemsLoop hargs.head (Nat.le_refl _) (Nat.le_refl _) hpasteVa
    have hstringize : Item.stringize args.toList ∉ items (named params args body) := by
      intro hin
      have hcount := @countP_twins params args body _ _ (given_probe params) (given_spelled params) hmem hva hparams _ _ htwins
      have hmarks := congrArg (List.countP isMark) heq
      rw [countP_pasteTokens, countP_pasteTokens] at hmarks
      rw [if_pos hin] at hcount
      omega
    refine ⟨hstringize, ?_, hpasteVa⟩
    rcases @length_twins params args body [] hmem hva _ _ htwins hstringize h (.inl settled_nil) with ⟨hchain, _⟩ | hlt
    · exact hchain
    · exact absurd (congrArg List.length heq).symm (Nat.ne_of_lt hlt)
  · intro h st s t place n l expanded expanded' _ hexpanded hexpanded'
    have hpad := @padded_padArgs params args body l
    rw [expandArgs_padded (congruent_twin.uniform place n) hpad, hexpanded'] at hexpanded
    obtain ⟨_, rfl⟩ := Prod.mk.inj (Option.some_inj.mp hexpanded)
    refine substituteMacro_named hargs.head hmem hva h ⟨?_, ?_⟩ hpad
    · rw [length_expandArgs hexpanded']
      exact hpad.1
    · rw [length_expandArgs hexpanded']

/-- The named and the anonymous macro agree on any text where the variable arguments are no
operand of `#` and stand behind no `##`; and in a body with a parameter behind each `#` and
two tokens beside each `##`, only there do they agree on the arguments of every call. -/
theorem variadic_iff (hname : Ident name.toList) (hparams : ∀ param ∈ params, Ident param.toList) (hargs : Ident args.toList)
    (hmem : args ∉ params) (hva : args ≠ vaArgs) (hvaParams : vaArgs ∉ params) (hlength : params.length < maxParams)
    (htrim : trim body = body) :
    (NoOperand args.toList (items (named params args body)) → VariadicAgree params args name body) ∧
      (Item.hash ∉ items (named params args body) → Item.pasteVa ∉ items (named params args body) →
        ((items (named params args body)).IsChain fun a b => a = .paste → b ≠ .paste) →
        (SameText params args body ↔ NoOperand args.toList (items (named params args body)))) :=
  ⟨agree_of_noOperand hname hparams hargs hmem hva hlength htrim,
    fun hhash hpasteVa hpaste => sameText_iff hargs hmem hva hvaParams hpasteVa (regular_items _ hhash hpaste)⟩

end Agree

/-- `#define E(f, args...) g(f, args)` and `#define E(f, ...) g(f, __VA_ARGS__)` agree. -/
theorem variadic_list : VariadicAgree ["f"] "args" "E" "g(f, args)".toList :=
  (variadic_iff ⟨by decide, by decide⟩ (by simp only [List.forall_mem_singleton]; exact ⟨by decide, by decide⟩) ⟨by decide, by decide⟩
    (by decide) (by decide) (by decide) (by decide) (by decide)).1 ⟨by decide, by decide, by decide⟩

/-- `#define E(f, args...) g(f, ## args)` and `#define E(f, ...) g(f, ## __VA_ARGS__)` do not:
`E(1)` is `g(1,)` for the first and `g(1)` for the second. -/
theorem variadic_comma : ¬ VariadicAgree ["f"] "args" "E" "g(f, ## args)".toList := by
  intro h
  obtain ⟨t, t', ht, ht', heq⟩ := h ⟨Table.empty, [], 0⟩ firstLine depths "E(1)".toList
  have hnamed : ((define Table.empty "E(f,args...)g(f, ## args)".toList).bind fun t =>
      (expandText firstLine depths ⟨t, [], 0⟩ "E(1)".toList).map Prod.snd) = some "g(1,)".toList := by decide +kernel
  have hanonymous : ((define Table.empty "E(f,...)g(f, ## __VA_ARGS__)".toList).bind fun t =>
      (expandText firstLine depths ⟨t, [], 0⟩ "E(1)".toList).map Prod.snd) = some "g(1)".toList := by decide +kernel
  rw [show define Table.empty "E(f,args...)g(f, ## args)".toList = some t from ht, Option.bind_some] at hnamed
  rw [show define Table.empty "E(f,...)g(f, ## __VA_ARGS__)".toList = some t' from ht', Option.bind_some] at hanonymous
  have hsame := hnamed.symm.trans (heq.trans hanonymous)
  exact absurd (Option.some_inj.mp hsame) (by decide)

end Rcc.Preprocess

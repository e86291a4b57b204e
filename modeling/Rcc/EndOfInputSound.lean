import Mathlib
import Rcc.EndOfInput

/-!
# Where the parser goes past the end

Loops over brackets ask for the end of the input and stop there. Three others do not: the loop over the attributes takes whatever is in
front of it for one, the end of the input too; behind a range in a designator a bracket is stepped over that may not be there; and the
elements of a compound literal are counted up to a brace. Each goes past the end exactly if what it looks for does not come.
-/

namespace Rcc.Parser.EndOfInput

variable {α β : Type} {c : Callees}

/-! ## Walks -/

theorem bind_past {x : Walk α} {f : α → Walk β} : (x >>= f) = .past ↔ x = .past ∨ ∃ a, x = .here a ∧ f a = .past := by
  cases x with
  | past => exact iff_of_true rfl (.inl rfl)
  | error => exact iff_of_false (fun h => by cases h) (by rintro (h | ⟨a, h, -⟩) <;> cases h)
  | here a =>
      refine ⟨fun h => .inr ⟨a, rfl, h⟩, ?_⟩
      rintro (h | ⟨a', h, hf⟩)
      · cases h
      · cases h
        exact hf

theorem bind_here {x : Walk α} {f : α → Walk β} {b : β} : (x >>= f) = .here b ↔ ∃ a, x = .here a ∧ f a = .here b := by
  cases x with
  | past => exact iff_of_false (fun h => by cases h) fun ⟨a, h, _⟩ => by cases h
  | error => exact iff_of_false (fun h => by cases h) fun ⟨a, h, _⟩ => by cases h
  | here a =>
      refine ⟨fun h => ⟨a, rfl, h⟩, ?_⟩
      rintro ⟨a', h, hf⟩
      cases h
      exact hf

@[simp] theorem bind_error (f : α → Walk β) : (Walk.error >>= f) = .error := rfl

@[simp] theorem here_bind (a : α) (f : α → Walk β) : (Walk.here a >>= f) = f a := rfl

@[simp] theorem pure_here (a : α) : (pure a : Walk α) = .here a := rfl

theorem next_past {tok : List Tok} : next tok = .past ↔ tok = [] := by
  cases tok with
  | nil => exact iff_of_true rfl rfl
  | cons t rest => exact iff_of_false (fun h => by cases h) (fun h => by cases h)

theorem next_tail {tok : List Tok} (h : tok ≠ []) : next tok = .here tok.tail := by
  cases tok with
  | nil => exact absurd rfl h
  | cons t rest => rfl

theorem next_here {tok rest : List Tok} (h : next tok = .here rest) : rest.length < tok.length := by
  cases tok with
  | nil => cases h
  | cons t tok =>
      cases h
      exact Nat.lt_succ_self _

theorem skipOp_not_past (op : String) (tok : List Tok) : skipOp op tok ≠ .past := by
  unfold skipOp
  split <;> exact fun h => by cases h

theorem skipOp_here {op : String} {tok rest : List Tok} (h : skipOp op tok = .here rest) :
    equalc tok op = true ∧ rest = tok.tail := by
  unfold skipOp at h
  split at h
  · rename_i heq
    cases h
    exact ⟨heq, rfl⟩
  · cases h

theorem skipIf_le (op : String) (tok : List Tok) : (skipIf op tok).length ≤ tok.length := by
  unfold skipIf
  split
  · exact (List.length_tail ▸ Nat.sub_le _ _)
  · exact Nat.le_refl _

theorem equalc_ne_nil {op : String} {tok : List Tok} (h : equalc tok op = true) : tok ≠ [] := fun hnil => by
  subst hnil
  cases h

theorem equalc_unique {a b : String} {tok : List Tok} (ha : equalc tok a = true) (hb : equalc tok b = true) : a = b := by
  cases tok with
  | nil => cases ha
  | cons t rest => exact String.toList_inj.mp ((of_decide_eq_true ha).symm.trans (of_decide_eq_true hb))

theorem mem_of_isOneOf {names : List String} {op : String} {tok : List Tok} (h : isOneOf names tok = true)
    (hop : equalc tok op = true) : op ∈ names := by
  obtain ⟨name, hmem, hname⟩ := List.any_eq_true.mp h
  exact equalc_unique hop hname ▸ hmem

theorem not_isOneOf {names others : List String} {tok : List Tok} (h : isOneOf names tok = true)
    (hothers : ∀ op ∈ others, op ∉ names) : isOneOf others tok ≠ true := fun hother => by
  obtain ⟨op, hmem, hop⟩ := List.any_eq_true.mp hother
  exact hothers op hmem (mem_of_isOneOf h hop)

theorem isOneOf_ne_nil {names : List String} {tok : List Tok} (h : isOneOf names tok = true) : tok ≠ [] := by
  obtain ⟨op, -, hop⟩ := List.any_eq_true.mp h
  exact equalc_ne_nil hop

/-! ## Brackets -/

theorem skipNested_le (left right : String) (depth : Nat) (tok : List Tok) :
    (skipNested left right depth tok).length ≤ tok.length := by
  induction tok generalizing depth with
  | nil =>
      cases depth with
      | zero => exact Nat.le_refl _
      | succ depth => exact Nat.le_refl _
  | cons t rest ih =>
      cases depth with
      | zero => exact Nat.le_refl _
      | succ depth =>
          rw [skipNested]
          split
          · exact Nat.le_succ_of_le (ih _)
          · split
            · exact Nat.le_succ_of_le (ih _)
            · exact Nat.le_succ_of_le (ih _)

/-- A group that is there is skipped inside the input. -/
theorem skipGroup_here (left right : String) {tok : List Tok} (h : tok ≠ []) :
    ∃ rest, skipGroup left right tok = .here rest ∧ rest.length < tok.length := by
  cases tok with
  | nil => exact absurd rfl h
  | cons t rest => exact ⟨_, rfl, Nat.lt_succ_of_le (skipNested_le ..)⟩

/-- The type or the constant of an alignment is what goes past the end. -/
def ReadsPast (c : Callees) (tok : List Tok) : Prop :=
  c.isTypename tok = .past ∨ c.isTypename tok = .here true ∧ c.typeName tok = .past ∨
    c.isTypename tok = .here false ∧ c.constant tok = .past

theorem alignment_past {tok : List Tok} : alignment c tok = .past ↔ ReadsPast c tok := by
  have hread : ∀ x : Walk (List Tok), (x >>= skipOp ")") = .past ↔ x = .past := fun x => by
    rw [bind_past]
    exact or_iff_left fun ⟨rest, _, h⟩ => skipOp_not_past ")" rest h
  rw [alignment, bind_past, ReadsPast]
  refine or_congr_right ⟨?_, ?_⟩
  · rintro ⟨isType, htype, hpast⟩
    cases isType with
    | true => exact .inl ⟨htype, (hread _).mp hpast⟩
    | false => exact .inr ⟨htype, (hread _).mp hpast⟩
  · rintro (⟨htype, hpast⟩ | ⟨htype, hpast⟩)
    · exact ⟨true, htype, (hread _).mpr hpast⟩
    · exact ⟨false, htype, (hread _).mpr hpast⟩

/-! ## Walks inside the input -/

/-- Not past the end, and to at most so many tokens. -/
def Within (n : Nat) (x : Walk (List Tok)) : Prop := x ≠ .past ∧ ∀ rest, x = .here rest → rest.length ≤ n

namespace Within

variable {n m : Nat} {tok : List Tok}

theorem here (h : tok.length ≤ n) : Within n (.here tok) :=
  ⟨(fun h => by cases h), fun rest heq => by
    cases heq
    exact h⟩

theorem bind {x : Walk (List Tok)} {f : List Tok → Walk (List Tok)} (hx : Within n x)
    (hf : ∀ rest, rest.length ≤ n → Within m (f rest)) : Within m (x >>= f) := by
  refine ⟨fun hpast => ?_, fun rest hhere => ?_⟩
  · rcases bind_past.mp hpast with h | ⟨a, ha, hfa⟩
    · exact hx.1 h
    · exact (hf a (hx.2 a ha)).1 hfa
  · obtain ⟨a, ha, hfa⟩ := bind_here.mp hhere
    exact (hf a (hx.2 a ha)).2 rest hfa

theorem next (hne : tok ≠ []) (h : tok.length ≤ n + 1) : Within n (EndOfInput.next tok) :=
  ⟨fun hpast => hne (next_past.mp hpast), fun _ hhere => Nat.le_of_lt_succ (Nat.lt_of_lt_of_le (next_here hhere) h)⟩

theorem skipOp (op : String) (h : tok.length ≤ n) : Within n (EndOfInput.skipOp op tok) := by
  refine ⟨skipOp_not_past op tok, fun rest hhere => ?_⟩
  rw [(skipOp_here hhere).2, List.length_tail]
  exact (Nat.sub_le _ _).trans h

theorem comma (h : tok.length ≤ n) : Within n (pure (skipIf "," tok)) := .here ((skipIf_le "," tok).trans h)

theorem args (h : tok.length ≤ n) : Within n (skipArgs tok) := by
  unfold skipArgs
  split
  · rename_i hparen
    obtain ⟨rest, heq, hlt⟩ := skipGroup_here "(" ")" (equalc_ne_nil hparen)
    rw [skipBalanced, heq]
    exact .here (hlt.le.trans h)
  · exact .here h

theorem alignment (h : tok.length ≤ n) (hreads : ¬ ReadsPast c tok) : Within n (EndOfInput.alignment c tok) := by
  refine ⟨fun hpast => hreads (alignment_past.mp hpast), fun rest hhere => ?_⟩
  obtain ⟨isType, -, hhere⟩ := bind_here.mp hhere
  obtain ⟨rest', hread, hskip⟩ := bind_here.mp hhere
  rw [(skipOp_here hskip).2, List.length_tail]
  refine (Nat.sub_le _ _).trans (le_trans ?_ h)
  split at hread
  · exact c.typeName_le tok rest' hread
  · exact c.constant_le tok rest' hread

theorem alignmentArg (h : tok.length ≤ n) (hreads : equalc tok "(" = true → ¬ ReadsPast c tok.tail) :
    Within n (EndOfInput.alignmentArg c tok) := by
  unfold EndOfInput.alignmentArg
  split
  · rename_i hparen
    refine .alignment ?_ (hreads hparen)
    rw [List.length_tail]
    exact (Nat.sub_le _ _).trans h
  · exact .here h

theorem modeArg (h : tok.length ≤ n) : Within n (EndOfInput.modeArg tok) := by
  unfold EndOfInput.modeArg
  split
  · rename_i hident
    refine .next (fun hnil => ?_) (Nat.le_succ_of_le h)
    subst hnil
    cases hident
  · exact .here h

end Within

/-! ## Attributes -/

/-- The argument of an attribute is asked for at the end of the input, or goes past it. -/
def LacksArgument (c : Callees) (tok : List Tok) : Prop :=
  equalc tok.tail "(" = true ∧
    (isOneOf nameArgs tok = true ∧ tok.tail.tail = [] ∨
      isOneOf ["aligned", "__aligned__"] tok = true ∧ ReadsPast c tok.tail.tail)

theorem oneAttribute_within {n : Nat} {tok : List Tok} (hlen : tok.length = n + 1) (h : ¬ LacksArgument c tok) :
    Within n (oneAttribute c tok) := by
  have hne : tok ≠ [] := fun hnil => by
    subst hnil
    cases hlen
  have hnext : Within n (next tok) := .next hne hlen.le
  have htail : tok.tail.length = n := by rw [List.length_tail, hlen, Nat.add_sub_cancel]
  unfold oneAttribute
  split
  · rename_i hname
    rw [next_tail hne, here_bind]
    by_cases hparen : equalc tok.tail "(" = true
    · have hargs : tok.tail.tail ≠ [] := fun hnil => h ⟨hparen, .inl ⟨hname, hnil⟩⟩
      rw [skipOp, if_pos hparen, here_bind]
      refine (Within.next hargs ?_).bind fun rest hrest => (Within.skipOp ")" hrest).bind fun rest hrest => .comma hrest
      rw [List.length_tail, htail]
      omega
    · rw [skipOp, if_neg hparen]
      exact ⟨(fun h => by cases h), fun _ h => by cases h⟩
  split
  · rename_i haligned
    rw [next_tail hne, here_bind]
    have hreads : equalc tok.tail "(" = true → ¬ ReadsPast c tok.tail.tail := fun hparen hreads =>
      h ⟨hparen, .inr ⟨haligned, hreads⟩⟩
    exact (Within.alignmentArg htail.le hreads).bind fun rest hrest => .comma hrest
  split
  · exact hnext.bind fun rest hrest => (Within.args hrest).bind fun rest hrest => .comma hrest
  split
  · exact hnext.bind fun rest hrest => (Within.skipOp "(" hrest).bind fun rest hrest => (Within.modeArg hrest).bind
      fun rest hrest => (Within.skipOp ")" hrest).bind fun rest hrest => .comma hrest
  split
  · rename_i hparen
    obtain ⟨rest, heq, hlt⟩ := skipGroup_here "(" ")" hne
    rw [skipBalanced, heq]
    exact .comma (Nat.le_of_lt_succ (hlt.trans_eq hlen))
  · exact hnext.bind fun rest hrest => .comma hrest

theorem oneAttribute_of_lacks {tok : List Tok} (h : LacksArgument c tok) : oneAttribute c tok = .past := by
  obtain ⟨hparen, ⟨hname, hend⟩ | ⟨haligned, hreads⟩⟩ := h
  · rw [oneAttribute, if_pos hname, next_tail (isOneOf_ne_nil hname), here_bind, skipOp, if_pos hparen, here_bind, hend]
    rfl
  · have hname : isOneOf nameArgs tok ≠ true := not_isOneOf haligned (by decide)
    rw [oneAttribute, if_neg hname, if_pos haligned, next_tail (isOneOf_ne_nil haligned), here_bind, alignmentArg, if_pos hparen,
      alignment_past.mpr hreads]
    rfl

/-- The input ends where an attribute or its argument is taken, and the attributes in front have been. -/
inductive Unclosed (c : Callees) : List Tok → Prop
  | ends : Unclosed c []
  | argument {tok : List Tok} (h : LacksArgument c tok) : Unclosed c tok
  | later {tok rest : List Tok} (hopen : closing tok = false) (hone : oneAttribute c tok = .here rest) (h : Unclosed c rest) :
      Unclosed c tok

theorem closing_of_lacks {tok : List Tok} (h : LacksArgument c tok) : closing tok = false := by
  have hne : equalc tok ")" ≠ true := fun heq => by
    obtain ⟨-, ⟨hname, -⟩ | ⟨haligned, -⟩⟩ := h
    · exact absurd (mem_of_isOneOf hname heq) (by decide)
    · exact absurd (mem_of_isOneOf haligned heq) (by decide)
  rw [closing, Bool.eq_false_iff.mpr hne]
  rfl

theorem attributes_past (n : Nat) (tok : List Tok) (hn : tok.length < n) : attributes c n tok = .past ↔ Unclosed c tok := by
  induction n generalizing tok with
  | zero => exact absurd hn (Nat.not_lt_zero _)
  | succ n ih =>
      rw [attributes]
      by_cases hclosing : closing tok = true
      · rw [if_pos hclosing]
        refine iff_of_false (fun h => by cases h) fun h => ?_
        cases h with
        | ends => cases hclosing
        | argument h => exact Bool.false_ne_true ((closing_of_lacks h).symm.trans hclosing)
        | later hopen _ _ => exact Bool.false_ne_true (hopen.symm.trans hclosing)
      · rw [if_neg hclosing, bind_past]
        by_cases hlacks : LacksArgument c tok
        · exact iff_of_true (.inl (oneAttribute_of_lacks hlacks)) (.argument hlacks)
        cases tok with
        | nil => exact iff_of_true (.inl rfl) .ends
        | cons t tok =>
            have hwithin : Within tok.length (oneAttribute c (t :: tok)) := oneAttribute_within rfl hlacks
            have hshorter : ∀ rest, oneAttribute c (t :: tok) = .here rest → rest.length < n := fun rest hone =>
              Nat.lt_of_le_of_lt (hwithin.2 rest hone) (Nat.lt_of_succ_lt_succ hn)
            constructor
            · rintro (hpast | ⟨rest, hone, hpast⟩)
              · exact absurd hpast hwithin.1
              · exact .later (Bool.eq_false_iff.mpr hclosing) hone ((ih rest (hshorter rest hone)).mp hpast)
            · intro h
              cases h with
              | argument h => exact absurd h hlacks
              | later _ hone h => exact .inr ⟨_, hone, (ih _ (hshorter _ hone)).mpr h⟩

theorem attributes_le (n : Nat) {tok rest : List Tok} (h : attributes c n tok = .here rest) : rest.length ≤ tok.length := by
  induction n generalizing tok with
  | zero => cases h
  | succ n ih =>
      rw [attributes] at h
      split at h
      · cases h
        exact Nat.le_refl _
      · obtain ⟨rest', hone, hattributes⟩ := bind_here.mp h
        have hlacks : ¬ LacksArgument c tok := fun hlacks => by
          rw [oneAttribute_of_lacks hlacks] at hone
          cases hone
        cases tok with
        | nil => cases hone
        | cons t tok =>
            have hle := (oneAttribute_within (c := c) (n := tok.length) rfl hlacks).2 rest' hone
            exact (ih hattributes).trans (Nat.le_succ_of_le hle)

/-- The words of attributes. -/
abbrev attributeWords : List String := ["__attribute__", "__attribute"]

/-- An attribute list begins, and the input ends in it. -/
def OpensUnclosed (c : Callees) (tok : List Tok) : Prop :=
  isOneOf attributeWords tok = true ∧ equalc tok.tail "(" = true ∧ equalc tok.tail.tail "(" = true ∧
    Unclosed c tok.tail.tail.tail

/-- The argument of `_Alignas` goes past the end. -/
def AlignsPast (c : Callees) (tok : List Tok) : Prop :=
  equalc tok "_Alignas" = true ∧ equalc tok.tail "(" = true ∧ ReadsPast c tok.tail.tail

/-- Not past the end, and to at most so many tokens if there is a specifier. -/
def SpecWithin (n : Nat) (x : Walk (Option (List Tok))) : Prop := x ≠ .past ∧ ∀ rest, x = .here (some rest) → rest.length ≤ n

namespace SpecWithin

variable {n m : Nat} {tok : List Tok}

theorem none : SpecWithin n (pure none) := ⟨(fun h => by cases h), fun _ h => by cases h⟩

theorem some (h : tok.length ≤ n) : SpecWithin n (pure (some tok)) :=
  ⟨(fun h => by cases h), fun rest heq => by
    cases heq
    exact h⟩

theorem bind {x : Walk (List Tok)} {f : List Tok → Walk (Option (List Tok))} (hx : Within n x)
    (hf : ∀ rest, rest.length ≤ n → SpecWithin m (f rest)) : SpecWithin m (x >>= f) := by
  refine ⟨fun hpast => ?_, fun rest hhere => ?_⟩
  · rcases bind_past.mp hpast with h | ⟨a, ha, hfa⟩
    · exact hx.1 h
    · exact (hf a (hx.2 a ha)).1 hfa
  · obtain ⟨a, ha, hfa⟩ := bind_here.mp hhere
    exact (hf a (hx.2 a ha)).2 rest hfa

end SpecWithin

theorem skipAsmStrings_le (tok : List Tok) : (skipAsmStrings tok).length ≤ tok.length := by
  induction tok with
  | nil => exact Nat.le_refl _
  | cons t rest ih =>
      rw [skipAsmStrings]
      split
      · exact Nat.le_succ_of_le ih
      · exact Nat.le_refl _

/-- Specifiers that are no attributes. -/
theorem specifier_within {n : Nat} {tok : List Tok} (hlen : tok.length = n + 1) (hword : isOneOf attributeWords tok ≠ true)
    (haligns : ¬ AlignsPast c tok) : SpecWithin n (specifier c tok) := by
  have hne : tok ≠ [] := fun hnil => by
    subst hnil
    cases hlen
  have hnext : Within n (next tok) := .next hne hlen.le
  unfold specifier
  split
  · rename_i halignas
    rw [next_tail hne, here_bind]
    by_cases hparen : equalc tok.tail "(" = true
    · rw [skipOp, if_pos hparen, here_bind]
      refine .bind (.alignment (n := n) ?_ fun hreads => haligns ⟨halignas, hparen, hreads⟩) fun rest hrest => .some hrest
      simp only [List.length_tail]
      omega
    · rw [skipOp, if_neg hparen]
      exact ⟨(fun h => by cases h), fun _ h => by cases h⟩
  split
  · refine .bind hnext fun rest hrest => ?_
    split
    · exact .none
    · dsimp only
      split
      · refine .some ?_
        have hle := skipAsmStrings_le rest.tail
        rw [List.length_tail] at hle ⊢
        omega
      · exact .none
  split
  · exact .bind hnext fun rest hrest => .bind (.args hrest) fun rest hrest => .some hrest
  · exact .none

/-- The rest of an attribute list. -/
def closeList (tok : List Tok) : Walk (Option (List Tok)) := do
  let tok ← skipOp ")" tok
  let tok ← skipOp ")" tok
  pure (some tok)

theorem closeList_within (tok : List Tok) : SpecWithin tok.length (closeList tok) :=
  .bind (.skipOp ")" (Nat.le_refl _)) fun _ hrest => .bind (.skipOp ")" hrest) fun _ hrest => .some hrest

theorem specifier_attribute {tok : List Tok} (hword : isOneOf attributeWords tok = true) :
    specifier c tok =
      if equalc tok.tail "(" = true ∧ equalc tok.tail.tail "(" = true then
        attributes c (tok.tail.tail.tail.length + 1) tok.tail.tail.tail >>= closeList
      else .error := by
  have halignas : equalc tok "_Alignas" ≠ true := fun h => absurd (mem_of_isOneOf hword h) (by decide)
  have hasm : isOneOf ["__asm__", "__asm", "asm"] tok ≠ true := not_isOneOf hword (by decide)
  rw [specifier, if_neg halignas, if_neg hasm, if_pos hword, next_tail (isOneOf_ne_nil hword), here_bind]
  by_cases h1 : equalc tok.tail "(" = true
  · by_cases h2 : equalc tok.tail.tail "(" = true
    · rw [if_pos ⟨h1, h2⟩, skipOp, if_pos h1, here_bind, skipOp, if_pos h2, here_bind]
      rfl
    · rw [if_neg fun h => h2 h.2, skipOp, if_pos h1, here_bind, skipOp, if_neg h2]
      rfl
  · rw [if_neg fun h => h1 h.1, skipOp, if_neg h1]
    rfl

theorem specifier_of_aligns {tok : List Tok} (h : AlignsPast c tok) : specifier c tok = .past := by
  obtain ⟨halignas, hparen, hreads⟩ := h
  rw [specifier, if_pos halignas, next_tail (equalc_ne_nil halignas), here_bind, skipOp, if_pos hparen, here_bind,
    alignment_past.mpr hreads]
  rfl

theorem specifier_past (tok : List Tok) : specifier c tok = .past ↔ OpensUnclosed c tok ∨ AlignsPast c tok := by
  by_cases hword : isOneOf attributeWords tok = true
  · have haligns : ¬ AlignsPast c tok := fun h => absurd (mem_of_isOneOf hword h.1) (by decide)
    rw [specifier_attribute hword, or_iff_left haligns]
    by_cases hparens : equalc tok.tail "(" = true ∧ equalc tok.tail.tail "(" = true
    · rw [if_pos hparens, bind_past, attributes_past _ _ (Nat.lt_succ_self _)]
      constructor
      · rintro (h | ⟨rest, -, h⟩)
        · exact ⟨hword, hparens.1, hparens.2, h⟩
        · exact absurd h (closeList_within rest).1
      · exact fun h => .inl h.2.2.2
    · rw [if_neg hparens]
      exact iff_of_false (fun h => by cases h) fun h => hparens ⟨h.2.1, h.2.2.1⟩
  by_cases haligns : AlignsPast c tok
  · exact iff_of_true (specifier_of_aligns haligns) (.inr haligns)
  · refine iff_of_false ?_ fun h => h.elim (fun h => hword h.1) haligns
    cases tok with
    | nil => exact fun h => by cases h
    | cons t rest => exact (specifier_within rfl hword haligns).1

theorem specifier_lt {tok rest : List Tok} (h : specifier c tok = .here (some rest)) : rest.length < tok.length := by
  by_cases hword : isOneOf attributeWords tok = true
  · rw [specifier_attribute hword] at h
    split at h
    · obtain ⟨rest', hattributes, hclose⟩ := bind_here.mp h
      have hle := (closeList_within rest').2 rest hclose
      have hle' := attributes_le _ hattributes
      have hpos := List.length_pos_of_ne_nil (isOneOf_ne_nil hword)
      simp only [List.length_tail] at hle'
      omega
    · cases h
  · have haligns : ¬ AlignsPast c tok := fun haligns => by
      rw [specifier_of_aligns haligns] at h
      cases h
    cases tok with
    | nil => cases h
    | cons t tok => exact Nat.lt_succ_of_le ((specifier_within rfl hword haligns).2 rest h)

/-- Specifiers, and then one in which the input ends. -/
inductive EndsInAttributes (c : Callees) : List Tok → Prop
  | opens {tok : List Tok} (h : OpensUnclosed c tok) : EndsInAttributes c tok
  | aligns {tok : List Tok} (h : AlignsPast c tok) : EndsInAttributes c tok
  | later {tok rest : List Tok} (hspecifier : specifier c tok = .here (some rest)) (h : EndsInAttributes c rest) :
      EndsInAttributes c tok

theorem specifiers_past (n : Nat) (tok : List Tok) (hn : tok.length < n) :
    specifiers c n tok = .past ↔ EndsInAttributes c tok := by
  induction n generalizing tok with
  | zero => exact absurd hn (Nat.not_lt_zero _)
  | succ n ih =>
      rw [specifiers, bind_past, specifier_past]
      constructor
      · rintro ((h | h) | ⟨o, hspecifier, h⟩)
        · exact .opens h
        · exact .aligns h
        · cases o with
          | none => cases h
          | some rest => exact .later hspecifier ((ih rest (by have := specifier_lt hspecifier; omega)).mp h)
      · intro h
        cases h with
        | opens h => exact .inl (.inl h)
        | aligns h => exact .inl (.inr h)
        | later hspecifier h =>
            exact .inr ⟨_, hspecifier, (ih _ (by have := specifier_lt hspecifier; omega)).mpr h⟩


/-- **Attributes.** They are read past the end exactly if the input ends in an attribute list or in an alignment. -/
theorem readTypeAttrs_past (tok : List Tok) : readTypeAttrs c tok = .past ↔ EndsInAttributes c tok :=
  specifiers_past _ tok (Nat.lt_succ_self _)

/-! ## Groups -/

theorem skipGroup_past (left right : String) (tok : List Tok) : skipGroup left right tok = .past ↔ tok = [] := by
  cases tok with
  | nil => exact iff_of_true rfl rfl
  | cons t rest => exact iff_of_false (fun h => by cases h) (fun h => by cases h)

theorem afterParen_past (tok : List Tok) : afterParen tok = .past ↔ tok = [] := by
  rw [afterParen, bind_past, next_past]
  refine or_iff_left ?_
  rintro ⟨rest, -, h⟩
  cases h

/-- `peek_past_attr` stops in front of the end whatever is missing. -/
theorem peekPastAttr_not_past (tok : List Tok) : peekPastAttr tok ≠ .past := by
  unfold peekPastAttr
  split
  · exact fun h => by cases h
  · next hword =>
      rw [Bool.not_eq_true, Bool.not_eq_false'] at hword
      rw [next_tail (isOneOf_ne_nil hword), here_bind]
      split
      · exact fun h => by cases h
      · next h1 =>
          rw [Bool.not_eq_true, Bool.not_eq_false'] at h1
          rw [next_tail (equalc_ne_nil h1), here_bind]
          split
          · exact fun h => by cases h
          · next h2 =>
              rw [Bool.not_eq_true, Bool.not_eq_false'] at h2
              rw [next_tail (equalc_ne_nil h2), here_bind]
              dsimp only
              split
              · exact fun h => by cases h
              · next h3 =>
                  rw [Bool.not_eq_true, Bool.not_eq_false'] at h3
                  rw [next_tail (equalc_ne_nil h3), here_bind]
                  exact fun h => by cases h

/-! ## `skip_initializer` -/

/-- A range stands behind the brackets of a designator, and no bracket closes it. -/
def OpenRange (tok : List Tok) : Prop :=
  equalc tok "[" = true ∧ equalc (skipNested "[" "]" 1 tok.tail) "..." = true ∧
    ∀ t ∈ (skipNested "[" "]" 1 tok.tail).tail, t.2 ≠ "]".toList

theorem skipRange_past (tok : List Tok) :
    skipRange tok = .past ↔ equalc tok "..." = true ∧ ∀ t ∈ tok.tail, t.2 ≠ "]".toList := by
  unfold skipRange
  split
  · next hdots =>
      rw [next_past, List.dropWhile_eq_nil_iff, and_iff_right hdots]
      simp only [decide_eq_true_eq]
  · next hdots => exact iff_of_false (fun h => by cases h) fun h => hdots h.1

theorem designator_past (tok : List Tok) : designator tok = .past ↔ OpenRange tok := by
  unfold designator OpenRange
  split
  · next hdot =>
      refine iff_of_false (fun h => by cases h) fun h => ?_
      rw [Bool.and_eq_true] at hdot
      exact absurd (equalc_unique hdot.1 h.1) (by decide)
  · split
    · next hbracket =>
        dsimp only
        rw [bind_past, skipRange_past, and_iff_right hbracket]
        refine or_iff_left ?_
        rintro ⟨rest, -, h⟩
        cases h
    · next hbracket => exact iff_of_false (fun h => by cases h) fun h => hbracket h.1

theorem skipRange_le {tok rest : List Tok} (h : skipRange tok = .here rest) : rest.length ≤ tok.length := by
  unfold skipRange at h
  split at h
  · have hlt := next_here h
    have hle := List.length_dropWhile_le (fun t : Tok => decide (t.2 ≠ "]".toList)) tok.tail
    rw [List.length_tail] at hle
    omega
  · cases h
    exact Nat.le_refl _

theorem designator_lt {tok rest : List Tok} (h : designator tok = .here (some rest)) : rest.length < tok.length := by
  unfold designator at h
  split at h
  · next hdot =>
      cases h
      rw [Bool.and_eq_true] at hdot
      have hle := skipIf_le "=" tok.tail.tail
      have hpos := List.length_pos_of_ne_nil (equalc_ne_nil hdot.1)
      simp only [List.length_tail] at hle
      omega
  · split at h
    · next hbracket =>
        dsimp only at h
        obtain ⟨rest', hrange, h⟩ := bind_here.mp h
        cases h
        have hle := skipIf_le "=" rest'
        have hle' := skipRange_le hrange
        have hle'' := skipNested_le "[" "]" 1 tok.tail
        have hpos := List.length_pos_of_ne_nil (equalc_ne_nil hbracket)
        rw [List.length_tail] at hle''
        omega
    · cases h

/-- Designators, and then one whose range is open, or an expression that is read past the end. -/
inductive EndsInDesignator (c : Callees) : List Tok → Prop
  | range {tok : List Tok} (h : OpenRange tok) : EndsInDesignator c tok
  | value {tok : List Tok} (hnone : designator tok = .here none) (hbrace : equalc tok "\x7b" = false) (h : c.assign tok = .past) :
      EndsInDesignator c tok
  | later {tok rest : List Tok} (hsome : designator tok = .here (some rest)) (h : EndsInDesignator c rest) :
      EndsInDesignator c tok

theorem skipInitializerFrom_past (n : Nat) (tok : List Tok) (hn : tok.length < n) :
    skipInitializerFrom c n tok = .past ↔ EndsInDesignator c tok := by
  induction n generalizing tok with
  | zero => exact absurd hn (Nat.not_lt_zero _)
  | succ n ih =>
      rw [skipInitializerFrom, bind_past, designator_past]
      constructor
      · rintro (hrange | ⟨o, hdesignator, h⟩)
        · exact .range hrange
        · cases o with
          | some rest => exact .later hdesignator ((ih rest (by have := designator_lt hdesignator; omega)).mp h)
          | none =>
              dsimp only at h
              split at h
              · next hbrace =>
                  rw [skipGroup_past] at h
                  exact absurd h (equalc_ne_nil hbrace)
              · next hbrace => exact .value hdesignator (Bool.eq_false_iff.mpr hbrace) h
      · intro h
        cases h with
        | range h => exact .inl h
        | value hnone hbrace h =>
            refine .inr ⟨none, hnone, ?_⟩
            dsimp only
            rw [if_neg (Bool.eq_false_iff.mp hbrace)]
            exact h
        | later hsome h => exact .inr ⟨_, hsome, (ih _ (by have := designator_lt hsome; omega)).mpr h⟩

/-! ## The elements of a compound literal -/

/-- The brace that is open is closed. -/
def closes : Nat → List Tok → Bool
  | _, [] => false
  | depth, t :: rest => if depth = 0 ∧ t.2 = "\x7d".toList then true else closes (depthBehind t depth) rest

theorem countElements_past (depth count : Nat) (tok : List Tok) :
    countElements depth count tok = .past ↔ closes depth tok = false := by
  induction tok generalizing depth count with
  | nil => exact iff_of_true rfl rfl
  | cons t rest ih =>
      rw [countElements, closes]
      split
      · exact iff_of_false (fun h => by cases h) (fun h => by cases h)
      · exact ih _ _

/-- A comma that is stepped over closes nothing. -/
theorem closes_comma {t : Tok} (h : t.2 = ",".toList) (rest : List Tok) : closes 0 (t :: rest) = closes 0 rest := by
  have hopen : t.2 ≠ "\x7b".toList := by rw [h]; decide
  have hclose : t.2 ≠ "\x7d".toList := by rw [h]; decide
  rw [closes, if_neg fun hand => hclose hand.2, depthBehind, if_neg hopen, if_neg hclose]

theorem closes_of_not {depth : Nat} {t : Tok} (h : ¬ (depth = 0 ∧ t.2 = "\x7d".toList)) (rest : List Tok) :
    closes depth (t :: rest) = closes (depthBehind t depth) rest := by
  rw [closes, if_neg h]

theorem scanElements_past (depth : Nat) (tok : List Tok) : scanElements depth tok = .past ↔ closes depth tok = false := by
  induction depth, tok using scanElements.induct with
  | case1 depth => simp [scanElements, closes]
  | case2 t h => simp [scanElements, closes, h]
  | case3 t h => simp [scanElements, closes]
  | case4 depth t => simp [scanElements, closes]
  | case5 depth t u rest h => simp [scanElements, closes, h]
  | case6 depth t u rest h hcomma ih =>
      rw [scanElements, if_neg h, if_pos hcomma, ih, closes_of_not h, hcomma.1, closes_comma hcomma.2]
  | case7 depth t u rest h hcomma ih => rw [scanElements, if_neg h, if_neg hcomma, ih, closes_of_not h]

theorem scanElements_here {depth : Nat} {tok : List Tok} (h : closes depth tok = true) : scanElements depth tok = .here () := by
  induction depth, tok using scanElements.induct with
  | case1 depth => simp [closes] at h
  | case2 t ht => simp [scanElements, ht]
  | case3 t ht =>
      rw [closes_of_not fun hand => ht hand.2, closes] at h
      cases h
  | case4 depth t => simp [closes] at h
  | case5 depth t u rest ht => simp [scanElements, ht]
  | case6 depth t u rest ht hcomma ih =>
      rw [closes_of_not ht, hcomma.1, closes_comma hcomma.2] at h
      rw [scanElements, if_neg ht, if_pos hcomma, ih h]
  | case7 depth t u rest ht hcomma ih =>
      rw [closes_of_not ht] at h
      rw [scanElements, if_neg ht, if_neg hcomma, ih h]

theorem beforeEnd_past (before tok : List Tok) : beforeEnd before tok = .past ↔ ∀ t ∈ tok, t.2 ≠ "\x7d".toList := by
  induction tok generalizing before with
  | nil => simp [beforeEnd]
  | cons t rest ih =>
      rw [beforeEnd, List.forall_mem_cons]
      split
      · next h => simp [h]
      · next h => rw [ih, and_iff_right h]

theorem closes_mem {depth : Nat} {tok : List Tok} (h : closes depth tok = true) : ∃ t ∈ tok, t.2 = "\x7d".toList := by
  induction tok generalizing depth with
  | nil => simp [closes] at h
  | cons t rest ih =>
      rw [closes] at h
      split at h
      · next hclose => exact ⟨t, List.mem_cons_self, hclose.2⟩
      · obtain ⟨u, hu, hclose⟩ := ih h
        exact ⟨u, List.mem_cons_of_mem t hu, hclose⟩

theorem literalCount_past (tok : List Tok) : literalCount tok = .past ↔ closes 0 tok = false := by
  constructor
  · intro h
    by_contra hcloses
    rw [Bool.not_eq_false] at hcloses
    rw [literalCount, scanElements_here hcloses, here_bind, bind_past] at h
    rcases h with h | ⟨count, -, h⟩
    · rw [countElements_past, hcloses] at h
      cases h
    · rw [bind_past, beforeEnd_past] at h
      rcases h with h | ⟨before, -, h⟩
      · obtain ⟨t, ht, hclose⟩ := closes_mem hcloses
        exact h t ht hclose
      · cases h
  · intro h
    rw [literalCount, (scanElements_past 0 tok).mpr h]
    rfl

/-! ## All of them -/

theorem skipInitializer_past (tok : List Tok) : skipInitializer c tok = .past ↔ EndsInDesignator c tok :=
  skipInitializerFrom_past _ tok (Nat.lt_succ_self _)

/-- **The end of the input.** The parser stops in front of it exactly if the input does not end in a list of attributes or in an alignment,
nor behind an open range in a designator, nor in the braces of a compound literal. The loops over brackets stop wherever the input ends, if
there is a token to begin with. -/
theorem stays_iff (c : Callees) (tok : List Tok) :
    (readTypeAttrs c tok ≠ .past ↔ ¬ EndsInAttributes c tok) ∧
      (skipInitializer c tok ≠ .past ↔ ¬ EndsInDesignator c tok) ∧
      (literalCount tok ≠ .past ↔ closes 0 tok = true) ∧
      (skipBalanced tok ≠ .past ↔ tok ≠ []) ∧
      (afterParen tok ≠ .past ↔ tok ≠ []) ∧
      peekPastAttr tok ≠ .past := by
  refine ⟨?_, ?_, ?_, ?_, ?_, peekPastAttr_not_past tok⟩
  · exact not_congr (readTypeAttrs_past tok)
  · exact not_congr (skipInitializer_past tok)
  · rw [Ne, literalCount_past, Bool.not_eq_false]
  · exact not_congr (skipGroup_past "(" ")" tok)
  · exact not_congr (afterParen_past tok)

/-- Readers that report an error for whatever is in front of them. -/
def noExpression : Callees where
  isTypename _ := .here false
  typeName _ := .error
  constant _ := .error
  assign _ := .error
  typeName_le _ _ h := by cases h
  constant_le _ _ h := by cases h

/-- `__attribute__((packed`, and nothing behind it. -/
def openAttribute : List Tok :=
  [(.ident "__attribute__".toList, "__attribute__".toList), (.punct, "(".toList), (.punct, "(".toList),
    (.ident "packed".toList, "packed".toList)]

theorem openAttribute_past :
    ¬ ∀ (c : Callees) (tok : List Tok), tok ≠ [] →
      readTypeAttrs c tok ≠ .past ∧ skipInitializer c tok ≠ .past ∧ literalCount tok ≠ .past ∧ skipBalanced tok ≠ .past ∧
        afterParen tok ≠ .past ∧ peekPastAttr tok ≠ .past := fun h =>
  (h noExpression openAttribute (by simp [openAttribute])).1 (by rfl)

end Rcc.Parser.EndOfInput

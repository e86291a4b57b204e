import Rcc.Provenance

/-!
# Blue paint

A name of a macro that is being expanded is written with a marker before it. What follows
a marker without a break is never looked at again, and nothing that the expansion does to
a text comes between the two: it cuts a text behind commas and parentheses, takes blanks
and `##` away, and puts texts next to each other. So no macro is put for a name that was
met while the macro was being expanded, in that scan or in a later one.

A name that the scan does not meet is not marked. One that stands behind such a text, or
comes from a text that was given back because the depth was reached, may be replaced.
-/

namespace Rcc.Preprocess

open Lexer (Text isspace isdigit headIs startswith)
open Macros (Definition Entry Table)
open Files (Preprocessor)

/-! ## Names behind a marker -/

/-- Whether the next character is behind a marker, where `b` tells it of this one. -/
def inName (b : Bool) (c : Char) : Bool := c = paint || (b && isIdent2 c)

/-- The names that were met are behind markers. -/
def Painted : Bool → List Traced → Prop
  | _, [] => True
  | b, c :: p => (c.met = true → b = true ∧ isIdent2 c.char = true) ∧ Painted (inName b c.char) p

section Painted

variable {b : Bool} {c : Traced} {p q s : List Traced}

theorem inName_false {c : Char} (hpaint : c ≠ paint) (hident : ¬ isIdent2 c = true) (b : Bool) : inName b c = false := by
  rw [inName, decide_eq_false hpaint, Bool.eq_false_iff.mpr hident, Bool.and_false, Bool.false_or]

theorem ne_paint {c : Char} (h : isIdent2 c = true) : c ≠ paint := fun heq => by
  rw [heq] at h
  exact absurd h (by decide)

theorem Painted.mono {b' : Bool} (hb : b = true → b' = true) (h : Painted b p) : Painted b' p := by
  induction p generalizing b b' with
  | nil => exact trivial
  | cons c p ih =>
      refine ⟨fun hmet => ⟨hb (h.1 hmet).1, (h.1 hmet).2⟩, ih (fun hin => ?_) h.2⟩
      rcases Bool.or_eq_true_iff.mp hin with hpaint | hand
      · exact Bool.or_eq_true_iff.mpr (.inl hpaint)
      · obtain ⟨hbt, hident⟩ := Bool.and_eq_true_iff.mp hand
        exact Bool.or_eq_true_iff.mpr (.inr (Bool.and_eq_true_iff.mpr ⟨hb hbt, hident⟩))

theorem Painted.append (hp : Painted b p) (hq : Painted false q) : Painted b (p ++ q) := by
  induction p generalizing b with
  | nil => exact hq.mono fun hb => absurd hb Bool.false_ne_true
  | cons c p ih => exact ⟨hp.1, ih hp.2⟩

theorem Painted.left (h : Painted b (p ++ q)) : Painted b p := by
  induction p generalizing b with
  | nil => exact trivial
  | cons c p ih => exact ⟨h.1, ih h.2⟩

theorem Painted.isPrefix (h : Painted b q) (hp : p <+: q) : Painted b p := by
  obtain ⟨r, rfl⟩ := hp
  exact h.left

/-- A text begins anew where no name goes on. -/
theorem Painted.right (h : Painted b (p ++ q)) (hq : headIs isIdent2 (chars q) = false) : Painted false q := by
  induction p generalizing b with
  | nil =>
      cases q with
      | nil => exact trivial
      | cons c q =>
          have hident : isIdent2 c.char = false := hq
          refine ⟨fun hmet => absurd (h.1 hmet).2 (ne_true_of_eq_false hident), h.2.mono fun hin => ?_⟩
          rw [inName, hident, Bool.and_false] at hin ⊢
          exact hin
  | cons c p ih => exact ih h.2

theorem Painted.behind (h : Painted b (p ++ c :: q)) (hpaint : c.char ≠ paint) (hident : ¬ isIdent2 c.char = true) : Painted false q := by
  induction p generalizing b with
  | nil => exact inName_false hpaint hident b ▸ h.2
  | cons d p ih => exact ih h.2

theorem painted_of_not_met (h : ∀ c ∈ p, c.met = false) (b : Bool) : Painted b p := by
  induction p generalizing b with
  | nil => exact trivial
  | cons c p ih =>
      exact ⟨fun hmet => absurd hmet (ne_true_of_eq_false (h c List.mem_cons_self)), ih (fun d hd => h d (List.mem_cons_of_mem _ hd)) _⟩

theorem painted_written (origins : List Text) (t : Text) (b : Bool) : Painted b (written origins t) := by
  refine painted_of_not_met (fun c hc => ?_) b
  obtain ⟨d, _, rfl⟩ := List.mem_map.mp hc
  rfl

/-- A name behind a marker. -/
theorem painted_name (h : ∀ c ∈ p, isIdent2 c.char = true) : Painted true p := by
  induction p with
  | nil => exact trivial
  | cons c p ih =>
      have hident := h c List.mem_cons_self
      have hin : inName true c.char = true := Bool.or_eq_true_iff.mpr (.inr hident)
      refine ⟨fun _ => ⟨rfl, hident⟩, ?_⟩
      rw [hin]
      exact ih fun d hd => h d (List.mem_cons_of_mem _ hd)

/-- A name with no marker before it was not met. -/
theorem Painted.not_met (h : Painted false p) (hident : ∀ c ∈ p, isIdent2 c.char = true) : ∀ c ∈ p, c.met = false := by
  induction p with
  | nil => exact fun c hc => absurd hc List.not_mem_nil
  | cons c p ih =>
      have hnot : c.met = false := Bool.eq_false_iff.mpr fun hmet => absurd (h.1 hmet).1 nofun
      have hin : inName false c.char = false := by
        rw [inName, decide_eq_false (ne_paint (hident c List.mem_cons_self)), Bool.false_and, Bool.false_or]
      have htail := h.2
      rw [hin] at htail
      exact List.forall_mem_cons.mpr ⟨hnot, ih htail fun d hd => hident d (List.mem_cons_of_mem _ hd)⟩

theorem Painted.dropWhile (h : Painted false p) : Painted false (p.dropWhile Traced.isBlank) := by
  induction p with
  | nil => exact trivial
  | cons c p ih =>
      by_cases hc : c.isBlank = true
      · rw [List.dropWhile_cons_of_pos hc]
        refine ih (@Painted.behind false c [] p h (fun heq => ?_) fun hident => isspace_of_isIdent2 hident hc)
        rw [Traced.isBlank, heq] at hc
        exact absurd hc (by decide)
      · rw [List.dropWhile_cons_of_neg hc]
        exact h

theorem stripEnd_isPrefix (s : List Traced) : stripEndTraced s <+: s := List.rdropWhile_prefix ..

theorem Painted.trim (h : Painted false s) : Painted false (trimTraced s) := h.dropWhile.isPrefix (stripEnd_isPrefix _)

theorem isQuote_cases {c : Char} (h : isQuote c = true) : c ≠ paint ∧ ¬ isIdent2 c = true := by
  rcases Bool.or_eq_true_iff.mp h with hc | hc
  · rw [of_decide_eq_true hc]
    decide
  · rw [of_decide_eq_true hc]
    decide

theorem literal_append_traced (q : Char) (p : List Traced) : (literalTraced q p).1 ++ (literalTraced q p).2 = p := List.take_append_drop ..

/-- Behind the end of a literal no name goes on. -/
theorem Painted.literal {quote : Char} (hquote : isQuote quote = true) (h : Painted b (s ++ p)) :
    Painted false (literalTraced quote p).2 := by
  by_cases hnil : (literalTraced quote p).2 = []
  · rw [hnil]
    exact trivial
  · obtain ⟨hfst, hsnd⟩ := chars_literal quote p
    obtain ⟨u, hu⟩ := literal_end (fun heq => hnil (chars_eq_nil.mp (hsnd.trans heq)))
    obtain ⟨v, w, hvw, _, hw⟩ := List.map_eq_append_iff.mp (hfst.trans hu)
    obtain ⟨c, rfl, hc⟩ := List.map_eq_singleton_iff.mp hw
    obtain ⟨hpaint, hident⟩ := isQuote_cases hquote
    rw [← hc] at hpaint hident
    rw [← literal_append_traced quote p, hvw, List.append_assoc, ← List.append_assoc] at h
    exact h.behind hpaint hident

theorem Painted.quote (origins : List Text) (h : Painted false s) : Painted false (quoteTraced origins s) := by
  have hbody : ∀ b, Painted b s → Painted b (s.flatMap fun c =>
      if c.char = '"' || c.char = '\\' then written origins ['\\'] ++ [c] else [c]) := by
    clear h
    induction s with
    | nil => exact fun b _ => trivial
    | cons c s ih =>
        intro b h
        rw [List.flatMap_cons]
        split
        · next hc =>
            have hkind : c.char ≠ paint ∧ ¬ isIdent2 c.char = true := by
              rcases Bool.or_eq_true_iff.mp hc with hc | hc
              · rw [of_decide_eq_true hc]
                decide
              · rw [of_decide_eq_true hc]
                decide
            have htail := ih _ h.2
            rw [inName_false hkind.1 hkind.2] at htail
            exact ⟨nofun, fun hmet => absurd (h.1 hmet).2 hkind.2, (inName_false hkind.1 hkind.2 _).symm ▸ htail⟩
        · exact ⟨h.1, ih _ h.2⟩
  exact ((painted_written origins _ _).append (hbody false h)).append (painted_written origins _ _)

end Painted

/-! ## Substitution -/

section Substitution

variable {origins : List Text} {d : Definition} {args raw : List (List Traced)}

theorem painted_joinComma (h : ∀ arg ∈ args, Painted false arg) : Painted false (joinCommaTraced origins args) := by
  fun_induction joinCommaTraced origins args with
  | case1 => exact trivial
  | case2 arg => exact h arg List.mem_cons_self
  | case3 arg args hargs ih =>
      exact ((h arg List.mem_cons_self).append (painted_written _ _ _)).append (ih fun a ha => h a (List.mem_cons_of_mem _ ha))

theorem painted_mergeArgs (h : ∀ arg ∈ args, Painted false arg) : ∀ arg ∈ mergeArgsTraced origins d args, Painted false arg := by
  rw [mergeArgsTraced]
  split
  · intro arg harg
    rcases List.mem_append.mp harg with harg | harg
    · exact h arg (List.mem_of_mem_take harg)
    · rw [List.mem_singleton.mp harg]
      exact painted_joinComma fun a ha => h a (List.mem_of_mem_drop ha)
  · exact h

theorem painted_getD (h : ∀ arg ∈ args, Painted false arg) (k : Nat) : Painted false (args.getD k []) := by
  rw [List.getD_eq_getElem?_getD]
  cases hk : args[k]? with
  | none => exact trivial
  | some arg => exact h arg (List.mem_of_getElem? hk)

theorem painted_form (hargs : ∀ arg ∈ args, Painted false arg) (hraw : ∀ arg ∈ raw, Painted false arg) {it : Item} {text : List Traced}
    (h : formTraced origins d args raw it = some text) : Painted false text := by
  have hmerge := @painted_mergeArgs origins d args hargs
  cases it with
  | stringize name =>
      obtain ⟨k, _, hk⟩ := Option.bind_eq_some_iff.mp h
      split at hk
      · obtain rfl := Option.some_inj.mp hk
        exact (painted_getD hraw k).quote origins
      · cases hk
  | name name =>
      rw [formTraced] at h
      split at h
      · obtain rfl := Option.some_inj.mp h
        exact painted_getD hmerge _
      · obtain ⟨k, _, hk⟩ := Option.bind_eq_some_iff.mp h
        exact hmerge text (List.mem_of_getElem? hk)
  | pasteVa => exact hmerge text (List.mem_of_getElem? h)
  | literal _ | paste | hash | char _ => cases h

theorem painted_substStep {sb : List Traced} {it : Item} {form : Option (List Traced)} (hsb : Painted false sb)
    (hform : ∀ text ∈ form, Painted false text) : Painted false (substStepTraced origins sb it form) := by
  cases form with
  | some text => exact hsb.append (hform text rfl)
  | none =>
      cases it with
      | pasteVa =>
          refine hsb.isPrefix (List.IsPrefix.trans ?_ (stripEnd_isPrefix sb))
          show dropCommaTraced sb <+: _
          rw [dropCommaTraced]
          split
          · exact List.dropLast_prefix _
          · exact List.prefix_refl _
      | literal _ | paste | stringize _ | hash | name _ | char _ => exact hsb.append (painted_written _ _ _)

theorem painted_pasteEnd {sb : List Traced} (h : Painted false sb) (q : List Traced) : Painted false (pasteEndTraced origins sb q) := by
  have hstrip : Painted false (stripEndTraced sb) := h.isPrefix (stripEnd_isPrefix sb)
  rw [pasteEndTraced]
  split
  · exact hstrip.append (painted_written _ _ _)
  · exact hstrip

theorem painted_pasteLoop {n : Nat} {sb p : List Traced} (h : Painted false (sb ++ p)) : Painted false (pasteLoopTraced origins n sb p) := by
  induction n generalizing sb p with
  | zero => exact h.left
  | succ n ih =>
      cases p with
      | nil => exact h.left
      | cons c p =>
          rw [pasteLoopTraced]
          split
          · next hc =>
              obtain ⟨hc, hhead⟩ := Bool.and_eq_true_iff.mp hc
              cases p with
              | nil => cases hhead
              | cons e p =>
                  have he : e.char = '#' := of_decide_eq_true hhead
                  have hp : Painted false p := by
                    rw [← List.singleton_append, ← List.append_assoc] at h
                    exact h.behind (by rw [he]; decide) (by rw [he]; decide)
                  exact ih ((painted_pasteEnd h.left _).append hp.dropWhile)
          · refine ih ?_
            rw [List.append_assoc]
            exact h

theorem painted_substitute (hargs : ∀ arg ∈ args, Painted false arg) (hraw : ∀ arg ∈ raw, Painted false arg) :
    Painted false (substituteTraced origins d args raw) := by
  have hfold : ∀ (its : List Item) (sb : List Traced), Painted false sb →
      Painted false (its.foldl (fun sb it => substStepTraced origins sb it (formTraced origins d args raw it)) sb) := by
    intro its
    induction its with
    | nil => exact fun sb hsb => hsb
    | cons it its ih => exact fun sb hsb => ih _ (painted_substStep hsb fun _ => painted_form hargs hraw)
  exact painted_pasteLoop (hfold (items d) [] trivial)

theorem painted_macroArgs {n depth : Nat} {arg p rest : List Traced} {result : List (List Traced)} (h : Painted false (arg ++ p))
    (hargs : ∀ a ∈ args, Painted false a) (hresult : macroArgsTraced n arg args depth p = some (result, rest)) :
    (∀ a ∈ result, Painted false a) ∧ Painted false rest := by
  induction n generalizing arg args depth p with
  | zero => cases hresult
  | succ n ih =>
      cases p with
      | nil => cases hresult
      | cons c p =>
          have hmore : Painted false (arg ++ [c] ++ p) := by
            rw [List.append_assoc]
            exact h
          have hsnoc : ∀ a ∈ args ++ [trimTraced arg], Painted false a := by
            intro a ha
            rcases List.mem_append.mp ha with ha | ha
            · exact hargs a ha
            · rw [List.mem_singleton.mp ha]
              exact h.left.trim
          have hbehind : ∀ d : Char, d ≠ paint → ¬ isIdent2 d = true → c.char = d → Painted false p :=
            fun d hpaint hident hc => h.behind (hc ▸ hpaint) (hc ▸ hident)
          rw [macroArgsTraced] at hresult
          split at hresult
          · refine ih ?_ hargs hresult
            rw [List.append_assoc, List.cons_append, literal_append_traced]
            exact h
          split at hresult
          · exact ih hmore hargs hresult
          split at hresult
          · next hc =>
              have hp := hbehind ')' (by decide) (by decide) (of_decide_eq_true (Bool.and_eq_true_iff.mp hc).1)
              split at hresult
              · obtain ⟨rfl, rfl⟩ := Prod.mk.inj (Option.some_inj.mp hresult)
                exact ⟨fun a ha => absurd ha List.not_mem_nil, hp⟩
              split at hresult
              · obtain ⟨rfl, rfl⟩ := Prod.mk.inj (Option.some_inj.mp hresult)
                exact ⟨hsnoc, hp⟩
              · cases hresult
          split at hresult
          · exact ih hmore hargs hresult
          split at hresult
          · next hc =>
              split at hresult
              · have hp := hbehind ',' (by decide) (by decide) (of_decide_eq_true (Bool.and_eq_true_iff.mp hc).1)
                exact ih (show Painted false ([] ++ p) from hp) hsnoc hresult
              · cases hresult
          · exact ih hmore hargs hresult

theorem painted_padArgs (h : ∀ arg ∈ args, Painted false arg) : ∀ arg ∈ padArgsTraced d args, Painted false arg := by
  intro arg harg
  rcases List.mem_append.mp harg with harg | harg
  · exact h arg harg
  · rw [List.eq_of_mem_replicate harg]
    exact trivial

end Substitution

/-! ## Expansion -/

/-- The macros that are being expanded are disabled. -/
def Held (st : Preprocessor) (active : List Text) : Prop := ∀ name ∈ active, ∃ e, findEntry st name = some e ∧ e.disabled = true

/-- No macro was put for a name that was met while the macro was being expanded. -/
def Tracing.Clean (s : Tracing) : Prop := ∀ name ∈ s.replaced, ∀ c ∈ name, c.met = false

theorem Tracing.Clean.replace {s : Tracing} {name : List Traced} (h : s.Clean) (hname : ∀ c ∈ name, c.met = false) :
    (s.replace name).Clean := by
  intro w hw
  rcases List.mem_append.mp hw with hw | hw
  · exact h w hw
  · rw [List.mem_singleton.mp hw]
    exact hname

theorem Held.same {st st' : Preprocessor} {active : List Text} (h : Held st active) (hsame : SameMacros st st') : Held st' active := by
  intro name hname
  obtain ⟨e, he, hdisabled⟩ := h name hname
  exact ⟨e, by rw [findEntry, hsame.table]; exact he, hdisabled⟩

/-- While a macro is being expanded, it is held as well. -/
theorem Held.cons {st : Preprocessor} {active : List Text} {name : Text} {e : Entry} (h : Held st active)
    (hname : findEntry st name = some e) : Held (setDisabled st name true) (name :: active) := by
  obtain ⟨i, hi, _⟩ := Option.map_eq_some_iff.mp hname
  have hfind : ∀ a k, st.table.findMacro (String.ofList a) = some k → findEntry (setDisabled st name true) a =
      some ((st.table.write i (st.table.entry i).definition true).entry k) := by
    intro a k hk
    show ((st.table.setDisabled (String.ofList name) true).findMacro _).map (st.table.setDisabled (String.ofList name) true).entry = _
    rw [st.table.setDisabled_eq hi, Table.findMacro_write, hk, Option.map_some]
  refine List.forall_mem_cons.mpr ⟨⟨_, hfind name i hi, ?_⟩, fun a ha => ?_⟩
  · rw [Table.entry_write, if_pos rfl]
  · obtain ⟨e', he', hdisabled⟩ := h a ha
    obtain ⟨k, hk, rfl⟩ := Option.map_eq_some_iff.mp he'
    refine ⟨_, hfind a k hk, ?_⟩
    rw [Table.entry_write]
    split
    · rfl
    · exact hdisabled

/-- What one depth does, as far as the paint is concerned. -/
structure Sound (trace : List Text → Tracing → List Traced → Option (Tracing × List Traced)) : Prop where
  same : ∀ {active s p s' q}, trace active s p = some (s', q) → SameMacros s.st s'.st
  clean : ∀ {active s p s' q}, Held s.st active → s.Clean → Painted false p → trace active s p = some (s', q) →
    s'.Clean ∧ Painted false q

section Step

variable {trace : List Text → Tracing → List Traced → Option (Tracing × List Traced)} {active : List Text} {s s' : Tracing}
  {place : Place} (htrace : Sound trace)

include htrace

theorem Sound.args {args expanded : List (List Traced)} (hheld : Held s.st active) (hclean : s.Clean)
    (hargs : ∀ arg ∈ args, Painted false arg) (h : traceArgs trace active s args = some (s', expanded)) :
    SameMacros s.st s'.st ∧ s'.Clean ∧ ∀ arg ∈ expanded, Painted false arg := by
  induction args generalizing s s' expanded with
  | nil =>
      obtain ⟨rfl, rfl⟩ := Prod.mk.inj (Option.some_inj.mp (show some (s, []) = some (s', expanded) from h))
      exact ⟨.refl _, hclean, fun arg harg => absurd harg List.not_mem_nil⟩
  | cons arg args ih =>
      obtain ⟨⟨s₁, sb⟩, harg, hrest⟩ := Option.bind_eq_some_iff.mp h
      obtain ⟨⟨s₂, sbs⟩, hmap, heq⟩ := Option.map_eq_some_iff.mp hrest
      obtain ⟨rfl, rfl⟩ := Prod.mk.inj heq
      obtain ⟨hpainted, hpaintedArgs⟩ := List.forall_mem_cons.mp hargs
      have hsame := htrace.same harg
      obtain ⟨hclean₁, hsb⟩ := htrace.clean hheld hclean hpainted harg
      obtain ⟨hsame₂, hclean₂, hsbs⟩ := ih (hheld.same hsame) hclean₁ hpaintedArgs hmap
      exact ⟨hsame.trans hsame₂, hclean₂, List.forall_mem_cons.mpr ⟨hsb, hsbs⟩⟩

theorem Sound.rescan {name : Text} {text sb : List Traced} {e : Entry} (hfind : findEntry s.st name = some e)
    (hheld : Held s.st active) (hclean : s.Clean) (htext : Painted false text)
    (h : traceRescan trace active s name text = some (s', sb)) : s'.Clean ∧ Painted false sb := by
  obtain ⟨⟨s₁, sb₁⟩, hrun, heq⟩ := Option.map_eq_some_iff.mp h
  obtain ⟨rfl, rfl⟩ := Prod.mk.inj heq
  have hbegin : Tracing.Clean { s with st := setDisabled s.st name true } := hclean
  exact @Sound.clean trace htrace _ _ _ s₁ _ (hheld.cons hfind) hbegin htext hrun

theorem Sound.call {name sb : List Traced} {d : Definition} {args : List (List Traced)} {e : Entry}
    (hfind : findEntry s.st (chars name) = some e) (hheld : Held s.st active) (hclean : s.Clean)
    (hname : ∀ c ∈ name, c.met = false) (hargs : ∀ arg ∈ args, Painted false arg)
    (h : traceCall trace active s name d args = some (s', sb)) : s'.Clean ∧ Painted false sb := by
  rw [traceCall] at h
  split at h
  · obtain ⟨rfl, rfl⟩ := Prod.mk.inj (Option.some_inj.mp h)
    exact ⟨hclean, (painted_of_not_met hname _).append
      ((painted_written _ _ _).append ((painted_joinComma hargs).append (painted_written _ _ _)))⟩
  split at h
  · obtain ⟨⟨s₁, expanded⟩, hexpanded, hrescan⟩ := Option.bind_eq_some_iff.mp h
    have hpad := @painted_padArgs d args hargs
    obtain ⟨hsame, hclean₁, hpainted⟩ := htrace.args (show Held (s.replace name).st active from hheld) (hclean.replace hname) hpad hexpanded
    have hfind₁ : findEntry s₁.st (chars name) = some e := by
      rw [findEntry, hsame.table]
      exact hfind
    exact htrace.rescan hfind₁ (hheld.same hsame) hclean₁ (painted_substitute hpainted hpad) hrescan
  · cases h

theorem Sound.macro {name p sb rest : List Traced} {e : Entry} (hfind : findEntry s.st (chars name) = some e)
    (hheld : Held s.st active) (hclean : s.Clean) (hname : e.disabled = false → ∀ c ∈ name, c.met = false)
    (hident : ∀ c ∈ name, isIdent2 c.char = true) (hp : Painted false p)
    (h : traceMacro trace active s name p e = some (s', sb, rest)) : s'.Clean ∧ Painted false sb ∧ Painted false rest := by
  rw [traceMacro] at h
  split at h
  · obtain ⟨rfl, hsb⟩ := Prod.mk.inj (Option.some_inj.mp h)
    obtain ⟨rfl, rfl⟩ := Prod.mk.inj hsb
    exact ⟨hclean, ⟨fun hmet => absurd hmet Bool.false_ne_true, painted_name hident⟩, hp⟩
  next hd =>
    have hnot := hname (Bool.eq_false_iff.mpr hd)
    have hkept : some (s, name, p) = some (s', sb, rest) → s'.Clean ∧ Painted false sb ∧ Painted false rest := by
      intro heq
      obtain ⟨rfl, hsb⟩ := Prod.mk.inj (Option.some_inj.mp heq)
      obtain ⟨rfl, rfl⟩ := Prod.mk.inj hsb
      exact ⟨hclean, painted_of_not_met hnot _, hp⟩
    split at h
    · have hq := hp.dropWhile
      split at h
      · exact hkept h
      · next c q hcons =>
          rw [hcons] at hq
          split at h
          · next hc =>
              obtain ⟨⟨args, rest'⟩, hargs, hmap⟩ := Option.bind_eq_some_iff.mp h
              obtain ⟨⟨s₁, sb₁⟩, hcall, heq⟩ := Option.map_eq_some_iff.mp hmap
              obtain ⟨rfl, hsb⟩ := Prod.mk.inj heq
              obtain ⟨rfl, rfl⟩ := Prod.mk.inj hsb
              have hbehind : Painted false ([] ++ q) := @Painted.behind false c [] q hq (by rw [hc]; decide) (by rw [hc]; decide)
              obtain ⟨hparsed, hrest⟩ := painted_macroArgs hbehind (fun a ha => absurd ha List.not_mem_nil) hargs
              obtain ⟨hclean₁, hsb₁⟩ := htrace.call hfind hheld hclean hnot hparsed hcall
              exact ⟨hclean₁, hsb₁, hrest⟩
          · exact hkept h
    · obtain ⟨⟨s₁, sb₁⟩, hrescan, heq⟩ := Option.map_eq_some_iff.mp h
      obtain ⟨rfl, hsb⟩ := Prod.mk.inj heq
      obtain ⟨rfl, rfl⟩ := Prod.mk.inj hsb
      obtain ⟨hclean₁, hsb₁⟩ := @Sound.rescan trace active (s.replace name) s₁ htrace (chars name) _ sb₁ e hfind hheld
        (hclean.replace hnot) (painted_written _ _ _) hrescan
      exact ⟨hclean₁, hsb₁, hp⟩

/-- A name that begins at this place. -/
theorem Sound.name {prev : Option Char} {name p sb rest : List Traced} (hheld : Held s.st active) (hclean : s.Clean)
    (hname : ∀ c ∈ name, c.met = false) (hident : ∀ c ∈ name, isIdent2 c.char = true) (hp : Painted false p)
    (h : traceName trace active place s prev name p = some (s', sb, rest)) : s'.Clean ∧ Painted false sb ∧ Painted false rest := by
  have hput : ∀ {s₁ t}, s₁.Clean → Painted false t → some (s₁, t, p) = some (s', sb, rest) →
      s'.Clean ∧ Painted false sb ∧ Painted false rest := by
    intro s₁ t hclean₁ ht heq
    obtain ⟨rfl, hsb⟩ := Prod.mk.inj (Option.some_inj.mp heq)
    obtain ⟨rfl, rfl⟩ := Prod.mk.inj hsb
    exact ⟨hclean₁, ht, hp⟩
  have hkept := painted_of_not_met hname false
  rw [traceName] at h
  split at h
  · exact hput hclean (painted_written _ _ _) h
  split at h
  · exact hput hclean (painted_written _ _ _) h
  split at h
  · exact @hput { s with st := { s.st with ppCounter := s.st.ppCounter + 1 } } _ hclean (painted_written _ _ _) h
  split at h
  · exact hput hclean hkept h
  split at h
  · exact hput hclean hkept h
  split at h
  · exact hput hclean hkept h
  by_cases hactive : chars name ∈ active
  · obtain ⟨e, he, hdisabled⟩ := hheld _ hactive
    rw [he] at h
    refine htrace.macro ((chars_meet active name).symm ▸ he) hheld hclean (fun hfalse => absurd hdisabled (ne_true_of_eq_false hfalse)) ?_ hp h
    rw [meet, if_pos hactive]
    intro c hc
    obtain ⟨c', hc', rfl⟩ := List.mem_map.mp hc
    exact hident c' hc'
  · rw [meet, if_neg hactive] at h
    split at h
    · exact hput hclean hkept h
    · next e he => exact htrace.macro he hheld hclean (fun _ => hname) hident hp h

theorem Sound.at {prev : Option Char} {c : Traced} {p sb rest : List Traced} (hheld : Held s.st active) (hclean : s.Clean)
    (hp : Painted false (c :: p)) (h : traceAt trace active place s prev c p = some (s', sb, rest)) :
    s'.Clean ∧ Painted false sb ∧ Painted false rest := by
  have hsplit : c :: p = (c :: p.takeWhile Traced.isIdent2) ++ p.dropWhile Traced.isIdent2 := by
    rw [List.cons_append, List.takeWhile_append_dropWhile]
  have hword : Painted false (c :: p.takeWhile Traced.isIdent2) := Painted.left (hsplit ▸ hp)
  have hrest : Painted false (p.dropWhile Traced.isIdent2) := by
    refine Painted.right (hsplit ▸ hp) ?_
    rw [chars_dropWhile_ident]
    exact headIs_dropWhile isIdent2 _
  rw [traceAt] at h
  split at h
  · obtain ⟨rfl, hsb⟩ := Prod.mk.inj (Option.some_inj.mp h)
    obtain ⟨rfl, rfl⟩ := Prod.mk.inj hsb
    exact ⟨hclean, hword, hrest⟩
  next hpaint =>
    split at h
    · next hquote =>
        obtain ⟨rfl, hsb⟩ := Prod.mk.inj (Option.some_inj.mp h)
        obtain ⟨rfl, rfl⟩ := Prod.mk.inj hsb
        refine ⟨hclean, Painted.left (q := (literalTraced c.char p).2) ?_, Painted.literal (s := [c]) hquote hp⟩
        rw [List.cons_append, literal_append_traced]
        exact hp
    split at h
    · next hident1 =>
        have hident : ∀ d ∈ c :: p.takeWhile Traced.isIdent2, isIdent2 d.char = true :=
          List.forall_mem_cons.mpr ⟨isIdent2_of_isIdent1 hident1, fun d hd => List.mem_takeWhile_imp (p := Traced.isIdent2) hd⟩
        exact htrace.name hheld hclean (hword.not_met hident) hident hrest h
    · next hident1 =>
        obtain ⟨rfl, hsb⟩ := Prod.mk.inj (Option.some_inj.mp h)
        obtain ⟨rfl, rfl⟩ := Prod.mk.inj hsb
        have hin : inName false c.char = false := by
          rw [inName, decide_eq_false hpaint, Bool.false_and, Bool.false_or]
        exact ⟨hclean, ⟨hp.1, trivial⟩, hin ▸ hp.2⟩

theorem Sound.loop (hmap : ∀ active s p, (trace active s p).map erase = expandText place n s.st (chars p))
    {m : Nat} {prev : Option Char} {p q : List Traced} (hheld : Held s.st active) (hclean : s.Clean) (hp : Painted false p)
    (h : traceLoop trace active place m s prev p = some (s', q)) : s'.Clean ∧ Painted false q := by
  induction m generalizing s s' prev p q with
  | zero =>
      obtain ⟨rfl, rfl⟩ := Prod.mk.inj (Option.some_inj.mp (show some (s, []) = some (s', q) from h))
      exact ⟨hclean, trivial⟩
  | succ m ih =>
      cases p with
      | nil =>
          obtain ⟨rfl, rfl⟩ := Prod.mk.inj (Option.some_inj.mp (show some (s, []) = some (s', q) from h))
          exact ⟨hclean, trivial⟩
      | cons c p =>
          obtain ⟨⟨s₁, sb, rest⟩, hat, hrest⟩ := Option.bind_eq_some_iff.mp h
          obtain ⟨⟨s₂, more⟩, hloop, heq⟩ := Option.map_eq_some_iff.mp hrest
          obtain ⟨rfl, rfl⟩ := Prod.mk.inj heq
          obtain ⟨hclean₁, hsb, hpainted⟩ := htrace.at hheld hclean hp hat
          have hsame : SameMacros s.st s₁.st := by
            have hexpand := @map_traceAt trace _ active s place hmap prev c p
            rw [hat] at hexpand
            exact expandAt_same (fun _ _ _ _ => expandText_same) hexpand.symm
          obtain ⟨hclean₂, hmore⟩ := ih (hheld.same hsame) hclean₁ hpainted hloop
          exact ⟨hclean₂, hsb.append hmore⟩

end Step

theorem traceText_same {place : Place} {n : Nat} {active : List Text} {s s' : Tracing} {p q : List Traced}
    (h : traceText place n active s p = some (s', q)) : SameMacros s.st s'.st := by
  have hexpand := map_traceText place n active s p
  rw [h] at hexpand
  exact expandText_same hexpand.symm

theorem sound_traceText (place : Place) (n : Nat) : Sound (traceText place n) := by
  induction n with
  | zero =>
      refine ⟨traceText_same, fun {active s p s' q} _ hclean hp h => ?_⟩
      obtain ⟨rfl, rfl⟩ := Prod.mk.inj (Option.some_inj.mp (show some (s, p) = some (s', q) from h))
      exact ⟨hclean, hp⟩
  | succ n ih =>
      refine ⟨traceText_same, fun {active s p s' q} hheld hclean hp h => ?_⟩
      obtain ⟨⟨s₁, sb⟩, hloop, hrest⟩ := Option.bind_eq_some_iff.mp h
      obtain ⟨hclean₁, hsb⟩ := ih.loop (map_traceText place n) hheld hclean hp hloop
      have hsame : SameMacros s.st s₁.st := by
        have hexpand := @map_traceLoop _ _ active s place (map_traceText place n) p.length none p
        rw [hloop] at hexpand
        exact expandLoop_same (fun _ _ _ _ => expandText_same) hexpand.symm
      replace hrest : (if chars sb = chars p then some (s₁, sb) else traceText place n active s₁ sb) = some (s', q) := hrest
      split at hrest
      · obtain ⟨rfl, rfl⟩ := Prod.mk.inj (Option.some_inj.mp hrest)
        exact ⟨hclean₁, hsb⟩
      · exact ih.clean (hheld.same hsame) hclean₁ hsb hrest

/-- No macro is disabled. -/
def Enabled (st : Preprocessor) : Prop := ∀ i < st.table.used, (st.table.entry i).disabled = false

instance (st : Preprocessor) : Decidable (Enabled st) := inferInstanceAs (Decidable (∀ i < st.table.used, _))

/-- A text of the source. -/
def source (text : Text) : List Traced := written [] text

/-- Where no macro is disabled, none is behind `expand_text`; and in the scans that it makes
no macro is put for a name that was met while the macro was being expanded. -/
theorem blue_paint {place : Place} {n : Nat} {st st' : Preprocessor} {text sb : Text} (henabled : Enabled st)
    (h : expandText place n st text = some (st', sb)) :
    Enabled st' ∧ ∃ s q, traceText place n [] ⟨st, []⟩ (source text) = some (s, q) ∧ s.st = st' ∧ chars q = sb ∧ s.Clean := by
  refine ⟨fun i hi => ?_, ?_⟩
  · rw [(expandText_same h).table] at hi ⊢
    exact henabled i hi
  have hmap := map_traceText place n [] ⟨st, []⟩ (source text)
  rw [source, chars_written, h] at hmap
  obtain ⟨⟨s, q⟩, hrun, heq⟩ := Option.map_eq_some_iff.mp hmap
  obtain ⟨hst, hq⟩ := Prod.mk.inj heq
  refine ⟨s, q, hrun, hst, hq, ?_⟩
  exact ((sound_traceText place n).clean (fun a ha => absurd ha List.not_mem_nil) (fun w hw => absurd hw List.not_mem_nil)
    (painted_written _ _ _) hrun).1

/-- `#define a b` and `#define b a x`: the `a` that comes from `b` is marked. -/
def aroundTwo : Preprocessor := ⟨(Table.empty.defineMacro "a" false [] "b").defineMacro "b" false [] "a x", [], 0⟩

theorem blue_paint_around : ∃ st' s q, Enabled st' ∧ traceText ⟨[], 1⟩ depths [] ⟨aroundTwo, []⟩ (source "a".toList) = some (s, q) ∧ s.Clean := by
  obtain ⟨⟨st', sb⟩, h⟩ := Option.isSome_iff_exists.mp
    (show (expandText ⟨[], 1⟩ depths aroundTwo "a".toList).isSome = true by decide +kernel)
  obtain ⟨henabled, s, q, hrun, _, _, hclean⟩ := blue_paint (by decide +kernel) h
  exact ⟨st', s, q, henabled, hrun, hclean⟩

/-- No macro was put for a name that came from its expansion, at any place. -/
def Tracing.Once (s : Tracing) : Prop := ∀ name ∈ s.replaced, ∀ c ∈ name, chars name ∉ c.origins

/-- `#define g f` and `#define f(x) g` -/
def callsBack : Preprocessor := ⟨(Table.empty.defineMacro "g" false [] "f").defineMacro "f" true ["x"] "g", [], 0⟩

/-- What is behind `g` is the argument of the `f` that `g` leaves; the `g` of `f` is replaced. -/
theorem replaced_again : ¬ ∀ (st : Preprocessor) (text : Text) (s : Tracing) (q : List Traced), Enabled st →
    traceText ⟨[], 1⟩ depths [] ⟨st, []⟩ (source text) = some (s, q) → s.Once := by
  intro h
  have hruns : ((traceText ⟨[], 1⟩ depths [] ⟨callsBack, []⟩ (source "g(1)".toList)).map fun r => r.1.replaced.getLast?) =
      some (some [⟨'g', [['f'], ['g']], false⟩]) := by decide +kernel
  obtain ⟨⟨s, q⟩, hrun, hlast⟩ := Option.map_eq_some_iff.mp hruns
  exact h callsBack "g(1)".toList s q (by decide +kernel) hrun _ (List.mem_of_getLast? hlast) _ List.mem_cons_self (by decide)

end Rcc.Preprocess

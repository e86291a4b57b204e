import Mathlib
import Rcc.Statements

/-!
# The labels of statements

A statement takes its numbers behind those that have been taken before it. So what is printed for two statements one after the other has no number
in common, but for `case`: the dispatch gives a case its number before the body of the `switch` is generated. There it
is the node that has one number only.
-/

namespace Rcc.Statements

open Switch (Case)

variable {E : Type*} {x : Expressions E} {fn : String} {ctrl : Ctrl} {s t : Stmt E} {l l₁ l₂ l' : Labels} {code code' : List (Line E)}
  {id : Nat}

/-! ## What is generated, as a relation -/

/-- `gen` by its cases. -/
inductive Printed (x : Expressions E) (fn : String) : Ctrl → Stmt E → Labels → List (Line E) → Labels → Prop
  | null {ctrl : Ctrl} {l : Labels} : Printed x fn ctrl .null l [] l
  | act {ctrl : Ctrl} {l : Labels} {e : E} : Printed x fn ctrl (.act e) l [.act e] (l.take (x.taken e))
  | seq {ctrl : Ctrl} {s t : Stmt E} {l l₁ l₂ : Labels} {first second : List (Line E)} (hfirst : Printed x fn ctrl s l first l₁)
      (hsecond : Printed x fn ctrl t l₁ second l₂) : Printed x fn ctrl (.seq s t) l (first ++ second) l₂
  | if_ {ctrl : Ctrl} {cond : E} {t : Stmt E} {l l' : Labels} {code : List (Line E)}
      (hthen : Printed x fn ctrl t (l.next.take (x.takenInv cond)) code l') :
      Printed x fn ctrl (.if_ cond t) l (.jumpUnless cond (.end_ (l.count + 1)) :: (code ++ [.label (.end_ (l.count + 1))])) l'
  | ifElse {ctrl : Ctrl} {cond : E} {t e : Stmt E} {l l₁ l₂ : Labels} {code code' : List (Line E)}
      (hthen : Printed x fn ctrl t (l.next.take (x.takenInv cond)) code l₁) (hels : Printed x fn ctrl e l₁ code' l₂) :
      Printed x fn ctrl (.ifElse cond t e) l (.jumpUnless cond (.else_ (l.count + 1)) :: (code ++ .jmp (.end_ (l.count + 1)) ::
        .label (.else_ (l.count + 1)) :: (code' ++ [.label (.end_ (l.count + 1))]))) l₂
  | for_ {ctrl : Ctrl} {init cond inc : Option E} {t : Stmt E} {l l' : Labels} {code : List (Line E)}
      (hbody : Printed x fn ((l.count + 1, l.count + 1) :: ctrl) t
        ((l.next.take (takenBy x.taken init)).take (takenBy x.takenInv cond)) code l') :
      Printed x fn ctrl (.for_ init cond inc t) l (actLines init ++ .label (.begin_ (l.count + 1)) ::
        (testLines (.end_ (l.count + 1)) cond ++ (code ++ .label (.continue_ (l.count + 1)) :: (actLines inc ++
          [.jmp (.begin_ (l.count + 1)), .label (.end_ (l.count + 1))])))) (l'.take (takenBy x.taken inc))
  | do_ {ctrl : Ctrl} {t : Stmt E} {cond : E} {l l' : Labels} {code : List (Line E)}
      (hbody : Printed x fn ((l.count + 1, l.count + 1) :: ctrl) t l.next code l') :
      Printed x fn ctrl (.do_ t cond) l (.label (.begin_ (l.count + 1)) :: (code ++ [.label (.continue_ (l.count + 1)),
        .jumpIf cond (.begin_ (l.count + 1)), .label (.end_ (l.count + 1))])) (l'.take (x.taken cond))
  | switch_ {ctrl : Ctrl} {cond : E} {t : Stmt E} {l l₁ l' : Labels} {code : List (Line E)}
      (hlabels : l₁ = Labels.assignDefault t.defaultCase (Labels.assignCases t.caseNext (l.next.take (x.taken cond))))
      (hbody : Printed x fn ((l.count + 1, outerContinue (l.count + 1) ctrl) :: ctrl) t l₁ code l') :
      Printed x fn ctrl (.switch_ cond t) l (.dispatch cond (t.caseNext.map fun c => (l₁.labelId c.1, c.2))
        (dispatchOut l₁ (l.count + 1) t.defaultCase) :: (code ++ [.label (.end_ (l.count + 1))])) l'
  | case_ {ctrl : Ctrl} {id : Nat} {c : Option Case} {t : Stmt E} {l l' : Labels} {code : List (Line E)}
      (hlhs : Printed x fn ctrl t (l.assign id) code l') :
      Printed x fn ctrl (.case_ id c t) l (.label (.case_ ((l.assign id).labelId id)) :: code) l'
  | label {ctrl : Ctrl} {name : String} {t : Stmt E} {l l' : Labels} {code : List (Line E)} (hlhs : Printed x fn ctrl t l code l') :
      Printed x fn ctrl (.label name t) l (.label (.label fn name) :: code) l'
  | break_ {ctrl : Ctrl} {n n' : Nat} {e : E} {l : Labels} :
      Printed x fn ((n, n') :: ctrl) (.break_ e) l [.act e, .jmp (.end_ n)] (l.take (x.taken e))
  | continue_ {ctrl : Ctrl} {n n' : Nat} {e : E} {l : Labels} :
      Printed x fn ((n, n') :: ctrl) (.continue_ e) l [.act e, .jmp (.continue_ n')] (l.take (x.taken e))
  | goto_ {ctrl : Ctrl} {e : E} {name : String} {l : Labels} :
      Printed x fn ctrl (.goto_ e name) l [.act e, .jmp (.label fn name)] (l.take (x.taken e))
  | gotoInd {ctrl : Ctrl} {e : E} {l : Labels} : Printed x fn ctrl (.gotoInd e) l [.jmpTo e] (l.take (x.taken e))
  | return_ {ctrl : Ctrl} {e : E} {l : Labels} :
      Printed x fn ctrl (.return_ e) l [.act e, .jmp (.return_ fn)] (l.take (x.taken e))

theorem printed_of_gen (h : gen x fn ctrl s l = some (code, l')) : Printed x fn ctrl s l code l' := by
  induction s generalizing ctrl l code l' with
  | null =>
      cases h
      exact .null
  | act e =>
      cases h
      exact .act
  | seq s t ihs iht =>
      obtain ⟨⟨first, l₁⟩, hfirst, h⟩ := Option.bind_eq_some_iff.mp h
      obtain ⟨⟨second, l₂⟩, hsecond, heq⟩ := Option.map_eq_some_iff.mp h
      cases heq
      exact .seq (ihs hfirst) (iht hsecond)
  | if_ cond t ih =>
      rw [gen] at h
      split at h
      · cases h
      · obtain ⟨⟨code₁, l₁⟩, hthen, heq⟩ := Option.map_eq_some_iff.mp h
        cases heq
        exact .if_ (ih hthen)
  | ifElse cond t e iht ihe =>
      rw [gen] at h
      split at h
      · cases h
      · obtain ⟨⟨code₁, l₁⟩, hthen, h⟩ := Option.bind_eq_some_iff.mp h
        obtain ⟨⟨code₂, l₂⟩, hels, heq⟩ := Option.map_eq_some_iff.mp h
        cases heq
        exact .ifElse (iht hthen) (ihe hels)
  | for_ init cond inc t ih =>
      rw [gen] at h
      split at h
      · obtain ⟨⟨code₁, l₁⟩, hbody, heq⟩ := Option.map_eq_some_iff.mp h
        cases heq
        exact .for_ (ih hbody)
      · cases h
  | do_ t cond ih =>
      rw [gen] at h
      split at h
      · obtain ⟨⟨code₁, l₁⟩, hbody, heq⟩ := Option.map_eq_some_iff.mp h
        cases heq
        exact .do_ (ih hbody)
      · cases h
  | switch_ cond t ih =>
      rw [gen] at h
      split at h
      · obtain ⟨⟨code₁, l₁⟩, hbody, heq⟩ := Option.map_eq_some_iff.mp h
        cases heq
        exact .switch_ rfl (ih hbody)
      · cases h
  | case_ id c t ih =>
      obtain ⟨⟨code₁, l₁⟩, hlhs, heq⟩ := Option.map_eq_some_iff.mp h
      cases heq
      exact .case_ (ih hlhs)
  | label name t ih =>
      obtain ⟨⟨code₁, l₁⟩, hlhs, heq⟩ := Option.map_eq_some_iff.mp h
      cases heq
      exact .label (ih hlhs)
  | break_ e =>
      cases ctrl with
      | nil => cases h
      | cons top ctrl =>
          cases h
          exact .break_
  | continue_ e =>
      cases ctrl with
      | nil => cases h
      | cons top ctrl =>
          cases h
          exact .continue_
  | goto_ e name =>
      cases h
      exact .goto_
  | gotoInd e =>
      cases h
      exact .gotoInd
  | return_ e =>
      cases h
      exact .return_

/-! ## Numbers -/

namespace Labels

/-- Numbers are taken from the counter, and a case that has one keeps it. -/
structure Le (l l' : Labels) : Prop where
  count : l.count ≤ l'.count
  kept : ∀ {id}, l.labelId id ≠ 0 → l'.labelId id = l.labelId id

/-- No two cases have the same number. -/
structure Good (l : Labels) : Prop where
  bounded : ∀ id, l.labelId id ≤ l.count
  injective : ∀ {id id'}, l.labelId id ≠ 0 → l.labelId id = l.labelId id' → id = id'

theorem Le.refl (l : Labels) : l.Le l := ⟨Nat.le_refl _, fun _ => rfl⟩

theorem Le.trans (h : l.Le l₁) (h' : l₁.Le l₂) : l.Le l₂ where
  count := h.count.trans h'.count
  kept hid := (h'.kept (h.kept hid ▸ hid)).trans (h.kept hid)

theorem le_take (l : Labels) (n : Nat) : l.Le (l.take n) := ⟨Nat.le_add_right _ _, fun _ => rfl⟩

theorem le_next (l : Labels) : l.Le l.next := l.le_take 1

theorem Good.take (h : l.Good) (n : Nat) : (l.take n).Good := ⟨fun id => (h.bounded id).trans (Nat.le_add_right _ _), h.injective⟩

theorem Good.next (h : l.Good) : l.next.Good := h.take 1

theorem le_assign (l : Labels) (id : Nat) : l.Le (l.assign id) := by
  rw [assign]
  split
  · next h0 =>
      refine ⟨Nat.le_succ _, fun {id'} hid => Function.update_of_ne ?_ _ _⟩
      intro heq
      exact hid (heq ▸ h0)
  · exact .refl l

theorem assign_ne_zero (l : Labels) (id : Nat) : (l.assign id).labelId id ≠ 0 := by
  rw [assign]
  split
  · simp
  · assumption

theorem Good.assign (h : l.Good) (id : Nat) : (l.assign id).Good := by
  rw [Labels.assign]
  split
  · have hnew : ∀ id', l.labelId id' ≠ l.count + 1 := fun id' heq => absurd (h.bounded id') (by omega)
    refine ⟨fun id' => ?_, fun {i j} hi heq => ?_⟩
    · by_cases hid : id' = id
      · subst hid
        simp
      · simpa [Function.update_of_ne hid] using (h.bounded id').trans (Nat.le_succ _)
    · by_cases hid : i = id
      · by_cases hjd : j = id
        · rw [hid, hjd]
        · simp only [hid, Function.update_self, Function.update_of_ne hjd] at heq
          exact absurd heq.symm (hnew j)
      · by_cases hjd : j = id
        · simp only [hjd, Function.update_self, Function.update_of_ne hid] at heq
          exact absurd heq (hnew i)
        · simp only [Function.update_of_ne hid, Function.update_of_ne hjd] at hi heq
          exact h.injective hi heq
  · exact h

theorem le_assignCases (cases : List (Nat × Case)) (l : Labels) : l.Le (assignCases cases l) := by
  induction cases generalizing l with
  | nil => exact .refl l
  | cons c rest ih =>
      rw [assignCases]
      split
      · exact ((l.le_assign c.1).trans (le_next _)).trans (ih _)
      · exact (l.le_assign c.1).trans (ih _)

theorem Good.assignCases {cases : List (Nat × Case)} (h : l.Good) : (assignCases cases l).Good := by
  induction cases generalizing l with
  | nil => exact h
  | cons c rest ih =>
      rw [Labels.assignCases]
      split
      · exact ih (h.assign c.1).next
      · exact ih (h.assign c.1)

theorem assignCases_ne_zero {cases : List (Nat × Case)} {c : Nat × Case} (hc : c ∈ cases) (l : Labels) :
    (assignCases cases l).labelId c.1 ≠ 0 := by
  induction cases generalizing l with
  | nil => cases hc
  | cons d rest ih =>
      rw [assignCases]
      rcases List.mem_cons.mp hc with rfl | hc
      · have hassigned := l.assign_ne_zero c.1
        split
        · rw [(le_assignCases rest (l.assign c.1).next).kept hassigned]
          exact hassigned
        · rw [(le_assignCases rest (l.assign c.1)).kept hassigned]
          exact hassigned
      · exact ih hc _

theorem le_assignDefault (d : Option Nat) (l : Labels) : l.Le (assignDefault d l) := by
  cases d with
  | none => exact .refl l
  | some id => exact l.le_assign id

theorem Good.assignDefault (h : l.Good) (d : Option Nat) : (assignDefault d l).Good := by
  cases d with
  | none => exact h
  | some id => exact h.assign id

end Labels

open Labels

theorem Printed.le (h : Printed x fn ctrl s l code l') : l.Le l' := by
  induction h with
  | null => exact .refl _
  | act | break_ | continue_ | goto_ | gotoInd | return_ => exact le_take _ _
  | seq _ _ ihs iht => exact ihs.trans iht
  | if_ _ ih => exact ((le_next _).trans (le_take _ _)).trans ih
  | ifElse _ _ iht ihe => exact (((le_next _).trans (le_take _ _)).trans iht).trans ihe
  | for_ _ ih => exact ((((le_next _).trans (le_take _ _)).trans (le_take _ _)).trans ih).trans (le_take _ _)
  | do_ _ ih => exact ((le_next _).trans ih).trans (le_take _ _)
  | switch_ hlabels _ ih =>
      subst hlabels
      exact ((((le_next _).trans (le_take _ _)).trans (le_assignCases _ _)).trans (le_assignDefault _ _)).trans ih
  | case_ _ ih => exact (le_assign _ _).trans ih
  | label _ ih => exact ih

theorem Printed.good (h : Printed x fn ctrl s l code l') (hgood : l.Good) : l'.Good := by
  induction h with
  | null => exact hgood
  | act | break_ | continue_ | goto_ | gotoInd | return_ => exact hgood.take _
  | seq _ _ ihs iht => exact iht (ihs hgood)
  | if_ _ ih => exact ih (hgood.next.take _)
  | ifElse _ _ iht ihe => exact ihe (iht (hgood.next.take _))
  | for_ _ ih => exact (ih ((hgood.next.take _).take _)).take _
  | do_ _ ih => exact (ih hgood.next).take _
  | switch_ hlabels _ ih =>
      subst hlabels
      exact ih ((hgood.next.take _).assignCases.assignDefault _)
  | case_ _ ih => exact ih (hgood.assign _)
  | label _ ih => exact ih hgood

/-! ## Labels -/

def Line.label? : Line E → Option Label
  | .label name => some name
  | _ => none

def labels (code : List (Line E)) : List Label := code.filterMap Line.label?

@[simp] theorem labels_nil : labels ([] : List (Line E)) = [] := rfl
@[simp] theorem labels_append (c d : List (Line E)) : labels (c ++ d) = labels c ++ labels d := List.filterMap_append
@[simp] theorem labels_label (name : Label) (c : List (Line E)) : labels (.label name :: c) = name :: labels c := rfl
@[simp] theorem labels_act (e : E) (c : List (Line E)) : labels (.act e :: c) = labels c := rfl
@[simp] theorem labels_jumpUnless (e : E) (y : Label) (c : List (Line E)) : labels (.jumpUnless e y :: c) = labels c := rfl
@[simp] theorem labels_jumpIf (e : E) (y : Label) (c : List (Line E)) : labels (.jumpIf e y :: c) = labels c := rfl
@[simp] theorem labels_dispatch (e : E) (cases : List (Nat × Case)) (y : Label) (c : List (Line E)) :
    labels (.dispatch e cases y :: c) = labels c := rfl
@[simp] theorem labels_jmp (y : Label) (c : List (Line E)) : labels (.jmp y :: c) = labels c := rfl
@[simp] theorem labels_jmpTo (e : E) (c : List (Line E)) : labels (.jmpTo e :: c) = labels c := rfl
@[simp] theorem labels_actLines (e : Option E) : labels (actLines e) = [] := by cases e <;> rfl
@[simp] theorem labels_testLines (y : Label) (e : Option E) : labels (testLines y e) = [] := by cases e <;> rfl

/-- A label that is printed for some statements, between one state of the numbers and another. -/
def Owned (fn : String) (l l' : Labels) (ids : List Nat) (names : List String) : Label → Prop
  | .begin_ n | .end_ n | .else_ n | .continue_ n => l.count < n ∧ n ≤ l'.count
  | .case_ n => ∃ id ∈ ids, l'.labelId id ≠ 0 ∧ n = l'.labelId id
  | .label f name => f = fn ∧ name ∈ names
  | .return_ _ => False

variable {ids ids' : List Nat} {names names' : List String} {y : Label}

theorem Owned.mono (h : Owned fn l₁ l₂ ids names y) (hle : l.Le l₁) (hle' : l₂.Le l') (hids : ids ⊆ ids') (hnames : names ⊆ names') :
    Owned fn l l' ids' names' y := by
  cases y with
  | begin_ n | end_ n | else_ n | continue_ n => exact ⟨Nat.lt_of_le_of_lt hle.count h.1, h.2.trans hle'.count⟩
  | case_ n =>
      obtain ⟨id, hid, h0, hn⟩ := h
      have hkept := hle'.kept h0
      exact ⟨id, hids hid, hkept ▸ h0, hn.trans hkept.symm⟩
  | label f name => exact ⟨h.1, hnames h.2⟩
  | return_ f => exact h

/-- Two statements one after the other. -/
theorem Owned.apart (h : Owned fn l l₁ ids names y) (h' : Owned fn l₁ l₂ ids' names' y) (hgood : l₂.Good) (hle : l₁.Le l₂)
    (hids : ids.Disjoint ids') (hnames : names.Disjoint names') : False := by
  cases y with
  | begin_ n | end_ n | else_ n | continue_ n => exact absurd h.2 (Nat.not_le_of_lt h'.1)
  | case_ n =>
      obtain ⟨id, hid, h0, hn⟩ := h
      obtain ⟨id', hid', -, hn'⟩ := h'
      have hkept := hle.kept h0
      obtain rfl : id = id' := hgood.injective (hkept ▸ h0) (hkept.trans (hn.symm.trans hn'))
      exact hids hid hid'
  | label f name => exact hnames h.2 h'.2
  | return_ f => exact h

/-- The number that a statement takes for itself. -/
theorem own_number (h : l.next.Le l') : l.count < l.count + 1 ∧ l.count + 1 ≤ l'.count := ⟨Nat.lt_succ_self _, h.count⟩

theorem next_le_dispatch {t : Stmt E} {n : Nat} (h : l₁ = assignDefault t.defaultCase (assignCases t.caseNext (l.next.take n))) :
    l.next.Le l₁ :=
  h ▸ ((le_take _ _).trans (le_assignCases _ _)).trans (le_assignDefault _ _)

theorem Printed.owned (h : Printed x fn ctrl s l code l') : ∀ y ∈ labels code, Owned fn l l' s.ids s.names y := by
  induction h with
  | null | act | break_ | continue_ | goto_ | gotoInd | return_ => simp
  | @seq ctrl s t l l₁ l₂ first second hfirst hsecond ihs iht =>
      intro y hy
      rw [labels_append, List.mem_append] at hy
      rcases hy with hy | hy
      · exact (ihs y hy).mono (.refl _) hsecond.le (List.subset_append_left _ _) (List.subset_append_left _ _)
      · exact (iht y hy).mono hfirst.le (.refl _) (List.subset_append_right _ _) (List.subset_append_right _ _)
  | @if_ ctrl cond t l l' code hthen ih =>
      intro y hy
      have hle : l.next.Le l' := (le_take _ _).trans hthen.le
      simp only [labels_jumpUnless, labels_append, labels_label, labels_nil, List.mem_append, List.mem_singleton] at hy
      rcases hy with hy | rfl
      · exact (ih y hy).mono ((le_next l).trans (le_take _ _)) (.refl _) (List.Subset.refl _) (List.Subset.refl _)
      · exact own_number hle
  | @ifElse ctrl cond t e l l₁ l₂ code code' hthen hels iht ihe =>
      intro y hy
      have hle : l.next.Le l₁ := (le_take _ _).trans hthen.le
      have hle' : l.next.Le l₂ := hle.trans hels.le
      simp only [labels_jumpUnless, labels_append, labels_label, labels_jmp, labels_nil, List.mem_append, List.mem_cons,
        List.not_mem_nil, or_false] at hy
      rcases hy with hy | rfl | hy | rfl
      · exact (iht y hy).mono ((le_next l).trans (le_take _ _)) hels.le (List.subset_append_left _ _) (List.subset_append_left _ _)
      · exact own_number hle'
      · exact (ihe y hy).mono ((le_next l).trans hle) (.refl _) (List.subset_append_right _ _) (List.subset_append_right _ _)
      · exact own_number hle'
  | @for_ ctrl init cond inc t l l' code hbody ih =>
      intro y hy
      have hle : l.next.Le l' := ((le_take _ _).trans (le_take _ _)).trans hbody.le
      simp only [labels_actLines, labels_testLines, labels_append, labels_label, labels_jmp, labels_nil, List.nil_append, List.mem_append,
        List.mem_cons, List.not_mem_nil, or_false] at hy
      rcases hy with rfl | hy | rfl | rfl
      · exact own_number (hle.trans (le_take _ _))
      · exact (ih y hy).mono (((le_next l).trans (le_take _ _)).trans (le_take _ _)) (le_take _ _) (List.Subset.refl _)
          (List.Subset.refl _)
      · exact own_number (hle.trans (le_take _ _))
      · exact own_number (hle.trans (le_take _ _))
  | @do_ ctrl t cond l l' code hbody ih =>
      intro y hy
      simp only [labels_append, labels_label, labels_jumpIf, labels_nil, List.mem_append, List.mem_cons, List.not_mem_nil, or_false] at hy
      rcases hy with rfl | hy | rfl | rfl
      · exact own_number (hbody.le.trans (le_take _ _))
      · exact (ih y hy).mono (le_next l) (le_take _ _) (List.Subset.refl _) (List.Subset.refl _)
      · exact own_number (hbody.le.trans (le_take _ _))
      · exact own_number (hbody.le.trans (le_take _ _))
  | @switch_ ctrl cond t l l₁ l' code hlabels hbody ih =>
      intro y hy
      have hle : l.next.Le l₁ := next_le_dispatch hlabels
      simp only [labels_dispatch, labels_append, labels_label, labels_nil, List.mem_append, List.mem_singleton] at hy
      rcases hy with hy | rfl
      · exact (ih y hy).mono ((le_next l).trans hle) (.refl _) (List.Subset.refl _) (List.Subset.refl _)
      · exact own_number (hle.trans hbody.le)
  | @case_ ctrl id c t l l' code hlhs ih =>
      intro y hy
      rw [labels_label] at hy
      rcases List.mem_cons.mp hy with rfl | hy
      · have h0 := l.assign_ne_zero id
        have hkept := hlhs.le.kept h0
        exact ⟨id, List.mem_cons_self, hkept ▸ h0, hkept.symm⟩
      · exact (ih y hy).mono (le_assign l id) (.refl _) (List.subset_cons_self _ _) (List.Subset.refl _)
  | @label ctrl name t l l' code hlhs ih =>
      intro y hy
      rw [labels_label] at hy
      rcases List.mem_cons.mp hy with rfl | hy
      · exact ⟨rfl, List.mem_cons_self⟩
      · exact (ih y hy).mono (.refl _) (.refl _) (List.Subset.refl _) (List.subset_cons_self _ _)

/-- A number that is taken before is not printed in a body. -/
theorem Printed.not_number (h : Printed x fn ctrl s l₁ code l') (hle : l.next.Le l₁) :
    .begin_ (l.count + 1) ∉ labels code ∧ .end_ (l.count + 1) ∉ labels code ∧ .else_ (l.count + 1) ∉ labels code ∧
      .continue_ (l.count + 1) ∉ labels code := by
  have hcount : ¬ l₁.count < l.count + 1 := Nat.not_lt_of_le hle.count
  exact ⟨fun hmem => hcount (h.owned _ hmem).1, fun hmem => hcount (h.owned _ hmem).1, fun hmem => hcount (h.owned _ hmem).1,
    fun hmem => hcount (h.owned _ hmem).1⟩

/-- No label is printed twice, if no node and no name of the source is there twice. -/
theorem Printed.nodup (h : Printed x fn ctrl s l code l') (hgood : l.Good) (hids : s.ids.Nodup) (hnames : s.names.Nodup) :
    (labels code).Nodup := by
  induction h with
  | null | act | break_ | continue_ | goto_ | gotoInd | return_ => simp
  | @seq ctrl s t l l₁ l₂ first second hfirst hsecond ihs iht =>
      obtain ⟨hids₁, hids₂, hdisj⟩ := List.nodup_append'.mp hids
      obtain ⟨hnames₁, hnames₂, hdisj'⟩ := List.nodup_append'.mp hnames
      rw [labels_append]
      refine List.nodup_append'.mpr ⟨ihs hgood hids₁ hnames₁, iht (hfirst.good hgood) hids₂ hnames₂, fun y hy hy' => ?_⟩
      exact (hfirst.owned y hy).apart (hsecond.owned y hy') (hsecond.good (hfirst.good hgood)) hsecond.le hdisj hdisj'
  | @if_ ctrl cond t l l' code hthen ih =>
      have hcode := ih (hgood.next.take _) hids hnames
      obtain ⟨-, hend, -, -⟩ := hthen.not_number (le_take l.next _)
      simpa [List.nodup_append', hcode] using hend
  | @ifElse ctrl cond t e l l₁ l₂ code code' hthen hels iht ihe =>
      obtain ⟨hids₁, hids₂, hdisj⟩ := List.nodup_append'.mp hids
      obtain ⟨hnames₁, hnames₂, hdisj'⟩ := List.nodup_append'.mp hnames
      have hgood₁ := hthen.good (hgood.next.take _)
      have hcode := iht (hgood.next.take _) hids₁ hnames₁
      have hcode' := ihe hgood₁ hids₂ hnames₂
      obtain ⟨-, hend, helse, -⟩ := hthen.not_number (le_take l.next _)
      obtain ⟨-, hend', helse', -⟩ := hels.not_number ((le_take l.next _).trans hthen.le)
      have happart : ∀ y ∈ labels code, y ∉ labels code' := fun y hy hy' =>
        (hthen.owned y hy).apart (hels.owned y hy') (hels.good hgood₁) hels.le hdisj hdisj'
      simp only [labels_jumpUnless, labels_append, labels_label, labels_jmp, labels_nil]
      refine List.nodup_append'.mpr ⟨hcode, ?_, ?_⟩
      · simpa [List.nodup_append', hcode', helse'] using hend'
      · intro y hy hy'
        simp only [List.mem_cons, List.mem_append, List.not_mem_nil, or_false] at hy'
        rcases hy' with rfl | hy' | rfl
        · exact helse hy
        · exact happart y hy hy'
        · exact hend hy
  | @for_ ctrl init cond inc t l l' code hbody ih =>
      have hcode := ih ((hgood.next.take _).take _) hids hnames
      obtain ⟨hbegin, hend, -, hcont⟩ := hbody.not_number ((le_take l.next _).trans (le_take _ _))
      simp [List.nodup_append', hcode, hbegin, hend, hcont]
  | @do_ ctrl t cond l l' code hbody ih =>
      have hcode := ih hgood.next hids hnames
      obtain ⟨hbegin, hend, -, hcont⟩ := hbody.not_number (Le.refl l.next)
      simp [List.nodup_append', hcode, hbegin, hend, hcont]
  | @switch_ ctrl cond t l l₁ l' code hlabels hbody ih =>
      have hgood₁ : l₁.Good := hlabels ▸ (hgood.next.take _).assignCases.assignDefault _
      have hcode := ih hgood₁ hids hnames
      obtain ⟨-, hend, -, -⟩ := hbody.not_number (next_le_dispatch hlabels)
      simpa [List.nodup_append', hcode] using hend
  | @case_ ctrl id c t l l' code hlhs ih =>
      obtain ⟨hnot, hids⟩ := List.nodup_cons.mp hids
      rw [labels_label]
      refine List.nodup_cons.mpr ⟨fun hmem => ?_, ih (hgood.assign id) hids hnames⟩
      obtain ⟨id', hid', -, heq⟩ := hlhs.owned _ hmem
      have h0 := l.assign_ne_zero id
      have hkept := hlhs.le.kept h0
      obtain rfl : id = id' := (hlhs.good (hgood.assign id)).injective (hkept ▸ h0) (hkept.trans heq)
      exact hnot hid'
  | @label ctrl name t l l' code hlhs ih =>
      obtain ⟨hnot, hnames⟩ := List.nodup_cons.mp hnames
      rw [labels_label]
      exact List.nodup_cons.mpr ⟨fun hmem => hnot (hlhs.owned _ hmem).2, ih hgood hids hnames⟩

end Rcc.Statements

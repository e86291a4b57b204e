import Mathlib
import Rcc.StatementsSound

/-!
# The labels of a translation unit

The assembler gets the code of all functions as one file. It wants each label in it once, and each label that is jumped to. The numbers go on from one function to
the next, and the labels of the program are printed with the name of the function. `stmt` looks neither for a label that is there twice
nor for one that is missing: these are all that the assembler reports.
-/

namespace Rcc.Statements

open Labels
open Switch (Case)

variable {E : Type*} {x : Expressions E} {fn : String} {ctrl : Ctrl} {s t : Stmt E} {l l₁ l' L : Labels} {code : List (Line E)} {y : Label}
  {fns : List (String × Stmt E)}

/-- The functions, one after the other. -/
def genUnit (x : Expressions E) : List (String × Stmt E) → Labels → Option (List (Line E) × Labels)
  | [], l => some ([], l)
  | (fn, body) :: rest, l =>
      (genFunction x fn body l).bind fun (code, l) => (genUnit x rest l).map fun (code', l) => (code ++ code', l)

/-- The names that are jumped to. -/
def Stmt.gotos : Stmt E → List String
  | seq s t => s.gotos ++ t.gotos
  | if_ _ t => t.gotos
  | ifElse _ t e => t.gotos ++ e.gotos
  | for_ _ _ _ t => t.gotos
  | do_ t _ => t.gotos
  | switch_ _ t => t.gotos
  | case_ _ _ t => t.gotos
  | label _ t => t.gotos
  | goto_ _ name => [name]
  | _ => []

def Line.targets : Line E → List Label
  | .jumpUnless _ y => [y]
  | .jumpIf _ y => [y]
  | .dispatch _ cases out => out :: cases.map fun c => .case_ c.1
  | .jmp y => [y]
  | _ => []

/-- All labels that are jumped to. -/
def targets (code : List (Line E)) : List Label := code.flatMap Line.targets

@[simp] theorem targets_nil : targets ([] : List (Line E)) = [] := rfl
@[simp] theorem targets_cons (line : Line E) (c : List (Line E)) : targets (line :: c) = line.targets ++ targets c := List.flatMap_cons
@[simp] theorem targets_append (c d : List (Line E)) : targets (c ++ d) = targets c ++ targets d := List.flatMap_append
@[simp] theorem targets_actLines (e : Option E) : targets (actLines e) = [] := by cases e <;> rfl

theorem mem_targets_testLines {e : Option E} {z : Label} (h : y ∈ targets (testLines z e)) : y = z := by
  cases e with
  | none => cases h
  | some e => exact List.mem_singleton.mp h

/-! ## What is printed -/

theorem Printed.names_sublist (h : Printed x fn ctrl s l code l') : (s.names.map (Label.label fn)).Sublist (labels code) := by
  induction h with
  | null | act | break_ | continue_ | goto_ | gotoInd | return_ => exact List.nil_sublist _
  | seq _ _ ihs iht =>
      rw [Stmt.names, List.map_append, labels_append]
      exact ihs.append iht
  | if_ _ ih =>
      simp only [labels_jumpUnless, labels_append]
      exact ih.trans (List.sublist_append_left _ _)
  | ifElse _ _ iht ihe =>
      rw [Stmt.names, List.map_append]
      simp only [labels_jumpUnless, labels_append, labels_jmp, labels_label]
      exact iht.append ((ihe.trans (List.sublist_append_left _ _)).trans (List.sublist_cons_self _ _))
  | for_ _ ih =>
      simp only [labels_append, labels_label, labels_actLines, labels_testLines, List.nil_append]
      exact (ih.trans (List.sublist_append_left _ _)).trans (List.sublist_cons_self _ _)
  | do_ _ ih =>
      simp only [labels_append, labels_label]
      exact (ih.trans (List.sublist_append_left _ _)).trans (List.sublist_cons_self _ _)
  | switch_ _ _ ih =>
      simp only [labels_dispatch, labels_append]
      exact ih.trans (List.sublist_append_left _ _)
  | case_ _ ih =>
      rw [labels_label]
      exact ih.trans (List.sublist_cons_self _ _)
  | label _ ih =>
      rw [Stmt.names, List.map_cons, labels_label]
      exact ih.cons_cons _

/-- The label of a case is printed, with the number that it has at last. -/
def CasePrinted (l : Labels) (code : List (Line E)) (id : Nat) : Prop := l.labelId id ≠ 0 ∧ .case_ (l.labelId id) ∈ labels code

theorem CasePrinted.mono {id : Nat} {code' : List (Line E)} (h : CasePrinted l code id) (hle : l.Le l') (hcode : labels code ⊆ labels code') :
    CasePrinted l' code' id := by
  rw [CasePrinted, hle.kept h.1]
  exact ⟨h.1, hcode h.2⟩

theorem Printed.case_printed (h : Printed x fn ctrl s l code l') : ∀ id ∈ s.ids, CasePrinted l' code id := by
  induction h with
  | null | act | break_ | continue_ | goto_ | gotoInd | return_ =>
      intro id hid
      cases hid
  | seq _ hsecond ihs iht =>
      intro id hid
      rcases List.mem_append.mp hid with hid | hid
      · exact (ihs id hid).mono hsecond.le (by simp)
      · exact (iht id hid).mono (.refl _) (by simp)
  | if_ _ ih => exact fun id hid => (ih id hid).mono (.refl _) (by simp)
  | ifElse _ hels iht ihe =>
      intro id hid
      rcases List.mem_append.mp hid with hid | hid
      · exact (iht id hid).mono hels.le (by simp)
      · refine (ihe id hid).mono (.refl _) fun y hy => ?_
        simp [hy]
  | for_ _ ih | do_ _ ih =>
      refine fun id hid => (ih id hid).mono (le_take _ _) fun y hy => ?_
      simp [hy]
  | switch_ _ _ ih => exact fun id hid => (ih id hid).mono (.refl _) (by simp)
  | @case_ ctrl id c t l l' code hlhs ih =>
      intro id' hid
      rcases List.mem_cons.mp hid with rfl | hid
      · have hassigned := l.assign_ne_zero id'
        rw [CasePrinted, hlhs.le.kept hassigned]
        exact ⟨hassigned, by simp⟩
      · exact (ih id' hid).mono (.refl _) (by simp)
  | label _ ih => exact fun id hid => (ih id hid).mono (.refl _) (by simp)

/-! ## What is jumped to -/

theorem Printed.goto_mem (h : Printed x fn ctrl s l code l') : ∀ name ∈ s.gotos, .label fn name ∈ targets code := by
  induction h with
  | goto_ =>
      intro name hname
      rw [List.mem_singleton.mp hname]
      simp [Line.targets]
  | seq _ _ ihs iht =>
      intro name hname
      rcases List.mem_append.mp hname with hname | hname
      · simp [ihs name hname]
      · simp [iht name hname]
  | ifElse _ _ iht ihe =>
      intro name hname
      rcases List.mem_append.mp hname with hname | hname
      · simp [iht name hname]
      · simp [ihe name hname]
  | if_ _ ih | for_ _ ih | do_ _ ih | switch_ _ _ ih | case_ _ ih | label _ ih =>
      intro name hname
      simp [ih name hname]
  | _ =>
      intro name hname
      cases hname

/-- A label that is jumped to from inside and not printed there. -/
def Outside (fn : String) (ctrl : Ctrl) (inLoop : Bool) (gotos : List String) : Label → Prop
  | .end_ n => ∃ n' rest, ctrl = (n, n') :: rest
  | .continue_ n' => inLoop = true ∧ ∃ n rest, ctrl = (n, n') :: rest
  | .label f name => f = fn ∧ name ∈ gotos
  | .return_ f => f = fn
  | _ => False

theorem Outside.mono {inLoop : Bool} {gotos gotos' : List String} (h : Outside fn ctrl inLoop gotos y) (hgotos : gotos ⊆ gotos') :
    Outside fn ctrl inLoop gotos' y := by
  cases y with
  | label f name => exact ⟨h.1, hgotos h.2⟩
  | _ => exact h

/-- Inside a loop or a `switch`. -/
theorem Outside.pop {inLoop' : Bool} {gotos : List String} {n n' : Nat} (h : Outside fn ((n, n') :: ctrl) inLoop' gotos y)
    (inLoop : Bool) :
    y = .end_ n ∨ (inLoop' = true ∧ y = .continue_ n') ∨ Outside fn ctrl inLoop gotos y := by
  cases y with
  | end_ m =>
      obtain ⟨_, _, heq⟩ := h
      cases heq
      exact .inl rfl
  | continue_ m =>
      obtain ⟨hloop, _, _, heq⟩ := h
      cases heq
      exact .inr (.inl ⟨hloop, rfl⟩)
  | _ => exact .inr (.inr h)

theorem Printed.target_mem {inLoop : Bool} (h : Printed x fn ctrl s l code l') (hloops : s.ContinuesInLoops inLoop)
    (hctrl : inLoop = true → ctrl ≠ []) : ∀ y ∈ targets code, y ∈ labels code ∨ Outside fn ctrl inLoop s.gotos y := by
  induction h generalizing inLoop with
  | null | act | gotoInd =>
      intro y hy
      simp [Line.targets] at hy
  | seq _ _ ihs iht =>
      intro y hy
      rw [targets_append, List.mem_append] at hy
      rcases hy with hy | hy
      · exact (ihs hloops.1 hctrl y hy).imp (by simp_all) fun h => h.mono (List.subset_append_left _ _)
      · exact (iht hloops.2 hctrl y hy).imp (by simp_all) fun h => h.mono (List.subset_append_right _ _)
  | if_ _ ih =>
      intro y hy
      simp only [targets_cons, targets_append, Line.targets, targets_nil, List.append_nil, List.mem_append, List.mem_singleton] at hy
      rcases hy with rfl | hy
      · simp
      · exact (ih hloops hctrl y hy).imp_left (by simp_all)
  | ifElse _ _ iht ihe =>
      intro y hy
      simp only [targets_cons, targets_append, Line.targets, targets_nil, List.append_nil, List.nil_append, List.mem_append,
        List.mem_singleton] at hy
      rcases hy with rfl | hy | rfl | hy
      · simp
      · exact (iht hloops.1 hctrl y hy).imp (fun h => by simp [h]) fun h => h.mono (List.subset_append_left _ _)
      · simp
      · exact (ihe hloops.2 hctrl y hy).imp (fun h => by simp [h]) fun h => h.mono (List.subset_append_right _ _)
  | @for_ ctrl init cond inc t l l' code _ ih =>
      intro y hy
      simp only [targets_cons, targets_append, Line.targets, targets_nil, targets_actLines, List.append_nil, List.nil_append, List.mem_append,
        List.mem_singleton] at hy
      rcases hy with hy | hy | rfl
      · rw [mem_targets_testLines hy]
        simp
      · rcases ih hloops (fun _ => List.cons_ne_nil _ _) y hy with h | h
        · simp [h]
        · rcases h.pop inLoop with rfl | ⟨-, rfl⟩ | h
          · simp
          · simp
          · exact .inr h
      · simp
  | do_ _ ih =>
      intro y hy
      simp only [targets_cons, targets_append, Line.targets, targets_nil, List.append_nil, List.nil_append, List.mem_append,
        List.mem_singleton] at hy
      rcases hy with hy | rfl
      · rcases ih hloops (fun _ => List.cons_ne_nil _ _) y hy with h | h
        · simp [h]
        · rcases h.pop inLoop with rfl | ⟨-, rfl⟩ | h
          · simp
          · simp
          · exact .inr h
      · simp
  | @switch_ ctrl cond t l l₁ l' code hlabels hbody ih =>
      -- what the dispatch jumps to is in the body
      have hcase : ∀ id, ((∃ c ∈ t.caseNext, c.1 = id) ∨ t.defaultCase = some id) → .case_ (l₁.labelId id) ∈ labels code := by
        intro id hid
        have hassigned : l₁.labelId id ≠ 0 := hlabels ▸ assigned_of_switch hid _
        exact hbody.le.kept hassigned ▸ (hbody.case_printed id (Stmt.switch_ids hid)).2
      intro y hy
      simp only [targets_cons, targets_append, Line.targets, targets_nil, List.append_nil, List.mem_append, List.mem_cons, List.map_map,
        List.mem_map] at hy
      rcases hy with (rfl | ⟨c, hc, rfl⟩) | hy
      · cases hdefault : t.defaultCase with
        | none => simp [dispatchOut]
        | some id => simp [dispatchOut, hcase id (.inr hdefault)]
      · simp [hcase c.1 (.inl ⟨c, hc, rfl⟩)]
      · rcases ih hloops (fun _ => List.cons_ne_nil _ _) y hy with h | h
        · simp [h]
        · rcases h.pop inLoop with rfl | ⟨hloop, rfl⟩ | h
          · simp
          · obtain ⟨⟨n, n'⟩, rest, rfl⟩ := List.exists_cons_of_ne_nil (hctrl hloop)
            exact .inr ⟨hloop, _, _, rfl⟩
          · exact .inr h
  | case_ _ ih | label _ ih =>
      intro y hy
      exact (ih hloops hctrl y (by simpa [Line.targets] using hy)).imp_left (by simp_all)
  | break_ =>
      intro y hy
      simp [Line.targets] at hy
      exact .inr (hy ▸ ⟨_, _, rfl⟩)
  | continue_ =>
      intro y hy
      simp [Line.targets] at hy
      exact .inr (hy ▸ ⟨hloops, _, _, rfl⟩)
  | goto_ =>
      intro y hy
      simp [Line.targets] at hy
      exact .inr (hy ▸ ⟨rfl, List.mem_singleton_self _⟩)
  | return_ =>
      intro y hy
      simp [Line.targets] at hy
      exact .inr (hy ▸ rfl)

/-! ## The unit -/

/-- `genUnit` by its cases. -/
inductive PrintedUnit (x : Expressions E) : List (String × Stmt E) → Labels → List (Line E) → Labels → Prop
  | nil {l : Labels} : PrintedUnit x [] l [] l
  | cons {fn : String} {body : Stmt E} {rest : List (String × Stmt E)} {l l₁ L : Labels} {code code' : List (Line E)}
      (hbody : Printed x fn [] body l code l₁) (hrest : PrintedUnit x rest l₁ code' L) :
      PrintedUnit x ((fn, body) :: rest) l (code ++ .label (.return_ fn) :: code') L

theorem printedUnit_of_gen (h : genUnit x fns l = some (code, L)) : PrintedUnit x fns l code L := by
  induction fns generalizing l code L with
  | nil =>
      cases h
      exact .nil
  | cons f rest ih =>
      obtain ⟨⟨first, l₁⟩, hfirst, h⟩ := Option.bind_eq_some_iff.mp h
      obtain ⟨⟨code', l₂⟩, hrest, heq⟩ := Option.map_eq_some_iff.mp h
      obtain ⟨⟨code₁, l₃⟩, hbody, heq'⟩ := Option.map_eq_some_iff.mp hfirst
      cases heq
      cases heq'
      rw [List.append_assoc]
      exact .cons (printed_of_gen hbody) (ih hrest)

def unitIds (fns : List (String × Stmt E)) : List Nat := fns.flatMap fun f => f.2.ids

/-- A label that is printed for some functions. -/
def UnitOwned (fns : List (String × Stmt E)) (l L : Labels) : Label → Prop
  | .label fn name => ∃ body, (fn, body) ∈ fns ∧ name ∈ body.names
  | .return_ fn => fn ∈ fns.map Prod.fst
  | y => Owned "" l L (unitIds fns) [] y

namespace PrintedUnit

theorem le (h : PrintedUnit x fns l code L) : l.Le L := by
  induction h with
  | nil => exact .refl _
  | cons hbody _ ih => exact hbody.le.trans ih

theorem good (h : PrintedUnit x fns l code L) (hgood : l.Good) : L.Good := by
  induction h with
  | nil => exact hgood
  | cons hbody _ ih => exact ih (hbody.good hgood)

theorem owned (h : PrintedUnit x fns l code L) : ∀ y ∈ labels code, UnitOwned fns l L y := by
  induction h with
  | nil =>
      intro y hy
      cases hy
  | @cons fn body rest l l₁ L code code' hbody hrest ih =>
      have hids : body.ids ⊆ unitIds ((fn, body) :: rest) := List.subset_append_left _ _
      have hids' : unitIds rest ⊆ unitIds ((fn, body) :: rest) := List.subset_append_right _ _
      intro y hy
      rw [labels_append, labels_label, List.mem_append, List.mem_cons] at hy
      rcases hy with hy | rfl | hy
      · have howned := hbody.owned y hy
        cases y with
        | label f name =>
            obtain ⟨rfl, hname⟩ := howned
            exact ⟨body, List.mem_cons_self, hname⟩
        | return_ f => cases howned
        | begin_ n | end_ n | else_ n | continue_ n => exact ⟨howned.1, howned.2.trans hrest.le.count⟩
        | case_ n =>
            obtain ⟨id, hid, h0, hn⟩ := howned
            have hkept := hrest.le.kept h0
            exact ⟨id, hids hid, hkept ▸ h0, hn.trans hkept.symm⟩
      · exact List.mem_cons_self
      · have howned := ih y hy
        cases y with
        | label f name =>
            obtain ⟨b, hb, hname⟩ := howned
            exact ⟨b, List.mem_cons_of_mem _ hb, hname⟩
        | return_ f => exact List.mem_cons_of_mem _ howned
        | begin_ n | end_ n | else_ n | continue_ n => exact ⟨Nat.lt_of_le_of_lt hbody.le.count howned.1, howned.2⟩
        | case_ n =>
            obtain ⟨id, hid, h0⟩ := howned
            exact ⟨id, hids' hid, h0⟩

/-- What is printed for the next functions is not printed for the first one. -/
theorem apart {body : Stmt E} {rest : List (String × Stmt E)} (hfirst : Owned fn l l₁ body.ids body.names y) (hrest : UnitOwned rest l₁ L y)
    (hgood : L.Good) (hle : l₁.Le L) (hids : body.ids.Disjoint (unitIds rest)) (hfn : fn ∉ rest.map Prod.fst) : False := by
  cases y with
  | label f name =>
      obtain ⟨b, hb, -⟩ := hrest
      exact hfn (hfirst.1 ▸ List.mem_map.mpr ⟨_, hb, rfl⟩)
  | return_ f => exact hfirst
  | begin_ n | end_ n | else_ n | continue_ n => exact absurd hfirst.2 (Nat.not_le_of_lt hrest.1)
  | case_ n =>
      have howned : Owned fn l l₁ body.ids [] (.case_ n) := hfirst
      have howned' : Owned fn l₁ L (unitIds rest) [] (.case_ n) := hrest
      exact howned.apart howned' hgood hle hids (List.disjoint_nil_left [])

theorem nodup (h : PrintedUnit x fns l code L) (hgood : l.Good) (hids : (unitIds fns).Nodup) (hfns : (fns.map Prod.fst).Nodup)
    (hnames : ∀ f ∈ fns, f.2.names.Nodup) : (labels code).Nodup := by
  induction h with
  | nil => exact List.nodup_nil
  | @cons fn body rest l l₁ L code code' hbody hrest ih =>
      obtain ⟨hids₁, hids₂, hdisj⟩ := List.nodup_append'.mp hids
      obtain ⟨hfn, hfns⟩ := List.nodup_cons.mp hfns
      have hgood₁ := hbody.good hgood
      have hcode := hbody.nodup hgood hids₁ (hnames _ List.mem_cons_self)
      have hcode' := ih hgood₁ hids₂ hfns fun f hf => hnames f (List.mem_cons_of_mem _ hf)
      have hreturn : .return_ fn ∉ labels code' := fun hmem => hfn (hrest.owned _ hmem)
      rw [labels_append, labels_label]
      refine List.nodup_append'.mpr ⟨hcode, List.nodup_cons.mpr ⟨hreturn, hcode'⟩, fun y hy hy' => ?_⟩
      rcases List.mem_cons.mp hy' with rfl | hy'
      · exact hbody.owned _ hy
      · exact apart (hbody.owned y hy) (hrest.owned y hy') (hrest.good hgood₁) hrest.le hdisj hfn

theorem names_sublist (h : PrintedUnit x fns l code L) : ∀ f ∈ fns, (f.2.names.map (Label.label f.1)).Sublist (labels code) := by
  induction h with
  | nil =>
      intro f hf
      cases hf
  | cons hbody _ ih =>
      intro f hf
      rw [labels_append, labels_label]
      rcases List.mem_cons.mp hf with rfl | hf
      · exact hbody.names_sublist.trans (List.sublist_append_left _ _)
      · exact ((ih f hf).trans (List.sublist_cons_self _ _)).trans (List.sublist_append_right _ _)

theorem goto_mem (h : PrintedUnit x fns l code L) : ∀ f ∈ fns, ∀ name ∈ f.2.gotos, .label f.1 name ∈ targets code := by
  induction h with
  | nil =>
      intro f hf
      cases hf
  | cons hbody _ ih =>
      intro f hf name hname
      rcases List.mem_cons.mp hf with rfl | hf
      · simp [hbody.goto_mem name hname]
      · simp [ih f hf name hname]

/-- What is jumped to is printed, but for the names that no label has. -/
theorem target_mem (h : PrintedUnit x fns l code L) (hloops : ∀ f ∈ fns, f.2.ContinuesInLoops false) :
    ∀ y ∈ targets code, y ∈ labels code ∨ ∃ f ∈ fns, ∃ name ∈ f.2.gotos, y = .label f.1 name := by
  induction h with
  | nil =>
      intro y hy
      cases hy
  | @cons fn body rest l l₁ L code code' hbody hrest ih =>
      intro y hy
      rw [targets_append, targets_cons, List.mem_append] at hy
      rcases hy with hy | hy
      · rcases hbody.target_mem (hloops _ List.mem_cons_self) (fun h => nomatch h) y hy with h | h
        · simp [h]
        · cases y with
          | label f name =>
              obtain ⟨rfl, hname⟩ := h
              exact .inr ⟨_, List.mem_cons_self, name, hname, rfl⟩
          | return_ f =>
              have hf : f = fn := h
              simp [hf]
          | end_ n =>
              obtain ⟨_, _, hctrl⟩ := h
              cases hctrl
          | continue_ n => cases h.1
          | _ => cases h
      · rcases ih (fun f hf => hloops f (List.mem_cons_of_mem _ hf)) y (by simpa [Line.targets] using hy) with h | ⟨f, hf, name, h⟩
        · simp [h]
        · exact .inr ⟨f, List.mem_cons_of_mem _ hf, name, h⟩

end PrintedUnit

/-- Both functions have a label `out`. -/
def countdownAndMain : List (String × Stmt String) :=
  [("countdown", countdown), ("main", .seq (.label "out" (.act "v--")) (.if_ "v" (.goto_ "" "out")))]

end Rcc.Statements

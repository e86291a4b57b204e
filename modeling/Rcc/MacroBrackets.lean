import Rcc.Brackets
import Rcc.MacroHistory

/-!
# `push_macro` and `pop_macro`

What a name stands for, with what was pushed for it, is a cell: the entries of all names
are on one stack, and `pop_macro` takes the newest of its name. Each operation of a file
changes the cell of one name, and so a run does with a name what the operations of this
name do.
-/

namespace Rcc.Macros

open Brackets (Cell Change)

/-- The operations of a file. -/
def Act.InFile : Act → Prop
  | define _ _ _ _ _ | undef _ | pushMacro _ | popMacro _ => True
  | option _ _ | save | clear => False

abbrev FileAct : Type := {a : Act // a.InFile}

/-- What an operation does, and with which name. -/
def FileAct.change : FileAct → String × Change (Option Definition)
  | ⟨.define name isFunction params body isGnuVariadic, _⟩ => (name, .set (some (defined isFunction params body isGnuVariadic)))
  | ⟨.undef name, _⟩ => (name, .set none)
  | ⟨.pushMacro name, _⟩ => (name, .push)
  | ⟨.popMacro name, _⟩ => (name, .pop)

/-- A run of operations. -/
def FileAct.run (acts : List FileAct) (t : Table) : Table := acts.foldl (fun t a => a.1.apply t) t

/-- For one name, as much is pushed as is popped, and nothing is popped before it is pushed. -/
def Balanced (name : String) (acts : List FileAct) : Prop :=
  Brackets.Balanced (Brackets.changesOf FileAct.change name acts)

namespace Table

/-- What a name stands for, with what was pushed for it. -/
def cell (t : Table) (name : String) : Cell (Option Definition) :=
  ⟨t.lookup name, (t.stack.filter fun ms => ms.name = name).map MacroStack.definition⟩

variable {t : Table} {name : String}

/-! ## A name once -/

theorem Single.write (hsingle : t.Single) (i : Nat) (d : Definition) (disabled : Bool) : (t.write i d disabled).Single := by
  intro n
  rw [chain_write]
  exact hsingle n

theorem Single.put (hsingle : t.Single) (name : String) (d : Definition) : (t.put name d).Single := by
  rw [Table.put]
  split
  · exact hsingle.write _ _ _
  · next hfind =>
      intro n
      rw [chain_insert]
      split
      · next hn =>
          rw [findMacro_eq, List.head?_eq_none_iff] at hfind
          rw [show n = name from hn, hfind]
          exact Nat.le_refl 1
      · exact hsingle n

theorem Single.undef (hsingle : t.Single) (name : String) : (t.undef name).Single := by
  intro n
  rw [chain_undef]
  split
  · rw [List.length_tail]
    exact Nat.le_trans (Nat.sub_le _ _) (hsingle n)
  · exact hsingle n

theorem Single.popMacro (hsingle : t.Single) (name : String) : (t.popMacro name).Single := by
  rw [Table.popMacro]
  split
  · exact hsingle
  · next ms _ =>
      have hpopped : (t.setStack (t.stack.eraseP fun ms => ms.name = name)).Single := hsingle
      dsimp only
      split
      · exact hpopped.undef name
      · exact hpopped.put name _

theorem Single.apply (hsingle : t.Single) (a : FileAct) : (a.1.apply t).Single := by
  obtain ⟨a, ha⟩ := a
  cases a with
  | option | save | clear => exact absurd ha nofun
  | define name isFunction params body gnu =>
      have hput := hsingle.put name ⟨isFunction, false, false, params, body⟩
      cases gnu with
      | none => exact hput
      | some gnu =>
          show ((t.put name _).setVariadic name gnu).Single
          rw [Table.setVariadic]
          split
          · exact hput.write _ _ _
          · exact hput
  | undef name => exact hsingle.undef name
  | pushMacro name => exact hsingle
  | popMacro name => exact hsingle.popMacro name

/-! ## The cell of a name -/

theorem cell_define (isFunction : Bool) (params : List String) (body : String) (gnu : Option Bool) (n : String) :
    (t.define name isFunction params body gnu).cell n =
      if name = n then { t.cell n with current := some (defined isFunction params body gnu) } else t.cell n := by
  have hstack : (t.define name isFunction params body gnu).stack = t.stack := by
    cases gnu with
    | none => exact stack_put _
    | some gnu => exact (stack_setVariadic gnu).trans (stack_put _)
  rw [cell, lookup_define, hstack]
  by_cases hn : name = n
  · rw [if_pos hn, if_pos hn.symm]
    rfl
  · rw [if_neg hn, if_neg fun h => hn h.symm]
    rfl

theorem cell_undef (hsingle : t.Single) (n : String) :
    (t.undef name).cell n = if name = n then { t.cell n with current := none } else t.cell n := by
  rw [cell, lookup_undef hsingle]
  by_cases hn : name = n
  · rw [if_pos hn, if_pos hn.symm]
    rfl
  · rw [if_neg hn, if_neg fun h => hn h.symm]
    rfl

theorem cell_pushMacro (n : String) :
    (t.pushMacro name).cell n = if name = n then Change.push.apply (t.cell n) else t.cell n := by
  show Cell.mk (t.lookup n) ((List.filter _ (⟨name, t.lookup name⟩ :: t.stack)).map _) = _
  rw [List.filter_cons]
  by_cases hn : name = n
  · subst hn
    rw [if_pos (decide_eq_true rfl), if_pos rfl]
    rfl
  · rw [if_neg (fun h => hn (of_decide_eq_true h)), if_neg hn]
    rfl

/-- The newest of the name is taken from the stack, and those of other names stay. -/
theorem cell_popMacro (hsingle : t.Single) (n : String) :
    (t.popMacro name).cell n = if name = n then Change.pop.apply (t.cell n) else t.cell n := by
  have hhead : t.stack.find? (fun ms => ms.name = name) = (t.stack.filter fun ms => ms.name = name).head? := List.head?_filter.symm
  rw [popMacro]
  split
  · next hnone =>
      split
      · next hn =>
          subst hn
          rw [hhead, List.head?_eq_none_iff] at hnone
          have hsaved : (t.cell name).saved = [] := by rw [cell, hnone]; rfl
          rw [Change.apply, hsaved]
      · rfl
  · next ms hfound =>
      have hpopped : (t.setStack (t.stack.eraseP fun ms => ms.name = name)).Single := hsingle
      -- the definition is the one that was pushed, and the rest of the stack is without it
      have hrestore : ∀ t' : Table, (∀ n, t'.lookup n = if n = name then ms.definition else t.lookup n) →
          t'.stack = t.stack.eraseP (fun ms => ms.name = name) →
          t'.cell n = if name = n then Change.pop.apply (t.cell n) else t.cell n := by
        intro t' hlookup hstack
        rw [cell, hlookup, hstack]
        by_cases hn : name = n
        · subst hn
          rw [hhead] at hfound
          obtain ⟨rest, hrest⟩ := List.head?_eq_some_iff.mp hfound
          have hsaved : (t.cell name).saved = ms.definition :: rest.map MacroStack.definition := by
            rw [cell, hrest]
            rfl
          rw [if_pos rfl, if_pos rfl, Change.apply, hsaved, filter_eraseP_self, hrest]
          rfl
        · rw [if_neg fun h => hn h.symm, if_neg hn, filter_eraseP]
          · rfl
          · exact fun ms' hms => decide_eq_false fun h => hn ((of_decide_eq_true hms).symm.trans h)
      dsimp only
      split
      · next hnone => exact hrestore _ (fun n => by rw [lookup_undef hpopped, hnone]; rfl) rfl
      · next d hd => exact hrestore _ (fun n => by rw [lookup_put, hd]; rfl) (stack_put _)

/-- An operation changes the cell of its name. -/
theorem cell_apply (hsingle : t.Single) (a : FileAct) (n : String) :
    (a.1.apply t).cell n = if a.change.1 = n then a.change.2.apply (t.cell n) else t.cell n := by
  obtain ⟨a, ha⟩ := a
  cases a with
  | option | save | clear => exact absurd ha nofun
  | define name isFunction params body gnu => exact cell_define isFunction params body gnu n
  | undef name => exact cell_undef hsingle n
  | pushMacro name => exact cell_pushMacro n
  | popMacro name => exact cell_popMacro hsingle n

theorem cell_run (hsingle : t.Single) (acts : List FileAct) (n : String) :
    (FileAct.run acts t).cell n = (Brackets.changesOf FileAct.change n acts).foldl Change.apply (t.cell n) :=
  Brackets.view_run (fun _ a hs => hs.apply a) (fun _ a n hs => cell_apply hs a n) hsingle acts n

end Table

variable {t : Table} {name : String} {acts : List FileAct}

/-- A name stands behind balanced operations for what it did before, when it was pushed
and is popped, and every other name for what the operations alone make of it. -/
theorem pushed_balanced_popped (hsingle : t.Single) (hbalanced : Balanced name acts) :
    (FileAct.run (⟨.pushMacro name, trivial⟩ :: acts ++ [⟨.popMacro name, trivial⟩]) t).lookup name = t.lookup name ∧
      ∀ n, n ≠ name → (FileAct.run (⟨.pushMacro name, trivial⟩ :: acts ++ [⟨.popMacro name, trivial⟩]) t).lookup n =
        (FileAct.run acts t).lookup n := by
  have hchanges : ∀ n, Brackets.changesOf FileAct.change n (⟨.pushMacro name, trivial⟩ :: acts ++ [⟨.popMacro name, trivial⟩]) =
      if name = n then Change.push :: Brackets.changesOf FileAct.change n acts ++ [Change.pop]
      else Brackets.changesOf FileAct.change n acts := by
    intro n
    rw [List.cons_append, Brackets.changesOf_cons, Brackets.changesOf_append, Brackets.changesOf_cons]
    show (if name = n then _ else _) = _
    split
    · next hn => rw [if_pos (show (FileAct.change ⟨.popMacro name, trivial⟩).1 = n from hn)]; rfl
    · next hn =>
        rw [if_neg (show ¬ (FileAct.change ⟨.popMacro name, trivial⟩).1 = n from hn)]
        exact List.append_nil _
  constructor
  · have hcell := Table.cell_run hsingle (⟨.pushMacro name, trivial⟩ :: acts ++ [⟨.popMacro name, trivial⟩]) name
    rw [hchanges, if_pos rfl, Brackets.bracket hbalanced] at hcell
    exact congrArg Cell.current hcell
  · intro n hn
    have hcell := Table.cell_run hsingle (⟨.pushMacro name, trivial⟩ :: acts ++ [⟨.popMacro name, trivial⟩]) n
    rw [hchanges, if_neg fun h => hn h.symm, ← Table.cell_run hsingle] at hcell
    exact congrArg Cell.current hcell

/-- `B` is pushed and not popped, and `A` is pushed and popped again. -/
def interleaved : List FileAct :=
  [⟨.define "A" false [] "2" none, trivial⟩, ⟨.pushMacro "B", trivial⟩, ⟨.pushMacro "A", trivial⟩,
    ⟨.define "A" true ["x"] "x" (some false), trivial⟩, ⟨.popMacro "A", trivial⟩]

theorem interleaved_popped :
    (FileAct.run (⟨.pushMacro "A", trivial⟩ :: interleaved ++ [⟨.popMacro "A", trivial⟩]) .empty).lookup "A" =
        Table.empty.lookup "A" ∧
      ∀ n, n ≠ "A" → (FileAct.run (⟨.pushMacro "A", trivial⟩ :: interleaved ++ [⟨.popMacro "A", trivial⟩]) .empty).lookup n =
        (FileAct.run interleaved .empty).lookup n :=
  pushed_balanced_popped (fun _ => Nat.zero_le 1) rfl

end Rcc.Macros

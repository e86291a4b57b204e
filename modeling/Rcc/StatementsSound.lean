import Mathlib
import Rcc.StatementLabels

/-!
# The code of statements does what they say

A state of the source belongs to a place in the code: where a statement is run its code begins, and what is left to do
behind it is found behind its code, after jumps and labels at most (`Follows`). A jump to a label gets there, as each label is printed once.

A statement that leaves a list, or a `switch`, does nothing in the code. But then less is left to do, and so the code does not stand still in a run
without end.
-/

namespace Rcc.Statements

open Outcomes
open Switch (Case)

variable {E σ : Type*} {x : Expressions E} {fn : String} {m : Meaning E σ} {full code : List (Line E)} {s s' t : Stmt E} {k k' : Cont E}
  {ctrl : Ctrl} {l l' L : Labels} {pc pc' : Nat} {v v' : σ} {y : Label}

/-! ## Places in the code -/

/-- The lines are at this place. -/
def At (full : List (Line E)) (pc : Nat) (code : List (Line E)) : Prop := code <+: full.drop pc

namespace At

variable {c d : List (Line E)} {line : Line E}

theorem left (h : At full pc (c ++ d)) : At full pc c := (List.prefix_append c d).trans h

theorem right (h : At full pc (c ++ d)) : At full (pc + c.length) d := by
  obtain ⟨rest, hrest⟩ := h
  refine ⟨rest, ?_⟩
  rw [← List.drop_drop, ← hrest, List.append_assoc, List.drop_left]

theorem head (h : At full pc (line :: c)) : full[pc]? = some line := by
  obtain ⟨rest, hrest⟩ := h
  have hget := congrArg (·[0]?) hrest
  simpa using hget.symm

theorem tail (h : At full pc (line :: c)) : At full (pc + 1) c := right (c := [line]) h

end At

theorem place_eq (hnodup : (labels full).Nodup) (hat : full[pc]? = some (.label y)) : place full y = some pc := by
  induction full generalizing pc with
  | nil => simp at hat
  | cons line rest ih =>
      rw [place, List.findIdx?_cons]
      cases pc with
      | zero =>
          simp only [List.getElem?_cons_zero, Option.some_inj] at hat
          simp [hat, Line.isLabel]
      | succ pc =>
          rw [List.getElem?_cons_succ] at hat
          have hmem : y ∈ labels rest := List.mem_filterMap.mpr ⟨_, List.mem_of_getElem? hat, rfl⟩
          have hrest : (labels rest).Nodup := by
            cases line with
            | label name => exact (List.nodup_cons.mp hnodup).2
            | _ => exact hnodup
          have hline : line.isLabel y = false := by
            cases line with
            | label name =>
                refine decide_eq_false fun heq => ?_
                subst heq
                exact (List.nodup_cons.mp hnodup).1 hmem
            | _ => rfl
          rw [hline]
          have hplace := ih hrest hat
          rw [place] at hplace
          simp [hplace]

theorem place_none (h : y ∉ labels full) : place full y = none := by
  rw [place, List.findIdx?_eq_none_iff]
  intro line hline
  cases line with
  | label name =>
      refine decide_eq_false fun heq => h ?_
      subst heq
      exact List.mem_filterMap.mpr ⟨_, hline, rfl⟩
  | _ => rfl

/-- A label that is passed, or a jump that is taken. -/
inductive Slide (full : List (Line E)) : Nat → Nat → Prop
  | label {pc : Nat} {y : Label} (hat : full[pc]? = some (.label y)) : Slide full pc (pc + 1)
  | jmp {pc pc' : Nat} {y : Label} (hat : full[pc]? = some (.jmp y)) (hplace : place full y = some pc') : Slide full pc pc'

def Slides (full : List (Line E)) : Nat → Nat → Prop := Relation.ReflTransGen (Slide full)

/-! ### One step of the code -/

theorem step_of_line {line : Line E} (hat : full[pc]? = some line) : stepCode fn m full (pc, v) = line.run fn m full pc v := by
  rw [stepCode, hat, Option.bind_some]

theorem step_act {e : E} (hat : full[pc]? = some (.act e)) (hact : m.act e v = some v') :
    stepCode fn m full (pc, v) = some (pc + 1, v') := by
  rw [step_of_line hat, Line.run, hact, Option.map_some]

theorem step_label (hat : full[pc]? = some (.label y)) : stepCode fn m full (pc, v) = some (pc + 1, v) := step_of_line hat

theorem step_jmp (hat : full[pc]? = some (.jmp y)) (hplace : place full y = some pc') : stepCode fn m full (pc, v) = some (pc', v) := by
  rw [step_of_line hat, Line.run, hplace, Option.map_some]

theorem Slides.reached (h : Slides full pc pc') (v : σ) : Loops.Reached (stepCode fn m full) (pc, v) (pc', v) := by
  induction h with
  | refl => exact .refl
  | tail _ hslide ih =>
      cases hslide with
      | label hat => exact ih.tail (step_label hat)
      | jmp hat hplace => exact ih.tail (step_jmp hat hplace)

/-! ## What is left to do -/

/-- Is there a loop to continue? -/
def Cont.inLoop : Cont E → Bool
  | .stop => false
  | .seq _ k => k.inLoop
  | .for_ .. => true
  | .do_ .. => true
  | .switch_ k => k.inLoop

/-- A `for` from its first label on. -/
structure ForAt (x : Expressions E) (fn : String) (L : Labels) (full : List (Line E)) (cond inc : Option E) (t : Stmt E) (n : Nat)
    (ctrl : Ctrl) (begin_ : Nat) (code : List (Line E)) : Prop where
  printed : ∃ l l', Printed x fn ((n, n) :: ctrl) t l code l' ∧ l'.Le L
  at_ : At full begin_ (.label (.begin_ n) :: (testLines (.end_ n) cond ++ (code ++ .label (.continue_ n) :: (actLines inc ++
    [.jmp (.begin_ n), .label (.end_ n)]))))
  loops : t.ContinuesInLoops true

/-- A `do` from its first label on. -/
structure DoAt (x : Expressions E) (fn : String) (L : Labels) (full : List (Line E)) (t : Stmt E) (cond : E) (n : Nat)
    (ctrl : Ctrl) (begin_ : Nat) (code : List (Line E)) : Prop where
  printed : ∃ l l', Printed x fn ((n, n) :: ctrl) t l code l' ∧ l'.Le L
  at_ : At full begin_ (.label (.begin_ n) :: (code ++ [.label (.continue_ n), .jumpIf cond (.begin_ n), .label (.end_ n)]))
  loops : t.ContinuesInLoops true

/-- What is left to do is found at this place, or at the end of some labels and jumps from there. -/
inductive Follows (x : Expressions E) (fn : String) (L : Labels) (full : List (Line E)) : Cont E → Ctrl → Nat → Prop
  | stop {pc pc' : Nat} (hslides : Slides full pc pc') (hat : full[pc']? = some (.label (.return_ fn))) (hend : full.length = pc' + 1) :
      Follows x fn L full .stop [] pc
  | seq {t : Stmt E} {k : Cont E} {ctrl : Ctrl} {pc pc' : Nat} {l l' : Labels} {code : List (Line E)} (hslides : Slides full pc pc')
      (hprinted : Printed x fn ctrl t l code l') (hle : l'.Le L) (hat : At full pc' code) (hloops : t.ContinuesInLoops k.inLoop)
      (hnext : Follows x fn L full k ctrl (pc' + code.length)) : Follows x fn L full (.seq t k) ctrl pc
  | for_ {cond inc : Option E} {t : Stmt E} {k : Cont E} {ctrl : Ctrl} {n pc begin_ : Nat} {code : List (Line E)}
      (hfor : ForAt x fn L full cond inc t n ctrl begin_ code)
      (hslides : Slides full pc (begin_ + 1 + (testLines (.end_ n) cond : List (Line E)).length + code.length))
      (hnext : Follows x fn L full k ctrl (begin_ + 1 + (testLines (.end_ n) cond : List (Line E)).length + code.length + 1 +
        (actLines inc).length + 2)) :
      Follows x fn L full (.for_ cond inc t k) ((n, n) :: ctrl) pc
  | do_ {t : Stmt E} {cond : E} {k : Cont E} {ctrl : Ctrl} {n pc begin_ : Nat} {code : List (Line E)}
      (hdo : DoAt x fn L full t cond n ctrl begin_ code) (hslides : Slides full pc (begin_ + 1 + code.length))
      (hnext : Follows x fn L full k ctrl (begin_ + 1 + code.length + 3)) :
      Follows x fn L full (.do_ t cond k) ((n, n) :: ctrl) pc
  | switch_ {k : Cont E} {ctrl : Ctrl} {n pc pc' : Nat} (hslides : Slides full pc pc') (hat : full[pc']? = some (.label (.end_ n)))
      (hnext : Follows x fn L full k ctrl (pc' + 1)) : Follows x fn L full (.switch_ k) ((n, outerContinue n ctrl) :: ctrl) pc

theorem Follows.slides (h : Follows x fn L full k ctrl pc') (hslides : Slides full pc pc') : Follows x fn L full k ctrl pc := by
  cases h with
  | stop h hat hend => exact .stop (hslides.trans h) hat hend
  | seq h hprinted hle hat hloops hnext => exact .seq (hslides.trans h) hprinted hle hat hloops hnext
  | for_ hfor h hnext => exact .for_ hfor (hslides.trans h) hnext
  | do_ hdo h hnext => exact .do_ hdo (hslides.trans h) hnext
  | switch_ h hat hnext => exact .switch_ (hslides.trans h) hat hnext

theorem Follows.slide (h : Follows x fn L full k ctrl pc') (hslide : Slide full pc pc') : Follows x fn L full k ctrl pc :=
  h.slides (.single hslide)

theorem Follows.of_eq (h : Follows x fn L full k ctrl pc) (heq : pc = pc') : Follows x fn L full k ctrl pc' := heq ▸ h

/-- In a loop there is something on the stacks. -/
theorem Follows.ctrl_ne_nil (h : Follows x fn L full k ctrl pc) (hloop : k.inLoop = true) : ctrl ≠ [] := by
  induction h with
  | stop => cases hloop
  | seq _ _ _ _ _ _ ih => exact ih hloop
  | for_ | do_ | switch_ => exact List.cons_ne_nil _ _

/-- A statement at a place, with what is left to do behind it. -/
structure RunAt (x : Expressions E) (fn : String) (L : Labels) (full : List (Line E)) (s : Stmt E) (k : Cont E) (pc : Nat) : Prop where
  printed : ∃ ctrl l code l', Printed x fn ctrl s l code l' ∧ l'.Le L ∧ At full pc code ∧ Follows x fn L full k ctrl (pc + code.length)
  loops : s.ContinuesInLoops k.inLoop

/-! ## Bodies -/

theorem At.last {line : Line E} (h : At full pc (code ++ [line])) : full[pc + code.length]? = some line := h.right.head

section Bodies

variable {cond e : E} {init c inc : Option E} {code' : List (Line E)} {n : Nat}

/-- Behind the first statement of two. -/
theorem follows_seq {l₁ l₂ : Labels} (hsecond : Printed x fn ctrl t l₁ code' l₂) (hle : l₂.Le L) (hat : At full pc (code ++ code'))
    (hloops : t.ContinuesInLoops k.inLoop) (hnext : Follows x fn L full k ctrl (pc + (code ++ code').length)) :
    Follows x fn L full (.seq t k) ctrl (pc + code.length) := by
  rw [List.length_append, ← Nat.add_assoc] at hnext
  exact .seq .refl hsecond hle hat.right hloops hnext

/-- Behind a body with its label. -/
theorem follows_end (hat : At full pc (code ++ [.label y])) (hnext : Follows x fn L full k ctrl (pc + code.length + 1)) :
    Follows x fn L full k ctrl (pc + code.length) := hnext.slide (.label hat.last)

/-- Behind the first branch of an `if` the other one is jumped over. -/
theorem follows_then {y' : Label} (hnodup : (labels full).Nodup)
    (hat : At full pc (code ++ .jmp y :: .label y' :: (code' ++ [.label y])))
    (hnext : Follows x fn L full k ctrl (pc + code.length + 2 + code'.length + 1)) : Follows x fn L full k ctrl (pc + code.length) := by
  have hout : full[pc + code.length + 2 + code'.length]? = some (.label y) := hat.right.tail.tail.last
  have hjmp : full[pc + code.length]? = some (.jmp y) := hat.right.head
  exact (hnext.slide (.label hout)).slide (.jmp hjmp (place_eq hnodup hout))

theorem follows_switch (hat : At full pc (code ++ [.label (.end_ n)])) (hnext : Follows x fn L full k ctrl (pc + code.length + 1)) :
    Follows x fn L full (.switch_ k) ((n, outerContinue n ctrl) :: ctrl) (pc + code.length) := .switch_ .refl hat.last hnext

theorem ForAt.follows {begin_ : Nat} (h : ForAt x fn L full c inc t n ctrl begin_ code)
    (hnext : Follows x fn L full k ctrl (begin_ + 1 + (testLines (.end_ n) c : List (Line E)).length + code.length + 1 +
      (actLines inc).length + 2)) :
    Follows x fn L full (.for_ c inc t k) ((n, n) :: ctrl) (begin_ + 1 + (testLines (.end_ n) c : List (Line E)).length + code.length) :=
  .for_ h .refl hnext

theorem DoAt.follows {begin_ : Nat} (h : DoAt x fn L full t cond n ctrl begin_ code)
    (hnext : Follows x fn L full k ctrl (begin_ + 1 + code.length + 3)) :
    Follows x fn L full (.do_ t cond k) ((n, n) :: ctrl) (begin_ + 1 + code.length) := .do_ h .refl hnext

end Bodies

/-! ## Statements at their places -/

namespace RunAt

variable {cond e : E} {init inc : Option E} {name : String} {id : Nat} {c : Option Case} {els : Stmt E}

/-- Nothing is generated for `null`. -/
theorem null (h : RunAt x fn L full .null k pc) : ∃ ctrl, Follows x fn L full k ctrl pc := by
  obtain ⟨ctrl, l, code, l', hprinted, hle, hat, hnext⟩ := h.printed
  cases hprinted
  exact ⟨ctrl, hnext⟩

theorem act (h : RunAt x fn L full (.act e) k pc) : full[pc]? = some (.act e) ∧ ∃ ctrl, Follows x fn L full k ctrl (pc + 1) := by
  obtain ⟨ctrl, l, code, l', hprinted, hle, hat, hnext⟩ := h.printed
  cases hprinted
  exact ⟨hat.head, ctrl, hnext⟩

theorem seq (h : RunAt x fn L full (.seq s t) k pc) : RunAt x fn L full s (.seq t k) pc ∧ ∃ pc', RunAt x fn L full t k pc' := by
  obtain ⟨ctrl, l, code, l', hprinted, hle, hat, hnext⟩ := h.printed
  obtain ⟨hloops, hloops'⟩ := h.loops
  cases hprinted with
  | @seq _ _ _ _ l₁ _ first second hfirst hsecond =>
      have hbehind := follows_seq hsecond hle hat hloops' hnext
      refine ⟨⟨⟨ctrl, l, first, l₁, hfirst, hsecond.le.trans hle, hat.left, hbehind⟩, hloops⟩, pc + first.length, ?_⟩
      rw [List.length_append, ← Nat.add_assoc] at hnext
      exact ⟨⟨ctrl, l₁, second, l', hsecond, hle, hat.right, hnext⟩, hloops'⟩

theorem if_ (hnodup : (labels full).Nodup) (h : RunAt x fn L full (.if_ cond t) k pc) :
    ∃ y pe ctrl, full[pc]? = some (.jumpUnless cond y) ∧ RunAt x fn L full t k (pc + 1) ∧ place full y = some pe ∧
      Follows x fn L full k ctrl pe := by
  obtain ⟨ctrl, l, code, l', hprinted, hle, hat, hnext⟩ := h.printed
  cases hprinted with
  | @if_ _ _ _ _ _ code hthen =>
      have hend := hat.tail.last
      have hbehind : Follows x fn L full k ctrl (pc + 1 + code.length + 1) := hnext.of_eq (by simp; omega)
      exact ⟨_, _, ctrl, hat.head, ⟨⟨ctrl, _, code, l', hthen, hle, hat.tail.left, follows_end hat.tail hbehind⟩, h.loops⟩,
        place_eq hnodup hend, follows_end hat.tail hbehind⟩

theorem ifElse (hnodup : (labels full).Nodup) (h : RunAt x fn L full (.ifElse cond t els) k pc) :
    ∃ y pe, full[pc]? = some (.jumpUnless cond y) ∧ RunAt x fn L full t k (pc + 1) ∧ place full y = some pe ∧
      full[pe]? = some (.label y) ∧ RunAt x fn L full els k (pe + 1) := by
  obtain ⟨ctrl, l, code, l', hprinted, hle, hat, hnext⟩ := h.printed
  obtain ⟨hloops, hloops'⟩ := h.loops
  cases hprinted with
  | @ifElse _ _ _ _ _ l₁ _ code code' hthen hels =>
      have helse := hat.tail.right.tail.head
      have hbehind : Follows x fn L full k ctrl (pc + 1 + code.length + 2 + code'.length + 1) := hnext.of_eq (by simp; omega)
      refine ⟨_, _, hat.head, ⟨⟨ctrl, _, code, l₁, hthen, hels.le.trans hle, hat.tail.left, ?_⟩, hloops⟩, place_eq hnodup helse, helse,
        ⟨ctrl, l₁, code', l', hels, hle, hat.tail.right.tail.tail.left, ?_⟩, hloops'⟩
      · exact follows_then hnodup hat.tail hbehind
      · exact follows_end hat.tail.right.tail.tail hbehind

end RunAt

/-- The body of a `for`. -/
theorem ForAt.runAt {cond inc : Option E} {n begin_ : Nat} (h : ForAt x fn L full cond inc t n ctrl begin_ code)
    (hnext : Follows x fn L full k ctrl (begin_ + 1 + (testLines (.end_ n) cond : List (Line E)).length + code.length + 1 +
      (actLines inc).length + 2)) :
    RunAt x fn L full t (.for_ cond inc t k) (begin_ + 1 + (testLines (.end_ n) cond : List (Line E)).length) := by
  obtain ⟨l, l', hprinted, hle⟩ := h.printed
  exact ⟨⟨_, l, code, l', hprinted, hle, h.at_.tail.right.left, h.follows hnext⟩, h.loops⟩

theorem DoAt.runAt {cond : E} {n begin_ : Nat} (h : DoAt x fn L full t cond n ctrl begin_ code)
    (hnext : Follows x fn L full k ctrl (begin_ + 1 + code.length + 3)) : RunAt x fn L full t (.do_ t cond k) (begin_ + 1) := by
  obtain ⟨l, l', hprinted, hle⟩ := h.printed
  exact ⟨⟨_, l, code, l', hprinted, hle, h.at_.tail.left, h.follows hnext⟩, h.loops⟩

namespace RunAt

variable {cond e : E} {init c inc : Option E} {name : String} {id : Nat} {cs : Option Case}

theorem for_ (h : RunAt x fn L full (.for_ init c inc t) k pc) :
    At full pc (actLines init) ∧ ∃ n ctrl code, ForAt x fn L full c inc t n ctrl (pc + (actLines init).length) code ∧
      Follows x fn L full k ctrl (pc + (actLines init).length + 1 + (testLines (.end_ n) c : List (Line E)).length + code.length + 1 +
        (actLines inc).length + 2) := by
  obtain ⟨ctrl, l, code, l', hprinted, hle, hat, hnext⟩ := h.printed
  cases hprinted with
  | @for_ _ _ _ _ _ _ l₁ code hbody =>
      refine ⟨hat.left, l.count + 1, ctrl, code, ⟨⟨_, l₁, hbody, (Labels.le_take l₁ _).trans hle⟩, hat.right, h.loops⟩, ?_⟩
      exact hnext.of_eq (by simp; omega)

theorem do_ (h : RunAt x fn L full (.do_ t cond) k pc) :
    ∃ n ctrl code, DoAt x fn L full t cond n ctrl pc code ∧ Follows x fn L full k ctrl (pc + 1 + code.length + 3) := by
  obtain ⟨ctrl, l, code, l', hprinted, hle, hat, hnext⟩ := h.printed
  cases hprinted with
  | @do_ _ _ _ _ l₁ code hbody =>
      refine ⟨l.count + 1, ctrl, code, ⟨⟨_, l₁, hbody, (Labels.le_take l₁ _).trans hle⟩, hat, h.loops⟩, ?_⟩
      exact hnext.of_eq (by simp; omega)

/-- The body of a `switch`. -/
theorem switch_ (h : RunAt x fn L full (.switch_ cond t) k pc) : RunAt x fn L full t (.switch_ k) (pc + 1) := by
  obtain ⟨ctrl, l, code, l', hprinted, hle, hat, hnext⟩ := h.printed
  cases hprinted with
  | @switch_ _ _ _ _ l₁ _ code hlabels hbody =>
      have hbehind : Follows x fn L full k ctrl (pc + 1 + code.length + 1) := hnext.of_eq (by simp; omega)
      exact ⟨⟨_, l₁, code, l', hbody, hle, hat.tail.left, follows_switch hat.tail hbehind⟩, h.loops⟩

theorem case_ (h : RunAt x fn L full (.case_ id cs t) k pc) :
    full[pc]? = some (.label (.case_ (L.labelId id))) ∧ RunAt x fn L full t k (pc + 1) := by
  obtain ⟨ctrl, l, code, l', hprinted, hle, hat, hnext⟩ := h.printed
  cases hprinted with
  | @case_ _ _ _ _ _ _ code hlhs =>
      have hkept := (hlhs.le.trans hle).kept (l.assign_ne_zero id)
      refine ⟨hkept ▸ hat.head, ⟨ctrl, _, code, l', hlhs, hle, hat.tail, ?_⟩, h.loops⟩
      exact hnext.of_eq (by simp; omega)

theorem label (h : RunAt x fn L full (.label name t) k pc) :
    full[pc]? = some (.label (.label fn name)) ∧ RunAt x fn L full t k (pc + 1) := by
  obtain ⟨ctrl, l, code, l', hprinted, hle, hat, hnext⟩ := h.printed
  cases hprinted with
  | @label _ _ _ _ _ code hlhs =>
      refine ⟨hat.head, ⟨ctrl, _, code, l', hlhs, hle, hat.tail, ?_⟩, h.loops⟩
      exact hnext.of_eq (by simp; omega)

theorem break_ (h : RunAt x fn L full (.break_ e) k pc) :
    full[pc]? = some (.act e) ∧ ∃ n n' ctrl pc', full[pc + 1]? = some (.jmp (.end_ n)) ∧ Follows x fn L full k ((n, n') :: ctrl) pc' := by
  obtain ⟨ctrl, l, code, l', hprinted, hle, hat, hnext⟩ := h.printed
  cases hprinted
  exact ⟨hat.head, _, _, _, _, hat.tail.head, hnext⟩

theorem continue_ (h : RunAt x fn L full (.continue_ e) k pc) :
    full[pc]? = some (.act e) ∧ k.inLoop = true ∧
      ∃ n n' ctrl pc', full[pc + 1]? = some (.jmp (.continue_ n')) ∧ Follows x fn L full k ((n, n') :: ctrl) pc' := by
  obtain ⟨ctrl, l, code, l', hprinted, hle, hat, hnext⟩ := h.printed
  cases hprinted
  exact ⟨hat.head, h.loops, _, _, _, _, hat.tail.head, hnext⟩

theorem goto_ (h : RunAt x fn L full (.goto_ e name) k pc) :
    full[pc]? = some (.act e) ∧ full[pc + 1]? = some (.jmp (.label fn name)) := by
  obtain ⟨ctrl, l, code, l', hprinted, hle, hat, hnext⟩ := h.printed
  cases hprinted
  exact ⟨hat.head, hat.tail.head⟩

theorem gotoInd (h : RunAt x fn L full (.gotoInd e) k pc) : full[pc]? = some (.jmpTo e) := by
  obtain ⟨ctrl, l, code, l', hprinted, hle, hat, hnext⟩ := h.printed
  cases hprinted
  exact hat.head

theorem return_ (h : RunAt x fn L full (.return_ e) k pc) :
    full[pc]? = some (.act e) ∧ full[pc + 1]? = some (.jmp (.return_ fn)) := by
  obtain ⟨ctrl, l, code, l', hprinted, hle, hat, hnext⟩ := h.printed
  cases hprinted
  exact ⟨hat.head, hat.tail.head⟩

end RunAt

/-! ## Jumps to labels -/

namespace Mark

def In : Mark → Stmt E → Prop
  | .name f, s => f ∈ s.names
  | .case_ id, s => id ∈ s.ids

def label (fn : String) (L : Labels) : Mark → Label
  | .name f => .label fn f
  | .case_ id => .case_ (L.labelId id)

theorem in_seq {mark : Mark} : mark.In (.seq s t) ↔ mark.In s ∨ mark.In t := by cases mark <;> exact List.mem_append

theorem in_ifElse {mark : Mark} {cond : E} : mark.In (.ifElse cond s t) ↔ mark.In s ∨ mark.In t := by cases mark <;> exact List.mem_append

theorem in_case {mark : Mark} {id : Nat} {c : Option Case} (h : mark.In (.case_ id c s)) : mark = .case_ id ∨ mark.In s := by
  cases mark with
  | name f => exact .inr h
  | case_ id' => exact (List.mem_cons.mp h).imp (congrArg Mark.case_) fun hin => hin

theorem in_label {mark : Mark} {f : String} (h : mark.In (.label f s)) : mark = .name f ∨ mark.In s := by
  cases mark with
  | name f => exact (List.mem_cons.mp h).imp (congrArg Mark.name) fun hin => hin
  | case_ id => exact .inr h

end Mark

variable {mark : Mark}

theorem Stmt.not_in_of_find (h : s.find mark k = none) : ¬ mark.In s := by
  induction s generalizing k with
  | seq s t ihs iht =>
      obtain ⟨hs, ht⟩ := Option.or_eq_none_iff.mp h
      exact fun hin => (Mark.in_seq.mp hin).elim (ihs hs) (iht ht)
  | ifElse cond s t ihs iht =>
      obtain ⟨hs, ht⟩ := Option.or_eq_none_iff.mp h
      exact fun hin => (Mark.in_ifElse.mp hin).elim (ihs hs) (iht ht)
  | if_ _ t ih | for_ _ _ _ t ih | do_ t _ ih | switch_ _ t ih => cases mark <;> exact ih h
  | case_ id c t ih =>
      rw [Stmt.find] at h
      split at h
      · cases h
      · next hne => exact fun hin => (Mark.in_case hin).elim hne (ih h)
  | label name t ih =>
      rw [Stmt.find] at h
      split at h
      · cases h
      · next hne => exact fun hin => (Mark.in_label hin).elim hne (ih h)
  | _ => cases mark <;> exact List.not_mem_nil

/-- The statement that is found stands behind its label. -/
theorem RunAt.find (hnodup : (labels full).Nodup) (h : RunAt x fn L full s k pc) (hfind : s.find mark k = some (s', k')) :
    ∃ pc', full[pc']? = some (.label (mark.label fn L)) ∧ RunAt x fn L full s' k' pc' := by
  induction s generalizing k pc with
  | seq s t ihs iht =>
      obtain ⟨hfirst, pc₁, hsecond⟩ := h.seq
      rcases Option.or_eq_some_iff.mp hfind with hfind | ⟨-, hfind⟩
      · exact ihs hfirst hfind
      · exact iht hsecond hfind
  | if_ cond t ih =>
      obtain ⟨-, -, -, -, hthen, -⟩ := h.if_ hnodup
      exact ih hthen hfind
  | ifElse cond t e iht ihe =>
      obtain ⟨-, pe, -, hthen, -, -, hels⟩ := h.ifElse hnodup
      rcases Option.or_eq_some_iff.mp hfind with hfind | ⟨-, hfind⟩
      · exact iht hthen hfind
      · exact ihe hels hfind
  | for_ init cond inc t ih =>
      obtain ⟨-, n, ctrl, code, hfor, hnext⟩ := h.for_
      exact ih (hfor.runAt hnext) hfind
  | do_ t cond ih =>
      obtain ⟨n, ctrl, code, hdo, hnext⟩ := h.do_
      exact ih (hdo.runAt hnext) hfind
  | switch_ cond t ih => exact ih h.switch_ hfind
  | case_ id c t ih =>
      obtain ⟨hlabel, hlhs⟩ := h.case_
      rw [Stmt.find] at hfind
      split at hfind
      · next hmark =>
          cases hfind
          subst hmark
          exact ⟨pc, by rw [Mark.label, hlabel], h⟩
      · exact ih hlhs hfind
  | label name t ih =>
      obtain ⟨hlabel, hlhs⟩ := h.label
      rw [Stmt.find] at hfind
      split at hfind
      · next hmark =>
          cases hfind
          subst hmark
          exact ⟨pc, by rw [Mark.label, hlabel], h⟩
      · exact ih hlhs hfind
  | _ => cases hfind

/-! ### The dispatch of a `switch` -/

theorem Stmt.cases_ids : ∀ c ∈ s.cases, c.1 ∈ s.ids := by
  induction s with
  | seq s t ihs iht | ifElse _ s t ihs iht =>
      intro c hc
      exact List.mem_append.mpr ((List.mem_append.mp hc).imp (ihs c) (iht c))
  | if_ _ t ih | for_ _ _ _ t ih | do_ t _ ih | label _ t ih => exact ih
  | case_ id c t ih =>
      intro d hd
      cases c with
      | none => exact List.mem_cons_of_mem _ (ih d hd)
      | some c =>
          rcases List.mem_append.mp hd with hd | hd
          · exact List.mem_cons_of_mem _ (ih d hd)
          · rw [List.mem_singleton.mp hd]
            exact List.mem_cons_self
  | _ =>
      intro c hc
      cases hc

theorem Stmt.defaults_ids : s.defaults ⊆ s.ids := by
  induction s with
  | seq s t ihs iht | ifElse _ s t ihs iht =>
      intro id hid
      exact List.mem_append.mpr ((List.mem_append.mp hid).imp (@ihs id) (@iht id))
  | if_ _ t ih | for_ _ _ _ t ih | do_ t _ ih | label _ t ih => exact ih
  | case_ id c t ih =>
      intro d hd
      cases c with
      | some c => exact List.mem_cons_of_mem _ (ih hd)
      | none =>
          rcases List.mem_append.mp hd with hd | hd
          · exact List.mem_cons_of_mem _ (ih hd)
          · rw [List.mem_singleton.mp hd]
            exact List.mem_cons_self
  | _ =>
      intro id hid
      cases hid

variable {test : Case → Bool} {id : Nat}

theorem Stmt.selected_cases (h : s.selected test = some id) : (∃ c ∈ s.caseNext, c.1 = id) ∨ s.defaultCase = some id := by
  rcases Option.or_eq_some_iff.mp h with h | ⟨-, h⟩
  · obtain ⟨c, hc, hid⟩ := Option.map_eq_some_iff.mp h
    exact .inl ⟨c, List.mem_of_find?_eq_some hc, hid⟩
  · exact .inr h

theorem Stmt.switch_ids (h : (∃ c ∈ s.caseNext, c.1 = id) ∨ s.defaultCase = some id) : id ∈ s.ids := by
  rcases h with ⟨c, hc, rfl⟩ | hdefault
  · exact Stmt.cases_ids c (List.mem_reverse.mp hc)
  · exact Stmt.defaults_ids (List.mem_of_getLast? hdefault)

theorem dispatched_selected (l : Labels) (n : Nat) (s : Stmt E) (test : Case → Bool) :
    dispatched (s.caseNext.map fun c => (l.labelId c.1, c.2)) (dispatchOut l n s.defaultCase) test =
      match s.selected test with
      | some id => .case_ (l.labelId id)
      | none => .end_ n := by
  rw [dispatched, Stmt.selected, List.find?_map]
  have hcomp : ((fun c : Nat × Case => test c.2) ∘ fun c : Nat × Case => (l.labelId c.1, c.2)) = fun c : Nat × Case => test c.2 := rfl
  rw [hcomp]
  cases s.caseNext.find? fun c => test c.2 with
  | some c => rfl
  | none => cases s.defaultCase <;> rfl

/-- A case of a `switch` has its number before the body is generated. -/
theorem assigned_of_switch (h : (∃ c ∈ s.caseNext, c.1 = id) ∨ s.defaultCase = some id) (l : Labels) :
    (Labels.assignDefault s.defaultCase (Labels.assignCases s.caseNext l)).labelId id ≠ 0 := by
  rcases h with ⟨c, hc, rfl⟩ | hdefault
  · have hassigned := Labels.assignCases_ne_zero hc l
    rw [(Labels.le_assignDefault s.defaultCase _).kept hassigned]
    exact hassigned
  · rw [hdefault]
    exact Labels.assign_ne_zero _ id

theorem RunAt.dispatch {cond : E} (hnodup : (labels full).Nodup) (h : RunAt x fn L full (.switch_ cond t) k pc) :
    ∃ cases out, full[pc]? = some (.dispatch cond cases out) ∧
      (∀ test id, t.selected test = some id → dispatched cases out test = .case_ (L.labelId id)) ∧
      ∀ test, t.selected test = none → ∃ pe ctrl, place full (dispatched cases out test) = some pe ∧
        Follows x fn L full (.switch_ k) ctrl pe := by
  obtain ⟨ctrl, l, code, l', hprinted, hle, hat, hnext⟩ := h.printed
  cases hprinted with
  | @switch_ _ _ _ _ l₁ _ code hlabels hbody =>
      have hbehind : Follows x fn L full k ctrl (pc + 1 + code.length + 1) := hnext.of_eq (by simp; omega)
      refine ⟨_, _, hat.head, fun test id hselected => ?_, fun test hselected => ?_⟩
      · rw [dispatched_selected, hselected]
        have hassigned : l₁.labelId id ≠ 0 := hlabels ▸ assigned_of_switch (Stmt.selected_cases hselected) _
        exact congrArg Label.case_ ((hbody.le.trans hle).kept hassigned).symm
      · rw [dispatched_selected, hselected]
        exact ⟨_, _, place_eq hnodup hat.tail.last, follows_switch hat.tail hbehind⟩

/-! ## The simulation -/

/-- The code of a whole function. -/
structure Whole (x : Expressions E) (fn : String) (L : Labels) (full : List (Line E)) (body : Stmt E) : Prop where
  printed : ∃ l code, Printed x fn [] body l code L ∧ full = code ++ [.label (.return_ fn)]
  nodup : (labels full).Nodup
  loops : body.ContinuesInLoops false

/-- Where the code is when the source is in a state. -/
inductive Matches (x : Expressions E) (fn : String) (L : Labels) (full : List (Line E)) : State E σ → Nat × σ → Prop
  | run {s : Stmt E} {k : Cont E} {v : σ} {pc : Nat} (hrun : RunAt x fn L full s k pc) : Matches x fn L full (.run s k v) (pc, v)
  | head {cond inc : Option E} {t : Stmt E} {k : Cont E} {v : σ} {n pc : Nat} {ctrl : Ctrl} {code : List (Line E)}
      (hfor : ForAt x fn L full cond inc t n ctrl pc code)
      (hnext : Follows x fn L full k ctrl (pc + 1 + (testLines (.end_ n) cond : List (Line E)).length + code.length + 1 +
        (actLines inc).length + 2)) :
      Matches x fn L full (.head cond inc t k v) (pc, v)
  | leave {k : Cont E} {v : σ} {pc : Nat} {ctrl : Ctrl} (hnext : Follows x fn L full k ctrl pc) : Matches x fn L full (.leave k v) (pc, v)
  | brk {k : Cont E} {v : σ} {pc pc' n n' : Nat} {ctrl : Ctrl} (hat : full[pc]? = some (.jmp (.end_ n)))
      (hnext : Follows x fn L full k ((n, n') :: ctrl) pc') : Matches x fn L full (.brk k v) (pc, v)
  | cnt {k : Cont E} {v : σ} {pc pc' n n' : Nat} {ctrl : Ctrl} (hat : full[pc]? = some (.jmp (.continue_ n')))
      (hloop : k.inLoop = true) (hnext : Follows x fn L full k ((n, n') :: ctrl) pc') : Matches x fn L full (.cnt k v) (pc, v)
  | done {v : σ} : Matches x fn L full (.done v) (full.length, v)

/-! ### Steps of the source without one of the code -/

def Stmt.size : Stmt E → Nat
  | seq s t => s.size + t.size + 1
  | if_ _ t => t.size + 1
  | ifElse _ t e => t.size + e.size + 1
  | for_ _ _ _ t => t.size + 1
  | do_ t _ => t.size + 1
  | switch_ _ t => t.size + 1
  | case_ _ _ t => t.size + 1
  | label _ t => t.size + 1
  | _ => 1

def Cont.weight : Cont E → Nat
  | .stop => 0
  | .seq t k => 3 * t.size + 1 + k.weight
  | .for_ _ _ _ k => 1 + k.weight
  | .do_ _ _ k => 1 + k.weight
  | .switch_ k => 1 + k.weight

/-- A statement weighs more than the list that goes on behind it. -/
def State.rank : State E σ → Nat
  | .run s k _ => 3 * s.size + k.weight
  | .head _ _ _ k _ => k.weight
  | .leave k _ => k.weight
  | .brk k _ => k.weight
  | .cnt k _ => k.weight
  | .done _ => 0

/-! ### Lines that are run -/

section Lines

variable {e : E} {o : Option E} {b : Bool} {line : Line E}

theorem result_none (hat : full[pc]? = some line) : resultCode full (pc, v) = none :=
  if_neg (Nat.not_le_of_lt (List.getElem?_eq_some_iff.mp hat).1)

theorem stuck_act (hat : full[pc]? = some (.act e)) (hact : m.act e v = none) : stepCode fn m full (pc, v) = none := by
  rw [step_of_line hat, Line.run, hact, Option.map_none]

theorem step_jumpUnless (hat : full[pc]? = some (.jumpUnless e y)) (htest : m.test e v = some (b, v')) (hplace : place full y = some pc') :
    stepCode fn m full (pc, v) = some (if b then pc + 1 else pc', v') := by
  rw [step_of_line hat, Line.run, htest, Option.bind_some, hplace]
  cases b <;> rfl

theorem stuck_jumpUnless (hat : full[pc]? = some (.jumpUnless e y)) (htest : m.test e v = none) :
    stepCode fn m full (pc, v) = none := by
  rw [step_of_line hat, Line.run, htest, Option.bind_none]

theorem step_jumpIf (hat : full[pc]? = some (.jumpIf e y)) (htest : m.test e v = some (b, v')) (hplace : place full y = some pc') :
    stepCode fn m full (pc, v) = some (if b then pc' else pc + 1, v') := by
  rw [step_of_line hat, Line.run, htest, Option.bind_some, hplace]
  cases b <;> rfl

theorem stuck_jumpIf (hat : full[pc]? = some (.jumpIf e y)) (htest : m.test e v = none) : stepCode fn m full (pc, v) = none := by
  rw [step_of_line hat, Line.run, htest, Option.bind_none]

theorem reached_acts (hat : At full pc (actLines o)) (hacts : m.acts o v = some v') :
    Loops.Reached (stepCode fn m full) (pc, v) (pc + (actLines o).length, v') := by
  cases o with
  | none =>
      cases hacts
      exact .refl
  | some e => exact .single (step_act hat.head hacts)

theorem stuck_acts (hat : At full pc (actLines o)) (hacts : m.acts o v = none) :
    stepCode fn m full (pc, v) = none ∧ resultCode full (pc, v) = none := by
  cases o with
  | none => cases hacts
  | some e => exact ⟨stuck_act hat.head hacts, result_none hat.head⟩

theorem reached_tests (hat : At full pc (testLines y o)) (htests : m.tests o v = some (b, v')) (hplace : place full y = some pc') :
    Loops.Reached (stepCode fn m full) (pc, v) (if b then pc + (testLines y o).length else pc', v') := by
  cases o with
  | none =>
      cases htests
      exact .refl
  | some e => exact .single (step_jumpUnless hat.head htests hplace)

theorem stuck_tests (hat : At full pc (testLines y o)) (htests : m.tests o v = none) :
    stepCode fn m full (pc, v) = none ∧ resultCode full (pc, v) = none := by
  cases o with
  | none => cases htests
  | some e => exact ⟨stuck_jumpUnless hat.head htests, result_none hat.head⟩

end Lines

namespace Whole

variable {body : Stmt E} {name : String}

theorem runAt (h : Whole x fn L full body) : RunAt x fn L full body .stop 0 := by
  obtain ⟨l, code, hprinted, rfl⟩ := h.printed
  refine ⟨⟨[], l, code, L, hprinted, .refl L, List.prefix_append code _, ?_⟩, h.loops⟩
  exact .stop .refl (by simp) (by simp)

theorem place_return (h : Whole x fn L full body) :
    ∃ pc, place full (.return_ fn) = some pc ∧ full[pc]? = some (.label (.return_ fn)) ∧ full.length = pc + 1 := by
  obtain ⟨l, code, hprinted, rfl⟩ := h.printed
  exact ⟨code.length, place_eq h.nodup (by simp), by simp, by simp⟩

/-- A jump to a name gets to the statement that has it. -/
theorem place_of_find (h : Whole x fn L full body) (hfind : body.find (.name name) .stop = some (s, k)) :
    ∃ pc, place full (.label fn name) = some pc ∧ RunAt x fn L full s k pc := by
  obtain ⟨pc, hat, hrun⟩ := h.runAt.find h.nodup hfind
  exact ⟨pc, place_eq h.nodup hat, hrun⟩

theorem place_of_not_find (h : Whole x fn L full body) (hfind : body.find (.name name) .stop = none) :
    place full (.label fn name) = none := by
  obtain ⟨l, code, hprinted, rfl⟩ := h.printed
  refine place_none fun hmem => Stmt.not_in_of_find hfind ?_
  rw [labels_append, List.mem_append] at hmem
  rcases hmem with hmem | hmem
  · exact (hprinted.owned _ hmem).2
  · simp at hmem

end Whole

/-! ### Steps that are matched -/

section Steps

variable {body : Stmt E} {st st' : State E σ} {c c' : Nat × σ}

/-- A step of the source to this state is matched from this place on. -/
def Matched (x : Expressions E) (fn : String) (L : Labels) (full : List (Line E)) (m : Meaning E σ) (st st' : State E σ) (c : Nat × σ) :
    Prop :=
  ∃ c', Matches x fn L full st' c' ∧ ((target fn m full).Passes c c' ∨ Loops.Reached (target fn m full).step c c' ∧ st'.rank < st.rank)

theorem Matched.of_step (hmatch : Matches x fn L full st' c') (hstep : stepCode fn m full c = some c') :
    Matched x fn L full m st st' c := ⟨c', hmatch, .inl (.of_step hstep)⟩

theorem Matched.of_steps {d : Nat × σ} (hmatch : Matches x fn L full st' c') (hstep : stepCode fn m full c = some d)
    (hrest : Loops.Reached (stepCode fn m full) d c') : Matched x fn L full m st st' c :=
  ⟨c', hmatch, .inl (System.Passes.trans_left (.of_step hstep) hrest)⟩

theorem Matched.of_rank (hmatch : Matches x fn L full st' c') (hreach : Loops.Reached (stepCode fn m full) c c') (hrank : st'.rank < st.rank) :
    Matched x fn L full m st st' c := ⟨c', hmatch, .inr ⟨hreach, hrank⟩⟩

theorem Stmt.size_pos (s : Stmt E) : 0 < s.size := by cases s <;> simp [Stmt.size]

theorem Whole.step_run (hwhole : Whole x fn L full body) (h : RunAt x fn L full s k pc)
    (hstep : (State.run s k v).step m body = some st) : Matched x fn L full m (.run s k v) st (pc, v) := by
  cases s with
  | null =>
      cases hstep
      obtain ⟨ctrl, hnext⟩ := h.null
      exact .of_rank (.leave hnext) .refl (by simp [State.rank, Stmt.size])
  | act e =>
      obtain ⟨v', hact, rfl⟩ := Option.map_eq_some_iff.mp hstep
      obtain ⟨hat, ctrl, hnext⟩ := h.act
      exact .of_step (.leave hnext) (step_act hat hact)
  | seq s t =>
      cases hstep
      refine .of_rank (.run h.seq.1) .refl ?_
      simp only [State.rank, Stmt.size, Cont.weight]
      omega
  | if_ cond t =>
      obtain ⟨⟨b, v'⟩, htest, rfl⟩ := Option.map_eq_some_iff.mp hstep
      obtain ⟨y, pe, ctrl, hat, hthen, hplace, hnext⟩ := h.if_ hwhole.nodup
      have hcode : stepCode fn m full (pc, v) = some (if b then pc + 1 else pe, v') := step_jumpUnless hat htest hplace
      cases b with
      | true => exact .of_step (.run hthen) hcode
      | false => exact .of_step (.leave hnext) hcode
  | ifElse cond t e =>
      obtain ⟨⟨b, v'⟩, htest, rfl⟩ := Option.map_eq_some_iff.mp hstep
      obtain ⟨y, pe, hat, hthen, hplace, helse, hels⟩ := h.ifElse hwhole.nodup
      have hcode : stepCode fn m full (pc, v) = some (if b then pc + 1 else pe, v') := step_jumpUnless hat htest hplace
      cases b with
      | true => exact .of_step (.run hthen) hcode
      | false => exact .of_steps (.run hels) hcode (.single (step_label helse))
  | for_ init cond inc t =>
      obtain ⟨v', hacts, rfl⟩ := Option.map_eq_some_iff.mp hstep
      obtain ⟨hat, n, ctrl, code, hfor, hnext⟩ := h.for_
      refine .of_rank (.head hfor hnext) (reached_acts hat hacts) ?_
      simp only [State.rank, Stmt.size]
      omega
  | do_ t cond =>
      cases hstep
      obtain ⟨n, ctrl, code, hdo, hnext⟩ := h.do_
      exact .of_step (.run (hdo.runAt hnext)) (step_label hdo.at_.head)
  | switch_ cond t =>
      obtain ⟨⟨test, v'⟩, hselect, hstep⟩ := Option.bind_eq_some_iff.mp hstep
      obtain ⟨cases, out, hat, hcase, hout⟩ := h.dispatch hwhole.nodup
      have hcode : stepCode fn m full (pc, v) = (place full (dispatched cases out test)).map (·, v') := by
        rw [step_of_line hat, Line.run, hselect, Option.bind_some]
      cases hselected : t.selected test with
      | none =>
          simp only [hselected, Option.some_inj] at hstep
          subst hstep
          obtain ⟨pe, ctrl, hplace, hnext⟩ := hout test hselected
          rw [hplace, Option.map_some] at hcode
          exact .of_step (.leave hnext) hcode
      | some id =>
          simp only [hselected] at hstep
          obtain ⟨⟨s', k'⟩, hfind, rfl⟩ := Option.map_eq_some_iff.mp hstep
          obtain ⟨pc', hlabel, hrun⟩ := h.switch_.find hwhole.nodup hfind
          have hplace : place full (.case_ (L.labelId id)) = some pc' := place_eq hwhole.nodup hlabel
          rw [hcase test id hselected, hplace, Option.map_some] at hcode
          exact .of_step (.run hrun) hcode
  | case_ id cs t =>
      cases hstep
      obtain ⟨hlabel, hlhs⟩ := h.case_
      exact .of_step (.run hlhs) (step_label hlabel)
  | label name t =>
      cases hstep
      obtain ⟨hlabel, hlhs⟩ := h.label
      exact .of_step (.run hlhs) (step_label hlabel)
  | break_ e =>
      obtain ⟨v', hact, rfl⟩ := Option.map_eq_some_iff.mp hstep
      obtain ⟨hat, n, n', ctrl, pc', hjmp, hnext⟩ := h.break_
      exact .of_step (.brk hjmp hnext) (step_act hat hact)
  | continue_ e =>
      obtain ⟨v', hact, rfl⟩ := Option.map_eq_some_iff.mp hstep
      obtain ⟨hat, hloop, n, n', ctrl, pc', hjmp, hnext⟩ := h.continue_
      exact .of_step (.cnt hjmp hloop hnext) (step_act hat hact)
  | goto_ e name =>
      obtain ⟨v', hact, hstep⟩ := Option.bind_eq_some_iff.mp hstep
      obtain ⟨⟨s', k'⟩, hfind, rfl⟩ := Option.map_eq_some_iff.mp hstep
      obtain ⟨hat, hjmp⟩ := h.goto_
      obtain ⟨pc', hplace, hrun⟩ := hwhole.place_of_find hfind
      exact .of_steps (.run hrun) (step_act hat hact) (.single (step_jmp hjmp hplace))
  | gotoInd e =>
      obtain ⟨⟨name, v'⟩, haddress, hstep⟩ := Option.bind_eq_some_iff.mp hstep
      obtain ⟨⟨s', k'⟩, hfind, rfl⟩ := Option.map_eq_some_iff.mp hstep
      obtain ⟨pc', hplace, hrun⟩ := hwhole.place_of_find hfind
      refine .of_step (.run hrun) ?_
      rw [step_of_line h.gotoInd, Line.run, haddress, Option.bind_some]
      simp only [hplace, Option.map_some]
  | return_ e =>
      obtain ⟨v', hact, rfl⟩ := Option.map_eq_some_iff.mp hstep
      obtain ⟨hat, hjmp⟩ := h.return_
      obtain ⟨pe, hplace, hlast, hend⟩ := hwhole.place_return
      refine .of_steps .done (step_act hat hact) (.head (step_jmp hjmp hplace) (.single ?_))
      rw [step_label hlast, hend]

/-- What is left to do is gone on with. -/
theorem Whole.step_leave (hwhole : Whole x fn L full body) (h : Follows x fn L full k ctrl pc)
    (hstep : (State.leave k v).step m body = some st) : Matched x fn L full m (.leave k v) st (pc, v) := by
  cases h with
  | @stop _ pc' hslides hat hend =>
      cases hstep
      have hlast : stepCode fn m full (pc', v) = some (full.length, v) := by rw [step_label hat, hend]
      exact ⟨_, .done, .inl (System.Passes.trans_right (hslides.reached v) (.of_step hlast))⟩
  | seq hslides hprinted hle hat hloops hnext =>
      cases hstep
      refine .of_rank (.run ⟨⟨_, _, _, _, hprinted, hle, hat, hnext⟩, hloops⟩) (hslides.reached v) ?_
      simp only [State.rank, Cont.weight]
      omega
  | @for_ cond inc t k ctrl n _ begin_ code hfor hslides hnext =>
      obtain ⟨v', hacts, rfl⟩ := Option.map_eq_some_iff.mp hstep
      have hlabel := hfor.at_.tail.right.right
      have hback := hlabel.tail.right
      have hpasses := System.Passes.trans_right (M := target fn m full) (hslides.reached v) (.of_step (step_label hlabel.head))
      have hplace := place_eq hwhole.nodup hfor.at_.head
      exact ⟨_, .head hfor hnext, .inl (hpasses.trans_left ((reached_acts hlabel.tail.left hacts).tail (step_jmp hback.head hplace)))⟩
  | @do_ t cond k ctrl n _ begin_ code hdo hslides hnext =>
      obtain ⟨⟨b, v'⟩, htest, rfl⟩ := Option.map_eq_some_iff.mp hstep
      have hlabel := hdo.at_.tail.right
      have hpasses := System.Passes.trans_right (M := target fn m full) (hslides.reached v) (.of_step (step_label hlabel.head))
      have hcode : stepCode fn m full (_, v) = some (if b then begin_ else _, v') :=
        step_jumpIf hlabel.tail.head htest (place_eq hwhole.nodup hdo.at_.head)
      cases b with
      | true =>
          refine ⟨_, .run (hdo.runAt hnext), .inl (hpasses.trans_left (.head hcode (.single ?_)))⟩
          exact step_label hdo.at_.head
      | false =>
          refine ⟨_, .leave hnext, .inl (hpasses.trans_left (.head hcode (.single ?_)))⟩
          exact step_label hlabel.tail.tail.head
  | switch_ hslides hat hnext =>
      cases hstep
      exact ⟨_, .leave hnext, .inl (System.Passes.trans_right (hslides.reached v) (.of_step (step_label hat)))⟩

theorem Whole.step_head (hwhole : Whole x fn L full body) {cond inc : Option E} {n : Nat} (hfor : ForAt x fn L full cond inc t n ctrl pc code)
    (hnext : Follows x fn L full k ctrl (pc + 1 + (testLines (.end_ n) cond : List (Line E)).length + code.length + 1 +
      (actLines inc).length + 2))
    (hstep : (State.head cond inc t k v).step m body = some st) : Matched x fn L full m (.head cond inc t k v) st (pc, v) := by
  obtain ⟨⟨b, v'⟩, htests, rfl⟩ := Option.map_eq_some_iff.mp hstep
  have hend := hfor.at_.tail.right.right.tail.right.tail.head
  have htest : Loops.Reached (stepCode fn m full) (_, v) (if b then _ else _, v') :=
    reached_tests hfor.at_.tail.left htests (place_eq hwhole.nodup hend)
  cases b with
  | true => exact .of_steps (.run (hfor.runAt hnext)) (step_label hfor.at_.head) htest
  | false => exact .of_steps (.leave hnext) (step_label hfor.at_.head) (htest.tail (step_label hend))

/-- The innermost loop or `switch` is left. -/
theorem Whole.step_brk (hwhole : Whole x fn L full body) {n n' : Nat} (hat : full[pc]? = some (.jmp (.end_ n)))
    (h : Follows x fn L full k ((n, n') :: ctrl) pc') (hstep : (State.brk k v).step m body = some st) :
    Matched x fn L full m (.brk k v) st (pc, v) := by
  cases h with
  | seq _ _ _ _ _ hnext =>
      cases hstep
      refine .of_rank (.brk hat hnext) .refl ?_
      simp only [State.rank, Cont.weight]
      omega
  | for_ hfor _ hnext =>
      cases hstep
      have hend := hfor.at_.tail.right.right.tail.right.tail.head
      exact .of_steps (.leave hnext) (step_jmp hat (place_eq hwhole.nodup hend)) (.single (step_label hend))
  | do_ hdo _ hnext =>
      cases hstep
      have hend := hdo.at_.tail.right.tail.tail.head
      exact .of_steps (.leave hnext) (step_jmp hat (place_eq hwhole.nodup hend)) (.single (step_label hend))
  | switch_ _ hend hnext =>
      cases hstep
      exact .of_steps (.leave hnext) (step_jmp hat (place_eq hwhole.nodup hend)) (.single (step_label hend))

/-- A `switch` is passed over, as it has the `continue` of the loop around it on its stack. -/
theorem Whole.step_cnt (hwhole : Whole x fn L full body) {n n' : Nat} (hat : full[pc]? = some (.jmp (.continue_ n')))
    (hloop : k.inLoop = true) (h : Follows x fn L full k ((n, n') :: ctrl) pc') (hstep : (State.cnt k v).step m body = some st) :
    Matched x fn L full m (.cnt k v) st (pc, v) := by
  cases h with
  | seq _ _ _ _ _ hnext =>
      cases hstep
      refine .of_rank (.cnt hat hloop hnext) .refl ?_
      simp only [State.rank, Cont.weight]
      omega
  | for_ hfor _ hnext =>
      cases hstep
      have hlabel := hfor.at_.tail.right.right.head
      exact .of_step (.leave (hfor.follows hnext)) (step_jmp hat (place_eq hwhole.nodup hlabel))
  | do_ hdo _ hnext =>
      cases hstep
      have hlabel := hdo.at_.tail.right.head
      exact .of_step (.leave (hdo.follows hnext)) (step_jmp hat (place_eq hwhole.nodup hlabel))
  | switch_ _ _ hnext =>
      cases hstep
      obtain ⟨⟨outer, n'⟩, rest, rfl⟩ := List.exists_cons_of_ne_nil (hnext.ctrl_ne_nil hloop)
      refine .of_rank (.cnt hat hloop hnext) .refl ?_
      simp only [State.rank, Cont.weight]
      omega

/-! ### Where the source does not go on -/

theorem Whole.stop_run (hwhole : Whole x fn L full body) (h : RunAt x fn L full s k pc) (hstop : (State.run s k v).step m body = none) :
    ∃ c, Loops.Reached (stepCode fn m full) (pc, v) c ∧ stepCode fn m full c = none ∧ resultCode full c = none := by
  cases s with
  | null | seq | do_ | case_ | label => cases hstop
  | act e => exact ⟨_, .refl, stuck_act h.act.1 (Option.map_eq_none_iff.mp hstop), result_none h.act.1⟩
  | if_ cond t =>
      obtain ⟨y, pe, ctrl, hat, -⟩ := h.if_ hwhole.nodup
      exact ⟨_, .refl, stuck_jumpUnless hat (Option.map_eq_none_iff.mp hstop), result_none hat⟩
  | ifElse cond t e =>
      obtain ⟨y, pe, hat, -⟩ := h.ifElse hwhole.nodup
      exact ⟨_, .refl, stuck_jumpUnless hat (Option.map_eq_none_iff.mp hstop), result_none hat⟩
  | for_ init cond inc t => exact ⟨_, .refl, stuck_acts h.for_.1 (Option.map_eq_none_iff.mp hstop)⟩
  | switch_ cond t =>
      obtain ⟨cases, out, hat, -⟩ := h.dispatch hwhole.nodup
      refine ⟨_, .refl, ?_, result_none hat⟩
      rw [step_of_line hat, Line.run]
      cases hselect : m.select cond v with
      | none => rfl
      | some selected =>
          -- what is selected is one of the cases in the body
          rw [State.step, hselect, Option.bind_some] at hstop
          cases hselected : t.selected selected.1 with
          | none =>
              simp only [hselected] at hstop
              cases hstop
          | some id =>
              simp only [hselected] at hstop
              exact absurd (Stmt.switch_ids (Stmt.selected_cases hselected)) (Stmt.not_in_of_find (Option.map_eq_none_iff.mp hstop))
  | break_ e => exact ⟨_, .refl, stuck_act h.break_.1 (Option.map_eq_none_iff.mp hstop), result_none h.break_.1⟩
  | continue_ e => exact ⟨_, .refl, stuck_act h.continue_.1 (Option.map_eq_none_iff.mp hstop), result_none h.continue_.1⟩
  | goto_ e name =>
      obtain ⟨hat, hjmp⟩ := h.goto_
      cases hact : m.act e v with
      | none => exact ⟨_, .refl, stuck_act hat hact, result_none hat⟩
      | some v' =>
          rw [State.step, hact, Option.bind_some] at hstop
          refine ⟨_, .single (step_act hat hact), ?_, result_none hjmp⟩
          rw [step_of_line hjmp, Line.run, hwhole.place_of_not_find (Option.map_eq_none_iff.mp hstop), Option.map_none]
  | gotoInd e =>
      refine ⟨_, .refl, ?_, result_none h.gotoInd⟩
      rw [step_of_line h.gotoInd, Line.run]
      cases haddress : m.address e v with
      | none => rfl
      | some address =>
          obtain ⟨name, v'⟩ := address
          rw [State.step, haddress, Option.bind_some] at hstop
          have hplace := hwhole.place_of_not_find (Option.map_eq_none_iff.mp hstop)
          simp only [Option.bind_some, hplace, Option.map_none]
  | return_ e => exact ⟨_, .refl, stuck_act h.return_.1 (Option.map_eq_none_iff.mp hstop), result_none h.return_.1⟩

theorem stop_leave (h : Follows x fn L full k ctrl pc) (hstop : (State.leave k v).step m body = none) :
    ∃ c, Loops.Reached (stepCode fn m full) (pc, v) c ∧ stepCode fn m full c = none ∧ resultCode full c = none := by
  cases h with
  | stop | seq | switch_ => cases hstop
  | for_ hfor hslides hnext =>
      have hlabel := hfor.at_.tail.right.right
      exact ⟨_, (hslides.reached v).tail (step_label hlabel.head), stuck_acts hlabel.tail.left (Option.map_eq_none_iff.mp hstop)⟩
  | do_ hdo hslides hnext =>
      have hlabel := hdo.at_.tail.right
      exact ⟨_, (hslides.reached v).tail (step_label hlabel.head), stuck_jumpIf hlabel.tail.head (Option.map_eq_none_iff.mp hstop),
        result_none hlabel.tail.head⟩

theorem Whole.simulates (hwhole : Whole x fn L full body) :
    Simulates (source m body) (target fn m full) (Matches x fn L full) State.rank where
  step {st c st'} hmatch hstep := by
    cases hmatch with
    | run hrun => exact hwhole.step_run hrun hstep
    | head hfor hnext => exact hwhole.step_head hfor hnext hstep
    | leave hnext => exact hwhole.step_leave hnext hstep
    | brk hat hnext => exact hwhole.step_brk hat hnext hstep
    | cnt hat hloop hnext => exact hwhole.step_cnt hat hloop hnext hstep
    | done => cases hstep
  stop {st c} hmatch hstop := by
    cases hmatch with
    | run hrun => exact hwhole.stop_run hrun hstop
    | head hfor hnext =>
        exact ⟨_, .single (step_label hfor.at_.head), stuck_tests hfor.at_.tail.left (Option.map_eq_none_iff.mp hstop)⟩
    | leave hnext => exact stop_leave hnext hstop
    | brk hat hnext => cases hnext <;> cases hstop
    | cnt hat hloop hnext => cases hnext <;> cases hstop
    | @done v =>
        refine ⟨_, .refl, ?_, if_pos (Nat.le_refl _)⟩
        change full[full.length]?.bind _ = none
        rw [List.getElem?_eq_none (Nat.le_refl _), Option.bind_none]

end Steps

/-! ## Functions -/

theorem whole_of_gen {body : Stmt E} (hgood : l.Good) (hids : body.ids.Nodup) (hnames : body.names.Nodup)
    (hloops : body.ContinuesInLoops false) (hgen : genFunction x fn body l = some (full, L)) : Whole x fn L full body := by
  obtain ⟨⟨code, l'⟩, hcode, heq⟩ := Option.map_eq_some_iff.mp hgen
  cases heq
  have hprinted := printed_of_gen hcode
  refine ⟨⟨l, code, hprinted, rfl⟩, ?_, hloops⟩
  rw [labels_append]
  refine List.nodup_append'.mpr ⟨hprinted.nodup hgood hids hnames, by simp, fun y hy hy' => ?_⟩
  rw [labels_label, labels_nil, List.mem_singleton] at hy'
  subst hy'
  exact hprinted.owned _ hy

/-- Of each expression only its text is known: no code takes a label. -/
def texts : Expressions String := ⟨fun _ => 0, fun _ => 0, fun _ => false⟩

/-- On one variable. -/
def onVariable : Meaning String Nat where
  act e v := some (if e = "v--" then v - 1 else v)
  test _ v := some (v != 0, v)
  select _ v := some (fun c => c.val = BitVec.ofNat 64 v, v)
  address e v := some (e, v)

/-- `while (v) { switch (v) { case 1: break; default: v--; continue; } goto out; } out: return v;` -/
def countdown : Stmt String :=
  .seq (.for_ none (some "v") none
      (.seq (.switch_ "v" (.seq (.case_ 1 (some ⟨1, none⟩) (.break_ "")) (.seq (.case_ 2 none (.act "v--")) (.continue_ ""))))
        (.goto_ "" "out")))
    (.label "out" (.return_ "v"))

end Rcc.Statements

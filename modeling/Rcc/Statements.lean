import Mathlib
import Rcc.Outcomes
import Rcc.Switch

/-!
# Statements

For its statements a function gets labels and jumps. A label has a number, from `rcc_label_count`, and each `if`, loop and
`switch` takes one. `break` and `continue` jump to the numbers that are on top of `break_stack` and `continue_stack`; a `case` has a number of its own, which
the dispatch of its `switch` gives it; and the labels of the program keep their names.

Expressions are opaque. Of their code it matters only how many labels it takes, and what it does: it goes on behind, or the branch
that tests it is taken. So expressions with statements in them, that may be left by a jump, are not among them. Nor are `if`s whose
condition is a number: there whole branches are left out.
-/

namespace Rcc.Statements

open Switch (Case)

/-! ## The source -/

/-- Where an expression stands, what is done and tested there. The list of a block is made of `seq` and `null`. -/
inductive Stmt (E : Type*) where
  | null
  /-- `ND_EXPR_STMT`, and the others that are no control flow -/
  | act (e : E)
  | seq (first next : Stmt E)
  | if_ (cond : E) (then_ : Stmt E)
  | ifElse (cond : E) (then_ els : Stmt E)
  /-- `while` has a condition only -/
  | for_ (init cond inc : Option E) (then_ : Stmt E)
  | do_ (then_ : Stmt E) (cond : E)
  | switch_ (cond : E) (then_ : Stmt E)
  /-- `default` has no constants. The node is known by its number. -/
  | case_ (id : Nat) (case : Option Case) (lhs : Stmt E)
  | label (name : String) (lhs : Stmt E)
  /-- A jump runs the cleanups first. -/
  | break_ (cleanup : E)
  | continue_ (cleanup : E)
  | goto_ (cleanup : E) (name : String)
  | gotoInd (lhs : E)
  | return_ (value : E)

namespace Stmt

variable {E : Type*}

/-- The cases of a `switch` in the order in which `stmt` comes to their ends. -/
def cases : Stmt E → List (Nat × Case)
  | seq s t => s.cases ++ t.cases
  | if_ _ t => t.cases
  | ifElse _ t e => t.cases ++ e.cases
  | for_ _ _ _ t => t.cases
  | do_ t _ => t.cases
  | case_ id (some c) t => t.cases ++ [(id, c)]
  | case_ _ none t => t.cases
  | label _ t => t.cases
  | _ => []

/-- `case_next`: each case is put in front. -/
def caseNext (s : Stmt E) : List (Nat × Case) := s.cases.reverse

def defaults : Stmt E → List Nat
  | seq s t => s.defaults ++ t.defaults
  | if_ _ t => t.defaults
  | ifElse _ t e => t.defaults ++ e.defaults
  | for_ _ _ _ t => t.defaults
  | do_ t _ => t.defaults
  | case_ _ (some _) t => t.defaults
  | case_ id none t => t.defaults ++ [id]
  | label _ t => t.defaults
  | _ => []

/-- `default_case` -/
def defaultCase (s : Stmt E) : Option Nat := s.defaults.getLast?

/-- All `ND_CASE` nodes, those of inner `switch`es too. -/
def ids : Stmt E → List Nat
  | seq s t => s.ids ++ t.ids
  | if_ _ t => t.ids
  | ifElse _ t e => t.ids ++ e.ids
  | for_ _ _ _ t => t.ids
  | do_ t _ => t.ids
  | switch_ _ t => t.ids
  | case_ id _ t => id :: t.ids
  | label _ t => t.ids
  | _ => []

def names : Stmt E → List String
  | seq s t => s.names ++ t.names
  | if_ _ t => t.names
  | ifElse _ t e => t.names ++ e.names
  | for_ _ _ _ t => t.names
  | do_ t _ => t.names
  | switch_ _ t => t.names
  | case_ _ _ t => t.names
  | label name t => name :: t.names
  | _ => []

/-- `stmt` reports a `continue` that is in no loop. -/
def ContinuesInLoops : Bool → Stmt E → Prop
  | inLoop, seq s t => s.ContinuesInLoops inLoop ∧ t.ContinuesInLoops inLoop
  | inLoop, if_ _ t => t.ContinuesInLoops inLoop
  | inLoop, ifElse _ t e => t.ContinuesInLoops inLoop ∧ e.ContinuesInLoops inLoop
  | _, for_ _ _ _ t => t.ContinuesInLoops true
  | _, do_ t _ => t.ContinuesInLoops true
  | inLoop, switch_ _ t => t.ContinuesInLoops inLoop
  | inLoop, case_ _ _ t => t.ContinuesInLoops inLoop
  | inLoop, label _ t => t.ContinuesInLoops inLoop
  | inLoop, continue_ _ => inLoop = true
  | _, _ => True

end Stmt

/-! ## The code -/

inductive Label where
  | begin_ (n : Nat)
  | end_ (n : Nat)
  | else_ (n : Nat)
  | continue_ (n : Nat)
  | case_ (n : Nat)
  | label (fn name : String)
  | return_ (fn : String)
deriving DecidableEq, Repr

/-- What is printed. The tests of a `switch` are one line. -/
inductive Line (E : Type*) where
  | act (e : E)
  /-- `gen_cond_branch_inv` -/
  | jumpUnless (e : E) (target : Label)
  | jumpIf (e : E) (target : Label)
  | dispatch (e : E) (cases : List (Nat × Case)) (out : Label)
  | jmp (target : Label)
  | jmpTo (e : E)
  | label (name : Label)

/-- What is known of an expression: how many labels its code takes, in `gen` and in `gen_cond_branch_inv`, and if it is a number. -/
structure Expressions (E : Type*) where
  taken : E → Nat
  takenInv : E → Nat
  isNum : E → Bool

/-- `rcc_label_count`, and the `label_id` of each case, which is 0 as long as it has none. -/
structure Labels where
  count : Nat
  labelId : Nat → Nat

namespace Labels

def next (l : Labels) : Labels := { l with count := l.count + 1 }

def take (l : Labels) (n : Nat) : Labels := { l with count := l.count + n }

def assign (l : Labels) (id : Nat) : Labels :=
  if l.labelId id = 0 then ⟨l.count + 1, Function.update l.labelId id (l.count + 1)⟩ else l

/-- In the dispatch. A range takes a label to skip its second test. -/
def assignCases : List (Nat × Case) → Labels → Labels
  | [], l => l
  | (id, c) :: rest, l => assignCases rest (if c.fin.isSome then (l.assign id).next else l.assign id)

def assignDefault : Option Nat → Labels → Labels
  | some id, l => l.assign id
  | none, l => l

end Labels

variable {E : Type*} (x : Expressions E) (fn : String)

/-- The top of `break_stack` and of `continue_stack`. There is room for 128. -/
abbrev Ctrl := List (Nat × Nat)

/-- Where `continue` goes in a `switch`. -/
def outerContinue (n : Nat) : Ctrl → Nat
  | [] => n
  | (_, c) :: _ => c

def actLines : Option E → List (Line E)
  | some e => [.act e]
  | none => []

def testLines (target : Label) : Option E → List (Line E)
  | some e => [.jumpUnless e target]
  | none => []

def takenBy (f : E → Nat) : Option E → Nat
  | some e => f e
  | none => 0

/-- The last jump of the dispatch. -/
def dispatchOut (l : Labels) (n : Nat) : Option Nat → Label
  | some id => .case_ (l.labelId id)
  | none => .end_ n

open Labels in
def gen : Ctrl → Stmt E → Labels → Option (List (Line E) × Labels)
  | _, .null, l => some ([], l)
  | _, .act e, l => some ([.act e], l.take (x.taken e))
  | ctrl, .seq s t, l =>
      (gen ctrl s l).bind fun (first, l) => (gen ctrl t l).map fun (second, l) => (first ++ second, l)
  | ctrl, .if_ cond t, l =>
      if x.isNum cond then none
      else
        let n := l.count + 1
        (gen ctrl t (l.next.take (x.takenInv cond))).map fun (code, l) =>
          (.jumpUnless cond (.end_ n) :: (code ++ [.label (.end_ n)]), l)
  | ctrl, .ifElse cond t e, l =>
      if x.isNum cond then none
      else
        let n := l.count + 1
        (gen ctrl t (l.next.take (x.takenInv cond))).bind fun (code, l) => (gen ctrl e l).map fun (code', l) =>
          (.jumpUnless cond (.else_ n) :: (code ++ .jmp (.end_ n) :: .label (.else_ n) :: (code' ++ [.label (.end_ n)])), l)
  | ctrl, .for_ init cond inc t, l =>
      let n := l.count + 1
      if ctrl.length < 128 then
        (gen ((n, n) :: ctrl) t ((l.next.take (takenBy x.taken init)).take (takenBy x.takenInv cond))).map fun (code, l) =>
          (actLines init ++ .label (.begin_ n) :: (testLines (.end_ n) cond ++ (code ++ .label (.continue_ n) :: (actLines inc ++
            [.jmp (.begin_ n), .label (.end_ n)]))), l.take (takenBy x.taken inc))
      else none
  | ctrl, .do_ t cond, l =>
      let n := l.count + 1
      if ctrl.length < 128 then
        (gen ((n, n) :: ctrl) t l.next).map fun (code, l) =>
          (.label (.begin_ n) :: (code ++ [.label (.continue_ n), .jumpIf cond (.begin_ n), .label (.end_ n)]), l.take (x.taken cond))
      else none
  | ctrl, .switch_ cond t, l =>
      let n := l.count + 1
      let l := assignDefault t.defaultCase (assignCases t.caseNext (l.next.take (x.taken cond)))
      if ctrl.length < 128 then
        (gen ((n, outerContinue n ctrl) :: ctrl) t l).map fun (code, l') =>
          (.dispatch cond (t.caseNext.map fun c => (l.labelId c.1, c.2)) (dispatchOut l n t.defaultCase) :: (code ++ [.label (.end_ n)]), l')
      else none
  | ctrl, .case_ id _ t, l =>
      let l := l.assign id
      (gen ctrl t l).map fun (code, l') => (.label (.case_ (l.labelId id)) :: code, l')
  | ctrl, .label name t, l => (gen ctrl t l).map fun (code, l) => (.label (.label fn name) :: code, l)
  | [], .break_ _, _ => none
  | (n, _) :: _, .break_ e, l => some ([.act e, .jmp (.end_ n)], l.take (x.taken e))
  | [], .continue_ _, _ => none
  | (_, n) :: _, .continue_ e, l => some ([.act e, .jmp (.continue_ n)], l.take (x.taken e))
  | _, .goto_ e name, l => some ([.act e, .jmp (.label fn name)], l.take (x.taken e))
  | _, .gotoInd e, l => some ([.jmpTo e], l.take (x.taken e))
  | _, .return_ e, l => some ([.act e, .jmp (.return_ fn)], l.take (x.taken e))

/-- A function, up to its epilogue. -/
def genFunction (body : Stmt E) (l : Labels) : Option (List (Line E) × Labels) :=
  (gen x fn [] body l).map fun (code, l) => (code ++ [.label (.return_ fn)], l)

/-! ## What expressions do -/

/-- On a state of the program, and `none` where C says nothing. -/
structure Meaning (E σ : Type*) where
  act : E → σ → Option σ
  test : E → σ → Option (Bool × σ)
  /-- the cases that have the value of the expression -/
  select : E → σ → Option ((Case → Bool) × σ)
  /-- the label whose address the expression has -/
  address : E → σ → Option (String × σ)

/-! ## What the source does -/

variable {σ : Type*} (m : Meaning E σ)

/-- What is left to do behind a statement. -/
inductive Cont (E : Type*) where
  | stop
  | seq (next : Stmt E) (k : Cont E)
  | for_ (cond inc : Option E) (then_ : Stmt E) (k : Cont E)
  | do_ (then_ : Stmt E) (cond : E) (k : Cont E)
  | switch_ (k : Cont E)

inductive State (E σ : Type*) where
  | run (s : Stmt E) (k : Cont E) (v : σ)
  /-- before the condition of a `for` -/
  | head (cond inc : Option E) (then_ : Stmt E) (k : Cont E) (v : σ)
  /-- behind a statement -/
  | leave (k : Cont E) (v : σ)
  | brk (k : Cont E) (v : σ)
  | cnt (k : Cont E) (v : σ)
  | done (v : σ)

/-- Where a jump goes. -/
inductive Mark where
  | name (name : String)
  | case_ (id : Nat)
deriving DecidableEq, Repr

/-- The statement at a label, and what is left to do behind it. -/
def Stmt.find (at_ : Mark) : Stmt E → Cont E → Option (Stmt E × Cont E)
  | .seq s t, k => (s.find at_ (.seq t k)).or (t.find at_ k)
  | .if_ _ t, k => t.find at_ k
  | .ifElse _ t e, k => (t.find at_ k).or (e.find at_ k)
  | .for_ _ cond inc t, k => t.find at_ (.for_ cond inc t k)
  | .do_ t cond, k => t.find at_ (.do_ t cond k)
  | .switch_ _ t, k => t.find at_ (.switch_ k)
  | .case_ id c t, k => if at_ = .case_ id then some (.case_ id c t, k) else t.find at_ k
  | .label name t, k => if at_ = .name name then some (.label name t, k) else t.find at_ k
  | _, _ => none

def Meaning.acts : Option E → σ → Option σ
  | some e, v => m.act e v
  | none, v => some v

def Meaning.tests : Option E → σ → Option (Bool × σ)
  | some e, v => m.test e v
  | none, v => some (true, v)

/-- The case that is taken, or else `default`. -/
def Stmt.selected (s : Stmt E) (test : Case → Bool) : Option Nat :=
  ((s.caseNext.find? fun c => test c.2).map Prod.fst).or s.defaultCase

/-- One step of the function with this body. -/
def State.step (body : Stmt E) : State E σ → Option (State E σ)
  | .run .null k v => some (.leave k v)
  | .run (.act e) k v => (m.act e v).map (.leave k)
  | .run (.seq s t) k v => some (.run s (.seq t k) v)
  | .run (.if_ cond t) k v => (m.test cond v).map fun (b, v) => if b then .run t k v else .leave k v
  | .run (.ifElse cond t e) k v => (m.test cond v).map fun (b, v) => if b then .run t k v else .run e k v
  | .run (.for_ init cond inc t) k v => (m.acts init v).map (.head cond inc t k)
  | .run (.do_ t cond) k v => some (.run t (.do_ t cond k) v)
  | .run (.switch_ cond t) k v =>
      (m.select cond v).bind fun (test, v) =>
        match t.selected test with
        | some id => (t.find (.case_ id) (.switch_ k)).map fun (s, k) => .run s k v
        | none => some (.leave (.switch_ k) v)
  | .run (.case_ _ _ t) k v => some (.run t k v)
  | .run (.label _ t) k v => some (.run t k v)
  | .run (.break_ e) k v => (m.act e v).map (.brk k)
  | .run (.continue_ e) k v => (m.act e v).map (.cnt k)
  | .run (.goto_ e name) _ v => (m.act e v).bind fun v => (body.find (.name name) .stop).map fun (s, k) => .run s k v
  | .run (.gotoInd e) _ v => (m.address e v).bind fun (name, v) => (body.find (.name name) .stop).map fun (s, k) => .run s k v
  | .run (.return_ e) _ v => (m.act e v).map .done
  | .head cond inc t k v => (m.tests cond v).map fun (b, v) => if b then .run t (.for_ cond inc t k) v else .leave k v
  | .leave .stop v => some (.done v)
  | .leave (.seq t k) v => some (.run t k v)
  | .leave (.for_ cond inc t k) v => (m.acts inc v).map (.head cond inc t k)
  | .leave (.do_ t cond k) v => (m.test cond v).map fun (b, v) => if b then .run t (.do_ t cond k) v else .leave k v
  | .leave (.switch_ k) v => some (.leave k v)
  | .brk .stop _ => none
  | .brk (.seq _ k) v => some (.brk k v)
  | .brk (.for_ _ _ _ k) v => some (.leave k v)
  | .brk (.do_ _ _ k) v => some (.leave k v)
  | .brk (.switch_ k) v => some (.leave k v)
  | .cnt .stop _ => none
  | .cnt (.seq _ k) v => some (.cnt k v)
  | .cnt (.for_ cond inc t k) v => some (.leave (.for_ cond inc t k) v)
  | .cnt (.do_ t cond k) v => some (.leave (.do_ t cond k) v)
  | .cnt (.switch_ k) v => some (.cnt k v)
  | .done _ => none

def State.result : State E σ → Option σ
  | .done v => some v
  | _ => none

/-- The function as C has it. -/
def source (body : Stmt E) : Outcomes.System (State E σ) σ := ⟨State.step m body, State.result⟩

/-! ## What the code does -/

def Line.isLabel (l : Label) : Line E → Bool
  | .label name => name = l
  | _ => false

/-- The line of a label. -/
def place (code : List (Line E)) (l : Label) : Option Nat := code.findIdx? (Line.isLabel l)

/-- The label that a dispatch jumps to. -/
def dispatched (cases : List (Nat × Case)) (out : Label) (test : Case → Bool) : Label :=
  match cases.find? fun c => test c.2 with
  | some c => .case_ c.1
  | none => out

/-- One line, at its place. -/
def Line.run (code : List (Line E)) (pc : Nat) (v : σ) : Line E → Option (Nat × σ)
  | .act e => (m.act e v).map (pc + 1, ·)
  | .jumpUnless e l => (m.test e v).bind fun (b, v) => if b then some (pc + 1, v) else (place code l).map (·, v)
  | .jumpIf e l => (m.test e v).bind fun (b, v) => if b then (place code l).map (·, v) else some (pc + 1, v)
  | .dispatch e cases out => (m.select e v).bind fun (test, v) => (place code (dispatched cases out test)).map (·, v)
  | .jmp l => (place code l).map (·, v)
  | .jmpTo e => (m.address e v).bind fun (name, v) => (place code (.label fn name)).map (·, v)
  | .label _ => some (pc + 1, v)

def stepCode (code : List (Line E)) : Nat × σ → Option (Nat × σ)
  | (pc, v) => code[pc]?.bind (Line.run fn m code pc v)

/-- Behind the last line comes the epilogue. -/
def resultCode (code : List (Line E)) : Nat × σ → Option σ
  | (pc, v) => if code.length ≤ pc then some v else none

/-- The code as the processor has it. -/
def target (code : List (Line E)) : Outcomes.System (Nat × σ) σ := ⟨stepCode fn m code, resultCode code⟩

end Rcc.Statements

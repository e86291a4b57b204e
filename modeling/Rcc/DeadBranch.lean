import Mathlib

/-!
# Branches that are left out

For an `if` with a constant condition `gen` looks for labels in both branches, and generates only one of them if it finds
none. It looks with a stack of 512 nodes, and below loops, `if`s and blocks only. So a `switch` and an expression
statement hide what is in them; and what finds no place on the stack is not looked at.

If the condition is 0 and the first label of the branch is a `case`, what comes before it is left out, and all
of the other branch.
-/

namespace Rcc.DeadBranch

/-! ## Statements -/

/-- Where a jump can go. -/
inductive Target where
  | label (name : String)
  /-- a `case` or `default` -/
  | case_ (id : Nat)
deriving DecidableEq, Repr

inductive Kind where
  | num (val : Int)
  | label (name : String)
  | goto_ (name : String)
  | gotoInd
  | case_ (id : Nat)
  /-- `&&name` -/
  | labelVal (name : String)
  | for_ | do_ | if_ | block
  /-- with what is behind `case_next` and `default_case` -/
  | switch (cases : List Nat)
  /-- expression statements, statement expressions and the others -/
  | other
deriving DecidableEq, Repr

/-- A node with the pointers that are looked at, the others in a list (`rest`), and its `next`. -/
inductive Tree where
  | null
  | node (kind : Kind) (cond then_ els init inc body rest next : Tree)
deriving DecidableEq, Repr

namespace Tree

def isNull : Tree → Bool
  | null => true
  | node .. => false

def next : Tree → Tree
  | null => null
  | node _ _ _ _ _ _ _ _ next => next

/-- A node and those behind it. -/
def siblings : Tree → List Tree
  | null => []
  | node k c t e i j b r next => node k c t e i j b r next :: siblings next

/-- Is it what is looked for? -/
def isMark : Tree → Bool
  | node (.label _) .. | node (.goto_ _) .. | node .gotoInd .. | node (.case_ _) .. | node (.labelVal _) .. => true
  | _ => false

def isBlock : Tree → Bool
  | node .block .. => true
  | _ => false

def isCase : Tree → Bool
  | node (.case_ _) .. => true
  | _ => false

/-- The kinds at which the second search stops. -/
def isLabel : Tree → Bool
  | node (.label _) .. | node (.case_ _) .. | node (.labelVal _) .. => true
  | _ => false

def body : Tree → Tree
  | node _ _ _ _ _ _ b _ _ => b
  | null => null

/-- All nodes from one on. -/
def size : Tree → Nat
  | null => 0
  | node _ c t e i j b r next => 1 + c.size + t.size + e.size + i.size + j.size + b.size + r.size + next.size

/-! ## The search -/

/-- `if (n && sp < 512) stack[sp++] = n` -/
def push (n : Tree) (stack : List Tree) : List Tree := if !n.isNull && stack.length < 512 then n :: stack else stack

/-- The loop over the nodes of a block. -/
def pushAll : List Tree → List Tree → List Tree
  | [], stack => stack
  | c :: rest, stack => if stack.length < 512 then pushAll rest (c :: stack) else stack

/-- What is pushed for a node. -/
def pushChildren (n : Tree) (stack : List Tree) : List Tree :=
  match n with
  | node .for_ c t e i j b _ _ => push e (push j (push i (push b (push c (push t stack)))))
  | node .do_ c t e _ _ _ _ _ | node .if_ c t e _ _ _ _ _ => push e (push c (push t stack))
  | node .block _ _ _ _ _ b _ _ => pushAll b.siblings stack
  | _ => stack

/-- The loop; every turn pops a node, so there are no more turns than nodes. -/
def search : Nat → List Tree → Bool
  | 0, _ | _, [] => false
  | fuel + 1, n :: stack => if n.isMark then true else search fuel (n.pushChildren stack)

/-- `has_label` -/
def hasLabel (then_ els : Tree) : Bool :=
  search (then_.size + els.size) (pushAll els.siblings (pushAll then_.siblings []))

/-! ## What is generated -/

/-- The list of statements of the outermost block. -/
def outermost : Tree → List Tree
  | node .block c t e i j b r next =>
      if b.isBlock && b.next.isNull then outermost b else b.siblings
  | n => n.siblings

/-- The nodes of the branches that `gen` is called for, and those that it is not called for. -/
structure Emission where
  emitted : List Tree
  omitted : List Tree
deriving DecidableEq, Repr

/-- The `if` with a constant condition. -/
def genIf (val : Int) (then_ els : Tree) : Emission :=
  if hasLabel then_ els = false then
    if val ≠ 0 then ⟨[then_], [els]⟩ else ⟨[els], [then_]⟩
  else if val = 0 then
    let list := then_.outermost
    let before := list.takeWhile (fun n => !n.isLabel)
    match list.dropWhile (fun n => !n.isLabel) with
    | n :: rest => if n.isCase then ⟨n :: rest, before ++ [els]⟩ else ⟨[then_, els], []⟩
    | [] => ⟨[then_, els], []⟩
  else ⟨[then_, els], []⟩

/-! ## Jump targets -/

def target : Tree → Option Target
  | node (.label name) .. => some (.label name)
  | node (.case_ id) .. => some (.case_ id)
  | _ => none

/-- The targets in the code of a node, and of it with its siblings. -/
def targets : Tree → List Target × List Target
  | null => ([], [])
  | node k c t e i j b r next =>
      let own := (node k c t e i j b r next).target.toList ++ c.targets.1 ++ t.targets.1 ++ e.targets.1 ++ i.targets.1 ++
        j.targets.1 ++ b.targets.2 ++ r.targets.2
      (own, own ++ next.targets.2)

/-- What the code of a node itself jumps to, or takes the address of. -/
def jumps : Tree → List Target
  | node (.goto_ name) .. | node (.labelVal name) .. => [.label name]
  | node (.switch cases) .. => cases.map .case_
  | _ => []

/-- The same of all that is in it. -/
def refers : Tree → List Target × List Target
  | null => ([], [])
  | node k c t e i j b r next =>
      let own := (node k c t e i j b r next).jumps ++ c.refers.1 ++ t.refers.1 ++ e.refers.1 ++ i.refers.1 ++
        j.refers.1 ++ b.refers.2 ++ r.refers.2
      (own, own ++ next.refers.2)

/-- The nodes that the search means to look at. -/
def visible : Tree → List Tree × List Tree
  | null => ([], [])
  | node k c t e i j b r next =>
      let below := match k with
        | .for_ => t.visible.1 ++ c.visible.1 ++ b.visible.1 ++ i.visible.1 ++ j.visible.1 ++ e.visible.1
        | .do_ | .if_ => t.visible.1 ++ c.visible.1 ++ e.visible.1
        | .block => b.visible.2
        | _ => []
      let own := node k c t e i j b r next :: below
      (own, own ++ next.visible.2)

/-- The targets at other places. -/
def hidden : Tree → List Target × List Target
  | null => ([], [])
  | node k c t e i j b r next =>
      let own := match k with
        | .for_ => t.hidden.1 ++ c.hidden.1 ++ b.hidden.1 ++ b.next.targets.2 ++ i.hidden.1 ++ j.hidden.1 ++ e.hidden.1 ++ r.targets.2
        | .do_ | .if_ => t.hidden.1 ++ c.hidden.1 ++ e.hidden.1 ++ i.targets.1 ++ j.targets.1 ++ b.targets.2 ++ r.targets.2
        | .block => b.hidden.2 ++ c.targets.1 ++ t.targets.1 ++ e.targets.1 ++ i.targets.1 ++ j.targets.1 ++ r.targets.2
        | _ => c.targets.1 ++ t.targets.1 ++ e.targets.1 ++ i.targets.1 ++ j.targets.1 ++ b.targets.2 ++ r.targets.2
      (own, own ++ next.hidden.2)

/-! ## The stack -/

/-- The nodes that are pushed, where there is room. -/
def children : Tree → List Tree
  | node .for_ c t e i j b _ _ => [t, c, b, i, j, e].filter fun n => !n.isNull
  | node .do_ c t e _ _ _ _ _ | node .if_ c t e _ _ _ _ _ => [t, c, e].filter fun n => !n.isNull
  | node .block _ _ _ _ _ b _ _ => b.siblings
  | _ => []

theorem pushAll_append (l l' stack : List Tree) : pushAll (l ++ l') stack = pushAll l' (pushAll l stack) := by
  induction l generalizing stack with
  | nil => rfl
  | cons c l ih =>
      rw [List.cons_append, pushAll, pushAll]
      split
      · exact ih _
      · next hfull =>
          cases l' with
          | nil => rfl
          | cons d l' => rw [pushAll, if_neg hfull]

theorem push_eq (n : Tree) (stack : List Tree) : push n stack = pushAll ([n].filter fun n => !n.isNull) stack := by
  rw [push, List.filter_cons, List.filter_nil]
  cases n.isNull with
  | true => rfl
  | false =>
      rw [Bool.not_false, Bool.true_and, if_pos rfl, pushAll]
      by_cases h : stack.length < 512
      · rw [if_pos h, if_pos (decide_eq_true h)]
        rfl
      · rw [if_neg h, if_neg (by rw [decide_eq_true_eq]; exact h)]

theorem pushChildren_eq (n : Tree) (stack : List Tree) : n.pushChildren stack = pushAll n.children stack := by
  have hsplit : ∀ (c : Tree) (l : List Tree), (c :: l).filter (fun n => !n.isNull) =
      [c].filter (fun n => !n.isNull) ++ l.filter fun n => !n.isNull := fun c l => by
    rw [← List.filter_append, List.singleton_append]
  have hchain : ∀ l : List Tree, pushAll (l.filter fun n => !n.isNull) stack = l.foldl (fun st n => push n st) stack := by
    intro l
    induction l generalizing stack with
    | nil => rfl
    | cons c l ih => rw [hsplit, pushAll_append, ← push_eq, ih, List.foldl_cons]
  cases n with
  | null => rfl
  | node k c t e i j b r next =>
      cases k with
      | for_ => exact (hchain [t, c, b, i, j, e]).symm
      | do_ => exact (hchain [t, c, e]).symm
      | if_ => exact (hchain [t, c, e]).symm
      | _ => rfl

/-- With room for all of them they are on the stack, the last one on top. -/
theorem pushAll_of_fits {l stack : List Tree} (h : l.length + stack.length ≤ 512) : pushAll l stack = l.reverse ++ stack := by
  induction l generalizing stack with
  | nil => rfl
  | cons c l ih =>
      rw [List.length_cons] at h
      rw [pushAll, if_pos (by omega), ih (by rw [List.length_cons]; omega), List.reverse_cons, List.append_assoc]
      rfl

theorem siblings_nonNull (n : Tree) : ∀ c ∈ n.siblings, c.isNull = false := by
  induction n with
  | null => exact fun c h => absurd h List.not_mem_nil
  | node k c t e i j b r next _ _ _ _ _ _ _ ih => exact List.forall_mem_cons.mpr ⟨rfl, ih⟩

theorem children_nonNull (n : Tree) : ∀ c ∈ n.children, c.isNull = false := by
  have hfilter : ∀ l : List Tree, ∀ c ∈ l.filter (fun n => !n.isNull), c.isNull = false := fun l c h =>
    (Bool.not_eq_true' _).mp (List.mem_filter.mp h).2
  cases n with
  | null => exact fun c h => absurd h List.not_mem_nil
  | node k c t e i j b r next =>
      cases k with
      | for_ => exact hfilter _
      | do_ => exact hfilter _
      | if_ => exact hfilter _
      | block => exact b.siblings_nonNull
      | _ => exact fun c h => absurd h List.not_mem_nil

/-- The nodes of the code of a node. -/
def weight : Tree → Nat
  | null => 0
  | node _ c t e i j b r _ => 1 + c.size + t.size + e.size + i.size + j.size + b.size + r.size

theorem weight_le_size (n : Tree) : n.weight ≤ n.size := by
  cases n with
  | null => exact le_refl 0
  | node k c t e i j b r next => exact Nat.le_add_right _ _

theorem weight_siblings (n : Tree) : (n.siblings.map weight).sum = n.size := by
  induction n with
  | null => rfl
  | node k c t e i j b r next _ _ _ _ _ _ _ ih =>
      rw [siblings, List.map_cons, List.sum_cons, ih]
      rfl

theorem weight_filter (l : List Tree) : ((l.filter fun n => !n.isNull).map weight).sum ≤ (l.map size).sum := by
  induction l with
  | nil => exact le_refl 0
  | cons c l ih =>
      have hc := c.weight_le_size
      rw [List.filter_cons, List.map_cons, List.sum_cons]
      split
      · rw [List.map_cons, List.sum_cons]
        omega
      · omega

/-- The children are fewer. -/
theorem weight_children {n : Tree} (h : n.isNull = false) : (n.children.map weight).sum < n.weight := by
  cases n with
  | null => cases h
  | node k c t e i j b r next =>
      cases k with
      | for_ =>
          have hle := weight_filter [t, c, b, i, j, e]
          simp only [List.map_cons, List.map_nil, List.sum_cons, List.sum_nil] at hle
          rw [children, weight]
          omega
      | do_ =>
          have hle := weight_filter [t, c, e]
          simp only [List.map_cons, List.map_nil, List.sum_cons, List.sum_nil] at hle
          rw [children, weight]
          omega
      | if_ =>
          have hle := weight_filter [t, c, e]
          simp only [List.map_cons, List.map_nil, List.sum_cons, List.sum_nil] at hle
          rw [children, weight]
          omega
      | block =>
          rw [children, weight_siblings, weight]
          omega
      | _ =>
          show 0 < weight _
          rw [weight]
          omega

/-! ## What the search finds -/

theorem visible_siblings (n : Tree) : n.visible.2 = n.siblings.flatMap fun c => c.visible.1 := by
  induction n with
  | null => rfl
  | node k c t e i j b r next _ _ _ _ _ _ _ ih =>
      rw [siblings, List.flatMap_cons, ← ih]
      rfl

theorem visible_filter (l : List Tree) :
    (l.filter fun n => !n.isNull).flatMap (fun c => c.visible.1) = l.flatMap fun c => c.visible.1 := by
  induction l with
  | nil => rfl
  | cons c l ih =>
      rw [List.filter_cons, List.flatMap_cons]
      cases c with
      | null => exact ih
      | node k c t e i j b r next => exact congrArg ((node k c t e i j b r next).visible.1 ++ ·) ih

theorem visible_own {n : Tree} (h : n.isNull = false) : n.visible.1 = n :: n.children.flatMap fun c => c.visible.1 := by
  cases n with
  | null => cases h
  | node k c t e i j b r next =>
      cases k with
      | for_ =>
          rw [children, visible_filter]
          simp only [visible, List.flatMap_cons, List.flatMap_nil, List.append_nil, List.append_assoc]
      | do_ =>
          rw [children, visible_filter]
          simp only [visible, List.flatMap_cons, List.flatMap_nil, List.append_nil, List.append_assoc]
      | if_ =>
          rw [children, visible_filter]
          simp only [visible, List.flatMap_cons, List.flatMap_nil, List.append_nil, List.append_assoc]
      | block =>
          rw [children, ← visible_siblings]
          rfl
      | _ => rfl

/-- Every node is one of those that are looked at from it on. -/
theorem length_le_visible {stack : List Tree} (h : ∀ n ∈ stack, n.isNull = false) :
    stack.length ≤ (stack.flatMap fun n => n.visible.1).length := by
  induction stack with
  | nil => exact le_refl 0
  | cons n stack ih =>
      obtain ⟨hn, hrest⟩ := List.forall_mem_cons.mp h
      have hlen := ih hrest
      rw [List.flatMap_cons, List.length_append, visible_own hn, List.length_cons, List.length_cons]
      omega

/-- With room on the stack for all that is to be looked at, the search finds what there is. -/
theorem search_eq {fuel : Nat} {stack : List Tree} (hnull : ∀ n ∈ stack, n.isNull = false)
    (hfuel : (stack.map weight).sum ≤ fuel) (hfits : (stack.flatMap fun n => n.visible.1).length ≤ 512) :
    search fuel stack = (stack.flatMap fun n => n.visible.1).any isMark := by
  induction fuel generalizing stack with
  | zero =>
      cases stack with
      | nil => rfl
      | cons n stack =>
          have hlt := weight_children (hnull n List.mem_cons_self)
          rw [List.map_cons, List.sum_cons] at hfuel
          omega
  | succ fuel ih =>
      cases stack with
      | nil => rfl
      | cons n stack =>
          obtain ⟨hn, hrest⟩ := List.forall_mem_cons.mp hnull
          have hlt := weight_children hn
          have hlen := length_le_visible n.children_nonNull
          have hlen' := length_le_visible hrest
          rw [List.map_cons, List.sum_cons] at hfuel
          rw [List.flatMap_cons, visible_own hn, List.cons_append, List.length_cons, List.length_append] at hfits
          rw [search, List.flatMap_cons, visible_own hn, List.cons_append, List.any_cons, List.any_append]
          cases n.isMark with
          | true => rfl
          | false =>
              rw [if_neg Bool.false_ne_true, Bool.false_or, pushChildren_eq, pushAll_of_fits (by omega), ih]
              · rw [List.flatMap_append, List.any_append, List.any_flatMap, List.any_flatMap, List.any_flatMap, List.any_reverse]
              · intro c hc
                rcases List.mem_append.mp hc with hc | hc
                · exact n.children_nonNull c (List.mem_reverse.mp hc)
                · exact hrest c hc
              · rw [List.map_append, List.sum_append, List.map_reverse, List.sum_reverse]
                omega
              · rw [List.flatMap_append, List.length_append, List.length_flatMap, List.map_reverse, List.sum_reverse, ← List.length_flatMap]
                omega

theorem pushAll_bounded (l stack : List Tree) : ((pushAll l stack).map weight).sum ≤ (l.map weight).sum + (stack.map weight).sum ∧
    ((∀ n ∈ l, n.isNull = false) → (∀ n ∈ stack, n.isNull = false) → ∀ n ∈ pushAll l stack, n.isNull = false) := by
  induction l generalizing stack with
  | nil => exact ⟨Nat.le_add_left _ _, fun _ h => h⟩
  | cons c l ih =>
      rw [pushAll, List.map_cons, List.sum_cons]
      split
      · obtain ⟨hweight, hnull⟩ := ih (c :: stack)
        rw [List.map_cons, List.sum_cons] at hweight
        refine ⟨by omega, fun hl hstack => ?_⟩
        obtain ⟨hc, hl⟩ := List.forall_mem_cons.mp hl
        exact hnull hl (List.forall_mem_cons.mpr ⟨hc, hstack⟩)
      · exact ⟨by omega, fun _ h => h⟩

/-- The turns are enough, with room or without: more of them make no difference. -/
theorem search_succ {fuel : Nat} {stack : List Tree} (hnull : ∀ n ∈ stack, n.isNull = false)
    (hfuel : (stack.map weight).sum ≤ fuel) : search (fuel + 1) stack = search fuel stack := by
  induction fuel generalizing stack with
  | zero =>
      cases stack with
      | nil => rfl
      | cons n stack =>
          have hlt := weight_children (hnull n List.mem_cons_self)
          rw [List.map_cons, List.sum_cons] at hfuel
          omega
  | succ fuel ih =>
      cases stack with
      | nil => rfl
      | cons n stack =>
          obtain ⟨hn, hrest⟩ := List.forall_mem_cons.mp hnull
          obtain ⟨hweight, hpushed⟩ := pushAll_bounded n.children stack
          have hlt := weight_children hn
          rw [List.map_cons, List.sum_cons] at hfuel
          have hnext : search (fuel + 1) (n.pushChildren stack) = search fuel (n.pushChildren stack) := by
            rw [pushChildren_eq]
            exact ih (hpushed n.children_nonNull hrest) (by omega)
          rw [search, search, hnext]

/-- So many nodes are to be looked at. -/
def Fits (then_ els : Tree) : Prop := then_.visible.2.length + els.visible.2.length ≤ 512

theorem hasLabel_eq {then_ els : Tree} (h : Fits then_ els) : hasLabel then_ els = (then_.visible.2 ++ els.visible.2).any isMark := by
  have hthen := length_le_visible then_.siblings_nonNull
  have hels := length_le_visible els.siblings_nonNull
  rw [← visible_siblings] at hthen hels
  have hfits : then_.visible.2.length + els.visible.2.length ≤ 512 := h
  have hstack : pushAll els.siblings (pushAll then_.siblings []) = els.siblings.reverse ++ (then_.siblings.reverse ++ []) := by
    have hfirst : pushAll then_.siblings [] = then_.siblings.reverse ++ [] := pushAll_of_fits (by rw [List.length_nil]; omega)
    rw [hfirst]
    exact pushAll_of_fits (by rw [List.append_nil, List.length_reverse]; omega)
  rw [hasLabel, hstack, List.append_nil, search_eq]
  · rw [List.flatMap_append, List.any_append, List.any_append, List.any_flatMap, List.any_flatMap, List.any_reverse, List.any_reverse,
      ← List.any_flatMap, ← List.any_flatMap, ← visible_siblings, ← visible_siblings, Bool.or_comm]
  · intro n hn
    rcases List.mem_append.mp hn with hn | hn
    · exact els.siblings_nonNull n (List.mem_reverse.mp hn)
    · exact then_.siblings_nonNull n (List.mem_reverse.mp hn)
  · rw [List.map_append, List.sum_append, List.map_reverse, List.map_reverse, List.sum_reverse, List.sum_reverse, weight_siblings,
      weight_siblings]
    omega
  · rw [List.flatMap_append, List.length_append, List.length_flatMap, List.length_flatMap, List.map_reverse, List.map_reverse,
      List.sum_reverse, List.sum_reverse, ← List.length_flatMap, ← List.length_flatMap, ← visible_siblings, ← visible_siblings]
    omega

/-! ## The targets of a branch -/

/-- It is the target of one of the nodes. -/
def IsAt (x : Target) (l : List Tree) : Prop := ∃ v ∈ l, x ∈ v.target

theorem isAt_nil (x : Target) : IsAt x [] ↔ False := by simp [IsAt]

theorem isAt_cons (x : Target) (n : Tree) (l : List Tree) : IsAt x (n :: l) ↔ x ∈ n.target.toList ∨ IsAt x l := by
  simp only [IsAt, List.mem_cons, exists_eq_or_imp, Option.mem_toList, Option.mem_def]

theorem isAt_append (x : Target) (l l' : List Tree) : IsAt x (l ++ l') ↔ IsAt x l ∨ IsAt x l' := by
  simp only [IsAt, List.mem_append, or_and_right, exists_or]

/-- A target is at a node that is looked at, or hidden. -/
theorem mem_targets (n : Tree) (x : Target) : (x ∈ n.targets.1 ↔ IsAt x n.visible.1 ∨ x ∈ n.hidden.1) ∧
    (x ∈ n.targets.2 ↔ IsAt x n.visible.2 ∨ x ∈ n.hidden.2) := by
  induction n with
  | null => simp [targets, visible, hidden, isAt_nil]
  | node k c t e i j b r next ihc iht ihe ihi ihj ihb ihr ihn =>
      have hbody : x ∈ b.targets.2 ↔ x ∈ b.targets.1 ∨ x ∈ b.next.targets.2 := by
        cases b with
        | null => simp [targets, Tree.next]
        | node => simp only [targets, Tree.next, List.mem_append]
      have hown : x ∈ (node k c t e i j b r next).targets.1 ↔
          IsAt x (node k c t e i j b r next).visible.1 ∨ x ∈ (node k c t e i j b r next).hidden.1 := by
        cases k with
        | for_ =>
            simp only [targets, visible, hidden, List.mem_append, isAt_cons, isAt_append]
            rw [hbody, ihc.1, iht.1, ihe.1, ihi.1, ihj.1, ihb.1]
            simp only [or_assoc, or_comm, or_left_comm]
        | do_ =>
            simp only [targets, visible, hidden, List.mem_append, isAt_cons, isAt_append]
            rw [ihc.1, iht.1, ihe.1]
            simp only [or_assoc, or_comm, or_left_comm]
        | if_ =>
            simp only [targets, visible, hidden, List.mem_append, isAt_cons, isAt_append]
            rw [ihc.1, iht.1, ihe.1]
            simp only [or_assoc, or_comm, or_left_comm]
        | block =>
            simp only [targets, visible, hidden, List.mem_append, isAt_cons]
            rw [ihb.2]
            simp only [or_assoc, or_comm, or_left_comm]
        | _ => simp only [targets, visible, hidden, List.mem_append, isAt_cons, isAt_nil, or_false, or_assoc]
      refine ⟨hown, ?_⟩
      have hchain : x ∈ (node k c t e i j b r next).targets.2 ↔ x ∈ (node k c t e i j b r next).targets.1 ∨ x ∈ next.targets.2 :=
        List.mem_append
      have hvisible : IsAt x (node k c t e i j b r next).visible.2 ↔
          IsAt x (node k c t e i j b r next).visible.1 ∨ IsAt x next.visible.2 := isAt_append x _ _
      have hhidden : x ∈ (node k c t e i j b r next).hidden.2 ↔ x ∈ (node k c t e i j b r next).hidden.1 ∨ x ∈ next.hidden.2 :=
        List.mem_append
      rw [hchain, hvisible, hhidden, hown, ihn.2]
      simp only [or_assoc, or_left_comm]

/-! ## What is left out -/

/-- When nothing that is left out is jumped to. A search that finds nothing must not have had targets hidden from it, in the branch that is not
generated, and the stack must have had room; and behind a first `case` there is the other branch. -/
def Keeps (val : Int) (then_ els : Tree) (refs : Target → Prop) : Prop :=
  if hasLabel then_ els = false then
    let dead := if val ≠ 0 then els else then_
    (∀ x ∈ dead.hidden.1, ¬ refs x) ∧ (Fits then_ els ∨ ∀ x, IsAt x dead.visible.1 → ¬ refs x)
  else
    val = 0 → ∀ n rest, then_.outermost.dropWhile (fun n => !n.isLabel) = n :: rest → n.isCase = true →
      (∀ d ∈ then_.outermost.takeWhile (fun n => !n.isLabel), ∀ x ∈ d.targets.1, ¬ refs x) ∧ ∀ x ∈ els.targets.1, ¬ refs x

theorem isAt_visible_chain {n : Tree} {x : Target} (h : IsAt x n.visible.1) : IsAt x n.visible.2 := by
  cases n with
  | null => exact h
  | node k c t e i j b r next => exact (isAt_append x _ _).mpr (.inl h)

/-- Every target is something that is looked for. -/
theorem isMark_of_target {n : Tree} {x : Target} (h : x ∈ n.target) : n.isMark = true := by
  cases n with
  | null => cases h
  | node k c t e i j b r next => cases k <;> first | rfl | cases h

/-- With room for all, nothing is found only if there is nothing to be found. -/
theorem not_isAt_of_fits {then_ els dead : Tree} (hfits : Fits then_ els) (hnone : hasLabel then_ els = false)
    (hdead : dead = then_ ∨ dead = els) (x : Target) : ¬ IsAt x dead.visible.1 := by
  rw [hasLabel_eq hfits, List.any_append, Bool.or_eq_false_iff, List.any_eq_false, List.any_eq_false] at hnone
  intro hat
  obtain ⟨v, hv, hx⟩ := isAt_visible_chain hat
  rcases hdead with rfl | rfl
  · exact hnone.1 v hv (isMark_of_target hx)
  · exact hnone.2 v hv (isMark_of_target hx)

/-- **Branches that are left out.** Whatever jump targets the generated code refers to, none of them is in what is left out of an `if` with a constant
condition, if and only if it keeps them. -/
theorem dead_branch_iff (val : Int) (then_ els : Tree) (refs : Target → Prop) :
    (∀ n ∈ (genIf val then_ els).omitted, ∀ x ∈ n.targets.1, ¬ refs x) ↔ Keeps val then_ els refs := by
  rw [genIf, Keeps]
  cases hlabel : hasLabel then_ els with
  | false =>
      have hdead : ∀ dead : Tree, dead = then_ ∨ dead = els → ((∀ n ∈ [dead], ∀ x ∈ n.targets.1, ¬ refs x) ↔
          (∀ x ∈ dead.hidden.1, ¬ refs x) ∧ (Fits then_ els ∨ ∀ x, IsAt x dead.visible.1 → ¬ refs x)) := by
        intro dead hor
        rw [List.forall_mem_singleton]
        constructor
        · exact fun h => ⟨fun x hx => h x ((dead.mem_targets x).1.mpr (.inr hx)), .inr fun x hx => h x ((dead.mem_targets x).1.mpr (.inl hx))⟩
        · rintro ⟨hhidden, hvisible⟩ x hx
          rcases (dead.mem_targets x).1.mp hx with hat | hhid
          · exact hvisible.elim (fun hfits => absurd hat (not_isAt_of_fits hfits hlabel hor x)) fun h => h x hat
          · exact hhidden x hhid
      rw [if_pos rfl, if_pos rfl]
      by_cases hval : val ≠ 0
      · rw [if_pos hval, if_pos hval]
        exact hdead els (.inr rfl)
      · rw [if_neg hval, if_neg hval]
        exact hdead then_ (.inl rfl)
  | true =>
      have hempty : ∀ emitted : List Tree, ∀ n ∈ (⟨emitted, []⟩ : Emission).omitted, ∀ x ∈ n.targets.1, ¬ refs x :=
        fun _ n hn => absurd hn List.not_mem_nil
      rw [if_neg Bool.true_eq_false_eq_False, if_neg Bool.true_eq_false_eq_False]
      by_cases hval : val = 0
      · rw [if_pos hval]
        dsimp only
        generalize then_.outermost.dropWhile (fun n => !n.isLabel) = found
        generalize then_.outermost.takeWhile (fun n => !n.isLabel) = before
        cases found with
        | nil => exact iff_of_true (hempty _) fun _ n rest heq => by cases heq
        | cons n rest =>
            dsimp only
            by_cases hcase : n.isCase = true
            · rw [if_pos hcase]
              constructor
              · rintro h _ _ _ heq _
                exact ⟨fun d hd => h d (List.mem_append_left _ hd), h els (List.mem_append_right _ (List.mem_singleton_self els))⟩
              · intro h d hd
                obtain ⟨hbefore, hels⟩ := h hval n rest rfl hcase
                rcases List.mem_append.mp hd with hd | hd
                · exact hbefore d hd
                · rw [List.mem_singleton.mp hd]
                  exact hels
            · rw [if_neg hcase]
              refine iff_of_true (hempty _) fun _ n' rest' heq hcase' => ?_
              cases heq
              exact absurd hcase' hcase
      · rw [if_neg hval]
        exact iff_of_true (hempty _) fun h => absurd h hval

/-- `goto out;` -/
def gotoOut : Tree := node (.goto_ "out") null null null null null null null null

/-- `{ switch (1) default: out: ; }` -/
def switchBlock : Tree :=
  node .block null null null null null
    (node (.switch [1]) (node (.num 1) null null null null null null null null)
      (node (.case_ 1) null null null null null null
        (node (.label "out") null null null null null null null null) null) null null null null null null) null null

/-- `goto out; if (0) { switch (1) default: out: ; }` -/
theorem switchBlock_wrong : ¬ ∀ (outside : List Tree) (val : Int) (then_ els : Tree), ∀ n ∈ (genIf val then_ els).omitted,
    ∀ x ∈ n.targets.1, ∀ m ∈ outside ++ (genIf val then_ els).emitted, x ∉ m.refers.1 := by
  intro hclaim
  have homitted : switchBlock ∈ (genIf 0 switchBlock null).omitted := by decide
  exact hclaim [gotoOut] 0 switchBlock null switchBlock homitted (.label "out") (by decide) gotoOut (by decide) (by decide)

end Tree

end Rcc.DeadBranch

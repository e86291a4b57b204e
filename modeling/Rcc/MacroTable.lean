import Mathlib

/-!
# The macros of the preprocessor

A `Macro` is a node in the arena. It is found through the hash table, and it is
in the list that begins at `macros`; `saved_macros` points into the same list,
to the newest of the macros that stand before every file, the snapshot. To go
back to the snapshot, `clear_macros` sets the one pointer to the other and makes
the table anew.

The nodes are shared by both pointers, and a file may write them. `list`,
`chain` and `entry` are what can be seen of a table: the nodes of the list, those
of one name in the table, and what stands in a node. Each operation has a lemma
for what it does to the three.
-/

namespace Rcc.Macros

section Filter

variable {α : Type} {p q : α → Bool}

theorem filter_eraseP_self (p : α → Bool) (l : List α) : (l.eraseP p).filter p = (l.filter p).tail := by
  induction l with
  | nil => rfl
  | cons a l ih =>
      cases h : p a with
      | true => rw [List.eraseP_cons_of_pos h, List.filter_cons_of_pos h, List.tail_cons]
      | false =>
          have hneg : ¬ p a = true := by rw [h]; nofun
          rw [List.eraseP_cons_of_neg hneg, List.filter_cons_of_neg hneg, List.filter_cons_of_neg hneg, ih]

theorem filter_eraseP (l : List α) (h : ∀ a, p a = true → q a = false) :
    (l.eraseP p).filter q = l.filter q := by
  induction l with
  | nil => rfl
  | cons a l ih =>
      cases ha : p a with
      | true => rw [List.eraseP_cons_of_pos ha, List.filter_cons_of_neg (by rw [h a ha]; nofun)]
      | false =>
          rw [List.eraseP_cons_of_neg (by rw [ha]; nofun), List.filter_cons, List.filter_cons, ih]

theorem eraseP_congr {l : List α} (h : ∀ a ∈ l, p a = q a) : l.eraseP p = l.eraseP q := by
  induction l with
  | nil => rfl
  | cons a l ih =>
      have hl := ih fun b hb => h b (List.mem_cons_of_mem _ hb)
      rw [List.eraseP_cons, List.eraseP_cons, h a List.mem_cons_self, hl]

end Filter

/-- What a macro stands for. -/
structure Definition where
  isFunction : Bool
  isVariadic : Bool
  isGnuVariadic : Bool
  params : List String
  body : String
deriving DecidableEq

/-- What stands in a node: its name, what it stands for, and whether it is being
expanded. -/
structure Entry where
  name : String
  definition : Definition
  disabled : Bool
deriving DecidableEq

/-! ## The arena -/

structure Macro where
  next : Option Nat
  entry : Entry

/-- The nodes. A node is put in front of older ones. -/
structure Arena where
  node : Nat → Macro
  older : ∀ i j, (node i).next = some j → j < i

namespace Arena

variable (a : Arena)

/-- `for (Macro *m = p; m; m = m->next)` -/
def listFrom (a : Arena) : Option Nat → List Nat
  | none => []
  | some i =>
      match h : (a.node i).next with
      | none => [i]
      | some j =>
          have := a.older i j h
          i :: a.listFrom (some j)
termination_by p => p.getD 0

theorem listFrom_none : a.listFrom none = [] := by
  rw [listFrom]

theorem listFrom_some (i : Nat) : a.listFrom (some i) = i :: a.listFrom (a.node i).next := by
  rw [listFrom]
  split
  · next h => rw [h, listFrom_none]
  · next j h => exact congrArg (fun p => i :: a.listFrom p) h.symm

/-- From a pointer on, the nodes become older. -/
@[elab_as_elim]
theorem induction {P : Option Nat → Prop} (hnull : P none) (hnode : ∀ i, P (a.node i).next → P (some i))
    (p : Option Nat) : P p := by
  cases p with
  | none => exact hnull
  | some i =>
      induction i using Nat.strongRecOn with
      | ind i ih =>
          refine hnode i ?_
          cases hnext : (a.node i).next with
          | none => exact hnull
          | some j => exact ih j (a.older i j hnext)

theorem le_of_mem {p : Option Nat} {i j : Nat} (hp : p = some i) (h : j ∈ a.listFrom p) : j ≤ i := by
  induction p using a.induction generalizing i with
  | hnull => exact absurd hp nofun
  | hnode k ih =>
      obtain rfl := Option.some_inj.mp hp
      rw [listFrom_some] at h
      rcases List.mem_cons.mp h with rfl | h
      · exact Nat.le_refl _
      · cases hnext : (a.node k).next with
        | none =>
            rw [hnext, listFrom_none] at h
            exact absurd h List.not_mem_nil
        | some l => exact Nat.le_trans (ih hnext h) (Nat.le_of_lt (a.older k l hnext))

theorem lt_of_mem_next {i j : Nat} (h : j ∈ a.listFrom (a.node i).next) : j < i := by
  cases hnext : (a.node i).next with
  | none =>
      rw [hnext, listFrom_none] at h
      exact absurd h List.not_mem_nil
  | some k =>
      rw [hnext] at h
      exact Nat.lt_of_le_of_lt (a.le_of_mem rfl h) (a.older i k hnext)

theorem nodup_listFrom (p : Option Nat) : (a.listFrom p).Nodup := by
  induction p using a.induction with
  | hnull =>
      rw [listFrom_none]
      exact List.nodup_nil
  | hnode i ih =>
      rw [listFrom_some]
      exact List.nodup_cons.mpr ⟨fun h => Nat.lt_irrefl _ (a.lt_of_mem_next h), ih⟩

/-- Where the nodes point on alike, the lists are the same. -/
theorem listFrom_congr {a b : Arena} {p : Option Nat}
    (h : ∀ i ∈ a.listFrom p, (b.node i).next = (a.node i).next) : b.listFrom p = a.listFrom p := by
  induction p using a.induction with
  | hnull => rw [listFrom_none, listFrom_none]
  | hnode i ih =>
      rw [listFrom_some] at h
      have hi := h i List.mem_cons_self
      rw [listFrom_some, listFrom_some, hi, ih fun j hj => h j (List.mem_cons_of_mem _ hj)]

/-- What stands in a node is written. -/
def write (i : Nat) (e : Entry) : Arena where
  node k := if k = i then { a.node i with entry := e } else a.node k
  older := by
    intro k j h
    split at h
    · next hk =>
        subst hk
        exact a.older k j h
    · exact a.older k j h

/-- A new node, in front of an older one. -/
def push (i : Nat) (next : Option Nat) (e : Entry) (h : ∀ j, next = some j → j < i) : Arena where
  node k := if k = i then ⟨next, e⟩ else a.node k
  older := by
    intro k j hj
    split at hj
    · next hk =>
        subst hk
        exact h j hj
    · exact a.older k j hj

/-- `*pm = (*pm)->next`, where `pm` is `&m->next` for the node `i` -/
def skip (i j : Nat) (h : (a.node i).next = some j) : Arena where
  node k := if k = i then { a.node i with next := (a.node j).next } else a.node k
  older := by
    intro k l hl
    split at hl
    · next hk =>
        subst hk
        exact Nat.lt_trans (a.older j l hl) (a.older k j h)
    · exact a.older k l hl

/-- `strcmp(m->name, name) == 0` -/
def named (name : String) (i : Nat) : Bool := (a.node i).entry.name = name

/-- The first node behind `i` of this name is taken out. -/
def unlinkAfter (a : Arena) (name : String) (i : Nat) : Arena :=
  match h : (a.node i).next with
  | none => a
  | some j =>
      have := a.older i j h
      if a.named name j then a.skip i j h else a.unlinkAfter name j
termination_by i

theorem write_next (i k : Nat) (e : Entry) : ((a.write i e).node k).next = (a.node k).next := by
  show (if k = i then _ else _ : Macro).next = _
  split
  · next h => rw [h]
  · rfl

theorem listFrom_write (i : Nat) (e : Entry) (p : Option Nat) :
    (a.write i e).listFrom p = a.listFrom p :=
  listFrom_congr fun k _ => a.write_next i k e

theorem entry_write (i k : Nat) (e : Entry) :
    ((a.write i e).node k).entry = if k = i then e else (a.node k).entry := by
  show (if k = i then _ else _ : Macro).entry = _
  split
  · rfl
  · rfl

theorem node_push (i k : Nat) (next : Option Nat) (e : Entry) (h : ∀ j, next = some j → j < i) :
    (a.push i next e h).node k = if k = i then ⟨next, e⟩ else a.node k := rfl

theorem ext_node {a b : Arena} (h : a.node = b.node) : a = b := by
  cases a
  cases b
  cases h
  rfl

theorem write_write (i : Nat) (e e' : Entry) : (a.write i e).write i e' = a.write i e' := by
  refine ext_node (funext fun k => ?_)
  show (if k = i then { (if i = i then _ else _ : Macro) with entry := e' } else (if k = i then _ else _) : Macro) =
    if k = i then _ else _
  split
  · rw [if_pos rfl]
  · rfl

theorem write_self (i : Nat) : a.write i (a.node i).entry = a := by
  refine ext_node (funext fun k => ?_)
  show (if k = i then _ else _ : Macro) = _
  split
  · next h => rw [h]
  · rfl

/-- A pointer to older nodes does not see the new one. -/
theorem listFrom_push {i : Nat} {next : Option Nat} {e : Entry} (h : ∀ j, next = some j → j < i)
    {p : Option Nat} (hp : ∀ j, p = some j → j < i) : (a.push i next e h).listFrom p = a.listFrom p := by
  refine listFrom_congr fun k hk => ?_
  have hki : k ≠ i := by
    cases p with
    | none =>
        rw [listFrom_none] at hk
        exact absurd hk List.not_mem_nil
    | some j => exact Nat.ne_of_lt (Nat.lt_of_le_of_lt (a.le_of_mem rfl hk) (hp j rfl))
  rw [node_push, if_neg hki]

theorem entry_skip {i j : Nat} (h : (a.node i).next = some j) (k : Nat) :
    ((a.skip i j h).node k).entry = (a.node k).entry := by
  show (if k = i then _ else _ : Macro).entry = _
  split
  · next hk => rw [hk]
  · rfl

theorem skip_node {i j : Nat} (h : (a.node i).next = some j) {k : Nat} (hk : k ≠ i) :
    (a.skip i j h).node k = a.node k := if_neg hk

theorem skip_next {i j : Nat} (h : (a.node i).next = some j) :
    ((a.skip i j h).node i).next = (a.node j).next := by
  show (if i = i then _ else _ : Macro).next = _
  rw [if_pos rfl]

theorem sublist_skip {i j : Nat} (h : (a.node i).next = some j) (p : Option Nat) :
    ((a.skip i j h).listFrom p).Sublist (a.listFrom p) := by
  induction p using (a.skip i j h).induction with
  | hnull =>
      rw [listFrom_none]
      exact List.nil_sublist _
  | hnode k ih =>
      rw [listFrom_some, listFrom_some]
      by_cases hk : k = i
      · subst hk
        rw [skip_next] at ih ⊢
        rw [h, listFrom_some]
        exact (ih.cons j).cons_cons k
      · rw [skip_node a h hk] at ih ⊢
        exact ih.cons_cons k

section UnlinkAfter

variable (name : String)

theorem unlinkAfter_none {i : Nat} (h : (a.node i).next = none) : a.unlinkAfter name i = a := by
  rw [unlinkAfter]
  split
  · rfl
  · next j hj => exact absurd (h.symm.trans hj) nofun

theorem unlinkAfter_some {i j : Nat} (h : (a.node i).next = some j) : a.unlinkAfter name i =
    if a.named name j then a.skip i j h else a.unlinkAfter name j := by
  rw [unlinkAfter]
  split
  · next hnone => exact absurd (h.symm.trans hnone) nofun
  · next k hk =>
      obtain rfl := Option.some_inj.mp (hk.symm.trans h)
      rfl

/-- By the nodes that are passed: nothing is behind the last, or one is taken out behind it. -/
@[elab_as_elim]
theorem unlinkAfter_induction {P : Nat → Prop} (hend : ∀ i, (a.node i).next = none → P i)
    (hfound : ∀ i j, (a.node i).next = some j → a.named name j = true → P i)
    (hpass : ∀ i j, (a.node i).next = some j → a.named name j = false → P j → P i) (i : Nat) : P i := by
  induction i using Nat.strongRecOn with
  | ind i ih =>
      cases h : (a.node i).next with
      | none => exact hend i h
      | some j =>
          cases hname : a.named name j with
          | true => exact hfound i j h hname
          | false => exact hpass i j h hname (ih j (a.older i j h))

theorem unlinkAfter_node {i k : Nat} (hk : i < k) : (a.unlinkAfter name i).node k = a.node k := by
  induction i using a.unlinkAfter_induction name with
  | hend i h => rw [unlinkAfter_none a name h]
  | hfound i j h hname =>
      rw [unlinkAfter_some a name h, if_pos hname]
      exact a.skip_node h (Nat.ne_of_gt hk)
  | hpass i j h hname ih =>
      rw [unlinkAfter_some a name h, hname]
      exact ih (Nat.lt_trans (a.older i j h) hk)

theorem entry_unlinkAfter (i k : Nat) : ((a.unlinkAfter name i).node k).entry = (a.node k).entry := by
  induction i using a.unlinkAfter_induction name with
  | hend i h => rw [unlinkAfter_none a name h]
  | hfound i j h hname =>
      rw [unlinkAfter_some a name h, if_pos hname, entry_skip]
  | hpass i j h hname ih =>
      rw [unlinkAfter_some a name h, hname]
      exact ih

theorem sublist_unlinkAfter (i : Nat) (p : Option Nat) :
    ((a.unlinkAfter name i).listFrom p).Sublist (a.listFrom p) := by
  induction i using a.unlinkAfter_induction name with
  | hend i h =>
      rw [unlinkAfter_none a name h]
  | hfound i j h hname =>
      rw [unlinkAfter_some a name h, if_pos hname]
      exact a.sublist_skip h p
  | hpass i j h hname ih =>
      rw [unlinkAfter_some a name h, hname]
      exact ih

theorem unlinkAfter_next (i : Nat) : (a.unlinkAfter name i).listFrom ((a.unlinkAfter name i).node i).next =
    (a.listFrom (a.node i).next).eraseP (a.named name) := by
  induction i using a.unlinkAfter_induction name with
  | hend i h =>
      rw [unlinkAfter_none a name h, h, listFrom_none]
      rfl
  | hfound i j h hname =>
      have hlist : a.listFrom (a.node i).next = j :: a.listFrom (a.node j).next := by
        rw [h, listFrom_some]
      rw [unlinkAfter_some a name h, if_pos hname, hlist, List.eraseP_cons_of_pos hname, skip_next]
      refine listFrom_congr fun k hk => ?_
      rw [skip_node a h (Nat.ne_of_lt (Nat.lt_trans (a.lt_of_mem_next hk) (a.older i j h)))]
  | hpass i j h hname ih =>
      have hlist : a.listFrom (a.node i).next = j :: a.listFrom (a.node j).next := by
        rw [h, listFrom_some]
      have hnext : (a.unlinkAfter name j).node i = a.node i := a.unlinkAfter_node name (a.older i j h)
      rw [unlinkAfter_some a name h, hname, hlist, List.eraseP_cons_of_neg (by rw [hname]; nofun)]
      show (a.unlinkAfter name j).listFrom ((a.unlinkAfter name j).node i).next = _
      rw [hnext, h, listFrom_some, ih]

end UnlinkAfter

end Arena

/-! ## The table -/

/-- `macro_hash`, of the 2048 chains -/
def macroHash (name : String) : Nat :=
  ((name.toUTF8.toList.foldl (fun (h : UInt32) c => (h ^^^ c.toUInt32) * 16777619) 2166136261) &&& 2047).toNat

/-- What `push_macro` keeps: there may be no macro of the name. -/
structure MacroStack where
  name : String
  definition : Option Definition

structure Table where
  arena : Arena
  used : Nat
  macros : Option Nat
  cmdlineMacros : Option Nat
  savedMacros : Option Nat
  inited : Bool
  htab : Nat → List Nat
  stack : List MacroStack
  macros_lt : ∀ i, macros = some i → i < used
  cmdline_lt : ∀ i, cmdlineMacros = some i → i < used
  saved_lt : ∀ i, savedMacros = some i → i < used
  htab_lt : ∀ h, ∀ i ∈ htab h, i < used
  htab_hash : ∀ h, ∀ i ∈ htab h, macroHash (arena.node i).entry.name = h
  htab_nodup : ∀ h, (htab h).Nodup

namespace Table

variable (t : Table)

def entry (i : Nat) : Entry := (t.arena.node i).entry

/-- The nodes from `macros` on. -/
def list : List Nat := t.arena.listFrom t.macros

/-- The nodes of a name in the hash table. -/
def chain (name : String) : List Nat := (t.htab (macroHash name)).filter (t.arena.named name)

/-- `find_macro` -/
def findMacro (name : String) : Option Nat :=
  (t.htab (macroHash name)).find? (t.arena.named name)

/-- `macro_stack = ms` -/
def setStack (stack : List MacroStack) : Table := { t with stack }

/-- What stands in a node is written; its name stays. -/
def write (i : Nat) (definition : Definition) (disabled : Bool) : Table where
  arena := t.arena.write i ⟨(t.entry i).name, definition, disabled⟩
  used := t.used
  macros := t.macros
  cmdlineMacros := t.cmdlineMacros
  savedMacros := t.savedMacros
  inited := t.inited
  htab := t.htab
  stack := t.stack
  macros_lt := t.macros_lt
  cmdline_lt := t.cmdline_lt
  saved_lt := t.saved_lt
  htab_lt := t.htab_lt
  htab_hash := by
    intro h k hk
    rw [Arena.entry_write]
    split
    · next hki =>
        subst hki
        exact t.htab_hash h k hk
    · exact t.htab_hash h k hk
  htab_nodup := t.htab_nodup

/-- A new macro: in front of the list, and by `macro_ht_add` of its chain. -/
def insert (e : Entry) : Table where
  arena := t.arena.push t.used t.macros e t.macros_lt
  used := t.used + 1
  macros := some t.used
  cmdlineMacros := t.cmdlineMacros
  savedMacros := t.savedMacros
  inited := t.inited
  htab h := if h = macroHash e.name then t.used :: t.htab h else t.htab h
  stack := t.stack
  macros_lt := by
    intro i h
    rw [← Option.some_inj.mp h]
    exact Nat.lt_succ_self _
  cmdline_lt i h := Nat.lt_succ_of_lt (t.cmdline_lt i h)
  saved_lt i h := Nat.lt_succ_of_lt (t.saved_lt i h)
  htab_lt := by
    intro h i hi
    split at hi
    · rcases List.mem_cons.mp hi with rfl | hi
      · exact Nat.lt_succ_self _
      · exact Nat.lt_succ_of_lt (t.htab_lt h i hi)
    · exact Nat.lt_succ_of_lt (t.htab_lt h i hi)
  htab_hash := by
    intro h i hi
    have hold : ∀ i ∈ t.htab h, macroHash ((t.arena.push t.used t.macros e t.macros_lt).node i).entry.name = h :=
      fun i hi => by
        rw [Arena.node_push, if_neg (Nat.ne_of_lt (t.htab_lt h i hi))]
        exact t.htab_hash h i hi
    split at hi
    · next hh =>
        rcases List.mem_cons.mp hi with rfl | hi
        · rw [Arena.node_push, if_pos rfl, hh]
        · exact hold i hi
    · exact hold i hi
  htab_nodup := by
    intro h
    split
    · exact List.nodup_cons.mpr ⟨fun hi => Nat.lt_irrefl _ (t.htab_lt h _ hi), t.htab_nodup h⟩
    · exact t.htab_nodup h

/-- The nodes of the list without the first of a name. -/
def unlink (name : String) : Arena × Option Nat :=
  match t.macros with
  | none => (t.arena, none)
  | some i =>
      if t.arena.named name i then (t.arena, (t.arena.node i).next)
      else (t.arena.unlinkAfter name i, some i)

theorem entry_unlink (name : String) (i : Nat) :
    ((t.unlink name).1.node i).entry = t.entry i := by
  rw [unlink]
  split
  · rfl
  · split
    · rfl
    · exact t.arena.entry_unlinkAfter name _ i

/-- `macro_ht_remove`, and out of the list: `#undef` and `add_undef` -/
def undef (name : String) : Table where
  arena := (t.unlink name).1
  used := t.used
  macros := (t.unlink name).2
  cmdlineMacros := t.cmdlineMacros
  savedMacros := t.savedMacros
  inited := t.inited
  htab h := if h = macroHash name then (t.htab h).eraseP (t.arena.named name) else t.htab h
  stack := t.stack
  macros_lt := by
    intro j hj
    rw [unlink] at hj
    split at hj
    · exact absurd hj nofun
    · next i h =>
        have hi := t.macros_lt i h
        split at hj
        · exact Nat.lt_trans (t.arena.older i j hj) hi
        · rw [← Option.some_inj.mp hj]
          exact hi
  cmdline_lt := t.cmdline_lt
  saved_lt := t.saved_lt
  htab_lt := by
    intro h i hi
    split at hi
    · exact t.htab_lt h i (List.mem_of_mem_eraseP hi)
    · exact t.htab_lt h i hi
  htab_hash := by
    intro h i hi
    rw [entry_unlink]
    split at hi
    · exact t.htab_hash h i (List.mem_of_mem_eraseP hi)
    · exact t.htab_hash h i hi
  htab_nodup := by
    intro h
    split
    · exact (t.htab_nodup h).sublist (List.eraseP_sublist)
    · exact t.htab_nodup h

/-- The hash table with the nodes of a list, by `macro_ht_add` of one after the other. -/
def rehash (l : List Nat) : Nat → List Nat :=
  l.foldl (fun htab i h => if h = macroHash (t.entry i).name then i :: htab h else htab h) fun _ => []

theorem rehash_eq (l : List Nat) (h : Nat) :
    t.rehash l h = (l.filter fun i => macroHash (t.entry i).name = h).reverse := by
  induction l using List.reverseRecOn with
  | nil => rfl
  | append_singleton l i ih =>
      rw [rehash, List.foldl_append, List.filter_append, List.reverse_append]
      rw [rehash] at ih
      show (if h = _ then _ else _) = _
      rw [ih]
      split
      · next hh =>
          rw [List.filter_cons, if_pos (decide_eq_true hh.symm)]
          rfl
      · next hh =>
          rw [List.filter_cons, if_neg fun hi => hh (of_decide_eq_true hi).symm]
          rfl

/-- `saved_macros ? saved_macros : cmdline_macros` -/
def start : Option Nat := t.savedMacros.or t.cmdlineMacros

theorem start_lt {i : Nat} (h : t.start = some i) : i < t.used := by
  rw [start] at h
  cases hs : t.savedMacros with
  | none =>
      rw [hs] at h
      exact t.cmdline_lt i h
  | some j =>
      rw [hs] at h
      exact t.saved_lt i (hs.trans h)

/-- `clear_macros` -/
def clearMacros : Table where
  arena := t.arena
  used := t.used
  macros := t.start
  cmdlineMacros := t.cmdlineMacros
  savedMacros := t.savedMacros
  inited := t.inited
  htab := t.rehash (t.arena.listFrom t.start)
  stack := []
  macros_lt _ h := t.start_lt h
  cmdline_lt := t.cmdline_lt
  saved_lt := t.saved_lt
  htab_lt := by
    intro h i hi
    rw [rehash_eq, List.mem_reverse, List.mem_filter] at hi
    cases hs : t.start with
    | none =>
        rw [hs, Arena.listFrom_none] at hi
        exact absurd hi.1 List.not_mem_nil
    | some j =>
        rw [hs] at hi
        exact Nat.lt_of_le_of_lt (t.arena.le_of_mem rfl hi.1) (t.start_lt hs)
  htab_hash := by
    intro h i hi
    rw [rehash_eq, List.mem_reverse, List.mem_filter] at hi
    exact of_decide_eq_true hi.2
  htab_nodup := by
    intro h
    rw [rehash_eq]
    exact List.nodup_reverse.mpr ((t.arena.nodup_listFrom _).filter _)

/-- `add_define` -/
def addDefine (e : Entry) : Table where
  arena := t.arena.push t.used t.cmdlineMacros e t.cmdline_lt
  used := t.used + 1
  macros := t.macros
  cmdlineMacros := some t.used
  savedMacros := t.savedMacros
  inited := t.inited
  htab := t.htab
  stack := t.stack
  macros_lt i h := Nat.lt_succ_of_lt (t.macros_lt i h)
  cmdline_lt := by
    intro i h
    rw [← Option.some_inj.mp h]
    exact Nat.lt_succ_self _
  saved_lt i h := Nat.lt_succ_of_lt (t.saved_lt i h)
  htab_lt h i hi := Nat.lt_succ_of_lt (t.htab_lt h i hi)
  htab_hash := by
    intro h i hi
    rw [Arena.node_push, if_neg (Nat.ne_of_lt (t.htab_lt h i hi))]
    exact t.htab_hash h i hi
  htab_nodup := t.htab_nodup

/-- `saved_macros = macros; macros_inited = true;` -/
def save : Table where
  arena := t.arena
  used := t.used
  macros := t.macros
  cmdlineMacros := t.cmdlineMacros
  savedMacros := t.macros
  inited := true
  htab := t.htab
  stack := t.stack
  macros_lt := t.macros_lt
  cmdline_lt := t.cmdline_lt
  saved_lt := t.macros_lt
  htab_lt := t.htab_lt
  htab_hash := t.htab_hash
  htab_nodup := t.htab_nodup

/-- Before the options. -/
def empty : Table where
  arena := ⟨fun _ => ⟨none, "", ⟨false, false, false, [], ""⟩, false⟩, nofun⟩
  used := 0
  macros := none
  cmdlineMacros := none
  savedMacros := none
  inited := false
  htab _ := []
  stack := []
  macros_lt := nofun
  cmdline_lt := nofun
  saved_lt := nofun
  htab_lt _ _ h := absurd h List.not_mem_nil
  htab_hash _ _ h := absurd h List.not_mem_nil
  htab_nodup _ := List.nodup_nil

/-! ## The operations -/

/-- The macro of the name is found and written, or a new one made. -/
def put (name : String) (definition : Definition) : Table :=
  match t.findMacro name with
  | some i => t.write i definition (t.entry i).disabled
  | none => t.insert ⟨name, definition, false⟩

/-- `define_macro` -/
def defineMacro (name : String) (isFunction : Bool) (params : List String) (body : String) : Table :=
  t.put name ⟨isFunction, false, false, params, body⟩

/-- What `#define` does to the macro of a variadic one. -/
def setVariadic (name : String) (isGnuVariadic : Bool) : Table :=
  match t.findMacro name with
  | some i => t.write i { (t.entry i).definition with isVariadic := true, isGnuVariadic } (t.entry i).disabled
  | none => t

/-- `push_disabled` and `pop_disabled`, for the macro of the name -/
def setDisabled (name : String) (disabled : Bool) : Table :=
  match t.findMacro name with
  | some i => t.write i (t.entry i).definition disabled
  | none => t

/-- `push_macro` -/
def pushMacro (name : String) : Table :=
  t.setStack (⟨name, (t.findMacro name).map fun i => (t.entry i).definition⟩ :: t.stack)

/-- `pop_macro` -/
def popMacro (name : String) : Table :=
  match t.stack.find? fun ms => ms.name = name with
  | none => t
  | some ms =>
      let t := t.setStack (t.stack.eraseP fun ms => ms.name = name)
      match ms.definition with
      | none => t.undef name
      | some definition => t.put name definition

/-- `dump_macros` -/
def dump : List (String × Definition) := t.list.map fun i => ((t.entry i).name, (t.entry i).definition)

/-! ## What can be seen -/

theorem findMacro_eq (name : String) : t.findMacro name = (t.chain name).head? :=
  List.head?_filter.symm

theorem lt_of_mem_list {i : Nat} (h : i ∈ t.list) : i < t.used := by
  cases hm : t.macros with
  | none =>
      rw [list, hm, Arena.listFrom_none] at h
      exact absurd h List.not_mem_nil
  | some j =>
      rw [list, hm] at h
      exact Nat.lt_of_le_of_lt (t.arena.le_of_mem rfl h) (t.macros_lt j hm)

theorem lt_of_mem_chain {i : Nat} {name : String} (h : i ∈ t.chain name) : i < t.used :=
  t.htab_lt _ i (List.mem_of_mem_filter h)

theorem name_of_mem_chain {i : Nat} {name : String} (h : i ∈ t.chain name) : (t.entry i).name = name :=
  of_decide_eq_true (List.mem_filter.mp h).2

section Write

variable (i : Nat) (definition : Definition) (disabled : Bool)

theorem list_write : (t.write i definition disabled).list = t.list := Arena.listFrom_write _ _ _ _

theorem entry_write (k : Nat) : (t.write i definition disabled).entry k =
    if k = i then ⟨(t.entry i).name, definition, disabled⟩ else t.entry k := Arena.entry_write _ _ _ _

theorem chain_write (name : String) : (t.write i definition disabled).chain name = t.chain name := by
  refine congrArg (fun p => (t.htab (macroHash name)).filter p) (funext fun k => ?_)
  show decide (((t.write i definition disabled).entry k).name = name) = decide ((t.entry k).name = name)
  rw [entry_write]
  split
  · next h => rw [h]
  · rfl

end Write

section Insert

variable (e : Entry)

theorem entry_insert (k : Nat) : (t.insert e).entry k = if k = t.used then e else t.entry k := by
  show ((t.insert e).arena.node k).entry = _
  rw [insert, Arena.node_push]
  split
  · rfl
  · rfl

theorem list_insert : (t.insert e).list = t.used :: t.list := by
  show Arena.listFrom _ (some t.used) = _
  rw [Arena.listFrom_some, insert, Arena.node_push, if_pos rfl, Arena.listFrom_push _ _ t.macros_lt]
  rfl

theorem chain_insert (name : String) : (t.insert e).chain name =
    if name = e.name then t.used :: t.chain name else t.chain name := by
  -- the new node is in the chain of its name only, and the others are as they were
  have hold : (t.htab (macroHash name)).filter ((t.insert e).arena.named name) = t.chain name := by
    refine List.filter_congr fun k hk => ?_
    show decide (((t.insert e).entry k).name = name) = decide ((t.entry k).name = name)
    rw [entry_insert, if_neg (Nat.ne_of_lt (t.htab_lt _ k hk))]
  have hnew : (t.insert e).arena.named name t.used = decide (e.name = name) := by
    show decide (((t.insert e).entry t.used).name = name) = _
    rw [entry_insert, if_pos rfl]
  show (if macroHash name = macroHash e.name then _ else _ : List Nat).filter _ = _
  by_cases hname : name = e.name
  · rw [if_pos hname, if_pos (congrArg macroHash hname), List.filter_cons, hnew,
      if_pos (decide_eq_true hname.symm), hold]
  · rw [if_neg hname]
    split
    · rw [List.filter_cons, hnew, if_neg fun h => hname (of_decide_eq_true h).symm, hold]
    · exact hold

end Insert

section Undef

variable (name : String)

theorem entry_undef (i : Nat) : (t.undef name).entry i = t.entry i := t.entry_unlink name i

theorem named_undef (n : String) : (t.undef name).arena.named n = t.arena.named n :=
  funext fun i => congrArg (fun e : Entry => decide (e.name = n)) (t.entry_undef name i)

theorem list_undef : (t.undef name).list = t.list.eraseP (t.arena.named name) := by
  show (t.unlink name).1.listFrom (t.unlink name).2 = _
  rw [unlink, list]
  split
  · next h =>
      rw [h, Arena.listFrom_none]
      rfl
  · next i h =>
      rw [h, Arena.listFrom_some]
      split
      · next hname => rw [List.eraseP_cons_of_pos hname]
      · next hname => rw [List.eraseP_cons_of_neg hname, Arena.listFrom_some, Arena.unlinkAfter_next]

theorem chain_undef (n : String) :
    (t.undef name).chain n = if n = name then (t.chain n).tail else t.chain n := by
  rw [chain, named_undef]
  show (if macroHash n = macroHash name then _ else _ : List Nat).filter _ = _
  by_cases hn : n = name
  · subst hn
    rw [if_pos rfl, if_pos rfl]
    exact filter_eraseP_self _ _
  · rw [if_neg hn]
    split
    · refine filter_eraseP _ fun i hi => decide_eq_false fun h => hn ?_
      rw [← h]
      exact of_decide_eq_true hi
    · rfl

end Undef

theorem list_clearMacros : t.clearMacros.list = t.arena.listFrom t.start := rfl

theorem chain_clearMacros (name : String) : t.clearMacros.chain name =
    ((t.arena.listFrom t.start).filter (t.arena.named name)).reverse := by
  show (t.rehash _ _).filter _ = _
  rw [rehash_eq, List.filter_reverse, List.filter_filter]
  refine congrArg List.reverse (List.filter_congr fun i _ => ?_)
  refine Bool.eq_iff_iff.mpr ?_
  rw [Bool.and_eq_true, decide_eq_true_eq]
  exact and_iff_left_of_imp fun h => congrArg macroHash (of_decide_eq_true h)

/-! ## Writing twice -/

theorem ext_arena {s t : Table} (harena : s.arena = t.arena) (hused : s.used = t.used) (hmacros : s.macros = t.macros)
    (hcmdline : s.cmdlineMacros = t.cmdlineMacros) (hsaved : s.savedMacros = t.savedMacros) (hinited : s.inited = t.inited)
    (hhtab : s.htab = t.htab) (hstack : s.stack = t.stack) : s = t := by
  cases s
  cases t
  cases harena
  cases hused
  cases hmacros
  cases hcmdline
  cases hsaved
  cases hinited
  cases hhtab
  cases hstack
  rfl

theorem setDisabled_eq {i : Nat} {name : String} (h : t.findMacro name = some i) (disabled : Bool) :
    t.setDisabled name disabled = t.write i (t.entry i).definition disabled := by
  rw [setDisabled, h]

theorem findMacro_write (i : Nat) (definition : Definition) (disabled : Bool) (name : String) :
    (t.write i definition disabled).findMacro name = t.findMacro name := by
  rw [findMacro_eq, findMacro_eq, chain_write]

/-- A macro is disabled and enabled again. -/
theorem setDisabled_setDisabled {i : Nat} {name : String} (h : t.findMacro name = some i)
    (hdisabled : (t.entry i).disabled = false) : (t.setDisabled name true).setDisabled name false = t := by
  have hfind : (t.write i (t.entry i).definition true).findMacro name = some i := by rw [findMacro_write, h]
  rw [t.setDisabled_eq h, setDisabled_eq _ hfind, entry_write, if_pos rfl]
  refine ext_arena ?_ rfl rfl rfl rfl rfl rfl rfl
  show (t.arena.write i _).write i ⟨((t.write i _ true).entry i).name, _, false⟩ = t.arena
  rw [Arena.write_write, entry_write, if_pos rfl, ← hdisabled]
  exact t.arena.write_self i

end Table

end Rcc.Macros

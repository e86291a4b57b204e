import Rcc.MacroRenaming
import Rcc.Steps

/-!
# The definition in force

Which definition of a name `find_macro` should find, over any sequence of options,
definitions and resets, and whether it does. `History` is told of the same operations
as the table and keeps, for each name, the newest definition that was not taken back.
What it cannot know is what stands before a file: it writes down the options, and
once the built-in macros are there the whole list, and goes back to that.

Nothing looks for an older `-D` of the same name before a new one is put in front
of it, and the nodes before a file can be written and unlinked by it. `Allowed`
excludes both. Then the list has a name once, the chains are those of the list, and
what stands in the node that is found is what the history has.
-/

namespace Rcc.Macros

/-! ## Operations -/

/-- What is done to the macros. A macro is defined by `define_macro`, for the built-in
ones and for a `#define`, which then may make it a variadic one. -/
inductive Act where
  | option (name body : String)
  | define (name : String) (isFunction : Bool) (params : List String) (body : String) (isGnuVariadic : Option Bool)
  | undef (name : String)
  | pushMacro (name : String)
  | popMacro (name : String)
  | save
  | clear

/-- What an option is a definition of. -/
def optionDefinition (body : String) : Definition := ⟨false, false, false, [], body⟩

def defined (isFunction : Bool) (params : List String) (body : String) (isGnuVariadic : Option Bool) : Definition :=
  ⟨isFunction, isGnuVariadic.isSome, isGnuVariadic.getD false, params, body⟩

/-- `define_macro`, and what `#define` sets for `...` -/
def Table.define (t : Table) (name : String) (isFunction : Bool) (params : List String) (body : String) :
    Option Bool → Table
  | none => t.defineMacro name isFunction params body
  | some isGnuVariadic => (t.defineMacro name isFunction params body).setVariadic name isGnuVariadic

def Act.apply (t : Table) : Act → Table
  | option name body => t.addDefine ⟨name, optionDefinition body, false⟩
  | define name isFunction params body isGnuVariadic => t.define name isFunction params body isGnuVariadic
  | undef name => t.undef name
  | pushMacro name => t.pushMacro name
  | popMacro name => t.popMacro name
  | save => t.save
  | clear => t.clearMacros

/-! ## The history -/

/-- The definitions as they were made and taken back, and what stands before a file,
the newest first: the options, or all that there was when it was saved. -/
structure History where
  current : String → Option Definition
  pushed : List MacroStack
  options : List (String × Definition)
  saved : List (String × Definition)

def History.empty : History := ⟨fun _ => none, [], [], []⟩

def History.base (h : History) : List (String × Definition) := if h.saved = [] then h.options else h.saved

def History.set (h : History) (name : String) (d : Option Definition) : History :=
  { h with current := fun n => if n = name then d else h.current n }

/-- The newest definition in a list of them. -/
def newest (l : List (String × Definition)) (name : String) : Option Definition :=
  (l.find? fun p => p.1 = name).map Prod.snd

/-- What an operation is to the history; `dump` is what there is when the built-in
macros are complete. -/
def History.after (h : History) (dump : List (String × Definition)) : Act → History
  | .option name body => { h with options := (name, optionDefinition body) :: h.options }
  | .define name isFunction params body isGnuVariadic =>
      h.set name (some (defined isFunction params body isGnuVariadic))
  | .undef name => h.set name none
  | .pushMacro name => { h with pushed := ⟨name, h.current name⟩ :: h.pushed }
  | .popMacro name =>
      match h.pushed.find? fun ms => ms.name = name with
      | none => h
      | some ms => { h with pushed := h.pushed.eraseP fun ms => ms.name = name }.set name ms.definition
  | .save => { h with saved := dump }
  | .clear => { h with current := newest h.base, pushed := [] }

/-- The table beside its history. -/
def step (s : Table × History) (a : Act) : Option (Table × History) :=
  some (a.apply s.1, s.2.after s.1.dump a)

/-- Before the options. -/
def start : Table × History := (.empty, .empty)

/-- The definitions from a node on. -/
def Table.dumpFrom (t : Table) (p : Option Nat) : List (String × Definition) :=
  (t.arena.listFrom p).map fun i => ((t.entry i).name, (t.entry i).definition)

/-- No option for a name that another one is for; and a reset finds what was there
before the file. -/
def Act.Allowed (s : Table × History) : Act → Prop
  | option name _ => name ∉ s.2.options.map Prod.fst
  | clear => s.1.dumpFrom s.1.start = s.2.base
  | _ => True

/-- `find_macro` finds what the list has, each name is there once, and what is found
is the newest definition that was not taken back. -/
structure Consistent (s : Table × History) : Prop where
  found : ∀ name, (s.1.findMacro name).isSome = true ↔ ∃ i ∈ s.1.list, (s.1.entry i).name = name
  once : ∀ name, (s.1.list.filter (s.1.arena.named name)).length ≤ 1 ∧ (s.1.chain name).length ≤ 1
  newest : ∀ name, (s.1.findMacro name).map (fun i => (s.1.entry i).definition) = s.2.current name

/-! ## One node of a name -/

variable {t : Table} {h : History} {name : String}

namespace Table

/-- The list has each name once. -/
def Once (t : Table) : Prop := ∀ name, (t.list.filter (t.arena.named name)).length ≤ 1

theorem reverse_of_length {α : Type} {l : List α} (h : l.length ≤ 1) : l.reverse = l := by
  match l, h with
  | [], _ => rfl
  | [_], _ => rfl

theorem Once.chain (honce : t.Once) (hhash : t.Hashed) (name : String) :
    t.chain name = t.list.filter (t.arena.named name) := by
  rw [hhash, reverse_of_length (honce name)]

theorem Once.find (honce : t.Once) (hhash : t.Hashed) (name : String) :
    t.findMacro name = t.list.find? (t.arena.named name) := by
  rw [findMacro_eq, honce.chain hhash, List.head?_filter]

/-- The definition that is found. -/
def lookup (t : Table) (name : String) : Option Definition :=
  (t.findMacro name).map fun i => (t.entry i).definition

theorem Once.lookup (honce : t.Once) (hhash : t.Hashed) (name : String) :
    t.lookup name = newest t.dump name := by
  rw [Table.lookup, honce.find hhash, newest, dump, List.find?_map, Option.map_map]
  rfl

/-- Only what is found for a name is written for it. -/
theorem lookup_write {i : Nat} (hfind : t.findMacro name = some i) (d : Definition) (disabled : Bool)
    (n : String) : (t.write i d disabled).lookup n = if n = name then some d else t.lookup n := by
  rw [lookup, lookup, findMacro_write]
  split
  · next hn =>
      rw [hn, hfind, Option.map_some, entry_write, if_pos rfl]
  · next hn =>
      cases hk : t.findMacro n with
      | none => rfl
      | some k =>
          have hki : k ≠ i := fun hki => hn (by rw [← name_of_find hk, hki, name_of_find hfind])
          rw [Option.map_some, Option.map_some, entry_write, if_neg hki]

theorem lookup_insert (e : Entry) (n : String) :
    (t.insert e).lookup n = if n = e.name then some e.definition else t.lookup n := by
  rw [lookup, findMacro_eq, chain_insert]
  split
  · rw [List.head?_cons, Option.map_some, entry_insert, if_pos rfl]
  · rw [lookup, ← findMacro_eq]
    cases hk : t.findMacro n with
    | none => rfl
    | some k =>
        have hne : k ≠ t.used := by
          rw [findMacro_eq] at hk
          exact Nat.ne_of_lt (t.lt_of_mem_chain (List.mem_of_mem_head? hk))
        rw [Option.map_some, Option.map_some, entry_insert, if_neg hne]

theorem lookup_put (d : Definition) (n : String) :
    (t.put name d).lookup n = if n = name then some d else t.lookup n := by
  rw [put]
  split
  · next i hfind => exact lookup_write hfind _ _ n
  · exact lookup_insert _ n

theorem stack_put (d : Definition) : (t.put name d).stack = t.stack := by
  rw [put]
  split
  · rfl
  · rfl

theorem stack_setVariadic (gnu : Bool) : (t.setVariadic name gnu).stack = t.stack := by
  rw [setVariadic]
  split
  · rfl
  · rfl

theorem find_put (d : Definition) : ∃ i, (t.put name d).findMacro name = some i := by
  have hsome : ((t.put name d).lookup name).isSome = true := by rw [lookup_put, if_pos rfl]; rfl
  rw [lookup, Option.isSome_map] at hsome
  exact Option.isSome_iff_exists.mp hsome

theorem lookup_define (isFunction : Bool) (params : List String) (body : String) (gnu : Option Bool) (n : String) :
    (t.define name isFunction params body gnu).lookup n =
      if n = name then some (defined isFunction params body gnu) else t.lookup n := by
  cases gnu with
  | none => exact lookup_put _ n
  | some gnu =>
      obtain ⟨i, hi⟩ : ∃ i, (t.put name ⟨isFunction, false, false, params, body⟩).findMacro name = some i :=
        t.find_put _
      have hd : (t.put name ⟨isFunction, false, false, params, body⟩).lookup name = _ := t.lookup_put _ name
      rw [if_pos rfl, lookup, hi, Option.map_some] at hd
      rw [define, setVariadic, defineMacro, hi]
      show (write _ _ _ _).lookup n = _
      rw [lookup_write hi, Option.some_inj.mp hd, lookup_put]
      split
      · rfl
      · rfl

/-- The hash table has each name once. -/
def Single (t : Table) : Prop := ∀ name, (t.chain name).length ≤ 1

theorem Once.single (honce : t.Once) (hhash : t.Hashed) : t.Single := by
  intro name
  rw [honce.chain hhash]
  exact honce name

theorem lookup_undef (hsingle : t.Single) (n : String) :
    (t.undef name).lookup n = if n = name then none else t.lookup n := by
  have hentry : (fun i => ((t.undef name).entry i).definition) = fun i => (t.entry i).definition :=
    funext fun i => by rw [entry_undef]
  rw [lookup, lookup, hentry, findMacro_eq, findMacro_eq, chain_undef]
  split
  · next hn =>
      have hlen := hsingle name
      rw [hn]
      match t.chain name, hlen with
      | [], _ => rfl
      | [_], _ => rfl
  · rfl

/-! ## The list and the chains keep together -/

theorem Once.write (honce : t.Once) (i : Nat) (d : Definition) (disabled : Bool) :
    (t.write i d disabled).Once := by
  intro n
  have hnamed : (t.write i d disabled).arena.named n = t.arena.named n := funext fun k => by
    show decide (((t.write i d disabled).entry k).name = n) = decide ((t.entry k).name = n)
    rw [entry_write]
    split
    · next hk => rw [hk]
    · rfl
  rw [list_write, hnamed]
  exact honce n

theorem Once.put (honce : t.Once) (hhash : t.Hashed) (name : String) (d : Definition) : (t.put name d).Once := by
  rw [Table.put]
  split
  · exact honce.write _ _ _
  · next hfind =>
      intro n
      have hnamed : ∀ k ∈ t.list, (t.insert ⟨name, d, false⟩).arena.named n k = t.arena.named n k :=
        fun k hk => by
          show decide (((t.insert ⟨name, d, false⟩).entry k).name = n) = decide ((t.entry k).name = n)
          rw [entry_insert, if_neg (Nat.ne_of_lt (t.lt_of_mem_list hk))]
      have hnew : (t.insert ⟨name, d, false⟩).arena.named n t.used = decide (name = n) := by
        show decide (((t.insert ⟨name, d, false⟩).entry t.used).name = n) = _
        rw [entry_insert, if_pos rfl]
      rw [list_insert, List.filter_cons, hnew, List.filter_congr hnamed]
      split
      · next hn =>
          have hnone : t.list.filter (t.arena.named n) = [] := by
            rw [List.filter_eq_nil_iff, ← of_decide_eq_true hn]
            exact hhash.find_none hfind
          rw [hnone]
          exact Nat.le_refl 1
      · exact honce n

theorem Once.undef (honce : t.Once) (name : String) : (t.undef name).Once := by
  intro n
  rw [list_undef, named_undef]
  exact Nat.le_trans (List.eraseP_sublist.filter _).length_le (honce n)

theorem Hashed.undef (hhash : t.Hashed) (honce : t.Once) (name : String) : (t.undef name).Hashed := by
  intro n
  rw [chain_undef, list_undef, named_undef]
  split
  · next hn =>
      rw [hn, filter_eraseP_self, hhash, reverse_of_length (honce name)]
      refine (reverse_of_length ?_).symm
      rw [List.length_tail]
      exact Nat.le_trans (Nat.sub_le _ _) (honce name)
  · next hn =>
      have hother : (t.list.eraseP (t.arena.named name)).filter (t.arena.named n) =
          t.list.filter (t.arena.named n) :=
        filter_eraseP _ fun i hi => decide_eq_false fun hni => hn (hni.symm.trans (of_decide_eq_true hi))
      rw [hother, hhash]

theorem Hashed.write (hhash : t.Hashed) (i : Nat) (d : Definition) (disabled : Bool) :
    (t.write i d disabled).Hashed := by
  intro n
  rw [chain_write, list_write, hhash]
  refine congrArg List.reverse (List.filter_congr fun k _ => ?_)
  show decide ((t.entry k).name = n) = decide (((t.write i d disabled).entry k).name = n)
  rw [entry_write]
  split
  · next hk => rw [hk]
  · rfl

theorem Hashed.setVariadic (hhash : t.Hashed) (name : String) (gnu : Bool) : (t.setVariadic name gnu).Hashed := by
  rw [Table.setVariadic]
  split
  · exact hhash.write _ _ _
  · exact hhash

theorem Once.setVariadic (honce : t.Once) (name : String) (gnu : Bool) : (t.setVariadic name gnu).Once := by
  rw [Table.setVariadic]
  split
  · exact honce.write _ _ _
  · exact honce

/-! ## Options -/

section AddDefine

variable (e : Entry)

theorem list_addDefine : (t.addDefine e).list = t.list := Arena.listFrom_push _ t.cmdline_lt t.macros_lt

theorem entry_addDefine {k : Nat} (hk : k < t.used) : (t.addDefine e).entry k = t.entry k := by
  show ((t.arena.push t.used t.cmdlineMacros e t.cmdline_lt).node k).entry = _
  rw [Arena.node_push, if_neg (Nat.ne_of_lt hk)]
  rfl

theorem named_addDefine (n : String) {k : Nat} (hk : k < t.used) :
    (t.addDefine e).arena.named n k = t.arena.named n k :=
  congrArg (fun e : Entry => decide (e.name = n)) (entry_addDefine e hk)

theorem chain_addDefine (n : String) : (t.addDefine e).chain n = t.chain n :=
  List.filter_congr fun _ hk => named_addDefine e n (t.htab_lt _ _ hk)

theorem filter_addDefine (n : String) : t.list.filter ((t.addDefine e).arena.named n) =
    t.list.filter (t.arena.named n) :=
  List.filter_congr fun _ hk => named_addDefine e n (t.lt_of_mem_list hk)

theorem lookup_addDefine (n : String) : (t.addDefine e).lookup n = t.lookup n := by
  rw [lookup, lookup, findMacro_eq, findMacro_eq, chain_addDefine]
  cases hk : (t.chain n).head? with
  | none => rfl
  | some k =>
      rw [Option.map_some, Option.map_some, entry_addDefine e (t.lt_of_mem_chain (List.mem_of_mem_head? hk))]

end AddDefine

end Table

/-! ## Every run -/

/-- Each name once. -/
def OnceIn (l : List (String × Definition)) : Prop := ∀ name, (l.filter fun p => p.1 = name).length ≤ 1

theorem once_iff_dump : t.Once ↔ OnceIn t.dump := by
  refine forall_congr' fun name => ?_
  rw [Table.dump, List.filter_map, List.length_map]
  rfl

/-- What every operation keeps. -/
structure Invariant (s : Table × History) : Prop where
  hashed : s.1.Hashed
  once : s.1.Once
  lookup : ∀ name, s.1.lookup name = s.2.current name
  stack : s.1.stack = s.2.pushed
  options : OnceIn s.2.options
  saved : OnceIn s.2.saved

namespace Invariant

variable (hI : Invariant (t, h))
include hI

theorem base : OnceIn h.base := by
  rw [History.base]
  split
  · exact hI.options
  · exact hI.saved

theorem put {t' : Table} {name : String} {d : Option Definition} (hhash : t'.Hashed) (honce : t'.Once)
    (hlookup : ∀ n, t'.lookup n = if n = name then d else t.lookup n) (hstack : t'.stack = t.stack) :
    Invariant (t', h.set name d) := by
  refine ⟨hhash, honce, fun n => ?_, hstack.trans hI.stack, hI.options, hI.saved⟩
  rw [hlookup, hI.lookup]
  rfl

theorem option (body : String) (hname : name ∉ h.options.map Prod.fst) :
    Invariant (t.addDefine ⟨name, optionDefinition body, false⟩,
      { h with options := (name, optionDefinition body) :: h.options }) := by
  refine ⟨fun n => ?_, fun n => ?_, fun n => ?_, hI.stack, fun n => ?_, hI.saved⟩
  · rw [Table.chain_addDefine, Table.list_addDefine, Table.filter_addDefine]
    exact hI.hashed n
  · rw [Table.list_addDefine, Table.filter_addDefine]
    exact hI.once n
  · rw [Table.lookup_addDefine]
    exact hI.lookup n
  · rw [List.filter_cons]
    split
    · next hn =>
        have hnone : h.options.filter (fun p => p.1 = n) = [] := by
          rw [List.filter_eq_nil_iff]
          intro p hp hpn
          refine hname (List.mem_map.mpr ⟨p, hp, ?_⟩)
          rw [of_decide_eq_true hpn, ← of_decide_eq_true hn]
        rw [hnone]
        exact Nat.le_refl 1
    · exact hI.options n

theorem clear (hbase : t.dumpFrom t.start = h.base) :
    Invariant (t.clearMacros, { h with current := newest h.base, pushed := [] }) := by
  have hdump : t.clearMacros.dump = h.base := hbase
  have honce : t.clearMacros.Once := once_iff_dump.mpr (hdump ▸ hI.base)
  refine ⟨Table.hashed_clearMacros, honce, fun n => ?_, rfl, hI.options, hI.saved⟩
  rw [honce.lookup Table.hashed_clearMacros, hdump]

theorem setStack (stack : List MacroStack) : Invariant (t.setStack stack, { h with pushed := stack }) :=
  ⟨hI.hashed, hI.once, hI.lookup, rfl, hI.options, hI.saved⟩

theorem popMacro : Invariant (t.popMacro name, h.after t.dump (.popMacro name)) := by
  have hstack : t.stack = h.pushed := hI.stack
  rw [Table.popMacro, History.after, hstack]
  cases h.pushed.find? fun ms => ms.name = name with
  | none => exact hI
  | some ms =>
      have hpop := hI.setStack (h.pushed.eraseP fun ms => ms.name = name)
      dsimp only
      cases ms.definition with
      | none =>
          exact hpop.put (hpop.hashed.undef hpop.once name) (hpop.once.undef name)
            (Table.lookup_undef (hpop.once.single hpop.hashed)) rfl
      | some d =>
          exact hpop.put (hpop.hashed.put name d) (hpop.once.put hpop.hashed name d) (Table.lookup_put d)
            (Table.stack_put d)

theorem define (isFunction : Bool) (params : List String) (body : String) (gnu : Option Bool) :
    Invariant (t.define name isFunction params body gnu, h.set name (some (defined isFunction params body gnu))) := by
  have hhash := hI.hashed.put name ⟨isFunction, false, false, params, body⟩
  have honce := hI.once.put hI.hashed name ⟨isFunction, false, false, params, body⟩
  cases gnu with
  | none => exact hI.put hhash honce (Table.lookup_define _ _ _ none) (Table.stack_put _)
  | some gnu =>
      exact hI.put (hhash.setVariadic name gnu) (honce.setVariadic name gnu) (Table.lookup_define _ _ _ (some gnu))
        ((Table.stack_setVariadic gnu).trans (Table.stack_put _))

theorem step {a : Act} (ha : a.Allowed (t, h)) : Invariant (a.apply t, h.after t.dump a) := by
  cases a with
  | option name body => exact hI.option body ha
  | define name isFunction params body gnu => exact hI.define isFunction params body gnu
  | undef name =>
      exact hI.put (hI.hashed.undef hI.once name) (hI.once.undef name) (Table.lookup_undef (hI.once.single hI.hashed)) rfl
  | pushMacro name =>
      have hpush := hI.setStack (⟨name, t.lookup name⟩ :: t.stack)
      rw [hI.lookup name, hI.stack] at hpush
      show Invariant (t.setStack (⟨name, t.lookup name⟩ :: t.stack), _)
      rw [hI.lookup name, hI.stack]
      exact hpush
  | popMacro name => exact hI.popMacro
  | save => exact ⟨hI.hashed, hI.once, hI.lookup, hI.stack, hI.options, once_iff_dump.mp hI.once⟩
  | clear => exact hI.clear ha

theorem consistent : Consistent (t, h) := by
  refine ⟨fun name => ?_, fun name => ⟨hI.once name, hI.once.single hI.hashed name⟩, hI.lookup⟩
  show (t.findMacro name).isSome = true ↔ _
  rw [hI.once.find hI.hashed, List.find?_isSome]
  exact exists_congr fun i => and_congr_right fun _ => decide_eq_true_iff

end Invariant

theorem invariant_start : Invariant start := by
  have hlist : Table.empty.list = [] := by
    show Arena.listFrom _ none = _
    rw [Arena.listFrom_none]
  refine ⟨fun n => ?_, fun n => ?_, fun n => rfl, rfl, fun n => Nat.zero_le 1, fun n => Nat.zero_le 1⟩
  · show Table.empty.chain n = (Table.empty.list.filter _).reverse
    rw [hlist]
    rfl
  · show (Table.empty.list.filter _).length ≤ 1
    rw [hlist]
    exact Nat.zero_le 1

/-- **The definition in force.** Whatever is done to the macros, `find_macro` finds
the newest definition that was not taken back, if no two options are for one name and
every reset finds what there was before the file. -/
theorem consistent_of_allowed {acts : List Act} {s : Table × History}
    (hallowed : Steps.Everywhere step start (fun _ s a => a.Allowed s) acts)
    (hrun : acts.foldlM step start = some s) : Consistent s := by
  suffices hI : Invariant s from hI.consistent
  induction acts using List.reverseRecOn generalizing s with
  | nil =>
      obtain rfl := Option.some_inj.mp hrun
      exact invariant_start
  | append_singleton acts a ih =>
      obtain ⟨m, hm, hs⟩ := Steps.foldlM_snoc.mp hrun
      obtain ⟨hbefore, ha⟩ := (Steps.everywhere_snoc hm).mp hallowed
      rw [← Option.some_inj.mp hs]
      exact (ih hbefore hm).step ha

/-- `-DA`, and a `#define` that is pushed. -/
theorem optionThenDefine_consistent : ∃ s, [Act.option "A" "1", .clear, .define "B" false [] "2" none,
    .pushMacro "B"].foldlM step start = some s ∧ Consistent s := by
  have hrun : [Act.option "A" "1", .clear, .define "B" false [] "2" none, .pushMacro "B"].foldlM step start =
      some _ := rfl
  refine ⟨_, hrun, consistent_of_allowed ?_ hrun⟩
  refine (Steps.everywhere_cons rfl).mpr ⟨List.not_mem_nil, ?_⟩
  refine (Steps.everywhere_cons rfl).mpr ⟨?_, ?_⟩
  · show ((Table.empty.addDefine ⟨"A", optionDefinition "1", false⟩).arena.listFrom (some 0)).map _ = _
    rw [Arena.listFrom_some]
    show (0 :: Arena.listFrom _ none).map _ = _
    rw [Arena.listFrom_none]
    rfl
  · refine (Steps.everywhere_cons rfl).mpr ⟨trivial, ?_⟩
    exact (Steps.everywhere_cons rfl).mpr ⟨trivial, Steps.everywhere_nil⟩

/-- The table behind `-DA=1 -DA=2`. -/
def optionTwice : Table :=
  (Table.empty.addDefine ⟨"A", optionDefinition "1", false⟩).addDefine ⟨"A", optionDefinition "2", false⟩

theorem optionTwice_chain : optionTwice.clearMacros.chain "A" = [0, 1] := by
  have hlist : optionTwice.arena.listFrom optionTwice.start = [1, 0] := by
    show Arena.listFrom _ (some 1) = _
    rw [Arena.listFrom_some]
    show 1 :: Arena.listFrom _ (some 0) = _
    rw [Arena.listFrom_some]
    show 1 :: 0 :: Arena.listFrom _ none = _
    rw [Arena.listFrom_none]
  rw [Table.chain_clearMacros, hlist]
  rfl

/-- The list has `A` twice, and the older one is found. -/
theorem optionTwice_not_consistent : ∃ s, [Act.option "A" "1", .option "A" "2", .clear].foldlM step start = some s ∧
    ¬ Consistent s ∧ s.1.lookup "A" = some (optionDefinition "1") := by
  refine ⟨(optionTwice.clearMacros, _), rfl, fun h => ?_, ?_⟩
  · have hlen := (h.once "A").2
    rw [optionTwice_chain] at hlen
    exact absurd hlen (by decide)
  · rw [Table.lookup, Table.findMacro_eq, optionTwice_chain]
    rfl

end Rcc.Macros

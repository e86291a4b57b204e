import Rcc.MacroTable

/-!
# Macros at other places

Two tables whose nodes lie at other places in the arena cannot be told apart: what
the operations reply is the same, and the tables stay so. A table that was cleared
is such a table for the one it was before the first file, as long as the nodes of
the snapshot are there and are written as they were.
-/

namespace Rcc.Macros

namespace Table

variable {s t : Table}

/-- The nodes that are still reached. -/
def Live (t : Table) (i : Nat) : Prop := i ∈ t.list ∨ ∃ name, i ∈ t.chain name

theorem Live.lt {i : Nat} (h : t.Live i) : i < t.used := by
  rcases h with h | ⟨name, h⟩
  · exact t.lt_of_mem_list h
  · exact t.lt_of_mem_chain h

theorem live_of_find {name : String} {i : Nat} (h : t.findMacro name = some i) : t.Live i := by
  rw [findMacro_eq] at h
  exact .inr ⟨name, List.mem_of_mem_head? h⟩

theorem name_of_find {name : String} {i : Nat} (h : t.findMacro name = some i) :
    (t.entry i).name = name := by
  rw [findMacro_eq] at h
  exact t.name_of_mem_chain (List.mem_of_mem_head? h)

/-- What is at `i` in `t` is at `place i` in `s`. -/
structure Renames (place : Nat → Nat) (s t : Table) : Prop where
  inj : ∀ i j, t.Live i → t.Live j → place i = place j → i = j
  entry : ∀ i, t.Live i → s.entry (place i) = t.entry i
  list : s.list = t.list.map place
  chain : ∀ name, s.chain name = (t.chain name).map place
  stack : s.stack = t.stack

/-- The tables cannot be told apart. -/
def Same (s t : Table) : Prop := ∃ place, Renames place s t

namespace Renames

variable {place : Nat → Nat} (h : Renames place s t)
include h

theorem live {i : Nat} (hi : t.Live i) : s.Live (place i) := by
  rcases hi with hi | ⟨name, hi⟩
  · refine .inl ?_
    rw [h.list]
    exact List.mem_map_of_mem hi
  · refine .inr ⟨name, ?_⟩
    rw [h.chain]
    exact List.mem_map_of_mem hi

theorem find (name : String) : s.findMacro name = (t.findMacro name).map place := by
  rw [findMacro_eq, findMacro_eq, h.chain, List.head?_map]

theorem write {i : Nat} (hi : t.Live i) (definition : Definition) (disabled : Bool) :
    Renames place (s.write (place i) definition disabled) (t.write i definition disabled) where
  inj j k hj hk := by
    rw [Live, list_write] at hj hk
    simp only [chain_write] at hj hk
    exact h.inj j k hj hk
  entry j hj := by
    rw [Live, list_write] at hj
    simp only [chain_write] at hj
    rw [entry_write, entry_write, h.entry i hi, h.entry j hj]
    by_cases hji : j = i
    · rw [if_pos hji, if_pos (congrArg place hji)]
    · rw [if_neg hji, if_neg fun hp => hji (h.inj j i hj hi hp)]
  list := by rw [list_write, list_write, h.list]
  chain name := by rw [chain_write, chain_write, h.chain]
  stack := h.stack

omit h in
theorem live_insert {e : Entry} {i : Nat} (hi : (t.insert e).Live i) : i = t.used ∨ t.Live i := by
  rcases hi with hi | ⟨name, hi⟩
  · rw [list_insert] at hi
    exact (List.mem_cons.mp hi).imp_right .inl
  · rw [chain_insert] at hi
    split at hi
    · exact (List.mem_cons.mp hi).imp_right fun hi => .inr ⟨name, hi⟩
    · exact .inr (.inr ⟨name, hi⟩)

/-- Both new nodes become the same. -/
theorem insert (e : Entry) :
    Renames (fun i => if i = t.used then s.used else place i) (s.insert e) (t.insert e) := by
  have hold : ∀ {i}, t.Live i → (if i = t.used then s.used else place i) = place i := fun hi =>
    if_neg (Nat.ne_of_lt hi.lt)
  have hmap : ∀ {l : List Nat}, (∀ i ∈ l, t.Live i) →
      l.map (fun i => if i = t.used then s.used else place i) = l.map place := fun hl =>
    List.map_congr_left fun i hi => hold (hl i hi)
  refine ⟨fun i j hi hj hij => ?_, fun i hi => ?_, ?_, fun name => ?_, h.stack⟩
  · rcases live_insert hi with rfl | hi
    · rcases live_insert hj with rfl | hj
      · rfl
      · rw [if_pos rfl, hold hj] at hij
        exact absurd hij.symm (Nat.ne_of_lt (h.live hj).lt)
    · rcases live_insert hj with rfl | hj
      · rw [hold hi, if_pos rfl] at hij
        exact absurd hij (Nat.ne_of_lt (h.live hi).lt)
      · rw [hold hi, hold hj] at hij
        exact h.inj i j hi hj hij
  · rw [entry_insert, entry_insert]
    rcases live_insert hi with rfl | hi
    · rw [if_pos rfl, if_pos rfl, if_pos rfl]
    · rw [hold hi, if_neg (Nat.ne_of_lt (h.live hi).lt), if_neg (Nat.ne_of_lt hi.lt), h.entry i hi]
  · rw [list_insert, list_insert, List.map_cons, if_pos rfl, hmap fun i hi => .inl hi, h.list]
  · rw [chain_insert, chain_insert]
    split
    · rw [List.map_cons, if_pos rfl, hmap fun i hi => .inr ⟨name, hi⟩, h.chain]
    · rw [hmap fun i hi => .inr ⟨name, hi⟩, h.chain]

theorem named {name : String} {i : Nat} (hi : t.Live i) :
    s.arena.named name (place i) = t.arena.named name i :=
  congrArg (fun e : Entry => decide (e.name = name)) (h.entry i hi)

theorem undef (name : String) : Renames place (s.undef name) (t.undef name) := by
  have hlive : ∀ {i}, (t.undef name).Live i → t.Live i := fun hi => by
    rcases hi with hi | ⟨n, hi⟩
    · rw [list_undef] at hi
      exact .inl (List.mem_of_mem_eraseP hi)
    · rw [chain_undef] at hi
      split at hi
      · exact .inr ⟨n, List.mem_of_mem_tail hi⟩
      · exact .inr ⟨n, hi⟩
  refine ⟨fun i j hi hj => h.inj i j (hlive hi) (hlive hj), fun i hi => ?_, ?_, fun n => ?_, h.stack⟩
  · rw [entry_undef, entry_undef, h.entry i (hlive hi)]
  · rw [list_undef, list_undef, h.list, List.eraseP_map]
    exact congrArg (List.map place) (eraseP_congr fun i hi => h.named (.inl hi))
  · rw [chain_undef, chain_undef, h.chain]
    split
    · rw [List.map_tail]
    · rfl

theorem put (name : String) (definition : Definition) :
    ∃ place', Renames place' (s.put name definition) (t.put name definition) := by
  rw [Table.put, Table.put, h.find]
  cases hfind : t.findMacro name with
  | none => exact ⟨_, h.insert _⟩
  | some i =>
      have hi := live_of_find hfind
      show ∃ place', Renames place' (s.write (place i) _ (s.entry (place i)).disabled) _
      rw [h.entry i hi]
      exact ⟨place, h.write hi _ _⟩

theorem setStack (stack : List MacroStack) : Renames place (s.setStack stack) (t.setStack stack) where
  inj := h.inj
  entry := h.entry
  list := h.list
  chain := h.chain
  stack := rfl

theorem setVariadic (name : String) (isGnuVariadic : Bool) :
    Renames place (s.setVariadic name isGnuVariadic) (t.setVariadic name isGnuVariadic) := by
  rw [Table.setVariadic, Table.setVariadic, h.find]
  cases hfind : t.findMacro name with
  | none => exact h
  | some i =>
      have hi := live_of_find hfind
      show Renames place (s.write (place i) { (s.entry (place i)).definition with isVariadic := true, isGnuVariadic } _) _
      rw [h.entry i hi]
      exact h.write hi _ _

theorem setDisabled (name : String) (disabled : Bool) :
    Renames place (s.setDisabled name disabled) (t.setDisabled name disabled) := by
  rw [Table.setDisabled, Table.setDisabled, h.find]
  cases hfind : t.findMacro name with
  | none => exact h
  | some i =>
      have hi := live_of_find hfind
      show Renames place (s.write (place i) (s.entry (place i)).definition disabled) _
      rw [h.entry i hi]
      exact h.write hi _ _

theorem lookup (name : String) : (s.findMacro name).map s.entry = (t.findMacro name).map t.entry := by
  rw [h.find, Option.map_map]
  cases hfind : t.findMacro name with
  | none => rfl
  | some i => exact congrArg some (h.entry i (live_of_find hfind))

theorem pushMacro (name : String) : Renames place (s.pushMacro name) (t.pushMacro name) := by
  have hdef : (s.findMacro name).map (fun i => (s.entry i).definition) =
      (t.findMacro name).map fun i => (t.entry i).definition := by
    have hlookup := congrArg (Option.map Entry.definition) (h.lookup name)
    rw [Option.map_map, Option.map_map] at hlookup
    exact hlookup
  rw [Table.pushMacro, Table.pushMacro, hdef, h.stack]
  exact h.setStack _

theorem popMacro (name : String) : ∃ place', Renames place' (s.popMacro name) (t.popMacro name) := by
  rw [Table.popMacro, Table.popMacro, h.stack]
  split
  · exact ⟨place, h⟩
  · next ms _ =>
      have hpop := h.setStack (t.stack.eraseP fun ms => ms.name = name)
      dsimp only
      cases ms.definition with
      | none => exact ⟨place, hpop.undef name⟩
      | some definition => exact hpop.put name definition

theorem dump : s.dump = t.dump := by
  rw [Table.dump, Table.dump, h.list, List.map_map]
  exact List.map_congr_left fun i hi => by
    rw [Function.comp_apply, h.entry i (.inl hi)]

end Renames

/-! ## Before a file -/

/-- A sublist with as many of every kind is the whole list. -/
theorem eq_of_filter_length {α β : Type} {l' l : List α} (h : l'.Sublist l) (p : β → α → Bool) (kind : α → β)
    (hp : ∀ a, p (kind a) a = true) (hlen : ∀ b, (l'.filter (p b)).length = (l.filter (p b)).length) :
    l' = l := by
  induction h with
  | slnil => rfl
  | cons a hsub _ =>
      have hle := (hsub.filter (p (kind a))).length_le
      have hlen := hlen (kind a)
      rw [List.filter_cons_of_pos (hp a), List.length_cons] at hlen
      omega
  | cons_cons a hsub ih =>
      refine congrArg (a :: ·) (ih fun b => ?_)
      have hlen := hlen b
      rw [List.filter_cons, List.filter_cons] at hlen
      split at hlen
      · exact Nat.succ.inj hlen
      · exact hlen


/-- The nodes of the snapshot, and what stands in them. -/
def saved (t : Table) : List Nat := t.arena.listFrom t.savedMacros

def snapshot (t : Table) : List Entry := t.saved.map t.entry

theorem lt_of_mem_saved (t : Table) {i : Nat} (h : i ∈ t.saved) : i < t.used := by
  cases hs : t.savedMacros with
  | none =>
      rw [saved, hs, Arena.listFrom_none] at h
      exact absurd h List.not_mem_nil
  | some j =>
      rw [saved, hs] at h
      exact Nat.lt_of_le_of_lt (t.arena.le_of_mem rfl h) (t.saved_lt j hs)

/-- The chains are made of the nodes of the list. -/
def Hashed (t : Table) : Prop := ∀ name, t.chain name = (t.list.filter (t.arena.named name)).reverse

theorem hashed_clearMacros : t.clearMacros.Hashed := fun name => t.chain_clearMacros name

theorem Hashed.find_none (h : t.Hashed) {name : String} (hfind : t.findMacro name = none) :
    ∀ i ∈ t.list, ¬ t.arena.named name i = true := by
  rw [findMacro_eq, h, List.head?_reverse, List.getLast?_eq_none_iff, List.filter_eq_nil_iff] at hfind
  exact hfind

theorem Hashed.put (h : t.Hashed) (name : String) (definition : Definition) :
    (t.put name definition).Hashed := by
  rw [Table.put]
  cases hfind : t.findMacro name with
  | some i =>
      intro n
      show (t.write i definition _).chain n = _
      rw [chain_write, list_write, h]
      refine congrArg List.reverse (List.filter_congr fun k _ => ?_)
      show decide ((t.entry k).name = n) = decide (((t.write i definition _).entry k).name = n)
      rw [entry_write]
      split
      · next hk => rw [hk]
      · rfl
  | none =>
      intro n
      show (t.insert ⟨name, definition, false⟩).chain n = _
      have hnamed : ∀ k ∈ t.list, (t.insert ⟨name, definition, false⟩).arena.named n k = t.arena.named n k :=
        fun k hk => by
          show decide (((t.insert ⟨name, definition, false⟩).entry k).name = n) = decide ((t.entry k).name = n)
          rw [entry_insert, if_neg (Nat.ne_of_lt (t.lt_of_mem_list hk))]
      have hnew : (t.insert ⟨name, definition, false⟩).arena.named n t.used = decide (name = n) := by
        show decide (((t.insert ⟨name, definition, false⟩).entry t.used).name = n) = _
        rw [entry_insert, if_pos rfl]
      rw [list_insert, chain_insert, List.filter_cons, hnew, List.filter_congr hnamed, h]
      by_cases hn : n = name
      · -- no macro of the name was there before
        have hnone : t.list.filter (t.arena.named n) = [] := by
          rw [List.filter_eq_nil_iff, hn]
          exact h.find_none hfind
        rw [if_pos hn, if_pos (decide_eq_true hn.symm), hnone]
        rfl
      · rw [if_neg hn, if_neg fun h => hn (of_decide_eq_true h).symm]

/-- The snapshot was just made. -/
structure Snapped (t : Table) : Prop where
  saved : t.saved = t.list
  cmdline : t.savedMacros = none → t.cmdlineMacros = none
  hashed : t.Hashed
  stack : t.stack = []

/-- The snapshot of `t` in `s`: nodes may have gone, none has come, and none has
got another name. -/
structure Kept (t s : Table) : Prop where
  saved : s.savedMacros = t.savedMacros
  cmdline : s.cmdlineMacros = t.cmdlineMacros
  inited : s.inited = t.inited
  sublist : s.saved.Sublist t.saved
  used : t.used ≤ s.used
  name : ∀ i < t.used, (s.entry i).name = (t.entry i).name

theorem Kept.refl (t : Table) : Kept t t := ⟨rfl, rfl, rfl, List.Sublist.refl _, Nat.le_refl _, fun _ _ => rfl⟩

namespace Kept

variable (h : Kept t s)
include h

theorem write (i : Nat) (definition : Definition) (disabled : Bool) :
    Kept t (s.write i definition disabled) := by
  refine ⟨h.saved, h.cmdline, h.inited, ?_, h.used, fun k hk => ?_⟩
  · show (Arena.listFrom _ _).Sublist _
    rw [Table.write, Arena.listFrom_write]
    exact h.sublist
  · rw [entry_write]
    split
    · next hki =>
        rw [← hki]
        exact h.name k hk
    · exact h.name k hk

theorem insert (e : Entry) : Kept t (s.insert e) := by
  refine ⟨h.saved, h.cmdline, h.inited, ?_, Nat.le_succ_of_le h.used, fun k hk => ?_⟩
  · show (Arena.listFrom _ _).Sublist _
    rw [Table.insert, Arena.listFrom_push _ _ s.saved_lt]
    exact h.sublist
  · rw [entry_insert, if_neg (Nat.ne_of_lt (Nat.lt_of_lt_of_le hk h.used))]
    exact h.name k hk

theorem undef (name : String) : Kept t (s.undef name) := by
  refine ⟨h.saved, h.cmdline, h.inited, List.Sublist.trans ?_ h.sublist, h.used, fun i hi => ?_⟩
  · show ((s.unlink name).1.listFrom s.savedMacros).Sublist _
    rw [unlink]
    split
    · exact List.Sublist.refl _
    · split
      · exact List.Sublist.refl _
      · exact s.arena.sublist_unlinkAfter name _ _
  · rw [entry_undef]
    exact h.name i hi

theorem setStack (stack : List MacroStack) : Kept t (s.setStack stack) :=
  ⟨h.saved, h.cmdline, h.inited, h.sublist, h.used, h.name⟩

theorem clearMacros : Kept t s.clearMacros :=
  ⟨h.saved, h.cmdline, h.inited, h.sublist, h.used, h.name⟩

theorem put (name : String) (definition : Definition) : Kept t (s.put name definition) := by
  rw [Table.put]
  split
  · exact h.write _ _ _
  · exact h.insert _

theorem setVariadic (name : String) (isGnuVariadic : Bool) :
    Kept t (s.setVariadic name isGnuVariadic) := by
  rw [Table.setVariadic]
  split
  · exact h.write _ _ _
  · exact h

theorem setDisabled (name : String) (disabled : Bool) : Kept t (s.setDisabled name disabled) := by
  rw [Table.setDisabled]
  split
  · exact h.write _ _ _
  · exact h

theorem popMacro (name : String) : Kept t (s.popMacro name) := by
  rw [Table.popMacro]
  split
  · exact h
  · split
    · exact (h.setStack _).undef name
    · exact (h.setStack _).put name _

/-- Nothing has gone if as much stands in the snapshot. -/
theorem saved_eq (hsnap : s.snapshot = t.snapshot) : s.saved = t.saved := by
  have hlen := congrArg List.length hsnap
  rw [snapshot, snapshot, List.length_map, List.length_map] at hlen
  exact h.sublist.eq_of_length hlen

theorem list_clearMacros (ht : t.Snapped) : s.clearMacros.list = s.saved := by
  refine congrArg s.arena.listFrom ?_
  show s.start = s.savedMacros
  rw [start, h.saved, h.cmdline]
  cases hs : t.savedMacros with
  | none => rw [ht.cmdline hs, Option.none_or]
  | some i => rfl

/-- Cleared, the table is again like the one of which the snapshot was made. -/
theorem same_clearMacros (ht : t.Snapped) (hsnap : s.snapshot = t.snapshot) : Same s.clearMacros t := by
  have hlist : s.clearMacros.list = t.list := by
    rw [h.list_clearMacros ht, h.saved_eq hsnap, ht.saved]
  have hentry : ∀ i ∈ t.list, s.entry i = t.entry i := by
    rw [snapshot, snapshot, h.saved_eq hsnap, ht.saved] at hsnap
    exact List.map_inj_left.mp hsnap
  have hlive : ∀ i, t.Live i → i ∈ t.list := fun i hi => by
    rcases hi with hi | ⟨name, hi⟩
    · exact hi
    · rw [ht.hashed, List.mem_reverse] at hi
      exact List.mem_of_mem_filter hi
  refine ⟨id, fun i j _ _ hij => hij, fun i hi => hentry i (hlive i hi), ?_, fun name => ?_, ht.stack.symm⟩
  · rw [hlist, List.map_id]
  · rw [List.map_id, hashed_clearMacros, hlist, ht.hashed]
    refine congrArg List.reverse (List.filter_congr fun i hi => ?_)
    exact congrArg (fun e : Entry => decide (e.name = name)) (hentry i hi)

/-- What stands in the snapshot is known by what stands in its macros of each name. -/
theorem snapshot_eq (hname : ∀ name, (s.saved.filter (s.arena.named name)).map s.entry =
    (t.saved.filter (t.arena.named name)).map t.entry) : s.snapshot = t.snapshot := by
  have hnamed : ∀ name, ∀ i ∈ t.saved, s.arena.named name i = t.arena.named name i := fun name i hi =>
    congrArg (fun n : String => decide (n = name)) (h.name i (t.lt_of_mem_saved hi))
  have hfilter : ∀ name, s.saved.filter (s.arena.named name) = s.saved.filter (t.arena.named name) :=
    fun name => List.filter_congr fun i hi => hnamed name i (h.sublist.subset hi)
  have hsaved : s.saved = t.saved := by
    refine eq_of_filter_length h.sublist (fun name => t.arena.named name) (fun i => (t.entry i).name)
      (fun i => decide_eq_true rfl) fun name => ?_
    have hlen := congrArg List.length (hname name)
    rw [List.length_map, List.length_map, hfilter] at hlen
    exact hlen
  rw [snapshot, snapshot, hsaved]
  refine List.map_congr_left fun i hi => ?_
  have hi' : i ∈ t.saved.filter (t.arena.named (t.entry i).name) :=
    List.mem_filter.mpr ⟨hi, decide_eq_true rfl⟩
  have hmap := hname (t.entry i).name
  rw [hfilter, hsaved] at hmap
  exact List.map_inj_left.mp hmap i hi'

end Kept

end Table

end Rcc.Macros

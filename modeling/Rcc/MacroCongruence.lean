import Rcc.Expand

/-!
# Definitions that are the same in a call

`expand_text` sees a macro by what is found for its name: whether it is disabled, whether
it has parameters, its body, and what a call of it comes to. So tables that have the same
macros with definitions that are the same in this give the same text. `Alike` says it of
two states, for any relation between definitions; `Congruent` is what the relation must
keep, one step of the expansion is alike for it, and by induction on the depth the whole
expansion is.
-/

namespace Rcc.Preprocess

open Lexer (Text isspace headIs)
open Macros (Definition Table Entry)
open Files (Preprocessor)

/-- The same macros, with definitions that are related. -/
structure Alike (R : Definition → Definition → Prop) (s t : Preprocessor) : Prop where
  counter : s.ppCounter = t.ppCounter
  find : ∀ name, s.table.findMacro name = t.table.findMacro name
  disabled : ∀ i, (s.table.entry i).disabled = (t.table.entry i).disabled
  definition : ∀ i, R (s.table.entry i).definition (t.table.entry i).definition

/-- There is no result, or the same one in states that are alike. -/
def Outcomes {α : Type} (R : Definition → Definition → Prop) : Option (Preprocessor × α) → Option (Preprocessor × α) → Prop :=
  Option.Rel fun r r' => Alike R r.1 r'.1 ∧ r.2 = r'.2

/-- The expansion of one depth more does not tell the tables from each other. -/
structure Uniform (R : Definition → Definition → Prop) (expand : Preprocessor → Text → Option (Preprocessor × Text)) : Prop where
  outcomes : ∀ {s t}, Alike R s t → ∀ text, Outcomes R (expand s text) (expand t text)
  nil : ∀ st, expand st [] = some (st, [])

/-- What a relation must keep. -/
structure Congruent (R : Definition → Definition → Prop) : Prop where
  isFunction : ∀ {d d'}, R d d' → d.isFunction = d'.isFunction
  body : ∀ {d d'}, R d d' → d.isFunction = false → d.body = d'.body
  call : ∀ {d d'}, R d d' → ∀ {expand}, Uniform R expand → ∀ {s t}, Alike R s t → ∀ name args,
    Outcomes R (expandCall expand s name d args) (expandCall expand t name d' args)

section Outcomes

variable {R : Definition → Definition → Prop} {α β : Type} {s t : Preprocessor}
  {r r' : Option (Preprocessor × α)}

theorem Outcomes.some (h : Alike R s t) (a : α) : Outcomes R (Option.some (s, a)) (Option.some (t, a)) := Option.Rel.some ⟨h, rfl⟩

theorem Outcomes.bind (h : Outcomes R r r') {f f' : Preprocessor × α → Option (Preprocessor × β)}
    (hf : ∀ s t a, Alike R s t → Outcomes R (f (s, a)) (f' (t, a))) : Outcomes R (r.bind f) (r'.bind f') := by
  cases h with
  | none => exact .none
  | @some x y hxy =>
      obtain ⟨halike, heq⟩ := hxy
      have hfx := hf x.1 y.1 x.2 halike
      rw [heq] at hfx
      show Outcomes R (f x) (f' y)
      rw [← Prod.mk.eta (p := x), heq]
      exact hfx

theorem Outcomes.map (h : Outcomes R r r') {f f' : Preprocessor × α → Preprocessor × β}
    (hf : ∀ s t a, Alike R s t → Alike R (f (s, a)).1 (f' (t, a)).1 ∧ (f (s, a)).2 = (f' (t, a)).2) :
    Outcomes R (r.map f) (r'.map f') := by
  rw [Option.map_eq_bind, Option.map_eq_bind]
  exact h.bind fun s t a hst => Option.Rel.some (hf s t a hst)

theorem Outcomes.none_or_some (h : Outcomes R r r') :
    (r = none ∧ r' = none) ∨ ∃ s t a, Alike R s t ∧ r = Option.some (s, a) ∧ r' = Option.some (t, a) := by
  cases h with
  | none => exact .inl ⟨rfl, rfl⟩
  | @some x y hxy =>
      obtain ⟨s, a⟩ := x
      obtain ⟨t, b⟩ := y
      obtain ⟨hst, rfl⟩ := hxy
      exact .inr ⟨s, t, a, hst, rfl, rfl⟩

/-- The text is the same. -/
theorem Outcomes.map_snd (h : Outcomes R r r') : r.map Prod.snd = r'.map Prod.snd := by
  rcases h.none_or_some with ⟨rfl, rfl⟩ | ⟨s, t, a, _, rfl, rfl⟩
  · rfl
  · rfl

theorem Alike.setDisabled (h : Alike R s t) (name : Text) (disabled : Bool) :
    Alike R (setDisabled s name disabled) (setDisabled t name disabled) := by
  have hfind := h.find (String.ofList name)
  have htable : ∀ p : Preprocessor, (Preprocess.setDisabled p name disabled).table = p.table.setDisabled (String.ofList name) disabled :=
    fun _ => rfl
  cases hs : s.table.findMacro (String.ofList name) with
  | none =>
      have hsame : ∀ p : Preprocessor, p.table.findMacro (String.ofList name) = none → Preprocess.setDisabled p name disabled = p := by
        intro p hp
        rw [Preprocess.setDisabled, Table.setDisabled, hp]
        rfl
      rw [hsame s hs, hsame t (hfind ▸ hs)]
      exact h
  | some i =>
      have ht : t.table.findMacro (String.ofList name) = Option.some i := hfind ▸ hs
      refine ⟨h.counter, fun n => ?_, fun k => ?_, fun k => ?_⟩
      · rw [htable, htable, Table.setDisabled_eq _ hs, Table.setDisabled_eq _ ht, Table.findMacro_write, Table.findMacro_write, h.find]
      · rw [htable, htable, Table.setDisabled_eq _ hs, Table.setDisabled_eq _ ht, Table.entry_write, Table.entry_write]
        split
        · rfl
        · exact h.disabled k
      · rw [htable, htable, Table.setDisabled_eq _ hs, Table.setDisabled_eq _ ht, Table.entry_write, Table.entry_write]
        split
        · exact h.definition i
        · exact h.definition k

end Outcomes

/-! ## A step -/

section Step

variable {R : Definition → Definition → Prop} {expand : Preprocessor → Text → Option (Preprocessor × Text)} {s t : Preprocessor}

theorem Uniform.expandArgs (h : Uniform R expand) (hst : Alike R s t) (args : List Text) :
    Outcomes R (expandArgs expand s args) (expandArgs expand t args) := by
  induction args generalizing s t with
  | nil => exact .some hst []
  | cons arg args ih =>
      refine (h.outcomes hst arg).bind fun s t arg hst => ?_
      exact (ih hst).map fun s t args hst => ⟨hst, rfl⟩

theorem Uniform.rescan (h : Uniform R expand) (hst : Alike R s t) (name text : Text) :
    Outcomes R (rescan expand s name text) (rescan expand t name text) :=
  (h.outcomes (hst.setDisabled name true) text).map fun _ _ _ hst => ⟨hst.setDisabled name false, rfl⟩

theorem Alike.findEntry (hst : Alike R s t) (name : Text) :
    Option.Rel (fun e e' => e.disabled = e'.disabled ∧ R e.definition e'.definition) (findEntry s name) (findEntry t name) := by
  rw [Preprocess.findEntry, Preprocess.findEntry, hst.find]
  cases t.table.findMacro (String.ofList name) with
  | none => exact .none
  | some i => exact .some ⟨hst.disabled i, hst.definition i⟩

theorem Congruent.expandName (h : Congruent R) (hexpand : Uniform R expand) (hst : Alike R s t) (place : Place)
    (prev : Option Char) (name p : Text) :
    Outcomes R (expandName expand place s prev name p) (expandName expand place t prev name p) := by
  have hsame : ∀ a : Text × Text, Outcomes R (some (s, a)) (some (t, a)) := fun a => .some hst a
  rw [Preprocess.expandName, Preprocess.expandName, hst.counter]
  split
  · exact hsame _
  split
  · exact hsame _
  split
  · have hnext : Alike R { s with ppCounter := t.ppCounter + 1 } { t with ppCounter := t.ppCounter + 1 } :=
      ⟨rfl, hst.find, hst.disabled, hst.definition⟩
    exact .some hnext _
  split
  · exact hsame _
  split
  · exact hsame _
  split
  · exact hsame _
  have hfind := hst.findEntry name
  revert hfind
  generalize findEntry s name = r, findEntry t name = r'
  intro hfind
  cases hfind with
  | none => exact hsame _
  | @some e e' hentry =>
      obtain ⟨hdisabled, hdef⟩ := hentry
      show Outcomes R (if e.disabled = true then _ else _) (if e'.disabled = true then _ else _)
      rw [hdisabled, h.isFunction hdef]
      split
      · exact hsame _
      split
      · split
        · next q _ =>
            cases parseMacroArgs q with
            | none => exact .none
            | some r => exact (h.call hdef hexpand hst name r.1).map fun _ _ _ hst => ⟨hst, rfl⟩
        · exact hsame _
      · next hfun =>
          rw [h.body hdef ((h.isFunction hdef).trans (Bool.not_eq_true _ ▸ hfun))]
          exact (hexpand.rescan hst name _).map fun _ _ _ hst => ⟨hst, rfl⟩

theorem Congruent.expandAt (h : Congruent R) (hexpand : Uniform R expand) (hst : Alike R s t) (place : Place)
    (prev : Option Char) (c : Char) (p : Text) :
    Outcomes R (expandAt expand place s prev c p) (expandAt expand place t prev c p) := by
  rw [Preprocess.expandAt, Preprocess.expandAt]
  split
  · exact .some hst _
  split
  · exact .some hst _
  split
  · exact h.expandName hexpand hst place prev _ _
  · exact .some hst _

theorem Congruent.expandLoop (h : Congruent R) (hexpand : Uniform R expand) (place : Place) (n : Nat) (hst : Alike R s t)
    (prev : Option Char) (p : Text) :
    Outcomes R (expandLoop expand place n s prev p) (expandLoop expand place n t prev p) := by
  induction n generalizing s t prev p with
  | zero => exact .some hst []
  | succ n ih =>
      cases p with
      | nil => exact .some hst []
      | cons c p =>
          refine (h.expandAt hexpand hst place prev c p).bind fun s t ⟨sb, rest⟩ hst => ?_
          exact (ih hst (some c) rest).map fun s t more hst => ⟨hst, rfl⟩

end Step

/-! ## The same definition -/

theorem Uniform.expandCall {R : Definition → Definition → Prop} {expand : Preprocessor → Text → Option (Preprocessor × Text)}
    {s t : Preprocessor} (h : Uniform R expand) (hst : Alike R s t) (name : Text) (d : Definition) (args : List Text) :
    Outcomes R (expandCall expand s name d args) (expandCall expand t name d args) := by
  rw [Preprocess.expandCall, Preprocess.expandCall]
  split
  · exact .some hst _
  split
  · exact (h.expandArgs hst _).bind fun _ _ _ hst => h.rescan hst name _
  · exact .none

/-- No depth of the expansion tells the tables from each other. -/
theorem Congruent.uniform {R : Definition → Definition → Prop} (h : Congruent R) (place : Place) (n : Nat) :
    Uniform R (expandText place n) := by
  induction n with
  | zero => exact ⟨fun hst text => .some hst text, fun _ => rfl⟩
  | succ n ih =>
      refine ⟨fun {s t} hst text => ?_, fun _ => rfl⟩
      rw [expandText, expandText]
      refine (h.expandLoop ih place _ hst none text).bind fun s t sb hst => ?_
      show Outcomes R (if sb = text then _ else _) (if sb = text then _ else _)
      split
      · exact .some hst sb
      · exact ih.outcomes hst sb

/-! ## A macro is defined -/

section Define

variable {t : Table} {name : String}

/-- The node that a definition is written to. -/
def nodeOf (t : Table) (name : String) : Nat := (t.findMacro name).getD t.used

theorem findMacro_put (d : Definition) (n : String) :
    (t.put name d).findMacro n = if n = name then some (nodeOf t name) else t.findMacro n := by
  rw [Table.put, nodeOf]
  cases hfind : t.findMacro name with
  | some i =>
      show (t.write i d _).findMacro n = if n = name then some i else t.findMacro n
      rw [Table.findMacro_write]
      split
      · next hn => rw [hn, hfind]
      · rfl
  | none =>
      show (t.insert ⟨name, d, false⟩).findMacro n = if n = name then some t.used else t.findMacro n
      rw [Table.findMacro_eq, Table.chain_insert]
      split
      · rfl
      · exact (t.findMacro_eq n).symm

theorem entry_put (d : Definition) (k : Nat) : ((t.put name d).entry k).definition = (if k = nodeOf t name then d else (t.entry k).definition) ∧
    ((t.put name d).entry k).disabled = if k = nodeOf t name then ((t.findMacro name).map fun i => (t.entry i).disabled).getD false
      else (t.entry k).disabled := by
  rw [Table.put, nodeOf]
  cases hfind : t.findMacro name with
  | some i =>
      show ((t.write i d _).entry k).definition = (if k = i then _ else _) ∧ ((t.write i d _).entry k).disabled = if k = i then _ else _
      rw [Table.entry_write]
      split
      · exact ⟨rfl, rfl⟩
      · exact ⟨rfl, rfl⟩
  | none =>
      show ((t.insert _).entry k).definition = (if k = t.used then _ else _) ∧ ((t.insert _).entry k).disabled = if k = t.used then _ else _
      rw [Table.entry_insert]
      split
      · exact ⟨rfl, rfl⟩
      · exact ⟨rfl, rfl⟩

theorem setVariadic_put (d : Definition) (gnu : Bool) : (t.put name d).setVariadic name gnu =
    (t.put name d).write (nodeOf t name) { d with isVariadic := true, isGnuVariadic := gnu }
      (((t.findMacro name).map fun i => (t.entry i).disabled).getD false) := by
  have hfind : (t.put name d).findMacro name = some (nodeOf t name) := (findMacro_put d name).trans (if_pos rfl)
  obtain ⟨hdefinition, hdisabled⟩ := @entry_put t name d (nodeOf t name)
  rw [if_pos rfl] at hdefinition hdisabled
  rw [Table.setVariadic, hfind]
  show (t.put name d).write _ _ _ = _
  rw [hdefinition, hdisabled]

/-- Where the definitions are related, the tables are alike. -/
theorem alike_setVariadic {R : Definition → Definition → Prop} (hrefl : ∀ d, R d d) (st : Preprocessor) (name : String)
    {d d' : Definition} {gnu gnu' : Bool}
    (h : R { d with isVariadic := true, isGnuVariadic := gnu } { d' with isVariadic := true, isGnuVariadic := gnu' }) :
    Alike R (st.setTable ((st.table.put name d).setVariadic name gnu)) (st.setTable ((st.table.put name d').setVariadic name gnu')) := by
  rw [setVariadic_put, setVariadic_put]
  refine ⟨rfl, fun n => ?_, fun k => ?_, fun k => ?_⟩
  · show ((st.table.put name d).write _ _ _).findMacro n = ((st.table.put name d').write _ _ _).findMacro n
    rw [Table.findMacro_write, Table.findMacro_write, findMacro_put, findMacro_put]
  · show (((st.table.put name d).write _ _ _).entry k).disabled = (((st.table.put name d').write _ _ _).entry k).disabled
    rw [Table.entry_write, Table.entry_write]
    split
    · rfl
    · rw [(entry_put d k).2, (entry_put d' k).2]
  · show R (((st.table.put name d).write _ _ _).entry k).definition (((st.table.put name d').write _ _ _).entry k).definition
    rw [Table.entry_write, Table.entry_write]
    split
    · exact h
    · next hk =>
        rw [(entry_put d k).1, (entry_put d' k).1, if_neg hk, if_neg hk]
        exact hrefl _

end Define

end Rcc.Preprocess

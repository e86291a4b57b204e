import Rcc.PreprocessFile

/-!
# Text without line ends

What the expansion of a text puts out comes from the text, from the bodies of macros,
from the name of the file and from a few characters of its own. So there is no line end
in it if there is none in these.
-/

namespace Rcc.Preprocess

open Lexer (Text isspace isdigit headIs startswith)
open Macros (Definition Entry Table)
open Files (Preprocessor)

def OneLine (text : Text) : Prop := '\n' ∉ text

instance (text : Text) : Decidable (OneLine text) := inferInstanceAs (Decidable ('\n' ∉ text))

namespace OneLine

variable {s t : Text} {c : Char}

theorem nil : OneLine [] := List.not_mem_nil

theorem sub (h : OneLine t) (hsub : s ⊆ t) : OneLine s := fun hmem => h (hsub hmem)

theorem append (hs : OneLine s) (ht : OneLine t) : OneLine (s ++ t) := fun hmem => (List.mem_append.mp hmem).elim hs ht

theorem cons (hc : c ≠ '\n') (ht : OneLine t) : OneLine (c :: t) := fun hmem =>
  (List.mem_cons.mp hmem).elim (fun heq => hc heq.symm) ht

theorem head (h : OneLine (c :: t)) : c ≠ '\n' := fun heq => h (heq ▸ List.mem_cons_self)

theorem tail (h : OneLine (c :: t)) : OneLine t := h.sub (List.subset_cons_self _ _)

theorem takeWhile (h : OneLine t) (f : Char → Bool) : OneLine (t.takeWhile f) := h.sub (List.takeWhile_sublist f).subset

theorem dropWhile (h : OneLine t) (f : Char → Bool) : OneLine (t.dropWhile f) := h.sub (List.dropWhile_sublist f).subset

theorem drop (h : OneLine t) (n : Nat) : OneLine (t.drop n) := h.sub (List.drop_subset n t)

theorem stripEnd (h : OneLine t) : OneLine (stripEnd t) := by
  intro hmem
  have hdrop : OneLine (t.reverse.dropWhile isspace) := dropWhile (fun hrev => h (List.mem_reverse.mp hrev)) _
  exact hdrop (List.mem_reverse.mp hmem)

theorem trim (h : OneLine t) : OneLine (trim t) := (h.dropWhile isspace).stripEnd

theorem quoteString (h : OneLine t) : OneLine (quoteString t) := by
  have hbody : OneLine (t.flatMap fun c => if c = '"' || c = '\\' then ['\\', c] else [c]) := by
    intro hmem
    obtain ⟨c, hc, hc'⟩ := List.mem_flatMap.mp hmem
    split at hc'
    · simp only [List.mem_cons, List.not_mem_nil, or_false] at hc'
      rcases hc' with hc' | hc'
      · exact absurd hc' (by decide)
      · exact h (hc' ▸ hc)
    · exact h (List.mem_singleton.mp hc' ▸ hc)
  exact cons (by decide) (hbody.append (cons (by decide) nil))

theorem number (n : Nat) : OneLine (toString n).toList := by
  intro hmem
  have hdigits : '\n' ∈ Nat.toDigits 10 n := by simpa [toString, Nat.repr] using hmem
  exact absurd (Nat.isDigit_of_mem_toDigits (by decide) (by decide) hdigits) (by decide)

theorem literal_append (q : Char) (p : Text) : (literal q p).1 ++ (literal q p).2 = p := by
  fun_induction literal q p with
  | case1 => rfl
  | case2 => rfl
  | case3 => rfl
  | case4 p d hq ih => exact congrArg (fun p => _ :: _ :: p) ih
  | case5 c d p hq hc ih => exact congrArg (_ :: ·) ih

theorem literal_fst (h : OneLine t) (q : Char) : OneLine (literal q t).1 :=
  h.sub fun _ hc => literal_append q t ▸ List.mem_append_left _ hc

theorem literal_snd (h : OneLine t) (q : Char) : OneLine (literal q t).2 :=
  h.sub fun _ hc => literal_append q t ▸ List.mem_append_right _ hc

end OneLine

/-! ## Substitution -/

theorem oneLine_joinComma {l : List Text} (h : ∀ arg ∈ l, OneLine arg) : OneLine (joinComma l) := by
  fun_induction joinComma l with
  | case1 => exact .nil
  | case2 arg => exact h arg List.mem_cons_self
  | case3 arg args hargs ih =>
      exact (h arg List.mem_cons_self).append (.cons (by decide) (ih fun a ha => h a (List.mem_cons_of_mem _ ha)))

variable {d : Definition} {args raw : List Text}

theorem oneLine_mergeArgs (h : ∀ arg ∈ args, OneLine arg) : ∀ arg ∈ mergeArgs d args, OneLine arg := by
  rw [mergeArgs]
  split
  · intro arg harg
    rcases List.mem_append.mp harg with harg | harg
    · exact h arg (List.mem_of_mem_take harg)
    · rw [List.mem_singleton.mp harg]
      exact oneLine_joinComma fun a ha => h a (List.mem_of_mem_drop ha)
  · exact h

theorem oneLine_getD {l : List Text} (h : ∀ arg ∈ l, OneLine arg) (k : Nat) : OneLine (l.getD k []) := by
  rw [List.getD_eq_getElem?_getD]
  cases hk : l[k]? with
  | none => exact .nil
  | some arg => exact h arg (List.mem_of_getElem? hk)

theorem oneLine_form (hargs : ∀ arg ∈ args, OneLine arg) (hraw : ∀ arg ∈ raw, OneLine arg) {it : Item} {text : Text}
    (h : form d args raw it = some text) : OneLine text := by
  have hmerge := oneLine_mergeArgs (d := d) hargs
  cases it with
  | stringize name =>
      obtain ⟨k, _, hk⟩ := Option.bind_eq_some_iff.mp h
      split at hk
      · obtain rfl := Option.some_inj.mp hk
        exact (oneLine_getD hraw k).quoteString
      · exact absurd hk nofun
  | name name =>
      rw [form] at h
      split at h
      · obtain rfl := Option.some_inj.mp h
        exact oneLine_getD hmerge _
      · obtain ⟨k, _, hk⟩ := Option.bind_eq_some_iff.mp h
        exact hmerge text (List.mem_of_getElem? hk)
  | pasteVa => exact hmerge text (List.mem_of_getElem? h)
  | literal _ | paste | hash | char _ => exact absurd h nofun

theorem oneLine_item {isVariadic : Bool} {c : Char} {p : Text} (hc : c ≠ '\n') (hp : OneLine p) :
    OneLine (item isVariadic c p).1.spelling ∧ OneLine (item isVariadic c p).2 := by
  have hhash : OneLine ['#'] := .cons (by decide) .nil
  rw [item]
  split
  · exact ⟨.cons hc (hp.literal_fst c), hp.literal_snd c⟩
  split
  · have hrest : OneLine (p.tail.dropWhile isspace) := OneLine.dropWhile (hp.sub (List.tail_sublist p).subset) _
    dsimp only
    split
    · exact ⟨.nil, hrest.drop 11⟩
    · exact ⟨.cons (by decide) hhash, hrest⟩
  split
  · have hrest := hp.dropWhile isspace
    dsimp only
    split
    · exact ⟨.cons (by decide) (hrest.takeWhile _), hrest.dropWhile _⟩
    · exact ⟨hhash, hrest⟩
  split
  · exact ⟨.cons hc (hp.takeWhile _), hp.dropWhile _⟩
  · exact ⟨.cons hc .nil, hp⟩

theorem oneLine_itemsLoop {isVariadic : Bool} {n : Nat} {p : Text} (h : OneLine p) :
    ∀ it ∈ itemsLoop isVariadic n p, OneLine it.spelling := by
  induction n generalizing p with
  | zero => exact fun it hit => absurd hit List.not_mem_nil
  | succ n ih =>
      cases p with
      | nil => exact fun it hit => absurd hit List.not_mem_nil
      | cons c p =>
          intro it hit
          have hitem : OneLine (item isVariadic c p).1.spelling ∧ OneLine (item isVariadic c p).2 := oneLine_item h.head h.tail
          rcases List.mem_cons.mp hit with rfl | hit
          · exact hitem.1
          · exact ih hitem.2 it hit

theorem oneLine_dropComma {sb : Text} (h : OneLine sb) : OneLine (dropComma sb) := by
  rw [dropComma]
  split
  · exact h.stripEnd.sub (List.dropLast_subset _)
  · exact h.stripEnd

theorem oneLine_substStep {sb : Text} {it : Item} {form : Option Text} (hsb : OneLine sb) (hit : OneLine it.spelling)
    (hform : ∀ text ∈ form, OneLine text) : OneLine (substStep sb it form) := by
  rw [substStep.eq_def]
  split
  · next text => exact hsb.append (hform text rfl)
  · exact oneLine_dropComma hsb
  · exact hsb.append hit

theorem oneLine_pasteEnd {sb q : Text} (h : OneLine sb) : OneLine (pasteEnd sb q) := by
  rw [pasteEnd]
  split
  · exact h.stripEnd.append (.cons (by decide) .nil)
  · exact h.stripEnd

theorem oneLine_pasteLoop {n : Nat} {sb p : Text} (hsb : OneLine sb) (hp : OneLine p) : OneLine (pasteLoop n sb p) := by
  induction n generalizing sb p with
  | zero => exact hsb
  | succ n ih =>
      cases p with
      | nil => exact hsb
      | cons c p =>
          rw [pasteLoop]
          split
          · exact ih (oneLine_pasteEnd hsb) (OneLine.dropWhile (hp.tail.sub (List.tail_sublist p).subset) _)
          · exact ih (hsb.append (.cons hp.head .nil)) hp.tail

theorem oneLine_substituteMacro (hbody : OneLine d.body.toList) (hargs : ∀ arg ∈ args, OneLine arg)
    (hraw : ∀ arg ∈ raw, OneLine arg) : OneLine (substituteMacro d args raw) := by
  have hfold : ∀ its : List Item, (∀ it ∈ its, OneLine it.spelling) → ∀ sb, OneLine sb →
      OneLine (its.foldl (fun sb it => substStep sb it (form d args raw it)) sb) := by
    intro its
    induction its with
    | nil => exact fun _ sb hsb => hsb
    | cons it its ih =>
        intro hits sb hsb
        exact ih (fun i hi => hits i (List.mem_cons_of_mem _ hi)) _
          (oneLine_substStep hsb (hits it List.mem_cons_self) fun _ => oneLine_form hargs hraw)
  exact oneLine_pasteLoop .nil (hfold _ (oneLine_itemsLoop hbody) [] .nil)

/-! ## Expansion -/

theorem oneLine_macroArgsLoop {n depth : Nat} {arg p rest : Text} {result : List Text} (harg : OneLine arg)
    (hargs : ∀ a ∈ args, OneLine a) (hp : OneLine p) (h : macroArgsLoop n arg args depth p = some (result, rest)) :
    (∀ a ∈ result, OneLine a) ∧ OneLine rest := by
  induction n generalizing arg args depth p with
  | zero => exact absurd h nofun
  | succ n ih =>
      cases p with
      | nil => exact absurd h nofun
      | cons c p =>
          have hmore : OneLine (arg ++ [c]) := harg.append (.cons hp.head .nil)
          have hsnoc : ∀ a ∈ args ++ [trim arg], OneLine a := by
            intro a ha
            rcases List.mem_append.mp ha with ha | ha
            · exact hargs a ha
            · rw [List.mem_singleton.mp ha]
              exact harg.trim
          rw [macroArgsLoop] at h
          split at h
          · exact ih (harg.append (.cons hp.head (hp.tail.literal_fst c))) hargs (hp.tail.literal_snd c) h
          split at h
          · exact ih hmore hargs hp.tail h
          split at h
          · split at h
            · obtain ⟨rfl, rfl⟩ := Prod.mk.inj (Option.some_inj.mp h)
              exact ⟨fun a ha => absurd ha List.not_mem_nil, hp.tail⟩
            · split at h
              · obtain ⟨rfl, rfl⟩ := Prod.mk.inj (Option.some_inj.mp h)
                exact ⟨hsnoc, hp.tail⟩
              · exact absurd h nofun
          split at h
          · exact ih hmore hargs hp.tail h
          split at h
          · split at h
            · exact ih .nil hsnoc hp.tail h
            · exact absurd h nofun
          · exact ih hmore hargs hp.tail h

/-- No macro of the table has a line end in its body. -/
def OneLineBodies (t : Table) : Prop := ∀ i, OneLine (t.entry i).definition.body.toList

theorem definition_setDisabled (t : Table) (name : String) (disabled : Bool) (i : Nat) :
    ((t.setDisabled name disabled).entry i).definition = (t.entry i).definition := by
  cases h : t.findMacro name with
  | none => rw [Table.setDisabled, h]
  | some k =>
      rw [t.setDisabled_eq h, Table.entry_write]
      split
      · next hik => rw [hik]
      · rfl

section Expansion

variable {expand : Preprocessor → Text → Option (Preprocessor × Text)} {place : Place} {st st' : Preprocessor}
  {name sb : Text}
  (hexpand : ∀ st text st' sb, OneLineBodies st.table → OneLine text → expand st text = some (st', sb) → OneLine sb)
  (hsame : ∀ st text st' sb, expand st text = some (st', sb) → SameMacros st st')
  (htable : OneLineBodies st.table) (hfile : OneLine place.filename)

include hexpand htable

theorem oneLine_rescan {text : Text} (htext : OneLine text) (h : rescan expand st name text = some (st', sb)) : OneLine sb := by
  obtain ⟨⟨st₁, sb₁⟩, hrun, heq⟩ := Option.map_eq_some_iff.mp h
  obtain ⟨_, rfl⟩ := Prod.mk.inj heq
  refine hexpand _ _ _ _ (fun i => ?_) htext hrun
  show OneLine ((st.table.setDisabled _ true).entry i).definition.body.toList
  rw [definition_setDisabled]
  exact htable i

include hsame

theorem oneLine_expandArgs {expanded : List Text} (hargs : ∀ a ∈ args, OneLine a)
    (h : expandArgs expand st args = some (st', expanded)) : ∀ a ∈ expanded, OneLine a := by
  induction args generalizing st st' expanded with
  | nil =>
      obtain ⟨_, rfl⟩ := Prod.mk.inj (Option.some_inj.mp (show some (st, []) = some (st', expanded) from h))
      exact fun a ha => absurd ha List.not_mem_nil
  | cons arg args ih =>
      obtain ⟨⟨st₁, sb₁⟩, harg, hrest⟩ := Option.bind_eq_some_iff.mp h
      obtain ⟨⟨st₂, sbs⟩, hmap, heq⟩ := Option.map_eq_some_iff.mp hrest
      obtain ⟨_, rfl⟩ := Prod.mk.inj heq
      have htable₁ : OneLineBodies st₁.table := (hsame _ _ _ _ harg).table.symm ▸ htable
      intro a ha
      rcases List.mem_cons.mp ha with rfl | ha
      · exact hexpand _ _ _ _ htable (hargs arg List.mem_cons_self) harg
      · exact ih htable₁ (fun b hb => hargs b (List.mem_cons_of_mem _ hb)) hmap a ha

theorem oneLine_expandCall (hname : OneLine name) (hbody : OneLine d.body.toList) (hargs : ∀ a ∈ args, OneLine a)
    (h : expandCall expand st name d args = some (st', sb)) : OneLine sb := by
  rw [expandCall] at h
  split at h
  · obtain ⟨_, rfl⟩ := Prod.mk.inj (Option.some_inj.mp h)
    exact hname.append (.cons (by decide) ((oneLine_joinComma hargs).append (.cons (by decide) .nil)))
  · split at h
    · obtain ⟨⟨st₁, expanded⟩, hexpanded, hrescan⟩ := Option.bind_eq_some_iff.mp h
      have hpad : ∀ a ∈ padArgs d args, OneLine a := by
        intro a ha
        rcases List.mem_append.mp ha with ha | ha
        · exact hargs a ha
        · rw [List.eq_of_mem_replicate ha]
          exact .nil
      have htable₁ : OneLineBodies st₁.table := (expandArgs_same hsame hexpanded).table.symm ▸ htable
      have hexpanded' := oneLine_expandArgs hexpand hsame htable hpad hexpanded
      exact oneLine_rescan hexpand htable₁ (oneLine_substituteMacro hbody hexpanded' hpad) hrescan
    · cases h

include hfile

theorem oneLine_expandName {prev : Option Char} {p rest : Text} (hname : OneLine name) (hp : OneLine p)
    (h : expandName expand place st prev name p = some (st', sb, rest)) : OneLine sb ∧ OneLine rest := by
  cases expandName_cases h with
  | line => exact ⟨.number _, hp⟩
  | file => exact ⟨hfile.quoteString, hp⟩
  | counter => exact ⟨.number _, hp⟩
  | kept => exact ⟨hname, hp⟩
  | painted => exact ⟨.cons (by decide) hname, hp⟩
  | call hfind hdisabled hargs hcall =>
      have hq : OneLine (List.dropWhile isspace p) := hp.dropWhile _
      rw [hargs.1] at hq
      have hparsed := oneLine_macroArgsLoop .nil (fun a ha => absurd ha List.not_mem_nil) hq.tail hargs.2
      exact ⟨oneLine_expandCall hexpand hsame htable hname (htable _) hparsed.1 hcall, hparsed.2⟩
  | rescan hfind hdisabled hrescan => exact ⟨oneLine_rescan hexpand htable (htable _) hrescan, hp⟩

theorem oneLine_expandAt {prev : Option Char} {c : Char} {p rest : Text} (hp : OneLine (c :: p))
    (h : expandAt expand place st prev c p = some (st', sb, rest)) : OneLine sb ∧ OneLine rest := by
  rw [expandAt] at h
  split at h
  · obtain ⟨_, hsb⟩ := Prod.mk.inj (Option.some_inj.mp h)
    obtain ⟨rfl, rfl⟩ := Prod.mk.inj hsb
    exact ⟨.cons hp.head (hp.tail.takeWhile _), hp.tail.dropWhile _⟩
  split at h
  · obtain ⟨_, hsb⟩ := Prod.mk.inj (Option.some_inj.mp h)
    obtain ⟨rfl, rfl⟩ := Prod.mk.inj hsb
    exact ⟨.cons hp.head (hp.tail.literal_fst c), hp.tail.literal_snd c⟩
  split at h
  · exact oneLine_expandName hexpand hsame htable hfile (.cons hp.head (hp.tail.takeWhile _)) (hp.tail.dropWhile _) h
  · obtain ⟨_, hsb⟩ := Prod.mk.inj (Option.some_inj.mp h)
    obtain ⟨rfl, rfl⟩ := Prod.mk.inj hsb
    exact ⟨.cons hp.head .nil, hp.tail⟩

theorem oneLine_expandLoop {n : Nat} {prev : Option Char} {p : Text} (hp : OneLine p)
    (h : expandLoop expand place n st prev p = some (st', sb)) : OneLine sb := by
  induction n generalizing st st' prev p sb with
  | zero =>
      obtain ⟨_, rfl⟩ := Prod.mk.inj (Option.some_inj.mp (show some (st, []) = some (st', sb) from h))
      exact .nil
  | succ n ih =>
      cases p with
      | nil =>
          obtain ⟨_, rfl⟩ := Prod.mk.inj (Option.some_inj.mp (show some (st, []) = some (st', sb) from h))
          exact .nil
      | cons c p =>
          obtain ⟨⟨st₁, sb₁, rest⟩, hat, hrest⟩ := Option.bind_eq_some_iff.mp h
          obtain ⟨⟨st₂, more⟩, hloop, heq⟩ := Option.map_eq_some_iff.mp hrest
          obtain ⟨_, rfl⟩ := Prod.mk.inj heq
          have hone := oneLine_expandAt hexpand hsame htable hfile hp hat
          have htable₁ : OneLineBodies st₁.table := (expandAt_same hsame hat).table.symm ▸ htable
          exact hone.1.append (ih htable₁ hone.2 hloop)

end Expansion

/-- `expand_text` ends no line. -/
theorem oneLine_expandText {place : Place} (hfile : OneLine place.filename) {n : Nat} {st st' : Preprocessor} {text sb : Text}
    (htable : OneLineBodies st.table) (htext : OneLine text) (h : expandText place n st text = some (st', sb)) : OneLine sb := by
  induction n generalizing st st' text sb with
  | zero =>
      obtain ⟨_, rfl⟩ := Prod.mk.inj (Option.some_inj.mp (show some (st, text) = some (st', sb) from h))
      exact htext
  | succ n ih =>
      obtain ⟨⟨st₁, sb₁⟩, hloop, hrest⟩ := Option.bind_eq_some_iff.mp h
      have hsame : ∀ st text st' sb, expandText place n st text = some (st', sb) → SameMacros st st' :=
        fun _ _ _ _ => expandText_same
      have hsb := oneLine_expandLoop (fun _ _ _ _ => ih) hsame htable hfile htext hloop
      have htable₁ : OneLineBodies st₁.table := (expandLoop_same hsame hloop).table.symm ▸ htable
      replace hrest : (if sb₁ = text then some (st₁, sb₁) else expandText place n st₁ sb₁) = some (st', sb) := hrest
      split at hrest
      · obtain ⟨_, rfl⟩ := Prod.mk.inj (Option.some_inj.mp hrest)
        exact hsb
      · exact ih htable₁ hsb hrest

end Rcc.Preprocess

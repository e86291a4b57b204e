import Rcc.Cancelling
import Rcc.Condition

/-!
# The normal form of a path

`canonical_path` keeps the components of a path on a stack, on which `..` cancels the
component before it. Several slashes are one, but not at the beginning: behind the slash
of an absolute path only another slash makes an empty component, at the bottom of the
stack. It stays in the result when something stays above it.
-/

namespace Rcc.Preprocess

open Lexer (Text headIs)
open Cancelling (NormalForm Rises push)

def parentDir : Text := ['.', '.']

def isPart (comp : Text) : Bool := comp ≠ [] && comp ≠ ['.']

/-- The components of a path that say anything. -/
def parts (path : Text) : List Text := (path.splitOn '/').filter isPart

/-! ## Components -/

theorem splitOn_slash (p : Text) : ('/' :: p).splitOn '/' = [] :: p.splitOn '/' :=
  List.splitOn_append_cons_self_of_not_mem (show '/' ∉ [] from List.not_mem_nil) p

theorem filter_slashes (p : Text) :
    ((p.dropWhile (· = '/')).splitOn '/').filter (· ≠ []) = (p.splitOn '/').filter (· ≠ []) := by
  induction p with
  | nil => rfl
  | cons c p ih =>
      by_cases hc : c = '/'
      · subst hc
        rw [splitOn_slash, List.dropWhile_cons_of_pos rfl, ih]
        rfl
      · rw [List.dropWhile_cons_of_neg (by simpa using hc)]

/-- Only at the beginning a component is empty. -/
theorem components_eq {n : Nat} {p : Text} (h : p.length ≤ n) :
    components n p = (if headIs (· = '/') p then [[]] else []) ++ (p.splitOn '/').filter (· ≠ []) := by
  induction n generalizing p with
  | zero => rw [List.eq_nil_of_length_eq_zero (Nat.le_zero.mp h)]; rfl
  | succ n ih =>
      cases p with
      | nil => rfl
      | cons c p =>
          have hsplit : (c :: p).takeWhile (· ≠ '/') ++ (c :: p).dropWhile (· ≠ '/') = c :: p := List.takeWhile_append_dropWhile
          have hname : '/' ∉ (c :: p).takeWhile (· ≠ '/') := fun hmem => absurd (List.mem_takeWhile_imp hmem) (by decide)
          show (c :: p).takeWhile (· ≠ '/') :: components n (((c :: p).dropWhile (· ≠ '/')).dropWhile (· = '/')) = _
          have hempty : (c :: p).takeWhile (· ≠ '/') = [] ↔ headIs (· = '/') (c :: p) = true := by
            show _ ↔ decide (c = '/') = true
            by_cases hc : c = '/'
            · rw [List.takeWhile_cons_of_neg (by simpa using hc)]
              simpa using hc
            · rw [List.takeWhile_cons_of_pos (by simpa using hc)]
              simpa using hc
          have hcons : ∀ a tail : Text, ∀ b : List Text, (a = [] ↔ headIs (· = '/') tail = true) →
              (a :: b.filter (· ≠ []) = (if headIs (· = '/') tail then [[]] else []) ++ (a :: b).filter (· ≠ [])) := by
            intro a tail b ha
            by_cases hnil : a = []
            · rw [if_pos (ha.mp hnil), List.filter_cons_of_neg (by simpa using hnil), hnil]
              rfl
            · rw [if_neg (fun h => hnil (ha.mpr h)), List.filter_cons_of_pos (by simpa using hnil)]
              rfl
          cases hdrop : (c :: p).dropWhile (· ≠ '/') with
          | nil =>
              have hall : (c :: p).takeWhile (· ≠ '/') = c :: p := by
                rw [hdrop, List.append_nil] at hsplit
                exact hsplit
              rw [hall] at hname hempty ⊢
              rw [List.splitOn_eq_singleton hname, ← hcons (c :: p) (c :: p) [] hempty]
              cases n with
              | zero => rfl
              | succ n => rfl
          | cons d q =>
              have hd : d = '/' := by
                have hhead := List.head?_dropWhile_not (· ≠ '/') (c :: p)
                rw [hdrop] at hhead
                exact Decidable.of_not_not (of_decide_eq_false hhead)
              subst hd
              have hsplitOn : (c :: p).splitOn '/' = (c :: p).takeWhile (· ≠ '/') :: q.splitOn '/' := by
                conv => lhs; rw [← hsplit, hdrop]
                exact List.splitOn_append_cons_self_of_not_mem hname q
              have hlength := congrArg List.length hsplit
              rw [hdrop, List.length_append, List.length_cons, List.length_cons] at hlength
              have hle := (List.dropWhile_sublist (fun c => decide (c = '/')) (l := q)).length_le
              rw [List.length_cons] at h
              rw [List.dropWhile_cons_of_pos (by decide), ih (by omega), headIs_dropWhile, filter_slashes, hsplitOn,
                ← hcons _ (c :: p) (q.splitOn '/') hempty]
              rfl

/-! ## The stack -/

theorem addComponent_eq {comp : Text} (hcomp : comp ≠ ['.']) (absolute : Bool) (stack : List Text) :
    addComponent absolute stack comp = push parentDir absolute stack comp := by
  rw [addComponent.eq_def, if_neg hcomp]
  show _ = if comp = parentDir then _ else _
  by_cases hparent : comp = parentDir
  · rw [if_pos (show comp = ['.', '.'] from hparent), if_pos hparent]
    cases stack with
    | nil => rfl
    | cons last rest => rfl
  · rw [if_neg (show ¬ comp = ['.', '.'] from hparent), if_neg hparent]

theorem foldl_addComponent (absolute : Bool) (comps stack : List Text) :
    comps.foldl (addComponent absolute) stack = (comps.filter (· ≠ ['.'])).foldl (push parentDir absolute) stack := by
  induction comps generalizing stack with
  | nil => rfl
  | cons comp comps ih =>
      rw [List.foldl_cons, ih]
      by_cases hcomp : comp = ['.']
      · rw [List.filter_cons_of_neg (by simpa using hcomp), hcomp]
        rfl
      · rw [List.filter_cons_of_pos (by simpa using hcomp), List.foldl_cons, addComponent_eq hcomp]

/-- What is behind the slash of an absolute path. -/
def unrooted (path : Text) : Text := if headIs (· = '/') path then path.tail else path

theorem parts_unrooted (path : Text) : parts (unrooted path) = parts path := by
  cases path with
  | nil => rfl
  | cons c path =>
      rw [unrooted]
      split
      · next hc =>
          obtain rfl : c = '/' := of_decide_eq_true hc
          rw [parts, parts, splitOn_slash]
          rfl
      · rfl

/-- The components as they come to the stack. -/
def readParts (path : Text) : List Text := (if headIs (· = '/') (unrooted path) then [[]] else []) ++ parts path

/-- The components of the result. -/
def canonicalParts (path : Text) : List Text := ((readParts path).foldl (push parentDir (headIs (· = '/') path)) []).reverse

def spell (absolute : Bool) (comps : List Text) : Text :=
  let out := (if absolute then ['/'] else []) ++ ['/'].intercalate comps
  if out = [] then ['.'] else out

theorem canonicalPath_eq {path : Text} (hne : path ≠ []) (hlength : path.length < 4096) :
    canonicalPath path = spell (headIs (· = '/') path) (canonicalParts path) := by
  have hfilter : ((if headIs (· = '/') (unrooted path) then [[]] else []) ++ ((unrooted path).splitOn '/').filter (· ≠ [])).filter
      (· ≠ ['.']) = readParts path := by
    rw [readParts, ← parts_unrooted path, List.filter_append, List.filter_filter]
    congr 1
    · split
      · rfl
      · rfl
    · refine List.filter_congr fun comp _ => ?_
      rw [isPart, Bool.and_comm]
  have hcond : ¬ ((path = [] || 4096 ≤ path.length) = true) := by
    simpa using ⟨hne, hlength⟩
  rw [canonicalPath, if_neg hcond]
  show spell _ ((components (unrooted path).length (unrooted path)).foldl (addComponent (headIs (· = '/') path)) []).reverse = _
  rw [components_eq (Nat.le_refl _), foldl_addComponent, hfilter]
  rfl

/-! ## The components of the result -/

/-- A path with an empty component at the bottom of its stack to the end. -/
def Doubled (path : Text) : Prop :=
  headIs (· = '/') path = true ∧ headIs (· = '/') path.tail = true ∧ ¬ Rises parentDir 0 (parts path)

/-- What the scan leaves of the parts alone. -/
def normalParts (path : Text) : List Text := ((parts path).foldl (push parentDir (headIs (· = '/') path)) []).reverse

theorem canonicalParts_eq (path : Text) : (Doubled path → canonicalParts path = [] :: normalParts path) ∧
    (¬ Doubled path → canonicalParts path = normalParts path) := by
  rw [normalParts, canonicalParts, readParts, unrooted]
  cases habs : headIs (· = '/') path with
  | false =>
      rw [if_neg Bool.false_ne_true, habs, if_neg Bool.false_ne_true]
      exact ⟨fun hdoubled => absurd (hdoubled.1.symm.trans habs) nofun, fun _ => rfl⟩
  | true =>
      rw [if_pos rfl]
      cases hnext : headIs (· = '/') path.tail with
      | false =>
          rw [if_neg Bool.false_ne_true]
          exact ⟨fun hdoubled => absurd (hdoubled.2.1.symm.trans hnext) nofun, fun _ => rfl⟩
      | true =>
          obtain ⟨hrises, hstays⟩ := Cancelling.foldl_bottom (show ([] : Text) ≠ parentDir from nofun) (parts path) [] List.not_mem_nil
          rw [if_pos rfl]
          show (_ → ((parts path).foldl (push parentDir true) ([] ++ [[]])).reverse = _) ∧
            (_ → ((parts path).foldl (push parentDir true) ([] ++ [[]])).reverse = _)
          refine ⟨fun hdoubled => ?_, fun hdoubled => ?_⟩
          · rw [hstays hdoubled.2.2, List.reverse_append]
            rfl
          · rw [hrises (Classical.byContradiction fun h => hdoubled ⟨habs, hnext, h⟩)]

theorem not_mem_splitOn {p comp : Text} (h : comp ∈ p.splitOn '/') : '/' ∉ comp := by
  induction p generalizing comp with
  | nil =>
      rw [List.mem_singleton.mp h]
      exact List.not_mem_nil
  | cons c p ih =>
      rw [List.splitOn_cons_eq_if_modifyHead] at h
      split at h
      · rcases List.mem_cons.mp h with rfl | h
        · exact List.not_mem_nil
        · exact ih h
      · next hc =>
          cases hsplit : p.splitOn '/' with
          | nil => exact absurd hsplit (List.splitOn_ne_nil '/' p)
          | cons first comps =>
              rw [hsplit] at h ih
              rcases List.mem_cons.mp h with rfl | h
              · intro hmem
                rcases List.mem_cons.mp hmem with rfl | hmem
                · exact hc (beq_self_eq_true _)
                · exact ih List.mem_cons_self hmem
              · exact ih (List.mem_cons_of_mem _ h)

/-- What a component is. -/
structure Part (comp : Text) : Prop where
  isPart : isPart comp = true
  slashless : '/' ∉ comp

theorem part_of_mem {path comp : Text} (h : comp ∈ parts path) : Part comp :=
  ⟨(List.mem_filter.mp h).2, not_mem_splitOn (List.mem_filter.mp h).1⟩

theorem parts_intercalate {comps : List Text} (h : ∀ comp ∈ comps, Part comp) : parts (['/'].intercalate comps) = comps := by
  by_cases hnil : comps = []
  · rw [hnil]
    rfl
  · rw [parts, List.splitOn_intercalate '/' (fun comp hcomp => (h comp hcomp).slashless) hnil]
    exact List.filter_eq_self.mpr fun comp hcomp => (h comp hcomp).isPart

theorem headIs_intercalate {comps : List Text} (h : ∀ comp ∈ comps, Part comp) : headIs (· = '/') (['/'].intercalate comps) = false := by
  cases comps with
  | nil => rfl
  | cons comp comps =>
      obtain ⟨hpart, hslash⟩ := h comp List.mem_cons_self
      cases comp with
      | nil => exact absurd hpart nofun
      | cons c comp =>
          have hc : decide (c = '/') = false := decide_eq_false fun hc => hslash (hc ▸ List.mem_cons_self)
          cases comps with
          | nil => exact hc
          | cons comp' comps => exact hc

/-! ## The normal form -/

theorem spell_absolute (comps : List Text) : spell true comps = '/' :: ['/'].intercalate comps := rfl

theorem spell_doubled {comps : List Text} (h : comps ≠ []) : spell true ([] :: comps) = '/' :: '/' :: ['/'].intercalate comps := by
  rw [spell_absolute, List.intercalate_cons_of_ne_nil h]
  rfl

theorem spell_relative {comps : List Text} (hparts : ∀ comp ∈ comps, Part comp) (h : comps ≠ []) :
    spell false comps = ['/'].intercalate comps := by
  have hne : ¬ [] ++ ['/'].intercalate comps = [] := by
    rw [List.nil_append]
    intro hnil
    have hback := parts_intercalate hparts
    rw [hnil] at hback
    exact h hback.symm
  exact if_neg hne

/-- The components of the result are those of its spelling. -/
theorem readParts_spell {absolute : Bool} {comps : List Text} (hparts : ∀ comp ∈ comps, Part comp) (h : comps ≠ []) :
    headIs (· = '/') (spell absolute comps) = absolute ∧ readParts (spell absolute comps) = comps := by
  have hhead := headIs_intercalate hparts
  cases absolute with
  | false =>
      rw [spell_relative hparts h, readParts, unrooted, hhead, if_neg Bool.false_ne_true, hhead, parts_intercalate hparts]
      exact ⟨rfl, rfl⟩
  | true =>
      refine ⟨rfl, ?_⟩
      rw [readParts, ← parts_unrooted, show unrooted (spell true comps) = ['/'].intercalate comps from rfl, hhead, parts_intercalate hparts]
      rfl

theorem readParts_spell_doubled {comps : List Text} (hparts : ∀ comp ∈ comps, Part comp) (h : comps ≠ []) :
    headIs (· = '/') (spell true ([] :: comps)) = true ∧ readParts (spell true ([] :: comps)) = [] :: comps := by
  refine ⟨rfl, ?_⟩
  have hunrooted : unrooted (spell true ([] :: comps)) = '/' :: ['/'].intercalate comps := by
    rw [spell_doubled h]
    rfl
  rw [readParts, ← parts_unrooted, hunrooted, ← parts_unrooted, show unrooted ('/' :: ['/'].intercalate comps) = ['/'].intercalate comps from rfl,
    parts_intercalate hparts]
  rfl

theorem part_of_mem_normalParts {path comp : Text} (h : comp ∈ normalParts path) : Part comp := by
  rcases Cancelling.mem_foldl (List.mem_reverse.mp h) with hnil | hmem
  · exact absurd hnil List.not_mem_nil
  · exact part_of_mem hmem

/-- A spelled path is read as what it was spelled from. -/
theorem spell_canonicalParts (path : Text) : canonicalParts path = [] ∨ canonicalParts path = [[]] ∨
    headIs (· = '/') (spell (headIs (· = '/') path) (canonicalParts path)) = headIs (· = '/') path ∧
      readParts (spell (headIs (· = '/') path) (canonicalParts path)) = canonicalParts path := by
  obtain ⟨hdoubled, hsingle⟩ := canonicalParts_eq path
  have hparts : ∀ comp ∈ normalParts path, Part comp := fun comp => part_of_mem_normalParts
  by_cases h : Doubled path
  · rw [hdoubled h, h.1]
    by_cases hnil : normalParts path = []
    · exact .inr (.inl (hnil ▸ rfl))
    · exact .inr (.inr (readParts_spell_doubled hparts hnil))
  · rw [hsingle h]
    by_cases hnil : normalParts path = []
    · exact .inl hnil
    · exact .inr (.inr (readParts_spell hparts hnil))

theorem canonicalPath_long {path : Text} (h : path = [] ∨ 4096 ≤ path.length) : canonicalPath path = path := by
  rw [canonicalPath]
  exact if_pos (by simpa using h)

theorem spell_ne_nil (absolute : Bool) (comps : List Text) : spell absolute comps ≠ [] := by
  by_cases h : (if absolute then ['/'] else []) ++ ['/'].intercalate comps = []
  · rw [show spell absolute comps = ['.'] from if_pos h]
    exact List.cons_ne_nil _ _
  · rw [show spell absolute comps = _ from if_neg h]
    exact h

/-- The result is its own normal form. -/
theorem canonicalPath_idem (path : Text) : canonicalPath (canonicalPath path) = canonicalPath path := by
  by_cases hlong : path = [] ∨ 4096 ≤ path.length
  · rw [canonicalPath_long hlong, canonicalPath_long hlong]
  · rw [not_or, Nat.not_le] at hlong
    rw [canonicalPath_eq hlong.1 hlong.2]
    rcases spell_canonicalParts path with hnil | hempty | ⟨habs, hread⟩
    · rw [hnil]
      cases headIs (· = '/') path with
      | false => rfl
      | true => rfl
    · rw [hempty]
      cases headIs (· = '/') path with
      | false => rfl
      | true => rfl
    · by_cases hlength : 4096 ≤ (spell (headIs (· = '/') path) (canonicalParts path)).length
      · exact canonicalPath_long (.inr hlength)
      · rw [canonicalPath_eq (spell_ne_nil _ _) (Nat.lt_of_not_le hlength), habs]
        congr 1
        rw [canonicalParts, hread, habs]
        exact congrArg List.reverse (Cancelling.foldl_foldl (readParts path))

/-- A path that the buffers hold. -/
structure Fits (path : Text) : Prop where
  ne_nil : path ≠ []
  length_lt : path.length < 4096
  components_le : (components (unrooted path).length (unrooted path)).length ≤ 256

theorem spell_doubled_ne {comps : List Text} (h : comps ≠ []) : spell true ([] :: comps) ≠ spell true comps := by
  rw [spell_doubled h, spell_absolute]
  intro heq
  have hlength := congrArg List.length heq
  exact absurd hlength (Nat.succ_ne_self _)

theorem spell_eq_iff {p q : Text} {normal : List Text} (habsolute : headIs (· = '/') p = headIs (· = '/') q)
    (hp : normalParts p = normal) (hq : normalParts q = normal) :
    spell (headIs (· = '/') p) (canonicalParts p) = spell (headIs (· = '/') p) (canonicalParts q) ↔
      (normal = [] ∨ (Doubled p ↔ Doubled q)) := by
  obtain ⟨hpdoubled, hpsingle⟩ := canonicalParts_eq p
  obtain ⟨hqdoubled, hqsingle⟩ := canonicalParts_eq q
  rw [hp] at hpdoubled hpsingle
  rw [hq] at hqdoubled hqsingle
  by_cases hdp : Doubled p
  · by_cases hdq : Doubled q
    · rw [hpdoubled hdp, hqdoubled hdq]
      exact ⟨fun _ => .inr ⟨fun _ => hdq, fun _ => hdp⟩, fun _ => rfl⟩
    · rw [hpdoubled hdp, hqsingle hdq, hdp.1]
      refine ⟨fun heq => .inl ?_, ?_⟩
      · by_contra hne
        exact spell_doubled_ne hne heq
      · rintro (rfl | hiff)
        · rfl
        · exact absurd (hiff.mp hdp) hdq
  · by_cases hdq : Doubled q
    · rw [hpsingle hdp, hqdoubled hdq, habsolute, hdq.1]
      refine ⟨fun heq => .inl ?_, ?_⟩
      · by_contra hne
        exact spell_doubled_ne hne heq.symm
      · rintro (rfl | hiff)
        · rfl
        · exact absurd (hiff.mpr hdq) hdp
    · rw [hpsingle hdp, hqsingle hdq]
      exact ⟨fun _ => .inr ⟨fun h => absurd h hdp, fun h => absurd h hdq⟩, fun _ => rfl⟩

/-- Two paths of one normal form are one path, unless just one of them begins with two slashes and
nothing goes above its root. -/
theorem canonicalPath_unique_iff {p q : Text} {normal : List Text} (hp : Fits p) (hq : Fits q)
    (habsolute : headIs (· = '/') p = headIs (· = '/') q)
    (hpn : NormalForm parentDir (headIs (· = '/') p) (parts p) normal)
    (hqn : NormalForm parentDir (headIs (· = '/') q) (parts q) normal) :
    (canonicalPath p = canonicalPath q ∧ canonicalPath (canonicalPath p) = canonicalPath p) ↔
      (normal = [] ∨ (Doubled p ↔ Doubled q)) := by
  have hspell := spell_eq_iff habsolute hpn.eq.symm hqn.eq.symm
  rw [canonicalPath_eq hp.ne_nil hp.length_lt, canonicalPath_eq hq.ne_nil hq.length_lt, ← habsolute, ← hspell,
    ← canonicalPath_eq hp.ne_nil hp.length_lt]
  exact ⟨fun h => h.1, fun h => ⟨h, canonicalPath_idem p⟩⟩

theorem include_unique : canonicalPath "lib/./src//../rcc.h".toList = canonicalPath "lib/rcc.h".toList ∧
    canonicalPath (canonicalPath "lib/./src//../rcc.h".toList) = canonicalPath "lib/./src//../rcc.h".toList :=
  (canonicalPath_unique_iff ⟨by decide, by decide, by decide⟩ ⟨by decide, by decide, by decide⟩
    rfl (Cancelling.normalForm_foldl _) (Cancelling.normalForm_foldl _)).mpr
      (.inr ⟨fun h => absurd h.1 (by decide), fun h => absurd h.1 (by decide)⟩)

theorem slashes_not_unique : ¬ ∀ p q normal, Fits p → Fits q → headIs (· = '/') p = headIs (· = '/') q →
    NormalForm parentDir (headIs (· = '/') p) (parts p) normal → NormalForm parentDir (headIs (· = '/') q) (parts q) normal →
      canonicalPath p = canonicalPath q ∧ canonicalPath (canonicalPath p) = canonicalPath p := by
  intro h
  have hboth := h "//a".toList "/a".toList _ ⟨by decide, by decide, by decide⟩ ⟨by decide, by decide, by decide⟩ rfl
    (Cancelling.normalForm_foldl _) (Cancelling.normalForm_foldl _)
  exact absurd hboth.1 (by decide)

end Rcc.Preprocess

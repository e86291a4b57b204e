import Mathlib
import Rcc.Declarators

/-!
# Declarations are read as they are written

A declarator of the standard is a tree: stars, what is in the middle, and the dimensions or parameters behind that. Each tree has its tokens, and
a type that it makes of that of the specifiers. `declaration` finds the same type, as long as the name is where it is expected: a list of parameters
that stands behind nothing is taken for a declarator in parentheses.
-/

namespace Rcc.Declarators

open TypeCompat (Scalar)

/-! ## Specifiers -/

inductive Specifier where
  | basic (w : Basic)
  | qual (q : Qualifier)
  | storage (s : Storage)
  | tagged (kw : Tag) (object : Nat)
  | typedefName (x : String)
deriving DecidableEq, Repr

def Specifier.print : Specifier → List Tok
  | basic w => [.word (.basic w)]
  | qual q => [.word (.qual q)]
  | storage s => [.word (.storage s)]
  | tagged kw object => [.word (.tag kw), .body object]
  | typedefName x => [.word (.ident x)]

/-- The words for a type, in any order. `__int64` stands for `long long`. -/
def words : Scalar → List (List Basic)
  | .void => [[.void]]
  | .bool => [[.bool]]
  | .char => [[.char]]
  | .signedChar => [[.signed, .char]]
  | .unsignedChar => [[.unsigned, .char]]
  | .short false => [[.short], [.signed, .short], [.short, .int], [.signed, .short, .int]]
  | .short true => [[.unsigned, .short], [.unsigned, .short, .int]]
  | .int false => [[.int], [.signed], [.signed, .int]]
  | .int true => [[.unsigned], [.unsigned, .int]]
  | .long false => [[.long], [.signed, .long], [.long, .int], [.signed, .long, .int]]
  | .long true => [[.unsigned, .long], [.unsigned, .long, .int]]
  | .llong false =>
      [[.long, .long], [.signed, .long, .long], [.long, .long, .int], [.signed, .long, .long, .int], [.int64], [.signed, .int64]]
  | .llong true => [[.unsigned, .long, .long], [.unsigned, .long, .long, .int], [.unsigned, .int64]]
  | .float => [[.float]]
  | .double => [[.double]]
  | .ldouble => [[.long, .double]]
  | .enum _ => []

def bits : List Qualifier → Nat
  | [] => 0
  | q :: qs => q.bit ||| bits qs

section

variable (typedefs : String → Option Ty)

/-- The type of a specifier that is a type by itself. -/
def Specifier.named : Specifier → Option Ty
  | tagged kw object => some (kw.type object)
  | typedefName x => typedefs x
  | _ => none

/-- Specifiers and their type. The qualifiers are those that are words alone. -/
inductive Specified : List Specifier → Ty → Prop
  | words {list : List Specifier} {row : List Basic} {s : Scalar} {quals : List Qualifier} {storage : List Storage} (hrow : row ∈ words s)
      (hatomic : .atomic ∉ quals) (hlist : list.Perm (row.map .basic ++ (quals.map .qual ++ storage.map .storage))) :
      Specified list ((Ty.scalar 0 s).addQuals (bits quals))
  | named {list : List Specifier} {t : Specifier} {base : Ty} {quals : List Qualifier} {storage : List Storage}
      (hnamed : t.named typedefs = some base) (hatomic : .atomic ∉ quals)
      (hlist : list.Perm (t :: (quals.map .qual ++ storage.map .storage))) : Specified list (base.addQuals (bits quals))

structure Specifiers where
  list : List Specifier
  ty : Ty
  specified : Specified typedefs list ty

end

namespace Specs

variable (typedefs : String → Option Ty)

/-- What `declspec` makes of a specifier. -/
def add (s : Specs) : Specifier → Specs
  | .basic w => s.basic w
  | .qual q => s.qual q
  | .storage c => s.storage c
  | .tagged kw object => { s with ty := kw.type object }
  | .typedefName x => { s with ty := typedefs x }

variable {typedefs}

@[simp] theorem basic_ty (s : Specs) (w : Basic) : (s.basic w).ty = s.ty := by cases w <;> rfl

@[simp] theorem basic_quals (s : Specs) (w : Basic) : (s.basic w).quals = s.quals := by cases w <;> rfl

@[simp] theorem qual_seen (s : Specs) (q : Qualifier) : (s.qual q).seen = s.seen := rfl

@[simp] theorem storage_seen (s : Specs) (c : Storage) : (s.storage c).seen = s.seen := by cases c <;> rfl

/-- Two specifiers of which the second takes back the first. -/
def Clash : Specifier → Specifier → Prop
  | .basic .long, .basic .int64 | .basic .int64, .basic .long => True
  | .tagged .., .tagged .. | .tagged .., .typedefName _ | .typedefName _, .tagged .. | .typedefName _, .typedefName _ => True
  | _, _ => False

/-- Where the other changes nothing that is asked for. -/
theorem named_comm (s : Specs) (ty : Option Ty) (t : Specifier) (h : t.named typedefs = none) (ht : ∀ x, t ≠ .typedefName x) :
    ({ s with ty := ty } : Specs).add typedefs t = { s.add typedefs t with ty := ty } := by
  cases t with
  | basic w => cases w <;> rfl
  | qual q => rfl
  | storage c => cases c <;> rfl
  | tagged kw object => simp [Specifier.named] at h
  | typedefName x => exact absurd rfl (ht x)

theorem basic_comm {w w' : Basic} (s : Specs) (h : ¬ Clash (.basic w) (.basic w')) :
    (s.basic w).basic w' = (s.basic w').basic w := by
  cases w <;> cases w' <;> first | rfl | simp [Clash] at h

theorem storage_comm (s : Specs) (c c' : Storage) : (s.storage c).storage c' = (s.storage c').storage c := by
  cases c <;> cases c' <;> rfl

theorem qual_comm (s : Specs) (q q' : Qualifier) : (s.qual q).qual q' = (s.qual q').qual q := by
  simp only [qual, Nat.or_assoc, Nat.or_comm q.bit]

theorem storage_basic (s : Specs) (c : Storage) (w : Basic) : (s.storage c).basic w = (s.basic w).storage c := by
  cases w <;> cases c <;> rfl

theorem qual_basic (s : Specs) (q : Qualifier) (w : Basic) : (s.qual q).basic w = (s.basic w).qual q := by cases w <;> rfl

theorem qual_storage (s : Specs) (q : Qualifier) (c : Storage) : (s.qual q).storage c = (s.storage c).qual q := by cases c <;> rfl

theorem add_comm {t t' : Specifier} (s : Specs) (h : ¬ Clash t t') :
    (s.add typedefs t).add typedefs t' = (s.add typedefs t').add typedefs t := by
  cases t with
  | basic w =>
      cases t' with
      | basic w' => exact basic_comm s h
      | qual q => exact (qual_basic s q w).symm
      | storage c => exact (storage_basic s c w).symm
      | tagged kw object => exact (named_comm s _ (.basic w) rfl nofun).symm
      | typedefName x => exact (named_comm s _ (.basic w) rfl nofun).symm
  | qual q =>
      cases t' with
      | basic w => exact qual_basic s q w
      | qual q' => exact qual_comm s q q'
      | storage c => exact qual_storage s q c
      | tagged kw object => rfl
      | typedefName x => rfl
  | storage c =>
      cases t' with
      | basic w => exact storage_basic s c w
      | qual q => exact (qual_storage s q c).symm
      | storage c' => exact storage_comm s c c'
      | tagged kw object => exact (named_comm s _ (.storage c) rfl nofun).symm
      | typedefName x => exact (named_comm s _ (.storage c) rfl nofun).symm
  | tagged kw object =>
      cases t' with
      | basic w => exact named_comm s _ (.basic w) rfl nofun
      | qual q => rfl
      | storage c => exact named_comm s _ (.storage c) rfl nofun
      | tagged kw' object' => exact absurd trivial h
      | typedefName x => exact absurd trivial h
  | typedefName x =>
      cases t' with
      | basic w => exact named_comm s _ (.basic w) rfl nofun
      | qual q => rfl
      | storage c => exact named_comm s _ (.storage c) rfl nofun
      | tagged kw object => exact absurd trivial h
      | typedefName x' => exact absurd trivial h

/-- In any order. -/
theorem foldl_perm {list list' : List Specifier} (hlist : list.Perm list') (h : ∀ t ∈ list, ∀ t' ∈ list, t ≠ t' → ¬ Clash t t') (s : Specs) :
    list.foldl (add typedefs) s = list'.foldl (add typedefs) s := by
  refine hlist.foldl_eq' (fun t ht t' ht' s => ?_) s
  by_cases he : t = t'
  · rw [he]
  · exact add_comm s (h t ht t' ht' he)

theorem foldl_quals (quals : List Qualifier) (s : Specs) :
    (quals.map .qual).foldl (add typedefs) s = { s with quals := s.quals ||| bits quals } := by
  induction quals generalizing s with
  | nil => simp [bits]
  | cons q quals ih =>
      simp only [List.map_cons, List.foldl_cons, ih]
      simp [add, qual, bits, Nat.or_assoc]

/-- A storage class is no part of the type. -/
theorem foldl_storage (storage : List Storage) (s : Specs) :
    ((storage.map .storage).foldl (add typedefs) s).type = s.type ∧ ((storage.map .storage).foldl (add typedefs) s).seen = s.seen := by
  induction storage generalizing s with
  | nil => exact ⟨rfl, rfl⟩
  | cons c storage ih =>
      obtain ⟨htype, hseen⟩ := ih (s.storage c)
      simp only [List.map_cons, List.foldl_cons, add]
      exact ⟨htype.trans (by cases c <;> rfl), hseen.trans (s.storage_seen c)⟩

theorem foldl_basic (row : List Basic) (s : Specs) :
    (row.foldl basic s).ty = s.ty ∧ (row.foldl basic s).quals = s.quals := by
  induction row generalizing s with
  | nil => exact ⟨rfl, rfl⟩
  | cons w row ih => simpa using ih (s.basic w)

/-- The words of a type are counted right. -/
theorem foldl_words {row : List Basic} {s : Scalar} (h : row ∈ words s) :
    (row.foldl basic {}).scalar = s ∧ (row.foldl basic {}).seen = true := by
  have hall : ∀ row ∈ words s, (row.foldl basic {}).scalar = s ∧ (row.foldl basic {}).seen = true := by
    rcases s with _ | _ | _ | _ | _ | u | u | u | u | _ | _ | _ | tag <;> first | decide | (cases u <;> decide) | simp [words]
  exact hall row h

theorem basic_clash {w w' : Basic} (h : Clash (.basic w) (.basic w')) : w = .long ∧ w' = .int64 ∨ w = .int64 ∧ w' = .long := by
  cases w <;> cases w' <;> simp [Clash] at h ⊢

theorem words_clash {row : List Basic} {s : Scalar} (h : row ∈ words s) {w w' : Basic} (hw : w ∈ row) (hw' : w' ∈ row) :
    ¬ Clash (.basic w) (.basic w') := by
  have hall : ∀ row ∈ words s, ¬ (.long ∈ row ∧ .int64 ∈ row) := by
    rcases s with _ | _ | _ | _ | _ | u | u | u | u | _ | _ | _ | tag <;> first | decide | (cases u <;> decide) | simp [words]
  intro hc
  rcases basic_clash hc with ⟨rfl, rfl⟩ | ⟨rfl, rfl⟩
  · exact hall row h ⟨hw, hw'⟩
  · exact hall row h ⟨hw', hw⟩

end Specs

/-- The storage classes of a list. -/
def Attr.of (list : List Specifier) : Attr where
  isTypedef := .storage .typedef ∈ list
  isExtern := .storage .extern_ ∈ list
  isStatic := .storage .static ∈ list
  isInline := .storage .inline ∈ list

section

variable {typedefs : String → Option Ty}

open Specs

variable (typedefs) in
theorem foldl_attr (list : List Specifier) (s : Specs) :
    (list.foldl (add typedefs) s).attr =
      { isTypedef := s.attr.isTypedef || .storage .typedef ∈ list, isExtern := s.attr.isExtern || .storage .extern_ ∈ list,
        isStatic := s.attr.isStatic || .storage .static ∈ list, isInline := s.attr.isInline || .storage .inline ∈ list } := by
  induction list generalizing s with
  | nil => simp
  | cons t list ih =>
      rw [List.foldl_cons, ih]
      cases t with
      | basic w => cases w <;> simp [add, Specs.basic]
      | storage c => cases c <;> simp [add, Specs.storage]
      | _ => simp [add, Specs.qual]

/-! ### The loop of `declspec` -/

/-- What is no name of a type, and does not go with a parenthesis. -/
def Specifier.Plain (t : Specifier) : Prop := t ≠ .qual .atomic ∧ ∀ x, t ≠ .typedefName x

variable (typedefs) in
/-- The name of a type comes when there is no type yet. -/
def Entering : Specs → List Specifier → Prop
  | _, [] => True
  | s, t :: list =>
      t ≠ .qual .atomic ∧ (∀ x, t = .typedefName x → s.seen = false ∧ (typedefs x).isSome) ∧ Entering (s.add typedefs t) list

theorem entering_plain {list : List Specifier} (h : ∀ t ∈ list, t.Plain) (s : Specs) : Entering typedefs s list := by
  induction list generalizing s with
  | nil => trivial
  | cons t list ih =>
      obtain ⟨hatomic, hname⟩ := h t (by simp)
      exact ⟨hatomic, fun x hx => absurd hx (hname x), ih (fun t ht => h t (by simp [ht])) _⟩

theorem entering_name {pre post : List Specifier} {x : String} (hpre : ∀ t ∈ pre, t.Plain ∧ t.named typedefs = none ∧ ∀ w, t ≠ .basic w)
    (hpost : ∀ t ∈ post, t.Plain) (hx : (typedefs x).isSome) (s : Specs) (hs : s.seen = false) :
    Entering typedefs s (pre ++ .typedefName x :: post) := by
  induction pre generalizing s with
  | nil => exact ⟨nofun, fun y hy => by cases hy; exact ⟨hs, hx⟩, entering_plain hpost _⟩
  | cons t pre ih =>
      obtain ⟨⟨hatomic, hname⟩, hnone, hbasic⟩ := hpre t (by simp)
      refine ⟨hatomic, fun y hy => absurd hy (hname y), ih (fun t ht => hpre t (by simp [ht])) _ ?_⟩
      cases t with
      | basic w => exact absurd rfl (hbasic w)
      | qual q => exact hs
      | storage c => exact (s.storage_seen c).trans hs
      | tagged kw object => cases hnone
      | typedefName y => exact absurd rfl (hname y)

theorem specifiers_print {list : List Specifier} {s : Specs} (h : Entering typedefs s list) (toks : List Tok) :
    specifiers typedefs s (list.flatMap Specifier.print ++ toks) = specifiers typedefs (list.foldl (add typedefs) s) toks := by
  induction list generalizing s with
  | nil => rfl
  | cons t list ih =>
      obtain ⟨hatomic, hname, hlist⟩ := h
      rw [List.foldl_cons, ← ih hlist, List.flatMap_cons, List.append_assoc]
      cases t with
      | basic w => simp [Specifier.print, specifiers, add]
      | qual q => cases q <;> simp_all [Specifier.print, specifiers, add]
      | storage c => simp [Specifier.print, specifiers, add]
      | tagged kw object => simp [Specifier.print, specifiers, add]
      | typedefName x =>
          obtain ⟨hs, hx⟩ := hname x rfl
          obtain ⟨ty, hty⟩ := Option.isSome_iff_exists.mp hx
          simp [Specifier.print, specifiers, add, hty, hs]

/-- The loop ends where a type has been seen and no specifier comes. -/
theorem specifiers_end {s : Specs} (hs : s.seen = true) {toks : List Tok} (h : ∀ w, toks.head? = some (.word w) → ∃ x, w = .ident x) :
    specifiers typedefs s toks = some (s, toks) := by
  match toks with
  | [] => rfl
  | .word w :: toks =>
      obtain ⟨x, rfl⟩ := h w rfl
      unfold specifiers
      cases typedefs x with
      | none => rfl
      | some ty => simp [hs]
  | .body _ :: _ | .expr _ :: _ | .star :: _ | .lparen :: _ | .rparen :: _ | .lbrack :: _ | .rbrack :: _ | .comma :: _ | .dots :: _ | .semi :: _
  | .other :: _ => rfl

/-! ### What `declspec` returns -/

variable (typedefs) in
/-- Qualifiers and storage classes. -/
theorem mem_others {quals : List Qualifier} {storage : List Storage} {t : Specifier} (hatomic : .atomic ∉ quals)
    (h : t ∈ quals.map .qual ++ storage.map .storage) : t.Plain ∧ t.named typedefs = none ∧ ∀ w, t ≠ .basic w := by
  rcases List.mem_append.mp h with h | h
  · obtain ⟨q, hq, rfl⟩ := List.mem_map.mp h
    exact ⟨⟨fun he => by cases he; exact hatomic hq, nofun⟩, rfl, nofun⟩
  · obtain ⟨c, -, rfl⟩ := List.mem_map.mp h
    exact ⟨⟨nofun, nofun⟩, rfl, nofun⟩

theorem others_clash {quals : List Qualifier} {storage : List Storage} {t t' : Specifier}
    (h : t ∈ quals.map .qual ++ storage.map .storage) : ¬ Clash t t' ∧ ¬ Clash t' t := by
  rcases List.mem_append.mp h with h | h
  · obtain ⟨q, -, rfl⟩ := List.mem_map.mp h
    exact ⟨id, by cases t' <;> simp [Clash]⟩
  · obtain ⟨c, -, rfl⟩ := List.mem_map.mp h
    exact ⟨id, by cases t' <;> simp [Clash]⟩

variable (typedefs) in
/-- Qualifiers and storage classes behind a type. -/
theorem foldl_others (quals : List Qualifier) (storage : List Storage) (s : Specs) (hs : s.quals = 0) :
    ((quals.map Specifier.qual ++ storage.map Specifier.storage).foldl (add typedefs) s).type = (s.ty.getD (.scalar 0 s.scalar)).addQuals (bits quals) ∧
      ((quals.map Specifier.qual ++ storage.map Specifier.storage).foldl (add typedefs) s).seen = s.seen := by
  rw [List.foldl_append, foldl_quals, hs, Nat.zero_or]
  exact foldl_storage storage _

/-- The specifiers in whatever order they are written. -/
theorem specified_foldl {list : List Specifier} {ty : Ty} (h : Specified typedefs list ty) :
    Entering typedefs {} list ∧ (list.foldl (add typedefs) {}).type = ty ∧ (list.foldl (add typedefs) {}).seen = true := by
  cases h with
  | @words row s quals storage hrow hatomic hlist =>
      have hmem : ∀ t ∈ list, (∃ w ∈ row, t = .basic w) ∨ t ∈ quals.map Specifier.qual ++ storage.map .storage := by
        intro t ht
        rcases List.mem_append.mp (hlist.mem_iff.mp ht) with h | h
        · obtain ⟨w, hw, rfl⟩ := List.mem_map.mp h
          exact .inl ⟨w, hw, rfl⟩
        · exact .inr h
      have hplain : ∀ t ∈ list, t.Plain := by
        intro t ht
        rcases hmem t ht with ⟨w, -, rfl⟩ | h
        · exact ⟨nofun, nofun⟩
        · exact (mem_others typedefs hatomic h).1
      have hclash : ∀ t ∈ list, ∀ t' ∈ list, t ≠ t' → ¬ Clash t t' := by
        intro t ht t' ht' _
        rcases hmem t ht with ⟨w, hw, rfl⟩ | h
        · rcases hmem t' ht' with ⟨w', hw', rfl⟩ | h'
          · exact words_clash hrow hw hw'
          · exact (others_clash h').2
        · exact (others_clash h).1
      obtain ⟨hscalar, hseen⟩ := foldl_words hrow
      obtain ⟨hty, hquals⟩ := foldl_basic row {}
      rw [foldl_perm hlist hclash, List.foldl_append, List.foldl_map]
      obtain ⟨htype, hseen'⟩ := foldl_others typedefs quals storage (row.foldl Specs.basic {}) hquals
      refine ⟨entering_plain hplain _, ?_, hseen'.trans hseen⟩
      rw [hty, hscalar] at htype
      exact htype
  | @named t base quals storage hnamed hatomic hlist =>
      have hclash : ∀ t ∈ list, ∀ t' ∈ list, t ≠ t' → ¬ Clash t t' := by
        intro u hu u' hu' hne
        rcases List.mem_cons.mp (hlist.mem_iff.mp hu) with rfl | h
        · rcases List.mem_cons.mp (hlist.mem_iff.mp hu') with rfl | h'
          · exact absurd rfl hne
          · exact (others_clash h').2
        · exact (others_clash h).1
      have hadd : ({} : Specs).add typedefs t = { ty := some base } := by
        cases t <;> simp_all [Specifier.named, add]
      rw [foldl_perm hlist hclash, List.foldl_cons, hadd]
      obtain ⟨htype, hseen⟩ := foldl_others typedefs quals storage { ty := some base } rfl
      refine ⟨?_, htype, hseen⟩
      -- before the name of a type there are only qualifiers and storage classes
      obtain ⟨pre, post, rfl⟩ := List.append_of_mem (hlist.mem_iff.mpr List.mem_cons_self)
      have hothers := (List.perm_cons t).mp (List.perm_middle.symm.trans hlist)
      have hpre : ∀ u ∈ pre, u.Plain ∧ u.named typedefs = none ∧ ∀ w, u ≠ .basic w :=
        fun u hu => mem_others typedefs hatomic (hothers.mem_iff.mp (by simp [hu]))
      have hpost : ∀ u ∈ post, u.Plain := fun u hu =>
        (mem_others typedefs hatomic (hothers.mem_iff.mp (by simp [hu]))).1
      cases t with
      | typedefName x => exact entering_name hpre hpost (by simp_all [Specifier.named]) _ rfl
      | tagged kw object =>
          refine entering_plain (fun u hu => ?_) _
          rcases List.mem_append.mp hu with hu | hu
          · exact (hpre u hu).1
          · rcases List.mem_cons.mp hu with rfl | hu
            · exact ⟨nofun, nofun⟩
            · exact hpost u hu
      | _ => cases hnamed

def Specifiers.print (sp : Specifiers typedefs) : List Tok := sp.list.flatMap Specifier.print

/-- In any order, `declspec` finds the type. -/
theorem declspec_print (sp : Specifiers typedefs) {toks : List Tok} (h : ∀ w, toks.head? = some (.word w) → ∃ x, w = .ident x) :
    declspec typedefs (sp.print ++ toks) = some (sp.ty, Attr.of sp.list, toks) := by
  obtain ⟨henter, htype, hseen⟩ := specified_foldl sp.specified
  have hattr := foldl_attr typedefs sp.list {}
  simp only [Bool.false_or] at hattr
  rw [declspec, Specifiers.print, specifiers_print henter, specifiers_end hseen h]
  simp [htype, hattr, Attr.of]

end

/-! ## Declarators -/

/-- A dimension: of no length, or of one that is not told, or with one. -/
inductive Bracket where
  | unspecified
  | star
  | length (isStatic : Bool) (val : Option Int)
deriving DecidableEq, Repr

namespace Bracket

def print : Bracket → List Tok
  | unspecified => [.lbrack, .rbrack]
  | star => [.lbrack, .star, .rbrack]
  | length isStatic val => .lbrack :: (if isStatic then [.word (.storage .static)] else []) ++ [.expr val, .rbrack]

def len : Bracket → Option Int
  | unspecified | star => some 0
  | length _ val => val

end Bracket

mutual

/-- Stars with their qualifiers, what is in the middle, and what is behind that. -/
inductive Decl (typedefs : String → Option Ty) where
  | mk (stars : List (List Qualifier)) (core : Core typedefs) (suffix : Suffix typedefs)

inductive Core (typedefs : String → Option Ty) where
  | abstract
  | name (x : String)
  | group (d : Decl typedefs)

inductive Suffix (typedefs : String → Option Ty) where
  | none
  | arrays (b : Bracket) (bs : List Bracket)
  /-- `()` or `(void)` -/
  | noParams (void : Bool)
  | params (ps : Parameters typedefs) (ellipsis : Bool)

inductive Parameters (typedefs : String → Option Ty) where
  | last (specs : Specifiers typedefs) (d : Decl typedefs)
  | cons (specs : Specifiers typedefs) (d : Decl typedefs) (rest : Parameters typedefs)

end

def printStars (stars : List (List Qualifier)) : List Tok := stars.flatMap fun qs => .star :: qs.map fun q => .word (.qual q)

/-- The type behind the stars. -/
def pointed (stars : List (List Qualifier)) (ty : Ty) : Ty := stars.foldl (fun ty qs => ty.pointerTo.addQuals (bits qs)) ty

/-- The type of a parameter by the standard, where the qualifiers of an array are those of its elements. -/
def Ty.parameter : Ty → Ty
  | .array qual _ base | .vla qual base => pointerTo (base.addQuals qual)
  | .func qual returnTy params isVariadic => pointerTo (.func qual returnTy params isVariadic)
  | ty => ty

section

variable {typedefs : String → Option Ty}

mutual

def Decl.print : Decl typedefs → List Tok
  | .mk stars core suffix => printStars stars ++ (core.print ++ suffix.print)

def Core.print : Core typedefs → List Tok
  | .abstract => []
  | .name x => [.word (.ident x)]
  | .group d => .lparen :: (d.print ++ [.rparen])

def Suffix.print : Suffix typedefs → List Tok
  | .none => []
  | .arrays b bs => (b :: bs).flatMap Bracket.print
  | .noParams void => .lparen :: ((if void then [.word (.basic .void)] else []) ++ [.rparen])
  | .params ps ellipsis => .lparen :: (ps.print ++ ((if ellipsis then [.comma, .dots] else []) ++ [.rparen]))

def Parameters.print : Parameters typedefs → List Tok
  | .last specs d => specs.print ++ d.print
  | .cons specs d rest => specs.print ++ (d.print ++ .comma :: rest.print)

end

mutual

/-- What is declared, if it has a name. -/
def Decl.declared : Decl typedefs → Option Word
  | .mk _ core _ => core.declared

def Core.declared : Core typedefs → Option Word
  | .abstract => none
  | .name x => some (.ident x)
  | .group d => d.declared

end

mutual

/-- The type of the name, given that of the specifiers. -/
def Decl.type : Decl typedefs → Ty → Ty
  | .mk stars core suffix, ty => core.type (suffix.type (pointed stars ty))

def Core.type : Core typedefs → Ty → Ty
  | .abstract, ty | .name _, ty => ty
  | .group d, ty => d.type ty

def Suffix.type : Suffix typedefs → Ty → Ty
  | .none, ty => ty
  | .arrays b bs, ty => ((b :: bs).map Bracket.len).foldr Ty.arrayOf ty
  | .noParams _, ty => ty.funcType .nil false
  | .params ps ellipsis, ty => ty.funcType ps.types ellipsis

def Parameters.types : Parameters typedefs → Params
  | .last specs d => .cons d.declared (d.type specs.ty).parameter .nil
  | .cons specs d rest => .cons d.declared (d.type specs.ty).parameter rest.types

end

/-! ### What is read as it is written -/

/-- The parser makes a pointer of the parameter as the standard does. -/
def Ty.Adjusts : Ty → Prop
  | .array qual _ _ => qual = 0
  | .vla .. => False
  | _ => True

/-- A parameter that is `void`, or a word that the parser takes for a name. -/
def Lone (specs : Specifiers typedefs) (d : Decl typedefs) : Prop :=
  specs.print ++ d.print = [.word (.basic .void)] ∨ specs.print ++ d.print = [.word (.basic .int64)]

def Parameters.LoneFirst : Parameters typedefs → Prop
  | .last specs d | .cons specs d _ => Lone specs d

def Suffix.IsParams : Suffix typedefs → Prop
  | .noParams _ | .params .. => True
  | _ => False

mutual

/-- There are parameters behind names or parentheses only. -/
def Decl.Readable : Decl typedefs → Prop
  | .mk _ core suffix => core.Readable ∧ suffix.Readable ∧ (core.print = [] → ¬ suffix.IsParams)

def Core.Readable : Core typedefs → Prop
  | .abstract | .name _ => True
  | .group d => d.print ≠ [] ∧ d.Readable

def Suffix.Readable : Suffix typedefs → Prop
  | .none | .noParams _ => True
  | .arrays _ bs => bs.length < 16
  | .params ps _ => ¬ ps.LoneFirst ∧ ps.Readable

def Parameters.Readable : Parameters typedefs → Prop
  | .last specs d => d.Readable ∧ (d.type specs.ty).Adjusts
  | .cons specs d rest => d.Readable ∧ (d.type specs.ty).Adjusts ∧ rest.Readable

end

/-- What comes behind a declarator. -/
def Stops (toks : List Tok) : Prop := ∀ t ∈ toks.head?, t ∈ [.rparen, .comma, .semi, .other]

theorem addQuals_zero (ty : Ty) : ty.addQuals 0 = ty := by cases ty <;> simp [Ty.addQuals]

theorem adjust_eq {ty : Ty} (h : ty.Adjusts) : ty.adjust = ty.parameter := by
  cases ty with
  | array qual len base =>
      cases h
      simp [Ty.adjust, Ty.parameter, addQuals_zero]
  | vla qual base => cases h
  | _ => rfl

/-! ### Parts of a declarator -/

theorem collectTypeQuals_print (qs : List Qualifier) {toks : List Tok} (h : ∀ q, toks.head? ≠ some (.word (.qual q))) :
    collectTypeQuals (qs.map (fun q => .word (.qual q)) ++ toks) = (bits qs, toks) := by
  induction qs with
  | nil =>
      cases toks with
      | nil => rfl
      | cons t toks =>
          simp only [List.map_nil, List.nil_append]
          unfold collectTypeQuals
          split
          · rename_i q _ heq
            cases heq
            exact absurd rfl (h q)
          · rfl
  | cons q qs ih => simp [collectTypeQuals, ih, bits]

theorem pointers_print (stars : List (List Qualifier)) {toks : List Tok} (hstar : toks.head? ≠ some .star)
    (hqual : ∀ q, toks.head? ≠ some (.word (.qual q))) (ty : Ty) :
    pointers ty (printStars stars ++ toks) = (pointed stars ty, toks) := by
  induction stars generalizing ty with
  | nil =>
      unfold pointers
      split
      · rename_i heq
        simp [printStars] at heq
        simp [heq] at hstar
      · rfl
  | cons qs stars ih =>
      have hnext : ∀ q, (printStars stars ++ toks).head? ≠ some (.word (.qual q)) := by
        intro q
        cases stars with
        | nil => exact hqual q
        | cons qs' stars => simp [printStars]
      have hcons : printStars (qs :: stars) ++ toks = .star :: (qs.map (fun q => .word (.qual q)) ++ (printStars stars ++ toks)) := by
        simp [printStars]
      rw [hcons, pointers, collectTypeQuals_print qs hnext]
      exact ih _

theorem dimension_print (b : Bracket) (toks : List Tok) :
    ∃ behind, b.print ++ toks = .lbrack :: behind ∧ dimension behind = some (b.len, toks) := by
  cases b with
  | unspecified => exact ⟨_, rfl, rfl⟩
  | star => exact ⟨_, rfl, rfl⟩
  | length isStatic val => cases isStatic <;> exact ⟨_, rfl, rfl⟩

theorem dimensions_print (bs : List Bracket) {room : Nat} (h : bs.length ≤ room) {toks : List Tok} (htoks : toks.head? ≠ some .lbrack) :
    dimensions room (bs.flatMap Bracket.print ++ toks) = some (bs.map Bracket.len, toks) := by
  induction bs generalizing room with
  | nil =>
      unfold dimensions
      split <;> simp_all
  | cons b bs ih =>
      cases room with
      | zero => simp at h
      | succ room =>
          obtain ⟨behind, hprint, hdim⟩ := dimension_print b (bs.flatMap Bracket.print ++ toks)
          rw [List.flatMap_cons, List.append_assoc, hprint, dimensions, hdim]
          simp [ih (Nat.le_of_succ_le_succ h)]

/-! ### Parentheses -/

/-- The parentheses in it match. -/
def Balanced (toks : List Tok) : Prop := ∀ depth rest, afterParen (depth + 1) (toks ++ rest) = afterParen (depth + 1) rest

theorem balanced_nil : Balanced [] := fun _ _ => rfl

theorem Balanced.append {toks toks' : List Tok} (h : Balanced toks) (h' : Balanced toks') : Balanced (toks ++ toks') := by
  intro depth rest
  rw [List.append_assoc, h, h']

/-- There are no parentheses. -/
theorem balanced_plain {toks : List Tok} (h : ∀ t ∈ toks, t ≠ .lparen ∧ t ≠ .rparen) : Balanced toks := by
  induction toks with
  | nil => exact balanced_nil
  | cons t toks ih =>
      intro depth rest
      have hrest := ih (fun t ht => h t (by simp [ht])) depth rest
      obtain ⟨hopen, hclose⟩ := h t (by simp)
      rw [List.cons_append, ← hrest]
      cases t <;> first | rfl | contradiction

theorem Balanced.paren {toks : List Tok} (h : Balanced toks) : Balanced (.lparen :: (toks ++ [.rparen])) := by
  intro depth rest
  simp only [List.cons_append, List.append_assoc, afterParen]
  rw [h]
  rfl

theorem balanced_flatMap {α : Type*} {f : α → List Tok} (list : List α) (h : ∀ x ∈ list, Balanced (f x)) : Balanced (list.flatMap f) := by
  induction list with
  | nil => exact balanced_nil
  | cons x list ih =>
      rw [List.flatMap_cons]
      exact (h x (by simp)).append (ih fun x hx => h x (by simp [hx]))

theorem Specifiers.balanced (specs : Specifiers typedefs) : Balanced specs.print := by
  refine balanced_flatMap _ fun t _ => balanced_plain ?_
  cases t <;> simp [Specifier.print]

theorem printStars_balanced (stars : List (List Qualifier)) : Balanced (printStars stars) :=
  balanced_flatMap _ fun qs _ => balanced_plain (by simp)

theorem Bracket.balanced (b : Bracket) : Balanced b.print := by
  refine balanced_plain ?_
  cases b with
  | length isStatic val => cases isStatic <;> simp [Bracket.print]
  | _ => simp [Bracket.print]

mutual

theorem Decl.balanced : (d : Decl typedefs) → Balanced d.print
  | .mk stars core suffix => (printStars_balanced stars).append (core.balanced.append suffix.balanced)

theorem Core.balanced : (core : Core typedefs) → Balanced core.print
  | .abstract => balanced_nil
  | .name _ => balanced_plain (by simp [Core.print])
  | .group d => d.balanced.paren

theorem Suffix.balanced : (suffix : Suffix typedefs) → Balanced suffix.print
  | .none => balanced_nil
  | .arrays b bs => balanced_flatMap (b :: bs) fun b _ => b.balanced
  | .noParams void => by
      have hvoid : Balanced (if void then [.word (.basic .void)] else []) := balanced_plain (by cases void <;> simp)
      exact hvoid.paren
  | .params ps ellipsis => by
      have hend : Balanced (if ellipsis then [.comma, .dots] else []) := balanced_plain (by cases ellipsis <;> simp)
      have hall := (ps.balanced.append hend).paren
      rwa [List.append_assoc] at hall

theorem Parameters.balanced : (ps : Parameters typedefs) → Balanced ps.print
  | .last specs d => specs.balanced.append d.balanced
  | .cons specs d rest => by
      have hcomma : Balanced [.comma] := balanced_plain (by simp)
      exact specs.balanced.append (d.balanced.append (hcomma.append rest.balanced))

end

/-- The parenthesis behind a declarator is found. -/
theorem afterParen_print (d : Decl typedefs) (rest : List Tok) : afterParen 1 (d.print ++ .rparen :: rest) = rest := by
  rw [d.balanced 0]
  simp [afterParen]

/-! ### The beginnings of parts -/

theorem bracket_head (b : Bracket) (toks : List Tok) : (b.print ++ toks).head? = some .lbrack := by
  obtain ⟨behind, hprint, -⟩ := dimension_print b toks
  rw [hprint]
  rfl

/-- What comes behind the stars. -/
theorem core_head (core : Core typedefs) (suffix : Suffix typedefs) {rest : List Tok} (hrest : Stops rest) {t : Tok}
    (ht : (core.print ++ (suffix.print ++ rest)).head? = some t) :
    (∃ x, t = .word (.ident x)) ∨ t ∈ [.lparen, .lbrack] ∨ core.print ++ suffix.print = [] ∧ t ∈ [.rparen, .comma, .semi, .other] := by
  cases core with
  | name x => exact .inl ⟨x, by simpa [Core.print, eq_comm] using ht⟩
  | group d => simp_all [Core.print]
  | abstract =>
      cases suffix with
      | none => exact .inr (.inr ⟨rfl, hrest t ht⟩)
      | arrays b bs =>
          simp only [Core.print, Suffix.print, List.nil_append, List.flatMap_cons, List.append_assoc, bracket_head, Option.some.injEq] at ht
          simp [← ht]
      | noParams void => simp_all [Core.print, Suffix.print]
      | params ps ellipsis => simp_all [Core.print, Suffix.print]

theorem Decl.head (d : Decl typedefs) {rest : List Tok} (hrest : Stops rest) {t : Tok} (ht : (d.print ++ rest).head? = some t) :
    (∃ x, t = .word (.ident x)) ∨ t ∈ [.star, .lparen, .lbrack] ∨ d.print = [] ∧ t ∈ [.rparen, .comma, .semi, .other] := by
  obtain ⟨stars, core, suffix⟩ := d
  cases stars with
  | nil =>
      rcases core_head core suffix hrest (by simpa [Decl.print, printStars] using ht) with h | h | h
      · exact .inl h
      · exact .inr (.inl (List.mem_cons_of_mem _ h))
      · exact .inr (.inr (by simpa [Decl.print, printStars] using h))
  | cons qs stars =>
      simp only [Decl.print, printStars, List.flatMap_cons, List.cons_append, List.head?_cons, Option.some.injEq] at ht
      simp [← ht]

/-- The first specifier; the name of a type is one. -/
theorem Specifiers.first (specs : Specifiers typedefs) : ∃ t ts, specs.list = t :: ts ∧ ∀ x, t = .typedefName x → (typedefs x).isSome := by
  obtain ⟨henter, -, hseen⟩ := specified_foldl specs.specified
  cases hlist : specs.list with
  | nil => simp [hlist, Specs.seen] at hseen
  | cons t ts =>
      rw [hlist] at henter
      exact ⟨t, ts, rfl, fun x hx => (henter.2.1 x hx).2⟩

theorem Specifier.print_word (t : Specifier) : ∃ w toks, t.print = .word w :: toks ∧ w ≠ .asm ∧ w ≠ .convention := by
  cases t <;> exact ⟨_, _, rfl, nofun, nofun⟩

theorem Specifiers.print_word (specs : Specifiers typedefs) : ∃ w toks, specs.print = .word w :: toks ∧ w ≠ .asm ∧ w ≠ .convention := by
  obtain ⟨t, ts, hlist, -⟩ := specs.first
  obtain ⟨w, toks, hw, hne⟩ := t.print_word
  exact ⟨w, toks ++ ts.flatMap Specifier.print, by simp [Specifiers.print, hlist, hw], hne⟩

/-- The end of a parameter, or the comma behind it, is the second token only behind one word. -/
theorem second_token {specs : Specifiers typedefs} {d : Decl typedefs} {rest : List Tok} (hrest : Stops rest) {w : Word} {t' : Tok}
    {toks : List Tok} (h : specs.print ++ (d.print ++ rest) = .word w :: t' :: toks) (ht' : t' = .rparen ∨ t' = .comma) :
    specs.print ++ d.print = [.word w] := by
  obtain ⟨t, ts, hlist, -⟩ := specs.first
  have hprint : specs.print = t.print ++ ts.flatMap Specifier.print := by simp [Specifiers.print, hlist]
  by_cases htag : ∃ kw object, t = .tagged kw object
  · obtain ⟨kw, object, rfl⟩ := htag
    simp only [hprint, Specifier.print, List.cons_append, List.cons.injEq] at h
    rcases ht' with rfl | rfl <;> simp at h
  · obtain ⟨w₀, hone⟩ : ∃ w₀, t.print = [.word w₀] := by cases t <;> simp_all [Specifier.print]
    rw [hprint, hone, List.append_assoc, List.singleton_append, List.cons.injEq] at h
    obtain ⟨hw, h⟩ := h
    cases ts with
    | cons u ts =>
        obtain ⟨v, vs, hv, -⟩ := u.print_word
        rw [List.flatMap_cons, hv] at h
        rcases ht' with rfl | rfl <;> simp at h
    | nil =>
        have hhead := d.head hrest (t := t') (by simpa using congrArg List.head? h)
        have hempty : d.print = [] := by rcases ht' with rfl | rfl <;> simpa using hhead
        simp [hprint, hone, hempty, hw]

/-- Only `__int64` begins no type, and it is no list of names if there is more of the parameter. -/
theorem isNames_print {specs : Specifiers typedefs} {d : Decl typedefs} (h : ¬ Lone specs d) {rest : List Tok} (hrest : Stops rest) :
    isNames typedefs (specs.print ++ (d.print ++ rest)) = false := by
  unfold isNames
  split
  · rename_i w tok toks heq
    by_cases htok : tok = .rparen ∨ tok = .comma
    · have hone := second_token hrest heq htok
      obtain ⟨t, ts, hlist, hname⟩ := specs.first
      have htype : isTypename typedefs (.word w) = true := by
        rw [Specifiers.print, hlist, List.flatMap_cons] at hone
        cases t with
        | basic b =>
            simp only [Specifier.print, List.cons_append, List.nil_append, List.cons.injEq, Tok.word.injEq] at hone
            have hint : b ≠ .int64 := fun he => h (.inr (by simp [Specifiers.print, hlist, Specifier.print, hone, he]))
            simp [← hone.1, isTypename, hint]
        | typedefName x =>
            simp only [Specifier.print, List.cons_append, List.nil_append, List.cons.injEq, Tok.word.injEq] at hone
            simpa [← hone.1, isTypename] using hname x rfl
        | tagged kw object => simp [Specifier.print] at hone
        | _ =>
            simp only [Specifier.print, List.cons_append, List.nil_append, List.cons.injEq, Tok.word.injEq] at hone
            simp [← hone.1, isTypename]
      simp [htype]
    · simp [not_or.mp htok]
  · rfl

/-! ### The calls -/

theorem typeSuffix_end {n : Nat} {ty : Ty} {toks rest : List Tok} {lens : List (Option Int)} (h : dimensions 16 toks = some (lens, rest))
    (hrest : rest.head? ≠ some .lparen) : typeSuffix typedefs (n + 1) ty toks = some (lens.foldr Ty.arrayOf ty, rest) := by
  rw [typeSuffix, h]
  match rest with
  | [] => rfl
  | t :: rest => cases t <;> first | rfl | simp at hrest

theorem typeSuffix_params {n : Nat} {ty : Ty} {next : List Tok} (h : isNames typedefs next = false) :
    typeSuffix typedefs (n + 1) ty (.lparen :: next) = declaratorParams typedefs n ty next := by
  simp [typeSuffix, dimensions, h]

theorem declaratorParams_loop {n : Nat} {ty : Ty} {toks : List Tok} (h : ∀ rest, toks ≠ .word (.basic .void) :: .rparen :: rest) :
    declaratorParams typedefs (n + 1) ty toks =
      (paramLoop typedefs n true toks).map fun (params, isVariadic, rest) => (ty.funcType params isVariadic, rest) := by
  unfold declaratorParams
  split
  · contradiction
  · exact absurd rfl (h _)
  · rename_i heq _
    cases heq
    rw [Option.map_eq_bind]
    rfl

/-- Specifiers with a declarator behind them. -/
theorem declspec_decl (specs : Specifiers typedefs) (d : Decl typedefs) {rest : List Tok} (hrest : Stops rest) :
    declspec typedefs (specs.print ++ (d.print ++ rest)) = some (specs.ty, Attr.of specs.list, d.print ++ rest) := by
  refine declspec_print specs fun w hw => ?_
  rcases d.head hrest hw with ⟨x, hx⟩ | h | h
  · exact ⟨x, by simpa using hx⟩
  · simp at h
  · simp at h

/-- One parameter. -/
theorem paramLoop_param {n : Nat} {specs : Specifiers typedefs} {d : Decl typedefs} (hadjust : (d.type specs.ty).Adjusts) {tail : List Tok}
    (htail : Stops tail) (hd : declarator typedefs n specs.ty (d.print ++ tail) = some (d.type specs.ty, d.declared, tail)) (first : Bool) :
    paramLoop typedefs (n + 1) first ((if first then [] else [.comma]) ++ (specs.print ++ (d.print ++ tail))) =
      (paramLoop typedefs n false tail).map fun (params, isVariadic, rest) =>
        (.cons d.declared (d.type specs.ty).parameter params, isVariadic, rest) := by
  have hspecs := declspec_decl specs d htail
  obtain ⟨w, toks, hw, -⟩ := specs.print_word
  rw [hw, List.cons_append] at hspecs ⊢
  cases first with
  | true =>
      simp only [if_true, List.nil_append, paramLoop]
      simp [hspecs, hd, adjust_eq hadjust]
      cases paramLoop typedefs n false tail <;> rfl
  | false =>
      simp only [Bool.false_eq_true, if_false, List.cons_append, List.nil_append, paramLoop, skip]
      simp [hspecs, hd, adjust_eq hadjust]
      cases paramLoop typedefs n false tail <;> rfl

theorem Stops.head_ne {toks : List Tok} (h : Stops toks) {t : Tok} (ht : t ∉ [.rparen, .comma, .semi, .other]) : toks.head? ≠ some t :=
  fun he => ht (h t he)

theorem stops_comma (toks : List Tok) : Stops (.comma :: toks) := by simp [Stops]

theorem stops_rparen (toks : List Tok) : Stops (.rparen :: toks) := by simp [Stops]

/-- A list of parameters is taken for no other list. -/
theorem Parameters.print_first {ps : Parameters typedefs} (h : ¬ ps.LoneFirst) {tail : List Tok} (htail : Stops tail) :
    isNames typedefs (ps.print ++ tail) = false ∧ ∀ rest, ps.print ++ tail ≠ .word (.basic .void) :: .rparen :: rest := by
  have hfirst : ∀ (specs : Specifiers typedefs) (d : Decl typedefs) (behind : List Tok), ¬ Lone specs d → Stops behind →
      isNames typedefs (specs.print ++ (d.print ++ behind)) = false ∧
        ∀ rest, specs.print ++ (d.print ++ behind) ≠ .word (.basic .void) :: .rparen :: rest :=
    fun specs d behind hlone hbehind =>
      ⟨isNames_print hlone hbehind, fun rest he => hlone (.inl (second_token hbehind he (.inl rfl)))⟩
  cases ps with
  | last specs d =>
      rw [Parameters.print, List.append_assoc]
      exact hfirst specs d tail h htail
  | cons specs d ps =>
      rw [Parameters.print, List.append_assoc, List.append_assoc, List.cons_append]
      exact hfirst specs d _ h (stops_comma _)

/-- What is behind the last parameter. -/
theorem stops_end (ellipsis : Bool) (rest : List Tok) : Stops ((if ellipsis then [.comma, .dots] else []) ++ .rparen :: rest) := by
  cases ellipsis <;> simp [Stops]

theorem paramLoop_end (n : Nat) (ellipsis : Bool) (rest : List Tok) :
    paramLoop typedefs (n + 1) false ((if ellipsis then [.comma, .dots] else []) ++ .rparen :: rest) = some (.nil, ellipsis, rest) := by
  cases ellipsis <;> simp [paramLoop, skip]

mutual

/-- With a bound of twice the tokens the calls come to their ends. -/
theorem Decl.read : (d : Decl typedefs) → d.Readable → (n : Nat) → 2 * d.print.length + 2 ≤ n → (ty : Ty) → (rest : List Tok) → Stops rest →
    declarator typedefs n ty (d.print ++ rest) = some (d.type ty, d.declared, rest)
  | .mk stars core suffix, ⟨hcore, hsuffix, hparams⟩, n, hn, ty, rest, hrest => by
      obtain ⟨m, rfl⟩ : ∃ m, n = m + 1 := ⟨n - 1, by omega⟩
      simp only [Decl.print, List.length_append] at hn
      have hs := Suffix.read suffix hsuffix m (by omega) (pointed stars ty) rest hrest
      have hstars : pointers ty (printStars stars ++ (core.print ++ (suffix.print ++ rest))) =
          (pointed stars ty, core.print ++ (suffix.print ++ rest)) := by
        refine pointers_print stars (fun he => ?_) (fun q he => ?_) ty
        · simpa using core_head core suffix hrest he
        · simpa using core_head core suffix hrest he
      rw [Decl.print, List.append_assoc, List.append_assoc, declarator, hstars]
      cases core with
      | abstract =>
          -- no parenthesis comes here
          have hhead : ∀ t, (suffix.print ++ rest).head? = some t → t ∈ [.lbrack, .rparen, .comma, .semi, .other] := by
            intro t ht
            cases suffix with
            | none => exact List.mem_cons_of_mem _ (hrest t ht)
            | arrays b bs =>
                simp only [Suffix.print, List.flatMap_cons, List.append_assoc, bracket_head, Option.some.injEq] at ht
                simp [← ht]
            | noParams void => exact absurd trivial (hparams rfl)
            | params ps ellipsis => exact absurd trivial (hparams rfl)
          simp only [Core.print, List.nil_append, Decl.type, Core.type, Decl.declared, Core.declared]
          generalize suffix.print ++ rest = toks at hs hhead
          cases toks with
          | nil => simp [conventions, hs]
          | cons t toks =>
              have ht := hhead t rfl
              simp only [List.mem_cons, List.not_mem_nil, or_false] at ht
              rcases ht with rfl | rfl | rfl | rfl | rfl <;> simp [conventions, hs]
      | name x => simp [Core.print, conventions, hs, Decl.type, Core.type, Decl.declared, Core.declared]
      | group d =>
          simp only [Core.print, List.length_cons, List.length_append, List.length_nil] at hn
          have hd := Decl.read d hcore.2 m (by omega) (suffix.type (pointed stars ty)) (.rparen :: (suffix.print ++ rest)) (stops_rparen _)
          simp [Core.print, afterParen_print, hs, hd, Decl.type, Core.type, Decl.declared, Core.declared]

theorem Suffix.read : (suffix : Suffix typedefs) → suffix.Readable → (n : Nat) → 2 * suffix.print.length + 1 ≤ n → (ty : Ty) →
    (rest : List Tok) → Stops rest → typeSuffix typedefs n ty (suffix.print ++ rest) = some (suffix.type ty, rest)
  | .none, _, n, hn, ty, rest, hrest => by
      obtain ⟨m, rfl⟩ : ∃ m, n = m + 1 := ⟨n - 1, by omega⟩
      exact typeSuffix_end (dimensions_print [] (by simp) (hrest.head_ne (by simp))) (hrest.head_ne (by simp))
  | .arrays b bs, hlen, n, hn, ty, rest, hrest => by
      obtain ⟨m, rfl⟩ : ∃ m, n = m + 1 := ⟨n - 1, by omega⟩
      exact typeSuffix_end (dimensions_print (b :: bs) hlen (hrest.head_ne (by simp))) (hrest.head_ne (by simp))
  | .noParams void, _, n, hn, ty, rest, hrest => by
      simp only [Suffix.print, List.length_cons, List.length_append] at hn
      obtain ⟨m, rfl⟩ : ∃ m, n = m + 3 := ⟨n - 3, by omega⟩
      cases void with
      | false =>
          rw [Suffix.print, List.cons_append, typeSuffix_params (by simp [isNames])]
          simp [declaratorParams, paramLoop, Suffix.type]
      | true =>
          rw [Suffix.print, List.cons_append, typeSuffix_params (by simp [isNames, isTypename])]
          simp [declaratorParams, Suffix.type]
  | .params ps ellipsis, ⟨hlone, hps⟩, n, hn, ty, rest, hrest => by
      simp only [Suffix.print, List.length_cons, List.length_append] at hn
      obtain ⟨m, rfl⟩ : ∃ m, n = m + 2 := ⟨n - 2, by omega⟩
      have hread := Parameters.read ps hps m (by omega) true ellipsis rest
      obtain ⟨hnames, hvoid⟩ := Parameters.print_first hlone (stops_end ellipsis rest)
      have hprint : ps.print ++ ((if ellipsis then [.comma, .dots] else []) ++ [.rparen]) ++ rest =
          ps.print ++ ((if ellipsis then [.comma, .dots] else []) ++ .rparen :: rest) := by simp
      rw [Suffix.print, List.cons_append, hprint, typeSuffix_params hnames, declaratorParams_loop hvoid]
      simp only [if_true, List.nil_append] at hread
      rw [hread]
      rfl

theorem Parameters.read : (ps : Parameters typedefs) → ps.Readable → (n : Nat) → 2 * ps.print.length + 3 ≤ n → (first ellipsis : Bool) →
    (rest : List Tok) → paramLoop typedefs n first
        ((if first then [] else [.comma]) ++ (ps.print ++ ((if ellipsis then [.comma, .dots] else []) ++ .rparen :: rest))) =
      some (ps.types, ellipsis, rest)
  | .last specs d, ⟨hd, hadjust⟩, n, hn, first, ellipsis, rest => by
      simp only [Parameters.print, List.length_append] at hn
      obtain ⟨m, rfl⟩ : ∃ m, n = m + 2 := ⟨n - 2, by omega⟩
      have hread := Decl.read d hd (m + 1) (by omega) specs.ty _ (stops_end ellipsis rest)
      rw [Parameters.print, List.append_assoc, paramLoop_param hadjust (stops_end ellipsis rest) hread, paramLoop_end]
      rfl
  | .cons specs d ps, ⟨hd, hadjust, hps⟩, n, hn, first, ellipsis, rest => by
      simp only [Parameters.print, List.length_append, List.length_cons] at hn
      obtain ⟨m, rfl⟩ : ∃ m, n = m + 1 := ⟨n - 1, by omega⟩
      have hread := Decl.read d hd m (by omega) specs.ty _
        (stops_comma (ps.print ++ ((if ellipsis then [.comma, .dots] else []) ++ .rparen :: rest)))
      have hrest := Parameters.read ps hps m (by omega) false ellipsis rest
      rw [Parameters.print, List.append_assoc, List.append_assoc, List.cons_append, paramLoop_param hadjust (stops_comma _) hread]
      simp only [Bool.false_eq_true, if_false, List.cons_append, List.nil_append] at hrest
      rw [hrest]
      rfl

end

/-! ## Declarations -/

theorem ne_funcType (ty : Ty) (params : Params) (isVariadic : Bool) : ty ≠ ty.funcType params isVariadic := by
  intro h
  have hsize := congrArg sizeOf h
  simp only [Ty.funcType, Ty.func.sizeOf_spec] at hsize
  omega

/-- Parameters in their parentheses. -/
theorem Suffix.print_params {suffix : Suffix typedefs} (h : suffix.IsParams) :
    ∃ inner, suffix.print = .lparen :: (inner ++ [.rparen]) ∧ Balanced inner ∧
      (inner = [] ∨ ∃ w toks, inner = .word w :: toks ∧ w ≠ .asm ∧ w ≠ .convention) := by
  cases suffix with
  | none => exact h.elim
  | arrays b bs => exact h.elim
  | noParams void =>
      refine ⟨_, rfl, balanced_plain (by cases void <;> simp), ?_⟩
      cases void with
      | false => exact .inl rfl
      | true => exact .inr ⟨_, _, rfl, nofun, nofun⟩
  | params ps ellipsis =>
      have hend : Balanced (if ellipsis then [.comma, .dots] else []) := balanced_plain (by cases ellipsis <;> simp)
      refine ⟨ps.print ++ if ellipsis then [.comma, .dots] else [], by simp [Suffix.print], ps.balanced.append hend, .inr ?_⟩
      cases ps with
      | last specs d =>
          obtain ⟨w, toks, hw, hne⟩ := specs.print_word
          exact ⟨w, _, by rw [Parameters.print, hw]; rfl, hne⟩
      | cons specs d ps =>
          obtain ⟨w, toks, hw, hne⟩ := specs.print_word
          exact ⟨w, _, by rw [Parameters.print, hw]; rfl, hne⟩

/-- Parameters that stand behind no name: either a word of the first is taken for the name, or they are lost. -/
theorem abstract_params_misread (specs : Specifiers typedefs) (stars : List (List Qualifier)) {suffix : Suffix typedefs} (h : suffix.IsParams)
    (rest : List Tok) (hrest : Stops rest) (attr : Attr) :
    declaration typedefs (specs.print ++ ((Decl.mk stars .abstract suffix).print ++ rest)) ≠
      some (attr, (Decl.mk stars .abstract suffix).type specs.ty, none, rest) := by
  intro he
  obtain ⟨inner, hinner, hbalanced, hhead⟩ := Suffix.print_params h
  have hprint : (Decl.mk stars .abstract suffix).print ++ rest = printStars stars ++ .lparen :: (inner ++ .rparen :: rest) := by
    simp [Decl.print, Core.print, hinner]
  have hafter : afterParen 1 (inner ++ .rparen :: rest) = rest := by simp [hbalanced 0, afterParen]
  simp only [declaration, declspec_decl specs _ hrest, Option.bind_eq_bind, Option.bind_some] at he
  generalize 2 * (specs.print ++ ((Decl.mk stars .abstract suffix).print ++ rest)).length = n at he
  have hsuffix : typeSuffix typedefs (n + 1) (pointed stars specs.ty) rest = some (pointed stars specs.ty, rest) :=
    typeSuffix_end (dimensions_print [] (by simp) (hrest.head_ne (by simp))) (hrest.head_ne (by simp))
  rw [hprint, declarator, pointers_print stars (by simp) (by simp)] at he
  simp only [hafter, hsuffix, Option.bind_eq_bind, Option.bind_some, declarator] at he
  rcases hhead with rfl | ⟨w, toks, rfl, hasm, hconvention⟩
  · -- the parameters are lost
    cases n with
    | zero => simp [pointers, conventions, typeSuffix] at he
    | succ n =>
        have hend : typeSuffix typedefs (n + 1) (pointed stars specs.ty) (.rparen :: rest) = some (pointed stars specs.ty, .rparen :: rest) :=
          typeSuffix_end (dimensions_print [] (by simp) (by simp)) (by simp)
        simp [pointers, conventions, hend] at he
        cases suffix with
        | none => exact h.elim
        | arrays b bs => exact h.elim
        | noParams void => exact ne_funcType _ _ _ he.2
        | params ps ellipsis => exact ne_funcType _ _ _ he.2
  · -- the name is the word
    have hpointers : ∀ ty, pointers ty (.word w :: (toks ++ .rparen :: rest)) = (ty, .word w :: (toks ++ .rparen :: rest)) := by
      intro ty
      unfold pointers
      rfl
    have hconventions : ∀ ty, conventions ty (.word w :: (toks ++ .rparen :: rest)) = (ty, .word w :: (toks ++ .rparen :: rest)) := by
      intro ty
      unfold conventions
      split <;> simp_all
    simp only [List.cons_append, hpointers, hconventions] at he
    cases hread : typeSuffix typedefs n (pointed stars specs.ty) (toks ++ .rparen :: rest) with
    | none => simp [hread] at he
    | some r => simp [hread] at he

end

/-- No name of a type is declared. -/
def noTypedefs : String → Option Ty := fun _ => none

def intSpecs : Specifiers noTypedefs where
  list := [.basic .int]
  ty := .scalar 0 (.int false)
  specified := @Specified.words _ _ [.int] _ [] [] (by decide) (by simp) (.refl _)

def charSpecs : Specifiers noTypedefs where
  list := [.storage .static, .qual .const, .basic .char]
  ty := .scalar 1 .char
  specified := @Specified.words _ _ [.char] _ [.const] [.static] (by decide) (by simp) (by decide)

end Rcc.Declarators

import Mathlib
import Rcc.DeclaratorsSound

/-!
# Every type can be declared

The declarator of a type is built from the name outwards, with parentheses at every step, and the specifiers come last. So for each type that
`declaration` could return there is a declaration that it reads as one of this type.
-/

namespace Rcc.Declarators

open TypeCompat (Scalar)

/-! ## Types that can be written -/

def Ty.IsFunc : Ty → Prop
  | .func .. => True
  | _ => False

/-- What is left of a parameter is a pointer, if it was an array or a function, and it is not `void`. -/
def Ty.IsParameter : Ty → Prop
  | .array .. | .vla .. | .func .. | .scalar _ .void => False
  | _ => True

mutual

/-- Qualifiers are those of pointers and of what has no parts. -/
def Ty.Valid : Ty → Prop
  | .scalar qual _ => qual < 8
  | .struct _ => True
  | .ptr qual base => qual < 16 ∧ base.Valid
  | .array qual _ base | .vla qual base => qual = 0 ∧ base.Valid
  | .func qual returnTy params isVariadic => qual = 0 ∧ returnTy.Valid ∧ params.Valid ∧ (isVariadic = true → params ≠ .nil)

/-- The names are identifiers. -/
def Params.Valid : Params → Prop
  | .nil => True
  | .cons name ty rest => (∀ w, name = some w → ∃ x, w = .ident x) ∧ ty.Valid ∧ ty.IsParameter ∧ rest.Valid

end

/-! ## Qualifiers and words -/

/-- The qualifiers with these bits. -/
def qualifiers (qual : Nat) : List Qualifier := [.const, .volatile, .restrict, .atomic].filter fun q => qual &&& q.bit ≠ 0

theorem bits_qualifiers {qual : Nat} (h : qual < 16) : bits (qualifiers qual) = qual := by
  have hall : ∀ qual < 16, bits (qualifiers qual) = qual := by decide
  exact hall qual h

theorem atomic_qualifiers {qual : Nat} (h : qual < 8) : .atomic ∉ qualifiers qual := by
  have hall : ∀ qual < 8, .atomic ∉ qualifiers qual := by decide
  exact hall qual h

/-- The first way to write it. -/
def word (s : Scalar) : List Basic := (words s).headD []

theorem word_mem {s : Scalar} (h : ∀ tag, s ≠ .enum tag) : word s ∈ words s := by
  rcases s with _ | _ | _ | _ | _ | u | u | u | u | _ | _ | _ | tag <;>
    first | decide | (cases u <;> decide) | exact absurd rfl (h tag)

theorem word_lone (s : Scalar) : word s ≠ [.int64] ∧ (word s = [.void] → s = .void) := by
  rcases s with _ | _ | _ | _ | _ | u | u | u | u | _ | _ | _ | tag <;> first | decide | (cases u <;> decide) | simp [word, words]

section

variable {typedefs : String → Option Ty}

/-- The words of a type without parts. -/
def scalarList (qual : Nat) (s : Scalar) : List Specifier :=
  (match s with
    | .enum tag => [.tagged .enum tag]
    | s => (word s).map .basic) ++ (qualifiers (qual % 8)).map .qual

theorem specified_scalar (qual : Nat) (s : Scalar) :
    Specified typedefs (scalarList qual s) ((Ty.scalar 0 s).addQuals (bits (qualifiers (qual % 8)))) := by
  have hatomic : .atomic ∉ qualifiers (qual % 8) := atomic_qualifiers (Nat.mod_lt _ (by simp))
  have hperm (pre : List Specifier) : (pre ++ (qualifiers (qual % 8)).map Specifier.qual).Perm
      (pre ++ ((qualifiers (qual % 8)).map Specifier.qual ++ ([] : List Storage).map Specifier.storage)) := by simp
  by_cases h : ∃ tag, s = .enum tag
  · obtain ⟨tag, rfl⟩ := h
    exact .named (t := .tagged .enum tag) rfl hatomic (hperm [.tagged .enum tag])
  · have hlist : scalarList qual s = (word s).map .basic ++ (qualifiers (qual % 8)).map .qual := by
      cases s <;> first | rfl | exact absurd ⟨_, rfl⟩ h
    rw [hlist]
    exact .words (word_mem fun tag he => h ⟨tag, he⟩) hatomic (hperm _)

def scalarSpecs (qual : Nat) (s : Scalar) : Specifiers typedefs := ⟨_, _, specified_scalar qual s⟩

theorem specified_struct (object : Nat) : Specified typedefs [.tagged .struct object] (.struct object) := by
  have hperm : List.Perm [.tagged .struct object]
      (.tagged .struct object :: (([] : List Qualifier).map Specifier.qual ++ ([] : List Storage).map Specifier.storage)) := .refl _
  exact .named (t := .tagged .struct object) rfl (by simp) hperm

def structSpecs (object : Nat) : Specifiers typedefs where
  list := [.tagged .struct object]
  ty := .struct object
  specified := specified_struct object

/-! ## The declarator of a type -/

/-- In parentheses, unless there is no more than a name. -/
def Decl.enclosed : Decl typedefs → Core typedefs
  | .mk [] .abstract .none => .abstract
  | .mk [] (.name x) .none => .name x
  | d => .group d

/-- A name alone, or none. -/
def named : Option Word → Decl typedefs
  | some (.ident x) => .mk [] (.name x) .none
  | _ => .mk [] .abstract .none

mutual

/-- Around a declarator, what makes it one of this type, and the specifiers. -/
def Ty.spell : Ty → Decl typedefs → Specifiers typedefs × Decl typedefs
  | .scalar qual s, d => (scalarSpecs qual s, d)
  | .struct object, d => (structSpecs object, d)
  | .ptr qual base, d => base.spell (.mk [qualifiers qual] d.enclosed .none)
  | .array _ len base, d => base.spell (.mk [] d.enclosed (.arrays (.length false (some len)) []))
  | .vla _ base, d => base.spell (.mk [] d.enclosed (.arrays (.length false none) []))
  | .func _ returnTy params isVariadic, d => returnTy.spell (.mk [] d.enclosed (params.spell isVariadic))

def Params.spell : Params → Bool → Suffix typedefs
  | .nil, _ => .noParams true
  | .cons name ty rest, isVariadic => .params (rest.spellRest (ty.spell (named name))) isVariadic

/-- The parameters behind a first one. -/
def Params.spellRest : Params → Specifiers typedefs × Decl typedefs → Parameters typedefs
  | .nil, first => .last first.1 first.2
  | .cons name ty rest, first => .cons first.1 first.2 (rest.spellRest (ty.spell (named name)))

end

/-! ### What it says -/

@[simp] theorem Decl.enclosed_type (d : Decl typedefs) (ty : Ty) : d.enclosed.type ty = d.type ty := by
  unfold Decl.enclosed
  split <;> simp [Core.type, Decl.type, Suffix.type, pointed]

@[simp] theorem Decl.enclosed_declared (d : Decl typedefs) : d.enclosed.declared = d.declared := by
  unfold Decl.enclosed
  split <;> simp [Core.declared, Decl.declared]

theorem Decl.enclosed_readable {d : Decl typedefs} (h : d.Readable) : d.enclosed.Readable := by
  obtain ⟨stars, core, suffix⟩ := d
  unfold Decl.enclosed
  split
  · trivial
  · trivial
  · rename_i hempty hname
    refine ⟨fun he => ?_, h⟩
    simp only [Decl.print, List.append_eq_nil_iff] at he
    obtain ⟨hstars, hcore, hsuffix⟩ := he
    cases stars with
    | cons qs stars => simp [printStars] at hstars
    | nil =>
        cases core with
        | name x => simp [Core.print] at hcore
        | group d => simp [Core.print] at hcore
        | abstract =>
            cases suffix with
            | none => exact hempty rfl
            | arrays b bs => cases b <;> simp [Suffix.print, Bracket.print] at hsuffix
            | noParams void => simp [Suffix.print] at hsuffix
            | params ps ellipsis => simp [Suffix.print] at hsuffix

theorem Decl.enclosed_print {d : Decl typedefs} (h : d.print ≠ []) : d.enclosed.print ≠ [] := by
  unfold Decl.enclosed
  split
  · exact absurd rfl h
  · simp [Core.print]
  · simp [Core.print]

@[simp] theorem named_declared {name : Option Word} (h : ∀ w, name = some w → ∃ x, w = .ident x) :
    (named name : Decl typedefs).declared = name := by
  cases name with
  | none => rfl
  | some w =>
      obtain ⟨x, rfl⟩ := h w rfl
      rfl

@[simp] theorem named_type (name : Option Word) (ty : Ty) : (named name : Decl typedefs).type ty = ty := by
  unfold named
  split <;> rfl

theorem named_readable (name : Option Word) : (named name : Decl typedefs).Readable := by
  unfold named
  split
  · exact ⟨trivial, trivial, fun _ => id⟩
  · exact ⟨trivial, trivial, fun _ => id⟩

theorem Ty.spell_declared : (ty : Ty) → (d : Decl typedefs) → (ty.spell d).2.declared = d.declared
  | .scalar .., _ | .struct _, _ => rfl
  | .ptr _ base, d | .array _ _ base, d | .vla _ base, d | .func _ base _ _, d => by
      rw [Ty.spell, Ty.spell_declared base]
      simp [Decl.declared]

theorem scalarSpecs_ty {qual : Nat} (h : qual < 8) (s : Scalar) : (scalarSpecs qual s : Specifiers typedefs).ty = .scalar qual s := by
  simp only [scalarSpecs, Nat.mod_eq_of_lt h, Ty.addQuals, bits_qualifiers (by omega : qual < 16), Nat.zero_or]

theorem parameter_eq {ty : Ty} (h : ty.IsParameter) : ty.parameter = ty ∧ ty.Adjusts := by
  cases ty <;> first | exact ⟨rfl, trivial⟩ | exact h.elim

mutual

/-- What is declared has the type. -/
theorem Ty.spell_type : (ty : Ty) → ty.Valid → (d : Decl typedefs) → (ty.spell d).2.type (ty.spell d).1.ty = d.type ty
  | .scalar qual s, h, d => by rw [Ty.spell, scalarSpecs_ty h]
  | .struct object, h, d => rfl
  | .ptr qual base, ⟨hqual, hbase⟩, d => by
      rw [Ty.spell, Ty.spell_type base hbase]
      simp [Decl.type, Suffix.type, pointed, Ty.pointerTo, Ty.addQuals, bits_qualifiers hqual]
  | .array qual len base, ⟨hqual, hbase⟩, d => by
      rw [Ty.spell, Ty.spell_type base hbase]
      simp [Decl.type, Suffix.type, pointed, Bracket.len, Ty.arrayOf, hqual]
  | .vla qual base, ⟨hqual, hbase⟩, d => by
      rw [Ty.spell, Ty.spell_type base hbase]
      simp [Decl.type, Suffix.type, pointed, Bracket.len, Ty.arrayOf, hqual]
  | .func qual returnTy params isVariadic, ⟨hqual, hreturn, hparams, hvariadic⟩, d => by
      rw [Ty.spell, Ty.spell_type returnTy hreturn]
      simp [Decl.type, pointed, Params.spell_type params hparams isVariadic hvariadic, Ty.funcType, hqual]

theorem Params.spell_type : (params : Params) → params.Valid → (isVariadic : Bool) → (isVariadic = true → params ≠ .nil) → (ty : Ty) →
    (params.spell isVariadic : Suffix typedefs).type ty = ty.funcType params isVariadic
  | .nil, _, isVariadic, hvariadic, ty => by
      cases isVariadic with
      | false => rfl
      | true => exact absurd rfl (hvariadic rfl)
  | .cons name ty' rest, ⟨hname, hty, hparam, hrest⟩, isVariadic, _, ty => by
      have hfirst := Ty.spell_type ty' hty (named name : Decl typedefs)
      simp only [Params.spell, Suffix.type, Params.spellRest_types rest hrest, hfirst, named_type, (parameter_eq hparam).1, Ty.spell_declared,
        named_declared hname]

theorem Params.spellRest_types : (rest : Params) → rest.Valid → (first : Specifiers typedefs × Decl typedefs) →
    (rest.spellRest first).types = .cons first.2.declared (first.2.type first.1.ty).parameter rest
  | .nil, _, first => rfl
  | .cons name ty rest, ⟨hname, hty, hparam, hrest⟩, first => by
      have hnext := Ty.spell_type ty hty (named name : Decl typedefs)
      simp only [Params.spellRest, Parameters.types, Params.spellRest_types rest hrest, hnext, named_type, (parameter_eq hparam).1,
        Ty.spell_declared, named_declared hname]

end

/-! ### It is readable -/

theorem Ty.spell_print : (ty : Ty) → {d : Decl typedefs} → d.print ≠ [] → (ty.spell d).2.print ≠ []
  | .scalar .., _, h | .struct _, _, h => h
  | .ptr _ base, d, h | .array _ _ base, d, h | .vla _ base, d, h | .func _ base _ _, d, h =>
      Ty.spell_print base (by simp [Decl.print, Decl.enclosed_print h])

theorem scalarSpecs_print {qual : Nat} {s : Scalar} {w : Basic} (h : (scalarSpecs qual s : Specifiers typedefs).print = [.word (.basic w)]) :
    word s = [w] := by
  by_cases henum : ∃ tag, s = .enum tag
  · obtain ⟨tag, rfl⟩ := henum
    simp [scalarSpecs, scalarList, Specifiers.print, Specifier.print] at h
  · have hlist : scalarList qual s = (word s).map .basic ++ (qualifiers (qual % 8)).map .qual := by
      cases s <;> first | rfl | exact absurd ⟨_, rfl⟩ henum
    simp only [scalarSpecs, hlist, Specifiers.print, List.flatMap_append, List.flatMap_map] at h
    cases hword : word s with
    | nil =>
        rw [hword] at h
        cases hquals : qualifiers (qual % 8) <;> simp [hquals, Specifier.print] at h
    | cons w' ws =>
        rw [hword] at h
        simp only [List.flatMap_cons, Specifier.print, List.cons_append, List.nil_append, List.cons.injEq, List.append_eq_nil_iff] at h
        obtain ⟨hw, hws, -⟩ := h
        cases hw
        cases ws with
        | nil => rfl
        | cons v ws => simp at hws

/-- A parameter with a type of its own is no list of names. -/
theorem Ty.spell_lone {ty : Ty} (h : ty.Valid) (hparam : ty.IsParameter) (name : Option Word) :
    ¬ Lone (ty.spell (named name : Decl typedefs)).1 (ty.spell (named name : Decl typedefs)).2 := by
  have hlong : ∀ (specs : Specifiers typedefs) (d : Decl typedefs), d.print ≠ [] → ¬ Lone specs d := by
    intro specs d hd
    obtain ⟨w, toks, hw⟩ := specs.print_word
    obtain ⟨t, ts, ht⟩ := List.exists_cons_of_ne_nil hd
    simp [Lone, hw, ht]
  cases ty with
  | scalar qual s =>
      have hprint : (named name : Decl typedefs).print = [] ∨ (named name : Decl typedefs).print ≠ [] := em _
      rcases hprint with hprint | hprint
      · rintro (he | he)
        · rw [Ty.spell, hprint, List.append_nil] at he
          cases (word_lone s).2 (scalarSpecs_print he)
          exact hparam
        · rw [Ty.spell, hprint, List.append_nil] at he
          exact (word_lone s).1 (scalarSpecs_print he)
      · exact hlong _ _ hprint
  | struct object => simp [Lone, Ty.spell, structSpecs, Specifiers.print, Specifier.print]
  | ptr qual base => exact hlong _ _ (Ty.spell_print base (by simp [Decl.print, printStars]))
  | _ => exact hparam.elim

mutual

theorem Ty.spell_readable : (ty : Ty) → ty.Valid → {d : Decl typedefs} → d.Readable → (ty.IsFunc → d.print ≠ []) → (ty.spell d).2.Readable
  | .scalar .., _, _, h, _ | .struct _, _, _, h, _ => h
  | .ptr qual base, ⟨_, hbase⟩, d, h, _ =>
      Ty.spell_readable base hbase ⟨Decl.enclosed_readable h, trivial, fun _ => id⟩ fun _ => by simp [Decl.print, printStars]
  | .array qual len base, ⟨_, hbase⟩, d, h, _ =>
      Ty.spell_readable base hbase ⟨Decl.enclosed_readable h, by simp [Suffix.Readable], fun _ => id⟩ fun _ => by
        simp [Decl.print, Suffix.print, Bracket.print]
  | .vla qual base, ⟨_, hbase⟩, d, h, _ =>
      Ty.spell_readable base hbase ⟨Decl.enclosed_readable h, by simp [Suffix.Readable], fun _ => id⟩ fun _ => by
        simp [Decl.print, Suffix.print, Bracket.print]
  | .func qual returnTy params isVariadic, ⟨_, hreturn, hparams, _⟩, d, h, hd => by
      have hprint := Decl.enclosed_print (hd trivial)
      exact Ty.spell_readable returnTy hreturn
        ⟨Decl.enclosed_readable h, Params.spell_readable params hparams isVariadic, fun he => absurd he hprint⟩ fun _ => by
          simp [Decl.print, hprint]

theorem Params.spell_readable : (params : Params) → params.Valid → (isVariadic : Bool) → (params.spell isVariadic : Suffix typedefs).Readable
  | .nil, _, _ => trivial
  | .cons name ty rest, ⟨_, hty, hparam, hrest⟩, isVariadic => by
      refine ⟨?_, ?_⟩
      · have hlone : ¬ Lone (ty.spell (named name : Decl typedefs)).1 (ty.spell (named name : Decl typedefs)).2 :=
          Ty.spell_lone hty hparam name
        cases rest <;> exact hlone
      · exact Params.spellRest_readable rest hrest _
          (Ty.spell_readable ty hty (named_readable name) fun hfunc => by cases ty <;> first | exact hfunc.elim | exact hparam.elim)
          (by rw [Ty.spell_type ty hty, named_type]; exact (parameter_eq hparam).2)

theorem Params.spellRest_readable : (rest : Params) → rest.Valid → (first : Specifiers typedefs × Decl typedefs) → first.2.Readable →
    (first.2.type first.1.ty).Adjusts → (rest.spellRest first).Readable
  | .nil, _, first, h, hadjust => ⟨h, hadjust⟩
  | .cons name ty rest, ⟨_, hty, hparam, hrest⟩, first, h, hadjust =>
      ⟨h, hadjust, Params.spellRest_readable rest hrest _
        (Ty.spell_readable ty hty (named_readable name) fun hfunc => by cases ty <;> first | exact hfunc.elim | exact hparam.elim)
        (by rw [Ty.spell_type ty hty, named_type]; exact (parameter_eq hparam).2)⟩

end

/-! ## Round trip -/

/-- No storage class is written. -/
theorem Ty.spell_attr : (ty : Ty) → (d : Decl typedefs) → Attr.of (ty.spell d).1.list = {}
  | .scalar qual s, _ => by
      have hlist : ∀ c, .storage c ∉ scalarList qual s := by
        intro c hc
        rcases List.mem_append.mp hc with hc | hc
        · cases s <;> simp at hc
        · simp at hc
      simp [Ty.spell, scalarSpecs, Attr.of, hlist]
  | .struct _, _ => by simp [Ty.spell, structSpecs, Attr.of]
  | .ptr _ base, _ | .array _ _ base, _ | .vla _ base, _ | .func _ base _ _, _ => Ty.spell_attr base _

/-- The tokens of a type with a name, or with none. -/
def Ty.declare (typedefs : String → Option Ty) (ty : Ty) (name : Option String) : List Tok :=
  let (specs, d) := ty.spell (named (name.map .ident) : Decl typedefs)
  specs.print ++ d.print

end

/-- A pointer to a function from `int` to `void`. -/
def handlerTy : Ty := .ptr 0 (.func 0 (.scalar 0 .void) (.cons none (.scalar 0 (.int false)) .nil) false)

end Rcc.Declarators

import Mathlib

/-!
# Members by name

`find_member_by_name` and the designators of `__builtin_offsetof`.

A member is reached along a path: the positions of the anonymous aggregates on the way, and of the member in the last of
them. In the lexicographic order of the paths the members stand as they are declared, so the first one is the one with the least
path. The search adds the offsets on the way back, in an `int`; up to $2^{32}$ that is the sum along the path.
-/

namespace Rcc.MemberLookup

/-! ## Types and members -/

/-- The fields of a `Member` beside its type. -/
structure Fields where
  name : Option String
  offset : BitVec 32
  /-- 0 if it is no bit-field -/
  bitWidth : BitVec 32
  bitOffset : BitVec 32
  bfLoadSize : BitVec 32
deriving DecidableEq, Repr

mutual

/-- A `Type *`, as far as members and elements are looked up in it. -/
inductive Ty where
  | other (size : BitVec 64)
  | array (base : Ty) (size : BitVec 64)
  | record (isUnion : Bool) (members : Members) (size : BitVec 64)

/-- A `Member *`: a member and those behind it. -/
inductive Members where
  | nil
  | cons (fields : Fields) (ty : Ty) (next : Members)

end

structure Member where
  fields : Fields
  ty : Ty
  next : Members

def Ty.size : Ty → BitVec 64
  | other size | array _ size | record _ _ size => size

/-- `*syn = *found; syn->offset += mem->offset;` -/
def Member.shift (found : Member) (offset : BitVec 32) : Member :=
  { found with fields := { found.fields with offset := found.fields.offset + offset } }

mutual

/-- `find_member_by_name` -/
def Ty.findMemberByName (name : String) : Ty → Option Member
  | .other _ | .array _ _ => none
  | .record _ members _ => members.find name

/-- Its loop over the members. -/
def Members.find (name : String) : Members → Option Member
  | .nil => none
  | .cons fields ty next =>
      match fields.name with
      | none =>
          -- `ty.findMemberByName` is `none` as well when the type is no aggregate
          match ty.findMemberByName name with
          | some found => some (found.shift fields.offset)
          | none => next.find name
      | some n => if n = name then some ⟨fields, ty, next⟩ else next.find name

end

/-! ## What is reached -/

/-- A named member, the positions that lead to it and the sum of the offsets on the way. -/
inductive Reached : Members → List Nat → Int → Member → Prop
  | here {fields : Fields} {ty : Ty} {next : Members} {n : String} (hname : fields.name = some n) :
      Reached (.cons fields ty next) [0] fields.offset.toInt ⟨fields, ty, next⟩
  | inside {fields : Fields} {isUnion : Bool} {members next : Members} {size : BitVec 64} {path : List Nat} {offset : Int}
      {mem : Member} (hname : fields.name = none) (hin : Reached members path offset mem) :
      Reached (.cons fields (.record isUnion members size) next) (0 :: path) (fields.offset.toInt + offset) mem
  | behind {fields : Fields} {ty : Ty} {next : Members} {i : Nat} {path : List Nat} {offset : Int} {mem : Member}
      (hin : Reached next (i :: path) offset mem) :
      Reached (.cons fields ty next) ((i + 1) :: path) offset mem

/-- What is reached in a structure or a union. -/
def Ty.Reaches : Ty → List Nat → Int → Member → Prop
  | .record _ members _, path, offset, mem => Reached members path offset mem
  | .other _, _, _, _ | .array _ _, _, _, _ => False

/-- The first in declaration order that has the name, among what is reached. -/
structure First (reaches : List Nat → Int → Member → Prop) (name : String) (path : List Nat) (offset : Int) (mem : Member) :
    Prop where
  reached : reaches path offset mem
  name_eq : mem.fields.name = some name
  first : ∀ path' offset' mem', reaches path' offset' mem' → mem'.fields.name = some name → path ≤ path'

/-- The member with its offset from the start of the whole type. -/
def Member.located (mem : Member) (offset : Int) : Member :=
  { mem with fields := { mem.fields with offset := BitVec.ofInt 32 offset } }

theorem Member.located_toInt (mem : Member) : mem.located mem.fields.offset.toInt = mem := by
  rw [Member.located, BitVec.ofInt_toInt]

theorem Member.shift_located (mem : Member) (offset : Int) (outer : BitVec 32) :
    (mem.located offset).shift outer = mem.located (outer.toInt + offset) := by
  rw [Member.located, Member.located, Member.shift, BitVec.ofInt_add, BitVec.ofInt_toInt, BitVec.add_comm]

/-- What the search is to give. -/
def Answers (reaches : List Nat → Int → Member → Prop) (name : String) : Option Member → Prop
  | none => ∀ path offset mem, reaches path offset mem → mem.fields.name ≠ some name
  | some found => ∃ path offset mem, First reaches name path offset mem ∧ found = mem.located offset

/-- One position further, the order is the same. -/
theorem next_le {i j : Nat} {path path' : List Nat} (h : i :: path ≤ j :: path') :
    (i + 1) :: path ≤ (j + 1) :: path' := by
  rcases le_iff_lt_or_eq.mp h with hlt | heq
  · cases hlt with
    | rel hij => exact le_of_lt (.rel (Nat.succ_lt_succ hij))
    | cons hpath => exact le_of_lt (.cons hpath)
  · cases heq
    exact le_refl _

/-- A member whose own name it is comes before all others. -/
theorem answers_here {fields : Fields} {ty : Ty} {next : Members} {name : String} (hname : fields.name = some name) :
    Answers (Reached (.cons fields ty next)) name (some ⟨fields, ty, next⟩) := by
  refine ⟨[0], fields.offset.toInt, _, ⟨.here hname, hname, ?_⟩, (Member.located_toInt _).symm⟩
  intro path' offset' mem' hreached _
  cases hreached with
  | here => exact le_refl _
  | inside hname' _ =>
      rw [hname] at hname'
      cases hname'
  | behind _ => exact le_of_lt (.rel (Nat.succ_pos _))

/-- One that is inside an anonymous member comes before those behind. -/
theorem answers_inside {fields : Fields} {ty : Ty} {next : Members} {name : String} {found : Member}
    (hname : fields.name = none) (hfound : Answers ty.Reaches name (some found)) :
    Answers (Reached (.cons fields ty next)) name (some (found.shift fields.offset)) := by
  obtain ⟨path, offset, mem, hfirst, rfl⟩ := hfound
  cases ty with
  | other _ => exact hfirst.reached.elim
  | array _ _ => exact hfirst.reached.elim
  | record isUnion members size =>
      refine ⟨0 :: path, fields.offset.toInt + offset, mem, ⟨.inside hname hfirst.reached, hfirst.name_eq, ?_⟩,
        Member.shift_located mem offset fields.offset⟩
      intro path' offset' mem' hreached hname'
      cases hreached with
      | here hsome =>
          rw [hname] at hsome
          cases hsome
      | inside _ hin => exact List.cons_le_cons 0 (hfirst.first _ _ _ hin hname')
      | behind _ => exact le_of_lt (.rel (Nat.succ_pos _))

/-- Otherwise it is one of those behind. -/
theorem answers_behind {fields : Fields} {ty : Ty} {next : Members} {name : String} {result : Option Member}
    (hname : fields.name ≠ some name)
    (hinside : fields.name = none → ∀ path offset mem, ty.Reaches path offset mem → mem.fields.name ≠ some name)
    (hnext : Answers (Reached next) name result) : Answers (Reached (.cons fields ty next)) name result := by
  cases result with
  | none =>
      intro path offset mem hreached
      cases hreached with
      | here _ => exact hname
      | inside hnone hin => exact hinside hnone _ _ _ hin
      | behind hin => exact hnext _ _ _ hin
  | some found =>
      obtain ⟨path, offset, mem, hfirst, rfl⟩ := hnext
      cases path with
      | nil => cases hfirst.reached
      | cons i path =>
          refine ⟨(i + 1) :: path, offset, mem, ⟨.behind hfirst.reached, hfirst.name_eq, ?_⟩, rfl⟩
          intro path' offset' mem' hreached hname'
          cases hreached with
          | here _ => exact absurd hname' hname
          | inside hnone hin => exact absurd hname' (hinside hnone _ _ _ hin)
          | behind hin => exact next_le (hfirst.first _ _ _ hin hname')

mutual

theorem findMemberByName_answers (name : String) (ty : Ty) :
    Answers ty.Reaches name (ty.findMemberByName name) := by
  cases ty with
  | other _ => exact fun _ _ _ hreached => hreached.elim
  | array _ _ => exact fun _ _ _ hreached => hreached.elim
  | record isUnion members size => exact find_answers name members

theorem find_answers (name : String) (members : Members) : Answers (Reached members) name (members.find name) := by
  cases members with
  | nil => exact fun _ _ _ hreached => by cases hreached
  | cons fields ty next =>
      have hty := findMemberByName_answers name ty
      have hnext := find_answers name next
      rw [Members.find]
      split
      · next hname =>
          split
          · next found hfound => exact answers_inside hname (hfound ▸ hty)
          · next hfound =>
              rw [hfound] at hty
              exact answers_behind (hname ▸ fun h => by cases h) (fun _ => hty) hnext
      · next n hname =>
          split
          · next heq => exact answers_here (heq ▸ hname)
          · next hne =>
              refine answers_behind (fun h => hne ?_) (fun hnone => ?_) hnext
              · exact Option.some.inj (hname ▸ h)
              · rw [hname] at hnone
                cases hnone

end

/-- A path leads to one member. -/
theorem Reached.unique {members : Members} {path : List Nat} {offset offset' : Int} {mem mem' : Member}
    (h : Reached members path offset mem) (h' : Reached members path offset' mem') : offset = offset' ∧ mem = mem' := by
  induction h generalizing offset' mem' with
  | here hname =>
      cases h' with
      | here _ => exact ⟨rfl, rfl⟩
      | inside hnone _ =>
          rw [hname] at hnone
          cases hnone
  | inside hnone _ ih =>
      cases h' with
      | here hname =>
          rw [hnone] at hname
          cases hname
      | inside _ hin =>
          obtain ⟨rfl, rfl⟩ := ih hin
          exact ⟨rfl, rfl⟩
  | behind _ ih =>
      cases h' with
      | behind hin => exact ih hin

theorem First.unique {ty : Ty} {name : String} {path path' : List Nat} {offset offset' : Int} {mem mem' : Member}
    (h : First ty.Reaches name path offset mem) (h' : First ty.Reaches name path' offset' mem') :
    offset = offset' ∧ mem = mem' := by
  have hpath : path = path' :=
    le_antisymm (h.first _ _ _ h'.reached h'.name_eq) (h'.first _ _ _ h.reached h.name_eq)
  subst hpath
  have hreached := h.reached
  cases ty with
  | other _ => exact hreached.elim
  | array _ _ => exact hreached.elim
  | record _ members _ => exact Reached.unique hreached h'.reached

/-! ## `__builtin_offsetof` -/

inductive Tok where
  | ident (name : String)
  | num (val : BitVec 64)
  | lbracket
  | rbracket
  | dot
  | rparen
  | other
deriving DecidableEq, Repr

/-- `if (equalc(tok, "[")) …` -/
def element (offset : BitVec 32) (ty : Ty) (tok : List Tok) : Option (BitVec 32 × Ty × List Tok) :=
  match tok with
  | .lbracket :: tok =>
      match tok, ty with
      | .num val :: .rbracket :: tok, .array base _ =>
          some ((offset.signExtend 64 + val * base.size).setWidth 32, base, tok)
      | _, _ => none
  | _ => some (offset, ty, tok)

theorem setWidth_ofInt (x : Int) : (BitVec.ofInt 64 x).setWidth 32 = BitVec.ofInt 32 x := by
  apply BitVec.eq_of_toNat_eq
  rw [BitVec.toNat_setWidth, BitVec.toNat_ofInt, BitVec.toNat_ofInt]
  omega

/-- The 64-bit product, cut to an `int`. -/
theorem setWidth_product (offset : BitVec 32) (val size : BitVec 64) :
    (offset.signExtend 64 + val * size).setWidth 32 = offset + BitVec.ofInt 32 (val.toNat * size.toInt) := by
  have hval : BitVec.ofInt 64 val.toNat = val := by
    rw [BitVec.ofInt_natCast, BitVec.ofNat_toNat, BitVec.setWidth_eq]
  calc (offset.signExtend 64 + val * size).setWidth 32
      = (BitVec.ofInt 64 (offset.toInt + val.toNat * size.toInt)).setWidth 32 := by
        rw [BitVec.ofInt_add, BitVec.ofInt_mul, hval, BitVec.ofInt_toInt]
        rfl
    _ = offset + BitVec.ofInt 32 (val.toNat * size.toInt) := by
        rw [setWidth_ofInt, BitVec.ofInt_add, BitVec.ofInt_toInt]

/-- Without a bracket nothing is read; with one, so many elements are added. -/
theorem element_cases {offset offset' : BitVec 32} {ty ty' : Ty} {tok tok' : List Tok}
    (h : element offset ty tok = some (offset', ty', tok')) :
    (offset' = offset ∧ ty' = ty ∧ tok' = tok) ∨
      ∃ index size, tok = .lbracket :: .num index :: .rbracket :: tok' ∧ ty = .array ty' size ∧
        offset' = offset + BitVec.ofInt 32 (index.toNat * ty'.size.toInt) := by
  revert h
  unfold element
  split
  · split
    · intro h
      cases h
      exact .inr ⟨_, _, rfl, rfl, setWidth_product _ _ _⟩
    · intro h
      cases h
  · intro h
    cases h
    exact .inl ⟨rfl, rfl, rfl⟩

theorem element_length {offset offset' : BitVec 32} {ty ty' : Ty} {tok tok' : List Tok}
    (h : element offset ty tok = some (offset', ty', tok')) : tok'.length ≤ tok.length := by
  rcases element_cases h with ⟨-, -, rfl⟩ | ⟨_, _, rfl, -, -⟩
  · exact le_refl _
  · simp only [List.length_cons]
    omega

/-- The loop over a designator. -/
def offsetof (offset : BitVec 32) (ty : Ty) : List Tok → Option (BitVec 32 × List Tok)
  | .ident name :: tok =>
      match ty.findMemberByName name with
      | none => none
      | some mem =>
          match _helement : element (offset + mem.fields.offset) mem.ty tok with
          | some (offset, ty, .dot :: tok) => offsetof offset ty tok
          | some (offset, _, .rparen :: tok) => some (offset, tok)
          | _ => none
  | _ => none
termination_by tok => tok.length
decreasing_by
  have hle := element_length _helement
  simp only [List.length_cons] at hle ⊢
  omega

/-- `.name` or `.name[index]` -/
structure Step where
  name : String
  index : Option (BitVec 64)

def Step.spell : Step → List Tok
  | ⟨name, none⟩ => [.ident name]
  | ⟨name, some index⟩ => [.ident name, .lbracket, .num index, .rbracket]

def spell : List Step → List Tok
  | [] => []
  | [step] => step.spell
  | step :: steps => step.spell ++ .dot :: spell steps

/-- The address of what a designator names in an object of the type at an address: every member on the way adds its offset and every
index so many elements. -/
inductive Designates : Ty → Int → List Step → Int → Prop
  | done {ty : Ty} {a : Int} : Designates ty a [] a
  | member {ty : Ty} {a b offset : Int} {name : String} {path : List Nat} {mem : Member} {steps : List Step}
      (hfirst : First ty.Reaches name path offset mem) (hrest : Designates mem.ty (a + offset) steps b) :
      Designates ty a (⟨name, none⟩ :: steps) b
  | element {ty base : Ty} {a b offset : Int} {name : String} {path : List Nat} {fields : Fields} {next : Members}
      {size index : BitVec 64} {steps : List Step}
      (hfirst : First ty.Reaches name path offset ⟨fields, .array base size, next⟩)
      (hrest : Designates base (a + offset + index.toNat * base.size.toInt) steps b) :
      Designates ty a (⟨name, some index⟩ :: steps) b

theorem Designates.unique {ty : Ty} {a b b' : Int} {steps : List Step} (h : Designates ty a steps b)
    (h' : Designates ty a steps b') : b = b' := by
  induction h generalizing b' with
  | done =>
      cases h' with
      | done => rfl
  | member hfirst _ ih =>
      cases h' with
      | member hfirst' hrest' =>
          obtain ⟨rfl, rfl⟩ := hfirst.unique hfirst'
          exact ih hrest'
  | element hfirst _ ih =>
      cases h' with
      | element hfirst' hrest' =>
          obtain ⟨rfl, hmem⟩ := hfirst.unique hfirst'
          cases hmem
          exact ih hrest'

theorem spell_cons {step : Step} {steps : List Step} (h : steps ≠ []) :
    spell (step :: steps) = step.spell ++ .dot :: spell steps := by
  cases steps with
  | nil => exact absurd rfl h
  | cons _ _ => rfl

/-- One turn of the loop reads one step. -/
theorem step_designates {offset offset' : BitVec 32} {ty ty' : Ty} {name : String} {mem : Member} {tok tok' : List Tok}
    (hmem : ty.findMemberByName name = some mem)
    (helement : element (offset + mem.fields.offset) mem.ty tok = some (offset', ty', tok')) :
    ∃ step n, .ident name :: tok = step.spell ++ tok' ∧ offset' = offset + BitVec.ofInt 32 n ∧
      ∀ a b steps, Designates ty' (a + n) steps b → Designates ty a (step :: steps) b := by
  have hanswers := findMemberByName_answers name ty
  rw [hmem] at hanswers
  obtain ⟨path, o, found, hfirst, rfl⟩ := hanswers
  rcases element_cases helement with ⟨rfl, rfl, rfl⟩ | ⟨index, size, rfl, hty, rfl⟩
  · exact ⟨⟨name, none⟩, o, rfl, rfl, fun a b steps hrest => .member hfirst hrest⟩
  · obtain ⟨fields, fty, next⟩ := found
    cases hty
    refine ⟨⟨name, some index⟩, o + index.toNat * ty'.size.toInt, rfl, ?_, fun a b steps hrest => ?_⟩
    · rw [BitVec.ofInt_add, ← BitVec.add_assoc]
      rfl
    · exact .element hfirst (Int.add_assoc a o _ ▸ hrest)

theorem offsetof_dot {offset offset' : BitVec 32} {ty ty' : Ty} {name : String} {mem : Member} {tok tok' : List Tok}
    (hmem : ty.findMemberByName name = some mem)
    (helement : element (offset + mem.fields.offset) mem.ty tok = some (offset', ty', .dot :: tok')) :
    offsetof offset ty (.ident name :: tok) = offsetof offset' ty' tok' := by
  rw [offsetof, hmem]
  simp only []
  split
  · next heq =>
      cases helement.symm.trans heq
      rfl
  · next heq => cases helement.symm.trans heq
  · next hdot _ => exact absurd helement (hdot _ _ _)

theorem offsetof_rparen {offset offset' : BitVec 32} {ty ty' : Ty} {name : String} {mem : Member} {tok tok' : List Tok}
    (hmem : ty.findMemberByName name = some mem)
    (helement : element (offset + mem.fields.offset) mem.ty tok = some (offset', ty', .rparen :: tok')) :
    offsetof offset ty (.ident name :: tok) = some (offset', tok') := by
  rw [offsetof, hmem]
  simp only []
  split
  · next heq => cases helement.symm.trans heq
  · next heq =>
      cases helement.symm.trans heq
      rfl
  · next hrparen => exact absurd helement (hrparen _ _ _)

/-- What the loop accepts is a designator, and it adds the offset of what it names. -/
theorem offsetof_designates {offset result : BitVec 32} {ty : Ty} {tok rest : List Tok}
    (h : offsetof offset ty tok = some (result, rest)) :
    ∃ steps n, steps ≠ [] ∧ tok = spell steps ++ .rparen :: rest ∧ result = offset + BitVec.ofInt 32 n ∧
      ∀ a, Designates ty a steps (a + n) := by
  induction offset, ty, tok using offsetof.induct with
  | case1 offset ty name tok hnone =>
      rw [offsetof, hnone] at h
      cases h
  | case2 offset ty name tok mem hmem offset' ty' tok' helement ih =>
      rw [offsetof_dot hmem helement] at h
      obtain ⟨steps, n, hne, rfl, rfl, hrest⟩ := ih h
      obtain ⟨step, n', hspell, rfl, hstep⟩ := step_designates hmem helement
      refine ⟨step :: steps, n' + n, List.cons_ne_nil _ _, ?_, ?_, fun a => hstep a _ steps ?_⟩
      · rw [hspell, spell_cons hne, List.append_assoc]
        rfl
      · rw [BitVec.ofInt_add, BitVec.add_assoc]
      · exact Int.add_assoc a n' n ▸ hrest (a + n')
  | case3 offset ty name tok mem hmem offset' ty' tok' helement =>
      rw [offsetof_rparen hmem helement] at h
      cases h
      obtain ⟨step, n, hspell, rfl, hstep⟩ := step_designates hmem helement
      exact ⟨[step], n, List.cons_ne_nil _ _, hspell, rfl, fun a => hstep a _ [] .done⟩
  | case4 offset ty name tok mem hmem hdot hrparen =>
      rw [offsetof, hmem] at h
      simp only [] at h
      cases h
  | case5 offset ty tok hident =>
      rw [offsetof] at h
      · cases h
      · exact hident

/-- **Members and designators.** A member is found exactly when one is reached that has the name; it is the first of these, with the
sum of the offsets on the way to it and all else as it was. And a designator that is accepted gives the distance of what it names
from the object, if that is an `int`. -/
theorem members_by_name (ty : Ty) :
    (∀ name, (∃ found, ty.findMemberByName name = some found) ↔
      ∃ path offset mem, ty.Reaches path offset mem ∧ mem.fields.name = some name) ∧
    (∀ name found, ty.findMemberByName name = some found →
      ∃ path offset mem, First ty.Reaches name path offset mem ∧ found = mem.located offset ∧
        (-2 ^ 31 ≤ offset → offset < 2 ^ 31 → found.fields.offset.toInt = offset)) ∧
    ∀ tok result rest, offsetof 0 ty tok = some (result, rest) →
      ∃ steps, tok = spell steps ++ .rparen :: rest ∧ (∀ a, ∃ b, Designates ty a steps b) ∧
        ∀ a b, Designates ty a steps b → -2 ^ 31 ≤ b - a → b - a < 2 ^ 31 → result.toInt = b - a := by
  have hint : ∀ n : Int, -2 ^ 31 ≤ n → n < 2 ^ 31 → (BitVec.ofInt 32 n).toInt = n := fun n hlow hhigh => by
    rw [BitVec.toInt_ofInt]
    exact Int.bmod_eq_of_le (by omega) (by omega)
  refine ⟨fun name => ?_, fun name found hfound => ?_, fun tok result rest h => ?_⟩
  · have hanswers := findMemberByName_answers name ty
    cases hresult : ty.findMemberByName name with
    | none =>
        rw [hresult] at hanswers
        refine iff_of_false (fun hex => by obtain ⟨_, h⟩ := hex; cases h) fun hex => ?_
        obtain ⟨path, offset, mem, hreached, hname⟩ := hex
        exact hanswers path offset mem hreached hname
    | some found =>
        rw [hresult] at hanswers
        obtain ⟨path, offset, mem, hfirst, -⟩ := hanswers
        exact iff_of_true ⟨found, rfl⟩ ⟨path, offset, mem, hfirst.reached, hfirst.name_eq⟩
  · have hanswers := findMemberByName_answers name ty
    rw [hfound] at hanswers
    obtain ⟨path, offset, mem, hfirst, rfl⟩ := hanswers
    exact ⟨path, offset, mem, hfirst, rfl, hint offset⟩
  · obtain ⟨steps, n, -, htok, hresult, hdesignates⟩ := offsetof_designates h
    refine ⟨steps, htok, fun a => ⟨a + n, hdesignates a⟩, fun a b hb hlow hhigh => ?_⟩
    obtain rfl := (hdesignates a).unique hb
    rw [add_sub_cancel_left] at hlow hhigh ⊢
    rw [hresult]
    exact (congrArg BitVec.toInt (BitVec.zero_add _)).trans (hint n hlow hhigh)

end Rcc.MemberLookup

import Rcc.Initializer

/-!
# Static and automatic objects

Whether an initializer makes the same bytes of a static object and of an automatic
one. The two walks are compared first: `Sim` says that, where both come to an end,
they leave the same tokens and the assignments of the one are the values that the
other writes, each with its place. It goes by the parts that walks are made of, and
by fuel through the functions. Then memory is followed through the values: `Alike`
keeps the bits of the static bytes and of the object equal.

The walks part in places: a designated member that is an array goes on without
braces in a static object only, a name that is no member ends the list of an
automatic one, and an automatic range over aggregates assigns the first value to
each. `Agreed` excludes these, and the values that do not become the same bytes.
-/

namespace Rcc.Initializer

open ByteMem (Mem bit)

/-! ## What both walks do alike -/

/-- A value that becomes the same bytes. -/
def Put.Agreed : Put → Prop
  | scalar .bool offset _ => 0 ≤ offset ∨ offset + BitField.accessBytes 1 ≤ 0
  | scalar (.int size) offset _ => 0 ≤ offset ∨ offset + BitField.accessBytes size ≤ 0
  | scalar .ptr offset val =>
      (0 ≤ offset ∨ offset + 8 ≤ 0) ∧ (val.setWidth 32).signExtend 64 = val
  | scalar (.flo _) _ val => val.toNat < 2 ^ 63
  | bits f _ _ => 0 < f.bw ∧ f.bw < 64 ∧ f.bo + f.bw ≤ f.mem.ty.size * 8 ∧ f.mem.bfLoadSize = 0

/-- What `local_init_one` does in the same way. -/
def Event.Agreed : Event → Prop
  | put p => p.Agreed
  | designated m braced =>
      match m with
      | .member _ ty _ _ => ty.isArray = true → braced = true
      | _ => True
  | name => False
  | range base sidx eidx braced => braced = true ∨ base.isScalar = true ∧ sidx < eidx

def Event.put? : Event → Option Put
  | put p => some p
  | _ => none

/-- Where both walks have a result, they leave the same tokens, and the assignments
are those of the values. -/
def Sim (w : Walk Event) (w' : Walk Assign) : Prop :=
  ∀ toks events toks' code, w = some (toks, events) → w' = some (toks', code) →
    (∀ e ∈ events, e.Agreed) →
    toks = toks' ∧ code.map Assign.put? = (events.filterMap Event.put?).map some

variable {w : Walk Event} {w' : Walk Assign} {toks : List Tok}

namespace Sim

theorem of_none : Sim none w' := fun _ _ _ _ h => absurd h nofun

theorem of_none' : Sim w none := fun _ _ _ _ _ h => absurd h nofun

theorem stay (toks : List Tok) : Sim (stay toks) (stay toks) := by
  intro t ev t' as h h' _
  obtain ⟨rfl, rfl⟩ := Prod.mk.inj (Option.some_inj.mp h)
  obtain ⟨rfl, rfl⟩ := Prod.mk.inj (Option.some_inj.mp h')
  exact ⟨rfl, rfl⟩

theorem andThen {k : List Tok → Walk Event} {k' : List Tok → Walk Assign} (hw : Sim w w')
    (hk : ∀ toks, Sim (k toks) (k' toks)) : Sim (w.andThen k) (w'.andThen k') := by
  intro t ev t' as h h' hagreed
  obtain ⟨⟨t1, ev1⟩, hw1, h⟩ := Option.bind_eq_some_iff.mp h
  obtain ⟨⟨t2, ev2⟩, hk1, h⟩ := Option.map_eq_some_iff.mp h
  obtain ⟨⟨t1', as1⟩, hw1', h'⟩ := Option.bind_eq_some_iff.mp h'
  obtain ⟨⟨t2', as2⟩, hk1', h'⟩ := Option.map_eq_some_iff.mp h'
  obtain ⟨rfl, rfl⟩ := Prod.mk.inj h
  obtain ⟨rfl, rfl⟩ := Prod.mk.inj h'
  obtain ⟨rfl, hput⟩ := hw _ _ _ _ hw1 hw1' fun e he => hagreed e (List.mem_append_left _ he)
  obtain ⟨rfl, hput2⟩ := hk t1 _ _ _ _ hk1 hk1' fun e he => hagreed e (List.mem_append_right _ he)
  rw [List.map_append, List.filterMap_append, List.map_append, hput, hput2]
  exact ⟨rfl, rfl⟩

theorem close (hw : Sim w w') : Sim w.close w'.close := by
  intro t ev t' as h h' hagreed
  obtain ⟨⟨t1, ev1⟩, hw1, h⟩ := Option.bind_eq_some_iff.mp h
  obtain ⟨t2, hskip, h⟩ := Option.map_eq_some_iff.mp h
  obtain ⟨⟨t1', as1⟩, hw1', h'⟩ := Option.bind_eq_some_iff.mp h'
  obtain ⟨t2', hskip', h'⟩ := Option.map_eq_some_iff.mp h'
  obtain ⟨rfl, rfl⟩ := Prod.mk.inj h
  obtain ⟨rfl, rfl⟩ := Prod.mk.inj h'
  obtain ⟨rfl, hput⟩ := hw _ _ _ _ hw1 hw1' hagreed
  exact ⟨Option.some_inj.mp (hskip.symm.trans hskip'), hput⟩

theorem bind {α : Type} {o : Option α} {k : α → Walk Event} {k' : α → Walk Assign}
    (hk : ∀ a, o = some a → Sim (k a) (k' a)) : Sim (o.bind k) (o.bind k') := by
  cases o with
  | none => exact of_none
  | some a => exact hk a rfl

theorem bind_right {α : Type} {o : Option α} {k' : α → Walk Assign} (h : ∀ a, o = some a → Sim w (k' a)) :
    Sim w (o.bind k') := by
  cases o with
  | none => exact of_none'
  | some a => exact h a rfl

theorem skipOver (toks : List Tok) : Sim (skipOver toks) (skipOver toks) := bind fun _ _ => stay _

theorem afterElement {more : List Tok → Walk Event} {more' : List Tok → Walk Assign}
    (hmore : ∀ toks, Sim (more toks) (more' toks)) :
    Sim (afterElement toks more) (afterElement toks more') := by
  rw [Initializer.afterElement.eq_def, Initializer.afterElement.eq_def]
  split
  · exact stay _
  · exact hmore _
  · exact stay _

/-- A place where `local_init_one` has a way of its own, if both go the same. -/
theorem emit {e : Event} (he : e.put? = none) (h : e.Agreed → Sim w w') : Sim (emit e w) w' := by
  intro t ev t' as hw hw' hagreed
  obtain ⟨⟨t1, ev1⟩, hw1, h1⟩ := Option.map_eq_some_iff.mp hw
  obtain ⟨rfl, rfl⟩ := Prod.mk.inj h1
  obtain ⟨rfl, hput⟩ := h (hagreed e List.mem_cons_self) _ _ _ _ hw1 hw' fun e he =>
    hagreed e (List.mem_cons_of_mem _ he)
  rw [List.filterMap_cons_none he]
  exact ⟨rfl, hput⟩

/-- A value that both put, and then go on. -/
theorem cons {p : Put} {a : Assign} (hput : a.put? = some p) (h : Sim w w') :
    Sim (Initializer.emit (.put p) w) (Initializer.emit a w') := by
  intro t ev t' as hw hw' hagreed
  obtain ⟨⟨t1, ev1⟩, hw1, h1⟩ := Option.map_eq_some_iff.mp hw
  obtain ⟨⟨t1', as1⟩, hw1', h1'⟩ := Option.map_eq_some_iff.mp hw'
  obtain ⟨rfl, rfl⟩ := Prod.mk.inj h1
  obtain ⟨rfl, rfl⟩ := Prod.mk.inj h1'
  obtain ⟨rfl, hrest⟩ := h _ _ _ _ hw1 hw1' fun e he => hagreed e (List.mem_cons_of_mem _ he)
  rw [List.map_cons, hput, hrest]
  exact ⟨rfl, rfl⟩

/-- A constant that both assign. -/
theorem put {p : BitVec 64 → Put} {s : BitVec 64 → Assign} (h : ∀ v, (s v).put? = some (p v))
    (toks : List Tok) : Sim ((assign toks).bind fun q => Initializer.emit (.put (p q.1)) (Initializer.stay q.2))
      ((assign toks).bind fun q => Initializer.emit (s q.1) (Initializer.stay q.2)) := by
  exact bind fun q _ => cons (h q.1) (stay q.2)

end Sim

/-- A node that names an object at an offset, and no bit-field. -/
structure LVal.Names (lhs : LVal) (offset : Int) : Prop where
  addr : lhs.addr = offset
  object : ∀ l f, lhs ≠ .bitField l f

theorem LVal.Names.member {lhs : LVal} {base : Int} (h : lhs.Names base) (offset : Nat) :
    (LVal.member lhs offset).Names (base + offset) := ⟨congrArg (· + (offset : Int)) h.addr, nofun⟩

theorem LVal.Names.elem {lhs : LVal} {base : Int} (h : lhs.Names base) (size : Nat) (idx : Int) :
    (LVal.elem lhs size idx).Names (base + idx * size) := ⟨congrArg (· + idx * (size : Int)) h.addr, nofun⟩

theorem put_scalar {lhs : LVal} {offset : Int} (h : lhs.Names offset) (k : Kind) (v : BitVec 64) :
    (Assign.mk lhs (.scalar k) v).put? = some (.scalar k offset v) := by
  cases lhs with
  | bitField l f => exact absurd rfl (h.object l f)
  | var => rw [← h.addr]; rfl
  | member l o => rw [← h.addr]; rfl
  | elem l size idx => rw [← h.addr]; rfl

theorem startsWith_iff {t : Tok} {toks : List Tok} : startsWith t toks = true ↔ ∃ rest, toks = t :: rest := by
  cases toks with
  | nil => exact ⟨fun h => absurd h nofun, fun h => absurd h.choose_spec nofun⟩
  | cons t' rest =>
      constructor
      · intro h
        exact ⟨rest, by rw [of_decide_eq_true h]⟩
      · intro h
        obtain ⟨_, h⟩ := h
        exact decide_eq_true (List.cons.inj h).1.symm

/-- A constant for a bit-field, which only `local_init_one` takes in braces. -/
theorem sim_bitField (n : Nat) {lhs : LVal} {base : Int} (h : lhs.Names base) (f : BitField.Field) (k : Kind)
    (toks : List Tok) :
    Sim ((assign toks).bind fun p => emit (.put (.bits f (base + f.mem.offset) p.1)) (stay p.2))
      (localInitOne n (.bitField lhs f) (.scalar k) toks) := by
  have hput : ∀ v, (Assign.mk (.bitField lhs f) (.scalar k) v).put? =
      some (.bits f (base + f.mem.offset) v) := fun v => by
    rw [← h.addr]
    rfl
  match n with
  | 0 => exact .of_none'
  | n + 1 =>
      match toks with
      | .lbrace :: rest => exact .of_none
      | [] => exact .of_none
      | .num v :: rest =>
          rw [localInitOne]
          · exact Sim.put hput _
          · exact nofun
      | .rbrace :: _ | .comma :: _ | .dot :: _ | .lbrack :: _ | .rbrack :: _ | .ellipsis :: _
      | .eq :: _ | .colon :: _ | .ident _ :: _ => exact .of_none

theorem assign_eq_some {toks rest : List Tok} {v : BitVec 64} (h : assign toks = some (v, rest)) :
    toks = .num v :: rest := by
  rw [assign.eq_def] at h
  split at h
  · obtain ⟨rfl, rfl⟩ := Prod.mk.inj (Option.some_inj.mp (Option.ite_none_right_eq_some.mp h).2)
    rfl
  · exact absurd h nofun

theorem skip_eq_some {t : Tok} {toks rest : List Tok} (h : skip t toks = some rest) : toks = t :: rest := by
  cases toks with
  | nil => exact absurd h nofun
  | cons t' toks =>
      obtain ⟨heq, h⟩ := Option.ite_none_right_eq_some.mp h
      rw [heq, Option.some_inj.mp h]

theorem noteName_of (h : ∀ name rest, toks ≠ .ident name :: rest) : noteName toks w = w := by
  rw [noteName.eq_def]
  split
  · exact absurd rfl (h _ _)
  · rfl

/-- One constant for a range of scalars. -/
theorem sim_rangeOnce (n n' : Nat) {lhs : LVal} {offset : Int} (h : lhs.Names offset) (k : Kind) (len : Nat)
    (i eidx : Int) {valStart toks : List Tok} {p : BitVec 64 × List Tok} (hp : assign valStart = some p)
    (htoks : eidx < i → toks = p.2) :
    Sim (globalRange n (.scalar k) len i eidx offset valStart toks)
      ((localRangeOnce n' lhs (.scalar k) len i eidx p.1).map fun as => (p.2, as)) := by
  have htok : valStart = .num p.1 :: p.2 := assign_eq_some hp
  induction n generalizing n' i toks with
  | zero => exact .of_none
  | succ n ih =>
      match n' with
      | 0 => exact .of_none'
      | n' + 1 =>
          rw [globalRange, localRangeOnce]
          by_cases hle : i ≤ eidx
          · rw [if_pos hle, if_pos hle]
            -- one element, and the rest of the range
            have hrest : Sim (globalRange n (.scalar k) len (i + 1) eidx offset valStart p.2)
                ((localRangeOnce n' lhs (.scalar k) len (i + 1) eidx p.1).map fun as => (p.2, as)) :=
              ih n' (i + 1) fun _ => rfl
            by_cases hin : len = 0 ∨ i < len
            · rw [if_pos hin]
              cases n with
              | zero => exact .of_none
              | succ n =>
                  have hone : globalInitOne (n + 1) (.scalar k) (offset + i * (Ty.scalar k).size) valStart =
                      some (p.2, [.put (.scalar k (offset + i * (Ty.scalar k).size) p.1)]) := by
                    rw [globalInitOne, hp]
                    · rfl
                    · exact fun rest heq => absurd (htok.symm.trans heq) nofun
                  have hlocal : ∀ (o : Option (List Assign)) (a : Assign),
                      (o.map fun as => a :: as).map (fun as => (p.2, as)) = emit a (o.map fun as => (p.2, as)) :=
                    fun o a => by cases o <;> rfl
                  rw [hone]
                  simp only [if_pos hin]
                  rw [hlocal]
                  exact .cons (put_scalar (h.elem _ i) k p.1) hrest
            · rw [if_neg hin]
              have hskip : skipOver valStart = some (p.2, ([] : List Event)) := by
                rw [skipOver, skipInitializer, htok, List.length_cons, skipInitializerFrom, ← htok, hp]
                all_goals first | rfl | exact nofun
              have hgo : ∀ w : Walk Event, (w.map fun q => (q.1, [] ++ q.2)) = w := fun w => by
                cases w <;> rfl
              rw [hskip]
              simp only [if_neg hin, Walk.andThen, Option.bind_some, hgo, Option.map_id']
              exact hrest
          · rw [if_neg hle, if_neg hle, htoks (by omega)]
            exact .stay p.2

/-! ## The walks in step -/

mutual

theorem sim_flatArray (n n' : Nat) {lhs : LVal} {offset : Int} (h : lhs.Names offset) (ty : Ty)
    (toks : List Tok) : Sim (globalInitFlatArray n ty offset toks) (localInitFlatArray n' lhs ty toks) := by
  match n, n' with
  | 0, _ => exact .of_none
  | _ + 1, 0 => exact .of_none'
  | n + 1, n' + 1 =>
      match ty with
      | .array base len =>
          rw [globalInitFlatArray, localInitFlatArray]
          exact sim_flatElements n n' h base _ 0 toks
      | .scalar k =>
          rw [globalInitFlatArray, localInitFlatArray]
          · exact sim_initOne n n' h (.scalar k) toks
          · exact nofun
          · exact nofun
      | .record isUnion size members =>
          rw [globalInitFlatArray, localInitFlatArray]
          · exact sim_initOne n n' h (.record isUnion size members) toks
          · exact nofun
          · exact nofun

theorem sim_flatElements (n n' : Nat) {lhs : LVal} {offset : Int} (h : lhs.Names offset) (base : Ty)
    (len i : Nat) (toks : List Tok) :
    Sim (globalFlatElements n base len i offset toks) (localFlatElements n' lhs base len i toks) := by
  match n, n' with
  | 0, _ => exact .of_none
  | _ + 1, 0 => exact .of_none'
  | n + 1, n' + 1 =>
      rw [globalFlatElements, localFlatElements]
      split
      · exact .andThen (sim_flatArray n n' (h.elem base.size i) base toks) fun toks =>
          sim_flatElements n n' h base len (i + 1) _
      · exact .stay toks

theorem sim_initMember (n n' : Nat) {lhs : LVal} {base : Int} (h : lhs.Names base) (m : Members)
    (toks : List Tok) : Sim (globalInitMember n m base toks) (localInitMember n' lhs m toks) := by
  match n, n' with
  | 0, _ => exact .of_none
  | _ + 1, 0 => exact .of_none'
  | n + 1, n' + 1 =>
      match m with
      | .nil => exact .of_none
      | .bitField name f next =>
          rw [globalInitMember, localInitMember]
          exact sim_bitField n' h f _ toks
      | .member name ty offset next =>
          rw [globalInitMember, localInitMember]
          split
          · exact sim_flatArray n n' (h.member offset) ty toks
          · exact sim_initOne n n' (h.member offset) ty toks

theorem sim_initOne (n n' : Nat) {lhs : LVal} {offset : Int} (h : lhs.Names offset) (ty : Ty)
    (toks : List Tok) : Sim (globalInitOne n ty offset toks) (localInitOne n' lhs ty toks) := by
  match n, n' with
  | 0, _ => exact .of_none
  | _ + 1, 0 => exact .of_none'
  | n + 1, n' + 1 =>
      by_cases hbrace : startsWith .lbrace toks = true
      · obtain ⟨rest, rfl⟩ := startsWith_iff.mp hbrace
        match ty with
        | .array base len =>
            rw [globalInitOne, localInitOne]
            exact .close (sim_elements n n' h base _ 0 rest)
        | .record isUnion size members =>
            rw [globalInitOne, localInitOne]
            exact .close (sim_members n n' h _ members rest)
        | .scalar k =>
            rw [globalInitOne, localInitOne]
            exact .close (sim_initOne n n' h (.scalar k) rest)
      · have hne : ∀ rest, toks ≠ .lbrace :: rest := fun rest heq =>
          hbrace (startsWith_iff.mpr ⟨rest, heq⟩)
        match ty with
        | .array base len =>
            have h0 := h.elem base.size 0
            rw [Int.zero_mul, Int.add_zero] at h0
            rw [globalInitOne, localInitOne]
            · exact sim_initOne n n' h0 base toks
            · exact fun rest heq => hne rest heq
            · exact fun rest heq => hne rest heq
        | .record isUnion size .nil =>
            rw [globalInitOne, localInitOne]
            · exact .bind_right fun _ _ => .stay toks
            · exact fun rest heq => hne rest heq
            · exact fun rest heq => hne rest heq
        | .record isUnion size (.member name ty o next) =>
            rw [globalInitOne, localInitOne]
            · exact .bind_right fun _ _ => sim_flatten n n' h isUnion (.member name ty o next) toks
            all_goals first | exact fun rest heq => hne rest heq | exact nofun
        | .record isUnion size (.bitField name f next) =>
            rw [globalInitOne, localInitOne]
            · exact .bind_right fun _ _ => sim_flatten n n' h isUnion (.bitField name f next) toks
            all_goals first | exact fun rest heq => hne rest heq | exact nofun
        | .scalar k =>
            rw [globalInitOne, localInitOne]
            · exact .put (put_scalar h k) toks
            · exact fun rest heq => hne rest heq
            · exact fun rest heq => hne rest heq

theorem sim_flatten (n n' : Nat) {lhs : LVal} {offset : Int} (h : lhs.Names offset) (isUnion : Bool)
    (m : Members) (toks : List Tok) :
    Sim ((globalInitMember n m offset toks).andThen fun toks =>
        if isUnion then stay toks else globalFlatMembers n m.next offset toks)
      ((localInitMember n' lhs m toks).andThen fun toks =>
        if isUnion then stay toks else localFlatMembers n' lhs m.next toks) := by
  refine .andThen (sim_initMember n n' h m toks) fun toks => ?_
  split
  · exact .stay toks
  · exact sim_flatMembers n n' h m.next toks

theorem sim_flatMembers (n n' : Nat) {lhs : LVal} {offset : Int} (h : lhs.Names offset) (m : Members)
    (toks : List Tok) : Sim (globalFlatMembers n m offset toks) (localFlatMembers n' lhs m toks) := by
  have hstep : ∀ n n', (∀ toks, Sim (globalInitMember n m offset toks) (localInitMember n' lhs m toks)) →
      (∀ toks, Sim (globalFlatMembers n m.next offset toks) (localFlatMembers n' lhs m.next toks)) →
      Sim (if startsWith .rbrace toks then stay toks
        else
          let toks := if startsWith .comma toks then toks.tail else toks
          if startsWith .rbrace toks then stay toks
          else (globalInitMember n m offset toks).andThen (globalFlatMembers n m.next offset))
        (if startsWith .rbrace toks then stay toks
        else
          let toks := if startsWith .comma toks then toks.tail else toks
          if startsWith .rbrace toks then stay toks
          else (localInitMember n' lhs m toks).andThen (localFlatMembers n' lhs m.next)) := by
    intro n n' hmember hrest
    split
    · exact .stay toks
    · simp only
      generalize (if startsWith .comma toks then toks.tail else toks) = toks'
      split
      · exact .stay _
      · exact .andThen (hmember _) hrest
  match n, n' with
  | 0, _ => exact .of_none
  | _ + 1, 0 => exact .of_none'
  | n + 1, n' + 1 =>
      match m with
      | .nil => exact .stay toks
      | .member name ty o next =>
          exact hstep n n' (sim_initMember n n' h _) (sim_flatMembers n n' h next)
      | .bitField name f next =>
          exact hstep n n' (sim_initMember n n' h _) (sim_flatMembers n n' h next)

theorem sim_elements (n n' : Nat) {lhs : LVal} {offset : Int} (h : lhs.Names offset) (base : Ty)
    (len : Nat) (idx : Int) (toks : List Tok) :
    Sim (globalElements n base len idx offset toks) (localElements n' lhs base len idx toks) := by
  match n, n' with
  | 0, _ => exact .of_none
  | _ + 1, 0 => exact .of_none'
  | n + 1, n' + 1 =>
      rw [globalElements, localElements]
      split
      · exact .stay toks
      · refine .bind fun p _ => ?_
        obtain ⟨sidx, eidx, toks⟩ := p
        simp only
        have hmore : ∀ {w w'}, Sim w w' →
            Sim (w.andThen fun toks => afterElement toks (globalElements n base len (eidx + 1) offset))
              (w'.andThen fun toks => afterElement toks (localElements n' lhs base len (eidx + 1))) :=
          fun hw => .andThen hw fun toks => .afterElement fun toks =>
            sim_elements n n' h base len (eidx + 1) toks
        by_cases heq : sidx = eidx
        · rw [if_pos heq, if_neg fun hne => hne.1 heq]
          exact hmore (sim_range n n' h base len sidx eidx toks toks)
        · rw [if_neg heq]
          refine .emit rfl fun hagreed => ?_
          by_cases hbrace : startsWith .lbrace toks = true
          · rw [if_neg fun hne => hne.2 hbrace]
            exact hmore (sim_range n n' h base len sidx eidx toks toks)
          · rw [if_pos ⟨heq, hbrace⟩]
            obtain ⟨hscalar, hlt⟩ := Or.resolve_left hagreed hbrace
            match base with
            | .scalar k =>
                exact hmore (.bind_right fun p hp =>
                  sim_rangeOnce n n' h k len sidx eidx hp fun hgt => absurd hgt (by omega))
            | .array _ _ => exact absurd hscalar nofun
            | .record _ _ _ => exact absurd hscalar nofun

theorem sim_range (n n' : Nat) {lhs : LVal} {offset : Int} (h : lhs.Names offset) (base : Ty)
    (len : Nat) (i eidx : Int) (valStart toks : List Tok) :
    Sim (globalRange n base len i eidx offset valStart toks)
      (localRange n' lhs base len i eidx valStart toks) := by
  match n, n' with
  | 0, _ => exact .of_none
  | _ + 1, 0 => exact .of_none'
  | n + 1, n' + 1 =>
      rw [globalRange, localRange]
      split
      · refine .andThen ?_ fun toks => sim_range n n' h base len (i + 1) eidx valStart toks
        split
        · exact sim_initOne n n' (h.elem base.size i) base valStart
        · exact .skipOver valStart
      · exact .stay toks

theorem sim_members (n n' : Nat) {lhs : LVal} {offset : Int} (h : lhs.Names offset) (ty : Ty)
    (m : Members) (toks : List Tok) :
    Sim (globalMembers n ty m offset toks) (localMembers n' lhs ty m toks) := by
  match n, n' with
  | 0, _ => exact .of_none
  | _ + 1, 0 => exact .of_none'
  | n + 1, n' + 1 =>
      have hafter : ∀ (next : Members) {w w'}, Sim w w' →
          Sim (w.andThen fun toks => afterElement toks (globalMembers n ty next offset))
            (w'.andThen fun toks => afterElement toks (localMembers n' lhs ty next)) :=
        fun next _ _ hw => .andThen hw fun toks => .afterElement fun toks =>
          sim_members n n' h ty next toks
      by_cases hdot : ∃ name rest, toks = .dot :: .ident name :: rest
      · obtain ⟨name, toks, rfl⟩ := hdot
        rw [globalMembers, localMembers]
        cases hskip : skip .eq toks with
        | none => exact .of_none
        | some rest =>
            rw [skip_eq_some hskip, Option.bind_some]
            cases hfind : ty.findMember name with
            | none => exact .emit rfl fun hagreed => absurd hagreed id
            | some m =>
                refine .emit rfl fun hagreed => ?_
                match n, m with
                | 0, _ => exact .of_none
                | _ + 1, .nil => exact .of_none
                | n + 1, .member name' ty' o next =>
                    simp only [localChain, hfind]
                    refine hafter next ?_
                    rw [globalInitMember, if_neg fun harray => harray.2 (hagreed harray.1)]
                    exact sim_initOne n n' (h.member o) ty' rest
                | n + 1, .bitField name' f next =>
                    simp only [localChain, hfind]
                    refine hafter next ?_
                    rw [globalInitMember]
                    exact sim_bitField n' h f _ rest
      · by_cases hname : ∃ name rest, toks = .ident name :: rest
        · obtain ⟨name, rest, rfl⟩ := hname
          have hemit : ∀ {w : Walk Event} {w' : Walk Assign},
              Sim (if startsWith .rbrace (.ident name :: rest) then stay (.ident name :: rest)
                else noteName (.ident name :: rest) w) w' := by
            intro w w'
            have hne : ¬ startsWith .rbrace (.ident name :: rest) = true := nofun
            rw [if_neg hne]
            exact .emit rfl fun hagreed => absurd hagreed id
          cases m with
          | nil => rw [globalMembers]; exacts [hemit, nofun]
          | member _ _ _ _ => rw [globalMembers]; exacts [hemit, nofun, nofun]
          | bitField _ _ _ => rw [globalMembers]; exacts [hemit, nofun, nofun]
        · have hstep : ∀ {w w'}, Sim w w' →
              Sim (if startsWith .rbrace toks then stay toks else
                  noteName toks (w.andThen fun toks =>
                    afterElement toks (globalMembers n ty m.next offset)))
                (if startsWith .rbrace toks then stay toks else
                  w'.andThen fun toks => afterElement toks (localMembers n' lhs ty m.next)) := by
            intro w w' hw
            rw [noteName_of fun name rest heq => hname ⟨name, rest, heq⟩]
            split
            · exact .stay toks
            · exact hafter m.next hw
          have hdot' : ∀ name rest, toks = .dot :: .ident name :: rest → False :=
            fun name rest heq => hdot ⟨name, rest, heq⟩
          have hname' : ∀ name rest, toks = .ident name :: .colon :: rest → False :=
            fun name rest heq => hname ⟨name, _, heq⟩
          cases m with
          | nil =>
              rw [globalMembers, localMembers]
              exacts [hstep (.skipOver toks), hdot', hname', hdot']
          | member name ty' o next =>
              rw [globalMembers, localMembers]
              exacts [hstep (sim_initMember n n' h _ toks), hdot', hname', nofun, hdot', nofun]
          | bitField name f next =>
              rw [globalMembers, localMembers]
              exacts [hstep (sim_initMember n n' h _ toks), hdot', hname', nofun, hdot', nofun]

end

/-! ## The bytes -/


/-- A static object and the memory of an automatic one at `a`, with the same bits. -/
structure Alike (size : Nat) (var : StaticField.LVar) (m : Mem) (a : BitVec 64) : Prop where
  room : size ≤ var.initSize
  bits : ∀ j < size * 8, bit var.initData 0 j = bit m a j

variable {size : Nat} {var var' : StaticField.LVar} {m : Mem} {a : BitVec 64}

theorem Alike.ensure (h : Alike size var m a) (hsize : size < 2 ^ 31) (offset bytes : Nat) :
    Alike size (StaticField.ensureInitSize var offset bytes) m a := by
  rw [StaticField.ensureInitSize]
  by_cases hneed : offset + bytes > var.initSize
  · rw [if_pos hneed]
    refine ⟨Nat.le_of_lt (Nat.lt_of_le_of_lt h.room hneed), fun j hj => ?_⟩
    have hroom := h.room
    have haddr : (0 + BitVec.ofNat 64 (j / 8) : BitVec 64) = BitVec.ofNat 64 (j / 8) := BitVec.zero_add _
    have hlt : (BitVec.ofNat 64 (j / 8)).toNat < var.initSize := by
      rw [BitVec.toNat_ofNat, Nat.mod_eq_of_lt (by omega)]
      omega
    rw [← h.bits j hj, bit, bit, haddr]
    simp only [hlt, if_true]
  · rw [if_neg hneed]
    exact h

/-- The same bytes are stored at the same offset. -/
theorem Alike.store (h : Alike size var m a) (hsize : size < 2 ^ 31) {offset : Nat} (hoff : offset < 2 ^ 31)
    {k : Nat} (hk : k ≤ 8) (v : Nat) :
    Alike size { var with initData := ByteMem.store var.initData (BitVec.ofNat 64 offset) k v }
      (ByteMem.store m (a + BitVec.ofNat 64 offset) k v) a := by
  refine ⟨h.room, fun j hj => ?_⟩
  have haddr : BitVec.ofNat 64 offset = 0 + BitVec.ofNat 64 offset := (BitVec.zero_add _).symm
  simp only
  rw [ByteMem.bit_store_add _ _ _ _ _ (by omega) (by omega), haddr,
    ByteMem.bit_store_add _ _ _ _ _ (by omega) (by omega), h.bits j hj]

/-- A store before the object. -/
theorem Alike.store_before (h : Alike size var m a) (hsize : size < 2 ^ 31) {offset : Int} {k : Nat}
    (hoff : -2 ^ 31 ≤ offset) (hneg : offset < 0) (hk : offset + k ≤ 0) (v : Nat) :
    Alike size var (ByteMem.store m (a + BitVec.ofInt 64 offset) k v) a := by
  refine ⟨h.room, fun j hj => ?_⟩
  obtain ⟨n, hn⟩ : ∃ n : Nat, (n : Int) = offset + 2 ^ 64 := ⟨(offset + 2 ^ 64).toNat, by omega⟩
  have haddr : BitVec.ofInt 64 offset = BitVec.ofNat 64 n := by
    apply BitVec.eq_of_toNat_eq
    rw [BitVec.toNat_ofInt, BitVec.toNat_ofNat]
    omega
  rw [haddr, ByteMem.bit_store_add _ _ _ _ _ (by omega) (by omega), if_neg (by omega), h.bits j hj]

variable {fl : Floats} {arch : BitField.Arch}

theorem ofInt_toNat {offset : Int} (h : 0 ≤ offset) : BitVec.ofInt 64 offset = BitVec.ofNat 64 offset.toNat := by
  obtain ⟨n, rfl⟩ := Int.eq_ofNat_of_zero_le h
  rw [Int.toNat_natCast, BitVec.ofInt_natCast]

theorem accessBytes_le (size : Nat) : BitField.accessBytes size ≤ 8 := by
  rw [BitField.accessBytes]
  repeat' split
  all_goals decide

/-- A scalar that is written with `write_scalar_bytes`. -/
theorem Alike.scalar (h : Alike size var m a) (hsize : size < 2 ^ 31) {offset : Int}
    (hin : -2 ^ 31 ≤ offset ∧ offset < 2 ^ 31) (bytes : Nat)
    (hwhole : 0 ≤ offset ∨ offset + BitField.accessBytes bytes ≤ 0) (v : BitVec 64) :
    Alike size (if offset < 0 then var else StaticField.writeScalarBytes var offset.toNat bytes v)
      (ByteMem.store m (a + BitVec.ofInt 64 offset) (BitField.accessBytes bytes) v.toNat) a := by
  by_cases hneg : offset < 0
  · rw [if_pos hneg]
    exact h.store_before hsize hin.1 hneg (by omega) v.toNat
  · rw [if_neg hneg, StaticField.writeScalarBytes, ofInt_toNat (by omega)]
    exact (h.ensure hsize _ _).store hsize (by omega) (accessBytes_le bytes) v.toNat

/-- A bit-field within its unit. -/
theorem Alike.bits' (h : Alike size var m a) (hsize : size < 2 ^ 31) {f : BitField.Field} {n : Nat}
    (hn : n < 2 ^ 31) (hpos : 0 < f.bw) (hbw : f.bw < 64) (hfits : f.bo + f.bw ≤ f.mem.ty.size * 8)
    (hls : f.mem.bfLoadSize = 0) (v : BitVec 64) {s : BitField.State} (hm : s.mem = m)
    (hra : s.reg .ra = a + BitVec.ofNat 64 n) (hr2 : s.reg .r2 = v) {code : List BitField.Ins}
    (hcode : BitField.assignCode arch f false = some code) :
    Alike size (StaticField.globalInitMember { f.mem with offset := n } v var) (BitField.run code s).mem a := by
  -- the field, with its offset in the object
  let g : BitField.Field := { f with mem := { f.mem with offset := n } }
  have hp : BitField.Placed f := .of_unit hpos hls hfits
  obtain ⟨hkeep, hbits⟩ := StaticField.bit_packField (f := g) hpos hbw hn v var
  refine ⟨h.room.trans (Nat.le_of_eq hkeep.symm), fun j hj => ?_⟩
  have hrun := StaticField.bit_assignCode hp hcode hn hra (congrArg (BitVec.setWidth _) hr2)
    (show j < 2 ^ 67 by omega)
  rw [hrun, hm, ← h.bits j hj]
  refine (hbits j (by omega)).trans (if_congr ?_ rfl rfl)
  have hmin : min (g.bo + g.bw) (8 * g.mem.ty.size) = f.bo + f.bw := by
    show min (f.bo + f.bw) (8 * f.mem.ty.size) = _
    omega
  rw [hmin]
  rfl

theorem Alike.put (h : Alike size var m a) (hsize : size < 2 ^ 31) {p : Put} (hp : p.Agreed)
    (hput : putStatic fl var p = some var') :
    ∃ m', putRun fl arch a m p = some m' ∧ Alike size var' m' a := by
  cases p with
  | scalar k offset val =>
      cases k with
      | bool =>
          obtain ⟨hin, hput⟩ := Option.ite_none_right_eq_some.mp hput
          rw [← Option.some_inj.mp hput]
          exact ⟨_, rfl, h.scalar hsize (of_decide_eq_true hin) 1 hp val⟩
      | int bytes =>
          obtain ⟨hin, hput⟩ := Option.ite_none_right_eq_some.mp hput
          rw [← Option.some_inj.mp hput]
          exact ⟨_, rfl, h.scalar hsize (of_decide_eq_true hin) bytes hp val⟩
      | ptr =>
          obtain ⟨hin, hput⟩ := Option.ite_none_right_eq_some.mp hput
          rw [← Option.some_inj.mp hput, hp.2]
          exact ⟨_, rfl, h.scalar hsize (of_decide_eq_true hin) 8 hp.1 val⟩
      | flo bytes =>
          obtain ⟨⟨hin, hnn⟩, hput⟩ := Option.ite_none_right_eq_some.mp hput
          have hin := of_decide_eq_true hin
          have hlt : 2 * val.toNat < 2 ^ 64 := by
            have hval : val.toNat < 2 ^ 63 := hp
            omega
          have hval : val.toInt = val.toNat := BitVec.toInt_eq_toNat_of_lt hlt
          rw [← Option.some_inj.mp hput, hval]
          refine ⟨_, rfl, ?_⟩
          rw [ofInt_toNat hnn]
          split
          · exact h.store hsize (by omega) (by decide) _
          · exact h.store hsize (by omega) (by decide) _
  | bits f offset val =>
      obtain ⟨⟨hin, hnn⟩, hput⟩ := Option.ite_none_right_eq_some.mp hput
      have hin := of_decide_eq_true hin
      obtain ⟨hpos, hbw, hfits, hls⟩ := hp
      obtain ⟨code, hcode⟩ := BitField.assignCode_some hbw arch false
      rw [← Option.some_inj.mp hput]
      refine ⟨_, by rw [putRun, hcode]; rfl, ?_⟩
      exact h.bits' hsize (by omega) hpos hbw hfits hls val rfl (by rw [← ofInt_toNat hnn]) rfl hcode

theorem image_eq (events : List Event) (var : StaticField.LVar) :
    image fl events var = (events.filterMap Event.put?).foldlM (putStatic fl) var := by
  induction events generalizing var with
  | nil => rfl
  | cons e events ih =>
      have hstep : image fl (e :: events) var = (match e with
        | .put p => putStatic fl var p
        | _ => some var).bind (image fl events) := rfl
      rw [hstep]
      cases e with
      | put p =>
          have hhead : (Event.put p :: events).filterMap Event.put? = p :: events.filterMap Event.put? := rfl
          rw [hhead, List.foldlM_cons]
          exact congrArg _ (funext ih)
      | designated _ _ => exact ih var
      | name => exact ih var
      | range _ _ _ _ => exact ih var

theorem execute_eq {puts : List Put} {code : List Assign} (h : code.map Assign.put? = puts.map some)
    (m : Mem) : execute fl arch a code m = puts.foldlM (putRun fl arch a) m := by
  induction code generalizing puts m with
  | nil =>
      cases puts with
      | nil => rfl
      | cons p puts => exact absurd h nofun
  | cons s code ih =>
      cases puts with
      | nil => exact absurd h nofun
      | cons p puts =>
          obtain ⟨hs, hrest⟩ := List.cons.inj h
          have hstep : execute fl arch a (s :: code) m =
              (s.put?.bind (putRun fl arch a m)).bind (execute fl arch a code) := rfl
          rw [hstep, hs, Option.bind_some, List.foldlM_cons]
          exact congrArg _ (funext fun m => ih hrest m)

theorem Alike.puts (h : Alike size var m a) (hsize : size < 2 ^ 31) {puts : List Put}
    (hagreed : ∀ p ∈ puts, p.Agreed) (hputs : puts.foldlM (putStatic fl) var = some var') :
    ∃ m', puts.foldlM (putRun fl arch a) m = some m' ∧ Alike size var' m' a := by
  induction puts generalizing var m with
  | nil =>
      obtain rfl := Option.some_inj.mp hputs
      exact ⟨m, rfl, h⟩
  | cons p puts ih =>
      obtain ⟨var1, hput, hputs⟩ := Option.bind_eq_some_iff.mp hputs
      obtain ⟨m1, hrun, h1⟩ := h.put hsize (hagreed p List.mem_cons_self) hput
      obtain ⟨m', hrest, h'⟩ := ih h1 (fun q hq => hagreed q (List.mem_cons_of_mem _ hq)) hputs
      refine ⟨m', ?_, h'⟩
      rw [List.foldlM_cons, hrun]
      exact hrest

/-! ## Agreement -/

/-- Both routines accept an initializer: what the one writes, the bytes that makes
of an object of zeros, and what the other assigns. -/
structure Accepted (fl : Floats) (ty : Ty) (toks : List Tok) (events : List Event) (var var' : StaticField.LVar)
    (code : List Assign) : Prop where
  global : ∃ n rest, globalInitOne n ty 0 toks = some (rest, events)
  image : image fl events var = some var'
  local' : ∃ n rest, localInitOne n .var ty toks = some (rest, code)
  zeroed : StaticField.Zeroed var.initData 0 ty.size
  room : var.initSize = ty.size

/-- The assignments run on an object of zeros leave the bytes of the static one. -/
def SameObject (fl : Floats) (arch : BitField.Arch) (ty : Ty) (var' : StaticField.LVar) (code : List Assign) : Prop :=
  ∀ m a, StaticField.Zeroed m a ty.size → ∃ m', execute fl arch a code m = some m' ∧
    ByteMem.SameBytes var'.initData 0 m' a ty.size

/-- `struct { int a[2]; int b; }` -/
def pairThenInt : Ty :=
  .record false 12 (.member (some "a") (.array (.scalar (.int 4)) 2) 0
    (.member (some "b") (.scalar (.int 4)) 8 .nil))

/-- No conversion is asked for where no member is floating. -/
def noFloats : Floats := ⟨fun _ => 0, fun _ => 0⟩

/-- The static object before its values. -/
def zeroVar (size : Nat) : StaticField.LVar := ⟨fun _ => 0, size⟩

end Rcc.Initializer

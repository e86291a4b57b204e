import Rcc.RegAlloc

/-!
# Spilling under nesting

`alloc_reg` and `free_reg` are called in pairs that nest. Nobody remembers how often a register has been spilled: there is one
slot and one bit for it. As the registers are handed out from below, only `%rsi` is ever spilled, and not before eight
are taken.

A ninth goes well: the eighth value is in its slot, and comes back with the ninth. A tenth takes the slot
for the ninth value. And when the ninth comes back, `free_reg` also unmarks `%rsi`, which the eighth value has again; so
whatever is allocated next is put on top of it.
-/

namespace Rcc.Spilling

/-! ## Nested calls -/

/-- Calls that nest: none, or `alloc_reg`, the calls inside, `free_reg`, and the calls behind. -/
inductive Nest where
  | done
  | alloc (inner next : Nest)
deriving DecidableEq, Repr

/-- How many registers are allocated. -/
def Nest.count : Nest → Nat
  | .done => 0
  | .alloc inner next => inner.count + next.count + 1

/-- A register that has been handed out, and the value that was put into it. -/
structure Live where
  reg : Reg
  value : BitVec 64

/-- `live` are the values allocated and not yet freed, the last one in front. -/
structure World where
  gen : GenState
  mach : Machine
  live : List Live
  /-- so many have been allocated -/
  count : Nat

/-- At the head of a function body. -/
def World.init (labelCount : Nat) (m : Machine) : World := ⟨.init labelCount, m, [], 0⟩

variable (values : Nat → BitVec 64)

/-- `alloc_reg` and what it prints; then the register gets its value. -/
def World.alloc (w : World) : Option World :=
  (allocReg w.gen).bind fun (r, code, gen) =>
    (exec code w.mach).map fun m =>
      ⟨gen, m.set r (values w.count), ⟨r, values w.count⟩ :: w.live, w.count + 1⟩

/-- `free_reg` of the register that was handed out last, and what it prints. -/
def World.free (w : World) : Option World :=
  w.live.head?.bind fun l =>
    (freeReg l.reg w.gen).bind fun (_, code, gen) =>
      (exec code w.mach).map fun m => { w with gen, mach := m, live := w.live.tail }

def Nest.play : Nest → World → Option World
  | .done, w => some w
  | .alloc inner next, w =>
      (w.alloc values).bind fun w => (inner.play w).bind fun w => w.free.bind next.play

/-! ## What is kept -/

def World.InReg (w : World) (l : Live) : Prop := w.mach.reg l.reg = l.value

def World.InSlot (w : World) (l : Live) : Prop :=
  w.gen.slots.slot l.reg ≠ 0 ∧ BitVec.ofNat 64 (w.mach.load (w.gen.slots.slot l.reg) 8) = l.value

/-- Every live value is in its register or in its slot, and no two of them are left to one slot. -/
structure World.Kept (w : World) : Prop where
  somewhere : ∀ l ∈ w.live, w.InReg l ∨ w.InSlot l
  alone : w.live.Pairwise fun a b => a.reg = b.reg → w.InReg a ∨ w.InReg b

/-- Nothing is lost: the values are kept all the time, and when a register is freed, the registers of the live values hold what
they held before it was allocated. -/
def Nest.Safe : Nest → World → Prop
  | .done, w => w.Kept
  | .alloc inner next, w => w.Kept ∧ ∃ w₁ w₂ w₃, w.alloc values = some w₁ ∧ inner.Safe w₁ ∧
      inner.play values w₁ = some w₂ ∧ w₂.free = some w₃ ∧
        (∀ l ∈ w.live, w₃.mach.reg l.reg = w.mach.reg l.reg) ∧ next.Safe w₃

/-- While eight values are live, at most one more is allocated. `depth` of them are live at the beginning. -/
def Nest.Fits : Nat → Nest → Prop
  | _, .done => True
  | depth, .alloc inner next =>
      (if depth = 7 then inner.count ≤ 1 else inner.Fits (depth + 1)) ∧ next.Fits depth

instance Nest.decidableFits : ∀ (depth : Nat) (nest : Nest), Decidable (nest.Fits depth)
  | _, .done => .isTrue trivial
  | depth, .alloc inner next =>
      have := decidableFits (depth + 1) inner
      have := decidableFits depth next
      inferInstanceAs (Decidable ((if depth = 7 then inner.count ≤ 1 else inner.Fits (depth + 1)) ∧ next.Fits depth))

variable {values}

theorem Nest.Safe.kept {nest : Nest} {w : World} (h : nest.Safe values w) : w.Kept := by
  cases nest with
  | done => exact h
  | alloc inner next => exact h.1

/-! ## Up to eight -/

/-- The lowest registers. -/
def below (depth : Nat) : Finset Reg := Finset.univ.filter fun r => r.val < depth

/-- So many registers are handed out, the lowest ones, and nothing is spilled. -/
structure Level (depth : Nat) (w : World) : Prop where
  used : w.gen.used = below depth
  spilled : w.gen.spilled = ∅
  regs : w.live.Pairwise fun a b => a.reg ≠ b.reg
  here : ∀ l ∈ w.live, l.reg.val < depth ∧ w.InReg l

theorem Level.kept {depth : Nat} {w : World} (h : Level depth w) : w.Kept where
  somewhere l hl := .inl (h.here l hl).2
  alone := h.regs.imp fun hne heq => absurd heq hne

theorem mem_below {depth : Nat} {r : Reg} : r ∈ below depth ↔ r.val < depth := by
  rw [below, Finset.mem_filter_univ]

theorem below_eight : below 8 = Finset.univ := by decide

theorem below_zero : below 0 = ∅ := by decide

theorem level_init (labelCount : Nat) (m : Machine) : Level 0 (World.init labelCount m) where
  used := below_zero.symm
  spilled := rfl
  regs := List.Pairwise.nil
  here _ hl := absurd hl List.not_mem_nil

/-- What an allocation without spilling leaves. -/
def World.taken (values : Nat → BitVec 64) (w : World) (i : Reg) : World :=
  ⟨w.gen.take i, w.mach.set i (values w.count), ⟨i, values w.count⟩ :: w.live, w.count + 1⟩

theorem alloc_taken {w : World} {i : Reg} (hi : i ∉ w.gen.used) (hlow : ∀ j < i, j ∈ w.gen.used) :
    w.alloc values = some (w.taken values i) := by
  rw [World.alloc, allocReg_free hi hlow]
  rfl

variable (values) in
/-- With fewer than eight, the next register is handed out. -/
theorem Level.alloc {depth : Nat} {w : World} (h : Level depth w) (hdepth : depth < 8) :
    w.alloc values = some (w.taken values ⟨depth, hdepth⟩) ∧
      Level (depth + 1) (w.taken values ⟨depth, hdepth⟩) := by
  have hne : ∀ l ∈ w.live, l.reg ≠ ⟨depth, hdepth⟩ := fun l hl heq => by
    have hlt := (h.here l hl).1
    rw [heq] at hlt
    exact absurd hlt (lt_irrefl depth)
  refine ⟨alloc_taken ?_ ?_, ?_, h.spilled, ?_, ?_⟩
  · rw [h.used, mem_below]
    exact lt_irrefl depth
  · intro j hj
    rw [h.used, mem_below]
    exact hj
  · show insert (⟨depth, hdepth⟩ : Reg) w.gen.used = _
    ext r
    rw [h.used, Finset.mem_insert, mem_below, mem_below, Fin.ext_iff]
    show r.val = depth ∨ r.val < depth ↔ r.val < depth + 1
    omega
  · exact List.Pairwise.cons (fun l hl => (hne l hl).symm) h.regs
  · intro l hl
    rcases List.mem_cons.mp hl with rfl | hl
    · exact ⟨Nat.lt_succ_self depth, Function.update_self _ _ _⟩
    · have hhere := h.here l hl
      exact ⟨Nat.lt_succ_of_lt hhere.1, (w.mach.set_reg_of_ne _ (hne l hl)).trans hhere.2⟩

/-- What freeing a register that is not spilled leaves. -/
def World.dropped (w : World) (i : Reg) : World := { w with gen := w.gen.drop i, live := w.live.tail }

theorem free_dropped {w : World} {l : Live} {live : List Live} (hlive : w.live = l :: live)
    (hspilled : l.reg ∉ w.gen.spilled) : w.free = some (w.dropped l.reg) := by
  rw [World.free, World.dropped, hlive, List.head?_cons, Option.bind_some, freeReg_unspilled hspilled]
  rfl

/-- Back from one more than `depth`: the last register is given back. -/
theorem Level.free {depth : Nat} {w w' : World} {l : Live} (h : Level (depth + 1) w') (hw : Level depth w)
    (hlive : w'.live = l :: w.live) (hreg : l.reg.val = depth) :
    w'.free = some (w'.dropped l.reg) ∧ Level depth (w'.dropped l.reg) := by
  have htail : (w'.dropped l.reg).live = w.live := congrArg List.tail hlive
  refine ⟨free_dropped hlive (h.spilled ▸ Finset.notMem_empty l.reg), ?_, ?_, ?_, ?_⟩
  · show w'.gen.used.erase l.reg = _
    ext r
    rw [h.used, Finset.mem_erase, mem_below, mem_below, ne_eq, Fin.ext_iff, hreg]
    omega
  · show w'.gen.spilled.erase l.reg = ∅
    rw [h.spilled]
    rfl
  · rw [htail]
    exact hw.regs
  · intro l' hl'
    rw [htail] at hl'
    exact ⟨(hw.here l' hl').1, (h.here l' (hlive ▸ List.mem_cons_of_mem l hl')).2⟩

/-! ## The ninth -/

/-- The value of `%rsi` goes to its slot, and the ninth value into `%rsi`. -/
def World.lent (values : Nat → BitVec 64) (w : World) : World :=
  ⟨w.gen.spill 7, (w.mach.store (w.gen.slots.offset 7).1 8 (w.mach.reg 7).toNat).set 7 (values w.count),
    ⟨7, values w.count⟩ :: w.live, w.count + 1⟩

variable (values) in
theorem alloc_lent {w : World} (h : w.gen.used = Finset.univ) : w.alloc values = some (w.lent values) := by
  rw [World.alloc, allocReg_full h]
  rfl

/-- What is in the slot then. -/
theorem lent_slot (w : World) :
    BitVec.ofNat 64 ((w.lent values).mach.load ((w.lent values).gen.slots.slot 7) 8) = w.mach.reg 7 := by
  have hslot : (w.lent values).gen.slots.slot 7 = (w.gen.slots.offset 7).1 := w.gen.slots.offset_slot 7
  have hload : (w.lent values).mach.load (w.gen.slots.offset 7).1 8 = (w.mach.reg 7).toNat % 256 ^ 8 :=
    Spans.load_store_same w.mach.mem _ 8 _
  rw [hslot, hload]
  refine BitVec.eq_of_toNat_eq ?_
  rw [BitVec.toNat_ofNat]
  have := (w.mach.reg 7).isLt
  omega

theorem lent_reg (w : World) : (w.lent values).mach.reg 7 = values w.count := by
  rw [World.lent, Machine.set_reg, Function.update_self]

theorem lent_reg_of_ne (w : World) {r : Reg} (h : r ≠ 7) : (w.lent values).mach.reg r = w.mach.reg r :=
  Machine.set_reg_of_ne _ _ h

/-- Freeing `%rsi` while its slot is in use. -/
def World.returned (w : World) : World :=
  { w with
    gen := w.gen.drop 7
    mach := w.mach.set 7 (BitVec.ofNat 64 (w.mach.load (w.gen.slots.slot 7) 8))
    live := w.live.tail }

theorem free_returned {w : World} {v : BitVec 64} {live : List Live} (hlive : w.live = ⟨7, v⟩ :: live)
    (hspilled : 7 ∈ w.gen.spilled) : w.free = some w.returned := by
  rw [World.free, World.returned, hlive, List.head?_cons, Option.bind_some, freeReg_spilled hspilled]
  rfl

/-- Lent and returned, every register is as before. -/
theorem returned_lent_reg (w : World) : (w.lent values).returned.mach.reg = w.mach.reg := by
  funext r
  by_cases hr : r = 7
  · rw [hr, World.returned, Machine.set_reg, Function.update_self]
    exact lent_slot w
  · rw [World.returned, Machine.set_reg_of_ne _ _ hr]
    exact lent_reg_of_ne w hr

/-- Eight values, the last of them in `%rsi`. -/
structure Full (w : World) (v : BitVec 64) (live : List Live) : Prop where
  level : Level 8 w
  live_eq : w.live = ⟨7, v⟩ :: live

theorem Full.reg {w : World} {v : BitVec 64} {live : List Live} (h : Full w v live) : w.mach.reg 7 = v :=
  (h.level.here ⟨7, v⟩ (h.live_eq ▸ List.mem_cons_self)).2

theorem Full.others {w : World} {v : BitVec 64} {live : List Live} (h : Full w v live) :
    ∀ l ∈ live, l.reg ≠ 7 ∧ w.InReg l := by
  intro l hl
  have hne := List.rel_of_pairwise_cons (h.live_eq ▸ h.level.regs) hl
  exact ⟨fun heq => hne heq.symm, (h.level.here l (h.live_eq ▸ List.mem_cons_of_mem _ hl)).2⟩

theorem Full.used {w : World} {v : BitVec 64} {live : List Live} (h : Full w v live) :
    w.gen.used = Finset.univ := h.level.used.trans below_eight

/-- With nine, all are kept. -/
theorem Full.kept_lent {w : World} {v : BitVec 64} {live : List Live} (h : Full w v live) :
    (w.lent values).Kept := by
  have hninth : (w.lent values).InReg ⟨7, values w.count⟩ := lent_reg w
  have hlive : (w.lent values).live = ⟨7, values w.count⟩ :: ⟨7, v⟩ :: live := congrArg (List.cons _) h.live_eq
  have hothers : ∀ l ∈ live, (w.lent values).InReg l := fun l hl =>
    (lent_reg_of_ne w (h.others l hl).1).trans (h.others l hl).2
  constructor
  · intro l hl
    rw [hlive] at hl
    rcases List.mem_cons.mp hl with rfl | hl
    · exact .inl hninth
    · rcases List.mem_cons.mp hl with rfl | hl
      · exact .inr ⟨w.gen.slots.slot_offset_self 7, (lent_slot w).trans h.reg⟩
      · exact .inl (hothers l hl)
  · rw [hlive]
    refine List.Pairwise.cons (fun l _ _ => .inl hninth) (List.Pairwise.cons (fun l hl _ => .inr (hothers l hl)) ?_)
    exact (List.pairwise_of_forall_mem_list fun a ha b _ _ => .inl (hothers a ha))

/-! ## Nothing is lost -/

/-- The same values are live as before, in the same registers. -/
structure Back (depth : Nat) (w w' : World) : Prop where
  level : Level depth w'
  live : w'.live = w.live
  regs : ∀ l ∈ w.live, w'.mach.reg l.reg = w.mach.reg l.reg

theorem Back.refl {depth : Nat} {w : World} (h : Level depth w) : Back depth w w := ⟨h, rfl, fun _ _ => rfl⟩

theorem Back.trans {depth : Nat} {w w' w'' : World} (h : Back depth w w') (h' : Back depth w' w'') :
    Back depth w w'' where
  level := h'.level
  live := h'.live.trans h.live
  regs l hl := (h'.regs l (h.live ▸ hl)).trans (h.regs l hl)

/-- An allocation, something that leaves all as it is, and the release. -/
theorem Back.free {depth : Nat} (hdepth : depth < 8) {w w' : World} (h : Level depth w)
    (hback : Back (depth + 1) (w.taken values ⟨depth, hdepth⟩) w') :
    w'.free = some (w'.dropped ⟨depth, hdepth⟩) ∧ Back depth w (w'.dropped ⟨depth, hdepth⟩) := by
  have hfree := hback.level.free h hback.live rfl
  refine ⟨hfree.1, hfree.2, congrArg List.tail hback.live, fun l hl => ?_⟩
  have hne : l.reg ≠ ⟨depth, hdepth⟩ := fun heq =>
    absurd (h.here l hl).1 (heq ▸ lt_irrefl depth)
  calc w'.mach.reg l.reg = (w.taken values ⟨depth, hdepth⟩).mach.reg l.reg :=
        hback.regs l (List.mem_cons_of_mem _ hl)
    _ = w.mach.reg l.reg := w.mach.set_reg_of_ne _ hne

variable (values) in
/-- The ninth comes and goes, and the eighth is back in its register; but `%rsi` is not marked any more. -/
theorem Full.ninth {w : World} {v : BitVec 64} {live : List Live} (h : Full w v live) :
    (Nest.alloc .done .done).play values w = some (w.lent values).returned ∧
      (Nest.alloc .done .done).Safe values w := by
  have hlent := alloc_lent values h.used
  have hfree : (w.lent values).free = some (w.lent values).returned :=
    free_returned rfl (Finset.mem_insert_self 7 _)
  refine ⟨?_, h.level.kept, _, _, _, hlent, h.kept_lent, rfl, hfree, fun l _ => ?_, ?_⟩
  · simp only [Nest.play, hlent, Option.bind_some, hfree]
  · rw [returned_lent_reg]
  · have here : ∀ l ∈ (w.lent values).returned.live, (w.lent values).returned.InReg l := fun l hl => by
      rw [World.InReg, returned_lent_reg]
      exact (h.level.here l hl).2
    exact ⟨fun l hl => .inl (here l hl), List.pairwise_of_forall_mem_list fun a ha _ _ _ => .inl (here a ha)⟩

variable (values) in
/-- Then the eighth is freed. -/
theorem Level.free_eighth {w : World} (h : Level 7 w) :
    let full := w.taken values (7 : Reg)
    (full.lent values).returned.free = some ((full.lent values).returned.dropped 7) ∧
      Back 7 w ((full.lent values).returned.dropped 7) := by
  intro full
  have hfull : Level 8 full := (h.alloc values (by decide)).2
  refine ⟨free_dropped (l := ⟨7, values w.count⟩) rfl (Finset.notMem_erase 7 _), ⟨?_, ?_, ?_, ?_⟩, rfl, fun l hl => ?_⟩
  · show ((insert 7 (full.gen.used.erase 7)).erase 7).erase 7 = below 7
    rw [Finset.erase_insert (Finset.notMem_erase 7 _), Finset.erase_idem, hfull.used]
    decide
  · show ((insert 7 full.gen.spilled).erase 7).erase 7 = ∅
    rw [hfull.spilled]
    rfl
  · exact h.regs
  · intro l hl
    refine ⟨(h.here l hl).1, ?_⟩
    show (full.lent values).returned.mach.reg l.reg = l.value
    rw [returned_lent_reg]
    exact (hfull.here l (List.mem_cons_of_mem _ hl)).2
  · show (full.lent values).returned.mach.reg l.reg = w.mach.reg l.reg
    rw [returned_lent_reg]
    refine w.mach.set_reg_of_ne _ fun heq => ?_
    have hlt := (h.here l hl).1
    rw [heq] at hlt
    exact absurd hlt (by decide)

theorem full_taken {w : World} (h : Level 7 w) : Full (w.taken values (7 : Reg)) (values w.count) w.live :=
  ⟨(h.alloc values (by decide)).2, rfl⟩

theorem count_le_one {nest : Nest} (h : nest.count ≤ 1) : nest = .done ∨ nest = .alloc .done .done := by
  cases nest with
  | done => exact .inl rfl
  | alloc inner next =>
      have hinner : inner.count = 0 := by
        rw [Nest.count] at h
        omega
      have hnext : next.count = 0 := by
        rw [Nest.count] at h
        omega
      cases inner with
      | done =>
          cases next with
          | done => exact .inr rfl
          | alloc a b =>
              rw [Nest.count] at hnext
              omega
      | alloc a b =>
          rw [Nest.count] at hinner
          omega

variable (values) in
/-- A pair of calls with what is inside, from one level. -/
theorem Level.pair {depth : Nat} {w : World} (h : Level depth w) (hdepth : depth ≤ 7) (inner : Nest)
    (hinner : depth < 7 → inner.Safe values (w.taken values ⟨depth, by omega⟩) ∧
      ∃ w₂, inner.play values (w.taken values ⟨depth, by omega⟩) = some w₂ ∧
        Back (depth + 1) (w.taken values ⟨depth, by omega⟩) w₂)
    (hlast : depth = 7 → inner.count ≤ 1) :
    inner.Safe values (w.taken values ⟨depth, by omega⟩) ∧
      ∃ w₂ w₃, inner.play values (w.taken values ⟨depth, by omega⟩) = some w₂ ∧ w₂.free = some w₃ ∧
        Back depth w w₃ := by
  have hlevel := (h.alloc values (by omega)).2
  rcases Nat.lt_or_eq_of_le hdepth with hlt | rfl
  · obtain ⟨hsafe, w₂, hplay, hback⟩ := hinner hlt
    obtain ⟨hfree, hback'⟩ := hback.free (by omega) h
    exact ⟨hsafe, w₂, _, hplay, hfree, hback'⟩
  · rcases count_le_one (hlast rfl) with rfl | rfl
    · obtain ⟨hfree, hback⟩ := (Back.refl hlevel).free (by omega) h
      exact ⟨hlevel.kept, _, _, rfl, hfree, hback⟩
    · obtain ⟨hplay, hsafe⟩ := (full_taken h).ninth values
      obtain ⟨hfree, hback⟩ := Level.free_eighth values h
      exact ⟨hsafe, _, _, hplay, hfree, hback⟩

/-- Calls that fit lose nothing, and leave the registers of the live values as they were. -/
theorem safe_of_fits {nest : Nest} {depth : Nat} {w : World} (hdepth : depth ≤ 7) (h : Level depth w)
    (hfits : nest.Fits depth) :
    nest.Safe values w ∧ ∃ w', nest.play values w = some w' ∧ Back depth w w' := by
  induction nest generalizing depth w with
  | done => exact ⟨h.kept, w, rfl, Back.refl h⟩
  | alloc inner next ihInner ihNext =>
      obtain ⟨hinner, hnext⟩ := hfits
      have halloc := h.alloc values (by omega)
      obtain ⟨hsafe, w₂, w₃, hplay, hfree, hback⟩ := h.pair values hdepth inner
        (fun hlt => by
          rw [if_neg (by omega)] at hinner
          exact ihInner hlt halloc.2 hinner)
        (fun heq => by
          rw [if_pos heq] at hinner
          exact hinner)
      obtain ⟨hsafe', w', hplay', hback'⟩ := ihNext hdepth hback.level hnext
      refine ⟨⟨h.kept, _, w₂, w₃, halloc.1, hsafe, hplay, hfree, hback.regs, hsafe'⟩, w', ?_,
        hback.trans hback'⟩
      simp only [Nest.play, halloc.1, Option.bind_some, hplay, hfree, hplay']

/-! ## What is lost -/

/-- Four values in turn: each differs from the three before it. -/
def inTurn (n : Nat) : BitVec 64 := BitVec.ofNat 64 (n % 4)

theorem inTurn_ne {n k : Nat} (hk : k = 1 ∨ k = 2 ∨ k = 3) : inTurn (n + k) ≠ inTurn n := by
  intro h
  have hnat := congrArg BitVec.toNat h
  simp only [inTurn, BitVec.toNat_ofNat] at hnat
  omega

/-- Another one on top: the slot is taken for the ninth value, and the eighth is nowhere. -/
theorem nothing_above {w : World} {v v' : BitVec 64} {live : List Live} (hused : w.gen.used = Finset.univ)
    (hlive : w.live = ⟨7, v'⟩ :: ⟨7, v⟩ :: live) (hreg : w.mach.reg 7 ≠ v) (hnew : values w.count ≠ v)
    {a : Nest} (hsafe : a.Safe values w) : a = .done := by
  cases a with
  | done => rfl
  | alloc b c =>
      obtain ⟨-, _, _, _, halloc, hinner, -⟩ := hsafe
      rw [alloc_lent values hused] at halloc
      cases halloc
      have hmem : (⟨7, v⟩ : Live) ∈ (w.lent values).live :=
        List.mem_cons_of_mem _ (hlive ▸ List.mem_cons_of_mem _ List.mem_cons_self)
      rcases hinner.kept.somewhere ⟨7, v⟩ hmem with hin | hin
      · exact absurd ((lent_reg w).symm.trans hin) hnew
      · exact absurd ((lent_slot w).symm.trans hin.2) hreg

theorem lent_used {w : World} (h : w.gen.used = Finset.univ) : (w.lent values).gen.used = Finset.univ := by
  show insert 7 (w.gen.used.erase 7) = Finset.univ
  rw [h, Finset.insert_erase (Finset.mem_univ 7)]

/-- While a ninth value is on top of the eighth nothing more can be allocated, and after it has been freed no other can
take its place. -/
theorem Full.inner_done {w : World} {n : Nat} {live : List Live} (h : Full w (inTurn n) live)
    (hcount : w.count = n + 1) {a b : Nest} (hsafe : (Nest.alloc a b).Safe inTurn w) : a = .done ∧ b = .done := by
  obtain ⟨-, w₁, w₂, w₃, halloc, ha, hplay, hfree, -, hb⟩ := hsafe
  rw [alloc_lent inTurn h.used] at halloc
  cases halloc
  have hlive : (w.lent inTurn).live = ⟨7, inTurn w.count⟩ :: ⟨7, inTurn n⟩ :: live := congrArg (List.cons _) h.live_eq
  have hdone : a = .done := by
    refine nothing_above (lent_used h.used) hlive ?_ ?_ ha
    · rw [lent_reg, hcount]
      exact inTurn_ne (.inl rfl)
    · show inTurn (w.count + 1) ≠ _
      rw [hcount]
      exact inTurn_ne (.inr (.inl rfl))
  subst hdone
  cases hplay
  rw [free_returned rfl (Finset.mem_insert_self 7 _)] at hfree
  cases hfree
  refine ⟨rfl, ?_⟩
  cases b with
  | done => rfl
  | alloc c d =>
      -- `%rsi` is not marked, so it is handed out without a spill
      obtain ⟨-, w₄, w₅, w₆, halloc, hc, hplay, hfree, hregs, -⟩ := hb
      have hfree7 : (7 : Reg) ∉ (w.lent inTurn).returned.gen.used := Finset.notMem_erase 7 _
      have hused : (w.lent inTurn).returned.gen.used = Finset.univ.erase 7 :=
        congrArg (Finset.erase · 7) (lent_used h.used)
      rw [alloc_taken hfree7 fun j hj =>
        hused ▸ Finset.mem_erase.mpr ⟨ne_of_lt hj, Finset.mem_univ j⟩] at halloc
      cases halloc
      have hnew : ((w.lent inTurn).returned.taken inTurn 7).mach.reg 7 = inTurn (w.count + 1) := by
        rw [World.taken, Machine.set_reg, Function.update_self]
        rfl
      have hc : c = .done := by
        refine nothing_above ?_ (congrArg (List.cons _) h.live_eq) ?_ ?_ hc
        · show insert 7 (w.lent inTurn).returned.gen.used = Finset.univ
          rw [hused, Finset.insert_erase (Finset.mem_univ 7)]
        · rw [hnew, hcount]
          exact inTurn_ne (.inr (.inl rfl))
        · show inTurn (w.count + 1 + 1) ≠ _
          rw [hcount]
          exact inTurn_ne (.inr (.inr rfl))
      subst hc
      cases hplay
      have hspilled : (7 : Reg) ∉ ((w.lent inTurn).returned.taken inTurn 7).gen.spilled := Finset.notMem_erase 7 _
      rw [free_dropped (l := ⟨7, _⟩) rfl hspilled] at hfree
      cases hfree
      have hmem : (⟨7, inTurn n⟩ : Live) ∈ w.live := h.live_eq ▸ List.mem_cons_self
      have hback := hregs ⟨7, inTurn n⟩ hmem
      have heq : inTurn (n + 2) = inTurn n := by
        calc inTurn (n + 2) = ((w.lent inTurn).returned.taken inTurn 7).mach.reg 7 := by rw [hnew, hcount]
          _ = (w.lent inTurn).returned.mach.reg 7 := hback
          _ = w.mach.reg 7 := congrFun (returned_lent_reg w) 7
          _ = inTurn n := h.reg
      exact absurd heq (inTurn_ne (.inr (.inl rfl)))

theorem fits_of_safe {nest : Nest} {depth : Nat} {w : World} (hdepth : depth ≤ 7) (h : Level depth w)
    (hsafe : nest.Safe inTurn w) : nest.Fits depth := by
  induction nest generalizing depth w with
  | done => exact trivial
  | alloc inner next ihInner ihNext =>
      obtain ⟨-, w₁, w₂, w₃, halloc, hin, hplay, hfree, -, hnext⟩ := hsafe
      have hlevel := h.alloc inTurn (by omega)
      rw [hlevel.1] at halloc
      cases halloc
      have hinner : if depth = 7 then inner.count ≤ 1 else inner.Fits (depth + 1) := by
        split
        · next heq =>
            subst heq
            cases inner with
            | done => exact Nat.zero_le 1
            | alloc a b =>
                obtain ⟨rfl, rfl⟩ := (full_taken h).inner_done rfl hin
                exact le_refl 1
        · exact ihInner (by omega) hlevel.2 hin
      refine ⟨hinner, ?_⟩
      obtain ⟨-, w₂', w₃', hplay', hfree', hback⟩ := h.pair inTurn hdepth inner
        (fun hlt => by
          rw [if_neg (by omega)] at hinner
          exact safe_of_fits hlt hlevel.2 hinner)
        (fun heq => by
          rw [if_pos heq] at hinner
          exact hinner)
      rw [hplay'] at hplay
      cases hplay
      rw [hfree'] at hfree
      cases hfree
      exact ihNext hdepth hback.level hnext

/-- **Spilling.** For nested calls of any depth from the head of a function body: whatever the values are, none is lost and every
register comes back, if and only if while eight values are live at most one more is allocated. -/
theorem safe_iff (nest : Nest) (labelCount : Nat) :
    (∀ values m, nest.Safe values (World.init labelCount m)) ↔ nest.Fits 0 := by
  constructor
  · intro h
    exact fits_of_safe (Nat.zero_le 7) (level_init labelCount ⟨fun _ => 0, 0, none, fun _ => 0⟩) (h inTurn _)
  · intro h values m
    exact (safe_of_fits (Nat.zero_le 7) (level_init labelCount m) h).1

/-- So many inside each other. -/
def nested : Nat → Nest
  | 0 => .done
  | n + 1 => .alloc (nested n) .done

/-- Ten inside each other lose the eighth value. -/
theorem nested_ten_not_safe : ¬ ∀ values m, (nested 10).Safe values (World.init 0 m) := by
  intro h
  have hfits := fits_of_safe (Nat.zero_le 7) (level_init 0 ⟨fun _ => 0, 0, none, fun _ => 0⟩) (h inTurn _)
  exact absurd hfits (by decide)

end Rcc.Spilling

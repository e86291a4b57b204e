import Mathlib
import Rcc.ArgEvaluation

/-!
# Moving the arguments
-/

namespace Rcc.CallArgs

open World

variable {values : Nat → BitVec 64}

/-! ## One move -/

theorem ArgType.Same.refl (t : ArgType) (v : BitVec 64) : t.Same v v := by
  cases t <;> rfl

/-- The low bits are what the argument's type asks for. -/
theorem same_moved (t : ArgType) (v : BitVec 64) : t.Same (t.moved v) v := by
  cases t with
  | flonum => rfl
  | integer size isUnsigned =>
      show (ArgType.moved (.integer size isUnsigned) v).setWidth size.bits = v.setWidth size.bits
      refine BitVec.eq_of_getLsbD_eq fun i hi => ?_
      cases size <;> cases isUnsigned <;> simp only [Size.bits] at hi <;>
        simp [ArgType.moved, extendLow, Low.bits, Size.bits, BitVec.getLsbD_setWidth, BitVec.getLsbD_signExtend] <;> grind

/-- What has any of its low eight bits set. -/
def LowByte (v : BitVec 64) : Prop := v.setWidth 8 ≠ 0

instance : DecidablePred LowByte := fun v => inferInstanceAs (Decidable (v.setWidth 8 ≠ 0))

theorem Size.bits_ge (size : Size) : 8 ≤ size.bits := by cases size <;> decide

theorem low_of_same {t : ArgType} {v v' : BitVec 64} (h : t.Same v v') : v.setWidth 8 = v'.setWidth 8 := by
  cases t with
  | flonum => exact congrArg _ h
  | integer size isUnsigned =>
      have hlow := congrArg (BitVec.setWidth 8) (show v.setWidth size.bits = v'.setWidth size.bits from h)
      rwa [BitVec.setWidth_setWidth_of_le _ size.bits_ge, BitVec.setWidth_setWidth_of_le _ size.bits_ge] at hlow

theorem LowByte.moved {v : BitVec 64} (t : ArgType) (h : LowByte v) : LowByte (t.moved v) := by
  rw [LowByte, low_of_same (same_moved t v)]
  exact h

namespace Cpu

variable {c : Cpu} {x : Item} {d : ArgReg} {q : Reg}

/-- What is moved. -/
def value (c : Cpu) (x : Item) : BitVec 64 := x.slot.arg.type.moved (c.world.mach.reg x.source)

/-- What `move` leaves. -/
def moved (c : Cpu) (x : Item) : Cpu :=
  { c.write x.slot.reg (c.value x) with world := (c.write x.slot.reg (c.value x)).world.freed x.source }

theorem move_eq (c : Cpu) (x : Item) : c.move x = some (c.moved x) := by
  simp only [move, free_eq, Option.map_some]
  rfl

theorem read_rsi (c : Cpu) : c.read (.gp 1) = c.world.rsi := rfl

/-- A register that is not written keeps its value. -/
theorem write_world (h : d ≠ .gp 1) (v : BitVec 64) : (c.write d v).world = c.world := by
  cases d with
  | xmm i => rfl
  | gp i =>
      have hi : i ≠ 1 := fun heq => h (heq ▸ rfl)
      simp [write, hi]

theorem write_rsi (c : Cpu) (v : BitVec 64) : (c.write (.gp 1) v).world = c.world.put 7 v := rfl

theorem read_write_of_ne {e : ArgReg} (hne : e ≠ d) (v : BitVec 64) : (c.write d v).read e = c.read e := by
  cases d with
  | xmm i =>
      cases e with
      | gp j => rfl
      | xmm j => exact Function.update_of_ne (fun heq => hne (congrArg ArgReg.xmm heq)) _ _
  | gp i =>
      cases e with
      | xmm j => by_cases hi : i = 1 <;> simp [write, read, hi]
      | gp j =>
          have hji : j ≠ i := fun heq => hne (heq ▸ rfl)
          by_cases hi : i = 1
          · have hj : j ≠ 1 := fun heq => hji (heq.trans hi.symm)
            simp [write, read, hi, hj]
          · simp [write, read, hi, Function.update_of_ne hji]

theorem read_write_self (hd : d ≠ .gp 1) (v : BitVec 64) : (c.write d v).read d = v := by
  cases d with
  | xmm i => exact Function.update_self _ _ _
  | gp i =>
      have hi : i ≠ 1 := fun heq => hd (heq ▸ rfl)
      simp [write, read, hi]

/-- Freeing a register changes no argument register but `%rsi`. -/
theorem read_world {w : World} (h : d ≠ .gp 1) : ({ c with world := w } : Cpu).read d = c.read d := by
  cases d with
  | xmm i => rfl
  | gp i =>
      have hi : i ≠ 1 := fun heq => h (heq ▸ rfl)
      simp [read, hi]

theorem read_moved_of_ne (h1 : d ≠ .gp 1) (hne : d ≠ x.slot.reg) : (c.moved x).read d = c.read d :=
  (read_world h1).trans (read_write_of_ne hne _)

theorem read_moved_self (h1 : x.slot.reg ≠ .gp 1) : (c.moved x).read x.slot.reg = c.value x :=
  (read_world h1).trans (read_write_self h1 _)

theorem moved_spilled : (c.moved x).world.Spilled ↔ 7 ≠ x.source ∧ c.world.Spilled := by
  by_cases h1 : x.slot.reg = .gp 1
  · rw [moved, h1]
    exact freed_spilled
  · rw [moved, write_world h1]
    exact freed_spilled

theorem moved_saved (r : Reg) : (c.moved x).world.saved r = c.world.saved r := by
  by_cases h1 : x.slot.reg = .gp 1
  · rw [moved, h1]
    exact freed_saved r
  · rw [moved, write_world h1]
    exact freed_saved r

/-- The other registers that are handed out keep their values. -/
theorem moved_reg (h7 : q ≠ 7) (hq : q ≠ x.source) : (c.moved x).world.mach.reg q = c.world.mach.reg q := by
  have hfreed : (c.moved x).world.mach.reg q = (c.write x.slot.reg (c.value x)).world.mach.reg q := freed_reg_of_ne hq
  rw [hfreed]
  by_cases h1 : x.slot.reg = .gp 1
  · rw [h1, write_rsi, put_reg, Function.update_of_ne h7]
  · rw [write_world h1]

/-- A move from elsewhere leaves `%rsi`, unless it goes there. -/
theorem moved_rsi_low (hsource : x.source ≠ 7) (h1 : x.slot.reg ≠ .gp 1) : (c.moved x).world.rsi = c.world.rsi := by
  rw [moved, write_world h1, World.rsi, freed_reg_of_ne (Ne.symm hsource)]
  rfl

theorem moved_rsi_written (hsource : x.source ≠ 7 ∨ ¬ c.world.Spilled) (h1 : x.slot.reg = .gp 1) :
    (c.moved x).world.rsi = c.value x := by
  rw [moved, h1, write_rsi]
  rcases hsource with hsource | hspilled
  · rw [World.rsi, freed_reg_of_ne (Ne.symm hsource)]
    simp
  · by_cases h7 : x.source = 7
    · rw [h7, freed_rsi_of_not (by simpa using hspilled), World.rsi]
      simp
    · rw [World.rsi, freed_reg_of_ne (Ne.symm h7)]
      simp

/-- When `%rsi` is freed its older value comes back. -/
theorem moved_rsi_back (hsource : x.source = 7) (hspilled : c.world.Spilled) : (c.moved x).world.rsi = c.world.saved 7 := by
  by_cases h1 : x.slot.reg = .gp 1
  · rw [moved, h1, write_rsi, hsource, freed_rsi_of_spilled (by simpa using hspilled), put_saved]
  · rw [moved, write_world h1, hsource, freed_rsi_of_spilled hspilled]

theorem moved_rsi_kept (hsource : x.source = 7) (hspilled : ¬ c.world.Spilled) (h1 : x.slot.reg ≠ .gp 1) :
    (c.moved x).world.rsi = c.world.rsi := by
  rw [moved, write_world h1, hsource, freed_rsi_of_not hspilled]

end Cpu

/-! ## All moves -/

/-- The moves of a list. -/
def moveAll (c : Cpu) (items : List Item) : Cpu := items.foldl Cpu.moved c

theorem movePass_eq (first : Bool) (items : List Item) (c : Cpu) :
    movePass first items c = some (moveAll c (items.filter fun x => x.rsiSrc = first)) := by
  induction items generalizing c with
  | nil => rfl
  | cons x items ih =>
      rw [movePass, List.filter_cons]
      by_cases h : x.rsiSrc = first
      · rw [if_pos h, Cpu.move_eq, Option.bind_some, ih, if_pos (by simpa using h)]
        rfl
      · rw [if_neg h, ih, if_neg (by simpa using h)]

/-- In two passes. -/
def passes (items : List Item) : List Item := (items.filter fun x => x.rsiSrc = true) ++ items.filter fun x => x.rsiSrc = false

theorem movePasses_eq (items : List Item) (c : Cpu) :
    (movePass true items c).bind (movePass false items) = some (moveAll c (passes items)) := by
  rw [movePass_eq, Option.bind_some, movePass_eq, passes, moveAll, moveAll, moveAll, List.foldl_append]

variable {c : Cpu} {L : List Item}

theorem moveAll_read {d : ArgReg} (h1 : d ≠ .gp 1) (hd : ∀ x ∈ L, x.slot.reg ≠ d) : (moveAll c L).read d = c.read d := by
  induction L generalizing c with
  | nil => rfl
  | cons x L ih =>
      rw [List.forall_mem_cons] at hd
      exact (ih hd.2).trans (Cpu.read_moved_of_ne h1 (Ne.symm hd.1))

theorem moveAll_rsi (h : ∀ x ∈ L, x.source ≠ 7 ∧ x.slot.reg ≠ .gp 1) : (moveAll c L).world.rsi = c.world.rsi := by
  induction L generalizing c with
  | nil => rfl
  | cons x L ih =>
      rw [List.forall_mem_cons] at h
      exact (ih h.2).trans (Cpu.moved_rsi_low h.1.1 h.1.2)

theorem moveAll_reg {q : Reg} (h7 : q ≠ 7) (h : ∀ x ∈ L, x.source ≠ q) : (moveAll c L).world.mach.reg q = c.world.mach.reg q := by
  induction L generalizing c with
  | nil => rfl
  | cons x L ih =>
      rw [List.forall_mem_cons] at h
      exact (ih h.2).trans (Cpu.moved_reg h7 (Ne.symm h.1))

theorem moveAll_spilled (h : ∀ x ∈ L, x.source ≠ 7) : (moveAll c L).world.Spilled ↔ c.world.Spilled := by
  induction L generalizing c with
  | nil => rfl
  | cons x L ih =>
      rw [List.forall_mem_cons] at h
      exact (ih h.2).trans (Cpu.moved_spilled.trans (and_iff_right (Ne.symm h.1)))

theorem moveAll_saved (r : Reg) : (moveAll c L).world.saved r = c.world.saved r := by
  induction L generalizing c with
  | nil => rfl
  | cons x L ih => exact ih.trans (Cpu.moved_saved r)

/-- No two arguments go to one register. -/
def Apart (L : List Item) : Prop := L.Pairwise fun x y => x.slot.reg ≠ y.slot.reg

/-- What has been moved stays, unless `%rsi` is changed behind it. -/
theorem moveAll_kept {x : Item} (hapart : Apart (x :: L)) (h1 : x.slot.reg = .gp 1 → ∀ y ∈ L, y.source ≠ 7) :
    (moveAll (c.moved x) L).read x.slot.reg = (c.moved x).read x.slot.reg := by
  have hne : ∀ y ∈ L, y.slot.reg ≠ x.slot.reg := fun y hy => Ne.symm (List.rel_of_pairwise_cons hapart hy)
  by_cases hx : x.slot.reg = .gp 1
  · rw [hx, Cpu.read_rsi, Cpu.read_rsi]
    exact moveAll_rsi fun y hy => ⟨h1 hx y hy, hx ▸ hne y hy⟩
  · exact moveAll_read hx hne

/-- Moves in which nothing is read after it has been changed. -/
theorem moveAll_right (hapart : Apart L) (hsources : L.Pairwise fun x y => x.source ≠ y.source)
    (hrsi : L.Pairwise fun x y => y.source = 7 → x.slot.reg ≠ .gp 1)
    (hspilled : ∀ x ∈ L, x.slot.reg = .gp 1 → x.source = 7 → ¬ c.world.Spilled)
    (hready : ∀ x ∈ L, c.world.mach.reg x.source = values x.slot.index) :
    ∀ x ∈ L, x.slot.arg.type.Same ((moveAll c L).read x.slot.reg) (values x.slot.index) := by
  induction L generalizing c with
  | nil => simp
  | cons x L ih =>
      rw [List.forall_mem_cons] at hspilled hready ⊢
      have hvalue : c.value x = x.slot.arg.type.moved (values x.slot.index) := congrArg _ hready.1
      constructor
      · have hkept : (moveAll (c.moved x) L).read x.slot.reg = (c.moved x).read x.slot.reg :=
          moveAll_kept hapart fun h1 y hy h7 => List.rel_of_pairwise_cons hrsi hy h7 h1
        have hself : (c.moved x).read x.slot.reg = c.value x := by
          by_cases h1 : x.slot.reg = .gp 1
          · rw [h1, Cpu.read_rsi]
            refine Cpu.moved_rsi_written ?_ h1
            by_cases h7 : x.source = 7
            · exact .inr (hspilled.1 h1 h7)
            · exact .inl h7
          · exact Cpu.read_moved_self h1
        show x.slot.arg.type.Same ((moveAll (c.moved x) L).read x.slot.reg) _
        rw [hkept, hself, hvalue]
        exact same_moved _ _
      · refine ih hapart.of_cons hsources.of_cons hrsi.of_cons (fun y hy h1 h7 hs => ?_) fun y hy => ?_
        · exact hspilled.2 y hy h1 h7 (Cpu.moved_spilled.mp hs).2
        · have hne := List.rel_of_pairwise_cons hsources hy
          by_cases h7 : y.source = 7
          · have hx1 := List.rel_of_pairwise_cons hrsi hy h7
            have hkept := Cpu.moved_rsi_low (c := c) (fun h => hne (h.trans h7.symm)) hx1
            rw [World.rsi, World.rsi, ← h7] at hkept
            exact hkept.trans (hready.2 y hy)
          · exact (Cpu.moved_reg h7 (Ne.symm hne)).trans (hready.2 y hy)

/-- The registers below `%rsi` have one argument each. -/
def LowsApart (L : List Item) : Prop := L.Pairwise fun x y => x.source ≠ 7 → x.source ≠ y.source

/-- Every value that is going to be moved has a bit in its low byte, the one in `%rsi` too, whichever it is. -/
structure Tainted (L : List Item) (c : Cpu) : Prop where
  lows : ∀ x ∈ L, x.source ≠ 7 → LowByte (c.world.mach.reg x.source)
  rsi : LowByte c.world.rsi

theorem Tainted.value {x : Item} (h : Tainted (x :: L) c) : LowByte (c.value x) := by
  refine LowByte.moved _ ?_
  by_cases h7 : x.source = 7
  · rw [h7]
    exact h.rsi
  · exact h.lows x List.mem_cons_self h7

theorem lows_moved {x : Item} (hlows : LowsApart (x :: L)) (h : ∀ y ∈ x :: L, y.source ≠ 7 → LowByte (c.world.mach.reg y.source)) :
    ∀ y ∈ L, y.source ≠ 7 → LowByte ((c.moved x).world.mach.reg y.source) := by
  intro y hy h7
  have hne : y.source ≠ x.source := fun heq =>
    List.rel_of_pairwise_cons hlows hy (heq ▸ h7) heq.symm
  rw [Cpu.moved_reg h7 hne]
  exact h y (List.mem_cons_of_mem _ hy) h7

/-- Up to the first argument in `%rsi`. -/
theorem Tainted.low {x : Item} (hlows : LowsApart (x :: L)) (h : Tainted (x :: L) c) (h7 : x.source ≠ 7) : Tainted L (c.moved x) := by
  refine ⟨lows_moved hlows h.lows, ?_⟩
  by_cases h1 : x.slot.reg = .gp 1
  · rw [Cpu.moved_rsi_written (.inl h7) h1]
    exact h.value
  · rw [Cpu.moved_rsi_low h7 h1]
    exact h.rsi

/-- With the slot as well, all the way. -/
theorem Tainted.moved {x : Item} (hlows : LowsApart (x :: L)) (h : Tainted (x :: L) c)
    (hsaved : c.world.Spilled → LowByte (c.world.saved 7)) : Tainted L (c.moved x) := by
  by_cases h7 : x.source = 7
  · refine ⟨lows_moved hlows h.lows, ?_⟩
    by_cases hspilled : c.world.Spilled
    · rw [Cpu.moved_rsi_back h7 hspilled]
      exact hsaved hspilled
    · by_cases h1 : x.slot.reg = .gp 1
      · rw [Cpu.moved_rsi_written (.inr hspilled) h1]
        exact h.value
      · rw [Cpu.moved_rsi_kept h7 hspilled h1]
        exact h.rsi
  · exact h.low hlows h7

theorem moveAll_tainted (hapart : Apart L) (hlows : LowsApart L) (h : Tainted L c)
    (hsaved : c.world.Spilled → LowByte (c.world.saved 7)) :
    (∀ x ∈ L, LowByte ((moveAll c L).read x.slot.reg)) ∧ LowByte (moveAll c L).world.rsi := by
  induction L generalizing c with
  | nil => exact ⟨by simp, h.rsi⟩
  | cons x L ih =>
      have hsaved' : (c.moved x).world.Spilled → LowByte ((c.moved x).world.saved 7) := by
        intro hspilled
        rw [Cpu.moved_saved]
        exact hsaved (Cpu.moved_spilled.mp hspilled).2
      obtain ⟨hrest, hrsi⟩ := ih hapart.of_cons hlows.of_cons (h.moved hlows hsaved) hsaved'
      refine ⟨?_, hrsi⟩
      rw [List.forall_mem_cons]
      refine ⟨?_, hrest⟩
      show LowByte ((moveAll (c.moved x) L).read x.slot.reg)
      by_cases h1 : x.slot.reg = .gp 1
      · rw [h1, Cpu.read_rsi]
        exact hrsi
      · have hne : ∀ y ∈ L, y.slot.reg ≠ x.slot.reg := fun y hy => Ne.symm (List.rel_of_pairwise_cons hapart hy)
        rw [moveAll_read h1 hne, Cpu.read_moved_self h1]
        exact h.value

theorem moveAll_append (c : Cpu) (A B : List Item) : moveAll c (A ++ B) = moveAll (moveAll c A) B := List.foldl_append

/-- An argument that is not in `%rsi` any more when it is moved. -/
theorem moveAll_wrong {x : Item} {A B : List Item} (hapart : Apart (A ++ x :: B)) (hlows : LowsApart (A ++ x :: B))
    (hA : ∀ y ∈ A, y.source ≠ 7) (h : Tainted (A ++ x :: B) c) (h1 : x.slot.reg ≠ .gp 1) :
    LowByte ((moveAll c (A ++ x :: B)).read x.slot.reg) := by
  induction A generalizing c with
  | nil =>
      have hne : ∀ y ∈ B, y.slot.reg ≠ x.slot.reg := fun y hy => Ne.symm (List.rel_of_pairwise_cons hapart hy)
      show LowByte ((moveAll (c.moved x) B).read x.slot.reg)
      rw [moveAll_read h1 hne, Cpu.read_moved_self h1]
      exact h.value
  | cons y A ih =>
      rw [List.forall_mem_cons] at hA
      exact ih hapart.of_cons hlows.of_cons hA.2 (h.low hlows hA.1)

/-- A move to `%rsi`, before those from there. -/
theorem tainted_behind {y : Item} {A B : List Item} (hlows : LowsApart (A ++ y :: B)) (hA : ∀ x ∈ A, x.source ≠ 7) (hy : y.source ≠ 7)
    (h1 : y.slot.reg = .gp 1) (h : ∀ x ∈ A ++ y :: B, x.source ≠ 7 → LowByte (c.world.mach.reg x.source)) :
    Tainted B (moveAll c (A ++ [y])) := by
  induction A generalizing c with
  | nil =>
      refine ⟨lows_moved hlows h, ?_⟩
      show LowByte (c.moved y).world.rsi
      rw [Cpu.moved_rsi_written (.inl hy) h1]
      exact LowByte.moved _ (h y List.mem_cons_self hy)
  | cons x A ih =>
      rw [List.forall_mem_cons] at hA
      exact ih hlows.of_cons hA.2 (lows_moved hlows h)

/-- An argument that is moved from `%rsi` as it is now. -/
theorem moveAll_now {x : Item} {A B : List Item} (hapart : Apart (x :: B)) (hA : ∀ y ∈ A, y.source ≠ 7 ∧ y.slot.reg ≠ .gp 1)
    (hx : x.source = 7) (h1 : x.slot.reg ≠ .gp 1) : (moveAll c (A ++ x :: B)).read x.slot.reg = x.slot.arg.type.moved c.world.rsi := by
  have hne : ∀ y ∈ B, y.slot.reg ≠ x.slot.reg := fun y hy => Ne.symm (List.rel_of_pairwise_cons hapart hy)
  rw [moveAll_append]
  show (moveAll ((moveAll c A).moved x) B).read x.slot.reg = _
  rw [moveAll_read h1 hne, Cpu.read_moved_self h1, Cpu.value, hx]
  exact congrArg _ (moveAll_rsi hA)

/-- An argument in `%rsi`, when an argument before it goes there. -/
theorem moveAll_overwritten {x y : Item} {A : List Item} (hapart : Apart (A ++ [x])) (hlows : LowsApart (A ++ [x]))
    (hA : ∀ z ∈ A, z.source ≠ 7 ∧ LowByte (c.world.mach.reg z.source)) (hy : y ∈ A) (h1 : y.slot.reg = .gp 1) (hx : x.source = 7) :
    LowByte ((moveAll c (A ++ [x])).read x.slot.reg) := by
  obtain ⟨A, B, rfl⟩ := List.append_of_mem hy
  have hsplit : (A ++ y :: B) ++ [x] = (A ++ [y]) ++ (B ++ [x]) := by simp
  have hne : y.slot.reg ≠ x.slot.reg := (List.pairwise_append.mp hapart).2.2 y hy x List.mem_cons_self
  have hB : ∀ z ∈ B, z.source ≠ 7 := fun z hz => (hA z (by simp [hz])).1
  have htainted : Tainted (B ++ [x]) (moveAll c (A ++ [y])) := by
    refine tainted_behind (A := A) (y := y) ?_ (fun z hz => (hA z (by simp [hz])).1) (hA y hy).1 h1 fun z hz h7 => ?_
    · simpa using hlows
    · rcases List.mem_append.mp (show z ∈ (A ++ y :: B) ++ [x] by simpa using hz) with hz | hz
      · exact (hA z hz).2
      · exact absurd (List.mem_singleton.mp hz ▸ hx) h7
  rw [hsplit] at hapart hlows ⊢
  rw [moveAll_append]
  exact moveAll_wrong (List.pairwise_append.mp hapart).2.1 (List.pairwise_append.mp hlows).2.1 hB htainted fun heq => hne (h1.trans heq.symm)

/-! ### In two passes -/

theorem passes_perm (items : List Item) : (passes items).Perm items := by
  have hnot : (fun x : Item => decide (x.rsiSrc = false)) = fun x => !(decide (x.rsiSrc = true)) := by
    funext x
    cases x.rsiSrc <;> rfl
  rw [passes, hnot]
  exact List.filter_append_perm _ items

variable {lows sevens : List Item}

/-- What is in registers of its own waits for the second pass. -/
theorem passes_append (hlow : ∀ x ∈ lows, x.source ≠ 7) :
    passes (lows ++ sevens) = sevens.filter (fun x => x.rsiSrc = true) ++ (lows ++ sevens.filter fun x => x.rsiSrc = false) := by
  have hsrc : ∀ x ∈ lows, x.rsiSrc = false := fun x hx => by simp [Item.rsiSrc, hlow x hx]
  have hfirst : lows.filter (fun x => x.rsiSrc = true) = [] := by
    rw [List.filter_eq_nil_iff]
    intro x hx
    simp [hsrc x hx]
  have hsecond : lows.filter (fun x => x.rsiSrc = false) = lows := by
    rw [List.filter_eq_self]
    intro x hx
    simp [hsrc x hx]
  rw [passes, List.filter_append, List.filter_append, hfirst, hsecond, List.nil_append]

theorem lowsApart_passes (hlow : ∀ x ∈ lows, x.source ≠ 7) (hnodup : (lows.map Item.source).Nodup) (hseven : ∀ x ∈ sevens, x.source = 7) :
    LowsApart (passes (lows ++ sevens)) := by
  have hrest : ∀ first, ∀ x ∈ sevens.filter fun x => x.rsiSrc = first, x.source = 7 := fun _ x hx => hseven x (List.mem_filter.mp hx).1
  rw [passes_append hlow, LowsApart, List.pairwise_append, List.pairwise_append]
  refine ⟨List.pairwise_of_forall_mem_list fun x hx _ _ h => absurd (hrest true x hx) h, ⟨?_, ?_, ?_⟩,
    fun x hx _ _ h => absurd (hrest true x hx) h⟩
  · exact (List.pairwise_map.mp hnodup).imp fun {a b} h (_ : a.source ≠ 7) => h
  · exact List.pairwise_of_forall_mem_list fun x hx _ _ h => absurd (hrest false x hx) h
  · exact fun x _ y hy h heq => h (heq.trans (hrest false y hy))

theorem apart_passes {items : List Item} (h : Apart items) : Apart (passes items) :=
  (passes_perm items).symm.pairwise h fun h => Ne.symm h

/-! ## Where the arguments belong -/

/-- The register of an argument, from the counters in front of the arguments before it. -/
def regFrom (gp fp : Nat) (before : List Arg) (a : Arg) : Option ArgReg :=
  if a.type.isFlonum then
    if h : fp + before.countP (fun a => a.type.isFlonum) < 8 then some (.xmm ⟨_, h⟩) else none
  else
    if h : gp + before.countP (fun a => !a.type.isFlonum) < 6 then some (.gp ⟨_, h⟩) else none

theorem abiReg_eq (hidden : Bool) (before : List Arg) (a : Arg) : abiReg hidden before a = regFrom hidden.toNat 0 before a := by
  simp [abiReg, regFrom]

theorem regFrom_cons_flonum {gp fp : Nat} {b : Arg} (hb : b.type.isFlonum = true) (before : List Arg) (a : Arg) :
    regFrom gp fp (b :: before) a = regFrom gp (fp + 1) before a := by
  simp [regFrom, hb, Nat.add_assoc, Nat.add_comm 1]

theorem regFrom_cons_integer {gp fp : Nat} {b : Arg} (hb : b.type.isFlonum = false) (before : List Arg) (a : Arg) :
    regFrom gp fp (b :: before) a = regFrom (gp + 1) fp before a := by
  simp [regFrom, hb, Nat.add_assoc, Nat.add_comm 1]

/-- A counter that has come to its end can as well go on. -/
theorem regFrom_full_flonum {gp fp : Nat} (hfp : ¬ fp < 8) (before : List Arg) (a : Arg) :
    regFrom gp (fp + 1) before a = regFrom gp fp before a := by
  unfold regFrom
  split
  · rw [dif_neg (by omega), dif_neg (by omega)]
  · rfl

theorem regFrom_full_integer {gp fp : Nat} (hgp : ¬ gp < 6) (before : List Arg) (a : Arg) :
    regFrom (gp + 1) fp before a = regFrom gp fp before a := by
  unfold regFrom
  split
  · rfl
  · rw [dif_neg (by omega), dif_neg (by omega)]

/-- The position of an argument: the first, or one behind it. -/
theorem exists_position {a b : Arg} {rest : List Arg} {P : List Arg → Prop} :
    (∃ before after, b :: rest = before ++ a :: after ∧ P before) ↔
      (b = a ∧ P []) ∨ ∃ before after, rest = before ++ a :: after ∧ P (b :: before) := by
  constructor
  · rintro ⟨before, after, heq, hP⟩
    cases before with
    | nil => exact .inl ⟨(List.cons.inj heq).1, hP⟩
    | cons c before =>
        obtain ⟨rfl, hrest⟩ := List.cons.inj heq
        exact .inr ⟨before, after, hrest, hP⟩
  · rintro (⟨rfl, hP⟩ | ⟨before, after, rfl, hP⟩)
    · exact ⟨[], rest, rfl, hP⟩
    · exact ⟨b :: before, after, rfl, hP⟩

/-- An argument has the register that the counters say, and is evaluated for the stack if they say none. -/
theorem mem_assignRegs {i gp fp : Nat} {args : List Arg} :
    (∀ s, s ∈ (assignRegs i gp fp args).1 ↔
      ∃ before after, args = before ++ s.arg :: after ∧ s.index = i + before.length ∧ regFrom gp fp before s.arg = some s.reg) ∧
    ∀ j a, (j, a) ∈ (assignRegs i gp fp args).2 ↔
      ∃ before after, args = before ++ a :: after ∧ j = i + before.length ∧ regFrom gp fp before a = none := by
  induction args generalizing i gp fp with
  | nil => simp [assignRegs]
  | cons b rest ih =>
      simp only [exists_position, List.length_nil, List.length_cons, Nat.add_zero, assignRegs]
      have hnext : ∀ n : Nat, i + 1 + n = i + (n + 1) := fun n => by omega
      cases hb : b.type.isFlonum with
      | true =>
          simp only [if_true, regFrom_cons_flonum hb]
          by_cases h : fp < 8
          · have hself : regFrom gp fp [] b = some (.xmm ⟨fp, h⟩) := by simp [regFrom, hb, h]
            simp only [dif_pos h, List.mem_cons, (@ih (i + 1) gp (fp + 1)).1, (@ih (i + 1) gp (fp + 1)).2, hnext]
            refine ⟨fun s => or_congr_left ⟨?_, ?_⟩, fun j a => (or_iff_right ?_).symm⟩
            · rintro rfl
              exact ⟨rfl, rfl, hself⟩
            · rintro ⟨rfl, hindex, hreg⟩
              rw [hself, Option.some_inj] at hreg
              cases s
              simp_all
            · rintro ⟨rfl, -, hnone⟩
              rw [hself] at hnone
              cases hnone
          · have hself : regFrom gp fp [] b = none := by simp [regFrom, hb, h]
            simp only [dif_neg h, List.mem_cons, (@ih (i + 1) gp fp).1, (@ih (i + 1) gp fp).2, hnext, regFrom_full_flonum h]
            refine ⟨fun s => (or_iff_right ?_).symm, fun j a => or_congr_left ⟨?_, ?_⟩⟩
            · rintro ⟨rfl, -, hreg⟩
              rw [hself] at hreg
              cases hreg
            · rintro heq
              cases heq
              exact ⟨rfl, rfl, hself⟩
            · rintro ⟨rfl, rfl, -⟩
              rfl
      | false =>
          simp only [Bool.false_eq_true, if_false, regFrom_cons_integer hb]
          by_cases h : gp < 6
          · have hself : regFrom gp fp [] b = some (.gp ⟨gp, h⟩) := by simp [regFrom, hb, h]
            simp only [dif_pos h, List.mem_cons, (@ih (i + 1) (gp + 1) fp).1, (@ih (i + 1) (gp + 1) fp).2, hnext]
            refine ⟨fun s => or_congr_left ⟨?_, ?_⟩, fun j a => (or_iff_right ?_).symm⟩
            · rintro rfl
              exact ⟨rfl, rfl, hself⟩
            · rintro ⟨rfl, hindex, hreg⟩
              rw [hself, Option.some_inj] at hreg
              cases s
              simp_all
            · rintro ⟨rfl, -, hnone⟩
              rw [hself] at hnone
              cases hnone
          · have hself : regFrom gp fp [] b = none := by simp [regFrom, hb, h]
            simp only [dif_neg h, List.mem_cons, (@ih (i + 1) gp fp).1, (@ih (i + 1) gp fp).2, hnext, regFrom_full_integer h]
            refine ⟨fun s => (or_iff_right ?_).symm, fun j a => or_congr_left ⟨?_, ?_⟩⟩
            · rintro ⟨rfl, -, hreg⟩
              rw [hself] at hreg
              cases hreg
            · rintro heq
              cases heq
              exact ⟨rfl, rfl, hself⟩
            · rintro ⟨rfl, rfl, -⟩
              rfl

theorem regFrom_xmm {gp fp : Nat} {before : List Arg} {a : Arg} {i : Fin 8} (h : regFrom gp fp before a = some (.xmm i)) :
    a.type.isFlonum = true ∧ fp ≤ i.val := by
  unfold regFrom at h
  split at h
  · next hf =>
      split at h
      · cases h
        exact ⟨hf, Nat.le_add_right _ _⟩
      · cases h
  · split at h <;> cases h

theorem regFrom_gp {gp fp : Nat} {before : List Arg} {a : Arg} {i : Fin 6} (h : regFrom gp fp before a = some (.gp i)) :
    a.type.isFlonum = false ∧ gp ≤ i.val := by
  unfold regFrom at h
  split at h
  · split at h <;> cases h
  · next hf =>
      split at h
      · cases h
        exact ⟨Bool.eq_false_iff.mpr hf, Nat.le_add_right _ _⟩
      · cases h

/-- The registers are all different. -/
theorem assignRegs_apart (i gp fp : Nat) (args : List Arg) :
    (assignRegs i gp fp args).1.Pairwise fun s s' => s.reg ≠ s'.reg := by
  induction args generalizing i gp fp with
  | nil => exact List.Pairwise.nil
  | cons b rest ih =>
      rw [assignRegs]
      split
      · split
        · refine List.Pairwise.cons (fun s hs heq => ?_) (ih _ _ _)
          obtain ⟨before, after, -, -, hreg⟩ := (mem_assignRegs.1 s).mp hs
          rw [← heq] at hreg
          exact absurd (regFrom_xmm hreg).2 (Nat.not_succ_le_self fp)
        · exact ih _ _ _
      · split
        · refine List.Pairwise.cons (fun s hs heq => ?_) (ih _ _ _)
          obtain ⟨before, after, -, -, hreg⟩ := (mem_assignRegs.1 s).mp hs
          rw [← heq] at hreg
          exact absurd (regFrom_gp hreg).2 (Nat.not_succ_le_self gp)
        · exact ih _ _ _

/-- The registers for integers are given out in their order. -/
theorem assignRegs_below {i gp fp : Nat} {args : List Arg} {first second : List Slot} {s : Slot} {j n : Fin 6}
    (h : (assignRegs i gp fp args).1 = first ++ s :: second) (hs : s.reg = .gp j) (hgp : gp ≤ n.val) (hn : n < j) :
    ∃ s' ∈ first, s'.reg = .gp n := by
  induction args generalizing i gp fp first with
  | nil => simp [assignRegs] at h
  | cons b rest ih =>
      rw [assignRegs] at h
      split at h
      · split at h
        · cases first with
          | nil =>
              cases h
              cases hs
          | cons t first =>
              obtain ⟨s', hs', hreg⟩ := ih (List.cons.inj h).2 hgp
              exact ⟨s', List.mem_cons_of_mem _ hs', hreg⟩
        · exact ih h hgp
      · split at h
        · next hroom =>
            cases first with
            | nil =>
                have hj : (⟨gp, hroom⟩ : Fin 6) = j := by
                  have hreg := congrArg Slot.reg (List.cons.inj h).1
                  rw [hs] at hreg
                  exact ArgReg.gp.inj hreg
                rw [← hj] at hn
                exact absurd hgp (Nat.not_le_of_lt hn)
            | cons t first =>
                obtain ⟨ht, htail⟩ := List.cons.inj h
                by_cases heq : n.val = gp
                · refine ⟨t, List.mem_cons_self, ?_⟩
                  rw [← ht]
                  exact congrArg ArgReg.gp (Fin.ext heq.symm)
                · obtain ⟨s', hs', hreg⟩ := ih htail (by omega)
                  exact ⟨s', List.mem_cons_of_mem _ hs', hreg⟩
        · exact ih h hgp

namespace Call

variable {call : Call}

theorem mem_slots {s : Slot} : s ∈ call.slots ↔ ∃ before after, call.args = before ++ s.arg :: after ∧ s.index = before.length ∧
    abiReg call.hasHiddenRetbuf before s.arg = some s.reg := by
  simp only [slots, mem_assignRegs.1, abiReg_eq, Nat.zero_add]

theorem slot_flonum {s : Slot} (hs : s ∈ call.slots) : s.arg.type.isFlonum = true ↔ ∃ i, s.reg = .xmm i := by
  obtain ⟨before, after, -, -, hreg⟩ := mem_slots.mp hs
  rw [abiReg_eq] at hreg
  cases hr : s.reg with
  | xmm i =>
      rw [hr] at hreg
      exact iff_of_true (regFrom_xmm hreg).1 ⟨i, rfl⟩
  | gp i =>
      rw [hr] at hreg
      rw [(regFrom_gp hreg).1]
      exact iff_of_false Bool.false_ne_true (by simp)

theorem position_unique {before before' after after' : List Arg} {a a' : Arg} (h : call.args = before ++ a :: after)
    (h' : call.args = before' ++ a' :: after') (hlen : before.length = before'.length) : before = before' ∧ a = a' := by
  obtain ⟨hbefore, hrest⟩ := List.append_inj (h.symm.trans h') hlen
  exact ⟨hbefore, (List.cons.inj hrest).1⟩

/-- An argument is known by its position. -/
theorem slot_unique {s s' : Slot} (hs : s ∈ call.slots) (hs' : s' ∈ call.slots) (h : s.index = s'.index) : s = s' := by
  obtain ⟨before, after, heq, hindex, hreg⟩ := mem_slots.mp hs
  obtain ⟨before', after', heq', hindex', hreg'⟩ := mem_slots.mp hs'
  obtain ⟨rfl, harg⟩ := position_unique heq heq' (hindex.symm.trans (h.trans hindex'))
  rw [← harg, hreg, Option.some_inj] at hreg'
  cases s
  cases s'
  simp_all

theorem stack_index {s : Slot} {i : Nat} {a : Arg} (hs : s ∈ call.slots) (ha : (i, a) ∈ call.stackArgs) : i ≠ s.index := by
  intro heq
  obtain ⟨before, after, hargs, hindex, hreg⟩ := mem_slots.mp hs
  obtain ⟨before', after', hargs', hi, hnone⟩ := (mem_assignRegs.2 i a).mp ha
  rw [Nat.zero_add] at hi
  obtain ⟨rfl, rfl⟩ := position_unique hargs hargs' (hindex.symm.trans (heq.symm.trans hi))
  rw [abiReg_eq, hnone] at hreg
  cases hreg

/-- What is said of the arguments can be said of the list for registers. -/
theorem placed_iff {c : Cpu} : call.Placed values c ↔ ∀ s ∈ call.slots, s.arg.type.Same (c.read s.reg) (values s.index) := by
  constructor
  · intro h s hs
    obtain ⟨before, after, hargs, hindex, hreg⟩ := mem_slots.mp hs
    rw [hindex]
    exact h before s.arg after hargs s.reg hreg
  · intro h before a after hargs reg hreg
    exact h ⟨before.length, a, reg⟩ (mem_slots.mpr ⟨before, after, hargs, rfl, hreg⟩)

end Call

end Rcc.CallArgs

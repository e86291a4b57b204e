import Rcc.X86

/-!
# The register allocator (`alloc_reg`, `free_reg`, the spill slots)

`alloc_reg` hands out the lowest free register. With none free it spills: the
register with the highest index goes to its slot below `%rbp` and is handed out
again, although whoever had it still names it. `free_reg` undoes both.

Three sets follow the registers. `used` are taken at the moment, `everUsed`
decides what the prologue saves, and `spilled` have an older value in their
slot. A slot belongs to one register for the rest of the function, and comes
from a counter that starts behind the two fixed slots; `SpillSlots` carries
what follows from that.
-/

namespace Rcc

/-! ## Slots -/

/-- `alloc_spill_slot`: a slot, and `next_spill_slot` after it. -/
def allocSpillSlot (next : Nat) : Nat × Nat := (next, next + 8)

/-- `spill_slot`, `next_spill_slot`, `spill_logand` and `spill_atomic_old`. -/
structure SpillSlots where
  /-- 0 while the register has no slot -/
  slot : Reg → Nat
  next : Nat
  logand : Nat
  atomicOld : Nat
  logand_eq : logand = 8
  atomicOld_eq : atomicOld = 16
  next_eq : next = 24 + 8 * (Finset.univ.filter fun r => slot r ≠ 0).card
  slot_ge : ∀ r, slot r ≠ 0 → 24 ≤ slot r
  slot_lt : ∀ r, slot r ≠ 0 → slot r < next
  slot_dvd : ∀ r, 8 ∣ slot r
  slot_inj : ∀ r q, slot r ≠ 0 → slot r = slot q → r = q
  /-- the slots are given out from 24 on -/
  slot_first : ∀ r, slot r ≠ 0 → ∃ q, slot q = 24

/-- `init_spill_slots` -/
def initSpillSlots : SpillSlots where
  slot := fun _ => 0
  next := (allocSpillSlot (allocSpillSlot 8).2).2
  logand := (allocSpillSlot 8).1
  atomicOld := (allocSpillSlot (allocSpillSlot 8).2).1
  logand_eq := rfl
  atomicOld_eq := rfl
  next_eq := rfl
  slot_ge := fun _ h => absurd rfl h
  slot_lt := fun _ h => absurd rfl h
  slot_dvd := fun _ => Nat.dvd_zero 8
  slot_inj := fun _ _ h => absurd rfl h
  slot_first := fun _ h => absurd rfl h

namespace SpillSlots

theorem next_dvd (s : SpillSlots) : 8 ∣ s.next := by
  rw [s.next_eq]
  omega

theorem next_ge (s : SpillSlots) : 24 ≤ s.next := by
  rw [s.next_eq]
  omega

/-- The slots end at `-80(%rbp)`, where the first local may begin. -/
theorem slot_le (s : SpillSlots) (r : Reg) : s.slot r ≤ 80 := by
  by_cases h : s.slot r = 0
  · omega
  · have hlt := s.slot_lt r h
    have hcard : (Finset.univ.filter fun r => s.slot r ≠ 0).card ≤ 8 :=
      Finset.card_filter_le _ _
    have hnext := s.next_eq
    obtain ⟨k, hk⟩ := s.slot_dvd r
    omega

/-- What a new slot does to the table. -/
theorem update_slot (s : SpillSlots) (r q : Reg) :
    (q = r ∧ Function.update s.slot r s.next q = s.next) ∨
      (q ≠ r ∧ Function.update s.slot r s.next q = s.slot q) := by
  by_cases h : q = r
  · exact .inl ⟨h, by rw [h, Function.update_self]⟩
  · exact .inr ⟨h, Function.update_of_ne h _ _⟩

/-- A register without a slot gets the next one. -/
def give (s : SpillSlots) (r : Reg) (h : s.slot r = 0) : SpillSlots where
  slot := Function.update s.slot r (allocSpillSlot s.next).1
  next := (allocSpillSlot s.next).2
  logand := s.logand
  atomicOld := s.atomicOld
  logand_eq := s.logand_eq
  atomicOld_eq := s.atomicOld_eq
  next_eq := by
    have hset : (Finset.univ.filter fun q => Function.update s.slot r s.next q ≠ 0) =
        insert r (Finset.univ.filter fun q => s.slot q ≠ 0) := by
      ext q
      rw [Finset.mem_insert, Finset.mem_filter_univ, Finset.mem_filter_univ]
      have hge := s.next_ge
      rcases s.update_slot r q with ⟨hq, hu⟩ | ⟨hq, hu⟩
      · rw [hu]
        exact ⟨fun _ => .inl hq, fun _ => by omega⟩
      · rw [hu]
        exact ⟨.inr, fun hor => hor.resolve_left hq⟩
    show s.next + 8 = 24 + 8 * (Finset.univ.filter fun q => Function.update s.slot r s.next q ≠ 0).card
    rw [hset, Finset.card_insert_of_notMem, s.next_eq]
    · omega
    · rw [Finset.mem_filter_univ]
      exact fun hne => hne h
  slot_ge := by
    intro q hq
    rcases s.update_slot r q with ⟨_, hu⟩ | ⟨_, hu⟩
    · exact (s.next_ge).trans_eq hu.symm
    · have hu' : Function.update s.slot r (allocSpillSlot s.next).1 q = s.slot q := hu
      rw [hu'] at hq ⊢
      exact s.slot_ge q hq
  slot_lt := by
    intro q hq
    show Function.update s.slot r s.next q < s.next + 8
    rcases s.update_slot r q with ⟨_, hu⟩ | ⟨_, hu⟩
    · omega
    · have hlt := s.slot_lt q (hu ▸ hq)
      omega
  slot_dvd := by
    intro q
    show 8 ∣ Function.update s.slot r s.next q
    rcases s.update_slot r q with ⟨_, hu⟩ | ⟨_, hu⟩
    · rw [hu]
      exact s.next_dvd
    · rw [hu]
      exact s.slot_dvd q
  slot_inj := by
    intro q p hq hqp
    have hq' : Function.update s.slot r s.next q ≠ 0 := hq
    have hqp' : Function.update s.slot r s.next q = Function.update s.slot r s.next p := hqp
    rcases s.update_slot r q with ⟨hqr, hu⟩ | ⟨hqr, hu⟩ <;>
      rcases s.update_slot r p with ⟨hpr, hv⟩ | ⟨hpr, hv⟩
    · rw [hqr, hpr]
    · have hlt := s.slot_lt p
      omega
    · have hlt := s.slot_lt q
      omega
    · exact s.slot_inj q p (hu ▸ hq') (hu ▸ hv ▸ hqp')
  slot_first := by
    intro _ _
    show ∃ q, Function.update s.slot r s.next q = 24
    by_cases hother : ∃ q, s.slot q ≠ 0
    · obtain ⟨q, hq⟩ := hother
      obtain ⟨p, hp⟩ := s.slot_first q hq
      have hne : p ≠ r := fun hpr => by rw [hpr] at hp; omega
      exact ⟨p, by rw [Function.update_of_ne hne, hp]⟩
    · have hempty : (Finset.univ.filter fun q => s.slot q ≠ 0) = ∅ :=
        Finset.filter_eq_empty_iff.mpr fun q _ => not_exists.mp hother q
      exact ⟨r, by rw [Function.update_self, s.next_eq, hempty, Finset.card_empty]⟩

end SpillSlots

/-- `spill_offset` -/
def SpillSlots.offset (s : SpillSlots) (r : Reg) : Nat × SpillSlots :=
  if h : s.slot r = 0 then (s.next, s.give r h) else (s.slot r, s)

/-- The offset is the register's slot from now on. -/
theorem SpillSlots.offset_slot (s : SpillSlots) (r : Reg) :
    (s.offset r).2.slot r = (s.offset r).1 := by
  unfold offset
  split
  · exact Function.update_self _ _ _
  · rfl

theorem SpillSlots.offset_slot_of_ne (s : SpillSlots) {r q : Reg} (h : q ≠ r) :
    (s.offset r).2.slot q = s.slot q := by
  unfold offset
  split
  · exact Function.update_of_ne h _ _
  · rfl

theorem SpillSlots.offset_ne_zero (s : SpillSlots) (r : Reg) : (s.offset r).1 ≠ 0 := by
  unfold offset
  split
  · have := s.next_ge
    show s.next ≠ 0
    omega
  · next h => exact h

/-- A register that has a slot keeps it. -/
theorem SpillSlots.offset_of_ne_zero (s : SpillSlots) {r : Reg} (h : s.slot r ≠ 0) :
    s.offset r = (s.slot r, s) := dif_neg h

/-- A slot offered to a register that may have one already. -/
theorem SpillSlots.slot_offset_self (s : SpillSlots) (r : Reg) : (s.offset r).2.slot r ≠ 0 := by
  rw [s.offset_slot]
  exact s.offset_ne_zero r

theorem SpillSlots.slot_offset_ne_zero (s : SpillSlots) (r : Reg) {q : Reg} (hq : s.slot q ≠ 0) :
    (s.offset r).2.slot q ≠ 0 := by
  by_cases hqr : q = r
  · rw [hqr]
    exact s.slot_offset_self r
  · rw [s.offset_slot_of_ne hqr]
    exact hq

/-! ## The generator's state -/

/-- The file-level variables of `codegen.c` that the generation of a body
updates. -/
structure GenState where
  used : Finset Reg
  everUsed : Finset Reg
  spilled : Finset Reg
  slots : SpillSlots
  /-- `fn_struct_ret_off` -/
  structRetOff : Nat
  /-- `fn_struct_ret_total` -/
  structRetTotal : Nat
  /-- `rcc_label_count` -/
  labelCount : Nat
  used_ever : used ⊆ everUsed
  spilled_used : spilled ⊆ used
  spilled_slot : ∀ r ∈ spilled, slots.slot r ≠ 0

namespace GenState

/-- At the head of a function body. -/
def init (labelCount : Nat) : GenState where
  used := ∅
  everUsed := ∅
  spilled := ∅
  slots := initSpillSlots
  structRetOff := 0
  structRetTotal := 0
  labelCount
  used_ever := Finset.Subset.refl ∅
  spilled_used := Finset.Subset.refl ∅
  spilled_slot r hr := absurd hr (Finset.notMem_empty r)

variable (s : GenState) (i : Reg)

/-- The bits of a register are set in both masks. -/
def take : GenState :=
  { s with
    used := insert i s.used
    everUsed := insert i s.everUsed
    used_ever := Finset.insert_subset_insert i s.used_ever
    spilled_used := s.spilled_used.trans (Finset.subset_insert i s.used) }

/-- The register goes to its slot and is taken anew. -/
def spill : GenState :=
  { s with
    slots := (s.slots.offset i).2
    spilled := insert i s.spilled
    used := insert i (s.used.erase i)
    everUsed := insert i s.everUsed
    used_ever := Finset.insert_subset_insert i ((Finset.erase_subset i s.used).trans s.used_ever)
    spilled_used := by
      intro r hr
      rcases eq_or_ne r i with rfl | hri
      · exact Finset.mem_insert_self r _
      · have hold := s.spilled_used ((Finset.mem_insert.mp hr).resolve_left hri)
        exact Finset.mem_insert_of_mem (Finset.mem_erase.mpr ⟨hri, hold⟩)
    spilled_slot := by
      intro r hr
      rcases Finset.mem_insert.mp hr with rfl | hr
      · exact s.slots.slot_offset_self r
      · exact s.slots.slot_offset_ne_zero i (s.spilled_slot r hr) }

/-- The register is given back, its older value with it. -/
def drop : GenState :=
  { s with
    spilled := s.spilled.erase i
    used := s.used.erase i
    used_ever := (Finset.erase_subset i s.used).trans s.used_ever
    spilled_used := Finset.erase_subset_erase i s.spilled_used
    spilled_slot := fun r hr => s.spilled_slot r (Finset.mem_of_mem_erase hr) }

end GenState

/-- A part of the generator: it may stop with an error, and otherwise prints
lines and leaves a state. -/
def Gen (α : Type) : Type := GenState → Option (α × List Line × GenState)

namespace Gen

variable {α β : Type}

def pure (a : α) : Gen α := fun s => some (a, [], s)

def bind (x : Gen α) (f : α → Gen β) : Gen β := fun s =>
  (x s).bind fun (a, code, s') => (f a s').map fun (b, code', s'') => (b, code ++ code', s'')

def error : Gen α := fun _ => none

/-- `printf` -/
def emit (lines : List Line) : Gen Unit := fun s => some ((), lines, s)

instance : Monad Gen where
  pure := pure
  bind := bind

/-- What ran after a first part is that part and the rest. -/
theorem bind_eq_some {x : Gen α} {f : α → Gen β} {s s'' : GenState} {b : β} {code : List Line} :
    (x >>= f) s = some (b, code, s'') ↔
      ∃ a c₁ s' c₂, x s = some (a, c₁, s') ∧ f a s' = some (b, c₂, s'') ∧ code = c₁ ++ c₂ := by
  show (x s).bind _ = _ ↔ _
  rw [Option.bind_eq_some_iff]
  constructor
  · rintro ⟨⟨a, c₁, s'⟩, hx, hf⟩
    obtain ⟨⟨b', c₂, t⟩, hf, heq⟩ := Option.map_eq_some_iff.mp hf
    cases heq
    exact ⟨a, c₁, s', c₂, hx, hf, rfl⟩
  · rintro ⟨a, c₁, s', c₂, hx, hf, rfl⟩
    exact ⟨(a, c₁, s'), hx, by simp only [hf, Option.map_some]⟩

theorem pure_eq_some {a b : α} {s s' : GenState} {code : List Line} :
    (Pure.pure a : Gen α) s = some (b, code, s') ↔ b = a ∧ code = [] ∧ s' = s := by
  show some (a, ([] : List Line), s) = _ ↔ _
  rw [Option.some_inj, Prod.mk.injEq, Prod.mk.injEq]
  exact ⟨fun ⟨h1, h2, h3⟩ => ⟨h1.symm, h2.symm, h3.symm⟩,
    fun ⟨h1, h2, h3⟩ => ⟨h1.symm, h2.symm, h3.symm⟩⟩

theorem emit_eq_some {lines : List Line} {u : Unit} {s s' : GenState} {code : List Line} :
    emit lines s = some (u, code, s') ↔ code = lines ∧ s' = s := by
  show some ((), lines, s) = _ ↔ _
  rw [Option.some_inj, Prod.mk.injEq, Prod.mk.injEq]
  exact ⟨fun ⟨_, h2, h3⟩ => ⟨h2.symm, h3.symm⟩, fun ⟨h2, h3⟩ => ⟨rfl, h2.symm, h3.symm⟩⟩

end Gen

/-! ## `alloc_reg` and `free_reg` -/

/-- The first loop of `alloc_reg`: the lowest free one of `n` registers. -/
def lowestFree {n : Nat} (used : Finset (Fin n)) : Option (Fin n) :=
  (List.finRange n).find? fun i => i ∉ used

/-- The second loop: the highest one in use. -/
def highestUsed {n : Nat} (used : Finset (Fin n)) : Option (Fin n) :=
  (List.finRange n).reverse.find? fun i => i ∈ used

/-- `alloc_reg` -/
def allocReg : Gen Reg := fun s =>
  match lowestFree s.used with
  | some i => some (i, [], s.take i)
  | none =>
      match highestUsed s.used with
      | some i => some (i, [.op (.store .q i (s.slots.offset i).1)], s.spill i)
      | none => none

/-- `free_reg`. A register that was spilled has its slot. -/
def freeReg (i : Reg) : Gen Unit := fun s =>
  if i ∈ s.spilled then some ((), [.op (.load .q (s.slots.offset i).1 i)], s.drop i)
  else some ((), [], s.drop i)

theorem lowestFree_eq_some_iff {n : Nat} {used : Finset (Fin n)} {i : Fin n} :
    lowestFree used = some i ↔ i ∉ used ∧ ∀ j < i, j ∈ used := by
  rw [lowestFree, List.find?_eq_some_iff_getElem]
  simp only [decide_eq_true_eq, List.getElem_finRange, decide_not, Bool.not_not,
    List.length_finRange, Bool.not_eq_true', decide_eq_false_iff_not]
  refine and_congr_right fun hi => ?_
  constructor
  · rintro ⟨k, hk, hki, hlow⟩ j hj
    rw [← hki] at hj
    exact hlow j hj
  · intro hlow
    exact ⟨i, i.isLt, rfl, fun j hj => hlow ⟨j, hj.trans i.isLt⟩ hj⟩

theorem lowestFree_eq_none_iff {n : Nat} {used : Finset (Fin n)} :
    lowestFree used = none ↔ used = Finset.univ := by
  rw [lowestFree, List.find?_eq_none, Finset.eq_univ_iff_forall]
  simp only [List.mem_finRange, decide_not, Bool.not_eq_true', decide_eq_false_iff_not, not_not,
    forall_const]

theorem highestUsed_univ : highestUsed (Finset.univ : Finset Reg) = some 7 := by decide

/-- There is a lowest free register unless all are taken. -/
theorem exists_lowest_free {n : Nat} {used : Finset (Fin n)} (h : used ≠ Finset.univ) :
    ∃ i, i ∉ used ∧ ∀ j < i, j ∈ used := by
  cases hl : lowestFree used with
  | none => exact absurd (lowestFree_eq_none_iff.mp hl) h
  | some i => exact ⟨i, lowestFree_eq_some_iff.mp hl⟩

/-- Handing out the lowest free register: what has been handed out since is what
was before, and every register below which all are in use. -/
theorem mem_insert_lowest {n : Nat} {used ever : Finset (Fin n)} (hsub : used ⊆ ever) {i : Fin n}
    (hi : i ∉ used) (hlow : ∀ j < i, j ∈ used) (r : Fin n) :
    r ∈ insert i ever ↔ r ∈ ever ∨ ∀ q : Fin n, q.val < r.val → q ∈ used := by
  rw [Finset.mem_insert]
  constructor
  · rintro (rfl | hr)
    · exact .inr fun q hq => hlow q hq
    · exact .inl hr
  · rintro (hr | hbelow)
    · exact .inr hr
    · by_cases hr : r ∈ used
      · exact .inr (hsub hr)
      · exact .inl (le_antisymm (le_of_not_gt fun hlt => hi (hbelow i hlt))
          (le_of_not_gt fun hlt => hr (hlow r hlt)))

/-- With a register free, it is the lowest one, and nothing is printed. -/
theorem allocReg_free {s : GenState} {i : Reg} (hi : i ∉ s.used) (hlow : ∀ j < i, j ∈ s.used) :
    allocReg s = some (i, [], s.take i) := by
  rw [allocReg, lowestFree_eq_some_iff.mpr ⟨hi, hlow⟩]

/-- With none free, `%rsi` is handed out a second time. -/
theorem allocReg_full {s : GenState} (h : s.used = Finset.univ) :
    allocReg s = some (7, [.op (.store .q 7 (s.slots.offset 7).1)], s.spill 7) := by
  rw [allocReg, lowestFree_eq_none_iff.mpr h]
  simp only [h, highestUsed_univ]

theorem freeReg_unspilled {s : GenState} {i : Reg} (h : i ∉ s.spilled) :
    freeReg i s = some ((), [], s.drop i) := if_neg h

theorem freeReg_spilled {s : GenState} {i : Reg} (h : i ∈ s.spilled) :
    freeReg i s = some ((), [.op (.load .q (s.slots.slot i) i)], s.drop i) := by
  rw [freeReg, if_pos h, s.slots.offset_of_ne_zero (s.spilled_slot i h)]

end Rcc

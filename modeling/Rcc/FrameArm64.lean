import Rcc.RegAlloc
import Rcc.Scope

/-!
# The ARM64 frame

Here the frame is laid out from both ends. Below `x29` lie the spill slots, at
-8, -16, …, then the locals and the structure buffers; from `sp` upwards, the
argument registers of a variadic function and the callee-saved registers. Above
`x29` is the frame record.

Two computations are made twice and do not agree. The prologue leaves 192 bytes
of a variadic function to the argument registers and stores the callee-saved
ones behind them; the epilogue loads them as if it had not. And the spill slots
are given out once for the whole translation unit, so that a register may come
to a slot past the eighty bytes that locals keep clear of.
`armFrame_intact_iff` says what is left.
-/

namespace Rcc

open Spans (Span)

/-- An index of `reg64`: x10 to x15, x19 to x24. -/
abbrev ArmReg := Fin 12

/-- `spill_slot` and `next_spill_slot`. Nothing resets them. -/
structure ArmSlots where
  /-- 0 while the register has no slot -/
  slot : ArmReg → Nat
  next : Nat
  next_eq : next = 8 * (Finset.univ.filter fun r => slot r ≠ 0).card
  slot_le : ∀ r, slot r ≤ next
  slot_dvd : ∀ r, 8 ∣ slot r

/-- The file-level variables of the generator that the frame depends on.
`asked` is no variable of the source: the registers that `spill_offset` was
called for since the function began. -/
structure ArmState where
  used : Finset ArmReg
  everUsed : Finset ArmReg
  spilled : Finset ArmReg
  slots : ArmSlots
  asked : Finset ArmReg
  structRetOff : Nat
  structRetTotal : Nat

inductive ArmRequest where
  /-- `alloc_reg` -/
  | alloc
  /-- `free_reg` -/
  | free (r : ArmReg)
  /-- `emit_load` takes back a register that was spilled for it -/
  | unmark (r : ArmReg)
  /-- an atomic operation keeps the old value in this register's slot -/
  | atomicSlot (r : ArmReg)
  /-- a buffer for a structure, by its rounded size -/
  | buffer (size : Nat)
deriving DecidableEq, Repr

/-! ## Slots -/

namespace ArmSlots

theorem slot_le_96 (s : ArmSlots) (r : ArmReg) : s.slot r ≤ 96 := by
  have hle := s.slot_le r
  have hcard : (Finset.univ.filter fun r => s.slot r ≠ 0).card ≤ 12 := Finset.card_filter_le _ _
  have hnext := s.next_eq
  omega

/-- At the start of the compiler. -/
def initial : ArmSlots where
  slot := fun _ => 0
  next := 0
  next_eq := rfl
  slot_le := fun _ => le_refl 0
  slot_dvd := fun _ => Nat.dvd_zero 8

/-- `next_spill_slot += 8; spill_slot[r] = next_spill_slot` -/
def give (s : ArmSlots) (r : ArmReg) (h : s.slot r = 0) : ArmSlots where
  slot := Function.update s.slot r (s.next + 8)
  next := s.next + 8
  next_eq := by
    have hset : (Finset.univ.filter fun q => Function.update s.slot r (s.next + 8) q ≠ 0) =
        insert r (Finset.univ.filter fun q => s.slot q ≠ 0) := by
      ext q
      rw [Finset.mem_insert, Finset.mem_filter_univ, Finset.mem_filter_univ]
      by_cases hq : q = r
      · rw [hq, Function.update_self]
        exact ⟨fun _ => .inl rfl, fun _ => by omega⟩
      · rw [Function.update_of_ne hq]
        exact ⟨.inr, fun hor => hor.resolve_left hq⟩
    rw [hset, Finset.card_insert_of_notMem, s.next_eq]
    · omega
    · rw [Finset.mem_filter_univ]
      exact fun hne => hne h
  slot_le := by
    intro q
    by_cases hq : q = r
    · rw [hq, Function.update_self]
    · rw [Function.update_of_ne hq]
      exact (s.slot_le q).trans (Nat.le_add_right _ _)
  slot_dvd := by
    intro q
    by_cases hq : q = r
    · rw [hq, Function.update_self, s.next_eq]
      omega
    · rw [Function.update_of_ne hq]
      exact s.slot_dvd q

/-- `spill_offset`, the table alone. -/
def offset (s : ArmSlots) (r : ArmReg) : ArmSlots := if h : s.slot r = 0 then s.give r h else s

theorem offset_ne_zero (s : ArmSlots) (r : ArmReg) : (s.offset r).slot r ≠ 0 := by
  unfold offset
  split
  · show Function.update s.slot r (s.next + 8) r ≠ 0
    rw [Function.update_self]
    omega
  · next h => exact h

theorem offset_keeps (s : ArmSlots) (r : ArmReg) {q : ArmReg} (h : s.slot q ≠ 0) :
    (s.offset r).slot q ≠ 0 := by
  by_cases hqr : q = r
  · rw [hqr]
    exact s.offset_ne_zero r
  · unfold offset
    split
    · show Function.update s.slot r (s.next + 8) q ≠ 0
      rwa [Function.update_of_ne hqr]
    · exact h

end ArmSlots

/-! ## Generating a function -/

namespace ArmState

/-- `spill_offset` -/
def askSlot (s : ArmState) (r : ArmReg) : ArmState :=
  { s with slots := s.slots.offset r, asked := insert r s.asked }

/-- `alloc_reg` -/
def allocReg (s : ArmState) : ArmState :=
  match lowestFree s.used with
  | some i => { s with used := insert i s.used, everUsed := insert i s.everUsed }
  | none =>
      match highestUsed s.used with
      | some i =>
          { s.askSlot i with
            spilled := insert i s.spilled
            used := insert i (s.used.erase i)
            everUsed := insert i s.everUsed }
      | none => s

/-- `free_reg` -/
def freeReg (s : ArmState) (i : ArmReg) : ArmState :=
  if i ∈ s.spilled then
    { s.askSlot i with spilled := s.spilled.erase i, used := s.used.erase i }
  else
    { s with used := s.used.erase i }

def step (s : ArmState) : ArmRequest → ArmState
  | .alloc => s.allocReg
  | .free r => s.freeReg r
  | .unmark r => { s with used := s.used.erase r, spilled := s.spilled.erase r }
  | .atomicSlot r => s.askSlot r
  | .buffer size =>
      { s with
        structRetOff := s.structRetOff + size
        structRetTotal :=
          if s.structRetOff + size > s.structRetTotal then s.structRetOff + size
          else s.structRetTotal }

/-- At the head of a function: the registers are free again, the slots are not. -/
def enter (s : ArmState) : ArmState :=
  { s with used := ∅, everUsed := ∅, spilled := ∅, asked := ∅, structRetOff := 0,
           structRetTotal := 0 }

/-- The state behind the functions that made these requests. -/
def afterUnit (before : List (List ArmRequest)) : ArmState :=
  before.foldl (fun s requests => requests.foldl step s.enter)
    ⟨∅, ∅, ∅, .initial, ∅, 0, 0⟩

end ArmState

/-- A function, the functions compiled before it in the unit, and what they all
ask of the allocator. -/
structure ArmCompiled where
  before : List (List ArmRequest)
  vars : List VarTy
  isVariadic : Bool
  requests : List ArmRequest

namespace ArmCompiled

variable (fn : ArmCompiled)

def entry : ArmState := (ArmState.afterUnit fn.before).enter

def final : ArmState := fn.requests.foldl ArmState.step fn.entry

def scope : Scope := declare fn.vars

/-! ## The frame -/

/-- x19 to x24. -/
def calleeSaved : List ArmReg := [6, 7, 8, 9, 10, 11]

def saved : List ArmReg := calleeSaved.filter fun r => r ∈ fn.final.everUsed

def frameSize : Nat :=
  let need := fn.scope.stackSize + fn.final.structRetTotal + 32
  let need := if fn.isVariadic then need + 192 else need
  alignTo (need + 16 + fn.saved.length * 8) 16

/-- The loop over the callee-saved registers, from `cs_off` on: each register
with its distance from `sp`. -/
def placed : Nat → List ArmReg → List (ArmReg × Nat)
  | _, [] => []
  | csOff, r :: rest => (r, csOff) :: placed (csOff + 8) rest

/-- The stores of the prologue. -/
def stores : List (ArmReg × Nat) := placed (if fn.isVariadic then 192 + 16 else 16) fn.saved

/-- The loads of the epilogue. -/
def loads : List (ArmReg × Nat) := placed 16 fn.saved

/-- What lies `off` above `sp`, by its distance from `x29`. -/
def saveSpan (off : Nat) : Span := Span.at (off - fn.frameSize) 8

def slotSpan (r : ArmReg) : Span := Span.at (-fn.final.slots.slot r) 8

/-- `x29` and `x30` of the caller. -/
def frameRecord : Span := Span.at 0 16

/-- The frame does what it is for. -/
structure FrameIntact : Prop where
  /-- every register stored in the prologue is reloaded from where it was stored -/
  reloaded : ∀ s ∈ fn.stores, s ∈ fn.loads
  slotsSaved : ∀ r ∈ fn.final.asked, ∀ s ∈ fn.stores, (fn.slotSpan r).Disjoint (fn.saveSpan s.2)
  slotsRecord : ∀ r ∈ fn.final.asked, (fn.slotSpan r).Disjoint frameRecord
  /-- no byte of a local is one of a slot -/
  slotsLocals : ∀ r ∈ fn.final.asked, ∀ v ∈ fn.scope.locals, ∀ a,
    (fn.slotSpan r).Has a → ¬ v.span.Has a

/-! ## When it does -/

/-- A register is asked for while the lowest `k` are all in use. -/
def Asks (entry : ArmState) (requests : List ArmRequest) (k : Nat) : Prop :=
  ∃ before after, requests = before ++ .alloc :: after ∧
    ∀ r : ArmReg, r.val < k → r ∈ (before.foldl ArmState.step entry).used

/-- A variadic function never wants a seventh register; and where a slot is past
the eighty bytes, being the eleventh or twelfth that the unit gives out, the
function's variables leave a gap for it. -/
structure Fits : Prop where
  variadic : fn.isVariadic = true → ¬ Asks fn.entry fn.requests 6
  slots : ∀ r ∈ fn.final.asked, 80 < fn.final.slots.slot r → ∀ v ∈ fn.scope.locals,
    v.size = 0 ∨ v.offset + 8 ≤ fn.final.slots.slot r ∨ fn.final.slots.slot r + v.size ≤ v.offset

/-! ## Which registers were handed out -/

theorem asks_snoc_iff {entry : ArmState} {requests : List ArmRequest} {q : ArmRequest} {k : Nat} :
    Asks entry (requests ++ [q]) k ↔
      Asks entry requests k ∨
        q = .alloc ∧ ∀ r : ArmReg, r.val < k → r ∈ (requests.foldl ArmState.step entry).used := by
  constructor
  · rintro ⟨before, after, hreqs, hused⟩
    rcases List.eq_nil_or_concat after with rfl | ⟨after, last, rfl⟩
    · obtain ⟨rfl, hq⟩ := List.append_inj' hreqs rfl
      exact .inr ⟨List.singleton_inj.mp hq, hused⟩
    · rw [List.concat_eq_append, ← List.cons_append, ← List.append_assoc] at hreqs
      obtain ⟨hreqs, _⟩ := List.append_inj' hreqs rfl
      exact .inl ⟨before, after, hreqs, hused⟩
  · rintro (⟨before, after, rfl, hused⟩ | ⟨rfl, hused⟩)
    · refine ⟨before, after ++ [q], ?_, hused⟩
      rw [List.append_assoc, List.cons_append]
    · exact ⟨requests, [], rfl, hused⟩

theorem highestUsed_univ : highestUsed (Finset.univ : Finset ArmReg) = some 11 := by decide

/-- Everything but `alloc_reg` only takes registers back. -/
theorem step_used {s : ArmState} {q : ArmRequest} (h : q ≠ .alloc) :
    (s.step q).used ⊆ s.used ∧ (s.step q).everUsed = s.everUsed := by
  cases q with
  | alloc => exact absurd rfl h
  | free i =>
      simp only [ArmState.step, ArmState.freeReg]
      split
      · exact ⟨Finset.erase_subset _ _, rfl⟩
      · exact ⟨Finset.erase_subset _ _, rfl⟩
  | unmark i => exact ⟨Finset.erase_subset _ _, rfl⟩
  | atomicSlot i => exact ⟨Finset.Subset.refl _, rfl⟩
  | buffer size => exact ⟨Finset.Subset.refl _, rfl⟩

/-- What was handed out since the function began, in terms of its requests. -/
theorem everUsed_iff (entry : ArmState) (hentry : entry.used = ∅ ∧ entry.everUsed = ∅)
    (requests : List ArmRequest) :
    (requests.foldl ArmState.step entry).used ⊆ (requests.foldl ArmState.step entry).everUsed ∧
      ∀ r : ArmReg, r ∈ (requests.foldl ArmState.step entry).everUsed ↔ Asks entry requests r := by
  induction requests using List.reverseRecOn with
  | nil =>
      rw [List.foldl_nil, hentry.1, hentry.2]
      refine ⟨Finset.Subset.refl ∅, fun r => iff_of_false (Finset.notMem_empty r) ?_⟩
      rintro ⟨before, after, hreqs, _⟩
      exact absurd hreqs (by simp)
  | append_singleton requests q ih =>
      rw [List.foldl_append, List.foldl_cons, List.foldl_nil]
      simp only [asks_snoc_iff]
      generalize requests.foldl ArmState.step entry = s at ih ⊢
      obtain ⟨hsub, hever⟩ := ih
      by_cases hq : q = .alloc
      · subst hq
        by_cases hfull : s.used = Finset.univ
        · have hall : ∀ r, r ∈ s.everUsed := fun r => hsub (hfull ▸ Finset.mem_univ r)
          simp only [ArmState.step, ArmState.allocReg, lowestFree_eq_none_iff.mpr rfl, hfull,
            highestUsed_univ]
          refine ⟨fun r _ => Finset.mem_insert_of_mem (hall r), fun r => ?_⟩
          exact iff_of_true (Finset.mem_insert_of_mem (hall r))
            (.inr ⟨trivial, fun q _ => Finset.mem_univ q⟩)
        · obtain ⟨i, hi, hlow⟩ := exists_lowest_free hfull
          simp only [ArmState.step, ArmState.allocReg, lowestFree_eq_some_iff.mpr ⟨hi, hlow⟩]
          refine ⟨Finset.insert_subset_insert i hsub, fun r => ?_⟩
          rw [← hever r, true_and]
          exact mem_insert_lowest hsub hi hlow r
      · obtain ⟨hused, heq⟩ := step_used (s := s) hq
        rw [heq]
        exact ⟨hused.trans hsub, fun r => (hever r).trans (or_iff_left fun h => hq h.1).symm⟩

theorem seventh_iff : 6 ∈ fn.final.everUsed ↔ Asks fn.entry fn.requests 6 :=
  (everUsed_iff fn.entry ⟨rfl, rfl⟩ fn.requests).2 6

/-- Something is stored once a seventh register was wanted. -/
theorem saved_eq_nil_iff : fn.saved = [] ↔ ¬ Asks fn.entry fn.requests 6 := by
  rw [← seventh_iff, saved, List.filter_eq_nil_iff]
  constructor
  · intro h h6
    exact h 6 (by decide) (decide_eq_true h6)
  · intro h6 r hr hever
    obtain ⟨_, hiff⟩ := everUsed_iff fn.entry ⟨rfl, rfl⟩ fn.requests
    obtain ⟨before, after, hreqs, hused⟩ := (hiff r).mp (of_decide_eq_true hever)
    have hge : 6 ≤ r.val := (by decide : ∀ r ∈ calleeSaved, 6 ≤ r.val) r hr
    exact h6 ((hiff 6).mpr ⟨before, after, hreqs, fun q hq => hused q (lt_of_lt_of_le hq hge)⟩)

/-! ## The two computations -/

theorem placed_range {csOff : Nat} {regs : List ArmReg} {p : ArmReg × Nat}
    (h : p ∈ placed csOff regs) : csOff ≤ p.2 ∧ p.2 + 8 ≤ csOff + 8 * regs.length := by
  induction regs generalizing csOff with
  | nil => exact absurd h List.not_mem_nil
  | cons r rest ih =>
      rw [List.length_cons]
      rcases List.mem_cons.mp h with rfl | h
      · exact ⟨le_refl _, by omega⟩
      · obtain ⟨hlo, hhi⟩ := ih h
        omega

theorem saved_length : fn.saved.length ≤ 6 := List.length_filter_le _ _

/-- Prologue and epilogue agree unless both are about something and the argument
registers lie in between. -/
theorem reloaded_iff :
    (∀ s ∈ fn.stores, s ∈ fn.loads) ↔ (fn.isVariadic = true → ¬ Asks fn.entry fn.requests 6) := by
  rw [← saved_eq_nil_iff]
  constructor
  · intro h hv
    cases hsaved : fn.saved with
    | nil => rfl
    | cons r rest =>
        have hstore : (r, 208) ∈ fn.stores := by
          rw [stores, hv, hsaved]
          exact List.mem_cons_self
        obtain ⟨_, hhi⟩ := placed_range (h _ hstore)
        have hlen := fn.saved_length
        simp only at hhi
        omega
  · intro h s hs
    cases hv : fn.isVariadic with
    | false =>
        rw [stores, hv] at hs
        exact hs
    | true =>
        rw [stores, h hv] at hs
        exact absurd hs List.not_mem_nil

/-! ## Slots and the rest of the frame -/

/-- Every register that `spill_offset` was called for has a slot. -/
theorem slot_of_asked {s : ArmState} (h : ∀ r ∈ s.asked, s.slots.slot r ≠ 0) (q : ArmRequest) :
    ∀ r ∈ (s.step q).asked, (s.step q).slots.slot r ≠ 0 := by
  have hask : ∀ i, ∀ r ∈ (s.askSlot i).asked, (s.askSlot i).slots.slot r ≠ 0 := by
    intro i r hr
    rcases Finset.mem_insert.mp hr with rfl | hr
    · exact s.slots.offset_ne_zero r
    · exact s.slots.offset_keeps i (h r hr)
  cases q with
  | alloc =>
      simp only [ArmState.step, ArmState.allocReg]
      split
      · exact h
      · split
        · next i _ => exact hask i
        · exact h
  | free i =>
      simp only [ArmState.step, ArmState.freeReg]
      split
      · exact hask i
      · exact h
  | unmark i => exact h
  | atomicSlot i => exact hask i
  | buffer size => exact h

theorem final_slot_ne_zero : ∀ r ∈ fn.final.asked, fn.final.slots.slot r ≠ 0 := by
  unfold final
  induction fn.requests using List.reverseRecOn with
  | nil => exact fun r hr => absurd hr (Finset.notMem_empty r)
  | append_singleton requests q ih =>
      rw [List.foldl_append, List.foldl_cons, List.foldl_nil]
      exact slot_of_asked ih q

/-- The callee-saved registers are stored below everything that is placed from
`x29` downwards. -/
theorem saveSpan_low {s : ArmReg × Nat} (hs : s ∈ fn.stores) :
    (fn.saveSpan s.2).hi + fn.scope.stackSize + 32 ≤ 0 := by
  obtain ⟨_, hhi⟩ := placed_range hs
  have hframe := le_alignTo
    ((if fn.isVariadic then fn.scope.stackSize + fn.final.structRetTotal + 32 + 192
      else fn.scope.stackSize + fn.final.structRetTotal + 32) + 16 + fn.saved.length * 8)
    (show 0 < 16 by decide)
  show (s.2 - fn.frameSize + (8 : Nat) : Int) + fn.scope.stackSize + 32 ≤ 0
  unfold frameSize
  simp only
  cases hv : fn.isVariadic with
  | false =>
      simp only [hv, Bool.false_eq_true, if_false] at hhi hframe ⊢
      omega
  | true =>
      simp only [hv, if_true] at hhi hframe ⊢
      omega

theorem slots_clear {r : ArmReg} (hr : r ∈ fn.final.asked) :
    (∀ s ∈ fn.stores, (fn.slotSpan r).Disjoint (fn.saveSpan s.2)) ∧
      (fn.slotSpan r).Disjoint frameRecord := by
  have hslot := fn.final_slot_ne_zero r hr
  have hle := fn.final.slots.slot_le_96 r
  obtain ⟨k, hk⟩ := fn.final.slots.slot_dvd r
  constructor
  · intro s hs
    have hlow := fn.saveSpan_low hs
    have hstack := fn.scope.chain_stackSize.le
    refine .inr (show (fn.saveSpan s.2).hi ≤ -(fn.final.slots.slot r : Int) from ?_)
    omega
  · refine .inl (show -(fn.final.slots.slot r : Int) + (8 : Nat) ≤ 0 from ?_)
    omega

/-- A slot and a local have a byte in common unless one of three things is so. -/
theorem apart_iff {r : ArmReg} {v : FrameVar} :
    (∀ a, (fn.slotSpan r).Has a → ¬ v.span.Has a) ↔
      v.size = 0 ∨ v.offset + 8 ≤ fn.final.slots.slot r ∨
        fn.final.slots.slot r + v.size ≤ v.offset := by
  by_cases hsize : v.size = 0
  · refine iff_of_true ?_ (.inl hsize)
    rintro a _ ⟨hlo, hhi⟩
    simp only [FrameVar.span, Span.at] at hlo hhi
    omega
  · rw [← Span.disjoint_iff]
    · simp only [Span.Disjoint, slotSpan, FrameVar.span, Span.at]
      omega
    · simp only [slotSpan, Span.at]
      omega
    · simp only [FrameVar.span, Span.at]
      omega

/-- The first eighty bytes are the slots' own. -/
theorem local_clear {v : FrameVar} (hv : v ∈ fn.scope.locals) :
    80 + v.size ≤ v.offset := by
  obtain ⟨_, hhi⟩ := fn.scope.chain.within v.span (List.mem_map_of_mem hv)
  simp only [FrameVar.span, Span.at] at hhi
  omega

/-- `int f(int n, ...) { return n + (n + (n + (n + (n + (n + n))))); }` -/
def variadicSum : ArmCompiled where
  before := []
  vars := [⟨4, 4⟩]
  isVariadic := true
  requests := [.alloc, .alloc, .alloc, .alloc, .alloc, .alloc, .alloc, .free 6, .free 5, .free 4,
    .free 3, .free 2, .free 1, .free 0]

end ArmCompiled

end Rcc

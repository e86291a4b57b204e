import Rcc.RegAlloc

/-!
# What the generator asks of the allocator

Generating a function body is, for its frame, a run of requests: registers are
taken and freed in whatever order the tree calls for, slots are touched, room
is taken for structures. Everything here holds of every such run.

`run_spec` is the invariant. It says in terms of the requests themselves what
the allocator's counters hold at the end: which registers were ever handed out
is a matter of how many were in use when another was asked for (`Asks`), and
slots exist when one was asked for or a ninth register was.
-/

namespace Rcc

inductive Request where
  /-- `alloc_reg` -/
  | alloc
  /-- `free_reg` -/
  | free (r : Reg)
  /-- `used_regs |= …` in `gen_funcall`, for a register handed out before -/
  | remark (r : Reg)
  /-- the slot `spill_logand` is used -/
  | logand
  /-- the slot `spill_atomic_old` is used -/
  | atomicOld
  /-- `gen_funcall` saves `%r10` or `%r11`, in use around the call -/
  | scratch (r : Reg)
  /-- a buffer for a structure, by its rounded size -/
  | buffer (size : Nat)
deriving DecidableEq, Repr

/-- `used_regs |= 1 << r`. The generator marks only what it was given. -/
def remarkReg (r : Reg) : Gen Unit := fun s => if r ∈ s.everUsed then some ((), [], s.take r) else none

/-- `movq %r10, -spill_offset(0)(%rbp)`, or the same of `%r11`. -/
def saveScratch (r : Reg) : Gen Unit := fun s =>
  if r.val < 2 ∧ r ∈ s.used then
    some ((), [.op (.store .q r (s.slots.offset r).1)],
      { s with
        slots := (s.slots.offset r).2
        spilled_slot := fun q hq => s.slots.slot_offset_ne_zero r (s.spilled_slot q hq) })
  else none

/-- `fn_struct_ret_off += alloc`, and the high-water mark. -/
def takeBuffer (size : Nat) : Gen Unit := fun s =>
  some ((), [],
    { s with
      structRetOff := s.structRetOff + size
      structRetTotal :=
        if s.structRetOff + size > s.structRetTotal then s.structRetOff + size
        else s.structRetTotal })

def Request.run : Request → Gen Unit
  | .alloc => allocReg >>= fun _ => pure ()
  | .free r => freeReg r
  | .remark r => remarkReg r
  | .logand | .atomicOld => pure ()
  | .scratch r => saveScratch r
  | .buffer size => takeBuffer size

def Request.runAll : List Request → Gen Unit
  | [] => pure ()
  | q :: rest => q.run >>= fun _ => Request.runAll rest

/-- `s` is where the requests lead from the head of a function, the labels
being counted from `start` on. -/
def Request.Leads (start : Nat) (reqs : List Request) (s : GenState) : Prop :=
  ∃ code, Request.runAll reqs (GenState.init start) = some ((), code, s)

theorem Request.Leads.unique {start : Nat} {reqs : List Request} {s t : GenState}
    (hs : Leads start reqs s) (ht : Leads start reqs t) : s = t := by
  obtain ⟨_, hs⟩ := hs
  obtain ⟨_, ht⟩ := ht
  rw [hs] at ht
  cases ht
  rfl

theorem Request.runAll_snoc {reqs : List Request} {q : Request} {s s' : GenState}
    {code : List Line} (h : Request.runAll (reqs ++ [q]) s = some ((), code, s')) :
    ∃ c₁ t c₂, Request.runAll reqs s = some ((), c₁, t) ∧ q.run t = some ((), c₂, s') := by
  induction reqs generalizing s code with
  | nil =>
      obtain ⟨_, c₁, t, c₂, hq, hrest, _⟩ := Gen.bind_eq_some.mp h
      obtain ⟨_, _, rfl⟩ := Gen.pure_eq_some.mp hrest
      exact ⟨[], s, c₁, rfl, hq⟩
  | cons p rest ih =>
      obtain ⟨_, c₁, t, c₂, hp, hrest, _⟩ := Gen.bind_eq_some.mp h
      obtain ⟨c₃, t', c₄, hall, hq⟩ := ih hrest
      exact ⟨c₁ ++ c₃, t', c₄, Gen.bind_eq_some.mpr ⟨(), c₁, t, c₃, hp, hall, rfl⟩, hq⟩

theorem Request.leads_snoc {start : Nat} {reqs : List Request} {q : Request} {s' : GenState}
    (h : Leads start (reqs ++ [q]) s') :
    ∃ s code, Leads start reqs s ∧ q.run s = some ((), code, s') := by
  obtain ⟨code, hrun⟩ := h
  obtain ⟨c₁, s, c₂, hall, hq⟩ := runAll_snoc hrun
  exact ⟨s, c₂, ⟨c₁, hall⟩, hq⟩

/-! ## Reading the requests -/

/-- A register is asked for while the lowest `k` are all in use. -/
def Asks (start : Nat) (reqs : List Request) (k : Nat) : Prop :=
  ∃ before after s, reqs = before ++ .alloc :: after ∧ Request.Leads start before s ∧
    ∀ r : Reg, r.val < k → r ∈ s.used

/-- The sizes of the buffers taken, newest first. -/
def bufferSizes (reqs : List Request) : List Nat :=
  reqs.reverse.filterMap fun
    | .buffer size => some size
    | _ => none

/-- Is a call made with `%r10` or `%r11` in use? -/
def SavesScratch (reqs : List Request) : Prop := ∃ r, .scratch r ∈ reqs

variable {start : Nat}

theorem Asks.anti {reqs : List Request} {j k : Nat} (h : Asks start reqs k) (hjk : j ≤ k) :
    Asks start reqs j := by
  obtain ⟨before, after, s, hreqs, hleads, hused⟩ := h
  exact ⟨before, after, s, hreqs, hleads, fun r hr => hused r (by omega)⟩

theorem not_asks_nil (k : Nat) : ¬ Asks start [] k := by
  rintro ⟨before, after, _, hreqs, _⟩
  exact absurd hreqs (by simp)

/-- One more request asks for a register if it is an `alloc_reg`, and the
registers in use are those of the state it meets. -/
theorem asks_snoc_iff {reqs : List Request} {q : Request} {s : GenState} {k : Nat}
    (hs : Request.Leads start reqs s) :
    Asks start (reqs ++ [q]) k ↔
      Asks start reqs k ∨ q = .alloc ∧ ∀ r : Reg, r.val < k → r ∈ s.used := by
  constructor
  · rintro ⟨before, after, t, hreqs, hleads, hused⟩
    rcases List.eq_nil_or_concat after with rfl | ⟨after, last, rfl⟩
    · obtain ⟨rfl, hq⟩ := List.append_inj' hreqs rfl
      rw [hs.unique hleads]
      exact .inr ⟨List.singleton_inj.mp hq, hused⟩
    · rw [List.concat_eq_append, ← List.cons_append, ← List.append_assoc] at hreqs
      obtain ⟨hreqs, _⟩ := List.append_inj' hreqs rfl
      exact .inl ⟨before, after, t, hreqs, hleads, hused⟩
  · rintro (⟨before, after, t, rfl, hleads, hused⟩ | ⟨rfl, hused⟩)
    · refine ⟨before, after ++ [q], t, ?_, hleads, hused⟩
      rw [List.append_assoc, List.cons_append]
    · exact ⟨reqs, [], s, rfl, hs, hused⟩

theorem asks_snoc_of_ne {reqs : List Request} {q : Request} {s : GenState} {k : Nat}
    (hs : Request.Leads start reqs s) (hq : q ≠ .alloc) :
    Asks start (reqs ++ [q]) k ↔ Asks start reqs k := by
  rw [asks_snoc_iff hs]
  exact or_iff_left fun h => hq h.1

theorem savesScratch_snoc {reqs : List Request} {q : Request} (hq : ∀ r, q ≠ .scratch r) :
    SavesScratch (reqs ++ [q]) ↔ SavesScratch reqs := by
  refine exists_congr fun r => ?_
  rw [List.mem_append, List.mem_singleton]
  exact or_iff_left fun h => hq r h.symm

/-! ## The state at the end of a run -/

/-- What the requests say about the state they lead to. -/
structure RunSpec (start : Nat) (reqs : List Request) (s : GenState) : Prop where
  everUsed : ∀ r : Reg, r ∈ s.everUsed ↔ Asks start reqs r
  slots : (∃ r, s.slots.slot r ≠ 0) ↔ SavesScratch reqs ∨ Asks start reqs 8
  structRet : s.structRetOff = (bufferSizes reqs).sum ∧ s.structRetTotal = s.structRetOff

theorem bufferSizes_snoc (reqs : List Request) (q : Request) :
    bufferSizes (reqs ++ [q]) =
      match q with
      | .buffer size => size :: bufferSizes reqs
      | _ => bufferSizes reqs := by
  rw [bufferSizes, List.reverse_append, List.reverse_singleton, List.singleton_append,
    List.filterMap_cons]
  cases q <;> rfl

variable {reqs : List Request} {s s' : GenState} {code : List Line}

theorem runSpec_init : RunSpec start [] (GenState.init start) where
  everUsed r := iff_of_false (Finset.notMem_empty r) (not_asks_nil r)
  slots := by
    refine iff_of_false ?_ ?_
    · rintro ⟨r, hr⟩
      exact hr rfl
    · rintro (⟨r, hr⟩ | h)
      · exact absurd hr List.not_mem_nil
      · exact not_asks_nil 8 h
  structRet := ⟨rfl, rfl⟩

theorem runSpec_alloc (hs : Request.Leads start reqs s) (h : RunSpec start reqs s) {i : Reg}
    (hrun : allocReg s = some (i, code, s')) : RunSpec start (reqs ++ [.alloc]) s' := by
  by_cases hfull : s.used = Finset.univ
  · rw [allocReg_full hfull] at hrun
    cases hrun
    have hasks : ∀ k, Asks start (reqs ++ [.alloc]) k := fun k =>
      (asks_snoc_iff hs).mpr (.inr ⟨rfl, fun r _ => hfull ▸ Finset.mem_univ r⟩)
    have hever : ∀ r, r ∈ s.everUsed := fun r => s.used_ever (hfull ▸ Finset.mem_univ r)
    exact
      { everUsed := fun r => iff_of_true (Finset.mem_insert_of_mem (hever r)) (hasks r)
        slots := iff_of_true ⟨7, s.slots.slot_offset_self 7⟩ (.inr (hasks 8))
        structRet := by
          rw [bufferSizes_snoc]
          exact h.structRet }
  · obtain ⟨j, hj, hlow⟩ := exists_lowest_free hfull
    rw [allocReg_free hj hlow] at hrun
    cases hrun
    have hsaves : SavesScratch (reqs ++ [.alloc]) ↔ SavesScratch reqs :=
      savesScratch_snoc nofun
    exact
      { everUsed := by
          intro r
          rw [asks_snoc_iff hs, ← h.everUsed r, and_iff_right rfl]
          exact mem_insert_lowest s.used_ever hj hlow r
        slots := by
          have hnot : ¬ ∀ r : Reg, r.val < 8 → r ∈ s.used := fun hall => hj (hall i i.isLt)
          have hslots : (∃ r, (s.take i).slots.slot r ≠ 0) ↔ _ := h.slots
          rw [hsaves, hslots, asks_snoc_iff hs]
          exact or_congr_right (or_iff_left fun hall => hnot hall.2).symm
        structRet := by
          rw [bufferSizes_snoc]
          exact h.structRet }

/-- A request that neither takes a register nor touches slots or buffers. -/
theorem runSpec_quiet (hs : Request.Leads start reqs s) (h : RunSpec start reqs s) {q : Request}
    (halloc : q ≠ .alloc) (hscratch : ∀ r, q ≠ .scratch r)
    (hbuf : bufferSizes (reqs ++ [q]) = bufferSizes reqs) (hever : s'.everUsed = s.everUsed)
    (hslots : s'.slots = s.slots)
    (hret : s'.structRetOff = s.structRetOff ∧ s'.structRetTotal = s.structRetTotal) :
    RunSpec start (reqs ++ [q]) s' where
  everUsed r := by
    rw [asks_snoc_of_ne hs halloc, hever]
    exact h.everUsed r
  slots := by
    rw [savesScratch_snoc hscratch, asks_snoc_of_ne hs halloc, hslots]
    exact h.slots
  structRet := by
    rw [hbuf, hret.1, hret.2]
    exact h.structRet

theorem runSpec_free (hs : Request.Leads start reqs s) (h : RunSpec start reqs s) (i : Reg)
    {u : Unit} (hrun : freeReg i s = some (u, code, s')) :
    RunSpec start (reqs ++ [.free i]) s' := by
  have hs' : s' = s.drop i := by
    by_cases hi : i ∈ s.spilled
    · rw [freeReg_spilled hi] at hrun
      cases hrun
      rfl
    · rw [freeReg_unspilled hi] at hrun
      cases hrun
      rfl
  rw [hs']
  exact runSpec_quiet hs h nofun nofun (bufferSizes_snoc reqs _) rfl rfl ⟨rfl, rfl⟩

theorem runSpec_remark (hs : Request.Leads start reqs s) (h : RunSpec start reqs s) (i : Reg)
    {u : Unit} (hrun : remarkReg i s = some (u, code, s')) :
    RunSpec start (reqs ++ [.remark i]) s' := by
  obtain ⟨hi, heq⟩ := Option.ite_none_right_eq_some.mp hrun
  cases heq
  exact runSpec_quiet hs h nofun nofun (bufferSizes_snoc reqs _) (Finset.insert_eq_of_mem hi) rfl
    ⟨rfl, rfl⟩

theorem runSpec_scratch (hs : Request.Leads start reqs s) (h : RunSpec start reqs s) (i : Reg)
    {u : Unit} (hrun : saveScratch i s = some (u, code, s')) :
    RunSpec start (reqs ++ [.scratch i]) s' := by
  obtain ⟨_, heq⟩ := Option.ite_none_right_eq_some.mp hrun
  cases heq
  have hasks : ∀ k, Asks start (reqs ++ [.scratch i]) k ↔ Asks start reqs k := fun k =>
    asks_snoc_of_ne hs nofun
  exact
    { everUsed := fun r => (h.everUsed r).trans (hasks r).symm
      slots := iff_of_true ⟨i, s.slots.slot_offset_self i⟩
        (.inl ⟨i, List.mem_append_right reqs (List.mem_singleton_self _)⟩)
      structRet := by
        rw [bufferSizes_snoc]
        exact h.structRet }

theorem runSpec_buffer (hs : Request.Leads start reqs s) (h : RunSpec start reqs s) (size : Nat)
    {u : Unit} (hrun : takeBuffer size s = some (u, code, s')) :
    RunSpec start (reqs ++ [.buffer size]) s' := by
  cases hrun
  have hasks : ∀ k, Asks start (reqs ++ [.buffer size]) k ↔ Asks start reqs k := fun k =>
    asks_snoc_of_ne hs nofun
  exact
    { everUsed := fun r => (h.everUsed r).trans (hasks r).symm
      slots := by
        have hsaves : SavesScratch (reqs ++ [.buffer size]) ↔ SavesScratch reqs :=
          savesScratch_snoc nofun
        rw [hsaves, hasks]
        exact h.slots
      structRet := by
        obtain ⟨hoff, htotal⟩ := h.structRet
        rw [bufferSizes_snoc]
        simp only [List.sum_cons]
        refine ⟨by omega, ?_⟩
        split <;> omega }

/-- One request keeps the specification. -/
theorem runSpec_step (hs : Request.Leads start reqs s) (h : RunSpec start reqs s) {q : Request}
    (hrun : q.run s = some ((), code, s')) : RunSpec start (reqs ++ [q]) s' := by
  cases q with
  | alloc =>
      obtain ⟨i, c, t, d, halloc, hpure, _⟩ := Gen.bind_eq_some.mp hrun
      obtain ⟨_, _, rfl⟩ := Gen.pure_eq_some.mp hpure
      exact runSpec_alloc hs h halloc
  | free i => exact runSpec_free hs h i hrun
  | remark i => exact runSpec_remark hs h i hrun
  | logand =>
      obtain ⟨_, _, rfl⟩ := Gen.pure_eq_some.mp hrun
      exact runSpec_quiet hs h nofun nofun (bufferSizes_snoc reqs _) rfl rfl ⟨rfl, rfl⟩
  | atomicOld =>
      obtain ⟨_, _, rfl⟩ := Gen.pure_eq_some.mp hrun
      exact runSpec_quiet hs h nofun nofun (bufferSizes_snoc reqs _) rfl rfl ⟨rfl, rfl⟩
  | scratch i => exact runSpec_scratch hs h i hrun
  | buffer size => exact runSpec_buffer hs h size hrun

/-- Every run of requests meets its specification. -/
theorem run_spec (hs : Request.Leads start reqs s) : RunSpec start reqs s := by
  induction reqs using List.reverseRecOn generalizing s with
  | nil =>
      obtain ⟨_, hrun⟩ := hs
      cases hrun
      exact runSpec_init
  | append_singleton reqs q ih =>
      obtain ⟨t, _, ht, hrun⟩ := Request.leads_snoc hs
      exact runSpec_step ht (ih ht) hrun

end Rcc

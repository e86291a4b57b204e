import Rcc.Requests
import Rcc.Scope

/-!
# The x86-64 frame

A function's frame is laid out by counters that do not know of each other. From
`%rbp` downwards,

    the prologue pushes the callee-saved registers at -8, -16, …
    the spill slots lie at -8, -16, -24, …
    the locals at -84 and below
    the structure buffers below the locals
    and so does the save area of a variadic function.

Pushes and slots collide as soon as a function has both, and buffers and save
area likewise. `frame_intact_iff` says exactly when: in terms of how many
registers are in use when another is asked for, since that decides what is
pushed.
-/

namespace Rcc

open Spans (Span Chain)

/-! ## A compiled function -/

/-- A function definition as far as its frame goes: the parser's variables, in
order, and what the generation of the body asks of the allocator. -/
structure Compiled where
  vars : List VarTy
  isVariadic : Bool
  hasCleanup : Bool
  start : Nat
  requests : List Request
  /-- the generator's state behind the body -/
  final : GenState
  leads : Request.Leads start requests final

namespace Compiled

/-- The function whose body makes these requests. -/
def ofRequests (vars : List VarTy) (isVariadic hasCleanup : Bool) (requests : List Request)
    (h : (Request.runAll requests (GenState.init 0)).isSome) : Compiled where
  vars
  isVariadic
  hasCleanup
  start := 0
  requests
  final := ((Request.runAll requests (GenState.init 0)).get h).2.2
  leads := ⟨_, (Option.some_get h).symm⟩

variable (fn : Compiled)

def scope : Scope := declare fn.vars

def stackSize : Nat := fn.scope.stackSize

/-- The callee-saved registers of the System V convention, in push order. -/
def calleeSaved : List Reg := [2, 3, 4, 5, 6]

def pushes : List Reg := calleeSaved.filter fun r => r ∈ fn.final.everUsed

def vaRegSaveOfs : Nat := fn.stackSize + 176

/-- `need` -/
def need : Nat :=
  let need := fn.stackSize + fn.final.structRetTotal + 32
  let need := if fn.isVariadic then fn.vaRegSaveOfs else need
  if need < fn.final.slots.next then fn.final.slots.next else need

/-- `sub_amount` -/
def subAmount : Nat :=
  let pushBytes := fn.pushes.length * 8
  let sub := fn.need - pushBytes
  let sub := if sub < 32 then 32 else sub
  if (pushBytes + sub) % 16 ≠ 0 then sub + 8 else sub

/-- What the prologue takes below `%rbp`. -/
def frameSize : Nat := fn.pushes.length * 8 + fn.subAmount

/-- The slots at the end of the epilogue, which may keep `%rax` in that of
register 0 while it calls the cleanups. -/
def slots : SpillSlots :=
  if fn.hasCleanup then (fn.final.slots.offset 0).2 else fn.final.slots

/-! ## The areas -/

/-- Where the `j`th push puts its register. -/
def savedSpan (j : Nat) : Span := Span.at (-(8 * (j + 1) : Nat)) 8

def slotSpan (off : Nat) : Span := Span.at (-off) 8

def savedAreas : List Span := (List.range fn.pushes.length).map savedSpan

/-- The offsets of the slots in use. -/
def slotOffsets : List Nat :=
  (if .logand ∈ fn.requests then [fn.slots.logand] else []) ++
    ((if .atomicOld ∈ fn.requests then [fn.slots.atomicOld] else []) ++
      ((List.finRange 8).filter fun r => fn.slots.slot r ≠ 0).map fn.slots.slot)

def slotAreas : List Span := fn.slotOffsets.map slotSpan

def localAreas : List Span := fn.scope.locals.map FrameVar.span

/-- Buffers of these sizes, the newest first, under `base`. -/
def bufferSpans (base : Nat) : List Nat → List Span
  | [] => []
  | size :: older => Span.at (-(base + older.sum + size : Nat)) size :: bufferSpans base older

def bufferAreas : List Span := bufferSpans fn.stackSize (bufferSizes fn.requests)

def vaAreas : List Span := if fn.isVariadic then [Span.at (-fn.vaRegSaveOfs) 176] else []

def areas : List Span :=
  (fn.bufferAreas ++ fn.vaAreas) ++ (fn.localAreas ++ (fn.slotAreas ++ fn.savedAreas))

/-! ## Running the function -/

/-- `push`es from `depth` bytes below `%rbp` on. -/
def pushAll : List Reg → Nat → Machine → Machine
  | [], _, m => m
  | r :: rest, depth, m => pushAll rest (depth + 8) (m.store (depth + 8) 8 (m.reg r).toNat)

/-- The `pop`s, in the opposite order. -/
def popAll : List Reg → Nat → Machine → Machine
  | [], _, m => m
  | r :: rest, depth, m =>
      let m := popAll rest (depth + 8) m
      m.set r (BitVec.ofNat 64 (m.load (depth + 8) 8))

/-- A store of `k` bytes. -/
structure Store where
  addr : Int
  k : Nat
  val : Nat

def Store.span (w : Store) : Span := Span.at w.addr w.k

def Store.apply (mem : Spans.Mem) (w : Store) : Spans.Mem := Spans.store mem w.addr w.k w.val

/-- What the body may do between prologue and epilogue: it stores into the areas
that are its own and outside the frame, and it changes no allocatable register
that it was never given. -/
structure BodyRun (m m' : Machine) (writes : List Store) : Prop where
  mem : m'.mem = writes.foldl Store.apply m.mem
  place : ∀ w ∈ writes,
    (∃ a ∈ (fn.bufferAreas ++ fn.vaAreas) ++ (fn.localAreas ++ fn.slotAreas), w.span.Within a) ∨
      w.span.Disjoint ⟨-fn.frameSize, 0⟩
  reg : ∀ r, r ∉ fn.final.everUsed → m'.reg r = m.reg r

/-- The frame does what it is for. -/
structure FrameIntact : Prop where
  disjoint : fn.areas.Pairwise Span.Disjoint
  inside : ∀ a ∈ fn.areas, a.Within ⟨-fn.frameSize, 0⟩
  /-- every callee-saved register holds its entry value at `ret` -/
  restored : ∀ (entry m' : Machine) (writes : List Store),
    fn.BodyRun (pushAll fn.pushes 0 entry) m' writes →
      ∀ r ∈ calleeSaved, (popAll fn.pushes 0 m').reg r = entry.reg r
  /-- a store into a slot changes no local -/
  localsKept : ∀ a ∈ fn.slotAreas, ∀ (mem : Spans.Mem) (w : Store), w.span.Within a →
    ∀ v ∈ fn.scope.locals,
      Spans.load (w.apply mem) (-v.offset) v.size = Spans.load mem (-v.offset) v.size

/-- When it does: no fixed slot or spill slot is in use that lies where a
register was pushed, and a variadic function has no structure buffers. -/
structure Fits : Prop where
  logand : .logand ∈ fn.requests → ¬ Asks fn.start fn.requests 2
  atomicOld : .atomicOld ∈ fn.requests → ¬ Asks fn.start fn.requests 3
  slots : fn.hasCleanup = true ∨ SavesScratch fn.requests → ¬ Asks fn.start fn.requests 4
  noSpill : ¬ Asks fn.start fn.requests 8
  variadic : fn.isVariadic = true → ∀ size ∈ bufferSizes fn.requests, size = 0

/-! ## Pushes -/

theorem spec : RunSpec fn.start fn.requests fn.final := run_spec fn.leads

theorem everUsed_anti {i j : Reg} (h : i ∈ fn.final.everUsed) (hji : j ≤ i) :
    j ∈ fn.final.everUsed :=
  (fn.spec.everUsed j).mpr (((fn.spec.everUsed i).mp h).anti hji)

theorem pushes_length : fn.pushes.length = calleeSaved.countP fun r => r ∈ fn.final.everUsed :=
  List.countP_eq_length_filter.symm

/-- A register that was handed out has been pushed behind those before it. -/
theorem lt_pushes {k : Reg} (h : k ∈ fn.final.everUsed) :
    (calleeSaved.countP fun r => r ≤ k) ≤ fn.pushes.length := by
  rw [pushes_length]
  refine List.countP_mono_left fun r _ hr => ?_
  exact decide_eq_true (fn.everUsed_anti h (of_decide_eq_true hr))

theorem pushes_le {k : Reg} (h : k ∉ fn.final.everUsed) :
    fn.pushes.length ≤ calleeSaved.countP fun r => r < k := by
  rw [pushes_length]
  refine List.countP_mono_left fun r _ hr => ?_
  exact decide_eq_true (lt_of_not_ge fun hge => h (fn.everUsed_anti (of_decide_eq_true hr) hge))

theorem asks_iff_pushes {k : Reg} :
    Asks fn.start fn.requests k ↔ k ∈ fn.final.everUsed := (fn.spec.everUsed k).symm

/-- With all eight registers in use, all five were pushed. -/
theorem asks_all (h : Asks fn.start fn.requests 8) : 3 ≤ fn.pushes.length :=
  fn.lt_pushes (k := 4) (fn.asks_iff_pushes.mp (h.anti (by decide)))

/-! ## Slots -/

theorem slots_logand : fn.slots.logand = 8 := fn.slots.logand_eq

theorem mem_slotOffsets {off : Nat} :
    off ∈ fn.slotOffsets ↔
      (.logand ∈ fn.requests ∧ off = 8) ∨ (.atomicOld ∈ fn.requests ∧ off = 16) ∨
        ∃ r, fn.slots.slot r ≠ 0 ∧ fn.slots.slot r = off := by
  have hsingle : ∀ (p : Prop) [Decidable p] (x : Nat),
      off ∈ (if p then [x] else []) ↔ p ∧ off = x := by
    intro p _ x
    split
    · next hp => rw [List.mem_singleton, and_iff_right hp]
    · next hp => exact iff_of_false List.not_mem_nil fun h => hp h.1
  rw [slotOffsets, List.mem_append, List.mem_append, hsingle, hsingle, fn.slots.logand_eq,
    fn.slots.atomicOld_eq]
  refine or_congr_right (or_congr_right ?_)
  rw [List.mem_map]
  refine exists_congr fun r => ?_
  rw [List.mem_filter, and_iff_right (List.mem_finRange r), decide_eq_true_iff]

theorem slotOffsets_place {off : Nat} (h : off ∈ fn.slotOffsets) : 8 ∣ off ∧ 8 ≤ off ∧ off ≤ 80 := by
  rcases fn.mem_slotOffsets.mp h with ⟨_, rfl⟩ | ⟨_, rfl⟩ | ⟨r, hr, rfl⟩
  · omega
  · omega
  · have hge := fn.slots.slot_ge r hr
    exact ⟨fn.slots.slot_dvd r, by omega, fn.slots.slot_le r⟩

theorem slotOffsets_nodup : fn.slotOffsets.Nodup := by
  have hregs : (((List.finRange 8).filter fun r => fn.slots.slot r ≠ 0).map fn.slots.slot).Nodup := by
    refine List.Nodup.map_on ?_ ((List.nodup_finRange 8).filter _)
    intro r hr q _ heq
    exact fn.slots.slot_inj r q (of_decide_eq_true (List.mem_filter.mp hr).2) heq
  have hge : ∀ off ∈ ((List.finRange 8).filter fun r => fn.slots.slot r ≠ 0).map fn.slots.slot,
      24 ≤ off := by
    intro off hoff
    obtain ⟨r, hr, rfl⟩ := List.mem_map.mp hoff
    exact fn.slots.slot_ge r (of_decide_eq_true (List.mem_filter.mp hr).2)
  have hlogand := fn.slots.logand_eq
  have hatomic := fn.slots.atomicOld_eq
  unfold slotOffsets
  split <;> split
  · refine List.nodup_cons.mpr ⟨?_, List.nodup_cons.mpr ⟨?_, hregs⟩⟩
    · intro hmem
      rcases List.mem_cons.mp hmem with heq | hmem
      · omega
      · have := hge _ hmem
        omega
    · intro hmem
      have := hge _ hmem
      omega
  · refine List.nodup_cons.mpr ⟨fun hmem => ?_, hregs⟩
    have := hge _ hmem
    omega
  · refine List.nodup_cons.mpr ⟨fun hmem => ?_, hregs⟩
    have := hge _ hmem
    omega
  · exact hregs

/-- A spill slot is in use when a call, a cleanup or a ninth register asked for
one, and the first one is at -24. -/
theorem slot_in_use_iff :
    (∃ r, fn.slots.slot r ≠ 0) ↔
      (fn.hasCleanup = true ∨ SavesScratch fn.requests) ∨ Asks fn.start fn.requests 8 := by
  rw [or_assoc, ← fn.spec.slots]
  unfold slots
  split
  · next h => exact iff_of_true ⟨0, fn.final.slots.slot_offset_self 0⟩ (.inl h)
  · next h => exact (or_iff_right h).symm

/-! ## Disjoint areas -/

theorem slotSpan_disjoint {a b : Nat} (ha : 8 ∣ a) (hb : 8 ∣ b) (h : a ≠ b) :
    (slotSpan a).Disjoint (slotSpan b) := by
  obtain ⟨x, rfl⟩ := ha
  obtain ⟨y, rfl⟩ := hb
  simp only [Span.Disjoint, slotSpan, Span.at]
  omega

theorem savedSpan_eq (j : Nat) : savedSpan j = slotSpan (8 * (j + 1)) := rfl

theorem savedAreas_pairwise : fn.savedAreas.Pairwise Span.Disjoint := by
  refine List.Pairwise.map savedSpan (fun i j hij => ?_) List.nodup_range
  exact slotSpan_disjoint (by omega) (by omega) (by omega)

theorem slotAreas_pairwise : fn.slotAreas.Pairwise Span.Disjoint := by
  refine List.pairwise_map.mpr (fn.slotOffsets_nodup.imp_of_mem fun ha hb hab => ?_)
  exact slotSpan_disjoint (fn.slotOffsets_place ha).1 (fn.slotOffsets_place hb).1 hab

/-- Slots and pushes are apart when the slots begin below the last push. -/
theorem slots_saved_iff :
    (∀ a ∈ fn.slotAreas, ∀ b ∈ fn.savedAreas, a.Disjoint b) ↔
      ∀ off ∈ fn.slotOffsets, 8 * fn.pushes.length < off := by
  constructor
  · intro h off hoff
    obtain ⟨⟨k, rfl⟩, hge, _⟩ := fn.slotOffsets_place hoff
    by_contra hle
    have hsaved : savedSpan (k - 1) ∈ fn.savedAreas :=
      List.mem_map_of_mem (List.mem_range.mpr (by omega))
    have hdisj := h _ (List.mem_map_of_mem hoff) _ hsaved
    simp only [Span.Disjoint, slotSpan, savedSpan, Span.at] at hdisj
    omega
  · intro h a ha b hb
    obtain ⟨off, hoff, rfl⟩ := List.mem_map.mp ha
    obtain ⟨j, hj, rfl⟩ := List.mem_map.mp hb
    have hlt := h off hoff
    have hj := List.mem_range.mp hj
    exact slotSpan_disjoint (fn.slotOffsets_place hoff).1 (by omega) (by omega)

theorem bufferSpans_chain (base : Nat) (sizes : List Nat) :
    Chain (-(base + sizes.sum : Nat)) (bufferSpans base sizes) (-base) := by
  induction sizes with
  | nil => exact le_refl _
  | cons size older ih =>
      rw [List.sum_cons]
      refine ⟨?_, ?_, ih.mono ?_ (le_refl _)⟩
      · simp only [Span.at]
        omega
      · simp only [Span.at]
        omega
      · simp only [Span.at]
        omega

/-- With any room taken at all, the highest byte below the base is part of it. -/
theorem bufferSpans_has (base : Nat) {sizes : List Nat} (h : sizes.sum ≠ 0) :
    ∃ a ∈ bufferSpans base sizes, a.Has (-base - 1) := by
  induction sizes with
  | nil => exact absurd rfl h
  | cons size older ih =>
      by_cases hold : older.sum = 0
      · rw [List.sum_cons, hold] at h
        refine ⟨_, List.mem_cons_self, ?_, ?_⟩
        · simp only [Span.at]
          omega
        · simp only [Span.at]
          omega
      · obtain ⟨a, ha, hhas⟩ := ih hold
        exact ⟨a, List.mem_cons_of_mem _ ha, hhas⟩

/-! ## The size of the frame -/

theorem need_le_frameSize : fn.need ≤ fn.frameSize := by
  have hsub : fn.need - fn.pushes.length * 8 ≤ fn.subAmount := by
    unfold subAmount
    simp only
    split <;> split <;> omega
  unfold frameSize
  omega

theorem stackSize_ge : 80 ≤ fn.stackSize := by
  have h := fn.scope.chain_stackSize.le
  unfold stackSize
  omega

theorem low_le_need :
    fn.stackSize ≤ fn.need ∧
      (fn.isVariadic = false → fn.stackSize + (bufferSizes fn.requests).sum ≤ fn.need) ∧
        (fn.isVariadic = true → fn.vaRegSaveOfs ≤ fn.need) := by
  obtain ⟨hoff, htotal⟩ := fn.spec.structRet
  have hmax : (if fn.isVariadic then fn.vaRegSaveOfs
      else fn.stackSize + fn.final.structRetTotal + 32) ≤ fn.need := by
    unfold need
    simp only
    split <;> split <;> omega
  cases hv : fn.isVariadic with
  | false =>
      rw [hv, if_neg (by decide)] at hmax
      exact ⟨by omega, fun _ => by omega, nofun⟩
  | true =>
      rw [hv, if_pos rfl] at hmax
      unfold vaRegSaveOfs at hmax ⊢
      exact ⟨by omega, nofun, fun _ => by omega⟩

/-! ## The frame is in order when the function fits -/

theorem within_of_chain {lo lo' hi hi' : Int} {l : List Span} (h : Chain lo l hi) (hlo : lo' ≤ lo)
    (hhi : hi ≤ hi') : ∀ a ∈ l, a.Within ⟨lo', hi'⟩ := (h.mono hlo hhi).within

theorem Within.trans {a b c : Span} (hab : a.Within b) (hbc : b.Within c) : a.Within c :=
  ⟨le_trans hbc.1 hab.1, le_trans hab.2 hbc.2⟩

/-- Spans on either side of an address. -/
theorem disjoint_of_sides {lo mid hi : Int} {a b : Span} (ha : a.Within ⟨lo, mid⟩)
    (hb : b.Within ⟨mid, hi⟩) : a.Disjoint b := .inl (le_trans ha.2 hb.1)

theorem highAreas_within :
    ∀ a ∈ fn.slotAreas ++ fn.savedAreas, a.Within ⟨-80, 0⟩ := by
  intro a ha
  rcases List.mem_append.mp ha with ha | ha
  · obtain ⟨off, hoff, rfl⟩ := List.mem_map.mp ha
    obtain ⟨_, hge, hle⟩ := fn.slotOffsets_place hoff
    constructor
    · simp only [slotSpan, Span.at]
      omega
    · simp only [slotSpan, Span.at]
      omega
  · obtain ⟨j, hj, rfl⟩ := List.mem_map.mp ha
    have hlen : fn.pushes.length ≤ 5 := List.length_filter_le _ _
    have hj := List.mem_range.mp hj
    constructor
    · simp only [savedSpan, Span.at]
      omega
    · simp only [savedSpan, Span.at]
      omega

theorem localAreas_within : ∀ a ∈ fn.localAreas, a.Within ⟨-fn.stackSize, -80⟩ :=
  fn.scope.chain_stackSize.within

theorem vaAreas_within (a : Span) (ha : a ∈ fn.vaAreas) :
    a.Within ⟨-fn.vaRegSaveOfs, -fn.stackSize⟩ := by
  unfold vaAreas at ha
  split at ha
  · rw [List.mem_singleton] at ha
    subst ha
    constructor
    · exact le_refl _
    · simp only [Span.at, vaRegSaveOfs]
      omega
  · exact absurd ha List.not_mem_nil

theorem bufferAreas_within :
    ∀ a ∈ fn.bufferAreas,
      a.Within ⟨-(fn.stackSize + (bufferSizes fn.requests).sum : Nat), -fn.stackSize⟩ :=
  (bufferSpans_chain _ _).within

theorem lowAreas_within (h : fn.isVariadic = true → (bufferSizes fn.requests).sum = 0) :
    ∀ a ∈ fn.bufferAreas ++ fn.vaAreas, a.Within ⟨-fn.frameSize, -fn.stackSize⟩ := by
  obtain ⟨hstack, hplain, hva⟩ := fn.low_le_need
  have hframe := fn.need_le_frameSize
  intro a ha
  rcases List.mem_append.mp ha with ha | ha
  · obtain ⟨hlo, hhi⟩ := fn.bufferAreas_within a ha
    refine ⟨le_trans ?_ hlo, hhi⟩
    show -(fn.frameSize : Int) ≤ -((fn.stackSize + (bufferSizes fn.requests).sum : Nat) : Int)
    cases hv : fn.isVariadic with
    | false =>
        have := hplain hv
        omega
    | true =>
        have := h hv
        omega
  · obtain ⟨hlo, hhi⟩ := fn.vaAreas_within a ha
    refine ⟨le_trans ?_ hlo, hhi⟩
    show -(fn.frameSize : Int) ≤ -(fn.vaRegSaveOfs : Int)
    cases hv : fn.isVariadic with
    | false =>
        unfold vaAreas at ha
        rw [hv] at ha
        exact absurd ha List.not_mem_nil
    | true =>
        have := hva hv
        omega

theorem lowAreas_pairwise (h : fn.isVariadic = true → (bufferSizes fn.requests).sum = 0) :
    (fn.bufferAreas ++ fn.vaAreas).Pairwise Span.Disjoint := by
  refine List.pairwise_append.mpr ⟨(bufferSpans_chain _ _).pairwise, ?_, ?_⟩
  · unfold vaAreas
    split
    · exact List.pairwise_singleton _ _
    · exact List.Pairwise.nil
  · intro a ha b hb
    have hva : fn.isVariadic = true := by
      unfold vaAreas at hb
      split at hb
      · next hv => exact hv
      · exact absurd hb List.not_mem_nil
    obtain ⟨hlo, _⟩ := fn.bufferAreas_within a ha
    obtain ⟨_, hhi⟩ := fn.vaAreas_within b hb
    rw [h hva] at hlo
    exact .inr (le_trans hhi hlo)

theorem sum_eq_zero_of_fits (h : fn.Fits) :
    fn.isVariadic = true → (bufferSizes fn.requests).sum = 0 :=
  fun hv => List.sum_eq_zero_iff_forall_eq_nat.mpr (h.variadic hv)

/-- The slots of a function that fits lie below its pushes. -/
theorem pushes_lt_of_fits (h : fn.Fits) : ∀ off ∈ fn.slotOffsets, 8 * fn.pushes.length < off := by
  intro off hoff
  have hbelow : ∀ {k : Reg}, ¬ Asks fn.start fn.requests k →
      fn.pushes.length ≤ calleeSaved.countP fun r => r < k := fun hk =>
    fn.pushes_le (fun hever => hk (fn.asks_iff_pushes.mpr hever))
  rcases fn.mem_slotOffsets.mp hoff with ⟨hreq, rfl⟩ | ⟨hreq, rfl⟩ | ⟨r, hr, rfl⟩
  · have hle : fn.pushes.length ≤ 0 := hbelow (k := 2) (h.logand hreq)
    omega
  · have hle : fn.pushes.length ≤ 1 := hbelow (k := 3) (h.atomicOld hreq)
    omega
  · have huse := (fn.slot_in_use_iff.mp ⟨r, hr⟩).resolve_right h.noSpill
    have hle : fn.pushes.length ≤ 2 := hbelow (k := 4) (h.slots huse)
    have hge := fn.slots.slot_ge r hr
    omega

theorem pairwise_of_fits (h : fn.Fits) : fn.areas.Pairwise Span.Disjoint := by
  have hsum := fn.sum_eq_zero_of_fits h
  have hhigh : (fn.slotAreas ++ fn.savedAreas).Pairwise Span.Disjoint :=
    List.pairwise_append.mpr ⟨fn.slotAreas_pairwise, fn.savedAreas_pairwise,
      fn.slots_saved_iff.mpr (fn.pushes_lt_of_fits h)⟩
  have hmid : (fn.localAreas ++ (fn.slotAreas ++ fn.savedAreas)).Pairwise Span.Disjoint :=
    List.pairwise_append.mpr ⟨fn.scope.chain.pairwise, hhigh, fun a ha b hb =>
      disjoint_of_sides (fn.localAreas_within a ha) (fn.highAreas_within b hb)⟩
  refine List.pairwise_append.mpr ⟨fn.lowAreas_pairwise hsum, hmid, fun a ha b hb => ?_⟩
  have hb' : b.Within ⟨-fn.stackSize, 0⟩ := by
    have hstack := fn.stackSize_ge
    rcases List.mem_append.mp hb with hb | hb
    · obtain ⟨hlo, hhi⟩ := fn.localAreas_within b hb
      exact ⟨hlo, le_trans hhi (show (-80 : Int) ≤ 0 by decide)⟩
    · obtain ⟨hlo, hhi⟩ := fn.highAreas_within b hb
      exact ⟨le_trans (by simp only; omega) hlo, hhi⟩
  exact disjoint_of_sides (fn.lowAreas_within hsum a ha) hb'

theorem inside_of_fits (h : fn.Fits) : ∀ a ∈ fn.areas, a.Within ⟨-fn.frameSize, 0⟩ := by
  obtain ⟨hstack, _, _⟩ := fn.low_le_need
  have hframe := fn.need_le_frameSize
  have hge := fn.stackSize_ge
  intro a ha
  rcases List.mem_append.mp ha with ha | ha
  · obtain ⟨hlo, hhi⟩ := fn.lowAreas_within (fn.sum_eq_zero_of_fits h) a ha
    exact ⟨hlo, le_trans hhi (by simp only; omega)⟩
  · rcases List.mem_append.mp ha with ha | ha
    · obtain ⟨hlo, hhi⟩ := fn.localAreas_within a ha
      exact ⟨le_trans (by simp only; omega) hlo, le_trans hhi (show (-80 : Int) ≤ 0 by decide)⟩
    · obtain ⟨hlo, hhi⟩ := fn.highAreas_within a ha
      exact ⟨le_trans (by simp only; omega) hlo, hhi⟩

/-! ## Prologue and epilogue -/

/-- A push leaves what lies above it. -/
theorem pushAll_load (regs : List Reg) {depth : Nat} (m : Machine) {a : Int} (k : Nat)
    (h : -(depth : Int) ≤ a) :
    Spans.load (pushAll regs depth m).mem a k = Spans.load m.mem a k := by
  induction regs generalizing depth m with
  | nil => rfl
  | cons r rest ih =>
      rw [pushAll, ih _ (by omega)]
      refine Spans.load_store_disjoint _ _ (.inr ?_)
      simp only [Span.at]
      omega

/-- If the pushed bytes are there again, the pops give every pushed register its
value back and leave the others. -/
theorem popAll_reg (regs : List Reg) (depth : Nat) (entry m : Machine)
    (h : ∀ j < regs.length,
      Spans.load m.mem (-(depth + 8 * (j + 1) : Nat)) 8 =
        Spans.load (pushAll regs depth entry).mem (-(depth + 8 * (j + 1) : Nat)) 8) :
    (popAll regs depth m).mem = m.mem ∧
      (∀ r ∈ regs, (popAll regs depth m).reg r = entry.reg r) ∧
        ∀ r ∉ regs, (popAll regs depth m).reg r = m.reg r := by
  induction regs generalizing depth entry with
  | nil => exact ⟨rfl, fun r hr => absurd hr List.not_mem_nil, fun _ _ => rfl⟩
  | cons q rest ih =>
      obtain ⟨hmem, hin, hout⟩ := ih (depth + 8) (entry.store (depth + 8) 8 (entry.reg q).toNat)
        (fun j hj => by
          have := h (j + 1) (by simpa using hj)
          rw [show depth + 8 + 8 * (j + 1) = depth + 8 * (j + 1 + 1) by omega]
          exact this)
      have hval : BitVec.ofNat 64 ((popAll rest (depth + 8) m).load (depth + 8) 8) = entry.reg q := by
        have h0 := h 0 (Nat.succ_pos _)
        rw [pushAll, pushAll_load _ _ _ (by omega)] at h0
        rw [Machine.load, hmem]
        have hsame : Spans.load (entry.store (depth + 8) 8 (entry.reg q).toNat).mem
            (-(depth + 8 : Nat)) 8 = (entry.reg q).toNat % 256 ^ 8 :=
          Spans.load_store_same entry.mem _ 8 _
        rw [show depth + 8 * (0 + 1) = depth + 8 by omega, hsame] at h0
        rw [h0]
        exact BitVec.eq_of_toNat_eq (by
          rw [BitVec.toNat_ofNat]
          have := (entry.reg q).isLt
          omega)
      rw [popAll]
      refine ⟨hmem, fun r hr => ?_, fun r hr => ?_⟩
      · by_cases hrq : r = q
        · rw [hrq, Machine.set_reg, Function.update_self, hval]
        · rw [Machine.set_reg_of_ne _ _ hrq]
          exact hin r (List.mem_of_ne_of_mem hrq hr)
      · rw [List.mem_cons, not_or] at hr
        rw [Machine.set_reg_of_ne _ _ hr.1]
        exact hout r hr.2

theorem pushAll_reg (regs : List Reg) (depth : Nat) (m : Machine) :
    (pushAll regs depth m).reg = m.reg := by
  induction regs generalizing depth m with
  | nil => rfl
  | cons r rest ih => rw [pushAll, ih, Machine.store_reg]

/-- Stores apart from a span leave what is in it. -/
theorem load_writes {writes : List Store} {mem : Spans.Mem} {a : Int} {k : Nat}
    (h : ∀ w ∈ writes, (Span.at a k).Disjoint w.span) :
    Spans.load (writes.foldl Store.apply mem) a k = Spans.load mem a k := by
  induction writes generalizing mem with
  | nil => rfl
  | cons w rest ih =>
      rw [List.foldl_cons, ih fun v hv => h v (List.mem_cons_of_mem w hv)]
      exact Spans.load_store_disjoint _ _ (h w List.mem_cons_self)

theorem restored_of_disjoint (hdisj : fn.areas.Pairwise Span.Disjoint)
    (hin : ∀ a ∈ fn.areas, a.Within ⟨-fn.frameSize, 0⟩) {entry m' : Machine} {writes : List Store}
    (h : fn.BodyRun (pushAll fn.pushes 0 entry) m' writes) {r : Reg} (hr : r ∈ calleeSaved) :
    (popAll fn.pushes 0 m').reg r = entry.reg r := by
  have hsaved : ∀ j < fn.pushes.length, savedSpan j ∈ fn.savedAreas := fun j hj =>
    List.mem_map_of_mem (List.mem_range.mpr hj)
  have hsplit : fn.areas =
      ((fn.bufferAreas ++ fn.vaAreas) ++ (fn.localAreas ++ fn.slotAreas)) ++ fn.savedAreas := by
    simp only [areas, List.append_assoc]
  rw [hsplit] at hdisj hin
  obtain ⟨_, _, hcross⟩ := List.pairwise_append.mp hdisj
  have hloads : ∀ j < fn.pushes.length,
      Spans.load m'.mem (-(0 + 8 * (j + 1) : Nat)) 8 =
        Spans.load (pushAll fn.pushes 0 entry).mem (-(0 + 8 * (j + 1) : Nat)) 8 := by
    intro j hj
    rw [h.mem, show 0 + 8 * (j + 1) = 8 * (j + 1) by omega]
    refine load_writes fun w hw => ?_
    rcases h.place w hw with ⟨a, ha, hwithin⟩ | hout
    · exact ((hcross a ha _ (hsaved j hj)).mono hwithin).symm
    · exact (hout.symm.mono (hin _ (List.mem_append_right _ (hsaved j hj))))
  obtain ⟨_, hpushed, hother⟩ := popAll_reg fn.pushes 0 entry m' hloads
  by_cases hpush : r ∈ fn.pushes
  · exact hpushed r hpush
  · have hever : r ∉ fn.final.everUsed := fun hever =>
      hpush (List.mem_filter.mpr ⟨hr, decide_eq_true hever⟩)
    rw [hother r hpush, h.reg r hever, pushAll_reg]

theorem localsKept_of_disjoint (hdisj : fn.areas.Pairwise Span.Disjoint) {a : Span}
    (ha : a ∈ fn.slotAreas) (mem : Spans.Mem) {w : Store} (hw : w.span.Within a) {v : FrameVar}
    (hv : v ∈ fn.scope.locals) :
    Spans.load (w.apply mem) (-v.offset) v.size = Spans.load mem (-v.offset) v.size := by
  obtain ⟨_, hrest, _⟩ := List.pairwise_append.mp hdisj
  obtain ⟨_, _, hcross⟩ := List.pairwise_append.mp hrest
  have h := hcross v.span (List.mem_map_of_mem hv) a (List.mem_append_left _ ha)
  exact Spans.load_store_disjoint mem w.val (h.symm.mono hw).symm

/-! ## And only then -/

theorem fits_of_pairwise (h : fn.areas.Pairwise Span.Disjoint) : fn.Fits := by
  obtain ⟨hlow, hrest, _⟩ := List.pairwise_append.mp h
  obtain ⟨_, hhigh, _⟩ := List.pairwise_append.mp hrest
  obtain ⟨_, _, hcross⟩ := List.pairwise_append.mp hhigh
  have hbelow := fn.slots_saved_iff.mp hcross
  have hpush : ∀ {k : Reg}, Asks fn.start fn.requests k →
      (calleeSaved.countP fun r => r ≤ k) ≤ fn.pushes.length := fun hk =>
    fn.lt_pushes (fn.asks_iff_pushes.mp hk)
  have hslot : (∃ r, fn.slots.slot r ≠ 0) → fn.pushes.length ≤ 2 := by
    rintro ⟨r, hr⟩
    obtain ⟨q, hq⟩ := fn.slots.slot_first r hr
    have hlt := hbelow 24 (fn.mem_slotOffsets.mpr (.inr (.inr ⟨q, by omega, hq⟩)))
    omega
  exact
    { logand := by
        intro hreq hasks
        have hlt := hbelow 8 (fn.mem_slotOffsets.mpr (.inl ⟨hreq, rfl⟩))
        have hge : 1 ≤ fn.pushes.length := hpush (k := 2) hasks
        omega
      atomicOld := by
        intro hreq hasks
        have hlt := hbelow 16 (fn.mem_slotOffsets.mpr (.inr (.inl ⟨hreq, rfl⟩)))
        have hge : 2 ≤ fn.pushes.length := hpush (k := 3) hasks
        omega
      slots := by
        intro huse hasks
        have hle := hslot (fn.slot_in_use_iff.mpr (.inl huse))
        have hge : 3 ≤ fn.pushes.length := hpush (k := 4) hasks
        omega
      noSpill := by
        intro hasks
        have hle := hslot (fn.slot_in_use_iff.mpr (.inr hasks))
        have hge := fn.asks_all hasks
        omega
      variadic := by
        intro hv size hsize
        by_contra hne
        have hsum : (bufferSizes fn.requests).sum ≠ 0 := fun hsum =>
          hne (List.sum_eq_zero_iff_forall_eq_nat.mp hsum size hsize)
        obtain ⟨_, _, hva⟩ := List.pairwise_append.mp hlow
        obtain ⟨a, ha, hhas⟩ := bufferSpans_has fn.stackSize hsum
        have hmem : Span.at (-fn.vaRegSaveOfs) 176 ∈ fn.vaAreas := by
          rw [vaAreas, if_pos hv]
          exact List.mem_singleton_self _
        refine (hva a ha _ hmem).not_has hhas ⟨?_, ?_⟩
        · simp only [Span.at, vaRegSaveOfs]
          omega
        · simp only [Span.at, vaRegSaveOfs]
          omega }

/-- `int f(int a, int b) { return (a && b) + (a + b); }`: the third register is
`%rbx`, pushed where `&&` keeps its result. -/
def andPlusSum : Compiled :=
  ofRequests [⟨4, 4⟩, ⟨4, 4⟩] false false
    [.alloc, .logand, .free 0, .alloc, .logand, .free 0, .alloc, .logand, .alloc, .alloc, .free 2,
      .free 1, .free 0]
    (by decide +kernel)

end Compiled

end Rcc

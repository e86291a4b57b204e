import Mathlib
import Rcc.ArgMoves

/-!
# When the arguments are in their registers

Of the arguments that come to `%rsi` there may be one, or two if the second is moved before the first and does not go to `%rsi` itself. That
is when the first is a floating value, which waits for the second pass, and the second the first integer of the call.
-/

namespace Rcc.CallArgs

open World Spans

variable {junk values : Nat → BitVec 64} {call : Call} {g : GenState} {c c' : Cpu} {w w' : World} {lows sevens : List Item} {s s' : Slot}

/-! ## Up to the moves -/

/-- The call after its arguments for registers. -/
structure Evaluated (junk values : Nat → BitVec 64) (call : Call) (w : World) (lows sevens : List Item) (w' : World) : Prop where
  eval : evalRegArgs junk values call.slots w = some (lows ++ sevens, w')
  slots : (lows ++ sevens).map Item.slot = call.slots
  low : ∀ x ∈ lows, x.source ≠ 7 ∧ x.source ∈ w'.gen.used
  nodup : (lows.map Item.source).Nodup
  seven : ∀ x ∈ sevens, x.source = 7
  value : ∀ x ∈ lows, w'.mach.reg x.source = values x.slot.index
  asked : ∀ r ∈ (lows ++ sevens).map Item.source, r ∈ w'.gen.everUsed

/-- The first arguments, up to the last register below `%rsi`, and those behind. -/
theorem evaluate (junk values : Nat → BitVec 64) (call : Call) (w : World) :
    ∃ lows sevens w₁ w', Evaluated junk values call w lows sevens w' ∧
      evalRegArgs junk values (call.slots.take (lowFree w.gen.used)) w = some (lows, w₁) ∧
      evalRegArgs junk values (call.slots.drop (lowFree w.gen.used)) w₁ = some (sevens, w') ∧
      lows.map Item.slot = call.slots.take (lowFree w.gen.used) ∧
      (call.slots.drop (lowFree w.gen.used) ≠ [] → w₁.LowFull) := by
  obtain ⟨items, w', heval⟩ := evalRegArgs_some junk values call.slots w
  have hsplit := heval
  rw [← List.take_append_drop (lowFree w.gen.used) call.slots] at hsplit
  obtain ⟨lows, w₁, sevens, hlow, hseven, rfl⟩ := evalRegArgs_append hsplit
  have hlows := lows_of_eval (List.length_take_le _ _) hlow
  have hused : ∀ x ∈ lows, x.source ≠ 7 ∧ x.source ∈ w₁.gen.used := fun x hx =>
    ⟨(hlows.own x hx).1, (hlows.low _ (hlows.own x hx).1).mpr (.inl (List.mem_map_of_mem hx))⟩
  have hfull : call.slots.drop (lowFree w.gen.used) ≠ [] → w₁.LowFull := by
    intro hrest
    have hlen : lowFree w.gen.used < call.slots.length := by
      by_contra hle
      exact hrest (List.drop_eq_nil_iff.mpr (Nat.le_of_not_lt hle))
    have hfewer := hlows.fewer
    rw [List.length_take_of_le (Nat.le_of_lt hlen)] at hfewer
    exact lowFull_iff.mpr (by omega)
  refine ⟨lows, sevens, w₁, w', ?_, hlow, hseven, hlows.slots_eq, hfull⟩
  by_cases hrest : call.slots.drop (lowFree w.gen.used) = []
  · rw [hrest] at hseven
    cases hseven
    refine ⟨heval, ?_, hused, hlows.nodup, by simp, hlows.value, ?_⟩
    · rw [List.append_nil, hlows.slots_eq, ← List.append_nil (List.take _ _), ← hrest, List.take_append_drop]
    · rw [List.append_nil, List.forall_mem_map]
      exact hlows.asked
  · have hsevens := sevens_of_eval (hfull hrest) hseven
    refine ⟨heval, ?_, fun x hx => ⟨(hused x hx).1, hsevens.full _ (hused x hx).1⟩, hlows.nodup, hsevens.source, ?_, ?_⟩
    · rw [List.map_append, hlows.slots_eq, hsevens.slots_eq, List.take_append_drop]
    · intro x hx
      exact (hsevens.kept _ (hused x hx).1).trans (hlows.value x hx)
    · rw [List.forall_mem_map, List.forall_mem_append]
      exact ⟨fun x hx => hsevens.ever (hlows.asked x hx), hsevens.asked⟩

/-- The hidden argument may ask for a register, and keeps the others. -/
theorem Cpu.passRetBuf_spec (junk : Nat → BitVec 64) (buf : RetBuf) (c : Cpu) :
    ∃ c', c.passRetBuf junk buf = some c' ∧ Keeps c.world c'.world ∧ (buf ≠ .own → c'.world = c.world) ∧
      (buf = .own → ∃ r, Alloc c.world (junk c.world.count) (r, c'.world)) := by
  have h0 : ArgReg.gp 0 ≠ .gp 1 := by simp
  cases buf with
  | none => exact ⟨c, rfl, .refl _, fun _ => rfl, nofun⟩
  | given r =>
      refine ⟨_, rfl, ?_, fun _ => Cpu.write_world h0 _, nofun⟩
      rw [Cpu.write_world h0]
      exact .refl _
  | own =>
      obtain ⟨⟨r, w⟩, heq, halloc⟩ := alloc_spec c.world (junk c.world.count)
      refine ⟨_, by rw [Cpu.passRetBuf, heq]; rfl, ?_, fun h => absurd rfl h, fun _ => ⟨r, ?_⟩⟩
      · rw [Cpu.write_world h0]
        exact Keeps.alloc halloc
      · rw [Cpu.write_world h0]
        exact halloc

/-- The call before its moves. -/
structure AtMoves (junk values : Nat → BitVec 64) (call : Call) (c : Cpu) (lows sevens : List Item) (c' : Cpu) : Prop where
  pass : call.pass junk values c = some (moveAll c' (passes (lows ++ sevens)))
  slots : (lows ++ sevens).map Item.slot = call.slots
  low : ∀ x ∈ lows, x.source ≠ 7
  nodup : (lows.map Item.source).Nodup
  seven : ∀ x ∈ sevens, x.source = 7
  value : ∀ x ∈ lows, c'.world.mach.reg x.source = values x.slot.index

theorem Evaluated.atMoves (h : Evaluated junk values call c.world lows sevens w)
    (hstack : evalStackArgs junk values ((lows ++ sevens).map Item.source) call.stackArgs.reverse w = some w') (hkeeps : Keeps w w')
    (hretbuf : ({ c with world := w' } : Cpu).passRetBuf junk call.retBuf = some c') (hkeeps' : Keeps w' c'.world) :
    AtMoves junk values call c lows sevens c' where
  pass := by
    simp only [Call.pass, h.eval, hstack, hretbuf, Option.bind_some, movePasses_eq]
  slots := h.slots
  low x hx := (h.low x hx).1
  nodup := h.nodup
  seven := h.seven
  value x hx := by
    obtain ⟨h7, hused⟩ := h.low x hx
    rw [(hkeeps.trans hkeeps').reg _ h7 hused]
    exact h.value x hx

namespace AtMoves

theorem mem_slots (h : AtMoves junk values call c lows sevens c') : s ∈ call.slots ↔ ∃ x ∈ lows ++ sevens, x.slot = s := by
  rw [← h.slots, List.mem_map]

theorem placed (h : AtMoves junk values call c lows sevens c') (hright : ∀ x ∈ passes (lows ++ sevens),
      x.slot.arg.type.Same ((moveAll c' (passes (lows ++ sevens))).read x.slot.reg) (values x.slot.index)) :
    ∃ c', call.pass junk values c = some c' ∧ call.Placed values c' := by
  refine ⟨_, h.pass, Call.placed_iff.mpr fun s hs => ?_⟩
  obtain ⟨x, hx, rfl⟩ := h.mem_slots.mp hs
  exact hright x ((passes_perm _).mem_iff.mpr hx)

theorem not_placed {x : Item} (h : AtMoves junk values call c lows sevens c') (hx : x ∈ lows ++ sevens)
    (hwrong : ¬ x.slot.arg.type.Same ((moveAll c' (passes (lows ++ sevens))).read x.slot.reg) (values x.slot.index)) :
    ¬ ∃ c', call.pass junk values c = some c' ∧ call.Placed values c' := by
  rintro ⟨c'', hpass, hplaced⟩
  rw [h.pass, Option.some_inj] at hpass
  rw [← hpass, Call.placed_iff] at hplaced
  exact hwrong (hplaced x.slot (h.mem_slots.mpr ⟨x, hx, rfl⟩))

theorem apart (h : AtMoves junk values call c lows sevens c') : Apart (passes (lows ++ sevens)) := by
  refine apart_passes ?_
  have hslots := assignRegs_apart 0 call.hasHiddenRetbuf.toNat 0 call.args
  rw [← Call.slots, ← h.slots, List.pairwise_map] at hslots
  exact hslots

theorem lowsApart (h : AtMoves junk values call c lows sevens c') : LowsApart (passes (lows ++ sevens)) :=
  lowsApart_passes h.low h.nodup h.seven

theorem passes_eq (h : AtMoves junk values call c lows sevens c') :
    passes (lows ++ sevens) = sevens.filter (fun x => x.rsiSrc = true) ++ (lows ++ sevens.filter fun x => x.rsiSrc = false) :=
  passes_append h.low

end AtMoves

/-! ## What fits -/

/-- One argument in `%rsi`. The saved value is an older one, of the expression that the call is a part of. -/
def Call.OneFits (call : Call) (g : GenState) (s : Slot) : Prop :=
  (∀ ia ∈ call.stackArgs, ia.2.Simple) ∧
    if call.retBuf = .own then
      -- the address of the buffer comes on top of it, and is moved in its place; but then it is read back from its slot
      s.reg = .rsi ∧ (call.stackArgs = [] → s.arg.after.Flat)
    else if s.arg.type.isFlonum then ∀ t ∈ call.slots, t.reg ≠ .rsi
    else s.reg = .rsi → call.stackArgs = [] → 7 ∈ g.used → reaches (lowFree g.used) call.slots = true

/-- Two of them. -/
structure Call.TwoFit (call : Call) (s s' : Slot) : Prop where
  first : s.arg.type.isFlonum = true
  second : s'.reg = .gp 0
  noStack : call.stackArgs = []
  flat : s.arg.after.Flat
  simple : s'.arg.Simple

def Call.Fits (call : Call) (g : GenState) : Prop :=
  match call.slots.drop (lowFree g.used) with
  | [] => True
  | [s] => call.OneFits g s
  | [s, s'] => call.TwoFit s s'
  | _ => False

/-! ## When it fits -/

theorem AtMoves.all_low (h : AtMoves junk values call c lows [] c') : ∃ c', call.pass junk values c = some c' ∧ call.Placed values c' := by
  have hpasses : passes (lows ++ []) = lows := by simpa using h.passes_eq
  refine h.placed ?_
  have hapart := h.apart
  rw [hpasses] at hapart ⊢
  refine moveAll_right hapart (List.pairwise_map.mp h.nodup) ?_ (fun x hx _ h7 => absurd h7 (h.low x hx)) h.value
  exact List.pairwise_of_forall_mem_list fun x _ y hy h7 => absurd h7 (h.low y hy)

theorem rsiSrc_of_flonum (hs : s.arg.type.isFlonum = true) : (⟨s, 7⟩ : Item).rsiSrc = false := by simp [Item.rsiSrc, hs]

theorem rsiSrc_of_integer (hs : s.arg.type.isFlonum = false) : (⟨s, 7⟩ : Item).rsiSrc = true := by simp [Item.rsiSrc, hs]

/-- One in `%rsi` that waits for the others. -/
theorem AtMoves.one_last (h : AtMoves junk values call c lows [⟨s, 7⟩] c') (hflonum : s.arg.type.isFlonum = true)
    (hregs : ∀ t ∈ call.slots, t.reg ≠ .gp 1) (hrsi : c'.world.rsi = values s.index) :
    ∃ c', call.pass junk values c = some c' ∧ call.Placed values c' := by
  have hpasses : passes (lows ++ [⟨s, 7⟩]) = lows ++ [⟨s, 7⟩] := by
    rw [h.passes_eq]
    simp [rsiSrc_of_flonum hflonum]
  have hne : ∀ x ∈ lows ++ [⟨s, 7⟩], x.slot.reg ≠ .gp 1 := fun x hx => hregs _ (h.mem_slots.mpr ⟨x, hx, rfl⟩)
  refine h.placed ?_
  have hapart := h.apart
  rw [hpasses] at hapart ⊢
  refine moveAll_right hapart ?_ ?_ (fun x hx h1 => absurd h1 (hne x hx)) ?_
  · refine List.pairwise_append.mpr ⟨List.pairwise_map.mp h.nodup, List.pairwise_singleton _ _, fun x hx y hy => ?_⟩
    rw [List.mem_singleton.mp hy]
    exact h.low x hx
  · exact List.pairwise_of_forall_mem_list fun x hx _ _ _ => hne x hx
  · rw [List.forall_mem_append]
    exact ⟨h.value, List.forall_mem_singleton.mpr hrsi⟩

/-- One in `%rsi` that is moved first. -/
theorem AtMoves.one_first (h : AtMoves junk values call c lows [⟨s, 7⟩] c') (hinteger : s.arg.type.isFlonum = false)
    (hspilled : s.reg = .gp 1 → ¬ c'.world.Spilled) (hrsi : c'.world.rsi = values s.index) :
    ∃ c', call.pass junk values c = some c' ∧ call.Placed values c' := by
  have hpasses : passes (lows ++ [⟨s, 7⟩]) = ⟨s, 7⟩ :: lows := by
    rw [h.passes_eq]
    simp [rsiSrc_of_integer hinteger]
  refine h.placed ?_
  have hapart := h.apart
  rw [hpasses] at hapart ⊢
  refine moveAll_right hapart ?_ ?_ ?_ ?_
  · exact List.Pairwise.cons (fun x hx => Ne.symm (h.low x hx)) (List.pairwise_map.mp h.nodup)
  · refine List.Pairwise.cons (fun x hx h7 => absurd h7 (h.low x hx)) ?_
    exact List.pairwise_of_forall_mem_list fun _ _ y hy h7 => absurd h7 (h.low y hy)
  · rw [List.forall_mem_cons]
    exact ⟨fun h1 _ => hspilled h1, fun x hx _ h7 => absurd h7 (h.low x hx)⟩
  · rw [List.forall_mem_cons]
    exact ⟨hrsi, h.value⟩

/-- What is in registers of its own, behind a move from `%rsi`. -/
theorem AtMoves.lows_right {x : Item} {rest : List Item} (h : AtMoves junk values call c lows sevens c') (hx : x.source = 7)
    (hapart : Apart (x :: (lows ++ rest))) (hsources : ∀ y ∈ rest, y.source = 7) (hlen : rest.length ≤ 1)
    (hregs : rest = [] ∨ ∀ y ∈ lows ++ rest, y.slot.reg ≠ .gp 1)
    (hready : ∀ y ∈ rest, (c'.moved x).world.mach.reg y.source = values y.slot.index) :
    ∀ y ∈ lows ++ rest, y.slot.arg.type.Same ((moveAll (c'.moved x) (lows ++ rest)).read y.slot.reg) (values y.slot.index) := by
  refine moveAll_right hapart.of_cons ?_ ?_ ?_ ?_
  · refine List.pairwise_append.mpr ⟨List.pairwise_map.mp h.nodup, ?_, fun y hy z hz => ?_⟩
    · match rest, hlen with
      | [], _ => exact List.Pairwise.nil
      | [z], _ => exact List.pairwise_singleton _ _
    · rw [hsources z hz]
      exact h.low y hy
  · rcases hregs with rfl | hregs
    · rw [List.append_nil]
      exact List.pairwise_of_forall_mem_list fun _ _ y hy h7 => absurd h7 (h.low y hy)
    · exact List.pairwise_of_forall_mem_list fun y hy _ _ _ => hregs y hy
  · rcases hregs with rfl | hregs
    · rw [List.append_nil]
      exact fun y hy _ h7 => absurd h7 (h.low y hy)
    · exact fun y hy h1 => absurd h1 (hregs y hy)
  · rw [List.forall_mem_append]
    refine ⟨fun y hy => ?_, hready⟩
    rw [Cpu.moved_reg (h.low y hy) (hx ▸ h.low y hy)]
    exact h.value y hy

/-- One that is read back to `%rsi`, where it belongs. -/
theorem AtMoves.one_back (h : AtMoves junk values call c lows [⟨s, 7⟩] c') (h1 : s.reg = .gp 1) (hinteger : s.arg.type.isFlonum = false)
    (hspilled : c'.world.Spilled) (hsaved : c'.world.saved 7 = values s.index) :
    ∃ c', call.pass junk values c = some c' ∧ call.Placed values c' := by
  have hpasses : passes (lows ++ [⟨s, 7⟩]) = ⟨s, 7⟩ :: (lows ++ []) := by
    rw [h.passes_eq]
    simp [rsiSrc_of_integer hinteger]
  refine h.placed ?_
  have hapart := h.apart
  rw [hpasses] at hapart ⊢
  rw [List.forall_mem_cons]
  refine ⟨?_, h.lows_right rfl hapart (by simp) (by simp) (.inl rfl) (by simp)⟩
  show s.arg.type.Same ((moveAll (c'.moved ⟨s, 7⟩) (lows ++ [])).read s.reg) _
  have hkept : (moveAll (c'.moved ⟨s, 7⟩) (lows ++ [])).read s.reg = (c'.moved ⟨s, 7⟩).read s.reg :=
    moveAll_kept hapart fun _ y hy => h.low y (by simpa using hy)
  rw [hkept, h1, Cpu.read_rsi, Cpu.moved_rsi_back rfl hspilled, hsaved]
  exact ArgType.Same.refl _ _

/-- Two, of which the second is moved first. -/
theorem AtMoves.two (h : AtMoves junk values call c lows [⟨s, 7⟩, ⟨s', 7⟩] c') (hflonum : s.arg.type.isFlonum = true)
    (h0 : s'.reg = .gp 0) (hregs : ∀ t ∈ call.slots, t.reg ≠ .gp 1) (hinteger : s'.arg.type.isFlonum = false)
    (hspilled : c'.world.Spilled) (hrsi : c'.world.rsi = values s'.index) (hsaved : c'.world.saved 7 = values s.index) :
    ∃ c', call.pass junk values c = some c' ∧ call.Placed values c' := by
  have hpasses : passes (lows ++ [⟨s, 7⟩, ⟨s', 7⟩]) = ⟨s', 7⟩ :: (lows ++ [⟨s, 7⟩]) := by
    rw [h.passes_eq]
    simp [rsiSrc_of_integer hinteger, rsiSrc_of_flonum hflonum]
  refine h.placed ?_
  have hapart := h.apart
  have hne : ∀ y ∈ lows ++ [⟨s, 7⟩], y.slot.reg ≠ .gp 1 := fun y hy =>
    hregs _ (h.mem_slots.mpr ⟨y, (passes_perm _).mem_iff.mp (hpasses ▸ List.mem_cons_of_mem _ hy), rfl⟩)
  have h01 : s'.reg ≠ .gp 1 := by simp [h0]
  rw [hpasses] at hapart ⊢
  rw [List.forall_mem_cons]
  refine ⟨?_, h.lows_right rfl hapart (by simp) (by simp) (.inr hne) ?_⟩
  · show s'.arg.type.Same ((moveAll (c'.moved ⟨s', 7⟩) (lows ++ [⟨s, 7⟩])).read s'.reg) _
    have hkept : (moveAll (c'.moved ⟨s', 7⟩) (lows ++ [⟨s, 7⟩])).read s'.reg = (c'.moved ⟨s', 7⟩).read s'.reg :=
      moveAll_kept hapart fun h1 => absurd h1 h01
    have hself : (c'.moved ⟨s', 7⟩).read s'.reg = c'.value ⟨s', 7⟩ := Cpu.read_moved_self h01
    rw [hkept, hself, ← hrsi]
    exact same_moved _ _
  · refine List.forall_mem_singleton.mpr ?_
    exact (Cpu.moved_rsi_back rfl hspilled).trans hsaved

/-! ### From the evaluation to the moves -/

theorem evalRegArgs_full {slots : List Slot} {items : List Item} (hfull : w.LowFull)
    (h : evalRegArgs junk values (s :: slots) w = some (items, w')) :
    ∃ w₁ rest, items = ⟨s, 7⟩ :: rest ∧ s.arg.eval junk (values s.index) w = some (7, w₁) ∧ w₁.LowFull ∧
      w₁.rsi = values s.index ∧ evalRegArgs junk values slots w₁ = some (rest, w') := by
  obtain ⟨r, w₁, rest, w'', heval, hrest, heq⟩ := evalRegArgs_cons h
  cases heq
  obtain ⟨rfl, hfull₁⟩ := full_eval hfull heval
  exact ⟨w₁, rest, rfl, heval, hfull₁, (takes_of_eval heval).value, hrest⟩

namespace Call

theorem slots_apart (call : Call) : call.slots.Pairwise fun s s' => s.reg ≠ s'.reg := assignRegs_apart _ _ _ _

theorem slot_integer {i : Fin 6} (hs : s ∈ call.slots) (hreg : s.reg = .gp i) : s.arg.type.isFlonum = false := by
  rw [← Bool.not_eq_true, slot_flonum hs]
  simp [hreg]

theorem retBuf_of_first (hs : s ∈ call.slots) (hreg : s.reg = .gp 0) : call.hasHiddenRetbuf = false := by
  obtain ⟨before, after, -, -, h⟩ := mem_slots.mp hs
  rw [abiReg_eq, hreg] at h
  have hle := (regFrom_gp h).2
  cases hhidden : call.hasHiddenRetbuf with
  | false => rfl
  | true =>
      rw [hhidden] at hle
      exact absurd hle (by decide)

/-- If the last argument is the first integer, none has the register of the second. -/
theorem no_second {first : List Slot} (hslots : call.slots = first ++ [s]) (hreg : s.reg = .gp 0) :
    ∀ t ∈ call.slots, t.reg ≠ .gp 1 := by
  intro t ht h1
  have hhidden : call.hasHiddenRetbuf = false := retBuf_of_first (hslots ▸ List.mem_append_right _ List.mem_cons_self) hreg
  have hapart := call.slots_apart
  rw [hslots] at ht hapart
  rcases List.mem_append.mp ht with ht | ht
  · obtain ⟨A, B, rfl⟩ := List.append_of_mem ht
    rw [List.append_assoc, List.cons_append] at hslots
    obtain ⟨u, hu, hu0⟩ := assignRegs_below (n := 0) hslots h1 (by simp [hhidden]) (by decide)
    have hne := (List.pairwise_append.mp hapart).2.2 u (List.mem_append_left _ hu) s List.mem_cons_self
    exact hne (hu0.trans hreg.symm)
  · rw [List.mem_singleton.mp ht, hreg] at h1
    cases h1

end Call

/-- The last argument is the only one without a register of its own. -/
theorem reaches_last {slots : List Slot} {k : Nat} (hdrop : slots.drop k = [s]) :
    reaches k slots = false ↔ reaches k (slots.take k) = false ∧ s.arg.before.Flat ∧ s.arg.after.Flat := by
  have hlen : (slots.take k).length = k := by
    have hlast := congrArg List.length hdrop
    rw [List.length_drop, List.length_singleton] at hlast
    exact List.length_take_of_le (by omega)
  rw [← List.take_append_drop k slots, reaches_append, List.take_append_drop, hdrop, hlen, Nat.sub_self]
  simp [reaches, Work.Flat]

/-- No argument is in `%rsi`. -/
theorem none_placed (h : Evaluated junk values call c.world lows [] w) : ∃ c', call.pass junk values c = some c' ∧ call.Placed values c' := by
  obtain ⟨w₂, hstack, -, hkeeps⟩ := @evalStackArgs_induct junk values w _ call.stackArgs.reverse (fun _ => True) h.asked trivial
    fun _ _ _ _ _ _ _ => trivial
  obtain ⟨c₃, hretbuf, hkeeps', -, -⟩ := Cpu.passRetBuf_spec junk call.retBuf { c with world := w₂ }
  exact (h.atMoves hstack hkeeps hretbuf hkeeps').all_low

/-- One argument is. -/
theorem one_placed {w₁ : World} (h : Evaluated junk values call c.world lows [⟨s, 7⟩] w) (hmem : s ∈ call.slots) (hfits : call.OneFits g s)
    (hfull : w₁.LowFull) (heval : s.arg.eval junk (values s.index) w₁ = some (7, w))
    (hspilled : w.Spilled → 7 ∈ g.used ∧ reaches (lowFree g.used) call.slots = false) :
    ∃ c', call.pass junk values c = some c' ∧ call.Placed values c' := by
  obtain ⟨hsimple, hfits⟩ := hfits
  have hrsi : w.rsi = values s.index := (takes_of_eval heval).value
  have h7 : (7 : Reg) ∈ (lows ++ [(⟨s, 7⟩ : Item)]).map Item.source := by simp
  obtain ⟨w₂, hstack, ⟨hfull₂, hrsi₂, hmarks⟩, hkeeps⟩ := @stack_here junk values w _ call.stackArgs.reverse h7 h.asked
    (full_eval hfull heval).2 (by simpa using hsimple)
  obtain ⟨c₃, hretbuf, hkeeps', hnot, hown⟩ := Cpu.passRetBuf_spec junk call.retBuf { c with world := w₂ }
  have hmoves := h.atMoves hstack hkeeps hretbuf hkeeps'
  by_cases hbuf : call.retBuf = .own
  · rw [if_pos hbuf] at hfits
    have hmarked : w₂.Marked := by
      rcases hmarks with ⟨hnil, rfl⟩ | ⟨-, -, hmarked⟩
      · exact (first_marks hfull heval).1.mpr (hfits.2 (List.reverse_eq_nil_iff.mp hnil))
      · exact hmarked
    obtain ⟨r, halloc⟩ := hown hbuf
    have hlent : c₃.world = w₂.lent (junk w₂.count) := ((alloc_full hfull₂ halloc).2.resolve_left fun h => h.1 hmarked).2
    refine hmoves.one_back hfits.1 (Call.slot_integer hmem hfits.1) ?_ ?_
    · rw [hlent]
      exact lent_spilled _ _
    · rw [hlent, lent_saved]
      exact hrsi₂.trans hrsi
  · rw [if_neg hbuf] at hfits
    have hworld : c₃.world = w₂ := hnot hbuf
    have hrsi₃ : c₃.world.rsi = values s.index := by rw [hworld, hrsi₂, hrsi]
    cases hflonum : s.arg.type.isFlonum with
    | true =>
        rw [if_pos hflonum] at hfits
        exact hmoves.one_last hflonum hfits hrsi₃
    | false =>
        rw [if_neg (by simp [hflonum])] at hfits
        refine hmoves.one_first hflonum (fun h1 hs => ?_) hrsi₃
        rw [hworld] at hs
        rcases hmarks with ⟨hnil, rfl⟩ | ⟨-, hno, -⟩
        · obtain ⟨hused, hreaches⟩ := hspilled hs
          rw [hfits h1 (List.reverse_eq_nil_iff.mp hnil) hused] at hreaches
          cases hreaches
        · exact hno hs

/-- Two are. -/
theorem two_placed {w₁ w₂ : World} {first : List Slot} (h : Evaluated junk values call c.world lows [⟨s, 7⟩, ⟨s', 7⟩] w)
    (hslots : call.slots = first ++ [s']) (hfits : call.TwoFit s s')
    (hfull : w₁.LowFull) (heval : s.arg.eval junk (values s.index) w₁ = some (7, w₂))
    (heval' : s'.arg.eval junk (values s'.index) w₂ = some (7, w)) :
    ∃ c', call.pass junk values c = some c' ∧ call.Placed values c' := by
  have hmem : s' ∈ call.slots := hslots ▸ List.mem_append_right _ List.mem_cons_self
  have hhere : Here (values s.index) w₂ :=
    ⟨(full_eval hfull heval).2, (first_marks hfull heval).1.mpr hfits.flat, (takes_of_eval heval).value⟩
  obtain ⟨hbelow, hrsi⟩ := hhere.simple hfits.simple heval'
  have hstack : evalStackArgs junk values ((lows ++ [(⟨s, 7⟩ : Item), ⟨s', 7⟩]).map Item.source) call.stackArgs.reverse w = some w := by
    rw [hfits.noStack]
    rfl
  obtain ⟨c₃, hretbuf, hkeeps', hnot, -⟩ := Cpu.passRetBuf_spec junk call.retBuf { c with world := w }
  have hworld : c₃.world = w := hnot fun hown => by
    have hhidden := Call.retBuf_of_first hmem hfits.second
    simp [Call.hasHiddenRetbuf, hown] at hhidden
  refine (h.atMoves hstack (.refl w) hretbuf hkeeps').two hfits.first hfits.second (Call.no_second hslots hfits.second)
    (Call.slot_integer hmem hfits.second) ?_ ?_ ?_
  · rw [hworld]
    exact hbelow.spilled
  · rw [hworld, hrsi]
  · rw [hworld, hbelow.saved]

theorem Call.Fits.placed (hfits : call.Fits g) (junk values : Nat → BitVec 64) (hgen : c.world.gen = g) :
    ∃ c', call.pass junk values c = some c' ∧ call.Placed values c' := by
  obtain ⟨lows, sevens, w₁, w, h, hlow, hseven, hslots, hfull⟩ := evaluate junk values call c.world
  rw [hgen] at hlow hseven hslots hfull
  rw [Call.Fits] at hfits
  have happend := List.take_append_drop (lowFree g.used) call.slots
  split at hfits
  · next hdrop =>
      rw [hdrop] at hseven
      cases hseven
      exact none_placed h
  · next s hdrop =>
      rw [hdrop] at hseven hfull happend
      have hfull := hfull (by simp)
      obtain ⟨w₂, rest, rfl, heval, -, -, hrest⟩ := evalRegArgs_full hfull hseven
      cases hrest
      refine one_placed h (happend ▸ List.mem_append_right _ List.mem_cons_self) hfits hfull heval fun hspilled => ?_
      obtain ⟨hmarked, hbefore, hafter⟩ := (first_marks hfull heval).2.mp hspilled
      have hmarks := lows_marks (by rw [hgen]; exact List.length_take_le _ _) hlow
      rw [hgen] at hmarks
      obtain ⟨hused, hreaches⟩ := hmarks.mp hmarked
      exact ⟨hgen ▸ hused, (reaches_last hdrop).mpr ⟨hreaches, hbefore, hafter⟩⟩
  · next s s' hdrop =>
      rw [hdrop] at hseven hfull happend
      have hfull := hfull (by simp)
      obtain ⟨w₂, rest, rfl, heval, hfull₂, -, hseven'⟩ := evalRegArgs_full hfull hseven
      obtain ⟨w₃, rest', rfl, heval', -, -, hrest⟩ := evalRegArgs_full hfull₂ hseven'
      cases hrest
      exact two_placed h (happend.symm.trans (List.append_cons _ s [s'])) hfits hfull heval heval'
  · exact hfits.elim

/-! ## When it does not fit

Then the value of one argument can be told from all others by a bit of its low byte.
-/

/-- The value of one argument is zero, and that of all others is not. -/
def zeroAt (i : Nat) : Nat → BitVec 64 := Function.update (fun _ => 1) i 0

@[simp] theorem zeroAt_self (i : Nat) : zeroAt i i = 0 := Function.update_self i 0 _

theorem zeroAt_of_ne {i j : Nat} (h : j ≠ i) : LowByte (zeroAt i j) := by
  rw [zeroAt, Function.update_of_ne h]
  decide

theorem not_lowByte_zero : ¬ LowByte 0 := by decide

theorem lowByte_one : LowByte 1 := by decide

theorem LowByte.of_same {t : ArgType} {v v' : BitVec 64} (h : t.Same v v') (hv : LowByte v) : LowByte v' := by
  rw [LowByte, ← low_of_same h]
  exact hv

def ones : Nat → BitVec 64 := fun _ => 1

theorem ones_low (n : Nat) : LowByte (ones n) := lowByte_one

/-- All registers hold 1, and so does the slot of `%rsi`. -/
def startWorld (g : GenState) : World :=
  ⟨g, ({ reg := fun _ => 1, al := 0, flags := none, mem := fun _ => 0 } : Machine).store (g.slots.slot 7) 8 1, 0⟩

def start (g : GenState) : Cpu := ⟨startWorld g, fun _ => 0, fun _ => 0⟩

theorem start_gone (g : GenState) : Gone LowByte (startWorld g) := by
  refine ⟨lowByte_one, fun _ => ?_⟩
  have hload : (startWorld g).mach.load (g.slots.slot 7) 8 = 1 % 256 ^ 8 := Spans.load_store_same _ _ 8 1
  rw [World.saved, show (startWorld g).gen = g from rfl, hload]
  decide

/-- The other arguments. -/
theorem others_low {first rest : List Slot} (hslots : call.slots = first ++ s :: rest) :
    ∀ t ∈ first ++ rest, LowByte (zeroAt s.index t.index) := by
  intro t ht
  have hmem : ∀ u, u = s ∨ u ∈ first ++ rest → u ∈ call.slots := fun u hu => by
    rw [hslots]
    simpa [or_left_comm] using hu
  refine zeroAt_of_ne fun heq => ?_
  obtain rfl : t = s := Call.slot_unique (hmem t (.inr ht)) (hmem s (.inl rfl)) heq
  have hapart := call.slots_apart
  rw [hslots] at hapart
  rcases List.mem_append.mp ht with ht | ht
  · exact (List.pairwise_append.mp hapart).2.2 t ht t List.mem_cons_self rfl
  · exact List.rel_of_pairwise_cons (List.pairwise_append.mp hapart).2.1 ht rfl

theorem stack_low (hs : s ∈ call.slots) : ∀ ia ∈ call.stackArgs.reverse, LowByte (zeroAt s.index ia.1) := by
  intro ia hia
  exact zeroAt_of_ne (Call.stack_index hs (List.mem_reverse.mp hia))

/-! ### The moves -/

namespace AtMoves

section

variable (h : AtMoves junk (zeroAt s.index) call c lows sevens c') (hs : ⟨s, 7⟩ ∈ sevens)

include h hs

/-- Nothing with a bit in its low byte is the value of the argument. -/
theorem lost (hread : LowByte ((moveAll c' (passes (lows ++ sevens))).read s.reg)) :
    ¬ ∃ c', call.pass junk (zeroAt s.index) c = some c' ∧ call.Placed (zeroAt s.index) c' := by
  refine h.not_placed (x := ⟨s, 7⟩) (List.mem_append_right _ hs) fun hsame => ?_
  have hzero := LowByte.of_same hsame hread
  rw [zeroAt_self] at hzero
  exact not_lowByte_zero hzero

/-- What is in registers of its own are other arguments. -/
theorem lows_low : ∀ x ∈ lows, x.source ≠ 7 ∧ LowByte (c'.world.mach.reg x.source) := by
  intro x hx
  have h7 := h.low x hx
  refine ⟨h7, ?_⟩
  rw [h.value x hx]
  have hslots : call.slots = lows.map Item.slot ++ sevens.map Item.slot := by rw [← h.slots, List.map_append]
  obtain ⟨A, B, hsplit⟩ := List.append_of_mem (List.mem_map_of_mem (f := Item.slot) hs)
  rw [hsplit, ← List.append_assoc] at hslots
  exact others_low hslots x.slot (by simp [List.mem_map_of_mem hx])

theorem tainted (hrsi : LowByte c'.world.rsi) : Tainted (passes (lows ++ sevens)) c' := by
  refine ⟨fun x hx h7 => ?_, hrsi⟩
  rcases List.mem_append.mp ((passes_perm _).mem_iff.mp hx) with hx | hx
  · exact (h.lows_low hs x hx).2
  · exact absurd (h.seven x hx) h7

/-- It is neither in `%rsi` nor in the slot. -/
theorem gone_lost (hgone : Gone LowByte c'.world) :
    ¬ ∃ c', call.pass junk (zeroAt s.index) c = some c' ∧ call.Placed (zeroAt s.index) c' := by
  refine h.lost hs ?_
  have hx : (⟨s, 7⟩ : Item) ∈ passes (lows ++ sevens) := (passes_perm _).mem_iff.mpr (List.mem_append_right _ hs)
  exact (moveAll_tainted h.apart h.lowsApart (h.tainted hs hgone.rsi) hgone.saved).1 _ hx

/-- It is in the slot, but is moved before it is read back, and not to `%rsi`. -/
theorem slot_lost {A B : List Item} (hpasses : passes (lows ++ sevens) = A ++ ⟨s, 7⟩ :: B) (hA : ∀ x ∈ A, x.source ≠ 7)
    (hrsi : LowByte c'.world.rsi) (h1 : s.reg ≠ .gp 1) :
    ¬ ∃ c', call.pass junk (zeroAt s.index) c = some c' ∧ call.Placed (zeroAt s.index) c' := by
  refine h.lost hs ?_
  have hapart := h.apart
  have hlows := h.lowsApart
  have htainted := h.tainted hs hrsi
  rw [hpasses] at hapart hlows htainted ⊢
  exact moveAll_wrong hapart hlows hA htainted h1

/-- It waits in `%rsi`, and another argument is moved there. -/
theorem overwritten_lost {x : Item} (hsevens : sevens = [⟨s, 7⟩]) (hflonum : s.arg.type.isFlonum = true) (hx : x ∈ lows)
    (h1 : x.slot.reg = .gp 1) : ¬ ∃ c', call.pass junk (zeroAt s.index) c = some c' ∧ call.Placed (zeroAt s.index) c' := by
  refine h.lost hs ?_
  have hpasses : passes (lows ++ sevens) = lows ++ [⟨s, 7⟩] := by
    rw [h.passes_eq, hsevens]
    simp [rsiSrc_of_flonum hflonum]
  have hapart := h.apart
  have hlows := h.lowsApart
  rw [hpasses] at hapart hlows ⊢
  exact moveAll_overwritten hapart hlows (h.lows_low hs) hx h1 rfl

/-- It is moved to `%rsi`, and an older value is read back there. -/
theorem back_lost (hsevens : sevens = [⟨s, 7⟩]) (h1 : s.reg = .gp 1) (hinteger : s.arg.type.isFlonum = false)
    (hspilled : c'.world.Spilled) (hsaved : LowByte (c'.world.saved 7)) :
    ¬ ∃ c', call.pass junk (zeroAt s.index) c = some c' ∧ call.Placed (zeroAt s.index) c' := by
  refine h.lost hs ?_
  have hpasses : passes (lows ++ sevens) = ⟨s, 7⟩ :: lows := by
    rw [h.passes_eq, hsevens]
    simp [rsiSrc_of_integer hinteger]
  have hapart := h.apart
  rw [hpasses] at hapart ⊢
  show LowByte ((moveAll (c'.moved ⟨s, 7⟩) lows).read s.reg)
  have hkept : (moveAll (c'.moved ⟨s, 7⟩) lows).read s.reg = (c'.moved ⟨s, 7⟩).read s.reg :=
    moveAll_kept hapart fun _ => h.low
  rw [hkept, h1, Cpu.read_rsi, Cpu.moved_rsi_back rfl hspilled]
  exact hsaved

end

section

variable (h : AtMoves junk (zeroAt s.index) call c lows [⟨s, 7⟩, ⟨s', 7⟩] c') (hspilled : c'.world.Spilled)
  (hsaved : c'.world.saved 7 = 0)

include h

/-- The value of the first argument is not that of the second. -/
theorem other_lost {v : BitVec 64} (hread : (moveAll c' (passes (lows ++ [⟨s, 7⟩, ⟨s', 7⟩]))).read s'.reg = v) (hv : ¬ LowByte v) :
    ¬ ∃ c', call.pass junk (zeroAt s.index) c = some c' ∧ call.Placed (zeroAt s.index) c' := by
  refine h.not_placed (x := ⟨s', 7⟩) (by simp) fun hsame => hv ?_
  have hslots : call.slots = lows.map Item.slot ++ s :: [s'] := by
    rw [← h.slots]
    simp
  have hother : LowByte (zeroAt s.index s'.index) := others_low hslots s' (by simp)
  rw [hread] at hsame
  rw [LowByte, low_of_same hsame]
  exact hother

include hspilled hsaved

/-- The first goes to `%rsi` and is read back there; then the second is moved from `%rsi`. -/
theorem first_back_lost (h1 : s.reg = .gp 1) (hinteger : s.arg.type.isFlonum = false) :
    ¬ ∃ c', call.pass junk (zeroAt s.index) c = some c' ∧ call.Placed (zeroAt s.index) c' := by
  have hrsi : (c'.moved ⟨s, 7⟩).world.rsi = 0 := (Cpu.moved_rsi_back rfl hspilled).trans hsaved
  have hmoved : ¬ LowByte (s'.arg.type.moved 0) := by
    rw [LowByte, low_of_same (same_moved s'.arg.type 0)]
    exact not_lowByte_zero
  have hapart := h.apart
  refine h.other_lost ?_ hmoved
  rw [← hrsi]
  cases hs' : s'.arg.type.isFlonum with
  | true =>
      have hpasses : passes (lows ++ [⟨s, 7⟩, ⟨s', 7⟩]) = ⟨s, 7⟩ :: (lows ++ [⟨s', 7⟩]) := by
        rw [h.passes_eq]
        simp [rsiSrc_of_integer hinteger, rsiSrc_of_flonum hs']
      rw [hpasses] at hapart ⊢
      have hne : ∀ x ∈ lows ++ [⟨s', 7⟩], x.slot.reg ≠ .gp 1 := fun x hx heq =>
        List.rel_of_pairwise_cons hapart hx (h1.trans heq.symm)
      refine moveAll_now (x := ⟨s', 7⟩) (List.pairwise_singleton _ _) (fun x hx => ?_) rfl (hne _ (by simp))
      exact ⟨h.low x hx, hne x (List.mem_append_left _ hx)⟩
  | false =>
      have hpasses : passes (lows ++ [⟨s, 7⟩, ⟨s', 7⟩]) = ⟨s, 7⟩ :: ⟨s', 7⟩ :: lows := by
        rw [h.passes_eq]
        simp [rsiSrc_of_integer hinteger, rsiSrc_of_integer hs']
      rw [hpasses] at hapart ⊢
      have hne : s'.reg ≠ .gp 1 := fun heq => List.rel_of_pairwise_cons hapart List.mem_cons_self (h1.trans heq.symm)
      exact moveAll_now (A := []) hapart.of_cons (by simp) rfl hne

/-- The second goes to `%rsi`, where the first is read back. -/
theorem second_back_lost (hflonum : s.arg.type.isFlonum = true) (h1 : s'.reg = .gp 1) (hinteger : s'.arg.type.isFlonum = false) :
    ¬ ∃ c', call.pass junk (zeroAt s.index) c = some c' ∧ call.Placed (zeroAt s.index) c' := by
  have hpasses : passes (lows ++ [⟨s, 7⟩, ⟨s', 7⟩]) = ⟨s', 7⟩ :: (lows ++ [⟨s, 7⟩]) := by
    rw [h.passes_eq]
    simp [rsiSrc_of_integer hinteger, rsiSrc_of_flonum hflonum]
  have hapart := h.apart
  refine h.other_lost ?_ not_lowByte_zero
  rw [hpasses] at hapart ⊢
  have hne : ∀ x ∈ lows ++ [⟨s, 7⟩], x.slot.reg ≠ .gp 1 := fun x hx heq =>
    List.rel_of_pairwise_cons hapart hx (h1.trans heq.symm)
  have hrsi : (moveAll (c'.moved ⟨s', 7⟩) lows).world.rsi = 0 := by
    rw [moveAll_rsi fun x hx => ⟨h.low x hx, hne x (List.mem_append_left _ hx)⟩, Cpu.moved_rsi_back rfl hspilled, hsaved]
  have hfree : ¬ (moveAll (c'.moved ⟨s', 7⟩) lows).world.Spilled := by
    rw [moveAll_spilled h.low, Cpu.moved_spilled]
    exact fun h => h.1 rfl
  show (moveAll (c'.moved ⟨s', 7⟩) (lows ++ [⟨s, 7⟩])).read s'.reg = 0
  rw [moveAll_append, h1, Cpu.read_rsi]
  exact (Cpu.moved_rsi_kept rfl hfree (hne ⟨s, 7⟩ (by simp))).trans hrsi

omit hspilled hsaved

/-- The first waits in `%rsi`, where it has been read back, and another argument is moved there. -/
theorem second_overwritten_lost {x : Item} (hflonum : s.arg.type.isFlonum = true) (hinteger : s'.arg.type.isFlonum = false) (hx : x ∈ lows)
    (h1 : x.slot.reg = .gp 1) : ¬ ∃ c', call.pass junk (zeroAt s.index) c = some c' ∧ call.Placed (zeroAt s.index) c' := by
  have hs : (⟨s, 7⟩ : Item) ∈ [(⟨s, 7⟩ : Item), ⟨s', 7⟩] := List.mem_cons_self
  have hpasses : passes (lows ++ [⟨s, 7⟩, ⟨s', 7⟩]) = ⟨s', 7⟩ :: (lows ++ [⟨s, 7⟩]) := by
    rw [h.passes_eq]
    simp [rsiSrc_of_integer hinteger, rsiSrc_of_flonum hflonum]
  have hapart := h.apart
  have hlows := h.lowsApart
  refine h.lost hs ?_
  rw [hpasses] at hapart hlows ⊢
  refine moveAll_overwritten hapart.of_cons hlows.of_cons (fun z hz => ?_) hx h1 rfl
  obtain ⟨h7, hlow⟩ := h.lows_low hs z hz
  rw [Cpu.moved_reg h7 h7]
  exact ⟨h7, hlow⟩

end

end AtMoves

/-! ### The evaluation -/

theorem start_evaluate {rest : List Slot} (hgen : c.world.gen = g) (hstart : Gone LowByte c.world)
    (hdrop : call.slots.drop (lowFree g.used) = s :: rest) :
    ∃ lows items w₁ w₂ w, Evaluated ones (zeroAt s.index) call c.world lows (⟨s, 7⟩ :: items) w ∧ w₁.LowFull ∧ Gone LowByte w₁ ∧
      s.arg.eval ones (zeroAt s.index s.index) w₁ = some (7, w₂) ∧ evalRegArgs ones (zeroAt s.index) rest w₂ = some (items, w) ∧
      (7 ∈ g.used → reaches (lowFree g.used) (call.slots.take (lowFree g.used)) = false → w₁.Marked) ∧
      lows.map Item.slot = call.slots.take (lowFree g.used) := by
  obtain ⟨lows, sevens, w₁, w, h, hlow, hseven, hslots, hfull⟩ := evaluate ones (zeroAt s.index) call c.world
  rw [hgen] at hlow hseven hslots hfull
  rw [hdrop] at hseven hfull
  have hfull := hfull (by simp)
  obtain ⟨w₂, items, rfl, heval, -, -, hrest⟩ := evalRegArgs_full hfull hseven
  have hothers := others_low ((List.take_append_drop (lowFree g.used) call.slots).symm.trans (by rw [hdrop]))
  have hgone := gone_regArgs ones_low (fun t ht => hothers t (List.mem_append_left _ ht)) hstart hlow
  refine ⟨lows, items, w₁, w₂, w, h, hfull, hgone, heval, hrest, fun hused hreaches => ?_, hslots⟩
  have hmarks := lows_marks (by rw [hgen]; exact List.length_take_le _ _) hlow
  rw [hgen] at hmarks
  exact hmarks.mpr ⟨show 7 ∈ c.world.gen.used from hgen ▸ hused, hreaches⟩

theorem slot_mem_of_drop {k : Nat} {rest : List Slot} (hdrop : call.slots.drop k = s :: rest) : s ∈ call.slots :=
  List.mem_of_mem_drop (hdrop ▸ List.mem_cons_self)

section

variable (h : Evaluated ones (zeroAt s.index) call c.world lows sevens w) (hs : ⟨s, 7⟩ ∈ sevens)

include h hs

theorem lost_at_stack (hstack : ∃ w', evalStackArgs ones (zeroAt s.index) ((lows ++ sevens).map Item.source) call.stackArgs.reverse w =
      some w' ∧ Gone LowByte w' ∧ Keeps w w') :
    ¬ ∃ c', call.pass ones (zeroAt s.index) c = some c' ∧ call.Placed (zeroAt s.index) c' := by
  obtain ⟨w', hstack, hgone, hkeeps⟩ := hstack
  obtain ⟨c₃, hretbuf, hkeeps', hnot, hown⟩ := Cpu.passRetBuf_spec ones call.retBuf { c with world := w' }
  refine (h.atMoves hstack hkeeps hretbuf hkeeps').gone_lost hs ?_
  by_cases hbuf : call.retBuf = .own
  · obtain ⟨r, halloc⟩ := hown hbuf
    exact hgone.alloc (ones_low _) halloc
  · rw [hnot hbuf]
    exact hgone

theorem lost_at_args (hmem : s ∈ call.slots) (hgone : Gone LowByte w) :
    ¬ ∃ c', call.pass ones (zeroAt s.index) c = some c' ∧ call.Placed (zeroAt s.index) c' :=
  lost_at_stack h hs (stack_gone ones_low (stack_low hmem) h.asked hgone)

end

theorem one_lost (hgen : c.world.gen = g) (hstart : Gone LowByte c.world) (hdrop : call.slots.drop (lowFree g.used) = [s])
    (hfits : ¬ call.OneFits g s) :
    ¬ ∃ c', call.pass ones (zeroAt s.index) c = some c' ∧ call.Placed (zeroAt s.index) c' := by
  have hmem := slot_mem_of_drop hdrop
  obtain ⟨lows, items, w₁, w₂, w, h, hfull₁, hgone, heval, hrest, hmarked, hslots⟩ := start_evaluate hgen hstart hdrop
  cases hrest
  have hs : (⟨s, 7⟩ : Item) ∈ [(⟨s, 7⟩ : Item)] := List.mem_cons_self
  have h7 : (7 : Reg) ∈ (lows ++ [(⟨s, 7⟩ : Item)]).map Item.source := by simp
  have hfull := (full_eval hfull₁ heval).2
  have hsaved := hgone.eval_saved ones_low heval
  have hmarks := first_marks hfull₁ heval
  by_cases hsimple : ∀ ia ∈ call.stackArgs.reverse, ia.2.Simple
  case neg => exact lost_at_stack h hs (stack_lost ones_low (stack_low hmem) h7 h.asked hfull hsaved hsimple)
  obtain ⟨w₃, hstack, ⟨hfull₃, -, hcases⟩, hkeeps⟩ := @stack_here ones (zeroAt s.index) w₂ _ call.stackArgs.reverse h7 h.asked hfull hsimple
  obtain ⟨c₃, hretbuf, hkeeps', hnot, hown⟩ := Cpu.passRetBuf_spec ones call.retBuf { c with world := w₃ }
  have hmoves := h.atMoves hstack hkeeps hretbuf hkeeps'
  have hfits := not_and.mp hfits (by simpa using hsimple)
  by_cases hbuf : call.retBuf = .own
  · rw [if_pos hbuf] at hfits
    obtain ⟨r, halloc⟩ := hown hbuf
    by_cases hmarked₃ : w₃.Marked
    · have hlent : c₃.world = w₃.lent (ones w₃.count) := ((alloc_full hfull₃ halloc).2.resolve_left fun h => h.1 hmarked₃).2
      have hrsi : LowByte c₃.world.rsi := by
        rw [hlent, World.rsi, lent_reg, Function.update_self]
        exact ones_low _
      have h1 : s.reg ≠ .gp 1 := fun h1 => hfits ⟨h1, fun hnil => ?_⟩
      · cases hflonum : s.arg.type.isFlonum with
        | true =>
            refine hmoves.slot_lost hs (A := lows) (B := []) ?_ hmoves.low hrsi h1
            rw [hmoves.passes_eq]
            simp [rsiSrc_of_flonum hflonum]
        | false =>
            refine hmoves.slot_lost hs (A := []) (B := lows) ?_ (by simp) hrsi h1
            rw [hmoves.passes_eq]
            simp [rsiSrc_of_integer hflonum]
      · obtain ⟨-, rfl⟩ := hcases.resolve_right fun h => h.1 (List.reverse_eq_nil_iff.mpr hnil)
        exact hmarks.1.mp hmarked₃
    · exact hmoves.gone_lost hs (Loose.alloc ⟨hfull₃, hmarked₃⟩ (ones_low _) halloc)
  · rw [if_neg hbuf] at hfits
    have hworld : c₃.world = w₃ := hnot hbuf
    cases hflonum : s.arg.type.isFlonum with
    | true =>
        rw [if_pos hflonum] at hfits
        push Not at hfits
        obtain ⟨t, ht, h1⟩ := hfits
        obtain ⟨x, hx, rfl⟩ := hmoves.mem_slots.mp ht
        rcases List.mem_append.mp hx with hx | hx
        · exact hmoves.overwritten_lost hs rfl hflonum hx h1
        · obtain rfl := List.mem_singleton.mp hx
          rw [Call.slot_integer hmem h1] at hflonum
          cases hflonum
    | false =>
        rw [if_neg (by simp [hflonum])] at hfits
        push Not at hfits
        obtain ⟨h1, hnil, hused, hreaches⟩ := hfits
        obtain ⟨-, rfl⟩ := hcases.resolve_right fun h => h.1 (List.reverse_eq_nil_iff.mpr hnil)
        obtain ⟨hlows, hbefore, hafter⟩ := (reaches_last hdrop).mp (Bool.eq_false_iff.mpr hreaches)
        have hspilled : w₃.Spilled := hmarks.2.mpr ⟨hmarked hused hlows, hbefore, hafter⟩
        rw [← hworld] at hspilled hsaved
        exact hmoves.back_lost hs rfl h1 hflonum hspilled (hsaved hspilled)

theorem two_lost (hgen : c.world.gen = g) (hstart : Gone LowByte c.world) (hdrop : call.slots.drop (lowFree g.used) = [s, s'])
    (hfits : ¬ call.TwoFit s s') :
    ¬ ∃ c', call.pass ones (zeroAt s.index) c = some c' ∧ call.Placed (zeroAt s.index) c' := by
  have hmem := slot_mem_of_drop hdrop
  have hslots : call.slots = call.slots.take (lowFree g.used) ++ s :: [s'] := by rw [← hdrop, List.take_append_drop]
  have hmem' : s' ∈ call.slots := hslots ▸ by simp
  have hother : LowByte (zeroAt s.index s'.index) := others_low hslots s' (by simp)
  obtain ⟨lows, items, w₁, w₂, w, h, hfull₁, hgone, heval, hrest, -, hlows⟩ := start_evaluate hgen hstart hdrop
  have hfull₂ := (full_eval hfull₁ heval).2
  obtain ⟨w₃, items', rfl, heval', hfull, hrsi, hrest'⟩ := evalRegArgs_full hfull₂ hrest
  cases hrest'
  have hs : (⟨s, 7⟩ : Item) ∈ [(⟨s, 7⟩ : Item), ⟨s', 7⟩] := List.mem_cons_self
  by_cases hflat : s.arg.after.Flat
  case neg =>
    have hfree : ¬ w₂.Marked := fun hmarked => hflat ((first_marks hfull₁ heval).1.mp hmarked)
    exact lost_at_args h hs hmem (Loose.eval ones_low hother ⟨hfull₂, hfree⟩ heval')
  have hhere : Here (zeroAt s.index s.index) w₂ := ⟨hfull₂, (first_marks hfull₁ heval).1.mpr hflat, (takes_of_eval heval).value⟩
  by_cases hsimple : s'.arg.Simple
  case neg => exact lost_at_args h hs hmem (hhere.not_simple ones_low hother (hgone.eval_saved ones_low heval) hsimple heval')
  have hbelow := (hhere.simple hsimple heval').1
  have hrsi_low : LowByte w.rsi := hrsi ▸ hother
  by_cases hnil : call.stackArgs = []
  case neg => exact lost_at_stack h hs (stack_buried ones_low (stack_low hmem) h.asked ⟨hfull, hrsi_low⟩ (by simpa using hnil))
  have hstack : evalStackArgs ones (zeroAt s.index) ((lows ++ [(⟨s, 7⟩ : Item), ⟨s', 7⟩]).map Item.source) call.stackArgs.reverse w =
      some w := by
    rw [hnil]
    rfl
  obtain ⟨c₃, hretbuf, hkeeps', hnot, hown⟩ := Cpu.passRetBuf_spec ones call.retBuf { c with world := w }
  have hmoves := h.atMoves hstack (.refl w) hretbuf hkeeps'
  by_cases hbuf : call.retBuf = .own
  · obtain ⟨r, halloc⟩ := hown hbuf
    exact hmoves.gone_lost hs (gone_alloc hfull hrsi_low (ones_low _) halloc)
  have hworld : c₃.world = w := hnot hbuf
  have hspilled : c₃.world.Spilled := hworld ▸ hbelow.spilled
  have hsaved : c₃.world.saved 7 = 0 := by rw [hworld, hbelow.saved, zeroAt_self]
  have hrsi₃ : LowByte c₃.world.rsi := hworld ▸ hrsi_low
  cases hflonum : s.arg.type.isFlonum with
  | false =>
      by_cases h1 : s.reg = .gp 1
      · exact hmoves.first_back_lost hspilled hsaved h1 hflonum
      · obtain ⟨B, hpasses⟩ : ∃ B, passes (lows ++ [⟨s, 7⟩, ⟨s', 7⟩]) = [] ++ ⟨s, 7⟩ :: B := by
          rw [hmoves.passes_eq, List.filter_cons_of_pos (by simp [rsiSrc_of_integer hflonum])]
          exact ⟨_, rfl⟩
        exact hmoves.slot_lost hs hpasses (by simp) hrsi₃ h1
  | true =>
      obtain ⟨i, hreg⟩ := (Call.slot_flonum hmem).mp hflonum
      cases hreg' : s'.reg with
      | xmm j =>
          refine hmoves.slot_lost hs (A := lows) (B := [⟨s', 7⟩]) ?_ hmoves.low hrsi₃ (by simp [hreg])
          have hflonum' := (Call.slot_flonum hmem').mpr ⟨j, hreg'⟩
          rw [hmoves.passes_eq]
          simp [rsiSrc_of_flonum hflonum, rsiSrc_of_flonum hflonum']
      | gp j =>
          have hinteger := Call.slot_integer hmem' hreg'
          by_cases h0 : j = 0
          · exact absurd ⟨hflonum, hreg'.trans (congrArg _ h0), hnil, hflat, hsimple⟩ hfits
          · by_cases h1 : j = 1
            · exact hmoves.second_back_lost hspilled hsaved hflonum (hreg'.trans (congrArg _ h1)) hinteger
            · have hlast := hslots.trans (List.append_cons _ s [s'])
              obtain ⟨t, ht, ht1⟩ := assignRegs_below (n := 1) hlast hreg' (Bool.toNat_le _) (by omega)
              rcases List.mem_append.mp ht with ht | ht
              · rw [← hlows] at ht
                obtain ⟨x, hx, rfl⟩ := List.mem_map.mp ht
                exact hmoves.second_overwritten_lost hflonum hinteger hx ht1
              · rw [List.mem_singleton.mp ht, hreg] at ht1
                cases ht1

theorem three_lost {s'' : Slot} {rest : List Slot} (hgen : c.world.gen = g) (hstart : Gone LowByte c.world)
    (hdrop : call.slots.drop (lowFree g.used) = s :: s' :: s'' :: rest) :
    ¬ ∃ c', call.pass ones (zeroAt s.index) c = some c' ∧ call.Placed (zeroAt s.index) c' := by
  have hslots : call.slots = call.slots.take (lowFree g.used) ++ s :: s' :: s'' :: rest := by rw [← hdrop, List.take_append_drop]
  have hothers := others_low hslots
  obtain ⟨lows, items, w₁, w₂, w, h, hfull₁, -, heval, hrest, -, -⟩ := start_evaluate hgen hstart hdrop
  obtain ⟨w₃, items', rfl, heval', hfull₃, hrsi, hrest'⟩ := evalRegArgs_full (full_eval hfull₁ heval).2 hrest
  obtain ⟨r, w₄, items'', w', heval'', hrest'', heq⟩ := evalRegArgs_cons hrest'
  cases heq
  have hhas : Has LowByte w₃ := ⟨hfull₃, hrsi ▸ hothers s' (by simp)⟩
  have hgone := gone_regArgs ones_low (fun t ht => hothers t (by simp [ht])) (hhas.eval ones_low (hothers s'' (by simp)) heval'') hrest''
  exact lost_at_args h List.mem_cons_self (slot_mem_of_drop hdrop) hgone

end Rcc.CallArgs

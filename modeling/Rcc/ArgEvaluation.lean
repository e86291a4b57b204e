import Mathlib
import Rcc.CallArgs

/-!
# Where the arguments are at the call

As registers are handed out from below, the arguments that come first have registers of their own, and these are no argument registers.
The rest share `%rsi`, and that is one. So everything turns on `%rsi` and its slot: a value in `%rsi` gets over one allocation (it is in the
slot meanwhile), but not over two, and not over a call.

Lost values are followed with a property that all values have but one. If `%rsi` has it, and the slot too as long as it is to be read back,
then the one value is nowhere, and what is moved from `%rsi` has the property (`Gone`).
-/

namespace Rcc.CallArgs

open Spans (Mem)

variable {junk values : Nat → BitVec 64} {w w' : World} {r : Reg} {v : BitVec 64}

/-! ## The allocator -/

namespace World

/-- `%rsi` -/
def rsi (w : World) : BitVec 64 := w.mach.reg 7

/-- What `free_reg` would read back into a register. -/
def saved (w : World) (r : Reg) : BitVec 64 := BitVec.ofNat 64 (w.mach.load (w.gen.slots.slot r) 8)

/-- `%rsi` is in use. -/
def Marked (w : World) : Prop := 7 ∈ w.gen.used

/-- `%rsi` has an older value in its slot. -/
def Spilled (w : World) : Prop := 7 ∈ w.gen.spilled

theorem Spilled.marked (h : w.Spilled) : w.Marked := w.gen.spilled_used h

/-- All registers but `%rsi` are in use. -/
def LowFull (w : World) : Prop := ∀ r : Reg, r ≠ 7 → r ∈ w.gen.used

/-- A free register is handed out. -/
def took (w : World) (r : Reg) (v : BitVec 64) : World := ⟨w.gen.take r, w.mach.set r v, w.count + 1⟩

/-- `%rsi` is handed out a second time. -/
def lent (w : World) (v : BitVec 64) : World :=
  ⟨w.gen.spill 7, (w.mach.store (w.gen.slots.offset 7).1 8 (w.mach.reg 7).toNat).set 7 v, w.count + 1⟩

/-- A register is given back. -/
def freed (w : World) (r : Reg) : World :=
  ⟨w.gen.drop r, if r ∈ w.gen.spilled then w.mach.set r (w.saved r) else w.mach, w.count⟩

/-- Which register is handed out, and how. -/
inductive Alloc (w : World) (v : BitVec 64) : Reg × World → Prop
  | low {r : Reg} (h7 : r ≠ 7) (hfree : r ∉ w.gen.used) (hleast : ∀ j < r, j ∈ w.gen.used) : Alloc w v (r, w.took r v)
  | last (hfull : w.LowFull) (hfree : ¬ w.Marked) : Alloc w v (7, w.took 7 v)
  | again (hfull : w.LowFull) (hused : w.Marked) : Alloc w v (7, w.lent v)

theorem lowFull_of_least (hleast : ∀ j < (7 : Reg), j ∈ w.gen.used) : w.LowFull := fun r hr =>
  hleast r (lt_of_le_of_ne (Fin.le_last r) hr)

theorem alloc_spec (w : World) (v : BitVec 64) : ∃ x, w.alloc v = some x ∧ Alloc w v x := by
  by_cases hall : w.gen.used = Finset.univ
  · refine ⟨(7, w.lent v), ?_, .again (fun r _ => hall ▸ Finset.mem_univ r) (show 7 ∈ w.gen.used from hall ▸ Finset.mem_univ 7)⟩
    rw [alloc, allocReg_full hall]
    rfl
  · obtain ⟨r, hfree, hleast⟩ := exists_lowest_free hall
    have halloc : w.alloc v = some (r, w.took r v) := by
      rw [alloc, allocReg_free hfree hleast]
      rfl
    by_cases h7 : r = 7
    · subst h7
      exact ⟨_, halloc, .last (lowFull_of_least hleast) hfree⟩
    · exact ⟨_, halloc, .low h7 hfree hleast⟩

theorem alloc_cases {x : Reg × World} (h : w.alloc v = some x) : Alloc w v x := by
  obtain ⟨y, hy, halloc⟩ := alloc_spec w v
  rw [hy, Option.some_inj] at h
  exact h ▸ halloc

theorem free_eq (w : World) (r : Reg) : w.free r = some (w.freed r) := by
  rw [free, freed]
  by_cases h : r ∈ w.gen.spilled
  · rw [freeReg_spilled h, if_pos h]
    rfl
  · rw [freeReg_unspilled h, if_neg h]
    rfl

/-! ### What the steps leave -/

@[simp] theorem took_used (w : World) (r : Reg) (v : BitVec 64) : (w.took r v).gen.used = insert r w.gen.used := rfl
@[simp] theorem took_spilled (w : World) (r : Reg) (v : BitVec 64) : (w.took r v).Spilled ↔ w.Spilled := Iff.rfl
@[simp] theorem took_saved (w : World) (r q : Reg) (v : BitVec 64) : (w.took r v).saved q = w.saved q := rfl
@[simp] theorem took_reg (w : World) (r : Reg) (v : BitVec 64) : (w.took r v).mach.reg = Function.update w.mach.reg r v := rfl
@[simp] theorem lent_spilled (w : World) (v : BitVec 64) : (w.lent v).Spilled := Finset.mem_insert_self 7 _
@[simp] theorem lent_reg (w : World) (v : BitVec 64) : (w.lent v).mach.reg = Function.update w.mach.reg 7 v := rfl
@[simp] theorem freed_used (w : World) (r : Reg) : (w.freed r).gen.used = w.gen.used.erase r := rfl
@[simp] theorem called_reg (w : World) (v : BitVec 64) : (w.called v).mach.reg = Function.update w.mach.reg 7 v := rfl
@[simp] theorem put_gen (w : World) (r : Reg) (v : BitVec 64) : (w.put r v).gen = w.gen := rfl
@[simp] theorem put_reg (w : World) (r : Reg) (v : BitVec 64) : (w.put r v).mach.reg = Function.update w.mach.reg r v := rfl
@[simp] theorem put_saved (w : World) (r q : Reg) (v : BitVec 64) : (w.put r v).saved q = w.saved q := rfl
@[simp] theorem put_spilled (w : World) (r : Reg) (v : BitVec 64) : (w.put r v).Spilled ↔ w.Spilled := Iff.rfl
@[simp] theorem put_marked (w : World) (r : Reg) (v : BitVec 64) : (w.put r v).Marked ↔ w.Marked := Iff.rfl

theorem lent_used {q : Reg} (hfull : w.LowFull) : q ∈ (w.lent v).gen.used := by
  show q ∈ insert 7 (w.gen.used.erase 7)
  by_cases hq : q = 7
  · exact Finset.mem_insert.mpr (.inl hq)
  · exact Finset.mem_insert_of_mem (Finset.mem_erase.mpr ⟨hq, hfull q hq⟩)

/-- The slot has what was in `%rsi`. -/
theorem lent_saved (w : World) (v : BitVec 64) : (w.lent v).saved 7 = w.rsi := by
  have hslot : (w.lent v).gen.slots.slot 7 = (w.gen.slots.offset 7).1 := w.gen.slots.offset_slot 7
  have hload : (w.lent v).mach.load (w.gen.slots.offset 7).1 8 = (w.mach.reg 7).toNat % 256 ^ 8 :=
    Spans.load_store_same w.mach.mem _ 8 _
  rw [saved, hslot, hload]
  refine BitVec.eq_of_toNat_eq ?_
  rw [BitVec.toNat_ofNat]
  have := w.rsi.isLt
  rw [rsi] at this ⊢
  omega

theorem freed_reg_of_ne {q : Reg} (h : q ≠ r) : (w.freed r).mach.reg q = w.mach.reg q := by
  rw [freed]
  split
  · exact w.mach.set_reg_of_ne _ h
  · rfl

theorem freed_saved (q : Reg) : (w.freed r).saved q = w.saved q := by
  rw [freed]
  split <;> rfl

theorem freed_spilled : (w.freed r).Spilled ↔ 7 ≠ r ∧ w.Spilled := Finset.mem_erase

theorem freed_rsi_of_spilled (h : w.Spilled) : (w.freed 7).rsi = w.saved 7 := by
  rw [freed, if_pos (show 7 ∈ w.gen.spilled from h)]
  exact Function.update_self 7 (w.saved 7) w.mach.reg

theorem freed_rsi_of_not (h : ¬ w.Spilled) : (w.freed 7).rsi = w.rsi := by
  rw [freed, if_neg (show 7 ∉ w.gen.spilled from h)]
  rfl

end World

open World

/-- The registers below `%rsi` that were in use still are, with what they held, and no others. -/
structure Frame (w w' : World) : Prop where
  low : ∀ r : Reg, r ≠ 7 → (r ∈ w'.gen.used ↔ r ∈ w.gen.used)
  kept : ∀ r : Reg, r ≠ 7 → r ∈ w.gen.used → w'.mach.reg r = w.mach.reg r
  ever : w.gen.everUsed ⊆ w'.gen.everUsed

namespace Frame

theorem refl (w : World) : Frame w w := ⟨fun _ _ => Iff.rfl, fun _ _ _ => rfl, Finset.Subset.refl _⟩

theorem trans {w₁ w₂ w₃ : World} (h : Frame w₁ w₂) (h' : Frame w₂ w₃) : Frame w₁ w₃ where
  low r hr := (h'.low r hr).trans (h.low r hr)
  kept r hr hused := (h'.kept r hr ((h.low r hr).mpr hused)).trans (h.kept r hr hused)
  ever := h.ever.trans h'.ever

theorem lowFull (h : Frame w w') : w'.LowFull ↔ w.LowFull :=
  forall₂_congr fun r hr => h.low r hr

theorem put (w : World) (v : BitVec 64) : Frame w (w.put 7 v) :=
  ⟨fun _ _ => Iff.rfl, fun _ hr _ => w.mach.set_reg_of_ne v hr, Finset.Subset.refl _⟩

theorem called (w : World) (v : BitVec 64) : Frame w (w.called v) :=
  ⟨fun _ _ => Iff.rfl, fun _ hr _ => w.mach.set_reg_of_ne v hr, Finset.Subset.refl _⟩

theorem freed (w : World) : Frame w (w.freed 7) where
  low r hr := by simp [hr]
  kept r hr _ := freed_reg_of_ne hr
  ever := Finset.Subset.refl _

/-- An allocation, something that keeps to its frame, and the release. -/
theorem temp {x : Reg × World} (h : Alloc w v x) (hinner : Frame x.2 w') : Frame w (w'.freed x.1) := by
  cases h with
  | low h7 hfree hleast =>
      rename_i r
      refine ⟨fun q hq => ?_, fun q hq hused => ?_, (Finset.subset_insert r w.gen.everUsed).trans hinner.ever⟩
      · have hlow := hinner.low q hq
        simp only [took_used, Finset.mem_insert] at hlow
        rw [freed_used, Finset.mem_erase, hlow]
        refine ⟨fun h => h.2.resolve_left h.1, fun h => ⟨fun heq => hfree ?_, .inr h⟩⟩
        exact show r ∈ w.gen.used from (show q = r from heq) ▸ h
      · have hne : q ≠ r := fun heq => hfree (heq ▸ hused)
        rw [freed_reg_of_ne hne, hinner.kept q hq (Finset.mem_insert_of_mem hused)]
        exact w.mach.set_reg_of_ne v hne
  | last hfull hfree =>
      refine trans ?_ (hinner.trans (freed w'))
      refine ⟨fun q hq => ?_, fun q hq _ => w.mach.set_reg_of_ne v hq, Finset.subset_insert 7 w.gen.everUsed⟩
      simp [hq]
  | again hfull hused =>
      refine trans ?_ (hinner.trans (freed w'))
      refine ⟨fun q hq => ?_, fun q hq _ => Function.update_of_ne hq _ _, Finset.subset_insert 7 w.gen.everUsed⟩
      exact iff_of_true (lent_used hfull) (hfull q hq)

end Frame

/-! ## Work -/

theorem run_temp {inner next : Work} (h : (Work.temp inner next).run junk w = some w') :
    ∃ r w₁ w₂, Alloc w (junk w.count) (r, w₁) ∧ inner.run junk w₁ = some w₂ ∧ next.run junk (w₂.freed r) = some w' := by
  rw [Work.run, Option.bind_eq_some_iff] at h
  obtain ⟨⟨r, w₁⟩, halloc, h⟩ := h
  obtain ⟨w₂, hinner, h⟩ := Option.bind_eq_some_iff.mp h
  rw [free_eq, Option.bind_some] at h
  exact ⟨r, w₁, w₂, alloc_cases halloc, hinner, h⟩

/-- Work is always done, and keeps to its frame. -/
theorem run_frame (junk : Nat → BitVec 64) (work : Work) (w : World) : ∃ w', work.run junk w = some w' ∧ Frame w w' := by
  induction work generalizing w with
  | done => exact ⟨w, rfl, .refl w⟩
  | temp inner next ihInner ihNext =>
      obtain ⟨⟨r, w₁⟩, hx, halloc⟩ := alloc_spec w (junk w.count)
      obtain ⟨w₂, hinner, hframe⟩ := ihInner w₁
      obtain ⟨w₃, hnext, hframe'⟩ := ihNext (w₂.freed r)
      refine ⟨w₃, ?_, (Frame.temp halloc hframe).trans hframe'⟩
      rw [Work.run, hx, Option.bind_some]
      show (inner.run junk w₁).bind _ = _
      rw [hinner, Option.bind_some, free_eq, Option.bind_some, hnext]
  | call next ih =>
      obtain ⟨w', hnext, hframe⟩ := ih (w.called (junk w.count))
      exact ⟨w', hnext, (Frame.called w (junk w.count)).trans hframe⟩

theorem frame_of_run {work : Work} (h : work.run junk w = some w') : Frame w w' := by
  obtain ⟨w'', hrun, hframe⟩ := run_frame junk work w
  rw [hrun, Option.some_inj] at h
  exact h ▸ hframe

/-! ## `%rsi` and its slot -/

/-- A value that is in `%rsi`, which is in use. -/
structure Here (v : BitVec 64) (w : World) : Prop where
  full : w.LowFull
  marked : w.Marked
  rsi : w.rsi = v

/-- A value that is in the slot, and comes back when `%rsi` is freed. -/
structure Below (v : BitVec 64) (w : World) : Prop where
  full : w.LowFull
  spilled : w.Spilled
  saved : w.saved 7 = v

/-- `%rsi` has the property, and so has the slot, as far as it is read again. -/
structure Gone (p : BitVec 64 → Prop) (w : World) : Prop where
  rsi : p w.rsi
  saved : w.Spilled → p (w.saved 7)

/-- Work that asks for a register when, of `low` free ones below `%rsi`, none is left. -/
def Work.reaches (low : Nat) : Work → Bool
  | .done => false
  | .temp inner next => low = 0 || inner.reaches (low - 1) || next.reaches low
  | .call next => next.reaches low

/-- Work that takes no register. -/
def Work.Flat (work : Work) : Prop := work.reaches 0 = false

/-- An argument for which one register is taken, and no function called before. -/
structure Arg.Simple (a : Arg) : Prop where
  before : a.before = .done
  after : a.after.Flat

variable {p : BitVec 64 → Prop} {a : Arg} {work : Work}

theorem alloc_full {x : Reg × World} (hfull : w.LowFull) (h : Alloc w v x) :
    x.1 = 7 ∧ ((¬ w.Marked ∧ x.2 = w.took 7 v) ∨ (w.Marked ∧ x.2 = w.lent v)) := by
  cases h with
  | low h7 hfree _ => exact absurd (hfull _ h7) hfree
  | last _ hfree => exact ⟨rfl, .inl ⟨hfree, rfl⟩⟩
  | again _ hused => exact ⟨rfl, .inr ⟨hused, rfl⟩⟩

theorem took_full (hfull : w.LowFull) : (w.took 7 v).LowFull := fun q hq => Finset.mem_insert_of_mem (hfull q hq)

theorem lent_full (hfull : w.LowFull) : (w.lent v).LowFull := fun _ _ => lent_used hfull

theorem freed_full (hfull : w.LowFull) : (w.freed 7).LowFull := fun q hq => Finset.mem_erase.mpr ⟨hq, hfull q hq⟩

/-- Two values on top of each other: when `%rsi` is taken anew, the value that is in the slot is lost. -/
theorem gone_alloc {x : Reg × World} (hfull : w.LowFull) (hrsi : p w.rsi) (hv : p v) (h : Alloc w v x) : Gone p x.2 := by
  obtain ⟨-, ⟨hfree, hx⟩ | ⟨hused, hx⟩⟩ := alloc_full hfull h
  · rw [hx]
    exact ⟨by simpa [World.rsi] using hv, fun hspilled => absurd (show w.Spilled from hspilled).marked hfree⟩
  · rw [hx]
    refine ⟨by simpa [World.rsi] using hv, fun _ => ?_⟩
    rw [lent_saved]
    exact hrsi

theorem Gone.alloc {x : Reg × World} (h : Gone p w) (hv : p v) (halloc : Alloc w v x) : Gone p x.2 := by
  cases halloc with
  | low h7 hfree hleast => exact ⟨by simpa [World.rsi, Function.update_of_ne (Ne.symm h7)] using h.rsi, h.saved⟩
  | last hfull hfree => exact gone_alloc hfull h.rsi hv (.last hfull hfree)
  | again hfull hused => exact gone_alloc hfull h.rsi hv (.again hfull hused)

theorem Gone.freed (h : Gone p w) (r : Reg) : Gone p (w.freed r) := by
  have hsaved : (w.freed r).Spilled → p ((w.freed r).saved 7) := by
    intro hspilled
    rw [freed_saved]
    exact h.saved (freed_spilled.mp hspilled).2
  refine ⟨?_, hsaved⟩
  by_cases h7 : r = 7
  · subst h7
    by_cases hspilled : w.Spilled
    · rw [freed_rsi_of_spilled hspilled]
      exact h.saved hspilled
    · rw [freed_rsi_of_not hspilled]
      exact h.rsi
  · rw [World.rsi, freed_reg_of_ne (Ne.symm h7)]
    exact h.rsi

theorem Gone.run (hjunk : ∀ n, p (junk n)) (h : Gone p w) (hrun : work.run junk w = some w') : Gone p w' := by
  induction work generalizing w w' with
  | done =>
      cases hrun
      exact h
  | temp inner next ihInner ihNext =>
      obtain ⟨r, w₁, w₂, halloc, hinner, hnext⟩ := run_temp hrun
      exact ihNext ((ihInner (h.alloc (hjunk _) halloc) hinner).freed r) hnext
  | call next ih =>
      have hcalled : Gone p (w.called (junk w.count)) := ⟨by simpa [World.rsi] using hjunk _, h.saved⟩
      exact ih hcalled hrun

theorem not_flat_temp {inner next : Work} : ¬ (Work.temp inner next).Flat := fun h => by
  simp [Work.Flat, Work.reaches] at h

/-- All are in use but `%rsi`. -/
structure Loose (w : World) : Prop where
  full : w.LowFull
  free : ¬ w.Marked

theorem Loose.alloc {x : Reg × World} (h : Loose w) (hv : p v) (halloc : Alloc w v x) : Gone p x.2 := by
  obtain ⟨-, ⟨-, hx⟩ | ⟨hused, -⟩⟩ := alloc_full h.full halloc
  · rw [hx]
    exact ⟨by simpa [World.rsi] using hv, fun hspilled => absurd (show w.Spilled from hspilled).marked h.free⟩
  · exact absurd hused h.free

theorem Loose.run (hjunk : ∀ n, p (junk n)) (h : Loose w) (hrun : work.run junk w = some w') : Loose w' ∨ Gone p w' := by
  cases work with
  | done =>
      cases hrun
      exact .inl h
  | temp inner next =>
      obtain ⟨r, w₁, w₂, halloc, hinner, hnext⟩ := run_temp hrun
      obtain rfl : r = 7 := (alloc_full h.full halloc).1
      exact .inr ((((h.alloc (hjunk _) halloc).run hjunk hinner).freed 7).run hjunk hnext)
  | call next =>
      have hcalled : Gone p (w.called (junk w.count)) :=
        ⟨by simpa [World.rsi] using hjunk _, fun hspilled => absurd (show w.Spilled from hspilled).marked h.free⟩
      exact .inr (hcalled.run hjunk hrun)

/-- As long as no register is taken the value stays in the slot. -/
theorem Below.run (h : Below v w) (hflat : work.Flat) (hrun : work.run junk w = some w') : Below v w' := by
  induction work generalizing w with
  | done =>
      cases hrun
      exact h
  | temp inner next => exact absurd hflat not_flat_temp
  | call next ih =>
      have hcalled : Below v (w.called (junk w.count)) := ⟨h.full, h.spilled, h.saved⟩
      exact ih hcalled hflat hrun

theorem Below.gone_run (hjunk : ∀ n, p (junk n)) (h : Below v w) (hrsi : p w.rsi) (hflat : ¬ work.Flat)
    (hrun : work.run junk w = some w') : Gone p w' := by
  induction work generalizing w with
  | done => exact absurd rfl hflat
  | temp inner next =>
      obtain ⟨r, w₁, w₂, halloc, hinner, hnext⟩ := run_temp hrun
      obtain rfl : r = 7 := (alloc_full h.full halloc).1
      exact (((gone_alloc h.full hrsi (hjunk _) halloc).run hjunk hinner).freed 7).run hjunk hnext
  | call next ih =>
      have hcalled : Below v (w.called (junk w.count)) := ⟨h.full, h.spilled, h.saved⟩
      exact ih hcalled (by simpa [World.rsi] using hjunk _) hflat hrun

theorem flat_rsi (hjunk : ∀ n, p (junk n)) (hrsi : p w.rsi) (hflat : work.Flat) (hrun : work.run junk w = some w') : p w'.rsi := by
  induction work generalizing w with
  | done =>
      cases hrun
      exact hrsi
  | temp inner next => exact absurd hflat not_flat_temp
  | call next ih => exact ih (w := w.called (junk w.count)) (by simpa [World.rsi] using hjunk _) hflat hrun

theorem Below.freed (h : Below v w) : Loose (w.freed 7) ∧ (w.freed 7).rsi = v := by
  refine ⟨⟨freed_full h.full, fun hmarked => ?_⟩, (freed_rsi_of_spilled h.spilled).trans h.saved⟩
  exact (Finset.mem_erase.mp hmarked).1 rfl

/-- Any work takes a value out of `%rsi`, or `%rsi` out of use. -/
theorem Here.run (hjunk : ∀ n, p (junk n)) (h : Here v w) (hsaved : w.Spilled → p (w.saved 7)) (hwork : work ≠ .done)
    (hrun : work.run junk w = some w') : Loose w' ∨ Gone p w' := by
  cases work with
  | done => exact absurd rfl hwork
  | temp inner next =>
      obtain ⟨r, w₁, w₂, halloc, hinner, hnext⟩ := run_temp hrun
      obtain ⟨rfl, ⟨hfree, -⟩ | ⟨-, hx⟩⟩ := alloc_full h.full halloc
      · exact absurd h.marked hfree
      · obtain rfl : w₁ = w.lent (junk w.count) := hx
        have hbelow : Below v (w.lent (junk w.count)) := ⟨lent_full h.full, lent_spilled w _, (lent_saved w _).trans h.rsi⟩
        have hrsi : p (w.lent (junk w.count)).rsi := by simpa [World.rsi] using hjunk _
        by_cases hflat : inner.Flat
        · exact (hbelow.run hflat hinner).freed.1.run hjunk hnext
        · exact .inr (((hbelow.gone_run hjunk hrsi hflat hinner).freed 7).run hjunk hnext)
  | call next =>
      have hcalled : Gone p (w.called (junk w.count)) := ⟨by simpa [World.rsi] using hjunk _, hsaved⟩
      exact .inr (hcalled.run hjunk hrun)

/-! ## Arguments -/

theorem eval_parts (h : a.eval junk v w = some (r, w')) :
    ∃ w₁ w₂ w₃, a.before.run junk w = some w₁ ∧ Alloc w₁ (junk w₁.count) (r, w₂) ∧ a.after.run junk w₂ = some w₃ ∧
      w' = w₃.put r v := by
  rw [Arg.eval, Option.bind_eq_some_iff] at h
  obtain ⟨w₁, hbefore, h⟩ := h
  obtain ⟨⟨q, w₂⟩, halloc, h⟩ := Option.bind_eq_some_iff.mp h
  obtain ⟨w₃, hafter, heq⟩ := Option.map_eq_some_iff.mp h
  cases heq
  exact ⟨w₁, w₂, w₃, hbefore, alloc_cases halloc, hafter, rfl⟩

/-- The register of an argument: it has the value, and the others below `%rsi` are as before. -/
structure Takes (w : World) (v : BitVec 64) (r : Reg) (w' : World) : Prop where
  low : ∀ q : Reg, q ≠ 7 → (q ∈ w'.gen.used ↔ q = r ∨ q ∈ w.gen.used)
  kept : ∀ q : Reg, q ≠ 7 → q ∈ w.gen.used → w'.mach.reg q = w.mach.reg q
  ever : w.gen.everUsed ⊆ w'.gen.everUsed
  asked : r ∈ w'.gen.everUsed
  value : w'.mach.reg r = v
  new : r = 7 ∧ w.LowFull ∨ r ≠ 7 ∧ r ∉ w.gen.used

theorem Takes.of_alloc {w₂ w₃ : World} {u : BitVec 64} (halloc : Alloc w u (r, w₂)) (h : Frame w₂ w₃) (v : BitVec 64) :
    Takes w v r (w₃.put r v) := by
  have hvalue : (w₃.put r v).mach.reg r = v := by simp
  cases halloc with
  | low h7 hfree hleast =>
      refine ⟨fun q hq => ?_, fun q hq hused => ?_, (Finset.subset_insert r _).trans h.ever,
        h.ever (Finset.mem_insert_self r _), hvalue, .inr ⟨h7, hfree⟩⟩
      · have hlow := h.low q hq
        rwa [took_used, Finset.mem_insert] at hlow
      · have hne : q ≠ r := fun heq => hfree (heq ▸ hused)
        have hkept := h.kept q hq (Finset.mem_insert_of_mem hused)
        simp only [put_reg, Function.update_of_ne hne]
        simpa [Function.update_of_ne hne] using hkept
  | last hfull hfree =>
      refine ⟨fun q hq => ?_, fun q hq hused => ?_, (Finset.subset_insert 7 _).trans h.ever,
        h.ever (Finset.mem_insert_self 7 _), hvalue, .inl ⟨rfl, hfull⟩⟩
      · exact iff_of_true ((h.low q hq).mpr (took_full hfull q hq)) (.inr (hfull q hq))
      · have hkept := h.kept q hq (took_full hfull q hq)
        simp only [put_reg, Function.update_of_ne hq]
        simpa [Function.update_of_ne hq] using hkept
  | again hfull hused' =>
      refine ⟨fun q hq => ?_, fun q hq hused => ?_, (Finset.subset_insert 7 _).trans h.ever,
        h.ever (Finset.mem_insert_self 7 _), hvalue, .inl ⟨rfl, hfull⟩⟩
      · exact iff_of_true ((h.low q hq).mpr (lent_full hfull q hq)) (.inr (hfull q hq))
      · have hkept := h.kept q hq (lent_full hfull q hq)
        simp only [put_reg, Function.update_of_ne hq]
        simpa [Function.update_of_ne hq] using hkept

theorem Takes.of_frame {w₁ w₂ : World} (hframe : Frame w w₁) (h : Takes w₁ v r w₂) : Takes w v r w₂ where
  low q hq := (h.low q hq).trans (or_congr_right (hframe.low q hq))
  kept q hq hused := (h.kept q hq ((hframe.low q hq).mpr hused)).trans (hframe.kept q hq hused)
  ever := hframe.ever.trans h.ever
  asked := h.asked
  value := h.value
  new := h.new.imp (fun h => ⟨h.1, hframe.lowFull.mp h.2⟩) fun h => ⟨h.1, fun hused => h.2 ((hframe.low r h.1).mpr hused)⟩

theorem takes_of_eval (h : a.eval junk v w = some (r, w')) : Takes w v r w' := by
  obtain ⟨w₁, w₂, w₃, hbefore, halloc, hafter, rfl⟩ := eval_parts h
  exact (Takes.of_alloc halloc (frame_of_run hafter) v).of_frame (frame_of_run hbefore)

theorem eval_some (junk : Nat → BitVec 64) (a : Arg) (v : BitVec 64) (w : World) : ∃ x, a.eval junk v w = some x := by
  obtain ⟨w₁, hbefore, -⟩ := run_frame junk a.before w
  obtain ⟨⟨r, w₂⟩, halloc, -⟩ := alloc_spec w₁ (junk w₁.count)
  obtain ⟨w₃, hafter, -⟩ := run_frame junk a.after w₂
  refine ⟨(r, w₃.put r v), ?_⟩
  simp only [Arg.eval, hbefore, halloc, hafter, Option.bind_some, Option.map_some]

/-! ### On top of a value -/

theorem Gone.put (h : Gone p w) (hv : p v) (r : Reg) : Gone p (w.put r v) := by
  refine ⟨?_, h.saved⟩
  by_cases h7 : r = 7
  · subst h7
    simpa [World.rsi] using hv
  · simpa [World.rsi, Function.update_of_ne (Ne.symm h7)] using h.rsi

theorem full_eval (hfull : w.LowFull) (h : a.eval junk v w = some (r, w')) : r = 7 ∧ w'.LowFull := by
  have htakes := takes_of_eval h
  exact ⟨(htakes.new.resolve_right fun h => h.2 (hfull _ h.1)).1, fun q hq => (htakes.low q hq).mpr (.inr (hfull q hq))⟩

theorem Gone.eval (hjunk : ∀ n, p (junk n)) (hv : p v) (h : Gone p w) (heval : a.eval junk v w = some (r, w')) :
    Gone p w' := by
  obtain ⟨w₁, w₂, w₃, hbefore, halloc, hafter, rfl⟩ := eval_parts heval
  exact ((((h.run hjunk hbefore).alloc (hjunk _) halloc).run hjunk hafter).put hv _)

/-- Whatever the value of the argument is. -/
theorem Gone.eval_saved (hjunk : ∀ n, p (junk n)) (h : Gone p w) (heval : a.eval junk v w = some (r, w')) :
    w'.Spilled → p (w'.saved 7) := by
  obtain ⟨w₁, w₂, w₃, hbefore, halloc, hafter, rfl⟩ := eval_parts heval
  exact (((h.run hjunk hbefore).alloc (hjunk _) halloc).run hjunk hafter).saved

theorem Loose.eval (hjunk : ∀ n, p (junk n)) (hv : p v) (h : Loose w) (heval : a.eval junk v w = some (r, w')) :
    Gone p w' := by
  obtain ⟨w₁, w₂, w₃, hbefore, halloc, hafter, rfl⟩ := eval_parts heval
  have halloc' : Gone p w₂ := (h.run hjunk hbefore).elim (fun h => h.alloc (hjunk _) halloc) fun h => h.alloc (hjunk _) halloc
  exact (halloc'.run hjunk hafter).put hv _

/-- `%rsi` has the property, and the registers below are in use. -/
structure Has (p : BitVec 64 → Prop) (w : World) : Prop where
  full : w.LowFull
  rsi : p w.rsi

theorem Has.run (hjunk : ∀ n, p (junk n)) (h : Has p w) (hrun : work.run junk w = some w') : Has p w' := by
  induction work generalizing w with
  | done =>
      cases hrun
      exact h
  | temp inner next ihInner ihNext =>
      obtain ⟨r, w₁, w₂, halloc, hinner, hnext⟩ := run_temp hrun
      obtain rfl : r = 7 := (alloc_full h.full halloc).1
      have hgone := ((gone_alloc h.full h.rsi (hjunk _) halloc).run hjunk hinner).freed 7
      exact ihNext ⟨(Frame.temp halloc (frame_of_run hinner)).lowFull.mpr h.full, hgone.rsi⟩ hnext
  | call next ih =>
      have hcalled : Has p (w.called (junk w.count)) := ⟨h.full, by simpa [World.rsi] using hjunk _⟩
      exact ih hcalled hrun

/-- A third value on top of two: the first is lost. -/
theorem Has.eval (hjunk : ∀ n, p (junk n)) (hv : p v) (h : Has p w) (heval : a.eval junk v w = some (r, w')) :
    Gone p w' := by
  obtain ⟨w₁, w₂, w₃, hbefore, halloc, hafter, rfl⟩ := eval_parts heval
  have hhas := h.run hjunk hbefore
  exact ((gone_alloc hhas.full hhas.rsi (hjunk _) halloc).run hjunk hafter).put hv _

/-- A second value leaves the first in the slot, if it is evaluated in one register. -/
theorem Here.simple {u : BitVec 64} (h : Here v w) (ha : a.Simple) (heval : a.eval junk u w = some (r, w')) :
    Below v w' ∧ w'.rsi = u := by
  obtain rfl := (full_eval h.full heval).1
  obtain ⟨w₁, w₂, w₃, hbefore, halloc, hafter, rfl⟩ := eval_parts heval
  rw [ha.before] at hbefore
  cases hbefore
  obtain ⟨-, ⟨hfree, -⟩ | ⟨-, hlent⟩⟩ := alloc_full h.full halloc
  · exact absurd h.marked hfree
  · obtain rfl : w₂ = w.lent (junk w.count) := hlent
    have hbelow : Below v (w.lent (junk w.count)) := ⟨lent_full h.full, lent_spilled w _, (lent_saved w _).trans h.rsi⟩
    have hafter' := hbelow.run ha.after hafter
    exact ⟨⟨hafter'.full, hafter'.spilled, hafter'.saved⟩, by simp [World.rsi]⟩

/-- Otherwise the first is lost. -/
theorem Here.not_simple {u : BitVec 64} (hjunk : ∀ n, p (junk n)) (hu : p u) (h : Here v w)
    (hsaved : w.Spilled → p (w.saved 7)) (ha : ¬ a.Simple) (heval : a.eval junk u w = some (r, w')) : Gone p w' := by
  obtain ⟨w₁, w₂, w₃, hbefore, halloc, hafter, rfl⟩ := eval_parts heval
  refine Gone.put ?_ hu _
  by_cases hdone : a.before = .done
  · rw [hdone] at hbefore
    cases hbefore
    obtain ⟨-, ⟨hfree, -⟩ | ⟨-, hlent⟩⟩ := alloc_full h.full halloc
    · exact absurd h.marked hfree
    · obtain rfl : w₂ = w.lent (junk w.count) := hlent
      have hbelow : Below v (w.lent (junk w.count)) := ⟨lent_full h.full, lent_spilled w _, (lent_saved w _).trans h.rsi⟩
      exact hbelow.gone_run hjunk (by simpa [World.rsi] using hjunk _) (fun hflat => ha ⟨hdone, hflat⟩) hafter
  · have hgone : Gone p w₂ := (h.run hjunk hsaved hdone hbefore).elim (fun h => h.alloc (hjunk _) halloc)
      fun h => h.alloc (hjunk _) halloc
    exact hgone.run hjunk hafter

/-! ### What is in use -/

/-- How many registers below `%rsi` are free. -/
def lowFree (used : Finset Reg) : Nat := (Finset.univ.filter fun r : Reg => r ≠ 7 ∧ r ∉ used).card

theorem lowFree_congr {used used' : Finset Reg} (h : ∀ r : Reg, r ≠ 7 → (r ∈ used' ↔ r ∈ used)) : lowFree used' = lowFree used := by
  unfold lowFree
  congr 1
  ext r
  simp only [Finset.mem_filter_univ]
  exact and_congr_right fun hr => not_congr (h r hr)

theorem lowFree_insert {used used' : Finset Reg} (h7 : r ≠ 7) (hfree : r ∉ used)
    (h : ∀ q : Reg, q ≠ 7 → (q ∈ used' ↔ q = r ∨ q ∈ used)) : lowFree used = lowFree used' + 1 := by
  unfold lowFree
  have hset : (Finset.univ.filter fun q : Reg => q ≠ 7 ∧ q ∉ used) =
      insert r (Finset.univ.filter fun q : Reg => q ≠ 7 ∧ q ∉ used') := by
    ext q
    simp only [Finset.mem_filter_univ, Finset.mem_insert]
    by_cases hq : q = r
    · exact iff_of_true (hq ▸ ⟨h7, hfree⟩) (.inl hq)
    · rw [or_iff_right hq]
      refine and_congr_right fun hq7 => not_congr ?_
      rw [h q hq7, or_iff_right hq]
  rw [hset, Finset.card_insert_of_notMem]
  simp only [Finset.mem_filter_univ, not_and, not_not]
  exact fun _ => (h r h7).mpr (.inl rfl)

theorem lowFull_iff : w.LowFull ↔ lowFree w.gen.used = 0 := by
  simp only [lowFree, Finset.card_eq_zero, Finset.filter_eq_empty_iff, Finset.mem_univ, true_implies, not_and, not_not, World.LowFull]

/-- Work leaves the marks of `%rsi` as they are, or clears them. -/
theorem run_marks (hrun : work.run junk w = some w') :
    (w'.Marked ↔ w.Marked ∧ work.reaches (lowFree w.gen.used) = false) ∧
      (w'.Spilled ↔ w.Spilled ∧ work.reaches (lowFree w.gen.used) = false) := by
  induction work generalizing w w' with
  | done =>
      cases hrun
      simp [Work.reaches]
  | call next ih => exact ih (w := w.called (junk w.count)) hrun
  | temp inner next ihInner ihNext =>
      obtain ⟨r, w₁, w₂, halloc, hinner, hnext⟩ := run_temp hrun
      have hnext' := ihNext hnext
      have hinner' := ihInner hinner
      have hframe : Frame w (w₂.freed r) := Frame.temp halloc (frame_of_run hinner)
      rw [lowFree_congr hframe.low] at hnext'
      rw [Work.reaches]
      cases halloc with
      | low h7 hfree hleast =>
          have hfewer : lowFree w.gen.used = lowFree (w.took r (junk w.count)).gen.used + 1 :=
            lowFree_insert h7 hfree fun q _ => by simp
          have hmarked : (w₂.freed r).Marked ↔ w₂.Marked := by
            simp [World.Marked, Ne.symm h7]
          have hspilled : (w₂.freed r).Spilled ↔ w₂.Spilled := by
            rw [freed_spilled, and_iff_right (Ne.symm h7)]
          have htook : (w.took r (junk w.count)).Marked ↔ w.Marked := by
            simp [World.Marked, Ne.symm h7]
          rw [hmarked, hspilled, hinner'.1, hinner'.2, htook, took_spilled] at hnext'
          rw [hnext'.1, hnext'.2, hfewer]
          simp [and_assoc]
      | last hfull hfree =>
          have hmarked : ¬ (w₂.freed 7).Marked := fun h => (Finset.mem_erase.mp h).1 rfl
          have hspilled : ¬ (w₂.freed 7).Spilled := fun h => hmarked h.marked
          rw [hnext'.1, hnext'.2, lowFull_iff.mp hfull]
          simp [hmarked, hspilled]
      | again hfull hused =>
          have hmarked : ¬ (w₂.freed 7).Marked := fun h => (Finset.mem_erase.mp h).1 rfl
          have hspilled : ¬ (w₂.freed 7).Spilled := fun h => hmarked h.marked
          rw [hnext'.1, hnext'.2, lowFull_iff.mp hfull]
          simp [hmarked, hspilled]

/-! ## The arguments for registers -/

variable {s : Slot} {slots : List Slot} {items : List Item} {x : Item}

theorem evalRegArgs_cons {y : List Item × World} (h : evalRegArgs junk values (s :: slots) w = some y) :
    ∃ r w₁ items w', s.arg.eval junk (values s.index) w = some (r, w₁) ∧ evalRegArgs junk values slots w₁ = some (items, w') ∧
      y = (⟨s, r⟩ :: items, w') := by
  rw [evalRegArgs, Option.bind_eq_some_iff] at h
  obtain ⟨⟨r, w₁⟩, heval, h⟩ := h
  obtain ⟨⟨items, w'⟩, hrest, rfl⟩ := Option.map_eq_some_iff.mp h
  exact ⟨r, w₁, items, w', heval, hrest, rfl⟩

theorem evalRegArgs_some (junk values : Nat → BitVec 64) (slots : List Slot) (w : World) :
    ∃ items w', evalRegArgs junk values slots w = some (items, w') := by
  induction slots generalizing w with
  | nil => exact ⟨[], w, rfl⟩
  | cons s slots ih =>
      obtain ⟨⟨r, w₁⟩, heval⟩ := eval_some junk s.arg (values s.index) w
      obtain ⟨items, w', hrest⟩ := ih w₁
      refine ⟨⟨s, r⟩ :: items, w', ?_⟩
      simp only [evalRegArgs, heval, hrest, Option.bind_some, Option.map_some]

theorem evalRegArgs_append {first second : List Slot} (h : evalRegArgs junk values (first ++ second) w = some (items, w')) :
    ∃ items₁ w₁ items₂, evalRegArgs junk values first w = some (items₁, w₁) ∧
      evalRegArgs junk values second w₁ = some (items₂, w') ∧ items = items₁ ++ items₂ := by
  induction first generalizing w items with
  | nil => exact ⟨[], w, items, rfl, h, rfl⟩
  | cons s first ih =>
      obtain ⟨r, w₁, items', w'', heval, hrest, heq⟩ := evalRegArgs_cons h
      cases heq
      obtain ⟨items₁, w₂, items₂, hfirst, hsecond, rfl⟩ := ih hrest
      refine ⟨⟨s, r⟩ :: items₁, w₂, items₂, ?_, hsecond, rfl⟩
      simp only [evalRegArgs, heval, hfirst, Option.bind_some, Option.map_some]

/-- The arguments that have registers of their own. -/
structure Lows (values : Nat → BitVec 64) (slots : List Slot) (w : World) (items : List Item) (w' : World) : Prop where
  slots_eq : items.map Item.slot = slots
  own : ∀ x ∈ items, x.source ≠ 7 ∧ x.source ∉ w.gen.used
  value : ∀ x ∈ items, w'.mach.reg x.source = values x.slot.index
  nodup : (items.map Item.source).Nodup
  low : ∀ q : Reg, q ≠ 7 → (q ∈ w'.gen.used ↔ q ∈ items.map Item.source ∨ q ∈ w.gen.used)
  kept : ∀ q : Reg, q ≠ 7 → q ∈ w.gen.used → w'.mach.reg q = w.mach.reg q
  ever : w.gen.everUsed ⊆ w'.gen.everUsed
  asked : ∀ x ∈ items, x.source ∈ w'.gen.everUsed
  fewer : lowFree w.gen.used = lowFree w'.gen.used + slots.length

theorem Takes.low_of_free (h : Takes w v r w') (hfree : lowFree w.gen.used ≠ 0) : r ≠ 7 ∧ r ∉ w.gen.used :=
  h.new.resolve_left fun h => hfree (lowFull_iff.mp h.2)

theorem lows_of_eval (hroom : slots.length ≤ lowFree w.gen.used)
    (h : evalRegArgs junk values slots w = some (items, w')) : Lows values slots w items w' := by
  induction slots generalizing w items with
  | nil =>
      cases h
      exact ⟨rfl, by simp, by simp, List.nodup_nil, by simp, fun _ _ _ => rfl, Finset.Subset.refl _, by simp, rfl⟩
  | cons s slots ih =>
      obtain ⟨r, w₁, items', w'', heval, hrest, heq⟩ := evalRegArgs_cons h
      cases heq
      have htakes := takes_of_eval heval
      rw [List.length_cons] at hroom
      obtain ⟨h7, hfree⟩ := htakes.low_of_free (by omega)
      have hone := lowFree_insert h7 hfree htakes.low
      have hlows := ih (by omega) hrest
      have hr : r ∈ w₁.gen.used := (htakes.low r h7).mpr (.inl rfl)
      refine ⟨by rw [List.map_cons, hlows.slots_eq], ?_, ?_, ?_, ?_, ?_, htakes.ever.trans hlows.ever, ?_, ?_⟩
      · intro x hx
        rcases List.mem_cons.mp hx with rfl | hx
        · exact ⟨h7, hfree⟩
        · obtain ⟨hx7, hxfree⟩ := hlows.own x hx
          exact ⟨hx7, fun hused => hxfree ((htakes.low x.source hx7).mpr (.inr hused))⟩
      · intro x hx
        rcases List.mem_cons.mp hx with rfl | hx
        · exact (hlows.kept r h7 hr).trans htakes.value
        · exact hlows.value x hx
      · rw [List.map_cons, List.nodup_cons]
        refine ⟨fun hmem => ?_, hlows.nodup⟩
        obtain ⟨x, hx, hxr⟩ := List.mem_map.mp hmem
        exact (hlows.own x hx).2 (hxr ▸ hr)
      · intro q hq
        rw [hlows.low q hq, htakes.low q hq, List.map_cons, List.mem_cons]
        tauto
      · intro q hq hused
        exact (hlows.kept q hq ((htakes.low q hq).mpr (.inr hused))).trans (htakes.kept q hq hused)
      · intro x hx
        rcases List.mem_cons.mp hx with rfl | hx
        · exact hlows.ever htakes.asked
        · exact hlows.asked x hx
      · have := hlows.fewer
        rw [List.length_cons]
        omega

/-- The arguments behind them, that are all given `%rsi`. -/
structure Sevens (slots : List Slot) (w : World) (items : List Item) (w' : World) : Prop where
  slots_eq : items.map Item.slot = slots
  source : ∀ x ∈ items, x.source = 7
  full : w'.LowFull
  kept : ∀ q : Reg, q ≠ 7 → w'.mach.reg q = w.mach.reg q
  ever : w.gen.everUsed ⊆ w'.gen.everUsed
  asked : ∀ x ∈ items, x.source ∈ w'.gen.everUsed

theorem sevens_of_eval (hfull : w.LowFull) (h : evalRegArgs junk values slots w = some (items, w')) : Sevens slots w items w' := by
  induction slots generalizing w items with
  | nil =>
      cases h
      exact ⟨rfl, by simp, hfull, fun _ _ => rfl, Finset.Subset.refl _, by simp⟩
  | cons s slots ih =>
      obtain ⟨r, w₁, items', w'', heval, hrest, heq⟩ := evalRegArgs_cons h
      cases heq
      have htakes := takes_of_eval heval
      obtain ⟨h7, hfull'⟩ := full_eval hfull heval
      have hsevens := ih hfull' hrest
      refine ⟨by rw [List.map_cons, hsevens.slots_eq], ?_, hsevens.full, fun q hq => ?_, htakes.ever.trans hsevens.ever, ?_⟩
      · intro x hx
        rcases List.mem_cons.mp hx with rfl | hx
        · exact h7
        · exact hsevens.source x hx
      · exact (hsevens.kept q hq).trans (htakes.kept q hq (hfull q hq))
      · intro x hx
        rcases List.mem_cons.mp hx with rfl | hx
        · exact hsevens.ever htakes.asked
        · exact hsevens.asked x hx

/-! ### What they leave of `%rsi` -/

/-- Arguments that ask for a register when none is left below `%rsi`. -/
def reaches : (low : Nat) → List Slot → Bool
  | _, [] => false
  | low, s :: slots => s.arg.before.reaches low || s.arg.after.reaches (low - 1) || reaches (low - 1) slots

theorem reaches_append (low : Nat) (first second : List Slot) :
    reaches low (first ++ second) = (reaches low first || reaches (low - first.length) second) := by
  induction first generalizing low with
  | nil => simp [reaches]
  | cons s first ih =>
      rw [List.cons_append, reaches, ih, reaches, List.length_cons, Nat.sub_sub, Nat.add_comm 1]
      simp only [Bool.or_assoc]

theorem gone_regArgs {p : BitVec 64 → Prop} (hjunk : ∀ n, p (junk n)) (hvalues : ∀ s ∈ slots, p (values s.index)) (h : Gone p w)
    (heval : evalRegArgs junk values slots w = some (items, w')) : Gone p w' := by
  induction slots generalizing w items with
  | nil =>
      cases heval
      exact h
  | cons s slots ih =>
      obtain ⟨r, w₁, items', w'', hs, hrest, heq⟩ := evalRegArgs_cons heval
      cases heq
      rw [List.forall_mem_cons] at hvalues
      exact ih hvalues.2 (h.eval hjunk hvalues.1 hs) hrest

/-- The last argument with a register of its own, or the first without. -/
theorem eval_marks {a : Arg} (heval : a.eval junk v w = some (r, w')) (hfree : lowFree w.gen.used ≠ 0) :
    (w'.Marked ↔ w.Marked ∧ a.before.reaches (lowFree w.gen.used) = false ∧ a.after.reaches (lowFree w.gen.used - 1) = false) := by
  obtain ⟨w₁, w₂, w₃, hbefore, halloc, hafter, rfl⟩ := eval_parts heval
  have hframe := frame_of_run hbefore
  have hlow := lowFree_congr hframe.low
  rw [put_marked, (run_marks hafter).1]
  cases halloc with
  | low h7 hfree' hleast =>
      have hone : lowFree w₁.gen.used = lowFree (w₁.took r (junk w₁.count)).gen.used + 1 :=
        lowFree_insert h7 hfree' fun q _ => by simp
      have htook : (w₁.took r (junk w₁.count)).Marked ↔ w₁.Marked := by simp [World.Marked, Ne.symm h7]
      rw [htook, (run_marks hbefore).1, and_assoc, ← hlow, hone, Nat.add_sub_cancel]
  | last hfull => exact absurd (lowFull_iff.mp (hframe.lowFull.mp hfull)) hfree
  | again hfull => exact absurd (lowFull_iff.mp (hframe.lowFull.mp hfull)) hfree

theorem lows_marks (hroom : slots.length ≤ lowFree w.gen.used)
    (h : evalRegArgs junk values slots w = some (items, w')) :
    w'.Marked ↔ w.Marked ∧ reaches (lowFree w.gen.used) slots = false := by
  induction slots generalizing w items with
  | nil =>
      cases h
      simp [reaches]
  | cons s slots ih =>
      obtain ⟨r, w₁, items', w'', heval, hrest, heq⟩ := evalRegArgs_cons h
      cases heq
      have htakes := takes_of_eval heval
      rw [List.length_cons] at hroom
      obtain ⟨h7, hfree⟩ := htakes.low_of_free (by omega)
      have hone := lowFree_insert h7 hfree htakes.low
      rw [ih (by omega) hrest, eval_marks heval (by omega), reaches, show lowFree w₁.gen.used = lowFree w.gen.used - 1 by omega]
      simp [and_assoc]

/-- The argument that comes to `%rsi` first. -/
theorem first_marks {a : Arg} (hfull : w.LowFull) (heval : a.eval junk v w = some (r, w')) :
    (w'.Marked ↔ a.after.Flat) ∧ (w'.Spilled ↔ w.Marked ∧ a.before.Flat ∧ a.after.Flat) := by
  obtain ⟨w₁, w₂, w₃, hbefore, halloc, hafter, rfl⟩ := eval_parts heval
  have hframe := frame_of_run hbefore
  have hfull₁ := hframe.lowFull.mpr hfull
  have hmarks := (run_marks hbefore).1
  rw [lowFull_iff.mp hfull] at hmarks
  have hafter' := run_marks hafter
  rw [put_marked, put_spilled, hafter'.1, hafter'.2]
  obtain ⟨rfl, ⟨hfree, hx⟩ | ⟨hused, hx⟩⟩ := alloc_full hfull₁ halloc
  · obtain rfl : w₂ = w₁.took 7 (junk w₁.count) := hx
    have hmarked : (w₁.took 7 (junk w₁.count)).Marked := Finset.mem_insert_self 7 _
    have hspilled : ¬ (w₁.took 7 (junk w₁.count)).Spilled := fun h => hfree (show w₁.Spilled from h).marked
    rw [lowFull_iff.mp (took_full hfull₁)]
    refine ⟨by simp [hmarked, Work.Flat], iff_of_false (fun h => hspilled h.1) fun h => hfree (hmarks.mpr ⟨h.1, h.2.1⟩)⟩
  · obtain rfl : w₂ = w₁.lent (junk w₁.count) := hx
    have hmarked : (w₁.lent (junk w₁.count)).Marked := (lent_spilled w₁ _).marked
    rw [lowFull_iff.mp (lent_full hfull₁)]
    obtain ⟨hw, hflat⟩ := hmarks.mp hused
    simp [hmarked, hw, Work.Flat, hflat]

/-! ## The arguments for the stack -/

/-- The mask has been marked, and nothing else has changed. -/
structure Remarked (mask : List Reg) (w w' : World) : Prop where
  mach : w'.mach = w.mach
  used : ∀ q, q ∈ w'.gen.used ↔ q ∈ mask ∨ q ∈ w.gen.used
  spilled : w'.gen.spilled = w.gen.spilled
  slots : w'.gen.slots = w.gen.slots
  ever : w'.gen.everUsed = w.gen.everUsed

variable {mask : List Reg} {args : List (Nat × Arg)} {p : BitVec 64 → Prop}

theorem remarkReg_eq {g : GenState} {r : Reg} (h : r ∈ g.everUsed) : remarkReg r g = some ((), [], g.take r) := if_pos h

theorem remark_spec (mask : List Reg) {w : World} (h : ∀ r ∈ mask, r ∈ w.gen.everUsed) :
    ∃ w', w.remark mask = some w' ∧ Remarked mask w w' := by
  induction mask generalizing w with
  | nil => exact ⟨w, rfl, rfl, by simp, rfl, rfl, rfl⟩
  | cons r mask ih =>
      rw [List.forall_mem_cons] at h
      have hever : (w.gen.take r).everUsed = w.gen.everUsed := Finset.insert_eq_of_mem h.1
      obtain ⟨w', hrest, hmarked⟩ := ih (w := { w with gen := w.gen.take r }) fun q hq => hever ▸ h.2 q hq
      refine ⟨w', ?_, hmarked.mach, fun q => ?_, hmarked.spilled, hmarked.slots, hmarked.ever.trans hever⟩
      · rw [World.remark, remarkReg_eq h.1, Option.bind_some]
        exact hrest
      · have hused : q ∈ (w.gen.take r).used ↔ q = r ∨ q ∈ w.gen.used := Finset.mem_insert
        rw [hmarked.used q, List.mem_cons, hused]
        tauto

namespace Remarked

theorem saved (h : Remarked mask w w') (r : Reg) : w'.saved r = w.saved r := by
  rw [World.saved, World.saved, h.mach, h.slots]

theorem rsi (h : Remarked mask w w') : w'.rsi = w.rsi := by
  rw [World.rsi, World.rsi, h.mach]

theorem spilled_iff (h : Remarked mask w w') : w'.Spilled ↔ w.Spilled := by
  rw [World.Spilled, World.Spilled, h.spilled]

theorem full (h : Remarked mask w w') (hfull : w.LowFull) : w'.LowFull := fun q hq => (h.used q).mpr (.inr (hfull q hq))

theorem gone (h : Remarked mask w w') (hgone : Gone p w) : Gone p w' := by
  refine ⟨h.rsi ▸ hgone.rsi, fun hspilled => ?_⟩
  rw [h.saved]
  exact hgone.saved (h.spilled_iff.mp hspilled)

end Remarked

/-- The registers below `%rsi` that were in use still are, with what they held. -/
structure Keeps (w w' : World) : Prop where
  used : ∀ q : Reg, q ≠ 7 → q ∈ w.gen.used → q ∈ w'.gen.used
  reg : ∀ q : Reg, q ≠ 7 → q ∈ w.gen.used → w'.mach.reg q = w.mach.reg q
  ever : w.gen.everUsed ⊆ w'.gen.everUsed

namespace Keeps

theorem refl (w : World) : Keeps w w := ⟨fun _ _ h => h, fun _ _ _ => rfl, Finset.Subset.refl _⟩

theorem trans {w₁ w₂ w₃ : World} (h : Keeps w₁ w₂) (h' : Keeps w₂ w₃) : Keeps w₁ w₃ where
  used q hq hused := h'.used q hq (h.used q hq hused)
  reg q hq hused := (h'.reg q hq (h.used q hq hused)).trans (h.reg q hq hused)
  ever := h.ever.trans h'.ever

theorem remarked (h : Remarked mask w w') : Keeps w w' where
  used q _ hused := (h.used q).mpr (.inr hused)
  reg q _ _ := by rw [h.mach]
  ever := h.ever ▸ Finset.Subset.refl _

/-- An argument that is evaluated, and its register freed. -/
theorem freed (h : Takes w v r w') : Keeps w (w'.freed r) where
  used q hq hused := by
    have hne : q ≠ r := fun heq => h.new.elim (fun h => hq (heq.trans h.1)) fun h => h.2 (heq ▸ hused)
    exact Finset.mem_erase.mpr ⟨hne, (h.low q hq).mpr (.inr hused)⟩
  reg q hq hused := by
    have hne : q ≠ r := fun heq => h.new.elim (fun h => hq (heq.trans h.1)) fun h => h.2 (heq ▸ hused)
    rw [freed_reg_of_ne hne, h.kept q hq hused]
  ever := h.ever

theorem alloc {x : Reg × World} (h : Alloc w v x) : Keeps w x.2 := by
  cases h with
  | low h7 hfree _ =>
      refine ⟨fun q _ hused => Finset.mem_insert_of_mem hused, fun q _ hused => ?_, Finset.subset_insert _ w.gen.everUsed⟩
      exact w.mach.set_reg_of_ne v fun heq => hfree (heq ▸ hused)
  | last hfull _ =>
      refine ⟨fun q _ hused => Finset.mem_insert_of_mem hused, fun q hq _ => ?_, Finset.subset_insert 7 w.gen.everUsed⟩
      exact w.mach.set_reg_of_ne v hq
  | again hfull _ =>
      exact ⟨fun q hq _ => lent_full hfull q hq, fun q hq _ => Function.update_of_ne hq _ _, Finset.subset_insert 7 w.gen.everUsed⟩

end Keeps

/-- One argument for the stack. -/
structure StackStep (junk values : Nat → BitVec 64) (mask : List Reg) (i : Nat) (a : Arg) (w w' : World) where
  marked : World
  evaluated : World
  reg : Reg
  hmarked : Remarked mask w marked
  heval : a.eval junk (values i) marked = some (reg, evaluated)
  hafter : Remarked mask (evaluated.freed reg) w'

theorem StackStep.keeps {i : Nat} (h : StackStep junk values mask i a w w') : Keeps w w' :=
  (Keeps.remarked h.hmarked).trans ((Keeps.freed (takes_of_eval h.heval)).trans (Keeps.remarked h.hafter))

theorem evalStackArgs_step (junk values : Nat → BitVec 64) (i : Nat) (a : Arg) (args : List (Nat × Arg))
    (hmask : ∀ r ∈ mask, r ∈ w.gen.everUsed) :
    ∃ w', Nonempty (StackStep junk values mask i a w w') ∧
      evalStackArgs junk values mask ((i, a) :: args) w = evalStackArgs junk values mask args w' := by
  obtain ⟨w₁, hremark, hmarked⟩ := remark_spec mask hmask
  obtain ⟨⟨r, w₂⟩, heval⟩ := eval_some junk a (values i) w₁
  have hever : w.gen.everUsed ⊆ (w₂.freed r).gen.everUsed := hmarked.ever ▸ (takes_of_eval heval).ever
  obtain ⟨w₃, hremark', hafter⟩ := remark_spec mask (w := w₂.freed r) fun q hq => hever (hmask q hq)
  refine ⟨w₃, ⟨⟨w₁, w₂, r, hmarked, heval, hafter⟩⟩, ?_⟩
  simp only [evalStackArgs, hremark, heval, free_eq, hremark', Option.bind_some]

/-- The loop keeps what each step keeps. -/
theorem evalStackArgs_induct {motive : World → Prop} (hmask : ∀ r ∈ mask, r ∈ w.gen.everUsed) (hw : motive w)
    (hstep : ∀ i a, (i, a) ∈ args → ∀ w w', StackStep junk values mask i a w w' → motive w → motive w') :
    ∃ w', evalStackArgs junk values mask args w = some w' ∧ motive w' ∧ Keeps w w' := by
  induction args generalizing w with
  | nil => exact ⟨w, rfl, hw, .refl w⟩
  | cons ia args ih =>
      obtain ⟨i, a⟩ := ia
      obtain ⟨w₁, ⟨step⟩, heq⟩ := evalStackArgs_step junk values i a args hmask
      obtain ⟨w', heval, hmotive, hkeeps⟩ := ih (fun r hr => step.keeps.ever (hmask r hr))
        (hstep i a List.mem_cons_self w w₁ step hw) fun i a hmem => hstep i a (List.mem_cons_of_mem _ hmem)
      exact ⟨w', heq.trans heval, hmotive, step.keeps.trans hkeeps⟩

theorem StackStep.gone {i : Nat} (hjunk : ∀ n, p (junk n)) (hv : p (values i)) (h : StackStep junk values mask i a w w')
    (hgone : Gone p w) : Gone p w' :=
  h.hafter.gone (((h.hmarked.gone hgone).eval hjunk hv h.heval).freed h.reg)

/-- A value in `%rsi` gets over an argument that is evaluated in one register. -/
theorem StackStep.here {i : Nat} (h7 : 7 ∈ mask) (h : StackStep junk values mask i a w w') (hfull : w.LowFull) (ha : a.Simple) :
    w'.LowFull ∧ w'.rsi = w.rsi ∧ ¬ w'.Spilled := by
  have hhere : Here w.rsi h.marked := ⟨h.hmarked.full hfull, (h.hmarked.used 7).mpr (.inl h7), h.hmarked.rsi⟩
  have hbelow := (hhere.simple ha h.heval).1
  obtain ⟨hloose, hrsi⟩ := hbelow.freed
  have hafter := h.hafter
  rw [(full_eval hhere.full h.heval).1] at hafter
  refine ⟨hafter.full hloose.full, hafter.rsi.trans hrsi, fun hspilled => ?_⟩
  exact hloose.free (hafter.spilled_iff.mp hspilled).marked

theorem StackStep.lost {i : Nat} (hjunk : ∀ n, p (junk n)) (hv : p (values i)) (h7 : 7 ∈ mask)
    (h : StackStep junk values mask i a w w') (hfull : w.LowFull) (hsaved : w.Spilled → p (w.saved 7)) (ha : ¬ a.Simple) :
    Gone p w' := by
  have hhere : Here w.rsi h.marked := ⟨h.hmarked.full hfull, (h.hmarked.used 7).mpr (.inl h7), h.hmarked.rsi⟩
  have hsaved' : h.marked.Spilled → p (h.marked.saved 7) := by
    intro hspilled
    rw [h.hmarked.saved]
    exact hsaved (h.hmarked.spilled_iff.mp hspilled)
  exact h.hafter.gone ((hhere.not_simple hjunk hv hsaved' ha h.heval).freed h.reg)

theorem StackStep.buried {i : Nat} (hjunk : ∀ n, p (junk n)) (hv : p (values i)) (h : StackStep junk values mask i a w w')
    (hhas : Has p w) : Gone p w' := by
  have hmarked : Has p h.marked := ⟨h.hmarked.full hhas.full, h.hmarked.rsi ▸ hhas.rsi⟩
  exact h.hafter.gone ((hmarked.eval hjunk hv h.heval).freed h.reg)

theorem stack_gone (hjunk : ∀ n, p (junk n)) (hvalues : ∀ ia ∈ args, p (values ia.1)) (hmask : ∀ r ∈ mask, r ∈ w.gen.everUsed)
    (h : Gone p w) : ∃ w', evalStackArgs junk values mask args w = some w' ∧ Gone p w' ∧ Keeps w w' :=
  evalStackArgs_induct hmask h fun _ _ hmem _ _ step hgone => step.gone hjunk (hvalues _ hmem) hgone

theorem stack_here (h7 : 7 ∈ mask) (hmask : ∀ r ∈ mask, r ∈ w.gen.everUsed) (hfull : w.LowFull)
    (hsimple : ∀ ia ∈ args, ia.2.Simple) :
    ∃ w', evalStackArgs junk values mask args w = some w' ∧
      (w'.LowFull ∧ w'.rsi = w.rsi ∧ (args = [] ∧ w' = w ∨ args ≠ [] ∧ ¬ w'.Spilled ∧ w'.Marked)) ∧ Keeps w w' := by
  cases args with
  | nil => exact ⟨w, rfl, ⟨hfull, rfl, .inl ⟨rfl, rfl⟩⟩, .refl w⟩
  | cons ia args =>
      obtain ⟨i, a⟩ := ia
      obtain ⟨w₁, ⟨step⟩, heq⟩ := evalStackArgs_step junk values i a args hmask
      have hmarked : ∀ {i a w₁ w₂}, StackStep junk values mask i a w₁ w₂ → w₂.Marked := fun step =>
        (step.hafter.used 7).mpr (.inl h7)
      obtain ⟨hfull₁, hrsi, hspilled⟩ := step.here h7 hfull (hsimple _ List.mem_cons_self)
      obtain ⟨w', heval, ⟨hfull', hrsi', hspilled', hmarked'⟩, hkeeps⟩ :=
        @evalStackArgs_induct junk values w₁ mask args (fun u => u.LowFull ∧ u.rsi = w.rsi ∧ ¬ u.Spilled ∧ u.Marked)
          (fun r hr => step.keeps.ever (hmask r hr)) ⟨hfull₁, hrsi, hspilled, hmarked step⟩ fun i a hmem u u' step h => by
            obtain ⟨h1, h2, h3⟩ := step.here h7 h.1 (hsimple _ (List.mem_cons_of_mem _ hmem))
            exact ⟨h1, h2.trans h.2.1, h3, hmarked step⟩
      exact ⟨w', heq.trans heval, ⟨hfull', hrsi', .inr ⟨by simp, hspilled', hmarked'⟩⟩, step.keeps.trans hkeeps⟩

theorem stack_lost (hjunk : ∀ n, p (junk n)) (hvalues : ∀ ia ∈ args, p (values ia.1)) (h7 : 7 ∈ mask)
    (hmask : ∀ r ∈ mask, r ∈ w.gen.everUsed) (hfull : w.LowFull) (hsaved : w.Spilled → p (w.saved 7))
    (hsimple : ¬ ∀ ia ∈ args, ia.2.Simple) :
    ∃ w', evalStackArgs junk values mask args w = some w' ∧ Gone p w' ∧ Keeps w w' := by
  induction args generalizing w with
  | nil => exact absurd (by simp) hsimple
  | cons ia args ih =>
      obtain ⟨i, a⟩ := ia
      rw [List.forall_mem_cons] at hvalues hsimple
      obtain ⟨w₁, ⟨step⟩, heq⟩ := evalStackArgs_step junk values i a args hmask
      have hmask₁ : ∀ r ∈ mask, r ∈ w₁.gen.everUsed := fun r hr => step.keeps.ever (hmask r hr)
      rw [heq]
      by_cases ha : a.Simple
      · obtain ⟨hfull₁, -, hspilled⟩ := step.here h7 hfull ha
        obtain ⟨w', heval, hgone, hkeeps⟩ := ih hvalues.2 hmask₁ hfull₁ (fun h => absurd h hspilled) fun h => hsimple ⟨ha, h⟩
        exact ⟨w', heval, hgone, step.keeps.trans hkeeps⟩
      · obtain ⟨w', heval, hgone, hkeeps⟩ :=
          stack_gone hjunk hvalues.2 hmask₁ (step.lost hjunk hvalues.1 h7 hfull hsaved ha)
        exact ⟨w', heval, hgone, step.keeps.trans hkeeps⟩

theorem stack_buried (hjunk : ∀ n, p (junk n)) (hvalues : ∀ ia ∈ args, p (values ia.1))
    (hmask : ∀ r ∈ mask, r ∈ w.gen.everUsed) (h : Has p w) (hargs : args ≠ []) :
    ∃ w', evalStackArgs junk values mask args w = some w' ∧ Gone p w' ∧ Keeps w w' := by
  cases args with
  | nil => exact absurd rfl hargs
  | cons ia args =>
      obtain ⟨i, a⟩ := ia
      rw [List.forall_mem_cons] at hvalues
      obtain ⟨w₁, ⟨step⟩, heq⟩ := evalStackArgs_step junk values i a args hmask
      obtain ⟨w', heval, hgone, hkeeps⟩ := stack_gone hjunk hvalues.2 (fun r hr => step.keeps.ever (hmask r hr))
        (step.buried hjunk hvalues.1 h)
      exact ⟨w', heq.trans heval, hgone, step.keeps.trans hkeeps⟩

end Rcc.CallArgs

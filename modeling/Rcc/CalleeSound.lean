import Mathlib
import Rcc.Callee

/-!
# Arguments reach parameters and `va_arg`

A call and the function it calls count registers and words of the stack in the same way. So what they disagree about is not where an argument is
but what is there: on the stack, a `float` is read as one though a `double` was written, and a structure as its bytes though its address was.

In a variadic function, `%al` says whether there are vector registers to save. But a parameter on the stack and a structure are copied by way of
`%al`, before it is tested.
-/

namespace Rcc.Callee

open Rcc.CallArgs (ArgReg Size Arg ArgType abiReg)
open Answers

variable {narrow : Narrow} {e : Entry} {values : Nat → BitVec 64} {n n' : Next} {r : Regs} {k : Kind} {ks rest : List Kind} {t : ParamType}
  {params : List ParamType} {i : Nat}

/-! ## Places -/

theorem Next.after_le (n : Next) (k : Kind) : n.gp ≤ (n.after k).gp ∧ n.fp ≤ (n.after k).fp := by
  cases k <;> simp only [Next.after] <;> split <;> simp

theorem Next.afterAll_le (n : Next) (ks : List Kind) : n.gp ≤ (ks.foldl Next.after n).gp ∧ n.fp ≤ (ks.foldl Next.after n).fp := by
  induction ks generalizing n with
  | nil => exact ⟨Nat.le_refl _, Nat.le_refl _⟩
  | cons k ks ih => exact ⟨(n.after_le k).1.trans (ih _).1, (n.after_le k).2.trans (ih _).2⟩

theorem places_append (n : Next) (ks rest : List Kind) : places n (ks ++ rest) = places n ks ++ places (ks.foldl Next.after n) rest := by
  induction ks generalizing n with
  | nil => rfl
  | cons k ks ih => exact congrArg (n.place k :: ·) (ih _)

theorem passed_append (index : Nat) (n : Next) (ks rest : List Kind) :
    Passed e values index n (ks ++ rest) ↔ Passed e values index n ks ∧ Passed e values (index + ks.length) (ks.foldl Next.after n) rest := by
  induction ks generalizing index n with
  | nil => exact ⟨fun h => ⟨trivial, h⟩, And.right⟩
  | cons k ks ih =>
      have hindex : index + (k :: ks).length = index + 1 + ks.length := by simp only [List.length_cons]; omega
      rw [hindex]
      exact (and_congr_right fun _ => ih (index + 1) (n.after k)).trans and_assoc.symm

/-- Arguments that all have the same bits. -/
theorem passed_const {v : BitVec 64} (hat : ∀ p, e.at p = v) (index : Nat) (n : Next) (ks : List Kind) :
    Passed e (fun _ => v) index n ks := by
  induction ks generalizing index n with
  | nil => trivial
  | cons k ks ih =>
      refine ⟨?_, ih (index + 1) (n.after k)⟩
      rw [hat]
      cases k <;> rfl

/-! ## Parameters -/

theorem pcopy_eq (src : Nat → BitVec 8) (count : Nat) (al : BitVec 8) (copied : List (BitVec 8)) :
    pcopy src count al copied = (if count = 0 then al else src 0, (List.range count).map src ++ copied) := by
  induction count generalizing al copied with
  | zero => rfl
  | succ count ih =>
      rw [pcopy, ih, List.range_succ, List.map_append, List.append_assoc]
      cases count <;> rfl

/-- The registers that are still to be looked at. -/
structure Untouched (e : Entry) (n : Next) (r : Regs) : Prop where
  gp : r.gp = e.gp
  xmm : ∀ i : Fin 8, n.fp ≤ i → r.xmm i = e.xmm i

theorem Untouched.start (e : Entry) (n : Next) : Untouched e n ⟨e.gp, e.xmm, e.al⟩ := ⟨rfl, fun _ _ => rfl⟩

/-- `%xmm0` is written to once its own parameter has been stored. -/
theorem Untouched.storeParam (h : Untouched e n r) : Untouched e (n.after t.kind) (storeParam narrow e n r t).2 := by
  have hle := n.after_le t.kind
  have hxmm : ∀ i : Fin 8, (n.after t.kind).fp ≤ i → r.xmm i = e.xmm i := fun i hi => h.xmm i (hle.2.trans hi)
  cases t with
  | float =>
      have hne : ∀ i : Fin 8, (n.after .flonum).fp ≤ i → i ≠ 0 := by
        intro i hi heq
        subst heq
        simp only [Next.after] at hi
        split at hi
        · exact absurd hi (by simp)
        · next hfp => exact hfp (Nat.lt_of_le_of_lt hi (by decide))
      rw [Callee.storeParam]
      split
      · exact ⟨h.gp, fun i hi => (Function.update_of_ne (hne i hi) _ _).trans (hxmm i hi)⟩
      · exact ⟨h.gp, fun i hi => (Function.update_of_ne (hne i hi) _ _).trans (hxmm i hi)⟩
  | other k =>
      cases k with
      | flonum =>
          rw [Callee.storeParam]
          split
          · exact ⟨h.gp, hxmm⟩
          · next hfp =>
              refine ⟨h.gp, fun i hi => ?_⟩
              exact absurd (Nat.lt_of_le_of_lt (hle.2.trans hi) i.isLt) hfp
      | integer size =>
          rw [Callee.storeParam]
          split
          · exact ⟨h.gp, hxmm⟩
          · exact ⟨h.gp, hxmm⟩
      | struct_ size big => exact ⟨h.gp, hxmm⟩

/-- A parameter that is read on the stack as it was written there. -/
def ParamType.Plain : ParamType → Prop
  | .float => False
  | .other (.struct_ ..) => False
  | .other _ => True

theorem storeParam_holds (h : Untouched e n r) {v : BitVec 64} (hv : t.kind.Same (e.at (n.place t.kind)) v)
    (hplain : ∀ m, n.place t.kind = .stack m → t.Plain) : t.Holds narrow e v (storeParam narrow e n r t).1 := by
  cases t with
  | float =>
      by_cases hfp : n.fp < 8
      · simp only [ParamType.kind, Next.place, dif_pos hfp, Entry.at, Kind.Same] at hv
        simp [storeParam, dif_pos hfp, ParamType.Holds, h.xmm ⟨n.fp, hfp⟩ (Nat.le_refl _), hv]
      · exact (hplain n.stack (by simp [ParamType.kind, Next.place, hfp])).elim
  | other k =>
      cases k with
      | flonum =>
          by_cases hfp : n.fp < 8
          · simp only [ParamType.kind, Next.place, dif_pos hfp, Entry.at, Kind.Same] at hv
            simp [storeParam, dif_pos hfp, ParamType.Holds, Kind.Same, h.xmm ⟨n.fp, hfp⟩ (Nat.le_refl _), hv]
          · simp only [ParamType.kind, Next.place, dif_neg hfp, Entry.at, Kind.Same] at hv
            simp [storeParam, dif_neg hfp, ParamType.Holds, Kind.Same, Entry.stackWord, hv]
      | integer size =>
          have hbits : size.bits ≤ 64 := by cases size <;> decide
          by_cases hgp : n.gp < 6
          · simp only [ParamType.kind, Next.place, dif_pos hgp, Entry.at, Kind.Same] at hv
            simp [storeParam, dif_pos hgp, ParamType.Holds, Kind.Same, h.gp, hv, hbits]
          · simp only [ParamType.kind, Next.place, dif_neg hgp, Entry.at, Kind.Same] at hv
            simp [storeParam, dif_neg hgp, ParamType.Holds, Kind.Same, Entry.stackWord, hv, hbits]
      | struct_ size big =>
          by_cases hgp : n.gp < 6
          · simp only [ParamType.kind, Next.place, dif_pos hgp, Entry.at, Kind.Same] at hv
            simp [storeParam, dif_pos hgp, ParamType.Holds, pcopy_eq, h.gp, hv]
          · exact (hplain n.stack (by simp [ParamType.kind, Next.place, hgp])).elim

/-- Each parameter is stored from its own place. -/
theorem exists_storeParam (narrow : Narrow) (h : Untouched e n r) (ht : params[i]? = some t) :
    ∃ n' r', Untouched e n' r' ∧ (storeParams narrow e n r params).1[i]? = some (storeParam narrow e n' r' t).1 ∧
      (places n (params.map ParamType.kind))[i]? = some (n'.place t.kind) ∧
      ∀ values index, Passed e values index n (params.map ParamType.kind) → t.kind.Same (e.at (n'.place t.kind)) (values (index + i)) := by
  induction params generalizing n r i with
  | nil => cases ht
  | cons u params ih =>
      cases i with
      | zero =>
          cases ht
          exact ⟨n, r, h, rfl, rfl, fun values index hpassed => hpassed.1⟩
      | succ i =>
          obtain ⟨n', r', h', hcontent, hplace, hpassed⟩ := ih (h.storeParam (t := u)) ht
          refine ⟨n', r', h', hcontent, hplace, fun values index hall => ?_⟩
          have hsame := hpassed values (index + 1) hall.2
          rwa [Nat.add_assoc, Nat.add_comm 1 i] at hsame

/-- 1, as a `double` -/
def one : BitVec 64 := 0x3ff0000000000000

/-- All arguments are 1, or a structure at that address. -/
def Entry.ones (mem : BitVec 8) (below : BitVec 64) : Entry :=
  ⟨fun _ => one, fun _ => one.setWidth 128, 8, fun a => if a < 0 then below else one, fun _ => mem⟩

theorem ones_at (mem : BitVec 8) (below : BitVec 64) (p : Place) : (Entry.ones mem below).at p = one := by
  cases p with
  | reg r => cases r <;> simp [Entry.at, Entry.ones, one]
  | stack m =>
      have hneg : ¬ (16 + 8 * (m : Int) < 0) := by omega
      simp [Entry.at, Entry.ones, hneg]

theorem not_holds_of_not_plain (hone : narrow one = 0x3f800000) {m : Nat} (hplace : n.place t.kind = .stack m) (hplain : ¬ t.Plain) :
    ¬ t.Holds narrow (Entry.ones 1 0) one (storeParam narrow (Entry.ones 1 0) n r t).1 := by
  have hstack : ∀ m, (Entry.ones 1 0).stackWord m = one := fun m => ones_at 1 0 (.stack m)
  cases t with
  | float =>
      have hfp : ¬ n.fp < 8 := by
        intro hfp
        simp [ParamType.kind, Next.place, hfp] at hplace
      intro hholds
      simp only [storeParam, dif_neg hfp, ParamType.Holds, hstack, hone] at hholds
      exact absurd hholds (by decide)
  | other k =>
      cases k with
      | flonum => exact absurd trivial hplain
      | integer size => exact absurd trivial hplain
      | struct_ size big =>
          have hgp : ¬ n.gp < 6 := by
            intro hgp
            simp [ParamType.kind, Next.place, hgp] at hplace
          -- the first byte is one of the address
          intro hholds
          simp only [storeParam, dif_neg hgp, pcopy_eq, ParamType.Holds, List.append_nil] at hholds
          have hfirst := congrArg (·[0]?) hholds
          have hsize : 0 < size := Nat.lt_trans (by decide) big
          simp only [List.getElem?_map, List.getElem?_range hsize, Option.map_some, Option.some_inj, Entry.stackByte, hstack,
            Nat.add_zero, Nat.mul_mod_right] at hfirst
          exact absurd hfirst (by decide)

/-- Every parameter has the value of its argument, whatever the arguments are, exactly if neither a `float` nor a structure of more than
eight bytes is passed on the stack. -/
theorem params_hold_iff (hone : narrow one = 0x3f800000) (hidden : Bool) (params : List ParamType) :
    (∀ (e : Entry) (values : Nat → BitVec 64), Passed e values 0 (.start hidden) (params.map ParamType.kind) →
      ∀ (i : Nat) (t : ParamType), params[i]? = some t →
        ∃ c, (storeParams narrow e (.start hidden) ⟨e.gp, e.xmm, e.al⟩ params).1[i]? = some c ∧ t.Holds narrow e (values i) c) ↔
    ∀ (i : Nat) (t : ParamType) (m : Nat), params[i]? = some t →
      (places (.start hidden) (params.map ParamType.kind))[i]? = some (.stack m) → t.Plain := by
  constructor
  · intro h i t m ht hplace
    by_contra hplain
    obtain ⟨c, hc, hholds⟩ := h (Entry.ones 1 0) _ (passed_const (ones_at 1 0) 0 _ _) i t ht
    obtain ⟨n, r, -, hcontent, hplace', -⟩ := exists_storeParam narrow (Untouched.start (Entry.ones 1 0) (.start hidden)) ht
    obtain rfl := Option.some_inj.mp (hcontent.symm.trans hc)
    exact not_holds_of_not_plain hone (Option.some_inj.mp (hplace'.symm.trans hplace)) hplain hholds
  · intro h e values hpassed i t ht
    obtain ⟨n, r, huntouched, hcontent, hplace, hsame⟩ := exists_storeParam narrow (Untouched.start e (.start hidden)) ht
    refine ⟨_, hcontent, storeParam_holds huntouched ?_ fun m hm => h i t m ht (hplace.trans (congrArg some hm))⟩
    have hvalue := hsame values 0 hpassed
    rwa [Nat.zero_add] at hvalue

/-- `cvtsd2ss` of a value that a `float` has exactly, and that is not too small. -/
def narrowExact : Narrow := fun v => v.extractLsb 63 63 ++ (v.extractLsb 62 52 - 896).extractLsb 7 0 ++ v.extractLsb 51 29

def nineFloats : List ParamType := List.replicate 9 .float

theorem nineFloats_lost : ¬ ∀ (e : Entry) (values : Nat → BitVec 64), Passed e values 0 (.start false) (nineFloats.map ParamType.kind) →
    ∀ (i : Nat) (t : ParamType), nineFloats[i]? = some t →
      ∃ c, (storeParams narrowExact e (.start false) ⟨e.gp, e.xmm, e.al⟩ nineFloats).1[i]? = some c ∧ t.Holds narrowExact e (values i) c :=
  fun h => (params_hold_iff (by decide) false nineFloats).mp h 8 .float 0 rfl rfl

/-! ## `%al` -/

theorem storeParam_al (h : ¬ t.ClobbersAl (n.place t.kind)) : (storeParam narrow e n r t).2.al = r.al := by
  cases t with
  | float =>
      rw [storeParam]
      split <;> rfl
  | other k =>
      cases k with
      | flonum =>
          rw [storeParam]
          split <;> rfl
      | integer size =>
          rw [storeParam]
          split
          · rfl
          · next hgp => exact absurd (by simp [ParamType.kind, Next.place, hgp, ParamType.ClobbersAl]) h
      | struct_ size big => exact absurd trivial h

theorem storeParams_al (h : ¬ clobbersAl n params) : (storeParams narrow e n r params).2.al = r.al := by
  induction params generalizing n r with
  | nil => rfl
  | cons t params ih =>
      rw [storeParams]
      exact (ih fun hrest => h (.inr hrest)).trans (storeParam_al fun ht => h (.inl ht))

theorem storeParam_al_zero (h : r.al = 0 ∨ t.ClobbersAl (n.place t.kind)) : (storeParam narrow (Entry.ones 0 0) n r t).2.al = 0 := by
  by_cases hclobbers : t.ClobbersAl (n.place t.kind)
  · have hstack : ∀ m, (Entry.ones 0 0).stackWord m = one := fun m => ones_at 0 0 (.stack m)
    cases t with
    | float => cases hclobbers
    | other k =>
        cases k with
        | flonum => cases hclobbers
        | integer size =>
            have hgp : ¬ n.gp < 6 := by
              intro hgp
              simp [ParamType.kind, Next.place, hgp, ParamType.ClobbersAl] at hclobbers
            simp only [storeParam, dif_neg hgp, hstack]
            decide
        | struct_ size big =>
            have hsize : size ≠ 0 := Nat.ne_of_gt (Nat.lt_trans (by decide) big)
            simp only [storeParam, pcopy_eq, if_neg hsize]
            split
            · rfl
            · simp only [Entry.stackByte, hstack, Nat.add_zero, Nat.mul_mod_right]
              decide
  · rw [storeParam_al hclobbers]
    exact h.resolve_right hclobbers

theorem storeParams_al_zero (h : r.al = 0 ∨ clobbersAl n params) : (storeParams narrow (Entry.ones 0 0) n r params).2.al = 0 := by
  induction params generalizing n r with
  | nil => exact h.resolve_right id
  | cons t params ih =>
      rw [storeParams]
      refine ih ?_
      rcases h with h | h | h
      · exact .inl (storeParam_al_zero (.inl h))
      · exact .inl (storeParam_al_zero (.inr h))
      · exact .inr h

theorem storeParams_untouched (h : Untouched e n r) :
    Untouched e (params.foldl (fun n t => n.after t.kind) n) (storeParams narrow e n r params).2 := by
  induction params generalizing n r with
  | nil => exact h
  | cons t params ih => exact ih h.storeParam

/-! ## The frame -/

section Writes

variable {κ β : Type*} [DecidableEq κ] {writes : List (κ × β)} {m : κ → β} {a : κ} {v : β}

theorem foldl_update_of_not_mem (h : ∀ w ∈ writes, w.1 ≠ a) : writes.foldl (fun m w => Function.update m w.1 w.2) m a = m a := by
  induction writes generalizing m with
  | nil => rfl
  | cons w writes ih =>
      rw [List.foldl_cons, ih fun w' hw' => h w' (List.mem_cons_of_mem _ hw')]
      exact Function.update_of_ne (h w List.mem_cons_self).symm _ _

/-- All writes to an address write the same. -/
theorem foldl_update_of_mem (h : ∀ w ∈ writes, w.1 = a → w.2 = v) (hmem : ∃ w ∈ writes, w.1 = a) :
    writes.foldl (fun m w => Function.update m w.1 w.2) m a = v := by
  induction writes generalizing m with
  | nil =>
      obtain ⟨w, hw, -⟩ := hmem
      cases hw
  | cons w writes ih =>
      have hrest : ∀ w' ∈ writes, w'.1 = a → w'.2 = v := fun w' hw' => h w' (List.mem_cons_of_mem _ hw')
      by_cases hlater : ∃ w' ∈ writes, w'.1 = a
      · exact ih hrest hlater
      · have hw : w.1 = a := by
          obtain ⟨w', hw', ha⟩ := hmem
          rcases List.mem_cons.mp hw' with rfl | hw'
          · exact ha
          · exact absurd ⟨w', hw', ha⟩ hlater
        rw [List.foldl_cons, foldl_update_of_not_mem fun w' hw' ha => hlater ⟨w', hw', ha⟩, ← h w List.mem_cons_self hw, hw]
        exact Function.update_self _ _ _

end Writes

/-- What is stored into the save area. -/
theorem mem_saves {ofs : Int} {w : Int × BitVec 64} (h : w ∈ saves ofs n r) :
    (∃ i : Fin 6, w = (-(ofs - 8 * i.val), r.gp i)) ∨
      r.al ≠ 0 ∧ ∃ i : Fin 8, w = (-(ofs - 48 - 16 * i.val), (r.xmm i).setWidth 64) ∨
        w = (-(ofs - 48 - 16 * i.val) + 8, (r.xmm i).extractLsb 127 64) := by
  rw [saves, List.mem_append] at h
  rcases h with h | h
  · obtain ⟨i, -, rfl⟩ := List.mem_map.mp h
    exact .inl ⟨i, rfl⟩
  · split at h
    · next hal =>
        obtain ⟨i, -, hi⟩ := List.mem_flatMap.mp h
        simp only [List.mem_cons, List.not_mem_nil, or_false] at hi
        exact .inr ⟨hal.2, i, hi⟩
    · cases h

theorem gp_mem_saves {j : Fin 6} (hj : n.gp ≤ j.val) (ofs : Int) (r : Regs) : (-(ofs - 8 * j.val), r.gp j) ∈ saves ofs n r :=
  List.mem_append_left _ (List.mem_map.mpr ⟨j, List.mem_filter.mpr ⟨List.mem_finRange j, decide_eq_true hj⟩, rfl⟩)

theorem xmm_mem_saves {j : Fin 8} (hj : n.fp ≤ j.val) (hal : r.al ≠ 0) (ofs : Int) :
    (-(ofs - 48 - 16 * j.val), (r.xmm j).setWidth 64) ∈ saves ofs n r := by
  refine List.mem_append_right _ ?_
  rw [if_pos ⟨Nat.lt_of_le_of_lt hj j.isLt, hal⟩]
  exact List.mem_flatMap.mpr ⟨j, List.mem_filter.mpr ⟨List.mem_finRange j, decide_eq_true hj⟩, List.mem_cons_self⟩

/-- Where an argument is read. -/
def Place.address (ofs : Int) : Place → Int
  | .reg (.gp i) => -ofs + (8 * i.val : Nat)
  | .reg (.xmm i) => -ofs + (16 * i.val + 48 : Nat)
  | .stack n => 16 + 8 * n

theorem vaArg_vaStart (ofs : Int) (n : Next) (k : Kind) : vaArg (vaStart ofs n) k = ((n.place k).address ofs, vaStart ofs (n.after k)) := by
  have hgp : 8 * n.gp ≤ 40 ↔ n.gp < 6 := by omega
  have hfp : 16 * n.fp + 48 ≤ 160 ↔ n.fp < 8 := by omega
  cases k with
  | flonum =>
      by_cases h : n.fp < 8
      · simp [vaArg, vaStart, hfp, h, Next.place, Next.after, Place.address, Nat.mul_add, Nat.add_right_comm]
      · simp [vaArg, vaStart, hfp, h, Next.place, Next.after, Place.address, Int.mul_add, Int.add_assoc]
  | integer size =>
      by_cases h : n.gp < 6
      · simp [vaArg, vaStart, hgp, h, Next.place, Next.after, Place.address, Nat.mul_add]
      · simp [vaArg, vaStart, hgp, h, Next.place, Next.after, Place.address, Int.mul_add, Int.add_assoc]
  | struct_ size big =>
      by_cases h : n.gp < 6
      · simp [vaArg, vaStart, hgp, h, Next.place, Next.after, Place.address, Nat.mul_add]
      · simp [vaArg, vaStart, hgp, h, Next.place, Next.after, Place.address, Int.mul_add, Int.add_assoc]

/-! ## What is in the frame -/

section Frame

variable {f : Function}

theorem entered_untouched (f : Function) (e : Entry) : Untouched e f.next (f.entered narrow e) := storeParams_untouched (.start e _)

theorem frame_gp {j : Fin 6} (hj : f.next.gp ≤ j.val) : f.frame narrow e (Place.address f.vaRegSaveOfs (.reg (.gp j))) = e.gp j := by
  refine foldl_update_of_mem ?_ ⟨_, gp_mem_saves hj _ _, ?_⟩
  · rintro w hw ha
    simp only [Place.address] at ha
    rcases mem_saves hw with ⟨i, rfl⟩ | ⟨-, i, rfl | rfl⟩
    · obtain rfl : i = j := Fin.ext (by simp only at ha; omega)
      exact congrFun (entered_untouched f e).gp i
    · exact absurd ha (by simp only; omega)
    · exact absurd ha (by simp only; omega)
  · simp only [Place.address]
    omega

theorem frame_xmm {j : Fin 8} (hj : f.next.fp ≤ j.val) (hal : (f.entered narrow e).al ≠ 0) :
    f.frame narrow e (Place.address f.vaRegSaveOfs (.reg (.xmm j))) = (e.xmm j).setWidth 64 := by
  refine foldl_update_of_mem ?_ ⟨_, xmm_mem_saves hj hal _, ?_⟩
  · rintro w hw ha
    simp only [Place.address] at ha
    rcases mem_saves hw with ⟨i, rfl⟩ | ⟨-, i, rfl | rfl⟩
    · exact absurd ha (by simp only; omega)
    · obtain rfl : i = j := Fin.ext (by simp only at ha; omega)
      exact congrArg (BitVec.setWidth 64) ((entered_untouched f e).xmm i hj)
    · exact absurd ha (by simp only; omega)
  · simp only [Place.address]
    omega

theorem frame_stack (m : Nat) : f.frame narrow e (Place.address f.vaRegSaveOfs (.stack m)) = e.word (16 + 8 * m) := by
  refine foldl_update_of_not_mem fun w hw ha => ?_
  simp only [Place.address] at ha
  rcases mem_saves hw with ⟨i, rfl⟩ | ⟨-, i, rfl | rfl⟩
  · simp only [Function.vaRegSaveOfs] at ha
    omega
  · simp only [Function.vaRegSaveOfs] at ha
    omega
  · simp only [Function.vaRegSaveOfs] at ha
    omega

/-- Without the vector registers. -/
theorem frame_xmm_unsaved (hal : (f.entered narrow e).al = 0) (j : Fin 8) :
    f.frame narrow e (Place.address f.vaRegSaveOfs (.reg (.xmm j))) = e.word (Place.address f.vaRegSaveOfs (.reg (.xmm j))) := by
  refine foldl_update_of_not_mem fun w hw ha => ?_
  rcases mem_saves hw with ⟨i, rfl⟩ | ⟨hne, -⟩
  · simp only [Place.address] at ha
    omega
  · exact hne hal

/-- What is read of an argument that has no name. -/
theorem frame_place (hle : f.next.gp ≤ n.gp ∧ f.next.fp ≤ n.fp)
    (hal : ∀ j, n.place k = .reg (.xmm j) → (f.entered narrow e).al ≠ 0) :
    f.frame narrow e ((n.place k).address f.vaRegSaveOfs) = e.at (n.place k) := by
  cases k with
  | flonum =>
      by_cases h : n.fp < 8
      · have hplace : n.place .flonum = .reg (.xmm ⟨n.fp, h⟩) := dif_pos h
        rw [hplace]
        exact frame_xmm hle.2 (hal _ hplace)
      · have hplace : n.place .flonum = .stack n.stack := dif_neg h
        rw [hplace]
        exact frame_stack n.stack
  | integer size | struct_ size =>
      simp only [Next.place]
      split
      · exact frame_gp hle.1
      · exact frame_stack n.stack

end Frame

/-! ## Whole runs -/

/-- Each argument in turn. -/
theorem passed_get {index : Nat} (h : Passed e values index n ks) (hk : ks[i]? = some k) :
    k.Same (e.at (((ks.take i).foldl Next.after n).place k)) (values (index + i)) := by
  induction ks generalizing index n i with
  | nil => cases hk
  | cons k' ks ih =>
      cases i with
      | zero =>
          cases hk
          exact h.1
      | succ i =>
          have hsame := ih h.2 hk
          rwa [Nat.add_assoc, Nat.add_comm 1 i] at hsame

theorem passed_of_get {index : Nat}
    (h : ∀ (i : Nat) (k : Kind), ks[i]? = some k → k.Same (e.at (((ks.take i).foldl Next.after n).place k)) (values (index + i))) :
    Passed e values index n ks := by
  induction ks generalizing index n with
  | nil => trivial
  | cons k ks ih =>
      refine ⟨h 0 k rfl, ih fun i k' hk' => ?_⟩
      have hsame := h (i + 1) k' hk'
      rwa [Nat.add_comm i 1, ← Nat.add_assoc, Nat.add_comm 1 i] at hsame

theorem places_get (n : Next) (ks : List Kind) (i : Nat) :
    (places n ks)[i]? = (ks[i]?).map fun k => ((ks.take i).foldl Next.after n).place k := by
  induction ks generalizing n i with
  | nil => rfl
  | cons k ks ih =>
      cases i with
      | zero => rfl
      | succ i => exact ih (n.after k) i

/-- Is there an argument in a vector register? -/
def InXmm (ps : List Place) : Prop := ∃ j, .reg (.xmm j) ∈ ps

section Runs

variable {f : Function}

/-- A list that has got to an argument, as C has it and in memory. -/
def Follows (f : Function) (rest : List Kind) (s : Nat → Option Nat) (l : Nat → VaList) : Prop :=
  ∀ a m, s a = some m → l a = vaStart f.vaRegSaveOfs ((rest.take m).foldl Next.after f.next)

/-- The same answer. -/
def Alike : Option (Kind × BitVec 64) → Option (BitVec 64) → Prop
  | none, none => True
  | some (k, v), some w => k.Same w v
  | _, _ => False

theorem foldl_kind (n : Next) (params : List ParamType) :
    (params.map ParamType.kind).foldl Next.after n = params.foldl (fun n t => n.after t.kind) n := List.foldl_map

theorem follows_update {s : Nat → Option Nat} {l : Nat → VaList} {a m : Nat} (h : Follows f rest s l) :
    Follows f rest (Function.update s a (some m))
      (Function.update l a (vaStart f.vaRegSaveOfs ((rest.take m).foldl Next.after f.next))) := by
  intro b m' hb
  by_cases hba : b = a
  · subst hba
    rw [Function.update_self] at hb ⊢
    rw [Option.some_inj.mp hb]
  · rw [Function.update_of_ne hba] at hb ⊢
    exact h b m' hb

/-- Where the arguments that have no name are found, the lists go through them. -/
theorem refines (hread : ∀ (i : Nat) (k : Kind), rest[i]? = some k →
      k.Same (f.frame narrow e ((((rest.take i).foldl Next.after f.next).place k).address f.vaRegSaveOfs)) (values (f.params.length + i))) :
    Refines (given values f.params.length rest) (f.lists narrow e) (Follows f rest) Alike := by
  intro s l request s' o hfollows hanswer
  cases request with
  | start a =>
      cases hanswer
      exact ⟨_, _, rfl, follows_update hfollows, trivial⟩
  | copy d a =>
      obtain ⟨m, hm, heq⟩ := Option.map_eq_some_iff.mp hanswer
      cases heq
      refine ⟨_, _, rfl, ?_, trivial⟩
      rw [hfollows a m hm]
      exact follows_update hfollows
  | arg a k =>
      obtain ⟨m, hm, hanswer⟩ := Option.bind_eq_some_iff.mp hanswer
      split at hanswer
      · next hk =>
          cases hanswer
          have hnext : (rest.take (m + 1)).foldl Next.after f.next = ((rest.take m).foldl Next.after f.next).after k := by
            rw [List.take_add_one, hk, Option.toList_some, List.foldl_append]
            rfl
          refine ⟨_, _, rfl, ?_, ?_⟩
          · rw [hfollows a m hm, vaArg_vaStart, ← hnext]
            exact follows_update hfollows
          · rw [hfollows a m hm, vaArg_vaStart]
            exact hread m k hk
      · cases hanswer

/-- From here on all arguments are asked for, by one list. -/
theorem given_answers {pre l : List Kind} (values : Nat → BitVec 64) (index : Nat) (hpre : pre ++ l = rest) {s : Nat → Option Nat} (hs : s 0 = some pre.length) :
    ∃ answers, (given values index rest).answers s (l.map (Request.arg 0)) = some answers := by
  induction l generalizing pre s with
  | nil => exact ⟨[], rfl⟩
  | cons k l ih =>
      have hk : rest[pre.length]? = some k := by simp [← hpre]
      have hanswer : (given values index rest).answer s (.arg 0 k) =
          some (Function.update s 0 (some (pre.length + 1)), some (k, values (index + pre.length))) := by
        simp [given, hs, hk]
      obtain ⟨answers, hrest⟩ := @ih (pre ++ [k]) (by rw [← hpre, List.append_assoc, List.singleton_append])
        (Function.update s 0 (some (pre.length + 1))) (by simp)
      exact ⟨_, Machine.answers_cons hanswer hrest⟩

/-- If the answers are right, so is what the frame has at the places of the arguments. -/
theorem read_of_answers {pre l : List Kind} (hpre : pre ++ l = rest) {s : Nat → Option Nat} {lists : Nat → VaList} (hs : s 0 = some pre.length)
    (hlist : lists 0 = vaStart f.vaRegSaveOfs (pre.foldl Next.after f.next))
    (h : ∀ answers, (given values f.params.length rest).answers s (l.map (Request.arg 0)) = some answers →
      ∃ answers', (f.lists narrow e).answers lists (l.map (Request.arg 0)) = some answers' ∧ List.Forall₂ Alike answers answers') :
    ∀ (i : Nat) (k : Kind), l[i]? = some k →
      k.Same (f.frame narrow e ((((l.take i).foldl Next.after (pre.foldl Next.after f.next)).place k).address f.vaRegSaveOfs))
        (values (f.params.length + pre.length + i)) := by
  induction l generalizing pre s lists with
  | nil =>
      intro i k hk
      cases hk
  | cons k l ih =>
      have hk : rest[pre.length]? = some k := by simp [← hpre]
      have hpre' : (pre ++ [k]) ++ l = rest := by rw [← hpre, List.append_assoc, List.singleton_append]
      have hanswer : (given values f.params.length rest).answer s (.arg 0 k) =
          some (Function.update s 0 (some (pre.length + 1)), some (k, values (f.params.length + pre.length))) := by
        simp [given, hs, hk]
      have hread : (f.lists narrow e).answer lists (.arg 0 k) =
          some (Function.update lists 0 (vaStart f.vaRegSaveOfs ((pre.foldl Next.after f.next).after k)),
            some (f.frame narrow e (((pre.foldl Next.after f.next).place k).address f.vaRegSaveOfs))) := by
        simp [Function.lists, hlist, vaArg_vaStart]
      have hsplit : ∀ answers, (given values f.params.length rest).answers (Function.update s 0 (some (pre.length + 1)))
            (l.map (Request.arg 0)) = some answers →
          k.Same (f.frame narrow e (((pre.foldl Next.after f.next).place k).address f.vaRegSaveOfs))
            (values (f.params.length + pre.length)) ∧
          ∃ answers', (f.lists narrow e).answers
              (Function.update lists 0 (vaStart f.vaRegSaveOfs ((pre.foldl Next.after f.next).after k))) (l.map (Request.arg 0)) =
            some answers' ∧ List.Forall₂ Alike answers answers' := by
        intro answers hrest
        obtain ⟨answers', hanswers', halike⟩ := h _ (Machine.answers_cons hanswer hrest)
        obtain ⟨t, o, os, ho, hrest', rfl⟩ := Machine.of_answers_cons hanswers'
        cases hread.symm.trans ho
        cases halike with
        | cons hhead htail => exact ⟨hhead, os, hrest', htail⟩
      intro i k' hk'
      cases i with
      | zero =>
          cases hk'
          obtain ⟨answers, hrest⟩ := given_answers values f.params.length hpre'
            (s := Function.update s 0 (some (pre.length + 1))) (by simp)
          exact (hsplit answers hrest).1
      | succ i =>
          have hsame := ih hpre' (by simp) (by simp) (fun answers hrest => (hsplit answers hrest).2) i k' hk'
          have hindex : f.params.length + (pre ++ [k]).length + i = f.params.length + pre.length + (i + 1) := by
            simp only [List.length_append, List.length_singleton]
            omega
          rw [hindex, List.foldl_append] at hsame
          exact hsame

end Runs

/-! ## The call -/

/-- The kind of an argument that `gen_funcall` passes. -/
def kindOf (a : Arg) : Kind :=
  match a.type with
  | .integer size _ => .integer size
  | .flonum => .flonum

theorem Next.after_bounded (h : n.gp ≤ 6 ∧ n.fp ≤ 8) (k : Kind) : (n.after k).gp ≤ 6 ∧ (n.after k).fp ≤ 8 := by
  cases k <;> simp only [Next.after] <;> split <;> refine ⟨?_, ?_⟩ <;> dsimp only <;> omega

/-- The registers that are counted are those of the ABI. -/
theorem counted (h : n.gp ≤ 6 ∧ n.fp ≤ 8) (before : List Arg) :
    ((before.map kindOf).foldl Next.after n).gp = min 6 (n.gp + before.countP fun a => !a.type.isFlonum) ∧
      ((before.map kindOf).foldl Next.after n).fp = min 8 (n.fp + before.countP fun a => a.type.isFlonum) := by
  induction before generalizing n with
  | nil =>
      simp only [List.map_nil, List.foldl_nil, List.countP_nil, Nat.add_zero]
      omega
  | cons a before ih =>
      obtain ⟨hgp, hfp⟩ := ih (Next.after_bounded h (kindOf a))
      rw [List.map_cons, List.foldl_cons, hgp, hfp, List.countP_cons, List.countP_cons]
      cases ha : a.type with
      | integer size isUnsigned =>
          by_cases hfree : n.gp < 6
          · simp [kindOf, ha, Next.after, hfree, ArgType.isFlonum, Nat.add_assoc, Nat.add_comm 1]
          · simp [kindOf, ha, Next.after, hfree, ArgType.isFlonum]
            omega
      | flonum =>
          by_cases hfree : n.fp < 8
          · simp [kindOf, ha, Next.after, hfree, ArgType.isFlonum, Nat.add_assoc, Nat.add_comm 1]
          · simp [kindOf, ha, Next.after, hfree, ArgType.isFlonum]
            omega

theorem place_abiReg (hidden : Bool) (before : List Arg) (a : Arg) (reg : ArgReg) :
    ((before.map kindOf).foldl Next.after (.start hidden)).place (kindOf a) = .reg reg ↔ abiReg hidden before a = some reg := by
  have hstart : (Next.start hidden).gp ≤ 6 ∧ (Next.start hidden).fp ≤ 8 := by cases hidden <;> decide
  obtain ⟨hgp, hfp⟩ := counted hstart before
  generalize (before.map kindOf).foldl Next.after (.start hidden) = m at hgp hfp
  simp only [Next.start, Nat.zero_add] at hgp hfp
  cases ha : a.type with
  | integer size isUnsigned =>
      have hkind : kindOf a = .integer size := by simp [kindOf, ha]
      have hflo : a.type.isFlonum = false := by rw [ha]; rfl
      by_cases hfree : hidden.toNat + before.countP (fun a => !a.type.isFlonum) < 6
      · have hm : m.gp = hidden.toNat + before.countP fun a => !a.type.isFlonum := by omega
        simp [hkind, Next.place, abiReg, hflo, hm, hfree]
      · have hm : ¬ m.gp < 6 := by omega
        simp [hkind, Next.place, abiReg, hflo, hm, hfree]
  | flonum =>
      have hkind : kindOf a = .flonum := by simp [kindOf, ha]
      have hflo : a.type.isFlonum = true := by rw [ha]; rfl
      by_cases hfree : before.countP (fun a => a.type.isFlonum) < 8
      · have hm : m.fp = before.countP fun a => a.type.isFlonum := by omega
        simp [hkind, Next.place, abiReg, hflo, hm, hfree]
      · have hm : ¬ m.fp < 8 := by omega
        simp [hkind, Next.place, abiReg, hflo, hm, hfree]

/-- Where the call has put the arguments of the registers, and those of the stack are there, the function finds all of them. -/
theorem passed_of_placed {call : CallArgs.Call} {c : CallArgs.Cpu} (hplaced : call.Placed values c) (hregs : ∀ reg, e.at (.reg reg) = c.read reg)
    (hstack : ∀ before a after m, call.args = before ++ a :: after →
      ((before.map kindOf).foldl Next.after (.start call.hasHiddenRetbuf)).place (kindOf a) = .stack m →
      (kindOf a).Same (e.at (.stack m)) (values before.length)) :
    Passed e values 0 (.start call.hasHiddenRetbuf) (call.args.map kindOf) := by
  refine passed_of_get fun i k hk => ?_
  rw [List.getElem?_map, Option.map_eq_some_iff] at hk
  obtain ⟨a, ha, rfl⟩ := hk
  obtain ⟨hi, hget⟩ := List.getElem?_eq_some_iff.mp ha
  have hsplit : call.args = call.args.take i ++ a :: call.args.drop (i + 1) := by
    rw [← hget, List.getElem_cons_drop, List.take_append_drop]
  have hlength : (call.args.take i).length = i := List.length_take_of_le (Nat.le_of_lt hi)
  rw [← List.map_take, Nat.zero_add]
  cases hplace : (((call.args.take i).map kindOf).foldl Next.after (.start call.hasHiddenRetbuf)).place (kindOf a) with
  | stack m =>
      have hsame := hstack _ a _ m hsplit hplace
      rwa [hlength] at hsame
  | reg reg =>
      have hsame := hplaced _ a _ hsplit reg ((place_abiReg _ _ a reg).mp hplace)
      rw [hlength] at hsame
      rw [hregs]
      cases htype : a.type <;> simp only [kindOf, htype] <;> rwa [htype] at hsame

end Rcc.Callee

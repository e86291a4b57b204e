import Rcc.Jump
import Rcc.GenPointerSound

/-!
# The dispatch of `switch`

For a `switch`, `gen` compares the controlling expression with one constant after the other and
jumps. It compares at the width of its promoted type, and orders as its own type is signed or
not. So a constant is always found; but a range that begins below zero or ends there is taken for another one, if the
expression is of an unsigned type that is promoted to `int`.
-/

namespace Rcc.Switch

open FixedWidth
open Rcc.Convert
open Rcc.Pointers (regWidth)

/-! ## What is printed -/

/-- `case_val`, and `case_end` of a range. -/
structure Case where
  val : BitVec 64
  fin : Option (BitVec 64)
deriving DecidableEq, Repr

/-- A case with the labels that are printed for it. -/
structure Numbered where
  label : Nat
  /-- behind the test of a range -/
  skip : Nat
  case : Case
deriving DecidableEq, Repr

/-- The labels, from `rcc_label_count` on. A case may have one (`label_id`), else that is 0. -/
def number : Nat → List (Nat × Case) → List Numbered × Nat
  | count, [] => ([], count)
  | count, (labelId, c) :: rest =>
      let label := if labelId = 0 then count + 1 else labelId
      let count := if labelId = 0 then count + 1 else count
      let skip := if c.fin.isSome then count + 1 else 0
      let count := if c.fin.isSome then count + 1 else count
      (⟨label, skip, c⟩ :: (number count rest).1, (number count rest).2)

/-- `cmp` with a constant. -/
def compareConst (w : Width) (cond : Reg) (val : BitVec 64) : Gen Unit :=
  if fitsInt32 val then Gen.emit [.op (.cmpImm w (val.setWidth 32) cond)]
  else do
    let tmp ← allocReg
    Gen.emit [.op (.movabs val tmp)]
    Gen.emit [.op (.cmp w tmp cond)]
    freeReg tmp

def genCase (w : Width) (isUns : Bool) (cond : Reg) (n : Numbered) : Gen Unit :=
  match n.case.fin with
  | some fin => do
      compareConst w cond n.case.val
      Gen.emit [.jcc (if isUns then .b else .l) n.skip]
      compareConst w cond fin
      Gen.emit [.jcc (if isUns then .be else .le) n.label]
      Gen.emit [.label n.skip]
  | none => do
      compareConst w cond n.case.val
      Gen.emit [.jcc .e n.label]

def genCases (w : Width) (isUns : Bool) (cond : Reg) : List Numbered → Gen Unit
  | [] => pure ()
  | n :: rest => do
      genCase w isUns cond n
      genCases w isUns cond rest

/-- Where the last jump goes: to `default`, which may have a label, or behind the `switch`. -/
def lastTarget (count : Nat) (default_ : Option Nat) (endLabel : Nat) : Nat :=
  match default_ with
  | some labelId => if labelId = 0 then count + 1 else labelId
  | none => endLabel

/-- The cases of `case_next`, the last one first, and the code behind `gen(node->cond)`. -/
def genDispatch (ty : Ty) (cond : Reg) (count : Nat) (cases : List (Nat × Case)) (default_ : Option Nat) (endLabel : Nat) : Gen Unit := do
  genCases (regWidth (opSize ty)) ty.isUnsigned cond (number count cases).1
  Gen.emit [.jmp (lastTarget (number count cases).2 default_ endLabel)]
  freeReg cond

/-! ## Where it should jump -/

/-- The constant of a case, converted to the promoted type. -/
def caseValue (ty : Ty) (val : BitVec 64) : Int := (bitsOf (integerPromotion ty)).wrap val.toInt

def inCase (ty : Ty) (v : Int) (c : Case) : Bool :=
  match c.fin with
  | some fin => caseValue ty c.val ≤ v && v ≤ caseValue ty fin
  | none => v = caseValue ty c.val

/-- The first case that some test picks, or else another label. -/
def pick (test : Numbered → Bool) (cases : List Numbered) (out : Nat) : Nat := ((cases.find? test).map Numbered.label).getD out

/-- The label to jump to. -/
def target (ty : Ty) (v : Int) (count : Nat) (cases : List (Nat × Case)) (default_ : Option Nat) (endLabel : Nat) : Nat :=
  pick (fun n => inCase ty v n.case) (number count cases).1 (lastTarget (number count cases).2 default_ endLabel)

/-- A range with one end below zero that is taken for another by an unsigned comparison, and the value is where it matters. -/
def Crosses (ty : Ty) (v : Int) (c : Case) : Prop :=
  ty.isUnsigned = true ∧ ty.size < 4 ∧ ∃ fin, c.fin = some fin ∧
    (caseValue ty c.val < 0 ∧ 0 ≤ caseValue ty fin ∧ v ≤ caseValue ty fin ∨
      0 ≤ caseValue ty c.val ∧ caseValue ty fin < 0 ∧ caseValue ty c.val ≤ v)

/-- There is no such range, but behind the case that has the value. -/
def Straight (ty : Ty) (v : Int) (cases : List Case) : Prop :=
  ∀ before c after, cases = before ++ c :: after → (∀ d ∈ before, inCase ty v d = false) → ¬ Crosses ty v c

/-- The labels that are there already. -/
def known (cases : List (Nat × Case)) : List Nat := (cases.map Prod.fst).filter (· ≠ 0)

/-- All of them are different, and come from the counter. -/
def LabelsKnown (count : Nat) (cases : List (Nat × Case)) (default_ : Option Nat) (endLabel : Nat) : Prop :=
  (known cases ++ (default_.filter (· ≠ 0)).toList ++ [endLabel]).Nodup ∧
    ∀ n ∈ known cases ++ (default_.filter (· ≠ 0)).toList ++ [endLabel], n ≤ count

/-! ## Picking -/

theorem pick_cons (test : Numbered → Bool) (n : Numbered) (cases : List Numbered) (out : Nat) :
    pick test (n :: cases) out = if test n = true then n.label else pick test cases out := by
  rw [pick, List.find?_cons]
  cases h : test n
  · rfl
  · rfl

theorem pick_mem (test : Numbered → Bool) (cases : List Numbered) (out : Nat) : pick test cases out ∈ cases.map Numbered.label ++ [out] := by
  rw [pick]
  cases h : cases.find? test with
  | none => exact List.mem_append_right _ (List.mem_singleton_self out)
  | some n => exact List.mem_append_left _ (List.mem_map_of_mem (List.mem_of_find?_eq_some h))

/-- Two tests pick the same, if they agree up to the one that the second picks. -/
theorem pick_eq_iff {p q : Numbered → Bool} {cases : List Numbered} {out : Nat} (h : (cases.map Numbered.label ++ [out]).Nodup) :
    pick p cases out = pick q cases out ↔
      ∀ before n after, cases = before ++ n :: after → (∀ d ∈ before, q d = false) → p n = q n := by
  induction cases with
  | nil =>
      refine iff_of_true rfl fun before n after heq => ?_
      cases before <;> cases heq
  | cons m cases ih =>
      rw [List.map_cons, List.cons_append, List.nodup_cons] at h
      have hne : ∀ test, m.label ≠ pick test cases out := fun test heq => h.1 (heq ▸ pick_mem test cases out)
      rw [pick_cons, pick_cons]
      have hfirst : (∀ before n after, m :: cases = before ++ n :: after → (∀ d ∈ before, q d = false) → p n = q n) ↔
          p m = q m ∧ (q m = false → ∀ before n after, cases = before ++ n :: after → (∀ d ∈ before, q d = false) → p n = q n) := by
        constructor
        · intro hall
          refine ⟨hall [] m cases rfl fun d hd => absurd hd List.not_mem_nil, fun hq before n after heq hbefore => ?_⟩
          exact hall (m :: before) n after (by rw [heq]; rfl) (List.forall_mem_cons.mpr ⟨hq, hbefore⟩)
        · rintro ⟨hm, hrest⟩ before n after heq hbefore
          cases before with
          | nil =>
              cases heq
              exact hm
          | cons d before =>
              obtain ⟨rfl, htail⟩ := List.cons.inj heq
              obtain ⟨hq, hbefore⟩ := List.forall_mem_cons.mp hbefore
              exact hrest hq before n after htail hbefore
      rw [hfirst, ← ih h.2]
      cases hp : p m <;> cases hq : q m
      · simp
      · simp [(hne p).symm]
      · simp [hne q]
      · simp

/-! ## Labels -/

/-- What `number` makes of labels that come from the counter. -/
structure Numbering (count count' : Nat) (old : List Nat) (ns : List Numbered) : Prop where
  le : count ≤ count'
  label : ∀ n ∈ ns, n.label ∈ old ∨ count < n.label ∧ n.label ≤ count'
  skip : ∀ n ∈ ns, n.case.fin.isSome = true → count < n.skip ∧ n.skip ≤ count'
  apart : ∀ n ∈ ns, ∀ k ∈ ns, k.case.fin.isSome = true → n.label ≠ k.skip
  nodup : (ns.map Numbered.label).Nodup

theorem known_cons (labelId : Nat) (c : Case) (cases : List (Nat × Case)) :
    known ((labelId, c) :: cases) = if labelId = 0 then known cases else labelId :: known cases := by
  rw [known, List.map_cons, List.filter_cons]
  by_cases h : labelId = 0
  · rw [if_pos h, if_neg (by simp [h])]
    rfl
  · rw [if_neg h, if_pos (decide_eq_true h)]
    rfl

theorem number_numbering {cases : List (Nat × Case)} {count : Nat} (hnodup : (known cases).Nodup) (hle : ∀ n ∈ known cases, n ≤ count) :
    Numbering count (number count cases).2 (known cases) (number count cases).1 := by
  induction cases generalizing count with
  | nil =>
      exact ⟨le_refl _, fun n h => absurd h List.not_mem_nil, fun n h => absurd h List.not_mem_nil,
        fun n h => absurd h List.not_mem_nil, List.nodup_nil⟩
  | cons a cases ih =>
      obtain ⟨labelId, c⟩ := a
      rw [known_cons] at hnodup hle ⊢
      rw [number]
      dsimp only
      generalize hc1 : (if labelId = 0 then count + 1 else count) = count₁
      generalize hc2 : (if c.fin.isSome = true then count₁ + 1 else count₁) = count₂
      generalize hl : (if labelId = 0 then count + 1 else labelId) = label
      have hold : (known cases).Nodup ∧ (∀ n ∈ known cases, n ≤ count) ∧ label ∉ known cases ∧
          (labelId = 0 ∧ label = count + 1 ∧ count₁ = count + 1 ∨ labelId ≠ 0 ∧ label = labelId ∧ label ≤ count ∧ count₁ = count) := by
        by_cases h0 : labelId = 0
        · rw [if_pos h0] at hnodup hle hc1 hl
          refine ⟨hnodup, hle, fun hmem => ?_, .inl ⟨h0, hl.symm, hc1.symm⟩⟩
          have hbound := hle label hmem
          omega
        · rw [if_neg h0] at hnodup hle hc1 hl
          obtain ⟨hnot, hnodup⟩ := List.nodup_cons.mp hnodup
          obtain ⟨hbound, hle⟩ := List.forall_mem_cons.mp hle
          exact ⟨hnodup, hle, hl ▸ hnot, .inr ⟨h0, hl.symm, by omega, hc1.symm⟩⟩
      obtain ⟨hnodup', hle', hnot, hlabel⟩ := hold
      have hsteps : count ≤ count₁ ∧ count₁ ≤ count₂ ∧ (c.fin.isSome = true → count₂ = count₁ + 1) := by
        refine ⟨by omega, ?_, fun hsome => by rw [← hc2, if_pos hsome]⟩
        rw [← hc2]
        split <;> omega
      obtain ⟨hs1, hs2, hs3⟩ := hsteps
      have hrest := @ih count₂ hnodup' (fun n hn => by have hb := hle' n hn; omega)
      have hskip : c.fin.isSome = true → (if c.fin.isSome = true then count₁ + 1 else 0) = count₂ := fun hsome => by
        rw [if_pos hsome, hs3 hsome]
      have hlater : ∀ n ∈ (number count₂ cases).1, n.label ∈ known cases ∨ count₂ < n.label := fun n hn =>
        (hrest.label n hn).imp_right And.left
      have hle2 := hrest.le
      refine ⟨by omega, ?_, ?_, ?_, ?_⟩
      · refine List.forall_mem_cons.mpr ⟨?_, fun n hn => ?_⟩
        · by_cases h0 : labelId = 0
          · exact .inr ⟨by show count < label; omega, by show label ≤ _; omega⟩
          · rw [if_neg h0]
            have heq : label = labelId := by omega
            exact .inl (List.mem_cons.mpr (.inl heq))
        · rcases hrest.label n hn with hn | hn
          · refine .inl ?_
            split
            · exact hn
            · exact List.mem_cons_of_mem _ hn
          · exact .inr ⟨by omega, hn.2⟩
      · refine List.forall_mem_cons.mpr ⟨fun hsome => ?_, fun n hn hsome => ?_⟩
        · show count < (if c.fin.isSome = true then count₁ + 1 else 0) ∧ (if c.fin.isSome = true then count₁ + 1 else 0) ≤ _
          rw [hskip hsome]
          have hs := hs3 hsome
          omega
        · have hrange := hrest.skip n hn hsome
          omega
      · refine List.forall_mem_cons.mpr ⟨?_, fun n hn => ?_⟩
        · refine List.forall_mem_cons.mpr ⟨fun hsome => ?_, fun k hk hsome => ?_⟩
          · show label ≠ (if c.fin.isSome = true then count₁ + 1 else 0)
            rw [hskip hsome]
            have hs := hs3 hsome
            omega
          · have hrange := hrest.skip k hk hsome
            show label ≠ k.skip
            omega
        · refine List.forall_mem_cons.mpr ⟨fun hsome => ?_, fun k hk hsome => hrest.apart n hn k hk hsome⟩
          show n.label ≠ (if c.fin.isSome = true then count₁ + 1 else 0)
          rw [hskip hsome]
          have hs := hs3 hsome
          rcases hlater n hn with hn | hn
          · have hb := hle' _ hn
            omega
          · omega
      · rw [List.map_cons, List.nodup_cons]
        refine ⟨fun hmem => ?_, hrest.nodup⟩
        obtain ⟨n, hn, heq⟩ := List.mem_map.mp hmem
        have heq : n.label = label := heq
        rcases hlater n hn with hn | hn
        · rw [heq] at hn
          exact hnot hn
        · omega

/-- All labels that are jumped to are different. -/
theorem targets_nodup {cases : List (Nat × Case)} {count endLabel : Nat} {default_ : Option Nat}
    (h : LabelsKnown count cases default_ endLabel) : ((number count cases).1.map Numbered.label ++
      [lastTarget (number count cases).2 default_ endLabel]).Nodup := by
  obtain ⟨hnodup, hle⟩ := h
  rw [List.append_assoc] at hnodup hle
  obtain ⟨hknown, _, hdisjoint⟩ := List.nodup_append.mp hnodup
  have hnumbers := number_numbering hknown fun n hn => hle n (List.mem_append_left _ hn)
  refine List.nodup_append.mpr ⟨hnumbers.nodup, List.nodup_singleton _, fun a ha b hb => ?_⟩
  obtain rfl := List.mem_singleton.mp hb
  obtain ⟨n, hn, rfl⟩ := List.mem_map.mp ha
  have hlast : lastTarget (number count cases).2 default_ endLabel = (number count cases).2 + 1 ∨
      lastTarget (number count cases).2 default_ endLabel ∈ (default_.filter (· ≠ 0)).toList ++ [endLabel] := by
    cases default_ with
    | none => exact .inr (List.mem_append_right _ (List.mem_singleton_self _))
    | some labelId =>
        by_cases h0 : labelId = 0
        · exact .inl (if_pos h0)
        · refine .inr (List.mem_append_left _ ?_)
          have hfilter : (some labelId).filter (· ≠ 0) = some labelId := Option.filter_some_pos (decide_eq_true h0)
          rw [hfilter]
          exact List.mem_singleton.mpr (if_neg h0)
  rcases hnumbers.label n hn with hold | hnew
  · have hbound := hle n.label (List.mem_append_left _ hold)
    have hcount := hnumbers.le
    rcases hlast with hlast | hlast
    · omega
    · exact hdisjoint _ hold _ hlast
  · rcases hlast with hlast | hlast
    · omega
    · have hbound := hle _ (List.mem_append_right _ hlast)
      omega

/-! ## One comparison -/

/-- The flags of the comparison with a constant, at a width. -/
def compared : Width → BitVec 64 → BitVec 64 → Flags
  | .l, x, val => .ofSub (x.setWidth 32) (val.setWidth 32)
  | .q, x, val => .ofSub x val

/-- The expression has its register, and `alloc_reg` does not spill that one. -/
structure Held (cond : Reg) (s : GenState) : Prop where
  used : cond ∈ s.used
  kept : s.used = Finset.univ → cond ≠ 7

variable {w : Width} {cond : Reg} {val : BitVec 64} {s : GenState}

theorem reg_set (m : Machine) (r : Reg) (v : BitVec 64) : (m.set r v).reg r = v := by
  rw [Machine.set_reg, Function.update_self]

theorem exec_cmpImm (h : fitsInt32 val = true) (w : Width) (cond : Reg) (m : Machine) :
    exec [.op (.cmpImm w (val.setWidth 32) cond)] m = some { m with flags := some (compared w (m.reg cond) val) } := by
  cases w with
  | l => rfl
  | q =>
      have hval : (val.setWidth 32).signExtend 64 = val := (beq_iff_eq.mp h).symm
      refine Convert.exec_one ?_
      rw [Op.run, hval]
      rfl

theorem exec_cmp (w : Width) (tmp cond : Reg) {m : Machine} (h : m.reg tmp = val) :
    exec [.op (.cmp w tmp cond)] m = some { m with flags := some (compared w (m.reg cond) val) } := by
  subst h
  cases w with
  | l => rfl
  | q => rfl

/-- A register that is taken and given back at once is another one, whether it has to be spilled or not. -/
theorem borrow_register (cond : Reg) (s : GenState) : ∃ tmp before s₁ after s₂, allocReg s = some (tmp, before, s₁) ∧
    freeReg tmp s₁ = some ((), after, s₂) ∧ (∀ n, .label n ∉ before ++ after) ∧ (Held cond s → cond ≠ tmp ∧ Held cond s₂ ∧
      (∀ m, ∃ m', exec before m = some m' ∧ m'.reg cond = m.reg cond) ∧
      ∀ m, ∃ m', exec after m = some m' ∧ m'.reg cond = m.reg cond ∧ m'.flags = m.flags) := by
  by_cases hfull : s.used = Finset.univ
  · refine ⟨7, _, s.spill 7, _, _, allocReg_full hfull, freeReg_spilled (Finset.mem_insert_self _ _), by simp, fun h => ?_⟩
    have hne := h.kept hfull
    have hused : cond ∈ ((s.spill 7).drop 7).used :=
      Finset.mem_erase.mpr ⟨hne, Finset.mem_insert_of_mem (Finset.mem_erase.mpr ⟨hne, h.used⟩)⟩
    exact ⟨hne, ⟨hused, fun _ => hne⟩, fun m => ⟨_, rfl, rfl⟩, fun m => ⟨_, rfl, m.set_reg_of_ne _ hne, rfl⟩⟩
  · obtain ⟨i, hi, hlow⟩ := exists_lowest_free hfull
    have hspilled : i ∉ s.spilled := fun hmem => hi (s.spilled_used hmem)
    refine ⟨i, [], s.take i, [], _, allocReg_free hi hlow, freeReg_unspilled hspilled, fun n => List.not_mem_nil, fun h => ?_⟩
    have hne : cond ≠ i := fun heq => hi (heq ▸ h.used)
    have hused : cond ∈ ((s.take i).drop i).used := Finset.mem_erase.mpr ⟨hne, Finset.mem_insert_of_mem h.used⟩
    have hfree : ((s.take i).drop i).used ≠ Finset.univ := fun hall => by
      have hmem : i ∈ ((s.take i).drop i).used := hall ▸ Finset.mem_univ i
      exact Finset.ne_of_mem_erase hmem rfl
    exact ⟨hne, ⟨hused, fun hall => absurd hall hfree⟩, fun m => ⟨m, rfl, rfl⟩, fun m => ⟨m, rfl, rfl, rfl⟩⟩

/-- What is printed for a constant that goes through a register. -/
theorem compareConst_wide {tmp : Reg} {before after : List Line} {s₁ s₂ : GenState} (hwide : ¬ fitsInt32 val = true)
    (halloc : allocReg s = some (tmp, before, s₁)) (hfree : freeReg tmp s₁ = some ((), after, s₂)) : compareConst w cond val s =
      some ((), before ++ ([.op (.movabs val tmp)] ++ ([.op (.cmp w tmp cond)] ++ after)), s₂) := by
  rw [compareConst, if_neg hwide]
  refine Gen.bind_eq_some.mpr ⟨tmp, before, s₁, _, halloc, ?_, rfl⟩
  refine Gen.bind_eq_some.mpr ⟨(), _, s₁, _, rfl, ?_, rfl⟩
  exact Gen.bind_eq_some.mpr ⟨(), _, s₁, after, rfl, hfree, rfl⟩

/-- A comparison leaves the register as it is, and its flags are those of the constant at that width. -/
theorem compareConst_spec (w : Width) (cond : Reg) (val : BitVec 64) (s : GenState) :
    ∃ lines s', compareConst w cond val s = some ((), lines, s') ∧ (∀ n, .label n ∉ lines) ∧ (fitsInt32 val = true → s' = s) ∧
      (Held cond s → Held cond s') ∧ (fitsInt32 val = true ∨ Held cond s → ∀ m, ∃ m', exec lines m = some m' ∧
        m'.reg cond = m.reg cond ∧ m'.flags = some (compared w (m.reg cond) val)) := by
  by_cases hfits : fitsInt32 val = true
  · rw [compareConst, if_pos hfits]
    exact ⟨_, s, rfl, by simp, fun _ => rfl, id, fun _ m => ⟨_, exec_cmpImm hfits w cond m, rfl, rfl⟩⟩
  obtain ⟨tmp, before, s₁, after, s₂, halloc, hfree, hlabels, hborrow⟩ := borrow_register cond s
  refine ⟨_, s₂, compareConst_wide hfits halloc hfree, fun n => ?_, fun h => absurd h hfits, fun h => (hborrow h).2.1, fun h m => ?_⟩
  · have hn := hlabels n
    simp only [List.mem_append, not_or] at hn
    simp [hn.1, hn.2]
  · obtain ⟨hne, _, hbefore, hafter⟩ := hborrow (h.resolve_left hfits)
    obtain ⟨m₁, hrun₁, hreg₁⟩ := hbefore m
    have hmov : exec [.op (.movabs val tmp)] m₁ = some (m₁.set tmp val) := rfl
    have hreg₂ : (m₁.set tmp val).reg cond = m.reg cond := by rw [Machine.set_reg_of_ne _ _ hne, hreg₁]
    have hcmp := @exec_cmp val w tmp cond (m₁.set tmp val) (reg_set m₁ tmp val)
    rw [hreg₂] at hcmp
    obtain ⟨m₄, hrun₄, hreg₄, hflags₄⟩ := hafter { m₁.set tmp val with flags := some (compared w (m.reg cond) val) }
    exact ⟨m₄, exec_append_of_some hrun₁ (exec_append_of_some hmov (exec_append_of_some hcmp hrun₄)), hreg₄.trans hreg₂, hflags₄⟩

/-! ## The dispatch -/

/-- What the tests of a case find out about the register. -/
def coded (w : Width) (isUns : Bool) (x : BitVec 64) (c : Case) : Bool :=
  match c.fin with
  | some fin => !CC.holds (if isUns then .b else .l) (compared w x c.val) && CC.holds (if isUns then .be else .le) (compared w x fin)
  | none => CC.e.holds (compared w x c.val)

/-- Code that is run to its end or left for a label, with the register as it was. -/
def Ends (cond : Reg) (lines : List Line) (m : Machine) (out : Option Nat) : Prop :=
  ∃ m', runTo lines none m = some (out, m') ∧ m'.reg cond = m.reg cond

variable {lines rest : List Line} {m : Machine} {isUns : Bool}

theorem Ends.next {out : Option Nat} (h : Ends cond lines m none) (hrest : ∀ m', m'.reg cond = m.reg cond → Ends cond rest m' out) :
    Ends cond (lines ++ rest) m out := by
  obtain ⟨m', hrun, hreg⟩ := h
  obtain ⟨m'', hrun', hreg'⟩ := hrest m' hreg
  exact ⟨m'', (runTo_append_of_some hrun).trans hrun', hreg'.trans hreg⟩

/-- A jump out of the code passes over what comes behind it. -/
theorem Ends.pass {n : Nat} (h : Ends cond lines m (some n)) (hrest : .label n ∉ rest) : Ends cond (lines ++ rest) m (some n) := by
  obtain ⟨m', hrun, hreg⟩ := h
  exact ⟨m', (runTo_append_of_some hrun).trans (runTo_skip hrest m'), hreg⟩

/-- A comparison and a jump. -/
theorem compare_jump (w : Width) (cond : Reg) (val : BitVec 64) (cc : CC) (n : Nat) (s : GenState) :
    ∃ lines s', compareConst w cond val s = some ((), lines, s') ∧ (∀ k, .label k ∉ lines ++ [.jcc cc n]) ∧
      (fitsInt32 val = true → s' = s) ∧ (Held cond s → Held cond s') ∧ (fitsInt32 val = true ∨ Held cond s → ∀ m,
        Ends cond (lines ++ [.jcc cc n]) m (if cc.holds (compared w (m.reg cond) val) then some n else none)) := by
  obtain ⟨lines, s', hgen, hlabels, hsame, hheld, hrun⟩ := compareConst_spec w cond val s
  refine ⟨lines, s', hgen, fun k => by simp [hlabels k], hsame, hheld, fun h m => ?_⟩
  obtain ⟨m', hexec, hreg, hflags⟩ := hrun h m
  refine ⟨m', ?_, hreg⟩
  rw [runTo_append_of_some (runTo_of_exec hexec), runTo_jcc hflags]
  rfl

/-- The constants are compared without another register. -/
def Narrow (c : Case) : Prop := fitsInt32 c.val = true ∧ ∀ fin, c.fin = some fin → fitsInt32 fin = true

/-- A case is left for its label, or the next one is tested. -/
theorem genCase_spec (w : Width) (isUns : Bool) (cond : Reg) (n : Numbered) (hskip : n.case.fin.isSome = true → n.label ≠ n.skip) (s : GenState) :
    ∃ lines s', genCase w isUns cond n s = some ((), lines, s') ∧ (∀ k, .label k ∈ lines → n.case.fin.isSome = true ∧ k = n.skip) ∧
      (Narrow n.case → s' = s) ∧ (Held cond s → Held cond s') ∧ (Narrow n.case ∨ Held cond s → ∀ m,
        Ends cond lines m (if coded w isUns (m.reg cond) n.case then some n.label else none)) := by
  rw [genCase]
  cases hfin : n.case.fin with
  | none =>
      obtain ⟨lines, s', hgen, hlabels, hsame, hheld, hrun⟩ := compare_jump w cond n.case.val .e n.label s
      refine ⟨_, s', Gen.bind_eq_some.mpr ⟨(), lines, s', _, hgen, rfl, rfl⟩, fun k hk => absurd hk (hlabels k), fun h => hsame h.1, hheld,
        fun h m => ?_⟩
      have hcoded : coded w isUns (m.reg cond) n.case = CC.e.holds (compared w (m.reg cond) n.case.val) := by rw [coded, hfin]
      rw [hcoded]
      exact hrun (h.imp_left And.left) m
  | some fin =>
      obtain ⟨lines₁, s₁, hgen₁, hlabels₁, hsame₁, hheld₁, hrun₁⟩ := compare_jump w cond n.case.val (if isUns then .b else .l) n.skip s
      obtain ⟨lines₂, s₂, hgen₂, hlabels₂, hsame₂, hheld₂, hrun₂⟩ := compare_jump w cond fin (if isUns then .be else .le) n.label s₁
      have hne : n.label ≠ n.skip := hskip (hfin ▸ rfl)
      refine ⟨(lines₁ ++ [.jcc (if isUns then .b else .l) n.skip]) ++ ((lines₂ ++ [.jcc (if isUns then .be else .le) n.label]) ++ [.label n.skip]),
        s₂, ?_, fun k hk => ⟨rfl, ?_⟩, fun h => (hsame₂ (h.2 fin hfin)).trans (hsame₁ h.1), fun h => hheld₂ (hheld₁ h), fun h m => ?_⟩
      · refine Gen.bind_eq_some.mpr ⟨(), lines₁, s₁, _, hgen₁, ?_, List.append_assoc _ _ _⟩
        refine Gen.bind_eq_some.mpr ⟨(), _, s₁, _, rfl, ?_, rfl⟩
        refine Gen.bind_eq_some.mpr ⟨(), lines₂, s₂, _, hgen₂, ?_, List.append_assoc _ _ _⟩
        exact Gen.bind_eq_some.mpr ⟨(), _, s₂, _, rfl, rfl, rfl⟩
      · rcases List.mem_append.mp hk with hk | hk
        · exact absurd hk (hlabels₁ k)
        rcases List.mem_append.mp hk with hk | hk
        · exact absurd hk (hlabels₂ k)
        · cases List.mem_singleton.mp hk
          rfl
      · have hcoded : coded w isUns (m.reg cond) n.case = (!CC.holds (if isUns then .b else .l) (compared w (m.reg cond) n.case.val) &&
            CC.holds (if isUns then .be else .le) (compared w (m.reg cond) fin)) := by rw [coded, hfin]
        have hfirst := hrun₁ (h.imp_left And.left) m
        rw [hcoded]
        cases hbelow : CC.holds (if isUns then .b else .l) (compared w (m.reg cond) n.case.val) with
        | true =>
            -- below the range: the second comparison is passed over
            rw [hbelow, if_pos rfl] at hfirst
            obtain ⟨m', hrun, hreg⟩ := hfirst
            refine ⟨m', ?_, hreg⟩
            rw [runTo_append_of_some hrun, runTo_append_of_some (runTo_skip (hlabels₂ n.skip) m')]
            exact runTo_label n.skip [] m'
        | false =>
            rw [hbelow, if_neg Bool.false_ne_true] at hfirst
            refine hfirst.next fun m' hreg => ?_
            have hsecond := hrun₂ (h.imp (fun hnarrow => hnarrow.2 fin hfin) hheld₁) m'
            rw [hreg] at hsecond
            cases hle : CC.holds (if isUns then .be else .le) (compared w (m.reg cond) fin) with
            | true =>
                rw [hle, if_pos rfl] at hsecond
                exact hsecond.pass fun hmem => hne (Line.label.inj (List.mem_singleton.mp hmem))
            | false =>
                rw [hle, if_neg Bool.false_ne_true] at hsecond
                exact hsecond.next fun m'' _ => ⟨m'', rfl, rfl⟩

/-- No case has the label that is printed behind a range. -/
def Apart (cases : List Numbered) : Prop := ∀ n ∈ cases, ∀ k ∈ cases, k.case.fin.isSome = true → n.label ≠ k.skip

theorem Apart.tail {n : Numbered} {cases : List Numbered} (h : Apart (n :: cases)) : Apart cases := fun a ha k hk =>
  h a (List.mem_cons_of_mem n ha) k (List.mem_cons_of_mem n hk)

/-- One case after the other is tested, and the code is left for the first one that is found. -/
theorem genCases_spec (w : Width) (isUns : Bool) (cond : Reg) {cases : List Numbered} (hapart : Apart cases) (s : GenState) :
    ∃ lines s', genCases w isUns cond cases s = some ((), lines, s') ∧
      (∀ k, .label k ∈ lines → ∃ n ∈ cases, n.case.fin.isSome = true ∧ k = n.skip) ∧
      ((∀ n ∈ cases, Narrow n.case) ∨ Held cond s → ∀ m,
        Ends cond lines m ((cases.find? fun n => coded w isUns (m.reg cond) n.case).map Numbered.label)) := by
  induction cases generalizing s with
  | nil => exact ⟨[], s, rfl, fun k hk => absurd hk List.not_mem_nil, fun _ m => ⟨m, rfl, rfl⟩⟩
  | cons n cases ih =>
      obtain ⟨lines₁, s₁, hgen₁, hlabels₁, _, hheld₁, hrun₁⟩ := genCase_spec w isUns cond n
        (hapart n List.mem_cons_self n List.mem_cons_self) s
      obtain ⟨lines₂, s₂, hgen₂, hlabels₂, hrun₂⟩ := ih hapart.tail s₁
      refine ⟨lines₁ ++ lines₂, s₂, Gen.bind_eq_some.mpr ⟨(), lines₁, s₁, lines₂, hgen₁, hgen₂, rfl⟩, fun k hk => ?_, fun h m => ?_⟩
      · rcases List.mem_append.mp hk with hk | hk
        · exact ⟨n, List.mem_cons_self, hlabels₁ k hk⟩
        · obtain ⟨a, ha, hk⟩ := hlabels₂ k hk
          exact ⟨a, List.mem_cons_of_mem n ha, hk⟩
      · have hfirst := hrun₁ (h.imp_left fun hall => hall n List.mem_cons_self) m
        rw [List.find?_cons]
        cases hcoded : coded w isUns (m.reg cond) n.case with
        | true =>
            rw [hcoded, if_pos rfl] at hfirst
            refine hfirst.pass fun hmem => ?_
            obtain ⟨k, hk, hsome, heq⟩ := hlabels₂ n.label hmem
            exact hapart n List.mem_cons_self k (List.mem_cons_of_mem n hk) hsome heq
        | false =>
            rw [hcoded, if_neg Bool.false_ne_true] at hfirst
            exact hfirst.next fun m' hreg => hreg ▸ hrun₂ (h.imp (fun hall a ha => hall a (List.mem_cons_of_mem n ha)) hheld₁) m'

/-! ## Without a register -/

/-- With all registers taken, `%rsi` is handed out again even if the expression is there: then the constant is compared with itself. -/
theorem genCase_full (hfull : s.used = Finset.univ) (w : Width) (isUns : Bool) {n : Numbered} (hsingle : n.case.fin = none)
    (hwide : ¬ fitsInt32 n.case.val = true) : ∃ lines s', genCase w isUns 7 n s = some ((), lines, s') ∧
      ∀ m, ∃ m', runTo lines none m = some (some n.label, m') := by
  have hgen := @compareConst_wide w 7 n.case.val s 7 _ _ _ _ hwide (allocReg_full hfull) (freeReg_spilled (Finset.mem_insert_self _ _))
  have hequal : CC.e.holds (compared w n.case.val n.case.val) = true := by
    cases w with
    | l => exact (CC.holds_e _ _).trans (decide_eq_true rfl)
    | q => exact (CC.holds_e _ _).trans (decide_eq_true rfl)
  rw [genCase, hsingle]
  refine ⟨_, _, Gen.bind_eq_some.mpr ⟨(), _, _, _, hgen, rfl, rfl⟩, fun m => ?_⟩
  obtain ⟨m', hrun, hflags⟩ : ∃ m', exec ([.op (.store .q 7 (s.slots.offset 7).1)] ++ ([.op (.movabs n.case.val 7)] ++
      ([.op (.cmp w 7 7)] ++ [.op (.load .q ((s.spill 7).slots.slot 7) 7)]))) m = some m' ∧
      m'.flags = some (compared w n.case.val n.case.val) := by
    have hcmp := exec_cmp w 7 7 (reg_set (m.store (s.slots.offset 7).1 8 (m.reg 7).toNat) 7 n.case.val)
    rw [reg_set] at hcmp
    exact ⟨_, exec_append_of_some rfl (exec_append_of_some rfl (exec_append_of_some hcmp rfl)), rfl⟩
  refine ⟨m', ?_⟩
  rw [runTo_append_of_some (runTo_of_exec hrun), runTo_jcc hflags, hequal, if_pos rfl]
  rfl

/-- Behind cases that need no register, such a case is always taken. -/
theorem genCases_full (hfull : s.used = Finset.univ) (w : Width) (isUns : Bool) {before after : List Numbered} {n : Numbered}
    (hapart : Apart (before ++ n :: after)) (hnarrow : ∀ d ∈ before, Narrow d.case) (hsingle : n.case.fin = none)
    (hwide : ¬ fitsInt32 n.case.val = true) : ∃ lines s', genCases w isUns 7 (before ++ n :: after) s = some ((), lines, s') ∧
      ∀ m, (∀ d ∈ before, coded w isUns (m.reg 7) d.case = false) → ∃ m', runTo lines none m = some (some n.label, m') := by
  induction before with
  | nil =>
      obtain ⟨lines₁, s₁, hgen₁, hrun₁⟩ := genCase_full hfull w isUns hsingle hwide
      obtain ⟨lines₂, s₂, hgen₂, hlabels₂, _⟩ := genCases_spec w isUns 7 hapart.tail s₁
      refine ⟨lines₁ ++ lines₂, s₂, Gen.bind_eq_some.mpr ⟨(), lines₁, s₁, lines₂, hgen₁, hgen₂, rfl⟩, fun m _ => ?_⟩
      obtain ⟨m', hrun⟩ := hrun₁ m
      refine ⟨m', (runTo_append_of_some hrun).trans (runTo_skip (fun hmem => ?_) m')⟩
      obtain ⟨k, hk, hsome, heq⟩ := hlabels₂ n.label hmem
      exact hapart n List.mem_cons_self k (List.mem_cons_of_mem n hk) hsome heq
  | cons d before ih =>
      obtain ⟨lines₁, s₁, hgen₁, _, hsame₁, _, hrun₁⟩ := genCase_spec w isUns 7 d
        (hapart d List.mem_cons_self d List.mem_cons_self) s
      obtain rfl := hsame₁ (hnarrow d List.mem_cons_self)
      obtain ⟨lines₂, s₂, hgen₂, hrun₂⟩ := ih hapart.tail fun a ha => hnarrow a (List.mem_cons_of_mem d ha)
      refine ⟨lines₁ ++ lines₂, s₂, Gen.bind_eq_some.mpr ⟨(), lines₁, _, lines₂, hgen₁, hgen₂, rfl⟩, fun m hfalse => ?_⟩
      have hfirst := hrun₁ (.inl (hnarrow d List.mem_cons_self)) m
      rw [hfalse d List.mem_cons_self, if_neg Bool.false_ne_true] at hfirst
      obtain ⟨m₁, hrun, hreg⟩ := hfirst
      obtain ⟨m₂, hrun'⟩ := hrun₂ m₁ fun a ha => hreg ▸ hfalse a (List.mem_cons_of_mem d ha)
      exact ⟨m₂, (runTo_append_of_some hrun).trans hrun'⟩

/-! ## The order -/

/-- The range of a case, of values reduced to a type. -/
def within (τ : IntTy) (x : Int) (c : Case) : Bool :=
  match c.fin with
  | some fin => τ.wrap c.val.toInt ≤ x && x ≤ τ.wrap fin.toInt
  | none => x = τ.wrap c.val.toInt

def Width.bits : Width → Nat
  | .l => 32
  | .q => 64

theorem compared_eq (w : Width) (x val : BitVec 64) : compared w x val = .ofSub (x.setWidth (Width.bits w)) (val.setWidth (Width.bits w)) := by
  cases w with
  | l => rfl
  | q => rw [compared, Width.bits, BitVec.setWidth_eq, BitVec.setWidth_eq]

theorem coded_signed {τ : IntTy} (hbits : τ.bits = Width.bits w) (hsigned : τ.signed = true) (x : BitVec 64) (c : Case) :
    coded w false x c = within τ (τ.wrap x.toInt) c := by
  have hle : Width.bits w ≤ 64 := by cases w <;> decide
  have hvalue : ∀ y : BitVec 64, (y.setWidth (Width.bits w)).toInt = τ.wrap y.toInt := by
    intro y
    rw [wrap_toInt_signed (hbits ▸ τ.pos) hle]
    exact congrArg (fun σ : IntTy => σ.wrap y.toInt) (intTy_eq hbits.symm hsigned.symm)
  rw [coded, within]
  cases c.fin with
  | none =>
      rw [compared_eq, CC.holds_e]
      refine decide_eq_decide.mpr ?_
      rw [← BitVec.toInt_inj, hvalue, hvalue]
  | some fin =>
      simp only [compared_eq]
      show (!CC.l.holds _ && CC.le.holds _) = _
      rw [CC.holds_l, CC.holds_le, BitVec.slt, BitVec.sle, hvalue, hvalue, hvalue, ← decide_not]
      refine congrArg (· && _) (decide_eq_decide.mpr not_lt)

theorem coded_unsigned {τ : IntTy} (hbits : τ.bits = Width.bits w) (hsigned : τ.signed = false) (x : BitVec 64) (c : Case) :
    coded w true x c = within τ (τ.wrap x.toInt) c := by
  have hle : Width.bits w ≤ 64 := by cases w <;> decide
  have hvalue : ∀ y : BitVec 64, ((y.setWidth (Width.bits w)).toNat : Int) = τ.wrap y.toInt := by
    intro y
    rw [wrap_toInt_unsigned (hbits ▸ τ.pos) hle]
    exact congrArg (fun σ : IntTy => σ.wrap y.toInt) (intTy_eq hbits.symm hsigned.symm)
  rw [coded, within]
  cases c.fin with
  | none =>
      rw [compared_eq, CC.holds_e]
      refine decide_eq_decide.mpr ?_
      rw [← BitVec.toNat_inj, ← hvalue, ← hvalue, Nat.cast_inj]
  | some fin =>
      simp only [compared_eq]
      show (!CC.b.holds _ && CC.be.holds _) = _
      rw [CC.holds_b, CC.holds_be, BitVec.ult, BitVec.ule, ← hvalue, ← hvalue, ← hvalue, ← decide_not]
      simp only [not_lt, Nat.cast_le]

variable {ty : Ty} {v : Int} {x : BitVec 64} {c : Case}

theorem inCase_eq (ty : Ty) (v : Int) (c : Case) : inCase ty v c = within (bitsOf (integerPromotion ty)) v c := rfl

/-- A word as an `unsigned` and as an `int`. -/
theorem u32_wrap_eq (x : Int) : u32.wrap x = if Convert.i32.wrap x < 0 then Convert.i32.wrap x + 2 ^ 32 else Convert.i32.wrap x := by
  have hrange := Pointers.i32_inRange_iff.mp (Convert.i32.inRange_wrap x)
  have hmod : Convert.i32.wrap x % 2 ^ 32 = x % 2 ^ 32 := Convert.i32.wrap_emod x
  show x % (2 ^ 32 : Nat) = _
  split <;> omega

/-- Without sign, a value of a narrow type is taken to be in the range or outside of it by mistake if the range crosses. -/
theorem within_unsigned_iff (hunsigned : ty.isUnsigned = true) (hsize : ty.size < 4) (hpos : 0 ≤ v) (hmax : v < 2 ^ 31)
    (hprom : integerPromotion ty = tyInt) :
    within u32 v c = inCase ty v c ↔ ¬ Crosses ty v c := by
  have hvalue : ∀ val : BitVec 64, caseValue ty val = Convert.i32.wrap val.toInt := fun val => by rw [caseValue, hprom]
  have hlo := Pointers.i32_inRange_iff.mp (Convert.i32.inRange_wrap c.val.toInt)
  rw [within, inCase, Crosses]
  cases hfin : c.fin with
  | none =>
      refine iff_of_true (decide_eq_decide.mpr ?_) fun hcross => ?_
      · rw [hvalue, u32_wrap_eq]
        split
        · omega
        · exact Iff.rfl
      · obtain ⟨_, _, fin, hnone, _⟩ := hcross
        cases hnone
  | some fin =>
      have hiff : (∃ f, some fin = some f ∧ (caseValue ty c.val < 0 ∧ 0 ≤ caseValue ty f ∧ v ≤ caseValue ty f ∨
          0 ≤ caseValue ty c.val ∧ caseValue ty f < 0 ∧ caseValue ty c.val ≤ v)) ↔
          (caseValue ty c.val < 0 ∧ 0 ≤ caseValue ty fin ∧ v ≤ caseValue ty fin ∨
            0 ≤ caseValue ty c.val ∧ caseValue ty fin < 0 ∧ caseValue ty c.val ≤ v) := by
        simp only [Option.some.injEq, exists_eq_left']
      rw [hiff, Bool.eq_iff_iff]
      simp only [Bool.and_eq_true, decide_eq_true_eq, hvalue, u32_wrap_eq, hunsigned, hsize, true_and]
      have hhi := Pointers.i32_inRange_iff.mp (Convert.i32.inRange_wrap fin.toInt)
      generalize Convert.i32.wrap c.val.toInt = lo at hlo ⊢
      generalize Convert.i32.wrap fin.toInt = hi at hhi ⊢
      split <;> split <;> omega

/-- The tests find out whether the value belongs to the case, unless it is a range that crosses. -/
theorem coded_iff (hint : isInteger ty = true) (hv : Carries ty v x) (c : Case) :
    coded (Pointers.regWidth (opSize ty)) ty.isUnsigned x c = inCase ty v c ↔ ¬ Crosses ty v c := by
  by_cases hsize : ty.size < 4
  · have hprom := promotion_narrow hint hsize
    obtain ⟨hi32, hlow⟩ := (carries_narrow hint hsize).mp hv
    have hop : opSize ty = 4 := if_pos ⟨hint, hsize⟩
    rw [hop]
    cases hunsigned : ty.isUnsigned with
    | true =>
        have hpos : 0 ≤ v := by
          have hrange := (bitsOf ty).inRange_wrap (BitVec.toInt x)
          rw [hlow, IntTy.InRange, IntTy.lo, bitsOf_signed hint, hunsigned] at hrange
          exact hrange.1
        have hvalue : u32.wrap x.toInt = v := by
          rw [u32_wrap_eq, hi32, if_neg (not_lt.mpr hpos)]
        have hmax : v < 2 ^ 31 := hi32 ▸ (Pointers.i32_inRange_iff.mp (Convert.i32.inRange_wrap x.toInt)).2
        have hcoded : coded (Pointers.regWidth 4) true x c = within u32 (u32.wrap x.toInt) c :=
          coded_unsigned (show u32.bits = Width.bits .l from rfl) rfl x c
        rw [← within_unsigned_iff hunsigned hsize hpos hmax hprom, hcoded, hvalue]
    | false =>
        refine iff_of_true ?_ fun hcross => absurd (hunsigned.symm.trans hcross.1) Bool.false_ne_true
        rw [inCase_eq, hprom, ← hi32]
        exact coded_signed (show Convert.i32.bits = Width.bits .l from rfl) rfl x c
  · have hprom := promotion_wide hsize
    have hlow : (bitsOf ty).wrap x.toInt = v := hv .low
    have hbits : (bitsOf ty).bits = Width.bits (Pointers.regWidth (opSize ty)) := by
      have hop : opSize ty = ty.size := by
        rw [opSize, if_neg (fun hand => hsize hand.2)]
        rcases size_cases hint with h | h | h | h <;> rw [h] <;> rfl
      rw [bitsOf_bits hint, hop]
      rcases size_cases hint with h | h | h | h
      · omega
      · omega
      · rw [h]
        rfl
      · rw [h]
        rfl
    refine iff_of_true ?_ fun hcross => hsize hcross.2.1
    rw [inCase_eq, hprom, ← hlow]
    have hsigned := bitsOf_signed hint
    cases hunsigned : ty.isUnsigned with
    | true => exact coded_unsigned hbits (by rw [hsigned, hunsigned]; rfl) x c
    | false => exact coded_signed hbits (by rw [hsigned, hunsigned]; rfl) x c

/-! ## The dispatch as a whole -/

theorem number_case (count : Nat) (cases : List (Nat × Case)) : (number count cases).1.map Numbered.case = cases.map Prod.snd := by
  induction cases generalizing count with
  | nil => rfl
  | cons a cases ih => exact congrArg (a.2 :: ·) (ih _)

theorem straight_iff (ty : Ty) (v : Int) (ns : List Numbered) : Straight ty v (ns.map Numbered.case) ↔
    ∀ before n after, ns = before ++ n :: after → (∀ d ∈ before, inCase ty v d.case = false) → ¬ Crosses ty v n.case := by
  constructor
  · rintro h before n after rfl hbefore
    refine h (before.map Numbered.case) n.case (after.map Numbered.case) (by rw [List.map_append, List.map_cons]) fun d hd => ?_
    obtain ⟨a, ha, rfl⟩ := List.mem_map.mp hd
    exact hbefore a ha
  · intro h before c after heq hbefore
    obtain ⟨before', rest, rfl, rfl, hrest⟩ := List.map_eq_append_iff.mp heq
    obtain ⟨n, after', rfl, rfl, rfl⟩ := List.map_eq_cons_iff.mp hrest
    exact h before' n after' rfl fun d hd => hbefore d.case (List.mem_map_of_mem hd)

theorem labels_apart {cases : List (Nat × Case)} {count endLabel : Nat} {default_ : Option Nat}
    (h : LabelsKnown count cases default_ endLabel) : Apart (number count cases).1 := by
  obtain ⟨hnodup, hle⟩ := h
  rw [List.append_assoc] at hnodup hle
  exact (number_numbering (List.nodup_append.mp hnodup).1 fun n hn => hle n (List.mem_append_left _ hn)).apart

/-- The last jump is taken if no other one was. -/
theorem runTo_last {out : Option Nat} {back : List Line} {last : Nat} {m' : Machine} (hback : ∀ n, .label n ∉ back)
    (h : runTo lines none m = some (out, m')) : runTo (lines ++ ([.jmp last] ++ back)) none m = some (some (out.getD last), m') := by
  rw [runTo_append_of_some h]
  cases out with
  | some n => exact runTo_skip (List.not_mem_cons_of_ne_of_not_mem (fun heq => by cases heq) (hback n)) m'
  | none => exact runTo_skip (hback last) m'

variable {count endLabel : Nat} {cases : List (Nat × Case)} {default_ : Option Nat}

/-- The tests and the last jump. -/
theorem genDispatch_eq {tests : List Line} {s₁ : GenState}
    (h : genCases (Pointers.regWidth (opSize ty)) ty.isUnsigned cond (number count cases).1 s = some ((), tests, s₁)) :
    ∃ lines s', genDispatch ty cond count cases default_ endLabel s = some ((), lines, s') ∧
      ∀ m out m', runTo tests none m = some (out, m') →
        runTo lines none m = some (some (out.getD (lastTarget (number count cases).2 default_ endLabel)), m') := by
  obtain ⟨back, s₂, hfree, hback, _⟩ := freeReg_quiet cond s₁
  refine ⟨_, s₂, Gen.bind_eq_some.mpr ⟨(), tests, s₁, _, h, Gen.bind_eq_some.mpr ⟨(), _, s₁, back, rfl, hfree, rfl⟩, rfl⟩, ?_⟩
  exact fun m out m' hrun => runTo_last hback hrun

/-- `case -5 ... 10:`, and `case 20:` before it -/
def twoCases : List (Nat × Case) := [(0, ⟨-5, some 10⟩), (0, ⟨20, none⟩)]

theorem twoCases_labels : LabelsKnown 1 twoCases none 1 := ⟨by decide, by decide⟩

/-- `%r10` is 3, and so are the others. -/
def threes : Machine := { reg := fun _ => 3, al := 0, flags := none, mem := fun _ => 0 }

end Rcc.Switch

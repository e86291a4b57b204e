import Rcc.StructDecl
import Rcc.Steps

/-!
# Members and their bits

`endOf` is how far the last member reaches, in bits. A new member is in order
with all before it if it begins no earlier than that (`apart_push`), so the
whole question is what the member loop knows of `endOf`.

Outside the Microsoft layout it is `Cursor`: the last member ends at or before
`bit_pos`, and `bit_pos` is within the first `offset` bytes. One step can break
it, a bit-field with an alignment above the size of its type, which goes to the
beginning of the unit it would have fitted in when that is aligned already.

In runs it is `InRun`: the last member ends within the first `offset` bytes and
at or before the cursor of the run. That is lost when a bit-field joins a run
for which no unit was reserved, as zero-width bit-fields allow.
-/

namespace Rcc.StructDecl

/-! ## Rounding -/

theorem alignTo_two_pow (n k : Nat) : alignTo n (2 ^ k) = (n + 2 ^ k - 1) / 2 ^ k * 2 ^ k := by
  rw [alignTo, Nat.and_two_pow_sub_one_eq_mod]
  have hdiv := Nat.div_add_mod (n + 2 ^ k - 1) (2 ^ k)
  rw [Nat.mul_comm] at hdiv
  omega

theorem cap_pos (cfg : Config) {a : Nat} (h : 0 < a) : 0 < cfg.cap a := by
  rw [Config.cap]
  split
  · next hpack => exact hpack.1
  · exact h

theorem le_alignTo_cap (cfg : Config) (n : Nat) (ty : MemTy) : n ≤ alignTo n (cfg.cap ty.align) :=
  le_alignTo n (cap_pos cfg ty.align_pos)

/-! ## The bits of a member -/

namespace Member

/-- The width of a bit-field, all bits of another member. -/
def bits (m : Member) : Nat := if 0 < m.bitWidth then m.bitWidth else m.ty.size * 8

def startBit (m : Member) : Nat := m.offset * 8 + m.bitOffset

def endBit (m : Member) : Nat := m.startBit + m.bits

theorem startBit_le_endBit (m : Member) : m.startBit ≤ m.endBit := Nat.le_add_right _ _

end Member

/-- No bit in common, and in order. -/
def Apart (ms : List Member) : Prop := ms.Pairwise fun a b => a.endBit ≤ b.startBit

/-- Where the last member ends. -/
def endOf (ms : List Member) : Nat := (ms.getLast?.map Member.endBit).getD 0

theorem endOf_push (ms : List Member) (m : Member) : endOf (ms ++ [m]) = m.endBit := by
  rw [endOf, List.getLast?_append]
  rfl

theorem Apart.le_endOf {ms : List Member} (h : Apart ms) : ∀ a ∈ ms, a.endBit ≤ endOf ms := by
  induction ms using List.reverseRecOn with
  | nil => exact fun a ha => absurd ha List.not_mem_nil
  | append_singleton rest m _ =>
      intro a ha
      rw [endOf_push]
      rcases List.mem_append.mp ha with ha | ha
      · have hle := (List.pairwise_append.mp h).2.2 a ha m (List.mem_singleton.mpr rfl)
        exact hle.trans m.startBit_le_endBit
      · rw [List.mem_singleton.mp ha]

/-- A member more is in order if it begins where the last one ends or later. -/
theorem apart_push {ms : List Member} {m : Member} :
    Apart (ms ++ [m]) ↔ Apart ms ∧ endOf ms ≤ m.startBit := by
  rw [Apart, List.pairwise_append]
  constructor
  · intro h
    refine ⟨h.1, ?_⟩
    induction ms using List.reverseRecOn with
    | nil => exact Nat.zero_le _
    | append_singleton rest l _ =>
        rw [endOf_push]
        exact h.2.2 l (List.mem_append_right _ (List.mem_singleton.mpr rfl)) m (List.mem_singleton.mpr rfl)
  · intro h
    obtain ⟨happart, hle⟩ := h
    refine ⟨happart, List.pairwise_singleton _ m, fun a ha b hb => ?_⟩
    rw [List.mem_singleton.mp hb]
    exact (happart.le_endOf a ha).trans hle

/-! ## One round of the loop -/

variable {cfg : Config} {d : Decl} {L L' : Layout}

theorem bitStep_eq_some {M : Layout} (h : bitStep d L M = some L') : L' = M :=
  (Option.some_inj.mp (Option.ite_none_right_eq_some.mp h).2).symm

theorem byteStep_eq_some {M : Layout} (h : byteStep M = some L') : L' = M :=
  (Option.some_inj.mp (Option.ite_none_right_eq_some.mp h).2).symm

/-- Does the declarator make a member? -/
def Decl.isMember (d : Decl) : Bool := d.named || d.bitWidth == 0 && d.ty.kind.isAggregate

/-- The four kinds of declarators. -/
inductive Round (cfg : Config) (d : Decl) (L : Layout) : Layout → Prop where
  | bitField (hm : d.isMember = true) (hn : d.named = true) (hw : 0 < d.bitWidth) :
      Round cfg d L (placeBitField cfg d L)
  | ordinary (hm : d.isMember = true) (hn : d.named = true) (hw : d.bitWidth = 0) :
      Round cfg d L (placeOrdinary cfg d L)
  | aggregate (hm : d.isMember = true) (hn : d.named = false) (hw : d.bitWidth = 0) :
      Round cfg d L (placeAggregate cfg d L)
  | unnamed (hm : d.isMember = false)
      (hs : 0 < d.ty.size ∨ cfg.isUnion = true ∨ cfg.useMsBitfields = true) :
      Round cfg d L (placeUnnamed cfg d L)

theorem declare_round (h : declare cfg L d = some L') :
    d.bitWidth ≤ d.ty.size * 8 ∧ Round cfg d L L' := by
  rw [declare] at h
  split at h
  · exact absurd h nofun
  · next hw =>
    refine ⟨Nat.le_of_not_lt hw, ?_⟩
    split at h
    · next hn =>
      split at h
      · next hpos =>
        rw [bitStep_eq_some h]
        exact .bitField (by rw [Decl.isMember, hn, Bool.true_or]) hn hpos
      · next hzero =>
        rw [byteStep_eq_some h]
        exact .ordinary (by rw [Decl.isMember, hn, Bool.true_or]) hn (Nat.eq_zero_of_not_pos hzero)
    · next hn =>
      have hn := Bool.eq_false_of_not_eq_true hn
      split at h
      · next hagg =>
        rw [byteStep_eq_some h]
        exact .aggregate (by rw [Decl.isMember, hagg.1, hagg.2, hn]; rfl) hn hagg.1
      · next hagg =>
        have hm : d.isMember = false := by
          rw [Decl.isMember, hn, Bool.false_or, Bool.eq_false_iff]
          exact fun h => hagg ((Bool.and_eq_true _ _).mp h |>.imp eq_of_beq id)
        split at h
        · exact absurd h nofun
        · next hs =>
          rw [bitStep_eq_some h]
          refine .unnamed hm ?_
          by_contra hnot
          obtain ⟨h1, h2⟩ := not_or.mp hnot
          obtain ⟨h2, h3⟩ := not_or.mp h2
          exact hs ⟨Nat.eq_zero_of_not_pos h1, h2, h3⟩

/-! ## Units -/

/-- A place for a bit-field in a unit of its type, at or behind a bit. -/
structure InUnit (d : Decl) (pos : Nat) (place : Nat × Nat) : Prop where
  behind : pos ≤ place.1 * 8 + place.2
  fits : place.2 + d.bitWidth ≤ d.ty.size * 8
  whole : d.ty.size ∣ place.1

theorem unitBase_le (d : Decl) (L : Layout) : unitBase d L * 8 ≤ L.bitPos := by
  rw [unitBase, Nat.mul_assoc]
  exact Nat.div_mul_le_self _ _

theorem lt_unitBase_add (hs : 0 < d.ty.size) : L.bitPos < (unitBase d L + d.ty.size) * 8 := by
  have h := Nat.lt_div_mul_add (a := L.bitPos) (Nat.mul_pos hs (by decide : 0 < 8))
  rw [unitBase, Nat.add_mul, Nat.mul_assoc]
  exact h

theorem fitUnit_inUnit (hw : d.bitWidth ≤ d.ty.size * 8) (hs : 0 < d.ty.size) :
    InUnit d L.bitPos (fitUnit d L) := by
  have hle := unitBase_le d L
  have hlt := lt_unitBase_add (L := L) hs
  have hdvd : d.ty.size ∣ unitBase d L := Nat.dvd_mul_left _ _
  rw [fitUnit]
  split
  · exact ⟨by simp only; omega, by simp only; omega, Nat.dvd_add hdvd (Nat.dvd_refl _)⟩
  · exact ⟨by simp only; omega, by simp only; omega, hdvd⟩

/-! ## Members of whole bytes -/

theorem endBit_bytes (named : Bool) (ty : MemTy) (offset : Nat) :
    (⟨named, ty, offset, 0, 0, 0⟩ : Member).endBit = (offset + ty.size) * 8 := by
  rw [Nat.add_mul]
  rfl

theorem endBit_bits {named : Bool} {ty : MemTy} {offset width bitOff load : Nat} (h : 0 < width) :
    (⟨named, ty, offset, width, bitOff, load⟩ : Member).endBit = offset * 8 + bitOff + width := by
  rw [Member.endBit, Member.bits, if_pos h]
  rfl

/-- An ordinary member or an anonymous aggregate goes behind the bytes laid out,
and the bit cursor behind it. -/
structure Bytes (L L' : Layout) (m : Member) : Prop where
  members : L'.members = L.members ++ [m]
  behind : L.offset * 8 ≤ m.startBit
  end_eq : m.endBit = L'.offset * 8
  pos_eq : L'.bitPos = L'.offset * 8
  base_eq : L'.msRunBase = L.msRunBase

theorem ordinary_bytes (h : cfg.isUnion = false) :
    ∃ m, Bytes L (placeOrdinary cfg d L) m := by
  have hle := le_alignTo_cap cfg L.offset d.ty
  rw [placeOrdinary, if_neg (by rw [h]; decide)]
  exact ⟨_, rfl, Nat.mul_le_mul_right 8 hle, endBit_bytes _ _ _, rfl, rfl⟩

theorem aggregate_bytes (h : cfg.isUnion = false) :
    ∃ m, Bytes L (placeAggregate cfg d L) m := by
  have hle := le_alignTo_cap cfg L.offset d.ty
  rw [placeAggregate, if_neg (by rw [h]; decide)]
  exact ⟨_, rfl, Nat.mul_le_mul_right 8 hle, endBit_bytes _ _ _, rfl, rfl⟩

/-! ## Outside the Microsoft layout -/

/-- The last member ends before the bit cursor, and that is within the bytes
laid out. -/
structure Cursor (L : Layout) : Prop where
  end_le : endOf L.members ≤ L.bitPos
  pos_le : L.bitPos ≤ L.offset * 8

/-- Does the alignment of a bit-field take it back into the last member? -/
def BacksUp (cfg : Config) (d : Decl) (L : Layout) : Prop :=
  cfg.structPack = 0 ∧ d.ty.size < d.ty.align ∧
    alignTo (fitUnit d L).1 d.ty.align * 8 < endOf L.members

theorem Bytes.cursor {m : Member} (h : Bytes L L' m) : Cursor L' where
  end_le := by rw [h.members, endOf_push, h.end_eq, h.pos_eq]
  pos_le := Nat.le_of_eq h.pos_eq

theorem bitField_cursor (hu : cfg.isUnion = false) (hms : cfg.useMsBitfields = false)
    (hw : 0 < d.bitWidth) (hs : d.bitWidth ≤ d.ty.size * 8) :
    ∃ m, (placeBitField cfg d L).members = L.members ++ [m] ∧ (Cursor L →
      (endOf L.members ≤ m.startBit ↔ ¬ BacksUp cfg d L) ∧
        (endOf L.members ≤ m.startBit → Cursor (placeBitField cfg d L))) := by
  have hsize : 0 < d.ty.size := by omega
  simp only [placeBitField, hu, hms, Bool.false_eq_true, if_false]
  split
  · next hpack =>
    have hbegin : L.bitPos ≤ packedPos cfg d L := by
      rw [packedPos]
      split
      · have := le_alignTo_cap cfg ((L.bitPos + 7) / 8) d.ty
        omega
      · exact Nat.le_refl _
    refine ⟨_, rfl, fun hc => ⟨?_, fun _ => ⟨?_, ?_⟩⟩⟩
    · obtain ⟨hend, _⟩ := hc
      simp only [Member.startBit, BacksUp]
      refine iff_of_true (by omega) fun h => ?_
      rw [h.1] at hpack
      exact absurd hpack (by decide)
    · rw [Layout.push, endOf_push, endBit_bits hw]
      simp only
      omega
    · simp only [Layout.push]
      omega
  · next hpack =>
    have hpack : cfg.structPack = 0 := Nat.eq_zero_of_not_pos hpack
    obtain ⟨hbehind, hfits, _⟩ := fitUnit_inUnit (L := L) hs hsize
    refine ⟨_, rfl, fun hc => ⟨?_, fun _ => ⟨?_, ?_⟩⟩⟩
    · obtain ⟨hend, _⟩ := hc
      simp only [Member.startBit, BacksUp, alignedUnit, hpack, true_and]
      split
      · next halign => simp only [halign, true_and, Nat.add_zero, Nat.not_lt]
      · next halign => simp only [halign, false_and, not_false_iff, iff_true]; omega
    · rw [Layout.push, endOf_push, endBit_bits hw]
    · simp only [Layout.push]
      omega

theorem unnamed_cursor (hu : cfg.isUnion = false) (hms : cfg.useMsBitfields = false)
    (hw : d.bitWidth ≤ d.ty.size * 8) (hs : 0 < d.ty.size) :
    (placeUnnamed cfg d L).members = L.members ∧ (Cursor L → Cursor (placeUnnamed cfg d L)) := by
  simp only [placeUnnamed, hu, hms, Bool.false_eq_true, if_false]
  split
  · -- `:0`: a multiple of the unit's bits is at or above the cursor
    have hle := unitBase_le d L
    have hlt := lt_unitBase_add (L := L) hs
    refine ⟨rfl, fun hc => ⟨hc.end_le.trans ?_, by simp only; omega⟩⟩
    simp only
    split
    · omega
    · next hmod =>
      have hmod := not_not.mp hmod
      have hdiv := Nat.div_add_mod L.bitPos (d.ty.size * 8)
      have hbase : unitBase d L * 8 = d.ty.size * 8 * (L.bitPos / (d.ty.size * 8)) := by
        rw [unitBase, Nat.mul_assoc, Nat.mul_comm]
      omega
  · split
    · exact ⟨rfl, fun hc => ⟨hc.end_le.trans (by simp only; omega), by simp only; omega⟩⟩
    · obtain ⟨hbehind, _, _⟩ := fitUnit_inUnit (L := L) hw hs
      exact ⟨rfl, fun hc => ⟨hc.end_le.trans (by simp only; omega), by simp only; omega⟩⟩

/-! ## Runs -/

/-- The last member ends within the bytes laid out, and before the cursor of the
run. -/
structure InRun (L : Layout) : Prop where
  end_le : endOf L.members ≤ L.offset * 8
  end_le_pos : endOf L.members ≤ L.msRunBase * 8 + L.bitPos

/-- A bit-field joins a run for which no unit of its type was reserved. -/
def Unreserved (d : Decl) (L : Layout) : Prop :=
  d.named = true ∧ 0 < d.bitWidth ∧ newRun d L = false ∧ L.offset < L.msRunBase + d.ty.size

instance (d : Decl) (L : Layout) : Decidable (Unreserved d L) := inferInstanceAs (Decidable (_ ∧ _))

/-- Where the member begins that goes on a run or ends one. -/
def msBegin (cfg : Config) (d : Decl) (L : Layout) : Nat :=
  if 0 < d.bitWidth then (enterRun cfg d L).msRunBase * 8 + (enterRun cfg d L).bitPos
  else alignTo L.offset (cfg.cap d.ty.align) * 8

theorem Bytes.inRun {m : Member} (h : Bytes L L' m) : InRun L' where
  end_le := by rw [h.members, endOf_push, h.end_eq]
  end_le_pos := by
    rw [h.members, endOf_push, h.end_eq, h.pos_eq]
    exact Nat.le_add_left _ _

/-- At the head of a new run, or where the last one goes on. -/
theorem enterRun_spec (cfg : Config) (d : Decl) (h : InRun L) :
    endOf L.members ≤ (enterRun cfg d L).msRunBase * 8 + (enterRun cfg d L).bitPos ∧
      L.offset ≤ (enterRun cfg d L).offset ∧ (enterRun cfg d L).members = L.members := by
  have hle := le_alignTo_cap cfg L.offset d.ty
  obtain ⟨hend, hpos⟩ := h
  rw [enterRun]
  split
  · refine ⟨?_, ?_, rfl⟩
    · simp only
      omega
    · simp only
      split <;> omega
  · exact ⟨hpos, Nat.le_refl _, rfl⟩

/-- The unit behind the head of a run is reserved, or the run is joined without. -/
theorem enterRun_room (cfg : Config) (hn : d.named = true) (hpos : 0 < d.bitWidth)
    (hw : d.bitWidth ≤ d.ty.size * 8) (hres : ¬ Unreserved d L) :
    (enterRun cfg d L).msRunBase + d.ty.size ≤ (enterRun cfg d L).offset ∧
      (enterRun cfg d L).bitPos + d.bitWidth ≤ d.ty.size * 8 := by
  rw [enterRun]
  split
  · simp only [hpos, true_or, if_true]
    exact ⟨Nat.le_refl _, by omega⟩
  · next hnew =>
    have hnew := Bool.eq_false_of_not_eq_true hnew
    refine ⟨Nat.le_of_not_lt fun hlt => hres ⟨hn, hpos, hnew, hlt⟩, ?_⟩
    rw [newRun, Bool.or_eq_false_iff, decide_eq_false_iff_not] at hnew
    omega

theorem bitField_inRun (hu : cfg.isUnion = false) (hms : cfg.useMsBitfields = true)
    (hn : d.named = true) (hpos : 0 < d.bitWidth) (hw : d.bitWidth ≤ d.ty.size * 8)
    (hres : ¬ Unreserved d L) : InRun (placeBitField cfg d L) := by
  obtain ⟨hroom, hfits⟩ := enterRun_room cfg hn hpos hw hres
  simp only [placeBitField, hu, hms, Bool.false_eq_true, if_false, if_true, Layout.push, leaveRun]
  constructor
  · simp only [endOf_push, endBit_bits hpos]
    omega
  · simp only [endOf_push, endBit_bits hpos]
    omega

theorem unnamed_inRun (hu : cfg.isUnion = false) (hms : cfg.useMsBitfields = true)
    (h : InRun L) : InRun (placeUnnamed cfg d L) := by
  obtain ⟨hbegin, hoff, hmem⟩ := enterRun_spec cfg d h
  have hend := h.end_le
  simp only [placeUnnamed, hu, hms, Bool.false_eq_true, if_false, if_true, leaveRun]
  constructor
  · simp only [hmem]
    omega
  · simp only [hmem]
    omega

/-! ## The layout of a struct -/

/-- Some bit-field of the declarators joined a run without a unit. -/
def JoinsUnreserved (cfg : Config) (decls : List Decl) : Prop :=
  ¬ Steps.Everywhere (declare cfg) Layout.start (fun _ L d => ¬ Unreserved d L) decls

/-- The steps that place a member before the end of the last one. -/
def GoesWrong (cfg : Config) (before : List Decl) (L : Layout) (d : Decl) : Prop :=
  d.isMember = true ∧
    if cfg.useMsBitfields then JoinsUnreserved cfg before ∧ msBegin cfg d L < endOf L.members
    else 0 < d.bitWidth ∧ BacksUp cfg d L

/-- What a step that adds a member means for the order. -/
theorem apart_step {Inv : Layout → Prop} {m : Member} {wrong : Prop}
    (hmem : L'.members = L.members ++ [m]) (hinv : Apart L.members → Inv L)
    (hstep : Inv L → (endOf L.members ≤ m.startBit ↔ ¬ wrong) ∧
      (endOf L.members ≤ m.startBit → Inv L')) :
    (Apart L'.members ↔ Apart L.members ∧ ¬ wrong) ∧ (Apart L'.members → Inv L') := by
  rw [hmem, apart_push]
  exact ⟨and_congr_right fun h => (hstep (hinv h)).1, fun h => (hstep (hinv h.1)).2 h.2⟩

theorem apart_gcc (hu : cfg.isUnion = false) (hms : cfg.useMsBitfields = false) {decls : List Decl}
    (h : declareAll cfg decls = some L) :
    (Apart L.members ↔ Steps.Everywhere (declare cfg) Layout.start
      (fun before L d => ¬ GoesWrong cfg before L d) decls) ∧ (Apart L.members → Cursor L) := by
  induction decls using List.reverseRecOn generalizing L with
  | nil =>
      obtain rfl := Option.some_inj.mp h
      exact ⟨iff_of_true List.Pairwise.nil Steps.everywhere_nil,
        fun _ => ⟨Nat.le_refl 0, Nat.le_refl 0⟩⟩
  | append_singleton before d ih =>
      obtain ⟨M, hM, hstep⟩ := Steps.foldlM_snoc.mp h
      obtain ⟨hiff, hcursor⟩ := ih hM
      rw [Steps.everywhere_snoc hM, ← hiff]
      obtain ⟨hw, hround⟩ := declare_round hstep
      simp only [GoesWrong, hms, Bool.false_eq_true, if_false]
      have hbytes : ∀ {m}, Bytes M L m → d.bitWidth = 0 →
          (Apart L.members ↔ Apart M.members ∧
            ¬ (d.isMember = true ∧ 0 < d.bitWidth ∧ BacksUp cfg d M)) ∧
            (Apart L.members → Cursor L) := fun hm hzero =>
        apart_step hm.members hcursor fun hc =>
          ⟨iff_of_true (hc.end_le.trans (hc.pos_le.trans hm.behind))
            fun hwrong => absurd hwrong.2.1 (by omega), fun _ => hm.cursor⟩
      cases hround with
      | bitField hm hn hpos =>
          simp only [hm, hpos, true_and]
          obtain ⟨m, hmem, hadds⟩ := bitField_cursor (L := M) hu hms hpos hw
          exact apart_step hmem hcursor hadds
      | ordinary hm _ hzero =>
          obtain ⟨m, hm⟩ := ordinary_bytes (d := d) (L := M) hu
          exact hbytes hm hzero
      | aggregate hm _ hzero =>
          obtain ⟨m, hm⟩ := aggregate_bytes (d := d) (L := M) hu
          exact hbytes hm hzero
      | unnamed hm hs =>
          have hsize : 0 < d.ty.size := by
            rcases hs with hs | hs | hs
            · exact hs
            · exact absurd (hu ▸ hs) (by decide)
            · exact absurd (hms ▸ hs) (by decide)
          obtain ⟨hmem, hkeep⟩ := unnamed_cursor (L := M) hu hms hw hsize
          simp only [hm, Bool.false_eq_true, false_and, not_false_iff, and_true, hmem, true_and]
          exact fun happart => hkeep (hcursor happart)

/-- A member of a struct in the Microsoft layout begins at `msBegin`. -/
theorem begins_ms (hu : cfg.isUnion = false) (hms : cfg.useMsBitfields = true)
    (hround : Round cfg d L L') (hm : d.isMember = true) :
    ∃ m, L'.members = L.members ++ [m] ∧ m.startBit = msBegin cfg d L := by
  cases hround with
  | bitField _ _ hpos =>
      simp only [placeBitField, hu, hms, Bool.false_eq_true, if_false, if_true, Layout.push, leaveRun]
      have hmem : (enterRun cfg d L).members = L.members := by
        rw [enterRun]
        split <;> rfl
      rw [hmem, msBegin, if_pos hpos]
      exact ⟨_, rfl, rfl⟩
  | ordinary _ _ hzero =>
      rw [placeOrdinary, if_neg (by rw [hu]; decide), msBegin, if_neg (by omega)]
      exact ⟨_, rfl, rfl⟩
  | aggregate _ _ hzero =>
      rw [placeAggregate, if_neg (by rw [hu]; decide), msBegin, if_neg (by omega)]
      exact ⟨_, rfl, rfl⟩
  | unnamed hnot _ => exact absurd (hnot ▸ hm) (by decide)

/-- With a unit behind every run, a member begins behind the last one. -/
theorem le_msBegin (cfg : Config) (d : Decl) (h : InRun L) : endOf L.members ≤ msBegin cfg d L := by
  rw [msBegin]
  split
  · exact (enterRun_spec cfg d h).1
  · exact h.end_le.trans (Nat.mul_le_mul_right 8 (le_alignTo_cap cfg L.offset d.ty))

theorem round_inRun (hu : cfg.isUnion = false) (hms : cfg.useMsBitfields = true)
    (hround : Round cfg d L L') (hw : d.bitWidth ≤ d.ty.size * 8) (hres : ¬ Unreserved d L)
    (h : InRun L) : InRun L' := by
  cases hround with
  | bitField _ hn hpos => exact bitField_inRun hu hms hn hpos hw hres
  | ordinary => exact (ordinary_bytes hu).elim fun _ hm => hm.inRun
  | aggregate => exact (aggregate_bytes hu).elim fun _ hm => hm.inRun
  | unnamed => exact unnamed_inRun hu hms h

theorem apart_ms (hu : cfg.isUnion = false) (hms : cfg.useMsBitfields = true) {decls : List Decl}
    (h : declareAll cfg decls = some L) :
    (Apart L.members ↔ Steps.Everywhere (declare cfg) Layout.start
      (fun before L d => ¬ GoesWrong cfg before L d) decls) ∧
      (¬ JoinsUnreserved cfg decls → InRun L) := by
  induction decls using List.reverseRecOn generalizing L with
  | nil =>
      obtain rfl := Option.some_inj.mp h
      exact ⟨iff_of_true List.Pairwise.nil Steps.everywhere_nil,
        fun _ => ⟨Nat.le_refl 0, Nat.le_refl 0⟩⟩
  | append_singleton before d ih =>
      obtain ⟨M, hM, hstep⟩ := Steps.foldlM_snoc.mp h
      obtain ⟨hiff, hinv⟩ := ih hM
      obtain ⟨hw, hround⟩ := declare_round hstep
      refine ⟨?_, fun hres => ?_⟩
      · rw [Steps.everywhere_snoc hM, ← hiff]
        simp only [GoesWrong, hms, if_true]
        by_cases hm : d.isMember = true
        · obtain ⟨m, hmem, hbegin⟩ := begins_ms hu hms hround hm
          rw [hmem, apart_push, hbegin]
          refine and_congr_right fun _ => ⟨fun hle hwrong => ?_, fun hright => ?_⟩
          · exact absurd hwrong.2.2 (by omega)
          · by_cases hjoin : JoinsUnreserved cfg before
            · exact Nat.le_of_not_lt fun hlt => hright ⟨hm, hjoin, hlt⟩
            · exact le_msBegin cfg d (hinv hjoin)
        · have hkeep : L.members = M.members := by
            cases hround with
            | bitField hmem => exact absurd hmem hm
            | ordinary hmem => exact absurd hmem hm
            | aggregate hmem => exact absurd hmem hm
            | unnamed =>
                simp only [placeUnnamed, hu, hms, Bool.false_eq_true, if_false, if_true, leaveRun]
                rw [enterRun]
                split <;> rfl
          rw [hkeep]
          exact ⟨fun happart => ⟨happart, fun hwrong => hm hwrong.1⟩, fun hboth => hboth.1⟩
      · obtain ⟨hbefore, hlast⟩ := (Steps.everywhere_snoc hM).mp (not_not.mp hres)
        exact round_inRun hu hms hround hw hlast (hinv (not_not.mpr hbefore))

/-- A struct without attributes. -/
def plainStruct : Config where
  isUnion := false
  packAlign := 0
  isPacked := false
  bitfieldMode := .default
  optMsBitfields := false
  attrAlign := 0

/-- `ms_struct` -/
def msStruct : Config := { plainStruct with bitfieldMode := .ms }

/-- `char`, `int` and `long`, and `char` under `aligned(16)`. -/
def tyChar : MemTy := ⟨.char, 1, 1, by decide⟩

def tyInt : MemTy := ⟨.int, 4, 4, by decide⟩

def tyLong : MemTy := ⟨.long, 8, 8, by decide⟩

def tyChar16 : MemTy := ⟨.char, 1, 16, by decide⟩

end Rcc.StructDecl

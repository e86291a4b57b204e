import Rcc.StructLayout

/-!
# The size and alignment of structs and unions

`finish` rounds the bytes laid out up to the alignment, and the alignment is the
largest that a declarator asked for. So the law of a layout comes down to two
things: that every member was within the bytes laid out when it was placed, and
that what it needs was asked for.

`required` is what a declarator asks for. It is less than what the member needs
for an anonymous aggregate or an over-aligned bit-field of a union, and for an
over-aligned bit-field under a pack value; another member may still ask for as
much.

The window through which a bit-field is read and written is a unit of its type,
at a multiple of that unit, as long as nothing is packed: then the struct ends
on a multiple of it too. Under a pack value the window is placed on bytes and
the struct may end before it; there, and in runs, the size is that of a cursor
that only counts bits, `sizeAsked`.
-/

namespace Rcc.StructDecl

variable {cfg : Config} {d : Decl} {L L' : Layout} {decls : List Decl} {T : StructType}

/-! ## Powers of two -/

/-- An alignment that C knows. -/
def IsPow2 (a : Nat) : Prop := ∃ k, a = 2 ^ k

theorem IsPow2.pos {a : Nat} (h : IsPow2 a) : 0 < a := by
  obtain ⟨k, rfl⟩ := h
  exact Nat.two_pow_pos k

theorem IsPow2.dvd_iff {a b : Nat} (ha : IsPow2 a) (hb : IsPow2 b) : a ∣ b ↔ a ≤ b := by
  obtain ⟨k, rfl⟩ := ha
  obtain ⟨j, rfl⟩ := hb
  rw [Nat.pow_dvd_pow_iff_le_right (by decide : 1 < 2), Nat.pow_le_pow_iff_right (by decide : 1 < 2)]

theorem IsPow2.max {a b : Nat} (ha : IsPow2 a) (hb : IsPow2 b) : IsPow2 (max a b) := by
  rcases Nat.le_total a b with h | h
  · rw [Nat.max_eq_right h]
    exact hb
  · rw [Nat.max_eq_left h]
    exact ha

theorem dvd_alignTo {a : Nat} (n : Nat) (h : IsPow2 a) : a ∣ alignTo n a := by
  obtain ⟨k, rfl⟩ := h
  rw [alignTo_two_pow]
  exact Nat.dvd_mul_left _ _

/-- Alignments and pack values are powers of two, and so are the sizes of the
types of bit-fields. -/
structure Valid (cfg : Config) (decls : List Decl) : Prop where
  pack : 0 < cfg.structPack → IsPow2 cfg.structPack
  attr : 0 < cfg.attrAlign → IsPow2 cfg.attrAlign
  align : ∀ d ∈ decls, IsPow2 d.ty.align
  unit : ∀ d ∈ decls, 0 < d.bitWidth → IsPow2 d.ty.size

theorem Valid.before {before : List Decl} (h : Valid cfg (before ++ [d])) : Valid cfg before where
  pack := h.pack
  attr := h.attr
  align e he := h.align e (List.mem_append_left _ he)
  unit e he := h.unit e (List.mem_append_left _ he)

theorem Valid.last {before : List Decl} (h : Valid cfg (before ++ [d])) :
    IsPow2 (cfg.cap d.ty.align) ∧ IsPow2 d.ty.align ∧ (0 < d.bitWidth → IsPow2 d.ty.size) := by
  have hd : d ∈ before ++ [d] := List.mem_append_right _ (List.mem_singleton.mpr rfl)
  refine ⟨?_, h.align d hd, h.unit d hd⟩
  rw [Config.cap]
  split
  · next hpack => exact h.pack hpack.1
  · exact h.align d hd

theorem cap_le_cap {a b : Nat} : cfg.cap a ≤ cfg.cap b ↔ cfg.cap a ≤ b := by
  simp only [Config.cap]
  split <;> split <;> omega

/-! ## What a declarator asks for -/

/-- The alignment that a declarator raises `max_align` to. -/
def required (cfg : Config) (d : Decl) : Nat :=
  if d.named then
    if 0 < d.bitWidth then
      if cfg.isUnion then d.ty.size
      else if cfg.useMsBitfields then max (cfg.cap d.ty.align) d.ty.size
      else if 0 < cfg.structPack then d.ty.size
      else max d.ty.align d.ty.size
    else if cfg.isUnion then d.ty.align
    else cfg.cap d.ty.align
  else if d.isMember then if cfg.isUnion then 1 else cfg.cap d.ty.align
  else if cfg.useMsBitfields ∧ 0 < d.bitWidth then cfg.cap d.ty.align
  else 1

theorem enterRun_maxAlign (cfg : Config) (d : Decl) (L : Layout) :
    (enterRun cfg d L).maxAlign = L.maxAlign := by
  rw [enterRun]
  split <;> rfl

theorem maxAlign_round (hpos : 0 < L.maxAlign) (h : Round cfg d L L') :
    L'.maxAlign = max L.maxAlign (required cfg d) := by
  cases h with
  | bitField _ hn hw =>
      simp only [placeBitField, required, hn, hw, if_true]
      split
      · rfl
      · split
        · simp only [Layout.push, leaveRun, enterRun_maxAlign, Nat.max_assoc]
        · split
          · rfl
          · simp only [Layout.push, Nat.max_assoc]
  | ordinary _ hn hw =>
      simp only [placeOrdinary, required, hn, hw, Nat.lt_irrefl, if_true, if_false]
      split <;> rfl
  | aggregate hm hn hw =>
      simp only [placeAggregate, required, hn, hm, Bool.false_eq_true, if_true, if_false]
      split
      · exact (Nat.max_eq_left hpos).symm
      · rfl
  | unnamed hm _ =>
      have hn : d.named = false := (Bool.or_eq_false_iff.mp hm).1
      simp only [placeUnnamed, required, hn, hm, Bool.false_eq_true, if_false]
      have hone : L.maxAlign = max L.maxAlign 1 := (Nat.max_eq_left hpos).symm
      split
      · next hu =>
        have hms : cfg.useMsBitfields = false := by rw [Config.useMsBitfields, hu]; rfl
        rw [hms]
        exact hone
      · split
        · next hms =>
          simp only [hms, leaveRun, enterRun_maxAlign, true_and]
          split
          · rfl
          · exact hone
        · next hms =>
          simp only [Bool.eq_false_of_not_eq_true hms, Bool.false_eq_true, false_and, if_false]
          split
          · exact hone
          · split <;> exact hone

theorem maxAlign_eq (h : declareAll cfg decls = some L) :
    L.maxAlign = decls.foldl (fun a d => max a (required cfg d)) 1 ∧ 0 < L.maxAlign := by
  induction decls using List.reverseRecOn generalizing L with
  | nil =>
      obtain rfl := Option.some_inj.mp h
      exact ⟨rfl, Nat.one_pos⟩
  | append_singleton before d ih =>
      obtain ⟨M, hM, hstep⟩ := Steps.foldlM_snoc.mp h
      obtain ⟨heq, hpos⟩ := ih hM
      rw [maxAlign_round hpos (declare_round hstep).2, List.foldl_append, ← heq]
      exact ⟨rfl, by omega⟩

/-- `max_align` is the largest alignment asked for. -/
theorem le_maxAlign_iff (h : declareAll cfg decls = some L) (a : Nat) :
    a ≤ L.maxAlign ↔ a ≤ 1 ∨ ∃ d ∈ decls, a ≤ required cfg d := by
  induction decls using List.reverseRecOn generalizing L with
  | nil =>
      obtain rfl := Option.some_inj.mp h
      simp only [List.not_mem_nil, false_and, exists_false, or_false]
      exact Iff.rfl
  | append_singleton before d ih =>
      obtain ⟨M, hM, hstep⟩ := Steps.foldlM_snoc.mp h
      have hbefore : a ≤ M.maxAlign ↔ a ≤ 1 ∨ ∃ e ∈ before, a ≤ required cfg e := ih hM
      rw [maxAlign_round (maxAlign_eq hM).2 (declare_round hstep).2, le_max_iff, hbefore]
      simp only [List.mem_append, List.mem_singleton, or_and_right, exists_or, exists_eq_left, or_assoc]

theorem maxAlign_isPow2 (hv : Valid cfg decls) (h : declareAll cfg decls = some L) :
    IsPow2 L.maxAlign := by
  induction decls using List.reverseRecOn generalizing L with
  | nil =>
      obtain rfl := Option.some_inj.mp h
      exact ⟨0, rfl⟩
  | append_singleton before d ih =>
      obtain ⟨M, hM, hstep⟩ := Steps.foldlM_snoc.mp h
      have hpow := ih hv.before hM
      obtain ⟨hcap, halign, hunit⟩ := hv.last
      rw [maxAlign_round hpow.pos (declare_round hstep).2]
      refine hpow.max ?_
      rw [required]
      have hone : IsPow2 1 := ⟨0, rfl⟩
      split
      · split
        · next hw =>
          split
          · exact hunit hw
          · split
            · exact hcap.max (hunit hw)
            · split
              · exact hunit hw
              · exact halign.max (hunit hw)
        · split <;> assumption
      · split
        · split <;> assumption
        · split <;> assumption

theorem align_isPow2 (hv : Valid cfg decls) (h : structDecl cfg decls = some T) : IsPow2 T.align := by
  obtain ⟨L, hL, rfl⟩ := Option.map_eq_some_iff.mp h
  have hpow : IsPow2 (cfg.cap L.maxAlign) := by
    rw [Config.cap]
    split
    · next hpack => exact hv.pack hpack.1
    · exact maxAlign_isPow2 hv hL
  show IsPow2 (max (cfg.cap L.maxAlign) cfg.attrAlign)
  rcases Nat.eq_zero_or_pos cfg.attrAlign with hattr | hattr
  · rw [hattr, Nat.max_zero]
    exact hpow
  · exact hpow.max (hv.attr hattr)

/-- Does the alignment of the type satisfy a member of the given type? -/
def Covered (cfg : Config) (decls : List Decl) (ty : MemTy) : Prop :=
  cfg.cap ty.align ≤ cfg.attrAlign ∨ cfg.cap ty.align ≤ 1 ∨
    ∃ d ∈ decls, cfg.cap ty.align ≤ required cfg d

theorem cap_le_align_iff (h : structDecl cfg decls = some T) (ty : MemTy) :
    cfg.cap ty.align ≤ T.align ↔ Covered cfg decls ty := by
  obtain ⟨L, hL, rfl⟩ := Option.map_eq_some_iff.mp h
  show cfg.cap ty.align ≤ max (cfg.cap L.maxAlign) cfg.attrAlign ↔ _
  rw [le_max_iff, cap_le_cap, le_maxAlign_iff hL, or_comm]
  exact Iff.rfl

/-! ## What the declarators add up to

A struct that is packed, or laid out in runs, has the size of a much smaller
cursor: bits from the beginning, or the bytes and the last run.
-/

/-- The bits from the beginning of a packed struct, one declarator further. -/
def packedNext (cfg : Config) (pos : Nat) (d : Decl) : Nat :=
  let byte := alignTo ((pos + 7) / 8) (cfg.cap d.ty.align)
  if 0 < d.bitWidth then
    (if d.named ∧ d.ty.size < d.ty.align then byte * 8 else pos) + d.bitWidth
  else if d.isMember then (byte + d.ty.size) * 8
  else (pos / (d.ty.size * 8) * d.ty.size + if pos % (d.ty.size * 8) ≠ 0 then d.ty.size else 0) * 8

/-- The bytes laid out in runs, the bits used of the last run, and the type and
width of its last bit-field. -/
structure RunCursor where
  bytes : Nat
  bits : Nat
  kind : TypeKind
  width : Nat

def RunCursor.next (cfg : Config) (c : RunCursor) (d : Decl) : RunCursor :=
  let byte := alignTo c.bytes (cfg.cap d.ty.align)
  if 0 < d.bitWidth ∨ d.isMember = false then
    if c.bits + d.bitWidth > d.ty.size * 8 ∨ (0 < d.bitWidth ↔ d.ty.kind ≠ c.kind) then
      { bytes := byte + if 0 < d.bitWidth ∨ 0 < c.width then d.ty.size else 0
        bits := d.bitWidth
        kind := d.ty.kind
        width := d.bitWidth }
    else { c with bits := c.bits + d.bitWidth, kind := d.ty.kind, width := d.bitWidth }
  else
    { bytes := byte + d.ty.size
      bits := (byte + d.ty.size) * 8
      kind := if d.named then .func else c.kind
      width := if d.named then 0 else c.width }

def Layout.runCursor (L : Layout) : RunCursor := ⟨L.offset, L.bitPos, L.msPrevKind, L.msPrevBitWidth⟩

/-- The bytes of the declarators, before the size is rounded up. -/
def extent (cfg : Config) (decls : List Decl) : Nat :=
  if cfg.useMsBitfields then (decls.foldl (RunCursor.next cfg) Layout.start.runCursor).bytes
  else (decls.foldl (packedNext cfg) 0 + 7) / 8

/-- The size of a struct that is packed or laid out in runs. -/
def sizeAsked (cfg : Config) (decls : List Decl) : Nat :=
  alignTo (extent cfg decls)
    (max (cfg.cap (decls.foldl (fun a d => max a (required cfg d)) 1)) cfg.attrAlign)

theorem packed_round (hu : cfg.isUnion = false) (hms : cfg.useMsBitfields = false)
    (hpack : 0 < cfg.structPack) (hoff : L.offset = (L.bitPos + 7) / 8) (h : Round cfg d L L') :
    L'.bitPos = packedNext cfg L.bitPos d ∧ L'.offset = (L'.bitPos + 7) / 8 := by
  have hle := le_alignTo_cap cfg ((L.bitPos + 7) / 8) d.ty
  cases h with
  | bitField hm hn hw =>
      simp only [placeBitField, packedNext, packedPos, hu, hms, hpack, hn, hw, Bool.false_eq_true,
        if_false, if_true, true_and, Layout.push, true_and]
      split <;> omega
  | ordinary hm hn hw =>
      simp only [placeOrdinary, packedNext, hu, hm, hw, Bool.false_eq_true, if_false, if_true,
        Nat.lt_irrefl, Layout.push, hoff, true_and]
      omega
  | aggregate hm hn hw =>
      simp only [placeAggregate, packedNext, hu, hm, hw, Bool.false_eq_true, if_false, if_true,
        Nat.lt_irrefl, Layout.push, hoff, true_and]
      omega
  | unnamed hm hs =>
      have hn : d.named = false := (Bool.or_eq_false_iff.mp hm).1
      simp only [placeUnnamed, packedNext, hu, hms, hm, hn, hpack, Bool.false_eq_true, if_false,
        if_true, false_and]
      by_cases hw : d.bitWidth = 0
      · simp only [hw, if_true, Nat.lt_irrefl, if_false, unitBase, true_and, hoff]
        have hdiv := Nat.div_add_mod L.bitPos (d.ty.size * 8)
        have hmod := Nat.mod_lt L.bitPos (y := d.ty.size * 8) (by
          rcases hs with hs | hs | hs
          · omega
          · exact absurd (hu.symm.trans hs) (by decide)
          · exact absurd (hms.symm.trans hs) (by decide))
        have hmul : L.bitPos / (d.ty.size * 8) * d.ty.size * 8 = d.ty.size * 8 * (L.bitPos / (d.ty.size * 8)) := by
          rw [Nat.mul_assoc, Nat.mul_comm]
        split <;> omega
      · simp only [hw, if_false, Nat.pos_of_ne_zero hw, if_true, true_and]
        omega

theorem newRun_iff (d : Decl) (L : Layout) : newRun d L = true ↔
    L.runCursor.bits + d.bitWidth > d.ty.size * 8 ∨ (0 < d.bitWidth ↔ d.ty.kind ≠ L.runCursor.kind) := by
  rw [newRun, Bool.or_eq_true, decide_eq_true_iff, beq_iff_eq, decide_eq_decide]
  rfl

theorem enterRun_cursor (h : 0 < d.bitWidth ∨ d.isMember = false) :
    (leaveRun d (enterRun cfg d L)).runCursor = RunCursor.next cfg L.runCursor d := by
  rw [RunCursor.next, if_pos h, enterRun]
  by_cases hnew : newRun d L = true
  · rw [if_pos hnew, if_pos ((newRun_iff d L).mp hnew)]
    by_cases hkeep : 0 < d.bitWidth ∨ 0 < L.msPrevBitWidth
    · have hkeep' : 0 < d.bitWidth ∨ 0 < L.runCursor.width := hkeep
      rw [if_pos hkeep']
      simp only [if_pos hkeep, Layout.runCursor, leaveRun, Nat.zero_add]
    · have hkeep' : ¬ (0 < d.bitWidth ∨ 0 < L.runCursor.width) := hkeep
      rw [if_neg hkeep']
      simp only [if_neg hkeep, Layout.runCursor, leaveRun, Nat.zero_add, Nat.add_zero]
  · rw [if_neg hnew, if_neg fun hon => hnew ((newRun_iff d L).mpr hon)]
    rfl

theorem runCursor_round (hu : cfg.isUnion = false) (hms : cfg.useMsBitfields = true)
    (h : Round cfg d L L') : L'.runCursor = RunCursor.next cfg L.runCursor d := by
  cases h with
  | bitField hm hn hw =>
      rw [← enterRun_cursor (.inl hw), placeBitField, if_neg (by rw [hu]; decide), if_pos hms]
      rfl
  | ordinary hm hn hw =>
      rw [RunCursor.next, if_neg (by rw [hm, hw]; decide), placeOrdinary, if_neg (by rw [hu]; decide)]
      rw [hn]
      rfl
  | aggregate hm hn hw =>
      rw [RunCursor.next, if_neg (by rw [hm, hw]; decide), placeAggregate, if_neg (by rw [hu]; decide)]
      rw [hn]
      rfl
  | unnamed hm =>
      rw [← enterRun_cursor (.inr hm), placeUnnamed, if_neg (by rw [hu]; decide), if_pos hms]
      rfl

theorem extent_eq (hu : cfg.isUnion = false) (hdense : cfg.useMsBitfields = true ∨ 0 < cfg.structPack)
    (h : declareAll cfg decls = some L) : L.offset = extent cfg decls := by
  rw [extent]
  split
  · next hms =>
    suffices L.runCursor = decls.foldl (RunCursor.next cfg) Layout.start.runCursor from
      congrArg RunCursor.bytes this
    induction decls using List.reverseRecOn generalizing L with
    | nil =>
        obtain rfl := Option.some_inj.mp h
        rfl
    | append_singleton before d ih =>
        obtain ⟨M, hM, hstep⟩ := Steps.foldlM_snoc.mp h
        rw [runCursor_round hu hms (declare_round hstep).2, List.foldl_append, ← ih hM]
        rfl
  · next hms =>
    have hpack := hdense.resolve_left hms
    have hms := Bool.eq_false_of_not_eq_true hms
    suffices L.bitPos = decls.foldl (packedNext cfg) 0 ∧ L.offset = (L.bitPos + 7) / 8 by
      rw [this.2, this.1]
    induction decls using List.reverseRecOn generalizing L with
    | nil =>
        obtain rfl := Option.some_inj.mp h
        exact ⟨rfl, rfl⟩
    | append_singleton before d ih =>
        obtain ⟨M, hM, hstep⟩ := Steps.foldlM_snoc.mp h
        obtain ⟨hpos, hoff⟩ := ih hM
        obtain ⟨hnext, hoff'⟩ := packed_round hu hms hpack hoff (declare_round hstep).2
        rw [hnext, List.foldl_append, ← hpos]
        exact ⟨rfl, hnext ▸ hoff'⟩

theorem size_eq (hu : cfg.isUnion = false) (hdense : cfg.useMsBitfields = true ∨ 0 < cfg.structPack)
    (h : structDecl cfg decls = some T) : T.size = sizeAsked cfg decls := by
  obtain ⟨L, hL, rfl⟩ := Option.map_eq_some_iff.mp h
  rw [finish, sizeAsked, ← extent_eq hu hdense hL, ← (maxAlign_eq hL).1, hu]
  rfl

/-! ## The step that placed a member -/

/-- `offset`, `max_size` and `max_align` only grow. -/
structure Grows (L L' : Layout) : Prop where
  offset : L.offset ≤ L'.offset
  maxSize : L.maxSize ≤ L'.maxSize
  maxAlign : L.maxAlign ≤ L'.maxAlign

theorem enterRun_grows (cfg : Config) (d : Decl) (L : Layout) : Grows L (enterRun cfg d L) := by
  have hle := le_alignTo_cap cfg L.offset d.ty
  rw [enterRun]
  split
  · refine ⟨?_, Nat.le_refl _, Nat.le_refl _⟩
    simp only
    split <;> omega
  · exact ⟨Nat.le_refl _, Nat.le_refl _, Nat.le_refl _⟩

theorem round_grows (h : Round cfg d L L') : Grows L L' := by
  have hle := le_alignTo_cap cfg L.offset d.ty
  have henter := enterRun_grows cfg d L
  cases h with
  | bitField =>
      rw [placeBitField]
      split
      · exact ⟨Nat.le_refl _, Nat.le_max_left _ _, Nat.le_max_left _ _⟩
      · split
        · exact ⟨henter.offset, henter.maxSize,
            henter.maxAlign.trans ((Nat.le_max_left _ _).trans (Nat.le_max_left _ _))⟩
        · split
          · exact ⟨Nat.le_max_left _ _, Nat.le_refl _, Nat.le_max_left _ _⟩
          · exact ⟨Nat.le_max_left _ _, Nat.le_refl _,
              (Nat.le_max_left _ _).trans (Nat.le_max_left _ _)⟩
  | ordinary =>
      rw [placeOrdinary]
      split
      · exact ⟨Nat.le_refl _, Nat.le_max_left _ _, Nat.le_max_left _ _⟩
      · exact ⟨hle.trans (Nat.le_add_right _ _), Nat.le_refl _, Nat.le_max_left _ _⟩
  | aggregate =>
      rw [placeAggregate]
      split
      · exact ⟨Nat.le_refl _, Nat.le_max_left _ _, Nat.le_refl _⟩
      · exact ⟨hle.trans (Nat.le_add_right _ _), Nat.le_refl _, Nat.le_max_left _ _⟩
  | unnamed =>
      rw [placeUnnamed]
      split
      · exact ⟨Nat.le_refl _, Nat.le_refl _, Nat.le_refl _⟩
      · split
        · refine ⟨henter.offset, henter.maxSize, henter.maxAlign.trans ?_⟩
          simp only [leaveRun]
          split
          · exact Nat.le_max_left _ _
          · exact Nat.le_refl _
        · split
          · exact ⟨Nat.le_max_left _ _, Nat.le_refl _, Nat.le_refl _⟩
          · split <;> exact ⟨Nat.le_max_left _ _, Nat.le_refl _, Nat.le_refl _⟩

/-- From any step to the end of the definition. -/
theorem grows_to_end {before after : List Decl} {M M' : Layout} (h : declareAll cfg decls = some L)
    (hsplit : decls = before ++ d :: after) (hM : declareAll cfg before = some M)
    (hstep : declare cfg M d = some M') : Grows M' L := by
  obtain ⟨N, hN, hrest⟩ := Steps.foldlM_split h hsplit hM
  obtain rfl := Option.some_inj.mp (hstep.symm.trans hN)
  refine Steps.invariant (I := Grows M') (fun X e X' hX hX' => ?_)
    ⟨Nat.le_refl _, Nat.le_refl _, Nat.le_refl _⟩ hrest
  have hgrow := round_grows (declare_round hX').2
  exact ⟨hX.offset.trans hgrow.offset, hX.maxSize.trans hgrow.maxSize,
    hX.maxAlign.trans hgrow.maxAlign⟩

/-- The bit-field that a declarator makes. -/
def fieldOf (cfg : Config) (d : Decl) (L : Layout) : Member :=
  if cfg.isUnion then ⟨d.named, d.ty, 0, d.bitWidth, 0, 0⟩
  else if cfg.useMsBitfields then
    ⟨d.named, d.ty, (enterRun cfg d L).msRunBase, d.bitWidth, (enterRun cfg d L).bitPos, 0⟩
  else if 0 < cfg.structPack then
    let pos := packedPos cfg d L
    let needed := (pos % 8 + d.bitWidth + 7) / 8
    ⟨d.named, d.ty, pos / 8, d.bitWidth, pos % 8,
      if d.ty.size < needed then loadSize needed needed d.ty.size else 0⟩
  else ⟨d.named, d.ty, (alignedUnit d L).1, d.bitWidth, (alignedUnit d L).2, 0⟩

/-- The member that a declarator makes. -/
def memberOf (cfg : Config) (d : Decl) (L : Layout) : Member :=
  if 0 < d.bitWidth then fieldOf cfg d L
  else ⟨d.named, d.ty, if cfg.isUnion then 0 else alignTo L.offset (cfg.cap d.ty.align), 0, 0, 0⟩

theorem memberOf_bits (hw : 0 < d.bitWidth) : memberOf cfg d L = fieldOf cfg d L := if_pos hw

theorem memberOf_bytes (hw : d.bitWidth = 0) : memberOf cfg d L =
    ⟨d.named, d.ty, if cfg.isUnion then 0 else alignTo L.offset (cfg.cap d.ty.align), 0, 0, 0⟩ :=
  if_neg (Nat.not_lt_of_le (Nat.le_of_eq hw))

theorem enterRun_members (cfg : Config) (d : Decl) (L : Layout) :
    (enterRun cfg d L).members = L.members := by
  rw [enterRun]
  split <;> rfl

theorem members_round (h : Round cfg d L L') :
    L'.members = if d.isMember then L.members ++ [memberOf cfg d L] else L.members := by
  cases h with
  | bitField hm hn hw =>
      rw [if_pos hm, placeBitField, memberOf_bits hw, fieldOf]
      split
      · rfl
      · split
        · exact congrArg (fun ms => ms ++ [_]) (enterRun_members cfg d L)
        · split <;> rfl
  | ordinary hm _ hw =>
      rw [if_pos hm, placeOrdinary, memberOf_bytes hw]
      split <;> rfl
  | aggregate hm _ hw =>
      rw [if_pos hm, placeAggregate, memberOf_bytes hw]
      split <;> rfl
  | unnamed hm =>
      rw [hm, placeUnnamed]
      split
      · rfl
      · split
        · exact enterRun_members cfg d L
        · split
          · rfl
          · split <;> rfl

/-- What holds of every member is what holds of each as it is placed. -/
theorem members_iff (h : declareAll cfg decls = some L) {P : Member → Prop} :
    (∀ m ∈ L.members, P m) ↔ Steps.Everywhere (declare cfg) Layout.start
      (fun _ M d => d.isMember = true → P (memberOf cfg d M)) decls := by
  induction decls using List.reverseRecOn generalizing L with
  | nil =>
      obtain rfl := Option.some_inj.mp h
      exact iff_of_true (fun m hm => absurd hm List.not_mem_nil) Steps.everywhere_nil
  | append_singleton before d ih =>
      obtain ⟨M, hM, hstep⟩ := Steps.foldlM_snoc.mp h
      have hbefore : (∀ m ∈ M.members, P m) ↔ _ := ih hM
      rw [Steps.everywhere_snoc hM, ← hbefore, members_round (declare_round hstep).2]
      split
      · next hm =>
        simp only [List.mem_append, List.mem_singleton, or_imp, forall_and, forall_eq, hm,
          forall_true_left]
      · next hm => exact ⟨fun hall => ⟨hall, fun h => absurd h hm⟩, fun hboth => hboth.1⟩

/-- A property of every member, a step at a time: `Q` may use that the step is
one of the definition, and what it leaves is within what there is at the end. -/
theorem members_iff_steps (h : declareAll cfg decls = some L) {P : Member → Prop}
    {Q : Layout → Decl → Prop}
    (hstep : ∀ d ∈ decls, ∀ M M', Round cfg d M M' → d.bitWidth ≤ d.ty.size * 8 → Grows M' L →
      d.isMember = true → (P (memberOf cfg d M) ↔ Q M d)) :
    (∀ m ∈ L.members, P m) ↔ Steps.Everywhere (declare cfg) Layout.start
      (fun _ M d => d.isMember = true → Q M d) decls := by
  rw [members_iff h]
  refine Steps.everywhere_congr fun before d after M hsplit hM => ?_
  obtain ⟨M', hM', _⟩ := Steps.foldlM_split h hsplit hM
  obtain ⟨hw, hround⟩ := declare_round hM'
  have hd : d ∈ decls := hsplit ▸ List.mem_append_right _ List.mem_cons_self
  exact forall_congr' fun hm => hstep d hd M M' hround hw (grows_to_end h hsplit hM hM') hm

/-- The same where the property holds of every step. -/
theorem members_all (h : declareAll cfg decls = some L) {P : Member → Prop}
    (hstep : ∀ d ∈ decls, ∀ M M', Round cfg d M M' → d.bitWidth ≤ d.ty.size * 8 → Grows M' L →
      d.isMember = true → P (memberOf cfg d M)) : ∀ m ∈ L.members, P m :=
  (members_iff_steps (Q := fun _ _ => True) h fun d hd M M' hr hw hg hm =>
    iff_of_true (hstep d hd M M' hr hw hg hm) trivial).mpr fun _ _ _ _ _ _ _ => trivial

/-! ## Members within the bytes laid out -/

/-- How far a bit-field reaches that goes on the last run. -/
def joinEnd (d : Decl) (L : Layout) : Nat := L.msRunBase * 8 + L.bitPos + d.bitWidth

/-- A member of a struct is within the bytes laid out behind it, unless it joins
a run without a unit. -/
theorem end_le_offset (hu : cfg.isUnion = false) (h : Round cfg d L L')
    (hw : d.bitWidth ≤ d.ty.size * 8) (hm : d.isMember = true)
    (hres : ¬ (cfg.useMsBitfields = true ∧ Unreserved d L)) :
    (memberOf cfg d L).endBit ≤ L'.offset * 8 := by
  cases h with
  | bitField _ hn hpos =>
      rw [memberOf_bits hpos]
      simp only [fieldOf, placeBitField, hu, Bool.false_eq_true, if_false]
      split
      · next hms =>
        obtain ⟨hroom, hfits⟩ := enterRun_room cfg hn hpos hw fun h => hres ⟨hms, h⟩
        rw [endBit_bits hpos]
        simp only [Layout.push, leaveRun]
        omega
      · split
        · rw [endBit_bits hpos]
          simp only [Layout.push]
          omega
        · rw [endBit_bits hpos]
          simp only [Layout.push]
          omega
  | ordinary _ _ hzero =>
      rw [memberOf_bytes hzero, endBit_bytes, placeOrdinary, if_neg (by rw [hu]; decide),
        if_neg (by rw [hu]; decide)]
      exact Nat.le_refl _
  | aggregate _ _ hzero =>
      rw [memberOf_bytes hzero, endBit_bytes, placeAggregate, if_neg (by rw [hu]; decide),
        if_neg (by rw [hu]; decide)]
      exact Nat.le_refl _
  | unnamed hnot => exact absurd (hnot ▸ hm) (by decide)

theorem end_eq_joinEnd (hu : cfg.isUnion = false) (hms : cfg.useMsBitfields = true)
    (hres : Unreserved d L) : (memberOf cfg d L).endBit = joinEnd d L := by
  obtain ⟨hn, hpos, hnew, _⟩ := hres
  have henter : enterRun cfg d L = L := by rw [enterRun, hnew]; rfl
  rw [memberOf_bits hpos, fieldOf, if_neg (by rw [hu]; decide), if_pos hms, endBit_bits hpos, henter]
  rfl

/-- The members of a struct are within the type, as far as those are that joined
a run without a unit. -/
theorem inside_iff (hu : cfg.isUnion = false) (h : declareAll cfg decls = some L) {bits : Nat}
    (hbits : L.offset * 8 ≤ bits) :
    (∀ m ∈ L.members, m.endBit ≤ bits) ↔ Steps.Everywhere (declare cfg) Layout.start
      (fun _ M d => d.isMember = true → cfg.useMsBitfields = true → Unreserved d M →
        joinEnd d M ≤ bits) decls := by
  refine members_iff_steps h fun d _ M M' hround hw hgrow hm => ?_
  have hoff := hgrow.offset
  by_cases hres : cfg.useMsBitfields = true ∧ Unreserved d M
  · rw [end_eq_joinEnd hu hres.1 hres.2]
    exact ⟨fun hle _ _ => hle, fun himp => himp hres.1 hres.2⟩
  · have hend := end_le_offset hu hround hw hm hres
    exact iff_of_true (by omega) fun hms hun => absurd ⟨hms, hun⟩ hres

/-- The members of a union are within its largest one. -/
theorem union_inside (hu : cfg.isUnion = true) (h : declareAll cfg decls = some L) :
    ∀ m ∈ L.members, m.endBit ≤ L.maxSize * 8 := by
  refine members_all h fun d _ M M' hround hw hgrow hm => ?_
  have hsize := hgrow.maxSize
  cases hround with
  | bitField _ _ hpos =>
      rw [memberOf_bits hpos, fieldOf, if_pos hu, endBit_bits hpos]
      rw [placeBitField, if_pos hu] at hsize
      simp only [Layout.push] at hsize
      omega
  | ordinary _ _ hzero =>
      rw [memberOf_bytes hzero, endBit_bytes, if_pos hu]
      rw [placeOrdinary, if_pos hu] at hsize
      simp only [Layout.push] at hsize
      omega
  | aggregate _ _ hzero =>
      rw [memberOf_bytes hzero, endBit_bytes, if_pos hu]
      rw [placeAggregate, if_pos hu] at hsize
      simp only [Layout.push] at hsize
      omega
  | unnamed hnot => exact absurd (hnot ▸ hm) (by decide)

/-! ## The law -/

/-- What is asked of a layout. The size of a bit-field is its bits. -/
structure Lawful (cfg : Config) (T : StructType) : Prop where
  inside : ∀ m ∈ T.members, m.endBit ≤ T.size * 8
  aligned : ∀ m ∈ T.members, m.bitWidth = 0 → cfg.cap m.ty.align ∣ m.offset
  align_dvd : ∀ m ∈ T.members, cfg.cap m.ty.align ∣ T.align
  size_dvd : T.align ∣ T.size

theorem Valid.cap (hv : Valid cfg decls) (hd : d ∈ decls) : IsPow2 (cfg.cap d.ty.align) := by
  rw [Config.cap]
  split
  · next hpack => exact hv.pack hpack.1
  · exact hv.align d hd

theorem memberOf_ty (cfg : Config) (d : Decl) (L : Layout) : (memberOf cfg d L).ty = d.ty := by
  rw [memberOf, fieldOf]
  repeat' split
  all_goals rfl

theorem memberOf_bitWidth (cfg : Config) (d : Decl) (L : Layout) :
    (memberOf cfg d L).bitWidth = d.bitWidth := by
  rw [memberOf, fieldOf]
  split
  · repeat' split
    all_goals rfl
  · next hw => exact (Nat.eq_zero_of_not_pos hw).symm

theorem members_aligned (hv : Valid cfg decls) (h : declareAll cfg decls = some L) :
    ∀ m ∈ L.members, m.bitWidth = 0 → cfg.cap m.ty.align ∣ m.offset := by
  refine members_all h fun d hd M M' _ _ _ _ hw => ?_
  rw [memberOf_bitWidth] at hw
  rw [memberOf_bytes hw]
  simp only
  split
  · exact Nat.dvd_zero _
  · exact dvd_alignTo _ (hv.cap hd)

/-- Every member that asks for less than it needs is covered by others. -/
def NeedsCovered (cfg : Config) (decls : List Decl) : Prop :=
  ∀ d ∈ decls, d.isMember = true → required cfg d < cfg.cap d.ty.align → Covered cfg decls d.ty

/-- The bit-fields that join a run without a unit end within what the
declarators add up to. -/
def JoinsWithin (cfg : Config) (decls : List Decl) : Prop :=
  Steps.Everywhere (declare cfg) Layout.start
    (fun _ M d => d.isMember = true → cfg.useMsBitfields = true → Unreserved d M →
      joinEnd d M ≤ sizeAsked cfg decls * 8) decls

theorem align_pos (h : structDecl cfg decls = some T) : 0 < T.align := by
  obtain ⟨L, hL, rfl⟩ := Option.map_eq_some_iff.mp h
  exact Nat.lt_of_lt_of_le (cap_pos cfg (maxAlign_eq hL).2) (Nat.le_max_left _ _)

/-- What was laid out is within the type. -/
theorem le_size (h : structDecl cfg decls = some T) :
    ∃ L, declareAll cfg decls = some L ∧ T = finish cfg L ∧
      (if cfg.isUnion then L.maxSize else L.offset) ≤ T.size := by
  have hpos := align_pos h
  obtain ⟨L, hL, rfl⟩ := Option.map_eq_some_iff.mp h
  exact ⟨L, hL, rfl, le_alignTo _ hpos⟩

theorem aligns_dvd_iff (hv : Valid cfg decls) (h : structDecl cfg decls = some T) :
    (∀ m ∈ T.members, cfg.cap m.ty.align ∣ T.align) ↔ NeedsCovered cfg decls := by
  have hpow := align_isPow2 hv h
  obtain ⟨L, hL, hT, _⟩ := le_size h
  have hmem : T.members = L.members := by rw [hT]; rfl
  rw [hmem, members_iff_steps (Q := fun _ d => Covered cfg decls d.ty) hL fun d hd M _ _ _ _ _ => ?_]
  · rw [Steps.everywhere_items hL]
    refine forall_congr' fun d => forall_congr' fun hd => forall_congr' fun _ =>
      ⟨fun hcov _ => hcov, fun hneed => ?_⟩
    by_cases hlt : required cfg d < cfg.cap d.ty.align
    · exact hneed hlt
    · exact .inr (.inr ⟨d, hd, Nat.le_of_not_lt hlt⟩)
  · rw [memberOf_ty, (hv.cap hd).dvd_iff hpow]
    exact cap_le_align_iff h d.ty

theorem tyStruct8_pos : 0 < 8 := by decide

/-- `struct { long a; }` as a member -/
def tyStruct8 : MemTy := ⟨.struct, 8, 8, tyStruct8_pos⟩

theorem nested_valid : Valid plainStruct [⟨true, tyChar, 0⟩, ⟨false, tyStruct8, 0⟩, ⟨true, tyInt, 5⟩] := by
  refine ⟨fun h => absurd h (by decide), fun h => absurd h (by decide), ?_, ?_⟩
  · simp only [List.forall_mem_cons, List.not_mem_nil, false_imp_iff, implies_true, and_true]
    exact ⟨⟨0, rfl⟩, ⟨3, rfl⟩, ⟨2, rfl⟩⟩
  · simp only [List.forall_mem_cons, List.not_mem_nil, false_imp_iff, implies_true, and_true]
    exact ⟨fun _ => ⟨0, rfl⟩, fun _ => ⟨3, rfl⟩, fun _ => ⟨2, rfl⟩⟩

/-- The bytes of an access: `bf_load_size` when it is set, else the declared type. -/
def Member.window (m : Member) : Nat := if m.bfLoadSize = 0 then m.ty.size else m.bfLoadSize

/-- The accesses to a bit-field are within the type and reach all its bits. -/
structure InWindow (T : StructType) (m : Member) : Prop where
  bits : m.endBit ≤ (m.offset + m.window) * 8
  bytes : m.offset + m.window ≤ T.size

theorem le_loadSize (needed ls fuel : Nat) (hpos : 0 < ls) (hfuel : needed ≤ ls + fuel) :
    needed ≤ loadSize needed fuel ls ∧ 0 < loadSize needed fuel ls := by
  induction fuel generalizing ls with
  | zero => exact ⟨hfuel, hpos⟩
  | succ n ih =>
      rw [loadSize]
      split
      · exact ih (ls * 2) (by omega) (by omega)
      · exact ⟨by omega, hpos⟩

/-- A densely packed bit-field and its window. -/
theorem packed_window (hu : cfg.isUnion = false) (hms : cfg.useMsBitfields = false)
    (hpack : 0 < cfg.structPack) (hpos : 0 < d.bitWidth) (hw : d.bitWidth ≤ d.ty.size * 8) :
    (fieldOf cfg d L).endBit ≤ ((fieldOf cfg d L).offset + (fieldOf cfg d L).window) * 8 := by
  rw [fieldOf, if_neg (by rw [hu]; decide), if_neg (by rw [hms]; decide), if_pos hpack,
    endBit_bits hpos, Member.window]
  generalize packedPos cfg d L = pos
  have hload := le_loadSize ((pos % 8 + d.bitWidth + 7) / 8) d.ty.size ((pos % 8 + d.bitWidth + 7) / 8)
    (by omega) (by omega)
  by_cases hlong : d.ty.size < (pos % 8 + d.bitWidth + 7) / 8
  · simp only [if_pos hlong, if_neg (Nat.ne_of_gt hload.2)]
    omega
  · simp only [if_neg hlong, if_true]
    omega

theorem alignedUnit_inUnit (hw : d.bitWidth ≤ d.ty.size * 8) (hs : IsPow2 d.ty.size)
    (ha : IsPow2 d.ty.align) :
    (alignedUnit d L).2 + d.bitWidth ≤ d.ty.size * 8 ∧ d.ty.size ∣ (alignedUnit d L).1 := by
  have hfit := fitUnit_inUnit (L := L) hw hs.pos
  rw [alignedUnit]
  split
  · next halign =>
    exact ⟨by simp only; omega, ((hs.dvd_iff ha).mpr (by omega)).trans (dvd_alignTo _ ha)⟩
  · exact ⟨hfit.fits, hfit.whole⟩

theorem add_le_of_dvd {a b u : Nat} (ha : u ∣ a) (hb : u ∣ b) (hlt : a < b) : a + u ≤ b := by
  obtain ⟨i, rfl⟩ := ha
  obtain ⟨j, rfl⟩ := hb
  have hij : i + 1 ≤ j := Nat.lt_of_mul_lt_mul_left hlt
  exact (Nat.mul_succ u i ▸ Nat.mul_le_mul_left u hij)

/-- Where the window must fit into so many bytes: a bit-field that is packed, or
joins a run without a unit. -/
def WindowFits (cfg : Config) (size : Nat) (L : Layout) (d : Decl) : Prop :=
  cfg.isUnion = false → 0 < d.bitWidth →
    if cfg.useMsBitfields then Unreserved d L → L.msRunBase + d.ty.size ≤ size
    else 0 < cfg.structPack → (fieldOf cfg d L).offset + (fieldOf cfg d L).window ≤ size

/-- Packing is off: the unit is whole within the type. -/
theorem unit_le_size (hv : Valid cfg decls) (h : structDecl cfg decls = some T) (hd : d ∈ decls)
    (hpos : 0 < d.bitWidth) (hreq : d.ty.size ≤ required cfg d) (hpack : cfg.structPack = 0) {base : Nat}
    (hdvd : d.ty.size ∣ base) (hlt : base < T.size) : base + d.ty.size ≤ T.size := by
  have hpow := align_isPow2 hv h
  obtain ⟨L, hL, rfl⟩ := Option.map_eq_some_iff.mp h
  have hmax : d.ty.size ≤ L.maxAlign := (le_maxAlign_iff hL _).mpr (.inr ⟨d, hd, hreq⟩)
  have hcap : cfg.cap L.maxAlign = L.maxAlign :=
    if_neg fun hp => absurd hp.1 (by rw [hpack]; decide)
  have halign : d.ty.size ≤ (finish cfg L).align :=
    hmax.trans (Nat.le_trans (Nat.le_of_eq hcap.symm) (Nat.le_max_left _ _))
  exact add_le_of_dvd hdvd
    ((((hv.unit d hd hpos).dvd_iff hpow).mpr halign).trans (dvd_alignTo _ hpow)) hlt

/-- A window is the declared type where no load size is set. -/
theorem inWindow_unit {named : Bool} {ty : MemTy} {offset width bitOff : Nat} (hpos : 0 < width)
    (hfits : bitOff + width ≤ ty.size * 8) :
    InWindow T ⟨named, ty, offset, width, bitOff, 0⟩ ↔ offset + ty.size ≤ T.size := by
  refine ⟨fun h => h.bytes, fun hbytes => ⟨?_, hbytes⟩⟩
  rw [endBit_bits hpos]
  simp only [Member.window, if_true]
  omega

theorem inWindow_ms (hu : cfg.isUnion = false) (hms : cfg.useMsBitfields = true)
    (hn : d.named = true) (hpos : 0 < d.bitWidth) (hw : d.bitWidth ≤ d.ty.size * 8)
    (hsize : (enterRun cfg d L).offset ≤ T.size) :
    InWindow T (fieldOf cfg d L) ↔ (Unreserved d L → L.msRunBase + d.ty.size ≤ T.size) := by
  rw [fieldOf, if_neg (by rw [hu]; decide), if_pos hms]
  by_cases hres : Unreserved d L
  · obtain ⟨_, _, hnew, _⟩ := id hres
    have henter : enterRun cfg d L = L := by rw [enterRun, hnew]; rfl
    have hfits : L.bitPos + d.bitWidth ≤ d.ty.size * 8 := by
      rw [newRun, Bool.or_eq_false_iff, decide_eq_false_iff_not] at hnew
      omega
    rw [henter, inWindow_unit hpos hfits]
    exact ⟨fun hle _ => hle, fun himp => himp hres⟩
  · obtain ⟨hroom, hfits⟩ := enterRun_room cfg hn hpos hw hres
    rw [inWindow_unit hpos hfits]
    exact iff_of_true (hroom.trans hsize) fun h => absurd h hres

theorem inWindow_gcc (hv : Valid cfg decls) (h : structDecl cfg decls = some T) (hd : d ∈ decls)
    (hu : cfg.isUnion = false) (hms : cfg.useMsBitfields = false) (hpack : cfg.structPack = 0)
    (hn : d.named = true) (hpos : 0 < d.bitWidth) (hw : d.bitWidth ≤ d.ty.size * 8)
    (hend : (fieldOf cfg d L).endBit ≤ T.size * 8) : InWindow T (fieldOf cfg d L) := by
  have hreq : d.ty.size ≤ required cfg d := by
    simp only [required, hn, hpos, hu, hms, hpack, Nat.lt_irrefl, Bool.false_eq_true, if_true, if_false]
    exact Nat.le_max_right _ _
  obtain ⟨hfits, hdvd⟩ := alignedUnit_inUnit (L := L) hw (hv.unit d hd hpos) (hv.align d hd)
  rw [fieldOf, if_neg (by rw [hu]; decide), if_neg (by rw [hms]; decide),
    if_neg (by rw [hpack]; decide)] at hend ⊢
  rw [endBit_bits hpos] at hend
  exact (inWindow_unit hpos hfits).mpr (unit_le_size hv h hd hpos hreq hpack hdvd (by omega))

theorem inWindow_iff (hv : Valid cfg decls) (h : structDecl cfg decls = some T)
    (hsize : (if cfg.isUnion then L.maxSize else L.offset) ≤ T.size) {M M' : Layout} (hd : d ∈ decls)
    (hround : Round cfg d M M') (hw : d.bitWidth ≤ d.ty.size * 8) (hgrow : Grows M' L)
    (hm : d.isMember = true) (hpos : 0 < d.bitWidth) :
    InWindow T (fieldOf cfg d M) ↔ WindowFits cfg T.size M d := by
  have hend : cfg.isUnion = false → ¬ (cfg.useMsBitfields = true ∧ Unreserved d M) →
      (fieldOf cfg d M).endBit ≤ M'.offset * 8 := fun hu hres =>
    (memberOf_bits hpos : memberOf cfg d M = _) ▸ end_le_offset hu hround hw hm hres
  obtain ⟨hoff, hmax, _⟩ := hgrow
  cases hround with
  | bitField _ hn _ =>
      by_cases hu : cfg.isUnion = true
      · rw [if_pos hu] at hsize
        rw [placeBitField, if_pos hu] at hmax
        have hunit : d.ty.size ≤ L.maxSize := (Nat.le_max_right _ _).trans hmax
        rw [fieldOf, if_pos hu, inWindow_unit hpos (by omega)]
        exact iff_of_true (by omega) fun hnot => absurd (hu.symm.trans hnot) (by decide)
      · have hu := Bool.eq_false_of_not_eq_true hu
        rw [if_neg (by rw [hu]; decide)] at hsize
        simp only [WindowFits, hu, hpos, forall_true_left]
        by_cases hms : cfg.useMsBitfields = true
        · rw [placeBitField, if_neg (by rw [hu]; decide), if_pos hms] at hoff
          rw [if_pos hms]
          exact inWindow_ms hu hms hn hpos hw (hoff.trans hsize)
        · rw [if_neg hms]
          have hms := Bool.eq_false_of_not_eq_true hms
          by_cases hpack : 0 < cfg.structPack
          · have hbits := packed_window (L := M) hu hms hpack hpos hw
            exact ⟨fun hin _ => hin.bytes, fun hfits => ⟨hbits, hfits hpack⟩⟩
          · refine iff_of_true ?_ fun hnot => absurd hnot hpack
            have hend := hend hu fun hon => absurd (hms ▸ hon.1) (by decide)
            exact inWindow_gcc hv h hd hu hms (Nat.eq_zero_of_not_pos hpack) hn hpos hw (by omega)
  | ordinary _ _ hzero => omega
  | aggregate _ _ hzero => omega
  | unnamed hnot => exact absurd (hnot ▸ hm) (by decide)

theorem windowFits_asked (h : structDecl cfg decls = some T) :
    WindowFits cfg T.size L d ↔ WindowFits cfg (sizeAsked cfg decls) L d := by
  refine forall_congr' fun hu => forall_congr' fun _ => ?_
  split
  · next hms => rw [size_eq hu (.inl hms) h]
  · refine forall_congr' fun hpack => ?_
    rw [size_eq hu (.inr hpack) h]

end Rcc.StructDecl

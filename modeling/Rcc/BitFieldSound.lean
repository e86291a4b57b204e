import Rcc.BitField

/-!
# Stores and loads of bit-fields

A field that `struct_decl` makes is placed in a window of at most eight bytes,
or reaches from its window into a ninth (`placed`). A store to the window is
described by the bits it leaves there: `n` of them, counted from the address,
are those of the unit with the field replaced (`Stored`), and `n` falls short of
the field when the ninth byte is not written. A load yields the bits of the
field as they stand, extended (`loaded_eq`). The law for a way to change a field
is thereby a statement about the bits that the field has in the end, and the
inputs that break it are values with a bit set where nothing is written, or
where the register was too narrow, or `_Bool` values above 1.
-/

namespace Rcc.BitField

open ByteMem (bit)

variable {f : Field} {arch : Arch}

/-! ## Where fields are -/

/-- What the code relies on: the window covers the field and is eight bytes at
most, unless the field reaches into a ninth. -/
structure Placed (f : Field) : Prop where
  pos : 0 < f.bw
  width : f.bw ≤ f.mem.ty.size * 8
  covers : f.bo + f.bw ≤ f.unitSz * 8
  window : f.mem.bfLoadSize = 0 ∧ f.unitSz = f.mem.ty.size ∨
    f.bo < 8 ∧ f.unitSz = f.mem.bfLoadSize ∧ f.mem.bfLoadSize = f.mem.ty.size * 2
  ninth : f.unitSz = 16 ↔ 64 < f.bo + f.bw

theorem Placed.of_unit (hpos : 0 < f.bw) (hls : f.mem.bfLoadSize = 0)
    (hfits : f.bo + f.bw ≤ f.mem.ty.size * 8) : Placed f := by
  have hunit : f.unitSz = f.mem.ty.size := if_pos hls
  have hsize := f.size_mem
  simp only [List.mem_cons, List.not_mem_nil, or_false] at hsize
  refine ⟨hpos, by omega, by omega, .inl ⟨hls, hunit⟩, by omega⟩

open StructDecl in
theorem Placed.of_packed (hpos : 0 < f.bw) (hw : f.bw ≤ f.mem.ty.size * 8) (hbo : f.bo < 8)
    (hlong : f.mem.ty.size < (f.bo + f.bw + 7) / 8)
    (hls : f.mem.bfLoadSize = loadSize ((f.bo + f.bw + 7) / 8) ((f.bo + f.bw + 7) / 8) f.mem.ty.size) :
    Placed f := by
  -- at most one byte more than the type has
  have hneeded : (f.bo + f.bw + 7) / 8 = f.mem.ty.size + 1 := by omega
  have hsize := f.size_mem
  have hdouble : f.mem.bfLoadSize = f.mem.ty.size * 2 := by
    rw [hls, hneeded]
    simp only [List.mem_cons, List.not_mem_nil, or_false] at hsize
    rcases hsize with h | h | h | h <;> rw [h] <;> rfl
  simp only [List.mem_cons, List.not_mem_nil, or_false] at hsize
  have hunit : f.unitSz = f.mem.bfLoadSize := if_neg (by omega)
  exact ⟨hpos, hw, by omega, .inr ⟨hbo, hunit, hdouble⟩, by omega⟩

namespace Placing

open StructDecl

variable {cfg : Config} {decls : List Decl} {T : StructType} {d : Decl} {L : Layout}

/-- The two ways in which `struct_decl` places a field. -/
def Shape (m : StructDecl.Member) : Prop :=
  m.bitWidth ≤ m.ty.size * 8 ∧
    (m.bfLoadSize = 0 ∧ m.bitOffset + m.bitWidth ≤ m.ty.size * 8 ∨
      m.bitOffset < 8 ∧ m.ty.size < (m.bitOffset + m.bitWidth + 7) / 8 ∧
        m.bfLoadSize = loadSize ((m.bitOffset + m.bitWidth + 7) / 8) ((m.bitOffset + m.bitWidth + 7) / 8)
          m.ty.size)

theorem alignedUnit_fits (hw : d.bitWidth ≤ d.ty.size * 8) (hs : 0 < d.ty.size) :
    (alignedUnit d L).2 + d.bitWidth ≤ d.ty.size * 8 := by
  have hfit := (fitUnit_inUnit (L := L) hw hs).fits
  rw [alignedUnit]
  split
  · simp only
    omega
  · exact hfit

theorem enterRun_fits (hw : d.bitWidth ≤ d.ty.size * 8) :
    (enterRun cfg d L).bitPos + d.bitWidth ≤ d.ty.size * 8 := by
  rw [enterRun]
  split
  · simp only
    omega
  · next hnew =>
    have hle : ¬ L.runCursor.bits + d.bitWidth > d.ty.size * 8 := fun h =>
      hnew ((newRun_iff d L).mpr (.inl h))
    exact Nat.le_of_not_lt hle

theorem fieldOf_shape (hpos : 0 < d.bitWidth) (hw : d.bitWidth ≤ d.ty.size * 8) :
    Shape (fieldOf cfg d L) := by
  rw [fieldOf]
  split
  · exact ⟨hw, .inl ⟨rfl, by simp only; omega⟩⟩
  · split
    · exact ⟨hw, .inl ⟨rfl, enterRun_fits hw⟩⟩
    · split
      · refine ⟨hw, ?_⟩
        by_cases hlong : d.ty.size < (packedPos cfg d L % 8 + d.bitWidth + 7) / 8
        · exact .inr ⟨Nat.mod_lt _ (by decide), hlong, if_pos hlong⟩
        · refine .inl ⟨if_neg hlong, ?_⟩
          simp only
          omega
      · exact ⟨hw, .inl ⟨rfl, alignedUnit_fits hw (by omega)⟩⟩

theorem shape (h : structDecl cfg decls = some T) :
    ∀ m ∈ T.members, 0 < m.bitWidth → Shape m := by
  obtain ⟨L, hL, rfl⟩ := Option.map_eq_some_iff.mp h
  refine members_all hL fun d _ M M' _ hw _ _ hpos => ?_
  rw [memberOf_bitWidth] at hpos
  rw [memberOf_bits hpos]
  exact fieldOf_shape hpos hw

end Placing

open StructDecl in
/-- The fields that `struct_decl` makes. -/
theorem placed {cfg : Config} {decls : List Decl} {T : StructType} (h : structDecl cfg decls = some T)
    (hm : f.mem ∈ T.members) (hpos : 0 < f.mem.bitWidth) : Placed f := by
  obtain ⟨hw, ⟨hls, hfits⟩ | ⟨hbo, hlong, hls⟩⟩ := Placing.shape h f.mem hm hpos
  · exact .of_unit hpos hls hfits
  · exact .of_packed hpos hw hbo hlong hls

/-! ## Running code -/

variable {s t : State} {q : Reg} {code : List Ins}

theorem run_append (c d : List Ins) (s : State) : run (c ++ d) s = run d (run c s) := List.foldl_append

theorem run_cons (i : Ins) (c : List Ins) (s : State) : run (i :: c) s = run c (i.exec s) := rfl

theorem set_self (s : State) (q : Reg) : s.set q (s.reg q) = s := by
  rw [State.set, Function.update_eq_self]

theorem set_reg (s : State) (q : Reg) (v : BitVec 64) : (s.set q v).reg q = v := Function.update_self _ _ _

theorem set_reg_ne {q' : Reg} (h : q' ≠ q) (s : State) (v : BitVec 64) :
    (s.set q v).reg q' = s.reg q' := Function.update_of_ne h _ _

theorem run_shrBo {bo : Nat} (h : bo < 64) (q : Reg) (s : State) :
    run (shrBo bo q) s = s.set q (s.reg q >>> bo) := by
  rw [shrBo]
  split
  · simp only [run, List.foldl_cons, List.foldl_nil, Ins.exec, Nat.mod_eq_of_lt h]
  · next hzero =>
    rw [Nat.eq_zero_of_not_pos hzero, BitVec.ushiftRight_zero, set_self]
    rfl

theorem run_shlBo {bo : Nat} (h : bo < 64) (q : Reg) (s : State) :
    run (shlBo bo q) s = s.set q (s.reg q <<< bo) := by
  rw [shlBo]
  split
  · simp only [run, List.foldl_cons, List.foldl_nil, Ins.exec, Nat.mod_eq_of_lt h]
  · next hzero =>
    rw [Nat.eq_zero_of_not_pos hzero, BitVec.shiftLeft_zero, set_self]
    rfl

/-- Code that writes no memory, and of the registers only one and the scratch
register. -/
structure Quiet (code : List Ins) (q : Reg) : Prop where
  mem : ∀ s, (run code s).mem = s.mem
  reg : ∀ s q', q' ≠ q → q' ≠ .scratch → (run code s).reg q' = s.reg q'

/-! ## Masks -/

theorem getLsbD_mask {w n : Nat} (h : n < w) (i : Nat) :
    (((1 : BitVec w) <<< n) - 1).getLsbD i = decide (i < n) := by
  have htwo : (2 : Nat) ^ n < 2 ^ w := Nat.pow_lt_pow_right (by decide) h
  have hpos : 0 < 2 ^ n := Nat.two_pow_pos n
  have hmask : ((1 : BitVec w) <<< n) - 1 = BitVec.ofNat w (2 ^ n - 1) := by
    have hone : (1 : BitVec w).toNat = 1 := Nat.mod_eq_of_lt (show 1 < 2 ^ w by omega)
    apply BitVec.eq_of_toNat_eq
    rw [show (1 : BitVec w) <<< n = BitVec.twoPow w n from (BitVec.twoPow_eq w n).symm,
      BitVec.toNat_sub_of_le (by rw [BitVec.le_def, BitVec.toNat_twoPow_of_lt h, hone]; exact hpos),
      BitVec.toNat_twoPow_of_lt h, hone, BitVec.toNat_ofNat, Nat.mod_eq_of_lt (by omega)]
  rw [hmask, BitVec.getLsbD_ofNat, Nat.testBit_two_pow_sub_one]
  by_cases hi : i < n
  · rw [decide_eq_true hi, decide_eq_true (show i < w by omega)]
    rfl
  · rw [decide_eq_false hi, Bool.and_false]

theorem getLsbD_lowMask {bw : Nat} {low : BitVec 64} (h : lowMask bw = some low) (i : Nat) :
    low.getLsbD i = decide (i < bw) := by
  obtain ⟨hlt, h⟩ := Option.ite_none_right_eq_some.mp h
  rw [← Option.some_inj.mp h]
  exact getLsbD_mask hlt i

/-! ## Extension -/

theorem extendFrom_spec {n : Nat} (hpos : 0 < f.bw) (hq : q ≠ .scratch)
    (h : extendFrom f q n = some code) : Quiet code q ∧ ∀ s i, i < 64 →
      ((run code s).reg q).getLsbD i =
        if i < f.bw ∨ n ≤ f.bw then (s.reg q).getLsbD i
        else !f.zext && (s.reg q).getLsbD (f.bw - 1) := by
  rw [extendFrom] at h
  split at h
  · next hlt =>
    rw [extend] at h
    split at h
    · next hz =>
      obtain ⟨m, hm, rfl⟩ := Option.map_eq_some_iff.mp h
      have hrun : ∀ s, run [.imm .scratch m, .and q .scratch] s =
          (s.set .scratch m).set q (s.reg q &&& m) := fun s => by
        show (s.set .scratch m).set q ((s.set .scratch m).reg q &&& (s.set .scratch m).reg .scratch) = _
        rw [set_reg, set_reg_ne hq]
      refine ⟨⟨fun s => rfl, fun s q' hne hne' => ?_⟩, fun s i hi => ?_⟩
      · rw [hrun, set_reg_ne hne, set_reg_ne hne']
      · rw [hrun, set_reg, BitVec.getLsbD_and, getLsbD_lowMask hm, hz]
        by_cases hin : i < f.bw
        · rw [if_pos (.inl hin), decide_eq_true hin, Bool.and_true]
        · rw [if_neg (by omega), decide_eq_false hin, Bool.and_false]
          rfl
    · next hz =>
      obtain rfl := Option.some_inj.mp h
      have hcount : (64 - f.bw) % 64 = 64 - f.bw := Nat.mod_eq_of_lt (by omega)
      have hrun : ∀ s, run [.shl q (64 - f.bw), .sar q (64 - f.bw)] s =
          s.set q ((s.reg q <<< (64 - f.bw)).sshiftRight (64 - f.bw)) := fun s => by
        show (s.set q (s.reg q <<< ((64 - f.bw) % 64))).set q
          (((s.set q (s.reg q <<< ((64 - f.bw) % 64))).reg q).sshiftRight ((64 - f.bw) % 64)) = _
        rw [set_reg, hcount, State.set, State.set, Function.update_idem]
        rfl
      refine ⟨⟨fun s => rfl, fun s q' hne _ => by rw [hrun, set_reg_ne hne]⟩, fun s i hi => ?_⟩
      rw [hrun, set_reg, BitVec.getLsbD_sshiftRight, decide_eq_false (by omega), Bool.not_false,
        Bool.true_and]
      by_cases hin : i < f.bw
      · rw [if_pos (show i < f.bw ∨ n ≤ f.bw from .inl hin), if_pos (by omega), BitVec.getLsbD_shiftLeft, decide_eq_true (by omega),
          decide_eq_false (by omega), Nat.add_sub_cancel_left]
        rfl
      · rw [if_neg (show ¬ (i < f.bw ∨ n ≤ f.bw) by omega), if_neg (by omega),
          Bool.eq_false_of_not_eq_true hz, BitVec.msb_eq_getLsbD_last, BitVec.getLsbD_shiftLeft,
          decide_eq_true (by decide), decide_eq_false (by omega)]
        rw [show 64 - 1 - (64 - f.bw) = f.bw - 1 by omega]
        rfl
  · next hge =>
    obtain rfl := Option.some_inj.mp h
    refine ⟨⟨fun s => rfl, fun s q' _ _ => rfl⟩, fun s i _ => ?_⟩
    rw [if_pos (.inr (Nat.le_of_not_lt hge))]
    rfl

/-! ## Loads -/

theorem getLsbD_load (m : ByteMem.Mem) (a : BitVec 64) (k i : Nat) :
    (BitVec.ofNat 64 (ByteMem.load m a k)).getLsbD i =
      (decide (i < 64 ∧ i < 8 * k) && bit m a i) := by
  rw [BitVec.getLsbD_ofNat, ByteMem.testBit_load, ← Bool.and_assoc, Bool.decide_and]

theorem bit_zero (m : ByteMem.Mem) (a : BitVec 64) (i : Nat) : bit m (a + BitVec.ofNat 64 0) i = bit m a i := by
  rw [ByteMem.bit_add, Nat.mul_zero, Nat.zero_add]

theorem accessBytes_eff {n : Nat} (h : n ∈ [1, 2, 4, 8, 16]) : accessBytes (effSz n) = effSz n := by
  simp only [List.mem_cons, List.not_mem_nil, or_false] at h
  rcases h with rfl | rfl | rfl | rfl | rfl <;> rfl

theorem readBytes_eff {n : Nat} (h : n ∈ [2, 4, 8, 16]) : readBytes arch (effSz n) = effSz n := by
  simp only [List.mem_cons, List.not_mem_nil, or_false] at h
  cases arch with
  | x86 => rcases h with rfl | rfl | rfl | rfl <;> rfl
  | arm64 => rcases h with rfl | rfl | rfl | rfl <;> rfl

/-- The field in the low bits of a register, before it is extended. -/
def AtBottom (f : Field) (m : ByteMem.Mem) (a x : BitVec 64) : Prop :=
  ∀ i < f.bw, x.getLsbD i = bit m a (f.bo + i)

/-- Code that takes the address of a field to its low bits. -/
structure Fetches (f : Field) (code : List Ins) (q : Reg) : Prop where
  mem : ∀ s, (run code s).mem = s.mem
  ra : ∀ s, (run code s).reg .ra = s.reg .ra
  bits : ∀ s, AtBottom f s.mem (s.reg q) ((run code s).reg q)

/-- The registers that are free to use in a load. -/
def Free (q : Reg) : Prop := q ≠ .scratch ∧ q ≠ .rAddr ∧ q ≠ .tmp ∧ q ≠ .ra

instance (q : Reg) : Decidable (Free q) := inferInstanceAs (Decidable (_ ∧ _))

theorem fetches_load (hp : Placed f) (hq : Free q) {k : Nat} (hk : f.bo + f.bw ≤ 8 * k) (h64 : f.bo + f.bw ≤ 64) :
    Fetches f (.load k q q 0 :: shrBo f.bo q) q := by
  have hpos := hp.pos
  have hrun : ∀ s, run (.load k q q 0 :: shrBo f.bo q) s =
      s.set q (BitVec.ofNat 64 (ByteMem.load s.mem (s.reg q + BitVec.ofNat 64 0) k) >>> f.bo) := fun s => by
    rw [run_cons, run_shrBo (by omega), Ins.exec, set_reg, State.set, State.set, Function.update_idem]
    rfl
  refine ⟨fun s => by rw [hrun]; rfl, fun s => by rw [hrun, set_reg_ne hq.2.2.2.symm], fun s i hi => ?_⟩
  rw [hrun, set_reg, BitVec.getLsbD_ushiftRight, getLsbD_load, bit_zero, decide_eq_true (by omega),
    Bool.true_and]

/-- The sizes of integer types, and of expressions of them. -/
theorem size_cases (f : Field) :
    (f.mem.ty.size = 1 ∨ f.mem.ty.size = 2 ∨ f.mem.ty.size = 4) ∧ f.exprBits = 32 ∨
      f.mem.ty.size = 8 ∧ f.exprBits = 64 := by
  have hsize := f.size_mem
  simp only [List.mem_cons, List.not_mem_nil, or_false] at hsize
  rcases hsize with h | h | h | h <;> simp only [Field.exprBits, h] <;> decide

/-- `emit_load` extends what it loads to the width of an expression. -/
theorem getLsbD_emitLoad (f : Field) (q : Reg) (s : State) {i : Nat} (hi : i < f.exprBits) :
    (((emitLoad f q).exec s).reg q).getLsbD i =
      if i < 8 * f.mem.ty.size then bit s.mem (s.reg q) i
      else !f.isUnsigned && bit s.mem (s.reg q) (8 * f.mem.ty.size - 1) := by
  have hsize := size_cases f
  have hload : ∀ k, 8 * k ≤ 64 → ((State.set s q (BitVec.ofNat 64
      (ByteMem.load s.mem (s.reg q + BitVec.ofNat 64 0) k))).reg q).getLsbD i =
        (decide (i < 8 * k) && bit s.mem (s.reg q) i) := fun k hk => by
    rw [set_reg, getLsbD_load, bit_zero]
    congr 1
    exact decide_eq_decide.mpr (by omega)
  rw [emitLoad]
  split
  · next hsmall =>
    split
    · next hu =>
      rw [Ins.exec, hload _ (by omega), hu]
      split
      · next hin => rw [decide_eq_true hin, Bool.true_and]
      · next hin => rw [decide_eq_false hin]; rfl
    · next hu =>
      rw [Ins.exec, set_reg, BitVec.getLsbD_setWidth, BitVec.getLsbD_signExtend,
        BitVec.msb_eq_getLsbD_last, BitVec.getLsbD_ofNat, BitVec.getLsbD_ofNat, ByteMem.testBit_load,
        ByteMem.testBit_load, Bool.eq_false_of_not_eq_true hu, decide_eq_true (show i < 64 by omega),
        decide_eq_true (show i < 32 by omega)]
      split
      · next hin => simp only [hin, decide_true, Bool.true_and]
      · next hin =>
        have hlast : 8 * f.mem.ty.size - 1 < 8 * f.mem.ty.size := by omega
        simp only [hlast, decide_true, Bool.true_and, Bool.not_false]
  · next hlarge =>
    split
    · next hfour =>
      rw [Ins.exec, hload 4 (by decide), if_pos (by omega), decide_eq_true (by omega), Bool.true_and]
    · next hfour =>
      rw [Ins.exec, hload 8 (by decide), if_pos (by omega), decide_eq_true (by omega), Bool.true_and]

theorem exec_emitLoad (f : Field) (q : Reg) (s : State) :
    (emitLoad f q).exec s = s.set q (((emitLoad f q).exec s).reg q) := by
  rw [emitLoad]
  split
  · split <;> rw [Ins.exec, set_reg]
  · split <;> rw [Ins.exec, set_reg]

theorem fetches_emitLoad (hp : Placed f) (hq : Free q) (hfits : f.bo + f.bw ≤ f.mem.ty.size * 8) :
    Fetches f (emitLoad f q :: shrBo f.bo q) q := by
  have hpos := hp.pos
  have hsize := size_cases f
  have hrun : ∀ s, run (emitLoad f q :: shrBo f.bo q) s =
      s.set q ((((emitLoad f q).exec s).reg q) >>> f.bo) := fun s => by
    rw [run_cons, run_shrBo (by omega), exec_emitLoad, set_reg, State.set, State.set, Function.update_idem]
    rfl
  refine ⟨fun s => by rw [hrun]; rfl, fun s => by rw [hrun, set_reg_ne hq.2.2.2.symm], fun s i hi => ?_⟩
  rw [hrun, set_reg, BitVec.getLsbD_ushiftRight, getLsbD_emitLoad f q s (by omega), if_pos (by omega)]

/-- The bits of the ninth byte join those of the first eight. -/
theorem fetches_straddling (hp : Placed f) (hq : Free q) (h64 : 64 < f.bo + f.bw) (hbo : f.bo < 8) :
    Fetches f ([.mov .rAddr q] ++ (.load 8 q q 0 :: shrBo f.bo q) ++
      [.load 1 .tmp .rAddr 8, .andImm .tmp ((1 : BitVec 32) <<< (f.bo + f.bw - 64) - 1),
        .shl .tmp (64 - f.bo), .or .full q .tmp]) q := by
  obtain ⟨hscratch, haddr, htmp, hra⟩ := hq
  have hsize := size_cases f
  have hw := hp.width
  have hcount : (64 - f.bo) % 64 = 64 - f.bo := Nat.mod_eq_of_lt (by omega)
  refine ⟨fun s => ?_, fun s => ?_, fun s i hi => ?_⟩
  · simp only [run_append, run_cons, run_shrBo (show f.bo < 64 by omega)]
    rfl
  · simp only [run_append, run_cons, run_shrBo (show f.bo < 64 by omega), Ins.exec, State.set]
    simp only [run, List.foldl_nil, ne_eq, reduceCtorEq, not_false_eq_true, Function.update_of_ne, hra.symm]
  · have hreg : (run ([.mov .rAddr q] ++ (.load 8 q q 0 :: shrBo f.bo q) ++
        [.load 1 .tmp .rAddr 8, .andImm .tmp ((1 : BitVec 32) <<< (f.bo + f.bw - 64) - 1),
          .shl .tmp (64 - f.bo), .or .full q .tmp]) s).reg q =
        BitVec.ofNat 64 (ByteMem.load s.mem (s.reg q + BitVec.ofNat 64 0) 8) >>> f.bo |||
          (((BitVec.ofNat 64 (ByteMem.load s.mem (s.reg q + BitVec.ofNat 64 8) 1)).setWidth 32 &&&
            ((1 : BitVec 32) <<< (f.bo + f.bw - 64) - 1)).setWidth 64) <<< (64 - f.bo) := by
      simp only [run_append, run_cons, run_shrBo (show f.bo < 64 by omega), Ins.exec, State.set]
      simp only [run, List.foldl_nil, hcount, Function.update_self, Function.update_of_ne, ne_eq,
        haddr, htmp, haddr.symm, not_false_eq_true, Size.fit]
    rw [hreg, BitVec.getLsbD_or, BitVec.getLsbD_ushiftRight, getLsbD_load, bit_zero,
      BitVec.getLsbD_shiftLeft, BitVec.getLsbD_setWidth, BitVec.getLsbD_and, BitVec.getLsbD_setWidth,
      getLsbD_load, ByteMem.bit_add, getLsbD_mask (by omega)]
    by_cases hlow : i < 64 - f.bo
    · rw [decide_eq_true (show f.bo + i < 64 ∧ f.bo + i < 8 * 8 by omega), decide_eq_true hlow, Bool.true_and,
        Bool.not_true, Bool.and_false, Bool.false_and, Bool.or_false]
    · have hninth : 8 * 8 + (i - (64 - f.bo)) = f.bo + i := by omega
      rw [decide_eq_false (show ¬ (f.bo + i < 64 ∧ f.bo + i < 8 * 8) by omega), decide_eq_false hlow, hninth]
      simp only [show i < 64 by omega, show i - (64 - f.bo) < 64 by omega,
        show i - (64 - f.bo) < 32 by omega, show i - (64 - f.bo) < 8 * 1 by omega,
        show i - (64 - f.bo) < f.bo + f.bw - 64 by omega, and_self, decide_true, Bool.false_and,
        Bool.false_or, Bool.not_false, Bool.true_and, Bool.and_true]

/-- What a load leaves in the register of the result. -/
structure Loads (f : Field) (code : List Ins) (q : Reg) : Prop where
  mem : ∀ s, (run code s).mem = s.mem
  ra : ∀ s, (run code s).reg .ra = s.reg .ra
  bits : ∀ s i, i < f.exprBits → ((run code s).reg q).getLsbD i =
    if i < f.bw then bit s.mem (s.reg q) (f.bo + i)
    else !f.zext && bit s.mem (s.reg q) (f.bo + (f.bw - 1))

theorem Fetches.extend {ext : List Ins} {n : Nat} (hp : Placed f) (hq : Free q) (hc : Fetches f code q)
    (hext : extendFrom f q n = some ext) (hn : f.bw < n) : Loads f (code ++ ext) q := by
  have hpos := hp.pos
  have hexpr := size_cases f
  obtain ⟨hquiet, hbits⟩ := extendFrom_spec hpos hq.1 hext
  refine ⟨fun s => ?_, fun s => ?_, fun s i hi => ?_⟩
  · rw [run_append, hquiet.mem, hc.mem]
  · rw [run_append, hquiet.reg _ _ hq.2.2.2.symm (by decide), hc.ra]
  · rw [run_append, hbits _ i (by omega)]
    by_cases hin : i < f.bw
    · rw [if_pos (.inl hin), if_pos hin, hc.bits s i hin]
    · rw [if_neg (by omega), if_neg hin, hc.bits s (f.bw - 1) (by omega)]

/-- A field of the whole type is extended by the load itself. -/
theorem loads_whole (hq : Free q) (hbo : f.bo = 0) (hbw : f.bw = f.mem.ty.size * 8) :
    Loads f [emitLoad f q] q := by
  have hsize := size_cases f
  refine ⟨fun s => ?_, fun s => ?_, fun s i hi => ?_⟩
  · show ((emitLoad f q).exec s).mem = _
    rw [exec_emitLoad]
    rfl
  · show ((emitLoad f q).exec s).reg .ra = _
    rw [exec_emitLoad, set_reg_ne hq.2.2.2.symm]
  · show (((emitLoad f q).exec s).reg q).getLsbD i = _
    rw [getLsbD_emitLoad f q s hi, hbo, Nat.zero_add, Nat.zero_add, hbw, Nat.mul_comm 8]
    split
    · rfl
    · next hout =>
      have henum : f.isEnum = false := Bool.eq_false_of_not_eq_true fun he => by
        have := f.enum_size he
        omega
      rw [Field.zext, henum, Bool.or_false]

theorem member_spec (hp : Placed f) (hq : Free q) (h : memberCode arch f q = some code) :
    Loads f code q := by
  have hpos := hp.pos
  have hw := hp.width
  have hcovers := hp.covers
  have hninth := hp.ninth
  rw [memberCode] at h
  by_cases hls : f.mem.bfLoadSize = 0
  · have hunit : f.unitSz = f.mem.ty.size := if_pos hls
    simp only [hls, ne_eq, not_true_eq_false, if_false] at h
    obtain ⟨ext, hext, rfl⟩ := Option.map_eq_some_iff.mp h
    by_cases hlt : f.bw < f.mem.ty.size * 8
    · exact (fetches_emitLoad hp hq (by omega)).extend hp hq hext hlt
    · have hbo : f.bo = 0 := by omega
      obtain rfl := Option.some_inj.mp ((if_neg hlt).symm.trans hext)
      rw [List.append_nil, hbo]
      exact loads_whole hq hbo (by omega)
  · simp only [ne_eq, hls, not_false_eq_true, if_true] at h
    obtain ⟨ext, hext, rfl⟩ := Option.map_eq_some_iff.mp h
    obtain ⟨hbo, hunit, hdouble⟩ := hp.window.resolve_left fun h => hls h.1
    have hsize := size_cases f
    have hmem : f.mem.bfLoadSize ∈ [2, 4, 8, 16] := by
      simp only [List.mem_cons, List.not_mem_nil, or_false]
      omega
    have heff : effSz f.mem.bfLoadSize = if f.mem.bfLoadSize > 8 then 8 else f.mem.bfLoadSize := rfl
    rw [readBytes_eff hmem]
    by_cases h64 : 64 < f.bo + f.bw
    · have height : effSz f.mem.bfLoadSize = 8 := by rw [heff]; split <;> omega
      rw [if_pos ⟨by omega, h64⟩, if_pos ⟨by omega, h64⟩, height]
      exact (fetches_straddling hp hq h64 hbo).extend hp hq hext (by omega)
    · rw [if_neg fun h => h64 h.2, if_neg fun h => h64 h.2, List.nil_append, List.append_nil]
      refine (fetches_load hp hq ?_ (by omega)).extend hp hq hext (by omega)
      rw [heff]
      split <;> omega

/-! ## The value of a field -/

/-- The bits of a field in memory. -/
def fieldBits (f : Field) (m : ByteMem.Mem) (a : BitVec 64) : BitVec f.bw :=
  BitVec.ofNat f.bw (ByteMem.load m a 9 >>> f.bo)

/-- The value that bits stand for. -/
def Field.read (f : Field) (b : BitVec f.bw) : Int := if f.zext then b.toNat else b.toInt

theorem Placed.end_le (hp : Placed f) : f.bo + f.bw ≤ 72 := by
  have hsize := size_cases f
  have hw := hp.width
  have hcovers := hp.covers
  rcases hp.window with ⟨_, hunit⟩ | ⟨hbo, _, _⟩
  · omega
  · omega

theorem Placed.bo_lt (hp : Placed f) : f.bo < 64 := by
  have hsize := size_cases f
  have hpos := hp.pos
  have hcovers := hp.covers
  rcases hp.window with ⟨_, hunit⟩ | ⟨hbo, _, _⟩
  · omega
  · omega

theorem Placed.bo_lt_of_ninth (hp : Placed f) (h : 64 < f.bo + f.bw) : f.bo < 8 := by
  have hsize := size_cases f
  have hcovers := hp.covers
  rcases hp.window with ⟨_, hunit⟩ | ⟨hbo, _, _⟩
  · omega
  · exact hbo

theorem getLsbD_fieldBits (hp : Placed f) (m : ByteMem.Mem) (a : BitVec 64) {i : Nat} (hi : i < f.bw) :
    (fieldBits f m a).getLsbD i = bit m a (f.bo + i) := by
  have hend := hp.end_le
  rw [fieldBits, BitVec.getLsbD_ofNat, Nat.testBit_shiftRight, ByteMem.testBit_load,
    decide_eq_true hi, decide_eq_true (by omega), Bool.true_and, Bool.true_and]

theorem read_inj {b c : BitVec f.bw} (h : f.read b = f.read c) : b = c := by
  rw [Field.read, Field.read] at h
  split at h
  · exact BitVec.eq_of_toNat_eq (Int.ofNat.inj h)
  · exact BitVec.eq_of_toInt_eq h

theorem bw_le_exprBits (hp : Placed f) : f.bw ≤ f.exprBits := by
  have hsize := size_cases f
  have hw := hp.width
  omega

/-- The register behind a load, at the width of an expression. -/
theorem loads_setWidth (hp : Placed f) (h : Loads f code q) (s : State) :
    ((run code s).reg q).setWidth f.exprBits =
      if f.zext then (fieldBits f s.mem (s.reg q)).setWidth f.exprBits
      else (fieldBits f s.mem (s.reg q)).signExtend f.exprBits := by
  have hpos := hp.pos
  have hle := bw_le_exprBits hp
  apply BitVec.eq_of_getLsbD_eq
  intro i hi
  rw [BitVec.getLsbD_setWidth, h.bits s i hi, decide_eq_true hi, Bool.true_and]
  cases hz : f.zext with
  | true =>
      rw [if_pos rfl, BitVec.getLsbD_setWidth, decide_eq_true hi, Bool.true_and]
      split
      · next hin => rw [getLsbD_fieldBits hp _ _ hin]
      · next hout => rw [BitVec.getLsbD_of_ge _ _ (Nat.le_of_not_lt hout)]; rfl
  | false =>
      simp only [Bool.false_eq_true, if_false]
      rw [BitVec.getLsbD_signExtend, decide_eq_true hi, Bool.true_and,
        BitVec.msb_eq_getLsbD_last, getLsbD_fieldBits hp _ _ (show f.bw - 1 < f.bw by omega)]
      split
      · next hin => rw [getLsbD_fieldBits hp _ _ hin]
      · rfl

theorem Loads.ofInt (hp : Placed f) (h : Loads f code q) (s : State) :
    ((run code s).reg q).setWidth f.exprBits =
      BitVec.ofInt f.exprBits (f.read (fieldBits f s.mem (s.reg q))) := by
  rw [loads_setWidth hp h, Field.read]
  split
  · rw [BitVec.ofInt_natCast, BitVec.ofNat_toNat]
  · rfl

theorem loaded_eq (hp : Placed f) (h : memberCode arch f .r = some code) (s : State) :
    loaded arch f s = some (f.read (fieldBits f s.mem (s.reg .r))) := by
  have hloads := member_spec hp (by decide) h
  have hle := bw_le_exprBits hp
  rw [loaded, h, Option.map_some, loads_setWidth hp hloads, Field.read]
  cases f.zext with
  | true =>
      rw [if_pos rfl, if_pos rfl, if_pos rfl, BitVec.toNat_setWidth_of_le hle]
  | false =>
      simp only [Bool.false_eq_true, if_false, BitVec.toInt_signExtend_of_le hle]

theorem extendFrom_some (hbw : f.bw < 64) (q : Reg) (n : Nat) : ∃ ext, extendFrom f q n = some ext := by
  rw [extendFrom]
  split
  · rw [extend]
    split
    · exact ⟨_, by rw [lowMask, if_pos hbw]; rfl⟩
    · exact ⟨_, rfl⟩
  · exact ⟨_, rfl⟩

theorem memberCode_some (hbw : f.bw < 64) (arch : Arch) (q : Reg) :
    ∃ code, memberCode arch f q = some code := by
  rw [memberCode]
  split
  · obtain ⟨ext, hext⟩ := extendFrom_some hbw q (f.mem.bfLoadSize * 8)
    exact ⟨_, by rw [hext]; rfl⟩
  · obtain ⟨ext, hext⟩ := extendFrom_some hbw q (f.mem.ty.size * 8)
    exact ⟨_, by rw [hext]; rfl⟩

/-- The law, in terms of the bits that the field has in the end. -/
theorem updated_iff (hp : Placed f) (hbw : f.bw < 64) (arch : Arch) (a : BitVec 64) (m m' : ByteMem.Mem)
    (v : Int) : Updated arch f a m m' v ↔ f.read (fieldBits f m' a) = f.value v ∧ Untouched f a m m' := by
  obtain ⟨code, hcode⟩ := memberCode_some hbw arch .r
  constructor
  · intro h
    have hlater := h.later ⟨fun _ => a, m'⟩ rfl rfl
    rw [loaded_eq hp hcode] at hlater
    exact ⟨Option.some_inj.mp hlater, h.untouched⟩
  · intro h
    refine ⟨fun t hm hr => ?_, h.2⟩
    rw [loaded_eq hp hcode, hm, hr, h.1]

/-! ## Assignments -/

theorem unitSz_mem (hp : Placed f) : f.unitSz ∈ [1, 2, 4, 8, 16] := by
  have hsize := size_cases f
  simp only [List.mem_cons, List.not_mem_nil, or_false]
  rcases hp.window with ⟨_, hunit⟩ | ⟨_, hunit, hdouble⟩
  · omega
  · omega

theorem accessBytes_unit (hp : Placed f) : accessBytes f.unitSz = effSz f.unitSz := by
  have hmem := unitSz_mem hp
  simp only [List.mem_cons, List.not_mem_nil, or_false] at hmem
  rcases hmem with h | h | h | h | h <;> rw [h] <;> rfl

/-- The registers of an assignment before the unit is written back. -/
structure Ready (f : Field) (low : BitVec 64) (s s' : State) : Prop where
  mem : s'.mem = s.mem
  ra : s'.reg .ra = s.reg .ra
  r2 : s'.reg .r2 = s.reg .r2
  rt : s'.reg .rt = BitVec.ofNat 64 (ByteMem.load s.mem (s.reg .ra) (effSz f.unitSz)) &&& ~~~(low <<< f.bo)
  rv : s'.reg .rv = (s.reg .r2 &&& low) <<< f.bo

theorem ready_insert (arch : Arch) {low : BitVec 64} {s t : State} (hbo : f.bo < 64) (hm : t.mem = s.mem)
    (hra : t.reg .ra = s.reg .ra) (hr2 : t.reg .r2 = s.reg .r2)
    (hrt : t.reg .rt = BitVec.ofNat 64 (ByteMem.load s.mem (s.reg .ra) (effSz f.unitSz))) :
    Ready f low s (run (insertCode arch low (low <<< f.bo) ++ shlBo f.bo .rv) t) := by
  rw [run_append, run_shlBo hbo]
  cases arch with
  | x86 => exact ⟨hm, hra, hr2, congrArg (· &&& _) hrt, congrArg (fun x => (x &&& low) <<< f.bo) hr2⟩
  | arm64 => exact ⟨hm, hra, hr2, congrArg (· &&& _) hrt, congrArg (fun x => (x &&& low) <<< f.bo) hr2⟩

theorem ready_simple (hp : Placed f) (hbo : f.bo < 64) (arch : Arch) (low : BitVec 64) (s : State) :
    Ready f low s
      (run (bfLoad (effSz f.unitSz) .ra .rt :: insertCode arch low (low <<< f.bo) ++ shlBo f.bo .rv) s) := by
  rw [List.cons_append, run_cons]
  refine ready_insert arch hbo rfl rfl rfl ?_
  rw [bfLoad, accessBytes_eff (unitSz_mem hp), Ins.exec, set_reg, BitVec.add_zero]

theorem ready_early (hp : Placed f) (hbo : f.bo < 64) (arch : Arch) (low : BitVec 64) (s : State) :
    Ready f low s
      (run (bfLoad (effSz f.unitSz) .ra .rt :: earlyCode arch f low ++ insertCode arch low (low <<< f.bo) ++
        shlBo f.bo .rv) s) := by
  have hload : ∀ t : State, (Ins.exec t (bfLoad (effSz f.unitSz) .ra .rt)).reg .rt =
      BitVec.ofNat 64 (ByteMem.load t.mem (t.reg .ra) (effSz f.unitSz)) := fun t => by
    rw [bfLoad, accessBytes_eff (unitSz_mem hp), Ins.exec, set_reg, BitVec.add_zero]
  rw [List.append_assoc, run_append]
  cases arch with
  | x86 =>
      rw [earlyCode, run_cons, run_append (shrBo f.bo .rt ++ _)]
      -- the registers that the unit is loaded from again are as they were
      have hearly : ∀ t : State, t.mem = s.mem → t.reg .ra = s.reg .ra → t.reg .r2 = s.reg .r2 →
          Ready f low s (run (insertCode .x86 low (low <<< f.bo) ++ shlBo f.bo .rv)
            (run [bfLoad f.unitSz .ra .rt] t)) := fun t hm hra hr2 => by
        refine ready_insert .x86 hbo hm hra hr2 ?_
        rw [← hm, ← hra, ← hload t, bfLoad, bfLoad, accessBytes_unit hp, accessBytes_eff (unitSz_mem hp)]
        rfl
      rw [run_append (shrBo f.bo .rt), run_shrBo hbo]
      refine hearly _ ?_ ?_ ?_
      · split <;> rfl
      · split <;> rfl
      · split <;> rfl
  | arm64 => exact ready_insert .arm64 hbo rfl rfl rfl (hload s)

/-- From one memory to the other, the field's bits below the given one are those of
a register. -/
def Stored (f : Field) (a : BitVec 64) (m m' : ByteMem.Mem) (x : BitVec 64) (n : Nat) : Prop :=
  ∀ j < 2 ^ 67, bit m' a j = if f.bo ≤ j ∧ j < f.bo + f.bw ∧ j < n then x.getLsbD (j - f.bo) else bit m a j

theorem Stored.mono {a : BitVec 64} {m m' : ByteMem.Mem} {x : BitVec 64} {n n' : Nat}
    (h : Stored f a m m' x n) (hn : n = n' ∨ f.bo + f.bw ≤ n ∧ f.bo + f.bw ≤ n') : Stored f a m m' x n' := by
  intro j hj
  rw [h j hj]
  refine if_congr ?_ rfl rfl
  omega

/-- A unit written back with the field replaced by the low bits of a register. -/
theorem bit_insert {low : BitVec 64} (hlow : lowMask f.bw = some low) {k : Nat} (hk : k ≤ 8)
    (m : ByteMem.Mem) (a x : BitVec 64) {j : Nat} (hj : j < 2 ^ 67) :
    bit (ByteMem.store m a k
      (BitVec.ofNat 64 (ByteMem.load m a k) &&& ~~~(low <<< f.bo) ||| (x &&& low) <<< f.bo).toNat) a j =
      if f.bo ≤ j ∧ j < f.bo + f.bw ∧ j < 8 * k then x.getLsbD (j - f.bo) else bit m a j := by
  rw [ByteMem.bit_store _ _ _ _ hj]
  by_cases hin : j < 8 * k
  · have h64 : j < 64 := by omega
    rw [if_pos hin, BitVec.testBit_toNat, BitVec.getLsbD_or, BitVec.getLsbD_and,
      BitVec.getLsbD_not, BitVec.getLsbD_shiftLeft, BitVec.getLsbD_shiftLeft, BitVec.getLsbD_and,
      getLsbD_lowMask hlow, getLsbD_load, decide_eq_true h64, decide_eq_true (show j < 64 ∧ _ from ⟨h64, hin⟩)]
    by_cases hbo : f.bo ≤ j
    · rw [decide_eq_false (show ¬ j < f.bo by omega)]
      by_cases hbw : j < f.bo + f.bw
      · rw [if_pos ⟨hbo, hbw, hin⟩, decide_eq_true (show j - f.bo < f.bw by omega)]
        simp only [Bool.not_false, Bool.true_and, Bool.not_true, Bool.and_false, Bool.false_or, Bool.and_true]
      · rw [if_neg (fun h => hbw h.2.1), decide_eq_false (show ¬ j - f.bo < f.bw by omega)]
        simp only [Bool.not_false, Bool.true_and, Bool.and_false, Bool.or_false, Bool.and_true]
    · rw [if_neg (fun h => hbo h.1), decide_eq_true (show j < f.bo by omega)]
      simp only [Bool.not_true, Bool.and_false, Bool.false_and, Bool.not_false, Bool.and_true, Bool.or_false,
        Bool.true_and]
  · rw [if_neg hin, if_neg fun h => hin h.2.2]

theorem stored_insert (hp : Placed f) {low : BitVec 64} (hlow : lowMask f.bw = some low) (m : ByteMem.Mem)
    (a x : BitVec 64) : Stored f a m (ByteMem.store m a (effSz f.unitSz)
      (BitVec.ofNat 64 (ByteMem.load m a (effSz f.unitSz)) &&& ~~~(low <<< f.bo) ||| (x &&& low) <<< f.bo).toNat)
      x 64 := by
  have hcovers := hp.covers
  have heff : effSz f.unitSz = if f.unitSz > 8 then 8 else f.unitSz := rfl
  have hle : effSz f.unitSz ≤ 8 := by
    rw [heff]
    split <;> omega
  intro j hj
  rw [bit_insert hlow hle m a x hj]
  refine if_congr ?_ rfl rfl
  rw [heff]
  split <;> omega

theorem Ready.stored {low : BitVec 64} {s t : State} (hp : Placed f) (hlow : lowMask f.bw = some low)
    (h : Ready f low s t) : Stored f (s.reg .ra) s.mem
      (ByteMem.store s.mem (s.reg .ra) (effSz f.unitSz) (t.reg .rt ||| t.reg .rv).toNat) (s.reg .r2) 64 := by
  rw [h.rt, h.rv]
  exact stored_insert hp hlow s.mem (s.reg .ra) (s.reg .r2)

/-- The ninth byte is written on its own. -/
theorem run_overflowCode (hp : Placed f) (h64 : 64 < f.bo + f.bw) (hbo : f.bo < 8) {s : State} {a : BitVec 64}
    {m : ByteMem.Mem} {x : BitVec 64} (hra : s.reg .ra = a) (hr2 : s.reg .r2 = x)
    (hmem : Stored f a m s.mem x 64) :
    Stored f a m (run (overflowCode f) s).mem x (2 ^ 67) := by
  have hend := hp.end_le
  have hw := hp.width
  have hsize := size_cases f
  have hcount : (64 - f.bo) % 64 = 64 - f.bo := Nat.mod_eq_of_lt (by omega)
  have hrun : (run (overflowCode f) s).mem = ByteMem.store s.mem (a + BitVec.ofNat 64 8) 1
      (Size.half.fit
        (((BitVec.ofNat 64 (ByteMem.load s.mem (a + BitVec.ofNat 64 8 + BitVec.ofNat 64 0) 1)).setWidth 32 &&&
            (~~~((1 : BitVec 32) <<< (f.bo + f.bw - 64) - 1) &&& 0xff)).setWidth 64 |||
          ((x >>> ((64 - f.bo) % 64)).setWidth 32 &&& ((1 : BitVec 32) <<< (f.bo + f.bw - 64) - 1)).setWidth
            64)).toNat := by
    rw [← hra, ← hr2]
    rfl
  rw [hrun, hcount]
  intro j hj
  rw [ByteMem.bit_store_add _ _ _ _ _ hj (by decide), hmem j hj]
  by_cases hninth : 8 * 8 ≤ j ∧ j < 8 * (8 + 1)
  · obtain ⟨i, rfl⟩ := Nat.exists_eq_add_of_le hninth.1
    have hi : i < 8 := by omega
    have hconst : (0xff : BitVec 32).getLsbD i = true := by
      rw [show (0xff : BitVec 32) = (1 : BitVec 32) <<< 8 - 1 from rfl, getLsbD_mask (by decide),
        decide_eq_true hi]
    have hold : bit s.mem (a + BitVec.ofNat 64 8) i = bit m a (8 * 8 + i) := by
      rw [ByteMem.bit_add, hmem _ hj, if_neg (by omega)]
    have hshift : 64 - f.bo + i = 8 * 8 + i - f.bo := by omega
    rw [if_pos hninth, BitVec.testBit_toNat, Size.fit, Nat.add_sub_cancel_left]
    simp only [BitVec.getLsbD_setWidth, BitVec.getLsbD_or, BitVec.getLsbD_and, BitVec.getLsbD_not,
      BitVec.getLsbD_ushiftRight, hconst, getLsbD_mask (show f.bo + f.bw - 64 < 32 by omega), getLsbD_load,
      bit_zero, hold, hshift, show i < 64 by omega, show i < 32 by omega, show i < 8 * 1 by omega,
      and_self, decide_true, Bool.true_and, Bool.and_true]
    by_cases hin : i < f.bo + f.bw - 64
    · rw [if_pos ⟨by omega, by omega, hj⟩, decide_eq_true hin, Bool.not_true, Bool.and_false, Bool.false_or,
        Bool.and_true]
    · rw [if_neg (by omega), decide_eq_false hin, Bool.not_false, Bool.and_true, Bool.and_false,
        Bool.or_false]
  · rw [if_neg hninth]
    refine if_congr ?_ rfl rfl
    omega

theorem reload_mem (hp : Placed f) {reload : List Ins} (h : reloadCode arch f = some reload) (s : State) :
    (run reload s).mem = s.mem := by
  rw [reloadCode] at h
  obtain ⟨ext, hext, rfl⟩ := Option.map_eq_some_iff.mp h
  rw [run_append, (extendFrom_spec hp.pos (by decide) hext).1.mem, run_cons, shrBo]
  split <;> rfl

/-- Behind the unit's store. -/
theorem Ready.run_store {low : BitVec 64} {s t : State} (hp : Placed f) (hlow : lowMask f.bw = some low)
    (h : Ready f low s t) {sz : Nat} (hsz : accessBytes sz = effSz f.unitSz) :
    Stored f (s.reg .ra) s.mem (run [.or .full .rt .rv, bfStore sz .ra .rt] t).mem (s.reg .r2) 64 := by
  have hmem : (run [.or .full .rt .rv, bfStore sz .ra .rt] t).mem =
      ByteMem.store t.mem (t.reg .ra) (accessBytes sz) (t.reg .rt ||| t.reg .rv).toNat := rfl
  rw [hmem, hsz, h.mem, h.ra]
  exact h.stored hp hlow

/-- An assignment writes the field's bits, up to the eighth byte if the value
reads the field. -/
theorem assign_stored (hp : Placed f) {rhsReadsSame : Bool} (h : assignCode arch f rhsReadsSame = some code)
    (s : State) : Stored f (s.reg .ra) s.mem (run code s).mem (s.reg .r2)
      (if rhsReadsSame ∧ 64 < f.bo + f.bw then 64 else 2 ^ 67) := by
  rw [assignCode] at h
  obtain ⟨low, hlow, h⟩ := Option.bind_eq_some_iff.mp h
  obtain ⟨reload, hreload, rfl⟩ := Option.map_eq_some_iff.mp h
  have hbo := hp.bo_lt
  cases rhsReadsSame with
  | true =>
      have hsz : accessBytes (sameStoreSz arch f) = effSz f.unitSz := by
        cases arch with
        | x86 => exact accessBytes_unit hp
        | arm64 => exact accessBytes_eff (unitSz_mem hp)
      have hstored := (ready_early hp hbo arch low s).run_store hp hlow hsz
      simp only [if_true, true_and]
      rw [run_append, reload_mem hp hreload, run_append]
      refine hstored.mono ?_
      split <;> omega
  | false =>
      have hready := ready_simple hp hbo arch low s
      have hstored := hready.run_store hp hlow (accessBytes_eff (unitSz_mem hp))
      simp only [Bool.false_eq_true, if_false, false_and]
      rw [run_append, reload_mem hp hreload, run_append, run_append]
      by_cases h64 : 64 < f.bo + f.bw
      · have hninth := hp.ninth.mpr h64
        rw [if_pos ⟨by omega, h64⟩]
        exact run_overflowCode hp h64 (hp.bo_lt_of_ninth h64) hready.ra hready.r2 hstored
      · rw [if_neg fun h => h64 h.2]
        refine hstored.mono ?_
        omega

/-! ## The law for assignments -/

theorem Stored.untouched {a : BitVec 64} {m m' : ByteMem.Mem} {x : BitVec 64} {n : Nat}
    (h : Stored f a m m' x n) : Untouched f a m m' := fun j hj hout => by
  rw [h j hj, if_neg fun hin => hout ⟨hin.1, hin.2.1⟩]

theorem Stored.fieldBits_eq (hp : Placed f) {a : BitVec 64} {m m' : ByteMem.Mem} {x : BitVec 64} {n : Nat}
    (h : Stored f a m m' x n) (hn : f.bo + f.bw ≤ n) : fieldBits f m' a = x.setWidth f.bw := by
  have hend := hp.end_le
  apply BitVec.eq_of_getLsbD_eq
  intro i hi
  rw [getLsbD_fieldBits hp _ _ hi, h _ (by omega), if_pos (by omega), Nat.add_sub_cancel_left,
    BitVec.getLsbD_setWidth, decide_eq_true hi, Bool.true_and]

theorem setWidth_ofInt {w n : Nat} (h : w ≤ n) (v : Int) :
    (BitVec.ofInt n v).setWidth w = BitVec.ofInt w v := by
  have hdvd : ((2 ^ w : Nat) : Int) ∣ ((2 ^ n : Nat) : Int) := Int.natCast_dvd_natCast.mpr (Nat.pow_dvd_pow 2 h)
  have hpos : ((2 ^ n : Nat) : Int) ≠ 0 := Int.natCast_ne_zero.mpr (Nat.ne_of_gt (Nat.two_pow_pos n))
  apply BitVec.eq_of_toNat_eq
  rw [BitVec.toNat_setWidth, BitVec.toNat_ofInt, BitVec.toNat_ofInt]
  apply Int.ofNat.inj
  show ((((v % ((2 ^ n : Nat) : Int)).toNat % 2 ^ w : Nat)) : Int) = (((v % ((2 ^ w : Nat) : Int)).toNat : Nat) : Int)
  rw [Int.natCast_mod, Int.toNat_of_nonneg (Int.emod_nonneg _ hpos), Int.emod_emod_of_dvd _ hdvd,
    Int.toNat_of_nonneg (Int.emod_nonneg _ (Int.natCast_ne_zero.mpr (Nat.ne_of_gt (Nat.two_pow_pos w))))]

/-- Where a `_Bool` gets the right value without conversion. -/
def BoolFits (f : Field) (v : Int) : Prop :=
  f.isBool = true → v % (2 ^ f.bw : Nat) = if v = 0 then 0 else 1

theorem bool_zext (h : f.isBool = true) : f.zext = true ∧ f.mem.ty.size = 1 := by
  obtain ⟨hsize, hu⟩ := f.bool_unsigned (of_decide_eq_true h)
  exact ⟨by rw [Field.zext, hu, Bool.true_or], hsize⟩

theorem read_ofInt_iff (v : Int) : f.read (BitVec.ofInt f.bw v) = f.value v ↔ BoolFits f v := by
  rw [BoolFits, Field.value]
  cases hb : f.isBool with
  | true =>
      have hpos : ((2 ^ f.bw : Nat) : Int) ≠ 0 := Int.natCast_ne_zero.mpr (Nat.ne_of_gt (Nat.two_pow_pos _))
      rw [if_pos rfl, Field.read, (bool_zext hb).1, if_pos rfl, BitVec.toNat_ofInt,
        Int.toNat_of_nonneg (Int.emod_nonneg _ hpos)]
      exact ⟨fun h _ => h, fun h => h rfl⟩
  | false =>
      refine iff_of_true ?_ fun h => absurd h (by decide)
      rw [if_neg (by decide), Field.read]

/-- A memory of equal bits. -/
def filled (c : Bool) : ByteMem.Mem := fun _ => if c then BitVec.allOnes 8 else BitVec.ofNat 8 0

theorem bit_filled (c : Bool) (a : BitVec 64) (j : Nat) : bit (filled c) a j = c := by
  rw [bit, filled]
  cases c with
  | true => rw [if_pos rfl, BitVec.getLsbD_allOnes, decide_eq_true (Nat.mod_lt _ (by decide))]
  | false => rw [if_neg (by decide), BitVec.getLsbD_zero]

theorem assignCode_bw {rhsReadsSame : Bool} (h : assignCode arch f rhsReadsSame = some code) : f.bw < 64 := by
  obtain ⟨low, hlow, _⟩ := Option.bind_eq_some_iff.mp h
  exact (Option.ite_none_right_eq_some.mp hlow).1

theorem assignCode_some (hbw : f.bw < 64) (arch : Arch) (rhsReadsSame : Bool) :
    ∃ code, assignCode arch f rhsReadsSame = some code := by
  obtain ⟨ext, hext⟩ := extendFrom_some hbw .rt (effSz f.unitSz * 8)
  exact ⟨_, by rw [assignCode, lowMask, if_pos hbw, reloadCode, hext]; rfl⟩

theorem assign_iff (hp : Placed f) (arch : Arch) (rhsReadsSame : Bool) (v : Int) :
    Law arch f (.assign rhsReadsSame v) ↔
      f.bw < 64 ∧ (rhsReadsSame = true → f.bo + f.bw ≤ 64) ∧ BoolFits f v := by
  have hpos := hp.pos
  have hend := hp.end_le
  have hle := bw_le_exprBits hp
  have hexpr : f.exprBits ≤ 64 := by
    have hsize := size_cases f
    omega
  -- the bits that an assignment leaves
  have hbits : ∀ s code, (s.reg .r2).setWidth f.exprBits = BitVec.ofInt f.exprBits v →
      assignCode arch f rhsReadsSame = some code → (rhsReadsSame = true → f.bo + f.bw ≤ 64) →
        fieldBits f (run code s).mem (s.reg .ra) = BitVec.ofInt f.bw v := fun s code hv hcode h64 => by
    have hreach : f.bo + f.bw ≤ if rhsReadsSame ∧ 64 < f.bo + f.bw then 64 else 2 ^ 67 := by
      split
      · next hsame => exact h64 hsame.1
      · omega
    rw [(assign_stored hp hcode s).fieldBits_eq hp hreach, ← setWidth_ofInt hle, ← hv,
      BitVec.setWidth_setWidth_of_le _ hle]
  constructor
  · intro h
    -- a memory whose bits are not the top bit of the value
    let s : State := ⟨Function.update (fun _ => 0) .r2 (BitVec.ofInt 64 v),
      filled (!(BitVec.ofInt f.bw v).getLsbD (f.bw - 1))⟩
    have hv : (s.reg .r2).setWidth f.exprBits = BitVec.ofInt f.exprBits v := setWidth_ofInt hexpr v
    obtain ⟨code, hcode, hup⟩ := h s hv
    have hbw := assignCode_bw hcode
    have hread := ((updated_iff hp hbw arch _ _ _ v).mp hup).1
    have h64 : rhsReadsSame = true → f.bo + f.bw ≤ 64 := by
      intro hsame
      by_contra hlong
      have hbool : BoolFits f v := fun hb => by
        have hw := hp.width
        have hsize := (bool_zext hb).2
        have hbo := hp.bo_lt_of_ninth (by omega)
        omega
      have htop := congrArg (fun b => b.getLsbD (f.bw - 1))
        (read_inj (hread.trans ((read_ofInt_iff v).mpr hbool).symm))
      have hstored := assign_stored hp hcode s
      rw [if_pos (⟨hsame, by omega⟩ : rhsReadsSame = true ∧ 64 < f.bo + f.bw)] at hstored
      have hbit := hstored (f.bo + (f.bw - 1)) (by omega)
      rw [if_neg (by omega), bit_filled] at hbit
      simp only [getLsbD_fieldBits hp _ _ (show f.bw - 1 < f.bw by omega)] at htop
      exact Bool.not_ne_self _ (hbit.symm.trans htop)
    refine ⟨hbw, h64, (read_ofInt_iff v).mp ?_⟩
    rw [← hread, ← hbits s code hv hcode h64]
  · intro h
    obtain ⟨hbw, h64, hbool⟩ := h
    obtain ⟨code, hcode⟩ := assignCode_some hbw arch rhsReadsSame
    intro s hv
    refine ⟨code, hcode, (updated_iff hp hbw arch _ _ _ v).mpr ⟨?_, (assign_stored hp hcode s).untouched⟩⟩
    rw [hbits s code hv hcode h64]
    exact (read_ofInt_iff v).mpr hbool

/-! ## Increments and decrements -/

/-- One more or one less, in so many bits. -/
def Delta.on {w : Nat} (d : Delta) (b : BitVec w) : BitVec w :=
  match d with
  | .inc => b + BitVec.ofNat w 1
  | .dec => b - BitVec.ofNat w 1

theorem exec_deltaIns (d : Delta) (size : Size) (q : Reg) (s : State) :
    (d.ins size q).exec s = s.set q (size.fit (d.on (s.reg q))) := by
  cases d with
  | inc => rfl
  | dec => rfl

theorem ofInt_delta (d : Delta) (w : Nat) (v : Int) :
    BitVec.ofInt w (v + d.value) = d.on (BitVec.ofInt w v) := by
  cases d with
  | inc => exact BitVec.ofInt_add v 1
  | dec =>
      rw [Delta.value, BitVec.ofInt_add, BitVec.ofInt_neg, Delta.on, BitVec.sub_eq_add_neg]
      rfl

theorem setWidth_delta (d : Delta) {w n : Nat} (h : w ≤ n) (b : BitVec n) :
    (d.on b).setWidth w = d.on (b.setWidth w) := by
  have hb : b = BitVec.ofInt n b.toInt := BitVec.ofInt_toInt.symm
  rw [hb, ← ofInt_delta, setWidth_ofInt h, setWidth_ofInt h, ofInt_delta]

theorem ofInt_read (b : BitVec f.bw) :
    BitVec.ofInt f.bw (f.read b) = b := by
  rw [Field.read]
  split
  · rw [BitVec.ofInt_natCast, BitVec.ofNat_toNat, BitVec.setWidth_eq]
  · exact BitVec.ofInt_toInt

/-- Some value of the field has no bit there, and the next one has. -/
theorem carry (d : Delta) {w k : Nat} (h : k < w) :
    ∃ b : BitVec w, b.getLsbD k = false ∧ (d.on b).getLsbD k = true := by
  cases d with
  | inc =>
      refine ⟨BitVec.ofNat w (2 ^ k - 1), ?_, ?_⟩
      · rw [BitVec.getLsbD_ofNat, Nat.testBit_two_pow_sub_one, decide_eq_false (Nat.lt_irrefl k), Bool.and_false]
      · have hone : 2 ^ k - 1 + 1 = 2 ^ k := Nat.sub_add_cancel (Nat.two_pow_pos k)
        rw [Delta.on, ← BitVec.ofNat_add, hone, BitVec.getLsbD_ofNat, Nat.testBit_two_pow_self,
          decide_eq_true h]
        rfl
  | dec =>
      refine ⟨BitVec.ofNat w 0, ?_, ?_⟩
      · rw [BitVec.getLsbD_ofNat, Nat.zero_testBit, Bool.and_false]
      · rw [Delta.on, BitVec.zero_sub, BitVec.neg_one_eq_allOnes, BitVec.getLsbD_allOnes, decide_eq_true h]

/-- A memory with a field of given bits. -/
theorem exists_fieldBits (hp : Placed f) (a : BitVec 64) (b : BitVec f.bw) : ∃ m, fieldBits f m a = b := by
  have hend := hp.end_le
  refine ⟨ByteMem.store (filled false) a 9 (b.toNat <<< f.bo), ?_⟩
  apply BitVec.eq_of_getLsbD_eq
  intro i hi
  rw [getLsbD_fieldBits hp _ _ hi, ByteMem.bit_store _ _ _ _ (by omega), if_pos (by omega),
    Nat.testBit_shiftLeft, decide_eq_true (by omega), Nat.add_sub_cancel_left, BitVec.testBit_toNat,
    Bool.true_and]

/-- A `_Bool` is decremented correctly in one bit. -/
theorem boolFits_delta_iff (hp : Placed f) (d : Delta) :
    (∀ b : BitVec f.bw, BoolFits f (f.read b + d.value)) ↔ (f.isBool = true → d = .dec ∧ f.bw = 1) := by
  have hpos := hp.pos
  have htwo : 2 ≤ 2 ^ f.bw := Nat.le_self_pow (Nat.ne_of_gt hpos) 2
  have hread : f.isBool = true → ∀ b : BitVec f.bw, f.read b = b.toNat := fun hb b => by
    rw [Field.read, (bool_zext hb).1, if_pos rfl]
  constructor
  · intro h hb
    cases d with
    | inc =>
        have hone := h (BitVec.ofNat f.bw 1) hb
        rw [hread hb, BitVec.toNat_ofNat, Nat.mod_eq_of_lt (by omega)] at hone
        have hdvd : ((2 ^ f.bw : Nat) : Int) ∣ 1 + 1 - 1 := Int.dvd_self_sub_of_emod_eq hone
        have hle := Int.le_of_dvd (by decide) hdvd
        omega
    | dec =>
        have hzero := h (BitVec.ofNat f.bw 0) hb
        rw [hread hb, BitVec.toNat_ofNat, Nat.zero_mod] at hzero
        have hdvd : ((2 ^ f.bw : Nat) : Int) ∣ 0 + -1 - 1 := Int.dvd_self_sub_of_emod_eq hzero
        have hle := Int.le_of_dvd (by decide) (Int.dvd_neg.mpr hdvd)
        refine ⟨rfl, ?_⟩
        by_contra hne
        have hfour : 2 ^ 2 ≤ 2 ^ f.bw := Nat.pow_le_pow_right (by decide) (by omega)
        omega
  · intro h b hb
    obtain ⟨rfl, hbw⟩ := h hb
    have hlt := b.isLt
    have hpow : 2 ^ f.bw = 2 := by
      rw [hbw]
      rfl
    rw [hread hb, hpow]
    rw [hpow] at hlt
    have hcases : b.toNat = 0 ∨ b.toNat = 1 := by omega
    rcases hcases with h | h <;> rw [h] <;> rfl

/-- The value that an increment writes. -/
theorem setWidth_fit (size : Size) {w : Nat} (hw : w ≤ 64) (h : size = .half → w ≤ 32) (x : BitVec 64) :
    (size.fit x).setWidth w = x.setWidth w := by
  cases size with
  | half => rw [Size.fit, BitVec.setWidth_setWidth_of_le _ hw, BitVec.setWidth_setWidth_of_le _ (h rfl)]
  | full => rfl

theorem preCode_stored (hp : Placed f) {d : Delta} (h : preCode arch f d = some code) {s : State}
    (hr2 : s.reg .r2 = s.reg .ra) : ∃ x, Stored f (s.reg .ra) s.mem (run code s).mem x
        (if 64 < f.bo + f.bw then 64 else 2 ^ 67) ∧
      x.setWidth f.exprBits = BitVec.ofInt f.exprBits (f.read (fieldBits f s.mem (s.reg .ra)) + d.value) := by
  rw [preCode] at h
  obtain ⟨load, hload, h⟩ := Option.bind_eq_some_iff.mp h
  obtain ⟨assign, hassign, rfl⟩ := Option.map_eq_some_iff.mp h
  have hloads := member_spec hp (by decide) hload
  have hsize := size_cases f
  have hstored := assign_stored hp hassign ((d.ins f.exprSize .r2).exec (run load s))
  rw [exec_deltaIns] at hstored
  have hra : ((run load s).set .r2 (f.exprSize.fit (d.on ((run load s).reg .r2)))).reg .ra = s.reg .ra := by
    rw [set_reg_ne (by decide), hloads.ra]
  rw [hra, set_reg, show (State.set (run load s) .r2 _).mem = s.mem from hloads.mem s] at hstored
  simp only [true_and] at hstored
  refine ⟨f.exprSize.fit (d.on ((run load s).reg .r2)), ?_, ?_⟩
  · rw [run_append, run_cons, exec_deltaIns]
    exact hstored
  · have hhalf : f.exprSize = .half → f.exprBits ≤ 32 := fun h => by
      have hlt : f.mem.ty.size < 8 := by
        by_contra hge
        rw [Field.exprSize, if_neg hge] at h
        exact absurd h nofun
      omega
    rw [setWidth_fit _ (by omega) hhalf, setWidth_delta d (by omega), hloads.ofInt hp, hr2, ofInt_delta]

variable {d : Delta} {a : BitVec 64} {m m' : ByteMem.Mem} {x : BitVec 64}

/-- The next value was stored, all of it. -/
theorem Stored.updated_iff {n : Nat} (hp : Placed f) (hbw : f.bw < 64) (h : Stored f a m m' x n)
    (hn : f.bo + f.bw ≤ n) (hx : x.setWidth f.bw = d.on (fieldBits f m a)) :
    Updated arch f a m m' (f.read (fieldBits f m a) + d.value) ↔
      BoolFits f (f.read (fieldBits f m a) + d.value) := by
  have hnext : x.setWidth f.bw = BitVec.ofInt f.bw (f.read (fieldBits f m a) + d.value) := by
    rw [hx, ofInt_delta, ofInt_read]
  rw [BitField.updated_iff hp hbw, h.fieldBits_eq hp hn, hnext, read_ofInt_iff]
  exact and_iff_left h.untouched

/-- A bit of the next value is missing. -/
theorem not_updated {k : Nat} (hp : Placed f) (hbw : f.bw < 64) (hbool : f.isBool = false) (hk : k < f.bw)
    (hbit : bit m' a (f.bo + k) = false) (hon : (d.on (fieldBits f m a)).getLsbD k = true) :
    ¬ Updated arch f a m m' (f.read (fieldBits f m a) + d.value) := fun h => by
  have hread := ((BitField.updated_iff hp hbw arch _ _ _ _).mp h).1
  have hfits : BoolFits f (f.read (fieldBits f m a) + d.value) := fun hb =>
    absurd (hbool.symm.trans hb) (by decide)
  have heq := read_inj (hread.trans ((read_ofInt_iff _).mpr hfits).symm)
  rw [ofInt_delta, ofInt_read] at heq
  rw [← heq, getLsbD_fieldBits hp _ _ hk, hbit] at hon
  exact absurd hon (by decide)

/-- A field that reaches into a ninth byte is not a `_Bool`. -/
theorem Placed.not_bool (hp : Placed f) (h : 32 < f.bw ∨ 64 < f.bo + f.bw) : f.isBool = false := by
  refine Bool.eq_false_of_not_eq_true fun hb => ?_
  have hsize := (bool_zext hb).2
  have hw := hp.width
  rcases h with h | h
  · omega
  · have hbo := hp.bo_lt_of_ninth h
    omega

/-- The ninth byte was not written. -/
theorem Stored.not_updated_ninth (hp : Placed f) (hbw : f.bw < 64) (h : Stored f a m m' x 64)
    (h64 : 64 < f.bo + f.bw) (hoff : (fieldBits f m a).getLsbD (64 - f.bo) = false)
    (hon : (d.on (fieldBits f m a)).getLsbD (64 - f.bo) = true) :
    ¬ Updated arch f a m m' (f.read (fieldBits f m a) + d.value) := by
  have hbo := hp.bo_lt_of_ninth h64
  refine not_updated hp hbw (hp.not_bool (.inr h64)) (show 64 - f.bo < f.bw by omega) ?_ hon
  rw [h _ (by omega), if_neg (by omega), ← getLsbD_fieldBits hp m a (by omega), hoff]

theorem pre_iff (hp : Placed f) (arch : Arch) (d : Delta) : Law arch f (.pre d) ↔
    f.bw < 64 ∧ f.bo + f.bw ≤ 64 ∧ (f.isBool = true → d = .dec ∧ f.bw = 1) := by
  have hle := bw_le_exprBits hp
  have hbo := hp.bo_lt
  constructor
  · intro h
    have hbw : f.bw < 64 := by
      obtain ⟨code, _, hcode, _⟩ := h ⟨fun _ => 0, filled false⟩ rfl rfl
      obtain ⟨load, _, hmap⟩ := Option.bind_eq_some_iff.mp hcode
      obtain ⟨assign, hassign, _⟩ := Option.map_eq_some_iff.mp hmap
      exact assignCode_bw hassign
    obtain ⟨load, hload⟩ := memberCode_some hbw arch .r
    -- what happens to a field of given bits
    have hgiven : ∀ b : BitVec f.bw, ∃ m m' x, fieldBits f m 0 = b ∧
        Stored f 0 m m' x (if 64 < f.bo + f.bw then 64 else 2 ^ 67) ∧ x.setWidth f.bw = d.on b ∧
        Updated arch f 0 m m' (f.read b + d.value) := fun b => by
      obtain ⟨m, rfl⟩ := exists_fieldBits hp 0 b
      obtain ⟨code, old, hcode, hold, hup⟩ := h ⟨fun _ => 0, m⟩ rfl rfl
      rw [loaded_eq hp hload] at hold
      obtain rfl := Option.some_inj.mp hold
      obtain ⟨x, hstored, hx⟩ := preCode_stored hp hcode (s := ⟨fun _ => 0, m⟩) rfl
      refine ⟨m, _, x, rfl, hstored, ?_, hup⟩
      rw [← BitVec.setWidth_setWidth_of_le _ hle, hx, setWidth_ofInt hle, ofInt_delta, ofInt_read]
    have h64 : f.bo + f.bw ≤ 64 := by
      by_contra hlong
      obtain ⟨b, hoff, hon⟩ := carry d (show 64 - f.bo < f.bw by omega)
      obtain ⟨m, m', x, rfl, hstored, _, hup⟩ := hgiven b
      rw [if_pos (by omega)] at hstored
      exact hstored.not_updated_ninth hp hbw (by omega) hoff hon hup
    refine ⟨hbw, h64, (boolFits_delta_iff hp d).mp fun b => ?_⟩
    obtain ⟨m, m', x, rfl, hstored, hx, hup⟩ := hgiven b
    exact (hstored.updated_iff hp hbw (by rw [if_neg (by omega)]; omega) hx).mp hup
  · intro h
    obtain ⟨hbw, h64, hbool⟩ := h
    intro s hr2 hr
    obtain ⟨load, hload⟩ := memberCode_some hbw arch .r
    obtain ⟨load2, hload2⟩ := memberCode_some hbw arch .r2
    obtain ⟨assign, hassign⟩ := assignCode_some hbw arch true
    have hcode : preCode arch f d = some (load2 ++ d.ins f.exprSize .r2 :: assign) := by
      rw [preCode, hload2, hassign]
      rfl
    obtain ⟨x, hstored, hx⟩ := preCode_stored hp hcode hr2
    refine ⟨_, _, hcode, loaded_eq hp hload s, ?_⟩
    rw [hr]
    refine (hstored.updated_iff hp hbw (by rw [if_neg (by omega)]; omega) ?_).mpr
      ((boolFits_delta_iff hp d).mpr hbool _)
    rw [← BitVec.setWidth_setWidth_of_le _ hle, hx, setWidth_ofInt hle, ofInt_delta, ofInt_read]

/-- The middle of the code for a postfix operator, from the old value in `r3` to the
new one in `rn`. -/
theorem run_next (d : Delta) (size : Size) (low mask : BitVec 64) (u : State) :
    let v := run [.imm .scratch (~~~mask), .and .r2 .scratch, .mov .rn .r3, .imm .scratch low,
      .and .rn .scratch, d.ins size .rn, .imm .scratch low, .and .rn .scratch] u
    v.mem = u.mem ∧ v.reg .r = u.reg .r ∧ v.reg .r2 = u.reg .r2 &&& ~~~mask ∧
      v.reg .rn = size.fit (d.on (u.reg .r3 &&& low)) &&& low := by
  cases d with
  | inc => exact ⟨rfl, rfl, rfl, rfl⟩
  | dec => exact ⟨rfl, rfl, rfl, rfl⟩

theorem run_putBack {bo : Nat} (h : bo < 64) (sz : Nat) (v : State) :
    (run [.or .full .r2 .rn, bfStore sz .r .r2] (run (shlBo bo .rn) v)).mem =
      ByteMem.store v.mem (v.reg .r) (accessBytes sz) (v.reg .r2 ||| v.reg .rn <<< bo).toNat := by
  rw [run_shlBo h]
  rfl

theorem postCode_stored (hp : Placed f) (h : postCode arch f d = some code) (s : State) :
    ∃ y, Stored f (s.reg .r) s.mem (run code s).mem ((postSize arch).fit (d.on y)) 64 ∧
      (f.bo + f.bw ≤ 64 → y = (fieldBits f s.mem (s.reg .r)).setWidth 64) := by
  have hcovers := hp.covers
  have hbo := hp.bo_lt
  obtain ⟨low, hlow, h⟩ := Option.bind_eq_some_iff.mp h
  obtain ⟨ext, hext, rfl⟩ := Option.map_eq_some_iff.mp h
  obtain ⟨hquiet, hbits⟩ := extendFrom_spec hp.pos (by decide) hext
  -- the unit in `r2`, and the field at the bottom of `r3`
  let unit := BitVec.ofNat 64 (ByteMem.load s.mem (s.reg .r) (effSz f.unitSz))
  let t := ((s.set .r2 unit).set .r3 unit).set .r3 (unit >>> f.bo)
  have ht : run (bfLoad (effSz f.unitSz) .r .r2 :: .mov .r3 .r2 :: shrBo f.bo .r3) s = t := by
    have hload : Ins.exec s (bfLoad (effSz f.unitSz) .r .r2) = s.set .r2 unit := by
      rw [bfLoad, Ins.exec, accessBytes_eff (unitSz_mem hp), BitVec.add_zero]
    rw [run_cons, run_cons, run_shrBo hbo, hload]
    rfl
  have hext3 : (run ext t).reg .r3 &&& low = unit >>> f.bo &&& low := by
    apply BitVec.eq_of_getLsbD_eq
    intro i hi
    rw [BitVec.getLsbD_and, BitVec.getLsbD_and, getLsbD_lowMask hlow, hbits t i hi]
    by_cases hin : i < f.bw
    · rw [if_pos (.inl hin)]
      rfl
    · rw [decide_eq_false hin, Bool.and_false, Bool.and_false]
  refine ⟨unit >>> f.bo &&& low, ?_, fun h64 => ?_⟩
  · have hmem : (run (bfLoad (effSz f.unitSz) .r .r2 :: .mov .r3 .r2 :: shrBo f.bo .r3 ++ ext ++
        [.imm .scratch (~~~(low <<< f.bo)), .and .r2 .scratch, .mov .rn .r3, .imm .scratch low,
          .and .rn .scratch, d.ins (postSize arch) .rn, .imm .scratch low, .and .rn .scratch] ++
        shlBo f.bo .rn ++ [.or .full .r2 .rn, bfStore (effSz f.unitSz) .r .r2]) s).mem =
      ByteMem.store s.mem (s.reg .r) (effSz f.unitSz)
        (unit &&& ~~~(low <<< f.bo) |||
          ((postSize arch).fit (d.on (unit >>> f.bo &&& low)) &&& low) <<< f.bo).toNat := by
      obtain ⟨hmem, hr, hr2, hrn⟩ := run_next d (postSize arch) low (low <<< f.bo) (run ext t)
      rw [hquiet.mem] at hmem
      rw [hquiet.reg _ _ (by decide) (by decide)] at hr hr2
      rw [hext3] at hrn
      rw [run_append, run_append, run_append, run_append, ht, run_putBack hbo, hmem, hr, hr2, hrn,
        accessBytes_eff (unitSz_mem hp)]
      rfl
    rw [hmem]
    exact stored_insert hp hlow s.mem (s.reg .r) _
  · have heff : effSz f.unitSz = if f.unitSz > 8 then 8 else f.unitSz := rfl
    apply BitVec.eq_of_getLsbD_eq
    intro i hi
    rw [BitVec.getLsbD_and, getLsbD_lowMask hlow, BitVec.getLsbD_ushiftRight, BitVec.getLsbD_setWidth,
      decide_eq_true hi, Bool.true_and]
    by_cases hin : i < f.bw
    · rw [getLsbD_fieldBits hp _ _ hin, getLsbD_load, decide_eq_true hin, Bool.and_true, decide_eq_true,
        Bool.true_and]
      rw [heff]
      split <;> omega
    · rw [decide_eq_false hin, Bool.and_false, BitVec.getLsbD_of_ge _ _ (Nat.le_of_not_lt hin)]

theorem post_iff (hp : Placed f) (arch : Arch) (d : Delta) : Law arch f (.post d) ↔
    f.bw < 64 ∧ f.bo + f.bw ≤ 64 ∧ (arch = .x86 → f.bw ≤ 32) ∧ (f.isBool = true → d = .dec ∧ f.bw = 1) := by
  have hbo := hp.bo_lt
  have hle : f.bw ≤ 64 := by
    have hsize := size_cases f
    have hexpr := bw_le_exprBits hp
    omega
  -- what is written, if the register is wide enough
  have hnext : (arch = .x86 → f.bw ≤ 32) → ∀ (b : BitVec f.bw) (y : BitVec 64), y = b.setWidth 64 →
      ((postSize arch).fit (d.on y)).setWidth f.bw = d.on b := fun h32 b y hy => by
    have hhalf : postSize arch = .half → f.bw ≤ 32 := fun h => by
      cases arch with
      | x86 => exact h32 rfl
      | arm64 => exact absurd h nofun
    rw [setWidth_fit _ hle hhalf, setWidth_delta d hle, hy, BitVec.setWidth_setWidth_of_le _ hle, BitVec.setWidth_eq]
  constructor
  · intro h
    have hbw : f.bw < 64 := by
      obtain ⟨code, _, hcode, _⟩ := h ⟨fun _ => 0, filled false⟩
      obtain ⟨low, hlow, _⟩ := Option.bind_eq_some_iff.mp hcode
      exact (Option.ite_none_right_eq_some.mp hlow).1
    obtain ⟨load, hload⟩ := memberCode_some hbw arch .r
    have hgiven : ∀ b : BitVec f.bw, ∃ m m' y, fieldBits f m 0 = b ∧
        Stored f 0 m m' ((postSize arch).fit (d.on y)) 64 ∧
        (f.bo + f.bw ≤ 64 → y = b.setWidth 64) ∧ Updated arch f 0 m m' (f.read b + d.value) := fun b => by
      obtain ⟨m, rfl⟩ := exists_fieldBits hp 0 b
      obtain ⟨code, old, hcode, hold, hup⟩ := h ⟨fun _ => 0, m⟩
      rw [loaded_eq hp hload] at hold
      obtain rfl := Option.some_inj.mp hold
      obtain ⟨y, hstored, hy⟩ := postCode_stored hp hcode ⟨fun _ => 0, m⟩
      exact ⟨m, _, y, rfl, hstored, hy, hup⟩
    have h64 : f.bo + f.bw ≤ 64 := by
      by_contra hlong
      obtain ⟨b, hoff, hon⟩ := carry d (show 64 - f.bo < f.bw by omega)
      obtain ⟨m, m', y, rfl, hstored, _, hup⟩ := hgiven b
      exact hstored.not_updated_ninth hp hbw (by omega) hoff hon hup
    have h32 : arch = .x86 → f.bw ≤ 32 := by
      rintro rfl
      by_contra hlong
      obtain ⟨b, _, hon⟩ := carry d (show 32 < f.bw by omega)
      obtain ⟨m, m', y, rfl, hstored, _, hup⟩ := hgiven b
      refine not_updated hp hbw (hp.not_bool (.inl (by omega))) (show 32 < f.bw by omega) ?_ hon hup
      rw [hstored _ (by omega), if_pos (by omega), Nat.add_sub_cancel_left, postSize, Size.fit,
        BitVec.getLsbD_setWidth, BitVec.getLsbD_setWidth]
      rfl
    refine ⟨hbw, h64, h32, (boolFits_delta_iff hp d).mp fun b => ?_⟩
    obtain ⟨m, m', y, rfl, hstored, hy, hup⟩ := hgiven b
    exact (hstored.updated_iff hp hbw h64 (hnext h32 _ y (hy h64))).mp hup
  · intro h
    obtain ⟨hbw, h64, h32, hbool⟩ := h
    intro s
    obtain ⟨load, hload⟩ := memberCode_some hbw arch .r
    obtain ⟨code, hcode⟩ : ∃ code, postCode arch f d = some code := by
      obtain ⟨ext, hext⟩ := extendFrom_some hbw .r3 (effSz f.unitSz * 8)
      exact ⟨_, by rw [postCode, lowMask, if_pos hbw, hext]; rfl⟩
    obtain ⟨y, hstored, hy⟩ := postCode_stored hp hcode s
    refine ⟨code, _, hcode, loaded_eq hp hload s, ?_⟩
    exact (hstored.updated_iff hp hbw h64 (hnext h32 _ y (hy h64))).mpr ((boolFits_delta_iff hp d).mpr hbool _)

/-! ## The law -/

/-- When a way to change a field does what it should. -/
def Good (arch : Arch) (f : Field) : Access → Prop
  | .assign rhsReadsSame v => f.bw < 64 ∧ (rhsReadsSame = true → f.bo + f.bw ≤ 64) ∧ BoolFits f v
  | .pre d => f.bw < 64 ∧ f.bo + f.bw ≤ 64 ∧ (f.isBool = true → d = .dec ∧ f.bw = 1)
  | .post d => f.bw < 64 ∧ f.bo + f.bw ≤ 64 ∧ (arch = .x86 → f.bw ≤ 32) ∧
      (f.isBool = true → d = .dec ∧ f.bw = 1)

open StructDecl in
/-- `b` in `struct { unsigned a : 3; unsigned b : 5; }` -/
def fieldOfUnsigned : Field where
  mem := ⟨true, StructDecl.tyInt, 0, 5, 3, 0⟩
  isUnsigned := true
  isEnum := false
  size_mem := by decide
  bool_unsigned := by decide
  enum_size := by decide

open StructDecl in
/-- The field of `struct { unsigned long a : 40; }` -/
def fieldOfLong : Field where
  mem := ⟨true, StructDecl.tyLong, 0, 40, 0, 0⟩
  isUnsigned := true
  isEnum := false
  size_mem := by decide
  bool_unsigned := by decide
  enum_size := by decide

end Rcc.BitField

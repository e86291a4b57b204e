import Rcc.Patches
import Rcc.BitFieldSound

/-!
# Members of static objects

`global_init_member` puts constants into the bytes of a static object, bit-fields
among them; for an automatic object, `gen` prints assignments for the same
members. Both go by the unit of the member's type, but a field that a pack value
lets reach out of its unit is assigned with a wider access, or two, and put into
a static object with the one unit (`static_agrees_iff`).

The bytes at `init_data` are in the memory of the compiler, which goes on behind
them as that of the program does behind the object.
-/

namespace Rcc.StaticField

open StructDecl (StructType structDecl)
open BitField (Arch Reg Ins State Field accessBytes assignCode)
open ByteMem (Mem bit SameBytes)

/-! ## The bytes of a static object -/

/-- What `LVar` has of a static object. Addresses are counted from `init_data`. -/
structure LVar where
  initData : Mem
  initSize : Nat

/-- The bytes that are new are those of the arena, which are 0. -/
def ensureInitSize (var : LVar) (offset size : Nat) : LVar :=
  let need := offset + size
  if need > var.initSize then
    ⟨fun b => if b.toNat < var.initSize then var.initData b else 0, need⟩
  else var

def writeScalarBytes (var : LVar) (offset size : Nat) (val : BitVec 64) : LVar :=
  let var := ensureInitSize var offset size
  { var with initData := ByteMem.store var.initData (BitVec.ofNat 64 offset) (accessBytes size) val.toNat }

/-- `global_init_member` for a member that is a bit-field or another integer, with
a constant. -/
def globalInitMember (mem : StructDecl.Member) (val : BitVec 64) (var : LVar) : LVar :=
  if 0 < mem.bitWidth then
    let off := BitVec.ofNat 64 mem.offset
    let unitSz := accessBytes mem.ty.size
    let (mask, newVal) : BitVec 64 × BitVec 64 :=
      if mem.bitWidth = 64 then ((~~~(0 : BitVec 64)) <<< mem.bitOffset, val <<< mem.bitOffset)
      else (((1 : BitVec 64) <<< mem.bitWidth - 1) <<< mem.bitOffset,
        (val &&& ((1 : BitVec 64) <<< mem.bitWidth - 1)) <<< mem.bitOffset)
    let old := BitVec.ofNat 64 (ByteMem.load var.initData off unitSz)
    { var with initData := ByteMem.store var.initData off unitSz (old &&& ~~~mask ||| newVal).toNat }
  else writeScalarBytes var mem.offset mem.ty.size val

/-! ## Constants for members -/

/-- A constant for a bit-field or for another integer member. -/
inductive Item where
  | field (f : Field) (val : BitVec 64)
  | plain (mem : StructDecl.Member) (val : BitVec 64)

namespace Item

def mem : Item → StructDecl.Member
  | field f _ => f.mem
  | plain m _ => m

def val : Item → BitVec 64
  | field _ v => v
  | plain _ v => v

/-- The members of a type that there are constants for. -/
def Of (T : StructType) : Item → Prop
  | field f _ => f.mem ∈ T.members ∧ 0 < f.mem.bitWidth
  | plain m _ => m ∈ T.members ∧ m.bitWidth = 0 ∧ m.ty.size ∈ [1, 2, 4, 8]

/-- The assignment, with the value in `r2` and the address of the member in `ra`.
Outside bit-fields it is `mov reg(r2, size), (ra)`, or `emit_store`. -/
def code (arch : Arch) : Item → Option (List Ins)
  | field f _ => assignCode arch f false
  | plain m _ => some [.store (accessBytes m.ty.size) .r2 .ra]

/-- The constant, as an expression of the member's width has it in a register. -/
def InReg : Item → BitVec 64 → Prop
  | field f v, x => x.setWidth f.exprBits = v.setWidth f.exprBits
  | plain m v, x => x.setWidth (m.ty.size * 8) = v.setWidth (m.ty.size * 8)

end Item

/-- The bytes of a static object, with constants put in. -/
def globalInit (items : List Item) (var : LVar) : LVar :=
  items.foldl (fun var i => globalInitMember i.mem i.val var) var

/-- Memory before and after the assignments of the constants to the members of an
object at `a`. -/
inductive Assigns (arch : Arch) (a : BitVec 64) : List Item → Mem → Mem → Prop where
  | nil (m : Mem) : Assigns arch a [] m m
  | cons {i : Item} {rest : List Item} {code : List Ins} {m' : Mem} (s : State)
      (hcode : i.code arch = some code) (haddr : s.reg .ra = a + BitVec.ofNat 64 i.mem.offset)
      (hval : i.InReg (s.reg .r2)) (hrest : Assigns arch a rest (BitField.run code s).mem m') :
      Assigns arch a (i :: rest) s.mem m'

/-- An object of zeros. -/
def Zeroed (m : Mem) (a : BitVec 64) (size : Nat) : Prop := SameBytes m a (fun _ => 0) 0 size

/-- Constants put into a static object make the same bytes there as assignments
make of a zeroed object. -/
def Agrees (arch : Arch) (T : StructType) (items : List Item) : Prop :=
  ∀ d m a, Zeroed d 0 T.size → Zeroed m a T.size →
    (∃ m', Assigns arch a items m m') ∧
      ∀ m', Assigns arch a items m m' →
        SameBytes (globalInit items ⟨d, T.size⟩).initData 0 m' a T.size

/-- The fields are narrower than 64 bits, and what is given to each last has no
bits behind the unit of the field's type. -/
structure Good (items : List Item) : Prop where
  narrow : ∀ f v, .field f v ∈ items → f.bw < 64
  inUnit : ∀ before f v after, items = before ++ .field f v :: after →
    (∀ e ∈ after, e.mem ≠ f.mem) → (v.setWidth f.bw).toNat < 2 ^ (f.mem.ty.size * 8 - f.bo)

/-! ## Where members are -/

section Places

open StructDecl

variable {cfg : Config} {decls : List Decl} {T : StructType} {L L' : Layout} {d : Decl}

theorem fieldOf_offset_lt (hms : fitsInt (placeBitField cfg d L).msRunBase = true)
    (hpos : fitsInt ((placeBitField cfg d L).bitPos + 7) = true) : (fieldOf cfg d L).offset < 2 ^ 31 := by
  have hms := of_decide_eq_true hms
  have hpos := of_decide_eq_true hpos
  rw [fieldOf]
  rw [placeBitField] at hms hpos
  by_cases hu : cfg.isUnion = true
  · rw [if_pos hu]
    exact Nat.two_pow_pos 31
  · rw [if_neg hu] at hms hpos ⊢
    by_cases huse : cfg.useMsBitfields = true
    · rw [if_pos huse] at hms ⊢
      exact hms
    · rw [if_neg huse] at hpos ⊢
      by_cases hpack : 0 < cfg.structPack
      · rw [if_pos hpack] at hpos ⊢
        simp only [Layout.push] at hpos ⊢
        omega
      · rw [if_neg hpack] at hpos ⊢
        simp only [Layout.push] at hpos ⊢
        omega

theorem offset_lt_step (hall : ∀ m ∈ L.members, m.offset < 2 ^ 31) (h : StructDecl.declare cfg L d = some L') :
    ∀ m ∈ L'.members, m.offset < 2 ^ 31 := by
  have hbytes : ∀ {M}, byteStep M = some L' → ∀ m ∈ L'.members, m.offset < 2 ^ 31 := fun hstep m hm => by
    rw [byteStep_eq_some hstep] at hm
    exact of_decide_eq_true (List.all_eq_true.mp (Option.ite_none_right_eq_some.mp hstep).1 m hm)
  have hmembers := members_round (declare_round h).2
  rw [StructDecl.declare] at h
  split at h
  · cases h
  · split at h
    · next hn =>
      split at h
      · next hpos =>
        obtain ⟨_, hfits, hrun⟩ := (Option.ite_none_right_eq_some.mp h).1
        rw [hmembers, if_pos (by rw [Decl.isMember, hn, Bool.true_or])]
        intro m hm
        rcases List.mem_append.mp hm with hm | hm
        · exact hall m hm
        · rw [List.mem_singleton.mp hm, memberOf_bits hpos]
          exact fieldOf_offset_lt hrun hfits
      · exact hbytes h
    · split at h
      · exact hbytes h
      · next hn hagg =>
        split at h
        · cases h
        · have hnot : d.isMember = false := by
            rw [Decl.isMember, Bool.eq_false_of_not_eq_true hn, Bool.false_or, Bool.eq_false_iff]
            exact fun h => hagg ((Bool.and_eq_true _ _).mp h |>.imp eq_of_beq id)
          rw [hmembers, hnot]
          exact hall

theorem offset_lt (h : structDecl cfg decls = some T) : ∀ m ∈ T.members, m.offset < 2 ^ 31 := by
  obtain ⟨L, hL, rfl⟩ := Option.map_eq_some_iff.mp h
  have hstart : ∀ m ∈ Layout.start.members, m.offset < 2 ^ 31 := fun m hm => absurd hm List.not_mem_nil
  have hstep : ∀ M d M', (∀ m ∈ M.members, m.offset < 2 ^ 31) → StructDecl.declare cfg M d = some M' →
      ∀ m ∈ M'.members, m.offset < 2 ^ 31 := fun M d M' => offset_lt_step
  exact Steps.invariant hstep hstart hL

theorem plain_bitOffset (h : structDecl cfg decls = some T) :
    ∀ m ∈ T.members, m.bitWidth = 0 → m.bitOffset = 0 := by
  obtain ⟨L, hL, rfl⟩ := Option.map_eq_some_iff.mp h
  refine members_all hL fun d _ M _ _ _ _ _ hzero => ?_
  rw [memberOf_bitWidth] at hzero
  rw [memberOf_bytes hzero]

/-- An ordinary member is within the type. -/
theorem plain_inside (h : structDecl cfg decls = some T) :
    ∀ m ∈ T.members, m.bitWidth = 0 → m.endBit ≤ T.size * 8 := by
  obtain ⟨L, hL, rfl, hsize⟩ := le_size h
  by_cases hu : cfg.isUnion = true
  · rw [if_pos hu] at hsize
    exact fun m hm _ => (union_inside hu hL m hm).trans (Nat.mul_le_mul_right 8 hsize)
  · rw [if_neg hu] at hsize
    refine members_all hL fun d _ M M' hround hw hgrow hm hzero => ?_
    rw [memberOf_bitWidth] at hzero
    have hend := end_le_offset (Bool.eq_false_of_not_eq_true hu) hround hw hm fun hres =>
      absurd hres.2.2.1 (by omega)
    have hoff := hgrow.offset
    omega

/-- Only a pack value lets a field reach out of its unit. -/
structure Packs (cfg : Config) : Prop where
  struct : cfg.isUnion = false
  dense : cfg.useMsBitfields = false
  packed : 0 < cfg.structPack

theorem packs_of_long (h : structDecl cfg decls = some T) {m : StructDecl.Member} (hm : m ∈ T.members)
    (hpos : 0 < m.bitWidth) (hlong : m.ty.size * 8 < m.bitOffset + m.bitWidth) : Packs cfg := by
  by_contra hnot
  obtain ⟨L, hL, rfl⟩ := Option.map_eq_some_iff.mp h
  have hwithin : ∀ m ∈ L.members, 0 < m.bitWidth → m.bitOffset + m.bitWidth ≤ m.ty.size * 8 := by
    refine members_all hL fun d _ M M' _ hw _ _ hpos => ?_
    rw [memberOf_bitWidth] at hpos
    rw [memberOf_bits hpos, fieldOf]
    split
    · simp only
      omega
    · next hu =>
      split
      · exact BitField.Placing.enterRun_fits hw
      · next hms =>
        split
        · next hpack =>
          exact absurd ⟨Bool.eq_false_of_not_eq_true hu, Bool.eq_false_of_not_eq_true hms, hpack⟩ hnot
        · exact BitField.Placing.alignedUnit_fits hw (by omega)
  exact absurd (hwithin m hm hpos) (by omega)

/-- Under a pack value, members are apart and within the type. -/
theorem Packs.apart (hp : Packs cfg) (h : structDecl cfg decls = some T) : Apart T.members := by
  obtain ⟨L, hL, rfl⟩ := Option.map_eq_some_iff.mp h
  refine (apart_gcc hp.struct hp.dense hL).1.mpr fun before d after M _ _ hwrong => ?_
  have hback := hwrong.2
  rw [if_neg (by rw [hp.dense]; decide)] at hback
  have hpacked := hp.packed
  have hzero := hback.2.1
  omega

theorem Packs.inside (hp : Packs cfg) (h : structDecl cfg decls = some T) :
    ∀ m ∈ T.members, m.endBit ≤ T.size * 8 := by
  obtain ⟨L, hL, rfl, hsize⟩ := le_size h
  rw [if_neg (by rw [hp.struct]; decide)] at hsize
  refine (inside_iff hp.struct hL (Nat.mul_le_mul_right 8 hsize)).mpr fun _ _ _ _ _ _ _ hms => ?_
  exact absurd (hp.dense ▸ hms) (by decide)

end Places

/-! ## Items as patches -/

open Patches (Patch patch short)

/-- The bits that an assignment gives to an object. -/
def Item.patch (i : Item) : Patch := ⟨i.mem.startBit, i.mem.endBit, fun k => i.val.getLsbD k⟩

/-- Where the unit of the member's type ends. -/
def Item.unitEnd (i : Item) : Nat := (i.mem.offset + i.mem.ty.size) * 8

theorem Item.field_patch (f : Field) (v : BitVec 64) (hpos : 0 < f.mem.bitWidth) :
    (Item.field f v).patch = ⟨8 * f.mem.offset + f.bo, 8 * f.mem.offset + (f.bo + f.bw), fun k => v.getLsbD k⟩ := by
  have hend : f.mem.endBit = 8 * f.mem.offset + (f.bo + f.bw) := by
    rw [StructDecl.Member.endBit, StructDecl.Member.bits, if_pos hpos, StructDecl.Member.startBit, Nat.mul_comm, Nat.add_assoc]
    rfl
  rw [Item.patch, Item.mem, hend, StructDecl.Member.startBit, Nat.mul_comm]
  rfl

theorem Item.plain_patch (m : StructDecl.Member) (v : BitVec 64) (hzero : m.bitWidth = 0) (hbo : m.bitOffset = 0) :
    (Item.plain m v).patch = ⟨8 * m.offset + 0, 8 * m.offset + 8 * m.ty.size, fun k => v.getLsbD k⟩ := by
  have hend : m.endBit = 8 * m.offset + 8 * m.ty.size := by
    rw [StructDecl.Member.endBit, StructDecl.Member.bits, if_neg (by omega), StructDecl.Member.startBit, hbo]
    omega
  rw [Item.patch, Item.mem, hend, StructDecl.Member.startBit, Nat.mul_comm, hbo]
  rfl

theorem accessBytes_mem {n : Nat} (h : n ∈ [1, 2, 4, 8]) : accessBytes n = n := by
  simp only [List.mem_cons, List.not_mem_nil, or_false] at h
  rcases h with rfl | rfl | rfl | rfl <;> rfl

section Steps

open StructDecl (Config Decl)

variable {cfg : Config} {decls : List Decl} {T : StructType} {i : Item} {arch : Arch} {var : LVar}

/-- A unit of the declared type, written back with the field replaced. -/
theorem bit_insertUnit {f : Field} {low : BitVec 64} (hlow : BitField.lowMask f.bw = some low) (m : Mem)
    (a v : BitVec 64) {j : Nat} (hj : j < 2 ^ 67) :
    bit (ByteMem.store m a f.mem.ty.size
      (BitVec.ofNat 64 (ByteMem.load m a f.mem.ty.size) &&& ~~~(low <<< f.bo) |||
        (v &&& low) <<< f.bo).toNat) a j =
      if f.bo ≤ j ∧ j < min (f.bo + f.bw) (8 * f.mem.ty.size) then v.getLsbD (j - f.bo) else bit m a j := by
  have hexpr := BitField.size_cases f
  rw [BitField.bit_insert hlow (by omega) m a v hj]
  refine if_congr ?_ rfl rfl
  omega

theorem bit_storePlain {size : Nat} (m : Mem) (a v : BitVec 64) {j : Nat} (hj : j < 2 ^ 67) :
    bit (ByteMem.store m a size v.toNat) a j =
      if 0 ≤ j ∧ j < 8 * size then v.getLsbD (j - 0) else bit m a j := by
  rw [ByteMem.bit_store _ _ _ _ hj, BitVec.testBit_toNat, Nat.sub_zero]
  refine if_congr ?_ rfl rfl
  omega

/-- `global_init_member` puts the bits of a field up to the end of the unit. -/
theorem bit_packField {f : Field} (hpos : 0 < f.bw) (hbw : f.bw < 64) (hoff : f.mem.offset < 2 ^ 31)
    (v : BitVec 64) (var : LVar) :
    (globalInitMember f.mem v var).initSize = var.initSize ∧ ∀ j < 2 ^ 67,
      bit (globalInitMember f.mem v var).initData 0 j =
        if 8 * f.mem.offset + f.bo ≤ j ∧ j < 8 * f.mem.offset + min (f.bo + f.bw) (8 * f.mem.ty.size)
        then v.getLsbD (j - (8 * f.mem.offset + f.bo)) else bit var.initData 0 j := by
  have hne : ¬ f.mem.bitWidth = 64 := Nat.ne_of_lt hbw
  have haddr : BitVec.ofNat 64 f.mem.offset = 0 + BitVec.ofNat 64 f.mem.offset := (BitVec.zero_add _).symm
  have hlow : BitField.lowMask f.bw = some ((1 : BitVec 64) <<< f.bw - 1) := if_pos hbw
  have hexpr := BitField.size_cases f
  have hput := fun k hk => bit_insertUnit hlow var.initData (0 + BitVec.ofNat 64 f.mem.offset) v (j := k) hk
  rw [globalInitMember, if_pos (show 0 < f.mem.bitWidth from hpos), if_neg hne, accessBytes_mem f.size_mem, haddr]
  exact ⟨rfl, fun j hj => ByteMem.bit_rebase (x := fun k => v.getLsbD k) hput (by omega) hj⟩

/-- `global_init_member` puts the bits up to the end of the unit. -/
theorem bit_globalInitMember (h : structDecl cfg decls = some T) (hi : i.Of T)
    (hnarrow : ∀ f v, i = .field f v → f.bw < 64) (hsize : var.initSize = T.size) :
    (globalInitMember i.mem i.val var).initSize = T.size ∧ ∀ j < 2 ^ 67,
      bit (globalInitMember i.mem i.val var).initData 0 j =
        (short Item.patch Item.unitEnd i).on (bit var.initData 0) j := by
  cases i with
  | field f v =>
      obtain ⟨hm, hpos⟩ := hi
      have hoff := offset_lt h f.mem hm
      obtain ⟨hkeep, hbits⟩ := bit_packField hpos (hnarrow f v rfl) hoff v var
      refine ⟨hkeep.trans hsize, fun j hj => (hbits j hj).trans ?_⟩
      rw [Patch.on, short, Item.field_patch f v hpos]
      refine if_congr ?_ rfl rfl
      rw [Patch.Covers, Item.unitEnd, Item.mem]
      simp only
      omega
  | plain m v =>
      obtain ⟨hm, hzero, hmem⟩ := hi
      have hoff := offset_lt h m hm
      have hinside := plain_inside h m hm hzero
      have hbo := plain_bitOffset h m hm hzero
      have haddr : BitVec.ofNat 64 m.offset = 0 + BitVec.ofNat 64 m.offset := (BitVec.zero_add _).symm
      have hput := fun k hk =>
        @bit_storePlain m.ty.size var.initData (0 + BitVec.ofNat 64 m.offset) v k hk
      have hensure : ensureInitSize var m.offset m.ty.size = var := by
        rw [StructDecl.Member.endBit, StructDecl.Member.startBit, StructDecl.Member.bits, if_neg (by omega)] at hinside
        rw [ensureInitSize, if_neg (by omega)]
      simp only [List.mem_cons, List.not_mem_nil, or_false] at hmem
      rw [Item.mem, Item.val, globalInitMember, if_neg (by omega), writeScalarBytes, hensure,
        accessBytes_mem (by simpa only [List.mem_cons, List.not_mem_nil, or_false] using hmem), haddr]
      refine ⟨hsize, fun j hj => (ByteMem.bit_rebase (x := fun k => v.getLsbD k) hput (by omega) hj).trans ?_⟩
      rw [Patch.on, short, Item.plain_patch m v hzero hbo]
      refine if_congr ?_ rfl rfl
      rw [Patch.Covers, Item.unitEnd, Item.mem]
      simp only
      omega

/-- The assignment to a field at an offset puts all its bits. -/
theorem bit_assignCode {f : Field} (hp : BitField.Placed f) {code : List Ins}
    (hcode : assignCode arch f false = some code) {s : State} {a v : BitVec 64} {n : Nat} (hn : n < 2 ^ 31)
    (hra : s.reg .ra = a + BitVec.ofNat 64 n) (hval : (s.reg .r2).setWidth f.exprBits = v.setWidth f.exprBits)
    {j : Nat} (hj : j < 2 ^ 67) :
    bit (BitField.run code s).mem a j =
      if 8 * n + f.bo ≤ j ∧ j < 8 * n + (f.bo + f.bw) then v.getLsbD (j - (8 * n + f.bo))
      else bit s.mem a j := by
  have hend := hp.end_le
  have hstored := BitField.assign_stored hp hcode s
  rw [hra] at hstored
  simp only [Bool.false_eq_true, false_and, if_false] at hstored
  have hput : ∀ k < 2 ^ 67, bit (BitField.run code s).mem (a + BitVec.ofNat 64 n) k =
      if f.bo ≤ k ∧ k < f.bo + f.bw then v.getLsbD (k - f.bo)
      else bit s.mem (a + BitVec.ofNat 64 n) k := fun k hk => by
    rw [hstored k hk]
    by_cases hin : f.bo ≤ k ∧ k < f.bo + f.bw
    · have hle := BitField.bw_le_exprBits hp
      have hbit := congrArg (fun x => x.getLsbD (k - f.bo)) hval
      simp only [BitVec.getLsbD_setWidth, decide_eq_true (show k - f.bo < f.exprBits by omega),
        Bool.true_and] at hbit
      rw [if_pos ⟨hin.1, hin.2, hk⟩, if_pos hin, hbit]
    · rw [if_neg fun h => hin ⟨h.1, h.2.1⟩, if_neg hin]
  exact ByteMem.bit_rebase (x := fun k => v.getLsbD k) hput (by omega) hj

/-- An assignment puts all the bits. -/
theorem bit_code (h : structDecl cfg decls = some T) (hi : i.Of T) {code : List Ins}
    (hcode : i.code arch = some code) {s : State} {a : BitVec 64}
    (hra : s.reg .ra = a + BitVec.ofNat 64 i.mem.offset) (hval : i.InReg (s.reg .r2)) {j : Nat}
    (hj : j < 2 ^ 67) :
    bit (BitField.run code s).mem a j = i.patch.on (bit s.mem a) j := by
  cases i with
  | field f v =>
      obtain ⟨hm, hpos⟩ := hi
      rw [bit_assignCode (BitField.placed h hm hpos) hcode (offset_lt h f.mem hm) hra hval hj, Patch.on,
        Item.field_patch f v hpos]
      rfl
  | plain m v =>
      obtain ⟨hm, hzero, hmem⟩ := hi
      have hoff := offset_lt h m hm
      have hbo := plain_bitOffset h m hm hzero
      obtain rfl := Option.some_inj.mp hcode
      have hbytes := accessBytes_mem hmem
      simp only [List.mem_cons, List.not_mem_nil, or_false] at hmem
      have hput : ∀ k < 2 ^ 67, bit (BitField.run [.store (accessBytes m.ty.size) .r2 .ra] s).mem
          (a + BitVec.ofNat 64 m.offset) k =
          if 0 ≤ k ∧ k < 8 * m.ty.size then v.getLsbD (k - 0)
          else bit s.mem (a + BitVec.ofNat 64 m.offset) k := fun k hk => by
        show bit (ByteMem.store s.mem (s.reg .ra) (accessBytes m.ty.size) (s.reg .r2).toNat) _ k = _
        rw [hra, hbytes, Item.mem, bit_storePlain _ _ _ hk]
        by_cases hin : 0 ≤ k ∧ k < 8 * m.ty.size
        · have hbit := congrArg (fun x => x.getLsbD (k - 0)) hval
          simp only [BitVec.getLsbD_setWidth, decide_eq_true (show k - 0 < m.ty.size * 8 by omega),
            Bool.true_and] at hbit
          rw [if_pos hin, if_pos hin, hbit]
        · rw [if_neg hin, if_neg hin]
      rw [ByteMem.bit_rebase (x := fun k => v.getLsbD k) hput (by omega) hj, Patch.on,
        Item.plain_patch m v hzero hbo]
      rfl

/-- The bytes of a static object, by bits. -/
theorem bit_globalInit (h : structDecl cfg decls = some T) (items : List Item)
    (hitems : ∀ i ∈ items, i.Of T) (hnarrow : ∀ f v, .field f v ∈ items → f.bw < 64)
    (hsize : var.initSize = T.size) {j : Nat} (hj : j < 2 ^ 67) :
    bit (globalInit items var).initData 0 j =
      patch (items.map (short Item.patch Item.unitEnd)) (bit var.initData 0) j := by
  induction items generalizing var with
  | nil => rfl
  | cons i rest ih =>
      obtain ⟨hkeep, hbits⟩ := bit_globalInitMember h (hitems i List.mem_cons_self)
        (fun f v hi => hnarrow f v (hi ▸ List.mem_cons_self)) hsize
      have htail := ih (fun e he => hitems e (List.mem_cons_of_mem _ he))
        (fun f v he => hnarrow f v (List.mem_cons_of_mem _ he)) hkeep
      exact htail.trans (Patches.patch_congr (hbits j hj) _)

/-- The memory behind the assignments, by bits. -/
theorem Assigns.bit_eq (h : structDecl cfg decls = some T) {items : List Item}
    (hitems : ∀ i ∈ items, i.Of T) {a : BitVec 64} {m m' : Mem} (hrun : Assigns arch a items m m')
    {j : Nat} (hj : j < 2 ^ 67) : bit m' a j = patch (items.map Item.patch) (bit m a) j := by
  induction hrun with
  | nil m => rfl
  | cons s hcode haddr hval _ ih =>
      have hstep := bit_code h (hitems _ List.mem_cons_self) hcode haddr hval hj
      exact (ih fun e he => hitems e (List.mem_cons_of_mem _ he)).trans (Patches.patch_congr hstep _)

/-- The assignments can be made if the fields have masks. -/
theorem assigns_iff {items : List Item} (a : BitVec 64) (m : Mem) :
    (∃ m', Assigns arch a items m m') ↔ ∀ f v, .field f v ∈ items → f.bw < 64 := by
  induction items generalizing m with
  | nil => exact iff_of_true ⟨m, .nil m⟩ fun f v hmem => absurd hmem List.not_mem_nil
  | cons i rest ih =>
      constructor
      · intro hex f v hmem
        obtain ⟨m', hrun⟩ := hex
        cases hrun with
        | cons s hcode haddr hval htail =>
            rcases List.mem_cons.mp hmem with hi | hmem
            · rw [← hi] at hcode
              exact BitField.assignCode_bw hcode
            · exact (ih _).mp ⟨m', htail⟩ f v hmem
      · intro hnarrow
        obtain ⟨code, hcode⟩ : ∃ code, i.code arch = some code := by
          cases i with
          | field f v => exact BitField.assignCode_some (hnarrow f v List.mem_cons_self) arch false
          | plain m v => exact ⟨_, rfl⟩
        let s : State := ⟨fun | .ra => a + BitVec.ofNat 64 i.mem.offset | _ => i.val, m⟩
        have hval : i.InReg (s.reg .r2) := by
          cases i with
          | field f v => exact rfl
          | plain m v => exact rfl
        obtain ⟨m', hrun⟩ := (ih (BitField.run code s).mem).mpr fun f v hmem =>
          hnarrow f v (List.mem_cons_of_mem _ hmem)
        exact ⟨m', .cons s hcode rfl hval hrun⟩

/-- Two constants for one member. -/
def Item.Same (i e : Item) : Prop := i.mem = e.mem

/-- An item whose unit ends before it does is a field of a packed type. -/
theorem Item.long_field (h : structDecl cfg decls = some T) (hi : i.Of T)
    (hlong : i.unitEnd < i.mem.endBit) : 0 < i.mem.bitWidth ∧ i.mem ∈ T.members ∧ Packs cfg := by
  cases i with
  | field f v =>
      obtain ⟨hm, hpos⟩ := hi
      refine ⟨hpos, hm, packs_of_long h hm hpos ?_⟩
      rw [Item.unitEnd, Item.mem, StructDecl.Member.endBit, StructDecl.Member.startBit, StructDecl.Member.bits, if_pos hpos] at hlong
      omega
  | plain m v =>
      obtain ⟨hm, hzero, _⟩ := hi
      have hbo := plain_bitOffset h m hm hzero
      rw [Item.unitEnd, Item.mem, StructDecl.Member.endBit, StructDecl.Member.startBit, StructDecl.Member.bits, if_neg (by omega), hbo] at hlong
      omega

theorem Item.Of.mem {T : StructType} {i : Item} (hi : i.Of T) : i.mem ∈ T.members := by
  cases i with
  | field f v => exact hi.1
  | plain m v => exact hi.1

theorem items_private (h : structDecl cfg decls = some T) {items : List Item}
    (hitems : ∀ i ∈ items, i.Of T) : Patches.Private Item.patch Item.unitEnd Item.Same items where
  apart := by
    intro i hi hlong e he hne j hboth
    obtain ⟨_, hm, hp⟩ := Item.long_field h (hitems i hi) hlong
    have hsym : Std.Symm fun a b : StructDecl.Member => a.endBit ≤ b.startBit ∨ b.endBit ≤ a.startBit :=
      ⟨fun a b hab => hab.symm⟩
    have happart : T.members.Pairwise fun a b => a.endBit ≤ b.startBit ∨ b.endBit ≤ a.startBit :=
      (hp.apart h).imp Or.inl
    have hor := happart.forall hm (hitems e he).mem hne
    obtain ⟨⟨hilo, hihi⟩, helo, hehi⟩ := hboth
    simp only [Item.patch] at hilo hihi helo hehi
    omega
  again := by
    intro i e hsame
    have hmem : i.mem = e.mem := hsame
    simp only [Item.patch, Item.unitEnd, hmem, and_self]

/-! ## Agreement -/

theorem Zeroed.bit_eq {m : Mem} {a : BitVec 64} {size : Nat} (h : Zeroed m a size) {j : Nat}
    (hj : j < min (size * 8) (2 ^ 67)) : bit m a j = false := by
  rw [ByteMem.sameBytes_iff.mp h j hj]
  exact BitVec.getLsbD_zero

theorem toNat_setWidth_lt_iff {f : Field} {v : BitVec 64} {n : Nat} :
    (v.setWidth f.bw).toNat < 2 ^ n ↔ ∀ k < f.bw, n ≤ k → v.getLsbD k = false := by
  have hbit : ∀ k, (v.setWidth f.bw).toNat.testBit k = (decide (k < f.bw) && v.getLsbD k) := fun k => by
    rw [BitVec.testBit_toNat, BitVec.getLsbD_setWidth]
  constructor
  · intro hlt k hk hn
    have hfalse := Nat.testBit_lt_two_pow (Nat.lt_of_lt_of_le hlt (Nat.pow_le_pow_right (by decide) hn))
    rwa [hbit, decide_eq_true hk, Bool.true_and] at hfalse
  · intro hall
    refine Nat.lt_pow_two_of_testBit _ fun k hn => ?_
    rw [hbit]
    by_cases hk : k < f.bw
    · rw [hall k hk hn, Bool.and_false]
    · rw [decide_eq_false hk, Bool.false_and]

/-- The bits behind the unit, of what is given to each field last. -/
theorem inUnit_iff (h : structDecl cfg decls = some T) {items : List Item} (hitems : ∀ i ∈ items, i.Of T) :
    (∀ before i after, items = before ++ i :: after → (∀ e ∈ after, ¬ Item.Same i e) →
      ∀ j, i.patch.Covers j → i.unitEnd ≤ j → i.patch.bits (j - i.patch.lo) = false) ↔
    ∀ before f v after, items = before ++ .field f v :: after → (∀ e ∈ after, e.mem ≠ f.mem) →
      (v.setWidth f.bw).toNat < 2 ^ (f.mem.ty.size * 8 - f.bo) := by
  constructor
  · intro hall before f v after hl hlast
    have hi : Item.field f v ∈ items := hl ▸ List.mem_append_right _ List.mem_cons_self
    have hbits := hall before (.field f v) after hl fun e he hsame => hlast e he hsame.symm
    rw [Item.field_patch f v (hitems _ hi).2, Item.unitEnd, Item.mem] at hbits
    refine toNat_setWidth_lt_iff.mpr fun k hk hn => ?_
    have hbit := hbits (8 * f.mem.offset + f.bo + k) ⟨by simp only; omega, by simp only; omega⟩ (by omega)
    rwa [Nat.add_sub_cancel_left] at hbit
  · intro hall before i after hl hlast j hj hunit
    have hi : i ∈ items := hl ▸ List.mem_append_right _ List.mem_cons_self
    cases i with
    | field f v =>
        have hlt := hall before f v after hl fun e he hsame => hlast e he hsame.symm
        rw [Item.field_patch f v (hitems _ hi).2] at hj ⊢
        rw [Item.unitEnd, Item.mem] at hunit
        obtain ⟨hlo, hhi⟩ := hj
        simp only at hlo hhi ⊢
        exact toNat_setWidth_lt_iff.mp hlt _ (by omega) (by omega)
    | plain m v =>
        have hlong := Item.long_field h (hitems _ hi) (Nat.lt_of_le_of_lt hunit hj.2)
        exact absurd (hitems _ hi).2.1 (Nat.ne_of_gt hlong.1)

/-- The two images, by the values that end behind their units. -/
theorem images_iff (h : structDecl cfg decls = some T) {items : List Item} (hitems : ∀ i ∈ items, i.Of T)
    (hnarrow : ∀ f v, .field f v ∈ items → f.bw < 64) {d m m' : Mem} {a : BitVec 64}
    (hd : Zeroed d 0 T.size) (hm : Zeroed m a T.size) (hrun : Assigns arch a items m m') :
    SameBytes (globalInit items ⟨d, T.size⟩).initData 0 m' a T.size ↔
      ∀ before f v after, items = before ++ .field f v :: after → (∀ e ∈ after, e.mem ≠ f.mem) →
        (v.setWidth f.bw).toNat < 2 ^ (f.mem.ty.size * 8 - f.bo) := by
  have hwithin : ∀ i ∈ items, i.unitEnd < i.patch.hi → i.patch.hi ≤ min (T.size * 8) (2 ^ 67) :=
    fun i hi hlong => by
      obtain ⟨hpos, hm, hp⟩ := Item.long_field h (hitems i hi) hlong
      have hinside := hp.inside h i.mem hm
      have hoff := offset_lt h i.mem hm
      have hend : i.patch.hi ≤ 2 ^ 67 := by
        cases i with
        | field f v =>
            have hend := (BitField.placed h hm hpos).end_le
            rw [Item.field_patch f v hpos]
            simp only [Item.mem] at hoff ⊢
            omega
        | plain m v => exact absurd (hitems _ hi).2.1 (Nat.ne_of_gt hpos)
      exact Nat.le_min.mpr ⟨hinside, hend⟩
  rw [ByteMem.sameBytes_iff, ← inUnit_iff h hitems, ← Patches.patch_eq_iff (items_private h hitems) hwithin
    (fun j hj => hd.bit_eq hj) (fun j hj => hm.bit_eq hj)]
  refine forall_congr' fun j => forall_congr' fun hj => ?_
  have hj : j < 2 ^ 67 := Nat.lt_of_lt_of_le hj (Nat.min_le_right _ _)
  rw [bit_globalInit h items hitems hnarrow rfl hj, hrun.bit_eq h hitems hj]

theorem Agrees.good (h : structDecl cfg decls = some T) {items : List Item} (hitems : ∀ i ∈ items, i.Of T)
    (hagrees : Agrees arch T items) : Good items := by
  have hzero : Zeroed (fun _ => 0) 0 T.size := fun _ _ => rfl
  obtain ⟨⟨m', hrun⟩, hsame⟩ := hagrees _ _ 0 hzero hzero
  have hnarrow := (assigns_iff _ _).mp ⟨m', hrun⟩
  have himages := images_iff h hitems hnarrow hzero hzero hrun
  exact ⟨hnarrow, himages.mp (hsame m' hrun)⟩

end Steps

open StructDecl (Config plainStruct)

def packedStruct : Config := { plainStruct with isPacked := true }

/-- `a` and `b` in `struct { unsigned a : 3; unsigned b : 30; }` with the attribute
`packed` -/
def packedA : Field where
  mem := ⟨true, StructDecl.tyInt, 0, 3, 0, 0⟩
  isUnsigned := true
  isEnum := false
  size_mem := by decide
  bool_unsigned := by decide
  enum_size := by decide

def packedB : Field where
  mem := ⟨true, StructDecl.tyInt, 0, 30, 3, 8⟩
  isUnsigned := true
  isEnum := false
  size_mem := by decide
  bool_unsigned := by decide
  enum_size := by decide

/-- The type of both fields. -/
def packedAB : StructType := ⟨[packedA.mem, packedB.mem], 5, 1⟩

theorem packedAB_eq : structDecl packedStruct [⟨true, StructDecl.tyInt, 3⟩, ⟨true, StructDecl.tyInt, 30⟩] = some packedAB := rfl

theorem packedAB_items (v w : BitVec 64) :
    ∀ i ∈ [Item.field packedA v, .field packedB w], i.Of packedAB := by
  intro i hi
  rcases List.mem_cons.mp hi with rfl | hi
  · exact ⟨List.mem_cons_self, by decide⟩
  · rw [List.mem_singleton.mp hi]
    exact ⟨List.mem_cons_of_mem _ List.mem_cons_self, by decide⟩

end Rcc.StaticField

import Rcc.Arm64

/-!
# Constants and frame accesses that are printed

A constant is printed in pieces of 16 bits, the first by `mov`, the others by `movk` as long as anything but zeros is left. While the loop
runs, the register holds the bits below the next piece, so that whatever pieces are zero, it holds the constant when the loop is
left: nothing was left of it, or the register has no room for another piece (`run_movkLoop`). The variants differ in how a 32-bit
constant is widened and in what stops the loop, and this is all that has to be said about each.
-/

namespace Rcc.Arm64

open Lexer (Text)
open Peephole (decimal)
open Pieces (piece below)

/-! ## The code -/

/-- `FRAME_PTR` -/
def framePtr : Text := "x29".toList

/-- `printf("  mov %s, #%llu\n", reg, val & 0xffffULL)` -/
def movLine (reg : Text) (val : Nat) : Text :=
  "  mov ".toList ++ reg ++ ", #".toList ++ decimal (val &&& 0xffff : Nat)

/-- `printf("  movk %s, #%llu, lsl #%d\n", reg, val & 0xffffULL, shift)` -/
def movkLine (reg : Text) (val shift : Nat) : Text :=
  "  movk ".toList ++ reg ++ ", #".toList ++ decimal (val &&& 0xffff : Nat) ++ ", lsl #".toList ++ decimal shift

/-- The loop over what is left of the value. -/
def movkLoop (reg : Text) (more : Nat → Bool) (val shift : Nat) : List Text :=
  if h : val ≠ 0 ∧ more shift = true then
    movkLine reg val shift :: movkLoop reg more (val >>> 16) (shift + 16)
  else []
termination_by val
decreasing_by
  rw [Nat.shiftRight_eq_div_pow]
  exact Nat.div_lt_self (Nat.pos_of_ne_zero h.1) (by decide)

/-- `emit_mov_imm64` -/
def emitMovImm64 (reg : Text) (val : BitVec 64) : List Text :=
  movLine reg val.toNat :: movkLoop reg (fun _ => true) (val.toNat >>> 16) 16

/-- `emit_mov_imm` -/
def emitMovImm (reg : Text) (imm : BitVec 32) : List Text :=
  let isW := reg.head? == some 'w'
  let val : BitVec 64 := if isW then imm.setWidth 64 else imm.signExtend 64
  let maxShift := if isW then 16 else 48
  movLine reg val.toNat :: movkLoop reg (fun shift => shift ≤ maxShift) (val.toNat >>> 16) 16

def Access.mnemonic : Access → Text
  | .ldr => "ldr".toList
  | .str => "str".toList

/-- An access to `[fp, #-offset]`, in three forms. -/
def fpMinus (op : Access) (reg : Text) (offset : BitVec 32) : List Text :=
  if offset.toInt ≤ 255 then
    ["  ".toList ++ op.mnemonic ++ " ".toList ++ reg ++ ", [".toList ++ framePtr ++ ", #-".toList ++ decimal offset.toInt ++
      "]".toList]
  else if offset.toInt ≤ 4095 then
    ["  sub x17, ".toList ++ framePtr ++ ", #".toList ++ decimal offset.toInt,
      "  ".toList ++ op.mnemonic ++ " ".toList ++ reg ++ ", [x17]".toList]
  else
    -- positive here, so the shifts of an `int` are those of a number
    let v := offset.toInt.toNat
    movLine "x17".toList v :: movkLoop "x17".toList (fun _ => true) (v >>> 16) 16 ++
      ["  sub x17, ".toList ++ framePtr ++ ", x17".toList,
        "  ".toList ++ op.mnemonic ++ " ".toList ++ reg ++ ", [x17]".toList]

/-- `arm64_load_from_fp_minus` -/
def arm64LoadFromFpMinus (offset : BitVec 32) (dst : Text) : List Text := fpMinus .ldr dst offset

/-- `arm64_store_to_fp_minus` -/
def arm64StoreToFpMinus (src : Text) (offset : BitVec 32) : List Text := fpMinus .str src offset

/-! ## Reading the lines -/

section

variable {m a b c d : Text}

theorem words_two (hm : Solid m) (ha : Solid a) (hb : Solid b) :
    words (' ' :: ' ' :: (m ++ ' ' :: (a ++ ',' :: ' ' :: b))) = [m, a, b] := by
  rw [words_gap (by decide), words_gap (by decide), words_cons hm (by decide), words_cons ha (by decide),
    words_gap (by decide), words_last hb]

theorem words_three (hm : Solid m) (ha : Solid a) (hb : Solid b) (hc : Solid c) :
    words (' ' :: ' ' :: (m ++ ' ' :: (a ++ ',' :: ' ' :: (b ++ ',' :: ' ' :: c)))) = [m, a, b, c] := by
  rw [words_gap (by decide), words_gap (by decide), words_cons hm (by decide), words_cons ha (by decide),
    words_gap (by decide), words_cons hb (by decide), words_gap (by decide), words_last hc]

/-- With a blank before the last operand. -/
theorem words_shifted (hm : Solid m) (ha : Solid a) (hb : Solid b) (hc : Solid c) (hd : Solid d) :
    words (' ' :: ' ' :: (m ++ ' ' :: (a ++ ',' :: ' ' :: (b ++ ',' :: ' ' :: (c ++ ' ' :: d))))) = [m, a, b, c, d] := by
  rw [words_gap (by decide), words_gap (by decide), words_cons hm (by decide), words_cons ha (by decide),
    words_gap (by decide), words_cons hb (by decide), words_gap (by decide), words_cons hc (by decide), words_last hd]

end

theorem solid_immediate (n : Nat) : Solid ('#' :: decimal (n : Int)) := (solid_decimal n).cons (by decide)

theorem solid_mnemonic (op : Access) : Solid op.mnemonic := by
  cases op with
  | ldr => exact ⟨by decide, by decide⟩
  | str => exact ⟨by decide, by decide⟩

theorem ofWords_access (op : Access) (r : Reg) {operands : List Text} {base : Fin 31} {back : Nat}
    (h : address operands = some (base, back)) :
    Instr.ofWords (op.mnemonic :: r.name :: operands) = some (.access op r base back) := by
  cases op <;> simp [Instr.ofWords, Access.mnemonic, Access.ofName, h]

theorem read_movLine (r : Reg) (val : Nat) : Instr.read (movLine r.name val) = some (.mov r (val &&& 0xffff)) := by
  have hmov : Solid "mov".toList := ⟨by decide, by decide⟩
  have hline : movLine r.name val =
      ' ' :: ' ' :: ("mov".toList ++ ' ' :: (r.name ++ ',' :: ' ' :: ('#' :: decimal (val &&& 0xffff : Nat)))) := by
    unfold movLine
    rw [List.append_assoc, List.append_assoc]
    rfl
  rw [Instr.read, hline, words_two hmov (solid_name r) (solid_immediate _)]
  simp [Instr.ofWords, immediate]

theorem read_movkLine (r : Reg) (val shift : Nat) :
    Instr.read (movkLine r.name val shift) = some (.movk r (val &&& 0xffff) shift) := by
  have hmovk : Solid "movk".toList := ⟨by decide, by decide⟩
  have hlsl : Solid "lsl".toList := ⟨by decide, by decide⟩
  have hline : movkLine r.name val shift =
      ' ' :: ' ' :: ("movk".toList ++ ' ' :: (r.name ++ ',' :: ' ' :: (('#' :: decimal (val &&& 0xffff : Nat)) ++ ',' :: ' ' ::
        ("lsl".toList ++ ' ' :: ('#' :: decimal shift))))) := by
    unfold movkLine
    rw [List.append_assoc, List.append_assoc, List.append_assoc, List.append_assoc]
    rfl
  rw [Instr.read, hline, words_shifted hmovk (solid_name r) (solid_immediate _) hlsl (solid_immediate _)]
  simp [Instr.ofWords, immediate]

/-- `…, [x17]` -/
theorem read_pointer (op : Access) (r : Reg) :
    Instr.read ("  ".toList ++ op.mnemonic ++ " ".toList ++ r.name ++ ", [x17]".toList) = some (.access op r 17 0) := by
  have hbase : Solid "[x17]".toList := ⟨by decide, by decide⟩
  have hline : "  ".toList ++ op.mnemonic ++ " ".toList ++ r.name ++ ", [x17]".toList =
      ' ' :: ' ' :: (op.mnemonic ++ ' ' :: (r.name ++ ',' :: ' ' :: "[x17]".toList)) := by
    rw [List.append_assoc, List.append_assoc, List.append_assoc]
    rfl
  have haddress : address ["[x17]".toList] = some (17, 0) := by decide
  rw [Instr.read, hline, words_two (solid_mnemonic op) (solid_name r) hbase, ofWords_access op r haddress]

/-- `…, [x29, #-back]` -/
theorem read_back (op : Access) (r : Reg) (back : Nat) :
    Instr.read ("  ".toList ++ op.mnemonic ++ " ".toList ++ r.name ++ ", [".toList ++ framePtr ++ ", #-".toList ++
      decimal back ++ "]".toList) = some (.access op r 29 back) := by
  have hbase : Solid "[x29".toList := ⟨by decide, by decide⟩
  have hback : Solid ('#' :: '-' :: (decimal back ++ [']'])) :=
    (((solid_decimal back).snoc (by decide)).cons (by decide)).cons (by decide)
  have hline : "  ".toList ++ op.mnemonic ++ " ".toList ++ r.name ++ ", [".toList ++ framePtr ++ ", #-".toList ++
      decimal back ++ "]".toList =
      ' ' :: ' ' :: (op.mnemonic ++ ' ' :: (r.name ++ ',' :: ' ' :: ("[x29".toList ++ ',' :: ' ' ::
        ('#' :: '-' :: (decimal back ++ [']']))))) := by
    simp only [List.append_assoc]
    rfl
  have hx29 : xReg ['x', '2', '9'] = some 29 := by decide
  have haddress : address ["[x29".toList, '#' :: '-' :: (decimal back ++ [']'])] = some (29, back) := by
    simp [address, hx29]
  rw [Instr.read, hline, words_three (solid_mnemonic op) (solid_name r) hbase hback, ofWords_access op r haddress]

theorem read_subImm (imm : Nat) :
    Instr.read ("  sub x17, ".toList ++ framePtr ++ ", #".toList ++ decimal imm) = some (.subImm 17 29 imm) := by
  have hsub : Solid "sub".toList := ⟨by decide, by decide⟩
  have hx17 : Solid "x17".toList := ⟨by decide, by decide⟩
  have hx29 : Solid "x29".toList := ⟨by decide, by decide⟩
  have hline : "  sub x17, ".toList ++ framePtr ++ ", #".toList ++ decimal imm =
      ' ' :: ' ' :: ("sub".toList ++ ' ' :: ("x17".toList ++ ',' :: ' ' :: ("x29".toList ++ ',' :: ' ' :: ('#' :: decimal imm)))) := by
    simp only [List.append_assoc]
    rfl
  have h17 : xReg ['x', '1', '7'] = some 17 := by decide
  have h29 : xReg ['x', '2', '9'] = some 29 := by decide
  rw [Instr.read, hline, words_three hsub hx17 hx29 (solid_immediate _)]
  simp [Instr.ofWords, h17, h29]

theorem read_sub : Instr.read ("  sub x17, ".toList ++ framePtr ++ ", x17".toList) = some (.sub 17 29 17) := by decide

/-! ## Running them -/

theorem run_cons {line : Text} {i : Instr} {s t : State} (hread : Instr.read line = some i) (hexec : i.exec s = some t)
    (lines : List Text) : run (line :: lines) s = run lines t := by
  simp [run, hread, hexec]

theorem and_ffff_lt (n : Nat) : n &&& 0xffff < 2 ^ 16 := Nat.and_lt_two_pow n (by decide)

theorem ofNat_and_ffff (n : Nat) : BitVec.ofNat 16 (n &&& 0xffff) = BitVec.ofNat 16 n := by
  refine BitVec.eq_of_toNat_eq ?_
  rw [BitVec.toNat_ofNat, BitVec.toNat_ofNat, Nat.and_two_pow_sub_one_eq_mod n 16, Nat.mod_mod]

variable {r : Reg} {more : Nat → Bool}

/-- `mov` leaves the lowest piece. -/
theorem exec_mov (hgeneral : r.isGeneral = true) (v : BitVec r.width) (s : State) :
    (Instr.mov r (v.toNat &&& 0xffff)).exec s = some (s.set r (below 16 v)) := by
  have hvalue : BitVec.ofNat r.width (v.toNat &&& 0xffff) = below 16 v := by
    rw [Pieces.below_piece, Pieces.piece_eq_ofNat, Nat.shiftRight_zero, ← ofNat_and_ffff]
    refine BitVec.eq_of_toNat_eq ?_
    rw [BitVec.toNat_ofNat, BitVec.toNat_setWidth, BitVec.toNat_ofNat, Nat.mod_eq_of_lt (and_ffff_lt v.toNat)]
  rw [Instr.exec, if_pos ⟨hgeneral, and_ffff_lt v.toNat⟩, hvalue]

/-- `movk` adds the next one. -/
theorem exec_movk (hgeneral : r.isGeneral = true) (v : BitVec r.width) {shift : Nat} (hdvd : 16 ∣ shift) (hlt : shift < r.width)
    (s : State) : (Instr.movk r (v.toNat >>> shift &&& 0xffff) shift).exec (s.set r (below shift v)) =
      some (s.set r (below (shift + 16) v)) := by
  rw [Instr.exec, if_pos ⟨hgeneral, and_ffff_lt _, hdvd, hlt⟩, State.get_set, State.set_set, ofNat_and_ffff,
    ← Pieces.piece_eq_ofNat, Pieces.insert_below]

/-- Where the loop begins with the bits below the next piece in the register, it ends with all of them. -/
theorem run_movkLoop (hgeneral : r.isGeneral = true) (hmore : ∀ shift, 16 ∣ shift → shift < r.width → more shift = true)
    (v : BitVec r.width) {rest shift : Nat} (hrest : rest = v.toNat >>> shift) (hdvd : 16 ∣ shift) (s : State) (lines : List Text) :
    run (movkLoop r.name more rest shift ++ lines) (s.set r (below shift v)) = run lines (s.set r v) := by
  induction rest using Nat.strong_induction_on generalizing shift with
  | _ rest ih =>
      rw [movkLoop]
      split
      · next hgo =>
          have hlt : shift < r.width := by
            by_contra hge
            refine hgo.1 (hrest.trans (Nat.shiftRight_eq_zero _ _ (v.isLt.trans_le ?_)))
            exact Nat.pow_le_pow_right (by decide) (not_lt.mp hge)
          have hnext : rest >>> 16 = v.toNat >>> (shift + 16) := by rw [hrest, Nat.shiftRight_add]
          have hless : rest >>> 16 < rest := by
            rw [Nat.shiftRight_eq_div_pow]
            exact Nat.div_lt_self (Nat.pos_of_ne_zero hgo.1) (by decide)
          have hexec := exec_movk hgeneral v hdvd hlt s
          rw [← hrest] at hexec
          rw [List.cons_append, run_cons (read_movkLine r rest shift) hexec]
          exact ih (rest >>> 16) hless hnext (Nat.dvd_add hdvd (dvd_refl 16))
      · next hstop =>
          have hall : below shift v = v := by
            by_cases hzero : rest = 0
            · exact Pieces.below_of_rest (hrest.symm.trans hzero)
            · refine Pieces.below_of_width (not_lt.mp fun hlt => hstop ⟨hzero, hmore shift hdvd hlt⟩) v
          rw [List.nil_append, hall]

/-- A constant. -/
theorem run_constant (r : Reg) (more : Nat → Bool) (hgeneral : r.isGeneral = true) (hmore : ∀ shift, 16 ∣ shift → shift < r.width → more shift = true)
    (v : BitVec r.width) (s : State) (lines : List Text) :
    run (movLine r.name v.toNat :: movkLoop r.name more (v.toNat >>> 16) 16 ++ lines) s = run lines (s.set r v) := by
  rw [List.cons_append, run_cons (read_movLine r v.toNat) (exec_mov hgeneral v s)]
  exact run_movkLoop hgeneral hmore v rfl (dvd_refl 16) s lines

theorem emitMovImm64_x (n : Fin 31) (val : BitVec 64) (s : State) :
    run (emitMovImm64 (Reg.x n).name val) s = some (s.setX n val) := by
  have hrun := run_constant (.x n) (fun _ => true) rfl (fun _ _ _ => rfl) val s []
  rw [List.append_nil] at hrun
  exact hrun

theorem emitMovImm_x (n : Fin 31) (imm : BitVec 32) (s : State) :
    run (emitMovImm (Reg.x n).name imm) s = some (s.setX n (imm.signExtend 64)) := by
  have hmore : ∀ shift, 16 ∣ shift → shift < 64 → decide (shift ≤ 48) = true := by
    intro shift hdvd hlt
    exact decide_eq_true (by omega)
  have hrun := run_constant (.x n) (fun shift => shift ≤ 48) rfl hmore (imm.signExtend 64) s []
  rw [List.append_nil] at hrun
  exact hrun

theorem emitMovImm_w (n : Fin 31) (imm : BitVec 32) (s : State) :
    run (emitMovImm (Reg.w n).name imm) s = some (s.setX n (imm.setWidth 64)) := by
  have hmore : ∀ shift, 16 ∣ shift → shift < 32 → decide (shift ≤ 16) = true := by
    intro shift hdvd hlt
    exact decide_eq_true (by omega)
  have hrun := run_constant (.w n) (fun shift => shift ≤ 16) rfl hmore imm s []
  rw [List.append_nil] at hrun
  have hvalue : (imm.setWidth 64).toNat = imm.toNat := BitVec.toNat_setWidth_of_le (by decide)
  show run (movLine (Reg.w n).name (imm.setWidth 64).toNat :: _) s = _
  rw [hvalue]
  exact hrun

/-! ## Accesses to the frame -/

/-- A larger offset leaves the address in `x17`. -/
def State.addressed (s : State) (offset : BitVec 32) : State :=
  if offset.toInt ≤ 255 then s else s.setX 17 (s.x 29 - offset.signExtend 64)

theorem toInt_of_pos {offset : BitVec 32} (hpos : 0 < offset.toInt) : offset.toInt = offset.toNat := by
  rw [BitVec.toInt_eq_toNat_cond] at hpos ⊢
  split at hpos
  · next hlt => exact if_pos hlt
  · omega

theorem signExtend_of_pos {offset : BitVec 32} (hpos : 0 < offset.toInt) :
    offset.signExtend 64 = BitVec.ofNat 64 offset.toNat := by
  have hmsb : offset.msb = false := by
    rw [BitVec.msb_eq_false_iff_two_mul_lt]
    have hint := toInt_of_pos hpos
    have hlt := BitVec.two_mul_toInt_lt (x := offset)
    omega
  rw [BitVec.signExtend_eq_setWidth_of_msb_false hmsb, BitVec.ofNat_toNat]

/-- The access itself, with the address in `x17`. -/
theorem run_pointer (op : Access) (r : Reg) (s : State) (a : BitVec 64) :
    run ["  ".toList ++ op.mnemonic ++ " ".toList ++ r.name ++ ", [x17]".toList] (s.setX 17 a) =
      some (op.exec (s.setX 17 a) r a) := by
  have hexec : (Instr.access op r 17 0).exec (s.setX 17 a) = some (op.exec (s.setX 17 a) r a) := by
    have haddress : (s.setX 17 a).x 17 - BitVec.ofNat 64 0 = a := by simp
    rw [Instr.exec, if_pos (by decide), haddress]
  rw [run_cons (read_pointer op r) hexec, run]

theorem run_fpMinus (op : Access) (r : Reg) {offset : BitVec 32} (hpos : 0 < offset.toInt) (s : State) :
    run (fpMinus op r.name offset) s =
      some (op.exec (s.addressed offset) r (s.x 29 - offset.signExtend 64)) := by
  have hint := toInt_of_pos hpos
  have hext := signExtend_of_pos hpos
  unfold fpMinus State.addressed
  split
  · next hsmall =>
      have hexec : (Instr.access op r 29 offset.toNat).exec s = some (op.exec s r (s.x 29 - offset.signExtend 64)) := by
        rw [Instr.exec, if_pos (by omega), hext]
      rw [hint, run_cons (read_back op r offset.toNat) hexec, run]
  · split
    · next hmiddle =>
        have hexec : (Instr.subImm 17 29 offset.toNat).exec s = some (s.setX 17 (s.x 29 - offset.signExtend 64)) := by
          rw [Instr.exec, if_pos (by omega), hext]
        rw [hint, run_cons (read_subImm offset.toNat) hexec]
        exact run_pointer op r s _
    · have hvalue : offset.toInt.toNat = (offset.signExtend 64).toNat := by
        have hlt := offset.isLt
        rw [hext, BitVec.toNat_ofNat, Nat.mod_eq_of_lt (by omega), hint, Int.toNat_natCast]
      have hconstant := run_constant (.x 17) (fun _ => true) rfl (fun _ _ _ => rfl) (offset.signExtend 64) s
      have hexec : (Instr.sub 17 29 17).exec (s.setX 17 (offset.signExtend 64)) =
          some (s.setX 17 (s.x 29 - offset.signExtend 64)) := by
        simp [Instr.exec]
      simp only [hvalue]
      refine (hconstant _).trans ?_
      show run _ (s.setX 17 (offset.signExtend 64)) = _
      rw [run_cons read_sub hexec]
      exact run_pointer op r s _

/-- What is stored is what the register held, unless it is the one with the address. -/
theorem addressed_get (s : State) (offset : BitVec 32) {r : Reg} (hx : r ≠ .x 17) (hw : r ≠ .w 17) :
    (s.addressed offset).get r = s.get r := by
  unfold State.addressed
  split
  · rfl
  · cases r with
    | x n =>
        have hne : n ≠ 17 := fun h => hx (congrArg Reg.x h)
        exact Function.update_of_ne hne _ s.x
    | w n =>
        have hne : n ≠ 17 := fun h => hw (congrArg Reg.w h)
        exact congrArg (BitVec.setWidth 32) (Function.update_of_ne hne _ s.x)
    | s n => rfl
    | d n => rfl

/-- **Constants and frame accesses.** `emit_mov_imm64` leaves any 64-bit value in the register, `emit_mov_imm` any 32-bit value, extended
with its sign in an `x` register and with zeros in a `w` register, and nothing else changes. An access to the frame is one at
`fp - offset`, for every positive offset and every register; a store stores what the register held. -/
theorem immediates :
    (∀ (n : Fin 31) (val : BitVec 64) (s : State), run (emitMovImm64 (Reg.x n).name val) s = some (s.setX n val)) ∧
    (∀ (n : Fin 31) (imm : BitVec 32) (s : State),
      run (emitMovImm (Reg.x n).name imm) s = some (s.setX n (imm.signExtend 64)) ∧
      run (emitMovImm (Reg.w n).name imm) s = some (s.setX n (imm.setWidth 64))) ∧
    ∀ (r : Reg) (offset : BitVec 32) (s : State), 0 < offset.toInt →
      run (arm64LoadFromFpMinus offset r.name) s = some ((s.addressed offset).load r (s.x 29 - offset.signExtend 64)) ∧
      run (arm64StoreToFpMinus r.name offset) s = some ((s.addressed offset).store r (s.x 29 - offset.signExtend 64)) ∧
      (r ≠ .x 17 → r ≠ .w 17 → (s.addressed offset).get r = s.get r) := by
  refine ⟨emitMovImm64_x, fun n imm s => ⟨emitMovImm_x n imm s, emitMovImm_w n imm s⟩, fun r offset s hpos => ⟨?_, ?_, ?_⟩⟩
  · exact run_fpMinus .ldr r hpos s
  · exact run_fpMinus .str r hpos s
  · exact addressed_get s offset

/-- `arm64_load_from_fp_minus(70000, "x10")` -/
theorem farLoad :
    run (arm64LoadFromFpMinus 70000 (Reg.x 10).name) ⟨fun _ => 0x10000, fun _ => 0, fun _ => 7⟩ =
      some (State.load (State.setX ⟨fun _ => 0x10000, fun _ => 0, fun _ => 7⟩ 17 (-4464)) (.x 10) (-4464)) :=
  (immediates.2.2 (.x 10) 70000 ⟨fun _ => 0x10000, fun _ => 0, fun _ => 7⟩ (by decide)).1

end Rcc.Arm64

import Rcc.BitField
import Rcc.Condition

/-!
# The peephole optimizer

`emit_peephole_body` reads the text of a function line by line and keeps the last three lines in a window. After each line it rewrites
pairs and triples of lines there, skipping those that are empty by now, until none of its patterns fits.
-/

namespace Rcc.Peephole

open Lexer (Text isspace isdigit headIs)
open BitField (Arch)

/-! ## Reading lines -/

/-- `strncmp(s, …)` with the length of the other one -/
def starts (r : String) (s : Text) : Bool := r.toList.isPrefixOf s

def expect (r : String) (p : Text) : Option Text := if starts r p then some (p.drop r.toList.length) else none

/-- A `,` with what is before and behind it. -/
def splitComma (p : Text) : Option (Text × Text) :=
  if ',' ∈ p then some (p.takeWhile (· ≠ ','), (p.dropWhile (· ≠ ',')).tail) else none

/-- `while (*p == ' ' || *p == '\t') p++;` -/
def skipBlanks (p : Text) : Text := p.dropWhile fun c => c = ' ' || c = '\t'

/-- `if (*p == 'l' || *p == 'q') p++;` -/
def skipSuffix : Text → Text
  | 'l' :: p | 'q' :: p => p
  | p => p

/-- Text that goes into a buffer of so many bytes. -/
def fitting (size : Nat) (s : Text) : Option Text := if s.length < size then some s else none

/-- `%d` -/
def scanInt (p : Text) : Option (Int × Text) :=
  let number (sign : Int) (p : Text) : Option (Int × Text) :=
    if headIs isdigit p then
      some ((Preprocess.saturate (sign * Lexer.digitsValue 10 (p.takeWhile isdigit))).bmod (2 ^ 32), p.dropWhile isdigit)
    else none
  match p.dropWhile isspace with
  | '-' :: p => number (-1) p
  | '+' :: p => number 1 p
  | p => number 1 p

/-- `strtoll(p, &endp, 0)`, if it reads anything. -/
def strtoll (p : Text) : Option (Int × Text) :=
  let number (sign : Int) (p : Text) : Option (Int × Text) :=
    if headIs isdigit p then some (Preprocess.saturate (sign * (Preprocess.digits p).1), (Preprocess.digits p).2) else none
  match p.dropWhile isspace with
  | '-' :: p => number (-1) p
  | '+' :: p => number 1 p
  | p => number 1 p

/-- `%d` and `%lld` -/
def decimal (n : Int) : Text := (toString n).toList

/-- `peep_mov_reg_reg`: the first operand and the second -/
def peepMovRegReg (line : Text) (dstSize srcSize : Nat) : Option (Text × Text) := do
  let p ← expect "  mov " line
  let (dst, p) ← splitComma p
  let dst ← fitting dstSize dst
  let src ← fitting srcSize (skipBlanks p)
  return (dst, src)

/-- `peep_label` -/
def peepLabel (line : Text) (size : Nat) : Option Text :=
  let label := line.takeWhile (· ≠ ':')
  if ':' ∈ line ∧ label ≠ [] then fitting size label else none

/-- `mov[lq]?` and what is behind the blank -/
def movOperands (line : Text) : Option Text := do
  let p ← expect "  mov" line
  expect " " (skipSuffix p)

/-- `peep_mov_rbp_reg`: `mov[lq] reg, -off(%rbp)` -/
def peepMovRbpReg (line : Text) (size : Nat) : Option (Int × Text) := do
  let p ← movOperands line
  let (reg, p) ← splitComma p
  let reg ← fitting size reg
  let p ← expect "-" (skipBlanks p)
  let (off, _) ← scanInt p
  return (off, reg)

/-- The suffix of a `movq` or a `movl`. -/
def suffix : Text → Option (Bool × Text)
  | 'l' :: p => some (false, p)
  | 'q' :: p => some (true, p)
  | _ => none

/-- `peep_mov_reg_rbp`: is it `movq -off(%rbp), dst` or `movl`? The buffer for `dst` is taken to be large enough. -/
def peepMovRegRbp (line : Text) : Option (Bool × Int × Text) := do
  let p ← expect "  mov" line
  let (quad, p) ← suffix p
  let p ← expect " " p
  let p ← expect "-" p
  let (off, p) ← scanInt p
  let p ← expect "(" p
  let p ← expect "%rbp)," (p.dropWhile isspace)
  let dst := (p.dropWhile isspace).takeWhile fun c => !isspace c
  if dst = [] then none else return (quad, off, dst)

/-- `peep_mov_rbp_imm`: `movl $val, -off(%rbp)` -/
def peepMovRbpImm (line : Text) : Option (Int × Int) := do
  let p ← expect "movl" (line.dropWhile isspace)
  let p ← expect "$" (p.dropWhile isspace)
  let (val, p) ← scanInt p
  let p ← expect "," p
  let p ← expect "-" (p.dropWhile isspace)
  let (off, _) ← scanInt p
  return (off, val)

/-- `peep_jmp` -/
def peepJmp (line : Text) (size : Nat) : Option Text := do
  let p ← expect "  jmp " line
  fitting size p

/-- `peep_mov_reg_imm`: `mov[lq]? $imm, reg` -/
def peepMovRegImm (line : Text) (size : Nat) : Option (Int × Text) := do
  let p ← movOperands line
  let p ← expect "$" p
  let (imm, p) ← strtoll p
  let p ← expect "," p
  let reg ← fitting size (skipBlanks p)
  return (imm, reg)

/-- `peep_op_reg_reg`: the mnemonic and two operands -/
def peepOpRegReg (line : Text) (opSize dstSize srcSize : Nat) : Option (Text × Text × Text) := do
  let p ← expect "  " line
  let op := p.takeWhile (· ≠ ' ')
  if ' ' ∉ p then none
  let op ← fitting opSize op
  let (dst, p) ← splitComma (p.dropWhile (· ≠ ' ')).tail
  let dst ← fitting dstSize dst
  let src ← fitting srcSize (skipBlanks p)
  return (op, dst, src)

/-- `peep_mov_reg_mem`: `mov[lq]? mem, reg` -/
def peepMovRegMem (line : Text) (regSize memSize : Nat) : Option (Text × Text) := do
  let p ← movOperands line
  let (mem, p) ← splitComma p
  let mem ← fitting memSize mem
  let reg ← fitting regSize (skipBlanks p)
  return (reg, mem)

/-- What `peep_arm_str_fp` and `peep_arm_ldr_fp` do behind the mnemonic: `reg, [x29, #-off]` -/
def armFramePointer (p : Text) (size : Nat) : Option (Text × Int) := do
  let (reg, p) ← splitComma p
  let reg ← fitting size reg
  let p ← expect "[x29," (p.dropWhile (· = ' '))
  let p ← expect "#-" (p.dropWhile isspace)
  let (off, _) ← scanInt p
  return (reg, off)

def peepArmStrFp (line : Text) (size : Nat) : Option (Text × Int) := do
  let p ← expect "  str " line
  armFramePointer p size

def peepArmLdrFp (line : Text) (size : Nat) : Option (Text × Int) := do
  let p ← expect "  ldr " line
  armFramePointer p size

/-- `peep_arm_b` -/
def peepArmB (line : Text) (size : Nat) : Option Text := do
  let p ← expect "  b ." line
  fitting size p

/-! ## Registers -/

def skipPercent : Text → Text
  | '%' :: s => s
  | s => s

def isAny (names : List String) (s : Text) : Bool := names.any fun name => s == name.toList

def startsAny (names : List String) (s : Text) : Bool := names.any (starts · s)

/-- `r8` and `r9`, with a letter for the width or without. -/
def isNumbered (name : String) (s : Text) : Bool := isAny [name, name ++ "d", name ++ "w", name ++ "b"] (s.take 3)

/-- `phys_reg_id`; `none` is -1. -/
def physRegId (arch : Arch) (s : Text) : Option Nat :=
  let s := skipPercent s
  match arch with
  | .x86 =>
      if starts "r10" s then some 10
      else if starts "r11" s then some 11
      else if starts "r12" s then some 12
      else if starts "r13" s then some 13
      else if starts "r14" s then some 14
      else if starts "r15" s then some 15
      else if startsAny ["rax", "eax"] s || isAny ["al", "ax"] s then some 0
      else if startsAny ["rcx", "ecx"] s || isAny ["cl", "cx"] s then some 1
      else if startsAny ["rdx", "edx"] s || isAny ["dl", "dx"] s then some 2
      else if startsAny ["rbx", "ebx"] s || isAny ["bl", "bx"] s then some 3
      else if startsAny ["rsp", "esp"] s then some 4
      else if startsAny ["rbp", "ebp"] s then some 5
      else if startsAny ["rsi", "esi"] s || isAny ["sil", "si"] s then some 6
      else if isNumbered "r8" s then some 8
      else if isNumbered "r9" s then some 9
      else none
  | .arm64 =>
      match s with
      | [c, d] => if (c = 'x' || c = 'w') && isdigit d then some (Lexer.digitsValue 10 [d]) else none
      | [c, d, e] =>
          if (c = 'x' || c = 'w') && isdigit d && isdigit e && decide (Lexer.digitsValue 10 [d, e] ≤ 30) then
            some (Lexer.digitsValue 10 [d, e])
          else if isAny ["xzr", "wzr"] s then some 31
          else none
      | _ => none

/-- `same_phys` -/
def samePhys (a b : Text) : Bool := (physRegId .x86 a).isSome && physRegId .x86 a == physRegId .x86 b

/-- `is_reg` -/
def isReg (arch : Arch) (s : Text) : Bool :=
  let s := skipPercent s
  match arch with
  | .x86 => startsAny ["r", "e", "si", "bl", "bx"] s
  | .arm64 =>
      match s with
      | c :: d :: _ => (c = 'x' || c = 'w') && isdigit d
      | _ => false

/-- `to32` -/
def to32 (r64 : Text) : Option Text :=
  let table := [("rax", "%eax"), ("rcx", "%ecx"), ("rdx", "%edx"), ("r8", "%r8d"), ("r9", "%r9d"), ("r10", "%r10d"),
    ("r11", "%r11d"), ("rbx", "%ebx"), ("r12", "%r12d"), ("r13", "%r13d"), ("r14", "%r14d"), ("r15", "%r15d"), ("rsi", "%esi")]
  (table.find? fun entry => skipPercent r64 == entry.1.toList).map (·.2.toList)

/-- The allocatable registers with their 64-bit and 32-bit names, `reg64` and `reg32`. -/
def regNames : Arch → List (String × String)
  | .x86 => [("%r10", "%r10d"), ("%r11", "%r11d"), ("%rbx", "%ebx"), ("%r12", "%r12d"), ("%r13", "%r13d"), ("%r14", "%r14d"),
      ("%r15", "%r15d"), ("%rsi", "%esi")]
  | .arm64 => [("x10", "w10"), ("x11", "w11"), ("x12", "w12"), ("x13", "w13"), ("x14", "w14"), ("x15", "w15"), ("x19", "w19"),
      ("x20", "w20"), ("x21", "w21"), ("x22", "w22"), ("x23", "w23"), ("x24", "w24")]

/-! ## Is a register used behind the window? -/

/-- The names that are looked for. -/
def variants (arch : Arch) (pid : Nat) : List Text :=
  let allocatable := match (regNames arch).find? fun names => physRegId arch names.1.toList = some pid with
    | some names => [names.1, names.2]
    | none => []
  let others := match arch, pid with
    | .x86, 0 => ["%rax", "%eax", "%al"]
    | .x86, 1 => ["%rcx", "%ecx", "%cl"]
    | .x86, 2 => ["%rdx", "%edx"]
    | .x86, 3 => ["%rbx", "%ebx", "%bl"]
    | _, _ => []
  (allocatable ++ others).map String.toList

/-- The lines of a text, each with what is behind it. -/
def bodyLines (text : Text) : List (Text × Text) :=
  match text with
  | [] => []
  | c :: text =>
      let line := (c :: text).takeWhile (· ≠ '\n')
      let rest := ((c :: text).dropWhile (· ≠ '\n')).tail
      (line, rest) :: bodyLines rest
termination_by text.length
decreasing_by
  have hle := (List.dropWhile_sublist (l := c :: text) (p := (· ≠ '\n'))).length_le
  simp only [List.length_tail, List.length_cons] at hle ⊢
  omega

def contains (line name : Text) : Bool := line.tails.any name.isPrefixOf

/-- `reg_live_in_text` -/
def regLiveInText (arch : Arch) (text : Text) (pid : Nat) : Bool :=
  ((bodyLines text).take 30).any fun (line, _) =>
    line ≠ [] && (!headIs (· = ' ') line || (variants arch pid).any (contains line))

/-! ## Patterns -/

/-- `mov SRC, REG; mov REG, DST` -/
def pattern1 (arch : Arch) (a b : Text) : Option (Text × Text) := do
  let (d1, s1) ← peepMovRegReg a 80 80
  let (d2, s2) ← peepMovRegReg b 80 80
  if d2 = s1 ∧ d1 ≠ d2 ∧ isReg arch d1 ∧ isReg arch s1 ∧ isReg arch s2 then
    some (a, "  mov ".toList ++ d1 ++ ", ".toList ++ s2)
  else none

/-- `mov REG, -N(%rbp); mov -N(%rbp), REG2` -/
def storeLoad (a b : Text) : Option (Text × Text) := do
  let (off1, sr) ← peepMovRbpReg a 32
  let (quad, off2, dr) ← peepMovRegRbp b
  if off1 ≠ off2 then none
  let sr ← (if quad then some sr else to32 sr)
  return (a, "  mov ".toList ++ sr ++ ", ".toList ++ dr)

/-- `movl $VAL, -N(%rbp); movl -N(%rbp), REG` -/
def storeImmLoad (a b : Text) : Option (Text × Text) := do
  let (off1, val) ← peepMovRbpImm a
  let (quad, off2, dr) ← peepMovRegRbp b
  if off1 = off2 ∧ !quad then some (a, "  movl $".toList ++ decimal val ++ ", ".toList ++ dr) else none

/-- `str REG, [x29, #-N]; ldr REG2, [x29, #-N]` -/
def armStoreLoad (a b : Text) : Option (Text × Text) := do
  let (sr, off1) ← peepArmStrFp a 32
  let (dr, off2) ← peepArmLdrFp b 32
  if off1 = off2 ∧ sr.head? = dr.head? then some (a, "  mov ".toList ++ dr ++ ", ".toList ++ sr) else none

/-- `peep_pattern2` -/
def pattern2 (arch : Arch) (a b : Text) : Option (Text × Text) :=
  match arch with
  | .x86 => (storeLoad a b).or (storeImmLoad a b)
  | .arm64 => armStoreLoad a b

/-- Where a branch goes. -/
def branchTarget (arch : Arch) (a : Text) : Option Text :=
  match arch with
  | .x86 => peepJmp a 80
  | .arm64 => peepArmB a 80

/-- `peep_pattern3` -/
def pattern3 (arch : Arch) (a b : Text) : Option (Text × Text) := do
  let target ← branchTarget arch a
  let label ← peepLabel b 80
  if target = label.dropWhile (· = ' ') then some ([], b) else none

/-- The mnemonic without its suffix. -/
def opName (op : Text) : Text :=
  if 1 < op.length ∧ op.getLast? ∈ [some 'l', some 'q', some 'w', some 'b'] then op.dropLast else op

/-- `peep_pattern4`: `mov $IMM, REG; OP REG, REG2` -/
def pattern4 (arch : Arch) (a b : Text) : Option (Text × Text) :=
  match arch with
  | .arm64 => none
  | .x86 => do
      let (imm, rd) ← peepMovRegImm a 32
      if !isReg arch rd then none
      let (check, _) ← strtoll (a.dropWhile (· ≠ '$')).tail
      if check ≠ check.bmod (2 ^ 32) then none
      let (op, od, os) ← peepOpRegReg b 16 64 32
      if !samePhys od rd then none
      if !isAny ["cmp", "add", "sub", "and", "or", "xor", "imul"] (opName op) then none
      if (isAny ["add", "sub", "or", "xor"] (opName op) ∧ imm = 0) ∨ (isAny ["imul"] (opName op) ∧ imm = 1) then
        return (a, [])
      return (a, "  ".toList ++ op ++ " $".toList ++ decimal imm ++ ", ".toList ++ os)

/-- `mov MEM, R; OP X, R; mov DST, R` -/
def loadOpMove (rest a b c : Text) : Option (Text × Text × Text) := do
  let (r1, mem1) ← peepMovRegMem a 32 128
  let (op2, r2, imm2) ← peepOpRegReg b 16 32 32
  let (d3, r3) ← peepMovRegReg c 32 32
  if ¬ (r1 = imm2 ∧ imm2 = r3 ∧ isReg .x86 d3 ∧ !isReg .x86 mem1) then none
  if (physRegId .x86 r1).any (regLiveInText .x86 rest) then none
  return ("  mov ".toList ++ mem1 ++ ", ".toList ++ d3, "  ".toList ++ op2 ++ " ".toList ++ r2 ++ ", ".toList ++ d3, [])

/-- `ldr R, [mem]; OP R, R, #IMM; mov DST, R` -/
def armLoadOpMove (rest a b c : Text) : Option (Text × Text × Text) := do
  let p ← expect "ldr" (a.dropWhile isspace)
  let p := p.dropWhile isspace
  let r1 := (p.take 31).takeWhile (· ≠ ',')
  if r1 = [] then none
  let p ← expect "," (p.drop r1.length)
  let mem1 := (p.dropWhile isspace).take 127
  if mem1 = [] then none
  let (op2, r2, imm2) ← peepOpRegReg b 16 32 32
  let (d3, r3) ← peepMovRegReg c 32 32
  if ¬ (r1 = r2 ∧ r2 = r3 ∧ isReg .arm64 d3 ∧ !isReg .arm64 mem1) then none
  let p := skipBlanks imm2
  if !r2.isPrefixOf p || !(p.drop r2.length).head?.all (fun c => c = ',' || c = ' ') then none
  let _ ← splitComma (p.drop r2.length)
  if (physRegId .arm64 r1).any (regLiveInText .arm64 rest) then none
  let (_, val) ← splitComma imm2
  return ("  ldr ".toList ++ d3 ++ ", ".toList ++ mem1,
    "  ".toList ++ op2 ++ " ".toList ++ d3 ++ ", ".toList ++ d3 ++ ", ".toList ++ val.dropWhile (· = ' '), [])

/-- `peep_pattern5` -/
def pattern5 (arch : Arch) (rest a b c : Text) : Option (Text × Text × Text) :=
  match arch with
  | .x86 => loadOpMove rest a b c
  | .arm64 => armLoadOpMove rest a b c

/-! ## The window -/

/-- The next line that is not empty, with what is before it and behind it. -/
def nextLine : List Text → Option (List Text × Text × List Text)
  | [] => none
  | [] :: w => (nextLine w).map fun (blank, line, w) => ([] :: blank, line, w)
  | line :: w => some ([], line, w)

/-- The patterns for a pair of lines. -/
def rewritePair (arch : Arch) (a b : Text) : Option (Text × Text) :=
  (pattern1 arch a b).or ((pattern2 arch a b).or ((pattern3 arch a b).or (pattern4 arch a b)))

/-- What is made of a line and those behind it. -/
def rewriteAt (arch : Arch) (rest a : Text) (w : List Text) : Option (List Text) :=
  match nextLine w with
  | none => none
  | some (blank, b, w) =>
      match rewritePair arch a b with
      | some (a, b) => some (a :: blank ++ b :: w)
      | none =>
          match nextLine w with
          | none => none
          | some (blank', c, w) =>
              (pattern5 arch rest a b c).map fun (a, b, c) => a :: blank ++ b :: blank' ++ c :: w

/-- The `for` loop: the first rewrite that is possible. -/
def rewrite (arch : Arch) (rest : Text) : List Text → Option (List Text)
  | [] => none
  | a :: w =>
      match if a = [] then none else rewriteAt arch rest a w with
      | some w => some w
      | none => (rewrite arch rest w).map (a :: ·)

/-- The `do … while` loop, if it ends after less than so many turns. -/
def settle (arch : Arch) (rest : Text) : Nat → List Text → Option (List Text)
  | 0, _ => none
  | n + 1, w =>
      match rewrite arch rest w with
      | some w => settle arch rest n w
      | none => some w

/-- `if (w[i] && w[i][0]) fprintf(stdout, "%s\n", w[i]);` -/
def printed (w : List Text) : List Text := w.filter (· ≠ [])

/-- The loop over the lines. The oldest one is printed when the window is full. -/
def emitLines (arch : Arch) (n : Nat) : List Text → List (Text × Text) → Option (List Text)
  | w, [] => some (printed w)
  | w, (line, rest) :: lines => do
      let full := w.length = 3
      let w' ← settle arch rest n ((if full then w.tail else w) ++ [line])
      let out ← emitLines arch n w' lines
      return (if full then printed (w.take 1) else []) ++ out

/-- `emit_peephole_body`: the lines it prints. -/
def emitPeepholeBody (arch : Arch) (n : Nat) (bodyText : Text) : Option (List Text) :=
  emitLines arch n [] (bodyLines bodyText)

end Rcc.Peephole

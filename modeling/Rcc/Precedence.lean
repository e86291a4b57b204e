import Rcc.Parser

/-!
# Operator precedence

Expressions over variables and integer constants, written down with the parentheses that
the grammar asks for, and what `expr` makes of them.

The levels of the grammar are numbered from the outside, `,` first. A parser of a level
that groups from the left is a loop, so what is proved of it by induction on the left
operand is not what it gives but how it goes on: it comes to the same state of the loop
as if the tree had been the first operand. Every level between the one that is asked
for and the one of the tree only looks at the token behind.
-/

namespace Rcc.Parser

open Lexer

/-! ## Expressions -/

/-- An integer constant. -/
structure Constant where
  pre : Text
  digits : Text
  suffix : Text
  pre_mem : pre ∈ [[], ['0', 'x'], ['0', 'X']]
  digits_ne : digits ≠ []
  digits_lt : ∀ d ∈ digits, isxdigit d = true ∧
    hexValue d < if pre ≠ [] then 16 else if digits.head? = some '0' then 8 else 10
  suffix_mem : ∀ c ∈ suffix, isSuffix c = true
  fits : digitsValue (if pre ≠ [] then 16 else if digits.head? = some '0' then 8 else 10) digits < 2 ^ 64

namespace Constant

variable (c : Constant)

def base : Nat := if c.pre ≠ [] then 16 else if c.digits.head? = some '0' then 8 else 10

def value : BitVec 64 := BitVec.ofNat 64 (digitsValue c.base c.digits)

def text : Text := c.pre ++ c.digits ++ c.suffix

end Constant

inductive Op where
  | mul | div | mod | add | sub | shl | shr | lt | le | gt | ge | eq | ne
  | bitand | bitxor | bitor | logand | logor | assign | comma
deriving DecidableEq

namespace Op

def text : Op → String
  | mul => "*" | div => "/" | mod => "%" | add => "+" | sub => "-" | shl => "<<" | shr => ">>"
  | lt => "<" | le => "<=" | gt => ">" | ge => ">=" | eq => "==" | ne => "!="
  | bitand => "&" | bitxor => "^" | bitor => "|" | logand => "&&" | logor => "||"
  | assign => "=" | comma => ","

/-- From `expression`, 0, to `multiplicative-expression`, 12. -/
def level : Op → Nat
  | comma => 0 | assign => 1 | logor => 3 | logand => 4 | bitor => 5 | bitxor => 6 | bitand => 7
  | eq | ne => 8 | lt | le | gt | ge => 9 | shl | shr => 10 | add | sub => 11 | mul | div | mod => 12

/-- The level of the left operand; that of `=` is a unary expression. -/
def left : Op → Nat
  | assign => 13
  | op => op.level

def right : Op → Nat
  | assign => 1
  | op => op.level + 1

def kind : Op → BinKind
  | mul => .mul | div => .div | mod => .mod | add => .add | sub => .sub | shl => .shl | shr => .shr
  | lt | gt => .lt | le | ge => .le | eq => .eq | ne => .ne | bitand => .bitand | bitxor => .bitxor
  | bitor => .bitor | logand => .logand | logor => .logor | assign => .assign | comma => .comma

/-- `>` and `>=` are `<` and `<=` of the operands in the other order. -/
def node {τ : Type} (op : Op) (lhs rhs : Node τ) (ty : τ) : Node τ :=
  match op with
  | gt | ge => .bin op.kind rhs lhs ty
  | _ => .bin op.kind lhs rhs ty

end Op

inductive Tree where
  | var (v : LVar)
  | const (c : Constant)
  | bin (op : Op) (lhs rhs : Tree)
  | cond (c then_ els : Tree)

namespace Tree

def level : Tree → Nat
  | var _ | const _ => 13
  | bin op _ _ => op.level
  | cond _ _ _ => 2

def vars : Tree → List LVar
  | var v => [v]
  | const _ => []
  | bin _ lhs rhs => lhs.vars ++ rhs.vars
  | cond c then_ els => c.vars ++ (then_.vars ++ els.vars)

def size : Tree → Nat
  | var _ | const _ => 1
  | bin _ lhs rhs => lhs.size + rhs.size + 1
  | cond c then_ els => c.size + then_.size + els.size + 1

theorem size_pos (t : Tree) : 0 < t.size := by
  cases t with
  | var v | const c => exact Nat.zero_lt_one
  | bin op lhs rhs => exact Nat.succ_pos _
  | cond c then_ els => exact Nat.succ_pos _

theorem level_le (t : Tree) : t.level ≤ 13 := by
  cases t with
  | var v | const c => exact Nat.le_refl 13
  | bin op lhs rhs => cases op <;> exact Nat.le_of_ble_eq_true rfl
  | cond c then_ els => exact Nat.le_of_ble_eq_true rfl

end Tree

def punct (text : String) : Tok := (.punct, text.toList)

/-- Parentheses, where they are needed. -/
def parens (needed : Bool) (tok : List Tok) : List Tok := if needed then punct "(" :: (tok ++ [punct ")"]) else tok

/-- The tokens of an expression, with only the parentheses that the grammar asks for. -/
def Tree.render : Tree → List Tok
  | var v => [(.ident v.name.toList, v.name.toList)]
  | const c => [(.num c.value, c.text)]
  | bin op lhs rhs =>
      parens (lhs.level < op.left) lhs.render ++ punct op.text :: parens (rhs.level < op.right) rhs.render
  | cond c then_ els =>
      parens (c.level < 3) c.render ++ punct "?" :: (then_.render ++ punct ":" :: parens (els.level < 2) els.render)

/-- `check_type` has been over a tree that stood in parentheses. -/
def settle (needed : Bool) (node : Built) : Built := if needed then (check node).getD node else node

/-- The tree that is to come back. -/
def Tree.node : Tree → Built
  | var v => .lvar v
  | const c => newNum c.value c.text
  | bin op lhs rhs =>
      op.node (settle (lhs.level < op.left) lhs.node) (settle (rhs.level < op.right) rhs.node) none
  | cond c then_ els => .cond (settle (c.level < 3) c.node) then_.node (settle (els.level < 2) els.node) none

/-! ## What the parser makes of it -/

/-- Nothing, where what is in parentheses looks like a type. -/
def inParens (s : Names) (needed : Bool) (tok : List Tok) (node : Option Built) : Option Built :=
  if needed then (if isTypename s tok then none else node.bind check) else node

def Tree.read (s : Names) : Tree → Option Built
  | var v => name s v.name.toList
  | const c => some (newNum c.value c.text)
  | bin op lhs rhs =>
      (inParens s (lhs.level < op.left) lhs.render (lhs.read s)).bind fun l =>
        (inParens s (rhs.level < op.right) rhs.render (rhs.read s)).map fun r => op.node l r none
  | cond c then_ els =>
      (inParens s (c.level < 3) c.render (c.read s)).bind fun c =>
        (then_.read s).bind fun t =>
          (inParens s (els.level < 2) els.render (els.read s)).map fun e => .cond c t e none

/-- The parsers by their levels. -/
def levels (s : Names) (e : Parse) (n : Nat) : Nat → Parse
  | 0 => Parser.level commaOps (assign s e n)
  | 1 => assign s e n
  | 2 => conditional s e n
  | 3 => logor s e
  | 4 => logand s e
  | 5 => bitor s e
  | 6 => bitxor s e
  | 7 => bitand s e
  | 8 => equality s e
  | 9 => relational s e
  | 10 => shift s e
  | 11 => add s e
  | 12 => mul s e
  | _ => unary s e

def levelOps : Nat → Operators
  | 0 => commaOps
  | 3 => logorOps
  | 4 => logandOps
  | 5 => bitorOps
  | 6 => bitxorOps
  | 7 => bitandOps
  | 8 => equalityOps
  | 9 => relationalOps
  | 10 => shiftOps
  | 11 => addOps
  | 12 => mulOps
  | _ => []

/-- The levels that are loops. -/
def Loop (L : Nat) : Prop := L ≠ 1 ∧ L ≠ 2 ∧ L ≤ 12

theorem levels_loop {L : Nat} (h : Loop L) (s : Names) (e : Parse) (n : Nat) :
    levels s e n L = Parser.level (levelOps L) (levels s e n (L + 1)) := by
  obtain ⟨h1, h2, hle⟩ := h
  match L with
  | 0 | 3 | 4 | 5 | 6 | 7 | 8 | 9 | 10 | 11 | 12 => rfl
  | 1 => exact absurd rfl h1
  | 2 => exact absurd rfl h2
  | L + 13 => omega

/-- What a level asks for behind an operand. -/
def levelTexts : Nat → List String
  | 1 => "=" :: compoundAssignments
  | 2 => ["?"]
  | L => (levelOps L).map Prod.fst

/-- What the levels from one on ask for. -/
def continues (L : Nat) : List String :=
  ["(", "[", ".", "->", "++", "--"] ++ ((List.range 13).filter (L ≤ ·)).flatMap levelTexts

/-- Behind an operand of the level, there is nothing for the level. -/
def Stop (L : Nat) (rest : List Tok) : Prop := ∀ op ∈ continues L, equalc rest op = false

variable {s : Names} {e : Parse} {L n : Nat} {rest : List Tok} {node : Built}

theorem Stop.mono {L' : Nat} (h : Stop L rest) (hle : L ≤ L') : Stop L' rest := by
  intro op hop
  refine h op ?_
  rcases List.mem_append.mp hop with hop | hop
  · exact List.mem_append_left _ hop
  · obtain ⟨k, hk, hop⟩ := List.mem_flatMap.mp hop
    obtain ⟨hrange, hk⟩ := List.mem_filter.mp hk
    refine List.mem_append_right _ (List.mem_flatMap.mpr ⟨k, List.mem_filter.mpr ⟨hrange, ?_⟩, hop⟩)
    exact decide_eq_true (Nat.le_trans hle (of_decide_eq_true hk))

theorem equalc_punct (text op : String) (rest : List Tok) : equalc (punct text :: rest) op = decide (text = op) := by
  show decide (text.toList = op.toList) = decide (text = op)
  exact decide_eq_decide.mpr String.toList_inj

theorem stop_punct {text : String} (h : text ∉ continues L) (rest : List Tok) : Stop L (punct text :: rest) := by
  intro op hop
  rw [equalc_punct]
  exact decide_eq_false fun heq => h (heq ▸ hop)

theorem stop_op (op : Op) (rest : List Tok) : Stop (op.level + 1) (punct op.text :: rest) :=
  stop_punct (by cases op <;> decide) rest

theorem mem_continues {op : String} (hL : L ≤ 12) (h : op ∈ levelTexts L) : op ∈ continues L :=
  List.mem_append_right _ (List.mem_flatMap.mpr
    ⟨L, List.mem_filter.mpr ⟨List.mem_range.mpr (Nat.lt_succ_of_le hL), decide_eq_true (Nat.le_refl L)⟩, h⟩)

theorem Loop.levelTexts (h : Loop L) : levelTexts L = (levelOps L).map Prod.fst := by
  obtain ⟨h1, h2, _⟩ := h
  rw [Parser.levelTexts.eq_3 L h1 h2]

/-! ## One level -/

variable {ops : Operators} {sub : Parse} {tok : List Tok}

theorem operators_stop (h : ∀ op ∈ ops, equalc rest op.1 = false) : operators ops sub node rest = some (node, rest) := by
  rw [operators, List.find?_eq_none.mpr fun op hop => Bool.not_eq_true _ ▸ h op hop]

theorem operators_next (node : Built) {op : String × (Built → Built → Built)} (hfind : ops.find? (fun op => equalc tok op.1) = some op)
    {r : Option Built} (hsub : sub tok.tail = r.map fun rhs => (rhs, rest)) (hlt : rest.length < tok.length) :
    operators ops sub node tok = r.bind fun rhs => operators ops sub (op.2 node rhs) rest := by
  rw [operators, hfind]
  dsimp only
  rw [hsub]
  cases r with
  | none => rfl
  | some rhs => exact if_pos hlt

/-- An operand of the next level is one of the level. -/
theorem levels_of_succ (hL : L ≤ 12) (hstop : Stop L rest) {r : Option Built}
    (h : levels s e (n + 1) (L + 1) tok = r.map fun node => (node, rest)) :
    levels s e (n + 1) L tok = r.map fun node => (node, rest) := by
  by_cases hloop : Loop L
  · rw [levels_loop hloop, Parser.level, h]
    cases r with
    | none => rfl
    | some node =>
        refine operators_stop fun op hop => hstop op.1 (mem_continues hL ?_)
        rw [hloop.levelTexts]
        exact List.mem_map_of_mem hop
  · have hL12 : L = 1 ∨ L = 2 := by
      rw [Loop] at hloop
      omega
    rcases hL12 with rfl | rfl
    · have hassign : ∀ op ∈ "=" :: compoundAssignments, equalc rest op = false := fun op hop =>
        hstop op (mem_continues hL hop)
      show (conditional s e (n + 1) tok).bind _ = _
      rw [show conditional s e (n + 1) tok = _ from h]
      cases r with
      | none => rfl
      | some node =>
          simp only [Option.map_some, Option.bind_some]
          rw [if_neg (Bool.eq_false_iff.mp (hassign "=" List.mem_cons_self)), if_neg ?_]
          rw [List.any_eq_true]
          rintro ⟨op, hop, heq⟩
          exact Bool.eq_false_iff.mp (hassign op (List.mem_cons_of_mem _ hop)) heq
    · have hquestion : equalc rest "?" = false := hstop "?" (mem_continues hL List.mem_cons_self)
      show (logor s e tok).bind _ = _
      rw [show logor s e tok = _ from h]
      cases r with
      | none => rfl
      | some node =>
          simp only [Option.map_some, Option.bind_some]
          rw [if_neg (Bool.eq_false_iff.mp hquestion)]

theorem levels_descend {L' : Nat} (hle : L ≤ L') (hL' : L' ≤ 13) (hstop : Stop L rest) {r : Option Built}
    (h : levels s e (n + 1) L' tok = r.map fun node => (node, rest)) :
    levels s e (n + 1) L tok = r.map fun node => (node, rest) := by
  induction L', hle using Nat.le_induction with
  | base => exact h
  | succ L' hle ih => exact ih (by omega) (levels_of_succ (by omega) (hstop.mono hle) h)

/-! ## Operands -/

/-- A token that begins an operand, and is neither a parenthesis nor a word or an operator
that the parser asks for. -/
def Leads (t : Tok) : Prop :=
  ∀ op ∈ exprWords ++ ["++", "--", "+", "-", "!", "~", "&", "*", "(", "\x7b"], t.2 ≠ op.toList

theorem Leads.equalc {t : Tok} (h : Leads t) (tok : List Tok) {op : String}
    (hop : op ∈ exprWords ++ ["++", "--", "+", "-", "!", "~", "&", "*", "(", "\x7b"]) : equalc (t :: tok) op = false :=
  decide_eq_false (h op hop)

theorem unary_primary {t : Tok} (hwords : ∀ op ∈ exprWords ++ ["++", "--", "+", "-", "!", "~", "&", "*"],
    equalc (t :: tok) op = false) (hcast : isCast s (t :: tok) = false) :
    unary s e (t :: tok) = primary s e (t :: tok) := by
  have hany : exprWords.any (equalc (t :: tok)) = false :=
    List.any_eq_false.mpr fun op hop => Bool.eq_false_iff.mp (hwords op (List.mem_append_left _ hop))
  have hop : ∀ op ∈ ["++", "--", "+", "-", "!", "~", "&", "*"], equalc (t :: tok) op = false :=
    fun op hop => hwords op (List.mem_append_right _ hop)
  rw [unary]
  simp only [hany, hcast, hop "++" (by decide), hop "--" (by decide), hop "+" (by decide), hop "-" (by decide),
    hop "!" (by decide), hop "~" (by decide), hop "&" (by decide), hop "*" (by decide), Bool.false_eq_true, if_false]

theorem postfixes_stop (h : Stop 13 rest) : postfixes node rest = some (node, rest) := by
  cases rest with
  | nil => rfl
  | cons t rest =>
      have hop : ∀ op ∈ ["(", "[", ".", "->", "++", "--"], equalc (t :: rest) op = false :=
        fun op hop => h op (List.mem_append_left _ hop)
      have hany : ["(", "[", ".", "->"].any (equalc (t :: rest)) = false :=
        List.any_eq_false.mpr fun op hmem => Bool.eq_false_iff.mp (hop op (List.mem_append_left ["++", "--"] hmem))
      rw [postfixes, hany, hop "++" (by decide), hop "--" (by decide)]
      rfl

theorem check_name {text : Text} (h : name s text = some node) : check node = some node := by
  rw [name] at h
  split at h
  · rw [← Option.some_inj.mp h]
    rfl
  · split at h
    · rw [← Option.some_inj.mp h]
      rfl
    · obtain ⟨v, _, rfl⟩ := Option.map_eq_some_iff.mp h
      rfl

/-- An operand that is one token. -/
theorem unary_token {t : Tok} (hleads : Leads t) (hstop : Stop 13 rest) {r : Option Built}
    (hr : ∀ node, r = some node → check node = some node)
    (h : (match t.1 with
      | .ident _ => (name s t.2).map fun node => (node, rest)
      | .num val => some (newNum val t.2, rest)
      | _ => none) = r.map fun node => (node, rest)) :
    unary s e (t :: rest) = r.map fun node => (node, rest) := by
  have hparen : equalc (t :: rest) "(" = false := hleads.equalc rest (by decide)
  have hcall : equalc rest "(" = false := hstop "(" (List.mem_append_left _ List.mem_cons_self)
  rw [unary_primary (fun op hop => hleads.equalc rest ?_) (by rw [isCast, hparen, Bool.false_and]), primary]
  · have hoperand : operand s e (t :: rest) = r.map fun node => (node, rest) := by
      rw [operand, if_neg (Bool.eq_false_iff.mp hparen), ← h]
      simp only [hcall, Bool.false_eq_true, if_false] <;> rfl
    rw [hoperand]
    cases r with
    | none => rfl
    | some node =>
        show (check node).bind _ = _
        rw [hr node rfl]
        exact postfixes_stop hstop
  · rcases List.mem_append.mp hop with hop | hop
    · exact List.mem_append_left _ hop
    · exact List.mem_append_right _ (List.mem_append_left ["(", "\x7b"] hop)

/-- An operand in parentheses. -/
theorem unary_parens (hhead : equalc tok "\x7b" = false) (hne : tok ≠ []) (hstop : Stop 13 rest) {r : Option Built}
    (h : e (tok ++ punct ")" :: rest) = r.map fun node => (node, punct ")" :: rest)) :
    unary s e (punct "(" :: (tok ++ [punct ")"]) ++ rest) = (inParens s true tok r).map fun node => (node, rest) := by
  obtain ⟨t, tok, rfl⟩ := List.exists_cons_of_ne_nil hne
  have hshape : punct "(" :: (t :: tok ++ [punct ")"]) ++ rest = punct "(" :: (t :: (tok ++ punct ")" :: rest)) := by
    simp only [List.cons_append, List.append_assoc, List.nil_append]
  have hcast : isCast s (punct "(" :: (t :: (tok ++ punct ")" :: rest))) = isTypename s (t :: tok) := rfl
  have hwords : ∀ op ∈ exprWords ++ ["++", "--", "+", "-", "!", "~", "&", "*"],
      equalc (punct "(" :: (t :: (tok ++ punct ")" :: rest))) op = false := fun op hop => by
    rw [equalc_punct]
    revert op
    decide
  rw [hshape, inParens, if_pos rfl]
  cases htype : isTypename s (t :: tok) with
  | true =>
      have hany : exprWords.any (equalc (punct "(" :: (t :: (tok ++ punct ")" :: rest)))) = false :=
        List.any_eq_false.mpr fun op hop => Bool.eq_false_iff.mp (hwords op (List.mem_append_left _ hop))
      have hop : ∀ op ∈ ["++", "--", "+", "-", "!", "~", "&", "*"],
          equalc (punct "(" :: (t :: (tok ++ punct ")" :: rest))) op = false :=
        fun op hop => hwords op (List.mem_append_right _ hop)
      rw [unary]
      simp only [hany, hcast, htype, hop "++" (by decide), hop "--" (by decide), hop "+" (by decide), hop "-" (by decide),
        hop "!" (by decide), hop "~" (by decide), hop "&" (by decide), hop "*" (by decide), Bool.false_eq_true, if_false,
        if_true]
      rfl
  | false =>
      have hbrace : equalc (t :: (tok ++ punct ")" :: rest)) "\x7b" = false := hhead
      rw [unary_primary hwords (hcast.trans htype), primary, operand, if_pos (equalc_punct "(" "(" _ ▸ decide_eq_true rfl),
        if_neg (Bool.eq_false_iff.mp hbrace), if_neg Bool.false_ne_true]
      rw [show e (t :: (tok ++ punct ")" :: rest)) = _ from h]
      cases r with
      | none => rfl
      | some node =>
          show (((skip (punct ")" :: rest) ")").map fun tok => (node, tok)).bind _) = ((check node).map fun node => (node, rest))
          rw [skip, equalc_punct, decide_eq_true rfl, if_pos rfl]
          show ((check node).bind fun node => postfixes node rest) = _
          cases check node with
          | none => rfl
          | some node => exact postfixes_stop hstop

/-! ## Trees -/

variable {t lhs rhs : Tree} {N : Nat} {op : Op}

/-- The parser of a level reads a tree. -/
def Reads (s : Names) (t : Tree) (L N : Nat) : Prop :=
  ∀ n, N ≤ n → ∀ k, N ≤ k → ∀ rest, Stop L rest →
    levels s (expr s n) k L (parens (t.level < L) t.render ++ rest) =
      (inParens s (t.level < L) t.render (t.read s)).map fun node => (node, rest)

/-- Behind a tree, the loop of a level is where it would be behind an operand. -/
def Chains (s : Names) (t : Tree) (L N : Nat) : Prop :=
  ∀ n, N ≤ n → ∀ k, N ≤ k → ∀ rest, Stop (L + 1) rest →
    levels s (expr s n) k L (parens (t.level < L) t.render ++ rest) =
      (inParens s (t.level < L) t.render (t.read s)).bind fun node =>
        operators (levelOps L) (levels s (expr s n) k (L + 1)) node rest

theorem Reads.chains (hloop : Loop L) (hne : t.level ≠ L) (h : Reads s t (L + 1) N) : Chains s t L N := by
  intro n hn k hk rest hstop
  have hsame : decide (t.level < L) = decide (t.level < L + 1) := decide_eq_decide.mpr (by omega)
  rw [levels_loop hloop, Parser.level, hsame, h n hn k hk rest hstop]
  cases inParens s (decide (t.level < L + 1)) t.render (t.read s) with
  | none => rfl
  | some node => rfl

theorem Chains.reads (hloop : Loop L) (h : Chains s t L N) : Reads s t L N := by
  intro n hn k hk rest hstop
  rw [h n hn k hk rest (hstop.mono (Nat.le_succ L))]
  cases inParens s (decide (t.level < L)) t.render (t.read s) with
  | none => rfl
  | some node =>
      refine operators_stop fun op hop => hstop op.1 (mem_continues hloop.2.2 ?_)
      rw [hloop.levelTexts]
      exact List.mem_map_of_mem hop

/-- A tree is read by every level. -/
structure ReadsAll (s : Names) (t : Tree) (N : Nat) : Prop where
  reads : ∀ L ≤ 13, Reads s t L N
  chains : ∀ L, Loop L → Chains s t L N

theorem levelOps_find (hloop : Loop op.level) (tok : List Tok) :
    (levelOps op.level).find? (fun o => equalc (punct op.text :: tok) o.1) = some (op.text, fun l r => op.node l r none) := by
  cases op with
  | assign => exact absurd rfl hloop.1
  | mul | div | mod | add | sub | shl | shr | lt | le | gt | ge | eq | ne | bitand | bitxor | bitor | logand | logor
  | comma => rfl

theorem chains_bin (hloop : Loop op.level) (hlhs : ReadsAll s lhs N) (hrhs : ReadsAll s rhs N) :
    Chains s (.bin op lhs rhs) op.level N := by
  intro n hn k hk rest hstop
  have hleft : op.left = op.level := by
    cases op with
    | assign => exact absurd rfl hloop.1
    | mul | div | mod | add | sub | shl | shr | lt | le | gt | ge | eq | ne | bitand | bitxor | bitor | logand | logor
    | comma => rfl
  have hright : op.right = op.level + 1 := by
    cases op with
    | assign => exact absurd rfl hloop.1
    | mul | div | mod | add | sub | shl | shr | lt | le | gt | ge | eq | ne | bitand | bitxor | bitor | logand | logor
    | comma => rfl
  have hparens : decide ((Tree.bin op lhs rhs).level < op.level) = false := decide_eq_false (Nat.lt_irrefl _)
  rw [hparens, parens, inParens, if_neg Bool.false_ne_true, if_neg Bool.false_ne_true, Tree.render, Tree.read, hleft, hright,
    List.append_assoc, List.cons_append, hlhs.chains op.level hloop n hn k hk _ (stop_op op _)]
  have hlt : rest.length <
      (punct op.text :: (parens (rhs.level < op.level + 1) rhs.render ++ rest)).length := by
    rw [List.length_cons, List.length_append]
    omega
  have hnext := fun node => operators_next node (levelOps_find hloop _)
    (hrhs.reads (op.level + 1) (Nat.succ_le_succ hloop.2.2) n hn k hk rest hstop) hlt
  cases inParens s (decide (lhs.level < op.level)) lhs.render (lhs.read s) with
  | none => rfl
  | some l =>
      show operators _ _ l _ = _
      rw [hnext l]
      cases inParens s (decide (rhs.level < op.level + 1)) rhs.render (rhs.read s) with
      | none => rfl
      | some r => rfl

theorem reads_assign (hlhs : ReadsAll s lhs N) (hrhs : ReadsAll s rhs N) :
    Reads s (.bin .assign lhs rhs) 1 (N + 1) := by
  intro n hn k hk rest hstop
  obtain ⟨k, rfl⟩ := Nat.exists_eq_add_of_lt hk
  have hparens : decide ((Tree.bin .assign lhs rhs).level < 1) = false := rfl
  have hstop2 : Stop 2 (punct "=" :: (parens (rhs.level < 1) rhs.render ++ rest)) := stop_punct (by decide) _
  have hleft : conditional s (expr s n) (N + k + 1)
      (parens (lhs.level < 13) lhs.render ++ (punct "=" :: (parens (rhs.level < 1) rhs.render ++ rest))) = _ :=
    levels_descend (Nat.le_of_ble_eq_true rfl) (Nat.le_refl 13) hstop2
      (hlhs.reads 13 (Nat.le_refl 13) n (by omega) (N + k + 1) (by omega) _ (hstop2.mono (Nat.le_of_ble_eq_true rfl)))
  have hright := hrhs.reads 1 (Nat.le_of_ble_eq_true rfl) n (by omega) (N + k) (by omega) rest hstop
  rw [hparens, parens, inParens, if_neg Bool.false_ne_true, if_neg Bool.false_ne_true, Tree.render, Tree.read,
    show Op.assign.left = 13 from rfl, show Op.assign.right = 1 from rfl]
  show (conditional s (expr s n) (N + k + 1)
    (parens (lhs.level < 13) lhs.render ++ punct "=" :: parens (rhs.level < 1) rhs.render ++ rest)).bind _ = _
  rw [List.append_assoc, List.cons_append, hleft]
  cases inParens s (decide (lhs.level < 13)) lhs.render (lhs.read s) with
  | none => rfl
  | some l =>
      simp only [Option.map_some, Option.bind_some]
      rw [if_pos (equalc_punct "=" "=" _ ▸ decide_eq_true rfl)]
      show (levels s (expr s n) (N + k) 1 (parens (rhs.level < 1) rhs.render ++ rest)).map _ = _
      rw [hright]
      cases inParens s (decide (rhs.level < 1)) rhs.render (rhs.read s) with
      | none => rfl
      | some r => rfl

theorem reads_cond {c then_ els : Tree} (hc : ReadsAll s c N) (hthen : ReadsAll s then_ N) (hels : ReadsAll s els N) :
    Reads s (.cond c then_ els) 2 (N + 1) := by
  intro n hn k hk rest hstop
  obtain ⟨k, rfl⟩ := Nat.exists_eq_add_of_lt hk
  obtain ⟨n, rfl⟩ := Nat.exists_eq_add_of_lt hn
  have hparens : decide ((Tree.cond c then_ els).level < 2) = false := rfl
  have hcond := hc.reads 3 (Nat.le_of_ble_eq_true rfl) (N + n + 1) (by omega) (N + k + 1) (by omega)
    (punct "?" :: (then_.render ++ punct ":" :: (parens (els.level < 2) els.render ++ rest))) (stop_punct (by decide) _)
  have hmiddle := hthen.reads 0 (Nat.zero_le _) (N + n) (by omega) (N + n) (by omega)
    (punct ":" :: (parens (els.level < 2) els.render ++ rest)) (stop_punct (by decide) _)
  rw [decide_eq_false (Nat.not_lt_zero then_.level), parens, inParens, if_neg Bool.false_ne_true,
    if_neg Bool.false_ne_true] at hmiddle
  have hright := hels.reads 2 (Nat.le_of_ble_eq_true rfl) (N + n + 1) (by omega) (N + k) (by omega) rest hstop
  rw [hparens, parens, inParens, if_neg Bool.false_ne_true, if_neg Bool.false_ne_true, Tree.render, Tree.read]
  show (logor s (expr s (N + n + 1)) (parens (c.level < 3) c.render ++
    punct "?" :: (then_.render ++ punct ":" :: parens (els.level < 2) els.render) ++ rest)).bind _ = _
  rw [List.append_assoc, List.cons_append, List.append_assoc, List.cons_append,
    show logor s (expr s (N + n + 1)) _ = _ from hcond]
  cases inParens s (decide (c.level < 3)) c.render (c.read s) with
  | none => rfl
  | some l =>
      simp only [Option.map_some, Option.bind_some]
      rw [if_pos (equalc_punct "?" "?" _ ▸ decide_eq_true rfl)]
      show (expr s (N + n + 1) (then_.render ++ punct ":" :: (parens (els.level < 2) els.render ++ rest))).bind _ = _
      rw [show expr s (N + n + 1) _ = _ from hmiddle]
      cases then_.read s with
      | none => rfl
      | some m =>
          simp only [Option.map_some, Option.bind_some]
          rw [skip, equalc_punct, decide_eq_true rfl, if_pos rfl]
          show (levels s (expr s (N + n + 1)) (N + k) 2 (parens (els.level < 2) els.render ++ rest)).map _ = _
          rw [hright]
          cases inParens s (decide (els.level < 2)) els.render (els.read s) with
          | none => rfl
          | some r => rfl

/-- No variable has the name of a word that the parser asks for. -/
def Tree.Leading (t : Tree) : Prop := ∀ v ∈ t.vars, Leads (.ident v.name.toList, v.name.toList)

/-- The digits, where there is no prefix. -/
theorem Constant.digits_decimal {c : Constant} (hpre : c.pre = []) : ∀ d ∈ c.digits, isdigit d = true := by
  intro d hd
  obtain ⟨hx, hlt⟩ := c.digits_lt d hd
  by_contra hno
  rw [if_neg (not_not_intro hpre)] at hlt
  rw [hexValue, if_neg hno] at hlt
  split at hlt
  · split at hlt <;> omega
  · split at hlt <;> omega

theorem Constant.head_digit (c : Constant) : ∃ d w, c.text = d :: w ∧ isdigit d = true := by
  obtain ⟨d, ds, hds⟩ := List.exists_cons_of_ne_nil c.digits_ne
  rcases List.mem_cons.mp c.pre_mem with hpre | hpre
  · exact ⟨d, ds ++ c.suffix, by rw [text, hpre, hds]; rfl, digits_decimal hpre d (hds ▸ List.mem_cons_self)⟩
  · rcases List.mem_cons.mp hpre with hpre | hpre
    · exact ⟨'0', 'x' :: (c.digits ++ c.suffix), by rw [text, hpre]; rfl, rfl⟩
    · rw [List.mem_singleton] at hpre
      exact ⟨'0', 'X' :: (c.digits ++ c.suffix), by rw [text, hpre]; rfl, rfl⟩

theorem Constant.leads (c : Constant) : Leads (.num c.value, c.text) := by
  obtain ⟨d, w, htext, hd⟩ := c.head_digit
  have hwords : ∀ op ∈ exprWords ++ ["++", "--", "+", "-", "!", "~", "&", "*", "(", "\x7b"],
      op.toList.head?.any isdigit = false := by decide
  intro op hop heq
  have hany := hwords op hop
  rw [← heq, htext] at hany
  exact absurd (hd.symm.trans hany) nofun

theorem render_head (h : t.Leading) : t.render ≠ [] ∧ equalc t.render "\x7b" = false := by
  induction t with
  | var v => exact ⟨List.cons_ne_nil _ _, (h v List.mem_cons_self).equalc _ (by decide)⟩
  | const c => exact ⟨List.cons_ne_nil _ _, c.leads.equalc _ (by decide)⟩
  | bin op lhs rhs ihl _ =>
      obtain ⟨hne, hbrace⟩ := ihl fun v hv => h v (List.mem_append_left _ hv)
      exact head_parens hne hbrace
  | cond c then_ els ihc _ _ =>
      obtain ⟨hne, hbrace⟩ := ihc fun v hv => h v (List.mem_append_left _ hv)
      exact head_parens hne hbrace
where
  head_parens {tok : List Tok} {needed : Bool} {rest : List Tok} (hne : tok ≠ []) (hbrace : equalc tok "\x7b" = false) :
      parens needed tok ++ rest ≠ [] ∧ equalc (parens needed tok ++ rest) "\x7b" = false := by
    obtain ⟨t, tok, rfl⟩ := List.exists_cons_of_ne_nil hne
    cases needed with
    | true => exact ⟨List.cons_ne_nil _ _, equalc_punct "(" _ _ ▸ decide_eq_false (by decide)⟩
    | false => exact ⟨List.cons_ne_nil _ _, hbrace⟩

/-- What is read by its own level is read by all of them. -/
theorem readsAll_of_reads (hlead : t.Leading) (hN : 0 < N) (hreads : Reads s t t.level N)
    (hchains : Loop t.level → Chains s t t.level N) : ReadsAll s t (N + 1) := by
  have hbelow : ∀ L ≤ t.level, Reads s t L N := by
    intro L hL n hn k hk rest hstop
    obtain ⟨k, rfl⟩ := Nat.exists_eq_add_of_lt (Nat.lt_of_lt_of_le hN hk)
    have hown := hreads n hn (0 + k + 1) hk rest (hstop.mono hL)
    rw [decide_eq_false (Nat.lt_irrefl _)] at hown
    rw [decide_eq_false (Nat.not_lt.mpr hL)]
    exact levels_descend hL t.level_le hstop hown
  have habove : ∀ L ≤ 13, t.level < L → Reads s t L (N + 1) := by
    intro L hL hlt n hn k hk rest hstop
    obtain ⟨k, rfl⟩ := Nat.exists_eq_add_of_lt (Nat.lt_of_lt_of_le (Nat.succ_pos N) hk)
    obtain ⟨n, rfl⟩ := Nat.exists_eq_add_of_lt hn
    obtain ⟨hne, hbrace⟩ := render_head hlead
    have hinner := hbelow 0 (Nat.zero_le _) (N + n) (by omega) (N + n) (by omega) (punct ")" :: rest)
      (stop_punct (by decide) _)
    rw [decide_eq_false (Nat.not_lt_zero _)] at hinner
    rw [decide_eq_true hlt]
    exact levels_descend hL (Nat.le_refl 13) hstop (unary_parens hbrace hne (hstop.mono hL) hinner)
  have hall : ∀ L ≤ 13, Reads s t L (N + 1) := by
    intro L hL
    by_cases hlt : t.level < L
    · exact habove L hL hlt
    · exact fun n hn k hk => hbelow L (Nat.le_of_not_lt hlt) n (by omega) k (by omega)
  refine ⟨hall, fun L hloop => ?_⟩
  by_cases hown : t.level = L
  · subst hown
    exact fun n hn k hk => hchains hloop n (by omega) k (by omega)
  · exact (hall (L + 1) (Nat.succ_le_succ hloop.2.2)).chains hloop hown

theorem ReadsAll.mono {M : Nat} (h : ReadsAll s t N) (hle : N ≤ M) : ReadsAll s t M :=
  ⟨fun L hL n hn k hk => h.reads L hL n (by omega) k (by omega),
    fun L hL n hn k hk => h.chains L hL n (by omega) k (by omega)⟩

/-- Every level reads every tree, enough depth given. -/
theorem readsAll (s : Names) (t : Tree) (hlead : t.Leading) : ReadsAll s t (t.size + 1) := by
  induction t with
  | var v =>
      refine readsAll_of_reads hlead Nat.zero_lt_one (fun n _ k _ rest hstop => ?_) fun hloop =>
        absurd (show 13 ≤ 12 from hloop.2.2) (by decide)
      exact unary_token (hlead v List.mem_cons_self) hstop (fun node => check_name) rfl
  | const c =>
      refine readsAll_of_reads hlead Nat.zero_lt_one (fun n _ k _ rest hstop => ?_) fun hloop =>
        absurd (show 13 ≤ 12 from hloop.2.2) (by decide)
      refine unary_token c.leads hstop (fun node hnode => ?_) rfl
      rw [← Option.some_inj.mp hnode]
      rfl
  | bin op lhs rhs ihl ihr =>
      have hl := (ihl fun v hv => hlead v (List.mem_append_left _ hv)).mono
        (show lhs.size + 1 ≤ lhs.size + rhs.size by have := rhs.size_pos; omega)
      have hr := (ihr fun v hv => hlead v (List.mem_append_right _ hv)).mono
        (show rhs.size + 1 ≤ lhs.size + rhs.size by have := lhs.size_pos; omega)
      have hup : ∀ {L}, Reads s (.bin op lhs rhs) L (lhs.size + rhs.size) → Reads s (.bin op lhs rhs) L (lhs.size + rhs.size + 1) :=
        fun h n hn k hk => h n (by omega) k (by omega)
      by_cases hassign : op = .assign
      · subst hassign
        exact readsAll_of_reads hlead (Nat.succ_pos _) (reads_assign hl hr) fun hloop => absurd rfl hloop.1
      · have hloop : Loop op.level := by
          cases op with
          | assign => exact absurd rfl hassign
          | mul | div | mod | add | sub | shl | shr | lt | le | gt | ge | eq | ne | bitand | bitxor | bitor | logand
          | logor | comma => exact ⟨by decide, by decide, by decide⟩
        have hchains := chains_bin hloop hl hr
        exact readsAll_of_reads hlead (Nat.succ_pos _) (hup (hchains.reads hloop))
          fun _ n hn k hk => hchains n (Nat.le_of_succ_le hn) k (Nat.le_of_succ_le hk)
  | cond c then_ els ihc iht ihe =>
      have hc := (ihc fun v hv => hlead v (List.mem_append_left _ hv)).mono
        (show c.size + 1 ≤ c.size + then_.size + els.size by have := then_.size_pos; omega)
      have ht := (iht fun v hv => hlead v (List.mem_append_right _ (List.mem_append_left _ hv))).mono
        (show then_.size + 1 ≤ c.size + then_.size + els.size by have := c.size_pos; omega)
      have he := (ihe fun v hv => hlead v (List.mem_append_right _ (List.mem_append_right _ hv))).mono
        (show els.size + 1 ≤ c.size + then_.size + els.size by have := c.size_pos; omega)
      exact readsAll_of_reads hlead (Nat.succ_pos _) (reads_cond hc ht he) fun hloop => absurd rfl hloop.2.1

theorem expr_render (hlead : t.Leading) (hn : t.size + 2 ≤ n) (hstop : Stop 0 rest) :
    expr s n (t.render ++ rest) = (t.read s).map fun node => (node, rest) := by
  obtain ⟨n, rfl⟩ := Nat.exists_eq_add_of_lt (Nat.lt_of_lt_of_le (Nat.succ_pos _) hn)
  have hread := (readsAll s t hlead).reads 0 (Nat.zero_le _) (0 + n) (by omega) (0 + n) (by omega) rest hstop
  rw [decide_eq_false (Nat.not_lt_zero _)] at hread
  exact hread

/-! ## Types -/

/-- The tree by itself. -/
def Tree.raw : Tree → Node Unit
  | var v => .lvar v
  | const c => .num c.value (numType c.value c.text)
  | bin op lhs rhs => op.node lhs.raw rhs.raw ()
  | cond c then_ els => .cond c.raw then_.raw els.raw ()

theorem types_map (node : Node Ty) : Built.types (node.map some) = node := by
  rw [Built.types]
  induction node with
  | null | num _ _ | fnum _ | str _ | lvar _ => rfl
  | link node next ihn ihx => rw [Node.map, Node.map, ihn, ihx]
  | bin kind lhs rhs ty ihl ihr =>
      rw [Node.map, Node.map, ihl, ihr]
      rfl
  | un kind lhs ty ih | member lhs m ty ih =>
      rw [Node.map, Node.map, ih]
      rfl
  | cast lhs ty ih | funcall f args ty ih | ret lhs ih | block body ih | exprStmt lhs ih | other kids ih =>
      rw [Node.map, Node.map, ih]
  | cond c then_ els ty ihc iht ihe =>
      rw [Node.map, Node.map, ihc, iht, ihe]
      rfl
  | ifStmt c then_ els ihc iht ihe => rw [Node.map, Node.map, ihc, iht, ihe]

/-- What `check_type` makes of an operator has a type. -/
theorem typeBin_typed (kind : BinKind) (lhs rhs : Node Ty) : ∃ k l r ty, typeBin kind lhs rhs = .bin k l r ty := by
  cases kind with
  | add | sub =>
      show ∃ k l r ty, typeAddSub _ lhs rhs = .bin k l r ty
      rw [typeAddSub]
      split
      · exact ⟨_, _, _, _, rfl⟩
      · split
        · split <;> exact ⟨_, _, _, _, rfl⟩
        · split
          · split <;> exact ⟨_, _, _, _, rfl⟩
          · exact ⟨_, _, _, _, rfl⟩
        · exact ⟨_, _, _, _, rfl⟩
  | eq | ne | lt | le =>
      show ∃ k l r ty, typeCompare _ lhs rhs = .bin k l r ty
      rw [typeCompare]
      split <;> exact ⟨_, _, _, _, rfl⟩
  | mul | div | mod | bitand | bitxor | bitor | shl | shr | logand | logor | assign | comma => exact ⟨_, _, _, _, rfl⟩

/-- `check_type` makes the same of a tree that it has been over in part. -/
structure Same (node : Built) (raw : Node Unit) (m : Node Ty) : Prop where
  raw : checkType raw = some m
  check : check node = some (m.map some)
  again : Parser.check (m.map some) = some (m.map some)

variable {m m' : Node Ty} {raw raw' : Node Unit} {node' : Built}

theorem Same.settle (h : Same node raw m) (needed : Bool) : Same (settle needed node) raw m := by
  cases needed with
  | true =>
      refine ⟨h.raw, ?_, h.again⟩
      show Parser.check ((Parser.check node).getD node) = _
      rw [h.check]
      exact h.again
  | false => exact h

theorem Same.bin (h : Same node raw m) (h' : Same node' raw' m') (kind : BinKind) :
    Same (.bin kind node node' none) (.bin kind raw raw' ()) (typeBin kind m m') := by
  refine ⟨?_, ?_, ?_⟩
  · rw [checkType, h.raw, h'.raw]
    rfl
  · rw [Parser.check, h.check, h'.check]
    show some ((typeBin kind _ _).map some) = _
    rw [types_map, types_map]
  · obtain ⟨k, l, r, ty, heq⟩ := typeBin_typed kind m m'
    rw [heq]
    rfl

theorem Same.operator (h : Same node raw m) (h' : Same node' raw' m') (op : Op) :
    ∃ x, Same (op.node node node' none) (op.node raw raw' ()) x := by
  cases op with
  | gt | ge => exact ⟨_, h'.bin h _⟩
  | mul | div | mod | add | sub | shl | shr | lt | le | eq | ne | bitand | bitxor | bitor | logand | logor | assign
  | comma => exact ⟨_, h.bin h' _⟩

theorem same_node (t : Tree) : ∃ m, Same t.node t.raw m := by
  induction t with
  | var v => exact ⟨.lvar v, rfl, rfl, rfl⟩
  | const c => exact ⟨.num c.value (numType c.value c.text), rfl, rfl, rfl⟩
  | bin op lhs rhs ihl ihr =>
      obtain ⟨l, hl⟩ := ihl
      obtain ⟨r, hr⟩ := ihr
      exact (hl.settle _).operator (hr.settle _) op
  | cond c then_ els ihc iht ihe =>
      obtain ⟨c', hc⟩ := ihc
      obtain ⟨m, ht⟩ := iht
      obtain ⟨e, he⟩ := ihe
      have hc := hc.settle (c.level < 3)
      have he := he.settle (els.level < 2)
      refine ⟨.cond c' m e (condType m e), ?_, ?_, rfl⟩
      · rw [Tree.raw, checkType, hc.raw, ht.raw, he.raw]
        rfl
      · rw [Tree.node, check, hc.check, ht.check, he.check]
        show some (Node.cond _ _ _ (some (condType (Built.types _) (Built.types _)))) = _
        rw [types_map, types_map]
        rfl

/-- `check_type` makes of what comes back what it makes of the tree. -/
theorem check_node (t : Tree) : check t.node = (checkType t.raw).map (Node.map some) := by
  obtain ⟨m, h⟩ := same_node t
  rw [h.check, h.raw]
  rfl

/-! ## Names -/

/-- What stands in parentheses. -/
def Tree.groups : Tree → List (List Tok)
  | var _ | const _ => []
  | bin op lhs rhs =>
      (if lhs.level < op.left then [lhs.render] else []) ++ lhs.groups ++
        ((if rhs.level < op.right then [rhs.render] else []) ++ rhs.groups)
  | cond c then_ els =>
      (if c.level < 3 then [c.render] else []) ++ c.groups ++
        (then_.groups ++ ((if els.level < 2 then [els.render] else []) ++ els.groups))

/-- No enumeration constant has the name of a variable, which is not `NULL`, and no
typedef that of one behind an opening parenthesis. -/
structure Clear (s : Names) (t : Tree) : Prop where
  vars : ∀ v ∈ t.vars, s.findEnumConst v.name = none ∧ v.name ≠ "NULL"
  groups : ∀ tok ∈ t.groups, isTypename s tok = false

theorem name_eq {v : LVar} (hfound : s.findVar v.name = some v) (henum : s.findEnumConst v.name = none)
    (hnull : v.name ≠ "NULL") : name s v.name.toList = some (.lvar v) := by
  rw [name, String.ofList_toList, henum, hfound]
  show (if v.name.toList = "NULL".toList then _ else _) = _
  rw [if_neg fun h => hnull (String.toList_inj.mp h)]
  rfl

theorem inParens_clear {needed : Bool} (h : isTypename s tok = false ∨ needed = false) {raw : Node Unit} {m : Node Ty}
    (hsame : Same node raw m) : inParens s needed tok (some node) = some (settle needed node) := by
  cases needed with
  | false => rfl
  | true =>
      rw [inParens, if_pos rfl, h.resolve_right nofun]
      show check node = some ((check node).getD node)
      rw [hsame.check]
      rfl

/-- Where the names are clear, the tree comes back. -/
theorem read_clear (hfound : ∀ v ∈ t.vars, s.findVar v.name = some v) (h : Clear s t) : t.read s = some t.node := by
  have hgroup : ∀ {needed : Prop} [Decidable needed] {tok : List Tok},
      (∀ g ∈ (if needed then [tok] else []), isTypename s g = false) →
        isTypename s tok = false ∨ decide needed = false := by
    intro needed _ tok hg
    by_cases hn : needed
    · rw [if_pos hn] at hg
      exact .inl (hg tok List.mem_cons_self)
    · exact .inr (decide_eq_false hn)
  induction t with
  | var v =>
      obtain ⟨henum, hnull⟩ := h.vars v List.mem_cons_self
      exact name_eq (hfound v List.mem_cons_self) henum hnull
  | const c => rfl
  | bin op lhs rhs ihl ihr =>
      have hl := ihl (fun v hv => hfound v (List.mem_append_left _ hv)) ⟨fun v hv => h.vars v (List.mem_append_left _ hv),
        fun g hg => h.groups g (List.mem_append_left _ (List.mem_append_right _ hg))⟩
      have hr := ihr (fun v hv => hfound v (List.mem_append_right _ hv)) ⟨fun v hv => h.vars v (List.mem_append_right _ hv),
        fun g hg => h.groups g (List.mem_append_right _ (List.mem_append_right _ hg))⟩
      obtain ⟨_, hsamel⟩ := same_node lhs
      obtain ⟨_, hsamer⟩ := same_node rhs
      rw [Tree.read, hl, hr,
        inParens_clear (hgroup fun g hg => h.groups g (List.mem_append_left _ (List.mem_append_left _ hg))) hsamel,
        inParens_clear (hgroup fun g hg => h.groups g (List.mem_append_right _ (List.mem_append_left _ hg))) hsamer]
      rfl
  | cond c then_ els ihc iht ihe =>
      have hc := ihc (fun v hv => hfound v (List.mem_append_left _ hv)) ⟨fun v hv => h.vars v (List.mem_append_left _ hv),
        fun g hg => h.groups g (List.mem_append_left _ (List.mem_append_right _ hg))⟩
      have ht := iht (fun v hv => hfound v (List.mem_append_right _ (List.mem_append_left _ hv)))
        ⟨fun v hv => h.vars v (List.mem_append_right _ (List.mem_append_left _ hv)),
          fun g hg => h.groups g (List.mem_append_right _ (List.mem_append_left _ hg))⟩
      have he := ihe (fun v hv => hfound v (List.mem_append_right _ (List.mem_append_right _ hv)))
        ⟨fun v hv => h.vars v (List.mem_append_right _ (List.mem_append_right _ hv)),
          fun g hg => h.groups g (List.mem_append_right _ (List.mem_append_right _ (List.mem_append_right _ hg)))⟩
      obtain ⟨_, hsamec⟩ := same_node c
      obtain ⟨_, hsamee⟩ := same_node els
      rw [Tree.read, hc, ht, he,
        inParens_clear (hgroup fun g hg => h.groups g (List.mem_append_left _ (List.mem_append_left _ hg))) hsamec,
        inParens_clear (hgroup fun g hg => h.groups g
          (List.mem_append_right _ (List.mem_append_right _ (List.mem_append_left _ hg)))) hsamee]
      rfl

/-- How many variables a tree has. -/
def lvars {τ : Type} : Node τ → Nat
  | .lvar _ => 1
  | .link node next => lvars node + lvars next
  | .bin _ lhs rhs _ => lvars lhs + lvars rhs
  | .cond c then_ els _ | .ifStmt c then_ els => lvars c + lvars then_ + lvars els
  | .un _ lhs _ | .cast lhs _ | .member lhs _ _ | .ret lhs | .exprStmt lhs => lvars lhs
  | .funcall _ args _ => lvars args
  | .block body => lvars body
  | .other kids => lvars kids
  | .null | .num _ _ | .fnum _ | .str _ => 0

theorem lvars_map {σ τ : Type} (f : σ → τ) (node : Node σ) : lvars (node.map f) = lvars node := by
  induction node with
  | null | num _ _ | fnum _ | str _ | lvar _ => rfl
  | link node next ihn ihx => rw [Node.map, lvars, lvars, ihn, ihx]
  | bin kind lhs rhs ty ihl ihr => rw [Node.map, lvars, lvars, ihl, ihr]
  | un kind lhs ty ih | member lhs m ty ih | cast lhs ty ih | funcall f args ty ih | ret lhs ih | block body ih
  | exprStmt lhs ih | other kids ih => rw [Node.map, lvars, lvars, ih]
  | cond c then_ els ty ihc iht ihe => rw [Node.map, lvars, lvars, ihc, iht, ihe]
  | ifStmt c then_ els ihc iht ihe => rw [Node.map, lvars, lvars, ihc, iht, ihe]

theorem lvars_castOperand (ty : Ty) (node : Node Ty) : lvars (castOperand ty node) = lvars node := by
  rw [castOperand]
  split
  · split <;> rfl
  · split
    · split <;> rfl
    · rfl

theorem lvars_scaleIndex (index : Node Ty) (size : Nat) : lvars (scaleIndex index size) = lvars index := by
  rw [scaleIndex]
  split <;> rfl

theorem lvars_typeBin (kind : BinKind) (lhs rhs : Node Ty) : lvars (typeBin kind lhs rhs) = lvars lhs + lvars rhs := by
  have harith : ∀ k common ty, lvars (arithNode k lhs rhs common ty) = lvars lhs + lvars rhs := fun k common ty => by
    rw [arithNode, lvars, lvars_castOperand, lvars_castOperand]
  cases kind with
  | add | sub =>
      show lvars (typeAddSub _ lhs rhs) = _
      rw [typeAddSub]
      split
      · exact harith _ _ _
      · split
        · split
          · rw [lvars, lvars_scaleIndex]
          · rfl
        · split
          · split
            · rfl
            · rw [lvars, lvars_scaleIndex, Nat.add_comm]
          · rfl
        · rfl
  | eq | ne | lt | le =>
      show lvars (typeCompare _ lhs rhs) = _
      rw [typeCompare]
      split
      · exact harith _ _ _
      · rfl
  | mul | div | mod | bitand | bitxor | bitor => exact harith _ _ _
  | assign =>
      show lvars (typeAssign lhs rhs) = _
      rw [typeAssign, lvars]
      split <;> rfl
  | shl | shr | logand | logor | comma => rfl

theorem lvars_check {node' : Built} (h : check node = some node') : lvars node' = lvars node := by
  induction node generalizing node' with
  | bin kind lhs rhs ty ihl ihr =>
      cases ty with
      | some ty => rw [← Option.some_inj.mp h]
      | none =>
          obtain ⟨l, hl, h⟩ := Option.bind_eq_some_iff.mp h
          obtain ⟨r, hr, h⟩ := Option.bind_eq_some_iff.mp h
          rw [← Option.some_inj.mp h, lvars_map, lvars_typeBin, Built.types, Built.types, lvars_map, lvars_map, ihl hl, ihr hr]
          rfl
  | un kind lhs ty ih =>
      cases ty with
      | some ty => rw [← Option.some_inj.mp h]
      | none =>
          obtain ⟨l, hl, h⟩ := Option.bind_eq_some_iff.mp h
          obtain ⟨u, hu, h⟩ := Option.bind_eq_some_iff.mp h
          have hun : lvars u = lvars (Built.types l) := by
            cases kind with
            | deref =>
                obtain ⟨ty, _, rfl⟩ := Option.map_eq_some_iff.mp hu
                rfl
            | neg | not | bitnot | addr | postInc | postDec | sizeof =>
                rw [← Option.some_inj.mp hu]
                rfl
          rw [← Option.some_inj.mp h, lvars_map, hun, Built.types, lvars_map, ih hl]
          rfl
  | cond c then_ els ty ihc iht ihe =>
      cases ty with
      | some ty => rw [← Option.some_inj.mp h]
      | none =>
          obtain ⟨c', hc, h⟩ := Option.bind_eq_some_iff.mp h
          obtain ⟨m, ht, h⟩ := Option.bind_eq_some_iff.mp h
          obtain ⟨e, he, h⟩ := Option.bind_eq_some_iff.mp h
          rw [← Option.some_inj.mp h, lvars, ihc hc, iht ht, ihe he]
          rfl
  | null | num _ _ | fnum _ | str _ | lvar _ | link _ _ _ _ | cast _ _ _ | member _ _ _ _ | funcall _ _ _ _ | ret _ _
  | ifStmt _ _ _ _ _ _ | block _ _ | exprStmt _ _ | other _ _ => rw [← Option.some_inj.mp h]

theorem inParens_some {needed : Prop} [Decidable needed] {r : Option Built} (h : inParens s needed tok r = some node) :
    (∀ g ∈ (if needed then [tok] else []), isTypename s g = false) ∧ ∃ m, r = some m ∧ lvars node = lvars m := by
  by_cases hn : needed
  · rw [decide_eq_true hn, inParens, if_pos rfl] at h
    obtain ⟨htype, h⟩ := Option.ite_none_left_eq_some.mp h
    obtain ⟨m, hm, hcheck⟩ := Option.bind_eq_some_iff.mp h
    refine ⟨fun g hg => ?_, m, hm, lvars_check hcheck⟩
    rw [if_pos hn, List.mem_singleton] at hg
    rw [hg]
    exact eq_false_of_ne_true htype
  · rw [decide_eq_false hn] at h
    rw [if_neg hn]
    exact ⟨fun g hg => absurd hg List.not_mem_nil, node, h, rfl⟩

/-- The parser takes it for a variable. -/
def takes (s : Names) (v : LVar) : Bool := (s.findEnumConst v.name).isNone && v.name ≠ "NULL"

theorem lvars_name {v : LVar} (h : name s v.name.toList = some node) : lvars node = if takes s v then 1 else 0 := by
  rw [name, String.ofList_toList] at h
  rw [takes]
  split at h
  · next ec henum =>
      rw [henum, ← Option.some_inj.mp h]
      rfl
  · next henum =>
      rw [henum]
      split at h
      · next hnull =>
          rw [← Option.some_inj.mp h, String.toList_inj.mp hnull]
          rfl
      · next hnull =>
          obtain ⟨var, _, rfl⟩ := Option.map_eq_some_iff.mp h
          rw [if_pos]
          · rfl
          · exact decide_eq_true fun heq => hnull (congrArg String.toList heq)

theorem lvars_operator (op : Op) (l r : Built) : lvars (op.node l r none) = lvars l + lvars r := by
  cases op with
  | gt | ge => exact Nat.add_comm _ _
  | mul | div | mod | add | sub | shl | shr | lt | le | eq | ne | bitand | bitxor | bitor | logand | logor | assign
  | comma => rfl

/-- What is read has the variables that the parser takes for such, and nothing in
parentheses looks like a type. -/
theorem read_some (h : t.read s = some node) :
    lvars node = t.vars.countP (takes s) ∧ ∀ g ∈ t.groups, isTypename s g = false := by
  induction t generalizing node with
  | var v =>
      refine ⟨?_, fun g hg => absurd hg List.not_mem_nil⟩
      rw [lvars_name h, Tree.vars, List.countP_singleton]
  | const c =>
      rw [← Option.some_inj.mp h]
      exact ⟨rfl, fun g hg => absurd hg List.not_mem_nil⟩
  | bin op lhs rhs ihl ihr =>
      obtain ⟨l, hl, h⟩ := Option.bind_eq_some_iff.mp h
      obtain ⟨r, hr, rfl⟩ := Option.map_eq_some_iff.mp h
      obtain ⟨hgl, ml, hml, hcl⟩ := inParens_some hl
      obtain ⟨hgr, mr, hmr, hcr⟩ := inParens_some hr
      obtain ⟨hvl, hgl'⟩ := ihl hml
      obtain ⟨hvr, hgr'⟩ := ihr hmr
      refine ⟨by rw [lvars_operator, hcl, hcr, hvl, hvr, Tree.vars, List.countP_append], fun g hg => ?_⟩
      rcases List.mem_append.mp hg with hg | hg
      · exact (List.mem_append.mp hg).elim (hgl g) (hgl' g)
      · exact (List.mem_append.mp hg).elim (hgr g) (hgr' g)
  | cond c then_ els ihc iht ihe =>
      obtain ⟨c', hc, h⟩ := Option.bind_eq_some_iff.mp h
      obtain ⟨m, ht, h⟩ := Option.bind_eq_some_iff.mp h
      obtain ⟨e, he, rfl⟩ := Option.map_eq_some_iff.mp h
      obtain ⟨hgc, mc, hmc, hcc⟩ := inParens_some hc
      obtain ⟨hge, me, hme, hce⟩ := inParens_some he
      obtain ⟨hvc, hgc'⟩ := ihc hmc
      obtain ⟨hvt, hgt⟩ := iht ht
      obtain ⟨hve, hge'⟩ := ihe hme
      refine ⟨?_, fun g hg => ?_⟩
      · rw [lvars, hcc, hce, hvc, hvt, hve, Tree.vars, List.countP_append, List.countP_append, Nat.add_assoc]
      · rcases List.mem_append.mp hg with hg | hg
        · exact (List.mem_append.mp hg).elim (hgc g) (hgc' g)
        · rcases List.mem_append.mp hg with hg | hg
          · exact hgt g hg
          · exact (List.mem_append.mp hg).elim (hge g) (hge' g)

theorem lvars_settle (needed : Bool) (node : Built) : lvars (settle needed node) = lvars node := by
  cases needed with
  | false => rfl
  | true =>
      show lvars ((check node).getD node) = lvars node
      cases h : check node with
      | none => rfl
      | some m => exact lvars_check h

theorem lvars_node (t : Tree) : lvars t.node = t.vars.length := by
  induction t with
  | var v | const c => rfl
  | bin op lhs rhs ihl ihr =>
      rw [Tree.node, lvars_operator, lvars_settle, lvars_settle, ihl, ihr, Tree.vars, List.length_append]
  | cond c then_ els ihc iht ihe =>
      rw [Tree.node, lvars, lvars_settle, lvars_settle, ihc, iht, ihe, Tree.vars, List.length_append, List.length_append,
        Nat.add_assoc]

theorem read_eq_node_iff (hfound : ∀ v ∈ t.vars, s.findVar v.name = some v) : t.read s = some t.node ↔ Clear s t := by
  refine ⟨fun h => ?_, read_clear hfound⟩
  obtain ⟨hvars, hgroups⟩ := read_some h
  rw [lvars_node] at hvars
  refine ⟨fun v hv => ?_, hgroups⟩
  obtain ⟨henum, hnull⟩ := Bool.and_eq_true_iff.mp (List.countP_eq_length.mp hvars.symm v hv)
  exact ⟨Option.isNone_iff_eq_none.mp henum, of_decide_eq_true hnull⟩

end Rcc.Parser

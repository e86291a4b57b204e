import Rcc.Operands
import Rcc.PreprocessFile

/-!
# The arrays of macros

The parameters of a macro are in an array of 32 elements, and the arguments of a call in
two more. Four functions share them. `preprocess_file` puts the parameters in without
counting them. `parse_macro_args` counts the arguments at a comma, where there is room for
one more if there have been fewer than 32, but not at the parenthesis that closes the call.
`expand_text` goes up to the larger number of arguments and parameters, and
`substitute_macro` stays below the number of arguments it is given.

So what matters is how many there are in the text: the definition has an array too small
from the 33rd parameter on, and the call at just 33 arguments, as one more is reported at
the 33rd comma. What other calls do while the arguments are expanded is theirs.
-/

namespace Rcc.Preprocess

open Lexer (Text isspace headIs startswith)
open Macros (Definition)

/-! ## What is touched -/

inductive MacroArray where
  | params | args | rawArgs
deriving DecidableEq

/-- An element that is read or written. -/
abbrev Access := MacroArray × Int

def accesses (array : MacroArray) (from_ count : Nat) : List Access :=
  (List.range' from_ count).map fun i : Nat => (array, (i : Int))

/-- What the loop over the parameters writes, behind `paramLen` of them. -/
def paramWrites : Nat → Nat → Text → List Access
  | 0, _, _ => []
  | n + 1, paramLen, p =>
      if p = [] || headIs (· = ')') p then []
      else
        let q := p.dropWhile isspace
        if startswith q "..." then
          let rest := (q.drop 3).dropWhile isspace
          if headIs (· = ',') rest then paramWrites n paramLen rest.tail else []
        else
          let name := q.takeWhile isIdent2
          let rest := (q.dropWhile isIdent2).dropWhile isspace
          let rest := if headIs (· = ',') rest then rest.tail else rest
          if name = [] then paramWrites n paramLen rest
          else (.params, (paramLen : Int)) :: paramWrites n (paramLen + 1) rest

/-- What `parse_macro_args` writes, in an argument that has begun with `arg`, and the number of
arguments unless it reports an error. -/
def argWrites : Nat → Text → Nat → Nat → Text → List Access × Option Nat
  | 0, _, _, _, _ => ([], none)
  | _ + 1, _, _, _, [] => ([], none)
  | n + 1, arg, argc, depth, c :: p =>
      if isQuote c then argWrites n (arg ++ c :: (literal c p).1) argc depth (literal c p).2
      else if c = '(' then argWrites n (arg ++ [c]) argc (depth + 1) p
      else if c = ')' && depth = 1 then
        if arg = [] && argc = 0 then ([], some 0) else ([(.args, (argc : Int))], some (argc + 1))
      else if c = ')' then argWrites n (arg ++ [c]) argc (depth - 1) p
      else if c = ',' && depth = 1 then
        if maxArgs ≤ argc then ([], none)
        else ((.args, (argc : Int)) :: (argWrites n [] (argc + 1) depth p).1, (argWrites n [] (argc + 1) depth p).2)
      else argWrites n (arg ++ [c]) argc depth p

/-- `va_slot` -/
def vaIndex (d : Definition) : Int := if d.isGnuVariadic then d.params.length - 1 else d.params.length

/-- What `find_param_index` reads. -/
def findAccesses (d : Definition) (name : Text) : List Access :=
  accesses .params 0 (((findParamIndex d name).map (· + 1)).getD d.params.length)

/-- What the loop over the body reads for an item, with so many arguments. -/
def itemAccesses (d : Definition) (argc : Int) : Item → List Access
  | .stringize name =>
      findAccesses d name ++
        match findParamIndex d name with
        | some k => if (k : Int) < argc then [(.rawArgs, (k : Int))] else []
        | none => []
  | .name name =>
      if d.isVariadic && name = vaArgs.toList then if vaIndex d < argc then [(.args, vaIndex d)] else []
      else
        findAccesses d name ++
          match findParamIndex d name with
          | some k => if (k : Int) < argc then [(.args, (k : Int))] else []
          | none => []
  | .pasteVa => if vaIndex d < argc then [(.args, vaIndex d)] else []
  | .literal _ | .paste | .hash | .char _ => []

/-- What `substitute_macro` reads and writes. -/
def substituteAccesses (d : Definition) (argc : Nat) : List Access :=
  if d.isVariadic && d.params.length < argc then
    accesses .args (vaIndex d).toNat (argc - (vaIndex d).toNat) ++ (.args, vaIndex d) ::
      (items d).flatMap (itemAccesses d (vaIndex d + 1))
  else (items d).flatMap (itemAccesses d argc)

/-- What `expand_text` reads and writes once it has the arguments. -/
def expandAccesses (d : Definition) (argc : Nat) : List Access :=
  if ! d.isVariadic && d.params.length < argc then accesses .args 0 argc
  else
    accesses .args 0 argc ++ accesses .rawArgs 0 argc ++
      accesses .args argc (d.params.length - argc) ++ accesses .rawArgs argc (d.params.length - argc) ++
      accesses .args 0 (max argc d.params.length) ++ substituteAccesses d (max argc d.params.length)

/-- What is touched for a call, from behind its parenthesis. -/
def callAccesses (d : Definition) (p : Text) : List Access :=
  (argWrites (p.length + 1) [] 0 1 p).1 ++
    match (argWrites (p.length + 1) [] 0 1 p).2 with
    | some argc => expandAccesses d argc
    | none => []

/-- The element is in its array. -/
def Access.Inside (a : Access) : Prop := 0 ≤ a.2 ∧ a.2 < 32

/-- What `#define` makes of parameters that it has read. -/
def Params.definition (params : Params) : Definition where
  isFunction := true
  isVariadic := params.isVariadic
  isGnuVariadic := params.isVariadic && params.isGnuVariadic
  params := params.params.map String.ofList
  body := String.ofList (trim params.rest)

/-- A definition with this name, from behind its parenthesis on, and a call of the macro, from behind
its parenthesis on: everything that is touched is in its array. -/
def InArrays (name q p : Text) : Prop :=
  (∀ a ∈ paramWrites (q.length + 1) 0 q, Access.Inside a) ∧
    ∀ params, paramsLoop (q.length + 1) [] false false ('(' :: name.reverse) q = some params →
      ∀ a ∈ callAccesses params.definition p, Access.Inside a

/-! ## How many there are -/

/-- The parameters in the text of a definition. -/
def paramNames : Nat → Text → List Text
  | 0, _ => []
  | n + 1, p =>
      if p = [] || headIs (· = ')') p then []
      else
        let q := p.dropWhile isspace
        if startswith q "..." then
          let rest := (q.drop 3).dropWhile isspace
          if headIs (· = ',') rest then paramNames n rest.tail else []
        else
          let name := q.takeWhile isIdent2
          let rest := (q.dropWhile isIdent2).dropWhile isspace
          let rest := if headIs (· = ',') rest then rest.tail else rest
          if name = [] then paramNames n rest else name :: paramNames n rest

/-- The number of arguments in the text of a call, if it is closed: behind `argc` of them, in one that has
begun with `arg`. -/
def argCount : Nat → Text → Nat → Nat → Text → Option Nat
  | 0, _, _, _, _ => none
  | _ + 1, _, _, _, [] => none
  | n + 1, arg, argc, depth, c :: p =>
      if isQuote c then argCount n (arg ++ c :: (literal c p).1) argc depth (literal c p).2
      else if c = '(' then argCount n (arg ++ [c]) argc (depth + 1) p
      else if c = ')' && depth = 1 then some (if arg = [] && argc = 0 then 0 else argc + 1)
      else if c = ')' then argCount n (arg ++ [c]) argc (depth - 1) p
      else if c = ',' && depth = 1 then argCount n [] (argc + 1) depth p
      else argCount n (arg ++ [c]) argc depth p

/-! ## The definition -/

variable {n : Nat} {p q : Text}

theorem mem_accesses {array : MacroArray} {from_ count : Nat} {a : Access} :
    a ∈ accesses array from_ count ↔ ∃ i, from_ ≤ i ∧ i < from_ + count ∧ a = (array, (i : Int)) := by
  rw [accesses, List.mem_map]
  simp only [List.mem_range'_1, and_assoc, eq_comm (a := a)]

theorem accesses_inside {array : MacroArray} {from_ count : Nat} (hcount : 0 < count) :
    (∀ a ∈ accesses array from_ count, Access.Inside a) ↔ from_ + count ≤ 32 := by
  constructor
  · intro h
    have hlast := (h (array, ((from_ + count - 1 : Nat) : Int)) (mem_accesses.mpr ⟨_, by omega, by omega, rfl⟩)).2
    dsimp only at hlast
    omega
  · intro hle a ha
    obtain ⟨i, _, hi, rfl⟩ := mem_accesses.mp ha
    exact ⟨Int.natCast_nonneg i, by dsimp only; omega⟩

theorem accesses_succ (array : MacroArray) (from_ count : Nat) :
    accesses array from_ (count + 1) = (array, (from_ : Int)) :: accesses array (from_ + 1) count := by
  rw [accesses, List.range'_succ, List.map_cons]
  rfl

/-- Every parameter is written behind those before it. -/
theorem paramWrites_eq (n paramLen : Nat) (p : Text) :
    paramWrites n paramLen p = accesses .params paramLen (paramNames n p).length := by
  induction n generalizing paramLen p with
  | zero => rfl
  | succ n ih =>
      rw [paramWrites, paramNames]
      dsimp only
      split
      · rfl
      split
      · split
        · exact ih _ _
        · rfl
      split
      · exact ih _ _
      · rw [List.length_cons, accesses_succ, ih]

/-- The loop over the parameters takes those in the text; a name is before the points of a named variadic. -/
theorem paramsLoop_names {params : List Text} {isVariadic isGnu : Bool} {before : Text} {r : Params}
    (h : paramsLoop n params isVariadic isGnu before p = some r) (hgnu : isGnu = true → params ≠ []) :
    r.params = params ++ paramNames n p ∧ (r.isGnuVariadic = true → r.params ≠ []) := by
  induction n generalizing params isVariadic isGnu before p with
  | zero => cases h
  | succ n ih =>
      rw [paramsLoop] at h
      rw [paramNames]
      dsimp only at h ⊢
      split at h
      · next hend =>
          obtain rfl := Option.some_inj.mp h
          rw [if_pos hend]
          exact ⟨(List.append_nil _).symm, hgnu⟩
      next hend =>
      rw [if_neg hend]
      split at h
      · next hdots =>
          rw [if_pos hdots]
          have hnamed : ∀ b : Bool, (decide (params ≠ []) && b) = true → params ≠ [] := fun b hb =>
            of_decide_eq_true (Bool.and_eq_true_iff.mp hb).1
          split at h
          · next hcomma =>
              rw [if_pos hcomma]
              exact ih h (hnamed _)
          · next hcomma =>
              obtain rfl := Option.some_inj.mp h
              rw [if_neg hcomma]
              exact ⟨(List.append_nil _).symm, hnamed _⟩
      · next hdots =>
          rw [if_neg hdots]
          generalize (p.dropWhile isspace).takeWhile isIdent2 = name at h ⊢
          generalize ((p.dropWhile isspace).dropWhile isIdent2).dropWhile isspace = rest at h ⊢
          have hstep : ∀ before' rest', paramsLoop n (if name = [] then params else params ++ [name]) isVariadic isGnu before' rest' =
              some r → r.params = params ++ (if name = [] then paramNames n rest' else name :: paramNames n rest') ∧
                (r.isGnuVariadic = true → r.params ≠ []) := by
            intro before' rest' hloop
            by_cases hname : name = []
            · rw [if_pos hname] at hloop ⊢
              exact ih hloop hgnu
            · rw [if_neg hname] at hloop ⊢
              have hnext := ih hloop fun _ => List.append_ne_nil_of_right_ne_nil _ (List.cons_ne_nil _ _)
              rw [List.append_assoc] at hnext
              exact hnext
          split at h
          · next hcomma =>
              rw [if_pos hcomma]
              exact hstep _ _ h
          · next hcomma =>
              rw [if_neg hcomma]
              exact hstep _ _ h

theorem argCount_ge {arg : Text} {argc depth k : Nat} (h : argCount n arg argc depth p = some k) :
    argc + 1 ≤ k ∨ (argc = 0 ∧ k = 0) := by
  induction n generalizing arg argc depth p with
  | zero => cases h
  | succ n ih =>
      cases p with
      | nil => cases h
      | cons c p =>
          rw [argCount] at h
          split at h
          · exact ih h
          split at h
          · exact ih h
          split at h
          · split at h
            · next hnone =>
                obtain rfl := Option.some_inj.mp h
                exact .inr ⟨of_decide_eq_true (Bool.and_eq_true_iff.mp hnone).2, rfl⟩
            · obtain rfl := Option.some_inj.mp h
              exact .inl (Nat.le_refl _)
          split at h
          · exact ih h
          split at h
          · rcases ih h with hle | ⟨hzero, _⟩
            · exact .inl (Nat.le_of_succ_le hle)
            · exact absurd hzero (Nat.succ_ne_zero _)
          · exact ih h

/-- The arguments are written one behind the other: all of them, if there are at most 33, or those
before an error is reported. -/
theorem argWrites_eq {arg : Text} {argc depth : Nat} (hargc : argc ≤ 32) :
    (∃ k ≤ 33, argCount n arg argc depth p = some k ∧
      argWrites n arg argc depth p = (accesses .args argc (k - argc), some k)) ∨
      ((∀ k, argCount n arg argc depth p = some k → 33 < k) ∧ (argWrites n arg argc depth p).2 = none ∧
        ∀ a ∈ (argWrites n arg argc depth p).1, Access.Inside a) := by
  induction n generalizing arg argc depth p with
  | zero => exact .inr ⟨(fun k hk => by cases hk), rfl, fun a ha => absurd ha List.not_mem_nil⟩
  | succ n ih =>
      cases p with
      | nil => exact .inr ⟨(fun k hk => by cases hk), rfl, fun a ha => absurd ha List.not_mem_nil⟩
      | cons c p =>
          rw [argCount, argWrites]
          split
          · exact ih hargc
          split
          · exact ih hargc
          split
          · split
            · next hnone =>
                obtain rfl : argc = 0 := of_decide_eq_true (Bool.and_eq_true_iff.mp hnone).2
                exact .inl ⟨0, Nat.zero_le _, rfl, rfl⟩
            · refine .inl ⟨argc + 1, Nat.succ_le_succ hargc, rfl, ?_⟩
              rw [Nat.add_sub_cancel_left]
              rfl
          split
          · exact ih hargc
          split
          · by_cases hfull : maxArgs ≤ argc
            · rw [if_pos hfull]
              refine .inr ⟨fun k hk => ?_, rfl, fun a ha => absurd ha List.not_mem_nil⟩
              have hge : 32 ≤ argc := hfull
              rcases argCount_ge hk with hle | ⟨hzero, _⟩
              · omega
              · exact absurd hzero (Nat.succ_ne_zero _)
            · rw [if_neg hfull]
              have hlt : argc < 32 := Nat.lt_of_not_le hfull
              have hfirst : Access.Inside (.args, (argc : Int)) := ⟨Int.natCast_nonneg _, by dsimp only; omega⟩
              rcases @ih p [] (argc + 1) depth hlt with ⟨k, hk, hcount, hwrites⟩ | ⟨hmany, hnone, hinside⟩
              · refine .inl ⟨k, hk, hcount, ?_⟩
                have hge : argc + 2 ≤ k := by
                  rcases argCount_ge hcount with hle | ⟨hzero, _⟩
                  · exact hle
                  · exact absurd hzero (Nat.succ_ne_zero _)
                have hsub : k - argc = k - (argc + 1) + 1 := by omega
                rw [hwrites, hsub, accesses_succ]
              · exact .inr ⟨hmany, hnone, List.forall_mem_cons.mpr ⟨hfirst, hinside⟩⟩
          · exact ih hargc

/-! ## The call -/

section Call

variable {d : Definition}

theorem inside_of_lt {array : MacroArray} {i : Int} (h0 : 0 ≤ i) (h32 : i < 32) : Access.Inside (array, i) := ⟨h0, h32⟩

theorem accesses_le {array : MacroArray} {from_ count : Nat} (h : from_ + count ≤ 32) :
    ∀ a ∈ accesses array from_ count, Access.Inside a := by
  intro a ha
  obtain ⟨i, _, hi, rfl⟩ := mem_accesses.mp ha
  exact inside_of_lt (Int.natCast_nonneg i) (by omega)

theorem findAccesses_inside (hparams : d.params.length ≤ 32) (name : Text) : ∀ a ∈ findAccesses d name, Access.Inside a := by
  refine accesses_le ?_
  cases h : findParamIndex d name with
  | none => exact (Nat.zero_add _).trans_le hparams
  | some k =>
      have hk := findParamIndex_lt h
      show 0 + (k + 1) ≤ 32
      omega

/-- An element below the number of arguments. -/
theorem below_inside {array : MacroArray} {i argc : Int} (h0 : 0 ≤ i) (hargc : argc ≤ 32) :
    ∀ a ∈ if i < argc then [(array, i)] else [], Access.Inside a := by
  intro a ha
  split at ha
  · next hlt =>
      obtain rfl := List.mem_singleton.mp ha
      exact inside_of_lt h0 (by omega)
  · cases ha

theorem vaIndex_nonneg (hgnu : d.isGnuVariadic = true → d.params ≠ []) : 0 ≤ vaIndex d ∧ vaIndex d ≤ d.params.length := by
  rw [vaIndex]
  split
  · next h =>
      have hpos := List.length_pos_of_ne_nil (hgnu h)
      omega
  · omega

theorem itemAccesses_inside (hgnu : d.isGnuVariadic = true → d.params ≠ []) (hparams : d.params.length ≤ 32) {argc : Int}
    (hargc : argc ≤ 32) (item : Item) : ∀ a ∈ itemAccesses d argc item, Access.Inside a := by
  have hva := vaIndex_nonneg hgnu
  have hparam : ∀ array name, ∀ a ∈ findAccesses d name ++ (match findParamIndex d name with
      | some k => if (k : Int) < argc then [(array, (k : Int))] else []
      | none => []), Access.Inside a := by
    intro array name a ha
    rcases List.mem_append.mp ha with ha | ha
    · exact findAccesses_inside hparams name a ha
    · split at ha
      · exact below_inside (Int.natCast_nonneg _) hargc a ha
      · cases ha
  cases item with
  | stringize name => exact hparam .rawArgs name
  | name name =>
      rw [itemAccesses]
      split
      · exact below_inside hva.1 hargc
      · exact hparam .args name
  | pasteVa => exact below_inside hva.1 hargc
  | literal | paste | hash | char => exact fun a ha => absurd ha List.not_mem_nil

theorem substituteAccesses_inside (hgnu : d.isGnuVariadic = true → d.params ≠ []) (hparams : d.params.length ≤ 32) {argc : Nat}
    (hargc : argc ≤ 32) : ∀ a ∈ substituteAccesses d argc, Access.Inside a := by
  have hva := vaIndex_nonneg hgnu
  have hitems : ∀ {argc : Int}, argc ≤ 32 → ∀ a ∈ (items d).flatMap (itemAccesses d argc), Access.Inside a := by
    intro argc hargc a ha
    obtain ⟨item, _, ha⟩ := List.mem_flatMap.mp ha
    exact itemAccesses_inside hgnu hparams hargc item a ha
  rw [substituteAccesses]
  split
  · next hmerged =>
      have hlt : d.params.length < argc := of_decide_eq_true (Bool.and_eq_true_iff.mp hmerged).2
      intro a ha
      rcases List.mem_append.mp ha with ha | ha
      · exact accesses_le (by omega) a ha
      · rcases List.mem_cons.mp ha with rfl | ha
        · exact inside_of_lt hva.1 (by omega)
        · exact hitems (by omega) a ha
  · exact hitems (by omega)

theorem expandAccesses_inside (hgnu : d.isGnuVariadic = true → d.params ≠ []) (hparams : d.params.length ≤ 32) {argc : Nat}
    (hargc : argc ≤ 32) : ∀ a ∈ expandAccesses d argc, Access.Inside a := by
  rw [expandAccesses]
  split
  · exact accesses_le (by omega)
  · simp only [List.forall_mem_append]
    exact ⟨⟨⟨⟨⟨accesses_le (by omega), accesses_le (by omega)⟩, accesses_le (by omega)⟩, accesses_le (by omega)⟩,
      accesses_le (by omega)⟩, substituteAccesses_inside hgnu hparams (by omega)⟩

end Call

/-- The number of parameters of a definition, from behind its parenthesis on. -/
def paramTotal (q : Text) : Nat := (paramNames (q.length + 1) q).length

/-- The number of arguments of a call, from behind its parenthesis on, if it is closed. -/
def argTotal (p : Text) : Option Nat := argCount (p.length + 1) [] 0 1 p

theorem callAccesses_iff {d : Definition} (hgnu : d.isGnuVariadic = true → d.params ≠ []) (hparams : d.params.length ≤ 32)
    (p : Text) : (∀ a ∈ callAccesses d p, Access.Inside a) ↔ argTotal p ≠ some 33 := by
  rw [callAccesses, argTotal]
  rcases @argWrites_eq (p.length + 1) p [] 0 1 (Nat.zero_le 32) with ⟨k, hk, hcount, hwrites⟩ | ⟨hmany, hnone, hinside⟩
  · rw [hcount, hwrites, List.forall_mem_append]
    constructor
    · intro h heq
      obtain rfl := Option.some_inj.mp heq
      exact absurd ((accesses_inside (by decide)).mp h.1) (by decide)
    · intro hne
      have hlt : k ≤ 32 := by
        have hne : k ≠ 33 := fun heq => hne (congrArg some heq)
        omega
      exact ⟨accesses_le (by omega), expandAccesses_inside hgnu hparams hlt⟩
  · rw [hnone, List.append_nil]
    refine iff_of_true hinside fun heq => ?_
    exact absurd (hmany 33 heq) (Nat.lt_irrefl 33)

theorem macroArgsLoop_count {arg : Text} {args args' : List Text} {depth : Nat} {rest : Text}
    (h : macroArgsLoop n arg args depth p = some (args', rest)) :
    argCount n arg args.length depth p = some args'.length ∧ args'.length ≤ 32 := by
  induction n generalizing arg args depth p with
  | zero => cases h
  | succ n ih =>
      cases p with
      | nil => cases h
      | cons c p =>
          rw [macroArgsLoop] at h
          rw [argCount]
          split at h
          · next hc => exact if_pos hc ▸ ih h
          next hquote =>
          rw [if_neg hquote]
          split at h
          · next hc => exact if_pos hc ▸ ih h
          next hopen =>
          rw [if_neg hopen]
          split at h
          · next hclose =>
              rw [if_pos hclose]
              have hzero : args.length = 0 ↔ args = [] := List.length_eq_zero_iff
              split at h
              · next hnone =>
                  obtain ⟨rfl, _⟩ := Prod.mk.inj (Option.some_inj.mp h)
                  have hnone : (decide (arg = []) && decide (args.length = 0)) = true := by simpa [hzero] using hnone
                  rw [if_pos hnone]
                  exact ⟨rfl, Nat.zero_le 32⟩
              · next hnone =>
                  obtain ⟨hlt, h⟩ := Option.ite_none_right_eq_some.mp h
                  obtain ⟨rfl, _⟩ := Prod.mk.inj (Option.some_inj.mp h)
                  have hnone : ¬ (decide (arg = []) && decide (args.length = 0)) = true := by simpa [hzero] using hnone
                  rw [if_neg hnone, List.length_append, List.length_singleton]
                  exact ⟨rfl, hlt⟩
          next hclose =>
          rw [if_neg hclose]
          split at h
          · next hc => exact if_pos hc ▸ ih h
          next hinner =>
          rw [if_neg hinner]
          split at h
          · next hcomma =>
              rw [if_pos hcomma]
              obtain ⟨_, h⟩ := Option.ite_none_right_eq_some.mp h
              have hnext := ih h
              rw [List.length_append, List.length_singleton] at hnext
              exact hnext
          · next hcomma =>
              rw [if_neg hcomma]
              exact ih h

/-- Where `parse_macro_args` is modelled with a result, nothing outside of the arrays is touched. -/
theorem parseMacroArgs_inside {d : Definition} (hgnu : d.isGnuVariadic = true → d.params ≠ []) (hparams : d.params.length ≤ 32)
    {args : List Text} {rest : Text} (h : parseMacroArgs p = some (args, rest)) : ∀ a ∈ callAccesses d p, Access.Inside a := by
  obtain ⟨hcount, hle⟩ := macroArgsLoop_count h
  refine (callAccesses_iff hgnu hparams p).mpr fun heq => ?_
  have hlength : args.length = 33 := Option.some_inj.mp (hcount.symm.trans heq)
  omega

/-- **The arrays of macros.** For every definition and every call of its macro, whatever is touched is in its
array if and only if the definition has at most 32 parameters and the call, if there is a macro, has not
just 33 arguments. -/
theorem macro_arrays_iff (name q p : Text) : InArrays name q p ↔
    paramTotal q ≤ 32 ∧
      ((paramsLoop (q.length + 1) [] false false ('(' :: name.reverse) q).isSome = true → argTotal p ≠ some 33) := by
  have hdefine : (∀ a ∈ paramWrites (q.length + 1) 0 q, Access.Inside a) ↔ paramTotal q ≤ 32 := by
    rw [paramWrites_eq, paramTotal]
    cases (paramNames (q.length + 1) q).length with
    | zero => exact iff_of_true (fun a ha => absurd ha List.not_mem_nil) (Nat.zero_le 32)
    | succ k =>
        rw [accesses_inside (Nat.zero_lt_succ k), Nat.zero_add]
  rw [InArrays, hdefine]
  refine and_congr_right fun hparams => ?_
  cases hloop : paramsLoop (q.length + 1) [] false false ('(' :: name.reverse) q with
  | none => exact iff_of_true (fun params h => by cases h) fun h => by cases h
  | some params =>
      obtain ⟨hnames, hgnu⟩ := paramsLoop_names hloop fun h => absurd h Bool.false_ne_true
      have hlength : params.definition.params.length ≤ 32 := by
        show (params.params.map String.ofList).length ≤ 32
        rw [List.length_map, hnames]
        exact hparams
      have hnamed : params.definition.isGnuVariadic = true → params.definition.params ≠ [] := by
        intro h hnil
        exact hgnu (Bool.and_eq_true_iff.mp h).2 (List.map_eq_nil_iff.mp hnil)
      rw [← callAccesses_iff hnamed hlength]
      constructor
      · exact fun h _ => h params rfl
      · intro h params' hparams'
        obtain rfl := Option.some_inj.mp hparams'
        exact h rfl

/-- `#define F(...)` and a call with 33 arguments, all empty. -/
theorem arguments_out_of_array : ¬ InArrays ['F'] "...)".toList (List.replicate 32 ',' ++ [')']) := by
  intro h
  have hwrite : (.args, 32) ∈ callAccesses ⟨true, true, false, [], ""⟩ (List.replicate 32 ',' ++ [')']) := by
    rw [callAccesses]
    exact List.mem_append_left _ (by decide)
  exact absurd (h.2 ⟨[], true, false, []⟩ rfl _ hwrite).2 (by decide)

end Rcc.Preprocess

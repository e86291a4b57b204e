import Mathlib
import Rcc.Symbols

/-!
# The symbols that the linker gets

What happens to the variable of a name, and the functions that are made with it, is told by the declarations of that name alone (`Entry.run_entry`), and
`codegen` prints for a name what its variable and functions ask for (`Entry.Of.symbol_codegen`). So the symbol of a name depends on its own declarations,
and what these leave in the variable is compared with the linkage that the standard gives to the name.
-/

namespace Rcc.Symbols

variable {I : Type*}

/-! ## One name -/

def Event.mentions (x : String) : Event I → Bool
  | .object y _ _ | .function y _ _ | .blockObject y | .blockFunction y _ => y = x
  | _ => false

/-- The declarations of a name. -/
def mentions (x : String) (events : List (Event I)) : List (Event I) := events.filter (Event.mentions x)

/-- The variable of a name, and the functions with a body. -/
structure Entry (I : Type*) where
  var : Option (LVar I) := none
  fns : List Function := []

namespace Entry

/-- The variable is changed, or there is a new one. -/
def register (new : LVar I) (change : LVar I → LVar I) (n : Entry I) : Entry I := { n with var := some (n.var.elim new change) }

def step (x : String) (n : Entry I) : Event I → Entry I
  | .object _ attr init => n.register (({ name := .ident x } : LVar I).declare attr init) (LVar.declare attr init)
  | .function _ attr body =>
      let n := n.register (.function x attr) (LVar.redeclare attr)
      { n with fns := n.fns ++ if body then (n.var.map (LVar.define x attr)).toList else [] }
  | .blockObject _ => n.register { name := .ident x, isExtern := true } id
  | .blockFunction _ isWeak =>
      n.register { name := .ident x, isExtern := true, isFunction := true, isWeak := isWeak }
        fun var => { var with isWeak := var.isWeak || isWeak }
  | _ => n

/-- All there is of the name. -/
structure Of (x : String) (s : State I) (n : Entry I) : Prop where
  globals : s.globals.filter (fun var => var.name = .ident x) = n.var.toList
  items : s.items.filter (fun fn => fn.name = x) = n.fns

end Entry

theorem filter_update_same {name : Name} {f : LVar I → LVar I} (hf : ∀ var, (f var).name = var.name) {globals : List (LVar I)} {var : LVar I}
    (h : globals.filter (fun v => v.name = name) = [var]) : (update name f globals).filter (fun v => v.name = name) = [f var] := by
  induction globals with
  | nil => cases h
  | cons v globals ih =>
      by_cases hv : v.name = name
      · simp_all [update]
      · simp_all [update]

theorem filter_update_other {name other : Name} (hne : name ≠ other) {f : LVar I → LVar I} (hf : ∀ var, (f var).name = var.name)
    (globals : List (LVar I)) :
    (update name f globals).filter (fun v => v.name = other) = globals.filter (fun v => v.name = other) := by
  induction globals with
  | nil => rfl
  | cons v globals ih =>
      by_cases hv : v.name = name
      · simp_all [update]
      · simp_all [update, List.filter_cons]

theorem findGlobalName_eq {name : Name} {globals : List (LVar I)} {var : Option (LVar I)}
    (h : globals.filter (fun v => v.name = name) = var.toList) : findGlobalName name globals = var := by
  rw [findGlobalName, ← List.head?_filter, h]
  cases var <;> rfl

section

variable {name : Name} {new : LVar I} {change : LVar I → LVar I}

/-- A variable is changed in its place. -/
theorem filter_register (hnew : new.name = name) (hchange : ∀ var, (change var).name = var.name) {globals : List (LVar I)}
    {var : Option (LVar I)} (h : globals.filter (fun v => v.name = name) = var.toList) :
    (register new change globals).filter (fun v => v.name = name) = [var.elim new change] := by
  subst hnew
  rw [register, findGlobalName_eq h]
  cases var with
  | none => simpa using h
  | some var => exact filter_update_same hchange h

theorem filter_register_other (hnew : new.name ≠ name) (hchange : ∀ var, (change var).name = var.name) (globals : List (LVar I)) :
    (register new change globals).filter (fun v => v.name = name) = globals.filter fun v => v.name = name := by
  unfold register
  split
  · exact filter_update_other hnew hchange globals
  · simp [hnew]

end

namespace Entry

variable {x : String} {s : State I} {n : Entry I}

theorem Of.register (h : Of x s n) (new : LVar I) (change : LVar I → LVar I) (hnew : new.name = .ident x) (hchange : ∀ var, (change var).name = var.name) :
    Of x { s with globals := Symbols.register new change s.globals } (n.register new change) :=
  ⟨filter_register hnew hchange h.globals, h.items⟩

theorem Of.register_other (h : Of x s n) (new : LVar I) (change : LVar I → LVar I) (hnew : new.name ≠ .ident x) (hchange : ∀ var, (change var).name = var.name) :
    Of x { s with globals := Symbols.register new change s.globals } n :=
  ⟨(filter_register_other hnew hchange s.globals).trans h.globals, h.items⟩

theorem Of.push (h : Of x s n) (new : LVar I) (hnew : new.name ≠ .ident x) : Of x { s with globals := new :: s.globals } n :=
  ⟨by simp [hnew, h.globals], h.items⟩

/-- One event. -/
theorem Of.step (h : Of x s n) (e : Event I) : Of x (s.step e) (if e.mentions x then n.step x e else n) := by
  cases e with
  | object y attr init =>
      by_cases hy : y = x
      · subst hy
        simpa [State.step, Event.mentions, Entry.step] using h.register (LVar.declare attr init { name := .ident y }) (LVar.declare attr init) rfl fun _ => rfl
      · simpa [State.step, Event.mentions, hy] using
          h.register_other (LVar.declare attr init { name := .ident y }) (LVar.declare attr init) (by simp [LVar.declare, hy])
            fun _ => rfl
  | function y attr body =>
      by_cases hy : y = x
      · subst hy
        have hvar : Of y { s with globals := Symbols.register (.function y attr) (LVar.redeclare attr) s.globals }
            (n.register (.function y attr) (LVar.redeclare attr)) := h.register _ _ rfl fun _ => rfl
        refine ⟨by simpa [State.step, Event.mentions, Entry.step] using hvar.globals, ?_⟩
        have hfind := findGlobalName_eq hvar.globals
        cases body with
        | false => simpa [State.step, Event.mentions, Entry.step, defined] using hvar.items
        | true =>
            have hitems := hvar.items
            simp [State.step, Event.mentions, Entry.step, defined, hfind, Entry.register, LVar.define] at hitems ⊢
            exact hitems
      · have hother := h.register_other (.function y attr) (LVar.redeclare attr) (by simp [LVar.function, hy]) fun _ => rfl
        refine ⟨by simpa [State.step, Event.mentions, hy] using hother.globals, ?_⟩
        have hdefined : (defined y attr body (Symbols.register (.function y attr) (LVar.redeclare attr) s.globals)).filter
            (fun fn => fn.name = x) = [] := by
          refine List.filter_eq_nil_iff.mpr fun fn hfn => ?_
          cases body with
          | false => simp [defined] at hfn
          | true =>
              simp only [defined, if_true, Option.mem_toList, Option.map_eq_some_iff] at hfn
              obtain ⟨sym, -, rfl⟩ := hfn
              simp [LVar.define, hy]
        simpa [State.step, Event.mentions, hy, hdefined] using h.items
  | blockObject y =>
      by_cases hy : y = x
      · subst hy
        simpa [State.step, Event.mentions, Entry.step] using
          h.register { name := .ident y, isExtern := true } id rfl fun _ => rfl
      · simpa [State.step, Event.mentions, hy] using
          h.register_other { name := .ident y, isExtern := true } id (by simp [hy]) fun _ => rfl
  | blockFunction y isWeak =>
      by_cases hy : y = x
      · subst hy
        simpa [State.step, Event.mentions, Entry.step] using
          h.register { name := .ident y, isExtern := true, isFunction := true, isWeak := isWeak }
            (fun var => { var with isWeak := var.isWeak || isWeak }) rfl fun _ => rfl
      · simpa [State.step, Event.mentions, hy] using
          h.register_other { name := .ident y, isExtern := true, isFunction := true, isWeak := isWeak }
            (fun var => { var with isWeak := var.isWeak || isWeak }) (by simp [hy]) fun _ => rfl
  | staticLocal init =>
      have hpush := h.push { name := .static s.staticLocalCounter, isStatic := true, init := init } (by simp)
      exact ⟨hpush.globals, hpush.items⟩
  | anonymous place init =>
      have hpush := h.push { name := .anon (s.anonCount place), init := some init } (by simp)
      exact ⟨hpush.globals, hpush.items⟩

/-- The declarations of a name alone make what there is of it. -/
theorem run_entry (x : String) (events : List (Event I)) : Of x (State.run events) ((mentions x events).foldl (Entry.step x) {}) := by
  have hrun : ∀ (events : List (Event I)) (s : State I) (n : Entry I), Of x s n →
      Of x (events.foldl State.step s) ((mentions x events).foldl (Entry.step x) n) := by
    intro events
    induction events with
    | nil => exact fun s n h => h
    | cons e events ih =>
        intro s n h
        have hstep := h.step e
        cases he : e.mentions x with
        | false =>
            simp only [he, Bool.false_eq_true, if_false] at hstep
            simpa [mentions, he] using ih _ _ hstep
        | true =>
            simp only [he, if_true] at hstep
            simpa [mentions, he] using ih _ _ hstep
  exact hrun events {} {} ⟨rfl, rfl⟩

end Entry

/-! ## What is printed for a name -/

/-- Of the objects with a name, the first that has data. -/
theorem filter_printed (name : Name) (globals : List (LVar I)) (emitted : List Name) :
    (printed emitted globals).filter (fun v => v.name = name) =
      if name ∈ emitted then []
      else ((globals.filter fun v => v.name = name).filter fun v => !v.isExtern && !v.isFunction).take 1 := by
  induction globals generalizing emitted with
  | nil => simp [printed]
  | cons v globals ih =>
      by_cases hout : v.isExtern || v.isFunction || v.name ∈ emitted
      · rw [printed, if_pos hout, ih]
        by_cases hv : v.name = name
        · subst hv
          by_cases hemitted : v.name ∈ emitted
          · simp [hemitted]
          · have hdata : (!v.isExtern && !v.isFunction) = false := by
              cases hext : v.isExtern <;> cases hfun : v.isFunction <;> simp_all
            simp [hemitted, hdata]
        · simp [hv]
      · rw [printed, if_neg hout]
        simp only [Bool.or_eq_true, decide_eq_true_eq, not_or, Bool.not_eq_true] at hout
        by_cases hv : v.name = name
        · subst hv
          simp [hout, ih]
        · simp [hv, ih, Ne.symm hv]

variable {isAsmReserved : String → Bool}

theorem objectLines_defines (var : LVar I) (x : String) :
    (objectLines isAsmReserved var).any (Line.defines (.ident x)) = decide (var.name = .ident x) := by
  cases hname : var.name with
  | ident y => by_cases hy : isAsmReserved y <;> by_cases hs : var.isStatic <;>
      simp [objectLines, hname, Name.safe, Name.isReserved, hy, hs, Line.defines]
  | _ => by_cases hs : var.isStatic <;> simp [objectLines, hname, Name.safe, Name.isReserved, hs, Line.defines]

theorem objectLines_globl (var : LVar I) (x : String) :
    (objectLines isAsmReserved var).any (Line.isGlobl (.ident x)) = (decide (var.name = .ident x) && !var.isStatic) := by
  by_cases hr : var.name.isReserved isAsmReserved <;> by_cases hs : var.isStatic <;> simp [objectLines, hr, hs, Line.isGlobl]

theorem objectLines_weak (var : LVar I) (x : String) : (objectLines isAsmReserved var).any (Line.isWeak (.ident x)) = false := by
  by_cases hr : var.name.isReserved isAsmReserved <;> by_cases hs : var.isStatic <;> simp [objectLines, hr, hs, Line.isWeak]

theorem functionLines_defines (globals : List (LVar I)) (fn : Function) (x : String) :
    (functionLines isAsmReserved globals fn).any (Line.defines (.ident x)) = decide (fn.name = x) := by
  by_cases hr : isAsmReserved fn.name <;> by_cases hw : fn.isWeak <;> by_cases he : fn.exported globals <;>
    simp [functionLines, Name.safe, hr, hw, he, Line.defines]

theorem functionLines_globl (globals : List (LVar I)) (fn : Function) (x : String) :
    (functionLines isAsmReserved globals fn).any (Line.isGlobl (.ident x)) =
      (decide (fn.name = x) && (!fn.isWeak && fn.exported globals)) := by
  by_cases hr : isAsmReserved fn.name <;> by_cases hw : fn.isWeak <;> by_cases he : fn.exported globals <;>
    simp [functionLines, hr, hw, he, Line.isGlobl]

theorem functionLines_weak (globals : List (LVar I)) (fn : Function) (x : String) :
    (functionLines isAsmReserved globals fn).any (Line.isWeak (.ident x)) = (decide (fn.name = x) && fn.isWeak) := by
  by_cases hr : isAsmReserved fn.name <;> by_cases hw : fn.isWeak <;> by_cases he : fn.exported globals <;>
    simp [functionLines, hr, hw, he, Line.isWeak]

namespace Entry

/-- The object that is printed. -/
def object (n : Entry I) : Option (LVar I) := n.var.filter fun v => !v.isExtern && !v.isFunction

/-- The symbol that is made of what there is of a name. -/
def symbol (n : Entry I) : Option Binding :=
  if n.object.isSome || !n.fns.isEmpty then
    some (if n.fns.any (·.isWeak) then .weak
      else if n.object.any (!·.isStatic) || n.fns.any (fun fn => !fn.isWeak && fn.exported n.var.toList) then .global
      else .local)
  else none

variable {x : String} {s : State I} {n : Entry I}

theorem Of.printed (h : Of x s n) : (printed [] s.globals).filter (fun v => v.name = .ident x) = n.object.toList := by
  rw [filter_printed, h.globals, object]
  cases hvar : n.var with
  | none => simp
  | some var => cases hp : (!var.isExtern && !var.isFunction) <;> simp [hp, Option.filter]

/-- A function looks for its symbol among those with its name. -/
theorem Of.exported (h : Of x s n) {fn : Function} (hfn : fn.name = x) : fn.exported s.globals = fn.exported n.var.toList := by
  have hfind : (s.globals.find? fun g => g.isFunction && g.name = .ident fn.name) =
      n.var.toList.find? fun g => g.isFunction && g.name = .ident fn.name := by
    rw [← List.head?_filter, ← List.head?_filter, ← h.globals, List.filter_filter]
    congr 2
    funext g
    cases g.isFunction <;> simp [hfn]
  simp only [Function.exported, hfind]

/-- `codegen` prints the symbol. -/
theorem Of.symbol_codegen (h : Of x s n) : Symbols.symbol (codegen isAsmReserved s) (.ident x) = n.symbol := by
  have hobjects : ∀ p : LVar I → Bool,
      ((Symbols.printed [] s.globals).any fun v => decide (v.name = .ident x) && p v) = n.object.any p := by
    intro p
    rw [← List.any_filter, h.printed]
    cases n.object <;> simp
  have hfns : ∀ p : Function → Bool, (s.items.any fun fn => decide (fn.name = x) && p fn) = n.fns.any p := by
    intro p
    rw [← List.any_filter, h.items]
  have hexported : (s.items.any fun fn => decide (fn.name = x) && (!fn.isWeak && fn.exported s.globals)) =
      n.fns.any fun fn => !fn.isWeak && fn.exported n.var.toList := by
    rw [← hfns]
    refine List.any_congr rfl fun fn => ?_
    by_cases hfn : fn.name = x
    · rw [h.exported hfn]
    · simp [hfn]
  have hdefines : (codegen isAsmReserved s).any (Line.defines (.ident x)) = (n.object.isSome || !n.fns.isEmpty) := by
    have hobject := hobjects fun _ => true
    have hfn := hfns fun _ => true
    simp only [Bool.and_true] at hobject hfn
    rw [codegen, List.any_append, List.any_flatMap, List.any_flatMap]
    simp only [objectLines_defines, functionLines_defines, hobject, hfn]
    cases n.object <;> cases n.fns <;> simp
  have hweak : (codegen isAsmReserved s).any (Line.isWeak (.ident x)) = n.fns.any (·.isWeak) := by
    rw [codegen, List.any_append, List.any_flatMap, List.any_flatMap]
    simp [objectLines_weak, functionLines_weak, hfns]
  have hglobl : (codegen isAsmReserved s).any (Line.isGlobl (.ident x)) =
      (n.object.any (!·.isStatic) || n.fns.any fun fn => !fn.isWeak && fn.exported n.var.toList) := by
    rw [codegen, List.any_append, List.any_flatMap, List.any_flatMap]
    simp only [objectLines_globl, functionLines_globl, hobjects fun v => !v.isStatic, hexported]
  rw [Symbols.symbol, hdefines, hweak, hglobl, symbol]

end Entry

/-! ## The standard -/

inductive Linkage where
  | internal
  | external
deriving DecidableEq, Repr

namespace Event

def attr : Event I → VarAttr
  | object _ attr _ | function _ attr _ => attr
  | blockObject _ => { isExtern := true }
  | blockFunction _ isWeak => { isWeak := isWeak }
  | _ => {}

def atFileScope : Event I → Bool
  | object .. | function .. => true
  | _ => false

def ofFunction : Event I → Bool
  | function .. | blockFunction .. => true
  | _ => false

def hasBody : Event I → Bool
  | function _ _ body => body
  | _ => false

/-- A definition, for an object at least a tentative one. -/
def defines : Event I → Bool
  | object _ attr init => !attr.isExtern || init.isSome
  | function _ _ body => body
  | _ => false

/-- The linkage that a declaration gives to its name, when there is one already that is visible or not. -/
def linkage (prior : Option Linkage) : Event I → Linkage
  | object _ attr _ => if attr.isStatic then .internal else if attr.isExtern then prior.getD .external else .external
  | function _ attr _ => if attr.isStatic then .internal else prior.getD .external
  | _ => prior.getD .external

end Event

/-- The linkage of a name with these declarations. -/
def linkageOf (ms : List (Event I)) : Option Linkage := ms.head?.map (Event.linkage none)

/-- Whether all declarations of a function at file scope are `inline`, without `extern`. Its body is then no external definition. -/
def inlineOnly (ms : List (Event I)) : Bool := ms.all fun e => !e.atFileScope || e.attr.isInline && !e.attr.isExtern

def anyWeak (ms : List (Event I)) : Bool := ms.any fun e => e.attr.isWeak

/-- What the standard wants of the declarations of one name. A function that is `inline` in all of them is not weak. -/
structure Valid (ms : List (Event I)) : Prop where
  linkage : ∀ l, linkageOf ms = some l → ∀ e ∈ ms, e.linkage (some l) = l
  kind : (∀ e ∈ ms, e.ofFunction = true) ∨ ∀ e ∈ ms, e.ofFunction = false
  storage : ∀ e ∈ ms, ¬ (e.attr.isStatic = true ∧ e.attr.isExtern = true)
  inline : ∀ e ∈ ms, e.attr.isInline = true → e.ofFunction = true
  once : ms.countP Event.hasBody ≤ 1
  weak : anyWeak ms = true → linkageOf ms = some .external ∧ inlineOnly ms = false

/-- The symbol of a name with these declarations. -/
def expected (ms : List (Event I)) : Option Binding :=
  if ms.any Event.defines then
    some (if linkageOf ms = some .internal || inlineOnly ms then .local else if anyWeak ms then .weak else .global)
  else none

/-! ## What is kept of the declarations -/

/-- The last declaration at file scope is `extern`. -/
def lastExtern (ms : List (Event I)) : Bool := (ms.filter Event.atFileScope).getLast?.any fun e => e.attr.isExtern

def firstInBlock (ms : List (Event I)) : Bool := ms.head?.any fun e => !e.atFileScope

/-- The declarations up to the one with the body. -/
def upToBody : List (Event I) → List (Event I)
  | [] => []
  | e :: ms => if e.hasBody then [e] else e :: upToBody ms

/-- When the symbol of what is defined is right. An object is not declared `extern` behind all other declarations, and not weak. A function is said to be
weak before its body ends, if at all; and if it has no external definition, it is not a block that it is declared in first. -/
def Kept (ms : List (Event I)) : Prop :=
  if ms.any Event.ofFunction then (anyWeak ms = true → anyWeak (upToBody ms) = true) ∧ ¬ (inlineOnly ms = true ∧ firstInBlock ms = true)
  else lastExtern ms = false ∧ anyWeak ms = false

/-! ### Objects -/

/-- What the declarations of an object leave in the variable. -/
structure ObjectVar (ms : List (Event I)) (v : LVar I) : Prop where
  isFunction : v.isFunction = false
  isExtern : v.isExtern = ((ms.filter Event.atFileScope).getLast?.map fun e => e.attr.isExtern).getD true
  isStatic : v.isStatic = (ms.filter Event.atFileScope).getLast?.any fun e => e.attr.isStatic

theorem object_entry (x : String) {ms : List (Event I)} (hx : ∀ e ∈ ms, e.mentions x) (hkind : ∀ e ∈ ms, e.ofFunction = false) :
    (ms.foldl (Entry.step x) {}).fns = [] ∧
      (ms.foldl (Entry.step x) {}).var.elim (ms = []) (ObjectVar ms) := by
  induction ms using List.reverseRecOn with
  | nil => exact ⟨rfl, rfl⟩
  | append_singleton ms e ih =>
      obtain ⟨hfns, hvar⟩ := ih (fun e he => hx e (by simp [he])) fun e he => hkind e (by simp [he])
      rw [List.foldl_append, List.foldl_cons, List.foldl_nil]
      generalize ms.foldl (Entry.step x) {} = n at hfns hvar
      cases e with
      | object y attr init =>
          refine ⟨hfns, ?_⟩
          cases hn : n.var with
          | none =>
              simp only [Entry.step, Entry.register, hn, Option.elim_none, Option.elim_some]
              exact ⟨rfl, by simp [LVar.declare, Event.atFileScope, Event.attr], by simp [LVar.declare, Event.atFileScope, Event.attr]⟩
          | some v =>
              rw [hn] at hvar
              simp only [Entry.step, Entry.register, hn, Option.elim_some]
              exact ⟨hvar.isFunction, by simp [LVar.declare, Event.atFileScope, Event.attr], by simp [LVar.declare, Event.atFileScope, Event.attr]⟩
      | blockObject y =>
          refine ⟨hfns, ?_⟩
          cases hn : n.var with
          | none =>
              rw [hn] at hvar
              cases hvar
              simp only [Entry.step, Entry.register, hn, Option.elim_none, Option.elim_some]
              exact ⟨rfl, by simp [Event.atFileScope], by simp [Event.atFileScope]⟩
          | some v =>
              rw [hn] at hvar
              simp only [Entry.step, Entry.register, hn, Option.elim_some]
              exact ⟨hvar.isFunction, by simpa [Event.atFileScope] using hvar.isExtern, by simpa [Event.atFileScope] using hvar.isStatic⟩
      | function y attr body => simpa [Event.ofFunction] using hkind (.function y attr body) (by simp)
      | blockFunction y isWeak => simpa [Event.ofFunction] using hkind (.blockFunction y isWeak) (by simp)
      | staticLocal init => simpa [Event.mentions] using hx (.staticLocal init) (by simp)
      | anonymous place init => simpa [Event.mentions] using hx (.anonymous place init) (by simp)

theorem linkage_head {ms : List (Event I)} {e : Event I} (h : e ∈ ms) : ∃ l, linkageOf ms = some l := by
  cases ms with
  | nil => cases h
  | cons e ms => exact ⟨_, rfl⟩

/-- What is defined is defined at file scope. -/
theorem defines_atFileScope {e : Event I} (h : e.defines = true) : e.atFileScope = true := by cases e <;> first | rfl | cases h

/-- A declaration of an object that is no `extern` tells the linkage. -/
theorem object_linkage {ms : List (Event I)} (hv : Valid ms) (hkind : ∀ e ∈ ms, e.ofFunction = false) {e : Event I} (he : e ∈ ms)
    (hfile : e.atFileScope = true) (hext : e.attr.isExtern = false) :
    linkageOf ms = some (if e.attr.isStatic then .internal else .external) := by
  obtain ⟨l, hl⟩ := linkage_head he
  have hlinkage := hv.linkage l hl e he
  rw [hl, ← hlinkage]
  cases e with
  | object y attr init =>
      simp only [Event.attr] at hext
      cases hs : attr.isStatic <;> simp [Event.linkage, Event.attr, hext, hs]
  | function y attr body => simpa [Event.ofFunction] using hkind (.function y attr body) he
  | _ => cases hfile

theorem object_symbol_iff {x : String} {ms : List (Event I)} (hv : Valid ms) (hx : ∀ e ∈ ms, e.mentions x)
    (hkind : ∀ e ∈ ms, e.ofFunction = false) :
    (ms.foldl (Entry.step x) {}).symbol = expected ms ↔ (ms.any Event.defines = true → lastExtern ms = false ∧ anyWeak ms = false) := by
  obtain ⟨hfns, hvar⟩ := object_entry x hx hkind
  generalize ms.foldl (Entry.step x) {} = n at hfns hvar
  by_cases hdef : ms.any Event.defines = true
  · obtain ⟨d, hd, hdefines⟩ := List.any_eq_true.mp hdef
    have hfile : ms.filter Event.atFileScope ≠ [] := List.ne_nil_of_mem (List.mem_filter.mpr ⟨hd, defines_atFileScope hdefines⟩)
    obtain ⟨e, hlast⟩ : ∃ e, (ms.filter Event.atFileScope).getLast? = some e := ⟨_, List.getLast?_eq_some_getLast hfile⟩
    obtain ⟨he, hefile⟩ := List.mem_filter.mp (List.mem_of_getLast? hlast)
    have hinline : inlineOnly ms = false := by
      refine List.all_eq_false.mpr ⟨d, hd, ?_⟩
      have hfun := hkind d hd
      have hno : d.attr.isInline = false := by
        by_contra hi
        have hofFunction := hv.inline d hd (by simpa using hi)
        simp [hofFunction] at hfun
      simp [defines_atFileScope hdefines, hno]
    cases hn : n.var with
    | none =>
        rw [hn] at hvar
        cases hvar
        cases hd
    | some v =>
        rw [hn] at hvar
        have hext : v.isExtern = e.attr.isExtern := by simpa [hlast] using hvar.isExtern
        have hstatic : v.isStatic = e.attr.isStatic := by simpa [hlast] using hvar.isStatic
        have hlastExtern : lastExtern ms = e.attr.isExtern := by simp [lastExtern, hlast]
        rw [hlastExtern, expected, if_pos hdef, hinline, Entry.symbol, Entry.object, hn, hfns]
        simp only [hdef, true_implies]
        cases hee : e.attr.isExtern with
        | true => simp [Option.filter, hext, hee]
        | false =>
            have hlinkage := object_linkage hv hkind he hefile hee
            cases hes : e.attr.isStatic with
            | true =>
                have hweak : anyWeak ms = false := by
                  by_contra hw
                  have hexternal := (hv.weak (by simpa using hw)).1
                  rw [hlinkage, hes] at hexternal
                  cases hexternal
                simp [Option.filter, hext, hee, hvar.isFunction, hstatic, hes, hlinkage, hweak]
            | false => cases anyWeak ms <;> simp [Option.filter, hext, hee, hvar.isFunction, hstatic, hes, hlinkage]
  · -- nothing is printed
    have hnone : n.symbol = none := by
      cases hn : n.var with
      | none => simp [Entry.symbol, Entry.object, hn, hfns]
      | some v =>
          rw [hn] at hvar
          have hext : v.isExtern = true := by
            rw [hvar.isExtern]
            cases hlast : (ms.filter Event.atFileScope).getLast? with
            | none => rfl
            | some e =>
                obtain ⟨he, hefile⟩ := List.mem_filter.mp (List.mem_of_getLast? hlast)
                have hno : e.defines = false := by simpa using fun h => hdef (List.any_eq_true.mpr ⟨e, he, h⟩)
                cases e with
                | object y attr init =>
                    simp only [Event.defines, Bool.or_eq_false_iff] at hno
                    simpa [Event.attr] using hno.1
                | function y attr body => simpa [Event.ofFunction] using hkind (.function y attr body) he
                | _ => cases hefile
          simp [Entry.symbol, Entry.object, hn, hfns, Option.filter, hext]
    simp [hnone, expected, hdef]

/-! ### Functions -/

/-- A declaration at file scope without `inline` and `static`. -/
def Event.plain (e : Event I) : Bool := e.atFileScope && (!e.attr.isInline && !e.attr.isStatic)

/-- What the declarations of a function leave in its symbol. -/
structure FunctionVar (x : String) (ms : List (Event I)) (v : LVar I) : Prop where
  name : v.name = .ident x
  isFunction : v.isFunction = true
  isStatic : v.isStatic = ms.any fun e => e.attr.isStatic
  isWeak : v.isWeak = anyWeak ms
  hasInit : v.hasInit = ms.any Event.plain
  isExtern : v.isExtern = (firstInBlock ms || ms.head?.any Event.plain || ms.any fun e => e.attr.isExtern)

theorem head?_snoc {ms : List (Event I)} (h : ms ≠ []) (e : Event I) : (ms ++ [e]).head? = ms.head? := by
  cases ms with
  | nil => exact absurd rfl h
  | cons d ms => rfl

/-- One more declaration of a function. -/
theorem FunctionVar.snoc {x : String} {ms : List (Event I)} (hne : ms ≠ []) {v v' : LVar I} (h : FunctionVar x ms v) {e : Event I}
    (hname : v'.name = v.name) (hfunction : v'.isFunction = v.isFunction) (hstatic : v'.isStatic = (v.isStatic || e.attr.isStatic))
    (hweak : v'.isWeak = (v.isWeak || e.attr.isWeak)) (hinit : v'.hasInit = (v.hasInit || e.plain))
    (hisExtern : v'.isExtern = (v.isExtern || e.attr.isExtern)) : FunctionVar x (ms ++ [e]) v' where
  name := hname.trans h.name
  isFunction := hfunction.trans h.isFunction
  isStatic := by simp [hstatic, h.isStatic]
  isWeak := by simp [hweak, h.isWeak, anyWeak]
  hasInit := by simp [hinit, h.hasInit]
  isExtern := by simp [hisExtern, h.isExtern, firstInBlock, head?_snoc hne, Bool.or_assoc]

theorem function_var {x : String} {ms : List (Event I)} (hne : ms ≠ []) (hx : ∀ e ∈ ms, e.mentions x) (hkind : ∀ e ∈ ms, e.ofFunction = true) :
    ∃ v, (ms.foldl (Entry.step x) {}).var = some v ∧ FunctionVar x ms v := by
  induction ms using List.reverseRecOn with
  | nil => exact absurd rfl hne
  | append_singleton ms e ih =>
      rw [List.foldl_append, List.foldl_cons, List.foldl_nil]
      by_cases hms : ms = []
      · -- a new variable
        subst hms
        cases e with
        | function y attr body =>
            refine ⟨_, rfl, ?_⟩
            constructor <;> simp [LVar.function, anyWeak, firstInBlock, Event.plain, Event.atFileScope, Event.attr, Bool.or_comm]
        | blockFunction y isWeak =>
            refine ⟨_, rfl, ?_⟩
            constructor <;> simp [anyWeak, firstInBlock, Event.plain, Event.atFileScope, Event.attr]
        | object y attr init => simpa [Event.ofFunction] using hkind (.object y attr init) (by simp)
        | blockObject y => simpa [Event.ofFunction] using hkind (.blockObject y) (by simp)
        | staticLocal init => simpa [Event.mentions] using hx (.staticLocal init) (by simp)
        | anonymous place init => simpa [Event.mentions] using hx (.anonymous place init) (by simp)
      · obtain ⟨v, hv, hvar⟩ := ih hms (fun e he => hx e (by simp [he])) fun e he => hkind e (by simp [he])
        generalize ms.foldl (Entry.step x) {} = n at hv
        cases e with
        | function y attr body =>
            refine ⟨v.redeclare attr, by simp [Entry.step, Entry.register, hv], hvar.snoc hms rfl rfl rfl rfl ?_ rfl⟩
            simp [LVar.redeclare, Event.plain, Event.atFileScope, Event.attr]
        | blockFunction y isWeak =>
            refine ⟨{ v with isWeak := v.isWeak || isWeak }, by simp [Entry.step, Entry.register, hv], ?_⟩
            refine hvar.snoc hms rfl rfl ?_ rfl ?_ ?_ <;> simp [Event.attr, Event.plain, Event.atFileScope]
        | object y attr init => simpa [Event.ofFunction] using hkind (.object y attr init) (by simp)
        | blockObject y => simpa [Event.ofFunction] using hkind (.blockObject y) (by simp)
        | staticLocal init => simpa [Event.mentions] using hx (.staticLocal init) (by simp)
        | anonymous place init => simpa [Event.mentions] using hx (.anonymous place init) (by simp)

theorem upToBody_snoc {ms : List (Event I)} (e : Event I) (h : ms.any Event.hasBody = true) : upToBody (ms ++ [e]) = upToBody ms := by
  induction ms with
  | nil => cases h
  | cons d ms ih =>
      simp only [List.cons_append, upToBody]
      cases hd : d.hasBody with
      | true => rfl
      | false =>
          rw [List.any_cons, hd, Bool.false_or] at h
          simp [ih h]

theorem upToBody_new {ms : List (Event I)} {e : Event I} (h : ms.any Event.hasBody = false) : upToBody (ms ++ [e]) = ms ++ [e] := by
  induction ms with
  | nil => cases he : e.hasBody <;> simp [upToBody, he]
  | cons d ms ih => simp_all [upToBody]

/-- A body is registered with what the declarations up to it have left. -/
theorem function_fns {x : String} {ms : List (Event I)} (hx : ∀ e ∈ ms, e.mentions x) (hkind : ∀ e ∈ ms, e.ofFunction = true)
    (honce : ms.countP Event.hasBody ≤ 1) :
    (ms.any Event.hasBody = false → (ms.foldl (Entry.step x) {}).fns = []) ∧
      (ms.any Event.hasBody = true → ∃ d v, (upToBody ms).getLast? = some d ∧ d.hasBody = true ∧ FunctionVar x (upToBody ms) v ∧
        (ms.foldl (Entry.step x) {}).fns = [v.define x d.attr]) := by
  induction ms using List.reverseRecOn with
  | nil => exact ⟨fun _ => rfl, nofun⟩
  | append_singleton ms e ih =>
      have hcount : ms.countP Event.hasBody + (if e.hasBody then 1 else 0) ≤ 1 := by simpa [List.countP_append, List.countP_cons] using honce
      obtain ⟨hnone, hsome⟩ := ih (fun e he => hx e (by simp [he])) (fun e he => hkind e (by simp [he])) (by omega)
      cases hbody : e.hasBody with
      | true =>
          have hfirst : ms.any Event.hasBody = false := by
            simp only [hbody, if_true] at hcount
            have hzero : ms.countP Event.hasBody = 0 := by omega
            simpa [List.countP_eq_zero] using hzero
          refine ⟨fun h => by simp [hbody] at h, fun _ => ?_⟩
          obtain ⟨v, hv, hvar⟩ := function_var (by simp) hx hkind
          refine ⟨e, v, by simp [upToBody_new hfirst], hbody, by rwa [upToBody_new hfirst], ?_⟩
          rw [List.foldl_append, List.foldl_cons, List.foldl_nil] at hv ⊢
          have hfns := hnone hfirst
          cases e with
          | function y attr body =>
              cases hbody
              simp only [Entry.step, if_true] at hv ⊢
              simp [Entry.register, hfns] at hv ⊢
              simp [hv, Event.attr]
          | _ => cases hbody
      | false =>
          have hstep : ((ms ++ [e]).foldl (Entry.step x) {}).fns = (ms.foldl (Entry.step x) {}).fns := by
            rw [List.foldl_append, List.foldl_cons, List.foldl_nil]
            cases e with
            | function y attr body =>
                cases hbody
                simp [Entry.step, Entry.register]
            | _ => rfl
          rw [hstep]
          simp only [List.any_append, List.any_cons, List.any_nil, hbody, Bool.or_false]
          refine ⟨hnone, fun h => ?_⟩
          rw [upToBody_snoc e h]
          exact hsome h

theorem upToBody_sublist (ms : List (Event I)) : (upToBody ms).Sublist ms := by
  induction ms with
  | nil => exact .slnil
  | cons d ms ih =>
      unfold upToBody
      split
      · exact (List.nil_sublist ms).cons_cons d
      · exact ih.cons_cons d

theorem head?_upToBody (ms : List (Event I)) : (upToBody ms).head? = ms.head? := by
  cases ms with
  | nil => rfl
  | cons d ms =>
      unfold upToBody
      split <;> rfl

/-- Is the body exported? -/
theorem exported_define {x : String} {ms up : List (Event I)} {v w : LVar I} (hv : FunctionVar x ms v) (hw : FunctionVar x up w) {d : Event I}
    (hd : d ∈ up) : (w.define x d.attr).exported [v] =
      (!(up.any fun e => e.attr.isStatic) && (!d.attr.isInline || (d.attr.isExtern || up.any Event.plain) ||
        (ms.any Event.plain || v.isExtern && !anyWeak ms))) := by
  have hstatic : (d.attr.isStatic || up.any fun e => e.attr.isStatic) = up.any fun e => e.attr.isStatic := by
    cases hs : d.attr.isStatic with
    | false => simp
    | true => simpa using ⟨d, hd, hs⟩
  have hfind : ([v].find? fun g => g.isFunction && g.name = .ident x) = some v := by simp [hv.isFunction, hv.name]
  simp only [Function.exported, LVar.define, hfind, hstatic, hw.isStatic, hw.hasInit, hv.hasInit, hv.isWeak, Option.any_some]
  cases d.attr.isInline <;> cases (d.attr.isExtern || up.any Event.plain) <;> simp

theorem function_defines {ms : List (Event I)} (hkind : ∀ e ∈ ms, e.ofFunction = true) :
    ms.any Event.defines = ms.any Event.hasBody := by
  rw [Bool.eq_iff_iff, List.any_eq_true, List.any_eq_true]
  refine exists_congr fun e => and_congr_right fun he => ?_
  cases e with
  | object y attr init => simpa [Event.ofFunction] using hkind (.object y attr init) he
  | _ => rfl

/-- A function without internal linkage is not `static` anywhere. -/
theorem static_internal {ms : List (Event I)} (hv : Valid ms) (hkind : ∀ e ∈ ms, e.ofFunction = true) {l : Linkage} (hl : linkageOf ms = some l)
    {e : Event I} (he : e ∈ ms) (hs : e.attr.isStatic = true) : l = .internal := by
  rw [← hv.linkage l hl e he]
  cases e with
  | function y attr body =>
      have hattr : attr.isStatic = true := hs
      simp [Event.linkage, hattr]
  | blockFunction y isWeak => cases hs
  | object y attr init => simpa [Event.ofFunction] using hkind (.object y attr init) he
  | _ => cases hs

theorem internal_static {ms : List (Event I)} (hkind : ∀ e ∈ ms, e.ofFunction = true) (hl : linkageOf ms = some .internal) :
    ∃ e, ms.head? = some e ∧ e.attr.isStatic = true ∧ e.atFileScope = true := by
  cases ms with
  | nil => cases hl
  | cons e ms =>
      refine ⟨e, rfl, ?_⟩
      have hlinkage : e.linkage none = .internal := by simpa [linkageOf] using hl
      cases e with
      | function y attr body => exact ⟨by simpa [Event.linkage, Event.attr] using hlinkage, rfl⟩
      | object y attr init => simpa [Event.ofFunction] using hkind (.object y attr init) (by simp)
      | _ => simp [Event.linkage] at hlinkage

/-- Where `static` stands, nothing is exported. -/
theorem exported_internal {x : String} {ms : List (Event I)} (hkind : ∀ e ∈ ms, e.ofFunction = true) {v w : LVar I} (hv : FunctionVar x ms v)
    (hw : FunctionVar x (upToBody ms) w) {d : Event I} (hd : d ∈ upToBody ms) (hl : linkageOf ms = some .internal) :
    (w.define x d.attr).exported [v] = false := by
  obtain ⟨e, hhead, hs, -⟩ := internal_static hkind hl
  have hstatic : ((upToBody ms).any fun e => e.attr.isStatic) = true :=
    List.any_eq_true.mpr ⟨e, List.mem_of_head? (by rw [head?_upToBody, hhead]), hs⟩
  rw [exported_define hv hw hd, hstatic]
  rfl

section

variable {x : String} {ms : List (Event I)} {v w : LVar I} {d : Event I}

/-- An inline definition is exported if the symbol is from a block. -/
theorem exported_inline (hkind : ∀ e ∈ ms, e.ofFunction = true) (hv : FunctionVar x ms v) (hw : FunctionVar x (upToBody ms) w)
    (hd : d ∈ upToBody ms) (hfile : d.atFileScope = true) (hstatic : ∀ e ∈ ms, e.attr.isStatic = false) (hinline : inlineOnly ms = true)
    (hweak : anyWeak ms = false) : (w.define x d.attr).exported [v] = firstInBlock ms := by
  have hsub := upToBody_sublist ms
  have hall : ∀ e ∈ ms, e.atFileScope = true → e.attr.isInline = true ∧ e.attr.isExtern = false := by
    intro e he hfile
    have hthis := List.all_eq_true.mp hinline e he
    simpa [hfile] using hthis
  have hplain : ∀ e ∈ ms, e.plain = false := by
    intro e he
    cases hfile : e.atFileScope with
    | false => simp [Event.plain, hfile]
    | true => simp [Event.plain, hall e he hfile]
  have hisExtern : ∀ e ∈ ms, e.attr.isExtern = false := by
    intro e he
    cases e with
    | function y attr body => exact (hall _ he rfl).2
    | blockFunction y isWeak => rfl
    | object y attr init => simpa [Event.ofFunction] using hkind (.object y attr init) he
    | blockObject y => simpa [Event.ofFunction] using hkind (.blockObject y) he
    | _ => rfl
  have hupStatic : ((upToBody ms).any fun e => e.attr.isStatic) = false :=
    List.any_eq_false.mpr fun e he => by simp [hstatic e (hsub.subset he)]
  have hupPlain : (upToBody ms).any Event.plain = false := List.any_eq_false.mpr fun e he => by simp [hplain e (hsub.subset he)]
  have hmsPlain : ms.any Event.plain = false := List.any_eq_false.mpr fun e he => by simp [hplain e he]
  have hmsExtern : (ms.any fun e => e.attr.isExtern) = false := List.any_eq_false.mpr fun e he => by simp [hisExtern e he]
  have hheadPlain : ms.head?.any Event.plain = false := by
    cases ms with
    | nil => rfl
    | cons e ms => simpa using hplain e (by simp)
  have hexternVar : v.isExtern = firstInBlock ms := by rw [hv.isExtern, hheadPlain, hmsExtern, Bool.or_false, Bool.or_false]
  obtain ⟨hdinline, hdExtern⟩ := hall d (hsub.subset hd) hfile
  rw [exported_define hv hw hd]
  simp [hupStatic, hupPlain, hmsPlain, hexternVar, hdinline, hdExtern, hweak]

/-- A declaration with `extern`, or without `inline`, makes the body visible. -/
theorem exported_visible (hv : FunctionVar x ms v) (hw : FunctionVar x (upToBody ms) w) (hd : d ∈ upToBody ms)
    (hstatic : ∀ e ∈ ms, e.attr.isStatic = false) (hinline : inlineOnly ms = false) (hweak : anyWeak ms = false) :
    (w.define x d.attr).exported [v] = true := by
  have hsub := upToBody_sublist ms
  have hupStatic : ((upToBody ms).any fun e => e.attr.isStatic) = false :=
    List.any_eq_false.mpr fun e he => by simp [hstatic e (hsub.subset he)]
  obtain ⟨e, he, hthis⟩ := List.all_eq_false.mp hinline
  simp only [Bool.not_eq_true, Bool.or_eq_false_iff, Bool.not_eq_false', Bool.and_eq_false_iff] at hthis
  obtain ⟨hfile, hor⟩ := hthis
  have hvisible : (ms.any Event.plain || v.isExtern) = true := by
    rcases hor with hi | hext
    · have hplain : ms.any Event.plain = true := List.any_eq_true.mpr ⟨e, he, by simp [Event.plain, hfile, hi, hstatic e he]⟩
      simp [hplain]
    · have hany : (ms.any fun e => e.attr.isExtern) = true := List.any_eq_true.mpr ⟨e, he, hext⟩
      simp [hv.isExtern, hany]
  rw [exported_define hv hw hd]
  simp only [hweak, Bool.not_false, Bool.and_true, hvisible, Bool.or_true, hupStatic]

/-- `weak` counts up to the body. -/
theorem weak_define (hw : FunctionVar x (upToBody ms) w) (hd : d ∈ upToBody ms) : (w.define x d.attr).isWeak = anyWeak (upToBody ms) := by
  simp only [LVar.define, hw.isWeak]
  cases hs : d.attr.isWeak with
  | false => simp
  | true =>
      have hany : anyWeak (upToBody ms) = true := List.any_eq_true.mpr ⟨d, hd, hs⟩
      simp [hany]

theorem anyWeak_upToBody (h : anyWeak ms = false) : anyWeak (upToBody ms) = false := by
  refine List.any_eq_false.mpr fun e he => ?_
  simpa using List.any_eq_false.mp h e ((upToBody_sublist ms).subset he)

theorem function_symbol_iff (hvalid : Valid ms) (hx : ∀ e ∈ ms, e.mentions x) (hkind : ∀ e ∈ ms, e.ofFunction = true) :
    (ms.foldl (Entry.step x) {}).symbol = expected ms ↔ (ms.any Event.defines = true →
      (anyWeak ms = true → anyWeak (upToBody ms) = true) ∧ ¬ (inlineOnly ms = true ∧ firstInBlock ms = true)) := by
  obtain ⟨hnone, hsome⟩ := function_fns hx hkind hvalid.once
  rw [expected, function_defines hkind]
  by_cases hms : ms = []
  · subst hms
    simp [Entry.symbol, Entry.object]
  obtain ⟨v, hvar, hv⟩ := function_var hms hx hkind
  have hobject : (ms.foldl (Entry.step x) {}).object = none := by simp [Entry.object, hvar, Option.filter, hv.isFunction]
  cases hbody : ms.any Event.hasBody with
  | false => simp [Entry.symbol, hobject, hnone hbody]
  | true =>
      obtain ⟨d, w, hlast, hdbody, hw, hfns⟩ := hsome hbody
      have hd := List.mem_of_getLast? hlast
      have hfile : d.atFileScope = true := by cases d <;> first | rfl | cases hdbody
      obtain ⟨l, hl⟩ := linkage_head ((upToBody_sublist ms).subset hd)
      simp only [Entry.symbol, hobject, hfns, hvar, Option.toList_some, Option.isSome_none, List.isEmpty_cons, Bool.not_false, Bool.or_true, if_true,
        List.any_cons, List.any_nil, Bool.or_false, Option.any_none, Bool.false_or, weak_define hw hd, true_implies, hl, Option.some.injEq]
      cases l with
      | internal =>
          have hno : anyWeak ms = false := by
            by_contra h
            have hexternal := (hvalid.weak (by simpa using h)).1
            rw [hl] at hexternal
            cases hexternal
          obtain ⟨e, hhead, -, hefile⟩ := internal_static hkind hl
          have hfirst : firstInBlock ms = false := by simp [firstInBlock, hhead, hefile]
          simp [hno, anyWeak_upToBody hno, exported_internal hkind hv hw hd hl, hfirst]
      | external =>
          have hstatic : ∀ e ∈ ms, e.attr.isStatic = false := by
            intro e he
            by_contra hs
            cases static_internal hvalid hkind hl he (by simpa using hs)
          cases hinline : inlineOnly ms with
          | true =>
              have hno : anyWeak ms = false := by
                by_contra h
                have hnot := (hvalid.weak (by simpa using h)).2
                rw [hinline] at hnot
                cases hnot
              rw [exported_inline hkind hv hw hd hfile hstatic hinline hno]
              cases hfirst : firstInBlock ms <;> simp [hno, anyWeak_upToBody hno]
          | false =>
              cases hno : anyWeak ms with
              | false => simp [exported_visible hv hw hd hstatic hinline hno, anyWeak_upToBody hno]
              | true =>
                  cases anyWeak (upToBody ms) with
                  | true => simp
                  | false =>
                      simp only [Bool.false_eq_true, if_false]
                      split <;> simp

end

/-! ## All names -/

/-- `int n = 5; extern int n;` -/
def externBehind : List (Event Nat) := [.object "n" {} (some 5), .object "n" { isExtern := true } none]

/-- Of the objects with one label, the first is printed. So all are, if no two have one. -/
theorem printed_names_nodup (globals : List (LVar I)) (emitted : List Name) :
    ((printed emitted globals).map (·.name)).Nodup ∧ ∀ v ∈ printed emitted globals, v.name ∉ emitted := by
  induction globals generalizing emitted with
  | nil => exact ⟨.nil, nofun⟩
  | cons v globals ih =>
      unfold printed
      split
      · exact ih emitted
      · rename_i hout
        obtain ⟨hnodup, hnotin⟩ := ih (v.name :: emitted)
        refine ⟨?_, fun u hu => ?_⟩
        · refine List.nodup_cons.mpr ⟨fun h => ?_, hnodup⟩
          obtain ⟨u, hu, hname⟩ := List.mem_map.mp h
          exact hnotin u hu (by simp [hname])
        · rcases List.mem_cons.mp hu with rfl | hu
          · simp_all
          · exact fun h => hnotin u hu (List.mem_cons_of_mem _ h)

/-- What has data of its own. -/
def LVar.isObject (v : LVar I) : Bool := !v.isExtern && !v.isFunction

theorem printed_eq_filter {globals : List (LVar I)} {emitted : List Name} (hnodup : ((globals.filter LVar.isObject).map (·.name)).Nodup)
    (hnotin : ∀ v ∈ globals.filter LVar.isObject, v.name ∉ emitted) : printed emitted globals = globals.filter LVar.isObject := by
  induction globals generalizing emitted with
  | nil => rfl
  | cons v globals ih =>
      cases hv : v.isObject with
      | false =>
          have hout : (v.isExtern || v.isFunction || decide (v.name ∈ emitted)) = true := by
            cases hext : v.isExtern <;> simp_all [LVar.isObject]
          rw [List.filter_cons, hv] at hnodup hnotin ⊢
          rw [printed, if_pos (by simpa using hout)]
          exact ih hnodup hnotin
      | true =>
          rw [List.filter_cons, hv] at hnodup hnotin ⊢
          obtain ⟨hhead, hnodup⟩ := List.nodup_cons.mp hnodup
          have hnew := hnotin v (by simp)
          simp only [LVar.isObject, Bool.and_eq_true, Bool.not_eq_true'] at hv
          rw [printed, if_neg (by simp [hv, hnew])]
          congr 1
          refine ih hnodup fun u hu => ?_
          simp only [List.mem_cons, not_or]
          exact ⟨fun h => hhead (List.mem_map.mpr ⟨u, hu, h⟩), hnotin u (by simp [hu])⟩

theorem printed_all_iff (globals : List (LVar I)) :
    printed [] globals = globals.filter LVar.isObject ↔ ((globals.filter LVar.isObject).map (·.name)).Nodup :=
  ⟨fun h => h ▸ (printed_names_nodup globals []).1, fun h => printed_eq_filter h (by simp)⟩

/-- How often a label stands in `globals`. -/
def labelled (name : Name) (globals : List (LVar I)) : Nat := (globals.filter fun v => v.name = name).length

/-- How often a number is given, when so many have been. -/
def given (k n : Nat) : Nat := if k < n then 1 else 0

theorem given_succ (k n : Nat) : given k (n + 1) = (decide (n = k)).toNat + given k n := by
  rcases Nat.lt_trichotomy k n with h | h | h
  · simp [given, h, Nat.lt_succ_of_lt h, Nat.ne_of_gt h]
  · simp [given, h]
  · simp [given, Nat.not_lt.mpr (Nat.succ_le_of_lt h), Nat.ne_of_lt h, Nat.not_lt.mpr (Nat.le_of_lt h)]

/-- The labels that have been made so far. -/
structure Numbered (s : State I) : Prop where
  static : ∀ k, labelled (.static k) s.globals = given k s.staticLocalCounter
  anon : ∀ k, labelled (.anon k) s.globals = given k (s.anonCount .inner) + given k (s.anonCount .outer)
  objects : ∀ v ∈ s.globals, (∃ k, v.name = .anon k) → v.isObject = true

theorem labelled_cons (name : Name) (v : LVar I) (globals : List (LVar I)) :
    labelled name (v :: globals) = (decide (v.name = name)).toNat + labelled name globals := by
  by_cases h : v.name = name
  · simp [labelled, h, Nat.add_comm]
  · simp [labelled, h]

theorem Numbered.register {s : State I} (h : Numbered s) (new : LVar I) (change : LVar I → LVar I) (x : String) (hnew : new.name = .ident x)
    (hchange : ∀ v, (change v).name = v.name) (items : List Function) :
    Numbered { s with globals := Symbols.register new change s.globals, items := items } := by
  have hother : ∀ name, (∀ y, name ≠ .ident y) →
      (Symbols.register new change s.globals).filter (fun v => v.name = name) = s.globals.filter fun v => v.name = name :=
    fun name hname => filter_register_other (fun he => hname x (he.symm.trans hnew)) hchange s.globals
  refine ⟨fun k => ?_, fun k => ?_, fun v hv ⟨k, hk⟩ => ?_⟩
  · rw [labelled, hother (.static k) nofun]
    exact h.static k
  · rw [labelled, hother (.anon k) nofun]
    exact h.anon k
  · have hmem : v ∈ (Symbols.register new change s.globals).filter fun v => v.name = .anon k := List.mem_filter.mpr ⟨hv, by simp [hk]⟩
    rw [hother (.anon k) nofun] at hmem
    exact h.objects v (List.mem_of_mem_filter hmem) ⟨k, hk⟩

theorem Numbered.step {s : State I} (h : Numbered s) (e : Event I) : Numbered (s.step e) := by
  cases e with
  | object x attr init => exact h.register (({ name := .ident x } : LVar I).declare attr init) (LVar.declare attr init) x rfl (fun _ => rfl) _
  | function x attr body => exact h.register (.function x attr) (LVar.redeclare attr) x rfl (fun _ => rfl) _
  | blockObject x => exact h.register { name := .ident x, isExtern := true } id x rfl (fun _ => rfl) _
  | blockFunction x isWeak =>
      exact h.register { name := .ident x, isExtern := true, isFunction := true, isWeak := isWeak }
        (fun var => { var with isWeak := var.isWeak || isWeak }) x rfl (fun _ => rfl) _
  | staticLocal init =>
      refine ⟨fun k => ?_, fun k => ?_, fun v hv hk => ?_⟩
      · simp [State.step, labelled_cons, h.static, given_succ]
      · simp [State.step, labelled_cons, h.anon]
      · rcases List.mem_cons.mp hv with rfl | hv
        · rfl
        · exact h.objects v hv hk
  | anonymous place init =>
      refine ⟨fun k => ?_, fun k => ?_, fun v hv hk => ?_⟩
      · simp [State.step, labelled_cons, h.static]
      · cases place with
        | inner => simp [State.step, labelled_cons, h.anon, given_succ, Nat.add_assoc]
        | outer => simp [State.step, labelled_cons, h.anon, given_succ, Nat.add_left_comm]
      · rcases List.mem_cons.mp hv with rfl | hv
        · rfl
        · exact h.objects v hv hk

theorem run_numbered (events : List (Event I)) : Numbered (State.run events) := by
  have hrun : ∀ (events : List (Event I)) (s : State I), Numbered s → Numbered (events.foldl State.step s) := by
    intro events
    induction events with
    | nil => exact fun s h => h
    | cons e events ih => exact fun s h => ih _ (h.step e)
  exact hrun events {} ⟨fun _ => rfl, fun _ => rfl, nofun⟩

def Event.madeAt (place : Place) : Event I → Bool
  | anonymous place' _ => place' = place
  | _ => false

/-- Each place counts its own. -/
theorem run_anonCount (place : Place) (events : List (Event I)) : (State.run events).anonCount place = events.countP (Event.madeAt place) := by
  have hrun : ∀ (events : List (Event I)) (s : State I),
      (events.foldl State.step s).anonCount place = s.anonCount place + events.countP (Event.madeAt place) := by
    intro events
    induction events with
    | nil => exact fun s => rfl
    | cons e events ih =>
        intro s
        rw [List.foldl_cons, ih, List.countP_cons]
        cases e with
        | anonymous place' init =>
            by_cases hp : place' = place
            · subst hp
              simp [State.step, Event.madeAt]
              omega
            · simp [State.step, Event.madeAt, hp, Function.update_of_ne (Ne.symm hp)]
        | _ => rfl
  exact (hrun events {}).trans (Nat.zero_add _)

theorem count_names (name : Name) (globals : List (LVar I)) :
    ((globals.filter LVar.isObject).map (·.name)).count name = globals.countP fun v => decide (v.name = name) && v.isObject := by
  rw [List.count_eq_countP, List.countP_map, List.countP_filter]
  exact List.countP_congr fun v _ => by simp

theorem count_names_le (name : Name) (globals : List (LVar I)) :
    ((globals.filter LVar.isObject).map (·.name)).count name ≤ labelled name globals := by
  rw [count_names, labelled, ← List.countP_eq_length_filter]
  exact List.countP_mono_left fun v _ h => by simp_all

/-- Every compound literal is an object. -/
theorem Numbered.count_anon {s : State I} (h : Numbered s) (k : Nat) :
    ((s.globals.filter LVar.isObject).map (·.name)).count (.anon k) = given k (s.anonCount .inner) + given k (s.anonCount .outer) := by
  rw [← h.anon, count_names, labelled, ← List.countP_eq_length_filter]
  refine List.countP_congr fun v hv => ?_
  have hobject : v.name = .anon k → v.isObject = true := fun hk => h.objects v hv ⟨k, hk⟩
  simpa using hobject

theorem given_le (k n : Nat) : given k n ≤ 1 := by
  unfold given
  split <;> omega

end Rcc.Symbols

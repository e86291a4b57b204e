import Rcc.Names
import Rcc.Steps

/-!
# Scopes of names

The parser comes upon declarations, names, and the beginnings and ends of what has a
scope. What it does then to the four lists is `step`; what the language has at that
place is `Env`, one list of declarations for each scope that is open.

A name is looked for in the lists in a fixed order, typedefs first where a type could
stand, then enumeration constants, then variables. So a declaration hides another one
only if its list comes first. `Allowed` excludes the declarations that do not, and those
that stay in a list beyond their scope; then every name is found where the language has
it, and at the end of a block there are the names of its beginning.
-/

namespace Rcc.Parser

/-! ## What the parser does -/

/-- What has a scope. A selection is an `if`, `while` or `switch` statement, or the
condition of a `do`; the statement in one, or a `do` statement, is a substatement. -/
inductive ScopeKind where
  | compound | forStmt | selection | substatement | params | function
deriving DecidableEq

/-- The lists as they were where a scope began. -/
structure Frame where
  kind : ScopeKind
  saved : Names

structure Scopes where
  names : Names
  frames : List Frame

inductive Act where
  | enter (kind : ScopeKind)
  /-- behind the declarator of a function, with its parameters -/
  | function (params : List LVar)
  | leave
  /-- a declaration in a block, or of a parameter -/
  | auto (var : LVar)
  | static (storage var : LVar)
  | external (gvar var : LVar)
  | param (var : LVar)
  /-- a declaration at file scope -/
  | file (var : LVar)
  | typedef (td : Typedef)
  | enumConst (ec : EnumConst)
  /-- a variable without a name, for a compound literal or a compound assignment -/
  | temporary (var : LVar)
  /-- a name, where a type could stand or not -/
  | occurrence (name : String) (typeFirst : Bool)

/-- The names of variables that are no identifiers are empty or begin with a point. -/
def isName (name : String) : Bool := name.toList.head?.any (· ≠ '.')

namespace Names

def addLocal (s : Names) (var : LVar) : Names := { s with locals := var :: s.locals }

def addGlobal (s : Names) (var : LVar) : Names := { s with globals := var :: s.globals }

def addTypedef (s : Names) (td : Typedef) : Names := { s with typedefs := td :: s.typedefs }

def addEnumConst (s : Names) (ec : EnumConst) : Names := { s with enumConsts := ec :: s.enumConsts }

/-- `find_global_name` -/
def findGlobalName (s : Names) (name : String) : Option LVar := s.globals.find? fun var => var.name = name

/-- At the end of a scope. -/
def restore (s saved : Names) : ScopeKind → Names
  | .compound | .forStmt =>
      { s with locals := saved.locals, typedefs := saved.typedefs, enumConsts := saved.enumConsts }
  | .selection => { s with enumConsts := saved.enumConsts }
  | .substatement | .params | .function => s

end Names

/-- Declarations are parsed in blocks and in the first clause of a `for`. -/
def ScopeKind.declares : ScopeKind → Bool
  | .compound | .forStmt => true
  | _ => false

namespace Scopes

def inBlock (s : Scopes) : Bool := s.frames.head?.any fun f => f.kind.declares

def inFunction (s : Scopes) : Bool := s.frames.any fun f => f.kind = .function

def set (s : Scopes) (names : Names) : Scopes := { s with names }

end Scopes

/-- There is no result where the parser does not come upon such a thing. -/
def Scopes.step (s : Scopes) : Act → Option Scopes
  | .enter kind =>
      if kind = .params ∨ kind ≠ .function ∧ s.inFunction then some { s with frames := ⟨kind, s.names⟩ :: s.frames } else none
  | .function params =>
      if s.frames = [] ∧ ∀ var ∈ params, isName var.name then
        some ⟨params.foldl Names.addLocal { s.names with locals := [] }, [⟨.function, s.names⟩]⟩
      else none
  | .leave =>
      match s.frames with
      | [] => none
      | f :: fs => some ⟨s.names.restore f.saved f.kind, fs⟩
  | .auto var => if s.inBlock ∧ isName var.name then some (s.set (s.names.addLocal var)) else none
  | .static storage var =>
      if s.inBlock ∧ isName var.name ∧ ¬ isName storage.name then
        some (s.set ((s.names.addGlobal storage).addLocal var))
      else none
  | .external gvar var =>
      if s.inBlock ∧ isName var.name ∧ gvar.name = var.name then
        match s.names.findGlobalName var.name with
        | some _ => some (s.set (s.names.addLocal var))
        | none => some (s.set ((s.names.addGlobal gvar).addLocal var))
      else none
  | .param var =>
      if s.frames.head?.any (fun f => f.kind = .params) ∧ isName var.name then some s else none
  | .file var =>
      if s.frames = [] ∧ isName var.name then
        match s.names.findGlobalName var.name with
        | some _ => some s
        | none => some (s.set (s.names.addGlobal var))
      else none
  | .typedef td =>
      if (s.frames = [] ∨ s.inBlock) ∧ isName td.name then some (s.set (s.names.addTypedef td)) else none
  | .enumConst ec => if isName ec.name then some (s.set (s.names.addEnumConst ec)) else none
  | .temporary var => if ¬ isName var.name then some (s.set (s.names.addLocal var)) else none
  | .occurrence name _ => if isName name then some s else none

/-- A variable or function, an enumeration constant, a typedef, or the 0 for `NULL`. -/
inductive Entity where
  | var (id : Nat)
  | enumConst (ec : EnumConst)
  | typedef (td : Typedef)
  | null
deriving DecidableEq

/-- What the parser takes a name for. -/
def Names.resolve (s : Names) (name : String) (typeFirst : Bool) : Option Entity :=
  match s.findTypedef name, typeFirst with
  | some td, true => some (.typedef td)
  | _, _ =>
      match s.findEnumConst name with
      | some ec => some (.enumConst ec)
      | none => if name = "NULL" then some .null else (s.findVar name).map fun var => .var var.id

/-! ## What the language has -/

/-- A scope and its declarations, the newest first. -/
structure Scope where
  kind : ScopeKind
  entries : List (String × Entity)

structure Env where
  scopes : List Scope
  file : List (String × Entity)

def find (entries : List (String × Entity)) (name : String) : Option Entity :=
  (entries.find? fun p => p.1 = name).map Prod.snd

/-- The innermost declaration that is visible. -/
def visible (file : List (String × Entity)) : List Scope → String → Option Entity
  | [], name => find file name
  | scope :: scopes, name => (find scope.entries name).or (visible file scopes name)

def Env.visible (env : Env) (name : String) : Option Entity := Parser.visible env.file env.scopes name

/-- A declaration in the innermost scope. -/
def Env.declare (env : Env) (name : String) (entity : Entity) : Env :=
  match env.scopes with
  | [] => { env with file := (name, entity) :: env.file }
  | scope :: scopes => { env with scopes := { scope with entries := (name, entity) :: scope.entries } :: scopes }

def Env.after (env : Env) : Act → Env
  | .enter kind => { env with scopes := ⟨kind, []⟩ :: env.scopes }
  | .function params =>
      params.foldl (fun env var => env.declare var.name (.var var.id)) { env with scopes := ⟨.function, []⟩ :: env.scopes }
  | .leave => { env with scopes := env.scopes.tail }
  | .auto var => env.declare var.name (.var var.id)
  | .static _ var => env.declare var.name (.var var.id)
  | .external _ var => env.declare var.name (.var var.id)
  | .param var => env.declare var.name (.var var.id)
  -- the first declaration at file scope stands for the others
  | .file var =>
      match find env.file var.name with
      | some _ => env
      | none => env.declare var.name (.var var.id)
  | .typedef td => env.declare td.name (.typedef td)
  | .enumConst ec => env.declare ec.name (.enumConst ec)
  | .temporary _ => env
  | .occurrence _ _ => env

/-- The parser beside the language. -/
def scopesStep (s : Scopes × Env) (a : Act) : Option (Scopes × Env) :=
  (s.1.step a).map fun names => (names, s.2.after a)

/-! ## Where they agree -/

/-- No typedef and no enumeration constant has the name. -/
def Names.Free (s : Names) (name : String) : Prop := s.findTypedef name = none ∧ s.findEnumConst name = none

/-- A variable has not the name of a typedef or of an enumeration constant, and an
enumeration constant not that of a typedef. A declaration of something external in a
block is not the first one. No enumeration constant is declared among parameters or in a
statement that is no block. A name at file scope is not one of the parameters of the
function before it, and a name among parameters not one of these. -/
def Act.Allowed (s : Scopes × Env) : Act → Prop
  | .auto var => s.1.names.Free var.name
  | .static _ var => s.1.names.Free var.name
  | .external _ var => s.1.names.Free var.name ∧ s.1.names.findGlobalName var.name ≠ none
  | .file var => s.1.names.Free var.name
  | .function params => ∀ var ∈ params, s.1.names.Free var.name
  | .enumConst ec =>
      s.1.names.findTypedef ec.name = none ∧
        ∀ f ∈ s.1.frames.head?, f.kind ≠ .params ∧ f.kind ≠ .substatement ∧ f.kind ≠ .function
  | .occurrence name _ =>
      name ≠ "NULL" ∧ (s.1.inFunction = false → ∀ var ∈ s.1.names.locals, var.name ≠ name) ∧
        ∀ scope ∈ s.2.scopes, scope.kind = .params → find scope.entries name = none
  | _ => True

/-- A name is taken for what is visible, where a typedef stands only where a type can. At
the end of a block or a `for` statement every name is taken for what it was at its
beginning. -/
def Act.Lexical (s : Scopes × Env) : Act → Prop
  | .occurrence name typeFirst =>
      (∀ td, s.2.visible name = some (.typedef td) → typeFirst = true) →
        s.1.names.resolve name typeFirst = s.2.visible name
  | .leave =>
      ∀ f ∈ s.1.frames.head?, f.kind.declares = true → ∀ name typeFirst, isName name = true →
        (s.1.names.restore f.saved f.kind).resolve name typeFirst = f.saved.resolve name typeFirst
  | _ => True

/-- With the typedefs of `init_builtins`, `wchar_t` and `iconv_t`. -/
def scopesStart : Scopes × Env :=
  let wchar : Typedef := ⟨"wchar_t", tyUint⟩
  let iconv : Typedef := ⟨"iconv_t", pointerTo tyVoid⟩
  (⟨⟨[], [], [iconv, wchar], []⟩, []⟩, ⟨[], [("iconv_t", .typedef iconv), ("wchar_t", .typedef wchar)]⟩)

/-! ## The invariant -/

variable {s s' saved : Names} {fs : List Frame} {scopes : List Scope} {file : List (String × Entity)} {name : String}

/-- The search for a name gives what is visible, in whatever place. -/
def Matches (s : Names) (name : String) : Option Entity → Prop
  | none => s.findTypedef name = none ∧ s.findEnumConst name = none ∧ s.findVar name = none
  | some (.var id) => s.Free name ∧ (s.findVar name).map LVar.id = some id
  | some (.enumConst ec) => s.findTypedef name = none ∧ s.findEnumConst name = some ec
  | some (.typedef td) => s.findTypedef name = some td
  | some .null => False

/-- All names match, those among parameters apart. -/
def Agree (file : List (String × Entity)) (s : Names) (scopes : List Scope) : Prop :=
  ∀ name, isName name = true → Matches s name (visible file (scopes.filter fun scope => scope.kind ≠ .params) name)

/-- The searches in all lists but that of the local variables. -/
structure Alike (s s' : Names) : Prop where
  globals : ∀ name, isName name = true → s.findGlobalName name = s'.findGlobalName name
  typedefs : ∀ name, isName name = true → s.findTypedef name = s'.findTypedef name
  enumConsts : ∀ name, isName name = true → s.findEnumConst name = s'.findEnumConst name

def SameLocals (s s' : Names) : Prop :=
  ∀ name, isName name = true → (s.locals.find? fun var => var.name = name) = s'.locals.find? fun var => var.name = name

/-- What the end of a scope will leave of the lists is as it was at its beginning. -/
def Kept (kind : ScopeKind) (s saved : Names) : Prop :=
  Alike (s.restore saved kind) saved ∧ (kind ≠ .function → SameLocals (s.restore saved kind) saved)

/-- The names that can be looked for: behind a function its parameters are still there. -/
def basis (s : Names) (fs : List Frame) : Names :=
  if fs.any fun f => f.kind = .function then s else { s with locals := [] }

def Good (file : List (String × Entity)) : Names → List Frame → List Scope → Prop
  | s, [], scopes => scopes = [] ∧ Agree file (basis s []) []
  | s, f :: fs, scopes =>
      ∃ scope rest, scopes = scope :: rest ∧ scope.kind = f.kind ∧ Agree file (basis s (f :: fs)) scopes ∧
        Kept f.kind s f.saved ∧ (f.kind = .function → fs = []) ∧
          (f.kind ≠ .params → ((f :: fs).any fun f => f.kind = .function) = true) ∧ Good file f.saved fs rest

theorem Alike.refl (s : Names) : Alike s s := ⟨fun _ _ => rfl, fun _ _ => rfl, fun _ _ => rfl⟩

theorem Alike.trans {s'' : Names} (h : Alike s s') (h' : Alike s' s'') : Alike s s'' :=
  ⟨fun n hn => (h.globals n hn).trans (h'.globals n hn), fun n hn => (h.typedefs n hn).trans (h'.typedefs n hn),
    fun n hn => (h.enumConsts n hn).trans (h'.enumConsts n hn)⟩

theorem SameLocals.findVar (h : SameLocals s s') (hsame : Alike s s') (hname : isName name = true) :
    s.findVar name = s'.findVar name := by
  rw [Names.findVar, Names.findVar, h name hname]
  exact congrArg _ (hsame.globals name hname)

theorem Alike.matches {e : Option Entity} (h : Alike s s') (hlocals : SameLocals s s') (hname : isName name = true)
    (hm : Matches s' name e) : Matches s name e := by
  have htypedef := h.typedefs name hname
  have henum := h.enumConsts name hname
  have hvar := hlocals.findVar h hname
  cases e with
  | none => exact ⟨htypedef.trans hm.1, henum.trans hm.2.1, hvar.trans hm.2.2⟩
  | some e =>
      cases e with
      | var id => exact ⟨⟨htypedef.trans hm.1.1, henum.trans hm.1.2⟩, (congrArg (Option.map LVar.id) hvar).trans hm.2⟩
      | enumConst ec => exact ⟨htypedef.trans hm.1, henum.trans hm.2⟩
      | typedef td => exact htypedef.trans hm
      | null => exact hm

theorem Agree.same (h : Agree file s' scopes) (hsame : Alike s s') (hlocals : SameLocals s s') : Agree file s scopes :=
  fun name hname => hsame.matches hlocals hname (h name hname)

theorem Alike.restore (h : Alike s s') (saved : Names) (kind : ScopeKind) :
    Alike (s.restore saved kind) (s'.restore saved kind) := by
  cases kind with
  | compound | forStmt => exact ⟨h.globals, fun _ _ => rfl, fun _ _ => rfl⟩
  | selection => exact ⟨h.globals, h.typedefs, fun _ _ => rfl⟩
  | substatement | params | function => exact h

theorem SameLocals.restore (h : SameLocals s s') (saved : Names) (kind : ScopeKind) :
    SameLocals (s.restore saved kind) (s'.restore saved kind) := by
  cases kind with
  | compound | forStmt => exact fun _ _ => rfl
  | selection | substatement | params | function => exact h

theorem Alike.basis (h : Alike s s') (fs : List Frame) : Alike (basis s fs) (basis s' fs) := by
  rw [Parser.basis, Parser.basis]
  split
  · exact h
  · exact ⟨h.globals, h.typedefs, h.enumConsts⟩

theorem SameLocals.basis (h : SameLocals s s') (fs : List Frame) : SameLocals (basis s fs) (basis s' fs) := by
  rw [Parser.basis, Parser.basis]
  split
  · exact h
  · exact fun _ _ => rfl

/-- The searches are all that matters. -/
theorem Good.same (h : Good file s' fs scopes) (hsame : Alike s s') (hlocals : fs ≠ [] → SameLocals s s') :
    Good file s fs scopes := by
  cases fs with
  | nil =>
      obtain ⟨rfl, hagree⟩ := h
      exact ⟨rfl, hagree.same (hsame.basis []) fun _ _ => rfl⟩
  | cons f fs =>
      have hlocals := hlocals (List.cons_ne_nil f fs)
      obtain ⟨scope, rest, rfl, hkind, hagree, hkept, hplace⟩ := h
      exact ⟨scope, rest, rfl, hkind, hagree.same (hsame.basis _) (hlocals.basis _),
        ⟨(hsame.restore _ _).trans hkept.1, fun hf n hn => (hlocals.restore _ _ n hn).trans (hkept.2 hf n hn)⟩, hplace⟩

/-! ## Declarations -/

variable {f : Frame} {scope : Scope} {rest : List Scope} {var : LVar} {n : String} {e : Entity}

/-- The same is found for one name. -/
def SameFor (s s' : Names) (name : String) : Prop :=
  s'.findTypedef name = s.findTypedef name ∧ s'.findEnumConst name = s.findEnumConst name ∧ s'.findVar name = s.findVar name

theorem Matches.sameFor {o : Option Entity} (h : Matches s name o) (hsame : SameFor s s' name) : Matches s' name o := by
  obtain ⟨htypedef, henum, hvar⟩ := hsame
  cases o with
  | none => exact ⟨htypedef.trans h.1, henum.trans h.2.1, hvar.trans h.2.2⟩
  | some e =>
      cases e with
      | var id => exact ⟨⟨htypedef.trans h.1.1, henum.trans h.1.2⟩, (congrArg (Option.map LVar.id) hvar).trans h.2⟩
      | enumConst ec => exact ⟨htypedef.trans h.1, henum.trans h.2⟩
      | typedef td => exact htypedef.trans h
      | null => exact h

theorem find_cons (entries : List (String × Entity)) : find ((n, e) :: entries) name = if n = name then some e else find entries name := by
  rw [find, List.find?_cons]
  by_cases h : n = name
  · rw [decide_eq_true h, if_pos h]
    rfl
  · rw [decide_eq_false h, if_neg h]
    rfl

theorem filter_cons (scope : Scope) (rest : List Scope) (hkind : scope.kind ≠ .params) :
    ((scope :: rest).filter fun scope => scope.kind ≠ .params) = scope :: rest.filter fun scope => scope.kind ≠ .params := by
  have hkeep : (fun scope : Scope => decide (scope.kind ≠ .params)) scope = true := decide_eq_true hkind
  exact List.filter_cons_of_pos hkeep

theorem filter_params (scope : Scope) (rest : List Scope) (hkind : scope.kind = .params) :
    ((scope :: rest).filter fun scope => scope.kind ≠ .params) = rest.filter fun scope => scope.kind ≠ .params := by
  have hdrop : (fun scope : Scope => decide (scope.kind ≠ .params)) scope = false := decide_eq_false (not_not_intro hkind)
  exact List.filter_cons_of_neg (Bool.eq_false_iff.mp hdrop)

/-- The declarations of a list in front of which another one was put. -/
theorem agree_cons (h : Agree file s (scope :: rest)) (hkind : scope.kind ≠ .params) (hnew : Matches s' n (some e))
    (hold : ∀ name, name ≠ n → SameFor s s' name) :
    Agree file s' ({ scope with entries := (n, e) :: scope.entries } :: rest) := by
  intro name hname
  have hvisible : Matches s name ((find scope.entries name).or (visible file (rest.filter fun scope => scope.kind ≠ .params) name)) := by
    have h := h name hname
    rwa [filter_cons scope rest hkind] at h
  rw [filter_cons { scope with entries := (n, e) :: scope.entries } rest hkind, visible, find_cons]
  by_cases hn : n = name
  · subst hn
    rw [if_pos rfl]
    exact hnew
  · rw [if_neg hn]
    exact hvisible.sameFor (hold name fun h => hn h.symm)

theorem agree_cons_file (h : Agree file s []) (hnew : Matches s' n (some e)) (hold : ∀ name, name ≠ n → SameFor s s' name) :
    Agree ((n, e) :: file) s' [] := by
  intro name hname
  have hvisible := h name hname
  show Matches s' name (find ((n, e) :: file) name)
  rw [find_cons]
  by_cases hn : n = name
  · subst hn
    rw [if_pos rfl]
    exact hnew
  · rw [if_neg hn]
    exact hvisible.sameFor (hold name fun h => hn h.symm)

theorem find_var_head (l : List LVar) : ((var :: l).find? fun v => v.name = var.name) = some var := by
  have hhead : (fun v : LVar => decide (v.name = var.name)) var = true := decide_eq_true rfl
  exact List.find?_cons_of_pos hhead

theorem addLocal_new (hfree : s.Free var.name) : Matches (s.addLocal var) var.name (some (.var var.id)) := by
  refine ⟨hfree, ?_⟩
  rw [Names.findVar]
  show Option.map LVar.id (((var :: s.locals).find? fun v => v.name = var.name).or _) = some var.id
  rw [find_var_head]
  rfl

theorem addLocal_old (h : name ≠ var.name) : SameFor s (s.addLocal var) name := by
  refine ⟨rfl, rfl, ?_⟩
  rw [Names.findVar, Names.findVar]
  show ((var :: s.locals).find? fun v => v.name = name).or _ = _
  rw [List.find?_cons_of_neg (by rw [decide_eq_true_eq]; exact fun heq => h heq.symm)]
  rfl

theorem addGlobal_new (hlocals : s.locals = []) (hfree : s.Free var.name) :
    Matches (s.addGlobal var) var.name (some (.var var.id)) := by
  refine ⟨hfree, ?_⟩
  rw [Names.findVar]
  show Option.map LVar.id ((s.locals.find? fun v => v.name = var.name).or
    ((var :: s.globals).find? fun v => v.name = var.name)) = some var.id
  rw [hlocals, find_var_head]
  rfl

theorem addGlobal_old (h : name ≠ var.name) : SameFor s (s.addGlobal var) name := by
  refine ⟨rfl, rfl, ?_⟩
  rw [Names.findVar, Names.findVar]
  show (s.locals.find? fun v => v.name = name).or ((var :: s.globals).find? fun v => v.name = name) = _
  rw [List.find?_cons_of_neg (by rw [decide_eq_true_eq]; exact fun heq => h heq.symm)]

theorem addTypedef_new (s : Names) (td : Typedef) : Matches (s.addTypedef td) td.name (some (.typedef td)) :=
  List.find?_cons_of_pos (decide_eq_true rfl)

theorem addTypedef_old {td : Typedef} (h : name ≠ td.name) : SameFor s (s.addTypedef td) name :=
  ⟨List.find?_cons_of_neg (by rw [decide_eq_true_eq]; exact fun heq => h heq.symm), rfl, rfl⟩

theorem addEnumConst_new {ec : EnumConst} (h : s.findTypedef ec.name = none) :
    Matches (s.addEnumConst ec) ec.name (some (.enumConst ec)) :=
  ⟨h, List.find?_cons_of_pos (decide_eq_true rfl)⟩

theorem addEnumConst_old {ec : EnumConst} (h : name ≠ ec.name) : SameFor s (s.addEnumConst ec) name :=
  ⟨rfl, List.find?_cons_of_neg (by rw [decide_eq_true_eq]; exact fun heq => h heq.symm), rfl⟩

/-- A declaration in a scope of a function. -/
theorem good_declare (h : Good file s (f :: fs) (scope :: rest)) (hkind : f.kind ≠ .params)
    (hnew : Matches s' n (some e)) (hold : ∀ name, name ≠ n → SameFor s s' name) (hkept : Kept f.kind s' f.saved) :
    Good file s' (f :: fs) ({ scope with entries := (n, e) :: scope.entries } :: rest) := by
  obtain ⟨_, _, heq, hscope, hagree, _, hbottom, hfunction, hgood⟩ := h
  obtain ⟨rfl, rfl⟩ := List.cons.inj heq
  have hin := hfunction hkind
  rw [basis, if_pos hin] at hagree
  refine ⟨_, _, rfl, hscope, ?_, hkept, hbottom, hfunction, hgood⟩
  rw [basis, if_pos hin]
  exact agree_cons hagree (hscope ▸ hkind) hnew hold

/-- A declaration at file scope. -/
theorem good_declare_file (h : Good file s [] []) (hnew : Matches (basis s' []) n (some e))
    (hold : ∀ name, name ≠ n → SameFor (basis s []) (basis s' []) name) : Good ((n, e) :: file) s' [] [] :=
  ⟨rfl, agree_cons_file h.2 hnew hold⟩

/-! ## One step -/

theorem addLocal_same (s : Names) (var : LVar) : Alike (s.addLocal var) s := ⟨fun _ _ => rfl, fun _ _ => rfl, fun _ _ => rfl⟩

theorem find_unnamed (h : ¬ isName var.name = true) (l : List LVar) (hname : isName name = true) :
    ((var :: l).find? fun v => v.name = name) = l.find? fun v => v.name = name := by
  refine List.find?_cons_of_neg ?_
  rw [decide_eq_true_eq]
  rintro rfl
  exact h hname

theorem declares_kept {kind : ScopeKind} (hkind : kind.declares = true) (h : Kept kind s saved)
    (hglobals : ∀ name, isName name = true → s'.findGlobalName name = s.findGlobalName name) : Kept kind s' saved := by
  have hdeclares : ∀ kind : ScopeKind, kind.declares = true → kind = .compound ∨ kind = .forStmt := by
    intro kind hk
    cases kind with
    | compound => exact .inl rfl
    | forStmt => exact .inr rfl
    | selection | substatement | params | function => exact absurd hk nofun
  rcases hdeclares kind hkind with rfl | rfl
  · exact ⟨⟨fun n hn => (hglobals n hn).trans (h.1.globals n hn), fun _ _ => rfl, fun _ _ => rfl⟩, fun _ _ _ => rfl⟩
  · exact ⟨⟨fun n hn => (hglobals n hn).trans (h.1.globals n hn), fun _ _ => rfl, fun _ _ => rfl⟩, fun _ _ _ => rfl⟩

theorem inBlock_cons {s : Scopes} (h : s.inBlock = true) : ∃ f fs, s.frames = f :: fs ∧ f.kind.declares = true := by
  rw [Scopes.inBlock] at h
  cases hf : s.frames with
  | nil =>
      rw [hf] at h
      exact absurd h nofun
  | cons f fs =>
      rw [hf] at h
      exact ⟨f, fs, rfl, h⟩

theorem declares_ne {kind : ScopeKind} (h : kind.declares = true) : kind ≠ .params := by
  rintro rfl
  exact absurd h nofun

variable {env : Env}

theorem good_scopes (h : Good file s (f :: fs) scopes) : ∃ scope rest, scopes = scope :: rest :=
  let ⟨scope, rest, heq, _⟩ := h
  ⟨scope, rest, heq⟩

/-- A declaration in the innermost scope, which is one of a function. -/
theorem good_env_declare (h : Good env.file s (f :: fs) env.scopes) (hkind : f.kind ≠ .params)
    (hnew : Matches s' n (some e)) (hold : ∀ name, name ≠ n → SameFor s s' name) (hkept : Kept f.kind s' f.saved) :
    Good (env.declare n e).file s' (f :: fs) (env.declare n e).scopes := by
  obtain ⟨scopes, file⟩ := env
  obtain ⟨scope, rest, rfl⟩ := good_scopes h
  exact good_declare h hkind hnew hold hkept

theorem good_kept (h : Good file s (f :: fs) scopes) : Kept f.kind s f.saved :=
  let ⟨_, _, _, _, _, hkept, _⟩ := h
  hkept

theorem good_local (h : Good env.file s (f :: fs) env.scopes) (hdeclares : f.kind.declares = true) (hfree : s.Free var.name) :
    Good (env.declare var.name (.var var.id)).file (s.addLocal var) (f :: fs) (env.declare var.name (.var var.id)).scopes :=
  good_env_declare h (declares_ne hdeclares) (addLocal_new hfree) (fun _ hn => addLocal_old hn)
    (declares_kept hdeclares (good_kept h) fun _ _ => rfl)

/-- The parameters of a function, one after the other. -/
theorem good_params {params : List LVar} {s₀ : Names} {entries : List (String × Entity)}
    (h : Good file s [⟨.function, s₀⟩] [⟨.function, entries⟩]) (hfree : ∀ var ∈ params, s.Free var.name) :
    let env := params.foldl (fun env var => env.declare var.name (.var var.id)) (Env.mk [⟨.function, entries⟩] file)
    Good env.file (params.foldl Names.addLocal s) [⟨.function, s₀⟩] env.scopes := by
  induction params generalizing s entries with
  | nil => exact h
  | cons var params ih =>
      refine ih ?_ fun v hv => hfree v (List.mem_cons_of_mem _ hv)
      have hkept := good_kept h
      exact good_declare h nofun (addLocal_new (hfree var List.mem_cons_self)) (fun _ hn => addLocal_old hn)
        ⟨(addLocal_same s var).trans hkept.1, fun hno => absurd rfl hno⟩

theorem agree_enter {kind : ScopeKind} (h : Agree file s scopes) : Agree file s (⟨kind, []⟩ :: scopes) := by
  intro name hname
  have hvisible := h name hname
  by_cases hkind : kind = .params
  · subst hkind
    exact hvisible
  · rw [filter_cons ⟨kind, []⟩ scopes hkind]
    exact hvisible

theorem restore_self (s : Names) (kind : ScopeKind) : s.restore s kind = s := by
  cases kind <;> rfl

def Inv (s : Scopes × Env) : Prop := Good s.2.file s.1.names s.1.frames s.2.scopes

theorem inv_enter {names : Names} {kind : ScopeKind} (h : Good file names fs scopes)
    (hplace : kind = .params ∨ kind ≠ .function ∧ (fs.any fun f => f.kind = .function) = true) :
    Good file names (⟨kind, names⟩ :: fs) (⟨kind, []⟩ :: scopes) := by
  have hkind : kind ≠ .function := by
    rintro rfl
    rcases hplace with hno | ⟨hno, _⟩
    · exact absurd hno nofun
    · exact hno rfl
  have hagree : Agree file (basis names fs) scopes := by
    cases fs with
    | nil =>
        obtain ⟨rfl, hagree⟩ := h
        exact hagree
    | cons f fs =>
        obtain ⟨_, _, _, _, hagree, _⟩ := h
        exact hagree
  have hbasis : basis names (⟨kind, names⟩ :: fs) = basis names fs := by
    rw [basis, basis, List.any_cons, decide_eq_false hkind, Bool.false_or]
  refine ⟨_, _, rfl, rfl, ?_, ?_, fun hf => absurd hf hkind, fun hne => ?_, h⟩
  · rw [hbasis]
    exact agree_enter hagree
  · rw [Kept, restore_self]
    exact ⟨Alike.refl _, fun _ _ _ => rfl⟩
  · rw [List.any_cons, (hplace.resolve_left hne).2, Bool.or_true]

theorem inv_leave {names : Names} (h : Good file names (f :: fs) scopes) :
    Good file (names.restore f.saved f.kind) fs scopes.tail := by
  obtain ⟨scope, rest, rfl, _, _, hkept, hbottom, _, hgood⟩ := h
  exact hgood.same hkept.1 fun hne => hkept.2 fun hf => hne (hbottom hf)

theorem inv_param {entries : List (String × Entity)} (h : Good file s (f :: fs) (scope :: rest)) (hkind : f.kind = .params) :
    Good file s (f :: fs) ({ scope with entries } :: rest) := by
  obtain ⟨_, _, heq, hscope, hagree, hplace⟩ := h
  obtain ⟨rfl, rfl⟩ := List.cons.inj heq
  refine ⟨_, _, rfl, hscope, fun name hname => ?_, hplace⟩
  have hvisible := hagree name hname
  rw [filter_params scope rest (hscope.trans hkind)] at hvisible
  rw [filter_params { scope with entries } rest (hscope.trans hkind)]
  exact hvisible

theorem inv_enumConst {ec : EnumConst} (h : Good env.file s fs env.scopes) (hfree : s.findTypedef ec.name = none)
    (hplace : ∀ f ∈ fs.head?, f.kind ≠ .params ∧ f.kind ≠ .substatement ∧ f.kind ≠ .function) :
    Good (env.declare ec.name (.enumConst ec)).file (s.addEnumConst ec) fs (env.declare ec.name (.enumConst ec)).scopes := by
  cases fs with
  | nil =>
      obtain ⟨scopes, file⟩ := env
      obtain ⟨rfl, hagree⟩ := h
      exact good_declare_file ⟨rfl, hagree⟩ (addEnumConst_new (s := basis s []) hfree) fun _ hn => addEnumConst_old hn
  | cons f fs =>
      obtain ⟨hparams, hsub, hfunction⟩ := hplace f rfl
      have hkept := good_kept h
      refine good_env_declare h hparams (addEnumConst_new hfree) (fun _ hn => addEnumConst_old hn) ?_
      cases hkind : f.kind with
      | compound | forStmt | selection =>
          rw [hkind] at hkept
          exact hkept
      | params => exact absurd hkind hparams
      | substatement => exact absurd hkind hsub
      | function => exact absurd hkind hfunction

theorem inv_typedef {td : Typedef} {p : Scopes} (h : Good env.file p.names p.frames env.scopes)
    (hplace : p.frames = [] ∨ p.inBlock = true) :
    Good (env.declare td.name (.typedef td)).file (p.names.addTypedef td) p.frames
      (env.declare td.name (.typedef td)).scopes := by
  rcases hplace with hnil | hblock
  · rw [hnil] at h ⊢
    obtain ⟨scopes, file⟩ := env
    obtain ⟨rfl, hagree⟩ := h
    exact good_declare_file ⟨rfl, hagree⟩ (addTypedef_new (basis p.names []) td) fun _ hn => addTypedef_old hn
  · obtain ⟨f, fs, hf, hdeclares⟩ := inBlock_cons hblock
    rw [hf] at h ⊢
    exact good_env_declare h (declares_ne hdeclares) (addTypedef_new _ td) (fun _ hn => addTypedef_old hn)
      (declares_kept hdeclares (good_kept h) fun _ _ => rfl)

/-- At file scope a variable that is in `globals` is visible, and the other way round. -/
theorem inv_file {names : Names} (h : Good env.file names [] env.scopes) (hfree : names.Free var.name)
    (hname : isName var.name = true) :
    Good (env.after (.file var)).file
      (match names.findGlobalName var.name with | some _ => names | none => names.addGlobal var) []
      (env.after (.file var)).scopes := by
  obtain ⟨scopes, file⟩ := env
  obtain ⟨rfl, hagree⟩ := h
  have hmatch : Matches (basis names []) var.name (find file var.name) := hagree var.name hname
  have hvar : (basis names []).findVar var.name = names.findGlobalName var.name := rfl
  have hother : ∀ e, find file var.name = some e → ∃ id, e = .var id := by
    intro e he
    rw [he] at hmatch
    cases e with
    | var id => exact ⟨id, rfl⟩
    | enumConst ec => exact absurd (hfree.2.symm.trans hmatch.2) nofun
    | typedef td => exact absurd (hfree.1.symm.trans hmatch) nofun
    | null => exact hmatch.elim
  cases hfile : find file var.name with
  | some e =>
      obtain ⟨id, rfl⟩ := hother e hfile
      rw [hfile] at hmatch
      obtain ⟨g, hg, _⟩ := Option.map_eq_some_iff.mp hmatch.2
      rw [hvar] at hg
      rw [Env.after, hfile, hg]
      exact ⟨rfl, hagree⟩
  | none =>
      rw [hfile] at hmatch
      have hg : names.findGlobalName var.name = none := hvar ▸ hmatch.2.2
      rw [Env.after, hfile, hg]
      exact good_declare_file ⟨rfl, hagree⟩ (addGlobal_new (s := basis names []) rfl hfree) fun _ hn => addGlobal_old hn

/-- An allowed step keeps the invariant. -/
theorem step_inv {s t : Scopes × Env} {a : Act} (h : Inv s) (ha : a.Allowed s) (hstep : scopesStep s a = some t) : Inv t := by
  obtain ⟨⟨names, frames⟩, env⟩ := s
  obtain ⟨s', hs', rfl⟩ := Option.map_eq_some_iff.mp hstep
  have h : Good env.file names frames env.scopes := h
  cases a with
  | enter kind =>
      obtain ⟨hplace, hs'⟩ := Option.ite_none_right_eq_some.mp hs'
      rw [← Option.some_inj.mp hs']
      exact inv_enter h hplace
  | function params =>
      obtain ⟨⟨hnil, hnames⟩, hs'⟩ := Option.ite_none_right_eq_some.mp hs'
      rw [← Option.some_inj.mp hs']
      have hnil : frames = [] := hnil
      subst hnil
      obtain ⟨scopes, file⟩ := env
      obtain ⟨rfl, hagree⟩ := h
      have hbegin : Good file { names with locals := [] } [⟨.function, names⟩] [⟨.function, []⟩] :=
        ⟨_, _, rfl, rfl, agree_enter hagree, ⟨⟨fun _ _ => rfl, fun _ _ => rfl, fun _ _ => rfl⟩, fun hno => absurd rfl hno⟩,
          fun _ => rfl, fun _ => rfl, rfl, hagree⟩
      exact good_params hbegin ha
  | leave =>
      cases frames with
      | nil => exact absurd hs' nofun
      | cons f fs =>
          rw [← Option.some_inj.mp hs']
          exact inv_leave h
  | auto var =>
      obtain ⟨⟨hblock, _⟩, hs'⟩ := Option.ite_none_right_eq_some.mp hs'
      rw [← Option.some_inj.mp hs']
      obtain ⟨f, fs, hf, hdeclares⟩ := inBlock_cons hblock
      have hf : frames = f :: fs := hf
      subst hf
      exact good_local h hdeclares ha
  | static storage var =>
      obtain ⟨⟨hblock, _, hstorage⟩, hs'⟩ := Option.ite_none_right_eq_some.mp hs'
      rw [← Option.some_inj.mp hs']
      obtain ⟨f, fs, hf, hdeclares⟩ := inBlock_cons hblock
      have hf : frames = f :: fs := hf
      subst hf
      have hsame : Alike (names.addGlobal storage) names :=
        ⟨fun n hn => find_unnamed hstorage names.globals hn, fun _ _ => rfl, fun _ _ => rfl⟩
      exact good_local (h.same hsame fun _ _ _ => rfl) hdeclares ha
  | external gvar var =>
      obtain ⟨⟨hblock, _, _⟩, hs'⟩ := Option.ite_none_right_eq_some.mp hs'
      obtain ⟨f, fs, hf, hdeclares⟩ := inBlock_cons hblock
      have hf : frames = f :: fs := hf
      subst hf
      split at hs'
      · rw [← Option.some_inj.mp hs']
        exact good_local h hdeclares ha.1
      · next hnone => exact absurd hnone ha.2
  | param var =>
      obtain ⟨⟨hparams, _⟩, hs'⟩ := Option.ite_none_right_eq_some.mp hs'
      rw [← Option.some_inj.mp hs']
      cases frames with
      | nil => exact absurd hparams nofun
      | cons f fs =>
          obtain ⟨scopes, file⟩ := env
          obtain ⟨scope, rest, rfl⟩ := good_scopes h
          exact inv_param h (of_decide_eq_true hparams)
  | file var =>
      obtain ⟨⟨hnil, hname⟩, hs'⟩ := Option.ite_none_right_eq_some.mp hs'
      have hnil : frames = [] := hnil
      subst hnil
      have hgood := inv_file h ha hname
      split at hs'
      · next hg =>
          rw [← Option.some_inj.mp hs']
          have hg : names.findGlobalName var.name = _ := hg
          rw [hg] at hgood
          exact hgood
      · next hg =>
          rw [← Option.some_inj.mp hs']
          have hg : names.findGlobalName var.name = _ := hg
          rw [hg] at hgood
          exact hgood
  | typedef td =>
      obtain ⟨⟨hplace, _⟩, hs'⟩ := Option.ite_none_right_eq_some.mp hs'
      rw [← Option.some_inj.mp hs']
      exact inv_typedef (p := ⟨names, frames⟩) h hplace
  | enumConst ec =>
      obtain ⟨_, hs'⟩ := Option.ite_none_right_eq_some.mp hs'
      rw [← Option.some_inj.mp hs']
      exact inv_enumConst h ha.1 ha.2
  | temporary var =>
      obtain ⟨hno, hs'⟩ := Option.ite_none_right_eq_some.mp hs'
      rw [← Option.some_inj.mp hs']
      exact h.same (addLocal_same names var) fun _ n hn => find_unnamed hno names.locals hn
  | occurrence name typeFirst =>
      obtain ⟨_, hs'⟩ := Option.ite_none_right_eq_some.mp hs'
      rw [← Option.some_inj.mp hs']
      exact h

/-! ## Runs -/

theorem start_inv : Inv scopesStart := by
  refine ⟨rfl, fun name _ => ?_⟩
  show Matches _ name (find [("iconv_t", _), ("wchar_t", _)] name)
  rw [find_cons, find_cons]
  by_cases hiconv : "iconv_t" = name
  · subst hiconv
    rfl
  · rw [if_neg hiconv]
    by_cases hwchar : "wchar_t" = name
    · subst hwchar
      rfl
    · rw [if_neg hwchar]
      refine ⟨?_, rfl, rfl⟩
      refine List.find?_eq_none.mpr fun td htd => ?_
      rw [decide_eq_true_eq]
      rcases List.mem_cons.mp htd with rfl | htd
      · exact hiconv
      · rw [List.mem_singleton.mp htd]
        exact hwchar

theorem run_inv {acts : List Act} {s : Scopes × Env} (hrun : acts.foldlM scopesStep scopesStart = some s)
    (hallowed : Steps.Everywhere scopesStep scopesStart (fun _ s a => a.Allowed s) acts) : Inv s := by
  induction acts using List.reverseRecOn generalizing s with
  | nil =>
      obtain rfl := Option.some_inj.mp hrun
      exact start_inv
  | append_singleton acts a ih =>
      obtain ⟨m, hm, hs⟩ := Steps.foldlM_snoc.mp hrun
      obtain ⟨hbefore, ha⟩ := (Steps.everywhere_snoc hm).mp hallowed
      exact step_inv (ih hm hbefore) ha hs

/-- Scopes without the name make no difference. -/
theorem visible_filter (h : ∀ scope ∈ scopes, scope.kind = .params → find scope.entries name = none) :
    visible file (scopes.filter fun scope => scope.kind ≠ .params) name = visible file scopes name := by
  induction scopes with
  | nil => rfl
  | cons scope scopes ih =>
      have htail := ih fun scope hs => h scope (List.mem_cons_of_mem _ hs)
      rw [visible]
      by_cases hkind : scope.kind = .params
      · rw [filter_params scope scopes hkind, h scope List.mem_cons_self hkind, htail]
        rfl
      · rw [filter_cons scope scopes hkind, visible, htail]

theorem Matches.resolve {o : Option Entity} {typeFirst : Bool} (h : Matches s name o) (hnull : name ≠ "NULL")
    (htype : ∀ td, o = some (.typedef td) → typeFirst = true) : s.resolve name typeFirst = o := by
  cases o with
  | none =>
      obtain ⟨htypedef, henum, hvar⟩ := h
      rw [Names.resolve.eq_def, htypedef, henum]
      show (if name = "NULL" then _ else _) = _
      rw [if_neg hnull, hvar]
      rfl
  | some e =>
      cases e with
      | var id =>
          obtain ⟨⟨htypedef, henum⟩, hvar⟩ := h
          obtain ⟨v, hv, rfl⟩ := Option.map_eq_some_iff.mp hvar
          rw [Names.resolve.eq_def, htypedef, henum]
          show (if name = "NULL" then _ else _) = _
          rw [if_neg hnull, hv]
          rfl
      | enumConst ec =>
          rw [Names.resolve.eq_def, h.1, h.2]
      | typedef td =>
          have h : s.findTypedef name = some td := h
          rw [htype td rfl, Names.resolve.eq_def, h]
      | null => exact h.elim

theorem inv_occurrence {s : Scopes × Env} {name : String} {typeFirst : Bool} (h : Inv s) (hname : isName name = true)
    (ha : (Act.occurrence name typeFirst).Allowed s) : (Act.occurrence name typeFirst).Lexical s := by
  obtain ⟨⟨names, frames⟩, ⟨scopes, file⟩⟩ := s
  obtain ⟨hnull, hlocals, hparams⟩ := ha
  have h : Good file names frames scopes := h
  have hagree : Agree file (basis names frames) scopes := by
    cases frames with
    | nil =>
        obtain ⟨rfl, hagree⟩ := h
        exact hagree
    | cons f fs =>
        obtain ⟨_, _, _, _, hagree, _⟩ := h
        exact hagree
  have hmatch := hagree name hname
  rw [visible_filter hparams] at hmatch
  have hbasis : SameFor (basis names frames) names name := by
    rw [basis]
    split
    · exact ⟨rfl, rfl, rfl⟩
    · next hno =>
        refine ⟨rfl, rfl, ?_⟩
        have hnone : (names.locals.find? fun var => var.name = name) = none :=
          List.find?_eq_none.mpr fun var hv => by
            rw [decide_eq_true_eq]
            exact hlocals (eq_false_of_ne_true hno) var hv
        rw [Names.findVar, hnone]
        rfl
  exact (hmatch.sameFor hbasis).resolve hnull

theorem inv_restore {s : Scopes × Env} (h : Inv s) : Act.leave.Lexical s := by
  obtain ⟨⟨names, frames⟩, env⟩ := s
  intro f hf hdeclares name typeFirst hname
  cases frames with
  | nil => exact absurd hf nofun
  | cons g fs =>
      obtain rfl : g = f := Option.some_inj.mp hf
      obtain ⟨hsame, hlocals⟩ := good_kept (show Good env.file names (g :: fs) env.scopes from h)
      have hfunction : g.kind ≠ .function := fun hno => by
        rw [hno] at hdeclares
        exact absurd hdeclares nofun
      rw [Names.resolve.eq_def, Names.resolve.eq_def, hsame.typedefs name hname, hsame.enumConsts name hname,
        (hlocals hfunction).findVar hsame hname]

def typedefT : Typedef := ⟨"T", tyInt⟩

end Rcc.Parser

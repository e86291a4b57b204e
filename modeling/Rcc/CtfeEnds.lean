import Mathlib
import Rcc.Ctfe

/-!
# When the optimizer returns

The interpreter has no bound on how deep calls go, yet of one program there are finitely many calls: a call is a function and at most ten
`int`s. So a call that does not end leads to itself, with the same function and the same arguments (`Recursion.ends_iff_no_cycle`).

The other way not to return is to be killed. Every computation here is killed when one of its requests is, and asks with operands and
arguments of the right types only (`Sound`). So what counts is that nothing evaluated is killed by a step of its own (`Faults`).
-/

namespace Rcc.Ctfe

open FixedWidth Recursion

/-! ## Sound computations -/

/-- Which requests are made, and the types of the answers. -/
structure Protocol (C : Type) where
  Fine : C → Prop
  type : C → IntTy

/-- Results have the types. -/
def Fair {C : Type} (π : Protocol C) (value : C → Ended Int → Prop) : Prop :=
  ∀ c v, π.Fine c → value c (.ok v) → (π.type c).InRange v

/-- A computation that is killed with each of its requests and keeps to the protocol. Whether it may fail is said by `fails`, and what holds
of its value by `post`. -/
inductive Sound {C α : Type} (π : Protocol C) (fails : Prop) (post : α → Prop) : Eval C α → Prop
  | done {a : Ended α} (hfail : a = .fail → fails) (hok : ∀ x, a = .ok x → post x) : Sound π fails post (.done a)
  | call {c : C} {k : Ended Int → Eval C α} (hc : π.Fine c) (hcrash : k .crash = .done .crash)
      (h : ∀ r, (∀ v, r = .ok v → (π.type c).InRange v) → Sound π fails post (k r)) : Sound π fails post (.call c k)

namespace Sound

variable {C α β : Type} {π : Protocol C} {fails : Prop} {post : α → Prop} {post' : β → Prop}

theorem ok {a : α} (h : post a) : Sound π fails post (Eval.ok a) :=
  .done (fun h => by cases h) fun x hx => Ended.ok.inj hx ▸ h

theorem crash : Sound π fails post Eval.crash := .done (fun h => by cases h) fun x hx => by cases hx

theorem fail (h : fails) : Sound π fails post Eval.fail := .done (fun _ => h) fun x hx => by cases hx

theorem ask {c : C} (hc : π.Fine c) : Sound π True (π.type c).InRange (Eval.ask c) :=
  .call hc rfl fun _ hr => .done (fun _ => trivial) hr

theorem bind {t : Eval C α} {f : Ended α → Eval C β} (ht : Sound π fails post t) (hcrash : f .crash = Eval.crash)
    (hfail : fails → Sound π fails post' (f .fail)) (hok : ∀ a, post a → Sound π fails post' (f (.ok a))) :
    Sound π fails post' (t.bind f) := by
  induction ht with
  | @done a hfail' hok' =>
      cases a with
      | ok a => exact hok a (hok' a rfl)
      | fail => exact hfail (hfail' rfl)
      | crash =>
          rw [Calls.bind, hcrash]
          exact crash
  | call hc hkilled _ ih =>
      refine .call hc ?_ ih
      rw [hkilled]
      exact hcrash

theorem andThen {t : Eval C α} {f : α → Eval C β} (ht : Sound π fails post t) (hf : ∀ a, post a → Sound π fails post' (f a)) :
    Sound π fails post' (t.andThen f) :=
  ht.bind rfl fail hf

theorem on {D : Type} {ρ : Protocol D} {f : C → D} (hf : ∀ c, π.Fine c → ρ.Fine (f c)) (htype : ∀ c, ρ.type (f c) = π.type c)
    {t : Eval C α} (ht : Sound π fails post t) : Sound ρ fails post (t.on f) := by
  induction ht with
  | done hfail hok => exact .done hfail hok
  | @call c k hc hkilled _ ih =>
      refine .call (hf c hc) ?_ fun r hr => ih r fun v hv => htype c ▸ hr v hv
      rw [hkilled]
      rfl

variable {value : C → Ended Int → Prop} {t : Eval C α}

theorem fine_of_makes (hfair : Fair π value) (ht : Sound π fails post t) {c : C} (hmakes : t.Makes value c) : π.Fine c := by
  induction hmakes with
  | here =>
      cases ht with
      | call hc _ _ => exact hc
  | @later c _ _ r hr _ ih =>
      cases ht with
      | call hc _ h => exact ih (h r fun v hv => hfair c v hc (hv ▸ hr))

/-- With a request it makes, the computation is killed. -/
theorem gives_crash (hfair : Fair π value) (ht : Sound π fails post t) {c : C} (hmakes : t.Makes value c)
    (hc : value c .crash) : t.Gives value .crash := by
  induction hmakes with
  | here =>
      cases ht with
      | call _ hkilled _ =>
          refine .call hc ?_
          rw [hkilled]
          exact .done
  | @later c _ _ r hr _ ih =>
      cases ht with
      | call hfine _ h => exact .call hr (ih (h r fun v hv => hfair c v hfine (hv ▸ hr)) hc)

/-- What a sound computation comes to. -/
theorem gives (hfair : Fair π value) (ht : Sound π fails post t) {a : Ended α} (hgives : t.Gives value a) :
    (a = .fail → fails) ∧ ∀ x, a = .ok x → post x := by
  induction hgives with
  | done =>
      cases ht with
      | done hfail hok => exact ⟨hfail, hok⟩
  | @call c _ r _ hr _ ih =>
      cases ht with
      | call hfine _ h => exact ih (h r fun v hv => hfair c v hfine (hv ▸ hr))

end Sound

/-- What is killed is so with a request, or by itself. -/
theorem gives_crash_cases {C α : Type} {value : C → Ended Int → Prop} {t : Eval C α} {a : Ended α}
    (h : t.Gives value a) (ha : a = .crash) :
    (∃ c, t.Makes value c ∧ value c .crash) ∨ t.Gives (fun c r => value c r ∧ r ≠ .crash) .crash := by
  induction h with
  | done => exact .inr (ha ▸ .done)
  | @call c k r a hr hk ih =>
      by_cases hcrash : r = .crash
      · exact .inl ⟨c, .here, hcrash ▸ hr⟩
      · rcases ih ha with ⟨d, hd, hvalue⟩ | hgives
        · exact .inl ⟨d, .later hr hd, hvalue⟩
        · exact .inr (.call ⟨hr, hcrash⟩ hgives)

/-! ## The interpreter -/

/-- Every slot of the environment has an `int`. -/
def Ints (env : Env) : Prop := ∀ i, i32.InRange (env i)

/-- Arguments and operands are of the types. -/
def Request.Fine {prog : Program} : Request prog → Prop
  | .call c => ∀ v ∈ c.args.1, i32.InRange v
  | .op τ o => τ.signed = true ∧ o.Operands τ

def Request.type {prog : Program} : Request prog → IntTy
  | .call _ => i32
  | .op τ _ => τ

def requests (prog : Program) : Protocol (Request prog) := ⟨Request.Fine, Request.type⟩

def runs : Protocol Run := ⟨fun run => run.request.Fine, fun run => run.request.type⟩

theorem toInt_inRange (val : BitVec 32) : i32.InRange val.toInt := by
  have hlo := BitVec.le_toInt val
  have hhi := BitVec.toInt_lt (x := val)
  exact ⟨by simpa [i32, IntTy.lo] using hlo, by simpa [i32, IntTy.hi] using hhi⟩

theorem toInt_inRange64 (val : BitVec 64) : i64.InRange val.toInt := by
  have hlo := BitVec.le_toInt val
  have hhi := BitVec.toInt_lt (x := val)
  exact i64_inRange_iff.mpr ⟨by simpa using hlo, by simpa using hhi⟩

theorem truth_inRange (b : Bool) : i32.InRange (truth b) := by
  cases b with
  | false => decide
  | true => decide

theorem setSlot_sound {C : Type} {π : Protocol C} {fails : Prop} {env : Env} (henv : Ints env) (offset : Nat) {val : Int}
    (hval : i32.InRange val) : Sound π fails Ints (setSlot env offset val) := by
  unfold setSlot
  split
  · refine .ok fun i => ?_
    split
    · exact hval
    · exact henv i
  · exact .crash

theorem bindParams_sound {C : Type} {π : Protocol C} {fails : Prop} (params : List Nat) {args : List Int} {env : Env}
    (hargs : ∀ v ∈ args, i32.InRange v) (henv : Ints env) : Sound π fails Ints (bindParams params args env) := by
  induction params generalizing args env with
  | nil => exact .ok henv
  | cons param params ih =>
      cases args with
      | nil => exact .ok henv
      | cons arg args =>
          refine (setSlot_sound henv param (hargs arg (List.mem_cons_self ..))).andThen fun env henv => ?_
          exact ih (fun v hv => hargs v (List.mem_cons_of_mem arg hv)) henv

section

variable (prog : Program)

theorem evalOp_sound (kind : BinKind) {l r : Int} (hl : i32.InRange l) (hr : i32.InRange r) :
    Sound (requests prog) True i32.InRange (evalOp kind l r) := by
  have hask : ∀ o : Operation, o.Operands i32 → Sound (requests prog) True i32.InRange (Eval.ask (.op i32 o)) :=
    fun o ho => @Sound.ask _ (requests prog) (.op i32 o) ⟨rfl, ho⟩
  unfold evalOp
  split
  · exact hask _ ⟨hl, hr⟩
  · exact hask _ ⟨hl, hr⟩
  · exact hask _ ⟨hl, hr⟩
  · split
    · exact .fail trivial
    · exact hask _ ⟨hl, hr⟩
  · split
    · exact .fail trivial
    · exact hask _ ⟨hl, hr⟩
  · exact .ok (truth_inRange _)
  · exact .ok (truth_inRange _)
  · exact .ok (truth_inRange _)
  · exact .ok (truth_inRange _)
  · exact .fail trivial

/-- An `int`, and an environment of them. -/
def Stays (a : Int × Env × Flow) : Prop := i32.InRange a.1 ∧ Ints a.2.1

mutual

theorem evalAst_sound (node : Node) {env : Env} (henv : Ints env) : Sound (requests prog) True Stays (evalAst prog node env) := by
  have hzero : i32.InRange 0 := i32.inRange_zero
  cases node with
  | null => exact .ok ⟨hzero, henv⟩
  | link node next =>
      refine (evalAst_sound node henv).andThen fun a ha => ?_
      obtain ⟨val, env, cf⟩ := a
      dsimp only
      split
      · exact .ok ha
      · exact evalAst_sound next ha.2
  | node kind lhs rhs cond then_ els init inc body args =>
      cases kind with
      | num val => exact .ok ⟨toInt_inRange _, henv⟩
      | lvar offset =>
          simp only [evalAst]
          split
          · exact .ok ⟨henv _, henv⟩
          · exact .crash
      | bin kind =>
          by_cases hassign : kind = .assign
          · subst hassign
            simp only [evalAst]
            split
            · refine (evalAst_sound rhs henv).bind rfl (fun _ => ?_) fun a ha => ?_
              · exact (setSlot_sound henv _ hzero).andThen fun env _ => .fail trivial
              · exact (setSlot_sound ha.2 _ ha.1).andThen fun env henv => .ok ⟨ha.1, henv⟩
            · exact .fail trivial
          · rw [evalAst]
            · split
              · exact (evalAst_sound lhs henv).andThen fun l hl => (evalAst_sound rhs hl.2).andThen fun r hr =>
                  (evalOp_sound prog kind hl.1 hr.1).andThen fun val hval => .ok ⟨hval, hr.2⟩
              · exact .fail trivial
            · exact hassign
      | block =>
          refine (evalAst_sound body henv).andThen fun a ha => .ok ⟨?_, ha.2⟩
          dsimp only
          split
          · exact ha.1
          · exact hzero
      | ret => exact (evalAst_sound lhs henv).andThen fun a ha => .ok ha
      | ifStmt =>
          refine (evalAst_sound cond henv).andThen fun a ha => ?_
          obtain ⟨c, env, cf⟩ := a
          dsimp only
          split
          · exact evalAst_sound then_ ha.2
          · exact evalAst_sound els ha.2
      | exprStmt => exact (evalAst_sound lhs henv).andThen fun a ha => .ok ha
      | funcall funcname =>
          refine (evalArgs_sound args 9 henv).andThen fun a ha => ?_
          obtain ⟨vals, env⟩ := a
          dsimp only
          split
          · exact .crash
          · split
            · exact .fail trivial
            · split
              · exact .fail trivial
              · refine Sound.andThen (Sound.ask ?_) fun val hval => .ok ⟨hval, ha.2⟩
                exact ha.1
      | addr => exact .fail trivial
      | other => exact .fail trivial

theorem evalArgs_sound (list : Node) (room : Nat) {env : Env} (henv : Ints env) :
    Sound (requests prog) True (fun a => (∀ v ∈ a.1.1, i32.InRange v) ∧ Ints a.2) (evalArgs prog list room env) := by
  have hnil : ∀ v ∈ ([] : List Int), i32.InRange v := fun v hv => by cases hv
  cases list with
  | null => exact .ok ⟨hnil, henv⟩
  | link arg next =>
      refine (evalAst_sound arg henv).andThen fun a ha => ?_
      cases room with
      | zero => exact .fail trivial
      | succ room =>
          refine (evalArgs_sound next room ha.2).andThen fun b hb => .ok ⟨fun v hv => ?_, hb.2⟩
          rcases List.mem_cons.mp hv with rfl | hv
          · exact ha.1
          · exact hb.1 v hv
  | node => exact .ok ⟨hnil, henv⟩

end

end

theorem runBody_sound {run : Run} (hrun : runs.Fine run) : Sound runs True (runs.type run).InRange (runBody run) := by
  obtain ⟨prog, request⟩ := run
  cases request with
  | call call =>
      have hbody : Sound (requests prog) True i32.InRange (callBody prog call) := by
        refine (bindParams_sound _ hrun fun _ => i32.inRange_zero).andThen fun env henv => ?_
        exact (evalAst_sound prog _ henv).andThen fun a ha => .ok ha.1
      have hfine : ∀ c, (requests prog).Fine c → runs.Fine ⟨prog, c⟩ := fun _ h => h
      exact hbody.on hfine fun _ => rfl
  | op τ o => exact .done (fun _ => trivial) fun v hv => Operation.machine_inRange hrun.1 hrun.2 hv

theorem runBody_fair : Fair runs (Value runBody) := by
  rintro run v hrun ⟨n, hn⟩
  induction n generalizing run v with
  | zero => cases hn
  | succ n ih =>
      have hfair : Fair runs fun run r => eval runBody n run = some r := fun run v hrun h => ih run v hrun h
      exact ((runBody_sound hrun).gives hfair (.of_run (fun _ _ _ h => h) hn)).2 v rfl

/-! ## The optimizer -/

theorem foldOperation_operands {kind : BinKind} {l r : Int} {o : Operation} (hl : i64.InRange l) (hr : i64.InRange r)
    (h : foldOperation kind l r = some o) : o.Operands i64 := by
  unfold foldOperation at h
  split at h
  · cases h
    exact ⟨hl, hr⟩
  · cases h
    exact ⟨hl, hr⟩
  · cases h
    exact ⟨hl, hr⟩
  · split at h
    · cases h
    · cases h
      exact ⟨hl, hr⟩
  · split at h
    · cases h
    · cases h
      exact ⟨hl, hr⟩
  · cases h

theorem foldTo_sound (node : Node) (r : Ended Int) : Sound runs False (fun _ => True) (foldTo node r) := by
  cases r with
  | ok val => exact .ok trivial
  | fail => exact .ok trivial
  | crash => exact .crash

theorem foldBin_sound (prog : Program) (kind : BinKind) (node lhs rhs : Node) :
    Sound runs False (fun _ => True) (foldBin prog kind node lhs rhs) := by
  unfold foldBin
  split
  · split
    · rename_i hfold
      exact .call ⟨rfl, foldOperation_operands (toInt_inRange64 _) (toInt_inRange64 _) hfold⟩ rfl fun r _ => foldTo_sound node r
    · exact .ok trivial
  · exact .ok trivial

theorem keptArgs_inRange (vals : List (BitVec 64)) : ∀ v ∈ (keptArgs vals).1, i32.InRange v := by
  intro v hv
  obtain ⟨val, -, rfl⟩ := List.mem_map.mp hv
  exact toInt_inRange _

theorem foldCall_sound (prog : Program) (funcname : String) (node args : Node) :
    Sound runs False (fun _ => True) (foldCall prog funcname node args) := by
  unfold foldCall
  split
  · split
    · exact .ok trivial
    · exact .call (keptArgs_inRange _) rfl fun r _ => foldTo_sound node r
  · exact .ok trivial

mutual

theorem optimizeNode_sound (ctx : Node → Program) (node : Node) : Sound runs False (fun _ => True) (optimizeNode ctx node) := by
  cases node with
  | null => exact .ok trivial
  | link node next => exact .ok trivial
  | node kind lhs rhs cond then_ els init inc body args =>
      refine (optimizeNode_sound _ lhs).andThen fun lhs' _ => (optimizeNode_sound _ rhs).andThen fun rhs' _ =>
        (optimizeNode_sound _ cond).andThen fun cond' _ => (optimizeNode_sound _ then_).andThen fun then' _ =>
        (optimizeNode_sound _ els).andThen fun els' _ => (optimizeNode_sound _ init).andThen fun init' _ =>
        (optimizeNode_sound _ inc).andThen fun inc' _ => (optimizeList_sound _ false body).andThen fun body _ =>
        (optimizeList_sound _ false args).andThen fun args _ => ?_
      dsimp only
      split
      · exact foldBin_sound _ _ _ _ _
      · exact foldCall_sound _ _ _ _
      · exact .ok trivial

theorem optimizeList_sound (ctx : Node → Program) (hidden : Bool) (list : Node) :
    Sound runs False (fun _ => True) (optimizeList ctx hidden list) := by
  cases list with
  | null => exact .ok trivial
  | link node next =>
      refine (optimizeNode_sound _ node).andThen fun result _ => ?_
      cases result with
      | same node => exact (optimizeList_sound _ false next).andThen fun rest _ => .ok trivial
      | new node => exact (optimizeList_sound _ true next).andThen fun rest _ => .ok trivial
  | node => exact .ok trivial

end

theorem optimizeItems_sound (first items : List Item) : Sound runs False (fun _ => True) (optimizeItems first items) := by
  induction items generalizing first with
  | nil => exact .ok trivial
  | cons item items ih =>
      cases item with
      | asm => exact ih _
      | func fn => exact (optimizeList_sound _ false fn.body).andThen fun body _ => ih _

theorem optimize_sound (prog : Program) : Sound runs False (fun _ => True) (optimize prog) := optimizeItems_sound [] prog.items

/-! ## Finitely many calls -/

/-- What a run asks for is of its program. -/
theorem calling_same_program {run run' : Run} (h : Calling runBody run run') : run'.prog = run.prog := by
  obtain ⟨prog, request⟩ := run
  cases request with
  | call call =>
      obtain ⟨request', rfl⟩ := Calls.Makes.of_on h
      rfl
  | op τ o => cases h

/-- The runs below a fine one are fine, and of the same program. -/
theorem leadsTo_fine {run run' : Run} (hrun : runs.Fine run) (h : LeadsTo runBody run run') :
    runs.Fine run' ∧ run'.prog = run.prog := by
  induction h with
  | single h => exact ⟨(runBody_sound hrun).fine_of_makes runBody_fair h, calling_same_program h⟩
  | tail _ h ih =>
      exact ⟨(runBody_sound ih.1).fine_of_makes runBody_fair h, (calling_same_program h).trans ih.2⟩

theorem defined_finite (prog : Program) : Finite prog.Defined := by
  have hfinite : {item : Item | item ∈ prog.items}.Finite := prog.items.finite_toSet
  have : Finite {item : Item // item ∈ prog.items} := hfinite
  refine Finite.of_injective (fun fn : prog.Defined => (⟨.func fn.1, fn.2⟩ : {item : Item // item ∈ prog.items})) ?_
  intro fn fn' h
  exact Subtype.ext (Item.func.inj (congrArg Subtype.val h))

theorem args_finite : {args : List Int | args.length ≤ 10 ∧ ∀ v ∈ args, i32.InRange v}.Finite := by
  have : Finite {v : Int // i32.InRange v} := (Set.finite_Ico i32.lo i32.hi).to_subtype
  refine ((List.finite_length_le {v : Int // i32.InRange v} 10).image (List.map Subtype.val)).subset ?_
  rintro args ⟨hlength, hints⟩
  lift args to List {v : Int // i32.InRange v} using hints
  exact ⟨args, by simpa using hlength, rfl⟩

/-- There are finitely many calls of a program with `int`s. -/
theorem calls_finite (prog : Program) : {call : Call prog | ∀ v ∈ call.args.1, i32.InRange v}.Finite := by
  have := defined_finite prog
  have hpairs := (Set.finite_univ (α := prog.Defined)).prod args_finite
  refine Set.Finite.of_finite_image (f := fun call : Call prog => (call.fn, call.args.1)) (hpairs.subset ?_) ?_
  · rintro _ ⟨call, hints, rfl⟩
    exact ⟨trivial, call.args.2, hints⟩
  · rintro ⟨fn, args⟩ - ⟨fn', args'⟩ - h
    obtain ⟨rfl, hargs⟩ := Prod.mk.inj h
    obtain rfl := Subtype.ext hargs
    rfl

theorem leadsTo_finite {run : Run} (hrun : runs.Fine run) :
    {run' | LeadsTo runBody run run' ∧ ∃ run'', Calling runBody run' run''}.Finite := by
  refine ((calls_finite run.prog).image fun call => (⟨run.prog, .call call⟩ : Run)).subset ?_
  rintro ⟨prog, request⟩ ⟨hbelow, run'', hcalling⟩
  obtain ⟨hfine, hprog⟩ := leadsTo_fine hrun hbelow
  dsimp only at hprog
  subst hprog
  cases request with
  | call call => exact ⟨call, hfine, rfl⟩
  | op τ o => cases hcalling

/-! ## The result -/

/-- With the calls nested deep enough, `optimize` comes to an end and has not been killed. -/
def Returns (prog : Program) : Prop := ∃ depth prog', (optimize prog).run (eval runBody depth) = some (.ok prog')

/-- Killed by a step of its own, all requests having returned. -/
def Faults {α : Type} (t : Eval Run α) : Prop := t.Gives (fun run r => Value runBody run r ∧ r ≠ .crash) .crash

theorem Faults.gives_crash {α : Type} {t : Eval Run α} (h : Faults t) : t.Gives (Value runBody) .crash :=
  Calls.Gives.mono (fun _ _ hr => hr.1) h

/-- A run that is killed kills the ones above it. -/
theorem crash_of_leadsTo {run run' : Run} (hrun : runs.Fine run) (h : LeadsTo runBody run run')
    (hcrash : Value runBody run' .crash) : Value runBody run .crash := by
  induction h using Relation.TransGen.head_induction_on with
  | single h => exact value_iff_gives.mpr ((runBody_sound hrun).gives_crash runBody_fair h hcrash)
  | head h _ ih =>
      have hnext := (runBody_sound hrun).fine_of_makes runBody_fair h
      exact value_iff_gives.mpr ((runBody_sound hrun).gives_crash runBody_fair h (ih hnext))

/-- And one of the runs from it down is killed by a step of its own. -/
theorem faults_of_crash {run : Run} (hcrash : Value runBody run .crash) :
    ∃ run', (run = run' ∨ LeadsTo runBody run run') ∧ Faults (runBody run') := by
  induction ends_iff_acc.mp ⟨_, hcrash⟩ with
  | intro run _ ih =>
      rcases gives_crash_cases (value_iff_gives.mp hcrash) rfl with ⟨run', hmakes, hvalue⟩ | hfaults
      · obtain ⟨below, hbelow, hfaults⟩ := ih run' hmakes hvalue
        refine ⟨below, .inr ?_, hfaults⟩
        rcases hbelow with rfl | hbelow
        · exact .single hmakes
        · exact .head hmakes hbelow
      · exact ⟨run, .inl rfl, hfaults⟩

/-- **When the optimizer returns**: exactly if no run leads to itself and nothing is killed by a step of its own. -/
theorem optimize_returns_iff (prog : Program) :
    Returns prog ↔ ¬ Faults (optimize prog) ∧
      ∀ run, Evaluated runBody (optimize prog) run → ¬ LeadsTo runBody run run ∧ ¬ Faults (runBody run) := by
  have hsound := optimize_sound prog
  have hfine : ∀ first, (optimize prog).Makes (Value runBody) first → runs.Fine first := fun first hmakes =>
    hsound.fine_of_makes runBody_fair hmakes
  constructor
  · rintro ⟨depth, prog', hrun⟩
    have hends := run_iff_ends.mp ⟨depth, _, hrun⟩
    have hgives := run_iff_gives.mp ⟨depth, hrun⟩
    have hvalue : ∀ run r r', Value runBody run r → Value runBody run r' → r = r' := fun _ _ _ => Value.unique
    have halive : ¬ (optimize prog).Gives (Value runBody) .crash := fun hcrash => by
      cases Calls.Gives.unique hvalue hgives hcrash
    refine ⟨fun hfaults => halive hfaults.gives_crash, ?_⟩
    rintro run ⟨first, hmakes, hbelow⟩
    have hcycles := (ends_iff_no_cycle (leadsTo_finite (hfine first hmakes))).mp (hends first hmakes)
    refine ⟨hcycles run hbelow, fun hfaults => ?_⟩
    have hcrash : Value runBody run .crash := value_iff_gives.mpr hfaults.gives_crash
    refine halive (hsound.gives_crash runBody_fair hmakes ?_)
    rcases hbelow with rfl | hbelow
    · exact hcrash
    · exact crash_of_leadsTo (hfine first hmakes) hbelow hcrash
  · rintro ⟨hown, hruns⟩
    have hends : ∀ first, (optimize prog).Makes (Value runBody) first → Ends runBody first := fun first hmakes =>
      (ends_iff_no_cycle (leadsTo_finite (hfine first hmakes))).mpr fun run hbelow => (hruns run ⟨first, hmakes, hbelow⟩).1
    obtain ⟨depth, result, hrun⟩ := run_of_ends hends
    have hgives := run_iff_gives.mp ⟨depth, hrun⟩
    cases result with
    | ok prog' => exact ⟨depth, prog', hrun⟩
    | fail => exact absurd rfl (hsound.gives runBody_fair hgives).1
    | crash =>
        exfalso
        rcases gives_crash_cases hgives rfl with ⟨first, hmakes, hcrash⟩ | hfaults
        · obtain ⟨run, hbelow, hfaults⟩ := faults_of_crash hcrash
          exact (hruns run ⟨first, hmakes, hbelow⟩).2 hfaults
        · exact hown hfaults

/-! ## A program on which it does not -/

def callNode (funcname : Option String) (args : Node) : Node :=
  .node (.funcall funcname) .null .null .null .null .null .null .null .null args

def retNode (lhs : Node) : Node := .node .ret lhs .null .null .null .null .null .null .null .null

def lvarNode (offset : Nat) : Node := .node (.lvar offset) .null .null .null .null .null .null .null .null .null

/-- `int a(void) { return f(1); } int g(int x) { return x; } int f(int x) { return g(x); }`: in `f`, where `g` is declared, the call
of it has no name. -/
def declaredCall : Program where
  items :=
    [.func { name := "a", params := [], cleanups := [], body := .link (retNode (callNode "f" (.link (newNum 1) .null))) .null },
     .func { name := "g", params := [84], cleanups := [none], body := .link (retNode (lvarNode 84)) .null },
     .func { name := "f", params := [84], cleanups := [none],
             body := .link (retNode (callNode none (.link (lvarNode 84) .null))) .null }]

/-- However deep calls may go, the program is not optimized. -/
theorem declared_call_not_returns : ¬ ∃ depth prog', (optimize declaredCall).run (eval runBody depth) = some (.ok prog') := by
  rintro ⟨depth, prog', h⟩
  cases depth with
  | zero => cases h
  | succ depth => cases h

end Rcc.Ctfe

import Mathlib

/-!
# Recursive calls

A library for procedures that call each other and themselves. What a call does is a tree: it is done with a result, or makes another
call and goes on by what that returns. `eval n` runs it with calls nested at most `n` deep.

A call ends exactly if there is no infinite descent from it to calls that it makes, those to calls that they make, and so on
(`ends_iff_acc`). When there are only finitely many different calls, an infinite descent comes back to a call it has
been at, so a call ends exactly if no call below it makes itself again (`ends_iff_no_cycle`).
-/

namespace Recursion

/-- A computation that makes calls in `C` with results in `R`. -/
inductive Calls (C R α : Type) where
  | done (a : α)
  | call (c : C) (k : R → Calls C R α)

variable {C R α β : Type}

namespace Calls

def bind : Calls C R α → (α → Calls C R β) → Calls C R β
  | .done a, f => f a
  | .call c k, f => .call c fun r => (k r).bind f

/-- The same computation with other calls for these. -/
def on {D : Type} (f : C → D) : Calls C R α → Calls D R α
  | .done a => .done a
  | .call c k => .call (f c) fun r => (k r).on f

/-- The result, if every call has one. -/
def run (answer : C → Option R) : Calls C R α → Option α
  | .done a => some a
  | .call c k => (answer c).bind fun r => (k r).run answer

/-- The calls that are made when these are the results. -/
inductive Makes (value : C → R → Prop) : Calls C R α → C → Prop
  | here {c : C} {k : R → Calls C R α} : Makes value (.call c k) c
  | later {c d : C} {k : R → Calls C R α} {r : R} (hr : value c r) (h : Makes value (k r) d) : Makes value (.call c k) d

/-- The result when these are the results of the calls. -/
inductive Gives (value : C → R → Prop) : Calls C R α → α → Prop
  | done {a : α} : Gives value (.done a) a
  | call {c : C} {k : R → Calls C R α} {r : R} {a : α} (hr : value c r) (h : Gives value (k r) a) : Gives value (.call c k) a

theorem Gives.mono {value value' : C → R → Prop} (h : ∀ c r, value c r → value' c r) {t : Calls C R α} {a : α}
    (ht : t.Gives value a) : t.Gives value' a := by
  induction ht with
  | done => exact .done
  | call hr _ ih => exact .call (h _ _ hr) ih

theorem Gives.unique {value : C → R → Prop} (hvalue : ∀ c r r', value c r → value c r' → r = r') {t : Calls C R α} {a a' : α}
    (h : t.Gives value a) (h' : t.Gives value a') : a = a' := by
  induction h with
  | done =>
      cases h' with
      | done => rfl
  | call hr _ ih =>
      cases h' with
      | call hr' hk' =>
          obtain rfl := hvalue _ _ _ hr hr'
          exact ih hk'

/-- The calls after a renaming are renamed ones. -/
theorem Makes.of_on {D : Type} {f : C → D} {value : D → R → Prop} {t : Calls C R α} {d : D} (h : (t.on f).Makes value d) :
    ∃ c, d = f c := by
  induction t with
  | done a => cases h
  | call c k ih =>
      cases h with
      | here => exact ⟨c, rfl⟩
      | later _ h => exact ih _ h

/-- With more answers there is no other result. -/
theorem run_mono {answer answer' : C → Option R} (h : ∀ c r, answer c = some r → answer' c = some r) {t : Calls C R α} {a : α}
    (ht : t.run answer = some a) : t.run answer' = some a := by
  induction t with
  | done b => exact ht
  | call c k ih =>
      obtain ⟨r, hr, hk⟩ := Option.bind_eq_some_iff.mp ht
      rw [run, h c r hr]
      exact ih r hk

/-- A run has made all its calls. -/
theorem Makes.answered {value : C → R → Prop} {answer : C → Option R} (hvalue : ∀ c r r', value c r → answer c = some r' → r = r')
    {t : Calls C R α} {d : C} (h : t.Makes value d) {a : α} (ht : t.run answer = some a) : ∃ r, answer d = some r := by
  induction h with
  | here =>
      obtain ⟨r, hr, -⟩ := Option.bind_eq_some_iff.mp ht
      exact ⟨r, hr⟩
  | later hr _ ih =>
      obtain ⟨r', hr', hk⟩ := Option.bind_eq_some_iff.mp ht
      obtain rfl := hvalue _ _ _ hr hr'
      exact ih hk

/-- What a run comes to, when the answers it gets are values. -/
theorem Gives.of_run {value : C → R → Prop} {answer : C → Option R} {t : Calls C R α} {a : α}
    (hanswer : ∀ c r, t.Makes value c → answer c = some r → value c r) (h : t.run answer = some a) : t.Gives value a := by
  induction t with
  | done b =>
      cases h
      exact .done
  | call c k ih =>
      obtain ⟨r, hr, hk⟩ := Option.bind_eq_some_iff.mp h
      have hvalue := hanswer c r .here hr
      exact .call hvalue (ih r (fun d r' hd => hanswer d r' (.later hvalue hd)) hk)

end Calls

/-! ## Procedures -/

variable (body : C → Calls C R R)

/-- A call with so many calls nested in each other. -/
def eval : Nat → C → Option R
  | 0, _ => none
  | n + 1, c => (body c).run (eval n)

def Value (c : C) (r : R) : Prop := ∃ n, eval body n c = some r

def Ends (c : C) : Prop := ∃ r, Value body c r

/-- The second call is made in the first one. -/
def Calling (c d : C) : Prop := (body c).Makes (Value body) d

variable {body}

theorem eval_succ {n : Nat} {c : C} {r : R} (h : eval body n c = some r) : eval body (n + 1) c = some r := by
  induction n generalizing c r with
  | zero => cases h
  | succ n ih => exact Calls.run_mono (fun _ _ => ih) h

theorem eval_mono {n m : Nat} (hle : n ≤ m) {c : C} {r : R} (h : eval body n c = some r) : eval body m c = some r := by
  induction hle with
  | refl => exact h
  | step _ ih => exact eval_succ ih

theorem Value.unique {c : C} {r r' : R} (h : Value body c r) (h' : Value body c r') : r = r' := by
  obtain ⟨n, hn⟩ := h
  obtain ⟨m, hm⟩ := h'
  have hr := eval_mono (le_max_left n m) hn
  rw [eval_mono (le_max_right n m) hm] at hr
  exact (Option.some.inj hr).symm

theorem Value.eq_eval {n : Nat} (c : C) (r r' : R) (h : Value body c r) (h' : eval body n c = some r') : r = r' :=
  h.unique ⟨n, h'⟩

/-- A computation ends if all the calls it makes do. -/
theorem run_of_ends {t : Calls C R α} (h : ∀ d, t.Makes (Value body) d → Ends body d) :
    ∃ n a, t.run (eval body n) = some a := by
  induction t with
  | done a => exact ⟨0, a, rfl⟩
  | call c k ih =>
      obtain ⟨r, n, hn⟩ := h c .here
      obtain ⟨m, a, hm⟩ := ih r fun d hd => h d (.later ⟨n, hn⟩ hd)
      refine ⟨max n m, a, ?_⟩
      rw [Calls.run, eval_mono (le_max_left n m) hn]
      exact Calls.run_mono (fun _ _ => eval_mono (le_max_right n m)) hm

/-- And only then. -/
theorem run_iff_ends {t : Calls C R α} :
    (∃ n a, t.run (eval body n) = some a) ↔ ∀ d, t.Makes (Value body) d → Ends body d := by
  refine ⟨fun hrun d hd => ?_, run_of_ends⟩
  obtain ⟨n, a, hn⟩ := hrun
  obtain ⟨r, hr⟩ := hd.answered Value.eq_eval hn
  exact ⟨r, n, hr⟩

theorem run_iff_gives {t : Calls C R α} {a : α} : (∃ n, t.run (eval body n) = some a) ↔ t.Gives (Value body) a := by
  constructor
  · rintro ⟨n, hn⟩
    exact .of_run (fun _ _ _ hr => ⟨n, hr⟩) hn
  · intro h
    induction h with
    | done => exact ⟨0, rfl⟩
    | call hr _ ih =>
        obtain ⟨n, hn⟩ := hr
        obtain ⟨m, hm⟩ := ih
        refine ⟨max n m, ?_⟩
        rw [Calls.run, eval_mono (le_max_left n m) hn]
        exact Calls.run_mono (fun _ _ => eval_mono (le_max_right n m)) hm

theorem value_iff_gives {c : C} {r : R} : Value body c r ↔ (body c).Gives (Value body) r := by
  rw [← run_iff_gives]
  constructor
  · rintro ⟨n, hn⟩
    cases n with
    | zero => cases hn
    | succ n => exact ⟨n, hn⟩
  · rintro ⟨n, hn⟩
    exact ⟨n + 1, hn⟩

theorem acc_of_eval {n : Nat} {c : C} {r : R} (h : eval body n c = some r) : Acc (fun d c => Calling body c d) c := by
  induction n generalizing c r with
  | zero => cases h
  | succ n ih =>
      refine Acc.intro c fun d hd => ?_
      obtain ⟨r', hr'⟩ := Calls.Makes.answered Value.eq_eval hd h
      exact ih hr'

/-- **Termination.** A call ends if and only if calls are not nested infinitely below it. -/
theorem ends_iff_acc {c : C} : Ends body c ↔ Acc (fun d c => Calling body c d) c := by
  constructor
  · rintro ⟨r, n, hn⟩
    exact acc_of_eval hn
  · intro hacc
    induction hacc with
    | intro c _ ih =>
        obtain ⟨n, r, hn⟩ := run_of_ends ih
        exact ⟨r, n + 1, hn⟩

theorem not_self_of_acc {r : C → C → Prop} {c : C} (h : Acc r c) : ¬ r c c := by
  induction h with
  | intro c _ ih => exact fun hself => ih c hself hself

theorem not_ends_of_calling_self {c : C} (h : Calling body c c) : ¬ Ends body c := fun hends =>
  not_self_of_acc (ends_iff_acc.mp hends) h

/-! ## Finitely many calls -/

/-- A call that is made in the first one, or in one that is made there, and so on. -/
def LeadsTo (body : C → Calls C R R) : C → C → Prop := Relation.TransGen (Calling body)

theorem leadsTo_of_descent {f : Nat → C} (hf : ∀ n, Calling body (f n) (f (n + 1))) (i k : Nat) :
    LeadsTo body (f i) (f (i + k + 1)) := by
  induction k with
  | zero => exact .single (hf i)
  | succ k ih => exact .tail ih (hf (i + k + 1))

/-- **Termination with finitely many calls.** If only finitely many of the calls below it make calls, a call ends if and only if neither it
nor one of these leads to itself. -/
theorem ends_iff_no_cycle {c : C} (hfinite : {d | LeadsTo body c d ∧ ∃ e, Calling body d e}.Finite) :
    Ends body c ↔ ∀ d, c = d ∨ LeadsTo body c d → ¬ LeadsTo body d d := by
  rw [ends_iff_acc]
  constructor
  · intro hacc d hd hcycle
    have hd' : Acc (Relation.TransGen fun d c => Calling body c d) d := by
      rcases hd with rfl | hd
      · exact hacc.transGen
      · exact hacc.transGen.inv (Relation.transGen_swap.mpr hd)
    exact not_self_of_acc hd' (Relation.transGen_swap.mpr hcycle)
  · intro hcycle
    by_contra hnot
    obtain ⟨f, rfl, hf⟩ := not_acc_iff_exists_descending_chain.mp hnot
    have hbelow : ∀ i, LeadsTo body (f 0) (f (i + 1)) := fun i => by
      have hlead := leadsTo_of_descent hf 0 i
      rwa [Nat.zero_add] at hlead
    have hback : ∀ i j, i < j → f (i + 1) ≠ f (j + 1) := fun i j hlt heq => by
      obtain ⟨k, rfl⟩ := Nat.exists_eq_add_of_lt hlt
      refine hcycle _ (.inr (hbelow i)) ?_
      have hlead := leadsTo_of_descent hf (i + 1) k
      rwa [show i + 1 + k + 1 = i + k + 1 + 1 by omega, ← heq] at hlead
    have hmem : ∀ i, f (i + 1) ∈ {d | LeadsTo body (f 0) d ∧ ∃ e, Calling body d e} := fun i =>
      ⟨hbelow i, f (i + 2), hf (i + 1)⟩
    refine Set.infinite_of_injective_forall_mem (fun i j heq => ?_) hmem hfinite
    rcases Nat.lt_trichotomy i j with hlt | heq' | hgt
    · exact absurd heq (hback i j hlt)
    · exact heq'
    · exact absurd heq.symm (hback j i hgt)

/-! ## What is evaluated -/

/-- A call that a computation makes, or one below such a call. -/
def Evaluated (body : C → Calls C R R) (t : Calls C R α) (c : C) : Prop :=
  ∃ first, t.Makes (Value body) first ∧ (first = c ∨ LeadsTo body first c)

section Agreement

variable {body' : C → Calls C R R} {Good : C → Prop}

/-- A call and all those below it. -/
def Throughout (body : C → Calls C R R) (Good : C → Prop) (c : C) : Prop := ∀ d, c = d ∨ LeadsTo body c d → Good d

theorem Throughout.calling {c d : C} (h : Throughout body Good c) (hd : Calling body c d) : Throughout body Good d := by
  rintro e (rfl | he)
  · exact h d (.inr (.single hd))
  · exact h e (.inr (.head hd he))

/-- Where two procedures agree on all that is evaluated by the first, its values are those of the second. -/
theorem value_of_agree (hagree : ∀ c, Good c → body c = body' c) {c : C} (hgood : Throughout body Good c) {r : R}
    (h : Value body' c r) : Value body c r := by
  obtain ⟨n, hn⟩ := h
  induction n generalizing c r with
  | zero => cases hn
  | succ n ih =>
      rw [eval, ← hagree c (hgood c (.inl rfl))] at hn
      exact value_iff_gives.mpr (.of_run (fun d r' hd => ih (hgood.calling hd)) hn)

theorem makes_of_agree (hagree : ∀ c, Good c → body c = body' c) {t : Calls C R α} {d : C} (h : t.Makes (Value body') d)
    (hgood : ∀ c, t.Makes (Value body) c → Throughout body Good c) : t.Makes (Value body) d := by
  induction h with
  | here => exact .here
  | later hr _ ih =>
      have hvalue := value_of_agree hagree (hgood _ .here) hr
      exact .later hvalue (ih fun c hc => hgood c (.later hvalue hc))

theorem leadsTo_of_agree (hagree : ∀ c, Good c → body c = body' c) {c d : C} (hgood : Throughout body Good c)
    (h : LeadsTo body' c d) : LeadsTo body c d := by
  have hcalling : ∀ {c d}, Throughout body Good c → Calling body' c d → Calling body c d := fun {c d} hgood h => by
    unfold Calling at h
    rw [← hagree c (hgood c (.inl rfl))] at h
    exact makes_of_agree hagree h fun e he => hgood.calling he
  induction h using Relation.TransGen.head_induction_on with
  | single h => exact .single (hcalling hgood h)
  | head h _ ih => exact .head (hcalling hgood h) (ih (hgood.calling (hcalling hgood h)))

theorem evaluated_of_agree (hagree : ∀ c, Good c → body c = body' c) {t : Calls C R α}
    (hgood : ∀ c, Evaluated body t c → Good c) {c : C} (h : Evaluated body' t c) : Evaluated body t c := by
  have hthroughout : ∀ c, t.Makes (Value body) c → Throughout body Good c := fun c hc d hd => hgood d ⟨c, hc, hd⟩
  obtain ⟨first, hmakes, hbelow⟩ := h
  have hmakes' := makes_of_agree hagree hmakes hthroughout
  refine ⟨first, hmakes', ?_⟩
  rcases hbelow with rfl | hbelow
  · exact .inl rfl
  · exact .inr (leadsTo_of_agree hagree (hthroughout first hmakes') hbelow)

/-- **Agreement.** Two procedures that agree on good calls both evaluate good calls only, or neither does. -/
theorem evaluated_good_iff (hagree : ∀ c, Good c → body c = body' c) (t : Calls C R α) :
    (∀ c, Evaluated body t c → Good c) ↔ ∀ c, Evaluated body' t c → Good c :=
  ⟨fun h c hc => h c (evaluated_of_agree hagree h hc),
    fun h c hc => h c (evaluated_of_agree (fun c hgood => (hagree c hgood).symm) h hc)⟩

end Agreement

end Recursion

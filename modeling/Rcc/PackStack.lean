import Rcc.PreprocessFile

/-!
# The memory of the pack stack

`pack_align_stack` has sixteen elements, and its index is a variable that every
`#pragma pack` of an invocation shares. A push writes the element at the index and
moves it up, a pop moves it down and reads the element there; neither looks at it
first. So the index is the number of pushes less the number of pops, whatever the
memory holds, and that number alone tells which elements are touched.

`PackMem` keeps the index and the memory around the array as they are. Where
nothing outside is touched it is the list that the preprocessor is modelled with,
and a text that the preprocessor goes through is a run of the memory that stays inside.
-/

namespace Rcc.PragmaPack

/-! ## The array -/

/-- `pack_align`, `pack_align_idx`, and the memory by its index from `pack_align_stack`. -/
structure PackMem where
  align : Nat
  idx : Int
  cells : Int → Nat

/-- Before the first file. Behind the array there is what there is. -/
def PackMem.start (cells : Int → Nat) : PackMem := ⟨0, 0, cells⟩

/-- The length of `pack_align_stack`. -/
def packStackSize : Int := 16

/-- What stands in the parentheses of a directive. -/
def operand (s : List Char) : List Char := skipChar '(' (skipBlanks s)

def isPush (s : List Char) : Bool := ['p', 'u', 's', 'h'].isPrefixOf (operand s)

def isPop (s : List Char) : Bool := ! isPush s && ['p', 'o', 'p'].isPrefixOf (operand s)

/-- The branch of `preprocess_file` for `#pragma pack`, with the indices at which
it touches `pack_align_stack`. -/
def packTurn (m : PackMem) (s : List Char) : PackMem × List Int :=
  if isPush s then
    let s := skipChar ',' (skipBlanks ((operand s).drop 4))
    (⟨(digit s).getD m.align, m.idx + 1, Function.update m.cells m.idx m.align⟩, [m.idx])
  else if isPop s then (⟨m.cells (m.idx - 1), m.idx - 1, m.cells⟩, [m.idx - 1])
  else (⟨(digit (operand s)).getD m.align, m.idx, m.cells⟩, [])

/-- The directives of an invocation, one after the other. -/
def packRun (m : PackMem) : List (List Char) → PackMem × List Int
  | [] => (m, [])
  | s :: rest => ((packRun (packTurn m s).1 rest).1, (packTurn m s).2 ++ (packRun (packTurn m s).1 rest).2)

/-- All the elements that are touched are in the array, and the index is in it or
behind its last element all the time. -/
def InBounds (m : PackMem) (texts : List (List Char)) : Prop :=
  ∀ before after, texts = before ++ after →
    (0 ≤ (packRun m before).1.idx ∧ (packRun m before).1.idx ≤ packStackSize) ∧
      ∀ i ∈ (packRun m before).2, 0 ≤ i ∧ i < packStackSize

/-! ## The index -/

/-- The pushes of the directives less the pops. -/
def depth : List (List Char) → Int
  | [] => 0
  | s :: rest => (if isPush s then 1 else if isPop s then -1 else 0) + depth rest

variable {m : PackMem} {s : List Char} {texts before after : List (List Char)}

theorem packTurn_idx (m : PackMem) (s : List Char) : (packTurn m s).1.idx = m.idx + depth [s] := by
  rw [packTurn, depth, depth, Int.add_zero]
  split
  · rfl
  · split
    · rfl
    · exact (Int.add_zero _).symm

theorem depth_append (before after : List (List Char)) : depth (before ++ after) = depth before + depth after := by
  induction before with
  | nil => exact (Int.zero_add _).symm
  | cons s rest ih => rw [List.cons_append, depth, depth, ih, Int.add_assoc]

/-- The index follows the directives alone. -/
theorem packRun_idx (m : PackMem) (texts : List (List Char)) : (packRun m texts).1.idx = m.idx + depth texts := by
  induction texts generalizing m with
  | nil => exact (Int.add_zero _).symm
  | cons s rest ih =>
      have hdepth : depth (s :: rest) = depth [s] + depth rest := depth_append [s] rest
      rw [packRun, ih, packTurn_idx, hdepth, Int.add_assoc]

theorem packRun_append (m : PackMem) (before after : List (List Char)) : packRun m (before ++ after) =
    ((packRun (packRun m before).1 after).1, (packRun m before).2 ++ (packRun (packRun m before).1 after).2) := by
  induction before generalizing m with
  | nil => rfl
  | cons s rest ih => rw [List.cons_append, packRun, ih, packRun, List.append_assoc]

/-- One more directive touches what it does at the index reached. -/
theorem packRun_snoc (m : PackMem) (before : List (List Char)) (s : List Char) :
    (packRun m (before ++ [s])).2 = (packRun m before).2 ++ (packTurn (packRun m before).1 s).2 := by
  rw [packRun_append, packRun, packRun, List.append_nil]

/-- A push has room, and a pop has something to take away. -/
def HasPlace (n : Int) (s : List Char) : Prop :=
  (isPush s = true → n < packStackSize) ∧ (isPop s = true → 0 < n)

/-- One directive, at an index of the array or behind its last element. -/
theorem packTurn_inside (h0 : 0 ≤ m.idx) (h16 : m.idx ≤ packStackSize) :
    (∀ i ∈ (packTurn m s).2, 0 ≤ i ∧ i < packStackSize) ↔ HasPlace m.idx s := by
  have hpop : isPush s = true → isPop s = false := fun hs => by rw [isPop, hs]; rfl
  rw [packTurn, HasPlace]
  split
  · next hs =>
      rw [hpop hs]
      simp only [List.mem_singleton, forall_eq, h0, hs, true_and, forall_true_left, Bool.false_eq_true,
        false_imp_iff, and_true]
  · next hs =>
      split
      · next hs' =>
          simp only [List.mem_singleton, forall_eq, hs, hs', Bool.false_eq_true, false_imp_iff, true_and,
            forall_true_left]
          omega
      · next hs' =>
          simp only [List.not_mem_nil, false_imp_iff, implies_true, hs, hs', Bool.false_eq_true, and_self]

theorem packTurn_idx_inside (h0 : 0 ≤ m.idx) (h16 : m.idx ≤ packStackSize) (h : HasPlace m.idx s) :
    0 ≤ (packTurn m s).1.idx ∧ (packTurn m s).1.idx ≤ packStackSize := by
  rw [packTurn_idx, depth, depth]
  split
  · next hs =>
      have hroom := h.1 hs
      omega
  · split
    · next hs =>
        have hsome := h.2 hs
        omega
    · omega

theorem inBounds_prefix (h : InBounds m (before ++ after)) : InBounds m before :=
  fun first last hsplit => h first (last ++ after) (by rw [hsplit, List.append_assoc])

theorem inBounds_snoc : InBounds m (texts ++ [s]) ↔ InBounds m texts ∧ HasPlace (packRun m texts).1.idx s := by
  constructor
  · intro h
    have hbefore := inBounds_prefix h
    obtain ⟨⟨h0, h16⟩, _⟩ := hbefore texts [] (List.append_nil _).symm
    refine ⟨hbefore, (packTurn_inside h0 h16).mp fun i hi => ?_⟩
    refine (h (texts ++ [s]) [] (List.append_nil _).symm).2 i ?_
    rw [packRun_snoc]
    exact List.mem_append_right _ hi
  · intro hboth first last hsplit
    obtain ⟨h, hplace⟩ := hboth
    rcases List.eq_nil_or_concat last with rfl | ⟨last, _, rfl⟩
    · rw [List.append_nil] at hsplit
      obtain ⟨⟨h0, h16⟩, haccess⟩ := h texts [] (List.append_nil _).symm
      rw [← hsplit]
      constructor
      · rw [packRun_append]
        exact packTurn_idx_inside h0 h16 hplace
      · intro i hi
        rw [packRun_snoc] at hi
        rcases List.mem_append.mp hi with hi | hi
        · exact haccess i hi
        · exact (packTurn_inside h0 h16).mpr hplace i hi
    · rw [List.concat_eq_append, ← List.append_assoc] at hsplit
      obtain ⟨hsplit, _⟩ := List.append_inj' hsplit rfl
      exact h first last hsplit

theorem inBounds_start (cells : Int → Nat) : InBounds (.start cells) [] := by
  intro before after h
  obtain ⟨rfl, _⟩ := List.nil_eq_append_iff.mp h
  exact ⟨⟨le_refl (0 : Int), (by decide : (0 : Int) ≤ packStackSize)⟩, fun i hi => absurd hi List.not_mem_nil⟩

/-- **The bounds of the pack stack.** From the start of an invocation, through every
sequence of directives and whatever is behind the array: nothing outside is touched
if and only if no push has sixteen more pushes than pops before it, and no pop as
many pops as pushes. -/
theorem pack_in_bounds_iff (cells : Int → Nat) (texts : List (List Char)) :
    InBounds (.start cells) texts ↔ ∀ before s after, texts = before ++ s :: after → HasPlace (depth before) s := by
  have hidx : ∀ before, (packRun (.start cells) before).1.idx = depth before := by
    intro before
    rw [packRun_idx]
    exact Int.zero_add _
  induction texts using List.reverseRecOn with
  | nil =>
      exact iff_of_true (inBounds_start cells) fun before s after h => by simp at h
  | append_singleton texts s ih =>
      rw [inBounds_snoc, hidx]
      refine (and_congr ih Iff.rfl).trans ?_
      constructor
      · intro hboth before s' after hsplit
        obtain ⟨hall, hlast⟩ := hboth
        rcases List.eq_nil_or_concat after with rfl | ⟨after, _, rfl⟩
        · obtain ⟨rfl, hs⟩ := List.append_inj' hsplit rfl
          exact List.singleton_inj.mp hs ▸ hlast
        · rw [List.concat_eq_append, ← List.cons_append, ← List.append_assoc] at hsplit
          obtain ⟨hsplit, _⟩ := List.append_inj' hsplit rfl
          exact hall before s' after hsplit
      · intro hall
        refine ⟨fun before s' after hsplit => ?_, hall texts s [] rfl⟩
        refine hall before s' (after ++ [s]) ?_
        rw [hsplit, List.append_assoc, List.cons_append]

/-- `#pragma pack(pop)` with nothing pushed reads the element before the array. -/
theorem pop_out_of_bounds : ¬ InBounds (.start fun _ => 0) ["(pop)".toList] := by
  intro h
  have hread : (packRun (.start fun _ => 0) ["(pop)".toList]).2 = [-1] := by decide
  have hinside := (h ["(pop)".toList] [] rfl).2 (-1) (by rw [hread]; exact List.mem_singleton_self _)
  exact absurd hinside.1 (by decide)

/-! ## The list of the preprocessor -/

/-- The elements below an index, the last one first. -/
def elements (cells : Int → Nat) : Nat → List Nat
  | 0 => []
  | n + 1 => cells n :: elements cells n

theorem elements_update (cells : Int → Nat) (v : Nat) {n k : Nat} (h : n ≤ k) :
    elements (Function.update cells k v) n = elements cells n := by
  induction n with
  | zero => rfl
  | succ n ih =>
      have hne : (n : Int) ≠ k := by omega
      rw [elements, elements, Function.update_of_ne hne, ih (Nat.le_of_succ_le h)]

/-- The memory holds what the list does. -/
structure Holds (m : PackMem) (st : PackState) : Prop where
  align : m.align = st.align
  idx : m.idx = st.stack.length
  cells : elements m.cells st.stack.length = st.stack

theorem holds_start (cells : Int → Nat) : Holds (.start cells) ⟨0, []⟩ := ⟨rfl, rfl, rfl⟩

variable {st st' : PackState} {lines : List Line}

/-- The list has room for a directive where the array has. -/
theorem pragmaPack_hasPlace (h : Holds m st) : (pragmaPack st s).isSome = true ↔ HasPlace m.idx s := by
  have hidx := h.idx
  rw [pragmaPack, HasPlace, packStackSize, isPop, isPush, operand]
  split
  · next hs =>
      simp only [hs, Bool.not_true, Bool.false_and, Bool.false_eq_true, false_imp_iff, and_true, forall_true_left]
      split
      · exact iff_of_true rfl (by omega)
      · exact iff_of_false (by exact Bool.false_ne_true) (by omega)
  · next hs =>
      simp only [hs, Bool.not_false, Bool.true_and, Bool.false_eq_true, false_imp_iff, true_and]
      split
      · next hs' =>
          simp only [hs', forall_true_left]
          cases hst : st.stack with
          | nil =>
              rw [hst] at hidx
              exact iff_of_false Bool.false_ne_true (by rw [hidx]; decide)
          | cons align below =>
              rw [hst] at hidx
              refine iff_of_true rfl ?_
              rw [hidx, List.length_cons]
              omega
      · next hs' =>
          refine iff_of_true ?_ fun hpop => absurd hpop hs'
          split
          · rfl
          · rfl

/-- One directive on the memory and on the list. -/
theorem packTurn_holds (h : Holds m st) (hs : pragmaPack st s = some (st', lines)) : Holds (packTurn m s).1 st' := by
  have halign := h.align
  have hidx := h.idx
  have hcells := h.cells
  rw [pragmaPack] at hs
  rw [packTurn, isPop, isPush, operand]
  split at hs
  · next hpush =>
      rw [if_pos hpush]
      obtain ⟨_, hs⟩ := Option.ite_none_right_eq_some.mp hs
      obtain ⟨rfl, _⟩ := Prod.mk.inj (Option.some_inj.mp hs)
      refine ⟨?_, ?_, ?_⟩
      · dsimp only
        rw [halign]
      · dsimp only
        rw [hidx, List.length_cons, Nat.cast_succ]
      · dsimp only
        rw [List.length_cons, elements, hidx, Function.update_self, elements_update _ _ (Nat.le_refl _), hcells, halign]
  · next hpush =>
      rw [if_neg hpush]
      split at hs
      · next hpop =>
          rw [if_pos (by rw [hpop, Bool.and_true, Bool.not_eq_true', Bool.eq_false_iff]; exact hpush)]
          cases hst : st.stack with
          | nil =>
              rw [hst] at hs
              exact absurd hs.symm (Option.some_ne_none _)
          | cons align below =>
              rw [hst] at hs hidx hcells
              obtain ⟨rfl, _⟩ := Prod.mk.inj (Option.some_inj.mp hs)
              have hlast : m.idx - 1 = (below.length : Int) := by
                rw [hidx, List.length_cons]
                omega
              rw [List.length_cons, elements] at hcells
              obtain ⟨hhead, htail⟩ := List.cons.inj hcells
              refine ⟨?_, ?_, ?_⟩
              · dsimp only
                rw [hlast, hhead]
              · exact hlast
              · exact htail
      · next hpop =>
          rw [if_neg (by rw [Bool.eq_false_iff.mpr hpop, Bool.and_false]; exact Bool.false_ne_true)]
          cases hdigit : digit (skipChar '(' (skipBlanks s)) with
          | none =>
              rw [hdigit] at hs
              obtain ⟨rfl, _⟩ := Prod.mk.inj (Option.some_inj.mp hs)
              exact h
          | some n =>
              rw [hdigit] at hs
              obtain ⟨rfl, _⟩ := Prod.mk.inj (Option.some_inj.mp hs)
              exact ⟨rfl, hidx, hcells⟩

/-- The directives on the list. -/
def Packed (st : PackState) (texts : List (List Char)) (st' : PackState) : Prop :=
  texts.foldlM (fun st s => (pragmaPack st s).map Prod.fst) st = some st'

theorem Packed.nil (st : PackState) : Packed st [] st := rfl

theorem Packed.append {st₁ : PackState} (h : Packed st before st₁) (h' : Packed st₁ after st') :
    Packed st (before ++ after) st' := by
  rw [Packed, List.foldlM_append]
  exact Option.bind_eq_some_iff.mpr ⟨st₁, h, h'⟩

theorem Packed.one (h : pragmaPack st s = some (st', lines)) : Packed st [s] st' := by
  rw [Packed, List.foldlM_cons, h]
  rfl

/-- What the list goes through stays in the array, and ends with the same elements. -/
theorem Packed.inBounds {cells : Int → Nat} (h : Packed ⟨0, []⟩ texts st) :
    InBounds (.start cells) texts ∧ Holds (packRun (.start cells) texts).1 st := by
  induction texts using List.reverseRecOn generalizing st with
  | nil =>
      obtain rfl := Option.some_inj.mp h
      exact ⟨inBounds_start cells, holds_start cells⟩
  | append_singleton texts s ih =>
      obtain ⟨st₁, hbefore, hlast⟩ := Steps.foldlM_snoc.mp h
      obtain ⟨⟨st₂, lines⟩, hpack, rfl⟩ := Option.map_eq_some_iff.mp hlast
      obtain ⟨hin, hholds⟩ := ih hbefore
      constructor
      · refine inBounds_snoc.mpr ⟨hin, (pragmaPack_hasPlace hholds).mp ?_⟩
        rw [hpack]
        rfl
      · rw [packRun_append, packRun, packRun]
        exact packTurn_holds hholds hpack

end Rcc.PragmaPack

/-! ## The files -/

namespace Rcc.Preprocess

open Lexer (Text)
open Files (Preprocessor)
open PragmaPack (PackState Packed)

variable {ctx : Context} {s t : FileState}

/-- There are directives that take the one packing to the other. -/
def Repacked (pack pack' : PackState) : Prop := ∃ texts, Packed pack texts pack'

theorem Repacked.refl (pack : PackState) : Repacked pack pack := ⟨[], .nil pack⟩

theorem Repacked.of_eq {pack pack' : PackState} (h : pack' = pack) : Repacked pack pack' := h ▸ .refl pack

theorem Repacked.trans {pack pack₁ pack' : PackState} (h : Repacked pack pack₁) (h' : Repacked pack₁ pack') :
    Repacked pack pack' := by
  obtain ⟨before, hbefore⟩ := h
  obtain ⟨after, hafter⟩ := h'
  exact ⟨before ++ after, hbefore.append hafter⟩

theorem pragma_repacked {p : Text} (h : pragma ctx s p = some t) : Repacked s.pack t.pack := by
  have hchange : ∀ change q, (pragmaMacro s change q).pack = s.pack := by
    intro change q
    rw [pragmaMacro.eq_def]
    split
    · rfl
    · rfl
  rw [pragma] at h
  split at h
  · obtain rfl := Option.some_inj.mp h
    exact .refl _
  split at h
  · obtain ⟨⟨pack, lines⟩, hpack, rfl⟩ := Option.map_eq_some_iff.mp h
    exact ⟨[p.drop 4], .one hpack⟩
  split at h
  · obtain rfl := Option.some_inj.mp h
    exact .of_eq (hchange _ _)
  split at h
  · obtain rfl := Option.some_inj.mp h
    exact .of_eq (hchange _ _)
  split at h
  · obtain rfl := Option.some_inj.mp h
    exact .refl _
  · obtain rfl := Option.some_inj.mp h
    exact .refl _

/-- The files inside of a file do with the packing what directives do. -/
def Context.Repacks (ctx : Context) : Prop :=
  ∀ pp pack name input pp' pack' out, ctx.included pp pack name input = some (pp', pack', out) → Repacked pack pack'

theorem includeFile_repacked (hctx : ctx.Repacks) {spec : Text} {isAngle : Bool}
    (h : includeFile ctx s spec isAngle = some t) : Repacked s.pack t.pack := by
  obtain ⟨path, _, h⟩ := Option.bind_eq_some_iff.mp h
  obtain ⟨inc, _, h⟩ := Option.bind_eq_some_iff.mp h
  obtain ⟨⟨pp, pack, text⟩, hfile, rfl⟩ := Option.map_eq_some_iff.mp h
  exact hctx _ _ _ _ _ _ _ hfile

theorem include_repacked (hctx : ctx.Repacks) {p : Text} (h : include_ ctx s p = some t) : Repacked s.pack t.pack := by
  rw [include_] at h
  split at h
  · exact includeFile_repacked hctx h
  · obtain ⟨⟨pp, sb⟩, _, h⟩ := Option.bind_eq_some_iff.mp h
    dsimp only at h
    split at h
    · exact @includeFile_repacked ctx { s with pp } t hctx _ _ h
    · obtain rfl := Option.some_inj.mp h
      exact .refl _

theorem runDirective_repacked (hctx : ctx.Repacks) {count : Nat} {p : Text}
    (h : runDirective ctx s count p = some t) : Repacked s.pack t.pack := by
  rw [runDirective] at h
  split at h
  · exact pragma_repacked h
  · obtain ⟨table, _, rfl⟩ := Option.map_eq_some_iff.mp h
    exact .refl _
  · obtain rfl := Option.some_inj.mp h
    exact .refl _
  · exact include_repacked hctx h
  · obtain ⟨⟨pp, val⟩, _, rfl⟩ := Option.map_eq_some_iff.mp h
    exact .refl _
  · rw [elif] at h
    split at h
    · obtain rfl := Option.some_inj.mp h
      exact .refl _
    · split at h
      · obtain rfl := Option.some_inj.mp h
        exact .refl _
      · obtain ⟨⟨pp, val⟩, _, rfl⟩ := Option.map_eq_some_iff.mp h
        exact .refl _
  · obtain rfl := Option.some_inj.mp h
    exact .refl _
  · obtain rfl := Option.some_inj.mp h
    exact .refl _
  · obtain rfl := Option.some_inj.mp h
    rw [else_]
    split
    · exact .refl _
    · exact .refl _
  · obtain rfl := Option.some_inj.mp h
    rw [endif]
    split
    · exact .refl _
    · exact .refl _
  · obtain rfl := Option.some_inj.mp h
    exact .refl _

theorem step_repacked (hctx : ctx.Repacks) {line : Line} (h : step ctx s line = some t) : Repacked s.pack t.pack := by
  obtain ⟨s₁, hturn, rfl⟩ := Option.map_eq_some_iff.mp h
  rw [turn] at hturn
  split at hturn
  · obtain ⟨s₂, hflush, hrun⟩ := Option.bind_eq_some_iff.mp hturn
    have hrepacked := runDirective_repacked hctx hrun
    rw [(quiet_flush hflush).pack] at hrepacked
    exact hrepacked
  · split at hturn
    · exact .of_eq (quiet_runText hturn).pack
    · obtain ⟨s₂, hflush, rfl⟩ := Option.map_eq_some_iff.mp hturn
      exact .of_eq (quiet_flush hflush).pack

theorem preprocessFile_repacked (fs : FileSystem) (n : Nat) : ∀ pp pack name input pp' pack' out,
    preprocessFile fs n pp pack name input = some (pp', pack', out) → Repacked pack pack' := by
  induction n with
  | zero =>
      intro pp pack name input pp' pack' out h
      rw [preprocessFile] at h
      split at h
      · obtain ⟨_, rfl, _⟩ := Prod.mk.injEq _ _ _ _ ▸ Option.some_inj.mp h
        exact .refl _
      · exact absurd h.symm (Option.some_ne_none _)
  | succ n ih =>
      intro pp pack name input pp' pack' out h
      rw [preprocessFile] at h
      split at h
      · obtain ⟨_, heq⟩ := Prod.mk.inj (Option.some_inj.mp h)
        obtain ⟨rfl, _⟩ := Prod.mk.inj heq
        exact .refl _
      · obtain ⟨t, hlines, heq⟩ := Option.map_eq_some_iff.mp h
        obtain ⟨_, heq⟩ := Prod.mk.inj heq
        obtain ⟨rfl, _⟩ := Prod.mk.inj heq
        obtain ⟨s, hrun, hflush⟩ := Option.bind_eq_some_iff.mp hlines
        have hctx : Context.Repacks ⟨fs, name, fullPath fs name, preprocessFile fs n⟩ := ih
        have hrepacked : Repacked pack s.pack :=
          Steps.invariant (I := fun s => Repacked pack s.pack)
            (fun _ _ _ hs hstep => hs.trans (step_repacked hctx hstep)) (.refl pack) hrun
        exact hrepacked.trans (.of_eq (quiet_flush hflush).pack)

/-- The input files, one after the other, and what is left of the packing. `reset` is
what the driver does with the macros between two of them. -/
def preprocessAll (fs : FileSystem) (reset : Preprocessor → Preprocessor) :
    Preprocessor → PackState → List (Text × Text) → Option PackState
  | _, pack, [] => some pack
  | pp, pack, (name, input) :: rest =>
      (preprocess fs (reset pp) pack name input).bind fun (pp, pack, _) => preprocessAll fs reset pp pack rest

theorem preprocessAll_repacked {fs : FileSystem} {reset : Preprocessor → Preprocessor} {pp : Preprocessor}
    {start pack : PackState} {files : List (Text × Text)}
    (h : preprocessAll fs reset pp start files = some pack) : Repacked start pack := by
  induction files generalizing pp start with
  | nil => exact .of_eq (Option.some_inj.mp h).symm
  | cons file rest ih =>
      obtain ⟨⟨pp₁, pack₁, out⟩, hfile, hrest⟩ := Option.bind_eq_some_iff.mp h
      exact (preprocessFile_repacked fs _ _ _ _ _ _ _ _ hfile).trans (ih hrest)

/-- Where all the files have a result, nothing outside of the array was touched on the way
there, and it ends with what the memory holds. -/
theorem preprocessAll_inBounds {fs : FileSystem} {reset : Preprocessor → Preprocessor} {pp : Preprocessor}
    {pack : PackState} {files : List (Text × Text)} (cells : Int → Nat)
    (h : preprocessAll fs reset pp ⟨0, []⟩ files = some pack) :
    ∃ texts, PragmaPack.InBounds (.start cells) texts ∧
      PragmaPack.Holds (PragmaPack.packRun (.start cells) texts).1 pack := by
  obtain ⟨texts, htexts⟩ := preprocessAll_repacked h
  exact ⟨texts, htexts.inBounds⟩

end Rcc.Preprocess

import Rcc.Arena

/-!
# Interning

`str_intern` keeps every string it has seen in a table of chains by hash. All its strings, and all else that is cut from the
arena, are regions apart from each other (`Kept.apart`), so a string stays as it was written and its address is its
own. A chain has the strings of its hash and no others, so looking there is looking everywhere.
-/

namespace Rcc.Interning

open Arena

/-! ## The table -/

/-- Bytes of which a call can be told how many, with the one for the `\\0`, in an `int`. -/
abbrev Bytes := { bytes : List (BitVec 8) // bytes.length + 1 < 2 ^ 31 }

/-- FNV-1a -/
def hashStr (s : List (BitVec 8)) : BitVec 32 :=
  s.foldl (fun hash b => (hash ^^^ b.setWidth 32) * 16777619) 2166136261

/-- `hash_str(start, len) % HASH_SIZE` -/
def slot (s : List (BitVec 8)) : Fin 4096 := Fin.ofNat 4096 (hashStr s).toNat

structure InternedStr where
  str : Nat
  len : Nat
deriving DecidableEq, Repr

structure World where
  heap : Heap
  strings : Fin 4096 → List InternedStr

/-- `s->len == len && !memcmp(s->str, start, len)` -/
def InternedStr.same (mem : Mem) (bytes : List (BitVec 8)) (s : InternedStr) : Bool :=
  s.len == bytes.length && read mem s.str bytes.length == bytes

/-- A new entry at the head of its chain. -/
def World.enter (c : Calloc) (w : World) (bytes : List (BitVec 8)) : Nat × World :=
  let (_, heap) := arenaAlloc c w.heap 24
  let (str, heap) := arenaAlloc c heap (BitVec.ofNat 64 (bytes.length + 1))
  (str,
    { heap := { heap with mem := write heap.mem str (bytes ++ [0]) }
      strings := Function.update w.strings (slot bytes) (⟨str, bytes.length⟩ :: w.strings (slot bytes)) })

/-- `str_intern` -/
def World.strIntern (c : Calloc) (w : World) (bytes : List (BitVec 8)) : Nat × World :=
  match (w.strings (slot bytes)).find? (·.same w.heap.mem bytes) with
  | some s => (s.str, w)
  | none => w.enter c bytes

/-! ## Runs -/

/-- Something else that is put into the arena, such as what `format` returns. -/
structure Object where
  size : Nat
  bytes : List (BitVec 8)
  fits : bytes.length ≤ size
  size_lt : size < 2 ^ 61

inductive Call where
  | intern (bytes : Bytes)
  | alloc (object : Object)

def World.call (c : Calloc) (w : World) : Call → Nat × World
  | .intern bytes => w.strIntern c bytes.1
  | .alloc object =>
      let (p, heap) := arenaAlloc c w.heap (BitVec.ofNat 64 object.size)
      (p, { w with heap := { heap with mem := write heap.mem p object.bytes } })

/-- What each of some calls returns, and the world after them. -/
def World.run (c : Calloc) : World → List Call → List (Call × Nat) × World
  | w, [] => ([], w)
  | w, call :: calls =>
      let (p, w) := w.call c call
      let (returned, w) := w.run c calls
      ((call, p) :: returned, w)

/-- At the start; the program image is somewhere. -/
def World.init (mem : Mem) (image : List Region) : World := ⟨⟨mem, image, []⟩, fun _ => []⟩

/-! ## What is kept -/

/-- Something in the arena; a string, if it is one. -/
structure Live where
  region : Region
  string : Option (List (BitVec 8))

/-- These are in the arena, and the strings of them in the table. -/
structure Kept (image : List Region) (w : World) (live : List Live) : Prop where
  heap : w.heap.Ok
  image_eq : w.heap.others = image
  owned : ∀ l ∈ live, w.heap.Owned l.region
  apart : live.Pairwise fun l l' => l.region.Disjoint l'.region
  bytes : ∀ l ∈ live, ∀ s ∈ l.string, l.region.size = s.length + 1 ∧ read w.heap.mem l.region.start (s.length + 1) = s ++ [0]
  chains : ∀ i e, e ∈ w.strings i ↔ ∃ l ∈ live, ∃ s ∈ l.string, slot s = i ∧ e = ⟨l.region.start, s.length⟩
  once : ∀ l ∈ live, ∀ l' ∈ live, ∀ s, s ∈ l.string → s ∈ l'.string → l.region = l'.region

variable {image : List Region} {w w' : World} {live : List Live}

/-- What the call returned. -/
def Call.Returned (p : Nat) (live : List Live) : Call → Prop
  | .intern bytes => ∃ l ∈ live, bytes.1 ∈ l.string ∧ l.region.start = p
  | .alloc object => ∃ l ∈ live, l.string = none ∧ l.region = ⟨p, object.size⟩

theorem kept_init (mem : Mem) (image : List Region) : Kept image (World.init mem image) [] where
  heap :=
    { bounded := fun _ h => absurd h List.not_mem_nil
      aligned := fun _ h => absurd h List.not_mem_nil
      apart := List.Pairwise.nil
      outside := fun _ h => absurd h List.not_mem_nil
      small := fun _ h => absurd h List.not_mem_nil }
  image_eq := rfl
  owned _ h := absurd h List.not_mem_nil
  apart := List.Pairwise.nil
  bytes _ h := absurd h List.not_mem_nil
  chains i e := by
    refine iff_of_false List.not_mem_nil fun h => ?_
    obtain ⟨l, hl, -⟩ := h
    exact absurd hl List.not_mem_nil
  once _ h := absurd h List.not_mem_nil

/-! ## One call -/

/-- A heap that keeps what is owned. -/
theorem Kept.keeps (h : Kept image w live) {heap : Heap} (hok : heap.Ok) (hkeeps : w.heap.Keeps heap) :
    Kept image { w with heap := heap } live where
  heap := hok
  image_eq := hkeeps.others.trans h.image_eq
  owned l hl := hkeeps.owned _ (h.owned l hl)
  apart := h.apart
  bytes l hl s hs := by
    obtain ⟨hsize, hread⟩ := h.bytes l hl s hs
    refine ⟨hsize, (read_congr fun a hlow hhigh => ?_).trans hread⟩
    exact hkeeps.mem l.region (h.owned l hl) a hlow (hsize ▸ hhigh)
  chains := h.chains
  once := h.once

/-- A write to a region that is apart from all others. -/
theorem Kept.write (h : Kept image w live) {p size : Nat} {bytes : List (BitVec 8)} (hsize : bytes.length ≤ size)
    (hapart : ∀ l ∈ live, l.region.Disjoint ⟨p, size⟩) :
    Kept image { w with heap := { w.heap with mem := Arena.write w.heap.mem p bytes } } live where
  heap := { h.heap with }
  image_eq := h.image_eq
  owned := h.owned
  apart := h.apart
  bytes l hl s hs := by
    obtain ⟨hlen, hread⟩ := h.bytes l hl s hs
    refine ⟨hlen, (read_congr fun a hlow hhigh => ?_).trans hread⟩
    exact write_of_disjoint hsize (hapart l hl) hlow (hlen ▸ hhigh)
  chains := h.chains
  once := h.once

/-- A new region that is no string. -/
theorem Kept.object (h : Kept image w live) {r : Region} (howned : w.heap.Owned r)
    (hapart : ∀ l ∈ live, l.region.Disjoint r) : Kept image w (⟨r, none⟩ :: live) where
  heap := h.heap
  image_eq := h.image_eq
  owned := List.forall_mem_cons.mpr ⟨howned, h.owned⟩
  apart := List.Pairwise.cons (fun l hl => (hapart l hl).symm) h.apart
  bytes := List.forall_mem_cons.mpr ⟨(fun _ hs => by cases hs), h.bytes⟩
  chains i e := by
    refine (h.chains i e).trans ⟨fun hex => ?_, fun hex => ?_⟩
    · obtain ⟨l, hl, hrest⟩ := hex
      exact ⟨l, List.mem_cons_of_mem _ hl, hrest⟩
    · obtain ⟨l, hl, s, hs, hrest⟩ := hex
      rcases List.mem_cons.mp hl with rfl | hl
      · cases hs
      · exact ⟨l, hl, s, hs, hrest⟩
  once := by
    intro l hl l' hl' s hs hs'
    rcases List.mem_cons.mp hl with rfl | hl
    · cases hs
    · rcases List.mem_cons.mp hl' with rfl | hl'
      · cases hs'
      · exact h.once l hl l' hl' s hs hs'

/-- A new string, entered in the table. -/
theorem Kept.string (h : Kept image w live) {p : Nat} {s : List (BitVec 8)} (howned : w.heap.Owned ⟨p, s.length + 1⟩)
    (hapart : ∀ l ∈ live, l.region.Disjoint ⟨p, s.length + 1⟩) (hread : read w.heap.mem p (s.length + 1) = s ++ [0])
    (hnew : ∀ l ∈ live, s ∉ l.string) :
    Kept image { w with strings := Function.update w.strings (slot s) (⟨p, s.length⟩ :: w.strings (slot s)) }
      (⟨⟨p, s.length + 1⟩, some s⟩ :: live) where
  heap := h.heap
  image_eq := h.image_eq
  owned := List.forall_mem_cons.mpr ⟨howned, h.owned⟩
  apart := List.Pairwise.cons (fun l hl => (hapart l hl).symm) h.apart
  bytes := List.forall_mem_cons.mpr ⟨(fun s' hs => by cases hs; exact ⟨rfl, hread⟩), h.bytes⟩
  chains i e := by
    have hhead : (∃ l ∈ (⟨⟨p, s.length + 1⟩, some s⟩ :: live : List Live), ∃ s' ∈ l.string, slot s' = i ∧
        e = ⟨l.region.start, s'.length⟩) ↔ (slot s = i ∧ e = ⟨p, s.length⟩) ∨
          ∃ l ∈ live, ∃ s' ∈ l.string, slot s' = i ∧ e = ⟨l.region.start, s'.length⟩ := by
      rw [List.exists_mem_cons_iff]
      refine or_congr_left ⟨fun hex => ?_, fun hand => ⟨s, rfl, hand⟩⟩
      obtain ⟨s', hs', hrest⟩ := hex
      cases hs'
      exact hrest
    rw [hhead, ← h.chains i e]
    show e ∈ Function.update w.strings (slot s) (⟨p, s.length⟩ :: w.strings (slot s)) i ↔ _
    by_cases hi : slot s = i
    · subst hi
      rw [Function.update_self, List.mem_cons, eq_self, true_and]
    · rw [Function.update_of_ne (Ne.symm hi)]
      exact ⟨.inr, fun hor => hor.resolve_left fun hand => hi hand.1⟩
  once := by
    intro l hl l' hl' s' hs hs'
    rcases List.mem_cons.mp hl with rfl | hl
    · rcases List.mem_cons.mp hl' with rfl | hl'
      · rfl
      · cases hs
        exact absurd hs' (hnew l' hl')
    · rcases List.mem_cons.mp hl' with rfl | hl'
      · cases hs'
        exact absurd hs (hnew l hl)
      · exact h.once l hl l' hl' s' hs hs'

/-- The bytes before the `\0`. -/
theorem Kept.read_string (h : Kept image w live) {l : Live} (hl : l ∈ live) {s : List (BitVec 8)} (hs : s ∈ l.string) :
    read w.heap.mem l.region.start s.length = s := by
  have hread := (h.bytes l hl s hs).2
  rw [Arena.read, List.range_succ, List.map_append] at hread
  exact (List.append_inj' hread rfl).1

/-- An entry of its chain is the same string exactly when it is the entry of that string. -/
theorem Kept.same_iff (h : Kept image w live) {l : Live} (hl : l ∈ live) {s s' : List (BitVec 8)} (hs' : s' ∈ l.string) :
    InternedStr.same w.heap.mem s ⟨l.region.start, s'.length⟩ = true ↔ s' = s := by
  rw [InternedStr.same, Bool.and_eq_true, beq_iff_eq, beq_iff_eq]
  constructor
  · rintro ⟨hlen, hread⟩
    rw [← h.read_string hl hs', ← hread]
    exact congrArg (read w.heap.mem l.region.start) hlen
  · rintro rfl
    exact ⟨rfl, h.read_string hl hs'⟩

/-- Two requests and the write. -/
theorem Kept.enter (c : Calloc) (h : Kept image w live) (s : Bytes) (hnew : ∀ l ∈ live, s.1 ∉ l.string) {p : Nat}
    (hcall : w.enter c s.1 = (p, w')) : Kept image w' (⟨⟨p, s.1.length + 1⟩, some s.1⟩ :: live) := by
  have hlen := s.2
  have hsize : (BitVec.ofNat 64 (s.1.length + 1)).toNat = s.1.length + 1 := by
    rw [BitVec.toNat_ofNat, Nat.mod_eq_of_lt (by omega)]
  obtain ⟨⟨q, heap₁⟩, hfirst⟩ : ∃ first, arenaAlloc c w.heap 24 = first := ⟨_, rfl⟩
  obtain ⟨⟨str, heap₂⟩, hsecond⟩ : ∃ second, arenaAlloc c heap₁ (BitVec.ofNat 64 (s.1.length + 1)) = second := ⟨_, rfl⟩
  rw [World.enter, hfirst] at hcall
  simp only [hsecond] at hcall
  cases hcall
  obtain ⟨hok₁, hkeeps₁, -, -⟩ := arenaAlloc_ok c h.heap (by decide) hfirst
  obtain ⟨hok₂, hkeeps₂, howned, hapart⟩ := arenaAlloc_ok c hok₁ (by omega) hsecond
  rw [hsize] at howned hapart
  have hlive : ∀ l ∈ live, l.region.Disjoint ⟨p, s.1.length + 1⟩ := fun l hl =>
    hapart l.region (hkeeps₁.owned _ (h.owned l hl))
  have hbytes : (s.1 ++ [0]).length = s.1.length + 1 := List.length_append
  have hwritten := (h.keeps hok₂ (hkeeps₁.trans hkeeps₂)).write hbytes.le hlive
  exact hwritten.string howned hlive (hbytes ▸ read_write heap₂.mem p (s.1 ++ [0])) hnew

/-- `str_intern` returns where the string is, and it is there afterwards. -/
theorem Kept.strIntern (c : Calloc) (h : Kept image w live) (s : Bytes) {p : Nat} (hcall : w.strIntern c s.1 = (p, w')) :
    ∃ live', live ⊆ live' ∧ Kept image w' live' ∧ (Call.intern s).Returned p live' := by
  rw [World.strIntern] at hcall
  split at hcall
  · next e hfind =>
      cases hcall
      obtain ⟨l, hl, s', hs', -, rfl⟩ := (h.chains _ _).mp (List.mem_of_find?_eq_some hfind)
      have hsame := (h.same_iff hl hs').mp (List.find?_some hfind)
      exact ⟨live, List.Subset.refl _, h, l, hl, hsame ▸ hs', rfl⟩
  · next hfind =>
      refine ⟨_, List.subset_cons_self _ _, h.enter c s (fun l hl hs => ?_) hcall, _, List.mem_cons_self, rfl, rfl⟩
      have hentry := (h.chains (slot s.1) _).mpr ⟨l, hl, s.1, hs, rfl, rfl⟩
      exact List.find?_eq_none.mp hfind _ hentry ((h.same_iff hl hs).mpr rfl)

/-- Any other object. -/
theorem Kept.alloc (c : Calloc) (h : Kept image w live) (object : Object) {p : Nat}
    (hcall : w.call c (.alloc object) = (p, w')) :
    ∃ live', live ⊆ live' ∧ Kept image w' live' ∧ (Call.alloc object).Returned p live' := by
  have hlt := object.size_lt
  have hsize : (BitVec.ofNat 64 object.size).toNat = object.size := by
    rw [BitVec.toNat_ofNat, Nat.mod_eq_of_lt (by omega)]
  obtain ⟨⟨q, heap⟩, halloc⟩ : ∃ first, arenaAlloc c w.heap (BitVec.ofNat 64 object.size) = first := ⟨_, rfl⟩
  simp only [World.call, halloc] at hcall
  cases hcall
  obtain ⟨hok, hkeeps, howned, hapart⟩ := arenaAlloc_ok c h.heap (by omega) halloc
  rw [hsize] at howned hapart
  have hlive : ∀ l ∈ live, l.region.Disjoint ⟨p, object.size⟩ := fun l hl => hapart l.region (h.owned l hl)
  have hwritten := (h.keeps hok hkeeps).write object.fits hlive
  exact ⟨_, List.subset_cons_self _ _, hwritten.object howned hlive, _, List.mem_cons_self, rfl, rfl⟩

theorem Kept.call (c : Calloc) (h : Kept image w live) (call : Call) {p : Nat} (hcall : w.call c call = (p, w')) :
    ∃ live', live ⊆ live' ∧ Kept image w' live' ∧ call.Returned p live' := by
  cases call with
  | intern s => exact h.strIntern c s hcall
  | alloc object => exact h.alloc c object hcall

/-! ## All calls -/

theorem Call.Returned.mono {call : Call} {p : Nat} {live live' : List Live} (hsub : live ⊆ live')
    (h : call.Returned p live) : call.Returned p live' := by
  cases call with
  | intern s =>
      obtain ⟨l, hl, hrest⟩ := h
      exact ⟨l, hsub hl, hrest⟩
  | alloc object =>
      obtain ⟨l, hl, hrest⟩ := h
      exact ⟨l, hsub hl, hrest⟩

theorem Kept.run (c : Calloc) (calls : List Call) (h : Kept image w live) {returned : List (Call × Nat)}
    (hrun : w.run c calls = (returned, w')) :
    ∃ live', live ⊆ live' ∧ Kept image w' live' ∧ ∀ r ∈ returned, r.1.Returned r.2 live' := by
  induction calls generalizing w live returned with
  | nil =>
      cases hrun
      exact ⟨live, List.Subset.refl _, h, fun _ hr => absurd hr List.not_mem_nil⟩
  | cons call calls ih =>
      obtain ⟨⟨p, w₁⟩, hcall⟩ : ∃ first, w.call c call = first := ⟨_, rfl⟩
      obtain ⟨⟨rest, w₂⟩, hrest⟩ : ∃ then', w₁.run c calls = then' := ⟨_, rfl⟩
      rw [World.run, hcall] at hrun
      simp only [hrest] at hrun
      cases hrun
      obtain ⟨live₁, hsub₁, hkept₁, hreturned₁⟩ := h.call c call hcall
      obtain ⟨live₂, hsub₂, hkept₂, hreturned₂⟩ := ih hkept₁ hrest
      exact ⟨live₂, List.Subset.trans hsub₁ hsub₂, hkept₂, List.forall_mem_cons.mpr ⟨hreturned₁.mono hsub₂, hreturned₂⟩⟩

/-- Two strings at one address are one. -/
theorem Kept.string_unique (h : Kept image w live) {l l' : Live} (hl : l ∈ live) (hl' : l' ∈ live) {s s' : List (BitVec 8)}
    (hs : s ∈ l.string) (hs' : s' ∈ l'.string) : l.region.start = l'.region.start ↔ s = s' := by
  constructor
  · intro hstart
    have hsize := (h.bytes l hl s hs).1
    have hsize' := (h.bytes l' hl' s' hs').1
    have heq : l = l' := by
      by_contra hne
      have : Std.Symm fun l l' : Live => l.region.Disjoint l'.region := ⟨fun _ _ => Region.Disjoint.symm⟩
      exact Region.not_disjoint hstart (by omega) (by omega) (h.apart.forall hl hl' hne)
    subst heq
    cases hs.symm.trans hs'
    rfl
  · rintro rfl
    rw [h.once l hl l' hl' s hs hs']

/-! ## Names of variables -/

/-- What the lookups see of a variable: its name is a pointer. -/
structure LVar where
  name : Nat
  id : Nat
deriving DecidableEq, Repr

def findGlobalName (globals : List LVar) (name : Nat) : Option LVar := globals.find? (·.name == name)

def findVar (locals globals : List LVar) (name : Nat) : Option LVar :=
  match locals.find? (·.name == name) with
  | some var => some var
  | none => globals.find? (·.name == name)

/-- Where a name comes from, and its spelling if it is from the source: `str_intern` returned it. The parser's own names are
literals, such as `"__retbuf"`, or from `format`. -/
inductive Name (image : List Region) (returned : List (Call × Nat)) : Nat → Option (List (BitVec 8)) → Prop
  | source {s : Bytes} {p : Nat} (h : (Call.intern s, p) ∈ returned) : Name image returned p (some s.1)
  | literal {r : Region} {p : Nat} (hr : r ∈ image) (hlow : r.start ≤ p) (hhigh : p < r.start + r.size) :
      Name image returned p none
  | format {object : Object} {p : Nat} (hpos : 0 < object.size) (h : (Call.alloc object, p) ∈ returned) :
      Name image returned p none

structure Declared (image : List Region) (returned : List (Call × Nat)) where
  var : LVar
  spelling : Option (List (BitVec 8))
  named : Name image returned var.name spelling

/-- The first of some variables with such a spelling. -/
def firstSpelled {returned : List (Call × Nat)} (vars : List (Declared image returned)) (s : List (BitVec 8)) :
    Option LVar :=
  (vars.find? (·.spelling == some s)).map (·.var)

/-- A name is the pointer for a string exactly if it has that spelling in the source. -/
theorem Kept.name_eq_iff (h : Kept image w live) {returned : List (Call × Nat)}
    (hreturned : ∀ r ∈ returned, r.1.Returned r.2 live) {p q : Nat} {spelling : Option (List (BitVec 8))} {s : Bytes}
    (hname : Name image returned p spelling) (hq : (Call.intern s, q) ∈ returned) : p = q ↔ spelling = some s.1 := by
  obtain ⟨l, hl, hs, rfl⟩ := hreturned _ hq
  have hsize := (h.bytes l hl s.1 hs).1
  cases hname with
  | source hp =>
      obtain ⟨l', hl', hs', rfl⟩ := hreturned _ hp
      rw [h.string_unique hl' hl hs' hs, Option.some.injEq]
  | literal hr hlow hhigh =>
      refine iff_of_false (fun heq => ?_) (fun hnone => by cases hnone)
      have hapart := h.heap.owned_outside (h.owned l hl) (h.image_eq ▸ hr)
      unfold Region.Disjoint at hapart
      omega
  | format hpos hp =>
      refine iff_of_false (fun heq => ?_) (fun hnone => by cases hnone)
      obtain ⟨l', hl', hnone, hregion⟩ := hreturned _ hp
      have hne : l' ≠ l := fun heq' => by
        rw [heq', Option.mem_def.mp hs] at hnone
        cases hnone
      have : Std.Symm fun l l' : Live => l.region.Disjoint l'.region := ⟨fun _ _ => Region.Disjoint.symm⟩
      have hstart : l'.region.start = l.region.start := (congrArg Region.start hregion).trans heq
      have hsize' : l'.region.size = _ := congrArg Region.size hregion
      exact Region.not_disjoint hstart (by simp only at hsize'; omega) (by omega) (h.apart.forall hl' hl hne)

/-- Looking for the pointer is looking for the spelling. -/
theorem Kept.find_spelled (h : Kept image w live) {returned : List (Call × Nat)}
    (hreturned : ∀ r ∈ returned, r.1.Returned r.2 live) (vars : List (Declared image returned)) {q : Nat} {s : Bytes}
    (hq : (Call.intern s, q) ∈ returned) : (vars.map (·.var)).find? (·.name == q) = firstSpelled vars s.1 := by
  have hsame : ((·.name == q) ∘ fun d : Declared image returned => d.var) = (·.spelling == some s.1) := by
    funext d
    rw [Bool.eq_iff_iff, beq_iff_eq]
    exact beq_iff_eq.trans (h.name_eq_iff hreturned d.named hq)
  rw [List.find?_map, hsame, firstSpelled]

/-- What some calls return, and the world after them. -/
def returned (c : Calloc) (mem : Mem) (image : List Region) (calls : List Call) : List (Call × Nat) :=
  ((World.init mem image).run c calls).1

def after (c : Calloc) (mem : Mem) (image : List Region) (calls : List Call) : World :=
  ((World.init mem image).run c calls).2

/-- **Interning.** After any calls, the pointers returned for two strings are the same exactly if the strings are, and behind each
pointer is its string still. So a variable is found by the pointer of a token when it has the token's spelling in the source. -/
theorem interning (c : Calloc) (mem : Mem) (image : List Region) (calls : List Call) :
    (∀ s s' p p', (Call.intern s, p) ∈ returned c mem image calls → (Call.intern s', p') ∈ returned c mem image calls →
      (p = p' ↔ s = s')) ∧
    (∀ s p, (Call.intern s, p) ∈ returned c mem image calls →
      read (after c mem image calls).heap.mem p (s.1.length + 1) = s.1 ++ [0]) ∧
    ∀ (locals globals : List (Declared image (returned c mem image calls))) (s : Bytes) (p : Nat),
      (Call.intern s, p) ∈ returned c mem image calls →
        findVar (locals.map (·.var)) (globals.map (·.var)) p = (firstSpelled locals s.1).or (firstSpelled globals s.1) ∧
        findGlobalName (globals.map (·.var)) p = firstSpelled globals s.1 := by
  obtain ⟨live, -, hkept, hreturned⟩ := (kept_init mem image).run c calls rfl
  refine ⟨fun s s' p p' hp hp' => ?_, fun s p hp => ?_, fun locals globals s p hp => ⟨?_, ?_⟩⟩
  · rw [hkept.name_eq_iff hreturned (.source hp) hp', Option.some.injEq, Subtype.ext_iff]
  · obtain ⟨l, hl, hs, rfl⟩ := hreturned _ hp
    exact (hkept.bytes l hl s.1 hs).2
  · have hlocals : (locals.map (·.var)).find? (·.name == p) = firstSpelled locals s.1 :=
      hkept.find_spelled hreturned locals hp
    have hglobals : (globals.map (·.var)).find? (·.name == p) = firstSpelled globals s.1 :=
      hkept.find_spelled hreturned globals hp
    rw [findVar, hlocals, hglobals]
    cases firstSpelled locals s.1 with
    | none => rfl
    | some var => rfl
  · exact hkept.find_spelled hreturned globals hp

/-- `__retbuf` -/
def retbuf : Bytes := ⟨[95, 95, 114, 101, 116, 98, 117, 102], by decide⟩

/-- The program image with that literal at 4096. -/
def literalMem : Mem := write (fun _ => 0) 4096 retbuf.1

/-- A token `__retbuf` does not find the variable that the parser makes for the result, which is spelled the same. -/
theorem retbuf_not_found :
    ¬ ∀ (c : Calloc) (mem : Mem) (image : List Region) (calls : List Call) (var : LVar) (s : Bytes) (p : Nat),
      (Call.intern s, p) ∈ returned c mem image calls →
        read (after c mem image calls).heap.mem var.name (s.1.length + 1) = s.1 ++ [0] →
          findVar [var] [] p = some var := by
  intro h
  have hfound := h above literalMem [⟨4096, 9⟩] [.intern retbuf] ⟨4096, 0⟩ retbuf
    ((World.init literalMem [⟨4096, 9⟩]).strIntern above retbuf.1).1 List.mem_cons_self (by decide +kernel)
  exact absurd hfound (by decide +kernel)

end Rcc.Interning

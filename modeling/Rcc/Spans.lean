import Mathlib

/-!
# Spans of memory

A library for memory laid out by hand: spans of addresses, the bytes in them,
and allocators that hand spans out one after the other.

A `Chain` is what a bump allocator leaves behind, spans in order with gaps
allowed. It says at once that they are pairwise disjoint and where they all
lie, and chains concatenate, so a frame put together from areas with their own
counters is disjoint as soon as the areas follow each other.

Memory is bytes by address. A load or a store of `k` bytes at `a` touches the
span of `k` bytes at `a` and nothing else (`load_congr`, `store_frame`).
-/

namespace Spans

/-- The addresses `lo ≤ a < hi`. -/
structure Span where
  lo : Int
  hi : Int
deriving DecidableEq, Repr

/-- The `k` bytes at `a`. -/
def Span.at (a : Int) (k : Nat) : Span := ⟨a, a + k⟩

def Span.Has (s : Span) (a : Int) : Prop := s.lo ≤ a ∧ a < s.hi

/-- No address in common. -/
def Span.Disjoint (s t : Span) : Prop := s.hi ≤ t.lo ∨ t.hi ≤ s.lo

instance (s t : Span) : Decidable (s.Disjoint t) := inferInstanceAs (Decidable (_ ∨ _))

/-- Every address of `s` is one of `t`. -/
def Span.Within (s t : Span) : Prop := t.lo ≤ s.lo ∧ s.hi ≤ t.hi

instance (s t : Span) : Decidable (s.Within t) := inferInstanceAs (Decidable (_ ∧ _))

theorem Span.Disjoint.symm {s t : Span} (h : s.Disjoint t) : t.Disjoint s := Or.symm h

theorem Span.Disjoint.not_has {s t : Span} (h : s.Disjoint t) {a : Int} (hs : s.Has a) :
    ¬ t.Has a := by
  rintro ⟨h1, h2⟩
  obtain ⟨h3, h4⟩ := hs
  rcases h with h | h <;> omega

/-- Nonempty spans with no address in common are apart. -/
theorem Span.disjoint_iff {s t : Span} (hs : s.lo < s.hi) (ht : t.lo < t.hi) :
    s.Disjoint t ↔ ∀ a, s.Has a → ¬ t.Has a := by
  constructor
  · intro h a ha
    exact h.not_has ha
  · intro h
    by_cases hlt : s.lo ≤ t.lo
    · by_cases hin : t.lo < s.hi
      · exact absurd ⟨le_refl _, ht⟩ (h t.lo ⟨hlt, hin⟩)
      · exact .inl (by omega)
    · by_cases hin : s.lo < t.hi
      · exact absurd ⟨by omega, hin⟩ (h s.lo ⟨le_refl _, hs⟩)
      · exact .inr (by omega)

theorem Span.Disjoint.mono {s t u : Span} (h : t.Disjoint u) (hs : s.Within t) : s.Disjoint u := by
  obtain ⟨h1, h2⟩ := hs
  rcases h with h | h
  · exact .inl (by omega)
  · exact .inr (by omega)

/-! ## Chains -/

/-- Spans in order between `lo` and `hi`. -/
def Chain : Int → List Span → Int → Prop
  | lo, [], hi => lo ≤ hi
  | lo, s :: rest, hi => lo ≤ s.lo ∧ s.lo ≤ s.hi ∧ Chain s.hi rest hi

theorem Chain.le {lo hi : Int} {l : List Span} (h : Chain lo l hi) : lo ≤ hi := by
  induction l generalizing lo with
  | nil => exact h
  | cons s rest ih =>
      obtain ⟨h1, h2, h3⟩ := h
      have := ih h3
      omega

theorem Chain.within {lo hi : Int} {l : List Span} (h : Chain lo l hi) :
    ∀ s ∈ l, s.Within ⟨lo, hi⟩ := by
  induction l generalizing lo with
  | nil => exact fun s hs => absurd hs List.not_mem_nil
  | cons s rest ih =>
      obtain ⟨h1, h2, h3⟩ := h
      intro t ht
      rcases List.mem_cons.mp ht with rfl | ht
      · exact ⟨h1, h3.le⟩
      · obtain ⟨h4, h5⟩ := ih h3 t ht
        exact ⟨by simp only at h4 ⊢; omega, h5⟩

theorem Chain.pairwise {lo hi : Int} {l : List Span} (h : Chain lo l hi) :
    l.Pairwise Span.Disjoint := by
  induction l generalizing lo with
  | nil => exact List.Pairwise.nil
  | cons s rest ih =>
      obtain ⟨h1, h2, h3⟩ := h
      refine List.Pairwise.cons (fun t ht => ?_) (ih h3)
      exact .inl (h3.within t ht).1

theorem Chain.append {lo mid hi : Int} {l r : List Span} (hl : Chain lo l mid)
    (hr : Chain mid r hi) : Chain lo (l ++ r) hi := by
  induction l generalizing lo with
  | nil =>
      cases r with
      | nil => exact le_trans hl hr
      | cons s rest => exact ⟨le_trans hl hr.1, hr.2⟩
  | cons s rest ih =>
      obtain ⟨h1, h2, h3⟩ := hl
      exact ⟨h1, h2, ih h3⟩

theorem Chain.mono {lo lo' hi hi' : Int} {l : List Span} (h : Chain lo l hi) (hlo : lo' ≤ lo)
    (hhi : hi ≤ hi') : Chain lo' l hi' := by
  have h1 : Chain lo' [] lo := hlo
  have h2 : Chain hi [] hi' := hhi
  have h3 := (h1.append h).append h2
  rwa [List.nil_append, List.append_nil] at h3

/-! ## Bytes -/

/-- Memory: a byte at every address. -/
abbrev Mem := Int → BitVec 8

/-- The number in the `k` bytes at `a`, least significant first. -/
def load (m : Mem) : Int → Nat → Nat
  | _, 0 => 0
  | a, k + 1 => (m a).toNat + 256 * load m (a + 1) k

/-- `v` written to the `k` bytes at `a`. -/
def store (m : Mem) : Int → Nat → Nat → Mem
  | _, 0, _ => m
  | a, k + 1, v => store (fun b => if b = a then BitVec.ofNat 8 v else m b) (a + 1) k (v / 256)

theorem load_congr {m m' : Mem} {k : Nat} {a : Int}
    (h : ∀ b, (Span.at a k).Has b → m' b = m b) : load m' a k = load m a k := by
  induction k generalizing a with
  | zero => rfl
  | succ k ih =>
      have h0 : m' a = m a := h a ⟨le_refl _, by simp only [Span.at]; omega⟩
      have hr : load m' (a + 1) k = load m (a + 1) k := by
        refine ih fun b hb => h b ?_
        obtain ⟨h1, h2⟩ := hb
        simp only [Span.at] at h1 h2
        exact ⟨by simp only [Span.at]; omega, by simp only [Span.at]; omega⟩
      rw [load, load, h0, hr]

/-- A store leaves every byte outside its span. -/
theorem store_frame (m : Mem) (k : Nat) (a : Int) (v : Nat) {b : Int}
    (h : ¬ (Span.at a k).Has b) : store m a k v b = m b := by
  induction k generalizing m a v with
  | zero => rfl
  | succ k ih =>
      have hout : ¬ (a ≤ b ∧ b < a + (k + 1 : Nat)) := h
      rw [store, ih]
      · have hne : b ≠ a := by
          rintro rfl
          exact hout ⟨le_refl _, by omega⟩
        rw [if_neg hne]
      · rintro ⟨h1, h2⟩
        simp only [Span.at] at h1 h2
        exact hout ⟨by omega, by omega⟩

theorem load_store_disjoint (m : Mem) {a b : Int} {k l : Nat} (v : Nat)
    (h : (Span.at a k).Disjoint (Span.at b l)) : load (store m b l v) a k = load m a k := by
  refine load_congr fun c hc => ?_
  exact store_frame m l b v (h.not_has hc)

theorem load_store_same (m : Mem) (a : Int) (k v : Nat) :
    load (store m a k v) a k = v % 256 ^ k := by
  induction k generalizing m a v with
  | zero => rw [load, pow_zero, Nat.mod_one]
  | succ k ih =>
      rw [load, store, ih]
      have hb : store (fun b => if b = a then BitVec.ofNat 8 v else m b) (a + 1) k (v / 256) a =
          BitVec.ofNat 8 v := by
        rw [store_frame]
        · rw [if_pos rfl]
        · rintro ⟨h1, _⟩
          simp only [Span.at] at h1
          omega
      rw [hb, BitVec.toNat_ofNat]
      show v % 256 + 256 * (v / 256 % 256 ^ k) = v % 256 ^ (k + 1)
      rw [Nat.pow_succ, Nat.mul_comm (256 ^ k) 256, Nat.mod_mul]

end Spans

import Mathlib

/-!
# Overwriting ranges of bits

A library for programs that put values into an image one after the other. A patch
gives new bits to a range, and of a list of patches, each position has the bit of
the last one that covers it. The same values can be put into two images by code
that disagrees on where a range ends; `patch_eq_iff` says when the images are the
same none the less.
-/

namespace Patches

/-- The last of the items with a property, if any has it. -/
theorem none_or_last {α : Type} (P : α → Prop) (l : List α) :
    (∀ a ∈ l, ¬ P a) ∨ ∃ before a after, l = before ++ a :: after ∧ P a ∧ ∀ c ∈ after, ¬ P c := by
  induction l using List.reverseRecOn with
  | nil => exact .inl fun a ha => absurd ha List.not_mem_nil
  | append_singleton rest a ih =>
      by_cases ha : P a
      · exact .inr ⟨rest, a, [], rfl, ha, fun c hc => absurd hc List.not_mem_nil⟩
      · rcases ih with hnone | ⟨before, c, after, rfl, hc, hafter⟩
        · refine .inl fun c hc => ?_
          rcases List.mem_append.mp hc with hc | hc
          · exact hnone c hc
          · exact List.mem_singleton.mp hc ▸ ha
        · refine .inr ⟨before, c, after ++ [a], by rw [List.append_assoc, List.cons_append], hc, ?_⟩
          intro e he
          rcases List.mem_append.mp he with he | he
          · exact hafter e he
          · exact List.mem_singleton.mp he ▸ ha

/-- New bits for a range, counted from its beginning. -/
structure Patch where
  lo : Nat
  hi : Nat
  bits : Nat → Bool

def Patch.Covers (p : Patch) (j : Nat) : Prop := p.lo ≤ j ∧ j < p.hi

instance (p : Patch) (j : Nat) : Decidable (p.Covers j) := inferInstanceAs (Decidable (_ ∧ _))

def Patch.on (b : Nat → Bool) (p : Patch) : Nat → Bool := fun j =>
  if p.Covers j then p.bits (j - p.lo) else b j

/-- An image with patches put on it in order. -/
def patch (ps : List Patch) (b : Nat → Bool) : Nat → Bool := ps.foldl Patch.on b

variable {ps : List Patch} {p : Patch} {b : Nat → Bool} {j : Nat}

theorem patch_append (ps qs : List Patch) (b : Nat → Bool) : patch (ps ++ qs) b = patch qs (patch ps b) :=
  List.foldl_append

/-- Positions do not touch each other. -/
theorem patch_congr {c : Nat → Bool} (h : b j = c j) (ps : List Patch) : patch ps b j = patch ps c j := by
  induction ps generalizing b c with
  | nil => exact h
  | cons p ps ih =>
      refine ih ?_
      rw [Patch.on, Patch.on, h]

theorem patch_of_none (h : ∀ p ∈ ps, ¬ p.Covers j) : patch ps b j = b j := by
  induction ps generalizing b with
  | nil => rfl
  | cons p ps ih =>
      have htail : patch ps (p.on b) j = p.on b j := ih fun q hq => h q (List.mem_cons_of_mem _ hq)
      exact htail.trans (if_neg (h p List.mem_cons_self))

theorem patch_of_last {before after : List Patch} (hp : p.Covers j) (h : ∀ q ∈ after, ¬ q.Covers j) :
    patch (before ++ p :: after) b j = p.bits (j - p.lo) := by
  rw [patch_append]
  have hafter : patch after (p.on (patch before b)) j = p.on (patch before b) j := patch_of_none h
  exact hafter.trans (if_pos hp)

/-! ## Two images -/

variable {ι : Type} (p : ι → Patch) (cut : ι → Nat) (Same : ι → ι → Prop)

/-- A patch that ends early. -/
def short (i : ι) : Patch := { p i with hi := min (cut i) (p i).hi }

/-- The items whose patches end early share no bit with any other, and put again
they end where they did. -/
structure Private (l : List ι) : Prop where
  apart : ∀ i ∈ l, cut i < (p i).hi → ∀ c ∈ l, ¬ Same i c →
    ∀ j, ¬ ((p i).Covers j ∧ (p c).Covers j)
  again : ∀ i c, Same i c → (p i).lo = (p c).lo ∧ (p i).hi = (p c).hi ∧ cut i = cut c

variable {p cut Same} {l : List ι} {n : Nat}

theorem Private.not_covered (h : Private p cut Same l) {i c : ι} (hi : i ∈ l) (hc : c ∈ l)
    (hcut : cut i ≤ j) (hj : (p i).Covers j) : ¬ (short p cut c).Covers j := by
  intro hcov
  obtain ⟨hlo, hhi⟩ := hcov
  have hmin : j < min (cut c) (p c).hi := hhi
  by_cases hsame : Same i c
  · have hagain := h.again i c hsame
    omega
  · exact h.apart i hi (Nat.lt_of_le_of_lt hcut hj.2) c hc hsame j ⟨hj, hlo, by omega⟩

/-- On an empty background, the last patches put for an item must not have bits
where they end early. -/
theorem patch_eq_iff (h : Private p cut Same l) (hn : ∀ i ∈ l, cut i < (p i).hi → (p i).hi ≤ n)
    {b c : Nat → Bool} (hb : ∀ j < n, b j = false) (hc : ∀ j < n, c j = false) :
    (∀ j < n, patch (l.map (short p cut)) b j = patch (l.map p) c j) ↔
      ∀ before i after, l = before ++ i :: after → (∀ e ∈ after, ¬ Same i e) →
        ∀ j, (p i).Covers j → cut i ≤ j → (p i).bits (j - (p i).lo) = false := by
  have hnone : ∀ i ∈ l, ∀ j, (p i).Covers j → cut i ≤ j → patch (l.map (short p cut)) b j = b j :=
    fun i hi j hj hcut => patch_of_none fun q hq => by
      obtain ⟨e, he, rfl⟩ := List.mem_map.mp hq
      exact h.not_covered hi he hcut hj
  constructor
  · intro heq before i after hl hlast j hj hcut
    have hi : i ∈ l := hl ▸ List.mem_append_right _ List.mem_cons_self
    have hlong : cut i < (p i).hi := Nat.lt_of_le_of_lt hcut hj.2
    have hjn : j < n := Nat.lt_of_lt_of_le hj.2 (hn i hi hlong)
    have hfull : patch (l.map p) c j = (p i).bits (j - (p i).lo) := by
      rw [hl, List.map_append, List.map_cons]
      refine patch_of_last hj fun q hq => ?_
      obtain ⟨e, he, rfl⟩ := List.mem_map.mp hq
      have hel : e ∈ l := hl ▸ List.mem_append_right _ (List.mem_cons_of_mem _ he)
      exact fun hcov => h.apart i hi hlong e hel (hlast e he) j ⟨hj, hcov⟩
    rw [← hfull, ← heq j hjn, hnone i hi j hj hcut, hb j hjn]
  · intro hbits j hjn
    rcases none_or_last (fun i => (p i).Covers j) l with hout | ⟨before, i, after, rfl, hj, hafter⟩
    · rw [patch_of_none, patch_of_none, hb j hjn, hc j hjn]
      · intro q hq
        obtain ⟨e, he, rfl⟩ := List.mem_map.mp hq
        exact hout e he
      · intro q hq
        obtain ⟨e, he, rfl⟩ := List.mem_map.mp hq
        exact fun hcov => hout e he ⟨hcov.1, Nat.lt_of_lt_of_le hcov.2 (Nat.min_le_right _ _)⟩
    · have hi : i ∈ before ++ i :: after := List.mem_append_right _ List.mem_cons_self
      have hfull : patch ((before ++ i :: after).map p) c j = (p i).bits (j - (p i).lo) := by
        rw [List.map_append, List.map_cons]
        refine patch_of_last hj fun q hq => ?_
        obtain ⟨e, he, rfl⟩ := List.mem_map.mp hq
        exact hafter e he
      rw [hfull]
      by_cases hcut : cut i ≤ j
      · rw [hnone i hi j hj hcut, hb j hjn]
        refine (hbits before i after rfl (fun e he hsame => hafter e he ?_) j hj hcut).symm
        have hagain := h.again i e hsame
        exact ⟨hagain.1 ▸ hj.1, hagain.2.1 ▸ hj.2⟩
      · rw [List.map_append, List.map_cons]
        have hshort : (short p cut i).Covers j := ⟨hj.1, Nat.lt_min.mpr ⟨Nat.lt_of_not_le hcut, hj.2⟩⟩
        refine patch_of_last hshort fun q hq => ?_
        · obtain ⟨e, he, rfl⟩ := List.mem_map.mp hq
          exact fun hcov => hafter e he ⟨hcov.1, Nat.lt_of_lt_of_le hcov.2 (Nat.min_le_right _ _)⟩

end Patches

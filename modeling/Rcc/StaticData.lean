import Rcc.StaticField
import Rcc.Spans

/-!
# The data of static objects

A static object is initialised by writes to `init_data`, one after the other, and addresses go to `relocs`, a list kept in
order of their offsets. `codegen` goes through both at once: bytes up to the next address, then that, then on behind it.

Designators may come back to what is initialised already, or to another member of a union. So an address has to go when it is
written over; only `write_scalar_bytes` sees to that, and only for an address that begins where it writes.
-/

namespace Rcc.StaticData

open StaticField (ensureInitSize globalInitMember)
open BitField (accessBytes)
open ByteMem (Mem)
open Spans (Span)

/-! ## Addresses -/

/-- `struct Reloc`. -/
structure Reloc where
  offset : Nat
  label : String
  addend : Int
deriving DecidableEq, Repr

/-- The bytes that the linker puts an address into. -/
def Reloc.span (rel : Reloc) : Span := .at rel.offset 8

/-- The loop of `append_reloc`, behind an element that is before `rel`. -/
def insertBehind (rel : Reloc) : List Reloc → List Reloc
  | [] => [rel]
  | next :: rest =>
      if next.offset < rel.offset then next :: insertBehind rel rest
      -- an override
      else if next.offset = rel.offset then rel :: rest
      else rel :: next :: rest

def appendReloc (rel : Reloc) : List Reloc → List Reloc
  | [] => [rel]
  | head :: rest =>
      if head.offset > rel.offset then rel :: head :: rest
      else if head.offset = rel.offset then rel :: rest
      else head :: insertBehind rel rest

/-- The loop of `remove_reloc` does with each element what is done with the first. -/
def removeReloc (offset : Nat) : List Reloc → List Reloc
  | [] => []
  | head :: rest => if head.offset = offset then rest else head :: removeReloc offset rest

/-! ## Writes -/

structure LVar extends StaticField.LVar where
  relocs : List Reloc

/-- `memcpy` of some bytes. -/
def copy (m : Mem) (offset : Nat) : List (BitVec 8) → Mem
  | [] => m
  | byte :: bytes => copy (fun b => if b = BitVec.ofNat 64 offset then byte else m b) (offset + 1) bytes

/-- Before the first write. -/
def LVar.start (data : StaticField.LVar) : LVar := { data with relocs := [] }

/-- What is written while an object is initialised. -/
inductive Write where
  /-- `append_reloc` -/
  | address (rel : Reloc)
  /-- `write_scalar_bytes` -/
  | scalar (offset size : Nat) (val : BitVec 64)
  /-- a `float` or `double`, by its bits -/
  | floating (offset size : Nat) (bits : BitVec 64)
  /-- what is taken of a string for an array -/
  | string (offset : Nat) (bytes : List (BitVec 8))
  /-- `global_init_member` for a bit-field of a structure at `base` -/
  | bitField (base : Nat) (mem : StructDecl.Member) (hwidth : 0 < mem.bitWidth) (val : BitVec 64)

/-- `if (ty->size == 4)`; any other is written as a `double`. -/
def floatBytes (size : Nat) : Nat := if size = 4 then 4 else 8

namespace Write

/-- The bytes that are given a value, of a bit-field's unit those with bits of the field. -/
def span : Write → Span
  | address rel => rel.span
  | scalar offset size _ => .at offset (accessBytes size)
  | floating offset size _ => .at offset (floatBytes size)
  | string offset bytes => .at offset bytes.length
  | bitField base mem _ _ =>
      let first := base + mem.offset + mem.bitOffset / 8
      ⟨first, (base + mem.offset + (mem.bitOffset + mem.bitWidth + 7) / 8 : Nat)⟩

def run (var : LVar) : Write → LVar
  | address rel => { var with relocs := appendReloc rel var.relocs }
  | scalar offset size val =>
      { StaticField.writeScalarBytes var.toLVar offset size val with relocs := removeReloc offset var.relocs }
  | floating offset size bits =>
      { var with initData := ByteMem.store var.initData (BitVec.ofNat 64 offset) (floatBytes size) bits.toNat }
  | string offset bytes =>
      let data := ensureInitSize var.toLVar offset bytes.length
      { var with initData := copy data.initData offset bytes, initSize := data.initSize }
  | bitField base mem _ val =>
      { var with toLVar := globalInitMember { mem with offset := base + mem.offset } val var.toLVar }

end Write

/-- One write after the other. -/
def runWrites (writes : List Write) (var : LVar) : LVar := writes.foldl Write.run var

/-! ## What is printed -/

inductive Directive where
  /-- `.byte` -/
  | byte (val : BitVec 8)
  /-- `.quad` -/
  | quad (label : String) (addend : Int)
  /-- `.zero` -/
  | zero (size : Nat)
deriving DecidableEq, Repr

def Directive.size : Directive → Nat
  | byte _ => 1
  | quad _ _ => 8
  | zero size => size

/-- The bytes of the data from one offset up to another. -/
def byteLines (m : Mem) (pos hi : Nat) : List Directive := (List.range' pos (hi - pos)).map fun b => .byte (m (BitVec.ofNat 64 b))

/-- The two loops of `codegen`, from `pos` on. -/
def dataLines (var : LVar) : Nat → List Reloc → List Directive
  | pos, [] => byteLines var.initData pos var.initSize
  | pos, rel :: rest =>
      byteLines var.initData pos rel.offset ++ .quad rel.label rel.addend :: dataLines var (max pos rel.offset + 8) rest

/-- An object of that size that has data. -/
def emit (size : Nat) (var : LVar) : List Directive :=
  dataLines var 0 var.relocs ++ if size > var.initSize then [.zero (size - var.initSize)] else []

/-- What is where in the assembled section. -/
def placed : Nat → List Directive → List (Nat × Directive)
  | _, [] => []
  | pos, d :: rest => (pos, d) :: placed (pos + d.size) rest

/-! ## What should hold -/

/-- The last write that met these bytes was of that address. -/
def LastWrite (writes : List Write) (rel : Reloc) : Prop :=
  ∃ before after, writes = before ++ .address rel :: after ∧ ∀ w ∈ after, w.span.Disjoint rel.span

/-- So many bytes as there are data, with each address at its offset and the data in between. -/
structure Emitted (var : LVar) : Prop where
  size : ((dataLines var 0 var.relocs).map Directive.size).sum = var.initSize
  placed_iff : ∀ pos d, (pos, d) ∈ placed 0 (dataLines var 0 var.relocs) ↔
    (∃ rel ∈ var.relocs, pos = rel.offset ∧ d = .quad rel.label rel.addend) ∨
      (pos < var.initSize ∧ (∀ rel ∈ var.relocs, ¬ rel.span.Has pos) ∧ d = .byte (var.initData (BitVec.ofNat 64 pos)))

structure Right (writes : List Write) (var : LVar) : Prop where
  sorted : var.relocs.Pairwise fun r s => r.offset < s.offset
  apart : var.relocs.Pairwise fun r s => r.span.Disjoint s.span
  last : ∀ rel, rel ∈ var.relocs ↔ LastWrite writes rel
  emitted : Emitted var

/-- An address that a write meets has to be one that is replaced: one at the same offset, by another address or by a scalar. And a
new one has to be inside the data. -/
def Write.Meets (var : LVar) : Write → Prop
  | address rel => rel.offset + 8 ≤ var.initSize ∧ ∀ r ∈ var.relocs, rel.span.Disjoint r.span ∨ r.offset = rel.offset
  | scalar offset size val =>
      ∀ r ∈ var.relocs, (scalar offset size val).span.Disjoint r.span ∨ r.offset = offset
  | w => ∀ r ∈ var.relocs, w.span.Disjoint r.span

/-! ## The list of addresses -/

section Relocs

variable {rel x : Reloc} {l : List Reloc} {offset : Nat}

/-- In order of their offsets. -/
def Sorted (l : List Reloc) : Prop := l.Pairwise fun r s => r.offset < s.offset

/-- The first element needs no case of its own. -/
theorem appendReloc_eq (rel : Reloc) (l : List Reloc) : appendReloc rel l = insertBehind rel l := by
  cases l with
  | nil => rfl
  | cons head rest =>
      rw [appendReloc, insertBehind]
      by_cases hlt : head.offset < rel.offset
      · rw [if_pos hlt, if_neg (by omega), if_neg (by omega)]
      · rw [if_neg hlt]
        by_cases heq : head.offset = rel.offset
        · rw [if_pos heq, if_neg (by omega), if_pos heq]
        · rw [if_neg heq, if_pos (by omega), if_neg heq]

theorem mem_insertBehind (h : Sorted l) : x ∈ insertBehind rel l ↔ x = rel ∨ x ∈ l ∧ x.offset ≠ rel.offset := by
  induction l with
  | nil => simp [insertBehind]
  | cons head rest ih =>
      obtain ⟨hhead, hrest⟩ := List.pairwise_cons.mp h
      rw [insertBehind]
      split
      · next hlt =>
          rw [List.mem_cons, ih hrest, List.mem_cons]
          have hne : x = head → x.offset ≠ rel.offset := by
            rintro rfl
            omega
          tauto
      · next hge =>
          have hbehind : x ∈ rest → rel.offset < x.offset := fun hx => by
            have hlt := hhead x hx
            omega
          split
          · next heq =>
              rw [List.mem_cons, List.mem_cons]
              constructor
              · rintro (rfl | hx)
                · exact .inl rfl
                · exact .inr ⟨.inr hx, by have hlt := hbehind hx; omega⟩
              · rintro (rfl | ⟨rfl | hx, hne⟩)
                · exact .inl rfl
                · exact absurd heq hne
                · exact .inr hx
          · next hne =>
              rw [List.mem_cons, List.mem_cons]
              constructor
              · rintro (rfl | rfl | hx)
                · exact .inl rfl
                · exact .inr ⟨.inl rfl, hne⟩
                · exact .inr ⟨.inr hx, by have hlt := hbehind hx; omega⟩
              · rintro (rfl | ⟨hx, _⟩)
                · exact .inl rfl
                · exact .inr hx

theorem sorted_insertBehind (h : Sorted l) : Sorted (insertBehind rel l) := by
  induction l with
  | nil => exact List.pairwise_singleton _ _
  | cons head rest ih =>
      obtain ⟨hhead, hrest⟩ := List.pairwise_cons.mp h
      rw [insertBehind]
      split
      · next hlt =>
          refine List.pairwise_cons.mpr ⟨fun y hy => ?_, ih hrest⟩
          rcases (mem_insertBehind hrest).mp hy with rfl | ⟨hy, _⟩
          · exact hlt
          · exact hhead y hy
      · split
        · next heq => exact List.pairwise_cons.mpr ⟨fun y hy => heq ▸ hhead y hy, hrest⟩
        · next hge hne =>
            refine List.pairwise_cons.mpr ⟨fun y hy => ?_, h⟩
            rcases List.mem_cons.mp hy with rfl | hy
            · omega
            · have hlt := hhead y hy
              omega

theorem removeReloc_sublist : (removeReloc offset l).Sublist l := by
  induction l with
  | nil => exact List.Sublist.refl _
  | cons head rest ih =>
      rw [removeReloc]
      split
      · exact List.sublist_cons_self _ _
      · exact ih.cons_cons head

theorem mem_removeReloc (h : Sorted l) : x ∈ removeReloc offset l ↔ x ∈ l ∧ x.offset ≠ offset := by
  induction l with
  | nil => simp [removeReloc]
  | cons head rest ih =>
      obtain ⟨hhead, hrest⟩ := List.pairwise_cons.mp h
      rw [removeReloc, List.mem_cons]
      split
      · next heq =>
          constructor
          · intro hx
            have hlt := hhead x hx
            exact ⟨.inr hx, by omega⟩
          · rintro ⟨rfl | hx, hne⟩
            · exact absurd heq hne
            · exact hx
      · next hne =>
          rw [List.mem_cons, ih hrest]
          constructor
          · rintro (rfl | ⟨hx, hx'⟩)
            · exact ⟨.inl rfl, hne⟩
            · exact ⟨.inr hx, hx'⟩
          · rintro ⟨rfl | hx, hx'⟩
            · exact .inl rfl
            · exact .inr ⟨hx, hx'⟩

theorem span_disjoint_iff (r s : Reloc) : r.span.Disjoint s.span ↔ r.offset + 8 ≤ s.offset ∨ s.offset + 8 ≤ r.offset := by
  show ((r.offset : Int) + (8 : Nat) ≤ s.offset ∨ (s.offset : Int) + (8 : Nat) ≤ r.offset) ↔ _
  omega

end Relocs

/-! ## The lines -/

section Lines

variable {var : LVar} {pos hi : Nat} {d : Directive}

theorem placed_append (pos : Nat) (l l' : List Directive) :
    placed pos (l ++ l') = placed pos l ++ placed (pos + (l.map Directive.size).sum) l' := by
  induction l generalizing pos with
  | nil => rfl
  | cons d rest ih =>
      rw [List.cons_append, placed, placed, ih, List.cons_append, List.map_cons, List.sum_cons, Nat.add_assoc]

theorem byteLines_step (m : Mem) (h : pos < hi) :
    byteLines m pos hi = .byte (m (BitVec.ofNat 64 pos)) :: byteLines m (pos + 1) hi := by
  rw [byteLines, show hi - pos = hi - (pos + 1) + 1 by omega, List.range'_succ]
  rfl

theorem byteLines_nil (m : Mem) (h : hi ≤ pos) : byteLines m pos hi = [] := by
  rw [byteLines, Nat.sub_eq_zero_of_le h]
  rfl

theorem byteLines_size (m : Mem) (pos hi : Nat) : ((byteLines m pos hi).map Directive.size).sum = hi - pos := by
  obtain ⟨n, hn⟩ : ∃ n, hi - pos = n := ⟨_, rfl⟩
  induction n generalizing pos with
  | zero => rw [byteLines_nil m (by omega), hn]; rfl
  | succ n ih =>
      rw [byteLines_step m (by omega), List.map_cons, List.sum_cons, ih _ (by omega)]
      show 1 + _ = _
      omega

theorem mem_placed_byteLines (m : Mem) (q : Nat) :
    (q, d) ∈ placed pos (byteLines m pos hi) ↔ pos ≤ q ∧ q < hi ∧ d = .byte (m (BitVec.ofNat 64 q)) := by
  obtain ⟨n, hn⟩ : ∃ n, hi - pos = n := ⟨_, rfl⟩
  induction n generalizing pos with
  | zero =>
      rw [byteLines_nil m (by omega)]
      constructor
      · exact fun h => absurd h List.not_mem_nil
      · rintro ⟨hle, hlt, _⟩
        omega
  | succ n ih =>
      rw [byteLines_step m (by omega), placed, List.mem_cons, show Directive.size (.byte (m (BitVec.ofNat 64 pos))) = 1 from rfl,
        ih (by omega)]
      constructor
      · rintro (heq | ⟨hle, hlt, hd⟩)
        · cases heq
          exact ⟨le_refl _, by omega, rfl⟩
        · exact ⟨by omega, hlt, hd⟩
      · rintro ⟨hle, hlt, hd⟩
        by_cases heq : q = pos
        · exact .inl (by rw [heq, hd, heq])
        · exact .inr ⟨by omega, hlt, hd⟩

/-- Whatever the order, an address is printed in full. -/
theorem le_dataLines_size {l : List Reloc} {rel : Reloc} (h : rel ∈ l) (pos : Nat) :
    rel.offset + 8 ≤ pos + ((dataLines var pos l).map Directive.size).sum := by
  induction l generalizing pos with
  | nil => exact absurd h List.not_mem_nil
  | cons head rest ih =>
      rw [dataLines, List.map_append, List.sum_append, byteLines_size, List.map_cons, List.sum_cons]
      show _ ≤ pos + (head.offset - pos + (8 + _))
      rcases List.mem_cons.mp h with rfl | h
      · omega
      · have hrest := ih h (max pos head.offset + 8)
        omega

/-- Spans one behind the other, between two offsets. -/
abbrev InOrder (pos : Nat) (l : List Reloc) (hi : Nat) : Prop := Spans.Chain pos (l.map Reloc.span) hi

theorem inOrder_cons {head : Reloc} {rest : List Reloc} (h : InOrder pos (head :: rest) hi) :
    pos ≤ head.offset ∧ InOrder (head.offset + 8) rest hi := by
  obtain ⟨hle, _, hrest⟩ := h
  have hlo : (pos : Int) ≤ head.offset := hle
  exact ⟨by omega, hrest⟩

theorem dataLines_size {l : List Reloc} (h : InOrder pos l var.initSize) :
    ((dataLines var pos l).map Directive.size).sum = var.initSize - pos := by
  induction l generalizing pos with
  | nil => exact byteLines_size _ _ _
  | cons head rest ih =>
      obtain ⟨hle, hrest⟩ := inOrder_cons h
      have hhi := hrest.le
      rw [dataLines, List.map_append, List.sum_append, byteLines_size, List.map_cons, List.sum_cons,
        show max pos head.offset = head.offset by omega, ih hrest]
      show head.offset - pos + (8 + _) = _
      omega

theorem mem_placed_dataLines {l : List Reloc} (h : InOrder pos l var.initSize) (q : Nat) :
    (q, d) ∈ placed pos (dataLines var pos l) ↔ (∃ rel ∈ l, q = rel.offset ∧ d = .quad rel.label rel.addend) ∨
      (pos ≤ q ∧ q < var.initSize ∧ (∀ rel ∈ l, ¬ rel.span.Has q) ∧ d = .byte (var.initData (BitVec.ofNat 64 q))) := by
  induction l generalizing pos with
  | nil =>
      rw [dataLines, mem_placed_byteLines]
      simp
  | cons head rest ih =>
      obtain ⟨hle, hrest⟩ := inOrder_cons h
      have hhi := hrest.le
      have hbehind : ∀ rel ∈ rest, head.offset + 8 ≤ rel.offset := by
        intro rel hrel
        have hlo := (hrest.within _ (List.mem_map_of_mem hrel)).1
        simp only [Reloc.span, Span.at] at hlo
        omega
      have hhas : ∀ rel : Reloc, rel.span.Has q ↔ rel.offset ≤ q ∧ q < rel.offset + 8 := by
        intro rel
        simp only [Reloc.span, Span.at, Span.Has]
        omega
      rw [dataLines, placed_append, List.mem_append, mem_placed_byteLines, byteLines_size, placed, List.mem_cons,
        show max pos head.offset = head.offset by omega, show pos + (head.offset - pos) = head.offset by omega]
      show _ ∨ _ ∨ (q, d) ∈ placed (head.offset + 8) _ ↔ _
      rw [ih hrest]
      simp only [List.mem_cons, exists_eq_or_imp, forall_eq_or_imp, hhas, Prod.mk.injEq]
      constructor
      · rintro (⟨hlo, hlt, hd⟩ | hquad | hquad | ⟨hlo, hlt, hnone, hd⟩)
        · refine .inr ⟨hlo, by omega, ⟨by omega, fun rel hrel => ?_⟩, hd⟩
          have hfar := hbehind rel hrel
          omega
        · exact .inl (.inl hquad)
        · exact .inl (.inr hquad)
        · exact .inr ⟨by omega, hlt, ⟨by omega, hnone⟩, hd⟩
      · rintro ((hquad | hquad) | ⟨hlo, hlt, ⟨hhead, hnone⟩, hd⟩)
        · exact .inr (.inl hquad)
        · exact .inr (.inr (.inl hquad))
        · by_cases hbefore : q < head.offset
          · exact .inl ⟨hlo, hbefore, hd⟩
          · exact .inr (.inr (.inr ⟨by omega, hlt, hnone, hd⟩))

/-- Addresses that are in order, apart and inside the data. -/
theorem inOrder_of {l : List Reloc} (hsorted : Sorted l) (hapart : l.Pairwise fun r s => r.span.Disjoint s.span)
    (hpos : ∀ r ∈ l, pos ≤ r.offset) (hinside : ∀ r ∈ l, r.offset + 8 ≤ hi) (hle : pos ≤ hi) : InOrder pos l hi := by
  induction l generalizing pos with
  | nil => exact Int.ofNat_le.mpr hle
  | cons head rest ih =>
      obtain ⟨hlt, hsorted'⟩ := List.pairwise_cons.mp hsorted
      obtain ⟨hdisjoint, hapart'⟩ := List.pairwise_cons.mp hapart
      refine ⟨Int.ofNat_le.mpr (hpos head List.mem_cons_self), by simp only [Reloc.span, Span.at]; omega, ?_⟩
      refine @ih (head.offset + 8) hsorted' hapart' (fun r hr => ?_) (fun r hr => hinside r (List.mem_cons_of_mem _ hr))
        (hinside head List.mem_cons_self)
      have hlt' := hlt r hr
      rcases (span_disjoint_iff head r).mp (hdisjoint r hr) with h | h <;> omega

theorem emitted_iff (hsorted : Sorted var.relocs) (hapart : var.relocs.Pairwise fun r s => r.span.Disjoint s.span) :
    Emitted var ↔ ∀ r ∈ var.relocs, r.offset + 8 ≤ var.initSize := by
  constructor
  · intro h r hr
    have hle := @le_dataLines_size var _ _ hr 0
    have hsize := h.size
    omega
  · intro hinside
    have horder := @inOrder_of 0 _ _ hsorted hapart (fun r _ => Nat.zero_le _) hinside (Nat.zero_le _)
    refine ⟨dataLines_size horder, fun pos d => ?_⟩
    rw [mem_placed_dataLines horder]
    simp only [Nat.zero_le, true_and]

end Lines

/-! ## Runs -/

section Runs

variable {writes : List Write} {var : LVar} {w : Write} {rel : Reloc}

theorem lastWrite_concat : LastWrite (writes ++ [w]) rel ↔ w = .address rel ∨ LastWrite writes rel ∧ w.span.Disjoint rel.span := by
  constructor
  · rintro ⟨before, after, heq, hafter⟩
    rcases List.eq_nil_or_concat after with rfl | ⟨after', last, rfl⟩
    · exact .inl (List.append_inj_right' heq rfl |> List.head_eq_of_cons_eq)
    · rw [List.concat_eq_append, ← List.cons_append, ← List.append_assoc] at heq
      obtain ⟨hinit, hlast⟩ := List.append_inj' heq rfl
      obtain rfl := List.head_eq_of_cons_eq hlast
      rw [List.concat_eq_append] at hafter
      exact .inr ⟨⟨before, after', hinit, fun v hv => hafter v (List.mem_append_left _ hv)⟩,
        hafter w (List.mem_append_right _ (List.mem_singleton_self w))⟩
  · rintro (rfl | ⟨⟨before, after, rfl, hafter⟩, hw⟩)
    · exact ⟨writes, [], rfl, fun v hv => absurd hv List.not_mem_nil⟩
    · refine ⟨before, after ++ [w], by rw [List.append_assoc, List.cons_append], fun v hv => ?_⟩
      rcases List.mem_append.mp hv with hv | hv
      · exact hafter v hv
      · rw [List.mem_singleton.mp hv]
        exact hw

theorem ensureInitSize_le (var : StaticField.LVar) (offset size : Nat) : var.initSize ≤ (ensureInitSize var offset size).initSize := by
  simp only [ensureInitSize]
  split
  · next h => exact le_of_lt h
  · exact le_refl _

/-- The data never get shorter. -/
theorem initSize_le (w : Write) (var : LVar) : var.initSize ≤ (w.run var).initSize := by
  cases w with
  | address rel => exact le_refl _
  | scalar offset size val => exact ensureInitSize_le var.toLVar offset size
  | floating offset size bits => exact le_refl _
  | string offset bytes => exact ensureInitSize_le var.toLVar offset bytes.length
  | bitField base mem hwidth val =>
      show _ ≤ (globalInitMember _ val var.toLVar).initSize
      rw [globalInitMember, if_pos hwidth]

/-- What is left of the addresses that were there. -/
def Write.keeps (w : Write) (r : Reloc) : Prop :=
  match w with
  | address rel => r.offset ≠ rel.offset
  | scalar offset _ _ => r.offset ≠ offset
  | floating _ _ _ | string _ _ | bitField _ _ _ _ => True

theorem mem_run_relocs (h : Sorted var.relocs) (r : Reloc) :
    r ∈ (w.run var).relocs ↔ w = .address r ∨ r ∈ var.relocs ∧ w.keeps r := by
  cases w with
  | address rel =>
      show r ∈ appendReloc rel var.relocs ↔ _
      rw [appendReloc_eq, mem_insertBehind h, Write.address.injEq, @eq_comm _ rel r]
      rfl
  | scalar offset size val =>
      show r ∈ removeReloc offset var.relocs ↔ _
      rw [mem_removeReloc h, or_iff_right (by intro heq; cases heq)]
      rfl
  | _ =>
      rw [or_iff_right (by intro heq; cases heq)]
      exact (and_iff_left trivial).symm

theorem sorted_run (h : Sorted var.relocs) : Sorted (w.run var).relocs := by
  cases w with
  | address rel =>
      show Sorted (appendReloc rel var.relocs)
      rw [appendReloc_eq]
      exact sorted_insertBehind h
  | scalar offset size val => exact h.sublist removeReloc_sublist
  | _ => exact h

/-- A write keeps the addresses that it does not meet, and no others. -/
theorem meets_iff : w.Meets var ↔
    (∀ r, w = .address r → r.offset + 8 ≤ var.initSize) ∧ ∀ r ∈ var.relocs, (w.keeps r ↔ w.span.Disjoint r.span) := by
  cases w with
  | address rel =>
      constructor
      · rintro ⟨hinside, hmeets⟩
        refine ⟨fun r heq => (by cases heq; exact hinside), fun r hr => ⟨fun hne => (hmeets r hr).resolve_right hne, fun hdisjoint heq => ?_⟩⟩
        rcases (span_disjoint_iff rel r).mp hdisjoint with h | h <;> omega
      · rintro ⟨hinside, hkeeps⟩
        refine ⟨hinside rel rfl, fun r hr => ?_⟩
        by_cases heq : r.offset = rel.offset
        · exact .inr heq
        · exact .inl ((hkeeps r hr).mp heq)
  | scalar offset size val =>
      have hpos : 0 < accessBytes size := by
        rw [accessBytes]
        split_ifs <;> decide
      constructor
      · intro hmeets
        refine ⟨fun r heq => (by cases heq), fun r hr => ⟨fun hne => (hmeets r hr).resolve_right hne, fun hdisjoint heq => ?_⟩⟩
        have hapart : (offset : Int) + accessBytes size ≤ r.offset ∨ (r.offset : Int) + (8 : Nat) ≤ offset := hdisjoint
        omega
      · rintro ⟨_, hkeeps⟩ r hr
        by_cases heq : r.offset = offset
        · exact .inr heq
        · exact .inl ((hkeeps r hr).mp heq)
  | _ =>
      constructor
      · exact fun hmeets => ⟨fun r heq => (by cases heq), fun r hr => iff_of_true trivial (hmeets r hr)⟩
      · exact fun h r hr => (h.2 r hr).mp trivial

theorem right_nil (data : StaticField.LVar) : Right [] (.start data) := by
  refine ⟨List.Pairwise.nil, List.Pairwise.nil, fun rel => ?_, ?_⟩
  · constructor
    · exact fun hrel => absurd hrel List.not_mem_nil
    · rintro ⟨before, after, heq, _⟩
      cases before <;> cases heq
  · exact (@emitted_iff (.start data) List.Pairwise.nil List.Pairwise.nil).mpr fun r hr => absurd hr List.not_mem_nil

/-- One write. -/
theorem right_concat_iff (h : Right writes var) : Right (writes ++ [w]) (w.run var) ↔ w.Meets var := by
  have hmem := fun r => @mem_run_relocs var w h.sorted r
  rw [meets_iff]
  constructor
  · intro h'
    constructor
    · intro r hw
      have hinside := (emitted_iff h'.sorted h'.apart).mp h'.emitted r ((hmem r).mpr (.inl hw))
      rw [hw] at hinside
      exact hinside
    · intro r hr
      by_cases hw : w = .address r
      · rw [hw]
        refine iff_of_false (fun hne => hne rfl) fun hdisjoint => ?_
        rcases (span_disjoint_iff r r).mp hdisjoint with h | h <;> omega
      · have hlast := h'.last r
        rw [hmem, lastWrite_concat, or_iff_right hw, or_iff_right hw, ← h.last, and_congr_right_iff] at hlast
        exact hlast hr
  · rintro ⟨hinside, hkeeps⟩
    have hsorted := @sorted_run var w h.sorted
    have hapart : (w.run var).relocs.Pairwise fun r s => r.span.Disjoint s.span := by
      have hsymm : Std.Symm fun r s : Reloc => r.span.Disjoint s.span := ⟨fun _ _ h => h.symm⟩
      refine List.Pairwise.imp_of_mem (fun {r s} hr hs hlt => ?_) hsorted
      have hne : r ≠ s := fun heq => lt_irrefl _ (heq ▸ hlt)
      rcases (hmem r).mp hr with rfl | ⟨hr, hrk⟩
      · rcases (hmem s).mp hs with heq | ⟨hs, hsk⟩
        · cases heq
          exact absurd rfl hne
        · exact (hkeeps s hs).mp hsk
      · rcases (hmem s).mp hs with hw | ⟨hs, _⟩
        · have hnew := (hkeeps r hr).mp hrk
          rw [hw] at hnew
          exact hnew.symm
        · exact h.apart.forall hr hs hne
    refine ⟨hsorted, hapart, fun r => ?_, (emitted_iff hsorted hapart).mpr fun r hr => ?_⟩
    · rw [hmem, lastWrite_concat, ← h.last]
      exact or_congr_right (and_congr_right fun hr => hkeeps r hr)
    · have hle := initSize_le w var
      rcases (hmem r).mp hr with hw | ⟨hr, _⟩
      · have hnew := hinside r hw
        omega
      · have hold := (emitted_iff h.sorted h.apart).mp h.emitted r hr
        omega

theorem runWrites_concat (writes : List Write) (w : Write) (var : LVar) :
    runWrites (writes ++ [w]) var = w.run (runWrites writes var) := by
  rw [runWrites, List.foldl_append]
  rfl

/-- In order they are after any writes. -/
theorem sorted_runWrites (writes : List Write) (data : StaticField.LVar) : Sorted (runWrites writes (.start data)).relocs := by
  induction writes using List.reverseRecOn with
  | nil => exact List.Pairwise.nil
  | append_singleton done w ih =>
      rw [runWrites_concat]
      exact sorted_run ih

/-- **Addresses and data.** They are as they should be after every write, if and only if no write but one that replaces it
meets an address that is there, and none is put beyond the data. -/
theorem relocations_right_iff (writes : List Write) (data : StaticField.LVar) :
    (∀ done, done <+: writes → Right done (runWrites done (.start data))) ↔
      ∀ done w, done ++ [w] <+: writes → w.Meets (runWrites done (.start data)) := by
  constructor
  · intro hright done w hprefix
    have hdone := hright done ((List.prefix_append done [w]).trans hprefix)
    have hnext := hright _ hprefix
    rw [runWrites_concat] at hnext
    exact (right_concat_iff hdone).mp hnext
  · intro hmeets done
    induction done using List.reverseRecOn with
    | nil => exact fun _ => right_nil data
    | append_singleton done w ih =>
        intro hprefix
        rw [runWrites_concat]
        exact (right_concat_iff (ih ((List.prefix_append done [w]).trans hprefix))).mpr (hmeets done w hprefix)

/-- `{ .p = "x", .d = 1.0 }` for a union of a pointer and a `double` -/
def pointerThenDouble : List Write := [.address ⟨0, ".LC0", 0⟩, .floating 0 8 0x3FF0000000000000]

/-- The address stays, and is printed in place of the number. -/
theorem pointerThenDouble_wrong : ¬ ∀ (writes : List Write) (data : StaticField.LVar), Right writes (runWrites writes (.start data)) := by
  intro hclaim
  have hright := hclaim pointerThenDouble ⟨fun _ => 0, 8⟩
  have hlast := (hright.last ⟨0, ".LC0", 0⟩).mp (List.mem_singleton_self _)
  rcases (@lastWrite_concat [.address ⟨0, ".LC0", 0⟩] _ _).mp hlast with hw | ⟨_, hdisjoint⟩
  · cases hw
  · exact absurd hdisjoint (by decide)

end Runs

end Rcc.StaticData

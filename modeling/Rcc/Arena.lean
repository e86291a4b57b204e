import Mathlib

/-!
# The arena

`arena_alloc` cuts what it returns from the current chunk and never takes anything back. A region that was cut lies below
the `used` mark of its chunk, and there it stays: the mark only rises, and a chunk that is full is kept when the next one
is begun. So a new region, which starts at the mark, meets no other.
-/

namespace Rcc.Arena

abbrev Mem := Nat → BitVec 8

/-! ## Memory -/

/-- Some bytes in a row. -/
structure Region where
  start : Nat
  size : Nat
deriving DecidableEq, Repr

def Region.Within (r s : Region) : Prop := s.start ≤ r.start ∧ r.start + r.size ≤ s.start + s.size

def Region.Disjoint (r s : Region) : Prop := r.start + r.size ≤ s.start ∨ s.start + s.size ≤ r.start

instance (r s : Region) : Decidable (r.Within s) := inferInstanceAs (Decidable (_ ∧ _))

instance (r s : Region) : Decidable (r.Disjoint s) := inferInstanceAs (Decidable (_ ∨ _))

theorem Region.Disjoint.symm {r s : Region} (h : r.Disjoint s) : s.Disjoint r := Or.symm h

theorem Region.Disjoint.within {r s t : Region} (h : s.Disjoint t) (hr : r.Within s) : r.Disjoint t := by
  unfold Region.Disjoint Region.Within at *
  omega

/-- Something is in both. -/
theorem Region.not_disjoint {r s : Region} (hstart : r.start = s.start) (hr : 0 < r.size) (hs : 0 < s.size) :
    ¬ r.Disjoint s := by
  unfold Region.Disjoint
  omega

/-- `n` bytes from an address. -/
def read (m : Mem) (p n : Nat) : List (BitVec 8) := (List.range n).map fun i => m (p + i)

def write (m : Mem) (p : Nat) (bytes : List (BitVec 8)) : Mem := fun a =>
  if p ≤ a then bytes[a - p]?.getD (m a) else m a

theorem read_congr {m m' : Mem} {p n : Nat} (h : ∀ a, p ≤ a → a < p + n → m' a = m a) : read m' p n = read m p n := by
  refine List.map_congr_left fun i hi => ?_
  have hlt := List.mem_range.mp hi
  exact h (p + i) (Nat.le_add_right p i) (by omega)

/-- What is written can be read. -/
theorem read_write (m : Mem) (p : Nat) (bytes : List (BitVec 8)) : read (write m p bytes) p bytes.length = bytes := by
  refine List.ext_getElem (by rw [read, List.length_map, List.length_range]) fun i hi hi' => ?_
  simp only [read, List.getElem_map, List.getElem_range]
  rw [write, if_pos (Nat.le_add_right p i), Nat.add_sub_cancel_left, List.getElem?_eq_getElem hi', Option.getD_some]

/-- A write changes nothing elsewhere. -/
theorem write_of_disjoint {m : Mem} {r : Region} {p : Nat} {bytes : List (BitVec 8)} {size : Nat} (hsize : bytes.length ≤ size)
    (h : r.Disjoint ⟨p, size⟩) {a : Nat} (hlow : r.start ≤ a) (hhigh : a < r.start + r.size) : write m p bytes a = m a := by
  unfold Region.Disjoint at h
  rw [write]
  split
  · rw [List.getElem?_eq_none (by simp only at h; omega), Option.getD_none]
  · rfl

/-! ## Chunks -/

/-- `calloc`: where the memory lies that it returns, when these regions are in use. -/
structure Calloc where
  place : List Region → Nat → Nat
  fresh : ∀ used n, ∀ r ∈ used, (Region.mk (place used n) n).Disjoint r
  aligned : ∀ used n, 16 ∣ place used n

/-- Behind all that is in use. -/
def above : Calloc where
  place used _ := 16 * ((used.map fun r => r.start + r.size).sum + 1)
  fresh used n r hr := by
    have hle := List.le_sum_of_mem (List.mem_map_of_mem hr (f := fun r : Region => r.start + r.size))
    refine .inr ?_
    simp only
    omega
  aligned _ _ := Nat.dvd_mul_right _ _

/-- A `Chunk` at its address. -/
structure Chunk where
  base : Nat
  size : BitVec 64
  used : BitVec 64

/-- `data`, behind the fields -/
def Chunk.data (chunk : Chunk) : Nat := chunk.base + 24

/-- What `calloc` returned. -/
def Chunk.block (chunk : Chunk) : Region := ⟨chunk.base, (24 + chunk.size).toNat⟩

/-- What can be cut from it. -/
def Chunk.space (chunk : Chunk) : Region := ⟨chunk.data, chunk.size.toNat⟩

/-- What has been cut from it. -/
def Chunk.cut (chunk : Chunk) : Region := ⟨chunk.data, chunk.used.toNat⟩

structure Heap where
  mem : Mem
  /-- memory in use that is not from the arena -/
  others : List Region
  /-- `current_chunk` and those behind it -/
  chunks : List Chunk

/-- `(size + 7) & ~7` -/
def roundUp (size : BitVec 64) : BitVec 64 := (size + 7) &&& ~~~7

/-- A new chunk with room for so much. -/
def Heap.newChunk (c : Calloc) (h : Heap) (size : BitVec 64) : Heap :=
  let chunkSize := if 1048576 < size then size else 1048576
  let total := (24 + chunkSize).toNat
  let base := c.place (h.others ++ h.chunks.map Chunk.block) total
  { h with
    mem := fun a => if base ≤ a ∧ a < base + total then 0 else h.mem a
    chunks := ⟨base, chunkSize, 0⟩ :: h.chunks }

/-- A new chunk, if the current one has not enough. -/
def Heap.makeRoom (c : Calloc) (h : Heap) (size : BitVec 64) : Heap :=
  match h.chunks with
  | [] => h.newChunk c size
  | chunk :: _ => if chunk.size < chunk.used + size then h.newChunk c size else h

/-- Cuts a region from the current chunk. -/
def Heap.take (h : Heap) (size : BitVec 64) : Nat × Heap :=
  match h.chunks with
  | [] => (0, h)
  | chunk :: rest =>
      (chunk.data + chunk.used.toNat, { h with chunks := { chunk with used := chunk.used + size } :: rest })

/-- `arena_alloc` -/
def arenaAlloc (c : Calloc) (h : Heap) (size : BitVec 64) : Nat × Heap :=
  (h.makeRoom c (roundUp size)).take (roundUp size)

/-! ## What is kept -/

/-- No chunk is overfull or longer than a `size_t` can tell, and no two of them have memory in common, nor with anything
else. -/
structure Heap.Lawful (h : Heap) : Prop where
  bounded : ∀ chunk ∈ h.chunks, chunk.used.toNat ≤ chunk.size.toNat ∧ 24 + chunk.size.toNat < 2 ^ 64
  aligned : ∀ chunk ∈ h.chunks, 16 ∣ chunk.base ∧ 8 ∣ chunk.used.toNat
  apart : h.chunks.Pairwise fun chunk chunk' => chunk.block.Disjoint chunk'.block
  outside : ∀ chunk ∈ h.chunks, ∀ r ∈ h.others, chunk.block.Disjoint r

/-- And no chunk is so long that a short request could overflow. -/
structure Heap.Ok (h : Heap) : Prop extends h.Lawful where
  small : ∀ chunk ∈ h.chunks, chunk.size.toNat < 2 ^ 63

/-- A region that lies in what has been cut. -/
def Heap.Owned (h : Heap) (r : Region) : Prop := ∃ chunk ∈ h.chunks, r.Within chunk.cut

theorem Chunk.block_size (chunk : Chunk) (h : 24 + chunk.size.toNat < 2 ^ 64) :
    chunk.block.size = 24 + chunk.size.toNat := by
  have hhead : (24 : BitVec 64).toNat = 24 := rfl
  simp only [Chunk.block]
  rw [BitVec.toNat_add, hhead, Nat.mod_eq_of_lt h]

theorem Heap.Lawful.space_within {h : Heap} (hok : h.Lawful) {chunk : Chunk} (hmem : chunk ∈ h.chunks) :
    chunk.space.Within chunk.block := by
  have hsize := chunk.block_size (hok.bounded chunk hmem).2
  have hbase : chunk.block.start = chunk.base := rfl
  simp only [Region.Within, Chunk.space, Chunk.data, hsize, hbase]
  omega

theorem Heap.Lawful.cut_within {h : Heap} (hok : h.Lawful) {chunk : Chunk} (hmem : chunk ∈ h.chunks) :
    chunk.cut.Within chunk.block := by
  have hused := (hok.bounded chunk hmem).1
  have hspace := hok.space_within hmem
  simp only [Region.Within, Chunk.cut, Chunk.space] at hspace ⊢
  omega

/-- What is owned is not elsewhere. -/
theorem Heap.Lawful.owned_outside {h : Heap} (hok : h.Lawful) {r s : Region} (hr : h.Owned r) (hs : s ∈ h.others) :
    r.Disjoint s := by
  obtain ⟨chunk, hmem, hwithin⟩ := hr
  exact ((hok.outside chunk hmem s hs).within (hok.cut_within hmem)).within hwithin

/-- One heap after another: what was owned is still owned and has not changed. -/
structure Heap.Keeps (h h' : Heap) : Prop where
  owned : ∀ r, h.Owned r → h'.Owned r
  others : h'.others = h.others
  mem : ∀ r, h.Owned r → ∀ a, r.start ≤ a → a < r.start + r.size → h'.mem a = h.mem a

theorem Heap.Keeps.refl (h : Heap) : h.Keeps h := ⟨fun _ hr => hr, rfl, fun _ _ _ _ _ => rfl⟩

theorem Heap.Keeps.trans {h h' h'' : Heap} (k : h.Keeps h') (k' : h'.Keeps h'') : h.Keeps h'' where
  owned r hr := k'.owned r (k.owned r hr)
  others := k'.others.trans k.others
  mem r hr a hlow hhigh := (k'.mem r (k.owned r hr) a hlow hhigh).trans (k.mem r hr a hlow hhigh)

/-! ## What `arena_alloc` does -/

theorem toNat_and_not_seven (x : BitVec 64) : (x &&& ~~~7).toNat = x.toNat / 8 * 8 := by
  have hmask : (~~~7 : BitVec 64).toNat = (2 ^ 61 - 1) <<< 3 := by decide
  have hshift : x.toNat / 8 * 8 = x.toNat >>> 3 <<< 3 := by
    rw [Nat.shiftLeft_eq, Nat.shiftRight_eq_div_pow]
  rw [BitVec.toNat_and, hmask, hshift]
  refine Nat.eq_of_testBit_eq fun i => ?_
  have hlt : x.toNat.testBit i = true → i < 64 := fun hbit => by
    by_contra hge
    have hsmall := x.isLt.trans_le (Nat.pow_le_pow_right (by decide : 0 < 2) (not_lt.mp hge))
    rw [Nat.testBit_lt_two_pow hsmall] at hbit
    cases hbit
  rw [Nat.testBit_and, Nat.testBit_shiftLeft, Nat.testBit_shiftLeft, Nat.testBit_two_pow_sub_one, Nat.testBit_shiftRight]
  by_cases hi : 3 ≤ i
  · rw [Nat.add_sub_of_le hi]
    cases hbit : x.toNat.testBit i with
    | false => simp only [Bool.false_and, Bool.and_false]
    | true =>
        have := hlt hbit
        have hin : i - 3 < 61 := by omega
        simp only [hin, decide_true, Bool.and_true, Bool.true_and]
  · simp only [hi, decide_false, Bool.false_and, Bool.and_false]

/-- Rounded up to a multiple of 8. -/
theorem toNat_roundUp {size : BitVec 64} (h : size.toNat + 7 < 2 ^ 64) :
    (roundUp size).toNat = (size.toNat + 7) / 8 * 8 := by
  rw [roundUp, toNat_and_not_seven, BitVec.toNat_add]
  have hseven : (7 : BitVec 64).toNat = 7 := rfl
  rw [hseven, Nat.mod_eq_of_lt h]

/-- A multiple of 8 that is not far above. -/
theorem roundUp_spec {size : BitVec 64} (h : size.toNat + 7 < 2 ^ 64) :
    8 ∣ (roundUp size).toNat ∧ size.toNat ≤ (roundUp size).toNat ∧ (roundUp size).toNat < size.toNat + 8 := by
  rw [toNat_roundUp h]
  omega

/-- Neither the sum that the room of the current chunk is compared with overflows, nor the length of a new chunk. -/
structure Heap.Fits (h : Heap) (size : BitVec 64) : Prop where
  current : ∀ chunk ∈ h.chunks.head?, chunk.used.toNat + size.toNat < 2 ^ 64
  fresh : 24 + size.toNat < 2 ^ 64

/-- The current chunk has room for so much. -/
def Heap.Room (h : Heap) (size : BitVec 64) : Prop :=
  ∃ chunk rest, h.chunks = chunk :: rest ∧ chunk.used.toNat + size.toNat ≤ chunk.size.toNat

/-- How long a new chunk is. -/
theorem chunkSize_spec {size : BitVec 64} (hsize : 24 + size.toNat < 2 ^ 64) :
    ∃ chunkSize, (if 1048576 < size then size else 1048576) = chunkSize ∧ size.toNat ≤ chunkSize.toNat ∧
      24 + chunkSize.toNat < 2 ^ 64 ∧ (size.toNat < 2 ^ 63 → chunkSize.toNat < 2 ^ 63) := by
  have hmega : (1048576 : BitVec 64).toNat = 1048576 := rfl
  refine ⟨_, rfl, ?_⟩
  split
  · exact ⟨le_refl _, hsize, id⟩
  · next hnot =>
      rw [BitVec.lt_def, hmega] at hnot
      rw [hmega]
      omega

theorem newChunk_ok (c : Calloc) {h : Heap} (hok : h.Lawful) {size : BitVec 64} (hsize : 24 + size.toNat < 2 ^ 64) :
    (h.newChunk c size).Lawful ∧ h.Keeps (h.newChunk c size) ∧ (h.newChunk c size).Room size := by
  obtain ⟨chunkSize, hchunk, hle, hlt, -⟩ := chunkSize_spec hsize
  have hfresh := c.fresh (h.others ++ h.chunks.map Chunk.block) (24 + chunkSize).toNat
  have haligned := c.aligned (h.others ++ h.chunks.map Chunk.block) (24 + chunkSize).toNat
  simp only [Heap.newChunk, hchunk]
  generalize c.place (h.others ++ h.chunks.map Chunk.block) (24 + chunkSize).toNat = base at hfresh haligned
  have hblock : ∀ chunk ∈ h.chunks, (Region.mk base (24 + chunkSize).toNat).Disjoint chunk.block := fun chunk hchunk =>
    hfresh _ (List.mem_append_right _ (List.mem_map_of_mem hchunk))
  refine ⟨⟨?_, ?_, ?_, ?_⟩, ⟨?_, rfl, ?_⟩, ⟨_, _, rfl, ?_⟩⟩
  · intro chunk hmem
    rcases List.mem_cons.mp hmem with rfl | hmem
    · exact ⟨Nat.zero_le _, hlt⟩
    · exact hok.bounded chunk hmem
  · intro chunk hmem
    rcases List.mem_cons.mp hmem with rfl | hmem
    · exact ⟨haligned, Nat.dvd_zero 8⟩
    · exact hok.aligned chunk hmem
  · exact List.Pairwise.cons hblock hok.apart
  · intro chunk hmem r hr
    rcases List.mem_cons.mp hmem with rfl | hmem
    · exact hfresh r (List.mem_append_left _ hr)
    · exact hok.outside chunk hmem r hr
  · rintro r ⟨chunk, hmem, hwithin⟩
    exact ⟨chunk, List.mem_cons_of_mem _ hmem, hwithin⟩
  · rintro r ⟨chunk, hmem, hwithin⟩ a hlow hhigh
    have hapart := ((hblock chunk hmem).symm.within (hok.cut_within hmem)).within hwithin
    unfold Region.Disjoint at hapart
    refine if_neg ?_
    simp only at hapart
    omega
  · exact (Nat.zero_add _).trans_le hle

/-- The comparison with the room of the current chunk, where the sum does not overflow. -/
theorem lt_add_iff {chunk : Chunk} {size : BitVec 64} (h : chunk.used.toNat + size.toNat < 2 ^ 64) :
    chunk.size < chunk.used + size ↔ chunk.size.toNat < chunk.used.toNat + size.toNat := by
  rw [BitVec.lt_def, BitVec.toNat_add, Nat.mod_eq_of_lt h]

theorem makeRoom_ok (c : Calloc) {h : Heap} (hok : h.Lawful) {size : BitVec 64} (hfits : h.Fits size) :
    (h.makeRoom c size).Lawful ∧ h.Keeps (h.makeRoom c size) ∧ (h.makeRoom c size).Room size := by
  rw [Heap.makeRoom]
  split
  · exact newChunk_ok c hok hfits.fresh
  · next chunk rest hchunks =>
      split
      · exact newChunk_ok c hok hfits.fresh
      · next hroom =>
          rw [lt_add_iff (hfits.current chunk (hchunks ▸ rfl)), not_lt] at hroom
          exact ⟨hok, Heap.Keeps.refl h, chunk, rest, hchunks, hroom⟩

/-- One heap after another in which a region has been cut, from the current chunk and apart from all that was cut before. -/
structure Heap.Cuts (h h' : Heap) (r : Region) : Prop where
  lawful : h'.Lawful
  keeps : h.Keeps h'
  apart : ∀ s, h.Owned s → s.Disjoint r
  aligned : 8 ∣ r.start
  current : ∃ chunk ∈ h'.chunks.head?, r.Within chunk.cut

theorem Heap.Cuts.owned {h h' : Heap} {r : Region} (hcuts : h.Cuts h' r) : h'.Owned r := by
  obtain ⟨chunk, hmem, hwithin⟩ := hcuts.current
  exact ⟨chunk, List.mem_of_mem_head? hmem, hwithin⟩

theorem take_ok {h h' : Heap} (hok : h.Lawful) {size : BitVec 64} {p : Nat} (hround : 8 ∣ size.toNat) (hroom : h.Room size)
    (htake : h.take size = (p, h')) : h.Cuts h' ⟨p, size.toNat⟩ := by
  obtain ⟨chunk, rest, hchunks, hfits⟩ := hroom
  have hmem : chunk ∈ h.chunks := hchunks ▸ List.mem_cons_self
  have hmem' : ∀ chunk' ∈ rest, chunk' ∈ h.chunks := fun chunk' h => hchunks ▸ List.mem_cons_of_mem _ h
  have hbounded := hok.bounded chunk hmem
  have haligned := hok.aligned chunk hmem
  have hused : (chunk.used + size).toNat = chunk.used.toNat + size.toNat := by
    rw [BitVec.toNat_add, Nat.mod_eq_of_lt (by omega)]
  have hapart := List.pairwise_cons.mp (hchunks ▸ hok.apart)
  simp only [Heap.take, hchunks] at htake
  cases htake
  refine ⟨⟨?_, ?_, ?_, ?_⟩, ⟨?_, rfl, fun _ _ _ _ _ => rfl⟩, ?_, ?_, ?_⟩
  · intro chunk' hmem₁
    rcases List.mem_cons.mp hmem₁ with rfl | hmem₁
    · exact ⟨by simp only [hused]; omega, hbounded.2⟩
    · exact hok.bounded chunk' (hmem' chunk' hmem₁)
  · intro chunk' hmem₁
    rcases List.mem_cons.mp hmem₁ with rfl | hmem₁
    · exact ⟨haligned.1, by simp only [hused]; exact Nat.dvd_add haligned.2 hround⟩
    · exact hok.aligned chunk' (hmem' chunk' hmem₁)
  · exact List.Pairwise.cons hapart.1 hapart.2
  · intro chunk' hmem₁
    rcases List.mem_cons.mp hmem₁ with rfl | hmem₁
    · exact hok.outside chunk hmem
    · exact hok.outside chunk' (hmem' chunk' hmem₁)
  · rintro r ⟨chunk', hmem₁, hwithin⟩
    rw [hchunks] at hmem₁
    rcases List.mem_cons.mp hmem₁ with rfl | hmem₁
    · refine ⟨_, List.mem_cons_self, hwithin.1, ?_⟩
      have hend := hwithin.2
      simp only [Chunk.cut, Chunk.data, hused] at hend ⊢
      omega
    · exact ⟨chunk', List.mem_cons_of_mem _ hmem₁, hwithin⟩
  · rintro r ⟨chunk', hmem₁, hwithin⟩
    rw [hchunks] at hmem₁
    rcases List.mem_cons.mp hmem₁ with rfl | hmem₁
    · exact .inl hwithin.2
    · have hin : (Region.mk (chunk.data + chunk.used.toNat) size.toNat).Within chunk.block := by
        have hspace := hok.space_within hmem
        simp only [Region.Within, Chunk.space, Chunk.data] at hspace ⊢
        omega
      have hcut := hok.cut_within (hmem' chunk' hmem₁)
      exact (((hapart.1 chunk' hmem₁).within hin).symm.within hcut).within hwithin
  · simp only [Chunk.data]
    omega
  · refine ⟨_, rfl, ?_⟩
    simp only [Region.Within, Chunk.cut, Chunk.data, hused]
    omega

/-- A request that does not overflow. -/
theorem arenaAlloc_cuts (c : Calloc) {h h' : Heap} (hok : h.Lawful) {size : BitVec 64} {p : Nat}
    (hround : size.toNat + 7 < 2 ^ 64) (hfits : h.Fits (roundUp size)) (halloc : arenaAlloc c h size = (p, h')) :
    h.Cuts h' ⟨p, size.toNat⟩ := by
  obtain ⟨hdvd, hle, -⟩ := roundUp_spec hround
  obtain ⟨hok₁, hkeeps₁, hroom⟩ := makeRoom_ok c hok hfits
  have hcuts := take_ok hok₁ hdvd hroom halloc
  have hwithin : (Region.mk p size.toNat).Within ⟨p, (roundUp size).toNat⟩ := by
    simp only [Region.Within]
    omega
  refine ⟨hcuts.lawful, hkeeps₁.trans hcuts.keeps, fun r hr => ?_, hcuts.aligned, ?_⟩
  · exact ((hcuts.apart r (hkeeps₁.owned r hr)).symm.within hwithin).symm
  · obtain ⟨chunk, hmem, hin⟩ := hcuts.current
    exact ⟨chunk, hmem, hin.1.trans hwithin.1, hwithin.2.trans hin.2⟩

/-- Short requests do not make long chunks. -/
theorem arenaAlloc_small (c : Calloc) {h : Heap} (hsmall : ∀ chunk ∈ h.chunks, chunk.size.toNat < 2 ^ 63) (size : BitVec 64)
    (hsize : (roundUp size).toNat < 2 ^ 63) : ∀ chunk ∈ (arenaAlloc c h size).2.chunks, chunk.size.toNat < 2 ^ 63 := by
  have hroom : ∀ chunk ∈ (h.makeRoom c (roundUp size)).chunks, chunk.size.toNat < 2 ^ 63 := by
    obtain ⟨chunkSize, hchunk, -, -, hlt⟩ := chunkSize_spec (show 24 + (roundUp size).toNat < 2 ^ 64 by omega)
    have hnew : ∀ chunk ∈ (h.newChunk c (roundUp size)).chunks, chunk.size.toNat < 2 ^ 63 := by
      simp only [Heap.newChunk, hchunk]
      exact List.forall_mem_cons.mpr ⟨hlt hsize, hsmall⟩
    rw [Heap.makeRoom]
    split
    · exact hnew
    · split
      · exact hnew
      · exact hsmall
  rw [arenaAlloc, Heap.take]
  split
  · next hnil => exact hroom
  · next chunk rest hchunks =>
      rw [hchunks] at hroom
      exact List.forall_mem_cons.mpr (List.forall_mem_cons.mp hroom)

/-- **`arena_alloc`.** The region it returns is apart from every region returned before, which all stay as they are. -/
theorem arenaAlloc_ok (c : Calloc) {h h' : Heap} (hok : h.Ok) {size : BitVec 64} {p : Nat} (hsize : size.toNat < 2 ^ 61)
    (halloc : arenaAlloc c h size = (p, h')) :
    h'.Ok ∧ h.Keeps h' ∧ h'.Owned ⟨p, size.toNat⟩ ∧ ∀ r, h.Owned r → r.Disjoint ⟨p, size.toNat⟩ := by
  have hround := roundUp_spec (show size.toNat + 7 < 2 ^ 64 by omega)
  have hfits : h.Fits (roundUp size) := by
    refine ⟨fun chunk hmem => ?_, by omega⟩
    have hchunk := List.mem_of_mem_head? hmem
    have hused := (hok.bounded chunk hchunk).1
    have hsmall := hok.small chunk hchunk
    omega
  have hcuts := arenaAlloc_cuts c hok.toLawful (by omega) hfits halloc
  have hsmall := arenaAlloc_small c hok.small size (by omega)
  rw [halloc] at hsmall
  exact ⟨⟨hcuts.lawful, hsmall⟩, hcuts.keeps, hcuts.owned, hcuts.apart⟩

end Rcc.Arena

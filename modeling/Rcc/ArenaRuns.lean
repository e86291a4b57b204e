import Rcc.Arena

/-!
# All that the arena returns

Requests come one after the other, and in between the program writes to what it was given and does with the rest of the memory what it
likes. A region is zero when it is returned because nobody has been given those bytes before: behind the `used` mark of the current chunk
there is what `calloc` left there.

All this rests on two sums. `used + size` is compared with the size of the chunk, and `sizeof(Chunk) + chunk_size` is what `calloc` is asked
for; both are computed in a `size_t`. If the first overflows, the region is longer than the chunk and the mark goes back over
what was returned before; if the second does, the chunk is shorter than it says. Nothing else can go wrong.
-/

namespace Rcc.Arena

/-! ## Runs -/

/-- A region that was returned, the current chunk at that time and the memory. -/
structure Cut where
  region : Region
  chunk : Option Chunk
  mem : Mem

inductive Event where
  /-- `arena_alloc(size)` -/
  | alloc (size : BitVec 64)
  | write (p : Nat) (bytes : List (BitVec 8))
  /-- what the program has in use from now on that is not from the arena -/
  | others (regions : List Region)

/-- The heap, and what `arena_alloc` has returned, the last first. -/
structure History where
  heap : Heap
  cuts : List Cut

namespace History

/-- Nothing has been asked for. -/
def start (mem : Mem) (others : List Region) : History := ⟨⟨mem, others, []⟩, []⟩

def step (c : Calloc) (w : History) : Event → History
  | .alloc size =>
      let (p, heap) := arenaAlloc c w.heap size
      ⟨heap, ⟨⟨p, size.toNat⟩, heap.chunks.head?, heap.mem⟩ :: w.cuts⟩
  | .write p bytes => { w with heap := { w.heap with mem := Arena.write w.heap.mem p bytes } }
  | .others regions => { w with heap := { w.heap with others := regions } }

def run (c : Calloc) (w : History) (events : List Event) : History := events.foldl (step c) w

/-- A request can be rounded up, a write is to memory in use, and what is in use elsewhere is not in a chunk. -/
def Allows (w : History) : Event → Prop
  | .alloc size => size.toNat + 7 < 2 ^ 64
  | .write p bytes => ∃ r ∈ w.heap.others ++ w.cuts.map Cut.region, Region.Within ⟨p, bytes.length⟩ r
  | .others regions => ∀ r ∈ regions, ∀ chunk ∈ w.heap.chunks, chunk.block.Disjoint r

def Legal (c : Calloc) : History → List Event → Prop
  | _, [] => True
  | w, e :: events => w.Allows e ∧ (w.step c e).Legal c events

instance (w : History) (e : Event) : Decidable (w.Allows e) :=
  match e with
  | .alloc size => inferInstanceAs (Decidable (size.toNat + 7 < 2 ^ 64))
  | .write p bytes => inferInstanceAs (Decidable (∃ r ∈ w.heap.others ++ w.cuts.map Cut.region, Region.Within ⟨p, bytes.length⟩ r))
  | .others regions => inferInstanceAs (Decidable (∀ r ∈ regions, ∀ chunk ∈ w.heap.chunks, chunk.block.Disjoint r))

/-- No request overflows where it is made. -/
def Fits (c : Calloc) : History → List Event → Prop
  | _, [] => True
  | w, e :: events => (∀ size, e = .alloc size → w.heap.Fits (roundUp size)) ∧ (w.step c e).Fits c events

end History

/-- The region lies in what can be cut from its chunk, and in what `calloc` returned for it. -/
def Cut.Inside (cut : Cut) : Prop :=
  ∃ chunk ∈ cut.chunk, cut.region.Within chunk.space ∧ cut.region.Within chunk.block

/-- What the arena is for. -/
structure Right (cuts : List Cut) : Prop where
  apart : cuts.Pairwise fun cut cut' => cut.region.Disjoint cut'.region
  aligned : ∀ cut ∈ cuts, 8 ∣ cut.region.start
  /-- zero when it was returned -/
  zero : ∀ cut ∈ cuts, ∀ a, cut.region.start ≤ a → a < cut.region.start + cut.region.size → cut.mem a = 0
  inside : ∀ cut ∈ cuts, cut.Inside

/-! ## Nothing has been written behind the mark -/

/-- What is left of the current chunk is zero. -/
def Heap.Blank (h : Heap) : Prop :=
  ∀ chunk ∈ h.chunks.head?, ∀ a, chunk.data + chunk.used.toNat ≤ a → a < chunk.data + chunk.size.toNat → h.mem a = 0

theorem newChunk_blank (c : Calloc) (h : Heap) {size : BitVec 64} (hsize : 24 + size.toNat < 2 ^ 64) :
    (h.newChunk c size).Blank := by
  obtain ⟨chunkSize, hchunk, -, hlt, -⟩ := chunkSize_spec hsize
  intro chunk hmem a hlow hhigh
  simp only [Heap.newChunk, hchunk, List.head?_cons, Option.mem_some_iff] at hmem hlow hhigh ⊢
  subst hmem
  have hblock := Chunk.block_size ⟨c.place (h.others ++ h.chunks.map Chunk.block) (24 + chunkSize).toNat, chunkSize, 0⟩ hlt
  refine if_pos ?_
  simp only [Chunk.block, Chunk.data] at hblock hlow hhigh
  omega

theorem makeRoom_blank (c : Calloc) {h : Heap} (hblank : h.Blank) {size : BitVec 64} (hsize : 24 + size.toNat < 2 ^ 64) :
    (h.makeRoom c size).Blank := by
  rw [Heap.makeRoom]
  split
  · exact newChunk_blank c h hsize
  · split
    · exact newChunk_blank c h hsize
    · exact hblank

/-- What is cut is zero, and so is what is left then. -/
theorem take_blank {h h' : Heap} (hblank : h.Blank) {size : BitVec 64} {p : Nat} (hroom : h.Room size)
    (hbounded : ∀ chunk ∈ h.chunks, chunk.size.toNat < 2 ^ 64) (htake : h.take size = (p, h')) :
    h'.Blank ∧ ∀ a, p ≤ a → a < p + size.toNat → h'.mem a = 0 := by
  obtain ⟨chunk, rest, hchunks, hfits⟩ := hroom
  have hsize := hbounded chunk (hchunks ▸ List.mem_cons_self)
  have hzero := hblank chunk (hchunks ▸ rfl)
  have hused : (chunk.used + size).toNat = chunk.used.toNat + size.toNat := by
    rw [BitVec.toNat_add, Nat.mod_eq_of_lt (by omega)]
  simp only [Heap.take, hchunks] at htake
  cases htake
  constructor
  · intro chunk' hmem a hlow hhigh
    simp only [List.head?_cons, Option.mem_some_iff] at hmem
    subst hmem
    simp only [Chunk.data, hused] at hzero hlow hhigh
    exact hzero a (by omega) (by omega)
  · intro a hlow hhigh
    exact hzero a hlow (by omega)

theorem arenaAlloc_blank (c : Calloc) {h h' : Heap} (hok : h.Lawful) (hblank : h.Blank) {size : BitVec 64} {p : Nat}
    (hround : size.toNat + 7 < 2 ^ 64) (hfits : h.Fits (roundUp size)) (halloc : arenaAlloc c h size = (p, h')) :
    h'.Blank ∧ ∀ a, p ≤ a → a < p + size.toNat → h'.mem a = 0 := by
  obtain ⟨-, hle, -⟩ := roundUp_spec hround
  obtain ⟨hok₁, -, hroom⟩ := makeRoom_ok c hok hfits
  obtain ⟨hblank', hzero⟩ := take_blank (makeRoom_blank c hblank hfits.fresh) hroom (fun chunk _ => chunk.size.isLt) halloc
  exact ⟨hblank', fun a hlow hhigh => hzero a hlow (by omega)⟩

/-! ## What is kept -/

/-- All is in order so far. -/
structure History.Good (w : History) : Prop where
  lawful : w.heap.Lawful
  blank : w.heap.Blank
  owned : ∀ cut ∈ w.cuts, w.heap.Owned cut.region
  right : Right w.cuts

/-- Nothing in use reaches behind the mark of a chunk. -/
theorem History.Good.in_use {w : History} (hgood : w.Good) {r : Region}
    (hr : r ∈ w.heap.others ++ w.cuts.map Cut.region) {chunk : Chunk} (hmem : chunk ∈ w.heap.chunks.head?) :
    r.Disjoint ⟨chunk.data + chunk.used.toNat, chunk.size.toNat - chunk.used.toNat⟩ := by
  have hchunk := List.mem_of_mem_head? hmem
  have hused := (hgood.lawful.bounded chunk hchunk).1
  have hspace := hgood.lawful.space_within hchunk
  have hrest : (Region.mk (chunk.data + chunk.used.toNat) (chunk.size.toNat - chunk.used.toNat)).Within chunk.block := by
    simp only [Region.Within, Chunk.space] at hspace ⊢
    omega
  rcases List.mem_append.mp hr with hother | hcut
  · exact ((hgood.lawful.outside chunk hchunk r hother).within hrest).symm
  · obtain ⟨cut, hmem', rfl⟩ := List.mem_map.mp hcut
    obtain ⟨chunk', hchunk', hwithin⟩ := hgood.owned cut hmem'
    obtain ⟨rest, hchunks⟩ : ∃ rest, w.heap.chunks = chunk :: rest := List.head?_eq_some_iff.mp hmem
    have hapart := List.pairwise_cons.mp (hchunks ▸ hgood.lawful.apart)
    rcases List.mem_cons.mp (hchunks ▸ hchunk') with rfl | hrest'
    · exact .inl hwithin.2
    · exact (((hapart.1 chunk' hrest').within hrest).symm.within (hgood.lawful.cut_within hchunk')).within hwithin

theorem Right.cons {cut : Cut} {cuts : List Cut} (h : Right cuts) (hapart : ∀ cut' ∈ cuts, cut.region.Disjoint cut'.region)
    (haligned : 8 ∣ cut.region.start)
    (hzero : ∀ a, cut.region.start ≤ a → a < cut.region.start + cut.region.size → cut.mem a = 0) (hinside : cut.Inside) :
    Right (cut :: cuts) where
  apart := List.Pairwise.cons hapart h.apart
  aligned := List.forall_mem_cons.mpr ⟨haligned, h.aligned⟩
  zero := List.forall_mem_cons.mpr ⟨hzero, h.zero⟩
  inside := List.forall_mem_cons.mpr ⟨hinside, h.inside⟩

theorem Right.tail {cut : Cut} {cuts : List Cut} (h : Right (cut :: cuts)) : Right cuts where
  apart := (List.pairwise_cons.mp h.apart).2
  aligned := (List.forall_mem_cons.mp h.aligned).2
  zero := (List.forall_mem_cons.mp h.zero).2
  inside := (List.forall_mem_cons.mp h.inside).2

theorem History.Good.alloc (c : Calloc) {w : History} (hgood : w.Good) {size : BitVec 64} (hround : size.toNat + 7 < 2 ^ 64)
    (hfits : w.heap.Fits (roundUp size)) : (w.step c (.alloc size)).Good := by
  obtain ⟨⟨p, heap⟩, halloc⟩ : ∃ result, arenaAlloc c w.heap size = result := ⟨_, rfl⟩
  have hcuts := arenaAlloc_cuts c hgood.lawful hround hfits halloc
  obtain ⟨hblank, hzero⟩ := arenaAlloc_blank c hgood.lawful hgood.blank hround hfits halloc
  obtain ⟨chunk, hmem, hwithin⟩ := hcuts.current
  have hchunk := List.mem_of_mem_head? hmem
  have hused := (hcuts.lawful.bounded chunk hchunk).1
  have hspace : Region.Within ⟨p, size.toNat⟩ chunk.space := by
    simp only [Region.Within, Chunk.cut, Chunk.space] at hwithin ⊢
    omega
  have hblock := hcuts.lawful.cut_within hchunk
  simp only [step, halloc]
  refine ⟨hcuts.lawful, hblank, ?_, hgood.right.cons ?_ hcuts.aligned hzero ?_⟩
  · exact List.forall_mem_cons.mpr ⟨hcuts.owned, fun cut hcut => hcuts.keeps.owned _ (hgood.owned cut hcut)⟩
  · intro cut hcut
    exact (hcuts.apart _ (hgood.owned cut hcut)).symm
  · exact ⟨chunk, hmem, hspace, hblock.1.trans hwithin.1, hwithin.2.trans hblock.2⟩

theorem History.Good.write {w : History} (hgood : w.Good) {p : Nat} {bytes : List (BitVec 8)}
    (hallows : w.Allows (.write p bytes)) (c : Calloc) : (w.step c (.write p bytes)).Good := by
  obtain ⟨r, hr, hwithin⟩ := hallows
  refine ⟨{ hgood.lawful with }, ?_, hgood.owned, hgood.right⟩
  intro chunk hmem a hlow hhigh
  have hapart := ((hgood.in_use hr hmem).within hwithin).symm
  have hused := (hgood.lawful.bounded chunk (List.mem_of_mem_head? hmem)).1
  simp only [step] at hlow hhigh ⊢
  rw [write_of_disjoint (Nat.le_refl _) hapart hlow (by simp only; omega)]
  exact hgood.blank chunk hmem a hlow hhigh

theorem History.Good.others {w : History} (hgood : w.Good) {regions : List Region} (hallows : w.Allows (.others regions))
    (c : Calloc) : (w.step c (.others regions)).Good where
  lawful := { hgood.lawful with outside := fun chunk hchunk r hr => hallows r hr chunk hchunk }
  blank := hgood.blank
  owned := hgood.owned
  right := hgood.right

/-- One event. -/
theorem History.Good.step (c : Calloc) {w : History} (hgood : w.Good) {e : Event} (hallows : w.Allows e)
    (hfits : ∀ size, e = .alloc size → w.heap.Fits (roundUp size)) : (w.step c e).Good := by
  cases e with
  | alloc size => exact hgood.alloc c hallows (hfits size rfl)
  | write p bytes => exact hgood.write hallows c
  | others regions => exact hgood.others hallows c

theorem History.good_start (mem : Mem) (others : List Region) : (start mem others).Good where
  lawful :=
    { bounded := fun _ h => absurd h List.not_mem_nil
      aligned := fun _ h => absurd h List.not_mem_nil
      apart := List.Pairwise.nil
      outside := fun _ h => absurd h List.not_mem_nil }
  blank _ h := by cases h
  owned _ h := absurd h List.not_mem_nil
  right := ⟨List.Pairwise.nil, fun _ h => absurd h List.not_mem_nil, fun _ h => absurd h List.not_mem_nil,
    fun _ h => absurd h List.not_mem_nil⟩

/-- All events, if no request overflows. -/
theorem History.Good.run (c : Calloc) {w : History} (hgood : w.Good) {events : List Event} (hlegal : w.Legal c events)
    (hfits : w.Fits c events) : (w.run c events).Good := by
  induction events generalizing w with
  | nil => exact hgood
  | cons e events ih => exact ih (hgood.step c hlegal.1 hfits.1) hlegal.2 hfits.2

/-! ## A request that overflows -/

/-- What has been returned stays on record. -/
theorem History.right_of_run (c : Calloc) {w : History} (events : List Event) (h : Right (w.run c events).cuts) :
    Right w.cuts := by
  induction events generalizing w with
  | nil => exact h
  | cons e events ih =>
      have hnext : Right (w.step c e).cuts := ih h
      cases e with
      | alloc size => exact hnext.tail
      | write p bytes => exact hnext
      | others regions => exact hnext

/-- The region of a new chunk that is too long for `calloc` to be asked for. -/
theorem not_inside_new (c : Calloc) {h h' : Heap} {size : BitVec 64} {p : Nat} (hround : size.toNat + 7 < 2 ^ 64)
    (hlong : 2 ^ 64 ≤ 24 + (roundUp size).toNat) (htake : (h.newChunk c (roundUp size)).take (roundUp size) = (p, h')) :
    ¬ Cut.Inside ⟨⟨p, size.toNat⟩, h'.chunks.head?, h'.mem⟩ := by
  obtain ⟨-, -, hlt⟩ := roundUp_spec hround
  have hmega : 1048576 < roundUp size := by
    rw [BitVec.lt_def, show (1048576 : BitVec 64).toNat = 1048576 from rfl]
    omega
  have htotal : (24 + roundUp size).toNat = 24 + (roundUp size).toNat - 2 ^ 64 := by
    have hhead : (24 : BitVec 64).toNat = 24 := rfl
    have hword := (roundUp size).isLt
    rw [BitVec.toNat_add, hhead, Nat.mod_eq_sub_mod hlong, Nat.mod_eq_of_lt (by omega)]
  simp only [Heap.newChunk, if_pos hmega, Heap.take] at htake
  cases htake
  rintro ⟨chunk, hmem, -, hblock⟩
  simp only [List.head?_cons, Option.mem_some_iff] at hmem
  subst hmem
  simp only [Region.Within, Chunk.block, Chunk.data, htotal] at hblock
  omega

/-- The region that is longer than what is left of the chunk. -/
theorem not_inside_current {h h' : Heap} (hok : h.Lawful) {size : BitVec 64} {p : Nat} (hround : size.toNat + 7 < 2 ^ 64)
    {chunk : Chunk} {rest : List Chunk} (hchunks : h.chunks = chunk :: rest)
    (hlong : 2 ^ 64 ≤ chunk.used.toNat + (roundUp size).toNat) (htake : h.take (roundUp size) = (p, h')) :
    ¬ Cut.Inside ⟨⟨p, size.toNat⟩, h'.chunks.head?, h'.mem⟩ := by
  obtain ⟨-, -, hlt⟩ := roundUp_spec hround
  have hbounded := (hok.bounded chunk (hchunks ▸ List.mem_cons_self)).2
  simp only [Heap.take, hchunks] at htake
  cases htake
  rintro ⟨chunk', hmem, hspace, -⟩
  simp only [List.head?_cons, Option.mem_some_iff] at hmem
  subst hmem
  simp only [Region.Within, Chunk.space, Chunk.data] at hspace
  omega

/-- A sum that overflows says that there is room. -/
theorem makeRoom_overflow (c : Calloc) {h : Heap} (hok : h.Lawful) {chunk : Chunk} {rest : List Chunk} {size : BitVec 64}
    (hchunks : h.chunks = chunk :: rest) (hlong : 2 ^ 64 ≤ chunk.used.toNat + size.toNat) : h.makeRoom c size = h := by
  have hused := (hok.bounded chunk (hchunks ▸ List.mem_cons_self)).1
  have hword := size.isLt
  simp only [Heap.makeRoom, hchunks]
  refine if_neg ?_
  rw [BitVec.lt_def, BitVec.toNat_add, Nat.mod_eq_sub_mod hlong, Nat.mod_eq_of_lt (by omega)]
  omega

/-- A chunk is made for what is longer than any. -/
theorem makeRoom_long (c : Calloc) {h : Heap} (hok : h.Lawful) {size : BitVec 64}
    (hcurrent : ∀ chunk ∈ h.chunks.head?, chunk.used.toNat + size.toNat < 2 ^ 64) (hlong : 2 ^ 64 ≤ 24 + size.toNat) :
    h.makeRoom c size = h.newChunk c size := by
  rw [Heap.makeRoom]
  split
  · rfl
  · next chunk rest hchunks =>
      have hbounded := (hok.bounded chunk (hchunks ▸ List.mem_cons_self)).2
      refine if_pos ?_
      rw [lt_add_iff (hcurrent chunk (hchunks ▸ rfl))]
      omega

theorem fits_of_inside (c : Calloc) {h h' : Heap} (hok : h.Lawful) {size : BitVec 64} {p : Nat} (hround : size.toNat + 7 < 2 ^ 64)
    (halloc : arenaAlloc c h size = (p, h')) (hinside : Cut.Inside ⟨⟨p, size.toNat⟩, h'.chunks.head?, h'.mem⟩) :
    h.Fits (roundUp size) := by
  rw [arenaAlloc] at halloc
  have hcurrent : ∀ chunk ∈ h.chunks.head?, chunk.used.toNat + (roundUp size).toNat < 2 ^ 64 := by
    intro chunk hmem
    by_contra hlong
    obtain ⟨rest, hchunks⟩ : ∃ rest, h.chunks = chunk :: rest := List.head?_eq_some_iff.mp hmem
    rw [makeRoom_overflow c hok hchunks (not_lt.mp hlong)] at halloc
    exact not_inside_current hok hround hchunks (not_lt.mp hlong) halloc hinside
  refine ⟨hcurrent, ?_⟩
  by_contra hlong
  rw [makeRoom_long c hok hcurrent (not_lt.mp hlong)] at halloc
  exact not_inside_new c hround (not_lt.mp hlong) halloc hinside

theorem History.Good.fits (c : Calloc) {w : History} (hgood : w.Good) {events : List Event} (hlegal : w.Legal c events)
    (hright : Right (w.run c events).cuts) : w.Fits c events := by
  induction events generalizing w with
  | nil => trivial
  | cons e events ih =>
      have hnext : Right (w.step c e).cuts := right_of_run c events hright
      have hfits : ∀ size, e = .alloc size → w.heap.Fits (roundUp size) := by
        rintro size rfl
        exact fits_of_inside c hgood.lawful hlegal.1 rfl (hnext.inside _ List.mem_cons_self)
      exact ⟨hfits, ih (hgood.step c hlegal.1 hfits) hlegal.2 hright⟩

/-- **The arena.** Whatever is requested, and whatever the program does in between with what it has: the regions are apart from each other,
aligned, zero when they are returned and inside their chunks, exactly if no request overflows. -/
theorem regions_right_iff (c : Calloc) (mem : Mem) (others : List Region) (events : List Event)
    (hlegal : (History.start mem others).Legal c events) :
    Right ((History.start mem others).run c events).cuts ↔ (History.start mem others).Fits c events := by
  have hgood := History.good_start mem others
  exact ⟨hgood.fits c hlegal, fun hfits => (hgood.run c hlegal hfits).right⟩

/-- A short request, a write to what it returned, a request that fills the chunk, and one that is longer than a chunk. -/
def threeRequests : List Event := [.alloc 5, .write 40 [1, 2, 3, 4, 5], .alloc 1048568, .alloc 2000000]

theorem threeRequests_right : Right ((History.start (fun _ => 0) []).run above threeRequests).cuts := by
  refine (regions_right_iff above _ [] threeRequests ?_).mpr ?_
  · exact ⟨by decide, by decide +kernel, by decide, by decide, trivial⟩
  · refine ⟨?_, fun _ h => (by cases h), ?_, ?_, trivial⟩
    · rintro _ ⟨⟩
      exact ⟨by decide +kernel, by decide⟩
    · rintro _ ⟨⟩
      exact ⟨by decide +kernel, by decide⟩
    · rintro _ ⟨⟩
      exact ⟨by decide +kernel, by decide⟩

/-- With 8 bytes in use, another -8 take the mark back to where it was, and the third request returns the first region again. -/
theorem wrapped_request_not_right :
    ¬ ∀ (c : Calloc) (mem : Mem) (others : List Region) (events : List Event),
      (History.start mem others).Legal c events → Right ((History.start mem others).run c events).cuts := by
  intro h
  have hright := h above (fun _ => 0) [] [.alloc 8, .alloc (-8), .alloc 8] ⟨by decide, by decide, by decide, trivial⟩
  exact absurd hright.apart (by decide +kernel)

end Rcc.Arena

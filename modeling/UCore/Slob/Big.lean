import UCore.Library.Cycle
import UCore.Slob.Safety

/-! # Requests of every size

`kmalloc` and `kfree` of lab 5 with the big blocks. A request that is not small takes its pages
from the page allocator and a record of them from the heap; the records form the list `bigblocks`.
The order in a record lies where a header has its units, the address of the pages where it has its
link, and the link of the record in the unit after these.
-/

namespace UCore.Slob

open Library

/-- `sizeof(bigblock_t)`. -/
def sizeofBigblock : ℕ := 24

def findOrder (size : ℤ) : ℕ := if 4096 < size then findOrder (size / 2) + 1 else 0
termination_by size.toNat

/-- The bytes of `1 << order` pages. -/
def orderBytes (order : ℕ) : ℕ := pageSize * 2 ^ order

/-- The heap, `bb->next` of the records, and their list. The page allocator remembers in `granted`
the pages that it has given for big blocks, with their orders. -/
structure Memory where
  heap : Heap
  link : ℕ → ℕ
  bigblocks : ℕ
  granted : List (ℕ × ℕ)

namespace Memory

variable (fuel : ℕ) (m : Memory)

/-- `bb->next = c`. -/
def setLink (bb c : ℕ) : Memory :=
  { m with heap := m.heap.setUnits (offset bb 1) c, link := Function.update m.link bb c }

/-- `*last = c`, where `last` is `&bigblocks` or `&bb->next`. -/
def setLast (last : Option ℕ) (c : ℕ) : Memory :=
  match last with
  | none => { m with bigblocks := c }
  | some bb => m.setLink bb c

/-- The part of `__kmalloc` for big blocks. The heap's request for a page is answered by `page`,
the one for the block by `pages`. -/
def bigAlloc (size : ℕ) (page pages : Option ℕ) :
    Option (Option ℕ × Memory × List (Option ℕ)) :=
  (slobAlloc fuel m.heap [page] sizeofBigblock).bind fun r =>
    match r with
    | (none, h, left) => some (none, { m with heap := h }, left)
    | (some bb, h, left) =>
      let h := h.setUnits bb (findOrder (int32 size))
      let h := h.setNext bb (pages.getD 0)
      match pages with
      | some pages =>
        let m := { m with heap := h, granted := (pages, (h.units bb).toNat) :: m.granted }
        let m := m.setLink bb m.bigblocks
        some (some pages, { m with bigblocks := bb }, left)
      | none =>
        (slobFree fuel h bb sizeofBigblock).map fun h => (none, { m with heap := h }, left)

/-- `__kmalloc`. -/
def kmalloc (size : ℕ) (page pages : Option ℕ) : Option (Option ℕ × Memory × List (Option ℕ)) :=
  if size < pageSize - slobUnit then
    (slobAlloc fuel m.heap [page] (size + slobUnit)).map fun r =>
      (r.1.map fun b => offset b 1, { m with heap := r.2.1 }, r.2.2)
  else m.bigAlloc fuel size page pages

/-- The loop of `kfree`: the record of a block with the place of the pointer to it. -/
def findRecord (block : ℕ) : ℕ → Option ℕ → ℕ → Option (Option (Option ℕ × ℕ))
  | 0, _, _ => none
  | fuel + 1, last, bb =>
    if bb = 0 then some none
    else if m.heap.next bb = block then some (some (last, bb))
    else findRecord block fuel (some bb) (m.link bb)

/-- The end of `kfree` for a block with a record. -/
def release (block : ℕ) (last : Option ℕ) (bb : ℕ) : Option Memory :=
  let m := m.setLast last (m.link bb)
  let m := { m with granted := m.granted.erase (block, (m.heap.units bb).toNat) }
  (slobFree fuel m.heap bb sizeofBigblock).map fun h => { m with heap := h }

def kfree (block : ℕ) : Option Memory :=
  if block = 0 then some m
  else
    let small := (slobFree fuel m.heap (offset block (-1)) 0).map fun h => { m with heap := h }
    if block % pageSize = 0 then
      (m.findRecord block fuel none m.bigblocks).bind fun r =>
        match r with
        | some (last, bb) => m.release fuel block last bb
        | none => small
    else small

variable {fuel m}

/-- A request of less than a page goes to the heap. -/
theorem kmalloc_small {size : ℕ} {page pages : Option ℕ} (h : size < pageSize - slobUnit) :
    m.kmalloc fuel size page pages = (Slob.kmalloc fuel m.heap [page] size).map fun r =>
      (r.1, { m with heap := r.2.1 }, r.2.2) := by
  rw [kmalloc, Slob.kmalloc, if_pos h, if_pos h, Option.map_map]
  rfl

/-- A block without a record is given back to the heap. -/
theorem kfree_small {block : ℕ}
    (h : block % pageSize = 0 → m.findRecord block fuel none m.bigblocks = some none) :
    m.kfree fuel block = (Slob.kfree fuel m.heap block).map fun h => { m with heap := h } := by
  unfold kfree Slob.kfree
  split
  · rfl
  · dsimp only
    split
    · rw [h ‹_›]
      rfl
    · rfl

end Memory

/-! ## Runs -/

/-- A request comes with the answers to its requests for a page and for its pages, a store with the
memory it leaves. -/
inductive Request
  | alloc (size : ℕ) (page pages : Option ℕ)
  | free (block : ℕ)
  | store (units : ℕ → ℤ) (next link : ℕ → ℕ)

/-- The memory, the results of small and of big requests that are not freed with their sizes, and
the pages of the heap. -/
structure Book where
  mem : Memory
  live : List (ℕ × ℕ)
  big : List (ℕ × ℕ)
  pages : List ℕ

namespace Book

variable (arena : ℕ) (s : Book)

/-- Pages that were not given before: above the kernel with the arena, apart from the pages of the
heap and from those of the big blocks. -/
def Fresh (p n : ℕ) : Prop :=
  pageSize ∣ p ∧ arena + slobUnit < p ∧ p + n ≤ 2 ^ 64 ∧
    (∀ q ∈ s.pages, Disjoint (span p n) (span q pageSize)) ∧
    ∀ g ∈ s.mem.granted, Disjoint (span p n) (span g.1 (orderBytes g.2))

/-- The bytes of live results: after the header up to the end of its block, and all pages of a big
block. -/
def Owned (x n : ℕ) : Prop :=
  (∃ y ∈ s.live, y.1 < x + n ∧ x < header y.1 + bytes s.mem.heap (header y.1)) ∨
    ∃ g ∈ s.mem.granted, g.1 < x + n ∧ x < g.1 + orderBytes g.2

/-- The page allocator answers with fresh pages or `NULL`, a free is of a live result, and stores
change what overlaps the bytes of live results. -/
def Admits : Request → Prop
  | .alloc size page pages => (∀ p ∈ page, s.Fresh arena p pageSize) ∧
      (∀ p ∈ pages, s.Fresh arena p (orderBytes (findOrder (int32 size)))) ∧
      ∀ p ∈ page, ∀ q ∈ pages,
        Disjoint (span p pageSize) (span q (orderBytes (findOrder (int32 size))))
  | .free block => (∃ size, (block, size) ∈ s.live) ∨ ∃ size, (block, size) ∈ s.big
  | .store units next link => (∀ a, units a ≠ s.mem.heap.units a ∨ next a ≠ s.mem.heap.next a →
      s.Owned a slobUnit) ∧ ∀ a, link a ≠ s.mem.link a → s.Owned (a + slobUnit) 8

/-- The pages that the heap has after a request that has left these of its answers. -/
def pagesAfter (page : Option ℕ) (left : List (Option ℕ)) : List ℕ :=
  if left = [] then page.elim s.pages fun p => p :: s.pages else s.pages

def call (fuel : ℕ) : Request → Option Book
  | .alloc size page pages => (s.mem.kmalloc fuel size page pages).map fun r =>
      if size < pageSize - slobUnit then
        ⟨r.2.1, r.1.elim s.live fun b => (b, size) :: s.live, s.big, s.pagesAfter page r.2.2⟩
      else ⟨r.2.1, s.live, r.1.elim s.big fun b => (b, size) :: s.big, s.pagesAfter page r.2.2⟩
  | .free block => (s.mem.kfree fuel block).map fun m =>
      ⟨m, s.live.filter fun x => x.1 ≠ block, s.big.filter fun x => x.1 ≠ block, s.pages⟩
  | .store units next link =>
      some { s with mem := { s.mem with
        heap := { s.mem.heap with units := units, next := next }, link := link } }

/-- The memory before the first request. -/
def start (h : Heap) (link : ℕ → ℕ) : Book :=
  ⟨⟨(Config.start arena h).heap, link, 0, []⟩, [], [], []⟩

end Book

/-! ## Orders -/

/-- The sizes of big blocks whose pages have room for them: an `int` holds them, and halving them
down to a page drops less than the page counts for. -/
def OrderFits (size : ℕ) : Prop :=
  size < 2 ^ 31 ∧ ∀ k, 1 ≤ k → ¬ (4096 * 2 ^ k < size ∧ size < 4097 * 2 ^ k)

theorem findOrder_spec (size : ℤ) : size < 4097 * 2 ^ findOrder size ∧
    (findOrder size = 0 ∨ ∃ k, findOrder size = k + 1 ∧ 4097 * 2 ^ k ≤ size) := by
  induction size using findOrder.induct with
  | case1 size hs ih =>
    obtain ⟨hlt, hle⟩ := ih
    rw [findOrder, if_pos hs, pow_succ]
    refine ⟨by omega, .inr ⟨_, rfl, ?_⟩⟩
    rcases hle with h₀ | ⟨k, hk, hle⟩
    · rw [h₀]
      omega
    · rw [hk, pow_succ]
      omega
  | case2 size hs =>
    rw [findOrder, if_neg hs]
    exact ⟨by omega, .inl rfl⟩

theorem int32_lt (n : ℤ) : int32 n < 2 ^ 31 := by
  unfold int32
  have := @Int.bmod_lt n (2 ^ 32) (by decide)
  omega

theorem findOrder_le (n : ℤ) : findOrder (int32 n) ≤ 19 := by
  obtain ⟨-, h₀ | ⟨j, hj, hle⟩⟩ := findOrder_spec (int32 n)
  · omega
  · have hlt := int32_lt n
    rw [hj]
    by_contra hge
    have hpow := Nat.pow_le_pow_right (show 0 < 2 by omega) (show 19 ≤ j by omega)
    have hcast : ((2 ^ j : ℕ) : ℤ) = 2 ^ j := by push_cast; rfl
    omega

/-- `find_order` has room for exactly these sizes. -/
theorem le_orderBytes_iff {size : ℕ} :
    size ≤ orderBytes (findOrder (int32 size)) ↔ OrderFits size := by
  obtain ⟨hlt, hle⟩ := findOrder_spec (int32 size)
  set k := findOrder (int32 size)
  unfold orderBytes pageSize
  have hcast : ((2 ^ k : ℕ) : ℤ) = 2 ^ k := by push_cast; rfl
  constructor
  · intro hs'
    rcases le_or_gt size 4096 with hs | hs
    · refine ⟨by omega, fun i hi h => ?_⟩
      have := Nat.pow_le_pow_right (show 0 < 2 by omega) hi
      omega
    have hk : k ≠ 0 := by
      intro hk
      rw [hk] at hs'
      omega
    obtain ⟨j, hj, hle⟩ := hle.resolve_left hk
    have hj' : 4097 * 2 ^ j ≤ (int32 size).toNat := by
      have : ((2 ^ j : ℕ) : ℤ) = 2 ^ j := by push_cast; rfl
      omega
    rw [hj, pow_succ] at hs'
    have hint := int32_lt size
    have hj₁ : j < 19 := by
      by_contra hge
      have := Nat.pow_le_pow_right (show 0 < 2 by omega) (show 19 ≤ j by omega)
      omega
    have hpow := Nat.pow_le_pow_right (show 0 < 2 by omega) (show j ≤ 18 by omega)
    have hsize : size < 2 ^ 31 := by
      by_contra hge
      obtain rfl : size = 2 ^ 31 := by omega
      have hneg : int32 ((2 ^ 31 : ℕ) : ℤ) < 0 := by decide
      omega
    rw [int32_eq (by omega) (by omega), Int.toNat_natCast] at hj'
    refine ⟨hsize, ?_⟩
    rintro i - ⟨h₁, h₂⟩
    have hij : i < j + 1 := by
      by_contra hge
      have := Nat.pow_le_pow_right (show 0 < 2 by omega) (show j + 1 ≤ i by omega)
      rw [pow_succ] at this
      omega
    have := Nat.pow_le_pow_right (show 0 < 2 by omega) (show i ≤ j by omega)
    omega
  · rintro ⟨hsize, hfit⟩
    rw [int32_eq (by omega) (by omega)] at hlt
    rcases Nat.eq_zero_or_pos k with hk | hk
    · rw [hk] at hlt ⊢
      omega
    · have := hfit k hk
      omega

end UCore.Slob

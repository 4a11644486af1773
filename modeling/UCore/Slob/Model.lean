import Mathlib.Algebra.Order.Ring.Int
import Mathlib.Data.Finset.Max
import Mathlib.Logic.Function.Basic
import Mathlib.Tactic.Simps.Basic
import UCore.Defs
import UCore.Library.Blocks
import UCore.Library.Cycle

/-! # The SLOB heap

`kern/mm/kmalloc.c` of lab 5 for requests of less than a page. A block is known
by the address of its header; `align` is `0` in all calls. The loops take fuel,
and the result is `none` when it runs out, when an assertion fails, and when
more pages are asked for than the answers in `supply`.
-/

namespace UCore.Slob

def pageSize : ℕ := 4096

def slobUnit : ℕ := 16

/-- `SLOB_UNITS`, stored into an `int`. -/
def slobUnits (size : ℕ) : ℤ := int32 ((size + slobUnit - 1) / slobUnit : ℕ)

/-- The fields of the headers and `slobfree`. -/
structure Heap where
  units : ℕ → ℤ
  next : ℕ → ℕ
  slobfree : ℕ

namespace Heap

@[simps]
def setUnits (h : Heap) (b : ℕ) (n : ℤ) : Heap :=
  { h with units := Function.update h.units b (int32 n) }

@[simps]
def setNext (h : Heap) (b c : ℕ) : Heap := { h with next := Function.update h.next b c }

end Heap

/-- `b + n` for a pointer to a header. -/
def offset (b : ℕ) (n : ℤ) : ℕ := (((b : ℤ) + slobUnit * n) % 2 ^ 64).toNat

/-! ## Freeing -/

/-- The search of `slob_free` for the block after which `b` is put. -/
def findPlace (h : Heap) (b : ℕ) : ℕ → ℕ → Option ℕ
  | 0, _ => none
  | fuel + 1, cur =>
    if cur < b ∧ b < h.next cur then some cur
    else if h.next cur ≤ cur ∧ (cur < b ∨ b < h.next cur) then some cur
    else findPlace h b fuel (h.next cur)

/-- `b` is joined with the block after `cur`, or points to it. -/
def joinNext (h : Heap) (b cur : ℕ) : Heap :=
  if offset b (h.units b) = h.next cur then
    (h.setUnits b (h.units b + h.units (h.next cur))).setNext b (h.next (h.next cur))
  else h.setNext b (h.next cur)

/-- `b` is joined with `cur`, or `cur` points to it. -/
def joinPrev (h : Heap) (b cur : ℕ) : Heap :=
  if offset cur (h.units cur) = b then
    (h.setUnits cur (h.units cur + h.units b)).setNext cur (h.next b)
  else h.setNext cur b

/-- The end of `slob_free`. -/
def reinsert (h : Heap) (b cur : ℕ) : Heap :=
  { joinPrev (joinNext h b cur) b cur with slobfree := cur }

def slobFree (fuel : ℕ) (h : Heap) (b size : ℕ) : Option Heap :=
  if b = 0 then some h
  else
    let h := if size ≠ 0 then h.setUnits b (slobUnits size) else h
    (findPlace h b fuel h.slobfree).map (reinsert h b)

/-! ## Allocating -/

/-- Block `cur` has room enough: it is unlinked, or its first units are. -/
def takeBlock (h : Heap) (prev cur : ℕ) (units : ℤ) : Heap :=
  let h :=
    if h.units cur = units then h.setNext prev (h.next cur)
    else
      let h := h.setNext prev (offset cur units)
      let h := h.setUnits (h.next prev) (h.units cur - units)
      let h := h.setNext (h.next prev) (h.next cur)
      h.setUnits cur units
  { h with slobfree := prev }

/-- The loop of `slob_alloc`. The answers of `__slob_get_free_page` are taken from `supply`. -/
def allocLoop (size : ℕ) (units : ℤ) :
    ℕ → Heap → List (Option ℕ) → ℕ → ℕ → Option (Option ℕ × Heap × List (Option ℕ))
  | 0, _, _, _, _ => none
  | fuel + 1, h, supply, prev, cur =>
    if units ≤ h.units cur then some (some cur, takeBlock h prev cur units, supply)
    else if cur = h.slobfree then
      if size = pageSize then some (none, h, supply)
      else
        supply.head?.bind fun page =>
          page.elim (some (none, h, supply.tail)) fun page =>
            (slobFree fuel h page pageSize).bind fun h =>
              allocLoop size units fuel h supply.tail h.slobfree (h.next h.slobfree)
    else allocLoop size units fuel h supply cur (h.next cur)

def slobAlloc (fuel : ℕ) (h : Heap) (supply : List (Option ℕ)) (size : ℕ) :
    Option (Option ℕ × Heap × List (Option ℕ)) :=
  if size + slobUnit < pageSize then
    allocLoop size (slobUnits size) fuel h supply h.slobfree (h.next h.slobfree)
  else none

/-- `kmalloc` for requests of less than a page. -/
def kmalloc (fuel : ℕ) (h : Heap) (supply : List (Option ℕ)) (size : ℕ) :
    Option (Option ℕ × Heap × List (Option ℕ)) :=
  if size < pageSize - slobUnit then
    (slobAlloc fuel h supply (size + slobUnit)).map fun r => (r.1.map fun m => offset m 1, r.2)
  else none

/-- `kfree` of a block that is not on the list of big blocks. -/
def kfree (fuel : ℕ) (h : Heap) (block : ℕ) : Option Heap :=
  if block = 0 then some h else slobFree fuel h (offset block (-1)) 0

/-! ## Runs -/

/-- A request comes with the answer to its request for a page, a store with the memory it leaves. -/
inductive Op
  | alloc (size : ℕ) (page : Option ℕ)
  | free (block : ℕ)
  | store (units : ℕ → ℤ) (next : ℕ → ℕ)

/-- The heap, the results of requests that are not freed with their sizes, and the pages taken. -/
structure Config where
  heap : Heap
  live : List (ℕ × ℕ)
  pages : List ℕ

/-- The number of bytes of a block with its header. -/
def bytes (h : Heap) (b : ℕ) : ℕ := slobUnit * (h.units b).toNat

/-- The block of a result of `kmalloc`. -/
def header (block : ℕ) : ℕ := block - slobUnit

/-- Requests are for less than a page, pages are fresh and lie above the kernel with the arena, a
free is of a live result, and stores change what overlaps the bytes of live results. -/
def Config.Allowed (arena : ℕ) (c : Config) : Op → Prop
  | .alloc size page => 1 ≤ size ∧ size < 4064 ∧ ∀ p ∈ page, pageSize ∣ p ∧
      arena + slobUnit < p ∧ p + pageSize ≤ 2 ^ 64 ∧ p ∉ c.pages
  | .free block => ∃ size, (block, size) ∈ c.live
  | .store units next => ∀ a, units a ≠ c.heap.units a ∨ next a ≠ c.heap.next a →
      ∃ x ∈ c.live, x.1 < a + slobUnit ∧ a < header x.1 + bytes c.heap (header x.1)

def Config.call (fuel : ℕ) (c : Config) : Op → Option Config
  | .alloc size page => (kmalloc fuel c.heap [page] size).map fun r =>
      ⟨r.2.1, r.1.elim c.live fun block => (block, size) :: c.live,
        if r.2.2 = [] then page.elim c.pages fun p => p :: c.pages else c.pages⟩
  | .free block => (kfree fuel c.heap block).map fun h =>
      ⟨h, c.live.filter fun x => x.1 ≠ block, c.pages⟩
  | .store units next => some ⟨{ c.heap with units := units, next := next }, c.live, c.pages⟩

/-- The heap before the first request: the arena is one block of one unit. -/
def Config.start (arena : ℕ) (h : Heap) : Config :=
  ⟨{ (h.setUnits arena 1).setNext arena arena with slobfree := arena }, [], []⟩

/-! ## The free list of the SLOB heap

The free blocks form a circle in the order of their addresses, which starts at
the arena. A freed block has one place in it, which the search finds from
anywhere; with its merges it leaves no two free blocks side by side.
-/

open Library Library.Cycle

variable {arena a b c n p x cur prev : ℕ} {u v : ℤ} {h h' : Heap} {bs xs ys zs free used : List ℕ}
  {taken : ℕ → Prop}

/-! ## Machine integers -/

theorem int32_eq (h₀ : 0 ≤ u) (h₁ : u < 2 ^ 31) : int32 u = u := by
  apply Int.bmod_eq_of_le_mul_two
  · omega
  · omega

theorem slobUnits_eq (hn : n < 2 ^ 32) : slobUnits n = ((n + 15) / 16 : ℕ) := by
  unfold slobUnits slobUnit
  rw [int32_eq] <;> omega

theorem units_eq (hb : 0 < bytes h b) : 16 * h.units b = bytes h b := by
  unfold bytes slobUnit at *
  omega

theorem offset_units_eq_iff (hb : 0 < bytes h b) (hle : b + bytes h b ≤ 2 ^ 64) (hc : 0 < c)
    (hc' : c < 2 ^ 64) : offset b (h.units b) = c ↔ b + bytes h b = c := by
  have hu := units_eq hb
  unfold offset slobUnit
  omega

theorem offset_eq (hu : 16 * u = n) (hle : b + n < 2 ^ 64) : offset b u = b + n := by
  unfold offset slobUnit
  omega

/-! ## The invariant -/

/-- The free list and the headers in `used` describe disjoint blocks that make up `taken`. -/
structure Inv (arena : ℕ) (taken : ℕ → Prop) (h : Heap) (free used : List ℕ) : Prop where
  arena_le : kernbase ≤ arena
  head : free.head? = some arena
  unit : h.units arena = 1
  circle : Circle h.next free
  slobfree : h.slobfree ∈ free
  blocks : Blocks arena (2 ^ 64) (bytes h) free
  gapped : Gapped (bytes h) free
  held : ∀ b ∈ used, arena + slobUnit < b ∧ 0 < bytes h b ∧ b + bytes h b ≤ 2 ^ 64
  disjoint : used.Pairwise fun a b => Disjoint (span a (bytes h a)) (span b (bytes h b))
  apart : ∀ b ∈ used, Disjoint (span b (bytes h b)) (cells (bytes h) free)
  cover : ∀ x, taken x ↔ x ∈ cells (bytes h) free ∨ ∃ b ∈ used, x ∈ span b (bytes h b)

namespace Inv

variable (i : Inv arena taken h free used)

include i

theorem arena_mem : arena ∈ free := List.mem_of_mem_head? i.head

theorem bytes_arena : bytes h arena = 16 := by
  unfold bytes slobUnit
  rw [i.unit]
  rfl

theorem le_of_mem (ha : a ∈ free) : arena ≤ a := i.blocks.low a ha

theorem bounds (ha : a ∈ free) :
    0 < a ∧ a < 2 ^ 64 ∧ 0 < bytes h a ∧ a + bytes h a ≤ 2 ^ 64 ∧ bytes h a < 2 ^ 30 := by
  have h₁ := i.le_of_mem ha
  have h₂ := i.blocks.pos a ha
  have h₃ := i.blocks.high a ha
  have h₄ := i.arena_le
  unfold kernbase at h₄
  omega

/-- The list leads from every block to the next one above it, and from the last to the arena. -/
theorem next_spec (ha : a ∈ free) :
    (a < h.next a ∧ h.next a ∈ free ∧ ∀ x ∈ free, a < x → h.next a ≤ x) ∨
      (h.next a = arena ∧ ∀ x ∈ free, x ≤ a) := by
  obtain ⟨xs, ys, rfl, hp⟩ := i.circle.split ha
  have hsort := List.pairwise_append.mp i.blocks.sorted
  have hys := List.pairwise_cons.mp hsort.2.1
  cases ys with
  | nil =>
    right
    constructor
    · cases xs with
      | nil =>
        have h₁ : h.next a = a := hp
        have h₂ : some a = some arena := i.head
        rw [h₁]
        exact Option.some.inj h₂
      | cons y xs =>
        have h₁ : h.next a = y := hp.1
        have h₂ : some y = some arena := i.head
        rw [h₁]
        exact Option.some.inj h₂
    · intro x hx
      rcases List.mem_append.mp hx with hx | hx
      · exact (hsort.2.2 x hx a (by simp)).le
      · exact (List.mem_singleton.mp hx).le
  | cons y ys =>
    have hn : h.next a = y := hp.1
    left
    rw [hn]
    refine ⟨hys.1 y (by simp), by simp, ?_⟩
    intro x hx hax
    rcases List.mem_append.mp hx with hx | hx
    · exact absurd (hsort.2.2 x hx a (by simp)) (by omega)
    · rcases List.mem_cons.mp hx with rfl | hx
      · omega
      · rcases List.mem_cons.mp hx with rfl | hx
        · exact le_rfl
        · exact ((List.pairwise_cons.mp hys.2).1 x hx).le

end Inv

/-! ## The search -/

/-- The search of `slob_free` ends at this block. -/
def Stops (h : Heap) (b cur : ℕ) : Prop :=
  cur < b ∧ b < h.next cur ∨ h.next cur ≤ cur ∧ (cur < b ∨ b < h.next cur)

theorem findPlace_of_stops {fuel : ℕ} (hs : Stops h b cur) :
    findPlace h b (fuel + 1) cur = some cur := by
  rw [findPlace]
  split_ifs with h₁ h₂
  · rfl
  · rfl
  · exact absurd hs (not_or.mpr ⟨h₁, h₂⟩)

theorem findPlace_of_not_stops {fuel : ℕ} (hs : ¬ Stops h b cur) :
    findPlace h b (fuel + 1) cur = findPlace h b fuel (h.next cur) := by
  obtain ⟨h₁, h₂⟩ := not_or.mp hs
  rw [findPlace, if_neg h₁, if_neg h₂]

theorem findPlace_reach (hc : ∀ a ∈ free, Stops h b a ↔ a = c)
    (hcirc : Circle h.next free) (hcm : c ∈ free) (ha : a ∈ free) :
    ∃ n, ∀ fuel, findPlace h b (n + fuel) a = some c := by
  obtain ⟨k, hk⟩ := hcirc.reach ha hcm
  induction k generalizing a with
  | zero =>
    obtain rfl : a = c := hk
    exact ⟨1, fun fuel => by rw [Nat.add_comm, findPlace_of_stops ((hc a ha).mpr rfl)]⟩
  | succ k ih =>
    by_cases hs : Stops h b a
    · obtain rfl := (hc a ha).mp hs
      exact ⟨1, fun fuel => by rw [Nat.add_comm, findPlace_of_stops hs]⟩
    · obtain ⟨n, hn⟩ := ih (hcirc.next_mem ha) hk
      refine ⟨n + 1, fun fuel => ?_⟩
      rw [Nat.add_right_comm, findPlace_of_not_stops hs, hn]

/-- A block that is not free has its place after the last free block below it. -/
theorem Inv.place (i : Inv arena taken h free used) (hb : arena < b) (hbf : b ∉ free) :
    ∃ c ∈ free, c < b ∧ (∀ x ∈ free, x < b → x ≤ c) ∧ ∀ a ∈ free, Stops h b a ↔ a = c := by
  obtain ⟨c, hc, hmax⟩ := (free.filter (· < b)).toFinset.exists_max_image id
    ⟨arena, by simpa using ⟨i.arena_mem, hb⟩⟩
  simp only [List.mem_toFinset, List.mem_filter, decide_eq_true_eq, id] at hc hmax
  obtain ⟨hcm, hcb⟩ := hc
  have hmax' : ∀ x ∈ free, x < b → x ≤ c := fun x hx hxb => hmax x ⟨hx, hxb⟩
  refine ⟨c, hcm, hcb, hmax', ?_⟩
  intro a ha
  unfold Stops
  constructor
  · intro hs
    rcases i.next_spec ha with ⟨h₁, h₂, h₃⟩ | ⟨h₁, h₂⟩
    · have hab : a < b ∧ b < h.next a := hs.resolve_right fun hs' => by omega
      have h₄ := hmax' a ha hab.1
      by_contra hne
      have h₅ := h₃ c hcm (by omega)
      omega
    · have hab : a < b := by
        rw [h₁] at hs
        have := i.le_of_mem ha
        omega
      exact le_antisymm (hmax' a ha hab) (h₂ c hcm)
  · rintro rfl
    rcases i.next_spec ha with ⟨h₁, h₂, h₃⟩ | ⟨h₁, h₂⟩
    · left
      refine ⟨hcb, ?_⟩
      by_contra hle
      have hne : h.next a ≠ b := fun he => hbf (he ▸ h₂)
      have := hmax' _ h₂ (by omega)
      omega
    · right
      rw [h₁]
      exact ⟨i.le_of_mem ha, .inl hcb⟩

end UCore.Slob

import Mathlib.Data.Finset.Insert
import UCore.Slub.Safety

/-! # The SLUB allocator of lab2

The functions for the lists are those of lab8. This version gives a slab page back to the page
allocator when its last object is freed, unless it is the current page, and counts the slab pages.
-/

namespace UCore.Slub.Lab2

open Library

/-- `unsigned short` counters. -/
def inc16 (n : ℕ) : ℕ := (n + 1) % 2 ^ 16

def dec16 (n : ℕ) : ℕ := (n + (2 ^ 16 - 1)) % 2 ^ 16

/-- The memory, `active_slabs` of each cache, and the page that the last call gave to
`free_page`. -/
structure Heap where
  mem : State
  activeSlabs : ℕ → ℕ
  returned : Option ℕ

namespace Heap

variable (s : Heap)

abbrev setMem (mem : State) : Heap := { s with mem }

/-- `kmem_cache_create` with the descriptor in memory of its own. -/
def kmemCacheCreate (c size : ℕ) : Heap :=
  if size = 0 ∨ pgsize < size then s
  else
    { s with
      mem := { s.mem with
        caches := Function.update s.mem.caches c ⟨size, pgsize / size, 0, none, 0, 0⟩
        links := listInit s.mem.links (.head c) }
      activeSlabs := Function.update s.activeSlabs c 0 }

def allocateSlab (c : ℕ) (fresh : Option ℕ) : Option ℕ × Heap :=
  match s.mem.allocateSlab c fresh with
  | (none, mem) => (none, s.setMem mem)
  | (some page, mem) =>
    (some page, { s with
      mem, activeSlabs := Function.update s.activeSlabs c (s.activeSlabs c + 1) })

/-- `free_slab`; `none` when its assertion fails. -/
def freeSlab (c page : ℕ) : Option Heap :=
  if (s.mem.pages page).inuse ≠ 0 then none
  else
    some { s with
      mem := s.mem.setPage page fun _ => ⟨0, 0, 0, none, 0, 0, 0, 0⟩
      activeSlabs := Function.update s.activeSlabs c (s.activeSlabs c - 1)
      returned := some page }

/-- The part of `acquire_slab` after the test of the current page. -/
def nextSlab (c : ℕ) (fresh : Option ℕ) : Option ℕ × Heap :=
  match s.mem.links.next (.head c) with
  | .page p => (some p,
      s.setMem ((s.mem.removePartial c p).setCache c fun x => { x with page := some p }))
  | _ =>
    match s.allocateSlab c fresh with
    | (some page, s) =>
      (some page, s.setMem (s.mem.setCache c fun x => { x with page := some page }))
    | (none, s) => (none, s)

def acquireSlab (c : ℕ) (fresh : Option ℕ) : Option ℕ × Heap :=
  match (s.mem.caches c).page with
  | some page =>
    if (s.mem.pages page).freelist ≠ 0 then (some page, s)
    else if (s.mem.caches c).freelist = 0 ∧
        (s.mem.pages page).inuse = (s.mem.pages page).objects then
      (s.setMem (s.mem.setCache c fun x => { x with page := none })).nextSlab c fresh
    else s.nextSlab c fresh
  | none => s.nextSlab c fresh

def refillCpuFreelist (c : ℕ) (fresh : Option ℕ) : Bool × Heap :=
  match s.acquireSlab c fresh with
  | (none, s) => (false, s)
  | (some page, s) =>
    let mem := State.refillLoop c page slubCpuBatch s.mem
    ((mem.caches c).freelist ≠ 0, s.setMem mem)

/-- The part of `kmem_cache_alloc` after the refill. -/
def takeObject (c : ℕ) : ℕ × Heap :=
  match s.mem.cpuPop c with
  | (object, mem) =>
    let page := virtToPage object
    let mem := mem.setPage page fun x => { x with inuse := inc16 x.inuse }
    if (mem.pages page).inuse = (mem.pages page).objects then
      let mem := if mem.pageOnPartial page then mem.removePartial c page else mem
      if (mem.caches c).page = some page ∧ (mem.caches c).freelist = 0 ∧
          (mem.pages page).freelist = 0 then
        (object, s.setMem (mem.setCache c fun x => { x with page := none }))
      else (object, s.setMem mem)
    else (object, s.setMem mem)

/-- `kmem_cache_alloc`; the object is `0` for a null pointer. -/
def kmemCacheAlloc (c : ℕ) (fresh : Option ℕ) : ℕ × Heap :=
  if (s.mem.caches c).freelist = 0 then
    match s.refillCpuFreelist c fresh with
    | (false, s) => (0, s)
    | (true, s) => s.takeObject c
  else s.takeObject c

/-- `kmem_cache_free`; `none` when an assertion fails. -/
def kmemCacheFree (c object : ℕ) : Option Heap :=
  if object = 0 then some s
  else
    let page := virtToPage object
    if (s.mem.pages page).flags &&& pgSlab = 0 ∨ (s.mem.pages page).slabCache ≠ some c then none
    else
      let mem := s.mem.setPage page fun x => { x with inuse := dec16 x.inuse }
      if (mem.caches c).page = some page then
        let mem := (mem.cpuPush c object).flushCpuFreelist c
        if (mem.pages page).inuse = 0 ∧ (mem.caches c).freelistCount = 0 then
          some (s.setMem (mem.setCache c fun x => { x with page := none }))
        else some (s.setMem mem)
      else
        let mem := (mem.store object (mem.pages page).freelist).setPage page fun x =>
          { x with freelist := object }
        if (mem.pages page).inuse = 0 then (s.setMem (mem.removePartial c page)).freeSlab c page
        else if (mem.pages page).inuse < (mem.pages page).objects then
          some (s.setMem (mem.addPartial c page))
        else some (s.setMem mem)

end Heap

/-! ## Runs -/

/-- The heap, the caches that were created, and the live objects of each. -/
structure Sys where
  heap : Heap
  created : Finset ℕ
  live : ℕ → List ℕ

/-- The calls, with the page that the page allocator has for `kmem_cache_alloc`; stores of the users
into live objects; and changes of pages that are in no slab, by the page allocator and others. -/
inductive Event
  | create (c size : ℕ)
  | alloc (c : ℕ) (fresh : Option ℕ)
  | free (c object : ℕ)
  | write (c object : ℕ) (word : ℕ → ℕ)
  | other (pages : List ℕ) (mem : State)

/-- Only the pages `X` with their entries and their memory differ. -/
structure Apart (X : List ℕ) (s t : State) : Prop where
  caches : t.caches = s.caches
  pages : ∀ p, p ∉ X → t.pages p = s.pages p
  links : ∀ e, (∀ p ∈ X, e ≠ .page p) →
    t.links.next e = s.links.next e ∧ t.links.prev e = s.links.prev e
  word : ∀ a, virtToPage a ∉ X → t.word a = s.word a

namespace Sys

variable (x : Sys)

/-- Pages come from outside the slabs, callers use and free live objects, and words that lie
outside an object do not change with it. -/
def admits : Event → Prop
  | .create c size => c ∉ x.created ∧ 8 ≤ size ∧ size ≤ pgsize
  | .alloc c fresh => c ∈ x.created ∧ ∀ p ∈ fresh, (x.heap.mem.pages p).flags &&& pgSlab = 0
  | .free c object => c ∈ x.created ∧ object ∈ x.live c
  | .write c object word => c ∈ x.created ∧ object ∈ x.live c ∧
      ∀ a, a + 8 ≤ object ∨ object + (x.heap.mem.caches c).size ≤ a → word a = x.heap.mem.word a
  | .other pages mem => Apart pages x.heap.mem mem ∧ ∀ p ∈ pages,
      (x.heap.mem.pages p).flags &&& pgSlab = 0 ∧ (mem.pages p).flags &&& pgSlab = 0

def setLive (c : ℕ) (l : List ℕ) : Sys := { x with live := Function.update x.live c l }

/-- One event; `none` when an assertion fails. -/
def exec : Event → Option Sys
  | .create c size =>
    some { x with
      heap := Heap.kmemCacheCreate { x.heap with returned := none } c size
      created := insert c x.created
      live := Function.update x.live c [] }
  | .alloc c fresh =>
    match Heap.kmemCacheAlloc { x.heap with returned := none } c fresh with
    | (o, heap) =>
      some (Sys.setLive { x with heap } c (if o = 0 then x.live c else o :: x.live c))
  | .free c object =>
    (Heap.kmemCacheFree { x.heap with returned := none } c object).map fun heap =>
      Sys.setLive { x with heap } c ((x.live c).erase object)
  | .write _ _ word =>
    some { x with heap := { x.heap with mem := { x.heap.mem with word }, returned := none } }
  | .other _ mem => some { x with heap := { x.heap with mem, returned := none } }

end Sys

def Step (x : Sys) (e : Event) (y : Sys) : Prop := x.admits e ∧ x.exec e = some y

/-- No cache, and no page in a slab. -/
def start (mem : State) : Sys := ⟨⟨mem, fun _ => 0, none⟩, ∅, fun _ => []⟩

/-- The slab pages of the cache `c`, with its partial pages and the list of the processor. -/
structure Safe (x : Sys) (c : ℕ) (slabs part cpu : List ℕ) : Prop where
  pages : slabs.Nodup ∧ ∀ p, p ∈ slabs ↔ x.heap.mem.isSlab c p
  onPartial : x.heap.mem.links.Ring (.head c) (part.map .page)
  partial_inuse : ∀ p ∈ part, x.heap.mem.isSlab c p ∧ 0 < (x.heap.mem.pages p).inuse ∧
    (x.heap.mem.pages p).inuse < (x.heap.mem.pages p).objects
  nrPartial : (x.heap.mem.caches c).nrPartial = part.length
  onCpu : Chain x.heap.mem.word (x.heap.mem.caches c).freelist cpu
  cpu_page : ∀ o ∈ cpu, (x.heap.mem.caches c).page = some (virtToPage o)
  active : x.heap.activeSlabs c = slabs.length
  idle : x.live c = [] → slabs.length ≤ 1
  returned : ∀ p ∈ x.heap.returned, ∀ o ∈ x.live c ++ cpu, virtToPage o ≠ p

end UCore.Slub.Lab2

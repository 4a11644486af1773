import Mathlib.Algebra.Order.Ring.Nat
import UCore.Defs
import UCore.List.Entry

/-! # The SLUB allocator

The object allocator of lab8: caches of equal objects in slab pages. Free objects are linked
through their first word, on the list of their page or on the list of the processor.
-/

namespace UCore.Slub

open Library

def nbase : ℕ := 0x80000
def vaPaOffset : ℕ := 0xFFFFFFFF40000000

def slubCpuBatch : ℕ := 8
def slubCpuLimit : ℕ := slubCpuBatch * 4
def pgSlab : ℕ := 0x0100

def sizeTable : List ℕ := [16, 32, 64, 128, 256, 512, 1024, 2048]

/-- A list entry: the head of a `partial` list or the `page_link` of a page. -/
inductive Entry
  | null
  | head (cache : ℕ)
  | page (page : ℕ)
deriving DecidableEq

/-- `struct kmem_cache`; a null pointer in `freelist` is `0`. -/
structure Cache where
  size : ℕ
  objectsPerSlab : ℕ
  freelist : ℕ
  page : Option ℕ
  freelistCount : ℕ
  nrPartial : ℕ

structure Page where
  flags : ℕ
  property : ℕ
  ref : ℕ
  slabCache : Option ℕ
  freelist : ℕ
  sMem : ℕ
  inuse : ℕ
  objects : ℕ

/-- The caches, the page descriptors with their links, and the words of the memory. -/
structure State where
  caches : ℕ → Cache
  pages : ℕ → Page
  links : Links Entry
  word : ℕ → ℕ

/-- `unsigned int` counters. -/
def inc32 (n : ℕ) : ℕ := (n + 1) % 2 ^ 32

def dec32 (n : ℕ) : ℕ := (n + (2 ^ 32 - 1)) % 2 ^ 32

def pageToVirt (page : ℕ) : ℕ := (page + nbase) * pgsize + vaPaOffset

def virtToPage (addr : ℕ) : ℕ := (addr - vaPaOffset) / pgsize - nbase

/-- The index of the cache for a size. -/
def getCacheForSize (size : ℕ) : Option ℕ := sizeTable.findIdx? fun n => decide (size ≤ n)

/-- The loop of `init_slab_freelist` with `n` objects to go after `current`. -/
def linkObjects (size : ℕ) : ℕ → ℕ → (ℕ → ℕ) → ℕ → ℕ
  | 0, current, w => Function.update w current 0
  | n + 1, current, w =>
    linkObjects size n (current + size) (Function.update w current (current + size))

namespace State

variable (s : State)

def setCache (c : ℕ) (f : Cache → Cache) : State :=
  { s with caches := Function.update s.caches c (f (s.caches c)) }

def setPage (page : ℕ) (f : Page → Page) : State :=
  { s with pages := Function.update s.pages page (f (s.pages page)) }

def store (addr v : ℕ) : State := { s with word := Function.update s.word addr v }

def setLinks (l : Links Entry) : State := { s with links := l }

def pageOnPartial (page : ℕ) : Bool := s.links.next (.page page) ≠ .null

def addPartial (c page : ℕ) : State :=
  if s.pageOnPartial page then s
  else
    (s.setLinks (listAdd s.links (.head c) (.page page))).setCache c fun x =>
      { x with nrPartial := x.nrPartial + 1 }

def removePartial (c page : ℕ) : State :=
  if !s.pageOnPartial page then s
  else
    let l := listDel s.links (.page page)
    (s.setLinks ((l.setNext (.page page) .null).setPrev (.page page) .null)).setCache c fun x =>
      { x with nrPartial := x.nrPartial - 1 }

def cpuPush (c object : ℕ) : State :=
  (s.store object (s.caches c).freelist).setCache c fun x =>
    { x with freelist := object, freelistCount := inc32 x.freelistCount }

def cpuPop (c : ℕ) : ℕ × State :=
  let object := (s.caches c).freelist
  (object, s.setCache c fun x =>
    { x with freelist := s.word object, freelistCount := dec32 x.freelistCount })

/-- The body of the loop of `flush_cpu_freelist`. -/
def flushOne (c : ℕ) : State :=
  match s.cpuPop c with
  | (object, s) =>
    let page := virtToPage object
    let s := (s.store object (s.pages page).freelist).setPage page fun x =>
      { x with freelist := object }
    if (s.caches c).page ≠ some page ∧ (s.pages page).inuse < (s.pages page).objects then
      s.addPartial c page
    else s

/-- The loop of `flush_cpu_freelist`, at most as often as the counter says. -/
def flushLoop (c : ℕ) : ℕ → State → State
  | 0, s => s
  | n + 1, s =>
    if (s.caches c).freelist ≠ 0 ∧ slubCpuLimit < (s.caches c).freelistCount then
      flushLoop c n (s.flushOne c)
    else s

def flushCpuFreelist (c : ℕ) : State := flushLoop c (s.caches c).freelistCount s

def initSlabFreelist (c page : ℕ) : State :=
  let addr := pageToVirt page
  let x := s.caches c
  { s with
    pages := Function.update s.pages page { s.pages page with
      sMem := addr, inuse := 0, objects := x.objectsPerSlab, slabCache := some c,
      flags := (s.pages page).flags ||| pgSlab, freelist := addr }
    word := linkObjects x.size (x.objectsPerSlab - 1) addr s.word }

/-- `allocate_slab`; `fresh` is what `alloc_page` returns. -/
def allocateSlab (c : ℕ) (fresh : Option ℕ) : Option ℕ × State :=
  match fresh with
  | none => (none, s)
  | some page =>
    let s := s.setPage page fun x => { x with flags := 0, property := 0, ref := 0 }
    let s := s.setLinks ((s.links.setPrev (.page page) .null).setNext (.page page) .null)
    let s := s.setPage page fun x => { x with flags := pgSlab }
    (some page, s.initSlabFreelist c page)

/-- The part of `acquire_slab` after the test of the current page. -/
def nextSlab (c : ℕ) (fresh : Option ℕ) : Option ℕ × State :=
  match s.links.next (.head c) with
  | .page p => (some p, (s.removePartial c p).setCache c fun x => { x with page := some p })
  | _ =>
    match s.allocateSlab c fresh with
    | (some page, s) => (some page, s.setCache c fun x => { x with page := some page })
    | (none, s) => (none, s)

def acquireSlab (c : ℕ) (fresh : Option ℕ) : Option ℕ × State :=
  match (s.caches c).page with
  | some page =>
    if (s.pages page).freelist ≠ 0 then (some page, s)
    else if (s.caches c).freelist = 0 ∧ (s.pages page).inuse = (s.pages page).objects then
      (s.setCache c fun x => { x with page := none }).nextSlab c fresh
    else s.nextSlab c fresh
  | none => s.nextSlab c fresh

/-- The loop of `refill_cpu_freelist`. -/
def refillLoop (c page : ℕ) : ℕ → State → State
  | 0, s => s
  | batch + 1, s =>
    let object := (s.pages page).freelist
    if object = 0 then s
    else
      refillLoop c page batch
        ((s.setPage page fun x => { x with freelist := s.word object }).cpuPush c object)

def refillCpuFreelist (c : ℕ) (fresh : Option ℕ) : Bool × State :=
  match s.acquireSlab c fresh with
  | (none, s) => (false, s)
  | (some page, s) =>
    let s := refillLoop c page slubCpuBatch s
    ((s.caches c).freelist ≠ 0, s)

/-- The fast path of `kmem_cache_alloc`. -/
def takeObject (c : ℕ) : ℕ × State :=
  match s.cpuPop c with
  | (object, s) =>
    (object, s.setPage (virtToPage object) fun x => { x with inuse := inc32 x.inuse })

/-- `kmem_cache_alloc`; the object is `0` for a null pointer. -/
def kmemCacheAlloc (c : ℕ) (fresh : Option ℕ) : ℕ × State :=
  if (s.caches c).freelist = 0 then
    match s.refillCpuFreelist c fresh with
    | (false, s) => (0, s)
    | (true, s) => s.takeObject c
  else s.takeObject c

/-- `kmem_cache_free`; `none` for the panic about a wrong cache. -/
def kmemCacheFree (c obj : ℕ) : Option State :=
  if obj = 0 then some s
  else
    let page := virtToPage obj
    if (s.pages page).slabCache ≠ some c then none
    else
      let s := (s.cpuPush c obj).setPage page fun x => { x with inuse := dec32 x.inuse }
      if slubCpuLimit < (s.caches c).freelistCount then some (s.flushCpuFreelist c) else some s

end State

end UCore.Slub

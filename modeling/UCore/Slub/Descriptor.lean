import UCore.FirstFit.Safety
import UCore.Library.Layout
import UCore.Slub.Model

/-! # The memory of the cache descriptors

`slub_init` and `kmem_cache_create` use the result of `alloc_page`, the address of a page
descriptor, as the address of a cache descriptor. The model has the bytes of the memory at their
kernel addresses, beside the page allocator's own view of the page descriptors.
-/

namespace UCore.Slub

open Library

/-- The members of `struct Page`, those of nested structures in a row. -/
inductive PageField
  | ref
  | flags
  | property
  | pageLinkPrev
  | pageLinkNext
  | praPageLinkPrev
  | praPageLinkNext
  | praVaddr
  | slabCache
  | freelist
  | sMem
  | inuse
  | objects
deriving DecidableEq

def pageFields : List (Library.Field PageField) :=
  [⟨.ref, 4, 4⟩, ⟨.flags, 8, 8⟩, ⟨.property, 4, 4⟩, ⟨.pageLinkPrev, 8, 8⟩, ⟨.pageLinkNext, 8, 8⟩,
    ⟨.praPageLinkPrev, 8, 8⟩, ⟨.praPageLinkNext, 8, 8⟩, ⟨.praVaddr, 8, 8⟩, ⟨.slabCache, 8, 8⟩,
    ⟨.freelist, 8, 8⟩, ⟨.sMem, 8, 8⟩, ⟨.inuse, 4, 4⟩, ⟨.objects, 4, 4⟩]

/-- The members of `struct kmem_cache`, those of nested structures in a row. -/
inductive CacheField
  | name
  | size
  | align
  | objectsPerSlab
  | cpuFreelist
  | cpuPage
  | cpuFreelistCount
  | partialPrev
  | partialNext
  | nrPartial
  | allocCount
  | freeCount
  | activeSlabs
deriving DecidableEq

def cacheFields : List (Library.Field CacheField) :=
  [⟨.name, 8, 8⟩, ⟨.size, 8, 8⟩, ⟨.align, 8, 8⟩, ⟨.objectsPerSlab, 4, 4⟩, ⟨.cpuFreelist, 8, 8⟩,
    ⟨.cpuPage, 8, 8⟩, ⟨.cpuFreelistCount, 4, 4⟩, ⟨.partialPrev, 8, 8⟩, ⟨.partialNext, 8, 8⟩,
    ⟨.nrPartial, 8, 8⟩, ⟨.allocCount, 8, 8⟩, ⟨.freeCount, 8, 8⟩, ⟨.activeSlabs, 8, 8⟩]

/-- `sizeof(struct Page)`. -/
def sizeofPage : ℕ := sizeOfFields pageFields

/-- `sizeof(struct kmem_cache)`. -/
def sizeofCache : ℕ := sizeOfFields cacheFields

/-- The place of a member of `struct kmem_cache`. -/
def cacheSlot (f : CacheField) : Slot CacheField :=
  ((slots 0 cacheFields).find? fun s => s.name = f).getD ⟨f, 0, 0⟩

def pageSlot (f : PageField) : Slot PageField :=
  ((slots 0 pageFields).find? fun s => s.name = f).getD ⟨f, 0, 0⟩

/-- The address of the name of the caches of `slub_init`. -/
def slubCacheName : ℕ := 0xFFFFFFFFC0200000

/-- `divu` of the machine. -/
def udiv (a b : ℕ) : ℕ := if b = 0 then 2 ^ 64 - 1 else a / b

/-- The page allocator, the bytes of the memory, and the caches that were created: the page that
`alloc_page` handed out and the address of the descriptor. `pages` is the address of the array of
page descriptors, and `inits` counts the rounds of `slub_init`. -/
structure Kernel where
  pages : ℕ
  config : FirstFit.Config
  mem : ℕ → UInt8
  caches : List (ℕ × ℕ)
  inits : ℕ

namespace Kernel

variable (k : Kernel)

/-- `&pages[page]`. -/
def pageAddr (page : ℕ) : ℕ := k.pages + sizeofPage * page

/-- `alloc_page`: the page whose descriptor is returned, if any. -/
def allocPage : Option (Option ℕ × Kernel) :=
  (FirstFit.defaultAllocPages k.config.state 1).map fun
    | (some page, s) => (some page, { k with config := ⟨s, span page 1 :: k.config.live⟩ })
    | (none, s) => (none, { k with config := ⟨s, k.config.live⟩ })

/-- `(struct kmem_cache *)alloc_page()`. -/
def cacheAddr (page : ℕ) : ℕ := k.pageAddr page

/-- Stores into the descriptor of a cache. -/
def storeCache (page : ℕ) (l : List (CacheField × ℕ)) : Kernel :=
  { k with
    mem := storeFields k.mem (k.cacheAddr page) (l.map fun p => (cacheSlot p.1, p.2))
    caches := (page, k.cacheAddr page) :: k.caches }

/-- The address of `cache->node.partial`. -/
def partialAddr (page : ℕ) : ℕ := k.cacheAddr page + (cacheSlot .partialPrev).offset

/-- One round of the loop of `slub_init`. -/
def initCache : Option Kernel := do
  match ← k.allocPage with
  | (none, _) => none
  | (some page, k) =>
    let size := sizeTable.getD k.inits 0
    some { k.storeCache page
      [(.name, slubCacheName), (.size, size), (.align, 8), (.objectsPerSlab, pgsize / size),
        (.cpuFreelist, 0), (.cpuPage, 0), (.cpuFreelistCount, 0),
        (.partialPrev, k.partialAddr page), (.partialNext, k.partialAddr page),
        (.nrPartial, 0)] with inits := k.inits + 1 }

def kmemCacheCreate (name size align : ℕ) : Option Kernel := do
  match ← k.allocPage with
  | (none, k) => some k
  | (some page, k) =>
    let objects := udiv (pgsize - sizeofPage) size % 2 ^ 32
    some (k.storeCache page
      [(.name, name), (.size, size), (.align, align),
        (.objectsPerSlab, if objects = 0 then 1 else objects),
        (.cpuFreelist, 0), (.cpuPage, 0), (.cpuFreelistCount, 0),
        (.partialPrev, k.partialAddr page), (.partialNext, k.partialAddr page),
        (.nrPartial, 0), (.allocCount, 0), (.freeCount, 0), (.activeSlabs, 0)])

end Kernel

/-- The steps; other users allocate and free pages and set the reference counts of pages. -/
inductive Act
  | initCache
  | create (name size align : ℕ)
  | alloc (n : ℕ)
  | free (base n : ℕ)
  | setPageRef (page ref : ℕ)

/-- A step; `slub_init` runs first, as a whole. -/
def Kernel.step (k : Kernel) : Act → Option Kernel
  | .initCache => if k.inits < sizeTable.length then k.initCache else none
  | .create name size align =>
    if k.inits = sizeTable.length then k.kmemCacheCreate name size align else none
  | .alloc n =>
    if k.inits = sizeTable.length then
      (k.config.call (.alloc n)).map fun config => { k with config }
    else none
  | .free base n =>
    if k.inits = sizeTable.length then
      (k.config.call (.free base n)).map fun config => { k with config }
    else none
  | .setPageRef page ref =>
    if k.inits = sizeTable.length then
      some { k with mem := storeBytes k.mem (k.pageAddr page + (pageSlot .ref).offset) 4 ref }
    else none

/-- The kernel before `slub_init`. -/
def Kernel.start (pages : ℕ) (config : FirstFit.Config) (mem : ℕ → UInt8) : Kernel :=
  ⟨pages, config, mem, [], 0⟩

/-- The bytes `[a, a + n)` and `[b, b + m)` are different. -/
def Apart (a n b m : ℕ) : Prop := a + n ≤ b ∨ b + m ≤ a

/-- Every cache descriptor has memory of its own: it lies in the page that was allocated for it,
outside the array of page descriptors, the other cache descriptors and the pages of other users,
and a store into it changes no descriptor of another page. -/
structure Own (k : Kernel) : Prop where
  inside : ∀ c ∈ k.caches, pageToVirt c.1 ≤ c.2 ∧ c.2 + sizeofCache ≤ pageToVirt c.1 + pgsize
  array : ∀ c ∈ k.caches,
    Apart c.2 sizeofCache k.pages (sizeofPage * k.config.state.npage)
  caches : k.caches.Pairwise fun c d => Apart c.2 sizeofCache d.2 sizeofCache
  users : ∀ c ∈ k.caches, ∀ A ∈ k.config.live, ∀ q ∈ A, q ∉ k.caches.map Prod.fst →
    Apart c.2 sizeofCache (pageToVirt q) pgsize
  frame : ∀ c ∈ k.caches, ∀ q < k.config.state.npage, q ≠ c.1 → ∀ l : List (CacheField × ℕ),
    ∀ a, k.pageAddr q ≤ a → a < k.pageAddr q + sizeofPage →
      storeFields k.mem c.2 (l.map fun p => (cacheSlot p.1, p.2)) a = k.mem a

section Overlap

variable {k k' : Kernel} {p : ℕ}

theorem sizeofPage_eq : sizeofPage = 96 := rfl

theorem sizeofCache_eq : sizeofCache = 104 := rfl

end Overlap

section Run

variable {c : FirstFit.Config} {pages : ℕ} {mem : ℕ → UInt8}

theorem defaultAllocPages_npage {s s' : FirstFit.State} {n p : ℕ}
    (h : FirstFit.defaultAllocPages s n = some (some p, s')) : s'.npage = s.npage := by
  unfold FirstFit.defaultAllocPages at h
  split at h
  · split at h
    · cases h
    · obtain ⟨r, -, hrp⟩ := Option.map_eq_some_iff.mp h
      cases r with
      | none => cases hrp
      | some q =>
        obtain ⟨-, rfl⟩ := Prod.mk.inj hrp
        unfold FirstFit.takeBlock
        dsimp only
        split <;> rfl
  · cases h

/-- Some page is free. -/
def Available (s : FirstFit.State) : Prop :=
  ∃ page s', FirstFit.defaultAllocPages s 1 = some (some page, s')

/-- From any state of a page allocator that hands out pages of the array, the cache descriptors
have memory of their own in all states that follow if and only if no page is available, so that
`slub_init` creates none. -/
theorem descriptors_own_iff
    (ht : ∀ p s', FirstFit.defaultAllocPages c.state 1 = some (some p, s') → p < c.state.npage) :
    (∀ l k, Runs (fun k a k' => Kernel.step k a = some k') (.start pages c mem) l k → Own k) ↔
      ¬Available c.state := by
  constructor
  · rintro h ⟨p, s', hp⟩
    have hlt := ht p s' hp
    have hnp := defaultAllocPages_npage hp
    have ha : (Kernel.start pages c mem).allocPage =
        some (some p, { Kernel.start pages c mem with config := ⟨s', span p 1 :: c.live⟩ }) := by
      simp [Kernel.allocPage, Kernel.start, hp]
    obtain ⟨k, hk, hc, hs⟩ : ∃ k, (Kernel.start pages c mem).initCache = some k ∧
        k.caches = [(p, pages + sizeofPage * p)] ∧ k.config.state = s' ∧ k.pages = pages := by
      unfold Kernel.initCache
      rw [ha]
      exact ⟨_, rfl, rfl, rfl, rfl⟩
    have hown :=
      h [.initCache] k (.cons (by rw [Kernel.step, if_pos (by simp [Kernel.start, sizeTable]),
        hk]) (.nil k))
    have := hown.array (p, pages + sizeofPage * p) (by simp [hc])
    rw [hs.1, hs.2, hnp, sizeofPage_eq, sizeofCache_eq, Apart] at this
    dsimp only at this
    omega
  · intro hn l k hr
    have hstuck : ∀ a k', Kernel.step (.start pages c mem) a ≠ some k' := by
      intro a k' h
      cases a with
      | initCache =>
        rw [Kernel.step, if_pos (by simp [Kernel.start, sizeTable])] at h
        unfold Kernel.initCache Kernel.allocPage at h
        cases hd : FirstFit.defaultAllocPages c.state 1 with
        | none => simp [Kernel.start, hd] at h
        | some r =>
          obtain ⟨o, s'⟩ := r
          cases o with
          | none => simp [Kernel.start, hd] at h
          | some p => exact hn ⟨p, s', hd⟩
      | create | alloc | free | setPageRef => simp [Kernel.step, Kernel.start, sizeTable] at h
    cases hr with
    | nil => exact ⟨by simp [Kernel.start], by simp [Kernel.start], by simp [Kernel.start],
        by simp [Kernel.start], by simp [Kernel.start]⟩
    | cons h _ => exact absurd h (hstuck _ _)

def sixteenPages : FirstFit.State where
  npage := 16
  ref _ := 0
  reserved _ := true
  pageProperty _ := false
  property _ := 0
  links := ⟨id, id⟩
  nrFree := 0

theorem descriptors_own_iff_sixteenPages : ∃ c, FirstFit.boot sixteenPages 0 16 = some c ∧
    (∀ p s', FirstFit.defaultAllocPages c.state 1 = some (some p, s') → p < c.state.npage) ∧
    ¬∀ l k, Runs (fun k a k' => Kernel.step k a = some k')
      (.start 0xFFFFFFFFC0400000 c fun _ => 0) l k → Own k := by
  obtain ⟨c, hc⟩ := Option.isSome_iff_exists.mp
    (show (FirstFit.boot sixteenPages 0 16).isSome by decide)
  have ha : ((FirstFit.boot sixteenPages 0 16).bind fun c =>
      (FirstFit.defaultAllocPages c.state 1).map fun r => (r.1, c.state.npage)) =
        some (some 0, 16) := by decide
  rw [hc, Option.bind_some] at ha
  obtain ⟨⟨o, s₁⟩, hr, ho⟩ := Option.map_eq_some_iff.mp ha
  obtain ⟨rfl, hn⟩ := Prod.mk.inj ho
  have ht : ∀ p s', FirstFit.defaultAllocPages c.state 1 = some (some p, s') →
      p < c.state.npage := by
    intro p s' h
    rw [hr] at h
    obtain ⟨h, -⟩ := Prod.mk.inj (Option.some.inj h)
    obtain rfl := Option.some.inj h
    omega
  exact ⟨c, hc, ht, fun h => (descriptors_own_iff ht).mp h ⟨0, s₁, hr⟩⟩

/-- `slub_init` creates the caches in the pages 0 to 7, another user has the pages 8 and 9, counts a
reference to page 9 and frees page 8. -/
def overlapTrace : List Act :=
  [.initCache, .initCache, .initCache, .initCache, .initCache, .initCache, .initCache, .initCache,
    .alloc 1, .alloc 1, .setPageRef 9 1, .free 8 1]

/-- The creation of a cache in page 8 loses the reference to page 9 of the other user. -/
theorem descriptors_overlap :
    ∃ c k k', FirstFit.boot sixteenPages 0 16 = some c ∧
      Runs (fun k a k' => Kernel.step k a = some k')
        (.start 0xFFFFFFFFC0400000 c fun _ => 0) overlapTrace k ∧
      k.step (.create slubCacheName 64 8) = some k' ∧ {9} ∈ k'.config.live ∧
      loadBytes k.mem (k.pageAddr 9 + (pageSlot .ref).offset) 4 = 1 ∧
      loadBytes k'.mem (k'.pageAddr 9 + (pageSlot .ref).offset) 4 = 0 ∧ ¬Own k' := by
  have h : ((FirstFit.boot sixteenPages 0 16).bind fun c =>
      (overlapTrace.foldlM Kernel.step (.start 0xFFFFFFFFC0400000 c fun _ => 0)).bind fun k =>
        (k.step (.create slubCacheName 64 8)).map fun k' =>
          decide ({9} ∈ k'.config.live ∧
            loadBytes k.mem (k.pageAddr 9 + (pageSlot .ref).offset) 4 = 1 ∧
            loadBytes k'.mem (k'.pageAddr 9 + (pageSlot .ref).offset) 4 = 0 ∧
            (8, k'.pages + 96 * 8) ∈ k'.caches ∧ k'.config.state.npage = 16)) = some true := by
    decide +kernel
  obtain ⟨c, hc, h⟩ := Option.bind_eq_some_iff.mp h
  obtain ⟨k, hk, h⟩ := Option.bind_eq_some_iff.mp h
  obtain ⟨k', hk', h⟩ := Option.map_eq_some_iff.mp h
  obtain ⟨hl, h₁, h₂, hh, hn⟩ := of_decide_eq_true h
  refine ⟨c, k, k', hc, Runs.iff_foldlM.mpr hk, hk', hl, h₁, h₂, fun hown => ?_⟩
  have := hown.array _ hh
  rw [hn, sizeofPage_eq, sizeofCache_eq, Apart] at this
  omega

end Run

end UCore.Slub

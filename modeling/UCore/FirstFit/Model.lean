import UCore.Library.Blocks
import UCore.Library.Run
import UCore.List.Entry
import UCore.PageArea

/-! # The first-fit page allocator

`kern/mm/default_pmm.c` over the array of page descriptors, a page being the
index of its descriptor. The result `none` is a failed assertion or a traversal
of the free list that does not end.
-/

namespace UCore.FirstFit

open Library

/-- A list entry: the head of the free list or the `page_link` of a page. -/
inductive Entry
  | freeList
  | pageLink (p : ℕ)
  deriving DecidableEq, Repr

/-- The page descriptors and `free_area`. -/
abbrev State := PageArea Entry ℕ

def defaultInit (s : State) : State := { s with links := listInit s.links .freeList, nrFree := 0 }

/-- The loop of `default_free_pages` over the descriptors of the range. -/
def resetPages (s : State) (p : ℕ) : ℕ → Option State
  | 0 => some s
  | n + 1 =>
    if !s.reserved p && !s.pageProperty p then resetPages (s.resetPage p) (p + 1) n else none

/-- The search for the place of `base` in the free list, after entry `le`. The
branch that inserts at the tail does not leave the loop. -/
def insertScan (base : ℕ) : ℕ → Entry → State → Option State
  | 0, _, _ => none
  | fuel + 1, le, s =>
    match listNext s.links le with
    | .freeList => some s
    | .pageLink p =>
      if base < p then
        some { s with links := listAddBefore s.links (.pageLink p) (.pageLink base) }
      else if listNext s.links (.pageLink p) = .freeList then
        insertScan base fuel (.pageLink p)
          { s with links := listAdd s.links (.pageLink p) (.pageLink base) }
      else insertScan base fuel (.pageLink p) s

/-- The insertion that ends `default_init_memmap` and precedes the merges of
`default_free_pages`: `base` becomes the head of a block of `n` pages. -/
def insertBlock (s : State) (base n : ℕ) : Option State :=
  let s := (s.setProperty base n).setPageProperty base
  let s := { s with nrFree := uint (s.nrFree + n) }
  if listEmpty s.links .freeList then
    some { s with links := listAdd s.links .freeList (.pageLink base) }
  else insertScan base (s.npage + 3) .freeList s

def defaultInitMemmap (s : State) (base n : ℕ) : Option State :=
  if 0 < n then (s.initPages base n).bind fun s => insertBlock s base n else none

/-- The search of `default_alloc_pages` for a block of `n` pages, after entry `le`. -/
def allocScan (s : State) (n : ℕ) : ℕ → Entry → Option (Option ℕ)
  | 0, _ => none
  | fuel + 1, le =>
    match listNext s.links le with
    | .freeList => some none
    | .pageLink p => if n ≤ s.property p then some (some p) else allocScan s n fuel (.pageLink p)

/-- The update of `default_alloc_pages` once the block at `page` is chosen. -/
def takeBlock (s : State) (page n : ℕ) : State :=
  let prev := listPrev s.links (.pageLink page)
  let s := { s with links := listDel s.links (.pageLink page) }
  let s :=
    if n < s.property page then
      let s := (s.setProperty (page + n) (s.property page - n)).setPageProperty (page + n)
      { s with links := listAdd s.links prev (.pageLink (page + n)) }
    else s
  { s with nrFree := uint (s.nrFree - n) }.clearPageProperty page

def defaultAllocPages (s : State) (n : ℕ) : Option (Option ℕ × State) :=
  if 0 < n then
    if s.nrFree < n then some (none, s)
    else (allocScan s n (s.npage + 3) .freeList).map fun
      | some page => (some page, takeBlock s page n)
      | none => (none, s)
  else none

/-- The block headed by `q` follows the one headed by `p` without a gap: one
block is made of both. -/
@[simps]
def mergeBlocks (s : State) (p q : ℕ) : State :=
  let s := (s.setProperty p (s.property p + s.property q)).clearPageProperty q
  { s with links := listDel s.links (.pageLink q) }

/-- The merge with the preceding block; the result names the head to go on with. -/
def mergePrev (s : State) (base : ℕ) : State × ℕ :=
  match listPrev s.links (.pageLink base) with
  | .freeList => (s, base)
  | .pageLink p => if p + s.property p = base then (mergeBlocks s p base, p) else (s, base)

def mergeNext (s : State) (base : ℕ) : State :=
  match listNext s.links (.pageLink base) with
  | .freeList => s
  | .pageLink p => if base + s.property base = p then mergeBlocks s base p else s

def defaultFreePages (s : State) (base n : ℕ) : Option State :=
  if 0 < n then do
    let s ← resetPages s base n
    let s ← insertBlock s base n
    let (s, base) := mergePrev s base
    some (mergeNext s base)
  else none

/-! ## Runs -/

inductive Op
  | alloc (n : ℕ)
  | free (base n : ℕ)
  deriving DecidableEq, Repr

/-- The allocator together with the pages of every allocation that are not yet freed. -/
structure Config where
  state : State
  live : List (Finset ℕ)

/-- Every page of the range belongs to an allocation. -/
def Config.Allocated (c : Config) (base n : ℕ) : Prop := ∀ p ∈ span base n, ∃ A ∈ c.live, p ∈ A

instance (c : Config) (base n : ℕ) : Decidable (c.Allocated base n) :=
  inferInstanceAs (Decidable (∀ p ∈ span base n, ∃ A ∈ c.live, p ∈ A))

/-- One call. An allocation records the pages it returns, a free may name any allocated pages. -/
def Config.call (c : Config) : Op → Option Config
  | .alloc n => (defaultAllocPages c.state n).map fun
      | (some page, s) => ⟨s, span page n :: c.live⟩
      | (none, s) => ⟨s, c.live⟩
  | .free base n =>
      if c.Allocated base n then
        (defaultFreePages c.state base n).map fun s => ⟨s, c.live.map (· \ span base n)⟩
      else none

/-- `default_init` followed by one `default_init_memmap`, before any allocation. -/
def boot (s : State) (base n : ℕ) : Option Config :=
  (defaultInitMemmap (defaultInit s) base n).map fun s => ⟨s, []⟩

end UCore.FirstFit

import Mathlib.Algebra.Order.Ring.Nat
import Mathlib.Data.Int.Notation
import UCore.Library.Run
import UCore.List.Entry
import UCore.PageArea

/-! # The buddy page allocator

`kern/mm/buddy_pmm.c` of lab 8 over the array of page descriptors, a page being
the index of its descriptor. The result `none` is a failed assertion, an access
outside the array or the lists, or a shift without defined result.
-/

namespace UCore.Buddy

open Library

def maxOrder : ℕ := 14

/-- `sizeof(struct Page)`. -/
def sizeofPage : ℕ := 96

/-- A list entry: the head `free_list(i)` or the `page_link` of a page. -/
inductive Entry
  | freeList (i : ℕ)
  | pageLink (p : ℕ)
  deriving DecidableEq, Repr

/-- The page descriptors and `free_area`. -/
abbrev State := PageArea Entry (ℕ → ℕ)

namespace State

/-- `list_add` to `free_list(order)`, and `nr_free(order)++`. -/
@[simps]
def link (s : State) (p order : ℕ) : State :=
  { s with
    links := listAdd s.links (.freeList order) (.pageLink p)
    nrFree := Function.update s.nrFree order (uint (s.nrFree order + 1)) }

/-- `list_del`, and `nr_free(order)--`. -/
@[simps]
def unlink (s : State) (p order : ℕ) : State :=
  { s with
    links := listDel s.links (.pageLink p)
    nrFree := Function.update s.nrFree order (uint (s.nrFree order + (2 ^ 32 - 1))) }

/-- `p` becomes the head of a free block. -/
def addBlock (s : State) (p order : ℕ) : State :=
  State.link ((s.setProperty p (2 ^ order)).setPageProperty p) p order

end State

def buddyInit (s : State) : State :=
  (List.range (maxOrder + 1)).foldl (fun s i =>
    { s with
      links := listInit s.links (.freeList i)
      nrFree := Function.update s.nrFree i 0 }) s

/-- `1 << order`, an `int` in an expression of type `size_t`. -/
def shift (order : ℕ) : Option ℕ :=
  if order < 31 then some (2 ^ order) else if order = 31 then some (2 ^ 64 - 2 ^ 31) else none

/-- The loop of `get_order`. -/
def getOrderFrom (n : ℕ) : ℕ → ℕ → Option ℕ
  | 0, _ => none
  | fuel + 1, order =>
    (shift order).bind fun size => if size < n then getOrderFrom n fuel (order + 1) else some order

def getOrder (n : ℕ) : Option ℕ := getOrderFrom n 33 0

/-- The largest order that fits and is aligned. -/
def fitOrder (base n : ℕ) : ℕ → ℕ
  | 0 => 0
  | order + 1 =>
    if 2 ^ (order + 1) ≤ n ∧ base &&& (2 ^ (order + 1) - 1) = 0 then order + 1
    else fitOrder base n order

/-- The loop of `buddy_init_memmap` over the blocks of the range. -/
def initBlocks : ℕ → State → ℕ → ℕ → Option State
  | _, s, _, 0 => some s
  | 0, _, _, _ + 1 => none
  | fuel + 1, s, base, n + 1 =>
    let order := fitOrder base (n + 1) maxOrder
    initBlocks fuel (s.addBlock base order) (base + 2 ^ order) (n + 1 - 2 ^ order)

def buddyInitMemmap (s : State) (base n : ℕ) : Option State :=
  if 0 < n then (s.initPages base n).bind fun s => initBlocks n s base n else none

/-- The search of `buddy_alloc_pages` for a list that is not empty. -/
def findOrder (s : State) : ℕ → ℕ → Option ℕ
  | 0, _ => none
  | fuel + 1, cur =>
    if listEmpty s.links (.freeList cur) then findOrder s fuel (cur + 1) else some cur

/-- The splitting loop of `buddy_alloc_pages`. -/
def splitBlock (page order : ℕ) : ℕ → State → State
  | 0, s => s
  | cur + 1, s =>
    if order < cur + 1 then splitBlock page order cur (s.addBlock (page + 2 ^ cur) cur) else s

def buddyAllocPages (s : State) (n : ℕ) : Option (Option ℕ × State) :=
  if 0 < n then
    (getOrder n).bind fun order =>
      if maxOrder < order then some (none, s)
      else
        match findOrder s (maxOrder + 1 - order) order with
        | none => some (none, s)
        | some cur =>
          match listNext s.links (.freeList cur) with
          | .freeList _ => none
          | .pageLink page =>
            some (some page, (splitBlock page order cur (s.unlink page cur)).clearPageProperty page)
  else none

/-- The loop of `buddy_free_pages` over the descriptors of the block. -/
def resetPages (s : State) (p : ℕ) : ℕ → State
  | 0 => s
  | n + 1 => resetPages (s.resetPage p) (p + 1) n

/-- The merging loop of `buddy_free_pages`. -/
def mergeBlock : ℕ → State → ℕ → ℕ → Option (State × ℕ × ℕ)
  | 0, _, _, _ => none
  | fuel + 1, s, base, order =>
    if order < maxOrder then
      let buddy := base ^^^ 2 ^ order
      if s.npage ≤ buddy then none
      else if !s.reserved buddy && s.pageProperty buddy && s.property buddy = 2 ^ order then
        mergeBlock fuel ((s.unlink buddy order).clearPageProperty buddy)
          (if buddy < base then buddy else base) (order + 1)
      else some (s, base, order)
    else some (s, base, order)

def buddyFreePages (s : State) (base n : ℕ) : Option State :=
  if 0 < n then
    (getOrder n).bind fun order =>
      if maxOrder < order ∨ s.npage < base + 2 ^ order then none
      else (mergeBlock (maxOrder + 1) (resetPages s base (2 ^ order)) base order).map fun m =>
        m.1.addBlock m.2.1 m.2.2
  else none

def buddyNrFreePages (s : State) : ℕ :=
  ((List.range (maxOrder + 1)).map fun i => uint (s.nrFree i * 2 ^ i)).sum

/-! ## Runs -/

inductive Op
  | alloc (k : ℕ)
  | free (p k : ℕ)
  deriving DecidableEq, Repr

/-- The allocator with the page and the request of every allocation that is not freed. -/
structure Config where
  state : State
  live : List (ℕ × ℕ)

/-- A request is for some page, a free is of a live allocation. -/
def Config.Allowed (c : Config) : Op → Prop
  | .alloc k => 0 < k
  | .free p k => (p, k) ∈ c.live

def Config.call (c : Config) : Op → Option Config
  | .alloc k => (buddyAllocPages c.state k).map fun o =>
      ⟨o.2, o.1.elim c.live fun p => (p, k) :: c.live⟩
  | .free p k => (buddyFreePages c.state p k).map fun s => ⟨s, c.live.erase (p, k)⟩

end UCore.Buddy

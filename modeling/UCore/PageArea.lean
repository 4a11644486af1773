import Mathlib.Algebra.Order.Ring.Nat
import UCore.Defs
import UCore.List.Entry

/-! # Page descriptors

The array of page descriptors with the `free_area` of a page allocator: `ε` is the type of its list
entries and `ν` that of `nr_free`. A page is the index of its descriptor.
-/

namespace UCore

open Library

/-- The fields of the page descriptors and of `free_area`. -/
structure PageArea (ε ν : Type) where
  /-- The number of descriptors. -/
  npage : ℕ
  ref : ℕ → ℤ
  /-- `PG_reserved` in `flags`. -/
  reserved : ℕ → Bool
  /-- `PG_property` in `flags`. -/
  pageProperty : ℕ → Bool
  property : ℕ → ℕ
  links : Links ε
  nrFree : ν

namespace PageArea

variable {ε ν : Type}

@[simps]
def setProperty (s : PageArea ε ν) (p n : ℕ) : PageArea ε ν :=
  { s with property := Function.update s.property p (uint n) }

@[simps]
def setPageProperty (s : PageArea ε ν) (p : ℕ) : PageArea ε ν :=
  { s with pageProperty := Function.update s.pageProperty p true }

@[simps]
def clearPageProperty (s : PageArea ε ν) (p : ℕ) : PageArea ε ν :=
  { s with pageProperty := Function.update s.pageProperty p false }

/-- `p->flags = 0` and `set_page_ref(p, 0)`. -/
@[simps]
def resetPage (s : PageArea ε ν) (p : ℕ) : PageArea ε ν :=
  { s with
    ref := Function.update s.ref p 0
    reserved := Function.update s.reserved p false
    pageProperty := Function.update s.pageProperty p false }

/-- The loop of `init_memmap` over the descriptors of the range. -/
def initPages (s : PageArea ε ν) (p : ℕ) : ℕ → Option (PageArea ε ν)
  | 0 => some s
  | n + 1 =>
    if s.reserved p then initPages ((s.resetPage p).setProperty p 0) (p + 1) n else none

end PageArea

end UCore

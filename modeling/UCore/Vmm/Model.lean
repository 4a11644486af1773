import UCore.Defs
import UCore.UserMem.Model

/-! # Areas of user memory

The model of `mm_map` and `copy_string` of `kern/mm/vmm.c`. Addresses and lengths come from
processes and from ELF headers and are any 64-bit values.
-/

namespace UCore.Vmm

open Library PageTable UserMem

/-- The `mm_struct` with `map_count`. -/
structure MmStruct where
  mm : Mm
  mapCount : ℤ

/-- The range of pages that `mm_map` takes for `[addr, addr + len)`. -/
def mapStart (addr : UInt64) : ℕ := rounddown addr.toNat pgsize
def mapEnd (addr len : UInt64) : ℕ := roundup (addr + len).toNat pgsize

/-- The part of `mm_map` after the search: `vma_create`, which finds memory or not, and
`insert_vma_struct`; `none` when an assertion fails. -/
def mapInsert (mm : MmStruct) (start end' vmFlags : ℕ) (memory : Bool) :
    Option (ℤ × Option Vma × MmStruct) :=
  if memory then
    (insertVmaStruct mm.mm.mmapList ⟨start, end', vmFlags⟩).map fun list =>
      (0, some ⟨start, end', vmFlags⟩, ⟨{ mm.mm with mmapList := list }, mm.mapCount + 1⟩)
  else some (-eNoMem, none, mm)

/-- `mm_map`: the error, `*vma_store` and the areas; `none` when an assertion fails. -/
def mmMap (mm : MmStruct) (addr len : UInt64) (vmFlags : ℕ) (memory : Bool) :
    Option (ℤ × Option Vma × MmStruct) :=
  if userAccess (mapStart addr) (mapEnd addr len) then
    match mm.mm.findVma (mapStart addr) with
    | (some vma, mm') =>
      if vma.vmStart < mapEnd addr len then some (-eInval, none, { mm with mm := mm' })
      else mapInsert { mm with mm := mm' } (mapStart addr) (mapEnd addr len) vmFlags memory
    | (none, mm') =>
      mapInsert { mm with mm := mm' } (mapStart addr) (mapEnd addr len) vmFlags memory
  else some (-eInval, none, mm)

/-! ## Copying a string -/

/-- The variables of `copy_string` with the memory of the kernel. `loads` and `stores` record the
addresses of the bytes that were read and written; no function reads them. -/
structure Copy where
  mm : Mm
  kmem : ℕ → UInt8
  src : ℕ
  dst : ℕ
  alpart : ℕ
  copied : ℕ
  loads : List ℕ
  stores : List ℕ

/-- `*dst++ = *src++`. -/
def Copy.move (user : ℕ → UInt8) (x : Copy) : Copy :=
  { x with
    kmem := Function.update x.kmem x.dst (user x.src)
    src := x.src + 1
    dst := x.dst + 1
    loads := x.loads ++ [x.src]
    stores := x.stores ++ [x.dst] }

/-- The inner loop of `copy_string` with `n` bytes to go: whether it met a zero. -/
def copyBytes (user : ℕ → UInt8) : ℕ → Copy → Bool × Copy
  | 0, x => (false, x)
  | n + 1, x =>
    if user x.src = 0 then (true, x.move user)
    else
      copyBytes user n { x.move user with alpart := x.alpart - 1, copied := x.copied + 1 }

/-- One round of the outer loop; the result is `none` when `user_mem_check` does not return. -/
def copyStep (user : ℕ → UInt8) (maxn : ℕ) (x : Copy) : Copy ⊕ Option (Bool × Copy) :=
  match checkAreas x.mm x.src x.alpart false with
  | none => .inr none
  | some (false, mm) => .inr (some (false, { x with mm := mm }))
  | some (true, mm) =>
    match copyBytes user x.alpart { x with mm := mm } with
    | (true, x) => .inr (some (true, x))
    | (false, x) =>
      if maxn ≤ x.copied then .inr (some (false, x))
      else .inl { x with alpart := min pgsize (maxn - x.copied) }

/-- `copy_string`: the result, with the memory and the records. -/
def copyString (user : ℕ → UInt8) (mm : Mm) (kmem : ℕ → UInt8) (dst : ℕ) (src maxn : UInt64) :
    Option (Bool × Copy) :=
  (iterate (copyStep user maxn.toNat) (maxn.toNat + 1)
    { mm := mm, kmem := kmem, src := src.toNat, dst := dst, copied := 0, loads := [], stores := [],
      alpart := min (pgsize - src.toNat % pgsize) maxn.toNat }).join

end UCore.Vmm

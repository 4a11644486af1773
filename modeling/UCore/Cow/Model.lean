import UCore.PageTable.Areas

/-! # Copy on write

The model of `copy_range` and `do_pgfault`, with the memory areas that they read. A fork enters
every page of the parent into the child's tables without `PTE_W`; the first store to such a page
copies it, or takes it over when nobody else maps it.
-/

namespace UCore.Cow

open Library PageTable

def causeStorePageFault : ℕ := 0xf

/-- `boot_page_table_sv39` of this kernel. -/
def bootPageTable (i : ℕ) : ℕ := if i = 511 then (0x80000 <<< 10) ||| 0xcf else 0

/-- The part of a `uint32_t` outside `PTE_W`. -/
def clearW (perm : ℕ) : ℕ := perm &&& (0xFFFFFFFF ^^^ pteW)

/-- The body of `copy_range` for one valid entry of `from`; `none` when an assertion fails. -/
def copyPage (to' from' start : ℕ) (share : Bool) (ptep : ℕ × ℕ) (s : State) : Option State :=
  let perm := s.read ptep &&& (pteUser ||| pteA ||| pteD)
  let page := pte2page (s.read ptep)
  let result :=
    if share then
      if has perm pteW then
        let cowPerm := clearW perm ||| pteCow
        let s := (s.pageInsert from' page start cowPerm).2
        some (s.pageInsert to' page start cowPerm)
      else if has (s.read ptep) pteCow then
        let cowPerm := perm ||| pteCow
        some (s.pageInsert to' page start cowPerm)
      else some (s.pageInsert to' page start perm)
    else
      match s.allocPage with
      | (none, _) => none
      | (some npage, s) => some ((s.setPage npage (s.word page)).pageInsert to' npage start perm)
  match result with
  | some (ret, s) => if ret = 0 then some s else none
  | none => none

/-- One iteration of `copy_range`. -/
def copyStep (to' from' end' : ℕ) (share : Bool) (x : ℕ × State) :
    (ℕ × State) ⊕ Option (ℤ × State) :=
  match x.2.getPte from' x.1 false with
  | (none, s) => s.again (rounddown (x.1 + ptsize) ptsize) end' (some (0, s))
  | (some ptep, s) =>
    if has (s.read ptep) pteV then
      match s.getPte to' x.1 true with
      | (none, s) => .inr (some (-eNoMem, s))
      | (some _, s) =>
        match copyPage to' from' x.1 share ptep s with
        | none => .inr none
        | some s => s.again (x.1 + pgsize) end' (some (0, s))
    else s.again (x.1 + pgsize) end' (some (0, s))

/-- `copy_range`; `none` when an assertion fails. -/
def copyRange (to' from' start end' : ℕ) (share : Bool) (s : State) : Option (ℤ × State) :=
  if (start % pgsize = 0 ∧ end' % pgsize = 0) ∧ userAccess start end' then
    (iterate (copyStep to' from' end' share) (end' - start + 1) (start, s)).join
  else none

/-- The permission for a page of an area. -/
def vmaPerm (vmFlags : ℕ) : ℕ :=
  let perm := pteU
  let perm := if has vmFlags vmWrite then perm ||| (pteR ||| pteW) else perm
  let perm := if has vmFlags vmRead then perm ||| pteR else perm
  let perm := if has vmFlags vmExec then perm ||| pteX else perm
  let perm := perm ||| pteA
  if has perm pteW then perm ||| pteD else perm

/-- The part of `do_pgfault` for a store to a valid page without `PTE_W`. -/
def copyOnWrite (pgdir addr perm : ℕ) (ptep : ℕ × ℕ) (s : State) : ℤ × State :=
  if !has (s.read ptep) pteCow then (-eNoMem, s)
  else
    let page := pte2page (s.read ptep)
    if 1 < s.ref page then
      match s.allocPage with
      | (none, s) => (-eNoMem, s)
      | (some npage, s) =>
        let s := s.setPage npage (s.word page)
        match s.pageInsert pgdir npage addr perm with
        | (ret, s) => if ret ≠ 0 then (-eNoMem, s.freePage npage) else (0, s)
    else (0, (s.pageInsert pgdir page addr perm).2)

/-- The part of `do_pgfault` after the checks on the area; `none` when an assertion fails. -/
def handleFault (pgdir addr perm : ℕ) (write : Bool) (s : State) : Option (ℤ × State) :=
  match s.getPte pgdir addr true with
  | (none, s) => some (-eNoMem, s)
  | (some ptep, s) =>
    if s.read ptep = 0 then
      match s.pgdirAllocPage pgdir addr perm with
      | none => none
      | some (none, s) => some (-eNoMem, s)
      | some (some _, s) => some (0, s)
    else if write && has (s.read ptep) pteV && !has (s.read ptep) pteW then
      some (copyOnWrite pgdir addr perm ptep s)
    else some (0, s)

/-- `do_pgfault`; `none` when an assertion fails. -/
def doPgfault (mm : Mm) (errorCode addr : ℕ) (s : State) : Option (ℤ × Mm × State) :=
  match mm.findVma addr with
  | (none, mm) => some (-eInval, mm, s)
  | (some vma, mm) =>
    if vma.vmStart > addr then some (-eInval, mm, s)
    else
      let write : Bool := errorCode = causeStorePageFault
      if write && !has vma.vmFlags vmWrite then some (-eInval, mm, s)
      else
        match handleFault mm.pgdir (rounddown addr pgsize) (vmaPerm vma.vmFlags) write s with
        | none => none
        | some (ret, s) => some (ret, mm, s)

end UCore.Cow

import Mathlib.Data.Finset.Card
import Mathlib.Logic.Function.Basic
import UCore.Defs
import UCore.Library.Loop
import UCore.Process.State

/-! # Sv39 page tables

The model of the page table code of `kern/mm/pmm.c`. Memory is a function from page numbers and
word indices to 64-bit words, for page tables and user pages alike; a pointer to a page table
entry is a page number with an index. A `struct Page` is named by its page number. The page
allocator takes its answers from a list: a free page, or `NULL`.
-/

namespace UCore.PageTable

open Library

def pteV : ℕ := 0x001
def pteR : ℕ := 0x002
def pteW : ℕ := 0x004
def pteX : ℕ := 0x008
def pteU : ℕ := 0x010
def pteA : ℕ := 0x040
def pteD : ℕ := 0x080
def pteCow : ℕ := 0x100
def pteUser : ℕ := pteR ||| pteW ||| pteX ||| pteU ||| pteV

def ptsize : ℕ := pgsize * 512
def pdsize : ℕ := ptsize * 512

def userbase : ℕ := 0x00200000
def usertop : ℕ := 0x80000000

def pdx1 (la : ℕ) : ℕ := (la >>> 30) &&& 0x1FF
def pdx0 (la : ℕ) : ℕ := (la >>> 21) &&& 0x1FF
def ptx (la : ℕ) : ℕ := (la >>> 12) &&& 0x1FF

def userAccess (start end' : ℕ) : Prop := userbase ≤ start ∧ start < end' ∧ end' ≤ usertop

instance (start end' : ℕ) : Decidable (userAccess start end') :=
  inferInstanceAs (Decidable (_ ∧ _ ∧ _))

def pteCreate (ppn type : ℕ) : ℕ := (ppn <<< 10) ||| pteV ||| type

/-- `pte2page`: the number of the page at `PTE_ADDR(pte)`. -/
def pte2page (pte : ℕ) : ℕ := pte >>> 10

/-- Physical memory and the page descriptors. `freed` records every call of `free_page` with the
reference count of the page at the call; no function reads it. -/
structure State where
  word : ℕ → ℕ → ℕ
  ref : ℕ → ℤ
  free : Finset ℕ
  answers : List (Option ℕ)
  freed : List (ℕ × ℤ)

namespace State

variable (s : State)

def setWord (page i w : ℕ) : State :=
  { s with word := Function.update s.word page (Function.update (s.word page) i w) }

/-- The contents of a page, written by `memset` and `memcpy`. -/
def setPage (page : ℕ) (f : ℕ → ℕ) : State := { s with word := Function.update s.word page f }

def setPageRef (page : ℕ) (n : ℤ) : State := { s with ref := Function.update s.ref page n }

def pageRefInc (page : ℕ) : State := s.setPageRef page (s.ref page + 1)

def pageRefDec (page : ℕ) : State := s.setPageRef page (s.ref page - 1)

/-- A page of the allocator, if it has one and answers with it. -/
def allocPage : Option ℕ × State :=
  match s.answers with
  | [] => (none, s)
  | none :: l => (none, { s with answers := l })
  | some p :: l =>
    if p ∈ s.free then (some p, { s with free := s.free.erase p, answers := l })
    else (none, { s with answers := l })

def freePage (page : ℕ) : State :=
  { s with
    free := insert page s.free
    ref := Function.update s.ref page 0
    freed := s.freed ++ [(page, s.ref page)] }

/-- One level of `get_pte`: the table that the entry `i` of `table` points to, created on demand. -/
def nextTable (table i : ℕ) (create : Bool) : Option ℕ × State :=
  if has (s.word table i) pteV then (some (pte2page (s.word table i)), s)
  else if !create then (none, s)
  else match s.allocPage with
    | (none, s) => (none, s)
    | (some page, s) =>
      let s := s.setPageRef page 1
      let s := s.setPage page fun _ => 0
      let s := s.setWord table i (pteCreate page (pteU ||| pteV))
      (some (pte2page (s.word table i)), s)

/-- `get_pte`: the entry is given by its table and index. -/
def getPte (pgdir la : ℕ) (create : Bool) : Option (ℕ × ℕ) × State :=
  match s.nextTable pgdir (pdx1 la) create with
  | (none, s) => (none, s)
  | (some pd0, s) =>
    match s.nextTable pd0 (pdx0 la) create with
    | (none, s) => (none, s)
    | (some pt, s) => (some (pt, ptx la), s)

def read (ptep : ℕ × ℕ) : ℕ := s.word ptep.1 ptep.2

def write (ptep : ℕ × ℕ) (w : ℕ) : State := s.setWord ptep.1 ptep.2 w

/-- `get_page`, with the entry that it stores. -/
def getPage (pgdir la : ℕ) : Option ℕ × Option (ℕ × ℕ) :=
  match (s.getPte pgdir la false).1 with
  | none => (none, none)
  | some ptep => (if has (s.read ptep) pteV then some (pte2page (s.read ptep)) else none, some ptep)

def pageRemovePte (ptep : ℕ × ℕ) : State :=
  if has (s.read ptep) pteV then
    let page := pte2page (s.read ptep)
    let s := s.pageRefDec page
    let s := if s.ref page = 0 then s.freePage page else s
    s.write ptep 0
  else s

def pageRemove (pgdir la : ℕ) : State :=
  match s.getPte pgdir la false with
  | (none, s) => s
  | (some ptep, s) => s.pageRemovePte ptep

def pageInsert (pgdir page la perm : ℕ) : ℤ × State :=
  match s.getPte pgdir la true with
  | (none, s) => (-eNoMem, s)
  | (some ptep, s) =>
    let s := s.pageRefInc page
    let s :=
      if has (s.read ptep) pteV then
        if pte2page (s.read ptep) = page then s.pageRefDec page else s.pageRemovePte ptep
      else s
    (0, s.write ptep (pteCreate page (pteV ||| perm)))

/-- `pgdir_alloc_page`; `none` when its assertion on the reference count fails. -/
def pgdirAllocPage (pgdir la perm : ℕ) : Option (Option ℕ × State) :=
  match s.allocPage with
  | (none, s) => some (none, s)
  | (some page, s) =>
    match s.pageInsert pgdir page la perm with
    | (ret, s) =>
      if ret ≠ 0 then some (none, s.freePage page)
      else if s.ref page = 1 then some (some page, s) else none

/-- The condition of the `do .. while` loops over an address range. -/
def again {ρ : Type} (start end' : ℕ) (r : ρ) : (ℕ × State) ⊕ ρ :=
  if start ≠ 0 ∧ start < end' then .inl (start, s) else .inr r

/-- One iteration of `unmap_range`. -/
def unmapStep (pgdir end' : ℕ) (x : ℕ × State) : (ℕ × State) ⊕ State :=
  match x.2.getPte pgdir x.1 false with
  | (none, s) => s.again (rounddown (x.1 + ptsize) ptsize) end' s
  | (some ptep, s) =>
    let s := if s.read ptep ≠ 0 then s.pageRemovePte ptep else s
    s.again (x.1 + pgsize) end' s

/-- `unmap_range`; `none` when an assertion fails. -/
def unmapRange (pgdir start end' : ℕ) : Option State :=
  if (start % pgsize = 0 ∧ end' % pgsize = 0) ∧ userAccess start end' then
    iterate (unmapStep pgdir end') (end' - start + 1) (start, s)
  else none

end State

/-- `boot_page_table_sv39`: two entries map the first gigabyte of memory, all others are empty. -/
def bootPageTable (i : ℕ) : ℕ := if i = 2 ∨ i = 511 then (0x80000 <<< 10) ||| 0xcf else 0

/-- `setup_pgdir`: the new directory, a copy of the boot directory, or `NULL`. -/
def State.setupPgdir (s : State) (boot : ℕ → ℕ) : Option ℕ × State :=
  match s.allocPage with
  | (none, s) => (none, s)
  | (some page, s) => (some page, s.setPage page boot)

end UCore.PageTable

import UCore.PageTable.Ops

/-! # Memory areas

The `mm_struct` of a process: its page directory and its memory areas, in the order of their
addresses.
-/

namespace UCore.PageTable

def vmRead : ℕ := 0x1
def vmWrite : ℕ := 0x2
def vmExec : ℕ := 0x4

structure Vma where
  vmStart : ℕ
  vmEnd : ℕ
  vmFlags : ℕ
deriving DecidableEq

structure Mm where
  mmapList : List Vma
  mmapCache : Option Vma
  pgdir : ℕ

def Vma.contains (vma : Vma) (addr : ℕ) : Bool := vma.vmStart ≤ addr && addr < vma.vmEnd

/-- `find_vma`: the area with the address, which becomes the cached one. -/
def Mm.findVma (mm : Mm) (addr : ℕ) : Option Vma × Mm :=
  match mm.mmapCache.filter fun vma => vma.contains addr with
  | some vma => (some vma, mm)
  | none =>
    match mm.mmapList.find? fun vma => vma.contains addr with
    | some vma => (some vma, { mm with mmapCache := some vma })
    | none => (none, mm)

/-- `check_vma_overlap`: its assertions. -/
def checkVmaOverlap (prev next : Vma) : Prop :=
  prev.vmStart < prev.vmEnd ∧ prev.vmEnd ≤ next.vmStart ∧ next.vmStart < next.vmEnd

instance (prev next : Vma) : Decidable (checkVmaOverlap prev next) :=
  inferInstanceAs (Decidable (_ ∧ _ ∧ _))

/-- `insert_vma_struct`; `none` when an assertion fails. -/
def insertVmaStruct (list : List Vma) (vma : Vma) : Option (List Vma) :=
  let before := list.takeWhile fun prev => prev.vmStart ≤ vma.vmStart
  let after := list.dropWhile fun prev => prev.vmStart ≤ vma.vmStart
  if vma.vmStart < vma.vmEnd ∧ (∀ prev ∈ before.getLast?, checkVmaOverlap prev vma) ∧
      ∀ next ∈ after.head?, checkVmaOverlap vma next then some (before ++ vma :: after)
  else none

section Areas

variable {mm : Mm} {vma : Vma} {addr : ℕ}

/-- An area as `mm_map` makes it. -/
structure Vma.Ok (vma : Vma) : Prop where
  start : vma.vmStart % pgsize = 0
  stop : vma.vmEnd % pgsize = 0
  user : userAccess vma.vmStart vma.vmEnd

/-- The areas of an `mm_struct` are proper and the cached one is among them. -/
structure Mm.Ok (mm : Mm) : Prop where
  vmas : ∀ vma ∈ mm.mmapList, vma.Ok
  cache : ∀ vma ∈ mm.mmapCache, vma ∈ mm.mmapList

instance (vma : Vma) : Decidable vma.Ok :=
  decidable_of_iff (vma.vmStart % pgsize = 0 ∧ vma.vmEnd % pgsize = 0 ∧
    userAccess vma.vmStart vma.vmEnd) ⟨fun h => ⟨h.1, h.2.1, h.2.2⟩, fun h => ⟨h.1, h.2, h.3⟩⟩

instance (mm : Mm) : Decidable mm.Ok :=
  decidable_of_iff ((∀ vma ∈ mm.mmapList, vma.Ok) ∧ ∀ vma ∈ mm.mmapCache, vma ∈ mm.mmapList)
    ⟨fun h => ⟨h.1, h.2⟩, fun h => ⟨h.1, h.2⟩⟩

/-- The same areas and directory, with another cached area perhaps. -/
structure Mm.Same (mm mm' : Mm) : Prop where
  list : mm'.mmapList = mm.mmapList
  pgdir : mm'.pgdir = mm.pgdir
  ok : mm'.Ok

theorem Vma.contains_iff : vma.contains addr = true ↔ vma.vmStart ≤ addr ∧ addr < vma.vmEnd := by
  simp [Vma.contains]

theorem Vma.Ok.isVpn (h : vma.Ok) (ha : vma.contains addr = true) : isVpn (addr / pgsize) := by
  rw [Vma.contains_iff] at ha
  refine h.user.isVpn ?_
  have := h.stop
  unfold pgsize at *
  omega

theorem findVma_spec (addr : ℕ) (h : mm.Ok) : mm.Same (mm.findVma addr).2 ∧
    ∀ vma, (mm.findVma addr).1 = some vma → vma ∈ mm.mmapList ∧ vma.contains addr = true := by
  unfold Mm.findVma
  split
  · rename_i vma hc
    rw [Option.filter_eq_some_iff] at hc
    refine ⟨⟨rfl, rfl, h⟩, ?_⟩
    rintro vma' hv
    obtain rfl := Option.some.inj hv
    exact ⟨h.cache vma hc.1, by simpa using hc.2⟩
  · split
    · rename_i vma hf
      have hmem := List.mem_of_find?_eq_some hf
      refine ⟨⟨rfl, rfl, h.vmas, ?_⟩, ?_⟩
      · intro vma' hv
        obtain rfl : vma = vma' := by simpa using hv
        exact hmem
      · intro vma' hv
        obtain rfl : vma = vma' := by simpa using hv
        exact ⟨hmem, by simpa using List.find?_some hf⟩
    · exact ⟨⟨rfl, rfl, h⟩, by simp⟩

end Areas

end UCore.PageTable

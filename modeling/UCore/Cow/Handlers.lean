import UCore.Cow.Invariant

/-! # The two copy-on-write handlers

`check_and_do_cow` of `kern/mm/cow.c` beside `do_pgfault`. The first one rebuilds the permission
of the page from its entry and takes every valid page without `PTE_W`; the second one takes it
from the area and asks for the mark `PTE_COW`. The statistics of the first are left out.
-/

namespace UCore.Cow

open Library PageTable

def isCowPage (pte : ℕ) : Bool := has pte pteV && !has pte pteW && has pte pteCow

def handleCowFault (pgdir addr : ℕ) (ptep : ℕ × ℕ) (s : State) : ℤ × State :=
  if !has (s.read ptep) pteV then (-eInval, s)
  else
    let page := pte2page (s.read ptep)
    let refCount := s.ref page
    if 1 < refCount then
      match s.allocPage with
      | (none, s) => (-eNoMem, s)
      | (some newPage, s) =>
        let s := s.setPage newPage (s.word page)
        let perm := (s.read ptep &&& pteUser) ||| pteW
        let la := rounddown addr pgsize
        match s.pageInsert pgdir newPage la perm with
        | (ret, s) => if ret ≠ 0 then (ret, s.freePage newPage) else (0, s)
    else if refCount = 1 then
      let perm := (s.read ptep &&& pteUser) ||| pteW
      let la := rounddown addr pgsize
      match s.pageInsert pgdir page la perm with
      | (ret, s) => if ret ≠ 0 then (ret, s) else (0, s)
    else (-eInval, s)

def checkAndDoCow (mm : Mm) (addr : ℕ) (write : Bool) (s : State) : ℤ × State :=
  if !write then (0, s)
  else
    match s.getPte mm.pgdir addr false with
    | (none, s) => (-eInval, s)
    | (some ptep, s) =>
      if isCowPage (s.read ptep) then handleCowFault mm.pgdir addr ptep s
      else if !has (s.read ptep) pteW && has (s.read ptep) pteV then
        handleCowFault mm.pgdir addr ptep s
      else (0, s)

/-- The tables above the entry of an address exist, and the allocator does not own them. -/
structure Walk (s : State) (pgdir la pd0 pt : ℕ) : Prop where
  dirValid : has (s.word pgdir (pdx1 la)) pteV = true
  dir : pte2page (s.word pgdir (pdx1 la)) = pd0
  midValid : has (s.word pd0 (pdx0 la)) pteV = true
  mid : pte2page (s.word pd0 (pdx0 la)) = pt
  dirUsed : pgdir ∉ s.free
  midUsed : pd0 ∉ s.free
  leafUsed : pt ∉ s.free

section Tables

variable {s : State} {pgdir la pd0 pt q page perm : ℕ}

theorem pdx1_rounddown : pdx1 (rounddown la pgsize) = pdx1 la := by
  simp only [pdx1, Nat.shiftRight_eq_div_pow]
  congr 1
  unfold rounddown pgsize
  omega

theorem pdx0_rounddown : pdx0 (rounddown la pgsize) = pdx0 la := by
  simp only [pdx0, Nat.shiftRight_eq_div_pow]
  congr 1
  unfold rounddown pgsize
  omega

theorem ptx_rounddown : ptx (rounddown la pgsize) = ptx la := by
  simp only [ptx, Nat.shiftRight_eq_div_pow]
  congr 1
  unfold rounddown pgsize
  omega

theorem Walk.rounddown (h : Walk s pgdir la pd0 pt) :
    Walk s pgdir (rounddown la pgsize) pd0 pt where
  dirValid := by rw [pdx1_rounddown]; exact h.dirValid
  dir := by rw [pdx1_rounddown]; exact h.dir
  midValid := by rw [pdx0_rounddown]; exact h.midValid
  mid := by rw [pdx0_rounddown]; exact h.mid
  dirUsed := h.dirUsed
  midUsed := h.midUsed
  leafUsed := h.leafUsed

theorem Walk.getPte (h : Walk s pgdir la pd0 pt) (create : Bool) :
    s.getPte pgdir la create = (some (pt, ptx la), s) := by
  have h₁ : s.nextTable pgdir (pdx1 la) create = (some pd0, s) := by
    rw [State.nextTable, if_pos h.dirValid, h.dir]
  have h₂ : s.nextTable pd0 (pdx0 la) create = (some pt, s) := by
    rw [State.nextTable, if_pos h.midValid, h.mid]
  simp only [State.getPte, h₁, h₂]

theorem Walk.fill (h : Walk s pgdir la pd0 pt) (hq : q ∈ s.free) (l : List (Option ℕ))
    (f : ℕ → ℕ) :
    Walk (State.setPage { s with free := s.free.erase q, answers := l } q f) pgdir la pd0 pt ∧
      (State.setPage { s with free := s.free.erase q, answers := l } q f).read (pt, ptx la) =
        s.read (pt, ptx la) := by
  have hw : ∀ p, p ∉ s.free →
      (State.setPage { s with free := s.free.erase q, answers := l } q f).word p = s.word p := by
    intro p hp
    have hne : p ≠ q := fun e => hp (e ▸ hq)
    exact Function.update_of_ne hne _ _
  have hf : ∀ p, p ∉ s.free → p ∉ s.free.erase q := fun p hp hm => hp (Finset.mem_of_mem_erase hm)
  refine ⟨⟨?_, ?_, ?_, ?_, hf _ h.dirUsed, hf _ h.midUsed, hf _ h.leafUsed⟩, ?_⟩
  · rw [hw _ h.dirUsed]; exact h.dirValid
  · rw [hw _ h.dirUsed]; exact h.dir
  · rw [hw _ h.midUsed]; exact h.midValid
  · rw [hw _ h.midUsed]; exact h.mid
  · simp only [State.read, hw _ h.leafUsed]

theorem Walk.pageInsert (h : Walk s pgdir la pd0 pt) (page perm : ℕ) :
    ∃ t, s.pageInsert pgdir page la perm = (0, t) ∧
      t.read (pt, ptx la) = pteCreate page (pteV ||| perm) := by
  refine ⟨_, by simp only [State.pageInsert, h.getPte]; rfl, ?_⟩
  rw [State.read, State.write, setWord_word, if_pos ⟨rfl, rfl⟩]

end Tables

/-- The allocator has no page for a copy of this one. -/
def Short (s : State) (page : ℕ) : Prop := 1 < s.ref page ∧ s.allocPage.1 = none

instance (s : State) (page : ℕ) : Decidable (Short s page) := inferInstanceAs (Decidable (_ ∧ _))

section Handlers

variable {s : State} {pgdir la pd0 pt : ℕ}

theorem Short.allocPage {page : ℕ} (h : Short s page) :
    ∃ l, s.allocPage = (none, { s with answers := l }) := by
  rcases allocPage_cases s with he | ⟨q, l, -, he⟩
  · exact he
  · have hn := h.2
    rw [he] at hn
    exact absurd hn (by simp)

/-- The entry after a handler has given a page with permission `perm`. -/
def Granted (x : ℤ × State) (ptep : ℕ × ℕ) (perm : ℕ) : Prop :=
  x.1 = 0 ∧ ∃ p, x.2.read ptep = pteCreate p (pteV ||| perm)

theorem handleCowFault_short (pgdir : ℕ) (hV : has (s.read (pt, ptx la)) pteV = true)
    (hs : Short s (pte2page (s.read (pt, ptx la)))) :
    ∃ l, handleCowFault pgdir la (pt, ptx la) s = (-eNoMem, { s with answers := l }) := by
  obtain ⟨l, he⟩ := hs.allocPage
  refine ⟨l, ?_⟩
  simp only [handleCowFault, hV, Bool.not_true, Bool.false_eq_true, if_false, if_pos hs.1, he]

theorem handleCowFault_unmapped (hV : has (s.read (pt, ptx la)) pteV = true)
    (hr : s.ref (pte2page (s.read (pt, ptx la))) ≤ 0) :
    handleCowFault pgdir la (pt, ptx la) s = (-eInval, s) := by
  simp only [handleCowFault, hV, Bool.not_true, Bool.false_eq_true, if_false]
  rw [if_neg (by omega), if_neg (by omega)]

theorem handleCowFault_granted (h : Walk s pgdir la pd0 pt)
    (hV : has (s.read (pt, ptx la)) pteV = true)
    (hs : ¬ Short s (pte2page (s.read (pt, ptx la))))
    (hr : 0 < s.ref (pte2page (s.read (pt, ptx la)))) :
    Granted (handleCowFault pgdir la (pt, ptx la) s) (pt, ptx la)
      ((s.read (pt, ptx la) &&& pteUser) ||| pteW) := by
  simp only [handleCowFault, hV, Bool.not_true, Bool.false_eq_true, if_false]
  rcases lt_or_ge 1 (s.ref (pte2page (s.read (pt, ptx la)))) with h₁ | h₁
  · rw [if_pos h₁]
    rcases allocPage_cases s with ⟨l, he⟩ | ⟨q, l, hq, he⟩
    · exact absurd ⟨h₁, by rw [he]⟩ hs
    · obtain ⟨hw, hread⟩ := h.fill hq l (s.word (pte2page (s.read (pt, ptx la))))
      obtain ⟨t, ht, hp⟩ := hw.rounddown.pageInsert q ((s.read (pt, ptx la) &&& pteUser) ||| pteW)
      rw [ptx_rounddown] at hp
      simp only [he, hread, ht, ne_eq, not_true_eq_false, if_false]
      exact ⟨rfl, q, hp⟩
  · rw [if_neg (by omega), if_pos (by omega)]
    obtain ⟨t, ht, hp⟩ := h.rounddown.pageInsert (pte2page (s.read (pt, ptx la)))
      ((s.read (pt, ptx la) &&& pteUser) ||| pteW)
    rw [ptx_rounddown] at hp
    simp only [ht, ne_eq, not_true_eq_false, if_false]
    exact ⟨rfl, _, hp⟩

/-- The handler has changed nothing but the allocator's next answers. -/
def Failed (s : State) (x : ℤ × State) : Prop := x.1 ≠ 0 ∧ ∃ l, x.2 = { s with answers := l }

theorem handleCowFault_cases (h : Walk s pgdir la pd0 pt)
    (hV : has (s.read (pt, ptx la)) pteV = true) :
    (Short s (pte2page (s.read (pt, ptx la))) ∨ s.ref (pte2page (s.read (pt, ptx la))) ≤ 0) ∧
        Failed s (handleCowFault pgdir la (pt, ptx la) s) ∨
      ¬ (Short s (pte2page (s.read (pt, ptx la))) ∨ s.ref (pte2page (s.read (pt, ptx la))) ≤ 0) ∧
        Granted (handleCowFault pgdir la (pt, ptx la) s) (pt, ptx la)
          ((s.read (pt, ptx la) &&& pteUser) ||| pteW) := by
  by_cases hs : Short s (pte2page (s.read (pt, ptx la)))
  · obtain ⟨l, he⟩ := handleCowFault_short pgdir hV hs
    exact .inl ⟨.inl hs, by rw [he]; exact ⟨by simp [eNoMem], l, rfl⟩⟩
  · rcases lt_or_ge 0 (s.ref (pte2page (s.read (pt, ptx la)))) with hr | hr
    · exact .inr ⟨by simp [hs, hr], handleCowFault_granted h hV hs hr⟩
    · refine .inl ⟨.inr hr, ?_⟩
      rw [handleCowFault_unmapped hV hr]
      exact ⟨by simp [eInval], s.answers, rfl⟩

variable {perm : ℕ}

theorem copyOnWrite_plain (hC : has (s.read (pt, ptx la)) pteCow = false) :
    copyOnWrite pgdir la perm (pt, ptx la) s = (-eNoMem, s) := by
  simp only [copyOnWrite, hC, Bool.not_false, if_true]

theorem copyOnWrite_short (pgdir perm : ℕ) (hC : has (s.read (pt, ptx la)) pteCow = true)
    (hs : Short s (pte2page (s.read (pt, ptx la)))) :
    ∃ l, copyOnWrite pgdir la perm (pt, ptx la) s = (-eNoMem, { s with answers := l }) := by
  obtain ⟨l, he⟩ := hs.allocPage
  refine ⟨l, ?_⟩
  simp only [copyOnWrite, hC, Bool.not_true, Bool.false_eq_true, if_false, if_pos hs.1, he]

theorem copyOnWrite_granted (h : Walk s pgdir la pd0 pt)
    (hC : has (s.read (pt, ptx la)) pteCow = true)
    (hs : ¬ Short s (pte2page (s.read (pt, ptx la)))) :
    Granted (copyOnWrite pgdir la perm (pt, ptx la) s) (pt, ptx la) perm := by
  simp only [copyOnWrite, hC, Bool.not_true, Bool.false_eq_true, if_false]
  rcases lt_or_ge 1 (s.ref (pte2page (s.read (pt, ptx la)))) with h₁ | h₁
  · rw [if_pos h₁]
    rcases allocPage_cases s with ⟨l, he⟩ | ⟨q, l, hq, he⟩
    · exact absurd ⟨h₁, by rw [he]⟩ hs
    · obtain ⟨hw, -⟩ := h.fill hq l (s.word (pte2page (s.read (pt, ptx la))))
      obtain ⟨t, ht, hp⟩ := hw.pageInsert q perm
      simp only [he, ht, ne_eq, not_true_eq_false, if_false]
      exact ⟨rfl, q, hp⟩
  · rw [if_neg (by omega)]
    obtain ⟨t, ht, hp⟩ := h.pageInsert (pte2page (s.read (pt, ptx la))) perm
    rw [ht]
    exact ⟨rfl, _, hp⟩

theorem copyOnWrite_cases (perm : ℕ) (h : Walk s pgdir la pd0 pt) :
    (has (s.read (pt, ptx la)) pteCow = false ∨ Short s (pte2page (s.read (pt, ptx la)))) ∧
        Failed s (copyOnWrite pgdir la perm (pt, ptx la) s) ∨
      ¬ (has (s.read (pt, ptx la)) pteCow = false ∨ Short s (pte2page (s.read (pt, ptx la)))) ∧
        Granted (copyOnWrite pgdir la perm (pt, ptx la) s) (pt, ptx la) perm := by
  cases hC : has (s.read (pt, ptx la)) pteCow
  · refine .inl ⟨.inl rfl, ?_⟩
    rw [copyOnWrite_plain hC]
    exact ⟨by simp [eNoMem], s.answers, rfl⟩
  · by_cases hs : Short s (pte2page (s.read (pt, ptx la)))
    · obtain ⟨l, he⟩ := copyOnWrite_short pgdir perm hC hs
      exact .inl ⟨.inr hs, by rw [he]; exact ⟨by simp [eNoMem], l, rfl⟩⟩
    · exact .inr ⟨by simp [hs], copyOnWrite_granted h hC hs⟩

end Handlers

/-- A store through `check_and_do_cow` and one through `do_pgfault`, from `s`: both succeed or
both fail, memory, reference counts and allocator are the same afterwards, and a valid page with
neither `PTE_W` nor `PTE_COW` is not made writable. -/
structure Agree (s : State) (ptep : ℕ × ℕ) (x y : ℤ × State) : Prop where
  ret : x.1 = 0 ↔ y.1 = 0
  word : x.2.word = y.2.word
  ref : x.2.ref = y.2.ref
  free : x.2.free = y.2.free
  readOnly : has (s.read ptep) pteV = true → has (s.read ptep) pteW = false →
    has (s.read ptep) pteCow = false →
      has (x.2.read ptep) pteW = false ∧ has (y.2.read ptep) pteW = false

/-- The two handlers agree on a store to `addr`; a failed assertion of `do_pgfault` is no outcome
of `check_and_do_cow`. -/
def HandlersAgree (mm : Mm) (addr : ℕ) (ptep : ℕ × ℕ) (s : State) : Prop :=
  ∃ ret mm' t, doPgfault mm causeStorePageFault addr s = some (ret, mm', t) ∧
    Agree s ptep (checkAndDoCow mm addr true s) (ret, t)

/-- When the handlers agree, on an entry `pte` of an area with the given flags: nothing is to be
done and the area allows it, or both fail. -/
def AgreeWhen (s : State) (pte vmFlags : ℕ) : Prop :=
  if has pte pteV then
    if has pte pteW then has vmFlags vmWrite = true
    else Short s (pte2page pte) ∨
      s.ref (pte2page pte) ≤ 0 ∧ (has vmFlags vmWrite = false ∨ has pte pteCow = false)
  else has vmFlags vmWrite = true ∧ pte ≠ 0

section Agreement

variable {s : State} {mm : Mm} {vma : Vma} {addr pd0 pt vmFlags : ℕ} {ptep : ℕ × ℕ}

theorem vmaPerm_accessed : (vmaPerm vmFlags).testBit 6 = true := by
  unfold vmaPerm
  generalize has vmFlags vmWrite = w
  generalize has vmFlags vmRead = r
  generalize has vmFlags vmExec = x
  revert w r x
  decide

theorem userPerm_accessed {pte : ℕ} : ((pte &&& pteUser) ||| pteW).testBit 6 = false := by
  have h₁ : Nat.testBit pteUser 6 = false := by decide
  have h₂ : Nat.testBit pteW 6 = false := by decide
  rw [Nat.testBit_or, Nat.testBit_and, h₁, h₂]
  simp

theorem not_granted_both {x y : ℤ × State} {pte : ℕ}
    (hx : Granted x ptep ((pte &&& pteUser) ||| pteW)) (hy : Granted y ptep (vmaPerm vmFlags)) :
    x.2.word ≠ y.2.word := by
  intro hw
  obtain ⟨-, p, hp⟩ := hx
  obtain ⟨-, q, hq⟩ := hy
  have he : pteCreate p (pteV ||| ((pte &&& pteUser) ||| pteW)) =
      pteCreate q (pteV ||| vmaPerm vmFlags) := by
    rw [← hp, ← hq, State.read, State.read, hw]
  have hb := congrArg (fun w => Nat.testBit w 6) he
  have hV : Nat.testBit pteV 6 = false := by decide
  rw [testBit_pteCreate (by omega), testBit_pteCreate (by omega), Nat.testBit_or,
    userPerm_accessed, Nat.testBit_or, vmaPerm_accessed, hV] at hb
  simp at hb

theorem Failed.read {x : ℤ × State} (h : Failed s x) : x.2.read ptep = s.read ptep := by
  obtain ⟨-, l, he⟩ := h
  rw [he]
  rfl

/-- Two handlers that fail under `P` and `Q`, and else give a page each with its own permission,
agree when both fail. -/
theorem agree_iff {x y : ℤ × State} {pte : ℕ} {P Q : Prop}
    (hx : P ∧ Failed s x ∨ ¬ P ∧ Granted x ptep ((pte &&& pteUser) ||| pteW))
    (hy : Q ∧ Failed s y ∨ ¬ Q ∧ Granted y ptep (vmaPerm vmFlags)) :
    Agree s ptep x y ↔ P ∧ Q := by
  rcases hx with ⟨hP, hx⟩ | ⟨hP, hx⟩ <;> rcases hy with ⟨hQ, hy⟩ | ⟨hQ, hy⟩
  · refine ⟨fun _ => ⟨hP, hQ⟩, fun _ => ?_⟩
    obtain ⟨hx₁, l, hx₂⟩ := id hx
    obtain ⟨hy₁, l', hy₂⟩ := id hy
    refine ⟨iff_of_false hx₁ hy₁, ?_, ?_, ?_, fun _ hW _ => ?_⟩
    · rw [hx₂, hy₂]
    · rw [hx₂, hy₂]
    · rw [hx₂, hy₂]
    · rw [hx.read, hy.read]
      exact ⟨hW, hW⟩
  · exact iff_of_false (fun ha => hx.1 (ha.ret.mpr hy.1)) fun hc => hQ hc.2
  · exact iff_of_false (fun ha => hy.1 (ha.ret.mp hx.1)) fun hc => hP hc.1
  · exact iff_of_false (fun ha => not_granted_both hx hy ha.word) fun hc => hP hc.1

theorem checkAndDoCow_writable (h : Walk s mm.pgdir addr pd0 pt)
    (hw : has (s.read (pt, ptx addr)) pteV = false ∨ has (s.read (pt, ptx addr)) pteW = true) :
    checkAndDoCow mm addr true s = (0, s) := by
  rcases hw with hw | hw <;> simp [checkAndDoCow, h.getPte, isCowPage, hw]

theorem checkAndDoCow_readOnly (h : Walk s mm.pgdir addr pd0 pt)
    (hV : has (s.read (pt, ptx addr)) pteV = true)
    (hW : has (s.read (pt, ptx addr)) pteW = false) :
    checkAndDoCow mm addr true s = handleCowFault mm.pgdir addr (pt, ptx addr) s := by
  simp [checkAndDoCow, h.getPte, hV, hW]

theorem findVma_start (hf : (mm.findVma addr).1 = some vma) :
    vma.vmStart ≤ addr ∧ (mm.findVma addr).2.pgdir = mm.pgdir := by
  unfold Mm.findVma at hf ⊢
  split at hf
  · rename_i v hc
    rw [Option.filter_eq_some_iff] at hc
    obtain rfl := Option.some.inj hf
    exact ⟨(Vma.contains_iff.mp (by simpa using hc.2)).1, rfl⟩
  · split at hf
    · rename_i v hl
      obtain rfl := Option.some.inj hf
      exact ⟨(Vma.contains_iff.mp (by simpa using List.find?_some hl)).1, rfl⟩
    · exact absurd hf (by simp)

theorem doPgfault_denied (hf : (mm.findVma addr).1 = some vma)
    (hw : has vma.vmFlags vmWrite = false) :
    doPgfault mm causeStorePageFault addr s = some (-eInval, (mm.findVma addr).2, s) := by
  obtain ⟨hs, -⟩ := findVma_start hf
  rcases he : mm.findVma addr with ⟨v, m⟩
  rw [he] at hf
  obtain rfl : v = some vma := hf
  simp only [doPgfault, he, if_neg (not_lt.mpr hs), decide_true, Bool.true_and, hw, Bool.not_false,
    if_true]

theorem doPgfault_allowed (hf : (mm.findVma addr).1 = some vma)
    (hw : has vma.vmFlags vmWrite = true) :
    doPgfault mm causeStorePageFault addr s =
      (handleFault mm.pgdir (rounddown addr pgsize) (vmaPerm vma.vmFlags) true s).map
        fun x => (x.1, (mm.findVma addr).2, x.2) := by
  obtain ⟨hs, hd⟩ := findVma_start hf
  rcases he : mm.findVma addr with ⟨v, m⟩
  rw [he] at hf hd
  obtain rfl : v = some vma := hf
  change m.pgdir = mm.pgdir at hd
  simp only [doPgfault, he, if_neg (not_lt.mpr hs), decide_true, Bool.true_and, hw, Bool.not_true,
    Bool.false_eq_true, if_false]
  rw [hd]
  cases handleFault mm.pgdir (rounddown addr pgsize) (vmaPerm vma.vmFlags) true s <;> rfl

variable {perm : ℕ}

theorem handleFault_mapped (h : Walk s mm.pgdir addr pd0 pt)
    (hz : s.read (pt, ptx addr) ≠ 0)
    (hw : has (s.read (pt, ptx addr)) pteV = false ∨ has (s.read (pt, ptx addr)) pteW = true) :
    handleFault mm.pgdir (rounddown addr pgsize) perm true s = some (0, s) := by
  have hg := h.rounddown.getPte true
  rw [ptx_rounddown] at hg
  rcases hw with hw | hw <;> simp [handleFault, hg, hz, hw]

theorem handleFault_readOnly (h : Walk s mm.pgdir addr pd0 pt)
    (hV : has (s.read (pt, ptx addr)) pteV = true)
    (hW : has (s.read (pt, ptx addr)) pteW = false) :
    handleFault mm.pgdir (rounddown addr pgsize) perm true s =
      some (copyOnWrite mm.pgdir (rounddown addr pgsize) perm (pt, ptx addr) s) := by
  have hg := h.rounddown.getPte true
  rw [ptx_rounddown] at hg
  have hz : s.read (pt, ptx addr) ≠ 0 := by
    intro hz
    rw [hz] at hV
    simp at hV
  simp [handleFault, hg, hz, hV, hW]

theorem handleFault_empty (h : Walk s mm.pgdir addr pd0 pt) (hz : s.read (pt, ptx addr) = 0)
    {x : ℤ × State} (hx : handleFault mm.pgdir (rounddown addr pgsize) perm true s = some x) :
    x.1 = -eNoMem ∨ has (x.2.read (pt, ptx addr)) pteV = true := by
  have hg := h.rounddown.getPte true
  rw [ptx_rounddown] at hg
  simp only [handleFault, hg, if_pos hz, State.pgdirAllocPage] at hx
  rcases allocPage_cases s with ⟨l, he⟩ | ⟨q, l, hq, he⟩
  · left
    simp only [he] at hx
    obtain rfl := Option.some.inj hx
    rfl
  · right
    have hw : Walk { s with free := s.free.erase q, answers := l } mm.pgdir addr pd0 pt := by
      have := (h.fill hq l (s.word q)).1
      simpa [State.setPage] using this
    obtain ⟨t, ht, hp⟩ := hw.rounddown.pageInsert q perm
    rw [ptx_rounddown] at hp
    simp only [he, ht, ne_eq, not_true_eq_false, if_false] at hx
    by_cases hr : t.ref q = 1
    · rw [if_pos hr] at hx
      obtain rfl := Option.some.inj hx
      change has (t.read (pt, ptx addr)) pteV = true
      rw [hp, has_pteV_pteCreate]
    · rw [if_neg hr] at hx
      exact absurd hx (by simp)

theorem handlersAgree_of {ret : ℤ} {mm' : Mm} {t : State}
    (hp : doPgfault mm causeStorePageFault addr s = some (ret, mm', t)) :
    HandlersAgree mm addr ptep s ↔ Agree s ptep (checkAndDoCow mm addr true s) (ret, t) := by
  constructor
  · rintro ⟨ret', mm'', t', hp', ha⟩
    rw [hp] at hp'
    obtain ⟨rfl, rfl, rfl⟩ : ret = ret' ∧ mm' = mm'' ∧ t = t' := by simpa using hp'
    exact ha
  · exact fun ha => ⟨ret, mm', t, hp, ha⟩

theorem handlersAgree_writable (hf : (mm.findVma addr).1 = some vma)
    (h : Walk s mm.pgdir addr pd0 pt)
    (hw : has (s.read (pt, ptx addr)) pteV = false ∨ has (s.read (pt, ptx addr)) pteW = true) :
    HandlersAgree mm addr (pt, ptx addr) s ↔
      has vma.vmFlags vmWrite = true ∧ s.read (pt, ptx addr) ≠ 0 := by
  cases hv : has vma.vmFlags vmWrite
  · rw [handlersAgree_of (doPgfault_denied hf hv), checkAndDoCow_writable h hw]
    exact iff_of_false (fun ha => absurd (ha.ret.mp rfl) (by simp [eInval])) (by simp)
  · by_cases hz : s.read (pt, ptx addr) = 0
    · refine iff_of_false ?_ (by simp [hz])
      rintro ⟨ret, mm', t, hp, ha⟩
      rw [doPgfault_allowed hf hv, Option.map_eq_some_iff] at hp
      obtain ⟨x, hx, he⟩ := hp
      obtain ⟨rfl, -, rfl⟩ : x.1 = ret ∧ (mm.findVma addr).2 = mm' ∧ x.2 = t := by simpa using he
      rw [checkAndDoCow_writable h hw] at ha
      rcases handleFault_empty h hz hx with hr | hr
      · have h₀ : x.1 = 0 := ha.ret.mp rfl
        rw [hr] at h₀
        exact absurd h₀ (by decide)
      · have h₀ : x.2.read (pt, ptx addr) = s.read (pt, ptx addr) := by
          rw [State.read, State.read]
          exact congrFun (congrFun ha.word.symm _) _
        rw [h₀, hz] at hr
        simp at hr
    · have hp := doPgfault_allowed (s := s) hf hv
      rw [handleFault_mapped h hz hw] at hp
      rw [handlersAgree_of hp, checkAndDoCow_writable h hw]
      refine iff_of_true ⟨Iff.rfl, rfl, rfl, rfl, fun hV hW _ => ?_⟩ ⟨rfl, hz⟩
      exact ⟨hW, hW⟩

theorem handlersAgree_readOnly (hf : (mm.findVma addr).1 = some vma)
    (h : Walk s mm.pgdir addr pd0 pt)
    (hV : has (s.read (pt, ptx addr)) pteV = true)
    (hW : has (s.read (pt, ptx addr)) pteW = false) :
    HandlersAgree mm addr (pt, ptx addr) s ↔
      (Short s (pte2page (s.read (pt, ptx addr))) ∨
        s.ref (pte2page (s.read (pt, ptx addr))) ≤ 0) ∧
      (has vma.vmFlags vmWrite = false ∨ has (s.read (pt, ptx addr)) pteCow = false ∨
        Short s (pte2page (s.read (pt, ptx addr)))) := by
  have hx := handleCowFault_cases h hV
  cases hv : has vma.vmFlags vmWrite
  · have hy : True ∧ Failed s (-eInval, s) ∨
        ¬ True ∧ Granted (-eInval, s) (pt, ptx addr) (vmaPerm vma.vmFlags) :=
      .inl ⟨trivial, by simp [eInval], s.answers, rfl⟩
    rw [handlersAgree_of (doPgfault_denied hf hv), checkAndDoCow_readOnly h hV hW, agree_iff hx hy]
    simp
  · have hy := copyOnWrite_cases (vmaPerm vma.vmFlags) h.rounddown
    rw [ptx_rounddown] at hy
    have hp := doPgfault_allowed (s := s) hf hv
    rw [handleFault_readOnly h hV hW] at hp
    rw [handlersAgree_of hp, checkAndDoCow_readOnly h hV hW, agree_iff hx hy]
    simp

/-- The handlers agree exactly when nothing is to be done and the area allows it, or both fail:
for every entry, with every flags of its area and every reference count. -/
theorem handlersAgree_iff (hf : (mm.findVma addr).1 = some vma)
    (h : Walk s mm.pgdir addr pd0 pt) :
    HandlersAgree mm addr (pt, ptx addr) s ↔ AgreeWhen s (s.read (pt, ptx addr)) vma.vmFlags := by
  unfold AgreeWhen
  split_ifs with hV hW
  · rw [handlersAgree_writable hf h (.inr hW)]
    have hz : s.read (pt, ptx addr) ≠ 0 := by
      intro hz
      rw [hz] at hV
      simp at hV
    simp [hz]
  · rw [handlersAgree_readOnly hf h hV (by simpa using hW)]
    tauto
  · exact handlersAgree_writable hf h (.inl (by simpa using hV))

end Agreement

/-- An area of one page at `0x800000`. -/
def onePageMm (vmFlags : ℕ) : Mm := ⟨[⟨0x800000, 0x801000, vmFlags⟩], none, 1⟩

/-- The tables in the pages 1, 2 and 3, with one entry, for page 5. -/
def onePage (perm : ℕ) : State where
  word p i :=
    if p = 1 ∧ i = 0 then pteCreate 2 0
    else if p = 2 ∧ i = 4 then pteCreate 3 0
    else if p = 3 ∧ i = 0 then pteCreate 5 perm else 0
  ref p := if p ≤ 5 ∧ p ≠ 4 then 1 else 0
  free := {4}
  answers := [some 4]
  freed := []

/-- The entry of a writable page, which both handlers leave alone. -/
theorem handlersAgree_iff_data : HandlersAgree (onePageMm (vmRead ||| vmWrite)) 0x800000 (3, 0)
    (onePage (pteU ||| pteR ||| pteW ||| pteA ||| pteD)) := by
  have hf : ((onePageMm (vmRead ||| vmWrite)).findVma 0x800000).1 =
      some ⟨0x800000, 0x801000, vmRead ||| vmWrite⟩ := by decide
  have hw : Walk (onePage (pteU ||| pteR ||| pteW ||| pteA ||| pteD)) 1 0x800000 2 3 :=
    ⟨by decide, by decide, by decide, by decide, by decide, by decide, by decide⟩
  refine (handlersAgree_iff hf hw).mpr ?_
  unfold AgreeWhen
  decide

/-- A store to a page of code: `do_pgfault` refuses it, `check_and_do_cow` makes the page
writable. -/
theorem handlersAgree_not :
    (doPgfault (onePageMm (vmRead ||| vmExec)) causeStorePageFault 0x800000
      (onePage (pteU ||| pteR ||| pteX ||| pteA))).map (fun x => x.1) = some (-eInval) ∧
    (checkAndDoCow (onePageMm (vmRead ||| vmExec)) 0x800000 true
      (onePage (pteU ||| pteR ||| pteX ||| pteA))).1 = 0 ∧
    has ((checkAndDoCow (onePageMm (vmRead ||| vmExec)) 0x800000 true
      (onePage (pteU ||| pteR ||| pteX ||| pteA))).2.read (3, 0)) pteW = true ∧
    ¬ HandlersAgree (onePageMm (vmRead ||| vmExec)) 0x800000 (3, 0)
      (onePage (pteU ||| pteR ||| pteX ||| pteA)) := by
  have hp : (doPgfault (onePageMm (vmRead ||| vmExec)) causeStorePageFault 0x800000
      (onePage (pteU ||| pteR ||| pteX ||| pteA))).map (fun x => x.1) = some (-eInval) := by decide
  have hc : (checkAndDoCow (onePageMm (vmRead ||| vmExec)) 0x800000 true
      (onePage (pteU ||| pteR ||| pteX ||| pteA))).1 = 0 := by decide
  refine ⟨hp, hc, by decide, ?_⟩
  rintro ⟨ret, mm', t, he, ha⟩
  rw [he] at hp
  obtain rfl : ret = -eInval := by simpa using hp
  exact absurd (ha.ret.mp hc) (by simp [eInval])

end UCore.Cow

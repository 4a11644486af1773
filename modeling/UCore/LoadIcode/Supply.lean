import Mathlib.Order.Interval.Finset.Nat
import UCore.LoadIcode.Headers

/-! # Memory for the stack

When `alloc_page` has pages, a store to the stack succeeds: a fault enters a new page, which is
writable from then on, so that there are as many faults as pages.
-/

namespace UCore.LoadIcode

open Library PageTable Cow Fork UserMem Vmm

/-- The next `n` calls of `alloc_page` return pages. -/
def Supplies : ℕ → State → Prop
  | 0, _ => True
  | n + 1, s => s.allocPage.1.isSome = true ∧ Supplies n s.allocPage.2

/-! ## Pages for one fault -/

section Supply

variable {s t : State} {m n a i d la perm page : ℕ}

theorem Supplies.congr (h : Supplies n s) (hans : t.answers = s.answers) (hfree : s.free ⊆ t.free) :
    Supplies n t := by
  induction n generalizing s t with
  | zero => trivial
  | succ n ih =>
    obtain ⟨hsome, hrest⟩ := h
    unfold State.allocPage at hsome hrest
    unfold Supplies State.allocPage
    rw [hans]
    rcases hs : s.answers with _ | ⟨_ | p, l⟩
    · simp [hs] at hsome
    · simp [hs] at hsome
    · rw [hs] at hsome hrest
      dsimp only at hsome hrest ⊢
      split at hsome
      · rename_i hp
        rw [if_pos hp] at hrest
        rw [if_pos (hfree hp)]
        exact ⟨rfl, ih hrest rfl (Finset.erase_subset_erase _ hfree)⟩
      · simp at hsome

theorem Supplies.mono (h : Supplies n s) (hle : m ≤ n) : Supplies m s := by
  induction m generalizing n s with
  | zero => trivial
  | succ m ih =>
    obtain ⟨k, rfl⟩ : ∃ k, n = k + 1 := ⟨n - 1, by omega⟩
    exact ⟨h.1, ih h.2 (by omega)⟩

theorem Supplies.alloc (h : Supplies (n + 1) s) : ∃ q t, s.allocPage = (some q, t) ∧
    Supplies n t := by
  obtain ⟨hsome, hrest⟩ := h
  obtain ⟨q, hq⟩ := Option.isSome_iff_exists.mp hsome
  exact ⟨q, _, Prod.ext hq rfl, hrest⟩

theorem supplies_of_nodup {qs : List ℕ} (hans : s.answers = qs.map some) (hnodup : qs.Nodup)
    (hfree : ∀ q ∈ qs, q ∈ s.free) : Supplies qs.length s := by
  induction qs generalizing s with
  | nil => trivial
  | cons q qs ih =>
    obtain ⟨hq, hqs⟩ := List.nodup_cons.mp hnodup
    have hs : s.allocPage =
      (some q, { s with free := s.free.erase q, answers := qs.map some }) := by
      unfold State.allocPage
      rw [hans]
      exact if_pos (hfree q List.mem_cons_self)
    change s.allocPage.1.isSome = true ∧ Supplies qs.length s.allocPage.2
    rw [hs]
    refine ⟨rfl, ih rfl hqs fun p hp =>
      Finset.mem_erase.mpr ⟨?_, hfree p (List.mem_cons_of_mem _ hp)⟩⟩
    rintro rfl
    exact hq hp

theorem Supplies.nextTable (h : Supplies (n + 1) s) (a i : ℕ) :
    ∃ p t, s.nextTable a i true = (some p, t) ∧ Supplies n t := by
  unfold State.nextTable
  split
  · exact ⟨_, s, rfl, h.mono (Nat.le_succ n)⟩
  · obtain ⟨q, t, hs, ht⟩ := h.alloc
    rw [if_neg (by simp), hs]
    exact ⟨_, _, rfl, ht.congr rfl subset_rfl⟩

theorem Supplies.getPte (h : Supplies (n + 2) s) (d la : ℕ) :
    ∃ ptep t, s.getPte d la true = (some ptep, t) ∧ Supplies n t := by
  unfold State.getPte
  obtain ⟨p, t, hs, ht⟩ := h.nextTable d (pdx1 la)
  rw [hs]
  dsimp only
  obtain ⟨q, u, hs', hu⟩ := ht.nextTable p (pdx0 la)
  rw [hs']
  exact ⟨_, u, rfl, hu⟩

theorem Supplies.pageRemovePte (h : Supplies n s) (ptep : ℕ × ℕ) :
    Supplies n (s.pageRemovePte ptep) := by
  unfold State.pageRemovePte
  split
  · dsimp only
    split
    · exact h.congr rfl (Finset.subset_insert _ _)
    · exact h.congr rfl subset_rfl
  · exact h

theorem Supplies.pageInsert (h : Supplies (n + 2) s) (d page la perm : ℕ) :
    ∃ t, s.pageInsert d page la perm = (0, t) ∧ Supplies n t := by
  unfold State.pageInsert
  obtain ⟨ptep, t, hs, ht⟩ := h.getPte d la
  rw [hs]
  refine ⟨_, rfl, ?_⟩
  have hinc : Supplies n (t.pageRefInc page) := ht.congr rfl subset_rfl
  split
  · split
    · exact hinc.congr rfl subset_rfl
    · exact (hinc.pageRemovePte ptep).congr rfl subset_rfl
  · exact hinc.congr rfl subset_rfl

theorem Supplies.pgdirAllocPage {o : Option ℕ} (h : Supplies (n + 3) s)
    (he : s.pgdirAllocPage d la perm = some (o, t)) : o.isSome = true ∧ Supplies n t := by
  unfold State.pgdirAllocPage at he
  obtain ⟨q, u, hs, hu⟩ := h.alloc
  rw [hs] at he
  obtain ⟨v, hi, hv⟩ := hu.pageInsert d q la perm
  dsimp only at he
  rw [hi] at he
  simp only [ne_eq, not_true_eq_false, if_false] at he
  split at he
  · obtain ⟨rfl, rfl⟩ : some q = o ∧ v = t := by simpa using he
    exact ⟨rfl, hv⟩
  · cases he

end Supply

/-! ## Entries after a fault -/

section Entries

variable {s t : State} {R : ℕ → Role} {D : Finset ℕ} {n d q v la addr perm : ℕ}
    {mm : Mm} {vma : Vma}
  {write : Bool}

theorem pgdirAllocPage_pte (c : CowInv s R D) (hd : d ∈ D) (hla : isVpn (la / pgsize))
    (hperm : perm < 1024) (he : s.pgdirAllocPage d la perm = some (some q, t)) (hv : isVpn v) :
    t.pte d v = setEntry s.pte d (la / pgsize) (leafEntry q perm) d v := by
  unfold State.pgdirAllocPage at he
  rcases allocPage_cases s with ⟨l, hs⟩ | ⟨p, l, hp, hs⟩
  · rw [hs] at he
    cases he
  · rw [hs, ← take_self] at he
    have hp := (c.inv.wf.free p).mpr hp
    obtain ⟨ret, u, R', hi, ⟨rfl, -, -⟩ | ⟨rfl, e⟩⟩ :=
      pageInsert_spec (c.inv.takeUser hp (f := s.word p) (l := l)) hd hla
        (Function.update_self ..) hperm
    · dsimp only at he
      rw [hi] at he
      cases he
    · dsimp only at he
      rw [hi] at he
      simp only [ne_eq, not_true_eq_false, if_false] at he
      split at he
      · obtain ⟨rfl, rfl⟩ : p = q ∧ u = t := by simpa using he
        rw [e.pte d hd v hv]
        unfold setEntry
        rw [take_pte hp c.inv.wf (.inl rfl) ((c.inv.dirs d).mpr hd) hv]
      · cases he

theorem handleFault_supplied (la perm : ℕ) (write : Bool) (c : CowInv s R D) (hd : d ∈ D)
    (hla : isVpn (la / pgsize)) (hperm : perm < 1024) (hcow : has perm pteCow = false)
    (hz : s.pte d (la / pgsize) = 0)
    (hn : Supplies (n + 5) s) : ∃ q t, handleFault d la perm write s = some (0, t) ∧ Supplies n t ∧
      ∀ v, isVpn v → t.pte d v = setEntry s.pte d (la / pgsize) (leafEntry q perm) d v := by
  have hroot := (c.inv.dirs d).mpr hd
  have hcow' : has perm pteCow = true → has perm pteW = false := by simp [hcow]
  obtain ⟨o, u, R', hget, w⟩ := getPte_spec true c.inv.wf hroot hla
  obtain ⟨ptep, u', hget', hu⟩ := Supplies.getPte (n := n + 3) hn d la
  rw [hget] at hget'
  obtain ⟨ho, rfl⟩ := Prod.mk.inj hget'
  have hpte : ∀ v, isVpn v → u.pte d v = s.pte d v := fun v hv => w.grow.pte d v hroot hv
  have cu := (c.acts_grow w.grow).cow
  unfold handleFault
  rw [hget]
  cases o with
  | none => cases ho
  | some l =>
    have hread : u.read (l, idx (la / pgsize)) = 0 := by
      rw [← hz, ← hpte _ hla]
      exact (cu.inv.wf.pte_leaf (w.found l rfl)).symm
    simp only [Option.map_some]
    rw [if_pos hread]
    obtain ⟨o, t, R'', hs, -⟩ := pgdirAllocPage_spec cu hd hla hperm hcow'
    obtain ⟨hsome, ht⟩ := hu.pgdirAllocPage hs
    obtain ⟨q, rfl⟩ := Option.isSome_iff_exists.mp hsome
    rw [hs]
    refine ⟨q, t, rfl, ht, fun v hv => ?_⟩
    rw [pgdirAllocPage_pte cu hd hla hperm hs hv]
    unfold setEntry
    rw [hpte v hv]

theorem isVpn_of_user (h : v < usertop / pgsize) : isVpn v ∧ v < reach := by
  unfold usertop pgsize at h
  unfold isVpn userPart idx1 reach
  omega

theorem Held.alloc_pte (h : Held d s) (hla : la < usertop) (hperm : perm < 1024)
    (he : s.pgdirAllocPage d la perm = some (some q, t)) (hv : v < usertop / pgsize) :
    t.pte d v = setEntry s.pte d (la / pgsize) (leafEntry q perm) d v := by
  obtain ⟨R, D, c, hd⟩ := h
  exact pgdirAllocPage_pte c hd (isVpn_of_reach (reach_of_lt hla)) hperm he (isVpn_of_user hv).1

theorem Held.fault_supplied (h : Held mm.pgdir s) (hok : mm.Ok)
    (hfind : (mm.findVma addr).1 = some vma) (hw : has vma.vmFlags vmWrite = true)
    (hz : s.pte mm.pgdir (addr / pgsize) = 0) (hn : Supplies (n + 5) s) :
    ∃ q mm' t, doPgfault mm causeStorePageFault addr s = some (0, mm', t) ∧ Supplies n t ∧
      ∀ v < usertop / pgsize, t.pte mm.pgdir v = setEntry s.pte mm.pgdir (addr / pgsize)
        (leafEntry q (vmaPerm vma.vmFlags)) mm.pgdir v := by
  obtain ⟨hsame, hfound⟩ := findVma_spec addr hok
  obtain ⟨hvma, hc⟩ := hfound vma hfind
  obtain ⟨hstart, hend⟩ := Vma.contains_iff.mp hc
  have htop : addr < usertop := hend.trans_le (hok.vmas vma hvma).user.2.2
  obtain ⟨hperm, hcow, -⟩ := vmaPerm_spec vma.vmFlags
  obtain ⟨R, D, c, hd⟩ := h
  have hround : rounddown addr pgsize / pgsize = addr / pgsize := by
    unfold rounddown pgsize
    omega
  obtain ⟨q, t, hs, ht, hpte⟩ := handleFault_supplied (rounddown addr pgsize)
    (vmaPerm vma.vmFlags) (causeStorePageFault = causeStorePageFault) c hd
    (by rw [hround]; exact isVpn_of_reach (reach_of_lt htop)) hperm hcow (by rw [hround, hz]) hn
  rw [hround] at hpte
  refine ⟨q, (mm.findVma addr).2, t, ?_, ht, fun v hv => hpte v (isVpn_of_user hv).1⟩
  have hpg := hsame.pgdir
  unfold doPgfault
  generalize mm.findVma addr = r at hfind hpg
  obtain ⟨v, mm'⟩ := r
  obtain rfl : v = some vma := hfind
  dsimp only at hpg ⊢
  rw [if_neg (by omega), if_neg (by simp [hw]), hpg, hs]

end Entries

/-! ## The pages of the stack -/

def stackPages : Finset ℕ := Finset.Ico (stackBase / pgsize) (usertop / pgsize)

/-- The pages of the stack without an entry. -/
def missing (d : ℕ) (m : State) : Finset ℕ := stackPages.filter fun v => m.pte d v = 0

def Writable (w : ℕ) : Prop := has w pteV = true ∧ has w pteW = true

/-- The stack is a writable area, its entries permit stores, and the allocator has memory for the
missing ones and `n` more pages. -/
structure Supplied (d n : ℕ) (s : Loader) : Prop where
  ready : Ready d s
  areas : Areas s.mm.mm
  area : ∃ vma ∈ s.mm.mm.mmapList, vma.vmStart = stackBase ∧ vma.vmEnd = usertop ∧
    has vma.vmFlags vmWrite = true
  entries : ∀ v ∈ stackPages, s.mem.pte d v = 0 ∨ Writable (s.mem.pte d v)
  supply : Supplies (5 * (missing d s.mem).card + n) s.mem

section Stack

variable {s t : Loader} {d n v w addr : ℕ} {m m' : State}

theorem mem_stackPages (hlow : stackBase ≤ addr) (hhigh : addr < usertop) :
    addr / pgsize ∈ stackPages := by
  unfold stackPages stackBase usertop pgsize at *
  rw [Finset.mem_Ico]
  omega

theorem lt_of_stackPages (h : v ∈ stackPages) : v < usertop / pgsize := (Finset.mem_Ico.mp h).2

theorem Writable.ne_zero (h : Writable w) : w ≠ 0 := by
  rintro rfl
  exact absurd h.1 (by decide)

theorem missing_of_entry (h : ∀ x < usertop / pgsize, m'.pte d x = setEntry m.pte d v w d x)
    (hw : Writable w) : missing d m' = (missing d m).erase v := by
  ext x
  unfold missing
  rw [Finset.mem_erase, Finset.mem_filter, Finset.mem_filter]
  constructor
  · rintro ⟨hx, hz⟩
    rw [h x (lt_of_stackPages hx)] at hz
    unfold setEntry at hz
    split at hz
    · exact absurd hz hw.ne_zero
    · rename_i hne
      exact ⟨fun he => hne ⟨rfl, he⟩, hx, hz⟩
  · rintro ⟨hne, hx, hz⟩
    rw [h x (lt_of_stackPages hx), setEntry, if_neg fun he => hne he.2]
    exact ⟨hx, hz⟩

theorem entries_of_entry (h : ∀ x < usertop / pgsize, m'.pte d x = setEntry m.pte d v w d x)
    (hw : Writable w) (hold : ∀ x ∈ stackPages, m.pte d x = 0 ∨ Writable (m.pte d x)) :
    ∀ x ∈ stackPages, m'.pte d x = 0 ∨ Writable (m'.pte d x) := by
  intro x hx
  rw [h x (lt_of_stackPages hx)]
  unfold setEntry
  split
  · exact .inr hw
  · exact hold x hx

theorem stackPage_returns {k : UInt64} (h : Supplied d (n + 3) s)
    (hhigh : (ustacktop - k * pageSize).toNat < usertop) :
    ∃ t, stackPage k s = .ok ((), t) ∧ Supplied d n t ∧ t.kmallocs = s.kmallocs := by
  have hperm : pteUser < 1024 := by decide
  have hcow : has pteUser pteCow = true → has pteUser pteW = false := by decide
  obtain ⟨o, m, hs, hres⟩ := h.ready.held.alloc (reach_of_lt hhigh) hperm hcow
  obtain ⟨hsome, hm⟩ := Supplies.pgdirAllocPage (n := 5 * (missing d s.mem).card + n) h.supply hs
  obtain ⟨q, rfl⟩ := Option.isSome_iff_exists.mp hsome
  have hpte := fun x hx => h.ready.held.alloc_pte (v := x) hhigh hperm hs hx
  have hw : Writable (leafEntry q pteUser) :=
    ⟨has_leafEntry, by rw [has_pteW_leafEntry]; decide⟩
  have hheld : Held d m := by
    rcases hres with ⟨hx, -⟩ | ⟨p, f, -, -, hx⟩
    · cases hx
    · exact hx.1
  have hrun : pgdirAllocPage (ustacktop - k * pageSize) pteUser s = .ok (some q, s.setMem m) := by
    unfold pgdirAllocPage
    rw [if_neg, h.ready.pgdir, hs]
    rw [pdx1_of_lt (hhigh.trans (by decide))]
    unfold usertop at hhigh
    omega
  refine ⟨s.setMem m, ?_, ⟨⟨hheld, h.ready.pgdir, h.ready.ok⟩, h.areas, h.area,
    entries_of_entry hpte hw h.entries, hm.mono ?_⟩, rfl⟩
  · unfold stackPage
    rw [Code.bind_ok hrun]
    exact Code.assert_true rfl
  · change 5 * (missing d m).card + n ≤ _
    rw [missing_of_entry hpte hw]
    have := Finset.card_erase_le (s := missing d s.mem)
      (a := (ustacktop - k * pageSize).toNat / pgsize)
    omega

theorem Supplied.find (h : Supplied d n s) (hlow : stackBase ≤ addr) (hhigh : addr < usertop) :
    ∃ vma, (s.mm.mm.findVma addr).1 = some vma ∧ has vma.vmFlags vmWrite = true := by
  obtain ⟨vma, hv, hstart, hend, hw⟩ := h.area
  refine ⟨vma, h.areas.find_iff.mpr ⟨hv, Vma.contains_iff.mpr ?_⟩, hw⟩
  rw [hstart, hend]
  exact ⟨hlow, hhigh⟩

/-- A fault at a page without an entry. -/
theorem pageFault_returns (h : Supplied d n s) (hlow : stackBase ≤ addr) (hhigh : addr < usertop)
    (hz : s.mem.pte d (addr / pgsize) = 0) :
    ∃ t, pageFault addr s = .ok ((), t) ∧ Supplied d n t ∧ permitted t.mem d addr true = true := by
  obtain ⟨hready, hareas, harea, hentries, hsupply⟩ := id h
  obtain ⟨vma, hfind, hwrite⟩ := h.find hlow hhigh
  obtain rfl := hready.pgdir
  obtain ⟨-, -, hw⟩ := vmaPerm_spec vma.vmFlags
  have hmem : addr / pgsize ∈ missing s.mm.mm.pgdir s.mem :=
    Finset.mem_filter.mpr ⟨mem_stackPages hlow hhigh, hz⟩
  have hcard := Finset.card_erase_add_one hmem
  obtain ⟨q, mm', m, hrun, hm, hpte⟩ := hready.held.fault_supplied
    (n := 5 * ((missing s.mm.mm.pgdir s.mem).erase (addr / pgsize)).card + n) hready.ok
      hfind hwrite hz
    (hsupply.mono (by omega))
  have hnew : Writable (leafEntry q (vmaPerm vma.vmFlags)) :=
    ⟨has_leafEntry, by rw [has_pteW_leafEntry, hw hwrite]⟩
  obtain ⟨ret, mm₁, m₁, hrun₁, hsame, hshows⟩ :=
    hready.held.fault causeStorePageFault addr hready.ok
  rw [hrun] at hrun₁
  obtain ⟨rfl, rfl, rfl⟩ : 0 = ret ∧ mm' = mm₁ ∧ m = m₁ := by simpa using hrun₁
  have hheld : Held s.mm.mm.pgdir m := by
    rcases hshows with hx | ⟨-, f, hx⟩
    · exact hx.1
    · exact hx.1
  have hp : permitted m s.mm.mm.pgdir addr true = true := by
    have hlt := lt_of_stackPages (mem_stackPages hlow hhigh)
    unfold permitted
    rw [userPte_of_lt hhigh, hpte _ hlt, setEntry, if_pos ⟨rfl, rfl⟩, hnew.1]
    exact hnew.2
  have hpg := hsame.pgdir
  refine ⟨{ s with mm := { s.mm with mm := mm' }, mem := m }, ?_,
    ⟨⟨hheld, hpg, hsame.ok⟩, ?_, ?_, ?_, ?_⟩, hp⟩
  · unfold pageFault
    rw [hrun]
    dsimp only
    rw [hpg, if_pos ⟨rfl, hp⟩]
  · refine ⟨?_, hsame.ok.cache⟩
    change Apart _ _ mm'.mmapList
    rw [hsame.list]
    exact hareas.apart
  · change ∃ vma ∈ mm'.mmapList, _
    rw [hsame.list]
    exact harea
  · exact entries_of_entry hpte hnew hentries
  · change Supplies (5 * (missing s.mm.mm.pgdir m).card + n) m
    rw [missing_of_entry hpte hnew]
    exact hm

theorem Supplied.store (h : Supplied d n s) (hhigh : addr < usertop)
    (hp : permitted s.mem d addr true = true) (f : ℕ → ℕ) :
    Supplied d n (s.setMem (s.mem.setPage (pte2page (userPte s.mem d addr)) f)) := by
  have hstored : Stored d addr (fun _ => f) s _ := stored_of_permitted h.ready hhigh hp
  have hpte : ∀ v ∈ stackPages,
      (s.mem.setPage (pte2page (userPte s.mem d addr)) f).pte d v = s.mem.pte d v := by
    obtain ⟨R, D, c, hd⟩ := h.ready.held
    rw [permitted, Bool.and_eq_true] at hp
    rw [userPte_of_lt hhigh] at hp ⊢
    have hu := c.inv.mapped (mapped_of hd (isVpn_of_reach (reach_of_lt hhigh)) ⟨hp.1, rfl⟩)
    exact fun v hv => pte_setPage c hd hu (isVpn_of_user (lt_of_stackPages hv)).2
  refine ⟨hstored.ready, h.areas, h.area, fun v hv => ?_, ?_⟩
  · change State.pte (s.mem.setPage _ f) d v = 0 ∨ Writable (State.pte (s.mem.setPage _ f) d v)
    rw [hpte v hv]
    exact h.entries v hv
  · have hmissing : missing d (s.mem.setPage (pte2page (userPte s.mem d addr)) f) =
      missing d s.mem :=
      Finset.filter_congr fun v hv => by rw [hpte v hv]
    change Supplies (5 * (missing d (s.mem.setPage _ f)).card + n) _
    rw [hmissing]
    exact h.supply.congr rfl subset_rfl

theorem storeUser_returns (change : (ℕ → ℕ) → ℕ → ℕ) (h : Supplied d n s) (hlow : stackBase ≤ addr)
    (hhigh : addr < usertop) : ∃ t, storeUser addr change s = .ok ((), t) ∧ Supplied d n t := by
  unfold storeUser
  rw [Code.bind_ok (Code.get_run (s := s)), h.ready.pgdir]
  rcases h.entries _ (mem_stackPages hlow hhigh) with hz | hw
  · have hp : ¬ permitted s.mem d addr true = true := by
      rw [permitted, userPte_of_lt hhigh, hz]
      decide
    obtain ⟨t, hrun, ht, hpt⟩ := pageFault_returns h hlow hhigh hz
    rw [if_pos hp, Code.bind_ok hrun]
    refine ⟨_, rfl, ?_⟩
    dsimp only
    rw [ht.ready.pgdir]
    exact ht.store hhigh hpt _
  · have hp : permitted s.mem d addr true = true := by
      rw [permitted, userPte_of_lt hhigh, hw.1]
      exact hw.2
    rw [if_neg (not_not.mpr hp)]
    refine ⟨_, rfl, ?_⟩
    dsimp only
    rw [h.ready.pgdir]
    exact h.store hhigh hp _

theorem memcpyUser_returns {l : List UInt8} (h : Supplied d n s) (hlow : stackBase ≤ addr)
    (hhigh : addr + l.length ≤ usertop) :
    ∃ t, memcpyUser l addr s = .ok ((), t) ∧ Supplied d n t := by
  induction l generalizing addr s with
  | nil => exact ⟨s, rfl, h⟩
  | cons b l ih =>
    rw [List.length_cons] at hhigh
    obtain ⟨t, hrun, ht⟩ := storeUser_returns (fun f => storeByte f (addr % pgsize) b.toNat)
      h hlow (by omega)
    unfold memcpyUser
    rw [Code.bind_ok hrun]
    exact ih ht (by omega) (by omega)

theorem storeWords_returns {l : List UInt64} (h : Supplied d n s) (hlow : stackBase ≤ addr)
    (hhigh : addr + 8 * l.length ≤ usertop) :
    ∃ t, storeWords l addr s = .ok ((), t) ∧ Supplied d n t := by
  induction l generalizing addr s with
  | nil => exact ⟨s, rfl, h⟩
  | cons w l ih =>
    rw [List.length_cons] at hhigh
    obtain ⟨t, hrun, ht⟩ := storeUser_returns
      (fun f => Function.update f (addr % pgsize / 8) w.toNat) h hlow (by omega)
    unfold storeWords
    rw [Code.bind_ok hrun]
    exact ih ht (by omega) (by omega)

theorem pushArgs_returns {kargv : List (List UInt8)} {ustack : UInt64} (argvStore : List UInt64)
    (h : Supplied d n s) (hfit : stackBase + stringBytes kargv ≤ ustack.toNat)
    (htop : ustack.toNat ≤ usertop) :
    ∃ r t, pushArgs kargv ustack argvStore s = .ok (r, t) ∧ Supplied d n t := by
  induction kargv generalizing ustack argvStore s with
  | nil => exact ⟨_, s, rfl, h⟩
  | cons arg kargv ih =>
    rw [stringBytes_cons] at hfit
    have hsub := toNat_sub_length (show (cString arg).length ≤ ustack.toNat by omega)
    unfold pushArgs
    dsimp only
    generalize ustack - UInt64.ofNat (cString arg).length = v at hsub ⊢
    obtain ⟨t, hrun, ht⟩ := memcpyUser_returns (l := cString arg) h
      (show stackBase ≤ v.toNat by omega) (by omega)
    rw [Code.bind_ok hrun]
    exact ih _ ht (by omega) (by omega)

theorem setupArgs_returns (args : ExecArgs) (entry : UInt64) {l : List Bool} (h : Supplied d n s)
    (hk : s.kmallocs = true :: l) : ∃ t, setupArgs args.kargv entry s = .ok ((), t) := by
  have htop : ustacktop.toNat = usertop := rfl
  have hfit := args.stringBytes_le
  have hk' : kmalloc s = .ok (true, { s with kmallocs := l }) := by
    unfold kmalloc
    rw [hk]
  have h' : Supplied d n { s with kmallocs := l } :=
    ⟨⟨h.ready.held, h.ready.pgdir, h.ready.ok⟩, h.areas, h.area, h.entries, h.supply⟩
  have hlow : stackBase + stringBytes args.kargv ≤ ustacktop.toNat := by
    rw [htop]
    unfold stackBase usertop
    omega
  obtain ⟨⟨ustack, argvStore⟩, t, hpush, ht⟩ := pushArgs_returns [] h' hlow (by rw [htop])
  obtain ⟨hustack, hstore, -⟩ := (pushArgs_wp [] h'.ready (by rw [htop])
    (by omega)).ok hpush
  rw [htop] at hustack hstore
  unfold setupArgs
  rw [Code.bind_ok hk', Code.bind_ok (Code.assert_true (.inl rfl)), Code.bind_ok hpush]
  dsimp only at hustack hstore ⊢
  generalize hs : roundDown ustack 8 - 8 * (UInt64.ofNat args.kargv.length + 1) = sp
  obtain ⟨-, hbase, hspan⟩ := argsPointer_spec args hustack hs
  have hlen : argvStore.length = args.kargv.length := by
    rw [← List.length_map (f := UInt64.toNat), hstore, List.map_nil, List.nil_append, length_placed]
  obtain ⟨u, hwords, -⟩ := storeWords_returns (l := argvStore ++ [0]) ht hbase (by
    rw [List.length_append, hlen, List.length_singleton]
    omega)
  rw [Code.bind_ok hwords]
  exact ⟨_, rfl⟩

/-- The segments are loaded outside the stack, and the allocations that follow succeed. -/
structure Prepared (d : ℕ) (s : Loader) : Prop where
  ready : Ready d s
  areas : Areas s.mm.mm
  apart : ∀ vma ∈ s.mm.mm.mmapList, ¬ Meets Vma.vmStart Vma.vmEnd stackBase usertop vma
  empty : ∀ v ∈ stackPages, s.mem.pte d v = 0
  kmallocs : ∃ l, s.kmallocs = true :: true :: l
  supply : Supplies (5 * 256 + 12) s.mem

/-- The four pages of the stack get memory. -/
theorem buildStack_returns (h : Prepared d s) :
    ∃ t l, buildStack s = .ok (.inr (), t) ∧ Supplied d 0 t ∧ t.kmallocs = true :: l := by
  have hstart : mapStart (ustacktop - ustacksize) = stackBase := by decide
  have hend : mapEnd (ustacktop - ustacksize) ustacksize = usertop := by decide
  have huser : userAccess (mapStart (ustacktop - ustacksize))
      (mapEnd (ustacktop - ustacksize) ustacksize) := by decide
  obtain ⟨l, hl⟩ := h.kmallocs
  obtain ⟨mm, hmap, hins⟩ := mmMap_inserts h.areas
    (vmRead ||| vmWrite ||| vmStack) huser (by
      rintro ⟨vma, hv, hmeets⟩
      rw [hstart, hend] at hmeets
      exact h.apart vma hv hmeets)
  have hpgdir := mmMap_pgdir hmap
  have hkmalloc : kmalloc s = .ok (true, { s with kmallocs := true :: l }) := by
    unfold kmalloc
    rw [hl]
  have hrun : mmMap (ustacktop - ustacksize) ustacksize (vmRead ||| vmWrite ||| vmStack) s =
      .ok (0, { s with kmallocs := true :: l, mm := mm }) := by
    unfold mmMap
    refine (Code.bind_ok hkmalloc).trans ?_
    dsimp only
    rw [hmap]
  have hsupply : Supplies (5 * (missing d s.mem).card + 12) s.mem := by
    have hcard : (missing d s.mem).card ≤ stackPages.card := Finset.card_filter_le _ _
    have hpages : stackPages.card = 256 := Nat.card_Ico _ _
    exact h.supply.mono (by omega)
  have h₀ : Supplied d 12 { s with kmallocs := true :: l, mm := mm } := by
    refine ⟨⟨h.ready.held, hpgdir.trans h.ready.pgdir, ⟨?_, hins.areas.cache⟩⟩, hins.areas, ?_,
      fun v hv => .inl (h.empty v hv), hsupply⟩
    · exact fun vma hv => areas_ok h.ready.ok.vmas huser (hins.list.mem_iff.mp hv)
    · exact ⟨_, hins.list.mem_iff.mpr List.mem_cons_self, hstart, hend, by
        change has (vmRead ||| vmWrite ||| vmStack) vmWrite = true
        decide⟩
  obtain ⟨t₁, hr₁, h₁, hk₁⟩ := stackPage_returns (k := 1) (n := 9) h₀ (by decide)
  obtain ⟨t₂, hr₂, h₂, hk₂⟩ := stackPage_returns (k := 2) (n := 6) h₁ (by decide)
  obtain ⟨t₃, hr₃, h₃, hk₃⟩ := stackPage_returns (k := 3) (n := 3) h₂ (by decide)
  obtain ⟨t₄, hr₄, h₄, hk₄⟩ := stackPage_returns (k := 4) (n := 0) h₃ (by decide)
  refine ⟨t₄, l, ?_, h₄, ?_⟩
  · unfold buildStack
    rw [Code.bind_ok hrun, if_neg (by simp), Code.bind_ok hr₁, Code.bind_ok hr₂, Code.bind_ok hr₃,
      Code.bind_ok hr₄]
    rfl
  · rw [hk₄, hk₃, hk₂, hk₁]

end Stack

end UCore.LoadIcode

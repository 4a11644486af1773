import UCore.Fork.Spaces

/-! # The user pages of one directory

What the operations of the memory that `load_icode` calls do to the contents of the pages below
`USERTOP`.
-/

namespace UCore.LoadIcode

open Library PageTable Cow Fork

/-- The number of pages below `USERTOP`. -/
def reach : ℕ := 2 * 2 ^ 18

section Views

variable {d v w q la perm : ℕ} {s t : State} {R : ℕ → Role} {D : Finset ℕ} {f : ℕ → ℕ}

theorem isVpn_of_reach (h : v < reach) : isVpn v := by
  unfold reach at h
  unfold isVpn userPart idx1
  omega

theorem pdx1_of_lt (h : la < 3 * 2 ^ 30) : pdx1 la = la / 2 ^ 30 := by
  unfold pdx1
  rw [Nat.and_two_pow_sub_one_eq_mod _ 9, Nat.shiftRight_eq_div_pow, Nat.mod_eq_of_lt]
  omega

/-- The page table of `d` is well-formed. -/
def Held (d : ℕ) (s : State) : Prop := ∃ R D, CowInv s R D ∧ d ∈ D

/-- The page `q` is mapped at page number `v` and nowhere else. -/
structure Solo (d : ℕ) (s : State) (v q : ℕ) : Prop where
  maps : MapsTo (s.pte d v) q
  ref : s.ref q = 1

/-- The pages of `d` with the contents `g`. -/
def Shows (d : ℕ) (s : State) (g : ℕ → Option (ℕ → ℕ)) : Prop :=
  Held d s ∧ ∀ v < reach, view s d v = g v

theorem Shows.congr {g g' : ℕ → Option (ℕ → ℕ)} (h : Shows d s g)
    (hg : ∀ v < reach, g v = g' v) : Shows d s g' :=
  ⟨h.1, fun v hv => (h.2 v hv).trans (hg v hv)⟩

theorem Shows.again {g : ℕ → Option (ℕ → ℕ)} {o o' : Option (ℕ → ℕ)}
    (h : Shows d s (Function.update g w o))
    (h' : Shows d t (Function.update (view s d) w o')) : Shows d t (Function.update g w o') :=
  h'.congr fun v hv => by
    rcases eq_or_ne v w with rfl | hne
    · simp
    · rw [Function.update_of_ne hne, Function.update_of_ne hne, h.2 v hv, Function.update_of_ne hne]

theorem shows_of_acts {R' : ℕ → Role} {g : ℕ → ℕ → Option (ℕ → ℕ)} (hd : d ∈ D)
    (h : Acts s R D g t R') : Shows d t (g d) :=
  ⟨⟨R', D, h.cow, hd⟩, fun v hv => h.view d hd v (isVpn_of_reach hv)⟩

theorem setView_eq : setView (view s) d w f d = Function.update (view s d) w (some f) := by
  funext v
  simp [setView, setEntry, Function.update_apply]

theorem Held.alloc (h : Held d s) (hla : la / pgsize < reach) (hperm : perm < 1024)
    (hcow : has perm pteCow = true → has perm pteW = false) :
    ∃ o t, s.pgdirAllocPage d la perm = some (o, t) ∧
      (o = none ∧ Shows d t (view s d) ∨ ∃ q f, o = some q ∧ Solo d t (la / pgsize) q ∧
        Shows d t (Function.update (view s d) (la / pgsize) (some f))) := by
  obtain ⟨R, D, c, hd⟩ := h
  obtain ⟨o, t, R', hs, hres⟩ := pgdirAllocPage_spec c hd (isVpn_of_reach hla) hperm hcow
  refine ⟨o, t, hs, ?_⟩
  rcases hres with ⟨rfl, ha⟩ | ⟨q, f, rfl, hr, hp, ha⟩
  · exact .inl ⟨rfl, shows_of_acts hd ha⟩
  · refine .inr ⟨q, f, rfl, ⟨?_, hr⟩, ?_⟩
    · rw [hp, mapsTo_leafEntry hperm]
    · rw [← setView_eq]
      exact shows_of_acts hd ha

theorem pte_setPage (c : CowInv s R D) (hd : d ∈ D) (hu : R q = .user) (hw : w < reach) :
    (s.setPage q f).pte d w = s.pte d w := by
  obtain ⟨-, hpte⟩ := c.inv.congr (t := s.setPage q f) rfl rfl fun p hp => by
    refine Function.update_of_ne ?_ _ _
    rintro rfl
    simp [hu, Role.isTable] at hp
  exact hpte d hd _ (isVpn_of_reach hw)

theorem Held.fill (h : Held d s) (hs : Solo d s v q) (hv : v < reach) (f : ℕ → ℕ) :
    Solo d (s.setPage q f) v q ∧
      Shows d (s.setPage q f) (Function.update (view s d) v (some f)) := by
  obtain ⟨R, D, c, hd⟩ := h
  have hvpn := isVpn_of_reach hv
  have hu : R q = .user := c.inv.mapped (mapped_of hd hvpn hs.maps)
  have ha := Fork.CowInv.setPage (f := f) c hd hvpn hs.maps fun d' hd' v' hv' hm' =>
    c.unique (by exact hs.ref.le) hd' hv' hd hvpn hm' hs.maps
  refine ⟨⟨?_, hs.ref⟩, ?_⟩
  · rw [pte_setPage c hd hu hv]
    exact hs.maps
  · rw [← setView_eq]
    exact shows_of_acts hd ha

theorem Held.store (h : Held d s) (hv : v < reach) (hV : has (s.pte d v) pteV = true)
    (hw : has (s.pte d v) pteW = true) (f : ℕ → ℕ) :
    Shows d (s.setPage (pte2page (s.pte d v)) f) (Function.update (view s d) v (some f)) := by
  obtain ⟨R, D, c, hd⟩ := h
  rw [← setView_eq]
  exact shows_of_acts hd (Fork.CowInv.store (f := f) c hd (isVpn_of_reach hv) hV hw)

theorem reach_of_lt {addr : ℕ} (h : addr < usertop) : addr / pgsize < reach := by
  unfold usertop at h
  unfold reach pgsize
  omega

/-- What a page fault of the kernel leaves behind. -/
structure Faulted (mm : Mm) (errorCode addr : ℕ) (s : State) (ret : ℤ) (mm' : Mm) (t : State) :
    Prop where
  same : mm.Same mm'
  shows : Shows mm.pgdir t (view s mm.pgdir) ∨ view s mm.pgdir (addr / pgsize) = none ∧
    ∃ f, Shows mm.pgdir t (Function.update (view s mm.pgdir) (addr / pgsize) (some f))

theorem Held.fault {mm : Mm} (errorCode addr : ℕ) (h : Held mm.pgdir s) (hok : mm.Ok) :
    ∃ ret mm' t, doPgfault mm errorCode addr s = some (ret, mm', t) ∧
      Faulted mm errorCode addr s ret mm' t := by
  obtain ⟨R, D, c, hd⟩ := h
  obtain ⟨ret, mm', t, hs, hsame, ⟨R', g, ha, hg, -⟩, -⟩ := doPgfault_spec errorCode addr c hok hd
  refine ⟨ret, mm', t, hs, hsame, ?_⟩
  rcases hg with rfl | ⟨-, hn, f, rfl⟩
  · exact .inl (shows_of_acts hd ha)
  · refine .inr ⟨hn, f, ?_⟩
    rw [← setView_eq]
    exact shows_of_acts hd ha

theorem held_setupPgdir (c : CowInv s R D)
    (h : s.setupPgdir PageTable.bootPageTable = (some q, t)) : Shows q t fun _ => none := by
  rcases setupPgdir_spec (fun _ => PageTable.bootPageTable_user) c with
    ⟨l, hs⟩ | ⟨q', t', R', hs, ho⟩
  · rw [hs] at h
    cases h
  · obtain ⟨rfl, rfl⟩ : q' = q ∧ t' = t := by simpa [hs] using h
    exact ⟨⟨R', _, ho.cow, Finset.mem_insert_self _ _⟩,
      fun v hv => ho.empty v (isVpn_of_reach hv)⟩

end Views

end UCore.LoadIcode

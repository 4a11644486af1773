import UCore.UserMem.Deadlock
import UCore.UserMem.Exec

/-! # Errors of `do_execve`

Until it opens the file, `do_execve` only reads the memory of the process. A process with an address
space does not get further, for `sysfile_open` takes `local_name` for an address of the process.
-/

namespace UCore.UserMem

open Library PageTable Cow Fork

section Fault

variable {s t : State} {R : ℕ → Role} {D : Finset ℕ} {mm mm' : Mm} {d la addr perm : ℕ}

/-- Between the two states a page was added where there was none, if anything. -/
structure Adds (s t : State) (D : Finset ℕ) (d v : ℕ) : Prop where
  inv : ∃ R, Inv t R D
  pte : ∀ w, isVpn w → t.pte d w = s.pte d w ∨ w = v ∧ s.pte d w = 0
  data : ∀ w p, isVpn w → MapsTo (s.pte d w) p → t.word p = s.word p

/-- `pgdir_alloc_page` where nothing is mapped. -/
theorem pgdirAllocPage_adds {q : ℕ} (k : Inv s R D) (hd : d ∈ D) (hv : isVpn (la / pgsize))
    (hz : s.pte d (la / pgsize) = 0) (hperm : perm < 1024)
    (h : s.pgdirAllocPage d la perm = some (some q, t)) : Adds s t D d (la / pgsize) := by
  unfold State.pgdirAllocPage at h
  rcases allocPage_cases s with ⟨l, hs⟩ | ⟨q', l, hq, hs⟩
  · simp [hs] at h
  rw [hs, ← take_self] at h
  have hq := (k.wf.free q').mpr hq
  have hu : Function.update R q' .user q' = .user := Function.update_self ..
  have hpte : ∀ w, isVpn w → (s.take q' (s.word q') l).pte d w = s.pte d w :=
    fun w hw => take_pte hq k.wf (.inl rfl) ((k.dirs d).mpr hd) hw
  obtain ⟨ret, u, R', hi, ⟨rfl, -, -⟩ | ⟨rfl, e⟩⟩ :=
    pageInsert_spec (k.takeUser hq (f := s.word q') (l := l)) hd hv hu hperm
  · simp [hi, eNoMem] at h
  obtain rfl : u = t := by
    dsimp only at h
    rw [hi] at h
    split at h
    · cases h
    · split at h
      · simpa using (Prod.ext_iff.mp (Option.some.inj h)).2
      · cases h
  have hold : ∀ w, isVpn w → w ≠ la / pgsize → u.pte d w = s.pte d w := by
    intro w hw hne
    rw [e.pte d hd w hw, setEntry, if_neg (fun hx => hne hx.2), hpte w hw]
  refine ⟨⟨R', e.inv⟩, fun w hw => ?_, fun w p hw hm => ?_⟩
  · by_cases hne : w = la / pgsize
    · exact .inr ⟨hne, hne ▸ hz⟩
    · exact .inl (hold w hw hne)
  · have hne : w ≠ la / pgsize := by
      rintro rfl
      simp [hz] at hm
    have hp : R' p = .user := e.inv.mapped (mapped_of hd hw (by rwa [hold w hw hne]))
    have hpq : p ≠ q' := by
      rintro rfl
      simp [k.mapped (mapped_of hd hw hm)] at hq
    rw [e.data p hp, take_word hpq]

theorem handleFault_adds (k : Inv s R D) (hd : d ∈ D) (hv : isVpn (la / pgsize))
    (hperm : perm < 1024) (h : handleFault d la perm false s = some (0, t)) :
    Adds s t D d (la / pgsize) := by
  obtain ⟨o, s₁, R₁, hget, w⟩ := getPte_spec true k.wf ((k.dirs d).mpr hd) hv
  have k₁ := k.grow w.grow
  have hpte := w.grow.pte_eq k
  have hdata : ∀ x p, isVpn x → MapsTo (s.pte d x) p → s₁.word p = s.word p :=
    fun x p hx hm => w.grow.data p (k.mapped (mapped_of hd hx hm))
  unfold handleFault at h
  rw [hget] at h
  cases o with
  | none => simp [eNoMem] at h
  | some l =>
    have he : s₁.read (l, idx (la / pgsize)) = s₁.pte d (la / pgsize) :=
      (k₁.wf.pte_leaf (w.found l rfl)).symm
    simp only [Option.map_some] at h
    rw [he] at h
    split at h
    · rename_i hz
      split at h
      · cases h
      · simp [eNoMem] at h
      · rename_i q u ha
        obtain rfl : u = t := by simpa using h
        obtain ⟨hinv, hp, hw⟩ := pgdirAllocPage_adds k₁ hd hv hz hperm ha
        refine ⟨hinv, fun x hx => ?_, fun x p hx hm => ?_⟩
        · rw [← hpte d hd x hx]
          exact hp x hx
        · rw [hw x p hx (by rwa [hpte d hd x hx]), hdata x p hx hm]
    · obtain rfl : s₁ = t := by simpa using h
      exact ⟨⟨R₁, k₁⟩, fun x hx => .inl (hpte d hd x hx), hdata⟩

theorem doPgfault_adds (k : Inv s R D) (hok : mm.Ok) (hd : mm.pgdir ∈ D)
    (h : doPgfault mm causeLoadPageFault addr s = some (0, mm', t)) :
    mm.Same mm' ∧ InArea mm addr ∧ Adds s t D mm.pgdir (addr / pgsize) := by
  obtain ⟨hsame, hfound⟩ := findVma_spec addr hok
  unfold doPgfault at h
  rcases hf : mm.findVma addr with ⟨o, m⟩
  rw [hf] at hsame hfound h
  cases o with
  | none => simp [eInval] at h
  | some vma =>
    obtain ⟨hmem, hc⟩ := hfound vma rfl
    have hle : ¬ vma.vmStart > addr := by
      rw [Vma.contains_iff] at hc
      omega
    have hround : rounddown addr pgsize / pgsize = addr / pgsize := by
      unfold rounddown pgsize
      omega
    have hwrite : (decide (causeLoadPageFault = causeStorePageFault)) = false := by decide
    have hpg : m.pgdir = mm.pgdir := hsame.pgdir
    dsimp only at h
    rw [if_neg hle, hwrite, hpg] at h
    simp only [Bool.false_and, Bool.false_eq_true, if_false] at h
    split at h
    · cases h
    · rename_i ret u ha
      obtain ⟨rfl, rfl, rfl⟩ : ret = 0 ∧ m = mm' ∧ u = t := by simpa using h
      have hv := (hok.vmas vma hmem).isVpn hc
      have hadds := handleFault_adds k hd (by rwa [hround]) (vmaPerm_spec vma.vmFlags).1 ha
      rw [hround] at hadds
      exact ⟨hsame, ⟨vma, hmem, hc⟩, hadds⟩

end Fault

section Loads

variable {σ : Type} {s t u : Ctx σ} {mm : Mm} {addr len n : ℕ}

/-- What loads from the memory of a process may change: the cached area, and pages of its areas are
mapped where there were none. -/
structure Loaded (mm : Mm) (s t : Ctx σ) : Prop where
  space : ∃ mm', HasSpace t mm' ∧ mm.Same mm'
  mmSem : t.mmSem = s.mmSem
  kmem : t.kmem = s.kmem
  pte : ∀ v, isVpn v → t.mem.pte mm.pgdir v = s.mem.pte mm.pgdir v ∨
    s.mem.pte mm.pgdir v = 0 ∧ ∃ addr, InArea mm addr ∧ v = addr / pgsize
  data : ∀ v p, isVpn v → MapsTo (s.mem.pte mm.pgdir v) p → t.mem.word p = s.mem.word p

theorem InArea.of_same {mm' : Mm} (h : InArea mm' addr) (hs : mm.Same mm') : InArea mm addr := by
  obtain ⟨vma, hv, hc⟩ := h
  exact ⟨vma, hs.list ▸ hv, hc⟩

theorem Loaded.refl (h : HasSpace s mm) : Loaded mm s s :=
  ⟨⟨mm, h, rfl, rfl, h.2.1⟩, rfl, rfl, fun _ _ => .inl rfl, fun _ _ _ _ => rfl⟩

theorem Loaded.trans {mm' : Mm} (h : Loaded mm s t) (hs : mm.Same mm') (h' : Loaded mm' t u) :
    Loaded mm s u := by
  have hpg := hs.pgdir
  obtain ⟨m, hm, hsame⟩ := h'.space
  have hpte := h'.pte
  have hdata := h'.data
  rw [hpg] at hpte hdata
  refine ⟨⟨m, hm, Same.trans hs hsame⟩, h'.mmSem.trans h.mmSem, h'.kmem.trans h.kmem,
    fun v hv => ?_, fun v p hv hp => ?_⟩
  · rcases h.pte v hv with h₁ | h₁
    · rw [← h₁]
      rcases hpte v hv with h₂ | ⟨h₂, addr, ha, he⟩
      · exact .inl h₂
      · exact .inr ⟨h₂, addr, ha.of_same hs, he⟩
    · exact .inr h₁
  · have hkeep : MapsTo (t.mem.pte mm.pgdir v) p := by
      rcases h.pte v hv with h₁ | ⟨h₁, -⟩
      · rwa [h₁]
      · simp [h₁] at hp
    rw [hdata v p hv hkeep, h.data v p hv hp]

/-- The same for a process with any address space. -/
def Loads (s t : Ctx σ) : Prop := ∀ mm, HasSpace s mm → Loaded mm s t

theorem Loads.refl (s : Ctx σ) : Loads s s := fun _ h => .refl h

theorem Loads.trans (s t u : Ctx σ) (h : Loads s t) (h' : Loads t u) : Loads s u := by
  intro mm hs
  have hst := h mm hs
  obtain ⟨mm', ht, hsame⟩ := hst.space
  exact hst.trans hsame (h' mm' ht)

theorem loads_setMm {mm' : Mm} (hmm : s.mm = some mm) (h : mm.Ok → mm.Same mm') :
    Loads s { s with mm := some mm' } := by
  intro m hs
  obtain rfl : mm = m := by simpa [hmm] using hs.1
  have hsame := h hs.2.1
  exact ⟨⟨mm', (hs.setMm hsame).1, hsame⟩, rfl, rfl, fun _ _ => .inl rfl, fun _ _ _ _ => rfl⟩

theorem loads_call {α : Type} (f : σ → α × σ) : (Files.call f).Ensures Loads := by
  intro s a t h mm hs
  obtain ⟨-, rfl⟩ : (f s.fs).1 = a ∧ { s with fs := (f s.fs).2 } = t := by
    simpa [Files.call] using h
  exact ⟨⟨mm, hs, rfl, rfl, hs.2.1⟩, rfl, rfl, fun _ _ => .inl rfl, fun _ _ _ _ => rfl⟩

theorem loads_userMemCheck (hlen : len < 2 ^ 64) (addr : ℕ) (write : Bool) :
    (userMemCheck (σ := σ) addr len write).Ensures Loads := by
  intro s ok t h mm hs
  obtain ⟨⟨ok', mm'⟩, hr, hc⟩ := checkAreas_spec hs.2.1 addr write hlen
  simp only [userMemCheck, hs.1, hr] at h
  obtain ⟨-, rfl⟩ : ok' = ok ∧ { s with mm := some mm' } = t := by simpa using h
  exact loads_setMm hs.1 (fun _ => hc.same) mm hs

theorem loads_pageFault (addr : ℕ) : (pageFault (σ := σ) false addr).Ensures Loads := by
  intro s a t h mm hs
  obtain ⟨hmm, hok, R, D, k, hd⟩ := id hs
  simp only [pageFault, hmm] at h
  split at h
  · cases h
  · rename_i vma m hf
    have hsame : mm.Same m := by simpa [hf] using (findVma_spec addr hok).1
    rw [← hsame.pgdir] at hd
    split at h
    · cases h
    split at h
    · cases h
    simp only [Bool.false_eq_true, if_false] at h
    split at h
    · cases h
    · rename_i ret mm' mem hp
      split at h
      · rename_i hz
        obtain rfl : { s with mm := some mm', mem := mem } = t := by simpa using h
        rw [hz] at hp
        obtain ⟨hsame', ha, ⟨R', k'⟩, hpte, hdata⟩ := doPgfault_adds k hsame.ok hd hp
        rw [hsame.pgdir] at hpte hdata
        have hspace : HasSpace { s with mm := some mm', mem := mem } mm' :=
          ⟨rfl, hsame'.ok, R', D, k', hsame'.pgdir ▸ hd⟩
        refine ⟨⟨mm', hspace, Same.trans hsame hsame'⟩, rfl, rfl, fun v hv => ?_, hdata⟩
        rcases hpte v hv with h₁ | ⟨h₁, h₂⟩
        · exact .inl h₁
        · exact .inr ⟨h₂, addr, ha.of_same hsame, h₁⟩
      · cases h

theorem loads_load (addr : ℕ) : (load (σ := σ) addr).Ensures Loads := by
  have haccess : (access (σ := σ) false addr).Ensures Loads := by
    intro s a t h
    unfold access at h
    split at h
    · obtain rfl : s = t := by simpa using h
      exact .refl s
    · split at h
      · rename_i u hf
        split at h
        · obtain rfl : u = t := by simpa using h
          exact loads_pageFault addr s _ u hf
        · cases h
      · cases h
      · cases h
  refine haccess.bind Loads.trans fun _ => ?_
  refine Program.Ensures.bind Loads.trans ?_ fun _ => .pure .refl _
  intro s a t h
  obtain ⟨-, rfl⟩ : s = a ∧ s = t := by simpa [Program.get] using h
  exact .refl s

theorem loads_loadBytes (n addr : ℕ) : (loadBytes (σ := σ) n addr).Ensures Loads := by
  induction n generalizing addr with
  | zero => exact .pure .refl _
  | succ n ih =>
    refine (loads_load addr).bind Loads.trans fun b => ?_
    exact (ih (addr + 1)).bind Loads.trans fun l => .pure .refl _

theorem loads_copyChecked (n p : ℕ) : (copyChecked (σ := σ) n p).Ensures Loads := by
  induction n generalizing p with
  | zero => exact .pure .refl _
  | succ n ih =>
    refine (loads_userMemCheck (by decide) p false).bind Loads.trans fun ok => ?_
    split
    · refine (loads_load p).bind Loads.trans fun b => ?_
      split
      · exact .pure .refl _
      · exact (ih (p + 1)).bind Loads.trans fun o => .pure .refl _
    · exact .pure .refl _

theorem loads_copyName (pid : ℤ) (name : ℕ) : (copyName (σ := σ) pid name).Ensures Loads := by
  unfold copyName
  split
  · exact .pure .refl _
  · refine (loads_userMemCheck (by decide) name false).bind Loads.trans fun ok => ?_
    split
    · exact loads_copyChecked procNameLen name
    · exact .pure .refl _

theorem loads_copyArgs (F : Files σ) (n argv : ℕ) : (F.copyArgs n argv).Ensures Loads := by
  induction n generalizing argv with
  | zero => exact .pure .refl _
  | succ n ih =>
    refine (loads_userMemCheck (by decide) argv false).bind Loads.trans fun ok => ?_
    split
    · refine (loads_loadBytes 8 argv).bind Loads.trans fun arg => ?_
      refine (loads_call _).bind Loads.trans fun ok => ?_
      split
      · refine (loads_copyChecked _ _).bind Loads.trans fun o => ?_
        split
        · exact .pure .refl _
        · refine (ih (argv + 8)).bind Loads.trans fun r => ?_
          split
          · exact .pure .refl _
          · exact .pure .refl _
      · exact .pure .refl _
    · exact .pure .refl _

end Loads

section Open

variable {σ : Type} {s t : Ctx σ} {mm : Mm} {l : List ℕ} (F : Files σ)

/-- The buffer of `copy_path` can be allocated. -/
def Files.HasBuffer (fs : σ) : Prop := (F.kmalloc (fsMaxFpathLen + 1) fs).1 = true

instance (fs : σ) : Decidable (F.HasBuffer fs) := inferInstanceAs (Decidable (_ = true))

theorem userMemCheck_kernel (hmm : s.mm = some mm) {addr : ℕ} (ha : usertop ≤ addr) (n : ℕ)
    (write : Bool) : userMemCheck addr n write s = .done false s := by
  have hcheck : checkAreas mm addr n write = some (false, mm) := by
    unfold checkAreas
    rw [if_neg]
    rintro ⟨-, h₁, h₂⟩
    omega
  simp only [userMemCheck, hmm, hcheck]
  rw [← hmm]

theorem copyString_kernel (hmm : s.mm = some mm) {src : ℕ} (hs : usertop ≤ src) (maxn : ℕ) :
    copyString src maxn s = .done none s := by
  unfold copyString copyParts
  exact Program.bind_done (userMemCheck_kernel hmm hs _ false)

theorem sysfileOpen_kernel (h : Idle s mm) {path : ℕ} (hp : usertop ≤ path) (openFlags : ℕ) :
    F.sysfileOpen path openFlags s = .done (if F.HasBuffer s.fs then -eInval else -eNoMem)
      { s with fs := (F.kmalloc (fsMaxFpathLen + 1) s.fs).2 } := by
  obtain ⟨hspace, hsem⟩ := id h
  obtain ⟨fs, hfs⟩ : ∃ fs, fs = (F.kmalloc (fsMaxFpathLen + 1) s.fs).2 := ⟨_, rfl⟩
  have hcall : Files.call (F.kmalloc (fsMaxFpathLen + 1)) s =
      .done (F.kmalloc (fsMaxFpathLen + 1) s.fs).1 { s with fs := fs } := by rw [hfs]; rfl
  have hpath : F.copyPath path s = .done (.inr (if F.HasBuffer s.fs then -eInval else -eNoMem))
      { s with fs := fs } := by
    unfold Files.copyPath
    rw [Program.bind_done hcall]
    by_cases hb : F.HasBuffer s.fs
    · have hk : (F.kmalloc (fsMaxFpathLen + 1) s.fs).1 = true := hb
      have hget : (Program.get : Program (Ctx σ) _) { s with fs := fs } =
          .done { s with fs := fs } { s with fs := fs } := rfl
      have hlock : lockMm { s with fs := fs } = .done () { s with fs := fs, mmSem := 0 } := by
        simp [lockMm, down, hspace.1, hsem]
      have hcopy := copyString_kernel (s := { s with fs := fs, mmSem := 0 }) hspace.1 hp
        (fsMaxFpathLen + 1)
      have hunlock : unlockMm { s with fs := fs, mmSem := 0 } = .done () { s with fs := fs } := by
        simp [unlockMm, up, hspace.1, hsem]
      rw [if_pos hb, if_pos hk, Program.bind_done hget, if_pos h.isSome, Program.bind_done hlock,
        Program.bind_done hcopy, Program.bind_done hunlock]
      rfl
    · have hk : ¬ (F.kmalloc (fsMaxFpathLen + 1) s.fs).1 = true := hb
      rw [if_neg hb, if_neg hk]
      rfl
  unfold Files.sysfileOpen
  rw [Program.bind_done hpath, hfs]
  rfl

theorem loads_sysfileOpen {path : ℕ} (h : Idle s mm) (hp : usertop ≤ path) (openFlags : ℕ) :
    ∃ ret t, F.sysfileOpen path openFlags s = .done ret t ∧ ret < 0 ∧ Loaded mm s t := by
  refine ⟨_, _, sysfileOpen_kernel F h hp openFlags, ?_, ⟨mm, h.1, rfl, rfl, h.1.2.1⟩, rfl, rfl,
    fun _ _ => .inl rfl, fun _ _ _ _ => rfl⟩
  split
  · decide
  · decide

theorem execArgs_cases {localName name argv : ℕ} {pid argc : ℤ} {r : List (List ℕ) ⊕ ℤ}
    (hr : F.execArgs localName pid name argc argv s = .done r t) :
    (∃ ret, r = .inr ret ∧ Loads s t) ∨ ∃ l u, copyName pid name s = .done (some l) u ∧
      F.copyArgs argc.toNat argv (u.setLocalName localName l) = .done r t := by
  unfold Files.execArgs at hr
  split at hr
  · obtain ⟨rfl, rfl⟩ : .inr (-eInval) = r ∧ s = t := by simpa using hr
    exact .inl ⟨_, rfl, .refl s⟩
  · obtain ⟨o, u, ho, hr⟩ := Program.bind_eq_done hr
    cases o with
    | none =>
      obtain ⟨rfl, rfl⟩ : .inr (-eInval) = r ∧ u = t := by simpa using hr
      exact .inl ⟨_, rfl, loads_copyName pid name s none u ho⟩
    | some l => exact .inr ⟨l, u, ho, hr⟩

theorem execArgs_loaded {localName name argv : ℕ} {pid argc : ℤ} {r : List (List ℕ) ⊕ ℤ}
    (h : HasSpace s mm) (hr : F.execArgs localName pid name argc argv s = .done r t) :
    ∃ kmem, Loaded mm { s with kmem := kmem } t := by
  rcases execArgs_cases F hr with ⟨ret, -, hl⟩ | ⟨l, u, hn, hargs⟩
  · exact ⟨s.kmem, hl mm h⟩
  · have hsu := loads_copyName pid name s _ u hn mm h
    obtain ⟨mm', hu, hsame⟩ := hsu.space
    have hut := loads_copyArgs F argc.toNat argv _ r t hargs mm' hu
    refine ⟨(u.setLocalName localName l).kmem,
      Loaded.trans (t := u.setLocalName localName l) ?_ hsame hut⟩
    exact ⟨⟨mm', hu, hsame⟩, hsu.mmSem, rfl, hsu.pte, hsu.data⟩

end Open

section Atomic

variable {σ τ : Type} {s t : Task σ τ} {mm : Mm} (L : Loader σ τ) (F : Files σ)

/-- The process has kept its address space, apart from pages of its areas that are mapped where
there were none. -/
structure Kept (mm : Mm) (s t : Task σ τ) : Prop where
  space : ∃ mm', t.ctx.mm = some mm' ∧ mm.Same mm'
  mmSem : t.ctx.mmSem = s.ctx.mmSem
  mmCount : t.mmCount = s.mmCount
  pgdir : t.pgdir = s.pgdir
  satp : t.satp = s.satp
  tf : t.tf = s.tf
  pte : ∀ v, isVpn v → t.ctx.mem.pte mm.pgdir v = s.ctx.mem.pte mm.pgdir v ∨
    s.ctx.mem.pte mm.pgdir v = 0 ∧ ∃ addr, InArea mm addr ∧ v = addr / pgsize
  data : ∀ v p, isVpn v → MapsTo (s.ctx.mem.pte mm.pgdir v) p →
    t.ctx.mem.word p = s.ctx.mem.word p

theorem Loaded.kept {kmem : ℕ → ℕ} {c : Ctx σ} (h : Loaded mm { s.ctx with kmem := kmem } c) :
    Kept mm s { s with ctx := c } := by
  obtain ⟨⟨mm', hspace, hsame⟩, hsem, -, hpte, hdata⟩ := h
  exact ⟨⟨mm', hspace.1, hsame⟩, hsem, rfl, rfl, rfl, rfl, hpte, hdata⟩

/-- A process with an address space that gets an error from `do_execve` goes on as before. -/
theorem execve_error_keeps {localName name argv : ℕ} {argc ret : ℤ} (h : Idle s.ctx mm)
    (hlocal : isKernel localName) (hrun : L.doExecve F localName name argc argv s = .done ret t) :
    ret ≠ 0 → Kept mm s t := by
  intro _
  have hget : (Program.get : Program (Task σ τ) _) s = .done s s := rfl
  unfold Loader.doExecve at hrun
  rw [Program.bind_done hget] at hrun
  obtain ⟨r, s₁, hargs, hrun⟩ := Program.bind_eq_done hrun
  obtain ⟨c, hc, rfl⟩ := Program.part_eq_done hargs
  obtain ⟨kmem, hl⟩ := execArgs_loaded F h.1 hc
  cases r with
  | inr e =>
    obtain ⟨-, rfl⟩ : e = ret ∧ { s with ctx := c } = t := by simpa using hrun
    exact hl.kept
  | inl kargv =>
    obtain ⟨mm', hspace, hsame⟩ := hl.space
    have hidle : Idle c mm' := ⟨hspace, hl.mmSem.trans h.2⟩
    have htop : usertop ≤ localName := le_trans (by decide) hlocal.1
    obtain ⟨fd, s₂, hopen, hrun⟩ := Program.bind_eq_done hrun
    obtain ⟨c', hc', rfl⟩ := Program.part_eq_done hopen
    obtain ⟨fd', c'', hc'', hneg, hl'⟩ := loads_sysfileOpen F hidle htop oRdonly
    obtain ⟨rfl, rfl⟩ : fd' = fd ∧ c'' = c' := by simpa using hc''.symm.trans hc'
    rw [if_pos hneg] at hrun
    obtain ⟨-, rfl⟩ : fd' = ret ∧ { s with ctx := c'' } = t := by simpa using hrun
    exact (hl.trans hsame hl').kept

end Atomic

section Names

variable {σ : Type} {s t : Ctx σ} {mm : Mm} {l : List ℕ} {p : ℕ}

/-- The process may read the byte, and its page is mapped. -/
def ReadableByte (s : Ctx σ) (mm : Mm) (addr : ℕ) : Prop :=
  InArea mm addr ∧ (∀ vma ∈ mm.mmapList, vma.contains addr = true → has vma.vmFlags vmRead = true) ∧
    s.permits addr false = true

/-- The process may read the string `l` at an address, with the zero after it. -/
def Readable (s : Ctx σ) (mm : Mm) : List ℕ → ℕ → Prop
  | [], p => ReadableByte s mm p ∧ s.byte p = 0
  | b :: l, p => ReadableByte s mm p ∧ s.byte p = b ∧ b ≠ 0 ∧ Readable s mm l (p + 1)

theorem ReadableByte.setMm {mm' : Mm} (h : ReadableByte s mm p) (hspace : HasSpace s mm)
    (hs : mm.Same mm') : ReadableByte { s with mm := some mm' } mm' p := by
  obtain ⟨ha, hr, hp⟩ := h
  refine ⟨ha.same hs, fun vma hv => hr vma (hs.list ▸ hv), ?_⟩
  rw [← hp]
  exact (hspace.setMm hs).2.permits p false

theorem Readable.setMm {mm' : Mm} (h : Readable s mm l p) (hspace : HasSpace s mm)
    (hs : mm.Same mm') : Readable { s with mm := some mm' } mm' l p := by
  have hb : ({ s with mm := some mm' } : Ctx σ).byte = s.byte :=
    Ctx.byte_congr rfl rfl hspace.1 rfl hs
  induction l generalizing p with
  | nil => exact ⟨h.1.setMm hspace hs, by rw [hb]; exact h.2⟩
  | cons b l ih => exact ⟨h.1.setMm hspace hs, by rw [hb]; exact h.2.1, h.2.2.1, ih h.2.2.2⟩

theorem Readable.head (h : Readable s mm l p) : ReadableByte s mm p := by
  cases l with
  | nil => exact h.1
  | cons b l => exact h.1

theorem ReadableByte.checkAreas (h : ReadableByte s mm p) (hok : mm.Ok) :
    ∃ mm', checkAreas mm p 1 false = some (true, mm') ∧ mm.Same mm' := by
  obtain ⟨ha, hr, -⟩ := h
  obtain ⟨vma, m, hf⟩ := ha.findVma
  obtain ⟨hsame, hfound⟩ := findVma_spec p hok
  rw [hf] at hsame hfound
  obtain ⟨hmem, hc⟩ := hfound vma rfl
  obtain ⟨hlow, -, htop⟩ := (hok.vmas vma hmem).user
  have hc' := Vma.contains_iff.mp hc
  have hlt : usertop < 2 ^ 64 := by decide
  have hend : (p + 1) % 2 ^ 64 = p + 1 := Nat.mod_eq_of_lt (by omega)
  have hread := hr vma hmem hc
  have hu : userAccess p (p + 1) := ⟨by omega, by omega, by omega⟩
  refine ⟨m, ?_, hsame⟩
  have hgo : checkStep (p + 1) false (p, mm) = .inl (vma.vmEnd, m) := by
    simp [checkStep, hf, hread, hc'.1]
  have hstop : checkStep (p + 1) false (vma.vmEnd, m) = .inr (true, m) := by
    have : ¬ vma.vmEnd < p + 1 := by omega
    simp [checkStep, this]
  rw [UserMem.checkAreas, hend, if_pos hu]
  simp [iterate, hgo, hstop]

theorem ReadableByte.load (h : ReadableByte s mm p) :
    load p s = .done (s.byte p) s := by
  have ha : access false p s = .done () s := by simp [access, h.2.2]
  unfold UserMem.load
  rw [Program.bind_done ha]
  rfl

theorem ReadableByte.userMemCheck (h : ReadableByte s mm p) (hspace : HasSpace s mm) :
    ∃ mm', mm.Same mm' ∧ userMemCheck p 1 false s = .done true { s with mm := some mm' } := by
  obtain ⟨mm', hc, hsame⟩ := h.checkAreas hspace.2.1
  refine ⟨mm', hsame, ?_⟩
  simp only [UserMem.userMemCheck, hspace.1, hc]

theorem copyChecked_readable {n : ℕ} (h : Readable s mm l p) (hspace : HasSpace s mm)
    (hn : l.length ≤ n) : ∃ t, copyChecked n p s = .done (some l) t := by
  induction n generalizing s mm l p with
  | zero =>
    obtain rfl : l = [] := List.length_eq_zero_iff.mp (by omega)
    exact ⟨s, rfl⟩
  | succ n ih =>
    obtain ⟨mm', hsame, hcheck⟩ := h.head.userMemCheck hspace
    have h' := h.setMm hspace hsame
    have hspace' := (hspace.setMm hsame).1
    have hload := h'.head.load
    unfold copyChecked
    rw [Program.bind_done hcheck, if_pos rfl, Program.bind_done hload]
    cases l with
    | nil =>
      rw [if_pos h'.2]
      exact ⟨_, rfl⟩
    | cons b l =>
      obtain ⟨-, hb, hb₀, hl⟩ := h'
      rw [hb, if_neg hb₀]
      obtain ⟨t, ht⟩ := ih hl hspace' (by simpa using hn)
      rw [Program.bind_done ht]
      exact ⟨t, rfl⟩

theorem copyName_readable (h : Readable s mm l p) (hspace : HasSpace s mm) (pid : ℤ)
    (hl : l.length ≤ procNameLen) : ∃ t, copyName pid p s = .done (some l) t := by
  obtain ⟨mm', hsame, hcheck⟩ := h.head.userMemCheck hspace
  have hp : p ≠ 0 := by
    obtain ⟨vma, hv, hc⟩ := h.head.1
    have hlow := (hspace.2.1.vmas vma hv).user.1
    have hpos : 0 < userbase := by decide
    rw [Vma.contains_iff] at hc
    omega
  unfold copyName
  rw [if_neg hp, Program.bind_done hcheck, if_pos rfl]
  exact copyChecked_readable (h.setMm hspace hsame) (hspace.setMm hsame).1 hl

/-- The string is in kernel memory, with the zero after it. -/
def InKernel (kmem : ℕ → ℕ) : List ℕ → ℕ → Prop
  | [], p => isKernel p ∧ kmem p = 0
  | b :: l, p => isKernel p ∧ kmem p = b ∧ b ≠ 0 ∧ InKernel kmem l (p + 1)

theorem load_kernel (h : isKernel p) : load p s = .done (s.kmem p) s := by
  have ha : access false p s = .done () s := by simp [access, h]
  unfold UserMem.load
  rw [Program.bind_done ha]
  change Outcome.done (s.byte p) s = _
  rw [Ctx.byte, if_pos h]

theorem loadPart_kernel {n : ℕ} (h : InKernel s.kmem l p) (hn : l.length < n) :
    loadPart n p s = .done (true, l) s := by
  induction n generalizing l p with
  | zero => omega
  | succ n ih =>
    unfold loadPart
    cases l with
    | nil =>
      rw [Program.bind_done (load_kernel h.1), if_pos h.2]
      rfl
    | cons b l =>
      obtain ⟨hk, hb, hb₀, hl⟩ := h
      rw [Program.bind_done (load_kernel hk), hb, if_neg hb₀,
        Program.bind_done (ih hl (by simpa using hn))]
      rfl

theorem Readable.ne_zero (h : Readable s mm l p) : 0 ∉ l := by
  induction l generalizing p with
  | nil => simp
  | cons b l ih =>
    rw [List.mem_cons, not_or]
    exact ⟨h.2.2.1.symm, ih h.2.2.2⟩

theorem inKernel_of_getD (hk : ∀ i ≤ l.length, isKernel (p + i))
    (hb : ∀ i ≤ l.length, s.kmem (p + i) = l.getD i 0) (hz : 0 ∉ l) : InKernel s.kmem l p := by
  induction l generalizing p with
  | nil => exact ⟨hk 0 le_rfl, hb 0 le_rfl⟩
  | cons b l ih =>
    rw [List.mem_cons, not_or] at hz
    refine ⟨hk 0 (by simp), hb 0 (by simp), fun h => hz.1 h.symm, ih (fun i hi => ?_)
      (fun i hi => ?_) hz.2⟩
    · have := hk (i + 1) (by simpa using hi)
      rwa [← Nat.add_assoc, Nat.add_right_comm] at this
    · have := hb (i + 1) (by simpa using hi)
      rw [← Nat.add_assoc, Nat.add_right_comm] at this
      simpa using this

variable (F : Files σ)

/-- What `file_open` does with a kernel copy of the name. -/
def Files.opened (fs : σ) (l : List ℕ) : ℤ × σ :=
  F.fileOpen l oRdonly (F.kmalloc (fsMaxFpathLen + 1) fs).2

theorem sysfileOpen_thread (hmm : s.mm = none) (h : InKernel s.kmem l p)
    (hl : l.length < fsMaxFpathLen) : ∃ t, F.sysfileOpen p oRdonly s =
      .done (if F.HasBuffer s.fs then (F.opened s.fs l).1 else -eNoMem) t := by
  obtain ⟨fs, hfs⟩ : ∃ fs, fs = (F.kmalloc (fsMaxFpathLen + 1) s.fs).2 := ⟨_, rfl⟩
  have hcall : Files.call (F.kmalloc (fsMaxFpathLen + 1)) s =
      .done (F.kmalloc (fsMaxFpathLen + 1) s.fs).1 { s with fs := fs } := by rw [hfs]; rfl
  unfold Files.opened
  rw [← hfs]
  by_cases hb : F.HasBuffer s.fs
  · have hpath : F.copyPath p s = .done (.inl l) { s with fs := fs } := by
      have hk : (F.kmalloc (fsMaxFpathLen + 1) s.fs).1 = true := hb
      have hget : (Program.get : Program (Ctx σ) _) { s with fs := fs } =
          .done { s with fs := fs } { s with fs := fs } := rfl
      have hnone : ¬ ({ s with fs := fs } : Ctx σ).mm.isSome = true := by simp [hmm]
      have hload : loadPart fsMaxFpathLen p { s with fs := fs } = .done (true, l) _ :=
        loadPart_kernel h hl
      unfold Files.copyPath
      rw [Program.bind_done hcall, if_pos hk, Program.bind_done hget, if_neg hnone,
        Program.bind_done hload]
      rfl
    unfold Files.sysfileOpen
    rw [Program.bind_done hpath, if_pos hb]
    exact ⟨_, rfl⟩
  · have hpath : F.copyPath p s = .done (.inr (-eNoMem)) { s with fs := fs } := by
      have hk : ¬ (F.kmalloc (fsMaxFpathLen + 1) s.fs).1 = true := hb
      unfold Files.copyPath
      rw [Program.bind_done hcall, if_neg hk]
      rfl
    unfold Files.sysfileOpen
    rw [Program.bind_done hpath, if_neg hb]
    exact ⟨_, rfl⟩

/-- `do_execve`, when it comes to the file, opens the one that is named `l` whenever `file_open`
does, and gets the result that a kernel thread gets. -/
def OpensNamed (localName : ℕ) (l : List ℕ) (s : Ctx σ) : Prop :=
  (F.HasBuffer s.fs → 0 ≤ (F.opened s.fs l).1 → ∃ t, F.sysfileOpen localName oRdonly s =
    .done (F.opened s.fs l).1 t ∧ t.fs = (F.opened s.fs l).2) ∧
  ∃ ret t t', F.sysfileOpen localName oRdonly s = .done ret t ∧
    F.sysfileOpen localName oRdonly { s with mm := none } = .done ret t'

/-- `local_name` lies in the kernel. -/
def OnStack (localName : ℕ) : Prop := kernbase ≤ localName ∧ localName + procNameLen < kerntop

theorem execArgs_localName {localName name argv : ℕ} {pid argc : ℤ} {kargv : List (List ℕ)}
    (h : Idle s mm) (hname : Readable s mm l name) (hl : l.length ≤ procNameLen)
    (hlocal : OnStack localName)
    (hargs : F.execArgs localName pid name argc argv s = .done (.inl kargv) t) :
    InKernel t.kmem l localName ∧ ∃ mm', Idle t mm' := by
  obtain ⟨ret, hr, -⟩ | ⟨l', u, hn, hc⟩ := execArgs_cases F hargs
  · cases hr
  obtain ⟨u', hn'⟩ := copyName_readable hname h.1 pid hl
  obtain ⟨rfl, rfl⟩ : l = l' ∧ u' = u := by simpa using hn'.symm.trans hn
  have hsu := loads_copyName pid name s _ u' hn mm h.1
  obtain ⟨mm', hu, -⟩ := hsu.space
  have hut := loads_copyArgs F argc.toNat argv _ _ t hc mm' hu
  obtain ⟨mm'', ht, -⟩ := hut.space
  obtain ⟨hlow, hhigh⟩ := hlocal
  refine ⟨inKernel_of_getD (fun i hi => ⟨by omega, by omega⟩) (fun i hi => ?_) hname.ne_zero,
    mm'', ht, hut.mmSem.trans (hsu.mmSem.trans h.2)⟩
  rw [hut.kmem]
  have hin : localName ≤ localName + i ∧ localName + i ≤ localName + procNameLen := by omega
  simp only [Ctx.setLocalName, if_pos hin, Nat.add_sub_cancel_left]

/-- `do_execve` of a process with an address space opens the file that it was asked for only when
there is nothing to open. -/
theorem exec_opens_named_iff {localName name argv : ℕ} {pid argc : ℤ} {kargv : List (List ℕ)}
    (h : Idle s mm) (hname : Readable s mm l name) (hl : l.length ≤ procNameLen)
    (hlocal : OnStack localName)
    (hargs : F.execArgs localName pid name argc argv s = .done (.inl kargv) t) :
    OpensNamed F localName l t ↔ ¬ F.HasBuffer t.fs ∨ (F.opened t.fs l).1 = -eInval := by
  obtain ⟨hk, mm', hidle⟩ := execArgs_localName F h hname hl hlocal hargs
  have htop : usertop ≤ localName := le_trans (by decide) hlocal.1
  have huser := sysfileOpen_kernel F hidle htop oRdonly
  have hshort : l.length < fsMaxFpathLen := lt_of_le_of_lt hl (by decide)
  obtain ⟨u, hthread⟩ := sysfileOpen_thread F (s := { t with mm := none }) rfl hk hshort
  constructor
  · rintro ⟨-, ret, v, w, hv, hw⟩
    have hret := huser.symm.trans hv
    have hret' := hthread.symm.trans hw
    by_cases hb : F.HasBuffer t.fs
    · rw [if_pos hb] at hret hret'
      obtain rfl : -eInval = ret := by
        injection hret
      injection hret' with hx
      exact .inr hx
    · exact .inl hb
  · intro hcond
    by_cases hb : F.HasBuffer t.fs
    · have hx := hcond.resolve_left (not_not_intro hb)
      rw [if_pos hb] at huser hthread
      refine ⟨fun _ h₀ => ?_, -eInval, _, u, huser, ?_⟩
      · rw [hx] at h₀
        exact absurd h₀ (by decide)
      · rw [hthread]
        exact congrArg (fun x => Outcome.done x u) hx
    · rw [if_neg hb] at huser hthread
      exact ⟨fun hb' => absurd hb' hb, -eNoMem, _, u, huser, hthread⟩

end Names

/-- The process with nothing mapped, in the kernel. -/
def untouchedTask : Task Unit Unit := ⟨untouched, 1, pgsize, pgsize, (), [], 2⟩

def returns : Loader Unit Unit := ⟨fun _ _ _ => pure 0, fun _ _ => (0, ()), 0⟩

theorem execve_untouched : ∃ t, returns.doExecve zeros kernbase 0x200000 1 0x200008 untouchedTask =
    .done (-eInval) t ∧ t.ctx.mem.pte 1 0x200 ≠ 0 := by
  have h : ((returns.doExecve zeros kernbase 0x200000 1 0x200008
    untouchedTask).toOption.map fun x =>
      decide (x.1 = -eInval ∧ x.2.ctx.mem.pte 1 0x200 ≠ 0)) = some true := by decide +kernel
  obtain ⟨_, t, hrun, rfl, hpte⟩ := Program.exists_of_decide h
  exact ⟨t, hrun, hpte⟩

/-- Reading the name and the arguments maps a page, though the call fails. -/
theorem execve_error_maps : Idle untouchedTask.ctx twoPages ∧ ∃ ret t,
    returns.doExecve zeros kernbase 0x200000 1 0x200008 untouchedTask = .done ret t ∧ ret ≠ 0 ∧
      t.ctx.mem.pte 1 0x200 ≠ untouchedTask.ctx.mem.pte 1 0x200 := by
  obtain ⟨t, hrun, hpte⟩ := execve_untouched
  have hbefore : untouchedTask.ctx.mem.pte 1 0x200 = 0 := by decide +kernel
  exact ⟨untouched_idle, _, t, hrun, by decide, by rwa [hbefore]⟩

theorem execve_error_keeps_untouched : ∃ t,
    returns.doExecve zeros kernbase 0x200000 1 0x200008 untouchedTask = .done (-eInval) t ∧
      Kept twoPages untouchedTask t := by
  obtain ⟨t, hrun, -⟩ := execve_untouched
  exact ⟨t, hrun, execve_error_keeps returns zeros untouched_idle (by decide) hrun (by decide)⟩

/-- The name "a" at the start of the page, and `argv` with its address behind it. -/
def named : Ctx Unit := (firstMapped.setByte 0x200000 97).setByte 0x20000a 0x20

theorem named_idle : Idle named twoPages := by
  obtain ⟨hspace, hsem⟩ := firstMapped_idle
  have h₁ := hspace.setByte (by decide : ¬ isKernel 0x200000) (by decide +kernel) 97
  have h₂ := h₁.1.setByte (by decide : ¬ isKernel 0x20000a) (by decide +kernel) 0x20
  exact ⟨h₂.1, h₂.2.2.1.trans (h₁.2.2.1.trans hsem)⟩

theorem named_readable : Readable named twoPages [97] 0x200000 := by
  have hbyte : ∀ addr ∈ [0x200000, 0x200001], ReadableByte named twoPages addr := by
    intro addr haddr
    refine ⟨⟨⟨0x200000, 0x202000, vmRead ||| vmWrite⟩, by decide, ?_⟩, ?_, ?_⟩
    · revert addr
      decide
    · rintro vma hv -
      obtain rfl := List.mem_singleton.mp hv
      decide
    · revert addr
      decide +kernel
  exact ⟨hbyte _ (by decide), by decide +kernel, by decide, hbyte _ (by decide), by decide +kernel⟩

theorem named_execArgs : ∃ t, zeros.execArgs kernbase 2 0x200000 1 0x200008 named =
    .done (.inl [[97]]) t := by
  have h : (match zeros.execArgs kernbase 2 0x200000 1 0x200008 named with
      | .done (.inl kargv) _ => some kargv
      | _ => none) = some [[97]] := by decide +kernel
  split at h
  · rename_i kargv t hrun
    obtain rfl : kargv = [[97]] := by simpa using h
    exact ⟨t, hrun⟩
  · cases h

/-- `file_open` opens the file, and `do_execve` of the process fails. -/
theorem exec_rejects_named : Idle named twoPages ∧ Readable named twoPages [97] 0x200000 ∧
    ∃ t, zeros.execArgs kernbase 2 0x200000 1 0x200008 named = .done (.inl [[97]]) t ∧
      zeros.HasBuffer t.fs ∧ (zeros.opened t.fs [97]).1 = 3 ∧
        ¬ OpensNamed zeros kernbase [97] t := by
  obtain ⟨t, hargs⟩ := named_execArgs
  have hbuffer : zeros.HasBuffer t.fs := rfl
  have hopened : (zeros.opened t.fs [97]).1 = 3 := rfl
  refine ⟨named_idle, named_readable, t, hargs, hbuffer, hopened, fun hopens => ?_⟩
  obtain ⟨-, mm', hidle⟩ := execArgs_localName zeros named_idle named_readable (by decide)
    ⟨le_rfl, by decide⟩ hargs
  obtain ⟨u, hu, -⟩ := hopens.1 hbuffer (by rw [hopened]; decide)
  have hkernel := sysfileOpen_kernel zeros hidle (by decide : usertop ≤ kernbase) oRdonly
  rw [hkernel, if_pos hbuffer, hopened] at hu
  injection hu with hret
  exact absurd hret (by decide)

theorem exec_opens_named_iff_named : ∃ t,
    zeros.execArgs kernbase 2 0x200000 1 0x200008 named = .done (.inl [[97]]) t ∧
      (OpensNamed zeros kernbase [97] t ↔
        ¬ zeros.HasBuffer t.fs ∨ (zeros.opened t.fs [97]).1 = -eInval) := by
  obtain ⟨t, hargs⟩ := named_execArgs
  exact ⟨t, hargs, exec_opens_named_iff zeros named_idle named_readable (by decide)
    ⟨le_rfl, by decide⟩ hargs⟩

end UCore.UserMem

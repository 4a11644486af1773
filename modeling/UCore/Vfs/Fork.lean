import UCore.Vfs.Calls

/-! # Tables of new and of exiting processes

A process gets the table of its parent or a copy of it, and the last process with a table destroys
it.
-/

namespace UCore.Vfs

open Library Sfs

/-- The number of processes with a table. -/
def Usage.link (b : Usage) (f : ℕ) (n : Option ℤ) : Usage :=
  { b with links := Function.update b.links f n }

section Create

variable {k k' : Kernel} {c d : ℕ → ℤ} {f g p : ℕ} {b : Usage}

theorem holds_emptyFile : emptyFile.holds p = 0 := holds_eq_zero (.inl rfl)

theorem holds_empty {q : Option ℕ} {n : ℤ} :
    Files.holds (some ⟨q, fun _ => emptyFile, n⟩) p = 0 := by
  unfold Files.holds
  dsimp only
  simp [holds_emptyFile]

/-- A new table without open files. -/
theorem Books.create (h : Books c d b k) (hb : ∀ fd, b.calls k.fbrk fd = 0) :
    Books c d (b.link k.fbrk (some 1)) { k with
      files := Function.update k.files k.fbrk (some ⟨none, fun _ => emptyFile, 1⟩)
      fbrk := k.fbrk + 1 } := by
  have hsum : ∀ (g : Option Files → ℕ), g (some ⟨none, fun _ => emptyFile, 1⟩) = 0 →
      ∑ f ∈ Finset.range (k.fbrk + 1),
        g (Function.update k.files k.fbrk (some ⟨none, fun _ => emptyFile, 1⟩) f) =
      ∑ f ∈ Finset.range k.fbrk, g (k.files f) := by
    intro g hg
    rw [Finset.sum_range_succ, Function.update_self, hg, add_zero]
    refine Finset.sum_congr rfl fun f hf => ?_
    rw [Function.update_of_ne (Finset.mem_range.mp hf).ne]
  obtain ⟨⟨hbrk, hfbrk, hreclaim, hsfs, hhash⟩, hopens, hrefs, hnonneg, hbase⟩ := h.acc
  refine ⟨⟨⟨hbrk, ?_, hreclaim, hsfs, hhash⟩, ?_, ?_, hnonneg, ?_⟩, ?_, ?_, ?_⟩
  · intro g hg
    dsimp only at hg ⊢
    rw [Function.update_of_ne (by omega)]
    exact hfbrk g (by omega)
  · intro p
    have := hsum (fun t => Files.holds t p) holds_empty
    have := hopens p
    unfold Kernel.openOf Kernel.opens at *
    dsimp only at *
    omega
  · intro p
    have := hsum (fun t => Files.inPwd t p) (by simp [Files.inPwd])
    have := hrefs p
    unfold Kernel.refOf Kernel.openOf Kernel.pwds Kernel.roots at *
    dsimp only at *
    omega
  · intro p
    have := hsum (fun t => Files.inPwd t p) (by simp [Files.inPwd])
    have := hbase p
    unfold Kernel.pwds Kernel.roots at *
    dsimp only at *
    omega
  · intro g
    by_cases hg : g = k.fbrk
    · subst hg
      simp [Usage.link]
    · simp only [Usage.link, Function.update_of_ne hg]
      exact h.tables.links g
  · intro g t ht fd hfd
    by_cases hg : g = k.fbrk
    · subst hg
      simp only [Function.update_self, Option.some.injEq] at ht
      subst ht
      exact ⟨rfl, hb fd⟩
    · simp only [Function.update_of_ne hg] at ht
      exact h.tables.entries g t ht fd hfd
  · intro g t ht fd hfd hs
    by_cases hg : g = k.fbrk
    · subst hg
      simp only [Function.update_self, Option.some.injEq] at ht
      subst ht
      cases hs
    · simp only [Function.update_of_ne hg] at ht
      exact h.tables.taken g t ht fd hfd hs

theorem Books.setLinks {t : Files} {n : ℤ} (h : Books c d b k) (ht : k.files f = some t) :
    Books c d (b.link f (some n)) (k.setFiles f (some { t with nlinks := n })) := by
  have hfiles : ∀ {g u}, (k.setFiles f (some { t with nlinks := n })).files g = some u →
      ∃ u', k.files g = some u' ∧ u.fdArray = u'.fdArray := by
    intro g u hg
    by_cases he : g = f
    · subst he
      obtain rfl := Option.some.inj (setFiles_files.symm.trans hg)
      exact ⟨t, ht, rfl⟩
    · exact ⟨u, (setFiles_files_ne he).symm.trans hg, rfl⟩
  refine ⟨h.acc.setFiles ht (fun p => rfl) fun p => rfl, ?_, ?_, ?_⟩
  · intro g
    by_cases he : g = f
    · subst he
      rw [setFiles_files]
      simp [Usage.link]
    · rw [setFiles_files_ne he]
      simp only [Usage.link, Function.update_of_ne he]
      exact h.tables.links g
  · intro g u hg
    obtain ⟨u', hg', he⟩ := hfiles hg
    rw [he]
    exact h.tables.entries g u' hg'
  · intro g u hg
    obtain ⟨u', hg', he⟩ := hfiles hg
    rw [he]
    exact h.tables.taken g u' hg'

end Create

section Dup

variable {k k' : Kernel} {c d : ℕ → ℤ} {dst src fd : ℕ} {s t : Files} {b : Usage}

/-- The table at `dst` is still empty from the entry `fd` on, and the one at `src` is as before. -/
structure Copying (dst src : ℕ) (s : Files) (fd : ℕ) (k : Kernel) : Prop where
  ne : dst ≠ src
  src : k.files src = some s
  dst : ∃ t, k.files dst = some t ∧ ∀ i, fd ≤ i → t.fdArray i = emptyFile

theorem Copying.change {t : Files} {P : File → Prop} (h : Copying dst src s fd k)
    (ht : k.files dst = some t) (hc : Changes P dst fd t k k') : Copying dst src s (fd + 1) k' := by
  obtain ⟨file, -, hfiles⟩ := hc
  obtain ⟨t', ht', hempty⟩ := h.dst
  obtain rfl : t = t' := Option.some.inj (ht.symm.trans ht')
  refine ⟨h.ne, ?_, t.set fd file, ?_, fun i hi => ?_⟩
  · rw [hfiles, Function.update_of_ne h.ne.symm]
    exact h.src
  · rw [hfiles, Function.update_self]
  · rw [set_fdArray_ne (by omega)]
    exact hempty i (by omega)

theorem Copying.skip (h : Copying dst src s fd k) : Copying dst src s (fd + 1) k := by
  obtain ⟨t, ht, hempty⟩ := h.dst
  exact ⟨h.ne, h.src, t, ht, fun i hi => hempty i (by omega)⟩

theorem dupEntry_wp (hd : ∀ q, 0 ≤ d q) (hu : b.taken = none) (h : Books c d b k)
    (hc : Copying dst src s fd k) (hfd : fd < filesStructNentry) :
    Code.Wp (dupEntry dst src fd) k Allowed fun _ k' =>
      Books c d b k' ∧ Copying dst src s (fd + 1) k' := by
  unfold dupEntry
  refine .bind_of (fileAt_eq hc.src) ?_
  split
  swap
  · exact Code.Wp.pure ⟨h, hc.skip⟩
  rename_i hs
  obtain ⟨t, ht, hempty⟩ := hc.dst
  obtain ⟨-, p, hp⟩ := h.tables.opened hc.src hfd hs
  obtain ⟨n, hn, hpos⟩ := (h.acc.opened_alive (hd p) hc.src hfd (holds_of_node (.inl hs) hp)).2
  have hnone := hempty fd le_rfl
  have htaken : { t.fdArray fd with status := .init } =
      { t.fdArray fd with status := .init, node := none } := by
    rw [hnone]
    rfl
  refine .bind_of (fileAt_eq ht) ?_
  refine .bind_of (setFile_eq ht) ?_
  rw [htaken]
  refine (fdArrayDup_wp (h.taken hu ht hfd (by rw [hnone]; rfl)) setFiles_files hfd
    (by rw [set_fdArray]) hs hp hn hpos).mono (fun _ h => h) ?_
  rintro - k' ⟨hk', file, -, hfiles⟩
  refine ⟨hk', hc.change (P := fun _ => True) ht ⟨file, trivial, ?_⟩⟩
  rw [hfiles, set_set]
  exact Function.update_idem ..

theorem dupLoop_wp (hd : ∀ q, 0 ≤ d q) (hu : b.taken = none) (n : ℕ) : ∀ {k : Kernel} {fd : ℕ},
    Books c d b k → Copying dst src s fd k → fd + n ≤ filesStructNentry →
    Code.Wp (dupLoop dst src n fd) k Allowed fun _ k' => Books c d b k' := by
  induction n with
  | zero => exact fun h _ _ => Code.Wp.pure h
  | succ n ih =>
    intro k fd h hc hle
    refine (dupEntry_wp hd hu h hc (by omega)).bind ?_
    rintro - k' ⟨h', hc'⟩
    exact ih h' hc' (by omega)

theorem dupPwd_wp (hc : ∀ q, 0 ≤ c q) (h : Books c d b k) (hs : k.files src = some s)
    (ht : k.files dst = some t)
    (hpwd : t.pwd = none) : Code.Wp (dupPwd dst src) k Allowed fun _ k' =>
      Books c d b k' ∧ k'.files = Function.update k.files dst (some { t with pwd := s.pwd }) := by
  unfold dupPwd
  refine .bind_of (filesAt_eq hs) ?_
  refine .bind_of (filesAt_eq ht) ?_
  refine Code.Wp.bind_modify ?_
  have htables := h.tables.setPwd (q := s.pwd) ht
  cases hq : s.pwd with
  | none =>
    rw [hq] at htables
    refine Code.Wp.pure ⟨⟨h.acc.setFiles ht (fun p => ?_) fun p => rfl, htables⟩, rfl⟩
    unfold Files.inPwd
    simp [hpwd]
  | some p =>
    rw [hq] at htables
    have ha₁ : Acc (more c p (-1)) d (k.setFiles dst (some { t with pwd := some p })) := by
      refine h.acc.setFiles ht (fun q => ?_) fun q => rfl
      unfold more Files.inPwd
      simp only [hpwd, Option.some.injEq, eq_comm (a := p)]
      split <;> simp
    obtain ⟨n, hn, hpos⟩ : ∃ n, k.inode p = some n ∧ 0 < n.refCount := by
      have := pwds_pos h.acc.coherent hs hq
      have := hc p
      have := h.acc.openOf_nonneg p
      exact h.acc.alive (by omega)
    refine (inodeRefInc_wp (k := k.setFiles dst (some { t with pwd := some p })) ha₁ hn
      hpos).bind ?_
    rintro - k' ⟨hr, ha'⟩
    exact Code.Wp.pure ⟨⟨by simpa using ha', htables.rest hr⟩, hr.files⟩

theorem dupFiles_wp (hc : ∀ q, 0 ≤ c q) (hd : ∀ q, 0 ≤ d q) (hu : b.taken = none)
    (h : Books c d b k)
    (hs : k.files src = some s) {n : ℤ} (ht : k.files dst = some ⟨none, fun _ => emptyFile, n⟩)
    (hne : dst ≠ src) : Code.Wp (dupFiles dst src) k Allowed fun _ k' => Books c d b k' := by
  unfold dupFiles
  refine (dupPwd_wp hc h hs ht rfl).bind ?_
  rintro - k' ⟨h', hfiles⟩
  have hcopy : Copying dst src s 0 k' := by
    refine ⟨hne, ?_, ⟨s.pwd, fun _ => emptyFile, n⟩, ?_, fun _ _ => rfl⟩
    · rw [hfiles, Function.update_of_ne hne.symm]
      exact hs
    · rw [hfiles, Function.update_self]
  exact dupLoop_wp hd hu _ h' hcopy (by omega)

/-- The table of a child is shared with its parent, or it is a new one. -/
theorem copyFiles_wp {cur : ℕ} {share : Bool} {n : ℤ} (hc : ∀ q, 0 ≤ c q) (hd : ∀ q, 0 ≤ d q)
    (hu : b.taken = none) (h : Books c d b k) (hb : ∀ fd, b.calls k.fbrk fd = 0)
    (hlinks : b.links cur = some n) : Code.Wp (copyFiles cur share) k Allowed fun r k' =>
      if r.1 ≠ 0 then Books c d b k'
      else if share then r.2 = cur ∧ Books c d (b.link cur (some (n + 1))) k'
      else b.links r.2 = none ∧ Books c d (b.link r.2 (some 1)) k' := by
  obtain ⟨t, ht, rfl⟩ := Option.map_eq_some_iff.mp ((h.tables.links cur).trans hlinks)
  unfold copyFiles
  cases share with
  | true =>
    rw [if_pos rfl]
    refine .bind_of (filesAt_eq ht) ?_
    exact Code.Wp.bind_modify (Code.Wp.pure ⟨rfl, h.setLinks ht⟩)
  | false =>
    rw [if_neg (by simp)]
    unfold filesCreate
    refine Code.Wp.bind (Q := fun o k₁ => (o = none → Books c d b k₁) ∧
      ∀ f, o = some f → f = k.fbrk ∧ Books c d (b.link f (some 1)) k₁ ∧
        k₁.files = Function.update k.files f (some ⟨none, fun _ => emptyFile, 1⟩)) ?_ ?_
    · refine (Still.kmalloc k).bind fun ok k₁ hk₁ => ?_
      cases ok with
      | false => exact Code.Wp.pure ⟨fun _ => h.rest hk₁.rest (hk₁.acc h.acc), by simp⟩
      | true =>
        rw [if_pos rfl]
        apply Code.Wp.bind_get
        refine Code.Wp.bind_modify (Code.Wp.pure ⟨by simp, fun f hf => ?_⟩)
        have h₁ := h.rest hk₁.rest (hk₁.acc h.acc)
        obtain rfl := Option.some.inj hf
        refine ⟨hk₁.fbrk, h₁.create ?_, ?_⟩
        · rw [hk₁.fbrk]
          exact hb
        · exact congrArg (fun files => Function.update files _ _) hk₁.files
    · rintro (_ | f) k₁ ⟨hnone, hsome⟩
      · exact Code.Wp.pure (hnone rfl)
      · obtain ⟨rfl, h₁, hfiles⟩ := hsome f rfl
        have hne : k.fbrk ≠ cur := by
          rintro rfl
          rw [h.acc.coherent.fbrk _ le_rfl] at ht
          cases ht
        have hcur : k₁.files cur = some t := by
          rw [hfiles, Function.update_of_ne hne.symm]
          exact ht
        have hnew : k₁.files k.fbrk = some ⟨none, fun _ => emptyFile, 1⟩ := by
          rw [hfiles, Function.update_self]
        refine (dupFiles_wp (b := b.link k.fbrk (some 1)) hc hd hu h₁ hcur hnew hne).bind fun _ k₂
          h₂ => Code.Wp.pure ?_
        refine ⟨?_, h₂⟩
        rw [← h.tables.links, h.acc.coherent.fbrk _ le_rfl]
        rfl

end Dup

section Destroy

variable {k k' : Kernel} {c d : ℕ → ℤ} {f fd : ℕ} {t : Files} {b : Usage}

/-- Giving up the working directory leaves a table that still names it. -/
def pwdCredit (c : ℕ → ℤ) (t : Files) : ℕ → ℤ := fun q => c q - Files.inPwd (some t) q

theorem destroyPwd_wp (hc : ∀ q, 0 ≤ c q) (h : Books c d b k) (ht : k.files f = some t) :
    Code.Wp (destroyPwd f) k Allowed fun _ k' => Books (pwdCredit c t) d b k' ∧ Rest k k' := by
  unfold destroyPwd
  refine .bind_of (filesAt_eq ht) ?_
  cases hq : t.pwd with
  | none =>
    have he : pwdCredit c t = c := by
      ext q
      simp [pwdCredit, Files.inPwd, hq]
    rw [he]
    exact Code.Wp.pure ⟨h, .refl k⟩
  | some p =>
    have he : pwdCredit c t = more c p (-1) := by
      ext q
      unfold pwdCredit more Files.inPwd
      simp only [hq, Option.some.injEq, eq_comm (a := p)]
      split <;> simp [sub_eq_add_neg]
    have hb : Backed c k p := by
      have := pwds_pos h.acc.coherent ht hq
      have := hc p
      unfold Backed
      omega
    rw [he]
    refine (inodeRefDec_wp h.acc hb).mono (fun _ h => h) ?_
    rintro - k' ⟨hr, ha⟩
    exact ⟨h.rest hr ha, hr⟩

/-- The entries of the table before `fd` are free. -/
def Destroying (f fd : ℕ) (q : Option ℕ) (k : Kernel) : Prop :=
  ∃ t, k.files f = some t ∧ t.pwd = q ∧ ∀ i < fd, (t.fdArray i).status = .none

theorem Tables.idle (h : Tables b k) (hu : b.taken = none) (hb : b.calls f fd = 0)
    (ht : k.files f = some t) (hfd : fd < filesStructNentry)
    (hs : (t.fdArray fd).status ≠ .opened) : (t.fdArray fd).status = .none := by
  have hok := h.entries f t ht fd hfd
  have hinit := h.taken f t ht fd hfd
  rw [hu] at hinit
  unfold File.Ok at hok
  cases hx : (t.fdArray fd).status with
  | none => rfl
  | init => cases hinit hx
  | opened => exact absurd hx hs
  | closed =>
    rw [hx] at hok
    exact absurd hok.2.1 (by omega)

variable {q : Option ℕ}

theorem destroyEntry_wp (hd : ∀ q, 0 ≤ d q) (hu : b.taken = none) (h : Books c d b k)
    (hb : ∀ fd, b.calls f fd = 0) (hx : Destroying f fd q k) (hfd : fd < filesStructNentry) :
    Code.Wp (destroyEntry f fd) k Allowed fun _ k' => Books c d b k' ∧
    Destroying f (fd + 1) q k' := by
  obtain ⟨t, ht, hpwd, hnone⟩ := hx
  unfold destroyEntry
  refine .bind_of (fileAt_eq ht) ?_
  split
  · rename_i hs
    refine (fdArrayClose_wp h hd ht hfd hs).mono (fun _ h => h) ?_
    rintro - k' ⟨h', file, hfile, hfiles⟩
    have ht' : k'.files f = some (t.set fd file) := by
      rw [hfiles, Function.update_self]
    refine ⟨h', t.set fd file, ht', hpwd, fun i hi => ?_⟩
    by_cases he : i = fd
    · subst he
      exact h'.tables.idle hu (hb i) ht' hfd (by rw [set_fdArray]; exact hfile)
    · rw [set_fdArray_ne he]
      exact hnone i (by omega)
  · rename_i hs
    refine Code.Wp.pure ⟨h, t, ht, hpwd, fun i hi => ?_⟩
    by_cases he : i = fd
    · subst he
      exact h.tables.idle hu (hb i) ht hfd hs
    · exact hnone i (by omega)

theorem destroyLoop_wp (hd : ∀ q, 0 ≤ d q) (hu : b.taken = none) (hb : ∀ fd, b.calls f fd = 0)
    (n : ℕ) : ∀ {k : Kernel} {fd : ℕ}, Books c d b k → Destroying f fd q k →
    fd + n ≤ filesStructNentry → Code.Wp (destroyLoop f n fd) k Allowed fun _ k' =>
      Books c d b k' ∧ Destroying f (fd + n) q k' := by
  induction n with
  | zero => exact fun h hx _ => Code.Wp.pure ⟨h, hx⟩
  | succ n ih =>
    intro k fd h hx hle
    refine (destroyEntry_wp hd hu h hb hx (by omega)).bind ?_
    rintro - k' ⟨h', hx'⟩
    obtain ⟨t, ht, hpwd, hnone⟩ := hx'
    refine .bind_of (fileAt_eq ht) ?_
    refine Code.Wp.bind_assert (fun _ => ?_) fun hs => absurd (hnone fd (by omega)) hs
    have := ih h' ⟨t, ht, hpwd, hnone⟩ (by omega)
    rwa [Nat.add_right_comm, Nat.add_assoc] at this

theorem filesDestroy_wp (hc : ∀ q, 0 ≤ c q) (hd : ∀ q, 0 ≤ d q) (hu : b.taken = none)
    (h : Books c d b k) (hb : ∀ fd, b.calls f fd = 0) (ht : k.files f = some t) :
    Code.Wp (filesDestroy f) k Allowed fun _ k' => Books c d (b.link f none) k' := by
  unfold filesDestroy
  refine (destroyPwd_wp hc h ht).bind ?_
  rintro - k₁ ⟨h₁, hr₁⟩
  have ht₁ : k₁.files f = some t := by
    rw [hr₁.files]
    exact ht
  refine (destroyLoop_wp hd hu hb _ h₁ ⟨t, ht₁, rfl, fun i hi => absurd hi (by omega)⟩
    (by omega)).bind ?_
  rintro - k₂ ⟨h₂, t₂, ht₂, hpwd, hnone⟩
  have hholds : ∀ p, Files.holds (some t₂) p = 0 := by
    intro p
    refine Finset.sum_eq_zero fun i hi => holds_eq_zero (.inl (hnone i ?_))
    have := Finset.mem_range.mp hi
    omega
  refine ⟨h₂.acc.setFiles ht₂ (fun p => ?_) fun p => ?_, ?_, ?_, ?_⟩
  · unfold pwdCredit Files.inPwd
    dsimp only
    rw [hpwd]
    omega
  · rw [hholds]
    rfl
  · intro g
    by_cases hg : g = f
    · subst hg
      rw [setFiles_files]
      simp [Usage.link]
    · rw [setFiles_files_ne hg]
      simp only [Usage.link, Function.update_of_ne hg]
      exact h₂.tables.links g
  all_goals
    intro g u hg
    have hne : g ≠ f := by
      rintro rfl
      rw [setFiles_files] at hg
      cases hg
    rw [setFiles_files_ne hne] at hg
  · exact h₂.tables.entries g u hg
  · exact h₂.tables.taken g u hg

theorem putFiles_wp {n : ℤ} (hc : ∀ q, 0 ≤ c q) (hd : ∀ q, 0 ≤ d q) (hu : b.taken = none)
    (h : Books c d b k) (hlinks : b.links f = some n) (hb : n = 1 → ∀ fd, b.calls f fd = 0) :
    Code.Wp (putFiles f) k Allowed fun _ k' =>
      Books c d (b.link f (if n = 1 then none else some (n - 1))) k' := by
  obtain ⟨t, ht, rfl⟩ := Option.map_eq_some_iff.mp ((h.tables.links f).trans hlinks)
  unfold putFiles
  refine .bind_of (filesAt_eq ht) ?_
  refine Code.Wp.bind_modify ?_
  have h₁ := h.setLinks (n := t.nlinks - 1) ht
  split
  · have hone : t.nlinks = 1 := by omega
    rw [if_pos hone]
    have := filesDestroy_wp (b := b.link f (some (t.nlinks - 1))) hc hd hu h₁ (hb hone)
      setFiles_files
    have he : (b.link f (some (t.nlinks - 1))).link f none = b.link f none := by
      unfold Usage.link
      dsimp only
      rw [Function.update_idem]
    rwa [he] at this
  · rw [if_neg (by omega)]
    exact Code.Wp.pure h₁

end Destroy

end UCore.Vfs

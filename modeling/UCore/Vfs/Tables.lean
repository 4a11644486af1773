import UCore.Vfs.Refs

/-! # Tables of open files

Every entry of a table of open files counts the calls that use it. The functions on files, tables
and working directories keep the books of the entries and of the inodes.
-/

namespace UCore.Vfs

open Library Sfs

/-- The entry with `b` ongoing calls on it. -/
def File.Ok (b : ℕ) (file : File) : Prop :=
  match file.status with
  | .none | .init => file.openCount = 0 ∧ b = 0
  | .opened => file.openCount = 1 + b ∧ file.node ≠ none
  | .closed => file.openCount = b ∧ 0 < b ∧ file.node ≠ none

/-- The uses of the tables: the ongoing calls on every entry, the number of processes with every
table, and the entry that the running call has taken. -/
structure Usage where
  calls : ℕ → ℕ → ℕ
  links : ℕ → Option ℤ
  taken : Option (ℕ × ℕ)

/-- The tables with these uses. -/
structure Tables (b : Usage) (k : Kernel) : Prop where
  links : ∀ f, (k.files f).map Files.nlinks = b.links f
  entries : ∀ f t, k.files f = some t → ∀ fd < filesStructNentry, (t.fdArray fd).Ok (b.calls f fd)
  taken : ∀ f t, k.files f = some t → ∀ fd < filesStructNentry, (t.fdArray fd).status = .init →
    b.taken = some (f, fd)

/-- The counts of the inodes and of the entries are those of their holders. -/
structure Books (c d : ℕ → ℤ) (b : Usage) (k : Kernel) : Prop where
  acc : Acc c d k
  tables : Tables b k

section Files

variable {k k' : Kernel} {c c' d d' : ℕ → ℤ} {f fd p : ℕ} {t : Files} {o : Option Files}
  {b : Usage} {file : File}

@[simp] theorem setFiles_files : (k.setFiles f o).files f = o := Function.update_self ..

theorem setFiles_files_ne {g : ℕ} (h : g ≠ f) : (k.setFiles f o).files g = k.files g :=
  Function.update_of_ne h ..

theorem Acc.setFiles (ha : Acc c d k) (ht : k.files f = some t)
    (hc : ∀ p, c' p + Files.inPwd o p = c p + Files.inPwd (some t) p)
    (hd : ∀ p, d' p + Files.holds o p = d p + Files.holds (some t) p) :
    Acc c' d' (k.setFiles f o) := by
  have hmem : f ∈ Finset.range k.fbrk := Finset.mem_range.mpr (ha.coherent.files_lt ht)
  have hopens : ∀ p, (k.setFiles f o).opens p + Files.holds (some t) p =
    k.opens p + Files.holds o p := by
    intro p
    rw [← ht]
    exact sum_update (fun t => Files.holds t p) hmem
  have hpwds : ∀ p, (k.setFiles f o).pwds p + Files.inPwd (some t) p =
    k.pwds p + Files.inPwd o p := by
    intro p
    rw [← ht]
    exact sum_update (fun t => Files.inPwd t p) hmem
  refine ⟨⟨ha.coherent.brk, ?_, ha.coherent.reclaim, ha.coherent.sfs, ha.coherent.hash⟩, ?_, ?_,
    ha.openOf_nonneg, ?_⟩
  · intro g hg
    have hne : g ≠ f := by
      rintro rfl
      exact absurd (ha.coherent.files_lt ht) (not_lt.mpr hg)
    exact (setFiles_files_ne hne).trans (ha.coherent.fbrk g hg)
  · intro p
    have h₁ := ha.opens p
    have h₂ := hopens p
    have h₃ := hd p
    change k.openOf p = _
    omega
  · intro p
    have h₁ := ha.refs p
    have h₂ := hpwds p
    have h₃ := hc p
    change k.refOf p = k.openOf p + (_ + (k.roots p : ℤ)) + _
    omega
  · intro p
    have h₁ := ha.base_nonneg p
    have h₂ := hpwds p
    have h₃ := hc p
    change 0 ≤ ((k.setFiles f o).pwds p : ℤ) + k.roots p + c' p
    omega

theorem holds_set (hfd : fd < filesStructNentry) : Files.holds (some (t.set fd file)) p +
    (t.fdArray fd).holds p = Files.holds (some t) p + file.holds p :=
  sum_update (fun file : File => file.holds p) (Finset.mem_range.mpr hfd)

theorem Acc.setFile (ha : Acc c d k) (ht : k.files f = some t) (hfd : fd < filesStructNentry)
    (hd : ∀ p, d' p + file.holds p = d p + (t.fdArray fd).holds p) :
    Acc c d' (k.setFiles f (some (t.set fd file))) := by
  refine ha.setFiles ht (fun p => rfl) fun p => ?_
  have h₁ : Files.holds (some (t.set fd file)) p + (t.fdArray fd).holds p =
      Files.holds (some t) p + file.holds p := holds_set hfd
  have h₂ := hd p
  omega

/-- The number of calls on one entry. -/
def bump (b : Usage) (f fd n : ℕ) : Usage :=
  { b with calls := Function.update b.calls f (Function.update (b.calls f) fd n) }

/-- The running call has taken an entry. -/
def Usage.take (b : Usage) (f fd : ℕ) : Usage := { b with taken := some (f, fd) }

@[simp] theorem bump_self {n : ℕ} : (bump b f fd n).calls f fd = n := by
  change Function.update b.calls f _ f fd = n
  rw [Function.update_self, Function.update_self]

theorem bump_eq {n : ℕ} (h : b.calls f fd = n) : bump b f fd n = b := by
  unfold bump
  rw [← h, Function.update_eq_self, Function.update_eq_self]

@[simp] theorem bump_bump {m n : ℕ} : bump (bump b f fd m) f fd n = bump b f fd n := by
  unfold bump
  dsimp only
  rw [Function.update_self, Function.update_idem, Function.update_idem]

theorem bump_of_ne {g i n : ℕ} (h : g ≠ f ∨ i ≠ fd) : (bump b f fd n).calls g i = b.calls g i := by
  change Function.update b.calls f _ g i = b.calls g i
  by_cases hg : g = f
  · subst hg
    rw [Function.update_self, Function.update_of_ne (h.resolve_left fun h => h rfl)]
  · rw [Function.update_of_ne hg]

@[simp] theorem set_fdArray : (t.set fd file).fdArray fd = file := Function.update_self ..

theorem set_fdArray_ne {i : ℕ} (h : i ≠ fd) : (t.set fd file).fdArray i = t.fdArray i :=
  Function.update_of_ne h ..

theorem setFile_entry {g i : ℕ} {u : Files} (ht : k.files f = some t)
    (hg : (k.setFiles f (some (t.set fd file))).files g = some u) :
    g = f ∧ i = fd ∧ u.fdArray i = file ∨
      (g ≠ f ∨ i ≠ fd) ∧ ∃ u', k.files g = some u' ∧ u.fdArray i = u'.fdArray i := by
  by_cases he : g = f
  · subst he
    obtain rfl : t.set fd file = u := Option.some.inj (setFiles_files.symm.trans hg)
    by_cases hj : i = fd
    · subst hj
      exact .inl ⟨rfl, rfl, set_fdArray⟩
    · exact .inr ⟨.inr hj, t, ht, set_fdArray_ne hj⟩
  · exact .inr ⟨.inl he, u, (setFiles_files_ne he).symm.trans hg, rfl⟩

theorem setFile_links (ht : k.files f = some t) (g : ℕ) :
    ((k.setFiles f (some (t.set fd file))).files g).map Files.nlinks =
    (k.files g).map Files.nlinks := by
  by_cases he : g = f
  · subst he
    rw [setFiles_files, ht]
    rfl
  · rw [setFiles_files_ne he]

theorem Tables.setFile {n : ℕ} (h : Tables b k) (ht : k.files f = some t) (hok : file.Ok n)
    (hi : file.status = .init → b.taken = some (f, fd)) :
    Tables (bump b f fd n) (k.setFiles f (some (t.set fd file))) := by
  refine ⟨fun g => (setFile_links ht g).trans (h.links g), ?_, ?_⟩
  · intro g u hg i hi
    obtain ⟨rfl, rfl, hu⟩ | ⟨hne, u', hg', hu⟩ := setFile_entry (i := i) ht hg
    · rw [bump_self, hu]
      exact hok
    · rw [bump_of_ne hne, hu]
      exact h.entries g u' hg' i hi
  · intro g u hg i hlt hs
    obtain ⟨rfl, rfl, hu⟩ | ⟨-, u', hg', hu⟩ := setFile_entry (i := i) ht hg
    · rw [hu] at hs
      exact hi hs
    · rw [hu] at hs
      exact h.taken g u' hg' i hlt hs

theorem Books.setFile {n : ℕ} (h : Books c d b k) (ht : k.files f = some t)
    (hfd : fd < filesStructNentry) (file : File)
    (hd : ∀ p, d' p + file.holds p = d p + (t.fdArray fd).holds p) (hok : file.Ok n)
    (hi : file.status = .init → b.taken = some (f, fd)) :
    Books c d' (bump b f fd n) (k.setFiles f (some (t.set fd file))) :=
  ⟨h.acc.setFile ht hfd hd, h.tables.setFile ht hok hi⟩

theorem Books.setIdle {e : ℕ → ℤ} (h : Books c d b k) (ht : k.files f = some t)
    (hfd : fd < filesStructNentry)
    (hb : b.calls f fd = 0) (file : File)
    (hd : ∀ p, e p + file.holds p = d p + (t.fdArray fd).holds p) (hok : file.Ok 0)
    (hi : file.status = .init → b.taken = some (f, fd)) :
    Books c e b (k.setFiles f (some (t.set fd file))) := by
  have := h.setFile ht hfd file hd hok hi
  rwa [bump_eq hb] at this

theorem Books.untake (h : Books c d (b.take f fd) k) (ht : k.files f = some t)
    (hs : (t.fdArray fd).status ≠ .init) : Books c d b k := by
  refine ⟨h.acc, h.tables.links, h.tables.entries, ?_⟩
  intro g u hg i hlt hi
  obtain ⟨rfl, rfl⟩ := Prod.mk.inj (Option.some.inj (h.tables.taken g u hg i hlt hi))
  rw [ht] at hg
  obtain rfl := Option.some.inj hg
  exact absurd hi hs

theorem Tables.rest (h : Tables b k) (hr : Rest k k') : Tables b k' := by
  refine ⟨?_, ?_, ?_⟩
  · rw [hr.files]
    exact h.links
  · rw [hr.files]
    exact h.entries
  · rw [hr.files]
    exact h.taken

theorem Books.rest (h : Books c d b k) (hr : Rest k k') (ha : Acc c' d' k') : Books c' d' b k' :=
  ⟨ha, h.tables.rest hr⟩

theorem fileAt_eq (ht : k.files f = some t) : fileAt f fd k = .ok (t.fdArray fd, k) :=
  (Code.bind_ok (filesAt_eq ht)).trans rfl

theorem setFile_eq (ht : k.files f = some t) :
    Vfs.setFile f fd file k = .ok ((), k.setFiles f (some (t.set fd file))) :=
  (Code.bind_ok (filesAt_eq ht)).trans rfl

theorem setFiles_setFiles {o' : Option Files} :
    (k.setFiles f o).setFiles f o' = k.setFiles f o' := by
  unfold Kernel.setFiles
  rw [Function.update_idem]

theorem set_set {file' : File} : (t.set fd file).set fd file' = t.set fd file' := by
  unfold Files.set
  rw [Function.update_idem]

end Files

section Entry

variable {k k' : Kernel} {c d : ℕ → ℤ} {f fd p : ℕ} {t : Files} {b : Usage} {file : File}

theorem holds_of_node (hs : file.status = .opened ∨ file.status = .closed)
    (hp : file.node = some p) :
    file.holds p = 1 := if_pos ⟨hs, hp⟩

theorem holds_eq_zero (hs : file.status = .none ∨ file.status = .init) : file.holds p = 0 := by
  unfold File.holds
  rw [if_neg]
  rintro ⟨h | h, -⟩ <;> rcases hs with hs | hs <;> rw [hs] at h <;> cases h

theorem holds_congr {file' : File} (hs : (file'.status = .opened ∨ file'.status = .closed) ↔
    (file.status = .opened ∨ file.status = .closed)) (hn : file'.node = file.node) :
    file'.holds p = file.holds p := by
  unfold File.holds
  rw [hn]
  simp only [hs]

theorem Acc.opened_alive (ha : Acc c d k) (hd : 0 ≤ d p) (ht : k.files f = some t)
    (hfd : fd < filesStructNentry) (hh : (t.fdArray fd).holds p = 1) :
    0 < k.openOf p ∧ ∃ n, k.inode p = some n ∧ 0 < n.refCount := by
  have h₁ := opens_pos ha.coherent ht hfd hh
  have h₂ := ha.opens p
  have h₃ := ha.base_nonneg p
  exact ⟨by omega, ha.alive (by omega)⟩

theorem nodeOf_bind {α : Type} {g : ℕ → Prog α} {E : Panic → Prop} {Q : α → Kernel → Prop}
    (hp : file.node = some p) (h : Code.Wp (g p) k E Q) : Code.Wp (nodeOf file >>= g) k E Q := by
  unfold nodeOf
  rw [hp]
  exact h

/-- The tables are as before, but for the entry `fd` of the table `t` at `f`. -/
def Changes (P : File → Prop) (f fd : ℕ) (t : Files) (k k' : Kernel) : Prop :=
  ∃ file, P file ∧ k'.files = Function.update k.files f (some (t.set fd file))

/-- A use of a closed entry ends; the last one gives back the inode. -/
theorem fdArrayFree_wp {n : ℕ} (file : File) (h : Books c d b k) (hd : ∀ p, 0 ≤ d p)
    (ht : k.files f = some t)
    (hfd : fd < filesStructNentry) (hs : file.status = .closed) (hcount : file.openCount = n)
    (hp : file.node = some p) (hh : ∀ q, file.holds q = (t.fdArray fd).holds q) :
    Code.Wp (if (n : ℤ) = 0 then fdArrayFree f fd else pure ())
      (k.setFiles f (some (t.set fd file))) Allowed fun _ k' => Books c d (bump b f fd n) k' ∧
        Changes (fun file => file.status ≠ .opened) f fd t k k' := by
  have ha₁ : Acc c d (k.setFiles f (some (t.set fd file))) :=
    h.acc.setFile ht hfd fun q => by rw [hh]
  split
  · rename_i hn
    obtain rfl : n = 0 := by omega
    unfold fdArrayFree
    refine .bind_of (fileAt_eq setFiles_files) ?_
    rw [set_fdArray]
    refine Code.Wp.bind_assert (fun _ => ?_) fun h => absurd (.inr hs) h
    refine Code.Wp.bind_assert (fun _ => ?_) fun h => absurd hcount h
    rw [if_pos hs]
    refine nodeOf_bind hp ?_
    have hone := holds_of_node (.inr hs) hp
    have hopen := ha₁.opened_alive (hd p) setFiles_files hfd (by rw [set_fdArray]; exact hone)
    refine (vfsClose_wp ha₁ hopen.1).bind ?_
    rintro - k₂ ⟨hr, ha₂⟩
    have ht₂ : k₂.files f = some (t.set fd file) := by
      rw [hr.files]
      exact setFiles_files
    have hchange : Changes (fun file => file.status ≠ .opened) f fd t k
        (k₂.setFiles f (some ((t.set fd file).set fd { file with status := .none }))) := by
      refine ⟨{ file with status := .none }, by simp, ?_⟩
      rw [set_set]
      change Function.update k₂.files f _ = _
      rw [hr.files]
      exact Function.update_idem ..
    refine .of_ok (setFile_eq ht₂) ⟨⟨ha₂.setFile ht₂ hfd fun q => ?_, ?_⟩, hchange⟩
    · rw [holds_eq_zero (.inl rfl), set_fdArray]
      by_cases hq : q = p
      · subst hq
        rw [hone, more_self]
        omega
      · have : file.holds q = 0 := by
          unfold File.holds
          rw [if_neg]
          rintro ⟨-, h⟩
          rw [hp] at h
          exact hq (Option.some.inj h).symm
        rw [this, more_ne hq]
    · have hr' : Rest (k.setFiles f (some (t.set fd { file with status := .none })))
          (k₂.setFiles f (some ((t.set fd file).set fd { file with status := .none }))) := by
        rw [set_set]
        refine ⟨hr.bootfs, hr.devnode, ?_, hr.fbrk⟩
        change Function.update k₂.files f _ = Function.update k.files f _
        rw [hr.files]
        exact Function.update_idem ..
      have hok : File.Ok 0 { file with status := .none } := ⟨hcount, rfl⟩
      exact (h.tables.setFile ht hok (by simp)).rest hr'
  · rename_i hn
    refine Code.Wp.pure ⟨⟨ha₁, h.tables.setFile ht ?_ (by simp [hs])⟩, file, by simp [hs], rfl⟩
    unfold File.Ok
    rw [hs]
    exact ⟨hcount, by omega, by rw [hp]; simp⟩

theorem Tables.opened (h : Tables b k) (ht : k.files f = some t) (hfd : fd < filesStructNentry)
    (hs : (t.fdArray fd).status = .opened) :
    (t.fdArray fd).openCount = 1 + b.calls f fd ∧ ∃ p, (t.fdArray fd).node = some p := by
  have := h.entries f t ht fd hfd
  unfold File.Ok at this
  rw [hs] at this
  exact ⟨this.1, Option.ne_none_iff_exists'.mp this.2⟩

theorem fdArrayClose_wp (h : Books c d b k) (hd : ∀ p, 0 ≤ d p) (ht : k.files f = some t)
    (hfd : fd < filesStructNentry) (hs : (t.fdArray fd).status = .opened) :
    Code.Wp (fdArrayClose f fd) k Allowed fun _ k' => Books c d b k' ∧
      Changes (fun file => file.status ≠ .opened) f fd t k k' := by
  obtain ⟨hcount, p, hp⟩ := h.tables.opened ht hfd hs
  unfold fdArrayClose
  refine .bind_of (fileAt_eq ht) ?_
  refine Code.Wp.bind_assert (fun _ => ?_) fun h => absurd hs h
  refine Code.Wp.bind_assert (fun _ => ?_) fun h => absurd (by omega) h
  refine .bind_of (setFile_eq ht) ?_
  have hcount' : (t.fdArray fd).openCount - 1 = b.calls f fd := by omega
  rw [hcount']
  have hfree :=
    fdArrayFree_wp { t.fdArray fd with status := .closed, openCount := b.calls f fd } h hd ht hfd
    rfl rfl hp fun q => holds_congr (by simp [hs]) rfl
  rwa [bump_eq rfl] at hfree

theorem fdArrayAcquire_wp (h : Books c d b k) (ht : k.files f = some t)
    (hfd : fd < filesStructNentry)
    (hs : (t.fdArray fd).status = .opened) :
    Code.Wp (fdArrayAcquire f fd) k Allowed fun _ k' =>
    Books c d (bump b f fd (b.calls f fd + 1)) k' ∧
      k' = k.setFiles f (some (t.set fd { t.fdArray fd with
        openCount := (t.fdArray fd).openCount + 1 })) := by
  obtain ⟨hcount, p, hp⟩ := h.tables.opened ht hfd hs
  unfold fdArrayAcquire
  refine .bind_of (fileAt_eq ht) ?_
  refine Code.Wp.bind_assert (fun _ => ?_) fun h => absurd hs h
  have hok : File.Ok (b.calls f fd + 1)
      { t.fdArray fd with openCount := (t.fdArray fd).openCount + 1 } := by
    unfold File.Ok
    dsimp only
    rw [hs, hp]
    exact ⟨by omega, by simp⟩
  exact .of_ok (setFile_eq ht) ⟨h.setFile ht hfd _ (fun q => rfl) hok (by simp [hs]), rfl⟩

theorem fdArrayRelease_wp (h : Books c d b k) (hd : ∀ p, 0 ≤ d p) (ht : k.files f = some t)
    (hfd : fd < filesStructNentry) (hb : 0 < b.calls f fd) :
    Code.Wp (fdArrayRelease f fd) k Allowed fun _ k' =>
    Books c d (bump b f fd (b.calls f fd - 1)) k' := by
  have hok := h.tables.entries f t ht fd hfd
  unfold fdArrayRelease
  refine .bind_of (fileAt_eq ht) ?_
  unfold File.Ok at hok
  split at hok
  · omega
  · omega
  · rename_i hs
    obtain ⟨hcount, hp⟩ := hok
    refine Code.Wp.bind_assert (fun _ => ?_) fun h => absurd (.inl hs) h
    refine Code.Wp.bind_assert (fun _ => ?_) fun h => absurd (by omega) h
    refine .bind_of (setFile_eq ht) ?_
    rw [if_neg (by omega)]
    have hok : File.Ok (b.calls f fd - 1)
        { t.fdArray fd with openCount := (t.fdArray fd).openCount - 1 } := by
      unfold File.Ok
      dsimp only
      rw [hs]
      exact ⟨by omega, hp⟩
    exact Code.Wp.pure (h.setFile ht hfd _ (fun q => rfl) hok (by simp [hs]))
  · rename_i hs
    obtain ⟨hcount, -, hp⟩ := hok
    obtain ⟨p, hp⟩ := Option.ne_none_iff_exists'.mp hp
    refine Code.Wp.bind_assert (fun _ => ?_) fun h => absurd (.inr hs) h
    refine Code.Wp.bind_assert (fun _ => ?_) fun h => absurd (by omega) h
    refine .bind_of (setFile_eq ht) ?_
    have hcount' : (t.fdArray fd).openCount - 1 = (b.calls f fd - 1 : ℕ) := by omega
    rw [hcount']
    exact (fdArrayFree_wp { t.fdArray fd with openCount := (b.calls f fd - 1 : ℕ) } h hd ht
      hfd hs rfl hp
      fun q => rfl).mono (fun _ h => h) fun _ _ h => h.1

end Entry

section Alloc

variable {k k' : Kernel} {c d : ℕ → ℤ} {f fd cur p : ℕ} {t : Files} {b : Usage} {file : File}

theorem firstNone_spec {n i : ℕ} (h : firstNone t n i = some fd) :
    fd < i + n ∧ (t.fdArray fd).status = .none := by
  induction n generalizing i with
  | zero => cases h
  | succ n ih =>
    unfold firstNone at h
    split at h
    · rename_i hs
      obtain rfl := Option.some.inj h
      exact ⟨by omega, hs⟩
    · obtain ⟨h₁, h₂⟩ := ih h
      exact ⟨by omega, h₂⟩

theorem fdArrayFind_inr {i : ℤ} (h : fdArrayFind t i = .inr fd) :
    fd < filesStructNentry ∧ (t.fdArray fd).status = .none := by
  unfold fdArrayFind at h
  split at h
  · split at h
    · rename_i j hj
      obtain rfl := Sum.inr.inj h
      have := firstNone_spec hj
      exact ⟨by omega, this.2⟩
    · cases h
  · split at h
    · rename_i hi
      split at h
      · rename_i hs
        obtain rfl := Sum.inr.inj h
        exact ⟨by omega, hs⟩
      · cases h
    · cases h

theorem fdArrayFind_inl {i ret : ℤ} (h : fdArrayFind t i = .inl ret) : ret < 0 := by
  unfold fdArrayFind at h
  split at h
  · split at h
    · cases h
    · obtain rfl := Sum.inl.inj h
      decide
  · split at h
    · split at h
      · cases h
      · obtain rfl := Sum.inl.inj h
        decide
    · obtain rfl := Sum.inl.inj h
      decide

/-- The free entry `fd` is taken. -/
def Taken (k : Kernel) (f : ℕ) (t : Files) (fd : ℕ) : Kernel :=
  k.setFiles f (some (t.set fd { t.fdArray fd with status := .init, node := none }))

/-- The outcomes of `fd_array_alloc`. -/
inductive Alloced (k : Kernel) (cur : ℕ) : ℤ × ℕ → Kernel → Prop
  | failed {ret : ℤ} : ret < 0 → Alloced k cur (ret, 0) k
  | taken {t : Files} {fd : ℕ} : k.files cur = some t → fd < filesStructNentry →
      (t.fdArray fd).status = .none → (t.fdArray fd).openCount = 0 →
      Alloced k cur (0, fd) (Taken k cur t fd)

theorem Tables.free (h : Tables b k) (ht : k.files f = some t) (hfd : fd < filesStructNentry)
    (hs : (t.fdArray fd).status = .none ∨ (t.fdArray fd).status = .init) :
    (t.fdArray fd).openCount = 0 ∧ b.calls f fd = 0 := by
  have := h.entries f t ht fd hfd
  unfold File.Ok at this
  rcases hs with hs | hs <;> rw [hs] at this <;> exact this

theorem fdArrayAlloc_find {i : ℤ} (h : Tables b k) :
    Code.Wp (fdArrayAlloc cur i) k Allowed fun r k' =>
    ∃ t, k.files cur = some t ∧ ((∃ ret, fdArrayFind t i = .inl ret ∧ r = (ret, 0) ∧ k' = k) ∨
      ∃ fd, fdArrayFind t i = .inr fd ∧ r = (0, fd) ∧ k' = Taken k cur t fd) := by
  refine filesAt_bind fun t ht => ?_
  cases hf : fdArrayFind t i with
  | inl ret => exact Code.Wp.pure ⟨t, ht, .inl ⟨ret, hf, rfl, rfl⟩⟩
  | inr fd =>
    obtain ⟨hfd, hs⟩ := fdArrayFind_inr hf
    obtain ⟨hcount, -⟩ := h.free ht hfd (.inl hs)
    refine .bind_of (fileAt_eq ht) ?_
    refine Code.Wp.bind_assert (fun _ => ?_) fun h => absurd hcount h
    refine .bind_of (setFile_eq ht) ?_
    exact Code.Wp.pure ⟨t, ht, .inr ⟨fd, hf, rfl, rfl⟩⟩

theorem fdArrayAlloc_wp {i : ℤ} (h : Tables b k) :
    Code.Wp (fdArrayAlloc cur i) k Allowed (Alloced k cur) := by
  refine (fdArrayAlloc_find h).mono (fun _ he => he) ?_
  rintro _ _ ⟨t, ht, ⟨ret, hf, rfl, rfl⟩ | ⟨fd, hf, rfl, rfl⟩⟩
  · exact .failed (fdArrayFind_inl hf)
  · obtain ⟨hfd, hs⟩ := fdArrayFind_inr hf
    exact .taken ht hfd hs (h.free ht hfd (.inl hs)).1

theorem Books.taken (h : Books c d b k) (hu : b.taken = none) (ht : k.files cur = some t)
    (hfd : fd < filesStructNentry) (hs : (t.fdArray fd).status = .none) :
    Books c d (b.take cur fd) (Taken k cur t fd) := by
  obtain ⟨hcount, hb⟩ := h.tables.free ht hfd (.inl hs)
  have h' : Books c d (b.take cur fd) k := by
    refine ⟨h.acc, h.tables.links, h.tables.entries, fun g u hg i hi hinit => ?_⟩
    have := h.tables.taken g u hg i hi hinit
    rw [hu] at this
    cases this
  have hok : File.Ok 0 { t.fdArray fd with status := .init, node := none } := ⟨hcount, rfl⟩
  refine h'.setIdle ht hfd hb _ (fun q => ?_) hok fun _ => rfl
  rw [holds_eq_zero (.inr rfl), holds_eq_zero (.inl hs)]

theorem fdArrayFree_init (h : Books c d (b.take f fd) k) (ht : k.files f = some t)
    (hfd : fd < filesStructNentry) (hs : (t.fdArray fd).status = .init) :
    Code.Wp (fdArrayFree f fd) k Allowed fun _ k' => Books c d b k' ∧
      k' = k.setFiles f (some (t.set fd { t.fdArray fd with status := .none })) := by
  obtain ⟨hcount, hb⟩ := h.tables.free ht hfd (.inr hs)
  unfold fdArrayFree
  refine .bind_of (fileAt_eq ht) ?_
  refine Code.Wp.bind_assert (fun _ => ?_) fun h => absurd (.inl hs) h
  refine Code.Wp.bind_assert (fun _ => ?_) fun h => absurd hcount h
  rw [if_neg (by simp [hs])]
  have hok : File.Ok 0 { t.fdArray fd with status := .none } := ⟨hcount, rfl⟩
  have hfree := h.setIdle (e := d) ht hfd hb { t.fdArray fd with status := .none } (fun q => ?_) hok
    (by simp)
  · exact .of_ok (setFile_eq ht) ⟨hfree.untake setFiles_files (by simp), rfl⟩
  · rw [holds_eq_zero (.inl rfl), holds_eq_zero (.inr hs)]

theorem fdArrayOpen_wp (h : Books c (more d p 1) (b.take f fd) k) (ht : k.files f = some t)
    (hfd : fd < filesStructNentry) (hs : (t.fdArray fd).status = .init)
    (hp : (t.fdArray fd).node = some p) :
    Code.Wp (fdArrayOpen f fd) k Allowed fun _ k' => Books c d b k' ∧
      k' = k.setFiles f (some (t.set fd { t.fdArray fd with
        status := .opened, openCount := (t.fdArray fd).openCount + 1 })) := by
  obtain ⟨hcount, hb⟩ := h.tables.free ht hfd (.inr hs)
  unfold fdArrayOpen
  refine .bind_of (fileAt_eq ht) ?_
  refine Code.Wp.bind_assert (fun _ => ?_) fun h => absurd ⟨hs, by simp [hp]⟩ h
  have hok : File.Ok 0 { t.fdArray fd with
      status := .opened, openCount := (t.fdArray fd).openCount + 1 } :=
    ⟨by rw [hcount]; rfl, by simp [hp]⟩
  have hopen := h.setIdle (e := d) ht hfd hb { t.fdArray fd with
    status := .opened, openCount := (t.fdArray fd).openCount + 1 } (fun q => ?_) hok (by simp)
  · exact .of_ok (setFile_eq ht) ⟨hopen.untake setFiles_files (by simp), rfl⟩
  rw [holds_eq_zero (.inr hs)]
  unfold File.holds more
  simp only [hp, true_or, true_and, Option.some.injEq]
  by_cases hq : q = p
  · rw [if_pos hq.symm, if_pos hq]
    omega
  · rw [if_neg fun h => hq h.symm, if_neg hq]

end Alloc

/-- An entry as before: the fields of a free entry do not count. -/
def File.Same (file file' : File) : Prop :=
  file'.status = file.status ∧ file'.openCount = file.openCount ∧
    (file.status ≠ .none → file' = file)

/-- The tables of open files are as before. -/
def SameTables (k k' : Kernel) : Prop :=
  ∀ f, match k.files f, k'.files f with
    | some t, some t' => t'.pwd = t.pwd ∧ t'.nlinks = t.nlinks ∧
      ∀ fd, (t.fdArray fd).Same (t'.fdArray fd)
    | none, none => True
    | _, _ => False

section Open

variable {k k' : Kernel} {c d : ℕ → ℤ} {f fd cur p flags : ℕ} {t : Files} {b : Usage} {file : File}
  {path : Str} {pos : ℤ}

theorem File.Same.refl (file : File) : file.Same file := ⟨rfl, rfl, fun _ => rfl⟩

theorem SameTables.of_files (h : k'.files = k.files) : SameTables k k' := by
  intro f
  rw [h]
  cases k.files f with
  | none => trivial
  | some t => exact ⟨rfl, rfl, fun _ => .refl _⟩

theorem SameTables.of_entry (ht : k.files f = some t) (hs : (t.fdArray fd).Same file)
    (h : k'.files = Function.update k.files f (some (t.set fd file))) : SameTables k k' := by
  intro g
  rw [h]
  by_cases hg : g = f
  · subst hg
    rw [Function.update_self, ht]
    refine ⟨rfl, rfl, fun i => ?_⟩
    by_cases hi : i = fd
    · subst hi
      rw [set_fdArray]
      exact hs
    · change (t.fdArray i).Same (Function.update t.fdArray fd file i)
      rw [Function.update_of_ne hi]
      exact .refl _
  · rw [Function.update_of_ne hg]
    cases k.files g with
    | none => trivial
    | some t => exact ⟨rfl, rfl, fun _ => .refl _⟩

theorem fileInstall_wp (h : Books c (more d p 1) (b.take f fd) k) (ht : k.files f = some t)
    (hfd : fd < filesStructNentry) (hs : (t.fdArray fd).status = .init) :
    Code.Wp (fileInstall f fd p flags pos) k Allowed fun ret k' => ret = fd ∧ Books c d b k' := by
  obtain ⟨hcount, hb⟩ := h.tables.free ht hfd (.inr hs)
  unfold fileInstall
  refine .bind_of (fileAt_eq ht) ?_
  refine .bind_of (setFile_eq ht) ?_
  have hok : File.Ok 0 { t.fdArray fd with
      pos := pos, node := some p
      readable := decide (flags &&& oAccmode ≠ oWronly)
      writable := decide (flags &&& oAccmode ≠ 0) } := by
    unfold File.Ok
    dsimp only
    rw [hs]
    exact ⟨hcount, rfl⟩
  have h₁ := h.setIdle (e := more d p 1) ht hfd hb { t.fdArray fd with
    pos := pos, node := some p
    readable := decide (flags &&& oAccmode ≠ oWronly)
    writable := decide (flags &&& oAccmode ≠ 0) }
    (fun q => by simp [File.holds, hs]) hok fun _ => rfl
  refine (fdArrayOpen_wp h₁ setFiles_files hfd (by rw [set_fdArray]; exact hs)
    (by rw [set_fdArray])).bind ?_
  rintro - k' ⟨hk, -⟩
  exact Code.Wp.pure ⟨rfl, hk⟩

/-- The outcomes of `file_open`. -/
inductive FileOpened (c d : ℕ → ℤ) (b : Usage) (k : Kernel) (cur : ℕ) (path : Str) (flags : ℕ) :
    ℤ → Kernel → Prop
  | opened {fd : ℕ} {k' : Kernel} : Books c d b k' → FileOpened c d b k cur path flags fd k'
  | failed {ret : ℤ} {k' : Kernel} : Books c d b k' → SameTables k k' →
      FileOpened c d b k cur path flags ret k'
  | kept {t : Files} {fd p : ℕ} {k₁ k' : Kernel} : k.files cur = some t →
      Kept cur path flags (Taken k cur t fd) k₁ p → Books (more c p 1) d b k' → SameTables k k' →
      FileOpened c d b k cur path flags (-eExists) k'

theorem fileOpen_wp (hc : ∀ q, 0 ≤ c q) (hu : b.taken = none) (h : Books c d b k) :
    Code.Wp (fileOpen cur path flags) k Allowed (FileOpened c d b k cur path flags) := by
  have hsame := SameTables.of_files (rfl : k.files = k.files)
  unfold fileOpen
  split
  · exact Code.Wp.pure (.failed h hsame)
  refine (fdArrayAlloc_wp h.tables).bind ?_
  rintro _ _ (⟨hret⟩ | ⟨ht, hfd, hs, hcount⟩)
  · rename_i ret
    dsimp only
    rw [if_pos (by omega)]
    exact Code.Wp.pure (.failed h hsame)
  rename_i t fd
  have h₁ := h.taken hu ht hfd hs
  dsimp only
  rw [if_neg (by simp)]
  -- what is left of the taken entry after a failure
  have hfree : ∀ {k₂ k₃ : Kernel}, Rest (Taken k cur t fd) k₂ → k₃ = k₂.setFiles cur (some
      ((t.set fd { t.fdArray fd with status := .init, node := none }).set fd
        { t.fdArray fd with status := .none, node := none })) → SameTables k k₃ := by
    rintro k₂ k₃ hr rfl
    have hentry : (t.fdArray fd).Same { t.fdArray fd with status := .none, node := none } :=
      ⟨hs.symm, rfl, fun hn => absurd hs hn⟩
    refine .of_entry ht hentry ?_
    rw [set_set]
    change Function.update k₂.files cur _ = _
    rw [hr.files]
    exact Function.update_idem ..
  have htaken : ∀ {k₂ : Kernel}, Rest (Taken k cur t fd) k₂ → k₂.files cur = some (t.set fd
      { t.fdArray fd with status := .init, node := none }) := by
    intro k₂ hr
    rw [hr.files]
    exact setFiles_files
  refine (vfsOpen_wp hc h₁.acc).bind ?_
  rintro ⟨ret, p⟩ k₂ (⟨hr, ha⟩ | ⟨hret, q, hkept, hr, ha⟩)
  · dsimp only at ha ⊢
    split
    · rename_i hret
      rw [if_neg hret] at ha
      refine (fdArrayFree_init (h₁.rest hr ha) (htaken hr) hfd (by rw [set_fdArray])).bind ?_
      rintro - k₃ ⟨h₃, hk₃⟩
      rw [set_fdArray] at hk₃
      exact Code.Wp.pure (.failed h₃ (hfree hr hk₃))
    · rename_i hret
      rw [if_pos (not_not.mp hret)] at ha
      have h₂ := h₁.rest hr ha
      split
      · have := ha.base_nonneg p
        obtain ⟨n, hn, -⟩ := ha.alive (p := p) (by have := h₁.acc.opened hr ha; omega)
        refine (vopFstat_wp hn (ha.ordered hn)).bind ?_
        rintro ⟨ret, stat⟩ k₃ hk₃
        have hr₃ := hr.trans hk₃.rest
        have ha₃ := hk₃.acc ha
        dsimp only
        split
        · refine (vfsClose_wp ha₃ (h₁.acc.opened hr₃ ha₃)).bind ?_
          rintro - k₄ ⟨hr₄, ha₄⟩
          have hr₄ := hr₃.trans hr₄
          have ha₄ : Acc c d k₄ := by simpa using ha₄
          refine (fdArrayFree_init (h₁.rest hr₄ ha₄) (htaken hr₄) hfd (by rw [set_fdArray])).bind ?_
          rintro - k₅ ⟨h₅, hk₅⟩
          rw [set_fdArray] at hk₅
          exact Code.Wp.pure (.failed h₅ (hfree hr₄ hk₅))
        · refine (fileInstall_wp (h₁.rest hr₃ ha₃) (htaken hr₃) hfd (by rw [set_fdArray])).mono
            (fun _ h => h) ?_
          rintro ret k' ⟨rfl, hk'⟩
          exact .opened hk'
      · refine (fileInstall_wp h₂ (htaken hr) hfd (by rw [set_fdArray])).mono (fun _ h => h) ?_
        rintro ret k' ⟨rfl, hk'⟩
        exact .opened hk'
  · dsimp only at hret ⊢
    rw [if_pos (by rw [hret]; decide)]
    refine (fdArrayFree_init (h₁.rest hr ha) (htaken hr) hfd (by rw [set_fdArray])).bind ?_
    rintro - k₃ ⟨h₃, hk₃⟩
    rw [set_fdArray] at hk₃
    subst hret
    exact Code.Wp.pure (.kept ht hkept h₃ (hfree hr hk₃))

end Open

section Call

variable {k k' : Kernel} {c d : ℕ → ℤ} {f fd cur p : ℕ} {t : Files} {b : Usage} {file : File}
  {i : ℤ}

theorem fd2file_wp : Code.Wp (fd2file cur i) k Allowed fun r k' => k = k' ∧ (r.1 = 0 → ∃ t,
    k.files cur = some t ∧ r.2 < filesStructNentry ∧ (t.fdArray r.2).status = .opened) := by
  refine filesAt_bind fun t ht => ?_
  split
  · rename_i hi
    exact Code.Wp.pure ⟨rfl, fun _ => ⟨t, ht, by dsimp only; omega, hi.2.2⟩⟩
  · exact Code.Wp.pure ⟨rfl, fun h => absurd h (by decide)⟩

theorem fileClose_wp (hd : ∀ q, 0 ≤ d q) (h : Books c d b k) :
    Code.Wp (fileClose cur i) k Allowed fun _ k' => Books c d b k' := by
  unfold fileClose
  refine fd2file_wp.bind ?_
  rintro ⟨ret, fd⟩ _ ⟨rfl, hr⟩
  dsimp only at hr ⊢
  split
  · exact Code.Wp.pure h
  · rename_i hret
    obtain ⟨t, ht, hfd, hs⟩ := hr (not_not.mp hret)
    exact (fdArrayClose_wp h hd ht hfd hs).bind fun _ _ h => Code.Wp.pure h.1

theorem Books.setPos (h : Books c d b k) (ht : k.files f = some t) (hfd : fd < filesStructNentry)
    (pos : ℤ) : Books c d b (k.setFiles f (some (t.set fd { t.fdArray fd with pos := pos }))) := by
  have hok : File.Ok (b.calls f fd) { t.fdArray fd with pos := pos } :=
    h.tables.entries f t ht fd hfd
  have := h.setFile ht hfd { t.fdArray fd with pos := pos } (fun q => rfl) hok
    (h.tables.taken f t ht fd hfd)
  rwa [bump_eq rfl] at this

/-- The entry is in use: it is opened, or closed with a call on it. -/
def Uses (b : Usage) (k : Kernel) (f fd : ℕ) : Prop :=
  0 < b.calls f fd ∧ fd < filesStructNentry ∧ (k.files f).isSome

theorem Uses.files (h : Uses b k f fd) : ∃ t, k.files f = some t :=
    Option.isSome_iff_exists.mp h.2.2

theorem Uses.rest (h : Uses b k f fd) (hr : Rest k k') : Uses b k' f fd := by
  unfold Uses at *
  rw [hr.files]
  exact h

theorem Uses.node (hu : Uses b k f fd) (h : Books c d b k) (hd : ∀ q, 0 ≤ d q)
    (ht : k.files f = some t) :
    ∃ p n, (t.fdArray fd).node = some p ∧ k.inode p = some n ∧ 0 < n.refCount := by
  have hok := h.tables.entries f t ht fd hu.2.1
  have hb := hu.1
  have hnode : ∃ p, (t.fdArray fd).node = some p ∧
      ((t.fdArray fd).status = .opened ∨ (t.fdArray fd).status = .closed) := by
    unfold File.Ok at hok
    split at hok
    · omega
    · omega
    · rename_i hs
      obtain ⟨p, hp⟩ := Option.ne_none_iff_exists'.mp hok.2
      exact ⟨p, hp, .inl hs⟩
    · rename_i hs
      obtain ⟨p, hp⟩ := Option.ne_none_iff_exists'.mp hok.2.2
      exact ⟨p, hp, .inr hs⟩
  obtain ⟨p, hp, hs⟩ := hnode
  obtain ⟨n, hn⟩ := (h.acc.opened_alive (hd p) ht hu.2.1 (holds_of_node hs hp)).2
  exact ⟨p, n, hp, hn⟩

/-- What a call does with an entry that it has acquired: it keeps the books. -/
def Keeps {α : Type} (c d : ℕ → ℤ) (b : Usage) (f fd : ℕ) (m : Prog α) : Prop :=
  ∀ k, Books c d b k → Uses b k f fd →
    Code.Wp m k Allowed fun _ k' => Books c d b k' ∧ Uses b k' f fd

section Body

variable {α β : Type}

theorem keeps_pure {a : α} : Keeps c d b f fd (pure a : Prog α) := fun _ h hu =>
  Code.Wp.pure ⟨h, hu⟩

theorem Keeps.bind {m : Prog α} {g : α → Prog β} (hm : Keeps c d b f fd m)
    (hg : ∀ a, Keeps c d b f fd (g a)) : Keeps c d b f fd (m >>= g) := fun k h hu =>
  (hm k h hu).bind fun a k' hk => hg a k' hk.1 hk.2

theorem keeps_vop {g : File → ℕ → Prog α} {g' : File → α → Prog β} (hd : ∀ q, 0 ≤ d q)
    (hg : ∀ {k : Kernel} {p : ℕ} {n : Inode} (file : File), k.inode p = some n → n.Ordered →
      Code.Wp (g file p) k Allowed fun _ k' => Quiet k k')
    (hg' : ∀ file a, Keeps c d b f fd (g' file a)) : Keeps c d b f fd (do
      let file ← fileAt f fd
      let p ← nodeOf file
      let a ← g file p
      g' file a) := by
  intro k h hu
  obtain ⟨t, ht⟩ := hu.files
  obtain ⟨p, n, hp, hn, -⟩ := hu.node h hd ht
  refine .bind_of (fileAt_eq ht) (nodeOf_bind hp ?_)
  refine (hg _ hn (h.acc.ordered hn)).bind fun a k' hk => ?_
  exact hg' _ a k' (h.rest hk.rest (hk.acc h.acc)) (hu.rest hk.rest)

theorem advance_keeps {copied : ℕ} : Keeps c d b f fd (advance f fd copied) := by
  intro k h hu
  obtain ⟨t, ht⟩ := hu.files
  unfold advance
  refine .bind_of (fileAt_eq ht) ?_
  split
  · exact .of_ok (setFile_eq ht) ⟨h.setPos ht hu.2.1 _, hu.1, hu.2.1, by simp⟩
  · exact Code.Wp.pure ⟨h, hu⟩

variable (hd : ∀ q, 0 ≤ d q)

include hd

theorem readBody_keeps (buf : Buf) (len : ℕ) : Keeps c d b f fd (readBody f fd buf len) :=
  keeps_vop hd (fun _ hn ho => vopRead_wp hn ho buf len _) fun _ _ =>
    advance_keeps.bind fun _ => keeps_pure

theorem writeBody_keeps (buf : Buf) (len : ℕ) : Keeps c d b f fd (writeBody f fd buf len) :=
  keeps_vop hd (fun _ hn ho => vopWrite_wp hn ho buf len _) fun _ _ =>
    advance_keeps.bind fun _ => keeps_pure

theorem fstatBody_keeps : Keeps c d b f fd (fstatBody f fd) := by
  intro k h hu
  obtain ⟨t, ht⟩ := hu.files
  obtain ⟨p, n, hp, hn, -⟩ := hu.node h hd ht
  refine .bind_of (fileAt_eq ht) (nodeOf_bind hp ?_)
  exact (vopFstat_wp hn (h.acc.ordered hn)).mono (fun _ h => h) fun _ k' hk =>
    ⟨h.rest hk.rest (hk.acc h.acc), hu.rest hk.rest⟩

theorem fsyncBody_keeps : Keeps c d b f fd (fsyncBody f fd) := by
  intro k h hu
  obtain ⟨t, ht⟩ := hu.files
  obtain ⟨p, n, hp, hn, -⟩ := hu.node h hd ht
  refine .bind_of (fileAt_eq ht) (nodeOf_bind hp ?_)
  exact (vopFsync_wp hn (h.acc.ordered hn)).mono (fun _ h => h) fun _ k' hk =>
    ⟨h.rest hk.rest (hk.acc h.acc), hu.rest hk.rest⟩

theorem getdirentryBody_keeps (offset : ℤ) : Keeps c d b f fd (getdirentryBody f fd offset) := by
  refine keeps_vop hd (fun _ hn ho => vopGetdirentry_wp hn ho offset) ?_
  rintro - ⟨ret, used, name⟩
  dsimp only
  split
  · exact keeps_pure
  · exact keeps_pure

theorem seekBody_keeps (pos whence : ℤ) : Keeps c d b f fd (seekBody f fd pos whence) := by
  intro k h hu
  obtain ⟨t, ht⟩ := hu.files
  obtain ⟨p, n, hp, hn, -⟩ := hu.node h hd ht
  refine .bind_of (fileAt_eq ht) (nodeOf_bind hp ?_)
  have htarget :
      Code.Wp (seekTarget (t.fdArray fd) p pos whence) k Allowed fun _ k' => Quiet k k' := by
    unfold seekTarget
    split
    · exact Code.Wp.pure (.refl k)
    split
    · exact Code.Wp.pure (.refl k)
    split
    · exact (vopFstat_wp hn (h.acc.ordered hn)).bind fun _ _ hk => Code.Wp.pure hk
    · exact Code.Wp.pure (.refl k)
  refine htarget.bind ?_
  rintro ⟨ret, pos⟩ k₁ hk₁
  have h₁ := h.rest hk₁.rest (hk₁.acc h.acc)
  dsimp only
  split
  · exact Code.Wp.pure ⟨h₁, hu.rest hk₁.rest⟩
  · rw [← hk₁.inode] at hn
    refine (vopTryseek_wp hn (h₁.acc.ordered hn) pos).bind fun ret k₂ hk₂ => ?_
    have h₂ := h₁.rest hk₂.rest (hk₂.acc h₁.acc)
    have hu₂ := (hu.rest hk₁.rest).rest hk₂.rest
    split
    · exact Code.Wp.pure ⟨h₂, hu₂⟩
    · obtain ⟨t₂, ht₂⟩ := hu₂.files
      refine .bind_of (fileAt_eq ht₂) ?_
      refine .bind_of (setFile_eq ht₂) ?_
      exact Code.Wp.pure ⟨h₂.setPos ht₂ hu.2.1 _, hu.1, hu.2.1, by simp⟩

theorem withFile_wp {m : Prog α} (h : Books c d b k) (ht : k.files f = some t)
    (hfd : fd < filesStructNentry) (hs : (t.fdArray fd).status = .opened)
    (hm : ∀ b, Keeps c d b f fd m) :
    Code.Wp (withFile f fd m) k Allowed fun _ k' => Books c d b k' := by
  unfold withFile
  refine (fdArrayAcquire_wp h ht hfd hs).bind ?_
  rintro - k₁ ⟨h₁, rfl⟩
  refine (hm _ _ h₁ ⟨by simp, hfd, by simp⟩).bind ?_
  rintro a k₂ ⟨h₂, hu₂⟩
  obtain ⟨t₂, ht₂⟩ := hu₂.files
  refine (fdArrayRelease_wp h₂ hd ht₂ hfd hu₂.1).bind fun _ k₃ h₃ => ?_
  refine Code.Wp.pure ?_
  rwa [bump_self, bump_bump, Nat.add_sub_cancel, bump_eq rfl] at h₃

end Body

end Call

end UCore.Vfs

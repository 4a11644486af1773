import UCore.Vfs.Tables

/-! # Calls on files and directories

The calls of a process keep the books: those on its open files, the change of its working directory
and the duplication of an entry.
-/

namespace UCore.Vfs

open Library Sfs

section Call

variable {α : Type} {k : Kernel} {c d : ℕ → ℤ} {cur p : ℕ} {t : Files} {b : Usage} {i : ℤ}

theorem fd2file_bind {g : ℤ × ℕ → Prog α} {Q : α → Kernel → Prop}
    (hfail : ∀ r, r.1 ≠ 0 → Code.Wp (g r) k Allowed Q)
    (h : ∀ fd t, k.files cur = some t → fd < filesStructNentry → (t.fdArray fd).status = .opened →
      Code.Wp (g (0, fd)) k Allowed Q) : Code.Wp (fd2file cur i >>= g) k Allowed Q := by
  refine fd2file_wp.bind ?_
  rintro ⟨ret, fd⟩ _ ⟨rfl, hr⟩
  by_cases hret : ret = 0
  · subst hret
    obtain ⟨t, ht, hfd, hs⟩ := hr rfl
    exact h fd t ht hfd hs
  · exact hfail _ hret

section Open

variable (hd : ∀ q, 0 ≤ d q) (h : Books c d b k)

include hd h

theorem onFile_wp {x : ℤ × ℕ → α} {m : ℕ → Prog α} (hm : ∀ b fd, Keeps c d b cur fd (m fd)) :
    Code.Wp (do
      let (ret, fd) ← fd2file cur i
      if ret ≠ 0 then return x (ret, fd)
      else withFile cur fd (m fd)) k Allowed fun _ k' => Books c d b k' := by
  refine fd2file_bind (fun r hr => ?_) fun fd t ht hfd hs => ?_
  · dsimp only
    rw [if_pos hr]
    exact Code.Wp.pure h
  · dsimp only
    rw [if_neg (by simp)]
    exact withFile_wp hd h ht hfd hs fun b => hm b fd

theorem fileSeek_wp {pos whence : ℤ} :
    Code.Wp (fileSeek cur i pos whence) k Allowed fun _ k' => Books c d b k' :=
  onFile_wp hd h fun _ _ => seekBody_keeps hd pos whence

theorem fileFstat_wp : Code.Wp (fileFstat cur i) k Allowed fun _ k' => Books c d b k' :=
  onFile_wp (x := fun r => (r.1, (⟨0, 0, 0, 0⟩ : Stat))) hd h fun _ _ => fstatBody_keeps hd

theorem fileFsync_wp : Code.Wp (fileFsync cur i) k Allowed fun _ k' => Books c d b k' :=
  onFile_wp hd h fun _ _ => fsyncBody_keeps hd

theorem fileGetdirentry_wp {offset : ℤ} :
    Code.Wp (fileGetdirentry cur i offset) k Allowed fun _ k' => Books c d b k' :=
  onFile_wp (x := fun r => (r.1, offset, [])) hd h fun _ _ => getdirentryBody_keeps hd offset

theorem fileRead_wp {buf : Buf} {len : ℕ} :
    Code.Wp (fileRead cur i buf len) k Allowed fun _ k' => Books c d b k' := by
  refine fd2file_bind (fun r hr => ?_) fun fd t ht hfd hs => ?_
  · dsimp only
    rw [if_pos hr]
    exact Code.Wp.pure h
  · dsimp only
    rw [if_neg (by simp)]
    refine .bind_of (fileAt_eq ht) ?_
    split
    · exact Code.Wp.pure h
    · exact withFile_wp hd h ht hfd hs fun b => readBody_keeps hd buf len

theorem fileWrite_wp {buf : Buf} {len : ℕ} :
    Code.Wp (fileWrite cur i buf len) k Allowed fun _ k' => Books c d b k' := by
  refine fd2file_bind (fun r hr => ?_) fun fd t ht hfd hs => ?_
  · dsimp only
    rw [if_pos hr]
    exact Code.Wp.pure h
  · dsimp only
    rw [if_neg (by simp)]
    refine .bind_of (fileAt_eq ht) ?_
    split
    · exact Code.Wp.pure h
    · exact withFile_wp hd h ht hfd hs fun b => writeBody_keeps hd buf len

end Open

end Call

section Dup

variable {k : Kernel} {c d : ℕ → ℤ} {f fd cur p : ℕ} {t : Files} {b : Usage}

/-- A taken entry becomes an open of the inode of another open entry. -/
theorem fdArrayDup_wp {n : Inode} {file : File} (h : Books c d (b.take f fd) k)
    (ht : k.files f = some t) (hfd : fd < filesStructNentry) (hs : (t.fdArray fd).status = .init)
    (ho : file.status = .opened) (hp : file.node = some p) (hn : k.inode p = some n)
    (hpos : 0 < n.refCount) :
    Code.Wp (fdArrayDup f fd file) k Allowed fun _ k' => Books c d b k' ∧
      Changes (fun _ => True) f fd t k k' := by
  obtain ⟨hcount, hb⟩ := h.tables.free ht hfd (.inr hs)
  unfold fdArrayDup
  refine .bind_of (fileAt_eq ht) ?_
  refine Code.Wp.bind_assert (fun _ => ?_) fun hx => absurd ⟨hs, ho⟩ hx
  refine nodeOf_bind hp ?_
  refine (inodeRefInc_wp h.acc hn hpos).bind ?_
  rintro - k₁ ⟨hr₁, ha₁⟩
  refine (inodeOpenInc_wp ha₁ (h.acc.backed hr₁)).bind ?_
  rintro - k₂ ⟨hr₂, ha₂⟩
  have hr₂ := hr₁.trans hr₂
  have h₂ : Books c (more d p 1) (b.take f fd) k₂ := h.rest hr₂ (by simpa using ha₂)
  have ht₂ : k₂.files f = some t := by
    rw [hr₂.files]
    exact ht
  refine .bind_of (setFile_eq ht₂) ?_
  have hok : File.Ok 0 { t.fdArray fd with
      pos := file.pos, readable := file.readable, writable := file.writable, node := some p } := by
    unfold File.Ok
    dsimp only
    rw [hs]
    exact ⟨hcount, rfl⟩
  have h₃ := h₂.setIdle (e := more d p 1) ht₂ hfd hb { t.fdArray fd with
    pos := file.pos, readable := file.readable, writable := file.writable, node := some p }
    (fun q => by simp [File.holds, hs]) hok fun _ => rfl
  refine (fdArrayOpen_wp h₃ setFiles_files hfd (by rw [set_fdArray]; exact hs)
    (by rw [set_fdArray])).mono (fun _ h => h) ?_
  rintro - k' ⟨hk', rfl⟩
  rw [setFiles_setFiles, set_set] at hk' ⊢
  exact ⟨hk', _, trivial, congrArg (fun files => Function.update files f _) hr₂.files⟩

theorem fileDup_wp {fd₁ fd₂ : ℤ} (hd : ∀ q, 0 ≤ d q) (hu : b.taken = none) (h : Books c d b k) :
    Code.Wp (fileDup cur fd₁ fd₂) k Allowed fun _ k' => Books c d b k' := by
  refine fd2file_bind (fun r hr => ?_) fun fd t ht hfd hs => ?_
  · dsimp only
    rw [if_pos hr]
    exact Code.Wp.pure h
  · dsimp only
    rw [if_neg (by simp)]
    obtain ⟨-, p, hp⟩ := h.tables.opened ht hfd hs
    obtain ⟨n, hn, hpos⟩ := (h.acc.opened_alive (hd p) ht hfd (holds_of_node (.inl hs) hp)).2
    refine (fdArrayAlloc_wp h.tables).bind ?_
    rintro _ _ (⟨hret⟩ | ⟨ht', hfd', hs', -⟩)
    · rename_i ret
      dsimp only
      rw [if_pos (by omega)]
      exact Code.Wp.pure h
    · rename_i t' fd'
      obtain rfl : t = t' := Option.some.inj (ht.symm.trans ht')
      have hne : fd ≠ fd' := by
        rintro rfl
        rw [hs] at hs'
        cases hs'
      dsimp only
      rw [if_neg (by simp)]
      refine .bind_of (fileAt_eq setFiles_files) ?_
      rw [set_fdArray_ne hne]
      refine (fdArrayDup_wp (h.taken hu ht hfd' hs') setFiles_files hfd' (by rw [set_fdArray]) hs hp
        hn hpos).bind ?_
      rintro - k' ⟨hk', -⟩
      exact Code.Wp.pure hk'

end Dup

section Cwd

variable {k : Kernel} {c d : ℕ → ℤ} {cur p dir : ℕ} {t : Files} {b : Usage} {path : Str}

theorem Tables.setPwd {q : Option ℕ} (h : Tables b k) (ht : k.files cur = some t) :
    Tables b (k.setFiles cur (some { t with pwd := q })) := by
  have hfiles : ∀ {g u}, (k.setFiles cur (some { t with pwd := q })).files g = some u →
      ∃ u', k.files g = some u' ∧ u.fdArray = u'.fdArray ∧ u.nlinks = u'.nlinks := by
    intro g u hg
    by_cases he : g = cur
    · subst he
      obtain rfl := Option.some.inj (setFiles_files.symm.trans hg)
      exact ⟨t, ht, rfl, rfl⟩
    · exact ⟨u, (setFiles_files_ne he).symm.trans hg, rfl, rfl⟩
  refine ⟨?_, ?_, ?_⟩
  · intro g
    rw [← h.links g]
    by_cases he : g = cur
    · subst he
      rw [setFiles_files, ht]
      rfl
    · rw [setFiles_files_ne he]
  · intro g u hg
    obtain ⟨u', hg', he, -⟩ := hfiles hg
    rw [he]
    exact h.entries g u' hg'
  · intro g u hg
    obtain ⟨u', hg', he, -⟩ := hfiles hg
    rw [he]
    exact h.taken g u' hg'

theorem vfsSetCurdir_wp (hc : ∀ q, 0 ≤ c q) (h : Books (more c dir 1) d b k) :
    Code.Wp (vfsSetCurdir cur dir) k Allowed fun _ k' => Books (more c dir 1) d b k' := by
  have hback : ∀ {k' : Kernel}, Backed (more c dir 1) k' dir := by
    intro k'
    have := hc dir
    unfold Backed
    rw [more_self]
    omega
  obtain ⟨n, hn, hpos⟩ := h.acc.alive_of_backed hback
  unfold vfsSetCurdir
  refine filesAt_bind fun t ht => ?_
  dsimp only
  split
  · exact Code.Wp.pure h
  refine (vopGettype_wp hn (h.acc.ordered hn)).bind ?_
  rintro ⟨ret, type⟩ k₁ hk₁
  have h₁ := h.rest hk₁.rest (hk₁.acc h.acc)
  dsimp only
  split
  · exact Code.Wp.pure h₁
  split
  · exact Code.Wp.pure h₁
  rw [← hk₁.inode] at hn
  refine (inodeRefInc_wp h₁.acc hn hpos).bind ?_
  rintro - k₂ ⟨hr₂, ha₂⟩
  have ht₂ : k₂.files cur = some t := by
    rw [hr₂.files, hk₁.files]
    exact ht
  refine .bind_of (filesAt_eq ht₂) ?_
  refine Code.Wp.bind_modify ?_
  -- the new directory takes the reference, and the old one leaves its own
  cases hpwd : t.pwd with
  | none =>
    have ha₃ : Acc (more c dir 1) d (k₂.setFiles cur (some { t with pwd := some dir })) := by
      refine ha₂.setFiles ht₂ (fun q => ?_) fun q => rfl
      unfold more Files.inPwd
      simp only [hpwd, Option.some.injEq, eq_comm (a := dir)]
      split <;> simp
    exact Code.Wp.pure ⟨ha₃, (h₁.rest hr₂ ha₂).tables.setPwd ht₂⟩
  | some p =>
    have ha₃ : Acc (more (more c dir 1) p 1) d
      (k₂.setFiles cur (some { t with pwd := some dir })) := by
      refine ha₂.setFiles ht₂ (fun q => ?_) fun q => rfl
      unfold more Files.inPwd
      simp only [hpwd, Option.some.injEq, eq_comm (a := dir), eq_comm (a := p)]
      split <;> split <;> simp
    have hb₃ : Backed (more (more c dir 1) p 1)
        (k₂.setFiles cur (some { t with pwd := some dir })) p := by
      have := hc p
      unfold Backed more
      rw [if_pos rfl]
      split <;> omega
    have h₃ := (h₁.rest hr₂ ha₂).tables.setPwd (q := some dir) ht₂
    refine (inodeRefDec_wp ha₃ hb₃).bind ?_
    rintro - k₄ ⟨hr₄, ha₄⟩
    exact Code.Wp.pure ⟨by simpa using ha₄, h₃.rest hr₄⟩

theorem vfsChdir_wp (hc : ∀ q, 0 ≤ c q) (h : Books c d b k) :
    Code.Wp (vfsChdir cur path) k Allowed fun _ k' => Books c d b k' := by
  unfold vfsChdir
  refine (vfsLookup_wp hc h.acc).bind ?_
  rintro ⟨ret, p⟩ k₁ ⟨hr, ha₁⟩
  dsimp only at ha₁ ⊢
  split
  · rename_i hret
    rw [if_neg hret] at ha₁
    exact Code.Wp.pure (h.rest hr ha₁)
  · rename_i hret
    rw [if_pos (not_not.mp hret)] at ha₁
    refine (vfsSetCurdir_wp hc (h.rest hr ha₁)).bind fun ret k₂ h₂ => ?_
    have hb : Backed (more c p 1) k₂ p := by
      have := hc p
      unfold Backed
      rw [more_self]
      omega
    refine (inodeRefDec_wp h₂.acc hb).bind ?_
    rintro - k₃ ⟨hr₃, ha₃⟩
    exact Code.Wp.pure (h₂.rest hr₃ (by simpa using ha₃))

end Cwd

end UCore.Vfs

import UCore.Vfs.Contents

/-! # Errors of an open

`file_open` gives back what it took when it returns an error, but for the error of `O_EXCL`: the
reference that the lookup handed out is kept.
-/

namespace UCore.Vfs

open Library Sfs

/-- What an open that fails has to leave alone: the descriptors, the counts of the inodes and the
files. -/
structure Unchanged (k k' : Kernel) : Prop where
  tables : SameTables k k'
  refs : ∀ p, k'.refOf p = k.refOf p
  opens : ∀ p, k'.openOf p = k.openOf p
  files : ∀ ino, Settled ino k → k'.fs.file ino = k.fs.file ino

/-- The flags are valid and forbid that the file exists, a descriptor is free, and the lookup finds
an inode. -/
def Excluded (cur : ℕ) (path : Str) (flags : ℕ) (k : Kernel) : Prop :=
  flags &&& oAccmode ≠ oAccmode ∧ ¬ (has flags oTrunc ∧ flags &&& oAccmode = 0) ∧
    has flags oExcl = true ∧ has flags oCreat = true ∧
    ∃ t fd p k₁, k.files cur = some t ∧ fdArrayFind t noFd = .inr fd ∧
      vfsLookup cur path (Taken k cur t fd) = .ok ((0, p), k₁)

section Volume

variable {k k' : Kernel} {ino p cur flags fd : ℕ} {f : Sfs.File} {D : Set ℕ}
    {path : Str} {t : Files}

theorem Settled.taken (h : Settled ino k) (ht : k.files cur = some t) :
    Settled ino (Taken k cur t fd) := by
  refine ⟨h.type, h.record, h.apart, h.link, h.links, h.regular, fun g u q hg hq => ?_, h.brk⟩
  by_cases hgc : g = cur
  · subst hgc
    rw [show (Taken k g t fd).files g = _ from setFiles_files] at hg
    obtain rfl := Option.some.inj hg
    exact h.pwd g t q ht hq
  · rw [show (Taken k cur t fd).files g = _ from setFiles_files_ne hgc] at hg
    exact h.pwd g u q hg hq

theorem vopOpen_intact (hk : Intact ino f D k) :
    Code.Wp (vopOpen p flags) k (fun _ => True) fun ret k' => Intact ino f D k' ∧
    (ret ≠ 0 → ∀ n, k'.inode p = some n → n.ops ≠ .file) := by
  refine vopOp_bind fun n hn _ => ?_
  have hops : ∀ {ops}, n.ops = ops → ops ≠ .file → ∀ m, k.inode p = some m → m.ops ≠ .file := by
    intro ops ho hne m hm
    obtain rfl := Option.some.inj (hn.symm.trans hm)
    rwa [ho]
  split
  · rename_i ho _
    exact Code.Wp.pure ⟨hk, fun _ => hops ho (by decide)⟩
  · exact Code.Wp.pure ⟨hk, fun h => absurd rfl h⟩
  · rename_i ho _
    exact Code.Wp.pure ⟨hk, fun _ => hops ho (by decide)⟩
  · exact .of_error rfl trivial

theorem vfsOpenNode_intact (hk : Intact ino f D k) (hl : Live k) :
    Code.Wp (vfsOpenNode p flags) k (fun _ => True) fun r k' => r.1 ≠ 0 → Intact ino f D k' := by
  refine Code.Wp.bind (Q := fun ret k₁ => (Intact ino f D k₁ ∧
    (ret ≠ 0 → ∀ n, k₁.inode p = some n → n.ops ≠ .file)) ∧ Live k₁) ?_ ?_
  · exact (Code.Wp.and (vopOpen_intact hk) (vopOpen_live k hl)).mono (fun _ _ => trivial)
      fun _ _ h => ⟨h.1, h.2.2⟩
  rintro ret k₁ ⟨⟨h₁, hops⟩, hl₁⟩
  split
  · rename_i hret
    exact (inodeRefDec_intact h₁ (hops hret)).bind fun _ _ h => Code.Wp.pure fun _ => h
  · refine (inodeOpenInc_live k₁ hl₁).bind fun _ k₂ h₂ => ?_
    have htrunc : Lives (fun ret => ret = 0)
        (if has flags oTrunc ∨ has flags oCreat then vopTruncate p 0 else pure 0 : Prog ℤ) :=
      .ite (fun _ => vopTruncate_live) fun _ => .pure rfl
    refine (htrunc k₂ h₂.2).bind fun ret k₃ h₃ => ?_
    rw [if_neg (not_not.mpr h₃.1)]
    exact Code.Wp.pure fun h => absurd rfl h

theorem vfsOpen_intact (hk : Intact ino f D k) (hl : Live k) :
    Code.Wp (vfsOpen cur path flags) k (fun _ => True) fun r k' => r.1 ≠ 0 → Intact ino f D k' := by
  unfold vfsOpen
  dsimp only
  split
  · exact Code.Wp.pure fun _ => hk
  split
  · exact Code.Wp.pure fun _ => hk
  refine (Code.Wp.and (vfsLookup_intact k hk) (vfsLookup_live k hl)).bind ?_
  rintro ⟨ret, q⟩ k₁ ⟨⟨-, h₁⟩, -, hl₁⟩
  dsimp only
  split
  · split
    · refine Code.Wp.bind (Q := fun _ k₂ => Intact ino f D k₂) ?_ ?_
      · exact (getDevice_intact k₁ h₁).bind fun _ _ h => Code.Wp.pure h.2
      rintro ⟨ret, dir⟩ k₂ h₂
      dsimp only
      split
      · exact Code.Wp.pure fun _ => h₂
      · refine Code.Wp.bind (Q := fun _ _ => False) ?_ fun _ _ h => h.elim
        exact vopOp_bind fun _ _ _ => .of_error rfl trivial
    · exact Code.Wp.pure fun _ => h₁
  · split
    · exact Code.Wp.pure fun _ => h₁
    · exact vfsOpenNode_intact h₁ hl₁

end Volume

section Open

variable {k k' : Kernel} {c d : ℕ → ℤ} {b : Usage} {cur flags fd p : ℕ} {path : Str} {ret : ℤ}
  {t : Files}

theorem vfsOpen_excluded {k₁ : Kernel} (hmode : flags &&& oAccmode ≠ oAccmode)
    (htrunc : ¬ (has flags oTrunc ∧ flags &&& oAccmode = 0)) (hexcl : has flags oExcl = true)
    (hcreat : has flags oCreat = true) (hlook : vfsLookup cur path k = .ok ((0, p), k₁)) :
    vfsOpen cur path flags k = .ok ((-eExists, 0), k₁) := by
  unfold vfsOpen
  dsimp only
  rw [if_neg hmode, if_neg htrunc, Code.bind_ok hlook]
  dsimp only
  rw [if_neg (not_not.mpr rfl), if_pos ⟨hexcl, hcreat⟩]
  rfl

theorem vfsOpen_modes (hrun : vfsOpen cur path flags k = .ok ((ret, p), k')) (hret :
    ret ≠ -eInval) :
    flags &&& oAccmode ≠ oAccmode ∧ ¬ (has flags oTrunc ∧ flags &&& oAccmode = 0) := by
  unfold vfsOpen at hrun
  dsimp only at hrun
  split at hrun
  · cases hrun
    exact absurd rfl hret
  rename_i hmode
  split at hrun
  · cases hrun
    exact absurd rfl hret
  rename_i htrunc
  exact ⟨hmode, htrunc⟩

theorem vopGettype_zero : Code.Wp (vopGettype p) k (fun _ => True) fun r _ => r.1 = 0 := by
  refine vopOp_bind fun n _ _ => ?_
  split
  · exact Code.Wp.pure rfl
  · refine Code.Wp.bind_get ?_
    dsimp only
    split
    · exact Code.Wp.pure rfl
    split
    · exact Code.Wp.pure rfl
    split
    · exact Code.Wp.pure rfl
    · exact .of_error rfl trivial

theorem vopFstat_zero : Code.Wp (vopFstat p) k (fun _ => True) fun r _ => r.1 = 0 := by
  refine vopOp_bind fun n _ _ => vopGettype_zero.bind ?_
  rintro ⟨ret, mode⟩ k₁ hret
  dsimp only at hret ⊢
  rw [if_neg (not_not.mpr hret)]
  split
  · exact Code.Wp.pure rfl
  · exact Code.Wp.bind_get (Code.Wp.pure rfl)

/-- How `file_open` fails: it does nothing, or it frees the entry again after `vfs_open` has
failed. -/
theorem fileOpen_failed (hc : ∀ q, 0 ≤ c q) (hu : b.taken = none) (h : Books c d b k) :
    Code.Wp (fileOpen cur path flags) k Allowed fun ret k' => ret < 0 →
      k' = k ∧ ¬ Excluded cur path flags k ∨ ∃ t fd p k₂, k.files cur = some t ∧
        fdArrayFind t noFd = .inr fd ∧ vfsOpen cur path flags (Taken k cur t fd) =
          .ok ((ret, p), k₂) ∧
        ret ≠ 0 ∧ k' = k₂.setFiles cur
          (some (t.set fd { t.fdArray fd with status := .none, node := none })) := by
  unfold fileOpen
  split
  · rename_i hmode
    exact Code.Wp.pure fun _ => .inl ⟨rfl, fun hx => hx.1 hmode⟩
  refine (fdArrayAlloc_find h.tables).bind ?_
  rintro _ _ ⟨t, ht, ⟨ret, hf, rfl, rfl⟩ | ⟨fd, hf, rfl, rfl⟩⟩
  · have hlt := fdArrayFind_inl hf
    dsimp only
    rw [if_pos (by omega)]
    refine Code.Wp.pure fun _ => .inl ⟨rfl, ?_⟩
    rintro ⟨-, -, -, -, u, fd, q, k₁, hu', hf', -⟩
    obtain rfl := Option.some.inj (ht.symm.trans hu')
    rw [hf] at hf'
    cases hf'
  obtain ⟨hfd, hs⟩ := fdArrayFind_inr hf
  have h₁ := h.taken hu ht hfd hs
  have htaken : ∀ {k₂ : Kernel}, Rest (Taken k cur t fd) k₂ → k₂.files cur = some (t.set fd
      { t.fdArray fd with status := .init, node := none }) := by
    intro k₂ hr
    rw [hr.files]
    exact setFiles_files
  dsimp only
  rw [if_neg (by simp)]
  refine (vfsOpen_wp hc h₁.acc).self.bind ?_
  rintro ⟨ret, p⟩ k₂ ⟨hrun, hout⟩
  dsimp only
  have hr : Rest (Taken k cur t fd) k₂ := by
    rcases hout with ⟨hr, -⟩ | ⟨-, q, -, hr, -⟩
    · exact hr
    · exact hr
  by_cases hret : ret = 0
  · subst hret
    rw [if_neg (by simp)]
    have ha : Acc c (more d p 1) k₂ := by
      rcases hout with ⟨-, ha⟩ | ⟨hx, -⟩
      · exact ha
      · cases hx
    split
    · have := ha.base_nonneg p
      obtain ⟨n, hn, -⟩ := ha.alive (p := p) (by have := h₁.acc.opened hr ha; omega)
      refine (Code.Wp.and (vopFstat_wp hn (ha.ordered hn)) vopFstat_zero).bind ?_
      rintro ⟨ret, stat⟩ k₃ ⟨hk₃, hret⟩
      dsimp only at hret ⊢
      rw [if_neg (not_not.mpr hret)]
      have hr₃ := hr.trans hk₃.rest
      refine (fileInstall_wp (h₁.rest hr₃ (hk₃.acc ha)) (htaken hr₃) hfd
        (by rw [set_fdArray])).mono (fun _ h => h) ?_
      rintro ret k' ⟨rfl, -⟩ hlt
      omega
    · refine (fileInstall_wp (h₁.rest hr ha) (htaken hr) hfd (by rw [set_fdArray])).mono
        (fun _ h => h) ?_
      rintro ret k' ⟨rfl, -⟩ hlt
      omega
  · rw [if_pos hret]
    -- the entry is freed, whatever the open kept
    obtain ⟨c', ha⟩ : ∃ c', Acc c' d k₂ := by
      rcases hout with ⟨-, ha⟩ | ⟨-, q, -, -, ha⟩
      · rw [if_neg hret] at ha
        exact ⟨c, ha⟩
      · exact ⟨_, ha⟩
    refine (fdArrayFree_init (h₁.rest hr ha) (htaken hr) hfd (by rw [set_fdArray])).bind ?_
    rintro - k₃ ⟨-, hk₃⟩
    rw [set_fdArray, set_set] at hk₃
    exact Code.Wp.pure fun _ => .inr ⟨t, fd, p, k₂, ht, hf, hrun, hret, hk₃⟩

theorem fileOpen_unchanged_iff (hc : ∀ q, 0 ≤ c q) (hu : b.taken = none) (h : Books c d b k)
    (hl : Live k) (hopen : fileOpen cur path flags k = .ok (ret, k')) (hret : ret < 0) :
    Unchanged k k' ↔ ¬ Excluded cur path flags k := by
  rcases (fileOpen_failed hc hu h).ok hopen hret with
    ⟨rfl, hx⟩ | ⟨t, fd, p, k₂, ht, hf, hrun, hne, rfl⟩
  · exact iff_of_true ⟨.of_files rfl, fun _ => rfl, fun _ => rfl, fun _ _ => rfl⟩ hx
  obtain ⟨hfd, hs⟩ := fdArrayFind_inr hf
  have h₁ := h.taken hu ht hfd hs
  -- the counts of a state with other credits
  have hcounts : ∀ {c'}, Rest (Taken k cur t fd) k₂ → Acc c' d k₂ → ∀ q,
      k₂.openOf q = k.openOf q ∧ k₂.refOf q = k.refOf q + (c' q - c q) := by
    intro c' hr ha q
    have ho := ha.opens q
    have ho₁ := h₁.acc.opens q
    have hf₂ := ha.refs q
    have hf₁ := h₁.acc.refs q
    rw [hr.opens] at ho
    rw [hr.pwds, hr.roots] at hf₂
    change k.openOf q = _ at ho₁
    change k.refOf q = k.openOf q + _ + _ at hf₁
    constructor <;> omega
  by_cases hx : Excluded cur path flags k
  · refine iff_of_false (fun hun => ?_) (not_not.mpr hx)
    obtain ⟨hmode, htrunc, hexcl, hcreat, u, fd', q, k₁, hu', hf', hlook⟩ := hx
    obtain rfl := Option.some.inj (ht.symm.trans hu')
    obtain rfl := Sum.inr.inj (hf.symm.trans hf')
    rw [vfsOpen_excluded hmode htrunc hexcl hcreat hlook] at hrun
    cases hrun
    obtain ⟨hr, ha⟩ := (vfsLookup_wp hc h₁.acc).ok hlook
    have hkept := (hcounts hr ha q).2
    have hsame : k₂.refOf q = k.refOf q := hun.refs q
    simp at hkept
    omega
  · refine iff_of_true ?_ hx
    obtain ⟨hr, ha⟩ : Opens c d (Taken k cur t fd) (ret, p) k₂ := by
      rcases (vfsOpen_wp hc h₁.acc).ok hrun with ho | ⟨hr, q, ⟨hexcl, hcreat, hlook⟩, -⟩
      · exact ho
      · obtain ⟨hmode, htrunc⟩ := vfsOpen_modes hrun (by
          rw [show ret = -eExists from hr]
          decide)
        exact absurd ⟨hmode, htrunc, hexcl, hcreat, t, fd, q, k₂, ht, hf, hlook⟩ hx
    rw [if_neg hne] at ha
    have hall := hcounts hr ha
    refine ⟨?_, fun q => ?_, fun q => (hall q).1, fun ino hino => ?_⟩
    · have hentry : (t.fdArray fd).Same { t.fdArray fd with status := .none, node := none } :=
        ⟨hs.symm, rfl, fun hn => absurd hs hn⟩
      refine .of_entry ht hentry ?_
      change Function.update k₂.files cur _ = _
      rw [hr.files]
      exact Function.update_idem ..
    · have hq := (hall q).2
      change k₂.refOf q = _
      omega
    · have hk : Intact ino (k.fs.file ino) ∅ (Taken k cur t fd) :=
        ⟨hino.taken ht, rfl, fun _ hq => hq.elim⟩
      exact ((vfsOpen_intact hk hl).ok hrun hne).file

end Open

section Run

variable {fs : Fs} {kmallocs : List Bool} {stdin : List UInt8} {l : List Act} {s : System}
    {k' : Kernel}
  {cur flags : ℕ} {path : Str} {ret : ℤ}

/-- After every run, a `file_open` that returns an error leaves the descriptors, the counts and the
files alone, unless it has found the file that `O_EXCL` forbids. -/
theorem open_atomic_iff (hrun : Run (boot fs kmallocs stdin) l s) (hfs : fs.Reliable)
    (hopen : fileOpen cur path flags s.kernel = .ok (ret, k')) (hret : ret < 0) :
    Unchanged s.kernel k' ↔ ¬ Excluded cur path flags s.kernel := by
  obtain ⟨⟨leak, hleak, hbooks⟩, -⟩ := hrun.inv boot_inv
  refine fileOpen_unchanged_iff (fun q => ?_) rfl hbooks (hrun.live (boot_live hfs)) hopen hret
  have := hleak q
  omega

/-- `init` opens a file that is not there. -/
theorem open_atomic_iff_missing : ∃ k', fileOpen 1 [103] 0 oneBlock = .ok (-eNoent, k') ∧
    (Unchanged oneBlock k' ↔ ¬ Excluded 1 [103] 0 oneBlock) := by
  have hrun : (fileOpen 1 [103] 0 oneBlock).toOption.map (fun r => decide (r.1 = -eNoent)) =
      some true := by decide +kernel
  obtain ⟨_, k', hrun, rfl⟩ := Code.exists_of_decide hrun
  have hfs : (image 9 1 []).Reliable := by simp [Fs.Reliable, image]
  exact ⟨k', hrun, open_atomic_iff (.nil (boot (image 9 1 []) [] [])) hfs hrun (by decide)⟩

/-- `init` opens the file of one block, which must not exist: the error leaves a reference
behind. -/
theorem open_excl_keeps_reference : ∃ k',
    fileOpen 1 [102] (oWronly ||| oCreat ||| oExcl) oneBlock = .ok (-eExists, k') ∧
    oneBlock.refOf 3 = 0 ∧ k'.refOf 3 = 1 ∧ ¬ Unchanged oneBlock k' := by
  have hrun : (fileOpen 1 [102] (oWronly ||| oCreat ||| oExcl) oneBlock).toOption.map
      (fun r => decide (r.1 = -eExists ∧ r.2.refOf 3 = 1)) = some true := by decide +kernel
  obtain ⟨_, k', hrun, rfl, href⟩ := Code.exists_of_decide hrun
  have hzero : oneBlock.refOf 3 = 0 := rfl
  refine ⟨k', hrun, hzero, href, fun h => ?_⟩
  have hsame := h.refs 3
  rw [href, hzero] at hsame
  cases hsame

end Run

end UCore.Vfs

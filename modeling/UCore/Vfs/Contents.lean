import UCore.Sfs.Idle
import UCore.Vfs.Live

/-! # Opening a file

A look-up reads directories, and it takes inodes out of memory that nobody holds. None of this
changes a regular file, so that an open changes the file only where `vfs_open` truncates it. It does
so for every open with `O_CREAT`.
-/

namespace UCore.Vfs

open Library Sfs

/-- The regular file `ino` is as it is on the device, unless it is in memory. The dirty inodes are
not stored in its blocks, the inodes in memory have links, and no working directory is a file. -/
structure Settled (ino : ℕ) (k : Kernel) : Prop where
  type : (k.fs.din ino).type = sfsTypeFile
  record : k.hash ino = none → k.fs.sin ino = ⟨diskInode (k.fs.disk ino), false⟩
  apart : ∀ j, (k.fs.sin j).dirty = true → ¬ k.fs.Uses ino j
  link : ∀ p n j, k.inode p = some n → n.info = .sfs j → k.hash j = some p
  links : ∀ p n j, k.inode p = some n → n.info = .sfs j → (k.fs.din j).nlinks ≠ 0
  regular : ∀ p n, k.inode p = some n → n.info = .sfs ino → n.ops = .file
  pwd : ∀ f t p, k.files f = some t → t.pwd = some p →
    p < k.brk ∧ ∀ n, k.inode p = some n → n.ops ≠ .file
  brk : ∀ p, k.brk ≤ p → k.inode p = none

/-- The file `ino` is the file `f`, and the addresses in `D` are no addresses of regular files. -/
structure Intact (ino : ℕ) (f : Sfs.File) (D : Set ℕ) (k : Kernel) : Prop where
  settled : Settled ino k
  file : k.fs.file ino = f
  other : ∀ p ∈ D, p < k.brk ∧ ∀ n, k.inode p = some n → n.ops ≠ .file

section Intact

variable {k : Kernel} {ino p j : ℕ} {f : Sfs.File} {D : Set ℕ} {n n' : Inode}

theorem Intact.setInode (h : Intact ino f D k) (hn : k.inode p = some n) (hi : n'.info = n.info)
    (ho : n'.ops = n.ops) : Intact ino f D (k.setInode p (some n')) := by
  have hs := h.settled
  have hmem : ∀ {q m}, (k.setInode p (some n')).inode q = some m →
      ∃ m', k.inode q = some m' ∧ m.info = m'.info ∧ m.ops = m'.ops := by
    intro q m hm
    by_cases hq : q = p
    · subst hq
      obtain rfl := Option.some.inj (setInode_inode.symm.trans hm)
      exact ⟨n, hn, hi, ho⟩
    · exact ⟨m, (setInode_inode_ne hq).symm.trans hm, rfl, rfl⟩
  have hops : ∀ {q m}, (∀ m', k.inode q = some m' → m'.ops ≠ .file) →
      (k.setInode p (some n')).inode q = some m → m.ops ≠ .file := by
    intro q m hne hm
    obtain ⟨m', hm', -, he⟩ := hmem hm
    rw [he]
    exact hne m' hm'
  refine ⟨⟨hs.type, hs.record, hs.apart, fun q m j hm hj => ?_, fun q m j hm hj => ?_,
    fun q m hm hj => ?_, fun g t q hg hq => ?_, fun q hq => ?_⟩, h.file, fun q hq => ?_⟩
  · obtain ⟨m', hm', he, -⟩ := hmem hm
    exact hs.link q m' j hm' (he ▸ hj)
  · obtain ⟨m', hm', he, -⟩ := hmem hm
    exact hs.links q m' j hm' (he ▸ hj)
  · obtain ⟨m', hm', he, he'⟩ := hmem hm
    exact he'.trans (hs.regular q m' hm' (he ▸ hj))
  · exact ⟨(hs.pwd g t q hg hq).1, fun m => hops (hs.pwd g t q hg hq).2⟩
  · have hne : q ≠ p := by
      rintro rfl
      rw [hs.brk q hq] at hn
      cases hn
    exact (setInode_inode_ne hne).trans (hs.brk q hq)
  · exact ⟨(h.other q hq).1, fun m => hops (h.other q hq).2⟩

theorem Intact.insert (h : Intact ino f D k) (hn : k.inode p = some n) (ho : n.ops ≠ .file) :
    Intact ino f (Insert.insert p D) k := by
  refine ⟨h.settled, h.file, fun q hq => ?_⟩
  rcases hq with rfl | hq
  · refine ⟨?_, fun m hm => ?_⟩
    · by_contra hge
      rw [h.settled.brk q (by omega)] at hn
      cases hn
    · obtain rfl := Option.some.inj (hn.symm.trans hm)
      exact ho
  · exact h.other q hq

theorem Intact.ne (h : Intact ino f D k) (hn : k.inode p = some n) (hi : n.info = .sfs j)
    (ho : n.ops ≠ .file) : j ≠ ino := by
  rintro rfl
  exact ho (h.settled.regular p n hn hi)

theorem Intact.synced {t : Fs} (h : Intact ino f D k) (hj : j ≠ ino)
    (hd : (k.fs.sin j).dirty = true)
    (hs : Synced j k.fs t) : Intact ino f D (k.setFs t) := by
  have hs' := h.settled
  have hdisk : ∀ b, k.fs.Uses ino b → t.disk b = k.fs.disk b := by
    intro b hb
    refine hs.disk b ?_
    rintro rfl
    exact hs'.apart b hd hb
  refine ⟨⟨?_, fun hno => ?_, fun i hi => ?_, hs'.link, fun p n i hn hi => ?_, hs'.regular,
    hs'.pwd, hs'.brk⟩, ?_, h.other⟩
  · exact (congrArg DiskInode.type (hs.din ino)).trans hs'.type
  · change t.sin ino = ⟨diskInode (t.disk ino), false⟩
    rw [hs.sin ino hj.symm, hs.disk ino hj.symm]
    exact hs'.record hno
  · exact fun hu => hs'.apart i (hs.dirty i hi) ((uses_kept (hs.din ino) hdisk).mp hu)
  · exact (congrArg DiskInode.nlinks (hs.din i)).trans_ne (hs'.links p n i hn hi)
  · exact (file_kept (hs.din ino) hdisk).trans h.file

theorem din_kept {s t : Fs} {x : Sin} (hsin : t.sin = Function.update s.sin j x) (hj : j ≠ ino) :
    t.din ino = s.din ino := by
  unfold Fs.din
  rw [hsin, Function.update_of_ne hj.symm]

theorem Intact.apart_of_clean {t : Fs} {i : ℕ} {x : DiskInode} (h : Intact ino f D k)
    (hsin : t.sin = Function.update k.fs.sin j ⟨x, false⟩) (hd : t.din ino = k.fs.din ino)
    (hdisk : t.disk = k.fs.disk) (hdirty : (t.sin i).dirty = true) : ¬ t.Uses ino i := by
  rw [hsin] at hdirty
  by_cases hij : i = j
  · rw [hij, Function.update_self] at hdirty
    cases hdirty
  · rw [Function.update_of_ne hij] at hdirty
    exact fun hu => h.settled.apart i hdirty ((uses_kept hd fun b _ => congrFun hdisk b).mp hu)

/-- Another inode is taken out of memory. -/
theorem Intact.reclaimed {k' : Kernel} (h : Intact ino f D k) (hn : k.inode p = some n)
    (hi : n.info = .sfs j) (ho : n.ops ≠ .file) (hinode : k'.inode = Function.update k.inode p none)
    (hhash : k'.hash = Function.update k.hash j none)
    (hsin : k'.fs.sin = Function.update k.fs.sin j ⟨diskInode (k.fs.disk j), false⟩)
    (hdisk : k'.fs.disk = k.fs.disk) (hfiles : k'.files = k.files) (hbrk : k'.brk = k.brk) :
    Intact ino f D k' := by
  have hs := h.settled
  have hj := h.ne hn hi ho
  have hd : k'.fs.din ino = k.fs.din ino := din_kept hsin hj
  have hb : ∀ b, k.fs.Uses ino b → k'.fs.disk b = k.fs.disk b := fun b _ => congrFun hdisk b
  have hmem : ∀ {q m}, k'.inode q = some m → q ≠ p ∧ k.inode q = some m := by
    intro q m hm
    rw [hinode] at hm
    by_cases hq : q = p
    · rw [hq, Function.update_self] at hm
      cases hm
    · exact ⟨hq, by rwa [Function.update_of_ne hq] at hm⟩
  have hother : ∀ {q m i}, k'.inode q = some m → m.info = .sfs i → i ≠ j := by
    rintro q m i hm him rfl
    obtain ⟨hq, hm⟩ := hmem hm
    exact hq (Option.some.inj ((hs.link q m i hm him).symm.trans (hs.link p n i hn hi)))
  refine ⟨⟨?_, fun hno => ?_, fun i hdirty => ?_, fun q m i hm him => ?_, fun q m i hm him => ?_,
    fun q m hm him => hs.regular q m (hmem hm).2 him, fun g t q hg hq => ?_, fun q hq => ?_⟩, ?_,
    fun q hq => ?_⟩
  · rw [hd]
    exact hs.type
  · rw [hhash, Function.update_of_ne hj.symm] at hno
    rw [hsin, Function.update_of_ne hj.symm, hdisk]
    exact hs.record hno
  · exact h.apart_of_clean hsin hd hdisk hdirty
  · rw [hhash, Function.update_of_ne (hother hm him)]
    exact hs.link q m i (hmem hm).2 him
  · rw [din_kept hsin (hother hm him).symm]
    exact hs.links q m i (hmem hm).2 him
  · rw [hfiles] at hg
    rw [hbrk]
    exact ⟨(hs.pwd g t q hg hq).1, fun m hm => (hs.pwd g t q hg hq).2 m (hmem hm).2⟩
  · cases hm : k'.inode q with
    | none => rfl
    | some m =>
      rw [hbrk] at hq
      exact absurd ((hs.brk q hq).symm.trans (hmem hm).2) (by simp)
  · exact (file_kept hd hb).trans h.file
  · rw [hbrk]
    exact ⟨(h.other q hq).1, fun m hm => (h.other q hq).2 m (hmem hm).2⟩

/-- An inode is brought into memory. -/
theorem Intact.loaded {k' : Kernel} {ops : Ops} (h : Intact ino f D k) (hno : k.hash j = none)
    (hops : sfsGetOps (diskInode (k.fs.disk j)).type = some ops)
    (hlinks : (diskInode (k.fs.disk j)).nlinks ≠ 0) (href : n.info = .sfs j) (ho : n.ops = ops)
    (hinode : k'.inode = Function.update k.inode k.brk (some n))
    (hhash : k'.hash = Function.update k.hash j (some k.brk))
    (hsin : k'.fs.sin = Function.update k.fs.sin j ⟨diskInode (k.fs.disk j), false⟩)
    (hdisk : k'.fs.disk = k.fs.disk) (hfiles : k'.files = k.files) (hbrk : k'.brk = k.brk + 1) :
    Intact ino f D k' := by
  have hs := h.settled
  have hsame : k'.fs.sin ino = k.fs.sin ino := by
    by_cases hj : ino = j
    · subst hj
      rw [hsin, Function.update_self]
      exact (hs.record hno).symm
    · rw [hsin, Function.update_of_ne hj]
  have hd : k'.fs.din ino = k.fs.din ino := congrArg Sin.din hsame
  have hb : ∀ b, k.fs.Uses ino b → k'.fs.disk b = k.fs.disk b := fun b _ => congrFun hdisk b
  have hmem : ∀ {q m}, k'.inode q = some m → q = k.brk ∧ m = n ∨ q ≠ k.brk ∧
    k.inode q = some m := by
    intro q m hm
    rw [hinode] at hm
    by_cases hq : q = k.brk
    · rw [hq, Function.update_self] at hm
      exact .inl ⟨hq, (Option.some.inj hm).symm⟩
    · exact .inr ⟨hq, by rwa [Function.update_of_ne hq] at hm⟩
  have hold : ∀ {q m}, q < k.brk → k'.inode q = some m → k.inode q = some m := by
    intro q m hq hm
    rcases hmem hm with ⟨rfl, -⟩ | ⟨-, hm⟩
    · exact absurd hq (lt_irrefl _)
    · exact hm
  have hne : ∀ {q m i}, k.inode q = some m → m.info = .sfs i → i ≠ j := by
    rintro q m i hm him rfl
    rw [hs.link q m i hm him] at hno
    cases hno
  refine ⟨⟨?_, fun hn => ?_, fun i hdirty => ?_, fun q m i hm him => ?_, fun q m i hm him => ?_,
    fun q m hm him => ?_, fun g t q hg hq => ?_, fun q hq => ?_⟩, ?_, fun q hq => ?_⟩
  · rw [hd]
    exact hs.type
  · rw [hsame, hdisk]
    refine hs.record ?_
    by_cases hj : ino = j
    · rw [hj]
      exact hno
    · rwa [hhash, Function.update_of_ne hj] at hn
  · exact h.apart_of_clean hsin hd hdisk hdirty
  · rw [hhash]
    rcases hmem hm with ⟨rfl, rfl⟩ | ⟨-, hm⟩
    · obtain rfl : j = i := Info.sfs.inj (href.symm.trans him)
      exact Function.update_self ..
    · rw [Function.update_of_ne (hne hm him)]
      exact hs.link q m i hm him
  · unfold Fs.din
    rw [hsin]
    rcases hmem hm with ⟨-, rfl⟩ | ⟨-, hm⟩
    · obtain rfl : j = i := Info.sfs.inj (href.symm.trans him)
      rwa [Function.update_self]
    · rw [Function.update_of_ne (hne hm him)]
      exact hs.links q m i hm him
  · rcases hmem hm with ⟨-, rfl⟩ | ⟨-, hm⟩
    · obtain rfl : j = ino := Info.sfs.inj (href.symm.trans him)
      have ht : (diskInode (k.fs.disk j)).type = sfsTypeFile := by
        have := hs.type
        unfold Fs.din at this
        rwa [hs.record hno] at this
      rw [ht] at hops
      rw [ho]
      exact (Option.some.inj hops).symm
    · exact hs.regular q m hm him
  · rw [hfiles] at hg
    obtain ⟨hlt, hp⟩ := hs.pwd g t q hg hq
    exact ⟨by omega, fun m hm => hp m (hold hlt hm)⟩
  · rw [hbrk] at hq
    rw [hinode, Function.update_of_ne (by omega)]
    exact hs.brk q (by omega)
  · exact (file_kept hd hb).trans h.file
  · obtain ⟨hlt, hp⟩ := h.other q hq
    exact ⟨by omega, fun m hm => hp m (hold hlt hm)⟩

end Intact

section Inode

variable {α : Type} {k : Kernel} {ino p j : ℕ} {f : Sfs.File} {D : Set ℕ} {n : Inode} {op : Vop}

theorem wp_any {ε σ : Type} {m : Code ε σ α} {s : σ} :
    Code.Wp m s (fun _ => True) fun _ _ => True := by
  unfold Code.Wp
  split <;> trivial

theorem deref_bind {g : Inode → Prog α} {Q : α → Kernel → Prop}
    (h : ∀ n, k.inode p = some n → Code.Wp (g n) k (fun _ => True) Q) :
    Code.Wp (deref p >>= g) k (fun _ => True) Q := by
  cases hn : k.inode p with
  | none => exact .of_error (Code.bind_error (by unfold deref; rw [hn])) trivial
  | some n => exact .bind_of (deref_eq hn) (h n hn)

theorem deref_intact : Code.Preserves (Intact ino f D) Any (deref p) := by
  intro k hk
  unfold Code.Wp deref
  cases k.inode p with
  | none => trivial
  | some n => exact ⟨trivial, hk⟩

theorem kmalloc_intact : Code.Preserves (Intact ino f D) Any kmalloc := fun _ hk =>
  ⟨trivial, ⟨hk.settled.type, hk.settled.record, hk.settled.apart, hk.settled.link,
    hk.settled.links, hk.settled.regular, hk.settled.pwd, hk.settled.brk⟩, hk.file, hk.other⟩

theorem Intact.idle {t : Fs} (h : Intact ino f D k) (ht : Idle k.fs t) :
    Intact ino f D (k.setFs t) := by
  obtain ⟨m, rfl⟩ := ht
  have hs := h.settled
  exact ⟨⟨hs.type, hs.record, hs.apart, hs.link, hs.links, hs.regular, hs.pwd, hs.brk⟩,
    h.file, h.other⟩

theorem volume_wp {m : Sfs.Prog α} {Q : α → Fs → Prop} (h : Code.Wp m k.fs (fun _ => True) Q) :
    Code.Wp (volume m) k (fun _ => True) fun a k' => ∃ t, Q a t ∧ k' = k.setFs t := by
  unfold Code.Wp volume at *
  cases hm : m k.fs with
  | ok r =>
    rw [hm] at h
    exact ⟨r.2, h, rfl⟩
  | error e => trivial

theorem volume_intact {m : Sfs.Prog α} (h : Code.Preserves (Idle k.fs) Any m)
    (hk : Intact ino f D k) :
    Code.Wp (volume m) k (fun _ => True) fun _ k' => Intact ino f D k' := by
  refine (volume_wp (h k.fs ⟨0, rfl⟩)).mono (fun _ he => he) ?_
  rintro a _ ⟨t, ⟨-, ht⟩, rfl⟩
  exact hk.idle ht

theorem inodeRefInc_intact : Code.Preserves (Intact ino f D) Any (inodeRefInc p) := fun _ hk =>
  deref_bind fun _ hn => .bind_modify (.pure ⟨trivial, hk.setInode hn rfl rfl⟩)

theorem vopOp_bind {g : Inode → Prog α} {Q : α → Kernel → Prop}
    (h : ∀ n, k.inode p = some n → n.ops.has op = true → Code.Wp (g n) k (fun _ => True) Q) :
    Code.Wp (vopOp p op >>= g) k (fun _ => True) Q := by
  have hop : Code.Wp (vopOp p op) k (fun _ => True)
      fun n k' => k = k' ∧ k.inode p = some n ∧ n.ops.has op = true := by
    refine deref_bind fun n hn => Code.Wp.bind_assert (fun ho => ?_) fun _ => trivial
    refine Code.Wp.bind (Q := fun _ k' => k = k') ?_ fun _ _ hk => Code.Wp.pure ⟨hk, hn, ho⟩
    exact Code.Wp.bind_assert (fun _ => Code.Wp.assert (fun _ => rfl) fun _ =>
      trivial) fun _ => trivial
  refine hop.bind ?_
  rintro n _ ⟨rfl, hn, ho⟩
  exact h n hn ho

theorem vopFsync_intact (hk : Intact ino f D k) (hn : k.inode p = some n) (hi : n.info = .sfs j)
    (ho : n.ops ≠ .file) (hd : (k.fs.sin j).dirty = true) :
    Code.Wp (vopFsync p) k (fun _ => True) fun _ k' => Intact ino f D k' ∧ k'.inode p = some n := by
  refine vopOp_bind fun m hm _ => ?_
  obtain rfl := Option.some.inj (hn.symm.trans hm)
  rw [hi]
  refine (volume_wp sfsFsync_synced).mono (fun _ he => he) ?_
  rintro ret _ ⟨t, ht, rfl⟩
  exact ⟨hk.synced (hk.ne hn hi ho) hd ht, hn⟩

theorem reclaimSync_intact (hk : Intact ino f D k) (hn : k.inode p = some n) (hi : n.info = .sfs j)
    (ho : n.ops ≠ .file) :
    Code.Wp (reclaimSync p j) k (fun _ => True) fun _ k' => Intact ino f D k' ∧
    k'.inode p = some n := by
  refine Code.Wp.bind_get ?_
  rw [if_neg (hk.settled.links p n j hn hi)]
  refine Code.Wp.bind_of Code.pure_run ?_
  rw [if_neg (not_not.mpr rfl)]
  refine Code.Wp.bind_get ?_
  split
  · rename_i hd
    exact vopFsync_intact hk hn hi ho hd
  · exact Code.Wp.pure ⟨hk, hn⟩

theorem reclaimFree_intact (hk : Intact ino f D k) (hn : k.inode p = some n) (hi : n.info = .sfs j)
    (ho : n.ops ≠ .file) :
    Code.Wp (reclaimFree p j) k (fun _ => True) fun _ k' => Intact ino f D k' := by
  refine Code.Wp.bind_modify ?_
  have hlinks := hk.settled.links p n j hn hi
  have hblocks : ∀ {s : Fs}, s.din j = k.fs.din j → reclaimBlocks j s = .ok ((), s) := by
    intro s hs
    unfold reclaimBlocks
    rw [Code.bind_ok Code.get_run, hs, if_neg hlinks]
    rfl
  refine Code.Wp.bind (volume_wp (Q := fun _ t => t = _) (Code.Wp.of_ok (hblocks rfl) rfl)) ?_
  rintro _ _ ⟨_, rfl, rfl⟩
  refine Code.Wp.bind_modify (deref_bind fun m _ =>
    Code.Wp.bind_assert (fun _ => ?_) fun _ => trivial)
  exact hk.reclaimed hn hi ho rfl rfl rfl rfl rfl rfl

theorem sfsReclaim_intact (hk : Intact ino f D k) (hn : k.inode p = some n) (hi : n.info = .sfs j)
    (ho : n.ops ≠ .file) :
    Code.Wp (sfsReclaim p j) k (fun _ => True) fun _ k' => Intact ino f D k' := by
  refine Code.Wp.bind_of (deref_eq hn) (Code.Wp.bind_assert (fun _ => ?_) fun _ => trivial)
  have hk' : Intact ino f D (k.setInode p (some { n with reclaimCount := n.reclaimCount - 1 })) :=
    hk.setInode hn rfl rfl
  refine Code.Wp.bind_modify ?_
  split
  · exact Code.Wp.pure hk'
  · refine Code.Wp.bind (reclaimSync_intact hk' setInode_inode hi ho) fun ret k₁ h₁ => ?_
    split
    · exact Code.Wp.pure h₁.1
    · exact Code.Wp.bind (reclaimFree_intact h₁.1 h₁.2 hi ho) fun _ _ h => Code.Wp.pure h

theorem inodeRefDec_intact (hk : Intact ino f D k) (hp : ∀ n, k.inode p = some n → n.ops ≠ .file) :
    Code.Wp (inodeRefDec p) k (fun _ => True) fun _ k' => Intact ino f D k' := by
  refine deref_bind fun n hn => Code.Wp.bind_assert (fun _ => ?_) fun _ => trivial
  have hk' : Intact ino f D (k.setInode p (some { n with refCount := n.refCount - 1 })) :=
    hk.setInode hn rfl rfl
  refine Code.Wp.bind_modify ?_
  split
  · refine Code.Wp.bind (Q := fun _ k' => Intact ino f D k') ?_ fun _ _ h => Code.Wp.pure h
    refine vopOp_bind fun m hm _ => ?_
    have ho : m.ops ≠ .file := by
      obtain rfl := Option.some.inj (setInode_inode.symm.trans hm)
      exact hp n hn
    cases hi : m.info with
    | dev d => exact .of_error rfl trivial
    | sfs j => exact sfsReclaim_intact hk' hm hi ho
  · exact Code.Wp.pure hk'

theorem inodeRefDec_other (hp : p ∈ D) : Code.Preserves (Intact ino f D) Any (inodeRefDec p) :=
  fun _ hk => (inodeRefDec_intact hk (hk.other p hp).2).mono (fun _ he => he) fun _ _ h =>
    ⟨trivial, h⟩

end Inode

section Lookup

variable {k : Kernel} {ino p j cur sin slot m i : ℕ} {f : Sfs.File} {D : Set ℕ} {path name : Str}

theorem lookupSfsNolock_intact (hk : Intact ino f D k) :
    Code.Wp (lookupSfsNolock j) k (fun _ => True)
    fun o k' => Intact ino f D k' ∧ (o = none → k'.hash j = none) := by
  refine Code.Wp.bind_get ?_
  cases hj : k.hash j with
  | none => exact Code.Wp.pure ⟨hk, fun _ => hj⟩
  | some p =>
    refine (inodeRefInc_intact k hk).bind fun c k' h => ?_
    split
    · exact deref_bind fun n hn => Code.Wp.bind_modify (Code.Wp.pure
        ⟨h.2.setInode hn rfl rfl, nofun⟩)
    · exact Code.Wp.pure ⟨h.2, nofun⟩

theorem diskInode_read {b : Buf} : diskInode (memcpy zeros 0 b 0 sizeofDiskInode) = diskInode b :=
  diskInode_congr fun x hx => (memcpy_start hx).trans (congrArg b (Nat.zero_add x))

/-- The inode is created from its record on the device. -/
theorem sfsCreateInode_intact {din : DiskInode} (hk : Intact ino f D k) (hno : k.hash j = none)
    (hdin : din = diskInode (k.fs.disk j)) (hlinks : din.nlinks ≠ 0) :
    Code.Wp (do
      let (ret, p) ← sfsCreateInode din j
      if ret ≠ 0 then return (ret, 0)
      else
        sfsSetLinks p j
        return (0, p)) k (fun _ => True) fun (_ : ℤ × ℕ) k' => Intact ino f D k' := by
  subst hdin
  have h₁ := (kmalloc_intact k hk).2
  by_cases hm : k.kmallocs.headD true = true
  swap
  · have hrun : sfsCreateInode (diskInode (k.fs.disk j)) j k =
        .ok ((-eNoMem, 0), { k with kmallocs := k.kmallocs.tail }) := by
      unfold sfsCreateInode
      rw [Code.bind_ok (m := kmalloc) rfl, if_neg hm]
      rfl
    exact Code.Wp.bind_of hrun (Code.Wp.pure h₁)
  cases hops : sfsGetOps (diskInode (k.fs.disk j)).type with
  | none =>
    refine .of_error (e := .fileType) (Code.bind_error ?_) trivial
    unfold sfsCreateInode
    rw [Code.bind_ok (m := kmalloc) rfl, if_pos hm, hops]
    rfl
  | some ops =>
    have hrun : sfsCreateInode (diskInode (k.fs.disk j)) j k = .ok ((0, k.brk),
        { k.setInode k.brk (some ⟨.sfs j, ops, 1, 0, 1⟩) with
          kmallocs := k.kmallocs.tail
          brk := k.brk + 1
          fs := k.fs.setSin j fun _ => ⟨diskInode (k.fs.disk j), false⟩ }) := by
      unfold sfsCreateInode
      rw [Code.bind_ok (m := kmalloc) rfl, if_pos hm, hops]
      rfl
    refine Code.Wp.bind_of hrun (Code.Wp.bind_modify (Code.Wp.pure ?_))
    exact h₁.loaded (n := ⟨.sfs j, ops, 1, 0, 1⟩) hno hops hlinks rfl rfl rfl rfl rfl rfl rfl rfl

theorem sfsLoadInode_intact : Code.Preserves (Intact ino f D) Any (sfsLoadInode j) := by
  intro k hk
  refine (lookupSfsNolock_intact hk).bind ?_
  rintro (_ | p) k₁ ⟨h₁, hno⟩
  swap
  · exact Code.Wp.pure ⟨trivial, h₁⟩
  refine Code.Wp.bind_of (a := k₁.kmallocs.headD true) rfl ?_
  have h₂ := (kmalloc_intact k₁ h₁).2
  split
  swap
  · exact Code.Wp.pure ⟨trivial, h₂⟩
  refine Code.Wp.bind (volume_wp (assertInuse_idle _ ⟨0, rfl⟩)) ?_
  rintro _ _ ⟨t, ⟨-, ht⟩, rfl⟩
  have h₃ := h₂.idle ht
  have hread : Code.Wp (sfsRbuf zeros 0 sizeofDiskInode j 0) t (fun _ => True) fun r u =>
      Idle t u ∧ (r.1 = 0 → r.2 = memcpy zeros 0 (t.disk j) 0 sizeofDiskInode) :=
    sfsRbuf_wp (fun _ _ => trivial) (fun hc => ⟨⟨1, rfl⟩, fun h => absurd h hc⟩)
      fun _ _ => ⟨⟨1, rfl⟩, fun _ => rfl⟩
  refine Code.Wp.bind (volume_wp hread) ?_
  rintro ⟨ret, b⟩ _ ⟨u, ⟨hu, hb⟩, rfl⟩
  have h₄ := h₃.idle hu
  dsimp only at hb ⊢
  split
  · exact Code.Wp.pure ⟨trivial, h₄⟩
  · rename_i hret
    obtain ⟨m, rfl⟩ := hu
    have hdin := (congrArg diskInode (hb (not_not.mp hret))).trans diskInode_read
    refine Code.Wp.bind_assert (fun hlinks => ?_) fun _ => trivial
    exact (sfsCreateInode_intact h₄ (hno rfl) hdin hlinks).mono (fun _ he => he) fun _ _ h =>
      ⟨trivial, h⟩

theorem sfsGetRoot_intact : Code.Preserves (Intact ino f D) Any sfsGetRoot :=
  .bind sfsLoadInode_intact fun _ _ => .ite (fun _ => .panic) fun _ => .pure trivial

theorem sfsDirentReadNolock_intact :
    Code.Preserves (Intact ino f D) Any (sfsDirentReadNolock sin slot) := by
  intro k hk
  refine Code.Wp.bind_assert (fun hslot => ?_) fun _ => trivial
  refine (volume_intact (sfsBmapLoadNolock_idle hslot.2) hk).bind ?_
  rintro ⟨ret, b⟩ k₁ h₁
  dsimp only
  split
  · exact Code.Wp.pure ⟨trivial, h₁⟩
  · refine (volume_intact assertInuse_idle h₁).bind fun _ k₂ h₂ => ?_
    exact (volume_intact sfsRbuf_idle h₂).bind fun _ k₃ h₃ => Code.Wp.pure ⟨trivial, h₃⟩

theorem searchLoop_intact : Code.Preserves (Intact ino f D) Any (searchLoop sin name m i) := by
  induction m generalizing i with
  | zero => exact .pure trivial
  | succ m ih =>
    refine .bind sfsDirentReadNolock_intact fun _ _ => .ite (fun _ => .pure trivial) fun _ => ?_
    exact .ite (fun _ => .pure trivial) fun _ => ih

theorem sfsLookupOnce_intact : Code.Preserves (Intact ino f D) Any (sfsLookupOnce sin name) := by
  refine .bind (P := Any) ?_ fun _ _ => .ite (fun _ => .pure trivial) fun _ => sfsLoadInode_intact
  refine .bind .assert fun _ _ => .bind kmalloc_intact fun _ _ => ?_
  exact .ite (fun _ => .get_bind fun _ _ => searchLoop_intact) fun _ => .pure trivial

theorem sfsLookup_intact (hp : p ∈ D) :
    Code.Preserves (Intact ino f D) Any (sfsLookup p j path) := by
  refine .bind .assert fun _ _ => .bind inodeRefInc_intact fun _ _ => .get_bind fun _ _ => ?_
  refine .ite (fun _ => .bind (inodeRefDec_other hp) fun _ _ => .pure trivial) fun _ => ?_
  refine .bind sfsLookupOnce_intact fun _ _ => .bind (inodeRefDec_other hp) fun _ _ => ?_
  exact .ite (fun _ => .pure trivial) fun _ => .pure trivial

theorem vopLookup_intact (hk : Intact ino f D k) : Code.Wp (vopLookup p path) k (fun _ => True)
    fun _ k' => Intact ino f (Insert.insert p D) k' := by
  refine vopOp_bind fun n hn ho => ?_
  have hfile : n.ops ≠ .file := by
    intro h
    rw [h] at ho
    cases ho
  have hk' := hk.insert hn hfile
  cases n.info with
  | sfs j =>
    exact (sfsLookup_intact (Set.mem_insert p D) k hk').mono (fun _ he => he) fun _ _ h => h.2
  | dev d =>
    dsimp only
    split
    · exact Code.Wp.pure hk'
    · exact (inodeRefInc_intact k hk').bind fun _ _ h => Code.Wp.pure h.2

theorem vfsGetCurdir_intact (hk : Intact ino f D k) : Code.Wp (vfsGetCurdir cur) k (fun _ => True)
    fun r k' => Intact ino f D k' ∧ (r.1 = 0 → Intact ino f (Insert.insert r.2 D) k') := by
  unfold vfsGetCurdir
  cases ht : k.files cur with
  | none => exact .of_error (Code.bind_error (by unfold filesAt; rw [ht])) trivial
  | some t =>
    refine .bind_of (by unfold filesAt; rw [ht]) ?_
    cases hp : t.pwd with
    | none => exact Code.Wp.pure ⟨hk, fun h => absurd h (by decide)⟩
    | some p =>
      refine Code.Wp.bind (Q := fun _ k' => Intact ino f D k' ∧ Intact ino f (Insert.insert p D) k')
        (deref_bind fun n hn => Code.Wp.bind_modify (Code.Wp.pure ⟨hk.setInode hn rfl rfl, ?_⟩))
        fun _ _ h => Code.Wp.pure ⟨h.1, fun _ => h.2⟩
      exact (hk.insert hn ((hk.settled.pwd cur t p ht hp).2 n hn)).setInode hn rfl rfl

theorem vfsGetBootfs_intact : Code.Preserves (Intact ino f D) Any vfsGetBootfs := by
  refine .get_bind fun k _ => ?_
  cases k.bootfs with
  | some p => exact .bind inodeRefInc_intact fun _ _ => .pure trivial
  | none => exact .pure trivial

theorem vfsGetRoot_intact : Code.Preserves (Intact ino f D) Any (vfsGetRoot name) := by
  refine .ite (fun _ => .bind sfsGetRoot_intact fun _ _ => .pure trivial) fun _ => ?_
  refine .ite (fun _ => .get_bind fun _ _ => ?_) fun _ => .pure trivial
  exact .bind inodeRefInc_intact fun _ _ => .pure trivial

theorem Intact.forget (h : Intact ino f (Insert.insert p D) k) : Intact ino f D k :=
  ⟨h.settled, h.file, fun q hq => h.other q (.inr hq)⟩

theorem getDevice_intact : Code.Preserves (Intact ino f D) Any (getDevice cur path) := by
  intro k hk
  unfold getDevice
  split
  · exact (vfsGetCurdir_intact hk).bind fun _ _ h => Code.Wp.pure ⟨trivial, h.1⟩
  · exact (vfsGetRoot_intact k hk).bind fun _ _ h => Code.Wp.pure ⟨trivial, h.2⟩
  · exact (vfsGetBootfs_intact k hk).bind fun _ _ h => Code.Wp.pure ⟨trivial, h.2⟩
  · refine (vfsGetCurdir_intact hk).bind ?_
    rintro ⟨ret, p⟩ k₁ ⟨h₁, hp⟩
    dsimp only at hp ⊢
    split
    · exact Code.Wp.pure ⟨trivial, h₁⟩
    · -- the working directory is held until the root is there
      rename_i hret
      have hdec : Code.Preserves (Intact ino f (Insert.insert p D)) Any (inodeRefDec p) :=
        inodeRefDec_other (Set.mem_insert p D)
      refine (deref_intact k₁ (hp (not_not.mp hret))).bind fun n k₂ h₂ => ?_
      cases n.info with
      | dev d => exact .of_error rfl trivial
      | sfs j =>
        refine (sfsGetRoot_intact k₂ h₂.2).bind fun root k₃ h₃ => ?_
        exact (hdec k₃ h₃.2).bind fun _ k₄ h₄ => Code.Wp.pure ⟨trivial, h₄.2.forget⟩

theorem vfsLookup_intact : Code.Preserves (Intact ino f D) Any (vfsLookup cur path) := by
  intro k hk
  refine (getDevice_intact k hk).bind ?_
  rintro ⟨ret, p, subpath⟩ k₁ ⟨-, h₁⟩
  dsimp only
  split
  · exact Code.Wp.pure ⟨trivial, h₁⟩
  · split
    · refine (vopLookup_intact h₁).bind fun r k₂ h₂ => ?_
      have hdec : Code.Preserves (Intact ino f (Insert.insert p D)) Any (inodeRefDec p) :=
        inodeRefDec_other (Set.mem_insert p D)
      exact (hdec k₂ h₂).bind fun _ k₃ h₃ => Code.Wp.pure ⟨trivial, h₃.2.forget⟩
    · exact Code.Wp.pure ⟨trivial, h₁⟩

end Lookup

section Open

variable {k k' : Kernel} {ino cur node flags : ℕ} {path : Str}

def LeadsTo (k : Kernel) (cur : ℕ) (path : Str) (ino : ℕ) : Prop :=
  ∃ node k₁ n, vfsLookup cur path k = .ok ((0, node), k₁) ∧ k₁.inode node = some n ∧
    n.info = .sfs ino

/-- What is left of a file after a truncation to no bytes: nothing, and a file of no bytes is as it
was. -/
theorem sfsTruncfile_zero {s : Fs} : Code.Wp (sfsTruncfile ino 0) s (fun _ => True) fun ret t =>
    ret = 0 → (t.din ino).size = 0 ∧ ((s.din ino).size = 0 → t = s) := by
  unfold sfsTruncfile
  rw [if_neg (by decide)]
  refine Code.Wp.bind_get ?_
  dsimp only
  split
  · rename_i hsize
    refine Code.Wp.bind_assert (fun _ => ?_) fun _ => trivial
    exact Code.Wp.pure fun _ => ⟨by exact_mod_cast hsize.symm, fun _ => rfl⟩
  · rename_i hsize
    refine wp_any.bind fun ret t _ => ?_
    split
    · rename_i hret
      exact Code.Wp.pure fun h => absurd h hret
    · refine Code.Wp.bind_assert (fun _ => ?_) fun _ => trivial
      refine Code.Wp.bind_modify (Code.Wp.pure fun _ => ⟨?_, fun h => absurd ?_ hsize⟩)
      · unfold Fs.din Fs.setSin
        dsimp only
        rw [Function.update_self]
        rfl
      · rw [h]
        rfl

theorem vopTruncate_zero {n : Inode} (hn : k.inode node = some n) (hi : n.info = .sfs ino) :
    Code.Wp (vopTruncate node 0) k (fun _ => True) fun ret k' => ret = 0 →
      (k'.fs.din ino).size = 0 ∧ ((k.fs.din ino).size = 0 → k'.fs = k.fs) := by
  refine vopOp_bind fun m hm _ => ?_
  obtain rfl := Option.some.inj (hn.symm.trans hm)
  rw [hi]
  refine (volume_wp sfsTruncfile_zero).mono (fun _ he => he) ?_
  rintro ret _ ⟨t, ht, rfl⟩
  exact ht

/-- An open truncates for `O_TRUNC` and for `O_CREAT`. -/
theorem vfsOpenNode_truncates {n : Inode} (hn : k.inode node = some n) (hi : n.info = .sfs ino) :
    Code.Wp (vfsOpenNode node flags) k (fun _ => True) fun r k' => r.1 = 0 →
      if has flags oTrunc ∨ has flags oCreat then
        (k'.fs.din ino).size = 0 ∧ ((k.fs.din ino).size = 0 → k'.fs = k.fs)
      else k'.fs = k.fs := by
  have hopen : Code.Wp (vopOpen node flags) k (fun _ => True) fun _ k' => k = k' := by
    refine vopOp_bind fun m _ _ => ?_
    split
    · exact Code.Wp.pure rfl
    · exact Code.Wp.pure rfl
    · exact Code.Wp.pure rfl
    · exact .of_error rfl trivial
  refine hopen.bind ?_
  rintro ret _ rfl
  split
  · rename_i hret
    exact wp_any.bind fun _ _ _ => Code.Wp.pure fun h => absurd h hret
  have hinc : Code.Wp (inodeOpenInc node) k (fun _ => True) fun _ k' =>
      k'.fs = k.fs ∧ ∃ m, k'.inode node = some m ∧ m.info = .sfs ino :=
    Code.Wp.bind_of (deref_eq hn) ⟨rfl, _, setInode_inode, hi⟩
  refine hinc.bind ?_
  rintro _ k₁ ⟨hfs, m, hm, hmi⟩
  have htrunc : Code.Wp
      (if has flags oTrunc ∨ has flags oCreat then vopTruncate node 0 else pure 0 : Prog ℤ) k₁
      (fun _ => True) fun ret k' => ret = 0 → if has flags oTrunc ∨ has flags oCreat then
        (k'.fs.din ino).size = 0 ∧ ((k.fs.din ino).size = 0 → k'.fs = k.fs) else k'.fs = k.fs := by
    rw [← hfs]
    split
    · exact vopTruncate_zero hm hmi
    · exact Code.Wp.pure fun _ => rfl
  refine htrunc.bind fun ret k₂ h₂ => ?_
  split
  · rename_i hret
    exact wp_any.bind fun _ _ _ => wp_any.bind fun _ _ _ => Code.Wp.pure fun h => absurd h hret
  · rename_i hret
    exact Code.Wp.pure fun _ => h₂ (not_not.mp hret)

theorem vfsOpen_eq_ok (hopen : vfsOpen cur path flags k = .ok ((0, node), k')) {p : ℕ} {k₁ : Kernel}
    (hlook : vfsLookup cur path k = .ok ((0, p), k₁)) :
    vfsOpenNode p flags k₁ = .ok ((0, node), k') := by
  have hne : ∀ {e : ℤ} {s : Kernel}, e ≠ 0 →
      (Pure.pure (e, 0) : Prog (ℤ × ℕ)) s ≠ .ok ((0, node), k') := by
    intro e s he h
    rw [Code.pure_run] at h
    simp only [Except.ok.injEq, Prod.mk.injEq] at h
    exact he h.1.1
  unfold vfsOpen at hopen
  dsimp only at hopen
  split at hopen
  · exact absurd hopen (hne (by decide))
  split at hopen
  · exact absurd hopen (hne (by decide))
  rw [Code.bind_ok hlook] at hopen
  dsimp only at hopen
  rw [if_neg (not_not.mpr rfl)] at hopen
  split at hopen
  · exact absurd hopen (hne (by decide))
  · exact hopen

/-- An open without `O_TRUNC` leaves the size, the blocks and the bytes of a regular file as they
were if and only if it is an open without `O_CREAT` or the file is empty: `vfs_open` truncates every
file that is opened with `O_CREAT`. -/
theorem vfsOpen_contents (hk : Settled ino k) (hpath : LeadsTo k cur path ino)
    (htrunc : has flags oTrunc = false) (hopen : vfsOpen cur path flags k = .ok ((0, node), k')) :
    k'.fs.file ino = k.fs.file ino ↔ has flags oCreat = false ∨ (k.fs.file ino).size = 0 := by
  obtain ⟨p, k₁, n, hlook, hn, hi⟩ := hpath
  have h₁ : Intact ino (k.fs.file ino) ∅ k₁ :=
    ((vfsLookup_intact k ⟨hk, rfl, fun _ h => h.elim⟩).ok hlook).2
  have hsize : (k₁.fs.din ino).size = (k.fs.file ino).size := congrArg File.size h₁.file
  have hnode := (vfsOpenNode_truncates hn hi).ok (vfsOpen_eq_ok hopen hlook) rfl
  rw [htrunc] at hnode
  by_cases hc : has flags oCreat = true
  · rw [if_pos (.inr hc)] at hnode
    constructor
    · intro he
      exact .inr ((congrArg File.size he).symm.trans hnode.1)
    · rintro (h | h)
      · rw [hc] at h
        cases h
      · rw [hnode.2 (hsize.trans h)]
        exact h₁.file
  · rw [if_neg (by simp [hc])] at hnode
    rw [hnode]
    exact ⟨fun _ => .inl (by simpa using hc), fun _ => h₁.file⟩

/-- After the boot every file of the volume is settled. -/
theorem boot_settled {fs : Fs} {kmallocs : List Bool} {stdin : List UInt8}
    (htype : (diskInode (fs.disk ino)).type = sfsTypeFile) (hino : ino ≠ sfsBlknRoot)
    (hroot : (diskInode (fs.disk sfsBlknRoot)).nlinks ≠ 0) :
    Settled ino (boot fs kmallocs stdin).kernel := by
  have hc : Coherent (boot fs kmallocs stdin).kernel := boot_coherent
  have hmem : ∀ p n, (boot fs kmallocs stdin).kernel.inode p = some n →
      n.ops = .dev ∧ (∃ d, n.info = .dev d) ∨ n.ops = .dir ∧ n.info = .sfs sfsBlknRoot := by
    intro p n hn
    unfold boot at hn
    dsimp only at hn
    split at hn
    · obtain rfl := Option.some.inj hn
      exact .inl ⟨rfl, _, rfl⟩
    split at hn
    · obtain rfl := Option.some.inj hn
      exact .inl ⟨rfl, _, rfl⟩
    split at hn
    · obtain rfl := Option.some.inj hn
      exact .inr ⟨rfl, rfl⟩
    · cases hn
  have hfile : ∀ p n, (boot fs kmallocs stdin).kernel.inode p = some n → n.ops ≠ .file := by
    intro p n hn he
    rcases hmem p n hn with ⟨ho, -⟩ | ⟨ho, -⟩ <;> simp [ho] at he
  have hroot' : ∀ p n j, (boot fs kmallocs stdin).kernel.inode p = some n → n.info = .sfs j →
      j = sfsBlknRoot := by
    intro p n j hn hi
    rcases hmem p n hn with ⟨-, d, hd⟩ | ⟨-, hr⟩
    · rw [hd] at hi
      cases hi
    · rw [hr] at hi
      exact (Info.sfs.inj hi).symm
  refine ⟨htype, fun _ => rfl, fun j hd => ?_, hc.sfs, fun p n j hn hi => ?_, fun p n hn hi => ?_,
    fun g t p hg hp => ⟨?_, hfile p⟩, hc.brk⟩
  · cases hd
  · rw [hroot' p n j hn hi]
    exact hroot
  · exact absurd (hroot' p n ino hn hi) hino
  · unfold boot at hg ⊢
    dsimp only at hg ⊢
    split at hg
    · obtain rfl := Option.some.inj hg
      cases hp
    split at hg
    · obtain rfl := Option.some.inj hg
      obtain rfl := Option.some.inj hp
      decide
    · cases hg

/-- The file `f` of one block, after the boot. -/
def oneBlock : Kernel := (boot (image 9 1 []) [] []).kernel

theorem oneBlock_settled : Settled 5 oneBlock :=
  boot_settled (by decide +kernel) (by decide) (by decide +kernel)

theorem oneBlock_leads : LeadsTo oneBlock 1 [102] 5 := by
  have hrun : (vfsLookup 1 [102] oneBlock).toOption.map (fun r =>
      decide (r.1 = (0, 3) ∧ (r.2.inode 3).map Inode.info = some (.sfs 5))) = some true := by
    decide +kernel
  obtain ⟨_, k₁, hlook, rfl, hi⟩ := Code.exists_of_decide hrun
  obtain ⟨n, hn, hi⟩ := Option.map_eq_some_iff.mp hi
  exact ⟨3, k₁, n, hlook, hn, hi⟩

theorem vfsOpen_contents_append :
    ∃ k', vfsOpen 1 [102] (oWronly ||| oAppend) oneBlock = .ok ((0, 3), k') ∧
      k'.fs.file 5 = oneBlock.fs.file 5 := by
  have hrun : (vfsOpen 1 [102] (oWronly ||| oAppend) oneBlock).toOption.map (fun r =>
      decide (r.1 = (0, 3))) = some true := by decide +kernel
  obtain ⟨_, k', hopen, rfl⟩ := Code.exists_of_decide hrun
  refine ⟨k', hopen, ?_⟩
  exact (vfsOpen_contents oneBlock_settled oneBlock_leads (by decide) hopen).mpr (.inl (by decide))

/-- The file of one block is empty after an open with `O_CREAT` and without `O_TRUNC`. -/
theorem vfsOpen_creat_empties : Settled 5 oneBlock ∧ LeadsTo oneBlock 1 [102] 5 ∧
    has (oWronly ||| oCreat) oTrunc = false ∧
    ∃ k', vfsOpen 1 [102] (oWronly ||| oCreat) oneBlock = .ok ((0, 3), k') ∧
      (oneBlock.fs.file 5).size = 4096 ∧ (k'.fs.file 5).size = 0 ∧
      k'.fs.file 5 ≠ oneBlock.fs.file 5 := by
  have hrun : (vfsOpen 1 [102] (oWronly ||| oCreat) oneBlock).toOption.map (fun r =>
      decide (r.1 = (0, 3) ∧ (r.2.fs.file 5).size = 0)) = some true := by decide +kernel
  have hsize : (oneBlock.fs.file 5).size = 4096 := by decide +kernel
  obtain ⟨_, k', hopen, rfl, hempty⟩ := Code.exists_of_decide hrun
  refine ⟨oneBlock_settled, oneBlock_leads, by decide, k', hopen, hsize, hempty, fun he => ?_⟩
  rw [he, hsize] at hempty
  cases hempty

end Open

end UCore.Vfs

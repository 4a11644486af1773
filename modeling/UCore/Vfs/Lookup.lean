import Mathlib.Data.List.TakeWhile
import UCore.Vfs.Boot
import UCore.Vfs.Contents

/-! # A path that is looked up twice

`vfs_open` looks up the parent of a path that it did not find. The buffer with the path was changed
by the first lookup when the path names a device.
-/

namespace UCore.Vfs

open Library Sfs

variable {k k' k₁ : Kernel} {c d : ℕ → ℤ} {cur p q ino : ℕ} {path name : Str}

section Scan

theorem scanPath_device {sub : Str} (h : scanPath path = (.device name, sub)) :
    scanPath name = (.cwd, name) := by
  have hname : path.takeWhile (fun c => decide (c ≠ colon ∧ c ≠ slash)) = name := by
    unfold scanPath at h
    dsimp only at h
    split at h
    · cases h
    · split_ifs at h <;> cases h
      rfl
  have hall : name.takeWhile (fun c => decide (c ≠ colon ∧ c ≠ slash)) = name := by
    rw [← hname, List.takeWhile_eq_self_iff]
    intro c hc
    have h := List.mem_takeWhile_imp hc
    exact h
  unfold scanPath
  dsimp only
  rw [hall, List.drop_length]

theorem cutPath_device {sub : Str} (h : scanPath path = (.device name, sub)) :
    cutPath path = name := by
  rw [cutPath, h]

theorem cutPath_other (h : ∀ dev, (scanPath path).1 ≠ .device dev) : cutPath path = path := by
  unfold cutPath
  split
  · rename_i dev hdev
    exact absurd hdev (h dev)
  · rfl

end Scan

section Extends

variable {k₀ : Kernel} {n n' : Inode} {f i m : ℕ}

/-- The inodes in memory of which `k₀` knew the address are inodes of `k₀`. -/
structure Extends (k₀ k : Kernel) : Prop where
  brk : k₀.brk ≤ k.brk
  inode : ∀ q n, q < k₀.brk → k.inode q = some n → ∃ m, k₀.inode q = some m ∧ m.info = n.info

namespace Extends

theorem refl (k : Kernel) : Extends k k := ⟨le_rfl, fun _ n _ hn => ⟨n, hn, rfl⟩⟩

theorem setInode (h : Extends k₀ k) (hn : k.inode p = some n) (hi : n'.info = n.info) :
    Extends k₀ (k.setInode p (some n')) := by
  refine ⟨h.brk, fun q m hlt hm => ?_⟩
  by_cases hq : q = p
  · subst hq
    obtain rfl := Option.some.inj (setInode_inode.symm.trans hm)
    obtain ⟨m, hm, he⟩ := h.inode q n hlt hn
    exact ⟨m, hm, he.trans hi.symm⟩
  · rw [setInode_inode_ne hq] at hm
    exact h.inode q m hlt hm

theorem remove (h : Extends k₀ k) : Extends k₀ (k.setInode p none) := by
  refine ⟨h.brk, fun q m hlt hm => ?_⟩
  by_cases hq : q = p
  · subst hq
    change Function.update k.inode q none q = some m at hm
    rw [Function.update_self] at hm
    cases hm
  · rw [setInode_inode_ne hq] at hm
    exact h.inode q m hlt hm

theorem create (h : Extends k₀ k) {o : Option Inode} {fs : Fs} :
    Extends k₀ { k.setInode k.brk o with brk := k.brk + 1, fs := fs } := by
  refine ⟨h.brk.trans (Nat.le_succ _), fun q m hlt hm => ?_⟩
  have hne : q ≠ k.brk := (hlt.trans_le h.brk).ne
  exact h.inode q m hlt ((setInode_inode_ne hne).symm.trans hm)

end Extends

theorem deref_extends : Code.Preserves (Extends k₀) Any (deref p) := by
  intro k hk
  unfold Code.Wp deref
  cases k.inode p with
  | none => trivial
  | some n => exact ⟨trivial, hk⟩

theorem kmalloc_extends : Code.Preserves (Extends k₀) Any kmalloc :=
    fun _ hk => ⟨trivial, hk.brk, hk.inode⟩

theorem volume_extends {α : Type} {m : Sfs.Prog α} :
    Code.Preserves (Extends k₀) Any (volume m) := by
  intro k hk
  refine (volume_wp (Q := fun _ _ => True) wp_any).mono (fun _ he => he) ?_
  rintro a _ ⟨t, -, rfl⟩
  exact ⟨trivial, hk.brk, hk.inode⟩

theorem inodeRefInc_extends : Code.Preserves (Extends k₀) Any (inodeRefInc p) :=
  fun _ hk => deref_bind fun _ hn =>
    Code.Wp.bind_modify (Code.Wp.pure ⟨trivial, hk.setInode hn rfl⟩)

theorem vopFsync_extends : Code.Preserves (Extends k₀) Any (vopFsync p) := by
  intro k hk
  refine vopOp_bind fun n _ _ => ?_
  cases n.info with
  | sfs ino => exact volume_extends k hk
  | dev d => exact .of_error rfl trivial

theorem vopTruncate_extends : Code.Preserves (Extends k₀) Any (vopTruncate p 0) := by
  intro k hk
  refine vopOp_bind fun n _ _ => ?_
  cases n.info with
  | sfs ino => exact volume_extends k hk
  | dev d => exact .of_error rfl trivial

theorem reclaimSync_extends : Code.Preserves (Extends k₀) Any (reclaimSync p ino) := by
  refine .get_bind fun k _ => .bind (P := Any) ?_ fun ret _ => ?_
  · exact .ite (fun _ => vopTruncate_extends) fun _ => .pure trivial
  · refine .ite (fun _ => .pure trivial) fun _ => .get_bind fun k _ => ?_
    exact .ite (fun _ => vopFsync_extends) fun _ => .pure trivial

theorem reclaimFree_extends : Code.Preserves (Extends k₀) Any (reclaimFree p ino) := by
  refine .bind (P := Any) (.modify fun _ h => ⟨h.brk, h.inode⟩) fun _ _ => ?_
  refine .bind volume_extends fun _ _ => ?_
  refine .bind (P := Any) (.modify fun _ h => ⟨h.brk, h.inode⟩) fun _ _ k hk => ?_
  refine deref_bind fun n _ => Code.Wp.bind_assert (fun _ => ?_) fun _ => trivial
  exact ⟨trivial, hk.remove⟩

theorem inodeRefDec_extends : Code.Preserves (Extends k₀) Any (inodeRefDec p) := by
  intro k hk
  refine deref_bind fun n hn => Code.Wp.bind_assert (fun _ => ?_) fun _ => trivial
  have hk' : Extends k₀ (k.setInode p (some { n with refCount := n.refCount - 1 })) :=
    hk.setInode hn rfl
  refine Code.Wp.bind_modify ?_
  split
  · refine Code.Wp.bind (Q := fun _ k' => Extends k₀ k') ?_ fun _ _ h => Code.Wp.pure ⟨trivial, h⟩
    refine vopOp_bind fun m _ _ => ?_
    cases m.info with
    | dev d => exact .of_error rfl trivial
    | sfs j =>
      refine deref_bind fun n hn => ?_
      refine Code.Wp.bind_assert (fun _ => Code.Wp.bind_modify ?_) fun _ => trivial
      have hk'' : Extends k₀ ((k.setInode p _).setInode p
        (some { n with reclaimCount := n.reclaimCount - 1 })) := hk'.setInode hn rfl
      split
      · exact Code.Wp.pure hk''
      · refine (reclaimSync_extends _ hk'').bind fun ret k₁ h₁ => ?_
        split
        · exact Code.Wp.pure h₁.2
        · exact (reclaimFree_extends _ h₁.2).bind fun _ _ h => Code.Wp.pure h.2
  · exact Code.Wp.pure ⟨trivial, hk'⟩

theorem lookupSfsNolock_extends : Code.Preserves (Extends k₀) Any (lookupSfsNolock ino) := by
  refine .get_bind fun k _ => ?_
  cases k.hash ino with
  | none => exact .pure trivial
  | some p =>
    refine .bind inodeRefInc_extends fun x _ => .ite (fun _ => ?_) fun _ => .pure trivial
    exact fun k hk => deref_bind fun n hn =>
      Code.Wp.bind_modify (Code.Wp.pure ⟨trivial, hk.setInode hn rfl⟩)

theorem sfsCreateInode_extends {din : DiskInode} :
    Code.Preserves (Extends k₀) Any (sfsCreateInode din ino) := by
  refine .bind kmalloc_extends fun _ _ => .ite (fun _ => ?_) fun _ => .pure trivial
  cases sfsGetOps din.type with
  | none => exact .panic
  | some ops =>
    exact fun k hk => Code.Wp.bind_get (Code.Wp.bind_modify (Code.Wp.pure ⟨trivial, hk.create⟩))

theorem sfsLoadInode_extends : Code.Preserves (Extends k₀) Any (sfsLoadInode ino) := by
  refine .bind lookupSfsNolock_extends fun o _ => ?_
  cases o with
  | some p => exact .pure trivial
  | none =>
    refine .bind kmalloc_extends fun _ _ => .ite (fun _ => ?_) fun _ => .pure trivial
    refine .bind volume_extends fun _ _ => .bind volume_extends fun _ _ => ?_
    refine .ite (fun _ => .pure trivial) fun _ => .bind .assert fun _ _ => ?_
    refine .bind sfsCreateInode_extends fun _ _ => .ite (fun _ => .pure trivial) fun _ => ?_
    exact .bind (P := Any) (.modify fun _ h => ⟨h.brk, h.inode⟩) fun _ _ => .pure trivial

theorem sfsGetRoot_extends : Code.Preserves (Extends k₀) Any sfsGetRoot :=
  .bind sfsLoadInode_extends fun _ _ => .ite (fun _ => .panic) fun _ => .pure trivial

theorem searchLoop_extends : Code.Preserves (Extends k₀) Any (searchLoop f name m i) := by
  induction m generalizing i with
  | zero => exact .pure trivial
  | succ m ih =>
    have hread : Code.Preserves (Extends k₀) Any (sfsDirentReadNolock f i) := by
      refine .bind .assert fun _ _ => .bind volume_extends fun _ _ => ?_
      refine .ite (fun _ => .pure trivial) fun _ => .bind volume_extends fun _ _ => ?_
      exact .bind volume_extends fun _ _ => .pure trivial
    refine .bind hread fun _ _ => .ite (fun _ => .pure trivial) fun _ => ?_
    exact .ite (fun _ => .pure trivial) fun _ => ih

theorem sfsLookup_extends : Code.Preserves (Extends k₀) Any (sfsLookup p ino path) := by
  refine .bind .assert fun _ _ => .bind inodeRefInc_extends fun _ _ => .get_bind fun _ _ => ?_
  refine .ite (fun _ => .bind inodeRefDec_extends fun _ _ => .pure trivial) fun _ => ?_
  refine .bind (P := Any) ?_ fun _ _ => .bind inodeRefDec_extends fun _ _ => ?_
  · refine .bind (P := Any) ?_ fun _ _ => .ite (fun _ => .pure trivial) fun _ =>
      sfsLoadInode_extends
    refine .bind .assert fun _ _ => .bind kmalloc_extends fun _ _ => ?_
    exact .ite (fun _ => .get_bind fun _ _ => searchLoop_extends) fun _ => .pure trivial
  · exact .ite (fun _ => .pure trivial) fun _ => .pure trivial

theorem vopLookup_extends : Code.Preserves (Extends k₀) Any (vopLookup p path) := by
  intro k hk
  refine vopOp_bind fun n _ _ => ?_
  cases n.info with
  | sfs ino => exact sfsLookup_extends k hk
  | dev d =>
    refine Code.Preserves.ite (fun _ => .pure trivial) (fun _ => ?_) k hk
    exact .bind inodeRefInc_extends fun _ _ => .pure trivial

theorem vfsGetCurdir_extends : Code.Preserves (Extends k₀) Any (vfsGetCurdir cur) := by
  have hfiles : Code.Preserves (Extends k₀) Any (filesAt cur) := by
    intro k hk
    unfold Code.Wp filesAt
    cases k.files cur with
    | none => trivial
    | some t => exact ⟨trivial, hk⟩
  refine .bind hfiles fun t _ => ?_
  cases t.pwd with
  | none => exact .pure trivial
  | some p => exact .bind inodeRefInc_extends fun _ _ => .pure trivial

theorem getDevice_extends : Code.Preserves (Extends k₀) Any (getDevice cur path) := by
  unfold getDevice
  split
  · exact .bind vfsGetCurdir_extends fun _ _ => .pure trivial
  · refine .bind (P := Any) ?_ fun _ _ => .pure trivial
    refine .ite (fun _ => .bind sfsGetRoot_extends fun _ _ => .pure trivial) fun _ => ?_
    refine .ite (fun _ => .get_bind fun _ _ => ?_) fun _ => .pure trivial
    exact .bind inodeRefInc_extends fun _ _ => .pure trivial
  · refine .bind (P := Any) (.get_bind fun k _ => ?_) fun _ _ => .pure trivial
    cases k.bootfs with
    | none => exact .pure trivial
    | some p => exact .bind inodeRefInc_extends fun _ _ => .pure trivial
  · refine .bind vfsGetCurdir_extends fun r _ => .ite (fun _ => .pure trivial) fun _ => ?_
    refine .bind deref_extends fun n _ => ?_
    cases n.info with
    | dev d => exact .panic
    | sfs j =>
      refine .bind sfsGetRoot_extends fun root _ => ?_
      exact .bind inodeRefDec_extends fun _ _ => .pure trivial

end Extends

section Root

theorem Coherent.inode_lt {n : Inode} (h : Coherent k) (hn : k.inode p = some n) : p < k.brk := by
  by_contra hle
  rw [h.brk p (Nat.le_of_not_lt hle)] at hn
  cases hn

/-- A loaded inode is in the hash list. -/
theorem sfsLoadInode_hash : Code.Wp (sfsLoadInode ino) k (fun _ => True) fun r k' =>
    r.1 = 0 → k'.hash ino = some r.2 := by
  unfold sfsLoadInode
  have hfound : Code.Wp (lookupSfsNolock ino) k (fun _ => True) fun o k' =>
      ∀ p, o = some p → k'.hash ino = some p := by
    refine Code.Wp.bind_get ?_
    cases hh : k.hash ino with
    | none => exact Code.Wp.pure fun p hp => by cases hp
    | some p =>
      have hinc : Code.Wp (inodeRefInc p) k (fun _ => True) fun _ k' => k'.hash ino = some p :=
        deref_bind fun n _ => Code.Wp.bind_modify (Code.Wp.pure hh)
      refine hinc.bind fun x k' hk' => ?_
      split
      · refine deref_bind fun n _ => Code.Wp.bind_modify (Code.Wp.pure fun p hp => ?_)
        exact hk'.trans hp
      · exact Code.Wp.pure fun p hp => hk'.trans hp
  refine hfound.bind fun o k₁ ho => ?_
  cases o with
  | some p => exact Code.Wp.pure fun _ => ho p rfl
  | none =>
    refine wp_any.bind fun ok k₂ _ => ?_
    split
    · refine wp_any.bind fun _ k₃ _ => wp_any.bind fun r k₄ _ => ?_
      obtain ⟨ret, b⟩ := r
      dsimp only
      split
      · rename_i hret
        exact Code.Wp.pure fun h => absurd h hret
      · refine Code.Wp.bind_assert (fun _ => ?_) fun _ => trivial
        refine wp_any.bind fun r k₅ _ => ?_
        obtain ⟨ret, p⟩ := r
        dsimp only
        split
        · rename_i hret
          exact Code.Wp.pure fun h => absurd h hret
        · exact Code.Wp.bind_modify (Code.Wp.pure fun _ => Function.update_self ..)
    · exact Code.Wp.pure fun h => absurd h (by decide)

theorem sfsGetRoot_hash : Code.Wp sfsGetRoot k (fun _ => True) fun p k' =>
    k'.hash sfsBlknRoot = some p := by
  unfold sfsGetRoot
  refine sfsLoadInode_hash.bind fun ⟨ret, p⟩ k' h => ?_
  dsimp only at h ⊢
  split
  · exact .of_error rfl trivial
  · rename_i hret
    exact Code.Wp.pure (h (not_not.mp hret))

theorem sfsGetRoot_info (ha : Acc c d k) : Code.Wp sfsGetRoot k Allowed fun p k' =>
    Rest k k' ∧ Acc (more c p 1) d k' ∧ ∃ n, k'.inode p = some n ∧ n.info = .sfs sfsBlknRoot := by
  refine (sfsGetRoot_wp ha).self.mono (fun _ he => he) fun p k' ⟨hrun, hr, ha'⟩ => ?_
  exact ⟨hr, ha', ha'.coherent.hash _ _ (sfsGetRoot_hash.ok hrun)⟩

end Root

section Start

/-- `current->filesp->pwd` of a process with the table `cur`. -/
def Kernel.pwd (k : Kernel) (cur : ℕ) : Option ℕ := (k.files cur).bind Files.pwd

theorem Rest.pwd (h : Rest k k') : k'.pwd cur = k.pwd cur := by
  unfold Kernel.pwd
  rw [h.files]

/-- What the root of the device is for: the root of the volume, or the device itself. -/
def Kernel.rootInfo (k : Kernel) (dev : Str) : Option Info :=
  if dev = disk0Name then some (.sfs sfsBlknRoot)
  else (k.inode (k.devnode (if dev = stdinName then .stdin else .stdout))).map Inode.info

/-- The result of a function that hands out an inode of the kernel, when there is one. -/
def handed : Option ℕ → ℤ × ℕ
  | some p => (0, p)
  | none => (-eNoent, 0)

theorem handed_eq_zero {o : Option ℕ} : handed o = (0, p) ↔ o = some p := by
  cases o with
  | none => simp [handed, eNoent]
  | some q => simp [handed]

theorem vfsGetCurdir_handed : Code.Wp (vfsGetCurdir cur) k (fun _ => True) fun r _ =>
    r = handed (k.pwd cur) := by
  unfold vfsGetCurdir filesAt Kernel.pwd
  cases ht : k.files cur with
  | none => exact .of_error (Code.bind_error (by rw [ht])) trivial
  | some t =>
    refine .bind_of (a := t) (t := k) (by rw [ht]) ?_
    cases hp : t.pwd with
    | none => exact Code.Wp.pure (by simp [hp, handed])
    | some p => exact wp_any.bind fun _ _ _ => Code.Wp.pure (by simp [hp, handed])

theorem vfsGetBootfs_handed : Code.Wp vfsGetBootfs k (fun _ => True) fun r _ =>
    r = handed k.bootfs := by
  refine Code.Wp.bind_get ?_
  cases k.bootfs with
  | none => exact Code.Wp.pure rfl
  | some p => exact wp_any.bind fun _ _ _ => Code.Wp.pure rfl

variable (hc : ∀ q, 0 ≤ c q)

include hc

theorem pwd_alive (ha : Acc c d k) (hp : k.pwd cur = some p) :
    ∃ n, k.inode p = some n ∧ 0 < n.refCount := by
  obtain ⟨t, ht, hp⟩ := Option.bind_eq_some_iff.mp hp
  refine ha.alive_of_backed ?_
  have := pwds_pos ha.coherent ht hp
  have := hc p
  unfold Backed
  omega

theorem root_alive (ha : Acc c d k) (hp : k.bootfs = some p ∨ ∃ d, k.devnode d = p) :
    ∃ n, k.inode p = some n ∧ 0 < n.refCount := by
  refine ha.alive_of_backed ?_
  have := roots_pos hp
  have := hc p
  unfold Backed
  omega

theorem vfsGetCurdir_returns {t : Files} (ha : Acc c d k) (ht : k.files cur = some t) :
    ∃ r k', vfsGetCurdir cur k = .ok (r, k') := by
  have hfiles : filesAt cur k = .ok (t, k) := by
    unfold filesAt
    rw [ht]
  cases hp : t.pwd with
  | none =>
    refine ⟨(-eNoent, 0), k, Eq.trans (Code.bind_ok hfiles) ?_⟩
    rw [hp]
    rfl
  | some p =>
    have hpwd : k.pwd cur = some p := by
      rw [Kernel.pwd, ht]
      exact hp
    obtain ⟨n, hn, -⟩ := pwd_alive hc ha hpwd
    refine ⟨(0, p), k.setInode p (some { n with refCount := n.refCount + 1 }), ?_⟩
    refine Eq.trans (Code.bind_ok hfiles) ?_
    rw [hp]
    exact Code.bind_ok (Code.bind_ok (deref_eq hn))

theorem getDevice_cwd {sub : Str} (ha : Acc c d k) (h : scanPath path = (.cwd, sub)) :
    Code.Wp (getDevice cur path) k Allowed fun r _ => r.2.2 = sub ∧
      (r.1, r.2.1) = handed (k.pwd cur) := by
  unfold getDevice
  rw [h]
  refine (vfsGetCurdir_wp hc ha).self.bind fun r _ ⟨hrun, _⟩ => Code.Wp.pure ⟨rfl, ?_⟩
  exact vfsGetCurdir_handed.ok hrun

theorem getDevice_bootfs {sub : Str} (ha : Acc c d k) (h : scanPath path = (.bootfs, sub)) :
    Code.Wp (getDevice cur path) k Allowed fun r _ => r.2.2 = sub ∧
      (r.1, r.2.1) = handed k.bootfs := by
  unfold getDevice
  rw [h]
  refine (vfsGetBootfs_wp hc ha).self.bind fun r _ ⟨hrun, _⟩ => Code.Wp.pure ⟨rfl, ?_⟩
  exact vfsGetBootfs_handed.ok hrun

theorem getDevice_fsRoot {sub : Str} (ha : Acc c d k) (h : scanPath path = (.fsRoot, sub)) :
    Code.Wp (getDevice cur path) k Allowed fun r k' => r.2.2 = sub ∧
      (r.1 = 0 ↔ ∃ p, k.pwd cur = some p) ∧
      (r.1 = 0 → ∃ n, k'.inode r.2.1 = some n ∧ n.info = .sfs sfsBlknRoot) ∧
      ∀ q n, k.pwd cur = some q → k.inode q = some n → ∃ ino, n.info = .sfs ino := by
  unfold getDevice
  rw [h]
  refine (vfsGetCurdir_wp hc ha).self.bind fun ⟨ret, q⟩ k₁ ⟨hrun, hr, ha₁⟩ => ?_
  have hq := vfsGetCurdir_handed.ok hrun
  dsimp only at ha₁ ⊢
  cases hp : k.pwd cur with
  | none =>
    rw [hp] at hq
    cases hq
    refine Code.Wp.pure ⟨rfl, by simp [eNoent], ?_, fun q n hq => by cases hq⟩
    exact fun h => absurd (show -eNoent = 0 from h) (by decide)
  | some q' =>
    rw [hp] at hq
    cases hq
    rw [if_neg (by simp)]
    rw [if_pos rfl] at ha₁
    obtain ⟨n, hn, hpos⟩ := ha₁.alive_of_backed (ha.backed hr)
    refine .bind_of (deref_eq hn) ?_
    split
    · exact .of_error rfl id
    rename_i ino hino
    have hsfs : ∀ x m, some q = some x → k.inode x = some m → ∃ ino, m.info = .sfs ino := by
      intro x m hx hm
      obtain rfl := Option.some.inj hx
      obtain ⟨m', hm', he⟩ := ((vfsGetCurdir_extends k (.refl k)).ok hrun).2.inode q n
        (ha.coherent.inode_lt hm) hn
      obtain rfl := Option.some.inj (hm.symm.trans hm')
      exact ⟨ino, he.trans hino⟩
    refine (sfsGetRoot_info ha₁).bind fun root k₂ ⟨hr', ha₂, m, hm, hi⟩ => ?_
    have hdec := (inodeRefDec_hands ha hr (r := (0, root)) ⟨hr', ha₂⟩).self
    refine hdec.bind fun _ k₃ ⟨hrun', hr₃, ha₃⟩ => Code.Wp.pure ⟨rfl, by simp, fun _ => ?_, hsfs⟩
    obtain ⟨n', hn', -⟩ := Acc.alive_of_backed ha₃ (ha.backed hr₃)
    obtain ⟨m', hm', he⟩ := ((inodeRefDec_extends k₂ (.refl k₂)).ok hrun').2.inode root n'
      (ha₂.coherent.inode_lt hm) hn'
    obtain rfl := Option.some.inj (hm.symm.trans hm')
    exact ⟨n', hn', he.symm.trans hi⟩

theorem getDevice_device {sub dev : Str} (ha : Acc c d k) (h : scanPath path = (.device dev, sub)) :
    Code.Wp (getDevice cur path) k Allowed fun r k' => r.2.2 = sub ∧
      (r.1 = 0 → ∃ n, k'.inode r.2.1 = some n ∧ k.rootInfo dev = some n.info) := by
  unfold getDevice
  rw [h]
  refine Code.Wp.bind (Q := fun r k' =>
    r.1 = 0 → ∃ n, k'.inode r.2 = some n ∧ k.rootInfo dev = some n.info) ?_
    fun r k' h => Code.Wp.pure ⟨rfl, h⟩
  unfold vfsGetRoot Kernel.rootInfo
  split
  · refine (sfsGetRoot_info ha).bind fun p k' ⟨_, _, n, hn, hi⟩ => Code.Wp.pure fun _ => ?_
    exact ⟨n, hn, by rw [hi]⟩
  split
  · refine Code.Wp.bind_get ?_
    dsimp only
    obtain ⟨n, hn, -⟩ := root_alive hc ha (.inr ⟨if dev = stdinName then Dev.stdin
      else .stdout, rfl⟩)
    refine .bind_of (Code.bind_ok (deref_eq hn)) (Code.Wp.pure fun _ => ⟨_, setInode_inode, ?_⟩)
    rw [hn]
    rfl
  · exact Code.Wp.pure fun h => absurd h (by decide)

end Start

section Panics

/-- The panics of `sfs_get_root` when the root has to be loaded and the device or the memory
fails. -/
def LoadFails : Panic → Prop
  | .sfs _ | .loadRoot | .nlinks | .fileType => True
  | _ => False

theorem lookupSfsNolock_returns (h : Coherent k) :
    Code.Wp (lookupSfsNolock ino) k LoadFails fun _ _ => True := by
  refine Code.Wp.bind_get ?_
  cases hh : k.hash ino with
  | none => exact Code.Wp.pure trivial
  | some p =>
    obtain ⟨n, hn, -⟩ := h.hash ino p hh
    refine .bind_of (Code.bind_ok (deref_eq hn)) ?_
    dsimp only
    split
    · exact .bind_of (deref_eq setInode_inode) (Code.Wp.bind_modify (Code.Wp.pure trivial))
    · exact Code.Wp.pure trivial

theorem volume_fails {α : Type} {m : Sfs.Prog α} :
    Code.Wp (volume m) k LoadFails fun _ _ => True := by
  unfold Code.Wp volume
  cases m k.fs with
  | ok r => trivial
  | error e => trivial

theorem sfsLoadInode_fails (h : Coherent k) :
    Code.Wp (sfsLoadInode ino) k LoadFails fun _ _ => True := by
  refine (lookupSfsNolock_returns h).bind fun o k₁ _ => ?_
  cases o with
  | some p => exact Code.Wp.pure trivial
  | none =>
    refine .bind_of (a := k₁.kmallocs.headD true) rfl ?_
    split
    swap
    · exact Code.Wp.pure trivial
    refine volume_fails.bind fun _ k₂ _ => volume_fails.bind fun r k₃ _ => ?_
    obtain ⟨ret, b⟩ := r
    dsimp only
    split
    · exact Code.Wp.pure trivial
    refine Code.Wp.bind_assert (fun _ => ?_) fun _ => trivial
    have hcreate : Code.Wp (sfsCreateInode (diskInode b) ino) k₃ LoadFails fun _ _ => True := by
      refine .bind_of (a := k₃.kmallocs.headD true) rfl ?_
      split
      · cases sfsGetOps (diskInode b).type with
        | none => exact .of_error rfl trivial
        | some ops => exact Code.Wp.bind_get (Code.Wp.bind_modify (Code.Wp.pure trivial))
      · exact Code.Wp.pure trivial
    refine hcreate.bind fun r k₄ _ => ?_
    obtain ⟨ret, p⟩ := r
    dsimp only
    split
    · exact Code.Wp.pure trivial
    · exact Code.Wp.bind_modify (Code.Wp.pure trivial)

theorem sfsGetRoot_fails (h : Coherent k) : Code.Wp sfsGetRoot k LoadFails fun _ _ => True := by
  refine (sfsLoadInode_fails h).bind fun ⟨ret, p⟩ k₁ _ => ?_
  dsimp only
  split
  · exact .of_error rfl trivial
  · exact Code.Wp.pure trivial

theorem more_nonneg (hc : ∀ q, 0 ≤ c q) (x : ℕ) : 0 ≤ more c p 1 x := by
  have := hc x
  unfold more
  split <;> omega

theorem inodeRefDec_returns (hc : ∀ q, 0 ≤ c q) (ha : Acc (more c p 1) d k)
    (hp : k.pwd cur = some p) :
    Code.Wp (inodeRefDec p) k LoadFails fun _ _ => True := by
  have hrefs := ha.refs p
  have hopen := ha.openOf_nonneg p
  have hpos : 1 ≤ k.pwds p := by
    obtain ⟨t, ht, hp⟩ := Option.bind_eq_some_iff.mp hp
    exact pwds_pos ha.coherent ht hp
  have := hc p
  rw [more_self] at hrefs
  obtain ⟨n, hn, -⟩ := Acc.alive (p := p) ha (by rw [more_self]; omega)
  rw [refOf_eq hn] at hrefs
  refine .bind_of (deref_eq hn) (.bind_of (Code.assert_true (by omega)) (Code.Wp.bind_modify ?_))
  rw [if_neg (by omega)]
  exact Code.Wp.pure trivial

theorem getDevice_fails (hc : ∀ q, 0 ≤ c q) (ha : Acc c d k) {t : Files} (ht : k.files cur = some t)
    (hdev : ∀ dev, (scanPath path).1 ≠ .device dev)
    (hroot : (scanPath path).1 = .fsRoot → ∀ q n, k.pwd cur = some q → k.inode q = some n →
      ∃ ino, n.info = .sfs ino) :
    Code.Wp (getDevice cur path) k LoadFails fun _ _ => True := by
  obtain ⟨⟨ret, q⟩, k₁, hcwd⟩ := vfsGetCurdir_returns hc ha ht
  have hq := vfsGetCurdir_handed.ok hcwd
  obtain ⟨hr₁, ha₁⟩ := (vfsGetCurdir_wp hc ha).ok hcwd
  unfold getDevice
  cases hscan : scanPath path with
  | mk base sub =>
    rw [hscan] at hdev hroot
    cases base with
    | cwd => exact .bind_of hcwd (Code.Wp.pure trivial)
    | device dev => exact absurd rfl (hdev dev)
    | bootfs =>
      refine Code.Wp.bind (Q := fun _ _ => True) (Code.Wp.bind_get ?_) fun _ _ _ =>
        Code.Wp.pure trivial
      cases hb : k.bootfs with
      | none => exact Code.Wp.pure trivial
      | some p =>
        obtain ⟨n, hn, -⟩ := root_alive hc ha (.inl hb)
        exact .bind_of (Code.bind_ok (deref_eq hn)) (Code.Wp.pure trivial)
    | fsRoot =>
      refine .bind_of hcwd ?_
      dsimp only
      split
      · exact Code.Wp.pure trivial
      rename_i hret
      obtain rfl : ret = 0 := not_not.mp hret
      have hpwd := handed_eq_zero.mp hq.symm
      rw [if_pos rfl] at ha₁
      obtain ⟨n, hn, -⟩ := Acc.alive_of_backed ha₁ (ha.backed hr₁)
      obtain ⟨m, hm, -⟩ := pwd_alive hc ha hpwd
      obtain ⟨m', hm', he⟩ := ((vfsGetCurdir_extends k (.refl k)).ok hcwd).2.inode q n
        (ha.coherent.inode_lt hm) hn
      obtain ⟨j, hj⟩ := hroot rfl q m' hpwd hm'
      refine .bind_of (deref_eq hn) ?_
      rw [← he, hj]
      refine ((sfsGetRoot_wp ha₁).panics (sfsGetRoot_fails ha₁.coherent)).bind fun r k₂
        ⟨hr₂, ha₂⟩ => ?_
      have hpwd₂ : k₂.pwd cur = some q := by rw [hr₂.pwd, hr₁.pwd, hpwd]
      rw [more_comm] at ha₂
      exact (inodeRefDec_returns (more_nonneg hc) ha₂ hpwd₂).bind fun _ _ _ => Code.Wp.pure trivial

end Panics

section Twice

/-- `vfs_lookup` of the path searches the inode at `p` for `name`, and the search finds nothing. The
search starts in `k₁`, and `k'` is the kernel after the call. -/
structure Misses (cur : ℕ) (path : Str) (k : Kernel) (p : ℕ) (name : Str)
    (k₁ k' : Kernel) : Prop where
  start : getDevice cur path k = .ok ((0, p, name), k₁)
  nonempty : name ≠ []
  search : ∃ q k₂, vopLookup p name k₁ = .ok ((-eNoent, q), k₂) ∧ inodeRefDec p k₂ = .ok ((), k')

theorem Misses.lookup (h : Misses cur path k p name k₁ k') :
    ∃ q, vfsLookup cur path k = .ok ((-eNoent, q), k') := by
  obtain ⟨q, k₂, hsearch, hdec⟩ := h.search
  refine ⟨q, Eq.trans (Code.bind_ok h.start) ?_⟩
  dsimp only
  rw [if_neg (by simp), if_pos h.nonempty]
  exact Eq.trans (Code.bind_ok hsearch) (Code.bind_ok hdec)

/-- The addresses are of one inode of the volume or of one device, which may have been loaded again
in between. -/
def SameInode (k : Kernel) (p : ℕ) (k' : Kernel) (q : ℕ) : Prop :=
  ∃ n n', k.inode p = some n ∧ k'.inode q = some n' ∧ n.info = n'.info

/-- `vfs_lookup_parent` with the buffer that `vfs_lookup` left starts from the same inode with the
same name, unless the root is to be loaded again and `sfs_get_root` panics. -/
def Restarts (cur : ℕ) (path : Str) (p : ℕ) (name : Str) (k₁ k' : Kernel) : Prop :=
  Code.Wp (getDevice cur (cutPath path)) k' LoadFails fun r k₂ =>
    vfsLookupParent cur (cutPath path) k' = .ok ((r.1, r.2.1), k₂) ∧
    r.1 = 0 ∧ SameInode k₁ p k₂ r.2.1 ∧ r.2.2 = name

/-- The path has no name of a device, or it repeats this name as the name in the device, whose root
is the current directory. -/
def Restartable (cur : ℕ) (path : Str) (k : Kernel) : Prop :=
  ∀ dev, (scanPath path).1 = .device dev → dev = (scanPath path).2 ∧
    ∃ q n, k.pwd cur = some q ∧ k.inode q = some n ∧ k.rootInfo dev = some n.info

theorem getDevice_parent {E : Panic → Prop} {Q : ℤ × ℕ × Str → Kernel → Prop}
    (h : Code.Wp (getDevice cur path) k E Q) : Code.Wp (getDevice cur path) k E
      fun r k' => vfsLookupParent cur path k = .ok ((r.1, r.2.1), k') ∧ Q r k' :=
  h.self.mono (fun _ he => he) fun _ _ ⟨hrun, hq⟩ => ⟨Code.bind_ok hrun, hq⟩

theorem Extends.same {n n' : Inode} (h : Extends k k₁) (h' : Extends k k') (hlt : p < k.brk)
    (hn : k₁.inode p = some n) (hn' : k'.inode p = some n') : SameInode k₁ p k' p := by
  obtain ⟨l, hl, he⟩ := h.inode p n hlt hn
  obtain ⟨l', hl', he'⟩ := h'.inode p n' hlt hn'
  obtain rfl := Option.some.inj (hl.symm.trans hl')
  exact ⟨n, n', hn, hn', he.symm.trans he'⟩

theorem Misses.extends (h : Misses cur path k p name k₁ k') : Extends k k₁ ∧ Extends k k' := by
  obtain ⟨q, k₂, hsearch, hdec⟩ := h.search
  have h₁ := ((getDevice_extends k (.refl k)).ok h.start).2
  exact ⟨h₁, ((inodeRefDec_extends k₂ ((vopLookup_extends k₁ h₁).ok hsearch).2).ok hdec).2⟩

variable (hc : ∀ q, 0 ≤ c q)

include hc

theorem Misses.after (ha : Acc c d k) (h : Misses cur path k p name k₁ k') :
    Rest k k' ∧ Acc c d k' := by
  obtain ⟨q, hlookup⟩ := h.lookup
  obtain ⟨hr, ha'⟩ := (vfsLookup_wp hc ha).ok hlookup
  rw [if_neg (show ¬ -eNoent = 0 by decide)] at ha'
  exact ⟨hr, ha'⟩

theorem Misses.same {path' sub : Str} {k₂ : Kernel} (ha : Acc c d k)
    (h : Misses cur path k p name k₁ k') (hlt : p < k.brk)
    (hrun : getDevice cur path' k' = .ok ((0, p, sub), k₂)) : SameInode k₁ p k₂ p := by
  obtain ⟨h₁, h'⟩ := h.extends
  obtain ⟨-, ha'⟩ := h.after hc ha
  obtain ⟨hr₁, ha₁⟩ := (getDevice_wp hc ha).ok h.start
  obtain ⟨hr₂, ha₂⟩ := (getDevice_wp hc ha').ok hrun
  obtain ⟨n, hn, -⟩ := Acc.alive_of_backed ha₁ (ha.backed hr₁)
  obtain ⟨n', hn', -⟩ := Acc.alive_of_backed ha₂ (ha'.backed hr₂)
  exact h₁.same ((getDevice_extends k' h').ok hrun).2 hlt hn hn'

theorem Misses.restart_fails (ha : Acc c d k) (h : Misses cur path k p name k₁ k') {t : Files}
    (ht : k.files cur = some t) (hdev : ∀ dev, (scanPath path).1 ≠ .device dev) :
    Code.Wp (getDevice cur path) k' LoadFails fun _ _ => True := by
  obtain ⟨hr, ha'⟩ := h.after hc ha
  refine getDevice_fails hc ha' ((congrFun hr.files cur).trans ht) hdev fun hbase q n hq hn => ?_
  rw [hr.pwd] at hq
  have hscan : scanPath path = (.fsRoot, (scanPath path).2) := Prod.ext hbase rfl
  obtain ⟨-, -, -, hsfs⟩ := (getDevice_fsRoot hc ha hscan).ok h.start
  obtain ⟨m, hm, -⟩ := pwd_alive hc ha hq
  obtain ⟨m', hm', he⟩ := h.extends.2.inode q n (ha.coherent.inode_lt hm) hn
  obtain ⟨j, hj⟩ := hsfs q m' hq hm'
  exact ⟨j, he.symm.trans hj⟩

/-- Without the name of a device the second call does what the first one did. -/
theorem Misses.restarts (ha : Acc c d k) (h : Misses cur path k p name k₁ k') {t : Files}
    (ht : k.files cur = some t) (hdev : ∀ dev, (scanPath path).1 ≠ .device dev) :
    Restarts cur path p name k₁ k' := by
  obtain ⟨hr, ha'⟩ := h.after hc ha
  unfold Restarts
  rw [cutPath_other hdev]
  refine getDevice_parent (Code.Wp.panics (E := Allowed) ?_ (h.restart_fails hc ha ht hdev))
  cases hscan : scanPath path with
  | mk base sub =>
    cases base with
    | cwd =>
      obtain ⟨hsub, hp⟩ := (getDevice_cwd hc ha hscan).ok h.start
      have hcwd : k.pwd cur = some p := handed_eq_zero.mp hp.symm
      obtain ⟨n, hn, -⟩ := pwd_alive hc ha hcwd
      refine (getDevice_cwd hc ha' hscan).self.mono (fun _ he => he) ?_
      rintro ⟨ret, q, sub'⟩ k₂ ⟨hrun, hsub', hp'⟩
      rw [hr.pwd, hcwd] at hp'
      cases hp'
      exact ⟨rfl, h.same hc ha (ha.coherent.inode_lt hn) hrun, hsub'.trans hsub.symm⟩
    | bootfs =>
      obtain ⟨hsub, hp⟩ := (getDevice_bootfs hc ha hscan).ok h.start
      have hboot : k.bootfs = some p := handed_eq_zero.mp hp.symm
      obtain ⟨n, hn, -⟩ := root_alive hc ha (.inl hboot)
      refine (getDevice_bootfs hc ha' hscan).self.mono (fun _ he => he) ?_
      rintro ⟨ret, q, sub'⟩ k₂ ⟨hrun, hsub', hp'⟩
      rw [hr.bootfs, hboot] at hp'
      cases hp'
      exact ⟨rfl, h.same hc ha (ha.coherent.inode_lt hn) hrun, hsub'.trans hsub.symm⟩
    | fsRoot =>
      obtain ⟨hsub, hz, hroot, -⟩ := (getDevice_fsRoot hc ha hscan).ok h.start
      refine (getDevice_fsRoot hc ha' hscan).mono (fun _ he => he)
        fun r k₂ ⟨hsub', hz', hroot', _⟩ => ?_
      have h₀ : r.1 = 0 := by
        rw [hz', hr.pwd, ← hz]
      obtain ⟨n, hn, hi⟩ := hroot rfl
      obtain ⟨n', hn', hi'⟩ := hroot' h₀
      exact ⟨h₀, ⟨n, n', hn, hn', hi.trans hi'.symm⟩, hsub'.trans hsub.symm⟩
    | device dev => exact absurd (by rw [hscan]) (hdev dev)

/-- After the name of a device the second call starts from the current directory and yields the name
of the device. -/
theorem Misses.restarts_device (ha : Acc c d k) (h : Misses cur path k p name k₁ k') {dev : Str}
    {t : Files} (ht : k.files cur = some t) (hdev : (scanPath path).1 = .device dev) :
    Restarts cur path p name k₁ k' ↔ dev = (scanPath path).2 ∧
      ∃ q n, k.pwd cur = some q ∧ k.inode q = some n ∧ k.rootInfo dev = some n.info := by
  obtain ⟨hr, ha'⟩ := h.after hc ha
  have hscan : scanPath path = (.device dev, (scanPath path).2) := Prod.ext hdev rfl
  obtain ⟨hname, hroot⟩ := (getDevice_device hc ha hscan).ok h.start
  obtain ⟨n₁, hn₁, hinfo⟩ := hroot rfl
  obtain ⟨⟨ret, q⟩, k₂, hcurdir⟩ := vfsGetCurdir_returns hc ha' ((congrFun hr.files cur).trans ht)
  have hq := vfsGetCurdir_handed.ok hcurdir
  rw [hr.pwd] at hq
  have hrun : getDevice cur dev k' = .ok ((ret, q, dev), k₂) := by
    unfold getDevice
    rw [scanPath_device hscan]
    exact Code.bind_ok hcurdir
  have hext := ((getDevice_extends k' h.extends.2).ok hrun).2
  have hparent : vfsLookupParent cur dev k' = .ok ((ret, q), k₂) := Code.bind_ok hrun
  have heq : Restarts cur path p name k₁ k' ↔ ret = 0 ∧ SameInode k₁ p k₂ q ∧ dev = name := by
    unfold Restarts Code.Wp
    rw [cutPath_device hscan, hrun]
    exact and_iff_right hparent
  rw [heq, ← show name = (scanPath path).2 from hname]
  constructor
  · rintro ⟨rfl, ⟨n, n', hn, hn', hi⟩, rfl⟩
    have hcwd := handed_eq_zero.mp hq.symm
    obtain ⟨m, hm, -⟩ := pwd_alive hc ha hcwd
    obtain ⟨m', hm', he⟩ := hext.inode q n' (ha.coherent.inode_lt hm) hn'
    obtain rfl := Option.some.inj (hn.symm.trans hn₁)
    exact ⟨rfl, q, m', hcwd, hm', by rw [hinfo, hi, he]⟩
  · rintro ⟨rfl, q', m, hcwd, hm, hi⟩
    rw [hcwd] at hq
    cases hq
    obtain ⟨hr₂, ha₂⟩ := (getDevice_wp hc ha').ok hrun
    obtain ⟨n', hn', -⟩ := Acc.alive_of_backed ha₂ (ha'.backed hr₂)
    obtain ⟨m', hm', he⟩ := hext.inode q n' (ha.coherent.inode_lt hm) hn'
    obtain rfl := Option.some.inj (hm.symm.trans hm')
    exact ⟨rfl, ⟨n₁, n', hn₁, hn', (Option.some.inj (hinfo.symm.trans hi)).trans he⟩, rfl⟩

end Twice

section Run

variable {fs : Fs} {kmallocs : List Bool} {stdin : List UInt8} {l : List Act} {s : System} {i : ℕ}

theorem restarts_iff (hinv : Inv s) (hi : i ∈ s.live)
    (h : Misses (s.proc i).files path s.kernel p name k₁ k') :
    Restarts (s.proc i).files path p name k₁ k' ↔ Restartable (s.proc i).files path s.kernel := by
  obtain ⟨⟨leak, hleak, hbooks⟩, -⟩ := hinv
  have hc : ∀ q, 0 ≤ leak q + s.refs q := by
    intro q
    have := hleak q
    omega
  obtain ⟨t, ht, -⟩ := Option.map_eq_some_iff.mp
    ((hbooks.tables.links (s.proc i).files).trans (links_of_live hi))
  unfold Restartable
  by_cases hdev : ∃ dev, (scanPath path).1 = .device dev
  · obtain ⟨dev, hdev⟩ := hdev
    rw [h.restarts_device hc hbooks.acc ht hdev, hdev]
    constructor
    · intro hx dev' he
      obtain rfl := Base.device.inj he
      exact hx
    · exact fun hx => hx dev rfl
  · have hno : ∀ dev, (scanPath path).1 ≠ .device dev := fun dev he => hdev ⟨dev, he⟩
    exact iff_of_true (h.restarts hc hbooks.acc ht hno) fun dev he => absurd he (hno dev)

/-- After every run, when a process looks up a path and the search finds nothing,
`vfs_lookup_parent` starts over at the same inode with the same name if and only if the path names
no device, or it repeats the name of the device whose root is the current directory. -/
theorem lookup_restarts (hrun : Run (boot fs kmallocs stdin) l s) (hi : i ∈ s.live)
    (h : Misses (s.proc i).files path s.kernel p name k₁ k') :
    Restarts (s.proc i).files path p name k₁ k' ↔ Restartable (s.proc i).files path s.kernel :=
  restarts_iff (hrun.inv boot_inv) hi h

/-- The steps of `vfs_lookup` when there is a name to search for: the start and the error of the
search. -/
def search (cur : ℕ) (path : Str) : Prog ((ℤ × ℕ × Str) × ℤ) := do
  let r ← getDevice cur path
  let (ret, _) ← vopLookup r.2.1 r.2.2
  inodeRefDec r.2.1
  return (r, ret)

theorem exists_misses (hn : name ≠ [])
    (h : (search cur path k).toOption.map (fun r => decide (r.1 = ((0, p, name), -eNoent))) =
      some true) :
    ∃ k₁ k', Misses cur path k p name k₁ k' := by
  obtain ⟨a, k', hrun, rfl⟩ := Code.exists_of_decide h
  obtain ⟨r, k₁, hstart, hrun⟩ := Code.bind_eq_ok hrun
  obtain ⟨⟨ret, q⟩, k₂, hsearch, hrun⟩ := Code.bind_eq_ok hrun
  obtain ⟨x, k₃, hdec, hrun⟩ := Code.bind_eq_ok hrun
  cases hrun
  exact ⟨k₁, k', hstart, hn, q, k₂, hsearch, hdec⟩

/-- `init` opens `stdout` and looks up a file that is not in its directory. -/
theorem lookup_restarts_missing : ∃ s k₁ k',
    exec [.call 1 (.openFile (stdoutName ++ [colon]) 1)] (boot (image 9 0 []) [] []) = some s ∧
    Misses (s.proc 1).files [103] s.kernel 2 [103] k₁ k' ∧
    (Restarts (s.proc 1).files [103] 2 [103] k₁ k' ↔
    Restartable (s.proc 1).files [103] s.kernel) := by
  have hrun : (exec [.call 1 (.openFile (stdoutName ++ [colon]) 1)] (boot (image 9 0 []) [] [])).map
      (fun s => decide (1 ∈ s.live ∧ (search (s.proc 1).files [103] s.kernel).toOption.map
        (fun r => decide (r.1 = ((0, 2, [103]), -eNoent))) = some true)) = some true := by
    decide +kernel
  obtain ⟨s, hs, hx⟩ := Option.map_eq_some_iff.mp hrun
  obtain ⟨hlive, hmiss⟩ := of_decide_eq_true hx
  obtain ⟨k₁, k', hmiss⟩ := exists_misses (by decide) hmiss
  exact ⟨s, k₁, k', hs, hmiss, lookup_restarts (run_of_exec hs) hlive hmiss⟩

/-- `init` looks up a file that is not on `disk0`: the second call yields the name of the device. -/
theorem lookup_restarts_not : ∃ k₁ k',
    Misses 1 (disk0Name ++ [colon, 103]) (boot (image 9 0 []) [] []).kernel 2 [103] k₁ k' ∧
    ¬ Restarts 1 (disk0Name ++ [colon, 103]) 2 [103] k₁ k' := by
  have hrun :
    ∃ k₁ k', Misses 1 (disk0Name ++ [colon, 103]) (boot (image 9 0 []) [] []).kernel 2 [103]
      k₁ k' := exists_misses (by decide) (by decide +kernel)
  obtain ⟨k₁, k', hmiss⟩ := hrun
  refine ⟨k₁, k', hmiss, fun h => ?_⟩
  obtain ⟨hname, -⟩ := (restarts_iff (i := 1) boot_inv (by decide) hmiss).mp h disk0Name rfl
  exact absurd hname (by decide)

end Run

end UCore.Vfs

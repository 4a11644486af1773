import UCore.Sfs.Steady
import UCore.Vfs.Boot

/-! # Inodes without holders

On a device that works the last holder of an inode takes it out of memory, so that every inode in
memory has a holder.
-/

namespace UCore.Vfs

open Library Sfs

/-- The inodes in `S` have a holder, and the device works. -/
def LiveOn (S : ℕ → Prop) (k : Kernel) : Prop :=
  k.fs.Reliable ∧ ∀ p n, S p → k.inode p = some n → 0 < n.refCount ∧ n.reclaimCount = 1

abbrev Live : Kernel → Prop := LiveOn Any

/-- The program leaves every inode in memory with a holder. -/
abbrev Lives {α : Type} (P : α → Prop) (m : Prog α) : Prop := Code.Preserves Live P m

section Basic

variable {α : Type} {S : ℕ → Prop} {P : α → Prop} {p ino len : ℕ} {n : Inode} {op : Vop}

theorem volume_live {m : Sfs.Prog α} (h : Steady P m) : Code.Preserves (LiveOn S) P (volume m) := by
  intro k hk
  have := h k.fs hk.1
  unfold Code.Wp volume at *
  cases hm : m k.fs with
  | ok r =>
    rw [hm] at this
    exact ⟨this.1, this.2, hk.2⟩
  | error e => trivial

theorem kmalloc_live : Code.Preserves (LiveOn S) Any kmalloc := fun _ hk => ⟨trivial, hk⟩

theorem deref_live : Lives (fun n => 0 < n.refCount ∧ n.reclaimCount = 1) (deref p) := by
  intro k hk
  unfold Code.Wp deref
  cases hn : k.inode p with
  | none => trivial
  | some n => exact ⟨hk.2 p n trivial hn, hk⟩

theorem deref_liveOn : Code.Preserves (LiveOn S) Any (deref p) := by
  intro k hk
  unfold Code.Wp deref
  cases hn : k.inode p with
  | none => trivial
  | some n => exact ⟨trivial, hk⟩

theorem setInode_live (h : 0 < n.refCount ∧ n.reclaimCount = 1) :
    Lives Any (setInode p (some n)) := by
  refine .modify fun k hk => ⟨hk.1, fun q m _ hm => ?_⟩
  by_cases hq : q = p
  · subst hq
    obtain rfl := Option.some.inj (setInode_inode.symm.trans hm)
    exact h
  · exact hk.2 q m trivial ((setInode_inode_ne hq).symm.trans hm)

theorem vopOp_live : Code.Preserves (LiveOn S) Any (vopOp p op) :=
  .bind deref_liveOn fun _ _ => .bind .assert fun _ _ =>
    .bind (P := Any) (.bind .assert fun _ _ => .assert) fun _ _ => .pure trivial

theorem vopOp_same {k : Kernel} (hn : k.inode p = some n) :
    Code.Wp (vopOp p op) k (fun _ => True) fun m k' => n = m ∧ k = k' := by
  refine .bind_of (deref_eq hn) ?_
  refine Code.Wp.bind_assert (fun _ => ?_) fun _ => trivial
  refine Code.Wp.bind (Q := fun _ k' => k = k') ?_ fun _ _ h => Code.Wp.pure ⟨rfl, h⟩
  refine Code.Wp.bind_assert (fun _ => ?_) fun _ => trivial
  exact Code.Wp.assert (fun _ => rfl) fun _ => trivial

theorem vopFsync_live : Code.Preserves (LiveOn S) (fun ret => ret = 0) (vopFsync p) := by
  refine .bind vopOp_live fun n _ => ?_
  cases n.info with
  | sfs ino => exact volume_live sfsFsync_steady
  | dev d => exact .panic

theorem vopTruncate_live : Code.Preserves (LiveOn S) (fun ret => ret = 0) (vopTruncate p 0) := by
  refine .bind vopOp_live fun n _ => ?_
  cases n.info with
  | sfs ino => exact (volume_live sfsTruncfile_steady).mono fun _ h => h rfl
  | dev d => exact .panic

theorem inodeRefInc_live : Lives (fun c => c ≠ 1) (inodeRefInc p) := by
  refine .bind deref_live fun n hn => .bind (setInode_live ⟨?_, hn.2⟩) fun _ _ => .pure ?_
  · have := hn.1
    dsimp only
    omega
  · have := hn.1
    omega

theorem inodeOpenInc_live : Lives Any (inodeOpenInc p) :=
  .bind deref_live fun _ hn => setInode_live hn

theorem vopClose_live : Lives Any (vopClose p) := by
  refine .bind vopOp_live fun n _ => ?_
  cases n.info with
  | sfs ino => exact vopFsync_live.mono fun _ _ => trivial
  | dev d => exact .pure trivial

theorem inodeOpenDec_live : Lives Any (inodeOpenDec p) := by
  refine .bind deref_live fun n hn => .bind .assert fun _ _ =>
    .bind (setInode_live hn) fun _ _ => ?_
  exact .ite (fun _ => .bind vopClose_live fun _ _ => .pure trivial) fun _ => .pure trivial

theorem reclaimSync_live : Code.Preserves (LiveOn S) (fun ret => ret = 0) (reclaimSync p ino) := by
  refine .get_bind fun k _ => .bind (P := fun ret => ret = 0) ?_ fun ret hret => ?_
  · exact .ite (fun _ => vopTruncate_live) fun _ => .pure rfl
  · refine .ite (fun h => absurd hret h) fun _ => .get_bind fun k _ => ?_
    exact .ite (fun _ => vopFsync_live) fun _ => .pure rfl

theorem reclaimBlocks_steady : Steady Any (reclaimBlocks ino) := by
  refine .get_bind fun _ _ => .ite (fun _ => ?_) fun _ => .pure trivial
  refine .bind sfsBlockFree_steady fun _ _ => ?_
  exact .ite (fun _ => sfsBlockFree_steady) fun _ => .pure trivial

theorem reclaimFree_live {k : Kernel} (hk : LiveOn (fun q => q ≠ p) k) :
    Code.Wp (reclaimFree p ino) k (fun _ => True) fun _ k' => Live k' := by
  refine Code.Wp.bind_modify ?_
  have hblocks :=
    volume_live (S := fun q => q ≠ p) (reclaimBlocks_steady : Steady Any (reclaimBlocks ino))
  refine Code.Wp.bind (hblocks _ ?_) fun _ k₁ h₁ => ?_
  · exact ⟨hk.1, hk.2⟩
  refine Code.Wp.bind_modify ?_
  refine (deref_liveOn (S := fun q => q ≠ p) (k₁.setFs (Fs.forget k₁.fs ino)) h₁.2).bind
    fun n k₂ h₂ => ?_
  refine Code.Wp.bind_assert (fun _ => ?_) fun _ => trivial
  refine ⟨h₂.2.1, fun q m _ hm => ?_⟩
  change Function.update k₂.inode p none q = some m at hm
  by_cases hq : q = p
  · subst hq
    rw [Function.update_self] at hm
    cases hm
  · rw [Function.update_of_ne hq] at hm
    exact h₂.2.2 q m hq hm

/-- The last holder takes the inode out of memory. -/
theorem inodeRefDec_live : Lives Any (inodeRefDec p) := by
  intro k hk
  unfold inodeRefDec
  cases hn : k.inode p with
  | none => exact .of_error (Code.bind_error (by unfold deref; rw [hn])) trivial
  | some n =>
    obtain ⟨hpos, hone⟩ := hk.2 p n trivial hn
    refine .bind_of (deref_eq hn) ?_
    refine Code.Wp.bind_assert (fun _ => ?_) fun _ => trivial
    refine Code.Wp.bind_modify ?_
    by_cases hlast : n.refCount - 1 = 0
    swap
    · rw [if_neg hlast]
      refine Code.Wp.pure ⟨trivial, ?_⟩
      exact (setInode_live (p := p) (n := { n with refCount := n.refCount - 1 })
        ⟨by dsimp only; omega, hone⟩ k hk).2
    rw [if_pos hlast]
    refine Code.Wp.bind (Q := fun _ k' => Live k') ?_ fun _ _ h => Code.Wp.pure ⟨trivial, h⟩
    have hother : ∀ {x : Inode}, LiveOn (fun q => q ≠ p) (k.setInode p (some x)) := by
      refine fun {x} => ⟨hk.1, fun q m hq hm => ?_⟩
      exact hk.2 q m trivial ((setInode_inode_ne hq).symm.trans hm)
    refine (vopOp_same setInode_inode).bind ?_
    rintro _ _ ⟨rfl, rfl⟩
    cases hi : n.info with
    | dev d => exact .of_error rfl trivial
    | sfs ino =>
      refine .bind_of (deref_eq setInode_inode) ?_
      refine Code.Wp.bind_assert (fun _ => ?_) fun _ => trivial
      refine Code.Wp.bind_modify ?_
      rw [setInode_setInode, if_neg (by dsimp only; omega)]
      refine (reclaimSync_live _ hother).bind fun ret k₁ h₁ => ?_
      rw [if_neg (not_not.mpr h₁.1)]
      exact (reclaimFree_live h₁.2).bind fun _ _ h => Code.Wp.pure h

end Basic

section Load

variable {ino p sin slot n i j resid len cur : ℕ} {name path : Str} {names : List Str} {offset : ℤ}
  {buf : Buf} {write : Bool} {din : DiskInode}

theorem lookupSfsNolock_live : Lives Any (lookupSfsNolock ino) := by
  refine .get_bind fun k _ => ?_
  cases k.hash ino with
  | none => exact .pure trivial
  | some p =>
    exact .bind inodeRefInc_live fun c hc => .ite (fun h => absurd h hc) fun _ => .pure trivial

theorem sfsCreateInode_live : Lives Any (sfsCreateInode din ino) := by
  refine .bind kmalloc_live fun _ _ => .ite (fun _ => ?_) fun _ => .pure trivial
  cases sfsGetOps din.type with
  | none => exact .panic
  | some ops =>
    refine .get_bind fun k hk => ?_
    intro k' hk'
    refine Code.Wp.bind_modify (Code.Wp.pure ⟨trivial, hk'.1, fun q m _ hm => ?_⟩)
    change Function.update k'.inode k.brk _ q = some m at hm
    by_cases hq : q = k.brk
    · subst hq
      rw [Function.update_self] at hm
      obtain rfl := Option.some.inj hm
      exact ⟨Int.one_pos, rfl⟩
    · rw [Function.update_of_ne hq] at hm
      exact hk'.2 q m trivial hm

theorem sfsLoadInode_live : Lives Any (sfsLoadInode ino) := by
  refine .bind lookupSfsNolock_live fun o _ => ?_
  cases o with
  | some p => exact .pure trivial
  | none =>
    refine .bind kmalloc_live fun _ _ => .ite (fun _ => ?_) fun _ => .pure trivial
    refine .bind (volume_live assertInuse_steady) fun _ _ => ?_
    refine .bind (volume_live sfsRbuf_steady) fun _ _ => .ite (fun _ => .pure trivial) fun _ => ?_
    refine .bind .assert fun _ _ => .bind sfsCreateInode_live fun _ _ => ?_
    refine .ite (fun _ => .pure trivial) fun _ => ?_
    exact .bind (.modify fun _ h => ⟨h.1, h.2⟩) fun _ _ => .pure trivial

theorem sfsGetRoot_live : Lives Any sfsGetRoot :=
  .bind sfsLoadInode_live fun _ _ => .ite (fun _ => .panic) fun _ => .pure trivial

theorem sfsDirentReadNolock_live : Lives Any (sfsDirentReadNolock sin slot) := by
  refine .bind .assert fun _ _ => .bind (volume_live sfsBmapLoadNolock_steady) fun _ _ => ?_
  refine .ite (fun _ => .pure trivial) fun _ => .bind (volume_live assertInuse_steady) fun _ _ => ?_
  exact .bind (volume_live sfsRbuf_steady) fun _ _ => .pure trivial

theorem searchLoop_live : Lives Any (searchLoop sin name n i) := by
  induction n generalizing i with
  | zero => exact .pure trivial
  | succ n ih =>
    refine .bind sfsDirentReadNolock_live fun _ _ => .ite (fun _ => .pure trivial) fun _ => ?_
    exact .ite (fun _ => .pure trivial) fun _ => ih

theorem findinoLoop_live : Lives Any (findinoLoop sin ino n i) := by
  induction n generalizing i with
  | zero => exact .pure trivial
  | succ n ih =>
    refine .bind sfsDirentReadNolock_live fun _ _ => .ite (fun _ => .pure trivial) fun _ => ?_
    exact .ite (fun _ => .pure trivial) fun _ => ih

theorem getdirentryLoop_live : Lives Any (getdirentryLoop sin n i j) := by
  induction n generalizing i j with
  | zero => exact .pure trivial
  | succ n ih =>
    refine .bind sfsDirentReadNolock_live fun _ _ => .ite (fun _ => .pure trivial) fun _ => ?_
    exact .ite (fun _ => ih) fun _ => .ite (fun _ => .pure trivial) fun _ => ih

theorem sfsLookupOnce_live : Lives Any (sfsLookupOnce sin name) := by
  refine .bind (P := Any) ?_ fun _ _ => .ite (fun _ => .pure trivial) fun _ => sfsLoadInode_live
  refine .bind .assert fun _ _ => .bind kmalloc_live fun _ _ => ?_
  exact .ite (fun _ => .get_bind fun _ _ => searchLoop_live) fun _ => .pure trivial

theorem sfsGetdirentry_live : Lives Any (sfsGetdirentry sin offset) := by
  refine .bind kmalloc_live fun _ _ => .ite (fun _ => ?_) fun _ => .pure trivial
  refine .ite (fun _ => .pure trivial) fun _ => .get_bind fun _ _ =>
    .ite (fun _ => .pure trivial) fun _ => ?_
  refine .get_bind fun _ _ => .bind getdirentryLoop_live fun _ _ => ?_
  exact .ite (fun _ => .pure trivial) fun _ => .pure trivial

theorem sfsInfo_live : Lives Any (sfsInfo p) := by
  refine .bind deref_live fun n _ => ?_
  cases n.info with
  | sfs ino => exact .pure trivial
  | dev d => exact .panic

theorem namefileLoop_live : Lives Any (namefileLoop n p resid names) := by
  induction n generalizing p resid names with
  | zero => exact .bind inodeRefDec_live fun _ _ => .pure trivial
  | succ n ih =>
    refine .bind sfsInfo_live fun _ _ => .bind sfsLookupOnce_live fun _ _ =>
      .ite (fun _ => ?_) fun _ => ?_
    · exact .bind inodeRefDec_live fun _ _ => .pure trivial
    refine .bind inodeRefDec_live fun _ _ => .ite (fun _ => ?_) fun _ => ?_
    · exact .bind inodeRefDec_live fun _ _ => .pure trivial
    refine .bind sfsInfo_live fun _ _ => .bind .assert fun _ _ => ?_
    refine .bind (P := Any) (.get_bind fun _ _ => findinoLoop_live) fun _ _ =>
      .ite (fun _ => ?_) fun _ => ?_
    · exact .bind inodeRefDec_live fun _ _ => .pure trivial
    refine .ite (fun _ => ?_) fun _ => ih
    exact .bind inodeRefDec_live fun _ _ => .pure trivial

theorem sfsNamefile_live : Lives Any (sfsNamefile p resid) := by
  refine .ite (fun _ => .pure trivial) fun _ => .bind kmalloc_live fun _ _ => ?_
  refine .ite (fun _ => ?_) fun _ => .pure trivial
  refine .bind inodeRefInc_live fun _ _ => .bind namefileLoop_live fun _ _ => ?_
  exact .ite (fun _ => .pure trivial) fun _ => .pure trivial

theorem sfsLookup_live : Lives Any (sfsLookup p ino path) := by
  refine .bind .assert fun _ _ => .bind inodeRefInc_live fun _ _ => .get_bind fun _ _ => ?_
  refine .ite (fun _ => .bind inodeRefDec_live fun _ _ => .pure trivial) fun _ => ?_
  refine .bind sfsLookupOnce_live fun _ _ => .bind inodeRefDec_live fun _ _ => ?_
  exact .ite (fun _ => .pure trivial) fun _ => .pure trivial

end Load

section Vop

variable {p len flags resid : ℕ} {offset : ℤ} {buf : Buf} {write : Bool} {path : Str}

theorem vopGettype_live : Lives Any (vopGettype p) := by
  refine .bind vopOp_live fun n _ => ?_
  cases n.info with
  | dev d => exact .pure trivial
  | sfs ino =>
    refine .get_bind fun _ _ => .ite (fun _ => .pure trivial) fun _ => ?_
    exact .ite (fun _ => .pure trivial) fun _ => .ite (fun _ => .pure trivial) fun _ => .panic

theorem vopFstat_live : Lives Any (vopFstat p) := by
  refine .bind vopOp_live fun n _ => .bind vopGettype_live fun _ _ =>
    .ite (fun _ => .pure trivial) fun _ => ?_
  cases n.info with
  | dev d => exact .pure trivial
  | sfs ino => exact .get_bind fun _ _ => .pure trivial

theorem vopOpen_live : Lives Any (vopOpen p flags) := by
  refine .bind vopOp_live fun n _ => ?_
  split
  · exact .pure trivial
  · exact .pure trivial
  · exact .pure trivial
  · exact .panic

theorem sfsIo_live {ino : ℕ} : Lives Any (sfsIo ino buf len offset write) :=
  .bind (volume_live sfsIoNolock_steady) fun _ _ => .bind .assert fun _ _ => .pure trivial

theorem vopRead_live : Lives Any (vopRead p buf len offset) := by
  refine .bind vopOp_live fun n _ => ?_
  split
  · exact sfsIo_live
  · exact fun _ hk => ⟨trivial, hk⟩
  · exact .pure trivial

theorem vopWrite_live : Lives Any (vopWrite p buf len offset) := by
  refine .bind vopOp_live fun n _ => ?_
  split
  · exact .bind sfsIo_live fun _ _ => .pure trivial
  · exact .pure trivial
  · exact .pure trivial

theorem vopTryseek_live : Lives Any (vopTryseek p offset) := by
  refine .bind vopOp_live fun n _ => ?_
  cases n.info with
  | sfs ino => exact volume_live sfsTryseek_steady
  | dev d => exact .pure trivial

theorem vopGetdirentry_live : Lives Any (vopGetdirentry p offset) := by
  refine .bind vopOp_live fun n _ => ?_
  cases n.info with
  | sfs ino => exact sfsGetdirentry_live
  | dev d => exact .panic

theorem vopNamefile_live : Lives Any (vopNamefile p resid) := by
  refine .bind vopOp_live fun n _ => ?_
  cases n.info with
  | sfs ino => exact sfsNamefile_live
  | dev d => exact .panic

theorem vopLookup_live : Lives Any (vopLookup p path) := by
  refine .bind vopOp_live fun n _ => ?_
  cases n.info with
  | sfs ino => exact sfsLookup_live
  | dev d =>
    exact .ite (fun _ => .pure trivial) fun _ => .bind inodeRefInc_live fun _ _ => .pure trivial

end Vop

section Path

variable {cur p flags len : ℕ} {path name : Str}

theorem filesAt_live {f : ℕ} : Lives Any (filesAt f) := by
  intro k hk
  unfold Code.Wp filesAt
  cases k.files f with
  | none => trivial
  | some t => exact ⟨trivial, hk⟩

theorem setFiles_live {f : ℕ} {o : Option Files} : Lives Any (setFiles f o) := .modify fun _ h => h

theorem vfsGetCurdir_live : Lives Any (vfsGetCurdir cur) := by
  refine .bind filesAt_live fun t _ => ?_
  cases t.pwd with
  | some p => exact .bind inodeRefInc_live fun _ _ => .pure trivial
  | none => exact .pure trivial

theorem vfsGetBootfs_live : Lives Any vfsGetBootfs := by
  refine .get_bind fun k _ => ?_
  cases k.bootfs with
  | some p => exact .bind inodeRefInc_live fun _ _ => .pure trivial
  | none => exact .pure trivial

theorem vfsGetRoot_live : Lives Any (vfsGetRoot name) := by
  refine .ite (fun _ => .bind sfsGetRoot_live fun _ _ => .pure trivial) fun _ => ?_
  refine .ite (fun _ => .get_bind fun _ _ => ?_) fun _ => .pure trivial
  exact .bind inodeRefInc_live fun _ _ => .pure trivial

theorem getDevice_live : Lives Any (getDevice cur path) := by
  unfold getDevice
  split
  · exact .bind vfsGetCurdir_live fun _ _ => .pure trivial
  · exact .bind vfsGetRoot_live fun _ _ => .pure trivial
  · exact .bind vfsGetBootfs_live fun _ _ => .pure trivial
  · refine .bind vfsGetCurdir_live fun _ _ => .ite (fun _ => .pure trivial) fun _ => ?_
    refine .bind deref_live fun n _ => ?_
    cases n.info with
    | dev d => exact .panic
    | sfs ino =>
      exact .bind sfsGetRoot_live fun _ _ => .bind inodeRefDec_live fun _ _ => .pure trivial

theorem vfsLookup_live : Lives Any (vfsLookup cur path) := by
  refine .bind getDevice_live fun _ _ => .ite (fun _ => .pure trivial) fun _ => ?_
  refine .ite (fun _ => ?_) fun _ => .pure trivial
  exact .bind vopLookup_live fun _ _ => .bind inodeRefDec_live fun _ _ => .pure trivial

theorem vfsOpenNode_live : Lives Any (vfsOpenNode p flags) := by
  refine .bind vopOpen_live fun _ _ => .ite (fun _ => ?_) fun _ => ?_
  · exact .bind inodeRefDec_live fun _ _ => .pure trivial
  refine .bind inodeOpenInc_live fun _ _ => .bind (P := Any) ?_ fun _ _ =>
    .ite (fun _ => ?_) fun _ => ?_
  · exact .ite (fun _ => vopTruncate_live.mono fun _ _ => trivial) fun _ => .pure trivial
  · exact .bind inodeOpenDec_live fun _ _ => .bind inodeRefDec_live fun _ _ => .pure trivial
  · exact .pure trivial

theorem vfsOpen_live : Lives Any (vfsOpen cur path flags) := by
  refine .ite (fun _ => .pure trivial) fun _ => .ite (fun _ => .pure trivial) fun _ => ?_
  refine .bind vfsLookup_live fun _ _ => .ite (fun _ => .ite (fun _ => ?_) fun _ => ?_) fun _ => ?_
  · refine .bind (P := Any) ?_ fun _ _ => .ite (fun _ => .pure trivial) fun _ => ?_
    · exact .bind getDevice_live fun _ _ => .pure trivial
    · refine .bind (P := Any) (.bind vopOp_live fun _ _ => .panic) fun _ _ => vfsOpenNode_live
  · exact .pure trivial
  · exact .ite (fun _ => .pure trivial) fun _ => vfsOpenNode_live

theorem vfsClose_live : Lives Any (vfsClose p) :=
  .bind inodeOpenDec_live fun _ _ => inodeRefDec_live

theorem vfsSetCurdir_live : Lives Any (vfsSetCurdir cur p) := by
  refine .bind filesAt_live fun t _ => .ite (fun _ => .pure trivial) fun _ => ?_
  refine .bind vopGettype_live fun _ _ => .ite (fun _ => .pure trivial) fun _ => ?_
  refine .ite (fun _ => .pure trivial) fun _ => .bind inodeRefInc_live fun _ _ => ?_
  refine .bind filesAt_live fun _ _ => .bind setFiles_live fun _ _ => ?_
  cases t.pwd with
  | some p => exact .bind inodeRefDec_live fun _ _ => .pure trivial
  | none => exact .pure trivial

theorem vfsChdir_live : Lives Any (vfsChdir cur path) := by
  refine .bind vfsLookup_live fun _ _ => .ite (fun _ => .pure trivial) fun _ => ?_
  exact .bind vfsSetCurdir_live fun _ _ => .bind inodeRefDec_live fun _ _ => .pure trivial

theorem vfsGetcwd_live : Lives Any (vfsGetcwd cur len) := by
  refine .bind vfsGetCurdir_live fun _ _ => .ite (fun _ => .pure trivial) fun _ => ?_
  refine .bind deref_live fun n _ => ?_
  cases n.info with
  | dev d => exact .panic
  | sfs ino =>
    refine .bind (P := Any) ?_ fun _ _ => .bind inodeRefDec_live fun _ _ => .pure trivial
    refine .ite (fun _ => .pure trivial) fun _ => .ite (fun _ => .pure trivial) fun _ => ?_
    exact .bind vopNamefile_live fun _ _ => .pure trivial

end Path

section Table

variable {f fd cur p flags n dst src : ℕ} {file : File} {i offset pos whence : ℤ}
    {buf : Buf} {len : ℕ}
  {path : Str} {α : Type} {m : Prog α}

theorem fileAt_live : Lives Any (fileAt f fd) := .bind filesAt_live fun _ _ => .pure trivial

theorem setFile_live : Lives Any (Vfs.setFile f fd file) :=
    .bind filesAt_live fun _ _ => setFiles_live

theorem nodeOf_live : Lives Any (nodeOf file) := by
  unfold nodeOf
  split
  · exact .pure trivial
  · exact .panic

theorem fdArrayAlloc_live : Lives Any (fdArrayAlloc cur i) := by
  refine .bind filesAt_live fun _ _ => ?_
  split
  · exact .pure trivial
  · exact .bind fileAt_live fun _ _ => .bind .assert fun _ _ => .bind setFile_live fun _ _ =>
      .pure trivial

theorem fdArrayFree_live : Lives Any (fdArrayFree f fd) := by
  refine .bind fileAt_live fun _ _ => .bind .assert fun _ _ => .bind .assert fun _ _ => ?_
  refine .ite (fun _ => ?_) fun _ => setFile_live
  exact .bind nodeOf_live fun _ _ => .bind vfsClose_live fun _ _ => setFile_live

theorem fdArrayAcquire_live : Lives Any (fdArrayAcquire f fd) :=
  .bind fileAt_live fun _ _ => .bind .assert fun _ _ => setFile_live

theorem fdArrayRelease_live : Lives Any (fdArrayRelease f fd) := by
  refine .bind fileAt_live fun _ _ => .bind .assert fun _ _ => .bind .assert fun _ _ => ?_
  exact .bind setFile_live fun _ _ => .ite (fun _ => fdArrayFree_live) fun _ => .pure trivial

theorem fdArrayOpen_live : Lives Any (fdArrayOpen f fd) :=
  .bind fileAt_live fun _ _ => .bind .assert fun _ _ => setFile_live

theorem fdArrayClose_live : Lives Any (fdArrayClose f fd) := by
  refine .bind fileAt_live fun _ _ => .bind .assert fun _ _ => .bind .assert fun _ _ => ?_
  exact .bind setFile_live fun _ _ => .ite (fun _ => fdArrayFree_live) fun _ => .pure trivial

theorem fdArrayDup_live : Lives Any (fdArrayDup f fd file) := by
  refine .bind fileAt_live fun _ _ => .bind .assert fun _ _ => .bind nodeOf_live fun _ _ => ?_
  refine .bind inodeRefInc_live fun _ _ => .bind inodeOpenInc_live fun _ _ => ?_
  exact .bind setFile_live fun _ _ => fdArrayOpen_live

theorem fd2file_live : Lives Any (fd2file cur i) :=
  .bind filesAt_live fun _ _ => .ite (fun _ => .pure trivial) fun _ => .pure trivial

theorem fileInstall_live : Lives Any (fileInstall cur fd p flags pos) :=
  .bind fileAt_live fun _ _ => .bind setFile_live fun _ _ =>
    .bind fdArrayOpen_live fun _ _ => .pure trivial

theorem fileOpen_live : Lives Any (fileOpen cur path flags) := by
  refine .ite (fun _ => .pure trivial) fun _ => .bind fdArrayAlloc_live fun _ _ => ?_
  refine .ite (fun _ => .pure trivial) fun _ => .bind vfsOpen_live fun _ _ =>
    .ite (fun _ => ?_) fun _ => ?_
  · exact .bind fdArrayFree_live fun _ _ => .pure trivial
  refine .ite (fun _ => ?_) fun _ => fileInstall_live
  refine .bind vopFstat_live fun _ _ => .ite (fun _ => ?_) fun _ => fileInstall_live
  exact .bind vfsClose_live fun _ _ => .bind fdArrayFree_live fun _ _ => .pure trivial

theorem fileClose_live : Lives Any (fileClose cur i) :=
  .bind fd2file_live fun _ _ => .ite (fun _ => .pure trivial) fun _ =>
    .bind fdArrayClose_live fun _ _ => .pure trivial

theorem withFile_live (h : Lives Any m) : Lives Any (withFile cur fd m) :=
  .bind fdArrayAcquire_live fun _ _ => .bind h fun _ _ =>
    .bind fdArrayRelease_live fun _ _ => .pure trivial

theorem advance_live : Lives Any (advance cur fd n) :=
  .bind fileAt_live fun _ _ => .ite (fun _ => setFile_live) fun _ => .pure trivial

theorem readBody_live : Lives Any (readBody cur fd buf len) :=
  .bind fileAt_live fun _ _ => .bind nodeOf_live fun _ _ => .bind vopRead_live fun _ _ =>
    .bind advance_live fun _ _ => .pure trivial

theorem writeBody_live : Lives Any (writeBody cur fd buf len) :=
  .bind fileAt_live fun _ _ => .bind nodeOf_live fun _ _ => .bind vopWrite_live fun _ _ =>
    .bind advance_live fun _ _ => .pure trivial

theorem seekBody_live : Lives Any (seekBody cur fd pos whence) := by
  refine .bind fileAt_live fun _ _ => .bind nodeOf_live fun _ _ => .bind (P := Any) ?_ fun _ _ => ?_
  · refine .ite (fun _ => .pure trivial) fun _ => .ite (fun _ => .pure trivial) fun _ => ?_
    exact .ite (fun _ => .bind vopFstat_live fun _ _ => .pure trivial) fun _ => .pure trivial
  · refine .ite (fun _ => .pure trivial) fun _ => .bind vopTryseek_live fun _ _ => ?_
    refine .ite (fun _ => .pure trivial) fun _ => ?_
    exact .bind fileAt_live fun _ _ => .bind setFile_live fun _ _ => .pure trivial

theorem fstatBody_live : Lives Any (fstatBody cur fd) :=
  .bind fileAt_live fun _ _ => .bind nodeOf_live fun _ _ => vopFstat_live

theorem fsyncBody_live : Lives Any (fsyncBody cur fd) :=
  .bind fileAt_live fun _ _ => .bind nodeOf_live fun _ _ => vopFsync_live.mono fun _ _ => trivial

theorem getdirentryBody_live : Lives Any (getdirentryBody cur fd offset) :=
  .bind fileAt_live fun _ _ => .bind nodeOf_live fun _ _ => .bind vopGetdirentry_live fun _ _ =>
    .ite (fun _ => .pure trivial) fun _ => .pure trivial

theorem onFile_live {x : ℤ × ℕ → α} {m : ℕ → Prog α} (h : ∀ fd, Lives Any (m fd)) : Lives Any (do
    let (ret, fd) ← fd2file cur i
    if ret ≠ 0 then return x (ret, fd)
    else withFile cur fd (m fd)) :=
  .bind fd2file_live fun _ _ => .ite (fun _ => .pure trivial) fun _ => withFile_live (h _)

theorem fileSeek_live : Lives Any (fileSeek cur i pos whence) :=
  onFile_live (x := fun r => r.1) (m := fun fd => seekBody cur fd pos whence) fun _ => seekBody_live

theorem fileFstat_live : Lives Any (fileFstat cur i) :=
  onFile_live (x := fun r => (r.1, (⟨0, 0, 0, 0⟩ : Stat))) fun _ => fstatBody_live

theorem fileFsync_live : Lives Any (fileFsync cur i) := onFile_live fun _ => fsyncBody_live

theorem fileGetdirentry_live : Lives Any (fileGetdirentry cur i offset) :=
  onFile_live (x := fun r => (r.1, offset, [])) (m := fun fd => getdirentryBody cur fd offset)
    fun _ => getdirentryBody_live

theorem fileRead_live : Lives Any (fileRead cur i buf len) :=
  .bind fd2file_live fun _ _ => .ite (fun _ => .pure trivial) fun _ => .bind fileAt_live fun _ _ =>
    .ite (fun _ => .pure trivial) fun _ => withFile_live readBody_live

theorem fileWrite_live : Lives Any (fileWrite cur i buf len) :=
  .bind fd2file_live fun _ _ => .ite (fun _ => .pure trivial) fun _ => .bind fileAt_live fun _ _ =>
    .ite (fun _ => .pure trivial) fun _ => withFile_live writeBody_live

theorem fileDup_live {fd₁ fd₂ : ℤ} : Lives Any (fileDup cur fd₁ fd₂) := by
  refine .bind fd2file_live fun _ _ => .ite (fun _ => .pure trivial) fun _ => ?_
  refine .bind fdArrayAlloc_live fun _ _ => .ite (fun _ => .pure trivial) fun _ => ?_
  exact .bind fileAt_live fun _ _ => .bind fdArrayDup_live fun _ _ => .pure trivial

theorem filesDestroy_live : Lives Any (filesDestroy f) := by
  have hloop : ∀ n fd, Lives Any (destroyLoop f n fd) := by
    intro n
    induction n with
    | zero => exact fun _ => .pure trivial
    | succ n ih =>
      refine fun fd => .bind (P := Any) ?_ fun _ _ => .bind fileAt_live fun _ _ =>
        .bind .assert fun _ _ => ih _
      exact .bind fileAt_live fun _ _ => .ite (fun _ => fdArrayClose_live) fun _ => .pure trivial
  refine .bind (P := Any) (.bind filesAt_live fun t _ => ?_) fun _ _ => .bind (hloop _ _) fun _ _ =>
    setFiles_live
  cases t.pwd with
  | some p => exact inodeRefDec_live
  | none => exact .pure trivial

theorem dupFiles_live : Lives Any (dupFiles dst src) := by
  have hloop : ∀ n fd, Lives Any (dupLoop dst src n fd) := by
    intro n
    induction n with
    | zero => exact fun _ => .pure trivial
    | succ n ih =>
      refine fun fd => .bind (P := Any) (.bind fileAt_live fun _ _ => ?_) fun _ _ => ih _
      refine .ite (fun _ => ?_) fun _ => .pure trivial
      exact .bind fileAt_live fun _ _ => .bind setFile_live fun _ _ => fdArrayDup_live
  refine .bind (P := Any) ?_ fun _ _ => hloop _ _
  refine .bind filesAt_live fun t _ => .bind filesAt_live fun _ _ =>
    .bind setFiles_live fun _ _ => ?_
  cases t.pwd with
  | some p => exact .bind inodeRefInc_live fun _ _ => .pure trivial
  | none => exact .pure trivial

theorem copyFiles_live {share : Bool} : Lives Any (copyFiles cur share) := by
  refine .ite (fun _ => ?_) fun _ => ?_
  · exact .bind filesAt_live fun _ _ => .bind setFiles_live fun _ _ => .pure trivial
  · refine .bind (P := Any) ?_ fun o _ => ?_
    · refine .bind kmalloc_live fun _ _ => .ite (fun _ => ?_) fun _ => .pure trivial
      exact .get_bind fun _ _ => .bind (.modify fun _ h => ⟨h.1, h.2⟩) fun _ _ => .pure trivial
    · cases o with
      | none => exact .pure trivial
      | some f => exact .bind dupFiles_live fun _ _ => .pure trivial

theorem putFiles_live : Lives Any (putFiles f) :=
  .bind filesAt_live fun _ _ => .bind setFiles_live fun _ _ =>
    .ite (fun _ => filesDestroy_live) fun _ => .pure trivial

end Table

section Step

variable {cur fd : ℕ} {s t : System}

theorem Call.run_live (a : Call) : Lives Any (a.run cur) := by
  cases a with
  | openFile path flags => exact .bind fileOpen_live fun _ _ => .pure trivial
  | close fd => exact .bind fileClose_live fun _ _ => .pure trivial
  | read fd buf len => exact .bind fileRead_live fun _ _ => .pure trivial
  | write fd buf len => exact .bind fileWrite_live fun _ _ => .pure trivial
  | seek fd pos whence => exact .bind fileSeek_live fun _ _ => .pure trivial
  | fstat fd => exact .bind fileFstat_live fun _ _ => .pure trivial
  | fsync fd => exact .bind fileFsync_live fun _ _ => .pure trivial
  | getdirentry fd offset => exact .bind fileGetdirentry_live fun _ _ => .pure trivial
  | dup fd₁ fd₂ => exact .bind fileDup_live fun _ _ => .pure trivial
  | chdir path => exact .bind vfsChdir_live fun _ _ => .pure trivial
  | getcwd len => exact .bind vfsGetcwd_live fun _ _ => .pure trivial

theorem Body.run_live (a : Body) : Lives Any (a.run cur fd) := by
  cases a with
  | read buf len => exact .bind readBody_live fun _ _ => .pure trivial
  | write buf len => exact .bind writeBody_live fun _ _ => .pure trivial
  | seek pos whence => exact .bind seekBody_live fun _ _ => .pure trivial
  | fstat => exact .bind fstatBody_live fun _ _ => .pure trivial
  | fsync => exact .bind fsyncBody_live fun _ _ => .pure trivial
  | getdirentry offset => exact .bind getdirentryBody_live fun _ _ => .pure trivial

/-- Every inode in memory has a holder, and the device works. -/
abbrev SysLives {α : Type} (P : α → Prop) (m : Sys α) : Prop :=
  Code.Preserves (fun s : System => Live s.kernel) P m

theorem Sys.kernel_live {α : Type} {P : α → Prop} {m : Prog α} (h : Lives P m) :
    SysLives P (Sys.kernel m) := fun s hs =>
  (Sys.kernel_wp (h s.kernel hs)).mono (fun _ he => he) fun _ _ ⟨_, ht, hk⟩ => ht ▸ hk

theorem step_live (a : Act) : SysLives Any (step a) := by
  refine .get_bind fun s _ => ?_
  cases a with
  | call i a => exact .ite (fun _ => Sys.kernel_live a.run_live) fun _ => .pure trivial
  | acquire i fd =>
    refine .ite (fun _ => ?_) fun _ => .pure trivial
    refine .bind (Sys.kernel_live fd2file_live) fun _ _ => .ite (fun _ => .pure trivial) fun _ => ?_
    exact .bind (Sys.kernel_live fdArrayAcquire_live) fun _ _ => .modify fun _ h => h
  | use i a =>
    dsimp only
    cases (s.proc i).busy with
    | some fd => exact .ite (fun _ => Sys.kernel_live a.run_live) fun _ => .pure trivial
    | none => exact .pure trivial
  | release i =>
    dsimp only
    cases (s.proc i).busy with
    | some fd =>
      refine .ite (fun _ => ?_) fun _ => .pure trivial
      exact .bind (Sys.kernel_live fdArrayRelease_live) fun _ _ => .modify fun _ h => h
    | none => exact .pure trivial
  | lookup i path =>
    refine .ite (fun _ => ?_) fun _ => .pure trivial
    refine .bind (Sys.kernel_live vfsLookup_live) fun _ _ => ?_
    exact .ite (fun _ => .pure trivial) fun _ => .modify fun _ h => h
  | drop i p =>
    refine .ite (fun _ => ?_) fun _ => .pure trivial
    exact .bind (Sys.kernel_live inodeRefDec_live) fun _ _ => .modify fun _ h => h
  | fork i j share =>
    refine .ite (fun _ => ?_) fun _ => .pure trivial
    refine .bind (Sys.kernel_live copyFiles_live) fun _ _ => ?_
    exact .ite (fun _ => .pure trivial) fun _ => .modify fun _ h => h
  | exit i =>
    refine .ite (fun _ => ?_) fun _ => .pure trivial
    exact .bind (Sys.kernel_live putFiles_live) fun _ _ => .modify fun _ h => h

theorem Run.live {l : List Act} (h : Run s l t) (hs : Live s.kernel) : Live t.kernel :=
  Runs.invariant (P := fun s : System => Live s.kernel) h
    (fun _ a _ hs ht => ((step_live a _ hs).ok ht).2) hs

theorem boot_node {fs : Fs} {kmallocs : List Bool} {stdin : List UInt8} {p : ℕ} {n : Inode}
    (hn : (boot fs kmallocs stdin).kernel.inode p = some n) :
    0 < n.refCount ∧ n.reclaimCount = 1 := by
  change (if p = 0 then some _ else if p = 1 then some _ else if p = 2 then some _ else none) =
    some n at hn
  split at hn
  · obtain rfl := Option.some.inj hn
    exact ⟨Int.one_pos, rfl⟩
  split at hn
  · obtain rfl := Option.some.inj hn
    exact ⟨Int.one_pos, rfl⟩
  split at hn
  · obtain rfl := Option.some.inj hn
    exact ⟨Int.ofNat_succ_pos 1, rfl⟩
  · cases hn

theorem loadRoot_reliable {fs : Fs} (h : fs.Reliable) : (Fs.loadRoot fs).Reliable := by
  have ht : (Fs.loadRoot fs).transfers = fs.transfers := by
    cases fs
    rfl
  unfold Fs.Reliable
  rw [ht]
  exact h

theorem boot_live {fs : Fs} {kmallocs : List Bool} {stdin : List UInt8} (h : fs.Reliable) :
    Live (boot fs kmallocs stdin).kernel := by
  have hr : (boot fs kmallocs stdin).kernel.fs.Reliable := loadRoot_reliable h
  exact ⟨hr, fun p n _ hn => boot_node hn⟩

end Step

end UCore.Vfs

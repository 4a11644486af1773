import UCore.Vfs.Counts

/-! # References of a call

What the functions on inodes and paths do to the counts: the credits of the running call that they
take and return. None of them fails an assertion about the counts.
-/

namespace UCore.Vfs

open Library Sfs

/-- The panics that say nothing against the counts. -/
def Allowed (e : Panic) : Prop := ¬ e.Counts

/-- From any state the program leaves the inodes and the tables alone. -/
def Still {α : Type} (m : Prog α) : Prop := ∀ k, Code.Wp m k Allowed fun _ k' => Quiet k k'

namespace Still

variable {α β : Type} {m : Prog α} {f : α → Prog β} {a : α} {e : Panic}

theorem pure : Still (Pure.pure a : Prog α) := fun k => Code.Wp.pure (.refl k)

theorem panic (h : ¬ e.Counts) : Still (Code.panic e : Prog α) := fun _ => .of_error rfl h

theorem bind (h : Still m) (hf : ∀ a, Still (f a)) : Still (m >>= f) := fun k =>
  (h k).bind fun a k' hk => (hf a k').mono (fun _ he => he) fun _ _ hk' => hk.trans hk'

theorem get_bind {f : Kernel → Prog β} (hf : ∀ k, Still (f k)) : Still (Code.get >>= f) :=
  fun k => Code.Wp.bind_get (hf k k)

theorem assert {P : Kernel → Prop} [DecidablePred P] (h : ¬ e.Counts) : Still (Code.assert P e) :=
  fun k => Code.Wp.assert (fun _ => .refl k) fun _ => h

theorem ite {c : Prop} [Decidable c] {m' : Prog α} (h : Still m) (h' : Still m') :
    Still (if c then m else m') := by
  split
  · exact h
  · exact h'

theorem volume (m : Sfs.Prog α) : Still (Vfs.volume m) := by
  intro k
  unfold Code.Wp Vfs.volume
  cases m k.fs with
  | ok r => exact ⟨rfl, rfl, rfl, rfl, rfl, rfl, rfl⟩
  | error e => exact id

theorem kmalloc : Still Vfs.kmalloc := fun _ => ⟨rfl, rfl, rfl, rfl, rfl, rfl, rfl⟩

end Still

section Still

variable {sin ino slot len : ℕ} {name : Str} {buf : Buf} {offset : ℤ} {write : Bool}

theorem sfsDirentReadNolock_still : Still (sfsDirentReadNolock sin slot) := by
  unfold sfsDirentReadNolock
  refine .bind (.assert id) fun _ => .bind (.volume _) fun r => .ite .pure ?_
  exact .bind (.volume _) fun _ => .bind (.volume _) fun _ => .pure

theorem searchLoop_still (n i : ℕ) : Still (searchLoop sin name n i) := by
  induction n generalizing i with
  | zero => exact .pure
  | succ n ih =>
    exact .bind sfsDirentReadNolock_still fun _ => .ite .pure (.ite .pure (ih _))

theorem findinoLoop_still (n i : ℕ) : Still (findinoLoop sin ino n i) := by
  induction n generalizing i with
  | zero => exact .pure
  | succ n ih =>
    exact .bind sfsDirentReadNolock_still fun _ => .ite .pure (.ite .pure (ih _))

theorem getdirentryLoop_still (n i j : ℕ) : Still (getdirentryLoop sin n i j) := by
  induction n generalizing i j with
  | zero => exact .pure
  | succ n ih =>
    refine .bind sfsDirentReadNolock_still fun _ => .ite .pure (.ite (ih _ _) ?_)
    exact .ite .pure (ih _ _)

theorem sfsDirentSearchNolock_still : Still (sfsDirentSearchNolock sin name) := by
  unfold sfsDirentSearchNolock
  refine .bind (.assert id) fun _ => .bind .kmalloc fun _ => .ite ?_ .pure
  exact .get_bind fun _ => searchLoop_still _ _

theorem sfsDirentFindinoNolock_still : Still (sfsDirentFindinoNolock sin ino) :=
  .get_bind fun _ => findinoLoop_still _ _

theorem sfsGetdirentry_still : Still (sfsGetdirentry sin offset) := by
  unfold sfsGetdirentry
  refine .bind .kmalloc fun _ => .ite (.ite .pure ?_) .pure
  refine .get_bind fun _ => .ite .pure ?_
  exact .get_bind fun _ => .bind (getdirentryLoop_still _ _ _) fun _ => .ite .pure .pure

theorem sfsIo_still : Still (sfsIo ino buf len offset write) :=
  .bind (.volume _) fun _ => .bind (.assert id) fun _ => .pure

theorem stdinRead_still : Still (stdinRead buf len) := fun _ => ⟨rfl, rfl, rfl, rfl, rfl, rfl, rfl⟩

end Still

section Vop

variable {k : Kernel} {p : ℕ} {n : Inode} {α : Type}

theorem deref_eq (hn : k.inode p = some n) : deref p k = .ok (n, k) := by
  unfold deref
  rw [hn]

theorem vopOp_eq (hn : k.inode p = some n) (hop : n.ops.has op = true) (ho : n.Ordered)
    (hl : n.refCount < maxInodeCount ∧ n.openCount < maxInodeCount) :
    vopOp p op k = .ok (n, k) := by
  have hcheck : inodeCheck n k = .ok ((), k) := Eq.trans (Code.assert_bind ho) (Code.assert_true hl)
  refine Eq.trans (Code.bind_ok (deref_eq hn)) (Eq.trans (Code.assert_bind hop) ?_)
  exact Eq.trans (Code.bind_ok hcheck) rfl

theorem vopOp_wp (hn : k.inode p = some n) (ho : n.Ordered) (op : Vop) :
    Code.Wp (vopOp p op) k Allowed fun m k' => n = m ∧ k = k' := by
  unfold vopOp
  refine .bind_of (deref_eq hn) ?_
  refine Code.Wp.bind_assert (fun _ => ?_) fun _ => id
  unfold inodeCheck
  refine Code.Wp.bind (Q := fun _ k' => k = k') ?_ ?_
  · refine Code.Wp.bind_assert (fun _ => ?_) fun h => absurd ho h
    exact Code.Wp.assert (fun _ => rfl) fun _ => id
  · rintro - k' rfl
    exact Code.Wp.pure ⟨rfl, rfl⟩

theorem vopOp_still (hn : k.inode p = some n) (ho : n.Ordered) (op : Vop) {f : Inode → Prog α}
    (hf : Still (f n)) : Code.Wp (vopOp p op >>= f) k Allowed fun _ k' => Quiet k k' := by
  refine (vopOp_wp hn ho op).bind ?_
  rintro _ _ ⟨rfl, rfl⟩
  exact hf k

theorem vopFsync_wp (hn : k.inode p = some n) (ho : n.Ordered) :
    Code.Wp (vopFsync p) k Allowed fun _ k' => Quiet k k' := by
  refine vopOp_still hn ho .vopFsync ?_
  cases n.info with
  | sfs ino => exact .volume _
  | dev d => exact .panic id

theorem vopTruncate_wp (hn : k.inode p = some n) (ho : n.Ordered) (len : ℤ) :
    Code.Wp (vopTruncate p len) k Allowed fun _ k' => Quiet k k' := by
  refine vopOp_still hn ho .vopTruncate ?_
  cases n.info with
  | sfs ino => exact .volume _
  | dev d => exact .panic id

theorem vopGettype_wp (hn : k.inode p = some n) (ho : n.Ordered) :
    Code.Wp (vopGettype p) k Allowed fun _ k' => Quiet k k' := by
  refine vopOp_still hn ho .vopGettype ?_
  cases n.info with
  | sfs ino => exact .get_bind fun _ => .ite .pure (.ite .pure (.ite .pure (.panic id)))
  | dev d => exact .pure

theorem vopFstat_wp (hn : k.inode p = some n) (ho : n.Ordered) :
    Code.Wp (vopFstat p) k Allowed fun _ k' => Quiet k k' := by
  unfold vopFstat
  refine (vopOp_wp hn ho .vopFstat).bind ?_
  rintro _ _ ⟨rfl, rfl⟩
  refine (vopGettype_wp hn ho).bind ?_
  rintro ⟨ret, mode⟩ k' hk
  dsimp only
  by_cases hret : ret = 0
  · rw [if_neg (not_not.mpr hret)]
    cases n.info with
    | sfs ino => exact Code.Wp.bind_get (Code.Wp.pure hk)
    | dev d => exact Code.Wp.pure hk
  · rw [if_pos hret]
    exact Code.Wp.pure hk

theorem vopOpen_wp (hn : k.inode p = some n) (ho : n.Ordered) (flags : ℕ) :
    Code.Wp (vopOpen p flags) k Allowed fun _ k' => Quiet k k' := by
  refine vopOp_still hn ho .vopOpen ?_
  split
  · exact .pure
  · exact .pure
  · exact .pure
  · exact .panic id

theorem vopRead_wp (hn : k.inode p = some n) (ho : n.Ordered) (buf : Buf) (len : ℕ) (offset : ℤ) :
    Code.Wp (vopRead p buf len offset) k Allowed fun _ k' => Quiet k k' := by
  refine vopOp_still hn ho .vopRead ?_
  split
  · exact sfsIo_still
  · exact stdinRead_still
  · exact .pure

theorem vopWrite_wp (hn : k.inode p = some n) (ho : n.Ordered) (buf : Buf) (len : ℕ) (offset : ℤ) :
    Code.Wp (vopWrite p buf len offset) k Allowed fun _ k' => Quiet k k' := by
  refine vopOp_still hn ho .vopWrite ?_
  split
  · exact .bind sfsIo_still fun _ => .pure
  · exact .pure
  · exact .pure

theorem vopTryseek_wp (hn : k.inode p = some n) (ho : n.Ordered) (pos : ℤ) :
    Code.Wp (vopTryseek p pos) k Allowed fun _ k' => Quiet k k' := by
  refine vopOp_still hn ho .vopTryseek ?_
  cases n.info with
  | sfs ino => exact .volume _
  | dev d => exact .pure

theorem vopGetdirentry_wp (hn : k.inode p = some n) (ho : n.Ordered) (offset : ℤ) :
    Code.Wp (vopGetdirentry p offset) k Allowed fun _ k' => Quiet k k' := by
  refine vopOp_still hn ho .vopGetdirentry ?_
  cases n.info with
  | sfs ino => exact sfsGetdirentry_still
  | dev d => exact .panic id

theorem vopClose_wp (hn : k.inode p = some n) (ho : n.Ordered) :
    Code.Wp (vopClose p) k Allowed fun _ k' => Quiet k k' := by
  unfold vopClose
  refine (vopOp_wp hn ho .vopClose).bind ?_
  rintro _ _ ⟨rfl, rfl⟩
  cases n.info with
  | sfs ino => exact vopFsync_wp hn ho
  | dev d => exact Code.Wp.pure (.refl k)

end Vop

section Count

variable {k : Kernel} {c d : ℕ → ℤ} {p ino : ℕ} {n : Inode}

/-- A credit for an inode, beyond the opens. -/
def Backed (c : ℕ → ℤ) (k : Kernel) (p : ℕ) : Prop := 1 ≤ k.pwds p + k.roots p + c p

theorem Acc.alive_of_backed (h : Acc c d k) (hp : Backed c k p) :
    ∃ n, k.inode p = some n ∧ 0 < n.refCount := by
  have := h.openOf_nonneg p
  unfold Backed at hp
  exact h.alive (by omega)

theorem Acc.reclaim_one (h : Acc c d k) (hn : k.inode p = some n) (hpos : 0 < n.refCount) :
    n.reclaimCount = 1 := by
  rw [h.coherent.reclaim p n hn, if_neg (by omega)]

theorem inodeRefInc_eq (hn : k.inode p = some n) : inodeRefInc p k =
    .ok (n.refCount + 1, k.setInode p (some { n with refCount := n.refCount + 1 })) :=
  (Code.bind_ok (deref_eq hn)).trans rfl

theorem inodeRefInc_wp (ha : Acc c d k) (hn : k.inode p = some n) (hpos : 0 < n.refCount) :
    Code.Wp (inodeRefInc p) k Allowed fun _ k' => Rest k k' ∧ Acc (more c p 1) d k' := by
  refine .of_ok (inodeRefInc_eq hn) ⟨setInode_rest, ?_⟩
  have hb := ha.base_nonneg p
  have ho := (ha.ordered hn).2
  have := ha.setInode hn { n with refCount := n.refCount + 1 } 1 0 rfl ?_
    (by simp) (by simp) (by omega) (by omega)
  · simpa using this
  · have h₁ := ha.reclaim_one hn hpos
    rw [if_neg (by dsimp only; omega)]
    exact h₁

theorem inodeOpenInc_wp (ha : Acc c d k) (hb : Backed c k p) : Code.Wp (inodeOpenInc p) k Allowed
    fun _ k' => Rest k k' ∧ Acc (more c p (-1)) (more d p 1) k' := by
  obtain ⟨n, hn, hpos⟩ := ha.alive_of_backed hb
  refine .bind_of (deref_eq hn) ?_
  have ho := (ha.ordered hn).2
  unfold Backed at hb
  refine ⟨setInode_rest,
    ha.setInode hn _ (-1) 1 rfl ?_ rfl (by dsimp only; omega) (by omega) (by omega)⟩
  have h₁ := ha.reclaim_one hn hpos
  rw [if_neg (by dsimp only; omega)]
  exact h₁

section Dec

variable {k₁ : Kernel}

theorem reclaimSync_wp (hn : k.inode p = some n) (ho : n.Ordered) :
    Code.Wp (reclaimSync p ino) k Allowed fun _ k' => Quiet k k' := by
  unfold reclaimSync
  apply Code.Wp.bind_get
  refine Code.Wp.bind (Q := fun _ k' => Quiet k k') ?_ ?_
  · split
    · exact vopTruncate_wp hn ho 0
    · exact Code.Wp.pure (.refl k)
  · intro ret k' hk
    split
    · exact Code.Wp.pure hk
    · apply Code.Wp.bind_get
      split
      · rw [← hk.inode] at hn
        exact (vopFsync_wp hn ho).mono (fun _ h => h) fun _ _ h => hk.trans h
      · exact Code.Wp.pure hk

theorem reclaimFree_wp (ha : Acc c d k) (hn : k.inode p = some n) (hi : n.info = .sfs ino)
    (href : n.refCount = 0) (hopen : n.openCount = 0) : Code.Wp (reclaimFree p ino) k Allowed
      fun _ k' => Rest k k' ∧ Acc c d k' := by
  unfold reclaimFree
  refine Code.Wp.bind_modify ?_
  refine (Still.volume (reclaimBlocks ino) _).bind fun _ k' hk => ?_
  refine Code.Wp.bind_modify ?_
  have hn' : (k'.setFs (Fs.forget k'.fs ino)).inode p = some n := by
    change k'.inode p = some n
    rw [hk.inode]
    exact hn
  refine .bind_of (deref_eq hn') ?_
  refine Code.Wp.bind_assert (fun _ => ?_) fun h => absurd ⟨href, hopen⟩ h
  have hr : Rest k ((k'.setFs (Fs.forget k'.fs ino)).setInode p none) :=
    ⟨hk.bootfs, hk.devnode, hk.files, hk.fbrk⟩
  refine ⟨hr, ha.kill hn hi href hopen hr hk.brk ?_ hk.hash⟩
  exact congrArg (fun i => Function.update i p none) hk.inode

theorem inodeRefDec_wp (ha : Acc c d k) (hb : Backed c k p) : Code.Wp (inodeRefDec p) k Allowed
    fun _ k' => Rest k k' ∧ Acc (more c p (-1)) d k' := by
  obtain ⟨n, hn, hpos⟩ := ha.alive_of_backed hb
  have ho := ha.ordered hn
  have hrefs := ha.refs p
  have hone := ha.reclaim_one hn hpos
  rw [refOf_eq hn, openOf_eq hn] at hrefs
  unfold Backed at hb
  have hset : ∀ {n' : Inode}, n'.info = n.info → n'.openCount = n.openCount →
      n'.refCount = n.refCount - 1 → (n'.reclaimCount = if n'.refCount = 0 then 0 else 1) →
      Acc (more c p (-1)) d (k.setInode p (some n')) := by
    intro n' h₁ h₂ h₃ h₄
    have := ha.setInode hn n' (-1) 0 h₁ h₄ (by omega) (by omega)
      (by have := ho.2; omega) (by omega)
    rwa [more_zero] at this
  unfold inodeRefDec
  refine .bind_of (deref_eq hn) ?_
  refine Code.Wp.bind_assert (fun _ => ?_) fun h => absurd hpos h
  refine Code.Wp.bind_modify ?_
  by_cases hlast : n.refCount - 1 = 0
  swap
  · rw [if_neg hlast]
    refine Code.Wp.pure ⟨setInode_rest, hset rfl rfl rfl ?_⟩
    rw [if_neg hlast]
    exact hone
  rw [if_pos hlast]
  refine Code.Wp.bind (Q := fun _ k' => Rest k k' ∧ Acc (more c p (-1)) d k') ?_
    fun _ _ h => Code.Wp.pure h
  have hopen : n.openCount = 0 := by
    have := ho.2
    omega
  have hord : Inode.Ordered ⟨n.info, n.ops, n.refCount - 1, n.openCount, n.reclaimCount⟩ :=
    ⟨by dsimp only; omega, ho.2⟩
  unfold vopReclaim
  refine (vopOp_wp setInode_inode hord .vopReclaim).bind ?_
  rintro _ _ ⟨rfl, rfl⟩
  cases hi : n.info with
  | dev d => exact .of_error rfl id
  | sfs ino =>
    dsimp only
    rw [← hi]
    unfold sfsReclaim
    refine .bind_of (deref_eq setInode_inode) ?_
    refine Code.Wp.bind_assert (fun _ => ?_) fun h => absurd ?_ h
    swap
    · dsimp only
      omega
    refine Code.Wp.bind_modify ?_
    rw [setInode_setInode, if_neg]
    swap
    · dsimp only
      omega
    have hacc : Acc (more c p (-1)) d (k.setInode p (some
        ⟨n.info, n.ops, n.refCount - 1, n.openCount, n.reclaimCount - 1⟩)) := by
      refine hset rfl rfl rfl ?_
      rw [if_pos hlast]
      dsimp only
      omega
    have hord := hacc.ordered setInode_inode
    refine (reclaimSync_wp setInode_inode hord).bind fun ret k' hk => ?_
    have hn' := setInode_inode (k := k) (p := p)
      (n := ⟨n.info, n.ops, n.refCount - 1, n.openCount, n.reclaimCount - 1⟩)
    rw [← hk.inode] at hn'
    have hr : Rest k k' := setInode_rest.trans hk.rest
    by_cases hret : ret = 0
    · rw [if_neg (not_not.mpr hret)]
      refine Code.Wp.bind (reclaimFree_wp (hk.acc hacc) hn' hi hlast hopen) ?_
      rintro - k'' ⟨hr', ha'⟩
      exact Code.Wp.pure ⟨hr.trans hr', ha'⟩
    · rw [if_pos hret]
      exact Code.Wp.pure ⟨hr, hk.acc hacc⟩

theorem inodeOpenDec_wp (ha : Acc c d k) (hp : 0 < k.openOf p) : Code.Wp (inodeOpenDec p) k Allowed
    fun _ k' => Rest k k' ∧ Acc (more c p 1) (more d p (-1)) k' := by
  have hb := ha.base_nonneg p
  obtain ⟨n, hn, hpos⟩ := ha.alive (p := p) (by omega)
  rw [openOf_eq hn] at hp
  refine .bind_of (deref_eq hn) ?_
  refine Code.Wp.bind_assert (fun _ => ?_) fun h => absurd hp h
  refine Code.Wp.bind_modify ?_
  have hacc : Acc (more c p 1) (more d p (-1))
      (k.setInode p (some { n with openCount := n.openCount - 1 })) := by
    have h₁ := ha.reclaim_one hn hpos
    refine ha.setInode hn _ 1 (-1) rfl ?_ (by dsimp only; omega) (by dsimp only; omega)
      (by omega) (by omega)
    rw [if_neg (by dsimp only; omega)]
    exact h₁
  split
  · refine (vopClose_wp setInode_inode (hacc.ordered setInode_inode)).bind fun _ k' hk => ?_
    exact Code.Wp.pure ⟨setInode_rest.trans hk.rest, hk.acc hacc⟩
  · exact Code.Wp.pure ⟨setInode_rest, hacc⟩

theorem vfsClose_wp (ha : Acc c d k) (hp : 0 < k.openOf p) : Code.Wp (vfsClose p) k Allowed
    fun _ k' => Rest k k' ∧ Acc c (more d p (-1)) k' := by
  refine (inodeOpenDec_wp ha hp).bind ?_
  rintro - k' ⟨hr, ha'⟩
  have hb : Backed (more c p 1) k' p := by
    have := ha.base_nonneg p
    unfold Backed
    rw [hr.pwds, hr.roots, more_self]
    omega
  refine (inodeRefDec_wp ha' hb).mono (fun _ h => h) ?_
  rintro - k'' ⟨hr', ha''⟩
  refine ⟨hr.trans hr', ?_⟩
  simpa using ha''

end Dec

end Count

/-- The running call gets a reference of the inode that it was given, unless there was an error. -/
def Hands (c d : ℕ → ℤ) (k : Kernel) (r : ℤ × ℕ) (k' : Kernel) : Prop :=
  Rest k k' ∧ Acc (if r.1 = 0 then more c r.2 1 else c) d k'

section Load

variable {k k' : Kernel} {c d : ℕ → ℤ} {p ino : ℕ}

theorem Hands.found (hr : Rest k k') (ha : Acc (more c p 1) d k') :
    Hands c d k (0, p) k' := ⟨hr, ha⟩

theorem Hands.failed {ret : ℤ} {q : ℕ} (hret : ret ≠ 0) (hr : Rest k k') (ha : Acc c d k') :
    Hands c d k (ret, q) k' := by
  refine ⟨hr, ?_⟩
  rw [if_neg hret]
  exact ha

theorem lookupSfsNolock_wp (ha : Acc c d k) : Code.Wp (lookupSfsNolock ino) k Allowed fun o k' =>
    match o with
    | some p => Rest k k' ∧ Acc (more c p 1) d k'
    | none => k = k' ∧ k.hash ino = none := by
  unfold lookupSfsNolock
  apply Code.Wp.bind_get
  cases hh : k.hash ino with
  | none => exact Code.Wp.pure ⟨rfl, rfl⟩
  | some p =>
    dsimp only
    obtain ⟨n, hn, -⟩ := ha.coherent.hash ino p hh
    have hrec := ha.coherent.reclaim p n hn
    have ho := ha.ordered hn
    have hb := ha.base_nonneg p
    have hset : ∀ x : ℤ, x = 1 →
        Acc (more c p 1) d
          (k.setInode p (some { n with refCount := n.refCount + 1, reclaimCount := x })) := by
      intro x hx
      have := ha.setInode hn
        { n with refCount := n.refCount + 1, reclaimCount := x } 1 0 rfl ?_ (by simp) (by simp)
        (by have := ho.2; omega) (by omega)
      · simpa using this
      · have h₁ := ho.1
        have h₂ := ho.2
        rw [if_neg (by dsimp only; omega)]
        exact hx
    refine .bind_of (inodeRefInc_eq hn) ?_
    by_cases hz : n.refCount + 1 = 1
    · rw [if_pos hz]
      refine .bind_of (deref_eq setInode_inode) ?_
      refine Code.Wp.bind_modify (Code.Wp.pure ?_)
      rw [setInode_setInode]
      refine ⟨setInode_rest, hset _ ?_⟩
      rw [hrec, if_pos (by omega)]
      rfl
    · rw [if_neg hz]
      refine Code.Wp.pure ⟨setInode_rest, hset _ ?_⟩
      rw [hrec, if_neg (by omega)]

/-- A new inode at the next address, which is not in the hash list yet. -/
structure Created (k : Kernel) (p ino : ℕ) (k' : Kernel) : Prop where
  rest : Rest k k'
  address : p = k.brk
  brk : k'.brk = k.brk + 1
  inode : ∃ ops, k'.inode = Function.update k.inode k.brk (some ⟨.sfs ino, ops, 1, 0, 1⟩)
  hash : k'.hash = k.hash

theorem sfsCreateInode_wp (din : DiskInode) : Code.Wp (sfsCreateInode din ino) k Allowed fun r k' =>
    if r.1 = 0 then Created k r.2 ino k' else Quiet k k' := by
  unfold sfsCreateInode
  refine (Still.kmalloc k).bind fun ok k₁ hk => ?_
  cases ok with
  | false => exact Code.Wp.pure hk
  | true =>
    rw [if_pos rfl]
    cases sfsGetOps din.type with
    | none => exact .of_error rfl id
    | some ops =>
      apply Code.Wp.bind_get
      refine Code.Wp.bind_modify (Code.Wp.pure ?_)
      rw [if_pos rfl]
      refine ⟨⟨hk.bootfs, hk.devnode, hk.files, hk.fbrk⟩, hk.brk, congrArg (· + 1) hk.brk,
        ⟨ops, ?_⟩, hk.hash⟩
      change Function.update k₁.inode k₁.brk _ = _
      rw [hk.inode, hk.brk]

theorem sfsLoadInode_wp (ha : Acc c d k) : Code.Wp (sfsLoadInode ino) k Allowed (Hands c d k) := by
  unfold sfsLoadInode
  refine (lookupSfsNolock_wp ha).bind fun o k₁ ho => ?_
  cases o with
  | some p => exact Code.Wp.pure (.found ho.1 ho.2)
  | none =>
    obtain ⟨rfl, hno⟩ := ho
    refine (Still.kmalloc k).bind fun ok k₁ hk₁ => ?_
    cases ok with
    | false => exact Code.Wp.pure (.failed (by decide) hk₁.rest (hk₁.acc ha))
    | true =>
      rw [if_pos rfl]
      refine (Still.volume _ k₁).bind fun _ k₂ hk₂ => ?_
      refine (Still.volume _ k₂).bind ?_
      rintro ⟨ret, b⟩ k₃ hk₃
      replace hk₃ := (hk₁.trans hk₂).trans hk₃
      dsimp only
      by_cases hret : ret = 0
      · rw [if_neg (not_not.mpr hret)]
        refine Code.Wp.bind_assert (fun _ => ?_) fun _ => id
        refine (sfsCreateInode_wp _).bind ?_
        rintro ⟨ret, p⟩ k₄ hk₄
        dsimp only at hk₄ ⊢
        by_cases hret : ret = 0
        · rw [if_pos hret] at hk₄
          obtain ⟨hr, rfl, hbrk, ⟨ops, hinode⟩, hhash⟩ := hk₄
          rw [if_neg (not_not.mpr hret)]
          have hr' := hk₃.rest.trans hr
          refine Code.Wp.bind_modify (Code.Wp.pure (.found ?_ ?_))
          · exact ⟨hr'.bootfs, hr'.devnode, hr'.files, hr'.fbrk⟩
          · refine (hk₃.acc ha).load ?_ ?_ hbrk hinode ?_
            · rw [hk₃.hash]
              exact hno
            · exact ⟨hr.bootfs, hr.devnode, hr.files, hr.fbrk⟩
            · exact congrArg (fun h => Function.update h ino (some k₃.brk)) hhash
        · rw [if_neg hret] at hk₄
          rw [if_pos hret]
          replace hk₄ := hk₃.trans hk₄
          exact Code.Wp.pure (.failed hret hk₄.rest (hk₄.acc ha))
      · rw [if_pos hret]
        exact Code.Wp.pure (.failed hret hk₃.rest (hk₃.acc ha))

theorem sfsGetRoot_wp (ha : Acc c d k) : Code.Wp sfsGetRoot k Allowed fun p k' =>
    Rest k k' ∧ Acc (more c p 1) d k' := by
  unfold sfsGetRoot
  refine (sfsLoadInode_wp ha).bind ?_
  rintro ⟨ret, p⟩ k' ⟨hr, ha'⟩
  dsimp only at ha' ⊢
  by_cases hret : ret = 0
  · rw [if_neg (not_not.mpr hret)]
    rw [if_pos hret] at ha'
    exact Code.Wp.pure ⟨hr, ha'⟩
  · rw [if_pos hret]
    exact .of_error rfl id

theorem sfsLookupOnce_wp {name : Str} (ha : Acc c d k) :
    Code.Wp (sfsLookupOnce ino name) k Allowed (Hands c d k) := by
  unfold sfsLookupOnce
  refine (sfsDirentSearchNolock_still k).bind ?_
  rintro ⟨ret, j⟩ k₁ hk
  dsimp only
  split
  · rename_i hret
    exact Code.Wp.pure (.failed hret hk.rest (hk.acc ha))
  · refine (sfsLoadInode_wp (hk.acc ha)).mono (fun _ h => h) fun _ _ h => ⟨hk.rest.trans h.1, h.2⟩

end Load

section Lookup

variable {k k' : Kernel} {c d : ℕ → ℤ} {p q cur : ℕ} {path : Str}

theorem Acc.backed (ha : Acc c d k) (hr : Rest k k') : Backed (more c p 1) k' p := by
  have := ha.base_nonneg p
  unfold Backed
  rw [hr.pwds, hr.roots, more_self]
  omega

theorem Backed.more (h : Backed c k p) : Backed (more c q 1) k p := by
  unfold Backed Vfs.more at *
  split <;> omega

theorem inodeRefDec_hands {r : ℤ × ℕ} {k₁ : Kernel} (ha : Acc c d k) (hr : Rest k k₁)
    (h : Hands (more c p 1) d k₁ r k') :
    Code.Wp (inodeRefDec p) k' Allowed fun _ k'' => Hands c d k r k'' := by
  obtain ⟨hr', ha'⟩ := h
  have hb : Backed (if r.1 = 0 then more (more c p 1) r.2 1 else more c p 1) k' p := by
    split
    · exact (ha.backed (hr.trans hr')).more
    · exact ha.backed (hr.trans hr')
  refine (inodeRefDec_wp ha' hb).mono (fun _ h => h) ?_
  rintro - k'' ⟨hr'', ha''⟩
  refine ⟨(hr.trans hr').trans hr'', ?_⟩
  split at ha''
  · rename_i hret
    rw [if_pos hret]
    rw [more_comm] at ha''
    simpa using ha''
  · rename_i hret
    rw [if_neg hret]
    simpa using ha''

theorem sfsLookup_wp {n : Inode} {ino : ℕ} (ha : Acc c d k) (hn : k.inode p = some n)
    (hpos : 0 < n.refCount) : Code.Wp (sfsLookup p ino path) k Allowed (Hands c d k) := by
  unfold sfsLookup
  refine Code.Wp.bind_assert (fun _ => ?_) fun _ => id
  refine (inodeRefInc_wp ha hn hpos).bind ?_
  rintro - k₁ ⟨hr, ha₁⟩
  apply Code.Wp.bind_get
  split
  · refine (inodeRefDec_wp ha₁ (ha.backed hr)).bind ?_
    rintro - k₂ ⟨hr', ha₂⟩
    exact Code.Wp.pure (.failed (by decide) (hr.trans hr') (by simpa using ha₂))
  · refine (sfsLookupOnce_wp ha₁).bind ?_
    rintro ⟨ret, q⟩ k₂ h₂
    refine (inodeRefDec_hands ha hr h₂).bind fun _ k₃ h₃ => ?_
    split
    · rename_i hret
      obtain ⟨hr₃, ha₃⟩ := h₃
      rw [if_neg hret] at ha₃
      exact Code.Wp.pure (.failed hret hr₃ ha₃)
    · rename_i hret
      obtain rfl : ret = 0 := not_not.mp hret
      exact Code.Wp.pure h₃

theorem vopLookup_wp {n : Inode} (ha : Acc c d k) (hn : k.inode p = some n)
    (hpos : 0 < n.refCount) :
    Code.Wp (vopLookup p path) k Allowed (Hands c d k) := by
  unfold vopLookup
  refine (vopOp_wp hn (ha.ordered hn) .vopLookup).bind ?_
  rintro _ _ ⟨rfl, rfl⟩
  split
  · exact sfsLookup_wp ha hn hpos
  · split
    · exact Code.Wp.pure (.failed (by decide) (.refl k) ha)
    · refine (inodeRefInc_wp ha hn hpos).bind ?_
      rintro - k' ⟨hr, ha'⟩
      exact Code.Wp.pure (.found hr ha')

theorem inodeRefInc_hands {α : Type} {f : ℤ → Prog α} {Q : α → Kernel → Prop} (ha : Acc c d k)
    (hb : Backed c k p) (hf : ∀ x k', Hands c d k (0, p) k' → Code.Wp (f x) k' Allowed Q) :
    Code.Wp (inodeRefInc p >>= f) k Allowed Q := by
  obtain ⟨n, hn, hpos⟩ := ha.alive_of_backed hb
  refine (inodeRefInc_wp ha hn hpos).bind fun x k' h => ?_
  exact hf x k' (.found h.1 h.2)

theorem filesAt_eq {i : ℕ} {t : Files} (ht : k.files i = some t) : filesAt i k = .ok (t, k) := by
  unfold filesAt
  rw [ht]

theorem filesAt_bind {α : Type} {f : Files → Prog α} {Q : α → Kernel → Prop} {i : ℕ}
    (h : ∀ t, k.files i = some t → Code.Wp (f t) k Allowed Q) :
    Code.Wp (filesAt i >>= f) k Allowed Q := by
  cases ht : k.files i with
  | none =>
    have he : filesAt i k = .error .noFiles := by
      unfold filesAt
      rw [ht]
    exact .of_error (Code.bind_error he) id
  | some t => exact .bind_of (filesAt_eq ht) (h t ht)

variable (hc : ∀ q, 0 ≤ c q)

include hc

theorem vfsGetCurdir_wp (ha : Acc c d k) : Code.Wp (vfsGetCurdir cur) k Allowed (Hands c d k) := by
  refine filesAt_bind fun t ht => ?_
  cases hp : t.pwd with
  | none => exact Code.Wp.pure (.failed (by decide) (.refl k) ha)
  | some p =>
    have hb : Backed c k p := by
      have := pwds_pos ha.coherent ht hp
      have := hc p
      unfold Backed
      omega
    exact inodeRefInc_hands ha hb fun _ _ h => Code.Wp.pure h

theorem vfsGetBootfs_wp (ha : Acc c d k) : Code.Wp vfsGetBootfs k Allowed (Hands c d k) := by
  apply Code.Wp.bind_get
  cases hp : k.bootfs with
  | none => exact Code.Wp.pure (.failed (by decide) (.refl k) ha)
  | some p =>
    have hb : Backed c k p := by
      have := roots_pos (.inl hp)
      have := hc p
      unfold Backed
      omega
    exact inodeRefInc_hands ha hb fun _ _ h => Code.Wp.pure h

theorem vfsGetRoot_wp {name : Str} (ha : Acc c d k) :
    Code.Wp (vfsGetRoot name) k Allowed (Hands c d k) := by
  unfold vfsGetRoot
  split
  · refine (sfsGetRoot_wp ha).bind ?_
    rintro p k' ⟨hr, ha'⟩
    exact Code.Wp.pure (.found hr ha')
  · split
    · apply Code.Wp.bind_get
      have hb : ∀ e, Backed c k (k.devnode e) := by
        intro e
        have := roots_pos (k := k) (.inr ⟨e, rfl⟩)
        have := hc (k.devnode e)
        unfold Backed
        omega
      exact inodeRefInc_hands ha (hb _) fun _ _ h => Code.Wp.pure h
    · exact Code.Wp.pure (.failed (by decide) (.refl k) ha)

theorem getDevice_wp (ha : Acc c d k) : Code.Wp (getDevice cur path) k Allowed
    fun r k' => Hands c d k (r.1, r.2.1) k' := by
  unfold getDevice
  split
  · exact (vfsGetCurdir_wp hc ha).bind fun r k' h => Code.Wp.pure h
  · exact (vfsGetRoot_wp hc ha).bind fun r k' h => Code.Wp.pure h
  · exact (vfsGetBootfs_wp hc ha).bind fun r k' h => Code.Wp.pure h
  · refine (vfsGetCurdir_wp hc ha).bind ?_
    rintro ⟨ret, p⟩ k₁ ⟨hr, ha₁⟩
    dsimp only at ha₁ ⊢
    split
    · rename_i hret
      rw [if_neg hret] at ha₁
      exact Code.Wp.pure (.failed hret hr ha₁)
    · rename_i hret
      rw [if_pos (not_not.mp hret)] at ha₁
      obtain ⟨n, hn, hpos⟩ := ha₁.alive_of_backed (ha.backed hr)
      refine .bind_of (deref_eq hn) ?_
      split
      · exact .of_error rfl id
      · refine (sfsGetRoot_wp ha₁).bind ?_
        rintro root k₂ ⟨hr', ha₂⟩
        refine (inodeRefDec_hands ha hr (r := (0, root)) ⟨hr', ha₂⟩).bind fun _ k₃ h => ?_
        exact Code.Wp.pure h

theorem vfsLookup_wp (ha : Acc c d k) : Code.Wp (vfsLookup cur path) k Allowed (Hands c d k) := by
  unfold vfsLookup
  refine (getDevice_wp hc ha).bind ?_
  rintro ⟨ret, p, subpath⟩ k₁ ⟨hr, ha₁⟩
  dsimp only at ha₁ ⊢
  split
  · rename_i hret
    rw [if_neg hret] at ha₁
    exact Code.Wp.pure (.failed hret hr ha₁)
  · rename_i hret
    rw [if_pos (not_not.mp hret)] at ha₁
    split
    · obtain ⟨n, hn, hpos⟩ := ha₁.alive_of_backed (ha.backed hr)
      refine (vopLookup_wp ha₁ hn hpos).bind ?_
      rintro ⟨ret', q⟩ k₂ h₂
      exact (inodeRefDec_hands ha hr h₂).bind fun _ k₃ h => Code.Wp.pure h
    · exact Code.Wp.pure (.found hr ha₁)

theorem vfsLookupParent_wp (ha : Acc c d k) :
    Code.Wp (vfsLookupParent cur path) k Allowed (Hands c d k) :=
  (getDevice_wp hc ha).bind fun _ _ h => Code.Wp.pure h

end Lookup

/-- The running call gets an open of the inode that it was given, unless there was an error. -/
def Opens (c d : ℕ → ℤ) (k : Kernel) (r : ℤ × ℕ) (k' : Kernel) : Prop :=
  Rest k k' ∧ Acc c (if r.1 = 0 then more d r.2 1 else d) k'

section Open

variable {k k' : Kernel} {c d : ℕ → ℤ} {p cur flags : ℕ} {path : Str}

theorem Acc.opened (ha : Acc c d k) (hr : Rest k k') (h : Acc c (more d p 1) k') :
    0 < k'.openOf p := by
  have h₁ := ha.opens p
  have h₂ := h.opens p
  have h₃ := ha.openOf_nonneg p
  rw [hr.opens, more_self] at h₂
  omega

theorem vfsOpenNode_wp (ha : Acc c d k) (hr : Rest k k') (ha' : Acc (more c p 1) d k') :
    Code.Wp (vfsOpenNode p flags) k' Allowed (Opens c d k) := by
  unfold vfsOpenNode
  obtain ⟨n, hn, hpos⟩ := ha'.alive_of_backed (ha.backed hr)
  refine (vopOpen_wp hn (ha'.ordered hn) flags).bind fun ret k₁ hk => ?_
  have hr₁ := hr.trans hk.rest
  have ha₁ := hk.acc ha'
  split
  · rename_i hret
    refine (inodeRefDec_wp ha₁ (ha.backed hr₁)).bind ?_
    rintro - k₂ ⟨hr₂, ha₂⟩
    refine Code.Wp.pure ⟨hr₁.trans hr₂, ?_⟩
    rw [if_neg hret]
    simpa using ha₂
  · refine (inodeOpenInc_wp ha₁ (ha.backed hr₁)).bind ?_
    rintro - k₂ ⟨hr₂, ha₂⟩
    have hr₂ := hr₁.trans hr₂
    have ha₂ : Acc c (more d p 1) k₂ := by simpa using ha₂
    have hop := ha.opened hr₂ ha₂
    refine Code.Wp.bind (Q := fun _ k₃ => Quiet k₂ k₃) ?_ fun ret k₃ hk₃ => ?_
    · split
      · have := ha₂.base_nonneg p
        obtain ⟨n, hn, -⟩ := ha₂.alive (p := p) (by omega)
        exact vopTruncate_wp hn (ha₂.ordered hn) 0
      · exact Code.Wp.pure (.refl k₂)
    have hr₃ := hr₂.trans hk₃.rest
    have ha₃ := hk₃.acc ha₂
    split
    · rename_i hret
      refine (inodeOpenDec_wp ha₃ (ha.opened hr₃ ha₃)).bind ?_
      rintro - k₄ ⟨hr₄, ha₄⟩
      have hr₄ := hr₃.trans hr₄
      refine (inodeRefDec_wp ha₄ (ha.backed hr₄)).bind ?_
      rintro - k₅ ⟨hr₅, ha₅⟩
      refine Code.Wp.pure ⟨hr₄.trans hr₅, ?_⟩
      rw [if_neg hret]
      simpa using ha₅
    · exact Code.Wp.pure ⟨hr₃, ha₃⟩

theorem vopCreate_wp {n : Inode} (hn : k.inode p = some n) (ho : n.Ordered) :
    Code.Wp (vopCreate p) k Allowed fun _ _ => False := by
  unfold vopCreate
  refine (vopOp_wp hn ho .vopCreate).bind ?_
  rintro _ _ ⟨rfl, rfl⟩
  exact .of_error rfl id

/-- The exit of `vfs_open` that keeps the reference of the inode that the lookup found. -/
def Kept (cur : ℕ) (path : Str) (flags : ℕ) (k k' : Kernel) (p : ℕ) : Prop :=
  has flags oExcl = true ∧ has flags oCreat = true ∧ vfsLookup cur path k = .ok ((0, p), k')

theorem vfsOpen_wp (hc : ∀ q, 0 ≤ c q) (ha : Acc c d k) : Code.Wp (vfsOpen cur path flags) k Allowed
    fun r k' => Opens c d k r k' ∨
      r.1 = -eExists ∧ ∃ p, Kept cur path flags k k' p ∧ Rest k k' ∧ Acc (more c p 1) d k' := by
  have hfail : ∀ {ret : ℤ} {q : ℕ} {k' : Kernel}, ret ≠ 0 → Rest k k' → Acc c d k' →
      Opens c d k (ret, q) k' := by
    intro ret q k' hret hr ha'
    refine ⟨hr, ?_⟩
    rw [if_neg hret]
    exact ha'
  unfold vfsOpen
  dsimp only
  split
  · exact Code.Wp.pure (.inl (hfail (by decide) (.refl k) ha))
  split
  · exact Code.Wp.pure (.inl (hfail (by decide) (.refl k) ha))
  refine (vfsLookup_wp hc ha).self.bind ?_
  rintro ⟨ret, p⟩ k₁ ⟨hrun, hr, ha₁⟩
  dsimp only at ha₁ ⊢
  split
  · rename_i hret
    rw [if_neg hret] at ha₁
    split
    · refine (vfsLookupParent_wp hc ha₁).bind ?_
      rintro ⟨ret, q⟩ k₂ ⟨hr₂, ha₂⟩
      dsimp only at ha₂ ⊢
      split
      · rename_i hret
        rw [if_neg hret] at ha₂
        exact Code.Wp.pure (.inl (hfail hret (hr.trans hr₂) ha₂))
      · rename_i hret
        rw [if_pos (not_not.mp hret)] at ha₂
        obtain ⟨n, hn, -⟩ := ha₂.alive_of_backed (ha₁.backed hr₂)
        exact (vopCreate_wp hn (ha₂.ordered hn)).bind fun _ _ h => h.elim
    · exact Code.Wp.pure (.inl (hfail hret hr ha₁))
  · rename_i hret
    obtain rfl : ret = 0 := not_not.mp hret
    rw [if_pos rfl] at ha₁
    split
    · rename_i hx
      exact Code.Wp.pure (.inr ⟨rfl, p, ⟨hx.1, hx.2, hrun⟩, hr, ha₁⟩)
    · exact (vfsOpenNode_wp ha hr ha₁).mono (fun _ h => h) fun _ _ h => .inl h

end Open

section Cwd

variable {k k' : Kernel} {c d : ℕ → ℤ} {p cur : ℕ} {path : Str}

theorem sfsInfo_bind {α : Type} {f : ℕ → Prog α} {Q : α → Kernel → Prop} {n : Inode}
    (hn : k.inode p = some n) (h : ∀ ino, n.info = .sfs ino → Code.Wp (f ino) k Allowed Q) :
    Code.Wp (sfsInfo p >>= f) k Allowed Q := by
  refine Code.Wp.bind (Q := fun ino k' => n.info = .sfs ino ∧ k = k') ?_ ?_
  · unfold sfsInfo
    refine .bind_of (deref_eq hn) ?_
    cases hi : n.info with
    | sfs ino => exact Code.Wp.pure ⟨rfl, rfl⟩
    | dev d => exact .of_error rfl id
  · rintro ino _ ⟨hi, rfl⟩
    exact h ino hi

/-- The loop of `sfs_namefile` gives back the reference of the inode that it has come to. -/
theorem namefileLoop_wp {k₀ : Kernel} (ha₀ : Acc c d k₀) (n : ℕ) : ∀ {k : Kernel} {p resid : ℕ}
    {names : List Str}, Rest k₀ k → Acc (more c p 1) d k →
    Code.Wp (namefileLoop n p resid names) k Allowed fun _ k' => Rest k₀ k' ∧ Acc c d k' := by
  have hdec : ∀ {α : Type} {a : α} {k : Kernel} {p : ℕ}, Rest k₀ k → Acc (more c p 1) d k →
      Code.Wp (inodeRefDec p >>= fun _ => pure a) k Allowed fun _ k' => Rest k₀ k' ∧
        Acc c d k' := by
    intro α a k p hr ha
    refine (inodeRefDec_wp ha (ha₀.backed hr)).bind ?_
    rintro - k' ⟨hr', ha'⟩
    exact Code.Wp.pure ⟨hr.trans hr', by simpa using ha'⟩
  induction n with
  | zero => exact hdec
  | succ n ih =>
    intro k p resid names hr ha
    obtain ⟨m, hm, -⟩ := ha.alive_of_backed (ha₀.backed hr)
    refine sfsInfo_bind hm fun ino _ => ?_
    refine (sfsLookupOnce_wp ha).bind ?_
    rintro ⟨ret, q⟩ k₁ ⟨hr₁, ha₁⟩
    have hr₁ := hr.trans hr₁
    dsimp only at ha₁ ⊢
    split
    · rename_i hret
      rw [if_neg hret] at ha₁
      exact hdec hr₁ ha₁
    · rename_i hret
      rw [if_pos (not_not.mp hret)] at ha₁
      refine (inodeRefDec_wp ha₁ (ha₀.backed hr₁).more).bind ?_
      rintro - k₂ ⟨hr₂, ha₂⟩
      have hr₂ := hr₁.trans hr₂
      have ha₂ : Acc (more c q 1) d k₂ := by
        rw [more_comm] at ha₂
        simpa using ha₂
      split
      · rename_i hpq
        rw [hpq]
        exact hdec hr₂ ha₂
      · obtain ⟨m, hm, -⟩ := ha₂.alive_of_backed (ha₀.backed hr₂)
        refine sfsInfo_bind hm fun j _ => ?_
        refine Code.Wp.bind_assert (fun _ => ?_) fun _ => id
        refine (sfsDirentFindinoNolock_still k₂).bind ?_
        rintro ⟨ret, entry⟩ k₃ hk₃
        have hr₃ := hr₂.trans hk₃.rest
        have ha₃ := hk₃.acc ha₂
        dsimp only
        split
        · exact hdec hr₃ ha₃
        · split
          · exact hdec hr₃ ha₃
          · exact ih hr₃ ha₃

theorem sfsNamefile_wp {n : Inode} {resid : ℕ} (ha : Acc c d k) (hn : k.inode p = some n)
    (hpos : 0 < n.refCount) :
    Code.Wp (sfsNamefile p resid) k Allowed fun _ k' => Rest k k' ∧ Acc c d k' := by
  unfold sfsNamefile
  split
  · exact Code.Wp.pure ⟨.refl k, ha⟩
  · refine (Still.kmalloc k).bind fun ok k₁ hk₁ => ?_
    split
    · have hn₁ := hn
      rw [← hk₁.inode] at hn₁
      refine (inodeRefInc_wp (hk₁.acc ha) hn₁ hpos).bind ?_
      rintro - k₂ ⟨hr₂, ha₂⟩
      refine (namefileLoop_wp ha _ (hk₁.rest.trans hr₂) ha₂).bind ?_
      rintro ⟨ret, names⟩ k₃ h₃
      dsimp only
      split
      · exact Code.Wp.pure h₃
      · exact Code.Wp.pure h₃
    · exact Code.Wp.pure ⟨hk₁.rest, hk₁.acc ha⟩

theorem getcwdMove_wp {n : Inode} {len : ℕ} (ha : Acc c d k) (hn : k.inode p = some n)
    (hpos : 0 < n.refCount) :
    Code.Wp (getcwdMove p len) k Allowed fun _ k' => Rest k k' ∧ Acc c d k' := by
  unfold getcwdMove
  split
  · exact Code.Wp.pure ⟨.refl k, ha⟩
  split
  · exact Code.Wp.pure ⟨.refl k, ha⟩
  refine Code.Wp.bind (Q := fun _ k' => Rest k k' ∧ Acc c d k') ?_ fun _ _ h => Code.Wp.pure h
  unfold vopNamefile
  refine (vopOp_wp hn (ha.ordered hn) .vopNamefile).bind ?_
  rintro _ _ ⟨rfl, rfl⟩
  split
  · exact sfsNamefile_wp ha hn hpos
  · exact .of_error rfl id

theorem vfsGetcwd_wp {len : ℕ} (hc : ∀ q, 0 ≤ c q) (ha : Acc c d k) :
    Code.Wp (vfsGetcwd cur len) k Allowed fun _ k' => Rest k k' ∧ Acc c d k' := by
  unfold vfsGetcwd
  refine (vfsGetCurdir_wp hc ha).bind ?_
  rintro ⟨ret, p⟩ k₁ ⟨hr, ha₁⟩
  dsimp only at ha₁ ⊢
  split
  · rename_i hret
    rw [if_neg hret] at ha₁
    exact Code.Wp.pure ⟨hr, ha₁⟩
  · rename_i hret
    rw [if_pos (not_not.mp hret)] at ha₁
    obtain ⟨n, hn, hpos⟩ := ha₁.alive_of_backed (ha.backed hr)
    refine .bind_of (deref_eq hn) ?_
    split
    · exact .of_error rfl id
    · refine (getcwdMove_wp ha₁ hn hpos).bind ?_
      rintro r k₂ ⟨hr₂, ha₂⟩
      have hr₂ := hr.trans hr₂
      refine (inodeRefDec_wp ha₂ (ha.backed hr₂)).bind ?_
      rintro - k₃ ⟨hr₃, ha₃⟩
      exact Code.Wp.pure ⟨hr₂.trans hr₃, by simpa using ha₃⟩

end Cwd

end UCore.Vfs

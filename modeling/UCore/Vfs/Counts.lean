import Mathlib.Algebra.Order.BigOperators.Group.Finset
import UCore.Library.Counting
import UCore.Vfs.File

/-! # Holders of inodes

Who holds the references of an inode: the entries of the tables of open files, the working
directories, the boot file system and the devices, and the running call. What the running call
holds is a credit, one for references and one for opens.
-/

namespace UCore.Vfs

open Library Sfs

namespace Kernel

variable (k : Kernel) (p : ℕ)

def refOf : ℤ :=
  match k.inode p with
  | some n => n.refCount
  | none => 0

def openOf : ℤ :=
  match k.inode p with
  | some n => n.openCount
  | none => 0

end Kernel

def File.holds (file : File) (p : ℕ) : ℕ :=
  if (file.status = .opened ∨ file.status = .closed) ∧ file.node = some p then 1 else 0

def Files.holds (t : Option Files) (p : ℕ) : ℕ :=
  match t with
  | some t => ∑ fd ∈ Finset.range filesStructNentry, (t.fdArray fd).holds p
  | none => 0

def Files.inPwd (t : Option Files) (p : ℕ) : ℕ :=
  match t with
  | some t => if t.pwd = some p then 1 else 0
  | none => 0

namespace Kernel

variable (k : Kernel) (p : ℕ)

/-- The number of entries that hold the inode. -/
def opens : ℕ := ∑ f ∈ Finset.range k.fbrk, Files.holds (k.files f) p

/-- The number of working directories that are the inode. -/
def pwds : ℕ := ∑ f ∈ Finset.range k.fbrk, Files.inPwd (k.files f) p

/-- The boot file system and the devices that hold the inode. -/
def roots : ℕ :=
  (if k.bootfs = some p then 1 else 0) + (if k.devnode .stdin = p then 1 else 0) +
    if k.devnode .stdout = p then 1 else 0

end Kernel

/-- The inodes in memory, their addresses and the hash list belong together. -/
structure Coherent (k : Kernel) : Prop where
  brk : ∀ p, k.brk ≤ p → k.inode p = none
  fbrk : ∀ f, k.fbrk ≤ f → k.files f = none
  reclaim : ∀ p n, k.inode p = some n → n.reclaimCount = if n.refCount = 0 then 0 else 1
  sfs : ∀ p n ino, k.inode p = some n → n.info = .sfs ino → k.hash ino = some p
  hash : ∀ ino p, k.hash ino = some p → ∃ n, k.inode p = some n ∧ n.info = .sfs ino

/-- The counts of the inodes are those of their holders, with the credits `c` and `d` of the running
call for references and opens. -/
structure Acc (c d : ℕ → ℤ) (k : Kernel) : Prop where
  coherent : Coherent k
  opens : ∀ p, k.openOf p = k.opens p + d p
  refs : ∀ p, k.refOf p = k.openOf p + (k.pwds p + k.roots p) + c p
  openOf_nonneg : ∀ p, 0 ≤ k.openOf p
  base_nonneg : ∀ p, 0 ≤ k.pwds p + k.roots p + c p

/-- A credit with `e` more for the inode `p`. -/
def more (c : ℕ → ℤ) (p : ℕ) (e : ℤ) : ℕ → ℤ := fun q => if q = p then c q + e else c q

section More

variable {c : ℕ → ℤ} {p q : ℕ} {e e' : ℤ}

@[simp] theorem more_self : more c p e p = c p + e := if_pos rfl

theorem more_ne (h : q ≠ p) : more c p e q = c q := if_neg h

@[simp] theorem more_zero : more c p 0 = c := by
  ext q
  unfold more
  split <;> omega

@[simp] theorem more_more : more (more c p e) p e' = more c p (e + e') := by
  ext q
  by_cases h : q = p
  · subst h
    rw [more_self, more_self, more_self, add_assoc]
  · rw [more_ne h, more_ne h, more_ne h]

theorem more_comm : more (more c p e) q e' = more (more c q e') p e := by
  ext r
  unfold more
  split <;> split <;> omega

end More

/-- The assertions about the counts and about the entries of the tables, and the accesses to freed
inodes. -/
def Panic.Counts : Panic → Prop
  | .dangling | .inodeOrder | .refCount | .openCount | .inodeKill | .reclaimCount => True
  | .noNode | .fdAlloc | .fdFree | .fdAcquire | .fdRelease | .fdOpen | .fdClose | .fdDup
  | .filesDestroy => True
  | _ => False

/-- Everything but the volume, the memory and the input is as it was. -/
structure Quiet (k k' : Kernel) : Prop where
  inode : k'.inode = k.inode
  brk : k'.brk = k.brk
  hash : k'.hash = k.hash
  bootfs : k'.bootfs = k.bootfs
  devnode : k'.devnode = k.devnode
  files : k'.files = k.files
  fbrk : k'.fbrk = k.fbrk

/-- The tables of open files, the boot file system and the devices are as they were. -/
structure Rest (k k' : Kernel) : Prop where
  bootfs : k'.bootfs = k.bootfs
  devnode : k'.devnode = k.devnode
  files : k'.files = k.files
  fbrk : k'.fbrk = k.fbrk

namespace Rest

variable {k k' k'' : Kernel} {p : ℕ}

theorem refl (k : Kernel) : Rest k k := ⟨rfl, rfl, rfl, rfl⟩

theorem trans (h : Rest k k') (h' : Rest k' k'') : Rest k k'' :=
  ⟨h'.bootfs.trans h.bootfs, h'.devnode.trans h.devnode, h'.files.trans h.files,
    h'.fbrk.trans h.fbrk⟩

theorem opens (h : Rest k k') : k'.opens p = k.opens p := by
  unfold Kernel.opens
  rw [h.fbrk, h.files]

theorem pwds (h : Rest k k') : k'.pwds p = k.pwds p := by
  unfold Kernel.pwds
  rw [h.fbrk, h.files]

theorem roots (h : Rest k k') : k'.roots p = k.roots p := by
  unfold Kernel.roots
  rw [h.bootfs, h.devnode]

end Rest

namespace Quiet

variable {k k' k'' : Kernel} {c d : ℕ → ℤ}

theorem refl (k : Kernel) : Quiet k k := ⟨rfl, rfl, rfl, rfl, rfl, rfl, rfl⟩

theorem trans (h : Quiet k k') (h' : Quiet k' k'') : Quiet k k'' where
  inode := h'.inode.trans h.inode
  brk := h'.brk.trans h.brk
  hash := h'.hash.trans h.hash
  bootfs := h'.bootfs.trans h.bootfs
  devnode := h'.devnode.trans h.devnode
  files := h'.files.trans h.files
  fbrk := h'.fbrk.trans h.fbrk

theorem rest (h : Quiet k k') : Rest k k' := ⟨h.bootfs, h.devnode, h.files, h.fbrk⟩

theorem refOf (h : Quiet k k') (p : ℕ) : k'.refOf p = k.refOf p := by
  unfold Kernel.refOf
  rw [h.inode]

theorem openOf (h : Quiet k k') (p : ℕ) : k'.openOf p = k.openOf p := by
  unfold Kernel.openOf
  rw [h.inode]

theorem acc (h : Quiet k k') (ha : Acc c d k) : Acc c d k' where
  coherent := by
    have hc := ha.coherent
    refine ⟨?_, ?_, ?_, ?_, ?_⟩
    · rw [h.brk, h.inode]
      exact hc.brk
    · rw [h.fbrk, h.files]
      exact hc.fbrk
    · rw [h.inode]
      exact hc.reclaim
    · rw [h.inode, h.hash]
      exact hc.sfs
    · rw [h.inode, h.hash]
      exact hc.hash
  opens p := by
    rw [h.openOf, h.rest.opens]
    exact ha.opens p
  refs p := by
    rw [h.refOf, h.openOf, h.rest.pwds, h.rest.roots]
    exact ha.refs p
  openOf_nonneg p := by
    rw [h.openOf]
    exact ha.openOf_nonneg p
  base_nonneg p := by
    rw [h.rest.pwds, h.rest.roots]
    exact ha.base_nonneg p

end Quiet

section Holders

variable {k : Kernel} {f p : ℕ} {t : Files}

theorem Coherent.files_lt (h : Coherent k) (hf : k.files f = some t) : f < k.fbrk := by
  by_contra hge
  rw [h.fbrk f (by omega)] at hf
  cases hf

theorem pwds_pos (h : Coherent k) (hf : k.files f = some t) (hp : t.pwd = some p) :
    1 ≤ k.pwds p := by
  have hle :=
    Finset.single_le_sum (f := fun f => Files.inPwd (k.files f) p) (fun _ _ => Nat.zero_le _)
    (Finset.mem_range.mpr (h.files_lt hf))
  refine le_trans ?_ hle
  rw [hf]
  unfold Files.inPwd
  dsimp only
  rw [if_pos hp]

theorem opens_pos {fd : ℕ} (h : Coherent k) (hf : k.files f = some t) (hfd : fd < filesStructNentry)
    (hp : (t.fdArray fd).holds p = 1) : 1 ≤ k.opens p := by
  have hle :=
    Finset.single_le_sum (f := fun f => Files.holds (k.files f) p) (fun _ _ => Nat.zero_le _)
    (Finset.mem_range.mpr (h.files_lt hf))
  refine le_trans ?_ hle
  rw [hf, ← hp]
  exact Finset.single_le_sum (f := fun fd => (t.fdArray fd).holds p) (fun _ _ => Nat.zero_le _)
    (Finset.mem_range.mpr hfd)

theorem roots_pos (h : k.bootfs = some p ∨ ∃ d, k.devnode d = p) : 1 ≤ k.roots p := by
  unfold Kernel.roots
  rcases h with h | ⟨d, h⟩
  · rw [if_pos h]
    omega
  · cases d with
    | stdin =>
      rw [if_pos h]
      omega
    | stdout =>
      rw [if_pos h]
      omega

end Holders

section Inode

variable {k : Kernel} {c d : ℕ → ℤ} {p : ℕ} {n n' : Inode}

theorem refOf_eq (h : k.inode p = some n) : k.refOf p = n.refCount := by
  unfold Kernel.refOf
  rw [h]

theorem openOf_eq (h : k.inode p = some n) : k.openOf p = n.openCount := by
  unfold Kernel.openOf
  rw [h]

theorem setInode_inode : (k.setInode p (some n)).inode p = some n := Function.update_self ..

theorem setInode_inode_ne {o : Option Inode} {q : ℕ} (h : q ≠ p) :
    (k.setInode p o).inode q = k.inode q := Function.update_of_ne h ..

theorem setInode_refOf_ne {o : Option Inode} {q : ℕ} (h : q ≠ p) :
    (k.setInode p o).refOf q = k.refOf q := by
  unfold Kernel.refOf
  rw [setInode_inode_ne h]

theorem setInode_openOf_ne {o : Option Inode} {q : ℕ} (h : q ≠ p) :
    (k.setInode p o).openOf q = k.openOf q := by
  unfold Kernel.openOf
  rw [setInode_inode_ne h]

theorem setInode_rest {o : Option Inode} : Rest k (k.setInode p o) := ⟨rfl, rfl, rfl, rfl⟩

theorem setInode_setInode {o o' : Option Inode} :
    (k.setInode p o).setInode p o' = k.setInode p o' := by
  unfold Kernel.setInode
  rw [Function.update_idem]

theorem Acc.alive (h : Acc c d k) (hp : 0 < k.openOf p + (k.pwds p + k.roots p) + c p) :
    ∃ n, k.inode p = some n ∧ 0 < n.refCount := by
  rw [← h.refs] at hp
  cases hn : k.inode p with
  | none =>
    unfold Kernel.refOf at hp
    rw [hn] at hp
    exact absurd hp (by decide)
  | some n =>
    rw [refOf_eq hn] at hp
    exact ⟨n, rfl, hp⟩

/-- The order of the counts that `inode_check` asserts. -/
def Inode.Ordered (n : Inode) : Prop := n.openCount ≤ n.refCount ∧ 0 ≤ n.openCount

theorem Acc.ordered (h : Acc c d k) (hn : k.inode p = some n) : n.Ordered := by
  have h₁ := h.refs p
  have h₂ := h.base_nonneg p
  have h₃ := h.openOf_nonneg p
  rw [refOf_eq hn, openOf_eq hn] at h₁
  rw [openOf_eq hn] at h₃
  exact ⟨by omega, h₃⟩

/-- The counts of one inode change, and the credits with them. -/
theorem Acc.setInode (h : Acc c d k) (hn : k.inode p = some n) (n' : Inode) (e e' : ℤ)
    (hinfo : n'.info = n.info)
    (hreclaim : n'.reclaimCount = if n'.refCount = 0 then 0 else 1)
    (hopen : n'.openCount = n.openCount + e') (href : n'.refCount = n.refCount + e' + e)
    (h₀ : 0 ≤ n.openCount + e') (h₁ : 0 ≤ k.pwds p + k.roots p + c p + e) :
    Acc (more c p e) (more d p e') (k.setInode p (some n')) := by
  have hr : Rest k (k.setInode p (some n')) := setInode_rest
  have hp : p < k.brk := by
    by_contra hge
    rw [h.coherent.brk p (by omega)] at hn
    cases hn
  refine ⟨⟨?_, ?_, ?_, ?_, ?_⟩, ?_, ?_, ?_, ?_⟩
  · intro q hq
    have hne : q ≠ p := by
      rintro rfl
      exact absurd hq (not_le.mpr hp)
    rw [setInode_inode_ne hne]
    exact h.coherent.brk q hq
  · exact h.coherent.fbrk
  · intro q m hm
    by_cases hq : q = p
    · subst hq
      rw [setInode_inode] at hm
      obtain rfl := Option.some.inj hm
      exact hreclaim
    · rw [setInode_inode_ne hq] at hm
      exact h.coherent.reclaim q m hm
  · intro q m ino hm hi
    by_cases hq : q = p
    · subst hq
      rw [setInode_inode] at hm
      obtain rfl := Option.some.inj hm
      rw [hinfo] at hi
      exact h.coherent.sfs q n ino hn hi
    · rw [setInode_inode_ne hq] at hm
      exact h.coherent.sfs q m ino hm hi
  · intro ino q hq
    obtain ⟨m, hm, hi⟩ := h.coherent.hash ino q hq
    by_cases he : q = p
    · subst he
      rw [hn] at hm
      obtain rfl := Option.some.inj hm
      exact ⟨n', setInode_inode, hinfo.trans hi⟩
    · exact ⟨m, (setInode_inode_ne he).trans hm, hi⟩
  all_goals intro q
  all_goals
    by_cases hq : q = p
    · subst hq
      have h₂ := h.opens q
      have h₃ := h.refs q
      rw [openOf_eq hn] at h₂ h₃
      rw [refOf_eq hn] at h₃
      simp only [hr.opens, hr.pwds, hr.roots, refOf_eq setInode_inode, openOf_eq setInode_inode,
        more_self]
      omega
    · have h₂ := h.opens q
      have h₃ := h.refs q
      have h₄ := h.openOf_nonneg q
      have h₅ := h.base_nonneg q
      simp only [hr.opens, hr.pwds, hr.roots, setInode_refOf_ne hq, setInode_openOf_ne hq,
        more_ne hq]
      omega

/-- An inode that nobody holds is freed. -/
theorem Acc.kill {k' : Kernel} {ino : ℕ} (h : Acc c d k) (hn : k.inode p = some n)
    (hi : n.info = .sfs ino) (href : n.refCount = 0) (hopen : n.openCount = 0) (hr : Rest k k')
    (hbrk : k'.brk = k.brk) (hinode : k'.inode = Function.update k.inode p none)
    (hhash : k'.hash = Function.update k.hash ino none) : Acc c d k' := by
  have hne : ∀ {q m}, k'.inode q = some m → q ≠ p ∧ k.inode q = some m := by
    intro q m hm
    rw [hinode] at hm
    by_cases hq : q = p
    · subst hq
      rw [Function.update_self] at hm
      cases hm
    · rw [Function.update_of_ne hq] at hm
      exact ⟨hq, hm⟩
  have hlink := h.coherent.sfs p n ino hn hi
  refine ⟨⟨?_, ?_, ?_, ?_, ?_⟩, ?_, ?_, ?_, ?_⟩
  · intro q hq
    cases hm : k'.inode q with
    | none => rfl
    | some m =>
      rw [hbrk] at hq
      exact (h.coherent.brk q hq).symm.trans (hne hm).2 |>.symm
  · rw [hr.fbrk, hr.files]
    exact h.coherent.fbrk
  · intro q m hm
    exact h.coherent.reclaim q m (hne hm).2
  · intro q m j hm hj
    have hh := h.coherent.sfs q m j (hne hm).2 hj
    rw [hhash, Function.update_of_ne ?_]
    · exact hh
    · rintro rfl
      rw [hlink] at hh
      exact (hne hm).1 (Option.some.inj hh).symm
  · intro j q hq
    rw [hhash] at hq
    by_cases hj : j = ino
    · subst hj
      rw [Function.update_self] at hq
      cases hq
    · rw [Function.update_of_ne hj] at hq
      obtain ⟨m, hm, hmi⟩ := h.coherent.hash j q hq
      refine ⟨m, ?_, hmi⟩
      rw [hinode, Function.update_of_ne ?_]
      · exact hm
      · rintro rfl
        rw [hn] at hm
        obtain rfl := Option.some.inj hm
        rw [hi] at hmi
        exact hj (Info.sfs.inj hmi).symm
  all_goals
    intro q
    have h₁ : k'.refOf q = k.refOf q ∧ k'.openOf q = k.openOf q := by
      unfold Kernel.refOf Kernel.openOf
      rw [hinode]
      by_cases hq : q = p
      · subst hq
        rw [Function.update_self, hn]
        exact ⟨href.symm, hopen.symm⟩
      · rw [Function.update_of_ne hq]
        exact ⟨rfl, rfl⟩
    simp only [h₁.1, h₁.2, hr.opens, hr.pwds, hr.roots]
  · exact h.opens q
  · exact h.refs q
  · exact h.openOf_nonneg q
  · exact h.base_nonneg q

/-- A new inode, with a credit for it. -/
theorem Acc.load {k' : Kernel} {ino : ℕ} {ops : Ops} (h : Acc c d k) (hno : k.hash ino = none)
    (hr : Rest k k') (hbrk : k'.brk = k.brk + 1)
    (hinode : k'.inode = Function.update k.inode k.brk (some ⟨.sfs ino, ops, 1, 0, 1⟩))
    (hhash : k'.hash = Function.update k.hash ino (some k.brk)) :
    Acc (more c k.brk 1) d k' := by
  have hnone := h.coherent.brk k.brk le_rfl
  have hne : ∀ {q m}, k.inode q = some m → q ≠ k.brk := by
    rintro q m hm rfl
    rw [hnone] at hm
    cases hm
  refine ⟨⟨?_, ?_, ?_, ?_, ?_⟩, ?_, ?_, ?_, ?_⟩
  · intro q hq
    rw [hbrk] at hq
    rw [hinode, Function.update_of_ne (by omega)]
    exact h.coherent.brk q (by omega)
  · rw [hr.fbrk, hr.files]
    exact h.coherent.fbrk
  · intro q m hm
    rw [hinode] at hm
    by_cases hq : q = k.brk
    · subst hq
      rw [Function.update_self] at hm
      obtain rfl := Option.some.inj hm
      rfl
    · rw [Function.update_of_ne hq] at hm
      exact h.coherent.reclaim q m hm
  · intro q m j hm hj
    rw [hinode] at hm
    by_cases hq : q = k.brk
    · subst hq
      rw [Function.update_self] at hm
      obtain rfl := Option.some.inj hm
      obtain rfl := Info.sfs.inj hj
      rw [hhash, Function.update_self]
    · rw [Function.update_of_ne hq] at hm
      have hh := h.coherent.sfs q m j hm hj
      rw [hhash, Function.update_of_ne ?_]
      · exact hh
      · rintro rfl
        rw [hno] at hh
        cases hh
  · intro j q hq
    rw [hhash] at hq
    by_cases hj : j = ino
    · subst hj
      rw [Function.update_self] at hq
      obtain rfl := Option.some.inj hq
      exact ⟨_, by rw [hinode, Function.update_self], rfl⟩
    · rw [Function.update_of_ne hj] at hq
      obtain ⟨m, hm, hmi⟩ := h.coherent.hash j q hq
      exact ⟨m, by rw [hinode, Function.update_of_ne (hne hm)]; exact hm, hmi⟩
  all_goals
    intro q
    have h₁ := h.opens q
    have h₂ := h.refs q
    have h₃ := h.openOf_nonneg q
    have h₄ := h.base_nonneg q
    have h₅ : k'.openOf q = k.openOf q ∧ k'.refOf q = k.refOf q + if q = k.brk then 1 else 0 := by
      unfold Kernel.refOf Kernel.openOf
      rw [hinode]
      by_cases hq : q = k.brk
      · subst hq
        rw [Function.update_self, hnone, if_pos rfl]
        exact ⟨rfl, rfl⟩
      · rw [Function.update_of_ne hq, if_neg hq]
        exact ⟨rfl, (add_zero _).symm⟩
  · rw [h₅.1, hr.opens]
    exact h₁
  · rw [h₅.1, h₅.2, hr.pwds, hr.roots]
    unfold more
    split <;> omega
  · rw [h₅.1]
    exact h₃
  · rw [hr.pwds, hr.roots]
    unfold more
    split <;> omega

end Inode

end UCore.Vfs

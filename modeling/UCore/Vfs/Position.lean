import UCore.Vfs.Reading

/-! # The position of a descriptor

A `file_read` of an open descriptor of a regular file returns the bytes from its position on and
moves the position behind them.
-/

namespace UCore.Vfs

open Library Sfs

/-- The descriptor `fd` of the table `cur` is on the calm file `ino`, which is at `p`, at the
position `pos`. -/
structure Opened (ino p : ℕ) (f : Sfs.File) (fm : ℕ → Bool) (cur : ℕ) (fd : ℤ) (pos : ℕ)
    (k : Kernel) : Prop where
  calm : Calm ino f fm k.fs
  reliable : k.fs.Reliable
  size : f.size ≤ f.blocks * sfsBlksize
  range : 0 ≤ fd ∧ fd < filesStructNentry
  width : pos < 2 ^ 63
  node : ∃ n, k.inode p = some n ∧ n.info = .sfs ino ∧ n.ops = .file ∧ n.Ordered ∧
    n.refCount < maxInodeCount ∧ n.openCount < maxInodeCount
  entry : ∃ t, k.files cur = some t ∧ (t.fdArray fd.toNat).status = .opened ∧
    0 < (t.fdArray fd.toNat).openCount ∧ (t.fdArray fd.toNat).node = some p ∧
    (t.fdArray fd.toNat).pos = pos

def fileTestfd (cur : ℕ) (fd : ℤ) (readable writable : Bool) : Prog Bool := do
  let (ret, fd) ← fd2file cur fd
  if ret ≠ 0 then return false
  else
    let file ← fileAt cur fd
    if readable = true ∧ file.readable = false then return false
    else if writable = true ∧ file.writable = false then return false
    else return true

section Descriptor

variable {k : Kernel} {ino p cur len pos : ℕ} {fd : ℤ} {f : Sfs.File} {fm : ℕ → Bool}

/-- The mode of the descriptor lets the process read. -/
def Kernel.readable (k : Kernel) (cur : ℕ) (fd : ℤ) : Bool :=
  match k.files cur with
  | some t => (t.fdArray fd.toNat).readable
  | none => false

/-- The position of the descriptor. -/
def Kernel.position (k : Kernel) (cur : ℕ) (fd : ℤ) : ℤ :=
  match k.files cur with
  | some t => (t.fdArray fd.toNat).pos
  | none => 0

theorem Opened.position (h : Opened ino p f fm cur fd pos k) : k.position cur fd = pos := by
  obtain ⟨t, ht, -, -, -, hx⟩ := h.entry
  unfold Kernel.position
  rw [ht]
  exact hx

theorem Opened.fd2file (h : Opened ino p f fm cur fd pos k) :
    fd2file cur fd k = .ok ((0, fd.toNat), k) := by
  obtain ⟨t, ht, hs, -⟩ := h.entry
  refine Eq.trans (Code.bind_ok (filesAt_eq ht)) ?_
  rw [if_pos ⟨h.range.1, h.range.2, hs⟩]
  rfl

theorem Opened.testfd (h : Opened ino p f fm cur fd pos k) :
    fileTestfd cur fd true false k = .ok (k.readable cur fd, k) := by
  obtain ⟨t, ht, -⟩ := h.entry
  refine Eq.trans (Code.bind_ok h.fd2file) ?_
  dsimp only
  rw [if_neg (by simp)]
  refine Eq.trans (Code.bind_ok (fileAt_eq ht)) ?_
  unfold Kernel.readable
  rw [ht]
  dsimp only
  cases (t.fdArray fd.toNat).readable <;> rfl

/-- A read moves the position by the bytes that it returns, and these are the bytes of the file. -/
theorem Opened.read (buf : Buf) (h : Opened ino p f fm cur fd pos k)
    (hr : k.readable cur fd = true) (hlen : len ≤ sfsBlksize) : ∃ ret n buf' k',
      fileRead cur fd buf len k = .ok ((ret, n, buf'), k') ∧
      Opened ino p f fm cur fd (pos + n) k' ∧ k'.readable cur fd = true ∧
      n = min len (f.size - pos) ∧ (ret = 0 ∨ n = 0 ∧ ret < 0) ∧
      ∀ i < n, buf' i = f.byte (pos + i) := by
  obtain ⟨t, ht, hs, hpos, hp, hx⟩ := h.entry
  obtain ⟨m, hm, hi, hops, ho, hl⟩ := h.node
  have hreadable : (t.fdArray fd.toNat).readable = true := by
    unfold Kernel.readable at hr
    rwa [ht] at hr
  obtain ⟨ret, n, buf', u, hio, hcalm, hrel, hn, hret, hbytes⟩ := h.calm.io buf pos h.reliable
    h.size hlen
  -- the kernel while the file is acquired
  obtain ⟨file, hfile⟩ : ∃ file : File, file = { t.fdArray fd.toNat with
    openCount := (t.fdArray fd.toNat).openCount + 1 } := ⟨_, rfl⟩
  obtain ⟨k₁, hk₁⟩ : ∃ k₁, k₁ = k.setFiles cur (some (t.set fd.toNat file)) := ⟨_, rfl⟩
  have ht₁ : k₁.files cur = some (t.set fd.toNat file) := by rw [hk₁, setFiles_files]
  have hget : (t.set fd.toNat file).fdArray fd.toNat = file := Function.update_self ..
  have hacquire : fdArrayAcquire cur fd.toNat k = .ok ((), k₁) := by
    refine Eq.trans (Code.bind_ok (fileAt_eq ht)) (Eq.trans (Code.assert_bind hs) ?_)
    rw [setFile_eq ht, hk₁, hfile]
  -- the kernel after the transfer, and with the new position
  obtain ⟨k₂, hk₂⟩ : ∃ k₂, k₂ = k₁.setFs u := ⟨_, rfl⟩
  have ht₂ : k₂.files cur = some (t.set fd.toNat file) := by
    rw [hk₂]
    exact ht₁
  have hsize := h.calm.size_le h.size
  have hwidth := h.width
  have hoff : offT (file.pos + n) = (pos + n : ℕ) := by
    rw [hfile]
    dsimp only
    rw [hx]
    exact offT_eq (by omega) (by omega)
  obtain ⟨file', hfile'⟩ : ∃ file' : File, file' = { file with pos := ((pos + n : ℕ) : ℤ) } :=
    ⟨_, rfl⟩
  obtain ⟨k₃, hk₃⟩ : ∃ k₃, k₃ = k₂.setFiles cur
    (some ((t.set fd.toNat file).set fd.toNat file')) := ⟨_, rfl⟩
  have hread : vopRead p buf len file.pos k₁ = .ok ((ret, n, buf'), k₂) := by
    have hm₁ : k₁.inode p = some m := by
      rw [hk₁]
      exact hm
    have hio₁ : sfsIoNolock ino buf file.pos len false k₁.fs = .ok ((ret, n, buf'), u) := by
      have hpos₁ : file.pos = pos := by rw [hfile, hx]
      rw [hpos₁, hk₁]
      exact hio
    have hvol : volume (sfsIoNolock ino buf file.pos len false) k₁ = .ok ((ret, n, buf'), k₂) := by
      unfold volume
      rw [hio₁, hk₂]
    refine Eq.trans (Code.bind_ok (vopOp_eq hm₁ (by rw [hops]; rfl) ho hl)) ?_
    rw [hi]
    refine Eq.trans (Code.bind_ok hvol) ?_
    exact Eq.trans (Code.assert_bind (by omega)) rfl
  have hnode : nodeOf file k₁ = .ok (p, k₁) := by
    unfold nodeOf
    rw [hfile]
    dsimp only
    rw [hp]
    rfl
  have hstatus : file.status = .opened := by rw [hfile, hs]
  have hadvance : advance cur fd.toNat n k₂ = .ok ((), k₃) := by
    refine Eq.trans (Code.bind_ok (fileAt_eq ht₂)) ?_
    rw [hget, if_pos hstatus, setFile_eq ht₂, hk₃, hoff, hfile']
  have hbody : readBody cur fd.toNat buf len k₁ = .ok ((ret, n, buf'), k₃) := by
    refine Eq.trans (Code.bind_ok (fileAt_eq ht₁)) ?_
    rw [hget]
    refine Eq.trans (Code.bind_ok hnode) (Eq.trans (Code.bind_ok hread) ?_)
    exact Eq.trans (Code.bind_ok hadvance) rfl
  -- the kernel after the release
  have ht₃ : k₃.files cur = some ((t.set fd.toNat file).set fd.toNat file') := by
    rw [hk₃, setFiles_files]
  have hget' : ((t.set fd.toNat file).set fd.toNat file').fdArray fd.toNat = file' :=
    Function.update_self ..
  obtain ⟨last, hlast⟩ : ∃ last : File, last =
    { file' with openCount := file'.openCount - 1 } := ⟨_, rfl⟩
  obtain ⟨k₄, hk₄⟩ : ∃ k₄, k₄ = k₃.setFiles cur
    (some (((t.set fd.toNat file).set fd.toNat file').set fd.toNat last)) := ⟨_, rfl⟩
  have hcount : file'.openCount = (t.fdArray fd.toNat).openCount + 1 := by rw [hfile', hfile]
  have hrelease : fdArrayRelease cur fd.toNat k₃ = .ok ((), k₄) := by
    refine Eq.trans (Code.bind_ok (fileAt_eq ht₃)) ?_
    rw [hget']
    refine Eq.trans (Code.assert_bind (.inl (by rw [hfile']; exact hstatus))) ?_
    refine Eq.trans (Code.assert_bind (by omega)) ?_
    refine Eq.trans (Code.bind_ok (setFile_eq ht₃)) ?_
    rw [if_neg (by omega), hk₄, hlast]
    rfl
  have hentry :
    (((t.set fd.toNat file).set fd.toNat file').set fd.toNat last).fdArray fd.toNat = last :=
    Function.update_self ..
  have ht₄ : k₄.files cur =
    some (((t.set fd.toNat file).set fd.toNat file').set fd.toNat last) := by
    rw [hk₄, setFiles_files]
  have hfs₄ : k₄.fs = u := by
    rw [hk₄, hk₃, hk₂]
    rfl
  refine ⟨ret, n, buf', k₄, ?_, ?_, ?_, hn, hret, hbytes⟩
  · refine Eq.trans (Code.bind_ok h.fd2file) ?_
    dsimp only
    rw [if_neg (by simp)]
    refine Eq.trans (Code.bind_ok (fileAt_eq ht)) ?_
    rw [if_neg (by rw [hreadable]; simp)]
    refine Eq.trans (Code.bind_ok hacquire) (Eq.trans (Code.bind_ok hbody) ?_)
    exact Eq.trans (Code.bind_ok hrelease) rfl
  · refine ⟨by rw [hfs₄]; exact hcalm, by rw [hfs₄]; exact hrel, h.size, h.range, by omega,
      ⟨m, ?_, hi, hops, ho, hl⟩, _, ht₄, ?_⟩
    · rw [hk₄, hk₃, hk₂, hk₁]
      exact hm
    · rw [hentry, hlast]
      dsimp only
      rw [hcount, hfile', hfile]
      exact ⟨hs, by omega, hp, rfl⟩
  · unfold Kernel.readable
    rw [ht₄]
    dsimp only
    rw [hentry, hlast, hfile', hfile]
    exact hreadable

end Descriptor

end UCore.Vfs

import UCore.Sfs.Bytes
import UCore.Sfs.Durable
import UCore.Sfs.Io
import UCore.Vfs.Contents

/-! # Reading a file

A descriptor through which nobody writes is read, moved, duplicated, written back and closed. None
of this changes the file or the freemap, unless a seek goes past the end of the file.
-/

namespace UCore.Vfs

open Library Sfs

/-- The regular file `ino` of a consistent volume is the file `f`, with the freemap `fm`. Its record
fits into its bytes, and it is the one on the device unless it is dirty. -/
structure Calm (ino : ℕ) (f : Sfs.File) (fm : ℕ → Bool) (s : Fs) : Prop where
  wf : ∃ O I, Wf s O I ∧ ino ∈ I ∧ O ino = .system
  file : s.file ino = f
  freemap : s.freemap = fm
  type : (s.din ino).type = sfsTypeFile
  links : (s.din ino).nlinks ≠ 0
  fits : diskInode (s.din ino).bytes = s.din ino
  saved : (s.sin ino).dirty = false → diskInode (s.disk ino) = s.din ino

section Volume

variable {s t : Fs} {ino len : ℕ} {f : Sfs.File} {fm : ℕ → Bool} {buf : Buf} {offset pos : ℤ}

/-- A read that stays within the blocks of the file. -/
theorem Calm.read (h : Calm ino f fm s) (hf : f.size ≤ f.blocks * sfsBlksize) :
    Code.Wp (sfsIoNolock ino buf offset len false) s (fun _ => True) fun _ t =>
    Calm ino f fm t := by
  obtain ⟨O, I, hwf, hino, hsys⟩ := h.wf
  have hsize : (s.din ino).size ≤ (s.din ino).blocks * sfsBlksize := by
    rw [← h.file] at hf
    exact hf
  have hdir : (s.din ino).type ≠ sfsTypeDir := by
    rw [h.type]
    decide
  refine (hwf.io_wp hino hdir).mono (fun _ _ => trivial) ?_
  rintro r t (_ | _ | ⟨-, hlt, hm⟩)
  · exact h
  · exact h
  rename_i ret m buf' t O'
  have hend : s.ioEnd ino offset len false ≤ (s.din ino).size := min_le_right _ _
  have hle := hm.le
  obtain ⟨hfree, -, hsin⟩ := hm.within (by omega)
  have hdin : t.din ino = s.din ino := congrArg Sin.din hsin
  have hcover : t.cover ino offset.toNat m = t := by
    unfold Fs.cover
    rw [if_neg]
    rw [hdin]
    omega
  rw [hcover]
  obtain ⟨ho, hdisk⟩ := hm.works.keep ino (by rw [hsys]; trivial)
  have hbyte : t.byte ino = s.byte ino := by
    have hx := congrArg Prod.fst hm.bytes
    simpa [xfer] using hx
  refine ⟨⟨O', I, hm.works.wf, hino, ho.trans hsys⟩, ?_, hfree.trans h.freemap, ?_, ?_, ?_, ?_⟩
  · rw [← h.file]
    unfold Fs.file
    rw [hdin, hbyte]
  · rw [hdin]
    exact h.type
  · rw [hdin]
    exact h.links
  · rw [hdin]
    exact h.fits
  · rw [hsin, hdin, hdisk]
    exact h.saved

/-- On a device whose transfers succeed, a read returns the bytes from the position on as far as the
file reaches. -/
theorem Calm.io (buf : Buf) (pos : ℕ) (h : Calm ino f fm s) (hrel : s.Reliable)
    (hf : f.size ≤ f.blocks * sfsBlksize) (hlen : len ≤ sfsBlksize) : ∃ ret n buf' t,
      sfsIoNolock ino buf pos len false s = .ok ((ret, n, buf'), t) ∧ Calm ino f fm t ∧ t.Reliable ∧
        n = min len (f.size - pos) ∧ (ret = 0 ∨ n = 0 ∧ ret < 0) ∧
          ∀ i < n, buf' i = f.byte (pos + i) := by
  obtain ⟨O, I, hwf, hino, hsys⟩ := h.wf
  have hlt : len < 2 ^ 64 := hlen.trans_lt (by decide)
  have hdir : (s.din ino).type ≠ sfsTypeDir := by
    rw [h.type]
    decide
  have hsize : (s.din ino).size ≤ (s.din ino).blocks * sfsBlksize := by
    rw [← h.file] at hf
    exact hf
  have hdin : (s.din ino).size = f.size := congrArg File.size h.file
  by_cases hr : Refused pos len
  · -- the position lies after every file
    have hrej : IoRejects pos len := (ioRejects_iff hlt).mpr hr
    have hrun : sfsIoNolock ino buf pos len false s = .ok ((-eInval, 0, buf), s) := by
      unfold sfsIoNolock
      refine Eq.trans (Code.assert_bind hdir) (Eq.trans Code.get_bind ?_)
      dsimp only
      rw [if_pos (by exact hrej)]
      rfl
    have hzero : 0 = min len (f.size - pos) := by
      have hmax : sfsMaxFileSize = 134217728 := by decide
      have hreach := Nat.mul_le_mul_right sfsBlksize (hwf.reach ino hino)
      rw [maxBlocks_bytes] at hreach
      have hB : sfsBlksize = 4096 := rfl
      unfold Refused at hr
      rw [hmax] at hr
      omega
    exact ⟨-eInval, 0, buf, s, hrun, h, hrel, hzero, .inr ⟨rfl, by decide⟩,
      fun i hi => absurd hi (Nat.not_lt_zero i)⟩
  · have hread : Code.Wp (sfsIoNolock ino buf pos len false) s _ _ :=
      hwf.read_wp buf hino hdir hrel hsize hlt hr
    cases hrun : sfsIoNolock ino buf pos len false s with
    | error e => exact (hread.error hrun).elim
    | ok r =>
      obtain ⟨r, t⟩ := r
      obtain ⟨rfl, -, O', hw⟩ := hread.ok hrun
      refine ⟨0, _, _, t, rfl, (h.read hf).ok hrun, hw.reliable hrel, by rw [hdin], .inl rfl,
        fun i hi => ?_⟩
      rw [memcpy_start hi]
      exact congrFun (congrArg File.byte h.file) _

theorem Calm.size_le (h : Calm ino f fm s) (hf : f.size ≤ f.blocks * sfsBlksize) :
    f.size ≤ 4243456 := by
  obtain ⟨O, I, hwf, hino, -⟩ := h.wf
  have hreach := Nat.mul_le_mul_right sfsBlksize (hwf.reach ino hino)
  have hblocks : (s.din ino).blocks = f.blocks := congrArg File.blocks h.file
  rw [maxBlocks_bytes, hblocks] at hreach
  exact hf.trans hreach

theorem Calm.kept (h : Calm ino f fm s) (hfree : t.freemap = s.freemap)
    (hunused : t.unusedBlocks = s.unusedBlocks) (hblocks : t.blocks = s.blocks)
    (hnbits : t.nbits = s.nbits)
    (hdin : ∀ j, t.din j = s.din j) (hdisk : ∀ b ≠ ino, t.disk b = s.disk b)
    (hsaved : (t.sin ino).dirty = false → diskInode (t.disk ino) = s.din ino) :
    Calm ino f fm t := by
  obtain ⟨O, I, hwf, hino, hsys⟩ := h.wf
  have hwf' : Wf t O I := by
    refine hwf.same hfree hunused hblocks hnbits (fun j => by rw [hdin]; exact ⟨rfl, rfl⟩) ?_
    intro j hj i hi
    refine slot_congr (by rw [hdin]) (by rw [hdin]) (fun hne x _ => ?_) hi
    rw [hdisk]
    intro he
    have ho := hwf.index j hj hne
    rw [he, hsys] at ho
    cases ho
  refine ⟨⟨O, I, hwf', hino, hsys⟩, ?_, hfree.trans h.freemap, ?_, ?_, ?_, ?_⟩
  · rw [← h.file]
    refine file_kept (hdin ino) fun b hb => hdisk b ?_
    rintro rfl
    exact hwf.apart hino hsys hb
  · rw [hdin]
    exact h.type
  · rw [hdin]
    exact h.links
  · rw [hdin]
    exact h.fits
  · rw [hdin]
    exact hsaved

theorem din_mark {d : Bool} {j : ℕ} :
    (s.setSin ino fun x => { x with dirty := d }).din j = s.din j := by
  by_cases hj : j = ino
  · subst hj
    rw [setSin_din]
    rfl
  · exact setSin_din_ne hj

/-- The inode is written back, or it stays dirty. -/
theorem Calm.fsync (h : Calm ino f fm s) :
    Code.Wp (sfsFsync ino) s (fun _ => True) fun ret t =>
      Calm ino f fm t ∧ (ret = 0 → (t.sin ino).dirty = false) := by
  unfold sfsFsync
  refine Code.Wp.bind_get ?_
  dsimp only
  by_cases hd : (s.sin ino).dirty = true
  swap
  · rw [if_neg hd]
    exact Code.Wp.pure ⟨h, fun _ => by simpa using hd⟩
  rw [if_pos hd]
  refine Code.Wp.bind_modify ?_
  have hmark : ∀ {d : Bool} {u : Fs},
      ((u.setSin ino fun x => { x with dirty := d }).sin ino).dirty = d := by
    intro d u
    rw [setSin_sin]
  refine Code.Wp.bind (Q := fun r t => r.1 ≠ 0 ∧
      (∃ n, t = (s.setSin ino fun x => { x with dirty := false }).later n) ∨
      r.1 = 0 ∧ t = s.writeBack ino) ?_ ?_
  · exact sfsWbuf_wp (fun _ _ => trivial) (fun n _ hn => .inl ⟨hn, n + 1, rfl⟩)
      fun _ _ => .inr ⟨rfl, rfl⟩
  rintro ⟨ret, b⟩ t (⟨hret, n, rfl⟩ | ⟨hret, rfl⟩)
  · dsimp only
    rw [if_pos hret]
    refine Code.Wp.bind_modify (Code.Wp.pure ⟨?_, fun h => absurd h hret⟩)
    refine h.kept rfl rfl rfl rfl (fun j => din_mark.trans din_mark) (fun _ _ => rfl) fun hc => ?_
    rw [hmark] at hc
    cases hc
  · dsimp only
    rw [if_neg (not_not.mpr hret)]
    refine Code.Wp.pure ⟨?_, fun _ => writeBack_clean (.inl rfl)⟩
    refine h.kept rfl rfl rfl rfl (fun j => writeBack_din) (fun b hb =>
      writeBack_disk hb) fun _ => ?_
    rw [← h.fits]
    refine diskInode_congr fun x hx => ?_
    change Function.update s.disk ino _ ino x = _
    rw [Function.update_self, memcpy_start hx, Nat.zero_add]

theorem Calm.forget (h : Calm ino f fm s) (hd : (s.sin ino).dirty = false)
    (hfs : t = Fs.forget s ino) :
    Calm ino f fm t := by
  subst hfs
  have hdin : ∀ j, (Fs.forget s ino).din j = s.din j := by
    intro j
    unfold Fs.forget
    by_cases hj : j = ino
    · subst hj
      rw [setSin_din]
      exact h.saved hd
    · exact setSin_din_ne hj
  exact h.kept rfl rfl rfl rfl hdin (fun _ _ => rfl) fun _ => h.saved hd

end Volume

/-- The inode at `p` is the calm file `ino`, and the entry `fd` of the table `cur` meets `P`. -/
structure Reads (ino p cur fd : ℕ) (P : File → Prop) (f : Sfs.File) (fm : ℕ → Bool) (k : Kernel) :
    Prop where
  calm : Calm ino f fm k.fs
  node : ∀ n, k.inode p = some n → n.info = .sfs ino ∧ n.ops = .file
  entry : ∀ t, k.files cur = some t → P (t.fdArray fd)

section Inode

variable {α : Type} {k : Kernel} {ino p cur fd len : ℕ} {P : File → Prop} {f : Sfs.File}
    {fm : ℕ → Bool}
  {n n' : Inode} {op : Vop} {buf : Buf} {offset pos : ℤ}

theorem Reads.setInode (h : Reads ino p cur fd P f fm k) (hi : n.info = .sfs ino)
    (ho : n.ops = .file) :
    Reads ino p cur fd P f fm (k.setInode p (some n)) := by
  refine ⟨h.calm, fun m hm => ?_, h.entry⟩
  obtain rfl := Option.some.inj (setInode_inode.symm.trans hm)
  exact ⟨hi, ho⟩

theorem Reads.deref (h : Reads ino p cur fd P f fm k) {g : Inode → Prog α} {Q : α → Kernel → Prop}
    (hg : ∀ n, n.info = .sfs ino → n.ops = .file → Code.Wp (g n) k (fun _ => True) Q) :
    Code.Wp (Vfs.deref p >>= g) k (fun _ => True) Q :=
  deref_bind fun n hn => hg n (h.node n hn).1 (h.node n hn).2

theorem Reads.vopOp (h : Reads ino p cur fd P f fm k) {g : Inode → Prog α} {Q : α → Kernel → Prop}
    (hg : ∀ n, n.info = .sfs ino → n.ops = .file → Code.Wp (g n) k (fun _ => True) Q) :
    Code.Wp (Vfs.vopOp p op >>= g) k (fun _ => True) Q :=
  vopOp_bind fun n hn _ => hg n (h.node n hn).1 (h.node n hn).2

theorem Reads.setFs {s : Fs} (h : Reads ino p cur fd P f fm k) (hs : Calm ino f fm s) :
    Reads ino p cur fd P f fm (k.setFs s) := ⟨hs, h.node, h.entry⟩

theorem Reads.weaken {P' : File → Prop} (h : Reads ino p cur fd P f fm k)
    (hP : ∀ file, P file → P' file) :
    Reads ino p cur fd P' f fm k :=
  ⟨h.calm, h.node, fun t ht => hP _ (h.entry t ht)⟩

theorem vopFsync_reads (h : Reads ino p cur fd P f fm k) :
    Code.Wp (vopFsync p) k (fun _ => True) fun ret k' => Reads ino p cur fd P f fm k' ∧
      (ret = 0 → (k'.fs.sin ino).dirty = false) := by
  refine h.vopOp fun n hi _ => ?_
  rw [hi]
  refine (volume_wp h.calm.fsync).mono (fun _ he => he) ?_
  rintro ret _ ⟨t, ⟨ht, hd⟩, rfl⟩
  exact ⟨h.setFs ht, hd⟩

theorem vopTryseek_reads (h : Reads ino p cur fd P f fm k) (hpos : SeekRejects pos ∨ pos ≤ f.size) :
    Code.Wp (vopTryseek p pos) k (fun _ => True) fun _ k' => Reads ino p cur fd P f fm k' := by
  refine h.vopOp fun n hi _ => ?_
  rw [hi]
  have hsize : (k.fs.din ino).size = f.size := congrArg File.size h.calm.file
  refine (volume_wp (Q := fun _ t => t = k.fs) ?_).mono (fun _ he => he) ?_
  · unfold sfsTryseek
    split
    · exact Code.Wp.pure rfl
    · rename_i hrej
      refine Code.Wp.bind_get ?_
      rw [if_neg]
      · exact Code.Wp.pure rfl
      · rcases hpos with hpos | hpos
        · exact absurd hpos hrej
        · rw [hsize]
          omega
  · rintro ret _ ⟨t, rfl, rfl⟩
    exact h.setFs h.calm

theorem vopRead_reads (h : Reads ino p cur fd P f fm k) (hf : f.size ≤ f.blocks * sfsBlksize) :
    Code.Wp (vopRead p buf len offset) k (fun _ => True) fun _ k' =>
    Reads ino p cur fd P f fm k' := by
  refine h.vopOp fun n hi _ => ?_
  rw [hi]
  refine (volume_wp (h.calm.read hf)).bind ?_
  rintro ⟨ret, alen, buf'⟩ _ ⟨t, ht, rfl⟩
  exact Code.Wp.bind_assert (fun _ => Code.Wp.pure (h.setFs ht)) fun _ => trivial

theorem vopFstat_reads (h : Reads ino p cur fd P f fm k) : Code.Wp (vopFstat p) k (fun _ => True)
    fun r k' => Reads ino p cur fd P f fm k' ∧ (r.1 = 0 → r.2.size = f.size) := by
  refine h.vopOp fun n hi _ => ?_
  have htype : Code.Wp (vopGettype p) k (fun _ => True) fun _ k' => k' = k := by
    refine h.vopOp fun m hm _ => ?_
    rw [hm]
    refine Code.Wp.bind_get ?_
    dsimp only
    rw [h.calm.type, if_neg (by decide), if_pos rfl]
    exact Code.Wp.pure rfl
  refine htype.bind ?_
  rintro ⟨ret, mode⟩ _ rfl
  dsimp only
  split
  · rename_i hret
    exact Code.Wp.pure ⟨h, fun h => absurd h hret⟩
  · rw [hi]
    exact Code.Wp.bind_get (Code.Wp.pure ⟨h, fun _ => congrArg File.size h.calm.file⟩)

end Inode

section Close

variable {k : Kernel} {ino p cur fd : ℕ} {P : File → Prop} {f : Sfs.File} {fm : ℕ → Bool}

theorem reclaimSync_reads (h : Reads ino p cur fd P f fm k) :
    Code.Wp (reclaimSync p ino) k (fun _ => True) fun ret k' => Reads ino p cur fd P f fm k' ∧
      (ret = 0 → (k'.fs.sin ino).dirty = false) := by
  refine Code.Wp.bind_get ?_
  rw [if_neg h.calm.links]
  refine Code.Wp.bind_of Code.pure_run ?_
  rw [if_neg (not_not.mpr rfl)]
  refine Code.Wp.bind_get ?_
  split
  · exact vopFsync_reads h
  · rename_i hd
    exact Code.Wp.pure ⟨h, fun _ => by simpa using hd⟩

theorem reclaimFree_reads (h : Reads ino p cur fd P f fm k) (hd : (k.fs.sin ino).dirty = false) :
    Code.Wp (reclaimFree p ino) k (fun _ => True) fun _ k' => Reads ino p cur fd P f fm k' := by
  refine Code.Wp.bind_modify ?_
  have hblocks : ∀ {s : Fs}, s.din ino = k.fs.din ino → reclaimBlocks ino s = .ok ((), s) := by
    intro s hs
    unfold reclaimBlocks
    rw [Code.bind_ok Code.get_run, hs, if_neg h.calm.links]
    rfl
  refine Code.Wp.bind (volume_wp (Q := fun _ t => t = _) (Code.Wp.of_ok (hblocks rfl) rfl)) ?_
  rintro _ _ ⟨_, rfl, rfl⟩
  refine Code.Wp.bind_modify (deref_bind fun m _ =>
    Code.Wp.bind_assert (fun _ => ?_) fun _ => trivial)
  have hlist : Calm ino f fm { k.fs with inodeList := k.fs.inodeList.erase ino } :=
    h.calm.kept rfl rfl rfl rfl (fun _ => rfl) (fun _ _ => rfl) h.calm.saved
  refine ⟨hlist.forget hd rfl, fun n hn => ?_, h.entry⟩
  change Function.update k.inode p none p = some n at hn
  rw [Function.update_self] at hn
  cases hn

theorem sfsReclaim_reads (h : Reads ino p cur fd P f fm k) :
    Code.Wp (sfsReclaim p ino) k (fun _ => True) fun _ k' => Reads ino p cur fd P f fm k' := by
  refine h.deref fun n hi ho => Code.Wp.bind_assert (fun _ => ?_) fun _ => trivial
  refine Code.Wp.bind_modify ?_
  have h₁ : Reads ino p cur fd P f fm
      (k.setInode p (some { n with reclaimCount := n.reclaimCount - 1 })) := h.setInode hi ho
  split
  · exact Code.Wp.pure h₁
  · refine (reclaimSync_reads h₁).bind fun ret k₂ h₂ => ?_
    split
    · exact Code.Wp.pure h₂.1
    · rename_i hret
      exact (reclaimFree_reads h₂.1 (h₂.2 (not_not.mp hret))).bind fun _ _ h => Code.Wp.pure h

theorem inodeRefDec_reads (h : Reads ino p cur fd P f fm k) :
    Code.Wp (inodeRefDec p) k (fun _ => True) fun _ k' => Reads ino p cur fd P f fm k' := by
  refine h.deref fun n hi ho => Code.Wp.bind_assert (fun _ => ?_) fun _ => trivial
  refine Code.Wp.bind_modify ?_
  have h₁ : Reads ino p cur fd P f fm (k.setInode p (some { n with refCount := n.refCount - 1 })) :=
    h.setInode hi ho
  split
  · refine Code.Wp.bind (Q := fun _ k' => Reads ino p cur fd P f fm k') ?_ fun _ _ h =>
      Code.Wp.pure h
    refine h₁.vopOp fun m hm _ => ?_
    rw [hm]
    exact sfsReclaim_reads h₁
  · exact Code.Wp.pure h₁

theorem inodeOpenDec_reads (h : Reads ino p cur fd P f fm k) :
    Code.Wp (inodeOpenDec p) k (fun _ => True) fun _ k' => Reads ino p cur fd P f fm k' := by
  refine h.deref fun n hi ho => Code.Wp.bind_assert (fun _ => ?_) fun _ => trivial
  refine Code.Wp.bind_modify ?_
  have h₁ : Reads ino p cur fd P f fm
    (k.setInode p (some { n with openCount := n.openCount - 1 })) :=
    h.setInode hi ho
  split
  · refine Code.Wp.bind (Q := fun _ k' => Reads ino p cur fd P f fm k') ?_ fun _ _ h =>
      Code.Wp.pure h
    refine h₁.vopOp fun m hm _ => ?_
    rw [hm]
    exact (vopFsync_reads h₁).mono (fun _ he => he) fun _ _ h => h.1
  · exact Code.Wp.pure h₁

theorem vfsClose_reads (h : Reads ino p cur fd P f fm k) :
    Code.Wp (vfsClose p) k (fun _ => True) fun _ k' => Reads ino p cur fd P f fm k' :=
  (inodeOpenDec_reads h).bind fun _ _ h => inodeRefDec_reads h

end Close

/-- The entry is for the inode at `p`, if it is for one. -/
def For (p : ℕ) (file : File) : Prop := ∀ q, file.node = some q → q = p

section Table

variable {α : Type} {k : Kernel} {ino p cur fd copied len g d : ℕ} {P : File → Prop} {f : Sfs.File}
  {fm : ℕ → Bool} {file : File} {buf : Buf}

theorem setFile_reads (h : Reads ino p cur fd P f fm k) {P' : File → Prop}
    (hP : g = cur → d = fd → P' file) (hne : ¬ (g = cur ∧ d = fd) → ∀ x, P x → P' x) :
    Code.Wp (setFile g d file) k (fun _ => True) fun _ k' => Reads ino p cur fd P' f fm k' := by
  unfold setFile filesAt
  cases ht : k.files g with
  | none => exact .of_error (Code.bind_error (by rw [ht])) trivial
  | some t =>
    refine .bind_of (by rw [ht]) ⟨h.calm, h.node, fun u hu => ?_⟩
    change Function.update k.files g (some (t.set d file)) cur = some u at hu
    by_cases hg : cur = g
    · subst hg
      rw [Function.update_self] at hu
      obtain rfl := Option.some.inj hu
      change P' (Function.update t.fdArray d file fd)
      by_cases hd : fd = d
      · subst hd
        rw [Function.update_self]
        exact hP rfl rfl
      · rw [Function.update_of_ne hd]
        exact hne (fun h => hd h.2.symm) _ (h.entry t ht)
    · rw [Function.update_of_ne hg] at hu
      exact hne (fun h => hg h.1.symm) _ (h.entry u hu)

theorem fileAt_reads (h : Reads ino p cur fd P f fm k) {Q : α → Kernel → Prop} {m : File → Prog α}
    (hm : ∀ file, P file → Code.Wp (m file) k (fun _ => True) Q) :
    Code.Wp (fileAt cur fd >>= m) k (fun _ => True) Q := by
  cases ht : k.files cur with
  | none =>
    refine .of_error (Code.bind_error (Code.bind_error (e := .noFiles) ?_)) trivial
    unfold filesAt
    rw [ht]
  | some t => exact .bind_of (fileAt_eq ht) (hm _ (h.entry t ht))

theorem nodeOf_reads (hf : For p file) {Q : α → Kernel → Prop} {m : ℕ → Prog α}
    (hm : Code.Wp (m p) k (fun _ => True) Q) : Code.Wp (nodeOf file >>= m) k (fun _ => True) Q := by
  unfold nodeOf
  cases hn : file.node with
  | none => exact .of_error rfl trivial
  | some q =>
    obtain rfl := hf q hn
    exact .bind_of rfl hm

theorem fdArrayFree_reads (h : Reads ino p cur fd (For p) f fm k) :
    Code.Wp (fdArrayFree cur fd) k (fun _ => True) fun _ k' =>
    Reads ino p cur fd (For p) f fm k' := by
  refine fileAt_reads h fun file hfile => Code.Wp.bind_assert (fun _ => ?_) fun _ => trivial
  refine Code.Wp.bind_assert (fun _ => ?_) fun _ => trivial
  split
  · refine nodeOf_reads hfile ((vfsClose_reads h).bind fun _ _ h₁ => ?_)
    exact setFile_reads h₁ (fun _ _ => hfile) fun _ _ hx => hx
  · exact setFile_reads h (fun _ _ => hfile) fun _ _ hx => hx

theorem fdArrayRelease_reads (h : Reads ino p cur fd (For p) f fm k) :
    Code.Wp (fdArrayRelease cur fd) k (fun _ => True) fun _ k' =>
    Reads ino p cur fd (For p) f fm k' := by
  refine fileAt_reads h fun file hfile => Code.Wp.bind_assert (fun _ => ?_) fun _ => trivial
  refine Code.Wp.bind_assert (fun _ => ?_) fun _ => trivial
  have hfile' : For p { file with openCount := file.openCount - 1 } := hfile
  refine (setFile_reads h (fun _ _ => hfile') fun _ _ hx => hx).bind fun _ _ h₁ => ?_
  split
  · exact fdArrayFree_reads h₁
  · exact Code.Wp.pure h₁

theorem fdArrayClose_reads (h : Reads ino p cur fd (For p) f fm k) :
    Code.Wp (fdArrayClose cur fd) k (fun _ => True) fun _ k' =>
    Reads ino p cur fd (For p) f fm k' := by
  refine fileAt_reads h fun file hfile => Code.Wp.bind_assert (fun _ => ?_) fun _ => trivial
  refine Code.Wp.bind_assert (fun _ => ?_) fun _ => trivial
  have hfile' : For p { file with status := .closed, openCount := file.openCount - 1 } := hfile
  refine (setFile_reads h (fun _ _ => hfile') fun _ _ hx => hx).bind fun _ _ h₁ => ?_
  split
  · exact fdArrayFree_reads h₁
  · exact Code.Wp.pure h₁

theorem withFile_reads (h : Reads ino p cur fd P f fm k) {body : Prog α}
    (hP : ∀ (file : File) c, P file → P { file with openCount := c })
    (hbody : ∀ k', Reads ino p cur fd P f fm k' →
      Code.Wp body k' (fun _ => True) fun _ k'' => Reads ino p cur fd (For p) f fm k'') :
    Code.Wp (withFile cur fd body) k (fun _ => True) fun _ k' =>
      Reads ino p cur fd (For p) f fm k' := by
  have hacquire : Code.Wp (fdArrayAcquire cur fd) k (fun _ => True)
      fun _ k' => Reads ino p cur fd P f fm k' := by
    refine fileAt_reads h fun file hfile => Code.Wp.bind_assert (fun _ => ?_) fun _ => trivial
    exact setFile_reads h (fun _ _ => hP file _ hfile) fun _ _ hx => hx
  refine hacquire.bind fun _ k₁ h₁ => (hbody k₁ h₁).bind fun a k₂ h₂ => ?_
  exact (fdArrayRelease_reads h₂).bind fun _ _ h₃ => Code.Wp.pure h₃

theorem readBody_reads (h : Reads ino p cur fd (For p) f fm k)
    (hf : f.size ≤ f.blocks * sfsBlksize) :
    Code.Wp (readBody cur fd buf len) k (fun _ => True)
      fun _ k' => Reads ino p cur fd (For p) f fm k' := by
  refine fileAt_reads h fun file hfile => nodeOf_reads hfile ?_
  refine (vopRead_reads h hf).bind fun r k₁ h₁ => ?_
  refine Code.Wp.bind (Q := fun _ k' => Reads ino p cur fd (For p) f fm k') ?_ fun _ _ h =>
    Code.Wp.pure h
  refine fileAt_reads h₁ fun file' hfile' => ?_
  split
  · exact setFile_reads h₁ (fun _ _ => hfile') fun _ _ hx => hx
  · exact Code.Wp.pure h₁

theorem fsyncBody_reads (h : Reads ino p cur fd (For p) f fm k) :
    Code.Wp (fsyncBody cur fd) k (fun _ => True) fun _ k' => Reads ino p cur fd (For p) f fm k' :=
  fileAt_reads h fun _ hfile => nodeOf_reads hfile
    ((vopFsync_reads h).mono (fun _ he => he) fun _ _ h => h.1)

theorem fstatBody_reads (h : Reads ino p cur fd (For p) f fm k) :
    Code.Wp (fstatBody cur fd) k (fun _ => True) fun _ k' => Reads ino p cur fd (For p) f fm k' :=
  fileAt_reads h fun _ hfile => nodeOf_reads hfile
    ((vopFstat_reads h).mono (fun _ he => he) fun _ _ h => h.1)

/-- The position that a seek is for, by the position of the entry and the size of the file. -/
def seekGoal (pos whence here : ℤ) (size : ℕ) : Option ℤ :=
  if whence = lseekSet then some pos
  else if whence = lseekCur then some (offT (pos + here))
  else if whence = lseekEnd then some (offT (pos + size))
  else none

/-- A seek that is refused or ends within the file. -/
theorem seekBody_reads {pos whence here : ℤ}
    (h : Reads ino p cur fd (fun file => For p file ∧ file.pos = here) f fm k)
    (hgoal : ∀ goal, seekGoal pos whence here f.size = some goal → SeekRejects goal ∨
    goal ≤ f.size) :
    Code.Wp (seekBody cur fd pos whence) k (fun _ => True)
      fun _ k' => Reads ino p cur fd (For p) f fm k' := by
  refine fileAt_reads h fun file hfile => nodeOf_reads hfile.1 ?_
  obtain ⟨hfor, rfl⟩ := hfile
  have h₀ : Reads ino p cur fd (For p) f fm k := h.weaken fun _ hx => hx.1
  have htarget : Code.Wp (seekTarget file p pos whence) k (fun _ => True) fun r k' =>
      Reads ino p cur fd (For p) f fm k' ∧
        (r.1 = 0 → SeekRejects r.2 ∨ r.2 ≤ f.size) := by
    unfold seekTarget
    unfold seekGoal at hgoal
    split
    · rename_i hw
      exact Code.Wp.pure ⟨h₀, fun _ => hgoal _ (if_pos hw)⟩
    rename_i hw₁
    rw [if_neg hw₁] at hgoal
    split
    · rename_i hw
      exact Code.Wp.pure ⟨h₀, fun _ => hgoal _ (if_pos hw)⟩
    rename_i hw₂
    rw [if_neg hw₂] at hgoal
    split
    · rename_i hw
      refine (vopFstat_reads h₀).bind ?_
      rintro ⟨ret, stat⟩ k₁ ⟨h₁, hsize⟩
      refine Code.Wp.pure ⟨h₁, fun hret => hgoal _ ?_⟩
      rw [if_pos hw, ← hsize hret]
    · exact Code.Wp.pure ⟨h₀, fun hret => absurd (show -eInval = 0 from hret) (by decide)⟩
  refine htarget.bind ?_
  rintro ⟨ret, goal⟩ k₁ ⟨h₁, hg⟩
  dsimp only at hg ⊢
  split
  · exact Code.Wp.pure h₁
  · rename_i hret
    refine (vopTryseek_reads h₁ (hg (not_not.mp hret))).bind fun ret k₂ h₂ => ?_
    split
    · exact Code.Wp.pure h₂
    · refine fileAt_reads h₂ fun file' hfile' => ?_
      have hmoved : For p { file' with pos := goal } := hfile'
      exact (setFile_reads h₂ (fun _ _ => hmoved) fun _ _ hx => hx).bind fun _ _ h₃ =>
        Code.Wp.pure h₃

end Table

/-- The entry `fd` of the table `cur` is not open, or it is for the inode at `p`. -/
def OnFile (p : ℕ) (k : Kernel) (cur : ℕ) (fd : ℤ) : Prop :=
  ∀ t, k.files cur = some t → (t.fdArray fd.toNat).status = .opened →
    (t.fdArray fd.toNat).node = some p

/-- The call is made through a descriptor of the file at `p` and is no write, and a seek is refused
or ends within the file, which has `size` bytes. -/
def Call.Reading (p size : ℕ) (k : Kernel) (cur : ℕ) : Call → Prop
  | .read fd _ _ | .fstat fd | .fsync fd | .dup fd _ | .close fd => OnFile p k cur fd
  | .seek fd pos whence => OnFile p k cur fd ∧ ∀ t, k.files cur = some t → ∀ goal,
      seekGoal pos whence (t.fdArray fd.toNat).pos size = some goal → SeekRejects goal ∨ goal ≤ size
  | _ => False

section Calls

variable {k k' : Kernel} {ino p cur size : ℕ} {fd fd₂ : ℤ} {f : Sfs.File} {fm : ℕ → Bool}

/-- The inode at `p` is the calm file `ino`. -/
structure Resting (ino p : ℕ) (f : Sfs.File) (fm : ℕ → Bool) (k : Kernel) : Prop where
  calm : Calm ino f fm k.fs
  node : ∀ n, k.inode p = some n → n.info = .sfs ino ∧ n.ops = .file

theorem Reads.resting {d : ℕ} {P : File → Prop} (h : Reads ino p cur d P f fm k) :
    Resting ino p f fm k :=
  ⟨h.calm, h.node⟩

theorem fd2file_resting (h : Resting ino p f fm k) (ho : OnFile p k cur fd) :
    Code.Wp (fd2file cur fd) k (fun _ => True) fun r k' => k' = k ∧ (r.1 = 0 → r.2 = fd.toNat ∧
      Reads ino p cur fd.toNat (For p) f fm k) := by
  unfold fd2file filesAt
  cases ht : k.files cur with
  | none => exact .of_error (Code.bind_error (by rw [ht])) trivial
  | some t =>
    refine .bind_of (by rw [ht]) ?_
    split
    · rename_i hopen
      refine Code.Wp.pure ⟨rfl, fun _ => ⟨rfl, h.calm, h.node, fun u hu q hq => ?_⟩⟩
      obtain rfl := Option.some.inj (ht.symm.trans hu)
      exact Option.some.inj (hq.symm.trans (ho t ht hopen.2.2))
    · exact Code.Wp.pure ⟨rfl, fun hret => absurd (show -eInval = 0 from hret) (by decide)⟩

theorem Resting.reads {d : ℕ} (h : Resting ino p f fm k) :
    Reads ino p cur d (fun _ => True) f fm k :=
  ⟨h.calm, h.node, fun _ _ => trivial⟩

theorem Resting.setInode {n : Inode} (h : Resting ino p f fm k) (hi : n.info = .sfs ino)
    (ho : n.ops = .file) : Resting ino p f fm (k.setInode p (some n)) := by
  have hr : Reads ino p 0 0 (fun _ => True) f fm k := h.reads
  exact (hr.setInode hi ho).resting

theorem setFile_resting {g d : ℕ} {file : File} (h : Resting ino p f fm k) :
    Code.Wp (setFile g d file) k (fun _ => True) fun _ k' => Resting ino p f fm k' := by
  have hr : Reads ino p g d (fun _ => True) f fm k := h.reads
  exact (setFile_reads hr (fun _ _ => trivial) fun _ _ hx => hx).mono (fun _ he => he)
    fun _ _ h => h.resting

theorem fd2file_call {α : Type} {m : ℤ × ℕ → Prog α} (h : Resting ino p f fm k)
    (ho : OnFile p k cur fd)
    (hbad : ∀ ret d, ret ≠ 0 →
      Code.Wp (m (ret, d)) k (fun _ => True) fun _ k' => Resting ino p f fm k')
    (hgood : Reads ino p cur fd.toNat (For p) f fm k →
      Code.Wp (m (0, fd.toNat)) k (fun _ => True) fun _ k' => Resting ino p f fm k') :
    Code.Wp (fd2file cur fd >>= m) k (fun _ => True) fun _ k' => Resting ino p f fm k' := by
  refine (fd2file_resting h ho).bind ?_
  rintro ⟨ret, d⟩ _ ⟨rfl, hr⟩
  by_cases hret : ret = 0
  · subst hret
    obtain ⟨rfl, h₁⟩ := hr rfl
    exact hgood h₁
  · exact hbad _ _ hret

theorem withFile_resting {α : Type} {d : ℕ} {body : Prog α} (h : Reads ino p cur d (For p) f fm k)
    (hbody : ∀ k', Reads ino p cur d (For p) f fm k' →
      Code.Wp body k' (fun _ => True) fun _ k'' => Reads ino p cur d (For p) f fm k'') :
    Code.Wp (withFile cur d body) k (fun _ => True) fun _ k' => Resting ino p f fm k' :=
  (withFile_reads h (fun _ _ h => h) hbody).mono (fun _ he => he) fun _ _ h => h.resting

theorem fileRead_resting {buf : Buf} {len : ℕ} (h : Resting ino p f fm k)
    (hf : f.size ≤ f.blocks * sfsBlksize) (ho : OnFile p k cur fd) :
    Code.Wp (fileRead cur fd buf len) k (fun _ => True) fun _ k' => Resting ino p f fm k' := by
  refine fd2file_call h ho (fun ret d hr => ?_) fun h₁ => ?_
  · dsimp only
    rw [if_pos hr]
    exact Code.Wp.pure h
  · refine fileAt_reads h₁ fun file _ => ?_
    split
    · exact Code.Wp.pure h
    · exact withFile_resting h₁ fun _ h => readBody_reads h hf

theorem fileSeek_resting {pos whence : ℤ} (h : Resting ino p f fm k) (ho : OnFile p k cur fd)
    (hgoal : ∀ t, k.files cur = some t → ∀ goal,
      seekGoal pos whence (t.fdArray fd.toNat).pos f.size = some goal →
        SeekRejects goal ∨ goal ≤ f.size) :
    Code.Wp (fileSeek cur fd pos whence) k (fun _ => True) fun _ k' => Resting ino p f fm k' := by
  refine fd2file_call h ho (fun ret d hr => ?_) fun h₁ => ?_
  · dsimp only
    rw [if_pos hr]
    exact Code.Wp.pure h
  dsimp only
  rw [if_neg (not_not.mpr rfl)]
  cases ht : k.files cur with
  | none =>
    refine .of_error (e := .noFiles) ?_ trivial
    exact Code.bind_error (Code.bind_error (Code.bind_error (by unfold filesAt; rw [ht])))
  | some t =>
    have h₂ : Reads ino p cur fd.toNat
        (fun file => For p file ∧ file.pos = (t.fdArray fd.toNat).pos) f fm k := by
      refine ⟨h.calm, h.node, fun u hu => ⟨h₁.entry u hu, ?_⟩⟩
      obtain rfl := Option.some.inj (ht.symm.trans hu)
      rfl
    refine (withFile_reads h₂ (fun _ _ h => h) fun _ h => ?_).mono (fun _ he => he)
      fun _ _ h => h.resting
    exact seekBody_reads h (hgoal t ht)

theorem fileFstat_resting (h : Resting ino p f fm k) (ho : OnFile p k cur fd) :
    Code.Wp (fileFstat cur fd) k (fun _ => True) fun _ k' => Resting ino p f fm k' := by
  refine fd2file_call h ho (fun ret d hr => ?_) fun h₁ => ?_
  · dsimp only
    rw [if_pos hr]
    exact Code.Wp.pure h
  · exact withFile_resting h₁ fun _ h => fstatBody_reads h

theorem fileFsync_resting (h : Resting ino p f fm k) (ho : OnFile p k cur fd) :
    Code.Wp (fileFsync cur fd) k (fun _ => True) fun _ k' => Resting ino p f fm k' := by
  refine fd2file_call h ho (fun ret d hr => ?_) fun h₁ => ?_
  · dsimp only
    rw [if_pos hr]
    exact Code.Wp.pure h
  · exact withFile_resting h₁ fun _ h => fsyncBody_reads h

theorem fileClose_resting (h : Resting ino p f fm k) (ho : OnFile p k cur fd) :
    Code.Wp (fileClose cur fd) k (fun _ => True) fun _ k' => Resting ino p f fm k' := by
  refine fd2file_call h ho (fun ret d hr => ?_) fun h₁ => ?_
  · dsimp only
    rw [if_pos hr]
    exact Code.Wp.pure h
  · exact (fdArrayClose_reads h₁).bind fun _ _ h => Code.Wp.pure h.resting

theorem fdArrayAlloc_reads {d : ℕ} (h : Reads ino p cur d (For p) f fm k) :
    Code.Wp (fdArrayAlloc cur fd₂) k (fun _ => True)
      fun _ k' => Reads ino p cur d (For p) f fm k' := by
  unfold fdArrayAlloc filesAt
  cases ht : k.files cur with
  | none => exact .of_error (Code.bind_error (by rw [ht])) trivial
  | some t =>
    refine .bind_of (by rw [ht]) ?_
    split
    · exact Code.Wp.pure h
    · refine fileAt_reads h.resting.reads fun file _ =>
        Code.Wp.bind_assert (fun _ => ?_) fun _ => trivial
      have hnone : For p { file with status := .init, node := none } := fun q hq => by cases hq
      exact (setFile_reads h (fun _ _ => hnone) fun _ _ hx => hx).bind fun _ _ h => Code.Wp.pure h

theorem fdArrayDup_resting {d : ℕ} {from' : File} (h : Resting ino p f fm k) (hfor : For p from') :
    Code.Wp (fdArrayDup cur d from') k (fun _ => True) fun _ k' => Resting ino p f fm k' := by
  have hr : Reads ino p cur d (fun _ => True) f fm k := h.reads
  refine fileAt_reads hr fun file _ => Code.Wp.bind_assert (fun _ => ?_) fun _ => trivial
  refine nodeOf_reads hfor ?_
  have hinc : Code.Wp (inodeRefInc p) k (fun _ => True) fun _ k' => Resting ino p f fm k' := by
    refine hr.deref fun n hi ho => Code.Wp.bind_modify (Code.Wp.pure ?_)
    exact h.setInode hi ho
  refine hinc.bind fun _ k₁ h₁ => ?_
  have hr₁ : Reads ino p cur d (fun _ => True) f fm k₁ := h₁.reads
  have hopen : Code.Wp (inodeOpenInc p) k₁ (fun _ => True) fun _ k' => Resting ino p f fm k' :=
    hr₁.deref fun n hi ho => h₁.setInode hi ho
  refine hopen.bind fun _ k₂ h₂ => (setFile_resting h₂).bind fun _ k₃ h₃ => ?_
  have hr₃ : Reads ino p cur d (fun _ => True) f fm k₃ := h₃.reads
  refine fileAt_reads hr₃ fun file' _ => Code.Wp.bind_assert (fun _ => ?_) fun _ => trivial
  exact setFile_resting h₃

theorem fileDup_resting (h : Resting ino p f fm k) (ho : OnFile p k cur fd) :
    Code.Wp (fileDup cur fd fd₂) k (fun _ => True) fun _ k' => Resting ino p f fm k' := by
  refine fd2file_call h ho (fun ret d hr => ?_) fun h₁ => ?_
  · dsimp only
    rw [if_pos hr]
    exact Code.Wp.pure h
  dsimp only
  rw [if_neg (not_not.mpr rfl)]
  refine (fdArrayAlloc_reads h₁).bind ?_
  rintro ⟨ret, d⟩ k₂ h₂
  dsimp only
  split
  · exact Code.Wp.pure h₂.resting
  · refine fileAt_reads h₂ fun from' hfor => ?_
    exact (fdArrayDup_resting h₂.resting hfor).bind fun _ _ h => Code.Wp.pure h

theorem Call.run_resting (h : Resting ino p f fm k) (hf : f.size ≤ f.blocks * sfsBlksize) {c : Call}
    (hc : c.Reading p f.size k cur) :
    Code.Wp (c.run cur) k (fun _ => True) fun _ k' => Resting ino p f fm k' := by
  have hvoid : ∀ {α : Type} {m : Prog α},
      Code.Wp m k (fun _ => True) (fun _ k' => Resting ino p f fm k') →
      Code.Wp (m >>= fun _ => pure ()) k (fun _ => True) fun _ k' => Resting ino p f fm k' :=
    fun h => h.bind fun _ _ h => Code.Wp.pure h
  cases c with
  | read fd buf len => exact hvoid (fileRead_resting h hf hc)
  | seek fd pos whence => exact hvoid (fileSeek_resting h hc.1 hc.2)
  | fstat fd => exact hvoid (fileFstat_resting h hc)
  | fsync fd => exact hvoid (fileFsync_resting h hc)
  | close fd => exact hvoid (fileClose_resting h hc)
  | dup fd₁ fd₂ => exact hvoid (fileDup_resting h hc)
  | openFile path flags => exact hc.elim
  | write fd buf len => exact hc.elim
  | getdirentry fd offset => exact hc.elim
  | chdir path => exact hc.elim
  | getcwd len => exact hc.elim

/-- A process with the table `c.1` makes the call `c.2`, which returns. -/
def ReadStep (ino p : ℕ) (k : Kernel) (c : ℕ × Call) (k' : Kernel) : Prop :=
  c.2.Reading p (k.fs.din ino).size k c.1 ∧ c.2.run c.1 k = .ok ((), k')

theorem ReadStep.resting {c : ℕ × Call} (h : ReadStep ino p k c k') (hk : Resting ino p f fm k)
    (hf : f.size ≤ f.blocks * sfsBlksize) : Resting ino p f fm k' := by
  obtain ⟨hc, hrun⟩ := h
  have hsize : (k.fs.din ino).size = f.size := congrArg File.size hk.calm.file
  rw [hsize] at hc
  exact (c.2.run_resting hk hf hc).ok hrun

/-- In a run of reads, seeks that do not end past the file, `fstat`, `fsync`, `dup` and `close` the
file and the freemap stay as they are. -/
theorem readers_keep {l : List (ℕ × Call)} (h : Resting ino p (k.fs.file ino) k.fs.freemap k)
    (hf : (k.fs.file ino).size ≤ (k.fs.file ino).blocks * sfsBlksize)
    (hr : Runs (ReadStep ino p) k l k') :
    k'.fs.file ino = k.fs.file ino ∧ k'.fs.freemap = k.fs.freemap := by
  have hk' : Resting ino p (k.fs.file ino) k.fs.freemap k' :=
    hr.invariant (fun _ _ _ hk hs => hs.resting hk hf) h
  exact ⟨hk'.calm.file, hk'.calm.freemap⟩

/-- The file of one block, with a descriptor for reading. -/
def oneReader : Kernel where
  fs := image 9 1 []
  inode := fun p => if p = 3 then some ⟨.sfs 5, .file, 1, 1, 1⟩ else none
  brk := 4
  hash := fun ino => if ino = 5 then some 3 else none
  bootfs := none
  devnode := fun _ => 0
  kmallocs := []
  stdin := []
  files := fun g =>
    if g = 1 then some ⟨none, fun d => if d = 0 then ⟨.opened, true, false, 0, some 3, 1⟩
      else emptyFile, 1⟩
    else none
  fbrk := 2

theorem fileDin_read : diskInode (Image.fileDin 1).bytes = Image.fileDin 1 := by
  have hdirect : (diskInode (Image.fileDin 1).bytes).direct = (Image.fileDin 1).direct := by
    funext i
    by_cases hi : i < sfsNdirect
    · have hall : ∀ i < sfsNdirect, (diskInode (Image.fileDin 1).bytes).direct i =
          (Image.fileDin 1).direct i := by decide +kernel
      exact hall i hi
    · change (if i < sfsNdirect then _ else 0) = if i < 1 then _ else 0
      unfold sfsNdirect at hi ⊢
      rw [if_neg hi, if_neg (by omega)]
  have hfields : ∀ {x y : DiskInode}, x.direct = y.direct →
    (x.size, x.type, x.nlinks, x.blocks, x.indirect) =
      (y.size, y.type, y.nlinks, y.blocks, y.indirect) → x = y := by
    rintro ⟨⟩ ⟨⟩ hd he
    simp_all
  exact hfields hdirect (by decide +kernel)

theorem image_calm : Calm 5 ((image 9 1 []).file 5) (image 9 1 []).freemap (image 9 1 []) :=
  ⟨⟨_, _, image_wf (by decide) (by decide) (by decide), .inr rfl, rfl⟩, rfl, rfl, rfl, by decide,
    fileDin_read, fun _ => fileDin_read⟩

theorem readers_keep_seek : ∃ k', ReadStep 5 3 oneReader (1, .seek 0 4096 lseekSet) k' ∧
    k'.fs.file 5 = oneReader.fs.file 5 ∧ k'.fs.freemap = oneReader.fs.freemap := by
  have hrest : Resting 5 3 (oneReader.fs.file 5) oneReader.fs.freemap oneReader := by
    refine ⟨image_calm, fun n hn => ?_⟩
    rw [show oneReader.inode 3 = some _ from rfl] at hn
    obtain rfl := Option.some.inj hn
    exact ⟨rfl, rfl⟩
  have hrun : ((Call.seek 0 4096 lseekSet).run 1 oneReader).toOption.map (fun _ => decide True) =
      some true := by decide +kernel
  obtain ⟨_, k', hrun, -⟩ := Code.exists_of_decide hrun
  have hstep : ReadStep 5 3 oneReader (1, .seek 0 4096 lseekSet) k' := by
    refine ⟨⟨fun t ht _ => ?_, fun t ht goal hg => .inr ?_⟩, hrun⟩
    · rw [show oneReader.files (1, Call.seek 0 4096 lseekSet).1 = some _ from rfl] at ht
      obtain rfl := Option.some.inj ht
      rfl
    · obtain rfl : 4096 = goal := Option.some.inj hg
      decide
  exact ⟨k', hstep, readers_keep hrest (by decide) (.cons hstep (.nil k'))⟩

/-- A seek on a descriptor for reading that goes past the end of the file of one block. -/
theorem seek_grows_file : ∃ k k', fileOpen 1 [102] 0 oneBlock = .ok (0, k) ∧
    ((k.files 1).map fun t => ((t.fdArray 0).readable, (t.fdArray 0).writable)) =
    some (true, false) ∧
    fileSeek 1 0 5000 lseekSet k = .ok (0, k') ∧
    (k.fs.file 5).size = 4096 ∧ (k'.fs.file 5).size = 5000 ∧ (k'.fs.file 5).blocks = 2 ∧
    k.fs.freemap 8 = true ∧ k'.fs.freemap 8 = false := by
  have hopen : (fileOpen 1 [102] 0 oneBlock).toOption.map (fun r =>
      decide (r.1 = 0 ∧
        ((r.2.files 1).map fun t => ((t.fdArray 0).readable, (t.fdArray 0).writable)) =
        some (true, false) ∧ (r.2.fs.file 5).size = 4096 ∧ r.2.fs.freemap 8 = true ∧
        (fileSeek 1 0 5000 lseekSet r.2).toOption.map (fun u => decide (u.1 = 0 ∧
          (u.2.fs.file 5).size = 5000 ∧ (u.2.fs.file 5).blocks = 2 ∧ u.2.fs.freemap 8 = false)) =
            some true)) = some true := by decide +kernel
  obtain ⟨_, k, hk, rfl, hmode, hsize, hfree, hseek⟩ := Code.exists_of_decide hopen
  obtain ⟨_, k', hk', rfl, hsize', hblocks, hfree'⟩ := Code.exists_of_decide hseek
  exact ⟨k, k', hk, hmode, hk', hsize, hsize', hblocks, hfree, hfree'⟩

end Calls

end UCore.Vfs

import UCore.Mksfs.Entries

/-! # The contents of files

The kernel reads a file of an image as it was stored, as far as its map of blocks reaches.
-/

namespace UCore.Mksfs

open Library Sfs Vfs

variable {stSize : ℕ} {disk : ℕ → Buf} {home : Host} {m : Writer} {A : Places}
  {O : ℕ → Option Owner} {V : Nodes} {dev : Device} {fs : Fs} {k : Kernel} {ino : ℕ}
  {content : List UInt8} {nd : Node}

/-- The kernel opens the inode and reads the content. -/
def Reads (k : Kernel) (ino : ℕ) (content : List UInt8) : Prop :=
  ∀ buf, ∃ p k₁ buf' k₂, sfsLoadInode ino k = .ok ((0, p), k₁) ∧
    volume (sfsIoNolock ino buf 0 (k₁.fs.din ino).size false) k₁ =
      .ok ((0, content.length, buf'), k₂) ∧
    ∀ i (h : i < content.length), buf' i = content[i]

/-- The file system with one more inode in memory. -/
def withInode (fs : Fs) (ino : ℕ) : Fs := { fs with inodeList := ino :: fs.inodeList }

theorem legible_withInode (h : Legible fs ino) : Legible (withInode fs ino) ino :=
  ⟨h.quiet, h.bits, h.indirect, h.slots⟩

/-- The inode that is loaded. -/
theorem Serves.load (h : Serves m A O V fs) (hk : Runs k fs) (hh : k.hash ino = none)
    (hV : V ino = some nd) (ht : nd.type = sfsTypeFile) :
    (nd.nlinks % 2 ^ 16 = 0 → sfsLoadInode ino k = .error .nlinks) ∧
    (nd.nlinks % 2 ^ 16 ≠ 0 → ∃ p k₁, sfsLoadInode ino k = .ok ((0, p), k₁) ∧
      k₁.fs = withInode fs ino) := by
  have hfs := hk.fs
  subst hfs
  have hleg := h.legible hV
  have huse := h.references.inodes ino (h.isInode hV)
  obtain ⟨htype, hlinks, -, -⟩ := h.written.din h.img hV
  have halloc : kmalloc k = .ok (true, k) := by
    have hkm := hk.kmallocs
    cases k
    dsimp only at hkm
    subst hkm
    rfl
  have hlookup : lookupSfsNolock ino k = .ok (none, k) := by
    unfold lookupSfsNolock
    rw [Code.bind_ok rfl, hh]
    rfl
  have hread : sfsRbuf zeros 0 sizeofDiskInode ino 0 k.fs = _ :=
    sfsRbuf_read hleg.quiet huse (by decide) (by decide)
  have hdin : diskInode (memcpy zeros 0 (k.fs.disk ino) 0 sizeofDiskInode) =
      diskInode (k.fs.disk ino) :=
    diskInode_congr fun i hi => by rw [memcpy_start hi, Nat.zero_add]
  have hrest : sfsLoadInode ino k =
      (Code.assert (fun _ => (diskInode (k.fs.disk ino)).nlinks ≠ 0) .nlinks >>= fun _ =>
        sfsCreateInode (diskInode (k.fs.disk ino)) ino >>= fun r =>
          if r.1 ≠ 0 then pure (r.1, 0)
          else sfsSetLinks r.2 ino >>= fun _ => pure (0, r.2) : Vfs.Prog (ℤ × ℕ)) k := by
    unfold sfsLoadInode
    rw [Code.bind_ok hlookup]
    dsimp only
    rw [Code.bind_ok halloc, if_pos rfl, Code.bind_ok (volume_ok (assertInuse_ok hleg.bits huse)),
      Code.bind_ok (volume_ok hread)]
    dsimp only
    rw [if_neg (by simp), hdin]
  rw [← hlinks]
  constructor
  · intro h₀
    rw [hrest]
    exact Code.bind_error (Code.assert_false (not_not.mpr h₀))
  · intro h₀
    have hops : sfsGetOps (diskInode (k.fs.disk ino)).type = some .file := by
      rw [htype, ht]
      rfl
    have hsin : Function.update k.fs.sin ino ⟨diskInode (k.fs.disk ino), false⟩ = k.fs.sin := by
      rw [← h.sin ino, Function.update_eq_self]
    obtain ⟨k₁, hcreate, hk₁⟩ : ∃ k₁, sfsCreateInode (diskInode (k.fs.disk ino)) ino k =
        .ok ((0, k.brk), k₁) ∧ k₁.fs = k.fs := by
      unfold sfsCreateInode
      rw [Code.bind_ok halloc, if_pos rfl, hops]
      dsimp only
      rw [Code.bind_ok rfl]
      refine ⟨_, rfl, ?_⟩
      change k.fs.setSin ino (fun _ => ⟨diskInode (k.fs.disk ino), false⟩) = k.fs
      unfold Fs.setSin
      rw [hsin]
    obtain ⟨k₂, hlinked, hk₂⟩ : ∃ k₂, sfsSetLinks k.brk ino k₁ = .ok ((), k₂) ∧
        k₂.fs = withInode k₁.fs ino := ⟨_, rfl, rfl⟩
    refine ⟨k.brk, k₂, ?_, hk₁ ▸ hk₂⟩
    rw [hrest, Code.bind_ok (Code.assert_true (p := fun _ : Kernel =>
      (diskInode (k.fs.disk ino)).nlinks ≠ 0) h₀), Code.bind_ok hcreate]
    dsimp only
    rw [if_neg (by simp), Code.bind_ok hlinked]
    rfl

theorem Serves.byte (h : Serves m A O V fs) (hV : V ino = some nd)
    (hb : nd.blocks = fileBlocks content) (hm : nd.blocks.length ≤ maxBlocks) {i : ℕ}
    (hi : i < content.length) :
    fs.byte ino i = content[i] := by
  have hB : sfsBlksize = 4096 := rfl
  have hlen : nd.blocks.length = (content.length + sfsBlksize - 1) / sfsBlksize := by
    rw [hb]
    simp [fileBlocks]
  rw [hB] at hlen
  have hlt : i / sfsBlksize < nd.blocks.length := by
    rw [hB]
    omega
  unfold Fs.byte
  rw [h.blocks hV, if_pos hlt, h.block hV hlt (by omega)]
  have hget : nd.blocks[i / sfsBlksize] = fileBlock content (i / sfsBlksize) := by
    simp [hb, fileBlocks]
  rw [hget]
  change ((content.drop (i / sfsBlksize * sfsBlksize)).take sfsBlksize).getD (i % sfsBlksize) 0 = _
  rw [List.getD_eq_getElem?_getD, List.getElem?_take_of_lt (Nat.mod_lt _ (by decide)),
    List.getElem?_drop, Nat.div_add_mod', List.getElem?_eq_getElem hi]
  rfl

/-- The kernel reads a stored file exactly when its map reaches all blocks of the file and the
number of its names can be told from 0. -/
theorem Serves.reads_iff (h : Serves m A O V fs) (hk : Runs k fs) (hh : k.hash ino = none)
    (hs : (ino, content) ∈ m.stored) :
    Reads k ino content ↔
      content.length ≤ maxBlocks * sfsBlksize ∧ linksTo m.calls ino % 2 ^ 16 ≠ 0 := by
  have hB : sfsBlksize = 4096 := rfl
  have hM : maxBlocks = 1036 := rfl
  obtain ⟨nd, hV, ht, hsize, hblocks⟩ := h.logged.files _ hs
  dsimp only at hV hsize hblocks
  obtain ⟨htype, -, hdsize, hdblocks⟩ := h.written.din h.img hV
  have hsmall := (h.img.shows ino nd hV).small
  have hceil : ceilBlocks content.length = nd.blocks.length := by
    rw [hblocks]
    simp [ceilBlocks, fileBlocks]
  have hmax : content.length ≤ sfsMaxFileSize := by
    have h₁ : sfsLnNblks = 32768 := rfl
    have h₂ : sfsMaxFileSize = 134217728 := rfl
    rw [h₁, ← hceil, ceilBlocks_le, hB] at hsmall
    omega
  have hlt : nd.size < 2 ^ 32 := by
    have h₂ : sfsMaxFileSize = 134217728 := rfl
    omega
  have hlinks := h.logged.links ino nd hV
  obtain ⟨hfail, hload⟩ := h.load hk hh hV ht
  rw [hlinks, Nat.mod_mod] at hfail hload
  have hdin : (withInode fs ino).din ino = diskInode (fs.disk ino) := h.din
  have hsz : ((withInode fs ino).din ino).size = content.length := by
    rw [hdin, hdsize hlt, hsize]
  have hleg := legible_withInode (h.legible hV)
  have htp : ((withInode fs ino).din ino).type ≠ sfsTypeDir := by
    rw [hdin, htype, ht]
    decide
  have hbl : ((withInode fs ino).din ino).blocks = ceilBlocks content.length := by
    rw [hdin, hdblocks, hceil]
  constructor
  · intro hr
    obtain ⟨p, k₁, buf', k₂, hl, hio, -⟩ := hr zeros
    have hne : linksTo m.calls ino % 2 ^ 16 ≠ 0 := by
      intro h₀
      rw [hfail h₀] at hl
      cases hl
    refine ⟨?_, hne⟩
    by_contra hlong
    obtain ⟨p', k₁', hl', hfs⟩ := hload hne
    rw [hl, Except.ok.injEq, Prod.mk.injEq] at hl'
    obtain rfl := hl'.2
    have hbad :
      sfsIoNolock ino zeros 0 ((withInode fs ino).din ino).size false (withInode fs ino) = _ :=
      sfsIoNolock_beyond hleg htp (by rw [hsz]; exact hmax)
      (by rw [hsz, hbl]) (by rw [hsz, ← not_le, ceilBlocks_le]; exact hlong)
    rw [← hfs] at hbad
    rw [Vfs.volume, hbad] at hio
    cases hio
  · rintro ⟨hlen, hne⟩ buf
    obtain ⟨p, k₁, hl, hfs⟩ := hload hne
    have hgood :
      sfsIoNolock ino buf 0 ((withInode fs ino).din ino).size false (withInode fs ino) = _ :=
      sfsIoNolock_read hleg htp (by rw [hsz]; exact hmax)
      (by rw [hsz, hbl]) (by rw [hsz, ceilBlocks_le]; exact hlen)
    rw [← hfs] at hgood hsz
    rw [hsz] at hgood
    refine ⟨p, k₁, memcpy buf 0 (k₁.fs.byte ino) 0 content.length, k₁, hl, ?_, fun i hi => ?_⟩
    · rw [hsz]
      exact volume_ok hgood
    · rw [memcpy_start hi, Nat.zero_add, hfs]
      exact h.byte hV hblocks (by rw [← hceil, ceilBlocks_le]; exact hlen) hi

/-- The kernel reads back what the builder stored exactly when the map of the kernel reaches the
blocks of the file and the number of its names can be told from 0. -/
theorem contents_read_iff (h : createImg stSize disk home = .ok m) (hd : Holding m dev)
    (hrun : sfsDoMount dev ⟨[], []⟩ = .ok ((0, some fs), ⟨[], []⟩)) (hk : Runs k fs)
    (hh : k.hash ino = none) (hs : (ino, content) ∈ m.stored) :
    Reads k ino content ↔
      content.length ≤ maxBlocks * sfsBlksize ∧ linksTo m.calls ino % 2 ^ 16 ≠ 0 := by
  obtain ⟨⟨A, O, V, hS⟩, -⟩ := createImg_serves h hd hrun
  exact hS.reads_iff hk hh hs

theorem contents_read_iff_sample : ∃ m fs, createImg (64 * sfsBlksize) (fun _ => zeros) sampleHome =
    .ok m ∧ (5, [1, 2, 3]) ∈ m.stored ∧ Reads (bareKernel fs) 5 [1, 2, 3] := by
  obtain ⟨m, dev, fs, hm, ⟨hs, hl⟩, hd, hrun⟩ := image_of_decide (n := 64 * sfsBlksize)
    sampleHome (fun m => (5, [1, 2, 3]) ∈ m.stored ∧ linksTo m.calls 5 = 2)
    (by decide +kernel)
  refine ⟨m, fs, hm, hs, (contents_read_iff hm hd hrun bareKernel_runs rfl hs).mpr ⟨by decide, ?_⟩⟩
  rw [hl]
  decide

/-- `readLoop` for a file of `size` zeros. -/
def readZeros (file size : ℕ) : ℕ → ℕ → Mksfs.Prog Unit
  | 0, _ => return
  | n + 1, i => do
    let len := min sfsBlksize (size - i * sfsBlksize)
    let ino ← sfsAllocIno
    writeBlock zeros len ino
    appendBlock file len ino
    readZeros file size n (i + 1)

theorem strBuf_replicate (n : ℕ) : strBuf (List.replicate n 0) = zeros := by
  funext i
  simp only [strBuf, zeros, List.getD_eq_getElem?_getD, List.getElem?_replicate]
  split <;> rfl

theorem readLoop_replicate (file size : ℕ) :
    ∀ n i, readLoop file (List.replicate size 0) n i = readZeros file size n i := by
  intro n
  induction n with
  | zero =>
    intro i
    rfl
  | succ n ih =>
    intro i
    unfold readLoop readZeros
    simp only [List.drop_replicate, List.take_replicate, strBuf_replicate,
      List.length_replicate, ih]

/-- One byte more than the map of the kernel reaches. -/
def bigSize : ℕ := maxBlocks * sfsBlksize + 1

def bigHome : Host := .file [102] 7 (List.replicate bigSize 0) .done

/-- The steps of the builder for `bigHome`. -/
def openBig : Mksfs.Prog Unit := do
  addDots sfsBlknRoot sfsBlknRoot
  Code.assert (fun m => searchCacheInode m 7 = none) .assertion
  let file ← allocCacheInode 7 0 sfsTypeFile
  readZeros file bigSize 1037 0
  Code.modify fun m => { m with stored := (file, List.replicate bigSize 0) :: m.stored }
  addEntry sfsBlknRoot file [102]

theorem openDir_bigHome {m₀ m₁ : Writer} (h : openBig m₀ = .ok ((), m₁)) :
    openDir sfsBlknRoot sfsBlknRoot bigHome m₀ = .ok ((), m₁) := by
  obtain ⟨⟨⟩, s₁, hdots, h⟩ := Code.bind_eq_ok h
  obtain ⟨u, s₂, hsearch, h⟩ := Code.bind_eq_ok h
  obtain ⟨hnone, rfl⟩ := Code.assert_eq_ok hsearch
  obtain ⟨ino, s₃, halloc, h⟩ := Code.bind_eq_ok h
  obtain ⟨⟨⟩, s₄, hread, h⟩ := Code.bind_eq_ok h
  have hblocks : (bigSize + sfsBlksize - 1) / sfsBlksize = 1037 := by decide +kernel
  have hopen : openFile ino (List.replicate bigSize 0) s₃ =
      .ok ((), { s₄ with stored := (ino, List.replicate bigSize 0) :: s₄.stored }) := by
    unfold openFile
    rw [readLoop_replicate, List.length_replicate, hblocks, Code.bind_ok hread]
    rfl
  have hadd : addFile sfsBlknRoot [102] 7 (List.replicate bigSize 0) s₁ = .ok ((), m₁) := by
    unfold addFile
    rw [Code.bind_ok rfl, hnone]
    dsimp only
    rw [Code.bind_ok halloc, Code.bind_ok hopen]
    exact h
  unfold openDir
  rw [Code.bind_ok hdots]
  unfold bigHome readDir
  rw [if_neg (by decide), Code.bind_ok (Code.assert_true (by decide)), Code.bind_ok hadd]
  rfl

theorem openBig_decided : (match createSfs (1100 * sfsBlksize) (fun _ => zeros) with
    | .ok m => match openBig m with
      | .ok (_, m) => decide (m.stored.map Prod.fst = [5] ∧ (m.inode 5).nblks = 1037 ∧
          linksTo m.calls 5 = 1)
      | .error _ => false
    | .error _ => false) = true := by
  decide +kernel

theorem image_of_open {stSize : ℕ} {disk : ℕ → Buf} {home : Host} {m₀ m₁ : Writer} {u : Unit}
    (hc : createSfs stSize disk = .ok m₀)
    (ho : openDir sfsBlknRoot sfsBlknRoot home m₀ = .ok (u, m₁)) :
    ∃ m dev fs, createImg stSize disk home = .ok m ∧ m = { m₁ with disk := m.disk } ∧
      Holding m dev ∧ sfsDoMount dev ⟨[], []⟩ = .ok ((0, some fs), ⟨[], []⟩) := by
  obtain ⟨⟨V, ⟨A, O, hI⟩, hL⟩, -⟩ := openDir_built hc ho
  obtain ⟨u', m, hclose, hm, -⟩ := (closeSfs_written hI).returns
  have himg : createImg stSize disk home = .ok m := by
    simp [createImg, hc, ho, hclose, bind, Except.bind, pure, Except.pure]
  have hd : Holding m ⟨m.ninos, sfsBlksize, m.disk⟩ := ⟨fun _ _ => rfl, Nat.le_refl _, rfl⟩
  obtain ⟨A', O', V', hI', -, hW', -⟩ := createImg_written himg
  obtain ⟨fs, hrun, -, -⟩ := mount_ok hI' (hW'.congr hI' hd.disk) hd.dBlocks hd.dBlocksize
  exact ⟨m, _, fs, himg, hm, hd, hrun⟩

/-- The kernel does not read the file. -/
theorem contents_big_unread : ∃ m dev fs content, createImg (1100 * sfsBlksize) (fun _ => zeros)
    bigHome = .ok m ∧ Holding m dev ∧ sfsDoMount dev ⟨[], []⟩ = .ok ((0, some fs), ⟨[], []⟩) ∧
    (5, content) ∈ m.stored ∧ linksTo m.calls 5 = 1 ∧ ¬ Reads (bareKernel fs) 5 content := by
  have hdec := openBig_decided
  split at hdec
  next m₀ hc =>
    split at hdec
    next u m₁ ho =>
      obtain ⟨hstored, hn, hl⟩ := of_decide_eq_true hdec
      obtain ⟨m, dev, fs, himg, hm, hd, hrun⟩ := image_of_open hc (openDir_bigHome ho)
      obtain ⟨⟨A, O, V, hS⟩, -⟩ := createImg_serves himg hd hrun
      obtain ⟨content, hmem⟩ : ∃ content, (5, content) ∈ m.stored := by
        have h5 : 5 ∈ m.stored.map Prod.fst := by
          rw [hm, hstored]
          decide
        obtain ⟨⟨x, c⟩, hx, rfl⟩ := List.mem_map.mp h5
        exact ⟨c, hx⟩
      have hcalls : linksTo m.calls 5 = 1 := by
        rw [hm]
        exact hl
      obtain ⟨nd, hV, -, -, hblocks⟩ := hS.logged.files _ hmem
      have hlen := (hS.img.shows 5 nd hV).nblks
      rw [hm] at hlen
      refine ⟨m, dev, fs, content, himg, hd, hrun, hmem, hcalls, fun hr => ?_⟩
      have hle := ((hS.reads_iff bareKernel_runs rfl hmem).mp hr).1
      have hB : sfsBlksize = 4096 := rfl
      have hM : maxBlocks = 1036 := rfl
      have hceil : nd.blocks.length = (content.length + sfsBlksize - 1) / sfsBlksize := by
        rw [hblocks]
        simp [fileBlocks]
      rw [hB] at hceil
      rw [hB, hM] at hle
      have hn' : nd.blocks.length = 1037 := by
        rw [← hlen]
        exact hn
      omega
    next => cases hdec
  next => cases hdec

end UCore.Mksfs

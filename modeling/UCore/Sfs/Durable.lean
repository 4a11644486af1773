import UCore.Sfs.Accounting
import UCore.Sfs.Image

/-! # Durability of metadata

An inode that is not marked dirty is the one on the device, and so are the superblock and the
freemap. The mark is missing after a growth through an index block that stops in the middle.
-/

namespace UCore.Sfs

open Library

/-- The block of the inode holds the inode in memory. -/
def Saved (s : Fs) (ino : ℕ) : Prop := ∀ k < sizeofDiskInode, s.disk ino k = (s.din ino).bytes k

/-- The first blocks of the volume hold the superblock and the freemap in memory. -/
structure SuperSaved (s : Fs) : Prop where
  super : ∀ k < sizeofSuper, s.disk sfsBlknSuper k = s.superBytes k
  freemap : ∀ j < s.freemapBlocks, ∀ k < sfsBlksize,
    s.disk (sfsBlknFreemap + j) k = bitmapByte s.freemap (j * sfsBlksize + k)

/-- The superblock, the freemap and the inodes have blocks of their own. -/
structure Layout (s : Fs) (O : ℕ → Owner) (I : Set ℕ) : Prop where
  super : 0 < s.blocks
  freemap : ∀ j < s.freemapBlocks,
    O (sfsBlknFreemap + j) = .system ∧ sfsBlknFreemap + j < s.blocks
  inode : ∀ ino ∈ I, O ino = .system ∧ ino ≠ sfsBlknSuper ∧ ino < s.blocks ∧
    (ino < sfsBlknFreemap ∨ sfsBlknFreemap + s.freemapBlocks ≤ ino)

theorem Layout.freemap_le {s : Fs} {O : ℕ → Owner} {I : Set ℕ} (h : Layout s O I) :
    sfsBlknFreemap + s.freemapBlocks ≤ s.blocks := by
  have hpos : 0 < s.freemapBlocks := by
    have := h.super
    unfold Fs.freemapBlocks sfsBlkbits
    omega
  have := (h.freemap (s.freemapBlocks - 1) (by omega)).2
  omega

/-- What is not marked dirty is on the device. -/
structure Durable (s : Fs) (I : Set ℕ) : Prop where
  inode : ∀ ino ∈ I, (s.sin ino).dirty = false → Saved s ino
  super : s.superDirty = false → SuperSaved s

/-- A truncation that appends blocks through an existing index block of a clean inode appends all of
them or none. -/
def Fs.TruncMarks (s : Fs) (ino : ℕ) (len : ℤ) : Prop :=
  TruncRejects len ∨ len = (s.din ino).size ∨ ceilBlocks len.toNat ≤ (s.din ino).blocks ∨
    (s.sin ino).dirty = true ∨ (s.din ino).blocks < sfsNdirect ∨ (s.din ino).indirect = 0 ∨
    s.room ino (ceilBlocks len.toNat - (s.din ino).blocks) ≤ s.unusedBlocks ∨
    s.unusedBlocks < s.room ino 1

/-- How far a transfer to `endpos` gets with the free blocks of the volume. -/
def Fs.ioLimit (s : Fs) (ino endpos : ℕ) : ℕ :=
  min endpos (((s.din ino).blocks + s.unusedBlocks) * sfsBlksize)

/-- A transfer that appends blocks through an existing index block of a clean inode gets beyond the
size of the file. -/
def Fs.IoMarks (s : Fs) (ino : ℕ) (offset : ℤ) (len : ℕ) (write : Bool) : Prop :=
  IoRejects offset len ∨ s.ioEnd ino offset len write ≤ offset.toNat ∨
    (s.sin ino).dirty = true ∨ (s.din ino).blocks < sfsNdirect ∨ (s.din ino).indirect = 0 ∨
    s.ioLimit ino (s.ioEnd ino offset len write) ≤ (s.din ino).blocks * sfsBlksize ∨
    (s.din ino).size < s.ioLimit ino (s.ioEnd ino offset len write)

/-- The condition under which a call that changes a clean inode marks it. -/
def FileOp.Marks (s : Fs) : FileOp → Prop
  | .io ino _ offset len write => s.IoMarks ino offset len write
  | .truncfile ino len => s.TruncMarks ino len
  | .tryseek ino pos => SeekRejects pos ∨ pos ≤ (s.din ino).size ∨ s.TruncMarks ino pos

section Marks

variable {s t : Fs} {O O' : ℕ → Owner} {I : Set ℕ} {ino len : ℕ} {offset length pos : ℤ}
    {write : Bool}
  {buf : Buf}

theorem room_indirect {n : ℕ} (h : (s.din ino).indirect ≠ 0) : s.room ino n = n := by
  unfold Fs.room
  rw [if_neg fun hx => h hx.1]
  rfl

theorem cover_marked (h : t.sin ino = s.sin ino ∨ (t.sin ino).dirty = true ∨
    (t.din ino).size < offset.toNat + len) :
    (t.cover ino offset.toNat len).sin ino = s.sin ino ∨
      ((t.cover ino offset.toNat len).sin ino).dirty = true := by
  unfold Fs.cover
  split
  · rw [setSin_sin]
    exact .inr rfl
  · rename_i hlt
    rcases h with h | h | h
    · exact .inl h
    · exact .inr h
    · exact absurd h hlt

theorem Ranged.marked {r : ℤ × ℕ × Buf} (h : Ranged I ino s O buf offset len write r t)
    (hrel : s.Reliable) (hk : s.IoMarks ino offset len write) :
    t.sin ino = s.sin ino ∨ (t.sin ino).dirty = true := by
  rcases h with _ | _ | ⟨hrej, hlt, hm⟩
  · exact .inl rfl
  · exact .inl rfl
  rename_i ret m buf' t O'
  apply cover_marked
  rcases hm.marked with hsin | hdirty | hb
  · exact .inl hsin
  · exact .inr (.inl hdirty)
  by_cases hlink : (s.din ino).blocks < sfsNdirect ∨ (s.din ino).indirect = 0
  · exact .inr (.inl (hm.linked hb hlink))
  have hind : (s.din ino).indirect ≠ 0 := fun h => hlink (.inr h)
  have hblocks := hm.blocks hrel
  have hg := (hm.grown hrel).unused
  rw [room_indirect hind] at hg
  have hpos : 0 < m := by
    by_contra hn
    rw [if_pos (by omega)] at hblocks
    omega
  rw [if_neg (by omega)] at hblocks
  have hceil : (t.din ino).blocks = ceilBlocks (offset.toNat + m) := by omega
  have hle := hm.le
  have hover : (s.din ino).blocks * sfsBlksize < offset.toNat + m := lt_ceilBlocks.mp (by omega)
  have hlimit : s.ioLimit ino (s.ioEnd ino offset len write) ≤ offset.toNat + m := by
    unfold Fs.ioLimit
    by_cases hret : ret = 0
    · have := hm.done hret
      omega
    · obtain ⟨-, hshort, -, -, hend⟩ := hm.full hrel hret
      rw [room_indirect hind] at hshort
      rw [if_neg (by omega)] at hend
      have := Nat.mul_le_mul_right sfsBlksize
        (by omega : (s.din ino).blocks + s.unusedBlocks ≤ (t.din ino).blocks)
      omega
  have hmore : (s.din ino).blocks * sfsBlksize < s.ioLimit ino (s.ioEnd ino offset len write) := by
    unfold Fs.ioLimit
    have := Nat.mul_le_mul_right sfsBlksize
      (by omega : (s.din ino).blocks + 1 ≤ (s.din ino).blocks + s.unusedBlocks)
    rw [Nat.succ_mul] at this
    have hblk : 0 < sfsBlksize := by decide
    omega
  rcases hk with hk | hk | hk | hk | hk | hk | hk
  · exact absurd hk hrej
  · omega
  · exact .inr (.inl (hm.works.dirty hk))
  · exact absurd (.inl hk) hlink
  · exact absurd hk hind
  · omega
  · rw [hm.size]
    exact .inr (.inr (by omega))

theorem Truncated.marked {ret : ℤ} (h : Truncated I ino s O length ret t) (hrel : s.Reliable)
    (hk : s.TruncMarks ino length) : t.sin ino = s.sin ino ∨ (t.sin ino).dirty = true := by
  rcases h with _ | _ | ⟨hrej, hlen, hlt, hret, he⟩ | ⟨-, -, hret, hr⟩ | _ | _
  · exact .inl rfl
  · exact .inl rfl
  · rename_i k O'
    rcases Nat.eq_zero_or_pos k with rfl | hpos
    · exact .inl (congrFun (he.none rfl) ino)
    refine .inr ?_
    obtain ⟨-, hshort, -, hkn⟩ := he.full hrel hret
    have hg := (he.grown hrel).unused
    have hb : (t.din ino).blocks = (s.din ino).blocks + k := congrArg File.blocks he.file
    rw [hb, Nat.add_sub_cancel_left] at hg
    have h₁ := room_mono s ino (by omega : 1 ≤ k)
    have h₂ := room_mono s ino (by omega : k + 1 ≤ ceilBlocks length.toNat - (s.din ino).blocks)
    rcases hk with hk | hk | hk | hk | hk | hk | hk | hk
    · exact absurd hk hrej
    · exact absurd hk hlen
    · omega
    · exact he.works.dirty hk
    · exact he.dirty hpos (.inl hk)
    · exact he.dirty hpos (.inr hk)
    · omega
    · omega
  · exact absurd (hr.reliable hrel) hret
  · rw [setSin_sin]
    exact .inr rfl
  · rw [setSin_sin]
    exact .inr rfl

theorem FileOp.Step.marked {op : FileOp} (h : op.Step I s t) (hwf : Wf s O I) (hrel : s.Reliable)
    (hk : op.Marks s) : t.sin op.ino = s.sin op.ino ∨ (t.sin op.ino).dirty = true := by
  obtain ⟨hop, ret, hrun⟩ := h
  cases op with
  | io ino buf offset len write =>
    obtain ⟨⟨ret', alen, buf'⟩, u, hio, hret⟩ := Code.bind_eq_ok hrun
    obtain ⟨-, rfl⟩ : ret' = ret ∧ u = t := by simpa using hret
    have htype : (s.din ino).type ≠ sfsTypeDir := by
      obtain ⟨_, _, hassert, -⟩ := Code.bind_eq_ok hio
      exact (Code.assert_eq_ok hassert).1
    exact ((hwf.io_wp hop htype).ok hio).marked hrel hk
  | truncfile ino len => exact ((hwf.truncfile_wp hop).ok hrun).marked hrel hk
  | tryseek ino pos =>
    rcases (hwf.tryseek_wp hop).ok hrun with _ | _ | ⟨hrej, hlt, ht⟩
    · exact .inl rfl
    · exact .inl rfl
    · rcases hk with hk | hk | hk
      · exact absurd hk hrej
      · exact absurd hk (not_le.mpr hlt)
      · exact ht.marked hrel hk

end Marks

/-- A consistent volume on a device that works, with what is not dirty on the device. -/
structure Mounted (s : Fs) (O : ℕ → Owner) (I : Set ℕ) : Prop where
  wf : Wf s O I
  layout : Layout s O I
  reliable : s.Reliable
  durable : Durable s I
  loaded : ∀ ino ∈ s.inodeList, ino ∈ I

section Mounted

variable {s t : Fs} {O O' : ℕ → Owner} {I : Set ℕ} {ino : ℕ}

theorem freemapBlocks_congr (h : t.blocks = s.blocks) : t.freemapBlocks = s.freemapBlocks := by
  unfold Fs.freemapBlocks
  rw [h]

theorem superBytes_congr (h₁ : t.magic = s.magic) (h₂ : t.blocks = s.blocks)
    (h₃ : t.unusedBlocks = s.unusedBlocks) (h₄ : t.info = s.info) :
    t.superBytes = s.superBytes := by
  unfold Fs.superBytes
  rw [h₁, h₂, h₃, h₄]

/-- Work on an inode that leaves the inode as it was or marks it. -/
theorem Mounted.works (h : Mounted s O I) (hw : Works I ino s O t O')
    (hm : t.sin ino = s.sin ino ∨ (t.sin ino).dirty = true) : Mounted t O' I := by
  have hsys : ∀ {b}, O b = .system → O' b = .system ∧ t.disk b = s.disk b := by
    intro b hb
    obtain ⟨h₁, h₂⟩ := hw.keep b (by rw [hb]; trivial)
    exact ⟨h₁.trans hb, h₂⟩
  have hmap := freemapBlocks_congr hw.blocks
  refine ⟨hw.wf, ⟨?_, ?_, ?_⟩, hw.reliable h.reliable, ⟨?_, ?_⟩, ?_⟩
  · rw [hw.blocks]
    exact h.layout.super
  · rw [hmap, hw.blocks]
    intro j hj
    obtain ⟨h₁, h₂⟩ := h.layout.freemap j hj
    exact ⟨(hsys h₁).1, h₂⟩
  · rw [hmap, hw.blocks]
    intro j hj
    obtain ⟨h₁, h₂⟩ := h.layout.inode j hj
    exact ⟨(hsys h₁).1, h₂⟩
  · intro j hj hclean
    have hsame : t.sin j = s.sin j := by
      by_cases he : j = ino
      · subst he
        rcases hm with hm | hm
        · exact hm
        · rw [hclean] at hm
          cases hm
      · exact hw.sin j he
    have hsaved := h.durable.inode j hj (by rwa [hsame] at hclean)
    intro k hk
    rw [(hsys (h.layout.inode j hj).1).2, show t.din j = s.din j from congrArg Sin.din hsame]
    exact hsaved k hk
  · intro hclean
    rcases hw.super with hd | ⟨h₁, h₂, h₃⟩
    · rw [hclean] at hd
      cases hd
    · have hsaved := h.durable.super (by rw [← h₁]; exact hclean)
      have hzero : t.disk sfsBlknSuper = s.disk sfsBlknSuper := (hsys h.wf.zero).2
      constructor
      · rw [superBytes_congr hw.magic hw.blocks h₃ hw.info, hzero]
        exact hsaved.super
      · rw [hmap, h₂]
        intro j hj
        rw [(hsys (h.layout.freemap j hj).1).2]
        exact hsaved.freemap j hj
  · rw [hw.inodeList]
    exact h.loaded

end Mounted

section Sync

variable {s t : Fs} {O : ℕ → Owner} {I : Set ℕ} {ino blkno pos n : ℕ} {buf : Buf}

/-- Whole blocks are written to the device. -/
structure Wrote (s : Fs) (n : ℕ) (buf : Buf) (pos blkno : ℕ) (t : Fs) : Prop where
  written : ∀ j < n, ∀ k < sfsBlksize, t.disk (blkno + j) k = buf (pos + j * sfsBlksize + k)
  other : ∀ b, b < blkno ∨ blkno + n ≤ b → t.disk b = s.disk b
  same : ∃ m disk, t = { s with disk := disk, transfers := s.transfers.drop m }

theorem writeBlock_wp {check : Bool} (hrel : s.Reliable) (hb : blkno < s.blocks)
    (hc : blkno ≠ 0 ∨ check = false) :
    Code.Wp (sfsRwblockNolock buf pos blkno true check) s (fun _ => False) fun r t =>
      r = (0, buf) ∧ Wrote s 1 buf pos blkno t := by
  apply rwblock_wp
  · intro hn
    exact hn ⟨hc, hb⟩
  · intro hn
    exact absurd hrel.code hn
  · intro _ _
    refine ⟨rfl, ?_, ?_, 1, _, rfl⟩
    · intro j hj k hk
      obtain rfl : j = 0 := by omega
      change Function.update s.disk blkno _ blkno k = _
      rw [Function.update_self, memcpy_start hk, Nat.zero_mul]
      rfl
    · intro b hb
      exact patch_disk (by omega)
  · intro _ hw
    cases hw

theorem Wrote.reliable (h : Wrote s n buf pos blkno t) (hrel : s.Reliable) : t.Reliable := by
  obtain ⟨m, disk, rfl⟩ := h.same
  exact fun ret hr => hrel ret (List.mem_of_mem_drop hr)

theorem wblock_wp (hrel : s.Reliable) (hb : blkno + n ≤ s.blocks) (hne : blkno ≠ 0) :
    Code.Wp (sfsWblock buf pos blkno n) s (fun _ => False) fun r t =>
      r.1 = 0 ∧ Wrote s n buf pos blkno t := by
  unfold sfsWblock
  induction n generalizing s pos blkno with
  | zero =>
    refine Code.Wp.pure ⟨rfl, ?_, fun _ _ => rfl, 0, s.disk, rfl⟩
    intro j hj
    omega
  | succ n ih =>
    unfold sfsRwblock
    refine Code.Wp.bind (writeBlock_wp hrel (by omega) (.inl hne)) ?_
    rintro r t ⟨rfl, hw⟩
    dsimp only
    rw [if_neg (by simp)]
    have hrel' := hw.reliable hrel
    obtain ⟨m, disk, rfl⟩ := hw.same
    refine (ih hrel' (by change blkno + 1 + n ≤ s.blocks; omega) (by omega)).mono (fun _ h => h) ?_
    rintro r u ⟨hr, hu⟩
    obtain ⟨m', disk', rfl⟩ := hu.same
    refine ⟨hr, ?_, ?_, m + m', disk', ?_⟩
    · intro j hj k hk
      cases j with
      | zero =>
        rw [hu.other _ (.inl (by omega))]
        exact hw.written 0 (by omega) k hk
      | succ j =>
        have h₁ := hu.written j (by omega) k hk
        have h₂ : blkno + 1 + j = blkno + (j + 1) := by omega
        have h₃ : pos + sfsBlksize + j * sfsBlksize = pos + (j + 1) * sfsBlksize := by
          rw [Nat.succ_mul]
          omega
        rwa [h₂, h₃] at h₁
    · intro b hb
      rw [hu.other b (by omega), hw.other b (by omega)]
    · dsimp only
      rw [List.drop_drop]

/-- The state in which an inode was written back. -/
def Fs.writeBack (s : Fs) (ino : ℕ) : Fs :=
  ((s.setSin ino fun x => { x with dirty := false }).patch ino 0 (s.din ino).bytes 0
    sizeofDiskInode).later 2

theorem writeBack_sin {j : ℕ} : (s.writeBack ino).sin j =
    if j = ino then { s.sin ino with dirty := false } else s.sin j := by
  unfold Fs.writeBack
  change (s.setSin ino fun x => { x with dirty := false }).sin j = _
  by_cases hj : j = ino
  · subst hj
    rw [setSin_sin, if_pos rfl]
  · rw [setSin_sin_ne hj, if_neg hj]

theorem writeBack_clean {j : ℕ} (h : j = ino ∨ (s.sin j).dirty = false) :
    ((s.writeBack ino).sin j).dirty = false := by
  rw [writeBack_sin]
  split
  · rfl
  · rename_i hj
    exact h.resolve_left hj

theorem writeBack_din {j : ℕ} : (s.writeBack ino).din j = s.din j := by
  unfold Fs.din
  rw [writeBack_sin]
  split
  · rename_i hj
    rw [hj]
  · rfl

theorem writeBack_disk {b : ℕ} (hb : b ≠ ino) : (s.writeBack ino).disk b = s.disk b := patch_disk hb

theorem Mounted.writeBack (h : Mounted s O I) (hino : ino ∈ I) : Mounted (s.writeBack ino) O I := by
  obtain ⟨hsys, hzero, -, hmap⟩ := h.layout.inode ino hino
  have hwf : Wf (s.writeBack ino) O I := by
    refine h.wf.same rfl rfl rfl rfl (fun j => by rw [writeBack_din]; exact ⟨rfl, rfl⟩) ?_
    intro j hj i hi
    refine slot_congr (by rw [writeBack_din]) (by rw [writeBack_din]) (fun hne x _ => ?_) hi
    rw [writeBack_disk]
    intro he
    have ho := h.wf.index j hj hne
    rw [he, hsys] at ho
    cases ho
  refine ⟨hwf, ⟨h.layout.super, h.layout.freemap, h.layout.inode⟩, ?_, ⟨?_, ?_⟩, h.loaded⟩
  · intro ret hr
    exact h.reliable ret (List.mem_of_mem_drop hr)
  · intro j hj hclean k hk
    rw [writeBack_din]
    by_cases he : j = ino
    · subst he
      change Function.update s.disk j _ j k = _
      rw [Function.update_self, memcpy_start hk, Nat.zero_add]
    · rw [writeBack_disk he]
      rw [writeBack_sin, if_neg he] at hclean
      exact h.durable.inode j hj hclean k hk
  · intro hclean
    have hsaved := h.durable.super hclean
    constructor
    · rw [writeBack_disk (Ne.symm hzero)]
      exact hsaved.super
    · intro j hj
      have hj' : j < s.freemapBlocks := hj
      rw [writeBack_disk (by omega)]
      exact hsaved.freemap j hj

theorem Mounted.fsync_wp (h : Mounted s O I) (hino : ino ∈ I) :
    Code.Wp (sfsFsync ino) s (fun _ => False) fun ret t =>
      ret = 0 ∧ Mounted t O I ∧ (t.sin ino).dirty = false ∧
        (∀ j, (s.sin j).dirty = false → (t.sin j).dirty = false) ∧
        t.inodeList = s.inodeList ∧ ∀ j, t.din j = s.din j := by
  obtain ⟨-, hzero, hlt, -⟩ := h.layout.inode ino hino
  unfold sfsFsync
  apply Code.Wp.bind_get
  dsimp only
  by_cases hdirty : (s.sin ino).dirty = true
  · rw [if_pos hdirty]
    apply Code.Wp.bind_modify
    refine Code.Wp.bind (Q := fun r t => r.1 = 0 ∧ t = s.writeBack ino) ?_ ?_
    · apply sfsWbuf_wp
      · intro _ hn
        refine hn ⟨by decide, by decide, ?_, hlt⟩
        unfold sfsBlknSuper at hzero
        omega
      · intro n _ hn
        exact absurd h.reliable.code hn
      · intro _ _
        exact ⟨rfl, rfl⟩
    · rintro ⟨ret, b⟩ t ⟨hret, rfl⟩
      dsimp only at hret ⊢
      rw [if_neg (not_not.mpr hret)]
      exact Code.Wp.pure ⟨rfl, h.writeBack hino, writeBack_clean (.inl rfl),
        fun _ hj => writeBack_clean (.inr hj), rfl, fun _ => writeBack_din⟩
  · rw [if_neg hdirty]
    exact Code.Wp.pure ⟨rfl, h, by simpa using hdirty, fun _ hj => hj, rfl, fun _ => rfl⟩

theorem Mounted.fsyncAll_wp {l : List ℕ} (h : Mounted s O I) (hl : ∀ ino ∈ l, ino ∈ I) :
    Code.Wp (fsyncAll l) s (fun _ => False) fun _ t =>
      Mounted t O I ∧ (∀ ino ∈ l, (t.sin ino).dirty = false) ∧
        (∀ j, (s.sin j).dirty = false → (t.sin j).dirty = false) ∧
        t.inodeList = s.inodeList ∧ ∀ j, t.din j = s.din j := by
  induction l generalizing s with
  | nil => exact Code.Wp.pure ⟨h, by simp, fun _ hj => hj, rfl, fun _ => rfl⟩
  | cons ino l ih =>
    unfold fsyncAll
    refine Code.Wp.bind (h.fsync_wp (hl ino (by simp))) ?_
    rintro ret t ⟨-, ht, hclean, hkeep, hlist, hdin⟩
    refine (ih ht fun j hj => hl j (by simp [hj])).mono (fun _ he => he) ?_
    rintro - u ⟨hu, hall, hkeep', hlist', hdin'⟩
    refine ⟨hu, ?_, fun j hj => hkeep' j (hkeep j hj), hlist'.trans hlist,
      fun j => (hdin' j).trans (hdin j)⟩
    intro j hj
    rcases List.mem_cons.mp hj with rfl | hj
    · exact hkeep' j hclean
    · exact hall j hj

theorem Wrote.wf (h : Wrote s n buf pos blkno t) (hwf : Wf s O I)
    (hsys : ∀ b, blkno ≤ b → b < blkno + n → O b = .system) : Wf t O I := by
  have hother := h.other
  obtain ⟨m, disk, rfl⟩ := h.same
  refine hwf.same rfl rfl rfl rfl (fun _ => ⟨rfl, rfl⟩) ?_
  intro j hj i hi
  refine slot_congr rfl rfl (fun hne x _ => ?_) hi
  have ho := hwf.index j hj hne
  rw [hother]
  by_contra hn
  rw [hsys _ (by omega) (by omega)] at ho
  cases ho

/-- The superblock and the freemap are written back. -/
theorem Mounted.syncSuper {u v : Fs} (h : Mounted s O I)
    (hu : Wrote { s with superDirty := false } 1 (memcpy zeros 0 s.superBytes 0 sizeofSuper) 0
      sfsBlknSuper u)
    (hv : Wrote u s.freemapBlocks (bitmapByte s.freemap) 0 sfsBlknFreemap v) :
    Mounted v O I ∧ SuperSaved v ∧ v.sin = s.sin ∧ v.inodeList = s.inodeList := by
  have hwf : Wf { s with superDirty := false } O I :=
    h.wf.same rfl rfl rfl rfl (fun _ => ⟨rfl, rfl⟩) fun _ _ _ _ => rfl
  have hwfu : Wf u O I := by
    refine hu.wf hwf fun b _ hb => ?_
    obtain rfl : b = 0 := by
      unfold sfsBlknSuper at hb
      omega
    exact h.wf.zero
  have hwfv : Wf v O I := by
    refine hv.wf hwfu fun b hb hb' => ?_
    obtain ⟨j, rfl⟩ := Nat.exists_eq_add_of_le hb
    exact (h.layout.freemap j (by omega)).1
  have hrel : v.Reliable := hv.reliable (hu.reliable h.reliable)
  have hdisk : ∀ b, b ≠ sfsBlknSuper → (b < sfsBlknFreemap ∨ sfsBlknFreemap + s.freemapBlocks ≤ b) →
      v.disk b = s.disk b := by
    intro b h₀ hb
    rw [hv.other b hb, hu.other b (by unfold sfsBlknSuper at *; omega)]
  have hsuper : ∀ k < sizeofSuper, v.disk sfsBlknSuper k = s.superBytes k := by
    intro k hk
    have hk' : k < sfsBlksize := hk.trans (by decide)
    have hw := hu.written 0 (by omega) k hk'
    rw [hv.other _ (.inl (by decide))]
    rw [Nat.zero_mul, Nat.zero_add, memcpy_start hk, Nat.zero_add] at hw
    exact hw
  have hmap : ∀ j < s.freemapBlocks, ∀ k < sfsBlksize,
      v.disk (sfsBlknFreemap + j) k = bitmapByte s.freemap (j * sfsBlksize + k) := by
    intro j hj k hk
    rw [hv.written j hj k hk, Nat.zero_add]
  obtain ⟨m, disk, rfl⟩ := hu.same
  obtain ⟨m', disk', rfl⟩ := hv.same
  refine ⟨⟨hwfv, ⟨h.layout.super, h.layout.freemap, h.layout.inode⟩, hrel,
    ⟨?_, fun _ => ⟨hsuper, hmap⟩⟩,
    h.loaded⟩, ⟨hsuper, hmap⟩, rfl, rfl⟩
  intro ino hino hclean k hk
  obtain ⟨-, h₁, -, h₂⟩ := h.layout.inode ino hino
  rw [hdisk ino h₁ h₂]
  exact h.durable.inode ino hino hclean k hk

/-- `sfs_sync` on a device that works writes everything back. -/
theorem Mounted.sync_wp (h : Mounted s O I) : Code.Wp sfsSync s (fun _ => False) fun ret t =>
    ret = 0 ∧ Mounted t O I ∧ (∀ ino ∈ t.inodeList, Saved t ino) ∧ SuperSaved t ∧
      t.inodeList = s.inodeList ∧ ∀ j, t.din j = s.din j := by
  unfold sfsSync
  apply Code.Wp.bind_get
  refine Code.Wp.bind (h.fsyncAll_wp h.loaded) ?_
  rintro - t ⟨ht, hclean, -, hlist, hdin⟩
  have hsaved : ∀ {v : Fs}, Mounted v O I → v.sin = t.sin → v.inodeList = t.inodeList →
      ∀ ino ∈ v.inodeList, Saved v ino := by
    intro v hv hsin hl ino hi
    refine hv.durable.inode ino (hv.loaded ino hi) ?_
    rw [hsin]
    exact hclean ino (by rwa [hl, hlist] at hi)
  apply Code.Wp.bind_get
  by_cases hd : t.superDirty = true
  · rw [if_pos hd]
    apply Code.Wp.bind_modify
    refine Code.Wp.bind (Q := fun r u => r = 0 ∧ Wrote { t with superDirty := false } 1
      (memcpy zeros 0 t.superBytes 0 sizeofSuper) 0 sfsBlknSuper u) ?_ ?_
    · unfold sfsSyncSuper
      apply Code.Wp.bind_get
      refine Code.Wp.bind (writeBlock_wp ht.reliable ht.layout.super (.inr rfl)) ?_
      rintro r u ⟨rfl, hu⟩
      exact Code.Wp.pure ⟨rfl, hu⟩
    rintro ret u ⟨rfl, hu⟩
    rw [if_neg (by simp)]
    have hrel := hu.reliable ht.reliable
    obtain ⟨hblocks, hfree⟩ : u.blocks = t.blocks ∧ u.freemap = t.freemap := by
      obtain ⟨m, disk, rfl⟩ := hu.same
      exact ⟨rfl, rfl⟩
    have hmap := freemapBlocks_congr hblocks
    refine Code.Wp.bind (Q := fun r v => r = 0 ∧ Wrote u t.freemapBlocks (bitmapByte t.freemap) 0
      sfsBlknFreemap v) ?_ ?_
    · unfold sfsSyncFreemap
      apply Code.Wp.bind_get
      rw [hmap, hfree]
      refine Code.Wp.bind (wblock_wp hrel ?_ (by decide)) ?_
      · rw [hblocks]
        exact ht.layout.freemap_le
      · rintro ⟨ret, b⟩ v ⟨hret, hv⟩
        exact Code.Wp.pure ⟨hret, hv⟩
    rintro ret v ⟨rfl, hv⟩
    rw [if_neg (by simp)]
    obtain ⟨hm, hs, hsin, hl⟩ := ht.syncSuper hu hv
    refine Code.Wp.pure ⟨rfl, hm, hsaved hm hsin hl, hs, hl.trans hlist, fun j => ?_⟩
    rw [← hdin j]
    exact congrArg Sin.din (congrFun hsin j)
  · rw [if_neg hd]
    exact Code.Wp.pure ⟨rfl, ht, hsaved ht rfl rfl, ht.durable.super (by simpa using hd),
      hlist, hdin⟩

end Sync

/-- A call of a file operation, of `sfs_fsync`, or of `sfs_sync`. -/
inductive VolumeOp
  | file (op : FileOp)
  | fsync (ino : ℕ)
  | sync

namespace VolumeOp

/-- The call returns, and it leaves the state `t`. -/
def Step (I : Set ℕ) (s : Fs) : VolumeOp → Fs → Prop
  | file op, t => op.Step I s t
  | fsync ino, t => ino ∈ I ∧ ∃ ret, sfsFsync ino s = .ok (ret, t)
  | sync, t => ∃ ret, sfsSync s = .ok (ret, t)

/-- The condition under which the call marks what it changes. -/
def Marks (s : Fs) : VolumeOp → Prop
  | file op => op.Marks s
  | _ => True

end VolumeOp

section Runs

variable {s t : Fs} {I : Set ℕ} {l : List VolumeOp}

theorem Mounted.step {O : ℕ → Owner} {op : VolumeOp} (h : Mounted s O I) (hstep : op.Step I s t)
    (hk : op.Marks s) : ∃ O', Mounted t O' I := by
  cases op with
  | file op =>
    obtain ⟨hop, ret, hrun⟩ := hstep
    obtain ⟨O', hw⟩ := (h.wf.op_wp hop).ok hrun
    exact ⟨O', h.works hw (FileOp.Step.marked ⟨hop, ret, hrun⟩ h.wf h.reliable hk)⟩
  | fsync ino =>
    obtain ⟨hino, ret, hrun⟩ := hstep
    exact ⟨O, ((h.fsync_wp hino).ok hrun).2.1⟩
  | sync =>
    obtain ⟨ret, hrun⟩ := hstep
    exact ⟨O, (h.sync_wp.ok hrun).2.1⟩

/-- In a run whose calls meet the condition what is not dirty is on the device, and `sfs_sync`
succeeds and writes the loaded inodes, the superblock and the freemap back. -/
theorem metadata_durable (hs : ∃ O, Mounted s O I)
    (h : Runs (fun s op t => VolumeOp.Step I s op t ∧ op.Marks s) s l t) :
    Durable t I ∧ ∃ u, sfsSync t = .ok (0, u) ∧ (∀ ino ∈ t.inodeList, Saved u ino) ∧ SuperSaved u ∧
      ∀ ino, u.din ino = t.din ino := by
  obtain ⟨O, ht⟩ := h.invariant (P := fun s => ∃ O, Mounted s O I)
    (fun _ _ _ ⟨_, hp⟩ hstep => hp.step hstep.1 hstep.2) hs
  obtain ⟨ret, u, hrun, rfl, hu, hsaved, hsuper, hlist, hdin⟩ := ht.sync_wp.returns
  refine ⟨ht.durable, u, hrun, ?_, hsuper, hdin⟩
  rw [← hlist]
  exact hsaved

theorem image_mounted {n k : ℕ} (hk : k ≤ maxBlocks) (hn : Image.used k ≤ n)
    (hn' : n ≤ sfsBlkbits) :
    Mounted (image n k []) (Image.owner n k) imageInodes := by
  have hu := used_eq (k := k)
  have h7 : 7 ≤ n := by
    split at hu <;> omega
  have hone : (image n k []).freemapBlocks = 1 := by
    change (n + sfsBlkbits - 1) / sfsBlkbits = 1
    unfold sfsBlkbits at *
    omega
  refine ⟨image_wf hk hn hn', ⟨?_, ?_, ?_⟩, by simp [Fs.Reliable, image], ⟨?_, ?_⟩, ?_⟩
  · change 0 < n
    omega
  · rw [hone]
    intro j hj
    obtain rfl : j = 0 := by omega
    refine ⟨rfl, ?_⟩
    change 2 < n
    omega
  · rw [hone]
    rintro ino (rfl | rfl)
    · refine ⟨rfl, by decide, ?_, .inl (by decide)⟩
      change 1 < n
      omega
    · refine ⟨rfl, by decide, ?_, .inr (by decide)⟩
      change 5 < n
      omega
  · rintro ino (rfl | rfl) - i -
    · rfl
    · rfl
  · rintro -
    refine ⟨fun i hi => ?_, ?_⟩
    · have hdisk : (image n k []).disk sfsBlknSuper =
          memcpy zeros 0 (image n k []).superBytes 0 sizeofSuper := rfl
      rw [hdisk, memcpy_start hi, Nat.zero_add]
    · rw [hone]
      intro j hj i hi
      obtain rfl : j = 0 := by omega
      rw [Nat.zero_mul, Nat.zero_add]
      rfl
  · intro ino hino
    change ino ∈ [5, 1] at hino
    simp only [List.mem_cons, List.not_mem_nil, or_false] at hino
    exact hino.symm

/-- A seek beyond the end of an empty file appends two blocks. -/
theorem metadata_durable_image : ∃ t, (t.din 5).blocks = 2 ∧ ∃ u, sfsSync t = .ok (0, u) ∧
    ∀ ino ∈ t.inodeList, Saved u ino := by
  have hm : Mounted (image 9 0 []) _ imageInodes :=
    image_mounted (by decide) (by decide) (by decide)
  have hrun : (FileOp.exec (image 9 0 []) (.tryseek 5 5000)).map (fun t => (t.din 5).blocks == 2) =
      some true := by decide +kernel
  obtain ⟨t, ht, hx⟩ := Option.map_eq_some_iff.mp hrun
  have hexec : ([.tryseek 5 5000] : List FileOp).foldlM FileOp.exec (image 9 0 []) = some t := by
    simp [ht]
  have hr := FileOp.runs_of_exec (I := imageInodes) hexec (by simp [FileOp.ino, imageInodes])
  cases hr with
  | cons h h' =>
    cases h'
    have hstep : VolumeOp.Step imageInodes (image 9 0 []) (.file (.tryseek 5 5000)) t := h
    have hmarks : VolumeOp.Marks (image 9 0 []) (.file (.tryseek 5 5000)) :=
      .inr (.inr (.inr (.inr (.inr (.inr (.inl (by decide)))))))
    obtain ⟨-, u, hu, hsaved, -⟩ := metadata_durable ⟨_, hm⟩ (.cons ⟨hstep, hmarks⟩ (.nil t))
    exact ⟨t, by simpa using hx, u, hu, hsaved⟩

/-- What the volume has after a sync, for what can be decided of it. -/
def syncedTo (t : Fs) (P : Fs → Bool) : Bool :=
  match sfsSync t with
  | .ok (ret, u) => ret == 0 && P u
  | .error _ => false

/-- A truncation of a file of 13 blocks to 15 blocks on a volume with one free block fails and
leaves 14 blocks; `sfs_sync` then succeeds and the device still says 13. -/
theorem metadata_stale : (∃ O, Mounted (image 22 13 []) O imageInodes) ∧
    ∃ t u, Runs (fun s op t => VolumeOp.Step imageInodes s op t) (image 22 13 [])
        [.file (.truncfile 5 61440)] t ∧ (t.din 5).blocks = 14 ∧ (t.sin 5).dirty = false ∧
      ¬ Saved t 5 ∧ sfsSync t = .ok (0, u) ∧ 5 ∈ u.inodeList ∧ ¬ Saved u 5 := by
  have hm : Mounted (image 22 13 []) _ imageInodes :=
    image_mounted (by decide) (by decide) (by decide)
  have hrun : (FileOp.exec (image 22 13 []) (.truncfile 5 61440)).map (fun t =>
      (t.din 5).blocks == 14 && !(t.sin 5).dirty && t.disk 5 8 == 13 && (t.din 5).bytes 8 == 14 &&
        syncedTo t fun u => u.inodeList == [5, 1] && u.disk 5 8 == 13 && (u.din 5).bytes 8 == 14) =
      some true := by decide +kernel
  obtain ⟨t, ht, hx⟩ := Option.map_eq_some_iff.mp hrun
  have hexec : ([.truncfile 5 61440] : List FileOp).foldlM FileOp.exec (image 22 13 []) =
    some t := by
    simp [ht]
  have hr := FileOp.runs_of_exec (I := imageInodes) hexec (by simp [FileOp.ino, imageInodes])
  obtain ⟨⟨⟨⟨hblocks, hdirty⟩, hdisk⟩, hbyte⟩, hsync⟩ : ((((t.din 5).blocks = 14 ∧
      (t.sin 5).dirty = false) ∧ t.disk 5 8 = 13) ∧ (t.din 5).bytes 8 = 14) ∧
      syncedTo t (fun u => u.inodeList == [5, 1] && u.disk 5 8 == 13 && (u.din 5).bytes 8 == 14) =
        true := by
    simpa only [Bool.and_eq_true, Bool.not_eq_true', beq_iff_eq] using hx
  have hstale : ∀ {v : Fs}, v.disk 5 8 = 13 → (v.din 5).bytes 8 = 14 → ¬ Saved v 5 := by
    intro v h₁ h₂ hsaved
    have := hsaved 8 (by decide)
    rw [h₁, h₂] at this
    exact absurd this (by decide)
  unfold syncedTo at hsync
  split at hsync
  · rename_i ret u hu
    obtain ⟨rfl, ⟨hlist, hd⟩, hb⟩ : ret = 0 ∧ (u.inodeList = [5, 1] ∧ u.disk 5 8 = 13) ∧
        (u.din 5).bytes 8 = 14 := by
      simpa only [Bool.and_eq_true, beq_iff_eq] using hsync
    refine ⟨⟨_, hm⟩, t, u, ?_, hblocks, hdirty, hstale hdisk hbyte, hu, ?_, hstale hd hb⟩
    · cases hr with
      | cons h h' =>
        cases h'
        have hstep : VolumeOp.Step imageInodes (image 22 13 []) (.file (.truncfile 5 61440)) t := h
        exact .cons hstep (.nil t)
    · rw [hlist]
      exact List.mem_cons_self
  · cases hsync

end Runs

end UCore.Sfs

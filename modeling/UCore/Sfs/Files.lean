import UCore.Sfs.Owners

/-! # The bytes of a file

A file is seen as its bytes, which are zero from the last block on. Work on one file leaves the
blocks of the other files and of the file system alone.
-/

namespace UCore.Sfs

open Library

/-- The blocks that work on the inode `ino` leaves alone. -/
def Owner.Foreign (ino : ℕ) : Owner → Prop
  | .free => False
  | .lost => False
  | .system => True
  | .data j _ => j ≠ ino
  | .index j => j ≠ ino

@[ext] structure File where
  size : ℕ
  blocks : ℕ
  byte : Buf

namespace Fs

variable (s : Fs) (ino : ℕ)

def byte : Buf := fun k =>
  if k / sfsBlksize < (s.din ino).blocks then s.disk (s.slot ino (k / sfsBlksize)) (k % sfsBlksize)
  else 0

def file : File := ⟨(s.din ino).size, (s.din ino).blocks, s.byte ino⟩

end Fs

/-- The state `t` comes from the consistent state `s` by work on the inode `ino`. -/
structure Works (I : Set ℕ) (ino : ℕ) (s : Fs) (O : ℕ → Owner) (t : Fs)
    (O' : ℕ → Owner) : Prop where
  wf : Wf t O' I
  sin : ∀ j ≠ ino, t.sin j = s.sin j
  type : (t.din ino).type = (s.din ino).type
  dirty : (s.sin ino).dirty = true → (t.sin ino).dirty = true
  super : t.superDirty = true ∨
    t.superDirty = s.superDirty ∧ t.freemap = s.freemap ∧ t.unusedBlocks = s.unusedBlocks
  transfers : ∃ n, t.transfers = s.transfers.drop n
  blocks : t.blocks = s.blocks
  nbits : t.nbits = s.nbits
  magic : t.magic = s.magic
  info : t.info = s.info
  inodeList : t.inodeList = s.inodeList
  keep : ∀ b, (O b).Foreign ino → O' b = O b ∧ t.disk b = s.disk b

section Slots

variable {s t : Fs} {d d' : Buf} {j i k b : ℕ}

theorem entry_congr (h : ∀ x < sfsBlksize, d x = d' x) (hk : k < sfsBlkNentry) :
    entry d k = entry d' k := by
  unfold sfsBlkNentry at hk
  refine getU32_congr fun x hx => h _ ?_
  unfold sfsBlksize
  omega

theorem entry_memcpy (hb : b < 2 ^ 32) : entry (memcpy d (k * 4) (putUint b) 0 4) i =
    if i = k then b else entry d i := by
  by_cases hi : i = k
  · subst hi
    rw [if_pos rfl, ← getU32_putUint hb]
    refine getU32_congr fun x hx => ?_
    rw [memcpy_in hx, Nat.zero_add]
    rw [getU32_putUint hb]
  · rw [if_neg hi]
    exact getU32_congr fun x hx => memcpy_out (by omega)

theorem entry_zeros (h : ∀ x < sfsBlksize, d x = 0) (hk : k < sfsBlkNentry) : entry d k = 0 := by
  have he : entry d k = entry zeros k := entry_congr h hk
  rw [he]
  simp [entry, getU32, zeros]

theorem slot_congr (hdirect : (t.din j).direct = (s.din j).direct)
    (hindirect : (t.din j).indirect = (s.din j).indirect)
    (hdisk : (s.din j).indirect ≠ 0 → ∀ x < sfsBlksize,
      t.disk (s.din j).indirect x = s.disk (s.din j).indirect x) (hi : i < maxBlocks) :
    t.slot j i = s.slot j i := by
  unfold maxBlocks at hi
  unfold Fs.slot
  rw [hdirect, hindirect]
  split
  · rfl
  · split
    · rfl
    · rename_i h₁ h₂
      exact entry_congr (hdisk h₂) (by omega)

end Slots

namespace Works

variable {s t u : Fs} {O O' O'' : ℕ → Owner} {I : Set ℕ} {ino j i : ℕ}

theorem refl (h : Wf s O I) : Works I ino s O s O :=
  ⟨h, fun _ _ => rfl, rfl, id, .inr ⟨rfl, rfl, rfl⟩, ⟨0, rfl⟩, rfl, rfl, rfl, rfl, rfl,
    fun _ _ => ⟨rfl, rfl⟩⟩

theorem trans (h : Works I ino s O t O') (h' : Works I ino t O' u O'') : Works I ino s O u O'' where
  wf := h'.wf
  sin j hj := (h'.sin j hj).trans (h.sin j hj)
  type := h'.type.trans h.type
  dirty hd := h'.dirty (h.dirty hd)
  super := by
    rcases h'.super with hs | ⟨h₁, h₂, h₃⟩
    · exact .inl hs
    · rw [h₁, h₂, h₃]
      exact h.super
  transfers := by
    obtain ⟨n, hn⟩ := h.transfers
    obtain ⟨m, hm⟩ := h'.transfers
    exact ⟨n + m, by rw [hm, hn, List.drop_drop]⟩
  blocks := h'.blocks.trans h.blocks
  nbits := h'.nbits.trans h.nbits
  magic := h'.magic.trans h.magic
  info := h'.info.trans h.info
  inodeList := h'.inodeList.trans h.inodeList
  keep b hb := by
    obtain ⟨h₁, h₂⟩ := h.keep b hb
    obtain ⟨h₃, h₄⟩ := h'.keep b (by rw [h₁]; exact hb)
    exact ⟨h₃.trans h₁, h₄.trans h₂⟩

theorem reliable (h : Works I ino s O t O') (hr : s.Reliable) : t.Reliable := by
  obtain ⟨n, hn⟩ := h.transfers
  intro ret hret
  rw [hn] at hret
  exact hr ret (List.mem_of_mem_drop hret)

theorem din_other (h : Works I ino s O t O') (hj : j ≠ ino) : t.din j = s.din j := by
  unfold Fs.din
  rw [h.sin j hj]

theorem slot_other (h : Works I ino s O t O') (hs : Wf s O I) (hjI : j ∈ I) (hj : j ≠ ino)
    (hi : i < maxBlocks) : t.slot j i = s.slot j i := by
  have hd := h.din_other hj
  refine slot_congr (by rw [hd]) (by rw [hd]) (fun hne x _ => ?_) hi
  rw [(h.keep _ (by rw [hs.index j hjI hne]; exact hj)).2]

theorem file_other (h : Works I ino s O t O') (hs : Wf s O I) (hjI : j ∈ I) (hj : j ≠ ino) :
    t.file j = s.file j := by
  have hd := h.din_other hj
  unfold Fs.file
  rw [hd]
  congr 1
  funext k
  unfold Fs.byte
  rw [hd]
  split
  · rename_i hk
    have hm := hk.trans_le (hs.reach j hjI)
    rw [h.slot_other hs hjI hj hm, (h.keep _ (by rw [hs.data j hjI _ hk]; exact hj)).2]
  · rfl

end Works

end UCore.Sfs

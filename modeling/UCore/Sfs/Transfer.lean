import UCore.Sfs.Shrink

/-! # Transfers of bytes

What `sfs_io_nolock` does to the file and to the buffer, from one part of a block to the whole
range.
-/

namespace UCore.Sfs

open Library

/-- The bytes of a file and of a buffer after `n` bytes were moved between them. -/
def xfer (write : Bool) (byte buf : Buf) (offset pos n : ℕ) : Buf × Buf :=
  if write then (memcpy byte offset buf pos n, buf) else (byte, memcpy buf pos byte offset n)

section Xfer

variable {write : Bool} {byte buf d src : Buf} {offset pos from' n m : ℕ}

@[simp] theorem memcpy_zero : memcpy d pos src from' 0 = d := by
  funext i
  exact memcpy_out (by omega)

theorem memcpy_append : memcpy (memcpy d pos src from' n) (pos + n) src (from' + n) m =
    memcpy d pos src from' (n + m) := by
  funext i
  rcases Nat.lt_or_ge i pos with h | h
  · rw [memcpy_out (by omega), memcpy_out (by omega), memcpy_out (by omega)]
  obtain ⟨k, rfl⟩ := Nat.exists_eq_add_of_le h
  rcases Nat.lt_or_ge k n with h₁ | h₁
  · rw [memcpy_out (by omega), memcpy_in h₁, memcpy_in (by omega)]
  obtain ⟨k, rfl⟩ := Nat.exists_eq_add_of_le h₁
  rcases Nat.lt_or_ge k m with h₂ | h₂
  · rw [← Nat.add_assoc, memcpy_in h₂, Nat.add_assoc, Nat.add_assoc, memcpy_in (by omega)]
  · rw [memcpy_out (by omega), memcpy_out (by omega), memcpy_out (by omega)]

@[simp] theorem xfer_zero : xfer write byte buf offset pos 0 = (byte, buf) := by
  unfold xfer
  simp

theorem xfer_append : xfer write (xfer write byte buf offset pos n).1
    (xfer write byte buf offset pos n).2 (offset + n) (pos + n) m =
      xfer write byte buf offset pos (n + m) := by
  unfold xfer
  cases write <;> simp [memcpy_append]

end Xfer

theorem room_mono (s : Fs) (ino : ℕ) {n m : ℕ} (h : n ≤ m) : s.room ino n ≤ s.room ino m := by
  unfold Fs.room
  split
  · rw [if_pos (by omega)]
    omega
  · split <;> omega

/-- The blocks that were appended to the inode are those missing from the free blocks. -/
structure Grown (ino : ℕ) (s t : Fs) : Prop where
  le : (s.din ino).blocks ≤ (t.din ino).blocks
  unused : t.unusedBlocks + s.room ino ((t.din ino).blocks - (s.din ino).blocks) = s.unusedBlocks
  indirect : (t.din ino).indirect = 0 ↔ (s.din ino).indirect = 0 ∧ (t.din ino).blocks ≤ sfsNdirect

namespace Grown

variable {s t u : Fs} {O O' : ℕ → Owner} {I : Set ℕ} {ino b n : ℕ}

theorem of_blocks (h : Wf s O I) (hino : ino ∈ I) (hdin : t.din ino = s.din ino)
    (hunused : t.unusedBlocks = s.unusedBlocks) : Grown ino s t where
  le := by rw [hdin]
  unused := by
    have hn : ¬ ((s.din ino).indirect = 0 ∧ sfsNdirect < (s.din ino).blocks + 0) := by
      rintro ⟨h₀, hlt⟩
      exact h.indirect_ne_zero hino (by omega) h₀
    rw [hdin, hunused, Nat.sub_self]
    unfold Fs.room
    rw [if_neg hn]
    rfl
  indirect := by
    rw [hdin]
    constructor
    · intro h₀
      refine ⟨h₀, ?_⟩
      by_contra hn
      exact h.indirect_ne_zero hino (by omega) h₀
    · exact fun h => h.1

theorem room (h : Grown ino s t) :
    t.room ino n + s.room ino ((t.din ino).blocks - (s.din ino).blocks) =
      s.room ino ((t.din ino).blocks - (s.din ino).blocks + n) := by
  have hle := h.le
  have hi := h.indirect
  unfold Fs.room
  by_cases h₀ : (s.din ino).indirect = 0
  · by_cases ht : (t.din ino).blocks ≤ sfsNdirect
    · have h₁ : (t.din ino).indirect = 0 := hi.mpr ⟨h₀, ht⟩
      rw [if_neg (by omega : ¬ ((s.din ino).indirect = 0 ∧ sfsNdirect < (s.din ino).blocks +
        ((t.din ino).blocks - (s.din ino).blocks)))]
      by_cases hn : sfsNdirect < (t.din ino).blocks + n
      · rw [if_pos ⟨h₁, hn⟩, if_pos ⟨h₀, by omega⟩]
        omega
      · rw [if_neg fun h => hn h.2, if_neg (by omega)]
        omega
    · have h₁ : (t.din ino).indirect ≠ 0 := fun h => ht (hi.mp h).2
      rw [if_neg fun h => h₁ h.1, if_pos ⟨h₀, by omega⟩, if_pos ⟨h₀, by omega⟩]
      omega
  · have h₁ : (t.din ino).indirect ≠ 0 := fun h => h₀ (hi.mp h).1
    rw [if_neg fun h => h₁ h.1, if_neg fun h => h₀ h.1, if_neg fun h => h₀ h.1]
    omega

theorem trans (h : Grown ino s t) (h' : Grown ino t u) : Grown ino s u where
  le := h.le.trans h'.le
  unused := by
    have h₁ := h.unused
    have h₂ := h'.unused
    have h₃ := h.room (n := (u.din ino).blocks - (t.din ino).blocks)
    have h₄ := h.le
    have h₅ := h'.le
    have h₆ : (t.din ino).blocks - (s.din ino).blocks + ((u.din ino).blocks - (t.din ino).blocks) =
        (u.din ino).blocks - (s.din ino).blocks := by omega
    rw [h₆] at h₃
    omega
  indirect := by
    rw [h'.indirect, h.indirect]
    have := h'.le
    constructor
    · rintro ⟨⟨h₁, -⟩, h₂⟩
      exact ⟨h₁, h₂⟩
    · rintro ⟨h₁, h₂⟩
      exact ⟨⟨h₁, by omega⟩, h₂⟩

theorem of_appends (h : Appends I ino s O b t O') : Grown ino s t := by
  have hblocks : (t.din ino).blocks = (s.din ino).blocks + 1 := congrArg File.blocks h.file
  refine ⟨by omega, ?_, ?_⟩
  · rw [hblocks, Nat.add_sub_cancel_left]
    exact h.unused
  · rw [h.indirect, hblocks]
    constructor
    · rintro ⟨h₁, h₂⟩
      exact ⟨h₁, by omega⟩
    · rintro ⟨h₁, h₂⟩
      exact ⟨h₁, by omega⟩

end Grown

/-- The block `i` of the inode was loaded, and it is the block `b`. -/
structure Ready (I : Set ℕ) (ino : ℕ) (s : Fs) (O : ℕ → Owner) (i b : ℕ) (t : Fs) (O' : ℕ → Owner) :
    Prop where
  works : Works I ino s O t O'
  le : i ≤ (s.din ino).blocks
  slot : t.slot ino i = b
  size : (t.din ino).size = (s.din ino).size
  byte : t.byte ino = s.byte ino
  blocks : (t.din ino).blocks = max (s.din ino).blocks (i + 1)
  marked : t.sin ino = s.sin ino ∨ (s.din ino).blocks < (t.din ino).blocks
  linked : (s.din ino).blocks < (t.din ino).blocks →
    (s.din ino).blocks < sfsNdirect ∨ (s.din ino).indirect = 0 → (t.sin ino).dirty = true
  within : i < (s.din ino).blocks →
    t.freemap = s.freemap ∧ t.unusedBlocks = s.unusedBlocks ∧ t.sin ino = s.sin ino
  grown : Grown ino s t

/-- `n` bytes were moved between a block of the file and the buffer, or nothing was. -/
structure Part (I : Set ℕ) (ino : ℕ) (s : Fs) (O : ℕ → Owner) (write : Bool)
    (offset n : ℕ) (buf : Buf)
    (pos : ℕ) (ret : ℤ) (buf' : Buf) (t : Fs) : Prop where
  works : Works I ino s O t O
  sin : t.sin = s.sin
  freemap : t.freemap = s.freemap
  unused : t.unusedBlocks = s.unusedBlocks
  moved : ret ≠ 0 ∧ ¬ s.Reliable ∧ t.byte ino = s.byte ino ∧ buf' = buf ∨
    ret = 0 ∧ (t.byte ino, buf') = xfer write (s.byte ino) buf offset pos n

section Part

variable {s t : Fs} {O O' : ℕ → Owner} {I : Set ℕ} {ino i b off pos n : ℕ}
    {write : Bool} {buf : Buf}

theorem Load.ready {r : ℤ × ℕ} (h : Load I ino s O i r t) (hwf : Wf s O I) (hino : ino ∈ I)
    (hr : r.1 = 0) : ∃ O', Ready I ino s O i r.2 t O' := by
  rcases h with ⟨hne, -, -, -, -, -, -, -⟩ | hlt | ⟨hi, hm, ha⟩
  · exact absurd hr hne
  · refine ⟨O, hwf.works_later, hlt.le, rfl, rfl, rfl, ?_, .inl rfl,
      fun h => absurd h (lt_irrefl (s.din ino).blocks), fun _ => ⟨rfl, rfl, rfl⟩,
      .of_blocks hwf hino rfl rfl⟩
    change (s.din ino).blocks = _
    omega
  · have hblocks : (t.din ino).blocks = (s.din ino).blocks + 1 := congrArg File.blocks ha.file
    refine ⟨_, ha.works, by omega, ?_, congrArg File.size ha.file,
      congrArg File.byte ha.file, by omega,
      .inr (by omega), fun _ => ha.dirty, fun h => by omega, .of_appends ha⟩
    rw [hi]
    exact ha.slot

theorem byte_block (hi : i < (s.din ino).blocks) {k : ℕ} (hk : k < sfsBlksize) :
    s.byte ino (i * sfsBlksize + k) = s.disk (s.slot ino i) k := by
  have h₁ : (i * sfsBlksize + k) / sfsBlksize = i := by
    rw [Nat.mul_comm, Nat.mul_add_div (by decide), Nat.div_eq_of_lt hk, Nat.add_zero]
  have h₂ : (i * sfsBlksize + k) % sfsBlksize = k := by
    rw [Nat.mul_comm, Nat.mul_add_mod, Nat.mod_eq_of_lt hk]
  unfold Fs.byte
  rw [h₁, h₂, if_pos hi]

theorem memcpy_byte (hi : i < (s.din ino).blocks) (hn : off + n ≤ sfsBlksize) :
    memcpy buf pos (s.disk (s.slot ino i)) off n =
      memcpy buf pos (s.byte ino) (i * sfsBlksize + off) n := by
  funext k
  by_cases hk : pos ≤ k ∧ k < pos + n
  · obtain ⟨x, rfl⟩ := Nat.exists_eq_add_of_le hk.1
    rw [memcpy_in (by omega), memcpy_in (by omega), Nat.add_assoc, byte_block hi (by omega)]
  · rw [memcpy_out (by omega), memcpy_out (by omega)]

/-- Bytes are written to a block of a file. -/
theorem Wf.patch (h : Wf s O I) (hino : ino ∈ I) (hi : i < (s.din ino).blocks)
    (hn : off + n ≤ sfsBlksize) :
    Works I ino s O (s.patch (s.slot ino i) off buf pos n) O ∧
      (s.patch (s.slot ino i) off buf pos n).byte ino =
        memcpy (s.byte ino) (i * sfsBlksize + off) buf pos n := by
  have hO := h.data ino hino i hi
  have hslot : ∀ j ∈ I, ∀ k < maxBlocks,
      (s.patch (s.slot ino i) off buf pos n).slot j k = s.slot j k := by
    intro j hj k hk
    refine slot_congr rfl rfl (fun hne x _ => ?_) hk
    rw [patch_disk]
    intro he
    have ho := h.index j hj hne
    rw [he, hO] at ho
    cases ho
  constructor
  · refine Wf.works_patch ?_ ?_
    · exact h.same rfl rfl rfl rfl (fun _ => ⟨rfl, rfl⟩) hslot
    · rw [hO]
      simp [Owner.Foreign]
  · funext k
    have hreach := h.reach ino hino
    change (if k / sfsBlksize < (s.din ino).blocks then _ else _) = _
    by_cases hk : k / sfsBlksize < (s.din ino).blocks
    · rw [if_pos hk, hslot ino hino _ (by omega)]
      have hdiv := Nat.div_add_mod k sfsBlksize
      have hmod : k % sfsBlksize < sfsBlksize := mod_lt_blksize
      by_cases he : k / sfsBlksize = i
      · rw [he]
        change Function.update s.disk _ _ (s.slot ino i) _ = _
        rw [Function.update_self]
        rw [he, Nat.mul_comm] at hdiv
        rw [← hdiv]
        generalize k % sfsBlksize = x at hmod
        rw [Nat.mul_comm, Nat.mul_add_mod, Nat.mod_eq_of_lt hmod, Nat.mul_comm]
        by_cases hx : off ≤ x ∧ x < off + n
        · obtain ⟨y, rfl⟩ := Nat.exists_eq_add_of_le hx.1
          rw [memcpy_in (by omega), ← Nat.add_assoc, memcpy_in (by omega)]
        · rw [memcpy_out (by omega), memcpy_out (by omega), byte_block hi hmod]
      · have hne : s.slot ino (k / sfsBlksize) ≠ s.slot ino i := fun hs =>
          he (h.slot_inj hino hk hino hi hs).2
        have hout : k < i * sfsBlksize + off ∨ i * sfsBlksize + off + n ≤ k := by
          rcases Nat.lt_or_gt_of_ne he with hlt | hlt
          · exact .inl ((Nat.div_lt_iff_lt_mul (by decide)).mp hlt |>.trans_le (by omega))
          · have := (Nat.le_div_iff_mul_le (k := sfsBlksize) (by decide)).mp hlt
            rw [Nat.succ_mul] at this
            exact .inr (by omega)
        rw [patch_disk hne, memcpy_out hout]
        unfold Fs.byte
        rw [if_pos hk]
    · have hout : i * sfsBlksize + off + n ≤ k := by
        have h₁ := (Nat.le_div_iff_mul_le (k := sfsBlksize) (by decide)).mp (Nat.not_lt.mp hk)
        have h₂ : (i + 1) * sfsBlksize ≤ (s.din ino).blocks * sfsBlksize :=
          Nat.mul_le_mul_right _ hi
        rw [Nat.succ_mul] at h₂
        omega
      rw [if_neg hk, memcpy_out (.inr hout)]
      unfold Fs.byte
      rw [if_neg hk]

theorem Part.failed (h : Wf s O I) {ret : ℤ} {m : ℕ} {offset : ℕ} (hret : ret ≠ 0)
    (hr : ¬ s.Reliable) : Part I ino s O write offset n buf pos ret buf (s.later m) :=
  ⟨h.works_later, rfl, rfl, rfl, .inl ⟨hret, hr, rfl, rfl⟩⟩

theorem Part.fetched (h : Wf s O I) (hi : i < (s.din ino).blocks)
    (hn : off + n ≤ sfsBlksize) {m : ℕ} :
    Part I ino s O false (i * sfsBlksize + off) n buf pos 0
      (memcpy buf pos (s.disk (s.slot ino i)) off n) (s.later m) := by
  refine ⟨h.works_later, rfl, rfl, rfl, .inr ⟨rfl, ?_⟩⟩
  rw [memcpy_byte hi hn]
  rfl

theorem Part.stored (h : Wf s O I) (hino : ino ∈ I) (hi : i < (s.din ino).blocks)
    (hn : off + n ≤ sfsBlksize) {m : ℕ} :
    Part I ino s O true (i * sfsBlksize + off) n buf pos 0 buf
      ((s.patch (s.slot ino i) off buf pos n).later m) := by
  have hp : Works I ino s O (s.patch (s.slot ino i) off buf pos n) O ∧ _ := h.patch hino hi hn
  obtain ⟨h₁, h₂⟩ := hp
  refine ⟨h₁.trans h₁.wf.works_later, rfl, rfl, rfl, .inr ⟨rfl, ?_⟩⟩
  rw [xfer, if_pos rfl, ← h₂]
  rfl

theorem Wf.bufOp_wp (h : Wf s O I) (hino : ino ∈ I) (hi : i < (s.din ino).blocks)
    (hoff : off < sfsBlksize) (hn : off + n ≤ sfsBlksize) :
    Code.Wp (sfsBufOp write buf pos n (s.slot ino i) off) s (fun _ => False) fun r t =>
      Part I ino s O write (i * sfsBlksize + off) n buf pos r.1 r.2 t := by
  have hu := (h.mapped hino (hi.trans_le (h.reach ino hino))).slot (h.slot_ne_zero hino hi)
  unfold sfsBufOp
  cases write with
  | false =>
    rw [if_neg (by decide)]
    apply sfsRbuf_wp
    · intro _ hx
      exact hx ⟨hoff, hn, hu.1, hu.2.1⟩
    · intro hc
      exact .failed h hc fun hr => hc hr.code
    · intro _ _
      exact .fetched h hi hn
  | true =>
    rw [if_pos rfl]
    apply sfsWbuf_wp
    · intro _ hx
      exact hx ⟨hoff, hn, hu.1, hu.2.1⟩
    · intro k _ hc
      exact .failed h hc fun hr => hc hr.code
    · intro _ _
      exact .stored h hino hi hn

/-- `sfs_block_op` on a block of the file. -/
theorem Wf.blockOp_wp (h : Wf s O I) (hino : ino ∈ I) (hi : i < (s.din ino).blocks) :
    Code.Wp (sfsBlockOp write buf pos (s.slot ino i)) s (fun _ => False) fun r t =>
      Part I ino s O write (i * sfsBlksize) sfsBlksize buf pos r.1 r.2 t := by
  have hu := (h.mapped hino (hi.trans_le (h.reach ino hino))).slot (h.slot_ne_zero hino hi)
  have key : ∀ w, Code.Wp (sfsRwblock w 1 buf pos (s.slot ino i)) s (fun _ => False) fun r t =>
      Part I ino s O w (i * sfsBlksize) sfsBlksize buf pos r.1 r.2 t := by
    intro w
    unfold sfsRwblock
    refine Code.Wp.bind (Q := fun r t =>
      Part I ino s O w (i * sfsBlksize) sfsBlksize buf pos r.1 r.2 t) ?_ ?_
    · apply rwblock_wp
      · intro hx
        have := hu.1
        exact hx ⟨.inl (by omega), hu.2.1⟩
      · intro hc
        exact .failed h hc fun hr => hc hr.code
      · rintro _ rfl
        have hp : Part I ino s O true (i * sfsBlksize + 0) sfsBlksize buf pos 0 buf _ :=
          .stored (m := 1) h hino hi (Nat.zero_add _).le
        rwa [Nat.add_zero] at hp
      · rintro _ rfl
        have hp : Part I ino s O false (i * sfsBlksize + 0) sfsBlksize buf pos 0 _ (s.later 1) :=
          .fetched h hi (Nat.zero_add _).le
        rwa [Nat.add_zero] at hp
    · rintro ⟨ret, b⟩ t hp
      dsimp only at hp ⊢
      by_cases hr : ret = 0
      · rw [if_neg (not_not.mpr hr)]
        subst hr
        exact Code.Wp.pure hp
      · rw [if_pos hr]
        exact Code.Wp.pure hp
  unfold sfsBlockOp sfsRblock sfsWblock
  cases write <;> exact key _

end Part

end UCore.Sfs

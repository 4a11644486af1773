import UCore.Sfs.Volume

/-! # Allocation of blocks

What the allocating functions leave behind, when any transfer may fail: which blocks were taken from
the freemap, and that no block in use was touched.
-/

namespace UCore.Sfs

open Library

/-- The number of free blocks in the freemap. -/
def Fs.freeCount (s : Fs) : ℕ := ((Finset.range s.nbits).filter fun b => s.freemap b = true).card

/-- After `n` transfers the blocks `l` are taken. Blocks in use and inodes are as before. -/
structure Takes (s : Fs) (n : ℕ) (l : List ℕ) (t : Fs) : Prop where
  freemap : ∀ b, t.freemap b = true ↔ s.freemap b = true ∧ b ∉ l
  fresh : ∀ b ∈ l, s.freemap b = true
  range : ∀ b ∈ l, b < s.nbits
  nodup : l.Nodup
  count : t.freeCount + l.length = s.freeCount
  unused : t.unusedBlocks + l.length = s.unusedBlocks
  disk : ∀ b, s.freemap b = false → t.disk b = s.disk b
  sin : t.sin = s.sin
  transfers : t.transfers = s.transfers.drop n
  superDirty : t.superDirty = true ∨ t.superDirty = s.superDirty ∧ l = []
  blocks : t.blocks = s.blocks
  nbits : t.nbits = s.nbits
  magic : t.magic = s.magic
  info : t.info = s.info
  inodeList : t.inodeList = s.inodeList

def Zeroed (t : Fs) (b : ℕ) : Prop := ∀ k < sfsBlksize, t.disk b k = 0

namespace Takes

variable {s t u : Fs} {n m b k : ℕ} {l l' : List ℕ}

theorem refl (s : Fs) : Takes s 0 [] s := by
  constructor <;> simp

theorem later (h : Takes s n l t) : Takes s (n + m) l (t.later m) :=
  ⟨h.freemap, h.fresh, h.range, h.nodup, h.count, h.unused, h.disk, h.sin, by
    rw [Fs.later, h.transfers, List.drop_drop], h.superDirty, h.blocks, h.nbits, h.magic, h.info,
    h.inodeList⟩

theorem code (h : Takes s n l t) : t.code k = s.code (n + k) := by
  unfold Fs.code
  rw [h.transfers, List.getD_eq_getElem?_getD, List.getD_eq_getElem?_getD, List.getElem?_drop]

theorem used (h : Takes s n l t) (hb : s.freemap b = false) : t.freemap b = false := by
  by_contra hn
  have := ((h.freemap b).mp (by simpa using hn)).1
  simp [hb] at this

theorem taken (h : Takes s n l t) (hb : b ∈ l) : t.freemap b = false := by
  by_contra hn
  exact ((h.freemap b).mp (by simpa using hn)).2 hb

theorem trans (h : Takes s n l t) (h' : Takes t m l' u) : Takes s (n + m) (l ++ l') u where
  freemap b := by
    rw [h'.freemap, h.freemap, List.mem_append]
    tauto
  fresh b hb := by
    rcases List.mem_append.mp hb with hb | hb
    · exact h.fresh b hb
    · exact ((h.freemap b).mp (h'.fresh b hb)).1
  range b hb := by
    rcases List.mem_append.mp hb with hb | hb
    · exact h.range b hb
    · rw [← h.nbits]
      exact h'.range b hb
  nodup := by
    refine List.nodup_append'.mpr ⟨h.nodup, h'.nodup, fun b hb hb' => ?_⟩
    exact ((h.freemap b).mp (h'.fresh b hb')).2 hb
  count := by
    have h₁ := h.count
    have h₂ := h'.count
    rw [List.length_append]
    omega
  unused := by
    have h₁ := h.unused
    have h₂ := h'.unused
    rw [List.length_append]
    omega
  disk b hb := (h'.disk b (h.used hb)).trans (h.disk b hb)
  sin := h'.sin.trans h.sin
  transfers := by rw [h'.transfers, h.transfers, List.drop_drop]
  superDirty := by
    rcases h'.superDirty with hd | ⟨hd, rfl⟩
    · exact .inl hd
    · rw [hd, List.append_nil]
      exact h.superDirty
  blocks := h'.blocks.trans h.blocks
  nbits := h'.nbits.trans h.nbits
  magic := h'.magic.trans h.magic
  info := h'.info.trans h.info
  inodeList := h'.inodeList.trans h.inodeList

theorem perm (h : Takes s n l t) (hp : l.Perm l') : Takes s n l' t where
  freemap b := by
    rw [h.freemap, hp.mem_iff]
  fresh b hb := h.fresh b (hp.mem_iff.mpr hb)
  range b hb := h.range b (hp.mem_iff.mpr hb)
  nodup := hp.nodup_iff.mp h.nodup
  count := by
    rw [← hp.length_eq]
    exact h.count
  unused := by
    rw [← hp.length_eq]
    exact h.unused
  disk := h.disk
  sin := h.sin
  transfers := h.transfers
  superDirty := h.superDirty.imp id fun hd => ⟨hd.1, by simpa [hd.2] using hp.symm⟩
  blocks := h.blocks
  nbits := h.nbits
  magic := h.magic
  info := h.info
  inodeList := h.inodeList

/-- One of the blocks taken is given back. -/
theorem give (h : Takes s n (b :: l) t) : Takes s n l (t.give b) where
  freemap b' := by
    by_cases hx : b' = b
    · subst hx
      have hl : b' ∉ l := (List.nodup_cons.mp h.nodup).1
      simpa [Fs.give, hl] using h.fresh b' (by simp)
    · have := h.freemap b'
      simpa [Fs.give, hx] using this
  fresh b' hb' := h.fresh b' (List.mem_cons_of_mem _ hb')
  range b' hb' := h.range b' (List.mem_cons_of_mem _ hb')
  nodup := (List.nodup_cons.mp h.nodup).2
  count := by
    have hc := card_filter_update (s := Finset.range t.nbits) (f := t.freemap) (a := b) (b := true)
      (fun x => x = true) (Finset.mem_range.mpr (by rw [h.nbits]; exact h.range b (by simp)))
    have hf := h.taken (b := b) (by simp)
    have := h.count
    simp only [hf, if_true, Bool.false_eq_true, if_false, Nat.add_zero] at hc
    simp only [Fs.freeCount, List.length_cons] at this ⊢
    change ((Finset.range t.nbits).filter fun x =>
      Function.update t.freemap b true x = true).card + _ = _
    omega
  unused := by
    have := h.unused
    simp only [List.length_cons] at this
    change t.unusedBlocks + 1 + l.length = _
    omega
  disk := h.disk
  sin := h.sin
  transfers := h.transfers
  superDirty := .inl rfl
  blocks := h.blocks
  nbits := h.nbits
  magic := h.magic
  info := h.info
  inodeList := h.inodeList

theorem sound (h : Takes s n l t) (hs : s.Sound) : t.Sound where
  bits := by
    rw [h.blocks, h.nbits]
    exact hs.bits
  free b hb := by
    rw [h.blocks]
    exact hs.free b ((h.freemap b).mp hb).1
  count := by
    have h₁ := h.count
    have h₂ := h.unused
    have h₃ := hs.count
    unfold Fs.freeCount at h₁
    omega

theorem inUse (h : Takes s n l t) (hs : s.Sound) (hb : b ∈ l) : t.InUse b := by
  have hr := hs.free b (h.fresh b hb)
  exact ⟨hr.1, by rw [h.blocks]; exact hr.2, h.taken hb⟩

theorem zeroed (h : Takes t m l' u) (hb : t.freemap b = false) (hz : Zeroed t b) :
    Zeroed u b := by
  intro k hk
  rw [h.disk b hb]
  exact hz k hk

end Takes

section Alloc

variable {s t : Fs} {b n ix : ℕ} {f : ℕ → Bool}

theorem firstSet_none (h : firstSet f n ix = none) : ∀ b, ix ≤ b → b < ix + n → f b = false := by
  induction n generalizing ix with
  | zero => intro b h₁ h₂; omega
  | succ n ih =>
    unfold firstSet at h
    split at h
    · cases h
    · rename_i hf
      intro b h₁ h₂
      rcases Nat.eq_or_lt_of_le h₁ with rfl | h₁
      · simpa using hf
      · exact ih h b h₁ (by omega)

theorem firstSet_least (h : firstSet f n ix = some b) :
    f b = true ∧ b < ix + n ∧ ∀ j, ix ≤ j → j < b → f j = false := by
  induction n generalizing ix with
  | zero => cases h
  | succ n ih =>
    unfold firstSet at h
    split at h
    · rename_i hf
      obtain rfl := Option.some.inj h
      exact ⟨hf, by omega, fun j h₁ h₂ => absurd h₂ (by omega)⟩
    · rename_i hf
      obtain ⟨h₁, h₂, h₃⟩ := ih h
      refine ⟨h₁, by omega, fun j hj hjb => ?_⟩
      rcases Nat.eq_or_lt_of_le hj with rfl | hj
      · simpa using hf
      · exact h₃ j hj hjb

theorem takes_take (hb : s.freemap b = true) (hn : b < s.nbits) (hpos : 0 < s.unusedBlocks) :
    Takes s 0 [b] (s.take b) where
  freemap b' := by
    by_cases hx : b' = b
    · simp [Fs.take, hx]
    · simp [Fs.take, hx]
  fresh b' hb' := by
    obtain rfl := List.mem_singleton.mp hb'
    exact hb
  range b' hb' := by
    obtain rfl := List.mem_singleton.mp hb'
    exact hn
  nodup := List.nodup_singleton b
  count := by
    have hc := card_filter_update (s := Finset.range s.nbits) (f := s.freemap) (a := b) (b := false)
      (fun x => x = true) (Finset.mem_range.mpr hn)
    simp only [hb, if_true, Bool.false_eq_true, if_false, Nat.add_zero] at hc
    simp only [Fs.freeCount, List.length_singleton]
    change ((Finset.range s.nbits).filter fun x =>
      Function.update s.freemap b false x = true).card + _ = _
    omega
  unused := by
    change s.unusedBlocks - 1 + 1 = _
    omega
  disk _ _ := rfl
  sin := rfl
  transfers := rfl
  superDirty := .inl rfl
  blocks := rfl
  nbits := rfl
  magic := rfl
  info := rfl
  inodeList := rfl

theorem patch_disk {b' offset pos m : ℕ} {buf : Buf} (h : b' ≠ b) :
    (s.patch b offset buf pos m).disk b' = s.disk b' := Function.update_of_ne h ..

theorem Takes.patch {s : Fs} {l : List ℕ} {offset pos m : ℕ} {buf : Buf} (h : Takes s n l t)
    (hb : s.freemap b = true) : Takes s n l (t.patch b offset buf pos m) :=
  ⟨h.freemap, h.fresh, h.range, h.nodup, h.count, h.unused, fun b' hb' => by
    rw [patch_disk (by rintro rfl; simp [hb] at hb'), h.disk b' hb'], h.sin, h.transfers,
    h.superDirty, h.blocks, h.nbits, h.magic, h.info, h.inodeList⟩

theorem zeroed_clear : Zeroed (s.clear b) b := by
  intro k hk
  simp only [Fs.clear, Fs.patch, Function.update_self]
  rw [memcpy_start hk]
  rfl

theorem sfsBlockInuse_wp {E : Panic → Prop} {Q : Bool → Fs → Prop}
    (hE : ∀ e, ¬ (0 < b ∧ b < s.blocks ∧ s.blocks ≤ s.nbits) → E e)
    (hQ : 0 < b → b < s.blocks → Q (!s.freemap b) s) : Code.Wp (sfsBlockInuse b) s E Q := by
  unfold sfsBlockInuse
  apply Code.Wp.bind_get
  split
  · rename_i h
    unfold bitmapTest
    refine Code.Wp.bind (Q := fun r t => r = s.freemap b ∧ s = t) ?_ ?_
    · refine Code.Wp.bind_assert (fun _ => ?_) fun hn => hE _ fun h' => hn (h'.2.1.trans_le h'.2.2)
      exact Code.Wp.bind_get (Code.Wp.pure ⟨rfl, rfl⟩)
    · rintro r t ⟨rfl, rfl⟩
      exact Code.Wp.pure (hQ (by omega) h.2)
  · rename_i h
    exact .of_error rfl (hE _ fun h' => h ⟨by omega, h'.2.1⟩)

theorem assertInuse_wp {E : Panic → Prop} {Q : Unit → Fs → Prop}
    (hE : ∀ e, ¬ (s.Sound ∧ s.InUse b) → E e) (hQ : s.InUse b → Q () s) :
    Code.Wp (assertInuse b) s E Q := by
  unfold assertInuse
  have hrange : ∀ e, ¬ (0 < b ∧ b < s.blocks ∧ s.blocks ≤ s.nbits) → E e := by
    intro e h
    exact hE e fun h' => h ⟨h'.2.1, h'.2.2.1, h'.1.bits⟩
  refine Code.Wp.bind (Q := fun r t => r = !s.freemap b ∧ 0 < b ∧ b < s.blocks ∧ s = t)
    (sfsBlockInuse_wp hrange fun h₁ h₂ => ⟨rfl, h₁, h₂, rfl⟩) ?_
  rintro r t ⟨rfl, h₁, h₂, rfl⟩
  cases hf : s.freemap b with
  | true => exact .of_error rfl (hE _ fun h => by simp [h.2.2.2] at hf)
  | false => exact Code.Wp.pure (hQ ⟨h₁, h₂, hf⟩)

/-- `sfs_block_alloc`: no block is free, or the new block could not be cleared and stays taken, or
it is taken and holds zeros. -/
theorem sfsBlockAlloc_wp : Code.Wp sfsBlockAlloc s (fun _ => ¬ s.Sound) fun r t =>
    r = (-eNoMem, 0) ∧ t = s ∧ s.freeCount = 0 ∨
      0 < s.freeCount ∧ r.1 = s.code 0 ∧ 0 < r.2 ∧ Takes s 1 [r.2] t ∧
        (r.1 = 0 → Zeroed t r.2) := by
  unfold sfsBlockAlloc
  cases hf : firstSet s.freemap s.nbits 0 with
  | none =>
    have hr : bitmapAlloc s = .ok ((-eNoMem, 0), s) := by rw [bitmapAlloc, hf]
    refine Code.Wp.bind_of hr ?_
    refine Code.Wp.pure (.inl ⟨rfl, rfl, ?_⟩)
    rw [Fs.freeCount, Finset.card_eq_zero, Finset.filter_eq_empty_iff]
    intro b hb
    simp [firstSet_none hf b (by omega) (by simpa using hb)]
  | some b =>
    obtain ⟨hb, hn, -⟩ := firstSet_least hf
    rw [Nat.zero_add] at hn
    have hr : bitmapAlloc s =
      .ok ((0, b), { s with freemap := Function.update s.freemap b false }) := by
      rw [bitmapAlloc, hf]
    refine Code.Wp.bind_of hr ?_
    refine Code.Wp.bind_assert (fun hpos => ?_) fun h hs => h (hs.pos hb)
    change 0 < s.unusedBlocks at hpos
    refine Code.Wp.bind_modify ?_
    change Code.Wp _ (s.take b) _ _
    have hcount : 0 < s.freeCount :=
      Finset.card_pos.mpr ⟨b, Finset.mem_filter.mpr ⟨Finset.mem_range.mpr hn, hb⟩⟩
    refine Code.Wp.bind (Q := fun _ t => 0 < b ∧ s.take b = t) ?_ ?_
    · refine assertInuse_wp (fun e h hs => h ⟨hs.take hb, ?_⟩) fun h => ⟨h.1, rfl⟩
      exact ⟨(hs.free b hb).1, (hs.free b hb).2, by simp [Fs.take]⟩
    rintro - t ⟨hb₀, rfl⟩
    have htake : Takes s 0 [b] (s.take b) := takes_take hb hn hpos
    have hlater : ∀ {t : Fs}, Takes s 0 [b] t → Takes s 1 [b] (t.later 1) :=
      fun h => h.later (m := 1)
    unfold sfsClearBlock
    refine Code.Wp.bind (Q := fun r t => r = s.code 0 ∧ Takes s 1 [b] t ∧
      (r = 0 → Zeroed t b)) ?_ ?_
    · refine Code.Wp.bind (Q := fun r t => r.1 = s.code 0 ∧ Takes s 1 [b] t ∧
        (r.1 = 0 → Zeroed t b)) ?_ fun r t h => Code.Wp.pure h
      have hc : (s.take b).code 0 = s.code 0 := rfl
      refine rwblock_wp (fun h hs => ?_) (fun h => ⟨rfl, hlater htake, fun h₀ => absurd h₀ h⟩)
        (fun h _ => ?_) (by simp)
      · have := hs.free b hb
        exact h ⟨.inl (by omega), this.2⟩
      · rw [hc] at h
        exact ⟨h.symm, hlater (htake.patch hb), fun _ => zeroed_clear⟩
    · rintro ret t ⟨rfl, h, hz⟩
      exact Code.Wp.pure (.inr ⟨hcount, rfl, hb₀, h, hz⟩)

theorem sfsBlockFree_wp {E : Panic → Prop} {Q : Unit → Fs → Prop}
    (hE : ∀ e, ¬ (s.Sound ∧ s.InUse b) → E e) (hQ : s.InUse b → Q () (s.give b)) :
    Code.Wp (sfsBlockFree b) s E Q := by
  unfold sfsBlockFree
  refine Code.Wp.bind (Q := fun _ t => s.InUse b ∧ s = t) (assertInuse_wp hE fun h => ⟨h, rfl⟩) ?_
  rintro - t ⟨hb, rfl⟩
  unfold bitmapFree
  refine Code.Wp.bind (Q := fun _ t =>
    t = { s with freemap := Function.update s.freemap b true }) ?_ ?_
  · refine Code.Wp.bind_assert (fun _ => ?_) fun h => hE _ fun hs => h (hs.2.2.1.trans_le hs.1.bits)
    refine Code.Wp.bind_assert (fun _ => ?_) fun h => absurd hb.2.2 h
    exact .of_ok rfl rfl
  · rintro - t rfl
    exact .of_ok rfl (hQ hb)

end Alloc

end UCore.Sfs

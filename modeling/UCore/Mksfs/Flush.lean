import UCore.Mksfs.Walk

/-! # The image file

What `close_sfs` writes: the freemap, the super block, the cached tables and the inodes. Every other
block keeps the contents that it was given when it was handed out.
-/

namespace UCore.Mksfs

open Library Sfs Vfs

/-- The blocks in `P` are written, with the contents `c`. -/
def Writes (P : ℕ → Prop) (c : ℕ → Buf) (m m' : Writer) : Prop :=
  ∃ d, m' = { m with disk := d } ∧ ∀ b, (P b → d b = c b) ∧ (¬ P b → d b = m.disk b)

namespace Writes

variable {P P' Q : ℕ → Prop} {c c' : ℕ → Buf} {m m' m'' : Writer}

theorem refl : Writes (fun _ => False) c m m := ⟨m.disk, rfl, fun _ => ⟨False.elim, fun _ => rfl⟩⟩

theorem trans (h : Writes P c m m') (h' : Writes P' c m' m'') :
    Writes (fun b => P b ∨ P' b) c m m'' := by
  obtain ⟨d, rfl, hd⟩ := h
  obtain ⟨d', rfl, hd'⟩ := h'
  refine ⟨d', rfl, fun b => ⟨fun hb => ?_, fun hb => ?_⟩⟩
  · by_cases hp : P' b
    · exact (hd' b).1 hp
    · rw [(hd' b).2 hp]
      exact (hd b).1 (hb.resolve_right hp)
  · rw [not_or] at hb
    rw [(hd' b).2 hb.2]
    exact (hd b).2 hb.1

theorem congr (h : Writes P c m m') (hP : ∀ b, P b ↔ Q b) : Writes Q c m m' := by
  obtain ⟨d, hm, hd⟩ := h
  exact ⟨d, hm, fun b => ⟨fun hb => (hd b).1 ((hP b).mpr hb), fun hb => (hd b).2 fun hp =>
    hb ((hP b).mp hp)⟩⟩

theorem one {b : ℕ} {x : Buf} (hx : x = c b) :
    Writes (fun y => y = b) c m { m with disk := Function.update m.disk b x } := by
  refine ⟨_, rfl, fun y => ⟨?_, fun hy => Function.update_of_ne hy _ _⟩⟩
  rintro rfl
  rw [Function.update_self, hx]

theorem eq (h : Writes P c m m') : m' = { m with disk := m'.disk } := by
  obtain ⟨d, rfl, -⟩ := h
  rfl

theorem disk_of (h : Writes P c m m') {b : ℕ} (hb : P b) : m'.disk b = c b := by
  obtain ⟨d, rfl, hd⟩ := h
  exact (hd b).1 hb

theorem disk_ne (h : Writes P c m m') {b : ℕ} (hb : ¬ P b) : m'.disk b = m.disk b := by
  obtain ⟨d, rfl, hd⟩ := h
  exact (hd b).2 hb

end Writes

section Close

variable {m m' : Writer} {A : Places} {O : ℕ → Option Owner} {c : ℕ → Buf} {data : Buf}
  {len b i : ℕ} {l : List ℕ}

theorem writeBlock_writes (hlen : len ≤ sfsBlksize) (hb : b < m.ninos)
    (hc : memcpy zeros 0 data 0 len = c b) :
    (writeBlock data len b).Wp m (fun _ => False) fun _ m' => Writes (fun y => y = b) c m m' :=
  Code.Wp.bind_assert (fun _ => Writes.one hc) fun h => h ⟨hlen, hb⟩

/-- The block of the freemap: a bit is set when the block is free. -/
def freemapBlock (m : Writer) (b : ℕ) : Buf := fun x =>
  if x < sfsBlksize then
    bitmapByte (fun j => decide (m.nextIno ≤ (b - sfsBlknFreemap) * sfsBlkbits + j ∧
      (b - sfsBlknFreemap) * sfsBlkbits + j < m.ninos)) x
  else 0

theorem writeFreemap_writes : ∀ n i m, sfsBlknFreemap + i + n ≤ m.ninos →
    (writeFreemap n (sfsBlknFreemap + i)).Wp m (fun _ => False)
    fun _ m' => Writes (fun b => sfsBlknFreemap + i ≤ b ∧ b < sfsBlknFreemap + i + n)
      (freemapBlock m) m m' := by
  intro n
  induction n with
  | zero =>
    intro i m _
    exact Code.Wp.pure (Writes.refl.congr fun b => iff_of_false id (by omega))
  | succ n ih =>
    intro i m hr
    refine Code.Wp.bind_get ?_
    refine (writeBlock_writes (c := freemapBlock m) (le_refl _) (by omega) ?_).bind ?_
    · funext x
      unfold memcpy freemapBlock zeros bitmapByte
      have hB : sfsBlksize = 4096 := rfl
      have hbits : sfsBlkbits = 32768 := rfl
      simp only [Nat.zero_le, true_and, Nat.zero_add, Nat.sub_zero]
      split
      next hx =>
        refine congrArg (fun l => UInt8.ofNat (List.sum l)) (List.map_congr_left fun k hk => ?_)
        have hk := List.mem_range.mp hk
        refine if_congr (decide_eq_true_iff.trans (Iff.trans ?_ decide_eq_true_iff.symm)) rfl rfl
        split_ifs <;> omega
      next => rfl
    · rintro - m₁ hw
      have hm₁ : freemapBlock m₁ = freemapBlock m := by
        rw [hw.eq]
        rfl
      have hn₁ : m₁.ninos = m.ninos := by rw [hw.eq]
      refine (ih (i + 1) m₁ (by omega)).mono (fun _ he => he) fun _ m₂ hw₂ => ?_
      rw [hm₁] at hw₂
      exact (hw.trans hw₂).congr fun b => by omega

def Writer.IsInode (m : Writer) (b : ℕ) : Prop := ∃ h < hashListSize, b ∈ m.inodes h

instance : DecidablePred m.IsInode := fun b =>
  inferInstanceAs (Decidable (∃ h < hashListSize, b ∈ m.inodes h))

/-- What is written for a cached inode or block. -/
def cached (m : Writer) (b : ℕ) : Buf :=
  if m.IsInode b then memcpy zeros 0 (m.inode b).bytes 0 sizeofInode
  else memcpy zeros 0 (m.cache b) 0 sfsBlksize

theorem flushBlocks_writes (hr : ∀ b ∈ l, b < m.ninos) (hl : ∀ b ∈ l, ¬ m.IsInode b) :
    (flushBlocks l).Wp m (fun _ => False) fun _ m' => Writes (fun b => b ∈ l) (cached m) m m' := by
  induction l generalizing m with
  | nil => exact Code.Wp.pure (Writes.refl.congr fun b => by simp)
  | cons a l ih =>
    refine Code.Wp.bind_get ?_
    refine (writeBlock_writes (c := cached m) (le_refl _) (hr a List.mem_cons_self)
      (if_neg (hl a List.mem_cons_self)).symm).bind ?_
    rintro - m₁ hw
    have hm₁ := hw.eq
    have hI : m₁.IsInode = m.IsInode := by
      rw [hm₁]
      rfl
    have hc : cached m₁ = cached m := by
      rw [hm₁]
      rfl
    have hn₁ : m₁.ninos = m.ninos := by rw [hm₁]
    refine (ih (fun b hb => ?_) fun b hb => ?_).mono (fun _ he => he) fun _ m₂ hw₂ => ?_
    · rw [hn₁]
      exact hr b (List.mem_cons_of_mem _ hb)
    · rw [hI]
      exact hl b (List.mem_cons_of_mem _ hb)
    · rw [hc] at hw₂
      exact (hw.trans hw₂).congr fun b => by simp

theorem flushInodes_writes (hr : ∀ b ∈ l, b < m.ninos) (hl : ∀ b ∈ l, m.IsInode b) :
    (flushInodes l).Wp m (fun _ => False) fun _ m' => Writes (fun b => b ∈ l) (cached m) m m' := by
  induction l generalizing m with
  | nil => exact Code.Wp.pure (Writes.refl.congr fun b => by simp)
  | cons a l ih =>
    refine Code.Wp.bind_get ?_
    refine (writeBlock_writes (c := cached m) (by decide) (hr a List.mem_cons_self)
      (if_pos (hl a List.mem_cons_self)).symm).bind ?_
    rintro - m₁ hw
    have hm₁ := hw.eq
    have hI : m₁.IsInode = m.IsInode := by
      rw [hm₁]
      rfl
    have hc : cached m₁ = cached m := by
      rw [hm₁]
      rfl
    have hn₁ : m₁.ninos = m.ninos := by rw [hm₁]
    refine (ih (fun b hb => ?_) fun b hb => ?_).mono (fun _ he => he) fun _ m₂ hw₂ => ?_
    · rw [hn₁]
      exact hr b (List.mem_cons_of_mem _ hb)
    · rw [hI]
      exact hl b (List.mem_cons_of_mem _ hb)
    · rw [hc] at hw₂
      exact (hw.trans hw₂).congr fun b => by simp

theorem flushLists_writes : ∀ n i m, i + n = hashListSize →
    (∀ h < hashListSize, ∀ b, b ∈ m.blocks h ∨ b ∈ m.inodes h → b < m.ninos) →
    (∀ h < hashListSize, ∀ b ∈ m.blocks h, ¬ m.IsInode b) →
    (flushLists n i).Wp m (fun _ => False) fun _ m' =>
      Writes (fun b => ∃ h < hashListSize, i ≤ h ∧ (b ∈ m.blocks h ∨ b ∈ m.inodes h))
        (cached m) m m' := by
  intro n
  induction n with
  | zero =>
    intro i m hi _ _
    exact Code.Wp.pure (Writes.refl.congr fun b => by
      refine iff_of_false id ?_
      rintro ⟨h, hh, hle, -⟩
      omega)
  | succ n ih =>
    intro i m hi hr hb
    refine Code.Wp.bind_get ?_
    refine (flushBlocks_writes (fun b hl => hr i (by omega) b (.inl hl)) (hb i (by omega))).bind ?_
    rintro - m₁ hw₁
    refine Code.Wp.bind_get ?_
    have hm₁ : m₁ = { m with disk := m₁.disk } := hw₁.eq
    have hI₁ : m₁.IsInode = m.IsInode := by
      rw [hm₁]
      rfl
    have hin₁ : m₁.inodes = m.inodes := by rw [hm₁]
    have hbl₁ : m₁.blocks = m.blocks := by rw [hm₁]
    have hc₁ : cached m₁ = cached m := by
      rw [hm₁]
      rfl
    have hn₁ : m₁.ninos = m.ninos := by rw [hm₁]
    refine (flushInodes_writes (m := m₁) (fun b hl => ?_) fun b hb => ⟨i, by omega, hb⟩).bind ?_
    · rw [hin₁] at hl
      rw [hn₁]
      exact hr i (by omega) b (.inr hl)
    rintro - m₂ hw₂
    have hm₂ : m₂ = { m₁ with disk := m₂.disk } := hw₂.eq
    have hI₂ : m₂.IsInode = m.IsInode := by
      rw [hm₂, ← hI₁]
      rfl
    have hin₂ : m₂.inodes = m.inodes := by rw [hm₂, ← hin₁]
    have hbl₂ : m₂.blocks = m.blocks := by rw [hm₂, ← hbl₁]
    have hn₂ : m₂.ninos = m.ninos := by rw [hm₂, ← hn₁]
    have hc₂ : cached m₂ = cached m := by
      rw [hm₂, ← hc₁]
      rfl
    refine (ih (i + 1) m₂ (by omega) ?_ ?_).mono (fun _ he => he) fun _ m₃ hw₃ => ?_
    · rw [hbl₂, hin₂, hn₂]
      exact hr
    · rw [hbl₂, hI₂]
      exact hb
    · rw [hc₁] at hw₂
      rw [hc₂, hbl₂, hin₂] at hw₃
      rw [hin₁] at hw₂
      refine ((hw₁.trans hw₂).trans hw₃).congr fun b => ?_
      constructor
      · rintro ((hb | hb) | ⟨h, hh, hle, hb⟩)
        · exact ⟨i, by omega, le_refl i, .inl hb⟩
        · exact ⟨i, by omega, le_refl i, .inr hb⟩
        · exact ⟨h, hh, by omega, hb⟩
      · rintro ⟨h, hh, hle, hb⟩
        rcases Nat.eq_or_lt_of_le hle with rfl | hlt
        · exact .inl hb
        · exact .inr ⟨h, hh, hlt, hb⟩

end Close

end UCore.Mksfs

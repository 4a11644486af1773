import UCore.Sfs.Blocks

/-! # Owners of blocks

Every block of a consistent volume has one owner: the free blocks, the file system itself, one index
of one file, or the index block of one file. A block that a failed allocation lost has none of
these.
-/

namespace UCore.Sfs

open Library

inductive Owner
  | free
  | system
  | lost
  | data (ino index : ℕ)
  | index (ino : ℕ)
deriving DecidableEq

/-- The volume `s` with the inodes `I` is consistent, with the owners `O` of its blocks. -/
structure Wf (s : Fs) (O : ℕ → Owner) (I : Set ℕ) : Prop where
  sound : s.Sound
  width : s.blocks ≤ 2 ^ 32
  free : ∀ b, s.freemap b = true ↔ O b = .free
  zero : O 0 = .system
  range : ∀ b, O b ≠ .system → b < s.blocks
  reach : ∀ ino ∈ I, (s.din ino).blocks ≤ maxBlocks
  data : ∀ ino ∈ I, ∀ i < (s.din ino).blocks, O (s.slot ino i) = .data ino i
  empty : ∀ ino ∈ I, ∀ i, (s.din ino).blocks ≤ i → i < maxBlocks → s.slot ino i = 0
  dataOf : ∀ b ino i, O b = .data ino i → ino ∈ I ∧ i < (s.din ino).blocks ∧ s.slot ino i = b
  index : ∀ ino ∈ I, (s.din ino).indirect ≠ 0 → O (s.din ino).indirect = .index ino
  indexOf : ∀ b ino, O b = .index ino → ino ∈ I ∧ (s.din ino).indirect = b

def Consistent (s : Fs) (I : Set ℕ) : Prop := ∃ O, Wf s O I

namespace Wf

variable {s t : Fs} {O : ℕ → Owner} {I : Set ℕ} {ino i b : ℕ}

theorem pos (h : Wf s O I) (hb : O b ≠ .system) : b ≠ 0 := by
  rintro rfl
  exact hb h.zero

theorem inUse (h : Wf s O I) (hb : O b ≠ .system) (hf : O b ≠ .free) : s.InUse b := by
  refine ⟨Nat.pos_of_ne_zero (h.pos hb), h.range b hb, ?_⟩
  by_contra hn
  exact hf ((h.free b).mp (by simpa using hn))

theorem used (h : Wf s O I) (hf : O b ≠ .free) : s.freemap b = false := by
  by_contra hn
  exact hf ((h.free b).mp (by simpa using hn))

theorem slot_ne_zero (h : Wf s O I) (hino : ino ∈ I) (hi : i < (s.din ino).blocks) :
    s.slot ino i ≠ 0 := by
  apply h.pos
  rw [h.data ino hino i hi]
  simp

theorem mapped (h : Wf s O I) (hino : ino ∈ I) (hi : i < maxBlocks) : s.Mapped ino i where
  sound := h.sound
  indirect hne := by
    have ho := h.index ino hino hne
    exact h.inUse (by simp [ho]) (by simp [ho])
  slot hne := by
    have hlt : i < (s.din ino).blocks := by
      by_contra hn
      exact hne (h.empty ino hino i (by omega) hi)
    have ho := h.data ino hino i hlt
    exact h.inUse (by simp [ho]) (by simp [ho])

theorem slot_inj (h : Wf s O I) {ino' i' : ℕ} (hino : ino ∈ I) (hi : i < (s.din ino).blocks)
    (hino' : ino' ∈ I) (hi' : i' < (s.din ino').blocks) (he : s.slot ino i = s.slot ino' i') :
    ino = ino' ∧ i = i' := by
  have h₁ := h.data ino hino i hi
  have h₂ := h.data ino' hino' i' hi'
  rw [he, h₂] at h₁
  simpa using h₁.symm

theorem freeCount (h : Wf s O I) : s.freeCount = s.unusedBlocks := h.sound.count.symm

theorem indirect_ne_zero (h : Wf s O I) (hino : ino ∈ I) (hb : sfsNdirect < (s.din ino).blocks) :
    (s.din ino).indirect ≠ 0 := by
  intro he
  refine h.slot_ne_zero hino hb ?_
  simp [Fs.slot, he]

/-- A state with the same map of blocks. -/
theorem same (h : Wf s O I) (hfree : t.freemap = s.freemap)
    (hunused : t.unusedBlocks = s.unusedBlocks)
    (hblocks : t.blocks = s.blocks) (hnbits : t.nbits = s.nbits)
    (hdin : ∀ j, (t.din j).blocks = (s.din j).blocks ∧ (t.din j).indirect = (s.din j).indirect)
    (hslot : ∀ j ∈ I, ∀ i < maxBlocks, t.slot j i = s.slot j i) : Wf t O I where
  sound := by
    have hs := h.sound
    refine ⟨?_, ?_, ?_⟩
    · rw [hblocks, hnbits]
      exact hs.bits
    · rw [hfree, hblocks]
      exact hs.free
    · rw [hunused, hnbits, hfree]
      exact hs.count
  width := by
    rw [hblocks]
    exact h.width
  free b := by
    rw [hfree]
    exact h.free b
  zero := h.zero
  range b hb := by
    rw [hblocks]
    exact h.range b hb
  reach j hj := by
    rw [(hdin j).1]
    exact h.reach j hj
  data j hj i hi := by
    rw [(hdin j).1] at hi
    rw [hslot j hj i (hi.trans_le (h.reach j hj))]
    exact h.data j hj i hi
  empty j hj i hi hm := by
    rw [(hdin j).1] at hi
    rw [hslot j hj i hm]
    exact h.empty j hj i hi hm
  dataOf b j i hb := by
    obtain ⟨h₁, h₂, h₃⟩ := h.dataOf b j i hb
    rw [(hdin j).1, hslot j h₁ i (h₂.trans_le (h.reach j h₁))]
    exact ⟨h₁, h₂, h₃⟩
  index j hj hne := by
    rw [(hdin j).2] at hne ⊢
    exact h.index j hj hne
  indexOf b j hb := by
    rw [(hdin j).2]
    exact h.indexOf b j hb

/-- A lost block becomes the last block of an inode. -/
theorem grow (h : Wf s O I) (hb : O b = .lost) (hino : ino ∈ I)
    (hlt : (s.din ino).blocks < maxBlocks) (hfree : t.freemap = s.freemap)
    (hunused : t.unusedBlocks = s.unusedBlocks) (hblocks : t.blocks = s.blocks)
    (hnbits : t.nbits = s.nbits)
    (hdin : ∀ j, (t.din j).blocks = (s.din j).blocks + (if j = ino then 1 else 0) ∧
      (t.din j).indirect = (s.din j).indirect)
    (hslot : ∀ j ∈ I, ∀ i < maxBlocks, t.slot j i =
      if j = ino ∧ i = (s.din ino).blocks then b else s.slot j i) :
    Wf t (Function.update O b (.data ino (s.din ino).blocks)) I := by
  have hne : ∀ {x : ℕ}, O x ≠ .lost → x ≠ b := by
    rintro x hx rfl
    exact hx hb
  have hup : ∀ {x : ℕ}, O x ≠ .lost →
      Function.update O b (Owner.data ino (s.din ino).blocks) x = O x := fun hx =>
    Function.update_of_ne (hne hx) ..
  have hs := h.sound
  refine ⟨⟨?_, ?_, ?_⟩, ?_, ?_, ?_, ?_, ?_, ?_, ?_, ?_, ?_, ?_⟩
  · rw [hblocks, hnbits]
    exact hs.bits
  · rw [hfree, hblocks]
    exact hs.free
  · rw [hunused, hnbits, hfree]
    exact hs.count
  · rw [hblocks]
    exact h.width
  · intro x
    rw [hfree, h.free]
    by_cases hx : x = b
    · subst hx
      simp [hb]
    · rw [Function.update_of_ne hx]
  · rw [hup (by rw [h.zero]; simp)]
    exact h.zero
  · intro x hx
    rw [hblocks]
    by_cases hxb : x = b
    · rw [hxb]
      exact h.range b (by simp [hb])
    · rw [Function.update_of_ne hxb] at hx
      exact h.range x hx
  · intro j hj
    rw [(hdin j).1]
    split
    · rename_i he
      rw [he]
      exact hlt
    · exact h.reach j hj
  · intro j hj i hi
    rw [(hdin j).1] at hi
    by_cases he : j = ino ∧ i = (s.din ino).blocks
    · obtain ⟨rfl, rfl⟩ := he
      rw [hslot j hj _ hlt, if_pos ⟨rfl, rfl⟩, Function.update_self]
    · have hi' : i < (s.din j).blocks := by
        by_cases hj : j = ino
        · subst hj
          rw [if_pos rfl] at hi
          have : i ≠ (s.din j).blocks := fun hi => he ⟨rfl, hi⟩
          omega
        · rw [if_neg hj] at hi
          exact hi
      have ho := h.data j hj i hi'
      rw [hslot j hj i (hi'.trans_le (h.reach j hj)), if_neg he, hup (by simp [ho])]
      exact ho
  · intro j hj i hi hm
    rw [(hdin j).1] at hi
    rw [hslot j hj i hm, if_neg]
    · exact h.empty j hj i (by omega) hm
    · rintro ⟨rfl, rfl⟩
      rw [if_pos rfl] at hi
      omega
  · intro x j i hx
    by_cases hxb : x = b
    · subst hxb
      rw [Function.update_self, Owner.data.injEq] at hx
      obtain ⟨rfl, rfl⟩ := hx
      rw [(hdin _).1, if_pos rfl, hslot _ hino _ hlt, if_pos ⟨rfl, rfl⟩]
      exact ⟨hino, by omega, rfl⟩
    · rw [Function.update_of_ne hxb] at hx
      obtain ⟨h₁, h₂, h₃⟩ := h.dataOf x j i hx
      have hne : ¬ (j = ino ∧ i = (s.din ino).blocks) := by
        rintro ⟨rfl, rfl⟩
        omega
      rw [(hdin j).1, hslot j h₁ i (h₂.trans_le (h.reach j h₁)), if_neg hne]
      exact ⟨h₁, by omega, h₃⟩
  · intro j hj hi
    rw [(hdin j).2] at hi ⊢
    have ho := h.index j hj hi
    rw [hup (by simp [ho])]
    exact ho
  · intro x j hx
    rw [(hdin j).2]
    by_cases hxb : x = b
    · subst hxb
      simp at hx
    · rw [Function.update_of_ne hxb] at hx
      exact h.indexOf x j hx

/-- The last block of an inode becomes free. -/
theorem shrink (h : Wf s O I) (hino : ino ∈ I) (hpos : 0 < (s.din ino).blocks)
    (hb : b = s.slot ino ((s.din ino).blocks - 1))
    (hfree : t.freemap = Function.update s.freemap b true)
    (hunused : t.unusedBlocks = s.unusedBlocks + 1) (hblocks : t.blocks = s.blocks)
    (hnbits : t.nbits = s.nbits)
    (hdin : ∀ j, (t.din j).blocks = (s.din j).blocks - (if j = ino then 1 else 0) ∧
      (t.din j).indirect = (s.din j).indirect)
    (hslot : ∀ j ∈ I, ∀ i < maxBlocks, t.slot j i =
      if j = ino ∧ i = (s.din ino).blocks - 1 then 0 else s.slot j i) :
    Wf t (Function.update O b .free) I := by
  have hO : O b = .data ino ((s.din ino).blocks - 1) := by
    rw [hb]
    exact h.data ino hino _ (by omega)
  have huse : s.InUse b := h.inUse (by simp [hO]) (by simp [hO])
  have hup : ∀ {x : ℕ}, O x ≠ .data ino ((s.din ino).blocks - 1) →
      Function.update O b Owner.free x = O x := by
    intro x hx
    refine Function.update_of_ne ?_ ..
    rintro rfl
    exact hx hO
  have hs := h.sound.give huse
  refine ⟨⟨?_, ?_, ?_⟩, ?_, ?_, ?_, ?_, ?_, ?_, ?_, ?_, ?_, ?_⟩
  · rw [hblocks, hnbits]
    exact hs.bits
  · rw [hfree, hblocks]
    exact hs.free
  · rw [hunused, hnbits, hfree]
    exact hs.count
  · rw [hblocks]
    exact h.width
  · intro x
    rw [hfree]
    by_cases hx : x = b
    · subst hx
      simp
    · rw [Function.update_of_ne hx, Function.update_of_ne hx]
      exact h.free x
  · rw [hup (by rw [h.zero]; simp)]
    exact h.zero
  · intro x hx
    rw [hblocks]
    by_cases hxb : x = b
    · rw [hxb]
      exact huse.2.1
    · rw [Function.update_of_ne hxb] at hx
      exact h.range x hx
  · intro j hj
    rw [(hdin j).1]
    exact (Nat.sub_le _ _).trans (h.reach j hj)
  · intro j hj i hi
    rw [(hdin j).1] at hi
    have hne : ¬ (j = ino ∧ i = (s.din ino).blocks - 1) := by
      rintro ⟨rfl, rfl⟩
      rw [if_pos rfl] at hi
      omega
    have ho := h.data j hj i (by omega)
    have hr := h.reach j hj
    rw [hslot j hj i (by omega), if_neg hne, hup (by rw [ho]; simpa using hne)]
    exact ho
  · intro j hj i hi hm
    rw [(hdin j).1] at hi
    rw [hslot j hj i hm]
    split
    · rfl
    · rename_i hne
      refine h.empty j hj i ?_ hm
      by_cases hj : j = ino
      · subst hj
        rw [if_pos rfl] at hi
        have : i ≠ (s.din j).blocks - 1 := fun hi => hne ⟨rfl, hi⟩
        omega
      · rw [if_neg hj] at hi
        exact hi
  · intro x j i hx
    by_cases hxb : x = b
    · subst hxb
      simp at hx
    · rw [Function.update_of_ne hxb] at hx
      obtain ⟨h₁, h₂, h₃⟩ := h.dataOf x j i hx
      have hne : ¬ (j = ino ∧ i = (s.din ino).blocks - 1) := by
        rintro ⟨rfl, rfl⟩
        exact hxb (h₃.symm.trans hb.symm)
      rw [(hdin j).1, hslot j h₁ i (h₂.trans_le (h.reach j h₁)), if_neg hne]
      refine ⟨h₁, ?_, h₃⟩
      by_cases hj : j = ino
      · subst hj
        have : i ≠ (s.din j).blocks - 1 := fun hi => hne ⟨rfl, hi⟩
        rw [if_pos rfl]
        omega
      · rw [if_neg hj]
        exact h₂
  · intro j hj hi
    rw [(hdin j).2] at hi ⊢
    have ho := h.index j hj hi
    rw [hup (by simp [ho])]
    exact ho
  · intro x j hx
    rw [(hdin j).2]
    by_cases hxb : x = b
    · subst hxb
      simp at hx
    · rw [Function.update_of_ne hxb] at hx
      exact h.indexOf x j hx

end Wf

end UCore.Sfs

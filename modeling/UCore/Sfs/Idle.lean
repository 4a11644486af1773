import UCore.Sfs.Files
import UCore.Sfs.Steady

/-! # Work that leaves a file alone

A file depends on its inode and on its blocks. The functions that look up a block of a file without
making it only transfer blocks, and writing an inode back changes one block.
-/

namespace UCore.Sfs

open Library

/-- The block is the index block of the file or one of the blocks with its data. -/
def Fs.Uses (s : Fs) (ino b : ℕ) : Prop :=
  (s.din ino).indirect ≠ 0 ∧ (s.din ino).indirect = b ∨ ∃ i < (s.din ino).blocks, s.slot ino i = b

section Uses

variable {s t : Fs} {ino b i : ℕ}

theorem slot_kept (hd : t.din ino = s.din ino) (h : ∀ b, s.Uses ino b → t.disk b = s.disk b) :
    t.slot ino i = s.slot ino i := by
  unfold Fs.slot
  rw [hd]
  split
  · rfl
  · split
    · rfl
    · rename_i hne
      rw [h _ (.inl ⟨hne, rfl⟩)]

theorem uses_kept (hd : t.din ino = s.din ino) (h : ∀ b, s.Uses ino b → t.disk b = s.disk b) :
    t.Uses ino b ↔ s.Uses ino b := by
  have hs : ∀ i, t.slot ino i = s.slot ino i := fun i => slot_kept hd h
  unfold Fs.Uses
  simp only [hd, hs]

theorem file_kept (hd : t.din ino = s.din ino) (h : ∀ b, s.Uses ino b → t.disk b = s.disk b) :
    t.file ino = s.file ino := by
  unfold Fs.file
  rw [hd]
  congr 1
  funext x
  unfold Fs.byte
  rw [hd]
  split
  · rename_i hx
    rw [slot_kept hd h, h _ (.inr ⟨_, hx, rfl⟩)]
  · rfl

theorem Wf.apart {O : ℕ → Owner} {I : Set ℕ} (h : Wf s O I) (hino : ino ∈ I) (hb : O b = .system) :
    ¬ s.Uses ino b := by
  rintro (⟨hne, rfl⟩ | ⟨i, hi, rfl⟩)
  · rw [h.index ino hino hne] at hb
    cases hb
  · rw [h.data ino hino i hi] at hb
    cases hb

end Uses

section Idle

/-- Transfers have taken place from `s` to `t`, and nothing else. -/
def Idle (s t : Fs) : Prop := ∃ n, t = s.later n

variable {s : Fs} {buf : Buf} {sin entp index pos len blkno offset b : ℕ}

theorem assertInuse_idle : Code.Preserves (Idle s) Any (assertInuse b) := by
  refine .bind (P := Any) (.get_bind fun _ _ => ?_) fun _ _ =>
    .ite (fun _ => .pure trivial) fun _ => .panic
  refine .ite (fun _ => .bind (P := Any) ?_ fun _ _ => .pure trivial) fun _ => .panic
  exact .bind .assert fun _ _ => .get_bind fun _ _ => .pure trivial

theorem sfsRbuf_idle : Code.Preserves (Idle s) Any (sfsRbuf buf pos len blkno offset) := by
  rintro _ ⟨n, rfl⟩
  refine sfsRbuf_wp (fun _ _ => trivial) (fun _ => ⟨trivial, n + 1, later_later⟩) fun _ _ => ?_
  exact ⟨trivial, n + 1, later_later⟩

theorem bmapOut_idle : Code.Preserves (Idle s) Any (bmapOut b) :=
  .ite (fun _ => .pure trivial) fun _ => .bind assertInuse_idle fun _ _ => .pure trivial

theorem sfsBmapGetSubNolock_idle :
    Code.Preserves (Idle s) (fun r => r.2.1 = entp) (sfsBmapGetSubNolock entp index false) := by
  refine .bind .assert fun _ _ => .ite (fun _ => ?_) fun _ => .ite (fun _ => .pure rfl) (absurd rfl)
  refine .bind sfsRbuf_idle fun r _ => .ite (fun _ => .pure rfl) fun _ => ?_
  exact .ite (fun _ => .pure rfl) fun h => absurd (.inr rfl) h

theorem sfsBmapGetNolock_idle : Code.Preserves (Idle s) Any (sfsBmapGetNolock sin index false) := by
  refine .get_bind fun t _ => .ite (fun _ => ?_) fun _ => .ite (fun _ => ?_) fun _ => .panic
  · exact .ite (fun h => absurd h.2 (by decide)) fun _ => bmapOut_idle
  · refine .bind sfsBmapGetSubNolock_idle fun r hr => .ite (fun _ => .pure trivial) fun _ => ?_
    exact .ite (fun h => absurd hr h) fun _ => bmapOut_idle

theorem sfsBmapLoadNolock_idle (h : index < (s.din sin).blocks) :
    Code.Preserves (Idle s) Any (sfsBmapLoadNolock sin index) := by
  refine .bind .assert fun _ _ => .get_bind fun t ht => ?_
  have hc : decide (index = (t.din sin).blocks) = false := by
    obtain ⟨n, rfl⟩ := ht
    exact decide_eq_false (Nat.ne_of_lt h)
  rw [hc]
  refine .bind sfsBmapGetNolock_idle fun _ _ => .ite (fun _ => .pure trivial) fun _ => ?_
  refine .bind assertInuse_idle fun _ _ => ?_
  exact .ite (fun h => absurd h Bool.false_ne_true) fun _ => .pure trivial

end Idle

/-- At most the inode `j` was written back from `s` to `t`. -/
structure Synced (j : ℕ) (s t : Fs) : Prop where
  din : ∀ i, t.din i = s.din i
  sin : ∀ i ≠ j, t.sin i = s.sin i
  dirty : ∀ i, (t.sin i).dirty = true → (s.sin i).dirty = true
  disk : ∀ b ≠ j, t.disk b = s.disk b

section Synced

variable {s t : Fs} {j : ℕ}

theorem Synced.refl (s : Fs) (j : ℕ) : Synced j s s :=
  ⟨fun _ => rfl, fun _ _ => rfl, fun _ h => h, fun _ _ => rfl⟩

theorem Synced.mark (h : Synced j s t) (hd : (s.sin j).dirty = true) (d : Bool) :
    Synced j s (t.setSin j fun x => { x with dirty := d }) := by
  have hj : (t.setSin j fun x => { x with dirty := d }).sin j = { t.sin j with dirty := d } :=
    Function.update_self ..
  have hsin : ∀ i ≠ j, (t.setSin j fun x => { x with dirty := d }).sin i = t.sin i := fun i hi =>
    Function.update_of_ne hi ..
  refine ⟨fun i => ?_, fun i hi => (hsin i hi).trans (h.sin i hi), fun i hi => ?_, h.disk⟩
  · rw [← h.din i]
    unfold Fs.din
    by_cases he : i = j
    · rw [he, hj]
    · rw [hsin i he]
  · by_cases he : i = j
    · rw [he]
      exact hd
    · rw [hsin i he] at hi
      exact h.dirty i hi

theorem sfsFsync_synced : Code.Wp (sfsFsync j) s (fun _ => True) fun _ t => Synced j s t := by
  unfold sfsFsync
  refine Code.Wp.bind_get ?_
  by_cases hd : (s.sin j).dirty = true
  swap
  · rw [if_neg hd]
    exact Code.Wp.pure (.refl s j)
  rw [if_pos hd]
  have hclean := (Synced.refl s j).mark hd false
  refine Code.Wp.bind_modify ?_
  refine Code.Wp.bind (Q := fun _ t => Synced j s t) ?_ fun r t ht => ?_
  · refine sfsWbuf_wp (fun _ _ => trivial)
      (fun n _ _ => ⟨hclean.din, hclean.sin, hclean.dirty, hclean.disk⟩)
      fun _ _ => ⟨hclean.din, hclean.sin, hclean.dirty, fun b hb => ?_⟩
    exact (Function.update_of_ne hb ..).trans (hclean.disk b hb)
  · dsimp only
    split
    · exact Code.Wp.bind_modify (Code.Wp.pure (ht.mark hd true))
    · exact Code.Wp.pure ht

end Synced

end UCore.Sfs

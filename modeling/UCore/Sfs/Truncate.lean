import UCore.Sfs.Io

/-! # Truncation and seeking

`sfs_truncfile` appends or removes blocks one at a time and sets the size at the end, so that a
failure in the middle leaves the blocks that were appended or removed until then.
-/

namespace UCore.Sfs

open Library

/-- `k` of `n` blocks were appended to the inode. -/
structure Extends (I : Set ℕ) (ino : ℕ) (s : Fs) (O : ℕ → Owner) (n : ℕ) (ret : ℤ) (k : ℕ) (t : Fs)
    (O' : ℕ → Owner) : Prop where
  works : Works I ino s O t O'
  file : t.file ino = (s.file ino).grow k
  le : k ≤ n
  done : ret = 0 → k = n
  none : k = 0 → t.sin = s.sin
  still : s.Reliable → k = 0 → t.freemap = s.freemap ∧ t.unusedBlocks = s.unusedBlocks
  dirty : 0 < k → (s.din ino).blocks < sfsNdirect ∨ (s.din ino).indirect = 0 →
    (t.sin ino).dirty = true
  grown : s.Reliable → Grown ino s t
  full : s.Reliable → ret ≠ 0 → ret = -eNoMem ∧ s.unusedBlocks < s.room ino (k + 1) ∧
    (s.din ino).blocks + k < maxBlocks ∧ k < n

/-- `k` of `n` blocks were removed from the inode. -/
structure Removes (I : Set ℕ) (ino : ℕ) (s : Fs) (O : ℕ → Owner) (n : ℕ) (ret : ℤ) (k : ℕ) (t : Fs)
    (O' : ℕ → Owner) : Prop where
  works : Works I ino s O t O'
  file : t.file ino = (s.file ino).cut ((s.din ino).blocks - k)
  le : k ≤ n
  done : ret = 0 → k = n
  none : k = 0 → t.sin = s.sin ∧ t.freemap = s.freemap ∧ t.unusedBlocks = s.unusedBlocks
  unused : t.unusedBlocks = s.unusedBlocks + k
  dirty : 0 < k → (t.sin ino).dirty = true
  reliable : s.Reliable → ret = 0

section Loops

variable {s t : Fs} {O O' : ℕ → Owner} {I : Set ℕ} {ino n k : ℕ} {ret : ℤ}

theorem grow_grow {f : File} {m : ℕ} : (f.grow n).grow m = f.grow (n + m) := by
  simp [File.grow, Nat.add_assoc]

theorem cut_cut {f : File} {m : ℕ} (h : m ≤ n) : (f.cut n).cut m = f.cut m := by
  unfold File.cut
  congr 1
  funext k
  dsimp only
  split
  · rw [if_pos (by have := Nat.mul_le_mul_right sfsBlksize h; omega)]
  · rfl

theorem byte_past {k : ℕ} (h : (s.din ino).blocks * sfsBlksize ≤ k) : s.byte ino k = 0 := by
  unfold Fs.byte
  rw [if_neg]
  rw [div_lt_blocks]
  omega

theorem cut_blocks : (s.file ino).cut (s.din ino).blocks = s.file ino := by
  refine File.ext rfl rfl (funext fun k => ?_)
  change (if k < (s.din ino).blocks * sfsBlksize then s.byte ino k else 0) = s.byte ino k
  split
  · rfl
  · exact (byte_past (by omega)).symm

theorem Wf.growLoop_wp (h : Wf s O I) (hino : ino ∈ I) :
    Code.Wp (growLoop ino n (s.din ino).blocks) s
      (fun e => e = .outOfRange ∧ maxBlocks < (s.din ino).blocks + n) fun ret t =>
        ∃ k O', Extends I ino s O n ret k t O' := by
  induction n generalizing s O with
  | zero =>
    refine Code.Wp.pure ⟨0, O, .refl h, rfl, le_rfl, fun _ => rfl, fun _ => rfl,
      fun _ _ => ⟨rfl, rfl⟩, fun h => absurd h (lt_irrefl 0), fun _ => .of_blocks h hino rfl rfl,
      fun _ h => absurd rfl h⟩
  | succ n ih =>
    unfold growLoop
    refine Code.Wp.bind ((h.load_wp hino).mono ?_ fun _ _ hq => hq) ?_
    · rintro e (⟨-, hlt⟩ | ⟨he, -, hm⟩)
      · omega
      · exact ⟨he, by omega⟩
    rintro ⟨ret, b⟩ t hl
    dsimp only
    rcases hl with ⟨hne, hw, hsin, hfile, -, hm, hun, hfull⟩ | hlt | ⟨-, hm, ha⟩
    · rw [if_pos hne]
      have hdin : t.din ino = s.din ino := congrArg Sin.din (congrFun hsin ino)
      refine Code.Wp.pure ⟨0, _, hw, hfile, by omega, fun h => absurd h hne, fun _ => hsin,
        fun hr _ => hun (.inl hr), fun h => absurd h (lt_irrefl 0),
        fun hr => .of_blocks h hino hdin (hun (.inl hr)).2, ?_⟩
      intro hr _
      obtain ⟨h₁, -, h₂⟩ := hfull hr
      exact ⟨h₁, h₂, hm, by omega⟩
    · omega
    · rw [if_neg (by simp)]
      have hblocks : (t.din ino).blocks = (s.din ino).blocks + 1 := congrArg File.blocks ha.file
      rw [← hblocks]
      refine (ih ha.works.wf).mono ?_ ?_
      · rintro e ⟨he, hlt⟩
        exact ⟨he, by omega⟩
      · rintro ret u ⟨k, O'', hk⟩
        have hg := Grown.of_appends ha
        refine ⟨k + 1, O'', ha.works.trans hk.works, ?_, Nat.succ_le_succ hk.le,
          fun h => congrArg (· + 1) (hk.done h), fun h => absurd h (by omega),
          fun _ h => absurd h (by omega), ?_,
          fun hr => hg.trans (hk.grown (ha.works.reliable hr)), ?_⟩
        · rw [hk.file, ha.file, grow_grow, Nat.add_comm 1]
        · intro _ hd
          exact hk.works.dirty (ha.dirty hd)
        · intro hr hret
          obtain ⟨h₁, h₂, h₅, h₆⟩ := hk.full (ha.works.reliable hr) hret
          have h₃ := hg.unused
          have h₄ := hg.room (n := k + 1)
          rw [hblocks, Nat.add_sub_cancel_left] at h₃ h₄
          rw [Nat.add_comm 1] at h₄
          exact ⟨h₁, by omega, by omega, by omega⟩

theorem Wf.shrinkLoop_wp (h : Wf s O I) (hino : ino ∈ I) (hn : n ≤ (s.din ino).blocks) :
    Code.Wp (shrinkLoop ino n) s (fun _ => False) fun ret t =>
      ∃ k O', Removes I ino s O n ret k t O' := by
  induction n generalizing s O with
  | zero =>
    exact Code.Wp.pure ⟨0, O, .refl h, cut_blocks.symm, le_rfl, fun _ => rfl,
      fun _ => ⟨rfl, rfl, rfl⟩, rfl, fun h => absurd h (lt_irrefl 0), fun _ => rfl⟩
  | succ n ih =>
    unfold shrinkLoop
    refine Code.Wp.bind (h.truncate_wp hino (by omega)) ?_
    rintro ret t (⟨hret, hr, m, rfl⟩ | ⟨hret, O', hs⟩)
    · rw [if_pos hret]
      exact Code.Wp.pure ⟨0, O, h.works_later, cut_blocks.symm, by omega, fun h => absurd h hret,
        fun _ => ⟨rfl, rfl, rfl⟩, rfl, fun h => absurd h (lt_irrefl 0), fun h => absurd h hr⟩
    · rw [if_neg (not_not.mpr hret)]
      have hblocks : (t.din ino).blocks = (s.din ino).blocks - 1 := congrArg File.blocks hs.file
      refine (ih hs.works.wf (by omega)).mono (fun _ he => he) ?_
      rintro ret u ⟨k, O'', hk⟩
      have hu := hs.unused
      have hu' := hk.unused
      refine ⟨k + 1, O'', hs.works.trans hk.works, ?_, Nat.succ_le_succ hk.le,
        fun h => congrArg (· + 1) (hk.done h), fun h => absurd h (by omega), by omega, ?_,
        fun hr => hk.reliable (hs.works.reliable hr)⟩
      · rw [hk.file, hs.file, cut_cut (by omega), hblocks]
        congr 1
        omega
      · intro _
        exact hk.works.dirty hs.dirty

end Loops

section Truncate

variable {s t : Fs} {O O' : ℕ → Owner} {I : Set ℕ} {ino : ℕ} {len pos : ℤ} {ret : ℤ}

/-- `sfs_truncfile` refuses the length. -/
def TruncRejects (len : ℤ) : Prop := len < 0 ∨ len > sfsMaxFileSize

instance : Decidable (TruncRejects len) := by
  unfold TruncRejects
  infer_instance

/-- The outcomes of `sfs_truncfile`. -/
inductive Truncated (I : Set ℕ) (ino : ℕ) (s : Fs) (O : ℕ → Owner) (len : ℤ) : ℤ → Fs → Prop
  | rejected : TruncRejects len → Truncated I ino s O len (-eInval) s
  | same : ¬ TruncRejects len → len = (s.din ino).size →
      ceilBlocks len.toNat = (s.din ino).blocks → Truncated I ino s O len 0 s
  | short {ret : ℤ} {k : ℕ} {t : Fs} {O' : ℕ → Owner} : ¬ TruncRejects len →
    len ≠ (s.din ino).size →
      (s.din ino).blocks < ceilBlocks len.toNat → ret ≠ 0 →
      Extends I ino s O (ceilBlocks len.toNat - (s.din ino).blocks) ret k t O' →
      Truncated I ino s O len ret t
  | stuck {ret : ℤ} {k : ℕ} {t : Fs} {O' : ℕ → Owner} : ¬ TruncRejects len →
    len ≠ (s.din ino).size →
      ret ≠ 0 → Removes I ino s O ((s.din ino).blocks - ceilBlocks len.toNat) ret k t O' →
      Truncated I ino s O len ret t
  | grown {t : Fs} {O' : ℕ → Owner} : ¬ TruncRejects len → len ≠ (s.din ino).size →
      (s.din ino).blocks < ceilBlocks len.toNat →
      Extends I ino s O (ceilBlocks len.toNat - (s.din ino).blocks) 0
        (ceilBlocks len.toNat - (s.din ino).blocks) t O' →
      Truncated I ino s O len 0 (t.setSin ino fun x =>
        { din := { x.din with size := len.toNat }, dirty := true })
  | cut {t : Fs} {O' : ℕ → Owner} : ¬ TruncRejects len → len ≠ (s.din ino).size →
      ceilBlocks len.toNat ≤ (s.din ino).blocks →
      Removes I ino s O ((s.din ino).blocks - ceilBlocks len.toNat) 0
        ((s.din ino).blocks - ceilBlocks len.toNat) t O' →
      Truncated I ino s O len 0 (t.setSin ino fun x =>
        { din := { x.din with size := len.toNat }, dirty := true })

theorem Wf.truncfile_wp (h : Wf s O I) (hino : ino ∈ I) : Code.Wp (sfsTruncfile ino len) s
    (fun e => ¬ TruncRejects len ∧
      (e = .truncBlocks ∧ len = (s.din ino).size ∧ ceilBlocks len.toNat ≠ (s.din ino).blocks ∨
        e = .outOfRange ∧ len ≠ (s.din ino).size ∧ maxBlocks < ceilBlocks len.toNat))
    (Truncated I ino s O len) := by
  unfold sfsTruncfile
  by_cases hrej : TruncRejects len
  · rw [if_pos (by exact hrej)]
    exact Code.Wp.pure (.rejected hrej)
  rw [if_neg (by exact hrej)]
  apply Code.Wp.bind_get
  dsimp only
  generalize hc : (len.toNat + sfsBlksize - 1) / sfsBlksize = tblks
  change ceilBlocks len.toNat = tblks at hc
  subst hc
  by_cases hlen : len = (s.din ino).size
  · rw [if_pos hlen]
    refine Code.Wp.bind_assert (fun hb => ?_) fun hb => ⟨hrej, .inl ⟨rfl, hlen, hb⟩⟩
    exact Code.Wp.pure (.same hrej hlen hb)
  rw [if_neg hlen]
  by_cases hlt : (s.din ino).blocks < ceilBlocks len.toNat
  · rw [if_pos hlt]
    refine Code.Wp.bind ((h.growLoop_wp hino).mono ?_ fun _ _ hq => hq) ?_
    · rintro e ⟨he, hm⟩
      exact ⟨hrej, .inr ⟨he, hlen, by omega⟩⟩
    rintro ret t ⟨k, O', hk⟩
    by_cases hr : ret = 0
    · rw [if_neg (not_not.mpr hr)]
      subst hr
      obtain rfl := hk.done rfl
      have hblocks : (t.din ino).blocks = ceilBlocks len.toNat := by
        have := congrArg File.blocks hk.file
        change (t.din ino).blocks = (s.din ino).blocks + _ at this
        omega
      refine Code.Wp.bind_assert (fun _ => ?_) fun hn => absurd hblocks hn
      exact Code.Wp.bind_modify (Code.Wp.pure (.grown hrej hlen hlt hk))
    · rw [if_pos hr]
      exact Code.Wp.pure (.short hrej hlen hlt hr hk)
  · rw [if_neg hlt]
    refine Code.Wp.bind ((h.shrinkLoop_wp hino (Nat.sub_le _ _)).mono (fun _ he => he.elim)
      fun _ _ hq => hq) ?_
    rintro ret t ⟨k, O', hk⟩
    by_cases hr : ret = 0
    · rw [if_neg (not_not.mpr hr)]
      subst hr
      obtain rfl := hk.done rfl
      have hblocks : (t.din ino).blocks = ceilBlocks len.toNat := by
        have := congrArg File.blocks hk.file
        change (t.din ino).blocks = (s.din ino).blocks - _ at this
        omega
      refine Code.Wp.bind_assert (fun _ => ?_) fun hn => absurd hblocks hn
      exact Code.Wp.bind_modify (Code.Wp.pure (.cut hrej hlen (by omega) hk))
    · rw [if_pos hr]
      exact Code.Wp.pure (.stuck hrej hlen hr hk)

/-- `sfs_tryseek` refuses the position. -/
def SeekRejects (pos : ℤ) : Prop := pos < 0 ∨ pos ≥ sfsMaxFileSize

instance : Decidable (SeekRejects pos) := by
  unfold SeekRejects
  infer_instance

/-- The outcomes of `sfs_tryseek`. -/
inductive Sought (I : Set ℕ) (ino : ℕ) (s : Fs) (O : ℕ → Owner) (pos : ℤ) : ℤ → Fs → Prop
  | rejected : SeekRejects pos → Sought I ino s O pos (-eInval) s
  | within : ¬ SeekRejects pos → pos ≤ (s.din ino).size → Sought I ino s O pos 0 s
  | grown {ret : ℤ} {t : Fs} : ¬ SeekRejects pos → (s.din ino).size < pos →
      Truncated I ino s O pos ret t → Sought I ino s O pos ret t

theorem Wf.tryseek_wp (h : Wf s O I) (hino : ino ∈ I) : Code.Wp (sfsTryseek ino pos) s
    (fun e => ¬ SeekRejects pos ∧ (s.din ino).size < pos ∧ e = .outOfRange ∧
      maxBlocks < ceilBlocks pos.toNat) (Sought I ino s O pos) := by
  unfold sfsTryseek
  by_cases hrej : SeekRejects pos
  · rw [if_pos (by exact hrej)]
    exact Code.Wp.pure (.rejected hrej)
  rw [if_neg (by exact hrej)]
  apply Code.Wp.bind_get
  by_cases hlt : pos > (s.din ino).size
  · rw [if_pos hlt]
    refine (h.truncfile_wp hino).mono ?_ fun _ _ ht => .grown hrej hlt ht
    rintro e ⟨-, ⟨-, he, -⟩ | ⟨he, -, hm⟩⟩
    · omega
    · exact ⟨hrej, hlt, he, hm⟩
  · rw [if_neg hlt]
    exact Code.Wp.pure (.within hrej (by omega))

end Truncate

end UCore.Sfs

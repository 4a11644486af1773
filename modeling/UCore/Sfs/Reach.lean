import UCore.Sfs.Truncate

/-! # The reach of the block map

The range guards admit positions up to the largest size of a file, and the map of an inode ends long
before.
-/

namespace UCore.Sfs

open Library

variable {s t : Fs} {O : ℕ → Owner} {I : Set ℕ} {ino n m len : ℕ} {offset pos length : ℤ}
    {write : Bool}
  {buf : Buf}

/-- The free blocks suffice for the file to cover `n` bytes, as far as its map reaches. -/
def Fs.Enough (s : Fs) (ino n : ℕ) : Prop :=
  s.room ino (min (ceilBlocks n) maxBlocks - (s.din ino).blocks) ≤ s.unusedBlocks

/-- The range of a transfer is empty, starts past the last block, or ends within the reach. -/
def Fs.IoReaches (s : Fs) (ino : ℕ) (offset : ℤ) (len : ℕ) (write : Bool) : Prop :=
  IoRejects offset len ∨ s.ioEnd ino offset len write ≤ offset.toNat ∨
    (s.din ino).blocks < offset.toNat / sfsBlksize ∨
    s.ioEnd ino offset len write ≤ maxBlocks * sfsBlksize

/-- The length of a truncation is refused, no change, or within the reach. -/
def Fs.TruncReaches (s : Fs) (ino : ℕ) (length : ℤ) : Prop :=
  TruncRejects length ∨ length = (s.din ino).size ∨ length.toNat ≤ maxBlocks * sfsBlksize

/-- The position of a seek is refused, within the file, or within the reach. -/
def Fs.SeekReaches (s : Fs) (ino : ℕ) (pos : ℤ) : Prop :=
  SeekRejects pos ∨ pos ≤ (s.din ino).size ∨ pos.toNat ≤ maxBlocks * sfsBlksize

theorem Fs.Enough.not_short {k : ℕ} (h : s.Enough ino n) (hk : k < ceilBlocks n)
    (hm : k < maxBlocks)
    (hshort : s.unusedBlocks < s.room ino (k - (s.din ino).blocks + 1))
    (hle : (s.din ino).blocks ≤ k) : False := by
  have hroom := room_mono s ino
    (by omega : k - (s.din ino).blocks + 1 ≤ min (ceilBlocks n) maxBlocks - (s.din ino).blocks)
  unfold Fs.Enough at h
  omega

section Io

theorem Wf.io_reaches (h : Wf s O I) (hino : ino ∈ I) (htype : (s.din ino).type ≠ sfsTypeDir)
    (hr : s.IoReaches ino offset len write) :
    sfsIoNolock ino buf offset len write s ≠ .error .outOfRange := by
  intro he
  obtain ⟨h₁, h₂, h₃⟩ := (h.io_wp hino htype).error he
  rcases h₃ with ⟨h₃, -⟩ | ⟨-, h₃, h₄⟩
  · cases h₃
  · rcases hr with hr | hr | hr | hr
    · exact h₁ hr
    · omega
    · omega
    · omega

theorem Wf.io_panics (h : Wf s O I) (hino : ino ∈ I) (htype : (s.din ino).type ≠ sfsTypeDir)
    (hrel : s.Reliable) (henough : s.Enough ino (s.ioEnd ino offset len write))
    (hr : ¬ s.IoReaches ino offset len write) :
    sfsIoNolock ino buf offset len write s = .error .outOfRange := by
  have hrej : ¬ IoRejects offset len := fun hx => hr (.inl hx)
  have hlt : ¬ s.ioEnd ino offset len write ≤ offset.toNat := fun hx => hr (.inr (.inl hx))
  have hpast : ¬ (s.din ino).blocks < offset.toNat / sfsBlksize := fun hx =>
    hr (.inr (.inr (.inl hx)))
  have hreach : ¬ s.ioEnd ino offset len write ≤ maxBlocks * sfsBlksize := fun hx =>
    hr (.inr (.inr (.inr hx)))
  have hw : Code.Wp (sfsIoNolock ino buf offset len write) s _ _ := h.io_wp hino htype
  cases hrun : sfsIoNolock ino buf offset len write s with
  | error e =>
    rcases (hw.error hrun).2.2 with ⟨-, hx⟩ | ⟨he, -⟩
    · exact absurd hx hpast
    · rw [he]
  | ok p =>
    obtain ⟨r, t⟩ := p
    exfalso
    rcases hw.ok hrun with hx | ⟨-, hx⟩ | ⟨-, -, hm⟩
    · exact hrej hx
    · exact hlt hx
    · rename_i ret alen buf' t O'
      by_cases hret : ret = 0
      · have hcover := hm.cover (by have := hm.done hret; omega)
        have hmax := Nat.mul_le_mul_right sfsBlksize (hm.works.wf.reach ino hino)
        have := hm.done hret
        omega
      · obtain ⟨-, hshort, hbt, hmt, -⟩ := hm.full hrel hret
        exact henough.not_short (lt_ceilBlocks.mpr (by omega)) hmt hshort hm.grows

end Io

section Truncate

theorem Wf.truncfile_reaches (h : Wf s O I) (hino : ino ∈ I) (hr : s.TruncReaches ino length) :
    sfsTruncfile ino length s ≠ .error .outOfRange := by
  intro he
  obtain ⟨h₁, ⟨h₂, -⟩ | ⟨-, h₂, h₃⟩⟩ := (h.truncfile_wp hino).error he
  · cases h₂
  · have h₄ := lt_ceilBlocks.mp h₃
    rcases hr with hr | hr | hr
    · exact h₁ hr
    · exact h₂ hr
    · omega

theorem Wf.truncfile_panics (h : Wf s O I) (hino : ino ∈ I) (hrel : s.Reliable)
    (henough : s.Enough ino length.toNat) (hr : ¬ s.TruncReaches ino length) :
    sfsTruncfile ino length s = .error .outOfRange := by
  have hrej : ¬ TruncRejects length := fun hx => hr (.inl hx)
  have hlen : ¬ length = (s.din ino).size := fun hx => hr (.inr (.inl hx))
  have hreach : maxBlocks < ceilBlocks length.toNat := by
    rw [lt_ceilBlocks]
    by_contra hx
    exact hr (.inr (.inr (by omega)))
  have hblocks := h.reach ino hino
  have hw : Code.Wp (sfsTruncfile ino length) s _ _ := h.truncfile_wp hino
  cases hrun : sfsTruncfile ino length s with
  | error e =>
    rcases (hw.error hrun).2 with ⟨-, hx, -⟩ | ⟨he, -⟩
    · exact absurd hx hlen
    · rw [he]
  | ok p =>
    obtain ⟨r, t⟩ := p
    exfalso
    rcases hw.ok hrun with hx | ⟨-, hx, -⟩ | ⟨-, -, hlt, hret, hk⟩ | ⟨-, -, hret, hk⟩ |
      ⟨-, -, hlt, hk⟩ | ⟨-, -, hle, -⟩
    · exact hrej hx
    · exact hlen hx
    · obtain ⟨-, hshort, hm, hkn⟩ := hk.full hrel hret
      rename_i k O'
      refine henough.not_short (k := (s.din ino).blocks + k) (by omega) hm ?_ (by omega)
      rwa [Nat.add_sub_cancel_left]
    · exact hret (hk.reliable hrel)
    · have hbt := hk.works.wf.reach ino hino
      have hfile := congrArg File.blocks hk.file
      simp only [File.grow, Fs.file] at hfile
      omega
    · omega

end Truncate

section Seek

theorem Wf.tryseek_reaches (h : Wf s O I) (hino : ino ∈ I) (hr : s.SeekReaches ino pos) :
    sfsTryseek ino pos s ≠ .error .outOfRange := by
  intro he
  obtain ⟨h₁, h₂, -, h₃⟩ := (h.tryseek_wp hino).error he
  have h₄ := lt_ceilBlocks.mp h₃
  rcases hr with hr | hr | hr
  · exact h₁ hr
  · omega
  · omega

theorem tryseek_eq (h₁ : ¬ SeekRejects pos) (h₂ : pos > (s.din ino).size) :
    sfsTryseek ino pos s = sfsTruncfile ino pos s := by
  unfold sfsTryseek
  rw [if_neg (by exact h₁)]
  refine (Code.bind_ok rfl).trans ?_
  rw [if_pos h₂]

theorem Wf.tryseek_panics (h : Wf s O I) (hino : ino ∈ I) (hrel : s.Reliable)
    (henough : s.Enough ino pos.toNat) (hr : ¬ s.SeekReaches ino pos) :
    sfsTryseek ino pos s = .error .outOfRange := by
  have hrej : ¬ SeekRejects pos := fun hx => hr (.inl hx)
  have hlt : ¬ pos ≤ (s.din ino).size := fun hx => hr (.inr (.inl hx))
  rw [tryseek_eq hrej (by omega)]
  refine h.truncfile_panics hino hrel henough ?_
  rintro (hx | hx | hx)
  · unfold SeekRejects at hrej
    unfold TruncRejects at hx
    omega
  · omega
  · exact hr (.inr (.inr hx))

end Seek

/-- Transfers, truncations and seeks do not leave the reach of the map under the conditions stated,
and with a device that works and enough free blocks under no others. -/
theorem addressable_iff (h : Wf s O I) (hino : ino ∈ I) :
    ((s.din ino).type ≠ sfsTypeDir → ∀ buf offset len write,
      (s.IoReaches ino offset len write →
        sfsIoNolock ino buf offset len write s ≠ .error .outOfRange) ∧
      (s.Reliable → s.Enough ino (s.ioEnd ino offset len write) →
        sfsIoNolock ino buf offset len write s ≠ .error .outOfRange →
          s.IoReaches ino offset len write)) ∧
    (∀ length, (s.TruncReaches ino length → sfsTruncfile ino length s ≠ .error .outOfRange) ∧
      (s.Reliable → s.Enough ino length.toNat →
        sfsTruncfile ino length s ≠ .error .outOfRange → s.TruncReaches ino length)) ∧
    ∀ pos, (s.SeekReaches ino pos → sfsTryseek ino pos s ≠ .error .outOfRange) ∧
      (s.Reliable → s.Enough ino pos.toNat →
        sfsTryseek ino pos s ≠ .error .outOfRange → s.SeekReaches ino pos) := by
  refine ⟨fun htype buf offset len write => ⟨h.io_reaches hino htype, ?_⟩,
    fun length => ⟨h.truncfile_reaches hino, ?_⟩, fun pos => ⟨h.tryseek_reaches hino, ?_⟩⟩
  · intro hrel henough hne
    by_contra hr
    exact hne (h.io_panics hino htype hrel henough hr)
  · intro hrel henough hne
    by_contra hr
    exact hne (h.truncfile_panics hino hrel henough hr)
  · intro hrel henough hne
    by_contra hr
    exact hne (h.tryseek_panics hino hrel henough hr)

/-- The last position within the reach, and the next one. -/
theorem addressable_image :
    sfsTryseek 5 4243456 (image 1100 0 []) ≠ .error .outOfRange ∧
      ¬ sfsTryseek 5 4243457 (image 1100 0 []) ≠ .error .outOfRange := by
  have hwf : Wf (image 1100 0 []) _ imageInodes := image_wf (by decide) (by decide) (by decide)
  have h := addressable_iff hwf (show 5 ∈ imageInodes from .inr rfl)
  refine ⟨(h.2.2 4243456).1 (.inr (.inr (by decide))), fun hne => ?_⟩
  rcases (h.2.2 4243457).2 (by simp [Fs.Reliable, image]) (by unfold Fs.Enough; decide)
    hne with hx | hx | hx
  · exact absurd hx (by decide)
  · exact absurd hx (by decide)
  · exact absurd hx (by decide)

/-- A seek on an empty file to a position that passes the guard, on a volume with 1093 free
blocks. -/
theorem seek_out_of_reach : Consistent (image 1100 0 []) imageInodes ∧
    (image 1100 0 []).Reliable ∧ (image 1100 0 []).unusedBlocks = 1093 ∧
    (image 1100 0 []).Enough 5 4243457 ∧ ¬ SeekRejects 4243457 ∧
    sfsTryseek 5 4243457 (image 1100 0 []) = .error .outOfRange := by
  have hwf : Wf (image 1100 0 []) _ imageInodes := image_wf (by decide) (by decide) (by decide)
  have hrel : (image 1100 0 []).Reliable := by simp [Fs.Reliable, image]
  have henough : (image 1100 0 []).Enough 5 4243457 := by
    unfold Fs.Enough
    decide
  refine ⟨⟨_, hwf⟩, hrel, rfl, henough, by decide, ?_⟩
  refine hwf.tryseek_panics (.inr rfl) hrel henough ?_
  rintro (hx | hx | hx)
  · exact absurd hx (by decide)
  · exact absurd hx (by decide)
  · exact absurd hx (by decide)

end UCore.Sfs

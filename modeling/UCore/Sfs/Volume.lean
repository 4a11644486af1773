import Mathlib.Data.Finset.Card
import Mathlib.Tactic.NormNum
import UCore.Library.Counting
import UCore.Sfs.Model

/-! # Blocks of the volume

Taking a block of the volume, giving it back, and writing to a block, as changes of the state, and
the outcomes of the functions that transfer and allocate blocks in these terms.
-/

namespace UCore.Sfs

open Library

section Memory

variable {d b src : Buf} {pos from' n k i : ℕ}

theorem memcpy_in (h : k < n) : memcpy d pos src from' n (pos + k) = src (from' + k) := by
  unfold memcpy
  rw [if_pos (by omega)]
  congr 1
  omega

theorem memcpy_out (h : i < pos ∨ pos + n ≤ i) : memcpy d pos src from' n i = d i := by
  unfold memcpy
  rw [if_neg (by omega)]

theorem memcpy_start (h : i < n) : memcpy d 0 src from' n i = src (from' + i) := by
  unfold memcpy
  rw [if_pos (by omega)]
  rfl

theorem memcpy_memcpy {len m : ℕ} (h : from' + len ≤ m) :
    memcpy d pos (memcpy b 0 src 0 m) from' len = memcpy d pos src from' len := by
  funext i
  by_cases hi : pos ≤ i ∧ i < pos + len
  · obtain ⟨k, rfl⟩ := Nat.exists_eq_add_of_le hi.1
    rw [memcpy_in (by omega), memcpy_in (by omega), memcpy_start (by omega), Nat.zero_add]
  · rw [memcpy_out (by omega), memcpy_out (by omega)]

theorem getU32_putUint (h : n < 2 ^ 32) : getU32 (putUint n) = n := by
  have h₀ : ∀ k, (putUint n k).toNat = n / 256 ^ k % 256 := by
    intro k
    exact UInt8.toNat_ofNat_of_lt (Nat.mod_lt _ (by norm_num))
  simp only [getU32, h₀]
  norm_num
  omega

theorem getU32_congr (h : ∀ k < 4, b k = d k) : getU32 b = getU32 d := by
  unfold getU32
  rw [h 0 (by omega), h 1 (by omega), h 2 (by omega), h 3 (by omega)]

end Memory

namespace Fs

variable (s : Fs)

/-- The block `b` is taken from the freemap. -/
def take (b : ℕ) : Fs :=
  { s with
    freemap := Function.update s.freemap b false
    unusedBlocks := s.unusedBlocks - 1
    superDirty := true }

/-- The block `b` is given back to the freemap. -/
def give (b : ℕ) : Fs :=
  { s with
    freemap := Function.update s.freemap b true
    unusedBlocks := s.unusedBlocks + 1
    superDirty := true }

/-- `n` bytes from `pos` of `buf` are written to the block `b` at `offset`. -/
def patch (b offset : ℕ) (buf : Buf) (pos n : ℕ) : Fs :=
  { s with disk := Function.update s.disk b (memcpy (s.disk b) offset buf pos n) }

def clear (b : ℕ) : Fs := s.patch b 0 zeros 0 sfsBlksize

/-- `n` transfers later. -/
def later (n : ℕ) : Fs := { s with transfers := s.transfers.drop n }

/-- The error code of the transfer after `n` others. -/
def code (n : ℕ) : ℤ := s.transfers.getD n 0

/-- All coming transfers succeed. -/
def Reliable : Prop := ∀ ret ∈ s.transfers, ret = 0

/-- The free blocks are blocks of the volume, and they are counted. -/
structure Sound : Prop where
  bits : s.blocks ≤ s.nbits
  free : ∀ b, s.freemap b = true → 0 < b ∧ b < s.blocks
  count : s.unusedBlocks = ((Finset.range s.nbits).filter fun b => s.freemap b = true).card

/-- A block of the volume that is in use. -/
def InUse (b : ℕ) : Prop := 0 < b ∧ b < s.blocks ∧ s.freemap b = false

end Fs

section Later

variable {s : Fs} {b n m k : ℕ}

@[simp] theorem later_later : (s.later n).later m = s.later (n + m) := by
  simp [Fs.later, List.drop_drop]

theorem later_code : (s.later n).code k = s.code (n + k) := by
  simp [Fs.later, Fs.code, List.getD_eq_getElem?_getD, List.getElem?_drop]

theorem Fs.Reliable.code (h : s.Reliable) : s.code n = 0 := by
  unfold Fs.code
  rw [List.getD_eq_getElem?_getD]
  cases hn : s.transfers[n]? with
  | none => rfl
  | some ret => exact h ret (List.mem_of_getElem? hn)

theorem Fs.Reliable.later (h : s.Reliable) : (s.later n).Reliable := fun ret hr =>
  h ret (List.mem_of_mem_drop hr)

end Later

section Sound

variable {s : Fs} {b b' n : ℕ}

theorem Fs.Sound.none_free (h : s.Sound) : s.unusedBlocks = 0 ↔ ∀ b, s.freemap b = false := by
  rw [h.count, Finset.card_eq_zero, Finset.filter_eq_empty_iff]
  constructor
  · intro hn b
    by_contra hb
    have hb' : s.freemap b = true := by simpa using hb
    have := h.bits
    exact hn (Finset.mem_range.mpr (by have := (h.free b hb').2; omega)) hb'
  · intro hn b _
    simp [hn b]

theorem Fs.Sound.pos (h : s.Sound) (hb : s.freemap b = true) : 0 < s.unusedBlocks := by
  rw [Nat.pos_iff_ne_zero]
  intro h₀
  simp [h.none_free.mp h₀ b] at hb

theorem Fs.Sound.take (h : s.Sound) (hb : s.freemap b = true) : (s.take b).Sound where
  bits := h.bits
  free b' hb' := by
    refine h.free b' ?_
    by_cases hx : b' = b
    · rw [hx]
      exact hb
    · simpa [Fs.take, hx] using hb'
  count := by
    have hr : b ∈ Finset.range s.nbits :=
      Finset.mem_range.mpr ((h.free b hb).2.trans_le h.bits)
    have hc := card_filter_update (s := Finset.range s.nbits) (f := s.freemap) (a := b) (b := false)
      (fun x => x = true) hr
    simp only [hb, if_true, Bool.false_eq_true, if_false, Nat.add_zero] at hc
    have := h.count
    change s.unusedBlocks - 1 = ((Finset.range s.nbits).filter fun x =>
      Function.update s.freemap b false x = true).card
    omega

theorem Fs.Sound.give (h : s.Sound) (hb : s.InUse b) : (s.give b).Sound where
  bits := h.bits
  free b' hb' := by
    by_cases hx : b' = b
    · rw [hx]
      exact ⟨hb.1, hb.2.1⟩
    · refine h.free b' ?_
      simpa [Fs.give, hx] using hb'
  count := by
    have hr : b ∈ Finset.range s.nbits := Finset.mem_range.mpr (hb.2.1.trans_le h.bits)
    have hc := card_filter_update (s := Finset.range s.nbits) (f := s.freemap) (a := b) (b := true)
      (fun x => x = true) hr
    simp only [hb.2.2, if_true, Bool.false_eq_true, if_false, Nat.add_zero] at hc
    have := h.count
    change s.unusedBlocks + 1 = ((Finset.range s.nbits).filter fun x =>
      Function.update s.freemap b true x = true).card
    omega

end Sound

section Io

variable {s : Fs} {buf : Buf} {pos blkno len offset : ℕ} {write check : Bool}

theorem dopIo_run : dopIo buf pos blkno write s = .ok
    (if s.code 0 ≠ 0 then ((s.code 0, buf), s.later 1)
    else if write then ((0, buf), (s.patch blkno 0 buf pos sfsBlksize).later 1)
    else ((0, memcpy buf pos (s.disk blkno) 0 sfsBlksize), s.later 1)) := by
  have hc : s.transfers.headD 0 = s.code 0 := by
    unfold Fs.code
    cases s.transfers <;> rfl
  have ht : s.transfers.tail = s.transfers.drop 1 := by
    cases s.transfers <;> rfl
  unfold dopIo
  simp only [hc, ht]
  split
  · rfl
  · split <;> rfl

theorem rwblock_wp {Q : ℤ × Buf → Fs → Prop} {E : Panic → Prop}
    (hE : ¬ ((blkno ≠ 0 ∨ check = false) ∧ blkno < s.blocks) → E .rwblock)
    (hfail : s.code 0 ≠ 0 → Q (s.code 0, buf) (s.later 1))
    (hw : s.code 0 = 0 → write = true → Q (0, buf) ((s.patch blkno 0 buf pos sfsBlksize).later 1))
    (hr : s.code 0 = 0 → write = false →
      Q (0, memcpy buf pos (s.disk blkno) 0 sfsBlksize) (s.later 1)) :
    Code.Wp (sfsRwblockNolock buf pos blkno write check) s E Q := by
  unfold sfsRwblockNolock
  refine Code.Wp.bind_assert (fun _ => ?_) hE
  have h : dopIo buf pos blkno write s = _ := dopIo_run
  by_cases hc : s.code 0 = 0
  · rw [if_neg (not_not.mpr hc)] at h
    cases write with
    | true => exact .of_ok h (hw hc rfl)
    | false => exact .of_ok h (hr hc rfl)
  · rw [if_pos hc] at h
    exact .of_ok h (hfail hc)

theorem sfsRbuf_wp {Q : ℤ × Buf → Fs → Prop} {E : Panic → Prop}
    (hE : ∀ e, ¬ (offset < sfsBlksize ∧ offset + len ≤ sfsBlksize ∧ 0 < blkno ∧
      blkno < s.blocks) → E e)
    (hfail : s.code 0 ≠ 0 → Q (s.code 0, buf) (s.later 1))
    (hok : s.code 0 = 0 → offset + len ≤ sfsBlksize →
      Q (0, memcpy buf pos (s.disk blkno) offset len) (s.later 1)) :
    Code.Wp (sfsRbuf buf pos len blkno offset) s E Q := by
  unfold sfsRbuf
  refine Code.Wp.bind_assert ?_ fun h => hE _ fun h' => h ⟨h'.1, h'.2.1⟩
  rintro ⟨h₁, h₂⟩
  refine Code.Wp.bind (Q := fun r t => t = s.later 1 ∧ (s.code 0 ≠ 0 ∧ r.1 = s.code 0 ∨
    s.code 0 = 0 ∧ r = (0, memcpy zeros 0 (s.disk blkno) 0 sfsBlksize))) ?_ ?_
  · refine rwblock_wp (fun h => hE _ ?_) (fun h => ⟨rfl, .inl ⟨h, rfl⟩⟩) (by simp)
      fun h _ => ⟨rfl, .inr ⟨h, rfl⟩⟩
    rintro ⟨-, -, h₃, h₄⟩
    exact h ⟨.inl (by omega), h₄⟩
  · rintro ⟨ret, b⟩ t ⟨rfl, ⟨hc, rfl⟩ | ⟨hc, hr⟩⟩
    · apply Code.Wp.pure
      simpa [hc] using hfail hc
    · rw [Prod.mk.injEq] at hr
      obtain ⟨rfl, rfl⟩ := hr
      apply Code.Wp.pure
      simpa [memcpy_memcpy h₂] using hok hc h₂

/-- `sfs_wbuf`: one of two transfers fails, or the bytes are written. -/
theorem sfsWbuf_wp {Q : ℤ × Buf → Fs → Prop} {E : Panic → Prop}
    (hE : ∀ e, ¬ (offset < sfsBlksize ∧ offset + len ≤ sfsBlksize ∧ 0 < blkno ∧
      blkno < s.blocks) → E e)
    (hfail : ∀ n < 2, s.code n ≠ 0 → Q (s.code n, buf) (s.later (n + 1)))
    (hok : s.code 0 = 0 → s.code 1 = 0 → Q (0, buf) ((s.patch blkno offset buf pos len).later 2)) :
    Code.Wp (sfsWbuf buf pos len blkno offset) s E Q := by
  unfold sfsWbuf
  refine Code.Wp.bind_assert ?_ fun h => hE _ fun h' => h ⟨h'.1, h'.2.1⟩
  rintro ⟨h₁, h₂⟩
  have hrange : ∀ {x : Fs}, x.blocks = s.blocks →
      ¬ ((blkno ≠ 0 ∨ true = false) ∧ blkno < x.blocks) → E .rwblock := by
    intro x hx h
    refine hE _ ?_
    rintro ⟨-, -, h₃, h₄⟩
    exact h ⟨.inl (by omega), by omega⟩
  refine Code.Wp.bind (Q := fun r t => t = s.later 1 ∧ (s.code 0 ≠ 0 ∧ r.1 = s.code 0 ∨
    s.code 0 = 0 ∧ r = (0, memcpy zeros 0 (s.disk blkno) 0 sfsBlksize))) ?_ ?_
  · exact rwblock_wp (hrange rfl) (fun h => ⟨rfl, .inl ⟨h, rfl⟩⟩) (by simp)
      fun h _ => ⟨rfl, .inr ⟨h, rfl⟩⟩
  · rintro ⟨ret, b⟩ t ⟨rfl, ⟨hc, rfl⟩ | ⟨hc, hr⟩⟩
    · dsimp only
      rw [if_pos hc]
      exact hfail 0 (by omega) hc
    · rw [Prod.mk.injEq] at hr
      obtain ⟨rfl, rfl⟩ := hr
      dsimp only
      rw [if_neg (by simp)]
      refine Code.Wp.bind (Q := fun r t => Q (r.1, buf) t) ?_ fun r t h => Code.Wp.pure h
      have h₀ : (s.later 1).code 0 = s.code 1 := later_code
      refine rwblock_wp (hrange rfl) (fun h => ?_) (fun h _ => ?_) (by simp)
      · rw [h₀] at h ⊢
        rw [later_later]
        exact hfail 1 (by omega) h
      · rw [h₀] at h
        have hm : ∀ d : Buf, memcpy d 0 (memcpy (memcpy zeros 0 (s.disk blkno) 0 sfsBlksize) offset
            buf pos len) 0 sfsBlksize = memcpy d 0 (memcpy (s.disk blkno) offset buf pos len) 0
            sfsBlksize := by
          intro d
          funext i
          by_cases hi : i < sfsBlksize
          · rw [memcpy_start hi, memcpy_start hi, Nat.zero_add]
            unfold memcpy
            simp [hi]
          · rw [memcpy_out (.inr (by omega)), memcpy_out (.inr (by omega))]
        have hp : (s.later 1).patch blkno 0 (memcpy (memcpy zeros 0 (s.disk blkno) 0 sfsBlksize)
            offset buf pos len) 0 sfsBlksize = (s.patch blkno offset buf pos len).later 1 := by
          unfold Fs.patch Fs.later
          rw [hm]
          congr 2
          funext i
          by_cases hi : i < sfsBlksize
          · rw [memcpy_start hi, Nat.zero_add]
          · rw [memcpy_out (.inr (by omega)), memcpy_out (.inr (by omega))]
        rw [hp, later_later]
        exact hok hc h

end Io

end UCore.Sfs

import Mathlib.Order.Interval.Finset.Basic
import Mathlib.Data.Int.Interval
import Mathlib.Data.Finset.Card
import UCore.Process.Model

/-! # Allocation of pids

`get_pid` ends with a pid that no process has, and keeps in `last_pid` and `next_safe` an interval
without pids in use.
-/

namespace UCore.Process

open Library

section Scan

variable {pids : List ℤ} {lastPid nextSafe : ℤ}

/-- No pid in use is between the two. -/
def Clear (pids : List ℤ) (lastPid nextSafe : ℤ) : Prop :=
  ∀ p ∈ pids, ¬ (lastPid < p ∧ p < nextSafe)

/-- What one pass finds out. -/
structure Scanned (pids : List ℤ) (lastPid : ℤ) (r : ℤ × ℤ ⊕ ℤ × ℤ) : Prop where
  restart : ∀ x, r = .inl x → ∃ v, lastPid < v ∧ v ≤ maxPid ∧
    (∀ k, lastPid ≤ k → k < v → k ∈ pids) ∧ x = (if v ≥ maxPid then 1 else v, maxPid)
  stop : ∀ x, r = .inr x → lastPid ≤ x.1 ∧ x.1 < x.2 ∧ x.2 ≤ maxPid ∧
    ∀ p ∈ pids, p < x.1 ∨ x.2 ≤ p

theorem scanPids_spec (done rest : List ℤ) {lastPid nextSafe : ℤ} (hlt : lastPid < nextSafe)
    (hle : nextSafe ≤ maxPid)
    (hdone : ∀ p ∈ done, p < lastPid ∨ nextSafe ≤ p) :
    Scanned (done ++ rest) lastPid (scanPids rest (lastPid, nextSafe)) := by
  induction rest generalizing lastPid nextSafe done with
  | nil =>
    refine ⟨by simp [scanPids], ?_⟩
    rintro x hx
    obtain rfl : (lastPid, nextSafe) = x := by simpa [scanPids] using hx
    refine ⟨le_rfl, hlt, hle, by simpa using hdone⟩
  | cons pid rest ih =>
    have happ : done ++ pid :: rest = (done ++ [pid]) ++ rest := by simp
    unfold scanPids
    split
    · rename_i heq
      have hmem : lastPid ∈ done ++ pid :: rest := by simp [heq]
      split
      · rename_i hge
        refine ⟨?_, by simp⟩
        rintro x hx
        refine ⟨lastPid + 1, by omega, by omega, fun k h₁ h₂ => ?_, ?_⟩
        · obtain rfl : k = lastPid := by omega
          exact hmem
        · simpa using hx.symm
      · rename_i hge
        have h := ih (done ++ [pid]) (by omega : lastPid + 1 < nextSafe) hle (by
            intro p hp
            rcases List.mem_append.mp hp with hp | hp
            · have := hdone p hp
              omega
            · have : p = pid := by simpa using hp
              omega)
        rw [← happ] at h
        refine ⟨fun x hx => ?_, fun x hx => ?_⟩
        · obtain ⟨v, h₁, h₂, h₃, h₄⟩ := h.restart x hx
          refine ⟨v, by omega, h₂, fun k hk hkv => ?_, h₄⟩
          rcases eq_or_ne k lastPid with rfl | hne
          · exact hmem
          · exact h₃ k (by omega) hkv
        · obtain ⟨h₁, h₂, h₃, h₄⟩ := h.stop x hx
          exact ⟨by omega, h₂, h₃, h₄⟩
    · rename_i hne
      split
      · rename_i hgt
        rw [happ]
        refine ih _ (by omega) (by omega) fun p hp => ?_
        rcases List.mem_append.mp hp with hp | hp
        · have := hdone p hp
          omega
        · have : p = pid := by simpa using hp
          omega
      · rename_i hgt
        rw [happ]
        refine ih _ hlt hle fun p hp => ?_
        rcases List.mem_append.mp hp with hp | hp
        · exact hdone p hp
        · have : p = pid := by simpa using hp
          omega

theorem exists_unused (hlen : pids.length < 8191) : ∃ f, 1 ≤ f ∧ f < maxPid ∧ f ∉ pids := by
  have hcard : pids.toFinset.card < (Finset.Ico (1 : ℤ) maxPid).card := by
    have := pids.toFinset_card_le
    rw [Int.card_Ico]
    have h8 : (maxPid - 1).toNat = 8191 := by decide
    omega
  obtain ⟨f, hf, hnot⟩ := Finset.exists_mem_notMem_of_card_lt_card hcard
  rw [Finset.mem_Ico] at hf
  exact ⟨f, hf.1, hf.2, fun hm => hnot (List.mem_toFinset.mpr hm)⟩

/-- The distance from `x` up to the unused pid `f`, around the end of the pids. -/
def distance (f x : ℤ) : ℕ := if x ≤ f then (f - x).toNat else (maxPid - x + f).toNat

/-- What `get_pid` leaves in `last_pid` and `next_safe`. -/
structure Fresh (pids : List ℤ) (x : ℤ × ℤ) : Prop where
  pos : 1 ≤ x.1
  lt : x.1 < maxPid
  le : x.2 ≤ maxPid
  unused : x.1 ∉ pids
  clear : Clear pids x.1 x.2

theorem scanLoop_spec (hlen : pids.length < 8191) (h₁ : 1 ≤ lastPid) (h₂ : lastPid < maxPid) :
    ∃ r, iterate (scanPids pids) (2 * maxPid.toNat + 1) (lastPid, maxPid) = some r ∧
      Fresh pids r := by
  obtain ⟨f, hf₁, hf₂, hf⟩ := exists_unused hlen
  refine iterate_spec (fun x => (1 ≤ x.1 ∧ x.1 < maxPid) ∧ x.2 = maxPid) (fun x => distance f x.1)
    _ ?_ ?_ ⟨⟨h₁, h₂⟩, rfl⟩ ?_
  · rintro ⟨last, next⟩ y ⟨⟨hx₁, hx₂⟩, hx₃⟩ hy
    dsimp only at hx₁ hx₂ hx₃
    subst hx₃
    have hsc := scanPids_spec [] pids hx₂ le_rfl (by simp)
    obtain ⟨v, hv₁, hv₂, hv₃, rfl⟩ := hsc.restart y hy
    have hfv : ¬ (last ≤ f ∧ f < v) := fun hx => hf (hv₃ f hx.1 hx.2)
    have hm : maxPid = 8192 := rfl
    refine ⟨⟨⟨?_, ?_⟩, rfl⟩, ?_⟩
    · dsimp only
      split <;> omega
    · dsimp only
      split <;> omega
    · simp only [distance]
      split_ifs <;> omega
  · rintro ⟨last, next⟩ r ⟨⟨hx₁, hx₂⟩, hx₃⟩ hr
    dsimp only at hx₁ hx₂ hx₃
    subst hx₃
    have hsc := scanPids_spec [] pids hx₂ le_rfl (by simp)
    obtain ⟨hs₁, hs₂, hs₃, hs₄⟩ := hsc.stop r hr
    rw [List.nil_append] at hs₄
    refine ⟨by omega, by omega, hs₃, fun hmem => ?_, fun p hp => ?_⟩
    · have := hs₄ _ hmem
      omega
    · have := hs₄ p hp
      omega
  · have hm : maxPid = 8192 := rfl
    simp only [distance]
    split <;> omega

theorem getPid_spec (hlen : pids.length < 8191) (h₁ : 1 ≤ lastPid) (h₂ : nextSafe ≤ maxPid)
    (hc : Clear pids lastPid nextSafe) :
    ∃ x, getPid pids lastPid nextSafe = some x ∧ Fresh pids x := by
  have hm : maxPid = 8192 := rfl
  unfold getPid
  dsimp only
  split
  · exact scanLoop_spec hlen le_rfl (by decide)
  · split
    · exact scanLoop_spec hlen (by omega) (by omega)
    · refine ⟨_, rfl, by dsimp only; omega, by dsimp only; omega, h₂, fun hmem => ?_,
        fun p hp => ?_⟩
      · have := hc _ hmem
        dsimp only at this
        omega
      · have := hc p hp
        dsimp only
        omega

end Scan

end UCore.Process

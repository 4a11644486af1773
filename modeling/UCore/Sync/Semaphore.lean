import Mathlib.Data.List.Basic
import Mathlib.Data.Finset.Card
import Mathlib.Tactic.Common

/-! # Abstract semaphores

A counter and the sequence of the waiting processes. A signal goes to the process
that waits longest, and to the counter when none waits.
-/

namespace UCore.Sync

structure Semaphore where
  value : Int32
  queue : List ℕ

namespace Semaphore

variable {a : Semaphore} {p : ℕ}

/-- The process that the signal releases, if any, and the semaphore after it. -/
def up (a : Semaphore) : Option ℕ × Semaphore :=
  match a.queue with
  | [] => (none, { a with value := a.value + 1 })
  | p :: ps => (some p, { a with queue := ps })

/-- Whether the process goes on at once, and the semaphore after it. -/
def down (a : Semaphore) (p : ℕ) : Bool × Semaphore :=
  if 0 < a.value then (true, { a with value := a.value - 1 })
  else (false, { a with queue := a.queue ++ [p] })

def tryDown (a : Semaphore) : Bool × Semaphore :=
  if 0 < a.value then (true, { a with value := a.value - 1 }) else (false, a)

/-- The counter is not negative, and it is zero while a process waits. -/
structure Settled (a : Semaphore) : Prop where
  nonneg : 0 ≤ a.value.toInt
  empty : 0 < a.value.toInt → a.queue = []

theorem up_nil (h : a.queue = []) : a.up = (none, { a with value := a.value + 1 }) := by
  simp [up, h]

theorem up_cons {ps : List ℕ} (h : a.queue = p :: ps) :
    a.up = (some p, { a with queue := ps }) := by
  simp [up, h]

theorem toInt_succ {v : Int32} (hv : v ≠ Int32.maxValue) : (v + 1).toInt = v.toInt + 1 := by
  have h₁ := v.toInt_lt
  have h₂ := v.le_toInt
  have h₃ : v.toInt ≠ 2147483647 := fun h => hv (Int32.toInt_inj.mp (by rw [h]; decide))
  rw [Int32.toInt_add]
  have : (1 : Int32).toInt = 1 := by decide
  rw [this]
  exact Int.bmod_eq_of_le (by omega) (by omega)

theorem toInt_pred {v : Int32} (hv : 0 < v) : (v - 1).toInt = v.toInt - 1 := by
  have h₁ := v.toInt_lt
  have h₂ : 0 < v.toInt := by simpa using Int32.lt_iff_toInt_lt.mp hv
  rw [Int32.toInt_sub]
  have : (1 : Int32).toInt = 1 := by decide
  rw [this]
  exact Int.bmod_eq_of_le (by omega) (by omega)

theorem pos_iff {v : Int32} : 0 < v ↔ 0 < v.toInt := by
  simpa using Int32.lt_iff_toInt_lt (x := 0) (y := v)

namespace Settled

theorem up (h : a.Settled) (hv : a.value ≠ Int32.maxValue) : a.up.2.Settled := by
  rcases hq : a.queue with _ | ⟨p, ps⟩
  · rw [up_nil hq]
    refine ⟨?_, fun _ => hq⟩
    have := h.nonneg
    simp only [toInt_succ hv]
    omega
  · rw [up_cons hq]
    refine ⟨h.nonneg, fun hp => ?_⟩
    have := h.empty hp
    simp [hq] at this

theorem pred (h : a.Settled) (hv : 0 < a.value) : Settled { a with value := a.value - 1 } := by
  have hp := pos_iff.mp hv
  constructor
  · simp only [toInt_pred hv]
    omega
  · intro _
    exact h.empty hp

theorem down (h : a.Settled) (p : ℕ) : (a.down p).2.Settled := by
  unfold Semaphore.down
  split
  · exact h.pred ‹_›
  · refine ⟨h.nonneg, fun hp => ?_⟩
    exact absurd (pos_iff.mpr hp) ‹_›

theorem tryDown (h : a.Settled) : a.tryDown.2.Settled := by
  unfold Semaphore.tryDown
  split
  · exact h.pred ‹_›
  · exact h

end Settled

end Semaphore

/-- What has happened at a semaphore: the completed signals, the completed waits, and the
processes in the order in which they queued and were released. -/
structure History where
  ups : ℕ
  downs : ℕ
  queued : List ℕ
  released : List ℕ
deriving DecidableEq

namespace History

def empty : History := ⟨0, 0, [], []⟩

def up (h : History) (r : Option ℕ) : History :=
  { h with ups := h.ups + 1, released := h.released ++ r.toList }

def down (h : History) (p : ℕ) (done : Bool) : History :=
  if done then { h with downs := h.downs + 1 } else { h with queued := h.queued ++ [p] }

def tryDown (h : History) (done : Bool) : History :=
  if done then { h with downs := h.downs + 1 } else h

def back (h : History) : History := { h with downs := h.downs + 1 }

end History

/-- A semaphore that started at `v`, with the processes `W` released but not yet gone on. -/
structure Account (v : Int32) (a : Semaphore) (h : History) (W : Finset ℕ) : Prop where
  settled : a.Settled
  fifo : h.queued = h.released ++ a.queue
  balance : v.toInt + h.ups = a.value.toInt + h.downs + W.card

namespace Account

variable {v : Int32} {a : Semaphore} {h : History} {W : Finset ℕ} {p : ℕ}

theorem init (hv : 0 ≤ v.toInt) : Account v ⟨v, []⟩ .empty ∅ :=
  ⟨⟨hv, fun _ => rfl⟩, rfl, by simp [History.empty]⟩

theorem up_nil (c : Account v a h W) (hq : a.queue = []) (hv : a.value ≠ Int32.maxValue) :
    Account v a.up.2 (h.up a.up.1) W := by
  refine ⟨c.settled.up hv, ?_, ?_⟩
  · simpa [Semaphore.up_nil hq, History.up] using c.fifo
  · have := c.balance
    simp only [Semaphore.up_nil hq, History.up, Semaphore.toInt_succ hv]
    push_cast
    omega

theorem up_cons {ps : List ℕ} (c : Account v a h W) (hq : a.queue = p :: ps) (hp : p ∉ W) :
    Account v a.up.2 (h.up a.up.1) (insert p W) := by
  have h0 : ¬ 0 < a.value.toInt := fun h0 => by simpa [hq] using c.settled.empty h0
  have hv : a.value ≠ Int32.maxValue := by
    intro hv
    rw [hv] at h0
    exact h0 (by decide)
  refine ⟨c.settled.up hv, ?_, ?_⟩
  · simp [Semaphore.up_cons hq, History.up, c.fifo, hq]
  · have := c.balance
    simp only [Semaphore.up_cons hq, History.up, Finset.card_insert_of_notMem hp]
    push_cast
    omega

theorem down (c : Account v a h W) : Account v (a.down p).2 (h.down p (a.down p).1) W := by
  refine ⟨c.settled.down p, ?_, ?_⟩
  · have := c.fifo
    unfold Semaphore.down
    split <;> simp [History.down, this]
  · have := c.balance
    unfold Semaphore.down
    split
    · simp only [History.down, if_true, Semaphore.toInt_pred ‹_›]
      push_cast
      omega
    · simpa [History.down] using this

theorem tryDown (c : Account v a h W) : Account v a.tryDown.2 (h.tryDown a.tryDown.1) W := by
  refine ⟨c.settled.tryDown, ?_, ?_⟩
  · have := c.fifo
    unfold Semaphore.tryDown
    split <;> simp [History.tryDown, this]
  · have := c.balance
    unfold Semaphore.tryDown
    split
    · simp only [History.tryDown, if_true, Semaphore.toInt_pred ‹_›]
      push_cast
      omega
    · simpa [History.tryDown] using this

theorem back (c : Account v a h W) (hp : p ∈ W) : Account v a h.back (W.erase p) := by
  refine ⟨c.settled, c.fifo, ?_⟩
  have := c.balance
  have := Finset.card_erase_add_one hp
  simp only [History.back]
  push_cast
  omega

end Account

end UCore.Sync

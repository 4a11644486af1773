import Mathlib.Data.List.Basic
import Mathlib.Tactic.Common

/-! # Delta queues and alarm clocks

A delta queue stores the remaining time of each entry as the difference to its predecessor. It
implements an alarm clock, which stores absolute deadlines: insertion and removal change the
remaining time of no other entry, and a tick removes the entries whose time has come.
-/

namespace Library

variable {α : Type*}

/-- The time, and the deadlines of the names that are armed. -/
structure Clock (α : Type*) where
  now : ℕ
  deadline : α → Option ℕ

namespace Clock

variable (c : Clock α)

/-- The names that the next tick rings. -/
def Rings (x : α) : Prop := c.deadline x = some (c.now + 1)

def Ahead : Prop := ∀ x d, c.deadline x = some d → c.now < d

def remaining (x : α) : Option ℕ := (c.deadline x).map (· - c.now)

variable {c} {x y : α} {t : ℕ}

theorem Ahead.rings_iff (h : c.Ahead) : c.Rings x ↔ c.remaining x = some 1 := by
  unfold Rings remaining
  cases hd : c.deadline x with
  | none => simp
  | some d =>
    have := h x d hd
    simp only [Option.some.injEq, Option.map_some]
    omega

theorem Ahead.remaining_ne_zero (h : c.Ahead) : c.remaining x ≠ some 0 := by
  unfold remaining
  cases hd : c.deadline x with
  | none => simp
  | some d =>
    have := h x d hd
    simp only [Option.map_some, ne_eq, Option.some.injEq]
    omega

instance (x : α) : Decidable (c.Rings x) := inferInstanceAs (Decidable (_ = _))

def tick (c : Clock α) : Clock α where
  now := c.now + 1
  deadline x := if c.Rings x then none else c.deadline x

theorem Ahead.tick (h : c.Ahead) : c.tick.Ahead := by
  intro y d hd
  have hn : c.tick.now = c.now + 1 := rfl
  dsimp only [Clock.tick] at hd
  split at hd
  · cases hd
  · rename_i hr
    have := h y d hd
    have : d ≠ c.now + 1 := fun he => hr (hd.trans (congrArg some he))
    omega

theorem Ahead.remaining_tick (h : c.Ahead) :
    c.tick.remaining x = if c.remaining x = some 1 then none else (c.remaining x).map (· - 1) := by
  simp only [← h.rings_iff]
  unfold remaining Clock.tick
  dsimp only
  split
  · rfl
  · cases hd : c.deadline x with
    | none => rfl
    | some d =>
      have := h x d hd
      simp only [Option.map_some, Option.some.injEq]
      omega

theorem tick_deadline : c.tick.deadline x =
    if c.deadline x = some (c.now + 1) then none else c.deadline x := by
  by_cases hr : c.Rings x
  · exact (if_pos hr).trans (if_pos hr).symm
  · exact (if_neg hr).trans (if_neg hr).symm

theorem remaining_tick_iff {k : ℕ} (hk : 0 < k) :
    c.tick.remaining x = some k ↔ c.remaining x = some (k + 1) := by
  rw [remaining, tick_deadline, remaining]
  have hn : c.tick.now = c.now + 1 := rfl
  by_cases hr : c.deadline x = some (c.now + 1)
  · simp only [hr, if_true, Option.map_none, Option.map_some, Option.some.injEq, reduceCtorEq,
      false_iff]
    omega
  · rw [if_neg hr]
    cases hd : c.deadline x with
    | none => simp
    | some d =>
      simp only [Option.map_some, Option.some.injEq, hn]
      omega

theorem remaining_of_tick {k : ℕ} (h : c.tick.remaining x = some k) :
    ∃ d, c.remaining x = some d := by
  obtain ⟨d, hd, -⟩ := Option.map_eq_some_iff.mp h
  dsimp only [tick] at hd
  split at hd
  · cases hd
  · exact ⟨d - c.now, by simp [remaining, hd]⟩

variable [DecidableEq α]

def arm (c : Clock α) (x : α) (t : ℕ) : Clock α :=
  { c with deadline := Function.update c.deadline x (some (c.now + t)) }

def cancel (c : Clock α) (x : α) : Clock α :=
  { c with deadline := Function.update c.deadline x none }

theorem Ahead.arm (h : c.Ahead) (ht : 0 < t) : (c.arm x t).Ahead := by
  intro y d hd
  rcases eq_or_ne y x with rfl | hy
  · have : c.now + t = d := by simpa [Clock.arm] using hd
    have : (c.arm y t).now = c.now := rfl
    omega
  · exact h y d (by simpa [Clock.arm, hy] using hd)

theorem Ahead.cancel (h : c.Ahead) : (c.cancel x).Ahead := by
  intro y d hd
  rcases eq_or_ne y x with rfl | hy
  · simp [Clock.cancel] at hd
  · exact h y d (by simpa [Clock.cancel, hy] using hd)

theorem remaining_arm : (c.arm x t).remaining y = if y = x then some t else c.remaining y := by
  unfold remaining Clock.arm
  split
  · subst y
    simp
  · simp [*]

theorem remaining_cancel : (c.cancel x).remaining y = if y = x then none else c.remaining y := by
  unfold remaining Clock.cancel
  split
  · subst y
    simp
  · simp [*]

end Clock

namespace Deltas

variable {l : List (α × ℕ)} {x y : α} {t d : ℕ}

/-- The first entry moves away by `d`. -/
def delay (d : ℕ) : List (α × ℕ) → List (α × ℕ)
  | [] => []
  | (y, e) :: l => (y, e + d) :: l

/-- The entries whose time has come. -/
def expired (l : List (α × ℕ)) : List (α × ℕ) := l.takeWhile fun p => p.2 = 0

def waiting (l : List (α × ℕ)) : List (α × ℕ) := l.dropWhile fun p => p.2 = 0

@[simp] theorem expired_zero : expired ((x, 0) :: l) = (x, 0) :: expired l := by simp [expired]

@[simp] theorem waiting_zero : waiting ((x, 0) :: l) = waiting l := by simp [waiting]

theorem expired_pos (hd : d ≠ 0) : expired ((x, d) :: l) = [] := by simp [expired, hd]

theorem waiting_pos (hd : d ≠ 0) : waiting ((x, d) :: l) = (x, d) :: l := by simp [waiting, hd]

@[simp] theorem delay_zero : delay 0 l = l := by cases l <;> rfl

variable [DecidableEq α]

/-- The time that remains for a name: the sum of the differences up to its entry. -/
def remaining : List (α × ℕ) → α → Option ℕ
  | [], _ => none
  | (y, d) :: l, x => if x = y then some d else (remaining l x).map (d + ·)

def insert (x : α) : ℕ → List (α × ℕ) → List (α × ℕ)
  | t, [] => [(x, t)]
  | t, (y, d) :: l => if t < d then (x, t) :: (y, d - t) :: l else (y, d) :: insert x (t - d) l

def remove (x : α) : List (α × ℕ) → List (α × ℕ)
  | [] => []
  | (y, d) :: l => if y = x then delay d l else (y, d) :: remove x l

@[simp] theorem remaining_nil : remaining [] x = none := rfl

@[simp] theorem remaining_cons :
    remaining ((y, d) :: l) x = if x = y then some d else (remaining l x).map (d + ·) := rfl

theorem remaining_eq_none : remaining l x = none ↔ x ∉ l.map Prod.fst := by
  induction l with
  | nil => simp
  | cons p l ih =>
    obtain ⟨y, d⟩ := p
    by_cases h : x = y
    · simp [h]
    · simp [h, ih]

theorem le_remaining (h : remaining ((y, d) :: l) x = some t) : d ≤ t := by
  simp only [remaining_cons] at h
  split at h
  · simp_all
  · obtain ⟨n, -, hn⟩ := Option.map_eq_some_iff.mp h
    omega

theorem remaining_insert (hx : x ∉ l.map Prod.fst) :
    remaining (insert x t l) y = if y = x then some t else remaining l y := by
  induction l generalizing t with
  | nil => simp [insert]
  | cons p l ih =>
    obtain ⟨z, d⟩ := p
    obtain ⟨hz, hl⟩ : x ≠ z ∧ x ∉ l.map Prod.fst := by simpa [List.mem_map] using hx
    unfold insert
    split
    · by_cases hy : y = x
      · simp [hy]
      · by_cases hyz : y = z
        · simp only [remaining_cons, if_neg hy, if_pos hyz, Option.map_some, Option.some.injEq]
          omega
        · simp only [remaining_cons, if_neg hy, if_neg hyz, Option.map_map]
          congr 1
          funext n
          simp only [Function.comp]
          omega
    · rename_i htd
      simp only [remaining_cons, ih hl]
      by_cases hy : y = x
      · subst y
        simp only [if_neg hz, if_pos, Option.map_some, Option.some.injEq]
        omega
      · simp [hy]

theorem remaining_delay :
    remaining (delay d l) y = (remaining l y).map (d + ·) := by
  cases l with
  | nil => rfl
  | cons p l =>
    obtain ⟨z, e⟩ := p
    by_cases hy : y = z
    · simp [delay, hy, Nat.add_comm]
    · simp only [delay, remaining_cons, if_neg hy, Option.map_map]
      congr 1
      funext n
      simp only [Function.comp]
      omega

theorem remove_of_notMem (hx : x ∉ l.map Prod.fst) : remove x l = l := by
  induction l with
  | nil => rfl
  | cons p l ih =>
    obtain ⟨z, d⟩ := p
    obtain ⟨hz, hl⟩ : x ≠ z ∧ x ∉ l.map Prod.fst := by simpa [List.mem_map] using hx
    simp [remove, Ne.symm hz, ih hl]

theorem remove_append {pre : List (α × ℕ)} (hx : x ∉ pre.map Prod.fst) :
    remove x (pre ++ (x, d) :: l) = pre ++ delay d l := by
  induction pre with
  | nil => simp [remove]
  | cons p pre ih =>
    obtain ⟨z, e⟩ := p
    obtain ⟨hz, hp⟩ : x ≠ z ∧ x ∉ pre.map Prod.fst := by simpa [List.mem_map] using hx
    simp [remove, Ne.symm hz, ih hp]

theorem add_le_remaining {q : List (α × ℕ)} {e : ℕ}
    (hl : ((q ++ (x, d) :: (y, e) :: l).map Prod.fst).Nodup) :
    ∃ t, remaining (q ++ (x, d) :: (y, e) :: l) y = some t ∧ d + e ≤ t := by
  induction q with
  | nil =>
    have hyx : y ≠ x := fun h => by simp [h] at hl
    exact ⟨d + e, by simp [hyx], Nat.le_refl _⟩
  | cons p q ih =>
    obtain ⟨z, c⟩ := p
    obtain ⟨hz, hp⟩ := List.nodup_cons.mp hl
    obtain ⟨t, ht, hle⟩ := ih hp
    have hyz : y ≠ z := fun h => by simp [h] at hz
    exact ⟨c + t, by simp [hyz, ht], by omega⟩

theorem remaining_remove (hl : (l.map Prod.fst).Nodup) :
    remaining (remove x l) y = if y = x then none else remaining l y := by
  induction l with
  | nil => simp [remove]
  | cons p l ih =>
    obtain ⟨z, d⟩ := p
    obtain ⟨hz, hl⟩ := List.nodup_cons.mp hl
    unfold remove
    split
    · rename_i hzx
      subst x
      rw [remaining_delay]
      by_cases hy : y = z
      · subst y
        simp [remaining_eq_none.mpr hz]
      · simp [hy]
    · rename_i hzx
      simp only [remaining_cons, ih hl]
      by_cases hy : y = x
      · subst y
        simp [Ne.symm hzx]
      · simp [hy]

theorem remaining_pred (hd : 0 < d) :
    remaining ((y, d - 1) :: l) x = (remaining ((y, d) :: l) x).map (· - 1) := by
  simp only [remaining_cons]
  split
  · rfl
  · rw [Option.map_map]
    congr 1
    funext n
    simp only [Function.comp]
    omega

theorem mem_expired_iff (hl : (l.map Prod.fst).Nodup) :
    x ∈ (expired l).map Prod.fst ↔ remaining l x = some 0 := by
  induction l with
  | nil => simp [expired]
  | cons p l ih =>
    obtain ⟨z, d⟩ := p
    obtain ⟨hz, hn⟩ := List.nodup_cons.mp hl
    by_cases hd : d = 0
    · subst hd
      have := ih hn
      simp only [expired] at this
      by_cases hx : x = z
      · simp [expired, hx]
      · simp [expired, hx, this]
    · simp only [expired, remaining_cons, List.takeWhile_cons, hd, decide_false, Bool.false_eq_true,
        if_false, List.map_nil, List.not_mem_nil, false_iff]
      split
      · simpa using hd
      · intro h
        obtain ⟨n, -, hn⟩ := Option.map_eq_some_iff.mp h
        omega

theorem remaining_waiting (hl : (l.map Prod.fst).Nodup) :
    remaining (waiting l) x = if remaining l x = some 0 then none else remaining l x := by
  induction l with
  | nil => simp [waiting]
  | cons p l ih =>
    obtain ⟨z, d⟩ := p
    obtain ⟨hz, hn⟩ := List.nodup_cons.mp hl
    by_cases hd : d = 0
    · subst hd
      have := ih hn
      simp only [waiting] at this
      by_cases hx : x = z
      · subst x
        simp [waiting, this, remaining_eq_none.mpr hz]
      · simp [waiting, hx, this]
    · rw [waiting_pos hd, if_neg]
      intro h
      have := le_remaining h
      omega

end Deltas

end Library

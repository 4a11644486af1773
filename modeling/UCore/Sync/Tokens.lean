import UCore.Sync.Semaphore

/-! # Tokens of a semaphore

The tokens of a semaphore are the value of its counter and one for each process that a signal has
released and that has not run since. A signal adds a token, and a process that passes `down`
takes one.
-/

namespace UCore.Sync.Semaphore

variable {a : Semaphore} {blocked blocked' : ℕ → Prop} {n p : ℕ}

/-- The semaphore has `n` tokens, and `blocked` are the processes in its `down`. -/
structure Tokens (a : Semaphore) (blocked : ℕ → Prop) (n : ℕ) : Prop where
  nodup : a.queue.Nodup
  sleeps : ∀ p ∈ a.queue, blocked p
  settled : a.Settled
  count : ∃ released : Finset ℕ, (∀ p, p ∈ released ↔ blocked p ∧ p ∉ a.queue) ∧
    a.value.toInt + released.card = n

namespace Tokens

theorem congr (h : Tokens a blocked n) (hb : ∀ p, blocked' p ↔ blocked p) :
    Tokens a blocked' n := by
  obtain rfl : blocked' = blocked := funext fun p => propext (hb p)
  exact h

theorem up (h : Tokens a blocked n) (hn : n < 2147483647) : Tokens a.up.2 blocked (n + 1) := by
  obtain ⟨released, hr, hc⟩ := h.count
  have hv : a.value ≠ Int32.maxValue := fun hv => by
    have : a.value.toInt = 2147483647 := by rw [hv]; decide
    omega
  refine ⟨?_, ?_, h.settled.up hv, ?_⟩
  all_goals rcases hq : a.queue with _ | ⟨q, qs⟩
  · simp [up_nil hq, hq]
  · have := h.nodup
    rw [hq] at this
    rw [up_cons hq]
    exact (List.nodup_cons.mp this).2
  · simp [up_nil hq, hq]
  · rw [up_cons hq]
    exact fun p hp => h.sleeps p (by rw [hq]; exact List.mem_cons_of_mem q hp)
  · refine ⟨released, ?_, ?_⟩
    · simpa [up_nil hq, hq] using hr
    · rw [up_nil hq, toInt_succ hv]
      omega
  · have hnd := h.nodup
    rw [hq] at hnd hr
    have hqr : q ∉ released := fun hm => ((hr q).mp hm).2 (by simp)
    refine ⟨insert q released, fun p => ?_, ?_⟩
    · rw [up_cons hq, Finset.mem_insert, hr]
      rcases eq_or_ne p q with rfl | hp
      · simp [h.sleeps p (by simp [hq]), (List.nodup_cons.mp hnd).1]
      · simp [hp]
    · rw [up_cons hq, Finset.card_insert_of_notMem hqr]
      push_cast
      omega

theorem down_true (h : Tokens a blocked n) (hd : (a.down p).1 = true) :
    0 < n ∧ Tokens (a.down p).2 blocked (n - 1) := by
  obtain ⟨released, hr, hc⟩ := h.count
  have hs := h.settled.down p
  unfold down at hd hs ⊢
  split at hd
  · rename_i hv
    have hpos := pos_iff.mp hv
    rw [if_pos hv] at hs
    rw [if_pos hv]
    refine ⟨by omega, h.nodup, h.sleeps, hs, released, hr, ?_⟩
    rw [toInt_pred hv]
    omega
  · cases hd

theorem down_false (h : Tokens a blocked n) (hd : (a.down p).1 = false) (hp : ¬blocked p) :
    Tokens (a.down p).2 (fun q => q = p ∨ blocked q) n := by
  obtain ⟨released, hr, hc⟩ := h.count
  have hs := h.settled.down p
  have hpq : p ∉ a.queue := fun hq => hp (h.sleeps p hq)
  unfold down at hd hs ⊢
  split at hd
  · cases hd
  · rename_i hv
    rw [if_neg hv] at hs
    rw [if_neg hv]
    refine ⟨?_, fun q hq => ?_, hs, released, fun q => ?_, hc⟩
    · refine List.nodup_append.mpr ⟨h.nodup, by simp, fun q hq r hr => ?_⟩
      rw [List.mem_singleton.mp hr]
      exact ne_of_mem_of_not_mem hq hpq
    · rcases List.mem_append.mp hq with hq | hq
      · exact .inr (h.sleeps q hq)
      · exact .inl (List.mem_singleton.mp hq)
    · rw [hr]
      rcases eq_or_ne q p with rfl | hqp
      · simp [hp]
      · simp [hqp]

theorem wake (h : Tokens a blocked n) (hp : blocked p) (hq : p ∉ a.queue) :
    0 < n ∧ Tokens a (fun q => q ≠ p ∧ blocked q) (n - 1) := by
  obtain ⟨released, hr, hc⟩ := h.count
  have hm : p ∈ released := (hr p).mpr ⟨hp, hq⟩
  have hpos := Finset.card_pos.mpr ⟨p, hm⟩
  have hnn := h.settled.nonneg
  refine ⟨by omega, h.nodup, fun q hq' => ⟨fun he => hq (he ▸ hq'), h.sleeps q hq'⟩, h.settled,
    released.erase p, fun q => ?_, ?_⟩
  · rw [Finset.mem_erase, hr]
    tauto
  · rw [Finset.card_erase_of_mem hm]
    omega

theorem zero (hb : ∀ p, ¬blocked p) : Tokens ⟨0, []⟩ blocked 0 :=
  ⟨by simp, by simp, ⟨by decide, by simp⟩, ∅, by simp [hb], by decide⟩

theorem one (hb : ∀ p, ¬blocked p) : Tokens ⟨1, []⟩ blocked 1 :=
  ⟨by simp, by simp, ⟨by decide, by simp⟩, ∅, by simp [hb], by decide⟩

end Tokens

/-- A semaphore that is used as a lock: it has a token exactly while nobody is inside. -/
structure Lock (a : Semaphore) (blocked inside : ℕ → Prop) (owner : Option ℕ) : Prop where
  tokens : a.Tokens blocked (if owner = none then 1 else 0)
  owner : ∀ p, inside p ↔ owner = some p

namespace Lock

variable {inside inside' : ℕ → Prop} {owner : Option ℕ}

theorem congr (h : Lock a blocked inside owner) (hb : ∀ p, blocked' p ↔ blocked p)
    (hi : ∀ p, inside' p ↔ inside p) : Lock a blocked' inside' owner :=
  ⟨h.tokens.congr hb, fun p => (hi p).trans (h.owner p)⟩

theorem unique (h : Lock a blocked inside owner) {q : ℕ} (hp : inside p) (hq : inside q) :
    p = q := by
  have := (h.owner p).mp hp
  rw [(h.owner q).mp hq] at this
  exact (Option.some.inj this).symm

theorem free (ho : 0 < if owner = none then 1 else 0) : owner = none := by
  by_contra hn
  simp [hn] at ho

theorem owned (h : Lock a blocked inside none) (q : ℕ) : q = p ∨ inside q ↔ some p = some q := by
  simp [h.owner, eq_comm]

theorem enter (h : Lock a blocked inside owner) (hd : (a.down p).1 = true) :
    Lock (a.down p).2 blocked (fun q => q = p ∨ inside q) (some p) := by
  obtain ⟨ho, ht⟩ := h.tokens.down_true hd
  obtain rfl := free ho
  exact ⟨ht, h.owned⟩

theorem sleep (h : Lock a blocked inside owner) (hd : (a.down p).1 = false) (hp : ¬blocked p) :
    Lock (a.down p).2 (fun q => q = p ∨ blocked q) inside owner :=
  ⟨h.tokens.down_false hd hp, h.owner⟩

theorem wake (h : Lock a blocked inside owner) (hp : blocked p) (hq : p ∉ a.queue) :
    Lock a (fun q => q ≠ p ∧ blocked q) (fun q => q = p ∨ inside q) (some p) := by
  obtain ⟨ho, ht⟩ := h.tokens.wake hp hq
  obtain rfl := free ho
  exact ⟨ht, h.owned⟩

theorem leave (h : Lock a blocked inside owner) (hp : inside p) :
    Lock a.up.2 blocked (fun q => q ≠ p ∧ inside q) none := by
  have ho := (h.owner p).mp hp
  refine ⟨?_, fun q => ?_⟩
  · have ht := h.tokens
    rw [if_neg (by simp [ho])] at ht
    simpa using ht.up (by omega)
  · simp only [h.owner, ho, Option.some.injEq, reduceCtorEq, iff_false, not_and]
    exact fun hn he => hn he.symm

end Lock

end UCore.Sync.Semaphore

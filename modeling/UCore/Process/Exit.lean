import UCore.Process.Table

/-! # Waiting for children

A process that sleeps in `do_wait` has no child among those it waits for that is a zombie. The exit
of a process wakes its parent, and `initproc` when it gets a zombie child.
-/

namespace UCore.Process

open Library

/-- The states of the processes `A` fit together. The children of `leaving` are still to be handed
to `initproc`, and `late` is still to be woken. -/
structure Waits (s : State) (A : Finset ℕ) (leaving late : Option ℕ) : Prop where
  init : initproc ∈ A
  initAlive : (s.proc initproc).state ≠ .zombie
  quiet : ∀ a, a = idleproc ∨ a ∈ A → (s.proc a).state ≠ .sleeping → (s.proc a).waitState = 0
  parent : ∀ x ∈ A, ∀ a, (s.proc x).parent = some a → leaving ≠ some a →
    (s.proc a).state ≠ .zombie
  waiting : ∀ a, a = idleproc ∨ a ∈ A → late ≠ some a → (s.proc a).state = .sleeping →
    (s.proc a).waitState = wtChild → ∃ pid, s.inWait a = some pid ∧
      ∀ c ∈ A, (s.proc c).parent = some a → pid = 0 ∨ (s.proc c).pid = pid →
        (s.proc c).state ≠ .zombie
  inside : ∀ a, s.inWait a ≠ none → (a = idleproc ∨ a ∈ A) ∧ (s.proc a).state ≠ .zombie

theorem wtChild_ne_zero : wtChild ≠ 0 := by decide

namespace Waits

variable {s s' : State} {A : Finset ℕ} {leaving late : Option ℕ} {a p w : ℕ}

theorem sleeping_of_wtChild (h : Waits s A leaving late) (ha : a = idleproc ∨ a ∈ A)
    (hw : (s.proc a).waitState = wtChild) : (s.proc a).state = .sleeping := by
  by_contra hs
  rw [h.quiet a ha hs] at hw
  exact wtChild_ne_zero hw.symm

theorem congr (h : Waits s A leaving late) (hi : s'.inWait = s.inWait)
    (hp : ∀ a, (s'.proc a).state = (s.proc a).state ∧
      (s'.proc a).waitState = (s.proc a).waitState ∧ (s'.proc a).pid = (s.proc a).pid ∧
      (s'.proc a).parent = (s.proc a).parent) : Waits s' A leaving late where
  init := h.init
  initAlive := (hp initproc).1 ▸ h.initAlive
  quiet a ha := by
    rw [(hp a).1, (hp a).2.1]
    exact h.quiet a ha
  parent x hx a := by
    rw [(hp x).2.2.2, (hp a).1]
    exact h.parent x hx a
  waiting a ha hl := by
    rw [(hp a).1, (hp a).2.1, hi]
    intro hs hw
    obtain ⟨pid, hin, hc⟩ := h.waiting a ha hl hs hw
    refine ⟨pid, hin, fun c hcA => ?_⟩
    rw [(hp c).1, (hp c).2.2.1, (hp c).2.2.2]
    exact hc c hcA
  inside a := by
    rw [hi, (hp a).1]
    exact h.inside a

/-- A process that is not a zombie becomes runnable. -/
theorem run (h : Waits s A leaving late) (hz : (s.proc w).state ≠ .zombie)
    (hl : late = none ∨ late = some w) :
    Waits (s.setProc w fun x => { x with state := .runnable, waitState := 0 }) A leaving none := by
  have hst : ∀ b,
    ((s.setProc w fun x => { x with state := .runnable, waitState := 0 }).proc b).state
      = if b = w then .runnable else (s.proc b).state := by
    intro b
    rw [State.setProc_proc]
    split <;> rfl
  have hzom : ∀ b, (s.proc b).state ≠ .zombie → ((s.setProc w fun x =>
      { x with state := .runnable, waitState := 0 }).proc b).state ≠ .zombie := by
    intro b hb
    rw [hst]
    split
    · simp
    · exact hb
  have hpar : ∀ b, ((s.setProc w fun x =>
      { x with state := .runnable, waitState := 0 }).proc b).parent = (s.proc b).parent ∧
      ((s.setProc w fun x =>
      { x with state := .runnable, waitState := 0 }).proc b).pid = (s.proc b).pid := by
    intro b
    rw [State.setProc_proc]
    split <;> exact ⟨rfl, rfl⟩
  constructor
  · exact h.init
  · exact hzom _ h.initAlive
  · intro a ha hs
    rw [hst] at hs
    rw [State.setProc_proc]
    split
    · rfl
    · rename_i hne
      rw [if_neg hne] at hs
      exact h.quiet a ha hs
  · intro x hx a hxa hne
    rw [(hpar x).1] at hxa
    exact hzom a (h.parent x hx a hxa hne)
  · intro a ha _ hs hw
    have hne : a ≠ w := by
      rintro rfl
      simp [hst] at hs
    rw [hst, if_neg hne] at hs
    rw [State.setProc_proc, if_neg hne] at hw
    have hlate : late ≠ some a := by
      rcases hl with rfl | rfl
      · simp
      · simpa using hne.symm
    obtain ⟨pid, hin, hc⟩ := h.waiting a ha hlate hs hw
    refine ⟨pid, hin, fun c hcA hca hcp => ?_⟩
    rw [(hpar c).1] at hca
    rw [(hpar c).2] at hcp
    exact hzom c (hc c hcA hca hcp)
  · intro a ha
    obtain ⟨hA, hz'⟩ := h.inside a ha
    exact ⟨hA, hzom a hz'⟩

theorem settled (h : Waits s A leaving (some w)) (hw : (s.proc w).waitState ≠ wtChild) :
    Waits s A leaving none :=
  { h with
    waiting := fun a ha _ hs hwa => by
      have hne : w ≠ a := fun he => hw (he ▸ hwa)
      exact h.waiting a ha (by simpa using hne) hs hwa }

theorem wakeupProc_spec (h : Waits s A leaving late) (hz : (s.proc w).state ≠ .zombie)
    (hl : late = none ∨ late = some w) :
    ∃ s', s.wakeupProc w = some s' ∧ Waits s' A leaving none ∧
      (s' = s ∨ s' = s.setProc w fun x => { x with state := .runnable, waitState := 0 }) := by
  unfold State.wakeupProc
  rw [if_neg hz]
  split
  · exact ⟨_, rfl, h.run hz hl, .inr rfl⟩
  · rename_i hr
    rw [not_not] at hr
    refine ⟨s, rfl, { h with waiting := fun a ha _ hs hwa => ?_ }, .inl rfl⟩
    refine h.waiting a ha ?_ hs hwa
    rcases hl with rfl | rfl
    · simp
    · rintro ⟨⟩
      rw [hr] at hs
      cases hs

end Waits

/-! ## The exit of a process

`do_exit` makes the process a zombie, wakes its parent and hands its children to `initproc`.
-/

namespace State

variable {s : State} {a p : ℕ}

theorem reparentOne_links (hne : p ≠ initproc) :
    ((((s.setProc p fun x => { x with cptr := (s.proc a).optr }).setProc a
      fun x => { x with yptr := none, optr := (s.proc initproc).cptr }).setAt
        (s.proc initproc).cptr fun x => { x with yptr := some a }).setProc a
      fun x => { x with parent := some initproc }).setProc initproc
      (fun x => { x with cptr := some a }) =
      s.withLinks s.procList (s.family.adopt a p initproc) s.nrProcess := by
  refine eq_withLinks (fun b => ?_) ?_ ?_ ?_ ?_ ?_ ?_
  · simp only [setProc_proc, setAt_proc, withLinks, family, Family.adopt, Family.storeAt_apply,
      Function.update_apply]
    split_ifs <;> simp_all
  all_goals cases h : (s.proc initproc).cptr <;> rfl

theorem reparentOne_eq (hne : p ≠ initproc) (hc : (s.proc p).cptr = some a) {t : State}
    (ht : t = s.withLinks s.procList (s.family.adopt a p initproc) s.nrProcess) :
    reparentOne p s =
      if (t.proc a).state = .zombie ∧ (t.proc initproc).waitState = wtChild then
        match t.wakeupProc initproc with
        | none => .inr none
        | some u => .inl u
      else .inl t := by
  have hinit : ((s.setProc p fun x => { x with cptr := (s.proc a).optr }).proc initproc).cptr =
      (s.proc initproc).cptr := by
    rw [setProc_proc, if_neg (Ne.symm hne)]
  unfold reparentOne
  rw [hc]
  dsimp only
  rewrite [hinit, reparentOne_links hne, ← ht]
  rfl

end State

variable {s s' : State} {A : Finset ℕ} {order : List ℕ} {buckets kids : ℕ → List ℕ}
  {bef : ℕ → Option ℕ} {a p : ℕ} {xs : List ℕ}

/-- One child moves to `initproc`, which may be a child it waits for. -/
theorem Waits.adopt (h : Waits s A (some p) none) {late : Option ℕ}
    (hl : late = some initproc ∨ (s.proc a).state ≠ .zombie) :
    Waits (s.withLinks s.procList (s.family.adopt a p initproc) s.nrProcess) A (some p) late := by
  obtain ⟨t, ht⟩ : ∃ t, t = s.withLinks s.procList (s.family.adopt a p initproc) s.nrProcess :=
    ⟨_, rfl⟩
  have hparent : ∀ c, (t.proc c).parent = if c = a then some initproc else (s.proc c).parent := by
    intro c
    rw [ht]
    exact Function.update_apply _ _ _ _
  have hproc : ∀ c, (t.proc c).state = (s.proc c).state ∧ (t.proc c).pid = (s.proc c).pid ∧
      (t.proc c).waitState = (s.proc c).waitState := by
    intro c
    rw [ht]
    exact ⟨rfl, rfl, rfl⟩
  have hin : t.inWait = s.inWait := by
    rw [ht]
    rfl
  rw [← ht]
  constructor
  · exact h.init
  · rw [(hproc initproc).1]
    exact h.initAlive
  · intro b hb
    rw [(hproc b).1, (hproc b).2.2]
    exact h.quiet b hb
  · intro x hx b hxb hne
    rw [(hproc b).1]
    rw [hparent] at hxb
    split at hxb
    · obtain rfl : initproc = b := by simpa using hxb
      exact h.initAlive
    · exact h.parent x hx b hxb hne
  · intro b hb hlate hs hw
    rw [(hproc b).1] at hs
    rw [(hproc b).2.2] at hw
    obtain ⟨pid, hpid, hc⟩ := h.waiting b hb (by simp) hs hw
    refine ⟨pid, by rw [hin, hpid], fun c hcA hcb hcp => ?_⟩
    rw [(hproc c).1]
    rw [(hproc c).2.1] at hcp
    rw [hparent] at hcb
    split at hcb
    · rename_i hca
      obtain rfl : initproc = b := by simpa using hcb
      rw [hca]
      exact hl.resolve_left hlate
    · exact hc c hcA hcb hcp
  · intro b hb
    rw [hin] at hb
    rw [(hproc b).1]
    exact h.inside b hb

theorem reparentOne_spec (h : Table s A order buckets bef kids) (hw : Waits s A (some p) none)
    (hp : p ∈ A) (hne : p ≠ initproc) (hz : (s.proc p).state = .zombie)
    (hb : ∀ q, q ≠ p → bef q = none) (hk : kids p = a :: xs) :
    ∃ s', State.reparentOne p s = .inl s' ∧ Waits s' A (some p) none ∧
      (s'.proc p).state = .zombie ∧
      Table s' A order buckets (Function.update bef p (some a))
        (Function.update (Function.update kids p xs) initproc (a :: kids initproc)) := by
  obtain ⟨t, ht⟩ : ∃ t, t = s.withLinks s.procList (s.family.adopt a p initproc) s.nrProcess :=
    ⟨_, rfl⟩
  have hcptr : (s.proc p).cptr = some a := by
    have := (h.family.sibs p (.inr hp)).first_eq
    rw [hk] at this
    exact this
  have htab : Table t A order buckets (Function.update bef p (some a))
      (Function.update (Function.update kids p xs) initproc (a :: kids initproc)) := by
    rw [ht]
    exact { h with
      family := h.family.adopt (.inr hp) (.inr hw.init) hne hk (hb initproc (Ne.symm hne)) }
  have hproc : ∀ c, (t.proc c).state = (s.proc c).state := by
    intro c
    rw [ht]
    rfl
  rw [State.reparentOne_eq hne hcptr ht]
  split
  · have hwt : Waits t A (some p) (some initproc) := ht ▸ hw.adopt (.inl rfl)
    obtain ⟨u, hu, hwu, hcase⟩ := hwt.wakeupProc_spec hwt.initAlive (.inr rfl)
    rw [hu]
    rcases hcase with rfl | rfl
    · exact ⟨_, rfl, hwu, by rw [hproc, hz], htab⟩
    · refine ⟨_, rfl, hwu, ?_, htab.setProc fun x => ⟨rfl, rfl, rfl, rfl, rfl⟩⟩
      rw [State.setProc_proc, if_neg hne, hproc, hz]
  · rename_i hcond
    refine ⟨t, rfl, ?_, by rw [hproc, hz], htab⟩
    by_cases hza : (s.proc a).state = .zombie
    · have hwt : Waits t A (some p) (some initproc) := ht ▸ hw.adopt (.inl rfl)
      exact hwt.settled fun hwc => hcond ⟨by rw [hproc, hza], hwc⟩
    · rw [ht]
      exact hw.adopt (.inr hza)

/-- The children of `p` are being handed over. -/
def Handing (s : State) (A : Finset ℕ) (p : ℕ) : Prop :=
  Waits s A (some p) none ∧ (s.proc p).state = .zombie ∧
    ∃ order buckets bef kids, Table s A order buckets bef kids ∧ ∀ q, q ≠ p → bef q = none

/-- The table and the states of the processes are as they should be. -/
def Good (s : State) (A : Finset ℕ) : Prop :=
  Waits s A none none ∧ ∃ order buckets kids, Table s A order buckets (fun _ => none) kids

theorem reparent_spec (h : Handing s A p) (hp : p ∈ A) (hne : p ≠ initproc) {n : ℕ}
    (hn : A.card < n) : ∃ s', iterate (State.reparentOne p) n s = some (some s') ∧ Good s' A := by
  have hlen : ∀ {t order buckets bef kids}, Table t A order buckets bef kids →
      (t.siblings A.card (t.proc p).cptr) = kids p := fun ht =>
    Table.siblings_eq (ht.family.sibs p (.inr hp)) (ht.length_kids (.inr hp))
  have hgo : ∀ t u, Handing t A p → State.reparentOne p t = .inl u → Handing u A p ∧
      (u.siblings A.card (u.proc p).cptr).length < (t.siblings A.card (t.proc p).cptr).length := by
    rintro t u ⟨hw, hz, order, buckets, bef, kids, ht, hb⟩ hu
    cases hk : kids p with
    | nil =>
      have hc : (t.proc p).cptr = none := by
        have := (ht.family.sibs p (.inr hp)).first_eq
        rw [hk] at this
        exact this
      simp [State.reparentOne, hc] at hu
    | cons a xs =>
      obtain ⟨t', ht', hw', hz', htab⟩ := reparentOne_spec ht hw hp hne hz hb hk
      obtain rfl : t' = u := by simpa [ht'] using hu
      refine ⟨⟨hw', hz', _, _, _, _, htab, fun q hq => ?_⟩, ?_⟩
      · rw [Function.update_of_ne hq]
        exact hb q hq
      · rw [hlen ht, hlen htab, Function.update_of_ne hne, Function.update_self, hk]
        exact Nat.lt_succ_self _
  have hstop : ∀ t r, Handing t A p → State.reparentOne p t = .inr r →
      ∃ s', r = some s' ∧ Good s' A := by
    rintro t r ⟨hw, hz, order, buckets, bef, kids, ht, hb⟩ hr
    cases hk : kids p with
    | nil =>
      have hc : (t.proc p).cptr = none := by
        have := (ht.family.sibs p (.inr hp)).first_eq
        rw [hk] at this
        exact this
      obtain rfl : some t = r := by simpa [State.reparentOne, hc] using hr
      refine ⟨t, rfl, { hw with parent := ?_ }, order, buckets, kids,
        { ht with family := { ht.family with sibs := ?_ } }⟩
      · intro x hx a hxa _
        refine hw.parent x hx a hxa ?_
        rintro ⟨⟩
        have := (ht.family.mem p (.inr hp) x).mpr ⟨hx, hxa⟩
        rw [hk] at this
        simp at this
      · intro q hq
        have hs := ht.family.sibs q hq
        rcases eq_or_ne q p with rfl | hqp
        · rw [hk] at hs ⊢
          exact hs
        · rwa [hb q hqp] at hs
    | cons a xs =>
      obtain ⟨t', ht', -⟩ := reparentOne_spec ht hw hp hne hz hb hk
      simp [ht'] at hr
  have hstart : (s.siblings A.card (s.proc p).cptr).length < n := by
    obtain ⟨-, -, order, buckets, bef, kids, ht, -⟩ := h
    rw [hlen ht]
    exact (ht.length_kids (.inr hp)).trans_lt hn
  obtain ⟨r, hr, s', rfl, hgood⟩ := iterate_spec (fun t => Handing t A p)
    (fun t => (t.siblings A.card (t.proc p).cptr).length) _ hgo hstop h hstart
  exact ⟨s', hr, hgood⟩

/-- The process becomes a zombie, and its parent is still to be woken. -/
theorem Waits.die (h : Waits s A none none) (hne : p ≠ initproc)
    (hrun : (s.proc p).state = .runnable) (hin : s.inWait p = none) {q : ℕ}
    (hq : (s.proc p).parent = some q) (code : ℤ) :
    Waits (s.setProc p fun x => { x with state := .zombie, exitCode := code }) A (some p)
      (some q) := by
  obtain ⟨t, ht⟩ : ∃ t, t = s.setProc p fun x => { x with state := .zombie, exitCode := code } :=
    ⟨_, rfl⟩
  have hstate : ∀ c, (t.proc c).state = if c = p then .zombie else (s.proc c).state := by
    intro c
    rw [ht, State.setProc_proc]
    split <;> rfl
  have hproc : ∀ c, (t.proc c).pid = (s.proc c).pid ∧
      (t.proc c).waitState = (s.proc c).waitState ∧ (t.proc c).parent = (s.proc c).parent := by
    intro c
    rw [ht, State.setProc_proc]
    split <;> exact ⟨rfl, rfl, rfl⟩
  have hinWait : t.inWait = s.inWait := by
    rw [ht]
    rfl
  rw [← ht]
  constructor
  · exact h.init
  · rw [hstate, if_neg (Ne.symm hne)]
    exact h.initAlive
  · intro a ha hs
    rw [(hproc a).2.1]
    refine h.quiet a ha ?_
    rw [hstate] at hs
    split at hs
    · rename_i hap
      rw [hap, hrun]
      simp
    · exact hs
  · intro x hx a hxa hap
    have hap' : a ≠ p := fun he => hap (by rw [he])
    rw [(hproc x).2.2] at hxa
    rw [hstate, if_neg hap']
    exact h.parent x hx a hxa (by simp)
  · intro a ha hlate hs hw
    have hap : a ≠ p := by
      rintro rfl
      simp [hstate] at hs
    rw [hstate, if_neg hap] at hs
    rw [(hproc a).2.1] at hw
    obtain ⟨pid, hpid, hc⟩ := h.waiting a ha (by simp) hs hw
    refine ⟨pid, by rw [hinWait, hpid], fun c hcA hca hcp => ?_⟩
    rw [(hproc c).2.2] at hca
    rw [(hproc c).1] at hcp
    have hcne : c ≠ p := by
      rintro rfl
      exact hlate (hq.symm.trans hca)
    rw [hstate, if_neg hcne]
    exact hc c hcA hca hcp
  · intro a ha
    rw [hinWait] at ha
    obtain ⟨hA, hz⟩ := h.inside a ha
    have hap : a ≠ p := by
      rintro rfl
      exact ha hin
    rw [hstate, if_neg hap]
    exact ⟨hA, hz⟩

theorem doExit_spec (h : Good s A) (hp : p = idleproc ∨ p ∈ A)
    (h01 : ¬ (p = idleproc ∨ p = initproc)) (hrun : (s.proc p).state = .runnable)
    (hin : s.inWait p = none) (code : ℤ) :
    ∃ s', s.doExit p code = some s' ∧ Good s' A := by
  obtain ⟨hw, order, buckets, kids, ht⟩ := h
  have hpA : p ∈ A := hp.resolve_left fun he => h01 (.inl he)
  have hne : p ≠ initproc := fun he => h01 (.inr he)
  obtain ⟨q, hq, hpar⟩ := ht.family.parent p hpA
  obtain ⟨t, htdef⟩ : ∃ t, t = s.setProc p
    fun x => { x with state := .zombie, exitCode := code } := ⟨_, rfl⟩
  have hwt : Waits t A (some p) (some q) := htdef ▸ hw.die hne hrun hin hpar code
  have htt : Table t A order buckets (fun _ => none) kids :=
    htdef ▸ ht.setProc fun x => ⟨rfl, rfl, rfl, rfl, rfl⟩
  have htz : (t.proc p).state = .zombie := by rw [htdef, State.setProc_proc, if_pos rfl]
  have htpar : (t.proc p).parent = some q := by
    rw [htdef, State.setProc_proc, if_pos rfl]
    exact hpar
  have hwoken : ∃ u, (if (t.proc q).waitState = wtChild then t.wakeupProc q else some t) = some u ∧
      u.nrProcess = t.nrProcess ∧ Handing u A p := by
    split
    · rename_i hwc
      have hsl := hwt.sleeping_of_wtChild hq hwc
      obtain ⟨u, hu, hwu, hcase⟩ := hwt.wakeupProc_spec (by rw [hsl]; simp) (.inr rfl)
      have hqp : p ≠ q := by
        rintro rfl
        rw [htz] at hsl
        cases hsl
      rcases hcase with rfl | rfl
      · exact ⟨_, hu, rfl, hwu, htz, _, _, _, _, htt, fun _ _ => rfl⟩
      · refine ⟨_, hu, rfl, hwu, ?_, _, _, _, _, htt.setProc fun x => ⟨rfl, rfl, rfl, rfl, rfl⟩,
          fun _ _ => rfl⟩
        rw [State.setProc_proc, if_neg hqp, htz]
    · rename_i hwc
      exact ⟨t, rfl, rfl, hwt.settled hwc, htz, _, _, _, _, htt, fun _ _ => rfl⟩
  obtain ⟨u, hu, hn, hhand⟩ := hwoken
  have hcard : A.card < u.nrProcess + 1 := by
    rw [hn, htt.count]
    omega
  obtain ⟨s', hs', hgood⟩ := reparent_spec hhand hpA hne hcard
  refine ⟨s', ?_, hgood⟩
  simp only [State.doExit, if_neg h01, ← htdef, htpar, hu, hs', Option.join_some]

section Steps

variable {current : ℕ} {pid : ℤ}

/-- A new child of a running process. -/
theorem Waits.fork (h : Waits s A none none) (ha : a ∉ A) (h0 : a ≠ idleproc)
    (hp : p = idleproc ∨ p ∈ A) (hrun : (s.proc p).state = .runnable)
    (hf : Table.Forked s s' p a) : Waits s' (insert a A) none none := by
  have hne : ∀ b, b = idleproc ∨ b ∈ A → b ≠ a := by
    rintro b (hb | hb) rfl
    · exact h0 hb
    · exact ha hb
  have hold : ∀ b, b = idleproc ∨ b ∈ insert a A → b ≠ a → b = idleproc ∨ b ∈ A := by
    rintro b (hb | hb) hba
    · exact .inl hb
    · exact .inr ((Finset.mem_insert.mp hb).resolve_left hba)
  have hout : s.inWait a = none := by
    by_contra hin
    exact hne a (h.inside a hin).1 rfl
  have hpa := hne p hp
  constructor
  · exact Finset.mem_insert_of_mem h.init
  · rw [(hf.other initproc (hne _ (.inr h.init))).1]
    exact h.initAlive
  · intro b hb hs
    rcases eq_or_ne b a with rfl | hba
    · exact hf.waitState
    · rw [(hf.other b hba).1] at hs
      rw [(hf.other b hba).2.1]
      exact h.quiet b (hold b hb hba) hs
  · intro x hx b hxb _
    rcases eq_or_ne b a with rfl | hba
    · rw [hf.state]
      simp
    · rw [(hf.other b hba).1]
      rcases Finset.mem_insert.mp hx with rfl | hx
      · rw [hf.parent, Option.some.injEq] at hxb
        rw [← hxb, hrun]
        simp
      · rw [(hf.other x (hne x (.inr hx))).2.2.2] at hxb
        exact h.parent x hx b hxb (by simp)
  · intro b hb _ hs hw
    have hba : b ≠ a := by
      rintro rfl
      rw [hf.state] at hs
      cases hs
    rw [(hf.other b hba).1] at hs
    rw [(hf.other b hba).2.1] at hw
    obtain ⟨pid, hin, hc⟩ := h.waiting b (hold b hb hba) (by simp) hs hw
    refine ⟨pid, by rw [hf.inWait, hin], fun c hcA hcb hcp => ?_⟩
    rcases Finset.mem_insert.mp hcA with rfl | hcA
    · rw [hf.state]
      simp
    · have hca := hf.other c (hne c (.inr hcA))
      rw [hca.2.2.2] at hcb
      rw [hca.2.2.1] at hcp
      rw [hca.1]
      exact hc c hcA hcb hcp
  · intro b hb
    rw [hf.inWait] at hb
    have hba : b ≠ a := by
      rintro rfl
      exact hb hout
    obtain ⟨hbA, hz⟩ := h.inside b hb
    rw [(hf.other b hba).1]
    refine ⟨?_, hz⟩
    rcases hbA with hbA | hbA
    · exact .inl hbA
    · exact .inr (Finset.mem_insert_of_mem hbA)

theorem Waits.reap (h : Waits s A none none) (hz : (s.proc a).state = .zombie)
    (hr : Table.Reaped s s' A a) : Waits s' (A.erase a) none none := by
  have h' := h.congr hr.inWait hr.other
  have hz' : (s'.proc a).state = .zombie := (hr.other a).1.trans hz
  have hold : ∀ b, b = idleproc ∨ b ∈ A.erase a → b = idleproc ∨ b ∈ A := by
    rintro b (hb | hb)
    · exact .inl hb
    · exact .inr (Finset.mem_of_mem_erase hb)
  constructor
  · refine Finset.mem_erase.mpr ⟨?_, h.init⟩
    rintro rfl
    exact h.initAlive hz
  · exact h'.initAlive
  · exact fun b hb => h'.quiet b (hold b hb)
  · exact fun x hx => h'.parent x (Finset.mem_of_mem_erase hx)
  · intro b hb hl hs hw
    obtain ⟨pid, hin, hc⟩ := h'.waiting b (hold b hb) hl hs hw
    exact ⟨pid, hin, fun c hcA => hc c (Finset.mem_of_mem_erase hcA)⟩
  · intro b hb
    obtain ⟨hbA, hbz⟩ := h'.inside b hb
    refine ⟨?_, hbz⟩
    rcases hbA with hbA | hbA
    · exact .inl hbA
    · refine .inr (Finset.mem_erase.mpr ⟨?_, hbA⟩)
      rintro rfl
      exact hbz hz'

/-- A running process goes to sleep; in `do_wait` only without a zombie child. -/
theorem Waits.sleep (h : Waits s A none none) (hrun : (s.proc p).state = .runnable)
    (hp : p = idleproc ∨ p ∈ A) {w : UInt32} {inWait : ℕ → Option ℤ}
    (hin : ∀ b, b ≠ p → inWait b = s.inWait b)
    (hw : w = wtChild → ∃ pid, inWait p = some pid ∧ ∀ c ∈ A, (s.proc c).parent = some p →
      pid = 0 ∨ (s.proc c).pid = pid → (s.proc c).state ≠ .zombie) :
    Waits { s.setProc p fun x => { x with state := .sleeping, waitState := w } with
      inWait := inWait } A none none := by
  obtain ⟨t, ht⟩ :
    ∃ t, t = ({ s.setProc p fun x => { x with state := .sleeping, waitState := w } with
    inWait := inWait } : State) := ⟨_, rfl⟩
  have hproc : ∀ b, t.proc b =
      if b = p then { s.proc b with state := .sleeping, waitState := w } else s.proc b := by
    intro b
    rw [ht]
    exact State.setProc_proc (s := s) (a := p)
      (fun x => { x with state := .sleeping, waitState := w }) b
  have hother : ∀ b, b ≠ p → t.proc b = s.proc b := fun b hb => by rw [hproc, if_neg hb]
  have hkeep : ∀ b, (t.proc b).parent = (s.proc b).parent ∧ (t.proc b).pid = (s.proc b).pid := by
    intro b
    rw [hproc]
    split <;> exact ⟨rfl, rfl⟩
  have hz : ∀ b, (s.proc b).state ≠ .zombie → (t.proc b).state ≠ .zombie := by
    intro b hb
    rw [hproc]
    split
    · simp
    · exact hb
  have hinWait : t.inWait = inWait := by rw [ht]
  rw [← ht]
  constructor
  · exact h.init
  · exact hz _ h.initAlive
  · intro b hb hs
    rcases eq_or_ne b p with rfl | hbp
    · simp [hproc] at hs
    · rw [hother b hbp] at hs ⊢
      exact h.quiet b hb hs
  · intro x hx b hxb _
    rw [(hkeep x).1] at hxb
    exact hz b (h.parent x hx b hxb (by simp))
  · intro b hb _ hs hwb
    have hex : ∃ pid, inWait b = some pid ∧ ∀ c ∈ A, (s.proc c).parent = some b →
        pid = 0 ∨ (s.proc c).pid = pid → (s.proc c).state ≠ .zombie := by
      rcases eq_or_ne b p with rfl | hbp
      · refine hw ?_
        simpa [hproc] using hwb
      · rw [hother b hbp] at hs hwb
        rw [hin b hbp]
        exact h.waiting b hb (by simp) hs hwb
    obtain ⟨pid, hpid, hc⟩ := hex
    refine ⟨pid, by rw [hinWait, hpid], fun c hcA hcb hcp => ?_⟩
    rw [(hkeep c).1] at hcb
    rw [(hkeep c).2] at hcp
    exact hz c (hc c hcA hcb hcp)
  · intro b hb
    rcases eq_or_ne b p with rfl | hbp
    · refine ⟨hp, ?_⟩
      simp [hproc]
    · rw [hinWait, hin b hbp] at hb
      obtain ⟨hbA, hbz⟩ := h.inside b hb
      exact ⟨hbA, hz b hbz⟩

theorem Table.kids_eq_nil (ht : Table s A order buckets bef kids) (hw : Waits s A none none)
    (ha : a ∈ A) (hz : (s.proc a).state = .zombie) : kids a = [] := by
  refine List.eq_nil_iff_forall_not_mem.mpr fun x hx => ?_
  obtain ⟨hxA, hpar⟩ := (ht.family.mem a (.inr ha) x).mp hx
  exact hw.parent x hxA a hpar (by simp) hz

/-- The results of `do_wait`: a failure changes nothing, and only a zombie child is reaped. -/
theorem doWait_spec (h : Good s A) (hp : p = idleproc ∨ p ∈ A)
    (hrun : (s.proc p).state = .runnable) (pid : ℤ) :
    ∃ r s', s.doWait p pid = some (r, s') ∧
      match r with
      | .bad => s' = s
      | .slept => Good s' A
      | .reaped a => a ∈ A ∧ (s.proc a).state = .zombie ∧ (s.proc a).parent = some p ∧
          Good s' (A.erase a) := by
  obtain ⟨hw, order, buckets, kids, ht⟩ := h
  unfold State.doWait
  cases hf : (s.candidates p pid).find? fun a => (s.proc a).state = .zombie with
  | some a =>
    have hmem := List.mem_of_find?_eq_some hf
    have hz : (s.proc a).state = .zombie := by simpa using List.find?_some hf
    obtain ⟨ha, hpar, -⟩ := (ht.mem_candidates hp pid).mp hmem
    have h1 : a ≠ initproc := by
      rintro rfl
      exact hw.initAlive hz
    obtain ⟨s', hs', hr⟩ := ht.reap_spec ha h1 (ht.kids_eq_nil hw ha hz)
    refine ⟨.reaped a, s', by simp [hs'], ha, hz, hpar, hw.reap hz hr, hr.table⟩
  | none =>
    dsimp only
    split
    · refine ⟨_, _, rfl, hw.sleep hrun hp (fun b hb => ?_) fun _ => ⟨pid, ?_, ?_⟩, order, buckets,
        kids, ?_⟩
      · exact Function.update_of_ne hb _ _
      · exact Function.update_self _ _ _
      · intro c hcA hcp hcpid hz
        have hmem := (ht.mem_candidates hp pid).mpr ⟨hcA, hcp, hcpid⟩
        have := List.find?_eq_none.mp hf c hmem
        simp [hz] at this
      · exact { ht.setProc (a := p)
          (f := fun x => { x with state := .sleeping, waitState := wtChild })
          (fun x => ⟨rfl, rfl, rfl, rfl, rfl⟩) with }
    · exact ⟨_, _, rfl, rfl⟩

theorem Good.wakeup (h : Good s A) (hz : (s.proc p).state ≠ .zombie) :
    ∃ s', s.wakeupProc p = some s' ∧ Good s' A := by
  obtain ⟨hw, order, buckets, kids, ht⟩ := h
  obtain ⟨s', hs', hw', hcase⟩ := hw.wakeupProc_spec hz (.inl rfl)
  refine ⟨s', hs', hw', order, buckets, kids, ?_⟩
  rcases hcase with rfl | rfl
  · exact ht
  · exact ht.setProc fun x => ⟨rfl, rfl, rfl, rfl, rfl⟩

theorem doKill_spec (h : Good s A) (pid : ℤ) : ∃ r s', s.doKill pid = some (r, s') ∧ Good s' A := by
  unfold State.doKill
  cases hf : s.findProc pid with
  | none => exact ⟨_, _, rfl, h⟩
  | some a =>
    obtain ⟨hw, order, buckets, kids, ht⟩ := id h
    obtain ⟨ha, -⟩ := ht.findProc_eq_some.mp hf
    dsimp only
    split
    · exact ⟨_, _, rfl, h⟩
    · obtain ⟨t, htdef⟩ : ∃ t, t = s.setProc a fun x => { x with flags := x.flags ||| pfExiting } :=
        ⟨_, rfl⟩
      have hgood : Good t A := by
        rw [htdef]
        refine ⟨hw.congr rfl fun b => ?_, order, buckets, kids,
          ht.setProc fun x => ⟨rfl, rfl, rfl, rfl, rfl⟩⟩
        rw [State.setProc_proc]
        split <;> exact ⟨rfl, rfl, rfl, rfl⟩
      rw [← htdef]
      split
      · rename_i hint
        have hz : (t.proc a).state ≠ .zombie := by
          intro hz
          rw [hgood.1.quiet a (.inr ha) (by rw [hz]; simp)] at hint
          exact hint (by decide)
        obtain ⟨s', hs', hg⟩ := hgood.wakeup hz
        exact ⟨0, s', by rw [hs']; rfl, hg⟩
      · exact ⟨_, _, rfl, hgood⟩

theorem Good.outside (h : Good s A) (hrun : (s.proc p).state = .runnable) :
    Good { s with inWait := Function.update s.inWait p none } A := by
  obtain ⟨hw, order, buckets, kids, ht⟩ := h
  refine ⟨{ hw with waiting := fun a ha hl hs hwa => ?_, inside := fun a ha => ?_ }, order, buckets,
    kids, { ht with }⟩
  · have hne : a ≠ p := by
      rintro rfl
      rw [hrun] at hs
      cases hs
    obtain ⟨pid, hpid, hc⟩ := hw.waiting a ha hl hs hwa
    exact ⟨pid, by rw [← hpid]; exact Function.update_of_ne hne _ _, hc⟩
  · refine hw.inside a fun hn => ha ?_
    rcases eq_or_ne a p with rfl | hne
    · exact Function.update_self _ _ _
    · exact (Function.update_of_ne hne _ _).trans hn

end Steps

end UCore.Process

import Mathlib.Data.Set.Card
import UCore.Library.Run
import UCore.Sync.Sem
import UCore.Sync.Semaphore

/-! # Safety of the semaphores

Every run of the semaphore code is a run of abstract semaphores. Their account of signals
and waits therefore holds in every reachable state, and no assertion fails.
-/

namespace UCore.Sync

open Library

@[simp] theorem setProc_links {s : State} {p : ℕ} {x : Proc} : (s.setProc p x).links = s.links :=
  rfl
@[simp] theorem setProc_wait {s : State} {p : ℕ} {x : Proc} : (s.setProc p x).wait = s.wait := rfl
@[simp] theorem setProc_value {s : State} {p : ℕ} {x : Proc} : (s.setProc p x).value = s.value :=
  rfl
@[simp] theorem setProc_inDown {s : State} {p : ℕ} {x : Proc} :
    (s.setProc p x).inDown = s.inDown := rfl
@[simp] theorem setProc_proc {s : State} {p q : ℕ} {x : Proc} :
    (s.setProc p x).proc q = if q = p then x else s.proc q := by
  simp [State.setProc, Function.update_apply]

/-- The wait queues of the abstract semaphores `A` are the rings of the state, their members
sleep on them, and a process that left a queue without having returned is runnable. -/
structure Refines (s : State) (A : ℕ → Semaphore) : Prop where
  rings : s.links.Rings .waitHead fun m => (A m).queue.map .waitLink
  value : ∀ m, s.value m = (A m).value
  waiting : ∀ m, ∀ p ∈ (A m).queue, s.inDown p = some m ∧ (s.proc p).state = .sleeping ∧
    (s.proc p).waitState = wtKsem ∧ (s.wait p).proc = p ∧ (s.wait p).waitQueue = m
  woken : ∀ m p, s.inDown p = some m → p ∉ (A m).queue → (s.proc p).state = .runnable ∧
    (s.wait p).wakeupFlags = wtKsem ∧ listEmpty s.links (.waitLink p) = true
  asleep : ∀ p, (s.proc p).waitState ≠ 0 → (s.proc p).state = .sleeping

namespace Refines

variable {s t : State} {A : ℕ → Semaphore} {p m : ℕ}

theorem not_mem (h : Refines s A) (hp : s.inDown p = none) (m : ℕ) : p ∉ (A m).queue := by
  intro hq
  have := (h.waiting m p hq).1
  simp [hp] at this

theorem link_not_mem (h : Refines s A) (hp : s.inDown p = none) (m : ℕ) :
    Entry.waitLink p ∉ .waitHead m :: (A m).queue.map .waitLink := by
  simpa using h.not_mem hp m

theorem first (h : Refines s A) : waitQueueFirst s m = (A m).queue.head? := by
  have hn := (h.rings.ring m).next_head
  unfold waitQueueFirst listNext
  rcases hq : (A m).queue with _ | ⟨p, ps⟩
  · simp [hn, hq]
  · simp [hn, hq]

theorem congr_proc (h : Refines s A) (hl : t.links = s.links) (hv : t.value = s.value)
    (hw : t.wait = s.wait) (hd : t.inDown = s.inDown)
    (hp : ∀ q m, s.inDown q = some m → (t.proc q).state = (s.proc q).state ∧
      (t.proc q).waitState = (s.proc q).waitState)
    (ha : ∀ q, (t.proc q).waitState ≠ 0 → (t.proc q).state = .sleeping) : Refines t A where
  rings := by rw [hl]; exact h.rings
  value m := by rw [hv]; exact h.value m
  waiting m q hq := by
    have := h.waiting m q hq
    obtain ⟨h₁, h₂⟩ := hp q m this.1
    rw [hd, h₁, h₂, hw]
    exact this
  woken m q hq hn := by
    rw [hd] at hq
    rw [(hp q m hq).1, hw, hl]
    exact h.woken m q hq hn
  asleep := ha

theorem setProc (h : Refines s A) {x : Proc} (hp : s.inDown p = none)
    (hx : x.waitState ≠ 0 → x.state = .sleeping) : Refines (s.setProc p x) A := by
  refine h.congr_proc rfl rfl rfl rfl ?_ ?_
  · intro q m hq
    have hqp : q ≠ p := by
      rintro rfl
      simp [hp] at hq
    simp [hqp]
  · intro q hq
    rw [setProc_proc] at hq ⊢
    split at hq
    · rw [if_pos ‹_›]
      exact hx hq
    · rw [if_neg ‹_›]
      exact h.asleep q hq

theorem setFlags (h : Refines s A) {f : UInt32} :
    Refines (s.setProc p { s.proc p with flags := f }) A := by
  refine h.congr_proc rfl rfl rfl rfl ?_ ?_
  · intro q m _
    rw [setProc_proc]
    split
    · simp [‹q = p›]
    · simp
  · intro q hq
    rw [setProc_proc] at hq ⊢
    split at hq
    · rw [if_pos ‹_›]
      exact h.asleep p hq
    · rw [if_neg ‹_›]
      exact h.asleep q hq

theorem inDown_none (h : Refines s A) (hw : (s.proc p).waitState ≠ 0)
    (hk : (s.proc p).waitState ≠ wtKsem) : s.inDown p = none := by
  rcases hd : s.inDown p with _ | m
  · rfl
  · exfalso
    rcases Classical.em (p ∈ (A m).queue) with hq | hq
    · exact hk (h.waiting m p hq).2.2.1
    · have h₁ := h.asleep p hw
      rw [(h.woken m p hd hq).1] at h₁
      cases h₁

theorem inDown_of_state (h : Refines s A)
    (hp : (s.proc p).state = .uninit ∨ (s.proc p).state = .zombie) : s.inDown p = none := by
  rcases hd : s.inDown p with _ | m
  · rfl
  · exfalso
    have : (s.proc p).state = .sleeping ∨ (s.proc p).state = .runnable := by
      rcases Classical.em (p ∈ (A m).queue) with hq | hq
      · exact .inl (h.waiting m p hq).2.1
      · exact .inr (h.woken m p hd hq).1
    rcases hp with hp | hp <;> simp [hp] at this

theorem wakeupProc (h : Refines s A) (hp : s.inDown p = none) (hz : (s.proc p).state ≠ .zombie) :
    ∃ t, wakeupProc s p = some t ∧ Refines t A ∧ t.inDown = s.inDown := by
  unfold Sync.wakeupProc
  rw [if_neg hz]
  split
  · exact ⟨_, rfl, h.setProc hp (by simp), rfl⟩
  · exact ⟨s, rfl, h, rfl⟩

theorem setValue (h : Refines s A) (v : Int32) :
    Refines (s.setValue m v) (Function.update A m { A m with value := v }) := by
  have hq : ∀ j, (Function.update A m { A m with value := v } j).queue = (A j).queue := by
    intro j
    rcases eq_or_ne j m with rfl | hj <;> simp [*]
  refine ⟨?_, ?_, ?_, ?_, h.asleep⟩
  · simp only [hq]
    exact h.rings
  · intro j
    rcases eq_or_ne j m with rfl | hj
    · simp [State.setValue]
    · simpa [State.setValue, hj] using h.value j
  · intro j p hp
    exact h.waiting j p (hq j ▸ hp)
  · intro j p hp hn
    exact h.woken j p hp (hq j ▸ hn)

theorem map_update (a : Semaphore) :
    (fun j => (Function.update A m a j).queue.map Entry.waitLink) =
      Function.update (fun j => (A j).queue.map Entry.waitLink) m (a.queue.map .waitLink) := by
  funext j
  rcases eq_or_ne j m with rfl | hj <;> simp [*]

theorem up_nil (h : Refines s A) (hq : (A m).queue = []) :
    ∃ t, up s m = some t ∧ Refines t (Function.update A m (A m).up.2) ∧ t.inDown = s.inDown := by
  refine ⟨s.setValue m (s.value m + 1), ?_, ?_, rfl⟩
  · simp [up, rawUp, h.first, hq]
  · rw [Semaphore.up_nil hq, h.value m]
    exact h.setValue _

/-- A signal with a waiting process: the first one leaves the queue and becomes runnable. -/
theorem up_cons (h : Refines s A) {ps : List ℕ} (hq : (A m).queue = p :: ps) :
    ∃ t, up s m = some t ∧ Refines t (Function.update A m (A m).up.2) ∧ t.inDown = s.inDown := by
  have hp : p ∈ (A m).queue := by simp [hq]
  obtain ⟨hd, hs, hw, hproc, hqueue⟩ := h.waiting m p hp
  have hr := h.rings.ring m
  have he : listEmpty s.links (.waitLink p) = false := listEmpty_of_mem hr (by simpa using hp)
  have hnd : p ∉ ps := by
    have := hr.nodup_tail
    simp only [hq, List.map_cons, List.nodup_cons, List.mem_map, Entry.waitLink.injEq] at this
    simpa using this.1
  let t : State := { s with
    links := listDelInit s.links (.waitLink p)
    wait := Function.update s.wait p { s.wait p with wakeupFlags := wtKsem }
    proc := Function.update s.proc p { s.proc p with state := .runnable, waitState := 0 } }
  have hrings : t.links.Rings .waitHead
      fun j => (Function.update A m { A m with queue := ps } j).queue.map .waitLink := by
    have hqm : (A m).queue.map Entry.waitLink = [] ++ .waitLink p ::
      ps.map .waitLink := by simp [hq]
    rw [map_update]
    exact rings_listDelInit h.rings hqm
  have hother : ∀ j q, s.inDown q = some j → q ∉ (A j).queue →
      listEmpty t.links (.waitLink q) = listEmpty s.links (.waitLink q) := by
    intro j q hj hn
    have hqm : q ∉ (A m).queue := by
      intro hm
      have := (h.waiting m q hm).1
      obtain rfl : m = j := by simpa [this] using hj
      exact hn hm
    have hqp : q ≠ p := by
      rintro rfl
      exact hqm hp
    have h₁ := listDel_congr hr (x := .waitLink p) (y := .waitLink q) (by simp [hp]) (by simpa)
    have h₂ := listInit_congr (L := listDel s.links (.waitLink p)) (y := .waitLink q)
      (e := .waitLink p) (by simpa)
    simp [listEmpty, t, listDelInit, h₂.1, h₁.1]
  refine ⟨t, ?_, ?_, rfl⟩
  · simp [up, rawUp, h.first, hq, wakeupWait, waitQueueDel, he, hqueue, hproc, hw, Sync.wakeupProc,
      State.setProc, State.setWait, hs, t]
  · rw [Semaphore.up_cons hq]
    refine ⟨hrings, ?_, ?_, ?_, ?_⟩
    · intro j
      rcases eq_or_ne j m with rfl | hj
      · simpa [t] using h.value j
      · simpa [t, hj] using h.value j
    · intro j q hj
      have hqj : q ∈ (A j).queue := by
        rcases eq_or_ne j m with rfl | hjm
        · have : q ∈ ps := by simpa using hj
          simp [hq, this]
        · simpa [hjm] using hj
      have hqp : q ≠ p := by
        rintro rfl
        have := (h.waiting j q hqj).1
        obtain rfl : m = j := by simpa [hd] using this
        simp [hnd] at hj
      simpa [t, hqp] using h.waiting j q hqj
    · intro j q hj hn
      rcases eq_or_ne q p with rfl | hqp
      · simp [t, listDelInit, listEmpty_listInit]
      · have hqj : q ∉ (A j).queue := by
          rcases eq_or_ne j m with rfl | hjm
          · simpa [hq, hqp] using hn
          · simpa [hjm] using hn
        rw [hother j q hj hqj]
        simpa [t, hqp] using h.woken j q hj hqj
    · intro q hne
      rcases eq_or_ne q p with rfl | hqp
      · simp [t] at hne
      · simpa [t, hqp] using h.asleep q (by simpa [t, hqp] using hne)

theorem down (h : Refines s A) (hp : s.inDown p = none) :
    ∃ t, down s p m = some t ∧ Refines t (Function.update A m ((A m).down p).2) ∧
      (0 < s.value m → t.inDown = s.inDown) ∧
      (¬ 0 < s.value m → t.inDown = Function.update s.inDown p (some m)) := by
  by_cases hv : 0 < s.value m
  · refine ⟨s.setValue m (s.value m - 1), ?_, ?_, fun _ => rfl, fun h => absurd hv h⟩
    · simp [Sync.down, rawDown, hv]
    · have hA : 0 < (A m).value := h.value m ▸ hv
      rw [Semaphore.down, if_pos hA, h.value m]
      exact h.setValue _
  have hA : ¬ 0 < (A m).value := h.value m ▸ hv
  let L := listInit s.links (.waitLink p)
  let t : State := { s with
    links := listAddBefore L (.waitHead m) (.waitLink p)
    wait := Function.update s.wait p ⟨p, wtInterrupted, m⟩
    proc := Function.update s.proc p { s.proc p with state := .sleeping, waitState := wtKsem }
    inDown := Function.update s.inDown p (some m) }
  have hL : L.Rings .waitHead fun j => (A j).queue.map .waitLink :=
    rings_listInit h.rings (h.link_not_mem hp)
  have hother : ∀ j q, q ≠ p → s.inDown q = some j → q ∉ (A j).queue →
      listEmpty t.links (.waitLink q) = listEmpty s.links (.waitLink q) := by
    intro j q hqp hj hn
    have hqm : q ∉ (A m).queue := by
      intro hm
      obtain rfl : m = j := by simpa [(h.waiting m q hm).1] using hj
      exact hn hm
    have h₁ := listAddBefore_congr (hL.ring m) (e := .waitLink p) (y := .waitLink q)
      (h.link_not_mem hp m) (by simpa) (by simpa)
    have h₂ := listInit_congr (L := s.links) (y := .waitLink q) (e := .waitLink p) (by simpa)
    simp [listEmpty, t, L, h₁.1, h₂.1]
  refine ⟨t, ?_, ?_, fun h => absurd h hv, fun _ => rfl⟩
  · simp [Sync.down, rawDown, hv, waitCurrentSet, waitInit, waitQueueAdd, State.setWait,
      State.setProc, listEmpty_listInit, State.setInDown, t, L]
  · rw [Semaphore.down, if_neg hA]
    refine ⟨?_, ?_, ?_, ?_, ?_⟩
    · rw [map_update, List.map_append]
      exact rings_listAddBefore (i := m) hL (h.link_not_mem hp)
    · intro j
      rcases eq_or_ne j m with rfl | hj
      · simpa [t] using h.value j
      · simpa [t, hj] using h.value j
    · intro j q hj
      rcases eq_or_ne q p with rfl | hqp
      · obtain rfl : m = j := by
          by_contra hjm
          exact h.not_mem hp j (by simpa [Ne.symm hjm] using hj)
        simp [t]
      · have hqj : q ∈ (A j).queue := by
          rcases eq_or_ne j m with rfl | hjm
          · simpa [hqp] using hj
          · simpa [hjm] using hj
        simpa [t, hqp] using h.waiting j q hqj
    · intro j q hj hn
      rcases eq_or_ne q p with rfl | hqp
      · obtain rfl : m = j := by simpa [t] using hj
        simp at hn
      · have hqj : q ∉ (A j).queue := by
          rcases eq_or_ne j m with rfl | hjm
          · simpa [hqp] using hn
          · simpa [hjm] using hn
        have hj' : s.inDown q = some j := by simpa [t, hqp] using hj
        rw [hother j q hqp hj' hqj]
        simpa [t, hqp] using h.woken j q hj' hqj
    · intro q hne
      rcases eq_or_ne q p with rfl | hqp
      · simp [t]
      · simpa [t, hqp] using h.asleep q (by simpa [t, hqp] using hne)

theorem tryDown (h : Refines s A) :
    Refines (tryDown s m).2 (Function.update A m (A m).tryDown.2) ∧
      (Sync.tryDown s m).2.inDown = s.inDown := by
  unfold Sync.tryDown Semaphore.tryDown
  rw [h.value m]
  split
  · exact ⟨h.setValue _, rfl⟩
  · exact ⟨by simpa using h, rfl⟩

theorem downReturn (h : Refines s A) (hd : s.inDown p = some m)
    (hr : (s.proc p).state = .runnable) :
    p ∉ (A m).queue ∧ downReturn s p m = some (s.setInDown p none) ∧
      Refines (s.setInDown p none) A := by
  have hq : p ∉ (A m).queue := by
    intro hq
    have := (h.waiting m p hq).2.1
    simp [hr] at this
  obtain ⟨-, hf, he⟩ := h.woken m p hd hq
  refine ⟨hq, ?_, h.rings, h.value, ?_, ?_, h.asleep⟩
  · simp [Sync.downReturn, rawDownReturn, waitCurrentDel, waitInQueue, he, State.setInDown, hf]
  · intro j q hj
    have hqp : q ≠ p := by
      rintro rfl
      obtain rfl : m = j := by simpa [hd] using (h.waiting j q hj).1
      exact hq hj
    simpa [State.setInDown, hqp] using h.waiting j q hj
  · intro j q hj hn
    have hqp : q ≠ p := by
      rintro rfl
      simp [State.setInDown] at hj
    exact h.woken j q (by simpa [State.setInDown, hqp] using hj) hn

theorem waitState_zero (h : Refines s A) (hp : s.running p) : (s.proc p).waitState = 0 := by
  by_contra hw
  have := h.asleep p hw
  simp [hp.1] at this

theorem kill (h : Refines s A) (pid : ℕ) :
    ∃ r t, doKill s pid = some (r, t) ∧ Refines t A ∧ t.inDown = s.inDown := by
  unfold doKill
  cases hf : findProc s pid with
  | none => exact ⟨_, s, rfl, h, rfl⟩
  | some p =>
    dsimp only
    split
    · have hk : Refines (s.setProc p { s.proc p with flags := (s.proc p).flags ||| pfExiting }) A :=
        h.setFlags
      split
      · rename_i hi
        have hi' : (s.proc p).waitState &&& wtInterrupted ≠ 0 := by simpa using hi
        have h0 : (s.proc p).waitState ≠ 0 := by
          intro h0
          simp [h0] at hi'
        have hd : s.inDown p = none := h.inDown_none h0 fun hw => by
          rw [hw] at hi'
          exact hi' wtKsem_not_interrupted
        obtain ⟨t, ht, hrt, hwk⟩ := hk.wakeupProc (p := p) hd (by simp [h.asleep p h0])
        exact ⟨0, t, by simp [ht], hrt, hwk⟩
      · exact ⟨0, _, rfl, hk, rfl⟩
    · exact ⟨_, s, rfl, h, rfl⟩

theorem parents (h : Refines s A) (qs : List ℕ) :
    ∃ t, wakeupParents s qs = some t ∧ Refines t A ∧ t.inDown = s.inDown := by
  induction qs generalizing s with
  | nil => exact ⟨s, rfl, h, rfl⟩
  | cons q qs ih =>
    by_cases hw : (s.proc q).waitState = wtChild
    · have hn := interrupted_ne_zero (Or.inl hw)
      obtain ⟨t, ht, hrt, hwk⟩ :=
        h.wakeupProc (h.inDown_none hn.1 hn.2) (by simp [h.asleep q hn.1])
      obtain ⟨u, hu, hru, hd⟩ := ih hrt
      exact ⟨u, by simp [wakeupParents, hw, ht, hu], hru, hd.trans hwk⟩
    · obtain ⟨u, hu, hru, hd⟩ := ih h
      exact ⟨u, by simp [wakeupParents, hw, hu], hru, hd⟩

end Refines

/-- The abstract semaphores after a step. -/
def after (A : ℕ → Semaphore) : Op → ℕ → Semaphore
  | .up _ m => Function.update A m (A m).up.2
  | .down p m => Function.update A m ((A m).down p).2
  | .tryDown _ m => Function.update A m (A m).tryDown.2
  | _ => A

def inDownAfter (s : State) : Op → ℕ → Option ℕ
  | .down p m => if 0 < s.value m then s.inDown else Function.update s.inDown p (some m)
  | .downReturn p => Function.update s.inDown p none
  | _ => s.inDown

/-- No enabled step fails an assertion, and its effect is that of the abstract semaphores. -/
theorem Refines.exec {s : State} {A : ℕ → Semaphore} {op : Op} (h : Refines s A)
    (he : s.Enabled op) :
    ∃ t, s.exec op = some t ∧ Refines t (after A op) ∧ t.inDown = inDownAfter s op := by
  cases op with
  | up p m =>
    rcases hq : (A m).queue with _ | ⟨q, qs⟩
    · obtain ⟨t, ht, hr, hd⟩ := h.up_nil hq
      exact ⟨t, ht, hr, hd⟩
    · obtain ⟨t, ht, hr, hd⟩ := h.up_cons hq
      exact ⟨t, ht, hr, hd⟩
  | down p m =>
    obtain ⟨t, ht, hr, hd, hd'⟩ := h.down (m := m) he.2
    refine ⟨t, ht, hr, ?_⟩
    simp only [inDownAfter]
    split
    · exact hd ‹_›
    · exact hd' ‹_›
  | downReturn p =>
    obtain ⟨m, hm⟩ := Option.ne_none_iff_exists'.mp he.2
    obtain ⟨-, ht, hr⟩ := h.downReturn hm he.1
    exact ⟨_, by simp [State.exec, hm, ht], hr, rfl⟩
  | tryDown p m => exact ⟨_, rfl, h.tryDown.1, h.tryDown.2⟩
  | kill p pid =>
    obtain ⟨r, t, ht, hr, hd⟩ := h.kill pid
    exact ⟨t, by simp [State.exec, ht], hr, hd⟩
  | sleep p w => exact ⟨_, rfl, h.setProc he.1.2 (fun _ => rfl), rfl⟩
  | interrupt q =>
    have hn := interrupted_ne_zero (Or.inr he)
    obtain ⟨t, ht, hr, hw⟩ := h.wakeupProc (h.inDown_none hn.1 hn.2) (by simp [h.asleep q hn.1])
    exact ⟨t, ht, hr, hw⟩
  | exit p qs =>
    have hz : Refines (s.setProc p { s.proc p with state := .zombie }) A :=
      h.setProc he.2 fun hw => absurd (h.waitState_zero he) hw
    exact hz.parents qs
  | fork p q =>
    have hd : s.inDown q = none := h.inDown_of_state (.inl he.2)
    have hf : Refines (s.setProc q ⟨.uninit, 0, 0⟩) A := h.setProc hd (by simp)
    obtain ⟨t, ht, hr, hw⟩ := hf.wakeupProc (p := q) hd (by simp)
    exact ⟨t, ht, hr, hw⟩
  | reap p q => exact ⟨_, rfl, h.setProc (h.inDown_of_state (.inr he.2)) (by simp), rfl⟩

/-- What a step adds to the history of a semaphore. -/
def History.record (sem : ℕ) (s : State) (h : History) : Op → History
  | .up _ m => if m = sem then h.up (waitQueueFirst s sem) else h
  | .down p m => if m = sem then h.down p (decide (0 < s.value sem)) else h
  | .downReturn p => if s.inDown p = some sem then h.back else h
  | .tryDown _ m => if m = sem then h.tryDown (Sync.tryDown s sem).1 else h
  | _ => h

/-- No signal finds the counter at the largest value of an `int`. -/
def Bounded (sem : ℕ) (s : State) : Op → Prop
  | .up _ m => m = sem → s.value sem ≠ Int32.maxValue
  | _ => True

instance (sem : ℕ) (s : State) : ∀ op, Decidable (Bounded sem s op)
  | .up _ m => inferInstanceAs (Decidable (m = sem → _))
  | .down _ _ | .downReturn _ | .tryDown _ _ | .kill _ _ | .sleep _ _ | .interrupt _ | .exit _ _
  | .fork _ _ | .reap _ _ => inferInstanceAs (Decidable True)

/-- The history of a semaphore that started at `v`, in a state that refines `A`. -/
structure Tracks (v : Int32) (sem : ℕ) (s : State) (h : History) (A : ℕ → Semaphore)
    (W : Finset ℕ) : Prop where
  refines : Refines s A
  woken : ∀ p, p ∈ W ↔ s.inDown p = some sem ∧ p ∉ (A sem).queue
  account : Account v (A sem) h W

namespace Tracks

variable {v : Int32} {sem : ℕ} {s t : State} {h : History} {A : ℕ → Semaphore} {W : Finset ℕ}
  {op : Op}

theorem boot_tracks {v : ℕ → Int32} (hv : 0 ≤ (v sem).toInt) :
    Tracks (v sem) sem (boot v) .empty (fun m => ⟨v m, []⟩) ∅ := by
  refine ⟨⟨⟨?_, ?_⟩, ?_, ?_, ?_, ?_⟩, ?_, .init hv⟩
  · intro m
    exact ⟨⟨rfl, rfl⟩, by simp⟩
  · intro i j hij
    simpa using hij.symm
  all_goals simp [boot]

theorem same (k : Tracks v sem s h A W) (hr : Refines t (after A op))
    (hA : after A op sem = A sem) (hd : ∀ p, t.inDown p = some sem ↔ s.inDown p = some sem) :
    Tracks v sem t h (after A op) W :=
  ⟨hr, fun p => by rw [hA, hd, k.woken], by rw [hA]; exact k.account⟩

theorem up (k : Tracks v sem s h A W) (hv : s.value sem ≠ Int32.maxValue) {p : ℕ}
    (hr : Refines t (after A (.up p sem))) (hd : t.inDown = s.inDown) :
    ∃ W', Tracks v sem t (h.up (waitQueueFirst s sem)) (after A (.up p sem)) W' := by
  have hA : after A (.up p sem) sem = (A sem).up.2 := by simp [after]
  rw [k.refines.first]
  rcases hq : (A sem).queue with _ | ⟨q, qs⟩
  · have hu := Semaphore.up_nil hq
    refine ⟨W, hr, ?_, ?_⟩
    · intro q
      rw [hd, k.woken, hA, hu, hq]
    · rw [hA]
      have := k.account.up_nil hq (k.refines.value sem ▸ hv)
      rwa [hu] at this ⊢
  · have hu := Semaphore.up_cons hq
    have hqW : q ∉ W := fun hW => ((k.woken q).mp hW).2 (by simp [hq])
    refine ⟨insert q W, hr, ?_, ?_⟩
    · intro x
      have hqd := (k.refines.waiting sem q (by simp [hq])).1
      have hnd : q ∉ qs := by
        have := (k.refines.rings.ring sem).nodup_tail
        rw [hq, List.map_cons, List.nodup_cons] at this
        simpa using this.1
      rw [hd, Finset.mem_insert, k.woken, hA, hu, hq]
      rcases eq_or_ne x q with rfl | hx
      · simp [hqd, hnd]
      · simp [hx]
    · rw [hA]
      have := k.account.up_cons hq hqW
      rwa [hu] at this ⊢

theorem down (k : Tracks v sem s h A W) {p : ℕ} (hp : s.inDown p = none)
    (hr : Refines t (after A (.down p sem))) (hd : t.inDown = inDownAfter s (.down p sem)) :
    Tracks v sem t (h.down p (decide (0 < s.value sem))) (after A (.down p sem)) W := by
  have hA : after A (.down p sem) sem = ((A sem).down p).2 := by simp [after]
  have hv := k.refines.value sem
  refine ⟨hr, ?_, ?_⟩
  · intro q
    rw [hd, k.woken, hA]
    simp only [inDownAfter, Semaphore.down, hv]
    split
    · rfl
    · rcases eq_or_ne q p with rfl | hqp
      · simp [hp]
      · simp [hqp]
  · have hb : decide (0 < s.value sem) = ((A sem).down p).1 := by
      rw [hv, Semaphore.down]
      split <;> simp [*]
    rw [hb, hA]
    exact k.account.down

theorem downReturn (k : Tracks v sem s h A W) {p : ℕ} (hp : s.inDown p = some sem)
    (hs : (s.proc p).state = .runnable) (hr : Refines t A)
    (hd : t.inDown = inDownAfter s (.downReturn p)) : Tracks v sem t h.back A (W.erase p) := by
  have hW : p ∈ W := (k.woken p).mpr ⟨hp, (k.refines.downReturn hp hs).1⟩
  refine ⟨hr, ?_, k.account.back hW⟩
  intro q
  rw [hd, Finset.mem_erase, k.woken, inDownAfter]
  rcases eq_or_ne q p with rfl | hqp
  · simp
  · simp [hqp]

theorem tryDown (k : Tracks v sem s h A W) {p : ℕ} (hr : Refines t (after A (.tryDown p sem)))
    (hd : t.inDown = s.inDown) :
    Tracks v sem t (h.tryDown (tryDown s sem).1) (after A (.tryDown p sem)) W := by
  have hA : after A (.tryDown p sem) sem = (A sem).tryDown.2 := by simp [after]
  have hv := k.refines.value sem
  refine ⟨hr, ?_, ?_⟩
  · intro q
    rw [hd, k.woken, hA, Semaphore.tryDown]
    split <;> rfl
  · have hb : (Sync.tryDown s sem).1 = (A sem).tryDown.1 := by
      rw [Sync.tryDown, Semaphore.tryDown, hv]
      split <;> rfl
    rw [hb, hA]
    exact k.account.tryDown

/-- An enabled step does not fail, and the account goes on. -/
theorem exec (k : Tracks v sem s h A W) (he : s.Enabled op) (hb : Bounded sem s op) :
    ∃ t W', s.exec op = some t ∧ Tracks v sem t (h.record sem s op) (after A op) W' := by
  obtain ⟨t, ht, hr, hd⟩ := k.refines.exec he
  suffices hs : ∃ W', Tracks v sem t (h.record sem s op) (after A op) W' by
    obtain ⟨W', hW⟩ := hs
    exact ⟨t, W', ht, hW⟩
  cases op with
  | up p m =>
    rcases eq_or_ne m sem with rfl | hm
    · simpa [History.record] using k.up (hb rfl) hr hd
    · refine ⟨W, ?_⟩
      simpa [History.record, hm] using
        k.same hr (by simp [after, hm.symm]) (by simp [hd, inDownAfter])
  | down p m =>
    refine ⟨W, ?_⟩
    rcases eq_or_ne m sem with rfl | hm
    · simpa [History.record] using k.down he.2 hr hd
    · have hd' : ∀ q, t.inDown q = some sem ↔ s.inDown q = some sem := by
        intro q
        rw [hd]
        simp only [inDownAfter]
        split
        · rfl
        · rcases eq_or_ne q p with rfl | hqp
          · simp [he.2, hm]
          · simp [hqp]
      simpa [History.record, hm] using k.same hr (by simp [after, hm.symm]) hd'
  | downReturn p =>
    rcases eq_or_ne (s.inDown p) (some sem) with hp | hp
    · exact ⟨W.erase p, by simpa [History.record, hp, after] using k.downReturn hp he.1 hr hd⟩
    · have hd' : ∀ q, t.inDown q = some sem ↔ s.inDown q = some sem := by
        intro q
        rw [hd, inDownAfter]
        rcases eq_or_ne q p with rfl | hqp
        · simp [hp]
        · simp [hqp]
      exact ⟨W, by simpa [History.record, hp] using k.same hr rfl hd'⟩
  | tryDown p m =>
    refine ⟨W, ?_⟩
    rcases eq_or_ne m sem with rfl | hm
    · simpa [History.record] using k.tryDown hr hd
    · simpa [History.record, hm] using
        k.same hr (by simp [after, hm.symm]) (by simp [hd, inDownAfter])
  | kill | sleep | interrupt | exit | fork | reap =>
    exact ⟨W, k.same hr rfl (by simp [hd, inDownAfter])⟩

end Tracks

/-- The processes that an `up` has woken and that have not returned from `down`. -/
def State.woken (s : State) (sem : ℕ) : Set ℕ :=
  { p | s.inDown p = some sem ∧ (s.proc p).state = .runnable }

/-- What holds of a semaphore that started at `v`, with the history `h`. -/
structure Safe (v : Int32) (sem : ℕ) (s : State) (h : History) : Prop where
  nonneg : 0 ≤ (s.value sem).toInt
  empty : 0 < s.value sem → waitQueueEmpty s sem = true
  finite : (s.woken sem).Finite
  balance : v.toInt + h.ups = (s.value sem).toInt + h.downs + (s.woken sem).ncard
  fifo : ∃ ws : List ℕ, s.links.Path (.waitHead sem) (ws.map .waitLink) (.waitHead sem) ∧
    (∀ p, p ∈ ws ↔ s.inDown p = some sem ∧ (s.proc p).state = .sleeping) ∧
    h.queued = h.released ++ ws
  once : ∀ p, h.queued.count p = h.released.count p +
    if s.inDown p = some sem ∧ (s.proc p).state = .sleeping then 1 else 0
  release : ∀ op t p, s.step op = some t → s.inDown p = some sem → (s.proc p).state = .sleeping →
    (t.proc p).state ≠ .sleeping → (∃ q, op = .up q sem) ∧ waitQueueFirst s sem = some p
  total : ∀ op, s.Enabled op → (s.exec op).isSome

namespace Tracks

variable {v : Int32} {sem : ℕ} {s t : State} {h : History} {A : ℕ → Semaphore} {W : Finset ℕ}
  {op : Op}

theorem mem_queue_iff (k : Tracks v sem s h A W) (p : ℕ) :
    p ∈ (A sem).queue ↔ s.inDown p = some sem ∧ (s.proc p).state = .sleeping := by
  constructor
  · intro hp
    have := k.refines.waiting sem p hp
    exact ⟨this.1, this.2.1⟩
  · rintro ⟨hd, hs⟩
    by_contra hp
    have := (k.refines.woken sem p hd hp).1
    simp [hs] at this

theorem woken_eq (k : Tracks v sem s h A W) : s.woken sem = W := by
  ext p
  rw [Finset.mem_coe, k.woken, k.mem_queue_iff]
  constructor
  · rintro ⟨hd, hs⟩
    simp [hd, hs]
  · rintro ⟨hd, hn⟩
    refine ⟨hd, (k.refines.woken sem p hd ?_).1⟩
    rwa [k.mem_queue_iff]

theorem mem_after {p : ℕ} (hp : p ∈ (A sem).queue) (hn : p ∉ (after A op sem).queue) :
    (∃ q, op = .up q sem) ∧ (A sem).queue.head? = some p := by
  cases op with
  | up q m =>
    rcases eq_or_ne sem m with rfl | hm
    · refine ⟨⟨q, rfl⟩, ?_⟩
      rcases hq : (A sem).queue with _ | ⟨x, xs⟩
      · simp [hq] at hp
      · simp only [after, Function.update_self, Semaphore.up_cons hq] at hn
        simp only [hq, List.mem_cons] at hp
        simp [hp.resolve_right hn]
    · simp [after, hm, hp] at hn
  | down q m =>
    rcases eq_or_ne sem m with rfl | hm
    · simp only [after, Function.update_self, Semaphore.down] at hn
      split at hn <;> simp [hp] at hn
    · simp [after, hm, hp] at hn
  | tryDown q m =>
    rcases eq_or_ne sem m with rfl | hm
    · simp only [after, Function.update_self, Semaphore.tryDown] at hn
      split at hn <;> simp [hp] at hn
    · simp [after, hm, hp] at hn
  | downReturn | kill | sleep | interrupt | exit | fork | reap => exact absurd hp hn

theorem safe (k : Tracks v sem s h A W) : Safe v sem s h := by
  have hv := k.refines.value sem
  have hnd : (A sem).queue.Nodup :=
    List.Nodup.of_map _ (k.refines.rings.ring sem).nodup_tail
  refine ⟨?_, ?_, ?_, ?_, ?_, ?_, ?_, ?_⟩
  · rw [hv]
    exact k.account.settled.nonneg
  · intro hp
    rw [hv, Semaphore.pos_iff] at hp
    rw [waitQueueEmpty, listEmpty_iff (k.refines.rings.ring sem), k.account.settled.empty hp]
    rfl
  · rw [k.woken_eq]
    exact W.finite_toSet
  · rw [k.woken_eq, Set.ncard_coe_finset, hv]
    exact k.account.balance
  · exact ⟨(A sem).queue, (k.refines.rings.ring sem).path, k.mem_queue_iff, k.account.fifo⟩
  · intro p
    rw [k.account.fifo, List.count_append, hnd.count]
    simp only [k.mem_queue_iff]
  · intro op t p hst hd hs hn
    obtain ⟨he, ht⟩ : s.Enabled op ∧ s.exec op = some t := by simpa [State.step] using hst
    obtain ⟨t', ht', hr, -⟩ := k.refines.exec he
    obtain rfl : t = t' := by simpa [ht] using ht'
    rw [k.refines.first]
    refine mem_after ((k.mem_queue_iff p).mpr ⟨hd, hs⟩) fun hq => hn ?_
    exact (hr.waiting sem p hq).2.1
  · intro op he
    obtain ⟨t, ht, -⟩ := k.refines.exec he
    simp [ht]

end Tracks

/-- A step together with its entry in the history of a semaphore. -/
def track (sem : ℕ) (c : State × History) (op : Op) : Option (State × History) :=
  (c.1.step op).map fun t => (t, c.2.record sem c.1 op)

/-- In every run in which no signal overflows the counter, the semaphore is safe in every state. -/
theorem semaphore_safe (v : ℕ → Int32) (sem : ℕ) (hv : 0 ≤ v sem) (ops : List Op)
    (c : State × History)
    (hr : Runs (fun c op c' => Bounded sem c.1 op ∧ track sem c op = some c') (boot v, .empty)
      ops c) :
    Safe (v sem) sem c.1 c.2 := by
  have h0 : 0 ≤ (v sem).toInt := by simpa using Int32.le_iff_toInt_le.mp hv
  obtain ⟨A, W, k⟩ : ∃ A W, Tracks (v sem) sem c.1 c.2 A W := by
    refine hr.invariant (P := fun c => ∃ A W, Tracks (v sem) sem c.1 c.2 A W) ?_
      ⟨_, _, Tracks.boot_tracks h0⟩
    rintro ⟨s, h⟩ op c' ⟨A, W, k⟩ ⟨hb, hc⟩
    obtain ⟨t, ⟨he, ht⟩, rfl⟩ : ∃ t, (s.Enabled op ∧ s.exec op = some t) ∧
        (t, h.record sem s op) = c' := by
      simpa [track, State.step] using hc
    obtain ⟨t', W', ht', k'⟩ := k.exec he hb
    obtain rfl : t = t' := Option.some.inj (ht.symm.trans ht')
    exact ⟨_, W', k'⟩
  exact k.safe

/-- A process queues, is killed while it waits, and is released by a signal. -/
def killedTrace : List Op := [.fork 0 1, .down 1 0, .kill 0 1, .up 0 0, .downReturn 1]

theorem semaphore_safe_killedTrace :
    ∃ c, Runs (fun c op c' => Bounded 0 c.1 op ∧ track 0 c op = some c') (boot fun _ => 0, .empty)
      killedTrace c ∧ c.2 = ⟨1, 1, [1], [1]⟩ ∧ Safe 0 0 c.1 c.2 := by
  have he : (killedTrace.foldlM (fun c op => if Bounded 0 c.1 op then track 0 c op else none)
      (boot fun _ => 0, .empty)).map Prod.snd = some ⟨1, 1, [1], [1]⟩ := by decide
  obtain ⟨c, hc, h₂⟩ := Option.map_eq_some_iff.mp he
  have hr : Runs (fun c op c' => Bounded 0 c.1 op ∧ track 0 c op = some c')
      (boot fun _ => 0, .empty) killedTrace c :=
    (Runs.iff_foldlM.mpr hc).mono (by simp)
  exact ⟨c, hr, h₂, semaphore_safe (fun _ => 0) 0 (by decide) _ c hr⟩

/-- A signal at the largest counter value makes it negative. -/
theorem semaphore_overflow_unsafe :
    ∃ c, Runs (fun c op c' => track 0 c op = some c') (boot fun _ => 2147483647, .empty)
      [.up 0 0] c ∧ c.1.value 0 < 0 ∧ ¬ Safe 2147483647 0 c.1 c.2 := by
  have he : ([Op.up 0 0].foldlM (track 0) (boot fun _ => 2147483647, .empty)).map
      (fun c => c.1.value 0) = some (-2147483648) := by decide
  obtain ⟨c, hc, hv⟩ := Option.map_eq_some_iff.mp he
  refine ⟨c, Runs.iff_foldlM.mpr hc, ?_, fun h => ?_⟩
  · rw [hv]
    decide
  · have := h.nonneg
    rw [hv] at this
    exact absurd this (by decide)

end UCore.Sync

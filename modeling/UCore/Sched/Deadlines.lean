import Mathlib.Algebra.Order.Ring.Nat
import UCore.Library.Deltas
import UCore.Library.Loop
import UCore.Sched.Model
import UCore.Sched.Safety

/-! # Timers

The timer list of `kern/schedule/sched.c`, on the model of the scheduler. The timers are linked
in the order of their deadlines, and `expires` of a linked timer is the difference to its
predecessor. A failed assertion is an error that names it.
-/

namespace UCore.Timers

open Library

/-- `timer_t` without its link. -/
structure Timer where
  expires : UInt32
  proc : ℕ

/-- The list entries: the head `timer_list` and the `timer_link` of a timer. -/
inductive Entry
  | timerList
  | timerLink (timer : ℕ)
deriving DecidableEq

/-- `adds` counts the timers that were added. It bounds the loops over the list, and no function
reads it otherwise. -/
structure State where
  timer : ℕ → Timer
  links : Links Entry
  sched : Sched.State
  adds : ℕ

inductive Fault
  | sched (f : Sched.Fault)
  | addExpires
  | addLinked
  | headExpired
  | notInterrupted
  | loop

namespace State

variable (s : State)

def expires (timer : ℕ) : UInt32 := (s.timer timer).expires

def setExpires (timer : ℕ) (e : UInt32) : State :=
  { s with timer := Function.update s.timer timer { s.timer timer with expires := e } }

def timerInit (timer proc : ℕ) (expires : UInt32) : State :=
  { s with
    timer := Function.update s.timer timer ⟨expires, proc⟩
    links := listInit s.links (.timerLink timer) }

/-- The loop of `add_timer`, which looks for the entry before which the timer is linked. -/
def addStep (timer : ℕ) : State × Entry → State × Entry ⊕ State × Entry
  | (s, .timerList) => .inr (s, .timerList)
  | (s, .timerLink next) =>
    if s.expires timer < s.expires next then
      .inr (s.setExpires next (s.expires next - s.expires timer), .timerLink next)
    else
      .inl (s.setExpires timer (s.expires timer - s.expires next),
        listNext s.links (.timerLink next))

def addTimer (timer : ℕ) : Except Fault State :=
  if s.expires timer = 0 then .error .addExpires
  else if listEmpty s.links (.timerLink timer) = false then .error .addLinked
  else
    match iterate (addStep timer) (s.adds + 1) (s, listNext s.links .timerList) with
    | none => .error .loop
    | some (s, le) =>
      .ok { s with links := listAddBefore s.links le (.timerLink timer), adds := s.adds + 1 }

/-- `del_timer`, its change of the next timer. -/
def delayNext (timer : ℕ) : State :=
  if s.expires timer ≠ 0 then
    match listNext s.links (.timerLink timer) with
    | .timerList => s
    | .timerLink next => s.setExpires next (s.expires next + s.expires timer)
  else s

def delTimer (timer : ℕ) : State :=
  if listEmpty s.links (.timerLink timer) then s
  else { s.delayNext timer with links := listDelInit (s.delayNext timer).links (.timerLink timer) }

/-- `run_timer_list`, its wakeup of the process of a timer. -/
def wakeupTimer (timer : ℕ) : Except Fault State :=
  let proc := (s.timer timer).proc
  if (s.sched.proc proc).waitState ≠ 0 ∧ (s.sched.proc proc).waitState &&& wtInterrupted = 0 then
    .error .notInterrupted
  else
    match s.sched.wakeupProc proc with
    | .error f => .error (.sched f)
    | .ok sched => .ok { s with sched }

/-- The loop of `run_timer_list`, with the timers that it has fired. -/
def fireStep : State × ℕ × List ℕ → State × ℕ × List ℕ ⊕ Except Fault (State × List ℕ)
  | (s, timer, fired) =>
    if s.expires timer ≠ 0 then .inr (.ok (s, fired))
    else
      let le := listNext s.links (.timerLink timer)
      match s.wakeupTimer timer with
      | .error f => .inr (.error f)
      | .ok s =>
        match le with
        | .timerList => .inr (.ok (s.delTimer timer, fired ++ [timer]))
        | .timerLink next => .inl (s.delTimer timer, next, fired ++ [timer])

/-- `run_timer_list`, the part that fires the timers. -/
def fireTimers : Except Fault (State × List ℕ) :=
  match listNext s.links .timerList with
  | .timerList => .ok (s, [])
  | .timerLink timer =>
    if s.expires timer = 0 then .error .headExpired
    else
      let s := s.setExpires timer (s.expires timer - 1)
      (iterate fireStep (s.adds + 1) (s, timer, [])).getD (.error .loop)

def runTimerList : Except Fault (State × List ℕ) := do
  let (s, fired) ← s.fireTimers
  .ok ({ s with sched := s.sched.schedClassProcTick s.sched.current }, fired)

end State

/-- `other` is any step of the rest of the kernel, which changes processes and no timer. -/
inductive Op
  | add (timer proc : ℕ) (expires : UInt32)
  | del (timer : ℕ)
  | tick
  | other (sched : Sched.State)

namespace State

variable (s : State)

/-- A timer is added when it is not linked, and with a positive time. -/
def Enabled : Op → Prop
  | .add timer _ expires => expires ≠ 0 ∧ listEmpty s.links (.timerLink timer) = true
  | .del _ | .tick | .other _ => True

instance : (op : Op) → Decidable (s.Enabled op)
  | .add _ _ _ => inferInstanceAs (Decidable (_ ∧ _))
  | .del _ | .tick | .other _ => inferInstanceAs (Decidable True)

/-- A step, with the timers that it fires. -/
def exec : Op → Except Fault (State × List ℕ)
  | .add timer proc expires => ((s.timerInit timer proc expires).addTimer timer).map (·, [])
  | .del timer => .ok (s.delTimer timer, [])
  | .tick => s.runTimerList
  | .other sched => .ok ({ s with sched }, [])

end State

/-- No timer is linked. -/
def timersInit (sched : Sched.State) : State where
  timer _ := ⟨0, 0⟩
  links := ⟨id, id⟩
  sched := sched
  adds := 0

/-! ## The timer list refines absolute deadlines

The differences that the timer list stores are those of a delta queue, and the list implements a
clock with absolute deadlines. A timer fires at the tick of its deadline.
-/

open State

variable {s t : State} {xs : List ℕ} {x y : ℕ}

@[simp] theorem setExpires_links {e : UInt32} : (s.setExpires x e).links = s.links := rfl

@[simp] theorem setExpires_adds {e : UInt32} : (s.setExpires x e).adds = s.adds := rfl

@[simp] theorem setExpires_sched {e : UInt32} : (s.setExpires x e).sched = s.sched := rfl

theorem setExpires_self {e : UInt32} : (s.setExpires x e).expires x = e := by
  simp [setExpires, State.expires]

theorem setExpires_ne {e : UInt32} (h : y ≠ x) :
    (s.setExpires x e).expires y = s.expires y := by
  simp [setExpires, State.expires, h]

theorem setExpires_proc {e : UInt32} :
    ((s.setExpires x e).timer y).proc = (s.timer y).proc := by
  simp only [setExpires, Function.update_apply]
  split
  · subst y
    rfl
  · rfl

/-- The first entry of a part of the list, which ends at the head. -/
def first : List ℕ → Entry
  | [] => .timerList
  | x :: _ => .timerLink x

theorem first_eq (xs : List ℕ) :
    (xs.map Entry.timerLink ++ [Entry.timerList]).head (by simp) = first xs := by
  cases xs <;> rfl

/-- The timer list is the sequence `xs`. -/
structure Queue (s : State) (xs : List ℕ) : Prop where
  ring : s.links.Ring .timerList (xs.map .timerLink)
  link : ∀ x, x ∉ xs → listEmpty s.links (.timerLink x) = true
  length : xs.length ≤ s.adds

/-- The delta queue that the timers hold. -/
def deltas (s : State) (xs : List ℕ) : List (ℕ × ℕ) := xs.map fun x => (x, (s.expires x).toNat)

@[simp] theorem deltas_fst : (deltas s xs).map Prod.fst = xs := by
  simp [deltas, Function.comp_def]

theorem deltas_congr (h : ∀ x ∈ xs, t.expires x = s.expires x) : deltas t xs = deltas s xs :=
  List.map_congr_left fun x hx => by rw [h x hx]

theorem deltas_setExpires {e : UInt32} (hx : x ∉ xs) : deltas (s.setExpires x e) xs = deltas s xs :=
  deltas_congr fun _ hy => setExpires_ne fun h => hx (h ▸ hy)

theorem listEmpty_congr {L L' : Links Entry} {e : Entry} (h : L'.next e = L.next e) :
    listEmpty L' e = listEmpty L e := by
  simp [listEmpty, h]

theorem link_mem {x : ℕ} : Entry.timerLink x ∈ Entry.timerList :: xs.map Entry.timerLink ↔
    x ∈ xs := by
  simp

namespace Queue

theorem nodup (k : Queue s xs) : xs.Nodup := List.Nodup.of_map _ k.ring.nodup_tail

theorem next_head (k : Queue s xs) : listNext s.links .timerList = first xs := by
  rw [listNext, k.ring.next_head]
  exact first_eq xs

theorem next {p suf : List ℕ} (k : Queue s (p ++ x :: suf)) :
    listNext s.links (.timerLink x) = first suf := by
  have r : s.links.Ring .timerList (p.map .timerLink ++ .timerLink x :: suf.map .timerLink) := by
    simpa using k.ring
  rw [listNext, r.next_mem]
  exact first_eq suf

theorem mem_iff (k : Queue s xs) : listEmpty s.links (.timerLink x) = false ↔ x ∈ xs := by
  constructor
  · intro h
    by_contra hx
    simp [k.link x hx] at h
  · intro hx
    exact listEmpty_of_mem k.ring (List.mem_map_of_mem hx)

theorem congr (k : Queue s xs) (hl : t.links = s.links) (ha : s.adds ≤ t.adds) : Queue t xs :=
  ⟨hl ▸ k.ring, fun x hx => hl ▸ k.link x hx, k.length.trans ha⟩

end Queue

section Add

/-- The loop of `add_timer` passes the timers that are due before the new one. -/
theorem addStep_spec {p suf : List ℕ} {n : ℕ} (k : Queue s (p ++ suf)) (hx : x ∉ p ++ suf)
    (hn : suf.length < n) :
    ∃ t mid rest, iterate (addStep x) n (s, first suf) = some (t, first rest) ∧
      suf = mid ++ rest ∧ t.links = s.links ∧ t.adds = s.adds ∧ t.sched = s.sched ∧
      (∀ y, (t.timer y).proc = (s.timer y).proc) ∧
      (∀ y ∈ p, t.expires y = s.expires y) ∧
      deltas t (mid ++ x :: rest) = Deltas.insert x (s.expires x).toNat (deltas s suf) := by
  induction suf generalizing s p n with
  | nil =>
    obtain ⟨n, rfl⟩ : ∃ m, n = m + 1 := ⟨n - 1, by omega⟩
    refine ⟨s, [], [], ?_, rfl, rfl, rfl, rfl, fun _ => rfl, fun _ _ => rfl, rfl⟩
    simp [iterate, first, addStep]
  | cons y suf ih =>
    obtain ⟨n, rfl⟩ : ∃ m, n = m + 1 := ⟨n - 1, by omega⟩
    have hxy : x ≠ y := fun h => hx (by simp [h])
    have hxs : x ∉ suf := fun h => hx (by simp [h])
    have hys : y ∉ suf := fun h => by
      have := List.nodup_append.mp k.nodup
      exact (List.nodup_cons.mp this.2.1).1 h
    have hyp : y ∉ p := fun h => by
      have := List.nodup_append.mp k.nodup
      exact this.2.2 y h y (by simp) rfl
    have hxp : x ∉ p := fun h => hx (by simp [h])
    by_cases hlt : s.expires x < s.expires y
    · have hle : (s.expires y - s.expires x).toNat = (s.expires y).toNat - (s.expires x).toNat :=
        UInt32.toNat_sub_of_le _ _ (UInt32.le_of_lt hlt)
      refine ⟨s.setExpires y (s.expires y - s.expires x), [], y :: suf, ?_, rfl, rfl, rfl, rfl,
        fun _ => setExpires_proc, fun z hz => ?_, ?_⟩
      · simp [iterate, first, addStep, hlt]
      · exact setExpires_ne fun h => hyp (h ▸ hz)
      · have hlt' : (s.expires x).toNat < (s.expires y).toNat := UInt32.lt_iff_toNat_lt.mp hlt
        have hd := deltas_setExpires (s := s) (e := s.expires y - s.expires x) hys
        simp only [deltas, List.nil_append, List.map_cons, Deltas.insert, if_pos hlt',
          setExpires_ne hxy, setExpires_self, hle] at hd ⊢
        rw [hd]
    · have hle : (s.expires x - s.expires y).toNat = (s.expires x).toNat - (s.expires y).toNat :=
        UInt32.toNat_sub_of_le _ _ (UInt32.not_lt.mp hlt)
      have hnext : listNext s.links (.timerLink y) = first suf := k.next
      have k' : Queue (s.setExpires x (s.expires x - s.expires y)) ((p ++ [y]) ++ suf) := by
        rw [List.append_assoc]
        exact k.congr rfl le_rfl
      obtain ⟨t, mid, rest, ht, hsuf, hl, ha, hs, hp, he, hd⟩ :=
        ih k' (by simpa using hx) (n := n) (by simp at hn; omega)
      refine ⟨t, y :: mid, rest, ?_, by simp [hsuf], hl, ha, hs,
        fun z => (hp z).trans setExpires_proc,
        fun z hz => ?_, ?_⟩
      · simp only [iterate, first, addStep, if_neg hlt, hnext]
        exact ht
      · rw [he z (by simp [hz]), setExpires_ne fun h : z = x => hxp (h ▸ hz)]
      · have hy : t.expires y = s.expires y := by
          rw [he y (by simp), setExpires_ne (Ne.symm hxy)]
        have hlt' : ¬(s.expires x).toNat < (s.expires y).toNat := fun h =>
          hlt (UInt32.lt_iff_toNat_lt.mpr h)
        rw [setExpires_self, hle, deltas_setExpires hxs] at hd
        simp only [deltas, List.cons_append, List.map_cons, Deltas.insert, if_neg hlt', hy] at hd ⊢
        rw [hd]

theorem Queue.timerInit {p : ℕ} {e : UInt32} (k : Queue s xs) (hx : x ∉ xs) :
    Queue (s.timerInit x p e) xs := by
  have hne : ∀ y ∈ Entry.timerList :: xs.map Entry.timerLink, y ≠ Entry.timerLink x :=
    fun y hy h => hx (link_mem.mp (h ▸ hy))
  refine ⟨?_, ?_, k.length⟩
  · apply k.ring.congr
    · intro y hy; exact (listInit_congr (hne y hy)).1
    · intro y hy; exact (listInit_congr (hne y hy)).2
  · intro y hy
    rcases eq_or_ne y x with rfl | hyx
    · exact listEmpty_listInit
    · have hn : (s.timerInit x p e).links.next (.timerLink y) = s.links.next (.timerLink y) :=
        (listInit_congr (by simpa using hyx)).1
      exact (listEmpty_congr hn).trans (k.link y hy)

/-- `add_timer` inserts the timer into the delta queue. -/
theorem addTimer_spec (k : Queue s xs) (hx : x ∉ xs) (he : s.expires x ≠ 0) :
    ∃ t ys, s.addTimer x = .ok t ∧ Queue t ys ∧ t.sched = s.sched ∧
      (∀ y, (t.timer y).proc = (s.timer y).proc) ∧
      deltas t ys = Deltas.insert x (s.expires x).toNat (deltas s xs) := by
  obtain ⟨t, mid, rest, ht, rfl, hl, ha, hs, hp, -, hd⟩ :=
    addStep_spec (n := s.adds + 1) (p := []) k (by simpa using hx)
      (Nat.lt_succ_of_le k.length)
  have r : t.links.Ring .timerList (mid.map .timerLink ++ rest.map .timerLink) := by
    rw [hl]
    simpa using k.ring
  have hxr : Entry.timerLink x ∉
      Entry.timerList :: (mid.map Entry.timerLink ++ rest.map Entry.timerLink) := by
    rw [← List.map_append]
    exact fun h => hx (link_mem.mp h)
  have r' : (listAddBefore t.links (first rest) (.timerLink x)).Ring .timerList
      (mid.map .timerLink ++ .timerLink x :: rest.map .timerLink) := by
    cases rest with
    | nil =>
      have := listAddBefore_ring (e := Entry.timerLink x) (by simpa using r) (by simpa using hxr)
      simpa [first] using this
    | cons y rest => exact listAddBefore_ring_mem r hxr
  have hfirst : first rest ∈
      Entry.timerList :: (mid.map Entry.timerLink ++ rest.map Entry.timerLink) := by
    cases rest <;> simp [first]
  refine ⟨{ t with links := listAddBefore t.links (first rest) (.timerLink x), adds := t.adds + 1 },
    mid ++ x :: rest, ?_, ⟨?_, ?_, ?_⟩, hs, hp, hd⟩
  · rw [addTimer, if_neg he, if_neg (by simp [k.link x hx]), k.next_head, ht]
  · simpa using r'
  · intro y hy
    obtain ⟨hy₁, hyx, hy₂⟩ : y ∉ mid ∧ y ≠ x ∧ y ∉ rest := by simpa using hy
    have hyr : Entry.timerLink y ∉
        Entry.timerList :: (mid.map Entry.timerLink ++ rest.map Entry.timerLink) := by
      simp [hy₁, hy₂]
    have hprev := r.prev_mem_ring hfirst
    have hne : first rest ≠ Entry.timerLink x := fun h => hxr (h ▸ hfirst)
    have hn : (listAddBefore t.links (first rest) (.timerLink x)).next (.timerLink y) =
        s.links.next (.timerLink y) := by
      rw [listAddBefore, rawListAdd_eq_splice hne, Links.splice_next,
        if_neg (by simpa using hyx), if_neg fun h => hyr (by rw [h]; exact hprev), hl]
    exact (listEmpty_congr hn).trans (k.link y (by simp [hy₁, hy₂]))
  · simp only [List.length_append, List.length_cons, ha]
    have := k.length
    simp only [List.length_append] at this
    omega

end Add

section Del

theorem Queue.delInit {pre suf : List ℕ} (k : Queue s (pre ++ x :: suf)) :
    Queue { s with links := listDelInit s.links (.timerLink x) } (pre ++ suf) := by
  have r : s.links.Ring .timerList (pre.map .timerLink ++ .timerLink x :: suf.map .timerLink) := by
    simpa using k.ring
  have r' := listDelInit_ring r
  refine ⟨by simpa using r', ?_, ?_⟩
  · intro y hy
    rcases eq_or_ne y x with rfl | hyx
    · exact listEmpty_listInit
    · obtain ⟨hy₁, hy₂⟩ : y ∉ pre ∧ y ∉ suf := by simpa using hy
      have hn : (listDelInit s.links (.timerLink x)).next (.timerLink y) =
          s.links.next (.timerLink y) := by
        rw [listDelInit, (listInit_congr (by simpa using hyx)).1]
        exact (listDel_congr k.ring (link_mem.mpr (by simp)) (by simp [hy₁, hy₂, hyx])).1
      exact (listEmpty_congr hn).trans (k.link y (by simp [hy₁, hy₂, hyx]))
  · have := k.length
    simp only [List.length_append, List.length_cons] at this ⊢
    omega

/-- No difference and no sum of differences overflows. -/
def Small (l : List (ℕ × ℕ)) : Prop := ∀ x d, Deltas.remaining l x = some d → d < 2 ^ 32

/-- `del_timer` removes the timer from the delta queue. -/
theorem delTimer_spec (k : Queue s xs) (hs : Small (deltas s xs)) :
    Queue (s.delTimer x) (xs.erase x) ∧ (s.delTimer x).sched = s.sched ∧
      (∀ y, ((s.delTimer x).timer y).proc = (s.timer y).proc) ∧
      deltas (s.delTimer x) (xs.erase x) = Deltas.remove x (deltas s xs) := by
  by_cases hx : x ∈ xs
  · obtain ⟨pre, suf, rfl⟩ := List.append_of_mem hx
    have hxp : x ∉ pre := fun h => (List.nodup_append.mp k.nodup).2.2 x h x (by simp) rfl
    have hrem : Deltas.remove x (deltas s (pre ++ x :: suf)) =
        deltas s pre ++ Deltas.delay (s.expires x).toNat (deltas s suf) := by
      have := Deltas.remove_append (l := deltas s suf) (d := (s.expires x).toNat)
        (by rwa [deltas_fst] : x ∉ (deltas s pre).map Prod.fst)
      simpa [deltas] using this
    have herase : (pre ++ x :: suf).erase x = pre ++ suf := by
      rw [List.erase_append_right _ hxp, List.erase_cons_head]
    have hnext : listNext s.links (.timerLink x) = first suf := k.next
    have hkeep : (s.delayNext x).links = s.links ∧ (s.delayNext x).adds = s.adds ∧
        (s.delayNext x).sched = s.sched ∧
        (∀ y, ((s.delayNext x).timer y).proc = (s.timer y).proc) ∧
        deltas (s.delayNext x) (pre ++ suf) =
          deltas s pre ++ Deltas.delay (s.expires x).toNat (deltas s suf) := by
      unfold State.delayNext
      rw [hnext]
      by_cases he : s.expires x = 0
      · rw [if_neg (not_not.mpr he)]
        refine ⟨rfl, rfl, rfl, fun _ => rfl, ?_⟩
        rw [he]
        cases suf <;> simp [deltas, Deltas.delay]
      rw [if_pos he]
      cases suf with
      | nil => exact ⟨rfl, rfl, rfl, fun _ => rfl, by simp [deltas, Deltas.delay, first]⟩
      | cons y suf =>
        refine ⟨rfl, rfl, rfl, fun _ => setExpires_proc, ?_⟩
        have hnd := List.nodup_append.mp k.nodup
        have hyp : y ∉ pre := fun h => hnd.2.2 y h y (by simp) rfl
        have hys : y ∉ suf := by simp at hnd; tauto
        obtain ⟨t, ht, hle⟩ := Deltas.add_le_remaining (x := x) (y := y) (d := (s.expires x).toNat)
          (e := (s.expires y).toNat) (q := deltas s pre) (l := deltas s suf)
          (by simpa [deltas, Function.comp_def] using k.nodup)
        have hlt := hs y t (by simpa [deltas] using ht)
        have hadd : (s.expires y + s.expires x).toNat =
            (s.expires y).toNat + (s.expires x).toNat := by
          rw [UInt32.toNat_add]
          exact Nat.mod_eq_of_lt (by omega)
        have h₁ := deltas_setExpires (s := s) (e := s.expires y + s.expires x) hyp
        have h₂ := deltas_setExpires (s := s) (e := s.expires y + s.expires x) hys
        simp only [first]
        simp only [deltas, List.map_append, List.map_cons, setExpires_self, hadd,
          Deltas.delay] at h₁ h₂ ⊢
        rw [h₁, h₂]
    obtain ⟨hl, ha, hsch, hp, hd⟩ := hkeep
    have k' := (k.congr hl (le_of_eq ha.symm)).delInit
    rw [State.delTimer, if_neg (by simp [k.mem_iff.mpr hx]), herase, hrem]
    exact ⟨k', hsch, hp, hd⟩
  · have hrem : Deltas.remove x (deltas s xs) = deltas s xs := by
      apply Deltas.remove_of_notMem
      rwa [deltas_fst]
    rw [State.delTimer, if_pos (k.link x hx), List.erase_of_not_mem hx, hrem]
    exact ⟨k, rfl, fun _ => rfl, rfl⟩

theorem Small.remove {l : List (ℕ × ℕ)} (h : Small l) (hl : (l.map Prod.fst).Nodup) :
    Small (Deltas.remove x l) := by
  intro y d hd
  rw [Deltas.remaining_remove hl] at hd
  split at hd
  · cases hd
  · exact h y d hd

end Del

section Tick

/-- The assertions of a wakeup: the process is a zombie, or waits for no interrupt. -/
def Fault.Wakeup : Fault → Prop
  | .sched _ | .notInterrupted => True
  | .addExpires | .addLinked | .headExpired | .loop => False

theorem wakeupTimer_ok (h : s.wakeupTimer x = .ok t) :
    t.timer = s.timer ∧ t.links = s.links ∧ t.adds = s.adds ∧
      ∀ p, p = (s.timer x).proc ∨ (s.sched.proc p).state = .runnable →
        (t.sched.proc p).state = .runnable := by
  unfold State.wakeupTimer at h
  dsimp only at h
  split at h
  · cases h
  split at h
  · cases h
  · rename_i sched hw
    obtain rfl := Except.ok.inj h
    exact ⟨rfl, rfl, rfl, fun p hp => Sched.wakeupProc_runnable hw hp⟩

theorem wakeupTimer_error {f : Fault} (h : s.wakeupTimer x = .error f) : f.Wakeup := by
  unfold State.wakeupTimer at h
  dsimp only at h
  split at h
  · obtain rfl := Except.error.inj h
    trivial
  split at h
  · obtain rfl := Except.error.inj h
    trivial
  · cases h

/-- What the firing of the timers `l` does to the processes. -/
def Woken (s t : State) (l : List ℕ) : Prop :=
  (∀ y, (t.timer y).proc = (s.timer y).proc) ∧
    (∀ y ∈ l, (t.sched.proc (s.timer y).proc).state = .runnable) ∧
      ∀ p, (s.sched.proc p).state = .runnable → (t.sched.proc p).state = .runnable

theorem Woken.trans {u : State} {l l' : List ℕ} (h : Woken s t l) (h' : Woken t u l') :
    Woken s u (l ++ l') := by
  refine ⟨fun y => (h'.1 y).trans (h.1 y), fun y hy => ?_, fun p hp => h'.2.2 p (h.2.2 p hp)⟩
  rcases List.mem_append.mp hy with hy | hy
  · exact h'.2.2 _ (h.2.1 y hy)
  · rw [← h.1 y]
    exact h'.2.1 y hy

theorem fire_spec {suf : List ℕ} (k : Queue s (x :: suf)) (hs : Small (deltas s (x :: suf)))
    (he : s.expires x = 0) (hw : s.wakeupTimer x = .ok t) :
    Queue (t.delTimer x) suf ∧ deltas (t.delTimer x) suf = deltas s suf ∧
      Woken s (t.delTimer x) [x] := by
  obtain ⟨ht, hl, ha, hp⟩ := wakeupTimer_ok hw
  have hdt : deltas t (x :: suf) = deltas s (x :: suf) :=
    deltas_congr fun y _ => by rw [State.expires, State.expires, ht]
  obtain ⟨k', hsch, hpr, hd⟩ := delTimer_spec (x := x) (k.congr hl ha.ge) (hdt ▸ hs)
  rw [List.erase_cons_head] at k' hd
  refine ⟨k', ?_, fun y => ?_, fun y hy => ?_, fun p h => ?_⟩
  · rw [hd, hdt]
    simp [deltas, Deltas.remove, he]
  · rw [hpr y, ht]
  · rw [hsch]
    exact hp _ (.inl (by rw [List.mem_singleton.mp hy]))
  · rw [hsch]
    exact hp p (.inr h)

theorem stopped {suf fired : List ℕ} (k : Queue s (x :: suf)) (he : s.expires x ≠ 0) :
    ∃ ys, Queue s ys ∧ deltas s ys = Deltas.waiting (deltas s (x :: suf)) ∧
      fired = fired ++ (Deltas.expired (deltas s (x :: suf))).map Prod.fst ∧
      Woken s s ((Deltas.expired (deltas s (x :: suf))).map Prod.fst) := by
  have hd : (s.expires x).toNat ≠ 0 := fun h => he (UInt32.toNat_inj.mp h)
  have hx : deltas s (x :: suf) = (x, (s.expires x).toNat) :: deltas s suf := rfl
  rw [hx, Deltas.expired_pos hd, Deltas.waiting_pos hd, ← hx]
  exact ⟨x :: suf, k, rfl, by simp, fun _ => rfl, by simp, fun _ h => h⟩

/-- The loop of `run_timer_list` fires the timers whose difference is zero. -/
theorem fireStep_spec {suf g : List ℕ} {n : ℕ} (k : Queue s (x :: suf))
    (hs : Small (deltas s (x :: suf))) (hn : suf.length < n) :
    ∃ r, iterate fireStep n (s, x, g) = some r ∧ (∀ f, r = .error f → f.Wakeup) ∧
      ∀ t fired', r = .ok (t, fired') → ∃ ys, Queue t ys ∧
        deltas t ys = Deltas.waiting (deltas s (x :: suf)) ∧
        fired' = g ++ (Deltas.expired (deltas s (x :: suf))).map Prod.fst ∧
        Woken s t ((Deltas.expired (deltas s (x :: suf))).map Prod.fst) := by
  induction suf generalizing s x g n with
  | nil =>
    obtain ⟨n, rfl⟩ : ∃ m, n = m + 1 := ⟨n - 1, by omega⟩
    by_cases he : s.expires x = 0
    · have hnext : listNext s.links (.timerLink x) = .timerList := k.next (p := [])
      have hx : deltas s [x] = [(x, 0)] := by simp [deltas, he]
      cases hw : s.wakeupTimer x with
      | error f =>
        refine ⟨.error f, by simp [iterate, fireStep, he, hw], ?_, by simp⟩
        rintro _ ⟨⟩
        exact wakeupTimer_error hw
      | ok u =>
        obtain ⟨k', -, hwk⟩ := fire_spec k hs he hw
        refine ⟨.ok (u.delTimer x, g ++ [x]), by simp [iterate, fireStep, he, hw, hnext],
          by simp, ?_⟩
        rintro _ _ ⟨⟩
        exact ⟨[], k', by rw [hx]; rfl, by simp [hx, Deltas.expired],
          by simpa [hx, Deltas.expired] using hwk⟩
    · refine ⟨.ok (s, g), by simp [iterate, fireStep, he], by simp, ?_⟩
      rintro _ _ ⟨⟩
      exact stopped k he
  | cons y suf ih =>
    obtain ⟨n, rfl⟩ : ∃ m, n = m + 1 := ⟨n - 1, by omega⟩
    by_cases he : s.expires x = 0
    · have hnext : listNext s.links (.timerLink x) = .timerLink y := k.next (p := [])
      have hx : deltas s (x :: y :: suf) = (x, 0) :: deltas s (y :: suf) := by simp [deltas, he]
      cases hw : s.wakeupTimer x with
      | error f =>
        refine ⟨.error f, by simp [iterate, fireStep, he, hw], ?_, by simp⟩
        rintro _ ⟨⟩
        exact wakeupTimer_error hw
      | ok u =>
        obtain ⟨k', hd, hwk⟩ := fire_spec k hs he hw
        have hs' : Small (deltas (u.delTimer x) (y :: suf)) := by
          have := hs.remove (x := x) (by rw [deltas_fst]; exact k.nodup)
          rw [hd]
          simpa [hx, Deltas.remove] using this
        obtain ⟨r, hr, herr, hok⟩ := ih (g := g ++ [x]) k' hs' (n := n)
          (by simp at hn; omega)
        refine ⟨r, by simpa [iterate, fireStep, he, hw, hnext] using hr, herr, ?_⟩
        rintro v fired' rfl
        obtain ⟨ys, kv, hdv, hf, hv⟩ := hok v fired' rfl
        rw [hd] at hdv hf hv
        exact ⟨ys, kv, by simpa [hx] using hdv, by simpa [hx] using hf,
          by simpa [hx] using hwk.trans hv⟩
    · refine ⟨.ok (s, g), by simp [iterate, fireStep, he], by simp, ?_⟩
      rintro _ _ ⟨⟩
      exact stopped k he

/-- `run_timer_list` fires the timers that have one tick left. -/
theorem fireTimers_spec (k : Queue s xs) (hs : Small (deltas s xs))
    (hpos : ∀ x, Deltas.remaining (deltas s xs) x ≠ some 0) :
    (∀ f, s.fireTimers = .error f → f.Wakeup) ∧ ∀ t fired, s.fireTimers = .ok (t, fired) →
      ∃ ys, Queue t ys ∧ fired.Nodup ∧ Woken s t fired ∧
        (∀ x, x ∈ fired ↔ Deltas.remaining (deltas s xs) x = some 1) ∧
        ∀ x, Deltas.remaining (deltas t ys) x =
          if Deltas.remaining (deltas s xs) x = some 1 then none
          else (Deltas.remaining (deltas s xs) x).map (· - 1) := by
  unfold State.fireTimers
  rw [k.next_head]
  cases xs with
  | nil =>
    refine ⟨by simp [first], fun t fired h => ?_⟩
    obtain ⟨rfl, rfl⟩ := Prod.mk.inj (Except.ok.inj h)
    exact ⟨[], k, by simp,
      ⟨fun _ => rfl, by simp, fun _ h => h⟩, by simp [deltas], by simp [deltas]⟩
  | cons x suf =>
    have hx : deltas s (x :: suf) = (x, (s.expires x).toNat) :: deltas s suf := rfl
    have he : s.expires x ≠ 0 := fun h => hpos x (by simp [hx, h])
    have hpred : (s.expires x - 1).toNat = (s.expires x).toNat - 1 := by
      have h0 : (s.expires x).toNat ≠ 0 := fun h => he (UInt32.toNat_inj.mp h)
      have h1 : (1 : UInt32) ≤ s.expires x := UInt32.le_iff_toNat_le.mpr (by simp; omega)
      simpa using UInt32.toNat_sub_of_le _ _ h1
    have hpos' : 0 < (s.expires x).toNat :=
      Nat.pos_of_ne_zero fun h => he (UInt32.toNat_inj.mp h)
    have hnd : ((deltas s (x :: suf)).map Prod.fst).Nodup := by
      rw [deltas_fst]
      exact k.nodup
    have hdec : deltas (s.setExpires x (s.expires x - 1)) (x :: suf) =
        (x, (s.expires x).toNat - 1) :: deltas s suf := by
      have := deltas_setExpires (s := s) (e := s.expires x - 1) (List.nodup_cons.mp k.nodup).1
      simp only [deltas, List.map_cons, setExpires_self, hpred] at this ⊢
      rw [this]
    have hrem : ∀ y, Deltas.remaining ((x, (s.expires x).toNat - 1) :: deltas s suf) y =
        (Deltas.remaining (deltas s (x :: suf)) y).map (· - 1) := fun y => by
      rw [Deltas.remaining_pred hpos', hx]
    have hone : ∀ y, (Deltas.remaining (deltas s (x :: suf)) y).map (· - 1) = some 0 ↔
        Deltas.remaining (deltas s (x :: suf)) y = some 1 := by
      intro y
      have := hpos y
      cases hr : Deltas.remaining (deltas s (x :: suf)) y with
      | none => simp
      | some d =>
        rw [hr] at this
        simp only [Option.map_some, Option.some.injEq, ne_eq] at this ⊢
        omega
    have k₁ : Queue (s.setExpires x (s.expires x - 1)) (x :: suf) := k.congr rfl le_rfl
    have hs₁ : Small (deltas (s.setExpires x (s.expires x - 1)) (x :: suf)) := by
      intro y d hd
      rw [hdec, hrem] at hd
      obtain ⟨e, he, rfl⟩ := Option.map_eq_some_iff.mp hd
      have := hs y e he
      omega
    obtain ⟨r, hr, herr, hok⟩ := fireStep_spec (g := []) (n := s.adds + 1) k₁ hs₁
      (by have := k.length; simp at this; omega)
    have hnd' : (((x, (s.expires x).toNat - 1) :: deltas s suf).map Prod.fst).Nodup := hnd
    simp only [first, if_neg he, setExpires_adds, hr, Option.getD_some]
    refine ⟨herr, fun t fired h => ?_⟩
    obtain ⟨ys, kt, hd, rfl, hwk⟩ := hok t fired h
    rw [hdec] at hd hwk
    rw [List.nil_append, hdec]
    refine ⟨ys, kt, ?_, ?_, fun y => ?_, fun y => ?_⟩
    · exact hnd'.sublist ((List.takeWhile_sublist _).map _)
    · refine ⟨fun y => (hwk.1 y).trans setExpires_proc, fun y hy => ?_, hwk.2.2⟩
      have := hwk.2.1 y hy
      rwa [setExpires_proc] at this
    · rw [Deltas.mem_expired_iff hnd', hrem, hone]
    · rw [hd, Deltas.remaining_waiting hnd', hrem]
      simp only [hone]

end Tick

section Runs

variable {sched : Sched.State} {h : List Op} {op : Op}

/-- The clock that the timer list implements. -/
def Op.clock (c : Clock ℕ) : Op → Clock ℕ
  | .add timer _ expires => c.arm timer expires.toNat
  | .del timer => c.cancel timer
  | .tick => c.tick
  | .other _ => c

def clock (h : List Op) : Clock ℕ := h.foldl Op.clock ⟨0, fun _ => none⟩

/-- The process of the last addition of a timer. -/
def Op.owner (timer : ℕ) (p : Option ℕ) : Op → Option ℕ
  | .add x proc _ => if x = timer then some proc else p
  | .del _ | .tick | .other _ => p

def owner (h : List Op) (timer : ℕ) : Option ℕ := h.foldl (Op.owner timer) none

/-- The state after the steps `h` implements their clock. -/
structure Refines (s : State) (h : List Op) : Prop where
  ahead : (clock h).Ahead
  small : ∀ x d, (clock h).remaining x = some d → d < 2 ^ 32
  queue : ∃ xs, Queue s xs ∧ ∀ x, Deltas.remaining (deltas s xs) x = (clock h).remaining x
  owner : ∀ x p, owner h x = some p → (s.timer x).proc = p

@[simp] theorem clock_append : clock (h ++ [op]) = op.clock (clock h) := by simp [clock]

@[simp] theorem owner_append : owner (h ++ [op]) x = op.owner x (owner h x) := by simp [owner]

namespace Refines

theorem init : Refines (timersInit sched) [] := by
  refine ⟨nofun, nofun, ⟨[], ⟨⟨?_, by simp⟩, ?_, ?_⟩, ?_⟩, ?_⟩
  · simp [timersInit]
  · intro x _
    simp [listEmpty, timersInit]
  · simp
  · intro x
    rfl
  · intro x p hp
    cases hp

theorem unlinked_iff (k : Refines s h) :
    listEmpty s.links (.timerLink x) = true ↔ (clock h).remaining x = none := by
  obtain ⟨xs, q, hr⟩ := k.queue
  rw [← hr, Deltas.remaining_eq_none, deltas_fst]
  constructor
  · intro he hx
    rw [q.mem_iff.mpr hx] at he
    cases he
  · exact q.link x

/-- `add_timer` does not fail. -/
theorem add {p : ℕ} {e : UInt32} (k : Refines s h) (he : s.Enabled (.add x p e)) :
    ∃ t, s.exec (.add x p e) = .ok (t, []) ∧ Refines t (h ++ [.add x p e]) := by
  obtain ⟨xs, q, hr⟩ := k.queue
  have hx : x ∉ xs := by
    have := k.unlinked_iff.mp he.2
    rwa [← hr, Deltas.remaining_eq_none, deltas_fst] at this
  have hself : (s.timerInit x p e).expires x = e := by simp [State.timerInit, State.expires]
  have hd₀ : deltas (s.timerInit x p e) xs = deltas s xs := by
    refine deltas_congr fun y hy => ?_
    have hyx : y ≠ x := fun h => hx (h ▸ hy)
    simp [State.timerInit, State.expires, hyx]
  obtain ⟨t, ys, ht, q', -, hp, hd⟩ := addTimer_spec (q.timerInit (p := p) (e := e) hx) hx
    (by rw [hself]; exact he.1)
  rw [hself, hd₀] at hd
  have hrem : ∀ y, Deltas.remaining (deltas t ys) y =
      (clock (h ++ [.add x p e])).remaining y := by
    intro y
    rw [hd, Deltas.remaining_insert (by rwa [deltas_fst]), hr, clock_append]
    exact Clock.remaining_arm.symm
  refine ⟨t, by simp [State.exec, ht, Except.map], ?_, ?_, ⟨ys, q', hrem⟩, ?_⟩
  · rw [clock_append]
    exact k.ahead.arm (Nat.pos_of_ne_zero fun h => he.1 (UInt32.toNat_inj.mp h))
  · intro y d hy
    rw [clock_append, Op.clock, Clock.remaining_arm] at hy
    split at hy
    · obtain rfl := Option.some.inj hy
      exact e.toNat_lt
    · exact k.small y d hy
  · intro y r hy
    rw [owner_append, Op.owner] at hy
    rw [hp y]
    split at hy
    · subst y
      obtain rfl := Option.some.inj hy
      simp [State.timerInit]
    · rename_i hyx
      rw [← k.owner y r hy]
      simp [State.timerInit, Ne.symm hyx]

theorem del (k : Refines s h) : Refines (s.delTimer x) (h ++ [.del x]) := by
  obtain ⟨xs, q, hr⟩ := k.queue
  have hsmall : Small (deltas s xs) := fun y d hd => k.small y d (hr y ▸ hd)
  obtain ⟨q', -, hp, hd⟩ := delTimer_spec (x := x) q hsmall
  refine ⟨?_, ?_, ⟨_, q', fun y => ?_⟩, fun y r hy => ?_⟩
  · rw [clock_append]
    exact k.ahead.cancel
  · intro y d hy
    rw [clock_append, Op.clock, Clock.remaining_cancel] at hy
    split at hy
    · cases hy
    · exact k.small y d hy
  · rw [hd, Deltas.remaining_remove (by rw [deltas_fst]; exact q.nodup), hr, clock_append]
    exact Clock.remaining_cancel.symm
  · rw [owner_append] at hy
    rw [hp y]
    exact k.owner y r hy

theorem tick (k : Refines s h) :
    (∀ f, s.exec .tick = .error f → f.Wakeup) ∧ ∀ t fired, s.exec .tick = .ok (t, fired) →
      Refines t (h ++ [.tick]) ∧ fired.Nodup ∧ (∀ x, x ∈ fired ↔ (clock h).Rings x) ∧
        ∀ x ∈ fired, (t.sched.proc (s.timer x).proc).state = .runnable := by
  obtain ⟨xs, q, hr⟩ := k.queue
  have hsmall : Small (deltas s xs) := fun y d hd => k.small y d (hr y ▸ hd)
  obtain ⟨herr, hok⟩ := fireTimers_spec q hsmall fun x => hr x ▸ k.ahead.remaining_ne_zero
  unfold State.exec State.runTimerList
  cases hf : s.fireTimers with
  | error f =>
    refine ⟨fun g hg => ?_, fun t fired ht => by cases ht⟩
    obtain rfl := Except.error.inj hg
    exact herr _ hf
  | ok r =>
    obtain ⟨u, fired⟩ := r
    refine ⟨nofun, fun t fired' ht => ?_⟩
    obtain ⟨rfl, rfl⟩ := Prod.mk.inj (Except.ok.inj ht)
    obtain ⟨ys, qu, hnd, hwk, hmem, hrem⟩ := hok u fired hf
    simp only [hr] at hmem hrem
    refine ⟨⟨?_, ?_, ⟨ys, qu.congr rfl le_rfl, fun y => ?_⟩, fun y p hy => ?_⟩, hnd, fun y => ?_,
      fun y hy => ?_⟩
    · rw [clock_append]
      exact k.ahead.tick
    · intro y d hy
      rw [clock_append, Op.clock, k.ahead.remaining_tick] at hy
      split at hy
      · cases hy
      · obtain ⟨e, he, rfl⟩ := Option.map_eq_some_iff.mp hy
        have := k.small y e he
        omega
    · rw [clock_append, Op.clock, k.ahead.remaining_tick, ← hrem y]
      rfl
    · rw [owner_append] at hy
      rw [← k.owner y p hy]
      exact hwk.1 y
    · rw [hmem, k.ahead.rings_iff]
    · exact Sched.schedClassProcTick_state.trans (hwk.2.1 y hy)

theorem step (k : Refines s h) {fired : List ℕ} (he : s.Enabled op)
    (ht : s.exec op = .ok (t, fired)) : Refines t (h ++ [op]) := by
  cases op with
  | add x p e =>
    obtain ⟨u, hu, ku⟩ := k.add he
    rw [hu] at ht
    obtain ⟨rfl, -⟩ := Prod.mk.inj (Except.ok.inj ht)
    exact ku
  | del x =>
    obtain ⟨rfl, -⟩ := Prod.mk.inj (Except.ok.inj ht)
    exact k.del
  | tick => exact (k.tick.2 t fired ht).1
  | other sched =>
    obtain ⟨rfl, -⟩ := Prod.mk.inj (Except.ok.inj ht)
    obtain ⟨xs, q, hr⟩ := k.queue
    refine ⟨?_, ?_, ⟨xs, q.congr rfl le_rfl, ?_⟩, fun y p hy => ?_⟩
    · rw [clock_append]
      exact k.ahead
    · rw [clock_append]
      exact k.small
    · rw [clock_append]
      exact hr
    · rw [owner_append] at hy
      exact k.owner y p hy

end Refines

/-- The runs from a state in which no timer is linked. -/
abbrev Run (sched : Sched.State) (h : List Op) (s : State) : Prop :=
  Library.Runs (fun s op t => s.Enabled op ∧ ∃ fired, s.exec op = .ok (t, fired))
    (timersInit sched) h s

theorem Refines.runs {s₀ : State} {h₀ : List Op} (k : Refines s₀ h₀)
    (r : Library.Runs (fun s op t => s.Enabled op ∧ ∃ fired, s.exec op = .ok (t, fired)) s₀ h s) :
    Refines s (h₀ ++ h) := by
  induction r generalizing h₀ with
  | nil s => simpa using k
  | cons ht _ ih =>
    obtain ⟨he, fired, ht⟩ := ht
    simpa using ih (k.step he ht)

theorem Run.refines (r : Run sched h s) : Refines s h := by simpa using Refines.init.runs r

/-- The number of the calls of `run_timer_list`. -/
def ticks (h : List Op) : ℕ := h.countP fun op => match op with
  | .tick => true
  | .add .. | .del _ | .other _ => false

/-- Neither an addition nor a deletion of the timer. -/
def Op.Spares (x : ℕ) : Op → Prop
  | .add timer _ _ | .del timer => timer ≠ x
  | .tick | .other _ => True

/-- The last addition of the timer is for the process `p`, no deletion came after it, and its time
ends `k` calls of `run_timer_list` after the steps `h`. -/
def Left (h : List Op) (x p k : ℕ) : Prop :=
  ∃ l₁ expires l₂, h = l₁ ++ .add x p expires :: l₂ ∧ (∀ op ∈ l₂, op.Spares x) ∧
    ticks l₂ + k = expires.toNat

/-- The next call of `run_timer_list` is the one of the deadline of the timer. -/
abbrev Due (h : List Op) (x p : ℕ) : Prop := Left h x p 1

section History

variable {k p : ℕ}

theorem ticks_append (l : List Op) :
    ticks (l ++ [op]) = ticks l + if op matches .tick then 1 else 0 := by
  cases op <;> simp [ticks]

theorem left_append :
    Left (h ++ [op]) x p k ↔ (∃ e, op = .add x p e ∧ k = e.toNat) ∨
      op.Spares x ∧ Left h x p (k + if op matches .tick then 1 else 0) := by
  constructor
  · rintro ⟨l₁, e, l₂, hh, hs, ht⟩
    rcases List.eq_nil_or_concat l₂ with rfl | ⟨l₂, o, rfl⟩
    · obtain ⟨rfl, ho⟩ := List.append_inj' hh rfl
      exact .inl ⟨e, by simpa using ho, by simpa [ticks] using ht⟩
    · rw [List.concat_eq_append] at hh hs ht
      rw [← List.cons_append, ← List.append_assoc] at hh
      obtain ⟨rfl, ho⟩ := List.append_inj' hh rfl
      obtain rfl : op = o := by simpa using ho
      rw [ticks_append] at ht
      exact .inr ⟨hs op (by simp), l₁, e, l₂, rfl, fun o ho => hs o (by simp [ho]), by omega⟩
  · rintro (⟨e, rfl, rfl⟩ | ⟨ho, l₁, e, l₂, rfl, hs, ht⟩)
    · exact ⟨h, e, [], rfl, by simp, by simp [ticks]⟩
    · refine ⟨l₁, e, l₂ ++ [op], by simp, fun o h => ?_, ?_⟩
      · rcases List.mem_append.mp h with h | h
        · exact hs o h
        · exact List.mem_singleton.mp h ▸ ho
      · rw [ticks_append]
        omega

/-- The clock and the owner say when a timer was added last. -/
theorem left_iff (hk : 0 < k) :
    Left h x p k ↔ (clock h).remaining x = some k ∧ owner h x = some p := by
  induction h using List.reverseRecOn generalizing k with
  | nil => simp [Left, clock, Clock.remaining]
  | append_singleton h op ih =>
    rw [left_append, clock_append, owner_append]
    cases op with
    | add y q e =>
      have hi := ih hk
      simp only [Op.clock, Op.owner, Op.Spares, Clock.remaining_arm, Op.add.injEq, reduceCtorEq,
        if_false, Nat.add_zero, hi]
      by_cases hy : y = x
      · subst y
        simp only [if_true, Option.some.injEq, ne_eq, not_true, false_and, or_false]
        constructor
        · rintro ⟨e', ⟨-, rfl, rfl⟩, rfl⟩
          exact ⟨rfl, rfl⟩
        · rintro ⟨rfl, rfl⟩
          exact ⟨e, ⟨trivial, rfl, rfl⟩, rfl⟩
      · simp [hy, Ne.symm hy]
    | del y =>
      have hi := ih hk
      simp only [Op.clock, Op.owner, Op.Spares, Clock.remaining_cancel, reduceCtorEq, false_and,
        exists_false, false_or, if_false, Nat.add_zero, hi]
      by_cases hy : y = x
      · simp [hy]
      · simp [hy, Ne.symm hy]
    | tick =>
      simp only [Op.clock, Op.owner, Op.Spares, reduceCtorEq, false_and, exists_false, false_or,
        if_true, true_and, ih (Nat.succ_pos k), Clock.remaining_tick_iff hk]
    | other sched =>
      simp only [Op.clock, Op.owner, Op.Spares, reduceCtorEq, false_and, exists_false, false_or,
        if_false, Nat.add_zero, true_and, ih hk]

theorem exists_owner (hr : (clock h).remaining x = some k) : ∃ p, owner h x = some p := by
  induction h using List.reverseRecOn generalizing k with
  | nil => cases hr
  | append_singleton h op ih =>
    rw [clock_append] at hr
    rw [owner_append]
    cases op with
    | add y q e =>
      rw [Op.clock, Clock.remaining_arm] at hr
      simp only [Op.owner]
      by_cases hy : y = x
      · exact ⟨q, if_pos hy⟩
      · rw [if_neg (Ne.symm hy)] at hr
        rw [if_neg hy]
        exact ih hr
    | del y =>
      rw [Op.clock, Clock.remaining_cancel] at hr
      split at hr
      · cases hr
      · exact ih hr
    | tick =>
      obtain ⟨d, hd⟩ := Clock.remaining_of_tick hr
      exact ih hd
    | other sched => exact ih hr

theorem rings_iff (ha : (clock h).Ahead) : (clock h).Rings x ↔ ∃ p, Due h x p := by
  simp only [Due, left_iff Nat.one_pos]
  rw [ha.rings_iff]
  constructor
  · intro hr
    obtain ⟨p, hp⟩ := exists_owner hr
    exact ⟨p, hr, hp⟩
  · rintro ⟨p, hr, -⟩
    exact hr

theorem clock_congr {c d : Clock ℕ} (l : List Op) (hn : c.now = d.now)
    (hd : c.deadline x = d.deadline x) :
    (l.foldl Op.clock c).now = (l.foldl Op.clock d).now ∧
      (l.foldl Op.clock c).deadline x = (l.foldl Op.clock d).deadline x := by
  induction l generalizing c d with
  | nil => exact ⟨hn, hd⟩
  | cons op l ih =>
    apply ih
    · cases op <;> simp [Op.clock, Clock.arm, Clock.cancel, Clock.tick, hn]
    · cases op <;>
        simp [Op.clock, Clock.arm, Clock.cancel, Clock.tick_deadline, Function.update_apply, hn, hd]

theorem rings_del {l₁ l₂ : List Op} (hx : x ≠ y) :
    (clock (l₁ ++ .del y :: l₂)).Rings x ↔ (clock (l₁ ++ l₂)).Rings x := by
  unfold clock Clock.Rings
  rw [List.foldl_append, List.foldl_append, List.foldl_cons]
  obtain ⟨hn, hd⟩ := clock_congr (x := x) (c := (clock l₁).cancel y) (d := clock l₁) l₂ rfl
    (by simp [Clock.cancel, hx])
  unfold clock at hn hd
  simp only [Op.clock, hn, hd]

end History

/-- A timer fires exactly at the call of `run_timer_list` of its deadline, deletions change this
for no other timer, and the only assertions of the calls that fail are those of wakeups. -/
theorem timerList_deadlines (r : Run sched h s) :
    (∀ op f, s.Enabled op → s.exec op = .error f → op = .tick ∧ f.Wakeup) ∧
    (∀ t fired, s.exec .tick = .ok (t, fired) → fired.Nodup ∧
      ∀ x, (x ∈ fired ↔ ∃ p, Due h x p) ∧ ∀ p, Due h x p →
        listEmpty t.links (.timerLink x) = true ∧ (t.sched.proc p).state = .runnable) ∧
    ∀ l₁ y l₂ u, h = l₁ ++ .del y :: l₂ → Run sched (l₁ ++ l₂) u →
      ∀ t fired t' fired', s.exec .tick = .ok (t, fired) → u.exec .tick = .ok (t', fired') →
        ∀ x, x ≠ y → (x ∈ fired ↔ x ∈ fired') := by
  have k := r.refines
  obtain ⟨herr, hok⟩ := k.tick
  refine ⟨fun op f he hf => ?_, fun t fired ht => ?_, ?_⟩
  · cases op with
    | add x p e =>
      obtain ⟨t, ht, -⟩ := k.add he
      rw [ht] at hf
      cases hf
    | del x => cases hf
    | tick => exact ⟨rfl, herr f hf⟩
    | other sched => cases hf
  · obtain ⟨kt, hnd, hmem, hrun⟩ := hok t fired ht
    refine ⟨hnd, fun x => ⟨(hmem x).trans (rings_iff k.ahead), fun p hp => ?_⟩⟩
    have hx := (rings_iff k.ahead).mpr ⟨p, hp⟩
    refine ⟨kt.unlinked_iff.mpr ?_, ?_⟩
    · rw [clock_append, Op.clock, k.ahead.remaining_tick, if_pos (k.ahead.rings_iff.mp hx)]
    · have howner := k.owner x p ((left_iff Nat.one_pos).mp hp).2
      exact howner ▸ hrun x ((hmem x).mpr hx)
  · rintro l₁ y l₂ u rfl hu t fired t' fired' ht ht' x hx
    obtain ⟨-, -, hmem, -⟩ := hok t fired ht
    obtain ⟨-, -, hmem', -⟩ := (hu.refines.tick).2 t' fired' ht'
    rw [hmem, hmem']
    exact rings_del hx

/-- A step that is enabled and does not fail. -/
def State.tryStep (s : State) (op : Op) : Option State :=
  if s.Enabled op then (s.exec op).toOption.map Prod.fst else none

theorem Run.of_foldlM (hs : h.foldlM State.tryStep (timersInit sched) = some s) :
    Run sched h s := by
  refine (Library.Runs.iff_foldlM.mpr hs).mono fun u op v huv => ?_
  unfold State.tryStep at huv
  split at huv
  · rename_i he
    cases hx : u.exec op with
    | error f => simp [hx, Except.toOption] at huv
    | ok r =>
      obtain rfl : r.1 = v := by simpa [hx, Except.toOption] using huv
      exact ⟨he, r.2, rfl⟩
  · cases huv

/-- The timers 1 and 3 have the same deadline, timer 1 is deleted, and timer 3 fires. -/
theorem timerList_deadlines_shared :
    ∃ sched s t, Run sched
      [.add 1 1 3, .add 2 2 1, .add 3 1 3, .tick, .del 1, .tick] s ∧
      s.exec .tick = .ok (t, [3]) ∧
      Due [.add 1 1 3, .add 2 2 1, .add 3 1 3, .tick, .del 1, .tick] 3 1 ∧
      (t.sched.proc 1).state = .runnable := by
  let sched : Sched.State :=
    { Sched.schedInit with proc := fun _ => ⟨.sleeping, wtTimer, 0, false, 0, false, 0, 0⟩ }
  have hrun : (List.foldlM State.tryStep (timersInit sched)
      [.add 1 1 3, .add 2 2 1, .add 3 1 3, .tick, .del 1, .tick]).map (fun s =>
        (s.exec .tick).toOption.map Prod.snd) = some (some [3]) := by decide +kernel
  obtain ⟨s, hs, hx⟩ := Option.map_eq_some_iff.mp hrun
  have hr := Run.of_foldlM hs
  obtain ⟨-, hfire, -⟩ := timerList_deadlines hr
  cases ht : s.exec .tick with
  | error f => simp [ht, Except.toOption] at hx
  | ok r =>
    obtain ⟨t, fired⟩ := r
    obtain rfl : fired = [3] := by simpa [ht, Except.toOption] using hx
    have hdue : Due [.add 1 1 3, .add 2 2 1, .add 3 1 3, .tick, .del 1, .tick] 3 1 :=
      ⟨[.add 1 1 3, .add 2 2 1], 3, [.tick, .del 1, .tick], rfl, by simp [Op.Spares], rfl⟩
    exact ⟨sched, s, t, hr, ht, hdue, (((hfire t [3] ht).2 3).2 1 hdue).2⟩

end Runs

end UCore.Timers

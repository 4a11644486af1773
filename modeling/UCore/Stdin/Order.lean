import Mathlib.Algebra.Group.Nat.Defs
import Mathlib.Logic.Function.Basic
import UCore.Library.Run
import UCore.Process.State

/-! # Standard input

The model of `kern/fs/devs/dev_stdin.c`: the ring buffer of `stdin`, its two positions and the
processes that wait for characters. Interrupts are off outside of `schedule`, so that a call of
`dev_stdin_read` is one step up to its return or its sleep and another one after each wakeup.
-/

namespace UCore.Stdin

open Library

def stdinBufsize : ℕ := 4096

/-- A call of `dev_stdin_read` in progress: its variables, the bytes stored through `buf`, its
`wait_t` and the state of its process. `sysfile_read` asks for at most 4096 bytes, so that `ret`
stays a small `int`. -/
structure Read where
  len : ℕ
  ret : ℕ
  buf : List UInt8
  wakeupFlags : UInt32
  procState : ProcState
deriving DecidableEq

inductive Call
  | idle
  | inside (r : Read)
  | returned (buf : List UInt8)
deriving DecidableEq

/-- The device. The wait queue lists the calls whose `wait_t` is linked. The last three fields are
not read: the characters for which `p_wpos` advanced, those taken by each call in the order of
`p_rpos`, and those in the buffers of the calls that have returned. -/
structure State where
  stdinBuffer : ℕ → UInt8
  pRpos : ℕ
  pWpos : ℕ
  waitQueue : List ℕ
  call : ℕ → Call
  accepted : List UInt8
  delivered : List (ℕ × UInt8)
  returned : List UInt8

/-- The state after `stdin_device_init`. -/
def init : State where
  stdinBuffer _ := 0
  pRpos := 0
  pWpos := 0
  waitQueue := []
  call _ := .idle
  accepted := []
  delivered := []
  returned := []

/-- `wakeup_wait` of the call. -/
def Call.wakeup (flags : UInt32) : Call → Call
  | .inside r => .inside { r with wakeupFlags := flags, procState := .runnable }
  | c => c

/-- `wakeup_queue`, which takes every call out of the queue. -/
def State.wakeupQueue (s : State) (flags : UInt32) : State :=
  { s with
    waitQueue := []
    call := fun i => if i ∈ s.waitQueue then (s.call i).wakeup flags else s.call i }

/-- The stores of `dev_stdin_write`. The character is stored before the test for a full buffer. -/
def State.put (s : State) (c : UInt8) : State :=
  let s := { s with stdinBuffer := Function.update s.stdinBuffer (s.pWpos % stdinBufsize) c }
  if s.pWpos < s.pRpos + stdinBufsize then
    { s with pWpos := s.pWpos + 1, accepted := s.accepted ++ [c] }
  else s

def devStdinWrite (s : State) (c : UInt8) : State :=
  if c ≠ 0 then
    if (s.put c).waitQueue ≠ [] then (s.put c).wakeupQueue wtKbd else s.put c
  else s

def State.setCall (s : State) (i : ℕ) (c : Call) : State :=
  { s with call := Function.update s.call i c }

/-- The character at `p_rpos`. -/
def State.front (s : State) : UInt8 := s.stdinBuffer (s.pRpos % stdinBufsize)

/-- `p_rpos ++` for call `i`. -/
def State.advance (s : State) (i : ℕ) : State :=
  { s with pRpos := s.pRpos + 1, delivered := s.delivered ++ [(i, s.front)] }

/-- `*buf ++ = c` and `ret ++`. -/
def Read.store (r : Read) (c : UInt8) : Read := { r with buf := r.buf ++ [c], ret := r.ret + 1 }

/-- The return of `dev_stdin_read` with the first `ret` bytes of its buffer. -/
def State.finish (s : State) (i : ℕ) (r : Read) : State :=
  { s.setCall i (.returned (r.buf.take r.ret)) with
    returned := s.returned ++ r.buf.take r.ret }

/-- `wait_current_set` before `schedule`. -/
def State.sleep (s : State) (i : ℕ) (r : Read) : State :=
  { s.setCall i (.inside { r with wakeupFlags := wtInterrupted, procState := .sleeping }) with
    waitQueue := s.waitQueue ++ [i] }

/-- The loop of `dev_stdin_read` with `n` bytes to go, up to its return or its sleep. -/
def readLoop (i : ℕ) : ℕ → State → Read → State
  | 0, s, r => s.finish i r
  | n + 1, s, r =>
    if s.pRpos < s.pWpos then readLoop i n (s.advance i) (r.store s.front) else s.sleep i r

/-- `dev_stdin_read` from its start. -/
def devStdinRead (s : State) (i len : ℕ) : State :=
  readLoop i len s ⟨len, 0, [], 0, .runnable⟩

/-- `dev_stdin_read` after `schedule` has returned. -/
def devStdinResume (s : State) (i : ℕ) (r : Read) : State :=
  let s := { s with waitQueue := s.waitQueue.filter (· ≠ i) }
  if r.wakeupFlags = wtKbd then readLoop i (r.len - r.ret) s r else s.finish i r

/-- The steps: a character of the keyboard, a new call, the return of `schedule` in a call, and the
wakeup that `do_kill` makes of a sleeping call. -/
inductive Event
  | write (c : UInt8)
  | read (i len : ℕ)
  | resume (i : ℕ)
  | kill (i : ℕ)

/-- One step; `none` when it cannot be taken. The positions are `off_t` of 64 bits: an increment
beyond them is undefined and no step. -/
def step (s : State) : Event → Option State
  | .write c => if s.pWpos < 2 ^ 63 - 1 then some (devStdinWrite s c) else none
  | .read i len => if s.call i = .idle then some (devStdinRead s i len) else none
  | .resume i =>
    match s.call i with
    | .inside r => if r.procState = .runnable then some (devStdinResume s i r) else none
    | _ => none
  | .kill i =>
    match s.call i with
    | .inside r => some (s.setCall i (.inside { r with procState := .runnable }))
    | _ => none

/-! ## Order of standard input

The buffer holds the accepted characters that no call has taken. They are taken in the order in
which they were accepted, as long as no character is written into a full buffer over another one.
-/

variable {s s' : State} {r : Read} {c : UInt8} {i j k n : ℕ}

/-- The characters between the two positions. -/
def State.pending (s : State) : List UInt8 :=
  (List.range' s.pRpos (s.pWpos - s.pRpos)).map fun k => s.stdinBuffer (k % stdinBufsize)

/-- The bytes that a call has stored. -/
def Call.bytes : Call → List UInt8
  | .idle => []
  | .inside r => r.buf
  | .returned buf => buf

/-- The characters that call `i` has taken. -/
def State.taken (s : State) (i : ℕ) : List UInt8 :=
  (s.delivered.filter fun d => d.1 = i).map Prod.snd

/-- What the steps keep. -/
structure InOrder (s : State) : Prop where
  le : s.pRpos ≤ s.pWpos
  room : s.pWpos ≤ s.pRpos + stdinBufsize
  log : s.accepted = s.delivered.map Prod.snd ++ s.pending
  bytes : ∀ i, (s.call i).bytes = s.taken i
  ret : ∀ i r, s.call i = .inside r → r.ret = r.buf.length

/-- A character does not find the buffer full, or finds itself in its place. -/
def Guarded (s : State) : Event → Prop
  | .write c => c ≠ 0 → s.pWpos < s.pRpos + stdinBufsize ∨
      s.stdinBuffer (s.pWpos % stdinBufsize) = c
  | _ => True

theorem init_inOrder : InOrder init :=
  ⟨Nat.le_refl _, Nat.zero_le _, rfl, fun _ => rfl, fun _ _ h => nomatch h⟩

theorem InOrder.wake (h : InOrder s) {call : ℕ → Call} (queue : List ℕ)
    (hb : ∀ i, (call i).bytes = (s.call i).bytes)
    (hr : ∀ i r, call i = .inside r → ∃ r', s.call i = .inside r' ∧ r.buf = r'.buf ∧
    r.ret = r'.ret) :
    InOrder { s with call := call, waitQueue := queue } := by
  refine ⟨h.le, h.room, h.log, fun i => (hb i).trans (h.bytes i), fun i r hi => ?_⟩
  obtain ⟨r', hr', h₁, h₂⟩ := hr i r hi
  rw [h₁, h₂]
  exact h.ret i r' hr'

theorem InOrder.wakeupQueue (h : InOrder s) (flags : UInt32) : InOrder (s.wakeupQueue flags) := by
  refine h.wake [] (fun i => ?_) fun i r hi => ?_
  · split
    · cases s.call i <;> rfl
    · rfl
  · split at hi
    · cases hc : s.call i with
      | idle => simp [hc, Call.wakeup] at hi
      | inside r' =>
        obtain rfl : { r' with wakeupFlags := flags, procState := .runnable } = r := by
          simpa [hc, Call.wakeup] using hi
        exact ⟨r', rfl, rfl, rfl⟩
      | returned buf => simp [hc, Call.wakeup] at hi
    · exact ⟨r, hi, rfl, rfl⟩

/-! ## The keyboard -/

theorem put_of_lt (hroom : s.pWpos < s.pRpos + stdinBufsize) :
    s.put c = { s with
      stdinBuffer := Function.update s.stdinBuffer (s.pWpos % stdinBufsize) c
      pWpos := s.pWpos + 1
      accepted := s.accepted ++ [c] } := by
  unfold State.put
  exact if_pos hroom

theorem put_of_le (hfull : s.pRpos + stdinBufsize ≤ s.pWpos) :
    s.put c = { s with
      stdinBuffer := Function.update s.stdinBuffer (s.pWpos % stdinBufsize) c } := by
  unfold State.put
  exact if_neg (Nat.not_lt.mpr hfull)

theorem put_pending (hle : s.pRpos ≤ s.pWpos) (hroom : s.pWpos < s.pRpos + stdinBufsize)
    (c : UInt8) :
    (s.put c).pending = s.pending ++ [c] := by
  have hlen : s.pWpos + 1 - s.pRpos = s.pWpos - s.pRpos + 1 := by omega
  have hlast : s.pRpos + (s.pWpos - s.pRpos) = s.pWpos := by omega
  rw [put_of_lt hroom]
  simp only [State.pending, hlen, List.range'_concat, List.map_append, Nat.one_mul, hlast,
    List.map_cons, List.map_nil, Function.update_self]
  congr 1
  refine List.map_congr_left fun k hk => Function.update_of_ne ?_ _ _
  rw [List.mem_range'_1] at hk
  unfold stdinBufsize at *
  omega

theorem put_inOrder (h : InOrder s) (hg : s.pWpos < s.pRpos + stdinBufsize ∨
    s.stdinBuffer (s.pWpos % stdinBufsize) = c) : InOrder (s.put c) := by
  by_cases hroom : s.pWpos < s.pRpos + stdinBufsize
  · have hp := put_pending h.le hroom c
    have hle := h.le
    rw [put_of_lt hroom] at hp ⊢
    refine ⟨Nat.le_succ_of_le hle, hroom, ?_, h.bytes, h.ret⟩
    rw [hp, ← List.append_assoc, ← h.log]
  · rw [put_of_le (Nat.not_lt.mp hroom), ← hg.resolve_left hroom, Function.update_eq_self]
    exact h

theorem devStdinWrite_inOrder (h : InOrder s) (hg : Guarded s (.write c)) :
    InOrder (devStdinWrite s c) := by
  unfold devStdinWrite
  split
  · have hput := put_inOrder h (hg ‹_›)
    split
    · exact hput.wakeupQueue wtKbd
    · exact hput
  · exact h

theorem devStdinWrite_full (hfull : s.pWpos = s.pRpos + stdinBufsize) (hc : c ≠ 0) :
    (devStdinWrite s c).pRpos = s.pRpos ∧ (devStdinWrite s c).pWpos = s.pWpos ∧
      (devStdinWrite s c).accepted = s.accepted ∧
      ((devStdinWrite s c).pending = s.pending ↔ s.front = c) := by
  have hstored : (devStdinWrite s c).stdinBuffer =
        Function.update s.stdinBuffer (s.pRpos % stdinBufsize) c ∧
      (devStdinWrite s c).pRpos = s.pRpos ∧ (devStdinWrite s c).pWpos = s.pWpos ∧
      (devStdinWrite s c).accepted = s.accepted := by
    have hslot : s.pWpos % stdinBufsize = s.pRpos % stdinBufsize := by
      rw [hfull, Nat.add_mod_right]
    unfold devStdinWrite
    rw [if_pos hc, put_of_le (Nat.le_of_eq hfull.symm), hslot]
    split <;> exact ⟨rfl, rfl, rfl, rfl⟩
  obtain ⟨hb, h₁, h₂, h₃⟩ := hstored
  refine ⟨h₁, h₂, h₃, ?_⟩
  unfold State.pending State.front
  rw [hb, h₁, h₂]
  constructor
  · intro he
    have hm : s.pRpos ∈ List.range' s.pRpos (s.pWpos - s.pRpos) := by
      rw [List.mem_range'_1]
      unfold stdinBufsize at hfull
      omega
    have := List.map_inj_left.mp he s.pRpos hm
    rw [Function.update_self] at this
    exact this.symm
  · intro he
    rw [← he, Function.update_eq_self]

/-! ## The readers -/

/-- Call `i` has the variables `r`, whatever `s` records of it. -/
structure Reading (i : ℕ) (s : State) (r : Read) : Prop where
  le : s.pRpos ≤ s.pWpos
  room : s.pWpos ≤ s.pRpos + stdinBufsize
  log : s.accepted = s.delivered.map Prod.snd ++ s.pending
  bytes : ∀ j ≠ i, (s.call j).bytes = s.taken j
  ret : ∀ j r, j ≠ i → s.call j = .inside r → r.ret = r.buf.length
  own : r.buf = s.taken i
  count : r.ret = r.buf.length

theorem InOrder.reading (h : InOrder s) (queue : List ℕ) (hb : r.buf = (s.call i).bytes)
    (hr : r.ret = r.buf.length) : Reading i { s with waitQueue := queue } r :=
  ⟨h.le, h.room, h.log, fun j _ => h.bytes j, fun j r _ => h.ret j r, hb.trans (h.bytes i), hr⟩

theorem Reading.inOrder (h : Reading i s r) {c : Call} (queue : List ℕ) (ret : List UInt8)
    (hb : c.bytes = r.buf) (hr : ∀ r', c = .inside r' → r'.ret = r'.buf.length) :
    InOrder { s.setCall i c with waitQueue := queue, returned := ret } := by
  refine ⟨h.le, h.room, h.log, fun j => ?_, fun j r' hj => ?_⟩
  · by_cases hji : j = i
    · subst hji
      show (Function.update s.call j c j).bytes = s.taken j
      rw [Function.update_self, hb]
      exact h.own
    · show (Function.update s.call i c j).bytes = s.taken j
      rw [Function.update_of_ne hji]
      exact h.bytes j hji
  · by_cases hji : j = i
    · subst hji
      exact hr r' (by simpa [State.setCall] using hj)
    · exact h.ret j r' hji (by simpa [State.setCall, hji] using hj)

theorem Reading.finish (h : Reading i s r) : InOrder (s.finish i r) := by
  have htake : r.buf.take r.ret = r.buf := by rw [h.count, List.take_length]
  unfold State.finish
  rw [htake]
  exact h.inOrder _ _ rfl nofun

theorem Reading.sleep (h : Reading i s r) : InOrder (s.sleep i r) := by
  refine h.inOrder _ _ rfl ?_
  rintro _ ⟨⟩
  exact h.count

theorem Reading.advance (h : Reading i s r) (hlt : s.pRpos < s.pWpos) :
    Reading i (s.advance i) (r.store s.front) := by
  have htaken : ∀ j, (s.advance i).taken j = s.taken j ++ if i = j then [s.front] else [] := by
    intro j
    by_cases hij : i = j <;> simp [State.taken, State.advance, List.filter_append, hij]
  have hpending : s.pending = s.front :: (s.advance i).pending := by
    have hlen : s.pWpos - s.pRpos = s.pWpos - (s.pRpos + 1) + 1 := by omega
    unfold State.pending
    rw [hlen, List.range'_succ]
    rfl
  refine ⟨hlt, by have := h.room; dsimp only [State.advance]; omega, ?_, fun j hj => ?_,
    h.ret, ?_, ?_⟩
  · show s.accepted = _
    rw [h.log, hpending]
    simp [State.advance]
  · rw [htaken, if_neg (Ne.symm hj), List.append_nil]
    exact h.bytes j hj
  · rw [htaken, if_pos rfl, ← h.own]
    rfl
  · simp [Read.store, h.count]

theorem readLoop_inOrder (h : Reading i s r) : InOrder (readLoop i n s r) := by
  induction n generalizing s r with
  | zero => exact h.finish
  | succ n ih =>
    unfold readLoop
    split
    · exact ih (h.advance ‹_›)
    · exact h.sleep

/-- One step keeps the order. -/
theorem InOrder.step {e : Event} (h : InOrder s) (hg : Guarded s e) (hs : step s e = some s') :
    InOrder s' := by
  cases e with
  | write c =>
    obtain ⟨-, hs⟩ := Option.ite_none_right_eq_some.mp hs
    obtain rfl := Option.some.inj hs
    exact devStdinWrite_inOrder h hg
  | read i len =>
    obtain ⟨hi, hs⟩ := Option.ite_none_right_eq_some.mp hs
    obtain rfl := Option.some.inj hs
    exact readLoop_inOrder (h.reading s.waitQueue (by rw [hi]; rfl) rfl)
  | resume i =>
    unfold Stdin.step at hs
    cases hc : s.call i with
    | idle => simp [hc] at hs
    | returned buf => simp [hc] at hs
    | inside r =>
      have hr := h.ret i r hc
      simp only [hc] at hs
      obtain ⟨-, hs⟩ := Option.ite_none_right_eq_some.mp hs
      obtain rfl := Option.some.inj hs
      have hread : ∀ queue, Reading i { s with waitQueue := queue } r :=
        fun queue => h.reading queue (by rw [hc]; rfl) hr
      unfold devStdinResume
      dsimp only
      split
      · exact readLoop_inOrder (hread _)
      · exact (hread _).finish
  | kill i =>
    unfold Stdin.step at hs
    cases hc : s.call i with
    | idle => simp [hc] at hs
    | returned buf => simp [hc] at hs
    | inside r =>
      simp only [hc, Option.some.injEq] at hs
      subst hs
      refine (h.reading (i := i) (r := r) s.waitQueue (by rw [hc]; rfl) (h.ret i r hc)).inOrder
        s.waitQueue s.returned rfl ?_
      rintro _ ⟨⟩
      exact h.ret i r hc

/-! ## One reader at a time -/

/-- A call starts when no other one is in progress. -/
def Alone (s : State) : Event → Prop
  | .read _ _ => ∀ j r, s.call j ≠ .inside r
  | _ => True

/-- The buffers of the calls, one after the other, hold the characters that were taken. -/
def Sequential (s : State) : Prop :=
  (∀ j r, s.call j ≠ .inside r) ∧ s.returned = s.delivered.map Prod.snd ∨
  ∃ i r, s.call i = .inside r ∧ (∀ j r', j ≠ i → s.call j ≠ .inside r') ∧
    s.returned ++ r.buf = s.delivered.map Prod.snd

theorem setCall_call (c : Call) : (s.setCall i c).call j = if j = i then c else s.call j :=
  Function.update_apply _ _ _ _

theorem finish_sequential (hn : ∀ j r', j ≠ i → s.call j ≠ .inside r')
    (hr : r.ret = r.buf.length) (hl : s.returned ++ r.buf = s.delivered.map Prod.snd) :
    Sequential (s.finish i r) := by
  left
  constructor
  · intro j r' hj
    rw [State.finish, setCall_call] at hj
    split at hj
    · cases hj
    · exact hn j r' ‹_› hj
  · show s.returned ++ r.buf.take r.ret = _
    rw [hr, List.take_length]
    exact hl

theorem setCall_sequential (hn : ∀ j r', j ≠ i → s.call j ≠ .inside r')
    (hl : s.returned ++ r.buf = s.delivered.map Prod.snd) (queue : List ℕ) :
    Sequential { s.setCall i (.inside r) with waitQueue := queue } := by
  refine .inr ⟨i, r, ?_, fun j r' hj => ?_, hl⟩
  · show (s.setCall i (.inside r)).call i = _
    rw [setCall_call, if_pos rfl]
  · show (s.setCall i (.inside r)).call j ≠ _
    rw [setCall_call, if_neg hj]
    exact hn j r' hj

theorem readLoop_sequential (hn : ∀ j r', j ≠ i → s.call j ≠ .inside r')
    (hr : r.ret = r.buf.length) (hl : s.returned ++ r.buf = s.delivered.map Prod.snd) :
    Sequential (readLoop i n s r) := by
  induction n generalizing s r with
  | zero => exact finish_sequential hn hr hl
  | succ n ih =>
    unfold readLoop
    split
    · refine ih hn (by simp [Read.store, hr]) ?_
      show s.returned ++ (r.buf ++ [s.front]) = (s.delivered ++ [(i, s.front)]).map Prod.snd
      rw [← List.append_assoc, hl, List.map_append]
      rfl
    · unfold State.sleep
      apply setCall_sequential
      · exact hn
      · exact hl

theorem Sequential.wakeupQueue (h : Sequential s) (flags : UInt32) :
    Sequential (s.wakeupQueue flags) := by
  have hinside : ∀ j r, (s.wakeupQueue flags).call j = .inside r →
      ∃ r', s.call j = .inside r' := by
    intro j r hj
    unfold State.wakeupQueue at hj
    dsimp only at hj
    split at hj
    · cases hc : s.call j with
      | idle => simp [hc, Call.wakeup] at hj
      | inside r' => exact ⟨r', rfl⟩
      | returned buf => simp [hc, Call.wakeup] at hj
    · exact ⟨r, hj⟩
  rcases h with ⟨hn, hl⟩ | ⟨i, r, hi, hn, hl⟩
  · refine .inl ⟨fun j r hj => ?_, hl⟩
    obtain ⟨r', hr'⟩ := hinside j r hj
    exact hn j r' hr'
  · have hother : ∀ j r', j ≠ i → (s.wakeupQueue flags).call j ≠ .inside r' := by
      intro j r' hji hj
      obtain ⟨r'', hr''⟩ := hinside j r' hj
      exact hn j r'' hji hr''
    by_cases hm : i ∈ s.waitQueue
    · refine .inr ⟨i, { r with wakeupFlags := flags, procState := .runnable }, ?_, hother, hl⟩
      simp [State.wakeupQueue, hm, hi, Call.wakeup]
    · exact .inr ⟨i, r, by simp [State.wakeupQueue, hm, hi], hother, hl⟩

theorem devStdinWrite_sequential (h : Sequential s) : Sequential (devStdinWrite s c) := by
  have hput : Sequential (s.put c) := by
    unfold State.put
    dsimp only
    split <;> exact h
  unfold devStdinWrite
  split
  · split
    · exact hput.wakeupQueue wtKbd
    · exact hput
  · exact h

theorem Sequential.step {e : Event} (h : Sequential s) (ho : InOrder s) (ha : Alone s e)
    (hs : step s e = some s') : Sequential s' := by
  -- a call that goes on is the one in progress
  have hgo : ∀ i r, s.call i = .inside r → (∀ j r', j ≠ i → s.call j ≠ .inside r') ∧
      s.returned ++ r.buf = s.delivered.map Prod.snd := by
    intro i r hi
    rcases h with ⟨hn, -⟩ | ⟨j, r', hj, hn, hl⟩
    · exact absurd hi (hn i r)
    · obtain rfl : i = j := by
        by_contra hij
        exact hn i r hij hi
      obtain rfl := Call.inside.inj (hi.symm.trans hj)
      exact ⟨hn, hl⟩
  cases e with
  | write c =>
    obtain ⟨-, hs⟩ := Option.ite_none_right_eq_some.mp hs
    obtain rfl := Option.some.inj hs
    exact devStdinWrite_sequential h
  | read i len =>
    obtain ⟨hi, hs⟩ := Option.ite_none_right_eq_some.mp hs
    obtain rfl := Option.some.inj hs
    rcases h with ⟨-, hl⟩ | ⟨j, r, hj, -⟩
    · exact readLoop_sequential (fun j r' _ => ha j r') rfl (by rw [List.append_nil, hl])
    · exact absurd hj (ha j r)
  | resume i =>
    unfold Stdin.step at hs
    cases hc : s.call i with
    | idle => simp [hc] at hs
    | returned buf => simp [hc] at hs
    | inside r =>
      obtain ⟨hn, hl⟩ := hgo i r hc
      simp only [hc] at hs
      obtain ⟨-, hs⟩ := Option.ite_none_right_eq_some.mp hs
      obtain rfl := Option.some.inj hs
      unfold devStdinResume
      dsimp only
      split
      · exact readLoop_sequential hn (ho.ret i r hc) hl
      · exact finish_sequential hn (ho.ret i r hc) hl
  | kill i =>
    unfold Stdin.step at hs
    cases hc : s.call i with
    | idle => simp [hc] at hs
    | returned buf => simp [hc] at hs
    | inside r =>
      obtain ⟨hn, hl⟩ := hgo i r hc
      simp only [hc, Option.some.injEq] at hs
      subst hs
      exact setCall_sequential (r := { r with procState := .runnable }) hn hl s.waitQueue

/-! ## Runs -/

/-- The characters taken are the first of the accepted ones, in order, and the rest is pending.
Every call has returned what it took, and a character that finds the buffer full changes nothing. -/
structure Delivers (s : State) : Prop where
  ordered : s.delivered.map Prod.snd <+: s.accepted
  rest : s.accepted = s.delivered.map Prod.snd ++ s.pending
  each : ∀ i buf, s.call i = .returned buf → buf = s.taken i
  full : ∀ c, c ≠ 0 → s.pWpos = s.pRpos + stdinBufsize → Guarded s (.write c) →
    (devStdinWrite s c).pRpos = s.pRpos ∧ (devStdinWrite s c).accepted = s.accepted ∧
      (devStdinWrite s c).pending = s.pending

theorem InOrder.delivers (h : InOrder s) : Delivers s := by
  refine ⟨⟨s.pending, h.log.symm⟩, h.log, fun i buf hi => ?_, fun c hc hfull hg => ?_⟩
  · rw [← h.bytes i, hi]
    rfl
  · obtain ⟨h₁, -, h₂, h₃⟩ := devStdinWrite_full hfull hc
    have hsame : s.front = c := by
      have := (hg hc).resolve_left (by omega)
      rwa [hfull, Nat.add_mod_right] at this
    exact ⟨h₁, h₂, h₃.mpr hsame⟩

/-- Along every run in which no character is written into a full buffer over another one, the
readers get the accepted characters in order. With one reader at a time so do the buffers
returned. -/
theorem stdin_in_order (es : List Event) (s : State)
    (hruns : Runs (fun s e s' => Guarded s e ∧ step s e = some s') init es s) :
    Delivers s ∧ (Runs (fun s e s' => (Guarded s e ∧ Alone s e) ∧ step s e = some s') init es s →
      s.returned <+: s.accepted) := by
  have hdelivers : Delivers s :=
    (hruns.invariant (fun s e s' h hs => h.step hs.1 hs.2) init_inOrder).delivers
  refine ⟨hdelivers, fun halone => ?_⟩
  obtain ⟨-, h⟩ := halone.invariant (P := fun s => InOrder s ∧ Sequential s)
    (fun s e s' h hs => ⟨h.1.step hs.1.1 hs.2, h.2.step h.1 hs.1.2 hs.2⟩)
    ⟨init_inOrder, .inl ⟨fun _ _ => nofun, rfl⟩⟩
  obtain ⟨l, hl⟩ := hdelivers.ordered
  rcases h with ⟨-, h⟩ | ⟨i, r, -, -, h⟩
  · exact ⟨l, by rw [h, hl]⟩
  · exact ⟨r.buf ++ l, by rw [← List.append_assoc, h, hl]⟩

theorem stdin_in_order_one :
    ∃ s, Runs (fun s e s' => (Guarded s e ∧ Alone s e) ∧ step s e = some s')
      init [.write 97, .read 0 1] s ∧ s.returned = [97] ∧ Delivers s ∧
        s.returned <+: s.accepted := by
  have hrun : Runs (fun s e s' => (Guarded s e ∧ Alone s e) ∧ step s e = some s') init
      [.write 97, .read 0 1] (devStdinRead (devStdinWrite init 97) 0 1) :=
    .cons ⟨⟨fun _ => .inl (by decide), trivial⟩, rfl⟩
      (.cons ⟨⟨trivial, fun _ _ => nofun⟩, rfl⟩ (.nil _))
  obtain ⟨hdelivers, hreturned⟩ :=
    stdin_in_order _ _ (hrun.mono fun _ _ _ h => ⟨h.1.1, h.2⟩)
  exact ⟨_, hrun, rfl, hdelivers, hreturned hrun⟩

/-! ## A full buffer -/

/-- The device after `n` characters `c` that nobody has read. -/
def filled (c : UInt8) (n : ℕ) : State :=
  { init with
    stdinBuffer := fun i => if i < n then c else 0
    pWpos := n
    accepted := List.replicate n c }

theorem filled_step (hc : c ≠ 0) (hn : n < stdinBufsize) :
    step (filled c n) (.write c) = some (filled c (n + 1)) := by
  have hput : (filled c n).put c = filled c (n + 1) := by
    rw [put_of_lt (by simpa [filled, init] using hn)]
    simp only [filled, List.replicate_succ', Nat.mod_eq_of_lt hn]
    congr 1
    funext i
    rw [Function.update_apply]
    by_cases hi : i = n
    · rw [if_pos hi, if_pos (by omega)]
    · rw [if_neg hi]
      by_cases hlt : i < n
      · rw [if_pos hlt, if_pos (by omega)]
      · rw [if_neg hlt, if_neg (by omega)]
  have hsmall : (filled c n).pWpos < 2 ^ 63 - 1 := by
    unfold stdinBufsize at hn
    simp only [filled]
    omega
  simp only [step, devStdinWrite, hput, if_pos hsmall, if_pos hc]
  rfl

theorem filled_runs (hc : c ≠ 0) (hn : n ≤ stdinBufsize) :
    Runs (fun s e s' => step s e = some s') init (List.replicate n (.write c)) (filled c n) := by
  induction n with
  | zero =>
    have h0 : filled c 0 = init := by simp [filled, init]
    rw [h0]
    exact .nil _
  | succ n ih =>
    rw [List.replicate_succ']
    exact (ih (by omega)).append (.cons (filled_step hc (by omega)) (.nil _))

/-- One more character than the buffer holds: it is not accepted, and the next reader gets it. -/
theorem stdin_full_overwrites : ∃ s, Runs (fun s e s' => step s e = some s') init
      (List.replicate 4096 (.write 97) ++ [.write 98, .read 0 1]) s ∧
    s.accepted = List.replicate 4096 97 ∧ s.delivered = [(0, 98)] ∧
    ¬ s.delivered.map Prod.snd <+: s.accepted := by
  have hput : (filled 97 4096).put 98 = { filled 97 4096 with
      stdinBuffer := Function.update (filled 97 4096).stdinBuffer 0 98 } :=
    put_of_le (by decide)
  have hwrite : step (filled 97 4096) (.write 98) = some { filled 97 4096 with
      stdinBuffer := Function.update (filled 97 4096).stdinBuffer 0 98 } := by
    simp only [step, devStdinWrite, hput]
    rfl
  refine ⟨_, (filled_runs (by decide) (by decide)).append (.cons hwrite (.cons rfl (.nil _))),
    rfl, rfl, ?_⟩
  intro h
  have hm : (98 : UInt8) ∈ List.replicate 4096 97 := h.subset (by decide)
  exact absurd (List.eq_of_mem_replicate hm) (by decide)

end UCore.Stdin

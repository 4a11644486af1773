import UCore.Library.Run
import UCore.Process.Exit

/-! # Runs of the process table

Any process takes any step, in any order. Beside the table we keep the processes that were created
and not yet reaped, how often each address was used for a process, and the processes that were
reaped.
-/

namespace UCore.Process

open Library

inductive Event
  | fork (current : ℕ) (mem : Option ℕ) (resources : Bool)
  | exit (current : ℕ) (errorCode : ℤ)
  | wait (current : ℕ) (pid : ℤ)
  | resume (current : ℕ)
  | kill (pid : ℤ)
  | block (current : ℕ) (waitState : UInt32)
  | wake (proc : ℕ)

structure Sys where
  table : State
  alive : Finset ℕ
  births : ℕ → ℕ
  reaped : List (ℕ × ℕ)

namespace Sys

variable (s : Sys)

/-- The process can be running, outside of `do_wait`. -/
def Ready (current : ℕ) : Prop :=
  (current = idleproc ∨ current ∈ s.alive) ∧ (s.table.proc current).state = .runnable ∧
    s.table.inWait current = none

instance (current : ℕ) : Decidable (s.Ready current) :=
  inferInstanceAs (Decidable (_ ∧ _ ∧ _))

/-- The memory that `kmalloc` gives is not in use. -/
def Unused (mem : Option ℕ) : Prop :=
  ∀ a, mem = some a → a ∉ s.alive ∧ a ≠ idleproc

instance (mem : Option ℕ) : Decidable (s.Unused mem) :=
  match mem with
  | none => isTrue (by simp [Unused])
  | some a => decidable_of_iff (a ∉ s.alive ∧ a ≠ idleproc) (by simp [Unused])

/-- The process in `mem` was created when `do_fork` returned its pid. -/
def forked (mem : Option ℕ) (r : ℤ) (t : State) : Sys :=
  match mem with
  | some a =>
    if 0 < r then
      { s with
        table := t
        alive := insert a s.alive
        births := Function.update s.births a (s.births a + 1) }
    else { s with table := t }
  | none => { s with table := t }

def waited (r : WaitResult) (t : State) : Sys :=
  match r with
  | .reaped a =>
    { s with table := t, alive := s.alive.erase a, reaped := (a, s.births a) :: s.reaped }
  | _ => { s with table := t }

def step : Event → Option Sys
  | .fork current mem resources =>
    if s.Ready current ∧ s.Unused mem then
      (s.table.doFork current mem resources).map fun r => s.forked mem r.1 r.2
    else none
  | .exit current errorCode =>
    if s.Ready current then
      (s.table.doExit current errorCode).map fun t => { s with table := t }
    else none
  | .wait current pid =>
    if s.Ready current then (s.table.doWait current pid).map fun r => s.waited r.1 r.2
    else none
  | .resume current =>
    match s.table.inWait current with
    | some pid =>
      if (s.table.proc current).state = .runnable then
        (s.table.wakeInWait current pid).map fun r =>
          match r.1 with
          | some w => s.waited w r.2
          | none => { s with table := r.2 }
      else none
    | none => none
  | .kill pid => (s.table.doKill pid).map fun r => { s with table := r.2 }
  | .block current waitState =>
    if s.Ready current ∧ waitState ≠ wtChild then
      some { s with
        table := s.table.setProc current fun x =>
          { x with state := .sleeping, waitState := waitState } }
    else none
  | .wake proc =>
    if proc ∈ s.alive then (s.table.wakeupProc proc).map fun t => { s with table := t }
    else none

/-- `proc_init` before it makes `initproc`. -/
def start : Sys where
  table :=
    { proc := Function.update (fun _ => ⟨.uninit, -1, none, none, none, none, 0, 0, 0⟩) idleproc
        ⟨.runnable, 0, none, none, none, none, 0, 0, 0⟩
      procList := ⟨id, id⟩
      hashList := ⟨id, id⟩
      nrProcess := 1
      lastPid := maxPid
      nextSafe := maxPid
      inWait := fun _ => none }
  alive := ∅
  births := fun _ => 0
  reaped := []

/-- The state after `proc_init` and these steps. -/
def after (l : List Event) : Option Sys :=
  (.fork idleproc (some initproc) true :: l).foldlM Sys.step start

/-- What every run keeps. -/
structure Inv (s : Sys) : Prop where
  good : Good s.table s.alive
  once : s.reaped.Nodup
  old : ∀ a n, (a, n) ∈ s.reaped → n ≤ s.births a ∧ (a ∈ s.alive → n < s.births a)

variable {s} {t : Sys} {u : State} {e : Event} {a p : ℕ}

theorem Inv.notMem_reaped (h : Inv s) (ha : a ∈ s.alive) : (a, s.births a) ∉ s.reaped := fun hm =>
  lt_irrefl _ ((h.old a _ hm).2 ha)

theorem Inv.withTable (h : Inv s) (hu : Good u s.alive) : Inv { s with table := u } :=
  ⟨hu, h.once, h.old⟩

theorem Inv.fork (h : Inv s) (hr : s.Ready p) {mem : Option ℕ} (hm : s.Unused mem)
    (resources : Bool) :
    ∃ r u, s.table.doFork p mem resources = some (r, u) ∧ Inv (s.forked mem r u) := by
  obtain ⟨hw, order, buckets, kids, ht⟩ := h.good
  obtain ⟨hp, hrun, hin⟩ := hr
  have hquiet : (s.table.proc p).waitState = 0 := hw.quiet p hp (by rw [hrun]; simp)
  rcases ht.doFork_spec hp hquiet hm resources with
    ⟨r, hf, hneg, -⟩ | ⟨a, pid, u, rfl, hf, hpos, he⟩
  · refine ⟨r, s.table, hf, ?_⟩
    have hs : s.forked mem r s.table = s := by
      cases mem with
      | none => rfl
      | some a => exact if_neg (by omega)
    rw [hs]
    exact h
  · refine ⟨pid, u, hf, ?_⟩
    obtain ⟨ha, h0⟩ := hm a rfl
    have hs : s.forked (some a) pid u =
        { s with
          table := u
          alive := insert a s.alive
          births := Function.update s.births a (s.births a + 1) } := if_pos (by omega)
    rw [hs]
    refine ⟨⟨hw.fork ha h0 hp hrun he.toForked, he.table⟩, h.once, fun b n hb => ?_⟩
    obtain ⟨hle, hlt⟩ := h.old b n hb
    dsimp only
    rcases eq_or_ne b a with rfl | hba
    · rw [Function.update_self]
      exact ⟨by omega, fun _ => by omega⟩
    · rw [Function.update_of_ne hba]
      refine ⟨hle, fun hm => hlt ?_⟩
      exact (Finset.mem_insert.mp hm).resolve_left hba

/-- A process leaves the table only as a zombie child of the process that waits. -/
structure Removal (s t : Sys) (current a : ℕ) : Prop where
  zombie : (s.table.proc a).state = .zombie
  parent : (s.table.proc a).parent = some current
  notBefore : (a, s.births a) ∉ s.reaped
  reaped : t.reaped = (a, s.births a) :: s.reaped

theorem Inv.wait (h : Inv s) (hp : p = idleproc ∨ p ∈ s.alive) (hu : Good u s.alive)
    (hproc : u.proc = s.table.proc) (hrun : (u.proc p).state = .runnable) (pid : ℤ) :
    ∃ r v, u.doWait p pid = some (r, v) ∧ Inv (s.waited r v) ∧
      ∀ a ∈ s.alive, a ∉ (s.waited r v).alive → Removal s (s.waited r v) p a := by
  obtain ⟨r, v, hd, hcase⟩ := doWait_spec hu hp hrun pid
  refine ⟨r, v, hd, ?_⟩
  cases r with
  | bad =>
    refine ⟨h.withTable ?_, fun a ha hn => absurd ha hn⟩
    rw [hcase]
    exact hu
  | slept => exact ⟨h.withTable hcase, fun a ha hn => absurd ha hn⟩
  | reaped b =>
    obtain ⟨hb, hz, hpar, hgood⟩ := hcase
    rw [hproc] at hz hpar
    have hnot := h.notMem_reaped hb
    refine ⟨⟨hgood, List.nodup_cons.mpr ⟨hnot, h.once⟩, fun a n hm => ?_⟩, fun a ha hn => ?_⟩
    · rcases List.mem_cons.mp hm with heq | hm
      · obtain ⟨rfl, rfl⟩ := Prod.mk.inj heq
        exact ⟨le_rfl, fun ha => absurd rfl (Finset.mem_erase.mp ha).1⟩
      · obtain ⟨hle, hlt⟩ := h.old a n hm
        exact ⟨hle, fun ha => hlt (Finset.mem_of_mem_erase ha)⟩
    · have hab : a = b := by
        by_contra hne
        exact hn (Finset.mem_erase.mpr ⟨hne, ha⟩)
      rw [hab]
      exact ⟨hz, hpar, hnot, rfl⟩

/-- One step keeps the invariant, and removes processes only in `do_wait`. -/
theorem Inv.step (h : Inv s) (hs : s.step e = some t) :
    Inv t ∧ ∀ a ∈ s.alive, a ∉ t.alive → ∃ current,
      ((∃ pid, e = .wait current pid) ∨ e = .resume current) ∧ Removal s t current a := by
  cases e with
  | fork current mem resources =>
    simp only [Sys.step] at hs
    split at hs
    · rename_i hc
      obtain ⟨r, u, hf, hinv⟩ := h.fork hc.1 hc.2 resources
      obtain rfl : s.forked mem r u = t := by simpa [hf] using hs
      refine ⟨hinv, fun a ha hn => absurd ?_ hn⟩
      unfold forked
      split
      · split
        · exact Finset.mem_insert_of_mem ha
        · exact ha
      · exact ha
    · cases hs
  | exit current errorCode =>
    simp only [Sys.step] at hs
    split at hs
    · rename_i hc
      obtain ⟨hp, hrun, hin⟩ := hc
      by_cases h01 : current = idleproc ∨ current = initproc
      · simp [State.doExit, h01] at hs
      · obtain ⟨u, hu, hgood⟩ := doExit_spec h.good hp h01 hrun hin errorCode
        obtain rfl : ({ s with table := u } : Sys) = t := by simpa [hu] using hs
        exact ⟨h.withTable hgood, fun a ha hn => absurd ha hn⟩
    · cases hs
  | wait current pid =>
    simp only [Sys.step] at hs
    split at hs
    · rename_i hc
      obtain ⟨r, v, hv, hinv, hrem⟩ := h.wait hc.1 h.good rfl hc.2.1 pid
      obtain rfl : s.waited r v = t := by simpa [hv] using hs
      exact ⟨hinv, fun a ha hn => ⟨current, .inl ⟨pid, rfl⟩, hrem a ha hn⟩⟩
    · cases hs
  | resume current =>
    simp only [Sys.step] at hs
    split at hs
    · rename_i pid hpid
      split at hs
      · rename_i hrun
        have hin := (h.good.1.inside current (by rw [hpid]; simp)).1
        have hout := h.good.outside hrun
        unfold State.wakeInWait at hs
        dsimp only at hs
        split at hs
        · obtain rfl := Option.some.inj hs
          exact ⟨h.withTable hout, fun a ha hn => absurd ha hn⟩
        · obtain ⟨r, v, hv, hinv, hrem⟩ := h.wait hin hout rfl hrun pid
          obtain rfl : s.waited r v = t := by simpa [hv] using hs
          exact ⟨hinv, fun a ha hn => ⟨current, .inr rfl, hrem a ha hn⟩⟩
      · cases hs
    · cases hs
  | kill pid =>
    obtain ⟨r, u, hu, hgood⟩ := doKill_spec h.good pid
    obtain rfl : ({ s with table := u } : Sys) = t := by simpa [Sys.step, hu] using hs
    exact ⟨h.withTable hgood, fun a ha hn => absurd ha hn⟩
  | block current waitState =>
    simp only [Sys.step] at hs
    split at hs
    · rename_i hc
      obtain ⟨⟨hp, hrun, hin⟩, hw⟩ := hc
      obtain rfl := Option.some.inj hs
      obtain ⟨hwait, order, buckets, kids, ht⟩ := h.good
      refine ⟨h.withTable ⟨?_, order, buckets, kids, ht.setProc fun x => ⟨rfl, rfl, rfl, rfl, rfl⟩⟩,
        fun a ha hn => absurd ha hn⟩
      exact hwait.sleep hrun hp (fun b _ => rfl) fun he => absurd he hw
    · cases hs
  | wake proc =>
    simp only [Sys.step] at hs
    split at hs
    · by_cases hz : (s.table.proc proc).state = .zombie
      · simp [State.wakeupProc, hz] at hs
      · obtain ⟨u, hu, hgood⟩ := h.good.wakeup hz
        obtain rfl : ({ s with table := u } : Sys) = t := by simpa [hu] using hs
        exact ⟨h.withTable hgood, fun a ha hn => absurd ha hn⟩
    · cases hs

theorem start_table : Table start.table ∅ [] (fun _ => []) (fun _ => none) fun _ => [] where
  list := ⟨⟨rfl, rfl⟩, by simp⟩
  order := by simp
  hash := ⟨fun i => ⟨⟨rfl, rfl⟩, by simp⟩, fun i j hij => by simpa using Ne.symm hij⟩
  bucket := by simp
  family := by
    refine ⟨by simp, by simp, ?_, by simp, by simp⟩
    intro a ha
    obtain rfl : a = idleproc := by simpa using ha
    rfl
  count := rfl
  bound := by decide
  pid := by simp
  unique := by simp
  last := by decide
  safe := le_rfl
  clear := by simp

/-- `proc_init` makes `initproc`. -/
theorem boot (hs : start.step (.fork idleproc (some initproc) true) = some t) : Inv t := by
  have hproc : start.table.proc idleproc = ⟨.runnable, 0, none, none, none, none, 0, 0, 0⟩ := rfl
  have hmem : ∀ a, some initproc = some a → a ∉ (∅ : Finset ℕ) ∧ a ≠ idleproc := by
    rintro a ⟨⟩
    exact ⟨by simp, by decide⟩
  simp only [Sys.step] at hs
  rw [if_pos (show start.Ready idleproc ∧ start.Unused (some initproc) from
    ⟨⟨.inl rfl, rfl, rfl⟩, hmem⟩)] at hs
  rcases start_table.doFork_spec (.inl rfl) (by rw [hproc]) hmem true with
    ⟨r, hf, -, hcause⟩ | ⟨a, pid, u, ha, hf, hpos, he⟩
  · exact absurd hcause (by decide)
  · obtain rfl : initproc = a := by simpa using ha
    obtain rfl : start.forked (some initproc) pid u = t := by simpa [hf] using hs
    have hidle := he.other idleproc (by decide)
    rw [hproc] at hidle
    have hin : ∀ b, u.inWait b = none := fun b => by rw [he.inWait]; rfl
    have hall : ∀ b, b = idleproc ∨ b ∈ insert initproc (∅ : Finset ℕ) →
        (u.proc b).state = .runnable ∧ (u.proc b).waitState = 0 := by
      rintro b (rfl | hb)
      · exact ⟨hidle.1, hidle.2.1⟩
      · obtain rfl : b = initproc := by simpa using hb
        exact ⟨he.state, he.waitState⟩
    have hw : Waits u (insert initproc ∅) none none := by
      constructor
      · simp
      · rw [he.state]
        simp
      · exact fun b hb _ => (hall b hb).2
      · intro x hx b hxb _
        obtain rfl : x = initproc := by simpa using hx
        rw [he.parent, Option.some.injEq] at hxb
        rw [← hxb, hidle.1]
        simp
      · intro b hb _ hs
        rw [(hall b hb).1] at hs
        cases hs
      · exact fun b hb => absurd (hin b) hb
    have hforked : start.forked (some initproc) pid u =
        { start with
          table := u
          alive := insert initproc ∅
          births := Function.update start.births initproc (start.births initproc + 1) } :=
      if_pos (by omega)
    rw [hforked]
    exact ⟨⟨hw, he.table⟩, List.nodup_nil, fun b n hb => absurd hb (by simp [start])⟩

theorem after_inv {l : List Event} (h : after l = some s) : Inv s := by
  obtain ⟨t, ht, hl⟩ : ∃ t, start.step (.fork idleproc (some initproc) true) = some t ∧
      l.foldlM Sys.step t = some s := by
    simpa [after, Option.bind_eq_some_iff] using h
  exact (Runs.iff_foldlM.mpr hl).invariant (fun _ _ _ hi hs => (hi.step hs).1) (boot ht)

end Sys

/-- The table holds exactly the processes `A`. -/
structure Consistent (s : State) (A : Finset ℕ) : Prop where
  list : ∃ order : List ℕ, s.procList.Ring none (order.map some) ∧ ∀ a, a ∈ order ↔ a ∈ A
  hash : ∃ buckets : ℕ → List ℕ, (s.hashList.Rings Sum.inl fun i => (buckets i).map Sum.inr) ∧
    ∀ i a, a ∈ buckets i ↔ a ∈ A ∧ pidHashfn (s.proc a).pid = i
  tree : ∀ x ∈ A, ∃ a, (a = idleproc ∨ a ∈ A) ∧ (s.proc x).parent = some a
  children : ∀ a, a = idleproc ∨ a ∈ A → ∃ kids : List ℕ, s.family.Sibs none (s.proc a).cptr kids ∧
    kids.Nodup ∧ ∀ x, x ∈ kids ↔ x ∈ A ∧ (s.proc x).parent = some a
  sibling : ∀ x ∈ A, ∀ y ∈ A, (s.proc x).optr = some y ↔ (s.proc y).yptr = some x
  count : s.nrProcess = A.card + 1
  find : ∀ pid a, s.findProc pid = some a ↔ a ∈ A ∧ (s.proc a).pid = pid

theorem Good.consistent {s : State} {A : Finset ℕ} (h : Good s A) : Consistent s A := by
  obtain ⟨-, order, buckets, kids, ht⟩ := h
  constructor
  · exact ⟨order, ht.list, ht.order⟩
  · exact ⟨buckets, ht.hash, ht.bucket⟩
  · exact ht.family.parent
  · exact fun a ha => ⟨kids a, ht.family.sibs a ha, ht.family.nodup a ha, ht.family.mem a ha⟩
  · exact fun x hx y hy => ht.family.optr_iff_yptr hx hy
  · exact ht.count
  · exact fun pid a => ht.findProc_eq_some

/-- In every run the lists, the hash lists and the tree hold the processes that were created and not
yet reaped, and a process is reaped at most once, by its parent at this time. -/
theorem table_consistent {l : List Event} {s : Sys} (h : Sys.after l = some s) :
    Consistent s.table s.alive ∧ s.reaped.Nodup ∧
      ∀ e t, s.step e = some t → ∀ a ∈ s.alive, a ∉ t.alive → ∃ current,
        ((∃ pid, e = .wait current pid) ∨ e = .resume current) ∧ Sys.Removal s t current a := by
  have hi := Sys.after_inv h
  exact ⟨hi.good.consistent, hi.once, fun e t hs => (hi.step hs).2⟩

/-- `initproc` reaps a child and the zombie that this child left it. -/
def orphanTrace : List Event :=
  [.fork 1 (some 2) true, .fork 2 (some 3) true, .exit 3 0, .wait 1 0, .exit 2 0, .resume 1,
    .wait 1 0]

theorem table_consistent_orphanTrace : ∃ s, Sys.after orphanTrace = some s ∧
    s.reaped = [(2, 1), (3, 1)] ∧ Consistent s.table s.alive := by
  obtain ⟨s, hs, hr⟩ := Option.map_eq_some_iff.mp
    (by decide +kernel : (Sys.after orphanTrace).map Sys.reaped = some [(2, 1), (3, 1)])
  exact ⟨s, hs, hr, (table_consistent hs).1⟩

/-- No process sleeps in `do_wait` while a child it waits for is a zombie. -/
theorem no_lost_wakeup {l : List Event} {s : Sys} (h : Sys.after l = some s) {a : ℕ} {pid : ℤ}
    (ha : a = idleproc ∨ a ∈ s.alive) (hs : (s.table.proc a).state = .sleeping)
    (hw : (s.table.proc a).waitState = wtChild) (hin : s.table.inWait a = some pid) {c : ℕ}
    (hc : c ∈ s.alive) (hpar : (s.table.proc c).parent = some a)
    (hpid : pid = 0 ∨ (s.table.proc c).pid = pid) : (s.table.proc c).state ≠ .zombie := by
  obtain ⟨pid', hin', hz⟩ := (Sys.after_inv h).good.1.waiting a ha (by simp) hs hw
  obtain rfl : pid = pid' := by simpa [hin] using hin'
  exact hz c hc hpar hpid

/-- `initproc` waits for the process 2, whose own child is a zombie. -/
def sleepTrace : List Event :=
  [.fork 1 (some 2) true, .fork 2 (some 3) true, .exit 3 0, .wait 1 2]

theorem no_lost_wakeup_sleepTrace : ∃ s, Sys.after sleepTrace = some s ∧
    (s.table.proc 1).state = .sleeping ∧ s.table.inWait 1 = some 2 ∧
    (s.table.proc 3).state = .zombie ∧ (s.table.proc 2).state ≠ .zombie := by
  obtain ⟨s, hs, hd⟩ := Option.map_eq_some_iff.mp
    (by decide +kernel : ((Sys.after sleepTrace).map fun s => decide
      (((s.table.proc 1).state = .sleeping ∧ (s.table.proc 1).waitState = wtChild ∧
        s.table.inWait 1 = some 2) ∧ (1 ∈ s.alive ∧ 2 ∈ s.alive ∧
        (s.table.proc 2).parent = some 1 ∧ (s.table.proc 2).pid = 2) ∧
        (s.table.proc 3).state = .zombie)) = some true)
  obtain ⟨⟨hsl, hw, hin⟩, ⟨h1, h2, hpar, hpid⟩, h3⟩ := of_decide_eq_true hd
  exact ⟨s, hs, hsl, hin, h3, no_lost_wakeup hs (.inr h1) hsl hw hin h2 hpar (.inr hpid)⟩

/-- `get_pid` ends with an unused pid, and the pair it keeps has no pid in use between. -/
theorem pid_allocated {l : List Event} {s : Sys} (h : Sys.after l = some s) :
    (∃ order : List ℕ, s.table.procList.Ring none (order.map some) ∧
      s.table.pids = order.map fun a => (s.table.proc a).pid) ∧
    (∃ pid nextSafe, getPid s.table.pids s.table.lastPid s.table.nextSafe = some (pid, nextSafe) ∧
      1 ≤ pid ∧ pid < maxPid ∧ pid ∉ s.table.pids) ∧
    ∀ a ∈ s.alive, ¬ (s.table.lastPid < (s.table.proc a).pid ∧
      (s.table.proc a).pid < s.table.nextSafe) := by
  obtain ⟨-, order, buckets, kids, ht⟩ := (Sys.after_inv h).good
  obtain ⟨⟨pid, next⟩, hget, hfresh⟩ :=
    getPid_spec ht.length_pids ht.last ht.safe ht.clear_pids
  exact ⟨⟨order, ht.list, ht.pids_eq⟩, ⟨pid, next, hget, hfresh.pos, hfresh.lt, hfresh.unused⟩,
    ht.clear⟩

theorem pid_allocated_orphanTrace : ∃ s, Sys.after orphanTrace = some s ∧
    s.table.lastPid = 3 ∧ ∃ pid nextSafe,
      getPid s.table.pids s.table.lastPid s.table.nextSafe = some (pid, nextSafe) ∧
      1 ≤ pid ∧ pid < maxPid ∧ pid ∉ s.table.pids := by
  obtain ⟨s, hs, hl⟩ := Option.map_eq_some_iff.mp
    (by decide +kernel : ((Sys.after orphanTrace).map fun s => s.table.lastPid) = some 3)
  exact ⟨s, hs, hl, (pid_allocated hs).2.1⟩

end UCore.Process

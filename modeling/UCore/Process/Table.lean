import UCore.Process.Pid

/-! # Consistency of the process table

`proc_list`, the hash lists and the tree of parent and sibling pointers hold the same processes.
Every function of the table keeps this.
-/

namespace UCore.Process

open Library

section Walk

variable {α : Type} [DecidableEq α] {L : Links α} {h a : α} {xs : List α} {n : ℕ}

theorem walk_path (hp : L.Path a xs h) (hh : h ∉ xs) (hn : xs.length ≤ n) :
    walk L h n a = xs := by
  induction xs generalizing a n with
  | nil =>
    cases n with
    | zero => rfl
    | succ n => simp [walk, hp.1]
  | cons x xs ih =>
    obtain ⟨⟨hx, -⟩, hp⟩ := hp
    cases n with
    | zero => simp at hn
    | succ n =>
      have hne : x ≠ h := fun he => hh (by simp [he])
      have hrest := ih (a := x) hp (fun hm => hh (by simp [hm])) (Nat.le_of_succ_le_succ hn)
      simp [walk, hx, hne, hrest]

theorem walk_ring (r : L.Ring h xs) (hn : xs.length ≤ n) : walk L h n h = xs :=
  walk_path r.path r.not_mem hn

end Walk

namespace State

variable {s s' s'' : State} {a p : ℕ}

/-- The tree pointers of all processes. -/
def family (s : State) : Family ℕ where
  parent a := (s.proc a).parent
  cptr a := (s.proc a).cptr
  optr a := (s.proc a).optr
  yptr a := (s.proc a).yptr

def withLinks (s : State) (procList : Links (Option ℕ)) (F : Family ℕ) (n : ℕ) : State :=
  { s with
    proc := fun a =>
      { s.proc a with
        parent := F.parent a, cptr := F.cptr a, optr := F.optr a, yptr := F.yptr a }
    procList := procList
    nrProcess := n }

theorem setProc_proc (f : Proc → Proc) (b : ℕ) :
    (s.setProc a f).proc b = if b = a then f (s.proc b) else s.proc b := by
  simp only [setProc, Function.update_apply]
  split
  · rename_i h
    rw [h]
  · rfl

theorem setAt_proc (o : Option ℕ) (f : Proc → Proc) (b : ℕ) :
    (s.setAt o f).proc b = if o = some b then f (s.proc b) else s.proc b := by
  cases o with
  | none => simp [setAt]
  | some a =>
    simp only [setAt, setProc_proc, Option.some.injEq]
    split
    · rename_i h
      rw [if_pos h.symm]
    · rename_i h
      rw [if_neg (Ne.symm h)]

theorem eq_withLinks {L : Links (Option ℕ)} {F : Family ℕ} {n : ℕ} {t : State}
    (hp : ∀ b, t.proc b = (s.withLinks L F n).proc b) (hl : t.procList = L)
    (hh : t.hashList = s.hashList) (hn : t.nrProcess = n) (hlast : t.lastPid = s.lastPid)
    (hsafe : t.nextSafe = s.nextSafe) (hw : t.inWait = s.inWait) : t = s.withLinks L F n := by
  obtain ⟨proc, procList, hashList, nrProcess, lastPid, nextSafe, inWait⟩ := t
  have hp : proc = (s.withLinks L F n).proc := funext hp
  dsimp only at hl hh hn hlast hsafe hw
  rw [hp, hl, hh, hn, hlast, hsafe, hw]
  rfl

theorem setLinks_eq (hp : (s.proc a).parent = some p) :
    s.setLinks a = some (s.withLinks (listAdd s.procList none (some a)) (s.family.addChild a p)
      (s.nrProcess + 1)) := by
  simp only [setLinks, hp]
  congr 1
  refine eq_withLinks (fun b => ?_) ?_ ?_ ?_ ?_ ?_ ?_
  · simp only [setProc_proc, setAt_proc, withLinks, family, Family.addChild, Family.storeAt_apply,
      Function.update_apply]
    split_ifs <;> simp_all
  all_goals cases h : (s.proc p).cptr <;> rfl

theorem removeLinks_eq (hp : (s.proc a).parent = some p) :
    s.removeLinks a = some (s.withLinks (listDel s.procList (some a)) (s.family.removeChild a)
      (s.nrProcess - 1)) := by
  have hpar : ((({ s with procList := listDel s.procList (some a) } : State).setAt (s.proc a).optr
      fun x => { x with yptr := none }).proc a).parent = some p := by
    rw [setAt_proc]
    split <;> exact hp
  unfold removeLinks
  dsimp only
  cases hy : (s.proc a).yptr with
  | none =>
    dsimp only
    rw [hpar]
    clear hpar
    refine congrArg some (eq_withLinks (fun b => ?_) ?_ ?_ ?_ ?_ ?_ ?_)
    · simp only [setProc_proc, setAt_proc, withLinks, family, Family.removeChild,
        Family.storeAt_apply, hy, hp, reduceIte]
      split_ifs <;> simp_all
    all_goals cases h : (s.proc a).optr <;> rfl
  | some y =>
    refine congrArg some (eq_withLinks (fun b => ?_) ?_ ?_ ?_ ?_ ?_ ?_)
    · simp only [setProc_proc, setAt_proc, withLinks, family, Family.removeChild,
        Family.storeAt_apply, hy]
      split_ifs <;> simp_all
    all_goals cases h : (s.proc a).optr <;> rfl

end State

/-- The table holds the processes `A`: `order` is `proc_list`, `buckets` are the hash lists, and
`kids` are the children of each process; `bef` as in `Family.Wf`. -/
structure Table (s : State) (A : Finset ℕ) (order : List ℕ) (buckets : ℕ → List ℕ)
    (bef : ℕ → Option ℕ) (kids : ℕ → List ℕ) : Prop where
  list : s.procList.Ring none (order.map some)
  order : ∀ a, a ∈ order ↔ a ∈ A
  hash : s.hashList.Rings Sum.inl fun i => (buckets i).map Sum.inr
  bucket : ∀ i a, a ∈ buckets i ↔ a ∈ A ∧ pidHashfn (s.proc a).pid = i
  family : s.family.Wf idleproc A bef kids
  count : s.nrProcess = A.card + 1
  bound : s.nrProcess ≤ maxProcess
  pid : ∀ a ∈ A, 1 ≤ (s.proc a).pid ∧ (s.proc a).pid < maxPid
  unique : ∀ a ∈ A, ∀ b ∈ A, (s.proc a).pid = (s.proc b).pid → a = b
  last : 1 ≤ s.lastPid
  safe : s.nextSafe ≤ maxPid
  clear : ∀ a ∈ A, ¬ (s.lastPid < (s.proc a).pid ∧ (s.proc a).pid < s.nextSafe)

namespace Table

variable {s s' : State} {A : Finset ℕ} {order : List ℕ} {buckets kids : ℕ → List ℕ}
  {bef : ℕ → Option ℕ} {a b p : ℕ}

theorem congr (h : Table s A order buckets bef kids) (hl : s'.procList = s.procList)
    (hh : s'.hashList = s.hashList) (hn : s'.nrProcess = s.nrProcess)
    (hlast : s'.lastPid = s.lastPid) (hsafe : s'.nextSafe = s.nextSafe)
    (hp : ∀ a ∈ A, (s'.proc a).pid = (s.proc a).pid)
    (hf : ∀ a, a = idleproc ∨ a ∈ A → s'.family.parent a = s.family.parent a ∧
      s'.family.cptr a = s.family.cptr a ∧ s'.family.optr a = s.family.optr a ∧
      s'.family.yptr a = s.family.yptr a) :
    Table s' A order buckets bef kids where
  list := hl ▸ h.list
  order := h.order
  hash := hh ▸ h.hash
  bucket i a := by
    rw [h.bucket]
    constructor
    · rintro ⟨ha, hi⟩
      exact ⟨ha, by rw [hp a ha, hi]⟩
    · rintro ⟨ha, hi⟩
      exact ⟨ha, by rw [← hp a ha, hi]⟩
  family := h.family.congr hf
  count := hn ▸ h.count
  bound := hn ▸ h.bound
  pid a ha := hp a ha ▸ h.pid a ha
  unique a ha b hb hab := h.unique a ha b hb (by rw [← hp a ha, ← hp b hb, hab])
  last := hlast ▸ h.last
  safe := hsafe ▸ h.safe
  clear a ha := by
    rw [hp a ha, hlast, hsafe]
    exact h.clear a ha

theorem setProc (h : Table s A order buckets bef kids) {f : Proc → Proc}
    (hf : ∀ x, (f x).pid = x.pid ∧ (f x).parent = x.parent ∧ (f x).cptr = x.cptr ∧
      (f x).optr = x.optr ∧ (f x).yptr = x.yptr) :
    Table (s.setProc a f) A order buckets bef kids := by
  refine h.congr rfl rfl rfl rfl rfl (fun b _ => ?_) fun b _ => ?_
  · rw [State.setProc_proc]
    split
    · exact (hf _).1
    · rfl
  · simp only [State.family, State.setProc_proc]
    split
    · exact (hf _).2
    · exact ⟨rfl, rfl, rfl, rfl⟩

theorem nodup_order (h : Table s A order buckets bef kids) : order.Nodup :=
  h.list.nodup_tail.of_map _

theorem length_order (h : Table s A order buckets bef kids) : order.length = A.card := by
  have hA : order.toFinset = A := by
    ext a
    rw [List.mem_toFinset, h.order]
  rw [← hA, List.toFinset_card_of_nodup h.nodup_order]

theorem pids_eq (h : Table s A order buckets bef kids) :
    s.pids = order.map fun a => (s.proc a).pid := by
  have hw : walk s.procList none s.nrProcess none = order.map some := by
    refine walk_ring h.list ?_
    rw [List.length_map, h.length_order, h.count]
    omega
  rw [State.pids, hw]
  simp [List.filterMap_map]

theorem length_pids (h : Table s A order buckets bef kids) : s.pids.length < 8191 := by
  rw [h.pids_eq, List.length_map, h.length_order]
  have hm : maxProcess = 4096 := rfl
  have hcount := h.count
  have hbound := h.bound
  omega

theorem clear_pids (h : Table s A order buckets bef kids) :
    Clear s.pids s.lastPid s.nextSafe := by
  rw [h.pids_eq]
  rintro q hq
  obtain ⟨b, hb, rfl⟩ := List.mem_map.mp hq
  exact h.clear b ((h.order b).mp hb)

theorem nodup_bucket (h : Table s A order buckets bef kids) (i : ℕ) : (buckets i).Nodup :=
  (h.hash.ring i).nodup_tail.of_map _

theorem length_bucket (h : Table s A order buckets bef kids) (i : ℕ) :
    (buckets i).length ≤ A.card := by
  rw [← List.toFinset_card_of_nodup (h.nodup_bucket i)]
  refine Finset.card_le_card fun a ha => ?_
  rw [List.mem_toFinset, h.bucket] at ha
  exact ha.1

/-- `find_proc` finds the process with the pid. -/
theorem findProc_eq_some (h : Table s A order buckets bef kids) {pid : ℤ} :
    s.findProc pid = some a ↔ a ∈ A ∧ (s.proc a).pid = pid := by
  have hw : walk s.hashList (.inl (pidHashfn pid)) s.nrProcess (.inl (pidHashfn pid)) =
      (buckets (pidHashfn pid)).map Sum.inr := by
    refine walk_ring (h.hash.ring (pidHashfn pid)) ?_
    rw [List.length_map, h.count]
    exact (h.length_bucket _).trans (Nat.le_succ _)
  have hm : ((buckets (pidHashfn pid)).map (Sum.inr (α := ℕ))).filterMap Sum.getRight? =
      buckets (pidHashfn pid) := by
    simp [List.filterMap_map, Function.comp_def]
  rw [State.findProc, hw, hm]
  constructor
  · intro hf
    split at hf
    · have hmem := List.mem_of_find?_eq_some hf
      have hpid : (s.proc a).pid = pid := by simpa using List.find?_some hf
      rw [h.bucket] at hmem
      exact ⟨hmem.1, hpid⟩
    · cases hf
  · rintro ⟨ha, rfl⟩
    have hr := h.pid a ha
    rw [if_pos ⟨by omega, hr.2⟩]
    have hmem : a ∈ buckets (pidHashfn (s.proc a).pid) := (h.bucket _ _).mpr ⟨ha, rfl⟩
    cases hf : (buckets (pidHashfn (s.proc a).pid)).find?
        fun b => (s.proc b).pid = (s.proc a).pid with
    | none =>
      have := List.find?_eq_none.mp hf a hmem
      simp at this
    | some b =>
      have hb := List.mem_of_find?_eq_some hf
      have hpid : (s.proc b).pid = (s.proc a).pid := by simpa using List.find?_some hf
      rw [h.unique b ((h.bucket _ _).mp hb).1 a ha hpid]

theorem pid_ne_lastPid (h : Table s A order buckets bef kids)
    (hfresh : Fresh s.pids (s.lastPid, s.nextSafe)) (ha : a ∈ A) : (s.proc a).pid ≠ s.lastPid := by
  intro he
  refine hfresh.unused ?_
  rw [h.pids_eq]
  exact List.mem_map.mpr ⟨a, (h.order a).mpr ha, he⟩

/-- The change of the table in which a new process enters it. -/
theorem enter (h : Table s A order buckets (fun _ => none) kids) (ha : a ∉ A)
    (h0 : a ≠ idleproc) (hp : p = idleproc ∨ p ∈ A) (hpar : (s.proc a).parent = some p)
    (hc : (s.proc a).cptr = none) (hlt : s.nrProcess < maxProcess)
    (hfresh : Fresh s.pids (s.lastPid, s.nextSafe)) (hpid : (s.proc a).pid = s.lastPid) :
    Table ((s.hashProc a).withLinks (listAdd s.procList none (some a)) (s.family.addChild a p)
      (s.nrProcess + 1)) (insert a A) (a :: order)
      (Function.update buckets (pidHashfn s.lastPid) (a :: buckets (pidHashfn s.lastPid)))
      (fun _ => none) (Function.update (Function.update kids p (a :: kids p)) a []) where
  list := by
    refine listAdd_ring h.list ?_
    simp [h.order, ha]
  order b := by simp [h.order]
  hash := by
    have hr := rings_listAdd (e := Sum.inr a) (i := pidHashfn s.lastPid) h.hash (fun j => by
      simp [h.bucket, ha])
    have heq : (fun i => (Function.update buckets (pidHashfn s.lastPid)
        (a :: buckets (pidHashfn s.lastPid)) i).map (Sum.inr (α := ℕ))) =
        Function.update (fun i => (buckets i).map Sum.inr) (pidHashfn s.lastPid)
          (.inr a :: (buckets (pidHashfn s.lastPid)).map Sum.inr) := by
      ext1 j
      rcases eq_or_ne j (pidHashfn s.lastPid) with rfl | hj
      · simp
      · simp [hj]
    rw [heq]
    simpa only [State.withLinks, State.hashProc, hpid] using hr
  bucket i b := by
    have hproc : (((s.hashProc a).withLinks (listAdd s.procList none (some a))
      (s.family.addChild a p) (s.nrProcess + 1)).proc b).pid = (s.proc b).pid := rfl
    rw [hproc, Finset.mem_insert]
    have hb := h.bucket i b
    rcases eq_or_ne i (pidHashfn s.lastPid) with rfl | hi
    · rw [Function.update_self, List.mem_cons, hb]
      constructor
      · rintro (rfl | ⟨hb, hi⟩)
        · exact ⟨.inl rfl, by rw [hpid]⟩
        · exact ⟨.inr hb, hi⟩
      · rintro ⟨rfl | hb, hi⟩
        · exact .inl rfl
        · exact .inr ⟨hb, hi⟩
    · rw [Function.update_of_ne hi, hb]
      constructor
      · rintro ⟨hb, hi⟩
        exact ⟨.inr hb, hi⟩
      · rintro ⟨rfl | hb, hi'⟩
        · rw [hpid] at hi'
          exact absurd hi'.symm hi
        · exact ⟨hb, hi'⟩
  family := h.family.addChild hp ha h0 hpar hc
  count := by
    rw [Finset.card_insert_of_notMem ha, ← h.count]
    rfl
  bound := hlt
  pid b hb := by
    rcases Finset.mem_insert.mp hb with rfl | hb
    · exact hpid.symm ▸ ⟨hfresh.pos, hfresh.lt⟩
    · exact h.pid b hb
  unique b hb c hc hbc := by
    have hbc : (s.proc b).pid = (s.proc c).pid := hbc
    rcases Finset.mem_insert.mp hb with hb | hb <;> rcases Finset.mem_insert.mp hc with hc | hc
    · rw [hb, hc]
    · rw [hb] at hbc
      exact absurd (hbc.symm.trans hpid) (h.pid_ne_lastPid hfresh hc)
    · rw [hc] at hbc
      exact absurd (hbc.trans hpid) (h.pid_ne_lastPid hfresh hb)
    · exact h.unique b hb c hc hbc
  last := h.last
  safe := h.safe
  clear b hb := by
    rcases Finset.mem_insert.mp hb with rfl | hb
    · rintro ⟨hlt, -⟩
      have hlt : s.lastPid < (s.proc b).pid := hlt
      omega
    · exact h.clear b hb

theorem choosePid (h : Table s A order buckets bef kids) (ha : a ∉ A)
    {pid next : ℤ} (hfresh : Fresh s.pids (pid, next)) :
    Table (({ s with lastPid := pid, nextSafe := next } : State).setProc a
      fun x => { x with pid := pid }) A order buckets bef kids := by
  have h' : Table { s with lastPid := pid, nextSafe := next } A order buckets bef kids :=
    { h with
      last := hfresh.pos
      safe := hfresh.le
      clear := fun b hb => by
        refine hfresh.clear _ ?_
        rw [h.pids_eq]
        exact List.mem_map.mpr ⟨b, (h.order b).mpr hb, rfl⟩ }
  refine h'.congr rfl rfl rfl rfl rfl (fun b hb => ?_) fun b hb => ?_
  · have hne : b ≠ a := fun he => ha (he ▸ hb)
    rw [State.setProc_proc, if_neg hne]
  · simp only [State.family, State.setProc_proc]
    split <;> exact ⟨rfl, rfl, rfl, rfl⟩

theorem pids_setProc (h : Table s A order buckets bef kids)
    (h' : Table s' A order buckets bef kids) (hp : ∀ b ∈ A, (s'.proc b).pid = (s.proc b).pid) :
    s'.pids = s.pids := by
  rw [h.pids_eq, h'.pids_eq]
  refine List.map_congr_left fun b hb => ?_
  exact hp b ((h.order b).mp hb)

/-- The child `a` of `current` is there, and nothing else changed that is not a link. -/
structure Forked (s s' : State) (current a : ℕ) : Prop where
  state : (s'.proc a).state = .runnable
  waitState : (s'.proc a).waitState = 0
  parent : (s'.proc a).parent = some current
  other : ∀ b, b ≠ a → (s'.proc b).state = (s.proc b).state ∧
    (s'.proc b).waitState = (s.proc b).waitState ∧ (s'.proc b).pid = (s.proc b).pid ∧
    (s'.proc b).parent = (s.proc b).parent
  inWait : s'.inWait = s.inWait

/-- What a call of `do_fork` that enters the process `a` leaves. -/
structure Entered (s s' : State) (A : Finset ℕ) (current a : ℕ) (pid : ℤ) : Prop
    extends Forked s s' current a where
  pid : (s'.proc a).pid = pid
  table : ∃ order buckets kids, Table s' (insert a A) order buckets (fun _ => none) kids

theorem enterProc_spec (h : Table s A order buckets (fun _ => none) kids) (ha : a ∉ A)
    (h0 : a ≠ idleproc) (hp : p = idleproc ∨ p ∈ A) (hpar : (s.proc a).parent = some p)
    (hc : (s.proc a).cptr = none) (hs : (s.proc a).state = .uninit)
    (hlt : s.nrProcess < maxProcess) :
    ∃ pid s', s.enterProc a = some (pid, s') ∧ Entered s s' A p a pid := by
  obtain ⟨⟨pid, next⟩, hget, hfresh⟩ := getPid_spec h.length_pids h.last h.safe h.clear_pids
  obtain ⟨t, htdef⟩ : ∃ t, t = ({ s with lastPid := pid, nextSafe := next } : State).setProc a
    (fun x => { x with pid := pid }) := ⟨_, rfl⟩
  have ht : Table t A order buckets (fun _ => none) kids := htdef ▸ h.choosePid ha hfresh
  have hproc : ∀ b, t.proc b = if b = a then { s.proc b with pid := pid } else s.proc b := by
    intro b
    rw [htdef, State.setProc_proc]
  have hother : ∀ b, b ≠ a → t.proc b = s.proc b := fun b hb => by rw [hproc, if_neg hb]
  have hself : t.proc a = { s.proc a with pid := pid } := by rw [hproc, if_pos rfl]
  have hpids := h.pids_setProc ht fun b hb => by rw [hother b fun he => ha (he ▸ hb)]
  have hentered := ht.enter ha h0 hp (by rw [hself]; exact hpar) (by rw [hself]; exact hc)
    (by rw [htdef]; exact hlt) (by rw [hpids, htdef]; exact hfresh) (by rw [hself, htdef]; rfl)
  obtain ⟨u, hu⟩ : ∃ u, u = (t.hashProc a).withLinks (listAdd t.procList none (some a))
    (t.family.addChild a p) (t.nrProcess + 1) := ⟨_, rfl⟩
  have hlinks : (t.hashProc a).setLinks a = some u := by
    rw [hu]
    exact State.setLinks_eq (by rw [State.hashProc, hself]; exact hpar)
  have hwake : u.wakeupProc a =
      some (u.setProc a fun x => { x with state := .runnable, waitState := 0 }) := by
    have hst : (u.proc a).state = .uninit := by
      rw [hu]
      change (t.proc a).state = .uninit
      rw [hself]
      exact hs
    simp [State.wakeupProc, hst]
  refine ⟨pid, u.setProc a fun x => { x with state := .runnable, waitState := 0 }, ?_, ?_⟩
  · simp only [State.enterProc, hget, ← htdef, hlinks, hwake, Option.map_some]
  · have hkeep : ∀ b, (u.proc b).state = (t.proc b).state ∧
        (u.proc b).waitState = (t.proc b).waitState ∧ (u.proc b).pid = (t.proc b).pid ∧
        (u.proc b).parent = (t.proc b).parent := by
      intro b
      rw [hu]
      exact ⟨rfl, rfl, rfl, rfl⟩
    rw [← hu] at hentered
    refine ⟨⟨?_, ?_, ?_, fun b hb => ?_, ?_⟩, ?_, _, _, _, hentered.setProc fun x => ?_⟩
    · simp [State.setProc_proc]
    · simp [State.setProc_proc]
    · simp [State.setProc_proc, (hkeep a).2.2.2, hself, hpar]
    · rw [State.setProc_proc, if_neg hb, ← hother b hb]
      exact hkeep b
    · rw [State.setProc, hu, htdef]
      rfl
    · simp [State.setProc_proc, (hkeep a).2.2.1, hself]
    · exact ⟨rfl, rfl, rfl, rfl, rfl⟩

/-- A call of `do_fork` fails without a change, or enters the process. -/
theorem doFork_spec (h : Table s A order buckets (fun _ => none) kids)
    (hp : p = idleproc ∨ p ∈ A) (hw : (s.proc p).waitState = 0) {mem : Option ℕ}
    (hmem : ∀ a, mem = some a → a ∉ A ∧ a ≠ idleproc) (resources : Bool) :
    (∃ r, s.doFork p mem resources = some (r, s) ∧ r < 0 ∧
      (maxProcess ≤ s.nrProcess ∨ mem = none ∨ resources = false)) ∨
      ∃ a pid s', mem = some a ∧ s.doFork p mem resources = some (pid, s') ∧ 1 ≤ pid ∧
        Entered s s' A p a pid := by
  unfold State.doFork
  split
  · rename_i hge
    exact .inl ⟨_, rfl, by decide, .inl hge⟩
  · rename_i hlt
    cases mem with
    | none => exact .inl ⟨_, rfl, by decide, .inr (.inl rfl)⟩
    | some a =>
      obtain ⟨ha, h0⟩ := hmem a rfl
      dsimp only
      rw [if_neg (not_not.mpr hw)]
      cases resources with
      | false => exact .inl ⟨_, rfl, by decide, .inr (.inr rfl)⟩
      | true =>
        rw [if_neg (by simp)]
        right
        obtain ⟨t, htdef⟩ : ∃ t, t = (s.allocProc a).setProc a
          (fun x => { x with parent := some p }) := ⟨_, rfl⟩
        have hproc : ∀ b, t.proc b = if b = a
            then ⟨.uninit, -1, some p, none, none, none, 0, 0, 0⟩ else s.proc b := by
          intro b
          rw [htdef, State.setProc_proc, State.allocProc, State.setProc_proc]
          split <;> rfl
        have hself := hproc a
        rw [if_pos rfl] at hself
        have hother : ∀ b, b ≠ a → t.proc b = s.proc b := fun b hb => by rw [hproc, if_neg hb]
        have hne : ∀ b, b = idleproc ∨ b ∈ A → b ≠ a := by
          rintro b (hb | hb) rfl
          · exact h0 hb
          · exact ha hb
        have ht : Table t A order buckets (fun _ => none) kids := by
          refine h.congr ?_ ?_ ?_ ?_ ?_ (fun b hb => ?_) fun b hb => ?_
          · rw [htdef]; rfl
          · rw [htdef]; rfl
          · rw [htdef]; rfl
          · rw [htdef]; rfl
          · rw [htdef]; rfl
          · rw [hother b (hne b (.inr hb))]
          · simp only [State.family, hother b (hne b hb), and_self]
        rw [← htdef]
        obtain ⟨pid, s', he, hent⟩ := ht.enterProc_spec ha h0 hp (by rw [hself]) (by rw [hself])
          (by rw [hself]) (by rw [htdef]; exact Nat.lt_of_not_le hlt)
        refine ⟨a, pid, s', rfl, he, ?_, { hent with other := fun b hb => ?_, inWait := ?_ }⟩
        · obtain ⟨_, _, _, htab⟩ := hent.table
          exact hent.pid ▸ (htab.pid a (Finset.mem_insert_self a A)).1
        · rw [← hother b hb]
          exact hent.other b hb
        · rw [hent.inWait, htdef]
          rfl

theorem siblings_eq {b first : Option ℕ} {xs : List ℕ} {n : ℕ} (h : s.family.Sibs b first xs)
    (hn : xs.length ≤ n) : s.siblings n first = xs := by
  induction xs generalizing b first n with
  | nil =>
    obtain rfl : first = none := h
    cases n <;> rfl
  | cons x xs ih =>
    obtain ⟨rfl, -, hs⟩ := h
    cases n with
    | zero => simp at hn
    | succ n =>
      have hrest := ih (n := n) hs (Nat.le_of_succ_le_succ hn)
      exact congrArg (x :: ·) hrest

theorem length_kids (h : Table s A order buckets bef kids) (hp : p = idleproc ∨ p ∈ A) :
    (kids p).length ≤ A.card := by
  rw [← List.toFinset_card_of_nodup (h.family.nodup p hp)]
  refine Finset.card_le_card fun a ha => ?_
  rw [List.mem_toFinset, h.family.mem p hp] at ha
  exact ha.1

/-- The children that `do_wait` looks at. -/
theorem mem_candidates (h : Table s A order buckets bef kids) (hp : p = idleproc ∨ p ∈ A)
    (pid : ℤ) :
    a ∈ s.candidates p pid ↔
      a ∈ A ∧ (s.proc a).parent = some p ∧ (pid = 0 ∨ (s.proc a).pid = pid) := by
  unfold State.candidates
  by_cases h0 : pid = 0
  · have hn : (kids p).length ≤ s.nrProcess := by
      rw [h.count]
      exact (h.length_kids hp).trans (Nat.le_succ _)
    have hs : s.siblings s.nrProcess (s.proc p).cptr = kids p :=
      siblings_eq (h.family.sibs p hp) hn
    rw [if_neg (not_not.mpr h0), hs, h.family.mem p hp]
    simp [h0, State.family]
  · rw [if_pos h0]
    cases hf : s.findProc pid with
    | none =>
      simp only [List.not_mem_nil, false_iff, not_and, not_or]
      intro ha _
      refine ⟨h0, fun he => ?_⟩
      have := h.findProc_eq_some.mpr ⟨ha, he⟩
      rw [hf] at this
      cases this
    | some b =>
      obtain ⟨hb, hpid⟩ := h.findProc_eq_some.mp hf
      dsimp only
      split
      · rename_i hpar
        rw [List.mem_singleton]
        constructor
        · rintro rfl
          exact ⟨hb, hpar, .inr hpid⟩
        · rintro ⟨ha, -, he⟩
          exact h.unique a ha b hb ((he.resolve_left h0).trans hpid.symm)
      · rename_i hpar
        simp only [List.not_mem_nil, false_iff, not_and, not_or]
        intro ha hpa
        refine ⟨h0, fun he => hpar ?_⟩
        rw [← h.unique a ha b hb (he.trans hpid.symm)]
        exact hpa

/-- The change of the table in which a process without children leaves it. -/
theorem leave (h : Table s A order buckets (fun _ => none) kids) (ha : a ∈ A)
    (hpar : (s.proc a).parent = some p) (hk : kids a = []) :
    Table ((s.unhashProc a).withLinks (listDel s.procList (some a)) (s.family.removeChild a)
      (s.nrProcess - 1)) (A.erase a) (order.erase a)
      (Function.update buckets (pidHashfn (s.proc a).pid)
        ((buckets (pidHashfn (s.proc a).pid)).erase a))
      (fun _ => none) (Function.update kids p ((kids p).erase a)) where
  list := by
    obtain ⟨xs, ys, hxy⟩ := List.append_of_mem ((h.order a).mpr ha)
    have hnd := h.nodup_order
    have hr := h.list
    rw [hxy] at hnd hr
    rw [hxy, Family.erase_middle hnd, List.map_append]
    rw [List.map_append, List.map_cons] at hr
    exact listDel_ring hr
  order b := by rw [h.nodup_order.mem_erase_iff, h.order, Finset.mem_erase]
  hash := by
    obtain ⟨i, hi⟩ : ∃ i, i = pidHashfn (s.proc a).pid := ⟨_, rfl⟩
    obtain ⟨xs, ys, hxy⟩ := List.append_of_mem ((h.bucket i a).mpr ⟨ha, hi.symm⟩)
    have hnd := h.nodup_bucket i
    rw [hxy] at hnd
    have hmap : (buckets i).map (Sum.inr (α := ℕ)) = xs.map .inr ++ .inr a :: ys.map .inr := by
      simp [hxy]
    have hr := rings_listDel h.hash hmap
    rw [← hi, hxy, Family.erase_middle hnd]
    have heq : (fun j => (Function.update buckets i (xs ++ ys) j).map (Sum.inr (α := ℕ))) =
        Function.update (fun j => (buckets j).map Sum.inr) i (xs.map .inr ++ ys.map .inr) := by
      ext1 j
      rcases eq_or_ne j i with rfl | hj
      · simp
      · simp [hj]
    rw [heq]
    exact hr
  bucket i b := by
    have hproc : (((s.unhashProc a).withLinks (listDel s.procList (some a))
      (s.family.removeChild a) (s.nrProcess - 1)).proc b).pid = (s.proc b).pid := rfl
    rw [hproc, Finset.mem_erase]
    rcases eq_or_ne i (pidHashfn (s.proc a).pid) with rfl | hi
    · rw [Function.update_self, (h.nodup_bucket _).mem_erase_iff, h.bucket, and_assoc]
    · rw [Function.update_of_ne hi, h.bucket]
      constructor
      · rintro ⟨hb, hbi⟩
        refine ⟨⟨?_, hb⟩, hbi⟩
        rintro rfl
        exact hi hbi.symm
      · rintro ⟨⟨-, hb⟩, hbi⟩
        exact ⟨hb, hbi⟩
  family := h.family.removeChild ha hpar hk
  count := by
    have hpos : 0 < A.card := Finset.card_pos.mpr ⟨a, ha⟩
    have hn : s.nrProcess - 1 = (A.erase a).card + 1 := by
      rw [Finset.card_erase_of_mem ha, h.count]
      omega
    exact hn
  bound := (Nat.sub_le _ _).trans h.bound
  pid b hb := h.pid b (Finset.mem_of_mem_erase hb)
  unique b hb c hc hbc :=
    h.unique b (Finset.mem_of_mem_erase hb) c (Finset.mem_of_mem_erase hc) hbc
  last := h.last
  safe := h.safe
  clear b hb := h.clear b (Finset.mem_of_mem_erase hb)

/-- What reaping leaves. -/
structure Reaped (s s' : State) (A : Finset ℕ) (a : ℕ) : Prop where
  other : ∀ b, (s'.proc b).state = (s.proc b).state ∧
    (s'.proc b).waitState = (s.proc b).waitState ∧ (s'.proc b).pid = (s.proc b).pid ∧
    (s'.proc b).parent = (s.proc b).parent
  inWait : s'.inWait = s.inWait
  table : ∃ order buckets kids, Table s' (A.erase a) order buckets (fun _ => none) kids

theorem reap_spec (h : Table s A order buckets (fun _ => none) kids) (ha : a ∈ A)
    (h1 : a ≠ initproc) (hk : kids a = []) : ∃ s', s.reap a = some s' ∧ Reaped s s' A a := by
  have h0 : a ≠ idleproc := by
    rintro rfl
    exact h.family.notRoot ha
  obtain ⟨p, hp, hpar⟩ := h.family.parent a ha
  have hlinks := State.removeLinks_eq (s := s.unhashProc a) (a := a) (p := p) hpar
  refine ⟨(s.unhashProc a).withLinks (listDel s.procList (some a)) (s.family.removeChild a)
    (s.nrProcess - 1), ?_, fun b => ⟨rfl, rfl, rfl, rfl⟩, rfl, _, _, _, h.leave ha hpar hk⟩
  rw [State.reap, if_neg (by simp [h0, h1]), hlinks]
  rfl

end Table

end UCore.Process

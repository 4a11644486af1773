import UCore.Library.Run
import UCore.Switch.Memory

/-! # Resuming on a page directory

`do_exit` and `do_execve` give the directory of `current` back and leave its `pgdir` as it is. As
long as no process gives up the processor in this condition, every process that can be resumed has a
directory that is still there.
-/

namespace UCore.Switch

open Library

variable {bootPgdir : ℕ} {s t : State}

/-- The process has been through the release of its address space. -/
def Proc.Released (x : Proc) : Prop :=
  match x.at' with
  | .other => False
  | .copying _ => False
  | _ => True

/-- The process can be resumed on its `pgdir`, or never is. -/
def Proc.Settled (bootPgdir : ℕ) (x : Proc) : Prop :=
  x.at' = .zombie ∨ x.mm ≠ none ∨ x.pgdir = bootPgdir

def State.Mem (s : State) : Prop := Switch.Mem s.procs s.proc s.mms s.mm s.dirs

/-- The page table register holds the directory of `current`, or the one of the kernel. -/
def State.SatpOk (bootPgdir : ℕ) (s : State) : Prop :=
  s.satp = bootPgdir ∨ ∃ m, s.cur.mm = some m ∧ s.satp = (s.mm m).pgdir

structure Inv (bootPgdir : ℕ) (s : State) : Prop where
  current : s.current ∈ s.procs
  mem : s.Mem
  released : ∀ p ∈ s.procs, (s.proc p).Released → (s.proc p).mm = none
  parked : ∀ p ∈ s.procs, p ≠ s.current → (s.proc p).Settled bootPgdir
  satp : s.SatpOk bootPgdir

section Moves

variable {x : Proc} {y : Point} {p m d n : ℕ}

theorem users_same (hp : p ∈ s.procs) (hx : x.mm = (s.proc p).mm) (m : ℕ) :
    users (insert p s.procs) (Function.update s.proc p x) m = users s.procs s.proc m := by
  rw [users_set]
  split
  · rename_i h
    apply Finset.insert_eq_of_mem
    exact mem_users.mpr ⟨hp, hx ▸ h⟩
  · rename_i h
    apply Finset.erase_eq_of_notMem
    intro hm
    exact h (hx.trans (mem_users.mp hm).2)

theorem setPoint_cur : (s.setPoint y).cur = { s.cur with at' := y } := Function.update_self ..

theorem State.Mem.setPoint (k : s.Mem) (hc : s.current ∈ s.procs)
    (hy : ({ s.cur with at' := y } : Proc).own = none) : (s.setPoint y).Mem := by
  apply Switch.Mem.set k
  · intro m hm
    obtain ⟨h, he⟩ := k.used _ hc m hm
    exact ⟨h, he, fun q hq _ ho => k.unused q hq m ho _ hc hm⟩
  · intro m hm
    rw [hy] at hm
    cases hm
  · exact fun _ => rfl
  · intro m hm
    have hu := users_same (x := { s.cur with at' := y }) hc rfl m
    exact (k.count m hm).trans (congrArg Finset.card hu.symm)

theorem State.Mem.build (k : s.Mem) (hc : s.current ∈ s.procs) (hm : m ∉ s.mms) (hd : d ∉ s.dirs)
    (hy : ({ s.cur with at' := y } : Proc).own = some m) :
    ((s.createMm m d).setPoint y).Mem := by
  have k' := Switch.Mem.create k hm hd
  apply Switch.Mem.set k'
  · intro m' hm'
    obtain ⟨h, he⟩ := k'.used _ hc m' hm'
    exact ⟨h, he, fun q hq _ ho => k'.unused q hq m' ho _ hc hm'⟩
  · intro m' hm'
    obtain rfl : m = m' := Option.some.inj (hy.symm.trans hm')
    refine ⟨Finset.mem_insert_self _ _, fun h => hm (k.used _ hc m h).1, fun q hq _ => ⟨?_, ?_⟩⟩
    · exact fun h => hm (k.used q hq m h).1
    · exact fun h => hm (k.owned q hq m h)
  · exact fun _ => rfl
  · intro m' hm'
    have hu := users_same (s := s.createMm m d) (x := { s.cur with at' := y }) hc rfl m'
    exact (k'.count m' hm').trans (congrArg Finset.card hu.symm)

theorem State.Mem.dropMm (k : s.Mem) (hc : s.current ∈ s.procs) (ho : s.cur.own = some m)
    (hy : ({ s.cur with at' := y } : Proc).own = none) : ((s.dropMm m).setPoint y).Mem := by
  have k' := k.setPoint hc hy
  apply Switch.Mem.destroy k' (k.owned _ hc m ho)
  intro p hp
  have hp' : p ∈ s.procs := by
    rwa [State.setPoint, State.setProc, Finset.insert_eq_of_mem hc] at hp
  rcases eq_or_ne p s.current with rfl | hne
  · change (s.setPoint y).cur.mm ≠ _ ∧ (s.setPoint y).cur.own ≠ _
    rw [setPoint_cur, hy]
    exact ⟨k.unused _ hc m ho _ hc, by simp⟩
  · have he : (s.setPoint y).proc p = s.proc p := Function.update_of_ne hne _ _
    rw [he]
    exact ⟨k.unused _ hc m ho p hp', fun h => hne (k.owner p hp' _ hc m h ho)⟩

theorem mmCountInc_pgdir (m m' : ℕ) : ((s.mmCountInc m).mm m').pgdir = (s.mm m').pgdir := by
  unfold State.mmCountInc State.setMmCount
  rcases eq_or_ne m' m with rfl | h
  · simp
  · simp [h]

theorem mmCountDec_pgdir (m m' : ℕ) : ((s.mmCountDec m).mm m').pgdir = (s.mm m').pgdir := by
  unfold State.mmCountDec State.setMmCount
  rcases eq_or_ne m' m with rfl | h
  · simp
  · simp [h]

theorem State.Mem.join (k : s.Mem) (hm : m ∈ s.mms) (hx : x.mm = some m)
    (hpg : x.pgdir = (s.mm m).pgdir) (hown : x.own = none)
    (hbuilt : ∀ q ∈ s.procs, q ≠ p → (s.proc q).own ≠ some m)
    (hnone : p ∈ s.procs → (s.proc p).mm = none) : ((s.mmCountInc m).setProc p x).Mem := by
  apply Switch.Mem.set k
  · intro m' hm'
    obtain rfl : m = m' := Option.some.inj (hx.symm.trans hm')
    exact ⟨hm, hpg, hbuilt⟩
  · intro m' hm'
    rw [hown] at hm'
    cases hm'
  · exact mmCountInc_pgdir m
  · intro m' hm'
    have hp : ∀ m', p ∉ users s.procs s.proc m' := by
      intro m' hp
      obtain ⟨hp, he⟩ := mem_users.mp hp
      rw [hnone hp] at he
      cases he
    rw [users_set, hx]
    unfold State.mmCountInc State.setMmCount
    rcases eq_or_ne m' m with rfl | h
    · rw [if_pos rfl, Finset.card_insert_of_notMem (hp m'), ← k.count m' hm']
      simp [State.setProc]
    · rw [if_neg (fun he => h (Option.some.inj he).symm), Finset.erase_eq_of_notMem (hp m'),
        ← k.count m' hm']
      simp [State.setProc, h]

theorem State.Mem.addKernel (k : s.Mem) (hp : p ∉ s.procs) (hx : x.mm = none)
    (hown : x.own = none) :
    (s.setProc p x).Mem := by
  apply Switch.Mem.set k
  · intro m hm
    rw [hx] at hm
    cases hm
  · intro m hm
    rw [hown] at hm
    cases hm
  · exact fun _ => rfl
  · intro m hm
    have hu : p ∉ users s.procs s.proc m := fun h => hp (mem_users.mp h).1
    rw [users_set, hx, if_neg (by simp), Finset.erase_eq_of_notMem hu]
    exact k.count m hm

theorem State.Mem.leave (k : s.Mem) (hc : s.current ∈ s.procs) (hm : s.cur.mm = some m)
    (hown : s.cur.own = none) :
    ((s.mmCountDec m).setProc s.current { s.cur with mm := none }).Mem := by
  apply Switch.Mem.set k
  · intro m' hm'
    cases hm'
  · intro m' hm'
    have h : s.cur.own = some m' := hm'
    rw [hown] at h
    cases h
  · exact mmCountDec_pgdir m
  · intro m' hm'
    rw [users_set, if_neg (by simp)]
    unfold State.mmCountDec State.setMmCount
    rcases eq_or_ne m' m with rfl | h
    · rw [Finset.card_erase_of_mem (mem_users.mpr ⟨hc, hm⟩), ← k.count m' hm']
      simp [State.setProc]
    · rw [Finset.erase_eq_of_notMem, ← k.count m' hm']
      · simp [State.setProc, h]
      · intro hu
        exact h (Option.some.inj ((mem_users.mp hu).2.symm.trans hm))

/-- What `do_exit` and `do_execve` do to the address space of `current`. -/
theorem State.Mem.release (k : s.Mem) (hc : s.current ∈ s.procs) (hown : s.cur.own = none) :
    (s.releaseMm bootPgdir).Mem := by
  unfold State.releaseMm
  cases hm : s.cur.mm with
  | none => exact k
  | some m =>
    have k' := k.leave hc hm hown
    dsimp only
    split
    · rename_i hz
      have hused := k.used _ hc m hm
      apply Switch.Mem.destroy k' hused.1
      intro p hp
      constructor
      · intro hpm
        have hcard := k'.count m hused.1
        have hz' :
            (((s.mmCountDec m).setProc s.current { s.cur with mm := none }).mm m).mmCount = 0 :=
          hz
        rw [hz'] at hcard
        have hmem := mem_users.mpr ⟨hp, hpm⟩
        rw [Finset.card_eq_zero.mp hcard.symm] at hmem
        cases hmem
      · rcases eq_or_ne p s.current with rfl | hne
        · have he : (Function.update s.proc s.current { s.cur with mm := none }) s.current =
            { s.cur with mm := none } := Function.update_self ..
          have ho : ({ s.cur with mm := none } : Proc).own = s.cur.own := rfl
          change (Function.update s.proc s.current { s.cur with mm := none } s.current).own ≠ _
          rw [he, ho, hown]
          simp
        · have he : (Function.update s.proc s.current { s.cur with mm := none }) p = s.proc p :=
            Function.update_of_ne hne _ _
          change (Function.update s.proc s.current { s.cur with mm := none } p).own ≠ _
          rw [he]
          exact fun ho => k.unused p (Finset.mem_of_mem_insert_of_ne hp hne) m ho _ hc hm
    · exact k'

end Moves

section Steps

theorem Inv.next (k : Inv bootPgdir s) (hc : t.current = s.current) (hin : s.current ∈ t.procs)
    (hm : t.Mem)
    (hold : ∀ p ∈ t.procs, p ≠ s.current → p ∈ s.procs ∧ t.proc p = s.proc p ∨
      (t.proc p).at' = .other ∧ ((t.proc p).mm ≠ none ∨ (t.proc p).pgdir = bootPgdir))
    (hr : t.cur.Released → t.cur.mm = none) (hs : t.SatpOk bootPgdir) : Inv bootPgdir t := by
  constructor
  · rwa [hc]
  · exact hm
  · intro p hp hrel
    rcases eq_or_ne p s.current with rfl | hne
    · rw [← hc] at hrel ⊢
      exact hr hrel
    · rcases hold p hp hne with ⟨hp', he⟩ | ⟨hat, -⟩
      · rw [he] at hrel ⊢
        exact k.released p hp' hrel
      · rw [Proc.Released, hat] at hrel
        cases hrel
  · intro p hp hne
    rw [hc] at hne
    rcases hold p hp hne with ⟨hp', he⟩ | ⟨-, hsettled⟩
    · rw [he]
      exact k.parked p hp' hne
    · exact .inr hsettled
  · exact hs

theorem Inv.own (k : Inv bootPgdir s) (hc : t.current = s.current)
    (hp : t.procs = insert s.current s.procs)
    (hf : ∀ p, p ≠ s.current → t.proc p = s.proc p) (hm : t.Mem)
    (hr : t.cur.Released → t.cur.mm = none) (hs : t.SatpOk bootPgdir) : Inv bootPgdir t := by
  apply Inv.next k hc
  · rw [hp]
    exact Finset.mem_insert_self _ _
  · exact hm
  · intro p hpt hne
    rw [hp] at hpt
    exact .inl ⟨Finset.mem_of_mem_insert_of_ne hpt hne, hf p hne⟩
  · exact hr
  · exact hs

theorem setPoint_proc {y : Point} {p : ℕ} (h : p ≠ s.current) : (s.setPoint y).proc p = s.proc p :=
  Function.update_of_ne h _ _

theorem Inv.build {m d : ℕ} {y : Point} (k : Inv bootPgdir s) (hm : m ∉ s.mms) (hd : d ∉ s.dirs)
    (hy : ({ s.cur with at' := y } : Proc).own = some m)
    (hr : ({ s.cur with at' := y } : Proc).Released → s.cur.mm = none) :
    Inv bootPgdir ((s.createMm m d).setPoint y) := by
  apply Inv.own k
  · rfl
  · rfl
  · exact fun p hp => setPoint_proc (s := s.createMm m d) hp
  · exact k.mem.build k.current hm hd hy
  · rw [setPoint_cur]
    exact hr
  · rcases k.satp with h | ⟨m', hm', h⟩
    · exact .inl h
    · refine .inr ⟨m', ?_, ?_⟩
      · rw [setPoint_cur]
        exact hm'
      · have hne : m' ≠ m := by
          rintro rfl
          exact hm (k.mem.used _ k.current m' hm').1
        have he : Function.update s.mm m ⟨d, 0⟩ m' = s.mm m' := Function.update_of_ne hne _ _
        change s.satp = (Function.update s.mm m ⟨d, 0⟩ m').pgdir
        rw [he]
        exact h

theorem State.SatpOk.setPoint {y : Point} (h : s.SatpOk bootPgdir) :
    (s.setPoint y).SatpOk bootPgdir := by
  unfold State.SatpOk
  rw [setPoint_cur]
  exact h

theorem Inv.setPoint {y : Point} (k : Inv bootPgdir s)
    (hy : ({ s.cur with at' := y } : Proc).own = none)
    (hr : ({ s.cur with at' := y } : Proc).Released → s.cur.mm = none) :
    Inv bootPgdir (s.setPoint y) := by
  apply Inv.own k
  · rfl
  · rfl
  · exact fun p hp => setPoint_proc hp
  · exact k.mem.setPoint k.current hy
  · rw [setPoint_cur]
    exact hr
  · exact k.satp.setPoint

theorem Inv.dropMm {m : ℕ} {y : Point} (k : Inv bootPgdir s) (ho : s.cur.own = some m)
    (hy : ({ s.cur with at' := y } : Proc).own = none)
    (hr : ({ s.cur with at' := y } : Proc).Released → s.cur.mm = none) :
    Inv bootPgdir ((s.dropMm m).setPoint y) := by
  apply Inv.own k
  · rfl
  · rfl
  · exact fun p hp => setPoint_proc (s := s.dropMm m) hp
  · exact k.mem.dropMm k.current ho hy
  · rw [setPoint_cur]
    exact hr
  · exact State.SatpOk.setPoint (s := s.dropMm m) k.satp

theorem releaseMm_frame (bootPgdir : ℕ) (hc : s.current ∈ s.procs) :
    (s.releaseMm bootPgdir).current = s.current ∧
    (s.releaseMm bootPgdir).cur = { s.cur with mm := none } ∧
    (s.releaseMm bootPgdir).procs = s.procs ∧
    ∀ p, p ≠ s.current → (s.releaseMm bootPgdir).proc p = s.proc p := by
  unfold State.releaseMm
  cases hm : s.cur.mm with
  | none =>
    have he : s.cur = { s.cur with mm := none } := by rw [← hm]
    exact ⟨rfl, he, rfl, fun _ _ => rfl⟩
  | some m =>
    dsimp only
    split
    · exact ⟨rfl, Function.update_self .., Finset.insert_eq_of_mem hc,
        fun p hp => Function.update_of_ne hp _ _⟩
    · exact ⟨rfl, Function.update_self .., Finset.insert_eq_of_mem hc,
        fun p hp => Function.update_of_ne hp _ _⟩

theorem releaseMm_satp (h : s.SatpOk bootPgdir) : (s.releaseMm bootPgdir).satp = bootPgdir := by
  unfold State.releaseMm
  cases hm : s.cur.mm with
  | none =>
    rcases h with h | ⟨m, hm', -⟩
    · exact h
    · rw [hm] at hm'
      cases hm'
  | some m =>
    dsimp only
    split
    · rfl
    · rfl

theorem Inv.release {y : Point} (k : Inv bootPgdir s) (hown : s.cur.own = none)
    (hy : ({ s.cur with mm := none, at' := y } : Proc).own = none) :
    Inv bootPgdir ((s.releaseMm bootPgdir).setPoint y) := by
  obtain ⟨t, ht⟩ : ∃ t, t = s.releaseMm bootPgdir := ⟨_, rfl⟩
  have hm : t.Mem := ht ▸ k.mem.release k.current hown
  have hs : t.satp = bootPgdir := ht ▸ releaseMm_satp k.satp
  obtain ⟨hc, hcur, hp, hf⟩ := ht ▸ releaseMm_frame bootPgdir k.current
  have hin : t.current ∈ t.procs := by
    rw [hc, hp]
    exact k.current
  rw [← ht]
  apply Inv.own k
  · exact hc
  · rw [← hp, ← hc]
    rfl
  · intro p hne
    rw [← hf p hne]
    exact setPoint_proc (by rwa [hc])
  · apply hm.setPoint hin
    rw [hcur]
    exact hy
  · rw [setPoint_cur, hcur]
    exact fun _ => rfl
  · exact .inl hs

theorem Inv.enter {m : ℕ} (k : Inv bootPgdir s) (ho : s.cur.own = some m) (hmm : s.cur.mm = none) :
    Inv bootPgdir (s.enterMm m) := by
  have hm := k.mem.owned _ k.current m ho
  have hpg := mmCountInc_pgdir (s := s) m m
  apply Inv.own k
  · rfl
  · rfl
  · exact fun p hp => Function.update_of_ne hp _ _
  · apply k.mem.join hm
    · rfl
    · exact hpg
    · rfl
    · exact fun q hq hne h => hne (k.mem.owner q hq _ k.current m h ho)
    · exact fun _ => hmm
  · have hcur : (s.enterMm m).cur = ⟨some m, ((s.mmCountInc m).mm m).pgdir, .other⟩ :=
      Function.update_self ..
    rw [hcur]
    exact False.elim
  · refine .inr ⟨m, ?_, rfl⟩
    have hcur : (s.enterMm m).cur = ⟨some m, ((s.mmCountInc m).mm m).pgdir, .other⟩ :=
      Function.update_self ..
    rw [hcur]

/-- A new process that uses `m`. -/
theorem Inv.addUser {m child : ℕ} (k : Inv bootPgdir s) (hn : child ∉ s.procs) (hm : m ∈ s.mms)
    (hbuilt : ∀ q ∈ s.procs, (s.proc q).own ≠ some m) :
    Inv bootPgdir
      ((s.mmCountInc m).setProc child ⟨some m, ((s.mmCountInc m).mm m).pgdir, .other⟩) := by
  have hne : s.current ≠ child := by
    rintro rfl
    exact hn k.current
  have hcur : ((s.mmCountInc m).setProc child
      ⟨some m, ((s.mmCountInc m).mm m).pgdir, .other⟩).cur = s.cur := Function.update_of_ne hne _ _
  apply Inv.next k
  · rfl
  · exact Finset.mem_insert_of_mem k.current
  · apply k.mem.join hm
    · rfl
    · exact mmCountInc_pgdir m m
    · rfl
    · exact fun q hq _ => hbuilt q hq
    · exact fun hc => absurd hc hn
  · intro p hp _
    rcases eq_or_ne p child with rfl | hpc
    · have he : (Function.update s.proc p ⟨some m, ((s.mmCountInc m).mm m).pgdir, .other⟩) p =
        ⟨some m, ((s.mmCountInc m).mm m).pgdir, .other⟩ := Function.update_self ..
      change _ ∨ (Function.update s.proc p _ p).at' = _ ∧
        ((Function.update s.proc p _ p).mm ≠ _ ∨ _)
      rw [he]
      exact .inr ⟨rfl, .inl (by simp)⟩
    · exact .inl ⟨Finset.mem_of_mem_insert_of_ne hp hpc, Function.update_of_ne hpc _ _⟩
  · rw [hcur]
    exact k.released _ k.current
  · unfold State.SatpOk
    rw [hcur]
    rcases k.satp with h | ⟨m', hm', h⟩
    · exact .inl h
    · exact .inr ⟨m', hm', h.trans (mmCountInc_pgdir m m').symm⟩

theorem Inv.addThread {child : ℕ} (k : Inv bootPgdir s) (hn : child ∉ s.procs) :
    Inv bootPgdir (s.setProc child ⟨none, bootPgdir, .other⟩) := by
  have hne : s.current ≠ child := by
    rintro rfl
    exact hn k.current
  have hcur : (s.setProc child ⟨none, bootPgdir, .other⟩).cur = s.cur :=
    Function.update_of_ne hne _ _
  apply Inv.next k
  · rfl
  · exact Finset.mem_insert_of_mem k.current
  · exact k.mem.addKernel hn rfl rfl
  · intro p hp _
    rcases eq_or_ne p child with rfl | hpc
    · have he : (Function.update s.proc p ⟨none, bootPgdir, .other⟩) p =
        ⟨none, bootPgdir, .other⟩ := Function.update_self ..
      change _ ∨ (Function.update s.proc p _ p).at' = _ ∧
        (_ ∨ (Function.update s.proc p _ p).pgdir = _)
      rw [he]
      exact .inr ⟨rfl, .inr rfl⟩
    · exact .inl ⟨Finset.mem_of_mem_insert_of_ne hp hpc, Function.update_of_ne hpc _ _⟩
  · rw [hcur]
    exact k.released _ k.current
  · unfold State.SatpOk
    rw [hcur]
    exact k.satp

theorem Inv.reap {child : ℕ} (k : Inv bootPgdir s) (hne : child ≠ s.current)
    (hin : child ∈ s.procs) (hz : (s.proc child).at' = .zombie) :
    Inv bootPgdir { s with procs := s.procs.erase child } := by
  have hmm : (s.proc child).mm = none := by
    apply k.released child hin
    rw [Proc.Released, hz]
    trivial
  apply Inv.next k
  · rfl
  · exact Finset.mem_erase.mpr ⟨hne.symm, k.current⟩
  · exact Mem.erase k.mem hmm
  · exact fun p hp _ => .inl ⟨Finset.mem_of_mem_erase hp, rfl⟩
  · exact k.released _ k.current
  · exact k.satp

theorem Inv.procRun {next : ℕ} (k : Inv bootPgdir s) (hin : next ∈ s.procs)
    (hz : (s.proc next).at' ≠ .zombie) (hs : next ≠ s.current → s.cur.Settled bootPgdir) :
    Inv bootPgdir (s.procRun next) := by
  unfold State.procRun
  split
  · exact k
  · rename_i hne
    constructor
    · exact hin
    · exact k.mem
    · exact k.released
    · intro p hp _
      rcases eq_or_ne p s.current with rfl | hpc
      · exact hs hne
      · exact k.parked p hp hpc
    · change (s.proc next).pgdir = bootPgdir ∨
        ∃ m, (s.proc next).mm = some m ∧ (s.proc next).pgdir = (s.mm m).pgdir
      rcases k.parked next hin hne with h | h | h
      · exact absurd h hz
      · obtain ⟨m, hm⟩ := Option.ne_none_iff_exists'.mp h
        exact .inr ⟨m, hm, (k.mem.used next hin m hm).2⟩
      · exact .inl h

/-- A process that gives up the processor has an address space, or runs on the kernel's directory,
or is a zombie. -/
def State.GivesUpSettled (bootPgdir : ℕ) (s : State) (e : Event) : Prop :=
  ∀ next ∈ e.next, next ≠ s.current → s.cur.Settled bootPgdir

instance (x : Proc) : Decidable (x.Settled bootPgdir) := inferInstanceAs (Decidable (_ ∨ _))

instance (s : State) (e : Event) : Decidable (s.GivesUpSettled bootPgdir e) :=
  inferInstanceAs (Decidable (∀ _ ∈ _, _))

theorem Inv.step {e : Event} (k : Inv bootPgdir s) (hg : s.GivesUpSettled bootPgdir e)
    (h : s.step bootPgdir e = some t) : Inv bootPgdir t := by
  have hown : s.cur.at' = .other → s.cur.own = none := by
    intro hat
    rw [Proc.own, hat]
  have hreleased : s.cur.Released → s.cur.mm = none := k.released _ k.current
  cases e with
  | fork child cloneVm =>
    simp only [State.step, Option.ite_none_right_eq_some, Option.some.injEq] at h
    obtain ⟨⟨hat, hn, -⟩, rfl⟩ := h
    unfold State.shareMm
    cases hm : s.cur.mm with
    | none => exact k.addThread hn
    | some m =>
      have hused := k.mem.used _ k.current m hm
      have hadd := k.addUser hn hused.1 fun q hq ho => k.mem.unused q hq m ho _ k.current hm
      rwa [mmCountInc_pgdir] at hadd
  | copyMm m d =>
    simp only [State.step, Option.ite_none_right_eq_some, Option.some.injEq] at h
    obtain ⟨⟨hat, hmm, hm, hd⟩, rfl⟩ := h
    exact k.build hm hd rfl False.elim
  | copied child =>
    simp only [State.step] at h
    split at h
    · rename_i m hat
      simp only [Option.ite_none_right_eq_some, Option.some.injEq] at h
      obtain ⟨hn, rfl⟩ := h
      have ho : s.cur.own = some m := by rw [Proc.own, hat]
      have hn' : child ∉ (s.setPoint .other).procs := by
        rwa [State.setPoint, State.setProc, Finset.insert_eq_of_mem k.current]
      have k' : Inv bootPgdir (s.setPoint .other) := k.setPoint rfl False.elim
      apply k'.addUser hn' (k.mem.owned _ k.current m ho)
      intro q hq
      rcases eq_or_ne q s.current with rfl | hne
      · change (s.setPoint .other).cur.own ≠ some m
        rw [setPoint_cur]
        simp [Proc.own]
      · rw [setPoint_proc hne]
        exact fun h =>
          hne (k.mem.owner q (Finset.mem_of_mem_insert_of_ne hq hne) _ k.current m h ho)
    · cases h
  | copyFailed =>
    simp only [State.step] at h
    split at h
    · rename_i m hat
      obtain rfl := Option.some.inj h
      have ho : s.cur.own = some m := by rw [Proc.own, hat]
      exact k.dropMm ho rfl False.elim
    · cases h
  | exit =>
    simp only [State.step, Option.ite_none_right_eq_some, Option.some.injEq] at h
    obtain ⟨⟨hat, -, -⟩, rfl⟩ := h
    exact k.release (hown hat) rfl
  | exited =>
    simp only [State.step, Option.ite_none_right_eq_some, Option.some.injEq] at h
    obtain ⟨hat, rfl⟩ := h
    have hrel : s.cur.Released := by
      rw [Proc.Released, hat]
      trivial
    exact k.setPoint rfl fun _ => hreleased hrel
  | exec =>
    simp only [State.step, Option.ite_none_right_eq_some, Option.some.injEq] at h
    obtain ⟨hat, rfl⟩ := h
    exact k.release (hown hat) rfl
  | setupPgdir m d =>
    simp only [State.step, Option.ite_none_right_eq_some, Option.some.injEq] at h
    obtain ⟨⟨hat, hm, hd⟩, rfl⟩ := h
    have hrel : s.cur.Released := by
      rw [Proc.Released, hat]
      trivial
    exact k.build hm hd rfl fun _ => hreleased hrel
  | loaded =>
    simp only [State.step] at h
    split at h
    · rename_i m hat
      obtain rfl := Option.some.inj h
      have ho : s.cur.own = some m := by rw [Proc.own, hat]
      have hrel : s.cur.Released := by
        rw [Proc.Released, hat]
        trivial
      exact k.enter ho (hreleased hrel)
    · cases h
  | loadFailed =>
    simp only [State.step] at h
    split at h
    · obtain rfl := Option.some.inj h
      exact k.setPoint rfl False.elim
    · rename_i m hat
      obtain rfl := Option.some.inj h
      have ho : s.cur.own = some m := by rw [Proc.own, hat]
      exact k.dropMm ho rfl False.elim
    · cases h
  | run next =>
    simp only [State.step, Option.ite_none_right_eq_some, Option.some.injEq] at h
    obtain ⟨⟨hin, hz⟩, rfl⟩ := h
    exact k.procRun hin hz (hg next rfl)
  | reap child =>
    simp only [State.step, Option.ite_none_right_eq_some, Option.some.injEq] at h
    obtain ⟨⟨-, hin, hne, hz⟩, rfl⟩ := h
    exact k.reap hne hin hz

/-- Every process that can be resumed has a directory that `put_pgdir` has not given back, and so
has the processor. -/
def State.Resumable (bootPgdir : ℕ) (s : State) : Prop :=
  (∀ p ∈ s.procs, p ≠ s.current → (s.proc p).at' ≠ .zombie →
    (s.proc p).pgdir = bootPgdir ∨ (s.proc p).pgdir ∈ s.dirs) ∧
  (s.satp = bootPgdir ∨ s.satp ∈ s.dirs)

instance (s : State) : Decidable (s.Resumable bootPgdir) := inferInstanceAs (Decidable (_ ∧ _))

theorem Inv.resumable (k : Inv bootPgdir s) : s.Resumable bootPgdir := by
  constructor
  · intro p hp hne hz
    rcases k.parked p hp hne with h | h | h
    · exact absurd h hz
    · obtain ⟨m, hm⟩ := Option.ne_none_iff_exists'.mp h
      obtain ⟨hin, hpg⟩ := k.mem.used p hp m hm
      rw [hpg]
      exact .inr (k.mem.dirs m hin)
    · exact .inl h
  · rcases k.satp with h | ⟨m, hm, h⟩
    · exact .inl h
    · rw [h]
      exact .inr (k.mem.dirs m (k.mem.used _ k.current m hm).1)

theorem boot_inv (bootPgdir : ℕ) : Inv bootPgdir (State.boot bootPgdir) := by
  constructor
  · exact Finset.mem_singleton_self _
  · constructor <;> simp [State.boot, Proc.own]
  · exact fun _ _ _ => rfl
  · exact fun _ _ _ => .inr (.inr rfl)
  · exact .inl rfl

/-- In a run in which no process gives up the processor between the release of its address space and
its end or its new address space, no process is resumed on a directory that was given back. -/
theorem resume_safe {l : List Event} (h : Runs
    (fun s e t => s.step bootPgdir e = some t ∧ s.GivesUpSettled bootPgdir e)
    (State.boot bootPgdir) l s) : s.Resumable bootPgdir := by
  have hinv : Inv bootPgdir s :=
    h.invariant (fun s e t k hst => k.step hst.2 hst.1) (boot_inv bootPgdir)
  exact hinv.resumable

end Steps

/-- `initproc` forks a process that executes a program, with the `mm_struct` 1 and the directory 7,
and the process exits. -/
def exitTrace : List Event :=
  [.fork 1 true, .run 1, .fork 2 true, .run 2, .exec, .setupPgdir 1 7, .loaded, .exit]

/-- The process sleeps in `put_files` and is resumed on the directory that it gave back. -/
theorem resume_freed : ∃ s t,
    Runs (fun s e t => s.step 0 e = some t) (State.boot 0) (exitTrace ++ [.run 1]) s ∧
      (s.proc 2).at' = .exiting ∧ (s.proc 2).pgdir = 7 ∧ 7 ∉ s.dirs ∧ ¬ s.Resumable 0 ∧
      s.step 0 (.run 2) = some t ∧ t.satp = 7 ∧ 7 ∉ t.dirs := by
  have h : ((exitTrace ++ [Event.run 1]).foldlM (State.step 0) (State.boot 0)).map (fun s =>
      decide ((s.proc 2).at' = .exiting ∧ (s.proc 2).pgdir = 7 ∧ 7 ∉ s.dirs ∧ ¬ s.Resumable 0) &&
        ((s.step 0 (.run 2)).map fun t => decide (t.satp = 7 ∧ 7 ∉ t.dirs)).getD false) =
      some true := by decide +kernel
  obtain ⟨s, hs, hp⟩ := Option.map_eq_some_iff.mp h
  rw [Bool.and_eq_true, decide_eq_true_eq] at hp
  obtain ⟨⟨h₁, h₂, h₃, h₄⟩, h₅⟩ := hp
  cases ht : s.step 0 (.run 2) with
  | none =>
    rw [ht] at h₅
    cases h₅
  | some t =>
    rw [ht] at h₅
    obtain ⟨h₆, h₇⟩ : t.satp = 7 ∧ 7 ∉ t.dirs := by simpa using h₅
    exact ⟨s, t, Runs.iff_foldlM.mpr hs, h₁, h₂, h₃, h₄, ht, h₆, h₇⟩

/-- The process is a zombie when it gives up the processor. -/
theorem resume_safe_exitTrace : ∃ s,
    Runs (fun s e t => s.step 0 e = some t ∧ s.GivesUpSettled 0 e) (State.boot 0)
      (exitTrace ++ [.exited, .run 1]) s ∧ s.Resumable 0 := by
  have h : ((exitTrace ++ [Event.exited, .run 1]).foldlM
      (fun (s : State) e => if s.GivesUpSettled 0 e then s.step 0 e
        else none) (State.boot 0)).isSome = true := by
    decide +kernel
  obtain ⟨s, hs⟩ := Option.isSome_iff_exists.mp h
  have hrun : Runs (fun s e t => s.step 0 e = some t ∧ s.GivesUpSettled 0 e) (State.boot 0)
      (exitTrace ++ [.exited, .run 1]) s := by
    apply (Runs.iff_foldlM.mpr hs).mono
    intro s e t hst
    rw [Option.ite_none_right_eq_some] at hst
    exact ⟨hst.2, hst.1⟩
  exact ⟨s, hrun, resume_safe hrun⟩

end UCore.Switch

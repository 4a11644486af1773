import UCore.Cow.Ops
import UCore.Library.Run

/-! # Reference counts and permissions under copy on write

In every state that forks, faults, fresh pages and unmappings reach, the reference count of a page
is the number of entries that map it, a page with several references is writable nowhere, and a
page is with the allocator exactly when it has no references.
-/

namespace UCore.Cow

open Library PageTable

/-- The memory with its directories. -/
structure Sys where
  mem : State
  dirs : Finset ℕ

inductive Event
  | setupPgdir
  | copyRange (to' from' start end' : ℕ)
  | doPgfault (mm : Mm) (errorCode addr : ℕ)
  | pgdirAllocPage (pgdir la perm : ℕ)
  | unmapRange (pgdir start end' : ℕ)

namespace Sys

variable (x : Sys)

/-- What the callers guarantee. -/
def admits : Event → Prop
  | .setupPgdir => True
  | .copyRange to' from' start end' => to' ∈ x.dirs ∧ from' ∈ x.dirs ∧
      start % pgsize = 0 ∧ end' % pgsize = 0 ∧ userAccess start end'
  | .doPgfault mm _ _ => mm.Ok ∧ mm.pgdir ∈ x.dirs
  | .pgdirAllocPage pgdir la perm => pgdir ∈ x.dirs ∧ isVpn (la / pgsize) ∧
      x.mem.pte pgdir (la / pgsize) = 0 ∧ perm < 1024 ∧
      (has perm pteCow = true → has perm pteW = false)
  | .unmapRange pgdir start end' => pgdir ∈ x.dirs ∧ start % pgsize = 0 ∧ end' % pgsize = 0 ∧
      userAccess start end'

instance (e : Event) : Decidable (x.admits e) := by
  cases e <;> unfold admits <;> infer_instance

/-- One operation; `none` when an assertion fails. -/
def exec : Event → Option Sys
  | .setupPgdir =>
    match x.mem.setupPgdir bootPageTable with
    | (none, s) => some { x with mem := s }
    | (some q, s) => some ⟨s, insert q x.dirs⟩
  | .copyRange to' from' start end' =>
    (Cow.copyRange to' from' start end' true x.mem).map fun r => { x with mem := r.2 }
  | .doPgfault mm errorCode addr =>
    (Cow.doPgfault mm errorCode addr x.mem).map fun r => { x with mem := r.2.2 }
  | .pgdirAllocPage pgdir la perm =>
    (x.mem.pgdirAllocPage pgdir la perm).map fun r => { x with mem := r.2 }
  | .unmapRange pgdir start end' =>
    (x.mem.unmapRange pgdir start end').map fun s => { x with mem := s }

end Sys

def Step (x : Sys) (e : Event) (y : Sys) : Prop := x.admits e ∧ x.exec e = some y

/-- The reference counts and permissions are right; `managed` are the pages of the allocator. -/
structure Safe (s : State) (D managed : Finset ℕ) : Prop where
  refs : ∀ p ∈ managed, ¬ IsTable s D p → s.ref p = (s.maps D p).card
  user : ∀ p, (s.maps D p).Nonempty → p ∈ managed ∧ ¬ IsTable s D p
  readOnly : ∀ d ∈ D, ∀ v, isVpn v → ∀ p, MapsTo (s.pte d v) p → 1 < s.ref p →
    has (s.pte d v) pteW = false
  exclusive : ∀ d ∈ D, ∀ v, isVpn v →
    ¬ (has (s.pte d v) pteCow = true ∧ has (s.pte d v) pteW = true)
  free : ∀ p ∈ managed, ¬ IsTable s D p → (p ∈ s.free ↔ s.ref p = 0)
  unmapped : ∀ p ∈ s.free, s.maps D p = ∅
  freed : ∀ x ∈ s.freed, x.2 = 0

/-- The invariant of a run. -/
structure Good (managed : Finset ℕ) (x : Sys) (R : ℕ → Role) : Prop where
  cow : CowInv x.mem R x.dirs
  other : ∀ p, R p = .other ↔ p ∉ managed
  freed : ∀ y ∈ x.mem.freed, y.2 = 0

namespace Good

variable {managed : Finset ℕ} {x : Sys} {R : ℕ → Role}

theorem safe (h : Good managed x R) : Safe x.mem x.dirs managed := by
  have k := h.cow.inv
  have hcases : ∀ p ∈ managed, ¬ IsTable x.mem x.dirs p → R p = .free ∨ R p = .user := by
    intro p hp ht
    rw [isTable_iff k] at ht
    cases hR : R p with
    | free => exact .inl rfl
    | user => exact .inr rfl
    | other => exact absurd hp ((h.other p).mp hR)
    | root => simp [hR, Role.isTable] at ht
    | mid d i => simp [hR, Role.isTable] at ht
    | leaf d i j => simp [hR, Role.isTable] at ht
  have hfree : ∀ p, R p = .free → x.mem.ref p = 0 ∧ x.mem.maps x.dirs p = ∅ := fun p hp =>
    ⟨k.wf.freeRef p ((k.wf.free p).mp hp), h.cow.not_mapped hp⟩
  refine ⟨fun p hp ht => ?_, fun p hp => ?_, fun d hd v hv p hm hr => h.cow.readOnly hr hd hv hm,
    fun d hd v hv hx => ?_, fun p hp ht => ?_, fun p hp => (hfree p ((k.wf.free p).mpr hp)).2,
    h.freed⟩
  · rcases hcases p hp ht with hR | hR
    · rw [(hfree p hR).1, (hfree p hR).2]
      simp
    · exact k.refs p hR
  · have hu := k.mapped hp
    rw [isTable_iff k]
    refine ⟨?_, by simp [hu, Role.isTable]⟩
    by_contra hn
    rw [← h.other p, hu] at hn
    simp at hn
  · have := h.cow.excl.cow d hd v hv hx.1
    simp [hx.2] at this
  · rcases hcases p hp ht with hR | hR
    · simp [(hfree p hR).1, ← k.wf.free p, hR]
    · rw [← k.wf.free p, k.refs p hR]
      have := h.cow.full p hR
      rw [← Finset.card_pos] at this
      simp only [hR, reduceCtorEq, false_iff]
      omega

theorem acts {g : ℕ → ℕ → Option (ℕ → ℕ)} {t : State} {R' : ℕ → Role} (h : Good managed x R)
    (ha : Acts x.mem R x.dirs g t R') : Good managed { x with mem := t } R' := by
  refine ⟨ha.cow, fun p => (ha.other p).trans (h.other p), ?_⟩
  obtain ⟨l, hl, hz⟩ := ha.freed
  intro y hy
  change y ∈ t.freed at hy
  rw [hl, List.mem_append] at hy
  exact hy.elim (h.freed y) (hz y)

/-- One operation: no assertion fails and the invariant is kept. -/
theorem step {e : Event} (h : Good managed x R) (hok : x.admits e) :
    ∃ y R', x.exec e = some y ∧ Good managed y R' := by
  cases e with
  | setupPgdir =>
    rcases setupPgdir_spec (fun _ => Cow.bootPageTable_user) h.cow with ⟨l, hs⟩ | ⟨q, t, R', hs, ho⟩
    · exact ⟨_, R, by simp [Sys.exec, hs], h.acts (h.cow.answers l)⟩
    · refine ⟨⟨t, insert q x.dirs⟩, R', by simp [Sys.exec, hs], ho.cow, fun p => ?_, ?_⟩
      · rw [ho.other, h.other]
      · rw [ho.freed]
        exact h.freed
  | copyRange to' from' start end' =>
    obtain ⟨hto, hfrom, hs, he, hu⟩ := hok
    obtain ⟨ret, t, b, hc, -, R', ha⟩ := copyRange_spec h.cow hfrom hto hs he hu
    exact ⟨_, R', by simp [Sys.exec, hc], h.acts ha⟩
  | doPgfault mm errorCode addr =>
    obtain ⟨ret, mm', t, hf, -, ⟨R', g, ha, -⟩, -⟩ :=
      doPgfault_spec errorCode addr h.cow hok.1 hok.2
    exact ⟨_, R', by simp [Sys.exec, hf], h.acts ha⟩
  | pgdirAllocPage pgdir la perm =>
    obtain ⟨hd, hv, -, hperm, hcow⟩ := hok
    obtain ⟨o, t, R', hp, ⟨-, ha⟩ | ⟨q, g, -, -, -, ha⟩⟩ :=
      pgdirAllocPage_spec h.cow hd hv hperm hcow
    · exact ⟨_, R', by simp [Sys.exec, hp], h.acts ha⟩
    · exact ⟨_, R', by simp [Sys.exec, hp], h.acts ha⟩
  | unmapRange pgdir start end' =>
    obtain ⟨hd, hs, he, hu⟩ := hok
    obtain ⟨t, R', ht, ha⟩ := h.cow.unmap hd hs he hu
    exact ⟨_, R', by simp [Sys.exec, ht], h.acts ha⟩

end Good

theorem cowInv_start {s : State} (h : Start s) : CowInv s (startRole s) ∅ where
  inv := h.inv
  full p hp := by rcases startRole_cases hp with h | h <;> simp at h
  excl := ⟨by simp, by simp⟩

/-- In every run of the copy-on-write code the counts and permissions are right, and no assertion
of a further operation fails. -/
theorem cow_safe {s : State} {l : List Event} {x : Sys} (hs : Start s) (hf : s.freed = [])
    (hr : Runs Step ⟨s, ∅⟩ l x) :
    Safe x.mem x.dirs s.free ∧ ∀ e, x.admits e → (x.exec e).isSome := by
  have hgood : ∃ R, Good s.free x R := by
    refine hr.invariant (P := fun x => ∃ R, Good s.free x R) ?_
      ⟨_, cowInv_start hs, by simp [startRole], by simp [hf]⟩
    rintro x e y ⟨R, h⟩ ⟨hok, he⟩
    obtain ⟨y', R', he', h'⟩ := h.step hok
    rw [he'] at he
    exact ⟨R', Option.some.inj he ▸ h'⟩
  obtain ⟨R, h⟩ := hgood
  refine ⟨h.safe, fun e hok => ?_⟩
  obtain ⟨y, R', he, -⟩ := h.step hok
  simp [he]

/-- Eight free pages, enough for two small address spaces. -/
def eightPages : State :=
  ⟨fun _ _ => 0, fun _ => 0, {1, 2, 3, 4, 5, 6, 7, 8}, (List.range 9).tail.map some, []⟩

/-- A page is shared with a second address space and then copied by a store. -/
def forkTrace : List Event :=
  [.setupPgdir, .pgdirAllocPage 1 userbase (pteU ||| pteR ||| pteW), .setupPgdir,
    .copyRange 5 1 userbase (userbase + pgsize),
    .doPgfault ⟨[⟨userbase, userbase + pgsize, vmRead ||| vmWrite⟩], none, 5⟩ causeStorePageFault
      userbase]

theorem cow_safe_forkTrace : ∃ x, Runs Step ⟨eightPages, ∅⟩ forkTrace x ∧
    Safe x.mem x.dirs eightPages.free ∧ x.mem.ref 2 = 1 ∧ x.mem.ref 8 = 1 := by
  have he : (forkTrace.foldlM (fun x e => if Sys.admits x e then x.exec e else none)
      ⟨eightPages, ∅⟩).map (fun x => (x.mem.ref 2, x.mem.ref 8)) = some (1, 1) := by
    decide +kernel
  obtain ⟨x, hx, hv⟩ := Option.map_eq_some_iff.mp he
  have hr : Runs Step ⟨eightPages, ∅⟩ forkTrace x :=
    (Runs.iff_foldlM.mpr hx).mono fun s i t h => by simpa [Step] using h
  have hsafe := (cow_safe (fun _ _ => rfl) rfl hr).1
  rw [Prod.mk.injEq] at hv
  exact ⟨x, hr, hsafe, hv⟩

end UCore.Cow

import UCore.Cow.Safety
import UCore.Fork.Spaces
import UCore.Library.Run

/-! # Copy-on-write isolation

The bytes that the processes read are those of a machine in which every process has memory of its
own and a fork copies all of it. Each event of the kernel is one step of that machine.
-/

namespace UCore.Fork

open Library PageTable Cow

/-- The bytes of the mapped pages of each process. -/
abbrev Memory := ℕ → Option (ℕ → Option (ℕ → ℕ))

namespace Memory

/-- A process has a page with these bytes at a page number. -/
def setPage (m : Memory) (pid v : ℕ) (page : ℕ → ℕ) : Memory :=
  Function.update m pid ((m pid).map fun f => Function.update f v (some page))

/-- The page of an access: the mapped one, or a new one with any contents. -/
def Finds (m : Memory) (pid v : ℕ) (page : ℕ → ℕ) : Prop :=
  ∃ f, m pid = some f ∧ ∀ page' ∈ f v, page' = page

/-- The machine with private memory. -/
inductive Step (m : Memory) : Event × Outcome → Memory → Prop
  | failed (e : Event)
      (h : ∀ pid addr, e = .load pid addr → (m pid).bind (· (addr / pgsize)) = none) :
      Step m (e, .failed) m
  | exec (pid : ℕ) (areas : List Vma) (h : m pid = none) :
      Step m (.exec pid areas, .done) (Function.update m pid (some fun _ => none))
  | fill (pid la perm : ℕ) (contents : ℕ → ℕ) :
      Step m (.fill pid la perm contents, .done) (m.setPage pid (la / pgsize) (bytes contents))
  | load (pid addr : ℕ) (page : ℕ → ℕ) (h : m.Finds pid (addr / pgsize) page) :
      Step m (.load pid addr, .byte (page (addr % pgsize))) (m.setPage pid (addr / pgsize) page)
  | store (pid addr b : ℕ) (page : ℕ → ℕ) (h : m.Finds pid (addr / pgsize) page) :
      Step m (.store pid addr b, .done)
        (m.setPage pid (addr / pgsize) (Function.update page (addr % pgsize) b))
  | fork (parent child : ℕ) (kmallocs : List Bool) (h : m child = none) :
      Step m (.fork parent child kmallocs, .done) (Function.update m child (m parent))
  | exit (pid : ℕ) : Step m (.exit pid, .done) (Function.update m pid none)

end Memory

namespace Kernel

variable (x : Kernel)

/-- The bytes that the processes of the kernel read. -/
def memory : Memory := fun pid => (x.procs pid).map fun mm v =>
  if isVpn v then (view x.mem mm.pgdir v).map bytes else none

/-- What the callers guarantee. -/
def admits : Event → Prop
  | .exec pid areas => x.procs pid = none ∧ (∀ vma ∈ areas, vma.Ok) ∧ Sorted areas
  | .fill pid la perm _ => (x.procs pid).any (·.mmapList.any (·.contains la)) = true ∧
      perm < 1024 ∧ (has perm pteCow = true → has perm pteW = false)
  | .load pid _ => (x.procs pid).isSome
  | .store pid _ b => (x.procs pid).isSome ∧ b < 256
  | .fork parent child _ => (x.procs parent).isSome ∧ x.procs child = none
  | .exit pid => (x.procs pid).isSome

instance (e : Event) : Decidable (x.admits e) := by
  cases e <;> unfold admits <;> infer_instance

end Kernel

def Step (x : Kernel) (e : Event × Outcome) (y : Kernel) : Prop :=
  x.admits e.1 ∧ x.step e.1 = some (e.2, y)

/-- The invariant of a run. -/
structure Good (x : Kernel) (R : ℕ → Role) (D : Finset ℕ) : Prop where
  cow : CowInv x.mem R D
  dir : ∀ {pid mm}, x.procs pid = some mm → mm.pgdir ∈ D
  ok : ∀ {pid mm}, x.procs pid = some mm → mm.Ok
  sorted : ∀ {pid mm}, x.procs pid = some mm → Sorted mm.mmapList
  inside : ∀ {pid mm}, x.procs pid = some mm → Inside x.mem mm
  distinct : ∀ {pid pid' mm mm'}, x.procs pid = some mm → x.procs pid' = some mm' →
    mm.pgdir = mm'.pgdir → pid = pid'

section Frame

variable {x : Kernel} {R R' : ℕ → Role} {D : Finset ℕ} {pid d v : ℕ} {mm mm' : Mm} {t : State}
  {f : ℕ → ℕ}

theorem memory_eq (hp : x.procs pid = some mm) : x.memory pid =
    some fun v => if isVpn v then (view x.mem mm.pgdir v).map bytes else none := by
  simp [Kernel.memory, hp]

theorem memory_congr {y : Kernel} (hp : y.procs = x.procs)
    (hv : ∀ pid mm, x.procs pid = some mm → ∀ v, isVpn v →
      view y.mem mm.pgdir v = view x.mem mm.pgdir v) : y.memory = x.memory := by
  funext pid
  unfold Kernel.memory
  rw [hp]
  cases h : x.procs pid with
  | none => rfl
  | some mm =>
    simp only [Option.map_some, Option.some.injEq]
    funext v
    split
    · rename_i hx
      rw [hv pid mm h v hx]
    · rfl

theorem memory_same (hp : x.procs pid = some mm) (hs : mm.Same mm') :
    (x.setMm pid (some mm')).memory = x.memory := by
  funext i
  unfold Kernel.memory Kernel.setMm
  rcases eq_or_ne i pid with rfl | hi
  · simp [hp, hs.pgdir]
  · simp [hi]

theorem Good.same (h : Good x R D) (hp : x.procs pid = some mm) (hs : mm.Same mm') :
    Good (x.setMm pid (some mm')) R D := by
  have hold : ∀ {i m}, (x.setMm pid (some mm')).procs i = some m →
      ∃ m', x.procs i = some m' ∧ m'.Same m := by
    intro i m hm
    unfold Kernel.setMm at hm
    rcases eq_or_ne i pid with rfl | hi
    · obtain rfl : mm' = m := by simpa using hm
      exact ⟨mm, hp, hs⟩
    · have hm' : x.procs i = some m := by simpa [hi] using hm
      exact ⟨m, hm', rfl, rfl, h.ok hm'⟩
  refine ⟨h.cow, fun hm => ?_, fun hm => ?_, fun hm => ?_, fun hm => ?_, fun hm hm' hd => ?_⟩
  · obtain ⟨m', hm', hs⟩ := hold hm
    rw [hs.pgdir]
    exact h.dir hm'
  · obtain ⟨m', hm', hs⟩ := hold hm
    exact hs.ok
  · obtain ⟨m', hm', hs⟩ := hold hm
    rw [hs.list]
    exact h.sorted hm'
  · obtain ⟨m', hm', hs⟩ := hold hm
    have := h.inside hm'
    unfold Inside at this ⊢
    rw [hs.list, hs.pgdir]
    exact this
  · obtain ⟨m₁, hm₁, hs₁⟩ := hold hm
    obtain ⟨m₂, hm₂, hs₂⟩ := hold hm'
    exact h.distinct hm₁ hm₂ (by rw [← hs₁.pgdir, hd, hs₂.pgdir])

theorem Good.setMem (h : Good x R D) (c : CowInv t R' D)
    (hin : ∀ pid mm, x.procs pid = some mm → Inside t mm) : Good { x with mem := t } R' D where
  cow := c
  dir := h.dir
  ok := h.ok
  sorted := h.sorted
  inside hm := hin _ _ hm
  distinct := h.distinct

theorem Good.quiet (h : Good x R D) (c : CowInv t R' D)
    (hview : ∀ d ∈ D, ∀ v, isVpn v → view t d v = view x.mem d v) :
    Good { x with mem := t } R' D ∧ Kernel.memory { x with mem := t } = x.memory := by
  refine ⟨h.setMem c fun pid mm hm v hv hs => ?_, memory_congr rfl fun pid mm hm v hv => ?_⟩
  · rw [hview _ (h.dir hm) v hv] at hs
    exact h.inside hm v hv hs
  · exact hview _ (h.dir hm) v hv

/-- An operation that sets one page of one process. -/
theorem Good.setPage (h : Good x R D) (hp : x.procs pid = some mm) (hv : isVpn v)
    (hin : mm.mmapList.any (·.hasPage v) = true)
    (ha : Acts x.mem R D (setView (view x.mem) mm.pgdir v f) t R') :
    Good { x with mem := t } R' D ∧
      Kernel.memory { x with mem := t } = x.memory.setPage pid v (bytes f) := by
  constructor
  · refine h.setMem ha.cow fun i m hm w hw hs => ?_
    rw [ha.view _ (h.dir hm) w hw, setView, setEntry] at hs
    split at hs
    · rename_i he
      obtain rfl := h.distinct hm hp he.1
      rw [hp, Option.some.injEq] at hm
      rw [← hm, he.2]
      exact hin
    · exact h.inside hm w hw hs
  · funext i
    unfold Memory.setPage
    rcases eq_or_ne i pid with rfl | hi
    · have hp' : Kernel.procs { x with mem := t } i = some mm := hp
      rw [Function.update_self, memory_eq hp, memory_eq hp']
      simp only [Option.map_some, Option.some.injEq]
      funext w
      rcases eq_or_ne w v with rfl | hw
      · rw [Function.update_self, if_pos hv, ha.view _ (h.dir hp) w hv]
        simp [setView, setEntry]
      · rw [Function.update_of_ne hw]
        split
        · rename_i hx
          rw [ha.view _ (h.dir hp) w hx, setView, setEntry, if_neg fun he => hw he.2]
        · rfl
    · rw [Function.update_of_ne hi]
      unfold Kernel.memory
      cases hm : x.procs i with
      | none => rfl
      | some m =>
        simp only [Option.map_some, Option.some.injEq]
        funext w
        split
        · rename_i hx
          rw [ha.view _ (h.dir hm) w hx, setView, setEntry, if_neg]
          exact fun he => hi (h.distinct hm hp he.1)
        · rfl

end Frame

section Access

variable {x y : Kernel} {R R' : ℕ → Role} {D : Finset ℕ} {pid v addr b errorCode : ℕ} {mm mm' : Mm}
  {t : State} {m : Memory} {page page' : ℕ → ℕ} {f : ℕ → Option (ℕ → ℕ)}

theorem Memory.setPage_same (hm : m pid = some f) (hf : f v = some page) :
    m.setPage pid v page = m := by
  have hu : Function.update f v (some page) = f := Function.update_eq_self_iff.mpr hf.symm
  unfold Memory.setPage
  rw [hm, Option.map_some, hu]
  exact Function.update_eq_self_iff.mpr hm.symm

theorem Memory.setPage_setPage :
    (m.setPage pid v page).setPage pid v page' = m.setPage pid v page' := by
  unfold Memory.setPage
  rw [Function.update_self, Function.update_idem]
  cases m pid <;> simp

theorem isVpn_of_userPte {s : State} {d : ℕ} (h : has (userPte s d addr) pteV = true) :
    isVpn (addr / pgsize) ∧ userPte s d addr = s.pte d (addr / pgsize) := by
  unfold userPte at h ⊢
  split at h
  · rename_i hv
    exact ⟨hv, if_pos hv⟩
  · simp at h

theorem memory_of_userPte (hp : x.procs pid = some mm)
    (h : has (userPte x.mem mm.pgdir addr) pteV = true) :
    ∃ f, x.memory pid = some f ∧
      f (addr / pgsize) = some (bytes (x.mem.word (pte2page (userPte x.mem mm.pgdir addr)))) := by
  obtain ⟨hv, he⟩ := isVpn_of_userPte h
  refine ⟨_, memory_eq hp, ?_⟩
  rw [he] at h
  simp [hv, he, view, pageOf, h]

theorem hasPage_of_contains {vma : Vma} (hok : vma.Ok) (h : vma.contains addr = true) :
    vma.hasPage (addr / pgsize) = true := by
  have hs := hok.stop
  rw [Vma.contains_iff] at h
  simp only [Vma.hasPage, Bool.and_eq_true, decide_eq_true_eq]
  unfold pgsize at *
  omega

/-- The page of an access is there now; it is the one that was there, or a new one. -/
structure Ready (x : Kernel) (pid addr : ℕ) (page : ℕ → ℕ) (y : Kernel) : Prop where
  finds : x.memory.Finds pid (addr / pgsize) page
  memory : y.memory = x.memory.setPage pid (addr / pgsize) page

theorem Ready.refl (hp : x.procs pid = some mm)
    (h : has (userPte x.mem mm.pgdir addr) pteV = true) :
    Ready x pid addr (bytes (x.mem.word (pte2page (userPte x.mem mm.pgdir addr)))) x := by
  obtain ⟨f, hm, hf⟩ := memory_of_userPte hp h
  refine ⟨⟨f, hm, fun page' hp => ?_⟩, (Memory.setPage_same hm hf).symm⟩
  rw [hf] at hp
  simpa using hp.symm

/-- What a fault leaves behind. -/
structure Handled (x : Kernel) (D : Finset ℕ) (pid addr : ℕ) (mm : Mm) (write : Bool) (ret : ℤ)
    (y : Kernel) : Prop where
  good : ∃ R, Good y R D
  same : ∃ mm', y.procs pid = some mm' ∧ mm'.pgdir = mm.pgdir
  failed : ret ≠ 0 → y.memory = x.memory
  valid : ret = 0 → has (userPte y.mem mm.pgdir addr) pteV = true ∧
    Ready x pid addr (bytes (y.mem.word (pte2page (userPte y.mem mm.pgdir addr)))) y
  writable : ret = 0 → write = true → Kernel.writable y.mem mm.pgdir addr = true

theorem Good.fault (errorCode addr : ℕ) (h : Good x R D) (hp : x.procs pid = some mm) :
    ∃ ret mm' t, doPgfault mm errorCode addr x.mem = some (ret, mm', t) ∧
      Handled x D pid addr mm (errorCode = causeStorePageFault) ret
        ({ x with mem := t }.setMm pid (some mm')) := by
  obtain ⟨ret, mm', t, hf, hs, ⟨R', g, ha, hg, hret⟩, harea⟩ :=
    doPgfault_spec errorCode addr h.cow (h.ok hp) (h.dir hp)
  have hin : ret = 0 → isVpn (addr / pgsize) ∧
      mm.mmapList.any (·.hasPage (addr / pgsize)) = true := by
    intro hz
    obtain ⟨vma, hmem, hc⟩ := harea hz
    have hok := (h.ok hp).vmas vma hmem
    exact ⟨hok.isVpn hc, List.any_eq_true.mpr ⟨vma, hmem, hasPage_of_contains hok hc⟩⟩
  have hpte : ret = 0 → userPte t mm.pgdir addr = t.pte mm.pgdir (addr / pgsize) :=
    fun hz => if_pos (hin hz).1
  have hvalid : ret = 0 → has (userPte t mm.pgdir addr) pteV = true := by
    intro hz
    rw [hpte hz]
    exact (hret hz).1
  have hgood : Good { x with mem := t } R' D ∧ (Kernel.memory { x with mem := t } = x.memory ∨
      ret = 0 ∧ view x.mem mm.pgdir (addr / pgsize) = none ∧
        ∃ page, Kernel.memory { x with mem := t } =
          x.memory.setPage pid (addr / pgsize) page) := by
    rcases hg with rfl | ⟨hz, hnone, f, rfl⟩
    · have h' := h.quiet ha.cow ha.view
      exact ⟨h'.1, .inl h'.2⟩
    · have h' := h.setPage hp (hin hz).1 (hin hz).2 ha
      exact ⟨h'.1, .inr ⟨hz, hnone, _, h'.2⟩⟩
  have hmem : (Kernel.setMm { x with mem := t } pid (some mm')).memory =
      Kernel.memory { x with mem := t } := memory_same (x := { x with mem := t }) hp hs
  refine ⟨ret, mm', t, hf, ⟨R', hgood.1.same hp hs⟩, ⟨mm', by simp [Kernel.setMm], hs.pgdir⟩,
    fun hne => ?_, fun hz => ⟨hvalid hz, ?_⟩, fun hz hw => ?_⟩
  · rw [hmem]
    exact hgood.2.resolve_right fun h => hne h.1
  · obtain ⟨f, hm, hf⟩ := memory_of_userPte (x := { x with mem := t }) hp (hvalid hz)
    change Ready x pid addr (bytes (t.word (pte2page (userPte t mm.pgdir addr)))) _
    rcases hgood.2 with he | ⟨-, hnone, page, he⟩
    · rw [he] at hm
      refine ⟨⟨f, hm, fun page' hp' => ?_⟩, ?_⟩
      · rw [hf] at hp'
        simpa using hp'.symm
      · rw [hmem, he, Memory.setPage_same hm hf]
    · refine ⟨⟨_, memory_eq hp, by simp [hnone]⟩, ?_⟩
      rw [he, Memory.setPage, Function.update_self, memory_eq hp, Option.map_some,
        Option.some.injEq] at hm
      rw [← hm, Function.update_self, Option.some.injEq] at hf
      rw [hmem, he, hf]
  · change Kernel.writable t mm.pgdir addr = true
    unfold Kernel.writable
    rw [hvalid hz, hpte hz, (hret hz).2 hw]
    rfl

theorem Good.write (h : Good y R D) (hp : y.procs pid = some mm')
    (hw : Kernel.writable y.mem mm'.pgdir addr = true) (hb : b < 256) (hd : mm'.pgdir = mm.pgdir) :
    Good (y.write mm addr b) R D ∧ (y.write mm addr b).memory =
      y.memory.setPage pid (addr / pgsize) (Function.update
        (bytes (y.mem.word (pte2page (userPte y.mem mm.pgdir addr)))) (addr % pgsize) b) := by
  unfold Kernel.writable at hw
  rw [Bool.and_eq_true] at hw
  obtain ⟨hv, he⟩ := isVpn_of_userPte hw.1
  rw [he] at hw
  have hin : mm'.mmapList.any (·.hasPage (addr / pgsize)) = true := by
    apply h.inside hp _ hv
    simp [view, pageOf, hw.1]
  have h' := h.setPage hp hv hin (CowInv.store (f := storeByte
    (y.mem.word (pte2page (y.mem.pte mm'.pgdir (addr / pgsize)))) (addr % pgsize) b)
    h.cow (h.dir hp) hv hw.1 hw.2)
  rw [bytes_storeByte hb] at h'
  simp only [Kernel.write, ← hd, he]
  exact h'

theorem Good.load (addr : ℕ) (h : Good x R D) (hp : x.procs pid = some mm) : ∃ o y R',
    x.load pid mm addr = some (o, y) ∧ Good y R' D ∧
      Memory.Step x.memory (.load pid addr, o) y.memory := by
  unfold Kernel.load
  split
  · rename_i hv
    have hr := Ready.refl hp hv
    have hs := Memory.Step.load pid addr _ hr.finds
    rw [← hr.memory] at hs
    exact ⟨_, x, R, rfl, h, hs⟩
  · rename_i hv
    obtain ⟨ret, mm', t, hf, hh⟩ := h.fault causeLoadPageFault addr hp
    obtain ⟨R', hg⟩ := hh.good
    rw [hf]
    dsimp only
    split
    · rename_i hz
      have hr := (hh.valid hz.1).2
      have hs := Memory.Step.load pid addr _ hr.finds
      rw [← hr.memory] at hs
      exact ⟨_, _, R', rfl, hg, hs⟩
    · rename_i hz
      have hne : ret ≠ 0 := fun h₀ => hz ⟨h₀, (hh.valid h₀).1⟩
      refine ⟨_, _, R', rfl, hg, ?_⟩
      rw [hh.failed hne]
      refine .failed _ ?_
      rintro pid' addr' he
      obtain ⟨rfl, rfl⟩ : pid = pid' ∧ addr = addr' := by simpa using he
      rw [memory_eq hp, Option.bind_some]
      unfold userPte at hv
      dsimp only
      split
      · rename_i hx
        rw [if_pos hx] at hv
        simp [view, pageOf, hv]
      · rfl

theorem Good.store (addr : ℕ) (h : Good x R D) (hp : x.procs pid = some mm)
    (hb : b < 256) : ∃ o y R',
    x.store pid mm addr b = some (o, y) ∧ Good y R' D ∧
      Memory.Step x.memory (.store pid addr b, o) y.memory := by
  unfold Kernel.store
  split
  · rename_i hw
    obtain ⟨hg, hm⟩ := h.write hp hw hb rfl
    have hv : has (userPte x.mem mm.pgdir addr) pteV = true := by
      unfold Kernel.writable at hw
      rw [Bool.and_eq_true] at hw
      exact hw.1
    refine ⟨_, _, R, rfl, hg, ?_⟩
    rw [hm]
    exact .store pid addr b _ (Ready.refl hp hv).finds
  · obtain ⟨ret, mm', t, hf, hh⟩ := h.fault causeStorePageFault addr hp
    obtain ⟨R', hg⟩ := hh.good
    rw [hf]
    dsimp only
    split
    · rename_i hz
      have hr := (hh.valid hz.1).2
      obtain ⟨m, hm, hd⟩ := hh.same
      obtain ⟨hg', hm'⟩ := hg.write hm (by rw [hd]; exact hz.2) hb hd
      refine ⟨_, _, R', rfl, hg', ?_⟩
      rw [hm', hr.memory, Memory.setPage_setPage]
      exact .store pid addr b _ hr.finds
    · rename_i hz
      have hne : ret ≠ 0 := fun h₀ => hz ⟨h₀, hh.writable h₀ (by simp)⟩
      refine ⟨_, _, R', rfl, hg, ?_⟩
      rw [hh.failed hne]
      exact .failed _ (by simp)

end Access

section Spaces

variable {x : Kernel} {R R' : ℕ → Role} {D D' : Finset ℕ} {pid la perm child : ℕ} {mm : Mm}
  {t : State} {contents : ℕ → ℕ} {areas : List Vma} {kmallocs : List Bool}

/-- A process with an address space of its own comes in. -/
theorem Good.add (pid : ℕ) (mm : Mm) (h : Good x R D) (c : CowInv t R' D') (hD : D ⊆ D')
    (hview : ∀ d ∈ D, ∀ v, isVpn v → view t d v = view x.mem d v) (hpid : x.procs pid = none)
    (hdir : mm.pgdir ∈ D') (hnew : mm.pgdir ∉ D) (hok : mm.Ok) (hs : Sorted mm.mmapList)
    (hin : Inside t mm) : Good ({ x with mem := t }.setMm pid (some mm)) R' D' ∧
      ({ x with mem := t }.setMm pid (some mm)).memory = Function.update x.memory pid
        (some fun v => if isVpn v then (view t mm.pgdir v).map bytes else none) := by
  have hold : ∀ {i m}, (Kernel.setMm { x with mem := t } pid (some mm)).procs i = some m →
      i = pid ∧ mm = m ∨ i ≠ pid ∧ x.procs i = some m := by
    intro i m hm
    unfold Kernel.setMm at hm
    rcases eq_or_ne i pid with rfl | hi
    · exact .inl ⟨rfl, by simpa using hm⟩
    · exact .inr ⟨hi, by simpa [hi] using hm⟩
  constructor
  · refine ⟨c, fun hm => ?_, fun hm => ?_, fun hm => ?_, fun hm => ?_, fun hm hm' hd => ?_⟩
    · rcases hold hm with ⟨-, rfl⟩ | ⟨-, hm⟩
      · exact hdir
      · exact hD (h.dir hm)
    · rcases hold hm with ⟨-, rfl⟩ | ⟨-, hm⟩
      · exact hok
      · exact h.ok hm
    · rcases hold hm with ⟨-, rfl⟩ | ⟨-, hm⟩
      · exact hs
      · exact h.sorted hm
    · rcases hold hm with ⟨-, rfl⟩ | ⟨-, hm⟩
      · exact hin
      · intro v hv hsome
        change (view t _ v).isSome = true at hsome
        rw [hview _ (h.dir hm) v hv] at hsome
        exact h.inside hm v hv hsome
    · rcases hold hm with ⟨rfl, rfl⟩ | ⟨-, hm₁⟩ <;>
        rcases hold hm' with ⟨rfl, rfl⟩ | ⟨-, hm₂⟩
      · rfl
      · exact absurd (hd ▸ h.dir hm₂) hnew
      · exact absurd (hd ▸ h.dir hm₁) hnew
      · exact h.distinct hm₁ hm₂ hd
  · funext i
    rcases eq_or_ne i pid with rfl | hi
    · simp [Kernel.memory, Kernel.setMm]
    · rw [Function.update_of_ne hi]
      simp only [Kernel.memory, Kernel.setMm, Function.update_of_ne hi]
      cases hm : x.procs i with
      | none => rfl
      | some m =>
        simp only [Option.map_some, Option.some.injEq]
        funext v
        split
        · rename_i hv
          rw [hview _ (h.dir hm) v hv]
        · rfl

/-- A process gives its address space back. -/
theorem Good.remove (h : Good x R D) (hp : x.procs pid = some mm)
    (c : CowInv t R' (D.erase mm.pgdir))
    (hview : ∀ d ∈ D.erase mm.pgdir, ∀ v, isVpn v → view t d v = view x.mem d v) :
    Good ({ x with mem := t }.setMm pid none) R' (D.erase mm.pgdir) ∧
      ({ x with mem := t }.setMm pid none).memory = Function.update x.memory pid none := by
  have hold : ∀ {i m}, (Kernel.setMm { x with mem := t } pid none).procs i = some m →
      x.procs i = some m ∧ m.pgdir ∈ D.erase mm.pgdir := by
    intro i m hm
    unfold Kernel.setMm at hm
    rcases eq_or_ne i pid with rfl | hi
    · simp at hm
    · have hm : x.procs i = some m := by simpa [hi] using hm
      exact ⟨hm, Finset.mem_erase.mpr ⟨fun hd => hi (h.distinct hm hp hd), h.dir hm⟩⟩
  constructor
  · refine ⟨c, fun hm => (hold hm).2, fun hm => h.ok (hold hm).1, fun hm => h.sorted (hold hm).1,
      fun hm v hv hsome => ?_, fun hm hm' => h.distinct (hold hm).1 (hold hm').1⟩
    change (view t _ v).isSome = true at hsome
    rw [hview _ (hold hm).2 v hv] at hsome
    exact h.inside (hold hm).1 v hv hsome
  · funext i
    rcases eq_or_ne i pid with rfl | hi
    · simp [Kernel.memory, Kernel.setMm]
    · rw [Function.update_of_ne hi]
      have hproc : (Kernel.setMm { x with mem := t } pid none).procs i = x.procs i := by
        simp [Kernel.setMm, hi]
      unfold Kernel.memory
      rw [hproc]
      cases hm : x.procs i with
      | none => rfl
      | some m =>
        simp only [Option.map_some, Option.some.injEq]
        funext v
        split
        · rename_i hv
          change (view t m.pgdir v).map bytes = _
          rw [hview _ (hold (hproc.trans hm)).2 v hv]
        · rfl

theorem Memory.Step.failure {m : Memory} {e : Event} (h : ∀ pid addr, e ≠ .load pid addr) :
    Memory.Step m (e, .failed) m := .failed e fun pid addr he => absurd he (h pid addr)

theorem Good.exec (h : Good x R D) (hpid : x.procs pid = none) (hok : ∀ vma ∈ areas, vma.Ok)
    (hs : Sorted areas) : ∃ o y R' D', x.exec pid areas = some (o, y) ∧ Good y R' D' ∧
      Memory.Step x.memory (.exec pid areas, o) y.memory := by
  unfold Kernel.exec
  rcases setupPgdir_spec (fun _ => Cow.bootPageTable_user) h.cow with ⟨l, hq⟩ | ⟨q, t, R', hq, ho⟩
  · have ha := h.cow.answers l
    obtain ⟨hg, hm⟩ := h.quiet ha.cow ha.view
    rw [hq]
    refine ⟨_, _, R, D, rfl, hg, ?_⟩
    rw [hm]
    exact .failure (by simp)
  · have hin : Inside t ⟨areas, none, q⟩ := by
      intro v hv hsome
      simp [ho.empty v hv] at hsome
    obtain ⟨hg, hm⟩ := h.add pid ⟨areas, none, q⟩ ho.cow (Finset.subset_insert q D) ho.view
      hpid (Finset.mem_insert_self q D) ho.new ⟨hok, by simp⟩ hs hin
    rw [hq]
    refine ⟨_, _, R', _, rfl, hg, ?_⟩
    have hnone : (fun v => if isVpn v then (view t q v).map bytes else none) = fun _ => none := by
      funext v
      split
      · rename_i hv
        simp [ho.empty v hv]
      · rfl
    rw [hm, hnone]
    exact .exec pid areas (by simp [Kernel.memory, hpid])

theorem Good.fill (contents : ℕ → ℕ) (h : Good x R D) (hp : x.procs pid = some mm)
    (hla : mm.mmapList.any (·.contains la) = true) (hperm : perm < 1024)
    (hcow : has perm pteCow = true → has perm pteW = false) : ∃ o y R',
      x.fill mm la perm contents = some (o, y) ∧ Good y R' D ∧
        Memory.Step x.memory (.fill pid la perm contents, o) y.memory := by
  obtain ⟨vma, hvma, hc⟩ := List.any_eq_true.mp hla
  have hok := (h.ok hp).vmas vma hvma
  have hv := hok.isVpn hc
  have hin : mm.mmapList.any (·.hasPage (la / pgsize)) = true :=
    List.any_eq_true.mpr ⟨vma, hvma, hasPage_of_contains hok hc⟩
  unfold Kernel.fill
  obtain ⟨o, t, R', ht, ⟨rfl, ha⟩ | ⟨q, f, rfl, hr, hpte, ha⟩⟩ :=
    pgdirAllocPage_spec h.cow (h.dir hp) hv hperm hcow
  · obtain ⟨hg, hm⟩ := h.quiet ha.cow ha.view
    rw [ht]
    refine ⟨_, _, R', rfl, hg, ?_⟩
    rw [hm]
    exact .failure (by simp)
  · have hmap : MapsTo (t.pte mm.pgdir (la / pgsize)) q := by
      rw [hpte]
      exact (mapsTo_leafEntry hperm).mpr rfl
    have ha' := CowInv.setPage (f := contents) ha.cow (h.dir hp) hv hmap fun d' hd' v' hv' hm' =>
      ha.cow.unique (by omega) hd' hv' (h.dir hp) hv hm' hmap
    have ha'' : Acts x.mem R D (setView (view x.mem) mm.pgdir (la / pgsize) contents)
        (t.setPage q contents) R' := by
      refine (ha.trans ha').congr fun d hd v hv => ?_
      simp only [setView, setEntry]
      split
      · rfl
      · rename_i hne
        rw [ha.view d hd v hv, setView, setEntry, if_neg hne]
    obtain ⟨hg, hm⟩ := h.setPage hp hv hin ha''
    rw [ht]
    refine ⟨_, _, R', rfl, hg, ?_⟩
    rw [hm]
    exact .fill pid la perm contents

theorem Good.exit (h : Good x R D) (hp : x.procs pid = some mm) : ∃ o y R' D',
    x.exit pid mm = some (o, y) ∧ Good y R' D' ∧
      Memory.Step x.memory (.exit pid, o) y.memory := by
  obtain ⟨t, R', ht, c, hview⟩ := CowInv.exitMmap h.cow (h.dir hp) (h.ok hp) (h.inside hp)
  obtain ⟨hg, hm⟩ := h.remove hp c hview
  unfold Kernel.exit
  rw [ht]
  refine ⟨_, _, R', _, rfl, hg, ?_⟩
  rw [hm]
  exact .exit pid

theorem Good.dup {s t : State} {q : ℕ} {ret : ℤ} {mm' : Mm} (h : Good x R D)
    (hp : x.procs pid = some mm) (ho : Opens x.mem R D q s R')
    (hd : Dups s R' (insert q D) mm.pgdir mm.mmapList.reverse ⟨[], none, q⟩ ret mm' t) :
    (∀ d ∈ D, ∀ v, isVpn v → view t d v = view x.mem d v) ∧
      (ret = 0 → ∀ v, isVpn v → view t q v = view x.mem mm.pgdir v) := by
  have hne : ∀ d ∈ D, d ≠ q := by
    rintro d hD rfl
    exact ho.new hD
  refine ⟨fun d hD v hv => ?_, fun hz v hv => ?_⟩
  · exact (hd.view d (Finset.mem_insert_of_mem hD) (hne d hD) v hv).trans (ho.view d hD v hv)
  · have hfrom := ho.view mm.pgdir (h.dir hp) v hv
    refine (hd.copy hz v hv).trans ?_
    unfold dupView
    rw [hfrom, ho.empty v hv]
    split
    · rfl
    · rename_i hn
      by_contra hsome
      have hs : (view x.mem mm.pgdir v).isSome = true := by
        rw [Option.isSome_iff_ne_none]
        exact Ne.symm hsome
      refine hn ⟨rfl, ?_, hs⟩
      rw [List.any_reverse]
      exact h.inside hp v hv hs

theorem Good.fork (kmallocs : List Bool) (h : Good x R D) (hp : x.procs pid = some mm)
    (hc : x.procs child = none) :
    ∃ o y R' D', x.fork mm child kmallocs = some (o, y) ∧ Good y R' D' ∧
      Memory.Step x.memory (.fork pid child kmallocs, o) y.memory := by
  have hfail : ∃ o y R' D', some (Outcome.failed, x) = some (o, y) ∧ Good y R' D' ∧
      Memory.Step x.memory (.fork pid child kmallocs, o) y.memory :=
    ⟨_, _, R, D, rfl, h, .failure (by simp)⟩
  unfold Kernel.fork
  split
  · rename_i kmallocs
    rcases setupPgdir_spec (fun _ => Cow.bootPageTable_user) h.cow with ⟨l, hq⟩ | ⟨q, s, R', hq, ho⟩
    · have ha := h.cow.answers l
      obtain ⟨hg, hm⟩ := h.quiet ha.cow ha.view
      rw [hq]
      refine ⟨_, _, R, D, rfl, hg, ?_⟩
      rw [hm]
      exact .failure (by simp)
    · have hin : Inside s ⟨[], none, q⟩ := by
        intro v hv hsome
        simp [ho.empty v hv] at hsome
      have hok₀ : ∀ vma ∈ mm.mmapList.reverse, vma.Ok := by simpa using (h.ok hp).vmas
      have hs₀ : Sorted (mm.mmapList.reverse.reverse ++ []) := by simpa using h.sorted hp
      obtain ⟨ret, mm', t, ht, hd⟩ := dupMmap_spec kmallocs ⟨[], none, q⟩ ho.cow
        (Finset.mem_insert_of_mem (h.dir hp)) (Finset.mem_insert_self q D) hok₀ (by simp) hs₀ hin
      obtain ⟨hview, hcopy⟩ := h.dup hp ho hd
      obtain ⟨R'', c⟩ := hd.cow
      have hok : mm'.Ok := ⟨hd.ok, by simp [hd.cache]⟩
      have hdir : mm'.pgdir ∈ insert q D := by
        rw [hd.pgdir]
        exact Finset.mem_insert_self q D
      rw [hq]
      dsimp only
      rw [ht]
      dsimp only
      split
      · rename_i hz
        obtain ⟨hg, hm⟩ := h.add child mm' c (Finset.subset_insert q D) hview hc hdir
          (by rw [hd.pgdir]; exact ho.new) hok
          (by rw [hd.list hz]; simpa using h.sorted hp) hd.inside
        refine ⟨_, _, R'', _, rfl, hg, ?_⟩
        have hcopied : (some fun v => if isVpn v then (view t mm'.pgdir v).map bytes else none) =
            x.memory pid := by
          rw [memory_eq hp, Option.some.injEq]
          funext v
          split
          · rename_i hv
            rw [hd.pgdir, hcopy hz v hv]
          · rfl
        rw [hm, hcopied]
        exact .fork pid child _ (by simp [Kernel.memory, hc])
      · obtain ⟨u, R₃, hu, c', hview'⟩ := CowInv.exitMmap c hdir hok hd.inside
        have hD : (insert q D).erase mm'.pgdir = D := by
          rw [hd.pgdir]
          exact Finset.erase_insert ho.new
        rw [hD] at c' hview'
        obtain ⟨hg, hm⟩ := h.quiet c' fun d hd v hv =>
          (hview' d hd v hv).trans (hview d hd v hv)
        rw [hu]
        refine ⟨_, _, R₃, D, rfl, hg, ?_⟩
        rw [hm]
        exact .failure (by simp)
  · exact hfail

theorem Good.step {e : Event} (h : Good x R D) (hok : x.admits e) : ∃ o y R' D',
    x.step e = some (o, y) ∧ Good y R' D' ∧ Memory.Step x.memory (e, o) y.memory := by
  cases e with
  | exec pid areas => exact h.exec hok.1 hok.2.1 hok.2.2
  | fill pid la perm contents =>
    obtain ⟨hany, hperm, hcow⟩ := hok
    obtain ⟨mm, hp, hla⟩ := (Option.any_eq_true _ _).mp hany
    obtain ⟨o, y, R', hs, hg, hm⟩ := h.fill contents hp hla hperm hcow
    exact ⟨o, y, R', D, by simpa [Kernel.step, hp] using hs, hg, hm⟩
  | load pid addr =>
    obtain ⟨mm, hp⟩ := Option.isSome_iff_exists.mp hok
    obtain ⟨o, y, R', hs, hg, hm⟩ := h.load addr hp
    exact ⟨o, y, R', D, by simpa [Kernel.step, hp] using hs, hg, hm⟩
  | store pid addr b =>
    obtain ⟨mm, hp⟩ := Option.isSome_iff_exists.mp hok.1
    obtain ⟨o, y, R', hs, hg, hm⟩ := h.store addr hp hok.2
    exact ⟨o, y, R', D, by simpa [Kernel.step, hp] using hs, hg, hm⟩
  | fork parent child kmallocs =>
    obtain ⟨mm, hp⟩ := Option.isSome_iff_exists.mp hok.1
    obtain ⟨o, y, R', D', hs, hg, hm⟩ := h.fork kmallocs hp hok.2
    exact ⟨o, y, R', D', by simpa [Kernel.step, hp] using hs, hg, hm⟩
  | exit pid =>
    obtain ⟨mm, hp⟩ := Option.isSome_iff_exists.mp hok
    obtain ⟨o, y, R', D', hs, hg, hm⟩ := h.exit hp
    exact ⟨o, y, R', D', by simpa [Kernel.step, hp] using hs, hg, hm⟩

end Spaces

def boot (s : State) : Kernel := ⟨s, fun _ => none⟩

theorem good_boot {s : State} (h : Start s) : Good (boot s) (startRole s) ∅ where
  cow := cowInv_start h
  dir := by simp [boot]
  ok := by simp [boot]
  sorted := by simp [boot]
  inside := by simp [boot]
  distinct := by simp [boot]

theorem Good.run {x y : Kernel} {l : List (Event × Outcome)} {R : ℕ → Role} {D : Finset ℕ}
    (hg : Good x R D) (hr : Runs Step x l y) :
    Runs Memory.Step x.memory l y.memory ∧ ∃ R D, Good y R D := by
  induction hr generalizing R D with
  | nil x => exact ⟨.nil _, R, D, hg⟩
  | cons h _ ih =>
    obtain ⟨hok, he⟩ := h
    obtain ⟨o, z, R', D', hs, hg', hm⟩ := hg.step hok
    rw [he, Option.some.injEq, Prod.mk.injEq] at hs
    obtain ⟨rfl, rfl⟩ := hs
    obtain ⟨hr', hx⟩ := ih hg'
    exact ⟨.cons hm hr', hx⟩

/-- Every run is a run of the machine with private memory, with the same outcomes, and no assertion
of a further event fails. -/
theorem fork_isolates {s : State} {l : List (Event × Outcome)} {x : Kernel} (hs : Start s)
    (hr : Runs Step (boot s) l x) : Runs Memory.Step (boot s).memory l x.memory ∧
      ∀ e, x.admits e → ∃ o y, x.step e = some (o, y) := by
  obtain ⟨hm, R, D, hg⟩ := (good_boot hs).run hr
  refine ⟨hm, fun e hok => ?_⟩
  obtain ⟨o, y, R', D', he, -⟩ := hg.step hok
  exact ⟨o, y, he⟩

/-- A child stores to a page that it shares with its parent. -/
def childStores : List (Event × Outcome) :=
  [(.exec 1 [⟨userbase, userbase + pgsize, vmRead ||| vmWrite⟩], .done),
    (.fill 1 userbase (pteU ||| pteR ||| pteW) fun _ => 7, .done),
    (.fork 1 2 [true, true], .done), (.store 2 userbase 9, .done), (.load 1 userbase, .byte 7),
    (.load 2 userbase, .byte 9), (.exit 2, .done), (.load 1 userbase, .byte 7)]

theorem fork_isolates_childStores : ∃ x, Runs Step (boot eightPages) childStores x ∧
    Runs Memory.Step (boot eightPages).memory childStores x.memory := by
  have he : (childStores.foldlM (fun x e => if Kernel.admits x e.1 ∧
      (x.step e.1).map Prod.fst = some e.2 then (x.step e.1).map Prod.snd else none)
      (boot eightPages)).isSome = true := by
    decide +kernel
  obtain ⟨x, hx⟩ := Option.isSome_iff_exists.mp he
  have hr : Runs Step (boot eightPages) childStores x := by
    refine (Runs.iff_foldlM.mpr hx).mono fun s e t h => ?_
    split at h
    · rename_i hok
      refine ⟨hok.1, ?_⟩
      obtain ⟨⟨o, y⟩, hy, rfl⟩ := Option.map_eq_some_iff.mp h
      rw [hy] at hok ⊢
      obtain rfl : o = e.2 := by simpa using hok.2
      rfl
    · simp at h
  exact ⟨x, hr, (fork_isolates (fun _ _ => rfl) hr).1⟩

end UCore.Fork

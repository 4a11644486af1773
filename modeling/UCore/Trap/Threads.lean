import UCore.Trap.Nesting
import UCore.Trap.Switch

/-! # Traps of many threads

Each thread has its own kernel stack, and other threads run while its handlers wait. What a thread
sees of the whole kernel is a run of this thread alone, where the steps of the others are work that
leaves its frames alone. A handler may so be preempted, and its trap still returns to where it came
from.
-/

namespace UCore.Trap

open Library Library.Rv64 Hart

/-- The kernel stacks of the threads, and the places of their contexts. -/
structure Stacks (ι : Type) where
  low : ι → ℕ
  top : ι → ℕ
  ctx : ι → ℕ
  room : ∀ p, low p + 288 ≤ top p
  lt : ∀ p, top p < 2 ^ 64
  apart : ∀ p q, p ≠ q → top p ≤ low q ∨ top q ≤ low p
  contexts : Apart ctx
  outside : ∀ p q, top p ≤ ctx q ∨ ctx q + 112 ≤ low p

/-- The processor, the current thread and the frames of all threads. -/
structure Kernel (ι : Type) where
  hart : Hart
  current : ι
  frames : ι → List ℕ

inductive Event (ι : Type)
  /-- A step of the current thread `p`. -/
  | run (p : ι) (op : Op)
  /-- The call of `switch_to` in `proc_run`. -/
  | switch (p next : ι)
  /-- `setup_kstack` and `copy_thread`, for a new thread. -/
  | create (child : ι)
  /-- `put_kstack`, for a thread that has left the processor for good. -/
  | free (dead : ι)

/-- A step that gives the stack of `p` a new use. -/
def Event.Renews {ι : Type} (p : ι) : Event ι → Prop
  | .create q | .free q => q = p
  | _ => False

section Steps

variable {ι : Type} [DecidableEq ι] (S : Stacks ι)

/-- The end of the part of the stack of `p` that is not in use by frames. -/
def Stacks.limit (s : Kernel ι) (p : ι) : ℕ := (s.frames p).headD (S.top p)

/-- The current thread gives the stack of `p` a new use, in which it holds the frames `l`. -/
structure Stacks.Renew (s t : Kernel ι) (p : ι) (l : List ℕ) : Prop where
  waiting : s.current ≠ p
  current : t.current = s.current
  hart : t.hart = { s.hart with mem := t.hart.mem }
  mem : ∀ q ≠ p, ∀ x, S.limit s q ≤ x → x < S.top q → t.hart.mem x = s.hart.mem x
  frames : t.frames = Function.update s.frames p l

/-- One step. The work of a thread leaves the frames of the others alone, but not what lies below
them: a `wait_t` is a local variable of the thread that waits. -/
def Stacks.Step (s : Kernel ι) : Event ι → Kernel ι → Prop
  | .run p op, t =>
    s.current = p ∧ t.current = p ∧
      Thread.Step (S.low p) (S.top p) ⟨s.hart, s.frames p⟩ op ⟨t.hart, t.frames p⟩ ∧
      (∀ q ≠ p, t.frames q = s.frames q) ∧
      (op = .work → ∀ q ≠ p, ∀ x, S.limit s q ≤ x → x < S.top q → t.hart.mem x = s.hart.mem x)
  | .switch p next, t =>
    s.current = p ∧ t.current = next ∧ s.hart.mode = .supervisor ∧ (s.hart.reg a0).toNat = S.ctx p ∧
      (s.hart.reg a1).toNat = S.ctx next ∧ t.hart = ret (exec 0 switchTo s.hart) ∧
      t.frames = s.frames
  | .create child, t => s.frames child = [] ∧ S.Renew s t child [S.top child - 288]
  | .free dead, t => S.Renew s t dead []

/-- The start of the kernel, in the thread of `idleproc`. -/
structure Kernel.Boot (s : Kernel ι) : Prop where
  mode : s.hart.mode = .supervisor
  sscratch : s.hart.csr .sscratch = 0
  frames : ∀ p, s.frames p = []

/-- What the thread `p` sees of the kernel. A thread that does not run waits in `switch_to`. -/
def Kernel.view (s : Kernel ι) (p : ι) : Thread :=
  ⟨if s.current = p then s.hart else
    { s.hart with mode := .supervisor, csr := Function.update s.hart.csr .sscratch 0 }, s.frames p⟩

/-- What a step is for the thread `p`. -/
def Event.seen (p : ι) : Event ι → Op
  | .run q op => if q = p then op else .work
  | _ => .work

/-- The stacks of all threads are in order. -/
structure Stacks.Good (s : Kernel ι) : Prop where
  inv : ∀ p, (s.view p).Inv (S.low p) (S.top p)
  low : ∀ p, ∀ a ∈ s.frames p, S.low p ≤ a

end Steps

/-- The entry of a trap, its return and the stores into a frame stay in the stack. -/
theorem Thread.Inv.outside {low top : ℕ} {s t : Thread} {op : Op} (k : s.Inv low top)
    (hl : ∀ a ∈ s.frames, low ≤ a) (h : Thread.Step low top s op t) :
    (op ≠ .work → ∀ x, x < low ∨ top ≤ x → t.hart.mem x = s.hart.mem x) ∧
      ∀ a ∈ t.frames, low ≤ a := by
  have hle := k.frames.le_top
  cases op with
  | trap cause tval =>
    obtain ⟨hg, hh, hf⟩ := h
    obtain ⟨a, ha, hla, hlim, -⟩ := k.stackPointer cause tval hg
    obtain ⟨u, hu, hsp, -, -, -, -, -, hmem⟩ := exec_alltraps ha
    obtain rfl : t.hart = u := by rw [hh, hu]
    refine ⟨fun _ x hx => hmem x ?_, fun b hb => ?_⟩
    · unfold limit at hlim
      omega
    · rw [hf, hsp] at hb
      rcases List.mem_cons.mp hb with rfl | hb
      · exact hla
      · exact hl b hb
  | work =>
    obtain ⟨hf, -⟩ := h
    rw [hf]
    exact ⟨fun hne => absurd rfl hne, hl⟩
  | edit field v =>
    obtain ⟨a, rest, hs, -, hh, hf⟩ := h
    have hslot := field.slot_lt
    have hla := hl a (by rw [hs]; exact List.mem_cons_self)
    have hfr := k.frames
    rw [hs] at hfr
    have hab := hfr.1
    have hrest := hfr.2.2.le_top
    refine ⟨fun _ x hx => ?_, ?_⟩
    · rw [hh]
      exact store_of_apart (by omega)
    · rw [hf]
      exact hl
  | ret =>
    obtain ⟨-, a, rest, hs, hsp, hh, hf⟩ := h
    have hfr := k.frames
    rw [hs] at hfr
    have hab := hfr.1
    have hrest := hfr.2.2.le_top
    have hlt := k.lt
    obtain ⟨u, hu, -, -, -, hmem, -, -⟩ := exec_trapret hsp (by omega)
    refine ⟨fun _ x _ => ?_, fun b hb => hl b ?_⟩
    · rw [hh, hu]
      exact congrFun hmem x
    · rw [hs]
      rw [hf] at hb
      exact List.mem_cons_of_mem a hb

section Preempted

variable {ι : Type} [DecidableEq ι] {S : Stacks ι} {s t : Kernel ι} {p : ι} {e : Event ι}
  {l : List (Event ι)}

theorem Kernel.view_hart_mem : (s.view p).hart.mem = s.hart.mem := by
  unfold Kernel.view
  dsimp only
  split <;> rfl

theorem Kernel.view_of_ne (h : s.current ≠ p) :
    (s.view p).hart.mode = .supervisor ∧ (s.view p).hart.csr .sscratch = 0 := by
  unfold Kernel.view
  dsimp only
  rw [if_neg h]
  exact ⟨rfl, by simp⟩

theorem Kernel.view_current : s.view s.current = ⟨s.hart, s.frames s.current⟩ := by
  unfold Kernel.view
  rw [if_pos rfl]

theorem Stacks.Good.view_waiting (g : S.Good s) (h : s.current = p → s.hart.mode = .supervisor) :
    (s.view p).hart.mode = .supervisor ∧ (s.view p).hart.csr .sscratch = 0 := by
  rcases eq_or_ne s.current p with rfl | hp
  · have hm : (s.view s.current).hart.mode = .supervisor := by
      rw [Kernel.view_current]
      exact h rfl
    exact ⟨hm, (g.inv _).kernel hm⟩
  · exact Kernel.view_of_ne hp

theorem Stacks.Good.low_le_limit (g : S.Good s) : S.low p ≤ S.limit s p := by
  have hroom := S.room p
  unfold Stacks.limit
  cases hs : s.frames p with
  | nil =>
    simp only [List.headD_nil]
    omega
  | cons a rest => exact g.low p a (by rw [hs]; exact List.mem_cons_self)

theorem Stacks.work (hf : t.frames p = s.frames p)
    (hm : (t.view p).hart.mode = (s.view p).hart.mode ∧
      (t.view p).hart.csr .sscratch = (s.view p).hart.csr .sscratch)
    (hmem : ∀ x, S.limit s p ≤ x → x < S.top p → t.hart.mem x = s.hart.mem x) :
    Thread.Step (S.low p) (S.top p) (s.view p) .work (t.view p) := by
  refine ⟨hf, hm.1, hm.2, fun x hx hlt => ?_⟩
  rw [Kernel.view_hart_mem, Kernel.view_hart_mem]
  exact hmem x hx hlt

theorem Stacks.Renew.work {q : ι} {l : List ℕ} (h : S.Renew s t q l) (hq : q ≠ p) :
    Thread.Step (S.low p) (S.top p) (s.view p) .work (t.view p) := by
  refine Stacks.work (by rw [h.frames, Function.update_of_ne (Ne.symm hq)]) ?_
    (h.mem p (Ne.symm hq))
  unfold Kernel.view
  dsimp only
  rw [h.current, h.hart]
  split <;> exact ⟨rfl, rfl⟩

/-- What a thread sees of a step. -/
theorem Stacks.Good.seen (g : S.Good s) (h : S.Step s e t) (hc : ¬ e.Renews p) :
    Thread.Step (S.low p) (S.top p) (s.view p) (e.seen p) (t.view p) := by
  cases e with
  | run q op =>
    obtain ⟨rfl, hcur, hst, hf, hw⟩ := h
    change Thread.Step _ _ _ (if s.current = p then op else .work) _
    split
    · rename_i hq
      subst hq
      have ht : t.view s.current = ⟨t.hart, t.frames s.current⟩ := by
        rw [← hcur]
        exact Kernel.view_current
      rw [Kernel.view_current, ht]
      exact hst
    · rename_i hq
      refine Stacks.work (hf p (Ne.symm hq)) ?_ fun x hx hlt => ?_
      · rw [(Kernel.view_of_ne hq).1, (Kernel.view_of_ne hq).2]
        exact Kernel.view_of_ne (by rw [hcur]; exact hq)
      · by_cases hop : op = .work
        · exact hw hop p (Ne.symm hq) x hx hlt
        · have k := g.inv s.current
          rw [Kernel.view_current] at k
          have := S.apart p s.current (Ne.symm hq)
          have := g.low_le_limit (p := p)
          exact (k.outside (g.low s.current) hst).1 hop x (by omega)
  | switch q next =>
    obtain ⟨rfl, hcur, hmode, h0, h1, hh, hf⟩ := h
    obtain ⟨hm, -, hcsr⟩ := exec_switchTo h0 h1 (S.contexts.lt _) (S.contexts.lt _)
    change Thread.Step _ _ _ .work _
    refine Stacks.work (by rw [hf]) ?_ fun x hx hlt => ?_
    · have hs := g.view_waiting (p := p) fun _ => hmode
      rw [hs.1, hs.2]
      rcases eq_or_ne t.current p with rfl | hp
      · have k := g.inv s.current
        rw [Kernel.view_current] at k
        rw [Kernel.view_current, hh, ret_mode, ret_csr, exec_mode, hcsr]
        exact ⟨hmode, k.kernel hmode⟩
      · exact Kernel.view_of_ne hp
    · rw [hh, ret_mem, hm]
      apply storeSlots_of_apart
      intro i hi
      have := contextSlots_lt i hi
      have := S.outside p s.current
      have := g.low_le_limit (p := p)
      omega
  | create child => exact h.2.work hc
  | free dead => exact h.work hc

theorem Stacks.Renew.view {l : List ℕ} (h : S.Renew s t p l) :
    (t.view p).frames = l ∧ (t.view p).hart.mode = .supervisor ∧
      (t.view p).hart.csr .sscratch = 0 := by
  refine ⟨?_, Kernel.view_of_ne (by rw [h.current]; exact h.waiting)⟩
  change t.frames p = l
  rw [h.frames, Function.update_self]

theorem Thread.Inv.of_empty {low top : ℕ} {s : Thread} (hf : s.frames = [])
    (hm : s.hart.mode = .supervisor) (hs : s.hart.csr .sscratch = 0) (hr : low + 288 ≤ top)
    (hlt : top < 2 ^ 64) : s.Inv low top := by
  refine ⟨hr, hlt, ?_, fun hu => ?_, fun _ => hs⟩
  · rw [hf]
    trivial
  · rw [hm] at hu
    cases hu

theorem Stacks.Good.step (g : S.Good s) (h : S.Step s e t) : S.Good t := by
  have hroom := S.room
  have hlt := S.lt
  have hinv : ∀ p, (t.view p).Inv (S.low p) (S.top p) ∧ ∀ a ∈ t.frames p, S.low p ≤ a := by
    intro p
    by_cases hc : e.Renews p
    · cases e with
      | run q op => exact hc.elim
      | switch q next => exact hc.elim
      | create child =>
        obtain rfl := hc
        obtain ⟨hf, hm, hs⟩ := h.2.view
        refine ⟨Thread.Start.inv ⟨hf, hm, hs⟩ (hroom _) (hlt _), fun a ha => ?_⟩
        change a ∈ (t.view child).frames at ha
        have hr := hroom child
        rw [hf] at ha
        rw [List.mem_singleton.mp ha]
        omega
      | free dead =>
        obtain rfl := hc
        obtain ⟨hf, hm, hs⟩ := h.view
        refine ⟨Thread.Inv.of_empty hf hm hs (hroom _) (hlt _), fun a ha => ?_⟩
        change a ∈ (t.view dead).frames at ha
        rw [hf] at ha
        cases ha
    · have hst := g.seen h hc
      exact ⟨((g.inv p).step hst).1, ((g.inv p).outside (g.low p) hst).2⟩
  exact ⟨fun p => (hinv p).1, fun p => (hinv p).2⟩

theorem Stacks.Good.runs (g : S.Good s) (h : Runs S.Step s l t) : S.Good t :=
  h.invariant (fun _ _ _ g h => g.step h) g

theorem Stacks.Good.seen_runs (g : S.Good s) (h : Runs S.Step s l t) (hc : ∀ e ∈ l, ¬ e.Renews p) :
    Runs (Thread.Step (S.low p) (S.top p)) (s.view p) (l.map (·.seen p)) (t.view p) := by
  induction h with
  | nil s => exact .nil _
  | @cons s u t e l hst _ ih =>
    rw [List.forall_mem_cons] at hc
    exact .cons (g.seen hst hc.1) (ih (g.step hst) hc.2)

theorem Kernel.Boot.good (b : s.Boot) : S.Good s := by
  refine ⟨fun p => ?_, fun p a ha => ?_⟩
  · have hw : (s.view p).hart.mode = .supervisor ∧ (s.view p).hart.csr .sscratch = 0 := by
      rcases eq_or_ne s.current p with rfl | hp
      · rw [Kernel.view_current]
        exact ⟨b.mode, b.sscratch⟩
      · exact Kernel.view_of_ne hp
    exact Thread.Inv.of_empty (b.frames p) hw.1 hw.2 (S.room p) (S.lt p)
  · rw [b.frames] at ha
    cases ha

theorem Stacks.Good.resumes {es : List (Field × Word)} {cause tval : Word} (g : S.Good s)
    (hb : Balanced (l.map (·.seen p)) es) (hc : ∀ e ∈ l, ¬ e.Renews p)
    (h : Runs S.Step s (.run p (.trap cause tval) :: l ++ [.run p .ret]) t) :
    t.current = p ∧
      context t.hart = (((context s.hart).trapframe cause tval).edit es).context ∧
      (t.frames p).map (Trapframe.at t.hart.mem) = (s.frames p).map (Trapframe.at s.hart.mem) := by
  have hown : ∀ op, ¬ (Event.run p op).Renews p := fun _ h => h
  have hrun := g.seen_runs (p := p) h (by
    rw [List.cons_append, List.forall_mem_cons, List.forall_mem_append, List.forall_mem_singleton]
    exact ⟨hown _, hc, hown _⟩)
  have hseen : (.run p (.trap cause tval) :: l ++ [.run p .ret] : List (Event ι)).map (·.seen p) =
      .trap cause tval :: l.map (·.seen p) ++ [.ret] := by
    simp [Event.seen]
  rw [hseen] at hrun
  obtain ⟨hctx, hframes⟩ := (g.inv p).resumes hb hrun
  cases h with
  | cons htrap h =>
    obtain ⟨u, -, hlast⟩ := h.split
    cases hlast with
    | cons hret hnil =>
      cases hnil
      obtain ⟨rfl, -, -⟩ := htrap
      obtain ⟨-, hcur, -⟩ := hret
      have ht : t.view s.current = ⟨t.hart, t.frames s.current⟩ := by
        rw [← hcur]
        exact Kernel.view_current
      rw [Kernel.view_current, ht] at hctx hframes
      exact ⟨hcur, hctx, hframes⟩

/-- A trap of a thread and its return, while any number of other threads run, trap, switch and are
created, in any order: the thread goes on where it was, with the changes that its own handler made
to its own frame. -/
theorem trap_resumes_preempted {s₀ : Kernel ι} {l₀ : List (Event ι)} {es : List (Field × Word)}
    {cause tval : Word} (h₀ : s₀.Boot) (hs : Runs S.Step s₀ l₀ s)
    (hb : Balanced (l.map (·.seen p)) es) (hc : ∀ e ∈ l, ¬ e.Renews p)
    (h : Runs S.Step s (.run p (.trap cause tval) :: l ++ [.run p .ret]) t) :
    t.current = p ∧
      context t.hart = (((context s.hart).trapframe cause tval).edit es).context ∧
      (t.frames p).map (Trapframe.at t.hart.mem) = (s.frames p).map (Trapframe.at s.hart.mem) :=
  (h₀.good.runs hs).resumes hb hc h

theorem Stacks.step_setReg (h : Hart) (p : ι) (f : ι → List ℕ) (r : Reg) (v : Word) :
    S.Step ⟨h, p, f⟩ (.run p .work) ⟨h.setReg r v, p, f⟩ :=
  ⟨rfl, rfl, ⟨rfl, rfl, rfl, fun _ _ _ => rfl⟩, fun _ _ => rfl, fun _ _ _ _ _ _ => rfl⟩

theorem Stacks.switches (S : Stacks ι) {h : Hart} (hm : h.mode = .supervisor) (p q : ι)
    (f : ι → List ℕ) :
    ∃ h' : Hart, h'.mode = .supervisor ∧
      Runs S.Step ⟨h, p, f⟩ [.run p .work, .run p .work, .switch p q] ⟨h', q, f⟩ := by
  have hctx : ∀ p, (BitVec.ofNat 64 (S.ctx p)).toNat = S.ctx p := by
    intro p
    have := S.contexts.lt p
    rw [BitVec.toNat_ofNat]
    exact Nat.mod_eq_of_lt (by omega)
  let v := (h.setReg a0 (BitVec.ofNat 64 (S.ctx p))).setReg a1 (BitVec.ofNat 64 (S.ctx q))
  have h0 : (v.reg a0).toNat = S.ctx p := by
    rw [setReg_reg, if_neg (by decide), if_neg (by decide), setReg_reg,
      if_neg (by decide), if_pos rfl]
    exact hctx p
  have h1 : (v.reg a1).toNat = S.ctx q := by
    rw [setReg_reg, if_neg (by decide), if_pos rfl]
    exact hctx q
  have hsw : S.Step ⟨v, p, f⟩ (.switch p q) ⟨ret (exec 0 switchTo v), q, f⟩ :=
    ⟨rfl, rfl, hm, h0, h1, rfl, rfl⟩
  refine ⟨ret (exec 0 switchTo v), by simpa [v] using hm, ?_⟩
  exact .cons (S.step_setReg h p f _ _) <| .cons (S.step_setReg _ p f _ _) <| .cons hsw (.nil _)

/-- A new thread runs before the handler of a trap goes on. -/
theorem trap_resumes_preempted_once :
    ∃ (S : Stacks Bool) (s t : Kernel Bool), s.Boot ∧
      Runs S.Step s [.run false (.trap 5 0), .create true, .run false .work, .run false .work,
        .switch false true, .run true .work, .run true .work, .switch true false,
        .run false .work, .run false .ret] t ∧
      t.current = false ∧ t.hart.reg = s.hart.reg := by
  let S : Stacks Bool :=
    { low := fun p => if p then 4096 else 0
      top := fun p => if p then 8192 else 4096
      ctx := fun p => if p then 8304 else 8192
      room := by decide
      lt := by decide
      apart := by decide
      contexts := ⟨by decide, by decide⟩
      outside := by decide }
  let h : Hart :=
    { reg := Function.update (fun _ => 0) sp 4096
      csr := fun _ => 0
      mem := fun _ => 0
      pc := 0
      mode := .supervisor
      zero := rfl }
  let s : Kernel Bool := ⟨h, false, fun _ => []⟩
  have hs : s.Boot := ⟨rfl, rfl, fun _ => rfl⟩
  obtain ⟨u, hu⟩ : ∃ u, u = exec 0 alltraps (enter h 5 0) := ⟨_, rfl⟩
  have hmode : u.mode = .supervisor := by rw [hu, exec_mode]; rfl
  let fs : Bool → List ℕ := Function.update (fun _ => []) false [(u.reg sp).toNat]
  let gs : Bool → List ℕ := Function.update fs true [S.top true - 288]
  have htrap : S.Step s (.run false (.trap 5 0)) ⟨u, false, fs⟩ :=
    ⟨rfl, rfl, ⟨fun _ => ⟨by decide, by decide⟩, hu, rfl⟩,
      fun q hq => Function.update_of_ne hq _ (fun _ => []), fun h => by cases h⟩
  have hcreate : S.Step ⟨u, false, fs⟩ (.create true) ⟨u, false, gs⟩ :=
    ⟨rfl, Bool.false_ne_true, rfl, rfl, fun _ _ _ _ _ => rfl, rfl⟩
  obtain ⟨v, hv, hrun⟩ := S.switches hmode false true gs
  obtain ⟨w, hw, hrun'⟩ := S.switches hv true false gs
  obtain ⟨x, hx⟩ : ∃ x, x = w.setReg sp (u.reg sp) := ⟨_, rfl⟩
  obtain ⟨t, ht⟩ : ∃ t : Kernel Bool, t = ⟨sret (exec 0 trapret x), false,
    Function.update gs false []⟩ := ⟨_, rfl⟩
  have hsp : x.reg sp = u.reg sp := by rw [hx, setReg_reg, if_neg (by decide), if_pos rfl]
  have hret : S.Step ⟨x, false, gs⟩ (.run false .ret) t := by
    rw [ht]
    exact ⟨rfl, rfl, ⟨by rw [hx]; exact hw, _, _, rfl, congrArg BitVec.toNat hsp, rfl, rfl⟩,
      fun q hq => Function.update_of_ne hq _ gs, fun h => by cases h⟩
  let l : List (Event Bool) := [.create true, .run false .work, .run false .work,
    .switch false true, .run true .work, .run true .work, .switch true false, .run false .work]
  have hl : Runs S.Step s (.run false (.trap 5 0) :: l ++ [.run false .ret]) t := by
    refine .cons htrap (.cons hcreate (hrun.append (hrun'.append (.cons ?_ (.cons hret (.nil t))))))
    rw [hx]
    exact S.step_setReg _ _ _ _ _
  have hb : Balanced (l.map (·.seen false)) [] :=
    .work <| .work <| .work <| .work <| .work <| .work <| .work <| .work .nil
  obtain ⟨hcur, hctx, -⟩ := trap_resumes_preempted hs (.nil s) hb (by simp [l, Event.Renews]) hl
  have hc := hctx.trans (Context.context_trapframe h.zero 5 0)
  exact ⟨S, s, t, hs, hl, hcur, congrArg Context.reg hc⟩

end Preempted

end UCore.Trap

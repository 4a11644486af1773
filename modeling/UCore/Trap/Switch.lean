import UCore.Trap.Model

/-! # Context switches

The model of `kern/process/switch.S`. `switch_to` stores the callee-saved registers into the
`context` of one thread and loads those of another one. A thread that is switched to goes on behind
its own call of `switch_to`, whatever the other threads did meanwhile.
-/

namespace UCore.Trap

open Library Library.Rv64 Hart

def ra : Reg := 1
def a1 : Reg := 11

/-- The fields of a `struct context`: `ra`, `sp` and `s0` to `s11`. -/
def contextSlots : List (Reg × ℕ) :=
  [(ra, 0), (sp, 1), (s0, 2), (s1, 3), (s2, 4), (s3, 5), (s4, 6), (21, 7), (22, 8),
    (23, 9), (24, 10), (25, 11), (26, 12), (27, 13)]

def switchTo : List Instr := stores a0 contextSlots ++ loads a1 contextSlots

def ret (h : Hart) : Hart := { h with pc := h.reg ra }

@[simp] theorem ret_mem {h : Hart} : (ret h).mem = h.mem := rfl

@[simp] theorem ret_reg {h : Hart} : (ret h).reg = h.reg := rfl

@[simp] theorem ret_pc {h : Hart} : (ret h).pc = h.reg ra := rfl

@[simp] theorem ret_mode {h : Hart} : (ret h).mode = h.mode := rfl

@[simp] theorem ret_csr {h : Hart} : (ret h).csr = h.csr := rfl

structure Cpu (ι : Type) where
  hart : Hart
  current : ι

inductive Action (ι : Type)
  /-- The call of `switch_to` in `proc_run`. -/
  | switch (next : ι)
  /-- `alloc_proc` and `copy_thread` for a thread that is not running. -/
  | create (proc : ι) (entry stack : Word)
  /-- Any instructions of the current thread that do not touch a `context`. -/
  | work

/-- The registers that `copy_thread` puts into the `context`. -/
def created (entry stack : Word) (r : Reg) : Word :=
  if r = ra then entry else if r = sp then stack else 0

theorem contextSlots_lt : ∀ p ∈ contextSlots, p.2 < 14 := by decide

theorem nodup_contextSlots :
    (contextSlots.map Prod.fst).Nodup ∧ (contextSlots.map Prod.snd).Nodup := by
  decide

theorem exec_switchTo {h : Hart} {a b : ℕ} (ha : (h.reg a0).toNat = a) (hb : (h.reg a1).toNat = b)
    (hal : a + 112 < 2 ^ 64) (hbl : b + 112 < 2 ^ 64) :
    (exec 0 switchTo h).mem = storeSlots h.mem a h.reg contextSlots ∧
      (∀ r i, (r, i) ∈ contextSlots →
        (exec 0 switchTo h).reg r = double (exec 0 switchTo h).mem (b + 8 * i)) ∧
      (exec 0 switchTo h).csr = h.csr := by
  have hlt : ∀ {c : ℕ}, c + 112 < 2 ^ 64 → ∀ p ∈ contextSlots, c + 8 * p.2 < 2 ^ 64 := by
    intro c hc p hp
    have := contextSlots_lt p hp
    omega
  obtain ⟨t, ht, hcsr, hm, -, -, hin, -⟩ := exec_loads (k := [])
    (h := { h with mem := storeSlots h.mem a h.reg contextSlots }) (b := a1) (l := contextSlots)
    hb (hlt hbl) (by decide) (by decide) nodup_contextSlots.1
  have he : exec 0 switchTo h = t := by
    unfold switchTo
    rw [exec_stores ha (hlt hal)]
    rw [List.append_nil, exec_nil] at ht
    exact ht
  rw [he]
  refine ⟨hm, fun r i hr => ?_, hcsr⟩
  rw [hin r i hr, hm]

section Threads

variable {ι : Type} (ctx : ι → ℕ)

/-- One step, where `ctx` gives the address of the `context` of each thread. -/
def Cpu.Step (s : Cpu ι) : Action ι → Cpu ι → Prop
  | .switch next, t =>
    next ≠ s.current ∧ (s.hart.reg a0).toNat = ctx s.current ∧ (s.hart.reg a1).toNat = ctx next ∧
      t.hart = ret (exec 0 switchTo s.hart) ∧ t.current = next
  | .create proc entry stack, t =>
    proc ≠ s.current ∧
      t.hart = { s.hart with
        mem := storeSlots s.hart.mem (ctx proc) (created entry stack) contextSlots } ∧
      t.current = s.current
  | .work, t =>
    t.current = s.current ∧
      ∀ p x, ctx p ≤ x → x < ctx p + 112 → t.hart.mem x = s.hart.mem x

/-- The contexts lie in different parts of the memory. -/
structure Apart : Prop where
  lt : ∀ p, ctx p + 112 < 2 ^ 64
  apart : ∀ p q, p ≠ q → ctx p + 112 ≤ ctx q ∨ ctx q + 112 ≤ ctx p

/-- The `context` of the thread `p` holds these registers. -/
def Holds (s : Cpu ι) (p : ι) (f : Reg → Word) : Prop :=
  ∀ r i, (r, i) ∈ contextSlots → double s.hart.mem (ctx p + 8 * i) = f r

end Threads

section Step

variable {ι : Type} {ctx : ι → ℕ} {s t : Cpu ι} {p : ι} {f : Reg → Word} {act : Action ι}
  {l : List (Action ι)}

theorem Holds.congr (h : Holds ctx s p f)
    (hm : ∀ x, ctx p ≤ x → x < ctx p + 112 → t.hart.mem x = s.hart.mem x) : Holds ctx t p f := by
  intro r i hr
  have hi := contextSlots_lt _ hr
  simp only at hi
  rw [← h r i hr]
  apply double_congr
  intro x hx hlt
  exact hm x (by omega) (by omega)

theorem storeSlots_context {m : ℕ → UInt8} (ha : Apart ctx) {q : ι} {x : ℕ} (hq : q ≠ p)
    (hx : ctx p ≤ x)
    (hlt : x < ctx p + 112) : storeSlots m (ctx q) f contextSlots x = m x := by
  apply storeSlots_of_apart
  intro e he
  have := contextSlots_lt e he
  have := ha.apart p q (Ne.symm hq)
  omega

theorem holds_switch (ha : Apart ctx) {q : ι} (h : s.Step ctx (.switch q) t) :
    Holds ctx t s.current s.hart.reg := by
  obtain ⟨-, h0, h1, hh, -⟩ := h
  obtain ⟨hm, -⟩ := exec_switchTo h0 h1 (ha.lt _) (ha.lt q)
  intro r i hr
  rw [hh, ret_mem, hm]
  exact double_storeSlots nodup_contextSlots.2 hr

theorem Holds.step (ha : Apart ctx) (h : Holds ctx s p f) (hp : p ≠ s.current)
    (hst : s.Step ctx act t) (hc : ∀ entry stack, act ≠ .create p entry stack) :
    Holds ctx t p f := by
  apply h.congr
  intro x hx hlt
  cases act with
  | switch q =>
    obtain ⟨-, h0, h1, hh, -⟩ := hst
    obtain ⟨hm, -⟩ := exec_switchTo h0 h1 (ha.lt _) (ha.lt q)
    rw [hh, ret_mem, hm]
    exact storeSlots_context ha (Ne.symm hp) hx hlt
  | create q entry stack =>
    have hq : q ≠ p := by
      rintro rfl
      exact hc entry stack rfl
    rw [hst.2.1]
    exact storeSlots_context ha hq hx hlt
  | work => exact hst.2 p x hx hlt

theorem Holds.resume (ha : Apart ctx) (h : Holds ctx s p f) (hst : s.Step ctx (.switch p) t) :
    (∀ r i, (r, i) ∈ contextSlots → t.hart.reg r = f r) ∧ t.hart.pc = f ra ∧ t.current = p := by
  have h' := h.step ha hst.1 hst (by simp)
  obtain ⟨-, h0, h1, hh, ht⟩ := hst
  obtain ⟨-, hr, -⟩ := exec_switchTo h0 h1 (ha.lt _) (ha.lt p)
  have hreg : ∀ r i, (r, i) ∈ contextSlots → t.hart.reg r = f r := by
    intro r i hri
    rw [← h' r i hri, hh, ret_reg, ret_mem]
    exact hr r i hri
  refine ⟨hreg, ?_, ht⟩
  rw [← hreg ra 0 (by decide), hh, ret_pc, ret_reg]

theorem Holds.runs (ha : Apart ctx) (h : Holds ctx s p f) (hp : p ≠ s.current)
    (hr : Runs (Cpu.Step ctx) s l t) (hs : .switch p ∉ l)
    (hc : ∀ entry stack, .create p entry stack ∉ l) : Holds ctx t p f ∧ p ≠ t.current := by
  induction hr with
  | nil s => exact ⟨h, hp⟩
  | @cons s u t act l hst _ ih =>
    have hp' := h.step ha hp hst fun entry stack he => hc entry stack (by simp [he])
    refine ih hp' ?_ (fun hm => hs (by simp [hm])) fun entry stack hm =>
      hc entry stack (by simp [hm])
    cases act with
    | switch q =>
      rw [hst.2.2.2.2]
      rintro rfl
      exact hs (by simp)
    | create q entry stack =>
      rw [hst.2.2]
      exact hp
    | work =>
      rw [hst.1]
      exact hp

/-- A thread that is switched away from and later switched to goes on behind its call of `switch_to`
with the same callee-saved registers; a new thread begins at its entry on its own stack. -/
theorem switch_resumes (ha : Apart ctx)
    (hact : (∃ next, act = .switch next ∧ p = s.current ∧ f = s.hart.reg) ∨
      ∃ entry stack, act = .create p entry stack ∧ f = created entry stack)
    (hs : .switch p ∉ l) (hc : ∀ entry stack, .create p entry stack ∉ l)
    (h : Runs (Cpu.Step ctx) s (act :: l ++ [.switch p]) t) :
    t.current = p ∧ t.hart.pc = f ra ∧ ∀ r i, (r, i) ∈ contextSlots → t.hart.reg r = f r := by
  cases h with
  | @cons _ u _ _ _ hst h =>
    obtain ⟨v, hl, hlast⟩ := h.split
    have hstart : Holds ctx u p f ∧ p ≠ u.current := by
      rcases hact with ⟨next, rfl, rfl, rfl⟩ | ⟨entry, stack, rfl, rfl⟩
      · refine ⟨holds_switch ha hst, ?_⟩
        rw [hst.2.2.2.2]
        exact Ne.symm hst.1
      · refine ⟨?_, ?_⟩
        · intro r i hr
          rw [hst.2.1]
          exact double_storeSlots nodup_contextSlots.2 hr
        · rw [hst.2.2]
          exact hst.1
    obtain ⟨hv, hne⟩ := hstart.1.runs ha hstart.2 hl hs hc
    cases hlast with
    | cons hlast hnil =>
      cases hnil
      obtain ⟨hreg, hpc, hcur⟩ := hv.resume ha hlast
      exact ⟨hcur, hpc, hreg⟩

end Step

/-- Two threads: one switches to the other one and is switched to again. -/
theorem switch_resumes_pair :
    ∃ s t : Cpu Bool, Runs (Cpu.Step fun p => if p then 8192 else 4096) s
        [.switch true, .work, .switch false] t ∧ t.current = s.current ∧
      t.hart.pc = s.hart.reg ra ∧ t.hart.reg sp = s.hart.reg sp := by
  let ctx : Bool → ℕ := fun p => if p then 8192 else 4096
  have ha : Apart ctx := by
    constructor
    · decide
    · decide
  let h : Hart :=
    { reg := Function.update (Function.update (fun _ => 0) a0 4096) a1 8192
      csr := fun _ => 0
      mem := fun _ => 0
      pc := 0
      mode := .supervisor
      zero := rfl }
  let u : Cpu Bool := ⟨ret (exec 0 switchTo h), true⟩
  let v : Cpu Bool := ⟨(u.hart.setReg a0 8192).setReg a1 4096, true⟩
  let t : Cpu Bool := ⟨ret (exec 0 switchTo v.hart), false⟩
  have hrun : Runs (Cpu.Step ctx) ⟨h, false⟩ (.switch true :: [.work] ++ [.switch false]) t := by
    refine .cons (t := u) ⟨by decide, rfl, rfl, rfl, rfl⟩ (.cons (t := v) ⟨rfl, fun _ _ _ _ => rfl⟩
      (.cons ⟨by decide, ?_, ?_, rfl, rfl⟩ (.nil t)))
    · simp [v, a0, a1, ctx]
    · simp [v, a0, a1, ctx]
  obtain ⟨hc, hp, hr⟩ := switch_resumes ha (.inl ⟨true, rfl, rfl, rfl⟩) (by simp) (by simp) hrun
  exact ⟨⟨h, false⟩, t, hrun, hc, hp, hr sp 1 (by decide)⟩

end UCore.Trap

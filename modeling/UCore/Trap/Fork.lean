import UCore.Trap.Nesting
import UCore.Trap.Switch

/-! # The return of `fork` in the child

`copy_thread` copies the frame of the parent to the end of the kernel stack of the child, and its
`context` leads to `forkret`. When the child runs for the first time, it goes on where its parent
has called `fork`: with the same registers, apart from the result of the call.
-/

namespace UCore.Trap

open Library Library.Rv64 Hart

/-- `forkrets`, which goes on at `__trapret`. -/
def forkrets : List Instr := .addi sp a0 0 :: trapret

/-- `copy_thread`: the frame at `tf` is a copy of that at `src`, with `a0` for the result of `fork`
in the child and with its stack pointer. -/
def copyFrame (m : ℕ → UInt8) (tf src : ℕ) (esp : Word) : ℕ → UInt8 :=
  let m := fun x => if tf ≤ x ∧ x < tf + 288 then m (src + (x - tf)) else m x
  let m := store m 8 (tf + 8 * (Field.gpr a0).slot) (0 : Word).toNat
  store m 8 (tf + 8 * (Field.gpr sp).slot) (if esp = 0 then BitVec.ofNat 64 tf else esp).toNat

/-- The frame that `copy_thread` makes. -/
def Trapframe.child (f : Trapframe) (tf : ℕ) (esp : Word) : Trapframe :=
  (f.set (.gpr a0) 0).set (.gpr sp) (if esp = 0 then BitVec.ofNat 64 tf else esp)

/-- The child of a thread in the context `c` goes on at `pc`, with the result `0` and with the same
stack pointer. -/
theorem Context.context_child {c : Context} {cause tval pc : Word} {tf : ℕ} (hzero : c.reg 0 = 0)
    (hsp : c.reg sp ≠ 0) :
    (((c.trapframe cause tval).set .epc pc).child tf (c.reg sp)).context =
      ⟨Function.update c.reg a0 0, pc, c.mode, (c.status ||| sstatusSpie) &&& ~~~sstatusSpp⟩ := by
  have hreg : ∀ r, (if r = 0 then 0 else
      Function.update (Function.update c.reg a0 0) sp (c.reg sp) r) =
        Function.update c.reg a0 0 r := by
    intro r
    rcases eq_or_ne r 0 with rfl | h₀
    · rw [if_pos rfl, Function.update_of_ne (by decide), hzero]
    rw [if_neg h₀]
    rcases eq_or_ne r sp with rfl | hr
    · rw [Function.update_self, Function.update_of_ne (by decide)]
    · rw [Function.update_of_ne hr]
  unfold Trapframe.child
  rw [if_neg hsp]
  ext1
  · funext r
    exact hreg r
  · rfl
  · exact previous_trapStatus c.mode c.status
  · exact sretStatus_trapStatus c.mode c.status

section CopyFrame

variable {m : ℕ → UInt8} {tf src x : ℕ} {esp : Word}

theorem Trapframe.at_copyFrame :
    Trapframe.at (copyFrame m tf src esp) tf = (Trapframe.at m src).child tf esp := by
  have hcopy :
      Trapframe.at (fun x => if tf ≤ x ∧ x < tf + 288 then m (src + (x - tf)) else m x) tf =
        Trapframe.at m src := by
    have hd : ∀ i < 36, double (fun x => if tf ≤ x ∧ x < tf + 288 then m (src + (x - tf)) else m x)
        (tf + 8 * i) = double m (src + 8 * i) := by
      intro i hi
      apply double_shift
      intro j hj
      rw [if_pos (by omega)]
      congr 1
      omega
    ext1
    · funext r
      exact hd r.val (by omega)
    · exact hd 32 (by omega)
    · exact hd 33 (by omega)
    · exact hd 34 (by omega)
    · exact hd 35 (by omega)
  unfold copyFrame Trapframe.child
  rw [Trapframe.at_store, Trapframe.at_store, hcopy]

theorem copyFrame_of_apart (hx : x < tf ∨ tf + 288 ≤ x) : copyFrame m tf src esp x = m x := by
  unfold copyFrame
  have h₁ : (Field.gpr a0).slot < 36 := Field.slot_lt
  have h₂ : (Field.gpr sp).slot < 36 := Field.slot_lt
  rw [store_of_apart (by omega), store_of_apart (by omega), if_neg (by omega)]

end CopyFrame

/-- Where the `context` and the first frame of each thread lie, and the address of `forkret`. -/
structure Layout (ι : Type) where
  ctx : ι → ℕ
  tf : ι → ℕ
  forkret : Word
  apart : Apart ctx
  lt : ∀ p, tf p + 288 < 2 ^ 64
  frames : ∀ p q, p ≠ q → tf p + 288 ≤ tf q ∨ tf q + 288 ≤ tf p
  contexts : ∀ p q, tf p + 288 ≤ ctx q ∨ ctx q + 112 ≤ tf p

inductive Turn (ι : Type)
  /-- The call of `switch_to` in `proc_run`. -/
  | switch (next : ι)
  /-- `copy_thread` for a new thread, with the frame at `src`. -/
  | fork (child : ι) (src : ℕ) (esp : Word)
  /-- Any instructions of the current thread that keep to its own stack. -/
  | work
  /-- `forkret`. -/
  | forkret

namespace Layout

variable {ι : Type} (L : Layout ι)

/-- The current thread touches no `context` and no frame of another thread. -/
def Work (s t : Cpu ι) : Prop :=
  s.Step L.ctx .work t ∧
    ∀ p ≠ s.current, ∀ x, L.tf p ≤ x → x < L.tf p + 288 → t.hart.mem x = s.hart.mem x

/-- One step. `forkret` hands `current->tf` to `forkrets`. -/
def Step (s : Cpu ι) : Turn ι → Cpu ι → Prop
  | .switch next, t => s.Step L.ctx (.switch next) t
  | .fork child src esp, t =>
    child ≠ s.current ∧
      t.hart = { s.hart with
        mem := storeSlots (copyFrame s.hart.mem (L.tf child) src esp) (L.ctx child)
          (created L.forkret (BitVec.ofNat 64 (L.tf child))) contextSlots } ∧
      t.current = s.current
  | .work, t => L.Work s t
  | .forkret, t =>
    ∃ u, L.Work s u ∧ u.hart.mode = .supervisor ∧ (u.hart.reg a0).toNat = L.tf s.current ∧
      (∀ x, L.tf s.current ≤ x → x < L.tf s.current + 288 → u.hart.mem x = s.hart.mem x) ∧
      t.hart = sret (exec 0 forkrets u.hart) ∧ t.current = s.current

/-- A thread that has been made and has not run yet. -/
structure Born (s : Cpu ι) (p : ι) (f : Trapframe) : Prop where
  holds : Holds L.ctx s p (created L.forkret (BitVec.ofNat 64 (L.tf p)))
  frame : Trapframe.at s.hart.mem (L.tf p) = f
  other : p ≠ s.current

end Layout

section Child

variable {ι : Type} {L : Layout ι} {s t u : Cpu ι} {p : ι} {f : Trapframe} {src : ℕ} {esp : Word}
  {l : List (Turn ι)}

theorem Layout.storeSlots_frame {m : ℕ → UInt8} {g : Reg → Word} {q : ι} {x : ℕ} (hx : L.tf p ≤ x)
    (hlt : x < L.tf p + 288) : storeSlots m (L.ctx q) g contextSlots x = m x := by
  apply storeSlots_of_apart
  intro e he
  have := contextSlots_lt e he
  have := L.contexts p q
  omega

theorem exec_forkrets {h : Hart} {a : ℕ} (ha : (h.reg a0).toNat = a) (hb : a + 288 < 2 ^ 64) :
    context (sret (exec 0 forkrets h)) = (Trapframe.at h.mem a).context ∧
      (sret (exec 0 forkrets h)).mem = h.mem ∧
      (sret (exec 0 forkrets h)).csr .sscratch =
        if (Trapframe.at h.mem a).status.getLsbD 8 then h.csr .sscratch
        else BitVec.ofNat 64 (a + 288) := by
  have hsp : ((h.setReg sp (h.reg a0 + BitVec.ofInt 64 0)).reg sp).toNat = a := by
    rw [setReg_reg]
    simpa [sp] using ha
  obtain ⟨t, ht, hreg, hst, hepc, hm, -, hss⟩ := exec_trapret hsp hb
  have he : exec 0 forkrets h = t := by
    unfold forkrets
    rw [exec_addi, ht]
  rw [he]
  refine ⟨?_, hm, ?_⟩
  · ext r
    · simp only [context, sret, setCsr_reg, hreg, Trapframe.context, setReg_mem]
    · simp only [context, sret, hepc, Trapframe.context, setReg_mem]
    · simp only [context, sret, hst, Trapframe.context, setReg_mem]
    · simp only [context, sret, hst, Trapframe.context, setReg_mem, setCsr_csr, if_true]
  · simpa [sret] using hss

theorem Layout.Work.frame (h : L.Work s t) (hp : p ≠ s.current) :
    Trapframe.at t.hart.mem (L.tf p) = Trapframe.at s.hart.mem (L.tf p) :=
  Trapframe.at_congr (h.2 p hp)

namespace Layout.Born

theorem fork (h : L.Step s (.fork p src esp) t) :
    L.Born t p ((Trapframe.at s.hart.mem src).child (L.tf p) esp) := by
  obtain ⟨hne, hh, hc⟩ := h
  refine ⟨?_, ?_, ?_⟩
  · intro r i hr
    rw [hh]
    exact double_storeSlots nodup_contextSlots.2 hr
  · rw [hh, ← Trapframe.at_copyFrame]
    exact Trapframe.at_congr fun x hx hlt => storeSlots_frame hx hlt
  · rw [hc]
    exact hne

/-- No step of another thread touches it. -/
theorem step (b : L.Born s p f) {a : Turn ι} (h : L.Step s a t) (hs : a ≠ .switch p)
    (hf : ∀ src esp, a ≠ .fork p src esp) : L.Born t p f := by
  cases a with
  | switch q =>
    have hq : p ≠ q := by
      rintro rfl
      exact hs rfl
    have hst : s.Step L.ctx (.switch q) t := h
    refine ⟨b.holds.step L.apart b.other hst (by simp), ?_, ?_⟩
    · obtain ⟨-, h0, h1, hh, -⟩ := h
      obtain ⟨hm, -⟩ := exec_switchTo h0 h1 (L.apart.lt _) (L.apart.lt q)
      rw [← b.frame, hh, ret_mem, hm]
      exact Trapframe.at_congr fun x hx hlt => storeSlots_frame hx hlt
    · rw [h.2.2.2.2]
      exact hq
  | fork q src esp =>
    have hq : q ≠ p := by
      rintro rfl
      exact hf src esp rfl
    obtain ⟨-, hh, hc⟩ := h
    refine ⟨?_, ?_, ?_⟩
    · apply b.holds.congr
      intro x hx hlt
      rw [hh]
      simp only
      rw [storeSlots_context L.apart hq hx hlt]
      apply copyFrame_of_apart
      have := L.contexts q p
      omega
    · rw [← b.frame, hh]
      apply Trapframe.at_congr
      intro x hx hlt
      simp only
      rw [storeSlots_frame hx hlt]
      apply copyFrame_of_apart
      have := L.frames p q (Ne.symm hq)
      omega
    · rw [hc]
      exact b.other
  | work =>
    refine ⟨b.holds.step L.apart b.other h.1 (by simp), (h.frame b.other).trans b.frame, ?_⟩
    rw [h.1.1]
    exact b.other
  | forkret =>
    obtain ⟨u, hw, -, ha, -, hh, hc⟩ := h
    have hm : t.hart.mem = u.hart.mem := by
      rw [hh]
      exact (exec_forkrets ha (L.lt _)).2.1
    refine ⟨?_, ?_, ?_⟩
    · refine (b.holds.step L.apart b.other hw.1 (by simp)).congr fun x _ _ => ?_
      rw [hm]
    · rw [hm, hw.frame b.other]
      exact b.frame
    · rw [hc]
      exact b.other

theorem runs (b : L.Born s p f) (h : Runs L.Step s l t) (hs : .switch p ∉ l)
    (hf : ∀ src esp, .fork p src esp ∉ l) : L.Born t p f := by
  induction h with
  | nil s => exact b
  | @cons s u t a l hst _ ih =>
    simp only [List.mem_cons, not_or] at hs hf
    exact ih (b.step hst (Ne.symm hs.1) fun src esp => Ne.symm (hf src esp).1) hs.2
      fun src esp => (hf src esp).2

theorem start (b : L.Born s p f) (hs : L.Step s (.switch p) t) (hf : L.Step t .forkret u) :
    t.hart.pc = L.forkret ∧ (t.hart.reg sp).toNat = L.tf p ∧ u.current = p ∧
      context u.hart = f.context ∧
      (f.status.getLsbD 8 = false → u.hart.csr .sscratch = BitVec.ofNat 64 (L.tf p + 288)) := by
  obtain ⟨hreg, hpc, hc⟩ := b.holds.resume L.apart hs
  have hframe : Trapframe.at t.hart.mem (L.tf p) = f := by
    obtain ⟨-, h0, h1, hh, -⟩ := hs
    obtain ⟨hm, -⟩ := exec_switchTo h0 h1 (L.apart.lt _) (L.apart.lt p)
    rw [← b.frame, hh, ret_mem, hm]
    exact Trapframe.at_congr fun x hx hlt => storeSlots_frame hx hlt
  obtain ⟨v, -, -, ha, hown, hh, hcur⟩ := hf
  rw [hc] at ha hown hcur
  have hv : Trapframe.at v.hart.mem (L.tf p) = f := (Trapframe.at_congr hown).trans hframe
  obtain ⟨hctx, -, hss⟩ := exec_forkrets ha (L.lt p)
  rw [hv] at hctx hss
  refine ⟨hpc, ?_, hcur, by rw [hh, hctx], fun h8 => ?_⟩
  · rw [hreg sp 1 (by decide)]
    have hlt := L.lt p
    change (BitVec.ofNat 64 (L.tf p)).toNat = _
    rw [BitVec.toNat_ofNat]
    omega
  · rw [hh, hss, h8]
    rfl

end Layout.Born

/-- The child of a `fork` from user mode, which `sys_fork` makes from the frame of its parent, runs
for the first time: it goes on behind the `ecall` of its parent with the registers of its parent and
the result `0`. -/
theorem fork_child_resumes {c : Context} {cause tval : Word}
    (hframe : Trapframe.at s.hart.mem src = (c.trapframe cause tval).set .epc (c.pc + 4))
    (hmode : c.mode = .user) (hzero : c.reg 0 = 0) (hsp : c.reg sp ≠ 0)
    (hs : .switch p ∉ l) (hf : ∀ src esp, .fork p src esp ∉ l)
    (h : Runs L.Step s (.fork p src (c.reg sp) :: l ++ [.switch p, .forkret]) t) :
    t.current = p ∧
      context t.hart = ⟨Function.update c.reg a0 0, c.pc + 4, .user,
        (c.status ||| sstatusSpie) &&& ~~~sstatusSpp⟩ ∧
      t.hart.csr .sscratch = BitVec.ofNat 64 (L.tf p + 288) := by
  cases h with
  | @cons _ u _ _ _ hfork h =>
    obtain ⟨v, hl, hlast⟩ := h.split
    have hb := (Layout.Born.fork hfork).runs hl hs hf
    cases hlast with
    | cons hsw hlast =>
      cases hlast with
      | cons hret hnil =>
        cases hnil
        obtain ⟨-, -, hc, hctx, hss⟩ := hb.start hsw hret
        have hstatus : ((Trapframe.at s.hart.mem src).child (L.tf p) (c.reg sp)).status =
            trapStatus c.mode c.status := by
          rw [hframe]
          rfl
        refine ⟨hc, ?_, hss ?_⟩
        · rw [hctx, hframe, Context.context_child hzero hsp, hmode]
        · rw [hstatus, getLsbD_trapStatus, hmode]
          rfl

end Child

/-- The child of a process whose registers are all alike. -/
theorem fork_child_resumes_alike :
    ∃ (L : Layout Bool) (s t : Cpu Bool) (v : Word),
      Runs L.Step s [.fork true 12288 v, .switch true, .forkret] t ∧ t.current = true ∧
        t.hart.mode = .user ∧ t.hart.reg a0 = 0 ∧ t.hart.reg sp = v := by
  let L : Layout Bool :=
    { ctx := fun p => if p then 8192 else 4096
      tf := fun p => if p then 16384 else 12288
      forkret := 0
      apart := ⟨by decide, by decide⟩
      lt := by decide
      frames := by decide
      contexts := by decide }
  let m : ℕ → UInt8 := fun x => if x < 12296 then 0 else 4
  let v : Word := 0x0404040404040404
  let c : Context := ⟨fun r => if r = 0 then 0 else v, v - 4, .user, v⟩
  let h : Hart :=
    { reg := Function.update (Function.update (fun _ => 0) a0 4096) a1 8192
      csr := fun _ => 0
      mem := m
      pc := 0
      mode := .supervisor
      zero := rfl }
  have hframe : Trapframe.at m 12288 = (c.trapframe v v).set .epc (c.pc + 4) := by
    have hreg : ∀ r : Reg, double m (12288 + 8 * r.val) = if r = 0 then 0 else v := by
      decide +kernel
    ext1
    · funext r
      exact hreg r
    all_goals decide +kernel
  let s : Cpu Bool := ⟨h, false⟩
  let u : Cpu Bool := ⟨{ h with
    mem := storeSlots (copyFrame m (L.tf true) 12288 v) (L.ctx true)
      (created L.forkret (BitVec.ofNat 64 (L.tf true))) contextSlots }, false⟩
  let w : Cpu Bool := ⟨ret (exec 0 switchTo u.hart), true⟩
  let x : Cpu Bool := ⟨w.hart.setReg a0 16384, true⟩
  let t : Cpu Bool := ⟨sret (exec 0 forkrets x.hart), true⟩
  have hfork : L.Step s (.fork true 12288 v) u := ⟨by decide, rfl, rfl⟩
  have hswitch : L.Step u (.switch true) w := ⟨by decide, by simp [u, h, L, a0, a1],
    by simp [u, h, L, a0, a1], rfl, rfl⟩
  have hmode : x.hart.mode = .supervisor := by decide +kernel
  have ha : (x.hart.reg a0).toNat = L.tf true := by simp [x, L, a0]
  have hforkret : L.Step w .forkret t :=
    ⟨x, ⟨⟨rfl, fun _ _ _ _ => rfl⟩, fun _ _ _ _ _ => rfl⟩, hmode, ha, fun _ _ _ => rfl, rfl, rfl⟩
  have hrun : Runs L.Step s (.fork true 12288 v :: [] ++ [.switch true, .forkret]) t :=
    .cons hfork (.cons hswitch (.cons hforkret (.nil t)))
  obtain ⟨hc, hctx, -⟩ := fork_child_resumes (s := s) (t := t) (c := c) (l := [])
    (L := L) hframe rfl
    rfl (by decide) (by simp) (by simp) hrun
  refine ⟨L, s, t, v, hrun, hc, ?_, ?_, ?_⟩
  · exact congrArg Context.mode hctx
  · exact congrFun (congrArg Context.reg hctx) a0
  · exact congrFun (congrArg Context.reg hctx) sp

end UCore.Trap

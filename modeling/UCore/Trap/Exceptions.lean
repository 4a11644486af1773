import UCore.Trap.Threads

/-! # Exceptions and system calls

The model of `trap_dispatch` of `kern/trap/trap.c` and of `syscall` of `kern/syscall/syscall.c`, as
the stores that they make into the frame of the trap. For the interrupted program a system call is
one instruction, which changes `a0` and nothing else.
-/

namespace UCore.Trap

open Library Library.Rv64 Hart

def a2 : Reg := 12
def a3 : Reg := 13
def a4 : Reg := 14
def a5 : Reg := 15

def causeIllegalInstruction : Word := 0x2
def causeBreakpoint : Word := 0x3
def causeMisalignedStore : Word := 0x6
def causeUserEcall : Word := 0x8
def causeSupervisorEcall : Word := 0x9
def causeFetchPageFault : Word := 0xc
def causeLoadPageFault : Word := 0xd
def causeStorePageFault : Word := 0xf

/-- The numbers of the entries of `syscalls`. -/
def syscalls : List ℕ :=
  [1, 2, 3, 4, 10, 12, 18, 30, 31, 17, 255, 11, 100, 101, 102, 103, 104, 105, 106, 107, 108, 109]

/-- `NUM_SYSCALLS`: the last entry is 255. -/
def numSyscalls : ℕ := 256

/-- What a function of the table does: its stores into the frame, which only `load_icode` makes, and
its result. -/
structure Answer where
  stores : List (Field × Word)
  ret : BitVec 32

/-- The number of a system call, an `int`. -/
def sysNum (gpr : Reg → Word) : BitVec 32 := (gpr a0).setWidth 32

def sysArg (gpr : Reg → Word) : List Word := [gpr a1, gpr a2, gpr a3, gpr a4, gpr a5]

section Handlers

variable (answer : BitVec 32 → List Word → Answer) (pgfault : BitVec 32)

/-- `syscall`: its stores into the frame, and `none` for a panic. -/
def syscall (f : Trapframe) : Option (List (Field × Word)) :=
  let num := sysNum f.gpr
  if 0 ≤ num.toInt ∧ num.toNat < numSyscalls then
    if num.toNat ∈ syscalls then
      let r := answer num (sysArg f.gpr)
      some (r.stores ++ [(.gpr a0, r.ret.signExtend 64)])
    else none
  else none

/-- `exception_handler`, where `pgfault` is the result of `do_pgfault`. -/
def exceptionHandler (f : Trapframe) : Option (List (Field × Word)) :=
  if f.cause = causeIllegalInstruction then some [(.epc, f.epc + 4)]
  else if f.cause = causeBreakpoint then some [(.epc, f.epc + 2)]
  else if f.cause = causeMisalignedStore then none
  else if f.cause = causeUserEcall ∨ f.cause = causeSupervisorEcall then
    (syscall answer { f with epc := f.epc + 4 }).map ((.epc, f.epc + 4) :: ·)
  else if f.cause = causeFetchPageFault ∨ f.cause = causeLoadPageFault ∨
      f.cause = causeStorePageFault then
    if pgfault ≠ 0 then none else some []
  else some []

/-- `trap_dispatch`. An interrupt does not touch the frame. -/
def trapDispatch (f : Trapframe) : Option (List (Field × Word)) :=
  if f.cause.toInt < 0 then some [] else exceptionHandler answer pgfault f

end Handlers

def IsEcall (cause : Word) : Prop := cause = causeUserEcall ∨ cause = causeSupervisorEcall

instance IsEcall.decidable (cause : Word) : Decidable (IsEcall cause) :=
  inferInstanceAs (Decidable (_ ∨ _))

/-- How far the program counter moves over the instruction that trapped. -/
def skipped (cause : Word) : Word :=
  if cause = causeIllegalInstruction ∨ IsEcall cause then 4
  else if cause = causeBreakpoint then 2
  else 0

section Edits

variable {f : Trapframe} {v : Word} {r : Reg}

@[simp] theorem Trapframe.context_set_epc :
    (f.set .epc v).context = { f.context with pc := v } := rfl

theorem Trapframe.context_set_gpr (hr : r ≠ 0) :
    (f.set (.gpr r) v).context = { f.context with reg := Function.update f.context.reg r v } := by
  refine Context.ext (funext fun r' => ?_) rfl rfl rfl
  by_cases h : r' = r
  · subst h
    simp [context, set, hr]
  · simp [context, set, h]

@[simp] theorem Trapframe.edit_nil : f.edit [] = f := rfl

@[simp] theorem Trapframe.edit_cons {field : Field} {es : List (Field × Word)} :
    f.edit ((field, v) :: es) = (f.set field v).edit es := rfl

end Edits

section Dispatch

variable {answer : BitVec 32 → List Word → Answer} {pgfault : BitVec 32} {cause tval : Word}
  {es : List (Field × Word)} {c : Context} {f : Trapframe}

theorem skipped_of_neg (h : cause.toInt < 0) : ¬ IsEcall cause ∧ skipped cause = 0 := by
  have hne : ∀ v : Word, 0 ≤ v.toInt → cause ≠ v := by
    rintro v hv rfl
    omega
  have he : ¬ IsEcall cause := by
    rintro (h | h)
    · exact hne causeUserEcall (by decide) h
    · exact hne causeSupervisorEcall (by decide) h
  refine ⟨he, ?_⟩
  rw [skipped, if_neg, if_neg (hne causeBreakpoint (by decide))]
  rintro (h | h)
  · exact hne causeIllegalInstruction (by decide) h
  · exact he h

/-- The stores that `trap_dispatch` makes. -/
theorem trapDispatch_eq (h : trapDispatch answer pgfault f = some es)
    (hs : IsEcall f.cause → (answer (sysNum f.gpr) (sysArg f.gpr)).stores = []) :
    es = if IsEcall f.cause then [(.epc, f.epc + 4),
        (.gpr a0, (answer (sysNum f.gpr) (sysArg f.gpr)).ret.signExtend 64)]
      else if skipped f.cause = 0 then [] else [(.epc, f.epc + skipped f.cause)] := by
  unfold trapDispatch exceptionHandler at h
  split at h
  · rename_i hneg
    obtain ⟨he, hk⟩ := skipped_of_neg hneg
    rw [if_neg he, if_pos hk]
    exact (Option.some.inj h).symm
  split at h
  · rename_i hc
    rw [hc, if_neg (by decide), if_neg (by decide)]
    exact (Option.some.inj h).symm
  split at h
  · rename_i hc
    rw [hc, if_neg (by decide), if_neg (by decide)]
    exact (Option.some.inj h).symm
  split at h
  · cases h
  split at h
  · rename_i he
    change IsEcall f.cause at he
    unfold syscall at h
    dsimp only at h
    rw [if_pos he]
    split at h
    · split at h
      · rw [Option.map_some, hs he, List.nil_append] at h
        exact (Option.some.inj h).symm
      · cases h
    · cases h
  rename_i hi hb hm he
  change ¬ IsEcall f.cause at he
  split at h
  · rename_i hc
    split at h
    · cases h
    · rw [if_neg he, if_pos]
      · exact (Option.some.inj h).symm
      · rcases hc with hc | hc | hc <;> rw [hc] <;> decide
  · rw [if_neg he, if_pos]
    · exact (Option.some.inj h).symm
    · rw [skipped, if_neg, if_neg hb]
      rintro (hc | hc)
      exacts [hi hc, he hc]

theorem trapDispatch_context (hz : c.reg 0 = 0)
    (h : trapDispatch answer pgfault (c.trapframe cause tval) = some es)
    (hs : IsEcall cause → (answer (sysNum c.reg) (sysArg c.reg)).stores = []) :
    ((c.trapframe cause tval).edit es).context =
      { reg := if IsEcall cause then
            Function.update c.reg a0 ((answer (sysNum c.reg) (sysArg c.reg)).ret.signExtend 64)
          else c.reg
        pc := c.pc + skipped cause
        mode := c.mode
        status := (c.status ||| sstatusSpie) &&& ~~~sstatusSpp } := by
  have hc := Context.context_trapframe hz cause tval
  rw [trapDispatch_eq h hs]
  by_cases he : IsEcall cause
  · have hk : skipped cause = 4 := if_pos (.inr he)
    rw [if_pos (show IsEcall (c.trapframe cause tval).cause from he), if_pos he, hk]
    rw [Trapframe.edit_cons, Trapframe.edit_cons, Trapframe.edit_nil,
      Trapframe.context_set_gpr (by decide), Trapframe.context_set_epc, hc]
    rfl
  · rw [if_neg (show ¬ IsEcall (c.trapframe cause tval).cause from he), if_neg he]
    by_cases hk : skipped cause = 0
    · rw [if_pos (show skipped (c.trapframe cause tval).cause = 0 from hk),
        Trapframe.edit_nil, hc, hk]
      simp
    · rw [if_neg (show ¬ skipped (c.trapframe cause tval).cause = 0 from hk), Trapframe.edit_cons,
        Trapframe.edit_nil, Trapframe.context_set_epc, hc]
      rfl

end Dispatch

section Programs

variable {ι : Type} [DecidableEq ι] {S : Stacks ι} {s₀ s t : Kernel ι} {p : ι}
  {l₀ l : List (Event ι)} {es : List (Field × Word)} {cause tval : Word}
  {answer : BitVec 32 → List Word → Answer} {pgfault : BitVec 32}

/-- What a trap does to the interrupted program, whatever the other threads do until it returns: an
interrupt does nothing, a system call puts its result into `a0` and goes on behind the `ecall`. -/
theorem trap_answers (h₀ : s₀.Boot) (hs : Runs S.Step s₀ l₀ s)
    (hd : trapDispatch answer pgfault ((context s.hart).trapframe cause tval) = some es)
    (hb : Balanced (l.map (·.seen p)) es) (hc : ∀ e ∈ l, ¬ e.Renews p)
    (hn : IsEcall cause → (answer (sysNum s.hart.reg) (sysArg s.hart.reg)).stores = [])
    (h : Runs S.Step s (.run p (.trap cause tval) :: l ++ [.run p .ret]) t) :
    t.current = p ∧ t.hart.mode = s.hart.mode ∧ t.hart.pc = s.hart.pc + skipped cause ∧
      t.hart.csr .sstatus = (s.hart.csr .sstatus ||| sstatusSpie) &&& ~~~sstatusSpp ∧
      t.hart.reg = if IsEcall cause then Function.update s.hart.reg a0
        ((answer (sysNum s.hart.reg) (sysArg s.hart.reg)).ret.signExtend 64) else s.hart.reg := by
  obtain ⟨hcur, hctx, -⟩ := (h₀.good.runs hs).resumes hb hc h
  have hc := hctx.trans (trapDispatch_context (c := context s.hart) s.hart.zero hd hn)
  exact ⟨hcur, congrArg Context.mode hc, congrArg Context.pc hc, congrArg Context.status hc,
    congrArg Context.reg hc⟩

/-- `getpid`. -/
theorem trap_answers_getpid : ∃ (S : Stacks Unit) (s t : Kernel Unit),
    Runs S.Step s [.run () (.trap causeUserEcall 0), .run () (.edit .epc 4),
      .run () (.edit (.gpr a0) 7), .run () .ret] t ∧
    s.hart.reg a0 = 18 ∧ s.hart.pc = 0 ∧ t.hart.pc = 4 ∧
    t.hart.reg = Function.update s.hart.reg a0 7 := by
  let S : Stacks Unit :=
    { low := fun _ => 0
      top := fun _ => 4096
      ctx := fun _ => 4096
      room := fun _ => by decide
      lt := fun _ => by decide
      apart := fun _ _ h => absurd rfl h
      contexts := ⟨fun _ => by decide, fun _ _ h => absurd rfl h⟩
      outside := fun _ _ => by decide }
  let h : Hart :=
    { reg := Function.update (Function.update (fun _ => 0) sp 4096) a0 18
      csr := fun _ => 0
      mem := fun _ => 0
      pc := 0
      mode := .supervisor
      zero := rfl }
  let s : Kernel Unit := ⟨h, (), fun _ => []⟩
  have hs : s.Boot := ⟨rfl, rfl, fun _ => rfl⟩
  obtain ⟨u, hu⟩ : ∃ u, u = exec 0 alltraps (enter h causeUserEcall 0) := ⟨_, rfl⟩
  have hu' : u.mode = .supervisor := by rw [hu, exec_mode]; rfl
  let a := (u.reg sp).toNat
  let v : Hart := { u with mem := store u.mem 8 (a + 8 * Field.epc.slot) (4 : Word).toNat }
  let w : Hart := { v with mem := store v.mem 8 (a + 8 * (Field.gpr a0).slot) (7 : Word).toNat }
  obtain ⟨t, ht⟩ : ∃ t : Kernel Unit, t = ⟨sret (exec 0 trapret w), (), fun _ => []⟩ := ⟨_, rfl⟩
  let l : List (Event Unit) := [.run () (.edit .epc 4), .run () (.edit (.gpr a0) 7)]
  have hl : Runs S.Step s (.run () (.trap causeUserEcall 0) :: l ++ [.run () .ret]) t := by
    refine .cons (t := ⟨u, (), fun _ => [a]⟩) ⟨rfl, rfl, ⟨fun _ => ⟨by decide, by decide⟩, hu, rfl⟩,
      fun q hq => absurd rfl hq, nofun⟩ ?_
    refine .cons (t := ⟨v, (), fun _ => [a]⟩) ⟨rfl, rfl, ⟨a, [], rfl, nofun, rfl, rfl⟩,
      fun q hq => absurd rfl hq, nofun⟩ ?_
    refine .cons (t := ⟨w, (), fun _ => [a]⟩) ⟨rfl, rfl, ⟨a, [], rfl, nofun, rfl, rfl⟩,
      fun q hq => absurd rfl hq, nofun⟩ ?_
    refine .cons ?_ (.nil t)
    rw [ht]
    exact ⟨rfl, rfl, ⟨hu', a, [], rfl, rfl, rfl, rfl⟩, fun q hq => absurd rfl hq, nofun⟩
  have hd : trapDispatch (fun _ _ => ⟨[], 7⟩) 0 ((context s.hart).trapframe causeUserEcall 0) =
      some [(.epc, 4), (.gpr a0, 7)] := rfl
  have hb : Balanced (l.map (·.seen ())) [(.epc, 4), (.gpr a0, 7)] := .edit (.edit .nil)
  obtain ⟨-, -, hpc, -, hreg⟩ := trap_answers hs (.nil s) hd hb (by simp [l, Event.Renews])
    (fun _ => rfl) hl
  exact ⟨S, s, t, hl, rfl, rfl, hpc, hreg⟩

end Programs

end UCore.Trap

import UCore.Library.Rv64
import UCore.Library.Run

/-! # The path into a trap and back

The model of `kern/trap/trapentry.S`. A thread has a kernel stack, and a trap pushes a `trapframe`
on it: at its top for a trap from user mode, and below the frames of the traps that are still
handled for a trap from the kernel.
-/

namespace UCore.Trap

open Library Library.Rv64 Hart

def sstatusSie : Word := BitVec.twoPow 64 1

def sstatusSpie : Word := BitVec.twoPow 64 5

def sstatusSpp : Word := BitVec.twoPow 64 8

/-- `sstatus` of the handler of a trap. -/
def trapStatus (mode : Mode) (s : Word) : Word :=
  (s &&& ~~~(sstatusSie ||| sstatusSpie ||| sstatusSpp)) |||
    (if s.getLsbD 1 then sstatusSpie else 0) |||
    (if mode = .supervisor then sstatusSpp else 0)

/-- `sstatus` after `sret`. -/
def sretStatus (s : Word) : Word :=
  (s &&& ~~~(sstatusSie ||| sstatusSpie ||| sstatusSpp)) |||
    (if s.getLsbD 5 then sstatusSie else 0) ||| sstatusSpie

/-- The mode that `sret` returns to. -/
def previous (s : Word) : Mode := if s.getLsbD 8 then .supervisor else .user

/-- What the processor does at a trap. -/
def enter (h : Hart) (cause tval : Word) : Hart :=
  { ((((h.setCsr .sepc h.pc).setCsr .scause cause).setCsr .stval tval).setCsr .sstatus
      (trapStatus h.mode (h.csr .sstatus))) with
    pc := h.csr .stvec
    mode := .supervisor }

def sret (h : Hart) : Hart :=
  { h.setCsr .sstatus (sretStatus (h.csr .sstatus)) with
    pc := h.csr .sepc
    mode := previous (h.csr .sstatus) }

def sp : Reg := 2
def s0 : Reg := 8
def s1 : Reg := 9
def a0 : Reg := 10
def s2 : Reg := 18
def s3 : Reg := 19
def s4 : Reg := 20

/-- The registers that `SAVE_ALL` stores as they are, with their slots: all but `sp`. -/
def stored : List (Reg × ℕ) := ((List.finRange 32).filter (· ≠ sp)).map fun r => (r, r.val)

/-- The registers that `RESTORE_ALL` loads before `sp`. -/
def loaded : List (Reg × ℕ) := stored.filter (·.1 ≠ 0)

def readCsrs : List Instr :=
  [.csrrw s0 .sscratch 0, .csrr s1 .sstatus, .csrr s2 .sepc, .csrr s3 .stval, .csrr s4 .scause]

def csrSlots : List (Reg × ℕ) := [(s0, 2), (s1, 32), (s2, 33), (s3, 34), (s4, 35)]

/-- The choice of the stack: the kernel stack of the thread, or the current one for a trap from the
kernel. -/
def prologue : List Instr :=
  [.csrrw sp .sscratch sp, .bnez sp 1, .csrr sp .sscratch, .addi sp sp (-36 * 8)]

/-- `__alltraps` up to its call of `trap`: `SAVE_ALL`, and the frame as the argument. -/
def alltraps : List Instr :=
  prologue ++ (stores sp stored ++ (readCsrs ++ (stores sp csrSlots ++ [.addi a0 sp 0])))

/-- The test of the mode that the trap came from. For user mode the end of the frame goes to
`sscratch`. -/
def restoreCsrs : List Instr :=
  [.ld s1 (8 * 32 : ℕ) sp, .ld s2 (8 * 33 : ℕ) sp, .andi s0 s1 0x100, .bnez s0 2,
    .addi s0 sp (36 * 8), .csrrw 0 .sscratch s0, .csrrw 0 .sstatus s1, .csrrw 0 .sepc s2]

/-- `RESTORE_ALL`. -/
def trapret : List Instr :=
  restoreCsrs ++ (loads sp loaded ++ [.ld sp (8 * 2 : ℕ) sp])

/-- The `struct trapframe`. -/
@[ext] structure Trapframe where
  gpr : Reg → Word
  status : Word
  epc : Word
  tval : Word
  cause : Word

def Trapframe.at (m : ℕ → UInt8) (a : ℕ) : Trapframe where
  gpr r := double m (a + 8 * r.val)
  status := double m (a + 8 * 32)
  epc := double m (a + 8 * 33)
  tval := double m (a + 8 * 34)
  cause := double m (a + 8 * 35)

/-- What a trap interrupts and `sret` goes on with. -/
@[ext] structure Context where
  reg : Reg → Word
  pc : Word
  mode : Mode
  status : Word

def context (h : Hart) : Context := ⟨h.reg, h.pc, h.mode, h.csr .sstatus⟩

/-- The frame of a trap in this context. -/
def Context.trapframe (c : Context) (cause tval : Word) : Trapframe :=
  ⟨c.reg, trapStatus c.mode c.status, c.pc, tval, cause⟩

/-- The context that a frame describes. -/
def Trapframe.context (f : Trapframe) : Context :=
  ⟨fun r => if r = 0 then 0 else f.gpr r, f.epc, previous f.status, sretStatus f.status⟩

/-- The fields of a frame, and their places in double words. -/
inductive Field
  | gpr (r : Reg)
  | status
  | epc
  | tval
  | cause

def Field.slot : Field → ℕ
  | gpr r => r.val
  | status => 32
  | epc => 33
  | tval => 34
  | cause => 35

def Trapframe.set (f : Trapframe) : Field → Word → Trapframe
  | .gpr r, v => { f with gpr := Function.update f.gpr r v }
  | .status, v => { f with status := v }
  | .epc, v => { f with epc := v }
  | .tval, v => { f with tval := v }
  | .cause, v => { f with cause := v }

/-- A thread, with the addresses of the frames whose traps it has not returned from. The first one
is that of the last trap. -/
structure Thread where
  hart : Hart
  frames : List ℕ

inductive Op
  /-- A trap, up to the call of `trap`. -/
  | trap (cause tval : Word)
  /-- Any instructions of the interrupted program or of the handler. -/
  | work
  /-- A store of the handler into its own frame. -/
  | edit (field : Field) (v : Word)
  /-- `__trapret`. -/
  | ret

namespace Thread

variable (low top : ℕ) (s : Thread)

/-- The end of the part of the kernel stack that is not in use by frames. -/
def limit : ℕ := s.frames.headD top

/-- One step of a thread with the kernel stack from `low` to `top`. The C code keeps to its stack:
`sp` stays below the last frame, and is its address again when `trap` returns. Only `load_icode` and
`copy_thread` make a frame for user mode, in the first frame of the stack. -/
def Step : Op → Thread → Prop
  | .trap cause tval, t =>
    (s.hart.mode = .supervisor → low + 288 ≤ (s.hart.reg sp).toNat ∧
      (s.hart.reg sp).toNat ≤ s.limit top) ∧
    t.hart = exec 0 alltraps (enter s.hart cause tval) ∧
    t.frames = (t.hart.reg sp).toNat :: s.frames
  | .work, t =>
    t.frames = s.frames ∧ t.hart.mode = s.hart.mode ∧
    t.hart.csr .sscratch = s.hart.csr .sscratch ∧
    ∀ x, s.limit top ≤ x → x < top → t.hart.mem x = s.hart.mem x
  | .edit field v, t =>
    ∃ a rest, s.frames = a :: rest ∧
      (field = .status → v.getLsbD 8 = false → rest = [] ∧ a + 288 = top) ∧
      t.hart = { s.hart with mem := store s.hart.mem 8 (a + 8 * field.slot) v.toNat } ∧
      t.frames = s.frames
  | .ret, t =>
    s.hart.mode = .supervisor ∧ ∃ a rest, s.frames = a :: rest ∧ (s.hart.reg sp).toNat = a ∧
      t.hart = sret (exec 0 trapret s.hart) ∧ t.frames = rest

/-- A new thread, before `forkrets`: `copy_thread` has put a frame at the end of its stack. -/
structure Start : Prop where
  frames : s.frames = [top - 288]
  mode : s.hart.mode = .supervisor
  sscratch : s.hart.csr .sscratch = 0

end Thread

/-- What traps are for: a stack of interrupted contexts. -/
structure Nest where
  current : Context
  pending : List Trapframe

def Nest.Step (n : Nest) : Op → Nest → Prop
  | .trap cause tval, t => t.pending = n.current.trapframe cause tval :: n.pending
  | .work, t => t.pending = n.pending
  | .edit field v, t => ∃ f rest, n.pending = f :: rest ∧ t.pending = f.set field v :: rest
  | .ret, t => ∃ f rest, n.pending = f :: rest ∧ t = ⟨f.context, rest⟩

/-- The steps between a trap and its return, with what the handler stores into the frame. -/
inductive Balanced : List Op → List (Field × Word) → Prop
  | nil : Balanced [] []
  | work {l : List Op} {es : List (Field × Word)} : Balanced l es → Balanced (.work :: l) es
  | edit {l : List Op} {es : List (Field × Word)} {field : Field} {v : Word} :
    Balanced l es → Balanced (.edit field v :: l) ((field, v) :: es)
  | nested {l l' : List Op} {es es' : List (Field × Word)} {cause tval : Word} :
    Balanced l es → Balanced l' es' → Balanced (.trap cause tval :: l ++ .ret :: l') es'

def Trapframe.edit (f : Trapframe) (es : List (Field × Word)) : Trapframe :=
  es.foldl (fun f e => f.set e.1 e.2) f

theorem getLsbD_trapStatus {mode : Mode} {s : Word} {i : ℕ} :
    (trapStatus mode s).getLsbD i = if i = 1 then false else if i = 5 then s.getLsbD 1
      else if i = 8 then decide (mode = .supervisor) else s.getLsbD i := by
  have hz : (0 : Word).getLsbD i = false := BitVec.getLsbD_zero
  simp only [trapStatus, sstatusSie, sstatusSpie, sstatusSpp, BitVec.getLsbD_or,
    BitVec.getLsbD_and, BitVec.getLsbD_not, BitVec.getLsbD_twoPow,
    apply_ite (fun v : Word => v.getLsbD i), hz]
  rcases eq_or_ne i 1 with rfl | h₁
  · simp
  rcases eq_or_ne i 5 with rfl | h₅
  · simp
  rcases eq_or_ne i 8 with rfl | h₈
  · simp
  · simp [h₁, h₅, h₈, Ne.symm h₁, Ne.symm h₅, Ne.symm h₈]
    exact BitVec.lt_of_getLsbD

theorem getLsbD_sretStatus {s : Word} {i : ℕ} :
    (sretStatus s).getLsbD i = if i = 1 then s.getLsbD 5 else if i = 5 then true
      else if i = 8 then false else s.getLsbD i := by
  have hz : (0 : Word).getLsbD i = false := BitVec.getLsbD_zero
  simp only [sretStatus, sstatusSie, sstatusSpie, sstatusSpp, BitVec.getLsbD_or,
    BitVec.getLsbD_and, BitVec.getLsbD_not, BitVec.getLsbD_twoPow,
    apply_ite (fun v : Word => v.getLsbD i), hz]
  rcases eq_or_ne i 1 with rfl | h₁
  · simp
  rcases eq_or_ne i 5 with rfl | h₅
  · simp
  rcases eq_or_ne i 8 with rfl | h₈
  · simp
  · simp [h₁, h₅, h₈, Ne.symm h₁, Ne.symm h₅, Ne.symm h₈]
    exact BitVec.lt_of_getLsbD

/-- After a trap and its `sret`, interrupts are enabled as before; only the two bits in which the
processor remembers the interrupted state have changed. -/
theorem sretStatus_trapStatus (mode : Mode) (s : Word) :
    sretStatus (trapStatus mode s) = (s ||| sstatusSpie) &&& ~~~sstatusSpp := by
  apply BitVec.eq_of_getLsbD_eq
  intro i hi
  simp only [getLsbD_sretStatus, getLsbD_trapStatus, sstatusSpie, sstatusSpp, BitVec.getLsbD_or,
    BitVec.getLsbD_and, BitVec.getLsbD_not, BitVec.getLsbD_twoPow]
  rcases eq_or_ne i 1 with rfl | h₁
  · simp
  rcases eq_or_ne i 5 with rfl | h₅
  · simp
  rcases eq_or_ne i 8 with rfl | h₈
  · simp
  · simp [h₁, h₅, h₈, Ne.symm h₅, Ne.symm h₈, hi]

theorem previous_trapStatus (mode : Mode) (s : Word) : previous (trapStatus mode s) = mode := by
  rw [previous, getLsbD_trapStatus]
  cases mode <;> simp

theorem Context.context_trapframe {c : Context} (hz : c.reg 0 = 0) (cause tval : Word) :
    (c.trapframe cause tval).context =
      { c with status := (c.status ||| sstatusSpie) &&& ~~~sstatusSpp } := by
  ext r
  · simp only [Trapframe.context, trapframe]
    split
    · simp [*]
    · rfl
  · rfl
  · exact previous_trapStatus c.mode c.status
  · rw [← sretStatus_trapStatus c.mode c.status]
    rfl

end UCore.Trap

import Mathlib.Data.Nat.Notation
import Mathlib.Logic.Function.Basic
import UCore.Library.Bytes

/-! # Runs of RV64 code

The integer registers, the control registers of the supervisor and a memory of bytes, with the
instructions that trap handlers and context switches consist of. Branches lead forward. A misaligned
access goes through, and no access wraps around the end of the address space.
-/

namespace Library.Rv64

abbrev Reg := Fin 32

instance Reg.neZero : NeZero 32 := ⟨by decide⟩

abbrev Word := BitVec 64

inductive Csr
  | sstatus
  | sscratch
  | sepc
  | stval
  | scause
  | stvec
deriving DecidableEq

inductive Mode
  | user
  | supervisor
deriving DecidableEq

/-- The register `0` is hard-wired to zero. -/
@[ext] structure Hart where
  reg : Reg → Word
  csr : Csr → Word
  mem : ℕ → UInt8
  pc : Word
  mode : Mode
  zero : reg 0 = 0

inductive Instr
  | csrrw (rd : Reg) (csr : Csr) (rs : Reg)
  | csrr (rd : Reg) (csr : Csr)
  | addi (rd rs : Reg) (imm : ℤ)
  | andi (rd rs : Reg) (imm : ℤ)
  | sd (rs : Reg) (offset : ℤ) (base : Reg)
  | ld (rd : Reg) (offset : ℤ) (base : Reg)
  | bnez (rs : Reg) (skip : ℕ)

/-- The double word at an address. -/
def double (m : ℕ → UInt8) (a : ℕ) : Word := BitVec.ofNat 64 (load m 8 a)

namespace Hart

variable (h : Hart)

def setReg (rd : Reg) (v : Word) : Hart :=
  { h with
    reg := if rd = 0 then h.reg else Function.update h.reg rd v
    zero := by
      split
      · exact h.zero
      · rw [Function.update_of_ne (Ne.symm ‹_›)]
        exact h.zero }

def setCsr (c : Csr) (v : Word) : Hart := { h with csr := Function.update h.csr c v }

def addr (base : Reg) (offset : ℤ) : ℕ := (h.reg base + BitVec.ofInt 64 offset).toNat

def step : Instr → Hart
  | .csrrw rd c rs => (h.setCsr c (h.reg rs)).setReg rd (h.csr c)
  | .csrr rd c => h.setReg rd (h.csr c)
  | .addi rd rs imm => h.setReg rd (h.reg rs + BitVec.ofInt 64 imm)
  | .andi rd rs imm => h.setReg rd (h.reg rs &&& BitVec.ofInt 64 imm)
  | .sd rs offset base => { h with mem := store h.mem 8 (h.addr base offset) (h.reg rs).toNat }
  | .ld rd offset base => h.setReg rd (double h.mem (h.addr base offset))
  | .bnez _ _ => h

/-- How many of the following instructions are not executed. -/
def skipped : Instr → ℕ
  | .bnez rs skip => if h.reg rs ≠ 0 then skip else 0
  | _ => 0

/-- The instructions one after another, without the first `skip` ones. -/
def exec : ℕ → List Instr → Hart → Hart
  | _, [], h => h
  | skip + 1, _ :: is, h => exec skip is h
  | 0, i :: is, h => exec (h.skipped i) is (h.step i)

variable {h}

@[simp] theorem setReg_reg {rd r : Reg} {v : Word} :
    (h.setReg rd v).reg r = if rd = 0 then h.reg r else if r = rd then v else h.reg r := by
  simp only [setReg]
  split <;> simp [*, Function.update_apply]

@[simp] theorem setReg_csr {rd : Reg} {v : Word} : (h.setReg rd v).csr = h.csr := rfl

@[simp] theorem setReg_mem {rd : Reg} {v : Word} : (h.setReg rd v).mem = h.mem := rfl

@[simp] theorem setReg_pc {rd : Reg} {v : Word} : (h.setReg rd v).pc = h.pc := rfl

@[simp] theorem setReg_mode {rd : Reg} {v : Word} : (h.setReg rd v).mode = h.mode := rfl

@[simp] theorem setCsr_reg {c : Csr} {v : Word} : (h.setCsr c v).reg = h.reg := rfl

@[simp] theorem setCsr_csr {c c' : Csr} {v : Word} :
    (h.setCsr c v).csr c' = if c' = c then v else h.csr c' := by
  simp [setCsr, Function.update_apply]

@[simp] theorem setCsr_mem {c : Csr} {v : Word} : (h.setCsr c v).mem = h.mem := rfl

@[simp] theorem setCsr_pc {c : Csr} {v : Word} : (h.setCsr c v).pc = h.pc := rfl

@[simp] theorem setCsr_mode {c : Csr} {v : Word} : (h.setCsr c v).mode = h.mode := rfl

@[simp] theorem exec_mode {n : ℕ} {is : List Instr} : (exec n is h).mode = h.mode := by
  induction is generalizing n h with
  | nil => cases n <;> rfl
  | cons i is ih =>
    cases n with
    | zero =>
      refine ih.trans ?_
      cases i <;> rfl
    | succ n => exact ih

section Exec

variable {is : List Instr} {rd rs base : Reg} {c : Csr} {imm : ℤ} {n : ℕ} {i : Instr}

@[simp] theorem exec_nil : exec n [] h = h := by cases n <;> rfl

@[simp] theorem exec_skip : exec (n + 1) (i :: is) h = exec n is h := rfl

@[simp] theorem exec_csrrw : exec 0 (.csrrw rd c rs :: is) h =
    exec 0 is ((h.setCsr c (h.reg rs)).setReg rd (h.csr c)) := rfl

@[simp] theorem exec_csrr : exec 0 (.csrr rd c :: is) h = exec 0 is (h.setReg rd (h.csr c)) := rfl

@[simp] theorem exec_addi : exec 0 (.addi rd rs imm :: is) h =
    exec 0 is (h.setReg rd (h.reg rs + BitVec.ofInt 64 imm)) := rfl

@[simp] theorem exec_andi : exec 0 (.andi rd rs imm :: is) h =
    exec 0 is (h.setReg rd (h.reg rs &&& BitVec.ofInt 64 imm)) := rfl

@[simp] theorem exec_sd : exec 0 (.sd rs imm base :: is) h =
    exec 0 is { h with mem := store h.mem 8 (h.addr base imm) (h.reg rs).toNat } := rfl

@[simp] theorem exec_ld : exec 0 (.ld rd imm base :: is) h =
    exec 0 is (h.setReg rd (double h.mem (h.addr base imm))) := rfl

@[simp] theorem exec_bnez : exec 0 (.bnez rs n :: is) h =
    exec (if h.reg rs ≠ 0 then n else 0) is h := rfl

end Exec

theorem addr_eq {base : Reg} {n : ℕ} (hn : (h.reg base).toNat + n < 2 ^ 64) :
    h.addr base n = (h.reg base).toNat + n := by
  rw [addr, BitVec.ofInt_natCast, BitVec.toNat_add, BitVec.toNat_ofNat,
    Nat.mod_eq_of_lt (b := 2 ^ 64)]
  · rw [Nat.mod_eq_of_lt (a := n)]
    omega
  · rw [Nat.mod_eq_of_lt (a := n)]
    · exact hn
    · omega

end Hart

/-- Stores of registers into slots of eight bytes above a base register. -/
def stores (base : Reg) (l : List (Reg × ℕ)) : List Instr :=
  l.map fun p => .sd p.1 (8 * p.2 : ℕ) base

def loads (base : Reg) (l : List (Reg × ℕ)) : List Instr :=
  l.map fun p => .ld p.1 (8 * p.2 : ℕ) base

/-- The memory after stores of the values `f` into the slots from `a` on. -/
def storeSlots (m : ℕ → UInt8) (a : ℕ) (f : Reg → Word) (l : List (Reg × ℕ)) : ℕ → UInt8 :=
  l.foldl (fun m p => store m 8 (a + 8 * p.2) (f p.1).toNat) m

section Slots

variable {m : ℕ → UInt8} {a b i x : ℕ} {f : Reg → Word} {l : List (Reg × ℕ)} {r : Reg} {v : Word}

theorem double_store : double (store m 8 a v.toNat) a = v := by
  rw [double, load_store]
  apply BitVec.eq_of_toNat_eq
  rw [BitVec.toNat_ofNat]
  have := v.isLt
  omega

theorem double_store_of_apart (hab : b + 8 ≤ a ∨ a + 8 ≤ b) :
    double (store m 8 a v.toNat) b = double m b := by
  rw [double, load_store_of_apart hab]
  rfl

theorem double_congr {m' : ℕ → UInt8} (hm : ∀ x, a ≤ x → x < a + 8 → m' x = m x) :
    double m' a = double m a := by
  rw [double, load_congr hm]
  rfl

theorem double_shift {m' : ℕ → UInt8} (hm : ∀ i < 8, m' (a + i) = m (b + i)) :
    double m' a = double m b := by
  have h : ∀ n a b, (∀ i < n, m' (a + i) = m (b + i)) → load m' n a = load m n b := by
    intro n
    induction n with
    | zero => exact fun _ _ _ => rfl
    | succ n ih =>
      intro a b hm
      have h₀ : m' a = m b := hm 0 (by omega)
      have hrest : load m' n (a + 1) = load m n (b + 1) := by
        apply ih
        intro i hi
        rw [Nat.add_assoc, Nat.add_assoc, Nat.add_comm 1 i]
        exact hm (i + 1) (by omega)
      rw [load, load, h₀, hrest]
  rw [double, double, h 8 a b hm]

theorem storeSlots_cons {p : Reg × ℕ} : storeSlots m a f (p :: l) =
    storeSlots (store m 8 (a + 8 * p.2) (f p.1).toNat) a f l := rfl

theorem double_storeSlots_of_notMem (hi : i ∉ l.map Prod.snd) :
    double (storeSlots m a f l) (a + 8 * i) = double m (a + 8 * i) := by
  induction l generalizing m with
  | nil => rfl
  | cons p l ih =>
    rw [List.map_cons, List.mem_cons, not_or] at hi
    rw [storeSlots_cons, ih hi.2]
    exact double_store_of_apart (by omega)

theorem double_storeSlots (hn : (l.map Prod.snd).Nodup) (hr : (r, i) ∈ l) :
    double (storeSlots m a f l) (a + 8 * i) = f r := by
  induction l generalizing m with
  | nil => cases hr
  | cons p l ih =>
    rw [List.map_cons, List.nodup_cons] at hn
    rw [storeSlots_cons]
    rcases List.mem_cons.mp hr with rfl | hr
    · rw [double_storeSlots_of_notMem hn.1]
      exact double_store
    · exact ih hn.2 hr

theorem storeSlots_of_apart (hx : ∀ p ∈ l, x < a + 8 * p.2 ∨ a + 8 * p.2 + 8 ≤ x) :
    storeSlots m a f l x = m x := by
  induction l generalizing m with
  | nil => rfl
  | cons p l ih =>
    rw [storeSlots_cons, ih fun i hi => hx i (by simp [hi])]
    exact store_of_apart (hx p (by simp))

end Slots

namespace Hart

variable {h : Hart} {is : List Instr}

section Slot

variable {rs rd base : Reg} {a i : ℕ}

theorem exec_store (ha : (h.reg base).toNat = a) (hi : a + 8 * i < 2 ^ 64) :
    exec 0 (.sd rs (8 * i : ℕ) base :: is) h =
      exec 0 is { h with mem := store h.mem 8 (a + 8 * i) (h.reg rs).toNat } := by
  rw [exec_sd, addr_eq (by rw [ha]; exact hi), ha]

theorem exec_load (ha : (h.reg base).toNat = a) (hi : a + 8 * i < 2 ^ 64) :
    exec 0 (.ld rd (8 * i : ℕ) base :: is) h =
      exec 0 is (h.setReg rd (double h.mem (a + 8 * i))) := by
  rw [exec_ld, addr_eq (by rw [ha]; exact hi), ha]

end Slot

theorem exec_stores {base : Reg} {l : List (Reg × ℕ)} {a : ℕ} (ha : (h.reg base).toNat = a)
    (hb : ∀ p ∈ l, a + 8 * p.2 < 2 ^ 64) :
    exec 0 (stores base l ++ is) h = exec 0 is { h with mem := storeSlots h.mem a h.reg l } := by
  induction l generalizing h with
  | nil => rfl
  | cons p l ih =>
    rw [stores, List.map_cons, List.cons_append, exec_store ha (hb p (by simp))]
    exact ih (h := { h with mem := store h.mem 8 (a + 8 * p.2) (h.reg p.1).toNat }) ha
      fun i hi => hb i (by simp [hi])

theorem exec_loads {b : Reg} {l : List (Reg × ℕ)} {a : ℕ} {k : List Instr}
    (ha : (h.reg b).toNat = a) (hb : ∀ p ∈ l, a + 8 * p.2 < 2 ^ 64) (hbase : b ∉ l.map Prod.fst)
    (hz : 0 ∉ l.map Prod.fst) (hn : (l.map Prod.fst).Nodup) :
    ∃ h', exec 0 (loads b l ++ k) h = exec 0 k h' ∧
      h'.csr = h.csr ∧ h'.mem = h.mem ∧ h'.pc = h.pc ∧ h'.mode = h.mode ∧
      (∀ r i, (r, i) ∈ l → h'.reg r = double h.mem (a + 8 * i)) ∧
      ∀ r ∉ l.map Prod.fst, h'.reg r = h.reg r := by
  induction l generalizing h with
  | nil =>
    exact ⟨h, rfl, rfl, rfl, rfl, rfl, fun _ _ hr => absurd hr List.not_mem_nil, fun _ _ => rfl⟩
  | cons p l ih =>
    obtain ⟨r, i⟩ := p
    simp only [List.map_cons, List.mem_cons, not_or, List.nodup_cons] at hbase hz hn
    have hr := hb (r, i) (by simp)
    rw [loads, List.map_cons, List.cons_append, exec_load ha hr]
    have hset : ∀ r', (h.setReg r (double h.mem (a + 8 * i))).reg r' =
        if r' = r then double h.mem (a + 8 * i) else h.reg r' := by
      intro r'
      rw [setReg_reg, if_neg (Ne.symm hz.1)]
    have ha' : ((h.setReg r (double h.mem (a + 8 * i))).reg b).toNat = a := by
      rw [hset, if_neg hbase.1, ha]
    obtain ⟨h', he, hc, hm, hp, hmo, hin, hout⟩ := ih ha' (fun p hp => hb p (by simp [hp]))
      hbase.2 hz.2 hn.2
    refine ⟨h', he, hc, hm, hp, hmo, ?_, ?_⟩
    · intro r' i' hmem
      rcases List.mem_cons.mp hmem with heq | hmem
      · obtain ⟨rfl, rfl⟩ := Prod.mk.inj heq
        rw [hout _ hn.1, hset, if_pos rfl]
      · exact hin r' i' hmem
    · intro r' hr'
      rw [List.map_cons, List.mem_cons, not_or] at hr'
      rw [hout r' hr'.2, hset, if_neg hr'.1]

end Hart

end Library.Rv64

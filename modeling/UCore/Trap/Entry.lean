import UCore.Library.Words
import UCore.Trap.Model

/-! # The frame of a trap

`__alltraps` makes a frame of the interrupted registers, and `__trapret` loads the registers that
the frame holds.
-/

namespace UCore.Trap

open Library Library.Rv64 Hart

section Entry

variable {h : Hart} {is : List Instr} {a : ℕ}

/-- Where `SAVE_ALL` puts the end of the frame. -/
def stackPointer (h : Hart) : Word := if h.csr .sscratch ≠ 0 then h.csr .sscratch else h.reg sp

theorem mem_stored {r : Reg} {i : ℕ} : (r, i) ∈ stored ↔ r ≠ sp ∧ i = r.val := by
  unfold stored
  rw [List.mem_map]
  constructor
  · rintro ⟨r', hr', he⟩
    obtain ⟨rfl, rfl⟩ := Prod.mk.inj he
    exact ⟨of_decide_eq_true (List.mem_filter.mp hr').2, rfl⟩
  · rintro ⟨hr, rfl⟩
    exact ⟨r, List.mem_filter.mpr ⟨List.mem_finRange r, decide_eq_true hr⟩, rfl⟩

theorem mem_loaded {r : Reg} {i : ℕ} : (r, i) ∈ loaded ↔ (r ≠ sp ∧ i = r.val) ∧ r ≠ 0 := by
  unfold loaded
  rw [List.mem_filter, mem_stored, decide_eq_true_eq]

theorem nodup_stored : (stored.map Prod.fst).Nodup ∧ (stored.map Prod.snd).Nodup := by
  unfold stored
  rw [List.map_map, List.map_map]
  have hn : ((List.finRange 32).filter (· ≠ sp)).Nodup := (List.nodup_finRange 32).filter _
  refine ⟨?_, ?_⟩
  · exact List.Pairwise.map _ (fun _ _ h => h) hn
  · exact List.Pairwise.map _ (fun _ _ h he => h (Fin.ext he)) hn

/-- The choice of the stack. The interrupted `sp` is in `sscratch` afterwards. -/
theorem exec_prologue (ha : (stackPointer h).toNat = a + 288) :
    ∃ p, exec 0 (prologue ++ is) h = exec 0 is p ∧ (p.reg sp).toNat = a ∧
      (∀ r ≠ sp, p.reg r = h.reg r) ∧
      p.csr .sscratch = h.reg sp ∧ (∀ c ≠ .sscratch, p.csr c = h.csr c) ∧ p.mem = h.mem ∧
      p.pc = h.pc ∧ p.mode = h.mode := by
  have hadd : ∀ v : Word, v.toNat = a + 288 → (v + BitVec.ofInt 64 (-36 * 8)).toNat = a := by
    intro v hv
    have hlt := v.isLt
    rw [BitVec.toNat_add, BitVec.toNat_ofInt]
    omega
  let h₁ := (h.setCsr .sscratch (h.reg sp)).setReg sp (h.csr .sscratch)
  have h₁sp : h₁.reg sp = h.csr .sscratch := by
    rw [setReg_reg, if_neg (by decide), if_pos rfl]
  have hstart : exec 0 (prologue ++ is) h =
      exec (if h₁.reg sp ≠ 0 then 1 else 0)
        (.csrr sp .sscratch :: .addi sp sp (-36 * 8) :: is) h₁ := by
    unfold prologue
    rw [List.cons_append, exec_csrrw, List.cons_append, exec_bnez]
    rfl
  unfold stackPointer at ha
  rw [hstart, h₁sp]
  have hreg : ∀ (k : Hart) (v : Word) (r : Reg), r ≠ sp → (k.setReg sp v).reg r = k.reg r := by
    intro k v r hr
    rw [setReg_reg, if_neg (by decide), if_neg hr]
  have hsp : ∀ (k : Hart) (v : Word), (k.setReg sp v).reg sp = v := by
    intro k v
    rw [setReg_reg, if_neg (by decide), if_pos rfl]
  have hcsr : h₁.csr .sscratch = h.reg sp ∧ ∀ c ≠ .sscratch, h₁.csr c = h.csr c := by
    refine ⟨?_, fun c hc => ?_⟩
    · rw [setReg_csr, setCsr_csr, if_pos rfl]
    · rw [setReg_csr, setCsr_csr, if_neg hc]
  by_cases hs : h.csr .sscratch = 0
  · rw [if_neg (by simpa using hs)] at ha ⊢
    let h₂ := h₁.setReg sp (h₁.csr .sscratch)
    refine ⟨h₂.setReg sp (h₂.reg sp + BitVec.ofInt 64 (-36 * 8)), ?_, ?_, ?_, hcsr.1, hcsr.2,
      rfl, rfl, rfl⟩
    · rw [exec_csrr, exec_addi]
    · rw [hsp, hsp, hcsr.1]
      exact hadd _ ha
    · intro r hr
      rw [hreg _ _ r hr, hreg _ _ r hr, hreg _ _ r hr]
      rfl
  · rw [if_pos hs] at ha ⊢
    refine ⟨h₁.setReg sp (h₁.reg sp + BitVec.ofInt 64 (-36 * 8)), ?_, ?_, ?_, hcsr.1, hcsr.2,
      rfl, rfl, rfl⟩
    · rw [exec_skip, exec_addi]
    · rw [hsp, h₁sp]
      exact hadd _ ha
    · intro r hr
      rw [hreg _ _ r hr, hreg _ _ r hr]
      rfl

theorem exec_readCsrs : ∃ q, exec 0 (readCsrs ++ is) h = exec 0 is q ∧ q.reg sp = h.reg sp ∧
    q.reg s0 = h.csr .sscratch ∧ q.reg s1 = h.csr .sstatus ∧ q.reg s2 = h.csr .sepc ∧
    q.reg s3 = h.csr .stval ∧ q.reg s4 = h.csr .scause ∧ q.csr .sscratch = 0 ∧
    (∀ c ≠ .sscratch, q.csr c = h.csr c) ∧ q.mem = h.mem ∧ q.pc = h.pc ∧ q.mode = h.mode := by
  unfold readCsrs
  simp only [List.cons_append, List.nil_append, exec_csrrw, exec_csrr]
  refine ⟨_, rfl, ?_, ?_, ?_, ?_, ?_, ?_, ?_, ?_, rfl, rfl, rfl⟩
  · simp [s0, s1, s2, s3, s4, sp]
  · simp [s0, s1, s2, s3, s4]
  · simp [s1, s2, s3, s4]
  · simp [s2, s3, s4]
  · simp [s3, s4]
  · simp [s4]
  · simp [h.zero]
  · intro c hc
    simp [hc]

/-- `trap` is called with a frame that holds the interrupted registers, and nothing outside of the
frame has changed. -/
theorem exec_alltraps (ha : (stackPointer h).toNat = a + 288) :
    ∃ t, exec 0 alltraps h = t ∧ (t.reg sp).toNat = a ∧ t.reg a0 = t.reg sp ∧
      t.csr .sscratch = 0 ∧ t.csr .sstatus = h.csr .sstatus ∧ t.mode = h.mode ∧
      Trapframe.at t.mem a =
        ⟨h.reg, h.csr .sstatus, h.csr .sepc, h.csr .stval, h.csr .scause⟩ ∧
      ∀ x, x < a ∨ a + 288 ≤ x → t.mem x = h.mem x := by
  have hb : a + 288 < 2 ^ 64 := by
    rw [← ha]
    exact (stackPointer h).isLt
  have hslot : ∀ p ∈ stored, a + 8 * p.2 < 2 ^ 64 := by
    rintro ⟨r, i⟩ hp
    obtain ⟨-, rfl⟩ := mem_stored.mp hp
    have := r.isLt
    simp only
    omega
  obtain ⟨p, hp, hpsp, hpreg, hpss, hpcsr, hpmem, -, hpmode⟩ := exec_prologue ha
  obtain ⟨q, hq, hqsp, hq0, hq1, hq2, hq3, hq4, hqss, hqcsr, hqmem, -, hqmode⟩ := exec_readCsrs
    (h := { p with mem := storeSlots p.mem a p.reg stored })
  have hsp : (q.reg sp).toNat = a := by
    rw [hqsp]
    exact hpsp
  have hcslot : ∀ p ∈ csrSlots, p.2 < 36 := by decide
  refine ⟨_, rfl, ?_⟩
  unfold alltraps
  rw [hp, exec_stores hpsp hslot, hq, exec_stores hsp (fun p hp => by
    have := hcslot p hp
    omega), exec_addi, exec_nil]
  have hcsr : ∀ c ≠ .sscratch, q.csr c = h.csr c := by
    intro c hc
    rw [hqcsr c hc]
    exact hpcsr c hc
  have hreg : ∀ v : Word, ∀ r ≠ a0, ∀ k : Hart, (k.setReg a0 v).reg r = k.reg r := by
    intro v r hr k
    rw [setReg_reg, if_neg (by decide), if_neg hr]
  refine ⟨?_, ?_, ?_, ?_, ?_, ?_, ?_⟩
  · rw [hreg _ _ (by decide)]
    exact hsp
  · rw [hreg _ sp (by decide), setReg_reg, if_neg (by decide), if_pos rfl]
    exact BitVec.add_zero _
  · exact hqss
  · exact hcsr _ (by decide)
  · exact hqmode.trans hpmode
  · rw [setReg_mem]
    have hn : (csrSlots.map Prod.snd).Nodup := by decide
    have hval : q.reg s0 = h.reg sp ∧ q.reg s1 = h.csr .sstatus ∧ q.reg s2 = h.csr .sepc ∧
        q.reg s3 = h.csr .stval ∧ q.reg s4 = h.csr .scause :=
      ⟨hq0.trans hpss, hq1.trans (hpcsr _ (by decide)), hq2.trans (hpcsr _ (by decide)),
        hq3.trans (hpcsr _ (by decide)), hq4.trans (hpcsr _ (by decide))⟩
    ext1
    · funext r
      rcases eq_or_ne r sp with rfl | hrs
      · exact (double_storeSlots hn (r := s0) (by decide)).trans hval.1
      · have hr := r.isLt
        have hr2 : r.val ≠ 2 := fun h => hrs (Fin.ext h)
        have hnot : r.val ∉ csrSlots.map Prod.snd := by
          simp only [csrSlots, List.map_cons, List.map_nil, List.mem_cons,
            List.not_mem_nil, or_false]
          omega
        refine (double_storeSlots_of_notMem hnot).trans ?_
        rw [hqmem]
        exact (double_storeSlots nodup_stored.2 (mem_stored.mpr ⟨hrs, rfl⟩)).trans (hpreg r hrs)
    · exact (double_storeSlots hn (r := s1) (by decide)).trans hval.2.1
    · exact (double_storeSlots hn (r := s2) (by decide)).trans hval.2.2.1
    · exact (double_storeSlots hn (r := s3) (by decide)).trans hval.2.2.2.1
    · exact (double_storeSlots hn (r := s4) (by decide)).trans hval.2.2.2.2
  · intro x hx
    rw [setReg_mem]
    refine (storeSlots_of_apart fun p hp => ?_).trans ?_
    · have := hcslot p hp
      omega
    rw [hqmem]
    refine (storeSlots_of_apart ?_).trans (congrFun hpmem x)
    rintro ⟨r, i⟩ hp
    obtain ⟨-, rfl⟩ := mem_stored.mp hp
    have := r.isLt
    simp only
    omega

theorem exec_writeCsrs : ∃ q, (∀ is, exec 0 (.csrrw 0 .sstatus s1 :: .csrrw 0 .sepc s2 :: is) h =
      exec 0 is q) ∧ (∀ r, q.reg r = h.reg r) ∧ q.csr .sstatus = h.reg s1 ∧
    q.csr .sepc = h.reg s2 ∧ q.csr .sscratch = h.csr .sscratch ∧ q.mem = h.mem ∧
    q.mode = h.mode := by
  let k := (h.setCsr .sstatus (h.reg s1)).setReg 0 (h.csr .sstatus)
  refine ⟨(k.setCsr .sepc (k.reg s2)).setReg 0 (k.csr .sepc), ?_, ?_, ?_, ?_, ?_, rfl, rfl⟩
  · intro is
    rw [exec_csrrw, exec_csrrw]
  all_goals simp [k]

/-- `__trapret` loads the registers of the frame, and `sscratch` holds the end of the frame when it
returns to user mode. -/
theorem exec_trapret (ha : (h.reg sp).toNat = a) (hb : a + 288 < 2 ^ 64) :
    let f := Trapframe.at h.mem a
    ∃ t, exec 0 trapret h = t ∧ (∀ r, t.reg r = if r = 0 then 0 else f.gpr r) ∧
      t.csr .sstatus = f.status ∧ t.csr .sepc = f.epc ∧ t.mem = h.mem ∧ t.mode = h.mode ∧
      t.csr .sscratch = if f.status.getLsbD 8 then h.csr .sscratch
        else BitVec.ofNat 64 (a + 288) := by
  intro f
  have hslot : ∀ p ∈ loaded, a + 8 * p.2 < 2 ^ 64 := by
    rintro ⟨r, i⟩ hp
    obtain ⟨⟨-, rfl⟩, -⟩ := mem_loaded.mp hp
    have := r.isLt
    simp only
    omega
  have hnot : ∀ r, (r = sp ∨ r = 0) → r ∉ loaded.map Prod.fst := by
    intro r hr hm
    obtain ⟨⟨r', i⟩, hp, rfl⟩ := List.mem_map.mp hm
    obtain ⟨⟨hrs, -⟩, hr0⟩ := mem_loaded.mp hp
    rcases hr with h | h
    · exact hrs h
    · exact hr0 h
  obtain ⟨q, hq, hqsp, hqs, hqe, hqss, hqmem, hqmode⟩ : ∃ q, (∀ is,
      exec 0 (restoreCsrs ++ is) h = exec 0 is q) ∧ q.reg sp = h.reg sp ∧
      q.csr .sstatus = f.status ∧ q.csr .sepc = f.epc ∧
      q.csr .sscratch = (if f.status.getLsbD 8 then h.csr .sscratch
        else BitVec.ofNat 64 (a + 288)) ∧
      q.mem = h.mem ∧ q.mode = h.mode := by
    let h₂ := (h.setReg s1 f.status).setReg s2 f.epc
    have hbit : f.status &&& BitVec.ofInt 64 0x100 ≠ 0 ↔ f.status.getLsbD 8 = true := by
      have hm : BitVec.ofInt 64 0x100 = 1#64 <<< 8 := by decide
      rw [hm]
      exact and_mask_ne_zero (by omega)
    have hstart : ∀ is, exec 0 (restoreCsrs ++ is) h =
        exec (if f.status.getLsbD 8 then 2 else 0) ([.addi s0 sp (36 * 8), .csrrw 0 .sscratch s0,
          .csrrw 0 .sstatus s1, .csrrw 0 .sepc s2] ++ is)
          (h₂.setReg s0 (f.status &&& BitVec.ofInt 64 0x100)) := by
      intro is
      unfold restoreCsrs
      simp only [List.cons_append, List.nil_append]
      rw [exec_load (by exact ha) (by omega), exec_load (by exact ha) (by omega), exec_andi,
        exec_bnez]
      have hs1 : h₂.reg s1 = f.status := by simp [h₂, s1, s2]
      change exec (if (h₂.setReg s0 (h₂.reg s1 &&& _)).reg s0 ≠ 0 then 2 else 0) _
        (h₂.setReg s0 (h₂.reg s1 &&& _)) = _
      have hs0 : ∀ v : Word, (h₂.setReg s0 v).reg s0 = v := by
        intro v
        rw [setReg_reg, if_neg (by decide), if_pos rfl]
      rw [hs1, hs0]
      simp only [hbit]
    let k := h₂.setReg s0 (f.status &&& BitVec.ofInt 64 0x100)
    have hk : k.reg s1 = f.status ∧ k.reg s2 = f.epc ∧ k.reg sp = h.reg sp := by
      simp [k, h₂, s0, s1, s2, sp]
    by_cases hs : f.status.getLsbD 8 = true
    · simp only [hs, if_true] at hstart ⊢
      obtain ⟨q, hq, hqr, hqs, hqe, hqss, hqm, hqmo⟩ := exec_writeCsrs (h := k)
      refine ⟨q, fun is => (hstart is).trans (hq is), (hqr sp).trans hk.2.2, hqs.trans hk.1,
        hqe.trans hk.2.1, hqss, hqm, hqmo⟩
    · simp only [hs] at hstart ⊢
      have hadd : k.reg sp + BitVec.ofInt 64 (36 * 8) = BitVec.ofNat 64 (a + 288) := by
        apply BitVec.eq_of_toNat_eq
        rw [hk.2.2, BitVec.toNat_add, BitVec.toNat_ofInt, BitVec.toNat_ofNat, ha]
        omega
      let k₀ := k.setReg s0 (k.reg sp + BitVec.ofInt 64 (36 * 8))
      let k₁ := (k₀.setCsr .sscratch (k₀.reg s0)).setReg 0 (k₀.csr .sscratch)
      obtain ⟨q, hq, hqr, hqs, hqe, hqss, hqm, hqmo⟩ := exec_writeCsrs (h := k₁)
      have hk₁ : k₁.reg s1 = k.reg s1 ∧ k₁.reg s2 = k.reg s2 ∧ k₁.reg sp = k.reg sp ∧
          k₁.csr .sscratch = k.reg sp + BitVec.ofInt 64 (36 * 8) := by
        refine ⟨?_, ?_, ?_, ?_⟩
        all_goals simp only [k₁, k₀, setReg_reg, setCsr_reg, setReg_csr, setCsr_csr, if_true]
        all_goals rfl
      refine ⟨q, fun is => (hstart is).trans ?_, (hqr sp).trans (hk₁.2.2.1.trans hk.2.2),
        hqs.trans (hk₁.1.trans hk.1), hqe.trans (hk₁.2.1.trans hk.2.1), ?_, hqm, hqmo⟩
      · simp only [List.cons_append, List.nil_append]
        exact hq is
      · rw [hqss, hk₁.2.2.2, hadd]
        rfl
  have hnd : (loaded.map Prod.fst).Nodup := nodup_stored.1.sublist (List.filter_sublist.map _)
  obtain ⟨t, ht, htcsr, htmem, -, htmode, hin, hout⟩ := exec_loads (h := q) (b := sp)
    (l := loaded) (k := [.ld sp (8 * 2 : ℕ) sp]) (a := a) (by rw [hqsp]; exact ha) hslot
    (hnot sp (.inl rfl)) (hnot 0 (.inr rfl)) hnd
  have htsp : (t.reg sp).toNat = a := by
    rw [hout sp (hnot sp (.inl rfl)), hqsp]
    exact ha
  refine ⟨_, rfl, ?_⟩
  unfold trapret
  rw [hq, ht, exec_load htsp (by omega), exec_nil]
  refine ⟨?_, ?_, ?_, ?_, ?_, ?_⟩
  · intro r
    rw [setReg_reg, if_neg (by decide), htmem, hqmem]
    rcases eq_or_ne r sp with rfl | hrs
    · rw [if_pos rfl, if_neg (by decide)]
      rfl
    rw [if_neg hrs]
    rcases eq_or_ne r 0 with rfl | hr0
    · rw [if_pos rfl]
      exact t.zero
    · rw [if_neg hr0, hin r r.val (mem_loaded.mpr ⟨⟨hrs, rfl⟩, hr0⟩), hqmem]
      rfl
  · rw [setReg_csr, htcsr, hqs]
  · rw [setReg_csr, htcsr, hqe]
  · rw [setReg_mem, htmem, hqmem]
  · rw [setReg_mode, htmode, hqmode]
  · rw [setReg_csr, htcsr, hqss]

end Entry

end UCore.Trap

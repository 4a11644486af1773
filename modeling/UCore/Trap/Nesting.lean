import UCore.Trap.Entry

/-! # Nested traps

A trap pushes the interrupted context and its return pops it, to any depth.
-/

namespace UCore.Trap

open Library Library.Rv64 Hart

section Frames

variable {m m' : ℕ → UInt8} {a b : ℕ} {field : Field} {v : Word}

theorem Field.slot_lt : field.slot < 36 := by
  cases field with
  | gpr r =>
    have := r.isLt
    simp only [slot]
    omega
  | _ => decide

theorem Trapframe.at_congr (h : ∀ x, a ≤ x → x < a + 288 → m' x = m x) :
    Trapframe.at m' a = Trapframe.at m a := by
  have hd : ∀ i < 36, double m' (a + 8 * i) = double m (a + 8 * i) := by
    intro i hi
    apply double_congr
    intro x hx hlt
    exact h x (by omega) (by omega)
  ext1
  · funext r
    exact hd r.val (by omega)
  · exact hd 32 (by omega)
  · exact hd 33 (by omega)
  · exact hd 34 (by omega)
  · exact hd 35 (by omega)

theorem Trapframe.at_store :
    Trapframe.at (store m 8 (a + 8 * field.slot) v.toNat) a = (Trapframe.at m a).set field v := by
  have hd : ∀ i, double (store m 8 (a + 8 * field.slot) v.toNat) (a + 8 * i) =
      if i = field.slot then v else double m (a + 8 * i) := by
    intro i
    split
    · rename_i h
      rw [h, double_store]
    · exact double_store_of_apart (by omega)
  ext1
  · funext r
    have hr := r.isLt
    simp only [Trapframe.at, hd]
    cases field with
    | gpr r' =>
      simp only [Field.slot, set, Function.update_apply, Fin.ext_iff]
      rfl
    | _ => exact if_neg (by simp only [Field.slot]; omega)
  all_goals
    simp only [Trapframe.at, hd]
    cases field with
    | gpr r' => exact if_neg (by have := r'.isLt; simp only [Field.slot]; omega)
    | _ => rfl

/-- The frames lie above each other on the kernel stack. A frame for user mode is at its end. -/
def Frames (top : ℕ) (m : ℕ → UInt8) : List ℕ → Prop
  | [] => True
  | a :: rest => a + 288 ≤ rest.headD top ∧
    ((Trapframe.at m a).status.getLsbD 8 = false → rest = [] ∧ a + 288 = top) ∧ Frames top m rest

theorem Frames.le_top {top : ℕ} : ∀ {l : List ℕ}, Frames top m l → l.headD top ≤ top
  | [], _ => le_rfl
  | a :: rest, h => by
    have := Frames.le_top h.2.2
    have := h.1
    simp only [List.headD_cons]
    omega

theorem Frames.congr {top : ℕ} {l : List ℕ} {w : ℕ → UInt8} (h : Frames top m l)
    (hm : ∀ x, l.headD top ≤ x → x < top → w x = m x) :
    Frames top w l ∧ l.map (Trapframe.at w) = l.map (Trapframe.at m) := by
  induction l with
  | nil => exact ⟨trivial, by rw [List.map_nil, List.map_nil]⟩
  | cons a rest ih =>
    have hle := h.2.2.le_top
    have ha := h.1
    have hat : Trapframe.at w a = Trapframe.at m a := by
      apply Trapframe.at_congr
      intro x hx hlt
      exact hm x hx (by omega)
    obtain ⟨hf, hmap⟩ := ih h.2.2 fun x hx hlt => hm x (by simp only [List.headD_cons]; omega) hlt
    refine ⟨⟨ha, ?_, hf⟩, ?_⟩
    · rw [hat]
      exact h.2.1
    · rw [List.map_cons, List.map_cons, hat, hmap]

end Frames

namespace Thread

variable {low top : ℕ} {s t : Thread}

structure Inv (low top : ℕ) (s : Thread) : Prop where
  room : low + 288 ≤ top
  lt : top < 2 ^ 64
  frames : Frames top s.hart.mem s.frames
  user : s.hart.mode = .user → s.frames = [] ∧ (s.hart.csr .sscratch).toNat = top
  kernel : s.hart.mode = .supervisor → s.hart.csr .sscratch = 0

def nest (s : Thread) : Nest := ⟨context s.hart, s.frames.map (Trapframe.at s.hart.mem)⟩

theorem Start.inv (h : Start top s) (hr : low + 288 ≤ top) (hlt : top < 2 ^ 64) :
    Inv low top s := by
  refine ⟨hr, hlt, ?_, ?_, fun _ => h.sscratch⟩
  · rw [h.frames]
    refine ⟨?_, fun _ => ⟨rfl, ?_⟩, trivial⟩
    · simp only [List.headD_nil]
      omega
    · omega
  · rw [h.mode]
    intro hm
    cases hm

theorem Inv.stackPointer (k : Inv low top s) (cause tval : Word)
    (hg : s.hart.mode = .supervisor → low + 288 ≤ (s.hart.reg sp).toNat ∧
      (s.hart.reg sp).toNat ≤ s.limit top) :
    ∃ a, (stackPointer (enter s.hart cause tval)).toNat = a + 288 ∧ low ≤ a ∧
      a + 288 ≤ s.limit top ∧ (s.hart.mode = .user → s.frames = [] ∧ a + 288 = top) := by
  have hroom := k.room
  have hss : (enter s.hart cause tval).csr .sscratch = s.hart.csr .sscratch := by
    simp [enter]
  have hreg : (enter s.hart cause tval).reg sp = s.hart.reg sp := rfl
  unfold Trap.stackPointer
  rw [hss, hreg]
  cases hm : s.hart.mode with
  | user =>
    obtain ⟨hf, ht⟩ := k.user hm
    have hne : s.hart.csr .sscratch ≠ 0 := by
      intro h0
      rw [h0] at ht
      have : (0 : Word).toNat = 0 := rfl
      omega
    rw [if_pos hne, ht]
    refine ⟨top - 288, by omega, by omega, ?_, fun _ => ⟨hf, by omega⟩⟩
    rw [limit, hf, List.headD_nil]
    omega
  | supervisor =>
    rw [if_neg (by simp [k.kernel hm])]
    obtain ⟨h₁, h₂⟩ := hg hm
    refine ⟨(s.hart.reg sp).toNat - 288, by omega, by omega, by omega, fun h => ?_⟩
    cases h

/-- A trap pushes the interrupted context. -/
theorem Inv.trap (k : Inv low top s) {cause tval : Word}
    (h : Step low top s (.trap cause tval) t) :
    Inv low top t ∧ t.nest.pending = (context s.hart).trapframe cause tval :: s.nest.pending ∧
      Trapframe.at t.hart.mem (t.hart.reg a0).toNat = (context s.hart).trapframe cause tval := by
  obtain ⟨hg, hh, hf⟩ := h
  obtain ⟨a, ha, -, hlim, huser⟩ := k.stackPointer cause tval hg
  obtain ⟨t', ht', hsp, ha0, hss, hst, hmode, hat, hmem⟩ := exec_alltraps ha
  have hframe : Trapframe.at t'.mem a = (context s.hart).trapframe cause tval := by
    rw [hat]
    ext1
    · rfl
    all_goals simp [enter, Context.trapframe, context]
  have hle := k.frames.le_top
  have hkeep := k.frames.congr (w := t'.mem) fun x hx hlt => hmem x (.inr (by
    have := hlim
    unfold limit at this
    omega))
  obtain rfl : t.hart = t' := by rw [hh, ht']
  rw [hsp] at hf
  refine ⟨⟨k.room, k.lt, ?_, ?_, fun _ => hss⟩, ?_, ?_⟩
  · rw [hf]
    refine ⟨hlim, fun hbit => ?_, hkeep.1⟩
    rw [hframe] at hbit
    have hm : s.hart.mode = .user := by
      have hp := previous_trapStatus s.hart.mode (s.hart.csr .sstatus)
      rw [previous, if_neg (by simpa [Context.trapframe, context] using hbit)] at hp
      exact hp.symm
    exact huser hm
  · intro hm
    rw [hmode] at hm
    cases hm
  · simp only [nest]
    rw [hf, List.map_cons, hframe, hkeep.2]
  · rw [ha0, hsp]
    exact hframe

theorem Inv.work (k : Inv low top s) (h : Step low top s .work t) :
    Inv low top t ∧ t.nest.pending = s.nest.pending := by
  obtain ⟨hf, hm, hss, hmem⟩ := h
  have hkeep := k.frames.congr (w := t.hart.mem) hmem
  refine ⟨⟨k.room, k.lt, ?_, ?_, ?_⟩, ?_⟩
  · rw [hf]
    exact hkeep.1
  · rw [hm, hf, hss]
    exact k.user
  · rw [hm, hss]
    exact k.kernel
  · simp only [nest]
    rw [hf, hkeep.2]

theorem Inv.edit (k : Inv low top s) {field : Field} {v : Word}
    (h : Step low top s (.edit field v) t) :
    Inv low top t ∧ ∃ f rest, s.nest.pending = f :: rest ∧
      t.nest.pending = f.set field v :: rest := by
  obtain ⟨a, rest, hs, hv, hh, hf⟩ := h
  have hslot := field.slot_lt
  have hfr := k.frames
  rw [hs] at hfr
  have hab := hfr.1
  have hkeep := hfr.2.2.congr (w := t.hart.mem) fun x hx _ => by
    rw [hh]
    exact store_of_apart (.inr (by omega))
  have hat : Trapframe.at t.hart.mem a = (Trapframe.at s.hart.mem a).set field v := by
    rw [hh]
    exact Trapframe.at_store
  have hmc : t.hart.mode = s.hart.mode ∧ t.hart.csr = s.hart.csr := by
    rw [hh]
    exact ⟨rfl, rfl⟩
  refine ⟨⟨k.room, k.lt, ?_, ?_, ?_⟩, Trapframe.at s.hart.mem a, rest.map (Trapframe.at s.hart.mem),
    ?_, ?_⟩
  · rw [hf, hs]
    refine ⟨hab, fun hbit => ?_, hkeep.1⟩
    rw [hat] at hbit
    cases field with
    | status => exact hv rfl hbit
    | _ => exact hfr.2.1 hbit
  · rw [hmc.1, hmc.2, hf]
    exact k.user
  · rw [hmc.1, hmc.2]
    exact k.kernel
  · simp only [nest]
    rw [hs, List.map_cons]
  · simp only [nest]
    rw [hf, hs, List.map_cons, hat, hkeep.2]

/-- A return pops the context that its frame describes. -/
theorem Inv.ret (k : Inv low top s) (h : Step low top s .ret t) :
    Inv low top t ∧ ∃ f rest, s.nest.pending = f :: rest ∧ t.nest = ⟨f.context, rest⟩ := by
  obtain ⟨hm, a, rest, hs, hsp, hh, hf⟩ := h
  have hfr := k.frames
  rw [hs] at hfr
  have hle := hfr.2.2.le_top
  have hlt := k.lt
  have hab := hfr.1
  obtain ⟨u, hu, hreg, hst, hepc, hmem, -, hss⟩ := exec_trapret hsp (by omega)
  have hmode : t.hart.mode = previous (Trapframe.at s.hart.mem a).status := by
    rw [hh, hu]
    simp only [sret, hst]
  have hmem' : t.hart.mem = s.hart.mem := by
    rw [hh, hu]
    exact hmem
  have hss' : t.hart.csr .sscratch = u.csr .sscratch := by
    rw [hh, hu]
    simp [sret]
  refine ⟨⟨k.room, k.lt, ?_, ?_, ?_⟩, Trapframe.at s.hart.mem a, rest.map (Trapframe.at s.hart.mem),
    ?_, ?_⟩
  · rw [hf, hmem']
    exact hfr.2.2
  · intro hu
    rw [hmode, previous] at hu
    split at hu
    · cases hu
    rename_i hbit
    obtain ⟨hr, htop⟩ := hfr.2.1 (by simpa using hbit)
    refine ⟨hf.trans hr, ?_⟩
    rw [hss', hss, if_neg hbit, BitVec.toNat_ofNat, htop]
    exact Nat.mod_eq_of_lt hlt
  · intro hs'
    rw [hmode, previous] at hs'
    split at hs'
    · rename_i hbit
      rw [hss', hss, if_pos hbit]
      exact k.kernel hm
    · cases hs'
  · simp only [nest]
    rw [hs, List.map_cons]
  · simp only [nest]
    rw [hf, hmem']
    congr 1
    ext1
    · funext r
      rw [hh, hu]
      exact hreg r
    · rw [hh, hu]
      exact hepc
    · exact hmode
    · rw [hh, hu]
      simp [context, sret, hst, Trapframe.context]

theorem Inv.step (k : Inv low top s) {op : Op} (h : Step low top s op t) :
    Inv low top t ∧ s.nest.Step op t.nest := by
  cases op with
  | trap cause tval =>
    obtain ⟨kt, hp, -⟩ := k.trap h
    exact ⟨kt, hp⟩
  | work => exact k.work h
  | edit field v => exact k.edit h
  | ret => exact k.ret h

theorem Inv.runs (k : Inv low top s) {l : List Op} (h : Runs (Step low top) s l t) :
    Inv low top t ∧ Runs Nest.Step s.nest l t.nest := by
  obtain ⟨n, hn, kt, rfl⟩ := h.simulate (g := Nest.Step)
    (R := fun s n => Inv low top s ∧ n = s.nest) (by
      rintro s op t _ ⟨k, rfl⟩ hst
      obtain ⟨kt, hn⟩ := k.step hst
      exact ⟨_, hn, kt, rfl⟩) ⟨k, rfl⟩
  exact ⟨kt, hn⟩

end Thread

theorem Nest.balanced {n n' : Nest} {l : List Op} {es : List (Field × Word)}
    (hb : Balanced l es) (h : Runs Nest.Step n l n') {f : Trapframe} {rest : List Trapframe}
    (hp : n.pending = f :: rest) : n'.pending = f.edit es :: rest := by
  induction hb generalizing n n' f rest with
  | nil =>
    cases h
    exact hp
  | work _ ih =>
    cases h with
    | cons hs h => exact ih h (hs.trans hp)
  | edit _ ih =>
    cases h with
    | cons hs h =>
      obtain ⟨g, r, hg, ht⟩ := hs
      obtain ⟨rfl, rfl⟩ := List.cons.inj (hg.symm.trans hp)
      exact ih h ht
  | nested _ _ ih ih' =>
    cases h with
    | cons hs h =>
      obtain ⟨u, hu, h⟩ := h.split
      have hpu := ih hu hs
      cases h with
      | cons hr h =>
        obtain ⟨g, r, hg, rfl⟩ := hr
        obtain ⟨-, rfl⟩ := List.cons.inj (hg.symm.trans hpu)
        exact ih' h hp

theorem Thread.Inv.resumes {low top : ℕ} {s t : Thread} (k : s.Inv low top) {l : List Op}
    {es : List (Field × Word)} {cause tval : Word} (hb : Balanced l es)
    (h : Runs (Thread.Step low top) s (.trap cause tval :: l ++ [.ret]) t) :
    context t.hart = (((context s.hart).trapframe cause tval).edit es).context ∧
      t.frames.map (Trapframe.at t.hart.mem) = s.frames.map (Trapframe.at s.hart.mem) := by
  obtain ⟨-, hn⟩ := k.runs h
  cases hn with
  | cons htrap hn =>
    obtain ⟨u, hu, hret⟩ := hn.split
    have hpu := Nest.balanced hb hu htrap
    cases hret with
    | cons hret hnil =>
      obtain ⟨f, rest, hf, hn'⟩ := hret
      cases hnil
      obtain ⟨rfl, rfl⟩ := List.cons.inj (hf.symm.trans hpu)
      exact ⟨congrArg Nest.current hn', congrArg Nest.pending hn'⟩

/-- A trap and its return. The handler may be interrupted by further traps, to any depth: the thread
goes on where it was, with the changes that this handler made to its own frame and with no
others. -/
theorem trap_resumes {low top : ℕ} (hr : low + 288 ≤ top) (hlt : top < 2 ^ 64)
    {s₀ s t : Thread} {l₀ l : List Op} {es : List (Field × Word)} {cause tval : Word}
    (h₀ : s₀.Start top) (hs : Runs (Thread.Step low top) s₀ l₀ s) (hb : Balanced l es)
    (h : Runs (Thread.Step low top) s (.trap cause tval :: l ++ [.ret]) t) :
    context t.hart = (((context s.hart).trapframe cause tval).edit es).context ∧
      t.frames.length = s.frames.length ∧
      t.frames.map (Trapframe.at t.hart.mem) = s.frames.map (Trapframe.at s.hart.mem) ∧
      (es = [] → t.hart.reg = s.hart.reg ∧ t.hart.pc = s.hart.pc ∧ t.hart.mode = s.hart.mode ∧
        t.hart.csr .sscratch = s.hart.csr .sscratch ∧
        t.hart.csr .sstatus = (s.hart.csr .sstatus ||| sstatusSpie) &&& ~~~sstatusSpp) := by
  have k := ((h₀.inv hr hlt).runs hs).1
  have kt := (k.runs h).1
  obtain ⟨hcur, hpend⟩ := k.resumes hb h
  refine ⟨hcur, ?_, hpend, ?_⟩
  · have := congrArg List.length hpend
    simpa using this
  · rintro rfl
    have hc : context t.hart = { context s.hart with
        status := ((context s.hart).status ||| sstatusSpie) &&& ~~~sstatusSpp } :=
      hcur.trans (Context.context_trapframe s.hart.zero cause tval)
    have hmode : t.hart.mode = s.hart.mode := congrArg Context.mode hc
    refine ⟨congrArg Context.reg hc, congrArg Context.pc hc, hmode, ?_, congrArg Context.status hc⟩
    cases hm : s.hart.mode with
    | user =>
      apply BitVec.eq_of_toNat_eq
      rw [(k.user hm).2, (kt.user (hmode.trans hm)).2]
    | supervisor => rw [k.kernel hm, kt.kernel (hmode.trans hm)]

/-- A trap from the kernel that interrupts the first instructions of a new thread. -/
theorem trap_resumes_kernel :
    ∃ s t : Thread, s.Start 4096 ∧ Runs (Thread.Step 0 4096) s [.trap 5 0, .ret] t ∧
      t.hart.reg = s.hart.reg ∧ t.hart.mode = .supervisor := by
  let h : Hart :=
    { reg := Function.update (fun _ => 0) sp 3808
      csr := fun _ => 0
      mem := fun _ => 0
      pc := 0
      mode := .supervisor
      zero := rfl }
  let s : Thread := ⟨h, [3808]⟩
  have hs : s.Start 4096 := ⟨rfl, rfl, rfl⟩
  let u : Thread :=
    ⟨exec 0 alltraps (enter h 5 0), [((exec 0 alltraps (enter h 5 0)).reg sp).toNat, 3808]⟩
  let t : Thread := ⟨sret (exec 0 trapret u.hart), [3808]⟩
  have hrun : Runs (Thread.Step 0 4096) s (.trap 5 0 :: [] ++ [.ret]) t := by
    refine .cons (t := u) ⟨fun _ => ⟨?_, ?_⟩, rfl,
      rfl⟩ (.cons ⟨?_, _, _, rfl, rfl, rfl, rfl⟩ (.nil t))
    · decide
    · decide
    · exact exec_mode
  obtain ⟨-, -, -, hz⟩ := trap_resumes (by omega) (by omega) hs (.nil s) .nil hrun
  obtain ⟨hreg, -, hmode, -⟩ := hz rfl
  exact ⟨s, t, hs, hrun, hreg, hmode⟩

end UCore.Trap

import UCore.Vmm.Map

/-! # Checking user memory

`user_mem_check` goes from area to area and looks at one address in each of them. It accepts exactly
the ranges all of whose bytes may be accessed, whatever `find_vma` has cached before.
-/

namespace UCore.Vmm

open Library PageTable UserMem

variable {mm m m' : Mm} {vma : Vma} {addr len start end' a y : ℕ} {write : Bool}

/-- The areas after some searches. -/
def lookups (mm : Mm) (l : List ℕ) : Mm := l.foldl (fun mm addr => (mm.findVma addr).2) mm

theorem Areas.lookups (h : Areas mm) (l : List ℕ) :
    Areas (lookups mm l) ∧ (lookups mm l).mmapList = mm.mmapList := by
  induction l generalizing mm with
  | nil => exact ⟨h, rfl⟩
  | cons a l ih =>
    obtain ⟨hf, hl⟩ := h.find a
    obtain ⟨h₁, h₂⟩ := ih hf
    exact ⟨h₁, h₂.trans hl⟩

/-- The byte belongs to an area with the flag of the access, and a write does not meet the first
page of a stack. -/
structure Passes (mm : Mm) (write : Bool) (a : ℕ) : Prop where
  flag : ∃ vma ∈ mm.mmapList, vma.contains a = true ∧
    has vma.vmFlags (if write then vmWrite else vmRead) = true
  guard : write = true → ∀ vma ∈ mm.mmapList, vma.contains a = true →
    has vma.vmFlags vmStack = true → vma.vmStart + pgsize ≤ a

/-- A range of user addresses whose bytes all pass. -/
structure Accessible (mm : Mm) (addr len : ℕ) (write : Bool) : Prop where
  low : userbase ≤ addr
  pos : addr < addr + len
  high : addr + len ≤ usertop
  passes : ∀ a, addr ≤ a → a < addr + len → Passes mm write a

theorem Passes.congr (h : Passes m write a) (hl : m.mmapList = mm.mmapList) :
    Passes mm write a := by
  obtain ⟨hf, hg⟩ := h
  rw [hl] at hf hg
  exact ⟨hf, hg⟩

theorem passes_iff (h : Areas mm) (hv : vma ∈ mm.mmapList) (ha : vma.contains a = true) :
    Passes mm write a ↔ has vma.vmFlags (if write then vmWrite else vmRead) = true ∧
      ¬ (write = true ∧ has vma.vmFlags vmStack = true ∧ a < vma.vmStart + pgsize) := by
  have huniq : ∀ v ∈ mm.mmapList, v.contains a = true → v = vma := fun v hm hc =>
    h.apart.unique hm hv (Vma.contains_iff.mp hc) (Vma.contains_iff.mp ha)
  constructor
  · rintro ⟨⟨v, hm, hc, hf⟩, hg⟩
    obtain rfl := huniq v hm hc
    refine ⟨hf, ?_⟩
    rintro ⟨hw, hs, hlt⟩
    have := hg hw v hm hc hs
    omega
  · rintro ⟨hf, hg⟩
    refine ⟨⟨vma, hv, ha, hf⟩, ?_⟩
    intro hw v hm hc hs
    obtain rfl := huniq v hm hc
    by_contra hlt
    exact hg ⟨hw, hs, by omega⟩

/-- One round of the loop. It goes on past the end of an area whose bytes pass. -/
theorem checkStep_spec (end' start : ℕ) (write : Bool) (h : Areas m) :
    match checkStep end' write (start, m) with
    | .inl (y, m') => start < end' ∧ start < y ∧ Areas m' ∧ m'.mmapList = m.mmapList ∧
        ∀ a, start ≤ a → a < y → Passes m write a
    | .inr (ok, m') => Areas m' ∧ m'.mmapList = m.mmapList ∧
        (ok = true ↔ ∀ a, start ≤ a → a < end' → Passes m write a) := by
  obtain ⟨hf, hl⟩ := h.find start
  unfold checkStep
  dsimp only
  by_cases hlt : start < end'
  · rw [if_pos hlt]
    have hstop : ¬ Passes m write start →
        (false = true ↔ ∀ a, start ≤ a → a < end' → Passes m write a) := by
      intro hn
      simp only [Bool.false_eq_true, false_iff]
      exact fun hall => hn (hall start le_rfl hlt)
    have hfind : ∀ vma, (m.findVma start).1 = some vma ↔ _ := fun _ => h.find_iff
    have hnone : (m.findVma start).1 = none ↔ _ := h.find_none
    generalize m.findVma start = r at *
    obtain ⟨o, m'⟩ := r
    dsimp only at hf hl hnone hfind
    cases o with
    | none =>
      refine ⟨hf, hl, hstop ?_⟩
      rintro ⟨⟨vma, hv, hc, -⟩, -⟩
      rw [hnone.mp rfl vma hv] at hc
      cases hc
    | some vma =>
      obtain ⟨hv, hc⟩ := (hfind vma).mp rfl
      have hcon := Vma.contains_iff.mp hc
      dsimp only
      rw [if_neg (by omega)]
      by_cases hflag : has vma.vmFlags (if write then vmWrite else vmRead) = true
      · by_cases hguard : write = true ∧ has vma.vmFlags vmStack = true ∧
          start < vma.vmStart + pgsize
        · have hp : ¬ Passes m write start := fun hp => ((passes_iff h hv hc).mp hp).2 hguard
          have hneg : (!has vma.vmFlags (if write then vmWrite else vmRead)) = false := by
            rw [hflag]
            rfl
          rw [if_neg (by rw [hneg]; decide), if_pos (by simpa [and_assoc] using hguard)]
          exact ⟨hf, hl, hstop hp⟩
        · rw [if_neg (by simp [hflag]), if_neg (by simpa [and_assoc] using hguard)]
          refine ⟨hlt, hcon.2, hf, hl, ?_⟩
          intro a h₁ h₂
          refine (passes_iff h hv (Vma.contains_iff.mpr ⟨by omega, h₂⟩)).mpr ⟨hflag, ?_⟩
          rintro ⟨hw, hs, hlt⟩
          exact hguard ⟨hw, hs, by omega⟩
      · rw [if_pos (by simp [hflag])]
        exact ⟨hf, hl, hstop fun hp => hflag ((passes_iff h hv hc).mp hp).1⟩
  · rw [if_neg hlt]
    refine ⟨h, rfl, ?_⟩
    simp only [true_iff]
    omega

/-- The loop ends, and it accepts the ranges whose bytes pass. -/
theorem checkAreas_iff (h : Areas m) (hlen : len < 2 ^ 64) (addr : ℕ) (write : Bool) :
    ∃ ok m', checkAreas m addr len write = some (ok, m') ∧ Areas m' ∧
      m'.mmapList = m.mmapList ∧ (ok = true ↔ Accessible m addr len write) := by
  unfold checkAreas
  by_cases hu : userAccess addr ((addr + len) % 2 ^ 64)
  · have hend : (addr + len) % 2 ^ 64 = addr + len := by
      obtain ⟨-, h₁, h₂⟩ := hu
      unfold usertop at h₂
      omega
    rw [if_pos hu, hend]
    rw [hend] at hu
    have hstep := fun (x : ℕ × Mm) (hx : Areas x.2) => checkStep_spec (addr + len) x.1 write hx
    obtain ⟨⟨ok, m'⟩, hi, h₁, h₂, h₃⟩ := iterate_spec
      (fun x : ℕ × Mm => Areas x.2 ∧ x.2.mmapList = m.mmapList ∧ addr ≤ x.1 ∧
        ∀ a, addr ≤ a → a < x.1 → Passes m write a)
      (fun x => addr + len - x.1)
      (fun r => Areas r.2 ∧ r.2.mmapList = m.mmapList ∧
        (r.1 = true ↔ ∀ a, addr ≤ a → a < addr + len → Passes m write a))
      (f := checkStep (addr + len) write) (n := len + 1) (x := (addr, m))
      (by
        rintro ⟨start, mm⟩ ⟨y, mm'⟩ ⟨ha, hl, hle, hp⟩ hgo
        have hs := hstep (start, mm) ha
        rw [hgo] at hs
        obtain ⟨h₁, h₂, h₃, h₄, h₅⟩ := hs
        dsimp only at *
        refine ⟨⟨h₃, h₄.trans hl, by omega, ?_⟩, by omega⟩
        intro a hal hay
        by_cases has : a < start
        · exact hp a hal has
        · exact (h₅ a (by omega) hay).congr hl)
      (by
        rintro ⟨start, mm⟩ ⟨ok, mm'⟩ ⟨ha, hl, hle, hp⟩ hstop
        have hs := hstep (start, mm) ha
        rw [hstop] at hs
        obtain ⟨h₁, h₂, h₃⟩ := hs
        refine ⟨h₁, h₂.trans hl, h₃.trans ⟨fun hall a hal hlt => ?_, fun hall a hal hlt => ?_⟩⟩
        · by_cases has : a < start
          · exact hp a hal has
          · exact (hall a (by omega) hlt).congr hl
        · exact (hall a (hle.trans hal) hlt).congr hl.symm)
      ⟨h, rfl, le_rfl, fun a h₁ h₂ => absurd h₂ (by dsimp only; omega)⟩ (by dsimp only; omega)
    exact ⟨ok, m', hi, h₁, h₂,
      h₃.trans ⟨fun hp => ⟨hu.1, hu.2.1, hu.2.2, hp⟩, fun hp => hp.passes⟩⟩
  · rw [if_neg hu]
    refine ⟨false, m, rfl, h, rfl, ?_⟩
    simp only [Bool.false_eq_true, false_iff]
    rintro ⟨h₁, h₂, h₃, -⟩
    apply hu
    unfold userAccess
    have hend : (addr + len) % 2 ^ 64 = addr + len := by
      unfold usertop at h₃
      omega
    rw [hend]
    exact ⟨h₁, h₂, h₃⟩

/-- `find_vma` and `user_mem_check` give the same answers after any searches. -/
theorem user_mem_check_exact (mm : Mm) (h : Areas mm) (history : List ℕ) (addr len : UInt64)
    (write : Bool) :
    (∀ a : ℕ, ((lookups mm history).findVma a).1 = mm.mmapList.find? (fun vma => vma.contains a) ∧
      ∀ vma, ((lookups mm history).findVma a).1 = some vma ↔
        vma ∈ mm.mmapList ∧ vma.contains a = true) ∧
    ∃ ok mm', checkAreas (lookups mm history) addr.toNat len.toNat write = some (ok, mm') ∧
      (ok = true ↔ Accessible mm addr.toNat len.toNat write) := by
  obtain ⟨ha, hl⟩ := h.lookups history
  have hiff : ∀ a vma, ((lookups mm history).findVma a).1 = some vma ↔
      vma ∈ mm.mmapList ∧ vma.contains a = true := by
    intro a vma
    rw [ha.find_iff, hl]
  constructor
  · refine fun a => ⟨Option.ext fun vma => ?_, hiff a⟩
    exact (hiff a vma).trans (h.apart.find?_eq_some fun _ => Vma.contains_iff).symm
  · obtain ⟨ok, mm', he, -, -, hok⟩ := checkAreas_iff ha len.toNat_lt addr.toNat write
    refine ⟨ok, mm', he, hok.trans ⟨fun hp => ?_, fun hp => ?_⟩⟩
    · exact ⟨hp.low, hp.pos, hp.high, fun a h₁ h₂ => (hp.passes a h₁ h₂).congr hl⟩
    · exact ⟨hp.low, hp.pos, hp.high, fun a h₁ h₂ => (hp.passes a h₁ h₂).congr hl.symm⟩

/-- Two areas that touch, the upper one a stack. -/
def twoAreas : Mm :=
  ⟨[⟨0x200000, 0x201000, vmRead ||| vmWrite⟩, ⟨0x201000, 0x204000, vmRead ||| vmWrite ||| vmStack⟩],
    none, 1⟩

theorem twoAreas_areas : Areas twoAreas :=
  ⟨⟨by decide, by decide⟩, by decide⟩

theorem user_mem_check_exact_twoAreas : Areas twoAreas ∧
    ∃ ok mm', checkAreas (lookups twoAreas [0x203000]) 0x200ff0 0x20 false = some (ok, mm') ∧
      (ok = true ↔ Accessible twoAreas 0x200ff0 0x20 false) :=
  ⟨twoAreas_areas, (user_mem_check_exact twoAreas twoAreas_areas [0x203000] 0x200ff0 0x20 false).2⟩

/-- A read crosses the border of the areas, a write must not touch the first page of the stack. -/
example : ((checkAreas twoAreas 0x200ff0 0x20 false).map Prod.fst,
    (checkAreas twoAreas 0x200ff0 0x20 true).map Prod.fst) = (some true, some false) := by
  decide +kernel

end UCore.Vmm

import UCore.Fork.Isolation
import UCore.PageTable.Pages
import UCore.UserMem.Model

/-! # Accesses under the lock

A process that holds `mm_sem` and touches a checked address goes on when the page table permits the
access, and sleeps on its own semaphore otherwise.
-/

namespace UCore.UserMem

open Library PageTable Cow Fork

section Check

variable {mm mm' : Mm} {addr len : ℕ} {write : Bool}

/-- The address lies in a memory area. -/
def InArea (mm : Mm) (addr : ℕ) : Prop := ∃ vma ∈ mm.mmapList, vma.contains addr = true

theorem InArea.same (h : InArea mm addr) (hs : mm.Same mm') : InArea mm' addr := by
  obtain ⟨vma, hv, hc⟩ := h
  exact ⟨vma, hs.list ▸ hv, hc⟩

theorem InArea.findVma (h : InArea mm addr) : ∃ vma mm', mm.findVma addr = (some vma, mm') := by
  obtain ⟨vma, hv, hc⟩ := h
  unfold Mm.findVma
  split
  · exact ⟨_, _, rfl⟩
  · split
    · exact ⟨_, _, rfl⟩
    · rename_i hn
      exact absurd hc (List.find?_eq_none.mp hn vma hv)

theorem InArea.lt (hok : mm.Ok) (h : InArea mm addr) : addr < usertop := by
  obtain ⟨vma, hv, hc⟩ := h
  rw [Vma.contains_iff] at hc
  exact lt_of_lt_of_le hc.2 (hok.vmas vma hv).user.2.2

theorem not_isKernel (h : addr < usertop) : ¬ isKernel addr := by
  rintro ⟨hk, -⟩
  have : usertop ≤ kernbase := by decide
  omega

theorem Same.trans {mm'' : Mm} (h : mm.Same mm') (h' : mm'.Same mm'') : mm.Same mm'' :=
  ⟨h'.list.trans h.list, h'.pgdir.trans h.pgdir, h'.ok⟩

/-- What `user_mem_check` answers, and that it returns. -/
structure Checks (mm : Mm) (addr len : ℕ) (r : Bool × Mm) : Prop where
  same : mm.Same r.2
  inArea : r.1 = true → ∀ x, addr ≤ x → x < addr + len → InArea mm x

theorem checkStep_go {end' start y : ℕ} {m m' : Mm} (hs : mm.Same m)
    (hgo : checkStep end' write (start, m) = .inl (y, m')) :
    start < end' ∧ start < y ∧ mm.Same m' ∧ ∀ x, start ≤ x → x < y → InArea mm x := by
  obtain ⟨hsame, hfound⟩ := findVma_spec start hs.ok
  unfold checkStep at hgo
  generalize (if write = true then vmWrite else vmRead) = flag at hgo
  dsimp only at hgo
  split at hgo
  · rename_i hlt
    rcases hf : m.findVma start with ⟨o, m₁⟩
    rw [hf] at hgo hsame hfound
    cases o with
    | none => simp at hgo
    | some vma =>
      dsimp only at hgo
      obtain ⟨hmem, hc⟩ := hfound vma rfl
      rw [Vma.contains_iff] at hc
      split at hgo
      · cases hgo
      split at hgo
      · cases hgo
      split at hgo
      · cases hgo
      obtain ⟨rfl, rfl⟩ : vma.vmEnd = y ∧ m₁ = m' := by simpa using hgo
      refine ⟨hlt, hc.2, Same.trans hs hsame, fun x h₁ h₂ => ⟨vma, hs.list ▸ hmem, ?_⟩⟩
      rw [Vma.contains_iff]
      exact ⟨hc.1.trans h₁, h₂⟩
  · cases hgo

theorem checkStep_stop {end' start : ℕ} {m : Mm} {r : Bool × Mm} (hs : mm.Same m)
    (hstop : checkStep end' write (start, m) = .inr r) :
    mm.Same r.2 ∧ (r.1 = true → end' ≤ start) := by
  have hsame := (findVma_spec start hs.ok).1
  unfold checkStep at hstop
  generalize (if write = true then vmWrite else vmRead) = flag at hstop
  dsimp only at hstop
  split at hstop
  · rcases hf : m.findVma start with ⟨o, m₁⟩
    rw [hf] at hstop hsame
    have hfalse : ∀ b : Bool × Mm, (false, m₁) = b → mm.Same b.2 ∧ (b.1 = true → end' ≤ start) := by
      rintro b rfl
      exact ⟨Same.trans hs hsame, by simp⟩
    cases o with
    | none => exact hfalse r (by simpa using hstop)
    | some vma =>
      dsimp only at hstop
      split at hstop
      · exact hfalse r (by simpa using hstop)
      split at hstop
      · exact hfalse r (by simpa using hstop)
      split at hstop
      · exact hfalse r (by simpa using hstop)
      cases hstop
  · rename_i hge
    obtain rfl : (true, m) = r := by simpa using hstop
    exact ⟨hs, fun _ => Nat.le_of_not_lt hge⟩

theorem checkAreas_spec (hok : mm.Ok) (addr : ℕ) (write : Bool) (hlen : len < 2 ^ 64) :
    ∃ r, checkAreas mm addr len write = some r ∧ Checks mm addr len r := by
  have hrefl : mm.Same mm := ⟨rfl, rfl, hok⟩
  unfold checkAreas
  split
  · rename_i hu
    have htop : usertop < 2 ^ 64 := by decide
    have hend : (addr + len) % 2 ^ 64 = addr + len := by
      obtain ⟨-, hlt, hle⟩ := hu
      omega
    rw [hend]
    have hgo : ∀ x y, (mm.Same x.2 ∧ addr ≤ x.1 ∧ ∀ z, addr ≤ z → z < x.1 → InArea mm z) →
        checkStep (addr + len) write x = .inl y →
        (mm.Same y.2 ∧ addr ≤ y.1 ∧ ∀ z, addr ≤ z → z < y.1 → InArea mm z) ∧
          addr + len - y.1 < addr + len - x.1 := by
      rintro ⟨start, m⟩ ⟨y, m'⟩ ⟨hs, hle, hin⟩ hx
      obtain ⟨h₁, h₂, h₃, h₄⟩ := checkStep_go hs hx
      dsimp only at hle hin ⊢
      refine ⟨⟨h₃, by omega, fun z hz hzy => ?_⟩, by omega⟩
      rcases Nat.lt_or_ge z start with hzs | hzs
      · exact hin z hz hzs
      · exact h₄ z hzs hzy
    have hstop : ∀ x r, (mm.Same x.2 ∧ addr ≤ x.1 ∧ ∀ z, addr ≤ z → z < x.1 → InArea mm z) →
        checkStep (addr + len) write x = .inr r → Checks mm addr len r := by
      rintro ⟨start, m⟩ r ⟨hs, hle, hin⟩ hx
      obtain ⟨h₁, h₂⟩ := checkStep_stop hs hx
      exact ⟨h₁, fun hr z hz hzl => hin z hz (lt_of_lt_of_le hzl (h₂ hr))⟩
    exact iterate_spec _ (fun x => addr + len - x.1) _ hgo hstop
      ⟨hrefl, le_rfl, fun z h₁ h₂ => absurd h₂ (Nat.not_lt.mpr h₁)⟩ (by dsimp only; omega)
  · exact ⟨_, rfl, hrefl, by simp⟩

end Check

section Locked

variable {σ : Type} {s t u : Ctx σ} {mm mm' : Mm} {addr b n : ℕ} {write : Bool} {l : List ℕ}

/-- The process has an address space with proper areas and page tables. -/
def HasSpace (s : Ctx σ) (mm : Mm) : Prop :=
  s.mm = some mm ∧ mm.Ok ∧ ∃ R D, Inv s.mem R D ∧ mm.pgdir ∈ D

/-- The areas and what the page table permits are kept. -/
structure Keeps (s t : Ctx σ) : Prop where
  space : ∀ mm, HasSpace s mm → ∃ mm', HasSpace t mm' ∧ mm.Same mm'
  permits : ∀ addr write, t.permits addr write = s.permits addr write

theorem Keeps.refl (s : Ctx σ) : Keeps s s :=
  ⟨fun mm h => ⟨mm, h, rfl, rfl, h.2.1⟩, fun _ _ => rfl⟩

/-- The accesses of the kernel to the memory of a process. -/
def grants (σ : Type) : Grants (Ctx σ) (ℕ × Bool) where
  granted s x := s.permits x.1 x.2 = true
  keeps := Keeps
  trans s t u h h' := by
    refine ⟨fun mm hs => ?_, fun addr write => (h'.permits addr write).trans (h.permits addr write)⟩
    obtain ⟨mm', ht, hst⟩ := h.space mm hs
    obtain ⟨mm'', hu, htu⟩ := h'.space mm' ht
    exact ⟨mm'', hu, Same.trans hst htu⟩
  granted_iff s t x h := by rw [h.permits]

theorem HasSpace.permits (h : HasSpace s mm) :
    s.permits addr write = permitted s.mem mm.pgdir addr write := by
  simp [Ctx.permits, h.1]

theorem HasSpace.setMm (h : HasSpace s mm) (hs : mm.Same mm') :
    HasSpace { s with mm := some mm' } mm' ∧ Keeps s { s with mm := some mm' } := by
  obtain ⟨hmm, hok, R, D, hinv, hd⟩ := h
  have hspace : HasSpace { s with mm := some mm' } mm' := ⟨rfl, hs.ok, R, D, hinv, hs.pgdir ▸ hd⟩
  refine ⟨hspace, fun m hm => ?_, fun addr write => ?_⟩
  · obtain rfl : mm = m := by simpa [hmm] using hm.1
    exact ⟨mm', hspace, hs⟩
  · simp [Ctx.permits, hmm, hs.pgdir]

theorem keeps_setMmSem (k : ℕ) : Keeps s { s with mmSem := k } :=
  ⟨fun mm h => ⟨mm, h, rfl, rfl, h.2.1⟩, fun _ _ => rfl⟩

theorem keeps_setFs (fs : σ) : Keeps s { s with fs := fs } :=
  ⟨fun mm h => ⟨mm, h, rfl, rfl, h.2.1⟩, fun _ _ => rfl⟩

/-- A permitted store changes no page table. -/
theorem HasSpace.setByte (h : HasSpace s mm) (hu : ¬ isKernel addr)
    (hp : s.permits addr true = true) (b : ℕ) : HasSpace (s.setByte addr b) mm ∧
      Keeps s (s.setByte addr b) ∧ (s.setByte addr b).mmSem = s.mmSem ∧
      (s.setByte addr b).fs = s.fs := by
  obtain ⟨hmm, hok, R, D, hinv, hd⟩ := id h
  rw [h.permits, permitted, Bool.and_eq_true] at hp
  obtain ⟨hv, hpte⟩ := isVpn_of_userPte hp.1
  obtain ⟨page, hpage⟩ : ∃ page, page = pte2page (userPte s.mem mm.pgdir addr) := ⟨_, rfl⟩
  obtain ⟨m, hm⟩ : ∃ m, m = s.mem.setPage page
    (storeByte (s.mem.word page) (addr % pgsize) b) := ⟨_, rfl⟩
  have heq : s.setByte addr b = { s with mem := m } := by
    simp [Ctx.setByte, hu, hmm, hm, hpage]
  have hR : R page = .user := by
    refine hinv.mapped (mapped_of hd hv ?_)
    rw [hpage, ← hpte]
    exact ⟨hp.1, rfl⟩
  obtain ⟨k, hpt⟩ := hinv.congr (t := m) (by rw [hm]; rfl) (by rw [hm]; rfl) fun q hq => by
    rw [hm]
    refine Function.update_of_ne ?_ _ _
    rintro rfl
    simp [hR, Role.isTable] at hq
  have hspace : HasSpace { s with mem := m } mm := ⟨hmm, hok, R, D, k, hd⟩
  have huser : ∀ x, userPte m mm.pgdir x = userPte s.mem mm.pgdir x := by
    intro x
    unfold userPte
    split
    · rename_i hvx
      exact hpt mm.pgdir hd _ hvx
    · rfl
  rw [heq]
  refine ⟨hspace, ⟨fun m' hx => ?_, fun x w => ?_⟩, rfl, rfl⟩
  · obtain rfl : mm = m' := by simpa [hmm] using hx.1
    exact ⟨mm, hspace, rfl, rfl, hok⟩
  · rw [hspace.permits, h.permits]
    simp only [permitted, huser]

/-- The process holds the semaphore. -/
def Holds (s : Ctx σ) (mm : Mm) : Prop := HasSpace s mm ∧ s.mmSem = 0

theorem access_uses (h : Holds s mm) (ha : InArea mm addr) (write : Bool) :
    (grants σ).Uses (access write addr) s [(addr, write)] fun _ t => t = s := by
  have hk := not_isKernel (ha.lt h.1.2.1)
  by_cases hp : s.permits addr write = true
  · refine .inr ⟨(), s, by simp [access, hp], ?_, Keeps.refl s, rfl⟩
    intro x hx
    obtain rfl : x = (addr, write) := by simpa using hx
    exact hp
  · refine .inl ⟨?_, (addr, write), by simp, hp⟩
    obtain ⟨vma, mm', hf⟩ := ha.findVma
    have hc := (findVma_spec addr h.1.2.1).2 vma (by rw [hf])
    rw [Vma.contains_iff] at hc
    have hle : ¬ vma.vmStart > addr := Nat.not_lt.mpr hc.2.1
    have hfault : pageFault write addr s = .stuck := by
      simp only [pageFault, h.1.1, hf, if_neg hle, h.2, if_true]
    simp only [access, hfault]
    rw [if_neg]
    rintro (hx | hx)
    · exact hk hx
    · exact hp hx

theorem load_uses (h : Holds s mm) (ha : InArea mm addr) :
    (grants σ).Uses (load addr) s [(addr, false)] fun b t => t = s ∧ b = s.byte addr := by
  refine (access_uses h ha false).bind_done fun _ t _ ht => ?_
  subst ht
  exact .done rfl (Keeps.refl t) ⟨rfl, rfl⟩

theorem store_uses (h : Holds s mm) (ha : InArea mm addr) (b : ℕ) :
    (grants σ).Uses (store addr b) s [(addr, true)] fun _ t => Holds t mm ∧ t.fs = s.fs := by
  have hk := not_isKernel (ha.lt h.1.2.1)
  rcases access_uses h ha true with ⟨hs, hx⟩ | ⟨_, t, hd, hall, -, ht⟩
  · exact .inl ⟨Program.bind_stuck hs, hx⟩
  · subst ht
    obtain ⟨h₁, h₂, h₃, h₄⟩ := h.1.setByte hk (hall (addr, true) (by simp)) b
    exact .inr ⟨(), _, Program.bind_done hd, hall, h₂, ⟨h₁, h₃.trans h.2⟩, h₄⟩

/-- The accesses to `n` bytes. -/
def span (write : Bool) : ℕ → ℕ → List (ℕ × Bool)
  | 0, _ => []
  | n + 1, addr => (addr, write) :: span write n (addr + 1)

/-- The bytes from an address on. -/
def Ctx.bytes (s : Ctx σ) : ℕ → ℕ → List ℕ
  | 0, _ => []
  | n + 1, addr => s.byte addr :: s.bytes n (addr + 1)

@[simp] theorem Ctx.length_bytes (s : Ctx σ) (n addr : ℕ) : (s.bytes n addr).length = n := by
  induction n generalizing addr with
  | zero => rfl
  | succ n ih => simp [Ctx.bytes, ih]

theorem loadBytes_uses (h : Holds s mm) (ha : ∀ x, addr ≤ x → x < addr + n → InArea mm x) :
    (grants σ).Uses (loadBytes n addr) s (span false n addr) fun l t =>
      t = s ∧ l = s.bytes n addr := by
  induction n generalizing addr with
  | zero => exact .done rfl (Keeps.refl s) ⟨rfl, rfl⟩
  | succ n ih =>
    refine (load_uses h (ha addr le_rfl (by omega))).bind_cons fun b t _ ht => ?_
    obtain ⟨rfl, rfl⟩ := ht
    refine (ih fun x h₁ h₂ => ha x (by omega) (by omega)).bind_done fun l u _ hu => ?_
    obtain ⟨rfl, rfl⟩ := hu
    exact .done rfl (Keeps.refl u) ⟨rfl, rfl⟩

theorem storeBytes_uses (h : Holds s mm) (hlen : l.length = n) (addr : ℕ)
    (ha : ∀ x, addr ≤ x → x < addr + n → InArea mm x) :
    (grants σ).Uses (storeBytes l addr) s (span true n addr) fun _ t =>
      Holds t mm ∧ t.fs = s.fs := by
  subst hlen
  induction l generalizing addr s with
  | nil => exact .done rfl (Keeps.refl s) ⟨h, rfl⟩
  | cons b l ih =>
    rw [List.length_cons] at ha
    refine (store_uses h (ha addr le_rfl (by omega)) b).bind_cons fun _ t _ ht => ?_
    refine (ih ht.1 (addr + 1) fun x h₁ h₂ => ha x (by omega) (by omega)).mono fun _ u _ hu => ?_
    exact ⟨hu.1, hu.2.trans ht.2⟩

def Idle (s : Ctx σ) (mm : Mm) : Prop := HasSpace s mm ∧ s.mmSem = 1

theorem Idle.isSome (h : Idle s mm) : s.mm.isSome = true := by simp [h.1.1]

theorem Idle.setFs (h : Idle s mm) (fs : σ) : Idle { s with fs := fs } mm := h

theorem Idle.holds (h : Idle s mm) : Holds { s with mmSem := 0 } mm := ⟨h.1, rfl⟩

theorem lockMm_uses (h : Idle s mm) :
    (grants σ).Uses lockMm s [] fun _ t => Holds t mm ∧ t = { s with mmSem := 0 } := by
  refine .done (a := ()) (t := { s with mmSem := 0 }) ?_ (keeps_setMmSem 0) ⟨⟨h.1, rfl⟩, rfl⟩
  simp [lockMm, down, h.1.1, h.2]

theorem unlockMm_uses (h : Holds s mm) :
    (grants σ).Uses unlockMm s [] fun _ t => Idle t mm ∧ t = { s with mmSem := 1 } := by
  refine .done (a := ()) (t := { s with mmSem := 1 }) ?_ (keeps_setMmSem 1) ⟨⟨h.1, rfl⟩, rfl⟩
  simp [unlockMm, up, h.1.1, h.2]

theorem get_uses : (grants σ).Uses Program.get s [] fun a t => a = s ∧ t = s :=
  .done rfl (Keeps.refl s) ⟨rfl, rfl⟩

theorem call_uses {α : Type} (f : σ → α × σ) : (grants σ).Uses (Files.call f) s [] fun a t =>
    a = (f s.fs).1 ∧ t = { s with fs := (f s.fs).2 } :=
  .done rfl (keeps_setFs _) ⟨rfl, rfl⟩

theorem userMemCheck_uses (h : HasSpace s mm) (addr : ℕ) (hn : n < 2 ^ 64) (write : Bool) :
    (grants σ).Uses (userMemCheck addr n write) s [] fun ok t => ∃ mm',
      checkAreas mm addr n write = some (ok, mm') ∧ mm.Same mm' ∧ t = { s with mm := some mm' } ∧
      HasSpace t mm' ∧ (ok = true → ∀ x, addr ≤ x → x < addr + n → InArea mm' x) := by
  obtain ⟨⟨ok, mm'⟩, hr, hc⟩ := checkAreas_spec h.2.1 addr write hn
  obtain ⟨hspace, hkeeps⟩ := h.setMm hc.same
  refine .done (a := ok) ?_ hkeeps ⟨mm', hr, hc.same, rfl, hspace, fun ho x h₁ h₂ => ?_⟩
  · simp [userMemCheck, h.1, hr]
  · exact (hc.inArea ho x h₁ h₂).same hc.same

/-- The accesses of a copy from or to `n` checked bytes. -/
def touchedRange (mm : Mm) (addr n : ℕ) (check write : Bool) : List (ℕ × Bool) :=
  match checkAreas mm addr n check with
  | some (true, _) => span write n addr
  | _ => []

theorem copyToUser_uses (h : Holds s mm) (dst : ℕ) (hn : l.length < 2 ^ 64) :
    (grants σ).Uses (copyToUser dst l) s (touchedRange mm dst l.length true true) fun ok t => ∃ mm',
      checkAreas mm dst l.length true = some (ok, mm') ∧ Holds t mm' ∧ t.fs = s.fs := by
  unfold touchedRange
  obtain ⟨⟨ok, mm'⟩, hr, -⟩ := checkAreas_spec h.1.2.1 dst true hn
  rw [hr]
  refine (userMemCheck_uses h.1 dst hn true).bind_nil fun o t _ ht => ?_
  obtain ⟨m, hm, -, rfl, hspace, hin⟩ := ht
  obtain ⟨rfl, rfl⟩ : ok = o ∧ mm' = m := by simpa [hr] using hm
  have hholds : Holds { s with mm := some mm' } mm' := ⟨hspace, h.2⟩
  cases ok with
  | false => exact .done rfl (Keeps.refl _) ⟨mm', rfl, hholds, rfl⟩
  | true =>
    refine (storeBytes_uses hholds rfl dst (hin rfl)).bind_done fun _ u _ hu => ?_
    exact .done rfl (Keeps.refl u) ⟨mm', rfl, hu.1, hu.2⟩

theorem Ctx.byte_congr (hmem : t.mem = s.mem) (hk : t.kmem = s.kmem) (hs : s.mm = some mm)
    (ht : t.mm = some mm') (hsame : mm.Same mm') : t.byte = s.byte := by
  ext1 x
  simp only [Ctx.byte, hmem, hk, hs, ht, hsame.pgdir]

theorem Ctx.bytes_congr (h : t.byte = s.byte) (n addr : ℕ) : t.bytes n addr = s.bytes n addr := by
  induction n generalizing addr with
  | zero => rfl
  | succ n ih => simp only [Ctx.bytes, h, ih]

theorem copyFromUser_uses {s₀ : Ctx σ} (h : Holds s mm) (hb : s.byte = s₀.byte) (src : ℕ)
    (hn : n < 2 ^ 64) (check : Bool) :
    (grants σ).Uses (copyFromUser src n check) s (touchedRange mm src n check false) fun o t =>
      ∃ ok mm', checkAreas mm src n check = some (ok, mm') ∧ Holds t mm' ∧ t.fs = s.fs ∧
        t.byte = s₀.byte ∧ o = if ok then some (s₀.bytes n src) else none := by
  unfold touchedRange
  obtain ⟨⟨ok, mm'⟩, hr, hc⟩ := checkAreas_spec h.1.2.1 src check hn
  rw [hr]
  refine (userMemCheck_uses h.1 src hn check).bind_nil fun o t _ ht => ?_
  obtain ⟨m, hm, -, rfl, hspace, hin⟩ := ht
  obtain ⟨rfl, rfl⟩ : ok = o ∧ mm' = m := by simpa [hr] using hm
  have hholds : Holds { s with mm := some mm' } mm' := ⟨hspace, h.2⟩
  have hb' : ({ s with mm := some mm' } : Ctx σ).byte = s.byte :=
    Ctx.byte_congr rfl rfl h.1.1 rfl hc.same
  rw [hb] at hb'
  cases ok with
  | false => exact .done rfl (Keeps.refl _) ⟨false, mm', rfl, hholds, rfl, hb', rfl⟩
  | true =>
    refine (loadBytes_uses hholds (hin rfl)).bind_done fun l u _ hu => ?_
    obtain ⟨rfl, rfl⟩ := hu
    refine .done rfl (Keeps.refl _) ⟨true, mm', rfl, hholds, rfl, hb', ?_⟩
    rw [if_pos rfl, Ctx.bytes_congr hb']

end Locked

end UCore.UserMem

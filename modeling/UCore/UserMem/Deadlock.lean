import UCore.PageTable.Teardown
import UCore.UserMem.Access

/-! # File system calls that wait for themselves

The accesses of each call to user memory while it holds `mm_sem`. The call sleeps on the semaphore
that it holds exactly when the page table does not permit one of them.
-/

namespace UCore.UserMem

open Library PageTable

section Strings

variable {σ : Type} {s t : Ctx σ} {mm mm' : Mm} {n : ℕ}

/-- What the inner loop of `copy_string` finds. -/
def Ctx.part (s : Ctx σ) : ℕ → ℕ → Bool × List ℕ
  | 0, _ => (false, [])
  | n + 1, src =>
    if s.byte src = 0 then (true, [])
    else ((s.part n (src + 1)).1, s.byte src :: (s.part n (src + 1)).2)

/-- The bytes that the inner loop of `copy_string` reads. -/
def Ctx.touchedPart (s : Ctx σ) : ℕ → ℕ → List (ℕ × Bool)
  | 0, _ => []
  | n + 1, src => (src, false) :: if s.byte src = 0 then [] else s.touchedPart n (src + 1)

theorem loadPart_uses {src : ℕ} (h : Holds s mm)
    (ha : ∀ x, src ≤ x → x < src + n → InArea mm x) :
    (grants σ).Uses (loadPart n src) s (s.touchedPart n src) fun r t =>
      t = s ∧ r = s.part n src := by
  induction n generalizing src with
  | zero => exact .done rfl (Keeps.refl s) ⟨rfl, rfl⟩
  | succ n ih =>
    refine (load_uses h (ha src le_rfl (by omega))).bind_cons fun b t _ ht => ?_
    obtain ⟨rfl, rfl⟩ := ht
    by_cases hb : t.byte src = 0
    · simp only [if_pos hb]
      refine .done rfl (Keeps.refl t) ⟨rfl, ?_⟩
      simp [Ctx.part, hb]
    · simp only [if_neg hb]
      refine (ih fun x h₁ h₂ => ha x (by omega) (by omega)).bind_done fun r u _ hu => ?_
      obtain ⟨rfl, rfl⟩ := hu
      refine .done rfl (Keeps.refl u) ⟨rfl, ?_⟩
      simp [Ctx.part, hb]

/-- The bytes that `copy_string` reads. -/
def Ctx.touchedParts (s : Ctx σ) (maxn : ℕ) : ℕ → Mm → ℕ → ℕ → ℕ → List (ℕ × Bool)
  | 0, _, _, _, _ => []
  | n + 1, mm, src, alpart, copied =>
    match checkAreas mm src alpart false with
    | some (true, mm) =>
      s.touchedPart alpart src ++
        if (s.part alpart src).1 then []
        else if copied + alpart ≥ maxn then []
        else s.touchedParts maxn n mm (src + alpart) (min pgsize (maxn - (copied + alpart)))
          (copied + alpart)
    | _ => []

/-- The program has at most changed the cached area. -/
structure Looked (s t : Ctx σ) (mm mm' : Mm) : Prop where
  same : mm.Same mm'
  eq : t = { s with mm := some mm' }

theorem Looked.byte (h : Looked s t mm mm') (hs : s.mm = some mm) : t.byte = s.byte := by
  have ht := h.eq
  refine Ctx.byte_congr ?_ ?_ hs ?_ h.same
  · rw [ht]
  · rw [ht]
  · rw [ht]

theorem Ctx.part_congr (h : t.byte = s.byte) (n src : ℕ) : t.part n src = s.part n src := by
  induction n generalizing src with
  | zero => rfl
  | succ n ih => simp only [Ctx.part, h, ih]

theorem Ctx.touchedPart_congr (h : t.byte = s.byte) (n src : ℕ) :
    t.touchedPart n src = s.touchedPart n src := by
  induction n generalizing src with
  | zero => rfl
  | succ n ih => simp only [Ctx.touchedPart, h, ih]

theorem copyParts_uses (maxn src copied : ℕ) {alpart : ℕ} {s₀ : Ctx σ} (h : Holds s mm)
    (hn : alpart < 2 ^ 64) (hb : s.byte = s₀.byte) :
    (grants σ).Uses (copyParts maxn n src alpart copied) s
      (s₀.touchedParts maxn n mm src alpart copied) fun _ t => ∃ mm', Holds t mm' ∧
        t.fs = s.fs := by
  induction n generalizing s mm src alpart copied with
  | zero => exact .done rfl (Keeps.refl s) ⟨mm, h, rfl⟩
  | succ n ih =>
    unfold Ctx.touchedParts
    obtain ⟨⟨ok, mm'⟩, hr, hc⟩ := checkAreas_spec h.1.2.1 src false hn
    rw [hr]
    refine (userMemCheck_uses h.1 src hn false).bind_nil fun o t _ ht => ?_
    obtain ⟨m, hm, -, rfl, hspace, hin⟩ := ht
    obtain ⟨rfl, rfl⟩ : ok = o ∧ mm' = m := by simpa [hr] using hm
    have hholds : Holds { s with mm := some mm' } mm' := ⟨hspace, h.2⟩
    have hlook : Looked s { s with mm := some mm' } mm mm' := ⟨hc.same, rfl⟩
    have hb' := (hlook.byte h.1.1).trans hb
    cases ok with
    | false => exact .done rfl (Keeps.refl _) ⟨mm', hholds, rfl⟩
    | true =>
      dsimp only
      rw [← Ctx.touchedPart_congr hb', ← Ctx.part_congr hb']
      refine (loadPart_uses hholds (hin rfl)).bind fun r u _ hu => ?_
      obtain ⟨rfl, rfl⟩ := hu
      by_cases hz : (({ s with mm := some mm' } : Ctx σ).part alpart src).1 = true
      · simp only [if_pos hz]
        exact .done rfl (Keeps.refl _) ⟨mm', hholds, rfl⟩
      · simp only [if_neg hz]
        by_cases hge : copied + alpart ≥ maxn
        · simp only [if_pos hge]
          exact .done rfl (Keeps.refl _) ⟨mm', hholds, rfl⟩
        · simp only [if_neg hge]
          have hlt : min pgsize (maxn - (copied + alpart)) < 2 ^ 64 :=
            lt_of_le_of_lt (min_le_left _ _) (by decide)
          refine (ih _ _ hholds hlt hb').bind_done fun l v _ hv => ?_
          exact .done rfl (Keeps.refl v) hv

end Strings

section Calls

variable {σ α β : Type} {s t : Ctx σ} {mm mm' : Mm} {n : ℕ} {l l' : List (ℕ × Bool)}
  {m : Program (Ctx σ) α} {f : α → Program (Ctx σ) β} {Q : α → Ctx σ → Prop}
  {P : β → Ctx σ → Prop}

theorem locked_uses (h : Idle s mm)
    (hm : (grants σ).Uses m { s with mmSem := 0 } l fun a t => (∃ mm, Holds t mm) ∧ Q a t)
    (hf : ∀ a t mm, Idle { t with mmSem := 1 } mm → Q a t →
      (grants σ).Uses (f a) { t with mmSem := 1 } l' P) :
    (grants σ).Uses (do lockMm; let a ← m; unlockMm; f a) s (l ++ l') P := by
  refine (lockMm_uses h).bind_nil fun _ t _ ht => ?_
  obtain ⟨-, rfl⟩ := ht
  refine hm.bind fun a t _ ht => ?_
  obtain ⟨⟨mm', hmm'⟩, hq⟩ := ht
  refine (unlockMm_uses hmm').bind_nil fun _ u _ hu => ?_
  obtain ⟨hu, rfl⟩ := hu
  exact hf a t mm' hu hq

theorem locked_uses_done (h : Idle s mm)
    (hm : (grants σ).Uses m { s with mmSem := 0 } l fun a t => (∃ mm, Holds t mm) ∧ Q a t)
    (hf : ∀ a t mm, Idle { t with mmSem := 1 } mm → Q a t →
      (grants σ).Uses (f a) { t with mmSem := 1 } [] P) :
    (grants σ).Uses (do lockMm; let a ← m; unlockMm; f a) s l P := by
  have hl := locked_uses h hm hf
  rwa [List.append_nil] at hl

variable (F : Files σ)

/-- The bytes that `sysfile_open` touches under the lock. -/
def Files.touchedPath (s : Ctx σ) (mm : Mm) (path : ℕ) : List (ℕ × Bool) :=
  if (F.kmalloc (fsMaxFpathLen + 1) s.fs).1 then
    s.touchedParts (fsMaxFpathLen + 1) (fsMaxFpathLen + 1 + 1) mm path
      (min (pgsize - path % pgsize) (fsMaxFpathLen + 1)) 0
  else []

theorem sysfileOpen_uses (h : Idle s mm) (path openFlags : ℕ) :
    (grants σ).Uses (F.sysfileOpen path openFlags) s (F.touchedPath s mm path) fun _ _ => True := by
  have hpath : (grants σ).Uses (F.copyPath path) s (F.touchedPath s mm path) fun _ _ => True := by
    unfold Files.touchedPath Files.copyPath
    refine (call_uses _).bind_nil fun ok t _ ht => ?_
    obtain ⟨rfl, rfl⟩ := ht
    by_cases hk : (F.kmalloc (fsMaxFpathLen + 1) s.fs).1 = true
    · simp only [if_pos hk]
      refine get_uses.bind_nil fun a t _ ht => ?_
      obtain ⟨rfl, rfl⟩ := ht
      have hsome : s.mm.isSome = true := h.isSome
      simp only [hsome, if_true]
      have hlt : min (pgsize - path % pgsize) (fsMaxFpathLen + 1) < 2 ^ 64 :=
        lt_of_le_of_lt (min_le_right _ _) (by decide)
      have hcopy := copyParts_uses (n := fsMaxFpathLen + 1 + 1) (fsMaxFpathLen + 1) path 0
        (h.setFs (F.kmalloc (fsMaxFpathLen + 1) s.fs).2).holds hlt (rfl : _ = s.byte)
      refine locked_uses_done (Q := fun _ _ => True) (h.setFs _) (hcopy.mono ?_) ?_
      · rintro a t - ⟨m, hm, -⟩
        exact ⟨⟨m, hm⟩, trivial⟩
      · intro o t _ _ _
        cases o with
        | some path => exact .done rfl (Keeps.refl _) trivial
        | none => exact .done rfl (Keeps.refl _) trivial
    · simp only [if_neg hk]
      exact .done rfl (Keeps.refl _) trivial
  refine hpath.bind_done fun r t _ _ => ?_
  cases r with
  | inl path => exact (call_uses _).mono fun _ _ _ _ => trivial
  | inr ret => exact .done rfl (Keeps.refl t) trivial

theorem deliver_uses {bytes : List ℕ} (h : Idle s mm) (base : ℕ) (hn : bytes.length < 2 ^ 64) :
    (grants σ).Uses (Files.deliver base bytes) s (touchedRange mm base bytes.length true true)
      fun ok t => ∃ mm', checkAreas mm base bytes.length true = some (ok, mm') ∧ Idle t mm' ∧
        t.fs = s.fs := by
  unfold Files.deliver
  refine get_uses.bind_nil fun a t _ ht => ?_
  obtain ⟨rfl, rfl⟩ := ht
  simp only [h.isSome, if_true]
  refine locked_uses_done (Q := fun ok u => ∃ mm', checkAreas mm base bytes.length true =
    some (ok, mm') ∧ Holds u mm' ∧ u.fs = t.fs) h ((copyToUser_uses h.holds base hn).mono ?_) ?_
  · rintro ok u - ⟨mm', hr, hu, hfs⟩
    exact ⟨⟨mm', hu⟩, mm', hr, hu, hfs⟩
  · rintro ok u m - ⟨mm', hr, hu, hfs⟩
    exact .done rfl (Keeps.refl _) ⟨mm', hr, ⟨hu.1, rfl⟩, hfs⟩

/-- The bytes that the loop of `sysfile_read` touches. -/
def Files.touchedRead (fd : ℤ) : ℕ → Mm → σ → ℕ → ℕ → List (ℕ × Bool)
  | 0, _, _, _, _ => []
  | n + 1, mm, fs, base, len =>
    if len = 0 then []
    else
      let r := F.fileRead fd (min iobufSize len) fs
      if r.2.1 = [] then []
      else
        touchedRange mm base r.2.1.length true true ++
          match checkAreas mm base r.2.1.length true with
          | some (true, mm) =>
            if r.1 ≠ 0 then []
            else Files.touchedRead fd n mm r.2.2 (base + r.2.1.length) (len - r.2.1.length)
          | _ => []

theorem readLoop_uses (fd : ℤ) (h : Idle s mm) (base len copied : ℕ) :
    (grants σ).Uses (F.readLoop fd n base len copied) s (F.touchedRead fd n mm s.fs base len)
      fun _ _ => True := by
  induction n generalizing s mm base len copied with
  | zero => exact .done rfl (Keeps.refl s) trivial
  | succ n ih =>
    unfold Files.readLoop Files.touchedRead
    by_cases hl : len = 0
    · simp only [if_pos hl]
      exact .done rfl (Keeps.refl s) trivial
    · simp only [if_neg hl]
      refine (call_uses _).bind_nil fun a t _ ht => ?_
      obtain ⟨rfl, rfl⟩ := ht
      dsimp only
      have hle := F.read_le fd (min iobufSize len) s.fs
      generalize F.fileRead fd (min iobufSize len) s.fs = r at hle ⊢
      obtain ⟨ret, bytes, fs⟩ := r
      dsimp only at hle ⊢
      by_cases he : bytes = []
      · simp only [if_pos he]
        exact .done rfl (Keeps.refl _) trivial
      · simp only [if_neg he]
        have hlt : bytes.length < 2 ^ 64 :=
          lt_of_le_of_lt (hle.trans (min_le_left _ _)) (by decide)
        refine (deliver_uses (h.setFs fs) base hlt).bind fun ok t _ ht => ?_
        obtain ⟨mm', hr, hidle, hfs⟩ := ht
        rw [hr]
        cases ok with
        | false => exact .done rfl (Keeps.refl _) trivial
        | true =>
          by_cases hz : ret ≠ 0
          · simp only [if_pos hz, if_true]
            exact .done rfl (Keeps.refl _) trivial
          · simp only [if_neg hz, if_true]
            have := ih hidle (base + bytes.length) (len - bytes.length) (copied + bytes.length)
            rwa [hfs] at this

theorem collect_uses (h : Idle s mm) (base : ℕ) (hn : n < 2 ^ 64) :
    (grants σ).Uses (Files.collect base n) s (touchedRange mm base n false false) fun o t =>
      ∃ ok mm', checkAreas mm base n false = some (ok, mm') ∧ Idle t mm' ∧ t.byte = s.byte ∧
        t.fs = s.fs ∧ o = if ok then some (s.bytes n base) else none := by
  unfold Files.collect
  refine get_uses.bind_nil fun a t _ ht => ?_
  obtain ⟨rfl, rfl⟩ := ht
  simp only [h.isSome, if_true]
  refine locked_uses_done (Q := fun o u => ∃ ok mm', checkAreas mm base n false = some (ok, mm') ∧
    Holds u mm' ∧ u.byte = t.byte ∧ u.fs = t.fs ∧ o = if ok then some (t.bytes n base) else none)
    h ((copyFromUser_uses h.holds (rfl : _ = t.byte) base hn false).mono ?_) ?_
  · rintro o u - ⟨ok, mm', hr, hu, hfs, hb, ho⟩
    exact ⟨⟨mm', hu⟩, ok, mm', hr, hu, hb, hfs, ho⟩
  · rintro o u m - ⟨ok, mm', hr, hu, hb, hfs, ho⟩
    exact .done rfl (Keeps.refl _) ⟨ok, mm', hr, ⟨hu.1, rfl⟩, hb, hfs, ho⟩

/-- The bytes that the loop of `sysfile_write` touches. -/
def Files.touchedWrite (s : Ctx σ) (fd : ℤ) : ℕ → Mm → σ → ℕ → ℕ → List (ℕ × Bool)
  | 0, _, _, _, _ => []
  | n + 1, mm, fs, base, len =>
    if len = 0 then []
    else
      touchedRange mm base (min iobufSize len) false false ++
        match checkAreas mm base (min iobufSize len) false with
        | some (true, mm) =>
          let r := F.fileWrite fd (s.bytes (min iobufSize len) base) fs
          if r.1 ≠ 0 ∨ r.2.1 = 0 then []
          else Files.touchedWrite s fd n mm r.2.2 (base + r.2.1) (len - r.2.1)
        | _ => []

theorem writeLoop_uses {s₀ : Ctx σ} (fd : ℤ) (h : Idle s mm) (hb : s.byte = s₀.byte)
    (base len copied : ℕ) :
    (grants σ).Uses (F.writeLoop fd n base len copied) s (F.touchedWrite s₀ fd n mm s.fs base len)
      fun _ _ => True := by
  induction n generalizing s mm base len copied with
  | zero => exact .done rfl (Keeps.refl s) trivial
  | succ n ih =>
    unfold Files.writeLoop Files.touchedWrite
    by_cases hl : len = 0
    · simp only [if_pos hl]
      exact .done rfl (Keeps.refl s) trivial
    · simp only [if_neg hl]
      have hlt : min iobufSize len < 2 ^ 64 := lt_of_le_of_lt (min_le_left _ _) (by decide)
      refine (collect_uses h base hlt).bind fun o t _ ht => ?_
      obtain ⟨ok, mm', hr, hidle, hbt, hfs, rfl⟩ := ht
      rw [hr]
      cases ok with
      | false => exact .done rfl (Keeps.refl _) trivial
      | true =>
        rw [if_pos rfl, Ctx.bytes_congr hb]
        refine (call_uses _).bind_nil fun a u _ hu => ?_
        obtain ⟨rfl, rfl⟩ := hu
        dsimp only
        rw [hfs]
        generalize F.fileWrite fd (s₀.bytes (min iobufSize len) base) s.fs = r
        obtain ⟨ret, alen, fs⟩ := r
        dsimp only
        by_cases hz : ret ≠ 0 ∨ alen = 0
        · simp only [if_pos hz]
          exact .done rfl (Keeps.refl _) trivial
        · simp only [if_neg hz]
          exact ih (hidle.setFs fs) (hbt.trans hb) (base + alen) (len - alen) (copied + alen)

/-- The bytes that `sysfile_fstat` touches. -/
def Files.touchedFstat (mm : Mm) (fs : σ) (fd : ℤ) (stat : ℕ) : List (ℕ × Bool) :=
  if (F.fileFstat fd fs).1 ≠ 0 then [] else touchedRange mm stat 32 true true

theorem putUser_uses {bytes : List ℕ} {k : ℕ} (h : Idle s mm) (dst : ℕ) (hlen : bytes.length = k)
    (hk : k < 2 ^ 64) (ret err : ℤ) :
    (grants σ).Uses (do
        lockMm
        let ok ← copyToUser dst bytes
        unlockMm
        return if ok then ret else err) s (touchedRange mm dst k true true) fun _ _ => True := by
  subst hlen
  refine locked_uses_done (Q := fun _ _ => True) h ((copyToUser_uses h.holds dst hk).mono ?_) ?_
  · rintro ok u - ⟨mm', -, hu, -⟩
    exact ⟨⟨mm', hu⟩, trivial⟩
  · intro ok u m _ _
    exact .done rfl (Keeps.refl _) trivial

theorem sysfileFstat_uses (h : Idle s mm) (fd : ℤ) (stat : ℕ) :
    (grants σ).Uses (F.sysfileFstat fd stat) s (F.touchedFstat mm s.fs fd stat) fun _
    _ => True := by
  unfold Files.sysfileFstat Files.touchedFstat
  refine (call_uses _).bind_nil fun a t _ ht => ?_
  obtain ⟨rfl, rfl⟩ := ht
  have hlen := F.stat_length fd s.fs
  generalize F.fileFstat fd s.fs = r at hlen ⊢
  obtain ⟨ret, bytes, fs⟩ := r
  dsimp only at hlen ⊢
  by_cases hz : ret ≠ 0
  · simp only [if_pos hz]
    exact .done rfl (Keeps.refl _) trivial
  · simp only [if_neg hz]
    exact putUser_uses (h.setFs fs) stat hlen (by decide) 0 (-eInval)

/-- The bytes that `sysfile_getdirentry` touches. -/
def Files.touchedDirentry (s : Ctx σ) (mm : Mm) (fd : ℤ) (direntp : ℕ) : List (ℕ × Bool) :=
  let m := F.kmalloc 264 s.fs
  if m.1 then
    touchedRange mm direntp 8 true false ++
      match checkAreas mm direntp 8 true with
      | some (true, mm) =>
        if (F.fileGetdirentry fd (s.bytes 8 direntp) m.2).1 ≠ 0 then []
        else touchedRange mm direntp 264 true true
      | _ => []
  else []

theorem sysfileGetdirentry_uses (h : Idle s mm) (fd : ℤ) (direntp : ℕ) :
    (grants σ).Uses (F.sysfileGetdirentry fd direntp) s (F.touchedDirentry s mm fd direntp)
      fun _ _ => True := by
  unfold Files.sysfileGetdirentry Files.touchedDirentry
  refine (call_uses _).bind_nil fun a t _ ht => ?_
  obtain ⟨rfl, rfl⟩ := ht
  generalize F.kmalloc 264 s.fs = r
  obtain ⟨ok, fs⟩ := r
  dsimp only
  cases ok with
  | false => exact .done rfl (Keeps.refl _) trivial
  | true =>
    simp only [if_true]
    obtain ⟨⟨ok, mm'⟩, hr, hc⟩ := checkAreas_spec h.1.2.1 direntp true (by decide : 8 < 2 ^ 64)
    rw [hr]
    refine locked_uses (Q := fun o u => Holds u mm' ∧ u.fs = fs ∧
      o = if ok then some (s.bytes 8 direntp) else none) (h.setFs fs)
      ((copyFromUser_uses (h.setFs fs).holds (rfl : _ = s.byte) direntp (by decide) true).mono ?_)
        ?_
    · rintro o u - ⟨ok', m, hr', hu, hfs, -, ho⟩
      obtain ⟨rfl, rfl⟩ : ok = ok' ∧ mm' = m := by simpa [hr] using hr'
      exact ⟨⟨mm', hu⟩, hu, hfs, ho⟩
    · rintro o u m - ⟨hu, hfs, rfl⟩
      cases ok with
      | false => exact .done rfl (Keeps.refl _) trivial
      | true =>
        rw [if_pos rfl]
        refine (call_uses _).bind_nil fun a t _ ht => ?_
        obtain ⟨rfl, rfl⟩ := ht
        dsimp only
        rw [hfs]
        have hlen := F.dirent_length fd (s.bytes 8 direntp) fs
        generalize F.fileGetdirentry fd (s.bytes 8 direntp) fs = r at hlen ⊢
        obtain ⟨ret, bytes, fs'⟩ := r
        dsimp only at hlen ⊢
        by_cases hz : ret ≠ 0
        · simp only [if_pos hz]
          exact .done rfl (Keeps.refl _) trivial
        · simp only [if_neg hz]
          have hidle : Idle ({ u with mmSem := 1 } : Ctx σ) mm' := ⟨hu.1, rfl⟩
          exact putUser_uses (hidle.setFs fs') direntp hlen (by decide) 0 (-eInval)

end Calls

section Getcwd

variable {σ : Type} {s t : Ctx σ} {mm : Mm} {names : List (List ℕ)} {err : ℤ} {ptr resid : ℕ}

/-- What the loop of `sfs_namefile` ends with. -/
def afterNames (err : ℤ) : List (List ℕ) → ℕ → ℕ → ℕ × ℕ ⊕ ℤ
  | [], ptr, resid => if err = 0 then .inl (ptr, resid) else .inr err
  | name :: names, ptr, resid =>
    if name.length + 1 > resid then .inr (-eNoMem)
    else afterNames err names (ptr - (name.length + 1)) (resid - (name.length + 1))

/-- The bytes that the loop of `sfs_namefile` touches. -/
def touchedNames : List (List ℕ) → ℕ → ℕ → List (ℕ × Bool)
  | [], _, _ => []
  | name :: names, ptr, resid =>
    if name.length + 1 > resid then []
    else span true (name.length + 1) (ptr - (name.length + 1)) ++
      touchedNames names (ptr - (name.length + 1)) (resid - (name.length + 1))

theorem afterNames_spec {p left : ℕ} (hle : resid ≤ ptr)
    (h : afterNames err names ptr resid = .inl (p, left)) :
    left ≤ resid ∧ p + (resid - left) = ptr := by
  induction names generalizing ptr resid with
  | nil =>
    simp only [afterNames] at h
    split at h
    · obtain ⟨rfl, rfl⟩ : ptr = p ∧ resid = left := by simpa using h
      omega
    · cases h
  | cons name names ih =>
    simp only [afterNames] at h
    split at h
    · cases h
    · obtain ⟨h₁, h₂⟩ := ih (by omega) h
      omega

theorem putNames_uses {lo : ℕ} (h : Holds s mm) (ha : ∀ x, lo ≤ x → x < ptr → InArea mm x)
    (hlo : lo + resid ≤ ptr) :
    (grants σ).Uses (Files.putNames err names ptr resid) s (touchedNames names ptr resid) fun r t =>
      r = afterNames err names ptr resid ∧ Holds t mm ∧ t.fs = s.fs := by
  induction names generalizing s ptr resid with
  | nil => exact .done rfl (Keeps.refl s) ⟨rfl, h, rfl⟩
  | cons name names ih =>
    simp only [Files.putNames, touchedNames, afterNames]
    by_cases hgt : name.length + 1 > resid
    · simp only [if_pos hgt]
      exact .done rfl (Keeps.refl s) ⟨rfl, h, rfl⟩
    · simp only [if_neg hgt]
      have hlen : (name ++ [47]).length = name.length + 1 := by simp
      refine (storeBytes_uses h hlen (ptr - (name.length + 1)) fun x h₁ h₂ =>
        ha x (by omega) (by omega)).bind fun _ t _ ht => ?_
      refine (ih ht.1 (fun x h₁ h₂ => ha x h₁ (by omega)) (by omega)).mono fun r u _ hu => ?_
      exact ⟨hu.1, hu.2.1, hu.2.2.trans ht.2⟩

variable (F : Files σ)

/-- The bytes that `sfs_namefile` touches. -/
def Files.touchedNamefile (fs : σ) (names : List (List ℕ)) (err : ℤ) (base resid : ℕ) :
    List (ℕ × Bool) :=
  if resid ≤ 2 then []
  else if (F.kmalloc 260 fs).1 then
    touchedNames names (base + resid) (resid - 2) ++
      match afterNames err names (base + resid) (resid - 2) with
      | .inr _ => []
      | .inl (ptr, left) =>
        span false (resid - left - 2) ptr ++ (span true (resid - left - 2) (base + 1) ++
          (span true 1 base ++ span true 1 (base + 1 + (resid - left - 2))))
  else []

theorem sfsNamefile_uses {base : ℕ} (h : Holds s mm)
    (ha : ∀ x, base ≤ x → x < base + resid → InArea mm x) :
    (grants σ).Uses (F.sfsNamefile names err base resid) s
      (F.touchedNamefile s.fs names err base resid) fun _ t => ∃ mm, Holds t mm := by
  unfold Files.sfsNamefile Files.touchedNamefile
  by_cases hle : resid ≤ 2
  · simp only [if_pos hle]
    exact .done rfl (Keeps.refl s) ⟨mm, h⟩
  · simp only [if_neg hle]
    refine (call_uses _).bind_nil fun a t _ ht => ?_
    obtain ⟨rfl, rfl⟩ := ht
    generalize F.kmalloc 260 s.fs = r
    obtain ⟨ok, fs⟩ := r
    have hfs : Holds { s with fs := fs } mm := h
    cases ok with
    | false => exact .done rfl (Keeps.refl _) ⟨mm, h⟩
    | true =>
      simp only [if_true]
      refine (putNames_uses hfs ha (by omega)).bind fun r t _ ht => ?_
      obtain ⟨rfl, ht, -⟩ := ht
      rcases hr : afterNames err names (base + resid) (resid - 2) with ⟨p, left⟩ | ret
      · obtain ⟨h₁, h₂⟩ := afterNames_spec (by omega) hr
        refine (loadBytes_uses ht fun x h₃ h₄ => ha x (by omega) (by omega)).bind fun l u _ hu => ?_
        obtain ⟨rfl, rfl⟩ := hu
        refine (storeBytes_uses ht (Ctx.length_bytes _ _ _) (base + 1) fun x h₃ h₄ =>
          ha x (by omega) (by omega)).bind fun _ u _ hu => ?_
        refine (storeBytes_uses hu.1 rfl base fun x h₃ h₄ => ha x (by omega) (by
          rw [List.length_singleton] at h₄
          omega)).bind fun _ v _ hv => ?_
        refine (storeBytes_uses hv.1 rfl (base + 1 + (resid - left - 2)) fun x h₃ h₄ =>
          ha x (by omega) (by
            rw [List.length_singleton] at h₄
            omega)).bind_done fun _ w _ hw => ?_
        exact .done rfl (Keeps.refl w) ⟨mm, hw.1⟩
      · exact .done rfl (Keeps.refl _) ⟨mm, ht⟩

/-- The bytes that `vfs_getcwd` touches. -/
def Files.touchedCwd (fs : σ) (buf len : ℕ) : List (ℕ × Bool) :=
  match F.curdir fs with
  | none => []
  | some (devname, names, err) =>
    span true (min len devname.length) buf ++
      if len < devname.length then []
      else if len = devname.length then []
      else span true 1 (buf + devname.length) ++
        F.touchedNamefile fs names err (buf + devname.length + 1) (len - devname.length - 1)

theorem vfsGetcwd_uses {buf len : ℕ} (h : Holds s mm)
    (ha : ∀ x, buf ≤ x → x < buf + len → InArea mm x) :
    (grants σ).Uses (F.vfsGetcwd buf len) s (F.touchedCwd s.fs buf len) fun _ t =>
      ∃ mm, Holds t mm := by
  unfold Files.vfsGetcwd Files.touchedCwd
  refine get_uses.bind_nil fun a t _ ht => ?_
  obtain ⟨rfl, rfl⟩ := ht
  rcases F.curdir t.fs with _ | ⟨devname, names, err⟩
  · exact .done rfl (Keeps.refl _) ⟨mm, h⟩
  · dsimp only
    refine (storeBytes_uses h List.length_take buf fun x h₁ h₂ =>
      ha x (by omega) (by omega)).bind fun _ u _ hu => ?_
    by_cases hlt : len < devname.length
    · simp only [if_pos hlt]
      exact .done rfl (Keeps.refl _) ⟨mm, hu.1⟩
    · simp only [if_neg hlt]
      by_cases heq : len = devname.length
      · simp only [if_pos heq]
        exact .done rfl (Keeps.refl _) ⟨mm, hu.1⟩
      · simp only [if_neg heq]
        refine (storeBytes_uses hu.1 rfl (buf + devname.length) fun x h₁ h₂ => ha x (by omega) (by
          rw [List.length_singleton] at h₂
          omega)).bind fun _ v _ hv => ?_
        rw [← hu.2, ← hv.2]
        exact sfsNamefile_uses F hv.1 fun x h₁ h₂ => ha x (by omega) (by omega)

/-- The bytes that `sysfile_getcwd` touches. -/
def Files.touchedGetcwd (fs : σ) (mm : Mm) (buf len : ℕ) : List (ℕ × Bool) :=
  if len = 0 then []
  else
    match checkAreas mm buf len true with
    | some (true, _) => F.touchedCwd fs buf len
    | _ => []

theorem sysfileGetcwd_uses {buf len : ℕ} (h : Idle s mm) (hlen : len < 2 ^ 64) :
    (grants σ).Uses (F.sysfileGetcwd buf len) s (F.touchedGetcwd s.fs mm buf len) fun _
    _ => True := by
  unfold Files.sysfileGetcwd Files.touchedGetcwd
  by_cases hz : len = 0
  · simp only [if_pos hz]
    exact .done rfl (Keeps.refl _) trivial
  · simp only [if_neg hz]
    obtain ⟨⟨ok, mm'⟩, hr, hc⟩ := checkAreas_spec h.1.2.1 buf true hlen
    rw [hr]
    refine (lockMm_uses h).bind_nil fun _ t _ ht => ?_
    obtain ⟨ht, rfl⟩ := ht
    refine (userMemCheck_uses ht.1 buf hlen true).bind_nil fun o u _ hu => ?_
    obtain ⟨m, hm, -, rfl, hspace, hin⟩ := hu
    obtain ⟨rfl, rfl⟩ : ok = o ∧ mm' = m := by simpa [hr] using hm
    have hholds : Holds { s with mmSem := 0, mm := some mm' } mm' := ⟨hspace, rfl⟩
    have hbody : (grants σ).Uses (if ok = true then F.vfsGetcwd buf len else pure (-eInval))
        { s with mmSem := 0, mm := some mm' } (if ok then F.touchedCwd s.fs buf len else [])
        fun _ t => ∃ mm, Holds t mm := by
      cases ok with
      | false => exact .done rfl (Keeps.refl _) ⟨mm', hholds⟩
      | true => exact vfsGetcwd_uses F hholds (hin rfl)
    have hlast := hbody.bind_done (f := fun ret => do unlockMm; return ret) (P := fun _ _ => True)
      fun ret v _ hv => by
        obtain ⟨m, hv⟩ := hv
        refine (unlockMm_uses hv).bind_done fun _ w _ _ => ?_
        exact .done rfl (Keeps.refl w) trivial
    cases ok with
    | false => exact hlast
    | true => exact hlast

end Getcwd

section Syscall

variable {σ : Type} {s : Ctx σ} {mm : Mm} (F : Files σ)

/-- The bytes that `sysfile_read` and `sysfile_write` touch, from those of their loop. -/
def Files.touchedTransfer (fs : σ) (fd : ℤ) (readable writable : Bool) (len : ℕ)
    (loop : σ → List (ℕ × Bool)) : List (ℕ × Bool) :=
  if len = 0 then []
  else if !F.fileTestfd fd readable writable fs then []
  else if (F.kmalloc iobufSize fs).1 then loop (F.kmalloc iobufSize fs).2
  else []

theorem transfer_uses {loop : Program (Ctx σ) ℤ} {touched : σ → List (ℕ × Bool)} (fd : ℤ)
    (readable writable : Bool) (len : ℕ)
    (hloop : ∀ fs, (grants σ).Uses loop { s with fs := fs } (touched fs) fun _ _ => True) :
    (grants σ).Uses (do
        if len = 0 then return 0
        else if !F.fileTestfd fd readable writable (← Program.get).fs then return -eInval
        else if ← Files.call (F.kmalloc iobufSize) then loop
        else return -eNoMem) s (F.touchedTransfer s.fs fd readable writable len touched)
      fun _ _ => True := by
  unfold Files.touchedTransfer
  by_cases hz : len = 0
  · simp only [if_pos hz]
    exact .done rfl (Keeps.refl _) trivial
  · simp only [if_neg hz]
    refine get_uses.bind_nil fun a t _ ht => ?_
    obtain ⟨rfl, rfl⟩ := ht
    by_cases ht : (!F.fileTestfd fd readable writable t.fs) = true
    · simp only [if_pos ht]
      exact .done rfl (Keeps.refl _) trivial
    · simp only [if_neg ht]
      refine (call_uses _).bind_nil fun a u _ hu => ?_
      obtain ⟨rfl, rfl⟩ := hu
      by_cases hk : (F.kmalloc iobufSize t.fs).1 = true
      · simp only [if_pos hk]
        exact hloop _
      · simp only [if_neg hk]
        exact .done rfl (Keeps.refl _) trivial

/-- The accesses of a call to user memory while it holds `mm_sem`, as addresses with a flag for a
store. -/
def Files.touched (s : Ctx σ) (mm : Mm) : Call → List (ℕ × Bool)
  | .open' path _ => F.touchedPath s mm path.toNat
  | .read fd base len => F.touchedTransfer s.fs fd true false len.toNat fun fs =>
      F.touchedRead fd (len.toNat + 1) mm fs base.toNat len.toNat
  | .write fd base len => F.touchedTransfer s.fs fd false true len.toNat fun fs =>
      F.touchedWrite s fd (len.toNat + 1) mm fs base.toNat len.toNat
  | .fstat fd stat => F.touchedFstat mm s.fs fd stat.toNat
  | .getcwd buf len => F.touchedGetcwd s.fs mm buf.toNat len.toNat
  | .getdirentry fd direntp => F.touchedDirentry s mm fd direntp.toNat

theorem syscall_uses (h : Idle s mm) (c : Call) :
    (grants σ).Uses (F.syscall c) s (F.touched s mm c) fun _ _ => True := by
  cases c with
  | open' path openFlags => exact sysfileOpen_uses F h path.toNat openFlags.toNat
  | read fd base len =>
    exact transfer_uses F fd true false len.toNat fun fs => readLoop_uses F fd (h.setFs fs) _ _ _
  | write fd base len =>
    exact transfer_uses F fd false true len.toNat fun fs =>
      writeLoop_uses F fd (h.setFs fs) (rfl : _ = s.byte) _ _ _
  | fstat fd stat => exact sysfileFstat_uses F h fd stat.toNat
  | getcwd buf len => exact sysfileGetcwd_uses F h len.toNat_lt
  | getdirentry fd direntp => exact sysfileGetdirentry_uses F h fd direntp.toNat

/-- A call does not sleep on the semaphore that it holds exactly when the page table permits all its
accesses under the lock. -/
theorem no_self_deadlock_iff (h : Idle s mm) (c : Call) :
    F.syscall c s ≠ .stuck ↔ ∀ x ∈ F.touched s mm c, s.permits x.1 x.2 = true := by
  rw [ne_eq, (syscall_uses F h c).stuck_iff]
  constructor
  · intro hn x hx
    by_contra hp
    exact hn ⟨x, hx, hp⟩
  · rintro hall ⟨x, hx, hp⟩
    exact hp (hall x hx)

end Syscall

/-- A file of zeros that can be read without end. -/
def zeros : Files Unit where
  kmalloc _ _ := (true, ())
  fileTestfd _ _ _ _ := true
  fileOpen _ _ _ := (3, ())
  fileRead _ n _ := (0, List.replicate n 0, ())
  fileWrite _ l _ := (0, l.length, ())
  fileFstat _ _ := (0, List.replicate 32 0, ())
  fileGetdirentry _ _ _ := (0, List.replicate 264 0, ())
  curdir _ := none
  read_le _ _ _ := List.length_replicate.le
  stat_length _ _ := List.length_replicate
  dirent_length _ _ _ := List.length_replicate

/-- A process with one area of two pages. -/
def twoPages : Mm := ⟨[⟨0x200000, 0x202000, vmRead ||| vmWrite⟩], none, 1⟩

def untouched : Ctx Unit where
  mem := (fourPages.setupPgdir bootPageTable).2
  mm := some twoPages
  mmSem := 1
  kmem _ := 0
  fs := ()

theorem untouched_idle : Idle untouched twoPages := by
  have hs : Start fourPages := fun _ _ => rfl
  have hrun : Runs Step (fourPages, .empty) [(.setupPgdir, .page (some 1))]
      (untouched.mem, Spaces.empty.apply .setupPgdir (.page (some 1))) :=
    .cons (t := (_, _)) ⟨trivial, rfl, rfl⟩ (.nil _)
  obtain ⟨R, D, h⟩ := hs.agrees.run hrun
  exact ⟨⟨rfl, by decide, R, D, h.inv, (h.dirs 1).mp (.inl rfl)⟩, rfl⟩

/-- A read into the untouched page passes `user_mem_check` and never returns. -/
theorem read_untouched_deadlocks : Idle untouched twoPages ∧
    (checkAreas twoPages 0x200000 1 true).map Prod.fst = some true ∧
    zeros.syscall (.read 3 0x200000 1) untouched = .stuck := by
  refine ⟨untouched_idle, by decide +kernel, ?_⟩
  rw [(syscall_uses zeros untouched_idle (.read 3 0x200000 1)).stuck_iff]
  have htouched : zeros.touched untouched twoPages (.read 3 0x200000 1) = [(0x200000, true)] := by
    decide +kernel
  have hpermits : untouched.permits 0x200000 true = false := by decide +kernel
  rw [htouched]
  refine ⟨_, List.mem_singleton_self _, ?_⟩
  simp [grants, hpermits]

def firstMapped : Ctx Unit :=
  { untouched with
    mem := (untouched.mem.allocPage.2.pageInsert 1 2 0x200000 (pteU ||| pteR ||| pteW)).2 }

theorem firstMapped_idle : Idle firstMapped twoPages := by
  have hs : Start fourPages := fun _ _ => rfl
  let calls : List (Op × Result) := [(.setupPgdir, .page (some 1)), (.allocPage, .page (some 2)),
    (.pageInsert 1 2 0x200000 (pteU ||| pteR ||| pteW), .ret 0)]
  have hok : (calls.take 2).foldl (fun a x => a.apply x.1 x.2) Spaces.empty
      |>.admits (.pageInsert 1 2 0x200000 (pteU ||| pteR ||| pteW)) :=
    ⟨.inl rfl, .inl rfl, by decide, by decide, by decide⟩
  have hrun : Runs Step (fourPages, .empty) calls
      (firstMapped.mem, calls.foldl (fun a x => a.apply x.1 x.2) Spaces.empty) :=
    .cons (t := (_, _)) ⟨trivial, rfl, rfl⟩ (.cons (t := (_, _)) ⟨trivial, rfl, rfl⟩
      (.cons (t := (_, _)) ⟨hok, rfl, rfl⟩ (.nil _)))
  obtain ⟨R, D, h⟩ := hs.agrees.run hrun
  exact ⟨⟨rfl, by decide, R, D, h.inv, (h.dirs 1).mp (.inl rfl)⟩, rfl⟩

theorem no_self_deadlock_iff_firstMapped :
    zeros.syscall (.read 3 0x200000 1) firstMapped ≠ .stuck := by
  refine (no_self_deadlock_iff zeros firstMapped_idle (.read 3 0x200000 1)).mpr ?_
  have htouched : zeros.touched firstMapped twoPages (.read 3 0x200000 1) = [(0x200000, true)] := by
    decide +kernel
  have hpermits : firstMapped.permits 0x200000 true = true := by decide +kernel
  rw [htouched]
  simp [hpermits]

end UCore.UserMem

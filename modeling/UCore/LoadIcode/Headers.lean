import UCore.LoadIcode.Stack
import UCore.Vmm.Map

/-! # The loop over the program headers

After some headers their segments are in place, except for pages that a later segment maps again:
`mm_map` keeps the areas apart, but not the pages of a segment whose end wraps around.
-/

namespace UCore.LoadIcode

open Library PageTable Cow Fork UserMem Vmm

/-- Program header `i` of a file. -/
def headerAt (bytes : List UInt8) (phoff : ℤ) (i : ℕ) : Proghdr :=
  .ofBytes (bytesAt bytes (Sfs.offT (phoff + i * sizeofProghdr)).toNat sizeofProghdr)

def IsLoad (bytes : List UInt8) (phoff : ℤ) (i : ℕ) : Prop :=
  (headerAt bytes phoff i).pType = elfPtLoad

instance (bytes : List UInt8) (phoff : ℤ) (i : ℕ) : Decidable (IsLoad bytes phoff i) :=
  inferInstanceAs (Decidable (_ = _))

def Proghdr.vma (ph : Proghdr) : Vma := ⟨mapStart ph.pVa, mapEnd ph.pVa ph.pMemsz, ph.vmFlags⟩

/-- The page numbers of a segment. -/
def Proghdr.pages (ph : Proghdr) : List ℕ :=
  if ph.size = 0 then []
  else pageRange ph.pVa.toNat (ph.pVa.toNat + ph.size + (pgsize - 1))

/-- The pages of the first `n` headers. -/
def pageLog (bytes : List UInt8) (phoff : ℤ) (n : ℕ) : List (ℕ × ℕ) :=
  (List.range n).flatMap fun i =>
    if IsLoad bytes phoff i then (headerAt bytes phoff i).pages.map fun v => (i, v * pgsize) else []

section Pages

variable {ph : Proghdr} {la v : ℕ}

theorem Pos.pages (h : Pos ph (ph.pVa.toNat + ph.size) la) :
    pageRange ph.pVa.toNat la = ph.pages := by
  unfold Proghdr.pages
  rcases h.cases with ⟨h₁, rfl⟩ | ⟨h₁, h₂, h₃⟩
  · rw [if_pos (by omega), pageRange, Nat.mul_div_cancel _ (by decide), Nat.sub_self]
    rfl
  · have hal := h.aligned
    rw [if_neg (by omega), pageRange, pageRange]
    congr 2
    unfold pgsize at *
    omega

theorem mem_pages : v ∈ ph.pages ↔ ph.pVa.toNat / pgsize ≤ v ∧ v * pgsize < ph.pVa.toNat + ph.size ∧
    0 < ph.size := by
  unfold Proghdr.pages
  split
  · simp
    omega
  · rw [mem_pageRange]
    unfold pgsize
    omega

theorem pages_inside (hno : ph.pVa.toNat + ph.pMemsz.toNat < 2 ^ 64)
    (hu : userAccess (mapStart ph.pVa) (mapEnd ph.pVa ph.pMemsz)) (hv : v ∈ ph.pages) :
    ph.vma.vmStart ≤ v * pgsize ∧ v * pgsize + pgsize ≤ ph.vma.vmEnd := by
  obtain ⟨h₁, h₂, -⟩ := mem_pages.mp hv
  have hend := (mapEnd_of_lt hno hu).1
  rw [Proghdr.size, if_pos hno] at h₂
  have hal : mapEnd ph.pVa ph.pMemsz % pgsize = 0 := by
    unfold mapEnd roundup rounddown pgsize
    omega
  change mapStart ph.pVa ≤ _ ∧ _ ≤ mapEnd ph.pVa ph.pMemsz
  unfold mapStart rounddown pgsize at *
  omega

theorem accepted_of_user (hsizes : ¬ ph.pFilesz > ph.pMemsz)
    (hu : userAccess (mapStart ph.pVa) (mapEnd ph.pVa ph.pMemsz)) : Accepted ph := by
  obtain ⟨-, h₂, h₃⟩ := id hu
  refine ⟨?_, ?_, fun hno => (mapEnd_of_lt hno hu).1.trans h₃⟩
  · rw [gt_iff_lt, UInt64.lt_iff_toNat_lt] at hsizes
    omega
  · have hal : usertop % pgsize = 0 := by decide
    unfold mapStart rounddown pgsize at *
    omega

end Pages

/-! ## `mm_map` -/

section Map

variable {d flags : ℕ} {addr len : UInt64} {s t : Loader}

theorem mmMap_pgdir {m m' : MmStruct} {o : Option Vma} {ret : ℤ} {memory : Bool}
    (h : Vmm.mmMap m addr len flags memory = some (ret, o, m')) : m'.mm.pgdir = m.mm.pgdir := by
  have hfind : (m.mm.findVma (mapStart addr)).2.pgdir = m.mm.pgdir := by
    unfold Mm.findVma
    split
    · rfl
    · split <;> rfl
  have hinsert : ∀ mm : MmStruct, mm.mm.pgdir = m.mm.pgdir →
      mapInsert mm (mapStart addr) (mapEnd addr len) flags memory = some (ret, o, m') →
      m'.mm.pgdir = m.mm.pgdir := by
    intro mm hmm hi
    unfold mapInsert at hi
    split at hi
    · obtain ⟨l, -, hl⟩ := Option.map_eq_some_iff.mp hi
      obtain ⟨-, -, rfl⟩ : (0 : ℤ) = ret ∧ _ = o ∧ _ = m' := by
        simpa only [Prod.mk.injEq] using hl
      exact hmm
    · obtain ⟨-, -, rfl⟩ : -eNoMem = ret ∧ none = o ∧ mm = m' := by
        simpa only [Option.some.injEq, Prod.mk.injEq] using hi
      exact hmm
  unfold Vmm.mmMap at h
  generalize m.mm.findVma (mapStart addr) = r at h hfind
  obtain ⟨_ | vma, mm'⟩ := r
  · split at h
    · exact hinsert _ hfind h
    · obtain ⟨-, -, rfl⟩ : -eInval = ret ∧ none = o ∧ m = m' := by
        simpa only [Option.some.injEq, Prod.mk.injEq] using h
      rfl
  · split at h
    · dsimp only at h
      split at h
      · obtain ⟨-, -, rfl⟩ : -eInval = ret ∧ none = o ∧ _ = m' := by
          simpa only [Option.some.injEq, Prod.mk.injEq] using h
        exact hfind
      · exact hinsert _ hfind h
    · obtain ⟨-, -, rfl⟩ : -eInval = ret ∧ none = o ∧ m = m' := by
        simpa only [Option.some.injEq, Prod.mk.injEq] using h
      rfl

theorem areas_ok (h : ∀ vma ∈ s.mm.mm.mmapList, vma.Ok)
    (hu : userAccess (mapStart addr) (mapEnd addr len)) {vma : Vma}
    (hv : vma ∈ (⟨mapStart addr, mapEnd addr len, flags⟩ :: s.mm.mm.mmapList)) : vma.Ok := by
  rcases List.mem_cons.mp hv with rfl | hv
  · refine ⟨?_, ?_, hu⟩
    · change mapStart addr % pgsize = 0
      unfold mapStart rounddown pgsize
      omega
    · change mapEnd addr len % pgsize = 0
      unfold mapEnd roundup rounddown pgsize
      omega
  · exact h vma hv

/-- What `mm_map` leaves when it returns 0. -/
structure Mapped (addr len : UInt64) (flags : ℕ) (s t : Loader) : Prop where
  user : userAccess (mapStart addr) (mapEnd addr len)
  apart : ¬ Overlaps s.mm addr len
  inserted : Inserted s.mm ⟨mapStart addr, mapEnd addr len, flags⟩ t.mm
  pgdir : t.mm.mm.pgdir = s.mm.mm.pgdir
  mem : t.mem = s.mem
  file : t.file = s.file
  mapped : t.mapped = s.mapped

theorem mmMap_wp (h : Areas s.mm.mm) : Code.Wp (mmMap addr len flags) s (fun e => e = .mmMap)
    fun ret t => ret = 0 → Mapped addr len flags s t := by
  unfold mmMap
  refine ((kmalloc_wp s).mono (fun _ he => he.elim) fun _ _ hk =>
    hk).bind fun memory t ⟨hb, hf⟩ => ?_
  unfold Code.Wp
  dsimp only
  rw [hb.mm]
  rcases hm : Vmm.mmMap s.mm addr len flags memory with _ | ⟨ret, o, mm⟩
  · rfl
  · dsimp only
    rintro rfl
    obtain ⟨h₁, h₂, -, -, h₃⟩ := mmMap_zero h hm
    exact ⟨h₁, h₂, h₃, mmMap_pgdir hm, hb.mem, hf, hb.mapped⟩

end Map

/-! ## The segments in place -/

section Sections

variable {d n : ℕ} {bytes : List UInt8} {phoff : ℤ} {s t u : Loader}

/-- The segments of the first `n` headers are in place. -/
structure Sections (bytes : List UInt8) (phoff : ℤ) (d n : ℕ) (t : Loader) : Prop where
  ready : Ready d t
  areas : Areas t.mm.mm
  file : t.file.bytes = bytes
  vma : ∀ i < n, IsLoad bytes phoff i → (headerAt bytes phoff i).vma ∈ t.mm.mm.mmapList ∧
    userAccess (headerAt bytes phoff i).vma.vmStart (headerAt bytes phoff i).vma.vmEnd
  accepted : ∀ i < n, IsLoad bytes phoff i → Accepted (headerAt bytes phoff i)
  apart : ∀ j < n, ∀ i < j, IsLoad bytes phoff i → IsLoad bytes phoff j →
    ¬ Meets Vma.vmStart Vma.vmEnd (headerAt bytes phoff j).vma.vmStart
      (headerAt bytes phoff j).vma.vmEnd (headerAt bytes phoff i).vma
  mapped : t.mapped = pageLog bytes phoff n
  only : ∀ v < reach, (view t.mem d v).isSome = true → ∃ i < n, IsLoad bytes phoff i ∧
    v ∈ (headerAt bytes phoff i).pages
  data : ∀ i < n, IsLoad bytes phoff i → ∀ a,
    (headerAt bytes phoff i).pVa.toNat + (headerAt bytes phoff i).pMemsz.toNat < 2 ^ 64 →
    (headerAt bytes phoff i).pVa.toNat ≤ a →
    a < (headerAt bytes phoff i).pVa.toNat + (headerAt bytes phoff i).pMemsz.toNat →
    (∀ j < n, i < j → IsLoad bytes phoff j → a / pgsize ∉ (headerAt bytes phoff j).pages) →
    ∃ b, userByte d t.mem a = some b ∧ (headerAt bytes phoff i).byte bytes a = some b

theorem pageLog_succ : pageLog bytes phoff (n + 1) = pageLog bytes phoff n ++
    if IsLoad bytes phoff n then (headerAt bytes phoff n).pages.map fun v => (n, v * pgsize)
    else [] := by
  rw [pageLog, List.range_succ, List.flatMap_append, List.flatMap_singleton]
  rfl

theorem Sections.beside (h : Sections bytes phoff d n s) (hb : Beside s t)
    (hbytes : t.file.bytes = bytes) : Sections bytes phoff d n t := by
  obtain ⟨hmem, hmm, -, hmapped⟩ := hb
  obtain ⟨⟨h₁, h₂, h₃⟩, h₄, -, h₅, h₆, h₇, h₈, h₉, h₁₀⟩ := h
  rw [← hmem] at h₁ h₉ h₁₀
  rw [← hmm] at h₂ h₃ h₄ h₅
  exact ⟨⟨h₁, h₂, h₃⟩, h₄, hbytes, h₅, h₆, h₇, hmapped.trans h₈, h₉, h₁₀⟩

theorem Sections.skip (h : Sections bytes phoff d n s) (hn : ¬ IsLoad bytes phoff n) :
    Sections bytes phoff d (n + 1) s := by
  have hlt : ∀ i < n + 1, IsLoad bytes phoff i → i < n := by
    intro i hi hl
    rcases Nat.lt_succ_iff_lt_or_eq.mp hi with hi | rfl
    · exact hi
    · exact absurd hl hn
  refine ⟨h.ready, h.areas, h.file, fun i hi hl => h.vma i (hlt i hi hl) hl,
    fun i hi hl => h.accepted i (hlt i hi hl) hl,
    fun j hj i hij hi hl => h.apart j (hlt j hj hl) i hij hi hl, ?_, fun v hv hs => ?_,
    fun i hi hl a h₁ h₂ h₃ hno => ?_⟩
  · rw [pageLog_succ, if_neg hn, List.append_nil, h.mapped]
  · obtain ⟨i, hi, hl, hp⟩ := h.only v hv hs
    exact ⟨i, by omega, hl, hp⟩
  · exact h.data i (hlt i hi hl) hl a h₁ h₂ h₃ fun j hj => hno j (by omega)

/-- A further segment. -/
theorem Sections.load (h : Sections bytes phoff d n s) (hl : IsLoad bytes phoff n)
    (hm : Mapped (headerAt bytes phoff n).pVa (headerAt bytes phoff n).pMemsz
      (headerAt bytes phoff n).vmFlags s t)
    (ha : Accepted (headerAt bytes phoff n)) (hp : Loaded d n (headerAt bytes phoff n) t u) :
    Sections bytes phoff d (n + 1) u := by
  obtain ⟨la, hpos, hf⟩ := hp
  have hbytes : t.file.bytes = bytes := by rw [hm.file, h.file]
  have hpages := hpos.pages
  have hlist : u.mm.mm.mmapList.Perm ((headerAt bytes phoff n).vma :: s.mm.mm.mmapList) := by
    rw [hf.mm]
    exact hm.inserted.list
  have hareas : Areas u.mm.mm := by
    rw [hf.mm]
    exact hm.inserted.areas
  have hother : ∀ v < reach, v ∉ (headerAt bytes phoff n).pages →
      view u.mem d v = view s.mem d v := by
    intro v hv hn
    rw [hf.other v hv (by rwa [hpages]), hm.mem]
  have hcases : ∀ i < n + 1, i = n ∨ i < n := fun i hi => by omega
  constructor
  case ready =>
    refine ⟨hf.held, ?_, ?_, hareas.cache⟩
    · rw [hf.mm, hm.pgdir, h.ready.pgdir]
    · exact fun vma hv => areas_ok h.ready.ok.vmas hm.user (hlist.mem_iff.mp hv)
  case areas => exact hareas
  case file => exact hf.bytes.trans hbytes
  case vma =>
    intro i hi hl'
    rcases hcases i hi with rfl | hi
    · exact ⟨hlist.mem_iff.mpr List.mem_cons_self, hm.user⟩
    · obtain ⟨h₁, h₂⟩ := h.vma i hi hl'
      exact ⟨hlist.mem_iff.mpr (List.mem_cons_of_mem _ h₁), h₂⟩
  case accepted =>
    intro i hi hl'
    rcases hcases i hi with rfl | hi
    · exact ha
    · exact h.accepted i hi hl'
  case apart =>
    intro j hj i hij hi hl'
    rcases hcases j hj with rfl | hj
    · exact fun hmeets => hm.apart ⟨_, (h.vma i hij hi).1, hmeets⟩
    · exact h.apart j hj i hij hi hl'
  case mapped => rw [pageLog_succ, if_pos hl, hf.mapped, hpages, hm.mapped, h.mapped]
  case only =>
    intro v hv hs
    by_cases hin : v ∈ (headerAt bytes phoff n).pages
    · exact ⟨n, Nat.lt_succ_self n, hl, hin⟩
    · rw [hother v hv hin] at hs
      obtain ⟨i, hi, hl', hp⟩ := h.only v hv hs
      exact ⟨i, by omega, hl', hp⟩
  case data =>
    intro i hi hl' a hno h₁ h₂ hlater
    rcases hcases i hi with rfl | hi
    · obtain ⟨f, hv, hb⟩ := hf.data a h₁ (by rwa [Proghdr.size, if_pos hno])
      rw [hbytes] at hb
      exact ⟨loadByte f (a % pgsize), by rw [userByte, hv, Option.map_some], hb.symm⟩
    · have hn := hlater n (Nat.lt_succ_self n) hi hl
      have hreach : a / pgsize < reach :=
        reach_of_lt (h₂.trans_le ((h.accepted i hi hl').stop hno))
      rw [userByte, hother _ hreach hn]
      exact h.data i hi hl' a hno h₁ h₂ fun j hj => hlater j (by omega)

/-- No assertion after the rest of a page fails. -/
def NotBss (e : Panic) : Prop := ∀ ph, e ≠ .bss ph

theorem loadSegment_wp (h : Sections bytes phoff d n s) (hl : IsLoad bytes phoff n)
    (page : Option ℕ) : Code.Wp (loadSegment n (headerAt bytes phoff n) page) s NotBss fun r t =>
      match r with
      | .inl ret => ret ≠ 0
      | .inr _ => Sections bytes phoff d (n + 1) t := by
  unfold loadSegment
  split
  · exact .pure (by decide : -eInvalElf ≠ 0)
  · rename_i hsizes
    refine ((mmMap_wp h.areas).mono (fun _ he ph => ?_) fun _ _ hm => hm).bind fun ret t hm => ?_
    · rw [he]
      exact Panic.noConfusion
    · split
      · rename_i hret
        exact hret
      · rename_i hret
        have hm := hm (not_not.mp hret)
        have ha := accepted_of_user hsizes hm.user
        have hheld : Held d t.mem := by
          rw [hm.mem]
          exact h.ready.held
        refine (loadPages_wp (i := n) hheld (hm.pgdir.trans h.ready.pgdir) ha page).mono
          (fun _ he ph => ?_) ?_
        · rcases he.1 with rfl | rfl <;> exact Panic.noConfusion
        · rintro (ret | page) u hr
          · exact hr
          · exact h.load hl hm ha hr

theorem loadHeaders_wp (k : ℕ) : ∀ (n : ℕ) (page : Option ℕ) (s : Loader),
    Sections bytes phoff d n s → Code.Wp (loadHeaders phoff k n page) s NotBss fun r t =>
      match r with
      | .inl ret => ret ≠ 0
      | .inr _ => Sections bytes phoff d (n + k) t := by
  induction k with
  | zero => exact fun n page s h => h
  | succ k ih =>
    intro n page s h
    unfold loadHeaders
    refine ((sysfileSeek_wp _ s).mono (fun _ he => he.elim) fun _ _ hs =>
      hs).bind fun ret t hs => ?_
    split
    · rename_i hret
      exact hret
    · rename_i hret
      have hs := hs (not_not.mp hret)
      refine ((sysfileRead_wp sizeofProghdr t).mono (fun _ he => he.elim) fun _ _ hr => hr).bind ?_
      rintro ⟨ret, data⟩ u ⟨-, hgot, hall⟩
      dsimp only at hgot hall ⊢
      split
      · exact .pure (by decide : -eInvalElf ≠ 0)
      · rename_i hread
        have hlen := hall (not_not.mp hread) (by decide)
        obtain ⟨hb, hbytes, hdata⟩ := hs.read hgot (by
          rintro rfl
          exact absurd hlen (by decide))
        rw [h.file, hlen] at hdata
        have hph : Proghdr.ofBytes data = headerAt bytes phoff n := congrArg Proghdr.ofBytes hdata
        rw [hph]
        have hu := h.beside hb (hbytes.trans h.file)
        have hnext := ih (n + 1)
        rw [Nat.add_right_comm, Nat.add_assoc] at hnext
        split
        · rename_i htype
          exact hnext page u (hu.skip htype)
        · rename_i htype
          refine (loadSegment_wp hu (not_not.mp htype) page).bind ?_
          rintro (ret | page) v hr
          · exact hr
          · exact hnext page v hr

end Sections

/-! ## The whole run -/

section Run

variable {d n : ℕ} {R : ℕ → Role} {D : Finset ℕ} {s t u : Loader}

theorem OnStack.trans (h : OnStack d s t) (h' : OnStack d t u) : OnStack d s u where
  still := h.still.trans h'.still
  ready := h'.ready
  other v hv hn := (h'.other v hv hn).trans (h.other v hv hn)

theorem stackPage_wp {k : UInt64} (h : Ready d s)
    (hlow : stackBase ≤ (ustacktop - k * pageSize).toNat)
    (hhigh : (ustacktop - k * pageSize).toNat < usertop) :
    Code.Wp (stackPage k) s NotBss fun _ t => OnStack d s t := by
  unfold stackPage
  refine ((pgdirAllocPage_wp h.held h.pgdir (hhigh.trans (by decide)) (by decide : pteUser < 1024)
    (by decide)).mono (fun _ he => absurd hhigh (Nat.not_lt.mpr he.2)) fun _ _ ho => ho).bind ?_
  rintro o t ⟨⟨m, rfl⟩, ho⟩
  refine .assert (fun hsome => ?_) fun _ ph => Panic.noConfusion
  obtain ⟨q, rfl⟩ := Option.isSome_iff_exists.mp hsome
  obtain ⟨-, -, f, hshows⟩ := ho q rfl
  refine ⟨⟨rfl, rfl, rfl, rfl⟩, ⟨hshows.1, h.pgdir, h.ok⟩, fun v hv hn => ?_⟩
  rw [hshows.2 v hv, Function.update_of_ne]
  rintro rfl
  exact hn ⟨Nat.div_le_div_right hlow, by unfold usertop pgsize at *; omega⟩

/-- The area of the stack is added. -/
structure WithStack (d : ℕ) (s t : Loader) : Prop where
  apart : ∀ vma ∈ s.mm.mm.mmapList, ¬ Meets Vma.vmStart Vma.vmEnd stackBase usertop vma
  list : ∀ vma ∈ s.mm.mm.mmapList, vma ∈ t.mm.mm.mmapList
  file : t.file = s.file
  mapped : t.mapped = s.mapped
  ready : Ready d t
  other : ∀ v < reach, ¬ (stackBase / pgsize ≤ v ∧ v < usertop / pgsize) →
    view t.mem d v = view s.mem d v

theorem WithStack.trans (h : WithStack d s t) (h' : OnStack d t u) : WithStack d s u where
  apart := h.apart
  list vma hv := by
    rw [h'.still.list]
    exact h.list vma hv
  file := h'.still.file.trans h.file
  mapped := h'.still.mapped.trans h.mapped
  ready := h'.ready
  other v hv hn := (h'.other v hv hn).trans (h.other v hv hn)

theorem buildStack_wp (h : Ready d s) (hareas : Areas s.mm.mm) :
    Code.Wp buildStack s NotBss fun r t =>
      match r with
      | .inl ret => ret ≠ 0
      | .inr _ => WithStack d s t := by
  have hstart : mapStart (ustacktop - ustacksize) = stackBase := by decide
  have hend : mapEnd (ustacktop - ustacksize) ustacksize = usertop := by decide
  unfold buildStack
  refine ((mmMap_wp hareas).mono (fun _ he ph => ?_) fun _ _ hm => hm).bind fun ret t hm => ?_
  · rw [he]
    exact Panic.noConfusion
  · split
    · rename_i hret
      exact hret
    · rename_i hret
      obtain ⟨huser, hapart, hins, hpgdir, hmem, hfile, hmapped⟩ := hm (not_not.mp hret)
      have hw : WithStack d s t := by
        refine ⟨fun vma hv hmeets => ?_, fun vma hv => ?_, hfile, hmapped, ⟨?_, ?_, ?_, ?_⟩, ?_⟩
        · rw [← hstart, ← hend] at hmeets
          exact hapart ⟨vma, hv, hmeets⟩
        · exact hins.list.mem_iff.mpr (List.mem_cons_of_mem _ hv)
        · rw [hmem]
          exact h.held
        · rw [hpgdir, h.pgdir]
        · exact fun vma hv => areas_ok h.ok.vmas huser (hins.list.mem_iff.mp hv)
        · exact hins.areas.cache
        · intro v _ _
          rw [hmem]
      refine (stackPage_wp hw.ready (by decide) (by decide)).bind fun _ t₁ h₁ => ?_
      refine (stackPage_wp h₁.ready (by decide) (by decide)).bind fun _ t₂ h₂ => ?_
      refine (stackPage_wp h₂.ready (by decide) (by decide)).bind fun _ t₃ h₃ => ?_
      refine (stackPage_wp h₃.ready (by decide) (by decide)).bind fun _ t₄ h₄ => ?_
      exact hw.trans (((h₁.trans h₂).trans h₃).trans h₄)

/-- The ELF header of a file that is about to be read. -/
def File.elf (f : File) : Elfhdr := .ofBytes (bytesAt f.bytes f.pos sizeofElfhdr)

def File.phoff (f : File) : ℤ := Sfs.offT f.elf.ePhoff.toNat

/-- What a run leaves that returns 0. -/
structure Ran (f : File) (args : ExecArgs) (t : Loader) : Prop where
  image : ∃ u, Sections f.bytes f.phoff t.mm.mm.pgdir f.elf.ePhnum u ∧
    WithStack t.mm.mm.pgdir u t
  args : ∃ argv, Passed t.mm.mm.pgdir args.kargv argv t

theorem badElf_wp (ret : ℤ) (s : Loader) : Code.Wp (badElf ret) s NotBss fun r _ => r = ret := rfl

theorem badMmap_wp (ret : ℤ) (s : Loader) : Code.Wp (badMmap ret) s NotBss fun r _ => r = ret := by
  unfold badMmap
  refine Code.Wp.bind (Q := fun _ _ => True) ?_ fun _ t _ => badElf_wp ret t
  unfold Code.Wp
  dsimp only
  rcases s.mem.exitMmap s.mm.mm with _ | m
  · exact fun ph => Panic.noConfusion
  · trivial

theorem loadElf_wp (args : ExecArgs)
    (h : ∀ f : File, Sections s.file.bytes f.phoff d 0 s) :
    Code.Wp (loadElf args.kargv) s NotBss fun ret t => ret = 0 → Ran s.file args t := by
  have hbad : ∀ ret : ℤ, ret ≠ 0 → ∀ (r : ℤ) (t : Loader), r = ret → r = 0 → Ran s.file args t :=
    fun ret hret r t hr h₀ => absurd (hr.symm.trans h₀) hret
  unfold loadElf
  refine ((sysfileRead_wp sizeofElfhdr s).mono (fun _ he => he.elim) fun _ _ hr => hr).bind ?_
  rintro ⟨ret, data⟩ t ⟨-, hgot, hall⟩
  dsimp only at hgot hall ⊢
  split
  · exact (badElf_wp _ t).mono (fun _ he => he) (hbad _ (by decide))
  · rename_i hread
    have hlen := hall (not_not.mp hread) (by decide)
    have hdata := hgot.data
    rw [hlen] at hdata
    have helf : Elfhdr.ofBytes data = s.file.elf := congrArg Elfhdr.ofBytes hdata
    rw [helf]
    split
    · exact (badElf_wp _ t).mono (fun _ he => he) (hbad _ (by decide))
    · refine (loadHeaders_wp s.file.elf.ePhnum 0 none t
        ((h s.file).beside hgot.beside hgot.bytes)).bind ?_
      rintro (ret | _) u hu
      · exact (badMmap_wp ret u).mono (fun _ he => he) (hbad ret hu)
      · dsimp only at hu ⊢
        rw [Nat.zero_add] at hu
        refine (buildStack_wp hu.ready hu.areas).bind ?_
        rintro (ret | _) v hv
        · exact (badMmap_wp ret v).mono (fun _ he => he) (hbad ret hv)
        · refine .bind_modify ?_
          have hready : Ready d { v with hasMm := true } :=
            ⟨hv.ready.held, hv.ready.pgdir, hv.ready.ok⟩
          refine ((setupArgs_wp args s.file.elf.eEntry hready).mono (fun e he ph => ?_)
            fun _ _ hs => hs).bind fun _ w hw => ?_
          · rcases he with rfl | ⟨a, rfl⟩
            · exact Panic.noConfusion
            · exact Panic.noConfusion
          · obtain ⟨⟨hstill, hr, hother⟩, argv, hpassed⟩ := hw
            have hon : OnStack d v w :=
              ⟨⟨hstill.list, hstill.pgdir, hstill.file, hstill.mapped⟩, hr, hother⟩
            refine .pure fun _ => ?_
            obtain rfl := hr.pgdir
            exact ⟨⟨u, hu, hv.trans hon⟩, argv, hpassed⟩

theorem loadIcode_wp (args : ExecArgs) (c : CowInv s.mem R D) :
    Code.Wp (loadIcode args.kargv) s NotBss fun ret t => ret = 0 → Ran s.file args t := by
  have hno : -eNoMem ≠ 0 := by decide
  unfold loadIcode
  refine .bind_assert (fun _ => ?_) fun _ ph => Panic.noConfusion
  refine ((kmalloc_wp s).mono (fun _ he => he.elim) fun _ _ hk => hk).bind ?_
  rintro (_ | _) t ⟨hb, hf⟩
  · exact .pure fun h₀ => absurd h₀ hno
  · refine .bind_modify ?_
    have hc : CowInv t.mem R D := by
      rw [hb.mem]
      exact c
    have hfinish : ∀ m q, t.mem.setupPgdir PageTable.bootPageTable = (some q, m) →
        Code.Wp (loadElf args.kargv) { t with mem := m, mm := ⟨⟨[], none, q⟩, 0⟩, mapped := [] }
          NotBss fun ret u => ret = 0 → Ran s.file args u := by
      intro m q hq
      have hshows := held_setupPgdir hc hq
      rw [← hf]
      refine loadElf_wp args (d := q) fun f => ?_
      refine ⟨⟨hshows.1, rfl, by simp, by simp⟩, ⟨.nil, by simp⟩, rfl,
        fun i hi => absurd hi (Nat.not_lt_zero i), fun i hi => absurd hi (Nat.not_lt_zero i),
        fun j hj => absurd hj (Nat.not_lt_zero j), rfl, fun v hv hs => ?_,
        fun i hi => absurd hi (Nat.not_lt_zero i)⟩
      rw [hshows.2 v hv] at hs
      cases hs
    refine Code.Wp.bind (Q := fun b u => if b then ∃ m q,
      t.mem.setupPgdir PageTable.bootPageTable = (some q, m) ∧
        u = { t with mem := m, mm := ⟨⟨[], none, q⟩, 0⟩, mapped := [] } else True) ?_ ?_
    · unfold setupPgdir Code.Wp
      dsimp only
      rcases hq : t.mem.setupPgdir PageTable.bootPageTable with ⟨_ | q, m⟩
      · trivial
      · exact ⟨m, q, rfl, rfl⟩
    · rintro (_ | _) u hu
      · exact .pure fun h₀ => absurd h₀ hno
      · obtain ⟨m, q, hq, rfl⟩ := hu
        exact hfinish m q hq

end Run

end UCore.LoadIcode

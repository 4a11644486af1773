import UCore.Cow.Safety
import UCore.LoadIcode.Headers

/-! # The image of a program

What `load_icode` leaves of the segments. The areas keep segments apart whose ends do not wrap
around; the pages of the others are mapped without regard to their area.
-/

namespace UCore.LoadIcode

open Library PageTable Cow Fork UserMem Vmm

def File.header (f : File) (i : ℕ) : Proghdr := headerAt f.bytes f.phoff i

/-- Header `i` is a `PT_LOAD` header. -/
def File.Loads (f : File) (i : ℕ) : Prop := i < f.elf.ePhnum ∧ IsLoad f.bytes f.phoff i

instance (f : File) (i : ℕ) : Decidable (f.Loads i) := inferInstanceAs (Decidable (_ ∧ _))

/-- `p_va + p_memsz` exceeds the address space. -/
def Proghdr.Wraps (ph : Proghdr) : Prop := 2 ^ 64 < ph.pVa.toNat + ph.pMemsz.toNat

instance (ph : Proghdr) : Decidable ph.Wraps := inferInstanceAs (Decidable (_ < _))

/-- The segments are in memory, each in its area, and no page twice. -/
structure Image (f : File) (t : Loader) : Prop where
  file : ∀ i, f.Loads i → ¬ (f.header i).Wraps → ∀ k < (f.header i).pFilesz.toNat,
    ∃ b, f.bytes[(f.header i).pOffset.toNat + k]? = some b ∧
      userByte t.mm.mm.pgdir t.mem ((f.header i).pVa.toNat + k) = some b.toNat
  zero : ∀ i, f.Loads i → ¬ (f.header i).Wraps → ∀ a,
    (f.header i).pVa.toNat + (f.header i).pFilesz.toNat ≤ a →
    a < (f.header i).pVa.toNat + (f.header i).pMemsz.toNat →
    userByte t.mm.mm.pgdir t.mem a = some 0
  inside : ∀ i, f.Loads i → ¬ (f.header i).Wraps → (f.header i).vma ∈ t.mm.mm.mmapList ∧
    ∀ la, (i, la) ∈ t.mapped → (f.header i).vma.vmStart ≤ la ∧ la + pgsize ≤ (f.header i).vma.vmEnd
  once : (t.mapped.map Prod.snd).Nodup
  all : ∀ v < usertop / pgsize, (view t.mem t.mm.mm.pgdir v).isSome = true →
    v * pgsize ∈ t.mapped.map Prod.snd ∨ stackBase ≤ v * pgsize

/-- A segment whose end wraps around has bytes of the file in a page of another segment. -/
def Clash (f : File) : Prop :=
  ∃ i j, i ≠ j ∧ f.Loads i ∧ f.Loads j ∧ (f.header i).Wraps ∧
    ∃ v, v ∈ (f.header i).pages ∧ v ∈ (f.header j).pages

section Clash

variable {f : File} {d i j v : ℕ} {s t u : Loader}

theorem mem_pageLog {bytes : List UInt8} {phoff : ℤ} {n la : ℕ} : (i, la) ∈ pageLog bytes phoff n ↔
    i < n ∧ IsLoad bytes phoff i ∧ ∃ v ∈ (headerAt bytes phoff i).pages, v * pgsize = la := by
  rw [pageLog, List.mem_flatMap]
  constructor
  · rintro ⟨j, hj, hx⟩
    split at hx
    · rename_i hl
      obtain ⟨v, hv, hvx⟩ := List.mem_map.mp hx
      obtain ⟨rfl, rfl⟩ := Prod.mk.inj hvx
      exact ⟨List.mem_range.mp hj, hl, v, hv, rfl⟩
    · cases hx
  · rintro ⟨hi, hl, v, hv, rfl⟩
    refine ⟨i, List.mem_range.mpr hi, ?_⟩
    rw [if_pos hl]
    exact List.mem_map_of_mem hv

theorem snd_pageLog (bytes : List UInt8) (phoff : ℤ) (n : ℕ) :
    (pageLog bytes phoff n).map Prod.snd = (List.range n).flatMap fun i =>
      if IsLoad bytes phoff i then (headerAt bytes phoff i).pages.map fun v => v * pgsize
      else [] := by
  rw [pageLog, List.map_flatMap]
  congr 1
  funext i
  split
  · rw [List.map_map]
    rfl
  · rfl

theorem nodup_pages (ph : Proghdr) : (ph.pages.map fun v => v * pgsize).Nodup := by
  refine List.Nodup.map (fun v w h => Nat.eq_of_mul_eq_mul_right (by decide) h) ?_
  unfold Proghdr.pages pageRange
  split
  · exact List.nodup_nil
  · exact List.nodup_range'

theorem nodup_log_iff : ((pageLog f.bytes f.phoff f.elf.ePhnum).map Prod.snd).Nodup ↔
    ∀ i, f.Loads i → ∀ j, f.Loads j → i ≠ j → ∀ v ∈ (f.header i).pages,
      v ∉ (f.header j).pages := by
  rw [snd_pageLog, List.nodup_flatMap]
  constructor
  · rintro ⟨-, hpair⟩ i hi j hj hij v hv hv'
    have hsymm : Std.Symm (Function.onFun List.Disjoint fun i =>
        if IsLoad f.bytes f.phoff i then (headerAt f.bytes f.phoff i).pages.map fun v => v * pgsize
        else []) := ⟨fun _ _ h => h.symm⟩
    have hdis := hpair.forall (List.mem_range.mpr hi.1) (List.mem_range.mpr hj.1) hij
    rw [Function.onFun, if_pos hi.2, if_pos hj.2] at hdis
    exact hdis (List.mem_map_of_mem hv) (List.mem_map_of_mem hv')
  · intro h
    constructor
    · intro i _
      split
      · exact nodup_pages _
      · exact List.nodup_nil
    · refine List.nodup_range.pairwise_of_forall_ne fun i hi j hj hij x hx hx' => ?_
      dsimp only at hx hx'
      split at hx
      · rename_i hli
        split at hx'
        · rename_i hlj
          obtain ⟨v, hv, rfl⟩ := List.mem_map.mp hx
          obtain ⟨w, hw, hvw⟩ := List.mem_map.mp hx'
          obtain rfl := Nat.eq_of_mul_eq_mul_right (by decide) hvw
          exact h i ⟨List.mem_range.mp hi, hli⟩ j ⟨List.mem_range.mp hj, hlj⟩ hij w hv hw
        · cases hx'
      · cases hx

variable (h : Sections f.bytes f.phoff d f.elf.ePhnum u)

include h

theorem lt_of_not_wraps (hi : f.Loads i) (hw : ¬ (f.header i).Wraps) :
    (f.header i).pVa.toNat + (f.header i).pMemsz.toNat < 2 ^ 64 := by
  refine lt_of_le_of_ne (Nat.le_of_not_lt hw) fun he => ?_
  have hu := (h.vma i hi.1 hi.2).2
  have hsum : ((f.header i).pVa + (f.header i).pMemsz).toNat = 0 := by
    rw [toNat_add_wrap he.ge, he, Nat.sub_self]
  have hend : mapEnd (f.header i).pVa (f.header i).pMemsz = 0 := by
    rw [mapEnd, hsum]
    decide
  have hlt := hu.2.1
  change _ < mapEnd (f.header i).pVa (f.header i).pMemsz at hlt
  omega

theorem disjoint_of_not_wraps (hi : f.Loads i) (hj : f.Loads j) (hij : i < j)
    (hwi : ¬ (f.header i).Wraps) (hwj : ¬ (f.header j).Wraps) (hv : v ∈ (f.header i).pages) :
    v ∉ (f.header j).pages := by
  intro hv'
  have h₁ := pages_inside (lt_of_not_wraps h hi hwi) (h.vma i hi.1 hi.2).2 hv
  have h₂ := pages_inside (lt_of_not_wraps h hj hwj) (h.vma j hj.1 hj.2).2 hv'
  refine h.apart j hj.1 i hij hi.2 hj.2 ?_
  change (f.header i).vma.vmStart < (f.header j).vma.vmEnd ∧
    (f.header j).vma.vmStart < (f.header i).vma.vmEnd
  unfold pgsize at *
  omega

theorem disjoint_iff : (∀ i, f.Loads i → ∀ j, f.Loads j → i ≠ j → ∀ v ∈ (f.header i).pages,
    v ∉ (f.header j).pages) ↔ ¬ Clash f := by
  constructor
  · rintro hd ⟨i, j, hij, hi, hj, -, v, hv, hv'⟩
    exact hd i hi j hj hij v hv hv'
  · intro hc i hi j hj hij v hv hv'
    by_cases hwi : (f.header i).Wraps
    · exact hc ⟨i, j, hij, hi, hj, hwi, v, hv, hv'⟩
    · by_cases hwj : (f.header j).Wraps
      · exact hc ⟨j, i, hij.symm, hj, hi, hwj, v, hv', hv⟩
      · rcases Nat.lt_or_gt_of_ne hij with hlt | hlt
        · exact disjoint_of_not_wraps h hi hj hlt hwi hwj hv hv'
        · exact disjoint_of_not_wraps h hj hi hlt hwj hwi hv' hv

theorem segment_byte {a : ℕ} (hs : WithStack d u t) (hi : f.Loads i) (hw : ¬ (f.header i).Wraps)
    (hd : ∀ j, f.Loads j → i ≠ j → ∀ v ∈ (f.header i).pages, v ∉ (f.header j).pages)
    (h₁ : (f.header i).pVa.toNat ≤ a)
    (h₂ : a < (f.header i).pVa.toNat + (f.header i).pMemsz.toNat) :
    ∃ b, userByte d t.mem a = some b ∧ (f.header i).byte f.bytes a = some b := by
  have hno := lt_of_not_wraps h hi hw
  obtain ⟨hvma, hu⟩ : _ ∧ userAccess (f.header i).vma.vmStart (f.header i).vma.vmEnd :=
    h.vma i hi.1 hi.2
  have hpage : a / pgsize ∈ (f.header i).pages := by
    rw [mem_pages, Proghdr.size, if_pos hno]
    unfold pgsize
    omega
  have hin := pages_inside hno hu hpage
  have hout : ¬ Meets Vma.vmStart Vma.vmEnd stackBase usertop (f.header i).vma := hs.apart _ hvma
  have hlow : a / pgsize < stackBase / pgsize := by
    by_contra hge
    refine hout ⟨lt_of_lt_of_le hu.2.1 hu.2.2, ?_⟩
    unfold stackBase pgsize at *
    omega
  have hreach : a / pgsize < reach := hlow.trans (by decide)
  obtain ⟨b, hb, hbyte⟩ := h.data i hi.1 hi.2 a hno h₁ h₂ fun j hj hij hl =>
    hd j ⟨hj, hl⟩ hij.ne _ hpage
  refine ⟨b, ?_, hbyte⟩
  rw [userByte, hs.other _ hreach fun hx => absurd hx.1 (Nat.not_le.mpr hlow)]
  exact hb

end Clash

/-- `load_icode` never fails the assertion after the rest of a page, and if it returns 0, the image
is as the headers say exactly if no segment whose end wraps around runs into another one. -/
theorem load_image_iff (args : ExecArgs) (s : Loader) {R : ℕ → Role} {D : Finset ℕ}
    (c : CowInv s.mem R D) : (∀ ph, loadIcode args.kargv s ≠ .error (.bss ph)) ∧
      ∀ t, loadIcode args.kargv s = .ok (0, t) → (Image s.file t ↔ ¬ Clash s.file) := by
  have hwp := loadIcode_wp args c
  refine ⟨fun ph he => hwp.error he ph rfl, fun t ht => ?_⟩
  obtain ⟨⟨u, hu, hs⟩, -⟩ := hwp.ok ht rfl
  have hmapped : t.mapped = pageLog s.file.bytes s.file.phoff s.file.elf.ePhnum :=
    hs.mapped.trans hu.mapped
  rw [← disjoint_iff hu, ← nodup_log_iff, ← hmapped]
  refine ⟨fun h => h.once, fun hnodup => ?_⟩
  have hd := hnodup
  rw [hmapped, nodup_log_iff] at hd
  constructor
  case file =>
    intro i hi hw k hk
    have hsizes : (s.file.header i).pFilesz.toNat ≤ (s.file.header i).pMemsz.toNat :=
      (hu.accepted i hi.1 hi.2).sizes
    obtain ⟨b, hb, hbyte⟩ := segment_byte hu hs hi hw (hd i hi) (Nat.le_add_right _ k) (by omega)
    rw [Proghdr.byte, if_pos (by omega), Nat.add_sub_cancel_left] at hbyte
    obtain ⟨x, hx, rfl⟩ := Option.map_eq_some_iff.mp hbyte
    exact ⟨x, hx, hb⟩
  case zero =>
    intro i hi hw a h₁ h₂
    obtain ⟨b, hb, hbyte⟩ := segment_byte hu hs hi hw (hd i hi) (by omega) h₂
    rw [Proghdr.byte, if_neg (by omega)] at hbyte
    exact hb.trans hbyte.symm
  case inside =>
    intro i hi hw
    obtain ⟨hvma, huser⟩ := hu.vma i hi.1 hi.2
    refine ⟨hs.list _ hvma, fun la hla => ?_⟩
    obtain ⟨-, -, v, hv, rfl⟩ := mem_pageLog.mp (hmapped ▸ hla)
    exact pages_inside (lt_of_not_wraps hu hi hw) huser hv
  case once => exact hnodup
  case all =>
    intro v hv hsome
    by_cases hstack : stackBase ≤ v * pgsize
    · exact Or.inr hstack
    · have hreach : v < reach := hv.trans_le (by decide)
      have hlow : ¬ (stackBase / pgsize ≤ v ∧ v < usertop / pgsize) := by
        unfold stackBase pgsize at *
        omega
      rw [hs.other v hreach hlow] at hsome
      obtain ⟨i, hi, hl, hv⟩ := hu.only v hreach hsome
      refine Or.inl (hmapped ▸ ?_)
      exact List.mem_map_of_mem (mem_pageLog.mpr ⟨hi, hl, v, hv, rfl⟩)

/-! ## Two files -/

/-- The lowest `n` bytes of a number. -/
def lowBytes (n k : ℕ) : List UInt8 := (List.range n).map fun i => .ofNat (k / 256 ^ i)

def zeroBytes (n : ℕ) : List UInt8 := List.replicate n 0

/-- An ELF header whose program headers come after it. -/
def elfBytes (entry phnum : ℕ) : List UInt8 :=
  lowBytes 4 elfMagic ++ zeroBytes 20 ++ lowBytes 8 entry ++ lowBytes 8 sizeofElfhdr ++
    zeroBytes 16 ++ lowBytes 2 phnum ++ zeroBytes 6

/-- The header of a segment with all rights. -/
def segmentBytes (offset va filesz memsz : ℕ) : List UInt8 :=
  lowBytes 4 elfPtLoad ++ lowBytes 4 (elfPfR ||| elfPfW ||| elfPfX) ++ lowBytes 8 offset ++
    lowBytes 8 va ++ zeroBytes 8 ++ lowBytes 8 filesz ++ lowBytes 8 memsz ++ zeroBytes 8

/-- A file that was just opened, on a disk without failures. -/
def opened (bytes : List UInt8) : File := ⟨bytes, fun _ => 0, 0, [], []⟩

/-- A process that is about to load a file, with `n` free pages. -/
def freePages (n : ℕ) (f : File) : Loader where
  mem := ⟨fun _ _ => 0, fun _ => 0, (Finset.range (n + 1)).erase 0, (List.range' 1 n).map some, []⟩
  mm := ⟨⟨[], none, 0⟩, 0⟩
  hasMm := false
  file := f
  kmallocs := List.replicate 20 true
  sstatus := 0
  tf := ⟨0, 0, 0, 0, 0⟩
  mapped := []

theorem cowInv_freePages (n : ℕ) (f : File) :
    CowInv (freePages n f).mem (startRole (freePages n f).mem) ∅ :=
  cowInv_start fun _ _ => rfl

/-- The argument `hi`. -/
def oneArg : ExecArgs := ⟨[[104, 105]], by decide, by decide⟩

/-- Two segments, the first with zeros in its last page. -/
def twoSegments : File :=
  opened (elfBytes 0x800010 2 ++ segmentBytes 0 0x800010 100 5000 ++
    segmentBytes 64 0x803000 10 10)

theorem load_image_twoSegments : ∃ t,
    loadIcode oneArg.kargv (freePages 20 twoSegments) = .ok (0, t) ∧ Image twoSegments t := by
  have hrun : (loadIcode oneArg.kargv (freePages 20 twoSegments)).toOption.map
      (fun r => decide (r.1 = 0)) = some true := by decide +kernel
  obtain ⟨_, t, ht, rfl⟩ := Code.exists_of_decide hrun
  refine ⟨t, ht, ((load_image_iff oneArg _ (cowInv_freePages 20 _)).2 t ht).mpr ?_⟩
  rintro ⟨i, j, -, hi, -, hw, -⟩
  have hno : ∀ i < 2, ¬ (twoSegments.header i).Wraps := by decide +kernel
  have hi : i < 2 := hi.1
  exact hno i hi hw

/-- The end of the second segment wraps around below its start, and its second page is the page of
the first. -/
def wrapping : File :=
  opened (elfBytes 0x801000 2 ++ segmentBytes 0 0x801000 1 1 ++
    segmentBytes 0 0x800FFF 4097 (2 ^ 64 - 1) ++ zeroBytes 4096)

set_option maxRecDepth 1000 in
/-- The first byte of the first segment is lost. -/
theorem load_image_wrapping : ∃ t,
    loadIcode oneArg.kargv (freePages 20 wrapping) = .ok (0, t) ∧ wrapping.Loads 0 ∧
      ¬ (wrapping.header 0).Wraps ∧ wrapping.bytes[(wrapping.header 0).pOffset.toNat]? = some 0x7F ∧
      userByte t.mm.mm.pgdir t.mem (wrapping.header 0).pVa.toNat = some 0x45 ∧
      ¬ Image wrapping t := by
  have hrun : (loadIcode oneArg.kargv (freePages 20 wrapping)).toOption.map
      (fun r => decide (r.1 = 0 ∧ userByte r.2.mm.mm.pgdir r.2.mem 0x801000 = some 0x45 ∧
        r.2.mapped = [(0, 0x801000), (1, 0x800000), (1, 0x801000)])) = some true := by
    decide +kernel
  obtain ⟨_, t, ht, rfl, hbyte, hmapped⟩ := Code.exists_of_decide hrun
  have hva : (wrapping.header 0).pVa.toNat = 0x801000 := by decide +kernel
  refine ⟨t, ht, by decide +kernel, by decide +kernel, by decide +kernel, ?_, fun h => ?_⟩
  · rw [hva]
    exact hbyte
  · have hnodup := h.once
    rw [hmapped] at hnodup
    exact absurd hnodup (by decide)

end UCore.LoadIcode

import UCore.Library.Intervals
import UCore.Vmm.Model

/-! # Mapping an area

The areas of a process are sorted and disjoint. `mm_map` searches for an area with the first address
of the new range only, and takes the end of the range modulo the size of the address space: the one
decides whether an overlap is refused or runs into an assertion, the other whether the new area is
as long as it was asked for.
-/

namespace UCore.Vmm

open Library PageTable

variable {mm : Mm} {vma : Vma} {list xs ys : List Vma} {addr start end' flags a : ℕ}

/-- The areas are sorted and disjoint, and the cached one is among them. -/
structure Areas (mm : Mm) : Prop where
  apart : Apart Vma.vmStart Vma.vmEnd mm.mmapList
  cache : ∀ vma ∈ mm.mmapCache, vma ∈ mm.mmapList

namespace Areas

theorem find_iff (h : Areas mm) :
    (mm.findVma addr).1 = some vma ↔ vma ∈ mm.mmapList ∧ vma.contains addr = true := by
  unfold Mm.findVma
  split
  · rename_i v hc
    obtain ⟨hv, hva⟩ := Option.filter_eq_some_iff.mp hc
    have hm := h.cache v hv
    constructor
    · intro he
      obtain rfl := Option.some.inj he
      exact ⟨hm, hva⟩
    · rintro ⟨hm', hva'⟩
      rw [h.apart.unique hm hm' (Vma.contains_iff.mp hva) (Vma.contains_iff.mp hva')]
  · rw [← h.apart.find?_eq_some fun _ => Vma.contains_iff]
    split
    · rename_i v hf
      rw [hf]
    · rename_i hf
      rw [hf]

theorem find_none (h : Areas mm) :
    (mm.findVma addr).1 = none ↔ ∀ vma ∈ mm.mmapList, vma.contains addr = false := by
  constructor
  · intro hn v hv
    by_contra hc
    have := h.find_iff.mpr ⟨hv, (Bool.not_eq_false _).mp hc⟩
    rw [hn] at this
    cases this
  · intro hn
    cases hf : (mm.findVma addr).1 with
    | none => rfl
    | some v =>
      obtain ⟨hv, hc⟩ := h.find_iff.mp hf
      rw [hn v hv] at hc
      cases hc

theorem find (h : Areas mm) (addr : ℕ) :
    Areas (mm.findVma addr).2 ∧ (mm.findVma addr).2.mmapList = mm.mmapList := by
  unfold Mm.findVma
  split
  · exact ⟨h, rfl⟩
  · split
    · rename_i v hf
      refine ⟨⟨h.apart, ?_⟩, rfl⟩
      intro w hw
      obtain rfl := Option.some.inj hw
      exact List.mem_of_find?_eq_some hf
    · exact ⟨h, rfl⟩

end Areas

/-! ## Insertion -/

section Insert

variable (h : Apart Vma.vmStart Vma.vmEnd list)

include h

theorem insertVmaStruct_ok (flags : ℕ) (hlt : start < end')
    (hm : ∀ vma ∈ list, ¬ Meets Vma.vmStart Vma.vmEnd start end' vma) :
    ∃ l, insertVmaStruct list ⟨start, end', flags⟩ = some l ∧
      l.Perm (⟨start, end', flags⟩ :: list) ∧ Apart Vma.vmStart Vma.vmEnd l := by
  obtain ⟨hb, ha⟩ := h.split start
  have hl := List.takeWhile_append_dropWhile (p := fun v : Vma => decide (v.vmStart ≤ start))
    (l := list)
  unfold insertVmaStruct
  dsimp only
  generalize list.takeWhile (fun v : Vma => decide (v.vmStart ≤ start)) = xs at *
  generalize list.dropWhile (fun v : Vma => decide (v.vmStart ≤ start)) = ys at *
  subst hl
  obtain ⟨hap, hx, hy⟩ := h.insert (x := ⟨start, end', flags⟩) hlt hm hb ha
  rw [if_pos]
  · exact ⟨_, rfl, List.perm_middle, hap⟩
  · refine ⟨hlt, ?_, ?_⟩
    · intro prev hp
      have hp := List.mem_of_getLast? hp
      exact ⟨h.proper prev (by simp [hp]), hx prev hp, hlt⟩
    · intro next hn
      have hn := List.mem_of_head? hn
      exact ⟨hlt, hy next hn, h.proper next (by simp [hn])⟩

/-- An area that meets another one, but not with its first address, fails an assertion. -/
theorem insertVmaStruct_none (flags : ℕ) (hs : ∀ vma ∈ list, vma.contains start = false)
    (hv : vma ∈ list)
    (hm : Meets Vma.vmStart Vma.vmEnd start end' vma) :
    insertVmaStruct list ⟨start, end', flags⟩ = none := by
  obtain ⟨hb, -⟩ := h.split start
  have hl := List.takeWhile_append_dropWhile (p := fun v : Vma => decide (v.vmStart ≤ start))
    (l := list)
  unfold insertVmaStruct
  dsimp only
  generalize list.takeWhile (fun v : Vma => decide (v.vmStart ≤ start)) = xs at *
  generalize list.dropWhile (fun v : Vma => decide (v.vmStart ≤ start)) = ys at *
  subst hl
  rw [if_neg]
  rintro ⟨-, -, hnext⟩
  have hvy : vma ∈ ys := by
    rcases List.mem_append.mp hv with hvx | hvy
    · have hc := hs vma hv
      rw [← Bool.not_eq_true, Vma.contains_iff] at hc
      exact absurd ⟨hb vma hvx, hm.2⟩ hc
    · exact hvy
  cases ys with
  | nil => exact List.not_mem_nil hvy
  | cons y ys =>
    have hle : y.vmStart ≤ vma.vmStart := by
      rcases List.mem_cons.mp hvy with rfl | hvy
      · exact le_rfl
      · have hsy := (List.pairwise_append.mp h.sorted).2.1
        have := (List.pairwise_cons.mp hsy).1 vma hvy
        have := h.proper y (by simp)
        omega
    have := (hnext y rfl).2.1
    have := hm.1
    dsimp only at *
    omega

end Insert

/-! ## `mm_map` -/

section Map

variable {m m' : MmStruct} {len : UInt64} {addr : UInt64} {memory : Bool} {o : Option Vma}

/-- The range of pages meets an area. -/
def Overlaps (m : MmStruct) (addr len : UInt64) : Prop :=
  ∃ vma ∈ m.mm.mmapList, Meets Vma.vmStart Vma.vmEnd (mapStart addr) (mapEnd addr len) vma

/-- The page of `addr` belongs to an area. -/
def StartsInside (m : MmStruct) (addr : UInt64) : Prop :=
  ∃ vma ∈ m.mm.mmapList, vma.contains (mapStart addr) = true

theorem StartsInside.overlaps (h : StartsInside m addr)
    (hu : userAccess (mapStart addr) (mapEnd addr len)) : Overlaps m addr len := by
  obtain ⟨vma, hv, hc⟩ := h
  obtain ⟨h₁, h₂⟩ := Vma.contains_iff.mp hc
  exact ⟨vma, hv, h₁.trans_lt hu.2.1, h₂⟩

theorem mmMap_inside (h : Areas m.mm) (hu : userAccess (mapStart addr) (mapEnd addr len))
    (hs : StartsInside m addr) :
    mmMap m addr len flags memory =
      some (-eInval, none, { m with mm := (m.mm.findVma (mapStart addr)).2 }) := by
  obtain ⟨vma, hv, hc⟩ := hs
  have hf := h.find_iff.mpr ⟨hv, hc⟩
  have hlt := (Vma.contains_iff.mp hc).1.trans_lt hu.2.1
  rw [mmMap, if_pos hu]
  generalize hr : m.mm.findVma (mapStart addr) = r at hf
  obtain ⟨v, mm'⟩ := r
  obtain rfl : v = some vma := hf
  exact if_pos hlt

theorem mmMap_outside (h : Areas m.mm) (hu : userAccess (mapStart addr) (mapEnd addr len))
    (hs : ¬ StartsInside m addr) :
    mmMap m addr len flags memory =
      mapInsert { m with mm := (m.mm.findVma (mapStart addr)).2 } (mapStart addr) (mapEnd addr len)
        flags memory := by
  have hf : (m.mm.findVma (mapStart addr)).1 = none := by
    rw [h.find_none]
    intro v hv
    by_contra hc
    exact hs ⟨v, hv, (Bool.not_eq_false _).mp hc⟩
  rw [mmMap, if_pos hu]
  generalize m.mm.findVma (mapStart addr) = r at hf
  obtain ⟨v, mm'⟩ := r
  obtain rfl : v = none := hf
  rfl

theorem mmMap_across (h : Areas m.mm) (hu : userAccess (mapStart addr) (mapEnd addr len))
    (hs : ¬ StartsInside m addr) (ho : Overlaps m addr len) :
    mmMap m addr len flags true = none := by
  obtain ⟨vma, hv, hm⟩ := ho
  have hn := insertVmaStruct_none h.apart flags
    (fun v hv => by
      by_contra hc
      exact hs ⟨v, hv, (Bool.not_eq_false _).mp hc⟩) hv hm
  rw [mmMap_outside h hu hs, mapInsert, if_pos rfl]
  dsimp only
  rw [(h.find (mapStart addr)).2, hn]
  rfl

/-- The new area among the others. -/
structure Inserted (m : MmStruct) (vma : Vma) (m' : MmStruct) : Prop where
  list : m'.mm.mmapList.Perm (vma :: m.mm.mmapList)
  mapCount : m'.mapCount = m.mapCount + 1
  areas : Areas m'.mm

theorem mmMap_inserts (h : Areas m.mm) (flags : ℕ)
    (hu : userAccess (mapStart addr) (mapEnd addr len))
    (hm : ¬ Overlaps m addr len) :
    ∃ m', mmMap m addr len flags true =
        some (0, some ⟨mapStart addr, mapEnd addr len, flags⟩, m') ∧
      Inserted m ⟨mapStart addr, mapEnd addr len, flags⟩ m' := by
  obtain ⟨hf, hl⟩ := h.find (mapStart addr)
  obtain ⟨l, hi, hp, hap⟩ := insertVmaStruct_ok h.apart flags hu.2.1
    (fun vma hv hmeets => hm ⟨vma, hv, hmeets⟩)
  have hc : ∀ vma ∈ (m.mm.findVma (mapStart addr)).2.mmapCache, vma ∈ l := by
    intro vma hv
    have := hf.cache vma hv
    rw [hl] at this
    exact hp.mem_iff.mpr (List.mem_cons_of_mem _ this)
  rw [mmMap_outside h hu fun hs => hm (hs.overlaps hu)]
  unfold mapInsert
  rw [if_pos rfl]
  dsimp only
  rw [hl, hi]
  exact ⟨_, rfl, hp, rfl, hap, hc⟩

/-- An overlap is refused and changes nothing, a range without one becomes an area, and no assertion
fails. -/
structure MapsCleanly (m : MmStruct) (addr len : UInt64) (flags : ℕ) (memory : Bool) : Prop where
  refuses : userAccess (mapStart addr) (mapEnd addr len) → Overlaps m addr len →
    ∃ m', mmMap m addr len flags memory = some (-eInval, none, m') ∧
      m'.mm.mmapList = m.mm.mmapList ∧ m'.mapCount = m.mapCount ∧ Areas m'.mm
  inserts : userAccess (mapStart addr) (mapEnd addr len) → ¬ Overlaps m addr len → memory = true →
    ∃ m', mmMap m addr len flags memory =
        some (0, some ⟨mapStart addr, mapEnd addr len, flags⟩, m') ∧
      Inserted m ⟨mapStart addr, mapEnd addr len, flags⟩ m'
  asserts : (mmMap m addr len flags memory).isSome = true

/-- `mm_map` is clean exactly if an overlapping range begins in an area. -/
theorem map_rejects_iff (m : MmStruct) (h : Areas m.mm) (addr len : UInt64) (flags : ℕ)
    (memory : Bool) : MapsCleanly m addr len flags memory ↔
      (userAccess (mapStart addr) (mapEnd addr len) → Overlaps m addr len →
        StartsInside m addr) := by
  have hfind := h.find (mapStart addr)
  constructor
  · intro hc hu ho
    by_contra hs
    obtain ⟨m', he, -⟩ := hc.refuses hu ho
    cases memory with
    | false =>
      rw [mmMap_outside h hu hs] at he
      have : (-eNoMem : ℤ) = -eInval := congrArg Prod.fst (Option.some.inj he)
      exact absurd this (by decide)
    | true =>
      rw [mmMap_across h hu hs ho] at he
      cases he
  · intro hs
    constructor
    · intro hu ho
      rw [mmMap_inside h hu (hs hu ho)]
      exact ⟨_, rfl, hfind.2, rfl, hfind.1⟩
    · rintro hu ho rfl
      exact mmMap_inserts h _ hu ho
    · by_cases hu : userAccess (mapStart addr) (mapEnd addr len)
      · by_cases ho : Overlaps m addr len
        · rw [mmMap_inside h hu (hs hu ho)]
          rfl
        · cases memory with
          | false =>
            rw [mmMap_outside h hu fun hi => ho (hi.overlaps hu)]
            rfl
          | true =>
            obtain ⟨m', he, -⟩ := mmMap_inserts h flags hu ho
            rw [he]
            rfl
      · rw [mmMap, if_neg hu]
        rfl

def onePage : MmStruct := ⟨⟨[⟨0x801000, 0x802000, vmRead⟩], none, 1⟩, 1⟩

theorem onePage_areas : Areas onePage.mm :=
  ⟨⟨by decide, by decide⟩, by decide⟩

theorem map_rejects_iff_inside :
    Areas onePage.mm ∧ MapsCleanly onePage 0x801800 0x1000 vmRead true :=
  ⟨onePage_areas, (map_rejects_iff onePage onePage_areas 0x801800 0x1000 vmRead true).mpr
    fun _ _ => ⟨⟨0x801000, 0x802000, vmRead⟩, by decide, by decide⟩⟩

/-- A range that begins below the area and reaches into it fails an assertion. -/
theorem map_from_below_asserts : Areas onePage.mm ∧
    userAccess (mapStart 0x800000) (mapEnd 0x800000 0x2000) ∧
    Overlaps onePage 0x800000 0x2000 ∧ mmMap onePage 0x800000 0x2000 vmRead true = none :=
  ⟨onePage_areas, by decide, ⟨⟨0x801000, 0x802000, vmRead⟩, by decide, by decide, by decide⟩,
    by decide⟩

/-! ## The length of the new area -/

/-- The area covers all bytes that were asked for, and less than two pages more. -/
structure Covers (vma : Vma) (addr len : UInt64) : Prop where
  bytes : ∀ a, addr.toNat ≤ a → a < addr.toNat + len.toNat → vma.contains a = true
  tight : vma.vmEnd < vma.vmStart + len.toNat + 2 * pgsize

/-- If `mm_map` returns 0, the new area covers what was asked for. -/
def MapCovers (m : MmStruct) (addr len : UInt64) (flags : ℕ) (memory : Bool) : Prop :=
  ∀ o m', mmMap m addr len flags memory = some (0, o, m') →
    ∃ vma, o = some vma ∧ vma ∈ m'.mm.mmapList ∧ Covers vma addr len

theorem mapStart_le (addr : UInt64) : mapStart addr ≤ addr.toNat ∧
    addr.toNat < mapStart addr + pgsize := by
  unfold mapStart rounddown pgsize
  omega

theorem mapEnd_of_lt (h : addr.toNat + len.toNat < 2 ^ 64)
    (hu : userAccess (mapStart addr) (mapEnd addr len)) :
    addr.toNat + len.toNat ≤ mapEnd addr len ∧
      mapEnd addr len < addr.toNat + len.toNat + pgsize := by
  have hadd : (addr + len).toNat = addr.toNat + len.toNat := by
    rw [UInt64.toNat_add, Nat.mod_eq_of_lt h]
  have hlt := hu.2.1
  unfold mapEnd roundup rounddown pgsize at *
  rw [hadd] at *
  omega

theorem mmMap_zero (h : Areas m.mm) (he : mmMap m addr len flags memory = some (0, o, m')) :
    userAccess (mapStart addr) (mapEnd addr len) ∧ ¬ Overlaps m addr len ∧ memory = true ∧
      o = some ⟨mapStart addr, mapEnd addr len, flags⟩ ∧
      Inserted m ⟨mapStart addr, mapEnd addr len, flags⟩ m' := by
  have hzero : ∀ {e : ℤ} {p : Option Vma × MmStruct}, e ≠ 0 → some (e, p) ≠ some (0, o, m') := by
    rintro e p hne heq
    exact hne (congrArg Prod.fst (Option.some.inj heq))
  by_cases hu : userAccess (mapStart addr) (mapEnd addr len)
  · have hs : ¬ StartsInside m addr := by
      intro hs
      rw [mmMap_inside h hu hs] at he
      exact hzero (by decide) he
    have hmem : memory = true := by
      cases memory with
      | true => rfl
      | false =>
        rw [mmMap_outside h hu hs] at he
        exact absurd he (hzero (by decide))
    subst hmem
    have ho : ¬ Overlaps m addr len := by
      intro ho
      rw [mmMap_across h hu hs ho] at he
      cases he
    obtain ⟨m₁, he₁, hi⟩ := mmMap_inserts h flags hu ho
    rw [he₁] at he
    obtain ⟨-, rfl, rfl⟩ : (0 : ℤ) = 0 ∧ _ = o ∧ m₁ = m' := by
      simpa only [Option.some.injEq, Prod.mk.injEq] using he
    exact ⟨hu, ho, rfl, rfl, hi⟩
  · rw [mmMap, if_neg hu] at he
    exact absurd he (hzero (by decide))

/-- `mm_map` maps what it was asked for exactly if the end of the range does not wrap around, or the
range is refused. -/
theorem map_covers_iff (m : MmStruct) (h : Areas m.mm) (addr len : UInt64) (flags : ℕ)
    (memory : Bool) : MapCovers m addr len flags memory ↔
      addr.toNat + len.toNat < 2 ^ 64 ∨ ¬ userAccess (mapStart addr) (mapEnd addr len) ∨
        Overlaps m addr len ∨ memory = false := by
  constructor
  · intro hc
    by_contra hn
    push Not at hn
    obtain ⟨hwrap, hu, ho, hmem⟩ := hn
    obtain rfl := (Bool.not_eq_false memory).mp hmem
    obtain ⟨m', he, -⟩ := mmMap_inserts h flags hu ho
    obtain ⟨vma, hv, -, hcov⟩ := hc _ _ he
    obtain rfl := Option.some.inj hv
    have hlast := hcov.bytes (addr.toNat + len.toNat - 1)
    rw [Vma.contains_iff] at hlast
    have hlt := addr.toNat_lt
    have hend := hu.2.2
    unfold usertop at hend
    dsimp only at hlast
    omega
  · intro hc o m' he
    obtain ⟨hu, ho, rfl, rfl, hi⟩ := mmMap_zero h he
    have hwrap : addr.toNat + len.toNat < 2 ^ 64 := by
      rcases hc with hc | hc | hc | hc
      · exact hc
      · exact absurd hu hc
      · exact absurd hc ho
      · cases hc
    have hs := mapStart_le addr
    obtain ⟨h₁, h₂⟩ := mapEnd_of_lt hwrap hu
    refine ⟨_, rfl, hi.list.mem_iff.mpr List.mem_cons_self, ?_, ?_⟩
    · intro a ha hlt
      rw [Vma.contains_iff]
      dsimp only
      omega
    · dsimp only
      omega

theorem map_covers_iff_page : Areas onePage.mm ∧ MapCovers onePage 0x803010 0x20 vmRead true :=
  ⟨onePage_areas, (map_covers_iff onePage onePage_areas 0x803010 0x20 vmRead true).mpr
    (.inl (by decide))⟩

/-- A length for which the end of the range wraps around: one page is mapped. -/
theorem map_wrapped_short : Areas onePage.mm ∧
    (mmMap onePage 0x803010 0xfffffffffffffff1 vmRead true).map (fun r => (r.1, r.2.1)) =
      some (0, some ⟨0x803000, 0x804000, vmRead⟩) ∧
    ¬ MapCovers onePage 0x803010 0xfffffffffffffff1 vmRead true := by
  refine ⟨onePage_areas, by decide, fun hc => ?_⟩
  obtain ⟨⟨ret, o, m'⟩, he, hr⟩ := Option.map_eq_some_iff.mp
    (show (mmMap onePage 0x803010 0xfffffffffffffff1 vmRead true).map (fun r => (r.1, r.2.1)) =
      some (0, some ⟨0x803000, 0x804000, vmRead⟩) by decide)
  obtain ⟨rfl, rfl⟩ : ret = 0 ∧ o = some ⟨0x803000, 0x804000, vmRead⟩ := by simpa using hr
  obtain ⟨vma, hv, -, hcov⟩ := hc _ _ he
  obtain rfl := Option.some.inj hv
  exact absurd (hcov.bytes 0x804000 (by decide) (by decide)) (by decide)

end Map

end UCore.Vmm

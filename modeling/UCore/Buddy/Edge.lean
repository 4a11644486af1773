import UCore.Buddy.Safety
import UCore.Defs

/-! # The end of the array of descriptors

`page_init` makes one descriptor for each page up to the end of memory, whatever their number is,
and gives the pages above the array to the allocator. A free that completes the last block of the
array goes on to the mate of that block, which has no descriptor.
-/

namespace UCore.Buddy

open Library Library.Dyadic Library.PerfectTree

variable {base n m i k o p q b : ℕ} {s s₀ s₁ : State} {free : ℕ → List ℕ} {c : Config}

/-! ## The memory of the machine -/

/-- `DRAM_BASE / PGSIZE`. -/
def nbase : ℕ := 0x80000

def kerntop : ℕ := kernbase + 0x7E00000

def vaPaOffset : ℕ := 0xFFFFFFFF40000000

/-- `PADDR`; `none` is its panic. -/
def paddr (kva : ℕ) : Option ℕ := if kva < kernbase then none else some (kva - vaPaOffset)

/-- `pa2page` as an index into `pages`; `none` is its panic. -/
def pa2page (npage pa : ℕ) : Option ℕ :=
    if npage ≤ pa / pgsize then none else some (pa / pgsize - nbase)

/-- The descriptors that `page_init` marks. -/
def setReserved (s : State) (m : ℕ) : State :=
  { s with npage := m, reserved := fun p => if p < m then true else s.reserved p }

/-- `page_init` with the symbol `end` of the linker. The result is `none` when it panics, and when
memory ends below `DRAM_BASE`, where the loop over the descriptors runs through the address
space. -/
def pageInit (s : State) (memBegin memSize end' : UInt64) : Option State :=
  if memSize = 0 then none
  else
    let memEnd := (memBegin + memSize).toNat
    let npage := min memEnd kerntop / pgsize
    let pages := roundup end'.toNat pgsize
    if npage < nbase then none
    else
      (paddr ((pages + sizeofPage * (npage - nbase)) % 2 ^ 64)).bind fun freemem =>
        let s := setReserved s (npage - nbase)
        if freemem < rounddown memEnd pgsize then
          (pa2page npage (roundup freemem pgsize)).bind fun base =>
            buddyInitMemmap s base ((rounddown memEnd pgsize - roundup freemem pgsize) / pgsize)
        else some s

/-! ## The descriptors that a free examines -/

/-- The values of `buddy_idx` in the merging loop of `buddy_free_pages`. -/
def mergeIndices : ℕ → State → ℕ → ℕ → List ℕ
  | 0, _, _, _ => []
  | fuel + 1, s, base, order =>
    if order < maxOrder then
      let buddy := base ^^^ 2 ^ order
      if s.npage ≤ buddy then [buddy]
      else if !s.reserved buddy && s.pageProperty buddy && s.property buddy = 2 ^ order then
        buddy :: mergeIndices fuel ((s.unlink buddy order).clearPageProperty buddy)
          (if buddy < base then buddy else base) (order + 1)
      else [buddy]
    else []

/-- The values of `buddy_idx` in `buddy_free_pages`. -/
def freeIndices (s : State) (base n : ℕ) : List ℕ :=
  (getOrder n).elim [] fun order =>
    mergeIndices (maxOrder + 1) (resetPages s base (2 ^ order)) base order

/-- Every free of a live allocation examines descriptors of the array only. -/
def MergesInside (c : Config) : Prop :=
  ∀ p k, (p, k) ∈ c.live → ∀ i ∈ freeIndices c.state p k, i < c.state.npage

theorem mergeIndices_lt {fuel : ℕ} {r : State × ℕ × ℕ} (h : mergeBlock fuel s b o = some r) :
    ∀ i ∈ mergeIndices fuel s b o, i < s.npage := by
  induction fuel generalizing s b o with
  | zero => exact fun i hi => absurd hi List.not_mem_nil
  | succ fuel ih =>
    rw [mergeBlock] at h
    rw [mergeIndices]
    dsimp only at h ⊢
    by_cases ho : o < maxOrder
    · rw [if_pos ho] at h ⊢
      by_cases hn : s.npage ≤ b ^^^ 2 ^ o
      · rw [if_pos hn] at h
        cases h
      · rw [if_neg hn] at h ⊢
        split at h
        · rw [if_pos ‹_›]
          intro i hi
          rcases List.mem_cons.mp hi with rfl | hi
          · omega
          · exact ih h i hi
        · rw [if_neg ‹_›]
          intro i hi
          rw [List.mem_singleton] at hi
          omega
    · rw [if_neg ho]
      exact fun i hi => absurd hi List.not_mem_nil

theorem resetPages_npage : (resetPages s p n).npage = s.npage := by
  induction n generalizing s p with
  | zero => rfl
  | succ n ih => exact ih

theorem Tiled.mergesInside (h : Tiled base n c) : MergesInside c := by
  intro p k hl i hi
  obtain ⟨c', hc, -⟩ := h.freePages hl
  simp only [Config.call, Option.map_eq_some_iff] at hc
  obtain ⟨s', hs, -⟩ := hc
  unfold buddyFreePages at hs
  obtain ⟨-, hs⟩ := Option.ite_none_right_eq_some.mp hs
  obtain ⟨o, ho, hs⟩ := Option.bind_eq_some_iff.mp hs
  obtain ⟨-, hs⟩ := Option.ite_none_left_eq_some.mp hs
  obtain ⟨r, hr, -⟩ := Option.map_eq_some_iff.mp hs
  rw [freeIndices, ho] at hi
  exact (mergeIndices_lt hr i hi).trans_eq resetPages_npage

/-! ## The last block -/

theorem initBlocks_frame {fuel : ℕ} (h : initBlocks fuel s b m = some s₁) :
    s₁.npage = s.npage ∧ s₁.reserved = s.reserved := by
  induction fuel generalizing s b m with
  | zero =>
    cases m with
    | zero => exact Option.some.inj h ▸ ⟨rfl, rfl⟩
    | succ m => cases h
  | succ fuel ih =>
    cases m with
    | zero => exact Option.some.inj h ▸ ⟨rfl, rfl⟩
    | succ m =>
      rw [initBlocks] at h
      have := ih h
      exact this

/-- The greedy loop ends with the last block of the range at the head of its list. -/
theorem initBlocks_last {fuel : ℕ} (hi : i < maxOrder) (hd : 2 ^ i ∣ b + m)
    (hn : ¬ 2 ^ (i + 1) ∣ b + m) (hm : 2 ^ i ≤ m) (h : initBlocks fuel s b m = some s₁) :
    listNext s₁.links (.freeList i) = .pageLink (b + m - 2 ^ i) := by
  induction fuel generalizing s b m with
  | zero =>
    have := Nat.two_pow_pos i
    obtain ⟨m, rfl⟩ := Nat.exists_eq_add_one_of_ne_zero (by omega : m ≠ 0)
    cases h
  | succ fuel ih =>
    have hpos := Nat.two_pow_pos i
    obtain ⟨m, rfl⟩ := Nat.exists_eq_add_one_of_ne_zero (by omega : m ≠ 0)
    obtain ⟨ho, hfit, hdvd, hmax⟩ := fitOrder_spec b (by omega : 0 < m + 1) maxOrder
    rw [initBlocks] at h
    set o := fitOrder b (m + 1) maxOrder
    rcases hm.eq_or_lt with hm | hm
    · -- the block is next, and nothing remains after it
      have hbd : 2 ^ i ∣ b := (Nat.dvd_add_left (hm ▸ dvd_rfl)).mp hd
      have hle : o ≤ i := by
        rw [← hm] at hfit
        exact (Nat.pow_le_pow_iff_right Nat.one_lt_two).mp hfit
      obtain rfl : o = i := by
        by_contra hne
        have := hmax i (by omega) hi.le hbd
        omega
      rw [← hm, Nat.sub_self] at h
      have h₁ : s.addBlock b o = s₁ := by
        cases fuel <;> exact Option.some.inj h
      rw [← hm, Nat.add_sub_cancel, ← h₁]
      simp [State.addBlock, listNext, listAdd, listAddAfter, rawListAdd, Links.setNext_next,
        Links.setPrev_next]
    · -- the first block ends before it
      have hbefore : 2 ^ o + 2 ^ i ≤ m + 1 := by
        have hpo := Nat.two_pow_pos o
        by_contra hlt
        rcases Nat.lt_or_ge i o with hio | hoi
        · have hod : 2 ^ (i + 1) ∣ b + 2 ^ o :=
            (Nat.dvd_add ((pow_dvd_pow 2 hio).trans hdvd) (pow_dvd_pow 2 hio))
          have hdiff : 2 ^ i ∣ b + (m + 1) - (b + 2 ^ o) :=
            Nat.dvd_sub hd ((pow_dvd_pow 2 (Nat.le_succ i)).trans hod)
          have hz : b + (m + 1) - (b + 2 ^ o) = 0 := Nat.eq_zero_of_dvd_of_lt hdiff (by omega)
          have he : b + (m + 1) = b + 2 ^ o := by omega
          exact hn (he ▸ hod)
        · have hdiff : 2 ^ o ∣ b + (m + 1) - (b + 2 ^ i) :=
            Nat.dvd_sub ((pow_dvd_pow 2 hoi).trans hd) (Nat.dvd_add hdvd (pow_dvd_pow 2 hoi))
          have := Nat.le_of_dvd (by omega) hdiff
          omega
      have hsum : b + 2 ^ o + (m + 1 - 2 ^ o) = b + (m + 1) := by omega
      have := ih (hsum ▸ hd) (hsum ▸ hn) (by omega) h
      rwa [hsum] at this

theorem getOrder_two_pow (hi : i ≤ maxOrder) : getOrder (2 ^ i) = some i := by
  have hle : 2 ^ i ≤ 2 ^ maxOrder := Nat.pow_le_pow_right Nat.two_pos hi
  obtain ⟨o, ho⟩ := getOrder_total (n := 2 ^ i) (hle.trans (by decide))
  have hoi : o ≤ i := by
    by_contra hlt
    obtain ⟨z, hz, hzlt⟩ := (getOrderFrom_spec ho (by omega)).1 i (by omega)
    rw [shift_of_le hi] at hz
    obtain rfl := Option.some.inj hz
    omega
  rw [ho, clog_of_getOrder ho (hoi.trans hi), Nat.clog_pow 2 i Nat.one_lt_two]

/-- A request for the last block gets it, and its free leaves the array. -/
theorem not_mergesInside (hi : i < maxOrder) (hd : 2 ^ i ∣ s.npage) (hn : ¬ 2 ^ (i + 1) ∣ s.npage)
    (hl : listNext s.links (.freeList i) = .pageLink (s.npage - 2 ^ i)) :
    ∃ c, (⟨s, []⟩ : Config).call (.alloc (2 ^ i)) = some c ∧ ¬ MergesInside c := by
  have hg := getOrder_two_pow hi.le
  have hpos := Nat.two_pow_pos i
  obtain ⟨q, hq⟩ := hd
  have hodd : q % 2 = 1 := by
    by_contra heven
    refine hn ⟨q / 2, ?_⟩
    rw [hq, pow_succ, mul_assoc, Nat.mul_div_cancel' (Nat.dvd_of_mod_eq_zero (by omega))]
  have hlast : s.npage - 2 ^ i = (q - 1) * 2 ^ i := by
    rw [hq, Nat.sub_mul, one_mul, mul_comm]
  have hne : listEmpty s.links (.freeList i) = false := by
    have : s.links.next (.freeList i) = .pageLink (s.npage - 2 ^ i) := hl
    simp [listEmpty, this]
  obtain ⟨f, hf⟩ : ∃ f, maxOrder + 1 - i = f + 1 := ⟨maxOrder - i, by omega⟩
  have hfind : findOrder s (maxOrder + 1 - i) i = some i := by
    rw [hf, findOrder, hne]
    rfl
  have hsplit : ∀ s', splitBlock (s.npage - 2 ^ i) i i s' = s' := by
    intro s'
    cases i with
    | zero => rfl
    | succ i => rw [splitBlock, if_neg (lt_irrefl _)]
  refine ⟨⟨(s.unlink (s.npage - 2 ^ i) i).clearPageProperty (s.npage - 2 ^ i),
    [(s.npage - 2 ^ i, 2 ^ i)]⟩, ?_, fun h => ?_⟩
  · simp [Config.call, buddyAllocPages, hg, hfind, hl, hsplit, Nat.not_lt.mpr hi.le]
  · have hmate : (s.npage - 2 ^ i) ^^^ 2 ^ i = s.npage := by
      rw [hlast, ← mate_mul_pow, mate, if_pos (by omega), Nat.sub_add_cancel (by omega),
        hq, mul_comm]
    have hmem : s.npage ∈ freeIndices ((s.unlink (s.npage - 2 ^ i) i).clearPageProperty
        (s.npage - 2 ^ i)) (s.npage - 2 ^ i) (2 ^ i) := by
      rw [freeIndices, hg]
      simp only [Option.elim, mergeIndices, if_pos hi, resetPages_npage, hmate]
      rw [if_pos (by simp)]
      exact List.mem_singleton_self _
    have := h _ _ (List.mem_singleton_self _) _ hmem
    simp at this

/-! ## Memory sizes -/

theorem buddyInit_setReserved : buddyInit (setReserved s m) = setReserved (buddyInit s) m := by
  unfold buddyInit
  generalize List.range (maxOrder + 1) = l
  induction l generalizing s with
  | nil => rfl
  | cons i l ih =>
    rw [List.foldl_cons, List.foldl_cons, ← ih]
    rfl

theorem roundup_lt (a : ℕ) : roundup a pgsize < 2 ^ 64 := by
  unfold roundup rounddown pgsize
  omega

theorem roundup_eq {a : ℕ} (h : a + pgsize ≤ 2 ^ 64) :
    roundup a pgsize = (a + (pgsize - 1)) / pgsize * pgsize := by
  unfold roundup rounddown pgsize at *
  omega

theorem no_wrap {pages x : ℕ} (hp : pages = 0 ∨ kernbase ≤ pages) (hlt : pages < 2 ^ 64)
    (hx : x < 2 ^ 59) (hk : kernbase ≤ (pages + x) % 2 ^ 64) :
    kernbase ≤ pages ∧ pages + x < 2 ^ 64 := by
  unfold kernbase at *
  omega

/-- When `PADDR` accepts the end of the array, the array starts above `KERNBASE` and memory ends
below `KERNTOP`. -/
theorem pages_fit {e memEnd : ℕ} (hend : kernbase ≤ e) (he : e < 2 ^ 64)
    (hk : kernbase ≤
      (roundup e pgsize + sizeofPage * (min memEnd kerntop / pgsize - nbase)) % 2 ^ 64) :
    min memEnd kerntop / pgsize = memEnd / pgsize ∧ kernbase ≤ roundup e pgsize ∧
      roundup e pgsize + sizeofPage * (memEnd / pgsize - nbase) < 2 ^ 64 := by
  have hround : roundup e pgsize = 0 ∨ kernbase ≤ roundup e pgsize := by
    unfold roundup rounddown kernbase pgsize at *
    omega
  have htop : kerntop = 0xFFFFFFFFC8000000 := rfl
  have hx : sizeofPage * (min memEnd kerntop / pgsize - nbase) < 2 ^ 59 := by
    rw [htop]
    unfold sizeofPage nbase pgsize
    omega
  obtain ⟨h₁, h₂⟩ := no_wrap hround (roundup_lt e) hx hk
  have hmin : min memEnd kerntop = memEnd := by
    rcases Nat.le_total memEnd kerntop with h | h
    · exact Nat.min_eq_left h
    · rw [Nat.min_eq_right h, htop] at h₂
      unfold sizeofPage nbase pgsize kernbase at *
      omega
  rw [hmin] at h₂
  exact ⟨by rw [hmin], h₁, h₂⟩

theorem managed_end {pages freemem memEnd base : ℕ} (hpages : kernbase ≤ pages)
    (hfit : pages + sizeofPage * (memEnd / pgsize - nbase) < 2 ^ 64)
    (hfree : freemem = pages + sizeofPage * (memEnd / pgsize - nbase) - vaPaOffset)
    (hlt : freemem < rounddown memEnd pgsize)
    (hb : base = roundup freemem pgsize / pgsize - nbase) :
    base + (rounddown memEnd pgsize - roundup freemem pgsize) / pgsize =
    memEnd / pgsize - nbase := by
  have hround : roundup freemem pgsize = (freemem + (pgsize - 1)) / pgsize * pgsize := by
    apply roundup_eq
    unfold pgsize kernbase vaPaOffset at *
    omega
  rw [hround] at hb ⊢
  have hdown : rounddown memEnd pgsize = memEnd / pgsize * pgsize := by
    unfold rounddown pgsize
    omega
  rw [hdown] at hlt ⊢
  unfold pgsize nbase kernbase vaPaOffset at *
  omega

/-- What `page_init` has done when it returns. -/
theorem pageInit_eq {memBegin memSize end' : UInt64} (hend : kernbase ≤ end'.toNat)
    (h : pageInit s memBegin memSize end' = some s₀) :
    ∃ base n, kernbase + (base + n) * sizeofPage ≤ 2 ^ 64 ∧
      (n = 0 ∧ s₀ = setReserved s base ∨
        0 < n ∧ buddyInitMemmap (setReserved s (base + n)) base n = some s₀) := by
  unfold pageInit at h
  obtain ⟨-, h⟩ := Option.ite_none_left_eq_some.mp h
  dsimp only at h
  generalize (memBegin + memSize).toNat = memEnd at h
  obtain ⟨-, h⟩ := Option.ite_none_left_eq_some.mp h
  obtain ⟨freemem, hf, h⟩ := Option.bind_eq_some_iff.mp h
  unfold paddr at hf
  obtain ⟨hk, hf⟩ := Option.ite_none_left_eq_some.mp hf
  rw [Option.some.injEq] at hf
  obtain ⟨hnp, hpages, hfit⟩ := pages_fit hend end'.toNat_lt (Nat.not_lt.mp hk)
  rw [hnp, Nat.mod_eq_of_lt hfit] at hf
  rw [hnp] at h
  have hmapped : kernbase + (memEnd / pgsize - nbase) * sizeofPage ≤ 2 ^ 64 := by
    rw [Nat.mul_comm]
    omega
  split at h
  · obtain ⟨base, hp, h⟩ := Option.bind_eq_some_iff.mp h
    unfold pa2page at hp
    obtain ⟨-, hp⟩ := Option.ite_none_left_eq_some.mp hp
    rw [Option.some.injEq] at hp
    have hn := managed_end hpages hfit hf.symm ‹_› hp.symm
    rw [← hn] at h hmapped
    refine ⟨base, _, hmapped, .inr ⟨?_, h⟩⟩
    unfold buddyInitMemmap at h
    exact (Option.ite_none_right_eq_some.mp h).1
  · refine ⟨memEnd / pgsize - nbase, 0, ?_, .inl ⟨rfl, (Option.some.inj h).symm⟩⟩
    rwa [Nat.add_zero]

theorem buddyInitMemmap_reserved (hr : ∀ x, base ≤ x → x < base + n → s.reserved x = true)
    (h : buddyInitMemmap s base n = some s₀) : s₀.npage = s.npage ∧
    ∀ x, s₀.reserved x = true ↔ s.reserved x = true ∧ ¬ (base ≤ x ∧ x < base + n) := by
  obtain ⟨s₁, he, hnp, -, -, hres, -⟩ := initPages_spec hr
  unfold buddyInitMemmap at h
  obtain ⟨-, h⟩ := Option.ite_none_right_eq_some.mp h
  rw [he, Option.bind_some] at h
  obtain ⟨h₁, h₂⟩ := initBlocks_frame h
  rw [h₁, h₂]
  exact ⟨hnp, hres⟩

/-- One of the pages of the last block of the array is not managed. -/
def EdgeReserved (s : State) : Prop :=
  ∀ i < maxOrder, 2 ^ i ∣ s.npage → ¬ 2 ^ (i + 1) ∣ s.npage →
    ∃ p, s.npage - 2 ^ i ≤ p ∧ p < s.npage ∧ s.reserved p = true

theorem pageInit_reserved {memBegin memSize end' : UInt64} (hend : kernbase ≤ end'.toNat)
    (h : pageInit (buddyInit s) memBegin memSize end' = some s₀) :
    ∃ base n, kernbase + s₀.npage * sizeofPage ≤ 2 ^ 64 ∧ s₀.npage = base + n ∧
      (∀ p < s₀.npage, s₀.reserved p = true ↔ p < base) ∧
      (n = 0 ∧ s₀ = buddyInit (setReserved s base) ∨
        0 < n ∧ buddyInitMemmap (buddyInit (setReserved s (base + n))) base n = some s₀) := by
  obtain ⟨base, n, hm, hcase⟩ := pageInit_eq hend h
  simp only [← buddyInit_setReserved] at hcase
  rcases hcase with ⟨rfl, rfl⟩ | ⟨hn, he⟩
  · obtain ⟨hnp, hres, -⟩ := buddyInit_spec (setReserved s base)
    refine ⟨base, 0, ?_, hnp, fun p hp => ?_, .inl ⟨rfl, rfl⟩⟩
    · rw [hnp]
      exact hm
    · rw [hnp] at hp
      have hp : p < base := hp
      rw [hres]
      simp [setReserved, hp]
  · obtain ⟨hnp, hres, -⟩ := buddyInit_spec (setReserved s (base + n))
    obtain ⟨h₁, h₂⟩ := buddyInitMemmap_reserved
      (fun p _ hp => by rw [hres]; simp [setReserved, hp]) he
    rw [hnp] at h₁
    have h₁ : s₀.npage = base + n := h₁
    refine ⟨base, n, by rwa [h₁], h₁, fun p hp => ?_, .inr ⟨hn, he⟩⟩
    rw [h₁] at hp
    rw [h₂, hres]
    simp only [setReserved, if_pos hp, true_and]
    omega

theorem edgeReserved_iff (hn : s.npage = base + n)
    (hres : ∀ p < s.npage, s.reserved p = true ↔ p < base) :
    EdgeReserved s ↔ Edge base s.npage := by
  unfold EdgeReserved Edge
  refine forall₂_congr fun i _ => forall₂_congr fun hd hnd => ?_
  constructor
  · rintro ⟨p, hp, hp', hr⟩
    have := (hres p hp').mp hr
    omega
  · intro hlt
    have hpos := Nat.two_pow_pos i
    have hne : s.npage ≠ 0 := by
      rintro h0
      rw [h0] at hnd
      exact hnd (dvd_zero _)
    have hle := Nat.le_of_dvd (Nat.pos_of_ne_zero hne) hd
    exact ⟨s.npage - 2 ^ i, le_rfl, by omega, (hres _ (by omega)).mpr (by omega)⟩

/-- The merges of all runs stay in the array exactly when the number of descriptors is a multiple of
the largest blocks or the last block of the array is not wholly managed. -/
theorem buddy_merge_inside (s s₀ : State) (memBegin memSize end' : UInt64)
    (hend : kernbase ≤ end'.toNat) (h : pageInit (buddyInit s) memBegin memSize end' = some s₀) :
    (∀ ops c, Runs (fun c op c' => c.Allowed op ∧ c.call op = some c') ⟨s₀, []⟩ ops c →
      MergesInside c) ↔ EdgeReserved s₀ := by
  obtain ⟨base, n, hm, hnp, hres, hcase⟩ := pageInit_reserved hend h
  rw [edgeReserved_iff hnp hres]
  constructor
  · -- the free of the last block would leave the array
    intro hall
    by_contra hedge
    unfold Edge at hedge
    push Not at hedge
    obtain ⟨i, hi, hd, hn, hle⟩ := hedge
    have hpos := Nat.two_pow_pos i
    rcases hcase with ⟨rfl, -⟩ | ⟨hn0, he⟩
    · omega
    · unfold buddyInitMemmap at he
      obtain ⟨-, he⟩ := Option.ite_none_right_eq_some.mp he
      obtain ⟨s₁, -, he⟩ := Option.bind_eq_some_iff.mp he
      have hlast := initBlocks_last hi (hnp ▸ hd) (hnp ▸ hn) (by omega) he
      rw [← hnp] at hlast
      obtain ⟨c, hc, hbad⟩ := not_mergesInside hi hd hn hlast
      have hruns : Runs (fun c op c' => Config.Allowed c op ∧ c.call op = some c') ⟨s₀, []⟩
          [.alloc (2 ^ i)] c := .cons ⟨hpos, hc⟩ (.nil c)
      exact hbad (hall _ c hruns)
  · intro hedge ops c hruns
    obtain ⟨free, hinv⟩ : ∃ free, Inv base n s₀ free fun x => base ≤ x ∧ x < base + n := by
      rcases hcase with ⟨rfl, rfl⟩ | ⟨hn0, he⟩
      · obtain ⟨-, -, hlists⟩ := buddyInit_spec (setReserved s base)
        refine ⟨fun _ => [], (Inv.empty hedge hm hnp.ge hlists (fun p hp hp' => ?_) ?_).congr ?_⟩
        · omega
        · intro p hp
          rw [hres p hp]
          omega
        · intro x
          simp only [iff_false]
          omega
      · rw [hnp] at hedge hm
        obtain ⟨s', free, hs', hi⟩ := buddyInitMemmap_inv (s := setReserved s (base + n))
          hedge hm hn0
          le_rfl fun p hp => if_pos hp
        obtain rfl := Option.some.inj (he.symm.trans hs')
        exact ⟨free, hi⟩
    have ht : Tiled base n c := by
      apply hruns.invariant (P := Tiled base n)
      · exact fun c op c' ht hs => ht.call hs.1 hs.2
      · exact ⟨free, _, hinv, Held.nil⟩
    exact ht.mergesInside

/-- The descriptors before `page_init`. -/
def blank : State where
  npage := 0
  ref := fun _ => 0
  reserved := fun _ => false
  pageProperty := fun _ => false
  property := fun _ => 0
  links := ⟨fun x => x, fun x => x⟩
  nrFree := fun _ => 0

/-- 528 descriptors, the last three of them managed. -/
theorem buddy_merge_inside_528 : kernbase ≤ (0xFFFFFFFFC0200000 : UInt64).toNat ∧
    ∃ s₀, pageInit (buddyInit blank) 0x80000000 0x210000 0xFFFFFFFFC0200000 = some s₀ ∧
      ((∀ ops c, Runs (fun c op c' => c.Allowed op ∧ c.call op = some c') ⟨s₀, []⟩ ops c →
        MergesInside c) ↔ EdgeReserved s₀) := by
  have hend : kernbase ≤ (0xFFFFFFFFC0200000 : UInt64).toNat := by decide
  obtain ⟨s₀, h⟩ := Option.isSome_iff_exists.mp (by decide +kernel :
    (pageInit (buddyInit blank) 0x80000000 0x210000 0xFFFFFFFFC0200000).isSome = true)
  exact ⟨hend, s₀, h, buddy_merge_inside blank s₀ _ _ _ hend h⟩

/-- 527 descriptors, the last two of them managed: a request gets page 526, whose mate is 527. -/
theorem buddy_merge_leaves : ∃ s₀ c,
    pageInit (buddyInit blank) 0x80000000 0x20F000 0xFFFFFFFFC0200000 = some s₀ ∧
      Runs (fun c op c' => c.Allowed op ∧ c.call op = some c') ⟨s₀, []⟩ [.alloc 1] c ∧
      c.live = [(526, 1)] ∧ c.state.npage = 527 ∧ 527 ∈ freeIndices c.state 526 1 ∧
      ¬ MergesInside c := by
  have hrun : ((pageInit (buddyInit blank) 0x80000000 0x20F000 0xFFFFFFFFC0200000).bind fun s₀ =>
      (⟨s₀, []⟩ : Config).call (.alloc 1)).map
        (fun c => (c.live, c.state.npage, freeIndices c.state 526 1)) =
      some ([(526, 1)], 527, [527]) := by decide +kernel
  obtain ⟨c, hc, he⟩ := Option.map_eq_some_iff.mp hrun
  obtain ⟨s₀, hs, hc⟩ := Option.bind_eq_some_iff.mp hc
  simp only [Prod.mk.injEq] at he
  obtain ⟨hl, hn, hi⟩ := he
  have hmem : 527 ∈ freeIndices c.state 526 1 := by
    rw [hi]
    exact List.mem_singleton_self _
  refine ⟨s₀, c, hs, .cons ⟨Nat.one_pos, hc⟩ (.nil c), hl, hn, hmem, fun h => ?_⟩
  have := h 526 1 (by simp [hl]) 527 hmem
  omega

end UCore.Buddy

import Mathlib.Algebra.Order.BigOperators.Group.List
import UCore.FirstFit.Blocks

/-! # Safety and completeness of the first-fit allocator

Along every run in which no free inserts at the tail of a non-empty list, the
free list stays well formed, and the listed blocks and the live allocations
share out the managed pages. A free at the tail breaks the list, and a page can
then be handed out twice.

The listed blocks are the maximal runs of free pages, because a freed block is
merged with both neighbours. An allocation then fails only when no run of free
pages is long enough, and takes the lowest one otherwise. A free at the tail of
a non-empty list misses the merge with the preceding block.
-/

namespace UCore.FirstFit

open Library

variable {lo n base k : ℕ} {s : State} {bs : List ℕ} {c c' : Config}

/-- The list is empty, or its last block lies above `base`. -/
def BelowTail (s : State) (base : ℕ) : Prop :=
  match listPrev s.links .freeList with
  | .freeList => True
  | .pageLink q => base < q

theorem Wf.belowTail {xs ys : List ℕ} (w : Wf lo n s (xs ++ ys)) (hb : BelowTail s base)
    (hx : ∀ x ∈ xs, x + s.property x ≤ base) (hy : ys = []) : xs = [] := by
  subst hy
  rcases List.eq_nil_or_concat xs with rfl | ⟨zs, z, rfl⟩
  · rfl
  · have hz : s.links.prev .freeList = .pageLink z := by simpa using w.ring.prev_head
    have := hx z (by simp)
    simp only [BelowTail, listPrev, hz] at hb
    omega

theorem Wf.take {page : ℕ} (w : Wf lo n s bs) (hn : n < 2 ^ 32) (hk : 0 < k) (hb : page ∈ bs)
    (hp : k ≤ s.property page) :
    ∃ bs', Wf lo n (takeBlock s page k) bs' ∧ span page k ⊆ cells s.property bs ∧
      cells (takeBlock s page k).property bs' = cells s.property bs \ span page k ∧
      (Gapped s.property bs → Gapped (takeBlock s page k).property bs') := by
  obtain ⟨xs, ys, rfl⟩ := List.append_of_mem hb
  have hsub : span page k ⊆ cells s.property (xs ++ page :: ys) := by
    intro p h
    simp only [Finset.mem_Ico] at h
    exact mem_cells.mpr ⟨page, by simp, h.1, by omega⟩
  rcases hp.eq_or_lt with rfl | hlt
  · obtain ⟨hw, hc, hg⟩ := w.takeBlock_all hn
    exact ⟨_, hw, hsub, hc, hg⟩
  · obtain ⟨hw, hc, hg⟩ := w.takeBlock_part hn hk hlt
    exact ⟨_, hw, hsub, hc, hg⟩

theorem defaultAllocPages_spec (w : Wf lo n s bs) (hn : n < 2 ^ 32) (hk : 0 < k) :
    defaultAllocPages s k = some (none, s) ∨
      ∃ page s' bs', defaultAllocPages s k = some (some page, s') ∧ Wf lo n s' bs' ∧
        span page k ⊆ cells s.property bs ∧
        cells s'.property bs' = cells s.property bs \ span page k ∧
        (Gapped s.property bs → Gapped s'.property bs') := by
  by_cases hf : s.nrFree < k
  · exact Or.inl (by simp [defaultAllocPages, hk, hf])
  have hs : allocScan s k (s.npage + 3) .freeList =
    some (bs.find? fun b => decide (k ≤ s.property b)) :=
    allocScan_eq w.ring.path (by have := w.length_le; omega)
  cases hb : bs.find? fun b => decide (k ≤ s.property b) with
  | none => exact Or.inl (by simp [defaultAllocPages, hk, hf, hs, hb])
  | some page =>
    have hp : k ≤ s.property page := by simpa using List.find?_some hb
    have he : defaultAllocPages s k = some (some page, takeBlock s page k) := by
      simp [defaultAllocPages, hk, hf, hs, hb]
    obtain ⟨bs', hw, hsub, hc, hg⟩ := w.take hn hk (List.mem_of_find?_eq_some hb) hp
    exact Or.inr ⟨page, _, bs', he, hw, hsub, hc, hg⟩

theorem defaultFreePages_spec (w : Wf lo n s bs) (hn : n < 2 ^ 32) (hk : 0 < k) (hl : lo ≤ base)
    (hh : base + k ≤ lo + n) (hd : Disjoint (span base k) (cells s.property bs))
    (hb : BelowTail s base) :
    ∃ s' bs', defaultFreePages s base k = some s' ∧ Wf lo n s' bs' ∧
      cells s'.property bs' = cells s.property bs ∪ span base k ∧
      (Gapped s.property bs → Gapped s'.property bs') := by
  have hflags : ∀ p ∈ span base k, s.reserved p = false ∧ s.pageProperty p = false := by
    intro p hp
    have hpm : lo ≤ p ∧ p < lo + n := by simp at hp; omega
    refine ⟨w.unreserved p hpm.1 hpm.2, ?_⟩
    rw [Bool.eq_false_iff]
    intro ht
    have := (w.head_iff p hpm.1 hpm.2).mp ht
    exact Finset.disjoint_left.mp hd hp (w.blocks.head_mem_cells this)
  obtain ⟨r, hr⟩ := resetPages_eq hflags
  have hf : s.nrFree + k ≤ n := by
    have := w.blocks.add_le hl hh hd
    rw [w.total] at this
    omega
  obtain ⟨xs, ys, rfl, hx, hy⟩ := w.blocks.split hk hd
  obtain ⟨s₁, he₁, w₁, hp₁⟩ := (w.setRef r).insertBlock_eq hk hn hl hh hx hy hf
    (w.belowTail hb hx)
  obtain ⟨xs', w₂, hc₂, hg₂⟩ := w₁.mergePrev hn
  obtain ⟨ys', w₃, hc₃, hg₃⟩ := w₂.mergeNext hn
  refine ⟨_, _, ?_, w₃, ?_, ?_⟩
  · simp only [defaultFreePages, hk, if_true, hr, Option.bind_eq_bind, Option.bind_some, he₁]
  · rw [hc₃, hc₂, hp₁]
    exact w.blocks.cells_insert hk hx hy
  · intro g
    apply hg₃
    apply hg₂
    intro a ha
    rw [hp₁, w.blocks.update_of_split hk hx hy a ha]
    exact g a ha

/-- What holds in the states of a run: the free list is that of `bs`, and the pages outside its
blocks are those of the allocations. -/
structure Inv (lo n : ℕ) (c : Config) (bs : List ℕ) : Prop where
  wf : Wf lo n c.state bs
  managed : ∀ A ∈ c.live, A ⊆ span lo n
  count : ∀ p ∈ span lo n,
    c.live.countP (fun A => decide (p ∈ A)) = if p ∈ cells c.state.property bs then 0 else 1

theorem Inv.not_mem_cells (h : Inv lo n c bs) {p : ℕ} {A : Finset ℕ} (hA : A ∈ c.live)
    (hp : p ∈ A) : p ∉ cells c.state.property bs := by
  intro hc
  have hz := h.count p (h.managed A hA hp)
  rw [if_pos hc, List.countP_eq_zero] at hz
  exact hz A hA (by simpa using hp)

theorem Inv.not_live (h : Inv lo n c bs) {p : ℕ} (hp : p ∈ cells c.state.property bs) :
    ∀ A ∈ c.live, p ∉ A := fun _ hA hpA => h.not_mem_cells hA hpA hp

/-- The condition on the state before a call: a free does not insert at the tail. -/
def Guarded (c : Config) : Op → Prop
  | .alloc _ => True
  | .free base _ => BelowTail c.state base

theorem Inv.take (h : Inv lo n c bs) {page : ℕ} {bs' : List ℕ} (w : Wf lo n s bs')
    (hs : span page k ⊆ cells c.state.property bs)
    (hc : cells s.property bs' = cells c.state.property bs \ span page k) :
    Inv lo n ⟨s, span page k :: c.live⟩ bs' := by
  refine ⟨w, ?_, ?_⟩
  · intro A hA
    rcases List.mem_cons.mp hA with rfl | hA
    · have := hs.trans h.wf.blocks.cells_subset
      simpa using this
    · exact h.managed A hA
  · intro p hp
    rw [List.countP_cons, h.count p hp, hc]
    by_cases hps : p ∈ span page k
    · have hpc := hs hps
      simp only [Finset.mem_sdiff, hps, hpc]
      simp
    · simp only [Finset.mem_sdiff, hps]
      simp

theorem Inv.alloc (h : Inv lo n c bs) (hn : n < 2 ^ 32) (hk : 0 < k) :
    ∃ c' bs', c.call (.alloc k) = some c' ∧ Inv lo n c' bs' ∧
      (Gapped c.state.property bs → Gapped c'.state.property bs') := by
  rcases defaultAllocPages_spec h.wf hn hk with he | ⟨page, s', bs', he, w, hs, hc, hg⟩
  · exact ⟨c, bs, by simp [Config.call, he], h, id⟩
  · exact ⟨_, bs', by simp [Config.call, he], h.take w hs hc, hg⟩

theorem Inv.free (h : Inv lo n c bs) (hn : n < 2 ^ 32) (hk : 0 < k) (ha : c.Allocated base k)
    (hb : BelowTail c.state base) :
    ∃ c' bs', c.call (.free base k) = some c' ∧ Inv lo n c' bs' ∧
      (Gapped c.state.property bs → Gapped c'.state.property bs') := by
  have hm : ∀ p ∈ span base k, p ∈ span lo n := by
    intro p hp
    obtain ⟨A, hA, hpA⟩ := ha p hp
    exact h.managed A hA hpA
  have hl : lo ≤ base := (Finset.mem_Ico.mp (hm base (by simp; omega))).1
  have hh : base + k ≤ lo + n := by
    have := (Finset.mem_Ico.mp (hm (base + k - 1) (by simp; omega))).2
    omega
  have hd : Disjoint (span base k) (cells c.state.property bs) := by
    rw [Finset.disjoint_left]
    intro p hp
    obtain ⟨A, hA, hpA⟩ := ha p hp
    exact h.not_mem_cells hA hpA
  obtain ⟨s', bs', he, w, hc, hg⟩ := defaultFreePages_spec h.wf hn hk hl hh hd hb
  refine ⟨⟨s', c.live.map (· \ span base k)⟩, bs', by simp [Config.call, ha, he],
    ⟨w, ?_, ?_⟩, hg⟩
  · intro A hA
    obtain ⟨B, hB, rfl⟩ := List.mem_map.mp hA
    exact Finset.sdiff_subset.trans (h.managed B hB)
  · intro p hp
    rw [List.countP_map, hc]
    by_cases hps : p ∈ span base k
    · have : ((fun A => decide (p ∈ A)) ∘ fun A : Finset ℕ => A \ span base k) =
        fun _ => false := by
        funext A; simp only [Function.comp, Finset.mem_sdiff, hps]; simp
      rw [this]
      simp only [Finset.mem_union, hps]
      simp
    · have : ((fun A => decide (p ∈ A)) ∘ fun A : Finset ℕ => A \ span base k) =
          fun A => decide (p ∈ A) := by
        funext A; simp only [Function.comp, Finset.mem_sdiff, hps]; simp
      rw [this, h.count p hp]
      simp only [Finset.mem_union, hps, or_false]

theorem Inv.step (h : Inv lo n c bs) (hn : n < 2 ^ 32) {op : Op} (hg : Guarded c op)
    (hc : c.call op = some c') :
    ∃ bs', Inv lo n c' bs' ∧ (Gapped c.state.property bs → Gapped c'.state.property bs') := by
  cases op with
  | alloc k =>
    rcases Nat.eq_zero_or_pos k with rfl | hk
    · simp [Config.call, defaultAllocPages] at hc
    · obtain ⟨c₁, bs', he, h'⟩ := h.alloc hn hk
      obtain rfl : c₁ = c' := Option.some.inj (he.symm.trans hc)
      exact ⟨bs', h'⟩
  | free base k =>
    rcases Nat.eq_zero_or_pos k with rfl | hk
    · simp [Config.call, defaultFreePages] at hc
    · have ha : c.Allocated base k := by
        by_contra hn
        simp [Config.call, hn] at hc
      obtain ⟨c₁, bs', he, h'⟩ := h.free hn hk ha hg
      obtain rfl : c₁ = c' := Option.some.inj (he.symm.trans hc)
      exact ⟨bs', h'⟩

theorem boot_inv (h0 : 0 < n) (hn : n < 2 ^ 32) (hf : lo + n ≤ s.npage)
    (hr : ∀ p ∈ span lo n, s.reserved p = true) :
    ∃ c, boot s lo n = some c ∧ Inv lo n c [lo] := by
  obtain ⟨s₁, he₁, hl₁, hf₁, hn₁, hin, -⟩ := initPages_eq (s := defaultInit s) hr
  have w : Wf lo n s₁ ([] ++ []) := by
    refine ⟨?_, .nil, ?_, ?_, by simp [hf₁, defaultInit], by simpa [hn₁, defaultInit] using hf⟩
    · rw [hl₁]; exact listInit_ring
    · intro p h₁ h₂
      simp [(hin p (by simp [h₁, h₂])).2]
    · intro p h₁ h₂
      exact (hin p (by simp [h₁, h₂])).1
  obtain ⟨s₂, he₂, w₂, hp₂⟩ := w.insertBlock_eq h0 hn le_rfl le_rfl (by simp) (by simp)
    (by simp [hf₁, defaultInit]) (fun _ => rfl)
  refine ⟨⟨s₂, []⟩, by simp [boot, defaultInitMemmap, h0, he₁, he₂], w₂, by simp, ?_⟩
  intro p hp
  have hc : p ∈ cells s₂.property [lo] := by
    rw [hp₂]
    simpa using hp
  exact (if_pos hc).symm

/-- What a state of the allocator and its clients should satisfy, `bs` being the listed heads. -/
structure Safe (lo n : ℕ) (c : Config) (bs : List ℕ) : Prop where
  path : c.state.links.Path .freeList (bs.map .pageLink) .freeList
  inverse : ∀ e ∈ .freeList :: bs.map .pageLink,
    c.state.links.prev (c.state.links.next e) = e ∧ c.state.links.next (c.state.links.prev e) = e
  sorted : bs.Pairwise (· < ·)
  managed : ∀ b ∈ bs, b ∈ span lo n
  head_iff : ∀ p ∈ span lo n, (c.state.pageProperty p = true ↔ p ∈ bs)
  total : (bs.map c.state.property).sum = c.state.nrFree
  once : ∀ p ∈ span lo n, bs.countP (fun b => decide (p ∈ span b (c.state.property b))) +
    c.live.countP (fun A => decide (p ∈ A)) = 1

theorem Inv.safe (h : Inv lo n c bs) : Safe lo n c bs := by
  refine ⟨h.wf.ring.path, ?_, h.wf.blocks.sorted, ?_, ?_, h.wf.total, ?_⟩
  · intro e he
    exact ⟨h.wf.ring.prev_next e he, h.wf.ring.next_prev e he⟩
  · intro b hb
    exact h.wf.blocks.cells_subset (h.wf.blocks.head_mem_cells hb)
  · intro p hp
    obtain ⟨h₁, h₂⟩ := Finset.mem_Ico.mp hp
    exact h.wf.head_iff p h₁ h₂
  · intro p hp
    rw [h.wf.blocks.countP_eq, h.count p hp]
    split <;> rfl

theorem Inv.fresh (h : Inv lo n c bs) (hn : n < 2 ^ 32) {page : ℕ}
    (ha : defaultAllocPages c.state k = some (some page, s)) :
    ∀ p ∈ span page k, p ∈ span lo n ∧ ∀ A ∈ c.live, p ∉ A := by
  rcases Nat.eq_zero_or_pos k with rfl | hk
  · simp [defaultAllocPages] at ha
  rcases defaultAllocPages_spec h.wf hn hk with he | ⟨page', s', bs', he, -, hs, -⟩
  · simp [he] at ha
  · obtain ⟨rfl, -⟩ : page' = page ∧ s' = s := by simpa [he] using ha
    intro p hp
    exact ⟨h.wf.blocks.cells_subset (hs hp), h.not_live (hs hp)⟩

/-- Along every run whose frees do not insert at the tail of a non-empty list, every state is safe,
no page is handed out while it is live, and no call fails an assertion or loops. -/
theorem firstFit_safe (s : State) (lo n : ℕ) (h0 : 0 < n) (hn : n < 2 ^ 32)
    (hf : lo + n ≤ s.npage) (hr : ∀ p ∈ span lo n, s.reserved p = true) :
    ∃ c₀, boot s lo n = some c₀ ∧ ∀ ops c,
      Runs (fun c op c' => Guarded c op ∧ c.call op = some c') c₀ ops c →
        (∃ bs, Safe lo n c bs) ∧
        (∀ k page s', defaultAllocPages c.state k = some (some page, s') →
          ∀ p ∈ span page k, p ∈ span lo n ∧ ∀ A ∈ c.live, p ∉ A) ∧
        (∀ k, 0 < k → (c.call (.alloc k)).isSome) ∧
        ∀ base k, 0 < k → c.Allocated base k → BelowTail c.state base →
          (c.call (.free base k)).isSome := by
  obtain ⟨c₀, hb, h₀⟩ := boot_inv h0 hn hf hr
  refine ⟨c₀, hb, fun ops c hruns => ?_⟩
  obtain ⟨bs, h⟩ : ∃ bs, Inv lo n c bs :=
    hruns.invariant (P := fun c => ∃ bs, Inv lo n c bs)
      (fun c op c' ⟨bs, h⟩ ⟨hg, hc⟩ => (h.step hn hg hc).imp fun _ h => h.1) ⟨_, h₀⟩
  refine ⟨⟨bs, h.safe⟩, fun k page s' ha => h.fresh hn ha, ?_, ?_⟩
  · intro k hk
    obtain ⟨c', -, he, -, -⟩ := h.alloc hn hk
    simp [he]
  · intro base k hk ha hg
    obtain ⟨c', -, he, -, -⟩ := h.free hn hk ha hg
    simp [he]

/-- Six reserved pages, before the allocator is set up. -/
def sixPages : State where
  npage := 6
  ref _ := 0
  reserved _ := true
  pageProperty _ := false
  property _ := 0
  links := ⟨id, id⟩
  nrFree := 0

instance BelowTail.decidable (s : State) (base : ℕ) : Decidable (BelowTail s base) := by
  unfold BelowTail
  split <;> infer_instance

instance Guarded.decidable (c : Config) : DecidablePred (Guarded c)
  | .alloc _ => .isTrue trivial
  | .free base _ => inferInstanceAs (Decidable (BelowTail c.state base))

/-- A block is freed below the others, and two requests are answered from different blocks. -/
def belowTrace : List Op := [.alloc 2, .alloc 1, .free 0 2, .alloc 1, .alloc 2]

theorem belowTrace_runs : ∃ c₀ c, boot sixPages 0 6 = some c₀ ∧
    Runs (fun c op c' => Guarded c op ∧ c.call op = some c') c₀ belowTrace c ∧
      c.live = [{3, 4}, {0}, {2}, ∅] := by
  have hc : ((boot sixPages 0 6).bind fun c₀ => belowTrace.foldlM
      (fun c op => if Guarded c op then c.call op else none) c₀).map Config.live =
        some [{3, 4}, {0}, {2}, ∅] := by decide
  obtain ⟨c, hr, hl⟩ := Option.map_eq_some_iff.mp hc
  obtain ⟨c₀, hb, hr⟩ := Option.bind_eq_some_iff.mp hr
  exact ⟨c₀, c, hb, .of_guard hr, hl⟩

theorem firstFit_safe_sixPages : ∃ c₀ c, boot sixPages 0 6 = some c₀ ∧
    Runs (fun c op c' => Guarded c op ∧ c.call op = some c') c₀ belowTrace c ∧
      c.live = [{3, 4}, {0}, {2}, ∅] ∧ ∃ bs, Safe 0 6 c bs := by
  obtain ⟨c₀, c, hb, hr, hl⟩ := belowTrace_runs
  obtain ⟨c₁, hb₁, h⟩ := firstFit_safe sixPages 0 6 (by decide) (by decide) (by decide)
    (fun _ _ => rfl)
  obtain rfl := Option.some.inj (hb.symm.trans hb₁)
  exact ⟨c₀, c, hb, hr, hl, (h _ c hr).1⟩

/-- All pages are handed out, then blocks are freed in increasing order and one is taken twice. -/
def tailTrace : List Op :=
  [.alloc 1, .alloc 1, .alloc 1, .alloc 1, .alloc 2, .free 0 1, .free 2 1, .free 4 2, .alloc 2,
    .alloc 2]

/-- Frees at the tail: page 4 ends in two live allocations, and no sequence of heads is safe. -/
theorem firstFit_tail_unsafe :
    ∃ c₀ c, boot sixPages 0 6 = some c₀ ∧
      Runs (fun c op c' => c.call op = some c') c₀ tailTrace c ∧
      c.live.countP (fun A => decide (4 ∈ A)) = 2 ∧ ¬ ∃ bs, Safe 0 6 c bs := by
  have hc : ((boot sixPages 0 6).bind fun c₀ => tailTrace.foldlM Config.call c₀).map
      (fun c => c.live.countP fun A => decide (4 ∈ A)) = some 2 := by decide
  obtain ⟨c, hr, hl⟩ := Option.map_eq_some_iff.mp hc
  obtain ⟨c₀, hb, hr⟩ := Option.bind_eq_some_iff.mp hr
  refine ⟨c₀, c, hb, Runs.iff_foldlM.mpr hr, hl, ?_⟩
  rintro ⟨bs, h⟩
  have := h.once 4 (by decide)
  omega

section Complete

/-- A managed page that belongs to no live allocation. -/
def Config.FreePage (c : Config) (lo n p : ℕ) : Prop := p ∈ span lo n ∧ ∀ A ∈ c.live, p ∉ A

/-- The free list holds exactly the maximal runs of free pages, with their lengths. -/
def Coalesced (lo n : ℕ) (c : Config) (bs : List ℕ) : Prop :=
  c.state.links.Path .freeList (bs.map .pageLink) .freeList ∧
    ∀ b m, MaximalRun (c.FreePage lo n) b m ↔ b ∈ bs ∧ c.state.property b = m

/-- The answers to a request for `k` pages are those of first fit. -/
structure FirstFits (lo n : ℕ) (c : Config) (k : ℕ) : Prop where
  fails_iff : (∃ s', defaultAllocPages c.state k = some (none, s')) ↔
    ∀ b, ¬ ∀ p ∈ span b k, c.FreePage lo n p
  lowest : ∀ page s', defaultAllocPages c.state k = some (some page, s') →
    ∃ m, MaximalRun (c.FreePage lo n) page m ∧ k ≤ m ∧
      ∀ b m', MaximalRun (c.FreePage lo n) b m' → k ≤ m' → page ≤ b

theorem Wf.defaultAllocPages_eq (w : Wf lo n s bs) (hk : 0 < k) :
    ∃ s', defaultAllocPages s k =
      some (bs.find? fun b => decide (k ≤ s.property b), s') := by
  by_cases hf : s.nrFree < k
  · refine ⟨s, ?_⟩
    have hb : (bs.find? fun b => decide (k ≤ s.property b)) = none := by
      rw [List.find?_eq_none]
      intro b hb hle
      have hs := List.le_sum_of_mem (List.mem_map_of_mem (f := s.property) hb)
      rw [w.total] at hs
      have := of_decide_eq_true hle
      omega
    simp [defaultAllocPages, hk, hf, hb]
  · have hs : allocScan s k (s.npage + 3) .freeList =
        some (bs.find? fun b => decide (k ≤ s.property b)) := by
      apply allocScan_eq w.ring.path
      have := w.length_le
      omega
    cases hb : bs.find? fun b => decide (k ≤ s.property b) with
    | none => exact ⟨s, by simp [defaultAllocPages, hk, hf, hs, hb]⟩
    | some page => exact ⟨takeBlock s page k, by simp [defaultAllocPages, hk, hf, hs, hb]⟩

namespace Inv

theorem freePage_iff (h : Inv lo n c bs) (p : ℕ) :
    p ∈ cells c.state.property bs ↔ c.FreePage lo n p := by
  constructor
  · intro hp
    exact ⟨h.wf.blocks.cells_subset hp, h.not_live hp⟩
  · rintro ⟨hp, hl⟩
    by_contra hn
    have hc := h.count p hp
    rw [if_neg hn] at hc
    have hpos : 0 < c.live.countP fun A => decide (p ∈ A) := by omega
    obtain ⟨A, hA, hpA⟩ := List.countP_pos_iff.mp hpos
    exact hl A hA (by simpa using hpA)

theorem coalesced (h : Inv lo n c bs) (g : Gapped c.state.property bs) : Coalesced lo n c bs := by
  constructor
  · exact h.wf.ring.path
  · intro b m
    rw [← maximalRun_congr h.freePage_iff]
    exact g.maximalRun_iff h.wf.blocks

theorem firstFits (h : Inv lo n c bs) (g : Gapped c.state.property bs) (hk : 0 < k) :
    FirstFits lo n c k := by
  obtain ⟨s', he⟩ := h.wf.defaultAllocPages_eq hk
  constructor
  · have hn := g.find?_eq_none h.wf.blocks hk
    simp only [h.freePage_iff] at hn
    rw [← hn, he]
    simp
  · intro page s₁ ha
    rw [he] at ha
    have hb : bs.find? (fun b => decide (k ≤ c.state.property b)) = some page := by
      simpa using congrArg (fun o => o.map Prod.fst) ha
    obtain ⟨hr, hle, hmin⟩ := g.find?_eq_some h.wf.blocks hb
    simp only [maximalRun_congr h.freePage_iff] at hr hmin
    exact ⟨_, hr, hle, hmin⟩

end Inv

/-- Along every run whose frees do not insert at the tail of a non-empty list, the listed blocks are
the maximal runs of free pages, and every allocation is answered as first fit answers it. -/
theorem firstFit_complete (s : State) (lo n : ℕ) (h0 : 0 < n) (hn : n < 2 ^ 32)
    (hf : lo + n ≤ s.npage) (hr : ∀ p ∈ span lo n, s.reserved p = true) :
    ∃ c₀, boot s lo n = some c₀ ∧ ∀ ops c,
      Runs (fun c op c' => Guarded c op ∧ c.call op = some c') c₀ ops c →
        (∃ bs, Coalesced lo n c bs) ∧
        ∀ k, 0 < k → (defaultAllocPages c.state k).isSome ∧ FirstFits lo n c k := by
  obtain ⟨c₀, hb, h₀⟩ := boot_inv h0 hn hf hr
  refine ⟨c₀, hb, fun ops c hruns => ?_⟩
  obtain ⟨bs, h, g⟩ : ∃ bs, Inv lo n c bs ∧ Gapped c.state.property bs := by
    apply hruns.invariant (P := fun c => ∃ bs, Inv lo n c bs ∧ Gapped c.state.property bs)
    · rintro c op c' ⟨bs, h, g⟩ ⟨hg, hc⟩
      obtain ⟨bs', h', g'⟩ := h.step hn hg hc
      exact ⟨bs', h', g' g⟩
    · exact ⟨[lo], h₀, h₀.wf.blocks.gapped_singleton⟩
  refine ⟨⟨bs, h.coalesced g⟩, fun k hk => ⟨?_, h.firstFits g hk⟩⟩
  obtain ⟨s', he⟩ := h.wf.defaultAllocPages_eq hk
  simp [he]

theorem firstFit_complete_sixPages : ∃ c₀ c, boot sixPages 0 6 = some c₀ ∧
    Runs (fun c op c' => Guarded c op ∧ c.call op = some c') c₀ belowTrace c ∧
      c.live = [{3, 4}, {0}, {2}, ∅] ∧ FirstFits 0 6 c 1 := by
  obtain ⟨c₀, c, hb, hr, hl⟩ := belowTrace_runs
  obtain ⟨c₁, hb₁, h⟩ := firstFit_complete sixPages 0 6 (by decide) (by decide) (by decide)
    (fun _ _ => rfl)
  obtain rfl := Option.some.inj (hb.symm.trans hb₁)
  exact ⟨c₀, c, hb, hr, hl, ((h _ c hr).2 1 (by decide)).2⟩

/-- All pages are handed out, then the first two are freed in increasing order. -/
def splitTrace : List Op := [.alloc 1, .alloc 1, .alloc 4, .free 0 1, .free 1 1]

/-- A free at the tail is not merged: two adjacent pages are free and a request for two fails. -/
theorem firstFit_tail_incomplete :
    ∃ c₀ c, boot sixPages 0 6 = some c₀ ∧
      Runs (fun c op c' => c.call op = some c') c₀ splitTrace c ∧
      (∀ p ∈ span 0 2, c.FreePage 0 6 p) ∧ ∃ s', defaultAllocPages c.state 2 = some (none, s') := by
  have hc : ((boot sixPages 0 6).bind fun c₀ => splitTrace.foldlM Config.call c₀).map
      (fun c => (c.live, (defaultAllocPages c.state 2).map Prod.fst)) =
        some ([{2, 3, 4, 5}, ∅, ∅], some none) := by decide
  obtain ⟨c, hr, hl⟩ := Option.map_eq_some_iff.mp hc
  obtain ⟨c₀, hb, hr⟩ := Option.bind_eq_some_iff.mp hr
  obtain ⟨hlive, ha⟩ := Prod.mk.inj hl
  obtain ⟨⟨o, s'⟩, he, ho⟩ := Option.map_eq_some_iff.mp ha
  obtain rfl : o = none := ho
  refine ⟨c₀, c, hb, Runs.iff_foldlM.mpr hr, ?_, s', he⟩
  unfold Config.FreePage
  rw [hlive]
  decide

end Complete

end UCore.FirstFit

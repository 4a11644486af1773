import UCore.FirstFit.Safety

/-! # The best-fit page allocator

`kern/mm/best_fit_pmm.c`. It keeps the free list of the first-fit allocator with the same loops and
searches the whole of it for a shortest block. As for first fit, the listed blocks are the maximal
runs of free pages along every run whose frees do not insert at the tail of a non-empty list. The
search finds the first of the shortest blocks that are long enough, which is the lowest one, and the
rest of the block stays listed.
-/

namespace UCore.BestFit

open Library FirstFit

/-! ## The allocator -/

def bestFitInit (s : State) : State := { s with links := listInit s.links .freeList, nrFree := 0 }

def bestFitInitMemmap (s : State) (base n : ℕ) : Option State :=
  if 0 < n then (s.initPages base n).bind fun s => insertBlock s base n else none

/-- The search of `best_fit_alloc_pages` for a block of `n` pages after entry `le`, with the block
`page` chosen so far and `min_size`. -/
def allocScan (s : State) (n : ℕ) : ℕ → Entry → Option ℕ → ℕ → Option (Option ℕ)
  | 0, _, _, _ => none
  | fuel + 1, le, page, minSize =>
    match listNext s.links le with
    | .freeList => some page
    | .pageLink p =>
      if n ≤ s.property p ∧ s.property p < minSize then
        allocScan s n fuel (.pageLink p) (some p) (s.property p)
      else allocScan s n fuel (.pageLink p) page minSize

/-- `min_size` starts at `nr_free + 1`, a sum of `unsigned int`. -/
def bestFitAllocPages (s : State) (n : ℕ) : Option (Option ℕ × State) :=
  if 0 < n then
    if s.nrFree < n then some (none, s)
    else (allocScan s n (s.npage + 3) .freeList none (uint (s.nrFree + 1))).map fun
      | some page => (some page, takeBlock s page n)
      | none => (none, s)
  else none

def bestFitFreePages (s : State) (base n : ℕ) : Option State :=
  if 0 < n then do
    let s ← resetPages s base n
    let s ← insertBlock s base n
    let (s, base) := mergePrev s base
    some (mergeNext s base)
  else none

/-- One call. An allocation records the pages it returns, a free may name any allocated pages. -/
def call (c : Config) : Op → Option Config
  | .alloc n => (bestFitAllocPages c.state n).map fun
      | (some page, s) => ⟨s, span page n :: c.live⟩
      | (none, s) => ⟨s, c.live⟩
  | .free base n =>
      if c.Allocated base n then
        (bestFitFreePages c.state base n).map fun s => ⟨s, c.live.map (· \ span base n)⟩
      else none

/-- `best_fit_init` followed by one `best_fit_init_memmap`, before any allocation. -/
def boot (s : State) (base n : ℕ) : Option Config :=
  (bestFitInitMemmap (bestFitInit s) base n).map fun s => ⟨s, []⟩

variable {lo n k base page m min : ℕ} {s s' : State} {bs : List ℕ} {c c' : Config}

/-! ## The search -/

/-- The first of the shortest blocks among `bs` that hold `k` pages. -/
structure Shortest (size : ℕ → ℕ) (k : ℕ) (bs : List ℕ) (b : ℕ) : Prop where
  mem : b ∈ bs
  fits : k ≤ size b
  le : ∀ a ∈ bs, k ≤ size a → size b ≤ size a
  first : ∃ xs ys, bs = xs ++ b :: ys ∧ ∀ a ∈ xs, k ≤ size a → size b < size a

/-- A search over `bs` with a block of `min` pages at hand. -/
def Searched (size : ℕ → ℕ) (k : ℕ) (bs : List ℕ) (page : Option ℕ) (min : ℕ)
    (r : Option ℕ) : Prop :=
  (r = page ∧ ∀ b ∈ bs, k ≤ size b → min ≤ size b) ∨
    ∃ b, r = some b ∧ size b < min ∧ Shortest size k bs b

theorem allocScan_spec {le : Entry} {fuel : ℕ} (o : Option ℕ) (min : ℕ)
    (hp : s.links.Path le (bs.map .pageLink) .freeList) (hf : bs.length < fuel) :
    ∃ r, allocScan s k fuel le o min = some r ∧ Searched s.property k bs o min r := by
  induction bs generalizing le fuel o min with
  | nil =>
    obtain ⟨fuel, rfl⟩ := Nat.exists_eq_add_one_of_ne_zero (by omega : fuel ≠ 0)
    have hn : s.links.next le = .freeList := hp.1
    exact ⟨o, by simp [allocScan, listNext, hn], .inl ⟨rfl, nofun⟩⟩
  | cons b bs ih =>
    obtain ⟨fuel, rfl⟩ := Nat.exists_eq_add_one_of_ne_zero (by omega : fuel ≠ 0)
    obtain ⟨⟨hn, -⟩, hp⟩ := hp
    have hf : bs.length < fuel := by simpa using hf
    simp only [allocScan, listNext, hn]
    by_cases hb : k ≤ s.property b ∧ s.property b < min
    · rw [if_pos hb]
      obtain ⟨r, hr, ⟨rfl, hmin⟩ | ⟨a, rfl, hlt, hmem, hfit, hle, xs, ys, rfl, hx⟩⟩ :=
        ih (some b) (s.property b) hp hf
      · refine ⟨_, hr, .inr ⟨b, rfl, hb.2, by simp, hb.1, ?_, [], bs, rfl, nofun⟩⟩
        intro a ha hk
        rcases List.mem_cons.mp ha with rfl | ha
        · exact le_rfl
        · exact hmin a ha hk
      · refine ⟨_, hr, .inr ⟨a, rfl, hlt.trans hb.2, List.mem_cons_of_mem _ hmem, hfit, ?_,
          b :: xs, ys, rfl, ?_⟩⟩
        · intro d hd hk
          rcases List.mem_cons.mp hd with rfl | hd
          · exact hlt.le
          · exact hle d hd hk
        · intro d hd hk
          rcases List.mem_cons.mp hd with rfl | hd
          · exact hlt
          · exact hx d hd hk
    · rw [if_neg hb]
      obtain ⟨r, hr, ⟨rfl, hmin⟩ | ⟨a, rfl, hlt, hmem, hfit, hle, xs, ys, rfl, hx⟩⟩ :=
        ih o min hp hf
      · refine ⟨_, hr, .inl ⟨rfl, ?_⟩⟩
        intro a ha hk
        rcases List.mem_cons.mp ha with rfl | ha
        · omega
        · exact hmin a ha hk
      · refine ⟨_, hr, .inr ⟨a, rfl, hlt, List.mem_cons_of_mem _ hmem, hfit, ?_, b :: xs,
          ys, rfl, ?_⟩⟩
        · intro d hd hk
          rcases List.mem_cons.mp hd with rfl | hd
          · omega
          · exact hle d hd hk
        · intro d hd hk
          rcases List.mem_cons.mp hd with rfl | hd
          · omega
          · exact hx d hd hk

/-- An allocation fails when no listed block holds `k` pages and takes a shortest one otherwise. The
initial `min_size` lies above the size of every block. -/
theorem bestFitAllocPages_spec (w : Wf lo n s bs) (hn : n < 2 ^ 32 - 1) (hk : 0 < k) :
    (bestFitAllocPages s k = some (none, s) ∧ ∀ b ∈ bs, s.property b < k) ∨
      ∃ page bs', bestFitAllocPages s k = some (some page, takeBlock s page k) ∧
        Shortest s.property k bs page ∧ Wf lo n (takeBlock s page k) bs' ∧
        span page k ⊆ cells s.property bs ∧
        cells (takeBlock s page k).property bs' = cells s.property bs \ span page k ∧
        (Gapped s.property bs → Gapped (takeBlock s page k).property bs') := by
  have hle : ∀ b ∈ bs, s.property b ≤ s.nrFree := by
    intro b hb
    rw [← w.total]
    exact List.le_sum_of_mem (List.mem_map_of_mem hb)
  by_cases hf : s.nrFree < k
  · refine .inl ⟨by simp [bestFitAllocPages, hk, hf], fun b hb => ?_⟩
    have := hle b hb
    omega
  · have hmin : uint (s.nrFree + 1) = s.nrFree + 1 := by
      have := w.nrFree_le
      exact uint_eq (by omega)
    have hlen : bs.length < s.npage + 3 := by
      have := w.length_le
      omega
    obtain ⟨r, hr, hs⟩ := allocScan_spec (k := k) none (s.nrFree + 1) w.ring.path hlen
    rcases hs with ⟨rfl, hs⟩ | ⟨page, rfl, -, hs⟩
    · refine .inl ⟨by simp [bestFitAllocPages, hk, hf, hmin, hr], fun b hb => ?_⟩
      by_contra hkb
      have := hs b hb (by omega)
      have := hle b hb
      omega
    · obtain ⟨bs', hw, hsub, hc, hg⟩ := w.take (by omega) hk hs.mem hs.fits
      exact .inr ⟨page, bs', by simp [bestFitAllocPages, hk, hf, hmin, hr], hs, hw, hsub, hc, hg⟩

/-! ## Runs -/

theorem inv_step (h : Inv lo n c bs) (hn : n < 2 ^ 32 - 1) {op : Op} (hg : Guarded c op)
    (hc : call c op = some c') :
    ∃ bs', Inv lo n c' bs' ∧ (Gapped c.state.property bs → Gapped c'.state.property bs') := by
  cases op with
  | alloc k =>
    rcases Nat.eq_zero_or_pos k with rfl | hk
    · simp [call, bestFitAllocPages] at hc
    · rcases bestFitAllocPages_spec h.wf hn hk with ⟨he, -⟩ | ⟨page, bs', he, -, w, hsub, hcell, hg⟩
      · obtain rfl : c = c' := by simpa [call, he] using hc
        exact ⟨bs, h, id⟩
      · obtain rfl : ⟨takeBlock c.state page k, span page k :: c.live⟩ = c' := by
          simpa [call, he] using hc
        exact ⟨bs', h.take w hsub hcell, hg⟩
  | free base k =>
    have hc : c.call (.free base k) = some c' := hc
    exact h.step (by omega) hg hc

theorem boot_inv (h0 : 0 < n) (hn : n < 2 ^ 32) (hf : lo + n ≤ s.npage)
    (hr : ∀ p ∈ span lo n, s.reserved p = true) :
    ∃ c, boot s lo n = some c ∧ Inv lo n c [lo] :=
  FirstFit.boot_inv h0 hn hf hr

/-! ## Optimality -/

/-- The page is in a block of the free list. -/
def Listed (s : State) (p : ℕ) : Prop :=
  ∃ bs, s.links.Path .freeList (bs.map .pageLink) .freeList ∧ p ∈ cells s.property bs

theorem listed_iff (w : Wf lo n s bs) (p : ℕ) : Listed s p ↔ p ∈ cells s.property bs := by
  constructor
  · rintro ⟨bs', hp, hm⟩
    have hne : ∀ l : List ℕ, Entry.freeList ∉ l.map Entry.pageLink := by simp
    have he := hp.unique w.ring.path (hne _) (hne _)
    rwa [List.map_injective_iff.mpr (fun _ _ h => Entry.pageLink.inj h) he] at hm
  · exact fun hm => ⟨bs, w.ring.path, hm⟩

/-- The answers to a request for `k` pages are those of best fit. -/
structure BestFits (lo n : ℕ) (c : Config) (k : ℕ) : Prop where
  fails_iff : (∃ s', bestFitAllocPages c.state k = some (none, s')) ↔
    ∀ b m, MaximalRun (c.FreePage lo n) b m → m < k
  shortest : ∀ page s', bestFitAllocPages c.state k = some (some page, s') →
    ∃ m, MaximalRun (c.FreePage lo n) page m ∧ k ≤ m ∧
      ∀ b m', MaximalRun (c.FreePage lo n) b m' → k ≤ m' → m ≤ m' ∧ (m' = m → page ≤ b)
  taken : ∀ page s', bestFitAllocPages c.state k = some (some page, s') →
    (∀ p ∈ span page k, Listed c.state p) ∧
      ∀ p, Listed s' p ↔ Listed c.state p ∧ p ∉ span page k
  rest : ∀ page s' m, bestFitAllocPages c.state k = some (some page, s') →
    MaximalRun (c.FreePage lo n) page m → k < m →
      MaximalRun (Listed s') (page + k) (m - k) ∧
        ∃ page' s'', bestFitAllocPages s' (m - k) = some (some page', s'')

theorem maximalRun_rest {P Q : ℕ → Prop} (h : MaximalRun P page m) (hk : k < m)
    (hq : ∀ p, Q p ↔ P p ∧ p ∉ span page k) (h0 : 0 < k) : MaximalRun Q (page + k) (m - k) := by
  refine ⟨by omega, ?_, ?_, ?_⟩
  · intro p hp
    rw [Finset.mem_Ico] at hp
    refine (hq p).mpr ⟨h.all p (Finset.mem_Ico.mpr (by omega)), ?_⟩
    rw [Finset.mem_Ico]
    omega
  · intro p hp hQ
    exact ((hq p).mp hQ).2 (Finset.mem_Ico.mpr (by omega))
  · intro hQ
    have he : page + k + (m - k) = page + m := by omega
    rw [he] at hQ
    exact h.after ((hq _).mp hQ).1

theorem bestFits (h : Inv lo n c bs) (g : Gapped c.state.property bs) (hn : n < 2 ^ 32 - 1)
    (hk : 0 < k) : BestFits lo n c k := by
  have hrun := (h.coalesced g).2
  have hfree : ∀ p, Listed c.state p ↔ c.FreePage lo n p := fun p =>
    (listed_iff h.wf p).trans (h.freePage_iff p)
  have hspec := bestFitAllocPages_spec h.wf hn hk
  refine ⟨?_, fun page s' ha => ?_, fun page s' ha => ?_, fun page s' m ha hm hkm => ?_⟩
  · rcases hspec with ⟨he, hlt⟩ | ⟨page, bs', he, hs, -⟩
    · rw [he]
      refine iff_of_true ⟨_, rfl⟩ fun b m hm => ?_
      obtain ⟨hb, rfl⟩ := (hrun b m).mp hm
      exact hlt b hb
    · rw [he]
      refine iff_of_false (by simp) fun hall => ?_
      have := hall page _ ((hrun page _).mpr ⟨hs.mem, rfl⟩)
      have := hs.fits
      omega
  · rcases hspec with ⟨he, -⟩ | ⟨page', bs', he, hs, -⟩
    · simp [he] at ha
    · obtain ⟨rfl, rfl⟩ : page' = page ∧ _ = s' := by simpa [he] using ha
      refine ⟨_, (hrun page' _).mpr ⟨hs.mem, rfl⟩, hs.fits, fun b m hm hkm => ?_⟩
      obtain ⟨hb, rfl⟩ := (hrun b m).mp hm
      refine ⟨hs.le b hb hkm, fun heq => ?_⟩
      obtain ⟨xs, ys, rfl, hx⟩ := hs.first
      rcases List.mem_append.mp hb with hb | hb
      · have := hx b hb hkm
        omega
      · rcases List.mem_cons.mp hb with rfl | hb
        · exact le_rfl
        · exact (Nat.le_add_right _ _).trans (h.wf.blocks.le_right b hb)
  · rcases hspec with ⟨he, -⟩ | ⟨page', bs', he, hs, w, hsub, hc, -⟩
    · simp [he] at ha
    · obtain ⟨rfl, rfl⟩ : page' = page ∧ _ = s' := by simpa [he] using ha
      refine ⟨fun p hp => (listed_iff h.wf p).mpr (hsub hp), fun p => ?_⟩
      rw [listed_iff w, listed_iff h.wf, hc, Finset.mem_sdiff]
  · rcases hspec with ⟨he, -⟩ | ⟨page', bs', he, hs, w, hsub, hc, hg⟩
    · simp [he] at ha
    · obtain ⟨rfl, rfl⟩ : page' = page ∧ _ = s' := by simpa [he] using ha
      have hrest : MaximalRun (Listed (takeBlock c.state page' k)) (page' + k) (m - k) := by
        refine maximalRun_rest ((maximalRun_congr hfree).mpr hm) hkm (fun p => ?_) hk
        rw [listed_iff w, listed_iff h.wf, hc, Finset.mem_sdiff]
      refine ⟨hrest, ?_⟩
      rw [maximalRun_congr (listed_iff w), (hg g).maximalRun_iff w.blocks] at hrest
      rcases bestFitAllocPages_spec w hn (Nat.sub_pos_of_lt hkm) with ⟨-, hlt⟩ | ⟨p, bs'', he', -⟩
      · have := hlt _ hrest.1
        omega
      · exact ⟨p, _, he'⟩

/-- Along every run whose frees do not insert at the tail of a non-empty list, the pages of the
listed blocks are those of no allocation, and every request is answered as best fit answers it. -/
theorem bestFit_optimal (s : State) (lo n : ℕ) (h0 : 0 < n) (hn : n < 2 ^ 32 - 1)
    (hf : lo + n ≤ s.npage) (hr : ∀ p ∈ span lo n, s.reserved p = true) :
    ∃ c₀, boot s lo n = some c₀ ∧ ∀ ops c,
      Runs (fun c op c' => Guarded c op ∧ call c op = some c') c₀ ops c →
        (∀ p, Listed c.state p ↔ c.FreePage lo n p) ∧
        ∀ k, 0 < k → (bestFitAllocPages c.state k).isSome ∧ BestFits lo n c k := by
  obtain ⟨c₀, hb, h₀⟩ := boot_inv h0 (by omega) hf hr
  refine ⟨c₀, hb, fun ops c hruns => ?_⟩
  obtain ⟨bs, h, g⟩ : ∃ bs, Inv lo n c bs ∧ Gapped c.state.property bs := by
    apply hruns.invariant (P := fun c => ∃ bs, Inv lo n c bs ∧ Gapped c.state.property bs)
    · rintro c op c' ⟨bs, h, g⟩ ⟨hg, hc⟩
      obtain ⟨bs', h', g'⟩ := inv_step h hn hg hc
      exact ⟨bs', h', g' g⟩
    · exact ⟨[lo], h₀, h₀.wf.blocks.gapped_singleton⟩
  refine ⟨fun p => (listed_iff h.wf p).trans (h.freePage_iff p),
    fun k hk => ⟨?_, bestFits h g hn hk⟩⟩
  rcases bestFitAllocPages_spec h.wf hn hk with ⟨he, -⟩ | ⟨page, bs', he, -⟩ <;> simp [he]

/-- The second of two free blocks is the shorter one, and the last request is answered from it. -/
def shorterTrace : List Op := [.alloc 3, .alloc 1, .free 0 3, .alloc 2]

theorem bestFit_optimal_sixPages : ∃ c₀ c, boot sixPages 0 6 = some c₀ ∧
    Runs (fun c op c' => Guarded c op ∧ call c op = some c') c₀ shorterTrace c ∧
      c.live = [{4, 5}, {3}, ∅] ∧ BestFits 0 6 c 2 := by
  have hc : ((boot sixPages 0 6).bind fun c₀ => shorterTrace.foldlM
      (fun c op => if Guarded c op then call c op else none) c₀).map Config.live =
        some [{4, 5}, {3}, ∅] := by decide
  obtain ⟨c, hr, hl⟩ := Option.map_eq_some_iff.mp hc
  obtain ⟨c₀, hb, hr⟩ := Option.bind_eq_some_iff.mp hr
  obtain ⟨c₁, hb₁, h⟩ := bestFit_optimal sixPages 0 6 (by decide) (by decide) (by decide)
    (fun _ _ => rfl)
  obtain rfl := Option.some.inj (hb.symm.trans hb₁)
  have hruns := Runs.of_guard hr
  exact ⟨c₀, c, hb, hruns, hl, ((h _ c hruns).2 2 (by decide)).2⟩

/-- A free at the tail is not merged: pages 0 and 1 are a maximal run and a request for two
fails. -/
theorem bestFit_tail_fails :
    ∃ c₀ c, boot sixPages 0 6 = some c₀ ∧
      Runs (fun c op c' => call c op = some c') c₀ splitTrace c ∧
      MaximalRun (c.FreePage 0 6) 0 2 ∧ ∃ s', bestFitAllocPages c.state 2 = some (none, s') := by
  have hc : ((boot sixPages 0 6).bind fun c₀ => splitTrace.foldlM call c₀).map
      (fun c => (c.live, (bestFitAllocPages c.state 2).map Prod.fst)) =
        some ([{2, 3, 4, 5}, ∅, ∅], some none) := by decide
  obtain ⟨c, hr, hl⟩ := Option.map_eq_some_iff.mp hc
  obtain ⟨c₀, hb, hr⟩ := Option.bind_eq_some_iff.mp hr
  obtain ⟨hlive, ha⟩ := Prod.mk.inj hl
  obtain ⟨⟨o, s'⟩, he, ho⟩ := Option.map_eq_some_iff.mp ha
  obtain rfl : o = none := ho
  have hfree : ∀ p, c.FreePage 0 6 p ↔ p ∈ span 0 6 ∧ p ∉ ({2, 3, 4, 5} : Finset ℕ) := by
    intro p
    simp [Config.FreePage, hlive]
  refine ⟨c₀, c, hb, Runs.iff_foldlM.mpr hr, ?_, s', he⟩
  rw [maximalRun_congr hfree]
  exact ⟨by decide, by decide, nofun, by decide⟩

end UCore.BestFit

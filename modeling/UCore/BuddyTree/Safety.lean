import UCore.BuddyTree.Search
import UCore.Library.Run
import UCore.Library.Words

/-! # Safety of the buddy tree

The live allocations are nodes in use whose ancestors are split or full. Stale
states of other nodes never hide a live node, so live blocks stay disjoint and
are found again by their offsets.
-/

namespace UCore.BuddyTree

open Library Library.PerfectTree

variable {t t' : ℤ → Node} {m v w a b i j k n u L s : ℕ} {nodes : List ℕ} {c c' : Config}

/-! ## Sizes -/

theorem nextPowOf2_eq (h0 : s ≠ 0) (hs : s < 2 ^ 32) : nextPowOf2 s = 2 ^ Nat.clog 2 s := by
  unfold nextPowOf2
  split
  · rename_i hp
    have hp' : s.isPowerOfTwo :=
      (Nat.and_sub_one_eq_zero_iff_isPowerOfTwo h0).mp (by simpa [isPowOf2] using hp)
    obtain ⟨e, rfl⟩ := hp'
    rw [Nat.clog_pow 2 e Nat.one_lt_two]
  · rename_i hp
    have hp' : ¬ s.isPowerOfTwo := fun h =>
      hp (by simpa [isPowOf2] using (Nat.and_sub_one_eq_zero_iff_isPowerOfTwo h0).mpr h)
    have h := (Smeared.refl s).double.double.double.double.double
    rw [clog_two_eq h0 hp']
    exact h.add_one hs h0

theorem sizeToAlloc_eq (hs : s < 2 ^ 32) : sizeToAlloc s = blockSize s := by
  unfold sizeToAlloc blockSize
  split
  · rfl
  · exact nextPowOf2_eq ‹_› hs

/-- The row in which a request is served. -/
def row (L s : ℕ) : ℕ := L - Nat.clog 2 s

theorem blockSize_eq (hs : s ≤ 2 ^ L) : blockSize s = 2 ^ (L - row L s) := by
  have hc : Nat.clog 2 s ≤ L := Nat.clog_le_of_le_pow hs
  unfold blockSize row
  split
  · subst s
    simp
  · rw [Nat.sub_sub_self hc]

theorem row_le : row L s ≤ L := Nat.sub_le _ _

/-! ## What a call does to the tree -/

theorem log_of_row (h : v / 2 ^ k = 1) : Nat.log 2 v = k := by
  have hne : v / 2 ^ k ≠ 0 := by omega
  have := log_div hne
  rw [h] at this
  simpa using this.symm

theorem lt_of_row (hk : k ≤ L) (h : v / 2 ^ k = 1) : v < 2 ^ (L + 1) := by
  have h₁ : v < 2 * 2 ^ k := by
    rw [← Nat.div_lt_iff_lt_mul (Nat.two_pow_pos k), h]
    exact Nat.one_lt_two
  have h₂ : 2 ^ k ≤ 2 ^ L := Nat.pow_le_pow_right Nat.two_pos hk
  rw [pow_succ]
  omega

theorem index2offset_eq (hk : k ≤ L) (h : v / 2 ^ k = 1) :
    index2offset ((v : ℤ) - 1) k L = offset L v := by
  have hl := log_of_row h
  have hlo : 2 ^ k ≤ v := by
    by_contra hlt
    rw [Nat.div_eq_of_lt (by omega)] at h
    omega
  have hsz : size L v = 2 ^ (L - k) := by rw [size, hl]
  have hmul : 2 ^ L = 2 ^ k * 2 ^ (L - k) := by rw [← pow_add, Nat.add_sub_cancel' hk]
  have hsub : ((L : ℤ) - k).toNat = L - k := by omega
  have hoff : offset L v = (v - 2 ^ k) * 2 ^ (L - k) := by
    rw [offset, hsz, hmul, Nat.sub_mul]
  rw [index2offset, hsub, hoff, Int.toNat_natCast, sub_add_cancel]
  push_cast [Nat.cast_sub hlo]
  rfl

section Calls

variable (b : Buddy) (hs : s ≤ 2 ^ b.level) (hl : b.level ≤ 29)

include hs hl

theorem buddyAlloc_eq (fuel : ℕ) : buddyAlloc fuel b s =
    (iterate (searchStep (2 ^ (b.level - row b.level s))) fuel
      ⟨⟨b.tree, 0⟩, 0, 2 ^ b.level, false⟩).bind (useNode fuel b) := by
  have hlt : s < 2 ^ 32 := by
    have : 2 ^ b.level ≤ 2 ^ 29 := Nat.pow_le_pow_right Nat.two_pos hl
    omega
  have hle : ¬ 2 ^ b.level < 2 ^ (b.level - row b.level s) := by
    have : 2 ^ (b.level - row b.level s) ≤ 2 ^ b.level :=
      Nat.pow_le_pow_right Nat.two_pos (Nat.sub_le _ _)
    omega
  simp only [buddyAlloc, sizeToAlloc_eq hlt, blockSize_eq hs]
  exact if_neg hle

theorem buddyAlloc_none (hf : (find (row b.level s) b.tree 1).1 = none) :
    ∃ n, ∀ fuel, buddyAlloc (n + fuel) b s =
      some (-1, { b with tree := (find (row b.level s) b.tree 1).2 }) := by
  obtain ⟨n, hn⟩ := searchStep_root (t := b.tree) (row_le (L := b.level) (s := s))
  refine ⟨n, fun fuel => ?_⟩
  rw [buddyAlloc_eq b hs hl, iterate_mono hn, hf]
  rfl

theorem buddyAlloc_some (hf : (find (row b.level s) b.tree 1).1 = some v) :
    ∃ n t' r,
      Marked (Function.update (find (row b.level s) b.tree 1).2 ((v : ℤ) - 1) .used) t' v r ∧
      ∀ fuel, buddyAlloc (n + fuel) b s = some ((offset b.level v : ℤ), { b with tree := t' }) := by
  obtain ⟨n, hn⟩ := searchStep_root (t := b.tree) (row_le (L := b.level) (s := s))
  obtain ⟨hv, -, -⟩ := find_some Nat.one_pos hf
  have hv0 : 0 < v := by
    rcases Nat.eq_zero_or_pos v with rfl | h
    · simp at hv
    · exact h
  obtain ⟨t', r, ⟨n', hn'⟩, hm⟩ := markStep_ends v hv0
    (Function.update (find (row b.level s) b.tree 1).2 ((v : ℤ) - 1) .used)
  refine ⟨n + n', t', r, hm, fun fuel => ?_⟩
  have e₁ := iterate_mono (k := n' + fuel) hn
  have e₂ := iterate_mono (k := n + fuel) hn'
  rw [← Nat.add_assoc] at e₁
  rw [show n' + (n + fuel) = n + n' + fuel by omega] at e₂
  rw [buddyAlloc_eq b hs hl, e₁, hf]
  simp only [Option.map_some, Option.bind_some, useNode, markParent, e₂]
  rw [index2offset_eq row_le hv]

end Calls

/-! ## The invariant -/

/-- Node `m` is reached from the root through nodes that are split or full. -/
def Exposed (t : ℤ → Node) (m : ℕ) : Prop := ∀ a, 0 < a → a ≠ m → Above a m → Opened (node t a)

/-- The live allocations are the blocks of exposed nodes in use. -/
structure Inv (L : ℕ) (c : Config) (nodes : List ℕ) : Prop where
  level : c.buddy.level = L
  live : c.live = nodes.map fun v => (offset L v, size L v)
  nodup : nodes.Nodup
  bounds : ∀ v ∈ nodes, v ≠ 0 ∧ v < 2 ^ (L + 1)
  used : ∀ v ∈ nodes, node c.buddy.tree v = .used
  exposed : ∀ v ∈ nodes, Exposed c.buddy.tree v

namespace Inv

theorem eq_of_above (h : Inv L c nodes) (hv : v ∈ nodes) (hw : w ∈ nodes) (ha : Above v w) :
    v = w := by
  by_contra hne
  have ho := h.exposed w hw v (Nat.pos_of_ne_zero (h.bounds v hv).1) hne ha
  rw [h.used v hv] at ho
  rcases ho with ho | ho <;> exact Node.noConfusion ho

theorem eq_of_mem {x : ℕ} (h : Inv L c nodes) (hv : v ∈ nodes) (hw : w ∈ nodes)
    (hvx : offset L v ≤ x ∧ x < offset L v + size L v)
    (hwx : offset L w ≤ x ∧ x < offset L w + size L w) : v = w := by
  obtain ⟨hv0, hvL⟩ := h.bounds v hv
  obtain ⟨hw0, hwL⟩ := h.bounds w hw
  have hx : x < 2 ^ L := by
    have := offset_add_le hv0 hvL
    omega
  have hav := (mem_block_iff hv0 hvL hx).mp hvx
  have haw := (mem_block_iff hw0 hwL hx).mp hwx
  rcases hav.total haw with ha | ha
  · exact h.eq_of_above hv hw ha
  · exact (h.eq_of_above hw hv ha).symm

theorem eq_of_offset (h : Inv L c nodes) (hv : v ∈ nodes) (hw : w ∈ nodes)
    (he : offset L v = offset L w) : v = w := by
  have := size_pos (L := L) (v := v)
  have := size_pos (L := L) (v := w)
  exact h.eq_of_mem hv hw (x := offset L v) (by omega) (by omega)

theorem grow (h : Inv L c nodes)
    (hg : ∀ j, node t' j = node c.buddy.tree j ∨
      node c.buddy.tree j = .unused ∧ node t' j = .split) :
    Inv L ⟨{ c.buddy with tree := t' }, c.live⟩ nodes := by
  refine ⟨h.level, h.live, h.nodup, h.bounds, ?_, ?_⟩
  · intro v hv
    have hu := h.used v hv
    rcases hg v with hj | ⟨hj, -⟩
    · exact hj.trans hu
    · rw [hu] at hj
      exact Node.noConfusion hj
  · intro v hv a ha hne hav
    have ho := h.exposed v hv a ha hne hav
    rcases hg a with hj | ⟨hj, -⟩
    · simpa only [hj] using ho
    · rw [hj] at ho
      rcases ho with ho | ho <;> exact Node.noConfusion ho

/-- A found node becomes live. -/
theorem mark {r : ℕ} (h : Inv L c nodes) (hk : k ≤ L) (hv : v / 2 ^ k = 1)
    (hu : node c.buddy.tree v = .unused)
    (hs : ∀ i, 0 < i → i ≤ k → node c.buddy.tree (v / 2 ^ i) = .split)
    (hm : Marked (Function.update c.buddy.tree ((v : ℤ) - 1) .used) t' v r) :
    Inv L ⟨{ c.buddy with tree := t' }, (offset L v, size L v) :: c.live⟩ (v :: nodes) := by
  have hv0 : v ≠ 0 := by
    rintro rfl
    simp at hv
  have hr : r ≤ k := by
    by_contra hlt
    have h1 := (hm.climbed k (by omega)).1
    omega
  have hpath : ∀ j, node t' j = node (Function.update c.buddy.tree ((v : ℤ) - 1) .used) j ∨
      node t' j = .full ∧ node c.buddy.tree j = .split := by
    intro j
    by_cases hj : ∃ i, 0 < i ∧ i ≤ r ∧ j = v / 2 ^ i
    · obtain ⟨i, hi, hir, rfl⟩ := hj
      exact .inr ⟨hm.path i hi hir, hs i hi (by omega)⟩
    · left
      apply hm.other
      intro i hi hir he
      exact hj ⟨i, hi, hir, he⟩
  have hold : ∀ j, node c.buddy.tree j ≠ .unused → node t' j = node c.buddy.tree j ∨
      node t' j = .full ∧ node c.buddy.tree j = .split := by
    intro j hj
    have hne : j ≠ v := by
      rintro rfl
      exact hj hu
    have := hpath j
    rwa [node_update_of_ne hne] at this
  have hused : ∀ w ∈ nodes, node t' w = .used := by
    intro w hw
    have huw := h.used w hw
    rcases hold w (by rw [huw]; exact fun h => Node.noConfusion h) with hj | ⟨-, hj⟩
    · rw [hj, huw]
    · rw [huw] at hj
      exact Node.noConfusion hj
  have hopen : ∀ a, Opened (node c.buddy.tree a) → Opened (node t' a) := by
    intro a ha
    have hne : node c.buddy.tree a ≠ .unused := by
      rcases ha with ha | ha <;> rw [ha] <;> exact fun h => Node.noConfusion h
    rcases hold a hne with hj | ⟨hj, -⟩
    · rw [hj]
      exact ha
    · exact .inr hj
  constructor
  · exact h.level
  · rw [List.map_cons, h.live]
  · rw [List.nodup_cons]
    refine ⟨fun hmem => ?_, h.nodup⟩
    have := h.used v hmem
    rw [hu] at this
    exact Node.noConfusion this
  · intro w hw
    rcases List.mem_cons.mp hw with rfl | hw
    · exact ⟨hv0, lt_of_row hk hv⟩
    · exact h.bounds w hw
  · intro w hw
    rcases List.mem_cons.mp hw with rfl | hw
    · have hne : ∀ i, 0 < i → w ≠ w / 2 ^ i := fun i hi =>
        (Nat.div_lt_self (Nat.pos_of_ne_zero hv0) (Nat.one_lt_two_pow hi.ne')).ne'
      show node t' w = .used
      rw [hm.other w fun i hi _ => hne i hi, node_update_self]
    · exact hused w hw
  · intro w hw a ha hne haw
    rcases List.mem_cons.mp hw with rfl | hw
    · obtain ⟨i, rfl⟩ := haw
      have hi : 0 < i := by
        by_contra h0
        obtain rfl : i = 0 := by omega
        simp at hne
      have hik : i ≤ k := by
        by_contra hlt
        obtain ⟨e, rfl⟩ : ∃ e, i = k + (e + 1) := ⟨i - k - 1, by omega⟩
        rw [div_two_pow_add, hv, Nat.div_eq_of_lt (Nat.one_lt_two_pow (by omega))] at ha
        exact absurd ha (lt_irrefl 0)
      exact hopen _ (.inl (hs i hi hik))
    · exact hopen a (h.exposed w hw a ha hne haw)

theorem not_above_merged (h : Inv L c nodes) (hv : v ∈ nodes) (hw : w ∈ nodes) (hne : w ≠ v)
    {r : ℕ} (hm : ∀ i < r, 1 < v / 2 ^ i ∧ node c.buddy.tree (mate (v / 2 ^ i)) = .unused) :
    ¬ Above (v / 2 ^ r) w := by
  induction r with
  | zero =>
    rw [pow_zero, Nat.div_one]
    exact fun ha => hne (h.eq_of_above hv hw ha).symm
  | succ r ih =>
    obtain ⟨h1, hu⟩ := hm r (by omega)
    intro ha
    by_cases hw' : v / 2 ^ (r + 1) = w
    · have hav : Above w v := ⟨r + 1, hw'⟩
      exact hne (h.eq_of_above hw hv hav)
    · obtain ⟨d, hd, hdw⟩ := ha.child hw'
      rw [div_two_pow_succ] at hd
      rcases eq_or_mate hd.symm with rfl | rfl
      · exact ih (fun i hi => hm i (by omega)) hdw
      · by_cases hmw : mate (v / 2 ^ r) = w
        · have := h.used w hw
          rw [← hmw, hu] at this
          exact Node.noConfusion this
        · have hp := mate_pos h1
          have := h.exposed w hw _ (by omega) hmw hdw
          rw [hu] at this
          rcases this with h | h <;> exact Node.noConfusion h

/-- A live node is freed. -/
theorem combine (h : Inv L c nodes) (hv : v ∈ nodes) (hc : Combined c.buddy.tree t' v a u) :
    Inv L ⟨{ c.buddy with tree := t' }, c.live.filter fun x => x.1 ≠ offset L v⟩
      (nodes.filter fun w => w ≠ v) := by
  obtain ⟨r, har, hm⟩ := hc.merged
  have hav : Above a v := ⟨r, har.symm⟩
  have hnot : ∀ w ∈ nodes, w ≠ v → ¬ Above a w := by
    intro w hw hne
    rw [har]
    exact h.not_above_merged hv hw hne hm
  have hold : ∀ j, j ≠ a → node t' j = node c.buddy.tree j ∨
      node t' j = .split ∧ node c.buddy.tree j = .full := by
    intro j hj
    by_cases hp : ∃ i, 0 < i ∧ i ≤ u ∧ j = a / 2 ^ i
    · obtain ⟨i, hi, hiu, rfl⟩ := hp
      exact .inr (hc.resplit i hi hiu).symm
    · left
      apply hc.other j hj
      intro i hi hiu he
      exact hp ⟨i, hi, hiu, he⟩
  constructor
  · exact h.level
  · have hf : nodes.filter ((fun x : ℕ × ℕ => decide (x.1 ≠ offset L v)) ∘
        fun w => (offset L w, size L w)) = nodes.filter fun w => w ≠ v := by
      apply List.filter_congr
      intro w hw
      simp only [Function.comp, decide_eq_decide]
      exact not_congr ⟨fun he => h.eq_of_offset hw hv he, fun he => by rw [he]⟩
    show (c.live.filter fun x => x.1 ≠ offset L v) = _
    rw [h.live, List.filter_map, hf]
  · exact h.nodup.filter _
  · exact fun w hw => h.bounds w (List.mem_filter.mp hw).1
  · intro w hw
    obtain ⟨hw, hne⟩ := List.mem_filter.mp hw
    have hne' : w ≠ v := by simpa using hne
    have hwa : w ≠ a := fun he => hnot w hw hne' (he ▸ Above.refl w)
    have hu := h.used w hw
    rcases hold w hwa with hj | ⟨-, hj⟩
    · exact hj.trans hu
    · rw [hu] at hj
      exact Node.noConfusion hj
  · intro w hw d hd hdw haw
    obtain ⟨hw, hne⟩ := List.mem_filter.mp hw
    have hne' : w ≠ v := by simpa using hne
    have hda : d ≠ a := fun he => hnot w hw hne' (he ▸ haw)
    have ho := h.exposed w hw d hd hdw haw
    rcases hold d hda with hj | ⟨hj, -⟩
    · simpa only [hj] using ho
    · exact .inl hj

/-! ## The calls -/

theorem alloc_none (h : Inv L c nodes) (hs : s ≤ 2 ^ L) (hL : L ≤ 29)
    (hf : (find (row L s) c.buddy.tree 1).1 = none) :
    ∃ n c', (∀ fuel, buddyAlloc (n + fuel) c.buddy s = some (-1, c'.buddy) ∧
        c.call (n + fuel) (.alloc s) = some (.ok c')) ∧
      c'.buddy.tree = (find (row L s) c.buddy.tree 1).2 ∧ Inv L c' nodes := by
  obtain rfl := h.level
  obtain ⟨n, hn⟩ := buddyAlloc_none c.buddy hs hL hf
  refine ⟨n, ⟨{ c.buddy with tree := (find (row c.buddy.level s) c.buddy.tree 1).2 }, c.live⟩,
    fun fuel => ⟨hn fuel, ?_⟩, rfl, h.grow fun j => find_grows _ _ _ j⟩
  simp [Config.call, hn fuel]

theorem alloc_some (h : Inv L c nodes) (hs : s ≤ 2 ^ L) (hL : L ≤ 29)
    (hf : (find (row L s) c.buddy.tree 1).1 = some v) :
    ∃ n c' r, (∀ fuel, buddyAlloc (n + fuel) c.buddy s = some ((offset L v : ℤ), c'.buddy) ∧
        c.call (n + fuel) (.alloc s) = some (.ok c')) ∧
      size L v = blockSize s ∧ c'.live = (offset L v, blockSize s) :: c.live ∧
      Marked (Function.update (find (row L s) c.buddy.tree 1).2 ((v : ℤ) - 1) .used)
        c'.buddy.tree v r ∧ Inv L c' (v :: nodes) := by
  obtain rfl := h.level
  obtain ⟨n, t', r, hm, hn⟩ := buddyAlloc_some c.buddy hs hL hf
  obtain ⟨hv, hu, hsplit⟩ := find_some Nat.one_pos hf
  have hg : Inv c.buddy.level
      ⟨{ c.buddy with tree := (find (row c.buddy.level s) c.buddy.tree 1).2 }, c.live⟩ nodes :=
    h.grow fun j => find_grows _ _ _ j
  have hi := hg.mark row_le hv hu hsplit hm
  have hsz : size c.buddy.level v = blockSize s := by
    rw [blockSize_eq hs, size, log_of_row hv]
  rw [hsz] at hi
  refine ⟨n, _, r, fun fuel => ⟨hn fuel, ?_⟩, hsz, rfl, hm, hi⟩
  have hne : ¬ (offset c.buddy.level v : ℤ) = -1 := by omega
  simp only [Config.call, hn fuel, Option.map_some, if_neg hne, Int.toNat_natCast]

theorem descend (h : Inv L c nodes) (hv : v ∈ nodes) :
    ∃ n, ∀ fuel, BuddyTree.descend (n + fuel) c.buddy (offset L v) =
      some (.ok ⟨(v : ℤ) - 1, offset L v, size L v⟩) := by
  obtain rfl := h.level
  obtain ⟨hv0, hvL⟩ := h.bounds v hv
  obtain ⟨n, hn⟩ := descendStep_root hv0 hvL (h.used v hv) (h.exposed v hv)
  have hlt : offset c.buddy.level v < 2 ^ c.buddy.level := by
    have := offset_add_le hv0 hvL
    have := size_pos (L := c.buddy.level) (v := v)
    omega
  refine ⟨n, fun fuel => ?_⟩
  rw [BuddyTree.descend, if_pos hlt]
  exact iterate_mono hn

theorem free (h : Inv L c nodes) (hv : v ∈ nodes) :
    ∃ n c' a u, (∀ fuel, c.call (n + fuel) (.free (offset L v)) = some (.ok c')) ∧ 0 < a ∧
      Combined c.buddy.tree c'.buddy.tree v a u ∧ Inv L c' (nodes.filter fun w => w ≠ v) := by
  obtain ⟨n, hn⟩ := h.descend hv
  obtain ⟨t', a, u, ⟨n', hn'⟩, ha, hc⟩ :=
    combineStep_ends (Nat.pos_of_ne_zero (h.bounds v hv).1) c.buddy.tree
  refine ⟨n + n', _, a, u, fun fuel => ?_, ha, hc, h.combine hv hc⟩
  have e₁ := hn (n' + fuel)
  have e₂ := iterate_mono (k := n + fuel) hn'
  rw [← Nat.add_assoc] at e₁
  rw [show n' + (n + fuel) = n + n' + fuel by omega] at e₂
  simp [Config.call, buddyFree, e₁, combineParent, e₂, Except.map]

theorem buddySize (h : Inv L c nodes) (hv : v ∈ nodes) :
    ∃ n, ∀ fuel, BuddyTree.buddySize (n + fuel) c.buddy (offset L v) =
      some (.ok (size L v)) := by
  obtain ⟨n, hn⟩ := h.descend hv
  refine ⟨n, fun fuel => ?_⟩
  rw [BuddyTree.buddySize, hn fuel]
  rfl

end Inv

theorem start_inv (level : ℕ) : Inv level (Config.start level) [] :=
  ⟨rfl, rfl, List.nodup_nil, by simp, by simp, by simp⟩

/-! ## Fuel -/

theorem buddyAlloc_mono {b : Buddy} {fuel : ℕ} {o : ℤ × Buddy}
    (h : buddyAlloc fuel b s = some o) : buddyAlloc (fuel + k) b s = some o := by
  simp only [buddyAlloc] at h ⊢
  split_ifs at h ⊢
  · exact h
  · obtain ⟨⟨q, tree⟩, hq, hr⟩ := Option.bind_eq_some_iff.mp h
    rw [iterate_mono hq, Option.bind_some]
    cases q with
    | none => exact hr
    | some q =>
      obtain ⟨t', ht, rfl⟩ := Option.map_eq_some_iff.mp hr
      have ht' : markParent (fuel + k) (Function.update tree q.1 .used) q.1 = some t' :=
        iterate_mono ht
      simp only [useNode, ht', Option.map_some]

theorem descend_mono {b : Buddy} {fuel o : ℕ} {r : Except Fault Descent}
    (h : descend fuel b o = some r) : descend (fuel + k) b o = some r := by
  unfold descend at h ⊢
  split_ifs at h ⊢
  · exact iterate_mono h
  · exact h

theorem buddyFree_mono {b : Buddy} {fuel o : ℕ} {r : Except Fault Buddy}
    (h : buddyFree fuel b o = some r) : buddyFree (fuel + k) b o = some r := by
  obtain ⟨d, hd, hr⟩ := Option.bind_eq_some_iff.mp h
  rw [buddyFree, descend_mono hd, Option.bind_some]
  cases d with
  | error e => exact hr
  | ok d =>
    obtain ⟨t', ht, rfl⟩ := Option.map_eq_some_iff.mp hr
    have ht' : combineParent (fuel + k) b.tree d.index = some t' := iterate_mono ht
    simp only [ht', Option.map_some]

theorem call_mono {fuel : ℕ} {op : Op} {r : Except Fault Config}
    (h : c.call fuel op = some r) : c.call (fuel + k) op = some r := by
  cases op with
  | alloc s =>
    obtain ⟨o, ho, rfl⟩ := Option.map_eq_some_iff.mp h
    exact Option.map_eq_some_iff.mpr ⟨o, buddyAlloc_mono ho, rfl⟩
  | free o =>
    obtain ⟨r, hr, rfl⟩ := Option.map_eq_some_iff.mp h
    exact Option.map_eq_some_iff.mpr ⟨r, buddyFree_mono hr, rfl⟩

/-! ## Runs -/

theorem call_unique {n fuel : ℕ} {op : Op} (hd : ∀ fuel, c.call (n + fuel) op = some (.ok c'))
    {r : Except Fault Config} (h : c.call fuel op = some r) : r = .ok c' := by
  have e := call_mono (k := n) h
  rw [Nat.add_comm, hd fuel] at e
  exact (Option.some.inj e).symm

theorem Inv.node_of_live (h : Inv L c nodes) {o z : ℕ} (hm : (o, z) ∈ c.live) :
    ∃ v ∈ nodes, o = offset L v ∧ z = size L v := by
  rw [h.live] at hm
  obtain ⟨v, hv, he⟩ := List.mem_map.mp hm
  obtain ⟨rfl, rfl⟩ := Prod.mk.inj he
  exact ⟨v, hv, rfl, rfl⟩

theorem Inv.call (h : Inv L c nodes) (hL : L ≤ 29) {op : Op} (ha : c.Allowed op) :
    ∃ n c' nodes', (∀ fuel, c.call (n + fuel) op = some (.ok c')) ∧ Inv L c' nodes' := by
  cases op with
  | alloc s =>
    have hs : s ≤ 2 ^ L := h.level ▸ ha
    cases hf : (find (row L s) c.buddy.tree 1).1 with
    | none =>
      obtain ⟨n, c', hn, -, hi⟩ := h.alloc_none hs hL hf
      exact ⟨n, c', nodes, fun fuel => (hn fuel).2, hi⟩
    | some v =>
      obtain ⟨n, c', r, hn, -, -, -, hi⟩ := h.alloc_some hs hL hf
      exact ⟨n, c', v :: nodes, fun fuel => (hn fuel).2, hi⟩
  | free o =>
    obtain ⟨z, hz⟩ := ha
    obtain ⟨v, hv, rfl, -⟩ := h.node_of_live hz
    obtain ⟨n, c', a, u, hn, -, -, hi⟩ := h.free hv
    exact ⟨n, c', _, hn, hi⟩

theorem Inv.alloc_nonneg (h : Inv L c nodes) (hs : s ≤ 2 ^ L) (hL : L ≤ 29) {fuel : ℕ} {o : ℤ}
    {b : Buddy} (ho : buddyAlloc fuel c.buddy s = some (o, b)) (hne : o ≠ -1) : 0 ≤ o := by
  have heq : ∀ {n : ℕ} {o' : ℤ} {b' : Buddy},
      (∀ fuel, buddyAlloc (n + fuel) c.buddy s = some (o', b')) → o = o' := by
    intro n o' b' hn
    have hm := buddyAlloc_mono (k := n) ho
    rw [Nat.add_comm, hn fuel] at hm
    exact (congrArg Prod.fst (Option.some.inj hm)).symm
  cases hf : (find (row L s) c.buddy.tree 1).1 with
  | none =>
    obtain ⟨n, c', hn, -⟩ := h.alloc_none hs hL hf
    exact absurd (heq fun fuel => (hn fuel).1) hne
  | some v =>
    obtain ⟨n, c', r, hn, -⟩ := h.alloc_some hs hL hf
    rw [heq fun fuel => (hn fuel).1]
    exact Int.natCast_nonneg _

/-- Live blocks are aligned, lie in the range and are disjoint, and their sizes are found. -/
structure Safe (L : ℕ) (c : Config) : Prop where
  bounds : ∀ x ∈ c.live, x.1 + x.2 ≤ 2 ^ L ∧ 0 < x.2 ∧ x.2 ∣ x.1
  disjoint : c.live.Pairwise fun x y => x.1 + x.2 ≤ y.1 ∨ y.1 + y.2 ≤ x.1
  sizes : ∀ x ∈ c.live, ∃ n, ∀ fuel, buddySize (n + fuel) c.buddy x.1 = some (.ok x.2)

theorem Inv.safe (h : Inv L c nodes) : Safe L c := by
  constructor
  · rintro ⟨o, z⟩ hx
    obtain ⟨v, hv, rfl, rfl⟩ := h.node_of_live hx
    obtain ⟨hv0, hvL⟩ := h.bounds v hv
    exact ⟨offset_add_le hv0 hvL, size_pos, size_dvd_offset hv0 hvL⟩
  · rw [h.live, List.pairwise_map]
    apply h.nodup.imp_of_mem
    intro v w hv hw hne
    by_contra hc
    rw [not_or] at hc
    have hpv := size_pos (L := L) (v := v)
    have hpw := size_pos (L := L) (v := w)
    simp only at hc
    have hm : v = w := by
      rcases le_total (offset L v) (offset L w) with hle | hle
      · exact h.eq_of_mem hv hw (x := offset L w) (by omega) (by omega)
      · exact h.eq_of_mem hv hw (x := offset L v) (by omega) (by omega)
    exact hne hm
  · rintro ⟨o, z⟩ hx
    obtain ⟨v, hv, rfl, rfl⟩ := h.node_of_live hx
    exact h.buddySize hv

/-- Along every run of requests and frees of live offsets, live blocks have the size of their
request, are aligned and disjoint, and no call loops or reports a fault. -/
theorem buddyTree_safe (level : ℕ) (hl : level ≤ 29) (ops : List Op) (c : Config)
    (hr : Runs (fun c op c' => c.Allowed op ∧ ∃ fuel, c.call fuel op = some (.ok c'))
      (Config.start level) ops c) :
    Safe level c ∧
      (∀ s fuel o b, s ≤ 2 ^ level → buddyAlloc fuel c.buddy s = some (o, b) → o ≠ -1 →
        0 ≤ o ∧ ∃ c', c.call fuel (.alloc s) = some (.ok c') ∧
          c'.live = (o.toNat, blockSize s) :: c.live ∧ Safe level c') ∧
      ∀ op, c.Allowed op → ∃ n c', ∀ fuel, c.call (n + fuel) op = some (.ok c') ∧
        ∀ fuel' r, c.call fuel' op = some r → r = .ok c' := by
  obtain ⟨nodes, h⟩ : ∃ nodes, Inv level c nodes := by
    apply hr.invariant (P := fun c => ∃ nodes, Inv level c nodes)
    · rintro c op c' ⟨nodes, h⟩ ⟨ha, fuel, hc⟩
      obtain ⟨n, c₁, nodes', hn, hi⟩ := h.call hl ha
      obtain rfl : c' = c₁ := Except.ok.inj (call_unique hn hc)
      exact ⟨nodes', hi⟩
    · exact ⟨[], start_inv level⟩
  refine ⟨h.safe, ?_, ?_⟩
  · intro s fuel o b hs ho hne
    have hc : c.call fuel (.alloc s) = some (.ok ⟨b, (o.toNat, blockSize s) :: c.live⟩) := by
      simp [Config.call, ho, hne]
    have ha : c.Allowed (.alloc s) := by
      unfold Config.Allowed
      rwa [h.level]
    obtain ⟨n, c₁, nodes', hn, hi⟩ := h.call hl ha
    obtain rfl := Except.ok.inj (call_unique hn hc)
    exact ⟨h.alloc_nonneg hs hl ho hne, _, hc, rfl, hi.safe⟩
  · intro op ha
    obtain ⟨n, c₁, nodes', hn, -⟩ := h.call hl ha
    exact ⟨n, c₁, fun fuel => ⟨hn fuel, fun fuel' r hr => call_unique hn hr⟩⟩

instance (c : Config) : DecidablePred c.Allowed
  | .alloc s => inferInstanceAs (Decidable (s ≤ 2 ^ c.buddy.level))
  | .free offset => decidable_of_iff (c.live.any fun x => x.1 = offset) (by
      simp [Config.Allowed])

def Config.next (fuel : ℕ) (c : Config) (op : Op) : Option Config :=
  if c.Allowed op then (c.call fuel op).bind Except.toOption else none

theorem Config.allowed_of_next {fuel : ℕ} {op : Op} (h : c.next fuel op = some c') :
    c.Allowed op ∧ ∃ fuel, c.call fuel op = some (.ok c') := by
  unfold Config.next at h
  split at h
  · obtain ⟨r, hr, ho⟩ := Option.bind_eq_some_iff.mp h
    cases r with
    | error e => exact absurd ho.symm (Option.some_ne_none c')
    | ok d =>
      obtain rfl := Option.some.inj ho
      exact ⟨‹_›, fuel, hr⟩
  · exact absurd h.symm (Option.some_ne_none c')

/-- Two requests, a free and one more request. -/
theorem buddyTree_safe_three :
    ∃ c, Runs (fun c op c' => c.Allowed op ∧ ∃ fuel, c.call fuel op = some (.ok c'))
        (Config.start 3) [.alloc 3, .alloc 1, .free 0, .alloc 2] c ∧
      c.live = [(0, 2), (4, 1)] ∧ Safe 3 c := by
  have h : (([.alloc 3, .alloc 1, .free 0, .alloc 2] : List Op).foldlM (Config.next 16)
      (Config.start 3)).map Config.live = some [(0, 2), (4, 1)] := by
    decide +kernel
  obtain ⟨c, hc, hlive⟩ := Option.map_eq_some_iff.mp h
  have hr := (Runs.iff_foldlM.mpr hc).mono fun c op c' hn => c.allowed_of_next hn
  exact ⟨c, hr, hlive, (buddyTree_safe 3 (by decide) _ c hr).1⟩

end UCore.BuddyTree

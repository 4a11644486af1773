import UCore.Slob.Merge

/-! # Steps of the SLOB heap

A freed block joins the free ones, a page is a block that is freed, and a
request takes the first units of a free block.
-/

namespace UCore.Slob

open Library Library.Cycle

variable {arena a b c m n p x cur prev page : ℕ} {u v : ℤ} {h h' : Heap}
  {xs ys zs free used : List ℕ} {taken : ℕ → Prop}

theorem bytes_congr (hu : h'.units a = h.units a) : bytes h' a = bytes h a := by
  unfold bytes
  rw [hu]

theorem ne_of_disjoint {f g : ℕ → ℕ} (ha : 0 < f a) (hd : Disjoint (span a (f a)) (span b (g b)))
    (hb : 0 < g b) : a ≠ b := by
  rintro rfl
  have hin : a ∈ span a (f a) := by simp [ha]
  exact Finset.disjoint_left.mp hd hin (by simp [hb])

/-- The headers outside these bytes are as before. -/
def Frame (z : Finset ℕ) (h h' : Heap) : Prop :=
  ∀ a, a ∉ z → h'.units a = h.units a ∧ h'.next a = h.next a

/-! ## Blocks in use -/

/-- Stores outside the headers of the blocks do not matter. -/
theorem Inv.store (i : Inv arena taken h free used) (h' : Heap) (hslob : h'.slobfree = h.slobfree)
    (hfree : ∀ a ∈ free, h'.units a = h.units a ∧ h'.next a = h.next a)
    (hused : ∀ a ∈ used, h'.units a = h.units a) : Inv arena taken h' free used := by
  have hbf : ∀ a ∈ free, bytes h' a = bytes h a := fun a ha => bytes_congr (hfree a ha).1
  have hbu : ∀ a ∈ used, bytes h' a = bytes h a := fun a ha => bytes_congr (hused a ha)
  have hcells : cells (bytes h') free = cells (bytes h) free := cells_congr hbf
  constructor
  · exact i.arena_le
  · exact i.head
  · rw [(hfree arena i.arena_mem).1]
    exact i.unit
  · obtain ⟨xs, ys, rfl, hp⟩ := i.circle.split i.slobfree
    rw [circle_iff]
    apply hp.rehead
    · exact (hfree _ i.slobfree).2
    · intro a ha
      apply (hfree a _).2
      simp only [List.mem_append, List.mem_cons] at ha ⊢
      tauto
  · rw [hslob]
    exact i.slobfree
  · exact i.blocks.congr hbf
  · intro a ha
    rw [hbf a ha]
    exact i.gapped a ha
  · intro a ha
    rw [hbu a ha]
    exact i.held a ha
  · apply i.disjoint.imp_of_mem
    intro a b ha hb hd
    rwa [hbu a ha, hbu b hb]
  · intro a ha
    rw [hbu a ha, hcells]
    exact i.apart a ha
  · intro x
    rw [i.cover x, hcells]
    exact or_congr_right (exists_congr fun b => and_congr_right fun hb => by rw [hbu b hb])

theorem Inv.storeOutside (i : Inv arena taken h free used) (h' : Heap)
    (hslob : h'.slobfree = h.slobfree)
    (hsame : ∀ a, taken a → h'.units a = h.units a ∧ h'.next a = h.next a) :
    Inv arena taken h' free used := by
  apply i.store h' hslob
  · exact fun a ha => hsame a ((i.cover a).mpr (.inl (i.blocks.head_mem_cells ha)))
  · intro a ha
    have hin : a ∈ span a (bytes h a) := by simp [(i.held a ha).2.1]
    exact (hsame a ((i.cover a).mpr (.inr ⟨a, ha, hin⟩))).1

theorem Inv.mem_free (i : Inv arena taken h free used) :
    x ∈ cells (bytes h) free ↔ taken x ∧ ∀ b ∈ used, x ∉ span b (bytes h b) := by
  rw [i.cover x]
  constructor
  · exact fun hx => ⟨.inl hx, fun b hb hxb => Finset.disjoint_left.mp (i.apart b hb) hxb hx⟩
  · rintro ⟨hx | ⟨b, hb, hxb⟩, hn⟩
    · exact hx
    · exact absurd hxb (hn b hb)

theorem Inv.add (i : Inv arena taken h free used) (hb : arena + slobUnit < b)
    (hpos : 0 < bytes h b) (hhigh : b + bytes h b ≤ 2 ^ 64)
    (hfresh : ∀ x ∈ span b (bytes h b), ¬ taken x) :
    Inv arena (fun x => taken x ∨ x ∈ span b (bytes h b)) h free (b :: used) := by
  refine ⟨i.arena_le, i.head, i.unit, i.circle, i.slobfree, i.blocks, i.gapped, ?_, ?_, ?_, ?_⟩
  · intro a ha
    rcases List.mem_cons.mp ha with rfl | ha
    · exact ⟨hb, hpos, hhigh⟩
    · exact i.held a ha
  · rw [List.pairwise_cons]
    refine ⟨fun a ha => ?_, i.disjoint⟩
    rw [Finset.disjoint_left]
    exact fun x hx hxa => hfresh x hx ((i.cover x).mpr (.inr ⟨a, ha, hxa⟩))
  · intro a ha
    rcases List.mem_cons.mp ha with rfl | ha
    · rw [Finset.disjoint_left]
      exact fun x hx hxc => hfresh x hx ((i.cover x).mpr (.inl hxc))
    · exact i.apart a ha
  · intro x
    rw [i.cover x]
    simp only [List.mem_cons, exists_eq_or_imp]
    rw [or_assoc]
    exact or_congr_right or_comm

theorem Inv.hide (i : Inv arena taken h free (b :: used)) :
    Inv arena (fun x => taken x ∧ x ∉ span b (bytes h b)) h free used := by
  obtain ⟨hbd, hdis⟩ := List.pairwise_cons.mp i.disjoint
  refine ⟨i.arena_le, i.head, i.unit, i.circle, i.slobfree, i.blocks, i.gapped,
    fun a ha => i.held a (List.mem_cons_of_mem b ha), hdis,
    fun a ha => i.apart a (List.mem_cons_of_mem b ha), ?_⟩
  intro x
  have hfree : x ∈ cells (bytes h) free → x ∉ span b (bytes h b) :=
    fun hx => Finset.disjoint_right.mp (i.apart b List.mem_cons_self) hx
  rw [i.cover x]
  simp only [List.mem_cons, exists_eq_or_imp]
  constructor
  · rintro ⟨hx | hx | hx, hn⟩
    · exact .inl hx
    · exact absurd hx hn
    · exact .inr hx
  · rintro (hx | ⟨a, ha, hx⟩)
    · exact ⟨.inl hx, hfree hx⟩
    · exact ⟨.inr (.inr ⟨a, ha, hx⟩), Finset.disjoint_right.mp (hbd a ha) hx⟩

/-! ## Freeing -/

theorem reinsert_of_ne (hb : a ≠ b) (hc : a ≠ c) :
    (reinsert h b c).units a = h.units a ∧ (reinsert h b c).next a = h.next a := by
  have h₁ : (joinNext h b c).units a = h.units a ∧ (joinNext h b c).next a = h.next a := by
    unfold joinNext
    split <;> simp [hb]
  have h₂ : (reinsert h b c).units a = (joinNext h b c).units a ∧
      (reinsert h b c).next a = (joinNext h b c).next a := by
    unfold reinsert joinPrev
    split <;> simp [hc]
  exact ⟨h₂.1.trans h₁.1, h₂.2.trans h₁.2⟩

/-- A block in use is freed. -/
theorem Inv.slobFree (i : Inv arena taken h free (b :: used)) :
    ∃ n h' free', (∀ fuel, slobFree (n + fuel) h b 0 = some h') ∧
      Inv arena taken h' free' used ∧ (∀ a ∈ used, h'.units a = h.units a) ∧
      Frame (cells (bytes h) free ∪ span b (bytes h b)) h h' := by
  obtain ⟨c, xs, ys, rfl, d, hcells, n, hn⟩ := i.placed
  obtain ⟨free', hcircle, hcm, hhead, hblocks, hgapped, hcells', hunits⟩ :=
    d.joinPrev_spec i.arena_le
  obtain ⟨hab, hbpos, hbhigh⟩ := i.held b List.mem_cons_self
  obtain ⟨hbd, hdis⟩ := List.pairwise_cons.mp i.disjoint
  have hkeep : ∀ a ∈ used, (reinsert h b c).units a = h.units a := by
    intro a ha
    obtain ⟨-, hapos, -⟩ := i.held a (List.mem_cons_of_mem b ha)
    have hab : a ≠ b := (ne_of_disjoint hbpos (hbd a ha) hapos).symm
    apply hunits a hab
    rintro rfl
    have hac := Finset.disjoint_left.mp (i.apart a (List.mem_cons_of_mem b ha))
    have hin : a ∈ span a (bytes h a) := by simp [hapos]
    exact absurd (i.blocks.head_mem_cells (by simp)) (hac hin)
  have hbytes : ∀ a ∈ used, bytes (reinsert h b c) a = bytes h a :=
    fun a ha => bytes_congr (hkeep a ha)
  have hcells'' : cells (bytes (reinsert h b c)) free' =
      cells (bytes h) (xs ++ c :: ys) ∪ span b (bytes h b) := hcells'.trans hcells
  refine ⟨n, reinsert h b c, free', fun fuel => ?_, ⟨i.arena_le, hhead.trans i.head, ?_, hcircle,
    hcm, hblocks, hgapped, ?_, ?_, ?_, ?_⟩, hkeep, ?_⟩
  · have hb0 : b ≠ 0 := by omega
    simp [Slob.slobFree, hb0, hn fuel]
  · have hne : arena ≠ b := by omega
    rw [← i.unit]
    apply hunits arena hne
    rintro rfl
    rw [i.bytes_arena]
    unfold slobUnit at hab
    omega
  · intro a ha
    rw [hbytes a ha]
    exact i.held a (List.mem_cons_of_mem b ha)
  · apply hdis.imp_of_mem
    intro a e ha he hd
    rwa [hbytes a ha, hbytes e he]
  · intro a ha
    rw [hbytes a ha, hcells'', Finset.disjoint_union_right]
    exact ⟨i.apart a (List.mem_cons_of_mem b ha), (hbd a ha).symm⟩
  · intro x
    rw [i.cover x, hcells'', Finset.mem_union]
    have hex : (∃ e ∈ used, x ∈ span e (bytes (reinsert h b c) e)) ↔
        ∃ e ∈ used, x ∈ span e (bytes h e) :=
      exists_congr fun e => and_congr_right fun he => by rw [hbytes e he]
    rw [hex]
    simp only [List.mem_cons, exists_eq_or_imp]
    tauto
  · intro a ha
    rw [Finset.mem_union, not_or] at ha
    apply reinsert_of_ne
    · rintro rfl
      exact ha.2 (by simp [hbpos])
    · rintro rfl
      exact ha.1 (i.blocks.head_mem_cells (by simp))

theorem bytes_setUnits (hn : n < 2 ^ 31) :
    bytes (h.setUnits b (slobUnits n)) b = 16 * ((n + 15) / 16) := by
  unfold bytes slobUnit
  rw [Heap.setUnits_units, Function.update_self, slobUnits_eq (by omega),
    int32_eq (by omega) (by omega), Int.toNat_natCast]

theorem Inv.addPage (i : Inv arena taken h free used) (hpage : arena + slobUnit < page)
    (hhigh : page + pageSize ≤ 2 ^ 64) (hfresh : ∀ x ∈ span page pageSize, ¬ taken x) :
    Inv arena (fun x => taken x ∨ x ∈ span page pageSize)
      (h.setUnits page (slobUnits pageSize)) free (page :: used) := by
  have hpagespan : page ∈ span page pageSize := by simp [pageSize]
  have hsize : bytes (h.setUnits page (slobUnits pageSize)) page = pageSize :=
    bytes_setUnits (by decide)
  have hi : Inv arena taken (h.setUnits page (slobUnits pageSize)) free used := by
    apply i.storeOutside (h.setUnits page (slobUnits pageSize)) rfl
    intro a ha
    have hne : a ≠ page := by
      rintro rfl
      exact hfresh a hpagespan ha
    simp [hne]
  have hadd := hi.add hpage (by rw [hsize]; decide) (by rwa [hsize]) (by rwa [hsize])
  rwa [hsize] at hadd

theorem slobFree_sized (fuel : ℕ) (hb : b ≠ 0) (hn : n ≠ 0) :
    slobFree fuel h b n = slobFree fuel (h.setUnits b (slobUnits n)) b 0 := by
  simp [slobFree, hb, hn]

/-! ## Taking units -/

theorem Inv.found (i : Inv arena taken h free used) (hp : p ∈ free) (hn : h.next p = x)
    (hu : 2 ≤ u) (hx : u ≤ h.units x) : x ≠ arena ∧
      ∃ xs ys, free = xs ++ p :: x :: ys ∧ Path h.next x (ys ++ xs) p := by
  have hxa : x ≠ arena := by
    rintro rfl
    rw [i.unit] at hx
    omega
  refine ⟨hxa, ?_⟩
  obtain ⟨xs, ys, rfl, hpath⟩ := i.circle.split hp
  cases ys with
  | cons y ys =>
    obtain rfl : y = x := hpath.1.symm.trans hn
    exact ⟨xs, ys, rfl, hpath.2⟩
  | nil =>
    exfalso
    apply hxa
    rw [← hn]
    cases xs with
    | nil =>
      have h₁ : h.next p = p := hpath
      have h₂ : some p = some arena := i.head
      rw [h₁]
      exact Option.some.inj h₂
    | cons y xs =>
      have h₁ : h.next p = y := hpath.1
      have h₂ : some y = some arena := i.head
      rw [h₁]
      exact Option.some.inj h₂

theorem takeBlock_part (hne : h.units x ≠ u) (hpx : p ≠ x) : takeBlock h p x u =
      ⟨Function.update (Function.update h.units (offset x u) (int32 (h.units x - u))) x (int32 u),
        Function.update (Function.update h.next p (offset x u)) (offset x u) (h.next x), p⟩ := by
  simp [takeBlock, hne, Heap.setNext, Heap.setUnits, hpx.symm]

/-- The first `m` bytes of a free block come into use. -/
theorem Inv.take {free' : List ℕ} (i : Inv arena taken h free used) (hx : x ∈ free)
    (harena : arena + slobUnit < x) (hm : bytes h' x = m) (hm0 : 0 < m) (hle : m ≤ bytes h x)
    (hhead : free'.head? = free.head?) (hunit : h'.units arena = h.units arena)
    (hcircle : Circle h'.next free') (hslobfree : h'.slobfree ∈ free')
    (hblocks : Blocks arena (2 ^ 64) (bytes h') free') (hgapped : Gapped (bytes h') free')
    (hcells : cells (bytes h') free' = cells (bytes h) free \ span x m)
    (hkeep : ∀ a ∈ used, h'.units a = h.units a) : Inv arena taken h' free' (x :: used) := by
  obtain ⟨-, -, hxpos, hxhigh, -⟩ := i.bounds hx
  have hbytes : ∀ a ∈ used, bytes h' a = bytes h a := fun a ha => bytes_congr (hkeep a ha)
  have hsub : span x m ⊆ cells (bytes h) free := by
    intro z hz
    rw [Finset.mem_Ico] at hz
    exact mem_cells.mpr ⟨x, hx, hz.1, by omega⟩
  constructor
  · exact i.arena_le
  · exact hhead.trans i.head
  · exact hunit.trans i.unit
  · exact hcircle
  · exact hslobfree
  · exact hblocks
  · exact hgapped
  · intro a ha
    rcases List.mem_cons.mp ha with rfl | ha
    · rw [hm]
      exact ⟨harena, hm0, by omega⟩
    · rw [hbytes a ha]
      exact i.held a ha
  · rw [List.pairwise_cons]
    constructor
    · intro a ha
      rw [hm, hbytes a ha]
      exact (i.apart a ha).symm.mono_left hsub
    · apply i.disjoint.imp_of_mem
      intro a e ha he hd
      rwa [hbytes a ha, hbytes e he]
  · intro a ha
    rw [hcells]
    rcases List.mem_cons.mp ha with rfl | ha
    · rw [hm]
      exact Finset.disjoint_sdiff
    · rw [hbytes a ha]
      exact (i.apart a ha).mono_right Finset.sdiff_subset
  · intro z
    have hex : (∃ e ∈ used, z ∈ span e (bytes h' e)) ↔ ∃ e ∈ used, z ∈ span e (bytes h e) :=
      exists_congr fun e => and_congr_right fun he => by rw [hbytes e he]
    rw [i.cover z, hcells]
    simp only [List.mem_cons, exists_eq_or_imp, hm, hex, Finset.mem_sdiff]
    have := @hsub z
    tauto

theorem Inv.arena_add_lt (i : Inv arena taken h free used) (hx : x ∈ free) (hxa : x ≠ arena) :
    arena + slobUnit < x := by
  have h₁ := i.blocks.apart i.arena_mem hx (lt_of_le_of_ne (i.le_of_mem hx) hxa.symm)
  have h₂ := i.gapped arena i.arena_mem
  rw [i.bytes_arena] at h₁ h₂
  have hne : arena + 16 ≠ x := fun he => h₂ (he ▸ hx)
  unfold slobUnit
  omega

theorem Inv.used_not_mem_cells (i : Inv arena taken h free used) (ha : a ∈ used) :
    a ∉ cells (bytes h) free := by
  have hin : a ∈ span a (bytes h a) := by simp [(i.held a ha).2.1]
  exact Finset.disjoint_left.mp (i.apart a ha) hin

section Take

variable (i : Inv arena taken h (xs ++ p :: x :: ys) used) (hxa : x ≠ arena)
  (hpath : Path h.next x (ys ++ xs) p)

include i

theorem Inv.split_blocks : Blocks arena (2 ^ 64) (bytes h) ((xs ++ [p]) ++ x :: ys) := by
  simpa using i.blocks

theorem Inv.cur_not_mem : x ∉ (xs ++ [p]) ++ ys :=
  (List.nodup_cons.mp (List.nodup_middle.mp i.split_blocks.nodup)).1

theorem Inv.prev_not_mem : p ∉ ys ++ xs := by
  have := (List.nodup_cons.mp (List.nodup_middle.mp i.blocks.nodup)).1
  simp only [List.mem_append, List.mem_cons, not_or] at this ⊢
  exact ⟨this.2.2, this.1⟩

include hxa hpath

/-- The whole block is taken. -/
theorem Inv.takeWhole (he : h.units x = u) :
    Inv arena taken (takeBlock h p x u) (xs ++ p :: ys) (x :: used) ∧
      (takeBlock h p x u).units x = u ∧
      (∀ a ∈ used, (takeBlock h p x u).units a = h.units a) ∧
      Frame (cells (bytes h) (xs ++ p :: x :: ys)) h (takeBlock h p x u) := by
  have hxm : x ∈ xs ++ p :: x :: ys := by simp
  obtain ⟨-, -, hxpos, -, -⟩ := i.bounds hxm
  have ht : Slob.takeBlock h p x u = { h.setNext p (h.next x) with slobfree := p } := by
    simp [Slob.takeBlock, he]
  have hsub : (xs ++ p :: ys).Sublist (xs ++ p :: x :: ys) :=
    ((List.sublist_cons_self x ys).cons_cons p).append_left xs
  have hcells := i.split_blocks.cells_remove
  rw [List.append_assoc, List.append_assoc] at hcells
  rw [ht]
  refine ⟨i.take hxm (i.arena_add_lt hxm hxa) rfl hxpos le_rfl (head?_append_cons _ _ _) rfl ?_
    (by simp) (i.blocks.sublist hsub) (i.gapped.sublist hsub) hcells fun _ _ => rfl, he,
    fun _ _ => rfl, ?_⟩
  · rw [circle_iff]
    apply hpath.rehead
    · simp
    · intro a ha
      have hne : a ≠ p := fun h' => i.prev_not_mem (h' ▸ ha)
      simp [hne]
  · intro a ha
    have hne : a ≠ p := by
      rintro rfl
      exact ha (i.blocks.head_mem_cells (by simp))
    simp [hne]

/-- The front of a block is taken, and what is left of it takes its place. -/
theorem Inv.takeFront (hu : 2 ≤ u) (hlt : u < h.units x) :
    ∃ free', Inv arena taken (takeBlock h p x u) free' (x :: used) ∧
      (takeBlock h p x u).units x = u ∧
      (∀ a ∈ used, (takeBlock h p x u).units a = h.units a) ∧
      Frame (cells (bytes h) (xs ++ p :: x :: ys)) h (takeBlock h p x u) := by
  have hxm : x ∈ xs ++ p :: x :: ys := by simp
  obtain ⟨hx0, hxlt, hxpos, hxhigh, hxsmall⟩ := i.bounds hxm
  have hxu := units_eq hxpos
  have hw := i.split_blocks
  have hpx : p ≠ x := by
    rintro rfl
    exact i.cur_not_mem (by simp)
  obtain ⟨k, hk⟩ : ∃ k : ℕ, 16 * u = k := ⟨(16 * u).toNat, by omega⟩
  have hklt : k < bytes h x := by omega
  have hoff : offset x u = x + k := offset_eq hk (by omega)
  rw [takeBlock_part hlt.ne' hpx, hoff]
  set e := x + k with hdef
  have hxe : x ≠ e := by omega
  have hein : e ∈ cells (bytes h) (xs ++ p :: x :: ys) :=
    mem_cells.mpr ⟨x, hxm, by omega, by omega⟩
  have hefree : e ∉ (xs ++ [p]) ++ ys := hw.cut_not_mem hklt
  set t : Heap :=
    ⟨Function.update (Function.update h.units e (int32 (h.units x - u))) x (int32 u),
    Function.update (Function.update h.next p e) e (h.next x), p⟩ with ht
  have htx : t.units x = u := by
    simp only [ht, Function.update_self]
    exact int32_eq (by omega) (by omega)
  have hte : t.units e = h.units x - u := by
    simp only [ht, Function.update_of_ne hxe.symm, Function.update_self]
    exact int32_eq (by omega) (by omega)
  have hto : ∀ a, a ≠ x → a ≠ e → t.units a = h.units a := by
    intro a hax hae
    simp only [ht, Function.update_of_ne hax, Function.update_of_ne hae]
  have hbx : bytes t x = k := by
    unfold bytes slobUnit
    rw [htx]
    omega
  have hbe : bytes t e = bytes h x - k := by
    unfold bytes slobUnit at *
    rw [hte]
    omega
  have hbo : ∀ a ∈ (xs ++ [p]) ++ ys, bytes t a = bytes h a := by
    intro a ha
    apply bytes_congr
    apply hto a
    · rintro rfl
      exact i.cur_not_mem ha
    · intro h'
      exact hefree (h' ▸ ha)
  have hblocks : Blocks arena (2 ^ 64) (bytes t) (xs ++ p :: e :: ys) := by
    simpa using hw.cut hklt hbo hbe
  have hgapped : Gapped (bytes t) (xs ++ p :: e :: ys) := by
    have hg : Gapped (bytes h) ((xs ++ [p]) ++ x :: ys) := by simpa using i.gapped
    simpa using hg.cut hw (by omega) hklt hbo hbe
  have hcells : cells (bytes t) (xs ++ p :: e :: ys) =
      cells (bytes h) (xs ++ p :: x :: ys) \ span x k := by
    simpa using hw.cells_cut hklt hbo hbe
  have hpe : p ≠ e := fun h' => hefree (h' ▸ by simp)
  have hcircle : Circle t.next (xs ++ p :: e :: ys) := by
    rw [circle_iff]
    refine ⟨by simp [ht, hpe], ?_⟩
    apply hpath.rehead
    · simp [ht]
    · intro a ha
      have hap : a ≠ p := fun h' => i.prev_not_mem (h' ▸ ha)
      have hae : a ≠ e := by
        rintro rfl
        apply hefree
        simp only [List.mem_append] at ha ⊢
        tauto
      simp [ht, hap, hae]
  have hkeep : ∀ a ∈ used, t.units a = h.units a := by
    intro a ha
    apply hto a
    · rintro rfl
      exact i.used_not_mem_cells ha (i.blocks.head_mem_cells hxm)
    · rintro rfl
      exact i.used_not_mem_cells ha hein
  have hunit : t.units arena = h.units arena := by
    apply hto arena hxa.symm
    rintro rfl
    have := i.le_of_mem hxm
    omega
  refine ⟨xs ++ p :: e :: ys, i.take hxm (i.arena_add_lt hxm hxa) hbx (by omega) (by omega)
    (head?_append_cons _ _ _) hunit hcircle (by simp [ht]) hblocks hgapped hcells hkeep, htx,
    hkeep, ?_⟩
  intro a ha
  have hax : a ≠ x := by
    rintro rfl
    exact ha (i.blocks.head_mem_cells hxm)
  have hap : a ≠ p := by
    rintro rfl
    exact ha (i.blocks.head_mem_cells (by simp))
  have hae : a ≠ e := by
    rintro rfl
    exact ha hein
  refine ⟨hto a hax hae, ?_⟩
  simp [ht, hap, hae]

end Take

theorem Inv.takeBlock (i : Inv arena taken h free used) (hp : p ∈ free) (hn : h.next p = x)
    (hu : 2 ≤ u) (hx : u ≤ h.units x) :
    ∃ free', Inv arena taken (takeBlock h p x u) free' (x :: used) ∧
      (takeBlock h p x u).units x = u ∧
      (∀ a ∈ used, (takeBlock h p x u).units a = h.units a) ∧
      Frame (cells (bytes h) free) h (takeBlock h p x u) := by
  obtain ⟨hxa, xs, ys, rfl, hpath⟩ := i.found hp hn hu hx
  rcases hx.eq_or_lt with he | hlt
  · exact ⟨_, i.takeWhole hxa hpath he.symm⟩
  · exact i.takeFront hxa hpath hu hlt

end UCore.Slob

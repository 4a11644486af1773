import UCore.Library.Run
import UCore.Slob.Steps

/-! # Safety of the SLOB heap

Along every run the free list is the circle of the free blocks in the order of
their addresses, free and live blocks tile the arena and the pages, and every
call ends.
-/

namespace UCore.Slob

open Library Library.Cycle

variable {arena a b c n p x cur prev size : ℕ} {u v : ℤ} {h h' : Heap} {page : Option ℕ}
  {xs ys zs l free used used' : List ℕ} {taken taken' : ℕ → Prop} {supply : List (Option ℕ)}
  {s s' s₁ : Config}

/-! ## The search for room -/

/-- The loop of `slob_alloc` finds a block with room, or has seen all of them. -/
theorem allocLoop_scan (size : ℕ) (u : ℤ) (supply : List (Option ℕ))
    (hp : Path h.next prev l h.slobfree) (hl : ∀ a ∈ l, a ≠ h.slobfree)
    (hprev : prev ∈ free) (hsub : ∀ a ∈ l, a ∈ free) :
    (∃ k p x, p ∈ free ∧ h.next p = x ∧ u ≤ h.units x ∧ ∀ fuel,
      allocLoop size u (k + fuel) h supply prev (h.next prev) =
        some (some x, takeBlock h p x u, supply)) ∨
    (∀ a ∈ h.slobfree :: l, h.units a < u) ∧ ∃ k p, ∀ fuel,
      allocLoop size u (k + fuel) h supply prev (h.next prev) =
        allocLoop size u (fuel + 1) h supply p h.slobfree := by
  induction l generalizing prev with
  | nil =>
    have hn : h.next prev = h.slobfree := hp
    by_cases hu : u ≤ h.units h.slobfree
    · refine .inl ⟨1, prev, h.slobfree, hprev, hn, hu, fun fuel => ?_⟩
      rw [hn, Nat.add_comm, allocLoop, if_pos hu]
    · refine .inr ⟨by simpa using hu, 1, prev, fun fuel => ?_⟩
      rw [hn, Nat.add_comm]
  | cons y l ih =>
    have hn : h.next prev = y := hp.1
    by_cases hu : u ≤ h.units y
    · refine .inl ⟨1, prev, y, hprev, hn, hu, fun fuel => ?_⟩
      rw [hn, Nat.add_comm, allocLoop, if_pos hu]
    · have hy := hl y List.mem_cons_self
      have hstep : ∀ fuel, allocLoop size u (fuel + 1) h supply prev (h.next prev) =
          allocLoop size u fuel h supply y (h.next y) := by
        intro fuel
        rw [hn, allocLoop, if_neg hu, if_neg hy]
      rcases ih hp.2 (fun a ha => hl a (List.mem_cons_of_mem y ha)) (hsub y List.mem_cons_self)
        (fun a ha => hsub a (List.mem_cons_of_mem y ha)) with
        ⟨k, p, x, hpm, hpx, hux, hk⟩ | ⟨hall, k, p, hk⟩
      · refine .inl ⟨k + 1, p, x, hpm, hpx, hux, fun fuel => ?_⟩
        rw [Nat.add_right_comm, hstep, hk]
      · refine .inr ⟨?_, k + 1, p, fun fuel => ?_⟩
        · intro a ha
          rcases List.mem_cons.mp ha with rfl | ha
          · exact hall _ List.mem_cons_self
          · rcases List.mem_cons.mp ha with rfl | ha
            · exact Int.lt_of_not_ge hu
            · exact hall a (List.mem_cons_of_mem _ ha)
        · rw [Nat.add_right_comm, hstep, hk]

namespace Inv

theorem scan (i : Inv arena taken h free used) (size : ℕ) (supply : List (Option ℕ)) (hu : 2 ≤ u) :
    (∃ k x h' free', (∀ fuel,
      allocLoop size u (k + fuel) h supply h.slobfree (h.next h.slobfree) =
        some (some x, h', supply)) ∧ Inv arena taken h' free' (x :: used) ∧ h'.units x = u ∧
        (∀ a ∈ used, h'.units a = h.units a) ∧ Frame (cells (bytes h) free) h h') ∨
    (∀ a ∈ free, h.units a < u) ∧ ∃ k p, ∀ fuel,
      allocLoop size u (k + fuel) h supply h.slobfree (h.next h.slobfree) =
        allocLoop size u (fuel + 1) h supply p h.slobfree := by
  obtain ⟨xs, ys, hfree, hp⟩ := i.circle.split i.slobfree
  have hnd := i.blocks.nodup
  rw [hfree] at hnd
  have hnot := (List.nodup_cons.mp (List.nodup_middle.mp hnd)).1
  have hl : ∀ a ∈ ys ++ xs, a ≠ h.slobfree := by
    rintro a ha rfl
    exact hnot (by simpa [or_comm] using ha)
  have hsub : ∀ a ∈ ys ++ xs, a ∈ free := by
    intro a ha
    rw [hfree]
    simp only [List.mem_append, List.mem_cons] at ha ⊢
    tauto
  rcases allocLoop_scan size u supply hp hl i.slobfree hsub with
    ⟨k, p, x, hpm, hpx, hux, hk⟩ | ⟨hall, hk⟩
  · obtain ⟨free', hi, hx, hkeep, hframe⟩ := i.takeBlock hpm hpx hu hux
    exact .inl ⟨k, x, _, free', hk, hi, hx, hkeep, hframe⟩
  · refine .inr ⟨?_, hk⟩
    intro a ha
    apply hall
    rw [hfree] at ha
    simp only [List.mem_append, List.mem_cons] at ha ⊢
    tauto

theorem perm (i : Inv arena taken h free used) (hp : used.Perm used') :
    Inv arena taken h free used' := by
  refine ⟨i.arena_le, i.head, i.unit, i.circle, i.slobfree, i.blocks, i.gapped, ?_, ?_, ?_, ?_⟩
  · exact fun b hb => i.held b (hp.mem_iff.mpr hb)
  · exact hp.pairwise i.disjoint fun hd => hd.symm
  · exact fun b hb => i.apart b (hp.mem_iff.mpr hb)
  · intro x
    rw [i.cover x]
    exact or_congr_right (exists_congr fun b => and_congr_left fun _ => hp.mem_iff)

theorem congr (i : Inv arena taken h free used) (ht : ∀ x, taken' x ↔ taken x) :
    Inv arena taken' h free used := by
  have : taken' = taken := funext fun x => propext (ht x)
  rwa [this]

theorem exists_room (i : Inv arena taken h free used) (pg : ℕ)
    (hpage : ∀ x ∈ span pg pageSize, taken x ∧ ∀ b ∈ used, x ∉ span b (bytes h b)) :
    ∃ a ∈ free, 256 ≤ h.units a := by
  have hcov : ∀ x ∈ span pg pageSize, x ∈ cells (bytes h) free := by
    intro x hx
    obtain ⟨ht, hno⟩ := hpage x hx
    apply ((i.cover x).mp ht).resolve_right
    rintro ⟨b, hb, hxb⟩
    exact hno b hb hxb
  obtain ⟨a, ha, hle, hend⟩ := i.gapped.span_subset i.blocks (by decide) hcov
  refine ⟨a, ha, ?_⟩
  have := units_eq (i.blocks.pos a ha)
  unfold pageSize at hend
  omega

/-- What a request does: at most one page is asked for, and only its refusal is an answer without
a block. -/
theorem alloc (i : Inv arena taken h free used) (size : ℕ) (page : Option ℕ) (hu : 2 ≤ u)
    (hu' : u ≤ 255) (hsize : size ≠ pageSize)
    (hpage : ∀ pg ∈ page, arena + slobUnit < pg ∧ pg + pageSize ≤ 2 ^ 64 ∧
      ∀ x ∈ span pg pageSize, ¬ taken x) :
    ∃ k r h' left free', (∀ fuel,
      allocLoop size u (k + fuel) h [page] h.slobfree (h.next h.slobfree) =
        some (r, h', left)) ∧
      Inv arena (fun x => taken x ∨ left = [] ∧ ∃ pg ∈ page, x ∈ span pg pageSize) h' free'
        (r.elim used fun x => x :: used) ∧
      (∀ x ∈ r, h'.units x = u) ∧ (r = none → page = none) ∧
      (∀ a ∈ used, h'.units a = h.units a) ∧
      Frame (cells (bytes h) free ∪ page.elim ∅ fun pg => span pg pageSize) h h' := by
  rcases i.scan size [page] hu with
    ⟨k, x, h', free', hk, hi, hx, hkeep, hframe⟩ | ⟨hall, k, p, hk⟩
  · refine ⟨k, some x, h', [page], free', hk, hi.congr ?_, ?_, by simp, hkeep, fun a ha =>
      hframe a fun hm => ha (Finset.mem_union_left _ hm)⟩
    · simp
    · intro y hy
      obtain rfl := Option.some.inj hy
      exact hx
  · have hlt := hall h.slobfree i.slobfree
    have hstep : ∀ fuel, allocLoop size u (k + fuel) h [page] h.slobfree (h.next h.slobfree) =
        page.elim (some (none, h, [])) fun pg => (Slob.slobFree fuel h pg pageSize).bind fun h =>
          allocLoop size u fuel h [] h.slobfree (h.next h.slobfree) := by
      intro fuel
      rw [hk, allocLoop, if_neg (by omega), if_pos rfl, if_neg hsize]
      rfl
    cases page with
    | none =>
      refine ⟨k, none, h, [], free, hstep, i.congr (by simp), ?_, fun _ => rfl, fun _ _ => rfl,
        fun _ _ => ⟨rfl, rfl⟩⟩
      exact fun y hy => absurd hy.symm (Option.some_ne_none y)
    | some pg =>
      obtain ⟨hpg, hhigh, hfresh⟩ := hpage pg rfl
      have hadd := i.addPage hpg hhigh hfresh
      obtain ⟨n, h₁, free₁, hn, hi₁, hkeep₁, hframe₁⟩ := hadd.slobFree
      have hused : ∀ a ∈ used, a ≠ pg := by
        rintro a ha rfl
        have hin : a ∈ span a (bytes h a) := by simp [(i.held a ha).2.1]
        exact hfresh a (by simp [pageSize]) ((i.cover a).mpr (.inr ⟨a, ha, hin⟩))
      have hkeep' : ∀ a ∈ used, h₁.units a = h.units a := by
        intro a ha
        rw [hkeep₁ a ha]
        simp [hused a ha]
      have hroom := hi₁.exists_room pg (by
        intro x hx
        refine ⟨.inr hx, ?_⟩
        intro b hb hxb
        rw [bytes_congr (hkeep' b hb)] at hxb
        exact hfresh x hx ((i.cover x).mpr (.inr ⟨b, hb, hxb⟩)))
      rcases hi₁.scan size [] hu with
        ⟨k', x, h', free', hk', hi', hx, hkeep, hframe⟩ | ⟨hall', -⟩
      · refine ⟨k + (n + k'), some x, h', [], free', fun fuel => ?_, hi'.congr ?_, ?_, by simp, ?_,
          ?_⟩
        · have e₁ := hn (k' + fuel)
          have e₂ := hk' (n + fuel)
          rw [← Nat.add_assoc] at e₁
          rw [show k' + (n + fuel) = n + k' + fuel by omega] at e₂
          rw [show k + (n + k') + fuel = k + (n + k' + fuel) by omega, hstep]
          rw [Option.elim_some, slobFree_sized _ (by omega) (by decide), e₁, Option.bind_some, e₂]
        · simp
        · intro y hy
          obtain rfl := Option.some.inj hy
          exact hx
        · exact fun a ha => (hkeep a ha).trans (hkeep' a ha)
        · intro a ha
          rw [Option.elim_some, Finset.mem_union, not_or] at ha
          have hne : a ≠ pg := by
            rintro rfl
            exact ha.2 (by simp [pageSize])
          have hold : ∀ {g : Heap} {l m : List ℕ},
              Inv arena (fun x => taken x ∨ x ∈ span pg pageSize) g l m →
              (∀ b ∈ used, b ∈ m ∧ bytes g b = bytes h b) → a ∉ cells (bytes g) l := by
            intro g l m hi hb hm
            obtain ⟨ht, hn'⟩ := hi.mem_free.mp hm
            refine ha.1 (i.mem_free.mpr ⟨ht.resolve_right ha.2, fun b hbu => ?_⟩)
            rw [← (hb b hbu).2]
            exact hn' b (hb b hbu).1
          obtain ⟨hu₂, hn₂⟩ := hframe a (hold hi₁ fun b hb => ⟨hb, bytes_congr (hkeep' b hb)⟩)
          obtain ⟨hu₁, hn₁⟩ := hframe₁ a (by
            rw [Finset.mem_union, not_or]
            refine ⟨hold hadd fun b hb => ⟨List.mem_cons_of_mem _ hb, ?_⟩, ?_⟩
            · apply bytes_congr
              simp [hused b hb]
            · rw [bytes_setUnits (by decide)]
              exact ha.2)
          rw [hu₂, hn₂, hu₁, hn₁]
          simp [hne]
      · obtain ⟨a, ha, hroom⟩ := hroom
        have := hall' a ha
        omega

end Inv

/-! ## Calls -/

/-- The bytes of the arena and of the pages. -/
def Taken (arena : ℕ) (pages : List ℕ) (x : ℕ) : Prop :=
  arena ≤ x ∧ x < arena + slobUnit ∨ ∃ p ∈ pages, p ≤ x ∧ x < p + pageSize

theorem filter_ne_of_mem {l : List (ℕ × ℕ)} (hne : l.Pairwise fun x y => x.1 ≠ y.1)
    (hb : (b, size) ∈ l) :
    ∃ l₁ l₂, l = l₁ ++ (b, size) :: l₂ ∧ l.filter (fun x => x.1 ≠ b) = l₁ ++ l₂ := by
  obtain ⟨l₁, l₂, rfl⟩ := List.append_of_mem hb
  obtain ⟨-, hr, hlr⟩ := List.pairwise_append.mp hne
  have h₁ : l₁.filter (fun x => x.1 ≠ b) = l₁ := by
    apply List.filter_eq_self.mpr
    intro x hx
    exact decide_eq_true (hlr x hx _ List.mem_cons_self)
  have h₂ : l₂.filter (fun x => x.1 ≠ b) = l₂ := by
    apply List.filter_eq_self.mpr
    intro x hx
    exact decide_eq_true ((List.pairwise_cons.mp hr).1 x hx).symm
  exact ⟨l₁, l₂, rfl, by rw [List.filter_append, List.filter_cons_of_neg (by simp), h₁, h₂]⟩

/-- Live results are the payloads of the blocks in use. -/
structure Good (arena : ℕ) (s : Config) (free : List ℕ) : Prop where
  inv : Inv arena (Taken arena s.pages) s.heap free (s.live.map fun x => header x.1)
  payload : ∀ x ∈ s.live, slobUnit ≤ x.1 ∧ x.2 + slobUnit ≤ bytes s.heap (header x.1)
  pages : ∀ p ∈ s.pages, pageSize ∣ p

namespace Good

variable (g : Good arena s free)

include g

theorem fresh {pg : ℕ} (hd : pageSize ∣ pg) (ha : arena + slobUnit < pg) (hn : pg ∉ s.pages) :
    ∀ x ∈ span pg pageSize, ¬ Taken arena s.pages x := by
  intro x hx ht
  rw [Finset.mem_Ico] at hx
  rcases ht with ht | ⟨p, hp, ht⟩
  · omega
  · have hne : pg ≠ p := fun he => hn (he ▸ hp)
    obtain ⟨c, rfl⟩ := hd
    obtain ⟨d, rfl⟩ := g.pages p hp
    unfold pageSize at *
    omega

theorem alloc (ha : s.Allowed arena (.alloc size page)) :
    ∃ n s' free', (∀ fuel, s.call (n + fuel) (.alloc size page) = some s') ∧
      Good arena s' free' := by
  obtain ⟨h1, hlt, hpage⟩ := ha
  have hu : slobUnits (size + slobUnit) = ((size + 31) / 16 : ℕ) := by
    rw [slobUnits_eq (by unfold slobUnit; omega)]
    rfl
  obtain ⟨k, r, h', left, free', hk, hi, hr, -, hkeep, -⟩ :=
    g.inv.alloc (u := slobUnits (size + slobUnit)) (size + slobUnit) page (by rw [hu]; omega)
      (by rw [hu]; omega) (by unfold slobUnit pageSize; omega) (by
        intro pg hpg
        obtain ⟨hd, hpa, hhigh, hn⟩ := hpage pg hpg
        exact ⟨hpa, hhigh, g.fresh hd hpa hn⟩)
  have hcall : ∀ fuel, kmalloc (k + fuel) s.heap [page] size =
      some (r.map fun m => offset m 1, h', left) := by
    intro fuel
    rw [kmalloc, if_pos (by unfold pageSize slobUnit; omega), slobAlloc,
      if_pos (by unfold pageSize slobUnit; omega), hk fuel]
    rfl
  set pages' := if left = [] then page.elim s.pages fun p => p :: s.pages else s.pages with hp'
  have htaken : ∀ x, Taken arena pages' x ↔
      Taken arena s.pages x ∨ left = [] ∧ ∃ pg ∈ page, x ∈ span pg pageSize := by
    intro x
    unfold Taken
    rw [hp']
    cases page with
    | none => simp
    | some pg =>
      by_cases hleft : left = []
      · simp only [hleft, if_true, Option.elim_some, List.mem_cons, exists_eq_or_imp, true_and,
          Option.mem_def, Option.some.injEq, exists_eq_left', Finset.mem_Ico]
        rw [or_assoc]
        exact or_congr_right or_comm
      · simp [hleft]
  refine ⟨k, _, free', fun fuel => by rw [Config.call, hcall fuel, Option.map_some], ?_⟩
  have hold : ∀ x ∈ s.live, bytes h' (header x.1) = bytes s.heap (header x.1) := by
    intro x hx
    apply bytes_congr
    exact hkeep _ (List.mem_map_of_mem (f := fun x : ℕ × ℕ => header x.1) hx)
  have hpages : ∀ p ∈ pages', pageSize ∣ p := by
    intro p hp
    have hcase : p ∈ page ∨ p ∈ s.pages := by
      rw [hp'] at hp
      split at hp
      · cases page with
        | none => exact .inr hp
        | some pg =>
          rcases List.mem_cons.mp hp with rfl | hp
          · exact .inl rfl
          · exact .inr hp
      · exact .inr hp
    rcases hcase with hp | hp
    · exact (hpage p hp).1
    · exact g.pages p hp
  cases r with
  | none =>
    refine ⟨hi.congr htaken, ?_, hpages⟩
    intro x hx
    rw [hold x hx]
    exact g.payload x hx
  | some m =>
    obtain ⟨hm, hmpos, hmhigh⟩ := hi.held m (by simp)
    have hmu := hr m rfl
    have hmb := units_eq hmpos
    have hoff : offset m 1 = m + 16 := by
      unfold offset slobUnit
      omega
    have hhead : header (offset m 1) = m := by
      rw [hoff]
      rfl
    have hpay : slobUnit ≤ offset m 1 ∧ size + slobUnit ≤ bytes h' (header (offset m 1)) := by
      rw [hhead, hoff]
      unfold slobUnit
      omega
    refine ⟨?_, ?_, hpages⟩
    · have hi' := hi.congr htaken
      simpa [hhead] using hi'
    · intro x hx
      rcases List.mem_cons.mp hx with rfl | hx
      · exact hpay
      · rw [hold x hx]
        exact g.payload x hx

theorem live_ne : s.live.Pairwise fun x y => x.1 ≠ y.1 := by
  apply (List.pairwise_map.mp g.inv.disjoint).imp_of_mem
  intro x y hx hy hd he
  have hpos := (g.inv.held _ (List.mem_map_of_mem hx)).2.1
  rw [he] at hd hpos
  have hin : header y.1 ∈ span (header y.1) (bytes s.heap (header y.1)) := by simp [hpos]
  exact Finset.disjoint_left.mp hd hin hin

theorem release (hb : (b, size) ∈ s.live) :
    ∃ n s' free', (∀ fuel, s.call (n + fuel) (.free b) = some s') ∧ Good arena s' free' := by
  obtain ⟨l₁, l₂, hl, hfilter⟩ := filter_ne_of_mem g.live_ne hb
  have hperm : (s.live.map fun x => header x.1).Perm
      (header b :: (l₁ ++ l₂).map fun x => header x.1) := by
    rw [hl, List.map_append, List.map_cons, List.map_append]
    exact List.perm_middle
  obtain ⟨n, h', free', hn, hi, hkeep, -⟩ := (g.inv.perm hperm).slobFree
  obtain ⟨-, hpos, hhigh⟩ := g.inv.held (header b) (List.mem_map.mpr ⟨_, hb, rfl⟩)
  obtain ⟨hlow, -⟩ := g.payload _ hb
  have hoff : offset b (-1) = header b := by
    unfold offset header slobUnit at *
    omega
  have hb0 : b ≠ 0 := by
    unfold slobUnit at hlow
    omega
  refine ⟨n, ⟨h', l₁ ++ l₂, s.pages⟩, free', fun fuel => ?_, hi, ?_, g.pages⟩
  · rw [Config.call, kfree, if_neg hb0, hoff, hn fuel, Option.map_some, hfilter]
  · intro x hx
    have hx' : x ∈ s.live := by
      rw [hl]
      simp only [List.mem_append, List.mem_cons] at hx ⊢
      tauto
    have hu := hkeep (header x.1) (List.mem_map.mpr ⟨x, hx, rfl⟩)
    rw [bytes_congr hu]
    exact g.payload x hx'

theorem header_apart {x : ℕ × ℕ} (hx : x ∈ s.live) (ha : a ∈ free ∨ ∃ y ∈ s.live, a = header y.1) :
    ¬ (x.1 < a + slobUnit ∧ a < header x.1 + bytes s.heap (header x.1)) := by
  rintro ⟨hlt, hend⟩
  obtain ⟨hlow, -⟩ := g.payload x hx
  have hxm : header x.1 ∈ s.live.map fun x => header x.1 := List.mem_map_of_mem hx
  have hin : a ∈ span (header x.1) (bytes s.heap (header x.1)) := by
    rw [Finset.mem_Ico]
    unfold header at *
    omega
  rcases ha with ha | ⟨y, hy, rfl⟩
  · exact Finset.disjoint_left.mp (g.inv.apart _ hxm) hin (g.inv.blocks.head_mem_cells ha)
  · have hym : header y.1 ∈ s.live.map fun x => header x.1 := List.mem_map_of_mem hy
    have hne : header x.1 ≠ header y.1 := by
      intro he
      rw [← he] at hlt
      unfold header at hlt
      omega
    have : Std.Symm fun a b => Disjoint (span a (bytes s.heap a)) (span b (bytes s.heap b)) :=
      ⟨fun _ _ hd => hd.symm⟩
    have hd := g.inv.disjoint.forall hxm hym hne
    exact Finset.disjoint_left.mp hd hin (by simp [(g.inv.held _ hym).2.1])

theorem store {units : ℕ → ℤ} {next : ℕ → ℕ} (ha : s.Allowed arena (.store units next)) :
    Good arena ⟨{ s.heap with units := units, next := next }, s.live, s.pages⟩ free := by
  have hfree : ∀ a ∈ free, units a = s.heap.units a ∧ next a = s.heap.next a := by
    intro a hm
    by_contra hne
    obtain ⟨x, hx, hover⟩ := ha a (not_and_or.mp hne)
    exact g.header_apart hx (.inl hm) hover
  have hused : ∀ y ∈ s.live, units (header y.1) = s.heap.units (header y.1) := by
    intro y hy
    by_contra hne
    obtain ⟨x, hx, hover⟩ := ha (header y.1) (.inl hne)
    exact g.header_apart hx (.inr ⟨y, hy, rfl⟩) hover
  constructor
  · apply g.inv.store ⟨units, next, s.heap.slobfree⟩ rfl hfree
    intro a hm
    obtain ⟨y, hy, rfl⟩ := List.mem_map.mp hm
    exact hused y hy
  · intro x hx
    rw [bytes_congr (hused x hx)]
    exact g.payload x hx
  · exact g.pages

theorem call {op : Op} (ha : s.Allowed arena op) :
    ∃ n s' free', (∀ fuel, s.call (n + fuel) op = some s') ∧ Good arena s' free' := by
  cases op with
  | alloc size page => exact g.alloc ha
  | free block =>
    obtain ⟨size, hb⟩ := ha
    exact g.release hb
  | store units next => exact ⟨0, _, free, fun _ => rfl, g.store ha⟩

end Good

theorem good_start (harena : kernbase ≤ arena) (hfit : arena + slobUnit ≤ 2 ^ 64) (h : Heap) :
    Good arena (.start arena h) [arena] := by
  have hunit : (Config.start arena h).heap.units arena = 1 := by
    simp only [Config.start, Heap.setUnits, Heap.setNext, Function.update_self]
    rfl
  have hbytes : bytes (Config.start arena h).heap arena = slobUnit := by
    unfold bytes
    rw [hunit]
    rfl
  constructor
  · constructor
    · exact harena
    · rfl
    · exact hunit
    · simp [Cycle.Circle, Cycle.Path, Config.start]
    · simp [Config.start]
    · constructor
      · simp
      · simp [hbytes, slobUnit]
      · simp
      · simpa [hbytes] using hfit
    · intro a ha
      obtain rfl := List.mem_singleton.mp ha
      rw [hbytes]
      simp [slobUnit]
    · simp [Config.start]
    · simp [Config.start]
    · simp [Config.start]
    · intro x
      simp only [Config.start] at hbytes ⊢
      simp [Taken, mem_cells, hbytes]
  · simp [Config.start]
  · simp [Config.start]

/-! ## Fuel -/

variable {k fuel : ℕ}

theorem findPlace_mono (hr : findPlace h b fuel cur = some c) :
    findPlace h b (fuel + k) cur = some c := by
  induction fuel generalizing cur with
  | zero => exact absurd hr.symm (Option.some_ne_none c)
  | succ fuel ih =>
    rw [Nat.add_right_comm]
    rw [findPlace] at hr ⊢
    split_ifs at hr ⊢
    · exact hr
    · exact hr
    · exact ih hr

theorem slobFree_mono (hr : slobFree fuel h b n = some h') :
    slobFree (fuel + k) h b n = some h' := by
  rw [slobFree] at hr ⊢
  split_ifs at hr ⊢
  · exact hr
  all_goals
    obtain ⟨c, hc, rfl⟩ := Option.map_eq_some_iff.mp hr
    exact Option.map_eq_some_iff.mpr ⟨c, findPlace_mono hc, rfl⟩

theorem allocLoop_mono {r : Option ℕ × Heap × List (Option ℕ)}
    (hr : allocLoop size u fuel h supply prev cur = some r) :
    allocLoop size u (fuel + k) h supply prev cur = some r := by
  induction fuel generalizing h supply prev cur with
  | zero => exact absurd hr.symm (Option.some_ne_none r)
  | succ fuel ih =>
    rw [Nat.add_right_comm]
    rw [allocLoop] at hr ⊢
    split_ifs at hr ⊢
    · exact hr
    · exact hr
    · obtain ⟨page, hpage, hr⟩ := Option.bind_eq_some_iff.mp hr
      apply Option.bind_eq_some_iff.mpr
      refine ⟨page, hpage, ?_⟩
      cases page with
      | none => exact hr
      | some page =>
        obtain ⟨h', hf, hr⟩ := Option.bind_eq_some_iff.mp hr
        exact Option.bind_eq_some_iff.mpr ⟨h', slobFree_mono hf, ih hr⟩
    · exact ih hr

theorem kmalloc_mono {r : Option ℕ × Heap × List (Option ℕ)}
    (hr : kmalloc fuel h supply size = some r) : kmalloc (fuel + k) h supply size = some r := by
  rw [kmalloc] at hr ⊢
  split_ifs at hr ⊢
  obtain ⟨r, hl, rfl⟩ := Option.map_eq_some_iff.mp hr
  apply Option.map_eq_some_iff.mpr
  refine ⟨r, ?_, rfl⟩
  rw [slobAlloc] at hl ⊢
  split_ifs at hl ⊢
  exact allocLoop_mono hl

theorem call_mono {op : Op} (hr : s.call fuel op = some s') :
    s.call (fuel + k) op = some s' := by
  cases op with
  | alloc size page =>
    obtain ⟨r, hm, rfl⟩ := Option.map_eq_some_iff.mp hr
    exact Option.map_eq_some_iff.mpr ⟨r, kmalloc_mono hm, rfl⟩
  | free block =>
    obtain ⟨h, hf, rfl⟩ := Option.map_eq_some_iff.mp hr
    apply Option.map_eq_some_iff.mpr
    refine ⟨h, ?_, rfl⟩
    rw [kfree] at hf ⊢
    split_ifs at hf ⊢
    · exact hf
    · exact slobFree_mono hf
  | store units next => exact hr

theorem call_unique {op : Op} (hd : ∀ fuel, s.call (n + fuel) op = some s₁)
    (hr : s.call fuel op = some s') : s' = s₁ := by
  have e := call_mono (k := n) hr
  rw [Nat.add_comm, hd fuel] at e
  exact (Option.some.inj e).symm

/-! ## Runs -/

/-- Free and live blocks in a state, where `free` are the free blocks from the arena on. -/
structure Valid (arena : ℕ) (s : Config) (free : List ℕ) : Prop where
  arena_mem : arena ∈ free
  sorted : free.Pairwise (· < ·)
  /-- From `slobfree` the links lead through the blocks above it, and then from the arena on
  through those below it. -/
  circle : ∃ below above, free = below ++ s.heap.slobfree :: above ∧
    Path s.heap.next s.heap.slobfree (above ++ below) s.heap.slobfree
  unmerged : ∀ b ∈ free, b + bytes s.heap b ∉ free
  freeDisjoint : free.Pairwise fun a b => a + bytes s.heap a ≤ b
  liveDisjoint : s.live.Pairwise fun x y =>
    Disjoint (span (header x.1) (bytes s.heap (header x.1)))
      (span (header y.1) (bytes s.heap (header y.1)))
  apart : ∀ x ∈ s.live, ∀ b ∈ free,
    Disjoint (span (header x.1) (bytes s.heap (header x.1))) (span b (bytes s.heap b))
  tiles : ∀ z, Taken arena s.pages z ↔ (∃ b ∈ free, z ∈ span b (bytes s.heap b)) ∨
    ∃ x ∈ s.live, z ∈ span (header x.1) (bytes s.heap (header x.1))
  payload : ∀ x ∈ s.live, header x.1 + slobUnit = x.1 ∧
    x.1 + x.2 ≤ header x.1 + bytes s.heap (header x.1)

theorem Good.valid (g : Good arena s free) : Valid arena s free := by
  constructor
  · exact g.inv.arena_mem
  · exact g.inv.blocks.sorted
  · exact g.inv.circle.split g.inv.slobfree
  · exact g.inv.gapped
  · exact g.inv.blocks.sep
  · have hd := g.inv.disjoint
    rwa [List.pairwise_map] at hd
  · intro x hx b hb
    apply (g.inv.apart _ (List.mem_map_of_mem hx)).mono_right
    intro z hz
    rw [Finset.mem_Ico] at hz
    exact mem_cells.mpr ⟨b, hb, hz⟩
  · intro z
    rw [g.inv.cover z]
    simp [mem_cells]
  · intro x hx
    have := g.payload x hx
    unfold header at *
    omega

/-- Along every run of requests, frees and stores into live results the heap is valid, and every
call ends. -/
theorem slob_valid (arena : ℕ) (h : Heap) (harena : kernbase ≤ arena)
    (hfit : arena + slobUnit ≤ 2 ^ 64) (ops : List Op) (s : Config)
    (hr : Runs (fun c op c' => c.Allowed arena op ∧ ∃ fuel, c.call fuel op = some c')
      (.start arena h) ops s) :
    (∃ free, Valid arena s free) ∧
      ∀ op, s.Allowed arena op → ∃ n s', ∀ fuel, s.call (n + fuel) op = some s' := by
  have hg : ∃ free, Good arena s free := by
    apply hr.invariant
    · rintro c op c' ⟨free, g⟩ ⟨ha, fuel, hc⟩
      obtain ⟨n, c₁, free', hn, g'⟩ := g.call ha
      obtain rfl := call_unique hn hc
      exact ⟨free', g'⟩
    · exact ⟨[arena], good_start harena hfit h⟩
  obtain ⟨free, g⟩ := hg
  constructor
  · exact ⟨free, g.valid⟩
  · intro op ha
    obtain ⟨n, s', -, hn, -⟩ := g.call ha
    exact ⟨n, s', hn⟩

/-- A page is taken for the first request. -/
theorem slob_valid_alloc : ∃ s : Config, s.live = [(0xFFFFFFFFC0300010, 24)] ∧
    ∃ free, Valid 0xFFFFFFFFC0201000 s free := by
  obtain ⟨s, hs, hl⟩ : ∃ s, (Config.start 0xFFFFFFFFC0201000 ⟨fun _ => 0, fun _ => 0, 0⟩).call 4
      (.alloc 24 (some 0xFFFFFFFFC0300000)) = some s ∧ s.live = [(0xFFFFFFFFC0300010, 24)] :=
    ⟨_, rfl, rfl⟩
  have ha : (Config.start 0xFFFFFFFFC0201000 ⟨fun _ => 0, fun _ => 0, 0⟩).Allowed
      0xFFFFFFFFC0201000 (.alloc 24 (some 0xFFFFFFFFC0300000)) := by
    simp [Config.Allowed, Config.start, pageSize, slobUnit]
  exact ⟨s, hl, (slob_valid _ _ (by decide) (by decide) _ s (.cons ⟨ha, 4, hs⟩ (.nil s))).1⟩

end UCore.Slob

import UCore.Slob.Big

/-! # The heap under requests of every size

The records of the big blocks lie in units of the heap that its invariant does not count. Along
every run of requests that fit, the results have room and are disjoint, and every call ends.
-/

namespace UCore.Slob

open Library Library.Cycle

/-- The bytes of the units that a record takes. -/
def recordBytes : ℕ := 32

/-- The pages of a record, with their order. -/
def record (h : Heap) (bb : ℕ) : ℕ × ℕ := (h.next bb, (h.units bb).toNat)

/-- The bytes of the heap without those of the records. -/
def Unrecorded (arena : ℕ) (pages records : List ℕ) (x : ℕ) : Prop :=
  Taken arena pages x ∧ ∀ bb ∈ records, x ∉ span bb recordBytes

/-- The heap without its records is valid; the records are those of the pages given for big blocks,
which lie outside the heap. -/
structure Sound (arena : ℕ) (s : Book) (free records : List ℕ) : Prop where
  inv : Inv arena (Unrecorded arena s.pages records) s.mem.heap free
    (s.live.map fun x => header x.1)
  payload : ∀ x ∈ s.live, slobUnit ≤ x.1 ∧ 1 ≤ x.2 ∧
    x.2 + slobUnit ≤ bytes s.mem.heap (header x.1)
  pages : ∀ p ∈ s.pages, pageSize ∣ p
  chain : Chain s.mem.link s.mem.bigblocks records
  above : ∀ bb ∈ records, arena + slobUnit < bb ∧ bb + recordBytes ≤ 2 ^ 64
  recorded : ∀ bb ∈ records, ∀ x ∈ span bb recordBytes, Taken arena s.pages x
  apart : records.Pairwise fun a b => Disjoint (span a recordBytes) (span b recordBytes)
  granted : s.mem.granted.Perm (records.map (record s.mem.heap))
  outside : ∀ g ∈ s.mem.granted, pageSize ∣ g.1 ∧ arena + slobUnit < g.1 ∧
    ∀ x ∈ span g.1 (orderBytes g.2), ¬ Taken arena s.pages x
  disjoint : s.mem.granted.Pairwise fun a b =>
    Disjoint (span a.1 (orderBytes a.2)) (span b.1 (orderBytes b.2))
  big : ∀ x ∈ s.big, ∃ order, (x.1, order) ∈ s.mem.granted ∧ x.2 ≤ orderBytes order
  bigs : s.big.Pairwise fun x y => x.1 ≠ y.1

theorem orderBytes_pos (order : ℕ) : 0 < orderBytes order := by
  unfold orderBytes pageSize
  have := Nat.two_pow_pos order
  omega

theorem offset_one {b : ℕ} (hb : b + 32 ≤ 2 ^ 64) : offset b 1 = b + 16 := by
  unfold offset slobUnit
  omega

section Fresh

variable {arena p q n x : ℕ} {s : Book} {free records : List ℕ} {page : Option ℕ}
  {left : List (Option ℕ)}

theorem Book.Fresh.not_taken (h : s.Fresh arena p n) :
    ∀ x ∈ span p n, ¬ Taken arena s.pages x := by
  obtain ⟨-, ha, -, hp, -⟩ := h
  intro x hx ht
  rcases ht with ht | ⟨q, hq, ht⟩
  · rw [Finset.mem_Ico] at hx
    omega
  · exact Finset.disjoint_left.mp (hp q hq) hx (Finset.mem_Ico.mpr ht)

theorem taken_pagesAfter : Taken arena (s.pagesAfter page left) x ↔
    Taken arena s.pages x ∨ left = [] ∧ ∃ p ∈ page, x ∈ span p pageSize := by
  unfold Taken Book.pagesAfter
  cases page with
  | none => simp
  | some p =>
    by_cases hleft : left = []
    · simp only [hleft, if_true, Option.elim_some, List.mem_cons, exists_eq_or_imp, true_and,
        Option.mem_def, Option.some.injEq, exists_eq_left', Finset.mem_Ico]
      rw [or_assoc]
      exact or_congr_right or_comm
    · simp [hleft]

theorem mem_pagesAfter (hp : p ∈ s.pagesAfter page left) : p ∈ page ∨ p ∈ s.pages := by
  unfold Book.pagesAfter at hp
  split at hp
  · cases page with
    | none => exact .inr hp
    | some q =>
      rcases List.mem_cons.mp hp with rfl | hp
      · exact .inl rfl
      · exact .inr hp
  · exact .inr hp

end Fresh

namespace Sound

variable {arena a b n p size order : ℕ} {s : Book} {free records : List ℕ} {page pages : Option ℕ}

section Frames

variable (g : Sound arena s free records)

include g

theorem unrecorded_pagesAfter {left : List (Option ℕ)} {x : ℕ}
    (hpage : ∀ p ∈ page, s.Fresh arena p pageSize) :
    Unrecorded arena (s.pagesAfter page left) records x ↔
      Unrecorded arena s.pages records x ∨ left = [] ∧ ∃ p ∈ page, x ∈ span p pageSize := by
  unfold Unrecorded
  rw [taken_pagesAfter]
  constructor
  · rintro ⟨ht | ht, hr⟩
    · exact .inl ⟨ht, hr⟩
    · exact .inr ht
  · rintro (⟨ht, hr⟩ | ⟨hl, p, hp, hx⟩)
    · exact ⟨.inl ht, hr⟩
    · refine ⟨.inr ⟨hl, p, hp, hx⟩, fun bb hb hxb => ?_⟩
      exact (hpage p hp).not_taken x hx (g.recorded bb hb x hxb)

theorem not_owned (hn : 0 < n) (ht : ∀ z ∈ span a n, Taken arena s.pages z)
    (hl : ∀ z ∈ span a n, ∀ y ∈ s.live,
    ¬ (y.1 ≤ z ∧ z < header y.1 + bytes s.mem.heap (header y.1))) :
    ¬ s.Owned a n := by
  rintro (⟨y, hy, hlt, hend⟩ | ⟨w, hw, hlt, hend⟩)
  · obtain ⟨h₁, h₂, h₃⟩ := g.payload y hy
    have hz : max a y.1 ∈ span a n := by
      rw [Finset.mem_Ico]
      omega
    apply hl _ hz y hy
    unfold header slobUnit at *
    omega
  · have hpos := orderBytes_pos w.2
    have hz : max a w.1 ∈ span a n := by
      rw [Finset.mem_Ico]
      omega
    refine (g.outside w hw).2.2 (max a w.1) ?_ (ht _ hz)
    rw [Finset.mem_Ico]
    omega

theorem taken_of_free (ha : a ∈ free) {z : ℕ} (hz : z ∈ span a (bytes s.mem.heap a)) :
    Unrecorded arena s.pages records z := by
  refine (g.inv.cover z).mpr (.inl ?_)
  rw [Finset.mem_Ico] at hz
  exact mem_cells.mpr ⟨a, ha, hz⟩

theorem taken_of_live {y : ℕ × ℕ} (hy : y ∈ s.live) {z : ℕ}
    (hz : z ∈ span (header y.1) (bytes s.mem.heap (header y.1))) :
    Unrecorded arena s.pages records z :=
  (g.inv.cover z).mpr (.inr ⟨_, List.mem_map_of_mem hy, hz⟩)

theorem mem_block {y : ℕ × ℕ} (hy : y ∈ s.live) {z : ℕ} (hz : y.1 ≤ z)
    (hz' : z < header y.1 + bytes s.mem.heap (header y.1)) :
    z ∈ span (header y.1) (bytes s.mem.heap (header y.1)) := by
  obtain ⟨h₁, -, -⟩ := g.payload y hy
  rw [Finset.mem_Ico]
  unfold header at *
  omega

theorem free_not_owned (ha : a ∈ free) : ¬ s.Owned a slobUnit := by
  have hpos := g.inv.blocks.pos a ha
  have hu := units_eq hpos
  have hsub : ∀ z ∈ span a slobUnit, z ∈ span a (bytes s.mem.heap a) := by
    intro z hz
    rw [Finset.mem_Ico] at hz ⊢
    unfold slobUnit at hz
    omega
  refine g.not_owned (by decide) (fun z hz => (g.taken_of_free ha (hsub z hz)).1) ?_
  rintro z hz y hy ⟨h₁, h₂⟩
  have hd := g.inv.apart _ (List.mem_map_of_mem (f := fun x : ℕ × ℕ => header x.1) hy)
  apply Finset.disjoint_left.mp hd (g.mem_block hy h₁ h₂)
  have := hsub z hz
  rw [Finset.mem_Ico] at this
  exact mem_cells.mpr ⟨a, ha, this⟩

theorem header_not_owned {x : ℕ × ℕ} (hx : x ∈ s.live) : ¬ s.Owned (header x.1) slobUnit := by
  have hxm := List.mem_map_of_mem (f := fun x : ℕ × ℕ => header x.1) hx
  have hpos := (g.inv.held _ hxm).2.1
  have hu := units_eq hpos
  obtain ⟨hlow, -, -⟩ := g.payload x hx
  have hsub : ∀ z ∈ span (header x.1) slobUnit,
      z ∈ span (header x.1) (bytes s.mem.heap (header x.1)) := by
    intro z hz
    rw [Finset.mem_Ico] at hz ⊢
    unfold slobUnit at hz
    omega
  refine g.not_owned (by decide) (fun z hz => (g.taken_of_live hx (hsub z hz)).1) ?_
  rintro z hz y hy ⟨h₁, h₂⟩
  have hym := List.mem_map_of_mem (f := fun x : ℕ × ℕ => header x.1) hy
  by_cases he : header x.1 = header y.1
  · rw [Finset.mem_Ico] at hz
    obtain ⟨hlow', -, -⟩ := g.payload y hy
    unfold header slobUnit at *
    omega
  · have : Std.Symm fun a b =>
        Disjoint (span a (bytes s.mem.heap a)) (span b (bytes s.mem.heap b)) :=
      ⟨fun _ _ hd => hd.symm⟩
    have hd := g.inv.disjoint.forall hxm hym he
    exact Finset.disjoint_left.mp hd (hsub z hz) (g.mem_block hy h₁ h₂)

theorem record_not_owned {bb : ℕ} (hb : bb ∈ records) (hn : 0 < n) (hle : bb ≤ a)
    (hend : a + n ≤ bb + recordBytes) : ¬ s.Owned a n := by
  have hsub : ∀ z ∈ span a n, z ∈ span bb recordBytes := by
    intro z hz
    rw [Finset.mem_Ico] at hz ⊢
    omega
  refine g.not_owned hn (fun z hz => g.recorded bb hb z (hsub z hz)) ?_
  rintro z hz y hy ⟨h₁, h₂⟩
  exact (g.taken_of_live hy (g.mem_block hy h₁ h₂)).2 bb hb (hsub z hz)

theorem update {h' : Heap} {free' pages' : List ℕ} {live' : List (ℕ × ℕ)}
    (hi : Inv arena (Unrecorded arena pages' records) h' free' (live'.map fun x => header x.1))
    (hp : ∀ x ∈ live', slobUnit ≤ x.1 ∧ 1 ≤ x.2 ∧ x.2 + slobUnit ≤ bytes h' (header x.1))
    (hpages : ∀ p ∈ pages', pageSize ∣ p)
    (hrec : ∀ bb ∈ records, record h' bb = record s.mem.heap bb)
    (hmono : ∀ x, Taken arena s.pages x → Taken arena pages' x)
    (hout : ∀ w ∈ s.mem.granted, ∀ x ∈ span w.1 (orderBytes w.2), ¬ Taken arena pages' x) :
    Sound arena ⟨{ s.mem with heap := h' }, live', s.big, pages'⟩ free' records where
  inv := hi
  payload := hp
  pages := hpages
  chain := g.chain
  above := g.above
  recorded bb hb x hx := hmono x (g.recorded bb hb x hx)
  apart := g.apart
  granted := by
    rw [List.map_congr_left hrec]
    exact g.granted
  outside w hw := ⟨(g.outside w hw).1, (g.outside w hw).2.1, hout w hw⟩
  disjoint := g.disjoint
  big := g.big
  bigs := g.bigs

theorem outside_pagesAfter {left : List (Option ℕ)}
    (hpage : ∀ p ∈ page, s.Fresh arena p pageSize) :
    ∀ w ∈ s.mem.granted, ∀ x ∈ span w.1 (orderBytes w.2),
      ¬ Taken arena (s.pagesAfter page left) x := by
  intro w hw x hx ht
  rcases taken_pagesAfter.mp ht with ht | ⟨-, p, hp, hxp⟩
  · exact (g.outside w hw).2.2 x hx ht
  · exact Finset.disjoint_left.mp ((hpage p hp).2.2.2.2 w hw) hxp hx

theorem pages_pagesAfter {left : List (Option ℕ)} (hpage : ∀ p ∈ page, s.Fresh arena p pageSize) :
    ∀ p ∈ s.pagesAfter page left, pageSize ∣ p := by
  intro p hp
  rcases mem_pagesAfter hp with hp | hp
  · exact (hpage p hp).1
  · exact g.pages p hp

end Frames

section Take

variable (g : Sound arena s free records) (hpage : ∀ p ∈ page, s.Fresh arena p pageSize)

include g hpage

/-- A request to the heap leaves live blocks and records as they are. -/
theorem take (hn : 17 ≤ n) (hn' : n + slobUnit < pageSize) :
    ∃ k r h' left free', (∀ fuel,
      slobAlloc (k + fuel) s.mem.heap [page] n = some (r, h', left)) ∧
      Inv arena (Unrecorded arena (s.pagesAfter page left) records) h' free'
        (r.elim (s.live.map fun x => header x.1) fun b =>
          b :: s.live.map fun x => header x.1) ∧
      (∀ b ∈ r, h'.units b = slobUnits n) ∧ (r = none → page = none) ∧
      (∀ x ∈ s.live, bytes h' (header x.1) = bytes s.mem.heap (header x.1)) ∧
      ∀ bb ∈ records, record h' bb = record s.mem.heap bb := by
  have hu : slobUnits n = ((n + 15) / 16 : ℕ) := slobUnits_eq (by
    unfold slobUnit pageSize at hn'
    omega)
  unfold slobUnit pageSize at hn'
  obtain ⟨k, r, h', left, free', hk, hi, hr, hnone, hkeep, hframe⟩ :=
    g.inv.alloc (u := slobUnits n) n page (by rw [hu]; omega) (by rw [hu]; omega)
      (by unfold pageSize; omega) (by
        intro p hp
        obtain ⟨-, ha, hhigh, -⟩ := hpage p hp
        exact ⟨ha, hhigh, fun x hx ht => (hpage p hp).not_taken x hx ht.1⟩)
  refine ⟨k, r, h', left, free', fun fuel => ?_, hi.congr fun x => g.unrecorded_pagesAfter hpage,
    hr, hnone, ?_, ?_⟩
  · rw [slobAlloc, if_pos (by unfold slobUnit pageSize; omega)]
    exact hk fuel
  · exact fun x hx => bytes_congr (hkeep _ (List.mem_map_of_mem hx))
  · intro bb hb
    have hin : bb ∈ span bb recordBytes := by simp [recordBytes]
    obtain ⟨h₁, h₂⟩ := hframe bb (by
      rw [Finset.mem_union, not_or]
      constructor
      · intro hm
        exact ((g.inv.mem_free.mp hm).1).2 bb hb hin
      · cases page with
        | none => simp
        | some p => exact fun hm => (hpage p rfl).not_taken bb hm (g.recorded bb hb bb hin))
    rw [record, record, h₁, h₂]

end Take

end Sound

section Words

variable {arena a b : ℕ} {h : Heap} {free used : List ℕ} {taken : ℕ → Prop}

theorem Inv.taken_of_free (i : Inv arena taken h free used) (ha : a ∈ free) : taken a :=
  (i.cover a).mpr (.inl (i.blocks.head_mem_cells ha))

theorem Inv.taken_of_used (i : Inv arena taken h free used) (hb : b ∈ used)
    (ha : a ∈ span b (bytes h b)) : taken a := (i.cover a).mpr (.inr ⟨b, hb, ha⟩)

theorem Inv.head_taken (i : Inv arena taken h free used) (hb : b ∈ used) : taken b :=
  i.taken_of_used hb (by simp [(i.held b hb).2.1])

theorem Inv.not_mem_of_untaken (i : Inv arena taken h free used) (hb : b ∈ used) (ha : ¬ taken a) :
    a ∉ cells (bytes h) free ∪ span b (bytes h b) := by
  rw [Finset.mem_union]
  rintro (hm | hm)
  · exact ha (i.mem_free.mp hm).1
  · exact ha (i.taken_of_used hb hm)

theorem Inv.rewrite (i : Inv arena taken h free (b :: used)) (h' : Heap)
    (hslob : h'.slobfree = h.slobfree) (hb : h'.units b = h.units b)
    (hsame : ∀ a, a ≠ b → h'.units a = h.units a ∧ h'.next a = h.next a) :
    Inv arena taken h' free (b :: used) := by
  obtain ⟨-, hpos, -⟩ := i.held b List.mem_cons_self
  apply i.store h' hslob
  · intro a ha
    apply hsame
    rintro rfl
    have hin : a ∈ span a (bytes h a) := by simp [hpos]
    exact Finset.disjoint_left.mp (i.apart a List.mem_cons_self) hin (i.blocks.head_mem_cells ha)
  · intro a ha
    by_cases hab : a = b
    · rw [hab, hb]
    · exact (hsame a hab).1

theorem Inv.cells_free {h' : Heap} {free' : List ℕ} (i : Inv arena taken h free (b :: used))
    (i' : Inv arena taken h' free' used) (hkeep : ∀ a ∈ used, h'.units a = h.units a) :
    cells (bytes h') free' = cells (bytes h) free ∪ span b (bytes h b) := by
  have hbytes : ∀ a ∈ used, bytes h' a = bytes h a := fun a ha => bytes_congr (hkeep a ha)
  ext z
  rw [Finset.mem_union, i.mem_free, i'.mem_free, List.forall_mem_cons]
  constructor
  · rintro ⟨ht, hu⟩
    by_cases hz : z ∈ span b (bytes h b)
    · exact .inr hz
    · exact .inl ⟨ht, hz, fun a ha => by
        rw [← hbytes a ha]
        exact hu a ha⟩
  · rintro (⟨ht, -, hu⟩ | hz)
    · refine ⟨ht, fun a ha => ?_⟩
      rw [hbytes a ha]
      exact hu a ha
    · refine ⟨i.taken_of_used List.mem_cons_self hz, fun a ha => ?_⟩
      rw [hbytes a ha]
      exact Finset.disjoint_left.mp ((List.pairwise_cons.mp i.disjoint).1 a ha) hz

end Words

def Book.Gives (s s' : Book) (block size : ℕ) : Prop :=
  s'.live = (block, size) :: s.live ∧ s'.big = s.big ∨
    s'.live = s.live ∧ s'.big = (block, size) :: s.big

namespace Sound

variable {arena b n p size order : ℕ} {s : Book} {free records : List ℕ} {page pages : Option ℕ}

section Requests

variable (g : Sound arena s free records)

include g

/-- A small request. -/
theorem small (hs : 1 ≤ size) (hs' : size < 4064) (ha : s.Admits arena (.alloc size page pages)) :
    ∃ n s' free', (∀ fuel, s.call (n + fuel) (.alloc size page pages) = some s') ∧
      Sound arena s' free' records ∧ (page ≠ none → ∃ b, s.Gives s' b size) := by
  obtain ⟨hpage, -, -⟩ := ha
  obtain ⟨k, r, h', left, free', hk, hi, hr, hnone, hkeep, hrec⟩ :=
    g.take (n := size + slobUnit) hpage (by unfold slobUnit; omega)
      (by unfold slobUnit pageSize; omega)
  have hcall : ∀ fuel, s.call (k + fuel) (.alloc size page pages) =
      some ⟨{ s.mem with heap := h' },
        (r.map fun b => offset b 1).elim s.live fun b => (b, size) :: s.live, s.big,
        s.pagesAfter page left⟩ := by
    intro fuel
    have hlt : size < pageSize - slobUnit := by
      unfold pageSize slobUnit
      omega
    simp only [Book.call, Memory.kmalloc, if_pos hlt, hk fuel, Option.map_some]
  refine ⟨k, _, free', hcall, ?_, ?_⟩
  · have hold : ∀ x ∈ s.live, slobUnit ≤ x.1 ∧ 1 ≤ x.2 ∧ x.2 + slobUnit ≤
      bytes h' (header x.1) := by
      intro x hx
      rw [hkeep x hx]
      exact g.payload x hx
    have hroom : ∀ b ∈ r, offset b 1 = b + 16 ∧ size + slobUnit ≤ bytes h' b := by
      rintro b hb
      obtain rfl := Option.mem_def.mp hb
      obtain ⟨-, hpos, hhigh⟩ := hi.held b (by simp)
      have hunits := hr b rfl
      rw [slobUnits_eq (by unfold slobUnit; omega)] at hunits
      have hbytes := units_eq hpos
      unfold slobUnit at *
      exact ⟨offset_one (by omega), by omega⟩
    apply g.update _ _ (g.pages_pagesAfter hpage) hrec
      (fun x hx => taken_pagesAfter.mpr (.inl hx)) (g.outside_pagesAfter hpage)
    · cases r with
      | none => exact hi
      | some b =>
        obtain ⟨hoff, -⟩ := hroom b rfl
        have hhead : header (b + 16) = b := rfl
        simpa [hoff, hhead] using hi
    · cases r with
      | none => exact hold
      | some b =>
        obtain ⟨hoff, hbytes⟩ := hroom b rfl
        intro x hx
        rcases List.mem_cons.mp hx with rfl | hx
        · change slobUnit ≤ offset b 1 ∧ 1 ≤ size ∧ size + slobUnit ≤ bytes h' (header (offset b 1))
          rw [hoff]
          exact ⟨by unfold slobUnit; omega, hs, hbytes⟩
        · exact hold x hx
  · intro hp
    cases r with
    | none => exact absurd (hnone rfl) hp
    | some b => exact ⟨offset b 1, .inl ⟨rfl, rfl⟩⟩

theorem refused {h' : Heap} {left : List (Option ℕ)} {free' : List ℕ}
    (hpage : ∀ p ∈ page, s.Fresh arena p pageSize)
    (hi : Inv arena (Unrecorded arena (s.pagesAfter page left) records) h' free'
      (s.live.map fun x => header x.1))
    (hkeep : ∀ x ∈ s.live, bytes h' (header x.1) = bytes s.mem.heap (header x.1))
    (hrec : ∀ bb ∈ records, record h' bb = record s.mem.heap bb) :
    Sound arena ⟨{ s.mem with heap := h' }, s.live, s.big, s.pagesAfter page left⟩ free'
      records := by
  apply g.update hi _ (g.pages_pagesAfter hpage) hrec
    (fun x hx => taken_pagesAfter.mpr (.inl hx)) (g.outside_pagesAfter hpage)
  intro x hx
  rw [hkeep x hx]
  exact g.payload x hx

/-- A record is written to a block in use, and counted as such. -/
theorem addRecord {bb : ℕ} {h' h₃ : Heap} {left : List (Option ℕ)} {free' : List ℕ}
    (hpage : ∀ q ∈ page, s.Fresh arena q pageSize)
    (hi : Inv arena (Unrecorded arena (s.pagesAfter page left) records) h' free'
      (bb :: s.live.map fun x => header x.1))
    (hbb : h'.units bb = 2)
    (hkeep : ∀ x ∈ s.live, bytes h' (header x.1) = bytes s.mem.heap (header x.1))
    (hrec : ∀ c ∈ records, record h' c = record s.mem.heap c)
    (hslob : h₃.slobfree = h'.slobfree) (hnew : record h₃ bb = (p, order))
    (hsame : ∀ a, a ∉ span bb recordBytes → h₃.units a = h'.units a ∧ h₃.next a = h'.next a)
    (hfresh : s.Fresh arena p (orderBytes order))
    (hpp : ∀ q ∈ page, Disjoint (span q pageSize) (span p (orderBytes order)))
    (hsize : size ≤ orderBytes order) :
    Sound arena ⟨⟨h₃, Function.update s.mem.link bb s.mem.bigblocks, bb,
    (p, order) :: s.mem.granted⟩,
      s.live, (p, size) :: s.big, s.pagesAfter page left⟩ free' (bb :: records) := by
  obtain ⟨hb, hpos, hhigh⟩ := hi.held bb List.mem_cons_self
  have hbytes : bytes h' bb = recordBytes := by
    unfold bytes slobUnit recordBytes
    rw [hbb]
    rfl
  have hspan : ∀ x ∈ span bb recordBytes, Unrecorded arena (s.pagesAfter page left) records x := by
    intro x hx
    rw [← hbytes] at hx
    exact hi.taken_of_used List.mem_cons_self hx
  have hin : ∀ c, c ∈ span c recordBytes := fun c => by simp [recordBytes]
  have hhide : Inv arena (Unrecorded arena (s.pagesAfter page left) (bb :: records)) h' free'
      (s.live.map fun x => header x.1) := by
    apply hi.hide.congr
    intro x
    rw [hbytes]
    unfold Unrecorded
    simp only [List.mem_cons, forall_eq_or_imp]
    tauto
  have hcount : ∀ c ∈ records, record h₃ c = record s.mem.heap c := by
    intro c hc
    obtain ⟨h₁, h₂⟩ := hsame c fun hm => (hspan c hm).2 c hc (hin c)
    rw [← hrec c hc, record, record, h₁, h₂]
  have hout : ∀ w ∈ s.mem.granted, ∀ x ∈ span w.1 (orderBytes w.2),
      ¬ Taken arena (s.pagesAfter page left) x := g.outside_pagesAfter hpage
  have hpout : ∀ x ∈ span p (orderBytes order), ¬ Taken arena (s.pagesAfter page left) x := by
    intro x hx ht
    rcases taken_pagesAfter.mp ht with ht | ⟨-, q, hq, hxq⟩
    · exact hfresh.not_taken x hx ht
    · exact Finset.disjoint_left.mp (hpp q hq) hxq hx
  obtain ⟨hdvd, hpa, hphigh, -, hpd⟩ := hfresh
  refine ⟨?_, ?_, g.pages_pagesAfter hpage, ?_, ?_, ?_, ?_, ?_, ?_, ?_, ?_, ?_⟩
  · apply hhide.storeOutside h₃ hslob
    intro a ha
    exact hsame a fun hm => ha.2 bb List.mem_cons_self hm
  · intro x hx
    obtain ⟨h₁, h₂, h₃'⟩ := g.payload x hx
    refine ⟨h₁, h₂, ?_⟩
    rw [← hkeep x hx] at h₃'
    refine h₃'.trans (le_of_eq (bytes_congr (hsame _ fun hm => ?_).1).symm)
    exact (hhide.head_taken (List.mem_map_of_mem hx)).2 bb List.mem_cons_self hm
  · refine g.chain.push (by omega) fun hm => ?_
    exact (hspan bb (hin bb)).2 bb hm (hin bb)
  · intro c hc
    rcases List.mem_cons.mp hc with rfl | hc
    · rw [hbytes] at hhigh
      exact ⟨hb, hhigh⟩
    · exact g.above c hc
  · intro c hc x hx
    rcases List.mem_cons.mp hc with rfl | hc
    · exact (hspan x hx).1
    · exact taken_pagesAfter.mpr (.inl (g.recorded c hc x hx))
  · refine List.pairwise_cons.mpr ⟨fun c hc => ?_, g.apart⟩
    exact Finset.disjoint_left.mpr fun x hx => (hspan x hx).2 c hc
  · rw [List.map_cons, hnew, List.map_congr_left hcount]
    exact g.granted.cons _
  · intro w hw
    rcases List.mem_cons.mp hw with rfl | hw
    · exact ⟨hdvd, hpa, hpout⟩
    · exact ⟨(g.outside w hw).1, (g.outside w hw).2.1, hout w hw⟩
  · exact List.pairwise_cons.mpr ⟨hpd, g.disjoint⟩
  · intro x hx
    rcases List.mem_cons.mp hx with rfl | hx
    · exact ⟨order, List.mem_cons_self, hsize⟩
    · obtain ⟨k, hk, hle⟩ := g.big x hx
      exact ⟨k, List.mem_cons_of_mem _ hk, hle⟩
  · refine List.pairwise_cons.mpr ⟨fun x hx he => ?_, g.bigs⟩
    obtain ⟨k, hk, -⟩ := g.big x hx
    have h₁ := orderBytes_pos order
    have h₂ := orderBytes_pos k
    change p = x.1 at he
    have hin : p ∈ span p (orderBytes order) := by simp [h₁]
    exact Finset.disjoint_left.mp (hpd _ hk) hin (by simp [← he, h₂])

/-- A request for a big block. -/
theorem bigRequest (hs : 4080 ≤ size) (hfit : OrderFits size)
    (ha : s.Admits arena (.alloc size page pages)) :
    ∃ n s' free' records', (∀ fuel, s.call (n + fuel) (.alloc size page pages) = some s') ∧
      Sound arena s' free' records' ∧
      (page ≠ none → pages ≠ none → ∃ b, s.Gives s' b size) := by
  obtain ⟨hpage, hpages, hpp⟩ := ha
  have hlt : ¬ size < pageSize - slobUnit := by
    unfold pageSize slobUnit
    omega
  obtain ⟨k, r, h', left, free', hk, hi, hr, hnone, hkeep, hrec⟩ :=
    g.take (n := sizeofBigblock) hpage (by decide) (by decide)
  cases r with
  | none =>
    refine ⟨k, ⟨{ s.mem with heap := h' }, s.live, s.big, s.pagesAfter page left⟩, free', records,
      fun fuel => ?_, g.refused hpage hi hkeep hrec, fun hp => absurd (hnone rfl) hp⟩
    simp only [Book.call, Memory.kmalloc, if_neg hlt, Memory.bigAlloc, hk fuel, Option.bind_some,
      Option.map_some]
    rfl
  | some bb =>
    have hbb : h'.units bb = 2 := hr bb rfl
    have hi : Inv arena (Unrecorded arena (s.pagesAfter page left) records) h' free'
      (bb :: s.live.map fun x => header x.1) := hi
    obtain ⟨hb, hpos, hhigh⟩ := hi.held bb List.mem_cons_self
    have hbytes : bytes h' bb = 32 := by
      have := units_eq hpos
      omega
    cases pages with
    | none =>
      set h₂ := (h'.setUnits bb (findOrder (int32 size))).setNext bb 0 with hh₂
      have hi₃ := hi.rewrite (h₂.setUnits bb (slobUnits sizeofBigblock)) rfl
        (by rw [hbb, Heap.setUnits_units, Function.update_self]; rfl)
        (fun a hne => by simp [hh₂, hne])
      obtain ⟨n, h₄, free₄, hn, hi₄, hkeep₄, hframe₄⟩ := hi₃.slobFree
      refine ⟨k + n, ⟨{ s.mem with heap := h₄ }, s.live, s.big, s.pagesAfter page left⟩, free₄,
        records, fun fuel => ?_, g.refused hpage hi₄ ?_ ?_, fun _ hp => absurd rfl hp⟩
      · have e₁ := hk (n + fuel)
        have e₂ := hn (k + fuel)
        rw [← Nat.add_assoc] at e₁
        rw [← slobFree_sized _ (by omega) (by decide), ← Nat.add_assoc, Nat.add_comm n k] at e₂
        simp only [Book.call, Memory.kmalloc, if_neg hlt, Memory.bigAlloc, e₁, Option.bind_some]
        change Option.map _ (Option.map _ (slobFree (k + n + fuel) h₂ bb sizeofBigblock)) = _
        rw [e₂]
        rfl
      · intro x hx
        have hxm := List.mem_map_of_mem (f := fun x : ℕ × ℕ => header x.1) hx
        obtain ⟨hd, -⟩ := List.pairwise_cons.mp hi.disjoint
        have hne : header x.1 ≠ bb := (ne_of_disjoint hpos (hd _ hxm)
          (hi.held _ (List.mem_cons_of_mem _ hxm)).2.1).symm
        rw [← hkeep x hx]
        apply bytes_congr
        rw [hkeep₄ _ hxm]
        simp [hh₂, hne]
      · intro c hc
        have hin : c ∈ span c recordBytes := by simp [recordBytes]
        have hun : ¬ Unrecorded arena (s.pagesAfter page left) records c := fun h => h.2 c hc hin
        obtain ⟨h₁, h₂'⟩ := hframe₄ c (hi₃.not_mem_of_untaken List.mem_cons_self hun)
        have hne : c ≠ bb := by
          rintro rfl
          exact hun (hi.head_taken List.mem_cons_self)
        rw [← hrec c hc, record, record, h₁, h₂']
        simp [hh₂, hne]
    | some p =>
      set order := findOrder (int32 size) with horder
      set h₂ := (h'.setUnits bb order).setNext bb p with hh₂
      have hle : order ≤ 19 := findOrder_le size
      have hord : (h₂.units bb).toNat = order := by
        rw [hh₂, Heap.setNext_units, Heap.setUnits_units, Function.update_self,
          int32_eq (by omega) (by omega), Int.toNat_natCast]
      have hoff : offset bb 1 = bb + 16 := offset_one (by omega)
      refine ⟨k, ⟨⟨h₂.setUnits (offset bb 1) s.mem.bigblocks,
        Function.update s.mem.link bb s.mem.bigblocks, bb, (p, order) :: s.mem.granted⟩, s.live,
        (p, size) :: s.big, s.pagesAfter page left⟩, free', bb :: records, fun fuel => ?_,
        g.addRecord hpage hi hbb hkeep hrec rfl ?_ ?_ (hpages p rfl)
          (fun q hq => hpp q hq p rfl) (le_orderBytes_iff.mpr hfit),
        fun _ _ => ⟨p, .inr ⟨rfl, rfl⟩⟩⟩
      · rw [← hord]
        simp only [Book.call, Memory.kmalloc, if_neg hlt, Memory.bigAlloc, hk fuel,
          Option.bind_some, Option.map_some]
        rfl
      · have hne : bb ≠ bb + 16 := by omega
        rw [record, hoff, Heap.setUnits_units, Heap.setUnits_next, Function.update_of_ne hne, hord]
        simp [hh₂]
      · intro a ha
        rw [Finset.mem_Ico] at ha
        unfold recordBytes at ha
        have h₁ : a ≠ bb := by omega
        have h₂' : a ≠ bb + 16 := by omega
        simp [hoff, hh₂, h₁, h₂']

end Requests

end Sound

/-! ## Freeing -/

section Search

variable {m : Memory} {block bb p : ℕ} {l₁ l₂ : List ℕ}

theorem findRecord_skip (hc : Chain m.link p (l₁ ++ l₂)) (hl : ∀ c ∈ l₁, m.heap.next c ≠ block) :
    ∃ q, Chain m.link q l₂ ∧ ∀ fuel last, m.findRecord block (l₁.length + fuel) last p =
      m.findRecord block fuel (l₁.getLast?.or last) q := by
  induction l₁ generalizing p with
  | nil => exact ⟨p, hc, fun fuel last => by simp⟩
  | cons c l ih =>
    obtain ⟨rfl, hc₀, hc⟩ := hc
    obtain ⟨q, hq, hf⟩ := ih hc fun a ha => hl a (List.mem_cons_of_mem _ ha)
    refine ⟨q, hq, fun fuel last => ?_⟩
    have hlen : (p :: l).length + fuel = l.length + fuel + 1 := by
      rw [List.length_cons]
      omega
    rw [hlen, Memory.findRecord, if_neg hc₀, if_neg (hl p List.mem_cons_self), hf,
      List.getLast?_cons]
    cases l.getLast? <;> rfl

theorem findRecord_found (hc : Chain m.link p (l₁ ++ bb :: l₂))
    (hl : ∀ c ∈ l₁, m.heap.next c ≠ block) (hb : m.heap.next bb = block) :
    ∃ n, ∀ fuel, m.findRecord block (n + fuel) none p = some (some (l₁.getLast?, bb)) := by
  obtain ⟨q, ⟨rfl, hq₀, -⟩, hf⟩ := findRecord_skip hc hl
  refine ⟨l₁.length + 1, fun fuel => ?_⟩
  rw [Nat.add_assoc, hf, Nat.add_comm, Memory.findRecord, if_neg hq₀, if_pos hb, Option.or_none]

theorem findRecord_none (hc : Chain m.link p l₁) (hl : ∀ c ∈ l₁, m.heap.next c ≠ block) :
    ∃ n, ∀ fuel, m.findRecord block (n + fuel) none p = some none := by
  rw [← List.append_nil l₁] at hc
  obtain ⟨q, hq, hf⟩ := findRecord_skip hc hl
  refine ⟨l₁.length + 1, fun fuel => ?_⟩
  have hq₀ : q = 0 := hq
  rw [Nat.add_assoc, hf, Nat.add_comm, Memory.findRecord, if_pos hq₀]

end Search

namespace Sound

variable {arena b size order : ℕ} {s : Book} {free records l₁ l₂ : List ℕ} {bb : ℕ}

section Freeing

variable (g : Sound arena s free records)

include g

theorem live_taken {y : ℕ × ℕ} (hy : y ∈ s.live) : Taken arena s.pages y.1 := by
  obtain ⟨h₁, h₂, h₃⟩ := g.payload y hy
  refine (g.taken_of_live hy (g.mem_block hy le_rfl ?_)).1
  unfold header slobUnit at *
  omega

theorem big_not_taken {x : ℕ × ℕ} (hx : x ∈ s.big) : ¬ Taken arena s.pages x.1 := by
  obtain ⟨k, hk, -⟩ := g.big x hx
  exact (g.outside _ hk).2.2 x.1 (by simp [orderBytes_pos])

theorem live_ne : s.live.Pairwise fun x y => x.1 ≠ y.1 := by
  apply (List.pairwise_map.mp g.inv.disjoint).imp_of_mem
  intro x y hx hy hd he
  have hpos := (g.inv.held _ (List.mem_map_of_mem hx)).2.1
  rw [he] at hd hpos
  have hin : header y.1 ∈ span (header y.1) (bytes s.mem.heap (header y.1)) := by simp [hpos]
  exact Finset.disjoint_left.mp hd hin hin

/-- A small block is freed. -/
theorem freeSmall (hb : (b, size) ∈ s.live) :
    ∃ n s' free', (∀ fuel, s.call (n + fuel) (.free b) = some s') ∧
      Sound arena s' free' records ∧ s'.pages = s.pages ∧ s'.mem.granted = s.mem.granted ∧
      cells (bytes s'.mem.heap) free' = cells (bytes s.mem.heap) free ∪
        span (header b) (bytes s.mem.heap (header b)) := by
  obtain ⟨l₁, l₂, hl, hfilter⟩ := filter_ne_of_mem g.live_ne hb
  have hperm : (s.live.map fun x => header x.1).Perm
      (header b :: (l₁ ++ l₂).map fun x => header x.1) := by
    rw [hl, List.map_append, List.map_cons, List.map_append]
    exact List.perm_middle
  have hi₀ := g.inv.perm hperm
  obtain ⟨n, h', free', hn, hi, hkeep, hframe⟩ := hi₀.slobFree
  obtain ⟨-, hpos, hhigh⟩ := hi₀.held (header b) List.mem_cons_self
  obtain ⟨hlow, hone, hroom⟩ := g.payload _ hb
  have hoff : offset b (-1) = header b := by
    unfold offset header slobUnit at *
    omega
  have hb0 : b ≠ 0 := by
    unfold slobUnit at hlow
    omega
  have hrec : ∀ c ∈ records, record h' c = record s.mem.heap c := by
    intro c hc
    have hin : c ∈ span c recordBytes := by simp [recordBytes]
    obtain ⟨h₁, h₂⟩ := hframe c (hi₀.not_mem_of_untaken List.mem_cons_self fun h => h.2 c hc hin)
    rw [record, record, h₁, h₂]
  obtain ⟨n', hn'⟩ : ∃ n', ∀ fuel,
      s.mem.findRecord b (n' + fuel) none s.mem.bigblocks = some none := by
    apply findRecord_none g.chain
    intro c hc he
    have hm : record s.mem.heap c ∈ s.mem.granted :=
      g.granted.mem_iff.mpr (List.mem_map_of_mem hc)
    refine (g.outside _ hm).2.2 b ?_ (g.live_taken hb)
    rw [record, he]
    simp [orderBytes_pos]
  have hbig : s.big.filter (fun x => x.1 ≠ b) = s.big := by
    apply List.filter_eq_self.mpr
    intro x hx
    refine decide_eq_true fun he => g.big_not_taken hx ?_
    rw [he]
    exact g.live_taken hb
  have hmem : ∀ x ∈ l₁ ++ l₂, x ∈ s.live := by
    intro x hx
    rw [hl]
    simp only [List.mem_append, List.mem_cons] at hx ⊢
    tauto
  refine ⟨n + n', ⟨{ s.mem with heap := h' }, l₁ ++ l₂, s.big, s.pages⟩, free', fun fuel => ?_,
    g.update hi ?_ g.pages hrec (fun _ hx => hx) (fun w hw => (g.outside w hw).2.2), rfl, rfl, ?_⟩
  · have e₁ := hn (n' + fuel)
    have e₂ := hn' (n + fuel)
    rw [← Nat.add_assoc] at e₁ e₂
    rw [Nat.add_comm n' n] at e₂
    simp only [Book.call, Memory.kfree, if_neg hb0, hoff, e₁, e₂, Option.bind_some, Option.map_some,
      hfilter, hbig]
    split <;> rfl
  · intro x hx
    rw [bytes_congr (hkeep (header x.1) (List.mem_map_of_mem hx))]
    exact g.payload x (hmem x hx)
  · exact hi₀.cells_free hi hkeep

/-- A record is taken out of the list. -/
theorem unlink (hr : records = l₁ ++ bb :: l₂) {m : Memory}
    (hm : m = s.mem.setLast l₁.getLast? (s.mem.link bb)) :
    Chain m.link m.bigblocks (l₁ ++ l₂) ∧ m.granted = s.mem.granted ∧
      m.heap.slobfree = s.mem.heap.slobfree ∧
      (∀ a, Unrecorded arena s.pages records a →
        m.heap.units a = s.mem.heap.units a ∧ m.heap.next a = s.mem.heap.next a) ∧
      ∀ c ∈ records, record m.heap c = record s.mem.heap c := by
  subst hr
  have hc := g.chain
  rcases List.eq_nil_or_concat l₁ with rfl | ⟨l, c, rfl⟩
  · subst hm
    exact ⟨hc.2.2, rfl, rfl, fun _ _ => ⟨rfl, rfl⟩, fun _ _ => rfl⟩
  · rw [List.concat_eq_append] at *
    have hcm : c ∈ (l ++ [c]) ++ bb :: l₂ := by simp
    have hnd : ((l ++ [c]) ++ bb :: l₂).Nodup := by
      refine g.apart.imp fun {a b} hd he => ?_
      have hin : a ∈ span a recordBytes := by simp [recordBytes]
      exact Finset.disjoint_left.mp hd hin (he ▸ hin)
    have hoff : offset c 1 = c + 16 := by
      have := (g.above c hcm).2
      unfold recordBytes at this
      exact offset_one this
    have hlast : (l ++ [c]).getLast? = some c := by simp
    rw [hlast] at hm
    subst hm
    have hsame : ∀ a, a ≠ c + 16 →
        ((s.mem.setLast (some c) (s.mem.link bb)).heap.units a = s.mem.heap.units a ∧
          (s.mem.setLast (some c) (s.mem.link bb)).heap.next a = s.mem.heap.next a) := by
      intro a ha
      simp [Memory.setLast, Memory.setLink, hoff, ha]
    refine ⟨?_, rfl, rfl, fun a ha => hsame a ?_, fun a ha => ?_⟩
    · rw [List.append_assoc] at hc hnd ⊢
      exact hc.unlink hnd
    · rintro rfl
      exact ha.2 c hcm (by simp [recordBytes])
    · obtain ⟨h₁, h₂⟩ := hsame a (by
        rintro rfl
        have : Std.Symm fun a b => Disjoint (span a recordBytes) (span b recordBytes) :=
          ⟨fun _ _ hd => hd.symm⟩
        have hd := g.apart.forall ha hcm (by omega)
        have h₁ : c + 16 ∈ span (c + 16) recordBytes := by simp [recordBytes]
        exact Finset.disjoint_left.mp hd h₁ (by simp [recordBytes]))
      rw [record, record, h₁, h₂]

theorem filter_live_big (hb : (b, size) ∈ s.big) : s.live.filter (fun x => x.1 ≠ b) = s.live := by
  apply List.filter_eq_self.mpr
  intro x hx
  refine decide_eq_true fun he => g.big_not_taken hb ?_
  change Taken arena s.pages b
  rw [← he]
  exact g.live_taken hx

/-- The search for the record of a big block finds it. -/
theorem findRecord_big {order : ℕ} (hr : records = l₁ ++ bb :: l₂)
    (hbb : record s.mem.heap bb = (b, order)) : ∃ n, ∀ fuel,
      s.mem.findRecord b (n + fuel) none s.mem.bigblocks = some (some (l₁.getLast?, bb)) := by
  have hc := g.chain
  rw [hr] at hc
  apply findRecord_found hc
  · intro c hc he
    have hdis := (g.granted.pairwise_iff fun {a b} hd => Disjoint.symm hd).mp g.disjoint
    rw [hr, List.map_append, List.map_cons, List.pairwise_append] at hdis
    have hcb := hdis.2.2 _ (List.mem_map_of_mem hc) _ List.mem_cons_self
    rw [hbb, record, he] at hcb
    have hbin : ∀ k, b ∈ span b (orderBytes k) := fun k => by simp [orderBytes_pos]
    exact Finset.disjoint_left.mp hcb (hbin _) (hbin _)
  · exact congrArg Prod.fst hbb

/-- The record of a big block is a block in use once it has its size. -/
theorem record_inUse {h : Heap} {rest : List ℕ} (hbm : bb ∈ records)
    (hsub : ∀ c ∈ rest, c ∈ records) (hrest : ∀ c ∈ records, c = bb ∨ c ∈ rest)
    (hd : ∀ c ∈ rest, Disjoint (span bb recordBytes) (span c recordBytes))
    (hslob : h.slobfree = s.mem.heap.slobfree)
    (hsame : ∀ a, Unrecorded arena s.pages records a →
      h.units a = s.mem.heap.units a ∧ h.next a = s.mem.heap.next a)
    (hbytes : bytes h bb = recordBytes) :
    Inv arena (Unrecorded arena s.pages rest) h free (bb :: s.live.map fun x => header x.1) := by
  obtain ⟨h₁, h₂⟩ := g.above bb hbm
  refine ((g.inv.storeOutside h hslob hsame).add h₁ (by rw [hbytes]; decide)
    (by rwa [hbytes]) ?_).congr ?_
  · rw [hbytes]
    exact fun x hx h => h.2 bb hbm hx
  · intro x
    rw [hbytes]
    constructor
    · rintro ⟨ht, hn⟩
      by_cases hx : x ∈ span bb recordBytes
      · exact .inr hx
      · refine .inl ⟨ht, fun c hc => ?_⟩
        rcases hrest c hc with rfl | hc
        · exact hx
        · exact hn c hc
    · rintro (⟨ht, hn⟩ | hx)
      · exact ⟨ht, fun c hc => hn c (hsub c hc)⟩
      · exact ⟨g.recorded bb hbm x hx, fun c hc => Finset.disjoint_left.mp (hd c hc) hx⟩

/-- A big block and its record are gone. -/
theorem release {m : Memory} {free' rest : List ℕ} {order : ℕ}
    (hperm : records.Perm (bb :: rest)) (hbb : record s.mem.heap bb = (b, order))
    (hapart : rest.Pairwise fun a b => Disjoint (span a recordBytes) (span b recordBytes))
    (hchain : Chain m.link m.bigblocks rest)
    (hgr : m.granted = s.mem.granted.erase (b, order))
    (hi : Inv arena (Unrecorded arena s.pages rest) m.heap free'
      (s.live.map fun x => header x.1))
    (hkeep : ∀ x ∈ s.live, m.heap.units (header x.1) = s.mem.heap.units (header x.1))
    (hrec : ∀ c ∈ rest, record m.heap c = record s.mem.heap c) :
    Sound arena ⟨m, s.live, s.big.filter fun x => x.1 ≠ b, s.pages⟩ free' rest := by
  have hsub : ∀ c ∈ rest, c ∈ records := fun c hc =>
    hperm.mem_iff.mpr (List.mem_cons_of_mem _ hc)
  constructor
  · exact hi
  · intro x hx
    rw [bytes_congr (hkeep x hx)]
    exact g.payload x hx
  · exact g.pages
  · exact hchain
  · exact fun c hc => g.above c (hsub c hc)
  · exact fun c hc => g.recorded c (hsub c hc)
  · exact hapart
  · rw [hgr, List.map_congr_left hrec]
    have hp := (g.granted.trans (hperm.map (record s.mem.heap))).erase (b, order)
    rwa [List.map_cons, hbb, List.erase_cons_head] at hp
  · rw [hgr]
    exact fun w hw => g.outside w (List.mem_of_mem_erase hw)
  · rw [hgr]
    exact g.disjoint.sublist List.erase_sublist
  · intro x hx
    obtain ⟨hx, hne⟩ := List.mem_filter.mp hx
    obtain ⟨k, hk, hle⟩ := g.big x hx
    refine ⟨k, ?_, hle⟩
    rw [hgr]
    refine (List.mem_erase_of_ne ?_).mpr hk
    intro he
    exact of_decide_eq_true hne (congrArg Prod.fst he)
  · exact g.bigs.sublist List.filter_sublist

/-- A big block is freed: its pages go back to the page allocator, the units of its record to the
heap. -/
theorem freeBig (hb : (b, size) ∈ s.big) :
    ∃ n s' free' bb order, (∀ fuel, s.call (n + fuel) (.free b) = some s') ∧
      (∃ records', records.Perm (bb :: records') ∧ Sound arena s' free' records') ∧
      s'.pages = s.pages ∧ (b, order) ∈ s.mem.granted ∧
      s'.mem.granted = s.mem.granted.erase (b, order) ∧
      cells (bytes s'.mem.heap) free' = cells (bytes s.mem.heap) free ∪ span bb recordBytes := by
  obtain ⟨order, hord, -⟩ := g.big _ hb
  obtain ⟨hdvd, habove, hout⟩ := g.outside _ hord
  obtain ⟨bb, hbm, hbb⟩ := List.mem_map.mp (g.granted.mem_iff.mp hord)
  obtain ⟨l₁, l₂, hr⟩ := List.append_of_mem hbm
  have hin : ∀ c, c ∈ span c recordBytes := fun c => by simp [recordBytes]
  have hperm : records.Perm (bb :: (l₁ ++ l₂)) := by
    rw [hr]
    exact List.perm_middle
  have hsub : ∀ c ∈ l₁ ++ l₂, c ∈ records := fun c hc =>
    hperm.mem_iff.mpr (List.mem_cons_of_mem _ hc)
  have hapart := (hperm.pairwise_iff fun {a b} hd => Disjoint.symm hd).mp g.apart
  obtain ⟨hd, hapart⟩ := List.pairwise_cons.mp hapart
  set m := s.mem.setLast l₁.getLast? (s.mem.link bb) with hm
  obtain ⟨hchain, hgr, hslob, hsame, hrec⟩ := g.unlink hr hm
  -- The record becomes a block in use of two units, which is freed.
  have hbytes : bytes (m.heap.setUnits bb (slobUnits sizeofBigblock)) bb = recordBytes :=
    bytes_setUnits (by decide)
  have hsame' : ∀ a, Unrecorded arena s.pages records a →
      (m.heap.setUnits bb (slobUnits sizeofBigblock)).units a = s.mem.heap.units a ∧
        (m.heap.setUnits bb (slobUnits sizeofBigblock)).next a = s.mem.heap.next a := by
    intro a ha
    have hne : a ≠ bb := by
      rintro rfl
      exact ha.2 a hbm (hin a)
    rw [Heap.setUnits_units, Function.update_of_ne hne]
    exact hsame a ha
  have hi₃ := g.record_inUse (h := m.heap.setUnits bb (slobUnits sizeofBigblock)) hbm hsub
    (fun c hc => List.mem_cons.mp (hperm.mem_iff.mp hc)) hd hslob hsame' hbytes
  obtain ⟨n, h', free', hn, hi, hkeep, hframe⟩ := hi₃.slobFree
  have hrec' : ∀ c ∈ l₁ ++ l₂, record h' c = record s.mem.heap c := by
    intro c hc
    obtain ⟨h₁, h₂⟩ := hframe c (hi₃.not_mem_of_untaken List.mem_cons_self
      fun h => h.2 c hc (hin c))
    have hne : c ≠ bb := by
      rintro rfl
      exact Finset.disjoint_left.mp (hd c hc) (hin c) (hin c)
    rw [← hrec c (hsub c hc), record, record, h₁, h₂]
    simp [hne]
  have hkept : ∀ x ∈ s.live, h'.units (header x.1) = s.mem.heap.units (header x.1) := by
    intro x hx
    rw [hkeep (header x.1) (List.mem_map_of_mem hx)]
    exact (hsame' _ (g.inv.head_taken
      (List.mem_map_of_mem (f := fun x : ℕ × ℕ => header x.1) hx))).1
  obtain ⟨n', hn'⟩ := g.findRecord_big hr hbb
  have hunits : (m.heap.units bb).toNat = order := by
    have he := hrec bb hbm
    rw [hbb] at he
    exact congrArg Prod.snd he
  refine ⟨n + n', ⟨⟨h', m.link, m.bigblocks, s.mem.granted.erase (b, order)⟩, s.live,
    s.big.filter fun x => x.1 ≠ b, s.pages⟩, free', bb, order, fun fuel => ?_,
    ⟨l₁ ++ l₂, hperm, g.release hperm hbb hapart hchain rfl hi hkept hrec'⟩, rfl, hord, rfl, ?_⟩
  · have e₁ := hn (n' + fuel)
    have e₂ := hn' (n + fuel)
    rw [← slobFree_sized _ (by have := (g.above bb hbm).1; omega) (by decide),
      ← Nat.add_assoc] at e₁
    rw [← Nat.add_assoc, Nat.add_comm n' n] at e₂
    have hb0 : b ≠ 0 := by
      intro h₀
      have h₁ : arena + slobUnit < b := habove
      omega
    have hmod : b % pageSize = 0 := Nat.mod_eq_zero_of_dvd hdvd
    simp only [Book.call, Memory.kfree, if_neg hb0, if_pos hmod, e₂, Option.bind_some,
      Memory.release, ← hm, hgr, hunits, e₁, Option.map_some, g.filter_live_big hb]
  · rw [hi₃.cells_free hi hkeep, hbytes]
    congr 1
    exact cells_congr fun a ha => bytes_congr (hsame' a (g.inv.taken_of_free ha)).1

/-- A store into live results. -/
theorem store {units : ℕ → ℤ} {next link : ℕ → ℕ}
    (ha : s.Admits arena (.store units next link)) :
    Sound arena { s with mem := { s.mem with
      heap := { s.mem.heap with units := units, next := next }, link := link } } free records := by
  obtain ⟨hw, hl⟩ := ha
  have hkeep : ∀ a, ¬ s.Owned a slobUnit →
      units a = s.mem.heap.units a ∧ next a = s.mem.heap.next a := by
    intro a ha
    by_contra hne
    exact ha (hw a (not_and_or.mp hne))
  have hrec : ∀ bb ∈ records, ¬ s.Owned bb slobUnit := fun bb hb =>
    g.record_not_owned hb (by decide) le_rfl (by unfold slobUnit recordBytes; omega)
  have hlink : ∀ bb ∈ records, link bb = s.mem.link bb := by
    intro bb hb
    by_contra hne
    refine g.record_not_owned hb (show 0 < 8 by omega) ?_ ?_ (hl bb hne)
    · omega
    · unfold slobUnit recordBytes
      omega
  refine ⟨?_, ?_, g.pages, g.chain.congr hlink, g.above, g.recorded, g.apart, ?_, g.outside,
    g.disjoint, g.big, g.bigs⟩
  · apply g.inv.store ⟨units, next, s.mem.heap.slobfree⟩ rfl
    · exact fun a ha => hkeep a (g.free_not_owned ha)
    · intro a ha
      obtain ⟨x, hx, rfl⟩ := List.mem_map.mp ha
      exact (hkeep _ (g.header_not_owned hx)).1
  · intro x hx
    have hbytes : bytes ⟨units, next, s.mem.heap.slobfree⟩ (header x.1) =
        bytes s.mem.heap (header x.1) := bytes_congr (hkeep _ (g.header_not_owned hx)).1
    obtain ⟨h₁, h₂, h₃⟩ := g.payload x hx
    exact ⟨h₁, h₂, h₃.trans (le_of_eq hbytes.symm)⟩
  · refine g.granted.trans (List.Perm.of_eq (List.map_congr_left fun bb hb => ?_))
    obtain ⟨h₁, h₂⟩ := hkeep bb (hrec bb hb)
    exact congrArg₂ (fun n u => (n, Int.toNat u)) h₂.symm h₁.symm

end Freeing

end Sound

/-! ## Runs -/

/-- The sizes that `kmalloc` honours. The block for no bytes ends with its header, `slob_alloc` has
an assertion that fails for the largest small sizes, and the order of a big block must have room. -/
def Fits (size : ℕ) : Prop := 1 ≤ size ∧ (size < 4064 ∨ 4080 ≤ size ∧ OrderFits size)

def Request.Fits : Request → Prop
  | .alloc size _ _ => Slob.Fits size
  | _ => True

/-- A call that returns, with all fuel from some amount on. -/
def Book.Step (arena : ℕ) (s : Book) (r : Request) (s' : Book) : Prop :=
  s.Admits arena r ∧ r.Fits ∧ ∃ n, ∀ fuel, s.call (n + fuel) r = some s'

/-- The free blocks, those of small results, the records, and the pages of big results, with their
bytes. -/
def Book.blocks (s : Book) (free records : List ℕ) : List (ℕ × ℕ) :=
  free.map (fun b => (b, bytes s.mem.heap b)) ++
    (s.live.map (fun x => (header x.1, bytes s.mem.heap (header x.1))) ++
      (records.map (fun bb => (bb, recordBytes)) ++
        s.mem.granted.map fun g => (g.1, orderBytes g.2)))

/-- The heap between two requests: results have room, and nothing overlaps. -/
structure Honoured (arena : ℕ) (s : Book) (free records : List ℕ) : Prop where
  arena_mem : arena ∈ free
  circle : ∃ below above, free = below ++ s.mem.heap.slobfree :: above ∧
    Path s.mem.heap.next s.mem.heap.slobfree (above ++ below) s.mem.heap.slobfree
  unmerged : ∀ b ∈ free, b + bytes s.mem.heap b ∉ free
  chain : Chain s.mem.link s.mem.bigblocks records
  granted : s.mem.granted.Perm (records.map (record s.mem.heap))
  small : ∀ x ∈ s.live, header x.1 + slobUnit = x.1 ∧
    x.1 + x.2 ≤ header x.1 + bytes s.mem.heap (header x.1)
  big : ∀ x ∈ s.big, ∃ order, (x.1, order) ∈ s.mem.granted ∧ x.2 ≤ orderBytes order
  bigs : s.big.Pairwise fun x y => x.1 ≠ y.1
  disjoint : (s.blocks free records).Pairwise fun a b => Disjoint (span a.1 a.2) (span b.1 b.2)
  tiles : ∀ z, Taken arena s.pages z ↔ z ∈ cells (bytes s.mem.heap) free ∨
    (∃ x ∈ s.live, z ∈ span (header x.1) (bytes s.mem.heap (header x.1))) ∨
      ∃ bb ∈ records, z ∈ span bb recordBytes

/-- `kfree` has made the bytes of a small block free again, or has given the pages of a big block
back and made the units of its record free. -/
def Restores (arena : ℕ) (s s' : Book) (block : ℕ) : Prop :=
  s'.pages = s.pages ∧ ∃ free records free' records', Honoured arena s free records ∧
    Honoured arena s' free' records' ∧
    ((∃ size, (block, size) ∈ s.live) ∧ s'.mem.granted = s.mem.granted ∧
        cells (bytes s'.mem.heap) free' = cells (bytes s.mem.heap) free ∪
          span (header block) (bytes s.mem.heap (header block)) ∨
      ∃ bb order, bb ∈ records ∧ (block, order) ∈ s.mem.granted ∧
        s'.mem.granted = s.mem.granted.erase (block, order) ∧
        cells (bytes s'.mem.heap) free' = cells (bytes s.mem.heap) free ∪ span bb recordBytes)

namespace Sound

variable {arena b size : ℕ} {s : Book} {free records : List ℕ} {page pages : Option ℕ}

theorem honoured (g : Sound arena s free records) : Honoured arena s free records := by
  refine ⟨g.inv.arena_mem, g.inv.circle.split g.inv.slobfree, g.inv.gapped, g.chain, g.granted, ?_,
    g.big, g.bigs, ?_, ?_⟩
  · intro x hx
    obtain ⟨h₁, h₂, h₃⟩ := g.payload x hx
    have hh : header x.1 + slobUnit = x.1 := by
      unfold header
      omega
    exact ⟨hh, by omega⟩
  · unfold Book.blocks
    simp only [List.pairwise_append, List.mem_append, List.pairwise_map]
    refine ⟨?_, ⟨?_, ⟨g.apart, g.disjoint, ?_⟩, ?_⟩, ?_⟩
    · refine g.inv.blocks.sep.imp fun {a b} hab => ?_
      rw [Finset.disjoint_left]
      intro z hz hz'
      rw [Finset.mem_Ico] at hz hz'
      omega
    · have hd := g.inv.disjoint
      rwa [List.pairwise_map] at hd
    · intro a ha b hb
      obtain ⟨bb, hbb, rfl⟩ := List.mem_map.mp ha
      obtain ⟨w, hw, rfl⟩ := List.mem_map.mp hb
      exact Finset.disjoint_left.mpr fun z hz hz' =>
        (g.outside w hw).2.2 z hz' (g.recorded bb hbb z hz)
    · intro a ha b hb
      obtain ⟨x, hx, rfl⟩ := List.mem_map.mp ha
      rw [Finset.disjoint_left]
      intro z hz hz'
      have ht := g.taken_of_live hx hz
      rcases hb with hb | hb
      · obtain ⟨bb, hbb, rfl⟩ := List.mem_map.mp hb
        exact ht.2 bb hbb hz'
      · obtain ⟨w, hw, rfl⟩ := List.mem_map.mp hb
        exact (g.outside w hw).2.2 z hz' ht.1
    · intro a ha b hb
      obtain ⟨a, hafree, rfl⟩ := List.mem_map.mp ha
      rw [Finset.disjoint_left]
      intro z hz hz'
      have ht := g.taken_of_free hafree hz
      rcases hb with hb | hb | hb
      · obtain ⟨x, hx, rfl⟩ := List.mem_map.mp hb
        refine Finset.disjoint_left.mp (g.inv.apart _ (List.mem_map_of_mem hx)) hz' ?_
        rw [Finset.mem_Ico] at hz
        exact mem_cells.mpr ⟨a, hafree, hz⟩
      · obtain ⟨bb, hbb, rfl⟩ := List.mem_map.mp hb
        exact ht.2 bb hbb hz'
      · obtain ⟨w, hw, rfl⟩ := List.mem_map.mp hb
        exact (g.outside w hw).2.2 z hz' ht.1
  · intro z
    have hc := g.inv.cover z
    simp only [List.mem_map, exists_exists_and_eq_and] at hc
    rw [← or_assoc, ← hc]
    constructor
    · intro ht
      by_cases hn : ∃ bb ∈ records, z ∈ span bb recordBytes
      · exact .inr hn
      · exact .inl ⟨ht, fun bb hb hz => hn ⟨bb, hb, hz⟩⟩
    · rintro (ht | ⟨bb, hb, hz⟩)
      · exact ht.1
      · exact g.recorded bb hb z hz

theorem request (g : Sound arena s free records) (hfit : Slob.Fits size)
    (ha : s.Admits arena (.alloc size page pages)) :
    ∃ n s' free' records', (∀ fuel, s.call (n + fuel) (.alloc size page pages) = some s') ∧
      Sound arena s' free' records' ∧
      (page ≠ none → pages ≠ none → ∃ b, s.Gives s' b size) := by
  obtain ⟨hone, hs | ⟨hs, hfit⟩⟩ := hfit
  · obtain ⟨n, s', free', hn, hsound, hgive⟩ := g.small hone hs ha
    exact ⟨n, s', free', records, hn, hsound, fun hp _ => hgive hp⟩
  · exact g.bigRequest hs hfit ha

theorem restores (g : Sound arena s free records)
    (hb : s.Admits arena (.free b)) :
    ∃ n s' free' records', (∀ fuel, s.call (n + fuel) (.free b) = some s') ∧
      Sound arena s' free' records' ∧ Restores arena s s' b := by
  rcases hb with ⟨size, hb⟩ | ⟨size, hb⟩
  · obtain ⟨n, s', free', hn, hs, hp, hg, hc⟩ := g.freeSmall hb
    exact ⟨n, s', free', records, hn, hs, hp, free, records, free', records, g.honoured,
      hs.honoured, .inl ⟨⟨size, hb⟩, hg, hc⟩⟩
  · obtain ⟨n, s', free', bb, order, hn, ⟨records', hperm, hs⟩, hp, hord, hg, hc⟩ := g.freeBig hb
    exact ⟨n, s', free', records', hn, hs, hp, free, records, free', records', g.honoured,
      hs.honoured, .inr ⟨bb, order, hperm.mem_iff.mpr List.mem_cons_self, hord, hg, hc⟩⟩

theorem step {r : Request} {s' : Book} (g : Sound arena s free records)
    (h : s.Step arena r s') : ∃ free' records', Sound arena s' free' records' := by
  obtain ⟨ha, hfit, n, hn⟩ := h
  have huniq : ∀ {m : ℕ} {t : Book}, (∀ fuel, s.call (m + fuel) r = some t) → t = s' := by
    intro m t hm
    have e := hm n
    rw [Nat.add_comm, hn m] at e
    exact (Option.some.inj e).symm
  cases r with
  | alloc size page pages =>
    obtain ⟨m, t, free', records', hm, hs, -⟩ := g.request hfit ha
    obtain rfl := huniq hm
    exact ⟨free', records', hs⟩
  | free b =>
    obtain ⟨m, t, free', records', hm, hs, -⟩ := g.restores ha
    obtain rfl := huniq hm
    exact ⟨free', records', hs⟩
  | store units next link =>
    obtain rfl := Option.some.inj (hn 0)
    exact ⟨free, records, g.store ha⟩

end Sound

theorem sound_start {arena : ℕ} (harena : kernbase ≤ arena) (hfit : arena + slobUnit ≤ 2 ^ 64)
    (h : Heap) (link : ℕ → ℕ) : Sound arena (.start arena h link) [arena] [] := by
  have g := good_start harena hfit h
  refine ⟨g.inv.congr fun x => ?_, ?_, ?_, rfl, ?_, ?_, ?_, ?_, ?_, ?_, ?_, ?_⟩ <;>
    simp [Book.start, Unrecorded, Config.start]

/-- Along every run of requests that fit, frees and stores into live results: the results have room
and are disjoint, a request that fits is answered with a block when there are pages, `kfree` of a
live result ends and restores the heap, and the order of a big block has room. -/
theorem kmalloc_honours (arena : ℕ) (h : Heap) (link : ℕ → ℕ) (harena : kernbase ≤ arena)
    (hfit : arena + slobUnit ≤ 2 ^ 64) (requests : List Request) (s : Book)
    (hr : Runs (Book.Step arena) (.start arena h link) requests s) :
    (∃ free records, Honoured arena s free records) ∧
      (∀ size page pages, Fits size → s.Admits arena (.alloc size (some page) (some pages)) →
        ∃ n s' block, (∀ fuel,
          s.call (n + fuel) (.alloc size (some page) (some pages)) = some s') ∧
          s.Gives s' block size) ∧
      (∀ block, s.Admits arena (.free block) → ∃ n s', (∀ fuel,
        s.call (n + fuel) (.free block) = some s') ∧ Restores arena s s' block) ∧
      ∀ size, Fits size → 4080 ≤ size → size ≤ orderBytes (findOrder (int32 size)) := by
  have hs : ∃ free records, Sound arena s free records := by
    apply hr.invariant
    · rintro c r c' ⟨free, records, g⟩ hstep
      exact g.step hstep
    · exact ⟨[arena], [], sound_start harena hfit h link⟩
  obtain ⟨free, records, g⟩ := hs
  refine ⟨⟨free, records, g.honoured⟩, ?_, ?_, ?_⟩
  · intro size page pages hsize ha
    obtain ⟨n, s', -, -, hn, -, hgive⟩ := g.request hsize ha
    obtain ⟨block, hblock⟩ := hgive (by simp) (by simp)
    exact ⟨n, s', block, hn, hblock⟩
  · intro block hb
    obtain ⟨n, s', -, -, hn, -, hres⟩ := g.restores hb
    exact ⟨n, s', hn, hres⟩
  · rintro size ⟨-, hs | ⟨-, hs⟩⟩ hle
    · omega
    · exact le_orderBytes_iff.mpr hs

/-- An arena above the kernel, before the first request. -/
def bootBook : Book := .start 0xFFFFFFFFC0201000 ⟨fun _ => 0, fun _ => 0, 0⟩ fun _ => 0

/-- Two pages for a request of two pages. -/
theorem kmalloc_honours_pages : ∃ s block, bootBook.Gives s block 8192 ∧
    ∃ free records, Honoured 0xFFFFFFFFC0201000 s free records := by
  have hfits : Fits 8192 := by
    refine ⟨by decide, .inr ⟨by decide, by decide, fun k hk h => ?_⟩⟩
    obtain rfl | hk := hk.eq_or_lt
    · omega
    · have := Nat.pow_le_pow_right (show 0 < 2 by omega) hk
      omega
  have horder : findOrder (int32 (8192 : ℕ)) = 1 := by
    rw [int32_eq (by decide) (by decide), findOrder, if_pos (by decide), findOrder,
      if_neg (by decide)]
  have ha : bootBook.Admits 0xFFFFFFFFC0201000
      (.alloc 8192 (some 0xFFFFFFFFC0300000) (some 0xFFFFFFFFC0400000)) := by
    unfold Book.Admits
    simp only [horder, Option.mem_def, Option.some.injEq, forall_eq']
    refine ⟨?_, ?_, ?_⟩
    · simp [Book.Fresh, bootBook, Book.start, pageSize, slobUnit]
    · simp [Book.Fresh, bootBook, Book.start, pageSize, slobUnit, orderBytes]
    · rw [Finset.disjoint_left]
      intro z hz hz'
      rw [Finset.mem_Ico] at hz hz'
      unfold pageSize at hz
      omega
  have h₀ := kmalloc_honours 0xFFFFFFFFC0201000 ⟨fun _ => 0, fun _ => 0, 0⟩ (fun _ => 0) (by decide)
    (by decide) [] bootBook (.nil _)
  obtain ⟨n, s, block, hn, hg⟩ := h₀.2.1 8192 _ _ hfits ha
  exact ⟨s, block, hg, (kmalloc_honours _ _ _ (by decide) (by decide) _ s
    (.cons ⟨ha, hfits, n, hn⟩ (.nil s))).1⟩

theorem findPlace_alone {h : Heap} {a : ℕ} (ha : h.next a = a) (fuel : ℕ) :
    findPlace h a fuel a = none := by
  induction fuel with
  | zero => rfl
  | succ fuel ih => rw [findPlace, ha, if_neg (by omega), if_neg (by omega), ih]

theorem kfree_alone {m : Memory} (hn : m.heap.next 0xFFFFFFFFC0201000 = 0xFFFFFFFFC0201000)
    (hs : m.heap.slobfree = 0xFFFFFFFFC0201000) (fuel : ℕ) :
    m.kfree fuel 0xFFFFFFFFC0201010 = none := by
  have hoff : offset 0xFFFFFFFFC0201010 (-1) = 0xFFFFFFFFC0201000 := by decide
  have hfree : slobFree fuel m.heap 0xFFFFFFFFC0201000 0 = none := by
    rw [slobFree, if_neg (by decide), if_neg (by decide)]
    change Option.map _ (findPlace m.heap _ fuel m.heap.slobfree) = none
    rw [hs, findPlace_alone hn]
    rfl
  rw [Memory.kfree, if_neg (by decide), hoff, hfree, if_neg (by decide)]
  rfl

/-- The assertion of `slob_alloc` fails for 4064 bytes, 8193 bytes get two pages, and for no bytes
the first request gets the arena itself, which `kfree` cannot put back. -/
theorem kmalloc_honours_not :
    (∀ fuel page pages, bootBook.call fuel (.alloc 4064 page pages) = none) ∧
    orderBytes (findOrder (int32 (8193 : ℕ))) = 8192 ∧
    ∃ s, bootBook.call 1 (.alloc 0 none none) = some s ∧ s.live = [(0xFFFFFFFFC0201010, 0)] ∧
      ∀ fuel, s.call fuel (.free 0xFFFFFFFFC0201010) = none := by
  refine ⟨fun fuel page pages => ?_, ?_, ?_⟩
  · rfl
  · rw [int32_eq (by decide) (by decide), findOrder, if_pos (by decide), findOrder,
      if_neg (by decide)]
    rfl
  · refine ⟨_, rfl, rfl, fun fuel => ?_⟩
    rw [Book.call, kfree_alone rfl rfl]
    rfl

end UCore.Slob

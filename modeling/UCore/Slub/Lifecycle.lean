import UCore.Slub.Slabs

/-! # The life of slab pages

In every run on any number of caches the partial lists, the counters and the current pages agree
with the slab pages, no assertion fails, and a page goes back to the page allocator with its last
object.
-/

namespace UCore.Slub.Lab2

open Library

/-- The invariant of a run. -/
structure Sound (x : Sys) (P : ℕ → Pool) : Prop where
  fits : ∀ c ∈ x.created, ∃ size, 8 ≤ size ∧ Fits size (pgsize / size) x.heap c (P c)
  rest : ∀ c ∉ x.created, P c = Pool.empty
  live : ∀ c ∈ x.created, (P c).live = x.live c
  slabs : ∀ c c', c ≠ c' → (P c).slabs.Disjoint (P c').slabs
  marked : ∀ p, (x.heap.mem.pages p).flags &&& pgSlab ≠ 0 → ∃ c, p ∈ (P c).slabs
  returned : ∀ p ∈ x.heap.returned, ∀ c, p ∉ (P c).slabs

theorem Fits.clear {size n : ℕ} {s : Heap} {c : ℕ} {P : Pool} (h : Fits size n s c P) :
    Fits size n { s with returned := none } c P := ⟨h.good, h.tight, h.active, h.limit, h.small⟩

theorem Fits.frame {size n : ℕ} {s t : Heap} {c c' : ℕ} {P : Pool} {X : List ℕ}
    (h : Fits size n s c P) (hf : Frame c' X s.mem t.mem) (hc : c ≠ c') (hX : ∀ p ∈ P.slabs, p ∉ X)
    (ha : t.activeSlabs c = s.activeSlabs c) : Fits size n t c P :=
  ⟨h.good.frame hf hc hX, h.tight, ha.trans h.active, h.limit, h.small⟩

namespace Sound

variable {x : Sys} {P : ℕ → Pool} {c p : ℕ}

theorem mem_created (h : Sound x P) (hp : p ∈ (P c).slabs) : c ∈ x.created := by
  by_contra hc
  rw [h.rest c hc] at hp
  cases hp

theorem flags (h : Sound x P) (hp : p ∈ (P c).slabs) : (x.heap.mem.pages p).flags = pgSlab := by
  obtain ⟨size, -, hfit⟩ := h.fits c (h.mem_created hp)
  exact (hfit.good.lists.slab p hp).2.2

theorem isSlab_iff (h : Sound x P) : x.heap.mem.isSlab c p ↔ p ∈ (P c).slabs := by
  constructor
  · rintro ⟨hf, hs⟩
    obtain ⟨c', hp⟩ := h.marked p hf
    obtain ⟨size, -, hfit⟩ := h.fits c' (h.mem_created hp)
    have := (hfit.good.lists.slab p hp).2.1
    rw [hs, Option.some.injEq] at this
    rwa [this]
  · intro hp
    obtain ⟨size, -, hfit⟩ := h.fits c (h.mem_created hp)
    obtain ⟨-, hs, hf⟩ := hfit.good.lists.slab p hp
    exact ⟨by rw [hf]; decide, hs⟩

theorem safe (h : Sound x P) (hc : c ∈ x.created) : Safe x c (P c).slabs (P c).part (P c).cpu := by
  obtain ⟨size, -, hfit⟩ := h.fits c hc
  have hg := hfit.good
  have hpos : ∀ {p}, p ∈ (P c).slabs → (∃ o ∈ (P c).live, virtToPage o = p) →
      0 < (P c).live.countP (virtToPage · = p) := by
    rintro p - ⟨o, ho, rfl⟩
    exact List.countP_pos_iff.mpr ⟨o, ho, by simp⟩
  constructor
  · exact ⟨hg.inv.slabs, fun p => h.isSlab_iff.symm⟩
  · exact hg.part.ring
  · intro p hp
    obtain ⟨hm, hfree, hcur⟩ := hg.inv.part p hp
    rw [hg.lists.inuse p hm, (hg.lists.slab p hm).1]
    exact ⟨h.isSlab_iff.mpr hm, hpos hm (hfit.tight.busy p hm hcur),
      hg.inuse_lt hm (Nat.add_pos_right _ (List.length_pos_of_ne_nil hfree))⟩
  · exact hg.part.nr
  · exact hg.lists.cpu
  · intro o ho
    rw [hg.lists.page]
    exact hfit.tight.cpu o ho
  · exact hfit.active
  · intro hl
    have hcur : ∀ p ∈ (P c).slabs, (P c).cur = some p := by
      intro p hp
      by_contra hne
      obtain ⟨o, ho, -⟩ := hfit.tight.busy p hp hne
      rw [h.live c hc, hl] at ho
      cases ho
    match hs : (P c).slabs with
    | [] => exact Nat.zero_le 1
    | [_] => exact le_rfl
    | p :: q :: l =>
      have hnd := hg.inv.slabs
      rw [hs] at hcur hnd
      have hpq := (hcur p (by simp)).symm.trans (hcur q (by simp))
      simp [Option.some.inj hpq] at hnd
  · rintro p hp o ho rfl
    refine h.returned _ hp c (hg.page_mem ?_)
    rw [← h.live c hc] at ho
    rcases List.mem_append.mp ho with ho | ho
    · exact Good.mem_live ho
    · exact Good.mem_cpu ho

/-- One cache and its pool change: pages come from outside the slabs, and those that leave are in
no slab. -/
theorem update (h : Sound x P) {heap : Heap} {Q : Pool} {l X : List ℕ} {size : ℕ} (hsize : 8 ≤ size)
    (hfit : Fits size (pgsize / size) heap c Q) (hl : Q.live = l)
    (hf : Frame c X x.heap.mem heap.mem)
    (hX : ∀ p ∈ X, p ∈ (P c).slabs ∨ (x.heap.mem.pages p).flags &&& pgSlab = 0)
    (hQ : ∀ p ∈ Q.slabs, p ∈ X) (hP : ∀ p ∈ (P c).slabs, p ∈ X)
    (hleft : ∀ p ∈ X, p ∉ Q.slabs → (heap.mem.pages p).flags &&& pgSlab = 0)
    (ha : ∀ c', c' ≠ c → heap.activeSlabs c' = x.heap.activeSlabs c')
    (hr : ∀ p ∈ heap.returned, p ∈ X ∧ p ∉ Q.slabs) :
    Sound ⟨heap, insert c x.created, Function.update x.live c l⟩ (Function.update P c Q) := by
  have hout : ∀ c', c' ≠ c → ∀ p ∈ (P c').slabs, p ∉ X := by
    intro c' hne p hp hx
    rcases hX p hx with hm | hm
    · exact h.slabs c' c hne hp hm
    · rw [h.flags hp] at hm
      exact absurd hm (by decide)
  refine ⟨fun c' hc' => ?_, fun c' hc' => ?_, fun c' hc' => ?_, fun c₁ c₂ hne p hp hq => ?_,
    fun p hp => ?_, fun p hp c' hm => ?_⟩
  · rcases eq_or_ne c' c with rfl | hne
    · exact ⟨size, hsize, by simpa using hfit⟩
    · obtain ⟨size', hs', hfit'⟩ := h.fits c' (Finset.mem_of_mem_insert_of_ne hc' hne)
      refine ⟨size', hs', ?_⟩
      rw [Function.update_of_ne hne]
      exact hfit'.frame hf hne (hout c' hne) (ha c' hne)
  · have hne : c' ≠ c := by
      rintro rfl
      exact hc' (Finset.mem_insert_self c' _)
    rw [Function.update_of_ne hne]
    exact h.rest c' fun hm => hc' (Finset.mem_insert_of_mem hm)
  · rcases eq_or_ne c' c with rfl | hne
    · simpa using hl
    · simpa [hne] using h.live c' (Finset.mem_of_mem_insert_of_ne hc' hne)
  · rcases eq_or_ne c₁ c with rfl | hn₁
    · rw [Function.update_self] at hp
      rw [Function.update_of_ne hne.symm] at hq
      exact hout c₂ hne.symm p hq (hQ p hp)
    · rw [Function.update_of_ne hn₁] at hp
      rcases eq_or_ne c₂ c with rfl | hn₂
      · rw [Function.update_self] at hq
        exact hout c₁ hne p hp (hQ p hq)
      · rw [Function.update_of_ne hn₂] at hq
        exact h.slabs c₁ c₂ hne hp hq
  · by_cases hx : p ∈ X
    · refine ⟨c, ?_⟩
      rw [Function.update_self]
      by_contra hq
      exact hp (hleft p hx hq)
    · have hp' : (heap.mem.pages p).flags &&& pgSlab ≠ 0 := hp
      rw [hf.pages p hx] at hp'
      obtain ⟨c', hm⟩ := h.marked p hp'
      have hne : c' ≠ c := by
        rintro rfl
        exact hx (hP p hm)
      exact ⟨c', by rwa [Function.update_of_ne hne]⟩
  · obtain ⟨hx, hq⟩ := hr p hp
    rcases eq_or_ne c' c with rfl | hne
    · rw [Function.update_self] at hm
      exact hq hm
    · rw [Function.update_of_ne hne] at hm
      exact hout c' hne p hm hx

theorem keep (h : Sound x P) {mem : State}
    (hg : ∀ c ∈ x.created, ∀ size, 8 ≤ size → Good size (pgsize / size) x.heap.mem c (P c) →
      Good size (pgsize / size) mem c (P c))
    (hm : ∀ p, (mem.pages p).flags &&& pgSlab ≠ 0 → (x.heap.mem.pages p).flags &&& pgSlab ≠ 0) :
    Sound { x with heap := { x.heap with mem, returned := none } } P := by
  refine ⟨fun c hc => ?_, h.rest, h.live, h.slabs, fun p hp => h.marked p (hm p hp), nofun⟩
  obtain ⟨size, hs, hfit⟩ := h.fits c hc
  exact ⟨size, hs, hg c hc size hs hfit.good, hfit.tight, hfit.active, hfit.limit, hfit.small⟩

theorem created (h : Sound x P) {size : ℕ} (hc : c ∉ x.created) (hs : 8 ≤ size)
    (hle : size ≤ pgsize) :
    Sound ⟨Heap.kmemCacheCreate { x.heap with returned := none } c size, insert c x.created,
      Function.update x.live c []⟩ (Function.update P c Pool.empty) := by
  have hpos : 0 < size := by omega
  have hempty := h.rest c hc
  have hdiv : pgsize / size ≤ pgsize := Nat.div_le_self pgsize size
  have h16 : pgsize < 2 ^ 16 := by decide
  unfold Heap.kmemCacheCreate
  rw [if_neg (by omega)]
  refine h.update (X := []) hs ⟨⟨?_, ?_, ?_, Nat.div_mul_le_self .., hpos, Nat.div_pos hle hpos⟩,
    ⟨by simp [Pool.empty], by simp [Pool.empty]⟩, ?_, by simp [Pool.empty], by omega⟩ rfl ?_
    (by simp) (by simp [Pool.empty]) (by simp [hempty, Pool.empty]) (by simp) ?_ nofun
  · constructor <;> simp [Pool.empty, Chain]
  · exact ⟨by simp [Pool.empty], listInit_ring, by simp [Pool.empty]⟩
  · constructor <;> simp [Pool.empty, Pool.all]
  · simp [Pool.empty]
  · refine ⟨fun c' hc' => by simp [hc'], fun _ _ => rfl, fun e he _ => ?_, fun _ _ => rfl⟩
    exact listInit_congr he
  · intro c' hc'
    simp [hc']

theorem allocated (h : Sound x P) {fresh : Option ℕ} (hc : c ∈ x.created)
    (hfresh : ∀ p ∈ fresh, (x.heap.mem.pages p).flags &&& pgSlab = 0) :
    ∃ size o t Q, 8 ≤ size ∧ Fits size (pgsize / size) { x.heap with returned := none } c (P c) ∧
      Heap.kmemCacheAlloc { x.heap with returned := none } c fresh = (o, t) ∧
      Moved size (pgsize / size) { x.heap with returned := none } c fresh (P c) t Q ∧
      Sound ⟨t, x.created, Function.update x.live c (if o = 0 then x.live c else o :: x.live c)⟩
        (Function.update P c Q) := by
  obtain ⟨size, hs, hfit⟩ := h.fits c hc
  have hnew : ∀ p ∈ fresh, p ∉ (P c).slabs := by
    intro p hp hm
    have := hfresh p hp
    rw [h.flags hm] at this
    exact absurd this (by decide)
  obtain ⟨o, t, Q, ht, hm, hl⟩ := hfit.clear.kmemCacheAlloc hnew
  have hslabs : (∀ p ∈ Q.slabs, p ∈ (P c).slabs ∨ (x.heap.mem.pages p).flags &&& pgSlab = 0) ∧
      ∀ p ∈ (P c).slabs, p ∈ Q.slabs := by
    rcases hm.slabs with he | ⟨p, hp, he, -⟩
    · rw [he]
      exact ⟨fun p hp => .inl hp, fun p hp => hp⟩
    · rw [he]
      refine ⟨fun q hq => ?_, fun q hq => List.mem_cons_of_mem p hq⟩
      rcases List.mem_cons.mp hq with rfl | hq
      · exact .inr (hfresh q hp)
      · exact .inl hq
  have hu := h.update hs hm.fits hl hm.frame hslabs.1 (fun _ hp => hp) hslabs.2
    (fun p hp hq => absurd hp hq) hm.active (by simp [hm.returned])
  rw [Finset.insert_eq_of_mem hc, h.live c hc] at hu
  exact ⟨size, o, t, Q, hs, hfit.clear, ht, hm, hu⟩

theorem freed (h : Sound x P) {o : ℕ} (hc : c ∈ x.created) (ho : o ∈ x.live c) :
    ∃ size t Q, 8 ≤ size ∧ Fits size (pgsize / size) { x.heap with returned := none } c (P c) ∧
      Heap.kmemCacheFree { x.heap with returned := none } c o = some t ∧
      Freed size (pgsize / size) { x.heap with returned := none } c o (P c) t Q ∧
      Sound ⟨t, x.created, Function.update x.live c ((x.live c).erase o)⟩
        (Function.update P c Q) := by
  obtain ⟨size, hs, hfit⟩ := h.fits c hc
  rw [← h.live c hc] at ho
  obtain ⟨t, Q, ht, hf⟩ := hfit.clear.kmemCacheFree ho
  have hnd := hfit.good.inv.slabs
  have hslabs : (∀ p ∈ Q.slabs, p ∈ (P c).slabs) ∧
      (∀ p ∈ (P c).slabs, p ∉ Q.slabs → (t.mem.pages p).flags &&& pgSlab = 0) ∧
      ∀ p ∈ t.returned, p ∈ (P c).slabs ∧ p ∉ Q.slabs := by
    rcases hf.slabs with ⟨hr, he⟩ | ⟨p, hp, hr, he, hz⟩
    · rw [he, hr]
      exact ⟨fun _ hp => hp, fun _ hp hq => absurd hp hq, nofun⟩
    · rw [he, hr]
      refine ⟨fun _ hq => List.mem_of_mem_erase hq, fun q hq hqe => ?_, fun q hq => ?_⟩
      · obtain rfl : q = p := by
          by_contra hne
          exact hqe ((List.mem_erase_of_ne hne).mpr hq)
        rw [hz]
        rfl
      · obtain rfl : p = q := by simpa using hq
        exact ⟨hp, hnd.not_mem_erase⟩
  have hu := h.update hs hf.fits hf.live hf.frame (fun _ hp => .inl hp) hslabs.1 (fun _ hp => hp)
    hslabs.2.1 hf.active hslabs.2.2
  rw [Finset.insert_eq_of_mem hc, h.live c hc] at hu
  exact ⟨size, t, Q, hs, hfit.clear, ht, hf, hu⟩

theorem create (h : Sound x P) {size : ℕ} (hc : c ∉ x.created) (hs : 8 ≤ size)
    (hle : size ≤ pgsize) : ∃ y Q, x.exec (.create c size) = some y ∧ Sound y Q :=
  ⟨_, _, rfl, h.created hc hs hle⟩

theorem alloc (h : Sound x P) {fresh : Option ℕ} (hc : c ∈ x.created)
    (hfresh : ∀ p ∈ fresh, (x.heap.mem.pages p).flags &&& pgSlab = 0) :
    ∃ y Q, x.exec (.alloc c fresh) = some y ∧ Sound y Q := by
  obtain ⟨size, o, t, Q, -, -, ht, -, hu⟩ := h.allocated hc hfresh
  refine ⟨_, _, ?_, hu⟩
  simp only [Sys.exec, ht]
  rfl

theorem free (h : Sound x P) {o : ℕ} (hc : c ∈ x.created) (ho : o ∈ x.live c) :
    ∃ y Q, x.exec (.free c o) = some y ∧ Sound y Q := by
  obtain ⟨size, t, Q, -, -, ht, -, hu⟩ := h.freed hc ho
  refine ⟨_, _, ?_, hu⟩
  simp only [Sys.exec, ht]
  rfl

theorem mem_page {size o : ℕ} (ho : o ∈ objectsOf size (pgsize / size) p) :
    pageToVirt p ≤ o ∧ o + size ≤ pageToVirt p + pgsize := by
  obtain ⟨i, hi, rfl⟩ := mem_objectsOf.mp ho
  have := offset_lt (Nat.div_mul_le_self pgsize size) hi
  omega

theorem write (h : Sound x P) {o : ℕ} {word : ℕ → ℕ} (hc : c ∈ x.created) (ho : o ∈ x.live c)
    (hw : ∀ a, a + 8 ≤ o ∨ o + (x.heap.mem.caches c).size ≤ a → word a = x.heap.mem.word a) :
    Sound { x with heap :=
      { x.heap with mem := { x.heap.mem with word }, returned := none } } P := by
  obtain ⟨size, hs, hfit⟩ := h.fits c hc
  have hg := hfit.good
  rw [hg.lists.size] at hw
  rw [← h.live c hc] at ho
  obtain ⟨p, hp, hop⟩ := hg.inv.exists_page (Good.mem_live ho)
  obtain ⟨hlc, hlf, -⟩ := hg.disjoint
  have hpage := mem_page hop
  refine h.keep (fun c' hc' size' hs' hg' => ?_) fun p hp => hp
  have hfree : ∀ o', o' ∈ (P c').all → (c' = c → o' ≠ o) → word o' = x.heap.mem.word o' := by
    intro o' ho' hne
    obtain ⟨q, hq, hoq⟩ := hg'.inv.exists_page ho'
    have hpage' := mem_page hoq
    refine hw o' ?_
    by_cases hcc : c' = c
    · subst hcc
      have hsz : size' = size := hg'.lists.size.symm.trans hg.lists.size
      subst hsz
      rcases disjoint_objects hg.fit hg.pos hoq hop (hne rfl) with hd | hd <;> omega
    · have hpq : p ≠ q := by
        rintro rfl
        exact h.slabs c' c hcc hq hp
      unfold pageToVirt at hpage hpage'
      unfold pgsize at hpage hpage'
      omega
  refine ⟨⟨hg'.lists.size, hg'.lists.perSlab, ?_, hg'.lists.count, hg'.lists.page, ?_,
    hg'.lists.inuse, hg'.lists.slab⟩, hg'.part.congr rfl rfl, hg'.inv, hg'.fit, hg'.pos, hg'.objs⟩
  · refine hg'.lists.cpu.congr fun o' ho' => hfree o' (Good.mem_cpu ho') ?_
    rintro rfl rfl
    exact hlc ho ho'
  · intro q hq
    refine (hg'.lists.free q hq).congr fun o' ho' => hfree o' (Good.mem_free hq ho') ?_
    rintro rfl rfl
    exact hlf q hq ho ho'

theorem other (h : Sound x P) {X : List ℕ} {mem : State} (hX : Apart X x.heap.mem mem)
    (hm : ∀ p ∈ X, (x.heap.mem.pages p).flags &&& pgSlab = 0 ∧ (mem.pages p).flags &&& pgSlab = 0) :
    Sound { x with heap := { x.heap with mem, returned := none } } P := by
  refine h.keep (fun c hc size hs hg => ?_) fun p hp => ?_
  · have hf : Frame (c + 1) X x.heap.mem mem :=
      ⟨fun _ _ => congrFun hX.caches _, hX.pages, fun e _ => hX.links e, hX.word⟩
    refine hg.frame hf (by omega) fun p hp hx => ?_
    have := (hm p hx).1
    rw [h.flags hp] at this
    exact absurd this (by decide)
  · have hx : p ∉ X := fun hx => hp (hm p hx).2
    rwa [hX.pages p hx] at hp

theorem step {e : Event} (h : Sound x P) (hok : x.admits e) :
    ∃ y Q, x.exec e = some y ∧ Sound y Q := by
  cases e with
  | create c size => exact h.create hok.1 hok.2.1 hok.2.2
  | alloc c fresh => exact h.alloc hok.1 hok.2
  | free c o => exact h.free hok.1 hok.2
  | write c o word => exact ⟨_, P, rfl, h.write hok.1 hok.2.1 hok.2.2⟩
  | other X mem => exact ⟨_, P, rfl, h.other hok.1 hok.2⟩

end Sound

theorem start_sound {mem : State} (hs : ∀ p, (mem.pages p).flags &&& pgSlab = 0) :
    Sound (start mem) fun _ => Pool.empty := by
  refine ⟨nofun, fun _ _ => rfl, nofun, fun _ _ _ => by simp [Pool.empty], fun p hp => ?_, nofun⟩
  exact absurd (hs p) hp

/-- From a memory without slab pages, in every run, the slab pages of every cache are as the lists
and counters say, and no assertion fails. -/
theorem slab_pages_safe {mem : State} {l : List Event} {x : Sys}
    (hs : ∀ p, (mem.pages p).flags &&& pgSlab = 0) (h : Runs Step (start mem) l x) :
    (∀ c ∈ x.created, ∃ slabs part cpu, Safe x c slabs part cpu) ∧
      ∀ e, x.admits e → ∃ y, x.exec e = some y := by
  obtain ⟨P, hP⟩ : ∃ P, Sound x P := by
    refine Runs.invariant (P := fun x => ∃ P, Sound x P) h ?_ ⟨_, start_sound hs⟩
    rintro x e y ⟨P, hP⟩ ⟨hok, he⟩
    obtain ⟨y', Q, he', hQ⟩ := hP.step hok
    obtain rfl := Option.some.inj (he.symm.trans he')
    exact ⟨Q, hQ⟩
  refine ⟨fun c hc => ⟨_, _, _, hP.safe hc⟩, fun e he => ?_⟩
  obtain ⟨y, -, hy, -⟩ := hP.step he
  exact ⟨y, hy⟩

/-- Two pages of two objects; the objects of the first page are freed. -/
def twoPages : List Event :=
  [.create 0 2048, .alloc 0 (some 5), .alloc 0 none, .alloc 0 (some 6), .free 0 (pageToVirt 5),
    .free 0 (pageToVirt 5 + 2048)]

/-- A call of a trace, if it is admitted. -/
def Sys.call (x : Sys) : Event → Option Sys
  | .create c size =>
    if c ∉ x.created ∧ 8 ≤ size ∧ size ≤ pgsize then x.exec (.create c size) else none
  | .alloc c fresh =>
    if c ∈ x.created ∧ ∀ p ∈ fresh, (x.heap.mem.pages p).flags &&& pgSlab = 0 then
      x.exec (.alloc c fresh)
    else none
  | .free c o => if c ∈ x.created ∧ o ∈ x.live c then x.exec (.free c o) else none
  | .write .. => none
  | .other .. => none

theorem Sys.call_step {x y : Sys} {e : Event} (h : x.call e = some y) : Step x e y := by
  cases e with
  | write | other => cases h
  | create | alloc | free =>
    simp only [Sys.call, Option.ite_none_right_eq_some] at h
    exact h

theorem slab_pages_safe_twoPages : ∃ x, Runs Step (start blank) twoPages x ∧
    x.heap.returned = some 5 ∧ x.live 0 = [pageToVirt 6 + 2048] ∧
    ∃ slabs part cpu, Safe x 0 slabs part cpu := by
  have he : (twoPages.foldlM Sys.call (start blank)).map (fun x =>
      decide (x.heap.returned = some 5 ∧ x.live 0 = [pageToVirt 6 + 2048] ∧ 0 ∈ x.created)) =
        some true := by
    decide +kernel
  obtain ⟨x, hx, hd⟩ := Option.map_eq_some_iff.mp he
  obtain ⟨hret, hlive, hc⟩ := of_decide_eq_true hd
  have hr : Runs Step (start blank) twoPages x :=
    (Runs.iff_foldlM.mpr hx).mono fun _ _ _ h => Sys.call_step h
  exact ⟨x, hr, hret, hlive, (slab_pages_safe (fun _ => Nat.zero_and _) hr).1 0 hc⟩

end UCore.Slub.Lab2

import UCore.Library.Cycle
import UCore.Slub.Pool

/-! # Caches as pools

The pointers, counters and links of a cache hold the lists of a pool, and every function of the
allocator moves objects between these lists. Memory of other caches is not touched.
-/

namespace UCore.Slub

open Library

section Fields

variable (s : State) (c page addr v : ℕ) (f : Cache → Cache) (g : Page → Page) (l : Links Entry)

@[simp] theorem setCache_pages : (s.setCache c f).pages = s.pages := rfl
@[simp] theorem setCache_links : (s.setCache c f).links = s.links := rfl
@[simp] theorem setCache_word : (s.setCache c f).word = s.word := rfl
@[simp] theorem setCache_self : (s.setCache c f).caches c = f (s.caches c) :=
  Function.update_self ..
@[simp] theorem setPage_caches : (s.setPage page g).caches = s.caches := rfl
@[simp] theorem setPage_links : (s.setPage page g).links = s.links := rfl
@[simp] theorem setPage_word : (s.setPage page g).word = s.word := rfl
@[simp] theorem setPage_self : (s.setPage page g).pages page = g (s.pages page) :=
  Function.update_self ..
@[simp] theorem store_caches : (s.store addr v).caches = s.caches := rfl
@[simp] theorem store_pages : (s.store addr v).pages = s.pages := rfl
@[simp] theorem store_links : (s.store addr v).links = s.links := rfl
@[simp] theorem store_word : (s.store addr v).word = Function.update s.word addr v := rfl
@[simp] theorem setLinks_caches : (s.setLinks l).caches = s.caches := rfl
@[simp] theorem setLinks_pages : (s.setLinks l).pages = s.pages := rfl
@[simp] theorem setLinks_links : (s.setLinks l).links = l := rfl
@[simp] theorem setLinks_word : (s.setLinks l).word = s.word := rfl

variable {s c page f g}

theorem setCache_of_ne {c' : ℕ} (h : c' ≠ c) : (s.setCache c f).caches c' = s.caches c' :=
  Function.update_of_ne h _ _

theorem setPage_of_ne {p : ℕ} (h : p ≠ page) : (s.setPage page g).pages p = s.pages p :=
  Function.update_of_ne h _ _

/-- An object goes on the list of its page. -/
def State.putBack (s : State) (page object : ℕ) : State :=
  (s.store object (s.pages page).freelist).setPage page fun x => { x with freelist := object }

end Fields

/-- The state holds the objects of a pool for the cache `c`. -/
structure Lists (size n : ℕ) (s : State) (c : ℕ) (P : Pool) : Prop where
  size : (s.caches c).size = size
  perSlab : (s.caches c).objectsPerSlab = n
  cpu : Chain s.word (s.caches c).freelist P.cpu
  count : (s.caches c).freelistCount = P.cpu.length
  page : (s.caches c).page = P.cur
  free : ∀ p ∈ P.slabs, Chain s.word (s.pages p).freelist (P.free p)
  inuse : ∀ p ∈ P.slabs, (s.pages p).inuse = P.live.countP (virtToPage · = p)
  slab : ∀ p ∈ P.slabs, (s.pages p).objects = n ∧ (s.pages p).slabCache = some c ∧
    (s.pages p).flags = pgSlab

/-- The partial pages of the cache `c`, among its pages. -/
structure Partial (s : State) (c : ℕ) (slabs part : List ℕ) : Prop where
  nr : (s.caches c).nrPartial = part.length
  ring : s.links.Ring (.head c) (part.map .page)
  off : ∀ p ∈ slabs, p ∉ part → s.links.next (.page p) = .null

/-- Only the cache `c`, the pages `X` and their memory change. -/
structure Frame (c : ℕ) (X : List ℕ) (s t : State) : Prop where
  caches : ∀ c', c' ≠ c → t.caches c' = s.caches c'
  pages : ∀ p, p ∉ X → t.pages p = s.pages p
  links : ∀ e, e ≠ .head c → (∀ p ∈ X, e ≠ .page p) →
    t.links.next e = s.links.next e ∧ t.links.prev e = s.links.prev e
  word : ∀ a, virtToPage a ∉ X → t.word a = s.word a

namespace Frame

variable {c : ℕ} {X Y : List ℕ} {s t u : State}

theorem refl : Frame c X s s where
  caches _ _ := rfl
  pages _ _ := rfl
  links _ _ _ := ⟨rfl, rfl⟩
  word _ _ := rfl

theorem trans (h : Frame c X s t) (h' : Frame c X t u) : Frame c X s u where
  caches c' hc := (h'.caches c' hc).trans (h.caches c' hc)
  pages p hp := (h'.pages p hp).trans (h.pages p hp)
  links e he hX := ⟨(h'.links e he hX).1.trans (h.links e he hX).1,
    (h'.links e he hX).2.trans (h.links e he hX).2⟩
  word a ha := (h'.word a ha).trans (h.word a ha)

theorem setCache {f : Cache → Cache} : Frame c X s (s.setCache c f) where
  caches _ hc := setCache_of_ne hc
  pages _ _ := rfl
  links _ _ _ := ⟨rfl, rfl⟩
  word _ _ := rfl

theorem setPage {p : ℕ} {g : Page → Page} (hp : p ∈ X) : Frame c X s (s.setPage p g) where
  caches _ _ := rfl
  pages _ hq := setPage_of_ne fun he => hq (he ▸ hp)
  links _ _ _ := ⟨rfl, rfl⟩
  word _ _ := rfl

theorem store {a v : ℕ} (ha : virtToPage a ∈ X) : Frame c X s (s.store a v) where
  caches _ _ := rfl
  pages _ _ := rfl
  links _ _ _ := ⟨rfl, rfl⟩
  word b hb := by
    refine Function.update_of_ne ?_ _ _
    rintro rfl
    exact hb ha

end Frame

/-- A cache with its pool. -/
structure Good (size n : ℕ) (s : State) (c : ℕ) (P : Pool) : Prop where
  lists : Lists size n s c P
  part : Partial s c P.slabs P.part
  inv : P.Inv size n
  fit : n * size ≤ pgsize
  pos : 0 < size
  objs : 0 < n

namespace Partial

variable {s t : State} {c p : ℕ} {slabs part : List ℕ} {e : Entry}

theorem congr (h : Partial s c slabs part) (hl : t.links = s.links)
    (hc : (t.caches c).nrPartial = (s.caches c).nrPartial) : Partial t c slabs part where
  nr := hc.trans h.nr
  ring := by
    rw [hl]
    exact h.ring
  off := by
    rw [hl]
    exact h.off

theorem pageOnPartial_iff (h : Partial s c slabs part) (hp : p ∈ slabs) :
    s.pageOnPartial p = true ↔ p ∈ part := by
  unfold State.pageOnPartial
  constructor
  · intro hn
    by_contra hpart
    simp [h.off p hp hpart] at hn
  · intro hpart
    have hin : s.links.next (.page p) ∈ Entry.head c :: part.map .page :=
      h.ring.next_mem_ring (by simp [hpart])
    have hne : s.links.next (.page p) ≠ .null := by
      intro he
      simp [he] at hin
    simpa using hne

theorem notMem_ring (hsub : ∀ p ∈ part, p ∈ slabs) (he : e ≠ .head c)
    (hX : ∀ q ∈ slabs, e ≠ .page q) : e ∉ Entry.head c :: part.map .page := by
  intro hm
  rcases List.mem_cons.mp hm with hx | hx
  · exact he hx
  · obtain ⟨q, hq, hqe⟩ := List.mem_map.mp hx
    exact hX q (hsub q hq) hqe.symm

theorem addPartial (h : Partial s c slabs part) (hsub : ∀ p ∈ part, p ∈ slabs) (hp : p ∈ slabs) :
    Partial (s.addPartial c p) c slabs (if p ∈ part then part else p :: part) ∧
      Frame c slabs s (s.addPartial c p) ∧ (s.addPartial c p).pages = s.pages ∧
      (s.addPartial c p).word = s.word ∧
      ∃ k, (s.addPartial c p).caches c = { s.caches c with nrPartial := k } := by
  unfold State.addPartial
  by_cases hpart : p ∈ part
  · rw [if_pos ((h.pageOnPartial_iff hp).mpr hpart), if_pos hpart]
    exact ⟨h, .refl, rfl, rfl, _, rfl⟩
  · rw [if_neg fun hx => hpart ((h.pageOnPartial_iff hp).mp hx), if_neg hpart]
    have hne : Entry.page p ∉ Entry.head c :: part.map .page := by simpa using hpart
    refine ⟨⟨?_, ?_, ?_⟩, ⟨fun _ hc => setCache_of_ne hc, fun _ _ => rfl, ?_, fun _ _ => rfl⟩,
      rfl, rfl, (s.caches c).nrPartial + 1, ?_⟩
    · simp [h.nr]
    · simpa using listAdd_ring h.ring hne
    · intro q hq hqp
      have hx : q ≠ p ∧ q ∉ part := by simpa using hqp
      simpa [listAdd, listAddAfter, rawListAdd, Links.setNext_next, hx.1] using h.off q hq hx.2
    · intro e he hX
      have hnr : e ∉ Entry.head c :: part.map .page := notMem_ring hsub he hX
      have hnext : e ≠ s.links.next (.head c) := by
        rintro rfl
        exact hnr (h.ring.next_mem_ring (by simp))
      simp [listAdd, listAddAfter, rawListAdd, Links.setNext_next, Links.setPrev_prev, hX p hp, he,
        hnext]
    · simp

theorem removePartial (h : Partial s c slabs part) (hsub : ∀ q ∈ part, q ∈ slabs) (hp : p ∈ slabs) :
    Partial (s.removePartial c p) c slabs (part.erase p) ∧ Frame c slabs s (s.removePartial c p) ∧
      (s.removePartial c p).pages = s.pages ∧ (s.removePartial c p).word = s.word ∧
      ∃ k, (s.removePartial c p).caches c = { s.caches c with nrPartial := k } := by
  have hon := h.pageOnPartial_iff hp
  unfold State.removePartial
  by_cases hpart : p ∈ part
  · rw [hon.mpr hpart]
    simp only [Bool.not_true, Bool.false_eq_true, if_false]
    obtain ⟨xs, ys, rfl⟩ := List.append_of_mem hpart
    have hnd := h.ring.nodup_tail
    have herase : (xs ++ p :: ys).erase p = xs ++ ys := by
      have hxs : p ∉ xs := fun hx =>
        (List.nodup_append.mp (List.Nodup.of_map _ hnd)).2.2 p hx p (by simp) rfl
      rw [List.erase_append_right _ hxs, List.erase_cons_head]
    have hring : (listDel s.links (.page p)).Ring (.head c) ((xs ++ ys).map .page) := by
      have hr := h.ring
      rw [List.map_append, List.map_cons] at hr
      rw [List.map_append]
      exact listDel_ring hr
    have hnotin : ∀ e ∈ Entry.head c :: (xs ++ ys).map Entry.page, e ≠ .page p := by
      rintro e he rfl
      have hm : p ∈ xs ++ ys := by simpa using he
      rw [← herase] at hm
      exact (List.Nodup.of_map _ hnd).not_mem_erase hm
    rw [herase]
    refine ⟨⟨?_, ?_, ?_⟩, ⟨fun _ hc => setCache_of_ne hc, fun _ _ => rfl, ?_, fun _ _ => rfl⟩,
      rfl, rfl, (s.caches c).nrPartial - 1, ?_⟩
    · simp [h.nr]
    · refine hring.congr ?_ ?_
      · intro e he
        simp [Links.setNext_next, hnotin e he]
      · intro e he
        simp [Links.setPrev_prev, hnotin e he]
    · intro q hq hqp
      rcases eq_or_ne q p with rfl | hne
      · simp [Links.setNext_next]
      · have hout : q ∉ xs ++ p :: ys := by
          simp only [List.mem_append, List.mem_cons, not_or] at hqp ⊢
          exact ⟨hqp.1, hne, hqp.2⟩
        have hdel := (listDel_congr h.ring (x := .page p) (by simp)
          (show Entry.page q ∉ Entry.head c :: (xs ++ p :: ys).map .page by simpa using hout)).1
        simpa [Links.setNext_next, hne, hdel] using h.off q hq hout
    · intro e he hX
      have hdel := listDel_congr h.ring (x := .page p) (by simp) (notMem_ring hsub he hX)
      have hne : e ≠ .page p := hX p hp
      simpa [Links.setNext_next, Links.setPrev_prev, hne] using hdel
    · simp
  · have hoff : s.pageOnPartial p = false := by
      rw [Bool.eq_false_iff]
      exact fun hx => hpart (hon.mp hx)
    rw [hoff]
    simp only [Bool.not_false, if_true]
    rw [List.erase_of_not_mem hpart]
    exact ⟨h, .refl, trivial, trivial, _, rfl⟩

end Partial

section Words

variable {m : ℕ}

theorem inc32_eq (h : m + 1 < 2 ^ 32) : inc32 m = m + 1 := Nat.mod_eq_of_lt h

theorem dec32_eq (h : m + 1 < 2 ^ 32) : dec32 (m + 1) = m := by
  unfold dec32
  rw [show m + 1 + (2 ^ 32 - 1) = m + 2 ^ 32 from by omega, Nat.add_mod_right,
    Nat.mod_eq_of_lt (by omega)]

end Words

namespace Good

variable {size n : ℕ} {s t : State} {c c' p o v : ℕ} {P : Pool} {l X : List ℕ}

theorem nodup (h : Good size n s c P) : P.all.Nodup := h.inv.nodup h.fit h.pos

theorem page_mem (h : Good size n s c P) (ho : o ∈ P.all) : virtToPage o ∈ P.slabs :=
  h.inv.page_mem h.fit h.pos ho

theorem le_pgsize (h : Good size n s c P) : n ≤ pgsize := by
  have := Nat.le_mul_of_pos_right n h.pos
  exact this.trans h.fit

/-- Another cache does not notice. -/
theorem frame (h : Good size n s c P) (hf : Frame c' X s t) (hc : c ≠ c')
    (hX : ∀ p ∈ P.slabs, p ∉ X) : Good size n t c P := by
  have hr := h.lists
  have hcache := hf.caches c hc
  have hpage : ∀ p ∈ P.slabs, t.pages p = s.pages p := fun p hp => hf.pages p (hX p hp)
  have hword : ∀ o ∈ P.all, t.word o = s.word o := fun o ho =>
    hf.word o (hX _ (h.page_mem ho))
  have hlink : ∀ p ∈ P.slabs, t.links.next (.page p) = s.links.next (.page p) ∧
      t.links.prev (.page p) = s.links.prev (.page p) := by
    intro p hp
    refine hf.links _ (by simp) fun q hq he => ?_
    obtain rfl : p = q := by simpa using he
    exact hX p hp hq
  have hring : ∀ e ∈ Entry.head c :: P.part.map .page,
      t.links.next e = s.links.next e ∧ t.links.prev e = s.links.prev e := by
    intro e he
    rcases List.mem_cons.mp he with rfl | he
    · exact hf.links _ (by simpa using hc) (by simp)
    · obtain ⟨p, hp, rfl⟩ := List.mem_map.mp he
      exact hlink p (h.inv.part p hp).1
  refine ⟨?_, ?_, h.inv, h.fit, h.pos, h.objs⟩
  · constructor
    · rw [hcache]
      exact hr.size
    · rw [hcache]
      exact hr.perSlab
    · rw [hcache]
      exact hr.cpu.congr fun o ho => hword o (by simp [Pool.all, ho])
    · rw [hcache]
      exact hr.count
    · rw [hcache]
      exact hr.page
    · intro p hp
      rw [hpage p hp]
      refine (hr.free p hp).congr fun o ho => hword o ?_
      simp only [Pool.all, List.mem_append, List.mem_flatMap]
      exact .inr ⟨p, hp, ho⟩
    · intro p hp
      rw [hpage p hp]
      exact hr.inuse p hp
    · intro p hp
      rw [hpage p hp]
      exact hr.slab p hp
  · constructor
    · rw [hcache]
      exact h.part.nr
    · exact h.part.ring.congr (fun e he => (hring e he).1) fun e he => (hring e he).2
    · intro p hp hpart
      rw [(hlink p hp).1]
      exact h.part.off p hp hpart

theorem mem_free (hp : p ∈ P.slabs) (ho : o ∈ P.free p) : o ∈ P.all := by
  simp only [Pool.all, List.mem_append, List.mem_flatMap]
  exact .inr ⟨p, hp, ho⟩

theorem mem_cpu (ho : o ∈ P.cpu) : o ∈ P.all := by simp [Pool.all, ho]

theorem mem_live (ho : o ∈ P.live) : o ∈ P.all := by simp [Pool.all, ho]

theorem disjoint (h : Good size n s c P) : P.live.Disjoint P.cpu ∧
    (∀ p ∈ P.slabs, P.live.Disjoint (P.free p)) ∧ (∀ p ∈ P.slabs, P.cpu.Disjoint (P.free p)) ∧
    P.live.Nodup ∧ P.cpu.Nodup ∧ ∀ p ∈ P.slabs, (P.free p).Nodup := by
  have hnd := h.nodup
  unfold Pool.all at hnd
  rw [List.nodup_append', List.nodup_append', List.nodup_flatMap] at hnd
  obtain ⟨⟨hl, hc, hlc⟩, ⟨hf, -⟩, hd⟩ := hnd
  have hsub : ∀ p ∈ P.slabs, ∀ o ∈ P.free p, o ∈ P.slabs.flatMap P.free := fun p hp o ho =>
    List.mem_flatMap.mpr ⟨p, hp, ho⟩
  refine ⟨hlc, fun p hp o h₁ h₂ => ?_, fun p hp o h₁ h₂ => ?_, hl, hc, hf⟩
  · exact hd (List.mem_append_left _ h₁) (hsub p hp o h₂)
  · exact hd (List.mem_append_right _ h₁) (hsub p hp o h₂)

theorem notMem_free (h : Good size n s c P) {q : ℕ} (hq : q ∈ P.slabs) (hne : q ≠ p)
    (ho : virtToPage o = p) : o ∉ P.free q :=
  fun hm => hne ((h.inv.home q hq o hm).symm.trans ho)

theorem refillOne (h : Good size n s c P) (hp : P.cur = some p) (hf : P.free p = o :: l)
    (hlen : P.cpu.length + 1 < 2 ^ 32) :
    Good size n ((s.setPage p fun x => { x with freelist := s.word o }).cpuPush c o) c
      (P.refill p o l) ∧
      Frame c P.slabs s ((s.setPage p fun x => { x with freelist := s.word o }).cpuPush c o) := by
  have hr := h.lists
  have hmem := h.inv.cur p hp
  have ho : o ∈ P.free p := by simp [hf]
  have hhome := h.inv.home p hmem o ho
  obtain ⟨-, -, hcf, -, -, hnd⟩ := h.disjoint
  have hl : o ∉ l := by
    have := hnd p hmem
    rw [hf] at this
    exact (List.nodup_cons.mp this).1
  have h₀ := h.inv.ne_zero (mem_free hmem ho)
  have hchain : Chain s.word (s.word o) l := by
    have := hr.free p hmem
    rw [hf] at this
    exact this.2.2
  have hlists : Lists size n ((s.setPage p fun x => { x with freelist := s.word o }).cpuPush c o) c
      (P.refill p o l) := by
    constructor
    · simpa [State.cpuPush] using hr.size
    · simpa [State.cpuPush] using hr.perSlab
    · simpa [State.cpuPush, Pool.refill] using hr.cpu.push h₀ fun hm => hcf p hmem hm ho
    · simp [State.cpuPush, Pool.refill, hr.count, inc32_eq hlen]
    · simpa [State.cpuPush, Pool.refill] using hr.page
    · intro q hq
      rcases eq_or_ne q p with rfl | hqp
      · simpa [State.cpuPush, Pool.refill] using hchain.store hl
      · have hno := h.notMem_free hq hqp hhome
        simpa [State.cpuPush, Pool.refill, hqp, setPage_of_ne] using (hr.free q hq).store hno
    · intro q hq
      rcases eq_or_ne q p with rfl | hqp
      · simpa [State.cpuPush, Pool.refill] using hr.inuse q hq
      · simpa [State.cpuPush, Pool.refill, hqp, setPage_of_ne] using hr.inuse q hq
    · intro q hq
      rcases eq_or_ne q p with rfl | hqp
      · simpa [State.cpuPush] using hr.slab q hq
      · simpa [State.cpuPush, hqp, setPage_of_ne] using hr.slab q hq
  refine ⟨⟨hlists, h.part.congr rfl ?_, h.inv.refill hp hf, h.fit, h.pos, h.objs⟩, ?_⟩
  · simp [State.cpuPush]
  · refine (Frame.setPage hmem).trans (Frame.trans (Frame.store ?_) Frame.setCache)
    rwa [hhome]

theorem inuse_lt (h : Good size n s c P) (hp : p ∈ P.slabs)
    (ho : 0 < P.cpu.countP (virtToPage · = p) + (P.free p).length) :
    P.live.countP (virtToPage · = p) < n := by
  have := h.inv.card h.fit h.pos hp
  omega

theorem take (h : Good size n s c P) (hc : P.cpu = o :: l) (hlen : P.cpu.length < 2 ^ 32) :
    (s.takeObject c).1 = o ∧ Good size n (s.takeObject c).2 c (P.take o l) ∧
      Frame c P.slabs s (s.takeObject c).2 := by
  have hr := h.lists
  have hm : o ∈ P.cpu := by simp [hc]
  have hmem := h.page_mem (mem_cpu hm)
  have hcpu := hr.cpu
  rw [hc] at hcpu
  obtain ⟨hfl, -, hchain⟩ := hcpu
  have hlt : P.live.countP (virtToPage · = virtToPage o) < n := by
    refine h.inuse_lt hmem (Nat.add_pos_left (List.countP_pos_iff.mpr ⟨o, hm, ?_⟩) _)
    simp
  have hpg := h.le_pgsize
  have h32 : pgsize < 2 ^ 32 := by decide
  have hcount : dec32 (s.caches c).freelistCount = l.length := by
    rw [hr.count, hc, List.length_cons]
    rw [hc, List.length_cons] at hlen
    exact dec32_eq hlen
  obtain ⟨p, hp⟩ : ∃ p, virtToPage o = p := ⟨_, rfl⟩
  rw [hp] at hmem hlt
  have hinuse : inc32 (s.pages p).inuse = P.live.countP (virtToPage · = p) + 1 := by
    rw [hr.inuse p hmem]
    exact inc32_eq (by omega)
  have ht : s.takeObject c = (o, (s.setCache c fun x => { x with
      freelist := s.word o, freelistCount := dec32 x.freelistCount }).setPage p fun x =>
        { x with inuse := inc32 x.inuse }) := by
    simp only [State.takeObject, State.cpuPop, hfl, hp]
  rw [ht]
  dsimp only
  refine ⟨rfl, ⟨?_, h.part.congr rfl ?_, h.inv.take hc, h.fit, h.pos, h.objs⟩,
    Frame.setCache.trans (Frame.setPage hmem)⟩
  · constructor
    · simpa using hr.size
    · simpa using hr.perSlab
    · simpa [Pool.take] using hchain
    · simpa [Pool.take] using hcount
    · simpa [Pool.take] using hr.page
    · intro q hq
      rcases eq_or_ne q p with rfl | hqp
      · simpa [Pool.take] using hr.free q hq
      · simpa [Pool.take, hqp, setPage_of_ne] using hr.free q hq
    · intro q hq
      rcases eq_or_ne q p with rfl | hqp
      · simpa [Pool.take, hp] using hinuse
      · have hne : ¬ virtToPage o = q := fun he => hqp (he.symm.trans hp)
        simpa [Pool.take, hqp, setPage_of_ne, hne] using hr.inuse q hq
    · intro q hq
      rcases eq_or_ne q p with rfl | hqp
      · simpa using hr.slab q hq
      · simpa [hqp, setPage_of_ne] using hr.slab q hq
  · simp

/-- The part of `kmem_cache_free` before the flush. -/
theorem give (h : Good size n s c P) (ho : o ∈ P.live) (hlen : P.cpu.length + 1 < 2 ^ 32) :
    Good size n ((s.cpuPush c o).setPage (virtToPage o) fun x =>
        { x with inuse := dec32 x.inuse }) c (P.give o) ∧
      Frame c P.slabs s ((s.cpuPush c o).setPage (virtToPage o) fun x =>
        { x with inuse := dec32 x.inuse }) := by
  have hr := h.lists
  have hmem := h.page_mem (mem_live ho)
  have h₀ := h.inv.ne_zero (mem_live ho)
  obtain ⟨hlc, hlf, -⟩ := h.disjoint
  have hcard := h.inv.card h.fit h.pos hmem
  have hpg := h.le_pgsize
  have h32 : pgsize < 2 ^ 32 := by decide
  have hcount := (List.perm_cons_erase ho).countP_eq (virtToPage · = virtToPage o)
  obtain ⟨p, hp⟩ : ∃ p, virtToPage o = p := ⟨_, rfl⟩
  rw [List.countP_cons_of_pos (by simp)] at hcount
  rw [hp] at hmem hcard hcount ⊢
  have hinuse : dec32 (s.pages p).inuse = (P.live.erase o).countP (virtToPage · = p) := by
    rw [hr.inuse p hmem, hcount]
    exact dec32_eq (by omega)
  refine ⟨⟨?_, h.part.congr rfl ?_, h.inv.give ho, h.fit, h.pos, h.objs⟩, ?_⟩
  · constructor
    · simpa [State.cpuPush] using hr.size
    · simpa [State.cpuPush] using hr.perSlab
    · simpa [State.cpuPush, Pool.give] using hr.cpu.push h₀ fun hm => hlc ho hm
    · simp [State.cpuPush, Pool.give, hr.count, inc32_eq hlen]
    · simpa [State.cpuPush, Pool.give] using hr.page
    · intro q hq
      have hf := (hr.free q hq).store (v := (s.caches c).freelist) fun hm => hlf q hq ho hm
      rcases eq_or_ne q p with rfl | hqp
      · simpa [State.cpuPush, Pool.give] using hf
      · simpa [State.cpuPush, Pool.give, hqp, setPage_of_ne] using hf
    · intro q hq
      rcases eq_or_ne q p with rfl | hqp
      · simpa [State.cpuPush, Pool.give] using hinuse
      · have hne : ¬ virtToPage o = q := fun he => hqp (he.symm.trans hp)
        have hsame := (List.perm_cons_erase ho).countP_eq (virtToPage · = q)
        rw [List.countP_cons_of_neg (by simpa using hne)] at hsame
        rw [setPage_of_ne hqp]
        exact (hr.inuse q hq).trans hsame
    · intro q hq
      rcases eq_or_ne q p with rfl | hqp
      · simpa [State.cpuPush] using hr.slab q hq
      · simpa [State.cpuPush, hqp, setPage_of_ne] using hr.slab q hq
  · simp [State.cpuPush]
  · refine Frame.trans (Frame.trans (Frame.store ?_) Frame.setCache) (Frame.setPage hmem)
    rwa [hp]

/-- The object goes back to its page, which may have to become a partial one now. -/
theorem pushBack (h : Good size n s c P) (hc : P.cpu = o :: l) (ho : virtToPage o = p)
    (hlen : P.cpu.length < 2 ^ 32) : s.flushOne c =
      (if P.cur ≠ some p then ((s.cpuPop c).2.putBack p o).addPartial c p
        else (s.cpuPop c).2.putBack p o) ∧
      Lists size n ((s.cpuPop c).2.putBack p o) c (P.flush p o l) ∧
      Partial ((s.cpuPop c).2.putBack p o) c P.slabs P.part ∧
      Frame c P.slabs s ((s.cpuPop c).2.putBack p o) := by
  have hr := h.lists
  have hm : o ∈ P.cpu := by simp [hc]
  have hmem := h.page_mem (mem_cpu hm)
  rw [ho] at hmem
  have hcpu := hr.cpu
  rw [hc] at hcpu
  obtain ⟨hfl, h₀, hchain⟩ := hcpu
  obtain ⟨-, -, hcf, -, hnd, -⟩ := h.disjoint
  have hol : o ∉ l := by
    rw [hc] at hnd
    exact (List.nodup_cons.mp hnd).1
  have hlt : P.live.countP (virtToPage · = p) < n := by
    refine h.inuse_lt hmem (Nat.add_pos_left (List.countP_pos_iff.mpr ⟨o, hm, ?_⟩) _)
    simpa using ho
  have hcount : dec32 (s.caches c).freelistCount = l.length := by
    rw [hr.count, hc, List.length_cons]
    rw [hc, List.length_cons] at hlen
    exact dec32_eq hlen
  have ht : (s.cpuPop c).2.putBack p o = ((s.setCache c fun x => { x with
      freelist := s.word o, freelistCount := dec32 x.freelistCount }).store o
        (s.pages p).freelist).setPage p fun x => { x with freelist := o } := by
    simp [State.cpuPop, State.putBack, hfl]
  rw [ht]
  refine ⟨?_, ?_, ?_, ?_⟩
  · have hx : (s.pages p).inuse < (s.pages p).objects := by
      rwa [(hr.slab p hmem).1, hr.inuse p hmem]
    simp [State.flushOne, State.cpuPop, hfl, ho, hx, hr.page]
  · constructor
    · simpa using hr.size
    · simpa using hr.perSlab
    · simpa [Pool.flush] using hchain.store hol
    · simpa [Pool.flush] using hcount
    · simpa [Pool.flush] using hr.page
    · intro q hq
      rcases eq_or_ne q p with rfl | hqp
      · simpa [Pool.flush] using (hr.free q hq).push h₀ fun hx => hcf q hq hm hx
      · have hno := h.notMem_free hq hqp ho
        simpa [Pool.flush, hqp, setPage_of_ne] using (hr.free q hq).store hno
    · intro q hq
      rcases eq_or_ne q p with rfl | hqp
      · simpa [Pool.flush] using hr.inuse q hq
      · simpa [Pool.flush, hqp, setPage_of_ne] using hr.inuse q hq
    · intro q hq
      rcases eq_or_ne q p with rfl | hqp
      · simpa using hr.slab q hq
      · simpa [hqp, setPage_of_ne] using hr.slab q hq
  · exact h.part.congr rfl (by simp)
  · refine Frame.setCache.trans (Frame.trans (Frame.store ?_) (Frame.setPage hmem))
    rwa [ho]

end Good

end UCore.Slub

import UCore.Slub.Refine

/-! # Allocation and freeing of objects

What `kmem_cache_alloc` and `kmem_cache_free` do to the pool of their cache.
-/

namespace UCore.Slub

open Library

theorem Lists.congr {size n k : ℕ} {s t : State} {c : ℕ} {P : Pool} (h : Lists size n s c P)
    (hp : t.pages = s.pages) (hw : t.word = s.word)
    (hc : t.caches c = { s.caches c with nrPartial := k }) : Lists size n t c P := by
  constructor
  · rw [hc]
    exact h.size
  · rw [hc]
    exact h.perSlab
  · rw [hc, hw]
    exact h.cpu
  · rw [hc]
    exact h.count
  · rw [hc]
    exact h.page
  · rw [hp, hw]
    exact h.free
  · rw [hp]
    exact h.inuse
  · rw [hp]
    exact h.slab

section Link

variable {size m cur a : ℕ}

theorem range_map_succ : (List.range (m + 2)).map (fun i => cur + i * size) =
    cur :: (List.range (m + 1)).map (fun i => cur + size + i * size) := by
  rw [List.range_succ_eq_map, List.map_cons, List.map_map]
  congr 1
  · simp
  · refine List.map_congr_left fun i _ => ?_
    change cur + (i + 1) * size = _
    rw [Nat.succ_mul]
    omega

theorem linkObjects_spec (cur : ℕ) (w : ℕ → ℕ) (hs : 0 < size) (hc : cur ≠ 0) :
    Chain (linkObjects size m cur w) cur ((List.range (m + 1)).map fun i => cur + i * size) ∧
      ∀ a, a ∉ (List.range (m + 1)).map (fun i => cur + i * size) →
        linkObjects size m cur w a = w a := by
  induction m generalizing cur w with
  | zero =>
    refine ⟨⟨by simp, by simpa using hc, by simp [linkObjects, Chain]⟩, fun a ha => ?_⟩
    have hne : a ≠ cur := by simpa using ha
    simp [linkObjects, hne]
  | succ m ih =>
    obtain ⟨hchain, hout⟩ := ih (cur + size) (Function.update w cur (cur + size)) (by omega)
    have hcur : cur ∉ (List.range (m + 1)).map fun i => cur + size + i * size := by
      intro hm
      obtain ⟨i, -, hi⟩ := List.mem_map.mp hm
      omega
    rw [range_map_succ]
    unfold linkObjects
    constructor
    · refine ⟨rfl, hc, ?_⟩
      rw [hout cur hcur, Function.update_self]
      exact hchain
    · intro a ha
      rw [List.mem_cons, not_or] at ha
      rw [hout a ha.2, Function.update_of_ne ha.1]

end Link

namespace Good

variable {size n : ℕ} {s : State} {c p o k : ℕ} {P : Pool} {l : List ℕ} {fresh : Option ℕ}

theorem part_slabs (h : Good size n s c P) : ∀ p ∈ P.part, p ∈ P.slabs :=
  fun p hp => (h.inv.part p hp).1

theorem flushOne (h : Good size n s c P) (hc : P.cpu = o :: l) (hlen : P.cpu.length < 2 ^ 32) :
    Good size n (s.flushOne c) c (P.flush (virtToPage o) o l) ∧
      Frame c P.slabs s (s.flushOne c) := by
  have hmem := h.page_mem (mem_cpu (P := P) (o := o) (by simp [hc]))
  obtain ⟨p, hp⟩ : ∃ p, virtToPage o = p := ⟨_, rfl⟩
  obtain ⟨ht, hlists, hpart, hframe⟩ := h.pushBack hc hp hlen
  have hinv := h.inv.flush hc hp (by rwa [hp] at hmem)
  rw [hp] at hmem ⊢
  rw [ht]
  by_cases hcur : P.cur = some p
  · rw [if_neg (by simpa using hcur)]
    have hflush : (P.flush p o l).part = P.part := by simp [Pool.flush, hcur]
    refine ⟨⟨hlists, ?_, hinv, h.fit, h.pos, h.objs⟩, hframe⟩
    rw [hflush]
    exact hpart
  · rw [if_pos hcur]
    obtain ⟨hpart', hframe', hpages, hword, k, hcache⟩ := hpart.addPartial h.part_slabs hmem
    refine ⟨⟨hlists.congr hpages hword hcache, ?_, hinv, h.fit, h.pos, h.objs⟩,
      hframe.trans hframe'⟩
    have hflush : (P.flush p o l).part = if p ∈ P.part then P.part else p :: P.part := by
      by_cases hm : p ∈ P.part <;> simp [Pool.flush, hcur, hm]
    rw [hflush]
    exact hpart'

/-- The objects in use and the pages stay. -/
structure Keeps (P P' : Pool) : Prop where
  slabs : P'.slabs = P.slabs
  live : P'.live = P.live

/-- A property of pools that every round of the loop preserves holds after it. -/
theorem flushLoop_of {R : Pool → Prop} (hR : ∀ {Q : Pool} {o : ℕ} {l : List ℕ}, Q.cpu = o :: l →
    slubCpuLimit < Q.cpu.length → R Q → R (Q.flush (virtToPage o) o l))
    (h : Good size n s c P) (hlen : P.cpu.length < 2 ^ 32) (hP : R P) :
    ∃ P', Good size n (State.flushLoop c k s) c P' ∧ Keeps P P' ∧
      Frame c P.slabs s (State.flushLoop c k s) ∧
      (P.cpu.length ≤ k + slubCpuLimit → P'.cpu.length ≤ slubCpuLimit) ∧ R P' := by
  induction k generalizing s P with
  | zero => exact ⟨P, h, ⟨rfl, rfl⟩, .refl, by simp, hP⟩
  | succ k ih =>
    unfold State.flushLoop
    split
    · rename_i hcond
      obtain ⟨l, hl, -⟩ := h.lists.cpu.exists_cons hcond.1
      obtain ⟨hg, hf⟩ := h.flushOne hl hlen
      have hcpu : l.length + 1 = P.cpu.length := by simp [hl]
      have hlim : slubCpuLimit < P.cpu.length := by
        rw [← h.lists.count]
        exact hcond.2
      obtain ⟨P', hg', hk, hf', hle, hP'⟩ := ih hg (by simp only [Pool.flush]; omega)
        (hR hl hlim hP)
      refine ⟨P', hg', ⟨hk.slabs, hk.live⟩, hf.trans hf', fun hx => hle ?_, hP'⟩
      simp only [Pool.flush]
      omega
    · rename_i hcond
      refine ⟨P, h, ⟨rfl, rfl⟩, .refl, fun _ => ?_, hP⟩
      by_contra hx
      refine hcond ⟨?_, ?_⟩
      · intro h₀
        rw [h.lists.cpu.eq_zero_iff] at h₀
        simp [h₀] at hx
      · rw [h.lists.count]
        omega

theorem kmemCacheFree (h : Good size n s c P) (ho : o ∈ P.live)
    (hlen : P.cpu.length ≤ slubCpuLimit) : ∃ t P', s.kmemCacheFree c o = some t ∧
      Good size n t c P' ∧ P'.slabs = P.slabs ∧ P'.live = P.live.erase o ∧
      Frame c P.slabs s t ∧ P'.cpu.length ≤ slubCpuLimit := by
  have h32 : slubCpuLimit + 2 < 2 ^ 32 := by decide
  have hmem := h.page_mem (mem_live ho)
  obtain ⟨hg, hf⟩ := h.give ho (by omega)
  have hcpu : (P.give o).cpu.length = P.cpu.length + 1 := by simp [Pool.give]
  unfold State.kmemCacheFree
  rw [if_neg (h.inv.ne_zero (mem_live ho))]
  dsimp only
  rw [if_neg (by simp [(h.lists.slab _ hmem).2.1])]
  split
  · obtain ⟨P', hg', hk, hf', hle, -⟩ := Good.flushLoop_of (R := fun _ => True)
      (k := ((s.cpuPush c o).setPage (virtToPage o)
        fun x => { x with inuse := dec32 x.inuse }).caches c |>.freelistCount)
      (fun _ _ _ => trivial) hg (by omega) trivial
    refine ⟨_, P', rfl, hg', hk.slabs, hk.live, hf.trans hf', hle ?_⟩
    rw [hg.lists.count]
    omega
  · rename_i hle
    refine ⟨_, P.give o, rfl, hg, rfl, rfl, hf, ?_⟩
    rw [hg.lists.count] at hle
    omega

theorem setCur (h : Good size n s c P) {x : Option ℕ}
    (hinv : Pool.Inv size n { P with cur := x }) :
    Good size n (s.setCache c fun y => { y with page := x }) c { P with cur := x } := by
  refine ⟨?_, h.part.congr rfl (by simp), hinv, h.fit, h.pos, h.objs⟩
  have hr := h.lists
  constructor
  · simpa using hr.size
  · simpa using hr.perSlab
  · simpa using hr.cpu
  · simpa using hr.count
  · simp
  · exact hr.free
  · exact hr.inuse
  · exact hr.slab

/-- What `allocate_slab` makes of a new page. -/
structure NewSlab (size n : ℕ) (c p : ℕ) (s t : State) : Prop where
  caches : t.caches = s.caches
  links : t.links = (s.links.setPrev (.page p) .null).setNext (.page p) .null
  chain : Chain t.word (pageToVirt p) (objectsOf size n p)
  word : ∀ a, virtToPage a ≠ p → t.word a = s.word a
  freelist : (t.pages p).freelist = pageToVirt p
  inuse : (t.pages p).inuse = 0
  slab : (t.pages p).objects = n ∧ (t.pages p).slabCache = some c ∧ (t.pages p).flags = pgSlab
  pages : ∀ q, q ≠ p → t.pages q = s.pages q

theorem allocateSlab_new (h : Good size n s c P) (p : ℕ) :
    ∃ t, s.allocateSlab c (some p) = (some p, t) ∧ NewSlab size n c p s t := by
  have hr := h.lists
  obtain ⟨m, rfl⟩ : ∃ m, n = m + 1 := ⟨n - 1, by have := h.objs; omega⟩
  have hbase : pageToVirt p ≠ 0 := by
    unfold pageToVirt vaPaOffset
    omega
  obtain ⟨hchain, hout⟩ := linkObjects_spec (m := m) (pageToVirt p) s.word h.pos hbase
  obtain ⟨t, ht⟩ : ∃ t, s.allocateSlab c (some p) = (some p, t) := ⟨_, rfl⟩
  refine ⟨t, ht, ?_⟩
  rw [State.allocateSlab, Prod.mk.injEq] at ht
  have hword : t.word = linkObjects size m (pageToVirt p) s.word := by
    rw [← ht.2]
    change linkObjects (s.caches c).size ((s.caches c).objectsPerSlab - 1) (pageToVirt p) s.word = _
    rw [hr.size, hr.perSlab]
    rfl
  have hself : (t.pages p).freelist = pageToVirt p ∧ (t.pages p).inuse = 0 ∧
      (t.pages p).objects = m + 1 ∧ (t.pages p).slabCache = some c ∧
      (t.pages p).flags = pgSlab := by
    rw [← ht.2]
    simp [State.initSlabFreelist, State.setPage, State.setLinks, hr.perSlab]
  constructor
  · rw [← ht.2]
    rfl
  · rw [← ht.2]
    rfl
  · rw [hword]
    exact hchain
  · intro a ha
    rw [hword]
    exact hout a fun hm => ha (virtToPage_of_mem h.fit h.pos hm)
  · exact hself.1
  · exact hself.2.1
  · exact hself.2.2
  · intro q hq
    rw [← ht.2]
    simp [State.initSlabFreelist, State.setPage, State.setLinks, hq]

namespace NewSlab

variable {t : State}

theorem link (N : NewSlab size n c p s t) {e : Entry} (he : e ≠ .page p) :
    t.links.next e = s.links.next e ∧ t.links.prev e = s.links.prev e := by
  rw [N.links]
  simp [Links.setNext_next, Links.setPrev_prev, he]

theorem frame (N : NewSlab size n c p s t) : Frame c (p :: P.slabs) s t := by
  constructor
  · intro c' _
    rw [N.caches]
  · intro q hq
    exact N.pages q fun he => hq (by simp [he])
  · intro e _ hX
    exact N.link (hX p (by simp))
  · intro a ha
    exact N.word a fun he => ha (by simp [he])

theorem lists (N : NewSlab size n c p s t) (h : Good size n s c P) (hp : p ∉ P.slabs) :
    Lists size n (t.setCache c fun x => { x with page := some p }) c (P.grow size n p) := by
  have hr := h.lists
  have hold : ∀ q ∈ P.slabs, q ≠ p := by
    rintro q hq rfl
    exact hp hq
  constructor
  · simpa [N.caches] using hr.size
  · simpa [N.caches] using hr.perSlab
  · have hcpu : Chain t.word (s.caches c).freelist P.cpu := by
      refine hr.cpu.congr fun o ho => N.word o fun he => hp ?_
      rw [← he]
      exact h.page_mem (mem_cpu ho)
    simpa [N.caches, Pool.grow] using hcpu
  · simpa [N.caches, Pool.grow] using hr.count
  · simp [Pool.grow]
  · intro q hq
    rcases List.mem_cons.mp hq with rfl | hq
    · have : Chain t.word (t.pages q).freelist (objectsOf size n q) := by
        rw [N.freelist]
        exact N.chain
      simpa [Pool.grow] using this
    · have hfree : Chain t.word (s.pages q).freelist (P.free q) := by
        refine (hr.free q hq).congr fun o ho => N.word o fun he => hold q hq ?_
        rw [← he]
        exact (h.inv.home q hq o ho).symm
      simpa [Pool.grow, hold q hq, N.pages q (hold q hq)] using hfree
  · intro q hq
    change (t.pages q).inuse = P.live.countP (virtToPage · = q)
    rcases List.mem_cons.mp hq with rfl | hq
    · have hzero : P.live.countP (virtToPage · = q) = 0 := by
        refine List.countP_eq_zero.mpr fun o ho => ?_
        have hne : virtToPage o ≠ q := by
          rintro rfl
          exact hp (h.page_mem (mem_live ho))
        simpa using hne
      rw [N.inuse, hzero]
    · rw [N.pages q (hold q hq)]
      exact hr.inuse q hq
  · intro q hq
    change (t.pages q).objects = _ ∧ (t.pages q).slabCache = _ ∧ (t.pages q).flags = _
    rcases List.mem_cons.mp hq with rfl | hq
    · exact N.slab
    · rw [N.pages q (hold q hq)]
      exact hr.slab q hq

theorem part (N : NewSlab size n c p s t) (h : Good size n s c P) (hp : p ∉ P.slabs) :
    Partial (t.setCache c fun x => { x with page := some p }) c (P.grow size n p).slabs
      (P.grow size n p).part := by
  have hring : ∀ e ∈ Entry.head c :: P.part.map Entry.page, e ≠ .page p := by
    rintro e he rfl
    exact hp (h.part_slabs p (by simpa using he))
  constructor
  · simpa [N.caches, Pool.grow] using h.part.nr
  · change t.links.Ring _ _
    exact h.part.ring.congr (fun e he => (N.link (hring e he)).1)
      fun e he => (N.link (hring e he)).2
  · intro q hq hqp
    change t.links.next _ = _
    rcases List.mem_cons.mp hq with rfl | hs
    · rw [N.links]
      simp [Links.setNext_next]
    · have hne : Entry.page q ≠ .page p := fun he => hp (Entry.page.inj he ▸ hs)
      rw [(N.link hne).1]
      exact h.part.off q hs hqp

end NewSlab

/-- A new slab page becomes the current one. -/
theorem allocateSlab (h : Good size n s c P) (hp : p ∉ P.slabs)
    (hc : ∀ q ∈ P.cur, P.free q = []) : ∃ t, s.allocateSlab c (some p) = (some p, t) ∧
      Good size n (t.setCache c fun x => { x with page := some p }) c (P.grow size n p) ∧
      Frame c (p :: P.slabs) s t := by
  obtain ⟨t, ht, N⟩ := allocateSlab_new h p
  exact ⟨t, ht, ⟨N.lists h hp, N.part h hp, h.inv.grow h.fit h.pos hp hc, h.fit, h.pos, h.objs⟩,
    N.frame⟩

/-- A page with free objects becomes the current one, unless there is none at all. -/
structure Acquired (size n : ℕ) (s : State) (c : ℕ) (fresh : Option ℕ) (P : Pool) (r : Option ℕ)
    (t : State) (P' : Pool) : Prop where
  good : Good size n t c P'
  frame : Frame c P'.slabs s t
  live : P'.live = P.live
  cpu : P'.cpu = P.cpu
  slabs : P'.slabs = P.slabs ∨ ∃ p, fresh = some p ∧ P'.slabs = p :: P.slabs
  some : ∀ p, r = some p → P'.cur = some p ∧ P'.free p ≠ []
  none : r = none → fresh = none ∧ P'.slabs = P.slabs ∧ ∀ p ∈ P.slabs, P.free p = []

theorem next_head (h : Good size n s c P) :
    s.links.next (.head c) = (P.part.map Entry.page ++ [Entry.head c]).head (by simp) :=
  h.part.ring.next_head

theorem part_nodup (h : Good size n s c P) : P.part.Nodup :=
  List.Nodup.of_map _ h.part.ring.nodup_tail

theorem switchSlab (h : Good size n s c P) (hc : ∀ q ∈ P.cur, P.free q = [])
    (hpart : P.part = p :: l) :
    Good size n ((s.removePartial c p).setCache c fun x => { x with page := some p }) c
        (P.switch p) ∧
      Frame c P.slabs s ((s.removePartial c p).setCache c fun x => { x with page := some p }) := by
  have hmem : p ∈ P.part := by simp [hpart]
  obtain ⟨hp', hf, hpages, hword, k, hcache⟩ :=
    h.part.removePartial h.part_slabs (h.part_slabs p hmem)
  have hinv := h.inv.switch h.part_nodup hmem hc
  refine ⟨⟨?_, ?_, hinv, h.fit, h.pos, h.objs⟩, hf.trans .setCache⟩
  · have hr := h.lists.congr hpages hword hcache
    constructor
    · simpa using hr.size
    · simpa using hr.perSlab
    · simpa [Pool.switch] using hr.cpu
    · simpa [Pool.switch] using hr.count
    · simp [Pool.switch]
    · exact hr.free
    · exact hr.inuse
    · exact hr.slab
  · exact hp'.congr rfl (by simp)

theorem nextSlab (h : Good size n s c P) (hfresh : ∀ p ∈ fresh, p ∉ P.slabs)
    (hc : ∀ q ∈ P.cur, P.free q = []) :
    ∃ r t P', s.nextSlab c fresh = (r, t) ∧ Acquired size n s c fresh P r t P' := by
  have hobjs := h.objs
  have hnext := h.next_head
  unfold State.nextSlab
  cases hpart : P.part with
  | nil =>
    have hnext : s.links.next (.head c) = .head c := by simpa [hpart] using hnext
    rw [hnext]
    dsimp only
    cases fresh with
    | none =>
      refine ⟨none, s, P, rfl, h, .refl, rfl, rfl, .inl rfl, by simp, fun _ => ⟨rfl, rfl, ?_⟩⟩
      intro p hp
      by_contra hne
      rcases h.inv.listed p hp hne with hcur | hm
      · exact hne (hc p hcur)
      · simp [hpart] at hm
    | some p =>
      obtain ⟨t, ht, hg, hf⟩ := h.allocateSlab (hfresh p rfl) hc
      rw [ht]
      refine ⟨some p, _, _, rfl, hg, hf.trans .setCache, rfl, rfl, .inr ⟨p, rfl, rfl⟩, ?_, by simp⟩
      rintro q hq
      obtain rfl : p = q := by simpa using hq
      refine ⟨rfl, ?_⟩
      simp only [Pool.grow, Function.update_self, objectsOf, ne_eq, List.map_eq_nil_iff,
        List.range_eq_nil]
      omega
  | cons p rest =>
    have hnext : s.links.next (.head c) = .page p := by simpa [hpart] using hnext
    obtain ⟨hg, hf⟩ := h.switchSlab hc hpart
    rw [hnext]
    refine ⟨some p, _, _, rfl, hg, hf, rfl, rfl, .inl rfl, ?_, by simp⟩
    rintro q hq
    obtain rfl : p = q := by simpa using hq
    exact ⟨rfl, (h.inv.part p (by simp [hpart])).2.1⟩

theorem acquireSlab (h : Good size n s c P) (hfresh : ∀ p ∈ fresh, p ∉ P.slabs) :
    ∃ r t P', s.acquireSlab c fresh = (r, t) ∧ Acquired size n s c fresh P r t P' := by
  have hpage := h.lists.page
  unfold State.acquireSlab
  cases hcur : P.cur with
  | none =>
    rw [hcur] at hpage
    rw [hpage]
    exact h.nextSlab hfresh (by simp [hcur])
  | some p =>
    rw [hcur] at hpage
    rw [hpage]
    dsimp only
    have hmem := h.inv.cur p hcur
    have hchain := h.lists.free p hmem
    split
    · rename_i hfree
      have hne : P.free p ≠ [] := fun he => hfree (hchain.eq_zero_iff.mpr he)
      refine ⟨some p, s, P, rfl, h, .refl, rfl, rfl, .inl rfl, ?_, by simp⟩
      rintro q hq
      obtain rfl : p = q := by simpa using hq
      exact ⟨hcur, hne⟩
    · rename_i hfree
      have hnil : P.free p = [] := hchain.eq_zero_iff.mp (by simpa using hfree)
      have hc : ∀ q ∈ P.cur, P.free q = [] := by
        intro q hq
        obtain rfl : p = q := by simpa [hcur] using hq
        exact hnil
      split
      · obtain ⟨r, t, P', ht, ha⟩ := (h.setCur (h.inv.retire hc)).nextSlab hfresh (by simp)
        exact ⟨r, t, P', ht, ha.good, Frame.setCache.trans ha.frame, ha.live, ha.cpu, ha.slabs,
          ha.some, ha.none⟩
      · exact h.nextSlab hfresh hc

theorem refillLoop_of {R : Pool → Prop} (hR : ∀ {Q : Pool} {o : ℕ} {l : List ℕ}, Q.Inv size n →
    Q.cur = some p → Q.free p = o :: l → R Q → R (Q.refill p o l))
    (h : Good size n s c P) (hcur : P.cur = some p)
    (hlen : P.cpu.length + k < 2 ^ 32) (hP : R P) :
    ∃ P', Good size n (State.refillLoop c p k s) c P' ∧ Keeps P P' ∧
      Frame c P.slabs s (State.refillLoop c p k s) ∧ P'.cpu.length ≤ P.cpu.length + k ∧
      (P.cpu ≠ [] ∨ 0 < k ∧ P.free p ≠ [] → P'.cpu ≠ []) ∧ R P' := by
  induction k generalizing s P with
  | zero => exact ⟨P, h, ⟨rfl, rfl⟩, .refl, by simp, by simp, hP⟩
  | succ k ih =>
    have hmem := h.inv.cur p hcur
    have hchain := h.lists.free p hmem
    unfold State.refillLoop
    dsimp only
    split
    · rename_i h₀
      have hnil := hchain.eq_zero_iff.mp h₀
      exact ⟨P, h, ⟨rfl, rfl⟩, .refl, by omega, by simp [hnil], hP⟩
    · rename_i h₀
      obtain ⟨l, hl, -⟩ := hchain.exists_cons h₀
      obtain ⟨hg, hf⟩ := h.refillOne hcur hl (by omega)
      obtain ⟨P', hg', hk, hf', hle, hne, hP'⟩ :=
        ih hg hcur (by simp [Pool.refill]; omega) (hR h.inv hcur hl hP)
      refine ⟨P', hg', ⟨hk.slabs, hk.live⟩, hf.trans hf', ?_,
        fun _ => hne (.inl (by simp [Pool.refill])), hP'⟩
      simp only [Pool.refill, List.length_cons] at hle
      omega

/-- What `kmem_cache_alloc` does. -/
structure Allocated (size n : ℕ) (s : State) (c : ℕ) (fresh : Option ℕ) (P : Pool) (o : ℕ)
    (t : State) (P' : Pool) : Prop where
  good : Good size n t c P'
  frame : Frame c P'.slabs s t
  slabs : P'.slabs = P.slabs ∨ ∃ p, fresh = some p ∧ P'.slabs = p :: P.slabs
  cpu : P'.cpu.length ≤ slubCpuLimit
  live : o ≠ 0 → P'.live = o :: P.live
  null : o = 0 → P'.live = P.live ∧ P'.slabs = P.slabs ∧ fresh = none ∧ P.cpu = [] ∧
    ∀ p ∈ P.slabs, P.free p = []

theorem kmemCacheAlloc (h : Good size n s c P) (hfresh : ∀ p ∈ fresh, p ∉ P.slabs)
    (hlen : P.cpu.length ≤ slubCpuLimit) : ∃ o t P', s.kmemCacheAlloc c fresh = (o, t) ∧
      Allocated size n s c fresh P o t P' := by
  have h32 : slubCpuLimit < 2 ^ 32 := by decide
  have h8 : slubCpuBatch ≤ slubCpuLimit := by decide
  unfold State.kmemCacheAlloc
  split
  · rename_i h₀
    have hcpu := h.lists.cpu.eq_zero_iff.mp h₀
    obtain ⟨r, t, P₁, ht, ha⟩ := h.acquireSlab hfresh
    unfold State.refillCpuFreelist
    rw [ht]
    cases r with
    | none =>
      obtain ⟨h₁, h₂, h₃⟩ := ha.none rfl
      refine ⟨0, t, P₁, rfl, ha.good, ha.frame, ha.slabs, ?_, by simp,
        fun _ => ⟨ha.live, h₂, h₁, hcpu, h₃⟩⟩
      rw [ha.cpu, hcpu]
      simp
    | some p =>
      obtain ⟨hcur, hne⟩ := ha.some p rfl
      have hnil : P₁.cpu = [] := ha.cpu.trans hcpu
      obtain ⟨P₂, hg₂, hk, hf₂, hle, hne₂, -⟩ := Good.refillLoop_of (R := fun _ => True)
        (k := slubCpuBatch) (fun _ _ _ _ => trivial) ha.good hcur (by
          rw [hnil]
          decide) trivial
      have hne₂ := hne₂ (.inr ⟨by decide, hne⟩)
      obtain ⟨o, l, hl⟩ := List.exists_cons_of_ne_nil hne₂
      have hfl : ((State.refillLoop c p slubCpuBatch t).caches c).freelist ≠ 0 := fun hz =>
        hne₂ (hg₂.lists.cpu.eq_zero_iff.mp hz)
      rw [hnil] at hle
      have hle' : P₂.cpu.length ≤ slubCpuBatch := by simpa using hle
      obtain ⟨ho, hg₃, hf₃⟩ := hg₂.take hl (by omega)
      dsimp only
      rw [decide_eq_true hfl]
      have hmem : o ∈ P₂.all := mem_cpu (by simp [hl])
      refine ⟨o, _, _, Prod.ext ho rfl, hg₃, ?_, ?_, ?_, fun _ => ?_, fun hz => ?_⟩
      · rw [← hk.slabs] at hf₂
        have hf := ha.frame
        rw [← hk.slabs] at hf
        exact (hf.trans hf₂).trans hf₃
      · simp only [Pool.take, hk.slabs]
        exact ha.slabs
      · simp only [Pool.take]
        have : P₂.cpu.length = l.length + 1 := by simp [hl]
        omega
      · simp only [Pool.take, hk.live, ha.live]
      · exact absurd hz (hg₂.inv.ne_zero hmem)
  · rename_i h₀
    obtain ⟨l, hl, -⟩ := h.lists.cpu.exists_cons h₀
    obtain ⟨ho, hg, hf⟩ := h.take hl (by omega)
    refine ⟨_, _, _, Prod.ext ho rfl, hg, hf, .inl rfl, ?_, fun _ => rfl, fun hz => absurd hz h₀⟩
    simp only [Pool.take]
    have : P.cpu.length = l.length + 1 := by simp [hl]
    omega

end Good

end UCore.Slub

import UCore.Slub.Lab2

/-! # The slab pages of a cache

Every page of a cache but the current one has live objects, and the list of the processor has
objects of the current page only. A page that is given back has no object outside its own list.
-/

namespace UCore.Slub.Lab2

open Library

/-- Free objects outside the lists of the pages are in the current page, the only one that may have
no live objects. -/
structure Tight (P : Pool) : Prop where
  cpu : ∀ o ∈ P.cpu, P.cur = some (virtToPage o)
  busy : ∀ p ∈ P.slabs, P.cur ≠ some p → ∃ o ∈ P.live, virtToPage o = p

/-- The heap holds a pool for the cache `c`. -/
structure Fits (size n : ℕ) (s : Heap) (c : ℕ) (P : Pool) : Prop where
  good : Good size n s.mem c P
  tight : Tight P
  active : s.activeSlabs c = P.slabs.length
  limit : P.cpu.length ≤ slubCpuLimit
  small : n < 2 ^ 16

/-- A page without its objects. -/
def drop (P : Pool) (p : ℕ) : Pool :=
  { P with slabs := P.slabs.erase p, part := P.part.erase p }

section Pools

variable {size n p o : ℕ} {s : State} {c : ℕ} {P : Pool} {l : List ℕ}

theorem Tight.all_busy (ht : Tight P) (h : Good size n s c P) (hcpu : P.cpu = [])
    (hc : ∀ q ∈ P.cur, P.free q = []) : ∀ p ∈ P.slabs, ∃ o ∈ P.live, virtToPage o = p := by
  intro p hp
  by_cases hcur : P.cur = some p
  · have hcard := h.inv.card h.fit h.pos hp
    have hobjs := h.objs
    rw [hcpu, hc p hcur, List.countP_nil, List.length_nil] at hcard
    have hpos : 0 < P.live.countP (virtToPage · = p) := by omega
    obtain ⟨o, ho, he⟩ := List.countP_pos_iff.mp hpos
    exact ⟨o, ho, by simpa using he⟩
  · exact ht.busy p hp hcur

theorem Tight.of_busy {Q : Pool} (hcpu : Q.cpu = [])
    (hb : ∀ p ∈ Q.slabs, Q.cur ≠ some p → ∃ o ∈ Q.live, virtToPage o = p) : Tight Q :=
  ⟨by simp [hcpu], hb⟩

theorem Tight.refill (ht : Tight P) (hcur : P.cur = some p) (ho : virtToPage o = p) :
    Tight (P.refill p o l) := by
  refine ⟨fun o' ho' => ?_, ht.busy⟩
  rcases List.mem_cons.mp ho' with rfl | ho'
  · rw [ho]
    exact hcur
  · exact ht.cpu o' ho'

theorem Tight.flush (ht : Tight P) (hc : P.cpu = o :: l) : Tight (P.flush (virtToPage o) o l) :=
  ⟨fun o' ho' => ht.cpu o' (by rw [hc]; exact List.mem_cons_of_mem o ho'), ht.busy⟩

theorem Tight.take (ht : Tight P) (hc : P.cpu = o :: l) : Tight (P.take o l) := by
  refine ⟨fun o' ho' => ht.cpu o' (by rw [hc]; exact List.mem_cons_of_mem o ho'),
    fun p hp hne => ?_⟩
  obtain ⟨o', ho', he⟩ := ht.busy p hp hne
  exact ⟨o', List.mem_cons_of_mem o ho', he⟩

theorem Tight.erase (ht : Tight P) (hp : p ∈ P.slabs) (hne : P.cur ≠ some p)
    (hq : virtToPage o ≠ p) : ∃ o' ∈ P.live.erase o, virtToPage o' = p := by
  obtain ⟨o', ho', he⟩ := ht.busy p hp hne
  refine ⟨o', (List.mem_erase_of_ne ?_).mpr ho', he⟩
  rintro rfl
  exact hq he

theorem Tight.give (ht : Tight P) (ho : P.cur = some (virtToPage o)) : Tight (P.give o) := by
  refine ⟨fun o' ho' => ?_, fun p hp hne => ?_⟩
  · rcases List.mem_cons.mp ho' with rfl | ho'
    · exact ho
    · exact ht.cpu o' ho'
  · refine ht.erase hp hne fun he => hne ?_
    rw [← he]
    exact ho

/-- A page all of whose objects are on its own list leaves. -/
theorem inv_drop (h : P.Inv size n) (hn : n * size ≤ pgsize) (hs : 0 < size) (hp : p ∈ P.slabs)
    (hpart : P.part.Nodup) (hcur : P.cur ≠ some p) (hl : ∀ o ∈ P.live, virtToPage o ≠ p)
    (hc : ∀ o ∈ P.cpu, virtToPage o ≠ p) : (drop P p).Inv size n := by
  have hne : ∀ {q}, q ∈ P.slabs.erase p → q ∈ P.slabs ∧ q ≠ p := by
    intro q hq
    refine ⟨List.mem_of_mem_erase hq, ?_⟩
    rintro rfl
    exact h.slabs.not_mem_erase hq
  have hmem : ∀ {q}, q ∈ P.slabs → q ≠ p → q ∈ P.slabs.erase p := fun hq hqp =>
    (List.mem_erase_of_ne hqp).mpr hq
  have hout : ∀ {f : ℕ → List ℕ}, (∀ q ∈ P.slabs, ∀ o ∈ f q, virtToPage o = q) →
      ((P.slabs.flatMap f).filter fun o => decide (virtToPage o ≠ p)).Perm
        ((P.slabs.erase p).flatMap f) := by
    intro f hf
    refine ((Pool.Inv.flatMap_split hp).filter _).trans (.of_eq ?_)
    rw [List.filter_append, List.filter_eq_nil_iff.mpr, List.nil_append,
      List.filter_eq_self.mpr]
    · intro o ho
      obtain ⟨q, hq, hoq⟩ := List.mem_flatMap.mp ho
      rw [hf q (hne hq).1 o hoq]
      simpa using (hne hq).2
    · intro o ho
      simpa using hf p hp o ho
  refine ⟨h.slabs.erase p, ?_, fun q hq => h.home q (hne hq).1, fun q hq => ?_, fun q hq hf => ?_,
    fun q hq => ?_⟩
  · have hall := (h.all.filter fun o => decide (virtToPage o ≠ p)).trans
      (hout fun q _ o ho => virtToPage_of_mem hn hs ho)
    refine List.Perm.trans ?_ hall
    have hall' : P.all.filter (fun o => decide (virtToPage o ≠ p)) =
        P.live ++ P.cpu ++ (P.slabs.flatMap P.free).filter fun o => decide (virtToPage o ≠ p) := by
      rw [Pool.all, List.filter_append, List.filter_append,
        List.filter_eq_self.mpr fun o ho => decide_eq_true (hl o ho),
        List.filter_eq_self.mpr fun o ho => decide_eq_true (hc o ho)]
    rw [hall']
    exact (hout h.home).symm.append_left _
  · have hq' := List.mem_of_mem_erase hq
    obtain ⟨h₁, h₂, h₃⟩ := h.part q hq'
    refine ⟨hmem h₁ ?_, h₂, h₃⟩
    rintro rfl
    exact hpart.not_mem_erase hq
  · rcases h.listed q (hne hq).1 hf with hx | hx
    · exact .inl hx
    · exact .inr ((List.mem_erase_of_ne (hne hq).2).mpr hx)
  · refine hmem (h.cur q hq) ?_
    rintro rfl
    exact hcur hq

end Pools

section Words

variable {m : ℕ}

theorem inc16_eq (h : m + 1 < 2 ^ 16) : inc16 m = inc32 m := by
  unfold inc16 inc32
  rw [Nat.mod_eq_of_lt h, Nat.mod_eq_of_lt (by omega)]

theorem dec16_eq (h : m < 2 ^ 16) (h₀ : 0 < m) : dec16 m = dec32 m := by
  unfold dec16 dec32
  omega

theorem setPage_congr {s : State} {p : ℕ} {f g : Page → Page} (h : f (s.pages p) = g (s.pages p)) :
    s.setPage p f = s.setPage p g := by
  rw [State.setPage, State.setPage, h]

end Words

/-- What the search for a slab page does to the heap; a new page is taken when no object is free. -/
structure Moved (size n : ℕ) (s : Heap) (c : ℕ) (fresh : Option ℕ) (P : Pool) (t : Heap)
    (P' : Pool) : Prop where
  fits : Fits size n t c P'
  frame : Frame c P'.slabs s.mem t.mem
  active : ∀ c', c' ≠ c → t.activeSlabs c' = s.activeSlabs c'
  returned : t.returned = s.returned
  slabs : P'.slabs = P.slabs ∨ ∃ p, fresh = some p ∧ P'.slabs = p :: P.slabs ∧ P.cpu = [] ∧
    ∀ q ∈ P.slabs, P.free q = []

namespace Fits

variable {size n : ℕ} {s t : Heap} {c p o : ℕ} {P Q : Pool} {l : List ℕ} {fresh : Option ℕ}

theorem setMem {mem : State} (h : Fits size n s c P) (hg : Good size n mem c Q) (ht : Tight Q)
    (hs : Q.slabs = P.slabs) (hl : Q.cpu.length ≤ slubCpuLimit) : Fits size n (s.setMem mem) c Q :=
  ⟨hg, ht, by rw [hs]; exact h.active, hl, h.small⟩

theorem nextSlab (h : Fits size n s c P) (hfresh : ∀ p ∈ fresh, p ∉ P.slabs) (hcpu : P.cpu = [])
    (hc : ∀ q ∈ P.cur, P.free q = []) :
    ∃ r t P', s.nextSlab c fresh = (r, t) ∧ Moved size n s c fresh P t P' ∧ P'.live = P.live ∧
      P'.cpu = [] ∧ ∀ p, r = some p → P'.cur = some p ∧ P'.free p ≠ [] := by
  have hg := h.good
  have hobjs := hg.objs
  have hbusy := h.tight.all_busy hg hcpu hc
  have hnext := hg.next_head
  unfold Heap.nextSlab
  cases hpart : P.part with
  | nil =>
    have hnext : s.mem.links.next (.head c) = .head c := by simpa [hpart] using hnext
    rw [hnext]
    dsimp only
    cases fresh with
    | none =>
      exact ⟨none, _, P, rfl, ⟨h.setMem hg h.tight rfl h.limit, .refl, fun _ _ => rfl,
        rfl, .inl rfl⟩, rfl, hcpu, nofun⟩
    | some p =>
      have hp := hfresh p rfl
      have hfull : ∀ q ∈ P.slabs, P.free q = [] := by
        intro q hq
        by_contra hne
        rcases hg.inv.listed q hq hne with hcur | hm
        · exact hne (hc q hcur)
        · simp [hpart] at hm
      obtain ⟨mem, hmem, hgrow, hf⟩ := hg.allocateSlab hp hc
      unfold Heap.allocateSlab
      rw [hmem]
      refine ⟨some p, _, P.grow size n p, rfl, ⟨⟨hgrow, .of_busy hcpu ?_, ?_, ?_, h.small⟩,
        hf.trans (.setCache (f := fun x => { x with page := some p })), ?_, rfl,
        .inr ⟨p, rfl, rfl, hcpu, hfull⟩⟩, rfl, hcpu, ?_⟩
      · intro q hq hne
        rcases List.mem_cons.mp hq with rfl | hq
        · exact absurd rfl hne
        · exact hbusy q hq
      · simp [Pool.grow, h.active]
      · exact h.limit
      · intro c' hc'
        simp [hc']
      · rintro q hq
        obtain rfl : p = q := by simpa using hq
        refine ⟨rfl, ?_⟩
        simp only [Pool.grow, Function.update_self, objectsOf, ne_eq, List.map_eq_nil_iff,
          List.range_eq_nil]
        omega
  | cons p rest =>
    have hnext : s.mem.links.next (.head c) = .page p := by simpa [hpart] using hnext
    obtain ⟨hsw, hf⟩ := hg.switchSlab hc hpart
    rw [hnext]
    refine ⟨some p, _, P.switch p, rfl, ⟨h.setMem hsw (.of_busy hcpu fun q hq _ => hbusy q hq) rfl
      h.limit, hf, fun _ _ => rfl, rfl, .inl rfl⟩, rfl, hcpu, ?_⟩
    rintro q hq
    obtain rfl : p = q := by simpa using hq
    exact ⟨rfl, (hg.inv.part p (by simp [hpart])).2.1⟩

theorem acquireSlab (h : Fits size n s c P) (hfresh : ∀ p ∈ fresh, p ∉ P.slabs)
    (hcpu : P.cpu = []) :
    ∃ r t P', s.acquireSlab c fresh = (r, t) ∧ Moved size n s c fresh P t P' ∧ P'.live = P.live ∧
      P'.cpu = [] ∧ ∀ p, r = some p → P'.cur = some p ∧ P'.free p ≠ [] := by
  have hg := h.good
  have hpage := hg.lists.page
  unfold Heap.acquireSlab
  cases hcur : P.cur with
  | none =>
    rw [hcur] at hpage
    rw [hpage]
    exact h.nextSlab hfresh hcpu (by simp [hcur])
  | some p =>
    rw [hcur] at hpage
    rw [hpage]
    dsimp only
    have hchain := hg.lists.free p (hg.inv.cur p hcur)
    split
    · rename_i hfree
      have hne : P.free p ≠ [] := fun he => hfree (hchain.eq_zero_iff.mpr he)
      refine ⟨some p, s, P, rfl, ⟨h, .refl, fun _ _ => rfl, rfl, .inl rfl⟩, rfl, hcpu, ?_⟩
      rintro q hq
      obtain rfl : p = q := by simpa using hq
      exact ⟨hcur, hne⟩
    · rename_i hfree
      have hnil : P.free p = [] := hchain.eq_zero_iff.mp (by simpa using hfree)
      have hc : ∀ q ∈ P.cur, P.free q = [] := by
        intro q hq
        obtain rfl : p = q := by simpa [hcur] using hq
        exact hnil
      split
      · have hbusy := h.tight.all_busy hg hcpu hc
        have hret : Fits size n (s.setMem (s.mem.setCache c fun x => { x with page := none })) c
            P.retire :=
          h.setMem (hg.setCur (hg.inv.retire hc))
            (.of_busy hcpu fun q hq _ => hbusy q hq) rfl h.limit
        obtain ⟨r, t, P', ht, hm, hrest⟩ := hret.nextSlab hfresh hcpu (by
          simp [Pool.retire])
        exact ⟨r, t, P', ht, ⟨hm.fits,
          (Frame.setCache (f := fun x => { x with page := none })).trans hm.frame, hm.active,
            hm.returned, hm.slabs⟩,
          hrest⟩
      · exact h.nextSlab hfresh hcpu hc

/-- The fast path: the current page is given up with its last free object. -/
theorem takeObject (h : Fits size n s c P) (hc : P.cpu = o :: l) :
    ∃ t P', s.takeObject c = (o, t) ∧ Fits size n t c P' ∧ Frame c P.slabs s.mem t.mem ∧
      t.activeSlabs = s.activeSlabs ∧ t.returned = s.returned ∧ P'.slabs = P.slabs ∧
      P'.live = o :: P.live := by
  have hg := h.good
  have h32 : slubCpuLimit < 2 ^ 32 := by decide
  have hlim := h.limit
  have hm : o ∈ P.cpu := by simp [hc]
  have hmem := hg.page_mem (Good.mem_cpu hm)
  have hcur := h.tight.cpu o hm
  obtain ⟨ho, hgt, hft⟩ := hg.take hc (by omega)
  obtain ⟨p, hp⟩ : ∃ p, virtToPage o = p := ⟨_, rfl⟩
  rw [hp] at hmem hcur
  have hlt : P.live.countP (virtToPage · = p) < n := by
    refine hg.inuse_lt hmem (Nat.add_pos_left (List.countP_pos_iff.mpr ⟨o, hm, ?_⟩) _)
    simpa using hp
  have hfl : (s.mem.caches c).freelist = o := by
    have := hg.lists.cpu
    rw [hc] at this
    exact this.1
  have hpop : (s.mem.cpuPop c).2.setPage p (fun x => { x with inuse := inc16 x.inuse }) =
      (s.mem.takeObject c).2 := by
    have hinc : inc16 (s.mem.pages p).inuse = inc32 (s.mem.pages p).inuse := by
      rw [hg.lists.inuse p hmem]
      exact inc16_eq (by have := h.small; omega)
    simp only [State.takeObject, State.cpuPop, hfl, hp]
    exact setPage_congr (by simp [hinc])
  have hT : Fits size n (s.setMem (s.mem.takeObject c).2) c (P.take o l) := by
    refine h.setMem hgt (h.tight.take hc) rfl ?_
    simp only [Pool.take]
    have : P.cpu.length = l.length + 1 := by simp [hc]
    omega
  have hfst : (s.mem.cpuPop c).1 = o := hfl
  unfold Heap.takeObject
  generalize hu : (s.mem.takeObject c).2 = u at *
  cases hpp : s.mem.cpuPop c with
  | mk object mem =>
  rw [hpp] at hpop hfst
  dsimp only at hpop hfst
  subst hfst
  dsimp only
  rw [hp, hpop]
  have hpart : p ∉ P.part := fun hx => (hg.inv.part p hx).2.2 hcur
  split
  · rename_i hfull
    have hoff : u.pageOnPartial p = false := by
      rw [Bool.eq_false_iff]
      exact fun hx => hpart ((hgt.part.pageOnPartial_iff hmem).mp hx)
    rw [hoff]
    simp only [Bool.false_eq_true, if_false]
    split
    · rename_i hcond
      have hl : l = [] := hgt.lists.cpu.eq_zero_iff.mp hcond.2.1
      have hf : P.free p = [] := (hgt.lists.free p hmem).eq_zero_iff.mp hcond.2.2
      have hcf : ∀ q ∈ (P.take object l).cur, (P.take object l).free q = [] := by
        intro q hq
        obtain rfl : p = q := by simpa [Pool.take, hcur] using hq
        exact hf
      have hbusy := hT.tight.all_busy hgt hl hcf
      refine ⟨_, (P.take object l).retire, rfl, hT.setMem (hgt.setCur (hgt.inv.retire hcf))
        (.of_busy hl fun q hq _ => hbusy q hq) rfl ?_,
          hft.trans (.setCache (f := fun x => { x with page := none })), rfl, rfl, rfl, rfl⟩
      exact hT.limit
    · exact ⟨_, P.take object l, rfl, hT, hft, rfl, rfl, rfl, rfl⟩
  · exact ⟨_, P.take object l, rfl, hT, hft, rfl, rfl, rfl, rfl⟩

theorem kmemCacheAlloc (h : Fits size n s c P) (hfresh : ∀ p ∈ fresh, p ∉ P.slabs) :
    ∃ o t P', s.kmemCacheAlloc c fresh = (o, t) ∧ Moved size n s c fresh P t P' ∧
      P'.live = if o = 0 then P.live else o :: P.live := by
  have h₈ : slubCpuBatch ≤ slubCpuLimit := by decide
  unfold Heap.kmemCacheAlloc
  split
  · rename_i h₀
    have hcpu := h.good.lists.cpu.eq_zero_iff.mp h₀
    obtain ⟨r, t, P₁, ht, hm, hlive, hnil, hsome⟩ := h.acquireSlab hfresh hcpu
    unfold Heap.refillCpuFreelist
    rw [ht]
    cases r with
    | none => exact ⟨0, t, P₁, rfl, hm, by simpa using hlive⟩
    | some p =>
      obtain ⟨hcur, hne⟩ := hsome p rfl
      have hg := hm.fits.good
      obtain ⟨P₂, hg₂, hk, hf₂, hle, hne₂, ht₂⟩ := Good.refillLoop_of (R := Tight)
        (k := slubCpuBatch)
        (fun hi hq hf hQ => hQ.refill hq (hi.home p (hi.cur p hq) _ (by simp [hf]))) hg hcur (by
          rw [hnil]
          decide) hm.fits.tight
      have hne₂ := hne₂ (.inr ⟨by decide, hne⟩)
      obtain ⟨o, l, hl⟩ := List.exists_cons_of_ne_nil hne₂
      have hfl : ((State.refillLoop c p slubCpuBatch t.mem).caches c).freelist ≠ 0 := fun hz =>
        hne₂ (hg₂.lists.cpu.eq_zero_iff.mp hz)
      rw [hnil, List.length_nil] at hle
      have hfit := hm.fits.setMem hg₂ ht₂ hk.slabs (by omega)
      obtain ⟨u, P₃, hu, hfit₃, hf₃, ha₃, hr₃, hs₃, hl₃⟩ := hfit.takeObject hl
      dsimp only
      rw [decide_eq_true hfl]
      dsimp only
      rw [hu]
      have ho : o ≠ 0 := hg₂.inv.ne_zero (Good.mem_cpu (by simp [hl]))
      have hs : P₃.slabs = P₁.slabs := hs₃.trans hk.slabs
      refine ⟨o, u, P₃, rfl, ⟨hfit₃, ?_, ?_, hr₃.trans hm.returned, ?_⟩, ?_⟩
      · rw [hs]
        rw [hk.slabs] at hf₃
        exact (hm.frame.trans hf₂).trans hf₃
      · intro c' hc'
        rw [ha₃]
        exact hm.active c' hc'
      · rw [hs]
        exact hm.slabs
      · rw [if_neg ho, hl₃, hk.live, hlive]
  · rename_i h₀
    obtain ⟨l, hl, -⟩ := h.good.lists.cpu.exists_cons h₀
    obtain ⟨t, P', ht, hfit, hf, ha, hr, hs, hlive⟩ := h.takeObject hl
    rw [ht]
    refine ⟨_, t, P', rfl, ⟨hfit, by rwa [hs], fun c' _ => by rw [ha], hr, .inl hs⟩, ?_⟩
    rw [if_neg h₀, hlive]

end Fits

/-! ## Frees -/

/-- What `kmem_cache_free` does: a page may leave the cache. -/
structure Freed (size n : ℕ) (s : Heap) (c o : ℕ) (P : Pool) (t : Heap) (P' : Pool) : Prop where
  fits : Fits size n t c P'
  frame : Frame c P.slabs s.mem t.mem
  active : ∀ c', c' ≠ c → t.activeSlabs c' = s.activeSlabs c'
  live : P'.live = P.live.erase o
  slabs : t.returned = s.returned ∧ P'.slabs = P.slabs ∨
    ∃ p ∈ P.slabs, t.returned = some p ∧ P'.slabs = P.slabs.erase p ∧ (t.mem.pages p).flags = 0

section Free

variable {size n : ℕ} {s t : Heap} {c p o : ℕ} {P Q : Pool} {l : List ℕ}

theorem putBack_eq {m : State} (hd : dec32 (inc32 (m.caches c).freelistCount) =
    (m.caches c).freelistCount) :
    ((m.cpuPush c o).cpuPop c).2.putBack p o = m.putBack p o := by
  have hcache : ((m.cpuPush c o).cpuPop c).2.caches = m.caches := by
    simp [State.cpuPush, State.cpuPop, State.setCache, State.store, hd]
  have hword : ((m.cpuPush c o).cpuPop c).2.word =
      Function.update m.word o (m.caches c).freelist := rfl
  have hpages : ((m.cpuPush c o).cpuPop c).2.pages = m.pages := rfl
  have hlinks : ((m.cpuPush c o).cpuPop c).2.links = m.links := rfl
  unfold State.putBack State.setPage State.store
  simp only [hcache, hpages, hlinks, hword, Function.update_idem]

/-- A slab page leaves with its descriptor cleared. -/
theorem freeSlab_good {u : State} {part : List ℕ} (hl : Lists size n u c Q)
    (hp : Partial u c Q.slabs part) (he : Q.part.erase p = part.erase p)
    (hi : (drop Q p).Inv size n) (hm : p ∈ Q.slabs) (hnd : Q.slabs.Nodup)
    (hsub : ∀ q ∈ part, q ∈ Q.slabs) (hfit : n * size ≤ pgsize) (hs : 0 < size) (hn : 0 < n) :
    Good size n ((u.removePartial c p).setPage p fun _ => ⟨0, 0, 0, none, 0, 0, 0, 0⟩) c
        (drop Q p) ∧
      Frame c Q.slabs u ((u.removePartial c p).setPage p fun _ => ⟨0, 0, 0, none, 0, 0, 0, 0⟩) ∧
      (u.removePartial c p).pages = u.pages := by
  obtain ⟨hp', hf, hpages, hword, k, hcache⟩ := hp.removePartial hsub hm
  have hne : ∀ q ∈ Q.slabs.erase p, q ∈ Q.slabs ∧ q ≠ p := by
    intro q hq
    refine ⟨List.mem_of_mem_erase hq, ?_⟩
    rintro rfl
    exact hnd.not_mem_erase hq
  have hr := hl.congr hpages hword hcache
  refine ⟨⟨?_, ?_, hi, hfit, hs, hn⟩, hf.trans (Frame.setPage hm), hpages⟩
  · constructor
    · exact hr.size
    · exact hr.perSlab
    · exact hr.cpu
    · exact hr.count
    · exact hr.page
    · intro q hq
      rw [setPage_of_ne (hne q hq).2]
      exact hr.free q (hne q hq).1
    · intro q hq
      rw [setPage_of_ne (hne q hq).2]
      exact hr.inuse q (hne q hq).1
    · intro q hq
      rw [setPage_of_ne (hne q hq).2]
      exact hr.slab q (hne q hq).1
  · rw [drop, he]
    exact ⟨hp'.nr, hp'.ring, fun q hq => hp'.off q (hne q hq).1⟩

theorem flush_part (hcur : P.cur ≠ some p) (hp : P.part.Nodup) :
    (P.flush p o l).part.Nodup ∧ (P.flush p o l).part.erase p = P.part.erase p := by
  by_cases hm : p ∈ P.part
  · simp [Pool.flush, hm, hp]
  · simp [Pool.flush, hm, hp, hcur, List.erase_of_not_mem hm]

theorem Fits.countDown (h : Fits size n s c P) (ho : o ∈ P.live) (hp : virtToPage o = p) :
    Good size n ((s.mem.setPage p fun x => { x with inuse := dec16 x.inuse }).cpuPush c o) c
        (P.give o) ∧
      Frame c P.slabs s.mem
        ((s.mem.setPage p fun x => { x with inuse := dec16 x.inuse }).cpuPush c o) := by
  have hg := h.good
  have h32 : slubCpuLimit + 2 < 2 ^ 32 := by decide
  have hlim := h.limit
  have hmem := hg.page_mem (Good.mem_live ho)
  have hgive := hg.give ho (by omega)
  rw [hp] at hmem hgive
  have hcard := hg.inv.card hg.fit hg.pos hmem
  have hpos : 0 < P.live.countP (virtToPage · = p) :=
    List.countP_pos_iff.mpr ⟨o, ho, by simpa using hp⟩
  have hdec : dec16 (s.mem.pages p).inuse = dec32 (s.mem.pages p).inuse := by
    have hsmall := h.small
    rw [hg.lists.inuse p hmem]
    exact dec16_eq (by omega) hpos
  have hpush : (s.mem.setPage p fun x => { x with inuse := dec16 x.inuse }).cpuPush c o =
      (s.mem.cpuPush c o).setPage p fun x => { x with inuse := dec32 x.inuse } := by
    rw [setPage_congr (g := fun x => { x with inuse := dec32 x.inuse }) (by simp [hdec])]
    rfl
  rw [hpush]
  exact hgive

theorem Fits.freeCurrent {m : State} (h : Fits size n s c P) (hp : virtToPage o = p)
    (hg : Good size n (m.cpuPush c o) c (P.give o)) (hf : Frame c P.slabs s.mem (m.cpuPush c o))
    (hcur : P.cur = some p) :
    (((m.cpuPush c o).flushCpuFreelist c).caches c).freelistCount ≠ 0 ∧
      ∃ P', Freed size n s c o P (s.setMem ((m.cpuPush c o).flushCpuFreelist c)) P' := by
  have h32 : slubCpuLimit + 2 < 2 ^ 32 := by decide
  have hlim := h.limit
  obtain ⟨Q, hQ, hk, hfQ, hle, hQt, hQc⟩ := Good.flushLoop_of
    (R := fun Q => Tight Q ∧ Q.cpu ≠ []) (k := ((m.cpuPush c o).caches c).freelistCount)
    (fun hl hlt hQ => ⟨hQ.1.flush hl, by
      rintro rfl
      simp [hl] at hlt
      revert hlt
      decide⟩) hg (by simp [Pool.give]; omega)
    ⟨h.tight.give (by rw [hp]; exact hcur), by simp [Pool.give]⟩
  have hlen : Q.cpu.length ≤ slubCpuLimit := by
    refine hle ?_
    rw [hg.lists.count]
    omega
  refine ⟨?_, Q, h.setMem hQ hQt hk.slabs hlen, hf.trans hfQ, fun _ _ => rfl, hk.live,
    .inl ⟨rfl, hk.slabs⟩⟩
  unfold State.flushCpuFreelist
  rw [hQ.lists.count]
  simpa using hQc

/-- The object goes to the list of its page, which becomes a partial one or leaves the cache. -/
theorem Fits.freeOther {m : State} (h : Fits size n s c P) (ho : o ∈ P.live) (hp : virtToPage o = p)
    (hg : Good size n (m.cpuPush c o) c (P.give o)) (hf : Frame c P.slabs s.mem (m.cpuPush c o))
    (hmc : m.caches = s.mem.caches) (hcur : P.cur ≠ some p) :
    ∃ t P', (if ((m.putBack p o).pages p).inuse = 0 then
        (s.setMem ((m.putBack p o).removePartial c p)).freeSlab c p
      else if ((m.putBack p o).pages p).inuse < ((m.putBack p o).pages p).objects then
        some (s.setMem ((m.putBack p o).addPartial c p))
      else some (s.setMem (m.putBack p o))) = some t ∧ Freed size n s c o P t P' := by
  have hg₀ := h.good
  have h32 : slubCpuLimit + 2 < 2 ^ 32 := by decide
  have hlim := h.limit
  have hmem := hg₀.page_mem (Good.mem_live ho)
  rw [hp] at hmem
  have hlen : (P.give o).cpu.length < 2 ^ 32 := by
    simp only [Pool.give, List.length_cons]
    omega
  obtain ⟨hflush, hlists, hpart, hframe⟩ := hg.pushBack (P := P.give o) rfl hp hlen
  have hcyc : dec32 (inc32 (m.caches c).freelistCount) = (m.caches c).freelistCount := by
    rw [hmc, hg₀.lists.count, inc32_eq (by omega), dec32_eq (by omega)]
  rw [putBack_eq hcyc] at hflush hlists hpart hframe
  have hinuse : ((m.putBack p o).pages p).inuse = (P.live.erase o).countP (virtToPage · = p) :=
    hlists.inuse p hmem
  have hcpu : ∀ o' ∈ P.cpu, virtToPage o' ≠ p := by
    rintro o' ho' rfl
    exact hcur (h.tight.cpu o' ho')
  split
  · rename_i hz
    have hlive : ∀ o' ∈ P.live.erase o, virtToPage o' ≠ p := by
      rw [hinuse, List.countP_eq_zero] at hz
      exact fun o' ho' he => hz o' ho' (by simpa using he)
    obtain ⟨hnd, he⟩ := flush_part (P := P.give o) (o := o) (l := P.cpu) hcur hg₀.part_nodup
    obtain ⟨hfree, hff, hpages⟩ := freeSlab_good hlists hpart he
      (inv_drop (hg.inv.flush rfl hp hmem) hg₀.fit hg₀.pos hmem hnd hcur hlive hcpu) hmem
      hg₀.inv.slabs hg₀.part_slabs hg₀.fit hg₀.pos hg₀.objs
    unfold Heap.freeSlab
    rw [if_neg (by rw [hpages]; simpa using hz)]
    refine ⟨_, drop ((P.give o).flush p o P.cpu) p, rfl,
      ⟨hfree, ⟨h.tight.cpu, fun q hq hne => ?_⟩, ?_, hlim, h.small⟩, (hf.trans hframe).trans hff,
      fun c' hc' => ?_, rfl, .inr ⟨p, hmem, rfl, rfl, ?_⟩⟩
    · have hqp : virtToPage o ≠ q := by
        rintro rfl
        rw [hp] at hq
        exact hg₀.inv.slabs.not_mem_erase hq
      exact h.tight.erase (List.mem_of_mem_erase hq) hne hqp
    · change Function.update s.activeSlabs c (s.activeSlabs c - 1) c = (P.slabs.erase p).length
      rw [Function.update_self, h.active, List.length_erase_of_mem hmem]
    · exact Function.update_of_ne hc' _ _
    · simp
  · rename_i hz
    have hlt : ((m.putBack p o).pages p).inuse < ((m.putBack p o).pages p).objects := by
      rw [hinuse, (hlists.slab p hmem).1]
      exact hg.inuse_lt hmem (Nat.add_pos_left
        (List.countP_pos_iff.mpr ⟨o, List.mem_cons_self, by simpa using hp⟩) _)
    rw [if_pos hlt]
    obtain ⟨hgf, hff⟩ := hg.flushOne (P := P.give o) rfl hlen
    have hcur' : (P.give o).cur ≠ some p := hcur
    rw [hflush, if_pos hcur', hp] at hgf
    rw [hflush, if_pos hcur'] at hff
    refine ⟨_, (P.give o).flush p o P.cpu, rfl,
      h.setMem hgf ⟨h.tight.cpu, fun q hq hne => ?_⟩ rfl hlim,
      hf.trans hff, fun _ _ => rfl, rfl, .inl ⟨rfl, rfl⟩⟩
    by_cases hqp : virtToPage o = q
    · rw [hinuse] at hz
      obtain ⟨o', ho', he⟩ := List.countP_pos_iff.mp (Nat.pos_of_ne_zero hz)
      exact ⟨o', ho', by simpa [← hqp, hp] using he⟩
    · exact h.tight.erase hq hne hqp

theorem Fits.kmemCacheFree (h : Fits size n s c P) (ho : o ∈ P.live) :
    ∃ t P', s.kmemCacheFree c o = some t ∧ Freed size n s c o P t P' := by
  have hg := h.good
  have hmem := hg.page_mem (Good.mem_live ho)
  obtain ⟨-, hcache, hflags⟩ := hg.lists.slab _ hmem
  obtain ⟨hgive, hf⟩ := h.countDown ho rfl
  unfold Heap.kmemCacheFree
  rw [if_neg (hg.inv.ne_zero (Good.mem_live ho))]
  dsimp only
  rw [if_neg (by simp [hcache, hflags, pgSlab]), setPage_caches, hg.lists.page]
  by_cases hcur : P.cur = some (virtToPage o)
  · obtain ⟨hcount, P', hP⟩ := h.freeCurrent rfl hgive hf hcur
    rw [if_pos hcur, if_neg fun hx => hcount hx.2]
    exact ⟨_, P', rfl, hP⟩
  · rw [if_neg hcur]
    exact h.freeOther ho rfl hgive hf rfl hcur

end Free

end UCore.Slub.Lab2

import UCore.Library.Run
import UCore.Slub.Ops

/-! # Object safety and conservation

In every run of `kmem_cache_alloc` and `kmem_cache_free` on the eight caches no two live objects
overlap, and every object of a slab page is in use, on the list of the page, or on that of the
processor.
-/

namespace UCore.Slub

open Library

def slubSizeCount : ℕ := 8

namespace State

/-- One round of the loop of `slub_init`. -/
def initCache (s : State) (i : ℕ) : State :=
  { s with
    caches := Function.update s.caches i
      ⟨sizeTable.getD i 0, pgsize / sizeTable.getD i 0, 0, none, 0, 0⟩
    links := listInit s.links (.head i) }

def slubInit (s : State) : State := (List.range slubSizeCount).foldl initCache s

/-- The page is a slab page of the cache. -/
def isSlab (s : State) (c p : ℕ) : Prop :=
  (s.pages p).flags &&& pgSlab ≠ 0 ∧ (s.pages p).slabCache = some c

end State

/-- The memory and the live objects of each cache. -/
structure Sys where
  mem : State
  live : ℕ → List ℕ

inductive Event
  | alloc (c : ℕ) (fresh : Option ℕ)
  | free (c obj : ℕ)
  | store (c obj addr v : ℕ)

namespace Sys

variable (x : Sys)

/-- The page allocator gives pages that are in no slab, and callers use and free live objects. -/
def admits : Event → Prop
  | .alloc c fresh => c < slubSizeCount ∧ ∀ p ∈ fresh, (x.mem.pages p).flags &&& pgSlab = 0
  | .free c obj => c < slubSizeCount ∧ obj ∈ x.live c
  | .store c obj addr _ => c < slubSizeCount ∧ obj ∈ x.live c ∧ obj ≤ addr ∧
      addr < obj + (x.mem.caches c).size

instance (e : Event) : Decidable (x.admits e) := by
  cases e <;> unfold admits <;> infer_instance

def setLive (c : ℕ) (l : List ℕ) : Sys := { x with live := Function.update x.live c l }

/-- The object that `kmem_cache_alloc` returned. -/
def handOut (c o : ℕ) : Sys := if o = 0 then x else x.setLive c (o :: x.live c)

/-- One event; `none` for the panic of `kmem_cache_free`. -/
def exec : Event → Option Sys
  | .alloc c fresh =>
    match x.mem.kmemCacheAlloc c fresh with
    | (o, s) => some (Sys.handOut { x with mem := s } c o)
  | .free c obj =>
    (x.mem.kmemCacheFree c obj).map fun s =>
      Sys.setLive { x with mem := s } c ((x.live c).erase obj)
  | .store _ _ addr v => some { x with mem := x.mem.store addr v }

end Sys

def Step (x : Sys) (e : Event) (y : Sys) : Prop := x.admits e ∧ x.exec e = some y

/-- The objects of the cache `c`, with the lists of free objects. -/
structure Safe (s : State) (c : ℕ) (live cpu part : List ℕ) (free : ℕ → List ℕ) : Prop where
  onCpu : Chain s.word (s.caches c).freelist cpu
  onPage : ∀ p, s.isSlab c p → Chain s.word (s.pages p).freelist (free p)
  onPartial : s.links.Ring (.head c) (part.map .page)
  placed : ∀ o ∈ live, ∃ p i, s.isSlab c p ∧ o = pageToVirt p + i * (s.caches c).size ∧
    (i + 1) * (s.caches c).size ≤ pgsize
  apart : live.Pairwise fun o o' => o + (s.caches c).size ≤ o' ∨ o' + (s.caches c).size ≤ o
  inuse : ∀ p, s.isSlab c p → (s.pages p).inuse = live.countP (virtToPage · = p)
  objects : ∀ p, s.isSlab c p → (s.pages p).objects =
    (s.pages p).inuse + (free p).length + cpu.countP (virtToPage · = p)
  home : ∀ p, s.isSlab c p → ∀ o ∈ free p, virtToPage o = p
  disjoint : live.Disjoint cpu ∧ ∀ p, s.isSlab c p →
    live.Disjoint (free p) ∧ cpu.Disjoint (free p) ∧ cpu.Nodup ∧ (free p).Nodup
  listed : ∀ p, s.isSlab c p → free p ≠ [] →
    (s.caches c).page = some p ∧ p ∉ part ∨ (s.caches c).page ≠ some p ∧ part.count p = 1
  nrPartial : (s.caches c).nrPartial = part.length
  freelistCount : (s.caches c).freelistCount = cpu.length

def objSize (c : ℕ) : ℕ := sizeTable.getD c 0

def perSlab (c : ℕ) : ℕ := pgsize / objSize c

/-- The invariant of a run. -/
structure Sound (x : Sys) (P : ℕ → Pool) : Prop where
  good : ∀ c < slubSizeCount, Good (objSize c) (perSlab c) x.mem c (P c)
  live : ∀ c < slubSizeCount, (P c).live = x.live c
  cpu : ∀ c < slubSizeCount, (P c).cpu.length ≤ slubCpuLimit
  slabs : ∀ c < slubSizeCount, ∀ c' < slubSizeCount, c ≠ c' → (P c).slabs.Disjoint (P c').slabs
  marked : ∀ p, (x.mem.pages p).flags &&& pgSlab ≠ 0 → ∃ c < slubSizeCount, p ∈ (P c).slabs

namespace Sound

variable {x : Sys} {P : ℕ → Pool} {c p : ℕ}

theorem isSlab_iff (h : Sound x P) (hc : c < slubSizeCount) :
    x.mem.isSlab c p ↔ p ∈ (P c).slabs := by
  constructor
  · rintro ⟨hf, hs⟩
    obtain ⟨c', hc', hp⟩ := h.marked p hf
    have := ((h.good c' hc').lists.slab p hp).2.1
    rw [hs, Option.some.injEq] at this
    rwa [this]
  · intro hp
    obtain ⟨-, hs, hf⟩ := (h.good c hc).lists.slab p hp
    exact ⟨by rw [hf]; decide, hs⟩

theorem safe (h : Sound x P) (hc : c < slubSizeCount) :
    Safe x.mem c (x.live c) (P c).cpu (P c).part (P c).free := by
  have hg := h.good c hc
  have hslab : ∀ {p}, x.mem.isSlab c p → p ∈ (P c).slabs := (h.isSlab_iff hc).mp
  obtain ⟨hlc, hlf, hcf, hl, hcpu, hf⟩ := hg.disjoint
  rw [h.live c hc] at hlc hlf hl
  have hobj : ∀ o ∈ x.live c, ∃ p ∈ (P c).slabs, o ∈ objectsOf (objSize c) (perSlab c) p := by
    intro o ho
    exact hg.inv.exists_page (Good.mem_live (by rwa [h.live c hc]))
  constructor
  · exact hg.lists.cpu
  · exact fun p hp => hg.lists.free p (hslab hp)
  · exact hg.part.ring
  · intro o ho
    obtain ⟨p, hp, hm⟩ := hobj o ho
    obtain ⟨i, hi, rfl⟩ := mem_objectsOf.mp hm
    refine ⟨p, i, (h.isSlab_iff hc).mpr hp, by rw [hg.lists.size], ?_⟩
    rw [hg.lists.size, Nat.succ_mul]
    exact offset_lt hg.fit hi
  · rw [hg.lists.size]
    refine hl.imp_of_mem fun ho ho' hne => ?_
    obtain ⟨p, -, hm⟩ := hobj _ ho
    obtain ⟨q, -, hm'⟩ := hobj _ ho'
    exact disjoint_objects hg.fit hg.pos hm hm' hne
  · intro p hp
    rw [← h.live c hc]
    exact hg.lists.inuse p (hslab hp)
  · intro p hp
    have hcard := hg.inv.card hg.fit hg.pos (hslab hp)
    rw [(hg.lists.slab p (hslab hp)).1, hg.lists.inuse p (hslab hp)]
    omega
  · exact fun p hp => hg.inv.home p (hslab hp)
  · exact ⟨hlc, fun p hp => ⟨hlf p (hslab hp), hcf p (hslab hp), hcpu, hf p (hslab hp)⟩⟩
  · intro p hp hne
    have hnd : (P c).part.Nodup := List.Nodup.of_map _ hg.part.ring.nodup_tail
    rw [hg.lists.page]
    rcases hg.inv.listed p (hslab hp) hne with hcur | hm
    · exact .inl ⟨hcur, fun hm => (hg.inv.part p hm).2.2 hcur⟩
    · exact .inr ⟨(hg.inv.part p hm).2.2, List.count_eq_one_of_mem hnd hm⟩
  · exact hg.part.nr
  · exact hg.lists.count

/-- One cache and its pool change, and perhaps a new page comes to it. -/
theorem update (h : Sound x P) (hc : c < slubSizeCount) {t : State} {Q : Pool} {l : List ℕ}
    (hg : Good (objSize c) (perSlab c) t c Q) (hl : Q.live = l) (hlen : Q.cpu.length ≤ slubCpuLimit)
    (hf : Frame c Q.slabs x.mem t)
    (hs : ∀ p ∈ Q.slabs, p ∈ (P c).slabs ∨ (x.mem.pages p).flags &&& pgSlab = 0)
    (hsub : ∀ p ∈ (P c).slabs, p ∈ Q.slabs) :
    Sound (Sys.setLive { x with mem := t } c l) (Function.update P c Q) := by
  have hout : ∀ c' < slubSizeCount, c' ≠ c → ∀ p ∈ (P c').slabs, p ∉ Q.slabs := by
    intro c' hc' hne p hp hq
    rcases hs p hq with hx | hx
    · exact h.slabs c' hc' c hc hne hp hx
    · obtain ⟨-, -, hflag⟩ := (h.good c' hc').lists.slab p hp
      rw [hflag] at hx
      exact absurd hx (by decide)
  refine ⟨fun c' hc' => ?_, fun c' hc' => ?_, fun c' hc' => ?_, fun c₁ h₁ c₂ h₂ hne => ?_,
    fun p hp => ?_⟩
  · rcases eq_or_ne c' c with rfl | hne
    · simpa [Sys.setLive] using hg
    · have := (h.good c' hc').frame hf hne (hout c' hc' hne)
      simpa [Sys.setLive, hne] using this
  · rcases eq_or_ne c' c with rfl | hne
    · simpa [Sys.setLive] using hl
    · simpa [Sys.setLive, hne] using h.live c' hc'
  · rcases eq_or_ne c' c with rfl | hne
    · simpa using hlen
    · simpa [hne] using h.cpu c' hc'
  · rcases eq_or_ne c₁ c with rfl | hn₁
    · have hn₂ : c₂ ≠ c₁ := hne.symm
      rw [Function.update_self, Function.update_of_ne hn₂]
      exact fun p hp hq => hout c₂ h₂ hn₂ p hq hp
    · rw [Function.update_of_ne hn₁]
      rcases eq_or_ne c₂ c with rfl | hn₂
      · rw [Function.update_self]
        exact fun p hp hq => hout c₁ h₁ hn₁ p hp hq
      · rw [Function.update_of_ne hn₂]
        exact h.slabs c₁ h₁ c₂ h₂ hne
  · by_cases hq : p ∈ Q.slabs
    · exact ⟨c, hc, by simpa using hq⟩
    · have hp' : (t.pages p).flags &&& pgSlab ≠ 0 := hp
      rw [hf.pages p hq] at hp'
      obtain ⟨c', hc', hm⟩ := h.marked p hp'
      have hne : c' ≠ c := by
        rintro rfl
        exact hq (hsub p hm)
      exact ⟨c', hc', by simpa [hne] using hm⟩

/-- A store into a live object. -/
theorem store (h : Sound x P) (hc : c < slubSizeCount) {o a v : ℕ} (ho : o ∈ x.live c)
    (ha : o ≤ a) (hlt : a < o + (x.mem.caches c).size) :
    Sound { x with mem := x.mem.store a v } P := by
  have hg := h.good c hc
  rw [hg.lists.size] at hlt
  have ho' : o ∈ (P c).live := by rwa [h.live c hc]
  obtain ⟨p, hp, hm⟩ := hg.inv.exists_page (Good.mem_live ho')
  have hpage : virtToPage a = p := by
    obtain ⟨i, hi, rfl⟩ := mem_objectsOf.mp hm
    have := offset_lt hg.fit hi
    obtain ⟨d, rfl⟩ := Nat.exists_eq_add_of_le ha
    rw [Nat.add_assoc]
    exact virtToPage_pageToVirt (by omega)
  have hfree : ∀ o', o' ∈ (P c).all → o' ≠ o → o' ≠ a := by
    rintro o' hx hne rfl
    obtain ⟨q, -, hm'⟩ := hg.inv.exists_page hx
    rcases disjoint_objects hg.fit hg.pos hm' hm hne with hd | hd
    · have := hg.pos
      omega
    · omega
  obtain ⟨hlc, hlf, -⟩ := hg.disjoint
  have hsame : Good (objSize c) (perSlab c) (x.mem.store a v) c (P c) := by
    refine ⟨?_, hg.part.congr rfl rfl, hg.inv, hg.fit, hg.pos, hg.objs⟩
    have hr := hg.lists
    refine ⟨hr.size, hr.perSlab, ?_, hr.count, hr.page, ?_, hr.inuse, hr.slab⟩
    · refine hr.cpu.store fun hx => hfree a (Good.mem_cpu hx) ?_ rfl
      rintro rfl
      exact hlc ho' hx
    · intro q hq
      refine (hr.free q hq).store fun hx => hfree a (Good.mem_free hq hx) ?_ rfl
      rintro rfl
      exact hlf q hq ho' hx
  have hf : Frame c (P c).slabs x.mem (x.mem.store a v) := Frame.store (by rwa [hpage])
  have hu := h.update hc hsame (h.live c hc) (h.cpu c hc) hf (fun p hp => .inl hp) fun p hp => hp
  simpa [Sys.setLive] using hu

/-- One event keeps the invariant; a null pointer means that there was no object and no page. -/
theorem step {e : Event} (h : Sound x P) (hok : x.admits e) :
    ∃ y Q, x.exec e = some y ∧ Sound y Q ∧
      (∀ p, (y.mem.pages p).flags &&& pgSlab ≠ 0 →
        (x.mem.pages p).flags &&& pgSlab ≠ 0 ∨ ∃ c, e = .alloc c (some p)) ∧
      ∀ c fresh, e = .alloc c fresh →
        (x.mem.kmemCacheAlloc c fresh).1 = 0 → fresh = none ∧ (P c).cpu = [] ∧
          ∀ p, x.mem.isSlab c p → (P c).free p = [] := by
  cases e with
  | alloc c fresh =>
    obtain ⟨hc, hfresh⟩ := hok
    have hg := h.good c hc
    have hnew : ∀ p ∈ fresh, p ∉ (P c).slabs := by
      intro p hp hm
      obtain ⟨-, -, hflag⟩ := hg.lists.slab p hm
      have := hfresh p hp
      rw [hflag] at this
      exact absurd this (by decide)
    obtain ⟨o, t, Q, ht, ha⟩ := hg.kmemCacheAlloc hnew (h.cpu c hc)
    have hslabs : (∀ p ∈ Q.slabs, p ∈ (P c).slabs ∨ (x.mem.pages p).flags &&& pgSlab = 0) ∧
        ∀ p ∈ (P c).slabs, p ∈ Q.slabs := by
      rcases ha.slabs with hs | ⟨p, hp, hs⟩
      · rw [hs]
        exact ⟨fun p hp => .inl hp, fun p hp => hp⟩
      · rw [hs]
        refine ⟨fun q hq => ?_, fun q hq => List.mem_cons_of_mem p hq⟩
        rcases List.mem_cons.mp hq with rfl | hq
        · exact .inr (hfresh q hp)
        · exact .inl hq
    have hlive : Q.live = if o = 0 then x.live c else o :: x.live c := by
      rw [← h.live c hc]
      split
      · rename_i h₀
        exact (ha.null h₀).1
      · rename_i h₀
        exact ha.live h₀
    have hu := h.update hc ha.good hlive ha.cpu ha.frame hslabs.1 hslabs.2
    have hexec : x.exec (.alloc c fresh) = some (Sys.setLive { x with mem := t } c
        (if o = 0 then x.live c else o :: x.live c)) := by
      simp only [Sys.exec, ht, Sys.handOut]
      split <;> simp [Sys.setLive]
    refine ⟨_, _, hexec, hu, fun p hp => ?_, ?_⟩
    · by_cases hq : p ∈ Q.slabs
      · rcases ha.slabs with hs | ⟨q, hfq, hs⟩
        · rw [hs] at hq
          exact .inl (by rw [(hg.lists.slab p hq).2.2]; decide)
        · rw [hs] at hq
          rcases List.mem_cons.mp hq with rfl | hq
          · exact .inr ⟨c, by rw [hfq]⟩
          · exact .inl (by rw [(hg.lists.slab p hq).2.2]; decide)
      · have hp' : (t.pages p).flags &&& pgSlab ≠ 0 := hp
        rw [ha.frame.pages p hq] at hp'
        exact .inl hp'
    rintro c' fresh' he h₀
    obtain ⟨rfl, rfl⟩ : c = c' ∧ fresh = fresh' := by simpa using he
    rw [ht] at h₀
    obtain ⟨-, -, hn, hcpu, hfree⟩ := ha.null h₀
    exact ⟨hn, hcpu, fun p hp => hfree p ((h.isSlab_iff hc).mp hp)⟩
  | free c obj =>
    obtain ⟨hc, ho⟩ := hok
    have hg := h.good c hc
    rw [← h.live c hc] at ho
    obtain ⟨t, Q, ht, hq, hs, hl, hf, hle⟩ := hg.kmemCacheFree ho (h.cpu c hc)
    rw [← hs] at hf
    rw [h.live c hc] at hl
    have hu := h.update hc hq hl hle hf (by rw [hs]; exact fun p hp => .inl hp) (by simp [hs])
    refine ⟨_, _, by simp [Sys.exec, ht], hu, fun p hp => .inl ?_, by simp⟩
    by_cases hq' : p ∈ Q.slabs
    · rw [hs] at hq'
      rw [(hg.lists.slab p hq').2.2]
      decide
    · have hp' : (t.pages p).flags &&& pgSlab ≠ 0 := hp
      rwa [hf.pages p hq'] at hp'
  | store c obj addr v =>
    obtain ⟨hc, ho, ha, hlt⟩ := hok
    exact ⟨_, P, rfl, h.store hc ho ha hlt, fun p hp => .inl hp, by simp⟩

end Sound

section Start

variable {s : State}

theorem objSize_spec : ∀ c < slubSizeCount, 0 < objSize c ∧ 0 < perSlab c ∧
    perSlab c * objSize c ≤ pgsize := by
  decide

theorem foldl_initCache (n : ℕ) :
    ((List.range n).foldl State.initCache s).pages = s.pages ∧
      ∀ c < n, ((List.range n).foldl State.initCache s).caches c =
          ⟨objSize c, perSlab c, 0, none, 0, 0⟩ ∧
        ((List.range n).foldl State.initCache s).links.Ring (.head c) [] := by
  induction n with
  | zero => simp
  | succ n ih =>
    rw [List.range_succ, List.foldl_append]
    refine ⟨ih.1, fun c hc => ?_⟩
    simp only [List.foldl_cons, List.foldl_nil, State.initCache]
    rcases eq_or_ne c n with rfl | hne
    · exact ⟨by simp [objSize, perSlab], listInit_ring⟩
    · obtain ⟨h₁, h₂⟩ := ih.2 c (by omega)
      refine ⟨by simpa [hne] using h₁, h₂.congr ?_ ?_⟩
      · intro e he
        obtain rfl : e = .head c := by simpa using he
        exact (listInit_congr (by simpa using hne)).1
      · intro e he
        obtain rfl : e = .head c := by simpa using he
        exact (listInit_congr (by simpa using hne)).2

def Pool.empty : Pool := ⟨[], [], [], fun _ => [], [], none⟩

theorem sound_slubInit (hs : ∀ p, (s.pages p).flags &&& pgSlab = 0) :
    Sound ⟨s.slubInit, fun _ => []⟩ fun _ => Pool.empty := by
  obtain ⟨hpages, hcaches⟩ := foldl_initCache (s := s) slubSizeCount
  have hinv : ∀ c, Pool.Inv (objSize c) (perSlab c) Pool.empty := by
    intro c
    constructor <;> simp [Pool.empty, Pool.all]
  refine ⟨fun c hc => ?_, fun _ _ => rfl, by simp [Pool.empty], by simp [Pool.empty], ?_⟩
  · obtain ⟨hpos, hobjs, hfit⟩ := objSize_spec c hc
    obtain ⟨hcache, hring⟩ := hcaches c hc
    refine ⟨?_, ⟨?_, hring, by simp [Pool.empty]⟩, hinv c, hfit, hpos, hobjs⟩
    · constructor <;> simp [State.slubInit, hcache, Pool.empty, Chain]
    · simp [State.slubInit, hcache, Pool.empty]
  · intro p hp
    have : s.slubInit.pages = s.pages := hpages
    rw [this] at hp
    exact absurd (hs p) hp

end Start

/-- In every run the objects of each cache are safe, no free panics, and a null pointer is returned
only when the page allocator had none and the cache has no free object. -/
theorem slub_safe {s : State} {l : List Event} {x : Sys}
    (hs : ∀ p, (s.pages p).flags &&& pgSlab = 0) (hr : Runs Step ⟨s.slubInit, fun _ => []⟩ l x) :
    ∃ (cpu part : ℕ → List ℕ) (free : ℕ → ℕ → List ℕ),
      (∀ c < slubSizeCount, Safe x.mem c (x.live c) (cpu c) (part c) (free c)) ∧
      (∀ e, x.admits e → (x.exec e).isSome) ∧
      ∀ c fresh, x.admits (.alloc c fresh) → (x.mem.kmemCacheAlloc c fresh).1 = 0 →
        fresh = none ∧ cpu c = [] ∧ ∀ p, x.mem.isSlab c p → free c p = [] := by
  have hsound : ∃ P, Sound x P := by
    refine hr.invariant (P := fun x => ∃ P, Sound x P) ?_ ⟨_, sound_slubInit hs⟩
    rintro x e y ⟨P, h⟩ ⟨hok, he⟩
    obtain ⟨y', Q, he', h', -⟩ := h.step hok
    rw [he'] at he
    exact ⟨Q, Option.some.inj he ▸ h'⟩
  obtain ⟨P, h⟩ := hsound
  refine ⟨fun c => (P c).cpu, fun c => (P c).part, fun c => (P c).free, fun c hc => h.safe hc, ?_,
    ?_⟩
  · intro e hok
    obtain ⟨y, Q, he, -⟩ := h.step hok
    simp [he]
  · intro c fresh hok h₀
    obtain ⟨y, Q, -, -, -, hn⟩ := h.step hok
    exact hn c fresh rfl h₀

/-- Memory before `slub_init`. -/
def blank : State :=
  ⟨fun _ => ⟨0, 0, 0, none, 0, 0⟩, fun _ => ⟨0, 0, 0, none, 0, 0, 0, 0⟩,
    ⟨fun _ => .null, fun _ => .null⟩, fun _ => 0⟩

/-- The two objects of a page, and a third request without a page. -/
def twoObjects : List Event :=
  [.alloc 7 (some 5), .store 7 (pageToVirt 5 + 2048) (pageToVirt 5 + 2048) 1, .alloc 7 none,
    .alloc 7 none, .free 7 (pageToVirt 5), .alloc 7 none]

theorem slub_safe_twoObjects : ∃ x, Runs Step ⟨blank.slubInit, fun _ => []⟩ twoObjects x ∧
    x.live 7 = [pageToVirt 5, pageToVirt 5 + 2048] ∧
    ∃ cpu part free, Safe x.mem 7 (x.live 7) cpu part free := by
  have he : (twoObjects.foldlM (fun x e => if Sys.admits x e then x.exec e else none)
      ⟨blank.slubInit, fun _ => []⟩).map (fun x => x.live 7) =
        some [pageToVirt 5, pageToVirt 5 + 2048] := by
    decide +kernel
  obtain ⟨x, hx, hl⟩ := Option.map_eq_some_iff.mp he
  have hr : Runs Step ⟨blank.slubInit, fun _ => []⟩ twoObjects x :=
    (Runs.iff_foldlM.mpr hx).mono fun s i t h => by simpa [Step] using h
  obtain ⟨cpu, part, free, hsafe, -⟩ := slub_safe (fun _ => Nat.zero_and _) hr
  exact ⟨x, hr, hl, _, _, _, hsafe 7 (by decide)⟩

end UCore.Slub

import Mathlib.Data.Finset.Interval
import Mathlib.Order.Interval.Finset.Nat
import UCore.Slub.Safety

/-! # Pages of large objects

`kmalloc` takes a power of two of pages for an object above 2048 bytes, and `kfree` gives one page
back. So the pages held for large objects are those of the live ones exactly when no object of more
than a page was freed.
-/

namespace UCore.Slub

open Library

/-- `(1 << order) * PGSIZE`, an `int`, as the `size_t` that is compared. -/
def orderBytes (order : ℕ) : ℕ := (((2 ^ order * pgsize : ℕ) : ℤ).bmod (2 ^ 32) % 2 ^ 64).toNat

/-- The loop that finds the order of a large request, at most `n` times. -/
def orderLoop (size : ℕ) : ℕ → ℕ → Option ℕ
  | 0, _ => none
  | n + 1, order =>
    if orderBytes order < size then orderLoop size n (order + 1) else some order

/-- The order of a large request, if the loop ends. From 20 on the product is 0. -/
def orderFor (size : ℕ) : Option ℕ := orderLoop size 20 0

/-- The pages that `kmalloc` asks for, for an object of no cache. -/
def bigPages (size : ℕ) : ℕ := (orderFor size).elim 0 (2 ^ ·)

namespace State

variable (s : State)

/-- `kmalloc`; `answer` is what `alloc_pages` returns if it is called. It is `none` if the loop does
not end. -/
def kmalloc (size : ℕ) (answer : Option ℕ) : Option (ℕ × State) :=
  match getCacheForSize size with
  | none =>
    match orderFor size with
    | none => none
    | some _ =>
      match answer with
      | none => some (0, s)
      | some page => some (pageToVirt page, s)
  | some c => some (s.kmemCacheAlloc c answer)

/-- `kfree`, with the page that it hands to `free_pages`; `none` for a panic. -/
def kfree (obj : ℕ) : Option (Option ℕ × State) :=
  if obj = 0 then some (none, s)
  else
    let page := virtToPage obj
    if (s.pages page).flags &&& pgSlab ≠ 0 then
      match (s.pages page).slabCache with
      | none => some (none, s)
      | some c => (s.kmemCacheFree c obj).map (none, ·)
    else some (some page, s)

end State

/-- The caches with their live objects, the live large objects with their sizes, and the pages that
are taken for large objects. -/
structure Heap where
  slub : Sys
  bigs : List (ℕ × ℕ)
  large : Finset ℕ

inductive Call
  | kmalloc (size : ℕ) (answer : Option ℕ)
  | kfree (obj size : ℕ)
  | store (addr v : ℕ)

/-- A call that does not return: `kmalloc` of a size above every product of its loop. -/
def Call.Endless : Call → Prop
  | .kmalloc size _ => getCacheForSize size = none ∧ ∀ order, orderBytes order < size
  | _ => False

/-- The number of pages that `kmalloc` asks for, if it does. -/
def pagesFor (size : ℕ) : ℕ :=
  match getCacheForSize size with
  | none => bigPages size
  | some _ => 1

/-- The pages that `kmalloc` took for a large object. -/
def pagesOf (b : ℕ × ℕ) : Finset ℕ :=
  Finset.Ico (virtToPage b.1) (virtToPage b.1 + bigPages b.2)

namespace Heap

variable (x : Heap)

/-- A page that the page allocator may hand out. -/
def unused (p : ℕ) : Prop := (x.slub.mem.pages p).flags &&& pgSlab = 0 ∧ p ∉ x.large

def owns (addr : ℕ) : Prop :=
  (∃ c < slubSizeCount, ∃ o ∈ x.slub.live c, o ≤ addr ∧ addr < o + (x.slub.mem.caches c).size) ∨
    ∃ b ∈ x.bigs, virtToPage addr ∈ pagesOf b

/-- An object of this size that was not freed yet. -/
def isLive (obj size : ℕ) : Bool :=
  match getCacheForSize size with
  | none => (obj, size) ∈ x.bigs
  | some c => obj ∈ x.slub.live c

/-- `alloc_pages` gives unused pages, and callers free and use live objects. -/
def admits : Call → Prop
  | .kmalloc size answer =>
    ∀ page ∈ answer, ∀ p ∈ Finset.Ico page (page + pagesFor size), x.unused p
  | .kfree obj size => x.isLive obj size = true
  | .store addr _ => x.owns addr

instance (p : ℕ) : Decidable (x.unused p) := inferInstanceAs (Decidable (_ ∧ _))

instance (addr : ℕ) : Decidable (x.owns addr) := inferInstanceAs (Decidable (_ ∨ _))

instance (e : Call) : Decidable (x.admits e) := by
  cases e <;> unfold admits <;> infer_instance

def withSmall (s : State) (c o : ℕ) : Heap :=
  { x with slub := (Sys.mk s x.slub.live).handOut c o }

def withBig (s : State) (o size : ℕ) : Heap :=
  if o = 0 then { x with slub := ⟨s, x.slub.live⟩ }
  else ⟨⟨s, x.slub.live⟩, (o, size) :: x.bigs, x.large ∪ pagesOf (o, size)⟩

/-- One call; `none` for a panic and for a call that does not return. -/
def exec : Call → Option Heap
  | .kmalloc size answer =>
    match x.slub.mem.kmalloc size answer with
    | none => none
    | some (o, s) =>
      match getCacheForSize size with
      | none => some (x.withBig s o size)
      | some c => some (x.withSmall s c o)
  | .kfree obj size =>
    match x.slub.mem.kfree obj with
    | none => none
    | some (page, s) =>
      match getCacheForSize size with
      | none => some ⟨⟨s, x.slub.live⟩, x.bigs.erase (obj, size), x.large \ page.toFinset⟩
      | some c => some ⟨(Sys.mk s x.slub.live).setLive c ((x.slub.live c).erase obj), x.bigs,
          x.large \ page.toFinset⟩
  | .store addr v => some { x with slub := ⟨x.slub.mem.store addr v, x.slub.live⟩ }

/-- The pages taken for large objects are those of the live ones. -/
def Exact : Prop := ∀ p, p ∈ x.large ↔ ∃ b ∈ x.bigs, p ∈ pagesOf b

end Heap

def Calls (x : Heap) (e : Call) (y : Heap) : Prop := x.admits e ∧ x.exec e = some y

section Order

variable {size n k c : ℕ}

theorem orderBytes_eq_zero (h : 20 ≤ k) : orderBytes k = 0 := by
  have hdvd : 2 ^ 32 ∣ 2 ^ k * pgsize := by
    have hpg : pgsize = 2 ^ 12 := rfl
    rw [hpg, ← pow_add]
    exact pow_dvd_pow 2 (by omega)
  have hmod := Int.bmod_eq_zero_of_dvd (Int.natCast_dvd_natCast.mpr hdvd)
  unfold orderBytes
  rw [hmod, Int.zero_emod, Int.toNat_zero]

theorem orderLoop_spec : match orderLoop size n k with
    | none => ∀ i < n, orderBytes (k + i) < size
    | some order => k ≤ order ∧ size ≤ orderBytes order ∧ ∀ i, k ≤ i → i < order →
      orderBytes i < size := by
  induction n generalizing k with
  | zero => exact fun i hi => absurd hi (Nat.not_lt_zero i)
  | succ n ih =>
    unfold orderLoop
    by_cases hlt : orderBytes k < size
    · rw [if_pos hlt]
      have hk := @ih (k + 1)
      cases hl : orderLoop size n (k + 1) with
      | none =>
        rw [hl] at hk
        intro i hi
        cases i with
        | zero => exact hlt
        | succ i =>
          have := hk i (by omega)
          rwa [Nat.add_right_comm] at this
      | some order =>
        rw [hl] at hk
        obtain ⟨hle, hsize, hall⟩ := hk
        refine ⟨by omega, hsize, fun i hi hio => ?_⟩
        rcases hi.eq_or_lt with rfl | hi
        · exact hlt
        · exact hall i hi hio
    · rw [if_neg hlt]
      exact ⟨le_rfl, not_lt.mp hlt, fun i hi hik => absurd hik (not_lt.mpr hi)⟩

theorem orderFor_eq_none_iff : orderFor size = none ↔ ∀ order, orderBytes order < size := by
  have hspec := @orderLoop_spec size 20 0
  unfold orderFor
  cases hl : orderLoop size 20 0 with
  | none =>
    rw [hl] at hspec
    refine iff_of_true rfl fun order => ?_
    by_cases h : order < 20
    · have := hspec order h
      rwa [Nat.zero_add] at this
    · rw [orderBytes_eq_zero (by omega)]
      exact (Nat.zero_le _).trans_lt (hspec 0 (by omega))
  | some order =>
    rw [hl] at hspec
    refine iff_of_false (by simp) fun hall => ?_
    exact absurd (hall order) (not_lt.mpr hspec.2.1)

theorem orderFor_pos (h : orderFor size = some k) : k = 0 ↔ size ≤ pgsize := by
  have hspec := @orderLoop_spec size 20 0
  unfold orderFor at h
  rw [h] at hspec
  have hzero : orderBytes 0 = pgsize := by decide
  constructor
  · rintro rfl
    rw [← hzero]
    exact hspec.2.1
  · intro hle
    by_contra hne
    have := hspec.2.2 0 le_rfl (Nat.pos_of_ne_zero hne)
    omega

theorem pagesOf_spec {b : ℕ × ℕ} (h : (orderFor b.2).isSome) : virtToPage b.1 ∈ pagesOf b ∧
    (b.2 ≤ pgsize → pagesOf b = {virtToPage b.1}) ∧
    (pgsize < b.2 → virtToPage b.1 + 1 ∈ pagesOf b) := by
  obtain ⟨k, hk⟩ := Option.isSome_iff_exists.mp h
  have hpos : 0 < 2 ^ k := Nat.pow_pos (by decide)
  have hpages : bigPages b.2 = 2 ^ k := by
    rw [bigPages, hk]
    rfl
  unfold pagesOf
  rw [hpages]
  refine ⟨by simp, fun hle => ?_, fun hlt => ?_⟩
  · rw [(orderFor_pos hk).mpr hle, Nat.pow_zero, Nat.Ico_succ_singleton]
  · have hne : k ≠ 0 := fun h₀ => by
      have := (orderFor_pos hk).mp h₀
      omega
    have : 2 ^ 1 ≤ 2 ^ k := Nat.pow_le_pow_right (by decide) (by omega)
    rw [Finset.mem_Ico]
    omega

theorem Call.Endless.exec_ne {e : Call} {x y : Heap} (h : e.Endless) : x.exec e ≠ some y := by
  cases e with
  | kmalloc size answer =>
    obtain ⟨hc, hall⟩ := h
    simp [Heap.exec, State.kmalloc, hc, orderFor_eq_none_iff.mpr hall]
  | kfree obj size => exact h.elim
  | store addr v => exact h.elim

theorem getCacheForSize_lt (h : getCacheForSize size = some c) : c < slubSizeCount := by
  have := (List.findIdx?_eq_some_iff_findIdx_eq.mp h).1
  exact this

theorem le_of_getCacheForSize (h : getCacheForSize size = some c) : size ≤ pgsize := by
  obtain ⟨hlt, hle, -⟩ := List.findIdx?_eq_some_iff_getElem.mp h
  have hmax : ∀ n ∈ sizeTable, n ≤ pgsize := by decide
  exact (of_decide_eq_true hle).trans (hmax _ (List.getElem_mem hlt))

end Order

theorem Sound.storeOutside {x : Sys} {P : ℕ → Pool} {a v : ℕ} (h : Sound x P)
    (ha : (x.mem.pages (virtToPage a)).flags &&& pgSlab = 0) :
    Sound { x with mem := x.mem.store a v } P := by
  have hf : Frame slubSizeCount [virtToPage a] x.mem (x.mem.store a v) := Frame.store (by simp)
  refine ⟨fun c hc => (h.good c hc).frame hf (by omega) fun p hp hx => ?_, h.live, h.cpu, h.slabs,
    h.marked⟩
  rw [List.mem_singleton.mp hx] at hp
  have := ((h.good c hc).lists.slab _ hp).2.2
  rw [this] at ha
  exact absurd ha (by decide)

/-- The invariant of a run of `kmalloc` and `kfree`. -/
structure Held (x : Heap) (P : ℕ → Pool) : Prop where
  sound : Sound x.slub P
  unmarked : ∀ p ∈ x.large, (x.slub.mem.pages p).flags &&& pgSlab = 0
  held : ∀ b ∈ x.bigs, pagesOf b ⊆ x.large
  apart : x.bigs.Pairwise fun b b' => Disjoint (pagesOf b) (pagesOf b')
  ptr : ∀ b ∈ x.bigs, b.1 ≠ 0
  ends : ∀ b ∈ x.bigs, (orderFor b.2).isSome

namespace Held

variable {x : Heap} {P : ℕ → Pool} {size obj c : ℕ} {answer : Option ℕ}

theorem kmallocSmall (h : Held x P) (hc : getCacheForSize size = some c)
    (ha : ∀ page ∈ answer, x.unused page) :
    ∃ y Q, x.exec (.kmalloc size answer) = some y ∧ Held y Q ∧ (y.Exact ↔ x.Exact) := by
  obtain ⟨y, Q, he, hy, hmark, -⟩ := h.sound.step (e := .alloc c answer)
    ⟨getCacheForSize_lt hc, fun p hp => (ha p hp).1⟩
  have hexec : x.exec (.kmalloc size answer) = some { x with slub := y } := by
    simp only [Sys.exec, Option.some.injEq] at he
    simp only [Heap.exec, State.kmalloc, hc, Heap.withSmall]
    rw [← he]
  refine ⟨_, Q, hexec, ⟨hy, fun p hp => ?_, h.held, h.apart, h.ptr, h.ends⟩, Iff.rfl⟩
  by_contra hne
  rcases hmark p hne with hx | ⟨c', hx⟩
  · exact hx (h.unmarked p hp)
  · have hp' : p ∈ answer := by
      simp only [Event.alloc.injEq] at hx
      exact hx.2
    exact (ha p hp').2 hp

theorem kmallocBig (h : Held x P) (hc : getCacheForSize size = none)
    (hends : (orderFor size).isSome)
    (ha : ∀ page ∈ answer, ∀ p ∈ Finset.Ico page (page + bigPages size), x.unused p) :
    ∃ y, x.exec (.kmalloc size answer) = some y ∧ Held y P ∧ (y.Exact ↔ x.Exact) := by
  obtain ⟨order, horder⟩ := Option.isSome_iff_exists.mp hends
  cases answer with
  | none =>
    refine ⟨x, ?_, h, Iff.rfl⟩
    simp [Heap.exec, State.kmalloc, hc, horder, Heap.withBig]
  | some page =>
    have hne : pageToVirt page ≠ 0 := by
      unfold pageToVirt vaPaOffset
      omega
    have hpage : virtToPage (pageToVirt page + 0) = page := virtToPage_pageToVirt (by decide)
    rw [Nat.add_zero] at hpage
    have hnew : ∀ p ∈ pagesOf (pageToVirt page, size), x.unused p := by
      unfold pagesOf
      rw [hpage]
      exact ha page rfl
    have hexec : x.exec (.kmalloc size (some page)) = some ⟨x.slub,
        (pageToVirt page, size) :: x.bigs, x.large ∪ pagesOf (pageToVirt page, size)⟩ := by
      simp only [Heap.exec, State.kmalloc, hc, horder, Heap.withBig, if_neg hne]
    refine ⟨_, hexec, ⟨h.sound, ?_, ?_, ?_, ?_, ?_⟩, ?_⟩
    · intro p hp
      rcases Finset.mem_union.mp hp with hp | hp
      · exact h.unmarked p hp
      · exact (hnew p hp).1
    · intro b hb
      rcases List.mem_cons.mp hb with rfl | hb
      · exact Finset.subset_union_right
      · exact (h.held b hb).trans Finset.subset_union_left
    · refine List.pairwise_cons.mpr ⟨fun b hb => ?_, h.apart⟩
      rw [Finset.disjoint_left]
      exact fun p hp hp' => (hnew p hp).2 (h.held b hb hp')
    · intro b hb
      rcases List.mem_cons.mp hb with rfl | hb
      · exact hne
      · exact h.ptr b hb
    · intro b hb
      rcases List.mem_cons.mp hb with rfl | hb
      · exact hends
      · exact h.ends b hb
    · constructor
      · intro hy p
        constructor
        · intro hp
          obtain ⟨b, hb, hpb⟩ := (hy p).mp (Finset.mem_union_left _ hp)
          rcases List.mem_cons.mp hb with rfl | hb
          · exact absurd hp (hnew p hpb).2
          · exact ⟨b, hb, hpb⟩
        · rintro ⟨b, hb, hpb⟩
          exact h.held b hb hpb
      · intro hx p
        constructor
        · intro hp
          rcases Finset.mem_union.mp hp with hp | hp
          · obtain ⟨b, hb, hpb⟩ := (hx p).mp hp
            exact ⟨b, List.mem_cons_of_mem _ hb, hpb⟩
          · exact ⟨_, List.mem_cons_self, hp⟩
        · rintro ⟨b, hb, hpb⟩
          rcases List.mem_cons.mp hb with rfl | hb
          · exact Finset.mem_union_right _ hpb
          · exact Finset.mem_union_left _ (h.held b hb hpb)

theorem kfreeSmall (h : Held x P) (hc : getCacheForSize size = some c) (ho : obj ∈ x.slub.live c) :
    ∃ y Q, x.exec (.kfree obj size) = some y ∧ Held y Q ∧ (y.Exact ↔ x.Exact) := by
  have hlt := getCacheForSize_lt hc
  obtain ⟨y, Q, he, hy, hmark, -⟩ := h.sound.step (e := .free c obj) ⟨hlt, ho⟩
  have hg := h.sound.good c hlt
  rw [← h.sound.live c hlt] at ho
  have hne := hg.inv.ne_zero (Good.mem_live ho)
  have hmem := hg.page_mem (Good.mem_live ho)
  obtain ⟨-, hcache, hflag⟩ := hg.lists.slab _ hmem
  obtain ⟨s, hs, hys⟩ := Option.map_eq_some_iff.mp he
  have hkfree : x.slub.mem.kfree obj = some (none, s) := by
    simp only [State.kfree, if_neg hne, hflag, hcache, hs]
    rfl
  have hexec : x.exec (.kfree obj size) = some ⟨y, x.bigs, x.large⟩ := by
    simp only [Heap.exec, hkfree, hc, Option.toFinset_none, Finset.sdiff_empty]
    rw [← hys]
  refine ⟨_, Q, hexec, ⟨hy, fun p hp => ?_, h.held, h.apart, h.ptr, h.ends⟩, Iff.rfl⟩
  by_contra hne'
  rcases hmark p hne' with hx | ⟨c', hx⟩
  · exact hx (h.unmarked p hp)
  · simp at hx

theorem kfreeBig (h : Held x P) (hc : getCacheForSize size = none) (ho : (obj, size) ∈ x.bigs) :
    ∃ y, x.exec (.kfree obj size) = some y ∧ Held y P ∧
      (y.Exact ↔ x.Exact ∧ size ≤ pgsize) := by
  have hne : obj ≠ 0 := h.ptr _ ho
  obtain ⟨hfirst, hone, hmore⟩ := pagesOf_spec (h.ends _ ho)
  have hpage := h.held _ ho hfirst
  have hperm := List.perm_cons_erase ho
  have hapart : ((obj, size) :: x.bigs.erase (obj, size)).Pairwise
      fun b b' => Disjoint (pagesOf b) (pagesOf b') :=
    (hperm.pairwise_iff fun {_ _} hd => Disjoint.symm hd).mp h.apart
  obtain ⟨hother, hrest⟩ := List.pairwise_cons.mp hapart
  have hmem : ∀ b, b ∈ x.bigs ↔ b = (obj, size) ∨ b ∈ x.bigs.erase (obj, size) := fun b => by
    rw [hperm.mem_iff, List.mem_cons]
  have hkfree : x.slub.mem.kfree obj = some (some (virtToPage obj), x.slub.mem) := by
    simp only [State.kfree, if_neg hne, h.unmarked _ hpage]
    rfl
  have hexec : x.exec (.kfree obj size) = some ⟨x.slub, x.bigs.erase (obj, size),
      x.large \ {virtToPage obj}⟩ := by
    simp only [Heap.exec, hkfree, hc, Option.toFinset_some]
  obtain ⟨page, hp⟩ : ∃ page, virtToPage obj = page := ⟨_, rfl⟩
  rw [hp] at hexec
  dsimp only at hfirst hone hmore hpage
  rw [hp] at hfirst hone hmore hpage
  have hnot : ∀ b ∈ x.bigs.erase (obj, size), ∀ q ∈ pagesOf (obj, size), q ∉ pagesOf b :=
    fun b hb q hq hq' => Finset.disjoint_left.mp (hother b hb) hq hq'
  refine ⟨_, hexec, ⟨h.sound, ?_, ?_, hrest, ?_, ?_⟩, ?_⟩
  · intro q hq
    exact h.unmarked q (Finset.mem_sdiff.mp hq).1
  · intro b hb q hq
    rw [Finset.mem_sdiff, Finset.mem_singleton]
    refine ⟨h.held b ((hmem b).mpr (.inr hb)) hq, ?_⟩
    rintro rfl
    exact hnot b hb q hfirst hq
  · exact fun b hb => h.ptr b ((hmem b).mpr (.inr hb))
  · exact fun b hb => h.ends b ((hmem b).mpr (.inr hb))
  · constructor
    · intro hy
      have hle : size ≤ pgsize := by
        by_contra hgt
        have hnext := hmore (by omega)
        have hin : page + 1 ∈ x.large \ {page} := by
          rw [Finset.mem_sdiff, Finset.mem_singleton]
          exact ⟨h.held _ ho hnext, by omega⟩
        obtain ⟨b, hb, hpb⟩ := (hy (page + 1)).mp hin
        exact hnot b hb _ hnext hpb
      refine ⟨fun q => ⟨fun hq => ?_, fun hq => ?_⟩, hle⟩
      · rcases eq_or_ne q page with rfl | hqp
        · exact ⟨_, ho, hfirst⟩
        · obtain ⟨b, hb, hpb⟩ := (hy q).mp (by simp [hq, hqp])
          exact ⟨b, (hmem b).mpr (.inr hb), hpb⟩
      · obtain ⟨b, hb, hpb⟩ := hq
        exact h.held b hb hpb
    · rintro ⟨hx, hle⟩ q
      have hset := hone hle
      rw [Finset.mem_sdiff, Finset.mem_singleton]
      constructor
      · rintro ⟨hq, hqp⟩
        obtain ⟨b, hb, hpb⟩ := (hx q).mp hq
        rcases (hmem b).mp hb with rfl | hb
        · rw [hset, Finset.mem_singleton] at hpb
          exact absurd hpb hqp
        · exact ⟨b, hb, hpb⟩
      · rintro ⟨b, hb, hpb⟩
        refine ⟨(hx q).mpr ⟨b, (hmem b).mpr (.inr hb), hpb⟩, ?_⟩
        rintro rfl
        exact hnot b hb q hfirst hpb

theorem store (h : Held x P) {addr v : ℕ} (ho : x.owns addr) :
    ∃ y, x.exec (.store addr v) = some y ∧ Held y P ∧ (y.Exact ↔ x.Exact) := by
  refine ⟨_, rfl, ⟨?_, h.unmarked, h.held, h.apart, h.ptr, h.ends⟩, Iff.rfl⟩
  rcases ho with ⟨c, hc, o, ho, hle, hlt⟩ | ⟨b, hb, hp⟩
  · exact h.sound.store hc ho hle hlt
  · exact h.sound.storeOutside (h.unmarked _ (h.held b hb hp))

theorem step {e : Call} (h : Held x P) (hok : x.admits e) (hends : ¬ e.Endless) :
    ∃ y Q, x.exec e = some y ∧ Held y Q ∧
    (y.Exact ↔ x.Exact ∧ ∀ obj size, e = .kfree obj size → size ≤ pgsize) := by
  cases e with
  | kmalloc size answer =>
    simp only [Heap.admits, pagesFor] at hok
    cases hc : getCacheForSize size with
    | none =>
      rw [hc] at hok
      have hsome : (orderFor size).isSome := by
        by_contra hnone
        exact hends ⟨hc, orderFor_eq_none_iff.mp (by simpa using hnone)⟩
      obtain ⟨y, he, hy, hx⟩ := h.kmallocBig hc hsome hok
      exact ⟨y, P, he, hy, by simpa using hx⟩
    | some c =>
      rw [hc] at hok
      obtain ⟨y, Q, he, hy, hx⟩ := h.kmallocSmall hc fun page hp => hok page hp page (by simp)
      exact ⟨y, Q, he, hy, by simpa using hx⟩
  | kfree obj size =>
    simp only [Heap.admits, Heap.isLive] at hok
    cases hc : getCacheForSize size with
    | none =>
      rw [hc] at hok
      obtain ⟨y, he, hy, hx⟩ := h.kfreeBig hc (of_decide_eq_true hok)
      exact ⟨y, P, he, hy, by simpa using hx⟩
    | some c =>
      rw [hc] at hok
      obtain ⟨y, Q, he, hy, hx⟩ := h.kfreeSmall hc (of_decide_eq_true hok)
      exact ⟨y, Q, he, hy, by simpa [le_of_getCacheForSize hc] using hx⟩
  | store addr v =>
    obtain ⟨y, he, hy, hx⟩ := h.store hok
    exact ⟨y, P, he, hy, by simpa using hx⟩

theorem run {y : Heap} {l : List Call} (h : Held x P) (hr : Runs Calls x l y) : ∃ Q, Held y Q ∧
    (y.Exact ↔ x.Exact ∧ ∀ obj size, Call.kfree obj size ∈ l → size ≤ pgsize) := by
  induction hr generalizing P with
  | nil x => exact ⟨P, h, by simp⟩
  | @cons x y z e l he _ ih =>
    obtain ⟨y', Q, he', hy, hx⟩ := h.step he.1 fun hn => hn.exec_ne he.2
    obtain rfl : y = y' := Option.some.inj (he.2.symm.trans he')
    obtain ⟨Q', hz, hxz⟩ := ih hy
    refine ⟨Q', hz, hxz.trans ?_⟩
    rw [hx, and_assoc]
    refine and_congr_right fun _ => ?_
    constructor
    · rintro ⟨h₁, h₂⟩ obj size hm
      rcases List.mem_cons.mp hm with rfl | hm
      · exact h₁ obj size rfl
      · exact h₂ obj size hm
    · intro hall
      refine ⟨fun obj size hx => hall obj size (by simp [hx]), fun obj size hm => ?_⟩
      exact hall obj size (List.mem_cons_of_mem e hm)

end Held

/-- After `slub_init`. -/
def Heap.start (s : State) : Heap := ⟨⟨s.slubInit, fun _ => []⟩, [], ∅⟩

/-- The pages held for large objects are exactly those of the live ones, and none when no large
object is live, if and only if no object of more than one page was freed. No call panics, and only
the calls whose loop does not end do not return. -/
theorem kmalloc_exact_iff {s : State} {l : List Call} {x : Heap}
    (hs : ∀ p, (s.pages p).flags &&& pgSlab = 0) (hr : Runs Calls (Heap.start s) l x) :
    (x.Exact ↔ ∀ obj size, Call.kfree obj size ∈ l → size ≤ pgsize) ∧
      (x.bigs = [] → (x.large = ∅ ↔ ∀ obj size, Call.kfree obj size ∈ l → size ≤ pgsize)) ∧
      ∀ e, x.admits e → ¬ e.Endless → (x.exec e).isSome := by
  have hstart : Held (Heap.start s) fun _ => Pool.empty :=
    ⟨sound_slubInit hs, by simp [Heap.start], by simp [Heap.start], by simp [Heap.start],
      by simp [Heap.start], by simp [Heap.start]⟩
  obtain ⟨P, hx, hiff⟩ := hstart.run hr
  have hexact : (Heap.start s).Exact := by simp [Heap.Exact, Heap.start]
  simp only [hexact, true_and] at hiff
  refine ⟨hiff, fun hnil => ?_, fun e hok hends => ?_⟩
  · rw [← hiff, Heap.Exact, hnil, Finset.eq_empty_iff_forall_notMem]
    simp
  · obtain ⟨y, Q, he, -⟩ := hx.step hok hends
    simp [he]

/-- A large object of one page and a small object come and go. -/
def onePageCalls : List Call :=
  [.kmalloc 3000 (some 10), .kmalloc 100 (some 11), .kfree (pageToVirt 10) 3000]

theorem kmalloc_exact_iff_onePageCalls : ∃ x, Runs Calls (Heap.start blank) onePageCalls x ∧
    x.bigs = [] ∧ x.Exact ∧ x.large = ∅ := by
  have he : (onePageCalls.foldlM (fun x e => if Heap.admits x e then x.exec e else none)
      (Heap.start blank)).map Heap.bigs = some [] := by
    decide +kernel
  obtain ⟨x, hx, hb⟩ := Option.map_eq_some_iff.mp he
  have hr : Runs Calls (Heap.start blank) onePageCalls x :=
    (Runs.iff_foldlM.mpr hx).mono fun s i t h => by simpa [Calls] using h
  obtain ⟨h₁, h₂, -⟩ := kmalloc_exact_iff (fun _ => Nat.zero_and _) hr
  have hle : ∀ obj size, Call.kfree obj size ∈ onePageCalls → size ≤ pgsize := by
    intro obj size hm
    obtain ⟨-, rfl⟩ : obj = pageToVirt 10 ∧ size = 3000 := by simpa [onePageCalls] using hm
    decide
  exact ⟨x, hr, hb, h₁.mpr hle, (h₂ hb).mpr hle⟩

/-- The buffer of a path takes two pages and gives back one. -/
theorem kmalloc_not_exact : ∃ x, Runs Calls (Heap.start blank)
    [.kmalloc 4097 (some 10), .kfree (pageToVirt 10) 4097] x ∧
    x.bigs = [] ∧ x.large = {11} ∧ ¬ x.Exact := by
  have he : ([Call.kmalloc 4097 (some 10), .kfree (pageToVirt 10) 4097].foldlM
      (fun x e => if Heap.admits x e then x.exec e else none) (Heap.start blank)).map
        (fun x => (x.bigs, x.large)) = some ([], {11}) := by
    decide +kernel
  obtain ⟨x, hx, hv⟩ := Option.map_eq_some_iff.mp he
  rw [Prod.mk.injEq] at hv
  refine ⟨x, (Runs.iff_foldlM.mpr hx).mono fun s i t h => by simpa [Calls] using h, hv.1, hv.2,
    fun hexact => ?_⟩
  have := (hexact 11).mp (by simp [hv.2])
  simp [hv.1] at this

end UCore.Slub

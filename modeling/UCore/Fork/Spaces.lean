import UCore.Cow.Ops
import UCore.Fork.Model
import UCore.Library.Words
import UCore.PageTable.Teardown

/-! # Whole address spaces

`dup_mmap` shows all pages of the parent to the child, and `exit_mmap` with `put_pgdir` removes an
address space; neither changes what another address space shows. A store reaches a page only if
nothing else maps it.
-/

namespace UCore.Fork

open Library PageTable Cow

section Bytes

variable {f : ℕ → ℕ} {o o' b : ℕ}

def bytes (f : ℕ → ℕ) : ℕ → ℕ := loadByte f

theorem bytes_storeByte (hb : b < 256) :
    bytes (storeByte f o b) = Function.update (bytes f) o b := by
  funext o'
  by_cases hw : o' / 8 = o / 8
  · have h := digit_set (w := f (o / 8)) (j := o' % 8) (k := o % 8) hb
    have hiff : o' % 8 = o % 8 ↔ o' = o := by omega
    simp only [bytes, loadByte, storeByte, hw, Function.update_apply, if_true]
    rw [h]
    simp only [hiff]
  · have hne : o' ≠ o := fun h => hw (by rw [h])
    simp [bytes, loadByte, storeByte, hw, hne]

end Bytes

section Exit

variable {s : State} {R : ℕ → Role} {D : Finset ℕ} {d v : ℕ} {mm : Mm}

theorem view_isSome (c : CowInv s R D) (hd : d ∈ D) (hv : isVpn v) (h : s.pte d v ≠ 0) :
    (view s d v).isSome = true := by
  rcases c.inv.wf.pte_zero_or ((c.inv.dirs d).mpr hd) hv with h₀ | ⟨h₁, -⟩
  · exact absurd h₀ h
  · simp [view, pageOf, h₁]

/-- The areas hold all pages of the address space. -/
def Inside (s : State) (mm : Mm) : Prop :=
  ∀ v, isVpn v → (view s mm.pgdir v).isSome = true → mm.mmapList.any (·.hasPage v) = true

/-- `exit_mmap` and `put_pgdir` remove one address space. -/
theorem CowInv.exitMmap (c : CowInv s R D) (hd : mm.pgdir ∈ D) (hok : mm.Ok)
    (hin : Inside s mm) : ∃ t R', s.exitMmap mm = some t ∧
      CowInv (t.putPgdir mm) R' (D.erase mm.pgdir) ∧
      ∀ d ∈ D.erase mm.pgdir, ∀ v, isVpn v → view (t.putPgdir mm) d v = view s d v := by
  obtain ⟨s', R', e, hz, hall⟩ := exitAreas_spec c.inv hd hok.vmas fun v hv h₀ =>
    hin v hv (view_isSome c hd hv h₀)
  obtain ⟨t, ht, P⟩ := hall mm.mmapList hok.vmas
  obtain ⟨k, hpte, huser⟩ := P.inv_putPgdir e.inv hd hz
  have hexcl : Exclusive s'.pte D := by
    refine Exclusive.congr ?_ e.pte
    constructor
    · intro d hd v hv
      unfold clearAreas
      split
      · simp
      · exact c.excl.cow d hd v hv
    · intro d hd v hv d' hd' v' hv' hne p
      unfold clearAreas
      split
      · simp
      · split
        · simp
        · exact c.excl.shared d hd v hv d' hd' v' hv' hne p
  have hpte' : ∀ d ∈ D.erase mm.pgdir, ∀ v, isVpn v → s'.pte d v = s.pte d v := by
    intro d hd' v hv
    rw [e.pte d (Finset.mem_of_mem_erase hd') v hv, clearAreas, if_neg]
    exact fun h => (Finset.mem_erase.mp hd').1 h.1
  refine ⟨t, _, ht, ⟨k, fun p hp => ?_, ?_⟩, fun d hd' v hv => ?_⟩
  · obtain ⟨hu, hm⟩ := (e.user p).mp ((huser p).mp hp)
    obtain ⟨⟨d, v⟩, hx⟩ := hm (c.full p hu)
    obtain ⟨⟨hd', hv⟩, hm⟩ := mem_maps.mp hx
    have hne : d ≠ mm.pgdir := by
      rintro rfl
      rw [hz v hv] at hm
      simp at hm
    have hd'' := Finset.mem_erase.mpr ⟨hne, hd'⟩
    refine mapped_of hd'' hv ?_
    change MapsTo ((t.freePage mm.pgdir).pte d v) p
    rwa [hpte d hd'' v hv]
  · refine Exclusive.congr ?_ hpte
    exact ⟨fun d hd => hexcl.cow d (Finset.mem_of_mem_erase hd),
      fun d hd v hv d' hd' => hexcl.shared d (Finset.mem_of_mem_erase hd) v hv d'
        (Finset.mem_of_mem_erase hd')⟩
  · have hsame : (t.freePage mm.pgdir).pte d v = s.pte d v :=
      (hpte d hd' v hv).trans (hpte' d hd' v hv)
    refine view_congr (by rw [State.putPgdir, hsame]) fun p hm => ?_
    have hmap : MapsTo (s'.pte d v) p := by rwa [hpte' d hd' v hv]
    have hu := e.inv.mapped (mapped_of (Finset.mem_of_mem_erase hd') hv hmap)
    have hout : ¬ OfDir R' mm.pgdir p := by
      rintro (rfl | ⟨i, h⟩ | ⟨i, j, h⟩)
      · simp [(e.inv.dirs _).mpr hd] at hu
      · simp [hu] at h
      · simp [hu] at h
    exact (P.outside hout).1.trans (e.data p hu)

end Exit

section Write

variable {s : State} {R : ℕ → Role} {D : Finset ℕ} {d v p : ℕ} {f : ℕ → ℕ}

theorem CowInv.setPage (c : CowInv s R D) (hd : d ∈ D) (hv : isVpn v)
    (hm : MapsTo (s.pte d v) p) (hu : ∀ d' ∈ D, ∀ v', isVpn v' → MapsTo (s.pte d' v') p →
      (d', v') = (d, v)) : Acts s R D (setView (view s) d v f) (s.setPage p f) R := by
  have hp : R p = .user := c.inv.mapped (mapped_of hd hv hm)
  obtain ⟨k, hpte⟩ := c.inv.congr (t := s.setPage p f) rfl rfl fun q hq => by
    refine Function.update_of_ne ?_ _ _
    rintro rfl
    simp [hp, Role.isTable] at hq
  have c' : CowInv (s.setPage p f) R D := by
    refine ⟨k, fun q hq => ?_, c.excl.congr hpte⟩
    rw [maps_congr hpte]
    exact c.full q hq
  refine ⟨c', fun d' hd' v' hv' => ?_, fun _ => Iff.rfl, [], by simp [State.setPage]⟩
  unfold setView setEntry
  split
  · rename_i he
    rw [he.1, he.2, view, hpte d hd v hv, mapsTo_iff_pageOf.mp hm]
    simp [State.setPage]
  · rename_i he
    refine view_congr (by rw [hpte d' hd' v' hv']) fun q hq => Function.update_of_ne ?_ _ _
    rintro rfl
    have h := hu d' hd' v' hv' hq
    rw [Prod.mk.injEq] at h
    exact he h

theorem CowInv.store (c : CowInv s R D) (hd : d ∈ D) (hv : isVpn v)
    (hV : has (s.pte d v) pteV = true) (hw : has (s.pte d v) pteW = true) :
    Acts s R D (setView (view s) d v f) (s.setPage (pte2page (s.pte d v)) f) R := by
  have hm : MapsTo (s.pte d v) (pte2page (s.pte d v)) := ⟨hV, rfl⟩
  refine CowInv.setPage c hd hv hm fun d' hd' v' hv' hm' => ?_
  by_contra hne
  have := c.excl.shared d hd v hv d' hd' v' hv' (Ne.symm hne) _ hm hm'
  simp [hw] at this

end Write

section Dup

variable {s t : State} {R : ℕ → Role} {D : Finset ℕ} {from' d v : ℕ} {vma : Vma} {to' : Mm}
  {todo l : List Vma} {kmallocs : List Bool}

/-- The areas in the order of their addresses. -/
def Sorted (l : List Vma) : Prop := l.Pairwise fun vma vma' => vma.vmEnd ≤ vma'.vmStart

instance (l : List Vma) : Decidable (Sorted l) := inferInstanceAs (Decidable (l.Pairwise _))

theorem insertVmaStruct_front (hok : vma.Ok) (hok' : ∀ vma' ∈ l, vma'.Ok)
    (hs : ∀ vma' ∈ l, vma.vmEnd ≤ vma'.vmStart) : insertVmaStruct l vma = some (vma :: l) := by
  have hlt : vma.vmStart < vma.vmEnd := hok.user.2.1
  have hw : l.takeWhile (fun prev => decide (prev.vmStart ≤ vma.vmStart)) = [] := by
    cases l with
    | nil => rfl
    | cons x l =>
      have := hs x (by simp)
      rw [List.takeWhile_cons, if_neg]
      simp only [decide_eq_true_eq]
      omega
  have hd : l.dropWhile (fun prev => decide (prev.vmStart ≤ vma.vmStart)) = l := by
    have := List.takeWhile_append_dropWhile (l := l)
      (p := fun prev => decide (prev.vmStart ≤ vma.vmStart))
    rwa [hw, List.nil_append] at this
  unfold insertVmaStruct
  simp only [hw, hd, List.getLast?_nil, List.nil_append]
  rw [if_pos]
  refine ⟨hlt, by simp, fun next hn => ?_⟩
  have hmem := List.mem_of_mem_head? hn
  exact ⟨hlt, hs next hmem, (hok' next hmem).user.2.1⟩

/-- The contents after `dup_mmap` of the areas `l`. -/
def dupView (s : State) (to' from' : ℕ) (l : List Vma) : ℕ → ℕ → Option (ℕ → ℕ) := fun d v =>
  if d = to' ∧ l.any (·.hasPage v) = true ∧ (view s from' v).isSome then view s from' v
  else view s d v

/-- `dup_mmap`: an error stops it with part of the areas copied. -/
structure Dups (s : State) (R : ℕ → Role) (D : Finset ℕ) (from' : ℕ) (todo : List Vma) (to' : Mm)
    (ret : ℤ) (mm : Mm) (t : State) : Prop where
  pgdir : mm.pgdir = to'.pgdir
  cache : mm.mmapCache = to'.mmapCache
  ok : ∀ vma ∈ mm.mmapList, vma.Ok
  cow : ∃ R', CowInv t R' D
  view : ∀ d ∈ D, d ≠ to'.pgdir → ∀ v, isVpn v → view t d v = view s d v
  inside : Inside t mm
  list : ret = 0 → mm.mmapList = todo.reverse ++ to'.mmapList
  copy : ret = 0 → ∀ v, isVpn v → Cow.view t to'.pgdir v =
    dupView s to'.pgdir from' todo to'.pgdir v

theorem Dups.refl {ret : ℤ} (c : CowInv s R D) (hok : ∀ vma ∈ to'.mmapList, vma.Ok)
    (hin : Inside s to') (h : ret = 0 → todo = []) : Dups s R D from' todo to' ret to' s where
  pgdir := rfl
  cache := rfl
  ok := hok
  cow := ⟨R, c⟩
  view _ _ _ _ _ := rfl
  inside := hin
  list h₀ := by simp [h h₀]
  copy h₀ v _ := by simp [h h₀, dupView]

theorem sharedView_inside {b : ℕ} (hin : Inside s to') (hb : b ≤ vma.vmEnd / pgsize)
    (ht : ∀ v, isVpn v → view t to'.pgdir v =
      sharedView s to'.pgdir from' (vma.vmStart / pgsize) b to'.pgdir v) :
    Inside t { to' with mmapList := vma :: to'.mmapList } := by
  intro v hv hsome
  change (view t to'.pgdir v).isSome = true at hsome
  rw [ht v hv, sharedView] at hsome
  simp only [List.any_cons, Bool.or_eq_true]
  split at hsome
  · rename_i h
    left
    simp only [Vma.hasPage, Bool.and_eq_true, decide_eq_true_eq]
    omega
  · exact .inr (hin v hv hsome)

theorem dupView_cons
    (ht : ∀ v, isVpn v → ∀ d ∈ D, view t d v = sharedView s to'.pgdir from' (vma.vmStart / pgsize)
      (vma.vmEnd / pgsize) d v) (hfrom : from' ∈ D) (hto : to'.pgdir ∈ D) (hv : isVpn v) :
    dupView t to'.pgdir from' l to'.pgdir v =
      dupView s to'.pgdir from' (vma :: l) to'.pgdir v := by
  have hf : view t from' v = view s from' v := by
    rw [ht v hv from' hfrom, sharedView_from]
  have hx : (vma.vmStart / pgsize ≤ v ∧ v < vma.vmEnd / pgsize ∧ (view s from' v).isSome = true) ↔
      vma.hasPage v = true ∧ (view s from' v).isSome = true := by
    simp [Vma.hasPage, and_assoc]
  unfold dupView
  rw [hf, ht v hv _ hto, sharedView]
  simp only [hx, List.any_cons, Bool.or_eq_true, true_and]
  by_cases h₁ : vma.hasPage v = true
  · simp only [h₁, true_or, true_and]
    split
    · rename_i h
      rw [if_pos h.2]
    · rfl
  · simp only [h₁, false_or, false_and, if_false, Bool.false_eq_true]

theorem dupMmap_spec (kmallocs : List Bool) (to' : Mm) (c : CowInv s R D) (hfrom : from' ∈ D)
    (hto : to'.pgdir ∈ D) (hok : ∀ vma ∈ todo, vma.Ok) (hok' : ∀ vma ∈ to'.mmapList, vma.Ok)
    (hs : Sorted (todo.reverse ++ to'.mmapList)) (hin : Inside s to') :
    ∃ ret mm t, dupMmap from' todo kmallocs to' s = some (ret, mm, t) ∧
      Dups s R D from' todo to' ret mm t := by
  induction todo generalizing s R to' kmallocs with
  | nil =>
    unfold dupMmap
    exact ⟨_, _, _, rfl, .refl c hok' hin fun _ => rfl⟩
  | cons vma todo ih =>
    have hfail : Dups s R D from' (vma :: todo) to' (-eNoMem) to' s :=
      .refl c hok' hin fun h => absurd h (by decide)
    cases kmallocs with
    | nil => exact ⟨_, _, _, rfl, hfail⟩
    | cons k kmallocs =>
      cases k with
      | false => exact ⟨_, _, _, rfl, hfail⟩
      | true =>
        have hvma := hok vma (by simp)
        have hs' : Sorted (todo.reverse ++ vma :: to'.mmapList) := by simpa using hs
        have hlt : ∀ vma' ∈ to'.mmapList, vma.vmEnd ≤ vma'.vmStart :=
          fun _ => List.rel_of_pairwise_cons (List.pairwise_append.mp hs').2.1
        have hins := insertVmaStruct_front hvma hok' hlt
        have hok₁ : ∀ vma' ∈ vma :: to'.mmapList, vma'.Ok := by
          simpa using ⟨hvma, hok'⟩
        obtain ⟨ret, t, b, ht, hret, R', ha⟩ :=
          copyRange_spec c hfrom hto hvma.start hvma.stop hvma.user
        have hview : ∀ d ∈ D, d ≠ to'.pgdir → ∀ v, isVpn v → view t d v = view s d v := by
          intro d hd hne v hv
          rw [ha.view d hd v hv, sharedView, if_neg fun h => hne h.1]
        have hin₁ : Inside t { to' with mmapList := vma :: to'.mmapList } :=
          sharedView_inside hin (by omega) fun v hv => ha.view _ hto v hv
        unfold dupMmap
        rw [hins]
        simp only [ht]
        split
        · refine ⟨_, _, _, rfl, ⟨rfl, rfl, hok₁, ⟨R', ha.cow⟩, hview, hin₁, ?_, ?_⟩⟩
          all_goals exact fun h => absurd h (by decide)
        · rename_i h₀
          obtain ⟨ret', mm, u, hu, h⟩ := ih kmallocs { to' with mmapList := vma :: to'.mmapList }
            ha.cow hto (fun vma h => hok vma (by simp [h])) hok₁ hs' hin₁
          obtain rfl : b = vma.vmEnd / pgsize := by
            rcases hret with h | h
            · exact h.2
            · exact absurd h.1 h₀
          refine ⟨ret', mm, u, hu, h.pgdir, h.cache, h.ok, h.cow, ?_, h.inside, ?_, ?_⟩
          · intro d hd hne v hv
            exact (h.view d hd hne v hv).trans (hview d hd hne v hv)
          · intro hz
            simp [h.list hz]
          · intro hz v hv
            rw [h.copy hz v hv]
            exact dupView_cons (fun v hv d hd => ha.view d hd v hv) hfrom hto hv

end Dup

end UCore.Fork

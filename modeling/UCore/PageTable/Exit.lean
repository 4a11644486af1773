import Mathlib.Data.Nat.SuccPred
import UCore.PageTable.Areas
import UCore.PageTable.Pages

/-! # Tearing down an address space

The model of `exit_range`, `exit_mmap` and `put_pgdir`. What `exit_range` does to the tables of a
directory is followed by the sets of middle tables and of leaf tables that are still in place.
-/

namespace UCore.PageTable

open Library

namespace State

variable (s : State)

/-- One iteration of the inner loop of `exit_range`, over the entries of the middle table. -/
def exitPt (pd0 d1start end' : ℕ) (x : ℕ × Bool × State) : (ℕ × Bool × State) ⊕ (Bool × State) :=
  let d0start := x.1
  let s := x.2.2
  let pde0 := s.word pd0 (pdx0 d0start)
  let y : Bool × State :=
    if has pde0 pteV then
      let freePt := (List.range 512).all fun i => !has (s.word (pte2page pde0) i) pteV
      (x.2.1, if freePt then (s.freePage (pte2page pde0)).setWord pd0 (pdx0 d0start) 0 else s)
    else (false, s)
  let d0start := d0start + ptsize
  if d0start ≠ 0 ∧ d0start < d1start + pdsize ∧ d0start < end' then .inl (d0start, y) else .inr y

/-- The end of an iteration of the outer loop of `exit_range`. -/
def exitNext (d1start end' : ℕ) : (ℕ × ℕ × State) ⊕ Option State :=
  if d1start + pdsize ≠ 0 ∧ d1start + pdsize < end' then
    .inl (d1start + pdsize, d1start + pdsize, s)
  else .inr (some s)

/-- The part of `exit_range` after the inner loop, with the loop's result. -/
def exitMid (pgdir d1start end' pde1 : ℕ) :
    Option (Bool × State) → (ℕ × ℕ × State) ⊕ Option State
  | none => .inr none
  | some (freePd0, s) =>
    if freePd0 then
      ((s.freePage (pte2page pde1)).setWord pgdir (pdx1 d1start) 0).exitNext d1start end'
    else s.exitNext d1start end'

/-- One iteration of the outer loop of `exit_range`, over the entries of the directory. -/
def exitPd0 (pgdir end' : ℕ) : ℕ × ℕ × State → (ℕ × ℕ × State) ⊕ Option State
  | (d1start, d0start, s) =>
    if has (s.word pgdir (pdx1 d1start)) pteV then
      exitMid pgdir d1start end' (s.word pgdir (pdx1 d1start))
        (iterate (exitPt (pte2page (s.word pgdir (pdx1 d1start))) d1start end') 513
          (d0start, true, s))
    else s.exitNext d1start end'

/-- `exit_range`; `none` when an assertion fails. -/
def exitRange (pgdir start end' : ℕ) : Option State :=
  if (start % pgsize = 0 ∧ end' % pgsize = 0) ∧ userAccess start end' then
    (iterate (exitPd0 pgdir end') (end' + 1)
      (rounddown start pdsize, rounddown start ptsize, s)).join
  else none

/-- `exit_mmap` when its second loop has reached the areas `l`; `none` when an assertion fails. -/
def exitAreas (mm : Mm) (l : List Vma) : Option State := do
  let s ← mm.mmapList.foldlM (fun s vma => s.unmapRange mm.pgdir vma.vmStart vma.vmEnd) s
  l.foldlM (fun s vma => s.exitRange mm.pgdir vma.vmStart vma.vmEnd) s

def exitMmap (mm : Mm) : Option State := s.exitAreas mm mm.mmapList

def putPgdir (mm : Mm) : State := s.freePage mm.pgdir

end State

/-- The middle tables in place, by their directory index, and the leaf tables in place, by both
indices. -/
@[ext] structure Tables where
  mids : Finset ℕ
  slots : ℕ → Finset ℕ

def State.tables (s : State) (d : ℕ) : Tables where
  mids := (Finset.range 512).filter fun i => userPart i ∧ has (s.word d i) pteV = true
  slots i := (Finset.range 512).filter fun j =>
    (userPart i ∧ has (s.word d i) pteV = true) ∧
      has (s.word (pte2page (s.word d i)) j) pteV = true

/-- A table of directory `d` that is not in place any more. -/
def Gone (R : ℕ → Role) (d : ℕ) (T : Tables) (p : ℕ) : Prop :=
  (∃ i, R p = .mid d i ∧ i ∉ T.mids) ∨ ∃ i j, R p = .leaf d i j ∧ j ∉ T.slots i

/-- From state `s` some tables of `d` were removed and given back; those in `T` are in place. -/
structure Part (s : State) (R : ℕ → Role) (d : ℕ) (T : Tables) (x : State) : Prop where
  word : ∀ p, p ≠ d → (∀ i, R p ≠ .mid d i) → x.word p = s.word p
  root : ∀ i, userPart i → (i ∈ T.mids → x.word d i = s.word d i) ∧
    (i ∉ T.mids → has (x.word d i) pteV = false)
  mid : ∀ m i, R m = .mid d i → i ∈ T.mids → ∀ j < 512,
    (j ∈ T.slots i → x.word m j = s.word m j) ∧
      (j ∉ T.slots i → has (x.word m j) pteV = false)
  free : ∀ p, p ∈ x.free ↔ p ∈ s.free ∨ Gone R d T p
  ref : ∀ p, (Gone R d T p → x.ref p = 0) ∧ (¬ Gone R d T p → x.ref p = s.ref p)
  freed : Freed (fun _ => True) s x (Gone R d T)
  mids : T.mids ⊆ (s.tables d).mids
  slots : ∀ i, T.slots i ⊆ (s.tables d).slots i

section Part

variable {s x : State} {R : ℕ → Role} {d g i j l m p : ℕ} {T : Tables}

theorem mem_mids (h : Wf s R) (hd : R d = .root) :
    i ∈ (s.tables d).mids ↔ ∃ m, R m = .mid d i := by
  simp only [State.tables, Finset.mem_filter, Finset.mem_range]
  constructor
  · rintro ⟨-, hi, hv⟩
    exact ⟨_, h.rootEntry d i hd hi hv⟩
  · rintro ⟨m, hm⟩
    obtain ⟨-, hi, hv, -⟩ := h.mid m d i hm
    exact ⟨by have := hi.1; omega, hi, hv⟩

theorem mem_slots (h : Wf s R) (hd : R d = .root) :
    j ∈ (s.tables d).slots i ↔ ∃ l, R l = .leaf d i j := by
  simp only [State.tables, Finset.mem_filter, Finset.mem_range]
  constructor
  · rintro ⟨hj, ⟨hi, hv⟩, hv'⟩
    exact ⟨_, h.midEntry _ d i j (h.rootEntry d i hd hi hv) hj hv'⟩
  · rintro ⟨l, hl⟩
    obtain ⟨hj, m, hm, hv', -⟩ := h.leaf l d i j hl
    obtain ⟨-, hi, hv, rfl⟩ := h.mid m d i hm
    exact ⟨hj, ⟨hi, hv⟩, hv'⟩

theorem not_gone (h : Wf s R) (hd : R d = .root) : ¬ Gone R d (s.tables d) p := by
  rintro (⟨i, hp, hi⟩ | ⟨i, j, hp, hj⟩)
  · exact hi ((mem_mids h hd).mpr ⟨p, hp⟩)
  · exact hj ((mem_slots h hd).mpr ⟨p, hp⟩)

theorem Part.refl (h : Wf s R) (hd : R d = .root) : Part s R d (s.tables d) s where
  word _ _ _ := rfl
  root i hi := by
    refine ⟨fun _ => rfl, fun hn => ?_⟩
    by_contra hv
    rw [Bool.not_eq_false] at hv
    exact hn ((mem_mids h hd).mpr ⟨_, h.rootEntry d i hd hi hv⟩)
  mid m i hm _ j hj := by
    refine ⟨fun _ => rfl, fun hn => ?_⟩
    by_contra hv
    rw [Bool.not_eq_false] at hv
    exact hn ((mem_slots h hd).mpr ⟨_, h.midEntry m d i j hm hj hv⟩)
  free p := by simp [not_gone h hd]
  ref p := ⟨fun hg => absurd hg (not_gone h hd), fun _ => rfl⟩
  freed := .nil rfl fun p => not_gone h hd
  mids := subset_rfl
  slots i := subset_rfl

theorem Part.give {T' : Tables} (P : Part s R d T x)
    (hg : ∀ p, Gone R d T' p ↔ Gone R d T p ∨ p = l)
    (hl : ¬ Gone R d T l) :
    (∀ p, p ∈ (x.freePage l).free ↔ p ∈ s.free ∨ Gone R d T' p) ∧
      (∀ p, (Gone R d T' p → (x.freePage l).ref p = 0) ∧
        (¬ Gone R d T' p → (x.freePage l).ref p = s.ref p)) ∧
      Freed (fun _ => True) s (x.freePage l) (Gone R d T') := by
  refine ⟨fun p => ?_, fun p => ?_, ?_⟩
  · change p ∈ insert l x.free ↔ _
    rw [Finset.mem_insert, P.free, hg]
    tauto
  · change (_ → Function.update x.ref l 0 p = 0) ∧ (_ → Function.update x.ref l 0 p = s.ref p)
    rw [hg]
    rcases eq_or_ne p l with rfl | hpl
    · simp
    · simp only [hpl, or_false, Function.update_of_ne hpl]
      exact P.ref p
  · refine P.freed.trans (.single (S := fun p => p = l) rfl trivial fun p => Iff.rfl) ?_ hg
    rintro p hp rfl
    exact hl hp

variable (h : Wf s R) (hd : R d = .root)
include h hd

/-- A leaf table is given back and its entry cleared. -/
theorem Part.dropLeaf (P : Part s R d T x) (hg : g ∈ T.mids) (hm : R m = .mid d g)
    (hl : R l = .leaf d g j) (hj : j ∈ T.slots g) :
    Part s R d { T with slots := Function.update T.slots g ((T.slots g).erase j) }
      ((x.freePage l).setWord m j 0) := by
  have hmd : m ≠ d := by
    rintro rfl
    simp [hd] at hm
  have hgone : ∀ p, Gone R d { T with slots := Function.update T.slots g ((T.slots g).erase j) } p ↔
      Gone R d T p ∨ p = l := by
    intro p
    unfold Gone
    constructor
    · rintro (hp | ⟨i', j', hp, hn⟩)
      · exact .inl (.inl hp)
      · rcases eq_or_ne i' g with rfl | hi
        · rcases eq_or_ne j' j with rfl | hjj
          · exact .inr (h.leaf_unique hp hl)
          · refine .inl (.inr ⟨i', j', hp, fun hx => hn ?_⟩)
            simpa [hjj] using hx
        · exact .inl (.inr ⟨i', j', hp, by simpa [hi] using hn⟩)
    · rintro ((hp | ⟨i', j', hp, hn⟩) | rfl)
      · exact .inl hp
      · refine .inr ⟨i', j', hp, fun hx => hn ?_⟩
        rcases eq_or_ne i' g with rfl | hi
        · simp only [Function.update_self, Finset.mem_erase] at hx
          exact hx.2
        · simpa [hi] using hx
      · exact .inr ⟨g, j, hl, by simp⟩
  have hnl : ¬ Gone R d T l := by
    rintro (⟨i', hp, -⟩ | ⟨i', j', hp, hn⟩)
    · simp [hl] at hp
    · rw [hl] at hp
      simp only [Role.leaf.injEq, true_and] at hp
      exact hn (hp.1 ▸ hp.2 ▸ hj)
  obtain ⟨hfree, href, hfreed⟩ := P.give hgone hnl
  have hw : ∀ p y, ((x.freePage l).setWord m j 0).word p y =
      if p = m ∧ y = j then 0 else x.word p y := fun p y => setWord_word p y
  refine ⟨fun p hpd hpm => ?_, fun i hi => ?_, fun m' i hm' hi j' hj' => ?_, hfree, href, hfreed,
    P.mids, fun i => ?_⟩
  · funext y
    rw [hw, if_neg, P.word p hpd hpm]
    rintro ⟨rfl, -⟩
    exact hpm g hm
  · rw [hw, if_neg]
    · exact P.root i hi
    · rintro ⟨rfl, -⟩
      exact hmd rfl
  · rw [hw]
    rcases eq_or_ne i g with rfl | hig
    · obtain rfl := h.mid_unique hm hm'
      rcases eq_or_ne j' j with rfl | hjj
      · simp
      · simp only [hjj, and_false, if_false, Function.update_self, Finset.mem_erase, ne_eq,
          not_false_eq_true, true_and]
        exact P.mid m i hm hi j' hj'
    · have hmm : m' ≠ m := by
        rintro rfl
        rw [hm] at hm'
        simp only [Role.mid.injEq, true_and] at hm'
        exact hig hm'.symm
      simp only [hmm, false_and, if_false, Function.update_of_ne hig]
      exact P.mid m' i hm' hi j' hj'
  · dsimp only
    rcases eq_or_ne i g with rfl | hig
    · rw [Function.update_self]
      exact (Finset.erase_subset _ _).trans (P.slots i)
    · rw [Function.update_of_ne hig]
      exact P.slots i

/-- A middle table is given back and its entry cleared. The leaf tables that it still holds are
lost. -/
theorem Part.dropMid (P : Part s R d T x) (hg : g ∈ T.mids) (hm : R m = .mid d g) :
    Part s R d { T with mids := T.mids.erase g } ((x.freePage m).setWord d g 0) := by
  have hgone : ∀ p, Gone R d { T with mids := T.mids.erase g } p ↔ Gone R d T p ∨ p = m := by
    intro p
    unfold Gone
    constructor
    · rintro (⟨i', hp, hn⟩ | hp)
      · rcases eq_or_ne i' g with rfl | hi
        · exact .inr (h.mid_unique hp hm)
        · exact .inl (.inl ⟨i', hp, fun hx => hn (by simpa [hi] using hx)⟩)
      · exact .inl (.inr hp)
    · rintro ((⟨i', hp, hn⟩ | hp) | rfl)
      · exact .inl ⟨i', hp, fun hx => hn (Finset.mem_of_mem_erase hx)⟩
      · exact .inr hp
      · exact .inl ⟨g, hm, by simp⟩
  have hnm : ¬ Gone R d T m := by
    rintro (⟨i', hp, hn⟩ | ⟨i', j', hp, -⟩)
    · rw [hm] at hp
      simp only [Role.mid.injEq, true_and] at hp
      exact hn (hp ▸ hg)
    · simp [hm] at hp
  obtain ⟨hfree, href, hfreed⟩ := P.give hgone hnm
  have hw : ∀ p y, ((x.freePage m).setWord d g 0).word p y =
      if p = d ∧ y = g then 0 else x.word p y := fun p y => setWord_word p y
  refine ⟨fun p hpd hpm => ?_, fun i hi => ?_, fun m' i hm' hi j' hj' => ?_, hfree, href, hfreed,
    (Finset.erase_subset _ _).trans P.mids, P.slots⟩
  · funext y
    rw [hw, if_neg fun hx => hpd hx.1, P.word p hpd hpm]
  · rw [hw]
    rcases eq_or_ne i g with rfl | hig
    · simp
    · simp only [hig, and_false, if_false, Finset.mem_erase, ne_eq, not_false_eq_true, true_and]
      exact P.root i hi
  · have hm'd : m' ≠ d := by
      rintro rfl
      simp [hd] at hm'
    rw [hw, if_neg fun hx => hm'd hx.1]
    exact P.mid m' i hm' (Finset.mem_of_mem_erase hi) j' hj'

end Part

/-- The entries of middle table `g` that `exit_range` visits. -/
def slotsOf (start end' g : ℕ) : Finset ℕ :=
  (Finset.range 512).filter fun j => start / ptsize ≤ g * 512 + j ∧ (g * 512 + j) * ptsize < end'

/-- The entries visited before the 2 MB region `q`. -/
def seen (start end' g q : ℕ) : Finset ℕ := (slotsOf start end' g).filter fun j => g * 512 + j < q

namespace Tables

variable (T : Tables)

def dropSlots (g : ℕ) (V : Finset ℕ) : Tables :=
  { T with slots := Function.update T.slots g (T.slots g \ V) }

/-- The tables that `exit_range` leaves in place, when it has visited the middle tables below
`b`. A middle table goes when every entry that was visited had its leaf table. -/
def exitBelow (start end' b : ℕ) : Tables where
  mids := T.mids.filter fun g =>
    ¬ (g < b ∧ (slotsOf start end' g).Nonempty ∧ slotsOf start end' g ⊆ T.slots g)
  slots g := if g < b ∧ g ∈ T.mids then T.slots g \ slotsOf start end' g else T.slots g

/-- The tables that `exit_range` leaves in place. -/
def exit (start end' : ℕ) : Tables where
  mids := T.mids.filter fun g =>
    ¬ ((slotsOf start end' g).Nonempty ∧ slotsOf start end' g ⊆ T.slots g)
  slots g := if g ∈ T.mids then T.slots g \ slotsOf start end' g else T.slots g

end Tables

section Loops

variable {s x : State} {R : ℕ → Role} {d g i j l m p q start end' : ℕ} {T : Tables} {V : Finset ℕ}

theorem mem_slotsOf : j ∈ slotsOf start end' g ↔
    j < 512 ∧ start / ptsize ≤ g * 512 + j ∧ (g * 512 + j) * ptsize < end' := by
  simp [slotsOf]

theorem mem_seen : j ∈ seen start end' g q ↔
    (j < 512 ∧ start / ptsize ≤ g * 512 + j ∧ (g * 512 + j) * ptsize < end') ∧
      g * 512 + j < q := by
  simp [seen, mem_slotsOf]

theorem seen_succ (hq : q / 512 = g) (hs : start / ptsize ≤ q) (he : q * ptsize < end') :
    seen start end' g (q + 1) = insert (q % 512) (seen start end' g q) := by
  have hqg : g * 512 + q % 512 = q := by omega
  ext j
  rw [Finset.mem_insert, mem_seen, mem_seen]
  constructor
  · rintro ⟨h, hj⟩
    by_cases hjq : g * 512 + j < q
    · exact .inr ⟨h, hjq⟩
    · exact .inl (by omega)
  · rintro (rfl | ⟨h, hj⟩)
    · refine ⟨⟨by omega, by omega, by rwa [hqg]⟩, by omega⟩
    · exact ⟨h, by omega⟩

theorem notMem_seen (hq : q / 512 = g) : q % 512 ∉ seen start end' g q := by
  rw [mem_seen]
  omega

theorem seen_all (h : (g + 1) * 512 ≤ q ∨ end' ≤ q * ptsize) :
    seen start end' g q = slotsOf start end' g := by
  ext j
  rw [mem_seen, mem_slotsOf]
  refine ⟨And.left, fun hj => ⟨hj, ?_⟩⟩
  rcases h with h | h
  · omega
  · exact Nat.lt_of_mul_lt_mul_right (hj.2.2.trans_le h)

theorem seen_none (h : q ≤ start / ptsize ∨ q ≤ g * 512) : seen start end' g q = ∅ := by
  ext j
  rw [mem_seen]
  simp only [Finset.notMem_empty, iff_false]
  omega

theorem pdx0_mul : pdx0 (q * ptsize) = q % 512 := by
  have h : q * ptsize / pgsize = q * 512 := by
    unfold ptsize pgsize
    omega
  rw [pdx0_eq, h, idx0]
  omega

theorem pdx1_mul (hg : userPart g) : pdx1 (g * pdsize) = g := by
  have h : g * pdsize / pgsize = g * 2 ^ 18 := by
    unfold pdsize ptsize pgsize
    omega
  have h₁ : idx1 (g * pdsize / pgsize) = g := by
    rw [h, idx1]
    omega
  rw [pdx1_eq (by rw [isVpn, h₁]; exact hg), h₁]

theorem Tables.dropSlots_insert : (T.dropSlots g V).slots g \ {j} = T.slots g \ insert j V := by
  ext k
  simp only [Tables.dropSlots, Function.update_self, Finset.mem_sdiff, Finset.mem_singleton,
    Finset.mem_insert]
  tauto

/-- The state of the inner loop at the region `q`. -/
def Inner (s : State) (R : ℕ → Role) (d g start end' : ℕ) (T : Tables) (q : ℕ)
    (y : Bool × State) : Prop :=
  y.1 = decide (seen start end' g q ⊆ T.slots g) ∧
    Part s R d (T.dropSlots g (seen start end' g q)) y.2

variable (h : Wf s R) (hd : R d = .root)
include h hd

/-- One iteration of the inner loop. -/
theorem exitPt_spec (hz : ∀ l i j, R l = .leaf d i j → ∀ k < 512, s.word l k = 0)
    (hg : g ∈ T.mids) (hm : R m = .mid d g) (hq : q / 512 = g) (hs : start / ptsize ≤ q)
    (he : q * ptsize < end') {y : Bool × State} (I : Inner s R d g start end' T q y) :
    ∃ y', Inner s R d g start end' T (q + 1) y' ∧
      State.exitPt m (g * pdsize) end' (q * ptsize, y) =
        if (q + 1) * ptsize < (g + 1) * pdsize ∧ (q + 1) * ptsize < end' then
          .inl ((q + 1) * ptsize, y')
        else .inr y' := by
  obtain ⟨f, x⟩ := y
  obtain ⟨hf, P⟩ := I
  dsimp only at hf P
  have hj : q % 512 < 512 := Nat.mod_lt _ (by decide)
  have hV := seen_succ hq hs he
  have hnot : q % 512 ∉ seen start end' g q := notMem_seen hq
  obtain ⟨hin, hout⟩ := P.mid m g hm hg (q % 512) hj
  have hmem : q % 512 ∈ (T.dropSlots g (seen start end' g q)).slots g ↔ q % 512 ∈ T.slots g := by
    simp [Tables.dropSlots, hnot]
  have hcont : ((q + 1) * ptsize ≠ 0 ∧ (q + 1) * ptsize < g * pdsize + pdsize ∧
      (q + 1) * ptsize < end') ↔
      (q + 1) * ptsize < (g + 1) * pdsize ∧ (q + 1) * ptsize < end' := by
    unfold pdsize ptsize pgsize
    omega
  have hnext : q * ptsize + ptsize = (q + 1) * ptsize := (Nat.succ_mul q ptsize).symm
  unfold State.exitPt
  simp only [pdx0_mul, hnext]
  by_cases hx : q % 512 ∈ T.slots g
  · have hword := hin (hmem.mpr hx)
    have hV₀ : has (s.word m (q % 512)) pteV = true := by
      obtain ⟨l, hl⟩ := (mem_slots h hd).mp (P.slots g (hmem.mpr hx))
      obtain ⟨-, m', hm', hv, -⟩ := h.leaf l d g _ hl
      obtain rfl := h.mid_unique hm hm'
      exact hv
    have hl := h.midEntry m d g _ hm hj hV₀
    have hpt : ((List.range 512).all fun i =>
        !has (x.word (pte2page (s.word m (q % 512))) i) pteV) = true := by
      rw [List.all_eq_true]
      intro i hi
      have hne : pte2page (s.word m (q % 512)) ≠ d := by
        intro he
        rw [he, hd] at hl
        simp at hl
      rw [P.word _ hne (by simp [hl]), hz _ _ _ hl i (List.mem_range.mp hi)]
      simp
    rw [hword, if_pos hV₀]
    simp only [hpt, if_true]
    refine ⟨_, ⟨?_, ?_⟩, if_congr hcont rfl rfl⟩
    · rw [hf, hV]
      simp [Finset.insert_subset_iff, hx]
    · have := P.dropLeaf h hd hg hm hl (hmem.mpr hx)
      rw [Finset.erase_eq, Tables.dropSlots_insert, ← hV] at this
      simpa [Tables.dropSlots] using this
  · have hword := hout (mt hmem.mp hx)
    rw [hword]
    simp only [Bool.false_eq_true, if_false]
    refine ⟨_, ⟨?_, ?_⟩, if_congr hcont rfl rfl⟩
    · rw [hV]
      simp [Finset.insert_subset_iff, hx]
    · have hsame : T.slots g \ insert (q % 512) (seen start end' g q) =
          T.slots g \ seen start end' g q := by
        ext k
        simp only [Finset.mem_sdiff, Finset.mem_insert]
        constructor
        · rintro ⟨h₁, h₂⟩
          exact ⟨h₁, fun h₃ => h₂ (.inr h₃)⟩
        · rintro ⟨h₁, h₂⟩
          refine ⟨h₁, ?_⟩
          rintro (rfl | h₃)
          · exact hx h₁
          · exact h₂ h₃
      rw [hV, Tables.dropSlots, hsame]
      exact P

/-- The inner loop gives back the leaf tables that it visits and reports whether all were there. -/
theorem exitPt_loop (hz : ∀ l i j, R l = .leaf d i j → ∀ k < 512, s.word l k = 0)
    (hg : g ∈ T.mids) (hm : R m = .mid d g) (P : Part s R d T x) (hq : q / 512 = g)
    (hs : start / ptsize ≤ q) (he : q * ptsize < end') (h₀ : seen start end' g q = ∅) :
    ∃ y, iterate (State.exitPt m (g * pdsize) end') 513 (q * ptsize, true, x) = some y ∧
      y.1 = decide (slotsOf start end' g ⊆ T.slots g) ∧
      Part s R d (T.dropSlots g (slotsOf start end' g)) y.2 := by
  have hpd : pdsize = 512 * ptsize := by
    unfold pdsize
    decide
  have hpt : 0 < ptsize := by decide
  apply iterate_spec (fun z => ∃ q, z.1 = q * ptsize ∧ q / 512 = g ∧ start / ptsize ≤ q ∧
    q * ptsize < end' ∧ Inner s R d g start end' T q z.2) (fun z => (g + 1) * 512 - z.1 / ptsize)
  · rintro ⟨a, y⟩ ⟨a', y'⟩ ⟨q, rfl, hq, hs, he, I⟩ hf
    obtain ⟨y₁, I₁, hstep⟩ := exitPt_spec h hd hz hg hm hq hs he I
    rw [hstep] at hf
    split at hf
    · rename_i hc
      obtain ⟨rfl, rfl⟩ : (q + 1) * ptsize = a' ∧ y₁ = y' := by simpa using hf
      have hq' : q + 1 < (g + 1) * 512 := by
        apply Nat.lt_of_mul_lt_mul_right (a := ptsize)
        calc (q + 1) * ptsize < (g + 1) * pdsize := hc.1
          _ = (g + 1) * 512 * ptsize := by rw [hpd, Nat.mul_assoc]
      refine ⟨⟨q + 1, rfl, by omega, by omega, hc.2, I₁⟩, ?_⟩
      simp only [Nat.mul_div_cancel _ hpt]
      omega
    · simp at hf
  · rintro ⟨a, y⟩ r ⟨q, rfl, hq, hs, he, I⟩ hf
    obtain ⟨y₁, I₁, hstep⟩ := exitPt_spec h hd hz hg hm hq hs he I
    rw [hstep] at hf
    split at hf
    · simp at hf
    · rename_i hc
      obtain rfl : y₁ = r := by simpa using hf
      have hall : seen start end' g (q + 1) = slotsOf start end' g := by
        apply seen_all
        by_contra hn
        rw [not_or, not_le, not_le] at hn
        refine hc ⟨?_, hn.2⟩
        rw [hpd, ← Nat.mul_assoc]
        exact Nat.mul_lt_mul_of_pos_right hn.1 hpt
      obtain ⟨h₁, h₂⟩ := I₁
      rw [hall] at h₁ h₂
      exact ⟨h₁, h₂⟩
  · refine ⟨q, rfl, hq, hs, he, by simp [h₀], ?_⟩
    have : T.dropSlots g (seen start end' g q) = T := by
      ext1
      · rfl
      · simp [Tables.dropSlots, h₀]
    rw [this]
    exact P
  · simp only [Nat.mul_div_cancel _ hpt]
    omega

omit h hd in
theorem slotsOf_below (hg : g < start / pdsize) : slotsOf start end' g = ∅ := by
  ext j
  rw [mem_slotsOf]
  simp only [Finset.notMem_empty, iff_false]
  unfold pdsize at hg
  unfold ptsize pgsize at *
  omega

omit h hd in
theorem slotsOf_above (hg : end' ≤ g * pdsize) : slotsOf start end' g = ∅ := by
  ext j
  rw [mem_slotsOf]
  simp only [Finset.notMem_empty, iff_false]
  unfold pdsize at hg
  unfold ptsize pgsize at *
  omega

omit h hd in
theorem exitBelow_start : T.exitBelow start end' (start / pdsize) = T := by
  ext1
  · refine Finset.filter_true_of_mem fun g _ => ?_
    rintro ⟨hg, hne, -⟩
    simp [slotsOf_below hg] at hne
  · funext g
    simp only [Tables.exitBelow]
    split
    · rename_i hg
      rw [slotsOf_below hg.1, Finset.sdiff_empty]
    · rfl

omit h hd in
theorem exitBelow_end (hg : end' ≤ g * pdsize) : T.exitBelow start end' g = T.exit start end' := by
  have hempty : ∀ g', ¬ g' < g → slotsOf start end' g' = ∅ := by
    intro g' hg'
    exact slotsOf_above (hg.trans (Nat.mul_le_mul_right _ (not_lt.mp hg')))
  ext1
  · refine Finset.filter_congr fun g' _ => ?_
    by_cases hg' : g' < g
    · simp [hg']
    · simp [hg', hempty g' hg']
  · funext g'
    by_cases hg' : g' < g
    · simp [Tables.exitBelow, Tables.exit, hg']
    · simp [Tables.exitBelow, Tables.exit, hempty g' hg']

omit h hd in
theorem exitBelow_skip (hg : g ∉ T.mids) :
    T.exitBelow start end' (g + 1) = T.exitBelow start end' g := by
  have hle : ∀ g' ∈ T.mids, g' ≤ g ↔ g' < g := by
    intro g' hg'
    have : g' ≠ g := fun he => hg (he ▸ hg')
    omega
  ext1
  · refine Finset.filter_congr fun g' hg' => ?_
    rw [Nat.lt_add_one_iff, hle g' hg']
  · funext g'
    by_cases hg' : g' ∈ T.mids
    · simp [Tables.exitBelow, hg', hle g' hg']
    · simp [Tables.exitBelow, hg']

omit h hd in
theorem exitBelow_succ (hg : g ∈ T.mids) (hne : (slotsOf start end' g).Nonempty) :
    T.exitBelow start end' (g + 1) =
      if slotsOf start end' g ⊆ T.slots g then
        { (T.exitBelow start end' g).dropSlots g (slotsOf start end' g) with
          mids := (T.exitBelow start end' g).mids.erase g }
      else (T.exitBelow start end' g).dropSlots g (slotsOf start end' g) := by
  have hslots : (T.exitBelow start end' (g + 1)).slots =
      ((T.exitBelow start end' g).dropSlots g (slotsOf start end' g)).slots := by
    funext g'
    rcases eq_or_ne g' g with rfl | hgg
    · simp [Tables.exitBelow, Tables.dropSlots, hg]
    · have hle : g' ≤ g ↔ g' < g := by omega
      simp [Tables.exitBelow, Tables.dropSlots, hgg, hle]
  split
  · rename_i hsub
    ext1
    · ext g'
      rcases eq_or_ne g' g with rfl | hgg
      · simp [Tables.exitBelow, hne, hsub]
      · have hle : g' ≤ g ↔ g' < g := by omega
        simp [Tables.exitBelow, hgg, hle]
    · exact hslots
  · rename_i hsub
    ext1
    · ext g'
      rcases eq_or_ne g' g with rfl | hgg
      · simp [Tables.exitBelow, Tables.dropSlots, hsub]
      · have hle : g' ≤ g ↔ g' < g := by omega
        simp [Tables.exitBelow, Tables.dropSlots, hle]
    · exact hslots

omit h hd in
theorem exitNext_eq : x.exitNext (g * pdsize) end' =
    if (g + 1) * pdsize < end' then .inl ((g + 1) * pdsize, (g + 1) * pdsize, x)
    else .inr (some x) := by
  have hpos : (g + 1) * pdsize ≠ 0 := by
    unfold pdsize ptsize pgsize
    omega
  unfold State.exitNext
  rw [← Nat.succ_mul]
  by_cases hlt : (g + 1) * pdsize < end'
  · rw [if_pos ⟨hpos, hlt⟩, if_pos hlt]
  · rw [if_neg fun hx => hlt hx.2, if_neg hlt]

/-- One iteration of the outer loop. -/
theorem exitPd0_spec (hz : ∀ l i j, R l = .leaf d i j → ∀ k < 512, s.word l k = 0)
    (P : Part s R d (T.exitBelow start end' g) x) (hu : userPart g) (hq : q / 512 = g)
    (hs : start / ptsize ≤ q) (he : q * ptsize < end') (h₀ : seen start end' g q = ∅) :
    ∃ x', Part s R d (T.exitBelow start end' (g + 1)) x' ∧
      State.exitPd0 d end' (g * pdsize, q * ptsize, x) =
        if (g + 1) * pdsize < end' then .inl ((g + 1) * pdsize, (g + 1) * pdsize, x')
        else .inr (some x') := by
  have hnext : ∀ y : State, y.exitNext (g * pdsize) end' =
      if (g + 1) * pdsize < end' then .inl ((g + 1) * pdsize, (g + 1) * pdsize, y)
      else .inr (some y) := fun y => exitNext_eq
  have hmem : g ∈ (T.exitBelow start end' g).mids ↔ g ∈ T.mids := by
    simp [Tables.exitBelow]
  have hslots : (T.exitBelow start end' g).slots g = T.slots g := by
    simp [Tables.exitBelow]
  have hqg : g * 512 + q % 512 = q := by omega
  have hne : (slotsOf start end' g).Nonempty := by
    refine ⟨q % 512, mem_slotsOf.mpr ⟨by omega, by omega, ?_⟩⟩
    rwa [hqg]
  obtain ⟨hin, hout⟩ := P.root g hu
  rw [State.exitPd0, pdx1_mul hu]
  by_cases hg : g ∈ T.mids
  · have hword := hin (hmem.mpr hg)
    obtain ⟨m, hm⟩ := (mem_mids h hd).mp (P.mids (hmem.mpr hg))
    obtain ⟨-, -, hV, rfl⟩ := h.mid m d g hm
    obtain ⟨⟨f, y⟩, hloop, hf, P'⟩ := exitPt_loop h hd hz (hmem.mpr hg) hm P hq hs he h₀
    rw [hslots] at hf
    rw [hword, if_pos hV, hloop, exitBelow_succ hg hne, State.exitMid]
    by_cases hsub : slotsOf start end' g ⊆ T.slots g
    · obtain rfl : f = true := by simpa [hsub] using hf
      rw [if_pos hsub]
      refine ⟨_, P'.dropMid h hd (by simpa [Tables.dropSlots] using hmem.mpr hg) hm, ?_⟩
      rw [if_pos rfl, pdx1_mul hu]
      exact hnext _
    · obtain rfl : f = false := by simpa [hsub] using hf
      rw [if_neg hsub, if_neg Bool.false_ne_true]
      exact ⟨_, P', hnext _⟩
  · rw [hout (mt hmem.mp hg), exitBelow_skip hg, if_neg Bool.false_ne_true]
    exact ⟨x, P, hnext _⟩

/-- `exit_range` returns, with the tables of `Tables.exit` in place. -/
theorem exitRange_spec (hz : ∀ l i j, R l = .leaf d i j → ∀ k < 512, s.word l k = 0)
    (P : Part s R d T x) (hs : start % pgsize = 0) (he : end' % pgsize = 0)
    (hu : userAccess start end') :
    ∃ x', x.exitRange d start end' = some x' ∧ Part s R d (T.exit start end') x' := by
  have hpd : pdsize = 512 * ptsize := by
    unfold pdsize
    decide
  have hround : ∀ n, rounddown start n = start / n * n := fun n =>
    Nat.div_mul_self_eq_mod_sub_self.symm
  have hpart : ∀ g, g * pdsize < end' → userPart g := by
    intro g hg
    have := hu.2.2
    unfold pdsize ptsize pgsize at hg
    unfold usertop at this
    constructor <;> omega
  have hspec : ∃ r, iterate (State.exitPd0 d end') (end' + 1)
      (rounddown start pdsize, rounddown start ptsize, x) = some r ∧
      ∃ x', r = some x' ∧ Part s R d (T.exit start end') x' := by
    apply iterate_spec (fun z => ∃ g q, z.1 = g * pdsize ∧ z.2.1 = q * ptsize ∧ q / 512 = g ∧
      start / ptsize ≤ q ∧ q * ptsize < end' ∧ g * pdsize < end' ∧
      seen start end' g q = ∅ ∧ Part s R d (T.exitBelow start end' g) z.2.2) (fun z => end' - z.1)
    · rintro ⟨a, b, y⟩ ⟨a', b', y'⟩ ⟨g, q, rfl, rfl, hq, hsq, heq, hgd, h₀, P⟩ hf
      obtain ⟨x', P', hstep⟩ := exitPd0_spec h hd hz P (hpart g hgd) hq hsq heq h₀
      rw [hstep] at hf
      split at hf
      · rename_i hc
        obtain ⟨rfl, rfl, rfl⟩ : (g + 1) * pdsize = a' ∧ (g + 1) * pdsize = b' ∧ x' = y' := by
          simpa using hf
        have h512 : (g + 1) * pdsize = (g + 1) * 512 * ptsize := by rw [hpd, Nat.mul_assoc]
        refine ⟨⟨g + 1, (g + 1) * 512, rfl, h512, by omega, by omega, by rwa [← h512], hc,
          seen_none (.inr le_rfl), P'⟩, ?_⟩
        have : (g + 1) * pdsize = g * pdsize + pdsize := Nat.succ_mul g pdsize
        have : 0 < pdsize := by
          rw [hpd]
          decide
        dsimp only
        omega
      · simp at hf
    · rintro ⟨a, b, y⟩ r ⟨g, q, rfl, rfl, hq, hsq, heq, hgd, h₀, P⟩ hf
      obtain ⟨x', P', hstep⟩ := exitPd0_spec h hd hz P (hpart g hgd) hq hsq heq h₀
      rw [hstep] at hf
      split at hf
      · simp at hf
      · rename_i hc
        obtain rfl : some x' = r := by simpa using hf
        rw [exitBelow_end (not_lt.mp hc)] at P'
        exact ⟨x', rfl, P'⟩
    · refine ⟨start / pdsize, start / ptsize, hround _, hround _, ?_, le_rfl, ?_, ?_,
        seen_none (.inl le_rfl), ?_⟩
      · rw [Nat.div_div_eq_div_mul, hpd, Nat.mul_comm ptsize]
      · exact (Nat.div_mul_le_self _ _).trans_lt hu.2.1
      · exact (Nat.div_mul_le_self _ _).trans_lt hu.2.1
      · rw [exitBelow_start]
        exact P
    · dsimp only
      omega
  obtain ⟨r, hr, x', rfl, P'⟩ := hspec
  refine ⟨x', ?_, P'⟩
  rw [State.exitRange, if_pos ⟨⟨hs, he⟩, hu⟩, hr]
  rfl

end Loops

section UnmapAll

variable {s : State} {R : ℕ → Role} {D : Finset ℕ} {d : ℕ} {l : List Vma}

def Vma.hasPage (vma : Vma) (v : ℕ) : Bool := vma.vmStart / pgsize ≤ v && v < vma.vmEnd / pgsize

/-- The translations `f` of `d` outside the areas. -/
def clearAreas (f : ℕ → ℕ → ℕ) (d : ℕ) (l : List Vma) : ℕ → ℕ → ℕ := fun d' v =>
  if d' = d ∧ l.any (·.hasPage v) then 0 else f d' v

theorem clearAreas_cons {f : ℕ → ℕ → ℕ} {vma : Vma} : clearAreas
    (clearRange f 0 d (vma.vmStart / pgsize) (vma.vmEnd / pgsize)) d l =
      clearAreas f d (vma :: l) := by
  funext d' v
  simp only [clearAreas, clearRange, List.any_cons, Bool.or_eq_true]
  by_cases hv : vma.hasPage v = true
  · have hv' : vma.vmStart / pgsize ≤ v ∧ v < vma.vmEnd / pgsize := by
      simpa [Vma.hasPage] using hv
    by_cases hd : d' = d
    · simp [hd, hv, hv']
    · simp [hd]
  · have hv' : ¬ (vma.vmStart / pgsize ≤ v ∧ v < vma.vmEnd / pgsize) := by
      simpa [Vma.hasPage] using hv
    simp only [hv', and_false, if_false, hv, Bool.false_eq_true, false_or]

theorem unmapAll_spec (k : Inv s R D) (hd : d ∈ D) (hl : ∀ vma ∈ l, vma.Ok) :
    ∃ t R', l.foldlM (fun s vma => s.unmapRange d vma.vmStart vma.vmEnd) s = some t ∧
      Trim s R D (clearAreas s.pte d l) t R' := by
  induction l generalizing s R with
  | nil => exact ⟨s, R, rfl, (Trim.refl k).congr fun d' _ v _ => by simp [clearAreas]⟩
  | cons vma l ih =>
    have hv := hl vma (by simp)
    obtain ⟨t, R', ht, e⟩ := unmapRange_spec k hd hv.start hv.stop hv.user
    obtain ⟨u, R'', hu, e'⟩ := ih e.inv fun vma h => hl vma (by simp [h])
    refine ⟨u, R'', by simp [ht, hu], (e.trans e' fun p hp => ?_).congr fun d' hd' v hv => ?_⟩
    · obtain ⟨⟨d', v⟩, hx⟩ := hp
      obtain ⟨⟨hd', hv⟩, hm⟩ := mem_maps.mp hx
      rw [e.pte d' hd' v hv, clearRange] at hm
      split at hm
      · simp at hm
      · exact mapped_of hd' hv hm
    · rw [← clearAreas_cons]
      simp only [clearAreas, e.pte d' hd' v hv]

end UnmapAll

section Dismantle

variable {s x : State} {R : ℕ → Role} {D : Finset ℕ} {d p v : ℕ} {T : Tables}

/-- A page of the tables of directory `d`. -/
def OfDir (R : ℕ → Role) (d p : ℕ) : Prop :=
  p = d ∨ (∃ i, R p = .mid d i) ∨ ∃ i j, R p = .leaf d i j

open Classical in
/-- The roles when `d` and its tables are gone; a table that was not given back is lost. -/
noncomputable def lostRole (R : ℕ → Role) (d : ℕ) (T : Tables) (p : ℕ) : Role :=
  if OfDir R d p then if p = d ∨ Gone R d T p then .free else .other else R p

theorem Gone.ofDir (h : Gone R d T p) : OfDir R d p := by
  rcases h with ⟨i, hp, -⟩ | ⟨i, j, hp, -⟩
  · exact .inr (.inl ⟨i, hp⟩)
  · exact .inr (.inr ⟨i, j, hp⟩)

theorem lostRole_of (h : ¬ OfDir R d p) : lostRole R d T p = R p := if_neg h

theorem lostRole_iff {y : Role} (hf : y ≠ .free) (ho : y ≠ .other) :
    lostRole R d T p = y ↔ ¬ OfDir R d p ∧ R p = y := by
  by_cases h : OfDir R d p
  · rw [lostRole, if_pos h]
    simp only [h, not_true_eq_false, false_and, iff_false]
    split
    · exact fun h => hf h.symm
    · exact fun h => ho h.symm
  · simp [lostRole_of h, h]

variable (P : Part s R d T x)
include P

theorem Part.outside (hp : ¬ OfDir R d p) :
    (x.freePage d).word p = s.word p ∧ (x.freePage d).ref p = s.ref p := by
  constructor
  · exact P.word p (fun h => hp (.inl h)) fun i h => hp (.inr (.inl ⟨i, h⟩))
  · change Function.update x.ref d 0 p = s.ref p
    rw [Function.update_of_ne fun h => hp (.inl h)]
    exact (P.ref p).2 fun h => hp h.ofDir

variable (k : Inv s R D) (hd : d ∈ D)
include k hd

theorem Part.wf_putPgdir : Wf (x.freePage d) (lostRole R d T) := by
  have hroot := (k.dirs d).mpr hd
  have hfree : ∀ p, R p = .free → ¬ OfDir R d p := by
    rintro p hp (rfl | ⟨i, h⟩ | ⟨i, j, h⟩)
    · simp [hp] at hroot
    · simp [hp] at h
    · simp [hp] at h
  have hof : ∀ p d' i, R p = .mid d' i → d' ≠ d → ¬ OfDir R d p := by
    rintro p d' i hp hdd (rfl | ⟨i', h⟩ | ⟨i', j, h⟩)
    · simp [hp] at hroot
    · rw [hp] at h
      simp only [Role.mid.injEq] at h
      exact hdd h.1
    · simp [hp] at h
  have hof' : ∀ p d' i j, R p = .leaf d' i j → d' ≠ d → ¬ OfDir R d p := by
    rintro p d' i j hp hdd (rfl | ⟨i', h⟩ | ⟨i', j', h⟩)
    · simp [hp] at hroot
    · simp [hp] at h
    · rw [hp] at h
      simp only [Role.leaf.injEq] at h
      exact hdd h.1
  have hw : ∀ p, ¬ OfDir R d p → (x.freePage d).word p = s.word p := fun p hp =>
    (P.outside hp).1
  refine ⟨fun p => ?_, fun p hp => ?_, ?_, ?_, ?_, ?_, ?_⟩
  · change _ ↔ p ∈ insert d x.free
    rw [Finset.mem_insert, P.free, ← k.wf.free]
    by_cases h : OfDir R d p
    · simp only [lostRole, if_pos h]
      have hn : R p ≠ .free := fun hp => hfree p hp h
      by_cases hg : p = d ∨ Gone R d T p
      · simp only [if_pos hg, true_iff]
        tauto
      · simp only [if_neg hg, reduceCtorEq, false_iff]
        tauto
    · rw [lostRole_of h]
      have h₁ : p ≠ d := fun hp => h (.inl hp)
      have h₂ : ¬ Gone R d T p := fun hp => h hp.ofDir
      tauto
  · change Function.update x.ref d 0 p = 0
    rcases eq_or_ne p d with rfl | hpd
    · simp
    · rw [Function.update_of_ne hpd]
      rcases (P.free p).mp (Finset.mem_of_mem_insert_of_ne hp hpd) with hp | hp
      · have hn : ¬ Gone R d T p := fun h => hfree p ((k.wf.free p).mpr hp) h.ofDir
        rw [(P.ref p).2 hn]
        exact k.wf.freeRef p hp
      · exact (P.ref p).1 hp
  · intro d' i hd' hi hv
    rw [lostRole_iff (by simp) (by simp)] at hd'
    rw [hw d' hd'.1] at hv ⊢
    have hm := k.wf.rootEntry d' i hd'.2 hi hv
    rw [lostRole_of (hof _ d' i hm fun h => hd'.1 (.inl h))]
    exact hm
  · intro m d' i hm
    rw [lostRole_iff (by simp) (by simp)] at hm
    obtain ⟨h₁, h₂⟩ := k.wf.mid m d' i hm.2
    have hdd : d' ≠ d := by
      rintro rfl
      exact hm.1 (.inr (.inl ⟨i, hm.2⟩))
    have hd' : ¬ OfDir R d d' := by
      rintro (h | ⟨i', h⟩ | ⟨i', j, h⟩)
      · exact hdd h
      · simp [h₁] at h
      · simp [h₁] at h
    rw [hw d' hd', lostRole_of hd']
    exact ⟨h₁, h₂⟩
  · intro m d' i j hm hj hv
    rw [lostRole_iff (by simp) (by simp)] at hm
    rw [hw m hm.1] at hv ⊢
    have hl := k.wf.midEntry m d' i j hm.2 hj hv
    have hdd : d' ≠ d := by
      rintro rfl
      exact hm.1 (.inr (.inl ⟨i, hm.2⟩))
    rw [lostRole_of (hof' _ d' i j hl hdd)]
    exact hl
  · intro l d' i j hl
    rw [lostRole_iff (by simp) (by simp)] at hl
    obtain ⟨hj, m, hm, hv⟩ := k.wf.leaf l d' i j hl.2
    have hdd : d' ≠ d := by
      rintro rfl
      exact hl.1 (.inr (.inr ⟨i, j, hl.2⟩))
    have hm' := hof m d' i hm hdd
    refine ⟨hj, m, (lostRole_of hm').trans hm, ?_⟩
    rw [hw m hm']
    exact hv
  · intro l d' i j n hl hn
    rw [lostRole_iff (by simp) (by simp)] at hl
    rw [hw l hl.1]
    rcases k.wf.leafEntry l d' i j n hl.2 hn with h₀ | ⟨h₁, h₂⟩
    · exact .inl h₀
    · refine .inr ⟨h₁, ?_⟩
      rw [lostRole_iff (by simp) (by simp)]
      refine ⟨?_, h₂⟩
      rintro (h | ⟨i', h⟩ | ⟨i', j', h⟩)
      · rw [h, hroot] at h₂
        simp at h₂
      · simp [h₂] at h
      · simp [h₂] at h

/-- After `exit_mmap` and `put_pgdir` the other address spaces are as before. -/
theorem Part.inv_putPgdir (hz : ∀ v, isVpn v → s.pte d v = 0) :
    Inv (x.freePage d) (lostRole R d T) (D.erase d) ∧
      (∀ d' ∈ D.erase d, ∀ v, isVpn v → (x.freePage d).pte d' v = s.pte d' v) ∧
      ∀ p, lostRole R d T p = .user ↔ R p = .user := by
  have hroot := (k.dirs d).mpr hd
  have hwf := P.wf_putPgdir k hd
  have hdirs : ∀ p, lostRole R d T p = .root ↔ p ∈ D.erase d := by
    intro p
    rw [lostRole_iff (by simp) (by simp), Finset.mem_erase, k.dirs]
    constructor
    · rintro ⟨h₁, h₂⟩
      exact ⟨fun h => h₁ (.inl h), h₂⟩
    · rintro ⟨h₁, h₂⟩
      refine ⟨?_, h₂⟩
      rintro (h | ⟨i, h⟩ | ⟨i, j, h⟩)
      · exact h₁ h
      · simp [(k.dirs p).mpr h₂] at h
      · simp [(k.dirs p).mpr h₂] at h
  have huser : ∀ p, lostRole R d T p = .user ↔ R p = .user := by
    intro p
    rw [lostRole_iff (by simp) (by simp)]
    refine ⟨And.right, fun hp => ⟨?_, hp⟩⟩
    rintro (rfl | ⟨i, h⟩ | ⟨i, j, h⟩)
    · simp [hp] at hroot
    · simp [hp] at h
    · simp [hp] at h
  have hpte : ∀ d' ∈ D.erase d, ∀ v, isVpn v → (x.freePage d).pte d' v = s.pte d' v := by
    intro d' hd' v hv
    have hd'r := (hdirs d').mpr hd'
    have hdd := (Finset.mem_erase.mp hd').1
    rcases k.wf.pte_cases ((k.dirs d').mpr (Finset.mem_of_mem_erase hd')) hv with
      ⟨l, hl, he⟩ | ⟨hn, he⟩
    · have hl' : ¬ OfDir R d l := by
        rintro (rfl | ⟨i, h⟩ | ⟨i, j, h⟩)
        · simp [hl] at hroot
        · simp [hl] at h
        · rw [hl] at h
          simp only [Role.leaf.injEq] at h
          exact hdd h.1
      rw [he, hwf.pte_leaf ((lostRole_of hl').trans hl), (P.outside hl').1]
    · rw [he]
      refine hwf.pte_none hd'r hv fun l hl => hn l ?_
      exact ((lostRole_iff (by simp) (by simp)).mp hl).2
  refine ⟨⟨hwf, hdirs, fun p hp => ?_⟩, hpte, huser⟩
  have hmaps : (x.freePage d).maps (D.erase d) p = s.maps D p := by
    ext ⟨d', v⟩
    rw [mem_maps, mem_maps]
    constructor
    · rintro ⟨⟨hd', hv⟩, hm⟩
      rw [hpte d' hd' v hv] at hm
      exact ⟨⟨Finset.mem_of_mem_erase hd', hv⟩, hm⟩
    · rintro ⟨⟨hd', hv⟩, hm⟩
      have hdd : d' ≠ d := by
        rintro rfl
        rw [hz v hv] at hm
        simp at hm
      have hd'' := Finset.mem_erase.mpr ⟨hdd, hd'⟩
      rw [hpte d' hd'' v hv]
      exact ⟨⟨hd'', hv⟩, hm⟩
  have hp' := (huser p).mp hp
  have hn : ¬ OfDir R d p := ((lostRole_iff (by simp) (by simp)).mp hp).1
  rw [hmaps, (P.outside hn).2, k.refs p hp']

end Dismantle

end UCore.PageTable

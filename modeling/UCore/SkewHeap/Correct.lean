import UCore.Library.Run
import UCore.SkewHeap.Trees

/-! # Correctness of the skew heap

For every comparator that is a total preorder, insertions and removals in any
order keep an ordered tree of exactly the present entries, and every operation
ends.
-/

namespace UCore.SkewHeap

open Library Library.SkewHeap BinaryTree

variable {comp : ℕ → ℕ → ℤ} {m : Entries} {par p : Option ℕ} {t : BinaryTree ℕ} {c c' : Config}

/-- A total preorder with the values of a three-way comparison. -/
structure Comparator (comp : ℕ → ℕ → ℤ) : Prop where
  values : ∀ a b, comp a b = -1 ∨ comp a b = 0 ∨ comp a b = 1
  swap : ∀ a b, comp b a = -comp a b
  trans : ∀ a b c, comp a b ≤ 0 → comp b c ≤ 0 → comp a c ≤ 0

theorem Comparator.strictOrder (h : Comparator comp) : StrictOrder (less comp) := by
  have hn : ∀ {x y}, less comp x y = false ↔ comp y x ≤ 0 := by
    intro x y
    have := h.values x y
    have := h.swap x y
    simp only [less, decide_eq_false_iff_not]
    omega
  constructor
  · intro x y hxy
    have : comp x y = -1 := by simpa [less] using hxy
    rw [hn]
    omega
  · intro x y z hzy hyx
    rw [hn] at hzy hyx ⊢
    exact h.trans x y z hyx hzy

theorem Rep.parent (h : Rep m par p t) (ho : Ordered (less comp) t) {x : ℕ} (hx : x ∈ elems t) :
    p = some x ∧ m.parent x = par ∨
      ∃ y ∈ elems t, m.parent x = some y ∧ less comp x y = false := by
  induction t generalizing par p with
  | nil => exact absurd hx List.not_mem_nil
  | node y l r hl hr =>
    obtain ⟨hp, hy, rl, rr⟩ := h
    obtain ⟨hmin, ol, orr⟩ := ho
    have hroot : y ∈ elems (.node y l r) := List.mem_cons_self
    rcases List.mem_cons.mp hx with rfl | hx'
    · exact .inl ⟨hp, hy⟩
    · have hle := hmin x hx'
      rcases List.mem_append.mp hx' with hm | hm
      · rcases hl rl ol hm with ⟨-, he⟩ | ⟨z, hz, he⟩
        · exact .inr ⟨y, hroot, he, hle⟩
        · exact .inr ⟨z, by simp [hz], he⟩
      · rcases hr rr orr hm with ⟨-, he⟩ | ⟨z, hz, he⟩
        · exact .inr ⟨y, hroot, he, hle⟩
        · exact .inr ⟨z, by simp [hz], he⟩

theorem Rep.root_le (hc : Comparator comp) {r : ℕ} (h : Rep m par (some r) t)
    (ho : Ordered (less comp) t) {x : ℕ} (hx : x ∈ elems t) : comp x r ≠ -1 := by
  cases t with
  | nil => exact absurd hx List.not_mem_nil
  | node y l r' =>
    obtain rfl : r = y := Option.some.inj h.1
    rcases List.mem_cons.mp hx with rfl | hx
    · have := hc.swap x x
      omega
    · simpa [less] using ho.1 x hx

/-- The entries in the heap are the present ones, each once, every parent pointer is exact, and
no entry is less than its parent or the root. -/
structure Correct (comp : ℕ → ℕ → ℤ) (c : Config) : Prop where
  tree : ∃ t, Rep c.entries none c.root t ∧ (elems t).Nodup ∧ ∀ x, x ∈ elems t ↔ x ∈ c.members
  parent_le : ∀ x ∈ c.members, ∀ p, c.entries.parent x = some p → p ∈ c.members ∧ comp x p ≠ -1
  least : ∀ r, c.root = some r → r ∈ c.members ∧ ∀ x ∈ c.members, comp x r ≠ -1

/-- What the operations preserve: an ordered tree of the present entries. -/
structure Inv (comp : ℕ → ℕ → ℤ) (c : Config) (t : BinaryTree ℕ) : Prop where
  rep : Rep c.entries none c.root t
  nodup : (elems t).Nodup
  mem_iff : ∀ x, x ∈ elems t ↔ x ∈ c.members
  ordered : Ordered (less comp) t

namespace Inv

theorem correct (hc : Comparator comp) (h : Inv comp c t) : Correct comp c := by
  constructor
  · exact ⟨t, h.rep, h.nodup, h.mem_iff⟩
  · intro x hx p hp
    rcases h.rep.parent h.ordered ((h.mem_iff x).mpr hx) with ⟨-, he⟩ | ⟨y, hy, he, hle⟩
    · exact absurd (hp.symm.trans he) (Option.some_ne_none p)
    · obtain rfl : p = y := Option.some.inj (hp.symm.trans he)
      exact ⟨(h.mem_iff p).mp hy, by simpa [less] using hle⟩
  · intro r hr
    have hrep := h.rep
    rw [hr] at hrep
    refine ⟨(h.mem_iff r).mp hrep.root_mem, ?_⟩
    intro x hx
    exact hrep.root_le hc h.ordered ((h.mem_iff x).mpr hx)

theorem call (hc : Comparator comp) (h : Inv comp c t) {op : Op} (ho : c.Allowed op) {fuel : ℕ}
    (hf : t.numNodes + 1 < fuel) :
    ∃ c' t', c.call comp fuel op = some c' ∧ Inv comp c' t' := by
  cases op with
  | insert b =>
    have hb : b ∉ elems t := fun hm => ho ((h.mem_iff b).mp hm)
    obtain ⟨o, m', he, hr, -⟩ := skewHeapInsert_spec comp h.rep h.nodup hb hf
    have hp := elems_merge (less comp) t (.node b .nil .nil)
    refine ⟨⟨m', o, insert b c.members⟩, _, by simp [Config.call, he], hr, ?_, ?_, ?_⟩
    · rw [hp.nodup_iff, List.nodup_append]
      refine ⟨h.nodup, by simp, ?_⟩
      rintro x hx y hy rfl
      exact hb (by simpa [List.mem_singleton.mp hy] using hx)
    · intro x
      rw [mem_merge, Finset.mem_insert, h.mem_iff]
      simp [or_comm]
    · apply h.ordered.merge hc.strictOrder
      exact ⟨by simp, trivial, trivial⟩
  | remove b =>
    have hb : b ∈ elems t := (h.mem_iff b).mpr ho
    have hf' : t.numNodes < fuel := by omega
    obtain ⟨o, m', he, hr, -⟩ := skewHeapRemove_spec comp h.rep h.nodup hb hf'
    refine ⟨⟨m', o, c.members.erase b⟩, _, by simp [Config.call, he], hr, nodup_erase h.nodup, ?_,
      h.ordered.erase hc.strictOrder h.nodup⟩
    intro x
    rw [mem_erase h.nodup, Finset.mem_erase, h.mem_iff]

end Inv

theorem skewHeapMerge_mono {fuel k : ℕ} {a b : Option ℕ} {r : Option ℕ × Entries}
    (h : skewHeapMerge comp fuel m a b = some r) :
    skewHeapMerge comp (fuel + k) m a b = some r := by
  induction fuel generalizing a b r with
  | zero => exact absurd h.symm (Option.some_ne_none r)
  | succ fuel ih =>
    rw [Nat.add_right_comm]
    cases a with
    | none => exact h
    | some a =>
      cases b with
      | none => exact h
      | some b =>
        simp only [skewHeapMerge] at h ⊢
        split at h
        · obtain ⟨o, ho, rfl⟩ := Option.map_eq_some_iff.mp h
          rw [if_pos ‹_›, ih ho]
          rfl
        · obtain ⟨o, ho, rfl⟩ := Option.map_eq_some_iff.mp h
          rw [if_neg ‹_›, ih ho]
          rfl

theorem skewHeapInsert_mono {fuel k b : ℕ} {a : Option ℕ} {r : Option ℕ × Entries}
    (h : skewHeapInsert comp fuel m a b = some r) : skewHeapInsert comp (fuel + k) m a b = some r :=
  skewHeapMerge_mono h

theorem skewHeapRemove_mono {fuel k b : ℕ} {a : Option ℕ} {r : Option ℕ × Entries}
    (h : skewHeapRemove comp fuel m a b = some r) :
    skewHeapRemove comp (fuel + k) m a b = some r := by
  obtain ⟨o, ho, rfl⟩ := Option.map_eq_some_iff.mp h
  exact Option.map_eq_some_iff.mpr ⟨o, skewHeapMerge_mono ho, rfl⟩

theorem call_mono {fuel k : ℕ} {op : Op} (h : c.call comp fuel op = some c') :
    c.call comp (fuel + k) op = some c' := by
  cases op with
  | insert b =>
    obtain ⟨o, ho, rfl⟩ := Option.map_eq_some_iff.mp h
    exact Option.map_eq_some_iff.mpr ⟨o, skewHeapInsert_mono ho, rfl⟩
  | remove b =>
    obtain ⟨o, ho, rfl⟩ := Option.map_eq_some_iff.mp h
    exact Option.map_eq_some_iff.mpr ⟨o, skewHeapRemove_mono ho, rfl⟩

theorem Inv.step (hc : Comparator comp) (h : Inv comp c t) {op : Op} (ho : c.Allowed op) {fuel : ℕ}
    (he : c.call comp fuel op = some c') : ∃ t', Inv comp c' t' := by
  have hf : t.numNodes + 1 < fuel + (t.numNodes + 2) := by omega
  obtain ⟨c₁, t', he', h'⟩ := h.call hc ho hf
  obtain rfl : c₁ = c' := Option.some.inj (he'.symm.trans (call_mono he))
  exact ⟨t', h'⟩

/-- For every comparator, any insertions of fresh entries and removals of present ones lead from
the empty heap to correct heaps, and all of them end, as all merges of disjoint heaps do. -/
theorem skewHeap_correct (comp : ℕ → ℕ → ℤ) (hc : Comparator comp) (m : Entries) :
    (∀ ops c, Runs (fun c op c' => c.Allowed op ∧ ∃ fuel, c.call comp fuel op = some c')
        ⟨m, none, ∅⟩ ops c →
      Correct comp c ∧ ∀ op, c.Allowed op → ∃ fuel, (c.call comp fuel op).isSome) ∧
      ∀ m par p s par' q t, Rep m par p s → Rep m par' q t → (elems s ++ elems t).Nodup →
        ∃ fuel, (skewHeapMerge comp fuel m p q).isSome := by
  constructor
  · intro ops c hr
    obtain ⟨t, h⟩ : ∃ t, Inv comp c t := by
      apply hr.invariant (P := fun c => ∃ t, Inv comp c t)
      · rintro c op c' ⟨t, h⟩ ⟨ho, fuel, he⟩
        exact h.step hc ho he
      · exact ⟨.nil, rfl, List.nodup_nil, by simp, trivial⟩
    refine ⟨h.correct hc, ?_⟩
    intro op ho
    obtain ⟨c', -, he, -⟩ := h.call hc ho (Nat.lt_succ_self _)
    exact ⟨_, by rw [he]; rfl⟩
  · intro m par p s par' q t hs ht hn
    obtain ⟨o, m', -, he, -⟩ := skewHeapMerge_spec comp hs ht hn (Nat.lt_succ_self _)
    exact ⟨_, by rw [he]; rfl⟩

def compareAddresses (a b : ℕ) : ℤ := if a < b then -1 else if a = b then 0 else 1

theorem comparator_addresses : Comparator compareAddresses := by
  constructor <;> (unfold compareAddresses; intros; split_ifs at * <;> omega)

instance Config.decidableAllowed (c : Config) : DecidablePred c.Allowed
  | .insert b => inferInstanceAs (Decidable (b ∉ c.members))
  | .remove b => inferInstanceAs (Decidable (b ∈ c.members))

/-- The least entry is removed, and a new least one comes in. -/
def heapCalls : List Op := [.insert 5, .insert 3, .insert 7, .remove 3, .insert 4, .remove 7]

theorem skewHeap_correct_addresses : ∃ c,
    Runs (fun c op c' => c.Allowed op ∧ ∃ fuel, c.call compareAddresses fuel op = some c')
      ⟨⟨fun _ => none, fun _ => none, fun _ => none⟩, none, ∅⟩ heapCalls c ∧
    c.root = some 4 ∧ c.members = {4, 5} ∧ Correct compareAddresses c := by
  have hc : (heapCalls.foldlM
      (fun (c : Config) op => if c.Allowed op then c.call compareAddresses 9 op else none)
      ⟨⟨fun _ => none, fun _ => none, fun _ => none⟩, none, ∅⟩).map
      (fun c => (c.root, c.members)) = some (some 4, {4, 5}) := by decide +kernel
  obtain ⟨c, hr, hl⟩ := Option.map_eq_some_iff.mp hc
  obtain ⟨hroot, hmembers⟩ := Prod.mk.inj hl
  have hruns := (Runs.of_guard hr).mono
    (g := fun c op c' => c.Allowed op ∧ ∃ fuel, c.call compareAddresses fuel op = some c')
    fun _ _ _ h => ⟨h.1, 9, h.2⟩
  exact ⟨c, hruns, hroot, hmembers, ((skewHeap_correct _ comparator_addresses _).1 _ c hruns).1⟩

end UCore.SkewHeap

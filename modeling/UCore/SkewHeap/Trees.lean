import Mathlib.Data.Finset.Basic
import Mathlib.Tactic.Simps.Basic
import UCore.Library.SkewHeap

/-! # Skew heaps of linked entries

`libs/skew_heap.h`: an entry is named by its address, and the null pointer is
`none`. The recursion of a merge is cut off by a bound on its depth, where the
result is `none`.
-/

namespace UCore.SkewHeap

/-- The fields of every `skew_heap_entry`. -/
@[ext]
structure Entries where
  parent : ℕ → Option ℕ
  left : ℕ → Option ℕ
  right : ℕ → Option ℕ

namespace Entries

@[simps]
def setParent (m : Entries) (a : ℕ) (p : Option ℕ) : Entries :=
  { m with parent := Function.update m.parent a p }

@[simps]
def setLeft (m : Entries) (a : ℕ) (l : Option ℕ) : Entries :=
  { m with left := Function.update m.left a l }

@[simps]
def setRight (m : Entries) (a : ℕ) (r : Option ℕ) : Entries :=
  { m with right := Function.update m.right a r }

/-- `if (l) l->parent = p`. -/
def adopt (m : Entries) (l p : Option ℕ) : Entries :=
  match l with
  | none => m
  | some l => m.setParent l p

end Entries

def skewHeapInit (m : Entries) (a : ℕ) : Entries :=
  ((m.setParent a none).setRight a none).setLeft a none

variable (comp : ℕ → ℕ → ℤ)

def skewHeapMerge : ℕ → Entries → Option ℕ → Option ℕ → Option (Option ℕ × Entries)
  | 0, _, _, _ => none
  | _ + 1, m, none, b => some (b, m)
  | _ + 1, m, some a, none => some (some a, m)
  | fuel + 1, m, some a, some b =>
    if comp a b = -1 then
      let r := m.left a
      (skewHeapMerge fuel m (m.right a) (some b)).map fun o =>
        (some a, ((o.2.setLeft a o.1).setRight a r).adopt o.1 (some a))
    else
      let r := m.left b
      (skewHeapMerge fuel m (some a) (m.right b)).map fun o =>
        (some b, ((o.2.setLeft b o.1).setRight b r).adopt o.1 (some b))

def skewHeapInsert (fuel : ℕ) (m : Entries) (a : Option ℕ) (b : ℕ) :
    Option (Option ℕ × Entries) :=
  skewHeapMerge comp fuel (skewHeapInit m b) a (some b)

def skewHeapRemove (fuel : ℕ) (m : Entries) (a : Option ℕ) (b : ℕ) :
    Option (Option ℕ × Entries) :=
  let p := m.parent b
  (skewHeapMerge comp fuel m (m.left b) (m.right b)).map fun o =>
    let rep := o.1
    let m := o.2.adopt rep p
    match p with
    | some p => (a, if m.left p = some b then m.setLeft p rep else m.setRight p rep)
    | none => (rep, m)

/-! ## Runs -/

inductive Op
  | insert (b : ℕ)
  | remove (b : ℕ)
  deriving DecidableEq, Repr

/-- A heap with the entries that were inserted and not removed. -/
structure Config where
  entries : Entries
  root : Option ℕ
  members : Finset ℕ

/-- An insertion is of a fresh entry, a removal of one in the heap. -/
def Config.Allowed (c : Config) : Op → Prop
  | .insert b => b ∉ c.members
  | .remove b => b ∈ c.members

def Config.call (fuel : ℕ) (c : Config) : Op → Option Config
  | .insert b => (skewHeapInsert comp fuel c.entries c.root b).map fun o =>
      ⟨o.2, o.1, insert b c.members⟩
  | .remove b => (skewHeapRemove comp fuel c.entries c.root b).map fun o =>
      ⟨o.2, o.1, c.members.erase b⟩

/-! ## Entries as trees

The entries below a pointer form a tree with exact parent pointers, and the
operations on entries are those on trees.
-/

open Library.SkewHeap BinaryTree

variable {m m' : Entries} {par par' p q : Option ℕ} {s t l r : BinaryTree ℕ} {a b x : ℕ}
  {fuel : ℕ}

/-- The pointer `p` leads to the tree, whose root has the parent `par`. -/
def Rep (m : Entries) : Option ℕ → Option ℕ → BinaryTree ℕ → Prop
  | _, p, .nil => p = none
  | par, p, .node x l r =>
    p = some x ∧ m.parent x = par ∧ Rep m (some x) (m.left x) l ∧ Rep m (some x) (m.right x) r

/-- The order by which `comp` arranges a heap. -/
def less (comp : ℕ → ℕ → ℤ) (a b : ℕ) : Bool := decide (comp a b = -1)

/-- The entries in the list have kept their fields. -/
def Keeps (m m' : Entries) (x : ℕ) : Prop :=
  m'.parent x = m.parent x ∧ m'.left x = m.left x ∧ m'.right x = m.right x

theorem Keeps.trans {m'' : Entries} (h : Keeps m m' x) (h' : Keeps m' m'' x) : Keeps m m'' x :=
  ⟨h'.1.trans h.1, h'.2.1.trans h.2.1, h'.2.2.trans h.2.2⟩

namespace Rep

theorem nil : Rep m par none .nil := rfl

theorem root_mem (h : Rep m par (some x) t) : x ∈ elems t := by
  cases t with
  | nil => exact absurd h (Option.some_ne_none x)
  | node y l r =>
    obtain rfl := Option.some.inj h.1
    exact List.mem_cons_self

theorem eq_none (h : Rep m par none t) : t = .nil := by
  cases t with
  | nil => rfl
  | node x l r => exact absurd h.1.symm (Option.some_ne_none x)

theorem unique (h : Rep m par p s) (h' : Rep m par' p t) : s = t := by
  induction s generalizing par par' p t with
  | nil =>
    obtain rfl : p = none := h
    exact h'.eq_none.symm
  | node x l r hl hr =>
    obtain ⟨rfl, -, rl, rr⟩ := h
    cases t with
    | nil => exact absurd h' (Option.some_ne_none x)
    | node y l' r' =>
      obtain ⟨he, -, rl', rr'⟩ := h'
      obtain rfl : x = y := Option.some.inj he
      rw [hl rl rl', hr rr rr']

theorem congr (h : Rep m par p t) (hk : ∀ x ∈ elems t, Keeps m m' x) : Rep m' par p t := by
  induction t generalizing par p with
  | nil => exact h
  | node x l r hl hr =>
    obtain ⟨hp, hx, rl, rr⟩ := h
    obtain ⟨k₁, k₂, k₃⟩ := hk x (by simp)
    refine ⟨hp, k₁.trans hx, ?_, ?_⟩
    · rw [k₂]
      exact hl rl fun y hy => hk y (by simp [hy])
    · rw [k₃]
      exact hr rr fun y hy => hk y (by simp [hy])

theorem adopt (h : Rep m par p t) (hn : (elems t).Nodup) : Rep (m.adopt p q) q p t := by
  cases t with
  | nil =>
    obtain rfl : p = none := h
    exact nil
  | node x l r =>
    obtain ⟨rfl, -, rl, rr⟩ := h
    have hx : x ∉ elems l ++ elems r := (List.nodup_cons.mp hn).1
    have hk : ∀ y ∈ elems l ++ elems r, Keeps m (m.setParent x q) y := by
      intro y hy
      have hne : y ≠ x := fun he => hx (he ▸ hy)
      exact ⟨Function.update_of_ne hne _ _, rfl, rfl⟩
    refine ⟨rfl, Function.update_self _ _ _, ?_, ?_⟩
    · exact rl.congr fun y hy => hk y (List.mem_append_left _ hy)
    · exact rr.congr fun y hy => hk y (List.mem_append_right _ hy)

end Rep

theorem keeps_adopt (h : p ≠ some x) : Keeps m (m.adopt p q) x := by
  cases p with
  | none => exact ⟨rfl, rfl, rfl⟩
  | some y =>
    have hne : x ≠ y := fun he => h (he ▸ rfl)
    exact ⟨Function.update_of_ne hne _ _, rfl, rfl⟩

@[simp] theorem adopt_left : (m.adopt p q).left = m.left := by
  cases p <;> rfl

@[simp] theorem adopt_right : (m.adopt p q).right = m.right := by
  cases p <;> rfl

/-- An entry gets the tree that a merge has made of its right subtree and further entries on its
left, and its old left subtree on its right. -/
theorem Rep.relink {us : List ℕ} (hs : Rep m par (some x) (.node x l r)) (ht : Rep m' par' p t)
    (hp : (elems t).Perm (elems r ++ us)) (hn : (elems (.node x l r) ++ us).Nodup)
    (hk : ∀ z ∉ elems r ++ us, Keeps m m' z) :
    Rep (((m'.setLeft x p).setRight x (m.left x)).adopt p (some x)) par (some x) (.node x t l) ∧
      ∀ z ∉ elems (.node x l r) ++ us,
        Keeps m (((m'.setLeft x p).setRight x (m.left x)).adopt p (some x)) z := by
  obtain ⟨-, hx, rl, -⟩ := hs
  simp only [elems_node, List.cons_append, List.append_assoc, List.nodup_cons] at hn
  obtain ⟨hxn, hn⟩ := hn
  obtain ⟨-, hru, hd⟩ := List.nodup_append.mp hn
  have hxru : x ∉ elems r ++ us := fun hm => hxn (List.mem_append_right _ hm)
  have hxl : x ∉ elems l := fun hm => hxn (List.mem_append_left _ hm)
  have hxt : x ∉ elems t := fun hm => hxru (hp.mem_iff.mp hm)
  have hset : ∀ z ≠ x, Keeps m' ((m'.setLeft x p).setRight x (m.left x)) z := fun z hz =>
    ⟨rfl, Function.update_of_ne hz _ _, Function.update_of_ne hz _ _⟩
  have hroot : ∀ z ∉ elems t, p ≠ some z := by
    rintro z hz rfl
    exact hz ht.root_mem
  have hall : ∀ z ≠ x, z ∉ elems r ++ us →
      Keeps m (((m'.setLeft x p).setRight x (m.left x)).adopt p (some x)) z := fun z hz hm =>
    ((hk z hm).trans (hset z hz)).trans (keeps_adopt (hroot z fun ht => hm (hp.mem_iff.mp ht)))
  refine ⟨⟨rfl, ?_, ?_, ?_⟩, ?_⟩
  · exact (keeps_adopt (hroot x hxt)).1.trans ((hk x hxru).1.trans hx)
  · rw [adopt_left]
    simp only [Entries.setRight_left, Entries.setLeft_left, Function.update_self]
    have ht' : Rep ((m'.setLeft x p).setRight x (m.left x)) par' p t :=
      ht.congr fun z hz => hset z fun he => hxt (he ▸ hz)
    exact ht'.adopt (hp.nodup_iff.mpr hru)
  · rw [adopt_right]
    simp only [Entries.setRight_right, Function.update_self]
    apply rl.congr
    intro z hz
    exact hall z (fun he => hxl (he ▸ hz)) fun hm => hd z hz z hm rfl
  · intro z hz
    simp only [elems_node, List.cons_append, List.append_assoc, List.mem_cons, not_or] at hz
    exact hall z hz.1 fun hm => hz.2 (List.mem_append_right _ hm)

/-- A merge ends on disjoint heaps, links their merged tree and leaves all other entries alone. -/
theorem skewHeapMerge_spec (hs : Rep m par p s) (ht : Rep m par' q t)
    (hn : (elems s ++ elems t).Nodup) (hf : s.numNodes + t.numNodes < fuel) :
    ∃ o m' par'', skewHeapMerge comp fuel m p q = some (o, m') ∧ (par'' = par ∨ par'' = par') ∧
      Rep m' par'' o (merge (less comp) s t) ∧ ∀ x ∉ elems s ++ elems t, Keeps m m' x := by
  induction s, t using merge.induct (less comp) generalizing par par' p q fuel with
  | case1 t =>
    obtain ⟨fuel, rfl⟩ := Nat.exists_eq_add_one_of_ne_zero (by omega : fuel ≠ 0)
    obtain rfl : p = none := hs
    exact ⟨q, m, par', rfl, .inr rfl, by simpa using ht, fun _ _ => ⟨rfl, rfl, rfl⟩⟩
  | case2 x l r =>
    obtain ⟨fuel, rfl⟩ := Nat.exists_eq_add_one_of_ne_zero (by omega : fuel ≠ 0)
    obtain ⟨rfl, hs⟩ := hs
    obtain rfl : q = none := ht
    refine ⟨some x, m, par, rfl, .inl rfl, ?_, fun _ _ => ⟨rfl, rfl, rfl⟩⟩
    rw [merge_nil]
    exact ⟨rfl, hs⟩
  | case3 x l r y l' r' h ih =>
    obtain ⟨fuel, rfl⟩ := Nat.exists_eq_add_one_of_ne_zero (by omega : fuel ≠ 0)
    obtain rfl : p = some x := hs.1
    obtain rfl : q = some y := ht.1
    have hr : (elems r).Sublist (elems (.node x l r)) := (List.sublist_append_right _ _).cons x
    have hf' : r.numNodes + (node y l' r').numNodes < fuel := by
      simp only [numNodes] at hf ⊢
      omega
    obtain ⟨o, m', par'', he, -, ho, hk⟩ := ih hs.2.2.2 ht (hn.sublist (hr.append_right _)) hf'
    obtain ⟨hrep, hkeep⟩ := hs.relink ho (elems_merge _ _ _) hn hk
    have hc : comp x y = -1 := by simpa [less] using h
    refine ⟨_, _, par, ?_, .inl rfl, by rwa [merge_of_lt h], hkeep⟩
    simp [skewHeapMerge, hc, he]
  | case4 x l r y l' r' h ih =>
    obtain ⟨fuel, rfl⟩ := Nat.exists_eq_add_one_of_ne_zero (by omega : fuel ≠ 0)
    obtain rfl : p = some x := hs.1
    obtain rfl : q = some y := ht.1
    have hr : (elems r').Sublist (elems (.node y l' r')) := (List.sublist_append_right _ _).cons y
    have hf' : (node x l r).numNodes + r'.numNodes < fuel := by
      simp only [numNodes] at hf ⊢
      omega
    obtain ⟨o, m', par'', he, -, ho, hk⟩ := ih hs ht.2.2.2 (hn.sublist (hr.append_left _)) hf'
    have hp := (elems_merge (less comp) (.node x l r) r').trans List.perm_append_comm
    obtain ⟨hrep, hkeep⟩ := ht.relink ho hp (List.perm_append_comm.nodup_iff.mp hn) fun z hz =>
      hk z fun hm => hz (List.perm_append_comm.mem_iff.mp hm)
    have hc : ¬ comp x y = -1 := by simpa [less] using h
    rw [merge_of_not_lt (by simpa using h)]
    refine ⟨_, _, par', by simp [skewHeapMerge, hc, he], .inr rfl, hrep, ?_⟩
    intro z hz
    exact hkeep z fun hm => hz (List.perm_append_comm.mem_iff.mp hm)

theorem skewHeapInsert_spec (h : Rep m none p t) (hn : (elems t).Nodup) (hb : b ∉ elems t)
    (hf : t.numNodes + 1 < fuel) :
    ∃ o m', skewHeapInsert comp fuel m p b = some (o, m') ∧
      Rep m' none o (merge (less comp) t (.node b .nil .nil)) ∧
      ∀ x ∉ b :: elems t, Keeps m m' x := by
  have hk : ∀ x ≠ b, Keeps m (skewHeapInit m b) x := fun x hx =>
    ⟨Function.update_of_ne hx _ _, Function.update_of_ne hx _ _, Function.update_of_ne hx _ _⟩
  have ht : Rep (skewHeapInit m b) none p t := h.congr fun x hx => hk x fun he => hb (he ▸ hx)
  have hnew : Rep (skewHeapInit m b) none (some b) (.node b .nil .nil) :=
    ⟨rfl, Function.update_self _ _ _, Function.update_self _ _ _, Function.update_self _ _ _⟩
  have hnd : (elems t ++ elems (.node b .nil .nil)).Nodup := by
    apply List.nodup_append.mpr
    refine ⟨hn, by simp, ?_⟩
    rintro x hx y hy rfl
    exact hb (by simpa [List.mem_singleton.mp hy] using hx)
  obtain ⟨o, m', par'', he, hp, ho, hk'⟩ :=
    skewHeapMerge_spec comp ht hnew hnd (by simpa using hf)
  obtain rfl : par'' = none := by simpa using hp
  refine ⟨o, m', he, ho, ?_⟩
  intro x hx
  rw [List.mem_cons, not_or] at hx
  apply (hk x hx.1).trans
  apply hk'
  simpa using ⟨hx.2, hx.1⟩

/-- The first steps of a removal: the children of the entry are merged, and the result gets its
parent. -/
theorem merge_adopt (h : Rep m par (some b) (.node b l r)) (hn : (elems (.node b l r)).Nodup)
    (hf : l.numNodes + r.numNodes < fuel) :
    ∃ o m', skewHeapMerge comp fuel m (m.left b) (m.right b) = some (o, m') ∧
      Rep (m'.adopt o par) par o (merge (less comp) l r) ∧
      ∀ x ∉ elems l ++ elems r, Keeps m (m'.adopt o par) x := by
  obtain ⟨-, -, rl, rr⟩ := h
  have hlr : (elems l ++ elems r).Nodup := (List.nodup_cons.mp hn).2
  obtain ⟨o, m', par'', he, -, ho, hk⟩ := skewHeapMerge_spec comp rl rr hlr hf
  have hp := elems_merge (less comp) l r
  refine ⟨o, m', he, ho.adopt (hp.nodup_iff.mpr hlr), ?_⟩
  intro x hx
  apply (hk x hx).trans
  apply keeps_adopt
  rintro rfl
  exact hx (hp.mem_iff.mp ho.root_mem)

/-- The removal of a child: the field of its parent that held it gets the merged tree. -/
theorem skewHeapRemove_child (h : Rep m (some x) (some b) (.node b l r))
    (hn : (elems (.node b l r)).Nodup) (hx : x ∉ elems (.node b l r))
    (hf : (BinaryTree.node b l r).numNodes < fuel) :
    ∃ o m', skewHeapRemove comp fuel m p b = some (p, m') ∧
      Rep m' (some x) o (merge (less comp) l r) ∧ m'.parent x = m.parent x ∧
      (if m.left x = some b then m'.left x = o ∧ m'.right x = m.right x
        else m'.left x = m.left x ∧ m'.right x = o) ∧
      ∀ z ∉ elems (.node b l r), z ≠ x → Keeps m m' z := by
  have hf' : l.numNodes + r.numNodes < fuel := by
    simp only [numNodes] at hf
    omega
  obtain ⟨o, m', he, ho, hk⟩ := merge_adopt comp h hn hf'
  have hsub : ∀ z ∉ elems (.node b l r), z ∉ elems l ++ elems r := fun z hz hm =>
    hz (List.mem_cons_of_mem b hm)
  obtain ⟨k₁, k₂, k₃⟩ := hk x (hsub x hx)
  have hne : ∀ z ∈ elems (merge (less comp) l r), z ≠ x := by
    rintro z hz rfl
    exact hsub z hx ((elems_merge _ l r).mem_iff.mp hz)
  have hl : m'.left x = m.left x := by rw [← k₂, adopt_left]
  refine ⟨o, if m.left x = some b then (m'.adopt o (some x)).setLeft x o
    else (m'.adopt o (some x)).setRight x o, ?_, ?_, ?_, ?_, ?_⟩
  · simp [skewHeapRemove, h.2.1, he, hl]
  · split
    · exact ho.congr fun z hz => ⟨rfl, Function.update_of_ne (hne z hz) _ _, rfl⟩
    · exact ho.congr fun z hz => ⟨rfl, rfl, Function.update_of_ne (hne z hz) _ _⟩
  · split
    · exact k₁
    · exact k₁
  · split
    · exact ⟨Function.update_self _ _ _, k₃⟩
    · exact ⟨k₂, Function.update_self _ _ _⟩
  · intro z hz hzx
    apply (hk z (hsub z hz)).trans
    split
    · exact ⟨rfl, Function.update_of_ne hzx _ _, rfl⟩
    · exact ⟨rfl, rfl, Function.update_of_ne hzx _ _⟩

/-- The removal of an entry below the root of a subtree. -/
theorem skewHeapRemove_inner (h : Rep m par q t) (hn : (elems t).Nodup) (hb : b ∈ elems t)
    (hq : q ≠ some b) (hf : t.numNodes < fuel) :
    ∃ m', skewHeapRemove comp fuel m p b = some (p, m') ∧ Rep m' par q (erase (less comp) b t) ∧
      ∀ x ∉ elems t, Keeps m m' x := by
  induction t generalizing par q with
  | nil => exact absurd hb List.not_mem_nil
  | node x l r hl hr =>
    obtain rfl : q = some x := h.1
    obtain ⟨-, hx, rl, rr⟩ := h
    have hxb : x ≠ b := fun he => hq (he ▸ rfl)
    rw [elems_node, List.nodup_cons, List.nodup_append] at hn
    obtain ⟨hxn, nl, nr, hd⟩ := hn
    have hxl : x ∉ elems l := fun hm => hxn (List.mem_append_left _ hm)
    have hxr : x ∉ elems r := fun hm => hxn (List.mem_append_right _ hm)
    simp only [numNodes] at hf
    rw [erase, if_neg hxb]
    have hlr : b ∈ elems l ∨ b ∈ elems r := by simpa [hxb.symm] using hb
    rcases hlr with hbl | hbr
    · rw [erase_of_not_mem (t := r) fun hm => hd b hbl b hm rfl]
      have hdr : ∀ z ∈ elems r, z ∉ elems l := fun z hz hm => hd z hm z hz rfl
      by_cases hc : m.left x = some b
      · rw [hc] at rl
        cases l with
        | nil => exact absurd hbl List.not_mem_nil
        | node y bl br =>
          obtain rfl : b = y := Option.some.inj rl.1
          have hf' : (node b bl br).numNodes < fuel := by omega
          obtain ⟨o, m', he, ho, hp, hs, hk⟩ :=
            skewHeapRemove_child comp (p := p) rl nl hxl hf'
          rw [if_pos hc] at hs
          refine ⟨m', he, ⟨rfl, hp.trans hx, ?_, ?_⟩, ?_⟩
          · rw [hs.1, erase, if_pos rfl]
            exact ho
          · rw [hs.2]
            exact rr.congr fun z hz => hk z (hdr z hz) fun he => hxr (he ▸ hz)
          · intro z hz
            rw [elems_node, List.mem_cons, List.mem_append, not_or, not_or] at hz
            exact hk z hz.2.1 hz.1
      · obtain ⟨m', he, ho, hk⟩ := hl rl nl hbl hc (by omega)
        obtain ⟨k₁, k₂, k₃⟩ := hk x hxl
        refine ⟨m', he, ⟨rfl, k₁.trans hx, by rwa [k₂], ?_⟩, ?_⟩
        · rw [k₃]
          exact rr.congr fun z hz => hk z (hdr z hz)
        · intro z hz
          exact hk z fun hm => hz (by simp [hm])
    · rw [erase_of_not_mem (t := l) fun hm => hd b hm b hbr rfl]
      have hdl : ∀ z ∈ elems l, z ∉ elems r := fun z hz hm => hd z hz z hm rfl
      by_cases hc : m.right x = some b
      · have hcl : m.left x ≠ some b := by
          intro he
          rw [he] at rl
          exact hdl b rl.root_mem hbr
        rw [hc] at rr
        cases r with
        | nil => exact absurd hbr List.not_mem_nil
        | node y bl br =>
          obtain rfl : b = y := Option.some.inj rr.1
          have hf' : (node b bl br).numNodes < fuel := by omega
          obtain ⟨o, m', he, ho, hp, hs, hk⟩ :=
            skewHeapRemove_child comp (p := p) rr nr hxr hf'
          rw [if_neg hcl] at hs
          refine ⟨m', he, ⟨rfl, hp.trans hx, ?_, ?_⟩, ?_⟩
          · rw [hs.1]
            exact rl.congr fun z hz => hk z (hdl z hz) fun he => hxl (he ▸ hz)
          · rw [hs.2, erase, if_pos rfl]
            exact ho
          · intro z hz
            rw [elems_node, List.mem_cons, List.mem_append, not_or, not_or] at hz
            exact hk z hz.2.2 hz.1
      · obtain ⟨m', he, ho, hk⟩ := hr rr nr hbr hc (by omega)
        obtain ⟨k₁, k₂, k₃⟩ := hk x hxr
        refine ⟨m', he, ⟨rfl, k₁.trans hx, ?_, by rwa [k₃]⟩, ?_⟩
        · rw [k₂]
          exact rl.congr fun z hz => hk z (hdl z hz)
        · intro z hz
          exact hk z fun hm => hz (by simp [hm])

theorem skewHeapRemove_spec (h : Rep m none p t) (hn : (elems t).Nodup) (hb : b ∈ elems t)
    (hf : t.numNodes < fuel) :
    ∃ o m', skewHeapRemove comp fuel m p b = some (o, m') ∧
      Rep m' none o (erase (less comp) b t) ∧ ∀ x ∉ elems t, Keeps m m' x := by
  by_cases hq : p = some b
  · subst hq
    cases t with
    | nil => exact absurd hb List.not_mem_nil
    | node x l r =>
      obtain rfl : b = x := Option.some.inj h.1
      have hf' : l.numNodes + r.numNodes < fuel := by
        simp only [numNodes] at hf
        omega
      obtain ⟨o, m', he, ho, hk⟩ := merge_adopt comp h hn hf'
      refine ⟨o, m'.adopt o none, ?_, ?_, ?_⟩
      · simp [skewHeapRemove, h.2.1, he]
      · simpa [erase] using ho
      · intro x hx
        exact hk x fun hm => hx (List.mem_cons_of_mem b hm)
  · obtain ⟨m', he, hr, hk⟩ := skewHeapRemove_inner comp (p := p) h hn hb hq hf
    exact ⟨p, m', he, hr, hk⟩

end UCore.SkewHeap

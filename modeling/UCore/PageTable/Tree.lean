import Mathlib.Data.Nat.Bitwise
import UCore.PageTable.Model

/-! # The shape of page tables

Every physical page has a role: it is free, or a directory, or the table behind one entry of a
directory or of a middle table, or a user page. In a well-formed state the entries of the tables
agree with the roles, so tables are never shared and a write to one leaf entry changes the
translation of one page.
-/

namespace UCore.PageTable

open Library

section Words

variable {w p t i : ℕ}

theorem has_two_pow : has w (2 ^ i) = w.testBit i := by
  have h : w &&& 2 ^ i ≠ 0 ↔ w.testBit i = true := by
    rw [Nat.and_two_pow]
    cases w.testBit i <;> simp
  by_cases hb : w.testBit i = true
  · simp only [has, hb, decide_eq_true_eq]
    exact h.mpr hb
  · have := h.not.mpr hb
    simp_all [has]

theorem has_pteV : has w pteV = w.testBit 0 := has_two_pow (i := 0)
theorem has_pteW : has w pteW = w.testBit 2 := has_two_pow (i := 2)
theorem has_pteCow : has w pteCow = w.testBit 8 := has_two_pow (i := 8)

@[simp] theorem has_zero (m : ℕ) : has 0 m = false := by simp [has]

theorem testBit_pteCreate (hi : i < 10) :
    (pteCreate p t).testBit i = (decide (i = 0) || t.testBit i) := by
  have h : ¬ 10 ≤ i := by omega
  have h₁ : Nat.testBit pteV i = decide (i = 0) := by
    rw [show pteV = 2 ^ 0 from rfl, Nat.testBit_two_pow]
    simp [eq_comm]
  simp [pteCreate, Nat.testBit_or, Nat.testBit_shiftLeft, h, h₁]

@[simp] theorem has_pteV_pteCreate : has (pteCreate p t) pteV = true := by
  rw [has_pteV, testBit_pteCreate (by omega)]
  simp

theorem pte2page_pteCreate (ht : t < 1024) : pte2page (pteCreate p t) = p := by
  have h₁ : t >>> 10 = 0 := by rw [Nat.shiftRight_eq_div_pow]; omega
  simp [pte2page, pteCreate, Nat.shiftRight_or_distrib, h₁, pteV, Nat.shiftLeft_shiftRight]

theorem pteV_or_lt (ht : t < 1024) : pteV ||| t < 1024 :=
  Nat.or_lt_two_pow (n := 10) (by decide) ht

end Words

/-- The directory entries for user addresses: the lower half of the address space, without the
gigabyte that the kernel maps onto itself. -/
def userPart (i : ℕ) : Prop := i < 256 ∧ i ≠ 2

instance (i : ℕ) : Decidable (userPart i) := inferInstanceAs (Decidable (_ ∧ _))

/-- The three table indices of a virtual page number. -/
def idx1 (v : ℕ) : ℕ := v / 2 ^ 18
def idx0 (v : ℕ) : ℕ := v / 2 ^ 9 % 2 ^ 9
def idx (v : ℕ) : ℕ := v % 2 ^ 9

def isVpn (v : ℕ) : Prop := userPart (idx1 v)

instance (v : ℕ) : Decidable (isVpn v) := inferInstanceAs (Decidable (userPart _))

section Indices

variable {la v v' : ℕ}

theorem idx0_lt : idx0 v < 512 := Nat.mod_lt _ (by decide)

theorem idx_lt : idx v < 512 := Nat.mod_lt _ (by decide)

theorem idx_inj (h₁ : idx1 v = idx1 v') (h₀ : idx0 v = idx0 v') (h : idx v = idx v') : v = v' := by
  unfold idx1 idx0 idx at *
  omega

theorem isVpn.lt (h : isVpn v) : v < 2 ^ 26 := by
  have := h.1
  unfold idx1 at this
  omega

theorem pdx1_eq (h : isVpn (la / pgsize)) : pdx1 la = idx1 (la / pgsize) := by
  have := h.1
  rw [pdx1, show (0x1FF : ℕ) = 2 ^ 9 - 1 from rfl, Nat.and_two_pow_sub_one_eq_mod,
    Nat.shiftRight_eq_div_pow]
  unfold pgsize idx1 at *
  omega

theorem pdx0_eq : pdx0 la = idx0 (la / pgsize) := by
  rw [pdx0, show (0x1FF : ℕ) = 2 ^ 9 - 1 from rfl, Nat.and_two_pow_sub_one_eq_mod,
    Nat.shiftRight_eq_div_pow]
  unfold pgsize idx0
  omega

theorem ptx_eq : ptx la = idx (la / pgsize) := by
  rw [ptx, show (0x1FF : ℕ) = 2 ^ 9 - 1 from rfl, Nat.and_two_pow_sub_one_eq_mod,
    Nat.shiftRight_eq_div_pow]
  rfl

end Indices

/-- The entry that translates page number `v` under directory `d`; zero when a table is missing. -/
def State.pte (s : State) (d v : ℕ) : ℕ :=
  if has (s.word d (idx1 v)) pteV then
    if has (s.word (pte2page (s.word d (idx1 v))) (idx0 v)) pteV then
      s.word (pte2page (s.word (pte2page (s.word d (idx1 v))) (idx0 v))) (idx v)
    else 0
  else 0

/-- What a physical page is used for. -/
inductive Role
  | free
  | root
  | mid (d i : ℕ)
  | leaf (d i j : ℕ)
  | user
  | other
deriving DecidableEq

/-- The tables of a state and the roles of the pages agree. -/
structure Wf (s : State) (R : ℕ → Role) : Prop where
  free : ∀ p, R p = .free ↔ p ∈ s.free
  freeRef : ∀ p ∈ s.free, s.ref p = 0
  rootEntry : ∀ d i, R d = .root → userPart i → has (s.word d i) pteV = true →
    R (pte2page (s.word d i)) = .mid d i
  mid : ∀ m d i, R m = .mid d i → R d = .root ∧ userPart i ∧ has (s.word d i) pteV = true ∧
    pte2page (s.word d i) = m
  midEntry : ∀ m d i j, R m = .mid d i → j < 512 → has (s.word m j) pteV = true →
    R (pte2page (s.word m j)) = .leaf d i j
  leaf : ∀ l d i j, R l = .leaf d i j → j < 512 ∧ ∃ m, R m = .mid d i ∧
    has (s.word m j) pteV = true ∧ pte2page (s.word m j) = l
  leafEntry : ∀ l d i j k, R l = .leaf d i j → k < 512 → s.word l k = 0 ∨
    has (s.word l k) pteV = true ∧ R (pte2page (s.word l k)) = .user

namespace Wf

variable {s t : State} {R R' : ℕ → Role} {d i j k l m p v w : ℕ}

theorem mid_unique (h : Wf s R) {m' : ℕ} (hm : R m = .mid d i) (hm' : R m' = .mid d i) :
    m = m' := by
  rw [← (h.mid m d i hm).2.2.2, ← (h.mid m' d i hm').2.2.2]

theorem leaf_unique (h : Wf s R) {l' : ℕ} (hl : R l = .leaf d i j) (hl' : R l' = .leaf d i j) :
    l = l' := by
  obtain ⟨-, m, hm, -, h₁⟩ := h.leaf l d i j hl
  obtain ⟨-, m', hm', -, h₂⟩ := h.leaf l' d i j hl'
  obtain rfl := h.mid_unique hm hm'
  exact h₁.symm.trans h₂

theorem pte_leaf (h : Wf s R) (hl : R l = .leaf d (idx1 v) (idx0 v)) :
    s.pte d v = s.word l (idx v) := by
  obtain ⟨-, m, hm, hv, rfl⟩ := h.leaf l _ _ _ hl
  obtain ⟨-, -, hv', rfl⟩ := h.mid m _ _ hm
  simp [State.pte, hv, hv']

theorem pte_none (h : Wf s R) (hd : R d = .root) (hv : isVpn v)
    (hl : ∀ l, R l ≠ .leaf d (idx1 v) (idx0 v)) : s.pte d v = 0 := by
  unfold State.pte
  split
  · rename_i h₁
    have hm := h.rootEntry d _ hd hv h₁
    rw [if_neg]
    intro h₀
    exact hl _ (h.midEntry _ _ _ _ hm idx0_lt h₀)
  · rfl

theorem pte_cases (h : Wf s R) (hd : R d = .root) (hv : isVpn v) :
    (∃ l, R l = .leaf d (idx1 v) (idx0 v) ∧ s.pte d v = s.word l (idx v)) ∨
      (∀ l, R l ≠ .leaf d (idx1 v) (idx0 v)) ∧ s.pte d v = 0 := by
  rcases Classical.em (∃ l, R l = .leaf d (idx1 v) (idx0 v)) with ⟨l, hl⟩ | hn
  · exact .inl ⟨l, hl, h.pte_leaf hl⟩
  · have hn' : ∀ l, R l ≠ .leaf d (idx1 v) (idx0 v) := fun l hl => hn ⟨l, hl⟩
    exact .inr ⟨hn', h.pte_none hd hv hn'⟩

theorem pte_zero_or (h : Wf s R) (hd : R d = .root) (hv : isVpn v) :
    s.pte d v = 0 ∨ has (s.pte d v) pteV = true ∧ R (pte2page (s.pte d v)) = .user := by
  rcases h.pte_cases hd hv with ⟨l, hl, he⟩ | ⟨-, he⟩
  · rw [he]
    exact h.leafEntry l _ _ _ _ hl idx_lt
  · exact .inl he

end Wf

/-- What `get_pte` may do: turn free pages into tables, which changes no translation. -/
structure Grow (s : State) (R : ℕ → Role) (t : State) (R' : ℕ → Role) : Prop where
  wf : Wf t R'
  role : ∀ p, R p ≠ .free → R' p = R p
  taken : ∀ p, R p = .free → R' p = .free ∨ (∃ d i, R' p = .mid d i) ∨ ∃ d i j, R' p = .leaf d i j
  pte : ∀ d v, R d = .root → isVpn v → t.pte d v = s.pte d v
  data : ∀ p, R p = .user → t.word p = s.word p
  ref : ∀ p, R p ≠ .free → t.ref p = s.ref p
  freed : t.freed = s.freed

namespace Grow

variable {s t u : State} {R R' R'' : ℕ → Role} {p : ℕ}

theorem refl (h : Wf s R) : Grow s R s R :=
  ⟨h, fun _ _ => rfl, fun _ hp => .inl hp, fun _ _ _ _ => rfl, fun _ _ => rfl, fun _ _ => rfl, rfl⟩

theorem user_iff (g : Grow s R t R') : R' p = .user ↔ R p = .user := by
  constructor
  · intro hp
    by_contra hn
    by_cases hf : R p = .free
    · rcases g.taken p hf with h | ⟨d, i, h⟩ | ⟨d, i, j, h⟩ <;> simp [h] at hp
    · exact hn ((g.role p hf).symm.trans hp)
  · intro hp
    exact (g.role p (by simp [hp])).trans hp

theorem root_iff (g : Grow s R t R') : R' p = .root ↔ R p = .root := by
  constructor
  · intro hp
    by_contra hn
    by_cases hf : R p = .free
    · rcases g.taken p hf with h | ⟨d, i, h⟩ | ⟨d, i, j, h⟩ <;> simp [h] at hp
    · exact hn ((g.role p hf).symm.trans hp)
  · intro hp
    exact (g.role p (by simp [hp])).trans hp

theorem not_free (g : Grow s R t R') (hp : R p ≠ .free) : R' p ≠ .free := by
  rwa [g.role p hp]

theorem trans (g : Grow s R t R') (g' : Grow t R' u R'') : Grow s R u R'' where
  wf := g'.wf
  role p hp := (g'.role p (g.not_free hp)).trans (g.role p hp)
  taken p hp := by
    by_cases hf : R' p = .free
    · exact g'.taken p hf
    · rw [g'.role p hf]
      exact g.taken p hp
  pte d v hd hv := (g'.pte d v (g.root_iff.mpr hd) hv).trans (g.pte d v hd hv)
  data p hp := (g'.data p (g.user_iff.mpr hp)).trans (g.data p hp)
  ref p hp := (g'.ref p (g.not_free hp)).trans (g.ref p hp)
  freed := g'.freed.trans g.freed

theorem answers (h : Wf s R) (l : List (Option ℕ)) : Grow s R { s with answers := l } R :=
  ⟨⟨h.free, h.freeRef, h.rootEntry, h.mid, h.midEntry, h.leaf, h.leafEntry⟩, fun _ _ => rfl,
    fun _ hp => .inl hp, fun _ _ _ _ => rfl, fun _ _ => rfl, fun _ _ => rfl, rfl⟩

end Grow

theorem allocPage_cases (s : State) :
    (∃ l, s.allocPage = (none, { s with answers := l })) ∨
      ∃ q l, q ∈ s.free ∧
        s.allocPage = (some q, { s with free := s.free.erase q, answers := l }) := by
  unfold State.allocPage
  split
  · exact .inl ⟨s.answers, rfl⟩
  · exact .inl ⟨_, rfl⟩
  · split
    · exact .inr ⟨_, _, ‹_›, rfl⟩
    · exact .inl ⟨_, rfl⟩

/-- A fresh zeroed page `q`, entered into slot `i` of table `a`. -/
def State.addTable (s : State) (a i q : ℕ) (l : List (Option ℕ)) : State :=
  (((State.mk s.word s.ref (s.free.erase q) l s.freed).setPageRef q 1).setPage q
    fun _ => 0).setWord a i (pteCreate q (pteU ||| pteV))

section AddTable

variable {s : State} {R : ℕ → Role} {a d i j m q : ℕ} {l : List (Option ℕ)}

theorem addTable_word (haq : a ≠ q) (x y : ℕ) :
    (s.addTable a i q l).word x y = if x = a ∧ y = i then pteCreate q (pteU ||| pteV)
      else if x = q then 0 else s.word x y := by
  simp only [State.addTable, State.setWord, State.setPage, State.setPageRef,
    Function.update_apply]
  split_ifs <;> simp_all

theorem addTable_ref (x : ℕ) : (s.addTable a i q l).ref x = if x = q then 1 else s.ref x := by
  simp [State.addTable, State.setWord, State.setPage, State.setPageRef, Function.update_apply]

theorem addTable_free : (s.addTable a i q l).free = s.free.erase q := rfl

theorem pte2page_table : pte2page (pteCreate q (pteU ||| pteV)) = q :=
  pte2page_pteCreate (by decide)

variable (h : Wf s R) (hq : R q = .free)
include h hq

theorem addTable_wf_free {x : Role} (hx : x ≠ .free) :
    (∀ p, Function.update R q x p = .free ↔ p ∈ (s.addTable a i q l).free) ∧
      ∀ p ∈ (s.addTable a i q l).free, (s.addTable a i q l).ref p = 0 := by
  constructor
  · intro p
    rw [addTable_free, Finset.mem_erase, ← h.free p]
    rcases eq_or_ne p q with rfl | hp
    · simp [hx]
    · simp [hp]
  · intro p hp
    rw [addTable_free, Finset.mem_erase] at hp
    rw [addTable_ref, if_neg hp.1]
    exact h.freeRef p hp.2

theorem Wf.addMid (hd : R d = .root) (hi : userPart i) (hn : has (s.word d i) pteV = false) :
    Wf (s.addTable d i q l) (Function.update R q (.mid d i)) := by
  have hdq : d ≠ q := by
    rintro rfl
    simp [hd] at hq
  have hw := addTable_word (s := s) (i := i) (l := l) hdq
  have hR : ∀ p, p ≠ q → Function.update R q (Role.mid d i) p = R p := fun p hp => by simp [hp]
  have hold : ∀ p, R p ≠ .free → p ≠ q := fun p hp hpq => hp (hpq ▸ hq)
  obtain ⟨hf, hfr⟩ := addTable_wf_free (a := d) (i := i) (l := l) h hq (x := .mid d i) (by simp)
  refine ⟨hf, hfr, ?_, ?_, ?_, ?_, ?_⟩
  · intro d' i' hd' hi' hv
    have hd'q : d' ≠ q := by
      rintro rfl
      simp at hd'
    rw [hR d' hd'q] at hd'
    rw [hw] at hv ⊢
    split
    · rename_i heq
      rw [pte2page_table, heq.1, heq.2]
      simp
    · rename_i heq
      rw [if_neg heq, if_neg hd'q] at hv
      have := h.rootEntry d' i' hd' hi' hv
      rw [hR _ (hold _ (by simp [this]))]
      exact this
  · intro m d' i' hm
    rcases eq_or_ne m q with rfl | hmq
    · obtain ⟨rfl, rfl⟩ : d = d' ∧ i = i' := by simpa using hm
      rw [hw, if_pos ⟨rfl, rfl⟩, hR d hdq]
      exact ⟨hd, hi, has_pteV_pteCreate, pte2page_table⟩
    · rw [hR m hmq] at hm
      obtain ⟨h₁, h₂, h₃, h₄⟩ := h.mid m d' i' hm
      have hd'q := hold d' (by simp [h₁])
      have hne : ¬ (d' = d ∧ i' = i) := by
        rintro ⟨rfl, rfl⟩
        simp [hn] at h₃
      rw [hw, if_neg hne, if_neg hd'q, hR d' hd'q]
      exact ⟨h₁, h₂, h₃, h₄⟩
  · intro m d' i' j hm hj hv
    rw [hw] at hv ⊢
    rcases eq_or_ne m q with rfl | hmq
    · simp [hdq.symm] at hv
    · rw [hR m hmq] at hm
      have hmd : ¬ (m = d ∧ j = i) := by
        rintro ⟨rfl, -⟩
        simp [hd] at hm
      rw [if_neg hmd, if_neg hmq] at hv ⊢
      have := h.midEntry m d' i' j hm hj hv
      rw [hR _ (hold _ (by simp [this]))]
      exact this
  · intro l' d' i' j hl
    have hlq : l' ≠ q := by
      rintro rfl
      simp at hl
    rw [hR l' hlq] at hl
    obtain ⟨hj, m, hm, hv, he⟩ := h.leaf l' d' i' j hl
    have hmq := hold m (by simp [hm])
    have hmd : ¬ (m = d ∧ j = i) := by
      rintro ⟨rfl, -⟩
      simp [hd] at hm
    refine ⟨hj, m, by rw [hR m hmq]; exact hm, ?_⟩
    rw [hw, if_neg hmd, if_neg hmq]
    exact ⟨hv, he⟩
  · intro l' d' i' j k hl hk
    have hlq : l' ≠ q := by
      rintro rfl
      simp at hl
    rw [hR l' hlq] at hl
    have hld : ¬ (l' = d ∧ k = i) := by
      rintro ⟨rfl, -⟩
      simp [hd] at hl
    rw [hw, if_neg hld, if_neg hlq]
    rcases h.leafEntry l' d' i' j k hl hk with h₀ | ⟨h₁, h₂⟩
    · exact .inl h₀
    · refine .inr ⟨h₁, ?_⟩
      rw [hR _ (hold _ (by simp [h₂]))]
      exact h₂

theorem Wf.addLeaf (hm : R m = .mid d i) (hj : j < 512) (hn : has (s.word m j) pteV = false) :
    Wf (s.addTable m j q l) (Function.update R q (.leaf d i j)) := by
  have hmq : m ≠ q := by
    rintro rfl
    simp [hm] at hq
  have hw := addTable_word (s := s) (i := j) (l := l) hmq
  have hR : ∀ p, p ≠ q → Function.update R q (Role.leaf d i j) p = R p := fun p hp => by simp [hp]
  have hold : ∀ p, R p ≠ .free → p ≠ q := fun p hp hpq => hp (hpq ▸ hq)
  obtain ⟨hf, hfr⟩ := addTable_wf_free (a := m) (i := j) (l := l) h hq (x := .leaf d i j) (by simp)
  refine ⟨hf, hfr, ?_, ?_, ?_, ?_, ?_⟩
  · intro d' i' hd' hi' hv
    have hd'q : d' ≠ q := by
      rintro rfl
      simp at hd'
    rw [hR d' hd'q] at hd'
    have hne : ¬ (d' = m ∧ i' = j) := by
      rintro ⟨rfl, -⟩
      simp [hm] at hd'
    rw [hw, if_neg hne, if_neg hd'q] at hv ⊢
    have := h.rootEntry d' i' hd' hi' hv
    rw [hR _ (hold _ (by simp [this]))]
    exact this
  · intro m' d' i' hm'
    have hm'q : m' ≠ q := by
      rintro rfl
      simp at hm'
    rw [hR m' hm'q] at hm'
    obtain ⟨h₁, h₂, h₃, h₄⟩ := h.mid m' d' i' hm'
    have hd'q := hold d' (by simp [h₁])
    have hne : ¬ (d' = m ∧ i' = j) := by
      rintro ⟨rfl, -⟩
      simp [hm] at h₁
    rw [hw, if_neg hne, if_neg hd'q, hR d' hd'q]
    exact ⟨h₁, h₂, h₃, h₄⟩
  · intro m' d' i' j' hm' hj' hv
    rw [hw] at hv ⊢
    have hm'q : m' ≠ q := by
      rintro rfl
      simp at hm'
    rw [hR m' hm'q] at hm'
    split
    · rename_i heq
      obtain ⟨rfl, rfl⟩ := heq
      obtain ⟨rfl, rfl⟩ : d = d' ∧ i = i' := by simpa [hm] using hm'
      rw [pte2page_table]
      simp
    · rename_i heq
      rw [if_neg heq, if_neg hm'q] at hv
      have := h.midEntry m' d' i' j' hm' hj' hv
      rw [hR _ (hold _ (by simp [this]))]
      exact this
  · intro l' d' i' j' hl
    rcases eq_or_ne l' q with rfl | hlq
    · obtain ⟨rfl, rfl, rfl⟩ : d = d' ∧ i = i' ∧ j = j' := by simpa using hl
      refine ⟨hj, m, by rw [hR m hmq]; exact hm, ?_⟩
      rw [hw, if_pos ⟨rfl, rfl⟩]
      exact ⟨has_pteV_pteCreate, pte2page_table⟩
    · rw [hR l' hlq] at hl
      obtain ⟨hj', m', hm', hv, he⟩ := h.leaf l' d' i' j' hl
      have hm'q := hold m' (by simp [hm'])
      have hne : ¬ (m' = m ∧ j' = j) := by
        rintro ⟨rfl, rfl⟩
        simp [hn] at hv
      refine ⟨hj', m', by rw [hR m' hm'q]; exact hm', ?_⟩
      rw [hw, if_neg hne, if_neg hm'q]
      exact ⟨hv, he⟩
  · intro l' d' i' j' k hl hk
    rw [hw]
    rcases eq_or_ne l' q with rfl | hlq
    · simp [hmq.symm]
    · rw [hR l' hlq] at hl
      have hlm : ¬ (l' = m ∧ k = j) := by
        rintro ⟨rfl, -⟩
        simp [hm] at hl
      rw [if_neg hlm, if_neg hlq]
      rcases h.leafEntry l' d' i' j' k hl hk with h₀ | ⟨h₁, h₂⟩
      · exact .inl h₀
      · refine .inr ⟨h₁, ?_⟩
        rw [hR _ (hold _ (by simp [h₂]))]
        exact h₂

/-- A new table is empty, so it adds no translation. -/
theorem Grow.addTable {x : Role} (ha : R a = .root ∨ ∃ d i, R a = .mid d i)
    (hx : (∃ d i, x = .mid d i) ∨ ∃ d i j, x = .leaf d i j)
    (ht : Wf (s.addTable a i q l) (Function.update R q x)) :
    Grow s R (s.addTable a i q l) (Function.update R q x) := by
  have hal : ∀ p, (R p = .user ∨ ∃ d i j, R p = .leaf d i j) → p ≠ a := by
    rintro p hp rfl
    rcases ha with ha | ⟨d, i, ha⟩ <;> simp [ha] at hp
  have haq : a ≠ q := by
    rintro rfl
    rcases ha with ha | ⟨d, i, ha⟩ <;> simp [ha] at hq
  have hw := addTable_word (s := s) (i := i) (l := l) haq
  have hR : ∀ p, p ≠ q → Function.update R q x p = R p := fun p hp => by simp [hp]
  have hold : ∀ p, R p ≠ .free → p ≠ q := fun p hp hpq => hp (hpq ▸ hq)
  refine ⟨ht, fun p hp => hR p (hold p hp), ?_, ?_, ?_, ?_, rfl⟩
  · intro p hp
    rcases eq_or_ne p q with rfl | hpq
    · rw [Function.update_self]
      exact .inr hx
    · rw [hR p hpq]
      exact .inl hp
  · intro d v hd hv
    have hd' : Function.update R q x d = .root := (hR d (hold d (by simp [hd]))).trans hd
    rcases ht.pte_cases hd' hv with ⟨l', hl', he⟩ | ⟨hn, he⟩
    · rcases eq_or_ne l' q with rfl | hlq
      · rw [he, hw, if_neg fun h => haq h.1.symm, if_pos rfl]
        refine (h.pte_none hd hv fun l hl => ?_).symm
        have hlq := hold l (by simp [hl])
        exact hlq (ht.leaf_unique ((hR l hlq).trans hl) hl')
      · rw [hR l' hlq] at hl'
        rw [he, h.pte_leaf hl', hw, if_neg fun h => hal l' (.inr ⟨_, _, _, hl'⟩) h.1, if_neg hlq]
    · rw [he]
      refine (h.pte_none hd hv fun l hl => ?_).symm
      exact hn l ((hR l (hold l (by simp [hl]))).trans hl)
  · intro p hp
    funext y
    rw [hw, if_neg fun h => hal p (.inl hp) h.1, if_neg (hold p (by simp [hp]))]
  · intro p hp
    rw [addTable_ref, if_neg (hold p hp)]

end AddTable

section GetPte

variable {s : State} {R : ℕ → Role} {d i j m la : ℕ}

/-- The result of one level of the walk, with the role of the next table. -/
structure Walk (s : State) (R : ℕ → Role) (create : Bool) (x : Role) (o : Option ℕ) (t : State)
    (R' : ℕ → Role) : Prop where
  grow : Grow s R t R'
  found : ∀ m, o = some m → R' m = x
  missing : o = none → ∀ m, R m ≠ x
  pure : create = false → t = s ∧ R' = R

theorem nextTable_walk (create : Bool) (h : Wf s R) {x : Role} {a : ℕ}
    (hfound : has (s.word a i) pteV = true → R (pte2page (s.word a i)) = x)
    (hmissing : has (s.word a i) pteV = false → ∀ m, R m ≠ x)
    (hadd : ∀ q l, R q = .free → has (s.word a i) pteV = false →
      Grow s R (s.addTable a i q l) (Function.update R q x)) :
    ∃ o t R', s.nextTable a i create = (o, t) ∧ Walk s R create x o t R' := by
  unfold State.nextTable
  by_cases hv : has (s.word a i) pteV = true
  · rw [if_pos hv]
    refine ⟨_, s, R, rfl, .refl h, ?_, by simp, fun _ => ⟨rfl, rfl⟩⟩
    rintro m hm
    obtain rfl := Option.some.inj hm
    exact hfound hv
  have hv' : has (s.word a i) pteV = false := by simpa using hv
  rw [if_neg hv]
  cases create with
  | false => exact ⟨none, s, R, rfl, .refl h, by simp, fun _ => hmissing hv', fun _ => ⟨rfl, rfl⟩⟩
  | true =>
    simp only [Bool.not_true, Bool.false_eq_true, if_false]
    rcases allocPage_cases s with ⟨l, hs⟩ | ⟨q, l, hq, hs⟩
    · rw [hs]
      exact ⟨none, _, R, rfl, .answers h l, by simp, fun _ => hmissing hv', by simp⟩
    · rw [hs]
      have hqR := (h.free q).mpr hq
      refine ⟨some q, s.addTable a i q l, _, ?_, hadd q l hqR hv', ?_, by simp, by simp⟩
      · simp [State.addTable, State.setWord, State.setPage, State.setPageRef, pte2page_table]
      · intro m hm
        obtain rfl := Option.some.inj hm
        simp

theorem nextTable_root (create : Bool) (h : Wf s R) (hd : R d = .root) (hi : userPart i) :
    ∃ o t R', s.nextTable d i create = (o, t) ∧ Walk s R create (.mid d i) o t R' := by
  refine nextTable_walk create h (h.rootEntry d i hd hi) ?_ ?_
  · intro hn m hm
    simp [(h.mid m d i hm).2.2.1] at hn
  · intro q l hq hn
    exact Grow.addTable h hq (.inl hd) (.inl ⟨d, i, rfl⟩) (h.addMid hq hd hi hn)

theorem nextTable_mid (create : Bool) (h : Wf s R) (hm : R m = .mid d i) (hj : j < 512) :
    ∃ o t R', s.nextTable m j create = (o, t) ∧ Walk s R create (.leaf d i j) o t R' := by
  refine nextTable_walk create h (h.midEntry m d i j hm hj) ?_ ?_
  · intro hn l hl
    obtain ⟨-, m', hm', hv, -⟩ := h.leaf l d i j hl
    obtain rfl := h.mid_unique hm hm'
    simp [hv] at hn
  · intro q l hq hn
    exact Grow.addTable h hq (.inr ⟨d, i, hm⟩) (.inr ⟨d, i, j, rfl⟩) (h.addLeaf hq hm hj hn)

/-- `get_pte` finds the leaf table of a page number, or makes it, or changes nothing but the
number of its tables. -/
theorem getPte_spec (create : Bool) (h : Wf s R) (hd : R d = .root) (hv : isVpn (la / pgsize)) :
    ∃ o t R', s.getPte d la create = (o.map fun l => (l, idx (la / pgsize)), t) ∧
      Walk s R create (.leaf d (idx1 (la / pgsize)) (idx0 (la / pgsize))) o t R' := by
  unfold State.getPte
  rw [pdx1_eq hv, pdx0_eq, ptx_eq]
  obtain ⟨o₁, t₁, R₁, h₁, w₁⟩ := nextTable_root create h hd hv
  rw [h₁]
  cases o₁ with
  | none =>
    refine ⟨none, t₁, R₁, rfl, w₁.grow, by simp, fun _ l hl => ?_, w₁.pure⟩
    obtain ⟨-, m, hm, -, -⟩ := h.leaf l _ _ _ hl
    exact w₁.missing rfl m hm
  | some m =>
    obtain ⟨o₀, t₀, R₀, h₀, w₀⟩ :=
      nextTable_mid create w₁.grow.wf (w₁.found m rfl) (idx0_lt (v := la / pgsize))
    dsimp only
    rw [h₀]
    have hp : create = false → t₀ = s ∧ R₀ = R := by
      intro hc
      obtain ⟨rfl, rfl⟩ := w₁.pure hc
      exact w₀.pure hc
    have hm : o₀ = none → ∀ l, R l ≠ .leaf d (idx1 (la / pgsize)) (idx0 (la / pgsize)) := by
      intro ho l hl
      exact w₀.missing ho l ((w₁.grow.role l (by simp [hl])).trans hl)
    cases o₀ with
    | none => exact ⟨none, t₀, R₀, rfl, w₁.grow.trans w₀.grow, by simp, hm, hp⟩
    | some l => exact ⟨some l, t₀, R₀, rfl, w₁.grow.trans w₀.grow, w₀.found, hm, hp⟩

end GetPte

end UCore.PageTable

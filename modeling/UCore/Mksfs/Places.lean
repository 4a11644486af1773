import UCore.Mksfs.Model
import UCore.Sfs.Files

/-! # The places of blocks

The builder as a map from the places of an inode, which are its blocks and tables, to block numbers.
Every block that was handed out has at most one place.
-/

namespace UCore.Mksfs

open Library Sfs Vfs

/-- A place in the map of an inode: a block of the file, or one of the tables of block numbers. -/
inductive Ref
  | data (i : ℕ)
  | index
  | dbIndex
  | table (j : ℕ)
deriving DecidableEq

namespace Ref

/-- The place whose number is the entry `k` of a table. -/
def child : Ref → ℕ → Option Ref
  | .data _, _ => none
  | .index, k => some (.data (sfsL0Nblks + k))
  | .dbIndex, k => some (.table k)
  | .table j, k => some (.data (sfsL1Nblks + j * sfsBlkNentry + k))

/-- The table that holds the number of a place, and the entry in it. -/
def parent : Ref → Option (Ref × ℕ)
  | .index => none
  | .dbIndex => none
  | .table j => some (.dbIndex, j)
  | .data i =>
    if i < sfsL0Nblks then none
    else if i < sfsL1Nblks then some (.index, i - sfsL0Nblks)
    else some (.table ((i - sfsL1Nblks) / sfsBlkNentry), (i - sfsL1Nblks) % sfsBlkNentry)

def IsTable : Ref → Prop
  | .data _ => False
  | _ => True

/-- The places of a file of `n` blocks. -/
def Used (n : ℕ) : Ref → Prop
  | .data i => i < n
  | .index => sfsL0Nblks < n
  | .dbIndex => sfsL1Nblks < n
  | .table j => sfsL1Nblks + j * sfsBlkNentry < n

variable {p r : Ref} {k : ℕ}

theorem child_iff (hk : k < sfsBlkNentry) : p.child k = some r ↔ r.parent = some (p, k) := by
  have h₀ : sfsL0Nblks = 12 := rfl
  have h₁ : sfsL1Nblks = 1036 := rfl
  have hn : sfsBlkNentry = 1024 := rfl
  rw [hn] at hk
  cases r with
  | index | dbIndex => cases p <;> simp [child, parent]
  | table j => cases p <;> simp [child, parent, eq_comm]
  | data i =>
    cases p <;> simp only [child, parent, h₀, h₁, hn, Option.some.injEq, Ref.data.injEq,
      reduceCtorEq, false_iff]
    · split_ifs <;> simp
    · split_ifs <;> simp only [Option.some.injEq, Prod.mk.injEq, true_and, reduceCtorEq, false_and,
        iff_false] <;> omega
    · split_ifs <;> simp
    · split_ifs <;> simp only [Option.some.injEq, Prod.mk.injEq, Ref.table.injEq, reduceCtorEq,
        false_and, iff_false] <;> omega

theorem parent_isTable (h : r.parent = some (p, k)) : p.IsTable := by
  cases r with
  | data i =>
    simp only [parent] at h
    split_ifs at h
    · obtain ⟨rfl, -⟩ := Prod.mk.inj (Option.some.inj h)
      trivial
    · obtain ⟨rfl, -⟩ := Prod.mk.inj (Option.some.inj h)
      trivial
  | index | dbIndex => cases h
  | table j =>
    obtain ⟨rfl, -⟩ := Prod.mk.inj (Option.some.inj h)
    trivial

theorem parent_ne (h : r.parent = some (p, k)) : p ≠ r := by
  rintro rfl
  cases p with
  | data i => simp only [parent] at h; split_ifs at h <;> simp at h
  | index | dbIndex => cases h
  | table j => simp [parent] at h

end Ref

/-- What a block is used for. -/
inductive Owner
  | inode
  | ref (ino : ℕ) (r : Ref)
deriving DecidableEq

/-- The numbers at the places of an inode: 0 where there is no block. -/
abbrev Places : Type := ℕ → Ref → ℕ

def Places.set (A : Places) (ino : ℕ) (r : Ref) (b : ℕ) : Places :=
  Function.update A ino (Function.update (A ino) r b)

/-- The cached inode and the cached tables hold the numbers of the places. -/
structure Maps (ci : CacheInode) (cache : ℕ → Buf) (a : Ref → ℕ) : Prop where
  direct : ∀ i < sfsL0Nblks, ci.din.direct i = a (.data i)
  index : ci.din.indirect = a .index
  dbIndex : ci.dbIndirect = a .dbIndex
  entries : ∀ p, p.IsTable → a p ≠ 0 → ∀ k < sfsBlkNentry, ∀ r, p.child k = some r →
    entry (cache (a p)) k = a r

/-- The blocks of the freemap and before. -/
def Writer.first (m : Writer) : ℕ := sfsBlknFreemap + (m.ninos + sfsBlkbits - 1) / sfsBlkbits

/-- The places of the builder and their blocks. -/
structure Base (m : Writer) (A : Places) (O : ℕ → Option Owner) : Prop where
  range : m.first ≤ m.nextIno ∧ m.nextIno ≤ m.ninos ∧ m.ninos ≤ sfsMaxNblks
  count : m.unusedBlocks + m.nextIno = m.ninos
  owned : ∀ b o, O b = some o → b = sfsBlknRoot ∧ o = .inode ∨ m.first ≤ b ∧ b < m.nextIno
  inode : ∀ b, O b = some .inode ↔ ∃ h < hashListSize, b ∈ m.inodes h
  listed : ∀ h, ∀ b ∈ m.inodes h, O b = some .inode
  refs : ∀ ino r, A ino r ≠ 0 → O ino = some .inode ∧ O (A ino r) = some (.ref ino r)
  parent : ∀ ino r p k, r.parent = some (p, k) → A ino r ≠ 0 → A ino p ≠ 0
  maps : ∀ ino, O ino = some .inode → Maps (m.inode ino) m.cache (A ino)
  cached : ∀ ino p, p.IsTable → A ino p ≠ 0 → ∃ h < hashListSize, A ino p ∈ m.blocks h
  tables : ∀ h, ∀ b ∈ m.blocks h, m.first ≤ b ∧ b < m.nextIno ∧
    ∀ o, O b = some o → ∃ ino p, p.IsTable ∧ o = .ref ino p

/-- A block that was handed out and has no place yet. -/
structure Reserved (m : Writer) (O : ℕ → Option Owner) (b : ℕ) : Prop where
  none : O b = none
  range : m.first ≤ b ∧ b < m.nextIno

/-- The number of a place is entered: in the inode, or in the table of the parent. -/
def place (m : Writer) (A : Places) (ino : ℕ) (r : Ref) (b : ℕ) : Writer :=
  match r.parent with
  | some (p, k) => m.setEntry (A ino p) k b
  | none => m.setInode ino fun x =>
    match r with
    | .data i => { x with din := { x.din with direct := Function.update x.din.direct i b } }
    | .index => { x with din := { x.din with indirect := b } }
    | _ => { x with dbIndirect := b }

theorem place_eq (m : Writer) (A : Places) (ino : ℕ) (r : Ref) (b : ℕ) :
    ∃ inode cache, place m A ino r b = { m with inode := inode, cache := cache } := by
  unfold place
  split
  · exact ⟨m.inode, _, rfl⟩
  · exact ⟨_, m.cache, rfl⟩

section Places

variable {m : Writer} {A : Places} {O : ℕ → Option Owner} {ino ino' b i k : ℕ} {r r' p : Ref}

theorem Places.set_self : A.set ino r b ino r = b := by simp [Places.set]

theorem Places.set_ref (h : r' ≠ r) : A.set ino r b ino r' = A ino r' := by simp [Places.set, h]

theorem Places.set_ino (h : ino' ≠ ino) : A.set ino r b ino' = A ino' := by simp [Places.set, h]

theorem Places.set_cases (h : A.set ino r b ino' r' ≠ 0) :
    ino' = ino ∧ r' = r ∨ (ino' ≠ ino ∨ r' ≠ r) ∧ A.set ino r b ino' r' = A ino' r' ∧
      A ino' r' ≠ 0 := by
  by_cases hi : ino' = ino
  · subst hi
    by_cases hr : r' = r
    · exact .inl ⟨rfl, hr⟩
    · rw [set_ref hr] at h
      exact .inr ⟨.inr hr, set_ref hr, h⟩
  · rw [set_ino hi] at h
    exact .inr ⟨.inl hi, by rw [set_ino hi], h⟩

namespace Base

theorem first_pos (h : Base m A O) : 2 < m.first := by
  have := h.range
  unfold Writer.first sfsBlknFreemap sfsBlkbits at *
  omega

theorem lt_width (h : Base m A O) (hb : b < m.nextIno) : b < 2 ^ 32 := by
  have := h.range
  unfold sfsMaxNblks at this
  omega

theorem ref_range (h : Base m A O) (hA : A ino r ≠ 0) :
    m.first ≤ A ino r ∧ A ino r < m.nextIno := by
  rcases h.owned _ _ (h.refs ino r hA).2 with ⟨-, ho⟩ | hr
  · cases ho
  · exact hr

theorem ref_lt (h : Base m A O) (hA : A ino r ≠ 0) : A ino r < 2 ^ 32 :=
  h.lt_width (h.ref_range hA).2

theorem inj (h : Base m A O) (hA : A ino r ≠ 0) (he : A ino r = A ino' r') :
    ino = ino' ∧ r = r' := by
  have h₁ := (h.refs ino r hA).2
  have h₂ := (h.refs ino' r' (he ▸ hA)).2
  rw [he, h₂] at h₁
  simpa [eq_comm] using h₁

theorem child_zero (h : Base m A O) (hp : A ino p = 0) (hk : k < sfsBlkNentry)
    (hc : p.child k = some r) : A ino r = 0 := by
  by_contra hr
  exact h.parent ino r p k ((Ref.child_iff hk).mp hc) hr hp

theorem reserved_ne (h : Base m A O) (hb : Reserved m O b) (hA : A ino r ≠ 0) : A ino r ≠ b := by
  rintro rfl
  have := (h.refs ino r hA).2
  rw [hb.none] at this
  cases this

/-- The inodes after a number is entered in an inode. -/
theorem maps_field (h : Base m A O) (hp : r.parent = none)
    (hc : r.IsTable → ∀ k < sfsBlkNentry, ∀ c, r.child k = some c → entry (m.cache b) k = A ino c)
    (hino' : O ino' = some .inode) :
    Maps ((place m A ino r b).inode ino') (place m A ino r b).cache (A.set ino r b ino') := by
  have hm := h.maps ino' hino'
  have hcache : (place m A ino r b).cache = m.cache := by
    unfold place
    rw [hp]
    rfl
  rw [hcache]
  by_cases hi : ino' = ino
  · subst hi
    have hentries : ∀ p, p.IsTable → A.set ino' r b ino' p ≠ 0 → ∀ k < sfsBlkNentry, ∀ c,
        p.child k = some c → entry (m.cache (A.set ino' r b ino' p)) k = A.set ino' r b ino' c := by
      intro p ht hA k hk c hpc
      have hcr : c ≠ r := by
        rintro rfl
        rw [Ref.child_iff hk, hp] at hpc
        cases hpc
      rw [Places.set_ref hcr]
      by_cases hpr : p = r
      · subst hpr
        rw [Places.set_self]
        exact hc ht k hk c hpc
      · rw [Places.set_ref hpr] at hA ⊢
        exact hm.entries p ht hA k hk c hpc
    unfold place
    rw [hp]
    cases r with
    | table j => cases hp
    | data i =>
      refine ⟨fun j hj => ?_, ?_, ?_, hentries⟩
      · by_cases hji : j = i
        · subst hji
          simp [Writer.setInode, Places.set_self]
        · rw [Places.set_ref (by simpa using hji)]
          simpa [Writer.setInode, hji] using hm.direct j hj
      · simpa [Writer.setInode, Places.set_ref] using hm.index
      · simpa [Writer.setInode, Places.set_ref] using hm.dbIndex
    | index =>
      refine ⟨fun j hj => ?_, ?_, ?_, hentries⟩
      · simpa [Writer.setInode, Places.set_ref] using hm.direct j hj
      · simp [Writer.setInode, Places.set_self]
      · simpa [Writer.setInode, Places.set_ref] using hm.dbIndex
    | dbIndex =>
      refine ⟨fun j hj => ?_, ?_, ?_, hentries⟩
      · simpa [Writer.setInode, Places.set_ref] using hm.direct j hj
      · simpa [Writer.setInode, Places.set_ref] using hm.index
      · simp [Writer.setInode, Places.set_self]
  · rw [Places.set_ino hi]
    have hinode : (place m A ino r b).inode ino' = m.inode ino' := by
      unfold place
      rw [hp]
      simp [Writer.setInode, hi]
    rw [hinode]
    exact hm

/-- The inodes after a number is entered in a table. -/
theorem maps_entry (h : Base m A O) (hb : b < 2 ^ 32) (hp : r.parent = some (p, k))
    (hA : A ino p ≠ 0) (hbp : b ≠ A ino p) (hpr : p ≠ r)
    (hc : r.IsTable → ∀ k < sfsBlkNentry, ∀ c, r.child k = some c → entry (m.cache b) k = A ino c)
    (hino' : O ino' = some .inode) :
    Maps ((place m A ino r b).inode ino') (place m A ino r b).cache (A.set ino r b ino') := by
  have hm := h.maps ino' hino'
  have hinode : (place m A ino r b).inode = m.inode := by
    unfold place
    rw [hp]
    rfl
  have hcache : (place m A ino r b).cache = Function.update m.cache (A ino p)
      (memcpy (m.cache (A ino p)) (k * 4) (putUint b) 0 4) := by
    unfold place
    rw [hp]
    rfl
  have hfield : ∀ r', r'.parent = none → A.set ino r b ino' r' = A ino' r' := by
    intro r' hr'
    by_cases hi : ino' = ino
    · subst hi
      refine Places.set_ref ?_
      rintro rfl
      rw [hp] at hr'
      cases hr'
    · rw [Places.set_ino hi]
  rw [hinode, hcache]
  refine ⟨fun i hi => ?_, ?_, ?_, fun q ht hq j hj c hqc => ?_⟩
  · rw [hfield (.data i) (if_pos hi)]
    exact hm.direct i hi
  · rw [hfield .index rfl]
    exact hm.index
  · rw [hfield .dbIndex rfl]
    exact hm.dbIndex
  · have hcp := (Ref.child_iff hj).mp hqc
    rcases Places.set_cases hq with ⟨rfl, rfl⟩ | ⟨hne, he, hq₀⟩
    · -- the table that was entered
      have hcq : c ≠ q := by
        rintro rfl
        rw [hp, Option.some.injEq, Prod.mk.injEq] at hcp
        exact hpr hcp.1
      rw [Places.set_self, Places.set_ref hcq, Function.update_of_ne hbp, hc ht j hj c hqc]
    · rw [he]
      by_cases hT : A ino' q = A ino p
      · obtain ⟨rfl, rfl⟩ := h.inj hq₀ hT
        rw [Function.update_self, entry_memcpy hb]
        by_cases hjk : j = k
        · subst hjk
          obtain rfl : c = r := by
            have := (Ref.child_iff hj).mpr hp
            rw [hqc] at this
            exact Option.some.inj this
          rw [if_pos rfl, Places.set_self]
        · have hcr : c ≠ r := by
            rintro rfl
            rw [hp, Option.some.injEq, Prod.mk.injEq] at hcp
            exact hjk hcp.2.symm
          rw [if_neg hjk, Places.set_ref hcr]
          exact hm.entries _ ht hq₀ j hj c hqc
      · have hcr : ino' ≠ ino ∨ c ≠ r := by
          by_contra! hn
          obtain ⟨rfl, rfl⟩ := hn
          rw [hp, Option.some.injEq, Prod.mk.injEq] at hcp
          exact hT (by rw [hcp.1])
        have hc' : A.set ino r b ino' c = A ino' c := by
          rcases hcr with hi | hcr
          · rw [Places.set_ino hi]
          · by_cases hi : ino' = ino
            · subst hi
              exact Places.set_ref hcr
            · rw [Places.set_ino hi]
        rw [Function.update_of_ne hT, hc']
        exact hm.entries q ht hq₀ j hj c hqc

theorem maps_place (h : Base m A O) (hb : b < 2 ^ 32)
    (hp : ∀ p k, r.parent = some (p, k) → A ino p ≠ 0 ∧ b ≠ A ino p)
    (hc : r.IsTable → ∀ k < sfsBlkNentry, ∀ c, r.child k = some c → entry (m.cache b) k = A ino c)
    (hino' : O ino' = some .inode) :
    Maps ((place m A ino r b).inode ino') (place m A ino r b).cache (A.set ino r b ino') := by
  cases he : r.parent with
  | none => exact h.maps_field he hc hino'
  | some q =>
    obtain ⟨p, k⟩ := q
    exact h.maps_entry hb he (hp p k he).1 (hp p k he).2 (Ref.parent_ne he) hc hino'

theorem again (h : Base m A O) (hA : A ino r ≠ 0) : Base (place m A ino r (A ino r)) A O := by
  have hset : A.set ino r (A ino r) = A := by
    unfold Places.set
    rw [Function.update_eq_self, Function.update_eq_self]
  have hmaps := fun ino' (hi : O ino' = some .inode) => h.maps_place (r := r)
    (h.ref_lt hA)
    (fun p k hpk => ⟨h.parent ino r p k hpk hA, fun he => Ref.parent_ne hpk (h.inj hA he).2.symm⟩)
    (fun hT k hk c hc => (h.maps ino (h.refs ino r hA).1).entries r hT hA k hk c hc) hi
  rw [hset] at hmaps
  obtain ⟨is, cs, hm⟩ := place_eq m A ino r (A ino r)
  rw [hm] at hmaps ⊢
  exact { h with maps := hmaps }

/-- A block gets the place `r` of the inode `ino`. -/
theorem put (h : Base m A O) (hb : Reserved m O b) (hino : O ino = some .inode) (hr : A ino r = 0)
    (hp : ∀ p k, r.parent = some (p, k) → A ino p ≠ 0 ∧ k < sfsBlkNentry)
    (ht : r.IsTable → (∃ h < hashListSize, b ∈ m.blocks h) ∧
      ∀ k < sfsBlkNentry, entry (m.cache b) k = 0)
    (hd : ¬ r.IsTable → ∀ h, b ∉ m.blocks h) :
    Base (place m A ino r b) (A.set ino r b) (Function.update O b (some (.ref ino r))) := by
  have hb₀ : b ≠ 0 := by
    have := h.first_pos
    have := hb.range
    omega
  have howner : ∀ {b' o}, O b' = some o → Function.update O b (some (.ref ino r)) b' = some o := by
    intro b' o ho
    rw [Function.update_of_ne, ho]
    rintro rfl
    rw [hb.none] at ho
    cases ho
  have hinode : ∀ {b'}, Function.update O b (some (.ref ino r)) b' = some .inode ↔
      O b' = some .inode := by
    refine fun {b'} => ⟨fun ho => ?_, howner⟩
    by_cases hbb : b' = b
    · subst hbb
      simp at ho
    · rwa [Function.update_of_ne hbb] at ho
  have hmaps := fun ino' (hi : O ino' = some .inode) => h.maps_place (r := r)
    (h.lt_width hb.range.2) (fun p k hpk =>
      ⟨(hp p k hpk).1, (h.reserved_ne hb (hp p k hpk).1).symm⟩)
    (fun hT k hk c hc => ((ht hT).2 k hk).trans (h.child_zero hr hk hc).symm) hi
  obtain ⟨is, cs, hm⟩ := place_eq m A ino r b
  rw [hm] at hmaps ⊢
  constructor
  case range => exact h.range
  case count => exact h.count
  case owned =>
    intro b' o ho
    by_cases hbb : b' = b
    · exact .inr (hbb ▸ hb.range)
    · rw [Function.update_of_ne hbb] at ho
      exact h.owned b' o ho
  case inode => exact fun b' => hinode.trans (h.inode b')
  case listed => exact fun l b' hl => hinode.mpr (h.listed l b' hl)
  case refs =>
    intro ino' r' hA
    rcases Places.set_cases hA with ⟨rfl, rfl⟩ | ⟨-, he, hA'⟩
    · rw [Places.set_self, Function.update_self]
      exact ⟨howner hino, rfl⟩
    · rw [he]
      exact ⟨howner (h.refs ino' r' hA').1, howner (h.refs ino' r' hA').2⟩
  case parent =>
    intro ino' r' p k hpar hA
    have hkeep : ∀ {p}, A ino' p ≠ 0 → A.set ino r b ino' p ≠ 0 := by
      intro p hAp
      by_cases hi : ino' = ino
      · subst hi
        by_cases hpr : p = r
        · rwa [hpr, Places.set_self]
        · rwa [Places.set_ref hpr]
      · rwa [Places.set_ino hi]
    rcases Places.set_cases hA with ⟨rfl, rfl⟩ | ⟨-, -, hA'⟩
    · exact hkeep (hp p k hpar).1
    · exact hkeep (h.parent ino' r' p k hpar hA')
  case maps => exact fun ino' hi => hmaps ino' (hinode.mp hi)
  case cached =>
    intro ino' p hT hA
    rcases Places.set_cases hA with ⟨rfl, rfl⟩ | ⟨-, he, hA'⟩
    · rw [Places.set_self]
      exact (ht hT).1
    · rw [he]
      exact h.cached ino' p hT hA'
  case tables =>
    intro l b' hl
    refine ⟨(h.tables l b' hl).1, (h.tables l b' hl).2.1, fun o ho => ?_⟩
    by_cases hbb : b' = b
    · subst hbb
      rw [Function.update_self] at ho
      have hT : r.IsTable := by
        by_contra hT
        exact hd hT l hl
      exact ⟨ino, r, hT, (Option.some.inj ho).symm⟩
    · rw [Function.update_of_ne hbb] at ho
      exact (h.tables l b' hl).2.2 o ho

end Base

end Places

end UCore.Mksfs

import Mathlib.Data.Set.Card
import UCore.Library.Run
import UCore.PageTable.Pages

/-! # Page tables as finite maps

Abstractly, the page tables are a partial map from directories and page numbers to pages with
permissions, beside the set of pages that are alive. Every sequence of calls takes the tables and
the map through the same changes.
-/

namespace UCore.PageTable

open Library

/-- The calls of a run. -/
inductive Op
  | allocPage
  | setupPgdir
  | pageInsert (pgdir page la perm : ℕ)
  | pageRemove (pgdir la : ℕ)
  | unmapRange (pgdir start end' : ℕ)

inductive Result
  | page (p : Option ℕ)
  | ret (n : ℤ)
  | done
deriving DecidableEq

/-- A call; `none` when an assertion fails. -/
def State.exec (s : State) : Op → Option (Result × State)
  | .allocPage => some (.page s.allocPage.1, s.allocPage.2)
  | .setupPgdir => some (.page (s.setupPgdir bootPageTable).1, (s.setupPgdir bootPageTable).2)
  | .pageInsert pgdir page la perm =>
    some (.ret (s.pageInsert pgdir page la perm).1, (s.pageInsert pgdir page la perm).2)
  | .pageRemove pgdir la => some (.done, s.pageRemove pgdir la)
  | .unmapRange pgdir start end' => (s.unmapRange pgdir start end').map fun t => (.done, t)

/-- Address spaces: the page and the permission at each page number of each directory. -/
structure Spaces where
  dirs : Set ℕ
  live : Set ℕ
  map : ℕ → ℕ → Option (ℕ × ℕ)

/-- Page `p` is mapped by `m`. -/
def Mapped (m : ℕ → ℕ → Option (ℕ × ℕ)) (p : ℕ) : Set (ℕ × ℕ) :=
  {x | ∃ perm, m x.1 x.2 = some (p, perm)}

namespace Spaces

variable (a : Spaces)

def empty : Spaces := ⟨∅, ∅, fun _ _ => none⟩

/-- The map becomes `m`; a page that loses its last mapping dies. -/
def remap (m : ℕ → ℕ → Option (ℕ × ℕ)) : Spaces :=
  { a with
    map := m
    live := {p | p ∈ a.live ∧ ((Mapped a.map p).Nonempty → (Mapped m p).Nonempty)} }

/-- The effect of a call with its result. -/
def apply : Op → Result → Spaces
  | .allocPage, .page (some p) => { a with live := insert p a.live }
  | .setupPgdir, .page (some d) => { a with dirs := insert d a.dirs }
  | .pageInsert d p la perm, .ret 0 => a.remap (setEntry a.map d (la / pgsize) (some (p, perm)))
  | .pageRemove d la, .done => a.remap (setEntry a.map d (la / pgsize) none)
  | .unmapRange d start end', .done =>
    a.remap (clearRange a.map none d (start / pgsize) (end' / pgsize))
  | _, _ => a

/-- The number of mappings of a page. -/
noncomputable def refs (p : ℕ) : ℤ := (Mapped a.map p).ncard

/-- What the callers guarantee. -/
def admits : Op → Prop
  | .allocPage | .setupPgdir => True
  | .pageInsert d p la perm =>
    d ∈ a.dirs ∧ p ∈ a.live ∧ la % pgsize = 0 ∧ isVpn (la / pgsize) ∧ perm < 1024
  | .pageRemove d la => d ∈ a.dirs ∧ la % pgsize = 0 ∧ isVpn (la / pgsize)
  | .unmapRange d start end' =>
    d ∈ a.dirs ∧ start % pgsize = 0 ∧ end' % pgsize = 0 ∧ userAccess start end'

end Spaces

/-- A call of the code, with its effect on the address spaces. -/
def Step (x : State × Spaces) (l : Op × Result) (y : State × Spaces) : Prop :=
  x.2.admits l.1 ∧ x.1.exec l.1 = some (l.2, y.1) ∧ y.2 = x.2.apply l.1 l.2

/-- The leaf entry for a page with its permission. -/
def entry : Option (ℕ × ℕ) → ℕ
  | none => 0
  | some (page, perm) => leafEntry page perm

/-- What the code shows of the page tables is the map, and the counts are its numbers of
mappings. -/
structure Refines (s : State) (a : Spaces) : Prop where
  page : ∀ d ∈ a.dirs, ∀ la, isVpn (la / pgsize) →
    (s.getPage d la).1 = (a.map d (la / pgsize)).map Prod.fst
  perm : ∀ d ∈ a.dirs, ∀ la, isVpn (la / pgsize) → ∀ page perm,
    a.map d (la / pgsize) = some (page, perm) →
      ∃ ptep, (s.getPage d la).2 = some ptep ∧ s.read ptep = pteCreate page (pteV ||| perm)
  refs : ∀ p ∈ a.live, s.ref p = a.refs p
  alive : ∀ p, (Mapped a.map p).Nonempty → p ∈ a.live
  dead : ∀ p ∈ s.free, s.ref p = 0 ∧ p ∉ a.live

/-- The coupling of the tables and the map. -/
structure Agrees (s : State) (R : ℕ → Role) (D : Finset ℕ) (a : Spaces) : Prop where
  inv : Inv s R D
  dirs : ∀ d, d ∈ a.dirs ↔ d ∈ D
  live : ∀ p, p ∈ a.live ↔ R p = .user
  outside : ∀ d v, ¬ (d ∈ D ∧ isVpn v) → a.map d v = none
  perms : ∀ d v p perm, a.map d v = some (p, perm) → perm < 1024
  pte : ∀ d ∈ D, ∀ v, isVpn v → s.pte d v = entry (a.map d v)

section Entry

variable {o : Option (ℕ × ℕ)} {p : ℕ}

theorem mapsTo_entry (h : ∀ p perm, o = some (p, perm) → perm < 1024) :
    MapsTo (entry o) p ↔ ∃ perm, o = some (p, perm) := by
  cases o with
  | none => simp [entry]
  | some x =>
    obtain ⟨q, perm⟩ := x
    rw [entry, mapsTo_leafEntry (h q perm rfl)]
    simp [eq_comm]

theorem pte2page_entry (h : ∀ p perm, o = some (p, perm) → perm < 1024) :
    (if has (entry o) pteV then some (pte2page (entry o)) else none) = o.map Prod.fst := by
  cases o with
  | none => simp [entry]
  | some x => simp [entry, pte2page_leafEntry (h x.1 x.2 rfl)]

end Entry

theorem bootPageTable_user {i : ℕ} (h : userPart i) : has (bootPageTable i) pteV = false := by
  rw [bootPageTable, if_neg]
  · simp
  · have := h.1
    have := h.2
    omega

namespace Agrees

variable {s t : State} {R R' : ℕ → Role} {D : Finset ℕ} {a : Spaces} {m : ℕ → ℕ → Option (ℕ × ℕ)}
  {p : ℕ}

theorem mapped_eq (h : Agrees s R D a) : Mapped a.map p = ↑(s.maps D p) := by
  ext ⟨d, v⟩
  rw [Finset.mem_coe, mem_maps]
  by_cases hx : d ∈ D ∧ isVpn v
  · rw [h.pte d hx.1 v hx.2, mapsTo_entry (h.perms d v)]
    simp [Mapped, hx]
  · simp [Mapped, hx, h.outside d v hx]

theorem mapped_nonempty (h : Agrees s R D a) :
    (Mapped a.map p).Nonempty ↔ (s.maps D p).Nonempty := by
  rw [h.mapped_eq, Finset.coe_nonempty]

theorem refines (h : Agrees s R D a) : Refines s a where
  page d hd la hv := by
    have hd' := (h.dirs d).mp hd
    rw [(getPage_spec h.inv hd' hv).1, h.pte d hd' _ hv]
    exact pte2page_entry (h.perms d _)
  perm d hd la hv page perm hm := by
    have hd' := (h.dirs d).mp hd
    obtain ⟨h₁, h₂⟩ := getPage_spec h.inv hd' hv
    have hs : (s.getPage d la).2 ≠ none := by
      intro hn
      have : (s.getPage d la).1 = none := by
        unfold State.getPage at hn ⊢
        split at hn
        · rfl
        · simp at hn
      rw [h₁, h.pte d hd' _ hv, pte2page_entry (h.perms d _), hm] at this
      simp at this
    obtain ⟨ptep, hp⟩ := Option.ne_none_iff_exists'.mp hs
    refine ⟨ptep, hp, ?_⟩
    rw [h₂ ptep hp, h.pte d hd' _ hv, hm]
    rfl
  refs p hp := by
    rw [h.inv.refs p ((h.live p).mp hp), Spaces.refs, h.mapped_eq, Set.ncard_coe_finset]
  alive p hp := (h.live p).mpr (h.inv.mapped (h.mapped_nonempty.mp hp))
  dead p hp := by
    refine ⟨h.inv.wf.freeRef p hp, fun hl => ?_⟩
    have := (h.inv.wf.free p).mpr hp
    simp [(h.live p).mp hl] at this

theorem edit {f : ℕ → ℕ → ℕ} (h : Agrees s R D a) (e : Edit s R D f t R')
    (ho : ∀ d v, ¬ (d ∈ D ∧ isVpn v) → m d v = none)
    (hp : ∀ d v p perm, m d v = some (p, perm) → perm < 1024)
    (hf : ∀ d ∈ D, ∀ v, isVpn v → f d v = entry (m d v)) : Agrees t R' D (a.remap m) := by
  have hpte : ∀ d ∈ D, ∀ v, isVpn v → t.pte d v = entry (m d v) :=
    fun d hd v hv => (e.pte d hd v hv).trans (hf d hd v hv)
  have hmap : ∀ p, (Mapped m p).Nonempty ↔ (t.maps D p).Nonempty := by
    have hl : Agrees t R' D { a with map := m, live := {p | R' p = .user} } :=
      ⟨e.inv, h.dirs, fun _ => Iff.rfl, ho, hp, hpte⟩
    exact fun p => hl.mapped_nonempty
  refine ⟨e.inv, h.dirs, fun p => ?_, ho, hp, hpte⟩
  rw [e.user p, ← h.live p, ← h.mapped_nonempty, ← hmap]
  rfl

theorem answers (h : Agrees s R D a) (l : List (Option ℕ)) :
    Agrees { s with answers := l } R D a :=
  ⟨h.inv.grow (.answers h.inv.wf l), h.dirs, h.live, h.outside, h.perms, h.pte⟩

theorem allocPage (h : Agrees s R D a) :
    ∃ R', Agrees s.allocPage.2 R' D (a.apply .allocPage (.page s.allocPage.1)) := by
  rcases allocPage_cases s with ⟨l, hs⟩ | ⟨q, l, hq, hs⟩
  · rw [hs]
    exact ⟨R, h.answers l⟩
  · rw [hs, ← take_self]
    have hq := (h.inv.wf.free q).mpr hq
    refine ⟨_, h.inv.takeUser hq, h.dirs, fun p => ?_, h.outside, h.perms, fun d hd v hv => ?_⟩
    · change p ∈ insert q a.live ↔ _
      rw [Set.mem_insert_iff, h.live]
      rcases eq_or_ne p q with rfl | hp
      · simp
      · simp [hp]
    · rw [take_pte hq h.inv.wf (.inl rfl) ((h.inv.dirs d).mpr hd) hv]
      exact h.pte d hd v hv

theorem setupPgdir (h : Agrees s R D a) :
    ∃ R' D', Agrees (s.setupPgdir bootPageTable).2 R' D'
      (a.apply .setupPgdir (.page (s.setupPgdir bootPageTable).1)) := by
  unfold State.setupPgdir
  rcases allocPage_cases s with ⟨l, hs⟩ | ⟨q, l, hq, hs⟩
  · rw [hs]
    exact ⟨R, D, h.answers l⟩
  · rw [hs]
    have hq := (h.inv.wf.free q).mpr hq
    have hb : ∀ i, userPart i → has (bootPageTable i) pteV = false := fun i => bootPageTable_user
    have hqD : q ∉ D := fun hD => by simp [(h.inv.dirs q).mpr hD] at hq
    have hout : ∀ d v, ¬ (d ∈ D ∧ isVpn v) → a.map d v = none := h.outside
    refine ⟨_, _, h.inv.takeRoot hq hb (l := l), fun d => ?_, fun p => ?_, fun d v hx => ?_,
      h.perms, fun d hd v hv => ?_⟩
    · change d ∈ insert q a.dirs ↔ _
      rw [Set.mem_insert_iff, h.dirs, Finset.mem_insert]
    · change p ∈ a.live ↔ _
      rw [h.live]
      rcases eq_or_ne p q with rfl | hp
      · simp [hq]
      · simp [hp]
    · exact hout d v fun hx' => hx ⟨Finset.mem_insert_of_mem hx'.1, hx'.2⟩
    · change State.pte (s.take q bootPageTable l) d v = entry (a.map d v)
      rcases Finset.mem_insert.mp hd with rfl | hd
      · rw [take_pte_new hb hv, hout d v fun hx => hqD hx.1]
        rfl
      · rw [take_pte hq h.inv.wf (.inr ⟨rfl, hb⟩) ((h.inv.dirs d).mpr hd) hv]
        exact h.pte d hd v hv

theorem setEntry {d v : ℕ} {o : Option (ℕ × ℕ)} (h : Agrees s R D a) (hd : d ∈ D) (hv : isVpn v)
    (ho : ∀ p perm, o = some (p, perm) → perm < 1024)
    (e : Edit s R D (PageTable.setEntry s.pte d v (entry o)) t R') :
    Agrees t R' D (a.remap (PageTable.setEntry a.map d v o)) := by
  refine h.edit e (fun d' v' hx => ?_) (fun d' v' p perm hm => ?_) fun d' hd' v' hv' => ?_
  · rw [PageTable.setEntry, if_neg]
    · exact h.outside d' v' hx
    · rintro ⟨rfl, rfl⟩
      exact hx ⟨hd, hv⟩
  · unfold PageTable.setEntry at hm
    split at hm
    · exact ho p perm hm
    · exact h.perms d' v' p perm hm
  · simp only [PageTable.setEntry, h.pte d' hd' v' hv']
    split <;> rfl

theorem clearRange {d x y : ℕ} (h : Agrees s R D a)
    (e : Edit s R D (PageTable.clearRange s.pte 0 d x y) t R') :
    Agrees t R' D (a.remap (PageTable.clearRange a.map none d x y)) := by
  refine h.edit e (fun d' v' hx => ?_) (fun d' v' p perm hm => ?_) fun d' hd' v' hv' => ?_
  · unfold PageTable.clearRange
    split
    · rfl
    · exact h.outside d' v' hx
  · unfold PageTable.clearRange at hm
    split at hm
    · simp at hm
    · exact h.perms d' v' p perm hm
  · simp only [PageTable.clearRange, h.pte d' hd' v' hv']
    split <;> rfl

theorem pageInsert {d page la perm : ℕ} (h : Agrees s R D a)
    (hok : a.admits (.pageInsert d page la perm)) :
    ∃ R', Agrees (s.pageInsert d page la perm).2 R' D
      (a.apply (.pageInsert d page la perm) (.ret (s.pageInsert d page la perm).1)) := by
  obtain ⟨hd, hp, -, hv, hperm⟩ := hok
  have hd := (h.dirs d).mp hd
  obtain ⟨ret, t, R', hs, ⟨rfl, g, -⟩ | ⟨rfl, e⟩⟩ :=
    pageInsert_spec h.inv hd hv ((h.live page).mp hp) hperm
  · rw [hs]
    refine ⟨R', h.inv.grow g, h.dirs, fun p => ?_, h.outside, h.perms, fun d hd v hv => ?_⟩
    · rw [g.user_iff]
      exact h.live p
    · exact (g.pte_eq h.inv d hd v hv).trans (h.pte d hd v hv)
  · rw [hs]
    refine ⟨R', h.setEntry (o := some (page, perm)) hd hv ?_ e⟩
    rintro p perm' he
    obtain ⟨-, rfl⟩ : page = p ∧ perm = perm' := by simpa using he
    exact hperm

theorem step {op : Op} (h : Agrees s R D a) (hok : a.admits op) :
    ∃ r t R' D', s.exec op = some (r, t) ∧ Agrees t R' D' (a.apply op r) := by
  cases op with
  | allocPage =>
    obtain ⟨R', h'⟩ := h.allocPage
    exact ⟨_, _, R', D, rfl, h'⟩
  | setupPgdir =>
    obtain ⟨R', D', h'⟩ := h.setupPgdir
    exact ⟨_, _, R', D', rfl, h'⟩
  | pageInsert d page la perm =>
    obtain ⟨R', h'⟩ := h.pageInsert hok
    exact ⟨_, _, R', D, rfl, h'⟩
  | pageRemove d la =>
    obtain ⟨hd, -, hv⟩ := hok
    have hd := (h.dirs d).mp hd
    obtain ⟨R', e⟩ := pageRemove_spec h.inv hd hv
    exact ⟨_, _, R', D, rfl, h.setEntry (o := none) hd hv (by simp) e⟩
  | unmapRange d start end' =>
    obtain ⟨hd, hs, he, hu⟩ := hok
    obtain ⟨t, R', ht, e⟩ := unmapRange_spec h.inv ((h.dirs d).mp hd) hs he hu
    exact ⟨.done, t, R', D, by simp [State.exec, ht], h.clearRange e.toEdit⟩

theorem run {l : List (Op × Result)} {b : Spaces} (h : Agrees s R D a)
    (hr : Runs Step (s, a) l (t, b)) : ∃ R' D', Agrees t R' D' b := by
  refine hr.invariant (P := fun x => ∃ R D, Agrees x.1 R D x.2) ?_ ⟨R, D, h⟩
  rintro ⟨s, a⟩ ⟨op, r⟩ ⟨t, b⟩ ⟨R, D, h⟩ ⟨hok, he, hb⟩
  obtain ⟨r', t', R', D', he', h'⟩ := h.step hok
  obtain ⟨rfl, rfl⟩ : r' = r ∧ t' = t := by
    rw [show s.exec op = _ from he] at he'
    simpa [eq_comm] using he'
  exact ⟨R', D', hb ▸ h'⟩

end Agrees

theorem Start.agrees {s : State} (h : Start s) : Agrees s (startRole s) ∅ .empty := by
  refine ⟨h.inv, ?_, fun p => ?_, ?_, ?_, ?_⟩
  · simp [Spaces.empty]
  · constructor
    · simp [Spaces.empty]
    · intro hp
      rcases startRole_cases hp with h | h <;> simp at h
  · simp [Spaces.empty]
  · simp [Spaces.empty]
  · simp

/-- Nothing that the map shows and no count of a live page has changed. -/
structure Unchanged (s t : State) (a : Spaces) : Prop where
  page : ∀ d ∈ a.dirs, ∀ la, isVpn (la / pgsize) → (t.getPage d la).1 = (s.getPage d la).1
  refs : ∀ p ∈ a.live, t.ref p = s.ref p

/-- In every run the tables implement the map, every further call returns, and a call that
returns `-E_NO_MEM` changes nothing. -/
theorem pageTable_refines {s t : State} {a : Spaces} {l : List (Op × Result)} (hs : Start s)
    (hr : Runs Step (s, .empty) l (t, a)) :
    Refines t a ∧ ∀ op, a.admits op → ∃ r t', t.exec op = some (r, t') ∧
      Refines t' (a.apply op r) ∧ (r = .ret (-eNoMem) → a.apply op r = a ∧ Unchanged t t' a) := by
  obtain ⟨R, D, h⟩ := hs.agrees.run hr
  refine ⟨h.refines, fun op hok => ?_⟩
  obtain ⟨r, t', R', D', he, h'⟩ := h.step hok
  refine ⟨r, t', he, h'.refines, ?_⟩
  rintro rfl
  have ha : a.apply op (.ret (-eNoMem)) = a := by cases op <;> rfl
  have h₁ := h'.refines
  rw [ha] at h₁
  refine ⟨ha, fun d hd la hv => ?_, fun p hp => ?_⟩
  · rw [h₁.page d hd la hv, h.refines.page d hd la hv]
  · rw [h₁.refs p hp, h.refines.refs p hp]

def fourPages : State := ⟨fun _ _ => 0, fun _ => 0, {1, 2, 3, 4}, [1, 2, 3, 4].map some, []⟩

/-- The calls that set up a directory with one mapping. -/
def oneMapping : List (Op × Result) :=
  [(.setupPgdir, .page (some 1)), (.allocPage, .page (some 2)),
    (.pageInsert 1 2 userbase pteU, .ret 0)]

theorem pageTable_refines_oneMapping : Start fourPages ∧ ∃ t a,
    Runs Step (fourPages, .empty) oneMapping (t, a) ∧ Refines t a ∧
      (t.getPage 1 userbase).1 = some 2 := by
  have hs : Start fourPages := fun _ _ => rfl
  have hok : (oneMapping.take 2).foldl (fun a x => a.apply x.1 x.2) Spaces.empty
      |>.admits (.pageInsert 1 2 userbase pteU) :=
    ⟨.inl rfl, .inl rfl, by decide, by decide, by decide⟩
  have hrun : Runs Step (fourPages, .empty) oneMapping
      ((((fourPages.setupPgdir bootPageTable).2.allocPage).2.pageInsert 1 2 userbase pteU).2,
        oneMapping.foldl (fun a x => a.apply x.1 x.2) Spaces.empty) :=
    .cons (t := (_, _)) ⟨trivial, rfl, rfl⟩ (.cons (t := (_, _)) ⟨trivial, rfl, rfl⟩
      (.cons (t := (_, _)) ⟨hok, rfl, rfl⟩ (.nil _)))
  have h := (pageTable_refines hs hrun).1
  exact ⟨hs, _, _, hrun, h, h.page 1 (.inl rfl) userbase (by decide)⟩

end UCore.PageTable

import UCore.Sfs.Alloc

/-! # The block map

The outcomes of the functions that look up a block of an inode and enter new blocks in its map.
-/

namespace UCore.Sfs

open Library

/-- The entry `k` of an index block. -/
def entry (d : Buf) (k : ℕ) : ℕ := getU32 fun j => d (k * 4 + j)

namespace Fs

variable (s : Fs)

/-- Why a call that takes `need` blocks fails: they are not free, or a transfer fails. -/
def Short (need : ℕ) (ret : ℤ) : Prop :=
  ret = -eNoMem ∧ s.freeCount < need ∨ ∃ k, s.code k ≠ 0

/-- `sfs_block_alloc` takes a block and fails to clear it. -/
def AllocLeaks : Prop := 0 < s.freeCount ∧ s.code 0 ≠ 0

/-- `sfs_bmap_get_sub_nolock` takes a block and fails to clear it. -/
def SubLeaks (entp index : ℕ) (create : Bool) : Prop :=
  create = true ∧
    if entp = 0 then
      0 < s.freeCount ∧ (s.code 0 ≠ 0 ∨ 1 < s.freeCount ∧ s.code 1 ≠ 0)
    else s.code 0 = 0 ∧ entry (s.disk entp) index = 0 ∧ 0 < s.freeCount ∧ s.code 1 ≠ 0

/-- `sfs_bmap_get_nolock` takes a block and fails to clear it. -/
def GetLeaks (sin index : ℕ) (create : Bool) : Prop :=
  if index < sfsNdirect then
    (s.din sin).direct index = 0 ∧ create = true ∧ s.AllocLeaks
  else s.SubLeaks (s.din sin).indirect (index - sfsNdirect) create

/-- `sfs_bmap_load_nolock` takes a block and fails to clear it. -/
def LoadLeaks (sin index : ℕ) : Prop := s.GetLeaks sin index (decide (index = (s.din sin).blocks))

end Fs

section Entry

/-- The outcomes of entering a new block at `offset` of `ent` in `s`, after `n` transfers from `s₀`
that took the blocks `l`. -/
inductive Entered (s₀ : Fs) (n : ℕ) (l : List ℕ) (s : Fs) (entp ent offset : ℕ) :
    ℤ × ℕ × ℕ → Fs → Prop
  | failed {ret : ℤ} {m : ℕ} {l' : List ℕ} {t : Fs} : ret ≠ 0 → Takes s₀ m l' t →
      (l' ≠ [] ↔ l.length < s₀.freeCount ∧ s₀.code n ≠ 0) → s₀.Short (l.length + 1) ret →
      Entered s₀ n l s entp ent offset (ret, entp, 0) t
  | entered {b : ℕ} {u : Fs} : Takes s 1 [b] u → Zeroed u b → s₀.code n = 0 →
    l.length < s₀.freeCount →
      Entered s₀ n l s entp ent offset (0, ent, b) ((u.patch ent offset (putUint b) 0 4).later 2)

variable {s₀ s t : Fs} {n m entp ent offset : ℕ} {l l' : List ℕ}

theorem cleanupEntry_wp (h : Takes s₀ m (l ++ l') t) (hl : l = if ent = entp then [] else [ent]) :
    Code.Wp (cleanupEntry entp ent) t (fun _ => ¬ s₀.Sound) fun _ u => Takes s₀ m l' u := by
  unfold cleanupEntry
  by_cases he : ent = entp
  · rw [if_pos he] at hl
    subst hl
    rw [if_neg (not_not.mpr he)]
    exact Code.Wp.pure h
  · rw [if_neg he] at hl
    subst hl
    rw [if_pos he]
    apply sfsBlockFree_wp
    · intro _ hn hs
      exact hn ⟨h.sound hs, h.inUse hs (by simp)⟩
    · intro _
      exact h.give

theorem addEntry_wp (h : Takes s₀ n l s) (hl : l = if ent = entp then [] else [ent]) :
    Code.Wp (addEntry entp ent offset) s
      (fun _ => ¬ (s₀.Sound ∧ s.InUse ent ∧ offset + 4 ≤ sfsBlksize))
      (Entered s₀ n l s entp ent offset) := by
  have hcode : s.code 0 = s₀.code n := h.code
  have hcount := h.count
  have hsound : ∀ _ : Panic, ¬ s₀.Sound →
      ¬ (s₀.Sound ∧ s.InUse ent ∧ offset + 4 ≤ sfsBlksize) := fun _ hn hs => hn hs.1
  unfold addEntry
  refine Code.Wp.bind (sfsBlockAlloc_wp.mono (fun e hn hs => hn (h.sound hs.1)) fun _ _ hq => hq) ?_
  rintro ⟨ret, b⟩ t (⟨hr, hts, hfree⟩ | ⟨hfree, hret, -, htake, hz⟩)
  · -- no block is free
    obtain ⟨rfl, rfl⟩ := Prod.mk.inj hr
    subst hts
    dsimp only
    rw [if_pos (by decide)]
    have hc : Takes s₀ n (l ++ []) t := by rwa [List.append_nil]
    refine Code.Wp.bind ((cleanupEntry_wp hc hl).mono hsound fun _ _ hq => hq) ?_
    intro _ u hu
    refine Code.Wp.pure (.failed (by decide) hu ?_ (.inl ⟨rfl, by omega⟩))
    constructor
    · intro hn
      exact absurd rfl hn
    · intro hn
      omega
  · dsimp only at hret htake hz ⊢
    have htake' := h.trans htake
    by_cases hr : ret = 0
    · rw [if_neg (not_not.mpr hr)]
      have hc : s₀.code n = 0 := by rw [← hcode, ← hret, hr]
      refine Code.Wp.bind (Q := fun r u =>
        (∃ k, r.1 ≠ 0 ∧ r.1 = t.code k ∧ u = t.later (k + 1)) ∨
        r.1 = 0 ∧ u = (t.patch ent offset (putUint b) 0 4).later 2) ?_ ?_
      · apply sfsWbuf_wp
        · rintro _ hn ⟨-, ⟨h₁, h₂, -⟩, h₃⟩
          refine hn ⟨by omega, h₃, h₁, ?_⟩
          rw [htake.blocks]
          exact h₂
        · intro k _ hk
          exact .inl ⟨k, hk, rfl, rfl⟩
        · intro _ _
          exact .inr ⟨rfl, rfl⟩
      rintro ⟨ret', buf⟩ u (⟨k, hne, hk, rfl⟩ | ⟨hr', rfl⟩)
      · -- the entry could not be written
        dsimp only at hne hk ⊢
        rw [if_pos hne]
        have hb : Takes s₀ (n + 1 + (k + 1)) (b :: l) (t.later (k + 1)) :=
          htake'.later.perm (List.perm_append_singleton b l)
        refine Code.Wp.bind (Q := fun _ v => Takes s₀ (n + 1 + (k + 1)) (l ++ []) v) ?_ ?_
        · apply sfsBlockFree_wp
          · intro _ hn hs
            exact hn ⟨hb.sound hs.1, hb.inUse hs.1 (by simp)⟩
          · intro _
            rw [List.append_nil]
            exact hb.give
        intro _ v hv
        refine Code.Wp.bind ((cleanupEntry_wp hv hl).mono hsound fun _ _ hq => hq) ?_
        intro _ w hw
        refine Code.Wp.pure (.failed hne hw ?_ (.inr ⟨n + 1 + k, ?_⟩))
        · simp [hc]
        · rw [← htake'.code, ← hk]
          exact hne
      · dsimp only at hr' ⊢
        rw [if_neg (not_not.mpr hr')]
        exact Code.Wp.pure (.entered htake (hz hr) hc (by omega))
    · -- the new block could not be cleared
      rw [if_pos hr]
      refine Code.Wp.bind ((cleanupEntry_wp htake' hl).mono hsound fun _ _ hq => hq) ?_
      intro _ u hu
      have hc : s₀.code n ≠ 0 := by
        rw [← hcode, ← hret]
        exact hr
      refine Code.Wp.pure (.failed hr hu ?_ (.inr ⟨n, hc⟩))
      constructor
      · intro _
        exact ⟨by omega, hc⟩
      · intro _
        simp

end Entry

section Sub

/-- The number of blocks that `sfs_bmap_get_sub_nolock` takes. -/
def Fs.subNeed (s : Fs) (entp index : ℕ) (create : Bool) : ℕ :=
  if create = false then 0
  else if entp = 0 then 2
  else if entry (s.disk entp) index = 0 then 1
  else 0

/-- The outcomes of `sfs_bmap_get_sub_nolock`. -/
inductive GotSub (s : Fs) (entp index : ℕ) (create : Bool) : ℤ × ℕ × ℕ → Fs → Prop
  | failed {ret : ℤ} {m : ℕ} {l : List ℕ} {t : Fs} : ret ≠ 0 → Takes s m l t →
      (l ≠ [] ↔ s.SubLeaks entp index create) → s.Short (s.subNeed entp index create) ret →
      GotSub s entp index create (ret, entp, 0) t
  | none : entp = 0 → create = false → GotSub s entp index create (0, 0, 0) s
  | found : entp ≠ 0 → entry (s.disk entp) index ≠ 0 ∨ create = false →
      GotSub s entp index create (0, entp, entry (s.disk entp) index) (s.later 1)
  | entered {b : ℕ} {u : Fs} : create = true → entp ≠ 0 → entry (s.disk entp) index = 0 →
      Takes s 2 [b] u → Zeroed u b → s.code 1 = 0 →
      GotSub s entp index create (0, entp, b) ((u.patch entp (index * 4) (putUint b) 0 4).later 2)
  | created {e b : ℕ} {u : Fs} : create = true → entp = 0 → e ≠ 0 → Takes s 2 [e, b] u →
      Zeroed u e → Zeroed u b → s.code 0 = 0 → s.code 1 = 0 →
      GotSub s entp index create (0, e, b) ((u.patch e (index * 4) (putUint b) 0 4).later 2)

variable {s : Fs} {entp index : ℕ} {create : Bool}

theorem sfsBmapGetSubNolock_wp : Code.Wp (sfsBmapGetSubNolock entp index create) s
    (fun _ => ¬ (s.Sound ∧ (entp ≠ 0 → s.InUse entp) ∧ index < sfsBlkNentry))
    (GotSub s entp index create) := by
  unfold sfsBmapGetSubNolock
  refine Code.Wp.bind_assert (fun hi => ?_) fun hi h => hi h.2.2
  dsimp only
  have hoff : index * 4 + 4 ≤ sfsBlksize := by
    unfold sfsBlkNentry at hi
    unfold sfsBlksize
    omega
  by_cases he : entp = 0
  · rw [if_neg (not_not.mpr he)]
    cases create with
    | false =>
      rw [if_pos rfl, he]
      exact Code.Wp.pure (.none rfl rfl)
    | true =>
      rw [if_neg (by decide)]
      refine Code.Wp.bind (sfsBlockAlloc_wp.mono (fun e hn hs => hn hs.1) fun _ _ hq => hq) ?_
      rintro ⟨ret, e⟩ t (⟨hr, hts, hfree⟩ | ⟨hfree, hret, hpos, htake, hz⟩)
      · obtain ⟨rfl, rfl⟩ := Prod.mk.inj hr
        subst hts
        dsimp only
        rw [if_pos (by decide)]
        refine Code.Wp.pure (.failed (by decide) (.refl t) ?_ (.inl ⟨rfl, ?_⟩))
        · simp [Fs.SubLeaks, he, hfree]
        · simp [Fs.subNeed, he, hfree]
      · dsimp only at hret hpos htake hz ⊢
        by_cases hr : ret = 0
        · rw [if_neg (not_not.mpr hr)]
          have hl : [e] = if e = entp then [] else [e] := (if_neg (by omega)).symm
          have hc : s.code 0 = 0 := by rw [← hret, hr]
          refine (addEntry_wp htake hl).mono ?_ ?_
          · rintro _ hn ⟨hs, -, -⟩
            exact hn ⟨hs, htake.inUse hs (by simp), hoff⟩
          · rintro r u (⟨hne, hu, hleak, hshort⟩ | ⟨hb, hzb, hc₁, hlt⟩)
            · refine .failed hne hu ?_ ?_
              · rw [hleak]
                simp only [Fs.SubLeaks, he, if_true, hc, ne_eq, not_true_eq_false,
                  false_or, true_and]
                constructor
                · intro h
                  exact ⟨hfree, h⟩
                · intro h
                  exact h.2
              · simpa [Fs.subNeed, he] using hshort
            · have hfe : t.freemap e = false := htake.taken (by simp)
              exact .created rfl he (by omega) (htake.trans hb) (hb.zeroed hfe (hz hr)) hzb hc hc₁
        · rw [if_pos hr]
          have hc : s.code 0 ≠ 0 := by
            rw [← hret]
            exact hr
          refine Code.Wp.pure (.failed hr htake ?_ (.inr ⟨0, hc⟩))
          simp [Fs.SubLeaks, he, hfree, hc]
  · rw [if_pos he]
    refine Code.Wp.bind (Q := fun r t => t = s.later 1 ∧ (r.1 = s.code 0 ∧ s.code 0 ≠ 0 ∨
      s.code 0 = 0 ∧ r.1 = 0 ∧ getU32 r.2 = entry (s.disk entp) index)) ?_ ?_
    · apply sfsRbuf_wp
      · rintro _ hn ⟨-, hu, -⟩
        refine hn ⟨by omega, hoff, (hu he).1, (hu he).2.1⟩
      · intro hc
        exact ⟨rfl, .inl ⟨rfl, hc⟩⟩
      · intro hc _
        refine ⟨rfl, .inr ⟨hc, rfl, ?_⟩⟩
        exact getU32_congr fun k hk => memcpy_start hk
    rintro ⟨ret, buf⟩ t ⟨rfl, ⟨hret, hc⟩ | ⟨hc, hret, hb⟩⟩
    · dsimp only at hret ⊢
      rw [if_pos (by rw [hret]; exact hc)]
      refine Code.Wp.pure (.failed (by rw [hret]; exact hc) ((Takes.refl s).later (m := 1)) ?_
        (.inr ⟨0, hc⟩))
      simp [Fs.SubLeaks, he, hc]
    · dsimp only at hret hb ⊢
      rw [if_neg (not_not.mpr hret), hb]
      by_cases hx : entry (s.disk entp) index ≠ 0 ∨ create = false
      · rw [if_pos hx]
        exact Code.Wp.pure (.found he hx)
      · rw [if_neg hx]
        have hx₀ : entry (s.disk entp) index = 0 := by
          by_contra hn
          exact hx (.inl hn)
        have hcr : create = true := by simpa using fun hn => hx (.inr hn)
        have htake : Takes s 1 [] (s.later 1) := (Takes.refl s).later (m := 1)
        refine (addEntry_wp htake (if_pos rfl).symm).mono ?_ ?_
        · rintro _ hn ⟨hs, hu, -⟩
          exact hn ⟨hs, hu he, hoff⟩
        · rintro r u (⟨hne, hu, hleak, hshort⟩ | ⟨hb, hzb, hc₁, hlt⟩)
          · refine .failed hne hu ?_ ?_
            · rw [hleak]
              simp [Fs.SubLeaks, he, hcr, hc, hx₀]
            · simpa [Fs.subNeed, he, hcr, hx₀] using hshort
          · exact .entered hcr he hx₀ (htake.trans hb) hzb hc₁

end Sub

/-- The number of blocks that the map of an inode reaches. -/
def maxBlocks : ℕ := sfsNdirect + sfsBlkNentry

namespace Fs

variable (s : Fs) (sin index b : ℕ)

/-- The block at an index of the map of an inode, or 0. -/
def slot : ℕ :=
  if index < sfsNdirect then (s.din sin).direct index
  else if (s.din sin).indirect = 0 then 0
  else entry (s.disk (s.din sin).indirect) (index - sfsNdirect)

def setDirect : Fs := s.setSin sin fun x =>
  { x with din := { x.din with direct := Function.update x.din.direct index b }, dirty := true }

def setIndirect : Fs :=
    s.setSin sin fun x => { x with din := { x.din with indirect := b }, dirty := true }

def incBlocks : Fs :=
    s.setSin sin fun x => { x with din := { x.din with blocks := x.din.blocks + 1 } }

/-- The number of blocks that `sfs_bmap_get_nolock` takes. -/
def getNeed (create : Bool) : ℕ :=
  if index < sfsNdirect then
    if (s.din sin).direct index = 0 ∧ create = true then 1 else 0
  else s.subNeed (s.din sin).indirect (index - sfsNdirect) create

/-- The blocks that the map of the inode holds at the index are in use. -/
structure Mapped : Prop where
  sound : s.Sound
  indirect : (s.din sin).indirect ≠ 0 → s.InUse (s.din sin).indirect
  slot : s.slot sin index ≠ 0 → s.InUse (s.slot sin index)

end Fs

section Get

/-- A new block `b` is entered in the map of an inode: in the inode, in its index block, or in a new
index block. -/
inductive Adds (s : Fs) (sin index b : ℕ) : Fs → Prop
  | direct {u : Fs} : index < sfsNdirect → Takes s 1 [b] u → Zeroed u b →
      Adds s sin index b (u.setDirect sin index b)
  | entry {u : Fs} : sfsNdirect ≤ index → (s.din sin).indirect ≠ 0 → Takes s 2 [b] u → Zeroed u b →
      Adds s sin index b
        ((u.patch (s.din sin).indirect ((index - sfsNdirect) * 4) (putUint b) 0 4).later 2)
  | index {e : ℕ} {u : Fs} : sfsNdirect ≤ index → (s.din sin).indirect = 0 → e ≠ 0 →
      Takes s 2 [e, b] u → Zeroed u e → Zeroed u b →
      Adds s sin index b
        (((u.patch e ((index - sfsNdirect) * 4) (putUint b) 0 4).later 2).setIndirect sin e)

/-- The outcomes of `sfs_bmap_get_nolock`. -/
inductive Got (s : Fs) (sin index : ℕ) (create : Bool) : ℤ × ℕ → Fs → Prop
  | failed {ret : ℤ} {m : ℕ} {l : List ℕ} {t : Fs} : ret ≠ 0 → Takes s m l t →
      (l ≠ [] ↔ s.GetLeaks sin index create) → s.Short (s.getNeed sin index create) ret →
      Got s sin index create (ret, 0) t
  | found {n : ℕ} : n ≤ 1 → s.slot sin index ≠ 0 ∨ create = false →
      Got s sin index create (0, s.slot sin index) (s.later n)
  | added {b : ℕ} {t : Fs} : create = true → s.slot sin index = 0 → ¬ s.GetLeaks sin index create →
      Adds s sin index b t → Got s sin index create (0, b) t

variable {s t u : Fs} {sin index b n m : ℕ} {create : Bool} {l : List ℕ}

theorem bmapOut_wp : Code.Wp (bmapOut b) s (fun _ => ¬ (s.Sound ∧ (b ≠ 0 → s.InUse b)))
    fun r t => r = (0, b) ∧ s = t := by
  unfold bmapOut
  split
  · exact Code.Wp.pure ⟨rfl, rfl⟩
  · rename_i hb
    refine Code.Wp.bind (Q := fun _ t => s = t) ?_ ?_
    · exact assertInuse_wp (fun _ hn hs => hn ⟨hs.1, hs.2 hb⟩) fun _ => rfl
    · rintro - t rfl
      exact Code.Wp.pure ⟨rfl, rfl⟩

theorem Takes.din (h : Takes s n l t) : t.din sin = s.din sin := by
  unfold Fs.din
  rw [h.sin]

theorem Adds.inUse (h : Adds s sin index b t) (hs : s.Sound) : t.Sound ∧ t.InUse b := by
  have key : ∀ {u : Fs} {m : ℕ} {l : List ℕ}, Takes s m l u → b ∈ l → u.Sound ∧ u.InUse b :=
    fun h hb => ⟨h.sound hs, h.inUse hs hb⟩
  cases h with
  | direct _ h _ =>
    obtain ⟨h₁, h₂⟩ := key h (by simp)
    exact ⟨⟨h₁.bits, h₁.free, h₁.count⟩, h₂⟩
  | entry _ _ h _ =>
    obtain ⟨h₁, h₂⟩ := key h (by simp)
    exact ⟨⟨h₁.bits, h₁.free, h₁.count⟩, h₂⟩
  | index _ _ _ h _ _ =>
    obtain ⟨h₁, h₂⟩ := key h (by simp)
    exact ⟨⟨h₁.bits, h₁.free, h₁.count⟩, h₂⟩

theorem bmapOut_adds {Q : ℤ × ℕ → Fs → Prop} {E : Panic → Prop} (h : Adds s sin index b t)
    (hE : ∀ e, ¬ s.Sound → E e) (hQ : Q (0, b) t) : Code.Wp (bmapOut b) t E Q := by
  refine bmapOut_wp.mono ?_ ?_
  · intro e hn
    exact hE e fun hs => hn ⟨(h.inUse hs).1, fun _ => (h.inUse hs).2⟩
  · rintro r u ⟨rfl, rfl⟩
    exact hQ

theorem sfsBmapGetNolock_wp : Code.Wp (sfsBmapGetNolock sin index create) s
    (fun e => e = .outOfRange ∧ maxBlocks ≤ index ∨ index < maxBlocks ∧ ¬ s.Mapped sin index)
    (fun r t => index < maxBlocks ∧ Got s sin index create r t) := by
  unfold sfsBmapGetNolock
  apply Code.Wp.bind_get
  dsimp only
  by_cases hd : index < sfsNdirect
  · rw [if_pos hd]
    have hm : index < maxBlocks := by
      unfold maxBlocks
      omega
    have hslot : s.slot sin index = (s.din sin).direct index := by
      rw [Fs.slot, if_pos hd]
    by_cases hc : (s.din sin).direct index = 0 ∧ create = true
    · rw [if_pos hc]
      refine Code.Wp.bind (sfsBlockAlloc_wp.mono (fun e hn => .inr ⟨hm, fun hs => hn hs.sound⟩)
        fun _ _ hq => hq) ?_
      rintro ⟨ret, b⟩ t (⟨hr, hts, hfree⟩ | ⟨hfree, hret, -, htake, hz⟩)
      · obtain ⟨rfl, rfl⟩ := Prod.mk.inj hr
        subst hts
        dsimp only
        rw [if_pos (by decide)]
        refine Code.Wp.pure ⟨hm, .failed (by decide) (.refl t) ?_ (.inl ⟨rfl, ?_⟩)⟩
        · simp [Fs.GetLeaks, Fs.AllocLeaks, hd, hfree]
        · simp [Fs.getNeed, hd, hc, hfree]
      · dsimp only at hret htake hz ⊢
        by_cases hr : ret = 0
        · rw [if_neg (not_not.mpr hr)]
          have hadds : Adds s sin index b (t.setDirect sin index b) := .direct hd htake (hz hr)
          refine Code.Wp.bind_modify (bmapOut_adds hadds (fun e hn =>
            .inr ⟨hm, fun hs => hn hs.sound⟩) ?_)
          refine ⟨hm, .added hc.2 (hslot.trans hc.1) ?_ hadds⟩
          simp [Fs.GetLeaks, Fs.AllocLeaks, hd, ← hret, hr]
        · rw [if_pos hr]
          rw [hret] at hr
          refine Code.Wp.pure ⟨hm, .failed (hret ▸ hr) htake ?_ (.inr ⟨0, hr⟩)⟩
          simp [Fs.GetLeaks, Fs.AllocLeaks, hd, hc, hfree, hr]
    · rw [if_neg hc]
      refine bmapOut_wp.mono ?_ ?_
      · intro e hn
        refine .inr ⟨hm, fun hs => hn ⟨hs.sound, ?_⟩⟩
        rw [← hslot]
        exact hs.slot
      · rintro r t ⟨rfl, rfl⟩
        rw [← hslot]
        refine ⟨hm, .found (n := 0) (by omega) ?_⟩
        rw [hslot]
        cases create with
        | false => exact .inr rfl
        | true => exact .inl fun h => hc ⟨h, rfl⟩
  · rw [if_neg hd]
    by_cases hi : index - sfsNdirect < sfsBlkNentry
    · rw [if_pos hi]
      have hm : index < maxBlocks := by
        unfold maxBlocks
        omega
      have hneed : s.getNeed sin index create =
          s.subNeed (s.din sin).indirect (index - sfsNdirect) create := if_neg hd
      have hleaks : s.GetLeaks sin index create ↔
          s.SubLeaks (s.din sin).indirect (index - sfsNdirect) create := by
        rw [Fs.GetLeaks, if_neg hd]
      refine Code.Wp.bind (sfsBmapGetSubNolock_wp.mono ?_ fun _ _ hq => hq) ?_
      · intro e hn
        exact .inr ⟨hm, fun hs => hn ⟨hs.sound, hs.indirect, hi⟩⟩
      · rintro r t (⟨hne, htake, hleak, hshort⟩ | ⟨he, hc⟩ | ⟨he, hc⟩ | ⟨hc, he, hx,
          htake, hz, hc₁⟩ |
          ⟨hc, he, hpos, htake, hze, hz, hc₀, hc₁⟩)
        · dsimp only
          rw [if_pos hne]
          exact Code.Wp.pure ⟨hm, .failed hne htake (hleak.trans hleaks.symm) (by rwa [hneed])⟩
        · dsimp only
          rw [if_neg (by simp), if_neg (by simp [he])]
          have hslot : s.slot sin index = 0 := by simp [Fs.slot, hd, he]
          refine bmapOut_wp.mono (fun e hn => .inr ⟨hm, fun hs => hn ⟨hs.sound, by simp⟩⟩) ?_
          rintro r t ⟨rfl, rfl⟩
          rw [← hslot]
          exact ⟨hm, .found (n := 0) (by omega) (.inr hc)⟩
        · dsimp only
          rw [if_neg (by simp), if_neg (by simp)]
          have hslot : s.slot sin index =
              Sfs.entry (s.disk (s.din sin).indirect) (index - sfsNdirect) := by
            simp [Fs.slot, hd, he]
          rw [← hslot] at hc ⊢
          refine bmapOut_wp.mono ?_ ?_
          · intro e hn
            refine .inr ⟨hm, fun hs => hn ⟨⟨hs.sound.bits, hs.sound.free, hs.sound.count⟩, hs.slot⟩⟩
          · rintro r t ⟨rfl, rfl⟩
            exact ⟨hm, .found (n := 1) (by omega) hc⟩
        · dsimp only
          rw [if_neg (by simp), if_neg (by simp)]
          have hadds : Adds s sin index _ _ := .entry (Nat.not_lt.mp hd) he htake hz
          refine bmapOut_adds hadds (fun e hn => .inr ⟨hm, fun hs => hn hs.sound⟩) ?_
          refine ⟨hm, .added hc (by simp [Fs.slot, hd, he, hx]) ?_ hadds⟩
          rw [hleaks]
          simp [Fs.SubLeaks, he, hc₁]
        · dsimp only
          rw [if_neg (by simp), if_pos (by rw [he]; exact hpos)]
          have hadds : Adds s sin index _ _ := .index (Nat.not_lt.mp hd) he hpos htake hze hz
          refine Code.Wp.bind_assert (fun _ => ?_) fun hn => absurd ?_ hn
          · refine Code.Wp.bind_modify (bmapOut_adds hadds (fun e hn =>
              .inr ⟨hm, fun hs => hn hs.sound⟩) ?_)
            refine ⟨hm, .added hc (by simp [Fs.slot, hd, he]) ?_ hadds⟩
            rw [hleaks]
            simp [Fs.SubLeaks, he, hc₀, hc₁]
          · exact (congrArg DiskInode.indirect htake.din).trans he
    · rw [if_neg hi]
      refine .of_error rfl (.inl ⟨rfl, ?_⟩)
      unfold maxBlocks
      omega

end Get

section Load

/-- The number of blocks that `sfs_bmap_load_nolock` takes. -/
def Fs.loadNeed (s : Fs) (sin index : ℕ) : ℕ :=
  s.getNeed sin index (decide (index = (s.din sin).blocks))

/-- The outcomes of `sfs_bmap_load_nolock`. -/
inductive Loaded (s : Fs) (sin index : ℕ) : ℤ × ℕ → Fs → Prop
  | failed {ret : ℤ} {m : ℕ} {l : List ℕ} {t : Fs} : ret ≠ 0 → Takes s m l t →
      (l ≠ [] ↔ s.LoadLeaks sin index) → s.Short (s.loadNeed sin index) ret →
      Loaded s sin index (ret, 0) t
  | found {n : ℕ} : n ≤ 1 → index < (s.din sin).blocks →
      Loaded s sin index (0, s.slot sin index) (s.later n)
  | kept {n : ℕ} : n ≤ 1 → index = (s.din sin).blocks → s.slot sin index ≠ 0 →
      Loaded s sin index (0, s.slot sin index) ((s.later n).incBlocks sin)
  | added {b : ℕ} {t : Fs} : index = (s.din sin).blocks → s.slot sin index = 0 →
      ¬ s.LoadLeaks sin index → Adds s sin index b t →
      Loaded s sin index (0, b) (t.incBlocks sin)

variable {s t : Fs} {sin index b : ℕ}

theorem sfsBmapLoadNolock_wp : Code.Wp (sfsBmapLoadNolock sin index) s
    (fun e => e = .pastBlocks ∧ (s.din sin).blocks < index ∨
      e = .outOfRange ∧ maxBlocks ≤ index ∧ index ≤ (s.din sin).blocks ∨
      index < maxBlocks ∧
        ¬ (s.Mapped sin index ∧ (index < (s.din sin).blocks → s.slot sin index ≠ 0)))
    (fun r t => index < maxBlocks ∧ index ≤ (s.din sin).blocks ∧ Loaded s sin index r t) := by
  unfold sfsBmapLoadNolock
  refine Code.Wp.bind_assert (fun hle => ?_) fun hlt => .inl ⟨rfl, by omega⟩
  apply Code.Wp.bind_get
  dsimp only
  refine Code.Wp.bind (sfsBmapGetNolock_wp.mono ?_ fun _ _ hq => hq) ?_
  · rintro e (⟨he, hm⟩ | ⟨hm, hn⟩)
    · exact .inr (.inl ⟨he, hm, hle⟩)
    · exact .inr (.inr ⟨hm, fun h => hn h.1⟩)
  · rintro r t ⟨hm, ⟨hne, htake, hleak, hshort⟩ | ⟨hn, hc⟩ | ⟨hc, hslot, hleak, hadds⟩⟩
    · dsimp only
      rw [if_pos hne]
      exact Code.Wp.pure ⟨hm, hle, .failed hne htake hleak hshort⟩
    · dsimp only
      rw [if_neg (by simp)]
      rename_i n
      refine Code.Wp.bind (Q := fun _ t => s.slot sin index ≠ 0 ∧ s.later n = t) ?_ ?_
      · apply assertInuse_wp
        · intro e hp
          refine .inr (.inr ⟨hm, fun h => hp ?_⟩)
          have hne : s.slot sin index ≠ 0 := by
            rcases hc with hc | hc
            · exact hc
            · exact h.2 (Nat.lt_of_le_of_ne hle (by simpa using hc))
          exact ⟨⟨h.1.sound.bits, h.1.sound.free, h.1.sound.count⟩, h.1.slot hne⟩
        · intro h
          exact ⟨Nat.pos_iff_ne_zero.mp h.1, rfl⟩
      rintro - t ⟨hne, rfl⟩
      by_cases hb : index = (s.din sin).blocks
      · rw [if_pos (by simpa using hb)]
        exact Code.Wp.bind_modify (Code.Wp.pure ⟨hm, hle, .kept hn hb hne⟩)
      · rw [if_neg (by simpa using hb)]
        exact Code.Wp.pure ⟨hm, hle, .found hn (Nat.lt_of_le_of_ne hle hb)⟩
    · dsimp only
      rw [if_neg (by simp)]
      refine Code.Wp.bind (Q := fun _ u => t = u) ?_ ?_
      · apply assertInuse_wp
        · intro e hp
          exact .inr (.inr ⟨hm, fun h => hp (hadds.inUse h.1.sound)⟩)
        · intro _
          rfl
      rintro - u rfl
      rw [if_pos hc]
      exact Code.Wp.bind_modify (Code.Wp.pure ⟨hm, hle,
        .added (by simpa using hc) hslot hleak hadds⟩)

end Load

end UCore.Sfs

import UCore.Sfs.Changes
import UCore.Sfs.Image

/-! # Allocation under device errors

A function that allocates blocks and returns an error leaves the freemap, the number of free blocks
and the inodes as they were, unless a new block could not be cleared.
-/

namespace UCore.Sfs

open Library

variable {s t : Fs} {n : ℕ} {l : List ℕ}

/-- The freemap, the number of free blocks and the inodes are those of `s`. -/
structure Untouched (s t : Fs) : Prop where
  freemap : t.freemap = s.freemap
  unused : t.unusedBlocks = s.unusedBlocks
  din : ∀ ino, t.din ino = s.din ino

theorem Takes.untouched_iff (h : Takes s n l t) : Untouched s t ↔ l = [] := by
  constructor
  · intro hu
    have := h.unused
    rw [hu.unused] at this
    exact List.length_eq_zero_iff.mp (by omega)
  · rintro rfl
    refine ⟨?_, h.unused, fun ino => h.din⟩
    funext b
    exact Bool.eq_iff_iff.mpr (by simpa using h.freemap b)

/-- The outcome of a call: an error that lost a block exactly in the case `leaks`, or a return in
another case. -/
def Outcome (s : Fs) (leaks : Prop) (ret : ℤ) (t : Fs) : Prop :=
  (∃ n l, Takes s n l t ∧ (l ≠ [] ↔ leaks) ∧ ret ≠ 0) ∨ ret = 0 ∧ ¬ leaks

theorem Outcome.atomic_iff {leaks : Prop} {ret : ℤ} (h : Outcome s leaks ret t) :
    (ret ≠ 0 → Untouched s t) ↔ ¬ leaks := by
  rcases h with ⟨n, l, htake, hl, hret⟩ | ⟨rfl, hl⟩
  · rw [← hl, not_not, htake.untouched_iff]
    exact ⟨fun h => h hret, fun h _ => h⟩
  · simp [hl]

section Calls

variable {entp index sin : ℕ} {create : Bool}

theorem sfsBlockAlloc_outcome : Code.Wp sfsBlockAlloc s (fun _ => True) fun r t =>
    Outcome s s.AllocLeaks r.1 t := by
  refine sfsBlockAlloc_wp.mono (fun _ _ => trivial) ?_
  rintro ⟨ret, b⟩ t (⟨hr, rfl, hfree⟩ | ⟨hfree, hret, -, htake, -⟩)
  · obtain ⟨rfl, rfl⟩ := Prod.mk.inj hr
    refine .inl ⟨0, [], .refl t, ?_, by decide⟩
    simp [Fs.AllocLeaks, hfree]
  · dsimp only at hret htake ⊢
    by_cases hr : ret = 0
    · refine .inr ⟨hr, fun h => h.2 ?_⟩
      rw [← hret, hr]
    · refine .inl ⟨1, [b], htake, ?_, hr⟩
      simp [Fs.AllocLeaks, hfree, ← hret, hr]

theorem sfsBmapGetSubNolock_outcome : Code.Wp (sfsBmapGetSubNolock entp index create) s
    (fun _ => True) fun r t => Outcome s (s.SubLeaks entp index create) r.1 t := by
  refine sfsBmapGetSubNolock_wp.mono (fun _ _ => trivial) ?_
  rintro r t (⟨hne, htake, hleak, -⟩ | ⟨he, hc⟩ | ⟨he, hc⟩ | ⟨hc, he, hx, -, -, hc₁⟩ |
    ⟨hc, he, -, -, -, -, hc₀, hc₁⟩)
  · exact .inl ⟨_, _, htake, hleak, hne⟩
  · exact .inr ⟨rfl, fun h => by simp [hc] at h; exact absurd h.1 (by decide)⟩
  · refine .inr ⟨rfl, fun h => ?_⟩
    obtain ⟨h₁, h₂⟩ := h
    rw [if_neg he] at h₂
    rcases hc with hc | hc
    · exact hc h₂.2.1
    · simp [hc] at h₁
  · refine .inr ⟨rfl, fun h => ?_⟩
    have h₂ := h.2
    rw [if_neg he] at h₂
    exact h₂.2.2.2 hc₁
  · refine .inr ⟨rfl, fun h => ?_⟩
    have h₂ := h.2
    rw [if_pos he] at h₂
    exact h₂.2.elim (fun h => h hc₀) fun h => h.2 hc₁

theorem not_getLeaks (h : s.slot sin index ≠ 0 ∨ create = false) :
    ¬ s.GetLeaks sin index create := by
  intro hl
  unfold Fs.GetLeaks at hl
  split at hl
  · rename_i hd
    rw [Fs.slot, if_pos hd] at h
    exact h.elim (fun h => h hl.1) fun h => by simp [h] at hl
  · rename_i hd
    obtain ⟨hc, hl⟩ := hl
    rw [Fs.slot, if_neg hd] at h
    split at hl
    · rename_i he
      simp [he, hc] at h
    · rename_i he
      simp [he, hc, hl.2.1] at h

theorem sfsBmapGetNolock_outcome : Code.Wp (sfsBmapGetNolock sin index create) s (fun _ => True)
    fun r t => Outcome s (s.GetLeaks sin index create) r.1 t := by
  refine sfsBmapGetNolock_wp.mono (fun _ _ => trivial) ?_
  rintro r t ⟨-, ⟨hne, htake, hleak, -⟩ | ⟨-, hc⟩ | ⟨-, -, hleak, -⟩⟩
  · exact .inl ⟨_, _, htake, hleak, hne⟩
  · exact .inr ⟨rfl, not_getLeaks hc⟩
  · exact .inr ⟨rfl, hleak⟩

theorem sfsBmapLoadNolock_outcome : Code.Wp (sfsBmapLoadNolock sin index) s (fun _ => True)
    fun r t => Outcome s (s.LoadLeaks sin index) r.1 t := by
  refine sfsBmapLoadNolock_wp.mono (fun _ _ => trivial) ?_
  rintro r t ⟨-, -, ⟨hne, htake, hleak, -⟩ | ⟨-, hlt⟩ | ⟨-, -, hslot⟩ | ⟨-, -, hleak, -⟩⟩
  · exact .inl ⟨_, _, htake, hleak, hne⟩
  · exact .inr ⟨rfl, not_getLeaks (.inr (decide_eq_false (by omega)))⟩
  · exact .inr ⟨rfl, not_getLeaks (.inl hslot)⟩
  · exact .inr ⟨rfl, hleak⟩

/-- Whenever one of the four functions returns, the error leaves everything as it was exactly if the
call does not fail to clear a block that it took. -/
theorem allocations_atomic_iff (s : Fs) :
    Code.Wp sfsBlockAlloc s (fun _ => True)
      (fun r t => (r.1 ≠ 0 → Untouched s t) ↔ ¬ s.AllocLeaks) ∧
    (∀ entp index create, Code.Wp (sfsBmapGetSubNolock entp index create) s (fun _ => True)
      fun r t => (r.1 ≠ 0 → Untouched s t) ↔ ¬ s.SubLeaks entp index create) ∧
    (∀ sin index create, Code.Wp (sfsBmapGetNolock sin index create) s (fun _ => True)
      fun r t => (r.1 ≠ 0 → Untouched s t) ↔ ¬ s.GetLeaks sin index create) ∧
    ∀ sin index, Code.Wp (sfsBmapLoadNolock sin index) s (fun _ => True)
      fun r t => (r.1 ≠ 0 → Untouched s t) ↔ ¬ s.LoadLeaks sin index := by
  refine ⟨?_, ?_, ?_, ?_⟩
  · exact sfsBlockAlloc_outcome.mono (fun _ h => h) fun _ _ h => h.atomic_iff
  · intro entp index create
    exact sfsBmapGetSubNolock_outcome.mono (fun _ h => h) fun _ _ h => h.atomic_iff
  · intro sin index create
    exact sfsBmapGetNolock_outcome.mono (fun _ h => h) fun _ _ h => h.atomic_iff
  · intro sin index
    exact sfsBmapLoadNolock_outcome.mono (fun _ h => h) fun _ _ h => h.atomic_iff

/-- An empty file, two free blocks, and a device that fails once: the first block of the file is
taken, an error is returned, and the block belongs to nothing. -/
theorem load_leaks_block : Consistent (image 9 0 [-16]) imageInodes ∧
    ∃ t, sfsBmapLoadNolock 5 0 (image 9 0 [-16]) = .ok ((-16, 0), t) ∧
      t.freemap 7 = false ∧ (image 9 0 [-16]).freemap 7 = true ∧ t.unusedBlocks = 1 ∧
      (image 9 0 [-16]).unusedBlocks = 2 ∧ (t.din 5).direct 0 = 0 ∧
        ¬ Untouched (image 9 0 [-16]) t := by
  refine ⟨⟨_, image_wf (by decide) (by decide) (by decide)⟩, _, rfl, rfl, rfl, rfl, rfl, rfl, ?_⟩
  intro h
  exact absurd h.unused (by decide)

end Calls

/-! ## Appending and removing blocks

On a consistent volume `sfs_bmap_load_nolock` finds a block of the file or appends one, and
`sfs_bmap_truncate_nolock` removes the last one.
-/

section Load

variable {s t : Fs} {O O' : ℕ → Owner} {I : Set ℕ} {ino i b n : ℕ}

/-- The outcomes of `sfs_bmap_load_nolock` on a consistent volume. -/
inductive Load (I : Set ℕ) (ino : ℕ) (s : Fs) (O : ℕ → Owner) (i : ℕ) : ℤ × ℕ → Fs → Prop
  | failed {ret : ℤ} {t : Fs} {O' : ℕ → Owner} : ret ≠ 0 → Works I ino s O t O' → t.sin = s.sin →
      t.file ino = s.file ino → i ≤ (s.din ino).blocks → i < maxBlocks →
      (s.Reliable ∨ i < (s.din ino).blocks →
        t.freemap = s.freemap ∧ t.unusedBlocks = s.unusedBlocks) →
      (s.Reliable → ret = -eNoMem ∧ i = (s.din ino).blocks ∧ s.unusedBlocks < s.room ino 1) →
      Load I ino s O i (ret, 0) t
  | found {n : ℕ} : i < (s.din ino).blocks → Load I ino s O i (0, s.slot ino i) (s.later n)
  | appended {b : ℕ} {t : Fs} {O' : ℕ → Owner} : i = (s.din ino).blocks → i < maxBlocks →
      Appends I ino s O b t O' → Load I ino s O i (0, b) t

theorem Fs.LoadLeaks.not_reliable (h : s.LoadLeaks ino i) : ¬ s.Reliable := by
  intro hr
  unfold Fs.LoadLeaks Fs.GetLeaks at h
  split at h
  · exact h.2.2.2 hr.code
  · have h' := h.2
    split at h'
    · exact h'.2.elim (fun h => h hr.code) fun h => h.2 hr.code
    · exact h'.2.2.2 hr.code

theorem loadNeed_lt (hi : i < (s.din ino).blocks) : s.loadNeed ino i = 0 := by
  have hc : decide (i = (s.din ino).blocks) = false := decide_eq_false (by omega)
  unfold Fs.loadNeed Fs.getNeed Fs.subNeed
  rw [hc]
  simp

theorem Wf.loadNeed_eq (h : Wf s O I) (hino : ino ∈ I) (hi : i = (s.din ino).blocks)
    (hm : i < maxBlocks) : s.loadNeed ino i = s.room ino 1 := by
  have hc : decide (i = (s.din ino).blocks) = true := decide_eq_true hi
  have he := h.empty ino hino i (by omega) hm
  unfold Fs.loadNeed Fs.getNeed Fs.room
  unfold Fs.slot at he
  rw [hc]
  split at he
  · rename_i hd
    rw [if_pos hd, if_pos ⟨he, rfl⟩, if_neg (by omega)]
  · rename_i hd
    rw [if_neg hd]
    unfold Fs.subNeed
    rw [if_neg (by simp)]
    split at he
    · rename_i h₀
      rw [if_pos h₀, if_pos ⟨h₀, by omega⟩]
    · rename_i h₀
      rw [if_neg h₀, if_pos he, if_neg fun h => h₀ h.1]

theorem Wf.load_wp (h : Wf s O I) (hino : ino ∈ I) : Code.Wp (sfsBmapLoadNolock ino i) s
    (fun e => e = .pastBlocks ∧ (s.din ino).blocks < i ∨
      e = .outOfRange ∧ i = (s.din ino).blocks ∧ maxBlocks ≤ i)
    (Load I ino s O i) := by
  refine sfsBmapLoadNolock_wp.mono ?_ ?_
  · rintro e (⟨he, hlt⟩ | ⟨he, hm, hle⟩ | ⟨hm, hn⟩)
    · exact .inl ⟨he, hlt⟩
    · have := h.reach ino hino
      exact .inr ⟨he, by omega, hm⟩
    · exact absurd ⟨h.mapped hino hm, h.slot_ne_zero hino⟩ hn
  rintro r t ⟨hm, hle, ⟨hne, htake, hleak, hshort⟩ | ⟨-, hlt⟩ | ⟨-, hi, hs⟩ | ⟨hi, -, -, hadds⟩⟩
  · refine .failed hne (h.works_takes htake) htake.sin (h.takes_file htake hino) hle hm ?_ ?_
    · intro hr
      have hl := not_not.mp (mt hleak.mp fun hl => hr.elim (fun hr => hl.not_reliable hr)
        fun hi => not_getLeaks (.inr (decide_eq_false (by omega))) hl)
      have hu := htake.untouched_iff.mpr hl
      exact ⟨hu.freemap, hu.unused⟩
    · intro hr
      rcases hshort with ⟨hret, hlt⟩ | ⟨k, hk⟩
      · have hi : i = (s.din ino).blocks := by
          rcases Nat.eq_or_lt_of_le hle with hi | hi
          · exact hi
          · rw [loadNeed_lt hi] at hlt
            omega
        rw [h.loadNeed_eq hino hi hm, h.freeCount] at hlt
        exact ⟨hret, hi, hlt⟩
      · exact absurd hr.code hk
  · exact .found hlt
  · exact absurd (h.empty ino hino i (by omega) hm) hs
  · obtain ⟨O', ha⟩ := hadds.appends h hino hi hm
    exact .appended hi hm ha

end Load

section Truncate

variable {s t : Fs} {O O' : ℕ → Owner} {I : Set ℕ} {ino b n : ℕ}

/-- The last block of the inode was removed. -/
structure Shrinks (I : Set ℕ) (ino : ℕ) (s : Fs) (O : ℕ → Owner) (t : Fs)
    (O' : ℕ → Owner) : Prop where
  works : Works I ino s O t O'
  file : t.file ino = (s.file ino).cut ((s.din ino).blocks - 1)
  unused : t.unusedBlocks = s.unusedBlocks + 1
  indirect : (t.din ino).indirect = (s.din ino).indirect
  dirty : (t.sin ino).dirty = true

/-- The block is given back, its place in the map is 0, and the inode has one block less. -/
theorem Wf.shrinks (h : Wf s O I) (hino : ino ∈ I) (hpos : 0 < (s.din ino).blocks)
    (hb : b = s.slot ino ((s.din ino).blocks - 1))
    {u : Fs} (hu : t = u.give b) (hsin : ∀ j ≠ ino, t.sin j = s.sin j)
    (hdin : (t.din ino).size = (s.din ino).size ∧ (t.din ino).type = (s.din ino).type ∧
      (t.din ino).blocks = (s.din ino).blocks - 1 ∧ (t.din ino).indirect = (s.din ino).indirect)
    (hdirty : (t.sin ino).dirty = true)
    (hslot : ∀ i < maxBlocks, t.slot ino i =
      if i = (s.din ino).blocks - 1 then 0 else s.slot ino i)
    (hdisk : ∀ x, O x ≠ .index ino → t.disk x = s.disk x)
    (htransfers : u.transfers = s.transfers.drop n) (hfree : u.freemap = s.freemap)
    (hunused : u.unusedBlocks = s.unusedBlocks) (hblocks : u.blocks = s.blocks)
    (hnbits : u.nbits = s.nbits) (hmagic : u.magic = s.magic) (hinfo : u.info = s.info)
    (hlist : u.inodeList = s.inodeList) : ∃ O', Shrinks I ino s O t O' := by
  have hO : O b = .data ino ((s.din ino).blocks - 1) := by
    rw [hb]
    exact h.data ino hino _ (by omega)
  have hother : ∀ {j}, j ≠ ino → t.din j = s.din j := fun hj => congrArg Sin.din (hsin _ hj)
  have hwf : Wf t (Function.update O b .free) I := by
    refine h.shrink hino hpos hb ?_ ?_ ?_ ?_ ?_ ?_
    · rw [hu, ← hfree]
      rfl
    · rw [hu, ← hunused]
      rfl
    · rw [hu, ← hblocks]
      rfl
    · rw [hu, ← hnbits]
      rfl
    · intro j
      by_cases hj : j = ino
      · rw [hj, if_pos rfl]
        exact ⟨hdin.2.2.1, hdin.2.2.2⟩
      · rw [hother hj, if_neg hj]
        exact ⟨rfl, rfl⟩
    · intro j hjI i hi
      by_cases hj : j = ino
      · subst hj
        rw [hslot i hi]
        simp
      · rw [if_neg fun hx => hj hx.1]
        refine slot_congr (by rw [hother hj]) (by rw [hother hj]) (fun hne x _ => ?_) hi
        rw [hdisk _ (by rw [h.index j hjI hne]; simpa using hj)]
  refine ⟨Function.update O b .free, ⟨hwf, hsin, hdin.2.1, fun _ => hdirty, ?_, ⟨n, ?_⟩, ?_,
    ?_, ?_, ?_, ?_, ?_⟩, ?_, ?_, hdin.2.2.2, hdirty⟩
  · rw [hu]
    exact .inl rfl
  · rw [hu, ← htransfers]
    rfl
  · rw [hu, ← hblocks]
    rfl
  · rw [hu, ← hnbits]
    rfl
  · rw [hu, ← hmagic]
    rfl
  · rw [hu, ← hinfo]
    rfl
  · rw [hu, ← hlist]
    rfl
  · intro x hx
    refine ⟨Function.update_of_ne ?_ .., hdisk x ?_⟩
    · rintro rfl
      rw [hO] at hx
      exact hx rfl
    · intro ho
      rw [ho] at hx
      exact hx rfl
  · refine File.ext hdin.1 hdin.2.2.1 (funext fun k => ?_)
    change t.byte ino k = if k < ((s.din ino).blocks - 1) * sfsBlksize then s.byte ino k else 0
    unfold Fs.byte
    rw [hdin.2.2.1]
    have hreach := h.reach ino hino
    by_cases hk : k / sfsBlksize < (s.din ino).blocks - 1
    · rw [if_pos hk, if_pos (div_lt_blocks.mp hk), if_pos (by omega), hslot _ (by omega),
        if_neg (by omega), hdisk]
      rw [h.data ino hino _ (by omega)]
      simp
    · rw [if_neg hk, if_neg fun hx => hk (div_lt_blocks.mpr hx)]
  · rw [hu, ← hunused]
    rfl

theorem Wf.shrinks_direct {i : ℕ} (h : Wf s O I) (hino : ino ∈ I) (hpos : 0 < (s.din ino).blocks)
    (hi : i = (s.din ino).blocks - 1) (hd : i < sfsNdirect) :
    ∃ O', Shrinks I ino s O (((s.give ((s.din ino).direct i)).setSin ino fun x =>
      { x with
        din := { x.din with direct := Function.update x.din.direct i 0 }
        dirty := true }).setSin
        ino fun x => { din := { x.din with blocks := x.din.blocks - 1 }, dirty := true }) O' := by
  have hb : (s.din ino).direct i = s.slot ino ((s.din ino).blocks - 1) := by
    rw [← hi, Fs.slot, if_pos hd]
  refine h.shrinks (n := 0) (u := (s.setSin ino fun x =>
      { x with
        din := { x.din with direct := Function.update x.din.direct i 0 }
        dirty := true }).setSin
        ino fun x => { din := { x.din with blocks := x.din.blocks - 1 }, dirty := true })
    hino hpos hb rfl ?_ ?_ ?_ ?_ (fun _ _ => rfl) rfl rfl rfl rfl rfl rfl rfl rfl
  · intro j hj
    rw [setSin_sin_ne hj, setSin_sin_ne hj]
    rfl
  · rw [setSin_din, setSin_sin]
    exact ⟨rfl, rfl, rfl, rfl⟩
  · rw [setSin_sin]
  · intro k _
    unfold Fs.slot
    rw [setSin_din, setSin_sin]
    change (if k < sfsNdirect then Function.update (s.din ino).direct i 0 k else _) = _
    by_cases hk : k = i
    · rw [if_pos (by omega), hk, Function.update_self, if_pos hi]
    · rw [if_neg (by omega : ¬ k = (s.din ino).blocks - 1), Function.update_of_ne hk]
      rfl

theorem Wf.shrinks_entry {i : ℕ} (h : Wf s O I) (hino : ino ∈ I) (hpos : 0 < (s.din ino).blocks)
    (hi : i = (s.din ino).blocks - 1) (hd : sfsNdirect ≤ i) :
    ∃ O', Shrinks I ino s O (((((s.later 1).patch (s.din ino).indirect ((i - sfsNdirect) * 4)
      (putUint 0) 0 4).later 2).give (entry (s.disk (s.din ino).indirect) (i - sfsNdirect))).setSin
        ino fun x => { din := { x.din with blocks := x.din.blocks - 1 }, dirty := true }) O' := by
  have h₀ := h.indirect_ne_zero hino (by omega)
  have hb : entry (s.disk (s.din ino).indirect) (i - sfsNdirect) =
      s.slot ino ((s.din ino).blocks - 1) := by
    rw [← hi, Fs.slot, if_neg (by omega), if_neg h₀]
  refine h.shrinks (n := 3) (u := (((s.later 1).patch (s.din ino).indirect ((i - sfsNdirect) * 4)
      (putUint 0) 0 4).later 2).setSin
        ino fun x => { din := { x.din with blocks := x.din.blocks - 1 }, dirty := true })
    hino hpos hb rfl ?_ ?_ ?_ ?_ ?_ ?_ rfl rfl rfl rfl rfl rfl rfl
  · intro j hj
    rw [setSin_sin_ne hj]
    rfl
  · rw [setSin_din]
    exact ⟨rfl, rfl, rfl, rfl⟩
  · rw [setSin_sin]
  · intro k _
    unfold Fs.slot
    rw [setSin_din]
    change (if k < sfsNdirect then (s.din ino).direct k else if (s.din ino).indirect = 0 then 0 else
      entry (Function.update s.disk _ _ (s.din ino).indirect) (k - sfsNdirect)) = _
    rw [Function.update_self, if_neg h₀]
    change (if k < sfsNdirect then _ else
      entry (memcpy (s.disk (s.din ino).indirect) _ _ _ _) (k - sfsNdirect)) = _
    rw [entry_memcpy (by norm_num)]
    by_cases hk : k < sfsNdirect
    · rw [if_pos hk, if_neg (by omega), if_pos hk]
    · rw [if_neg hk, if_neg hk, if_neg h₀]
      by_cases hx : k = i
      · rw [if_pos (by omega), if_pos (by omega)]
      · rw [if_neg (by omega), if_neg (by omega)]
  · intro x hx
    refine patch_disk ?_
    rintro rfl
    exact hx (h.index ino hino h₀)
  · change (s.transfers.drop 1).drop 2 = _
    rw [List.drop_drop]

theorem Wf.truncate_wp (h : Wf s O I) (hino : ino ∈ I) (hpos : 0 < (s.din ino).blocks) :
    Code.Wp (sfsBmapTruncateNolock ino) s (fun _ => False) fun ret t =>
      (ret ≠ 0 ∧ ¬ s.Reliable ∧ ∃ n, t = s.later n) ∨ ret = 0 ∧ ∃ O', Shrinks I ino s O t O' := by
  unfold sfsBmapTruncateNolock
  refine Code.Wp.bind_assert (fun _ => ?_) fun hn => hn (by omega)
  apply Code.Wp.bind_get
  generalize hi : (s.din ino).blocks - 1 = i
  have hreach := h.reach ino hino
  have hne := h.slot_ne_zero hino (by omega : i < (s.din ino).blocks)
  have hmap := h.mapped hino (by omega : i < maxBlocks)
  unfold maxBlocks at hreach
  unfold sfsBmapFreeNolock
  refine Code.Wp.bind (Q := fun ret t => (ret ≠ 0 ∧ ¬ s.Reliable ∧ ∃ n, t = s.later n) ∨
    ret = 0 ∧ ∃ O', Shrinks I ino s O (t.setSin ino fun x =>
      { din := { x.din with blocks := x.din.blocks - 1 }, dirty := true }) O') ?_ ?_
  · apply Code.Wp.bind_get
    dsimp only
    by_cases hd : i < sfsNdirect
    · have hslot : s.slot ino i = (s.din ino).direct i := if_pos hd
      rw [hslot] at hne
      rw [if_pos hd, if_pos hne]
      refine Code.Wp.bind (Q := fun _ t => t = s.give ((s.din ino).direct i)) ?_ ?_
      · apply sfsBlockFree_wp
        · intro _ hn
          have hs := hmap.slot
          rw [hslot] at hs
          exact hn ⟨h.sound, hs hne⟩
        · intro _
          rfl
      · rintro - t rfl
        refine Code.Wp.bind_modify (Code.Wp.pure (.inr ⟨rfl, ?_⟩))
        exact h.shrinks_direct hino hpos hi.symm hd
    · have h₀ := h.indirect_ne_zero hino (by omega)
      have hslot : s.slot ino i = entry (s.disk (s.din ino).indirect) (i - sfsNdirect) := by
        rw [Fs.slot, if_neg hd, if_neg h₀]
      have hu := hmap.indirect h₀
      rw [if_neg hd, if_pos (by omega), if_pos h₀]
      unfold sfsBmapFreeSubNolock
      refine Code.Wp.bind (Q := fun _ t => s = t) ?_ ?_
      · exact assertInuse_wp (fun _ hn => hn ⟨h.sound, hu⟩) fun _ => rfl
      rintro - t rfl
      refine Code.Wp.bind_assert (fun hlt => ?_) fun hn => hn (by omega)
      have hoff : (i - sfsNdirect) * 4 + 4 ≤ sfsBlksize := by
        unfold sfsBlkNentry at hlt
        unfold sfsBlksize
        omega
      dsimp only
      refine Code.Wp.bind (Q := fun r t => t = s.later 1 ∧ (r.1 = s.code 0 ∧ s.code 0 ≠ 0 ∨
        r.1 = 0 ∧ getU32 r.2 = s.slot ino i)) ?_ ?_
      · apply sfsRbuf_wp
        · intro _ hn
          exact hn ⟨by omega, hoff, hu.1, hu.2.1⟩
        · intro hc
          exact ⟨rfl, .inl ⟨rfl, hc⟩⟩
        · intro _ _
          refine ⟨rfl, .inr ⟨rfl, ?_⟩⟩
          rw [hslot]
          exact getU32_congr fun k hk => memcpy_start hk
      rintro ⟨ret, buf⟩ t ⟨rfl, ⟨hret, hc⟩ | ⟨hret, hbuf⟩⟩
      · dsimp only at hret ⊢
        rw [if_pos (by rw [hret]; exact hc)]
        exact Code.Wp.pure (.inl ⟨by rw [hret]; exact hc, fun hr => hc hr.code, 1, rfl⟩)
      dsimp only at hret hbuf ⊢
      rw [if_neg (not_not.mpr hret), hbuf, if_pos hne]
      refine Code.Wp.bind (Q := fun r t => (r.1 ≠ 0 ∧ ¬ s.Reliable ∧ ∃ n, t = s.later n) ∨ r.1 = 0 ∧
        t = ((s.later 1).patch (s.din ino).indirect ((i - sfsNdirect) * 4) (putUint 0) 0
          4).later 2) ?_ ?_
      · apply sfsWbuf_wp
        · intro _ hn
          exact hn ⟨by omega, hoff, hu.1, hu.2.1⟩
        · intro k _ hk
          exact .inl ⟨hk, fun hr => hk hr.later.code, 1 + (k + 1), later_later⟩
        · intro _ _
          exact .inr ⟨rfl, rfl⟩
      rintro ⟨ret, buf⟩ t (⟨hret, hr, ht⟩ | ⟨hret, rfl⟩)
      · dsimp only at hret ⊢
        rw [if_pos hret]
        exact Code.Wp.pure (.inl ⟨hret, hr, ht⟩)
      dsimp only at hret ⊢
      rw [if_neg (not_not.mpr hret)]
      refine Code.Wp.bind (Q := fun _ t => t = (((s.later 1).patch (s.din ino).indirect
        ((i - sfsNdirect) * 4) (putUint 0) 0 4).later 2).give (s.slot ino i)) ?_ ?_
      · apply sfsBlockFree_wp
        · intro _ hn
          exact hn ⟨⟨h.sound.bits, h.sound.free, h.sound.count⟩, hmap.slot hne⟩
        · intro _
          rfl
      · rintro - t rfl
        rw [hslot]
        exact Code.Wp.pure (.inr ⟨rfl, h.shrinks_entry hino hpos hi.symm (by omega)⟩)
  · rintro ret t (⟨hret, hr, ht⟩ | ⟨hret, hs⟩)
    · rw [if_pos hret]
      exact Code.Wp.pure (.inl ⟨hret, hr, ht⟩)
    · rw [if_neg (not_not.mpr hret)]
      exact Code.Wp.bind_modify (Code.Wp.pure (.inr ⟨rfl, hs⟩))

end Truncate

end UCore.Sfs

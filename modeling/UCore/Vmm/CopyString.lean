import UCore.Vmm.Check

/-! # Copying a string from user memory

`copy_string` checks its source one chunk at a time, and no chunk crosses a page. Where the areas
consist of whole pages a chunk is readable as soon as its first byte is, so that the copy stops at
the first byte that is zero or cannot be read, or after `maxn` bytes.
-/

namespace UCore.Vmm

open Library PageTable UserMem

variable {mm m : Mm} {user kmem : ℕ → UInt8} {src dst maxn n k a b addr len : ℕ} {x y : Copy}

/-- A byte that the process may read. -/
structure Readable (mm : Mm) (a : ℕ) : Prop where
  low : userbase ≤ a
  high : a < usertop
  flag : ∃ vma ∈ mm.mmapList, vma.contains a = true ∧ has vma.vmFlags vmRead = true

/-- The areas consist of whole pages. -/
def Aligned (mm : Mm) : Prop :=
  ∀ vma ∈ mm.mmapList, pgsize ∣ vma.vmStart ∧ pgsize ∣ vma.vmEnd

theorem Readable.congr (h : Readable m a) (hl : m.mmapList = mm.mmapList) : Readable mm a :=
  ⟨h.low, h.high, hl ▸ h.flag⟩

theorem Readable.page (hal : Aligned mm) (h : Readable mm a) (hb : b / pgsize = a / pgsize) :
    Readable mm b := by
  obtain ⟨hlo, hhi, vma, hv, hc, hf⟩ := h
  obtain ⟨⟨s, hs⟩, ⟨e, he⟩⟩ := hal vma hv
  rw [Vma.contains_iff] at hc
  unfold userbase at hlo
  unfold usertop at hhi
  unfold pgsize at hb hs he
  refine ⟨?_, ?_, vma, hv, Vma.contains_iff.mpr ⟨?_, ?_⟩, hf⟩
  · unfold userbase
    omega
  · unfold usertop
    omega
  · omega
  · omega

theorem accessible_iff_readable :
    Accessible mm addr len false ↔ 0 < len ∧ ∀ i < len, Readable mm (addr + i) := by
  constructor
  · rintro ⟨hlo, hpos, hhi, hp⟩
    refine ⟨by omega, fun i hi => ⟨by omega, by omega, ?_⟩⟩
    exact (hp (addr + i) (by omega) (by omega)).flag
  · rintro ⟨hpos, hr⟩
    have hlast := (hr (len - 1) (by omega)).high
    refine ⟨(hr 0 hpos).low, by omega, by omega, fun a h₁ h₂ => ⟨?_, nofun⟩⟩
    have h := (hr (a - addr) (by omega)).flag
    rwa [Nat.add_sub_cancel' h₁] at h

theorem accessible_chunk (hal : Aligned mm) (hlen : len ≤ pgsize - addr % pgsize) :
    Accessible mm addr len false ↔ 0 < len ∧ Readable mm addr := by
  rw [accessible_iff_readable]
  refine and_congr_right fun hpos => ⟨fun h => h 0 hpos, fun h i hi => h.page hal ?_⟩
  unfold pgsize at *
  omega

/-! ## The bytes that were moved -/

/-- After `n` bytes have been moved. -/
structure Moved (user kmem : ℕ → UInt8) (src dst n : ℕ) (x : Copy) : Prop where
  from_src : x.src = src + n
  to_dst : x.dst = dst + n
  loads : x.loads = List.range' src n
  stores : x.stores = List.range' dst n
  memory : x.kmem = fun a => if a ∈ List.range' dst n then user (src + (a - dst)) else kmem a

theorem Moved.frame (h : Moved user kmem src dst n x) (mm : Mm) (alpart copied : ℕ) :
    Moved user kmem src dst n { x with mm := mm, alpart := alpart, copied := copied } :=
  ⟨h.from_src, h.to_dst, h.loads, h.stores, h.memory⟩

theorem Moved.move (h : Moved user kmem src dst n x) :
    Moved user kmem src dst (n + 1) (x.move user) := by
  obtain ⟨h₁, h₂, h₃, h₄, h₅⟩ := h
  refine ⟨?_, ?_, ?_, ?_, ?_⟩
  · simp [Copy.move, h₁, Nat.add_assoc]
  · simp [Copy.move, h₂, Nat.add_assoc]
  · simp [Copy.move, h₁, h₃, List.range'_concat]
  · simp [Copy.move, h₂, h₄, List.range'_concat]
  · funext a
    simp only [Copy.move, h₁, h₂, h₅, Function.update_apply, List.mem_range'_1]
    by_cases ha : a = dst + n
    · rw [if_pos ha, if_pos (by omega), ha, Nat.add_sub_cancel_left]
    · rw [if_neg ha]
      by_cases hin : dst ≤ a ∧ a < dst + n
      · rw [if_pos hin, if_pos (by omega)]
      · rw [if_neg hin, if_neg (by omega)]

/-- The inner loop stops after the first zero of the chunk. -/
theorem copyBytes_spec (h : Moved user kmem src dst n x) (hk : k = x.alpart) :
    (∃ i < k, user (src + (n + i)) = 0 ∧ (∀ j < i, user (src + (n + j)) ≠ 0) ∧
      ∃ y, copyBytes user k x = (true, y) ∧ Moved user kmem src dst (n + i + 1) y) ∨
    (∀ j < k, user (src + (n + j)) ≠ 0) ∧
      ∃ y, copyBytes user k x = (false, y) ∧ Moved user kmem src dst (n + k) y ∧
        y.copied = x.copied + k ∧ y.mm = x.mm := by
  induction k generalizing n x with
  | zero => exact .inr ⟨nofun, x, rfl, h, rfl, rfl⟩
  | succ k ih =>
    have hsrc : x.src = src + n := h.from_src
    by_cases hz : user (src + n) = 0
    · refine .inl ⟨0, by omega, hz, nofun, x.move user, ?_, h.move⟩
      rw [copyBytes, hsrc, if_pos hz]
    · have hgo : copyBytes user (k + 1) x = copyBytes user k
          { x.move user with alpart := x.alpart - 1, copied := x.copied + 1 } := by
        rw [copyBytes, hsrc, if_neg hz]
      rw [hgo]
      have hnz : ∀ {i}, (∀ j < i, user (src + (n + 1 + j)) ≠ 0) →
          ∀ j < i + 1, user (src + (n + j)) ≠ 0 := by
        intro i hall j hj
        cases j with
        | zero => exact hz
        | succ j =>
          have := hall j (by omega)
          rwa [Nat.add_right_comm] at this
      rcases ih (h.move.frame _ (x.alpart - 1) (x.copied + 1)) (by dsimp only; omega) with
        ⟨i, hi, h0, hbefore, y, hy, hm⟩ | ⟨hall, y, hy, hm, hc, hmm⟩
      · refine .inl ⟨i + 1, by omega, ?_, hnz hbefore, y, hy, ?_⟩
        · rw [← h0]
          congr 2
          omega
        · have : n + 1 + i + 1 = n + (i + 1) + 1 := by omega
          rwa [this] at hm
      · refine .inr ⟨hnz hall, y, hy, ?_, ?_, hmm⟩
        · have : n + 1 + k = n + (k + 1) := by omega
          rwa [this] at hm
        · dsimp only at hc
          omega

/-! ## The chunks -/

/-- A string of `k` bytes and its zero that the process may read. -/
structure StringAt (user : ℕ → UInt8) (mm : Mm) (src k : ℕ) : Prop where
  zero : user (src + k) = 0
  nonzero : ∀ i < k, user (src + i) ≠ 0
  readable : ∀ i ≤ k, Readable mm (src + i)

/-- At the start of each chunk. -/
structure Chunk (mm : Mm) (user kmem : ℕ → UInt8) (src dst maxn : ℕ) (x : Copy) : Prop where
  areas : Areas x.mm
  list : x.mm.mmapList = mm.mmapList
  moved : Moved user kmem src dst x.copied x
  budget : x.copied ≤ maxn
  alpart : x.alpart = min (pgsize - x.src % pgsize) (maxn - x.copied)
  readable : ∀ i < x.copied, Readable mm (src + i)
  nonzero : ∀ i < x.copied, user (src + i) ≠ 0

/-- What `copy_string` leaves: it stopped after a string, or at its budget, or before a byte that
the process may not read. -/
structure Stopped (mm : Mm) (user kmem : ℕ → UInt8) (src dst maxn : ℕ)
    (r : Bool × Copy) : Prop where
  moved : ∃ n ≤ maxn, Moved user kmem src dst n r.2 ∧ (∀ i < n, Readable mm (src + i)) ∧
    if r.1 then ∃ k, n = k + 1 ∧ StringAt user mm src k
    else (∀ i < n, user (src + i) ≠ 0) ∧ (n = maxn ∨ ¬ Readable mm (src + n))

theorem copyStep_spec (hal : Aligned mm) (hmax : maxn < 2 ^ 64)
    (h : Chunk mm user kmem src dst maxn x) :
    match copyStep user maxn x with
    | .inl y => Chunk mm user kmem src dst maxn y ∧ x.copied < y.copied
    | .inr none => False
    | .inr (some r) => Stopped mm user kmem src dst maxn r := by
  have halx : Aligned x.mm := by
    rw [Aligned, h.list]
    exact hal
  have hpos : 0 < pgsize - x.src % pgsize := by
    unfold pgsize
    omega
  have halp := h.alpart
  have hbud := h.budget
  have hlen : x.alpart < 2 ^ 64 := by omega
  obtain ⟨ok, m', hc, ha, hl, hok⟩ := checkAreas_iff h.areas hlen x.src false
  rw [accessible_chunk halx (by omega)] at hok
  have hsrc : x.src = src + x.copied := h.moved.from_src
  unfold copyStep
  rw [hc]
  cases ok with
  | false =>
    refine ⟨x.copied, hbud, h.moved.frame m' _ _, h.readable, ?_⟩
    rw [if_neg Bool.false_ne_true]
    refine ⟨h.nonzero, ?_⟩
    by_cases hn : x.copied = maxn
    · exact .inl hn
    · refine .inr fun hr => ?_
      rw [← hsrc] at hr
      exact Bool.false_ne_true (hok.mpr ⟨by omega, hr.congr h.list.symm⟩)
  | true =>
    obtain ⟨-, hr⟩ := hok.mp rfl
    have hrange : ∀ i < x.copied + x.alpart, Readable mm (src + i) := by
      intro i hi
      by_cases hlt : i < x.copied
      · exact h.readable i hlt
      · refine (hr.congr h.list).page hal ?_
        unfold pgsize at *
        omega
    have hm := h.moved.frame m' x.alpart x.copied
    dsimp only
    rcases copyBytes_spec hm rfl with
      ⟨i, hi, h0, hbefore, y, hy, hmy⟩ | ⟨hall, y, hy, hmy, hcy, hmm⟩
    · dsimp only at hi hy
      rw [hy]
      refine ⟨x.copied + i + 1, by omega, hmy, fun j hj => hrange j (by omega), ?_⟩
      rw [if_pos rfl]
      refine ⟨x.copied + i, rfl, h0, fun j hj => ?_, fun j hj => hrange j (by omega)⟩
      by_cases hlt : j < x.copied
      · exact h.nonzero j hlt
      · have := hbefore (j - x.copied) (by omega)
        rwa [Nat.add_sub_cancel' (by omega)] at this
    · dsimp only at hall hy hmy hcy hmm
      rw [hy]
      have hnz : ∀ i < x.copied + x.alpart, user (src + i) ≠ 0 := by
        intro i hi
        by_cases hlt : i < x.copied
        · exact h.nonzero i hlt
        · have := hall (i - x.copied) (by omega)
          rwa [Nat.add_sub_cancel' (by omega)] at this
      dsimp only
      by_cases hend : maxn ≤ y.copied
      · rw [if_pos hend]
        refine ⟨x.copied + x.alpart, by omega, hmy, hrange, ?_⟩
        rw [if_neg Bool.false_ne_true]
        exact ⟨hnz, .inl (by omega)⟩
      · rw [if_neg hend]
        -- a chunk that did not use up the budget ends at the end of its page
        have hpage : y.src % pgsize = 0 := by
          rw [hmy.from_src]
          unfold pgsize at *
          omega
        rw [← hcy] at hmy hrange hnz
        refine ⟨⟨?_, ?_, hmy.frame _ _ _, by dsimp only; omega, ?_, hrange, hnz⟩,
          by dsimp only; omega⟩
        · dsimp only
          rw [hmm]
          exact ha
        · dsimp only
          rw [hmm, hl, h.list]
        · dsimp only
          rw [hpage, Nat.sub_zero]

theorem copyString_stopped (h : Areas mm) (hal : Aligned mm) (user kmem : ℕ → UInt8) (dst : ℕ)
    (src maxn : UInt64) :
    ∃ r, copyString user mm kmem dst src maxn = some r ∧
      Stopped mm user kmem src.toNat dst maxn.toNat r := by
  have hstep := fun x (hx : Chunk mm user kmem src.toNat dst maxn.toNat x) =>
    copyStep_spec hal maxn.toNat_lt hx
  obtain ⟨r, hi, r', rfl, hr⟩ := iterate_spec
    (Chunk mm user kmem src.toNat dst maxn.toNat) (fun x => maxn.toNat - x.copied)
    (fun o => ∃ r, o = some r ∧ Stopped mm user kmem src.toNat dst maxn.toNat r)
    (f := copyStep user maxn.toNat) (n := maxn.toNat + 1)
    (x := { mm := mm, kmem := kmem, src := src.toNat, dst := dst, copied := 0, loads := [],
            stores := [], alpart := min (pgsize - src.toNat % pgsize) maxn.toNat })
    (by
      intro x y hx hgo
      have hs := hstep x hx
      rw [hgo] at hs
      exact ⟨hs.1, by have := hs.1.budget; omega⟩)
    (by
      intro x o hx hstop
      have hs := hstep x hx
      rw [hstop] at hs
      cases o with
      | none => exact hs.elim
      | some r => exact ⟨r, rfl, hs⟩)
    ⟨h, rfl, ⟨rfl, rfl, rfl, rfl, by simp⟩, by simp, by simp, nofun, nofun⟩ (by dsimp only; omega)
  refine ⟨r', ?_, hr⟩
  unfold copyString
  rw [hi]
  rfl

/-- `copy_string` succeeds exactly on the readable strings of fewer than `maxn` bytes and copies
them with their zero. It reads readable bytes only and writes at most `maxn` bytes. -/
theorem copy_string_spec (mm : Mm) (h : Areas mm) (hal : Aligned mm) (user kmem : ℕ → UInt8)
    (dst : ℕ) (src maxn : UInt64) :
    ∃ ok x, copyString user mm kmem dst src maxn = some (ok, x) ∧
      (ok = true ↔ ∃ k < maxn.toNat, StringAt user mm src.toNat k) ∧
      (∀ k < maxn.toNat, StringAt user mm src.toNat k →
        x.stores = List.range' dst (k + 1) ∧
          ∀ i ≤ k, x.kmem (dst + i) = user (src.toNat + i)) ∧
      (∀ a ∈ x.loads, Readable mm a) ∧
      (∃ n ≤ maxn.toNat, x.stores = List.range' dst n) ∧
      ∀ a, a ∉ x.stores → x.kmem a = kmem a := by
  obtain ⟨⟨ok, x⟩, he, ⟨n, hn, hm, hr, hstop⟩⟩ := copyString_stopped h hal user kmem dst src maxn
  dsimp only at hm hstop
  -- a string within the budget is where the copy stops
  have hfound : ∀ k < maxn.toNat, StringAt user mm src.toNat k → ok = true ∧ n = k + 1 := by
    rintro k hk ⟨h0, hnz, hread⟩
    cases ok with
    | true =>
      obtain ⟨k', rfl, h0', hnz', -⟩ := hstop
      rcases Nat.lt_trichotomy k' k with hlt | heq | hgt
      · exact absurd h0' (hnz k' hlt)
      · exact ⟨rfl, by omega⟩
      · exact absurd h0 (hnz' k hgt)
    | false =>
      obtain ⟨hnz', hwhy⟩ := hstop
      have hle : n ≤ k := by
        by_contra hlt
        exact hnz' k (by omega) h0
      rcases hwhy with rfl | hnot
      · omega
      · exact absurd (hread n hle) hnot
  refine ⟨ok, x, he, ⟨fun hok => ?_, ?_⟩, fun k hk hs => ?_, fun a ha => ?_, ⟨n, hn, hm.stores⟩,
    fun a ha => ?_⟩
  · subst hok
    obtain ⟨k, rfl, hs⟩ := hstop
    exact ⟨k, by omega, hs⟩
  · rintro ⟨k, hk, hs⟩
    exact (hfound k hk hs).1
  · obtain ⟨-, rfl⟩ := hfound k hk hs
    refine ⟨hm.stores, fun i hi => ?_⟩
    rw [hm.memory]
    dsimp only
    rw [if_pos (List.mem_range'_1.mpr (by omega)), Nat.add_sub_cancel_left]
  · rw [hm.loads, List.mem_range'_1] at ha
    have := hr (a - src.toNat) (by omega)
    rwa [Nat.add_sub_cancel' ha.1] at this
  · rw [hm.stores] at ha
    rw [hm.memory]
    dsimp only
    rw [if_neg ha]

theorem twoAreas_aligned : Aligned twoAreas := by
  intro vma hv
  simp only [twoAreas, List.mem_cons, List.not_mem_nil, or_false] at hv
  rcases hv with rfl | rfl <;> decide

theorem copy_string_spec_twoAreas : Areas twoAreas ∧ Aligned twoAreas ∧
    ∃ ok x, copyString (fun a => if a = 0x201002 then 0 else 1) twoAreas (fun _ => 7) 0x9000
        0x200ffe 8 = some (ok, x) ∧
      (ok = true ↔ ∃ k < 8,
        StringAt (fun a => if a = 0x201002 then 0 else 1) twoAreas 0x200ffe k) := by
  obtain ⟨ok, x, he, hok, -⟩ := copy_string_spec twoAreas twoAreas_areas twoAreas_aligned
    (fun a => if a = 0x201002 then 0 else 1) (fun _ => 7) 0x9000 0x200ffe 8
  exact ⟨twoAreas_areas, twoAreas_aligned, ok, x, he, hok⟩

/-- A string over the border of two pages. -/
example : (copyString (fun a => if a = 0x201002 then 0 else 1) twoAreas (fun _ => 7) 0x9000
    0x200ffe 8).map (fun r => (r.1, r.2.stores)) = some (true, List.range' 0x9000 5) := by
  decide +kernel

end UCore.Vmm

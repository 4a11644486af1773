import UCore.LoadIcode.Reads

/-! # The pages of a segment

The loops over the pages of a segment fill one page after the other. At the head of each loop all
bytes of the segment before `start` are in place, the pages before `la` are mapped, and nothing else
has changed.
-/

namespace UCore.LoadIcode

open Library PageTable Cow Fork UserMem Vmm

/-! ## Arithmetic -/

section Words

variable {a b off la end' : UInt64}

theorem toNat_roundDown (a n : UInt64) : (roundDown a n).toNat = a.toNat / n.toNat * n.toNat := by
  have hm : (a % n).toNat = a.toNat % n.toNat := UInt64.toNat_mod a n
  have hle : a % n ≤ a := by
    rw [UInt64.le_iff_toNat_le, hm]
    exact Nat.mod_le _ _
  rw [roundDown, UInt64.toNat_sub_of_le _ _ hle, hm]
  have := Nat.div_add_mod' a.toNat n.toNat
  omega

theorem toNat_pageSize : pageSize.toNat = pgsize := rfl

theorem toNat_add_of_lt (h : a.toNat + b.toNat < 2 ^ 64) : (a + b).toNat = a.toNat + b.toNat := by
  rw [UInt64.toNat_add, Nat.mod_eq_of_lt h]

theorem toNat_add_wrap (h : 2 ^ 64 ≤ a.toNat + b.toNat) :
    (a + b).toNat = a.toNat + b.toNat - 2 ^ 64 := by
  have := a.toNat_lt
  have := b.toNat_lt
  rw [UInt64.toNat_add]
  omega

theorem toNat_add_of_between (h : a.toNat ≤ la.toNat) (hlt : la < a + b) :
    (a + b).toNat = a.toNat + b.toNat := by
  refine toNat_add_of_lt ?_
  by_contra hw
  rw [UInt64.lt_iff_toNat_lt, toNat_add_wrap (Nat.le_of_not_lt hw)] at hlt
  have := b.toNat_lt
  omega

theorem toNat_partSize (hoff : off.toNat < pgsize)
    (hend : la.toNat + off.toNat ≤ end'.toNat + pgsize) :
    (partSize off la end').toNat = min la.toNat end'.toNat + pgsize - (la.toNat + off.toNat) := by
  have hsize : (pageSize - off).toNat = pgsize - off.toNat :=
    UInt64.toNat_sub_of_le _ _ (UInt64.le_iff_toNat_le.mpr hoff.le)
  unfold partSize
  dsimp only
  split
  · rename_i hlt
    rw [UInt64.lt_iff_toNat_lt] at hlt
    have hrest : (la - end').toNat = la.toNat - end'.toNat :=
      UInt64.toNat_sub_of_le _ _ (UInt64.le_iff_toNat_le.mpr hlt.le)
    rw [UInt64.toNat_sub_of_le, hsize, hrest]
    · omega
    · rw [UInt64.le_iff_toNat_le, hsize, hrest]
      omega
  · rename_i hge
    rw [UInt64.lt_iff_toNat_lt] at hge
    rw [hsize]
    omega

/-- The words of a round that does `size` bytes from `start` on, in the page at `la`. -/
structure PagePart (start la end' size : UInt64) : Prop where
  off : (start - la).toNat = start.toNat - la.toNat
  next : (la + pageSize).toNat = la.toNat + pgsize
  count : size.toNat = min (la.toNat + pgsize) end'.toNat - start.toNat
  stop : (start + size).toNat = start.toNat + size.toNat

theorem partSize_pagePart (hle : la ≤ a) (hlt : a.toNat < la.toNat + pgsize)
    (hreach : la.toNat / pgsize < reach) (hend : a < end') :
    PagePart a la end' (partSize (a - la) (la + pageSize) end') := by
  have hoff : (a - la).toNat = a.toNat - la.toNat := UInt64.toNat_sub_of_le _ _ hle
  rw [UInt64.le_iff_toNat_le] at hle
  rw [UInt64.lt_iff_toNat_lt] at hend
  have hnext : (la + pageSize).toNat = la.toNat + pgsize := by
    refine toNat_add_of_lt ?_
    rw [toNat_pageSize]
    unfold reach pgsize at *
    omega
  have hsize : (partSize (a - la) (la + pageSize) end').toNat =
      min (la.toNat + pgsize) end'.toNat - a.toNat := by
    rw [toNat_partSize (by omega) (by omega), hnext, hoff]
    omega
  refine ⟨hoff, hnext, hsize, toNat_add_of_lt ?_⟩
  have := end'.toNat_lt
  omega

theorem segmentPerm_spec (vmFlags : ℕ) : segmentPerm vmFlags < 1024 ∧
    has (segmentPerm vmFlags) pteCow = false := by
  unfold segmentPerm
  generalize has vmFlags vmWrite = w
  generalize has vmFlags vmRead = r
  generalize has vmFlags vmExec = x
  revert w r x
  decide

theorem offT_of_range {z : ℤ} (h : -2 ^ 63 ≤ z) (h' : z < 2 ^ 63) : Sfs.offT z = z := by
  unfold Sfs.offT
  rw [Int.bmod_eq_emod]
  split <;> omega

theorem offT_of_nonneg (h : 0 ≤ Sfs.offT a.toNat) : Sfs.offT a.toNat = a.toNat := by
  have hlt := a.toNat_lt
  rcases Nat.lt_or_ge a.toNat (2 ^ 63) with hs | hs
  · exact offT_of_range (by omega) (by omega)
  · unfold Sfs.offT at h
    rw [Int.bmod_eq_emod] at h
    split at h <;> omega

end Words

/-! ## One page -/

section Page

variable {d i perm q v off n : ℕ} {la : UInt64} {s t : Loader} {f : ℕ → ℕ} {c : ℕ → ℕ}

/-- A page for header `i` at `la`, with contents from before. -/
structure Fresh (d i : ℕ) (la : ℕ) (s : Loader) (q : ℕ) (t : Loader) : Prop where
  low : la / pgsize < reach
  solo : Solo d t.mem (la / pgsize) q
  shows : ∃ f, Shows d t.mem (Function.update (view s.mem d) (la / pgsize) (some f))
  mm : t.mm = s.mm
  hasMm : t.hasMm = s.hasMm
  file : t.file = s.file
  mapped : t.mapped = s.mapped ++ [(i, la)]

theorem pgdirAllocPage_wp (h : Held d s.mem) (hd : s.mm.mm.pgdir = d)
    (hla : la.toNat < 3 * 2 ^ 30) (hperm : perm < 1024) (hcow : has perm pteCow = false) :
    Code.Wp (pgdirAllocPage la perm) s (fun e => e = .accessFault ∧ usertop ≤ la.toNat) fun o t =>
      (∃ m, t = s.setMem m) ∧ ∀ q, o = some q → la.toNat / pgsize < reach ∧
        Solo d t.mem (la.toNat / pgsize) q ∧
        ∃ f, Shows d t.mem (Function.update (view s.mem d) (la.toNat / pgsize) (some f)) := by
  unfold pgdirAllocPage Code.Wp
  dsimp only
  by_cases hlow : la.toNat < usertop
  · rw [if_neg]
    · obtain ⟨o, m, hm, hres⟩ := h.alloc (reach_of_lt hlow) hperm (by simp [hcow])
      rw [hd, hm]
      refine ⟨⟨m, rfl⟩, ?_⟩
      rintro q rfl
      rcases hres with ⟨hn, -⟩ | ⟨q', f, hq, hsolo, hshows⟩
      · cases hn
      · obtain rfl := Option.some.inj hq
        exact ⟨reach_of_lt hlow, hsolo, f, hshows⟩
    · rw [pdx1_of_lt hla]
      unfold usertop at hlow
      omega
  · have hpdx : pdx1 la.toNat = 2 := by
      rw [pdx1_of_lt hla]
      unfold usertop at hlow
      omega
    rw [hpdx]
    rcases allocPage_cases s.mem with ⟨l, hs⟩ | ⟨q, l, -, hs⟩
    · rw [if_neg (by simp [hs]), State.pgdirAllocPage, hs]
      exact ⟨⟨_, rfl⟩, fun q hq => by cases hq⟩
    · rw [if_pos (by simp [hs])]
      exact ⟨rfl, Nat.le_of_not_lt hlow⟩

theorem allocSegment_wp (h : Held d s.mem) (hd : s.mm.mm.pgdir = d)
    (hla : la.toNat < 3 * 2 ^ 30) (hperm : perm < 1024) (hcow : has perm pteCow = false) :
    Code.Wp (allocSegment i la perm) s (fun e => e = .accessFault ∧ usertop ≤ la.toNat) fun o t =>
      ∀ q, o = some q → Fresh d i la.toNat s q t := by
  unfold allocSegment
  refine (pgdirAllocPage_wp h hd hla hperm hcow).bind fun o t ⟨⟨m, hm⟩, hq⟩ => ?_
  subst hm
  cases o with
  | none => exact fun q hn => by cases hn
  | some q =>
    obtain ⟨hlow, hsolo, hshows⟩ := hq q rfl
    refine fun q' hq' => ?_
    obtain rfl := Option.some.inj hq'
    exact ⟨hlow, hsolo, hshows, rfl, rfl, rfl, rfl⟩

theorem Solo.view {m : State} (h : Solo d m v q) : view m d v = some (m.word q) := by
  rw [Cow.view, mapsTo_iff_pageOf.mp h.maps]
  rfl

theorem writePage_wp (h : Held d s.mem) (hs : Solo d s.mem v q) (hv : v < reach)
    (hn : off + n ≤ pgsize) : Code.Wp (writePage (some q) off n c) s (fun _ => False) fun _ t =>
      Solo d t.mem v q ∧ (∃ m, t = s.setMem m) ∧ Shows d t.mem
        (Function.update (view s.mem d) v (some (setBytes (s.mem.word q) off n c))) := by
  obtain ⟨h₁, h₂⟩ := h.fill hs hv (setBytes (s.mem.word q) off n c)
  exact .of_ok (if_pos hn) ⟨h₁, ⟨_, rfl⟩, h₂⟩

end Page

/-! ## What is in place -/

section Filled

variable {d i n : ℕ} {ph : Proghdr} {s t u : Loader} {start la : ℕ} {g : ℕ → ℕ}

/-- The byte of a segment at an address. -/
def Proghdr.byte (ph : Proghdr) (bytes : List UInt8) (a : ℕ) : Option ℕ :=
  if a < ph.pVa.toNat + ph.pFilesz.toNat then
    bytes[ph.pOffset.toNat + (a - ph.pVa.toNat)]?.map UInt8.toNat
  else some 0

/-- The page numbers from the page of `va` on, up to the address `la`. -/
def pageRange (va la : ℕ) : List ℕ := List.range' (va / pgsize) (la / pgsize - va / pgsize)

theorem mem_pageRange {va v : ℕ} : v ∈ pageRange va la ↔ va / pgsize ≤ v ∧ v < la / pgsize := by
  rw [pageRange, List.mem_range'_1]
  omega

/-- The variables `start` and `la` at the head of a loop. -/
structure Pos (ph : Proghdr) (start la : ℕ) : Prop where
  aligned : la % pgsize = 0
  cases : start = ph.pVa.toNat ∧ la = ph.pVa.toNat / pgsize * pgsize ∨
    ph.pVa.toNat < start ∧ start ≤ la ∧ la < start + pgsize

theorem Pos.va_le (h : Pos ph start la) : ph.pVa.toNat ≤ start := by
  have := h.cases
  omega

theorem Pos.lt_add (h : Pos ph start la) : start < la + pgsize := by
  rcases h.cases with ⟨h₁, h₂⟩ | ⟨-, h₁, -⟩
  · rw [h₁, h₂]
    exact Nat.lt_div_mul_add (by decide)
  · exact h₁.trans_lt (Nat.lt_add_of_pos_right (by decide))

theorem Pos.exists_page (h : Pos ph start la) : ∃ k, la = k * pgsize :=
  ⟨la / pgsize, (Nat.div_mul_cancel (Nat.dvd_of_mod_eq_zero h.aligned)).symm⟩

theorem Pos.next (h : Pos ph start la) (hle : la ≤ start) (hpos : 0 < n)
    (hn : start + n ≤ la + pgsize) : Pos ph (start + n) (la + pgsize) where
  aligned := by rw [Nat.add_mod_right, h.aligned]
  cases := by
    have := h.va_le
    omega

/-- Of the segment of header `i`, the bytes before `start` and the pages before `la` are in
place. -/
structure Filled (d i : ℕ) (ph : Proghdr) (s t : Loader) (start la : ℕ) : Prop where
  held : Held d t.mem
  mm : t.mm = s.mm
  hasMm : t.hasMm = s.hasMm
  bytes : t.file.bytes = s.file.bytes
  mapped : t.mapped = s.mapped ++ (pageRange ph.pVa.toNat la).map fun v => (i, v * pgsize)
  other : ∀ v < reach, v ∉ pageRange ph.pVa.toNat la → view t.mem d v = view s.mem d v
  data : ∀ a, ph.pVa.toNat ≤ a → a < start → ∃ f, view t.mem d (a / pgsize) = some f ∧
    some (loadByte f (a % pgsize)) = ph.byte s.file.bytes a

theorem Filled.refl (h : Held d s.mem) (i : ℕ) (ph : Proghdr) :
    Filled d i ph s s ph.pVa.toNat (ph.pVa.toNat / pgsize * pgsize) where
  held := h
  mm := rfl
  hasMm := rfl
  bytes := rfl
  mapped := by
    rw [pageRange, Nat.mul_div_cancel _ (by decide), Nat.sub_self]
    simp
  other _ _ _ := rfl
  data a h₁ h₂ := by omega

/-- A further page, with the bytes of the segment from `start` on. -/
theorem Filled.page (h : Filled d i ph s t start la) (hp : Pos ph start la) (hle : la ≤ start)
    (hn : start + n ≤ la + pgsize) (hla : la / pgsize < reach)
    (hmm : u.mm = t.mm) (hhas : u.hasMm = t.hasMm) (hbytes : u.file.bytes = t.file.bytes)
    (hmapped : u.mapped = t.mapped ++ [(i, la)])
    (hshows : Shows d u.mem (Function.update (view t.mem d) (la / pgsize) (some g)))
    (hg : ∀ a, start ≤ a → a < start + n →
      some (loadByte g (a % pgsize)) = ph.byte s.file.bytes a) :
    Filled d i ph s u (start + n) (la + pgsize) := by
  obtain ⟨k, rfl⟩ := hp.exists_page
  have hva : ph.pVa.toNat / pgsize ≤ k ∧ ph.pVa.toNat ≤ start := by
    have := hp.cases
    unfold pgsize at *
    omega
  have hk : k * pgsize / pgsize = k := Nat.mul_div_cancel _ (by decide)
  have hk' : (k * pgsize + pgsize) / pgsize = k + 1 := by
    rw [← Nat.succ_mul]
    exact Nat.mul_div_cancel _ (by decide)
  rw [hk] at hshows hla
  refine ⟨hshows.1, hmm.trans h.mm, hhas.trans h.hasMm, hbytes.trans h.bytes, ?_, ?_, ?_⟩
  · have hrange : pageRange ph.pVa.toNat (k * pgsize + pgsize) =
        pageRange ph.pVa.toNat (k * pgsize) ++ [k] := by
      rw [pageRange, pageRange, hk, hk', Nat.succ_sub hva.1, List.range'_concat, Nat.one_mul,
        Nat.add_sub_cancel' hva.1]
    rw [hmapped, h.mapped, hrange, List.map_append, List.append_assoc]
    rfl
  · intro v hv hn
    rw [mem_pageRange, hk'] at hn
    have hne : v ≠ k := by omega
    rw [hshows.2 v hv, Function.update_of_ne hne, h.other v hv]
    rw [mem_pageRange, hk]
    omega
  · intro a ha hlt'
    by_cases hstart : a < start
    · obtain ⟨f, hf, hb⟩ := h.data a ha hstart
      have hne : a / pgsize < k := by
        have := hp.cases
        unfold pgsize at *
        omega
      refine ⟨f, ?_, hb⟩
      rw [hshows.2 _ (hne.trans hla), Function.update_of_ne hne.ne, hf]
    · have hak : a / pgsize = k := by
        unfold pgsize at *
        omega
      refine ⟨g, ?_, hg a (by omega) hlt'⟩
      rw [hak, hshows.2 _ hla, Function.update_self]

/-- More bytes of the last page. -/
theorem Filled.more (h : Filled d i ph s t start la) (hp : Pos ph start la) (hlt : start < la)
    (hn : start + n ≤ la) (hla : la / pgsize ≤ reach) (hmm : u.mm = t.mm)
    (hhas : u.hasMm = t.hasMm) (hbytes : u.file.bytes = t.file.bytes)
    (hmapped : u.mapped = t.mapped)
    (hshows : Shows d u.mem (Function.update (view t.mem d) (la / pgsize - 1) (some g)))
    (hg : ∀ a, ph.pVa.toNat ≤ a → a < start + n → a / pgsize = la / pgsize - 1 →
      some (loadByte g (a % pgsize)) = ph.byte s.file.bytes a) :
    Filled d i ph s u (start + n) la := by
  obtain ⟨k, rfl⟩ := hp.exists_page
  have hk : k * pgsize / pgsize = k := Nat.mul_div_cancel _ (by decide)
  have hva : ph.pVa.toNat / pgsize < k ∧ ph.pVa.toNat < start := by
    have := hp.cases
    unfold pgsize at *
    omega
  rw [hk] at hshows hla hg
  have hlast : k - 1 < reach := by
    unfold pgsize at *
    omega
  refine ⟨hshows.1, hmm.trans h.mm, hhas.trans h.hasMm, hbytes.trans h.bytes,
    hmapped.trans h.mapped, fun v hv hn => ?_, fun a ha hlt' => ?_⟩
  · have hne : v ≠ k - 1 := by
      rw [mem_pageRange, hk] at hn
      unfold pgsize at *
      omega
    rw [hshows.2 v hv, Function.update_of_ne hne, h.other v hv hn]
  · by_cases hak : a / pgsize = k - 1
    · refine ⟨g, ?_, hg a ha hlt' hak⟩
      rw [hak, hshows.2 _ hlast, Function.update_self]
    · have hlow : a / pgsize < k - 1 ∧ a < start := by
        have := hp.cases
        unfold pgsize at *
        omega
      obtain ⟨f, hf, hb⟩ := h.data a ha hlow.2
      refine ⟨f, ?_, hb⟩
      rw [hshows.2 _ (hlow.1.trans hlast), Function.update_of_ne hak, hf]

end Filled

/-! ## The loop over the pages of the file -/

section File

variable {d i perm q : ℕ} {ph : Proghdr} {s t u v : Loader} {x : Vars} {end' : UInt64}

/-- The head of the loop over the pages with bytes of the file. -/
structure FileInv (d i : ℕ) (ph : Proghdr) (s : Loader) (x : Vars) (t : Loader) : Prop where
  pos : Pos ph x.start.toNat x.la.toNat
  filled : Filled d i ph s t x.start.toNat x.la.toNat
  ret : x.ret ≠ 0
  offset : x.offset = Sfs.offT ph.pOffset.toNat + (x.start.toNat - ph.pVa.toNat : ℕ)
  begun : ph.pVa.toNat < x.start.toNat → 0 ≤ Sfs.offT ph.pOffset.toNat ∧
    x.offset ≤ Sfs.sfsMaxFileSize + pgsize ∧ ph.pVa.toNat + ph.pFilesz.toNat < 2 ^ 64 ∧
    x.start.toNat ≤ ph.pVa.toNat + ph.pFilesz.toNat ∧
    (x.start.toNat < ph.pVa.toNat + ph.pFilesz.toNat → x.start = x.la)
  page : ph.pVa.toNat < x.start.toNat → ∃ q, x.page = some q ∧
    Solo d t.mem (x.la.toNat / pgsize - 1) q ∧ x.la.toNat / pgsize ≤ reach

theorem FileInv.bounds (h : FileInv d i ph s x t) (hva : ph.pVa.toNat < usertop)
    (hlt : x.start < ph.pVa + ph.pFilesz) :
    (ph.pVa + ph.pFilesz).toNat = ph.pVa.toNat + ph.pFilesz.toNat ∧
      x.la ≤ x.start ∧ x.start.toNat < ph.pVa.toNat + ph.pFilesz.toNat ∧
      x.la.toNat < 3 * 2 ^ 30 := by
  have hle := h.pos.va_le
  have hend := toNat_add_of_between hle hlt
  rw [UInt64.lt_iff_toNat_lt, hend] at hlt
  have hla : x.la.toNat ≤ x.start.toNat := by
    rcases h.pos.cases with ⟨h₁, h₂⟩ | ⟨h₁, -, -⟩
    · rw [h₁, h₂]
      exact Nat.div_mul_le_self _ _
    · rw [(h.begun h₁).2.2.2.2 hlt]
  have hmax : x.start.toNat ≤ ph.pVa.toNat + Sfs.sfsMaxFileSize + pgsize := by
    rcases Nat.lt_or_ge ph.pVa.toNat x.start.toNat with hb | hb
    · obtain ⟨h₁, h₂, -⟩ := h.begun hb
      rw [h.offset] at h₂
      omega
    · omega
  refine ⟨hend, UInt64.le_iff_toNat_le.mpr hla, hlt, ?_⟩
  unfold usertop Sfs.sfsMaxFileSize pgsize at *
  omega

theorem readBytes_eq {f : ℕ → ℕ} {data : List UInt8} {start la a : ℕ} {pos : ℤ} {bytes : List UInt8}
    (hdata : data = bytesAt bytes pos.toNat data.length)
    (hpos : pos = Sfs.offT ph.pOffset.toNat + (start - ph.pVa.toNat : ℕ))
    (hnonneg : 0 ≤ Sfs.offT ph.pOffset.toNat) (hva : ph.pVa.toNat ≤ start) (hla : la % pgsize = 0)
    (hle : la ≤ start) (hn : start + data.length ≤ la + pgsize)
    (hend : start + data.length ≤ ph.pVa.toNat + ph.pFilesz.toNat) (h₁ : start ≤ a)
    (h₂ : a < start + data.length) :
    some (loadByte (setBytes f (start - la) data.length fun o => (data.getD o 0).toNat)
      (a % pgsize)) = ph.byte bytes a := by
  have hmod : a % pgsize = start - la + (a - start) := by
    unfold pgsize at *
    omega
  rw [offT_of_nonneg hnonneg] at hpos
  have hidx : pos.toNat + (a - start) = ph.pOffset.toNat + (a - ph.pVa.toNat) := by omega
  have hlt : a - start < data.length := by omega
  have hget : data[a - start]? = bytes[pos.toNat + (a - start)]? := by
    conv_lhs => rw [hdata]
    rw [bytesAt, List.getElem?_take, if_pos hlt, List.getElem?_drop]
  rw [loadByte_setBytes fun o => UInt8.toNat_lt _, hmod, if_pos (by omega), Nat.add_sub_cancel_left,
    Proghdr.byte, if_pos (by omega), ← hidx, ← hget, List.getElem?_eq_getElem hlt,
    List.getD_eq_getElem _ _ hlt]
  rfl

theorem FileInv.nonneg (h : FileInv d i ph s x t) (h₀ : 0 ≤ x.offset) :
    0 ≤ Sfs.offT ph.pOffset.toNat := by
  rcases Nat.lt_or_ge ph.pVa.toNat x.start.toNat with hb | hb
  · exact (h.begun hb).1
  · rw [h.offset, Nat.sub_eq_zero_of_le hb] at h₀
    simpa using h₀

/-- The head of the loop after a round that read `size` bytes. -/
theorem FileInv.next {size : UInt64} {ret : ℤ} (h : FileInv d i ph s x t)
    (hend : (ph.pVa + ph.pFilesz).toNat = ph.pVa.toNat + ph.pFilesz.toNat)
    (hp : PagePart x.start x.la (ph.pVa + ph.pFilesz) size) (hla : x.la ≤ x.start)
    (hpos : 0 < size.toNat) (h₀ : 0 ≤ x.offset) (hmax : x.offset < Sfs.sfsMaxFileSize)
    (hret : ret = size.toNat) (hlow : x.la.toNat / pgsize < reach)
    (hsolo : Solo d u.mem (x.la.toNat / pgsize) q)
    (hfilled : Filled d i ph s u (x.start.toNat + size.toNat) (x.la.toNat + pgsize)) :
    FileInv d i ph s
      ⟨x.start + size, x.la + pageSize, Sfs.offT (x.offset + size.toNat), some q, ret⟩ u := by
  have hsize := hp.count
  have hva := h.pos.va_le
  have hpage := h.pos.lt_add
  rw [UInt64.le_iff_toNat_le] at hla
  have hoffset : Sfs.offT (x.offset + size.toNat) = x.offset + size.toNat := by
    unfold Sfs.sfsMaxFileSize pgsize at *
    exact offT_of_range (by omega) (by omega)
  constructor
  case pos =>
    rw [hp.stop, hp.next]
    exact h.pos.next hla hpos (by omega)
  case filled =>
    rw [hp.stop, hp.next]
    exact hfilled
  case ret =>
    change ret ≠ 0
    rw [hret]
    exact_mod_cast hpos.ne'
  case offset =>
    rw [hoffset, hp.stop, h.offset]
    push_cast [Nat.sub_add_comm hva]
    ring
  case begun =>
    rw [hoffset, hp.stop]
    have hno : ph.pVa.toNat + ph.pFilesz.toNat < 2 ^ 64 := hend ▸ UInt64.toNat_lt _
    refine fun _ => ⟨h.nonneg h₀, by dsimp only; omega, hno, by omega, fun hl => ?_⟩
    rw [← UInt64.toNat_inj, hp.stop, hp.next]
    omega
  case page =>
    rw [hp.next, Nat.add_div_right _ (by decide), Nat.succ_sub_one]
    exact fun _ => ⟨q, rfl, hsolo, hlow⟩

theorem fileStep_wp (h : FileInv d i ph s x t) (hd : s.mm.mm.pgdir = d)
    (hva : ph.pVa.toNat < usertop) (hperm : perm < 1024) (hcow : has perm pteCow = false) :
    Code.Wp (fileStep i perm (ph.pVa + ph.pFilesz) x) t
      (fun e => e = .accessFault ∧ usertop < ph.pVa.toNat + ph.pFilesz.toNat)
      (Code.Turn (FileInv d i ph s) (fun y => (ph.pVa + ph.pFilesz).toNat - y.start.toNat)
        (fun r u => match r with
          | .inl ret => ret ≠ 0
          | .inr y => FileInv d i ph s y u ∧ ¬ y.start < ph.pVa + ph.pFilesz)
        ((ph.pVa + ph.pFilesz).toNat - x.start.toNat)) := by
  unfold fileStep
  split
  · rename_i hlt
    obtain ⟨hend, hla, hin, hbound⟩ := h.bounds hva hlt
    have hla' : x.la.toNat ≤ x.start.toNat := UInt64.le_iff_toNat_le.mp hla
    have hpgdir : t.mm.mm.pgdir = d := by rw [h.filled.mm, hd]
    refine ((allocSegment_wp h.filled.held hpgdir hbound hperm hcow).mono
      (fun e he => ⟨he.1, by omega⟩) fun _ _ ho => ho).bind fun o t₁ ho => ?_
    cases o with
    | none => exact h.ret
    | some q =>
      have hfresh := ho q rfl
      have hreach := hfresh.low
      have hpage := h.pos.lt_add
      have hp := partSize_pagePart hla hpage hreach hlt
      rw [UInt64.lt_iff_toNat_lt, hend] at hlt
      refine Code.Wp.mono ?_ (fun _ he => False.elim he) fun _ _ hq => hq
      refine (sysfileSeek_wp x.offset t₁).bind fun ret t₂ hseek => ?_
      split
      · rename_i hret
        exact hret
      · rename_i hret
        have hsought := hseek (not_not.mp hret)
        generalize partSize (x.start - x.la) (x.la + pageSize) (ph.pVa + ph.pFilesz) = size
          at hp ⊢
        have hsize := hp.count
        rw [hend] at hsize
        refine (sysfileRead_wp size.toNat t₂).bind ?_
        rintro ⟨ret, data⟩ t₃ ⟨hlen, hgot, hall⟩
        have hmem : t₃.mem = t₁.mem := hgot.beside.mem.trans hsought.beside.mem
        obtain ⟨f, hshows⟩ := hfresh.shows
        dsimp only at hlen hgot hall ⊢
        rw [hp.off]
        refine (writePage_wp (d := d) (v := x.la.toNat / pgsize) (by rw [hmem]; exact hshows.1)
          (by rw [hmem]; exact hfresh.solo) hreach (by omega)).bind fun _ t₄ hw => ?_
        obtain ⟨hsolo, ⟨m, rfl⟩, hset⟩ := hw
        split
        · refine Code.Wp.pure ?_
          change -eInvalElf ≠ 0
          decide
        · rename_i hread
          have hret' : ret = size.toNat := not_not.mp hread
          have hpos : 0 < size.toNat := by omega
          have hdlen : data.length = size.toNat := hall hret' hpos.ne'
          have hne : data ≠ [] := by
            rintro rfl
            rw [← hdlen] at hpos
            exact absurd hpos (lt_irrefl 0)
          obtain ⟨hbeside, hbytes, hdata⟩ := hsought.read hgot hne
          have hnonneg := h.nonneg hsought.nonneg
          have hbytes' : t₁.file.bytes = s.file.bytes := by rw [hfresh.file, h.filled.bytes]
          rw [hbytes'] at hdata hbytes
          have hfilled := h.filled.page h.pos hla' (n := size.toNat) (by omega) hreach
            (u := t₃.setMem m) (hbeside.mm.trans hfresh.mm) (hbeside.hasMm.trans hfresh.hasMm)
            (hbytes.trans h.filled.bytes.symm) (hbeside.mapped.trans hfresh.mapped)
            (by rw [hmem] at hset; exact hshows.again hset) fun a h₁ h₂ => by
              rw [← hdlen] at h₂
              exact readBytes_eq hdata h.offset hnonneg h.pos.va_le h.pos.aligned hla' (by omega)
                (by omega) h₁ h₂
          refine Code.Wp.pure ⟨h.next hend hp hla hpos hsought.nonneg hsought.lt hret' hreach
            hsolo hfilled, ?_⟩
          dsimp only
          rw [hp.stop, hend]
          omega
  · rename_i hlt
    exact ⟨h, hlt⟩

/-- The state after the loop. -/
structure FileDone (d i : ℕ) (ph : Proghdr) (s : Loader) (x : Vars) (t : Loader) : Prop where
  inv : FileInv d i ph s x t
  filled : ph.pVa.toNat + ph.pFilesz.toNat < 2 ^ 64 →
    x.start.toNat = ph.pVa.toNat + ph.pFilesz.toNat
  wraps : 2 ^ 64 ≤ ph.pVa.toNat + ph.pFilesz.toNat → x.start.toNat = ph.pVa.toNat

theorem FileInv.done (h : FileInv d i ph s x t) (hge : ¬ x.start < ph.pVa + ph.pFilesz) :
    FileDone d i ph s x t := by
  rw [UInt64.lt_iff_toNat_lt] at hge
  refine ⟨h, fun hno => ?_, fun hw => ?_⟩
  · rw [toNat_add_of_lt hno] at hge
    rcases h.pos.cases with ⟨h₁, -⟩ | ⟨h₁, -, -⟩
    · omega
    · have := (h.begun h₁).2.2.2.1
      omega
  · rcases h.pos.cases with ⟨h₁, -⟩ | ⟨h₁, -, -⟩
    · exact h₁
    · have := (h.begun h₁).2.2.1
      omega

theorem FileInv.refl (h : Held d s.mem) (page : Option ℕ) : FileInv d i ph s
    ⟨ph.pVa, roundDown ph.pVa pageSize, Sfs.offT ph.pOffset.toNat, page, -eNoMem⟩ s where
  pos := by
    rw [toNat_roundDown, toNat_pageSize]
    exact ⟨Nat.mul_mod_left _ _, .inl ⟨rfl, rfl⟩⟩
  filled := by
    rw [toNat_roundDown]
    exact .refl h i ph
  ret := by
    change -eNoMem ≠ 0
    decide
  offset := by simp
  begun hlt := absurd hlt (lt_irrefl _)
  page hlt := absurd hlt (lt_irrefl _)

theorem fileLoop_wp (h : Held d s.mem) (hd : s.mm.mm.pgdir = d) (hva : ph.pVa.toNat < usertop)
    (hperm : perm < 1024) (hcow : has perm pteCow = false) (page : Option ℕ) :
    Code.Wp (pageLoop (fileStep i perm) (ph.pVa + ph.pFilesz)
        ⟨ph.pVa, roundDown ph.pVa pageSize, Sfs.offT ph.pOffset.toNat, page, -eNoMem⟩) s
      (fun e => e = .accessFault ∧ usertop < ph.pVa.toNat + ph.pFilesz.toNat) fun r t =>
        match r with
        | .inl ret => ret ≠ 0
        | .inr x => FileDone d i ph s x t := by
  refine (Code.Wp.loop (FileInv d i ph s)
    (fun y => (ph.pVa + ph.pFilesz).toNat - y.start.toNat)
    (fun x t h => fileStep_wp h hd hva hperm hcow) (.refl h page) (Nat.lt_succ_self _)).mono
    (fun _ he => he) ?_
  rintro (ret | x) t hr
  · exact hr
  · exact hr.1.done hr.2

end File

/-! ## The zeros -/

section Zeros

variable {d i perm q : ℕ} {ph : Proghdr} {s t u : Loader} {x : Vars}

/-- How many bytes of memory a segment gets: those of the file only, when its end wraps around. -/
def Proghdr.size (ph : Proghdr) : ℕ :=
  if ph.pVa.toNat + ph.pMemsz.toNat < 2 ^ 64 then ph.pMemsz.toNat
  else if ph.pVa.toNat + ph.pFilesz.toNat < 2 ^ 64 then ph.pFilesz.toNat
  else 0

/-- All of the segment is in place. -/
def Loaded (d i : ℕ) (ph : Proghdr) (s t : Loader) : Prop :=
  ∃ la, Pos ph (ph.pVa.toNat + ph.size) la ∧ Filled d i ph s t (ph.pVa.toNat + ph.size) la

/-- The head of the loop over the pages of zeros. -/
structure ZeroInv (d i : ℕ) (ph : Proghdr) (s : Loader) (x : Vars) (t : Loader) : Prop where
  pos : Pos ph x.start.toNat x.la.toNat
  filled : Filled d i ph s t x.start.toNat x.la.toNat
  ret : x.ret ≠ 0
  inside : ph.pVa.toNat + ph.pMemsz.toNat < 2 ^ 64 →
    ph.pVa.toNat + ph.pFilesz.toNat ≤ x.start.toNat ∧
    x.start.toNat ≤ ph.pVa.toNat + ph.pMemsz.toNat ∧
    (x.start.toNat < ph.pVa.toNat + ph.pMemsz.toNat → x.la.toNat ≤ x.start.toNat)
  wraps : 2 ^ 64 ≤ ph.pVa.toNat + ph.pMemsz.toNat → x.start.toNat = ph.pVa.toNat + ph.size

/-- A segment that `mm_map` accepted. -/
structure Accepted (ph : Proghdr) : Prop where
  sizes : ph.pFilesz.toNat ≤ ph.pMemsz.toNat
  start : ph.pVa.toNat < usertop
  stop : ph.pVa.toNat + ph.pMemsz.toNat < 2 ^ 64 → ph.pVa.toNat + ph.pMemsz.toNat ≤ usertop

theorem Accepted.wraps (ha : Accepted ph) (h : usertop < ph.pVa.toNat + ph.pFilesz.toNat) :
    2 ^ 64 ≤ ph.pVa.toNat + ph.pMemsz.toNat := by
  by_contra hno
  have hstop := ha.stop (Nat.lt_of_not_le hno)
  have hsizes := ha.sizes
  omega

/-- The only panics while the pages are loaded, of a segment whose end wraps around. -/
def Overruns (ph : Proghdr) (e : Panic) : Prop :=
  (e = .overrun ∨ e = .accessFault) ∧ 2 ^ 64 ≤ ph.pVa.toNat + ph.pMemsz.toNat

theorem FileDone.wraps_size (h : FileDone d i ph s x t)
    (hw : 2 ^ 64 ≤ ph.pVa.toNat + ph.pMemsz.toNat) : x.start.toNat = ph.pVa.toNat + ph.size := by
  unfold Proghdr.size
  rw [if_neg (Nat.not_lt.mpr hw)]
  split
  · rename_i hno
    exact h.filled hno
  · rename_i hno
    exact h.wraps (Nat.le_of_not_lt hno)

theorem FileDone.bounds (h : FileDone d i ph s x t) (ha : Accepted ph) (hlt : x.start < x.la) :
    ph.pVa.toNat < x.start.toNat ∧ x.start.toNat < x.la.toNat ∧
      x.la.toNat < x.start.toNat + pgsize ∧ x.start.toNat = ph.pVa.toNat + ph.pFilesz.toNat ∧
      x.la.toNat / pgsize ≤ reach ∧
      (x.start + pageSize - x.la).toNat = x.start.toNat + pgsize - x.la.toNat := by
  rw [UInt64.lt_iff_toNat_lt] at hlt
  have hb : ph.pVa.toNat < x.start.toNat ∧ x.la.toNat < x.start.toNat + pgsize := by
    rcases h.inv.pos.cases with ⟨h₁, h₂⟩ | ⟨h₁, -, h₂⟩
    · have := Nat.div_mul_le_self ph.pVa.toNat pgsize
      omega
    · exact ⟨h₁, h₂⟩
  have hstart := ha.start
  obtain ⟨h₀, h₁, h₂, -⟩ := h.inv.begun hb.1
  rw [h.inv.offset] at h₁
  have hmax : x.start.toNat ≤ ph.pVa.toNat + Sfs.sfsMaxFileSize + pgsize := by omega
  have hadd : (x.start + pageSize).toNat = x.start.toNat + pgsize := by
    refine toNat_add_of_lt ?_
    rw [toNat_pageSize]
    unfold usertop Sfs.sfsMaxFileSize pgsize at *
    omega
  obtain ⟨-, -, -, hreach⟩ := h.inv.page hb.1
  refine ⟨hb.1, hlt, hb.2, h.filled h₂, hreach, ?_⟩
  rw [UInt64.toNat_sub_of_le, hadd]
  rw [UInt64.le_iff_toNat_le, hadd]
  exact hb.2.le

theorem zeroBytes_eq {f : ℕ → ℕ} {start la n a : ℕ} (hp : Pos ph start la)
    (hend : start = ph.pVa.toNat + ph.pFilesz.toNat)
    (hn : start + n ≤ la) (hla : la < start + pgsize) (hlt : a < start + n)
    (hpage : a / pgsize = la / pgsize - 1)
    (hold : a < start → some (loadByte f (a % pgsize)) = ph.byte s.file.bytes a) :
    some (loadByte (setBytes f (start + pgsize - la) n fun _ => 0) (a % pgsize)) =
      ph.byte s.file.bytes a := by
  have hal := hp.aligned
  have hmod : a % pgsize + la = a + pgsize := by
    unfold pgsize at *
    omega
  rw [loadByte_setBytes fun _ => by decide]
  by_cases has : a < start
  · rw [if_neg (by omega), hold has]
  · rw [if_pos (by omega), Proghdr.byte, if_neg (by omega)]

/-- The rest of the last page of the file, when there is one. -/
theorem FileDone.zeros (h : FileDone d i ph s x t) (ha : Accepted ph) (hlt : x.start < x.la)
    (hno : ph.pVa.toNat + ph.pMemsz.toNat < 2 ^ 64) :
    Code.Wp (do
      let off := x.start + pageSize - x.la
      let size := partSize off x.la (ph.pVa + ph.pMemsz)
      writePage x.page off.toNat size.toNat fun _ => 0
      let start := x.start + size
      Code.assert (fun _ => (ph.pVa + ph.pMemsz < x.la ∧ start = ph.pVa + ph.pMemsz) ∨
        (x.la ≤ ph.pVa + ph.pMemsz ∧ start = x.la)) (.bss ph)
      return some { x with start := start }) t (fun _ => False) fun o u =>
        ∃ y, o = some y ∧ ZeroInv d i ph s y u := by
  obtain ⟨hva, hltn, hpage, hend, hreach, hoff⟩ := h.bounds ha hlt
  obtain ⟨q, hq, hsolo, -⟩ := h.inv.page hva
  have hmem : (ph.pVa + ph.pMemsz).toNat = ph.pVa.toNat + ph.pMemsz.toNat := toNat_add_of_lt hno
  have hsizes := ha.sizes
  have hsize : (partSize (x.start + pageSize - x.la) x.la (ph.pVa + ph.pMemsz)).toNat =
      min x.la.toNat (ph.pVa.toNat + ph.pMemsz.toNat) - x.start.toNat := by
    rw [toNat_partSize (by omega) (by omega), hmem, hoff]
    omega
  have hlast : x.la.toNat / pgsize - 1 < reach := by
    unfold pgsize reach at *
    omega
  dsimp only
  generalize partSize (x.start + pageSize - x.la) x.la (ph.pVa + ph.pMemsz) = size at hsize ⊢
  rw [hoff, hq]
  refine (writePage_wp h.inv.filled.held hsolo hlast (by omega)).bind ?_
  rintro - u ⟨hsolo', ⟨m, rfl⟩, hset⟩
  have hstart : (x.start + size).toNat = x.start.toNat + size.toNat := by
    refine toNat_add_of_lt ?_
    have := x.la.toNat_lt
    omega
  refine .bind_assert (fun _ => ?_) fun hn => hn ?_
  · refine ⟨_, rfl, ⟨⟨h.inv.pos.aligned, .inr ?_⟩, ?_, h.inv.ret, fun _ => ?_, fun hw => ?_⟩⟩
    · dsimp only
      rw [hstart]
      omega
    · rw [hstart]
      refine h.inv.filled.more h.inv.pos hltn (by omega) hreach rfl rfl rfl rfl hset
        fun a hva' hlt' hpage' => zeroBytes_eq h.inv.pos hend (by omega) hpage hlt' hpage'
          fun has => ?_
      obtain ⟨f, hf, hb⟩ := h.inv.filled.data a hva' has
      rw [hpage', hsolo.view] at hf
      rw [Option.some.inj hf, hb]
    · dsimp only
      rw [hstart]
      omega
    · exact absurd hno (Nat.not_lt.mpr hw)
  · simp only [UInt64.lt_iff_toNat_lt, UInt64.le_iff_toNat_le, ← UInt64.toNat_inj, hstart, hmem]
    omega

/-- When the end of the segment wraps around, the zeros run past the page. -/
theorem FileDone.overruns (h : FileDone d i ph s x t) (ha : Accepted ph) (hlt : x.start < x.la)
    (hw : 2 ^ 64 ≤ ph.pVa.toNat + ph.pMemsz.toNat) (c : ℕ → ℕ) :
    writePage x.page (x.start + pageSize - x.la).toNat
      (partSize (x.start + pageSize - x.la) x.la (ph.pVa + ph.pMemsz)).toNat c t =
        .error .overrun := by
  obtain ⟨hva, hltn, hpage, hend, hreach, hoff⟩ := h.bounds ha hlt
  obtain ⟨q, hq, -⟩ := h.inv.page hva
  have hmem := toNat_add_wrap hw
  have hmlt := ph.pMemsz.toNat_lt
  have hsub : (pageSize - (x.start + pageSize - x.la)).toNat = x.la.toNat - x.start.toNat := by
    rw [UInt64.toNat_sub_of_le, hoff, toNat_pageSize]
    · omega
    · rw [UInt64.le_iff_toNat_le, hoff, toNat_pageSize]
      omega
  have hrest : (x.la - (ph.pVa + ph.pMemsz)).toNat =
      x.la.toNat - (ph.pVa + ph.pMemsz).toNat := by
    refine UInt64.toNat_sub_of_le _ _ ?_
    rw [UInt64.le_iff_toNat_le]
    omega
  have hbig : pgsize < (partSize (x.start + pageSize - x.la) x.la (ph.pVa + ph.pMemsz)).toNat := by
    unfold partSize
    dsimp only
    rw [if_pos, UInt64.toNat_sub, hsub, hrest]
    · have hlim : x.la.toNat < 2 ^ 33 := by
        unfold reach pgsize at *
        omega
      unfold pgsize at *
      omega
    · rw [UInt64.lt_iff_toNat_lt]
      omega
  rw [hq]
  refine if_neg ?_
  omega

theorem zeroRest_wp (h : FileDone d i ph s x t) (ha : Accepted ph) :
    Code.Wp (zeroRest ph (ph.pVa + ph.pMemsz) x) t (Overruns ph) fun o u =>
      match o with
      | none => Loaded d i ph s u
      | some y => ZeroInv d i ph s y u := by
  unfold zeroRest
  have hsizes := ha.sizes
  rcases Nat.lt_or_ge (ph.pVa.toNat + ph.pMemsz.toNat) (2 ^ 64) with hno | hw
  · have hsize : ph.size = ph.pMemsz.toNat := if_pos hno
    split
    · rename_i hlt
      split
      · rename_i he
        have hs : x.start.toNat = ph.pVa.toNat + ph.size := by
          rw [he, toNat_add_of_lt hno, hsize]
        exact ⟨x.la.toNat, hs ▸ h.inv.pos, hs ▸ h.inv.filled⟩
      · refine (h.zeros ha hlt hno).mono (fun _ he => he.elim) ?_
        rintro _ u ⟨y, rfl, hy⟩
        exact hy
    · rename_i hge
      rw [UInt64.lt_iff_toNat_lt] at hge
      have hf := h.filled (by omega)
      exact ⟨h.inv.pos, h.inv.filled, h.inv.ret, fun _ => by omega,
        fun hw => absurd hno (Nat.not_lt.mpr hw)⟩
  · have hend := toNat_add_wrap hw
    split
    · rename_i hlt
      rw [if_neg]
      · refine .of_error (Code.bind_error ?_) ⟨.inl rfl, hw⟩
        exact h.overruns ha hlt hw _
      · intro he
        have hva := (h.bounds ha hlt).1
        have := ph.pMemsz.toNat_lt
        rw [he] at hva
        omega
    · exact ⟨h.inv.pos, h.inv.filled, h.inv.ret, fun hno => absurd hno (Nat.not_lt.mpr hw),
        fun _ => h.wraps_size hw⟩

theorem ZeroInv.bounds (h : ZeroInv d i ph s x t) (ha : Accepted ph)
    (hlt : x.start < ph.pVa + ph.pMemsz) :
    (ph.pVa + ph.pMemsz).toNat = ph.pVa.toNat + ph.pMemsz.toNat ∧ x.la ≤ x.start ∧
      ph.pVa.toNat + ph.pFilesz.toNat ≤ x.start.toNat ∧ x.la.toNat < usertop := by
  have hend := toNat_add_of_between h.pos.va_le hlt
  rw [UInt64.lt_iff_toNat_lt, hend] at hlt
  have hno : ph.pVa.toNat + ph.pMemsz.toNat < 2 ^ 64 := hend ▸ UInt64.toNat_lt _
  obtain ⟨hfile, -, hla⟩ := h.inside hno
  have hla := hla hlt
  have hstop := ha.stop hno
  exact ⟨hend, UInt64.le_iff_toNat_le.mpr hla, hfile, by omega⟩

theorem ZeroInv.next {size : UInt64} {page : Option ℕ} (h : ZeroInv d i ph s x t)
    (hend : (ph.pVa + ph.pMemsz).toNat = ph.pVa.toNat + ph.pMemsz.toNat)
    (hp : PagePart x.start x.la (ph.pVa + ph.pMemsz) size) (hla : x.la ≤ x.start)
    (hlt : x.start < ph.pVa + ph.pMemsz)
    (hfilled : Filled d i ph s u (x.start.toNat + size.toNat) (x.la.toNat + pgsize)) :
    ZeroInv d i ph s ⟨x.start + size, x.la + pageSize, x.offset, page, x.ret⟩ u := by
  have hsize := hp.count
  have hno : ph.pVa.toNat + ph.pMemsz.toNat < 2 ^ 64 := hend ▸ UInt64.toNat_lt _
  have hfile := (h.inside hno).1
  have hpage := h.pos.lt_add
  rw [UInt64.le_iff_toNat_le] at hla
  rw [UInt64.lt_iff_toNat_lt] at hlt
  constructor
  case pos =>
    rw [hp.stop, hp.next]
    exact h.pos.next hla (by omega) (by omega)
  case filled =>
    rw [hp.stop, hp.next]
    exact hfilled
  case ret => exact h.ret
  case inside =>
    rw [hp.stop, hp.next]
    exact fun _ => by omega
  case wraps => exact fun hw => absurd hno (Nat.not_lt.mpr hw)

theorem bssStep_wp (h : ZeroInv d i ph s x t) (hd : s.mm.mm.pgdir = d) (ha : Accepted ph)
    (hperm : perm < 1024) (hcow : has perm pteCow = false) :
    Code.Wp (bssStep i perm (ph.pVa + ph.pMemsz) x) t (fun _ => False)
      (Code.Turn (ZeroInv d i ph s) (fun y => (ph.pVa + ph.pMemsz).toNat - y.start.toNat)
        (fun r u => match r with
          | .inl ret => ret ≠ 0
          | .inr y => ZeroInv d i ph s y u ∧ ¬ y.start < ph.pVa + ph.pMemsz)
        ((ph.pVa + ph.pMemsz).toNat - x.start.toNat)) := by
  unfold bssStep
  split
  · rename_i hlt
    obtain ⟨hend, hla, hfile, htop⟩ := h.bounds ha hlt
    have hreach := reach_of_lt htop
    have hpgdir : t.mm.mm.pgdir = d := by rw [h.filled.mm, hd]
    refine ((allocSegment_wp h.filled.held hpgdir (htop.trans (by decide)) hperm hcow).mono
      (fun e he => absurd htop (Nat.not_lt.mpr he.2)) fun _ _ ho => ho).bind fun o t₁ ho => ?_
    cases o with
    | none => exact h.ret
    | some q =>
      have hfresh := ho q rfl
      have hpage := h.pos.lt_add
      have hp := partSize_pagePart hla hpage hreach hlt
      dsimp only
      generalize partSize (x.start - x.la) (x.la + pageSize) (ph.pVa + ph.pMemsz) = size at hp ⊢
      have hsize := hp.count
      have hlt' := UInt64.lt_iff_toNat_lt.mp hlt
      have hla' : x.la.toNat ≤ x.start.toNat := UInt64.le_iff_toNat_le.mp hla
      obtain ⟨f, hshows⟩ := hfresh.shows
      rw [hp.off]
      refine (writePage_wp hshows.1 hfresh.solo hreach (by omega)).bind ?_
      rintro - u ⟨-, ⟨m, rfl⟩, hset⟩
      have hfilled := h.filled.page h.pos hla' (n := size.toNat) (by omega) hreach
        (u := t₁.setMem m) hfresh.mm hfresh.hasMm (congrArg File.bytes hfresh.file) hfresh.mapped
        (hshows.again hset) fun a h₁ h₂ => by
          have hmod : a % pgsize = x.start.toNat - x.la.toNat + (a - x.start.toNat) := by
            have := h.pos.aligned
            unfold pgsize at *
            omega
          rw [loadByte_setBytes fun _ => by decide, hmod, if_pos (by omega), Proghdr.byte,
            if_neg (by omega)]
      refine Code.Wp.pure ⟨h.next hend hp hla hlt hfilled, ?_⟩
      dsimp only
      rw [hp.stop]
      omega
  · rename_i hlt
    exact ⟨h, hlt⟩

theorem bssLoop_wp (h : ZeroInv d i ph s x t) (hd : s.mm.mm.pgdir = d) (ha : Accepted ph)
    (hperm : perm < 1024) (hcow : has perm pteCow = false) :
    Code.Wp (pageLoop (bssStep i perm) (ph.pVa + ph.pMemsz) x) t (fun _ => False) fun r u =>
      match r with
      | .inl ret => ret ≠ 0
      | .inr _ => Loaded d i ph s u := by
  refine (Code.Wp.loop (ZeroInv d i ph s)
    (fun y => (ph.pVa + ph.pMemsz).toNat - y.start.toNat)
    (fun x t h => bssStep_wp h hd ha hperm hcow) h (Nat.lt_succ_self _)).mono (fun _ he => he) ?_
  rintro (ret | y) u hr
  · exact hr
  · obtain ⟨hy, hge⟩ := hr
    rw [UInt64.lt_iff_toNat_lt] at hge
    have hs : y.start.toNat = ph.pVa.toNat + ph.size := by
      rcases Nat.lt_or_ge (ph.pVa.toNat + ph.pMemsz.toNat) (2 ^ 64) with hno | hw
      · have := hy.inside hno
        rw [toNat_add_of_lt hno] at hge
        rw [Proghdr.size, if_pos hno]
        omega
      · exact hy.wraps hw
    exact ⟨y.la.toNat, hs ▸ hy.pos, hs ▸ hy.filled⟩

theorem loadPages_wp (h : Held d s.mem) (hd : s.mm.mm.pgdir = d) (ha : Accepted ph)
    (page : Option ℕ) : Code.Wp (loadPages i ph page) s (Overruns ph) fun r t =>
      match r with
      | .inl ret => ret ≠ 0
      | .inr _ => Loaded d i ph s t := by
  obtain ⟨hperm, hcow⟩ := segmentPerm_spec ph.vmFlags
  unfold loadPages
  refine ((fileLoop_wp h hd ha.start hperm hcow page).mono (fun e he => ⟨.inr he.1, ha.wraps he.2⟩)
    fun _ _ hr => hr).bind ?_
  rintro (ret | x) t hr
  · exact hr
  · refine (zeroRest_wp hr ha).bind ?_
    rintro (_ | y) u hy
    · exact hy
    · refine ((bssLoop_wp hy hd ha hperm hcow).mono (fun _ he => he.elim) fun _ _ hr => hr).bind ?_
      rintro (ret | z) v hz
      · exact hz
      · exact hz

end Zeros

end UCore.LoadIcode

import UCore.Sfs.Reading
import UCore.Vfs.Boot

/-! # Listing a directory

Successive calls of `file_getdirentry` list the used slots of a directory, each of them once.
-/

namespace UCore.Vfs

open Library Sfs

section Slots

variable {s : Fs} {sin i n : ℕ}

/-- The entry in a slot of a directory. -/
def entryAt (s : Fs) (sin i : ℕ) : Entry :=
  ⟨getU32 (s.disk (s.slot sin i)), cString (fun x => s.disk (s.slot sin i) (4 + x)) sfsMaxFnameLen⟩

/-- The entries in the used ones of `n` slots from `i` on. -/
def usedFrom (s : Fs) (sin n i : ℕ) : List Entry :=
  ((List.range' i n).map (entryAt s sin)).filter fun e => e.ino ≠ 0

/-- The entries of a directory in the order of its slots. -/
def usedEntries (s : Fs) (sin : ℕ) : List Entry := usedFrom s sin (s.din sin).blocks 0

theorem usedFrom_succ : usedFrom s sin (n + 1) i =
    if (entryAt s sin i).ino = 0 then usedFrom s sin n (i + 1)
    else entryAt s sin i :: usedFrom s sin n (i + 1) := by
  unfold usedFrom
  rw [List.range'_succ, List.map_cons, List.filter_cons]
  by_cases h : (entryAt s sin i).ino = 0 <;> simp [h]

theorem usedEntries_length : (usedEntries s sin).length ≤ (s.din sin).blocks := by
  have h := List.length_filter_le (fun e : Entry => decide (e.ino ≠ 0))
    ((List.range' 0 (s.din sin).blocks).map (entryAt s sin))
  rwa [List.length_map, List.length_range'] at h

theorem cString_congr {b d : Buf} (h : ∀ x < n, b x = d x) : cString b n = cString d n := by
  unfold cString
  congr 1
  exact List.map_congr_left fun x hx => h x (List.mem_range.mp hx)

end Slots

section Call

variable {k : Kernel} {cur fd p sin i n j : ℕ} {offset : ℤ}

/-- A directory that can be read: its transfers and its memory are there. -/
structure Directory (k : Kernel) (sin : ℕ) : Prop where
  type : (k.fs.din sin).type = sfsTypeDir
  slots : (k.fs.din sin).blocks ≤ maxBlocks
  legible : Legible k.fs sin
  kmallocs : k.kmallocs = []

theorem sfsDirentReadNolock_eq (h : Directory k sin) (hi : i < (k.fs.din sin).blocks) :
    sfsDirentReadNolock sin i k = .ok ((0, entryAt k.fs sin i), k) := by
  have hload := sfsBmapLoadNolock_read h.legible hi (hi.trans_le h.slots)
  obtain ⟨-, huse⟩ := h.legible.slots i hi (hi.trans_le h.slots)
  have hload' : volume (sfsBmapLoadNolock sin i) k = .ok ((0, k.fs.slot sin i), k) := by
    unfold volume
    rw [hload]
    rfl
  have huse' : volume (assertInuse (k.fs.slot sin i)) k = .ok ((), k) := by
    unfold volume
    rw [assertInuse_ok h.legible.bits huse]
    rfl
  have hread : volume (sfsRbuf zeros 0 sizeofDiskEntry (k.fs.slot sin i) 0) k =
      .ok ((0, memcpy zeros 0 (k.fs.disk (k.fs.slot sin i)) 0 sizeofDiskEntry), k) := by
    unfold volume
    rw [sfsRbuf_read h.legible.quiet huse (by decide) (by decide)]
    rfl
  refine Eq.trans (Code.assert_bind ⟨h.type, hi⟩) (Eq.trans (Code.bind_ok hload') ?_)
  dsimp only
  rw [if_neg (by simp)]
  refine Eq.trans (Code.bind_ok huse') (Eq.trans (Code.bind_ok hread) ?_)
  have hino : getU32 (memcpy zeros 0 (k.fs.disk (k.fs.slot sin i)) 0 sizeofDiskEntry) =
      getU32 (k.fs.disk (k.fs.slot sin i)) := getU32_congr fun x hx => by
    rw [memcpy_start (by unfold sizeofDiskEntry; omega), zero_add]
  have hname :
    cString (fun x => memcpy zeros 0 (k.fs.disk (k.fs.slot sin i)) 0 sizeofDiskEntry (4 + x))
      sfsMaxFnameLen = cString (fun x => k.fs.disk (k.fs.slot sin i) (4 + x)) sfsMaxFnameLen := by
    refine cString_congr fun x hx => ?_
    unfold sfsMaxFnameLen at hx
    rw [memcpy_start (by unfold sizeofDiskEntry; omega), zero_add]
  rw [hino, hname]
  rfl

theorem getdirentryLoop_eq (h : Directory k sin) (hn : i + n = (k.fs.din sin).blocks) :
    getdirentryLoop sin n i j k = .ok (match (usedFrom k.fs sin n i)[j]? with
      | some e => (0, e)
      | none => (-eNoent, ⟨0, []⟩), k) := by
  induction n generalizing i j with
  | zero => rfl
  | succ n ih =>
    rw [usedFrom_succ]
    unfold getdirentryLoop
    refine Eq.trans (Code.bind_ok (sfsDirentReadNolock_eq h (by omega))) ?_
    dsimp only
    rw [if_neg (by simp)]
    split
    · exact ih (by omega)
    · cases j with
      | zero => rfl
      | succ j => exact ih (by omega)

/-- The name and the new offset for the used slot with the number. -/
def listed (l : List Entry) (j : ℕ) : ℤ × ℕ × Str :=
  match l[j]? with
  | some e => (0, sfsDentrySize, e.name)
  | none => (-eNoent, 0, [])

theorem sfsGetdirentry_eq (h : Directory k sin) (hj : j ≤ (k.fs.din sin).blocks) :
    sfsGetdirentry sin (j * sfsDentrySize : ℕ) k = .ok (listed (usedEntries k.fs sin) j, k) := by
  have hk : kmalloc k = .ok (true, k) := by
    unfold kmalloc
    rw [h.kmallocs]
    congr 2
    rw [List.tail_nil, ← h.kmallocs]
  have hslots := h.slots
  have hM : maxBlocks = 1036 := rfl
  have hslot : (((j * sfsDentrySize : ℕ) : ℤ) / sfsDentrySize).toNat % 2 ^ 32 = j := by
    unfold sfsDentrySize
    rw [← Int.natCast_ediv, Int.toNat_natCast, Nat.mul_div_cancel _ (by decide)]
    exact Nat.mod_eq_of_lt (by omega)
  unfold sfsGetdirentry
  refine Eq.trans (Code.bind_ok hk) ?_
  rw [if_pos rfl, hslot, if_neg (by unfold sfsDentrySize; push_cast; omega)]
  refine Eq.trans Code.get_bind ?_
  rw [if_neg (by omega)]
  refine Eq.trans Code.get_bind (Eq.trans (Code.bind_ok (getdirentryLoop_eq h (zero_add _))) ?_)
  unfold listed usedEntries
  cases (usedFrom k.fs sin (k.fs.din sin).blocks 0)[j]? with
  | none => rfl
  | some e => rfl

/-- The descriptor is of a directory that can be read, and its counts are in order. -/
structure Listing (k : Kernel) (cur : ℕ) (fd : ℤ) (sin : ℕ) : Prop where
  directory : Directory k sin
  range : 0 ≤ fd ∧ fd < filesStructNentry
  opened : ∃ t p n, k.files cur = some t ∧ (t.fdArray fd.toNat).status = .opened ∧
    0 < (t.fdArray fd.toNat).openCount ∧ (t.fdArray fd.toNat).node = some p ∧
    k.inode p = some n ∧ n.info = .sfs sin ∧ n.ops = .dir ∧ n.Ordered ∧
    n.refCount < maxInodeCount ∧ n.openCount < maxInodeCount

/-- The result of a call of `file_getdirentry` at the offset after `j` names. -/
def direntry (l : List Entry) (j : ℕ) : ℤ × ℤ × Str :=
  match l[j]? with
  | some e => (0, ((j + 1) * sfsDentrySize : ℕ), e.name)
  | none => (-eNoent, (j * sfsDentrySize : ℕ), [])

theorem vopGetdirentry_eq {p : ℕ} {m : Inode} (h : Directory k sin) (hm : k.inode p = some m)
    (hi : m.info = .sfs sin) (hd : m.ops = .dir) (ho : m.Ordered)
    (hl : m.refCount < maxInodeCount ∧ m.openCount < maxInodeCount)
    (hj : j ≤ (k.fs.din sin).blocks) :
    vopGetdirentry p (j * sfsDentrySize : ℕ) k = .ok (listed (usedEntries k.fs sin) j, k) := by
  have hop : vopOp p .vopGetdirentry k = .ok (m, k) := vopOp_eq hm (by rw [hd]; rfl) ho hl
  refine Eq.trans (Code.bind_ok hop) ?_
  rw [hi]
  exact sfsGetdirentry_eq h hj

theorem offT_names (hj : j ≤ maxBlocks) :
    offT ((j * sfsDentrySize : ℕ) + sfsDentrySize) = ((j + 1) * sfsDentrySize : ℕ) := by
  have hM : maxBlocks = 1036 := rfl
  unfold offT sfsDentrySize
  rw [Int.bmod_eq_of_le] <;> omega

/-- A call reads the used slot with the number, and it leaves the kernel as it was. -/
theorem fileGetdirentry_eq {fd : ℤ} (h : Listing k cur fd sin) (hj : j ≤ (k.fs.din sin).blocks) :
    fileGetdirentry cur fd (j * sfsDentrySize : ℕ) k =
    .ok (direntry (usedEntries k.fs sin) j, k) := by
  obtain ⟨t, p, m, ht, hs, hpos, hp, hm, hi, hd, ho, hl⟩ := h.opened
  have hfd : fd2file cur fd k = .ok ((0, fd.toNat), k) := by
    refine Eq.trans (Code.bind_ok (filesAt_eq ht)) ?_
    rw [if_pos ⟨h.range.1, h.range.2, hs⟩]
    rfl
  -- the kernel while the file is acquired
  obtain ⟨file, hfile⟩ : ∃ file : File, file = { t.fdArray fd.toNat with
    openCount := (t.fdArray fd.toNat).openCount + 1 } := ⟨_, rfl⟩
  obtain ⟨k₁, hk₁⟩ : ∃ k₁, k₁ = k.setFiles cur (some (t.set fd.toNat file)) := ⟨_, rfl⟩
  have ht₁ : k₁.files cur = some (t.set fd.toNat file) := by rw [hk₁, setFiles_files]
  have hget : (t.set fd.toNat file).fdArray fd.toNat = file := Function.update_self ..
  have hacquire : fdArrayAcquire cur fd.toNat k = .ok ((), k₁) := by
    refine Eq.trans (Code.bind_ok (fileAt_eq ht)) (Eq.trans (Code.assert_bind hs) ?_)
    rw [setFile_eq ht, hk₁, hfile]
  have hd₁ : Directory k₁ sin := by
    rw [hk₁]
    exact ⟨h.directory.type, h.directory.slots, h.directory.legible, h.directory.kmallocs⟩
  have hm₁ : k₁.inode p = some m := by
    rw [hk₁]
    exact hm
  have hfs : k₁.fs = k.fs := by
    rw [hk₁]
    rfl
  have hread := vopGetdirentry_eq (j := j) hd₁ hm₁ hi hd ho hl (by rwa [hfs])
  have hnode : nodeOf file k₁ = .ok (p, k₁) := by
    unfold nodeOf
    rw [hfile]
    dsimp only
    rw [hp]
    rfl
  have hbody : getdirentryBody cur fd.toNat (j * sfsDentrySize : ℕ) k₁ =
      .ok (direntry (usedEntries k.fs sin) j, k₁) := by
    refine Eq.trans (Code.bind_ok (fileAt_eq ht₁)) ?_
    rw [hget]
    refine Eq.trans (Code.bind_ok hnode) (Eq.trans (Code.bind_ok hread) ?_)
    rw [hfs]
    unfold listed direntry
    cases (usedEntries k.fs sin)[j]? with
    | none => rfl
    | some e =>
      dsimp only
      rw [if_pos rfl, offT_names (hj.trans h.directory.slots)]
      rfl
  have hrelease : fdArrayRelease cur fd.toNat k₁ = .ok ((), k) := by
    refine Eq.trans (Code.bind_ok (fileAt_eq ht₁)) ?_
    rw [hget]
    refine Eq.trans (Code.assert_bind (.inl (by rw [hfile]; exact hs))) ?_
    refine Eq.trans (Code.assert_bind (by rw [hfile]; dsimp only; omega)) ?_
    refine Eq.trans (Code.bind_ok (setFile_eq ht₁)) ?_
    rw [if_neg (by rw [hfile]; dsimp only; omega), set_set, hk₁, setFiles_setFiles]
    have hback : t.set fd.toNat { file with openCount := file.openCount - 1 } = t := by
      rw [hfile]
      dsimp only
      rw [add_sub_cancel_right]
      unfold Files.set
      rw [Function.update_eq_self]
    rw [hback]
    unfold Kernel.setFiles
    rw [← ht, Function.update_eq_self]
    rfl
  refine Eq.trans (Code.bind_ok hfd) ?_
  dsimp only
  rw [if_neg (by simp)]
  refine Eq.trans (Code.bind_ok hacquire) (Eq.trans (Code.bind_ok hbody) ?_)
  exact Eq.trans (Code.bind_ok hrelease) rfl

/-- Successive calls of `file_getdirentry`, each of them from the offset that the one before has
left. -/
def getdirentries (cur : ℕ) (fd : ℤ) : ℕ → ℤ → Prog (List (ℤ × ℤ × Str))
  | 0, _ => return []
  | n + 1, offset => do
    let r ← fileGetdirentry cur fd offset
    let l ← getdirentries cur fd n r.2.1
    return r :: l

theorem getdirentries_eq {fd : ℤ} (h : Listing k cur fd sin)
    (hn : j + n = (usedEntries k.fs sin).length) :
    getdirentries cur fd (n + 1) (j * sfsDentrySize : ℕ) k =
      .ok ((List.range' j (n + 1)).map (direntry (usedEntries k.fs sin)), k) := by
  have hle : (usedEntries k.fs sin).length ≤ (k.fs.din sin).blocks := usedEntries_length
  induction n generalizing j with
  | zero => exact Eq.trans (Code.bind_ok (fileGetdirentry_eq h (by omega))) rfl
  | succ n ih =>
    refine Eq.trans (Code.bind_ok (fileGetdirentry_eq h (by omega))) ?_
    have hlt : j < (usedEntries k.fs sin).length := by omega
    have hj : (usedEntries k.fs sin)[j]? = some (usedEntries k.fs sin)[j] :=
      List.getElem?_eq_getElem hlt
    have hoff : (direntry (usedEntries k.fs sin) j).2.1 = ((j + 1) * sfsDentrySize : ℕ) := by
      unfold direntry
      rw [hj]
    rw [hoff]
    exact Eq.trans (Code.bind_ok (ih (by omega))) rfl

/-- The calls from the start of a directory return the names of its used slots in their order, each
with the offset one name further, and the call after the last name returns `-E_NOENT`. -/
theorem getdirentries_lists {fd : ℤ} (h : Listing k cur fd sin) :
    ∃ l, getdirentries cur fd ((usedEntries k.fs sin).length + 1) 0 k = .ok (l, k) ∧
      l.length = (usedEntries k.fs sin).length + 1 ∧
      (∀ i e, (usedEntries k.fs sin)[i]? = some e →
        l[i]? = some (0, (((i + 1) * sfsDentrySize : ℕ) : ℤ), e.name)) ∧
      l[(usedEntries k.fs sin).length]? =
        some (-eNoent, (((usedEntries k.fs sin).length * sfsDentrySize : ℕ) : ℤ), []) := by
  have hrun := getdirentries_eq (j := 0) h (zero_add _)
  rw [Nat.zero_mul] at hrun
  have hget : ∀ i, i < (usedEntries k.fs sin).length + 1 →
      ((List.range' 0 ((usedEntries k.fs sin).length + 1)).map
        (direntry (usedEntries k.fs sin)))[i]? =
        some (direntry (usedEntries k.fs sin) i) := by
    intro i hi
    rw [List.getElem?_map, List.getElem?_range' hi]
    simp
  refine ⟨_, hrun, by rw [List.length_map, List.length_range'], fun i e he => ?_, ?_⟩
  · obtain ⟨hi, -⟩ := List.getElem?_eq_some_iff.mp he
    rw [hget i (by omega)]
    unfold direntry
    rw [he]
  · rw [hget _ (Nat.lt_succ_self _)]
    unfold direntry
    rw [List.getElem?_eq_none le_rfl]

end Call

section Exec

variable {k : Kernel} {cur p sin : ℕ} {fd : ℤ}

/-- The descriptor is of a directory that can be read, as a test. -/
def listingTest (k : Kernel) (cur : ℕ) (fd : ℤ) (p sin : ℕ) : Bool :=
  decide ((k.fs.din sin).type = sfsTypeDir ∧ (k.fs.din sin).blocks ≤ maxBlocks ∧
    k.fs.transfers = [] ∧
    k.fs.blocks ≤ k.fs.nbits ∧ (k.fs.din sin).indirect = 0 ∧ k.kmallocs = [] ∧
    0 ≤ fd ∧ fd < filesStructNentry) &&
  decide (∀ i < (k.fs.din sin).blocks, k.fs.slot sin i ≠ 0 ∧ k.fs.slot sin i < k.fs.blocks ∧
    k.fs.freemap (k.fs.slot sin i) = false) &&
  decide ((k.files cur).map (fun t => decide ((t.fdArray fd.toNat).status = .opened ∧
    0 < (t.fdArray fd.toNat).openCount ∧ (t.fdArray fd.toNat).node = some p)) = some true) &&
  decide ((k.inode p).map (fun n => decide (n.info = .sfs sin ∧ n.ops = .dir ∧
    (n.openCount ≤ n.refCount ∧ 0 ≤ n.openCount) ∧ n.refCount < maxInodeCount ∧
    n.openCount < maxInodeCount)) = some true)

theorem listing_of_test (h : listingTest k cur fd p sin = true) : Listing k cur fd sin := by
  unfold listingTest at h
  simp only [Bool.and_eq_true, decide_eq_true_eq] at h
  obtain ⟨⟨⟨⟨htype, hslots, hquiet, hbits, hind, hk, hfd⟩, huse⟩, hfile⟩, hnode⟩ := h
  obtain ⟨t, ht, hx⟩ := Option.map_eq_some_iff.mp hfile
  obtain ⟨n, hn, hy⟩ := Option.map_eq_some_iff.mp hnode
  obtain ⟨hs, hpos, hp⟩ := of_decide_eq_true hx
  obtain ⟨hi, hd, ho, hl⟩ := of_decide_eq_true hy
  refine ⟨⟨htype, hslots, ⟨hquiet, hbits, fun h => absurd hind h, fun i hi _ => ?_⟩, hk⟩, hfd,
    t, p, n, ht, hs, hpos, hp, hn, hi, hd, ho, hl⟩
  obtain ⟨h₀, h₁, h₂⟩ := huse i hi
  exact ⟨h₀, Nat.pos_of_ne_zero h₀, h₁, h₂⟩

/-- `init` opens the root of the image, whose slots are `.`, `..` and `f`, and lists it. -/
theorem getdirentries_lists_root : ∃ (s : System) (l : List (ℤ × ℤ × Str)),
    exec [.call 1 (.openFile [slash] 0)] (boot (image 9 0 []) [] []) = some s ∧
    (usedEntries s.kernel.fs 1).map Entry.name = [[46], [46, 46], [102]] ∧
    getdirentries 1 0 ((usedEntries s.kernel.fs 1).length + 1) 0 s.kernel = .ok (l, s.kernel) := by
  have hrun : (exec [.call 1 (.openFile [slash] 0)] (boot (image 9 0 []) [] [])).map (fun s =>
      decide (listingTest s.kernel 1 0 2 1 = true ∧
        (usedEntries s.kernel.fs 1).map Entry.name = [[46], [46, 46], [102]])) = some true := by
    decide +kernel
  obtain ⟨s, hs, hx⟩ := Option.map_eq_some_iff.mp hrun
  obtain ⟨htest, hnames⟩ := of_decide_eq_true hx
  obtain ⟨l, hl, -⟩ := getdirentries_lists (listing_of_test htest)
  exact ⟨s, l, hs, hnames, hl⟩

end Exec

end UCore.Vfs

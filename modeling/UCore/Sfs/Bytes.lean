import UCore.Library.Bytes
import UCore.Sfs.Reach
import UCore.Sfs.Sizes

/-! # Regular files as byte strings

On a volume whose device works and whose free blocks suffice the regular files are a map from files
to byte strings: a write overwrites or extends a string, a growth appends zeros, a truncation
empties it, and a read takes a part of it.
-/

namespace UCore.Sfs

open Library

section Copies

variable {m buf : Buf} {len size n offset i : ℕ}

theorem firstn_memcpy (h : offset ≤ size) :
    firstn (memcpy m offset buf 0 n) (max size (offset + n)) =
      overwrite (firstn m size) (firstn buf n) offset := by
  refine List.ext_getElem? fun i => ?_
  rw [getElem?_overwrite (by simpa using h), getElem?_firstn, length_firstn]
  by_cases hi : offset ≤ i ∧ i < offset + n
  · obtain ⟨k, rfl⟩ := Nat.exists_eq_add_of_le hi.1
    rw [if_pos (by omega), if_pos hi, memcpy_in (by omega), Nat.zero_add, Nat.add_sub_cancel_left,
      getElem?_firstn, if_pos (by omega)]
  · rw [if_neg hi, memcpy_out (by omega), getElem?_firstn]
    by_cases hs : i < size
    · rw [if_pos hs, if_pos (by omega)]
    · rw [if_neg hs, if_neg (by omega)]

theorem memcpy_eq_fill : memcpy buf 0 m offset (min len (size - offset)) =
    fill buf (((firstn m size).drop offset).take len) := by
  funext i
  unfold fill
  rw [List.getD_eq_getElem?_getD, List.getElem?_take, List.getElem?_drop, getElem?_firstn]
  by_cases hi : i < min len (size - offset)
  · rw [memcpy_start hi, if_pos (by omega), if_pos (by omega)]
    rfl
  · rw [memcpy_out (by omega)]
    split
    · rw [if_neg (by omega)]
      rfl
    · rfl

theorem firstn_rightpad (h : ∀ k, size ≤ k → m k = 0) :
    firstn m (max size n) = (firstn m size).rightpad n 0 := by
  refine List.ext_getElem? fun i => ?_
  rw [List.rightpad, getElem?_firstn, length_firstn]
  by_cases hi : i < size
  · rw [List.getElem?_append_left (by simpa using hi), getElem?_firstn, if_pos hi,
      if_pos (by omega)]
  · rw [List.getElem?_append_right (by simpa using hi), List.getElem?_replicate, length_firstn]
    by_cases hin : i < n
    · rw [if_pos (by omega), if_pos (by omega), h i (by omega)]
    · rw [if_neg (by omega), if_neg (by omega)]

end Copies

def File.content (f : File) : List UInt8 := firstn f.byte f.size

/-- The file has as many blocks as its size needs, and zeros after its end. -/
structure File.Tidy (f : File) : Prop where
  blocks : f.blocks = ceilBlocks f.size
  zero : ∀ k, f.size ≤ k → f.byte k = 0

section Files

variable {f : File} {buf : Buf} {n offset : ℕ}

/-- The file after `n` bytes were written at `offset`. -/
def File.put (f : File) (offset : ℕ) (buf : Buf) (n : ℕ) : File where
  size := max f.size (offset + n)
  blocks := ceilBlocks (max f.size (offset + n))
  byte := memcpy f.byte offset buf 0 n

/-- The file of `n` bytes that has the bytes of `f`. -/
def File.resize (f : File) (n : ℕ) : File where
  size := n
  blocks := ceilBlocks n
  byte k := if k < n then f.byte k else 0

theorem File.Tidy.put (h : f.Tidy) : (f.put offset buf n).Tidy where
  blocks := rfl
  zero k hk := by
    have hk' : max f.size (offset + n) ≤ k := hk
    refine (memcpy_out (.inr ?_)).trans (h.zero k ?_) <;> omega

theorem File.Tidy.resize_byte (h : f.Tidy) (hn : f.size ≤ n) : (f.resize n).byte = f.byte := by
  funext k
  change (if k < n then f.byte k else 0) = f.byte k
  split
  · rfl
  · exact (h.zero k (by omega)).symm

theorem File.tidy_resize : (f.resize n).Tidy where
  blocks := rfl
  zero _ hk := if_neg (Nat.not_lt.mpr hk)

end Files

section Calls

variable {s : Fs} {O : ℕ → Owner} {I : Set ℕ} {ino len : ℕ} {offset pos : ℤ}
    {write : Bool} {buf : Buf}

/-- No range of a file starts at `offset` and has `len` bytes. -/
def Refused (offset : ℤ) (len : ℕ) : Prop :=
  offset < 0 ∨ sfsMaxFileSize ≤ offset ∨ 2 ^ 63 ≤ offset + len

instance {offset : ℤ} {len : ℕ} : Decidable (Refused offset len) := by
  unfold Refused
  infer_instance

theorem offT_eq {x : ℤ} (h : 0 ≤ x) (h' : x < 2 ^ 63) : offT x = x := by
  unfold offT
  rw [Int.bmod_def]
  omega

theorem ioRejects_iff (h : len < 2 ^ 64) : IoRejects offset len ↔ Refused offset len := by
  have hmax : sfsMaxFileSize = 2 ^ 27 := by decide
  unfold IoRejects Refused
  rw [hmax]
  by_cases h₀ : 0 ≤ offset ∧ offset < 2 ^ 27
  · by_cases h₁ : offset + len < 2 ^ 63
    · rw [offT_eq (by omega) h₁]
      omega
    · unfold offT
      rw [Int.bmod_def]
      omega
  · omega

theorem Wf.io_refused (h : Wf s O I) (hino : ino ∈ I) (htype : (s.din ino).type ≠ sfsTypeDir)
    (hlen : len < 2 ^ 64) (hr : Refused offset len) :
    sfsIoNolock ino buf offset len write s = .ok ((-eInval, 0, buf), s) := by
  have hrej := (ioRejects_iff hlen).mpr hr
  have hw : Code.Wp (sfsIoNolock ino buf offset len write) s (fun _ => False)
      (Ranged I ino s O buf offset len write) :=
    (h.io_wp hino htype).mono (fun _ he => he.1 hrej) fun _ _ hq => hq
  obtain ⟨r, t, hrun, hq⟩ := hw.returns
  rw [hrun]
  rcases hq with _ | ⟨hn, -⟩ | ⟨hn, -⟩
  · rfl
  · exact absurd hrej hn
  · exact absurd hrej hn

theorem maxBlocks_bytes : maxBlocks * sfsBlksize = 4243456 := by decide

theorem not_refused {offset : ℕ} (h : offset + len ≤ maxBlocks * sfsBlksize) :
    ¬ Refused offset len := by
  have hmax : sfsMaxFileSize = 134217728 := by decide
  rw [maxBlocks_bytes] at h
  unfold Refused
  rw [hmax]
  omega

theorem ioEnd_write {offset : ℕ} (h : offset + len ≤ maxBlocks * sfsBlksize) :
    s.ioEnd ino offset len true = offset + len := by
  have hmax : sfsMaxFileSize = 134217728 := by decide
  rw [maxBlocks_bytes] at h
  unfold Fs.ioEnd
  rw [offT_eq (by omega) (by omega), hmax]
  dsimp only
  rw [if_pos rfl]
  omega

theorem File.Tidy.put_zero {f : File} (h : f.Tidy) {offset : ℕ} (ho : offset ≤ f.size) :
    f.put offset buf 0 = f := by
  have hs : max f.size (offset + 0) = f.size := max_eq_left (by omega)
  refine File.ext hs ?_ memcpy_zero
  change ceilBlocks (max f.size (offset + 0)) = f.blocks
  rw [hs, h.blocks]

/-- A write that does not start past the end of the file. -/
theorem Wf.write_wp (buf : Buf) (h : Wf s O I) (hino : ino ∈ I)
    (htype : (s.din ino).type ≠ sfsTypeDir)
    (hrel : s.Reliable) (ht : (s.file ino).Tidy) {offset : ℕ} (hoff : offset ≤ (s.din ino).size)
    (hend : offset + len ≤ maxBlocks * sfsBlksize) (henough : s.Enough ino (offset + len)) :
    Code.Wp (sfsIoNolock ino buf offset len true) s (fun _ => False) fun r t =>
      r = (0, len, buf) ∧ t.file ino = (s.file ino).put offset buf len ∧ ∃ O',
        Works I ino s O t O' := by
  have hn : s.ioEnd ino offset len true = offset + len := ioEnd_write hend
  have hlen : len < 2 ^ 64 := by
    rw [maxBlocks_bytes] at hend
    omega
  have hblocks : (s.din ino).blocks = ceilBlocks (s.din ino).size := ht.blocks
  refine (h.io_wp hino htype).mono ?_ ?_
  · rintro e ⟨-, -, ⟨-, hlt⟩ | ⟨-, -, hlt⟩⟩
    · have hdiv := (Nat.le_div_iff_mul_le (k := sfsBlksize) (by decide)).mp hlt
      have hle := (lt_ceilBlocks (k := (s.din ino).blocks)).mpr
        (show (s.din ino).blocks * sfsBlksize < (s.din ino).size by
          rw [Int.toNat_natCast, Nat.succ_mul] at hdiv
          have : 0 < sfsBlksize := by decide
          omega)
      omega
    · rw [hn, Int.toNat_natCast] at hlt
      omega
  rintro r t (hrej | ⟨-, hempty⟩ | ⟨hrej, hlt, hm⟩)
  · exact absurd ((ioRejects_iff hlen).mp hrej) (not_refused hend)
  · rw [hn, Int.toNat_natCast] at hempty
    obtain rfl : len = 0 := by omega
    exact ⟨rfl, (ht.put_zero hoff).symm, O, .refl h⟩
  · rename_i ret m buf' t O'
    rw [hn, Int.toNat_natCast, Nat.add_sub_cancel_left] at hm
    rw [hn, Int.toNat_natCast] at hlt
    have hret : ret = 0 := by
      by_contra hret
      obtain ⟨-, hshort, hbt, hmt, -⟩ := hm.full hrel hret
      exact henough.not_short (lt_ceilBlocks.mpr hbt) hmt hshort hm.grows
    subst hret
    obtain rfl := hm.done rfl
    have hcover : _ ∧ (t.cover ino offset m).file ino = _ ∧ _ := hm.works.wf.works_cover
    have hbytes : t.byte ino = memcpy (s.byte ino) offset buf 0 m ∧ buf' = buf := by
      simpa [xfer] using hm.bytes
    refine ⟨by rw [hbytes.2], ?_, O', hm.works.trans hcover.1⟩
    rw [Int.toNat_natCast, hcover.2.1]
    refine File.ext ?_ ?_ hbytes.1
    · exact congrArg (fun n => max n (offset + m)) hm.size
    · change (t.din ino).blocks = ceilBlocks (max (s.din ino).size (offset + m))
      rw [hm.blocks hrel, if_neg (by omega), ceilBlocks_max, hblocks]

/-- A read gives the bytes up to the end of the file, and it leaves the file as it is. -/
theorem Wf.read_wp (buf : Buf) (h : Wf s O I) (hino : ino ∈ I)
    (htype : (s.din ino).type ≠ sfsTypeDir)
    (hrel : s.Reliable) (hsize : (s.din ino).size ≤ (s.din ino).blocks * sfsBlksize) {offset : ℕ}
    (hlen : len < 2 ^ 64) (hr : ¬ Refused offset len) :
    Code.Wp (sfsIoNolock ino buf offset len false) s (fun _ => False) fun r t =>
      r = (0, min len ((s.din ino).size - offset),
        memcpy buf 0 (s.byte ino) offset (min len ((s.din ino).size - offset))) ∧
      t.file ino = s.file ino ∧ ∃ O', Works I ino s O t O' := by
  have hreach := Nat.mul_le_mul_right sfsBlksize (h.reach ino hino)
  have hn : s.ioEnd ino offset len false = min (offset + len) (s.din ino).size := by
    have hmax : sfsMaxFileSize = 134217728 := by decide
    rw [maxBlocks_bytes] at hreach
    unfold Refused at hr
    unfold Fs.ioEnd
    rw [offT_eq (by omega) (by omega), hmax]
    dsimp only
    rw [if_neg (by decide)]
    omega
  refine (h.io_wp hino htype).mono ?_ ?_
  · rw [hn, Int.toNat_natCast]
    rintro e ⟨-, hlt, ⟨-, hpast⟩ | ⟨-, -, hpast⟩⟩
    · have hdiv := (Nat.le_div_iff_mul_le (k := sfsBlksize) (by decide)).mp hpast
      rw [Nat.succ_mul] at hdiv
      omega
    · omega
  rintro r t (hrej | ⟨-, hempty⟩ | ⟨hrej, hlt, hm⟩)
  · exact absurd ((ioRejects_iff hlen).mp hrej) hr
  · rw [hn, Int.toNat_natCast] at hempty
    have hzero : min len ((s.din ino).size - offset) = 0 := by omega
    refine ⟨?_, rfl, O, .refl h⟩
    rw [hzero, memcpy_zero]
  · rename_i ret m buf' t O'
    rw [hn, Int.toNat_natCast] at hm hlt
    have hmn : min (offset + len) (s.din ino).size - offset =
      min len ((s.din ino).size - offset) := by
      omega
    rw [hmn] at hm
    have hret : ret = 0 := by
      by_contra hret
      obtain ⟨-, -, hbt, -⟩ := hm.full hrel hret
      have := Nat.mul_le_mul_right sfsBlksize hm.grows
      omega
    subst hret
    obtain rfl := hm.done rfl
    have hcover : _ ∧ (t.cover ino offset (min len ((s.din ino).size - offset))).file ino = _ ∧ _ :=
      hm.works.wf.works_cover
    have hsin := (hm.within (by omega)).2.2
    have hbytes : t.byte ino = s.byte ino ∧
        buf' = memcpy buf 0 (s.byte ino) offset (min len ((s.din ino).size - offset)) := by
      simpa [xfer] using hm.bytes
    refine ⟨by rw [hbytes.2], ?_, O', hm.works.trans hcover.1⟩
    have hdin : t.din ino = s.din ino := congrArg Sin.din hsin
    rw [Int.toNat_natCast, hcover.2.1, hdin, max_eq_left (by omega)]
    refine File.ext rfl ?_ hbytes.1
    exact congrArg DiskInode.blocks hdin

theorem setSize_file {t : Fs} {O' : ℕ → Owner} {n : ℕ} (hw : Works I ino s O t O') :
    Works I ino s O (t.setSin ino fun x => { din := { x.din with size := n }, dirty := true }) O' ∧
      (t.setSin ino fun x => { din := { x.din with size := n }, dirty := true }).file ino =
        { t.file ino with size := n } :=
  ⟨Wf.works_size hw, hw.wf.works_setSize.2⟩

/-- A truncation to no bytes. -/
theorem Wf.truncfile_zero_wp (h : Wf s O I) (hino : ino ∈ I) (hrel : s.Reliable)
    (ht : (s.file ino).Tidy) : Code.Wp (sfsTruncfile ino 0) s (fun _ => False) fun ret t =>
      ret = 0 ∧ t.file ino = (s.file ino).resize 0 ∧ ∃ O', Works I ino s O t O' := by
  have hzero : ceilBlocks (0 : ℤ).toNat = 0 := by decide
  have hblocks : (s.din ino).blocks = ceilBlocks (s.din ino).size := ht.blocks
  refine (h.truncfile_wp hino).mono ?_ ?_
  · rintro e ⟨-, ⟨-, hlen, hne⟩ | ⟨-, -, hlt⟩⟩
    · have hsize : (s.din ino).size = 0 := by omega
      rw [hblocks, hsize] at hne
      exact hne hzero
    · rw [hzero] at hlt
      omega
  rintro ret t (hx | ⟨-, hlen, -⟩ | ⟨-, -, hlt, -⟩ | ⟨-, -, hret, hk⟩ | ⟨-, -, hlt,
    -⟩ | ⟨-, -, -, hk⟩)
  · exact absurd hx (by decide)
  · have hsize : (s.file ino).size = 0 := by
      change (s.din ino).size = 0
      omega
    refine ⟨rfl, File.ext hsize ?_ (funext fun k => ht.zero k (by omega)), O, .refl h⟩
    rw [ht.blocks, hsize]
    rfl
  · rw [hzero] at hlt
    omega
  · exact absurd (hk.reliable hrel) hret
  · rw [hzero] at hlt
    omega
  · rename_i t O'
    rw [hzero, Nat.sub_zero] at hk
    obtain ⟨hw, hfile⟩ := setSize_file (n := (0 : ℤ).toNat) hk.works
    refine ⟨rfl, ?_, O', hw⟩
    rw [hfile, hk.file, Nat.sub_self]
    refine File.ext rfl rfl (funext fun k => ?_)
    change (if k < 0 * sfsBlksize then (s.file ino).byte k else 0) =
      if k < 0 then (s.file ino).byte k else 0
    rw [if_neg (by omega), if_neg (by omega)]

/-- A seek within the reach of the map. -/
theorem Wf.tryseek_reach_wp (h : Wf s O I) (hino : ino ∈ I) (hrel : s.Reliable)
    (ht : (s.file ino).Tidy)
    {pos : ℕ} (hpos : pos ≤ maxBlocks * sfsBlksize) (henough : s.Enough ino pos) :
    Code.Wp (sfsTryseek ino pos) s (fun _ => False) fun ret t =>
      ret = 0 ∧ t.file ino = (s.file ino).resize (max (s.din ino).size pos) ∧
        ∃ O', Works I ino s O t O' := by
  have hmax : sfsMaxFileSize = 134217728 := by decide
  have hblocks : (s.din ino).blocks = ceilBlocks (s.din ino).size := ht.blocks
  have hbyte := ht.resize_byte (n := max (s.din ino).size pos) (le_max_left _ _)
  refine (h.tryseek_wp hino).mono ?_ ?_
  · rintro e ⟨-, -, -, hlt⟩
    rw [Int.toNat_natCast, lt_ceilBlocks] at hlt
    omega
  rintro ret t (hrej | ⟨-, hle⟩ | ⟨-, hlt, htr⟩)
  · unfold SeekRejects at hrej
    rw [maxBlocks_bytes] at hpos
    omega
  · have hm : max (s.din ino).size pos = (s.din ino).size := max_eq_left (by omega)
    refine ⟨rfl, File.ext hm.symm ?_ hbyte.symm, O, .refl h⟩
    change (s.din ino).blocks = ceilBlocks (max (s.din ino).size pos)
    rw [hm, hblocks]
  have hm : max (s.din ino).size pos = pos := max_eq_right (by omega)
  have hceil : ceilBlocks (s.din ino).size ≤ ceilBlocks pos := ceilBlocks_mono (by omega)
  rw [hm] at hbyte ⊢
  rcases htr with hx | ⟨-, hlen, -⟩ | ⟨-, -, -, hret, hk⟩ | ⟨-, -, hret, hk⟩ | ⟨-, -, hgt, hk⟩ |
    ⟨-, -, hge, hk⟩
  · unfold TruncRejects at hx
    rw [maxBlocks_bytes] at hpos
    omega
  · omega
  · obtain ⟨-, hshort, hmt, hkn⟩ := hk.full hrel hret
    rename_i k O'
    rw [Int.toNat_natCast] at hkn
    refine (henough.not_short (k := (s.din ino).blocks + k) (by omega) hmt ?_ (by omega)).elim
    rwa [Nat.add_sub_cancel_left]
  · exact absurd (hk.reliable hrel) hret
  · rename_i t O'
    obtain ⟨hw, hfile⟩ := setSize_file (n := (pos : ℤ).toNat) hk.works
    refine ⟨rfl, ?_, O', hw⟩
    rw [hfile, hk.file]
    refine File.ext rfl ?_ hbyte.symm
    rw [Int.toNat_natCast] at hgt ⊢
    change (s.din ino).blocks + (ceilBlocks pos - (s.din ino).blocks) = ceilBlocks pos
    omega
  · rename_i t O'
    obtain ⟨hw, hfile⟩ := setSize_file (n := (pos : ℤ).toNat) hk.works
    rw [Int.toNat_natCast] at hge hk
    have hz : (s.din ino).blocks - ceilBlocks pos = 0 := by omega
    refine ⟨rfl, ?_, O', hw⟩
    rw [hfile, hk.file, hz, Nat.sub_zero, cut_blocks]
    refine File.ext rfl ?_ hbyte.symm
    change (s.din ino).blocks = ceilBlocks pos
    omega

end Calls

/-- A map from files to byte strings. -/
abbrev Strings : Type := ℕ → List UInt8

/-- A call on a regular file. -/
inductive ByteOp
  | write (ino : ℕ) (buf : Buf) (offset : ℤ) (len : ℕ)
  | read (ino : ℕ) (buf : Buf) (offset : ℤ) (len : ℕ)
  | truncate (ino : ℕ)
  | grow (ino : ℕ) (pos : ℤ)

namespace ByteOp

/-- The error, `*alenp` and the buffer. -/
def run : ByteOp → Prog (ℤ × ℕ × Buf)
  | write ino buf offset len => sfsIoNolock ino buf offset len true
  | read ino buf offset len => sfsIoNolock ino buf offset len false
  | truncate ino => do
    let ret ← sfsTruncfile ino 0
    return (ret, 0, zeros)
  | grow ino pos => do
    let ret ← sfsTryseek ino pos
    return (ret, 0, zeros)

/-- The call on byte strings: what it gives back, and the strings that it leaves. -/
def spec (m : Strings) : ByteOp → (ℤ × ℕ × Buf) × Strings
  | write ino buf offset len =>
    if Refused offset len then ((-eInval, 0, buf), m)
    else ((0, len, buf),
      Function.update m ino (overwrite (m ino) (firstn buf len) offset.toNat))
  | read ino buf offset len =>
    if Refused offset len then ((-eInval, 0, buf), m)
    else
      let l := ((m ino).drop offset.toNat).take len
      ((0, l.length, fill buf l), m)
  | truncate ino => ((0, 0, zeros), Function.update m ino [])
  | grow ino pos =>
    if pos < 0 then ((-eInval, 0, zeros), m)
    else ((0, 0, zeros), Function.update m ino ((m ino).rightpad pos.toNat 0))

/-- The call is on one of the files `F`, a write does not start past the end of the file, no write
and no growth goes beyond the reach of the map, and the free blocks suffice. -/
def Admits (F : Set ℕ) (s : Fs) : ByteOp → Prop
  | write ino _ offset len => ino ∈ F ∧ len < 2 ^ 64 ∧ offset ≤ (s.din ino).size ∧
      offset + len ≤ (maxBlocks * sfsBlksize : ℕ) ∧ s.Enough ino (offset + len).toNat
  | read ino _ _ len => ino ∈ F ∧ len < 2 ^ 64
  | truncate ino => ino ∈ F
  | grow ino pos => ino ∈ F ∧ pos ≤ (maxBlocks * sfsBlksize : ℕ) ∧ s.Enough ino pos.toNat

/-- The calls of a list, one after the other. -/
def runs : List ByteOp → Prog (List (ℤ × ℕ × Buf))
  | [] => return []
  | op :: l => do
    let r ← op.run
    let rs ← runs l
    return r :: rs

def specs (m : Strings) : List ByteOp → List (ℤ × ℕ × Buf) × Strings
  | [] => ([], m)
  | op :: l =>
    let rs := specs (op.spec m).2 l
    ((op.spec m).1 :: rs.1, rs.2)

/-- Each call of the list is admitted in the state that the calls before it leave. -/
def AllAdmitted (F : Set ℕ) : Fs → List ByteOp → Prop
  | _, [] => True
  | s, op :: l => op.Admits F s ∧ ∀ r t, op.run s = .ok (r, t) → AllAdmitted F t l

end ByteOp

/-- The volume is consistent, all transfers succeed, and the regular files `F` are tidy. -/
structure Usable (I F : Set ℕ) (s : Fs) : Prop where
  consistent : Consistent s I
  reliable : s.Reliable
  mem : ∀ ino ∈ F, ino ∈ I
  type : ∀ ino ∈ F, (s.din ino).type = sfsTypeFile
  tidy : ∀ ino ∈ F, (s.file ino).Tidy

/-- The files of the volume have the strings. -/
def Stores (I : Set ℕ) (s : Fs) (m : Strings) : Prop := ∀ j ∈ I, (s.file j).content = m j

section Refine

variable {s t : Fs} {O O' : ℕ → Owner} {I F : Set ℕ} {m : Strings} {ino : ℕ} {l : List ByteOp}

theorem Usable.works (h : Usable I F s) (hw : Works I ino s O t O') (hwf : Wf s O I)
    (ht : (t.file ino).Tidy) : Usable I F t where
  consistent := ⟨O', hw.wf⟩
  reliable := hw.reliable h.reliable
  mem := h.mem
  type j hj := by
    by_cases hji : j = ino
    · subst hji
      exact hw.type.trans (h.type j hj)
    · rw [hw.din_other hji]
      exact h.type j hj
  tidy j hj := by
    by_cases hji : j = ino
    · subst hji
      exact ht
    · rw [hw.file_other hwf (h.mem j hj) hji]
      exact h.tidy j hj

theorem Stores.works (h : Stores I s m) (hw : Works I ino s O t O') (hwf : Wf s O I) :
    Stores I t (Function.update m ino (t.file ino).content) := by
  intro j hj
  by_cases hji : j = ino
  · subst hji
    rw [Function.update_self]
  · rw [Function.update_of_ne hji, hw.file_other hwf hj hji]
    exact h j hj

theorem content_resize {f : File} {n : ℕ} (h : f.Tidy) :
    (f.resize (max f.size n)).content = f.content.rightpad n 0 := by
  unfold File.content
  rw [h.resize_byte (le_max_left _ _)]
  exact firstn_rightpad h.zero

theorem Usable.not_dir (h : Usable I F s) (hino : ino ∈ F) : (s.din ino).type ≠ sfsTypeDir := by
  rw [h.type ino hino]
  decide

theorem Usable.after (h : Usable I F s) (hwf : Wf s O I) (hm : Stores I s m) {f : File}
    {d : List UInt8}
    (hw : ∃ O', Works I ino s O t O') (hf : t.file ino = f) (ht : f.Tidy) (hd : f.content = d) :
    Usable I F t ∧ Stores I t (Function.update m ino d) := by
  obtain ⟨O', hw⟩ := hw
  subst hf hd
  exact ⟨h.works hw hwf ht, hm.works hw hwf⟩

section Step

variable {buf : Buf} {offset pos : ℤ} {len : ℕ}

/-- The call does on the volume what it does on the strings. -/
def Mirrors (I F : Set ℕ) (s : Fs) (m : Strings) (op : ByteOp) : Prop :=
  ∃ t, op.run s = .ok ((op.spec m).1, t) ∧ Usable I F t ∧ Stores I t (op.spec m).2

theorem Usable.write (h : Usable I F s) (hm : Stores I s m)
    (hop : (ByteOp.write ino buf offset len).Admits F s) :
    Mirrors I F s m (.write ino buf offset len) := by
  obtain ⟨O, hwf⟩ := h.consistent
  obtain ⟨hino, hlen, hoff, hend, henough⟩ := hop
  have hI := h.mem ino hino
  have ht := h.tidy ino hino
  unfold Mirrors
  by_cases hr : Refused offset len
  · simp only [ByteOp.spec, if_pos hr]
    exact ⟨s, hwf.io_refused hI (h.not_dir hino) hlen hr, h, hm⟩
  simp only [ByteOp.spec, if_neg hr]
  obtain ⟨offset, rfl⟩ := Int.eq_ofNat_of_zero_le (by unfold Refused at hr; omega : 0 ≤ offset)
  have hsize : offset ≤ (s.file ino).size := Int.ofNat_le.mp hoff
  obtain ⟨r, t, hrun, rfl, hf, hw⟩ := (hwf.write_wp buf hI (h.not_dir hino) h.reliable ht hsize
    (by omega) henough).returns
  refine ⟨t, hrun, h.after hwf hm hw hf ht.put ?_⟩
  rw [← hm ino hI]
  exact firstn_memcpy hsize

theorem Usable.read (h : Usable I F s) (hm : Stores I s m)
    (hop : (ByteOp.read ino buf offset len).Admits F s) :
    Mirrors I F s m (.read ino buf offset len) := by
  obtain ⟨O, hwf⟩ := h.consistent
  obtain ⟨hino, hlen⟩ := hop
  have hI := h.mem ino hino
  have ht := h.tidy ino hino
  unfold Mirrors
  by_cases hr : Refused offset len
  · simp only [ByteOp.spec, if_pos hr]
    exact ⟨s, hwf.io_refused hI (h.not_dir hino) hlen hr, h, hm⟩
  simp only [ByteOp.spec, if_neg hr]
  obtain ⟨offset, rfl⟩ := Int.eq_ofNat_of_zero_le (by unfold Refused at hr; omega : 0 ≤ offset)
  obtain ⟨r, t, hrun, rfl, hf, hw⟩ := (hwf.read_wp buf hI (h.not_dir hino) h.reliable
    (Agrees.size_le ht.blocks) hlen hr).returns
  have hafter := h.after hwf hm hw hf ht rfl
  rw [hm ino hI, Function.update_eq_self] at hafter
  refine ⟨t, hrun.trans ?_, hafter⟩
  have hfill : memcpy buf 0 (s.byte ino) offset (min len ((s.din ino).size - offset)) =
      fill buf (((s.file ino).content.drop offset).take len) := memcpy_eq_fill
  rw [hfill, ← hm ino hI]
  simp [File.content, Fs.file]

theorem Usable.truncate (h : Usable I F s) (hm : Stores I s m) (hino : ino ∈ F) :
    Mirrors I F s m (.truncate ino) := by
  obtain ⟨O, hwf⟩ := h.consistent
  obtain ⟨ret, t, hrun, rfl, hf, hw⟩ :=
    (hwf.truncfile_zero_wp (h.mem ino hino) h.reliable (h.tidy ino hino)).returns
  exact ⟨t, Code.bind_ok hrun, h.after hwf hm hw hf File.tidy_resize rfl⟩

theorem Usable.grow (h : Usable I F s) (hm : Stores I s m)
    (hop : (ByteOp.grow ino pos).Admits F s) :
    Mirrors I F s m (.grow ino pos) := by
  obtain ⟨O, hwf⟩ := h.consistent
  obtain ⟨hino, hend, henough⟩ := hop
  have hI := h.mem ino hino
  have ht := h.tidy ino hino
  unfold Mirrors
  by_cases hneg : pos < 0
  · simp only [ByteOp.spec, if_pos hneg]
    refine ⟨s, ?_, h, hm⟩
    refine Code.bind_ok ?_
    unfold sfsTryseek
    rw [if_pos (.inl hneg)]
    rfl
  simp only [ByteOp.spec, if_neg hneg]
  obtain ⟨pos, rfl⟩ := Int.eq_ofNat_of_zero_le (by omega : 0 ≤ pos)
  obtain ⟨ret, t, hrun, rfl, hf,
    hw⟩ := (hwf.tryseek_reach_wp hI h.reliable ht (by omega) henough).returns
  refine ⟨t, Code.bind_ok hrun, h.after hwf hm hw hf File.tidy_resize ?_⟩
  rw [← hm ino hI]
  exact content_resize ht

end Step

theorem Usable.step (h : Usable I F s) (hm : Stores I s m) {op : ByteOp} (hop : op.Admits F s) :
    Mirrors I F s m op := by
  cases op with
  | write ino buf offset len => exact h.write hm hop
  | read ino buf offset len => exact h.read hm hop
  | truncate ino => exact h.truncate hm hop
  | grow ino pos => exact h.grow hm hop

theorem Usable.steps (h : Usable I F s) (hr : Stores I s m) (hl : ByteOp.AllAdmitted F s l) :
    ∃ t, ByteOp.runs l s = .ok ((ByteOp.specs m l).1, t) ∧ Usable I F t ∧
      Stores I t (ByteOp.specs m l).2 := by
  induction l generalizing s m with
  | nil => exact ⟨s, rfl, h, hr⟩
  | cons op l ih =>
    obtain ⟨t, hrun, ht, hrt⟩ := h.step hr hl.1
    obtain ⟨u, hruns, hu, hru⟩ := ih ht hrt (hl.2 _ t hrun)
    refine ⟨u, ?_, hu, hru⟩
    rw [ByteOp.runs, Code.bind_ok hrun, Code.bind_ok hruns]
    rfl

theorem image_usable {n k : ℕ} (hk : k ≤ maxBlocks) (hn : Image.used k ≤ n) (hn' : n ≤ sfsBlkbits) :
    Usable imageInodes {5} (image n k []) where
  consistent := ⟨_, image_wf hk hn hn'⟩
  reliable := by simp [Fs.Reliable, image]
  mem := by
    rintro ino rfl
    exact .inr rfl
  type := by
    rintro ino rfl
    rfl
  tidy := by
    rintro ino rfl
    refine ⟨?_, fun i hi => byte_past hi⟩
    change k = ceilBlocks (k * sfsBlksize)
    unfold ceilBlocks sfsBlksize
    omega

/-- In a run of reads, writes, truncations and growths on regular files every call gives back what
it gives back on the byte strings of the files, no assertion fails, and the strings of all files of
the volume are those that the calls leave. -/
theorem files_refine_strings (h : Usable I F s) (hl : ByteOp.AllAdmitted F s l) :
    ∃ t, ByteOp.runs l s = .ok ((ByteOp.specs (fun j => (s.file j).content) l).1, t) ∧
      Usable I F t ∧ ∀ j ∈ I,
        (t.file j).content = (ByteOp.specs (fun j => (s.file j).content) l).2 j ∧
        (t.din j).size = ((ByteOp.specs (fun j => (s.file j).content) l).2 j).length := by
  obtain ⟨t, hrun, ht, hs⟩ := h.steps (fun _ _ => rfl) hl
  refine ⟨t, hrun, ht, fun j hj => ⟨hs j hj, ?_⟩⟩
  rw [← hs j hj]
  exact length_firstn.symm

/-- An empty file grows to 5000 bytes, the last ten of them are read, and it is emptied. -/
theorem files_refine_strings_image : ∃ rs t,
    ByteOp.runs [.grow 5 5000, .read 5 zeros 4990 100, .truncate 5] (image 9 0 []) = .ok (rs, t) ∧
      rs.map (fun r => (r.1, r.2.1)) = [(0, 0), (0, 10), (0, 0)] ∧ (t.file 5).content = [] := by
  have hl : ByteOp.AllAdmitted {5} (image 9 0 [])
      [.grow 5 5000, .read 5 zeros 4990 100, .truncate 5] := by
    refine ⟨⟨rfl, by decide, ?_⟩, fun _ _ _ => ⟨⟨rfl, by decide⟩, fun _ _ _ => ⟨rfl, ?_⟩⟩⟩
    swap
    · exact fun _ _ _ => trivial
    unfold Fs.Enough
    decide
  obtain ⟨t, hrun, -,
    hs⟩ := files_refine_strings (image_usable (by decide) (by decide) (by decide)) hl
  refine ⟨_, t, hrun, by decide +kernel, (hs 5 (.inr rfl)).1.trans ?_⟩
  simp [ByteOp.specs, ByteOp.spec]

/-- A read of the file of one block whose range ends beyond the largest `off_t`. -/
theorem read_refused : Usable imageInodes {5} (image 9 1 []) ∧ 2 ^ 63 - 1 < 2 ^ 64 ∧
    ((((image 9 1 []).file 5).content.drop 1).take (2 ^ 63 - 1)).length = 4095 ∧
    sfsIoNolock 5 zeros 1 (2 ^ 63 - 1) false (image 9 1 []) =
      .ok ((-eInval, 0, zeros), image 9 1 []) := by
  have hwf : Wf (image 9 1 []) _ imageInodes := image_wf (by decide) (by decide) (by decide)
  have hu : Usable imageInodes {5} (image 9 1 []) :=
    image_usable (by decide) (by decide) (by decide)
  refine ⟨hu, by decide, ?_, hwf.io_refused (.inr rfl) (hu.not_dir rfl) (by decide) (by decide)⟩
  have hsize : ((image 9 1 []).file 5).size = 4096 := rfl
  rw [List.length_take, List.length_drop, File.content, length_firstn, hsize]
  rfl

end Refine

end UCore.Sfs

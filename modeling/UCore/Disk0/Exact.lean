import Mathlib.Tactic.Ring
import UCore.Disk0.Model
import UCore.Sfs.Transfer
import UCore.Vfs.Mount

/-! # Transfers of the disk device

A request inside of the device is carried out in rounds of at most four blocks, each of which goes
through `disk0_buffer`. The test that refuses the other requests is made on block numbers of 32
bits.
-/

namespace UCore.Disk0

open Library Sfs

variable {s : Dev} {x : Vars} {iob : Iobuf} {write : Bool} {b n m fuel : ℕ}

/-- `n` bytes were moved between the memory at `base` and the device at `offset`. -/
def Dev.moved (s : Dev) (write : Bool) (offset base n : ℕ) (buffer : Buf) : Dev :=
  { s with
    disk := (xfer write s.disk s.mem offset base n).1
    mem := (xfer write s.disk s.mem offset base n).2
    buffer := buffer }

@[simp] theorem moved_zero {offset base : ℕ} {buffer : Buf} :
    s.moved write offset base 0 buffer = { s with buffer := buffer } := by simp [Dev.moved]

theorem moved_moved {offset base : ℕ} {buffer buffer' : Buf} :
    (s.moved write offset base n buffer).moved write (offset + n) (base + n) m buffer' =
      s.moved write offset base (n + m) buffer' := by
  simp only [Dev.moved, xfer_append]

@[simp] theorem moved_dBlocks {offset base : ℕ} {buffer : Buf} :
    (s.moved write offset base n buffer).dBlocks = s.dBlocks := rfl

theorem memcpy_through {d b src : Buf} {pos from' n : ℕ} :
    memcpy d pos (memcpy b 0 src from' n) 0 n = memcpy d pos src from' n := by
  funext i
  by_cases hi : pos ≤ i ∧ i < pos + n
  · obtain ⟨k, rfl⟩ := Nat.exists_eq_add_of_le hi.1
    rw [memcpy_in (by omega), memcpy_in (by omega), memcpy_in (by omega)]
  · rw [memcpy_out (by omega), memcpy_out (by omega)]

theorem size_lt (s : Dev) : s.size < 2 ^ 23 := by
  unfold Dev.size u32 sectsize
  omega

theorem dBlocks_lt (s : Dev) : s.dBlocks < 2 ^ 20 := by
  have hs := size_lt s
  have hsect : disk0BlkNsect = 8 := rfl
  rw [Dev.dBlocks, hsect]
  omega

/-! ## One round -/

theorem ideSecs_ok (h : b + n ≤ s.size) (hn : n ≤ maxNsecs) (hb : b < s.size) :
    ideSecs write b n s = .ok (0, { s with
      disk := (xfer write s.disk s.buffer (b * sectsize) 0 (n * sectsize)).1
      buffer := (xfer write s.disk s.buffer (b * sectsize) 0 (n * sectsize)).2 }) := by
  have hs := size_lt s
  have hmax : maxDiskNsecs = 2 ^ 28 := rfl
  have hsec : ramdiskSectors s.size b n = n := by
    unfold ramdiskSectors
    omega
  unfold ideSecs
  refine Eq.trans (Code.assert_bind hn) (Eq.trans (Code.assert_bind (by omega)) ?_)
  cases write with
  | true =>
    change Except.ok (_, _) = _
    dsimp only
    rw [hsec]
    rfl
  | false =>
    change Except.ok (_, _) = _
    dsimp only
    rw [hsec]
    rfl

theorem disk0BlksNolock_ok (h : b + n ≤ s.dBlocks) (hn : n ≤ 4) (hpos : 0 < n) :
    disk0BlksNolock write b n s = .ok ((), { s with
      disk := (xfer write s.disk s.buffer (disk0Blksize * b) 0 (disk0Blksize * n)).1
      buffer := (xfer write s.disk s.buffer (disk0Blksize * b) 0 (disk0Blksize * n)).2 }) := by
  have hs := size_lt s
  have hsect : disk0BlkNsect = 8 := rfl
  have hmax : maxNsecs = 128 := rfl
  have hblocks : 8 * s.dBlocks ≤ s.size := Nat.mul_div_le _ _
  have hb : u32 (b * disk0BlkNsect) = 8 * b := by
    rw [hsect, u32]
    omega
  have hc : u32 (n * disk0BlkNsect) = 8 * n := by
    rw [hsect, u32]
    omega
  have hbytes : ∀ k, 8 * k * sectsize = disk0Blksize * k := by
    intro k
    change 8 * k * 512 = 4096 * k
    omega
  unfold disk0BlksNolock
  rw [hb, hc, Code.bind_ok (ideSecs_ok (by omega) (by omega) (by omega)), hbytes, hbytes]
  rfl

theorem iobufMove_ok {len : ℕ} {m2b : Bool} (h : len ≤ iob.resid) (hpos : 0 < len) :
    iobufMove iob len m2b s = .ok ((len, { iob with
      base := iob.base + len, offset := offT (iob.offset + len), resid := iob.resid - len }),
      if m2b then { s with mem := memcpy s.mem iob.base s.buffer 0 len }
      else { s with buffer := memcpy s.buffer 0 s.mem iob.base len }) := by
  have hskip : ∀ t, iobufSkip iob len t = .ok ({ iob with
      base := iob.base + len, offset := offT (iob.offset + len), resid := iob.resid - len }, t) :=
    fun t => Code.bind_ok (Code.assert_true (p := fun _ => len ≤ iob.resid) h)
  unfold iobufMove
  rw [Nat.min_eq_right h, if_pos hpos, Code.bind_ok (Code.modify_run _), Code.bind_ok (hskip _)]
  rfl

/-- The variables of the loop with `m` blocks from `b` on to do. -/
structure AtBlock (b m : ℕ) (x : Vars) : Prop where
  blkno : x.blkno = b
  resid : x.resid = disk0Blksize * m
  iobResid : x.iob.resid = disk0Blksize * m
  offset : x.iob.offset = disk0Blksize * b

/-- The variables after `n` more blocks. -/
def Vars.next (x : Vars) (n : ℕ) : Vars where
  iob := { x.iob with
    base := x.iob.base + disk0Blksize * n
    offset := x.iob.offset + disk0Blksize * n
    resid := x.iob.resid - disk0Blksize * n }
  resid := x.resid - disk0Blksize * n
  blkno := x.blkno + n

theorem AtBlock.next (h : AtBlock b (n + m) x) : AtBlock (b + n) m (x.next n) where
  blkno := congrArg (· + n) h.blkno
  resid := by
    change x.resid - _ = _
    rw [h.resid, Nat.mul_add, Nat.add_sub_cancel_left]
  iobResid := by
    change x.iob.resid - _ = _
    rw [h.iobResid, Nat.mul_add, Nat.add_sub_cancel_left]
  offset := by
    change x.iob.offset + _ = _
    rw [h.offset]
    push_cast
    ring

theorem AtBlock.offset_move (h : AtBlock b m x) (hle : b + m ≤ s.dBlocks) (hn : n ≤ m) :
    offT (x.iob.offset + (disk0Blksize * n : ℕ)) = x.iob.offset + disk0Blksize * n := by
  have hlt := dBlocks_lt s
  have hblk : disk0Blksize = 4096 := rfl
  rw [h.offset, hblk]
  unfold offT
  push_cast
  rw [Int.bmod_eq_emod]
  split <;> omega

theorem u32_next (hle : b + m ≤ s.dBlocks) (hn : n ≤ m) : u32 (b + n) = b + n := by
  have hlt := dBlocks_lt s
  unfold u32
  omega

theorem writeRound_ok (h : AtBlock b m x) (hn : n = min 4 m) (hm : 0 < m)
    (hle : b + m ≤ s.dBlocks) : writeRound x s = .ok (x.next n,
      s.moved true (disk0Blksize * b) x.iob.base (disk0Blksize * n)
        (memcpy s.buffer 0 s.mem x.iob.base (disk0Blksize * n))) := by
  have hlt := dBlocks_lt s
  have hresid := h.resid
  have hiob := h.iobResid
  have hblk : disk0Blksize = 4096 := rfl
  have hbuf : disk0Bufsize = 4 * disk0Blksize := rfl
  have hlen : min x.iob.resid disk0Bufsize = disk0Blksize * n := by
    rw [hiob, hbuf, hblk]
    omega
  have hmove : iobufMove x.iob disk0Bufsize false s =
      iobufMove x.iob (disk0Blksize * n) false s := by
    unfold iobufMove
    rw [hlen, Nat.min_eq_right (hlen ▸ Nat.min_le_left _ _)]
  have hcopied : disk0Blksize * n ≠ 0 ∧ disk0Blksize * n ≤ x.resid ∧
      disk0Blksize * n % disk0Blksize = 0 := by
    rw [hresid, hblk]
    omega
  have hdiv : u32 (disk0Blksize * n / disk0Blksize) = n := by
    rw [Nat.mul_div_cancel_left _ (by decide), u32]
    omega
  have hstop : iobufMove x.iob disk0Bufsize false s = .ok ((disk0Blksize * n, (x.next n).iob),
      { s with buffer := memcpy s.buffer 0 s.mem x.iob.base (disk0Blksize * n) }) := by
    rw [hmove, iobufMove_ok (by rw [hiob, hblk]; omega) (by rw [hblk]; omega)]
    simp only [Vars.next, h.offset_move hle (by omega : n ≤ m)]
    rfl
  obtain rfl := h.blkno
  unfold writeRound
  refine Eq.trans (Code.bind_ok hstop) (Eq.trans (Code.assert_bind hcopied) ?_)
  rw [hdiv]
  refine Eq.trans (Code.bind_ok (disk0BlksNolock_ok (n := n) ?_ (by omega) (by omega))) ?_
  · change x.blkno + n ≤ s.dBlocks
    omega
  · simp only [xfer, if_true, memcpy_through, u32_next hle (by omega : n ≤ m)]
    rfl

theorem readRound_ok (h : AtBlock b m x) (hn : n = min 4 m) (hm : 0 < m)
    (hle : b + m ≤ s.dBlocks) : readRound x s = .ok (x.next n,
      s.moved false (disk0Blksize * b) x.iob.base (disk0Blksize * n)
        (memcpy s.buffer 0 s.disk (disk0Blksize * b) (disk0Blksize * n))) := by
  have hresid := h.resid
  have hiob := h.iobResid
  have hblk : disk0Blksize = 4096 := rfl
  have hbuf : disk0Bufsize = 4 * disk0Blksize := rfl
  have halen : (if disk0Bufsize > x.resid then x.resid else disk0Bufsize) = disk0Blksize * n := by
    rw [hbuf, hresid, hblk]
    split <;> omega
  have hcopied : disk0Blksize * n = disk0Blksize * n ∧ disk0Blksize * n % disk0Blksize = 0 :=
    ⟨rfl, Nat.mul_mod_right _ _⟩
  have hdiv : u32 (disk0Blksize * n / disk0Blksize) = n := by
    rw [Nat.mul_div_cancel_left _ (by decide), u32]
    omega
  obtain rfl := h.blkno
  unfold readRound
  rw [halen, hdiv]
  refine Eq.trans (Code.bind_ok (disk0BlksNolock_ok (n := n) (by omega) (by omega) (by omega))) ?_
  refine Eq.trans (Code.bind_ok (iobufMove_ok (by rw [hiob, hblk]; omega) (by rw [hblk]; omega))) ?_
  refine Eq.trans (Code.assert_bind hcopied) ?_
  simp only [xfer, if_true, Bool.false_eq_true, if_false, memcpy_through,
    u32_next hle (by omega : n ≤ m), h.offset_move hle (by omega : n ≤ m)]
  rfl

theorem disk0Round_ok (h : AtBlock b m x) (hn : n = min 4 m) (hm : 0 < m)
    (hle : b + m ≤ s.dBlocks) : ∃ buffer, disk0Round write x s = .ok (x.next n,
      s.moved write (disk0Blksize * b) x.iob.base (disk0Blksize * n) buffer) := by
  cases write with
  | true => exact ⟨_, writeRound_ok h hn hm hle⟩
  | false => exact ⟨_, readRound_ok h hn hm hle⟩

/-! ## The loop -/

@[simp] theorem Vars.next_zero : x.next 0 = x := by simp [Vars.next]

theorem Vars.next_next : (x.next n).next m = x.next (n + m) := by
  unfold Vars.next
  simp only [Nat.cast_add, mul_add, Nat.add_assoc, Int.add_assoc, Nat.sub_sub]

theorem loop_ok (h : AtBlock b m x) (hle : b + m ≤ s.dBlocks) (hfuel : m < fuel) :
    ∃ buffer, Code.loop .endless (disk0Step write) fuel x s = .ok ((x.next m).iob,
      s.moved write (disk0Blksize * b) x.iob.base (disk0Blksize * m) buffer) := by
  induction fuel generalizing b m x s with
  | zero => omega
  | succ fuel ih =>
    unfold Code.loop
    rcases Nat.eq_zero_or_pos m with rfl | hm
    · have hresid : x.resid = 0 := h.resid
      have hstep : disk0Step write x s = .ok (.inr x.iob, s) := by
        unfold disk0Step
        rw [if_neg (not_not.mpr hresid)]
        rfl
      refine ⟨s.buffer, Eq.trans (Code.bind_ok hstep) ?_⟩
      rw [Vars.next_zero, Nat.mul_zero, moved_zero]
      rfl
    · obtain ⟨n, hn⟩ : ∃ n, n = min 4 m := ⟨_, rfl⟩
      obtain ⟨r, rfl⟩ : ∃ r, m = n + r := ⟨m - n, by omega⟩
      obtain ⟨buffer, hround⟩ := disk0Round_ok h hn hm hle
      have hresid : x.resid ≠ 0 := by
        rw [h.resid]
        exact Nat.mul_ne_zero (by decide) hm.ne'
      have hstep : disk0Step write x s = .ok (.inl (x.next n),
          s.moved write (disk0Blksize * b) x.iob.base (disk0Blksize * n) buffer) := by
        unfold disk0Step
        rw [if_pos hresid]
        exact Code.bind_ok hround
      obtain ⟨buffer', hrest⟩ := ih h.next (s := s.moved write (disk0Blksize * b) x.iob.base
        (disk0Blksize * n) buffer) (by rw [moved_dBlocks]; omega) (by omega)
      refine ⟨buffer', Eq.trans (Code.bind_ok hstep) (hrest.trans ?_)⟩
      have hbase : (x.next n).iob.base = x.iob.base + disk0Blksize * n := rfl
      rw [Vars.next_next, hbase, Nat.mul_add, moved_moved, ← Nat.mul_add]

/-! ## Requests -/

/-- The offset and the length are multiples of the size of a block. -/
def Iobuf.Aligned (iob : Iobuf) : Prop :=
  (disk0Blksize : ℤ) ∣ iob.offset ∧ disk0Blksize ∣ iob.resid

/-- The bytes of the request are on the device. -/
def Iobuf.Inside (iob : Iobuf) (s : Dev) : Prop :=
  iob.resid = 0 ∨ 0 ≤ iob.offset ∧ iob.offset + iob.resid ≤ disk0Blksize * s.dBlocks

/-- The iobuf after its request was carried out. -/
def Iobuf.done (iob : Iobuf) : Iobuf :=
  { iob with base := iob.base + iob.resid, offset := iob.offset + iob.resid, resid := 0 }

theorem disk0Io_aligned {q : ℤ} (ho : iob.offset = disk0Blksize * q)
    (hn : iob.resid = disk0Blksize * n) : disk0Io iob write s =
      if (s.dBlocks : ℤ) < (q + n) % 2 ^ 32 then .ok ((-eInval, iob), s)
      else if n % 2 ^ 32 = 0 then .ok ((0, iob), s)
      else (Code.loop Panic.endless (disk0Step write) (n + 1)
        ⟨iob, iob.resid, (q % 2 ^ 32).toNat⟩ >>= fun iob => pure (0, iob)) s := by
  have hblk : (disk0Blksize : ℤ) ≠ 0 := by decide
  have hdiv : iob.offset.tdiv disk0Blksize = q := by rw [ho, Int.mul_tdiv_cancel_left _ hblk]
  have hmod : iob.offset.tmod disk0Blksize = 0 := by rw [ho, Int.mul_tmod_right]
  have hdiv' : iob.resid / disk0Blksize = n := by rw [hn, Nat.mul_div_cancel_left _ (by decide)]
  have hmod' : iob.resid % disk0Blksize = 0 := by rw [hn, Nat.mul_mod_right]
  have hsum : u32 ((q % 2 ^ 32).toNat + u32 n) > s.dBlocks ↔
      (s.dBlocks : ℤ) < (q + n) % 2 ^ 32 := by
    unfold u32
    omega
  unfold disk0Io
  rw [hdiv, hdiv', if_neg (by simp [hmod, hmod']), Code.get_bind]
  simp only [hsum]
  split
  · rfl
  · change (if u32 n = 0 then _ else _ : Prog _) s = _
    unfold u32
    split
    · rfl
    · rfl

theorem disk0Io_misaligned (h : ¬ iob.Aligned) :
    disk0Io iob write s = .ok ((-eInval, iob), s) := by
  have hor : iob.offset.tmod disk0Blksize ≠ 0 ∨ iob.resid % disk0Blksize ≠ 0 := by
    by_contra hn
    rw [not_or, not_not, not_not] at hn
    exact h ⟨Int.dvd_of_tmod_eq_zero hn.1, Nat.dvd_of_mod_eq_zero hn.2⟩
  unfold disk0Io
  rw [if_pos hor]
  rfl

theorem disk0Io_passed {q : ℤ} {r : ℤ × Iobuf} {t : Dev} (ho : iob.offset = disk0Blksize * q)
    (hn : iob.resid = disk0Blksize * n) (h : (q + n) % 2 ^ 32 ≤ s.dBlocks)
    (hr : disk0Io iob write s = .ok (r, t)) : r.1 = 0 := by
  rw [disk0Io_aligned ho hn, if_neg (not_lt.mpr h)] at hr
  split at hr
  · cases hr
    rfl
  · obtain ⟨iob', u, -, hpure⟩ := Code.bind_eq_ok hr
    cases hpure
    rfl

theorem disk0Io_empty {q : ℤ} (ho : iob.offset = disk0Blksize * q) (hn : iob.resid = 0)
    (h : q % 2 ^ 32 ≤ s.dBlocks) : disk0Io iob write s =
      .ok ((0, iob.done), s.moved write iob.offset.toNat iob.base iob.resid s.buffer) := by
  have hdone : iob.done = iob := by
    obtain ⟨base, offset, len, resid⟩ := iob
    obtain rfl : resid = 0 := hn
    simp [Iobuf.done]
  have hpass : ¬ (s.dBlocks : ℤ) < (q + (0 : ℕ)) % 2 ^ 32 := by
    rw [Nat.cast_zero, add_zero]
    exact not_lt.mpr h
  rw [disk0Io_aligned (n := 0) ho hn, if_neg hpass, if_pos (Nat.zero_mod _), hn, moved_zero, hdone]

theorem disk0Io_between {q : ℤ} (ho : iob.offset = disk0Blksize * q)
    (hn : iob.resid = disk0Blksize * n) (hpos : 0 < n) (h₀ : 0 ≤ iob.offset)
    (hend : iob.offset + iob.resid ≤ disk0Blksize * s.dBlocks) : ∃ buffer, disk0Io iob write s =
      .ok ((0, iob.done), s.moved write iob.offset.toNat iob.base iob.resid buffer) := by
  have hlt := dBlocks_lt s
  have hblk : disk0Blksize = 4096 := rfl
  rw [ho, hn, hblk] at hend
  rw [ho, hblk] at h₀
  obtain ⟨b, rfl⟩ := Int.eq_ofNat_of_zero_le (show 0 ≤ q by omega)
  have hle : b + n ≤ s.dBlocks := by omega
  have hoff : iob.offset.toNat = disk0Blksize * b := by
    rw [ho, hblk]
    omega
  have hdone : ∀ x : Vars, x.iob = iob → (x.next n).iob = iob.done := by
    rintro x rfl
    simp only [Vars.next, Iobuf.done, hn, Nat.sub_self]
    rfl
  rw [disk0Io_aligned ho hn, if_neg (by omega), if_neg (by omega), hoff, hn]
  have hx : AtBlock b n ⟨iob, disk0Blksize * n, ((b : ℤ) % 2 ^ 32).toNat⟩ :=
    ⟨by dsimp only; omega, rfl, hn, ho⟩
  obtain ⟨buffer, hloop⟩ := loop_ok hx hle (Nat.lt_add_one n)
  exact ⟨buffer, by rw [Code.bind_ok hloop, hdone _ rfl]; rfl⟩

/-- The number of the block behind a request, as the test of `disk0_io` has it. -/
def Iobuf.pastEnd (iob : Iobuf) : ℤ := (iob.offset + iob.resid) / disk0Blksize % 2 ^ 32

theorem Iobuf.pastEnd_eq {q : ℤ} (ho : iob.offset = disk0Blksize * q)
    (hn : iob.resid = disk0Blksize * n) : iob.pastEnd = (q + n) % 2 ^ 32 := by
  have hsum : iob.offset + iob.resid = disk0Blksize * (q + n) := by
    rw [ho, hn]
    push_cast
    ring
  rw [Iobuf.pastEnd, hsum, Int.mul_ediv_cancel_left _ (by decide)]

theorem disk0Io_passes (ha : iob.Aligned) (h : iob.pastEnd ≤ s.dBlocks) (hi : iob.Inside s) :
    ∃ buffer, disk0Io iob write s =
      .ok ((0, iob.done), s.moved write iob.offset.toNat iob.base iob.resid buffer) := by
  obtain ⟨⟨q, hq⟩, n, hn⟩ := ha
  rw [Iobuf.pastEnd_eq hq hn] at h
  rcases Nat.eq_zero_or_pos n with rfl | hpos
  · rw [Nat.cast_zero, add_zero] at h
    exact ⟨_, disk0Io_empty hq (by rw [hn, Nat.mul_zero]) h⟩
  · have hne : iob.resid ≠ 0 := by
      rw [hn]
      exact Nat.mul_ne_zero (by decide) hpos.ne'
    obtain ⟨h₀, hend⟩ := hi.resolve_left hne
    exact disk0Io_between hq hn hpos h₀ hend

theorem Iobuf.pastEnd_le (h₀ : 0 ≤ iob.offset)
    (hend : iob.offset + iob.resid ≤ disk0Blksize * s.dBlocks) : iob.pastEnd ≤ s.dBlocks := by
  have hblk : disk0Blksize = 4096 := rfl
  rw [hblk] at hend
  rw [Iobuf.pastEnd, hblk]
  omega

/-- `disk0_io` refuses the requests that are not aligned or not on the device, and carries out the
others; what was written is read back. -/
structure Exact (s : Dev) (iob : Iobuf) : Prop where
  refused : ∀ write, ¬ (iob.Aligned ∧ iob.Inside s) →
    disk0Io iob write s = .ok ((-eInval, iob), s)
  moved : ∀ write, iob.Aligned → iob.Inside s → ∃ buffer, disk0Io iob write s =
    .ok ((0, iob.done), s.moved write iob.offset.toNat iob.base iob.resid buffer)
  readBack : ∀ base, iob.Aligned → iob.Inside s → ∃ iob' t u,
    disk0Io iob true s = .ok ((0, iob.done), t) ∧
    disk0Io { iob with base := base } false t = .ok ((0, iob'), u) ∧
    ∀ k < iob.resid, u.mem (base + k) = s.mem (iob.base + k)

theorem disk0Io_readBack (ha : iob.Aligned) (h : iob.pastEnd ≤ s.dBlocks) (hi : iob.Inside s)
    (base : ℕ) : ∃ iob' t u,
      disk0Io iob true s = .ok ((0, iob.done), t) ∧
      disk0Io { iob with base := base } false t = .ok ((0, iob'), u) ∧
      ∀ k < iob.resid, u.mem (base + k) = s.mem (iob.base + k) := by
  obtain ⟨buffer, hw⟩ := @disk0Io_passes s iob true ha h hi
  obtain ⟨buffer', hr⟩ := @disk0Io_passes (s.moved true iob.offset.toNat iob.base iob.resid buffer)
    { iob with base := base } false ha h hi
  refine ⟨_, _, _, hw, hr, fun k hk => ?_⟩
  simp only [Dev.moved, xfer, Bool.false_eq_true, if_false, if_true]
  rw [memcpy_in hk, memcpy_in hk]

/-- The requests on which `disk0_io` is exact. An empty one is inside of every device, but its block
number is compared all the same; of the others those behind the device pass whose last block number
is cut to one on the device. -/
theorem disk0Io_exact (s : Dev) (iob : Iobuf) : Exact s iob ↔ (iob.Aligned →
    if iob.resid = 0 then iob.pastEnd ≤ s.dBlocks
    else iob.Inside s ∨ (s.dBlocks : ℤ) < iob.pastEnd) := by
  constructor
  · intro h ha
    obtain ⟨⟨q, hq⟩, n, hn⟩ := id ha
    split
    · rename_i hz
      by_contra hlt
      rw [Iobuf.pastEnd_eq hq hn, not_le] at hlt
      obtain ⟨buffer, hm⟩ := h.moved false ha (.inl hz)
      rw [disk0Io_aligned hq hn, if_pos hlt] at hm
      cases hm
    · by_contra hno
      rw [not_or, not_lt, Iobuf.pastEnd_eq hq hn] at hno
      have hret := disk0Io_passed hq hn hno.2 (h.refused false fun hi => hno.1 hi.2)
      exact absurd (show -eInval = 0 from hret) (by decide)
  · intro h
    have hpass : iob.Aligned → iob.Inside s → iob.pastEnd ≤ s.dBlocks := by
      intro ha hi
      rcases hi with hz | ⟨h₀, hend⟩
      · have hle := h ha
        rwa [if_pos hz] at hle
      · exact Iobuf.pastEnd_le h₀ hend
    refine ⟨fun write hn => ?_, fun write ha hi => disk0Io_passes ha (hpass ha hi) hi,
      fun base ha hi => disk0Io_readBack ha (hpass ha hi) hi base⟩
    by_cases ha : iob.Aligned
    · have hi : ¬ iob.Inside s := fun hi => hn ⟨ha, hi⟩
      have hpast := h ha
      rw [if_neg fun hz => hi (.inl hz)] at hpast
      obtain ⟨⟨q, hq⟩, n, hn'⟩ := id ha
      have hlt := hpast.resolve_left hi
      rw [Iobuf.pastEnd_eq hq hn'] at hlt
      rw [disk0Io_aligned hq hn', if_pos hlt]
    · exact disk0Io_misaligned ha

def tenBlocks : Dev := ⟨zeros, 40960, zeros, zeros⟩

/-- A request for the block after `2 ^ 32` others gets block 0. -/
theorem disk0Io_truncated : ¬ Exact tenBlocks ⟨0, 2 ^ 44, 4096, 4096⟩ := by
  intro h
  have hout : ¬ Iobuf.Inside ⟨0, 2 ^ 44, 4096, 4096⟩ tenBlocks := by
    rintro (hz | hi)
    · exact absurd hz (by decide)
    · exact absurd hi.2 (by decide)
  have hret := disk0Io_passed (q := 2 ^ 32) (n := 1) (by decide) (by decide) (by decide)
    (h.refused false fun hi => hout hi.2)
  exact absurd (show -eInval = 0 from hret) (by decide)

/-! ## Blocks of a volume on the disk device

The number of a block is scaled to an offset of 32 bits. The ramdisk holds less than `2 ^ 32` bytes,
so that the offsets of the blocks of a mounted volume do not wrap around.
-/

variable {fs : Fs} {blkno : ℕ}

/-- The `struct device` of the disk after `disk0_device_init`. -/
def Dev.device (s : Dev) : Vfs.Device where
  dBlocks := s.dBlocks
  dBlocksize := disk0Blksize
  disk b i := s.disk (disk0Blksize * b + i)

/-- The check of the super block. -/
theorem sfsDoMount_blocks (dev : Vfs.Device) (m : Vfs.Mounting) :
    Code.Wp (Vfs.sfsDoMount dev) m (fun _ => True) fun r _ =>
      ∀ fs, r.2 = some fs → fs.blocks ≤ dev.dBlocks := by
  have hany : ∀ {α : Type} (p : Vfs.MountProg α) (t : Vfs.Mounting),
      Code.Wp p t (fun _ => True) fun _ _ => True := by
    intro α p t
    unfold Code.Wp
    split <;> trivial
  have hnone : ∀ (ret : ℤ) (t : Vfs.Mounting), Code.Wp (return (ret, none) : Vfs.MountProg _) t
      (fun _ => True) fun r _ => ∀ fs : Fs, r.2 = some fs → fs.blocks ≤ dev.dBlocks :=
    fun ret t => Code.Wp.pure fun fs h => by cases h
  unfold Vfs.sfsDoMount
  split
  · exact hnone _ _
  refine (hany _ _).bind fun a t _ => ?_
  split
  case isFalse => exact hnone _ _
  refine (hany _ _).bind fun a t _ => ?_
  split
  case isFalse => exact hnone _ _
  refine (hany _ _).bind fun ⟨ret, super⟩ t _ => ?_
  dsimp only
  split
  · exact hnone _ _
  split
  · exact hnone _ _
  split
  · exact hnone _ _
  rename_i hblocks
  refine (hany _ _).bind fun a t _ => ?_
  split
  case isFalse => exact hnone _ _
  unfold Vfs.mountFreemap
  refine (hany _ _).bind fun o t _ => ?_
  split
  · exact hnone _ _
  refine (hany _ _).bind fun ⟨ret, freemap⟩ t _ => ?_
  dsimp only
  split
  · exact hnone _ _
  refine (hany _ _).bind fun unused t _ => .bind_assert (fun _ => .bind_get (.pure fun fs h => ?_))
    fun _ => trivial
  cases h
  exact not_lt.mp hblocks

theorem u32_offset (h : blkno < s.dBlocks) : u32 (blkno * sfsBlksize) = disk0Blksize * blkno := by
  have hlt := dBlocks_lt s
  have hblk : disk0Blksize = 4096 := rfl
  have hsfs : sfsBlksize = 4096 := rfl
  rw [hblk, hsfs, u32]
  omega

theorem disk0Io_block (h : blkno < s.dBlocks) (buf : ℕ) (write : Bool) : ∃ iob buffer,
    disk0Io (iobufInit buf sfsBlksize (u32 (blkno * sfsBlksize))) write s =
      .ok ((0, iob), s.moved write (disk0Blksize * blkno) buf disk0Blksize buffer) := by
  have hblk : disk0Blksize = 4096 := rfl
  rw [u32_offset h]
  have hend : ((disk0Blksize * blkno : ℕ) : ℤ) + (4096 : ℕ) ≤ disk0Blksize * s.dBlocks := by
    rw [hblk]
    omega
  exact ⟨_, disk0Io_between (n := 1) (Nat.cast_mul _ _) rfl Nat.one_pos (Int.natCast_nonneg _) hend⟩

/-- A transfer moves one block: `r` is its result, with the memory at `buf`. -/
def Moves (s : Dev) (blkno buf : ℕ) (write : Bool) (r : Except Panic (ℤ × Dev)) : Prop :=
  ∃ buffer, r = .ok (0, s.moved write (disk0Blksize * blkno) buf disk0Blksize buffer)

/-- The blocks of a mounted volume are transferred to and from their own bytes of the device. -/
theorem sfs_block_transfer {m m' : Vfs.Mounting}
    (h : Vfs.sfsDoMount s.device m = .ok ((0, some fs), m')) (hb : blkno < fs.blocks) :
    (∀ buf, Moves s blkno buf false (sfsInitRead blkno buf s)) ∧
    (∀ buf write check, if blkno = 0 ∧ check = true
      then sfsRwblockNolock fs.blocks buf blkno write check s = .error .rwblock
      else Moves s blkno buf write (sfsRwblockNolock fs.blocks buf blkno write check s)) ∧
    ∀ other < fs.blocks, other ≠ blkno → ∀ i < disk0Blksize, ∀ j < disk0Blksize,
      disk0Blksize * other + i ≠ disk0Blksize * blkno + j := by
  have hle : fs.blocks ≤ s.dBlocks := (sfsDoMount_blocks s.device m).ok h fs rfl
  have hb' : blkno < s.dBlocks := hb.trans_le hle
  refine ⟨fun buf => ?_, fun buf write check => ?_, fun other _ hne i hi j hj => ?_⟩
  · obtain ⟨iob, buffer, hrun⟩ := disk0Io_block hb' buf false
    exact ⟨buffer, Code.bind_ok hrun⟩
  · unfold sfsRwblockNolock
    split
    · rename_i hc
      refine Code.bind_error (Code.assert_false ?_)
      rintro ⟨h₀ | h₀, -⟩
      · exact h₀ hc.1
      · rw [hc.2] at h₀
        cases h₀
    · rename_i hc
      obtain ⟨iob, buffer, hrun⟩ := disk0Io_block hb' buf write
      refine ⟨buffer, Eq.trans (Code.assert_bind ⟨?_, hb⟩) (Code.bind_ok hrun)⟩
      rw [not_and, Bool.not_eq_true] at hc
      exact (em (blkno = 0)).symm.imp id hc
  · have hblk : disk0Blksize = 4096 := rfl
    rw [hblk] at hi hj ⊢
    omega

/-- A device with the smallest volume. -/
def smallest : Dev where
  disk i := if i < 4 then putUint sfsMagic i else if i = 4 then 3 else 0
  length := 3 * disk0Blksize
  mem := zeros
  buffer := zeros

theorem sfs_block_transfer_smallest : ∃ fs, Vfs.sfsDoMount smallest.device ⟨[], []⟩ =
    .ok ((0, some fs), ⟨[], []⟩) ∧ ∀ buf,
    Moves smallest 2 buf false (sfsInitRead 2 buf smallest) := by
  have hblocks : smallest.device.blocks = 3 := by decide
  have hmap : Vfs.sfsFreemapBlocks smallest.device.blocks = 1 := by
    rw [hblocks]
    rfl
  have hbit : ∀ i < Vfs.sfsFreemapBlocks smallest.device.blocks * sfsBlkbits,
      ¬ smallest.device.bit i = true := by
    intro i _
    have hzero : Vfs.joined smallest.device.disk sfsBlknFreemap (i / 8) = 0 := by
      have hfree : sfsBlknFreemap = 2 := rfl
      have hblk : disk0Blksize = 4096 := rfl
      have hsfs : sfsBlksize = 4096 := rfl
      change (if _ < 4 then _ else if _ = 4 then _ else _ : UInt8) = 0
      rw [hfree, hblk, hsfs, if_neg (by omega), if_neg (by omega)]
    rw [Vfs.Device.bit, hzero]
    simp
  obtain ⟨fs, hmount,
    hfs⟩ := Vfs.sfsDoMount_ok (show smallest.device.dBlocksize = sfsBlksize from rfl)
    (by decide) (by decide)
    (by decide) (by decide) (by rw [hmap, hblocks]; decide) (by
      rw [Finset.filter_false_of_mem fun i hi => hbit i (Finset.mem_range.mp hi)]
      decide)
  refine ⟨fs, hmount, (sfs_block_transfer hmount ?_).1⟩
  rw [hfs.blocks, hblocks]
  decide

end UCore.Disk0

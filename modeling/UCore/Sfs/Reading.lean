import UCore.Sfs.Io

/-! # Reading a file

On a device whose transfers all succeed a read of a file leaves the volume as it is, and it returns
the bytes of the file as far as its map reaches.
-/

namespace UCore.Sfs

open Library

/-- All transfers succeed, and the blocks of the file are in use. -/
structure Legible (s : Fs) (ino : ℕ) : Prop where
  quiet : s.transfers = []
  bits : s.blocks ≤ s.nbits
  indirect : (s.din ino).indirect ≠ 0 → s.InUse (s.din ino).indirect
  slots : ∀ i < (s.din ino).blocks, i < maxBlocks → s.slot ino i ≠ 0 ∧ s.InUse (s.slot ino i)

section Blocks

variable {s : Fs} {b pos len offset : ℕ} {buf : Buf}

theorem rwblockNolock_read (hq : s.transfers = []) (hb : s.InUse b) :
    sfsRwblockNolock buf pos b false true s =
    .ok ((0, memcpy buf pos (s.disk b) 0 sfsBlksize), s) := by
  have h₀ := hb.1
  unfold sfsRwblockNolock
  rw [Code.bind_ok (Code.assert_true ⟨.inl (by omega), hb.2.1⟩)]
  cases s
  subst hq
  rfl

theorem sfsRbuf_read (hq : s.transfers = []) (hb : s.InUse b) (ho : offset < sfsBlksize)
    (hn : offset + len ≤ sfsBlksize) :
    sfsRbuf buf pos len b offset s = .ok ((0, memcpy buf pos (s.disk b) offset len), s) := by
  unfold sfsRbuf
  rw [Code.bind_ok (Code.assert_true ⟨ho, hn⟩), Code.bind_ok (rwblockNolock_read hq hb)]
  dsimp only
  rw [if_pos rfl, memcpy_memcpy hn]
  rfl

theorem sfsBlockOp_read (hq : s.transfers = []) (hb : s.InUse b) :
    sfsBlockOp false buf pos b s = .ok ((0, memcpy buf pos (s.disk b) 0 sfsBlksize), s) := by
  change sfsRwblock false 1 buf pos b s = _
  unfold sfsRwblock
  rw [Code.bind_ok (rwblockNolock_read hq hb)]
  rfl

theorem assertInuse_ok (hbits : s.blocks ≤ s.nbits) (hb : s.InUse b) :
    assertInuse b s = .ok ((), s) := by
  have htest : bitmapTest b s = .ok (false, s) := by
    unfold bitmapTest
    rw [Code.bind_ok (Code.assert_true (p := fun s : Fs => b < s.nbits) (hb.2.1.trans_le hbits)),
      Code.bind_ok rfl, hb.2.2]
    rfl
  have huse : sfsBlockInuse b s = .ok (true, s) := by
    unfold sfsBlockInuse
    rw [Code.bind_ok rfl, if_pos ⟨(Nat.pos_iff_ne_zero.mp hb.1), hb.2.1⟩, Code.bind_ok htest]
    rfl
  unfold assertInuse
  rw [Code.bind_ok huse]
  rfl

end Blocks

section File

variable {s : Fs} {ino i n blkno pos offset alen : ℕ} {buf : Buf}

theorem sfsBmapGetNolock_read (h : Legible s ino) (hi : i < (s.din ino).blocks)
    (hm : i < maxBlocks) :
    sfsBmapGetNolock ino i false s = .ok ((0, s.slot ino i), s) := by
  obtain ⟨hne, huse⟩ := h.slots i hi hm
  have hout : bmapOut (s.slot ino i) s = .ok ((0, s.slot ino i), s) := by
    unfold bmapOut
    rw [if_neg hne, Code.bind_ok (assertInuse_ok h.bits huse)]
    rfl
  unfold sfsBmapGetNolock
  rw [Code.bind_ok rfl]
  dsimp only
  by_cases hd : i < sfsNdirect
  · rw [Fs.slot, if_pos hd] at hout ⊢
    rw [if_pos hd, if_neg (by simp)]
    exact hout
  · have hk : i - sfsNdirect < sfsBlkNentry := by
      unfold maxBlocks at hm
      omega
    have h₀ : (s.din ino).indirect ≠ 0 := by
      intro he
      rw [Fs.slot, if_neg hd, if_pos he] at hne
      exact hne rfl
    have hB : sfsBlksize = 4096 := rfl
    have hE : sfsBlkNentry = 1024 := rfl
    have hentry : (getU32 (memcpy zeros 0 (s.disk (s.din ino).indirect)
        ((i - sfsNdirect) * 4) 4)) = s.slot ino i := by
      rw [Fs.slot, if_neg hd, if_neg h₀]
      exact getU32_congr fun k hk => memcpy_start hk
    have hsub : sfsBmapGetSubNolock (s.din ino).indirect (i - sfsNdirect) false s =
        .ok ((0, (s.din ino).indirect, s.slot ino i), s) := by
      unfold sfsBmapGetSubNolock
      rw [Code.bind_ok (Code.assert_true (p := fun _ : Fs => i - sfsNdirect < sfsBlkNentry) hk)]
      dsimp only
      rw [if_pos h₀, Code.bind_ok (sfsRbuf_read h.quiet (h.indirect h₀) (by omega) (by omega))]
      dsimp only
      rw [if_neg (by simp), if_pos (.inr rfl), hentry]
      rfl
    rw [if_neg hd, if_pos hk, Code.bind_ok hsub]
    dsimp only
    rw [if_neg (by simp), if_neg (by simp)]
    exact hout

theorem sfsBmapLoadNolock_read (h : Legible s ino) (hi : i < (s.din ino).blocks)
    (hm : i < maxBlocks) :
    sfsBmapLoadNolock ino i s = .ok ((0, s.slot ino i), s) := by
  have hc : decide (i = (s.din ino).blocks) = false := decide_eq_false hi.ne
  unfold sfsBmapLoadNolock
  rw [Code.bind_ok (Code.assert_true (p := fun s : Fs => i ≤ (s.din ino).blocks) hi.le),
    Code.bind_ok rfl]
  dsimp only
  rw [hc, Code.bind_ok (sfsBmapGetNolock_read h hi hm)]
  dsimp only
  rw [if_neg (by simp), Code.bind_ok (assertInuse_ok h.bits (h.slots i hi hm).2)]
  rfl

theorem sfsBmapLoadNolock_beyond (hi : i < (s.din ino).blocks) (hm : maxBlocks ≤ i) :
    sfsBmapLoadNolock ino i s = .error .outOfRange := by
  have hN : sfsNdirect = 12 := rfl
  have hE : sfsBlkNentry = 1024 := rfl
  have hM : maxBlocks = 1036 := rfl
  unfold sfsBmapLoadNolock
  rw [Code.bind_ok (Code.assert_true (p := fun s : Fs => i ≤ (s.din ino).blocks) hi.le),
    Code.bind_ok rfl]
  refine Code.bind_error ?_
  unfold sfsBmapGetNolock
  rw [Code.bind_ok rfl]
  dsimp only
  rw [if_neg (by omega), if_neg (by omega)]
  rfl

theorem ioLoop_read (h : Legible s ino) : ∀ n blkno alen buf, blkno + n ≤ (s.din ino).blocks →
    blkno + n ≤ maxBlocks →
    ioLoop ino false n blkno alen buf s = .ok ((0, alen + n * sfsBlksize,
      memcpy buf alen (s.byte ino) (blkno * sfsBlksize) (n * sfsBlksize)), s) := by
  intro n
  induction n with
  | zero =>
    intro blkno alen buf _ _
    have hz : memcpy buf alen (s.byte ino) (blkno * sfsBlksize) (0 * sfsBlksize) = buf := by
      funext x
      exact memcpy_out (by omega)
    rw [hz]
    rfl
  | succ n ih =>
    intro blkno alen buf hb hm
    have hblock : sfsBlockOp false buf alen (s.slot ino blkno) s = _ := sfsBlockOp_read h.quiet
      (h.slots blkno (by omega) (by omega)).2
    unfold ioLoop
    rw [Code.bind_ok (sfsBmapLoadNolock_read h (by omega) (by omega))]
    dsimp only
    rw [if_neg (by simp), Code.bind_ok hblock]
    dsimp only
    rw [if_neg (by simp), ih _ _ _ (by omega) (by omega), memcpy_byte (by omega) (by omega),
      Nat.add_zero, Nat.succ_mul blkno, memcpy_append, Nat.add_assoc,
        ← Nat.add_comm (n * sfsBlksize),
      ← Nat.succ_mul]

theorem ioLoop_beyond (h : Legible s ino) : ∀ n blkno alen buf, blkno + n ≤ (s.din ino).blocks →
    maxBlocks < blkno + n → blkno ≤ maxBlocks →
    ioLoop ino false n blkno alen buf s = .error .outOfRange := by
  intro n
  induction n with
  | zero =>
    intro blkno alen buf _ hm hle
    omega
  | succ n ih =>
    intro blkno alen buf hb hm hle
    unfold ioLoop
    by_cases hlt : blkno < maxBlocks
    · have hblock : sfsBlockOp false buf alen (s.slot ino blkno) s = _ := sfsBlockOp_read h.quiet
        (h.slots blkno (by omega) hlt).2
      rw [Code.bind_ok (sfsBmapLoadNolock_read h (by omega) hlt)]
      dsimp only
      rw [if_neg (by simp), Code.bind_ok hblock]
      dsimp only
      rw [if_neg (by simp)]
      exact ih _ _ _ (by omega) (by omega) hlt
    · exact Code.bind_error (sfsBmapLoadNolock_beyond (by omega) (by omega))

theorem ioPart_read (h : Legible s ino) (hi : i < (s.din ino).blocks) (hm : i < maxBlocks)
    (hn : n ≤ sfsBlksize) :
    ioPart ino false buf pos n i 0 s =
      .ok ((0, memcpy buf pos (s.byte ino) (i * sfsBlksize) n), s) := by
  unfold ioPart
  rw [Code.bind_ok (sfsBmapLoadNolock_read h hi hm)]
  dsimp only
  rw [if_neg (by simp)]
  change sfsRbuf buf pos n (s.slot ino i) 0 s = _
  rw [sfsRbuf_read h.quiet (h.slots i hi hm).2 (by decide) (by omega), memcpy_byte hi (by omega),
    Nat.add_zero]

theorem ioPart_beyond (hi : i < (s.din ino).blocks) (hm : maxBlocks ≤ i) :
    ioPart ino false buf pos n i 0 s = .error .outOfRange := by
  unfold ioPart
  exact Code.bind_error (sfsBmapLoadNolock_beyond hi hm)

/-- The first `n` bytes of the file. -/
theorem ioBlocks_read (h : Legible s ino) (hb : ceilBlocks n ≤ (s.din ino).blocks)
    (hm : ceilBlocks n ≤ maxBlocks) :
    ioBlocks ino false 0 n buf s = .ok ((0, n, memcpy buf 0 (s.byte ino) 0 n), s) := by
  have hB : sfsBlksize = 4096 := rfl
  have hc : ceilBlocks n = (n + 4095) / 4096 := by
    unfold ceilBlocks
    rw [hB]
    omega
  have hloop := ioLoop_read h (n / sfsBlksize) 0 0 buf (by rw [hB]; omega) (by rw [hB]; omega)
  rw [Nat.zero_add, Nat.zero_mul] at hloop
  unfold ioBlocks
  dsimp only
  rw [Nat.zero_div, Nat.sub_zero, Nat.zero_mod, if_neg (by simp)]
  unfold ioRest
  rw [Code.bind_ok hloop]
  dsimp only
  rw [if_neg (by simp)]
  split
  next hr =>
    have hpart : ioPart ino false (memcpy buf 0 (s.byte ino) 0 (n / sfsBlksize * sfsBlksize))
        (n / sfsBlksize * sfsBlksize) (n % sfsBlksize) (0 + n / sfsBlksize) 0 s = _ :=
      ioPart_read h (by rw [hB] at hr ⊢; omega) (by rw [hB] at hr ⊢; omega)
        (Nat.mod_lt _ (by decide)).le
    have happend : memcpy (memcpy buf 0 (s.byte ino) 0 (n / sfsBlksize * sfsBlksize))
        (0 + n / sfsBlksize * sfsBlksize) (s.byte ino) (0 + n / sfsBlksize * sfsBlksize)
        (n % sfsBlksize) = _ := memcpy_append
    rw [Nat.zero_add, Nat.div_add_mod'] at happend
    rw [Code.bind_ok hpart]
    dsimp only
    rw [if_neg (by simp), Nat.zero_add, happend, Nat.div_add_mod']
    rfl
  next hr =>
    have hz : n / sfsBlksize * sfsBlksize = n := by
      rw [hB] at hr ⊢
      omega
    rw [hz]
    rfl

theorem ioBlocks_beyond (h : Legible s ino) (hb : ceilBlocks n ≤ (s.din ino).blocks)
    (hm : maxBlocks < ceilBlocks n) : ioBlocks ino false 0 n buf s = .error .outOfRange := by
  have hB : sfsBlksize = 4096 := rfl
  have hc : ceilBlocks n = (n + 4095) / 4096 := by
    unfold ceilBlocks
    rw [hB]
    omega
  unfold ioBlocks
  dsimp only
  rw [Nat.zero_div, Nat.sub_zero, Nat.zero_mod, if_neg (by simp)]
  unfold ioRest
  by_cases hlt : maxBlocks < n / sfsBlksize
  · exact Code.bind_error (ioLoop_beyond h _ _ _ _ (by rw [hB]; omega) (by omega) (Nat.zero_le _))
  · have hloop := ioLoop_read h (n / sfsBlksize) 0 0 buf (by rw [hB]; omega) (by omega)
    rw [Code.bind_ok hloop]
    dsimp only
    rw [if_neg (by simp), if_pos (by rw [hB] at hlt ⊢; omega)]
    exact Code.bind_error (ioPart_beyond (by rw [hB] at hlt ⊢; omega) (by rw [hB] at hlt ⊢; omega))

theorem sfsIoNolock_eq (ht : (s.din ino).type ≠ sfsTypeDir) (hs : (s.din ino).size ≤ sfsMaxFileSize)
    (h₀ : 0 < (s.din ino).size) :
    sfsIoNolock ino buf 0 (s.din ino).size false s =
      (do
        let (ret, alen, buf) ← ioBlocks ino false 0 (s.din ino).size buf
        ioOut ino 0 alen
        return (ret, alen, buf) : Prog (ℤ × ℕ × Buf)) s := by
  have hM : sfsMaxFileSize = 134217728 := rfl
  have hoff : offT (0 + ((s.din ino).size : ℤ)) = (s.din ino).size := by
    unfold offT
    rw [zero_add]
    exact Int.bmod_eq_of_le (by omega) (by omega)
  unfold sfsIoNolock
  rw [Code.bind_ok (Code.assert_true (p := fun s : Fs => (s.din ino).type ≠ sfsTypeDir) ht),
    Code.bind_ok rfl]
  dsimp only
  rw [hoff, if_neg (by omega), if_neg (by omega), if_neg (by omega), if_neg (by decide)]
  have he : (min (min ((s.din ino).size : ℤ) (sfsMaxFileSize : ℤ)) ((s.din ino).size : ℤ)).toNat =
      (s.din ino).size := by omega
  rw [he]
  rfl

theorem sfsIoNolock_read (h : Legible s ino) (ht : (s.din ino).type ≠ sfsTypeDir)
    (hs : (s.din ino).size ≤ sfsMaxFileSize) (hb : ceilBlocks (s.din ino).size ≤ (s.din ino).blocks)
    (hm : ceilBlocks (s.din ino).size ≤ maxBlocks) :
    sfsIoNolock ino buf 0 (s.din ino).size false s =
      .ok ((0, (s.din ino).size, memcpy buf 0 (s.byte ino) 0 (s.din ino).size), s) := by
  rcases Nat.eq_zero_or_pos (s.din ino).size with h₀ | h₀
  · have hz : memcpy buf 0 (s.byte ino) 0 0 = buf := by
      funext x
      exact memcpy_out (by omega)
    unfold sfsIoNolock
    rw [Code.bind_ok (Code.assert_true (p := fun s : Fs => (s.din ino).type ≠ sfsTypeDir) ht),
      Code.bind_ok rfl, h₀, hz]
    rfl
  · have hout : ioOut ino 0 (s.din ino).size s = .ok ((), s) := by
      change Except.ok ((), if _ then _ else s) = _
      rw [if_neg (by omega)]
    rw [sfsIoNolock_eq ht hs h₀, Code.bind_ok (ioBlocks_read h hb hm)]
    exact Code.bind_ok hout

theorem sfsIoNolock_beyond (h : Legible s ino) (ht : (s.din ino).type ≠ sfsTypeDir)
    (hs : (s.din ino).size ≤ sfsMaxFileSize) (hb : ceilBlocks (s.din ino).size ≤ (s.din ino).blocks)
    (hm : maxBlocks < ceilBlocks (s.din ino).size) :
    sfsIoNolock ino buf 0 (s.din ino).size false s = .error .outOfRange := by
  have hB : sfsBlksize = 4096 := rfl
  have h₀ : 0 < (s.din ino).size := by
    by_contra hz
    rw [Nat.eq_zero_of_not_pos hz] at hm
    exact absurd hm (by decide)
  rw [sfsIoNolock_eq ht hs h₀]
  exact Code.bind_error (ioBlocks_beyond h hb hm)

end File

end UCore.Sfs

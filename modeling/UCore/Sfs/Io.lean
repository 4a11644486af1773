import UCore.Sfs.Transfer

/-! # Reading and writing a range of a file

`sfs_io_nolock` cuts a range of the file into parts of blocks. Each part moves its bytes, and the
parts add up to a prefix of the range.
-/

namespace UCore.Sfs

open Library

/-- The number of blocks that `n` bytes need. -/
def ceilBlocks (n : ℕ) : ℕ := (n + sfsBlksize - 1) / sfsBlksize

theorem ceilBlocks_le {n k : ℕ} : ceilBlocks n ≤ k ↔ n ≤ k * sfsBlksize := by
  unfold ceilBlocks sfsBlksize
  omega

theorem lt_ceilBlocks {n k : ℕ} : k < ceilBlocks n ↔ k * sfsBlksize < n := by
  unfold ceilBlocks sfsBlksize
  omega

theorem ceilBlocks_part {i x : ℕ} (h : 0 < x) (h' : x ≤ sfsBlksize) :
    ceilBlocks (i * sfsBlksize + x) = i + 1 := by
  unfold sfsBlksize at h'
  unfold ceilBlocks sfsBlksize
  omega

theorem ceilBlocks_mono {n m : ℕ} (h : n ≤ m) : ceilBlocks n ≤ ceilBlocks m :=
  ceilBlocks_le.mpr (h.trans (ceilBlocks_le.mp le_rfl))

theorem part_div {i off : ℕ} (h : off < sfsBlksize) : (i * sfsBlksize + off) / sfsBlksize = i := by
  rw [Nat.mul_comm, Nat.mul_add_div (by decide), Nat.div_eq_of_lt h, Nat.add_zero]

/-- The panics of a transfer of `n` bytes at `offset`: it starts past the last block, or it goes
beyond the reach of the map. -/
def Beyond (s : Fs) (ino offset n : ℕ) (e : Panic) : Prop :=
  e = .pastBlocks ∧ (s.din ino).blocks < offset / sfsBlksize ∨
    e = .outOfRange ∧ offset / sfsBlksize ≤ (s.din ino).blocks ∧ maxBlocks * sfsBlksize < offset + n

/-- Of `n` bytes at `offset` of the file the first `m` were moved between the file and the
buffer. -/
structure Moves (I : Set ℕ) (ino : ℕ) (s : Fs) (O : ℕ → Owner) (write : Bool)
    (offset n : ℕ) (buf : Buf)
    (pos : ℕ) (ret : ℤ) (m : ℕ) (buf' : Buf) (t : Fs) (O' : ℕ → Owner) : Prop where
  works : Works I ino s O t O'
  size : (t.din ino).size = (s.din ino).size
  le : m ≤ n
  done : ret = 0 → m = n
  bytes : (t.byte ino, buf') = xfer write (s.byte ino) buf offset pos m
  none : n = 0 → t = s ∧ O' = O ∧ ret = 0
  start : 0 < n → offset / sfsBlksize ≤ (s.din ino).blocks
  grows : (s.din ino).blocks ≤ (t.din ino).blocks
  cover : 0 < m → offset + m ≤ (t.din ino).blocks * sfsBlksize
  marked : t.sin ino = s.sin ino ∨ (t.sin ino).dirty = true ∨
    (s.din ino).blocks < (t.din ino).blocks
  linked : (s.din ino).blocks < (t.din ino).blocks →
    (s.din ino).blocks < sfsNdirect ∨ (s.din ino).indirect = 0 → (t.sin ino).dirty = true
  within : offset + n ≤ (s.din ino).blocks * sfsBlksize →
    t.freemap = s.freemap ∧ t.unusedBlocks = s.unusedBlocks ∧ t.sin ino = s.sin ino
  blocks : s.Reliable → (t.din ino).blocks =
    if m = 0 then (s.din ino).blocks else max (s.din ino).blocks (ceilBlocks (offset + m))
  grown : s.Reliable → Grown ino s t
  full : s.Reliable → ret ≠ 0 → ret = -eNoMem ∧
    s.unusedBlocks < s.room ino ((t.din ino).blocks - (s.din ino).blocks + 1) ∧
    (t.din ino).blocks * sfsBlksize < offset + n ∧ (t.din ino).blocks < maxBlocks ∧
    (if m = 0 then offset / sfsBlksize = (t.din ino).blocks
      else offset + m = (t.din ino).blocks * sfsBlksize)

namespace Moves

variable {s t u : Fs} {O O' O'' : ℕ → Owner} {I : Set ℕ} {ino i b offset off n n' m m' pos : ℕ}
  {write : Bool} {buf buf' buf'' : Buf} {ret ret' : ℤ}

theorem refl (h : Wf s O I) (hino : ino ∈ I) :
    Moves I ino s O write offset 0 buf pos 0 0 buf s O where
  works := .refl h
  size := rfl
  le := le_rfl
  done _ := rfl
  bytes := xfer_zero.symm
  none _ := ⟨rfl, rfl, rfl⟩
  start h := absurd h (lt_irrefl 0)
  grows := le_rfl
  cover h := absurd h (lt_irrefl 0)
  marked := .inl rfl
  linked h := absurd h (lt_irrefl _)
  within _ := ⟨rfl, rfl, rfl⟩
  blocks _ := (if_pos rfl).symm
  grown _ := .of_blocks h hino rfl rfl
  full _ h := absurd rfl h

theorem of_failed {r : ℤ × ℕ} (h : Load I ino s O i r t) (hwf : Wf s O I) (hino : ino ∈ I)
    (hr : r.1 ≠ 0) (hn : 0 < n) (hoff : off + n ≤ sfsBlksize) :
    ∃ O', Moves I ino s O write (i * sfsBlksize + off) n buf pos r.1 0 buf t O' := by
  rcases h with ⟨hne, hw, hsin, hfile, hle, hm, hun, hfull⟩ | _ | _
  · have hdin : t.din ino = s.din ino := congrArg Sin.din (congrFun hsin ino)
    refine ⟨_, hw, by rw [hdin], by omega, fun h => absurd h hr, ?_, fun h => by omega,
      ?_, by rw [hdin], fun h => by omega, .inl (congrFun hsin ino),
      fun h => absurd h (by rw [hdin]; exact lt_irrefl _), ?_, ?_, ?_, ?_⟩
    · rw [xfer_zero]
      exact congrArg (·, buf) (congrArg File.byte hfile)
    · intro _
      rw [part_div (by omega)]
      exact hle
    · intro hx
      have hlt : i < (s.din ino).blocks := by
        by_contra hge
        have := Nat.mul_le_mul_right sfsBlksize (Nat.not_lt.mp hge)
        omega
      obtain ⟨h₁, h₂⟩ := hun (.inr hlt)
      exact ⟨h₁, h₂, congrFun hsin ino⟩
    · intro _
      rw [hdin, if_pos rfl]
    · intro hrel
      exact .of_blocks hwf hino hdin (hun (.inl hrel)).2
    · intro hrel _
      obtain ⟨h₁, h₂, h₃⟩ := hfull hrel
      rw [hdin, Nat.sub_self, Nat.zero_add, ← h₂]
      refine ⟨h₁, h₃, by omega, hm, ?_⟩
      rw [if_pos rfl, part_div (by omega)]
  · exact absurd rfl hr
  · exact absurd rfl hr

/-- The block was loaded, and its bytes were moved or not. -/
theorem of_part (h : Ready I ino s O i b t O')
    (hp : Part I ino t O' write (i * sfsBlksize + off) n buf pos ret buf' u) (hn : 0 < n)
    (hoff : off + n ≤ sfsBlksize) :
    ∃ m, (ret ≠ 0 → m = 0) ∧
      Moves I ino s O write (i * sfsBlksize + off) n buf pos ret m buf' u O' := by
  have hsin : u.sin ino = t.sin ino := congrFun hp.sin ino
  have hdin : u.din ino = t.din ino := congrArg Sin.din hsin
  have hceil : ceilBlocks (i * sfsBlksize + off + n) = i + 1 := by
    rw [Nat.add_assoc]
    exact ceilBlocks_part (by omega) hoff
  have hw := h.works.trans hp.works
  have hsize : (u.din ino).size = (s.din ino).size := by rw [hdin, h.size]
  have hstart : 0 < n → (i * sfsBlksize + off) / sfsBlksize ≤ (s.din ino).blocks := by
    intro _
    rw [part_div (by omega)]
    exact h.le
  have hgrows : (s.din ino).blocks ≤ (u.din ino).blocks := by
    rw [hdin, h.blocks]
    exact le_max_left _ _
  have hmarked : u.sin ino = s.sin ino ∨ (u.sin ino).dirty = true ∨
      (s.din ino).blocks < (u.din ino).blocks := by
    rw [hsin, hdin]
    exact h.marked.imp id .inr
  have hlinked : (s.din ino).blocks < (u.din ino).blocks →
      (s.din ino).blocks < sfsNdirect ∨ (s.din ino).indirect = 0 → (u.sin ino).dirty = true := by
    rw [hsin, hdin]
    exact h.linked
  have hwithin : i * sfsBlksize + off + n ≤ (s.din ino).blocks * sfsBlksize →
      u.freemap = s.freemap ∧ u.unusedBlocks = s.unusedBlocks ∧ u.sin ino = s.sin ino := by
    intro hx
    have hlt : i < (s.din ino).blocks := by
      by_contra hge
      have := Nat.mul_le_mul_right sfsBlksize (Nat.not_lt.mp hge)
      omega
    obtain ⟨h₁, h₂, h₃⟩ := h.within hlt
    exact ⟨hp.freemap.trans h₁, hp.unused.trans h₂, hsin.trans h₃⟩
  have hgrown : Grown ino s u := by
    refine ⟨hgrows, ?_, ?_⟩
    · rw [hdin, hp.unused]
      exact h.grown.unused
    · rw [hdin]
      exact h.grown.indirect
  rcases hp.moved with ⟨hret, hrel, hbyte, hbuf⟩ | ⟨hret, hx⟩
  · have hnot : ¬ s.Reliable := fun hr => hrel (h.works.reliable hr)
    refine ⟨0, fun _ => rfl, hw, hsize, by omega, fun h => absurd h hret, ?_, fun h => by omega,
      hstart, hgrows, fun h => by omega, hmarked, hlinked, hwithin, fun hr => absurd hr hnot,
      fun hr => absurd hr hnot, fun hr => absurd hr hnot⟩
    rw [xfer_zero, hbyte, hbuf, h.byte]
  · refine ⟨n, fun h => absurd hret h, hw, hsize, le_rfl, fun _ => rfl, ?_, fun h => by omega,
      hstart, hgrows, ?_, hmarked, hlinked, hwithin, ?_, fun _ => hgrown, fun _ h => absurd hret h⟩
    · rw [hx, h.byte]
    · intro _
      refine ceilBlocks_le.mp ?_
      rw [hceil, hdin, h.blocks]
      exact le_max_right _ _
    · intro _
      rw [if_neg (by omega), hceil, hdin, h.blocks]

/-- A transfer that goes on after a part was moved. -/
theorem trans (h : Moves I ino s O write offset n buf pos 0 m buf' t O')
    (h' : Moves I ino t O' write (offset + n) n' buf' (pos + n) ret m' buf'' u O'') :
    Moves I ino s O write offset (n + n') buf pos ret (n + m') buf'' u O'' := by
  obtain rfl := h.done rfl
  rcases Nat.eq_zero_or_pos m with rfl | hm
  · obtain ⟨rfl, rfl, -⟩ := h.none rfl
    have hbuf : buf' = buf := by
      have := h.bytes
      rw [xfer_zero] at this
      exact congrArg Prod.snd this
    subst hbuf
    simpa using h'
  have hcover := h.cover hm
  have hle := h.le
  have hle' := h'.le
  refine ⟨h.works.trans h'.works, h'.size.trans h.size, by omega, ?_, ?_, fun h => by omega,
    fun _ => h.start hm, h.grows.trans h'.grows, ?_, ?_, ?_, ?_, ?_, ?_, ?_⟩
  · intro hr
    rw [h'.done hr]
  · have hb := h'.bytes
    rw [show t.byte ino = (xfer write (s.byte ino) buf offset pos m).1 from congrArg
      Prod.fst h.bytes,
      show buf' = (xfer write (s.byte ino) buf offset pos m).2 from congrArg Prod.snd h.bytes,
      xfer_append] at hb
    exact hb
  · intro _
    rcases Nat.eq_zero_or_pos m' with rfl | hm'
    · exact hcover.trans (Nat.mul_le_mul_right _ h'.grows)
    · rw [← Nat.add_assoc]
      exact h'.cover hm'
  · have h₁ := h.grows
    have h₂ := h'.grows
    rcases h'.marked with he | hd | hb
    · rcases h.marked with he' | hd' | hb'
      · exact .inl (he.trans he')
      · exact .inr (.inl (by rw [he]; exact hd'))
      · exact .inr (.inr (by omega))
    · exact .inr (.inl hd)
    · exact .inr (.inr (by omega))
  · intro hlt hd
    by_cases hb : (s.din ino).blocks < (t.din ino).blocks
    · exact h'.works.dirty (h.linked hb hd)
    · rcases h.marked with he | hdirty | hb'
      · have hdin : t.din ino = s.din ino := congrArg Sin.din he
        exact h'.linked (by rwa [hdin]) (by rwa [hdin])
      · exact h'.works.dirty hdirty
      · exact absurd hb' hb
  · intro hx
    obtain ⟨h₁, h₂, h₃⟩ := h.within (by omega)
    have hdin : t.din ino = s.din ino := congrArg Sin.din h₃
    obtain ⟨h₄, h₅, h₆⟩ := h'.within (by rw [hdin]; omega)
    exact ⟨h₄.trans h₁, h₅.trans h₂, h₆.trans h₃⟩
  · intro hr
    have h₁ := h.blocks hr
    have h₂ := h'.blocks (h.works.reliable hr)
    rw [if_neg (by omega)] at h₁
    rw [if_neg (by omega : ¬ m + m' = 0), h₂, h₁]
    split
    · rename_i h₀
      rw [h₀, Nat.add_zero]
    · have := ceilBlocks_mono (Nat.add_le_add_left (Nat.le_add_right m m') offset)
      rw [Nat.add_assoc]
      omega
  · intro hr
    exact (h.grown hr).trans (h'.grown (h.works.reliable hr))
  · intro hr hret
    obtain ⟨h₁, h₂, h₃, hmt, hend⟩ := h'.full (h.works.reliable hr) hret
    have hg := h.grown hr
    have h₄ := hg.unused
    have h₅ := hg.room (n := (u.din ino).blocks - (t.din ino).blocks + 1)
    have h₆ := h.grows
    have h₇ := h'.grows
    have h₈ : (t.din ino).blocks - (s.din ino).blocks +
      ((u.din ino).blocks - (t.din ino).blocks + 1) =
        (u.din ino).blocks - (s.din ino).blocks + 1 := by omega
    rw [h₈] at h₅
    refine ⟨h₁, by omega, by omega, hmt, ?_⟩
    rw [if_neg (by omega)]
    split at hend
    · rename_i h₀
      have h₉ := Nat.mul_le_mul_right sfsBlksize h₇
      have h₁₀ := Nat.div_mul_le_self (offset + m) sfsBlksize
      rw [hend] at h₁₀
      omega
    · omega

theorem stop (h : Moves I ino s O write offset n buf pos ret m buf' t O') (hret : ret ≠ 0)
    (hn : 0 < n) {k : ℕ} : Moves I ino s O write offset (n + k) buf pos ret m buf' t O' :=
  ⟨h.works, h.size, h.le.trans (by omega), fun h => absurd h hret, h.bytes, fun h => by omega,
    fun _ => h.start hn, h.grows, h.cover, h.marked, h.linked, fun hx => h.within (by omega),
      h.blocks, h.grown,
    fun hr hne => by
      obtain ⟨h₁, h₂, h₃, h₄, h₅⟩ := h.full hr hne
      exact ⟨h₁, h₂, by omega, h₄, h₅⟩⟩

theorem beyond (h : Moves I ino s O write offset n buf pos 0 m buf' t O') {e : Panic}
    (he : Beyond t ino (offset + n) n' e) : Beyond s ino offset (n + n') e := by
  obtain rfl := h.done rfl
  rcases Nat.eq_zero_or_pos m with rfl | hm
  · obtain ⟨rfl, -, -⟩ := h.none rfl
    simpa using he
  have hcover := h.cover hm
  rcases he with ⟨-, hlt⟩ | ⟨he, -, hlt⟩
  · have := (Nat.le_div_iff_mul_le (k := sfsBlksize) (by decide)).mp hlt
    rw [Nat.succ_mul] at this
    have : 0 < sfsBlksize := by decide
    omega
  · exact .inr ⟨he, h.start hm, by omega⟩

end Moves

section Blocks

variable {s : Fs} {O : ℕ → Owner} {I : Set ℕ} {ino i off offset endpos n alen pos : ℕ}
    {write : Bool}
  {buf : Buf}

theorem beyond_load {e : Panic} (hn : 0 < n) (hoff : off + n ≤ sfsBlksize)
    (h : e = .pastBlocks ∧ (s.din ino).blocks < i ∨
      e = .outOfRange ∧ i = (s.din ino).blocks ∧ maxBlocks ≤ i) :
    Beyond s ino (i * sfsBlksize + off) n e := by
  unfold Beyond
  rw [part_div (by omega)]
  rcases h with h | ⟨he, hi, hm⟩
  · exact .inl h
  · refine .inr ⟨he, hi.le, ?_⟩
    have := Nat.mul_le_mul_right sfsBlksize hm
    omega

theorem Beyond.more {e : Panic} {k : ℕ} (h : Beyond s ino offset n e) :
    Beyond s ino offset (n + k) e := h.imp id fun ⟨h₁, h₂, h₃⟩ => ⟨h₁, h₂, by omega⟩

theorem Wf.ioPart_wp (h : Wf s O I) (hino : ino ∈ I) (hn : 0 < n) (hoff : off + n ≤ sfsBlksize) :
    Code.Wp (ioPart ino write buf pos n i off) s (Beyond s ino (i * sfsBlksize + off) n) fun r t =>
      ∃ m O', (r.1 ≠ 0 → m = 0) ∧
        Moves I ino s O write (i * sfsBlksize + off) n buf pos r.1 m r.2 t O' := by
  unfold ioPart
  refine Code.Wp.bind
    ((h.load_wp hino).mono (fun _ he => beyond_load hn hoff he) fun _ _ hq => hq) ?_
  rintro ⟨ret, b⟩ t hl
  dsimp only
  by_cases hr : ret = 0
  · rw [if_neg (not_not.mpr hr)]
    obtain ⟨O', hready⟩ := hl.ready h hino hr
    have hslot : t.slot ino i = b := hready.slot
    have hlt : i < (t.din ino).blocks := by
      rw [hready.blocks]
      omega
    rw [← hslot]
    refine (hready.works.wf.bufOp_wp hino hlt (by omega) hoff).mono (fun _ he => he.elim) ?_
    intro r u hp
    obtain ⟨m, hm⟩ := Moves.of_part hready hp hn hoff
    exact ⟨m, O', hm⟩
  · rw [if_pos hr]
    obtain ⟨O', hm⟩ := Moves.of_failed hl h hino hr hn hoff
    exact Code.Wp.pure ⟨0, O', fun _ => rfl, hm⟩

theorem Wf.ioLoop_wp {nblks : ℕ} (h : Wf s O I) (hino : ino ∈ I) :
    Code.Wp (ioLoop ino write nblks i alen buf) s
      (Beyond s ino (i * sfsBlksize) (nblks * sfsBlksize)) fun r t =>
        ∃ m O', r.2.1 = alen + m ∧
          Moves I ino s O write (i * sfsBlksize) (nblks * sfsBlksize) buf alen r.1 m
            r.2.2 t O' := by
  induction nblks generalizing s O i alen buf with
  | zero =>
    rw [Nat.zero_mul]
    exact Code.Wp.pure ⟨0, O, rfl, .refl h hino⟩
  | succ nblks ih =>
    have hblk : 0 < sfsBlksize := by decide
    have hle : 0 + sfsBlksize ≤ sfsBlksize := (Nat.zero_add _).le
    have hn : (nblks + 1) * sfsBlksize = sfsBlksize + nblks * sfsBlksize := by
      rw [Nat.succ_mul, Nat.add_comm]
    have hnext : (i + 1) * sfsBlksize = i * sfsBlksize + sfsBlksize := Nat.succ_mul ..
    rw [hn]
    unfold ioLoop
    refine Code.Wp.bind ((h.load_wp hino).mono ?_ fun _ _ hq => hq) ?_
    · intro e he
      have hb : Beyond s ino (i * sfsBlksize + 0) sfsBlksize e := beyond_load hblk hle he
      rw [Nat.add_zero (i * sfsBlksize)] at hb
      exact hb.more
    rintro ⟨ret, b⟩ t hl
    dsimp only
    by_cases hr : ret = 0
    · rw [if_neg (not_not.mpr hr)]
      obtain ⟨O', hready⟩ := hl.ready h hino hr
      have hslot : t.slot ino i = b := hready.slot
      have hlt : i < (t.din ino).blocks := by
        rw [hready.blocks]
        omega
      rw [← hslot]
      refine Code.Wp.bind ((hready.works.wf.blockOp_wp hino hlt).mono (fun _ he => he.elim)
        fun _ _ hq => hq) ?_
      rintro ⟨ret', buf'⟩ u hp
      dsimp only at hp ⊢
      have hp' : Part I ino t O' write (i * sfsBlksize + 0) sfsBlksize buf alen ret' buf' u := by
        rw [Nat.add_zero (i * sfsBlksize)]
        exact hp
      obtain ⟨m, hm₀, hm⟩ := Moves.of_part hready hp' hblk hle
      rw [Nat.add_zero] at hm
      by_cases hr' : ret' = 0
      · rw [if_neg (not_not.mpr hr')]
        subst hr'
        obtain rfl := hm.done rfl
        refine (ih hm.works.wf).mono ?_ ?_
        · intro e he
          rw [hnext] at he
          exact hm.beyond he
        · rintro ⟨ret, alen', buf''⟩ v ⟨m', O'', halen, hm'⟩
          dsimp only at halen hm' ⊢
          rw [hnext] at hm'
          exact ⟨sfsBlksize + m', O'', by omega, hm.trans hm'⟩
      · rw [if_pos hr']
        obtain rfl := hm₀ hr'
        exact Code.Wp.pure ⟨0, O', rfl, hm.stop hr' hblk⟩
    · rw [if_pos hr]
      obtain ⟨O', hm⟩ := Moves.of_failed hl h hino hr hblk hle
      rw [Nat.add_zero] at hm
      exact Code.Wp.pure ⟨0, O', rfl, hm.stop hr hblk⟩

theorem Wf.ioRest_wp {nblks : ℕ} (h : Wf s O I) (hino : ino ∈ I) :
    Code.Wp (ioRest ino write i nblks endpos alen buf) s
      (Beyond s ino (i * sfsBlksize) (nblks * sfsBlksize + endpos % sfsBlksize)) fun r t =>
        ∃ m O', r.2.1 = alen + m ∧ Moves I ino s O write (i * sfsBlksize)
          (nblks * sfsBlksize + endpos % sfsBlksize) buf alen r.1 m r.2.2 t O' := by
  have hmod : endpos % sfsBlksize < sfsBlksize := mod_lt_blksize
  unfold ioRest
  refine Code.Wp.bind ((h.ioLoop_wp hino).mono (fun _ he => he.more) fun _ _ hq => hq) ?_
  rintro ⟨ret, alen', buf'⟩ t ⟨m, O', rfl, hm⟩
  dsimp only at hm ⊢
  by_cases hr : ret = 0
  · rw [if_neg (not_not.mpr hr)]
    subst hr
    obtain rfl := hm.done rfl
    by_cases he : endpos % sfsBlksize = 0
    · rw [if_neg (not_not.mpr he), he, Nat.add_zero]
      exact Code.Wp.pure ⟨_, O', rfl, hm⟩
    · rw [if_pos he]
      have hstart : (i + nblks) * sfsBlksize + 0 = i * sfsBlksize + nblks * sfsBlksize := by
        rw [Nat.add_mul, Nat.add_zero]
      refine Code.Wp.bind ((hm.works.wf.ioPart_wp hino (Nat.pos_of_ne_zero he)
        (by omega : 0 + endpos % sfsBlksize ≤ sfsBlksize)).mono ?_ fun _ _ hq => hq) ?_
      · intro e hb
        rw [hstart] at hb
        exact hm.beyond hb
      · rintro ⟨ret', buf''⟩ u ⟨m', O'', hm₀, hm'⟩
        dsimp only at hm₀ hm' ⊢
        rw [hstart] at hm'
        have htotal := hm.trans hm'
        by_cases hr' : ret' = 0
        · rw [if_neg (not_not.mpr hr')]
          subst hr'
          obtain rfl := hm'.done rfl
          exact Code.Wp.pure ⟨_, O'', Nat.add_assoc alen _ _, htotal⟩
        · rw [if_pos hr']
          obtain rfl := hm₀ hr'
          rw [Nat.add_zero (nblks * sfsBlksize)] at htotal
          exact Code.Wp.pure ⟨_, O'', rfl, htotal⟩
  · rw [if_pos hr]
    refine Code.Wp.pure ⟨m, O', rfl, ?_⟩
    rcases Nat.eq_zero_or_pos nblks with rfl | hn
    · exact absurd (hm.none (Nat.zero_mul _)).2.2 hr
    · exact hm.stop hr (Nat.mul_pos hn (by decide))

theorem Wf.ioBlocks_wp (h : Wf s O I) (hino : ino ∈ I) (hlt : offset < endpos) :
    Code.Wp (ioBlocks ino write offset endpos buf) s
    (Beyond s ino offset (endpos - offset)) fun r t =>
      ∃ O', Moves I ino s O write offset (endpos - offset) buf 0 r.1 r.2.1 r.2.2 t O' := by
  have hblk : sfsBlksize = 4096 := rfl
  have hmod : offset % sfsBlksize < sfsBlksize := mod_lt_blksize
  have hdiv : offset / sfsBlksize * sfsBlksize + offset % sfsBlksize = offset := Nat.div_add_mod' ..
  have hdiv' : endpos / sfsBlksize * sfsBlksize + endpos % sfsBlksize = endpos :=
    Nat.div_add_mod' ..
  unfold ioBlocks
  dsimp only
  by_cases hoff : offset % sfsBlksize = 0
  · rw [if_neg (not_not.mpr hoff)]
    have hstart : offset / sfsBlksize * sfsBlksize = offset := by omega
    have hn : (endpos / sfsBlksize - offset / sfsBlksize) * sfsBlksize + endpos % sfsBlksize =
        endpos - offset := by
      rw [Nat.sub_mul]
      have := Nat.mul_le_mul_right sfsBlksize (Nat.div_le_div_right (c := sfsBlksize) hlt.le)
      omega
    have hw : Code.Wp (ioRest ino write (offset / sfsBlksize)
      (endpos / sfsBlksize - offset / sfsBlksize) endpos 0 buf) s _ _ := h.ioRest_wp hino
    rw [hstart, hn] at hw
    refine hw.mono (fun _ he => he) ?_
    rintro r t ⟨m, O', hm, hmoves⟩
    rw [Nat.zero_add] at hm
    rw [← hm] at hmoves
    exact ⟨O', hmoves⟩
  · rw [if_pos hoff]
    generalize hsize : (if endpos / sfsBlksize - offset / sfsBlksize ≠ 0 then
      sfsBlksize - offset % sfsBlksize else endpos - offset) = size
    have hsize' : 0 < size ∧ offset % sfsBlksize + size ≤ sfsBlksize ∧ size ≤ endpos - offset := by
      rw [hblk] at *
      split at hsize <;> omega
    obtain ⟨hpos, hle, hle'⟩ := hsize'
    have hw : Code.Wp (ioPart ino write buf 0 size (offset / sfsBlksize)
      (offset % sfsBlksize)) s _ _ :=
      h.ioPart_wp hino hpos hle
    rw [hdiv] at hw
    refine Code.Wp.bind (hw.mono ?_ fun _ _ hq => hq) ?_
    · intro e he
      have := he.more (k := endpos - offset - size)
      rwa [Nat.add_sub_cancel' hle'] at this
    rintro ⟨ret, buf'⟩ t ⟨m, O', hm₀, hm⟩
    dsimp only at hm₀ hm ⊢
    by_cases hr : ret = 0
    · rw [if_neg (not_not.mpr hr)]
      subst hr
      have hdone := hm.done rfl
      subst m
      by_cases hn : endpos / sfsBlksize - offset / sfsBlksize = 0
      · rw [if_pos hn]
        rw [if_neg (not_not.mpr hn)] at hsize
        subst hsize
        exact Code.Wp.pure ⟨O', hm⟩
      · rw [if_neg hn]
        rw [if_pos hn] at hsize
        have hnext : (offset / sfsBlksize + 1) * sfsBlksize = offset + size := by
          rw [Nat.succ_mul]
          omega
        have htail : (endpos / sfsBlksize - offset / sfsBlksize - 1) * sfsBlksize +
            endpos % sfsBlksize = endpos - offset - size := by
          rw [Nat.sub_sub, Nat.sub_mul, hnext]
          have hb := Nat.mul_le_mul_right sfsBlksize
            (by omega : offset / sfsBlksize + 1 ≤ endpos / sfsBlksize)
          omega
        have hrest : Code.Wp (ioRest ino write (offset / sfsBlksize + 1)
          (endpos / sfsBlksize - offset / sfsBlksize - 1) endpos size buf') t _ _ :=
            hm.works.wf.ioRest_wp hino
        rw [hnext, htail] at hrest
        refine hrest.mono ?_ ?_
        · intro e he
          have := hm.beyond he
          rwa [Nat.add_sub_cancel' hle'] at this
        · rintro ⟨ret', alen, buf''⟩ u ⟨m, O'', hal, hm'⟩
          dsimp only at hal hm' ⊢
          subst hal
          have htotal :=
            hm.trans (by rwa [Nat.zero_add size] : Moves I ino t O' write (offset + size)
            (endpos - offset - size) buf' (0 + size) ret' m buf'' u O'')
          rw [Nat.add_sub_cancel' hle'] at htotal
          exact ⟨O'', htotal⟩
    · rw [if_pos hr]
      obtain rfl := hm₀ hr
      have hm' := hm.stop (k := endpos - offset - size) hr hpos
      rw [Nat.add_sub_cancel' hle'] at hm'
      exact Code.Wp.pure ⟨O', hm'⟩

end Blocks

/-- The size of the file covers `alen` bytes at `offset`. -/
def Fs.cover (s : Fs) (sin offset alen : ℕ) : Fs :=
  if (s.din sin).size < offset + alen then
    s.setSin sin fun x => { din := { x.din with size := offset + alen }, dirty := true }
  else s

/-- `sfs_io_nolock` refuses the range. -/
def IoRejects (offset : ℤ) (len : ℕ) : Prop :=
  offset < 0 ∨ offset ≥ sfsMaxFileSize ∨ offset > offT (offset + len)

instance {offset : ℤ} {len : ℕ} : Decidable (IoRejects offset len) := by
  unfold IoRejects
  infer_instance

/-- The end of the range that `sfs_io_nolock` transfers. -/
def Fs.ioEnd (s : Fs) (sin : ℕ) (offset : ℤ) (len : ℕ) (write : Bool) : ℕ :=
  let endpos := (min (offT (offset + len)) sfsMaxFileSize).toNat
  if write then endpos else min endpos (s.din sin).size

section SetSize

variable {s : Fs} {O : ℕ → Owner} {I : Set ℕ} {ino n offset alen : ℕ}

theorem Wf.works_setSize (h : Wf s O I) :
    Works I ino s O (s.setSin ino fun x => { din := { x.din with size := n }, dirty := true }) O ∧
      (s.setSin ino fun x => { din := { x.din with size := n }, dirty := true }).file ino =
        { s.file ino with size := n } := by
  have hslot : ∀ j i, (s.setSin ino fun x =>
      { din := { x.din with size := n }, dirty := true }).slot j i = s.slot j i := by
    intro j i
    by_cases hj : j = ino
    · subst hj
      unfold Fs.slot
      rw [setSin_din]
      rfl
    · exact setSin_slot_ne hj
  constructor
  · refine Wf.works_setSin ?_ rfl (fun _ => rfl) fun _ _ => rfl
    refine h.same rfl rfl rfl rfl ?_ fun j _ i _ => hslot j i
    intro j
    by_cases hj : j = ino
    · subst hj
      rw [setSin_din]
      exact ⟨rfl, rfl⟩
    · rw [setSin_din_ne hj]
      exact ⟨rfl, rfl⟩
  · unfold Fs.file Fs.byte
    simp only [hslot, setSin_din]
    rfl

theorem Wf.works_cover (h : Wf s O I) : Works I ino s O (s.cover ino offset alen) O ∧
    (s.cover ino offset alen).file ino =
      { s.file ino with size := max (s.din ino).size (offset + alen) } ∧
    (s.cover ino offset alen).freemap = s.freemap ∧
    (s.cover ino offset alen).unusedBlocks = s.unusedBlocks ∧
    ((s.din ino).size < offset + alen ∧ ((s.cover ino offset alen).sin ino).dirty = true ∨
      offset + alen ≤ (s.din ino).size ∧ s.cover ino offset alen = s) := by
  unfold Fs.cover
  split
  · rename_i hlt
    refine ⟨h.works_setSize.1, ?_, rfl, rfl, .inl ⟨hlt, ?_⟩⟩
    · rw [h.works_setSize.2, max_eq_right hlt.le]
    · rw [setSin_sin]
  · rename_i hle
    refine ⟨.refl h, ?_, rfl, rfl, .inr ⟨by omega, rfl⟩⟩
    rw [max_eq_left (by omega)]
    rfl

end SetSize

section Range

variable {s t : Fs} {O : ℕ → Owner} {I : Set ℕ} {ino len : ℕ} {offset : ℤ}
    {write : Bool} {buf : Buf}

/-- The outcomes of `sfs_io_nolock`. -/
inductive Ranged (I : Set ℕ) (ino : ℕ) (s : Fs) (O : ℕ → Owner) (buf : Buf) (offset : ℤ) (len : ℕ)
    (write : Bool) : ℤ × ℕ × Buf → Fs → Prop
  | rejected : IoRejects offset len → Ranged I ino s O buf offset len write (-eInval, 0, buf) s
  | empty : ¬ IoRejects offset len → s.ioEnd ino offset len write ≤ offset.toNat →
      Ranged I ino s O buf offset len write (0, 0, buf) s
  | moved {ret : ℤ} {alen : ℕ} {buf' : Buf} {t : Fs} {O' : ℕ → Owner} : ¬ IoRejects offset len →
      offset.toNat < s.ioEnd ino offset len write →
      Moves I ino s O write offset.toNat (s.ioEnd ino offset len write - offset.toNat)
        buf 0 ret alen
        buf' t O' →
      Ranged I ino s O buf offset len write (ret, alen, buf') (t.cover ino offset.toNat alen)

theorem Wf.io_wp (h : Wf s O I) (hino : ino ∈ I) (htype : (s.din ino).type ≠ sfsTypeDir) :
    Code.Wp (sfsIoNolock ino buf offset len write) s
      (fun e => ¬ IoRejects offset len ∧ offset.toNat < s.ioEnd ino offset len write ∧
        Beyond s ino offset.toNat (s.ioEnd ino offset len write - offset.toNat) e)
      (Ranged I ino s O buf offset len write) := by
  unfold sfsIoNolock
  refine Code.Wp.bind_assert (fun _ => ?_) fun hn => absurd htype hn
  apply Code.Wp.bind_get
  dsimp only
  by_cases hrej : IoRejects offset len
  · rw [if_pos (by exact hrej)]
    exact Code.Wp.pure (.rejected hrej)
  rw [if_neg (by exact hrej)]
  have hrange : 0 ≤ offset ∧ offset < sfsMaxFileSize ∧ offset ≤ offT (offset + len) := by
    unfold IoRejects at hrej
    omega
  obtain ⟨h₀, hmax, hle⟩ := hrange
  by_cases heq : offset = offT (offset + len)
  · rw [if_pos heq]
    refine Code.Wp.pure (.empty hrej ?_)
    unfold Fs.ioEnd
    dsimp only
    split <;> omega
  rw [if_neg heq]
  by_cases hread : write = false ∧ offset ≥ (s.din ino).size
  · rw [if_pos hread]
    refine Code.Wp.pure (.empty hrej ?_)
    unfold Fs.ioEnd
    rw [hread.1]
    dsimp only
    rw [if_neg (by simp)]
    omega
  rw [if_neg hread]
  have hend : (if write = true then min (offT (offset + len)) (sfsMaxFileSize : ℤ)
      else min (min (offT (offset + len)) (sfsMaxFileSize : ℤ)) ((s.din ino).size : ℤ)).toNat =
        s.ioEnd ino offset len write := by
    unfold Fs.ioEnd
    dsimp only
    split
    · rfl
    · omega
  have hlt : offset.toNat < s.ioEnd ino offset len write := by
    unfold Fs.ioEnd
    dsimp only
    split
    · omega
    · rename_i hw
      have : ¬ offset ≥ (s.din ino).size := fun hx => hread ⟨by simpa using hw, hx⟩
      omega
  rw [hend]
  refine Code.Wp.bind ((h.ioBlocks_wp hino hlt).mono (fun _ he => ⟨hrej, hlt, he⟩)
    fun _ _ hq => hq) ?_
  rintro ⟨ret, alen, buf'⟩ t ⟨O', hm⟩
  exact Code.Wp.bind_modify (Code.Wp.pure (.moved hrej hlt hm))

end Range

end UCore.Sfs

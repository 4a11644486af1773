import UCore.Sfs.Files

/-! # Changes of one file

Each change that the file functions make to the state is work on one inode, and it changes the bytes
of that file in a known way.
-/

namespace UCore.Sfs

open Library

/-- The blocks `l` are lost. -/
def lose (O : ℕ → Owner) (l : List ℕ) : ℕ → Owner := fun b => if b ∈ l then .lost else O b

def File.grow (f : File) (n : ℕ) : File := { f with blocks := f.blocks + n }

/-- The blocks from `n` on are cut off. -/
def File.cut (f : File) (n : ℕ) : File :=
  { f with blocks := n, byte := fun k => if k < n * sfsBlksize then f.byte k else 0 }

section Lose

variable {O : ℕ → Owner} {l : List ℕ} {b : ℕ}

theorem lose_mem (h : b ∈ l) : lose O l b = .lost := if_pos h

theorem lose_not_mem (h : b ∉ l) : lose O l b = O b := if_neg h

@[simp] theorem lose_nil : lose O [] = O := by
  funext b
  exact lose_not_mem (by simp)

end Lose

namespace Wf

variable {s t u : Fs} {O : ℕ → Owner} {I : Set ℕ} {ino i b e n m : ℕ} {l : List ℕ}

theorem not_mem (h : Wf s O I) (ht : Takes s n l t) (hb : O b ≠ .free) : b ∉ l := fun hm =>
  hb ((h.free b).mp (ht.fresh b hm))

theorem takes_disk (h : Wf s O I) (ht : Takes s n l t) (hb : O b ≠ .free) :
    t.disk b = s.disk b := ht.disk b (h.used hb)

theorem takes_slot (h : Wf s O I) (ht : Takes s n l t) (hino : ino ∈ I) (hi : i < maxBlocks) :
    t.slot ino i = s.slot ino i := by
  refine slot_congr (by rw [ht.din]) (by rw [ht.din]) (fun hne x _ => ?_) hi
  rw [h.takes_disk ht (by rw [h.index ino hino hne]; simp)]

theorem takes_byte (h : Wf s O I) (ht : Takes s n l t) (hino : ino ∈ I) :
    t.byte ino = s.byte ino := by
  funext k
  unfold Fs.byte
  rw [ht.din]
  split
  · rename_i hk
    rw [h.takes_slot ht hino (hk.trans_le (h.reach ino hino)),
      h.takes_disk ht (by rw [h.data ino hino _ hk]; simp)]
  · rfl

theorem takes_file (h : Wf s O I) (ht : Takes s n l t) (hino : ino ∈ I) :
    t.file ino = s.file ino := by
  unfold Fs.file
  rw [h.takes_byte ht hino, ht.din]

/-- The blocks taken are lost. -/
theorem takes (h : Wf s O I) (ht : Takes s n l t) : Wf t (lose O l) I := by
  have hkeep : ∀ {b}, O b ≠ .free → lose O l b = O b := fun hb => lose_not_mem (h.not_mem ht hb)
  have hback : ∀ {b o}, lose O l b = o → o ≠ .lost → O b = o := by
    intro b o hb ho
    by_cases hm : b ∈ l
    · rw [lose_mem hm] at hb
      exact absurd hb.symm ho
    · rwa [lose_not_mem hm] at hb
  refine ⟨ht.sound h.sound, ?_, ?_, ?_, ?_, ?_, ?_, ?_, ?_, ?_, ?_⟩
  · rw [ht.blocks]
    exact h.width
  · intro b
    rw [ht.freemap, h.free]
    by_cases hm : b ∈ l
    · simp [lose_mem hm, hm]
    · simp [lose_not_mem hm, hm]
  · rw [hkeep (by rw [h.zero]; simp)]
    exact h.zero
  · intro b hb
    rw [ht.blocks]
    by_cases hm : b ∈ l
    · exact (h.sound.free b (ht.fresh b hm)).2
    · rw [lose_not_mem hm] at hb
      exact h.range b hb
  · intro j hj
    rw [ht.din]
    exact h.reach j hj
  · intro j hj i hi
    rw [ht.din] at hi
    have ho := h.data j hj i hi
    rw [h.takes_slot ht hj (hi.trans_le (h.reach j hj)), hkeep (by rw [ho]; simp)]
    exact ho
  · intro j hj i hi hm
    rw [ht.din] at hi
    rw [h.takes_slot ht hj hm]
    exact h.empty j hj i hi hm
  · intro b j i hb
    obtain ⟨h₁, h₂, h₃⟩ := h.dataOf b j i (hback hb (by simp))
    rw [ht.din, h.takes_slot ht h₁ (h₂.trans_le (h.reach j h₁))]
    exact ⟨h₁, h₂, h₃⟩
  · intro j hj hi
    rw [ht.din] at hi ⊢
    have ho := h.index j hj hi
    rw [hkeep (by rw [ho]; simp)]
    exact ho
  · intro b j hb
    rw [ht.din]
    exact h.indexOf b j (hback hb (by simp))

theorem works_takes (h : Wf s O I) (ht : Takes s n l t) : Works I ino s O t (lose O l) where
  wf := h.takes ht
  sin _ _ := by rw [ht.sin]
  type := by rw [ht.din]
  dirty hd := by rwa [ht.sin]
  super := by
    rcases ht.superDirty with hd | ⟨hd, rfl⟩
    · exact .inl hd
    · refine .inr ⟨hd, ?_, ht.unused⟩
      funext b
      exact Bool.eq_iff_iff.mpr (by simpa using ht.freemap b)
  transfers := ⟨n, ht.transfers⟩
  blocks := ht.blocks
  nbits := ht.nbits
  magic := ht.magic
  info := ht.info
  inodeList := ht.inodeList
  keep b hb := by
    have hf : O b ≠ .free := by
      intro hf
      rw [hf] at hb
      exact hb
    exact ⟨lose_not_mem (h.not_mem ht hf), h.takes_disk ht hf⟩

theorem works_later (h : Wf s O I) : Works I ino s O (s.later n) O := by
  have ht : Takes s n [] (s.later n) := by simpa using (Takes.refl s).later (m := n)
  have hw : Works I ino s O (s.later n) (lose O []) := h.works_takes ht
  simpa using hw

end Wf

section Sin

variable {s : Fs} {ino j : ℕ} {f : Sin → Sin}

@[simp] theorem setSin_din : (s.setSin ino f).din ino = (f (s.sin ino)).din := by
  simp [Fs.setSin, Fs.din]

@[simp] theorem setSin_sin : (s.setSin ino f).sin ino = f (s.sin ino) := Function.update_self ..

theorem setSin_sin_ne (h : j ≠ ino) : (s.setSin ino f).sin j = s.sin j := Function.update_of_ne h ..

theorem setSin_din_ne (h : j ≠ ino) : (s.setSin ino f).din j = s.din j := by
  unfold Fs.din
  rw [setSin_sin_ne h]

theorem setSin_slot_ne {i : ℕ} (h : j ≠ ino) : (s.setSin ino f).slot j i = s.slot j i := by
  unfold Fs.slot
  rw [setSin_din_ne h]
  rfl

theorem Wf.works_setSin {O O' : ℕ → Owner} {I : Set ℕ} (hwf : Wf (s.setSin ino f) O' I)
    (htype : (f (s.sin ino)).din.type = (s.din ino).type)
    (hdirty : (s.sin ino).dirty = true → (f (s.sin ino)).dirty = true)
    (hkeep : ∀ b, (O b).Foreign ino → O' b = O b) : Works I ino s O (s.setSin ino f) O' where
  wf := hwf
  sin j hj := setSin_sin_ne hj
  type := by rw [setSin_din, htype]
  dirty hd := by
    rw [Fs.setSin]
    simpa using hdirty hd
  super := .inr ⟨rfl, rfl, rfl⟩
  transfers := ⟨0, rfl⟩
  blocks := rfl
  nbits := rfl
  magic := rfl
  info := rfl
  inodeList := rfl
  keep b hb := ⟨hkeep b hb, rfl⟩

end Sin

section Index

variable {s : Fs} {O : ℕ → Owner} {I : Set ℕ} {ino i e : ℕ}

theorem setIndirect_slot (hz : Zeroed s e) (h₀ : (s.din ino).indirect = 0) (hi : i < maxBlocks) :
    (s.setIndirect ino e).slot ino i = s.slot ino i := by
  unfold maxBlocks at hi
  have hd : (s.setIndirect ino e).din ino = { s.din ino with indirect := e } := setSin_din
  unfold Fs.slot
  rw [hd, h₀]
  dsimp only
  split
  · rfl
  · split
    · rfl
    · exact entry_zeros hz (by omega)

/-- A lost block of zeros becomes the index block of an inode that has none. -/
theorem Wf.setIndirect (h : Wf s O I) (hino : ino ∈ I) (he : O e = .lost) (hz : Zeroed s e)
    (h₀ : (s.din ino).indirect = 0) :
    Wf (s.setIndirect ino e) (Function.update O e (.index ino)) I := by
  have hd : (s.setIndirect ino e).din ino = { s.din ino with indirect := e } := setSin_din
  have hblocks : ∀ j, ((s.setIndirect ino e).din j).blocks = (s.din j).blocks := by
    intro j
    by_cases hj : j = ino
    · rw [hj, hd]
    · rw [Fs.setIndirect, setSin_din_ne hj]
  have hslot : ∀ j ∈ I, ∀ i < maxBlocks, (s.setIndirect ino e).slot j i = s.slot j i := by
    intro j _ i hi
    by_cases hj : j = ino
    · rw [hj]
      exact setIndirect_slot hz h₀ hi
    · exact setSin_slot_ne hj
  have hup : ∀ {x : ℕ}, O x ≠ .lost → Function.update O e (Owner.index ino) x = O x := by
    intro x hx
    refine Function.update_of_ne ?_ ..
    rintro rfl
    exact hx he
  have hs := h.sound
  refine ⟨⟨hs.bits, hs.free, hs.count⟩, h.width, ?_, ?_, ?_, ?_, ?_, ?_, ?_, ?_, ?_⟩
  · intro x
    change s.freemap x = true ↔ _
    rw [h.free]
    by_cases hx : x = e
    · subst hx
      simp [he]
    · rw [Function.update_of_ne hx]
  · rw [hup (by rw [h.zero]; simp)]
    exact h.zero
  · intro x hx
    by_cases hxe : x = e
    · rw [hxe]
      exact h.range e (by simp [he])
    · rw [Function.update_of_ne hxe] at hx
      exact h.range x hx
  · intro j hj
    rw [hblocks]
    exact h.reach j hj
  · intro j hj i hi
    rw [hblocks] at hi
    have ho := h.data j hj i hi
    rw [hslot j hj i (hi.trans_le (h.reach j hj)), hup (by simp [ho])]
    exact ho
  · intro j hj i hi hm
    rw [hblocks] at hi
    rw [hslot j hj i hm]
    exact h.empty j hj i hi hm
  · intro x j i hx
    by_cases hxe : x = e
    · subst hxe
      simp at hx
    · rw [Function.update_of_ne hxe] at hx
      obtain ⟨h₁, h₂, h₃⟩ := h.dataOf x j i hx
      rw [hblocks, hslot j h₁ i (h₂.trans_le (h.reach j h₁))]
      exact ⟨h₁, h₂, h₃⟩
  · intro j hj
    by_cases hji : j = ino
    · subst hji
      rw [hd]
      intro _
      exact Function.update_self ..
    · rw [Fs.setIndirect, setSin_din_ne hji]
      intro hne
      have ho := h.index j hj hne
      rw [hup (by simp [ho])]
      exact ho
  · intro x j hx
    by_cases hxe : x = e
    · subst hxe
      rw [Function.update_self, Owner.index.injEq] at hx
      subst hx
      rw [hd]
      exact ⟨hino, rfl⟩
    · rw [Function.update_of_ne hxe] at hx
      obtain ⟨h₁, h₂⟩ := h.indexOf x j hx
      by_cases hji : j = ino
      · subst hji
        rw [h₀] at h₂
        subst h₂
        rw [h.zero] at hx
        cases hx
      · rw [Fs.setIndirect, setSin_din_ne hji]
        exact ⟨h₁, h₂⟩

theorem Wf.works_setIndirect (h : Wf s O I) (hino : ino ∈ I) (he : O e = .lost) (hz : Zeroed s e)
    (h₀ : (s.din ino).indirect = 0) :
    Works I ino s O (s.setIndirect ino e) (Function.update O e (.index ino)) := by
  refine Wf.works_setSin (h.setIndirect hino he hz h₀) rfl (fun _ => rfl) ?_
  intro b hb
  refine Function.update_of_ne ?_ ..
  rintro rfl
  rw [he] at hb
  exact hb

theorem Wf.setIndirect_file (h : Wf s O I) (hino : ino ∈ I) (hz : Zeroed s e)
    (h₀ : (s.din ino).indirect = 0) : (s.setIndirect ino e).file ino = s.file ino := by
  have hd : (s.setIndirect ino e).din ino = { s.din ino with indirect := e } := setSin_din
  unfold Fs.file
  rw [hd]
  congr 1
  funext k
  unfold Fs.byte
  rw [hd]
  dsimp only
  split
  · rename_i hk
    rw [setIndirect_slot hz h₀ (hk.trans_le (h.reach ino hino))]
    rfl
  · rfl

end Index

section Grow

variable {s t : Fs} {O O' : ℕ → Owner} {I : Set ℕ} {ino i b n : ℕ}

theorem div_lt_blocks {k : ℕ} : k / sfsBlksize < n ↔ k < n * sfsBlksize :=
  Nat.div_lt_iff_lt_mul (by decide)

theorem mod_lt_blksize {k : ℕ} : k % sfsBlksize < sfsBlksize := Nat.mod_lt _ (by decide)

theorem Wf.grow_file (h : Wf s O I) (hino : ino ∈ I)
    (hsize : (t.din ino).size = (s.din ino).size)
    (hblocks : (t.din ino).blocks = (s.din ino).blocks + 1)
    (hlt : (s.din ino).blocks < maxBlocks)
    (hslot : ∀ i < maxBlocks, t.slot ino i = if i = (s.din ino).blocks then b else s.slot ino i)
    (hz : Zeroed t b) (hdisk : ∀ x i, O x = .data ino i → t.disk x = s.disk x) :
    t.file ino = (s.file ino).grow 1 := by
  refine File.ext hsize hblocks (funext fun k => ?_)
  · change t.byte ino k = s.byte ino k
    unfold Fs.byte
    rw [hblocks]
    rcases Nat.lt_trichotomy (k / sfsBlksize) (s.din ino).blocks with hk | hk | hk
    · rw [if_pos (by omega), if_pos hk, hslot _ (by omega), if_neg (by omega),
        hdisk _ _ (h.data ino hino _ hk)]
    · rw [if_pos (by omega), if_neg (by omega), hslot _ (by omega), if_pos hk]
      exact hz _ mod_lt_blksize
    · rw [if_neg (by omega), if_neg (by omega)]

theorem Wf.works_direct (h : Wf s O I) (hino : ino ∈ I) (hb : O b = .lost) (hz : Zeroed s b)
    (hi : i = (s.din ino).blocks) (hd : i < sfsNdirect) :
    Works I ino s O ((s.setDirect ino i b).incBlocks ino) (Function.update O b (.data ino i)) ∧
      ((s.setDirect ino i b).incBlocks ino).file ino = (s.file ino).grow 1 ∧
      ((s.setDirect ino i b).incBlocks ino).slot ino i = b := by
  have hlt : (s.din ino).blocks < maxBlocks := by
    unfold maxBlocks
    omega
  have heq : (s.setDirect ino i b).incBlocks ino = s.setSin ino fun x =>
      { din := { x.din with
          direct := Function.update x.din.direct i b
          blocks := x.din.blocks + 1 }, dirty := true } := by
    unfold Fs.incBlocks Fs.setDirect Fs.setSin
    simp
  rw [heq]
  have hslot : ∀ k < maxBlocks, (s.setSin ino fun x =>
      { din := { x.din with
          direct := Function.update x.din.direct i b
          blocks := x.din.blocks + 1 }, dirty := true }).slot ino k =
        if k = (s.din ino).blocks then b else s.slot ino k := by
    intro k _
    unfold Fs.slot
    rw [setSin_din]
    change (if k < sfsNdirect then Function.update (s.din ino).direct i b k else _) = _
    by_cases hk : k = i
    · rw [if_pos (by omega), hk, Function.update_self, if_pos hi]
    · rw [if_neg (by omega : ¬ k = (s.din ino).blocks), Function.update_of_ne hk]
      rfl
  constructor
  · refine Wf.works_setSin ?_ rfl (fun _ => rfl) ?_
    · rw [hi]
      rw [hi] at hslot
      refine h.grow hb hino hlt rfl rfl rfl rfl ?_ ?_
      · intro j
        by_cases hj : j = ino
        · subst hj
          rw [setSin_din, if_pos rfl]
          exact ⟨rfl, rfl⟩
        · rw [setSin_din_ne hj, if_neg hj]
          exact ⟨rfl, rfl⟩
      · intro j _ k hk
        by_cases hj : j = ino
        · subst hj
          rw [hslot k hk]
          simp
        · rw [setSin_slot_ne hj, if_neg fun hx => hj hx.1]
    · intro x hx
      refine Function.update_of_ne ?_ ..
      rintro rfl
      rw [hb] at hx
      exact hx
  constructor
  · refine h.grow_file hino ?_ ?_ hlt hslot hz fun _ _ _ => rfl
    · rw [setSin_din]
      rfl
    · rw [setSin_din]
      rfl
  · rw [hslot i (by omega), if_pos hi]

/-- The state in which the entry of a new block is written to the index block of the inode. -/
def Fs.appendEntry (s : Fs) (ino i b n : ℕ) : Fs :=
  ((s.patch (s.din ino).indirect ((i - sfsNdirect) * 4) (putUint b) 0 4).later n).incBlocks ino

theorem appendEntry_din : (s.appendEntry ino i b n).din ino =
    { s.din ino with blocks := (s.din ino).blocks + 1 } := by
  unfold Fs.appendEntry Fs.incBlocks
  rw [setSin_din]
  rfl

theorem appendEntry_sin {j : ℕ} (h : j ≠ ino) : (s.appendEntry ino i b n).sin j = s.sin j := by
  unfold Fs.appendEntry Fs.incBlocks
  rw [setSin_sin_ne h]
  rfl

theorem Wf.works_entry (h : Wf s O I) (hino : ino ∈ I) (hb : O b = .lost) (hz : Zeroed s b)
    (hi : i = (s.din ino).blocks) (hd : sfsNdirect ≤ i) (hm : i < maxBlocks)
    (h₀ : (s.din ino).indirect ≠ 0) :
    Works I ino s O (s.appendEntry ino i b n) (Function.update O b (.data ino i)) ∧
      (s.appendEntry ino i b n).file ino = (s.file ino).grow 1 ∧
      (s.appendEntry ino i b n).slot ino i = b := by
  have hO := h.index ino hino h₀
  have hlt : (s.din ino).blocks < maxBlocks := by omega
  have hb32 : b < 2 ^ 32 := (h.range b (by simp [hb])).trans_le h.width
  have hother : ∀ {x : ℕ}, O x ≠ .index ino → (s.appendEntry ino i b n).disk x = s.disk x := by
    intro x hx
    refine patch_disk ?_
    rintro rfl
    exact hx hO
  have hsin : ∀ {j : ℕ}, j ≠ ino → (s.appendEntry ino i b n).din j = s.din j :=
    fun hj => congrArg Sin.din (appendEntry_sin hj)
  have hslot : ∀ k < maxBlocks, (s.appendEntry ino i b n).slot ino k =
      if k = (s.din ino).blocks then b else s.slot ino k := by
    intro k hk
    unfold Fs.slot
    rw [appendEntry_din]
    change (if k < sfsNdirect then (s.din ino).direct k else if (s.din ino).indirect = 0 then 0 else
      entry (Function.update s.disk _ _ (s.din ino).indirect) (k - sfsNdirect)) = _
    rw [Function.update_self, entry_memcpy hb32, if_neg h₀]
    by_cases hk : k < sfsNdirect
    · rw [if_pos hk, if_neg (by omega), if_pos hk]
    · rw [if_neg hk, if_neg hk, if_neg h₀]
      by_cases hx : k = i
      · rw [if_pos (by omega), if_pos (by omega)]
      · rw [if_neg (by omega), if_neg (by omega)]
  constructor
  · refine ⟨?_, fun j hj => appendEntry_sin hj, ?_, ?_, .inr ⟨rfl, rfl, rfl⟩, ⟨n, rfl⟩,
      rfl, rfl, rfl, rfl, rfl, ?_⟩
    · rw [hi]
      rw [hi] at hslot hsin hother
      refine h.grow hb hino hlt rfl rfl rfl rfl ?_ ?_
      · intro j
        by_cases hj : j = ino
        · subst hj
          rw [appendEntry_din, if_pos rfl]
          exact ⟨rfl, rfl⟩
        · rw [hsin hj, if_neg hj]
          exact ⟨rfl, rfl⟩
      · intro j hjI k hk
        by_cases hj : j = ino
        · subst hj
          rw [hslot k hk]
          simp
        · rw [if_neg fun hx => hj hx.1]
          refine slot_congr (by rw [hsin hj]) (by rw [hsin hj]) (fun hne x _ => ?_) hk
          rw [hother]
          rw [h.index j hjI hne]
          simpa using hj
    · rw [appendEntry_din]
    · intro hdirty
      change (Function.update s.sin ino _ ino).dirty = true
      rw [Function.update_self]
      exact hdirty
    · intro x hx
      refine ⟨Function.update_of_ne ?_ .., hother ?_⟩
      · rintro rfl
        rw [hb] at hx
        exact hx
      · intro ho
        rw [ho] at hx
        exact hx rfl
  constructor
  · refine h.grow_file hino ?_ ?_ hlt hslot ?_ ?_
    · rw [appendEntry_din]
    · rw [appendEntry_din]
    · intro k hk
      rw [hother (by simp [hb])]
      exact hz k hk
    · intro x j hx
      exact hother (by simp [hx])
  · rw [hslot i hm, if_pos hi]

/-- The number of blocks that appending `n` blocks to an inode takes. -/
def Fs.room (s : Fs) (ino n : ℕ) : ℕ :=
  n + if (s.din ino).indirect = 0 ∧ sfsNdirect < (s.din ino).blocks + n then 1 else 0

/-- A block was appended to the inode. -/
structure Appends (I : Set ℕ) (ino : ℕ) (s : Fs) (O : ℕ → Owner) (b : ℕ) (t : Fs) (O' : ℕ → Owner) :
    Prop where
  works : Works I ino s O t O'
  file : t.file ino = (s.file ino).grow 1
  slot : t.slot ino (s.din ino).blocks = b
  unused : t.unusedBlocks + s.room ino 1 = s.unusedBlocks
  indirect : (t.din ino).indirect = 0 ↔
    (s.din ino).indirect = 0 ∧ (s.din ino).blocks < sfsNdirect
  dirty : (s.din ino).blocks < sfsNdirect ∨ (s.din ino).indirect = 0 → (t.sin ino).dirty = true

theorem Adds.appends (h : Adds s ino i b t) (hwf : Wf s O I) (hino : ino ∈ I)
    (hi : i = (s.din ino).blocks) (hm : i < maxBlocks) :
    ∃ O', Appends I ino s O b (t.incBlocks ino) O' := by
  cases h with
  | @direct u hd ht hz =>
    have hO : lose O [b] b = .lost := lose_mem (by simp)
    have hdin : u.din ino = s.din ino := ht.din
    obtain ⟨h₁, h₂, h₃⟩ := (hwf.takes ht).works_direct hino hO hz (by rw [hdin]; exact hi) hd
    have hunused := ht.unused
    refine ⟨_, (hwf.works_takes ht).trans h₁, ?_, ?_, ?_, ?_, ?_⟩
    · rw [h₂, hwf.takes_file ht hino]
    · rw [← hi, h₃]
    · change u.unusedBlocks + _ = _
      unfold Fs.room
      rw [if_neg (by omega)]
      exact hunused
    · unfold Fs.incBlocks Fs.setDirect
      rw [setSin_din]
      change ((u.setDirect ino i b).din ino).indirect = 0 ↔ _
      unfold Fs.setDirect
      rw [setSin_din]
      change (u.din ino).indirect = 0 ↔ _
      rw [hdin]
      constructor
      · intro h₀
        exact ⟨h₀, by omega⟩
      · exact fun h => h.1
    · intro _
      unfold Fs.incBlocks Fs.setDirect
      rw [setSin_sin, setSin_sin]
  | @entry u hd h₀ ht hz =>
    have hO : lose O [b] b = .lost := lose_mem (by simp)
    have hdin : u.din ino = s.din ino := ht.din
    obtain ⟨h₁, h₂, h₃⟩ := (hwf.takes ht).works_entry (n := 2) hino hO hz
      (by rw [hdin]; exact hi) hd
      hm (by rw [hdin]; exact h₀)
    have hunused := ht.unused
    rw [Fs.appendEntry, hdin] at h₁ h₂ h₃
    refine ⟨_, (hwf.works_takes ht).trans h₁, ?_, ?_, ?_, ?_, ?_⟩
    · rw [h₂, hwf.takes_file ht hino]
    · rw [← hi, h₃]
    · change u.unusedBlocks + _ = _
      unfold Fs.room
      rw [if_neg (by omega)]
      exact hunused
    · unfold Fs.incBlocks
      rw [setSin_din]
      change (u.din ino).indirect = 0 ↔ _
      rw [hdin]
      constructor
      · exact fun h => absurd h h₀
      · exact fun h => h.1
    · intro h
      omega
  | @index e u hd h₀ he ht hze hz =>
    have hdin : u.din ino = s.din ino := ht.din
    have hne : b ≠ e := by
      have := ht.nodup
      simp only [List.nodup_cons, List.mem_singleton] at this
      exact fun h => this.1 h.symm
    have hwf' := hwf.takes ht
    have hOe : lose O [e, b] e = .lost := lose_mem (by simp)
    have h₀' : (u.din ino).indirect = 0 := by rw [hdin, h₀]
    have hw := hwf'.works_setIndirect hino hOe hze h₀'
    have hOb : Function.update (lose O [e, b]) e (Owner.index ino) b = .lost := by
      rw [Function.update_of_ne hne]
      exact lose_mem (by simp)
    have hd' : (u.setIndirect ino e).din ino = { u.din ino with indirect := e } := setSin_din
    obtain ⟨h₁, h₂, h₃⟩ := hw.wf.works_entry (n := 2) hino hOb hz (by rw [hd', hdin]; exact hi) hd
      hm (by rw [hd']; exact he)
    have hunused := ht.unused
    rw [Fs.appendEntry, hd'] at h₁ h₂ h₃
    have heq : ((u.patch e ((i - sfsNdirect) * 4) (putUint b) 0 4).later 2).setIndirect ino e =
        ((u.setIndirect ino e).patch e ((i - sfsNdirect) * 4) (putUint b) 0 4).later 2 := rfl
    rw [heq]
    refine ⟨_, ((hwf.works_takes ht).trans hw).trans h₁, ?_, ?_, ?_, ?_, ?_⟩
    · rw [h₂, hwf'.setIndirect_file hino hze h₀', hwf.takes_file ht hino]
    · rw [← hi, h₃]
    · change u.unusedBlocks + _ = _
      unfold Fs.room
      rw [if_pos ⟨h₀, by omega⟩]
      exact hunused
    · unfold Fs.incBlocks
      rw [setSin_din]
      change ((u.setIndirect ino e).din ino).indirect = 0 ↔ _
      rw [hd']
      constructor
      · exact fun h => absurd h he
      · intro h
        omega
    · intro _
      unfold Fs.incBlocks
      rw [setSin_sin]
      change ((u.setIndirect ino e).sin ino).dirty = true
      unfold Fs.setIndirect
      rw [setSin_sin]

theorem Wf.works_patch {offset pos m x : ℕ} {buf : Buf} (hwf : Wf (s.patch x offset buf pos m) O I)
    (hx : ¬ (O x).Foreign ino) : Works I ino s O (s.patch x offset buf pos m) O where
  wf := hwf
  sin _ _ := rfl
  type := rfl
  dirty := id
  super := .inr ⟨rfl, rfl, rfl⟩
  transfers := ⟨0, rfl⟩
  blocks := rfl
  nbits := rfl
  magic := rfl
  info := rfl
  inodeList := rfl
  keep b hb := by
    refine ⟨rfl, patch_disk ?_⟩
    rintro rfl
    exact hx hb

end Grow

end UCore.Sfs

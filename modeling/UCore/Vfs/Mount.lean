import Mathlib.Algebra.BigOperators.Intervals
import UCore.Defs
import UCore.Sfs.Volume
import UCore.Vfs.Model

/-! # Mounting a volume

The model of `sfs_do_mount` and of the functions of `bitmap.c` that it calls. Bit `i` of a map of
32-bit words is bit `i % 8` of its byte `i / 8`. A failed mount frees what it allocated, which is
not part of the model.
-/

namespace UCore.Vfs

open Library Sfs

def sfsMaxInfoLen : ℕ := 31
def wordBits : ℕ := 32

/-- `struct device` of a block device with its contents. -/
structure Device where
  dBlocks : ℕ
  dBlocksize : ℕ
  disk : ℕ → Buf

/-- The assertions. -/
inductive MountPanic
  | bitmapCreate
  | initFreemap
  | bitmapTranslate
  | unusedBlocks
deriving DecidableEq

/-- The answers of the coming calls of `kmalloc` and of the coming transfers, which succeed when the
lists are empty. -/
structure Mounting where
  kmallocs : List Bool
  transfers : List ℤ

abbrev MountProg : Type → Type := Code MountPanic Mounting

structure Bitmap where
  nbits : ℕ
  nwords : ℕ
  map : Buf

def mountAlloc : MountProg Bool := fun s =>
  .ok (s.kmallocs.headD true, { s with kmallocs := s.kmallocs.tail })

/-- `sfs_init_read`: the error and the block. The device refuses a transfer past its end. -/
def sfsInitRead (dev : Device) (blkno : ℕ) : MountProg (ℤ × Buf) := fun s =>
  let blkno := blkno * sfsBlksize % 2 ^ 32 / sfsBlksize
  if dev.dBlocks < blkno + 1 then .ok ((-eInval, zeros), s)
  else .ok ((s.transfers.headD 0, dev.disk blkno), { s with transfers := s.transfers.tail })

/-- `bitmap_create`. The bits from `nbits` on are in use. -/
def bitmapCreate (nbits : ℕ) : MountProg (Option Bitmap) := do
  Code.assert (fun _ => nbits ≠ 0 ∧ nbits < (nbits + wordBits) % 2 ^ 32) .bitmapCreate
  if ← mountAlloc then
    if ← mountAlloc then
      return some ⟨nbits, (nbits + wordBits - 1) / wordBits, bitmapByte fun i => decide (i < nbits)⟩
    else return none
  else return none

def Bitmap.bit (b : Bitmap) (index : ℕ) : Bool := (b.map (index / 8)).toNat.testBit (index % 8)

def Bitmap.test (b : Bitmap) (index : ℕ) : MountProg Bool := do
  Code.assert (fun _ => index < b.nbits) .bitmapTranslate
  return b.bit index

/-- The loop of `sfs_init_freemap` over `nblks` blocks, into the map from `pos` on. -/
def initFreemapLoop (dev : Device) : ℕ → ℕ → ℕ → Buf → MountProg (ℤ × Buf)
  | 0, _, _, map => return (0, map)
  | nblks + 1, blkno, pos, map => do
    let (ret, data) ← sfsInitRead dev blkno
    if ret ≠ 0 then return (ret, map)
    else initFreemapLoop dev nblks (blkno + 1) (pos + sfsBlksize) (memcpy map pos data 0 sfsBlksize)

/-- `sfs_init_freemap`: the error and the bitmap. -/
def sfsInitFreemap (dev : Device) (freemap : Bitmap) (blkno nblks : ℕ) :
    MountProg (ℤ × Bitmap) := do
  Code.assert (fun _ => 4 * freemap.nwords = nblks * sfsBlksize) .initFreemap
  let (ret, map) ← initFreemapLoop dev nblks blkno 0 freemap.map
  return (ret, { freemap with map := map })

/-- The loop of `sfs_do_mount` that counts the set bits of `n` from `i` on. -/
def countUnused (freemap : Bitmap) : ℕ → ℕ → ℕ → MountProg ℕ
  | 0, _, unused => return unused
  | n + 1, i, unused => do
    if ← freemap.test i then countUnused freemap n (i + 1) (unused + 1)
    else countUnused freemap n (i + 1) unused

def sfsFreemapBits (blocks : ℕ) : ℕ := (blocks + sfsBlkbits - 1) / sfsBlkbits * sfsBlkbits % 2 ^ 32

def sfsFreemapBlocks (blocks : ℕ) : ℕ := (blocks + sfsBlkbits - 1) / sfsBlkbits

/-- The file system with a super block and a freemap, and no inode in memory. -/
def mountedFs (dev : Device) (super : Buf) (freemap : Bitmap) (transfers : List ℤ) : Fs where
  disk := dev.disk
  transfers := transfers
  magic := getU32 super
  blocks := getU32 fun i => super (4 + i)
  unusedBlocks := getU32 fun i => super (8 + i)
  info := fun i => if i = sfsMaxInfoLen then 0 else super (12 + i)
  nbits := freemap.nbits
  freemap := freemap.bit
  superDirty := false
  sin ino := ⟨diskInode (dev.disk ino), false⟩
  inodeList := []

/-- The part of `sfs_do_mount` from the freemap on, with the super block in memory. -/
def mountFreemap (dev : Device) (super : Buf) : MountProg (ℤ × Option Fs) := do
  let blocks := getU32 fun i => super (4 + i)
  match ← bitmapCreate (sfsFreemapBits blocks) with
  | none => return (-eNoMem, none)
  | some freemap =>
    let (ret, freemap) ← sfsInitFreemap dev freemap sfsBlknFreemap (sfsFreemapBlocks blocks)
    if ret ≠ 0 then return (ret, none)
    else
      let unused ← countUnused freemap (sfsFreemapBits blocks) 0 0
      Code.assert (fun _ => unused = getU32 fun i => super (8 + i)) .unusedBlocks
      return (0, some (mountedFs dev super freemap (← Code.get).transfers))

/-- `sfs_do_mount`: the error and the file system. -/
def sfsDoMount (dev : Device) : MountProg (ℤ × Option Fs) := do
  if dev.dBlocksize ≠ sfsBlksize then return (-eNaDev, none)
  else if ← mountAlloc then
    if ← mountAlloc then
      let (ret, super) ← sfsInitRead dev sfsBlknSuper
      if ret ≠ 0 then return (ret, none)
      else if getU32 super ≠ sfsMagic then return (-eInval, none)
      else if dev.dBlocks < getU32 fun i => super (4 + i) then return (-eInval, none)
      else if ← mountAlloc then mountFreemap dev super
      else return (-eNoMem, none)
    else return (-eNoMem, none)
  else return (-eNoMem, none)

section Mount

variable {dev : Device} {map super : Buf} {freemap : Bitmap} {s : Mounting}

theorem sfsInitRead_ok {b : ℕ} (hb : b < dev.dBlocks) (hw : b < 2 ^ 20) :
    sfsInitRead dev b ⟨[], []⟩ = .ok ((0, dev.disk b), ⟨[], []⟩) := by
  have he : b * sfsBlksize % 2 ^ 32 / sfsBlksize = b := by
    have hB : sfsBlksize = 4096 := rfl
    rw [hB]
    omega
  unfold sfsInitRead
  dsimp only
  rw [he, if_neg (by omega)]
  rfl

/-- The blocks `b`, `b + 1`, … of the device one after the other. -/
def joined (disk : ℕ → Buf) (b : ℕ) : Buf := fun x => disk (b + x / sfsBlksize) (x % sfsBlksize)

theorem initFreemapLoop_ok : ∀ n b pos map, b + n ≤ dev.dBlocks → b + n ≤ 2 ^ 20 →
    ∃ map', initFreemapLoop dev n b pos map ⟨[], []⟩ = .ok ((0, map'), ⟨[], []⟩) ∧
      ∀ x, map' x = if pos ≤ x ∧ x < pos + n * sfsBlksize then joined dev.disk b (x - pos)
        else map x := by
  have hB : sfsBlksize = 4096 := rfl
  intro n
  induction n with
  | zero =>
    intro b pos map _ _
    exact ⟨map, rfl, fun x => by rw [if_neg (by omega)]⟩
  | succ n ih =>
    intro b pos map hb hw
    obtain ⟨map', hrun,
      hmap⟩ := ih (b + 1) (pos + sfsBlksize) (memcpy map pos (dev.disk b) 0 sfsBlksize)
      (by omega) (by omega)
    refine ⟨map', ?_, fun x => ?_⟩
    · unfold initFreemapLoop
      rw [Code.bind_ok (sfsInitRead_ok (by omega) (by omega))]
      exact hrun
    · rw [hmap]
      unfold joined memcpy
      rw [hB]
      by_cases h₁ : pos + 4096 ≤ x ∧ x < pos + 4096 + n * 4096
      · have hd : (x - pos) / 4096 = (x - (pos + 4096)) / 4096 + 1 := by omega
        have hm : (x - pos) % 4096 = (x - (pos + 4096)) % 4096 := by omega
        rw [if_pos h₁, if_pos (by omega), hd, hm, Nat.add_right_comm, Nat.add_assoc]
      · rw [if_neg h₁]
        by_cases h₂ : pos ≤ x ∧ x < pos + 4096
        · have hd : (x - pos) / 4096 = 0 := by omega
          have hm : (x - pos) % 4096 = x - pos := by omega
          rw [if_pos h₂, if_pos (by omega), hd, hm, Nat.zero_add, Nat.add_zero]
        · rw [if_neg h₂, if_neg (by omega)]

theorem countUnused_ok : ∀ n i unused, i + n ≤ freemap.nbits →
    countUnused freemap n i unused s =
      .ok (unused + ((Finset.range n).filter fun k => freemap.bit (i + k) = true).card, s) := by
  intro n
  induction n with
  | zero =>
    intro i unused _
    simp [countUnused]
  | succ n ih =>
    intro i unused hi
    have htest : freemap.test i s = .ok (freemap.bit i, s) := by
      unfold Bitmap.test
      rw [Code.bind_ok (Code.assert_true (by omega))]
      rfl
    have hcard : ((Finset.range (n + 1)).filter fun k => freemap.bit (i + k) = true).card =
        (if freemap.bit i = true then 1 else 0) +
          ((Finset.range n).filter fun k => freemap.bit (i + 1 + k) = true).card := by
      rw [Finset.card_filter, Finset.sum_range_succ', Finset.card_filter, Nat.add_zero,
        Nat.add_comm]
      simp only [Nat.add_assoc, Nat.add_comm 1]
    unfold countUnused
    rw [Code.bind_ok htest, hcard]
    split
    next hb =>
      rw [ih (i + 1) (unused + 1) (by omega), Nat.add_assoc]
    next hb =>
      rw [ih (i + 1) unused (by omega), Nat.zero_add]

/-- The number of blocks in the super block of the device. -/
def Device.blocks (dev : Device) : ℕ := getU32 fun i => dev.disk sfsBlknSuper (4 + i)

def Device.unusedBlocks (dev : Device) : ℕ := getU32 fun i => dev.disk sfsBlknSuper (8 + i)

/-- Bit `i` of the freemap of the device. -/
def Device.bit (dev : Device) (i : ℕ) : Bool :=
  (joined dev.disk sfsBlknFreemap (i / 8)).toNat.testBit (i % 8)

/-- The file system is the volume on the device, with no inode in memory. -/
structure Mounted (dev : Device) (fs : Fs) : Prop where
  disk : fs.disk = dev.disk
  transfers : fs.transfers = []
  magic : fs.magic = sfsMagic
  blocks : fs.blocks = dev.blocks
  unusedBlocks : fs.unusedBlocks = dev.unusedBlocks
  nbits : fs.nbits = sfsFreemapBlocks dev.blocks * sfsBlkbits
  bits : ∀ i < fs.nbits, fs.freemap i = dev.bit i
  rest : ∀ i, fs.nbits ≤ i → fs.freemap i = false
  superDirty : fs.superDirty = false
  sin : ∀ ino, fs.sin ino = ⟨diskInode (dev.disk ino), false⟩
  inodeList : fs.inodeList = []

theorem bitmapByte_zero {f : ℕ → Bool} {i : ℕ} (h : ∀ k < 8, f (8 * i + k) = false) :
    bitmapByte f i = 0 := by
  have hl : ((List.range 8).map fun k => if f (8 * i + k) then 2 ^ k else 0) =
      (List.range 8).map fun _ => 0 :=
    List.map_congr_left fun k hk => by simp [h k (List.mem_range.mp hk)]
  unfold bitmapByte
  rw [hl]
  rfl

theorem sfsFreemapBlocks_eq {b : ℕ} : sfsFreemapBlocks b = (b + 32767) / 32768 := by
  have hbits : sfsBlkbits = 32768 := rfl
  unfold sfsFreemapBlocks
  rw [hbits]
  omega

/-- The freemap of the device is read. -/
theorem initFreemap_ok {b n : ℕ} (hn : 0 < n) (hn' : n ≤ 2 ^ 10) (hb : b + n ≤ dev.dBlocks)
    (hw : b + n ≤ 2 ^ 20) :
    ∃ fm fm', bitmapCreate (n * sfsBlkbits) ⟨[], []⟩ = .ok (some fm, ⟨[], []⟩) ∧
      sfsInitFreemap dev fm b n ⟨[], []⟩ = .ok ((0, fm'), ⟨[], []⟩) ∧
      fm'.nbits = n * sfsBlkbits ∧
      (∀ i < n * sfsBlkbits, fm'.bit i = (joined dev.disk b (i / 8)).toNat.testBit (i % 8)) ∧
      ∀ i, n * sfsBlkbits ≤ i → fm'.bit i = false := by
  have hB : sfsBlksize = 4096 := rfl
  have hbits : sfsBlkbits = 32768 := rfl
  have hw : wordBits = 32 := rfl
  obtain ⟨map, hmap, hmap'⟩ := initFreemapLoop_ok n b 0
    (bitmapByte fun i => decide (i < n * sfsBlkbits)) hb (by omega)
  refine ⟨⟨n * sfsBlkbits, (n * sfsBlkbits + wordBits - 1) / wordBits,
    bitmapByte fun i => decide (i < n * sfsBlkbits)⟩,
    ⟨n * sfsBlkbits, (n * sfsBlkbits + wordBits - 1) / wordBits, map⟩, ?_, ?_, rfl, ?_, ?_⟩
  · unfold bitmapCreate
    rw [Code.bind_ok (Code.assert_true (by rw [hbits, hw]; omega))]
    rfl
  · unfold sfsInitFreemap
    rw [Code.bind_ok (Code.assert_true (by dsimp only; rw [hbits, hw, hB]; omega)),
      Code.bind_ok hmap]
    rfl
  · intro i hi
    unfold Bitmap.bit
    dsimp only
    rw [hmap', if_pos (by rw [hbits] at hi; rw [hB]; omega), Nat.sub_zero]
  · intro i hi
    unfold Bitmap.bit
    dsimp only
    rw [hmap', if_neg (by rw [hbits] at hi; rw [hB]; omega), bitmapByte_zero, UInt8.toNat_zero,
      Nat.zero_testBit]
    intro k hk
    exact decide_eq_false (by rw [hbits] at hi ⊢; omega)

/-- A device with a super block that agrees with its freemap is mounted. -/
theorem sfsDoMount_ok (hs : dev.dBlocksize = sfsBlksize)
    (hm : getU32 (dev.disk sfsBlknSuper) = sfsMagic) (hb : dev.blocks ≤ dev.dBlocks)
    (h₀ : 0 < dev.blocks) (h₁ : dev.blocks ≤ 2 ^ 20)
    (hf : sfsBlknFreemap + sfsFreemapBlocks dev.blocks ≤ dev.blocks)
    (hc : dev.unusedBlocks =
      ((Finset.range (sfsFreemapBlocks dev.blocks * sfsBlkbits)).filter fun i =>
        dev.bit i = true).card) :
    ∃ fs, sfsDoMount dev ⟨[], []⟩ = .ok ((0, some fs), ⟨[], []⟩) ∧ Mounted dev fs := by
  have hbits : sfsBlkbits = 32768 := rfl
  have hn := sfsFreemapBlocks_eq (b := dev.blocks)
  have hnb : sfsFreemapBits dev.blocks = sfsFreemapBlocks dev.blocks * sfsBlkbits := by
    change sfsFreemapBlocks dev.blocks * sfsBlkbits % 2 ^ 32 = _
    rw [hbits]
    omega
  have hrange : sfsBlknFreemap + sfsFreemapBlocks dev.blocks ≤ dev.dBlocks := by omega
  obtain ⟨fm, fm', hcreate, hinit, hnbits, hbit, hrest⟩ := initFreemap_ok
    (b := sfsBlknFreemap) (n := sfsFreemapBlocks dev.blocks) (by omega) (by omega) hrange (by omega)
  have hcount : countUnused fm' (sfsFreemapBlocks dev.blocks * sfsBlkbits) 0 0 ⟨[], []⟩ =
      .ok (dev.unusedBlocks, ⟨[], []⟩) := by
    have he : ((Finset.range (sfsFreemapBlocks dev.blocks * sfsBlkbits)).filter fun k =>
        fm'.bit (0 + k) = true) =
        (Finset.range (sfsFreemapBlocks dev.blocks * sfsBlkbits)).filter fun i =>
          dev.bit i = true :=
      Finset.filter_congr fun i hi => by
        rw [Nat.zero_add, hbit i (Finset.mem_range.mp hi)]
        rfl
    rw [countUnused_ok _ _ _ (by rw [Nat.zero_add, hnbits]), Nat.zero_add, he, hc]
  have hblocks : (getU32 fun i => dev.disk sfsBlknSuper (4 + i)) = dev.blocks := rfl
  have hmount : mountFreemap dev (dev.disk sfsBlknSuper) ⟨[], []⟩ =
      .ok ((0, some (mountedFs dev (dev.disk sfsBlknSuper) fm' [])), ⟨[], []⟩) := by
    unfold mountFreemap
    rw [hblocks, hnb, Code.bind_ok hcreate]
    dsimp only
    rw [Code.bind_ok hinit]
    dsimp only
    rw [if_neg (by simp), Code.bind_ok hcount]
    exact Code.bind_ok (Code.assert_true (p := fun _ : Mounting => dev.unusedBlocks = _) rfl)
  refine ⟨mountedFs dev (dev.disk sfsBlknSuper) fm' [], ?_, rfl, rfl, hm, rfl, rfl, hnbits,
    fun i hi => hbit i (hnbits ▸ hi), fun i hi => hrest i (hnbits ▸ hi), rfl, fun _ => rfl, rfl⟩
  unfold sfsDoMount
  have halloc : mountAlloc ⟨[], []⟩ = .ok (true, ⟨[], []⟩) := rfl
  have hread : sfsInitRead dev sfsBlknSuper ⟨[], []⟩ = _ := sfsInitRead_ok (by
    have : sfsBlknSuper = 0 := rfl
    omega) (by decide)
  rw [if_neg (not_not.mpr hs), Code.bind_ok halloc, if_pos rfl, Code.bind_ok halloc, if_pos rfl,
    Code.bind_ok hread]
  dsimp only
  rw [if_neg (by simp), if_neg (not_not.mpr hm), hblocks, if_neg (not_lt.mpr hb),
    Code.bind_ok halloc, if_pos rfl]
  exact hmount

end Mount

end UCore.Vfs

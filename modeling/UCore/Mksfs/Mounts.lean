import Mathlib.Tactic.IntervalCases
import UCore.Mksfs.Decode

/-! # The image is mounted -/

namespace UCore.Mksfs

open Library Sfs Vfs

theorem bits_testBit : ∀ b₀ b₁ b₂ b₃ b₄ b₅ b₆ b₇ : Bool, ∀ k < 8,
    (UInt8.ofNat (((List.range 8).map fun j =>
      if [b₀, b₁, b₂, b₃, b₄, b₅, b₆, b₇].getD j false then 2 ^ j else 0).sum)).toNat.testBit k =
    [b₀, b₁, b₂, b₃, b₄, b₅, b₆, b₇].getD k false := by
  decide +kernel

theorem bitmapByte_testBit {f : ℕ → Bool} {x k : ℕ} (hk : k < 8) :
    (bitmapByte f x).toNat.testBit k = f (8 * x + k) := by
  have hf : ∀ j < 8, [f (8 * x + 0), f (8 * x + 1), f (8 * x + 2), f (8 * x + 3), f (8 * x + 4),
      f (8 * x + 5), f (8 * x + 6), f (8 * x + 7)].getD j false = f (8 * x + j) := by
    intro j hj
    interval_cases j <;> rfl
  rw [← hf k hk, ← bits_testBit _ _ _ _ _ _ _ _ k hk]
  refine congrArg (fun l => (UInt8.ofNat (List.sum l)).toNat.testBit k)
    (List.map_congr_left fun j hj => ?_)
  rw [hf j (List.mem_range.mp hj)]

section Image

variable {stSize : ℕ} {disk : ℕ → Buf} {home : Host} {m : Writer} {A : Places}
  {O : ℕ → Option Owner} {V : Nodes} {dev : Device} {fs : Fs}

theorem createImg_written (h : createImg stSize disk home = .ok m) :
    ∃ A O V, Img m A O V ∧ Logged V m.calls m.stored ∧ Written m A V m.disk ∧
      (home.Ok → Proper m.calls) := by
  unfold createImg at h
  cases hc : createSfs stSize disk with
  | error e => simp [hc, bind, Except.bind] at h
  | ok m₀ =>
    cases ho : openDir sfsBlknRoot sfsBlknRoot home m₀ with
    | error e => simp [hc, ho, bind, Except.bind] at h
    | ok r =>
      obtain ⟨u, m₁⟩ := r
      cases hs : closeSfs m₁ with
      | error e => simp [hc, ho, hs, bind, Except.bind] at h
      | ok r =>
        obtain ⟨u', m₂⟩ := r
        obtain rfl : m₂ = m := by
          simpa [hc, ho, hs, bind, Except.bind, pure, Except.pure] using h
        obtain ⟨⟨V, ⟨A, O, hI⟩, hL⟩, hp⟩ := openDir_built hc ho
        obtain ⟨hm, hW⟩ := (closeSfs_written hI).ok hs
        rw [hm]
        refine ⟨A, O, V, { hI.toBase.same ⟨rfl, rfl, rfl, rfl, rfl, rfl, fun _ => rfl, fun _ => rfl,
          fun _ => rfl⟩ with nodes := hI.nodes, shows := fun ino nd hV => ?_ }, hL,
          ⟨hW.super, hW.freemap, hW.inode, hW.table, hW.data⟩, hp⟩
        exact { hI.shows ino nd hV with data := hW.data ino nd hV }

/-- A device with the image on its first blocks. -/
structure Holding (m : Writer) (dev : Device) : Prop where
  disk : ∀ b < m.ninos, dev.disk b = m.disk b
  dBlocks : m.ninos ≤ dev.dBlocks
  dBlocksize : dev.dBlocksize = sfsBlksize

theorem superBytes_field {b : Buf} (hb : b = memcpy zeros 0 m.superBytes 0 sizeofSuper)
    (hn : m.ninos < 2 ^ 32) (hu : m.unusedBlocks < 2 ^ 32) :
    getU32 b = sfsMagic ∧ (getU32 fun i => b (4 + i)) = m.ninos ∧
      (getU32 fun i => b (8 + i)) = m.unusedBlocks := by
  have hS : sizeofSuper = 44 := rfl
  have hbyte : ∀ i < 44, b i = m.superBytes i := by
    intro i hi
    rw [hb, memcpy_start (by omega), Nat.zero_add]
  refine ⟨getU32_of_bytes (fun j hj => ?_) (by decide), getU32_of_bytes (fun j hj => ?_) hn,
    getU32_of_bytes (fun j hj => ?_) hu⟩
  · rw [hbyte j (by omega)]
    exact if_pos hj
  · rw [hbyte _ (by omega)]
    unfold Writer.superBytes
    rw [if_neg (by omega), if_pos (by omega), Nat.add_sub_cancel_left]
  · rw [hbyte _ (by omega)]
    unfold Writer.superBytes
    rw [if_neg (by omega), if_neg (by omega), if_pos (by omega), Nat.add_sub_cancel_left]

theorem Written.bit (h : Written m A V dev.disk) {i : ℕ}
    (hi : i < sfsFreemapBlocks m.ninos * sfsBlkbits) :
    dev.bit i = decide (m.nextIno ≤ i ∧ i < m.ninos) := by
  have hF : sfsBlknFreemap = 2 := rfl
  have hB : sfsBlksize = 4096 := rfl
  have hbits : sfsBlkbits = 32768 := rfl
  have hfirst : m.first = sfsBlknFreemap + sfsFreemapBlocks m.ninos := rfl
  unfold Device.bit joined
  rw [hbits] at hi
  rw [hB, h.freemap _ (Nat.le_add_right _ _) (by rw [hfirst]; omega)]
  unfold freemapBlock
  rw [hB, if_pos (by omega), bitmapByte_testBit (by omega), Nat.add_sub_cancel_left, hbits]
  have he : i / 8 / 4096 * 32768 + (8 * (i / 8 % 4096) + i % 8) = i := by omega
  rw [he]

/-- The file system is the image that was built. -/
structure Volume (m : Writer) (fs : Fs) : Prop where
  magic : fs.magic = sfsMagic
  blocks : fs.blocks = m.ninos
  unusedBlocks : fs.unusedBlocks = m.unusedBlocks
  count : ((Finset.range fs.nbits).filter fun b => fs.freemap b = true).card = fs.unusedBlocks
  freemap : ∀ b, fs.freemap b = true ↔ m.nextIno ≤ b ∧ b < m.ninos

/-- An image on a device is mounted. -/
theorem mount_ok (hI : Img m A O V) (hW : Written m A V dev.disk) (hD : m.ninos ≤ dev.dBlocks)
    (hs : dev.dBlocksize = sfsBlksize) :
    ∃ fs, sfsDoMount dev ⟨[], []⟩ = .ok ((0, some fs), ⟨[], []⟩) ∧ Mounted dev fs ∧
    Volume m fs := by
  have hF : sfsBlknFreemap = 2 := rfl
  have hbits : sfsBlkbits = 32768 := rfl
  have hmax : sfsMaxNblks = 524288 := rfl
  have hr := hI.range
  have hc := hI.count
  have hn := sfsFreemapBlocks_eq (b := m.ninos)
  have hfirst : m.first = sfsBlknFreemap + sfsFreemapBlocks m.ninos := rfl
  obtain ⟨hmagic, hblocks, hunused⟩ := superBytes_field hW.super (by omega) (by omega)
  have hblocks : dev.blocks = m.ninos := hblocks
  have hunused : dev.unusedBlocks = m.unusedBlocks := hunused
  have hcard : ((Finset.range (sfsFreemapBlocks m.ninos * sfsBlkbits)).filter fun i =>
      dev.bit i = true) = Finset.Ico m.nextIno m.ninos := by
    ext i
    rw [Finset.mem_filter, Finset.mem_range, Finset.mem_Ico]
    constructor
    · rintro ⟨hi, hb⟩
      rw [hW.bit hi] at hb
      exact of_decide_eq_true hb
    · rintro hi
      have hlt : i < sfsFreemapBlocks m.ninos * sfsBlkbits := by
        rw [hbits]
        omega
      exact ⟨hlt, by rw [hW.bit hlt]; exact decide_eq_true hi⟩
  obtain ⟨fs, hrun, hfs⟩ := sfsDoMount_ok hs hmagic (by omega) (by omega) (by omega)
    (by rw [hblocks]; omega) (by rw [hblocks, hcard, Nat.card_Ico]; omega)
  have hnbits : fs.nbits = sfsFreemapBlocks m.ninos * sfsBlkbits := by rw [hfs.nbits, hblocks]
  refine ⟨fs, hrun, hfs, hfs.magic, hfs.blocks.trans hblocks, hfs.unusedBlocks.trans hunused, ?_,
    fun b => ?_⟩
  · have he : ((Finset.range fs.nbits).filter fun b => fs.freemap b = true) =
        (Finset.range (sfsFreemapBlocks m.ninos * sfsBlkbits)).filter fun i =>
          dev.bit i = true := by
      rw [← hnbits]
      exact Finset.filter_congr fun b hb => by rw [hfs.bits b (Finset.mem_range.mp hb)]
    rw [he, hcard, Nat.card_Ico, hfs.unusedBlocks, hunused]
    omega
  · by_cases hb : b < fs.nbits
    · rw [hfs.bits b hb, hW.bit (hnbits ▸ hb), decide_eq_true_eq]
    · rw [hfs.rest b (not_lt.mp hb)]
      refine iff_of_false (by simp) fun hi => hb ?_
      rw [hnbits, hbits]
      omega

/-- The block numbers in the inodes, tables and directories of the volume. -/
structure References (m : Writer) (fs : Fs) : Prop where
  inodes : ∀ ino, m.IsInode ino → fs.InUse ino
  mapped : ∀ ino, m.IsInode ino → ∀ i < (diskInode (fs.disk ino)).blocks,
    refAt fs.disk ino (.data i) ≠ 0
  blocks : ∀ ino r, m.IsInode ino → r.Valid → refAt fs.disk ino r ≠ 0 →
    fs.InUse (refAt fs.disk ino r) ∧ ¬ m.IsInode (refAt fs.disk ino r)
  once : ∀ ino r ino' r', m.IsInode ino → r.Valid → m.IsInode ino' → r'.Valid →
    refAt fs.disk ino r ≠ 0 → refAt fs.disk ino r = refAt fs.disk ino' r' → ino = ino' ∧ r = r'
  entries : ∀ d, m.IsInode d → (diskInode (fs.disk d)).type = sfsTypeDir →
    ∀ i < (diskInode (fs.disk d)).blocks, m.IsInode (getU32 (fs.disk (refAt fs.disk d (.data i))))

theorem Written.references (hI : Img m A O V) (hL : Logged V m.calls m.stored)
    (hW : Written m A V fs.disk) (hV : Volume m fs) : References m fs := by
  have hr := hI.range
  have hf := hI.first_pos
  have hv : ∀ {ino}, m.IsInode ino → V ino ≠ none := fun hi => (hI.nodes _).mp (hI.isInode.mp hi)
  have huse : ∀ {b o}, O b = some o → fs.InUse b := by
    intro b o ho
    have hb : 0 < b ∧ b < m.nextIno := by
      rcases hI.owned b o ho with ⟨rfl, -⟩ | hb
      · have : sfsBlknRoot = 1 := rfl
        omega
      · omega
    refine ⟨hb.1, by rw [hV.blocks]; omega, ?_⟩
    rw [Bool.eq_false_iff, ne_eq, hV.freemap]
    omega
  have hvalid : ∀ {ino i nd}, V ino = some nd → i < nd.blocks.length → (Ref.data i).Valid := by
    intro ino i nd hnd hi
    have hs := (hI.shows ino nd hnd).small
    have h₁ : sfsLnNblks = 32768 := rfl
    have h₂ : sfsL2Nblks = 1049612 := rfl
    change i < sfsL2Nblks
    omega
  constructor
  case inodes => exact fun ino hi => huse (hI.isInode.mp hi)
  case mapped =>
    intro ino hi i hlt
    obtain ⟨nd, hnd⟩ := Option.ne_none_iff_exists'.mp (hv hi)
    rw [(hW.din hI hnd).2.2.2] at hlt
    rw [hW.refAt hI (hv hi) (hvalid hnd hlt)]
    exact ((hI.shows ino nd hnd).used (.data i)).mpr hlt
  case blocks =>
    intro ino r hi hr hne
    rw [hW.refAt hI (hv hi) hr] at hne ⊢
    have ho := (hI.refs ino r hne).2
    refine ⟨huse ho, ?_⟩
    rw [hI.isInode, ho]
    nofun
  case once =>
    intro ino r ino' r' hi hr hi' hr' hne he
    rw [hW.refAt hI (hv hi) hr] at hne he
    rw [hW.refAt hI (hv hi') hr'] at he
    exact hI.inj hne he
  case entries =>
    intro d hi ht i hlt
    obtain ⟨nd, hnd⟩ := Option.ne_none_iff_exists'.mp (hv hi)
    obtain ⟨htype, -, -, hlen⟩ := hW.din hI hnd
    rw [hlen] at hlt
    rw [hW.refAt hI (hv hi) (hvalid hnd hlt), hW.data d nd hnd i hlt]
    have he := hL.entries d nd hnd (htype ▸ ht)
    have hlt' : i < (entriesOf m.calls d).length := he.length_eq ▸ hlt
    have hdent : Dent nd.blocks[i] (entriesOf m.calls d)[i] := he.get hlt hlt'
    have hmem : (d, (entriesOf m.calls d)[i]) ∈ m.calls :=
      mem_entriesOf.mp (List.getElem_mem hlt')
    have hno := (hL.named _ hmem).2.2
    rw [Dent.ino hdent (hI.lt_width ?_), hI.isInode, hI.nodes]
    · exact hno
    · rcases hI.owned _ _ ((hI.nodes _).mpr hno) with ⟨he, -⟩ | hb
      · rw [he]
        have : sfsBlknRoot = 1 := rfl
        omega
      · exact hb.2

/-- The images are mounted, and every block number in them is in use at one place. -/
theorem createImg_mounts (h : createImg stSize disk home = .ok m) (hd : Holding m dev) :
    ∃ fs, sfsDoMount dev ⟨[], []⟩ = .ok ((0, some fs), ⟨[], []⟩) ∧ Volume m fs ∧
    References m fs := by
  obtain ⟨A, O, V, hI, hL, hW, -⟩ := createImg_written h
  have hW' := hW.congr hI hd.disk
  obtain ⟨fs, hrun, hfs, hV⟩ := mount_ok hI hW' hd.dBlocks hd.dBlocksize
  rw [← hfs.disk] at hW'
  exact ⟨fs, hrun, hV, hW'.references hI hL hV⟩

end Image

/-- A host directory with a file, a link to it and a subdirectory. -/
def sampleHome : Host :=
  .file [102] 7 [1, 2, 3] (.link [108] 8 [102] (.dir [100] 9 (.file [103] 7 [1, 2, 3] .done) .done))

theorem sample_ok : ∃ m, createImg (64 * sfsBlksize) (fun _ => zeros) sampleHome = .ok m := by
  have h : (createImg (64 * sfsBlksize) (fun _ => zeros) sampleHome).toBool = true := by
    decide +kernel
  cases hc : createImg (64 * sfsBlksize) (fun _ => zeros) sampleHome with
  | ok m => exact ⟨m, rfl⟩
  | error e =>
    rw [hc] at h
    cases h

theorem createImg_mounts_sample : ∃ m dev fs,
    createImg (64 * sfsBlksize) (fun _ => zeros) sampleHome = .ok m ∧
    sfsDoMount dev ⟨[], []⟩ = .ok ((0, some fs), ⟨[], []⟩) ∧ Volume m fs ∧ References m fs := by
  obtain ⟨m, hm⟩ := sample_ok
  have hd : Holding m ⟨m.ninos, sfsBlksize, m.disk⟩ := ⟨fun _ _ => rfl, Nat.le_refl _, rfl⟩
  obtain ⟨fs, hrun, hV, hR⟩ := createImg_mounts hm hd
  exact ⟨m, _, fs, hm, hrun, hV, hR⟩

end UCore.Mksfs

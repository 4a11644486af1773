import UCore.Sfs.Volume

/-! # Devices that work

On a device that works the functions of the file system leave it working, whatever the state of the
volume is, and what only fails with the device does not fail.
-/

namespace UCore.Sfs

open Library

/-- On a device that works the returns satisfy `P`, and the device still works. -/
def Steady {α : Type} (P : α → Prop) (m : Prog α) : Prop := Code.Preserves Fs.Reliable P m

abbrev Works0 {α : Type} : ℤ × α → Prop := fun r => r.1 = 0

abbrev Any {α : Type} : α → Prop := fun _ => True

section Io

variable {buf : Buf} {pos len blkno offset n : ℕ} {write check : Bool}

theorem dopIo_steady : Steady Works0 (dopIo buf pos blkno write) := by
  intro s hs
  have hcode : s.transfers.headD 0 = 0 := by
    cases h : s.transfers with
    | nil => rfl
    | cons ret l => exact hs ret (by simp [h])
  have htail : ∀ ret ∈ s.transfers.tail, ret = 0 := fun ret hr => hs ret (List.mem_of_mem_tail hr)
  unfold Code.Wp dopIo
  dsimp only
  rw [if_neg (not_not.mpr hcode)]
  cases write with
  | true => exact ⟨rfl, htail⟩
  | false => exact ⟨rfl, htail⟩

theorem rwblockNolock_steady : Steady Works0 (sfsRwblockNolock buf pos blkno write check) :=
  .bind .assert fun _ _ => dopIo_steady

theorem rwblock_steady : Steady Works0 (sfsRwblock write n buf pos blkno) := by
  induction n generalizing buf pos blkno with
  | zero => exact .pure rfl
  | succ n ih =>
    refine .bind rwblockNolock_steady fun r hr => ?_
    exact .ite (fun h => absurd hr h) fun _ => ih

theorem sfsRbuf_steady : Steady Works0 (sfsRbuf buf pos len blkno offset) :=
  .bind .assert fun _ _ => .bind rwblockNolock_steady fun _ hr => .pure hr

theorem sfsWbuf_steady : Steady Works0 (sfsWbuf buf pos len blkno offset) := by
  refine .bind .assert fun _ _ => .bind rwblockNolock_steady fun r hr => ?_
  refine .ite (fun h => absurd hr h) fun _ => .bind rwblockNolock_steady fun r hr => .pure hr

theorem sfsClearBlock_steady : Steady (fun ret => ret = 0) (sfsClearBlock blkno) :=
  .bind rwblockNolock_steady fun _ hr => .pure hr

end Io

section Bitmap

variable {b : ℕ}

theorem bitmapTest_steady : Steady Any (bitmapTest b) :=
  .bind .assert fun _ _ => .get_bind fun _ _ => .pure trivial

theorem assertInuse_steady : Steady Any (assertInuse b) := by
  refine .bind (P := Any) (.get_bind fun _ _ => ?_) fun _ _ =>
    .ite (fun _ => .pure trivial) fun _ => .panic
  exact .ite (fun _ => .bind bitmapTest_steady fun _ _ => .pure trivial) fun _ => .panic

theorem bitmapAlloc_steady : Steady Any bitmapAlloc := by
  intro s hs
  unfold Code.Wp bitmapAlloc
  cases firstSet s.freemap s.nbits 0 with
  | none => exact ⟨trivial, hs⟩
  | some ix => exact ⟨trivial, hs⟩

theorem sfsBlockAlloc_steady : Steady Any sfsBlockAlloc := by
  refine .bind bitmapAlloc_steady fun _ _ => .ite (fun _ => .pure trivial) fun _ => ?_
  refine .bind .assert fun _ _ => .bind (.modify fun _ h => h) fun _ _ => ?_
  exact .bind assertInuse_steady fun _ _ => .bind sfsClearBlock_steady fun _ _ => .pure trivial

theorem sfsBlockFree_steady : Steady Any (sfsBlockFree b) := by
  refine .bind assertInuse_steady fun _ _ => .bind (P := Any) ?_ fun _ _ => .modify fun _ h => h
  exact .bind .assert fun _ _ => .bind .assert fun _ _ => .modify fun _ h => h

end Bitmap

section Bmap

variable {sin ent entp index offset b : ℕ} {create : Bool}

theorem cleanupEntry_steady : Steady Any (cleanupEntry entp ent) :=
  .ite (fun _ => sfsBlockFree_steady) fun _ => .pure trivial

theorem addEntry_steady : Steady Any (addEntry entp ent offset) := by
  refine .bind sfsBlockAlloc_steady fun _ _ => .ite (fun _ => ?_) fun _ => ?_
  · exact .bind cleanupEntry_steady fun _ _ => .pure trivial
  · refine .bind sfsWbuf_steady fun r hr => .ite (fun h => absurd hr h) fun _ => .pure trivial

theorem sfsBmapGetSubNolock_steady : Steady Any (sfsBmapGetSubNolock entp index create) := by
  refine .bind .assert fun _ _ => .ite (fun _ => ?_) fun _ =>
    .ite (fun _ => .pure trivial) fun _ => ?_
  · refine .bind sfsRbuf_steady fun r hr => .ite (fun _ => .pure trivial) fun _ => ?_
    exact .ite (fun _ => .pure trivial) fun _ => addEntry_steady
  · exact .bind sfsBlockAlloc_steady fun _ _ => .ite (fun _ => .pure trivial) fun _ =>
      addEntry_steady

theorem bmapOut_steady : Steady Any (bmapOut b) :=
  .ite (fun _ => .pure trivial) fun _ => .bind assertInuse_steady fun _ _ => .pure trivial

theorem sfsBmapGetNolock_steady : Steady Any (sfsBmapGetNolock sin index create) := by
  refine .get_bind fun _ _ => .ite (fun _ => ?_) fun _ => .ite (fun _ => ?_) fun _ => .panic
  · refine .ite (fun _ => ?_) fun _ => bmapOut_steady
    refine .bind sfsBlockAlloc_steady fun _ _ => .ite (fun _ => .pure trivial) fun _ => ?_
    exact .bind (.modify fun _ h => h) fun _ _ => bmapOut_steady
  · refine .bind sfsBmapGetSubNolock_steady fun _ _ => .ite (fun _ => .pure trivial) fun _ => ?_
    refine .ite (fun _ => ?_) fun _ => bmapOut_steady
    exact .bind .assert fun _ _ => .bind (.modify fun _ h => h) fun _ _ => bmapOut_steady

theorem sfsBmapLoadNolock_steady : Steady Any (sfsBmapLoadNolock sin index) := by
  refine .bind .assert fun _ _ => .get_bind fun _ _ => ?_
  refine .bind sfsBmapGetNolock_steady fun _ _ => .ite (fun _ => .pure trivial) fun _ => ?_
  refine .bind assertInuse_steady fun _ _ => .ite (fun _ => ?_) fun _ => .pure trivial
  exact .bind (.modify fun _ h => h) fun _ _ => .pure trivial

theorem sfsBmapFreeSubNolock_steady :
    Steady (fun ret => ret = 0) (sfsBmapFreeSubNolock ent index) := by
  refine .bind assertInuse_steady fun _ _ => .bind .assert fun _ _ => ?_
  refine .bind sfsRbuf_steady fun r hr => .ite (fun h => absurd hr h) fun _ => ?_
  refine .ite (fun _ => ?_) fun _ => .pure rfl
  refine .bind sfsWbuf_steady fun r hr => .ite (fun h => absurd hr h) fun _ => ?_
  exact .bind sfsBlockFree_steady fun _ _ => .pure rfl

theorem sfsBmapFreeNolock_steady : Steady (fun ret => ret = 0) (sfsBmapFreeNolock sin index) := by
  refine .get_bind fun _ _ => .ite (fun _ => .ite (fun _ => ?_) fun _ => .pure rfl) fun _ => ?_
  · refine .bind sfsBlockFree_steady fun _ _ => .bind (.modify fun _ h => h) fun _ _ => .pure rfl
  · refine .ite (fun _ => ?_) fun _ => .pure rfl
    exact .ite (fun _ => sfsBmapFreeSubNolock_steady) fun _ => .pure rfl

theorem sfsBmapTruncateNolock_steady : Steady (fun ret => ret = 0) (sfsBmapTruncateNolock sin) := by
  refine .bind .assert fun _ _ => .get_bind fun _ _ => ?_
  refine .bind sfsBmapFreeNolock_steady fun r hr => .ite (fun h => absurd hr h) fun _ => ?_
  exact .bind (.modify fun _ h => h) fun _ _ => .pure rfl

end Bmap

section File

variable {sin n blkno nblks pos size offset endpos alen len ino : ℕ} {buf : Buf} {write : Bool}

theorem sfsBufOp_steady : Steady Works0 (sfsBufOp write buf pos len blkno offset) :=
  .ite (fun _ => sfsWbuf_steady) fun _ => sfsRbuf_steady

theorem sfsBlockOp_steady : Steady Works0 (sfsBlockOp write buf pos blkno) :=
  .ite (fun _ => rwblock_steady) fun _ => rwblock_steady

theorem ioPart_steady : Steady Any (ioPart sin write buf pos size blkno offset) := by
  refine .bind sfsBmapLoadNolock_steady fun _ _ => .ite (fun _ => .pure trivial) fun _ => ?_
  exact sfsBufOp_steady.mono fun _ _ => trivial

theorem ioLoop_steady : Steady Any (ioLoop sin write n blkno alen buf) := by
  induction n generalizing blkno alen buf with
  | zero => exact .pure trivial
  | succ n ih =>
    refine .bind sfsBmapLoadNolock_steady fun _ _ => .ite (fun _ => .pure trivial) fun _ => ?_
    exact .bind sfsBlockOp_steady fun _ _ => .ite (fun _ => .pure trivial) fun _ => ih

theorem ioRest_steady : Steady Any (ioRest sin write blkno nblks endpos alen buf) := by
  refine .bind ioLoop_steady fun _ _ => .ite (fun _ => .pure trivial) fun _ => ?_
  refine .ite (fun _ => ?_) fun _ => .pure trivial
  exact .bind ioPart_steady fun _ _ => .ite (fun _ => .pure trivial) fun _ => .pure trivial

theorem ioBlocks_steady : Steady Any (ioBlocks sin write offset endpos buf) := by
  refine .ite (fun _ => ?_) fun _ => ioRest_steady
  refine .bind ioPart_steady fun _ _ => .ite (fun _ => .pure trivial) fun _ => ?_
  exact .ite (fun _ => .pure trivial) fun _ => ioRest_steady

theorem ioOut_steady : Steady Any (ioOut sin offset alen) := by
  refine .modify fun s hs => ?_
  split
  · exact hs
  · exact hs

theorem sfsIoNolock_steady {pos : ℤ} : Steady Any (sfsIoNolock sin buf pos len write) := by
  refine .bind .assert fun _ _ => .get_bind fun _ _ => .ite (fun _ => .pure trivial) fun _ => ?_
  refine .ite (fun _ => .pure trivial) fun _ => .ite (fun _ => .pure trivial) fun _ => ?_
  exact .bind ioBlocks_steady fun _ _ => .bind ioOut_steady fun _ _ => .pure trivial

theorem growLoop_steady : Steady Any (growLoop sin n nblks) := by
  induction n generalizing nblks with
  | zero => exact .pure trivial
  | succ n ih =>
    exact .bind sfsBmapLoadNolock_steady fun _ _ => .ite (fun _ => .pure trivial) fun _ => ih

theorem shrinkLoop_steady : Steady (fun ret => ret = 0) (shrinkLoop sin n) := by
  induction n with
  | zero => exact .pure rfl
  | succ n ih =>
    exact .bind sfsBmapTruncateNolock_steady fun _ hr => .ite (fun h => absurd hr h) fun _ => ih

theorem sfsTruncfile_steady {len : ℤ} :
    Steady (fun ret => len = 0 → ret = 0) (sfsTruncfile sin len) := by
  refine .ite (fun h => ?_) fun _ => .get_bind fun s _ => .ite (fun _ => ?_) fun _ => ?_
  · have hne : len ≠ 0 := by
      unfold sfsMaxFileSize at h
      omega
    exact .pure fun h₀ => absurd h₀ hne
  · exact .bind .assert fun _ _ => .pure fun _ => rfl
  · have hgrow : ∀ n nblks, (s.din sin).blocks < (len.toNat + sfsBlksize - 1) / sfsBlksize →
        Steady (fun ret => len = 0 → ret = 0) (growLoop sin n nblks) := by
      intro n nblks h
      refine growLoop_steady.mono fun _ _ h₀ => ?_
      subst h₀
      exact absurd h (by simp [sfsBlksize])
    have hshrink : ∀ n, Steady (fun ret => len = 0 → ret = 0) (shrinkLoop sin n) := fun n =>
      shrinkLoop_steady.mono fun _ h _ => h
    refine .ite (fun h => .bind (hgrow _ _ h) ?_) fun _ => .bind (hshrink _) ?_
    all_goals
      refine fun ret hr => .ite (fun _ => .pure hr) fun _ => .bind .assert fun _ _ => ?_
      exact .bind (.modify fun _ h => h) fun _ _ => .pure fun _ => rfl

theorem sfsTryseek_steady {pos : ℤ} : Steady Any (sfsTryseek sin pos) := by
  refine .ite (fun _ => .pure trivial) fun _ => .get_bind fun _ _ => ?_
  exact .ite (fun _ => sfsTruncfile_steady.mono fun _ _ => trivial) fun _ => .pure trivial

theorem sfsFsync_steady : Steady (fun ret => ret = 0) (sfsFsync ino) := by
  refine .get_bind fun _ _ => .ite (fun _ => ?_) fun _ => .pure rfl
  refine .bind (.modify fun _ h => h) fun _ _ => .bind sfsWbuf_steady fun r hr => ?_
  exact .ite (fun h => absurd hr h) fun _ => .pure rfl

end File

end UCore.Sfs

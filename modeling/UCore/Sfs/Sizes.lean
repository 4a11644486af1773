import UCore.Sfs.Accounting

/-! # Sizes and blocks

The number of blocks of a file is the one that its size needs, unless a growth fails after it took a
block, or a write that starts inside a new block cannot take it.
-/

namespace UCore.Sfs

open Library

/-- The file has as many blocks as its size needs. -/
def Agrees (s : Fs) (ino : ℕ) : Prop := (s.din ino).blocks = ceilBlocks (s.din ino).size

/-- A truncation appends all blocks that it needs or none, and it removes them all or has none to
remove. -/
def Fs.TruncKeeps (s : Fs) (ino : ℕ) (len : ℤ) : Prop :=
  TruncRejects len ∨ len = (s.din ino).size ∨
    if (s.din ino).blocks < ceilBlocks len.toNat then
      s.Reliable ∧ (s.room ino (ceilBlocks len.toNat - (s.din ino).blocks) ≤ s.unusedBlocks ∨
        s.unusedBlocks < s.room ino 1)
    else s.Reliable ∨ ceilBlocks len.toNat = (s.din ino).blocks

/-- The condition under which a call keeps size and blocks in agreement. -/
def FileOp.Keeps (s : Fs) : FileOp → Prop
  | .io ino _ offset len write =>
    write = false ∨ IoRejects offset len ∨ s.ioEnd ino offset len write ≤ offset.toNat ∨
      s.ioEnd ino offset len write ≤ (s.din ino).blocks * sfsBlksize ∨
      s.Reliable ∧ (offset.toNat ≤ (s.din ino).blocks * sfsBlksize ∨ s.room ino 1 ≤ s.unusedBlocks)
  | .truncfile ino len => s.TruncKeeps ino len
  | .tryseek ino pos => SeekRejects pos ∨ pos ≤ (s.din ino).size ∨ s.TruncKeeps ino pos

section Agree

variable {s t : Fs} {O : ℕ → Owner} {I : Set ℕ} {ino len : ℕ} {offset length pos : ℤ} {write : Bool}
  {buf : Buf}

theorem ceilBlocks_max {n m : ℕ} : ceilBlocks (max n m) = max (ceilBlocks n) (ceilBlocks m) :=
  Monotone.map_max fun _ _ h => ceilBlocks_mono h

theorem Agrees.size_le (h : Agrees s ino) : (s.din ino).size ≤ (s.din ino).blocks * sfsBlksize :=
  ceilBlocks_le.mp h.ge

/-- A transfer in a file whose size and blocks agree. -/
theorem Ranged.agrees {r : ℤ × ℕ × Buf} (h : Ranged I ino s O buf offset len write r t)
    (ha : Agrees s ino)
    (hk : (FileOp.io ino buf offset len write).Keeps s) : Agrees t ino := by
  rcases h with _ | _ | ⟨hrej, hlt, hm⟩
  · exact ha
  · exact ha
  rename_i ret m buf' t O'
  have hle := ha.size_le
  have hfile : (t.cover ino offset.toNat m).file ino = _ := hm.works.wf.works_cover.2.1
  have hsize : ((t.cover ino offset.toNat m).din ino).size =
    max (s.din ino).size (offset.toNat + m) := by
    rw [← hm.size]
    exact congrArg File.size hfile
  have hblocks : ((t.cover ino offset.toNat m).din ino).blocks = (t.din ino).blocks :=
    congrArg File.blocks hfile
  unfold Agrees at ha ⊢
  rw [hsize, hblocks, ceilBlocks_max, ← ha]
  have hend : write = false → s.ioEnd ino offset len write ≤ (s.din ino).size := by
    rintro rfl
    exact min_le_right _ _
  have hmle := hm.le
  have hwithin : s.ioEnd ino offset len write ≤ (s.din ino).blocks * sfsBlksize →
      (t.din ino).blocks = max (s.din ino).blocks (ceilBlocks (offset.toNat + m)) := by
    intro hx
    obtain ⟨-, -, hsin⟩ := hm.within (by omega)
    have hb : (t.din ino).blocks = (s.din ino).blocks := by
      unfold Fs.din
      rw [hsin]
    rw [hb, max_eq_left]
    exact ceilBlocks_le.mpr (by omega)
  rcases hk with hw | hx | hx | hx | ⟨hrel, hx⟩
  · exact hwithin ((hend hw).trans hle)
  · exact absurd hx hrej
  · omega
  · exact hwithin hx
  · have hb := hm.blocks hrel
    rcases Nat.eq_zero_or_pos m with rfl | hpos
    · rw [if_pos rfl] at hb
      rw [hb, Nat.add_zero, max_eq_left]
      rcases hx with hx | hx
      · exact ceilBlocks_le.mpr hx
      · exfalso
        have hret : ret ≠ 0 := by
          intro h0
          have := hm.done h0
          omega
        obtain ⟨-, hshort, -, -⟩ := hm.full hrel hret
        rw [hb, Nat.sub_self, Nat.zero_add] at hshort
        omega
    · rw [hb, if_neg (by omega)]

theorem Truncated.agrees {ret : ℤ} (h : Truncated I ino s O length ret t)
    (ha : Agrees s ino) (hk : s.TruncKeeps ino length) : Agrees t ino := by
  have hset : ∀ {u : Fs} {n : ℕ}, (u.din ino).blocks = ceilBlocks n →
      Agrees (u.setSin ino fun x => { din := { x.din with size := n }, dirty := true }) ino := by
    intro u n hu
    unfold Agrees
    rw [setSin_din]
    exact hu
  rcases h with hx | _ | ⟨hrej, hlen, hlt, hret, he⟩ | ⟨hrej, hlen, hret, hr⟩ | ⟨hrej,
    hlen, hlt, he⟩ |
    ⟨hrej, hlen, hle, hr⟩
  · exact ha
  · exact ha
  · rename_i k O'
    rcases hk with hk | hk | hk
    · exact absurd hk hrej
    · exact absurd hk hlen
    rw [if_pos hlt] at hk
    obtain ⟨hrel, hk⟩ := hk
    obtain ⟨-, hshort, -, hkn⟩ := he.full hrel hret
    have hk₀ : k = 0 := by
      by_contra hne
      rcases hk with hk | hk
      · have := room_mono s ino (by omega : k + 1 ≤
          ceilBlocks length.toNat - (s.din ino).blocks)
        omega
      · have hg := (he.grown hrel).unused
        have hb : (t.din ino).blocks = (s.din ino).blocks + k := congrArg File.blocks he.file
        rw [hb, Nat.add_sub_cancel_left] at hg
        have := room_mono s ino (by omega : 1 ≤ k)
        omega
    have hdin : t.din ino = s.din ino := congrArg Sin.din (congrFun (he.none hk₀) ino)
    unfold Agrees
    rw [hdin]
    exact ha
  · rename_i k O'
    rcases hk with hk | hk | hk
    · exact absurd hk hrej
    · exact absurd hk hlen
    split at hk
    · rename_i hlt
      have := hr.le
      have hk₀ : k = 0 := by omega
      have hdin : t.din ino = s.din ino := congrArg Sin.din (congrFun (hr.none hk₀).1 ino)
      unfold Agrees
      rw [hdin]
      exact ha
    · rcases hk with hk | hk
      · exact absurd (hr.reliable hk) hret
      · have := hr.le
        have hk₀ : k = 0 := by omega
        have hdin : t.din ino = s.din ino := congrArg Sin.din (congrFun (hr.none hk₀).1 ino)
        unfold Agrees
        rw [hdin]
        exact ha
  · rename_i u O'
    have hb : (u.din ino).blocks = (s.din ino).blocks + _ := congrArg File.blocks he.file
    exact hset (by omega)
  · rename_i u O'
    have hb : (u.din ino).blocks = (s.din ino).blocks - _ := congrArg File.blocks hr.file
    exact hset (by omega)

end Agree

section Exact

variable {s t : Fs} {O : ℕ → Owner} {I : Set ℕ} {ino len : ℕ} {offset length pos : ℤ} {write : Bool}
  {buf : Buf}

theorem Ranged.keeps {r : ℤ × ℕ × Buf} (h : Ranged I ino s O buf offset len write r t)
    (hrel : s.Reliable) (ha : Agrees t ino) : (FileOp.io ino buf offset len write).Keeps s := by
  rcases h with hx | ⟨-, hx⟩ | ⟨hrej, hlt, hm⟩
  · exact .inr (.inl hx)
  · exact .inr (.inr (.inl hx))
  rename_i ret m buf' t O'
  refine .inr (.inr (.inr (.inr ⟨hrel, ?_⟩)))
  by_contra hn
  have h₁ : ¬ offset.toNat ≤ (s.din ino).blocks * sfsBlksize := fun hx => hn (.inl hx)
  have h₂ : ¬ s.room ino 1 ≤ s.unusedBlocks := fun hx => hn (.inr hx)
  have hfile : (t.cover ino offset.toNat m).file ino = _ := hm.works.wf.works_cover.2.1
  have hb := hm.blocks hrel
  have hg := (hm.grown hrel).unused
  have hle := hm.grows
  rcases Nat.eq_zero_or_pos m with rfl | hpos
  · have hsize : ((t.cover ino offset.toNat 0).din ino).size =
        max (t.din ino).size (offset.toNat + 0) := congrArg File.size hfile
    have hblocks : ((t.cover ino offset.toNat 0).din ino).blocks = (t.din ino).blocks :=
      congrArg File.blocks hfile
    unfold Agrees at ha
    rw [hsize, hblocks, hb, if_pos rfl] at ha
    have := ceilBlocks_le.mp ha.ge
    omega
  · rw [if_neg (by omega)] at hb
    have hlt : (s.din ino).blocks < ceilBlocks (offset.toNat + m) := lt_ceilBlocks.mpr (by omega)
    have := room_mono s ino
      (by omega : 1 ≤ (t.din ino).blocks - (s.din ino).blocks)
    omega

theorem Truncated.keeps {ret : ℤ} (h : Truncated I ino s O length ret t) (hrel : s.Reliable)
    (ha : Agrees s ino) (hb : Agrees t ino) : s.TruncKeeps ino length := by
  rcases h with hx | ⟨-, hx, -⟩ | ⟨hrej, hlen, hlt, hret, he⟩ | ⟨-, -, hret, hr⟩ | ⟨-, -, hlt, he⟩ |
    ⟨-, -, hle, -⟩
  · exact .inl hx
  · exact .inr (.inl hx)
  · refine .inr (.inr ?_)
    rw [if_pos hlt]
    rename_i k O'
    have hsize : (t.din ino).size = (s.din ino).size := congrArg File.size he.file
    have hblocks : (t.din ino).blocks = (s.din ino).blocks + k := congrArg File.blocks he.file
    unfold Agrees at ha hb
    rw [hsize, ← ha, hblocks] at hb
    have hk : k = 0 := by omega
    have := (he.full hrel hret).2.1
    rw [hk] at this
    exact ⟨hrel, .inr this⟩
  · exact absurd (hr.reliable hrel) hret
  · refine .inr (.inr ?_)
    rw [if_pos hlt]
    rename_i u O'
    have hg := (he.grown hrel).unused
    have hblocks : (u.din ino).blocks = (s.din ino).blocks + _ := congrArg File.blocks he.file
    rw [hblocks, Nat.add_sub_cancel_left] at hg
    exact ⟨hrel, .inl (by omega)⟩
  · refine .inr (.inr ?_)
    rw [if_neg (by omega)]
    exact .inl hrel

theorem FileOp.Step.agrees {op : FileOp} (h : op.Step I s t) (hs : Consistent s I)
    (ha : Agrees s op.ino) : (op.Keeps s → Agrees t op.ino) ∧
      (s.Reliable → Agrees t op.ino → op.Keeps s) := by
  obtain ⟨O, hwf⟩ := hs
  obtain ⟨hop, ret, hrun⟩ := h
  have htrunc : ∀ {ino : ℕ} {len ret : ℤ}, Truncated I ino s O len ret t → Agrees s ino →
      (s.TruncKeeps ino len → Agrees t ino) ∧ (s.Reliable → Agrees t ino → s.TruncKeeps ino len) :=
    fun ht ha => ⟨ht.agrees ha, fun hrel hb => ht.keeps hrel ha hb⟩
  cases op with
  | io ino buf offset len write =>
    obtain ⟨⟨ret', alen, buf'⟩, u, hio, hret⟩ := Code.bind_eq_ok hrun
    obtain ⟨-, rfl⟩ : ret' = ret ∧ u = t := by simpa using hret
    have htype : (s.din ino).type ≠ sfsTypeDir := by
      obtain ⟨_, _, hassert, -⟩ := Code.bind_eq_ok hio
      exact (Code.assert_eq_ok hassert).1
    have hr := (hwf.io_wp hop htype).ok hio
    exact ⟨hr.agrees ha, fun hrel hb => hr.keeps hrel hb⟩
  | truncfile ino len => exact htrunc ((hwf.truncfile_wp hop).ok hrun) ha
  | tryseek ino pos =>
    rcases (hwf.tryseek_wp hop).ok hrun with hx | ⟨-, hx⟩ | ⟨hrej, hlt, ht⟩
    · exact ⟨fun _ => ha, fun _ _ => .inl hx⟩
    · exact ⟨fun _ => ha, fun _ _ => .inr (.inl hx)⟩
    · obtain ⟨h₁, h₂⟩ := htrunc ht ha
      refine ⟨fun hk => h₁ ?_, fun hrel hb => .inr (.inr (h₂ hrel hb))⟩
      rcases hk with hk | hk | hk
      · exact absurd hk hrej
      · exact absurd hk (not_le.mpr hlt)
      · exact hk

end Exact

section Runs

variable {s t : Fs} {I : Set ℕ} {l : List FileOp}

/-- Size and blocks agree for all regular files. -/
def AllAgree (I : Set ℕ) (s : Fs) : Prop :=
  ∀ ino ∈ I, (s.din ino).type = sfsTypeFile → Agrees s ino

/-- The call returns, and if it is about a regular file it meets its condition. -/
def KeepStep (I : Set ℕ) (s : Fs) (op : FileOp) (t : Fs) : Prop :=
  op.Step I s t ∧ ((s.din op.ino).type = sfsTypeFile → op.Keeps s)

theorem KeepStep.allAgree {op : FileOp} (h : KeepStep I s op t) (hs : Consistent s I)
    (ha : AllAgree I s) : AllAgree I t := by
  obtain ⟨hstep, hk⟩ := h
  obtain ⟨O, hwf⟩ := hs
  have hop := hstep.1
  obtain ⟨ret, hrun⟩ := hstep.2
  obtain ⟨O', hw⟩ := (hwf.op_wp hop).ok hrun
  intro ino hino htype
  by_cases he : ino = op.ino
  · subst he
    rw [hw.type] at htype
    exact (hstep.agrees ⟨O, hwf⟩ (ha _ hino htype)).1 (hk htype)
  · have hfile := hw.file_other hwf hino he
    have hsize : (t.din ino).size = (s.din ino).size := congrArg File.size hfile
    have hblocks : (t.din ino).blocks = (s.din ino).blocks := congrArg File.blocks hfile
    rw [hw.din_other he] at htype
    unfold Agrees
    rw [hsize, hblocks]
    exact ha ino hino htype

theorem keepRuns_inv (h : Runs (fun s op t => KeepStep I s op t) s l t) (hs : Consistent s I)
    (ha : AllAgree I s) : Consistent t I ∧ AllAgree I t :=
  h.invariant (P := fun s => Consistent s I ∧ AllAgree I s)
    (fun _ _ _ hp hstep => ⟨hstep.1.consistent hp.1, hstep.allAgree hp.1 hp.2⟩) ⟨hs, ha⟩

/-- In a run whose calls meet the condition size and blocks agree, and the assertion of
`sfs_truncfile` holds. -/
theorem sizes_agree (hs : Consistent s I) (ha : AllAgree I s)
    (h : Runs (fun s op t => KeepStep I s op t) s l t) :
    AllAgree I t ∧ ∀ ino ∈ I, (t.din ino).type = sfsTypeFile → ∀ len,
      sfsTruncfile ino len t ≠ .error .truncBlocks := by
  obtain ⟨⟨O, hwf⟩, ht⟩ := keepRuns_inv h hs ha
  refine ⟨ht, fun ino hino htype len he => ?_⟩
  rcases ((hwf.truncfile_wp hino).error he).2 with ⟨-, hlen, hne⟩ | ⟨hx, -⟩
  · refine hne ?_
    rw [hlen, Int.toNat_natCast]
    exact (ht ino hino htype).symm
  · cases hx

theorem image_allAgree {n : ℕ} : AllAgree imageInodes (image n 0 []) := by
  rintro ino (rfl | rfl) htype
  · exact absurd htype (by decide : sfsTypeDir ≠ sfsTypeFile)
  · exact (by decide : (0 : ℕ) = ceilBlocks 0)

/-- A seek appends two blocks to an empty file, all that are free. -/
theorem sizes_agree_image : ∃ t, AllAgree imageInodes t ∧ (t.din 5).blocks = 2 := by
  have hwf : Wf (image 9 0 []) _ imageInodes := image_wf (by decide) (by decide) (by decide)
  have hrun : (FileOp.exec (image 9 0 []) (.tryseek 5 5000)).map (fun t => (t.din 5).blocks == 2) =
      some true := by decide +kernel
  obtain ⟨t, ht, hx⟩ := Option.map_eq_some_iff.mp hrun
  have hb : (t.din 5).blocks = 2 := by simpa using hx
  have hstep : KeepStep imageInodes (image 9 0 []) (.tryseek 5 5000) t := by
    have hexec : ([.tryseek 5 5000] : List FileOp).foldlM FileOp.exec (image 9 0 []) = some t := by
      simp [ht]
    have hr := FileOp.runs_of_exec (I := imageInodes) hexec (by simp [FileOp.ino, imageInodes])
    cases hr with
    | cons h h' =>
      cases h'
      refine ⟨h, fun _ => .inr (.inr (.inr (.inr ?_)))⟩
      rw [if_pos (by decide)]
      exact ⟨by simp [Fs.Reliable, image], .inl (by decide)⟩
  exact ⟨t, (sizes_agree ⟨_, hwf⟩ image_allAgree (.cons hstep (.nil t))).1, hb⟩

/-- A truncation of an empty file to three blocks on a volume with two free blocks fails and leaves
two blocks; a truncation to the size of the file then fails the assertion. -/
theorem sizes_disagree : Consistent (image 9 0 []) imageInodes ∧
    AllAgree imageInodes (image 9 0 []) ∧
    ∃ t, Runs (fun s op t => FileOp.Step imageInodes s op t) (image 9 0 []) [.truncfile 5 12288] t ∧
      (t.din 5).size = 0 ∧ (t.din 5).blocks = 2 ∧ ¬ Agrees t 5 ∧
      sfsTruncfile 5 0 t = .error .truncBlocks := by
  have hwf : Wf (image 9 0 []) _ imageInodes := image_wf (by decide) (by decide) (by decide)
  have hrun : (([.truncfile 5 12288] : List FileOp).foldlM FileOp.exec (image 9 0 [])).map (fun t =>
      (t.din 5).size == 0 && (t.din 5).blocks == 2) = some true := by decide +kernel
  obtain ⟨t, ht, hx⟩ := Option.map_eq_some_iff.mp hrun
  obtain ⟨hsize, hblocks⟩ : (t.din 5).size = 0 ∧ (t.din 5).blocks = 2 := by simpa using hx
  refine ⟨⟨_, hwf⟩, image_allAgree, t, FileOp.runs_of_exec ht (by simp [FileOp.ino, imageInodes]),
    hsize, hblocks, ?_, ?_⟩
  · unfold Agrees
    rw [hsize, hblocks]
    decide
  · unfold sfsTruncfile
    rw [if_neg (by decide)]
    refine (Code.bind_ok rfl).trans ?_
    rw [if_pos (by rw [hsize]; rfl)]
    refine Code.bind_error (Code.assert_false ?_)
    rw [hblocks]
    decide

end Runs

end UCore.Sfs

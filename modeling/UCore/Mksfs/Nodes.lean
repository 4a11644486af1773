import UCore.Mksfs.Append

/-! # The files of the image

The files that the builder has made so far, each with its blocks in order. The cached inodes, the
cached tables and the device hold them at every time.
-/

namespace UCore.Mksfs

open Library Sfs Vfs

/-- A file of the image. -/
structure Node where
  type : ℕ
  nlinks : ℕ
  size : ℕ
  blocks : List Buf

/-- The files by the numbers of their inodes. -/
abbrev Nodes : Type := ℕ → Option Node

theorem hash32_lt {val : ℕ} : hash32 val < hashListSize := by
  unfold hash32 hashListSize
  omega

/-- The cached inode, its places and the device hold the file. -/
structure Shows (disk : ℕ → Buf) (ci : CacheInode) (a : Ref → ℕ) (nd : Node) : Prop where
  type : ci.din.type = nd.type
  width : nd.type < 2 ^ 16
  nlinks : ci.din.nlinks = nd.nlinks
  size : ci.din.size = nd.size
  blocks : ci.din.blocks = nd.blocks.length
  nblks : ci.nblks = nd.blocks.length
  small : nd.blocks.length ≤ sfsLnNblks
  used : ∀ r, a r ≠ 0 ↔ r.Used nd.blocks.length
  data : ∀ i (h : i < nd.blocks.length), disk (a (.data i)) = nd.blocks[i]

structure Img (m : Writer) (A : Places) (O : ℕ → Option Owner) (V : Nodes) : Prop
    extends Base m A O where
  nodes : ∀ ino, O ino = some .inode ↔ V ino ≠ none
  shows : ∀ ino nd, V ino = some nd → Shows m.disk (m.inode ino) (A ino) nd

def Holds (m : Writer) (V : Nodes) : Prop := ∃ A O, Img m A O V

/-- The builder holds the files, and the block `b` was handed out for one of them. -/
def Ready (m : Writer) (V : Nodes) (b : ℕ) : Prop := ∃ A O, Img m A O V ∧ Free m O b

structure SameLogs (m m' : Writer) : Prop where
  calls : m'.calls = m.calls
  stored : m'.stored = m.stored
  entryName : m'.entryName = m.entryName

theorem SameLogs.trans {m m' m'' : Writer} (h : SameLogs m m') (h' : SameLogs m' m'') :
    SameLogs m m'' :=
  ⟨h'.calls.trans h.calls, h'.stored.trans h.stored, h'.entryName.trans h.entryName⟩

section Store

variable {m m' : Writer} {A : Places} {O : ℕ → Option Owner} {V : Nodes} {nd : Node}
  {b file len size : ℕ} {data : Buf}

theorem Img.same (h : Img m A O V) (hB : Base m' A O) (hi : m'.inode = m.inode)
    (hd : ∀ b, O b ≠ none → m'.disk b = m.disk b) : Img m' A O V := by
  refine { hB with nodes := h.nodes, shows := fun ino nd hV => ?_ }
  have hs := h.shows ino nd hV
  rw [hi]
  refine { hs with data := fun i hlt => ?_ }
  have hA : A ino (.data i) ≠ 0 := (hs.used _).mpr hlt
  rw [hd _ (by simp [(h.refs ino _ hA).2])]
  exact hs.data i hlt

theorem Holds.logs (h : Holds m V) (calls : List (ℕ × Str × ℕ)) (stored : List (ℕ × List UInt8))
    (entryName : Buf) :
    Holds { m with calls := calls, stored := stored, entryName := entryName } V := by
  obtain ⟨A, O, hI⟩ := h
  exact ⟨A, O, hI.same (hI.toBase.same ⟨rfl, rfl, rfl, rfl, rfl, rfl, fun _ => rfl, fun _ => rfl,
    fun _ => rfl⟩) rfl fun _ _ => rfl⟩

theorem sfsAllocIno_ready (h : Holds m V) :
    (sfsAllocIno).Wp m (fun _ => True) fun b m' => Ready m' V b ∧ SameLogs m m' := by
  obtain ⟨A, O, hI⟩ := h
  refine (sfsAllocIno_wp hI.toBase).mono (fun _ he => he) ?_
  rintro b m' ⟨rfl, rfl, hB, hF⟩
  exact ⟨⟨A, O, hI.same hB rfl fun _ _ => rfl, hF⟩, rfl, rfl, rfl⟩

theorem writeBlock_ready (h : Ready m V b) :
    (writeBlock data len b).Wp m (fun _ => True) fun _ m' =>
      Ready m' V b ∧ SameLogs m m' ∧ m'.disk b = memcpy zeros 0 data 0 len := by
  obtain ⟨A, O, hI, hF⟩ := h
  refine Code.Wp.bind_assert (fun _ => ?_) fun _ => trivial
  have hs : m.Same { m with disk := Function.update m.disk b (memcpy zeros 0 data 0 len) } :=
    ⟨rfl, rfl, rfl, rfl, rfl, rfl, fun _ => rfl, fun _ => rfl, fun _ => rfl⟩
  refine ⟨⟨A, O, hI.same (hI.toBase.same hs) rfl ?_, hF.same hs⟩, ⟨rfl, rfl, rfl⟩,
    Function.update_self b _ m.disk⟩
  intro b' hb'
  refine Function.update_of_ne ?_ _ _
  rintro rfl
  exact hb' hF.none

/-- The block becomes the last one of the file. -/
theorem appendBlock_holds (h : Ready m V b) (hV : V file = some nd) :
    (appendBlock file size b).Wp m (fun _ => True) fun _ m' =>
      Holds m' (Function.update V file (some { nd with
        size := (nd.size + size) % 2 ^ 32, blocks := nd.blocks ++ [m.disk b] })) ∧
          SameLogs m m' := by
  obtain ⟨A, O, hI, hF⟩ := h
  have hs := hI.shows file nd hV
  have hino : O file = some .inode := (hI.nodes file).mpr (by simp [hV])
  refine Code.Wp.bind_assert (fun _ => Code.Wp.bind_get ?_) fun _ => trivial
  dsimp only
  split
  next => exact Code.Wp.of_error rfl trivial
  next hn =>
    have hlt : nd.blocks.length < sfsLnNblks := by
      rw [← hs.nblks]
      exact not_le.mp hn
    rw [hs.nblks]
    refine (mapBlock_wp hI.toBase hF hino hs.used hlt).bind ?_
    rintro - m₁ ⟨hk, A', O', hB, hG, hx, hu⟩
    have hself : ∀ f : CacheInode → CacheInode,
        (m₁.setInode file f).inode file = f (m₁.inode file) :=
      fun f => Function.update_self _ _ _
    have hne : ∀ f : CacheInode → CacheInode, ∀ y ≠ file,
        (m₁.setInode file f).inode y = m₁.inode y :=
      fun f y hy => Function.update_of_ne hy _ _
    refine ⟨⟨A', O', { hB.same ?_ with nodes := fun ino => ?_, shows := fun ino nd' hnd => ?_ }⟩,
      hk.calls, hk.stored, hk.entryName⟩
    · exact Writer.same_setInode rfl rfl rfl
    · rw [hG.inodes, hI.nodes]
      by_cases hi : ino = file
      · subst hi
        simp [hV]
      · rw [Function.update_of_ne hi]
    · have hdisk : ∀ {f}, (m₁.setInode file f).disk = m.disk := hk.disk
      by_cases hi : ino = file
      · subst hi
        rw [Function.update_self, Option.some.injEq] at hnd
        subst hnd
        have hlen : (nd.blocks ++ [m.disk b]).length = nd.blocks.length + 1 := by simp
        rw [hself, hdisk]
        refine ⟨?_, hs.width, ?_, ?_, ?_, ?_, ?_, fun r => ?_, fun i hi => ?_⟩
        · exact hk.type.trans hs.type
        · exact hk.nlinks.trans hs.nlinks
        · dsimp only
          rw [hk.size, hs.size]
        · dsimp only
          rw [hk.blocks, hs.blocks, hlen]
          have : sfsLnNblks = 32768 := rfl
          omega
        · dsimp only
          rw [hk.nblks, hs.nblks, hlen]
        · dsimp only
          rw [hlen]
          exact hlt
        · dsimp only
          rw [hlen]
          exact hu r
        · dsimp only at hi ⊢
          by_cases hil : i < nd.blocks.length
          · rw [hG.refs _ ((hs.used (.data i)).mpr hil), hs.data i hil,
              List.getElem_append_left hil]
          · obtain rfl : i = nd.blocks.length := by omega
            rw [hx, List.getElem_append_right (Nat.le_refl _)]
            simp
      · rw [Function.update_of_ne hi] at hnd
        rw [hne _ ino hi, hk.others ino hi, hG.others ino hi, hdisk]
        exact hI.shows ino nd' hnd

/-- A new file without blocks. -/
theorem allocCacheInode_holds (h : Holds m V) {real type : ℕ} (ht : type < 2 ^ 16) :
    (allocCacheInode real 0 type).Wp m (fun _ => True) fun b m' =>
      V b = none ∧ Holds m' (Function.update V b (some ⟨type, 0, 0, []⟩)) ∧ SameLogs m m' := by
  obtain ⟨A, O, hI⟩ := h
  refine Code.Wp.bind (sfsAllocIno_wp hI.toBase) ?_
  rintro b m₁ ⟨rfl, rfl, hB, hF⟩
  have hnone : V m.nextIno = none := by
    by_contra hV
    have := (hI.nodes _).mpr hV
    rw [hF.none] at this
    cases this
  have hzero : ∀ r, A m.nextIno r = 0 := by
    intro r
    by_contra hA
    have := (hB.refs _ r hA).1
    rw [hF.none] at this
    cases this
  have howner : ∀ {b' o}, O b' = some o →
      Function.update O m.nextIno (some .inode) b' = some o := by
    intro b' o ho
    rw [Function.update_of_ne, ho]
    rintro rfl
    rw [hF.none] at ho
    cases ho
  refine Code.Wp.bind_modify (Code.Wp.pure ⟨hnone, ⟨A, Function.update O m.nextIno (some .inode),
    { range := hB.range, count := hB.count, parent := hB.parent, cached := hB.cached
      owned := ?_, inode := ?_, listed := ?_, refs := ?_, maps := ?_, tables := ?_
      nodes := ?_, shows := ?_ }⟩, rfl, rfl, rfl⟩)
  · intro b o ho
    by_cases hb : b = m.nextIno
    · exact .inr (hb ▸ hF.range)
    · rw [Function.update_of_ne hb] at ho
      exact hB.owned b o ho
  · intro b
    have hl : hash32 real < hashListSize := hash32_lt
    by_cases hb : b = m.nextIno
    · subst hb
      refine iff_of_true (Function.update_self _ _ _) ⟨hash32 real, hl, ?_⟩
      simp
    · rw [Function.update_of_ne hb]
      refine (hB.inode b).trans (exists_congr fun l => and_congr_right fun _ => ?_)
      by_cases hlr : l = hash32 real
      · subst hlr
        simp [hb]
      · dsimp only
        rw [Function.update_of_ne hlr]
  · intro l b hb
    dsimp only at hb
    by_cases hlr : l = hash32 real
    · subst hlr
      rw [Function.update_self] at hb
      rcases List.mem_cons.mp hb with rfl | hb
      · exact Function.update_self _ _ _
      · exact howner (hB.listed _ b hb)
    · rw [Function.update_of_ne hlr] at hb
      exact howner (hB.listed l b hb)
  · exact fun ino r hA => ⟨howner (hB.refs ino r hA).1, howner (hB.refs ino r hA).2⟩
  · intro ino hi
    dsimp only
    by_cases hb : ino = m.nextIno
    · subst hb
      rw [Function.update_self]
      exact ⟨fun i _ => (hzero _).symm, (hzero _).symm, (hzero _).symm,
        fun p _ hp => absurd (hzero p) hp⟩
    · rw [Function.update_of_ne hb] at hi ⊢
      exact hB.maps ino hi
  · intro l b hb
    refine ⟨(hB.tables l b hb).1, (hB.tables l b hb).2.1, fun o ho => ?_⟩
    by_cases hbn : b = m.nextIno
    · subst hbn
      exact absurd hb (hF.blocks l)
    · rw [Function.update_of_ne hbn] at ho
      exact (hB.tables l b hb).2.2 o ho
  · intro ino
    by_cases hb : ino = m.nextIno
    · subst hb
      simp
    · rw [Function.update_of_ne hb, Function.update_of_ne hb]
      exact hI.nodes ino
  · intro ino nd hV
    dsimp only
    by_cases hb : ino = m.nextIno
    · subst hb
      rw [Function.update_self, Option.some.injEq] at hV
      subst hV
      rw [Function.update_self]
      refine ⟨rfl, ht, rfl, rfl, rfl, rfl, Nat.zero_le _, fun r => ?_, nofun⟩
      rw [hzero r]
      cases r <;> simp [Ref.Used]
    · rw [Function.update_of_ne hb] at hV ⊢
      exact hI.shows ino nd hV

theorem Holds.setLinks (h : Holds m V) (hV : V file = some nd) (n : ℕ → ℕ) :
    Holds (m.setInode file fun x => { x with din := { x.din with nlinks := n x.din.nlinks } })
      (Function.update V file (some { nd with nlinks := n nd.nlinks })) := by
  obtain ⟨A, O, hI⟩ := h
  have hself : ∀ f : CacheInode → CacheInode, (m.setInode file f).inode file = f (m.inode file) :=
    fun f => Function.update_self _ _ _
  have hne : ∀ f : CacheInode → CacheInode, ∀ y ≠ file, (m.setInode file f).inode y = m.inode y :=
    fun f y hy => Function.update_of_ne hy _ _
  have hs : m.Same (m.setInode file fun x =>
      { x with din := { x.din with nlinks := n x.din.nlinks } }) := Writer.same_setInode rfl rfl rfl
  refine ⟨A, O, { hI.toBase.same hs with nodes := fun ino => ?_, shows := fun ino nd' hnd => ?_ }⟩
  · rw [hI.nodes]
    by_cases hi : ino = file
    · subst hi
      simp [hV]
    · rw [Function.update_of_ne hi]
  · by_cases hi : ino = file
    · subst hi
      rw [Function.update_self, Option.some.injEq] at hnd
      subst hnd
      have hs := hI.shows ino nd hV
      rw [hself]
      exact ⟨hs.type, hs.width, congrArg n hs.nlinks, hs.size, hs.blocks, hs.nblks,
        hs.small, hs.used, hs.data⟩
    · rw [Function.update_of_ne hi] at hnd
      rw [hne _ ino hi]
      exact hI.shows ino nd' hnd

end Store

end UCore.Mksfs

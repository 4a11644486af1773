import UCore.Mksfs.Places

/-! # Appending a block

What the allocation of blocks and the branches of `append_block` do to the places.
-/

namespace UCore.Mksfs

open Library Sfs Vfs

variable {m m' m'' : Writer} {A A' A'' : Places} {O O' O'' : ℕ → Option Owner}
  {ino x b n : ℕ} {r : Ref} {cb : Option ℕ}

/-- The places are made of the same. -/
structure Writer.Same (m m' : Writer) : Prop where
  ninos : m'.ninos = m.ninos
  nextIno : m'.nextIno = m.nextIno
  unusedBlocks : m'.unusedBlocks = m.unusedBlocks
  inodes : m'.inodes = m.inodes
  cache : m'.cache = m.cache
  blocks : m'.blocks = m.blocks
  direct : ∀ ino, (m'.inode ino).din.direct = (m.inode ino).din.direct
  indirect : ∀ ino, (m'.inode ino).din.indirect = (m.inode ino).din.indirect
  dbIndirect : ∀ ino, (m'.inode ino).dbIndirect = (m.inode ino).dbIndirect

theorem Writer.setInode_field {β : Type} {f : CacheInode → CacheInode} (q : CacheInode → β)
    (hq : q (f (m.inode ino)) = q (m.inode ino)) (y : ℕ) :
    q ((m.setInode ino f).inode y) = q (m.inode y) := by
  by_cases hy : y = ino
  · subst hy
    simpa [Writer.setInode] using hq
  · simp [Writer.setInode, hy]

theorem Writer.same_setInode {f : CacheInode → CacheInode}
    (hd : (f (m.inode ino)).din.direct = (m.inode ino).din.direct)
    (hi : (f (m.inode ino)).din.indirect = (m.inode ino).din.indirect)
    (hdb : (f (m.inode ino)).dbIndirect = (m.inode ino).dbIndirect) : m.Same (m.setInode ino f) :=
  ⟨rfl, rfl, rfl, rfl, rfl, rfl, setInode_field (fun c => c.din.direct) hd,
    setInode_field (fun c => c.din.indirect) hi, setInode_field CacheInode.dbIndirect hdb⟩

theorem Base.same (h : Base m A O) (hs : m.Same m') : Base m' A O := by
  have hf : m'.first = m.first := by
    unfold Writer.first
    rw [hs.ninos]
  constructor
  case range =>
    rw [hf, hs.nextIno, hs.ninos]
    exact h.range
  case count =>
    rw [hs.unusedBlocks, hs.nextIno, hs.ninos]
    exact h.count
  case owned =>
    rw [hf, hs.nextIno]
    exact h.owned
  case inode =>
    rw [hs.inodes]
    exact h.inode
  case listed =>
    rw [hs.inodes]
    exact h.listed
  case refs => exact h.refs
  case parent => exact h.parent
  case maps =>
    intro ino hi
    have hm := h.maps ino hi
    rw [hs.cache]
    exact ⟨by rw [hs.direct]; exact hm.direct, by rw [hs.indirect]; exact hm.index,
      by rw [hs.dbIndirect]; exact hm.dbIndex, hm.entries⟩
  case cached =>
    rw [hs.blocks]
    exact h.cached
  case tables =>
    rw [hs.blocks, hf, hs.nextIno]
    exact h.tables

/-- A block that has no place yet and is not a cached block. -/
structure Free (m : Writer) (O : ℕ → Option Owner) (b : ℕ) : Prop extends Reserved m O b where
  blocks : ∀ h, b ∉ m.blocks h

theorem Free.same (h : Free m O b) (hs : m.Same m') : Free m' O b := by
  have hf : m'.first = m.first := by
    unfold Writer.first
    rw [hs.ninos]
  constructor
  · constructor
    · exact h.none
    · rw [hf, hs.nextIno]
      exact h.range
  · rw [hs.blocks]
    exact h.blocks

/-- The changes to the builder while a block is appended to the file `ino`. -/
structure Kept (ino : ℕ) (m m' : Writer) : Prop where
  disk : m'.disk = m.disk
  calls : m'.calls = m.calls
  stored : m'.stored = m.stored
  entryName : m'.entryName = m.entryName
  others : ∀ x ≠ ino, m'.inode x = m.inode x
  type : (m'.inode ino).din.type = (m.inode ino).din.type
  nlinks : (m'.inode ino).din.nlinks = (m.inode ino).din.nlinks
  size : (m'.inode ino).din.size = (m.inode ino).din.size
  blocks : (m'.inode ino).din.blocks = (m.inode ino).din.blocks
  nblks : (m'.inode ino).nblks = (m.inode ino).nblks

theorem Kept.refl : Kept ino m m := ⟨rfl, rfl, rfl, rfl, fun _ _ => rfl, rfl, rfl, rfl, rfl, rfl⟩

theorem Kept.trans (h : Kept ino m m') (h' : Kept ino m' m'') : Kept ino m m'' where
  disk := h'.disk.trans h.disk
  calls := h'.calls.trans h.calls
  stored := h'.stored.trans h.stored
  entryName := h'.entryName.trans h.entryName
  others x hx := (h'.others x hx).trans (h.others x hx)
  type := h'.type.trans h.type
  nlinks := h'.nlinks.trans h.nlinks
  size := h'.size.trans h.size
  blocks := h'.blocks.trans h.blocks
  nblks := h'.nblks.trans h.nblks

theorem place_kept : Kept ino m (place m A ino r b) := by
  unfold place
  split
  · exact ⟨rfl, rfl, rfl, rfl, fun _ _ => rfl, rfl, rfl, rfl, rfl, rfl⟩
  · constructor <;> try rfl
    case others => exact fun x hx => Function.update_of_ne hx _ _
    all_goals
      simp only [Writer.setInode, Function.update_self]
      split <;> rfl

/-- The changes to the places while a block is appended to the file `ino`. -/
structure Grown (ino : ℕ) (A : Places) (O : ℕ → Option Owner) (A' : Places)
    (O' : ℕ → Option Owner) : Prop where
  others : ∀ x ≠ ino, A' x = A x
  refs : ∀ r, A ino r ≠ 0 → A' ino r = A ino r
  inodes : ∀ b, O' b = some .inode ↔ O b = some .inode

theorem Grown.refl : Grown ino A O A O := ⟨fun _ _ => rfl, fun _ _ => rfl, fun _ => Iff.rfl⟩

theorem Grown.trans (h : Grown ino A O A' O') (h' : Grown ino A' O' A'' O'') :
    Grown ino A O A'' O'' where
  others x hx := (h'.others x hx).trans (h.others x hx)
  refs r hr := by
    have he := h.refs r hr
    rw [← he] at hr
    rw [h'.refs r hr, he]
  inodes b := (h'.inodes b).trans (h.inodes b)

theorem Grown.set (hA : A ino r = 0) (hb : O b = none) :
    Grown ino A O (A.set ino r b) (Function.update O b (some (.ref ino r))) where
  others x hx := Places.set_ino hx
  refs r' hr := by
    refine Places.set_ref ?_
    rintro rfl
    exact hr hA
  inodes b' := by
    by_cases hbb : b' = b
    · subst hbb
      simp [hb]
    · rw [Function.update_of_ne hbb]

section Alloc

/-- A block is handed out. -/
theorem sfsAllocIno_wp (h : Base m A O) : (sfsAllocIno).Wp m (fun _ => True) fun b m' =>
    b = m.nextIno ∧ m' = { m with unusedBlocks := m.unusedBlocks - 1, nextIno := m.nextIno + 1 } ∧
      Base m' A O ∧ Free m' O b := by
  refine Code.Wp.bind_get ?_
  split
  next hn =>
    refine Code.Wp.bind_modify ?_
    have hr := h.range
    have hc := h.count
    refine Code.Wp.pure ⟨rfl, rfl,
      { h with range := ?_, count := ?_, owned := ?_, tables := ?_ }, ?_⟩
    · exact ⟨hr.1.trans (Nat.le_succ _), hn, hr.2.2⟩
    · change m.unusedBlocks - 1 + (m.nextIno + 1) = m.ninos
      omega
    · intro b o ho
      rcases h.owned b o ho with hb | hb
      · exact .inl hb
      · exact .inr ⟨hb.1, hb.2.trans (Nat.lt_succ_self _)⟩
    · intro l b hb
      obtain ⟨h₁, h₂, h₃⟩ := h.tables l b hb
      exact ⟨h₁, h₂.trans (Nat.lt_succ_self _), h₃⟩
    · refine ⟨⟨?_, hr.1, Nat.lt_succ_self _⟩, fun l hl => ?_⟩
      · by_contra hO
        obtain ⟨o, ho⟩ := Option.ne_none_iff_exists'.mp hO
        have hf := h.first_pos
        rcases h.owned _ o ho with hb | hb
        · have : sfsBlknRoot = 1 := rfl
          omega
        · omega
      · have := (h.tables l _ hl).2.1
        change m.nextIno < m.nextIno at this
        omega
  next => exact Code.Wp.of_error rfl trivial

theorem Free.alloc (hx : Free m O x) :
    Free { m with unusedBlocks := m.unusedBlocks - 1, nextIno := m.nextIno + 1 } O x :=
  ⟨⟨hx.none, hx.range.1, hx.range.2.trans (Nat.lt_succ_self _)⟩, hx.blocks⟩

/-- `alloc_cache_block` of a block without a number. -/
theorem allocCacheBlock_wp {y : ℕ} (h : Base m A O) (hx : Free m O x) :
    (allocCacheBlock 0).Wp m (fun _ => True) fun t m' =>
      Base m' A O ∧ Kept y m m' ∧ Reserved m' O t ∧ Free m' O x ∧ t ≠ x ∧
      (∃ h < hashListSize, t ∈ m'.blocks h) ∧ ∀ k < sfsBlkNentry, entry (m'.cache t) k = 0 := by
  have hlt : hash32 0 < hashListSize := by decide
  refine Code.Wp.bind (sfsAllocIno_wp h) ?_
  rintro t m₁ ⟨rfl, rfl, hB, hF⟩
  refine Code.Wp.bind_modify (Code.Wp.pure ?_)
  have hcached :
    ∀ l b, b ∈ (Function.update m.blocks (hash32 0) (m.nextIno :: m.blocks (hash32 0))) l →
      b = m.nextIno ∨ b ∈ m.blocks l := by
    intro l b hb
    by_cases hl : l = hash32 0
    · subst hl
      rw [Function.update_self] at hb
      exact List.mem_cons.mp hb
    · rw [Function.update_of_ne hl] at hb
      exact .inr hb
  have hkept : ∀ l b, b ∈ m.blocks l →
      b ∈ (Function.update m.blocks (hash32 0) (m.nextIno :: m.blocks (hash32 0))) l := by
    intro l b hb
    by_cases hl : l = hash32 0
    · subst hl
      rw [Function.update_self]
      exact List.mem_cons_of_mem _ hb
    · rwa [Function.update_of_ne hl]
  have hne : m.nextIno ≠ x := Nat.ne_of_gt hx.range.2
  refine ⟨{ hB with maps := ?_, cached := ?_, tables := ?_ }, ?_, ⟨hF.none, hF.range⟩,
    ⟨⟨hx.alloc.none, hx.alloc.range⟩, fun l hl => ?_⟩, hne, ⟨hash32 0, hlt, ?_⟩, ?_⟩
  · intro ino hi
    have hm := hB.maps ino hi
    refine ⟨hm.direct, hm.index, hm.dbIndex, fun p hT hp k hk c hc => ?_⟩
    change entry (Function.update m.cache m.nextIno zeros (A ino p)) k = _
    rw [Function.update_of_ne (hB.reserved_ne hF.toReserved hp)]
    exact hm.entries p hT hp k hk c hc
  · intro ino p hT hp
    obtain ⟨l, hl, hb⟩ := h.cached ino p hT hp
    exact ⟨l, hl, hkept l _ hb⟩
  · intro l b hb
    rcases hcached l b hb with rfl | hb
    · exact ⟨hF.range.1, hF.range.2, fun o ho => by rw [hF.none] at ho; cases ho⟩
    · exact hB.tables l b hb
  · exact ⟨rfl, rfl, rfl, rfl, fun _ _ => rfl, rfl, rfl, rfl, rfl, rfl⟩
  · rcases hcached l x hl with he | hb
    · exact hne he.symm
    · exact hx.blocks l hb
  · change m.nextIno ∈ Function.update m.blocks (hash32 0) _ (hash32 0)
    rw [Function.update_self]
    exact List.mem_cons_self
  · intro k hk
    change entry (Function.update m.cache m.nextIno zeros m.nextIno) k = 0
    rw [Function.update_self]
    simp [entry, zeros, getU32]

end Alloc

section Map

/-- A part of the append of the block `x` to the file `ino`. -/
structure Part (ino x : ℕ) (m : Writer) (A : Places) (O : ℕ → Option Owner) (m' : Writer)
    (A' : Places) (O' : ℕ → Option Owner) : Prop where
  base : Base m' A' O'
  kept : Kept ino m m'
  grown : Grown ino A O A' O'
  free : Free m' O' x

theorem Part.trans (h : Part ino x m A O m' A' O') (h' : Part ino x m' A' O' m'' A'' O'') :
    Part ino x m A O m'' A'' O'' :=
  ⟨h'.base, h.kept.trans h'.kept, h.grown.trans h'.grown, h'.free⟩

theorem Part.same (h : Part ino x m A O m' A' O') (hs : m'.Same m'') (hk : Kept ino m' m'') :
    Part ino x m A O m'' A' O' :=
  ⟨h.base.same hs, h.kept.trans hk, h.grown, h.free.same hs⟩

/-- A table is fetched or allocated, and its number entered. -/
theorem updateCache_wp (h : Base m A O) (hx : Free m O x) (hino : O ino = some .inode)
    (hT : r.IsTable) (hp : ∀ p k, r.parent = some (p, k) → A ino p ≠ 0 ∧ k < sfsBlkNentry) :
    (updateCache cb (A ino r)).Wp m (fun _ => True) fun t m' => t ≠ 0 ∧ Kept ino m m' ∧
      ∃ O', Part ino x m A O (place m' A ino r t) (A.set ino r t) O' := by
  unfold updateCache
  split
  next hA =>
    refine (allocCacheBlock_wp (y := ino) h hx).mono (fun _ he => he) ?_
    rintro t m₁ ⟨hB, hk, hR, hF, hne, hc, hz⟩
    have ht₀ : t ≠ 0 := by
      have := hB.first_pos
      have := hR.range
      omega
    refine ⟨ht₀, hk, _, hB.put hR hino hA hp (fun _ => ⟨hc, hz⟩) (fun h => absurd hT h),
      hk.trans place_kept, .set hA hR.none, ?_⟩
    obtain ⟨is, cs, hm⟩ := place_eq m₁ A ino r t
    rw [hm]
    refine ⟨⟨?_, hF.range⟩, hF.blocks⟩
    rw [Function.update_of_ne hne.symm]
    exact hF.none
  next hA =>
    have hset : A.set ino r (A ino r) = A := by
      unfold Places.set
      rw [Function.update_eq_self, Function.update_eq_self]
    have hpart : Part ino x m A O (place m A ino r (A ino r)) (A.set ino r (A ino r)) O := by
      rw [hset]
      refine ⟨h.again hA, place_kept, .refl, ?_⟩
      obtain ⟨is, cs, hm⟩ := place_eq m A ino r (A ino r)
      rw [hm]
      exact ⟨⟨hx.none, hx.range⟩, hx.blocks⟩
    split
    next => exact Code.Wp.pure ⟨hA, .refl, O, hpart⟩
    next =>
      exact Code.Wp.bind_assert (fun _ => Code.Wp.pure ⟨hA, .refl, O, hpart⟩) fun _ => trivial

theorem Places.set_ne_iff (hb : b ≠ 0) {r' : Ref} :
    A.set ino r b ino r' ≠ 0 ↔ A ino r' ≠ 0 ∨ r' = r := by
  by_cases hr : r' = r
  · subst hr
    simp [Places.set_self, hb]
  · simp [Places.set_ref hr, hr]

theorem Part.data (h : Part ino x m A O m' A' O') (hino : O ino = some .inode)
    (hA : A' ino (.data n) = 0)
    (hp : ∀ p k, (Ref.data n).parent = some (p, k) → A' ino p ≠ 0 ∧ k < sfsBlkNentry) :
    Kept ino m (place m' A' ino (.data n) x) ∧
      ∃ A'' O'', Base (place m' A' ino (.data n) x) A'' O'' ∧ Grown ino A O A'' O'' ∧
        A'' ino (.data n) = x ∧ ∀ r, A'' ino r ≠ 0 ↔ A' ino r ≠ 0 ∨ r = .data n := by
  have hx₀ : x ≠ 0 := by
    have := h.base.first_pos
    have := h.free.range
    omega
  refine ⟨h.kept.trans place_kept, _, _,
    h.base.put h.free.toReserved ((h.grown.inodes ino).mpr hino) hA hp (fun hT => hT.elim)
      (fun _ => h.free.blocks),
    h.grown.trans (.set hA h.free.none), Places.set_self, fun r => Places.set_ne_iff hx₀⟩

variable {file : ℕ} {f g : CacheInode → CacheInode} {t k : ℕ}

theorem Part.setInode (h : Part file x m A O (place m' A' file r t) A'' O')
    (hp : place m' A' file r t = m'.setInode file g)
    (hd : (f (m'.inode file)).din = (g (m'.inode file)).din)
    (hdb : (f (m'.inode file)).dbIndirect = (g (m'.inode file)).dbIndirect)
    (hn : (f (m'.inode file)).nblks = (g (m'.inode file)).nblks) :
    Part file x m A O (m'.setInode file f) A'' O' := by
  rw [hp] at h
  have hself : ∀ f' : CacheInode → CacheInode, (m'.setInode file f').inode file =
    f' (m'.inode file) :=
    fun f' => Function.update_self _ _ _
  have hne : ∀ (f' : CacheInode → CacheInode), ∀ y ≠ file,
      (m'.setInode file f').inode y = m'.inode y :=
    fun f' y hy => Function.update_of_ne hy _ _
  have hcases : ∀ {β : Type} (q : CacheInode → β), q (f (m'.inode file)) = q (g (m'.inode file)) →
      ∀ y, q ((m'.setInode file f).inode y) = q ((m'.setInode file g).inode y) := by
    intro β q hq y
    by_cases hy : y = file
    · rw [hy, hself, hself, hq]
    · rw [hne f y hy, hne g y hy]
  refine h.same ⟨rfl, rfl, rfl, rfl, rfl, rfl, hcases (fun c => c.din.direct) (by rw [hd]),
    hcases (fun c => c.din.indirect) (by rw [hd]), hcases CacheInode.dbIndirect hdb⟩
    ⟨rfl, rfl, rfl, rfl, fun y hy => by rw [hne f y hy, hne g y hy], ?_, ?_, ?_, ?_, ?_⟩
  · rw [hself, hself, hd]
  · rw [hself, hself, hd]
  · rw [hself, hself, hd]
  · rw [hself, hself, hd]
  · rw [hself, hself, hn]

/-- The block `x` is entered as the block `n` of the file. -/
def Mapped (file n x : ℕ) (m : Writer) (A : Places) (O : ℕ → Option Owner) (m' : Writer) : Prop :=
  Kept file m m' ∧ ∃ A' O', Base m' A' O' ∧ Grown file A O A' O' ∧ A' file (.data n) = x ∧
    ∀ r, A' file r ≠ 0 ↔ r.Used (n + 1)

theorem mapBlock_direct (h : Base m A O) (hx : Free m O x) (hino : O file = some .inode)
    (hu : ∀ r, A file r ≠ 0 ↔ r.Used n) (hn : n < sfsL0Nblks) :
    (mapBlock file n x).Wp m (fun _ => True) fun _ m' => Mapped file n x m A O m' := by
  have hnew : A file (.data n) = 0 := by
    by_contra hA
    exact absurd ((hu _).mp hA) (Nat.lt_irrefl n)
  have hp : (Ref.data n).parent = none := if_pos hn
  have hpart : Part file x m A O m A O := ⟨h, .refl, .refl, hx⟩
  obtain ⟨hk, A', O', hB, hG, hx', hu'⟩ := hpart.data hino hnew (by simp [hp])
  have hplace : place m A file (.data n) x = m.setInode file fun y =>
      { y with din := { y.din with direct := Function.update y.din.direct n x } } := by
    unfold place
    rw [hp]
  rw [hplace] at hk hB
  unfold mapBlock
  rw [if_pos hn]
  refine ⟨hk, A', O', hB, hG, hx', fun r => (hu' r).trans ?_⟩
  have h₀ : sfsL0Nblks = 12 := rfl
  have h₁ : sfsL1Nblks = 1036 := rfl
  have hE : sfsBlkNentry = 1024 := rfl
  rw [hu]
  cases r <;> simp only [Ref.Used, Ref.data.injEq, reduceCtorEq, or_false] <;> omega

theorem mapBlock_indirect (h : Base m A O) (hx : Free m O x) (hino : O file = some .inode)
    (hu : ∀ r, A file r ≠ 0 ↔ r.Used n) (hn₀ : ¬ n < sfsL0Nblks) (hn₁ : n < sfsL1Nblks) :
    (mapBlock file n x).Wp m (fun _ => True) fun _ m' => Mapped file n x m A O m' := by
  have h₀ : sfsL0Nblks = 12 := rfl
  have h₁ : sfsL1Nblks = 1036 := rfl
  have hE : sfsBlkNentry = 1024 := rfl
  have hp : (Ref.data n).parent = some (.index, n - sfsL0Nblks) := by
    simp [Ref.parent, hn₀, hn₁]
  unfold mapBlock
  rw [if_neg hn₀, if_pos hn₁]
  refine Code.Wp.bind_get ?_
  dsimp only
  rw [(h.maps file hino).index]
  refine (updateCache_wp h hx hino (r := .index) trivial (by simp [Ref.parent])).bind ?_
  rintro t m₁ ⟨ht, hk₁, O₁, hpart⟩
  refine Code.Wp.bind_modify ?_
  have hpart₁ := hpart.setInode
    (f := fun y => { y with l1 := some t, din := { y.din with indirect := t } })
    (g := fun y => { y with din := { y.din with indirect := t } }) rfl rfl rfl rfl
  obtain ⟨hk, A', O', hB, hG, hx', hu'⟩ := hpart₁.data (n := n) hino
    (by
      rw [Places.set_ref (by simp)]
      by_contra hA
      exact absurd ((hu _).mp hA) (Nat.lt_irrefl n))
    (by
      rw [hp]
      rintro p k ⟨⟩
      rw [Places.set_self]
      exact ⟨ht, by omega⟩)
  have hplace : place (m₁.setInode file fun y =>
        { y with l1 := some t, din := { y.din with indirect := t } }) (A.set file .index t) file
        (.data n) x =
      (m₁.setInode file fun y =>
        { y with l1 := some t, din := { y.din with indirect := t } }).setEntry t
          (n - sfsL0Nblks) x := by
    unfold place
    rw [hp]
    dsimp only
    rw [Places.set_self]
  rw [hplace] at hk hB
  refine ⟨hk, A', O', hB, hG, hx', fun r => (hu' r).trans ?_⟩
  rw [Places.set_ne_iff ht, hu]
  cases r <;> simp only [Ref.Used, Ref.data.injEq, reduceCtorEq, or_false, or_true,
    true_iff] <;> omega

theorem mapBlock_double (h : Base m A O) (hx : Free m O x) (hino : O file = some .inode)
    (hu : ∀ r, A file r ≠ 0 ↔ r.Used n) (hn₁ : ¬ n < sfsL1Nblks) (hn : n < sfsLnNblks) :
    (mapBlock file n x).Wp m (fun _ => True) fun _ m' => Mapped file n x m A O m' := by
  have h₀ : sfsL0Nblks = 12 := rfl
  have h₁ : sfsL1Nblks = 1036 := rfl
  have h₂ : sfsL2Nblks = 1049612 := rfl
  have hL : sfsLnNblks = 32768 := rfl
  have hE : sfsBlkNentry = 1024 := rfl
  have hn₀ : ¬ n < sfsL0Nblks := by omega
  have hp : (Ref.data n).parent =
      some (.table ((n - sfsL1Nblks) / sfsBlkNentry), (n - sfsL1Nblks) % sfsBlkNentry) := by
    simp [Ref.parent, hn₀, hn₁]
  have hk : (n - sfsL1Nblks) / sfsBlkNentry < sfsBlkNentry := by
    rw [hE]
    omega
  unfold mapBlock
  rw [if_neg hn₀, if_neg hn₁, if_pos (by omega)]
  refine Code.Wp.bind_get ?_
  dsimp only
  rw [(h.maps file hino).dbIndex]
  refine (updateCache_wp h hx hino (r := .dbIndex) trivial (by simp [Ref.parent])).bind ?_
  rintro t m₁ ⟨ht, hk₁, O₁, hpart⟩
  refine Code.Wp.bind_modify ?_
  have hpart₁ := hpart.setInode (f := fun y => { y with l2 := some t, dbIndirect := t })
    (g := fun y => { y with dbIndirect := t }) rfl rfl rfl rfl
  generalize (m₁.setInode file fun y => { y with l2 := some t, dbIndirect := t }) = m₂ at hpart₁ ⊢
  refine Code.Wp.bind_get ?_
  set A₁ := A.set file .dbIndex t with hA₁
  set j := (n - sfsL1Nblks) / sfsBlkNentry with hj
  have ht₁ : A₁ file .dbIndex = t := Places.set_self
  have hino₁ : O₁ file = some .inode := (hpart₁.grown.inodes file).mpr hino
  have hent : (getU32 fun i => m₂.cache t (j * 4 + i)) = A₁ file (.table j) := by
    have := (hpart₁.base.maps file hino₁).entries .dbIndex trivial (by rwa [ht₁]) j hk _ rfl
    rwa [ht₁] at this
  rw [hent]
  refine (updateCache_wp hpart₁.base hpart₁.free hino₁ (r := .table j) trivial ?_).bind ?_
  · rintro p k ⟨⟩
    exact ⟨by rwa [ht₁], hk⟩
  rintro u m₃ ⟨hu₀, hk₃, O₂, hpart₂⟩
  have hplace : place m₃ A₁ file (.table j) u = m₃.setEntry t j u := by
    change m₃.setEntry (A₁ file .dbIndex) j u = _
    rw [ht₁]
  rw [hplace] at hpart₂
  have hpart₃ := hpart₁.trans hpart₂
  refine Code.Wp.bind_modify (Code.Wp.bind_modify ?_)
  generalize m₃.setEntry t j u = m₄ at hpart₃ ⊢
  have hpart₄ : Part file x m A O (m₄.setInode file fun y => { y with l1 := some u }) _ _ :=
    hpart₃.same ?_ ?_
  · generalize (m₄.setInode file fun y => { y with l1 := some u }) = m₅ at hpart₄ ⊢
    set A₂ := A₁.set file (.table j) u with hA₂
    have hu₂ : A₂ file (.table j) = u := Places.set_self
    obtain ⟨hkept, A', O', hB, hG, hx', hu'⟩ := hpart₄.data (n := n) hino
      (by
        rw [hA₂, Places.set_ref (by simp), hA₁, Places.set_ref (by simp)]
        by_contra hA
        exact absurd ((hu _).mp hA) (Nat.lt_irrefl n))
      (by
        rw [hp]
        rintro p k ⟨⟩
        rw [hu₂]
        exact ⟨hu₀, Nat.mod_lt _ (by decide)⟩)
    have hplace : place m₅ A₂ file (.data n) x =
        m₅.setEntry u ((n - sfsL1Nblks) % sfsBlkNentry) x := by
      unfold place
      rw [hp]
      dsimp only
      rw [hu₂]
    rw [hplace] at hkept hB
    refine ⟨hkept, A', O', hB, hG, hx', fun r => (hu' r).trans ?_⟩
    have hj' : j = (n - 1036) / 1024 := by rw [hj, h₁, hE]
    rw [Places.set_ne_iff hu₀, Places.set_ne_iff ht, hu]
    cases r <;> simp only [Ref.Used, Ref.data.injEq, Ref.table.injEq, reduceCtorEq,
      or_false, or_true, true_iff, hE] <;> omega
  · exact Writer.same_setInode rfl rfl rfl
  · constructor <;> try rfl
    case others => exact fun y hy => Function.update_of_ne hy _ _
    all_goals simp [Writer.setInode]

theorem mapBlock_wp (h : Base m A O) (hx : Free m O x) (hino : O file = some .inode)
    (hu : ∀ r, A file r ≠ 0 ↔ r.Used n) (hn : n < sfsLnNblks) :
    (mapBlock file n x).Wp m (fun _ => True) fun _ m' => Mapped file n x m A O m' := by
  by_cases hn₀ : n < sfsL0Nblks
  · exact mapBlock_direct h hx hino hu hn₀
  · by_cases hn₁ : n < sfsL1Nblks
    · exact mapBlock_indirect h hx hino hu hn₀ hn₁
    · exact mapBlock_double h hx hino hu hn₁ hn

end Map

end UCore.Mksfs

import UCore.Mksfs.Image

/-! # Reading an image

The inodes and the block maps of an image, as they are read from the device.
-/

namespace UCore.Mksfs

open Library Sfs Vfs

section Bytes

variable {b : Buf} {din : DiskInode} {n k : ℕ}

theorem putUint_toNat : (putUint n k).toNat = n / 256 ^ k % 256 :=
  UInt8.toNat_ofNat_of_lt (Nat.mod_lt _ (by norm_num))

theorem getU32_of_bytes (hb : ∀ j < 4, b j = putUint n j) (hn : n < 2 ^ 32) : getU32 b = n := by
  rw [getU32_congr hb, getU32_putUint hn]

/-- The fields of an inode that was written to the device. -/
theorem diskInode_bytes (hb : ∀ j < sizeofDiskInode, b j = din.bytes j) :
    (diskInode b).type = din.type % 2 ^ 16 ∧ (diskInode b).nlinks = din.nlinks % 2 ^ 16 ∧
    (din.size < 2 ^ 32 → (diskInode b).size = din.size) ∧
    (din.blocks < 2 ^ 32 → (diskInode b).blocks = din.blocks) ∧
    (∀ i < sfsNdirect, din.direct i < 2 ^ 32 → (diskInode b).direct i = din.direct i) ∧
    (din.indirect < 2 ^ 32 → (diskInode b).indirect = din.indirect) := by
  have hs : sizeofDiskInode = 64 := rfl
  have hd : sfsNdirect = 12 := rfl
  rw [hs] at hb
  have h₄ : b 4 = putUint din.type 0 := hb 4 (by omega)
  have h₅ : b 5 = putUint din.type 1 := hb 5 (by omega)
  have h₆ : b 6 = putUint din.nlinks 0 := hb 6 (by omega)
  have h₇ : b 7 = putUint din.nlinks 1 := hb 7 (by omega)
  refine ⟨?_, ?_, fun hn => ?_, fun hn => ?_, fun i hi hn => ?_, fun hn => ?_⟩
  · change (b 4).toNat + (b 5).toNat * 256 = _
    rw [h₄, h₅, putUint_toNat, putUint_toNat]
    omega
  · change (b 6).toNat + (b 7).toNat * 256 = _
    rw [h₆, h₇, putUint_toNat, putUint_toNat]
    omega
  · refine getU32_of_bytes (fun j hj => ?_) hn
    rw [hb j (by omega)]
    exact if_pos hj
  · change (getU32 fun j => b (8 + j)) = _
    refine getU32_of_bytes (fun j hj => ?_) hn
    rw [hb _ (by omega)]
    unfold DiskInode.bytes
    rw [if_neg (by omega), if_neg (by omega), if_neg (by omega), if_pos (by omega),
      Nat.add_sub_cancel_left]
  · change (if i < sfsNdirect then _ else _) = _
    rw [if_pos hi]
    refine getU32_of_bytes (fun j hj => ?_) hn
    rw [hb _ (by omega)]
    unfold DiskInode.bytes
    have h₁ : (12 + i * 4 + j - 12) / 4 = i := by omega
    have h₂ : (12 + i * 4 + j - 12) % 4 = j := by omega
    rw [if_neg (by omega), if_neg (by omega), if_neg (by omega), if_neg (by omega),
      if_pos (by omega), h₁, h₂]
  · change (getU32 fun j => b (60 + j)) = _
    refine getU32_of_bytes (fun j hj => ?_) hn
    rw [hb _ (by omega)]
    unfold DiskInode.bytes
    rw [if_neg (by omega), if_neg (by omega), if_neg (by omega), if_neg (by omega),
      if_neg (by omega), Nat.add_sub_cancel_left]

theorem Dent.ino {e : Str × ℕ} (h : Dent b e) (hn : e.2 < 2 ^ 32) : getU32 b = e.2 := by
  obtain ⟨old, rfl⟩ := h
  refine getU32_of_bytes (fun j hj => ?_) hn
  have hs : sfsDentrySize = 256 := rfl
  rw [memcpy_start (by omega), Nat.zero_add]
  exact if_pos hj

end Bytes

/-- The entry `k` of the table in block `t`, where 0 is no table. -/
def tableEntry (disk : ℕ → Buf) (t k : ℕ) : ℕ := if t = 0 then 0 else entry (disk t) k

/-- The block number at a place of an inode on the device. -/
def refAt (disk : ℕ → Buf) (ino : ℕ) : Ref → ℕ
  | .index => (diskInode (disk ino)).indirect
  | .dbIndex => getU32 fun i => disk ino (sizeofDiskInode + i)
  | .table j => tableEntry disk (getU32 fun i => disk ino (sizeofDiskInode + i)) j
  | .data i =>
    if i < sfsL0Nblks then (diskInode (disk ino)).direct i
    else if i < sfsL1Nblks then tableEntry disk (diskInode (disk ino)).indirect (i - sfsL0Nblks)
    else tableEntry disk
      (tableEntry disk (getU32 fun i => disk ino (sizeofDiskInode + i))
        ((i - sfsL1Nblks) / sfsBlkNentry))
      ((i - sfsL1Nblks) % sfsBlkNentry)

/-- The places that the tables have entries for. -/
def Ref.Valid : Ref → Prop
  | .data i => i < sfsL2Nblks
  | .table j => j < sfsBlkNentry
  | _ => True

theorem refAt_parent {disk : ℕ → Buf} {ino k : ℕ} {p r : Ref} (h : r.parent = some (p, k)) :
    refAt disk ino r = tableEntry disk (refAt disk ino p) k := by
  cases r with
  | index | dbIndex => cases h
  | table j =>
    obtain ⟨rfl, rfl⟩ := Prod.mk.inj (Option.some.inj h)
    rfl
  | data i =>
    simp only [Ref.parent] at h
    split_ifs at h with h₀ h₁
    · obtain ⟨rfl, rfl⟩ := Prod.mk.inj (Option.some.inj h)
      simp only [refAt, h₀, h₁, if_true, if_false]
    · obtain ⟨rfl, rfl⟩ := Prod.mk.inj (Option.some.inj h)
      simp only [refAt, h₀, h₁, if_false]

theorem Ref.Valid.parent {p r : Ref} {k : ℕ} (hv : r.Valid) (h : r.parent = some (p, k)) :
    k < sfsBlkNentry ∧ p.Valid := by
  have h₀ : sfsL0Nblks = 12 := rfl
  have h₁ : sfsL1Nblks = 1036 := rfl
  have h₂ : sfsL2Nblks = 1049612 := rfl
  have hn : sfsBlkNentry = 1024 := rfl
  cases r with
  | index | dbIndex => cases h
  | table j =>
    obtain ⟨rfl, rfl⟩ := Prod.mk.inj (Option.some.inj h)
    exact ⟨hv, trivial⟩
  | data i =>
    change i < sfsL2Nblks at hv
    simp only [Ref.parent] at h
    split_ifs at h with h₀ h₁
    · obtain ⟨rfl, rfl⟩ := Prod.mk.inj (Option.some.inj h)
      exact ⟨by omega, trivial⟩
    · obtain ⟨rfl, rfl⟩ := Prod.mk.inj (Option.some.inj h)
      refine ⟨Nat.mod_lt _ (by decide), ?_⟩
      change (i - sfsL1Nblks) / sfsBlkNentry < sfsBlkNentry
      rw [hn]
      omega

section Read

variable {m : Writer} {A : Places} {O : ℕ → Option Owner} {V : Nodes} {disk : ℕ → Buf} {ino : ℕ}
  {nd : Node} {r : Ref}

theorem Written.inode_byte (h : Written m A V disk) (hV : V ino ≠ none) {j : ℕ}
    (hj : j < sizeofInode) : disk ino j = (m.inode ino).bytes j := by
  rw [h.inode ino hV, memcpy_start hj, Nat.zero_add]

theorem Written.din (h : Written m A V disk) (hI : Img m A O V) (hV : V ino = some nd) :
    (diskInode (disk ino)).type = nd.type ∧ (diskInode (disk ino)).nlinks = nd.nlinks % 2 ^ 16 ∧
    (nd.size < 2 ^ 32 → (diskInode (disk ino)).size = nd.size) ∧
    (diskInode (disk ino)).blocks = nd.blocks.length := by
  have hs := hI.shows ino nd hV
  have hbytes : ∀ j < sizeofDiskInode, disk ino j = (m.inode ino).din.bytes j := by
    intro j hj
    rw [h.inode_byte (by simp [hV]) (hj.trans (by decide))]
    exact if_pos hj
  obtain ⟨ht, hl, hsz, hb, -, -⟩ := diskInode_bytes hbytes
  rw [hs.type, Nat.mod_eq_of_lt hs.width] at ht
  rw [hs.nlinks] at hl
  rw [hs.size] at hsz
  rw [hs.blocks] at hb
  refine ⟨ht, hl, hsz, hb ?_⟩
  have := hs.small
  have : sfsLnNblks = 32768 := rfl
  omega

/-- The block map on the device is the one that was built. -/
theorem Written.refAt (h : Written m A V disk) (hI : Img m A O V) (hV : V ino ≠ none)
    (hv : r.Valid) : refAt disk ino r = A ino r := by
  have hO := (hI.nodes ino).mpr hV
  have hm := hI.maps ino hO
  have hlt : ∀ r, A ino r < 2 ^ 32 := by
    intro r
    by_cases hA : A ino r = 0
    · rw [hA]
      norm_num
    · exact hI.ref_lt hA
  have hbytes : ∀ j < sizeofDiskInode, disk ino j = (m.inode ino).din.bytes j := by
    intro j hj
    rw [h.inode_byte hV (hj.trans (by decide))]
    exact if_pos hj
  obtain ⟨-, -, -, -, hdirect, hindirect⟩ := diskInode_bytes hbytes
  rw [hm.index] at hindirect
  have hdb : (getU32 fun i => disk ino (sizeofDiskInode + i)) = A ino .dbIndex := by
    rw [← hm.dbIndex]
    refine getU32_of_bytes (fun j hj => ?_) (by rw [hm.dbIndex]; exact hlt _)
    have h₁ : sizeofDiskInode = 64 := rfl
    have h₂ : sizeofInode = 68 := rfl
    rw [h.inode_byte hV (by omega)]
    unfold CacheInode.bytes
    rw [if_neg (by omega)]
    congr 1
    omega
  have htable : ∀ r p k, r.Valid → r.parent = some (p, k) → Mksfs.refAt disk ino p = A ino p →
      Mksfs.refAt disk ino r = A ino r := by
    intro r p k hv hp hrp
    have hk := (hv.parent hp).1
    have hc := (Ref.child_iff hk).mpr hp
    rw [refAt_parent hp, hrp]
    unfold tableEntry
    split
    next hA => exact (hI.child_zero hA hk hc).symm
    next hA =>
      have hT := Ref.parent_isTable hp
      rw [← hm.entries p hT hA k hk r hc, h.table ino p hT hA]
      refine getU32_congr fun j hj => ?_
      have hB : sfsBlksize = 4096 := rfl
      have hE : sfsBlkNentry = 1024 := rfl
      rw [memcpy_start (by omega), Nat.zero_add]
  have hindex : Mksfs.refAt disk ino .index = A ino .index := hindirect (hlt _)
  cases r with
  | index => exact hindex
  | dbIndex => exact hdb
  | table j => exact htable _ .dbIndex j hv rfl hdb
  | data i =>
    by_cases h₀ : i < sfsL0Nblks
    · change (if i < sfsL0Nblks then _ else _) = _
      rw [if_pos h₀, ← hm.direct i h₀]
      exact hdirect i h₀ (by rw [hm.direct i h₀]; exact hlt _)
    · by_cases h₁ : i < sfsL1Nblks
      · exact htable _ .index _ hv (by rw [Ref.parent, if_neg h₀, if_pos h₁]) hindex
      · have hp : (Ref.data i).parent = some (.table ((i - sfsL1Nblks) / sfsBlkNentry),
            (i - sfsL1Nblks) % sfsBlkNentry) := by rw [Ref.parent, if_neg h₀, if_neg h₁]
        exact htable _ _ _ hv hp (htable _ .dbIndex _ (hv.parent hp).2 rfl hdb)

end Read

end UCore.Mksfs

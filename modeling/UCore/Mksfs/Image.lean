import UCore.Mksfs.Flush
import UCore.Vfs.Mount

/-! # Mounting an image

The image that the builder wrote is a volume of the kernel.
-/

namespace UCore.Mksfs

open Library Sfs Vfs

/-- The device has what the builder holds. -/
structure Written (m : Writer) (A : Places) (V : Nodes) (disk : ℕ → Buf) : Prop where
  super : disk sfsBlknSuper = memcpy zeros 0 m.superBytes 0 sizeofSuper
  freemap : ∀ b, sfsBlknFreemap ≤ b → b < m.first → disk b = freemapBlock m b
  inode : ∀ ino, V ino ≠ none → disk ino = memcpy zeros 0 (m.inode ino).bytes 0 sizeofInode
  table : ∀ ino p, p.IsTable → A ino p ≠ 0 →
    disk (A ino p) = memcpy zeros 0 (m.cache (A ino p)) 0 sfsBlksize
  data : ∀ ino nd, V ino = some nd → ∀ i (h : i < nd.blocks.length),
    disk (A ino (.data i)) = nd.blocks[i]

section Close

variable {m m' : Writer} {A : Places} {O : ℕ → Option Owner} {V : Nodes} {b l : ℕ}

theorem Base.isInode (h : Base m A O) : m.IsInode b ↔ O b = some .inode := (h.inode b).symm

theorem Base.inode_range (h : Base m A O) (hb : O b = some .inode) :
    b = sfsBlknRoot ∨ m.first ≤ b := by
  rcases h.owned b _ hb with ⟨hb, -⟩ | hb
  · exact .inl hb
  · exact .inr hb.1

theorem Base.not_inode (h : Base m A O) (hb : b ∈ m.blocks l) : ¬ m.IsInode b := by
  rw [h.isInode]
  intro ho
  obtain ⟨ino, p, -, he⟩ := (h.tables l b hb).2.2 _ ho
  cases he

theorem closeSfs_written (h : Img m A O V) :
    (closeSfs).Wp m (fun _ => False) fun _ m' => m' = { m with disk := m'.disk } ∧
      Written m A V m'.disk := by
  have hF : sfsBlknFreemap = 2 := rfl
  have hS : sfsBlknSuper = 0 := rfl
  have hR : sfsBlknRoot = 1 := rfl
  have hfirst : m.first = sfsBlknFreemap + 0 + (m.ninos + sfsBlkbits - 1) / sfsBlkbits := rfl
  obtain ⟨hle₁, hle₂, -⟩ := h.range
  have hpos := h.first_pos
  refine Code.Wp.bind_get ((writeFreemap_writes _ 0 m (by omega)).bind ?_)
  rintro - m₁ hw₁
  have hm₁ : m₁ = { m with disk := m₁.disk } := hw₁.eq
  have hn₁ : m₁.ninos = m.ninos := by rw [hm₁]
  refine Code.Wp.bind_get ((writeBlock_writes (c := fun _ =>
    memcpy zeros 0 m₁.superBytes 0 sizeofSuper) (by decide) (by omega) rfl).bind ?_)
  rintro - m₂ hw₂
  have hm₂ : m₂ = { m with disk := m₂.disk } := by
    rw [hw₂.eq, hm₁]
  have hblocks : m₂.blocks = m.blocks := by rw [hm₂]
  have hinodes : m₂.inodes = m.inodes := by rw [hm₂]
  have hI : m₂.IsInode = m.IsInode := by
    rw [hm₂]
    rfl
  have hcached : cached m₂ = cached m := by
    rw [hm₂]
    rfl
  have hn₂ : m₂.ninos = m.ninos := by rw [hm₂]
  refine (flushLists_writes hashListSize 0 m₂ (Nat.zero_add _) (fun l _ b hb => ?_)
    fun l _ b hb => ?_).mono (fun _ he => he) fun _ m₃ hw₃ => ?_
  · rw [hblocks, hinodes] at hb
    rw [hn₂]
    rcases hb with hb | hb
    · have := (h.tables l b hb).2.1
      omega
    · rcases h.owned b _ (h.listed l b hb) with ⟨he, -⟩ | hb
      · omega
      · omega
  · rw [hI]
    rw [hblocks] at hb
    exact h.not_inode hb
  rw [hcached, hblocks, hinodes] at hw₃
  have hlow : ∀ b, b ≠ sfsBlknRoot → b < m.first → m₃.disk b = m₂.disk b := by
    intro b hb hlt
    refine hw₃.disk_ne ?_
    rintro ⟨l, -, -, hl | hl⟩
    · have := (h.tables l b hl).1
      omega
    · rcases h.inode_range (h.listed l b hl) with he | he
      · exact hb he
      · omega
  have hhigh : ∀ b, b = sfsBlknRoot ∨ m.first ≤ b → m₂.disk b = m.disk b := by
    intro b hb
    have := h.first_pos
    rw [hw₂.disk_ne (by omega), hw₁.disk_ne (by omega)]
  have hsuper : m₁.superBytes = m.superBytes := by
    rw [hm₁]
    rfl
  refine ⟨by rw [hw₃.eq, hm₂], ?_⟩
  constructor
  case super =>
    have := h.first_pos
    rw [hlow _ (by decide) (by omega), hw₂.disk_of rfl, hsuper]
  case freemap =>
    intro b hb hlt
    rw [hlow b (by omega) hlt, hw₂.disk_ne (by omega), hw₁.disk_of (by omega)]
  case inode =>
    intro ino hV
    have ho := (h.nodes ino).mpr hV
    obtain ⟨l, hl, hb⟩ := (h.inode ino).mp ho
    rw [hw₃.disk_of ⟨l, hl, Nat.zero_le _, .inr hb⟩]
    exact if_pos ((h.isInode).mpr ho)
  case table =>
    intro ino p hT hA
    obtain ⟨l, hl, hb⟩ := h.cached ino p hT hA
    rw [hw₃.disk_of ⟨l, hl, Nat.zero_le _, .inl hb⟩]
    exact if_neg (h.not_inode hb)
  case data =>
    intro ino nd hV i hi
    have hs := h.shows ino nd hV
    have hA : A ino (.data i) ≠ 0 := (hs.used (.data i)).mpr hi
    have ho := (h.refs ino _ hA).2
    rw [hw₃.disk_ne, hhigh _ (.inr (h.ref_range hA).1), hs.data i hi]
    rintro ⟨l, -, -, hl | hl⟩
    · obtain ⟨ino', p, hT, he⟩ := (h.tables l _ hl).2.2 _ ho
      cases he
      exact hT
    · have := h.listed l _ hl
      rw [ho] at this
      cases this

theorem Written.congr {disk disk' : ℕ → Buf} (h : Written m A V disk) (hI : Img m A O V)
    (hd : ∀ b < m.ninos, disk' b = disk b) : Written m A V disk' := by
  have hr := hI.range
  have hf := hI.first_pos
  have hlt : ∀ {b o}, O b = some o → b < m.ninos := by
    intro b o ho
    rcases hI.owned b o ho with ⟨rfl, -⟩ | hb
    · have : sfsBlknRoot = 1 := rfl
      omega
    · omega
  have hA : ∀ {ino r}, A ino r ≠ 0 → disk' (A ino r) = disk (A ino r) := fun hA =>
    hd _ (hlt (hI.refs _ _ hA).2)
  constructor
  · rw [hd _ (by have : sfsBlknSuper = 0 := rfl; omega)]
    exact h.super
  · intro b hb hlt
    rw [hd b (by omega)]
    exact h.freemap b hb hlt
  · intro ino hV
    rw [hd ino (hlt ((hI.nodes ino).mpr hV))]
    exact h.inode ino hV
  · intro ino p hT hp
    rw [hA hp]
    exact h.table ino p hT hp
  · intro ino nd hV i hi
    rw [hA (((hI.shows ino nd hV).used (.data i)).mpr hi)]
    exact h.data ino nd hV i hi

end Close

end UCore.Mksfs

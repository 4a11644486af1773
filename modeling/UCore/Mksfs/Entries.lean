import UCore.Mksfs.Mounts
import UCore.Sfs.Reading

/-! # The entries of directories

The kernel finds the entries of a directory of an image by their names, as far as `add_entry` wrote
the names: a block has the bytes of an entry up to the size of its name.
-/

namespace UCore.Mksfs

open Library Sfs Vfs

/-- The length of a name that fits with the inode number in the bytes that `add_entry` writes. -/
def nameRoom : ℕ := sfsDentrySize - 4

section Names

variable {b : Buf} {e : Str × ℕ}

theorem takeWhile_range {f : ℕ → UInt8} {n k : ℕ} (hk : k ≤ n) (hf : ∀ i < k, f i ≠ 0)
    (hz : k < n → f k = 0) :
    ((List.range n).map f).takeWhile (fun c => decide (c ≠ 0)) = (List.range k).map f := by
  obtain ⟨r, rfl⟩ := Nat.exists_eq_add_of_le hk
  rw [List.range_add, List.map_append, List.takeWhile_append_of_pos]
  · cases r with
    | zero => simp
    | succ r =>
      rw [List.range_succ_eq_map, List.map_cons, List.map_cons, List.takeWhile_cons_of_neg]
      · simp
      · simpa using hz (by omega)
  · intro c hc
    obtain ⟨i, hi, rfl⟩ := List.mem_map.mp hc
    exact decide_eq_true (hf i (List.mem_range.mp hi))

theorem map_getD_take (l : Str) (k : ℕ) (hk : k ≤ l.length) :
    (List.range k).map (fun i => l.getD i 0) = l.take k := by
  refine List.ext_getElem (by simpa using hk) fun i h₁ h₂ => ?_
  rw [List.getElem_map, List.getElem_range, List.getElem_take, List.getD_eq_getElem?_getD,
    List.getElem?_eq_getElem]
  rfl

/-- The name of an entry that the kernel reads. -/
theorem Dent.name (h : Dent b e) (hz : (0 : UInt8) ∉ e.1) :
    cString (fun i => memcpy zeros 0 b 0 sizeofDiskEntry (4 + i)) sfsMaxFnameLen =
      e.1.take nameRoom := by
  have hs : sfsDentrySize = 256 := rfl
  have hn : sizeofDiskEntry = 260 := rfl
  have hm : sfsMaxFnameLen = 255 := rfl
  have hr : nameRoom = 252 := rfl
  obtain ⟨old, rfl⟩ := h
  obtain ⟨name, ino⟩ := e
  dsimp only at hz ⊢
  have hbyte : ∀ i < 255, memcpy zeros 0 (memcpy zeros 0 (entryBuf ino
      (memcpy old 0 (strBuf name) 0 (name.length + 1))) 0 sfsDentrySize) 0 sizeofDiskEntry (4 + i) =
      if i < 252 then (if i < name.length + 1 then name.getD i 0 else old i) else 0 := by
    intro i hi
    rw [memcpy_start (by omega), Nat.zero_add]
    by_cases h₁ : i < 252
    · rw [memcpy_start (by omega), if_pos h₁, Nat.zero_add]
      unfold entryBuf
      rw [if_neg (by omega), Nat.add_sub_cancel_left]
      by_cases h₂ : i < name.length + 1
      · rw [if_pos h₂, memcpy_start h₂, Nat.zero_add]
        rfl
      · rw [if_neg h₂, memcpy_out (by omega)]
    · rw [memcpy_out (by omega), if_neg h₁]
      rfl
  have hnz : ∀ i (hi : i < name.length), name.getD i 0 ≠ 0 := by
    intro i hi he
    rw [List.getD_eq_getElem?_getD, List.getElem?_eq_getElem hi, Option.getD_some] at he
    exact hz (he ▸ List.getElem_mem hi)
  unfold cString
  rw [takeWhile_range (k := min name.length 252) (by omega)]
  · rw [List.map_congr_left (g := fun i => name.getD i 0), map_getD_take _ _ (by omega), hr]
    · rcases Nat.le_total name.length 252 with hl | hl
      · rw [min_eq_left hl, List.take_of_length_le (Nat.le_refl _), List.take_of_length_le hl]
      · rw [min_eq_right hl]
    · intro i hi
      have hi := List.mem_range.mp hi
      rw [hbyte i (by omega), if_pos (by omega), if_pos (by omega)]
  · intro i hi
    rw [hbyte i (by omega), if_pos (by omega), if_pos (by omega)]
    exact hnz i (by omega)
  · intro hlt
    rw [hbyte _ (by omega)]
    by_cases h₁ : min name.length 252 < 252
    · rw [if_pos h₁, if_pos (by omega), min_eq_left (by omega), List.getD_eq_getElem?_getD,
        List.getElem?_eq_none (Nat.le_refl _)]
      rfl
    · rw [if_neg h₁]

end Names

/-- The file system is the image of the builder, just mounted. -/
structure Serves (m : Writer) (A : Places) (O : ℕ → Option Owner) (V : Nodes) (fs : Fs) : Prop where
  img : Img m A O V
  logged : Logged V m.calls m.stored
  written : Written m A V fs.disk
  volume : Volume m fs
  references : References m fs
  transfers : fs.transfers = []
  bits : fs.blocks ≤ fs.nbits
  sin : ∀ ino, fs.sin ino = ⟨diskInode (fs.disk ino), false⟩

section Volume

variable {stSize : ℕ} {disk : ℕ → Buf} {home : Host} {m : Writer} {A : Places}
  {O : ℕ → Option Owner} {V : Nodes} {dev : Device} {fs : Fs} {ino i d : ℕ} {nd : Node}

theorem createImg_serves (h : createImg stSize disk home = .ok m) (hd : Holding m dev)
    (hrun : sfsDoMount dev ⟨[], []⟩ = .ok ((0, some fs), ⟨[], []⟩)) :
    (∃ A O V, Serves m A O V fs) ∧ (home.Ok → Proper m.calls) := by
  obtain ⟨A, O, V, hI, hL, hW, hp⟩ := createImg_written h
  have hW' := hW.congr hI hd.disk
  obtain ⟨fs', hrun', hfs, hV⟩ := mount_ok hI hW' hd.dBlocks hd.dBlocksize
  obtain rfl : fs' = fs := by
    rw [hrun] at hrun'
    simpa using hrun'.symm
  rw [← hfs.disk] at hW'
  refine ⟨⟨A, O, V, hI, hL, hW', hV, hW'.references hI hL hV, hfs.transfers, ?_, fun ino => ?_⟩, hp⟩
  · have hbits : sfsBlkbits = 32768 := rfl
    rw [hfs.nbits, hfs.blocks, hbits, sfsFreemapBlocks_eq]
    omega
  · rw [hfs.sin, hfs.disk]

namespace Serves

theorem din (h : Serves m A O V fs) : fs.din ino = diskInode (fs.disk ino) :=
  congrArg Sin.din (h.sin ino)

theorem slot (h : Serves m A O V fs) (hm : i < maxBlocks) :
    fs.slot ino i = refAt fs.disk ino (.data i) := by
  have h₀ : sfsL0Nblks = sfsNdirect := rfl
  have h₁ : sfsL1Nblks = maxBlocks := rfl
  by_cases hd : i < sfsNdirect
  · simp [Fs.slot, refAt, h₀, hd, h.din]
  · simp [Fs.slot, refAt, tableEntry, h₀, h₁, hd, hm, h.din]

theorem isInode (h : Serves m A O V fs) (hV : V ino = some nd) : m.IsInode ino :=
  h.img.isInode.mpr ((h.img.nodes ino).mpr (by simp [hV]))

theorem blocks (h : Serves m A O V fs) (hV : V ino = some nd) :
    (fs.din ino).blocks = nd.blocks.length := by
  rw [h.din]
  exact (h.written.din h.img hV).2.2.2

theorem legible (h : Serves m A O V fs) (hV : V ino = some nd) : Legible fs ino where
  quiet := h.transfers
  bits := h.bits
  indirect hne := by
    rw [h.din] at hne ⊢
    exact (h.references.blocks ino .index (h.isInode hV) trivial hne).1
  slots i hi hm := by
    have hmax : maxBlocks = 1036 := rfl
    have hv : (Ref.data i).Valid := by
      have : sfsL2Nblks = 1049612 := rfl
      change i < sfsL2Nblks
      omega
    have hne := h.references.mapped ino (h.isInode hV) i (by rwa [← h.din])
    rw [h.slot hm]
    exact ⟨hne, (h.references.blocks ino _ (h.isInode hV) hv hne).1⟩

theorem block (h : Serves m A O V fs) (hV : V ino = some nd) (hi : i < nd.blocks.length)
    (hm : i < maxBlocks) : fs.disk (fs.slot ino i) = nd.blocks[i] := by
  have hmax : maxBlocks = 1036 := rfl
  have hv : (Ref.data i).Valid := by
    have : sfsL2Nblks = 1049612 := rfl
    change i < sfsL2Nblks
    omega
  rw [h.slot hm, h.written.refAt h.img (by simp [hV]) hv]
  exact h.written.data ino nd hV i hi

theorem lt_width (h : Serves m A O V fs) (hV : V ino ≠ none) : 0 < ino ∧ ino < 2 ^ 32 := by
  have hr := h.img.range
  have hf := h.img.first_pos
  rcases h.img.owned ino _ ((h.img.nodes ino).mpr hV) with ⟨rfl, -⟩ | hb
  · decide
  · exact ⟨by omega, h.img.lt_width hb.2⟩

end Serves

/-- A kernel with the file system, where memory can be allocated. -/
structure Runs (k : Kernel) (fs : Fs) : Prop where
  fs : k.fs = fs
  kmallocs : k.kmallocs = []

variable {k : Kernel} {name : Str}

/-- The entry `i` of a directory. -/
theorem Serves.direntRead (h : Serves m A O V fs) (hk : k.fs = fs) (hV : V d = some nd)
    (ht : nd.type = sfsTypeDir) (hm : nd.blocks.length ≤ maxBlocks)
    (hz : ∀ e ∈ entriesOf m.calls d, (0 : UInt8) ∉ e.1) (hi : i < (entriesOf m.calls d).length) :
    sfsDirentReadNolock d i k =
      .ok ((0, ⟨(entriesOf m.calls d)[i].2, (entriesOf m.calls d)[i].1.take nameRoom⟩), k) := by
  subst hk
  have hent := h.logged.entries d nd hV ht
  have hlen := hent.length_eq
  have hdent : Dent nd.blocks[i] (entriesOf m.calls d)[i] := hent.get (by omega) hi
  have hblocks := h.blocks hV
  have htype : (k.fs.din d).type = sfsTypeDir := by
    rw [h.din, (h.written.din h.img hV).1, ht]
  have hleg := h.legible hV
  have hload := sfsBmapLoadNolock_read hleg (i := i) (by omega) (by omega)
  have huse := (hleg.slots i (by omega) (by omega)).2
  have hread : sfsRbuf zeros 0 sizeofDiskEntry (k.fs.slot d i) 0 k.fs = _ :=
    sfsRbuf_read hleg.quiet huse (by decide) (by decide)
  have hmem : (d, (entriesOf m.calls d)[i]) ∈ m.calls := mem_entriesOf.mp (List.getElem_mem hi)
  have hw := (h.lt_width (h.logged.named _ hmem).2.2).2
  unfold sfsDirentReadNolock
  rw [Code.bind_ok (Code.assert_true (p := fun k : Kernel => (k.fs.din d).type = sfsTypeDir ∧
      i < (k.fs.din d).blocks) ⟨htype, by omega⟩), Code.bind_ok (volume_ok hload)]
  dsimp only
  rw [if_neg (by simp), Code.bind_ok (volume_ok (assertInuse_ok hleg.bits huse)),
    Code.bind_ok (volume_ok hread)]
  rw [h.block hV (by omega) (by omega), hdent.name (hz _ (List.getElem_mem hi))]
  have hino : getU32 (memcpy zeros 0 nd.blocks[i] 0 sizeofDiskEntry) =
    (entriesOf m.calls d)[i].2 := by
    have hsize : sizeofDiskEntry = 260 := rfl
    rw [← hdent.ino hw]
    exact getU32_congr fun j hj => by rw [memcpy_start (by omega), Nat.zero_add]
  rw [hino]
  rfl

/-- The entry that a search finds among the entries of a directory. -/
def found (es : List (Str × ℕ)) (name : Str) : ℤ × ℕ :=
  match es.find? fun e => decide (name = e.1.take nameRoom) with
  | some e => (0, e.2)
  | none => (-eNoent, 0)

theorem Serves.searchLoop (h : Serves m A O V fs) (hk : k.fs = fs) (hV : V d = some nd)
    (ht : nd.type = sfsTypeDir) (hm : nd.blocks.length ≤ maxBlocks)
    (hz : ∀ e ∈ entriesOf m.calls d, (0 : UInt8) ∉ e.1) : ∀ n i,
    i + n = (entriesOf m.calls d).length →
    searchLoop d name n i k = .ok (found ((entriesOf m.calls d).drop i) name, k) := by
  intro n
  induction n with
  | zero =>
    intro i hi
    rw [List.drop_of_length_le (by omega)]
    rfl
  | succ n ih =>
    intro i hi
    have hlt : i < (entriesOf m.calls d).length := by omega
    have hmem : (d, (entriesOf m.calls d)[i]) ∈ m.calls := mem_entriesOf.mp (List.getElem_mem hlt)
    have hpos := (h.lt_width (h.logged.named _ hmem).2.2).1
    unfold Vfs.searchLoop found
    rw [Code.bind_ok (h.direntRead hk hV ht hm hz hlt), List.drop_eq_getElem_cons hlt]
    dsimp only
    rw [if_neg (by simp), List.find?_cons]
    by_cases hn : name = (entriesOf m.calls d)[i].1.take nameRoom
    · rw [if_pos ⟨by dsimp only at hpos; omega, hn⟩, decide_eq_true hn]
      rfl
    · rw [if_neg fun hx => hn hx.2, decide_eq_false hn, ih (i + 1) (by omega)]
      rfl

theorem Serves.search (h : Serves m A O V fs) (hk : Runs k fs) (hV : V d = some nd)
    (ht : nd.type = sfsTypeDir) (hm : nd.blocks.length ≤ maxBlocks)
    (hz : ∀ e ∈ entriesOf m.calls d, (0 : UInt8) ∉ e.1) (hn : name.length ≤ sfsMaxFnameLen) :
    sfsDirentSearchNolock d name k = .ok (found (entriesOf m.calls d) name, k) := by
  have hlen := (h.logged.entries d nd hV ht).length_eq
  have hblocks : (k.fs.din d).blocks = (entriesOf m.calls d).length := by
    rw [hk.fs, h.blocks hV, hlen]
  have halloc : kmalloc k = .ok (true, k) := by
    unfold kmalloc
    rw [hk.kmallocs]
    have hkm := hk.kmallocs
    cases k
    dsimp only at hkm
    subst hkm
    rfl
  unfold sfsDirentSearchNolock
  rw [Code.bind_ok (Code.assert_true (p := fun _ : Kernel => name.length ≤ sfsMaxFnameLen) hn),
    Code.bind_ok halloc, if_pos rfl, Code.bind_ok rfl, hblocks,
    h.searchLoop hk.fs hV ht hm hz _ 0 (Nat.zero_add _), List.drop_zero]

theorem found_of_mem {es : List (Str × ℕ)} (hnd : (es.map Prod.fst).Nodup)
    (hs : ∀ e ∈ es, e.1.length ≤ nameRoom) {e : Str × ℕ} (he : e ∈ es) :
    found es e.1 = (0, e.2) := by
  unfold found
  cases hf : es.find? fun x => decide (e.1 = x.1.take nameRoom) with
  | none =>
    have := List.find?_eq_none.mp hf e he
    rw [List.take_of_length_le (hs e he)] at this
    simp at this
  | some x =>
    have hx := List.mem_of_find?_eq_some hf
    have hex : e.1 = x.1.take nameRoom := by simpa using List.find?_some hf
    rw [List.take_of_length_le (hs x hx)] at hex
    rw [List.inj_on_of_nodup_map hnd he hx hex]

theorem found_of_not_mem {es : List (Str × ℕ)} (hs : ∀ e ∈ es, e.1.length ≤ nameRoom)
    (hn : name ∉ es.map Prod.fst) : found es name = (-eNoent, 0) := by
  unfold found
  cases hf : es.find? fun x => decide (name = x.1.take nameRoom) with
  | none => rfl
  | some x =>
    have hx := List.mem_of_find?_eq_some hf
    have hex : name = x.1.take nameRoom := by simpa using List.find?_some hf
    rw [List.take_of_length_le (hs x hx)] at hex
    exact absurd (hex ▸ List.mem_map_of_mem hx) hn

theorem found_long {es : List (Str × ℕ)} (hl : nameRoom < name.length) :
    found es name = (-eNoent, 0) := by
  unfold found
  cases hf : es.find? fun x => decide (name = x.1.take nameRoom) with
  | none => rfl
  | some x =>
    have hex : name = x.1.take nameRoom := by simpa using List.find?_some hf
    rw [hex, List.length_take] at hl
    omega

/-- The kernel finds the entries of the directory, and no others. -/
structure Agrees (k : Kernel) (d : ℕ) (es : List (Str × ℕ)) : Prop where
  finds : ∀ e ∈ es, sfsDirentSearchNolock d e.1 k = .ok ((0, e.2), k)
  misses : ∀ name, name ≠ [] → (0 : UInt8) ∉ name → name.length ≤ sfsMaxFnameLen →
    name ∉ es.map Prod.fst → sfsDirentSearchNolock d name k = .ok ((-eNoent, 0), k)

theorem Serves.agrees_iff (h : Serves m A O V fs) (hp : Proper m.calls) (hk : Runs k fs)
    (hd : m.IsInode d) (ht : (m.inode d).din.type = sfsTypeDir)
    (hm : (entriesOf m.calls d).length ≤ maxBlocks) :
    Agrees k d (entriesOf m.calls d) ↔ ∀ e ∈ entriesOf m.calls d, e.1.length ≤ nameRoom := by
  obtain ⟨nd, hV⟩ := Option.ne_none_iff_exists'.mp ((h.img.nodes d).mp (h.img.isInode.mp hd))
  rw [(h.img.shows d nd hV).type] at ht
  have hlen := (h.logged.entries d nd hV ht).length_eq
  have hz : ∀ e ∈ entriesOf m.calls d, (0 : UInt8) ∉ e.1 := fun e he =>
    (hp.ok _ (mem_entriesOf.mp he)).zero
  have hmax : ∀ e ∈ entriesOf m.calls d, e.1.length ≤ sfsMaxFnameLen := fun e he =>
    (h.logged.named _ (mem_entriesOf.mp he)).2.1
  have hsearch := fun (name : Str) (hn : name.length ≤ sfsMaxFnameLen) =>
    h.search hk hV ht (by omega) hz hn
  constructor
  · intro ha e he
    by_contra hl
    have := ha.finds e he
    rw [hsearch e.1 (hmax e he), found_long (not_le.mp hl), Except.ok.injEq, Prod.mk.injEq,
      Prod.mk.injEq] at this
    exact absurd this.1.1 (by decide)
  · intro hs
    constructor
    · intro e he
      rw [hsearch e.1 (hmax e he), found_of_mem (hp.nodup d) hs he]
    · intro name _ _ hn hnot
      rw [hsearch name hn, found_of_not_mem hs hnot]

/-- The kernel and the builder agree on the entries of a directory exactly when no name is longer
than the bytes that were written for it. -/
theorem dirents_agree_iff (h : createImg stSize disk home = .ok m) (hd : Holding m dev)
    (hok : home.Ok)
    (hrun : sfsDoMount dev ⟨[], []⟩ = .ok ((0, some fs), ⟨[], []⟩)) (hk : Runs k fs)
    (hi : m.IsInode d) (ht : (m.inode d).din.type = sfsTypeDir)
    (hm : (entriesOf m.calls d).length ≤ maxBlocks) :
    Agrees k d (entriesOf m.calls d) ↔ ∀ e ∈ entriesOf m.calls d, e.1.length ≤ nameRoom := by
  obtain ⟨⟨A, O, V, hS⟩, hp⟩ := createImg_serves h hd hrun
  exact hS.agrees_iff (hp hok) hk hi ht hm

end Volume

/-- A kernel with a file system and nothing else. -/
def bareKernel (fs : Fs) : Kernel where
  fs := fs
  inode _ := none
  brk := 0
  hash _ := none
  bootfs := none
  devnode _ := 0
  kmallocs := []
  stdin := []
  files _ := none
  fbrk := 0

theorem bareKernel_runs {fs : Fs} : Runs (bareKernel fs) fs := ⟨rfl, rfl⟩

theorem image_of_decide {n : ℕ} (home : Host) (P : Writer → Prop) [DecidablePred P]
    (h : (match createImg n (fun _ => zeros) home with
      | .ok m => decide (P m)
      | .error _ => false) = true) :
    ∃ m dev fs, createImg n (fun _ => zeros) home = .ok m ∧ P m ∧ Holding m dev ∧
      sfsDoMount dev ⟨[], []⟩ = .ok ((0, some fs), ⟨[], []⟩) := by
  cases hc : createImg n (fun _ => zeros) home with
  | error e =>
    rw [hc] at h
    cases h
  | ok m =>
    rw [hc] at h
    have hd : Holding m ⟨m.ninos, sfsBlksize, m.disk⟩ := ⟨fun _ _ => rfl, Nat.le_refl _, rfl⟩
    obtain ⟨A, O, V, hI, hL, hW, -⟩ := createImg_written hc
    obtain ⟨fs, hrun, -, -⟩ := mount_ok hI (hW.congr hI hd.disk) hd.dBlocks hd.dBlocksize
    exact ⟨m, _, fs, rfl, of_decide_eq_true h, hd, hrun⟩

theorem sampleHome_ok : sampleHome.Ok := by
  have hname : ∀ c : UInt8, c ≠ 0 → c ≠ 47 → NameOk [c] := fun c h₀ h₁ =>
    ⟨by simp, by simpa using h₀.symm, by simpa using h₁.symm⟩
  refine ⟨hname _ (by decide) (by decide), by decide, hname _ (by decide) (by decide), by decide,
    hname _ (by decide) (by decide), by decide, ⟨hname _ (by decide) (by decide), by decide,
      trivial⟩,
    trivial⟩

theorem dirents_agree_iff_sample : ∃ m fs, createImg (64 * sfsBlksize) (fun _ => zeros) sampleHome =
    .ok m ∧ (entriesOf m.calls sfsBlknRoot).map Prod.fst = [dot, dotdot, [102], [108], [100]] ∧
    Agrees (bareKernel fs) sfsBlknRoot (entriesOf m.calls sfsBlknRoot) := by
  obtain ⟨m, dev, fs, hm, ⟨hi, ht, he⟩, hd, hrun⟩ := image_of_decide (n := 64 * sfsBlksize)
    sampleHome (fun m => m.IsInode sfsBlknRoot ∧ (m.inode sfsBlknRoot).din.type = sfsTypeDir ∧
      (entriesOf m.calls sfsBlknRoot).map Prod.fst = [dot, dotdot, [102], [108], [100]])
    (by decide +kernel)
  have hlen : (entriesOf m.calls sfsBlknRoot).length ≤ maxBlocks := by
    rw [← List.length_map (f := Prod.fst), he]
    decide
  refine ⟨m, fs, hm, he,
    (dirents_agree_iff hm hd sampleHome_ok hrun bareKernel_runs hi ht hlen).mpr ?_⟩
  intro e hmem
  have := List.mem_map_of_mem (f := Prod.fst) hmem
  rw [he] at this
  have hall : ∀ n ∈ [dot, dotdot, [102], [108], [100]], n.length ≤ nameRoom := by decide
  exact hall _ this

/-- A file whose name has 253 bytes. -/
def longHome : Host := .file (List.replicate 253 97) 7 [] .done

/-- The kernel does not find a file with a name of 253 bytes. -/
theorem dirent_long_missed : ∃ m dev fs ino, createImg (64 * sfsBlksize) (fun _ => zeros) longHome =
    .ok m ∧ Holding m dev ∧ sfsDoMount dev ⟨[], []⟩ = .ok ((0, some fs), ⟨[], []⟩) ∧
    m.IsInode sfsBlknRoot ∧ (entriesOf m.calls sfsBlknRoot).length ≤ maxBlocks ∧
    (List.replicate 253 97, ino) ∈ entriesOf m.calls sfsBlknRoot ∧
    sfsDirentSearchNolock sfsBlknRoot (List.replicate 253 97) (bareKernel fs) =
      .ok ((-eNoent, 0), bareKernel fs) := by
  obtain ⟨m, dev, fs, hm, ⟨hi, ht, he⟩, hd, hrun⟩ := image_of_decide (n := 64 * sfsBlksize)
    longHome (fun m => m.IsInode sfsBlknRoot ∧ (m.inode sfsBlknRoot).din.type = sfsTypeDir ∧
      entriesOf m.calls sfsBlknRoot = [(dot, 1), (dotdot, 1), (List.replicate 253 97, 5)])
    (by decide +kernel)
  obtain ⟨⟨A, O, V, hS⟩, -⟩ := createImg_serves hm hd hrun
  obtain ⟨nd, hV⟩ := Option.ne_none_iff_exists'.mp ((hS.img.nodes _).mp (hS.img.isInode.mp hi))
  rw [(hS.img.shows _ nd hV).type] at ht
  have hlen := (hS.logged.entries _ nd hV ht).length_eq
  have hz : ∀ e ∈ entriesOf m.calls sfsBlknRoot, (0 : UInt8) ∉ e.1 := by
    rw [he]
    decide +kernel
  have hshort : (entriesOf m.calls sfsBlknRoot).length ≤ maxBlocks := by
    rw [he]
    decide
  refine ⟨m, dev, fs, 5, hm, hd, hrun, hi, hshort, by rw [he]; decide +kernel, ?_⟩
  rw [hS.search bareKernel_runs hV ht (by omega) hz (by decide +kernel),
    found_long (by decide +kernel)]

end UCore.Mksfs

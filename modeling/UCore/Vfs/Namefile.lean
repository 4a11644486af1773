import UCore.Vfs.Borrow

/-! # The path of a directory

`sfs_namefile` on the memory that its buffer lies in: the names are put before each other from the
end of the buffer on, and the path is moved to its start. For a directory from which `..` leads to
the root it writes the path when there is room for it, and it leaves the kernel as it was.
-/

namespace UCore.Vfs

open Library Sfs

structure Iobuf where
  ioBase : ℕ
  ioOffset : ℤ
  ioLen : ℕ
  ioResid : ℕ

def iobufSkip (iob : Iobuf) (n : ℕ) : Prog Iobuf := do
  Code.assert (fun _ => n ≤ iob.ioResid) .iobufSkip
  return { iob with
    ioBase := iob.ioBase + n
    ioOffset := iob.ioOffset + n
    ioResid := iob.ioResid - n }

def stringBuf (name : Str) : Buf := fun i => name.getD i 0

/-- The loop of `sfs_namefile`: the error, `resid`, `ptr` and the memory. -/
def namefileFill (node resid ptr : ℕ) (mem : Buf) : Prog (ℤ × ℕ × ℕ × Buf) := do
  let ino ← sfsInfo node
  let (ret, parent) ← sfsLookupOnce ino dotdot
  if ret ≠ 0 then
    inodeRefDec node
    return (ret, resid, ptr, mem)
  else
    inodeRefDec node
    if node = parent then
      inodeRefDec node
      return (0, resid, ptr, mem)
    else
      let sin ← sfsInfo parent
      Code.assert (fun k => ino ≠ sin ∧ (k.fs.din sin).type = sfsTypeDir) .namefile
      let (ret, entry) ← sfsDirentFindinoNolock sin ino
      if ret ≠ 0 then
        inodeRefDec parent
        return (ret, resid, ptr, mem)
      else if h : entry.name.length + 1 > resid then
        inodeRefDec parent
        return (-eNoMem, resid, ptr, mem)
      else
        let alen := entry.name.length + 1
        let mem := memcpy mem (ptr - alen) (stringBuf entry.name) 0 (alen - 1)
        namefileFill parent (resid - alen) (ptr - alen)
          (Function.update mem (ptr - alen + (alen - 1)) slash)
termination_by resid

/-- The part of `sfs_namefile` behind its loop, which moves the path to the start of the buffer. -/
def namefileMove (iob : Iobuf) (resid ptr : ℕ) (mem : Buf) : Prog (ℤ × Iobuf × Buf) := do
  let alen := iob.ioResid - resid - 2
  let mem := memcpy mem (iob.ioBase + 1) mem ptr alen
  let ptr := iob.ioBase + 1
  let mem := Function.update (Function.update mem (ptr - 1) slash) (ptr + alen) 0
  let iob ← iobufSkip iob alen
  return (0, iob, mem)

/-- `sfs_namefile`, with the memory that the buffer lies in: the error, the buffer and the
memory. -/
def sfsNamefileMem (node : ℕ) (iob : Iobuf) (mem : Buf) : Prog (ℤ × Iobuf × Buf) := do
  if iob.ioResid ≤ 2 then return (-eNoMem, iob, mem)
  else if ← kmalloc then
    let _ ← inodeRefInc node
    let (ret, resid, ptr, mem) ←
      namefileFill node (iob.ioResid - 2) (iob.ioBase + iob.ioResid) mem
    if ret ≠ 0 then return (ret, iob, mem)
    else namefileMove iob resid ptr mem
  else return (-eNoMem, iob, mem)

/-! ## Directories and paths -/

/-- The inode that the entry `..` of a directory is for. -/
def parentOf (s : Fs) (sin : ℕ) : Option ℕ :=
  ((usedEntries s sin).find? fun e => e.name = dotdot).map Entry.ino

/-- The name of an inode in a directory. -/
def nameIn (s : Fs) (sin ino : ℕ) : Option Str :=
  ((usedEntries s sin).find? fun e => e.ino = ino).map Entry.name

/-- The names on the way from the root down to a directory. The root is its own parent. -/
inductive PathTo (k : Kernel) : ℕ → List Str → Prop
  | root {ino : ℕ} (hr : Ready k ino) (hp : parentOf k.fs ino = some ino) : PathTo k ino []
  | child {ino parent : ℕ} {name : Str} {names : List Str} (hr : Ready k ino)
      (hp : parentOf k.fs ino = some parent) (hne : ino ≠ parent)
      (hname : nameIn k.fs parent ino = some name) (ht : PathTo k parent names) :
      PathTo k ino (names ++ [name])

/-- Every name with a slash behind it. -/
def slashed (names : List Str) : Str := names.flatMap fun name => name ++ [slash]

section Scan

variable {k : Kernel} {sin ino i n : ℕ} {name : Str}

theorem PathTo.ready {names : List Str} (h : PathTo k ino names) : Ready k ino := by
  cases h <;> assumption

theorem searchLoop_eq (h : Directory k sin) (hn : i + n = (k.fs.din sin).blocks) :
    searchLoop sin name n i k =
      .ok (match (usedFrom k.fs sin n i).find? fun e => e.name = name with
        | some e => (0, e.ino)
        | none => (-eNoent, 0), k) := by
  induction n generalizing i with
  | zero => rfl
  | succ n ih =>
    rw [usedFrom_succ]
    unfold searchLoop
    refine Eq.trans (Code.bind_ok (sfsDirentReadNolock_eq h (by omega))) ?_
    dsimp only
    rw [if_neg (by simp)]
    generalize entryAt k.fs sin i = e
    by_cases hino : e.ino = 0
    · rw [if_neg fun hc => hc.1 hino, if_pos hino]
      exact ih (by omega)
    · rw [if_neg hino]
      by_cases hname : e.name = name
      · rw [if_pos ⟨hino, hname.symm⟩, List.find?_cons_of_pos (by simpa using hname)]
        rfl
      · rw [if_neg fun hc => hname hc.2.symm, List.find?_cons_of_neg (by simpa using hname)]
        exact ih (by omega)

theorem findinoLoop_eq (h : Directory k sin) (hino : ino ≠ 0) (hn : i + n = (k.fs.din sin).blocks) :
    findinoLoop sin ino n i k =
      .ok (match (usedFrom k.fs sin n i).find? fun e => e.ino = ino with
        | some e => (0, e)
        | none => (-eNoent, ⟨0, []⟩), k) := by
  induction n generalizing i with
  | zero => rfl
  | succ n ih =>
    rw [usedFrom_succ]
    unfold findinoLoop
    refine Eq.trans (Code.bind_ok (sfsDirentReadNolock_eq h (by omega))) ?_
    dsimp only
    rw [if_neg (by simp)]
    generalize entryAt k.fs sin i = e
    by_cases h₀ : e.ino = 0
    · rw [if_neg fun hc => hino (hc.symm.trans h₀), if_pos h₀]
      exact ih (by omega)
    · rw [if_neg h₀]
      by_cases he : e.ino = ino
      · rw [if_pos he, List.find?_cons_of_pos (by simpa using he)]
        rfl
      · rw [if_neg he, List.find?_cons_of_neg (by simpa using he)]
        exact ih (by omega)

theorem sfsDirentSearchNolock_eq (h : Directory k ino) (hlen : name.length ≤ sfsMaxFnameLen) :
    sfsDirentSearchNolock ino name k =
      .ok (match (usedEntries k.fs ino).find? fun e => e.name = name with
        | some e => (0, e.ino)
        | none => (-eNoent, 0), k) := by
  refine Eq.trans (Code.assert_bind hlen) (Eq.trans (Code.bind_ok (kmalloc_ok h.kmallocs)) ?_)
  rw [if_pos rfl]
  exact Eq.trans Code.get_bind (searchLoop_eq h (zero_add _))

theorem sfsDirentSearchNolock_parent {parent : ℕ} (h : Directory k sin)
    (hp : parentOf k.fs sin = some parent) :
    sfsDirentSearchNolock sin dotdot k = .ok ((0, parent), k) := by
  obtain ⟨e, he, rfl⟩ := Option.map_eq_some_iff.mp hp
  rw [sfsDirentSearchNolock_eq h (by decide), he]

theorem sfsDirentFindinoNolock_name (h : Directory k sin) (hino : ino ≠ 0)
    (hname : nameIn k.fs sin ino = some name) :
    ∃ e, sfsDirentFindinoNolock sin ino k = .ok ((0, e), k) ∧ e.name = name := by
  obtain ⟨e, he, rfl⟩ := Option.map_eq_some_iff.mp hname
  refine ⟨e, ?_, rfl⟩
  refine Eq.trans Code.get_bind (Eq.trans (findinoLoop_eq h hino (zero_add _)) ?_)
  rw [usedEntries] at he
  rw [he]

end Scan

/-- The bytes of a string stand in memory. -/
def Holds (mem : Buf) (a : ℕ) (l : Str) : Prop := ∀ i c, l[i]? = some c → mem (a + i) = c

section Bytes

variable {mem mem' : Buf} {a a' : ℕ} {l l' : Str} {c : UInt8}

theorem holds_nil : Holds mem a [] := fun i c h => by simp at h

theorem holds_singleton : Holds mem a [c] ↔ mem a = c := by
  constructor
  · exact fun h => h 0 c rfl
  · intro h i d hd
    obtain ⟨hi, rfl⟩ := List.getElem?_eq_some_iff.mp hd
    obtain rfl : i = 0 := by simpa using hi
    exact h

theorem holds_append : Holds mem a (l ++ l') ↔ Holds mem a l ∧ Holds mem (a + l.length) l' := by
  constructor
  · intro h
    refine ⟨fun i c hc => h i c ?_, fun i c hc => ?_⟩
    · rw [List.getElem?_append_left (List.getElem?_eq_some_iff.mp hc).1, hc]
    · rw [Nat.add_assoc]
      refine h _ c ?_
      rw [List.getElem?_append_right (by omega), Nat.add_sub_cancel_left, hc]
  · rintro ⟨h, h'⟩ i c hc
    rw [List.getElem?_append] at hc
    split_ifs at hc with hi
    · exact h i c hc
    · have := h' _ c hc
      rwa [Nat.add_assoc, Nat.add_sub_cancel' (by omega)] at this

theorem Holds.copy (h : Holds mem a l) (hc : ∀ i < l.length, mem' (a' + i) = mem (a + i)) :
    Holds mem' a' l := fun i c hi =>
  (hc i (List.getElem?_eq_some_iff.mp hi).1).trans (h i c hi)

theorem holds_stringBuf : Holds (stringBuf l) 0 l := fun i c h => by
  rw [Nat.zero_add, stringBuf, List.getD_eq_getElem?_getD, h, Option.getD_some]

theorem slashed_append {names : List Str} {name : Str} :
    slashed (names ++ [name]) = slashed names ++ (name ++ [slash]) := by
  simp [slashed]

theorem holds_name {name : Str} {ptr : ℕ} :
    Holds (Function.update (memcpy mem (ptr - (name.length + 1)) (stringBuf name) 0 name.length)
      (ptr - (name.length + 1) + name.length) slash)
        (ptr - (name.length + 1)) (name ++ [slash]) := by
  rw [holds_append, holds_singleton]
  refine ⟨holds_stringBuf.copy fun i hi => ?_, Function.update_self ..⟩
  rw [Function.update_of_ne (by omega), memcpy_in hi]

/-- A name is put before the names. -/
theorem Holds.prepend {name : Str} {names : List Str} {ptr : ℕ} (hlen : name.length + 1 ≤ ptr)
    (h : Holds mem ptr (slashed names)) :
    Holds (Function.update (memcpy mem (ptr - (name.length + 1)) (stringBuf name) 0 name.length)
      (ptr - (name.length + 1) + name.length) slash)
        (ptr - (name.length + 1)) (slashed (name :: names)) := by
  have hstart : ptr - (name.length + 1) + (name ++ [slash]).length = ptr := by
    rw [List.length_append, List.length_singleton]
    omega
  change Holds _ _ ((name ++ [slash]) ++ slashed names)
  rw [holds_append, hstart]
  refine ⟨holds_name, h.copy fun i _ => ?_⟩
  rw [Function.update_of_ne (by omega), memcpy_out (by omega)]

end Bytes

/-- What the loop does to the memory: it touches the `resid` bytes before `ptr` only, and it puts
the names there when they have room. -/
def Filled (names : List Str) (resid ptr : ℕ) (mem : Buf) (r : ℤ × ℕ × ℕ × Buf) : Prop :=
  (∀ x, x < ptr - resid ∨ ptr ≤ x → r.2.2.2 x = mem x) ∧
  if (slashed names).length ≤ resid then
    r.1 = 0 ∧ r.2.1 = resid - (slashed names).length ∧ r.2.2.1 = ptr - (slashed names).length ∧
      Holds r.2.2.2 (ptr - (slashed names).length) (slashed names)
  else r.1 = -eNoMem

section Loop

variable {k₀ k : Kernel} {l : List ℕ} {ino p resid ptr : ℕ} {mem : Buf} {names : List Str}
  {name : Str} {r : ℤ × ℕ × ℕ × Buf}

theorem Filled.child {mem' : Buf} (hroom : resid ≤ ptr) (hlen : name.length + 1 ≤ resid)
    (hmem : mem' = Function.update (memcpy mem (ptr - (name.length + 1)) (stringBuf name) 0
      name.length) (ptr - (name.length + 1) + name.length) slash)
    (h : Filled names (resid - (name.length + 1)) (ptr - (name.length + 1)) mem' r) :
    Filled (names ++ [name]) resid ptr mem r := by
  obtain ⟨hframe, hfill⟩ := h
  have hjoin : (slashed (names ++ [name])).length = (slashed names).length + (name.length + 1) := by
    simp [slashed_append]
  have hname : Holds mem' (ptr - (name.length + 1)) (name ++ [slash]) := by
    rw [hmem]
    exact holds_name
  refine ⟨fun x hx => ?_, ?_⟩
  · rw [hframe x (by omega), hmem, Function.update_of_ne (by omega), memcpy_out (by omega)]
  · rw [hjoin]
    by_cases hle : (slashed names).length ≤ resid - (name.length + 1)
    · rw [if_pos hle] at hfill
      obtain ⟨hret, hres, hptr, hholds⟩ := hfill
      rw [if_pos (by omega)]
      have hstart : ptr - (name.length + 1) - (slashed names).length =
          ptr - ((slashed names).length + (name.length + 1)) := by omega
      rw [hstart] at hptr hholds
      refine ⟨hret, by omega, hptr, ?_⟩
      rw [slashed_append, holds_append]
      refine ⟨hholds, ?_⟩
      rw [show ptr - ((slashed names).length + (name.length + 1)) + (slashed names).length =
        ptr - (name.length + 1) by omega]
      exact hname.copy fun i _ => hframe _ (by omega)
    · rw [if_neg hle] at hfill
      rwa [if_neg (by omega)]

variable (hc : Coherent k₀)

include hc

theorem sfsInfo_borrows (h : Borrows k₀ l k) (hp : k.hash ino = some p) :
    sfsInfo p k = .ok (ino, k) := by
  obtain ⟨n, hn, hi⟩ := h.info hc hp
  refine Eq.trans (Code.bind_ok (deref_eq hn)) ?_
  rw [hi]
  rfl

theorem sfsLookupOnce_borrows {parent : ℕ} (h : Borrows k₀ l k) (hr : Ready k₀ ino)
    (hp : parentOf k₀.fs ino = some parent) (hr' : Ready k₀ parent) :
    ∃ q k', sfsLookupOnce ino dotdot k = .ok ((0, q), k') ∧ Borrows k₀ (parent :: l) k' ∧
      k'.hash parent = some q ∧ ∀ j x, k.hash j = some x → k'.hash j = some x := by
  have hp' : parentOf k.fs ino = some parent := by
    obtain ⟨m, hfs, -⟩ := h.fs
    rw [hfs]
    exact hp
  obtain ⟨q, k', hload, hb, hq, hmono⟩ := sfsLoadInode_borrows hc h hr'
  have hsearch := sfsDirentSearchNolock_parent (h.directory hr.directory) hp'
  exact ⟨q, k', Eq.trans (Code.bind_ok hsearch) hload, hb, hq, hmono⟩

/-- From a held directory the loop fills the buffer, and it gives back the reference. -/
theorem namefileFill_borrows (ht : PathTo k₀ ino names) : ∀ {k : Kernel} {p resid ptr : ℕ}
    (mem : Buf), Borrows k₀ [ino] k → k.hash ino = some p → resid ≤ ptr →
    ∃ r k', namefileFill p resid ptr mem k = .ok (r, k') ∧ Borrows k₀ [] k' ∧
      Filled names resid ptr mem r := by
  induction ht with
  | @root ino hr hp =>
    intro k p resid ptr mem hb hh hroom
    obtain ⟨q, k₁, hlookup, hb₁, hq, hmono⟩ := sfsLookupOnce_borrows hc hb hr hp hr
    have hh₁ := hmono ino p hh
    obtain rfl := Option.some.inj (hq.symm.trans hh₁)
    obtain ⟨k₂, hdec, hb₂, hmono'⟩ := inodeRefDec_borrows hc hb₁ hr hh₁
    have hh₂ := hmono' ino q (.inl List.mem_cons_self) hh₁
    obtain ⟨k₃, hdec', hb₃, -⟩ := inodeRefDec_borrows hc hb₂ hr hh₂
    refine ⟨(0, resid, ptr, mem), k₃, ?_, hb₃, fun _ _ => rfl, ?_⟩
    · rw [namefileFill]
      refine Eq.trans (Code.bind_ok (sfsInfo_borrows hc hb hh)) (Eq.trans (Code.bind_ok hlookup) ?_)
      dsimp only
      rw [if_neg (by simp)]
      refine Eq.trans (Code.bind_ok hdec) ?_
      rw [if_pos rfl]
      exact Eq.trans (Code.bind_ok hdec') rfl
    · have hnil : (slashed []).length ≤ resid := Nat.zero_le _
      rw [if_pos hnil]
      exact ⟨rfl, rfl, rfl, holds_nil⟩
  | @child ino parent name names hr hp hne hname ht ih =>
    intro k p resid ptr mem hb hh hroom
    obtain ⟨q, k₁, hlookup, hb₁, hq, hmono⟩ := sfsLookupOnce_borrows hc hb hr hp ht.ready
    have hh₁ := hmono ino p hh
    have hpq : p ≠ q := by
      rintro rfl
      exact hne (hb₁.injective hc hh₁ hq)
    have hb₁' := hb₁.perm (List.Perm.swap ino parent [])
    obtain ⟨k₂, hdec, hb₂, hmono'⟩ := inodeRefDec_borrows hc hb₁' hr hh₁
    have hq₂ := hmono' parent q (.inl List.mem_cons_self) hq
    have hd := hb₂.directory ht.ready.directory
    have hname' : nameIn k₂.fs parent ino = some name := by
      obtain ⟨m, hfs, -⟩ := hb₂.fs
      rw [hfs]
      exact hname
    obtain ⟨e, hfind, rfl⟩ := sfsDirentFindinoNolock_name hd hr.inUse.1.ne' hname'
    -- the round up to the test for room
    have hround : ∀ {x}, (if h : e.name.length + 1 > resid then (do
          inodeRefDec q
          return (-eNoMem, resid, ptr, mem) : Prog (ℤ × ℕ × ℕ × Buf))
        else namefileFill q (resid - (e.name.length + 1)) (ptr - (e.name.length + 1))
          (Function.update (memcpy mem (ptr - (e.name.length + 1)) (stringBuf e.name) 0
            e.name.length) (ptr - (e.name.length + 1) + e.name.length) slash)) k₂ = x →
        namefileFill p resid ptr mem k = x := by
      rintro x rfl
      rw [namefileFill]
      refine Eq.trans (Code.bind_ok (sfsInfo_borrows hc hb hh)) (Eq.trans (Code.bind_ok hlookup) ?_)
      dsimp only
      rw [if_neg (by simp)]
      refine Eq.trans (Code.bind_ok hdec) ?_
      rw [if_neg hpq]
      refine Eq.trans (Code.bind_ok (sfsInfo_borrows hc hb₂ hq₂)) ?_
      refine Eq.trans (Code.assert_bind ⟨hne, hd.type⟩) (Eq.trans (Code.bind_ok hfind) ?_)
      dsimp only
      rw [if_neg (by simp)]
      rfl
    by_cases hlen : e.name.length + 1 > resid
    · obtain ⟨k₃, hdec', hb₃, -⟩ := inodeRefDec_borrows hc hb₂ ht.ready hq₂
      refine ⟨(-eNoMem, resid, ptr, mem), k₃, hround ?_, hb₃, fun _ _ => rfl, ?_⟩
      · rw [dif_pos hlen]
        exact Eq.trans (Code.bind_ok hdec') rfl
      · have hjoin : (slashed (names ++ [e.name])).length =
            (slashed names).length + (e.name.length + 1) := by simp [slashed_append]
        rw [if_neg (by omega)]
    · have hle : resid - (e.name.length + 1) ≤ ptr - (e.name.length + 1) := by omega
      obtain ⟨r, k₃, hrun, hb₃, hfill⟩ := ih _ hb₂ hq₂ hle
      refine ⟨r, k₃, hround ?_, hb₃, hfill.child hroom (by omega) rfl⟩
      rw [dif_neg hlen]
      exact hrun

omit hc in
/-- The loop on the memory collects the names that the loop on lists does, and ends as it does. -/
theorem namefileFill_follows {node n : ℕ} {k' : Kernel} {r : ℤ × ℕ × ℕ × Buf} (hn : resid < n)
    (hptr : resid ≤ ptr) (htext : Holds mem ptr (slashed names))
    (h : namefileFill node resid ptr mem k = .ok (r, k')) :
    ∃ names', namefileLoop n node resid names k = .ok ((r.1, names'), k') ∧
      (r.1 = 0 → Holds r.2.2.2 r.2.2.1 (slashed names') ∧
        r.2.1 + (slashed names').length = resid + (slashed names).length) := by
  induction n generalizing node resid ptr mem names k with
  | zero => omega
  | succ n ih =>
    rw [namefileFill] at h
    unfold namefileLoop
    obtain ⟨ino, k₁, hino, h⟩ := Code.bind_eq_ok h
    rw [Code.bind_ok hino]
    obtain ⟨⟨ret, parent⟩, k₂, hlook, h⟩ := Code.bind_eq_ok h
    rw [Code.bind_ok hlook]
    dsimp only at h ⊢
    by_cases hret : ret ≠ 0
    · rw [if_pos hret] at h ⊢
      obtain ⟨_, k₃, hdec, h⟩ := Code.bind_eq_ok h
      rw [Code.bind_ok hdec]
      cases h
      exact ⟨[], rfl, fun h => absurd h hret⟩
    rw [if_neg hret] at h ⊢
    obtain ⟨_, k₃, hdec, h⟩ := Code.bind_eq_ok h
    rw [Code.bind_ok hdec]
    by_cases hroot : node = parent
    · rw [if_pos hroot] at h ⊢
      obtain ⟨_, k₄, hdec', h⟩ := Code.bind_eq_ok h
      rw [Code.bind_ok hdec']
      cases h
      exact ⟨names, rfl, fun _ => ⟨htext, rfl⟩⟩
    rw [if_neg hroot] at h ⊢
    obtain ⟨sin, k₄, hsin, h⟩ := Code.bind_eq_ok h
    rw [Code.bind_ok hsin]
    obtain ⟨_, k₅, hassert, h⟩ := Code.bind_eq_ok h
    rw [Code.bind_ok hassert]
    obtain ⟨⟨ret', entry⟩, k₆, hfind, h⟩ := Code.bind_eq_ok h
    rw [Code.bind_ok hfind]
    dsimp only at h ⊢
    by_cases hret' : ret' ≠ 0
    · rw [if_pos hret'] at h ⊢
      obtain ⟨_, k₇, hdec', h⟩ := Code.bind_eq_ok h
      rw [Code.bind_ok hdec']
      cases h
      exact ⟨[], rfl, fun h => absurd h hret'⟩
    rw [if_neg hret'] at h ⊢
    by_cases hlong : entry.name.length + 1 > resid
    · rw [dif_pos hlong] at h
      rw [if_pos hlong]
      obtain ⟨_, k₇, hdec', h⟩ := Code.bind_eq_ok h
      rw [Code.bind_ok hdec']
      cases h
      exact ⟨[], rfl, fun h => absurd (show -eNoMem = 0 from h) (by decide)⟩
    rw [dif_neg hlong] at h
    rw [if_neg hlong]
    have hlen : (slashed (entry.name :: names)).length =
        entry.name.length + 1 + (slashed names).length := by
      change ((entry.name ++ [slash]) ++ slashed names).length = _
      rw [List.length_append, List.length_append, List.length_singleton]
    obtain ⟨names', hloop, hok⟩ := ih (by omega) (by omega) (htext.prepend (by omega)) h
    refine ⟨names', hloop, fun h0 => ⟨(hok h0).1, ?_⟩⟩
    have := (hok h0).2
    omega

end Loop

theorem slashed_length {names : List Str} :
    (slashed names).length = (names.map fun name => name.length + 1).sum := by
  simp [slashed, List.length_flatMap]

section Call

variable {k : Kernel} {ino p resid ptr : ℕ} {names : List Str} {iob : Iobuf} {mem : Buf} {l : Str}

theorem namefileMove_eq (h : Holds mem ptr l) (hres : resid + l.length + 2 = iob.ioResid) :
    ∃ iob' mem', namefileMove iob resid ptr mem k = .ok ((0, iob', mem'), k) ∧
      Holds mem' iob.ioBase ([slash] ++ l ++ [0]) ∧
      ∀ x, x < iob.ioBase ∨ iob.ioBase + iob.ioResid ≤ x → mem' x = mem x := by
  have hlen : iob.ioResid - resid - 2 = l.length := by omega
  refine ⟨_, _, Eq.trans (Code.bind_ok (Code.bind_ok (Code.assert_true ?_))) rfl, ?_, ?_⟩
  · omega
  · rw [hlen, Nat.add_sub_cancel, holds_append, holds_append, holds_singleton, holds_singleton]
    refine ⟨⟨?_, h.copy fun i hi => ?_⟩, ?_⟩
    · rw [Function.update_of_ne (by omega), Function.update_self]
    · rw [List.length_singleton, Function.update_of_ne (by omega), Function.update_of_ne (by omega),
        memcpy_in hi]
    · rw [List.length_append, List.length_singleton, ← Nat.add_assoc, Function.update_self]
  · intro x hx
    rw [Function.update_of_ne (by omega), Function.update_of_ne (by omega), memcpy_out (by omega)]

/-- For a directory in memory from which `..` leads to the root, `sfs_namefile` writes the path into
the buffer exactly when it has room for it, it touches nothing but the buffer, and nothing but used
addresses remains of it in the kernel. -/
theorem sfsNamefileMem_path (hc : Coherent k) (ht : PathTo k ino names) (hp : k.hash ino = some p)
    (iob : Iobuf) (mem : Buf) :
    ∃ ret iob' mem' brk,
      sfsNamefileMem p iob mem k = .ok ((ret, iob', mem'), { k with brk := brk }) ∧
      (ret = 0 ↔ 2 < iob.ioResid ∧
        (names.map fun name => name.length + 1).sum ≤ iob.ioResid - 2) ∧
      (ret ≠ 0 → ret = -eNoMem) ∧
      (ret = 0 → Holds mem' iob.ioBase ([slash] ++ slashed names ++ [0])) ∧
      ∀ x, x < iob.ioBase ∨ iob.ioBase + iob.ioResid ≤ x → mem' x = mem x := by
  have hmem : -eNoMem ≠ 0 := by decide
  by_cases hsize : iob.ioResid ≤ 2
  · refine ⟨-eNoMem, iob, mem, k.brk, ?_, iff_of_false hmem fun h => by omega, fun _ => rfl,
      fun h => absurd h hmem, fun _ _ => rfl⟩
    unfold sfsNamefileMem
    rw [if_pos hsize]
    rfl
  have hr := ht.ready
  obtain ⟨n, hn, -⟩ := hc.hash ino p hp
  obtain ⟨k₁, hinc, hb₁, hhash⟩ := inodeRefInc_borrows hc (.refl hc) hp hn
  have hp₁ : k₁.hash ino = some p := by rw [hhash, hp]
  have hroom : iob.ioResid - 2 ≤ iob.ioBase + iob.ioResid := by omega
  obtain ⟨⟨ret, resid, ptr, mem₁⟩, k₂, hfill, hb₂, hframe, hres⟩ :=
    namefileFill_borrows hc ht mem hb₁ hp₁ hroom
  have hback := hb₂.returned hc
  dsimp only at hframe hres
  have hrun : sfsNamefileMem p iob mem k =
      (if ret ≠ 0 then return (ret, iob, mem₁) else namefileMove iob resid ptr mem₁ :
        Prog (ℤ × Iobuf × Buf)) k₂ := by
    unfold sfsNamefileMem
    rw [if_neg hsize]
    refine Eq.trans (Code.bind_ok (kmalloc_ok hr.directory.kmallocs)) ?_
    rw [if_pos rfl]
    exact Eq.trans (Code.bind_ok hinc) (Code.bind_ok hfill)
  rw [← slashed_length]
  by_cases hle : (slashed names).length ≤ iob.ioResid - 2
  · rw [if_pos hle] at hres
    obtain ⟨rfl, hresid, rfl, hholds⟩ := hres
    obtain ⟨iob', mem', hmove, hpath, hout⟩ :=
      namefileMove_eq hholds (show resid + _ + 2 = iob.ioResid by omega)
    refine ⟨0, iob', mem', k₂.brk, ?_, iff_of_true rfl ⟨by omega, hle⟩, fun h => absurd rfl h,
      fun _ => hpath, fun x hx => (hout x hx).trans (hframe x (by omega))⟩
    refine Eq.trans hrun (Eq.trans ?_ (congrArg (fun x => Except.ok (_, x)) hback))
    rw [if_neg (by simp)]
    exact hmove
  · rw [if_neg hle] at hres
    obtain rfl : ret = -eNoMem := hres
    refine ⟨-eNoMem, iob, mem₁, k₂.brk, ?_, iff_of_false hmem fun h => hle h.2, fun _ => rfl,
      fun h => absurd h hmem, fun x hx => hframe x (by omega)⟩
    refine Eq.trans hrun (Eq.trans ?_ (congrArg (fun x => Except.ok (_, x)) hback))
    rw [if_pos hmem]
    rfl

/-- `sfs_namefile` on the memory of its buffer returns what it returns as a string, and puts the
string there with a zero behind it. -/
theorem sfsNamefileMem_follows {node : ℕ} {k' : Kernel} {iob' : Iobuf} {ret : ℤ} {mem' : Buf}
    (h : sfsNamefileMem node iob mem k = .ok ((ret, iob', mem'), k')) :
    ∃ s, sfsNamefile node iob.ioResid k = .ok ((ret, s), k') ∧
      (ret = 0 → Holds mem' iob.ioBase (s ++ [0])) := by
  unfold sfsNamefileMem at h
  unfold sfsNamefile
  by_cases hsmall : iob.ioResid ≤ 2
  · rw [if_pos hsmall] at h ⊢
    cases h
    exact ⟨[], rfl, fun h => absurd h (by decide)⟩
  rw [if_neg hsmall] at h ⊢
  obtain ⟨b, k₁, halloc, h⟩ := Code.bind_eq_ok h
  rw [Code.bind_ok halloc]
  cases b with
  | false =>
    cases h
    exact ⟨[], rfl, fun h => absurd h (by decide)⟩
  | true =>
    rw [if_pos rfl] at h ⊢
    obtain ⟨_, k₂, hinc, h⟩ := Code.bind_eq_ok h
    rw [Code.bind_ok hinc]
    obtain ⟨⟨e, resid', ptr', mem₁⟩, k₃, hfill, h⟩ := Code.bind_eq_ok h
    have hempty : Holds mem (iob.ioBase + iob.ioResid) (slashed []) := holds_nil
    obtain ⟨names', hloop, hok⟩ := namefileFill_follows (n := iob.ioResid - 1) (by omega)
      (by omega) hempty hfill
    rw [Code.bind_ok hloop]
    dsimp only at h hok ⊢
    by_cases he : e ≠ 0
    · rw [if_pos he] at h ⊢
      cases h
      exact ⟨[], rfl, fun h => absurd h he⟩
    · rw [if_neg he] at h ⊢
      obtain ⟨htext, hres⟩ := hok (not_not.mp he)
      have hlen : resid' + (slashed names').length + 2 = iob.ioResid := by
        change _ = iob.ioResid - 2 + 0 at hres
        omega
      obtain ⟨iob₁, mem₂, hmove, hholds, -⟩ := namefileMove_eq (k := k₃) htext hlen
      rw [hmove] at h
      cases h
      exact ⟨_, rfl, fun _ => hholds⟩

end Call

section Exec

variable {fs : Fs} {ino : ℕ}

/-- A directory of a volume can be read, as a test. -/
def readyTest (s : Fs) (ino : ℕ) : Bool :=
  decide ((s.din ino).type = sfsTypeDir ∧ (s.din ino).blocks ≤ maxBlocks ∧ s.transfers = [] ∧
    s.blocks ≤ s.nbits ∧ (s.din ino).indirect = 0 ∧ (s.din ino).nlinks ≠ 0 ∧ 0 < ino ∧
    ino < s.blocks ∧ s.freemap ino = false) &&
  decide (∀ i < (s.din ino).blocks, s.slot ino i ≠ 0 ∧ s.slot ino i < s.blocks ∧
    s.freemap (s.slot ino i) = false)

theorem boot_ready (h : readyTest (Fs.loadRoot fs) ino = true) :
    Ready (boot fs [] []).kernel ino := by
  unfold readyTest at h
  simp only [Bool.and_eq_true, decide_eq_true_eq] at h
  obtain ⟨⟨htype, hslots, hquiet, hbits, hind, hlinks, hpos, hlt, hfree⟩, huse⟩ := h
  refine ⟨⟨htype, hslots, ⟨hquiet, hbits, fun h => absurd hind h, fun i hi _ => ?_⟩, rfl⟩,
    ⟨hpos, hlt, hfree⟩, hlinks, fun _ => rfl, fun p n _ hn => (boot_node hn).1⟩
  obtain ⟨h₀, h₁, h₂⟩ := huse i hi
  exact ⟨h₀, Nat.pos_of_ne_zero h₀, h₁, h₂⟩

/-- The image in which the inode 5 is a directory. -/
def dirImage : Fs :=
  { image 9 2 [] with
    disk := fun b =>
      if b = 5 then DiskInode.bytes { Image.fileDin 2 with type := sfsTypeDir, nlinks := 2 }
      else if b = 7 then entryBytes 5 [46]
      else if b = 8 then entryBytes 1 [46, 46]
      else (image 9 2 []).disk b }

/-- The directory `f` below the root is loaded, and its path fits into four bytes. -/
theorem sfsNamefileMem_path_child : ∃ (p : ℕ) (k : Kernel) (iob' : Iobuf) (mem' : Buf) (brk : ℕ),
    sfsLoadInode 5 (boot dirImage [] []).kernel = .ok ((0, p), k) ∧
    sfsNamefileMem p ⟨0x1000, 0, 4, 4⟩ zeros k = .ok ((0, iob', mem'), { k with brk := brk }) ∧
    Holds mem' 0x1000 [47, 102, 47, 0] := by
  have hc : Coherent (boot dirImage [] []).kernel := boot_coherent
  have hr : Ready (boot dirImage [] []).kernel 5 := boot_ready (by decide +kernel)
  have hr' : Ready (boot dirImage [] []).kernel 1 := boot_ready (by decide +kernel)
  have hnames : parentOf (Fs.loadRoot dirImage) 5 = some 1 ∧
      parentOf (Fs.loadRoot dirImage) 1 = some 1 ∧
      nameIn (Fs.loadRoot dirImage) 1 5 = some [102] := by decide +kernel
  obtain ⟨p, k, hload, hb, hp, -⟩ := sfsLoadInode_borrows hc (.refl hc) hr
  have hck : Coherent k := hb.coherent hc fun ino hin => by
    obtain rfl := List.mem_singleton.mp hin
    exact hr
  have ht : PathTo k 5 ([] ++ [[102]]) := by
    have hready := hb.ready hc hr
    have hready' := hb.ready hc hr'
    obtain ⟨m, hfs, -⟩ := hb.fs
    refine .child hready ?_ (by decide) ?_ (.root hready' ?_)
    · rw [hfs]
      exact hnames.1
    · rw [hfs]
      exact hnames.2.2
    · rw [hfs]
      exact hnames.2.1
  obtain ⟨ret, iob', mem', brk, hcall, hiff, -, hpath, -⟩ :=
    sfsNamefileMem_path hck ht hp ⟨0x1000, 0, 4, 4⟩ zeros
  obtain rfl : ret = 0 := hiff.mpr (by decide)
  exact ⟨p, k, iob', mem', brk, hload, hcall, hpath rfl⟩

end Exec

end UCore.Vfs

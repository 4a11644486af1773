import UCore.Vfs.Lookup
import UCore.Vfs.Namefile

/-! # Paths of several names

`sfs_lookup` does not take its path apart: a path of several names is searched as one name of the
directory, and so is the path that `sfs_namefile` writes.
-/

namespace UCore.Vfs

open Library Sfs

section Walk

/-- The names of a path, with slashes between them. -/
def pathOf (names : List Str) : Str := [slash].intercalate names

/-- The search for one name in an inode: the inode found, or an error. -/
def stepInto (s : Fs) (sin : ℕ) (name : Str) : ℤ ⊕ ℕ :=
  if (s.din sin).type = sfsTypeDir then
    match (usedEntries s sin).find? fun e => e.name = name with
    | some e => .inr e.ino
    | none => .inl (-eNoent)
  else .inl (-eNotdir)

/-- The search for the names one after another, each in the inode found before. -/
def walk (s : Fs) : ℕ → List Str → ℤ ⊕ ℕ
  | sin, [] => .inr sin
  | sin, name :: names =>
    match stepInto s sin name with
    | .inr ino => walk s ino names
    | .inl ret => .inl ret

/-- The lookup returns a reference to the inode, or the error. -/
def Resolves (m : Prog (ℤ × ℕ)) (k : Kernel) : ℤ ⊕ ℕ → Prop
  | .inr ino => ∃ p k' n, m k = .ok ((0, p), k') ∧ k'.inode p = some n ∧ n.info = .sfs ino
  | .inl ret => ret ≠ 0 ∧ ∃ p k', m k = .ok ((ret, p), k')

variable {m : Prog (ℤ × ℕ)} {k : Kernel} {r r' : ℤ ⊕ ℕ} {s : Fs} {sin : ℕ} {path name : Str}
  {names : List Str}

theorem Resolves.unique (h : Resolves m k r) (h' : Resolves m k r') : r = r' := by
  cases r with
  | inl ret =>
    obtain ⟨hret, p, k₁, hm⟩ := h
    cases r' with
    | inl ret' =>
      obtain ⟨-, p', k₁', hm'⟩ := h'
      rw [hm] at hm'
      cases hm'
      rfl
    | inr ino' =>
      obtain ⟨p', k₁', n', hm', -⟩ := h'
      rw [hm] at hm'
      cases hm'
      exact absurd rfl hret
  | inr ino =>
    obtain ⟨p, k₁, n, hm, hn, hi⟩ := h
    cases r' with
    | inl ret' =>
      obtain ⟨hret', p', k₁', hm'⟩ := h'
      rw [hm] at hm'
      cases hm'
      exact absurd rfl hret'
    | inr ino' =>
      obtain ⟨p', k₁', n', hm', hn', hi'⟩ := h'
      rw [hm] at hm'
      cases hm'
      rw [hn] at hn'
      cases hn'
      rw [hi] at hi'
      cases hi'
      rfl

theorem Resolves.returns (h : Resolves m k r) : ∃ a k', m k = .ok (a, k') := by
  cases r with
  | inl ret =>
    obtain ⟨-, p, k', hm⟩ := h
    exact ⟨_, k', hm⟩
  | inr ino =>
    obtain ⟨p, k', n, hm, -⟩ := h
    exact ⟨_, k', hm⟩

theorem walk_single : walk s sin [name] = stepInto s sin name := by
  unfold walk
  cases stepInto s sin name <;> rfl

/-- No entry of a directory has a name with a slash, so that a path of several names is not
found. -/
theorem find_slash (hnames : ∀ e ∈ usedEntries s sin, slash ∉ e.name) (hpath : slash ∈ path) :
    ((usedEntries s sin).find? fun e => e.name = path) = none := by
  refine List.find?_eq_none.mpr fun e he hname => hnames e he ?_
  rw [of_decide_eq_true hname]
  exact hpath

theorem stepInto_slash (htype : (s.din sin).type = sfsTypeDir)
    (hnames : ∀ e ∈ usedEntries s sin, slash ∉ e.name) (hpath : slash ∈ path) :
    stepInto s sin path = .inl (-eNoent) := by
  rw [stepInto, if_pos htype, find_slash hnames hpath]

/-- A name in a path: it is not empty, and it has no slash and no colon. -/
structure Component (name : Str) : Prop where
  nonempty : name ≠ []
  noSlash : slash ∉ name
  noColon : colon ∉ name

theorem pathOf_cons_cons {first second : Str} :
    pathOf (first :: second :: names) = first ++ slash :: pathOf (second :: names) := by
  simp [pathOf, List.intercalate]

theorem pathOf_single : pathOf [name] = name := by simp [pathOf, List.intercalate]

theorem pathOf_colon (hnames : ∀ name ∈ names, Component name) : colon ∉ pathOf names := by
  induction names with
  | nil => simp [pathOf, List.intercalate]
  | cons first names ih =>
    have hfirst := (hnames first List.mem_cons_self).noColon
    have hrest := ih fun name hin => hnames name (List.mem_cons_of_mem _ hin)
    cases names with
    | nil => rwa [pathOf_single]
    | cons second names =>
      rw [pathOf_cons_cons, List.mem_append, List.mem_cons]
      rintro (h | h | h)
      · exact hfirst h
      · revert h
        decide
      · exact hrest h

theorem pathOf_head (hne : names ≠ []) (hnames : ∀ name ∈ names, Component name) :
    ∃ c, (pathOf names).head? = some c ∧ c ≠ slash := by
  obtain ⟨first, names, rfl⟩ := List.exists_cons_of_ne_nil hne
  obtain ⟨hfirst, hslash, -⟩ := hnames first List.mem_cons_self
  obtain ⟨c, l, rfl⟩ := List.exists_cons_of_ne_nil hfirst
  have hc : c ≠ slash := fun he => hslash (he ▸ List.mem_cons_self)
  refine ⟨c, ?_, hc⟩
  cases names with
  | nil => rw [pathOf_single, List.head?_cons]
  | cons second names => rw [pathOf_cons_cons, List.cons_append, List.head?_cons]

theorem drop_takeWhile {α : Type} {P : α → Bool} {l : List α} :
    l.drop (l.takeWhile P).length = l.dropWhile P := by
  induction l with
  | nil => rfl
  | cons a l ih => by_cases ha : P a <;> simp [ha, ih]

theorem scanPath_relative (hcolon : colon ∉ path) (hhead : path.head? ≠ some slash) :
    scanPath path = (.cwd, path) := by
  unfold scanPath
  dsimp only
  rw [drop_takeWhile]
  obtain ⟨P, hP⟩ : ∃ P : UInt8 → Bool, P = fun c => decide (c ≠ colon ∧ c ≠ slash) := ⟨_, rfl⟩
  rw [← hP]
  cases hrest : path.dropWhile P with
  | nil => rfl
  | cons c rest =>
    have hin : c ∈ path := (List.dropWhile_sublist P).subset (hrest ▸ List.mem_cons_self)
    have hstop : P c = false := by
      have h := List.head?_dropWhile_not P path
      rw [hrest] at h
      simpa using h
    obtain rfl : c = slash := by
      by_contra hne
      have hc : c ≠ colon := fun he => hcolon (he ▸ hin)
      rw [hP] at hstop
      exact of_decide_eq_false hstop ⟨hc, hne⟩
    have hnil : path.takeWhile P ≠ [] := by
      intro hnil
      have hpath := List.takeWhile_append_dropWhile (p := P) (l := path)
      rw [hnil, hrest, List.nil_append] at hpath
      rw [← hpath] at hhead
      exact hhead rfl
    dsimp only
    rw [if_pos rfl, if_neg hnil]

end Walk

section Lookup

variable {k k' : Kernel} {cur p q ino : ℕ} {path : Str} {n : Inode}

/-- An inode that is in memory, or that can be loaded. -/
def Loadable (k : Kernel) (ino : ℕ) : Prop := k.hash ino = none →
  k.fs.InUse ino ∧ (diskInode (k.fs.disk ino)).nlinks ≠ 0 ∧
    ∃ ops, sfsGetOps (diskInode (k.fs.disk ino)).type = some ops

/-- The inodes in memory stay there, with no fewer references. -/
def Grows (k k' : Kernel) : Prop := ∀ p n, k.inode p = some n →
  ∃ n', k'.inode p = some n' ∧ n'.info = n.info ∧ n.refCount ≤ n'.refCount

theorem Grows.setInode {n' : Inode} (hn : k.inode p = some n) (hi : n'.info = n.info)
    (hle : n.refCount ≤ n'.refCount) : Grows k (k.setInode p (some n')) := by
  intro q m hm
  by_cases hq : q = p
  · subst hq
    obtain rfl := Option.some.inj (hn.symm.trans hm)
    exact ⟨n', setInode_inode, hi, hle⟩
  · exact ⟨m, (setInode_inode_ne hq).trans hm, rfl, le_rfl⟩

theorem sfsLoadInode_loads (hc : Coherent k) (hk : k.kmallocs = []) (hq : k.fs.transfers = [])
    (hbits : k.fs.blocks ≤ k.fs.nbits) (hl : Loadable k ino) :
    ∃ q k', sfsLoadInode ino k = .ok ((0, q), k') ∧ Grows k k' ∧
      ∃ n, k'.inode q = some n ∧ n.info = .sfs ino := by
  cases hhash : k.hash ino with
  | some p =>
    obtain ⟨n, hn, hi⟩ := hc.hash ino p hhash
    obtain ⟨k₁, hk₁⟩ : ∃ k₁, k₁ = k.setInode p (some { n with refCount := n.refCount + 1 }) :=
      ⟨_, rfl⟩
    have hn₁ : k₁.inode p = some { n with refCount := n.refCount + 1 } := by
      rw [hk₁, setInode_inode]
    have hinc : inodeRefInc p k = .ok (n.refCount + 1, k₁) := by rw [hk₁, inodeRefInc_eq hn]
    have hfound : ∃ n', n'.info = n.info ∧ n.refCount ≤ n'.refCount ∧
        lookupSfsNolock ino k = .ok (some p, k.setInode p (some n')) := by
      by_cases hone : n.refCount + 1 = 1
      · refine ⟨{ n with refCount := n.refCount + 1, reclaimCount := n.reclaimCount + 1 }, rfl,
          by dsimp only; omega, ?_⟩
        refine Eq.trans Code.get_bind ?_
        rw [hhash]
        refine Eq.trans (Code.bind_ok hinc) ?_
        rw [if_pos hone]
        refine Eq.trans (Code.bind_ok (deref_eq hn₁)) (Eq.trans Code.modify_bind ?_)
        rw [hk₁, setInode_setInode]
        rfl
      · refine ⟨{ n with refCount := n.refCount + 1 }, rfl, by dsimp only; omega, ?_⟩
        refine Eq.trans Code.get_bind ?_
        rw [hhash]
        refine Eq.trans (Code.bind_ok hinc) ?_
        rw [if_neg hone, hk₁]
        rfl
    obtain ⟨n', hi', hle, hlookup⟩ := hfound
    refine ⟨p, _, Eq.trans (Code.bind_ok hlookup) rfl, .setInode hn hi' hle, n', setInode_inode, ?_⟩
    rw [hi', hi]
  | none =>
    obtain ⟨huse, hlinks, ops, hops⟩ := hl hhash
    have hlookup : lookupSfsNolock ino k = .ok (none, k) := by
      refine Eq.trans Code.get_bind ?_
      rw [hhash]
      rfl
    have hread : sfsRbuf zeros 0 sizeofDiskInode ino 0 k.fs =
        .ok ((0, memcpy zeros 0 (k.fs.disk ino) 0 sizeofDiskInode), k.fs) :=
      sfsRbuf_read hq huse (by decide) (by decide)
    have hcreate : sfsCreateInode (diskInode (k.fs.disk ino)) ino k = .ok ((0, k.brk),
        { k.setInode k.brk (some ⟨.sfs ino, ops, 1, 0, 1⟩) with
          brk := k.brk + 1
          fs := k.fs.setSin ino fun _ => ⟨diskInode (k.fs.disk ino), false⟩ }) := by
      unfold sfsCreateInode
      refine Eq.trans (Code.bind_ok (kmalloc_ok hk)) ?_
      rw [if_pos rfl, hops]
      exact Eq.trans Code.get_bind Code.modify_bind
    obtain ⟨k', hk'⟩ : ∃ k', k' = { k.setInode k.brk (some ⟨.sfs ino, ops, 1, 0, 1⟩) with
        brk := k.brk + 1
        hash := Function.update k.hash ino (some k.brk)
        fs := { k.fs.setSin ino fun _ => ⟨diskInode (k.fs.disk ino), false⟩ with
          inodeList := ino :: k.fs.inodeList } } := ⟨_, rfl⟩
    have hinode : k'.inode = (k.setInode k.brk (some ⟨.sfs ino, ops, 1, 0, 1⟩)).inode := by rw [hk']
    refine ⟨k.brk, k', ?_, ?_, ⟨.sfs ino, ops, 1, 0, 1⟩, hinode ▸ setInode_inode, rfl⟩
    · refine Eq.trans (Code.bind_ok hlookup) (Eq.trans (Code.bind_ok (kmalloc_ok hk)) ?_)
      rw [if_pos rfl]
      refine Eq.trans (Code.bind_ok (volume_ok (assertInuse_ok hbits huse))) ?_
      refine Eq.trans (Code.bind_ok (volume_ok hread)) ?_
      dsimp only
      rw [if_neg (by simp), diskInode_read]
      refine Eq.trans (Code.assert_bind hlinks) (Eq.trans (Code.bind_ok hcreate) ?_)
      dsimp only
      rw [if_neg (by simp), hk']
      rfl
    · intro p n hn
      have hne : p ≠ k.brk := by
        rintro rfl
        rw [hc.brk _ le_rfl] at hn
        cases hn
      rw [hinode]
      exact ⟨n, (setInode_inode_ne hne).trans hn, rfl, le_rfl⟩

/-- A process with the table `cur` stands in the directory `ino` of the volume, at `p` in memory.
The entries of the directory are for inodes that can be loaded, and their names have no slash. -/
structure Standing (k : Kernel) (cur p ino : ℕ) : Prop where
  coherent : Coherent k
  pwd : k.pwd cur = some p
  node : ∃ n, k.inode p = some n ∧ n.info = .sfs ino ∧ n.ops = .dir ∧ n.Ordered ∧
    n.refCount + 1 < maxInodeCount
  ready : Ready k ino
  loads : ∀ e ∈ usedEntries k.fs ino, Loadable k e.ino
  names : ∀ e ∈ usedEntries k.fs ino, slash ∉ e.name

/-- The kernel with `e` more references of the inode at `p`. -/
def Kernel.bump (k : Kernel) (p : ℕ) (n : Inode) (e : ℤ) : Kernel :=
  k.setInode p (some { n with refCount := n.refCount + e })

theorem Coherent.bump (h : Coherent k) (hn : k.inode p = some n) (hpos : 0 < n.refCount) {e : ℤ}
    (he : 0 ≤ e) : Coherent (k.bump p n e) := by
  have hinode : ∀ q m, (k.bump p n e).inode q = some m → ∃ m', k.inode q = some m' ∧
    m'.info = m.info ∧
      m'.reclaimCount = m.reclaimCount ∧ (m'.refCount = 0 ↔ m.refCount = 0) := by
    intro q m hm
    by_cases hq : q = p
    · subst hq
      obtain rfl := Option.some.inj (setInode_inode.symm.trans hm)
      exact ⟨n, hn, rfl, rfl, by dsimp only; omega⟩
    · exact ⟨m, (setInode_inode_ne hq).symm.trans hm, rfl, rfl, Iff.rfl⟩
  refine ⟨fun q hq => ?_, h.fbrk, fun q m hm => ?_, fun q m ino hm hi => ?_, fun ino q hq => ?_⟩
  · have hne : q ≠ p := by
      rintro rfl
      rw [h.brk q hq] at hn
      cases hn
    exact (setInode_inode_ne hne).trans (h.brk q hq)
  · obtain ⟨m', hm', -, hr, hiff⟩ := hinode q m hm
    rw [← hr, h.reclaim q m' hm']
    simp only [hiff]
  · obtain ⟨m', hm', hi', -⟩ := hinode q m hm
    exact h.sfs q m' ino hm' (hi'.trans hi)
  · obtain ⟨m, hm, hi⟩ := h.hash ino q hq
    by_cases hqp : q = p
    · subst hqp
      obtain rfl := Option.some.inj (hn.symm.trans hm)
      exact ⟨_, setInode_inode, hi⟩
    · exact ⟨m, (setInode_inode_ne hqp).trans hm, hi⟩

theorem vfsGetCurdir_eq (hp : k.pwd cur = some p) (hn : k.inode p = some n) :
    vfsGetCurdir cur k = .ok ((0, p), k.bump p n 1) := by
  obtain ⟨t, ht, hp⟩ := Option.bind_eq_some_iff.mp hp
  have hfiles : filesAt cur k = .ok (t, k) := by
    unfold filesAt
    rw [ht]
  refine Eq.trans (Code.bind_ok hfiles) ?_
  rw [hp]
  exact Code.bind_ok (inodeRefInc_eq hn)

theorem getDevice_relative (hp : k.pwd cur = some p) (hn : k.inode p = some n)
    (hscan : scanPath path = (.cwd, path)) :
    getDevice cur path k = .ok ((0, p, path), k.bump p n 1) := by
  unfold getDevice
  rw [hscan]
  exact Eq.trans (Code.bind_ok (vfsGetCurdir_eq hp hn)) rfl

/-- A path that starts in the current directory is searched there as one name. -/
theorem vfsLookup_cwd (h : Standing k cur p ino) (hscan : scanPath path = (.cwd, path))
    (hne : path ≠ [])
    (hhead : path.head? ≠ some slash) (hn : k.inode p = some n) {r : ℤ × ℕ} {k₃ : Kernel}
    {n₃ : Inode}
    (honce : sfsLookupOnce ino path (k.bump p n 2) = .ok (r, k₃)) (hn₃ : k₃.inode p = some n₃)
    (hlt : 2 < n₃.refCount) : vfsLookup cur path k = .ok (if r.1 = 0 then r else (r.1, 0),
      k₃.setInode p (some { n₃ with refCount := n₃.refCount - 2 })) := by
  obtain ⟨n', hn', hi, hops, ho, hlimit⟩ := h.node
  obtain rfl := Option.some.inj (hn.symm.trans hn')
  obtain ⟨k₁, hk₁⟩ : ∃ k₁, k₁ = k.bump p n 1 := ⟨_, rfl⟩
  have hn₁ : k₁.inode p = some { n with refCount := n.refCount + 1 } := by
    rw [hk₁]
    exact setInode_inode
  have hdevice : getDevice cur path k = .ok ((0, p, path), k₁) := by
    rw [hk₁, getDevice_relative h.pwd hn hscan]
  have hop : vopOp p .vopLookup k₁ = .ok ({ n with refCount := n.refCount + 1 }, k₁) := by
    have hle : n.openCount ≤ n.refCount + 1 := ho.1.trans (Int.le_add_one le_rfl)
    exact vopOp_eq hn₁ (by rw [hops]; rfl) ⟨hle, ho.2⟩ ⟨hlimit, hle.trans_lt hlimit⟩
  have hinc : inodeRefInc p k₁ = .ok (n.refCount + 1 + 1, k.bump p n 2) := by
    rw [inodeRefInc_eq hn₁, hk₁]
    unfold Kernel.bump
    rw [setInode_setInode, add_assoc]
    rfl
  obtain ⟨k₄, hk₄⟩ : ∃ k₄, k₄ = k₃.setInode p (some { n₃ with refCount := n₃.refCount - 1 }) :=
    ⟨_, rfl⟩
  have hdec : inodeRefDec p k₃ = .ok ((), k₄) := by rw [hk₄, inodeRefDec_keeps hn₃ (by omega)]
  have hn₄ : k₄.inode p = some { n₃ with refCount := n₃.refCount - 1 } := by
    rw [hk₄, setInode_inode]
  have hdec' : inodeRefDec p k₄ =
      .ok ((), k₃.setInode p (some { n₃ with refCount := n₃.refCount - 2 })) := by
    have hlt₄ : 1 < n₃.refCount - 1 := by omega
    rw [inodeRefDec_keeps hn₄ hlt₄, hk₄, setInode_setInode, sub_sub]
    rfl
  have hvop : vopLookup p path k₁ = .ok (if r.1 = 0 then r else (r.1, 0), k₄) := by
    refine Eq.trans (Code.bind_ok hop) ?_
    rw [hi]
    have hassert : path ≠ [] ∧ path.head? ≠ some 47 := ⟨hne, hhead⟩
    refine Eq.trans (Code.assert_bind hassert)
      (Eq.trans (Code.bind_ok hinc) (Eq.trans Code.get_bind ?_))
    have htype : ((k.bump p n 2).fs.din ino).type = sfsTypeDir := h.ready.directory.type
    rw [if_neg (not_not.mpr htype)]
    refine Eq.trans (Code.bind_ok honce) (Eq.trans (Code.bind_ok hdec) ?_)
    obtain ⟨ret, q⟩ := r
    dsimp only
    by_cases hret : ret = 0
    · rw [if_neg (not_not.mpr hret), if_pos hret, hret]
      rfl
    · rw [if_pos hret, if_neg hret]
      rfl
  refine Eq.trans (Code.bind_ok hdevice) ?_
  dsimp only
  rw [if_neg (by simp), if_pos hne]
  exact Eq.trans (Code.bind_ok hvop) (Code.bind_ok hdec')

theorem Standing.directory (h : Standing k cur p ino) {e : ℤ} : Directory (k.bump p n e) ino :=
  ⟨h.ready.directory.type, h.ready.directory.slots, h.ready.directory.legible,
    h.ready.directory.kmallocs⟩

/-- A path that is no longer than a name resolves to what the search for it as one name finds. -/
theorem Standing.resolves (h : Standing k cur p ino) (hscan : scanPath path = (.cwd, path))
    (hne : path ≠ []) (hhead : path.head? ≠ some slash) (hlen : path.length ≤ sfsMaxFnameLen) :
    Resolves (vfsLookup cur path) k (stepInto k.fs ino path) := by
  obtain ⟨n, hn, hi, -⟩ := h.node
  have hpos : 0 < n.refCount := h.ready.held p n (h.coherent.sfs p n ino hn hi) hn
  have hn₂ : (k.bump p n 2).inode p = some { n with refCount := n.refCount + 2 } := setInode_inode
  have hsearch := sfsDirentSearchNolock_eq (h.directory (n := n) (e := 2)) hlen
  rw [stepInto, if_pos h.ready.directory.type]
  cases hfind : (usedEntries k.fs ino).find? fun e => e.name = path with
  | none =>
    have hsearch' : sfsDirentSearchNolock ino path (k.bump p n 2) = .ok ((-eNoent, 0),
      k.bump p n 2) := by
      rw [hsearch, show (k.bump p n 2).fs = k.fs from rfl, hfind]
    have honce : sfsLookupOnce ino path (k.bump p n 2) = .ok ((-eNoent, 0), k.bump p n 2) :=
      Eq.trans (Code.bind_ok hsearch') rfl
    have hlt : 2 < n.refCount + 2 := by omega
    exact ⟨by decide, 0, _, vfsLookup_cwd h hscan hne hhead hn honce hn₂ hlt⟩
  | some e =>
    have hin : e ∈ usedEntries k.fs ino := List.mem_of_find?_eq_some hfind
    have hsearch' : sfsDirentSearchNolock ino path (k.bump p n 2) = .ok ((0, e.ino),
      k.bump p n 2) := by
      rw [hsearch, show (k.bump p n 2).fs = k.fs from rfl, hfind]
    have hc₂ : Coherent (k.bump p n 2) := h.coherent.bump hn hpos (by decide)
    have hlegible := h.ready.directory.legible
    obtain ⟨q, k₃, hload, hgrow, m, hm, hmi⟩ := sfsLoadInode_loads hc₂ h.ready.directory.kmallocs
      hlegible.quiet hlegible.bits (h.loads e hin)
    have honce : sfsLookupOnce ino path (k.bump p n 2) = .ok ((0, q), k₃) :=
      Eq.trans (Code.bind_ok hsearch') hload
    obtain ⟨n₃, hn₃, hi₃, hle⟩ := hgrow p _ hn₂
    have hlt : 2 < n₃.refCount := by
      have : n.refCount + 2 ≤ n₃.refCount := hle
      omega
    have hlookup := vfsLookup_cwd h hscan hne hhead hn honce hn₃ hlt
    by_cases hq : q = p
    · subst hq
      obtain rfl := Option.some.inj (hm.symm.trans hn₃)
      exact ⟨q, _, _, hlookup, setInode_inode, hmi⟩
    · exact ⟨q, _, m, hlookup, (setInode_inode_ne hq).trans hm, hmi⟩

theorem Standing.long (h : Standing k cur p ino) (hscan : scanPath path = (.cwd, path))
    (hne : path ≠ [])
    (hlen : sfsMaxFnameLen < path.length) {r : ℤ ⊕ ℕ} : ¬ Resolves (vfsLookup cur path) k r := by
  obtain ⟨n, hn, hi, -⟩ := h.node
  have hpanic : Code.Wp (vfsLookup cur path) k (fun _ => True) fun _ _ => False := by
    refine .bind_of (getDevice_relative h.pwd hn hscan) ?_
    dsimp only
    rw [if_neg (by simp), if_pos hne]
    refine Code.Wp.bind (Q := fun _ _ => False) (vopOp_bind fun m hm _ => ?_) fun _ _ hf => hf.elim
    obtain rfl := Option.some.inj (setInode_inode.symm.trans hm)
    rw [hi]
    refine Code.Wp.bind_assert (fun _ => ?_) fun _ => trivial
    refine .bind_of (inodeRefInc_eq hm) (Code.Wp.bind_get ?_)
    split
    · rename_i htype
      exact absurd h.ready.directory.type htype
    refine Code.Wp.bind (Q := fun _ _ => False) ?_ fun _ _ hf => hf.elim
    refine Code.Wp.bind (Q := fun _ _ => False) ?_ fun _ _ hf => hf.elim
    exact Code.Wp.bind_assert (fun hle => absurd hle (Nat.not_le.mpr hlen)) fun _ => trivial
  intro hr
  obtain ⟨a, k', hrun⟩ := hr.returns
  exact hpanic.ok hrun

/-- A path of names resolves to what the search for one name after another finds exactly when it is
not longer than a name, and it is one name or one of the names is not there. -/
theorem Standing.pathOf_iff (h : Standing k cur p ino) {names : List Str} (hne : names ≠ [])
    (hnames : ∀ name ∈ names, Component name) :
    Resolves (vfsLookup cur (pathOf names)) k (walk k.fs ino names) ↔
      (pathOf names).length ≤ sfsMaxFnameLen ∧
        (names.length = 1 ∨ walk k.fs ino names = .inl (-eNoent)) := by
  obtain ⟨c, hc, hslash⟩ := pathOf_head hne hnames
  have hhead : (pathOf names).head? ≠ some slash :=
    fun he => hslash (Option.some.inj (hc.symm.trans he))
  have hpath : pathOf names ≠ [] := by
    intro hnil
    rw [hnil] at hc
    cases hc
  have hscan := scanPath_relative (pathOf_colon hnames) hhead
  by_cases hlen : (pathOf names).length ≤ sfsMaxFnameLen
  swap
  · exact iff_of_false (h.long hscan hpath (Nat.not_le.mp hlen)) fun hx => hlen hx.1
  have hres := h.resolves hscan hpath hhead hlen
  match names, hne with
  | [name], _ =>
    rw [pathOf_single, ← walk_single] at hres
    rw [pathOf_single] at hlen ⊢
    exact iff_of_true hres ⟨hlen, .inl rfl⟩
  | first :: second :: rest, _ =>
    have hin : slash ∈ pathOf (first :: second :: rest) := by
      rw [pathOf_cons_cons]
      simp
    rw [stepInto_slash h.ready.directory.type h.names hin] at hres
    constructor
    · exact fun hw => ⟨hlen, .inr (hw.unique hres)⟩
    · rintro ⟨-, hone | hw⟩
      · simp at hone
      · rwa [hw]

end Lookup

section Getcwd

variable {k₀ k : Kernel} {cur p ino len : ℕ} {names : List Str}

/-- From a held directory the loop collects the names of its path, and it gives back the
reference. -/
theorem namefileLoop_borrows (hc : Coherent k₀) (ht : PathTo k₀ ino names) :
    ∀ {k : Kernel} {l : List ℕ}
    {p n resid : ℕ} (below : List Str), Borrows k₀ (ino :: l) k → k.hash ino = some p →
    ∃ r k', namefileLoop n p resid below k = .ok (r, k') ∧ Borrows k₀ l k' ∧
      (r.1 = 0 → r.2 = names ++ below) := by
  have hmem : -eNoMem ≠ 0 := by decide
  induction ht with
  | @root ino hr hp =>
    intro k l p n resid below hb hh
    cases n with
    | zero =>
      obtain ⟨k₁, hdec, hb₁, -⟩ := inodeRefDec_borrows hc hb hr hh
      exact ⟨_, k₁, Eq.trans (Code.bind_ok hdec) rfl, hb₁, fun h => absurd h hmem⟩
    | succ n =>
      obtain ⟨q, k₁, hlookup, hb₁, hq, hmono⟩ := sfsLookupOnce_borrows hc hb hr hp hr
      have hh₁ := hmono ino p hh
      obtain rfl := Option.some.inj (hq.symm.trans hh₁)
      obtain ⟨k₂, hdec, hb₂, hmono'⟩ := inodeRefDec_borrows hc hb₁ hr hh₁
      have hh₂ := hmono' ino q (.inl List.mem_cons_self) hh₁
      obtain ⟨k₃, hdec', hb₃, -⟩ := inodeRefDec_borrows hc hb₂ hr hh₂
      refine ⟨(0, below), k₃, ?_, hb₃, fun _ => rfl⟩
      refine Eq.trans (Code.bind_ok (sfsInfo_borrows hc hb hh)) (Eq.trans (Code.bind_ok hlookup) ?_)
      dsimp only
      rw [if_neg (by simp)]
      refine Eq.trans (Code.bind_ok hdec) ?_
      rw [if_pos rfl]
      exact Eq.trans (Code.bind_ok hdec') rfl
  | @child ino parent name names hr hp hne hname ht ih =>
    intro k l p n resid below hb hh
    cases n with
    | zero =>
      obtain ⟨k₁, hdec, hb₁, -⟩ := inodeRefDec_borrows hc hb hr hh
      exact ⟨_, k₁, Eq.trans (Code.bind_ok hdec) rfl, hb₁, fun h => absurd h hmem⟩
    | succ n =>
      obtain ⟨q, k₁, hlookup, hb₁, hq, hmono⟩ := sfsLookupOnce_borrows hc hb hr hp ht.ready
      have hh₁ := hmono ino p hh
      have hpq : p ≠ q := by
        rintro rfl
        exact hne (hb₁.injective hc hh₁ hq)
      have hb₁' := hb₁.perm (List.Perm.swap ino parent l)
      obtain ⟨k₂, hdec, hb₂, hmono'⟩ := inodeRefDec_borrows hc hb₁' hr hh₁
      have hq₂ := hmono' parent q (.inl List.mem_cons_self) hq
      have hd := hb₂.directory ht.ready.directory
      have hname' : nameIn k₂.fs parent ino = some name := by
        obtain ⟨m, hfs, -⟩ := hb₂.fs
        rw [hfs]
        exact hname
      obtain ⟨e, hfind, rfl⟩ := sfsDirentFindinoNolock_name hd hr.inUse.1.ne' hname'
      -- the round up to the test for room
      have hround : ∀ {x}, (if e.name.length + 1 > resid then (do
            inodeRefDec q
            return (-eNoMem, []) : Prog (ℤ × List Str))
          else namefileLoop n q (resid - (e.name.length + 1)) (e.name :: below)) k₂ = x →
          namefileLoop (n + 1) p resid below k = x := by
        rintro x rfl
        refine Eq.trans (Code.bind_ok (sfsInfo_borrows hc hb hh))
          (Eq.trans (Code.bind_ok hlookup) ?_)
        dsimp only
        rw [if_neg (by simp)]
        refine Eq.trans (Code.bind_ok hdec) ?_
        rw [if_neg hpq]
        refine Eq.trans (Code.bind_ok (sfsInfo_borrows hc hb₂ hq₂)) ?_
        refine Eq.trans (Code.assert_bind ⟨hne, hd.type⟩) (Eq.trans (Code.bind_ok hfind) ?_)
        dsimp only
        rw [if_neg (by simp)]
      by_cases hlen : e.name.length + 1 > resid
      · obtain ⟨k₃, hdec', hb₃, -⟩ := inodeRefDec_borrows hc hb₂ ht.ready hq₂
        refine ⟨(-eNoMem, []), k₃, hround ?_, hb₃, fun h => absurd h hmem⟩
        rw [if_pos hlen]
        exact Eq.trans (Code.bind_ok hdec') rfl
      · obtain ⟨r, k₃, hrun, hb₃, hnames⟩ := ih (e.name :: below) hb₂ hq₂
        refine ⟨r, k₃, hround ?_, hb₃, fun h => (hnames h).trans ?_⟩
        · rw [if_neg hlen]
          exact hrun
        · simp

/-- `vfs_getcwd` writes the name of the device and the names of the path, with a slash behind
each. -/
theorem Standing.getcwd (h : Standing k cur p ino) (ht : PathTo k ino names) :
    Code.Wp (vfsGetcwd cur len) k (fun _ => True) fun r k' => Borrows k [] k' ∧
      (r.1 = 0 → r.2 = disk0Name ++ colon :: slash :: slashed names) := by
  have hc := h.coherent
  have hmem : -eNoMem ≠ 0 := by decide
  obtain ⟨n, hn, hi, -⟩ := h.node
  have hp : k.hash ino = some p := hc.sfs p n ino hn hi
  obtain ⟨k₁, hinc, hb₁, -⟩ := inodeRefInc_borrows hc (.refl hc) hp hn
  have hk₁ : k₁ = k.bump p n 1 := by
    rw [inodeRefInc_eq hn] at hinc
    cases hinc
    rfl
  refine .bind_of (vfsGetCurdir_eq h.pwd hn) ?_
  rw [← hk₁]
  obtain ⟨n₁, hn₁, hi₁⟩ := hb₁.info hc (hb₁.old ino p hp).1
  dsimp only
  rw [if_neg (by simp)]
  refine .bind_of (deref_eq hn₁) ?_
  rw [hi₁]
  refine Code.Wp.bind (Q := fun r k₂ => Borrows k [ino] k₂ ∧
    (r.1 = 0 → r.2 = disk0Name ++ colon :: slash :: slashed names)) ?_ ?_
  · unfold getcwdMove
    split
    · exact Code.Wp.pure ⟨hb₁, fun hr => absurd hr hmem⟩
    split
    · exact Code.Wp.pure ⟨hb₁, fun hr => absurd hr hmem⟩
    refine Code.Wp.bind (Q := fun r k₂ => Borrows k [ino] k₂ ∧
      (r.1 = 0 → r.2 = slash :: slashed names)) ?_
      fun r k₂ hr => Code.Wp.pure ⟨hr.1, fun hret => by rw [hr.2 hret]⟩
    refine vopOp_bind fun m hm _ => ?_
    obtain rfl := Option.some.inj (hn₁.symm.trans hm)
    rw [hi₁]
    change Code.Wp (sfsNamefile p _) _ _ _
    unfold sfsNamefile
    split
    · exact Code.Wp.pure ⟨hb₁, fun hr => absurd hr hmem⟩
    refine .bind_of (kmalloc_ok (hb₁.directory h.ready.directory).kmallocs) ?_
    rw [if_pos rfl]
    obtain ⟨k₂, hinc₂, hb₂, -⟩ := inodeRefInc_borrows hc hb₁ (hb₁.old ino p hp).1 hn₁
    refine .bind_of hinc₂ ?_
    obtain ⟨r, k₃, hloop, hb₃, hnames⟩ := namefileLoop_borrows hc ht [] hb₂ (hb₂.old ino p hp).1
    refine .bind_of hloop ?_
    obtain ⟨ret, l⟩ := r
    dsimp only at hnames ⊢
    split
    · rename_i hret
      exact Code.Wp.pure ⟨hb₃, fun hr => absurd hr hret⟩
    · rename_i hret
      refine Code.Wp.pure ⟨hb₃, fun _ => ?_⟩
      rw [hnames (not_not.mp hret), List.append_nil, slashed, List.flatMap_def]
      rfl
  · rintro ⟨ret, path⟩ k₂ ⟨hb₂, hpath⟩
    obtain ⟨k₃, hdec, hb₃, -⟩ := inodeRefDec_borrows hc hb₂ h.ready (hb₂.old ino p hp).1
    exact .bind_of hdec (Code.Wp.pure ⟨hb₃, hpath⟩)

/-- The volume has its root in the inode `sfsBlknRoot`, whose names have no slash. -/
structure Rooted (k : Kernel) : Prop where
  ready : Ready k sfsBlknRoot
  parent : parentOf k.fs sfsBlknRoot = some sfsBlknRoot
  names : ∀ e ∈ usedEntries k.fs sfsBlknRoot, slash ∉ e.name

theorem scanPath_disk0 {l : Str} : scanPath (disk0Name ++ colon :: slash :: l) =
    (.device disk0Name, l.dropWhile fun c => decide (c = slash)) := by
  simp [scanPath, disk0Name, colon, slash]

theorem slashed_dropWhile (names : List Str) :
    (slashed names).dropWhile (fun c => decide (c = slash)) = [] ∨
    slash ∈ (slashed names).dropWhile fun c => decide (c = slash) := by
  rcases List.eq_nil_or_concat names with rfl | ⟨init, name, rfl⟩
  · exact .inl rfl
  · rw [List.concat_eq_append, slashed_append, ← List.append_assoc, List.dropWhile_append]
    split
    · exact .inl (by simp)
    · exact .inr (by simp)

theorem getDevice_root (cur : ℕ) (hc : Coherent k) (hr : Ready k sfsBlknRoot) {path sub : Str}
    (hscan : scanPath path = (.device disk0Name, sub)) : ∃ q k₁,
      getDevice cur path k = .ok ((0, q, sub), k₁) ∧ Borrows k [sfsBlknRoot] k₁ ∧
        k₁.hash sfsBlknRoot = some q := by
  obtain ⟨q, k₁, hload, hb, hq, -⟩ := sfsLoadInode_borrows hc (.refl hc) hr
  refine ⟨q, k₁, ?_, hb, hq⟩
  have hroot : sfsGetRoot k = .ok (q, k₁) := by
    refine Eq.trans (Code.bind_ok hload) ?_
    dsimp only
    rw [if_neg (by simp)]
    rfl
  have hget : vfsGetRoot disk0Name k = .ok ((0, q), k₁) := by
    unfold vfsGetRoot
    rw [if_pos rfl]
    exact Code.bind_ok hroot
  unfold getDevice
  rw [hscan]
  exact Code.bind_ok hget

theorem lookup_root (hc : Coherent k) (hr : Ready k sfsBlknRoot) {path : Str}
    (hscan : scanPath path = (.device disk0Name, [])) :
    Resolves (vfsLookup cur path) k (.inr sfsBlknRoot) := by
  obtain ⟨q, k₁, hdevice, hb, hq⟩ := getDevice_root cur hc hr hscan
  obtain ⟨n, hn, hi⟩ := hb.info hc hq
  refine ⟨q, k₁, n, Eq.trans (Code.bind_ok hdevice) ?_, hn, hi⟩
  dsimp only
  rw [if_neg (by simp), if_neg (by simp)]
  rfl

/-- A path from the root with a slash in the rest resolves to no inode. -/
theorem lookup_slashed (hc : Coherent k) (hr : Rooted k) {path sub : Str}
    (hscan : scanPath path = (.device disk0Name, sub)) (hslash : slash ∈ sub) :
    ¬ Resolves (vfsLookup cur path) k (.inr ino) := by
  obtain ⟨q, k₁, hdevice, hb, hq⟩ := getDevice_root cur hc hr.ready hscan
  obtain ⟨n, hn, hi⟩ := hb.info hc hq
  have hne : sub ≠ [] := fun hnil => by simp [hnil] at hslash
  have hfails : Code.Wp (vfsLookup cur path) k (fun _ => True) fun r _ => r.1 ≠ 0 := by
    refine .bind_of hdevice ?_
    dsimp only
    rw [if_neg (by simp), if_pos hne]
    refine Code.Wp.bind (Q := fun r _ => r.1 ≠ 0) (vopOp_bind fun m hm _ => ?_)
      fun r _ hret => wp_any.bind fun _ _ _ => Code.Wp.pure hret
    obtain rfl := Option.some.inj (hn.symm.trans hm)
    rw [hi]
    refine Code.Wp.bind_assert (fun _ => ?_) fun _ => trivial
    refine .bind_of (inodeRefInc_eq hn) (Code.Wp.bind_get ?_)
    split
    · exact wp_any.bind fun _ _ _ => Code.Wp.pure (show -eNotdir ≠ 0 by decide)
    refine Code.Wp.bind (Q := fun r _ => r.1 ≠ 0) ?_ fun r _ hret => ?_
    · have hd : Directory (k₁.bump q n 1) sfsBlknRoot := by
        have hd₁ := hb.directory hr.ready.directory
        exact ⟨hd₁.type, hd₁.slots, hd₁.legible, hd₁.kmallocs⟩
      have hused : usedEntries (k₁.bump q n 1).fs sfsBlknRoot = usedEntries k.fs sfsBlknRoot := by
        obtain ⟨m, hfs, -⟩ := hb.fs
        change usedEntries k₁.fs sfsBlknRoot = _
        rw [hfs]
        rfl
      by_cases hlen : sub.length ≤ sfsMaxFnameLen
      · have hsearch := sfsDirentSearchNolock_eq hd hlen
        rw [hused, find_slash hr.names hslash] at hsearch
        refine .bind_of hsearch ?_
        dsimp only
        rw [if_pos (by decide)]
        exact Code.Wp.pure (show -eNoent ≠ 0 by decide)
      · refine Code.Wp.bind (Q := fun _ _ => False) ?_ fun _ _ hf => hf.elim
        exact Code.Wp.bind_assert (fun hle => absurd hle hlen) fun _ => trivial
    · refine wp_any.bind fun _ _ _ => ?_
      rw [if_pos hret]
      exact Code.Wp.pure hret
  rintro ⟨p', k', n', hrun, -⟩
  exact hfails.ok hrun rfl

theorem Standing.getcwd_iff (h : Standing k cur p ino) (ht : PathTo k ino names) (hr : Rooted k)
    {path : Str} {k' : Kernel} (hrun : vfsGetcwd cur len k = .ok ((0, path), k')) :
    Resolves (vfsLookup cur path) k' (.inr ino) ↔ ino = sfsBlknRoot := by
  have hc := h.coherent
  obtain ⟨hb, hpath⟩ := (h.getcwd ht).ok hrun
  obtain rfl : path = _ := hpath rfl
  have hc' : Coherent k' := hb.coherent hc fun ino hin => by cases hin
  have hfs : k'.fs = k.fs := by rw [hb.returned hc]
  have hr' : Rooted k' := by
    refine ⟨hb.ready hc hr.ready, ?_, ?_⟩
    · rw [hfs]
      exact hr.parent
    · rw [hfs]
      exact hr.names
  have hscan : scanPath (disk0Name ++ colon :: slash :: slashed names) = _ := scanPath_disk0
  constructor
  · intro hres
    rcases slashed_dropWhile names with hnil | hin
    · rw [hnil] at hscan
      exact Sum.inr.inj (hres.unique (lookup_root hc' hr'.ready hscan))
    · exact absurd hres (lookup_slashed hc' hr' hscan hin)
  · rintro rfl
    cases ht with
    | root => exact lookup_root hc' hr'.ready hscan
    | child _ hp hne _ _ => exact absurd (Option.some.inj (hr.parent.symm.trans hp)) hne

end Getcwd

section Resolution

variable {k : Kernel} {cur p ino : ℕ} {dirs : List Str}

/-- Paths resolve name by name only where there is nothing to take apart: when they are one name, or
when one of the names is not there. No inode below another directory than the current one is
reached, and the path that `vfs_getcwd` writes leads to the current directory only from the root. -/
theorem paths_resolve_iff (h : Standing k cur p ino) (ht : PathTo k ino dirs) (hr : Rooted k) :
    (∀ names, names ≠ [] → (∀ name ∈ names, Component name) →
      (Resolves (vfsLookup cur (pathOf names)) k (walk k.fs ino names) ↔
        (pathOf names).length ≤ sfsMaxFnameLen ∧
          (names.length = 1 ∨ walk k.fs ino names = .inl (-eNoent)))) ∧
    (∀ names found, names ≠ [] → (∀ name ∈ names, Component name) →
      walk k.fs ino names = .inr found →
      (Resolves (vfsLookup cur (pathOf names)) k (.inr found) ↔
        (pathOf names).length ≤ sfsMaxFnameLen ∧ names.length = 1)) ∧
    ∀ len path k', vfsGetcwd cur len k = .ok ((0, path), k') →
      (Resolves (vfsLookup cur path) k' (.inr ino) ↔ ino = sfsBlknRoot) := by
  refine ⟨fun names hne hnames => h.pathOf_iff hne hnames, fun names found hne hnames hw => ?_,
    fun len path k' hrun => h.getcwd_iff ht hr hrun⟩
  have hiff := h.pathOf_iff hne hnames
  rw [hw] at hiff
  simpa using hiff

/-- The volume with the directory `f`, in whose root the process stands. -/
def nested : Kernel := (boot dirImage [] []).kernel

theorem nested_standing : Standing nested 1 2 sfsBlknRoot := by
  refine ⟨boot_coherent, rfl, ⟨_, rfl, rfl, rfl, ⟨by decide, by decide⟩, by decide⟩,
    boot_ready (by decide +kernel), ?_, ?_⟩
  · have hload : ∀ e ∈ usedEntries nested.fs sfsBlknRoot, nested.fs.InUse e.ino ∧
        (diskInode (nested.fs.disk e.ino)).nlinks ≠ 0 ∧
        (sfsGetOps (diskInode (nested.fs.disk e.ino)).type).isSome = true := by
      unfold Fs.InUse
      decide +kernel
    intro e he _
    obtain ⟨huse, hlinks, hops⟩ := hload e he
    exact ⟨huse, hlinks, Option.isSome_iff_exists.mp hops⟩
  · decide +kernel

theorem nested_rooted : Rooted nested :=
  ⟨nested_standing.ready, by decide +kernel, nested_standing.names⟩

theorem paths_resolve_iff_nested :
    Resolves (vfsLookup 1 (pathOf [[102]])) nested (walk nested.fs sfsBlknRoot [[102]]) ∧
    ¬ Resolves (vfsLookup 1 (pathOf [[102], [46]])) nested
      (walk nested.fs sfsBlknRoot [[102], [46]]) := by
  obtain ⟨hall, -, -⟩ := paths_resolve_iff nested_standing
    (.root nested_standing.ready nested_rooted.parent) nested_rooted
  have hname : ∀ name ∈ [[102], [46]], Component name := by
    intro name hin
    simp only [List.mem_cons, List.not_mem_nil, or_false] at hin
    rcases hin with rfl | rfl <;> exact ⟨by decide, by decide, by decide⟩
  have hone : ∀ name ∈ [[102]], Component name := fun name hin => hname name (by simp_all)
  have hfound : walk nested.fs sfsBlknRoot [[102], [46]] = .inr 5 := by decide +kernel
  refine ⟨(hall _ (by decide) hone).mpr ⟨by decide, .inl rfl⟩, fun hres => ?_⟩
  obtain ⟨-, hlen | hmiss⟩ := (hall _ (by decide) hname).mp hres
  · cases hlen
  · rw [hfound] at hmiss
    cases hmiss

/-- The directory `f` is found in the root and `.` in it, but `f/.` is not found. After a `chdir` to
`f` the path of the current directory is not found either. -/
theorem nested_missed : ∃ k p k' path k₂ q k₃, walk nested.fs sfsBlknRoot [[102], [46]] = .inr 5 ∧
    vfsLookup 1 [102, 47, 46] nested = .ok ((-eNoent, p), k') ∧
    vfsChdir 1 [102] nested = .ok (0, k) ∧
    vfsGetcwd 1 64 k = .ok ((0, path), k₂) ∧ path = disk0Name ++ [58, 47, 102, 47] ∧
    vfsLookup 1 path k₂ = .ok ((-eNoent, q), k₃) := by
  have hwalk : walk nested.fs sfsBlknRoot [[102], [46]] = .inr 5 := by decide +kernel
  have hmiss : (vfsLookup 1 [102, 47, 46] nested).toOption.map (fun r => decide (r.1.1 = -eNoent)) =
      some true := by decide +kernel
  have hmove : (vfsChdir 1 [102] nested).toOption.map (fun r => decide (r.1 = 0 ∧
      (vfsGetcwd 1 64 r.2).toOption.map (fun u =>
        decide (u.1 = (0, disk0Name ++ [58, 47, 102, 47]) ∧
        (vfsLookup 1 (disk0Name ++ [58, 47, 102, 47]) u.2).toOption.map
          (fun v => decide (v.1.1 = -eNoent)) = some true)) = some true)) = some true := by
    decide +kernel
  obtain ⟨⟨_, p⟩, k', hk', rfl⟩ := Code.exists_of_decide hmiss
  obtain ⟨_, k, hk, rfl, hcwd⟩ := Code.exists_of_decide hmove
  obtain ⟨⟨_, path⟩, k₂, hk₂, hpath, hlookup⟩ := Code.exists_of_decide hcwd
  obtain ⟨rfl, rfl⟩ := Prod.mk.inj hpath
  obtain ⟨⟨_, q⟩, k₃, hk₃, rfl⟩ := Code.exists_of_decide hlookup
  exact ⟨k, p, k', _, k₂, q, k₃, hwalk, hk', hk, hk₂, rfl, hk₃⟩

end Resolution

end UCore.Vfs

import UCore.Vfs.Contents
import UCore.Vfs.Listing

/-! # References for the length of a walk

A walk over directories takes references and gives them back. A directory that was not in memory is
loaded for it and taken out of memory again, so that nothing but new addresses remains of the walk.
-/

namespace UCore.Vfs

open Library Sfs

/-- The kernel `k₀` while a walk holds a reference for every occurrence of an inode in `l`. -/
structure Borrows (k₀ : Kernel) (l : List ℕ) (k : Kernel) : Prop where
  rest : Rest k₀ k
  kmallocs : k.kmallocs = k₀.kmallocs
  stdin : k.stdin = k₀.stdin
  brk : k₀.brk ≤ k.brk
  free : ∀ p, k.brk ≤ p → k.inode p = none
  fs : ∃ m : List ℕ, k.fs = { k₀.fs with inodeList := m ++ k₀.fs.inodeList } ∧ m.Nodup ∧
    ∀ ino, ino ∈ m ↔ ino ∈ l ∧ k₀.hash ino = none
  old : ∀ ino p, k₀.hash ino = some p → k.hash ino = some p ∧
    k.inode p = (k₀.inode p).map fun n => { n with refCount := n.refCount + l.count ino }
  new : ∀ ino, k₀.hash ino = none → ino ∈ l → ∃ p, k₀.brk ≤ p ∧ k.hash ino = some p ∧
    k.inode p = some ⟨.sfs ino, .dir, l.count ino, 0, 1⟩
  absent : ∀ ino, k₀.hash ino = none → ino ∉ l → k.hash ino = none
  kept : ∀ p, (∀ ino, k.hash ino ≠ some p) → k.inode p = k₀.inode p

section Books

variable {k₀ k : Kernel} {l l' : List ℕ} {ino p : ℕ} {n : Inode}

theorem Borrows.perm (h : Borrows k₀ l k) (hp : l.Perm l') : Borrows k₀ l' k where
  rest := h.rest
  kmallocs := h.kmallocs
  stdin := h.stdin
  brk := h.brk
  free := h.free
  fs := by
    obtain ⟨m, hfs, hm, hmem⟩ := h.fs
    exact ⟨m, hfs, hm, fun ino => by rw [hmem, hp.mem_iff]⟩
  old ino p hp₀ := by
    rw [← hp.count_eq]
    exact h.old ino p hp₀
  new ino hno hin := by
    rw [← hp.count_eq]
    exact h.new ino hno (hp.mem_iff.mpr hin)
  absent ino hno hin := h.absent ino hno fun hi => hin (hp.mem_iff.mp hi)
  kept := h.kept

variable (hc : Coherent k₀)

include hc

theorem Borrows.refl : Borrows k₀ [] k₀ where
  rest := .refl k₀
  kmallocs := rfl
  stdin := rfl
  brk := le_rfl
  free := hc.brk
  fs := ⟨[], rfl, List.nodup_nil, by simp⟩
  old ino p hp := by
    refine ⟨hp, ?_⟩
    cases k₀.inode p <;> simp
  new _ _ hin := absurd hin List.not_mem_nil
  absent _ hno _ := hno
  kept _ _ := rfl

/-- When everything is given back, only addresses are used up. -/
theorem Borrows.returned (h : Borrows k₀ [] k) : k = { k₀ with brk := k.brk } := by
  have hhash : k.hash = k₀.hash := by
    funext ino
    cases hh : k₀.hash ino with
    | none => exact h.absent ino hh List.not_mem_nil
    | some p => exact (h.old ino p hh).1
  have hinode : k.inode = k₀.inode := by
    funext p
    by_cases hp : ∃ ino, k₀.hash ino = some p
    · obtain ⟨ino, hp⟩ := hp
      rw [(h.old ino p hp).2]
      cases k₀.inode p <;> simp
    · refine h.kept p fun ino hi => hp ⟨ino, ?_⟩
      rwa [hhash] at hi
  have hfs : k.fs = k₀.fs := by
    obtain ⟨m, hfs, -, hm⟩ := h.fs
    have hnil : m = [] := List.eq_nil_iff_forall_not_mem.mpr fun ino hin => by simp [hm] at hin
    rw [hfs, hnil]
    rfl
  cases k
  cases k₀
  simp only at hhash hinode hfs
  have hr := h.rest
  have h₁ := h.kmallocs
  have h₂ := h.stdin
  have h₃ := hr.bootfs
  have h₄ := hr.devnode
  have h₅ := hr.files
  have h₆ := hr.fbrk
  simp only at h₁ h₂ h₃ h₄ h₅ h₆
  subst hhash hinode hfs h₁ h₂ h₃ h₄ h₅ h₆
  rfl

theorem Borrows.found (h : Borrows k₀ l k) (hp : k.hash ino = some p) :
    (k₀.hash ino = some p ∧ ∃ n, k₀.inode p = some n ∧ n.info = .sfs ino ∧
      k.inode p = some { n with refCount := n.refCount + l.count ino }) ∨
    (k₀.hash ino = none ∧ ino ∈ l ∧ k₀.brk ≤ p ∧
      k.inode p = some ⟨.sfs ino, .dir, l.count ino, 0, 1⟩) := by
  cases hh : k₀.hash ino with
  | some q =>
    obtain ⟨hq, hk⟩ := h.old ino q hh
    obtain rfl := Option.some.inj (hq.symm.trans hp)
    obtain ⟨n, hn, hi⟩ := hc.hash ino q hh
    rw [hn] at hk
    exact .inl ⟨rfl, n, hn, hi, hk⟩
  | none =>
    by_cases hin : ino ∈ l
    · obtain ⟨q, hle, hq, hk⟩ := h.new ino hh hin
      obtain rfl := Option.some.inj (hq.symm.trans hp)
      exact .inr ⟨rfl, hin, hle, hk⟩
    · rw [h.absent ino hh hin] at hp
      cases hp

theorem Borrows.info (h : Borrows k₀ l k) (hp : k.hash ino = some p) :
    ∃ n, k.inode p = some n ∧ n.info = .sfs ino := by
  rcases h.found hc hp with ⟨-, n, -, hi, hk⟩ | ⟨-, -, -, hk⟩
  · exact ⟨_, hk, hi⟩
  · exact ⟨_, hk, rfl⟩

theorem Borrows.injective (h : Borrows k₀ l k) {j : ℕ} (hi : k.hash ino = some p)
    (hj : k.hash j = some p) : ino = j := by
  obtain ⟨n, hn, he⟩ := h.info hc hi
  obtain ⟨m, hm, he'⟩ := h.info hc hj
  obtain rfl := Option.some.inj (hn.symm.trans hm)
  exact Info.sfs.inj (he.symm.trans he')

/-- Another number of references of one inode. -/
theorem Borrows.setCount (h : Borrows k₀ l k) (hp : k.hash ino = some p) (hn : k.inode p = some n)
    (hne : ∀ j ≠ ino, l'.count j = l.count j) (hin : k₀.hash ino = none → ino ∈ l') {e : ℤ}
    (he : (l'.count ino : ℤ) = l.count ino + e) :
    Borrows k₀ l' (k.setInode p (some { n with refCount := n.refCount + e })) := by
  have hmem : ∀ j ≠ ino, (j ∈ l' ↔ j ∈ l) := fun j hj => by
    rw [← List.count_pos_iff, ← List.count_pos_iff, hne j hj]
  have hmem' : k₀.hash ino = none → ino ∈ l := fun hno => by
    by_contra hni
    rw [h.absent ino hno hni] at hp
    cases hp
  have hother : ∀ {j q : ℕ} {o : Option Inode}, j ≠ ino → k.hash j = some q →
      (k.setInode p o).inode q = k.inode q := fun hj hq =>
    setInode_inode_ne fun hqp => hj (h.injective hc (hqp ▸ hq) hp)
  refine ⟨h.rest.trans setInode_rest, h.kmallocs, h.stdin, h.brk, fun q hq => ?_, ?_,
    fun j q hj => ?_, fun j hno hj => ?_, fun j hno hj => ?_, fun q hq => ?_⟩
  · have hqp : q ≠ p := by
      rintro rfl
      rw [h.free q hq] at hn
      cases hn
    rw [setInode_inode_ne hqp]
    exact h.free q hq
  · obtain ⟨m, hfs, hm, hiff⟩ := h.fs
    refine ⟨m, hfs, hm, fun j => ?_⟩
    rw [hiff]
    by_cases hj : j = ino
    · subst hj
      exact ⟨fun hx => ⟨hin hx.2, hx.2⟩, fun hx => ⟨hmem' hx.2, hx.2⟩⟩
    · rw [hmem j hj]
  · obtain ⟨hq, hk⟩ := h.old j q hj
    refine ⟨hq, ?_⟩
    by_cases hji : j = ino
    · subst hji
      obtain rfl := Option.some.inj (hq.symm.trans hp)
      rw [setInode_inode]
      rw [hn] at hk
      obtain ⟨n₀, hn₀, rfl⟩ := Option.map_eq_some_iff.mp hk.symm
      rw [hn₀, Option.map_some, he, add_assoc]
    · rw [hother hji hq, hk, hne j hji]
  · by_cases hji : j = ino
    · subst hji
      obtain ⟨q, hle, hq, hk⟩ := h.new j hno (hmem' hno)
      obtain rfl := Option.some.inj (hq.symm.trans hp)
      refine ⟨q, hle, hq, ?_⟩
      rw [hn] at hk
      obtain rfl := Option.some.inj hk
      rw [setInode_inode, he]
    · obtain ⟨q, hle, hq, hk⟩ := h.new j hno ((hmem j hji).mp hj)
      refine ⟨q, hle, hq, ?_⟩
      rw [hother hji hq, hk, hne j hji]
  · refine h.absent j hno fun hjl => ?_
    by_cases hji : j = ino
    · subst hji
      exact hj (hin hno)
    · exact hj ((hmem j hji).mpr hjl)
  · have hqp : q ≠ p := by
      rintro rfl
      exact hq ino hp
    rw [setInode_inode_ne hqp]
    exact h.kept q hq

/-- An inode that was not in memory is loaded. -/
theorem Borrows.load (h : Borrows k₀ l k) (hno : k.hash ino = none) :
    Borrows k₀ (ino :: l) { k.setInode k.brk (some ⟨.sfs ino, .dir, 1, 0, 1⟩) with
      brk := k.brk + 1
      hash := Function.update k.hash ino (some k.brk)
      fs := { k.fs with inodeList := ino :: k.fs.inodeList } } := by
  have hno₀ : k₀.hash ino = none := by
    cases hh : k₀.hash ino with
    | none => rfl
    | some p =>
      rw [(h.old ino p hh).1] at hno
      cases hno
  have hni : ino ∉ l := fun hin => by
    obtain ⟨p, -, hp, -⟩ := h.new ino hno₀ hin
    rw [hp] at hno
    cases hno
  have hcount : ∀ j ≠ ino, (ino :: l).count j = l.count j := fun j hj =>
    List.count_cons_of_ne hj.symm
  have hhash : ∀ j ≠ ino, Function.update k.hash ino (some k.brk) j = k.hash j := fun j hj =>
    Function.update_of_ne hj ..
  have hinode : ∀ {j q : ℕ} {o : Option Inode}, k.hash j = some q →
      (k.setInode k.brk o).inode q = k.inode q := by
    intro j q o hq
    refine setInode_inode_ne fun hqb => ?_
    obtain ⟨n, hn, -⟩ := h.info hc hq
    rw [h.free q hqb.ge] at hn
    cases hn
  refine ⟨h.rest.trans ⟨rfl, rfl, rfl, rfl⟩, h.kmallocs, h.stdin, h.brk.trans (Nat.le_succ _),
    fun q hq => ?_, ?_, fun j q hj => ?_, fun j hno' hj => ?_, fun j hno' hj => ?_, fun q hq => ?_⟩
  · have hlt : k.brk + 1 ≤ q := hq
    exact (setInode_inode_ne (by omega)).trans (h.free q (by omega))
  · obtain ⟨m, hfs, hm, hiff⟩ := h.fs
    refine ⟨ino :: m, by rw [hfs]; rfl,
      List.nodup_cons.mpr ⟨fun hin => hni ((hiff ino).mp hin).1, hm⟩,
      fun j => ?_⟩
    rw [List.mem_cons, List.mem_cons, hiff]
    by_cases hj : j = ino
    · subst hj
      simp [hno₀]
    · simp [hj]
  · have hji : j ≠ ino := by
      rintro rfl
      rw [hno₀] at hj
      cases hj
    obtain ⟨hq, hk⟩ := h.old j q hj
    refine ⟨(hhash j hji).trans hq, ?_⟩
    rw [hcount j hji, ← hk]
    exact hinode hq
  · by_cases hji : j = ino
    · subst hji
      refine ⟨k.brk, h.brk, Function.update_self .., setInode_inode.trans ?_⟩
      rw [List.count_cons_self, List.count_eq_zero.mpr hni]
      rfl
    · obtain ⟨q, hle, hq, hk⟩ := h.new j hno' ((List.mem_cons.mp hj).resolve_left hji)
      refine ⟨q, hle, (hhash j hji).trans hq, ?_⟩
      rw [hcount j hji, ← hk]
      exact hinode hq
  · rw [List.mem_cons, not_or] at hj
    exact (hhash j hj.1).trans (h.absent j hno' hj.2)
  · have hqb : q ≠ k.brk := by
      rintro rfl
      exact hq ino (Function.update_self ..)
    refine (setInode_inode_ne hqb).trans (h.kept q fun j hj => ?_)
    have hji : j ≠ ino := by
      rintro rfl
      rw [hno] at hj
      cases hj
    exact hq j ((hhash j hji).trans hj)

/-- An inode that was not in memory is taken out again. -/
theorem Borrows.remove (h : Borrows k₀ (ino :: l) k) (hno : k₀.hash ino = none) (hni : ino ∉ l)
    (hp : k.hash ino = some p) : Borrows k₀ l { k.setInode p none with
      hash := Function.update k.hash ino none
      fs := { k.fs with inodeList := k.fs.inodeList.erase ino } } := by
  have hcount : ∀ j ≠ ino, (ino :: l).count j = l.count j := fun j hj =>
    List.count_cons_of_ne hj.symm
  have hhash : ∀ j ≠ ino, Function.update k.hash ino none j = k.hash j := fun j hj =>
    Function.update_of_ne hj ..
  have hinode : ∀ {j q : ℕ}, j ≠ ino → k.hash j = some q →
      (k.setInode p none).inode q = k.inode q := fun hj hq =>
    setInode_inode_ne fun hqp => hj (h.injective hc (hqp ▸ hq) hp)
  refine ⟨h.rest.trans ⟨rfl, rfl, rfl, rfl⟩, h.kmallocs, h.stdin, h.brk, fun q hq => ?_, ?_,
    fun j q hj => ?_, fun j hno' hj => ?_, fun j hno' hj => ?_, fun q hq => ?_⟩
  · by_cases hqp : q = p
    · subst hqp
      exact Function.update_self ..
    · exact (setInode_inode_ne hqp).trans (h.free q hq)
  · obtain ⟨m, hfs, hm, hiff⟩ := h.fs
    have hin : ino ∈ m := (hiff ino).mpr ⟨List.mem_cons_self, hno⟩
    refine ⟨m.erase ino, ?_, hm.erase ino, fun j => ?_⟩
    · rw [hfs]
      exact congrArg (fun x => { k₀.fs with inodeList := x }) (List.erase_append_left _ hin)
    · rw [hm.mem_erase_iff, hiff, List.mem_cons]
      by_cases hj : j = ino
      · subst hj
        simp [hni]
      · simp [hj]
  · have hji : j ≠ ino := by
      rintro rfl
      rw [hno] at hj
      cases hj
    obtain ⟨hq, hk⟩ := h.old j q hj
    refine ⟨(hhash j hji).trans hq, ?_⟩
    rw [← hcount j hji, ← hk]
    exact hinode hji hq
  · have hji : j ≠ ino := fun hj' => hni (hj' ▸ hj)
    obtain ⟨q, hle, hq, hk⟩ := h.new j hno' (List.mem_cons_of_mem _ hj)
    refine ⟨q, hle, (hhash j hji).trans hq, ?_⟩
    rw [← hcount j hji, ← hk]
    exact hinode hji hq
  · by_cases hji : j = ino
    · subst hji
      exact Function.update_self ..
    · refine (hhash j hji).trans (h.absent j hno' fun hin => ?_)
      exact hj ((List.mem_cons.mp hin).resolve_left hji)
  · by_cases hqp : q = p
    · subst hqp
      refine (Function.update_self ..).trans ?_
      -- the address is a new one
      rcases h.found hc hp with ⟨hh, -⟩ | ⟨-, -, hle, -⟩
      · rw [hno] at hh
        cases hh
      · exact (hc.brk q hle).symm
    · refine (setInode_inode_ne hqp).trans (h.kept q fun j hj => ?_)
      by_cases hji : j = ino
      · subst hji
        exact hqp (Option.some.inj (hj.symm.trans hp))
      · exact hq j ((hhash j hji).trans hj)

end Books

/-- A directory that can be loaded and read. Its record is the one on the device unless it is in
memory, where it has a holder. -/
structure Ready (k : Kernel) (ino : ℕ) : Prop where
  directory : Directory k ino
  inUse : k.fs.InUse ino
  links : (k.fs.din ino).nlinks ≠ 0
  record : k.hash ino = none → k.fs.sin ino = ⟨diskInode (k.fs.disk ino), false⟩
  held : ∀ p n, k.hash ino = some p → k.inode p = some n → 0 < n.refCount

section Runs

variable {k₀ k : Kernel} {l : List ℕ} {ino p : ℕ}

theorem Borrows.directory (h : Borrows k₀ l k) (hd : Directory k₀ ino) : Directory k ino := by
  obtain ⟨m, hfs, -⟩ := h.fs
  obtain ⟨htype, hslots, ⟨hquiet, hbits, hind, huse⟩, hk⟩ := hd
  refine ⟨?_, ?_, ?_, h.kmallocs.trans hk⟩
  · rw [hfs]
    exact htype
  · rw [hfs]
    exact hslots
  · rw [hfs]
    exact ⟨hquiet, hbits, hind, huse⟩

theorem kmalloc_ok (h : k.kmallocs = []) : kmalloc k = .ok (true, k) := by
  unfold kmalloc
  rw [h]
  congr 2
  rw [List.tail_nil, ← h]

theorem inodeRefDec_keeps {n : Inode} (hn : k.inode p = some n) (hlt : 1 < n.refCount) :
    inodeRefDec p k = .ok ((), k.setInode p (some { n with refCount := n.refCount - 1 })) := by
  have hpos : 0 < n.refCount := by omega
  refine Eq.trans (Code.bind_ok (deref_eq hn)) (Eq.trans (Code.assert_bind hpos) ?_)
  refine Eq.trans Code.modify_bind ?_
  rw [if_neg (by omega)]
  rfl

/-- The last reference of an inode that was not in memory: it is clean and has links, so that
nothing is written. -/
theorem inodeRefDec_last (h : Borrows k₀ (ino :: l) k) (hr : Ready k₀ ino)
    (hno : k₀.hash ino = none)
    (hn : k.inode p = some ⟨.sfs ino, .dir, 1, 0, 1⟩) :
    inodeRefDec p k = .ok ((), { k.setInode p none with
      hash := Function.update k.hash ino none
      fs := { k.fs with inodeList := k.fs.inodeList.erase ino } }) := by
  obtain ⟨m, hfs, -⟩ := h.fs
  have hsin : k.fs.sin ino = ⟨diskInode (k.fs.disk ino), false⟩ := by
    rw [hfs]
    exact hr.record hno
  have hlinks : (k.fs.din ino).nlinks ≠ 0 := by
    rw [hfs]
    exact hr.links
  -- the inode without references, and the one that is reclaimed
  obtain ⟨k₁, hk₁⟩ : ∃ k₁, k₁ = k.setInode p (some ⟨.sfs ino, .dir, 0, 0, 1⟩) := ⟨_, rfl⟩
  obtain ⟨k₂, hk₂⟩ : ∃ k₂, k₂ = k.setInode p (some ⟨.sfs ino, .dir, 0, 0, 0⟩) := ⟨_, rfl⟩
  have hn₁ : k₁.inode p = some ⟨.sfs ino, .dir, 0, 0, 1⟩ := by rw [hk₁, setInode_inode]
  have hn₂ : k₂.inode p = some ⟨.sfs ino, .dir, 0, 0, 0⟩ := by rw [hk₂, setInode_inode]
  have hfs₂ : k₂.fs = k.fs := by
    rw [hk₂]
    rfl
  have hset : k₁.setInode p (some ⟨.sfs ino, .dir, 0, 0, 0⟩) = k₂ := by
    rw [hk₁, hk₂, setInode_setInode]
  have hsync : reclaimSync p ino k₂ = .ok (0, k₂) := by
    refine Eq.trans Code.get_bind ?_
    rw [hfs₂, if_neg hlinks]
    refine Eq.trans (Code.bind_ok (a := 0) (t := k₂) rfl) ?_
    rw [if_neg (by simp)]
    refine Eq.trans Code.get_bind ?_
    rw [hfs₂, hsin, if_neg (by simp)]
    rfl
  have hfree : reclaimFree p ino k₂ = .ok ((), { k.setInode p none with
      hash := Function.update k.hash ino none
      fs := { k.fs with inodeList := k.fs.inodeList.erase ino } }) := by
    obtain ⟨k₃, hk₃⟩ : ∃ k₃, k₃ = { k₂ with
        hash := Function.update k.hash ino none
        fs := { k.fs with inodeList := k.fs.inodeList.erase ino } } := ⟨_, rfl⟩
    have hremove : sfsRemoveLinks ino k₂ = .ok ((), k₃) := by
      rw [hk₃, hk₂]
      rfl
    have hblocks : reclaimBlocks ino k₃.fs = .ok ((), k₃.fs) := by
      have hlinks₃ : (k₃.fs.din ino).nlinks ≠ 0 := by
        rw [hk₃]
        exact hlinks
      refine Eq.trans Code.get_bind ?_
      rw [if_neg hlinks₃]
      rfl
    have hforget : k₃.setFs (Fs.forget k₃.fs ino) = k₃ := by
      have hsame : Fs.forget k₃.fs ino = k₃.fs := by
        have hsin₃ : k₃.fs.sin ino = ⟨diskInode (k₃.fs.disk ino), false⟩ := by
          rw [hk₃]
          exact hsin
        unfold Fs.forget Fs.setSin
        rw [← hsin₃, Function.update_eq_self]
      rw [hsame]
      rfl
    have hn₃ : k₃.inode p = some ⟨.sfs ino, .dir, 0, 0, 0⟩ := by
      rw [hk₃]
      exact hn₂
    refine Eq.trans (Code.bind_ok hremove) (Eq.trans (Code.bind_ok (volume_ok hblocks)) ?_)
    refine Eq.trans Code.modify_bind ?_
    rw [hforget]
    refine Eq.trans (Code.bind_ok (deref_eq hn₃)) (Eq.trans (Code.assert_bind ⟨rfl, rfl⟩) ?_)
    rw [hk₃, hk₂]
    unfold setInode Kernel.setInode
    simp
  have hreclaim : sfsReclaim p ino k₁ = .ok (0, { k.setInode p none with
      hash := Function.update k.hash ino none
      fs := { k.fs with inodeList := k.fs.inodeList.erase ino } }) := by
    refine Eq.trans (Code.bind_ok (deref_eq hn₁)) (Eq.trans (Code.assert_bind Int.one_pos) ?_)
    refine Eq.trans Code.modify_bind ?_
    dsimp only
    rw [if_neg (by simp), show (1 : ℤ) - 1 = 0 from rfl, hset]
    refine Eq.trans (Code.bind_ok hsync) ?_
    rw [if_neg (by simp)]
    exact Eq.trans (Code.bind_ok hfree) rfl
  have hop : vopOp p .vopReclaim k₁ = .ok (⟨.sfs ino, .dir, 0, 0, 1⟩, k₁) := by
    have hmax : 0 < maxInodeCount := by decide
    exact vopOp_eq hn₁ rfl ⟨le_rfl, le_rfl⟩ ⟨hmax, hmax⟩
  refine Eq.trans (Code.bind_ok (deref_eq hn)) (Eq.trans (Code.assert_bind Int.one_pos) ?_)
  refine Eq.trans Code.modify_bind ?_
  dsimp only
  rw [if_pos (by decide), show (1 : ℤ) - 1 = 0 from rfl, ← hk₁]
  exact Eq.trans (Code.bind_ok (Eq.trans (Code.bind_ok hop) hreclaim)) rfl

variable (hc : Coherent k₀)

include hc

/-- In the middle of a walk the inodes in memory and the hash list still belong together. -/
theorem Borrows.coherent (h : Borrows k₀ l k) (hr : ∀ ino ∈ l, Ready k₀ ino) : Coherent k := by
  have hsfs : ∀ p n ino, k.inode p = some n → n.info = .sfs ino → k.hash ino = some p := by
    intro p n ino hn hi
    by_cases hp : ∃ j, k.hash j = some p
    · obtain ⟨j, hj⟩ := hp
      obtain ⟨m, hm, he⟩ := h.info hc hj
      obtain rfl := Option.some.inj (hn.symm.trans hm)
      obtain rfl := Info.sfs.inj (hi.symm.trans he)
      exact hj
    · rw [h.kept p (not_exists.mp hp)] at hn
      exact (h.old ino p (hc.sfs p n ino hn hi)).1
  refine ⟨h.free, ?_, fun p n hn => ?_, hsfs, fun ino p hp => h.info hc hp⟩
  · rw [h.rest.fbrk, h.rest.files]
    exact hc.fbrk
  · by_cases hp : ∃ j, k.hash j = some p
    · obtain ⟨j, hj⟩ := hp
      rcases h.found hc hj with ⟨hj₀, m, hm, -, hk⟩ | ⟨-, hin, -, hk⟩
      · obtain rfl := Option.some.inj (hn.symm.trans hk)
        have hrec := hc.reclaim p m hm
        by_cases hin : j ∈ l
        · have hpos := (hr j hin).held p m hj₀ hm
          rw [if_neg (by omega)] at hrec
          dsimp only
          rw [hrec, if_neg (by omega)]
        · dsimp only
          rw [List.count_eq_zero.mpr hin, Nat.cast_zero, add_zero]
          exact hrec
      · obtain rfl := Option.some.inj (hn.symm.trans hk)
        have := List.count_pos_iff.mpr hin
        dsimp only
        rw [if_neg (by omega)]
    · rw [h.kept p (not_exists.mp hp)] at hn
      exact hc.reclaim p n hn

theorem Borrows.ready (h : Borrows k₀ l k) (hr : Ready k₀ ino) : Ready k ino := by
  have hd := h.directory hr.directory
  obtain ⟨m, hfs, -⟩ := h.fs
  refine ⟨hd, ?_, ?_, fun hno => ?_, fun p n hp hn => ?_⟩
  · rw [hfs]
    exact hr.inUse
  · rw [hfs]
    exact hr.links
  · rw [hfs]
    refine hr.record ?_
    cases hh : k₀.hash ino with
    | none => rfl
    | some q =>
      rw [(h.old ino q hh).1] at hno
      cases hno
  · rcases h.found hc hp with ⟨hp₀, m, hm, -, hk⟩ | ⟨-, hin, -, hk⟩
    · obtain rfl := Option.some.inj (hn.symm.trans hk)
      have := hr.held p m hp₀ hm
      dsimp only
      omega
    · obtain rfl := Option.some.inj (hn.symm.trans hk)
      have := List.count_pos_iff.mpr hin
      dsimp only
      omega

theorem inodeRefInc_borrows (h : Borrows k₀ l k) (hp : k.hash ino = some p) {n : Inode}
    (hn : k.inode p = some n) : ∃ k', inodeRefInc p k = .ok (n.refCount + 1, k') ∧
      Borrows k₀ (ino :: l) k' ∧ k'.hash = k.hash := by
  refine ⟨_, inodeRefInc_eq hn, ?_, rfl⟩
  refine h.setCount hc hp hn (fun j hj => List.count_cons_of_ne hj.symm)
    (fun _ => List.mem_cons_self) ?_
  rw [List.count_cons_self]
  push_cast
  rfl

theorem sfsLoadInode_borrows (h : Borrows k₀ l k) (hr : Ready k₀ ino) :
    ∃ p k', sfsLoadInode ino k = .ok ((0, p), k') ∧ Borrows k₀ (ino :: l) k' ∧
      k'.hash ino = some p ∧ ∀ j q, k.hash j = some q → k'.hash j = some q := by
  cases hh : k.hash ino with
  | some p =>
    obtain ⟨n, hn, hpos⟩ : ∃ n, k.inode p = some n ∧ 0 < n.refCount := by
      rcases h.found hc hh with ⟨hp, n, hn, -, hk⟩ | ⟨-, hin, -, hk⟩
      · have := hr.held p n hp hn
        refine ⟨_, hk, ?_⟩
        dsimp only
        omega
      · have := List.count_pos_iff.mpr hin
        refine ⟨_, hk, ?_⟩
        dsimp only
        omega
    obtain ⟨k', hinc, hb, hhash⟩ := inodeRefInc_borrows hc h hh hn
    refine ⟨p, k', ?_, hb, by rw [hhash, hh], fun j q hq => by rw [hhash, hq]⟩
    have hlookup : lookupSfsNolock ino k = .ok (some p, k') := by
      refine Eq.trans Code.get_bind ?_
      rw [hh]
      refine Eq.trans (Code.bind_ok hinc) ?_
      rw [if_neg (by omega)]
      rfl
    exact Eq.trans (Code.bind_ok hlookup) rfl
  | none =>
    have hd := h.directory hr.directory
    obtain ⟨m, hfs, -⟩ := h.fs
    have hsin : k.fs.sin ino = ⟨diskInode (k.fs.disk ino), false⟩ := by
      have hno : k₀.hash ino = none := by
        cases hh' : k₀.hash ino with
        | none => rfl
        | some q =>
          rw [(h.old ino q hh').1] at hh
          cases hh
      rw [hfs]
      exact hr.record hno
    have hdin : k.fs.din ino = diskInode (k.fs.disk ino) := by rw [Fs.din, hsin]
    have huse : k.fs.InUse ino := by
      rw [hfs]
      exact hr.inUse
    have hlinks : (k.fs.din ino).nlinks ≠ 0 := by
      rw [hfs]
      exact hr.links
    have hsame : k.fs.setSin ino (fun _ => ⟨k.fs.din ino, false⟩) = k.fs := by
      unfold Fs.setSin
      rw [hdin, ← hsin, Function.update_eq_self]
    refine ⟨k.brk, _, ?_, h.load hc hh, Function.update_self .., fun j q hq => ?_⟩
    · have hlookup : lookupSfsNolock ino k = .ok (none, k) := by
        refine Eq.trans Code.get_bind ?_
        rw [hh]
        rfl
      have hread : sfsRbuf zeros 0 sizeofDiskInode ino 0 k.fs =
          .ok ((0, memcpy zeros 0 (k.fs.disk ino) 0 sizeofDiskInode), k.fs) :=
        sfsRbuf_read hd.legible.quiet huse (by decide) (by decide)
      have hcreate : sfsCreateInode (k.fs.din ino) ino k = .ok ((0, k.brk),
          { k.setInode k.brk (some ⟨.sfs ino, .dir, 1, 0, 1⟩) with brk := k.brk + 1 }) := by
        unfold sfsCreateInode
        refine Eq.trans (Code.bind_ok (kmalloc_ok hd.kmallocs)) ?_
        rw [if_pos rfl, sfsGetOps, if_pos hd.type]
        refine Eq.trans Code.get_bind (Eq.trans Code.modify_bind ?_)
        rw [hsame]
        rfl
      refine Eq.trans (Code.bind_ok hlookup) (Eq.trans (Code.bind_ok (kmalloc_ok hd.kmallocs)) ?_)
      rw [if_pos rfl]
      refine Eq.trans (Code.bind_ok (volume_ok (assertInuse_ok hd.legible.bits huse))) ?_
      refine Eq.trans (Code.bind_ok (volume_ok hread)) ?_
      dsimp only
      rw [if_neg (by simp), diskInode_read, ← hdin]
      refine Eq.trans (Code.assert_bind hlinks) (Eq.trans (Code.bind_ok hcreate) ?_)
      dsimp only
      rw [if_neg (by simp)]
      rfl
    · have hji : j ≠ ino := by
        rintro rfl
        rw [hh] at hq
        cases hq
      exact (Function.update_of_ne hji ..).trans hq

/-- A reference is given back. -/
theorem inodeRefDec_borrows (h : Borrows k₀ (ino :: l) k) (hr : Ready k₀ ino)
    (hp : k.hash ino = some p) : ∃ k', inodeRefDec p k = .ok ((), k') ∧ Borrows k₀ l k' ∧
      ∀ j q, j ∈ l ∨ k₀.hash j ≠ none → k.hash j = some q → k'.hash j = some q := by
  have hcount : (ino :: l).count ino = l.count ino + 1 := List.count_cons_self
  -- another reference stays
  have hstays : ∀ n : Inode, k.inode p = some n → 1 < n.refCount → (k₀.hash ino = none → ino ∈ l) →
      ∃ k', inodeRefDec p k = .ok ((), k') ∧ Borrows k₀ l k' ∧
        ∀ j q, j ∈ l ∨ k₀.hash j ≠ none → k.hash j = some q → k'.hash j = some q := by
    intro n hn hlt hin
    refine ⟨_, inodeRefDec_keeps hn hlt, ?_, fun j q _ hq => hq⟩
    refine h.setCount hc hp hn (fun j hj => (List.count_cons_of_ne hj.symm).symm) hin ?_
    rw [hcount]
    push_cast
    omega
  rcases h.found hc hp with ⟨hp₀, n, hn, -, hk⟩ | ⟨hno, -, -, hk⟩
  · have hpos := hr.held p n hp₀ hn
    refine hstays _ hk ?_ fun hno => ?_
    · dsimp only
      rw [hcount]
      omega
    · rw [hp₀] at hno
      cases hno
  · by_cases hin : ino ∈ l
    · have := List.count_pos_iff.mpr hin
      refine hstays _ hk ?_ fun _ => hin
      dsimp only
      rw [hcount]
      omega
    · rw [hcount, List.count_eq_zero.mpr hin] at hk
      refine ⟨_, inodeRefDec_last h hr hno hk, h.remove hc hno hin hp, fun j q hj hq => ?_⟩
      have hji : j ≠ ino := by
        rintro rfl
        exact hj.elim hin fun hne => hne hno
      exact (Function.update_of_ne hji ..).trans hq

end Runs

end UCore.Vfs

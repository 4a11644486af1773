import UCore.Library.Run
import UCore.Sfs.Truncate

/-! # Block accounting

A consistent volume stays consistent over any sequence of reads, writes, truncations and seeks, also
when transfers fail, and the assertions about blocks in use never fail.
-/

namespace UCore.Sfs

open Library

/-- A call of one of the file operations. -/
inductive FileOp
  | io (ino : ℕ) (buf : Buf) (offset : ℤ) (len : ℕ) (write : Bool)
  | truncfile (ino : ℕ) (len : ℤ)
  | tryseek (ino : ℕ) (pos : ℤ)

namespace FileOp

def ino : FileOp → ℕ
  | io ino _ _ _ _ => ino
  | truncfile ino _ => ino
  | tryseek ino _ => ino

/-- The error code that the call returns. -/
def run : FileOp → Prog ℤ
  | io ino buf offset len write => do
    let (ret, _, _) ← sfsIoNolock ino buf offset len write
    return ret
  | truncfile ino len => sfsTruncfile ino len
  | tryseek ino pos => sfsTryseek ino pos

/-- The call on an inode of the volume returns, and it leaves the state `t`. -/
def Step (I : Set ℕ) (s : Fs) (op : FileOp) (t : Fs) : Prop :=
  op.ino ∈ I ∧ ∃ ret, op.run s = .ok (ret, t)

/-- The state that a call leaves. -/
def exec (s : Fs) (op : FileOp) : Option Fs :=
  match op.run s with
  | .ok (_, t) => some t
  | .error _ => none

theorem runs_of_exec {I : Set ℕ} {s t : Fs} {l : List FileOp} (h : l.foldlM exec s = some t)
    (hl : ∀ op ∈ l, op.ino ∈ I) : Runs (fun s op t => op.Step I s t) s l t := by
  induction l generalizing s with
  | nil =>
    obtain rfl : s = t := by simpa using h
    exact .nil s
  | cons op l ih =>
    obtain ⟨u, hu, hl'⟩ : ∃ u, exec s op = some u ∧ l.foldlM exec u = some t := by
      simpa [Option.bind_eq_some_iff] using h
    refine .cons ⟨hl op (by simp), ?_⟩ (ih hl' fun op hop => hl op (by simp [hop]))
    unfold exec at hu
    split at hu
    · rename_i ret v hrun
      obtain rfl := Option.some.inj hu
      exact ⟨ret, hrun⟩
    · cases hu

end FileOp

section Works

variable {s t : Fs} {O : ℕ → Owner} {I : Set ℕ} {ino len : ℕ} {offset length pos : ℤ} {write : Bool}
  {buf : Buf}

theorem Wf.works_size {O' : ℕ → Owner} {n : ℕ} (h : Works I ino s O t O') :
    Works I ino s O (t.setSin ino fun x => { din := { x.din with size := n }, dirty := true }) O' :=
  h.trans h.wf.works_setSize.1

theorem Ranged.works {r : ℤ × ℕ × Buf} (h : Ranged I ino s O buf offset len write r t)
    (hwf : Wf s O I) : ∃ O', Works I ino s O t O' := by
  rcases h with _ | _ | ⟨-, -, hm⟩
  · exact ⟨O, .refl hwf⟩
  · exact ⟨O, .refl hwf⟩
  · exact ⟨_, hm.works.trans hm.works.wf.works_cover.1⟩

theorem Truncated.works {ret : ℤ} (h : Truncated I ino s O length ret t) (hwf : Wf s O I) :
    ∃ O', Works I ino s O t O' := by
  rcases h with _ | _ | ⟨-, -, -, -, hk⟩ | ⟨-, -, -, hk⟩ | ⟨-, -, -, hk⟩ | ⟨-, -, -, hk⟩
  · exact ⟨O, .refl hwf⟩
  · exact ⟨O, .refl hwf⟩
  · exact ⟨_, hk.works⟩
  · exact ⟨_, hk.works⟩
  · exact ⟨_, Wf.works_size hk.works⟩
  · exact ⟨_, Wf.works_size hk.works⟩

theorem Sought.works {ret : ℤ} (h : Sought I ino s O pos ret t) (hwf : Wf s O I) :
    ∃ O', Works I ino s O t O' := by
  rcases h with _ | _ | ⟨-, -, ht⟩
  · exact ⟨O, .refl hwf⟩
  · exact ⟨O, .refl hwf⟩
  · exact ht.works hwf

/-- The panics that a call of a file operation can end in. -/
def FilePanic (e : Panic) : Prop :=
  e = .isDir ∨ e = .pastBlocks ∨ e = .outOfRange ∨ e = .truncBlocks

theorem Wf.op_wp (h : Wf s O I) {op : FileOp} (hop : op.ino ∈ I) :
    Code.Wp op.run s FilePanic fun _ t => ∃ O', Works I op.ino s O t O' := by
  cases op with
  | io ino buf offset len write =>
    by_cases htype : (s.din ino).type = sfsTypeDir
    · refine .of_error (e := .isDir) ?_ (.inl rfl)
      refine Code.bind_error ?_
      exact Code.bind_error (Code.assert_false (not_not.mpr htype))
    · refine Code.Wp.bind ((h.io_wp hop htype).mono ?_ fun _ _ hq => hq) ?_
      · rintro e ⟨-, -, ⟨he, -⟩ | ⟨he, -⟩⟩
        · exact .inr (.inl he)
        · exact .inr (.inr (.inl he))
      · rintro ⟨ret, alen, buf'⟩ t hr
        exact Code.Wp.pure (hr.works h)
  | truncfile ino len =>
    refine (h.truncfile_wp hop).mono ?_ fun _ _ ht => ht.works h
    rintro e ⟨-, ⟨he, -⟩ | ⟨he, -⟩⟩
    · exact .inr (.inr (.inr he))
    · exact .inr (.inr (.inl he))
  | tryseek ino pos =>
    refine (h.tryseek_wp hop).mono ?_ fun _ _ ht => ht.works h
    rintro e ⟨-, -, he, -⟩
    exact .inr (.inr (.inl he))

theorem FileOp.Step.consistent {op : FileOp} (h : op.Step I s t) (hs : Consistent s I) :
    Consistent t I := by
  obtain ⟨O, hwf⟩ := hs
  obtain ⟨hop, ret, hrun⟩ := h
  obtain ⟨O', hw⟩ := (hwf.op_wp hop).ok hrun
  exact ⟨O', hw.wf⟩

theorem Runs.consistent {l : List FileOp} (h : Runs (fun s op t => op.Step I s t) s l t)
    (hs : Consistent s I) : Consistent t I :=
  h.invariant (fun _ _ _ hp hstep => hstep.consistent hp) hs

end Works

/-- The map of an inode of the volume holds a block: at an index, or as its index block. -/
inductive Holds (s : Fs) (I : Set ℕ) : ℕ × Option ℕ → ℕ → Prop
  | slot {ino i : ℕ} : ino ∈ I → i < maxBlocks → s.slot ino i ≠ 0 →
      Holds s I (ino, some i) (s.slot ino i)
  | index {ino : ℕ} : ino ∈ I → (s.din ino).indirect ≠ 0 →
      Holds s I (ino, none) (s.din ino).indirect

/-- The blocks of the volume are accounted for. -/
structure Accounted (s : Fs) (I : Set ℕ) : Prop where
  once : ∀ p q b, Holds s I p b → Holds s I q b → p = q
  inUse : ∀ p b, Holds s I p b → 0 < b ∧ b < s.blocks ∧ s.freemap b = false
  mapped : ∀ ino ∈ I, ∀ i < (s.din ino).blocks, s.slot ino i ≠ 0
  empty : ∀ ino ∈ I, ∀ i, (s.din ino).blocks ≤ i → i < maxBlocks → s.slot ino i = 0
  count : ((Finset.range s.nbits).filter fun b => s.freemap b = true).card = s.unusedBlocks

section Accounted

variable {s t : Fs} {O : ℕ → Owner} {I : Set ℕ} {p : ℕ × Option ℕ} {b : ℕ}

/-- The owner of a block that is held at a place. -/
def Owner.at (p : ℕ × Option ℕ) : Owner :=
  match p.2 with
  | some i => .data p.1 i
  | none => .index p.1

theorem Owner.at_inj {q : ℕ × Option ℕ} (h : Owner.at p = Owner.at q) : p = q := by
  obtain ⟨ino, _ | i⟩ := p <;> obtain ⟨ino', _ | i'⟩ := q <;> simp_all [Owner.at]

theorem Wf.holds (h : Wf s O I) (hp : Holds s I p b) : O b = .at p := by
  rcases hp with ⟨hino, hi, hne⟩ | ⟨hino, hne⟩
  · rename_i ino i
    refine h.data ino hino i ?_
    by_contra hn
    exact hne (h.empty ino hino i (by omega) hi)
  · exact h.index _ hino hne

theorem Wf.accounted (h : Wf s O I) : Accounted s I where
  once p q b hp hq := Owner.at_inj ((h.holds hp).symm.trans (h.holds hq))
  inUse p b hp := by
    have ho := h.holds hp
    obtain ⟨ino, _ | i⟩ := p
    · exact h.inUse (by rw [ho]; simp [Owner.at]) (by rw [ho]; simp [Owner.at])
    · exact h.inUse (by rw [ho]; simp [Owner.at]) (by rw [ho]; simp [Owner.at])
  mapped ino hino i hi := h.slot_ne_zero hino hi
  empty := h.empty
  count := h.sound.count.symm

/-- What a consistent volume is, without its owners. -/
theorem consistent_iff : Consistent s I ↔
    s.Sound ∧ s.blocks ≤ 2 ^ 32 ∧ (∀ ino ∈ I, (s.din ino).blocks ≤ maxBlocks) ∧ Accounted s I := by
  classical
  constructor
  · rintro ⟨O, h⟩
    exact ⟨h.sound, h.width, h.reach, h.accounted⟩
  rintro ⟨hsound, hwidth, hreach, hacc⟩
  have hfree : ∀ {p b}, Holds s I p b → s.freemap b = false := fun hp => (hacc.inUse _ _ hp).2.2
  let O : ℕ → Owner := fun b => if s.freemap b = true then .free else
    if hp : ∃ p, Holds s I p b then .at hp.choose else .system
  have hO : ∀ {p b}, Holds s I p b → O b = .at p := by
    intro p b hp
    have hex : ∃ p, Holds s I p b := ⟨p, hp⟩
    change (if _ then _ else _) = _
    rw [if_neg (by simp [hfree hp]), dif_pos hex, hacc.once _ _ b hex.choose_spec hp]
  have hback : ∀ {p b}, O b = .at p → Holds s I p b := by
    intro p b hb
    change (if _ then _ else _) = _ at hb
    split at hb
    · obtain ⟨ino, _ | i⟩ := p <;> cases hb
    · split at hb
      · rename_i hex
        rw [← Owner.at_inj hb]
        exact hex.choose_spec
      · obtain ⟨ino, _ | i⟩ := p <;> cases hb
  have hslot : ∀ ino ∈ I, ∀ i < (s.din ino).blocks, Holds s I (ino, some i) (s.slot ino i) :=
    fun ino hino i hi => .slot hino (hi.trans_le (hreach ino hino)) (hacc.mapped ino hino i hi)
  refine ⟨O, hsound, hwidth, ?_, ?_, ?_, hreach, ?_, hacc.empty, ?_, ?_, ?_⟩
  · intro b
    change _ ↔ (if _ then _ else _) = _
    by_cases hb : s.freemap b = true
    · simp [hb]
    · rw [if_neg hb]
      split
      · rename_i hex
        obtain ⟨ino, _ | i⟩ := hex.choose <;> simp [hb, Owner.at]
      · simp [hb]
  · change (if _ then _ else _) = _
    rw [if_neg, dif_neg]
    · rintro ⟨p, hp⟩
      exact absurd (hacc.inUse p 0 hp).1 (lt_irrefl 0)
    · intro h₀
      exact absurd (hsound.free 0 h₀).1 (lt_irrefl 0)
  · intro b hb
    change (if _ then _ else _) ≠ _ at hb
    split at hb
    · rename_i hf
      exact (hsound.free b hf).2
    · split at hb
      · rename_i hex
        exact (hacc.inUse _ b hex.choose_spec).2.1
      · exact absurd rfl hb
  · intro ino hino i hi
    exact hO (hslot ino hino i hi)
  · intro b ino i hb
    have hp : Holds s I (ino, some i) b := hback hb
    cases hp with
    | slot hino hi hne =>
      refine ⟨hino, ?_, rfl⟩
      by_contra hn
      exact hne (hacc.empty ino hino i (by omega) hi)
  · intro ino hino hne
    exact hO (.index hino hne)
  · intro b ino hb
    have hp : Holds s I (ino, none) b := hback hb
    cases hp with
    | index hino hne => exact ⟨hino, rfl⟩

/-- The assertions about blocks in use, about the number of free blocks and about the index
block. -/
def BlockPanic (e : Panic) : Prop :=
  e = .blockRange ∨ e = .bitmapTranslate ∨ e = .bitmapFree ∨ e = .notInuse ∨ e = .unusedBlocks ∨
    e = .indirectSet

/-- After any sequence of calls the blocks are accounted for, and no further call fails an assertion
about them. -/
theorem runs_accounted {l : List FileOp} (hs : Consistent s I)
    (h : Runs (fun s op t => op.Step I s t) s l t) :
    Accounted t I ∧ ∀ op : FileOp, op.ino ∈ I → ∀ e, op.run t = .error e → ¬ BlockPanic e := by
  obtain ⟨O, hwf⟩ := Runs.consistent h hs
  refine ⟨hwf.accounted, fun op hop e he => ?_⟩
  have hp := (hwf.op_wp hop).error he
  unfold FilePanic at hp
  rintro (rfl | rfl | rfl | rfl | rfl | rfl) <;> simp at hp

/-- An empty file, a seek that appends two blocks, and a truncation. -/
theorem runs_accounted_image : ∃ t, Accounted t imageInodes ∧ t.unusedBlocks = 2 := by
  have hwf : Wf (image 9 0 []) _ imageInodes := image_wf (by decide) (by decide) (by decide)
  have hrun : (([.tryseek 5 5000, .truncfile 5 0] : List FileOp).foldlM FileOp.exec
      (image 9 0 [])).map Fs.unusedBlocks = some 2 := by decide +kernel
  obtain ⟨t, ht, hu⟩ := Option.map_eq_some_iff.mp hrun
  refine ⟨t, (runs_accounted ⟨_, hwf⟩ (FileOp.runs_of_exec ht ?_)).1, hu⟩
  simp [FileOp.ino, imageInodes]

end Accounted

end UCore.Sfs

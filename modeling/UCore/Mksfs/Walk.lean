import UCore.Mksfs.Tree

/-! # The walk through the host directory

The loop of `open_dir` adds entries to its own directory and to directories that it creates, and
keeps their names apart. -/

namespace UCore.Mksfs

open Library Sfs Vfs

variable {m m' : Writer} {V V' V'' : Nodes} {calls calls' calls'' : List (ℕ × Str × ℕ)}
  {current parent d : ℕ} {name n : Str} {h : Host}

/-- Entries were added to the directory `current`, and to directories that did not exist. -/
def Outside (V : Nodes) (current : ℕ) (calls calls' : List (ℕ × Str × ℕ)) : Prop :=
  ∀ d, V d ≠ none → d ≠ current → entriesOf calls' d = entriesOf calls d

theorem Outside.refl : Outside V current calls calls := fun _ _ _ => rfl

theorem Outside.trans (h : Outside V current calls calls') (hV : Later V V')
    (h' : Outside V' current calls' calls'') : Outside V current calls calls'' := fun d hd hc =>
  (h' d (hV.ne hd) hc).trans (h d hd hc)

theorem Outside.cons {file : ℕ} : Outside V current calls ((current, name, file) :: calls) :=
  fun _ _ hd => entriesOf_cons_ne hd

/-- The names of the host directory are new in the directory. -/
def Fresh (names : List Str) (calls : List (ℕ × Str × ℕ)) (d : ℕ) : Prop :=
  ∀ n ∈ names, n ∉ (entriesOf calls d).map Prod.fst

theorem skips_names : ∀ h : Host, ∀ n ∈ h.names, skips n = false := by
  intro h
  induction h with
  | done => nofun
  | file name _ _ rest ih | link name _ _ rest ih | dir name _ _ rest _ ih | other name rest ih =>
    intro n hn
    rw [Host.names] at hn
    split at hn
    · exact ih n hn
    · rename_i hs
      rcases List.mem_cons.mp hn with rfl | hn
      · exact Bool.eq_false_iff.mpr hs
      · exact ih n hn

/-- What the loop of `open_dir` leaves. -/
structure Walked (current : ℕ) (names : List Str) (ok : Prop) (m : Writer) (V : Nodes)
    (m' : Writer) :
    Prop where
  built : ∃ V', Built m' V' ∧ Later V V'
  outside : Outside V current m.calls m'.calls
  proper : ok → Proper m.calls → Fresh names m.calls current → Proper m'.calls

theorem Walked.skip {names names' : List Str} {ok ok' : Prop} (h : Walked current names ok m V m')
    (hn : ∀ n ∈ names, n ∈ names') (hok : ok' → ok) : Walked current names' ok' m V m' :=
  ⟨h.built, h.outside, fun ho hp hf => h.proper (hok ho) hp fun n hm => hf n (hn n hm)⟩

theorem Walked.next {m₁ : Writer} {V₁ : Nodes} {names : List Str} {ok : Prop} {file : ℕ}
    (hV : Later V V₁) (ho : Outside V current m.calls m₁.calls)
    (hp : ok → NameOk name ∧ name ∉ names)
    (hc : ok → Proper m.calls → Fresh (name :: names) m.calls current →
      m₁.calls = (current, name, file) :: calls ∧ Proper calls ∧
      entriesOf calls current = entriesOf m.calls current)
    (h : Walked current names ok m₁ V₁ m') : Walked current (name :: names) ok m V m' := by
  obtain ⟨V', hB, hV'⟩ := h.built
  refine ⟨⟨V', hB, hV.trans hV'⟩, ho.trans hV h.outside, fun hok hpr hf => ?_⟩
  obtain ⟨he, hpc, hent⟩ := hc hok hpr hf
  have hname : name ∉ (entriesOf calls current).map Prod.fst := by
    rw [hent]
    exact hf name List.mem_cons_self
  refine h.proper hok ?_ fun n hn => ?_
  · rw [he]
    exact hpc.add (hp hok).1 hname
  · rw [he, entriesOf_cons_self, List.map_append, hent]
    simp only [List.map_singleton, List.mem_append, List.mem_singleton, not_or]
    refine ⟨hf n (List.mem_cons_of_mem _ hn), ?_⟩
    rintro rfl
    exact (hp hok).2 hn

theorem dot_ok : NameOk dot := ⟨by simp [dot], by decide, by decide⟩

theorem dotdot_ok : NameOk dotdot := ⟨by simp [dotdot], by decide, by decide⟩

theorem proper_dots (hp : Proper calls) (hd : entriesOf calls d = []) :
    Proper ((d, dotdot, parent) :: (d, dot, d) :: calls) := by
  refine (hp.add dot_ok (by simp [hd])).add dotdot_ok ?_
  rw [entriesOf_cons_self, hd]
  simp only [List.nil_append, List.map_cons, List.map_nil, List.mem_singleton]
  decide

theorem addDir_built {real : ℕ} {sub : Host} (hB : Built m V) (hc : V current ≠ none)
    (ih : ∀ {m V} (d : ℕ), Built m V → V d ≠ none →
      (readDir d sub).Wp m (fun _ => True) fun _ m' => Walked d sub.names sub.Ok m V m') :
    (addDir current name real fun d => do
      addDots d current
      readDir d sub).Wp m (fun _ => True) fun _ m₁ =>
      ∃ V₁ d calls, Built m₁ V₁ ∧ Later V V₁ ∧ Outside V current m.calls m₁.calls ∧
        m₁.calls = (current, name, d) :: calls ∧
        entriesOf calls current = entriesOf m.calls current ∧
        (sub.Ok → Proper m.calls → Proper calls) := by
  refine Code.Wp.bind_assert (fun _ => ?_) fun _ => trivial
  refine (allocCacheInode_built hB (by decide)).bind ?_
  rintro d m₁ ⟨hnone, hB₁, hL₁, -⟩
  have hne : ∀ {x}, V x ≠ none → x ≠ d := by
    rintro x hx rfl
    exact hx hnone
  have hV₁ : Later V (Function.update V d (some ⟨sfsTypeDir, 0, 0, []⟩)) := .new hnone
  have hd : Function.update V d (some ⟨sfsTypeDir, 0, 0, []⟩) d ≠ none := by simp
  have hwalk : Code.Wp (addDots d current >>= fun _ => readDir d sub) m₁ (fun _ => True)
      fun _ m₃ => ∃ m₂ V₂, Later (Function.update V d (some ⟨sfsTypeDir, 0, 0, []⟩)) V₂ ∧
        m₂.calls = (d, dotdot, current) :: (d, dot, d) :: m₁.calls ∧
        Walked d sub.names sub.Ok m₂ V₂ m₃ := by
    refine (addDots_built hB₁ hd (hV₁.ne hc)).bind ?_
    rintro - m₂ ⟨V₂, hB₂, hV₂, hc₂⟩
    exact (ih d hB₂ (hV₂.ne hd)).mono (fun _ he => he) fun _ m₃ hw => ⟨m₂, V₂, hV₂, hc₂, hw⟩
  refine hwalk.bind ?_
  rintro - m₃ ⟨m₂, V₂, hV₂, hc₂, ⟨V₃, hB₃, hV₃⟩, ho₃, hp₃⟩
  rw [hL₁.calls] at hc₂
  have hold : ∀ x, V x ≠ none → entriesOf m₃.calls x = entriesOf m.calls x := by
    intro x hx
    rw [ho₃ x (hV₂.ne (hV₁.ne hx)) (hne hx), hc₂, entriesOf_cons_ne (hne hx),
      entriesOf_cons_ne (hne hx)]
  have hlater := (hV₁.trans hV₂).trans hV₃
  refine (addEntry_built hB₃ (hV₃.ne (hV₂.ne hd)) (hlater.ne hc)).mono (fun _ he => he) ?_
  rintro - m₄ ⟨V₄, hB₄, hV₄, hc₄, -⟩
  refine ⟨V₄, d, m₃.calls, hB₄, hlater.trans hV₄, fun x hx hxc => ?_, hc₄, hold current hc,
    fun hok hp => ?_⟩
  · rw [hc₄, entriesOf_cons_ne hxc, hold x hx]
  · have hnil := hB.logged.entriesOf_nil hnone
    refine hp₃ hok (hc₂ ▸ proper_dots hp hnil) fun n hn => ?_
    have hs := skips_names sub n hn
    rw [hc₂, entriesOf_cons_self, entriesOf_cons_self, hnil]
    simp only [List.nil_append, List.cons_append, List.map_cons, List.map_nil, List.mem_cons,
      List.not_mem_nil, or_false, not_or]
    constructor
    · rintro rfl
      exact absurd hs (by decide)
    · rintro rfl
      exact absurd hs (by decide)

theorem readDir_walked : ∀ (h : Host) {m V} (current : ℕ), Built m V → V current ≠ none →
    (readDir current h).Wp m (fun _ => True) fun _ m' => Walked current h.names h.Ok m V m' := by
  intro h
  induction h with
  | done =>
    intro m V current hB hc
    exact Code.Wp.pure ⟨⟨V, hB, .refl⟩, .refl, fun _ hp _ => hp⟩
  | file name real content rest ih =>
    intro m V current hB hc
    unfold readDir Host.names Host.Ok
    split
    next =>
      exact (ih current hB hc).mono (fun _ he => he) fun _ m' hw =>
        hw.skip (fun _ => id) fun ho => ho.2.2
    next =>
      refine Code.Wp.bind_assert (fun _ => ?_) fun _ => trivial
      refine (addFile_built hB hc).bind ?_
      rintro - m₁ ⟨V₁, file, hB₁, hV₁, hc₁⟩
      refine (ih current hB₁ (hV₁.ne hc)).mono (fun _ he => he) fun _ m' hw => ?_
      exact Walked.next hV₁ (hc₁ ▸ .cons) (fun ho => ⟨ho.1, ho.2.1⟩)
        (fun _ hp _ => ⟨hc₁, hp, rfl⟩) (hw.skip (fun _ => id) fun ho => ho.2.2)
  | link name real target rest ih =>
    intro m V current hB hc
    unfold readDir Host.names Host.Ok
    split
    next =>
      exact (ih current hB hc).mono (fun _ he => he) fun _ m' hw =>
        hw.skip (fun _ => id) fun ho => ho.2.2
    next =>
      refine Code.Wp.bind_assert (fun _ => ?_) fun _ => trivial
      refine (addLink_built hB hc).bind ?_
      rintro - m₁ ⟨V₁, file, hB₁, hV₁, hc₁⟩
      refine (ih current hB₁ (hV₁.ne hc)).mono (fun _ he => he) fun _ m' hw => ?_
      exact Walked.next hV₁ (hc₁ ▸ .cons) (fun ho => ⟨ho.1, ho.2.1⟩)
        (fun _ hp _ => ⟨hc₁, hp, rfl⟩) (hw.skip (fun _ => id) fun ho => ho.2.2)
  | dir name real sub rest ihs ih =>
    intro m V current hB hc
    unfold readDir Host.names Host.Ok
    split
    next =>
      exact (ih current hB hc).mono (fun _ he => he) fun _ m' hw =>
        hw.skip (fun _ => id) fun ho => ho.2.2.2
    next =>
      refine Code.Wp.bind_assert (fun _ => ?_) fun _ => trivial
      refine (addDir_built hB hc ihs).bind ?_
      rintro - m₁ ⟨V₁, d, calls, hB₁, hV₁, ho₁, hc₁, he₁, hp₁⟩
      refine (ih current hB₁ (hV₁.ne hc)).mono (fun _ he => he) fun _ m' hw => ?_
      exact Walked.next hV₁ ho₁ (fun ho => ⟨ho.1, ho.2.1⟩)
        (fun ho hp _ => ⟨hc₁, hp₁ ho.2.2.1 hp, he₁⟩) (hw.skip (fun _ => id) fun ho => ho.2.2.2)
  | other name rest ih =>
    intro m V current hB hc
    unfold readDir Host.names Host.Ok
    split
    next =>
      exact (ih current hB hc).mono (fun _ he => he) fun _ m' hw =>
        hw.skip (fun _ => id) fun ho => ho.2.2
    next =>
      refine Code.Wp.bind_assert (fun _ => ?_) fun _ => trivial
      exact (ih current hB hc).mono (fun _ he => he) fun _ m' hw =>
        hw.skip (fun _ => List.mem_cons_of_mem _) fun ho => ho.2.2

/-- The files of a new image: the root alone. -/
def rootOnly : Nodes := Function.update (fun _ => none) sfsBlknRoot (some ⟨sfsTypeDir, 0, 0, []⟩)

/-- The builder of an image of `n` blocks at the start. -/
def start (n : ℕ) (disk : ℕ → Buf) : Writer where
  ninos := n
  nextIno := sfsBlknFreemap + (n + sfsBlkbits - 1) / sfsBlkbits
  unusedBlocks := n - (sfsBlknFreemap + (n + sfsBlkbits - 1) / sfsBlkbits)
  inode := Function.update (fun _ => ⟨⟨0, 0, 0, 0, fun _ => 0, 0⟩, 0, 0, 0, none, none⟩) sfsBlknRoot
    ⟨⟨0, sfsTypeDir, 0, 0, fun _ => 0, 0⟩, 0, 0, 0, none, none⟩
  inodes := Function.update (fun _ => []) (hash32 0) [sfsBlknRoot]
  cache := fun _ => zeros
  blocks := fun _ => []
  disk := disk
  entryName := zeros
  calls := []
  stored := []

theorem createSfs_eq {stSize : ℕ} {disk : ℕ → Buf} (h : createSfs stSize disk = .ok m) :
    ∃ n ≤ sfsMaxNblks, ¬ n ≤ sfsBlknFreemap + (n + sfsBlkbits - 1) / sfsBlkbits ∧
      m = start n disk := by
  unfold createSfs at h
  dsimp only at h
  set n := if sfsMaxNblks < stSize / sfsBlksize % 2 ^ 32 then sfsMaxNblks
    else stSize / sfsBlksize % 2 ^ 32 with hnd
  have hmax : n ≤ sfsMaxNblks := by
    rw [hnd]
    split <;> omega
  by_cases hn : n ≤ sfsBlknFreemap + (n + sfsBlkbits - 1) / sfsBlkbits
  · rw [if_pos hn] at h
    cases h
  · rw [if_neg hn] at h
    exact ⟨n, hmax, hn, (Except.ok.inj h).symm⟩

theorem createSfs_built {stSize : ℕ} {disk : ℕ → Buf} (h : createSfs stSize disk = .ok m) :
    Built m rootOnly ∧ m.calls = [] := by
  obtain ⟨n, hmax, hn, hm⟩ := createSfs_eq h
  subst hm
  have hroot : ∀ {x : ℕ} {o : Owner},
      Function.update (fun _ => none) sfsBlknRoot (some Owner.inode) x = some o ↔
      x = sfsBlknRoot ∧ o = .inode := by
    intro x o
    by_cases hx : x = sfsBlknRoot
    · subst hx
      simp [eq_comm]
    · simp [hx]
  refine ⟨⟨⟨fun _ _ => 0, Function.update (fun _ => none) sfsBlknRoot (some .inode),
    { range := ?_, count := ?_, owned := ?_, inode := ?_, listed := ?_, refs := ?_, parent := ?_
      maps := ?_, cached := ?_, tables := ?_, nodes := ?_, shows := ?_ }⟩,
    ⟨?_, ?_, nofun, nofun⟩⟩, rfl⟩
  · exact ⟨Nat.le_refl _, (not_le.mp hn).le, hmax⟩
  · exact Nat.sub_add_cancel (not_le.mp hn).le
  · exact fun b o ho => .inl (hroot.mp ho)
  · intro b
    rw [hroot]
    constructor
    · rintro ⟨rfl, -⟩
      exact ⟨hash32 0, hash32_lt, by simp [start]⟩
    · rintro ⟨l, -, hb⟩
      by_cases hl : l = hash32 0
      · subst hl
        exact ⟨by simpa [start] using hb, rfl⟩
      · simp [start, hl] at hb
  · intro l b hb
    rw [hroot]
    by_cases hl : l = hash32 0
    · subst hl
      exact ⟨by simpa [start] using hb, rfl⟩
    · simp [start, hl] at hb
  · exact fun _ _ hA => absurd rfl hA
  · exact fun _ _ _ _ _ hA => absurd rfl hA
  · intro ino hi
    obtain ⟨rfl, -⟩ := hroot.mp hi
    exact ⟨fun _ _ => rfl, rfl, rfl, fun _ _ hA => absurd rfl hA⟩
  · exact fun _ _ _ hA => absurd rfl hA
  · exact nofun
  · intro ino
    rw [hroot]
    by_cases hi : ino = sfsBlknRoot
    · subst hi
      simp [rootOnly]
    · simp [rootOnly, hi]
  · intro ino nd hV
    by_cases hi : ino = sfsBlknRoot
    · subst hi
      obtain rfl : nd = ⟨sfsTypeDir, 0, 0, []⟩ := by simpa [rootOnly, eq_comm] using hV
      refine ⟨rfl, by decide, rfl, rfl, rfl, rfl, Nat.zero_le _, fun r => ?_, nofun⟩
      cases r <;> simp [Ref.Used]
    · simp [rootOnly, hi] at hV
  · intro ino nd hV
    by_cases hi : ino = sfsBlknRoot
    · subst hi
      obtain rfl : nd = ⟨sfsTypeDir, 0, 0, []⟩ := by simpa [rootOnly, eq_comm] using hV
      rfl
    · simp [rootOnly, hi] at hV
  · intro d nd hV _
    by_cases hi : d = sfsBlknRoot
    · subst hi
      obtain rfl : nd = ⟨sfsTypeDir, 0, 0, []⟩ := by simpa [rootOnly, eq_comm] using hV
      exact .nil
    · simp [rootOnly, hi] at hV

theorem openDir_built {stSize : ℕ} {disk : ℕ → Buf} {home : Host} {u : Unit}
    (h : createSfs stSize disk = .ok m)
    (ho : openDir sfsBlknRoot sfsBlknRoot home m = .ok (u, m')) :
    (∃ V, Built m' V) ∧ (home.Ok → Proper m'.calls) := by
  obtain ⟨hB, hcalls⟩ := createSfs_built h
  have hroot : rootOnly sfsBlknRoot ≠ none := by simp [rootOnly]
  have hwp : (openDir sfsBlknRoot sfsBlknRoot home).Wp m (fun _ => True) fun _ m' =>
      (∃ V, Built m' V) ∧ (home.Ok → Proper m'.calls) := by
    refine (addDots_built hB hroot hroot).bind ?_
    rintro - m₁ ⟨V₁, hB₁, hV₁, hc₁⟩
    refine (readDir_walked home sfsBlknRoot hB₁ (hV₁.ne hroot)).mono (fun _ he => he) ?_
    rintro - m₂ ⟨⟨V₂, hB₂, -⟩, -, hp⟩
    refine ⟨⟨V₂, hB₂⟩, fun hok => ?_⟩
    rw [hcalls] at hc₁
    have hnil : entriesOf [] sfsBlknRoot = [] := rfl
    refine hp hok (hc₁ ▸ proper_dots ⟨fun _ => List.nodup_nil, nofun⟩ hnil) fun n hn => ?_
    have hs := skips_names home n hn
    rw [hc₁, entriesOf_cons_self, entriesOf_cons_self, hnil]
    simp only [List.nil_append, List.cons_append, List.map_cons, List.map_nil, List.mem_cons,
      List.not_mem_nil, or_false, not_or]
    constructor
    · rintro rfl
      exact absurd hs (by decide)
    · rintro rfl
      exact absurd hs (by decide)
  exact hwp.ok ho

end UCore.Mksfs

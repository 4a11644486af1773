import UCore.Vfs.Fork

/-! # Processes and their files

The processes of the system take turns: one makes a call, acquires the entry of an open file for a
call that may sleep, looks up a path, forks or exits.
-/

namespace UCore.Vfs

open Library Sfs

/-- A process: its table of open files, the entry that its call has acquired, and the references
that its lookups have handed to it. -/
structure Proc where
  files : ℕ
  busy : Option ℕ
  held : List ℕ

structure System where
  kernel : Kernel
  live : Finset ℕ
  proc : ℕ → Proc

/-- The calls of a process. -/
inductive Call
  | openFile (path : Str) (flags : ℕ)
  | close (fd : ℤ)
  | read (fd : ℤ) (buf : Buf) (len : ℕ)
  | write (fd : ℤ) (buf : Buf) (len : ℕ)
  | seek (fd pos whence : ℤ)
  | fstat (fd : ℤ)
  | fsync (fd : ℤ)
  | getdirentry (fd offset : ℤ)
  | dup (fd₁ fd₂ : ℤ)
  | chdir (path : Str)
  | getcwd (len : ℕ)

/-- A call of a process with the table `cur`; its result is left out. -/
def Call.run (cur : ℕ) : Call → Prog Unit
  | .openFile path flags => do let _ ← fileOpen cur path flags
  | .close fd => do let _ ← fileClose cur fd
  | .read fd buf len => do let _ ← fileRead cur fd buf len
  | .write fd buf len => do let _ ← fileWrite cur fd buf len
  | .seek fd pos whence => do let _ ← fileSeek cur fd pos whence
  | .fstat fd => do let _ ← fileFstat cur fd
  | .fsync fd => do let _ ← fileFsync cur fd
  | .getdirentry fd offset => do let _ ← fileGetdirentry cur fd offset
  | .dup fd₁ fd₂ => do let _ ← fileDup cur fd₁ fd₂
  | .chdir path => do let _ ← vfsChdir cur path
  | .getcwd len => do let _ ← vfsGetcwd cur len

/-- What a call does with the entry that it has acquired. -/
inductive Body
  | read (buf : Buf) (len : ℕ)
  | write (buf : Buf) (len : ℕ)
  | seek (pos whence : ℤ)
  | fstat
  | fsync
  | getdirentry (offset : ℤ)

def Body.run (cur fd : ℕ) : Body → Prog Unit
  | .read buf len => do let _ ← readBody cur fd buf len
  | .write buf len => do let _ ← writeBody cur fd buf len
  | .seek pos whence => do let _ ← seekBody cur fd pos whence
  | .fstat => do let _ ← fstatBody cur fd
  | .fsync => do let _ ← fsyncBody cur fd
  | .getdirentry offset => do let _ ← getdirentryBody cur fd offset

/-- The steps of the processes. -/
inductive Act
  | call (i : ℕ) (a : Call)
  | acquire (i : ℕ) (fd : ℤ)
  | use (i : ℕ) (a : Body)
  | release (i : ℕ)
  | lookup (i : ℕ) (path : Str)
  | drop (i p : ℕ)
  | fork (i j : ℕ) (share : Bool)
  | exit (i : ℕ)

abbrev Sys : Type → Type := Code Panic System

def Sys.kernel {α : Type} (m : Prog α) : Sys α := fun s =>
  match m s.kernel with
  | .ok (a, k) => .ok (a, { s with kernel := k })
  | .error e => .error e

def System.setProc (s : System) (i : ℕ) (x : Proc) : System :=
  { s with proc := Function.update s.proc i x }

/-- A process is born with a table. -/
def System.birth (s : System) (j f : ℕ) : System :=
  { s.setProc j ⟨f, none, []⟩ with live := insert j s.live }

def System.leave (s : System) (i : ℕ) : System := { s with live := s.live.erase i }

/-- One step of a process; nothing happens where the process cannot take it. -/
def step (a : Act) : Sys Unit := do
  let s ← Code.get
  match a with
  | .call i a =>
    if i ∈ s.live ∧ (s.proc i).busy = none then Sys.kernel (a.run (s.proc i).files) else return
  | .acquire i fd =>
    if i ∈ s.live ∧ (s.proc i).busy = none then
      let (ret, fd) ← Sys.kernel (fd2file (s.proc i).files fd)
      if ret ≠ 0 then return
      else
        Sys.kernel (fdArrayAcquire (s.proc i).files fd)
        Code.modify fun t => t.setProc i { s.proc i with busy := some fd }
    else return
  | .use i a =>
    match (s.proc i).busy with
    | some fd => if i ∈ s.live then Sys.kernel (a.run (s.proc i).files fd) else return
    | none => return
  | .release i =>
    match (s.proc i).busy with
    | some fd =>
      if i ∈ s.live then
        Sys.kernel (fdArrayRelease (s.proc i).files fd)
        Code.modify fun t => t.setProc i { s.proc i with busy := none }
      else return
    | none => return
  | .lookup i path =>
    if i ∈ s.live ∧ (s.proc i).busy = none then
      let (ret, p) ← Sys.kernel (vfsLookup (s.proc i).files path)
      if ret ≠ 0 then return
      else Code.modify fun t => t.setProc i { s.proc i with held := p :: (s.proc i).held }
    else return
  | .drop i p =>
    if i ∈ s.live ∧ p ∈ (s.proc i).held then
      Sys.kernel (inodeRefDec p)
      Code.modify fun t => t.setProc i { s.proc i with held := (s.proc i).held.erase p }
    else return
  | .fork i j share =>
    if i ∈ s.live ∧ (s.proc i).busy = none ∧ j ∉ s.live then
      let (ret, f) ← Sys.kernel (copyFiles (s.proc i).files share)
      if ret ≠ 0 then return
      else Code.modify fun t => t.birth j f
    else return
  | .exit i =>
    if i ∈ s.live ∧ (s.proc i).busy = none ∧ (s.proc i).held = [] then
      Sys.kernel (putFiles (s.proc i).files)
      Code.modify fun t => t.leave i
    else return

section Usage

variable (s : System)

/-- The references that lookups have handed to processes. -/
def System.refs (p : ℕ) : ℕ := ∑ i ∈ s.live, (s.proc i).held.count p

def System.sharers (f : ℕ) : ℕ := (s.live.filter fun i => (s.proc i).files = f).card

/-- The uses of the tables by the processes. -/
def System.usage : Usage where
  calls f fd := (s.live.filter fun i => (s.proc i).files = f ∧ (s.proc i).busy = some fd).card
  links f := if s.sharers f = 0 then none else some (s.sharers f)
  taken := none

/-- The counts are those of the holders, but for the references that failed opens have kept. -/
structure Inv : Prop where
  books : ∃ leak : ℕ → ℤ, (∀ p, 0 ≤ leak p) ∧
    Books (fun p => leak p + s.refs p) (fun _ => 0) s.usage s.kernel
  busy : ∀ i ∈ s.live, ∀ fd, (s.proc i).busy = some fd → fd < filesStructNentry

end Usage

section Call

variable {α β : Type} {k : Kernel} {c d : ℕ → ℤ} {cur fd : ℕ} {b : Usage} {m : Prog α}

/-- The books after a call: it may leave references that nobody gives back. -/
def Leaves (c d : ℕ → ℤ) (b : Usage) (k : Kernel) : Prop :=
  ∃ e : ℕ → ℤ, (∀ q, 0 ≤ e q) ∧ Books (fun q => c q + e q) d b k

theorem Books.leaves (h : Books c d b k) : Leaves c d b k := by
  refine ⟨fun _ => 0, fun _ => le_rfl, ?_⟩
  simpa using h

theorem Leaves.of_more {p : ℕ} (h : Books (more c p 1) d b k) : Leaves c d b k := by
  refine ⟨fun q => if q = p then 1 else 0, fun q => ?_, ?_⟩
  · dsimp only
    split <;> decide
  · convert h using 1
    ext q
    unfold more
    split
    · rename_i hq
      simp [hq]
    · rename_i hq
      simp [hq]

theorem wp_leaves (h : Code.Wp m k Allowed fun _ k' => Books c d b k') :
    Code.Wp (m >>= fun _ => pure ()) k Allowed fun _ k' => Leaves c d b k' :=
  h.bind fun _ _ h => Code.Wp.pure h.leaves

theorem Call.run_wp (a : Call) (hc : ∀ q, 0 ≤ c q) (hd : ∀ q, 0 ≤ d q) (hu : b.taken = none)
    (h : Books c d b k) : Code.Wp (a.run cur) k Allowed fun _ k' => Leaves c d b k' := by
  cases a with
  | openFile path flags =>
    refine (fileOpen_wp hc hu h).bind fun ret k' hk => Code.Wp.pure ?_
    cases hk with
    | opened h => exact h.leaves
    | failed h => exact h.leaves
    | kept _ _ h => exact .of_more h
  | close fd => exact wp_leaves (fileClose_wp hd h)
  | read fd buf len => exact wp_leaves (fileRead_wp hd h)
  | write fd buf len => exact wp_leaves (fileWrite_wp hd h)
  | seek fd pos whence => exact wp_leaves (fileSeek_wp hd h)
  | fstat fd => exact wp_leaves (fileFstat_wp hd h)
  | fsync fd => exact wp_leaves (fileFsync_wp hd h)
  | getdirentry fd offset => exact wp_leaves (fileGetdirentry_wp hd h)
  | dup fd₁ fd₂ => exact wp_leaves (fileDup_wp hd hu h)
  | chdir path => exact wp_leaves (vfsChdir_wp hc h)
  | getcwd len =>
    refine (vfsGetcwd_wp hc h.acc).bind ?_
    rintro r k' ⟨hr, ha⟩
    exact Code.Wp.pure (h.rest hr ha).leaves

theorem Body.run_wp (a : Body) (hd : ∀ q, 0 ≤ d q) : Keeps c d b cur fd (a.run cur fd) := by
  cases a with
  | read buf len => exact (readBody_keeps hd buf len).bind fun _ => keeps_pure
  | write buf len => exact (writeBody_keeps hd buf len).bind fun _ => keeps_pure
  | seek pos whence => exact (seekBody_keeps hd pos whence).bind fun _ => keeps_pure
  | fstat => exact (fstatBody_keeps hd).bind fun _ => keeps_pure
  | fsync => exact (fsyncBody_keeps hd).bind fun _ => keeps_pure
  | getdirentry offset => exact (getdirentryBody_keeps hd offset).bind fun _ => keeps_pure

end Call

section Usage

variable {s : System} {i j f fd p : ℕ} {o : Option ℕ}

theorem Usage.ext {b b' : Usage} (h₁ : ∀ f fd, b'.calls f fd = b.calls f fd)
    (h₂ : ∀ f, b'.links f = b.links f) (h₃ : b'.taken = b.taken) : b' = b := by
  cases b
  cases b'
  simp only [Usage.mk.injEq]
  exact ⟨funext fun f => funext (h₁ f), funext h₂, h₃⟩

theorem sharers_setProc {x : Proc} (hx : x.files = (s.proc i).files) :
    (s.setProc i x).sharers f = s.sharers f := by
  refine congrArg Finset.card (Finset.filter_congr fun j _ => ?_)
  unfold System.setProc
  dsimp only
  by_cases hj : j = i
  · subst hj
    rw [Function.update_self, hx]
  · rw [Function.update_of_ne hj]

theorem links_setProc {x : Proc} (hx : x.files = (s.proc i).files) :
    (s.setProc i x).usage.links f = s.usage.links f := by
  unfold System.usage
  dsimp only
  rw [sharers_setProc hx]

theorem refs_setProc {x : Proc} (hi : i ∈ s.live) :
    (s.setProc i x).refs p + (s.proc i).held.count p = s.refs p + x.held.count p :=
  sum_update (fun x : Proc => x.held.count p) hi

theorem calls_setProc {x : Proc} {n : ℕ} (hi : i ∈ s.live) : (s.setProc i x).usage.calls f n +
    (if (s.proc i).files = f ∧ (s.proc i).busy = some n then 1 else 0) =
      s.usage.calls f n + if x.files = f ∧ x.busy = some n then 1 else 0 :=
  card_filter_update (fun x : Proc => x.files = f ∧ x.busy = some n) hi

theorem usage_acquire (hi : i ∈ s.live) (hb : (s.proc i).busy = none) :
    (s.setProc i { s.proc i with busy := some fd }).usage =
      bump s.usage (s.proc i).files fd (s.usage.calls (s.proc i).files fd + 1) := by
  refine Usage.ext (fun g n => ?_) (fun g => ?_) rfl
  · have := calls_setProc (f := g) (n := n) (x := { s.proc i with busy := some fd }) hi
    simp only [hb, reduceCtorEq, and_false, if_false, add_zero, Option.some.injEq] at this
    rw [this]
    by_cases hg : g = (s.proc i).files ∧ n = fd
    · obtain ⟨rfl, rfl⟩ := hg
      simp
    · rw [if_neg fun h => hg ⟨h.1.symm, h.2.symm⟩, bump_of_ne (not_and_or.mp hg), add_zero]
  · exact links_setProc rfl

theorem usage_release (hi : i ∈ s.live) (hb : (s.proc i).busy = some fd) :
    0 < s.usage.calls (s.proc i).files fd ∧ (s.setProc i { s.proc i with busy := none }).usage =
      bump s.usage (s.proc i).files fd (s.usage.calls (s.proc i).files fd - 1) := by
  have hcalls : ∀ g n, (s.setProc i { s.proc i with busy := none }).usage.calls g n +
      (if (s.proc i).files = g ∧ fd = n then 1 else 0) = s.usage.calls g n := by
    intro g n
    have := calls_setProc (f := g) (n := n) (x := { s.proc i with busy := none }) hi
    simpa only [hb, reduceCtorEq, and_false, if_false, add_zero, Option.some.injEq] using this
  have hpos := hcalls (s.proc i).files fd
  rw [if_pos ⟨rfl, rfl⟩] at hpos
  refine ⟨by omega, Usage.ext (fun g n => ?_) (fun g => ?_) rfl⟩
  · by_cases hg : g = (s.proc i).files ∧ n = fd
    · obtain ⟨rfl, rfl⟩ := hg
      rw [bump_self]
      omega
    · rw [bump_of_ne (not_and_or.mp hg), ← hcalls g n, if_neg fun h => hg ⟨h.1.symm, h.2.symm⟩,
        add_zero]
  · exact links_setProc rfl

theorem usage_held {l : List ℕ} (hi : i ∈ s.live) :
    (s.setProc i { s.proc i with held := l }).usage = s.usage := by
  refine Usage.ext (fun g n => ?_) (fun g => links_setProc rfl) rfl
  exact Nat.add_right_cancel (calls_setProc (f := g) (n := n) (x := { s.proc i with held := l }) hi)

theorem sharers_birth {g : ℕ} (hj : j ∉ s.live) :
    (s.birth j f).sharers g = s.sharers g + if f = g then 1 else 0 :=
  card_filter_insert (fun x : Proc => x.files = g) hj

theorem sharers_leave {g : ℕ} (hi : i ∈ s.live) :
    (s.leave i).sharers g + (if (s.proc i).files = g then 1 else 0) = s.sharers g :=
  card_filter_erase (fun x : Proc => x.files = g) hi

theorem usage_birth (hj : j ∉ s.live) :
    (s.birth j f).usage = s.usage.link f (some (s.sharers f + 1)) := by
  refine Usage.ext (fun g n => ?_) (fun g => ?_) rfl
  · have := card_filter_insert (f := s.proc) (b := ⟨f, none, []⟩)
      (fun x : Proc => x.files = g ∧ x.busy = some n) hj
    rwa [if_neg (by simp), add_zero] at this
  · have := sharers_birth (f := f) (g := g) hj
    unfold System.usage Usage.link
    dsimp only
    by_cases hg : g = f
    · subst hg
      rw [if_pos rfl] at this
      rw [this, Function.update_self, if_neg (by omega)]
      simp
    · rw [if_neg fun h => hg h.symm, add_zero] at this
      rw [this, Function.update_of_ne hg]

theorem usage_leave (hi : i ∈ s.live) (hb : (s.proc i).busy = none) :
    (s.leave i).usage = s.usage.link (s.proc i).files
      (if (s.sharers (s.proc i).files : ℤ) = 1 then none
        else some ((s.sharers (s.proc i).files : ℤ) - 1)) := by
  refine Usage.ext (fun g n => ?_) (fun g => ?_) rfl
  · have := card_filter_erase (f := s.proc) (fun x : Proc => x.files = g ∧ x.busy = some n) hi
    rwa [if_neg (by simp [hb]), add_zero] at this
  · have := sharers_leave (g := g) hi
    unfold System.usage Usage.link
    dsimp only
    by_cases hg : g = (s.proc i).files
    · subst hg
      rw [if_pos rfl] at this
      rw [Function.update_self]
      split <;> split <;> simp <;> omega
    · rw [if_neg fun h => hg h.symm, add_zero] at this
      rw [this, Function.update_of_ne hg]

theorem refs_birth (hj : j ∉ s.live) : (s.birth j f).refs p = s.refs p := by
  unfold System.refs System.birth System.setProc
  dsimp only
  rw [Finset.sum_insert hj, Function.update_self]
  simp only [List.count_nil, zero_add]
  refine Finset.sum_congr rfl fun i hi => ?_
  rw [Function.update_of_ne (ne_of_mem_of_not_mem hi hj)]

theorem refs_leave (hi : i ∈ s.live) (hh : (s.proc i).held = []) :
    (s.leave i).refs p = s.refs p := by
  have := Finset.add_sum_erase s.live (fun i => (s.proc i).held.count p) hi
  rwa [hh, List.count_nil, zero_add] at this

theorem sharers_pos (hi : i ∈ s.live) : 0 < s.sharers (s.proc i).files :=
  Finset.card_pos.mpr ⟨i, Finset.mem_filter.mpr ⟨hi, rfl⟩⟩

theorem links_of_live (hi : i ∈ s.live) :
    s.usage.links (s.proc i).files = some (s.sharers (s.proc i).files : ℤ) :=
  if_neg (sharers_pos hi).ne'

end Usage

section Step

variable {s : System} {α : Type}

theorem Sys.kernel_wp {m : Prog α} {E : Panic → Prop} {Q : α → Kernel → Prop}
    (h : Code.Wp m s.kernel E Q) : Code.Wp (Sys.kernel m) s E fun a t =>
      ∃ k, t = { s with kernel := k } ∧ Q a k := by
  unfold Code.Wp Sys.kernel at *
  cases hm : m s.kernel with
  | ok r =>
    rw [hm] at h
    exact ⟨r.2, rfl, h⟩
  | error e =>
    rw [hm] at h
    exact h

theorem Inv.of_books {c : ℕ → ℤ} (hc : ∀ p, (s.refs p : ℤ) ≤ c p)
    (h : Books c (fun _ => 0) s.usage s.kernel)
    (hb : ∀ i ∈ s.live, ∀ fd, (s.proc i).busy = some fd → fd < filesStructNentry) : Inv s := by
  refine ⟨⟨fun p => c p - s.refs p, fun p => ?_, ?_⟩, hb⟩
  · have := hc p
    dsimp only
    omega
  · simpa using h

theorem refs_held {i p : ℕ} {x : Proc} (hi : i ∈ s.live) (hx : x.held = (s.proc i).held) :
    (s.setProc i x).refs p = s.refs p := by
  have := refs_setProc (p := p) (x := x) hi
  rw [hx] at this
  exact Nat.add_right_cancel this

theorem busy_setProc {i : ℕ} {x : Proc}
    (h : ∀ i ∈ s.live, ∀ fd, (s.proc i).busy = some fd → fd < filesStructNentry)
    (hx : ∀ fd, x.busy = some fd → fd < filesStructNentry) : ∀ j ∈ (s.setProc i x).live,
    ∀ fd, ((s.setProc i x).proc j).busy = some fd → fd < filesStructNentry := by
  intro j hj fd hb
  by_cases he : j = i
  · subst he
    change (Function.update s.proc j x j).busy = some fd at hb
    rw [Function.update_self] at hb
    exact hx fd hb
  · change (Function.update s.proc i x j).busy = some fd at hb
    rw [Function.update_of_ne he] at hb
    exact h j hj fd hb

theorem refs_le {leak : ℕ → ℤ} {p n : ℕ} (hleak : ∀ p, 0 ≤ leak p) (hn : n = s.refs p) :
    (n : ℤ) ≤ leak p + s.refs p := by
  have := hleak p
  omega

theorem cons_le_more {c : ℕ → ℤ} {l : List ℕ} {p q n r : ℕ} (hc : (r : ℤ) ≤ c p)
    (hn : n + l.count p = r + (q :: l).count p) : (n : ℤ) ≤ more c q 1 p := by
  rw [List.count_cons] at hn
  unfold more
  by_cases hq : p = q
  · subst hq
    simp only [beq_self_eq_true, if_true] at hn ⊢
    omega
  · rw [if_neg (by simpa using fun h => hq h.symm)] at hn
    rw [if_neg hq]
    omega

theorem erase_le_more {c : ℕ → ℤ} {l : List ℕ} {p q n r : ℕ} (hc : (r : ℤ) ≤ c q) (hp : p ∈ l)
    (hn : n + l.count q = r + (l.erase p).count q) : (n : ℤ) ≤ more c p (-1) q := by
  have hcount := List.count_pos_iff.mpr hp
  unfold more
  by_cases hq : q = p
  · subst hq
    rw [List.count_erase_self] at hn
    rw [if_pos rfl]
    omega
  · rw [List.count_erase_of_ne hq] at hn
    rw [if_neg hq]
    omega

theorem Inv.call_wp (h : Inv s) (i : ℕ) (a : Call) :
    Code.Wp (step (.call i a)) s Allowed fun _ t => Inv t := by
  have hinv := h
  obtain ⟨⟨leak, hleak, hbooks⟩, hbusy⟩ := h
  have hc : ∀ p, 0 ≤ leak p + s.refs p := fun _ =>
    (Int.natCast_nonneg _).trans (refs_le hleak rfl)
  have hd : ∀ p : ℕ, (0 : ℤ) ≤ (fun _ => 0) p := fun _ => le_rfl
  unfold step
  apply Code.Wp.bind_get
  dsimp only
  split
  swap
  · exact Code.Wp.pure hinv
  refine (Sys.kernel_wp (a.run_wp hc hd rfl hbooks)).mono (fun _ h => h) ?_
  rintro - _ ⟨k, rfl, e, he, hk⟩
  refine Inv.of_books (fun p => ?_) hk hbusy
  have := hleak p
  have := he p
  change (s.refs p : ℤ) ≤ _
  dsimp only
  omega

theorem Inv.acquire_wp (h : Inv s) (i : ℕ) (fd : ℤ) :
    Code.Wp (step (.acquire i fd)) s Allowed fun _ t => Inv t := by
  have hinv := h
  obtain ⟨⟨leak, hleak, hbooks⟩, hbusy⟩ := h
  unfold step
  apply Code.Wp.bind_get
  dsimp only
  split
  swap
  · exact Code.Wp.pure hinv
  rename_i hi
  refine (Sys.kernel_wp fd2file_wp).bind ?_
  rintro ⟨ret, n⟩ _ ⟨_, rfl, rfl, hr⟩
  dsimp only at hr ⊢
  split
  · exact Code.Wp.pure hinv
  rename_i hret
  obtain ⟨t, ht, hfd, hs⟩ := hr (not_not.mp hret)
  refine (Sys.kernel_wp (fdArrayAcquire_wp hbooks ht hfd hs)).bind ?_
  rintro - _ ⟨k, rfl, hk, -⟩
  rw [← usage_acquire hi.1 hi.2] at hk
  refine Inv.of_books (s := System.setProc { s with kernel := k } i
    { s.proc i with busy := some n })
    (fun p => ?_) hk ?_
  · exact refs_le hleak (refs_held hi.1 rfl)
  · exact busy_setProc hbusy fun _ h => Option.some.inj h ▸ hfd

theorem Inv.use_wp (h : Inv s) (i : ℕ) (a : Body) :
    Code.Wp (step (.use i a)) s Allowed fun _ t => Inv t := by
  have hinv := h
  obtain ⟨⟨leak, hleak, hbooks⟩, hbusy⟩ := h
  have hd : ∀ p : ℕ, (0 : ℤ) ≤ (fun _ => 0) p := fun _ => le_rfl
  unfold step
  apply Code.Wp.bind_get
  dsimp only
  split
  swap
  · exact Code.Wp.pure hinv
  rename_i fd hb
  split
  swap
  · exact Code.Wp.pure hinv
  rename_i hi
  have hu : Uses s.usage s.kernel (s.proc i).files fd := by
    refine ⟨(usage_release hi hb).1, hbusy i hi fd hb, ?_⟩
    rw [← Option.isSome_map (f := Files.nlinks), hbooks.tables.links, links_of_live hi]
    rfl
  refine (Sys.kernel_wp (a.run_wp hd _ hbooks hu)).mono (fun _ h => h) ?_
  rintro - _ ⟨k, rfl, hk, -⟩
  exact Inv.of_books (s := { s with kernel := k }) (fun p => refs_le hleak rfl) hk hbusy

theorem Inv.release_wp (h : Inv s) (i : ℕ) :
    Code.Wp (step (.release i)) s Allowed fun _ t => Inv t := by
  have hinv := h
  obtain ⟨⟨leak, hleak, hbooks⟩, hbusy⟩ := h
  have hd : ∀ p : ℕ, (0 : ℤ) ≤ (fun _ => 0) p := fun _ => le_rfl
  unfold step
  apply Code.Wp.bind_get
  dsimp only
  split
  swap
  · exact Code.Wp.pure hinv
  rename_i fd hb
  split
  swap
  · exact Code.Wp.pure hinv
  rename_i hi
  obtain ⟨hpos, husage⟩ := usage_release hi hb
  obtain ⟨t, ht, -⟩ :=
    Option.map_eq_some_iff.mp ((hbooks.tables.links _).trans (links_of_live hi))
  refine (Sys.kernel_wp (fdArrayRelease_wp hbooks hd ht (hbusy i hi fd hb) hpos)).bind ?_
  rintro - _ ⟨k, rfl, hk⟩
  rw [← husage] at hk
  refine Inv.of_books (s := System.setProc { s with kernel := k } i
    { s.proc i with busy := none })
    (fun p => ?_) hk ?_
  · exact refs_le hleak (refs_held hi rfl)
  · exact busy_setProc hbusy fun _ h => by cases h

theorem Inv.lookup_wp (h : Inv s) (i : ℕ) (path : Str) :
    Code.Wp (step (.lookup i path)) s Allowed fun _ t => Inv t := by
  have hinv := h
  obtain ⟨⟨leak, hleak, hbooks⟩, hbusy⟩ := h
  have hc : ∀ p, 0 ≤ leak p + s.refs p := fun _ =>
    (Int.natCast_nonneg _).trans (refs_le hleak rfl)
  unfold step
  apply Code.Wp.bind_get
  dsimp only
  split
  swap
  · exact Code.Wp.pure hinv
  rename_i hi
  refine (Sys.kernel_wp (vfsLookup_wp hc hbooks.acc)).bind ?_
  rintro ⟨ret, q⟩ _ ⟨k, rfl, hr, ha⟩
  dsimp only at ha ⊢
  split
  · rename_i hret
    rw [if_neg hret] at ha
    exact Code.Wp.pure (Inv.of_books (s := { s with kernel := k }) (fun p => refs_le hleak rfl)
      (hbooks.rest hr ha) hbusy)
  · rename_i hret
    rw [if_pos (not_not.mp hret)] at ha
    have hk := hbooks.rest hr ha
    rw [← usage_held (l := q :: (s.proc i).held) hi.1] at hk
    refine Inv.of_books (s := System.setProc { s with kernel := k } i
      { s.proc i with held := q :: (s.proc i).held }) (fun p => ?_) hk ?_
    · exact cons_le_more (refs_le hleak rfl) (refs_setProc hi.1)
    · exact busy_setProc hbusy fun _ h => hbusy i hi.1 _ h

theorem Inv.drop_wp (h : Inv s) (i p : ℕ) :
    Code.Wp (step (.drop i p)) s Allowed fun _ t => Inv t := by
  have hinv := h
  obtain ⟨⟨leak, hleak, hbooks⟩, hbusy⟩ := h
  unfold step
  apply Code.Wp.bind_get
  dsimp only
  split
  swap
  · exact Code.Wp.pure hinv
  rename_i hi
  have hcount := List.count_pos_iff.mpr hi.2
  have hle := refs_setProc (p := p) (x := { s.proc i with held := [] }) hi.1
  rw [List.count_nil, add_zero] at hle
  have hb : Backed (fun p => leak p + s.refs p) s.kernel p := by
    have := hleak p
    unfold Backed
    dsimp only
    omega
  refine (Sys.kernel_wp (inodeRefDec_wp hbooks.acc hb)).bind ?_
  rintro - _ ⟨k, rfl, hr, ha⟩
  have hk := hbooks.rest hr ha
  rw [← usage_held (l := (s.proc i).held.erase p) hi.1] at hk
  refine Inv.of_books (s := System.setProc { s with kernel := k } i
    { s.proc i with held := (s.proc i).held.erase p }) (fun q => ?_) hk ?_
  · exact erase_le_more (refs_le hleak rfl) hi.2 (refs_setProc hi.1)
  · exact busy_setProc hbusy fun _ h => hbusy i hi.1 _ h

theorem Inv.fork_wp (h : Inv s) (i j : ℕ) (share : Bool) :
    Code.Wp (step (.fork i j share)) s Allowed fun _ t => Inv t := by
  have hinv := h
  obtain ⟨⟨leak, hleak, hbooks⟩, hbusy⟩ := h
  have hc : ∀ p, 0 ≤ leak p + s.refs p := fun _ =>
    (Int.natCast_nonneg _).trans (refs_le hleak rfl)
  have hd : ∀ p : ℕ, (0 : ℤ) ≤ (fun _ => 0) p := fun _ => le_rfl
  unfold step
  apply Code.Wp.bind_get
  dsimp only
  split
  swap
  · exact Code.Wp.pure hinv
  rename_i hi
  have hfree : ∀ fd, s.usage.calls s.kernel.fbrk fd = 0 := by
    intro fd
    refine Finset.card_eq_zero.mpr (Finset.filter_eq_empty_iff.mpr ?_)
    rintro x hx ⟨hf, -⟩
    have hlinks := hbooks.tables.links (s.proc x).files
    rw [links_of_live hx, hf, hbooks.acc.coherent.fbrk _ le_rfl] at hlinks
    cases hlinks
  refine (Sys.kernel_wp (copyFiles_wp hc hd rfl hbooks hfree (links_of_live hi.1))).bind ?_
  rintro ⟨ret, f⟩ _ ⟨k, rfl, hk⟩
  dsimp only at hk ⊢
  split
  · rename_i hret
    rw [if_pos hret] at hk
    exact Code.Wp.pure
      (Inv.of_books (s := { s with kernel := k }) (fun p => refs_le hleak rfl) hk hbusy)
  · rename_i hret
    rw [if_neg hret] at hk
    have hk' : Books (fun p => leak p + s.refs p) (fun _ => 0)
        (s.usage.link f (some (s.sharers f + 1))) k := by
      split at hk
      · obtain ⟨rfl, hk⟩ := hk
        exact hk
      · obtain ⟨hnone, hk⟩ := hk
        have : s.sharers f = 0 := by
          by_contra h
          rw [show s.usage.links f = some (s.sharers f : ℤ) from if_neg h] at hnone
          cases hnone
        rw [this]
        exact hk
    rw [← usage_birth hi.2.2] at hk'
    refine Inv.of_books (s := System.birth { s with kernel := k } j f) (fun p => ?_) hk' ?_
    · exact refs_le hleak (refs_birth hi.2.2)
    · intro x hx fd hb
      by_cases he : x = j
      · subst he
        change (Function.update s.proc x _ x).busy = some fd at hb
        rw [Function.update_self] at hb
        cases hb
      · change (Function.update s.proc j _ x).busy = some fd at hb
        rw [Function.update_of_ne he] at hb
        exact hbusy x (Finset.mem_of_mem_insert_of_ne hx he) fd hb

theorem Inv.exit_wp (h : Inv s) (i : ℕ) :
    Code.Wp (step (.exit i)) s Allowed fun _ t => Inv t := by
  have hinv := h
  obtain ⟨⟨leak, hleak, hbooks⟩, hbusy⟩ := h
  have hc : ∀ p, 0 ≤ leak p + s.refs p := fun _ =>
    (Int.natCast_nonneg _).trans (refs_le hleak rfl)
  have hd : ∀ p : ℕ, (0 : ℤ) ≤ (fun _ => 0) p := fun _ => le_rfl
  unfold step
  apply Code.Wp.bind_get
  dsimp only
  split
  swap
  · exact Code.Wp.pure hinv
  rename_i hi
  have hidle : ((s.sharers (s.proc i).files : ℕ) : ℤ) = 1 → ∀ fd,
      s.usage.calls (s.proc i).files fd = 0 := by
    intro hone fd
    have h₁ := sharers_leave (g := (s.proc i).files) hi.1
    rw [if_pos rfl] at h₁
    have h₂ := card_filter_erase (f := s.proc)
      (fun x : Proc => x.files = (s.proc i).files ∧ x.busy = some fd) hi.1
    rw [if_neg (by simp [hi.2.1]), add_zero] at h₂
    refine h₂.symm.trans (Finset.card_eq_zero.mpr (Finset.filter_eq_empty_iff.mpr ?_))
    rintro x hx ⟨hf, -⟩
    have h₃ : 0 < (s.leave i).sharers (s.proc i).files :=
      Finset.card_pos.mpr ⟨x, Finset.mem_filter.mpr ⟨hx, hf⟩⟩
    omega
  refine (Sys.kernel_wp (putFiles_wp hc hd rfl hbooks (links_of_live hi.1) hidle)).bind ?_
  rintro - _ ⟨k, rfl, hk⟩
  rw [← usage_leave hi.1 hi.2.1] at hk
  refine Inv.of_books (s := System.leave { s with kernel := k } i) (fun p => ?_) hk ?_
  · exact refs_le hleak (refs_leave hi.1 hi.2.2)
  · exact fun x hx => hbusy x (Finset.mem_of_mem_erase hx)

/-- A step keeps the books, and its panics say nothing against the counts. -/
theorem step_wp (h : Inv s) (a : Act) : Code.Wp (step a) s Allowed fun _ t => Inv t := by
  cases a with
  | call i a => exact h.call_wp i a
  | acquire i fd => exact h.acquire_wp i fd
  | use i a => exact h.use_wp i a
  | release i => exact h.release_wp i
  | lookup i path => exact h.lookup_wp i path
  | drop i p => exact h.drop_wp i p
  | fork i j share => exact h.fork_wp i j share
  | exit i => exact h.exit_wp i

end Step

end UCore.Vfs

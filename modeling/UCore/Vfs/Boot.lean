import UCore.Library.Run
import UCore.Sfs.Image
import UCore.Vfs.System

/-! # Runs after the boot

The counts of the inodes protect them in every run of the system.
-/

namespace UCore.Vfs

open Library Sfs

/-- The volume with no inode but the root in memory. -/
def Fs.loadRoot (s : Fs) : Fs :=
  { s with sin := fun ino => ⟨diskInode (s.disk ino), false⟩, inodeList := [sfsBlknRoot] }

/-- The system after the boot, with the mounted volume: the addresses of the inodes of `stdin`,
`stdout` and the root are 0, 1 and 2, and the idle process and `init` have the tables 0 and 1. -/
def boot (fs : Fs) (kmallocs : List Bool) (stdin : List UInt8) : System where
  kernel :=
    { fs := Fs.loadRoot fs, kmallocs, stdin
      inode := fun p =>
        if p = 0 then some ⟨.dev .stdin, .dev, 1, 0, 1⟩
        else if p = 1 then some ⟨.dev .stdout, .dev, 1, 0, 1⟩
        else if p = 2 then some ⟨.sfs sfsBlknRoot, .dir, 2, 0, 1⟩
        else none
      brk := 3
      hash := fun ino => if ino = sfsBlknRoot then some 2 else none
      bootfs := some 2
      devnode := fun d => match d with
        | .stdin => 0
        | .stdout => 1
      files := fun f =>
        if f = 0 then some ⟨none, fun _ => emptyFile, 1⟩
        else if f = 1 then some ⟨some 2, fun _ => emptyFile, 1⟩
        else none
      fbrk := 2 }
  live := {0, 1}
  proc i := ⟨i, none, []⟩

section Boot

variable {fs : Fs} {kmallocs : List Bool} {stdin : List UInt8}

theorem boot_coherent : Coherent (boot fs kmallocs stdin).kernel := by
  unfold boot
  refine ⟨fun p hp => ?_, fun f hf => ?_, fun p n hn => ?_, fun p n ino hn hi => ?_,
    fun ino p hp => ?_⟩
  · dsimp only at hp ⊢
    rw [if_neg (by omega), if_neg (by omega), if_neg (by omega)]
  · dsimp only at hf ⊢
    rw [if_neg (by omega), if_neg (by omega)]
  · dsimp only at hn
    split at hn
    · obtain rfl := Option.some.inj hn
      rfl
    split at hn
    · obtain rfl := Option.some.inj hn
      rfl
    split at hn
    · obtain rfl := Option.some.inj hn
      rfl
    · cases hn
  · dsimp only at hn ⊢
    split at hn
    · obtain rfl := Option.some.inj hn
      cases hi
    split at hn
    · obtain rfl := Option.some.inj hn
      cases hi
    split at hn
    · rename_i hp
      obtain rfl := Option.some.inj hn
      obtain rfl := Info.sfs.inj hi
      rw [if_pos rfl, hp]
    · cases hn
  · dsimp only at hp ⊢
    split at hp
    · rename_i hino
      obtain rfl := Option.some.inj hp
      exact ⟨_, rfl, by rw [hino]⟩
    · cases hp

theorem boot_acc : Acc (fun _ => 0) (fun _ => 0) (boot fs kmallocs stdin).kernel := by
  have hopen : ∀ p, (boot fs kmallocs stdin).kernel.openOf p = 0 := by
    intro p
    unfold Kernel.openOf boot
    dsimp only
    split
    · rename_i hn
      split at hn
      · obtain rfl := Option.some.inj hn
        rfl
      split at hn
      · obtain rfl := Option.some.inj hn
        rfl
      split at hn
      · obtain rfl := Option.some.inj hn
        rfl
      · cases hn
    · rfl
  have hopens : ∀ p, (boot fs kmallocs stdin).kernel.opens p = 0 := by
    intro p
    unfold Kernel.opens boot
    simp [Finset.sum_range_succ, holds_empty]
  have hpwds : ∀ p, (boot fs kmallocs stdin).kernel.pwds p = if p = 2 then 1 else 0 := by
    intro p
    unfold Kernel.pwds boot
    simp [Finset.sum_range_succ, Files.inPwd, eq_comm]
  refine ⟨boot_coherent, fun p => ?_, fun p => ?_, fun p => ?_, fun p => ?_⟩
  · rw [hopen, hopens]
    rfl
  · rw [hopen, hpwds]
    unfold Kernel.refOf Kernel.roots boot
    dsimp only
    by_cases h₀ : p = 0
    · subst h₀
      rfl
    by_cases h₁ : p = 1
    · subst h₁
      rfl
    by_cases h₂ : p = 2
    · subst h₂
      rfl
    · simp [h₀, h₁, h₂, eq_comm (b := p)]
  · rw [hopen]
  · omega

theorem boot_inv : Inv (boot fs kmallocs stdin) := by
  refine Inv.of_books (c := fun _ => 0) (fun p => ?_) ⟨boot_acc, ?_, ?_, ?_⟩ ?_
  · simp [System.refs, boot]
  · intro f
    have hsharers : (boot fs kmallocs stdin).sharers f = if f = 0 ∨ f = 1 then 1 else 0 := by
      unfold System.sharers boot
      dsimp only
      by_cases h₀ : f = 0
      · subst h₀
        rfl
      by_cases h₁ : f = 1
      · subst h₁
        rfl
      · simp [Finset.filter_insert, Finset.filter_singleton, h₀, h₁, eq_comm (b := f)]
    unfold System.usage
    dsimp only
    rw [hsharers]
    unfold boot
    dsimp only
    by_cases h₀ : f = 0
    · subst h₀
      rfl
    by_cases h₁ : f = 1
    · subst h₁
      rfl
    · simp [h₀, h₁]
  · intro f t ht fd hfd
    have hcalls : (boot fs kmallocs stdin).usage.calls f fd = 0 := by
      simp [System.usage, boot]
    rw [hcalls]
    have : t.fdArray fd = emptyFile := by
      unfold boot at ht
      dsimp only at ht
      split at ht
      · obtain rfl := Option.some.inj ht
        rfl
      split at ht
      · obtain rfl := Option.some.inj ht
        rfl
      · cases ht
    rw [this]
    exact ⟨rfl, rfl⟩
  · intro f t ht fd hfd hs
    unfold boot at ht
    dsimp only at ht
    split at ht
    · obtain rfl := Option.some.inj ht
      cases hs
    split at ht
    · obtain rfl := Option.some.inj ht
      cases hs
    · cases ht
  · intro i _ fd hb
    cases hb

end Boot

/-- The runs of the system after the boot. -/
def Run (s : System) (l : List Act) (t : System) : Prop :=
  Runs (fun s a t => step a s = .ok ((), t)) s l t

theorem Run.inv {s t : System} {l : List Act} (h : Run s l t) (hs : Inv s) : Inv t :=
  h.invariant (fun _ a _ hs ht => (step_wp hs a).ok ht) hs

/-- An open descriptor, a working directory, the boot file system, a finished lookup or the running
call of a process hold the inode. -/
inductive System.Holds (s : System) (p : ℕ) : Prop
  | descriptor {f fd : ℕ} {t : Files} : s.kernel.files f = some t → fd < filesStructNentry →
      (t.fdArray fd).status = .opened → (t.fdArray fd).node = some p → Holds s p
  | pwd {f : ℕ} {t : Files} : s.kernel.files f = some t → t.pwd = some p → Holds s p
  | bootfs : s.kernel.bootfs = some p → Holds s p
  | lookup {i : ℕ} : i ∈ s.live → p ∈ (s.proc i).held → Holds s p
  | call {i fd : ℕ} {t : Files} : i ∈ s.live → (s.proc i).busy = some fd →
      s.kernel.files (s.proc i).files = some t → (t.fdArray fd).node = some p → Holds s p

section Protect

variable {s : System} {l : List Act} {p : ℕ}

theorem Inv.alive (h : Inv s) (hp : s.Holds p) : ∃ n, s.kernel.inode p = some n ∧
    0 < n.refCount := by
  obtain ⟨⟨leak, hleak, hbooks⟩, hbusy⟩ := h
  have hl := hleak p
  have ho := hbooks.acc.openOf_nonneg p
  cases hp with
  | descriptor ht hfd hs hn =>
    exact (hbooks.acc.opened_alive le_rfl ht hfd (holds_of_node (.inl hs) hn)).2
  | pwd ht hn =>
    have := pwds_pos hbooks.acc.coherent ht hn
    exact hbooks.acc.alive (by omega)
  | bootfs hb =>
    have := roots_pos (.inl hb)
    exact hbooks.acc.alive (by omega)
  | lookup hi hm =>
    rename_i i
    have hcount := List.count_pos_iff.mpr hm
    have hle := refs_setProc (p := p) (x := { s.proc i with held := [] }) hi
    rw [List.count_nil, add_zero] at hle
    exact hbooks.acc.alive (by omega)
  | call hi hb ht hn =>
    rename_i i fd t
    have hu : Uses s.usage s.kernel (s.proc i).files fd :=
      ⟨(usage_release hi hb).1, hbusy i hi fd hb, by rw [ht]; rfl⟩
    obtain ⟨q, n, hq, hn'⟩ := hu.node hbooks (fun _ => le_rfl) ht
    obtain rfl : p = q := Option.some.inj (hn.symm.trans hq)
    exact ⟨n, hn'⟩

/-- After every run the counts cover the holders, whoever holds an inode finds it in memory, and no
step fails an assertion about the counts. -/
theorem counts_protect {fs : Fs} {kmallocs : List Bool} {stdin : List UInt8}
    (h : Run (boot fs kmallocs stdin) l s) :
    (∀ p, (s.kernel.opens p : ℤ) ≤ s.kernel.openOf p ∧
      s.kernel.openOf p + (s.kernel.pwds p + s.kernel.roots p) ≤ s.kernel.refOf p ∧
      0 ≤ s.kernel.openOf p ∧ s.kernel.openOf p ≤ s.kernel.refOf p) ∧
    (∀ p, s.Holds p → ∃ n, s.kernel.inode p = some n ∧ 0 < n.refCount) ∧
    ∀ a e, step a s = .error e → ¬ e.Counts := by
  have hinv := h.inv boot_inv
  refine ⟨fun p => ?_, fun p => hinv.alive, fun a e he => (step_wp hinv a).error he⟩
  obtain ⟨⟨leak, hleak, hbooks⟩, -⟩ := hinv
  have h₁ := hbooks.acc.opens p
  have h₂ := hbooks.acc.refs p
  have h₃ := hbooks.acc.openOf_nonneg p
  have h₄ := hleak p
  omega

/-- After every run an inode of the volume is in memory at most once, and the hash list of the
volume leads to exactly the inodes in memory. An inode is to be reclaimed once as long as it is
referred to. -/
theorem inode_cache_exact {fs : Fs} {kmallocs : List Bool} {stdin : List UInt8}
    (h : Run (boot fs kmallocs stdin) l s) :
    (∀ ino p, s.kernel.hash ino = some p ↔ ∃ n, s.kernel.inode p = some n ∧ n.info = .sfs ino) ∧
    (∀ p q n m ino, s.kernel.inode p = some n → s.kernel.inode q = some m → n.info = .sfs ino →
      m.info = .sfs ino → p = q) ∧
    ∀ p n, s.kernel.inode p = some n → n.reclaimCount = if n.refCount = 0 then 0 else 1 := by
  obtain ⟨⟨leak, -, hbooks⟩, -⟩ := h.inv boot_inv
  have k := hbooks.acc.coherent
  refine ⟨fun ino p => ⟨k.hash ino p, ?_⟩, ?_, k.reclaim⟩
  · rintro ⟨n, hn, hi⟩
    exact k.sfs p n ino hn hi
  · intro p q n m ino hn hm hi hi'
    have hp := k.sfs p n ino hn hi
    rw [k.sfs q m ino hm hi'] at hp
    exact (Option.some.inj hp).symm

end Protect

section Exec

/-- The result of a run of steps. -/
def exec : List Act → System → Option System
  | [], s => some s
  | a :: l, s =>
    match step a s with
    | .ok (_, t) => exec l t
    | .error _ => none

theorem run_of_exec {l : List Act} {s t : System} (h : exec l s = some t) : Run s l t := by
  induction l generalizing s with
  | nil =>
    obtain rfl := Option.some.inj h
    exact .nil _
  | cons a l ih =>
    unfold exec at h
    split at h
    · rename_i u hu
      exact .cons hu (ih h)
    · cases h

/-- `init` opens `stdout` and a file, duplicates the file, forks, looks up the file and starts a
call on it; the child closes `stdout` and exits. -/
theorem counts_protect_fork : ∃ s, exec [.call 1 (.openFile (stdoutName ++ [colon]) 1),
      .call 1 (.openFile [102] 2), .call 1 (.dup 1 (-100)), .fork 1 2 false, .lookup 1 [102],
      .acquire 1 1, .call 2 (.close 0), .exit 2] (boot (image 9 0 []) [] []) = some s ∧
    ((s.kernel.opens 3 : ℤ) ≤ s.kernel.openOf 3 ∧ s.kernel.openOf 3 ≤ s.kernel.refOf 3) ∧
    (s.kernel.openOf 3, s.kernel.refOf 3) = (2, 3) ∧ ∃ n, s.kernel.inode 3 = some n := by
  have hrun : (exec [.call 1 (.openFile (stdoutName ++ [colon]) 1),
      .call 1 (.openFile [102] 2), .call 1 (.dup 1 (-100)), .fork 1 2 false, .lookup 1 [102],
      .acquire 1 1, .call 2 (.close 0), .exit 2] (boot (image 9 0 []) [] [])).map (fun s =>
      decide ((s.kernel.openOf 3, s.kernel.refOf 3) = (2, 3) ∧ 1 ∈ s.live ∧ 3 ∈ (s.proc 1).held)) =
      some true := by decide +kernel
  obtain ⟨s, hs, hx⟩ := Option.map_eq_some_iff.mp hrun
  obtain ⟨hcounts, hlive, hheld⟩ := of_decide_eq_true hx
  obtain ⟨h₁, h₂, -⟩ := counts_protect (run_of_exec hs)
  obtain ⟨n, hn, -⟩ := h₂ 3 (.lookup hlive hheld)
  exact ⟨s, hs, ⟨(h₁ 3).1, (h₁ 3).2.2.2⟩, hcounts, n, hn⟩

/-- `init` looks up the root directory. -/
theorem inode_cache_exact_lookup : ∃ s, exec [.lookup 1 [47]] (boot (image 9 0 []) [] []) = some s ∧
    ∀ p, s.kernel.hash 1 = some p → ∃ n, s.kernel.inode p = some n ∧ n.info = .sfs 1 := by
  have hrun : (exec [.lookup 1 [47]] (boot (image 9 0 []) [] [])).isSome = true := by
    decide +kernel
  obtain ⟨s, hs⟩ := Option.isSome_iff_exists.mp hrun
  exact ⟨s, hs, fun p => ((inode_cache_exact (run_of_exec hs)).1 1 p).mp⟩

end Exec

end UCore.Vfs

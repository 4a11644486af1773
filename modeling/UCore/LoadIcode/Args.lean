import UCore.LoadIcode.Image
import UCore.LoadIcode.Supply
import UCore.UserMem.Execve

/-! # The arguments of a program

`do_execve` copies at most 32 strings of at most 4096 bytes, which fit on the stack of the new
process with their pointers.
-/

namespace UCore.LoadIcode

open Library PageTable Cow Fork UserMem Vmm

/-! ## The arguments of `do_execve` -/

section Exec

variable {σ : Type} {n p argv : ℕ} {s t : Ctx σ} {l : List ℕ} {kargv : List (List ℕ)}

theorem length_copyChecked (h : copyChecked n p s = .done (some l) t) : l.length ≤ n := by
  induction n generalizing p s l with
  | zero =>
    obtain ⟨rfl, -⟩ : [] = l ∧ s = t := by simpa [copyChecked] using h
    exact le_rfl
  | succ n ih =>
    unfold copyChecked at h
    obtain ⟨ok, u, -, h⟩ := Program.bind_eq_done h
    split at h
    · obtain ⟨b, v, -, h⟩ := Program.bind_eq_done h
      split at h
      · obtain ⟨rfl, -⟩ : [] = l ∧ v = t := by simpa using h
        exact Nat.zero_le _
      · obtain ⟨o, w, ho, h⟩ := Program.bind_eq_done h
        obtain ⟨hl, rfl⟩ : o.map (fun l => b :: l) = some l ∧ w = t := by simpa using h
        obtain ⟨l', rfl, rfl⟩ := Option.map_eq_some_iff.mp hl
        exact Nat.succ_le_succ (ih ho)
    · cases h

theorem copyArgs_length (F : Files σ) (h : F.copyArgs n argv s = .done (.inl kargv) t) :
    kargv.length = n ∧ ∀ arg ∈ kargv, arg.length ≤ execMaxArgLen := by
  induction n generalizing argv s kargv with
  | zero =>
    obtain ⟨rfl, -⟩ : [] = kargv ∧ s = t := by simpa [Files.copyArgs] using h
    exact ⟨rfl, fun _ ha => absurd ha List.not_mem_nil⟩
  | succ n ih =>
    unfold Files.copyArgs at h
    obtain ⟨ok, u, -, h⟩ := Program.bind_eq_done h
    split at h
    · obtain ⟨arg, v, -, h⟩ := Program.bind_eq_done h
      obtain ⟨memory, w, -, h⟩ := Program.bind_eq_done h
      split at h
      · obtain ⟨o, x, ho, h⟩ := Program.bind_eq_done h
        rcases o with _ | bytes
        · cases h
        · obtain ⟨r, y, hr, h⟩ := Program.bind_eq_done h
          rcases r with rest | ret
          · obtain ⟨rfl, rfl⟩ : bytes :: rest = kargv ∧ y = t := by simpa using h
            obtain ⟨hlen, hall⟩ := ih hr
            refine ⟨congrArg Nat.succ hlen, fun a ha => ?_⟩
            rcases List.mem_cons.mp ha with rfl | ha
            · exact length_copyChecked ho
            · exact hall a ha
          · cases h
      · cases h
    · cases h

theorem exists_execArgs (F : Files σ) {localName name : ℕ} {pid argc : ℤ}
    (h : F.execArgs localName pid name argc argv s = .done (.inl kargv) t) :
    ∃ args : ExecArgs, args.kargv = kargv.map (fun arg => arg.map UInt8.ofNat) ∧
      (args.kargv.length : ℤ) = argc := by
  have hargc : 1 ≤ argc ∧ argc ≤ execMaxArgNum := by
    by_contra hn
    unfold Files.execArgs at h
    rw [if_pos hn] at h
    cases h
  obtain ⟨ret, hr, -⟩ | ⟨name', u, -, hc⟩ := execArgs_cases F h
  · cases hr
  · obtain ⟨hlen, hall⟩ := copyArgs_length F hc
    have hint : (kargv.length : ℤ) = argc := by omega
    refine ⟨⟨kargv.map fun arg => arg.map UInt8.ofNat, ?_, fun arg ha => ?_⟩, rfl, ?_⟩
    · rwa [List.length_map, hint]
    · obtain ⟨bytes, hb, rfl⟩ := List.mem_map.mp ha
      have hle := (List.takeWhile_sublist (p := fun b : UInt8 => decide (b ≠ 0))
        (l := bytes.map UInt8.ofNat)).length_le
      rw [List.length_map] at hle
      unfold cString
      rw [List.length_append, List.length_singleton]
      exact Nat.succ_le_succ (hle.trans (hall bytes hb))
    · rw [List.length_map, hint]

end Exec

/-! ## The arguments of the new process -/

/-- `load_icode`, which has just set up the directory in `s`, loads the segments and comes to the
stack in `u`. -/
def ReachesStack (s u : Loader) : Prop :=
  ∃ data t, sysfileRead sizeofElfhdr s = .ok ((sizeofElfhdr, data), t) ∧
    (Elfhdr.ofBytes data).eMagic = elfMagic ∧
    loadHeaders (Sfs.offT (Elfhdr.ofBytes data).ePhoff.toNat)
      (Elfhdr.ofBytes data).ePhnum 0 none t =
      .ok (.inr (), u)

section Args

variable {d : ℕ} {s u : Loader} {R : ℕ → Role} {D : Finset ℕ}

theorem loadElf_returns (args : ExecArgs) (h : ReachesStack s u) (hp : Prepared d u) :
    ∃ t, loadElf args.kargv s = .ok (0, t) ∧ ∃ argv, Passed d args.kargv argv t := by
  obtain ⟨data, t, hread, hmagic, hheaders⟩ := h
  obtain ⟨v, l, hstack, hv, hk⟩ := buildStack_returns hp
  have hv' : Supplied d 0 { v with hasMm := true } :=
    ⟨⟨hv.ready.held, hv.ready.pgdir, hv.ready.ok⟩, hv.areas, hv.area, hv.entries, hv.supply⟩
  obtain ⟨w, hargs⟩ := setupArgs_returns args (Elfhdr.ofBytes data).eEntry hv' hk
  obtain ⟨-, hpassed⟩ := (setupArgs_wp args _ hv'.ready).ok hargs
  refine ⟨w, ?_, hpassed⟩
  unfold loadElf
  rw [Code.bind_ok hread]
  dsimp only
  rw [if_neg (by simp), if_neg (by simp [hmagic]), Code.bind_ok hheaders]
  dsimp only
  rw [Code.bind_ok hstack]
  dsimp only
  rw [Code.bind_ok (Code.modify_run _), Code.bind_ok hargs]
  rfl

/-- When `load_icode` returns 0, the new process finds its arguments, and it does so when the
segments are loaded outside the stack and the allocations for it succeed. -/
theorem load_passes_args (args : ExecArgs) (s : Loader) (c : CowInv s.mem R D) :
    (∀ t, loadIcode args.kargv s = .ok (0, t) →
        ∃ argv, Passed t.mm.mm.pgdir args.kargv argv t) ∧
      ∀ d u v, ReachesStack u v → Prepared d v → ∃ t, loadElf args.kargv u = .ok (0, t) ∧
        ∃ argv, Passed d args.kargv argv t :=
  ⟨fun _ ht => ((loadIcode_wp args c).ok ht rfl).args, fun _ _ _ h hp => loadElf_returns args h hp⟩

end Args

/-! ## Two runs -/

/-- A process with a new directory and a file without segments. -/
def newDirectory : Loader :=
  { freePages 1300 (opened (elfBytes 0 0)) with
    mem := (freePages 1300 (opened (elfBytes 0 0))).mem.take 1 PageTable.bootPageTable
      ((List.range' 2 1299).map some)
    mm := ⟨⟨[], none, 1⟩, 0⟩ }

theorem supplies_take (n : ℕ) (f : File) (boot : ℕ → ℕ) : Supplies n
    ((freePages (n + 1) f).mem.take 1 boot ((List.range' 2 n).map some)) := by
  have hans : ((freePages (n + 1) f).mem.take 1 boot ((List.range' 2 n).map some)).answers =
      (List.range' 2 n).map some := rfl
  have h := supplies_of_nodup hans List.nodup_range' fun q hq => by
      change q ∈ ((Finset.range (n + 1 + 1)).erase 0).erase 1
      rw [List.mem_range'_1] at hq
      simp
      omega
  rwa [List.length_range'] at h

theorem newDirectory_setupPgdir :
    (freePages 1300 (opened (elfBytes 0 0))).mem.setupPgdir PageTable.bootPageTable =
      (some 1, newDirectory.mem) := by
  unfold State.setupPgdir State.allocPage
  have hfree : 1 ∈ (freePages 1300 (opened (elfBytes 0 0))).mem.free := by
    change 1 ∈ (Finset.range 1301).erase 0
    simp
  have hans : (freePages 1300 (opened (elfBytes 0 0))).mem.answers =
      some 1 :: (List.range' 2 1299).map some := rfl
  rw [hans]
  dsimp only
  rw [if_pos hfree]
  rfl

theorem newDirectory_prepared {u : Loader} (hmem : u.mem = newDirectory.mem)
    (hmm : u.mm = newDirectory.mm) (hk : ∃ l, u.kmallocs = true :: true :: l) : Prepared 1 u := by
  have hshows := held_setupPgdir (cowInv_freePages 1300 _) newDirectory_setupPgdir
  refine ⟨⟨?_, ?_, ?_⟩, ?_, ?_, fun v hv => ?_, hk, ?_⟩
  · rw [hmem]
    exact hshows.1
  · rw [hmm]
    rfl
  · rw [hmm]
    exact ⟨by simp [newDirectory], by simp [newDirectory]⟩
  · rw [hmm]
    exact ⟨.nil, by simp [newDirectory]⟩
  · rw [hmm]
    simp [newDirectory]
  · rw [hmem]
    exact take_pte_new (fun _ => PageTable.bootPageTable_user)
      (isVpn_of_user (lt_of_stackPages hv)).1
  · rw [hmem]
    exact (supplies_take 1299 _ _).mono (by decide)

theorem newDirectory_reaches : ∃ u, ReachesStack newDirectory u ∧ Prepared 1 u := by
  have hrun : (sysfileRead sizeofElfhdr newDirectory).toOption.map (fun r =>
      decide (r.1.1 = (sizeofElfhdr : ℤ) ∧ (Elfhdr.ofBytes r.1.2).eMagic = elfMagic ∧
        (Elfhdr.ofBytes r.1.2).ePhnum = 0 ∧ r.2.kmallocs = List.replicate 19 true)) =
          some true := by
    decide +kernel
  obtain ⟨⟨ret, data⟩, u, hread, rfl, hmagic, hphnum, hk⟩ := Code.exists_of_decide hrun
  obtain ⟨-, hgot, -⟩ := (sysfileRead_wp sizeofElfhdr newDirectory).ok hread
  refine ⟨u, ⟨data, u, hread, hmagic, ?_⟩, ?_⟩
  · rw [hphnum]
    rfl
  · exact newDirectory_prepared hgot.beside.mem hgot.beside.mm ⟨_, hk⟩

theorem load_passes_oneArg :
    (∃ t argv, loadIcode oneArg.kargv (freePages 20 twoSegments) = .ok (0, t) ∧
        Passed t.mm.mm.pgdir oneArg.kargv argv t) ∧
      ∃ t argv, loadElf oneArg.kargv newDirectory = .ok (0, t) ∧ Passed 1 oneArg.kargv argv t := by
  have hrun : (loadIcode oneArg.kargv (freePages 20 twoSegments)).toOption.map
      (fun r => decide (r.1 = 0)) = some true := by decide +kernel
  obtain ⟨_, t, ht, rfl⟩ := Code.exists_of_decide hrun
  obtain ⟨hpassed, hreturns⟩ := load_passes_args oneArg _ (cowInv_freePages 20 twoSegments)
  obtain ⟨argv, hargv⟩ := hpassed t ht
  obtain ⟨u, hu, hp⟩ := newDirectory_reaches
  obtain ⟨t', ht', argv', hargv'⟩ := hreturns 1 _ u hu hp
  exact ⟨⟨t, argv, ht, hargv⟩, t', argv', ht', hargv'⟩

end UCore.LoadIcode

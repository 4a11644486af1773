import Mathlib.Data.Finset.Card
import UCore.Switch.Model

/-! # Who uses an address space

Every `mm_struct` has its own directory, counts the processes that use it, and is built by one
process before any uses it.
-/

namespace UCore.Switch

/-- The `mm_struct` that the process is building. -/
def Proc.own (x : Proc) : Option ℕ :=
  match x.at' with
  | .copying m => some m
  | .loading o => o
  | _ => none

/-- The processes that use `m`. -/
def users (procs : Finset ℕ) (proc : ℕ → Proc) (m : ℕ) : Finset ℕ :=
  procs.filter fun p => (proc p).mm = some m

structure Mem (procs : Finset ℕ) (proc : ℕ → Proc) (mms : Finset ℕ) (mm : ℕ → Mm)
    (dirs : Finset ℕ) : Prop where
  used : ∀ p ∈ procs, ∀ m, (proc p).mm = some m → m ∈ mms ∧ (proc p).pgdir = (mm m).pgdir
  owned : ∀ p ∈ procs, ∀ m, (proc p).own = some m → m ∈ mms
  unused : ∀ p ∈ procs, ∀ m, (proc p).own = some m → ∀ q ∈ procs, (proc q).mm ≠ some m
  owner : ∀ p ∈ procs, ∀ q ∈ procs, ∀ m, (proc p).own = some m → (proc q).own = some m → p = q
  count : ∀ m ∈ mms, (mm m).mmCount = (users procs proc m).card
  dirs : ∀ m ∈ mms, (mm m).pgdir ∈ dirs
  inj : ∀ m ∈ mms, ∀ m' ∈ mms, (mm m).pgdir = (mm m').pgdir → m = m'

section Users

variable {procs : Finset ℕ} {proc : ℕ → Proc} {m p : ℕ} {x : Proc}

theorem mem_users : p ∈ users procs proc m ↔ p ∈ procs ∧ (proc p).mm = some m := Finset.mem_filter

theorem users_set (procs : Finset ℕ) (proc : ℕ → Proc) (p : ℕ) (x : Proc) (m : ℕ) :
    users (insert p procs) (Function.update proc p x) m =
      if x.mm = some m then insert p (users procs proc m) else (users procs proc m).erase p := by
  ext q
  rcases eq_or_ne q p with rfl | hq
  · split
    · rename_i h
      simp [mem_users, h]
    · rename_i h
      simp [mem_users, h]
  · split
    · simp [mem_users, hq]
    · simp [mem_users, hq]

end Users

namespace Mem

variable {procs mms dirs : Finset ℕ} {proc : ℕ → Proc} {mm mm' : ℕ → Mm} {p m d : ℕ} {x : Proc}

/-- A process changes its record, and the counts follow. -/
theorem set (k : Mem procs proc mms mm dirs)
    (hused : ∀ m, x.mm = some m → m ∈ mms ∧ x.pgdir = (mm m).pgdir ∧
      ∀ q ∈ procs, q ≠ p → (proc q).own ≠ some m)
    (hown : ∀ m, x.own = some m → m ∈ mms ∧ x.mm ≠ some m ∧
      ∀ q ∈ procs, q ≠ p → (proc q).mm ≠ some m ∧ (proc q).own ≠ some m)
    (hpgdir : ∀ m, (mm' m).pgdir = (mm m).pgdir)
    (hcount : ∀ m ∈ mms, (mm' m).mmCount =
      (users (insert p procs) (Function.update proc p x) m).card) :
    Mem (insert p procs) (Function.update proc p x) mms mm' dirs := by
  have hold : ∀ {q}, q ∈ insert p procs → q ≠ p → q ∈ procs ∧ Function.update proc p x q = proc q :=
    fun hq hne => ⟨Finset.mem_of_mem_insert_of_ne hq hne, Function.update_of_ne hne _ _⟩
  constructor
  · intro q hq m hm
    rw [hpgdir]
    rcases eq_or_ne q p with rfl | hne
    · rw [Function.update_self] at hm ⊢
      exact ⟨(hused m hm).1, (hused m hm).2.1⟩
    · obtain ⟨hq, he⟩ := hold hq hne
      rw [he] at hm ⊢
      exact k.used q hq m hm
  · intro q hq m hm
    rcases eq_or_ne q p with rfl | hne
    · rw [Function.update_self] at hm
      exact (hown m hm).1
    · obtain ⟨hq, he⟩ := hold hq hne
      rw [he] at hm
      exact k.owned q hq m hm
  · intro q hq m hm r hr
    rcases eq_or_ne q p with rfl | hne
    · rw [Function.update_self] at hm
      rcases eq_or_ne r q with rfl | hne'
      · rw [Function.update_self]
        exact (hown m hm).2.1
      · obtain ⟨hr, he⟩ := hold hr hne'
        rw [he]
        exact ((hown m hm).2.2 r hr hne').1
    · obtain ⟨hq', he⟩ := hold hq hne
      rw [he] at hm
      rcases eq_or_ne r p with rfl | hne'
      · rw [Function.update_self]
        exact fun hx => (hused m hx).2.2 q hq' hne hm
      · obtain ⟨hr', he⟩ := hold hr hne'
        rw [he]
        exact k.unused q hq' m hm r hr'
  · intro q hq r hr m hqm hrm
    rcases eq_or_ne q p with rfl | hne
    · rw [Function.update_self] at hqm
      by_contra hne'
      obtain ⟨hr, he⟩ := hold hr (Ne.symm hne')
      rw [he] at hrm
      exact ((hown m hqm).2.2 r hr (Ne.symm hne')).2 hrm
    · obtain ⟨hq', he⟩ := hold hq hne
      rw [he] at hqm
      rcases eq_or_ne r p with rfl | hne'
      · rw [Function.update_self] at hrm
        exact absurd hqm ((hown m hrm).2.2 q hq' hne).2
      · obtain ⟨hr', he⟩ := hold hr hne'
        rw [he] at hrm
        exact k.owner q hq' r hr' m hqm hrm
  · exact hcount
  · intro m hm
    rw [hpgdir]
    exact k.dirs m hm
  · intro m hm m' hm' he
    rw [hpgdir, hpgdir] at he
    exact k.inj m hm m' hm' he

theorem users_eq_empty (k : Mem procs proc mms mm dirs) (hm : m ∉ mms) :
    users procs proc m = ∅ := by
  apply Finset.filter_eq_empty_iff.mpr
  intro p hp he
  exact hm (k.used p hp m he).1

/-- `mm_create` and `setup_pgdir`. -/
theorem create (k : Mem procs proc mms mm dirs) (hm : m ∉ mms) (hd : d ∉ dirs) :
    Mem procs proc (insert m mms) (Function.update mm m ⟨d, 0⟩) (insert d dirs) := by
  have hold : ∀ {m'}, m' ∈ mms → Function.update mm m ⟨d, 0⟩ m' = mm m' := by
    intro m' hm'
    apply Function.update_of_ne
    rintro rfl
    exact hm hm'
  have hcases : ∀ {m'}, m' ∈ insert m mms → m' = m ∨ m' ∈ mms := Finset.mem_insert.mp
  constructor
  · intro p hp m' hm'
    obtain ⟨h, he⟩ := k.used p hp m' hm'
    rw [hold h]
    exact ⟨Finset.mem_insert_of_mem h, he⟩
  · intro p hp m' hm'
    exact Finset.mem_insert_of_mem (k.owned p hp m' hm')
  · exact k.unused
  · exact k.owner
  · intro m' hm'
    rcases hcases hm' with rfl | hm'
    · rw [Function.update_self, k.users_eq_empty hm, Finset.card_empty]
    · rw [hold hm']
      exact k.count m' hm'
  · intro m' hm'
    rcases hcases hm' with rfl | hm'
    · rw [Function.update_self]
      exact Finset.mem_insert_self d dirs
    · rw [hold hm']
      exact Finset.mem_insert_of_mem (k.dirs m' hm')
  · have hnew : ∀ m' ∈ mms, d ≠ (mm m').pgdir := by
      rintro m' hm' rfl
      exact hd (k.dirs m' hm')
    intro m₁ h₁ m₂ h₂ he
    rcases hcases h₁ with rfl | h₁'
    · rcases hcases h₂ with rfl | h₂'
      · rfl
      · rw [Function.update_self, hold h₂'] at he
        exact absurd he (hnew m₂ h₂')
    · rcases hcases h₂ with rfl | h₂'
      · rw [Function.update_self, hold h₁'] at he
        exact absurd he.symm (hnew m₁ h₁')
      · rw [hold h₁', hold h₂'] at he
        exact k.inj m₁ h₁' m₂ h₂' he

theorem destroy (k : Mem procs proc mms mm dirs) (hm : m ∈ mms)
    (hn : ∀ p ∈ procs, (proc p).mm ≠ some m ∧ (proc p).own ≠ some m) :
    Mem procs proc (mms.erase m) mm (dirs.erase (mm m).pgdir) := by
  have hmem : ∀ {m'}, m' ∈ mms.erase m → m' ∈ mms := Finset.mem_of_mem_erase
  constructor
  · intro p hp m' hm'
    obtain ⟨h, he⟩ := k.used p hp m' hm'
    refine ⟨Finset.mem_erase.mpr ⟨?_, h⟩, he⟩
    rintro rfl
    exact (hn p hp).1 hm'
  · intro p hp m' hm'
    apply Finset.mem_erase.mpr
    refine ⟨?_, k.owned p hp m' hm'⟩
    rintro rfl
    exact (hn p hp).2 hm'
  · exact k.unused
  · exact k.owner
  · intro m' hm'
    exact k.count m' (hmem hm')
  · intro m' hm'
    apply Finset.mem_erase.mpr
    refine ⟨?_, k.dirs m' (hmem hm')⟩
    intro he
    exact Finset.ne_of_mem_erase hm' (k.inj m' (hmem hm') m hm he)
  · intro m₁ h₁ m₂ h₂ he
    exact k.inj m₁ (hmem h₁) m₂ (hmem h₂) he

theorem erase (k : Mem procs proc mms mm dirs) (hp : (proc p).mm = none) :
    Mem (procs.erase p) proc mms mm dirs := by
  have hmem : ∀ {q}, q ∈ procs.erase p → q ∈ procs := Finset.mem_of_mem_erase
  constructor
  · exact fun q hq => k.used q (hmem hq)
  · exact fun q hq => k.owned q (hmem hq)
  · exact fun q hq m hm r hr => k.unused q (hmem hq) m hm r (hmem hr)
  · exact fun q hq r hr => k.owner q (hmem hq) r (hmem hr)
  · intro m hm
    have he : users (procs.erase p) proc m = users procs proc m := by
      ext q
      rw [mem_users, mem_users, Finset.mem_erase]
      constructor
      · rintro ⟨⟨-, hq⟩, h⟩
        exact ⟨hq, h⟩
      · rintro ⟨hq, h⟩
        refine ⟨⟨?_, hq⟩, h⟩
        rintro rfl
        rw [hp] at h
        cases h
    rw [he]
    exact k.count m hm
  · exact k.dirs
  · exact k.inj

end Mem

end UCore.Switch

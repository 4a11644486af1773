import Mathlib.Algebra.Order.BigOperators.Group.List
import UCore.LoadIcode.Segment

/-! # The arguments on the stack

A store of the kernel to user memory changes the bytes that it is about and no others, whether it
faults or not. The strings are stored downwards from the top of the stack, and the pointers below.
-/

namespace UCore.LoadIcode

open Library PageTable Cow Fork UserMem Vmm

/-- The byte that user code finds at an address. -/
def userByte (d : ℕ) (m : State) (a : ℕ) : Option ℕ :=
  (view m d (a / pgsize)).map fun f => loadByte f (a % pgsize)

/-- The word that user code finds at an aligned address. -/
def userWord (d : ℕ) (m : State) (a : ℕ) : Option ℕ :=
  (view m d (a / pgsize)).map fun f => f (a % pgsize / 8)

/-! ## Stores -/

section Store

variable {d addr a b x : ℕ} {change : (ℕ → ℕ) → ℕ → ℕ} {s t u : Loader}

/-- The parts of the state that stores to the stack keep. -/
structure Still (s t : Loader) : Prop where
  list : t.mm.mm.mmapList = s.mm.mm.mmapList
  pgdir : t.mm.mm.pgdir = s.mm.mm.pgdir
  file : t.file = s.file
  mapped : t.mapped = s.mapped

theorem Still.refl (s : Loader) : Still s s := ⟨rfl, rfl, rfl, rfl⟩

theorem Still.trans (h : Still s t) (h' : Still t u) : Still s u :=
  ⟨h'.list.trans h.list, h'.pgdir.trans h.pgdir, h'.file.trans h.file, h'.mapped.trans h.mapped⟩

/-- A process with a proper address space. -/
structure Ready (d : ℕ) (s : Loader) : Prop where
  held : Held d s.mem
  pgdir : s.mm.mm.pgdir = d
  ok : s.mm.mm.Ok

/-- One store: the page at `addr` is changed, and was there or not. -/
structure Stored (d addr : ℕ) (change : (ℕ → ℕ) → ℕ → ℕ) (s t : Loader) : Prop where
  still : Still s t
  ready : Ready d t
  shows : ∃ f, (∀ f', view s.mem d (addr / pgsize) = some f' → f' = f) ∧
    Shows d t.mem (Function.update (view s.mem d) (addr / pgsize) (some (change f)))

theorem userPte_of_lt {m : State} (h : addr < usertop) :
    userPte m d addr = m.pte d (addr / pgsize) := by
  refine if_pos ?_
  unfold usertop at h
  unfold isVpn userPart idx1 pgsize
  omega

theorem stored_of_permitted (h : Ready d s) (haddr : addr < usertop)
    (hp : permitted s.mem d addr true = true) : Stored d addr change s
      (s.setMem (s.mem.setPage (pte2page (userPte s.mem d addr))
        (change (s.mem.word (pte2page (userPte s.mem d addr)))))) := by
  have hpte := userPte_of_lt (d := d) (m := s.mem) haddr
  have hv := reach_of_lt haddr
  rw [permitted, Bool.and_eq_true, hpte] at hp
  rw [hpte]
  have hshows :=
    h.held.store hv hp.1 hp.2 (change (s.mem.word (pte2page (s.mem.pte d (addr / pgsize)))))
  refine ⟨⟨rfl, rfl, rfl, rfl⟩, ⟨hshows.1, h.pgdir, h.ok⟩, _, fun f' hf => ?_, hshows⟩
  rw [view, mapsTo_iff_pageOf.mp ⟨hp.1, rfl⟩] at hf
  exact (Option.some.inj hf).symm

theorem pageFault_wp (h : Ready d s) :
    Code.Wp (pageFault addr) s (fun e => e = .pgfault addr) fun _ t =>
      Still s t ∧ Ready d t ∧ permitted t.mem d addr true = true ∧
        (Shows d t.mem (view s.mem d) ∨ view s.mem d (addr / pgsize) = none ∧
          ∃ f, Shows d t.mem (Function.update (view s.mem d) (addr / pgsize) (some f))) := by
  obtain ⟨hheld, rfl, hok⟩ := h
  obtain ⟨ret, mm', m, hf, hsame, hshows⟩ := hheld.fault causeStorePageFault addr hok
  unfold pageFault Code.Wp
  dsimp only
  rw [hf]
  dsimp only
  split
  · rename_i u t he
    split at he
    · rename_i hp
      obtain ⟨-, rfl⟩ := Prod.mk.inj (Except.ok.inj he)
      rw [hsame.pgdir] at hp
      refine ⟨⟨hsame.list, hsame.pgdir, rfl, rfl⟩, ⟨?_, hsame.pgdir, hsame.ok⟩, hp.2, hshows⟩
      rcases hshows with hs | ⟨-, f, hs⟩
      · exact hs.1
      · exact hs.1
    · cases he
  · rename_i e he
    split at he
    · cases he
    · exact (Except.error.inj he).symm

theorem storeUser_wp (h : Ready d s) (haddr : addr < usertop) :
    Code.Wp (storeUser addr change) s (fun e => e = .pgfault addr) fun _ t =>
      Stored d addr change s t := by
  have hstore : ∀ u, Ready d u → permitted u.mem d addr true = true →
      Stored d addr change u (u.setMem (u.mem.setPage (pte2page (userPte u.mem u.mm.mm.pgdir addr))
        (change (u.mem.word (pte2page (userPte u.mem u.mm.mm.pgdir addr)))))) := by
    intro u hu hp
    rw [hu.pgdir]
    exact stored_of_permitted hu haddr hp
  unfold storeUser
  refine .bind_get ?_
  rw [h.pgdir]
  by_cases hp : permitted s.mem d addr true = true
  · rw [if_neg (not_not.mpr hp)]
    exact hstore s h hp
  · rw [if_pos hp]
    refine (pageFault_wp h).bind ?_
    rintro - t ⟨hstill, hready, hpt, hshows⟩
    obtain ⟨hstill', hready', f, hfold, hnew⟩ := hstore t hready hpt
    refine ⟨hstill.trans hstill', hready', f, fun f' hf' => ?_, ?_⟩
    · rcases hshows with hs | ⟨hn, -⟩
      · refine hfold f' ?_
        rw [hs.2 _ (reach_of_lt haddr), hf']
      · rw [hf'] at hn
        cases hn
    · rcases hshows with hs | ⟨-, f₀, hs⟩
      · refine hnew.congr fun v hv => ?_
        rcases eq_or_ne v (addr / pgsize) with rfl | hne
        · simp
        · rw [Function.update_of_ne hne, Function.update_of_ne hne, hs.2 v hv]
      · exact hs.again hnew

end Store

/-! ## Ranges of addresses -/

section Writes

variable {d addr lo hi lo' hi' b w : ℕ} {s t u : Loader} {l : List UInt8}

/-- Memory changes from `lo` to `hi` only. -/
structure Writes (d lo hi : ℕ) (s t : Loader) : Prop where
  still : Still s t
  ready : Ready d t
  bytes : ∀ a, a / pgsize < reach → ¬ (lo ≤ a ∧ a < hi) → ∀ x, userByte d s.mem a = some x →
    userByte d t.mem a = some x
  words : ∀ a, a / pgsize < reach → a % 8 = 0 → a + 8 ≤ lo ∨ hi ≤ a → ∀ x,
    userWord d s.mem a = some x → userWord d t.mem a = some x
  pages : ∀ v < reach, (∀ a, lo ≤ a → a < hi → a / pgsize ≠ v) → view t.mem d v = view s.mem d v

theorem Writes.refl (h : Ready d s) (lo hi : ℕ) : Writes d lo hi s s :=
  ⟨.refl s, h, fun _ _ _ _ hx => hx, fun _ _ _ _ _ hx => hx, fun _ _ _ => rfl⟩

theorem Writes.trans (h : Writes d lo hi s t) (h' : Writes d lo hi t u) : Writes d lo hi s u where
  still := h.still.trans h'.still
  ready := h'.ready
  bytes a hr ha x hx := h'.bytes a hr ha x (h.bytes a hr ha x hx)
  words a hr ha hd x hx := h'.words a hr ha hd x (h.words a hr ha hd x hx)
  pages v hv hn := (h'.pages v hv hn).trans (h.pages v hv hn)

theorem Writes.mono (h : Writes d lo hi s t) (hlo : lo' ≤ lo) (hhi : hi ≤ hi') :
    Writes d lo' hi' s t where
  still := h.still
  ready := h.ready
  bytes a hr ha := h.bytes a hr fun hx => ha ⟨hlo.trans hx.1, hx.2.trans_le hhi⟩
  words a hr ha hd := h.words a hr ha (hd.imp (fun hx => hx.trans hlo) fun hx => hhi.trans hx)
  pages v hv hn := h.pages v hv fun a h₁ h₂ => hn a (hlo.trans h₁) (h₂.trans_le hhi)

theorem userByte_eq_some {m : State} {a x : ℕ} (h : userByte d m a = some x) :
    ∃ f, view m d (a / pgsize) = some f ∧ loadByte f (a % pgsize) = x := Option.map_eq_some_iff.mp h

theorem userWord_eq_some {m : State} {a x : ℕ} (h : userWord d m a = some x) :
    ∃ f, view m d (a / pgsize) = some f ∧ f (a % pgsize / 8) = x := Option.map_eq_some_iff.mp h

theorem Stored.writes {n : ℕ} {change : (ℕ → ℕ) → ℕ → ℕ} (h : Stored d addr change s t)
    (hv : addr / pgsize < reach) (hn : 0 < n)
    (hbyte : ∀ f a, a / pgsize = addr / pgsize → ¬ (addr ≤ a ∧ a < addr + n) →
      loadByte (change f) (a % pgsize) = loadByte f (a % pgsize))
    (hword : ∀ f a, a / pgsize = addr / pgsize → a % 8 = 0 → a + 8 ≤ addr ∨ addr + n ≤ a →
      change f (a % pgsize / 8) = f (a % pgsize / 8)) : Writes d addr (addr + n) s t := by
  obtain ⟨f, hold, hshows⟩ := h.shows
  have hsame : ∀ a f', a / pgsize = addr / pgsize → view s.mem d (a / pgsize) = some f' →
      f' = f ∧ view t.mem d (a / pgsize) = some (change f) := by
    intro a f' hp hf
    rw [hp] at hf ⊢
    exact ⟨hold f' hf, by rw [hshows.2 _ hv, Function.update_self]⟩
  have hother : ∀ v < reach, v ≠ addr / pgsize → view t.mem d v = view s.mem d v := by
    intro v hr hne
    rw [hshows.2 v hr, Function.update_of_ne hne]
  refine ⟨h.still, h.ready, fun a hr ha x hx => ?_, fun a hr ha hd x hx => ?_, fun v hr hn' => ?_⟩
  · obtain ⟨f', hf, hb⟩ := userByte_eq_some hx
    by_cases hp : a / pgsize = addr / pgsize
    · obtain ⟨rfl, ht⟩ := hsame a f' hp hf
      rw [userByte, ht, Option.map_some, hbyte f' a hp ha, hb]
    · rw [userByte, hother _ hr hp]
      exact hx
  · obtain ⟨f', hf, hb⟩ := userWord_eq_some hx
    by_cases hp : a / pgsize = addr / pgsize
    · obtain ⟨rfl, ht⟩ := hsame a f' hp hf
      rw [userWord, ht, Option.map_some, hword f' a hp ha hd, hb]
    · rw [userWord, hother _ hr hp]
      exact hx
  · exact hother v hr (hn' addr le_rfl (by omega)).symm

theorem storeByte_wp (h : Ready d s) (haddr : addr < usertop) (hb : b < 256) :
    Code.Wp (storeUser addr fun f => storeByte f (addr % pgsize) b) s (fun e => e = .pgfault addr)
      fun _ t => Writes d addr (addr + 1) s t ∧ userByte d t.mem addr = some b := by
  have hv := reach_of_lt haddr
  have hbytes : ∀ f o, loadByte (storeByte f (addr % pgsize) b) o =
      Function.update (bytes f) (addr % pgsize) b o := fun f o => congrFun (bytes_storeByte hb) o
  refine (storeUser_wp h haddr).mono (fun _ he => he) fun _ t hs => ⟨hs.writes hv one_pos ?_ ?_, ?_⟩
  · intro f a hp ha
    rw [hbytes, Function.update_of_ne]
    · rfl
    · unfold pgsize at *
      omega
  · intro f a hp ha hd
    refine Function.update_of_ne ?_ _ _
    unfold pgsize at *
    omega
  · obtain ⟨f, -, hshows⟩ := hs.shows
    rw [userByte, hshows.2 _ hv, Function.update_self, Option.map_some, hbytes,
      Function.update_self]

theorem storeWord_wp (h : Ready d s) (haddr : addr < usertop) (hal : addr % 8 = 0) (w : ℕ) :
    Code.Wp (storeUser addr fun f => Function.update f (addr % pgsize / 8) w) s
      (fun e => e = .pgfault addr) fun _ t =>
        Writes d addr (addr + 8) s t ∧ userWord d t.mem addr = some w := by
  have hv := reach_of_lt haddr
  refine (storeUser_wp h haddr).mono (fun _ he => he) fun _ t hs =>
    ⟨hs.writes hv (by decide) ?_ ?_, ?_⟩
  · intro f a hp ha
    unfold loadByte
    rw [Function.update_of_ne]
    unfold pgsize at *
    omega
  · intro f a hp ha hd
    refine Function.update_of_ne ?_ _ _
    unfold pgsize at *
    omega
  · obtain ⟨f, -, hshows⟩ := hs.shows
    rw [userWord, hshows.2 _ hv, Function.update_self, Option.map_some, Function.update_self]

end Writes

/-! ## Strings and pointers -/

section Strings

variable {d addr : ℕ} {s t u : Loader} {l : List UInt8}

/-- The bytes stand in memory from an address on. -/
def HasBytes (d : ℕ) (m : State) (addr : ℕ) (l : List UInt8) : Prop :=
  ∀ k b, l[k]? = some b → userByte d m (addr + k) = some b.toNat

/-- The words stand in memory from an address on. -/
def HasWords (d : ℕ) (m : State) (addr : ℕ) (l : List ℕ) : Prop :=
  ∀ k w, l[k]? = some w → userWord d m (addr + 8 * k) = some w

theorem HasBytes.of_writes {lo hi : ℕ} (h : HasBytes d s.mem addr l) (hw : Writes d lo hi s t)
    (htop : addr + l.length ≤ usertop) (hd : hi ≤ addr ∨ addr + l.length ≤ lo) :
    HasBytes d t.mem addr l := by
  intro k b hk
  have hlt := (List.getElem?_eq_some_iff.mp hk).1
  exact hw.bytes _ (reach_of_lt (by omega)) (by omega) _ (h k b hk)

theorem memcpyUser_wp (h : Ready d s) (htop : addr + l.length ≤ usertop) :
    Code.Wp (memcpyUser l addr) s (fun e => ∃ a, e = .pgfault a) fun _ t =>
      Writes d addr (addr + l.length) s t ∧ HasBytes d t.mem addr l := by
  induction l generalizing addr s with
  | nil => exact ⟨.refl h _ _, fun k b hk => by cases hk⟩
  | cons b l ih =>
    rw [List.length_cons] at htop ⊢
    unfold memcpyUser
    refine ((storeByte_wp h (by omega) b.toNat_lt).mono (fun _ he =>
      ⟨_, he⟩) fun _ _ hs => hs).bind ?_
    rintro - t ⟨hw, hb⟩
    refine (ih hw.ready (by omega)).mono (fun _ he => he) fun _ u ⟨hw', hl⟩ => ⟨?_, ?_⟩
    · exact (hw.mono le_rfl (by omega)).trans (hw'.mono (by omega) (by omega))
    · intro k c hk
      cases k with
      | zero =>
        obtain rfl := Option.some.inj hk
        exact hw'.bytes _ (reach_of_lt (by omega)) (by omega) _ hb
      | succ k =>
        have := hl k c hk
        rwa [Nat.add_assoc, Nat.add_comm 1 k] at this

theorem storeWords_wp {l : List UInt64} (h : Ready d s) (hal : addr % 8 = 0)
    (htop : addr + 8 * l.length ≤ usertop) :
    Code.Wp (storeWords l addr) s (fun e => ∃ a, e = .pgfault a) fun _ t =>
      Writes d addr (addr + 8 * l.length) s t ∧ HasWords d t.mem addr (l.map UInt64.toNat) := by
  induction l generalizing addr s with
  | nil => exact ⟨.refl h _ _, fun k b hk => by cases hk⟩
  | cons w l ih =>
    rw [List.length_cons] at htop ⊢
    unfold storeWords
    refine ((storeWord_wp h (by omega) hal w.toNat).mono (fun _ he => ⟨_, he⟩)
      fun _ _ hs => hs).bind ?_
    rintro - t ⟨hw, hb⟩
    refine (ih hw.ready (by omega) (by omega)).mono (fun _ he => he) fun _ u ⟨hw', hl⟩ => ⟨?_, ?_⟩
    · exact (hw.mono le_rfl (by omega)).trans (hw'.mono (by omega) (by omega))
    · intro k c hk
      cases k with
      | zero =>
        obtain rfl := Option.some.inj hk
        exact hw'.words _ (reach_of_lt (by omega)) (by omega) (by omega) _ hb
      | succ k =>
        have := hl k c hk
        rwa [Nat.add_assoc, Nat.add_comm 8, ← Nat.mul_succ] at this

/-- The addresses of the strings below `top`. -/
def placed : List (List UInt8) → ℕ → List ℕ
  | [], _ => []
  | arg :: kargv, top =>
    (top - (cString arg).length) :: placed kargv (top - (cString arg).length)

/-- The bytes that the strings take. -/
def stringBytes (kargv : List (List UInt8)) : ℕ := (kargv.map fun arg => (cString arg).length).sum

/-- The strings stand at these addresses. -/
def HasStrings (d : ℕ) (m : State) (kargv : List (List UInt8)) (argv : List ℕ) : Prop :=
  List.Forall₂ (fun arg p => HasBytes d m p (cString arg)) kargv argv

/-- The part of memory that each string takes. -/
def stringBlocks (kargv : List (List UInt8)) (argv : List ℕ) : List (ℕ × ℕ) :=
  argv.zip (kargv.map fun arg => (cString arg).length)

variable {kargv : List (List UInt8)} {top : ℕ}

theorem stringBytes_cons {arg : List UInt8} :
    stringBytes (arg :: kargv) = (cString arg).length + stringBytes kargv := List.sum_cons

theorem length_placed : (placed kargv top).length = kargv.length := by
  induction kargv generalizing top with
  | nil => rfl
  | cons arg kargv ih => rw [placed, List.length_cons, List.length_cons, ih]

theorem stringBlocks_placed (h : stringBytes kargv ≤ top) :
    (∀ x ∈ stringBlocks kargv (placed kargv top),
        top - stringBytes kargv ≤ x.1 ∧ x.1 + x.2 ≤ top) ∧
      (stringBlocks kargv (placed kargv top)).Pairwise fun x y => y.1 + y.2 ≤ x.1 := by
  induction kargv generalizing top with
  | nil => exact ⟨fun _ hx => absurd hx List.not_mem_nil, List.Pairwise.nil⟩
  | cons arg kargv ih =>
    rw [stringBytes_cons] at h ⊢
    obtain ⟨hin, hpair⟩ := ih (show stringBytes kargv ≤ top - (cString arg).length by omega)
    change (∀ x ∈ (_, _) :: stringBlocks kargv (placed kargv _), _) ∧
      ((_, _) :: stringBlocks kargv (placed kargv _)).Pairwise _
    refine ⟨fun x hx => ?_, List.pairwise_cons.mpr ⟨fun y hy => (hin y hy).2, hpair⟩⟩
    rcases List.mem_cons.mp hx with rfl | hx
    · dsimp only
      omega
    · have := hin x hx
      omega

theorem HasStrings.of_writes {argv : List ℕ} {lo hi : ℕ} (h : HasStrings d s.mem kargv argv)
    (hw : Writes d lo hi s t) (hb : ∀ x ∈ stringBlocks kargv argv, hi ≤ x.1 ∧ x.1 + x.2 ≤ usertop) :
    HasStrings d t.mem kargv argv := by
  unfold HasStrings stringBlocks at *
  induction h with
  | nil => exact .nil
  | cons hx hl ih =>
    rw [List.map_cons, List.zip_cons_cons] at hb
    have hx' := hb _ List.mem_cons_self
    exact .cons (hx.of_writes hw hx'.2 (.inl hx'.1)) (ih fun x hm =>
      hb x (List.mem_cons_of_mem _ hm))

theorem toNat_sub_length {ustack : UInt64} {n : ℕ} (h : n ≤ ustack.toNat) :
    (ustack - UInt64.ofNat n).toNat = ustack.toNat - n := by
  have hlt := ustack.toNat_lt
  have hlen : (UInt64.ofNat n).toNat = n := UInt64.toNat_ofNat_of_lt' (by unfold UInt64.size; omega)
  rw [UInt64.toNat_sub_of_le, hlen]
  rw [UInt64.le_iff_toNat_le, hlen]
  exact h

theorem pushArgs_wp {ustack : UInt64} (argvStore : List UInt64) (h : Ready d s)
    (htop : ustack.toNat ≤ usertop) (hfit : stringBytes kargv ≤ ustack.toNat) :
    Code.Wp (pushArgs kargv ustack argvStore) s (fun e => ∃ a, e = .pgfault a) fun r t =>
      r.1.toNat = ustack.toNat - stringBytes kargv ∧
        r.2.map UInt64.toNat = argvStore.map UInt64.toNat ++ placed kargv ustack.toNat ∧
        Writes d (ustack.toNat - stringBytes kargv) ustack.toNat s t ∧
        HasStrings d t.mem kargv (placed kargv ustack.toNat) := by
  induction kargv generalizing ustack argvStore s with
  | nil => exact ⟨rfl, by simp [placed], .refl h _ _, List.Forall₂.nil⟩
  | cons arg kargv ih =>
    rw [stringBytes_cons] at hfit ⊢
    have hsub := toNat_sub_length (show (cString arg).length ≤ ustack.toNat by omega)
    unfold pushArgs
    dsimp only
    generalize ustack - UInt64.ofNat (cString arg).length = ustack' at hsub ⊢
    rw [hsub]
    refine (memcpyUser_wp h (by omega)).bind ?_
    rintro - t ⟨hw, hb⟩
    refine (ih _ hw.ready (show ustack'.toNat ≤ usertop by omega) (by omega)).mono
      (fun _ he => he) ?_
    rintro ⟨v, store⟩ u ⟨h₁, h₂, h₃, h₄⟩
    rw [hsub] at h₁ h₂ h₃ h₄
    dsimp only at h₁ h₂ ⊢
    refine ⟨by omega, ?_, (hw.mono (by omega) (by omega)).trans (h₃.mono (by omega) (by omega)), ?_⟩
    · rw [h₂, List.map_append, List.append_assoc, List.map_singleton, hsub]
      rfl
    · exact List.Forall₂.cons (hb.of_writes h₃ (by omega) (.inl le_rfl)) h₄

end Strings

/-! ## The stack of a new process -/

section Setup

variable {d : ℕ} {s t u : Loader} {kargv : List (List UInt8)}

/-- The lowest address of the stack. -/
def stackBase : ℕ := 0x80000000 - 256 * 4096

/-- The arguments that `do_execve` passes on. -/
structure ExecArgs where
  kargv : List (List UInt8)
  argc : 1 ≤ (kargv.length : ℤ) ∧ (kargv.length : ℤ) ≤ execMaxArgNum
  short : ∀ arg ∈ kargv, (cString arg).length ≤ execMaxArgLen + 1

theorem stringBytes_le (h : ∀ arg ∈ kargv, (cString arg).length ≤ execMaxArgLen + 1) :
    stringBytes kargv ≤ kargv.length * (execMaxArgLen + 1) := by
  unfold stringBytes
  have := List.sum_le_card_nsmul (kargv.map fun arg => (cString arg).length) (execMaxArgLen + 1)
    fun x hx => by
      obtain ⟨arg, harg, rfl⟩ := List.mem_map.mp hx
      exact h arg harg
  rwa [List.length_map] at this

theorem ExecArgs.length_le (args : ExecArgs) : args.kargv.length ≤ 32 := by
  have := args.argc.2
  unfold execMaxArgNum at this
  omega

theorem ExecArgs.stringBytes_le (args : ExecArgs) : stringBytes args.kargv ≤ 131104 := by
  have hlen := args.length_le
  have hbytes := LoadIcode.stringBytes_le args.short
  unfold execMaxArgLen at hbytes
  omega

theorem argsPointer_spec (args : ExecArgs) {ustack sp : UInt64}
    (h : ustack.toNat = usertop - stringBytes args.kargv)
    (hs : roundDown ustack 8 - 8 * (UInt64.ofNat args.kargv.length + 1) = sp) :
    sp.toNat % 8 = 0 ∧ stackBase ≤ sp.toNat ∧
      sp.toNat + 8 * (args.kargv.length + 1) ≤ usertop - stringBytes args.kargv := by
  have hlen := args.length_le
  have hbytes := args.stringBytes_le
  have hargc : (UInt64.ofNat args.kargv.length).toNat = args.kargv.length :=
    UInt64.toNat_ofNat_of_lt' (by unfold UInt64.size; omega)
  have hlow : (roundDown ustack 8).toNat = ustack.toNat / 8 * 8 := toNat_roundDown ustack 8
  have hwords : (8 * (UInt64.ofNat args.kargv.length + 1)).toNat = 8 * (args.kargv.length + 1) := by
    rw [UInt64.toNat_mul, UInt64.toNat_add, hargc]
    change 8 * ((args.kargv.length + 1) % 2 ^ 64) % 2 ^ 64 = _
    omega
  have hsp : sp.toNat = ustack.toNat / 8 * 8 - 8 * (args.kargv.length + 1) := by
    rw [← hs, UInt64.toNat_sub_of_le, hlow, hwords]
    rw [UInt64.le_iff_toNat_le, hlow, hwords, h]
    unfold usertop
    omega
  rw [hsp, h]
  unfold stackBase usertop
  omega

/-- The memory that the pointers and the strings take. -/
def argBlocks (kargv : List (List UInt8)) (argv : List ℕ) (sp : ℕ) : List (ℕ × ℕ) :=
  (sp, 8 * (argv.length + 1)) :: stringBlocks kargv argv

/-- The arguments as the new process finds them. -/
structure Passed (d : ℕ) (kargv : List (List UInt8)) (argv : List ℕ) (t : Loader) : Prop where
  a0 : t.tf.a0.toNat = kargv.length
  a1 : t.tf.a1 = t.tf.sp
  aligned : t.tf.sp.toNat % 8 = 0
  pointers : HasWords d t.mem t.tf.a1.toNat (argv ++ [0])
  strings : HasStrings d t.mem kargv argv
  disjoint : (argBlocks kargv argv t.tf.sp.toNat).Pairwise fun x y =>
    x.1 + x.2 ≤ y.1 ∨ y.1 + y.2 ≤ x.1
  inside : ∀ x ∈ argBlocks kargv argv t.tf.sp.toNat,
    stackBase ≤ x.1 ∧ x.1 + x.2 ≤ ustacktop.toNat ∧ t.tf.sp.toNat ≤ x.1

/-- Memory changes in the stack only. -/
structure OnStack (d : ℕ) (s t : Loader) : Prop where
  still : Still s t
  ready : Ready d t
  other : ∀ v < reach, ¬ (stackBase / pgsize ≤ v ∧ v < usertop / pgsize) →
    view t.mem d v = view s.mem d v

theorem Writes.onStack {lo : ℕ} (h : Writes d lo usertop s t) (hlo : stackBase ≤ lo) :
    OnStack d s t := by
  refine ⟨h.still, h.ready, fun v hv hn => h.pages v hv fun a h₁ h₂ he => hn ?_⟩
  unfold stackBase usertop pgsize at *
  omega

theorem setupArgs_wp (args : ExecArgs) (entry : UInt64) (h : Ready d s) :
    Code.Wp (setupArgs args.kargv entry) s (fun e => e = .argvStore ∨ ∃ a, e = .pgfault a)
      fun _ t => OnStack d s t ∧ ∃ argv, Passed d args.kargv argv t := by
  have htop : ustacktop.toNat = usertop := rfl
  have hfit := args.stringBytes_le
  have hargc : (UInt64.ofNat args.kargv.length).toNat = args.kargv.length := by
    have := args.length_le
    exact UInt64.toNat_ofNat_of_lt' (by unfold UInt64.size; omega)
  unfold setupArgs
  refine ((kmalloc_wp s).mono (fun _ he => he.elim) fun _ _ hk => hk).bind ?_
  rintro b t₀ ⟨hbeside, hfile⟩
  have hready₀ : Ready d t₀ := by
    refine ⟨?_, ?_, ?_⟩
    · rw [hbeside.mem]
      exact h.held
    · rw [hbeside.mm]
      exact h.pgdir
    · rw [hbeside.mm]
      exact h.ok
  have hstill₀ : Still s t₀ := ⟨by rw [hbeside.mm], by rw [hbeside.mm], hfile, hbeside.mapped⟩
  refine .bind_assert (fun _ => ?_) fun _ => .inl rfl
  refine ((pushArgs_wp [] hready₀ (by rw [htop]) (by rw [htop]; unfold usertop; omega)).mono
    (fun _ he => .inr he) fun _ _ hp => hp).bind ?_
  rintro ⟨ustack, argvStore⟩ t₁ ⟨hustack, hstore, hw₁, hstrings⟩
  rw [htop] at hustack hstore hw₁ hstrings
  rw [List.map_nil, List.nil_append] at hstore
  dsimp only at hustack hstore ⊢
  have hn : argvStore.length = args.kargv.length := by
    rw [← List.length_map (f := UInt64.toNat), hstore, length_placed]
  generalize hs : roundDown ustack 8 - 8 * (UInt64.ofNat args.kargv.length + 1) = sp
  obtain ⟨hal, hbase, hspan'⟩ := argsPointer_spec args hustack hs
  have hspan : sp.toNat + 8 * (argvStore ++ [0]).length ≤ usertop - stringBytes args.kargv := by
    rwa [List.length_append, hn, List.length_singleton]
  refine ((storeWords_wp hw₁.ready (by omega) (by omega)).mono (fun _ he => .inr he)
    fun _ _ hp => hp).bind ?_
  rintro - t₂ ⟨hw₂, hptrs⟩
  obtain ⟨hin, hpair⟩ := stringBlocks_placed
    (show stringBytes args.kargv ≤ usertop by unfold usertop; omega)
  have hall := (hw₁.mono (show sp.toNat ≤ _ by omega) le_rfl).trans
    (hw₂.mono le_rfl (show _ ≤ usertop by omega))
  have hon := hall.onStack hbase
  have hlen' : (placed args.kargv usertop).length = args.kargv.length := length_placed
  have hstill := hstill₀.trans hon.still
  have hstrings₂ : HasStrings d t₂.mem args.kargv (placed args.kargv usertop) :=
    hstrings.of_writes hw₂ fun x hx => by
      have := hin x hx
      omega
  refine ⟨⟨⟨hstill.list, hstill.pgdir, hstill.file, hstill.mapped⟩,
    ⟨hon.ready.held, hon.ready.pgdir, hon.ready.ok⟩, fun v hv hn => ?_⟩,
      placed args.kargv usertop, ?_⟩
  · rw [← hbeside.mem]
    exact hon.other v hv hn
  · constructor
    case a0 => exact hargc
    case a1 => rfl
    case aligned =>
      change sp.toNat % 8 = 0
      omega
    case pointers =>
      rw [List.map_append, hstore] at hptrs
      exact hptrs
    case strings => exact hstrings₂
    case disjoint =>
      refine List.pairwise_cons.mpr ⟨fun y hy => .inl ?_, hpair.imp fun hxy => .inr hxy⟩
      have := hin y hy
      rw [hlen']
      exact hspan'.trans this.1
    case inside =>
      intro x hx
      change _ ∧ _ ≤ usertop ∧ sp.toNat ≤ _
      rcases List.mem_cons.mp hx with rfl | hx
      · change stackBase ≤ sp.toNat ∧
          sp.toNat + 8 * ((placed args.kargv usertop).length + 1) ≤ usertop ∧
          sp.toNat ≤ sp.toNat
        rw [hlen']
        omega
      · have := hin x hx
        omega

end Setup

end UCore.LoadIcode

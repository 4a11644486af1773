import UCore.Dtb.Model

/-! # An iteration of the scan

What an iteration of `extract_memory_info` reads when all of it lies in the blob, and where the
cursor stands behind it.
-/

namespace UCore.Dtb

open Library

/-- A string with `n` bytes before its terminator lies in the blob. -/
structure Blob.CString (b : Blob) (a n : ℕ) : Prop where
  inside : b.Inside a (n + 1)
  terminator : b.byte (a + n) = 0
  nonzero : ∀ i < n, b.byte (a + i) ≠ 0

def Blob.startsWith (b : Blob) : ℕ → List UInt8 → Bool
  | _, [] => true
  | a, c :: s => decide (b.byte a = c) && startsWith b (a + 1) s

/-- The bytes that a comparison with a string looks at lie in the blob. -/
def Blob.Comparable (b : Blob) : ℕ → List UInt8 → Prop
  | _, [] => True
  | a, c :: s => b.Inside a 1 ∧ (b.byte a = c → c ≠ 0 → Comparable b (a + 1) s)

section Strings

variable {b : Blob} {a n : ℕ} {s : List UInt8} {r : Bool}

theorem cString_zero : b.CString a 0 ↔ b.Inside a 1 ∧ b.byte a = 0 :=
  ⟨fun h => ⟨h.inside, h.terminator⟩, fun h => ⟨h.1, h.2, by simp⟩⟩

theorem cString_succ :
    b.CString a (n + 1) ↔ b.Inside a 1 ∧ b.byte a ≠ 0 ∧ b.CString (a + 1) n := by
  constructor
  · rintro ⟨hin, ht, hn⟩
    unfold Blob.Inside at *
    refine ⟨by omega, hn 0 (by omega), ⟨?_, ?_, fun i hi => ?_⟩⟩
    · unfold Blob.Inside
      omega
    · rwa [Nat.add_assoc, Nat.add_comm 1 n]
    · rw [Nat.add_assoc, Nat.add_comm 1 i]
      exact hn (i + 1) (by omega)
  · rintro ⟨hin, h₀, hin', ht, hn⟩
    unfold Blob.Inside at *
    refine ⟨?_, ?_, fun i hi => ?_⟩
    · unfold Blob.Inside
      omega
    · rwa [Nat.add_assoc, Nat.add_comm 1 n] at ht
    · cases i with
      | zero => exact h₀
      | succ i =>
        have := hn i (by omega)
        rwa [Nat.add_assoc, Nat.add_comm 1 i] at this

theorem strlen_eq_some_iff : b.strlen a = some n ↔ b.CString a n := by
  induction n generalizing a with
  | zero =>
    rw [cString_zero, Blob.strlen]
    by_cases hin : b.Inside a 1 <;> by_cases h₀ : b.byte a = 0 <;> simp [hin, h₀]
  | succ n ih =>
    rw [cString_succ, Blob.strlen]
    by_cases hin : b.Inside a 1 <;> by_cases h₀ : b.byte a = 0 <;> simp [hin, h₀, ih]

theorem strncmp_eq (h : b.CString a n) (hs : ∀ c ∈ s, c ≠ 0) :
    b.strncmp a (s ++ [0]) s.length = some (b.startsWith a s) := by
  induction s generalizing a n with
  | nil => rfl
  | cons c s ih =>
    obtain ⟨hc, hs⟩ := List.forall_mem_cons.mp hs
    have hin : b.Inside a 1 := by
      have := h.inside
      unfold Blob.Inside at *
      omega
    rw [List.cons_append, List.length_cons, Blob.strncmp, Blob.load8, if_pos hin,
      Option.bind_eq_bind, Option.bind_some, Blob.startsWith]
    by_cases hx : b.byte a = c
    · cases n with
      | zero => exact absurd (hx.symm.trans (cString_zero.mp h).2) hc
      | succ n =>
        obtain ⟨-, h₀, ht⟩ := cString_succ.mp h
        rw [if_pos ⟨h₀, hx⟩, ih ht hs]
        simp [hx]
    · rw [if_neg fun hc => hx hc.2]
      simp [hx]

theorem strcmp_eq_some_iff (hs : ∀ c ∈ s, c ≠ 0) : b.strcmp a (s ++ [0]) = some r ↔
    b.Comparable a (s ++ [0]) ∧ b.startsWith a (s ++ [0]) = r := by
  induction s generalizing a with
  | nil =>
    by_cases hin : b.Inside a 1 <;>
      simp [Blob.strcmp, Blob.load8, Blob.Comparable, Blob.startsWith, hin]
  | cons c s ih =>
    obtain ⟨hc, hs⟩ := List.forall_mem_cons.mp hs
    rw [List.cons_append, Blob.strcmp, Blob.Comparable, Blob.startsWith, Blob.load8]
    by_cases hin : b.Inside a 1
    · by_cases hx : b.byte a = c
      · simp [hin, hx, hc, ih hs]
      · simp [hin, hx]
    · simp [hin]

end Strings

/-- What an iteration at `p` finds lies in the blob, and leads to `r`. -/
inductive Item (b : Blob) (strings p : ℕ) (inMemoryNode : Bool) : (ℕ × Bool) ⊕ Outcome → Prop
  | beginNode {n : ℕ} (hp : b.Inside p 4) (ht : b.cell p = fdtBeginNode)
      (hname : b.CString (advance p 4) n) :
      Item b strings p inMemoryNode (.inl (alignDown (advance (advance p 4) (int32 n + 4)),
        b.startsWith (advance p 4) memoryName || inMemoryNode))
  | endNode (hp : b.Inside p 4) (ht : b.cell p = fdtEndNode) :
      Item b strings p inMemoryNode (.inl (advance p 4, false))
  | nop (hp : b.Inside p 4) (ht : b.cell p = fdtNop) :
      Item b strings p inMemoryNode (.inl (advance p 4, inMemoryNode))
  | prop {len name : ℕ} (hp : b.Inside p 4) (ht : b.cell p = fdtProp)
      (hlen : b.Inside (advance p 4) 4) (hl : b.cell (advance p 4) = len)
      (hoff : b.Inside (advance (advance p 4) 4) 4)
      (hn : advance strings (b.cell (advance (advance p 4) 4)) = name)
      (hname : inMemoryNode = true → b.Comparable name (regName ++ [0]))
      (hskip : ¬ (inMemoryNode = true ∧ b.startsWith name (regName ++ [0]) = true ∧ 16 ≤ len)) :
      Item b strings p inMemoryNode
        (.inl (alignDown (advance (advance (advance p 4) 8) (len + 3)), inMemoryNode))
  | reg {len name : ℕ} (hp : b.Inside p 4) (ht : b.cell p = fdtProp)
      (hlen : b.Inside (advance p 4) 4) (hl : b.cell (advance p 4) = len)
      (hoff : b.Inside (advance (advance p 4) 4) 4)
      (hn : advance strings (b.cell (advance (advance p 4) 4)) = name)
      (hname : b.Comparable name (regName ++ [0]))
      (hreg : inMemoryNode = true ∧ b.startsWith name (regName ++ [0]) = true ∧ 16 ≤ len)
      (hbase : b.Inside (advance (advance p 4) 8) 8)
      (hsize : b.Inside (advance (advance (advance p 4) 8) 8) 8) :
      Item b strings p inMemoryNode (.inr (.found
        (fdt64ToCpu (b.word (advance (advance p 4) 8) +
          2 ^ 32 * b.word (advance (advance p 4) 8 + 4)))
        (fdt64ToCpu (b.word (advance (advance (advance p 4) 8) 8) +
          2 ^ 32 * b.word (advance (advance (advance p 4) 8) 8 + 4)))))
  | stop (hp : b.Inside p 4) (ht : b.cell p ≠ fdtBeginNode ∧ b.cell p ≠ fdtEndNode ∧
      b.cell p ≠ fdtProp ∧ b.cell p ≠ fdtNop) : Item b strings p inMemoryNode (.inr .failed)

section Steps

variable {b : Blob} {strings p : ℕ} {inMemoryNode : Bool} {r : (ℕ × Bool) ⊕ Outcome}

theorem load32_eq_some_iff {a w : ℕ} : b.load32 a = some w ↔ b.Inside a 4 ∧ b.word a = w := by
  unfold Blob.load32
  by_cases h : b.Inside a 4 <;> simp [h]

theorem load64_eq_some_iff {a w : ℕ} :
    b.load64 a = some w ↔ b.Inside a 8 ∧ b.word a + 2 ^ 32 * b.word (a + 4) = w := by
  unfold Blob.load64
  by_cases h : b.Inside a 8 <;> simp [h]

theorem regName_nonzero : ∀ c ∈ regName, c ≠ 0 := by simp [regName]

theorem memoryName_nonzero : ∀ c ∈ memoryName, c ≠ 0 := by simp [memoryName]

theorem ite_eq_or {c f : Bool} : (if c = true then true else f) = (c || f) := by
  cases c <;> rfl

theorem isReg_eq_some_iff {a : ℕ} {i : Bool} : b.isReg inMemoryNode a = some i ↔
    (inMemoryNode = true → b.Comparable a (regName ++ [0])) ∧
      (inMemoryNode && b.startsWith a (regName ++ [0])) = i := by
  unfold Blob.isReg
  cases inMemoryNode
  · simp
  · simp [strcmp_eq_some_iff regName_nonzero]

theorem scanProp_eq_some_iff (hp : b.Inside p 4) (ht : b.cell p = fdtProp) :
    b.scanProp strings (advance p 4) inMemoryNode = some r ↔
      Item b strings p inMemoryNode r := by
  constructor
  · intro h
    obtain ⟨w, hw, h⟩ := Option.bind_eq_some_iff.mp h
    obtain ⟨hlen, rfl⟩ := load32_eq_some_iff.mp hw
    obtain ⟨w, hw, h⟩ := Option.bind_eq_some_iff.mp h
    obtain ⟨hoff, rfl⟩ := load32_eq_some_iff.mp hw
    obtain ⟨i, hi, h⟩ := Option.bind_eq_some_iff.mp h
    obtain ⟨hcmp, rfl⟩ := isReg_eq_some_iff.mp hi
    change (if (inMemoryNode && _) = true ∧ 16 ≤ b.cell (advance p 4) then _ else _) = some r at h
    split_ifs at h with hreg
    · rw [Bool.and_eq_true] at hreg
      obtain ⟨w, hw, h⟩ := Option.bind_eq_some_iff.mp h
      obtain ⟨hbase, rfl⟩ := load64_eq_some_iff.mp hw
      obtain ⟨w, hw, h⟩ := Option.bind_eq_some_iff.mp h
      obtain ⟨hsize, rfl⟩ := load64_eq_some_iff.mp hw
      obtain rfl := Option.some.inj h
      exact .reg hp ht hlen rfl hoff rfl (hcmp hreg.1.1) ⟨hreg.1.1, hreg.1.2, hreg.2⟩ hbase hsize
    · rw [Bool.and_eq_true, and_assoc] at hreg
      obtain rfl := Option.some.inj h
      exact .prop hp ht hlen rfl hoff rfl hcmp hreg
  · intro h
    have hne : fdtProp ≠ fdtBeginNode ∧ fdtProp ≠ fdtEndNode ∧ fdtProp ≠ fdtNop := by decide
    cases h with
    | beginNode _ ht' => exact absurd (ht.symm.trans ht') hne.1
    | endNode _ ht' => exact absurd (ht.symm.trans ht') hne.2.1
    | nop _ ht' => exact absurd (ht.symm.trans ht') hne.2.2
    | stop _ ht' => exact absurd ht ht'.2.2.1
    | prop _ _ hlen hl hoff hn hcmp hskip =>
      subst hl hn
      refine Option.bind_eq_some_iff.mpr ⟨_, load32_eq_some_iff.mpr ⟨hlen, rfl⟩, ?_⟩
      refine Option.bind_eq_some_iff.mpr ⟨_, load32_eq_some_iff.mpr ⟨hoff, rfl⟩, ?_⟩
      refine Option.bind_eq_some_iff.mpr ⟨_, isReg_eq_some_iff.mpr ⟨hcmp, rfl⟩, ?_⟩
      rw [if_neg]
      · rfl
      · rwa [Bool.and_eq_true, and_assoc]
    | reg _ _ hlen hl hoff hn hcmp hreg hbase hsize =>
      subst hl hn
      refine Option.bind_eq_some_iff.mpr ⟨_, load32_eq_some_iff.mpr ⟨hlen, rfl⟩, ?_⟩
      refine Option.bind_eq_some_iff.mpr ⟨_, load32_eq_some_iff.mpr ⟨hoff, rfl⟩, ?_⟩
      refine Option.bind_eq_some_iff.mpr ⟨_, isReg_eq_some_iff.mpr ⟨fun _ => hcmp, rfl⟩, ?_⟩
      rw [if_pos]
      · refine Option.bind_eq_some_iff.mpr ⟨_, load64_eq_some_iff.mpr ⟨hbase, rfl⟩, ?_⟩
        exact Option.bind_eq_some_iff.mpr ⟨_, load64_eq_some_iff.mpr ⟨hsize, rfl⟩, rfl⟩
      · rwa [Bool.and_eq_true, and_assoc]

/-- An iteration goes on, or stops in the blob, exactly on an item. -/
theorem scanToken_eq_some_iff :
    b.scanToken strings p inMemoryNode = some r ↔ Item b strings p inMemoryNode r := by
  have hstr : ∀ {a n : ℕ}, b.CString a n →
      b.strncmp a (memoryName ++ [0]) 6 = some (b.startsWith a memoryName) :=
    fun h => strncmp_eq h memoryName_nonzero
  constructor
  · intro h
    obtain ⟨w, hw, h⟩ := Option.bind_eq_some_iff.mp h
    obtain ⟨hp, rfl⟩ := load32_eq_some_iff.mp hw
    change (if b.cell p = fdtBeginNode then _ else if b.cell p = fdtEndNode then _ else
      if b.cell p = fdtProp then _ else if b.cell p = fdtNop then _ else _) = some r at h
    split_ifs at h with h₁ h₂ h₃ h₄
    · obtain ⟨n, hn, h⟩ := Option.bind_eq_some_iff.mp h
      rw [strlen_eq_some_iff] at hn
      obtain ⟨i, hi, h⟩ := Option.bind_eq_some_iff.mp h
      rw [hstr hn] at hi
      obtain rfl := Option.some.inj hi
      obtain rfl := Option.some.inj h
      rw [ite_eq_or]
      exact .beginNode hp h₁ hn
    · obtain rfl := Option.some.inj h
      exact .endNode hp h₂
    · exact (scanProp_eq_some_iff hp h₃).mp h
    · obtain rfl := Option.some.inj h
      exact .nop hp h₄
    · obtain rfl := Option.some.inj h
      exact .stop hp ⟨h₁, h₂, h₃, h₄⟩
  · intro h
    have hp : b.Inside p 4 := by cases h <;> assumption
    refine Option.bind_eq_some_iff.mpr ⟨_, load32_eq_some_iff.mpr ⟨hp, rfl⟩, ?_⟩
    change (if b.cell p = fdtBeginNode then _ else if b.cell p = fdtEndNode then _ else
      if b.cell p = fdtProp then _ else if b.cell p = fdtNop then _ else _) = some r
    have hi := h
    cases h with
    | beginNode _ ht hn =>
      rw [if_pos ht]
      refine Option.bind_eq_some_iff.mpr ⟨_, strlen_eq_some_iff.mpr hn, ?_⟩
      refine Option.bind_eq_some_iff.mpr ⟨_, hstr hn, ?_⟩
      rw [ite_eq_or]
    | endNode _ ht =>
      rw [ht]
      rfl
    | nop _ ht =>
      rw [ht]
      rfl
    | prop _ ht =>
      rw [ht]
      exact (scanProp_eq_some_iff hp ht).mpr hi
    | reg _ ht =>
      rw [ht]
      exact (scanProp_eq_some_iff hp ht).mpr hi
    | stop _ ht => rw [if_neg ht.1, if_neg ht.2.1, if_neg ht.2.2.1, if_neg ht.2.2.2]

theorem scanStep_inl {x y : ℕ × Bool} :
    b.scanStep strings x = .inl y ↔ Item b strings x.1 x.2 (.inl y) := by
  rw [← scanToken_eq_some_iff, Blob.scanStep]
  cases b.scanToken strings x.1 x.2 <;> simp

theorem scanStep_inr {x : ℕ × Bool} {o : Outcome} (ho : o ≠ .outside) :
    b.scanStep strings x = .inr o ↔ Item b strings x.1 x.2 (.inr o) := by
  rw [← scanToken_eq_some_iff, Blob.scanStep]
  cases b.scanToken strings x.1 x.2 <;> simp [ho.symm]

end Steps

theorem extractMemoryInfo_eq {b : Blob} (h₁ : b.Inside (advance b.base 8) 4)
    (h₂ : b.Inside (advance b.base 12) 4) (fuel : ℕ) : b.extractMemoryInfo fuel =
      iterate (b.scanStep (advance b.base (b.cell (advance b.base 12)))) fuel
        (advance b.base (b.cell (advance b.base 8)), false) := by
  rw [Blob.extractMemoryInfo, load32_eq_some_iff.mpr ⟨h₁, rfl⟩, load32_eq_some_iff.mpr ⟨h₂, rfl⟩]
  rfl

end UCore.Dtb

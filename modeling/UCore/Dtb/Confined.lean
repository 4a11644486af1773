import UCore.Dtb.Selection

/-! # The scan inside the blob

The scan of a blob below two gibibytes ends, whatever the blob holds. On a tree in the blob it reads
no byte outside, as long as no node name of two gibibytes comes before the property it takes.
-/

namespace UCore.Dtb

open Library

section Ends

variable {b : Blob} {strings p q : ℕ} {inMemoryNode flag : Bool}

theorem Item.inside {r : (ℕ × Bool) ⊕ Outcome} (h : Item b strings p inMemoryNode r) :
    b.Inside p 4 := by
  cases h <;> assumption

theorem lt_alignDown {k : ℤ} (hfit : b.base + b.totalsize ≤ 2 ^ 64) (hp : b.Inside p 0)
    (hk : 4 ≤ k) (hk' : k < 2 ^ 33) (hq : b.Inside (alignDown (advance p k)) 4) :
    p < alignDown (advance p k) := by
  have hsize : b.totalsize < 2 ^ 32 := cell_lt
  unfold Blob.Inside alignDown advance at *
  omega

theorem lt_advance {k : ℤ} (hfit : b.base + b.totalsize ≤ 2 ^ 64) (hp : b.Inside p 0)
    (hk : 0 < k) (hk' : k < 2 ^ 33) (hq : b.Inside (advance p k) 1) : p < advance p k := by
  have hsize : b.totalsize < 2 ^ 32 := cell_lt
  unfold Blob.Inside advance at *
  omega

/-- The cursor moves on, or out of the blob. -/
theorem Item.lt {r : (ℕ × Bool) ⊕ Outcome} (h : Item b strings p inMemoryNode r)
    (hr : r = .inl (q, flag)) (hfit : b.base + b.totalsize ≤ 2 ^ 64)
    (hsize : b.totalsize ≤ 2 ^ 31) (hq : b.Inside q 4) : p < q := by
  have hp : b.Inside p 0 := by
    have hp := h.inside
    unfold Blob.Inside at *
    omega
  have hshort : ∀ {a n : ℕ}, b.Inside a n → 0 < n → b.Inside a 1 ∧ b.Inside a 0 := by
    intro a n ha hn
    unfold Blob.Inside at *
    omega
  cases h with
  | @beginNode n _ ht hname =>
    obtain ⟨rfl, -⟩ := Prod.mk.inj (Sum.inl.inj hr)
    obtain ⟨hin, hin'⟩ := hshort hname.inside (by omega)
    have hn : n < 2 ^ 31 := by
      have hin := hname.inside
      unfold Blob.Inside at hin
      omega
    have hint : int32 n = n := by
      unfold int32
      rw [Int.bmod_def]
      omega
    rw [hint] at hq ⊢
    exact (lt_advance hfit hp (by omega) (by omega) hin).trans
      (lt_alignDown hfit hin' (by omega) (by omega) hq)
  | endNode | nop =>
    obtain ⟨rfl, -⟩ := Prod.mk.inj (Sum.inl.inj hr)
    exact lt_advance hfit hp (by omega) (by omega) (hshort hq (by omega)).1
  | @prop len name _ ht hlen hl hoff =>
    obtain ⟨rfl, -⟩ := Prod.mk.inj (Sum.inl.inj hr)
    have hlt : len < 2 ^ 32 := hl ▸ cell_lt
    obtain ⟨hin, hin'⟩ := hshort hlen (by omega)
    obtain ⟨hin₂, hin₂'⟩ := hshort hoff (by omega)
    have hadd : advance (advance (advance p 4) 8) (len + 3) =
        advance (advance (advance p 4) 4) (len + 7) := by
      unfold advance
      omega
    rw [hadd] at hq ⊢
    exact ((lt_advance hfit hp (by omega) (by omega) hin).trans
      (lt_advance hfit hin' (by omega) (by omega) hin₂)).trans
      (lt_alignDown hfit hin₂' (by omega) (by omega) hq)
  | reg | stop => cases hr

theorem extractMemoryInfo_ends (hfit : b.base + b.totalsize ≤ 2 ^ 64)
    (hsize : b.totalsize ≤ 2 ^ 31) : ∃ fuel o, b.extractMemoryInfo fuel = some o := by
  by_cases h : b.Inside (advance b.base 8) 4 ∧ b.Inside (advance b.base 12) 4
  · -- The measure is what is left of the blob behind the cursor.
    have hgo : ∀ x y, True → b.scanStep (advance b.base (b.cell (advance b.base 12))) x = .inl y →
        True ∧ (if b.Inside y.1 4 then b.base + b.totalsize - y.1 else 0) <
          if b.Inside x.1 4 then b.base + b.totalsize - x.1 else 0 := by
      intro x y _ hx
      have hi := scanStep_inl.mp hx
      have hp := hi.inside
      rw [if_pos hp]
      unfold Blob.Inside at hp
      refine ⟨trivial, ?_⟩
      split_ifs with hy
      · have hlt := hi.lt rfl hfit hsize hy
        omega
      · omega
    obtain ⟨r, hr, -⟩ := iterate_spec _ _ (fun _ => True) hgo (fun _ _ _ _ => trivial)
      (x := (advance b.base (b.cell (advance b.base 8)), false)) trivial (Nat.lt_succ_self _)
    exact ⟨_, r, (extractMemoryInfo_eq h.1 h.2 _).trans hr⟩
  · refine ⟨0, .outside, ?_⟩
    unfold Blob.extractMemoryInfo Blob.load32
    by_cases h₁ : b.Inside (advance b.base 8) 4
    · rw [if_pos h₁, if_neg fun h₂ => h ⟨h₁, h₂⟩]
    · rw [if_neg h₁]

end Ends

/-- A header, and these tokens in the structure block. -/
structure Blob.Carries (b : Blob) (l : List Token) : Prop where
  header : b.Inside b.base 40
  tokens : b.Encodes (b.base + b.cell (b.base + 12)) (b.base + b.cell (b.base + 8)) l

section Carries

variable {b : Blob} {p n : ℕ} {l : List Token} {o : Outcome}

theorem Blob.Encodes.strings (hfit : b.base + b.totalsize ≤ 2 ^ 64)
    (h : b.Encodes (b.base + n) p l) : b.Encodes (advance b.base n) p l := by
  induction h with
  | nil ht => exact .nil ht
  | beginNode ht hname _ ih => exact .beginNode ht hname ih
  | endNode ht _ ih => exact .endNode ht ih
  | nop ht _ ih => exact .nop ht ih
  | prop ht hlen hoff hname hdata _ ih =>
    have hadv : advance b.base n = b.base + n := by
      have hin := hname.1.inside (by simp)
      unfold Blob.Inside at hin
      simp only [List.length_append, List.length_singleton] at hin
      exact advance_eq (by omega) (by omega)
    exact .prop ht hlen hoff (by rwa [hadv]) hdata ih

namespace Blob.Carries

theorem ends_iff (hfit : b.base + b.totalsize ≤ 2 ^ 64) (h : b.Carries l) :
    (∃ fuel, b.extractMemoryInfo fuel = some o) ↔ select false l = o := by
  have hin := h.header
  have hp := h.tokens.inside
  unfold Blob.Inside at hin hp
  have h₈ : advance b.base 8 = b.base + 8 := advance_eq (by omega) (by omega)
  have h₁₂ : advance b.base 12 = b.base + 12 := advance_eq (by omega) (by omega)
  have hstruct : advance b.base (b.cell (b.base + 8)) = b.base + b.cell (b.base + 8) :=
    advance_eq (by omega) (by omega)
  have hi₁ : b.Inside (advance b.base 8) 4 := by
    unfold Blob.Inside
    omega
  have hi₂ : b.Inside (advance b.base 12) 4 := by
    unfold Blob.Inside
    omega
  simp only [extractMemoryInfo_eq hi₁ hi₂, h₈, h₁₂, hstruct]
  have hends := (h.tokens.strings hfit).ends hfit false
  constructor
  · exact hends.unique
  · rintro rfl
    exact hends

end Blob.Carries

end Carries

/-! ## Long names -/

section Long

variable {f : Bool} {t : Token} {l : List Token}

/-- A node name of two gibibytes with no captured property before it. -/
def LongFrom (f : Bool) (l : List Token) : Prop :=
  ∃ before name after, l = before ++ .beginNode name :: after ∧ 2 ^ 31 ≤ name.length ∧
    ∀ before' data, ¬ CapturedFrom f before before' data

theorem longFrom_hit {data : List UInt8} (h : Hit f t data) : ¬ LongFrom f (t :: l) := by
  rintro ⟨before, name, after, he, -, hc⟩
  cases before with
  | nil =>
    obtain ⟨rfl, -⟩ := List.cons.inj he
    simp [Hit] at h
  | cons u before =>
    obtain ⟨rfl, rfl⟩ := List.cons.inj he
    exact hc [] data (capturedFrom_nil.mpr h)

theorem longFrom_cons (h : ∀ data, ¬ Hit f t data) : LongFrom f (t :: l) ↔
    (∃ name, t = .beginNode name ∧ 2 ^ 31 ≤ name.length) ∨ LongFrom (after f t) l := by
  constructor
  · rintro ⟨before, name, rest, he, hn, hc⟩
    cases before with
    | nil =>
      obtain ⟨rfl, -⟩ := List.cons.inj he
      exact .inl ⟨name, rfl, hn⟩
    | cons u before =>
      obtain ⟨rfl, rfl⟩ := List.cons.inj he
      exact .inr ⟨before, name, rest, rfl, hn, fun before' data hc' =>
        hc (t :: before') data (capturedFrom_cons.mpr ⟨rfl, hc'⟩)⟩
  · rintro (⟨name, rfl, hn⟩ | ⟨before, name, rest, rfl, hn, hc⟩)
    · refine ⟨[], name, l, rfl, hn, ?_⟩
      rintro before' data ⟨⟨after, hl⟩, -⟩
      simp at hl
    · refine ⟨t :: before, name, rest, rfl, hn, fun before' data hc' => ?_⟩
      cases before' with
      | nil => exact h data (capturedFrom_nil.mp hc')
      | cons u before' => exact hc before' data (capturedFrom_cons.mp hc').2

theorem select_eq_outside_iff : select f l = .outside ↔ LongFrom f l := by
  induction l generalizing f with
  | nil => simp [select, LongFrom]
  | cons t l ih =>
    cases t with
    | beginNode name =>
      rw [longFrom_cons (by simp [Hit]), ← ih, select]
      by_cases hn : name.length < 2 ^ 31
      · rw [if_pos hn]
        simp only [Token.beginNode.injEq, exists_eq_left', Nat.not_le.mpr hn, false_or, after]
      · rw [if_neg hn]
        simp only [Token.beginNode.injEq, exists_eq_left', Nat.le_of_not_lt hn, true_or]
    | endNode =>
      rw [longFrom_cons (by simp [Hit]), ← ih, select]
      simp [after]
    | prop name data =>
      rw [select]
      split_ifs with h
      · obtain ⟨hf, rfl, hlen⟩ := h
        simpa using longFrom_hit ⟨hf, rfl, hlen⟩
      · rw [longFrom_cons, ← ih]
        · simp [after]
        · rintro data' ⟨hf, ht, hlen⟩
          obtain ⟨rfl, rfl⟩ := Token.prop.inj ht
          exact h ⟨hf, rfl, hlen⟩
    | nop =>
      rw [longFrom_cons (by simp [Hit]), ← ih, select]
      simp [after]

end Long

/-- `extract_memory_info` ends without having read a byte outside the blob. -/
def Confined (b : Blob) : Prop := ∃ fuel o, b.extractMemoryInfo fuel = some o ∧ o ≠ .outside

/-- A node name of two gibibytes or more only stands behind a captured property. -/
def LongBehind (l : List Token) : Prop :=
  ∀ before name after, l = before ++ .beginNode name :: after → 2 ^ 31 ≤ name.length →
    ∃ before' data, Captured before before' data

theorem longBehind_iff {l : List Token} : LongBehind l ↔ ¬ LongFrom false l := by
  simp [LongBehind, LongFrom, Captured, CapturedFrom, OpenedFrom]

/-- Below two gibibytes the scan ends on any contents. Where the blob carries tokens, it reads no
byte outside exactly when long names stand behind a captured property. -/
theorem extractMemoryInfo_confined {b : Blob} (hfit : b.base + b.totalsize ≤ 2 ^ 64) :
    (b.totalsize ≤ 2 ^ 31 → ∃ fuel o, b.extractMemoryInfo fuel = some o) ∧
      ∀ l, b.Carries l → (Confined b ↔ LongBehind l) := by
  refine ⟨extractMemoryInfo_ends hfit, fun l hl => ?_⟩
  rw [longBehind_iff, ← select_eq_outside_iff]
  constructor
  · rintro ⟨fuel, o, he, ho⟩ hs
    exact ho ((hl.ends_iff hfit).mp ⟨fuel, he⟩ ▸ hs)
  · intro hs
    obtain ⟨fuel, he⟩ := (hl.ends_iff hfit).mpr rfl
    exact ⟨fuel, _, he, hs⟩

theorem extractMemoryInfo_confined_board :
    Confined (boardBlob memoryNode controllerNode) := by
  have hcarries : (boardBlob memoryNode controllerNode).Carries
      (boardRoot [memoryNode, controllerNode]).flatten :=
    { header := by decide +kernel
      tokens := by decide +kernel }
  refine ((extractMemoryInfo_confined (by decide +kernel)).2 _ hcarries).mpr ?_
  rw [longBehind_iff, ← select_eq_outside_iff]
  decide

/-- A tree of 44 bytes: a header and one `FDT_NOP`. -/
def openBlob : Blob where
  base := 0x1000
  byte a := ([0xd0, 0x0d, 0xfe, 0xed, 0, 0, 0, 44, 0, 0, 0, 40, 0, 0, 0, 44] ++
    List.replicate 24 0 ++ [0, 0, 0, 4] : List UInt8).getD (a - 0x1000) 0

/-- Without `FDT_END` the scan leaves the blob. -/
theorem confined_not : openBlob.magic = fdtMagic ∧
    (∃ fuel, openBlob.extractMemoryInfo fuel = some .outside) ∧ ¬ Confined openBlob := by
  have h₁ : openBlob.Inside (advance openBlob.base 8) 4 := by decide
  have h₂ : openBlob.Inside (advance openBlob.base 12) 4 := by decide
  have hnop : openBlob.scanStep (advance openBlob.base (openBlob.cell (advance openBlob.base 12)))
      (advance openBlob.base (openBlob.cell (advance openBlob.base 8)), false) =
        .inl (0x102c, false) := by rfl
  have hend : openBlob.scanStep (advance openBlob.base (openBlob.cell (advance openBlob.base 12)))
      (0x102c, false) = .inr .outside := by rfl
  have he : Ends _ _ _ := .go hnop (.stop hend)
  refine ⟨by rfl, ?_, ?_⟩
  · obtain ⟨fuel, hf⟩ := he
    exact ⟨fuel, (extractMemoryInfo_eq h₁ h₂ fuel).trans hf⟩
  · rintro ⟨fuel, o, ho, hne⟩
    rw [extractMemoryInfo_eq h₁ h₂] at ho
    exact hne (Ends.unique ⟨fuel, ho⟩ he)

end UCore.Dtb

import UCore.Dtb.Tree

/-! # The selection of the memory node

On a tree in a blob the scan takes the first `reg` property with room for an entry behind the
opening of a node whose name begins with `memory`, as long as no node was closed in between.
-/

namespace UCore.Dtb

open Library

section Strings

variable {b : Blob} {a n : ℕ} {l name s : List UInt8}

theorem Blob.Holds.inside (h : b.Holds a l) (hl : l ≠ []) : b.Inside a l.length := by
  induction l generalizing a with
  | nil => exact absurd rfl hl
  | cons c l ih =>
    obtain ⟨⟨hin, -⟩, ht⟩ := h
    cases l with
    | nil => exact hin
    | cons d l =>
      have := ih ht (by simp)
      unfold Blob.Inside at *
      simp only [List.length_cons] at *
      omega

theorem Blob.Holds.drop (h : b.Holds a l) (n : ℕ) : b.Holds (a + n) (l.drop n) := by
  induction n generalizing a l with
  | zero => exact h
  | succ n ih =>
    cases l with
    | nil => trivial
    | cons c l =>
      rw [List.drop_succ_cons, Nat.add_comm n 1, ← Nat.add_assoc]
      exact ih h.2

namespace Blob.HoldsString

theorem tail {c : UInt8} (h : b.HoldsString a (c :: name)) : b.HoldsString (a + 1) name :=
  ⟨h.1.2, (List.forall_mem_cons.mp h.2).2⟩

theorem head {c : UInt8} (h : b.HoldsString a (c :: name)) :
    b.Inside a 1 ∧ b.byte a = c ∧ c ≠ 0 :=
  ⟨h.1.1.1, h.1.1.2, (List.forall_mem_cons.mp h.2).1⟩

theorem cString (h : b.HoldsString a name) : b.CString a name.length := by
  induction name generalizing a with
  | nil => exact cString_zero.mpr h.1.1
  | cons c name ih =>
    obtain ⟨hin, hc, h₀⟩ := h.head
    exact cString_succ.mpr ⟨hin, hc ▸ h₀, ih h.tail⟩

theorem startsWith (h : b.HoldsString a name) (hs : ∀ c ∈ s, c ≠ 0) :
    b.startsWith a s = decide (s <+: name) := by
  induction name generalizing a s with
  | nil =>
    cases s with
    | nil => rfl
    | cons c s =>
      have hne : b.byte a ≠ c := by
        rw [h.1.1.2]
        exact (hs c List.mem_cons_self).symm
      simp [Blob.startsWith, hne]
  | cons d name ih =>
    cases s with
    | nil => simp [Blob.startsWith]
    | cons c s =>
      rw [Blob.startsWith, ih h.tail (List.forall_mem_cons.mp hs).2, h.head.2.1]
      simp [List.cons_prefix_cons, eq_comm]

theorem equals (h : b.HoldsString a name) (hs : ∀ c ∈ s, c ≠ 0) :
    b.Comparable a (s ++ [0]) ∧ b.startsWith a (s ++ [0]) = decide (name = s) := by
  induction name generalizing a s with
  | nil =>
    obtain ⟨⟨hin, h₀⟩, -⟩ := h.1
    cases s with
    | nil => simp [Blob.Comparable, Blob.startsWith, hin, h₀]
    | cons c s =>
      have hne : b.byte a ≠ c := by
        rw [h₀]
        exact (hs c List.mem_cons_self).symm
      simp [Blob.Comparable, Blob.startsWith, hin, hne]
  | cons d name ih =>
    obtain ⟨hin, hd, h₀⟩ := h.head
    cases s with
    | nil => simp [Blob.Comparable, Blob.startsWith, hin, hd, h₀]
    | cons c s =>
      obtain ⟨hc, hw⟩ := ih h.tail (List.forall_mem_cons.mp hs).2
      refine ⟨⟨hin, fun _ _ => hc⟩, ?_⟩
      rw [List.cons_append, Blob.startsWith, hw, hd]
      simp

end Blob.HoldsString

theorem Blob.Holds.word (h : b.Holds a l) (hl : 8 ≤ l.length) :
    b.Inside a 8 ∧ fdt64ToCpu (b.word a + 2 ^ 32 * b.word (a + 4)) = bigEndian (l.take 8) := by
  have hin := h.inside (by
    rintro rfl
    simp at hl)
  constructor
  · unfold Blob.Inside at *
    omega
  · rw [fdt64ToCpu_word, cell_eq, cell_eq]
    match l, hl, h with
    | c₀ :: c₁ :: c₂ :: c₃ :: c₄ :: c₅ :: c₆ :: c₇ :: l, _,
      ⟨⟨_, h₀⟩, ⟨_, h₁⟩, ⟨_, h₂⟩, ⟨_, h₃⟩, ⟨_, h₄⟩, ⟨_, h₅⟩, ⟨_, h₆⟩, ⟨_, h₇⟩, _⟩ =>
      simp only [Nat.add_assoc, Nat.reduceAdd] at h₁ h₂ h₃ h₄ h₅ h₆ h₇ ⊢
      rw [h₀, h₁, h₂, h₃, h₄, h₅, h₆, h₇]
      simp only [bigEndian, List.take_succ_cons, List.take_zero, List.foldl_cons, List.foldl_nil]
      omega

end Strings

/-- The scan on tokens. -/
def select : Bool → List Token → Outcome
  | _, [] => .failed
  | f, .beginNode name :: l =>
    if name.length < 2 ^ 31 then select (decide (memoryName <+: name) || f) l else .outside
  | _, .endNode :: l => select false l
  | f, .prop name data :: l =>
    if f = true ∧ name = regName ∧ 16 ≤ data.length then .found (entry data).1 (entry data).2
    else select f l
  | f, .nop :: l => select f l

section Scan

variable {b : Blob} {strings p n : ℕ} {l : List Token}

theorem advance_eq {k : ℤ} (h : p + k = n) (hn : n < 2 ^ 64) : advance p k = n := by
  unfold advance
  omega

theorem alignDown_add : alignDown (p + 3) = alignUp p := by
  unfold alignDown alignUp
  omega

theorem le_alignUp : p ≤ alignUp p := by
  unfold alignUp
  omega

namespace Blob.Encodes

theorem inside (h : b.Encodes strings p l) : b.Inside p 4 := by
  cases h <;> exact (holdsCell_iff.mp ‹b.HoldsCell p _›).1

theorem outside_of_long {flag : Bool} (hfit : b.base + b.totalsize ≤ 2 ^ 64)
    (hp : b.Inside p 4) (hn : 2 ^ 31 ≤ n) (hq : b.Inside (alignUp (p + 4 + n + 1)) 4) :
    b.scanStep strings (alignDown (advance (advance p 4) (int32 n + 4)), flag) =
      .inr .outside := by
  have hsize : b.totalsize < 2 ^ 32 := cell_lt
  have hle : p + 4 + n + 1 ≤ alignUp (p + 4 + n + 1) := le_alignUp
  unfold Blob.Inside at hp hq
  have hint : int32 n = n - 2 ^ 32 := by
    unfold int32
    rw [Int.bmod_def]
    omega
  have hout : ¬ b.Inside (alignDown (advance (advance p 4) (int32 n + 4))) 4 := by
    have hadv : advance p 4 = p + 4 := advance_eq (by omega) (by omega)
    rw [hadv, hint]
    unfold Blob.Inside alignDown advance
    omega
  rw [Blob.scanStep, Blob.scanToken, Blob.load32, if_neg hout]
  rfl

/-- The scan of an encoded tree is the scan of its tokens. -/
theorem ends (hfit : b.base + b.totalsize ≤ 2 ^ 64) (h : b.Encodes strings p l) (flag : Bool) :
    Ends (b.scanStep strings) (p, flag) (select flag l) := by
  induction h generalizing flag with
  | nil ht =>
    obtain ⟨hp, ht⟩ := holdsCell_iff.mp ht
    refine .stop ((scanStep_inr (by simp [select])).mpr (.stop hp ?_))
    rw [ht]
    decide
  | @beginNode p name l ht hname hl ih =>
    obtain ⟨hp, ht⟩ := holdsCell_iff.mp ht
    have hq := hl.inside
    have hle : p + 4 + name.length + 1 ≤ alignUp (p + 4 + name.length + 1) := le_alignUp
    have hadv : advance p 4 = p + 4 := advance_eq (by omega) (by
      unfold Blob.Inside at hq
      omega)
    rw [← hadv] at hname
    have hstep : b.scanStep strings (p, flag) = _ :=
      scanStep_inl.mpr (.beginNode hp ht hname.cString)
    rw [hname.startsWith memoryName_nonzero] at hstep
    refine .go hstep ?_
    rw [select]
    split_ifs with hn
    · have hint : int32 name.length = name.length := by
        unfold int32
        rw [Int.bmod_def]
        omega
      have hnext : alignDown (advance (advance p 4) (int32 name.length + 4)) =
          alignUp (p + 4 + name.length + 1) := by
        have hadv' : advance (p + 4) (name.length + 4) = p + 4 + name.length + 1 + 3 :=
          advance_eq (by omega) (by
            unfold Blob.Inside at hq
            omega)
        rw [hint, hadv, hadv', alignDown_add]
      rw [hnext]
      exact ih _
    · exact .stop (outside_of_long hfit hp (by omega) hq)
  | @endNode p l ht hl ih =>
    obtain ⟨hp, ht⟩ := holdsCell_iff.mp ht
    have hq := hl.inside
    have hadv : advance p 4 = p + 4 := advance_eq (by omega) (by
      unfold Blob.Inside at hq
      omega)
    refine .go (scanStep_inl.mpr (.endNode hp ht)) ?_
    rw [hadv]
    exact ih false
  | @prop p off name data l ht hlen hoff hname hdata hl ih =>
    obtain ⟨hp, ht⟩ := holdsCell_iff.mp ht
    obtain ⟨hlen, hl'⟩ := holdsCell_iff.mp hlen
    obtain ⟨hoff, ho⟩ := holdsCell_iff.mp hoff
    have hq := hl.inside
    have hle : p + 12 + data.length ≤ alignUp (p + 12 + data.length) := le_alignUp
    obtain ⟨hcmp, heq⟩ := hname.equals regName_nonzero
    have hend : p + 12 + data.length + 4 ≤ 2 ^ 64 := by
      unfold Blob.Inside at hq
      omega
    have h₄ : advance p 4 = p + 4 := advance_eq (by omega) (by omega)
    have h₈ : advance (advance p 4) 4 = p + 8 := by
      rw [h₄]
      exact advance_eq (by omega) (by omega)
    have h₁₂ : advance (advance p 4) 8 = p + 12 := by
      rw [h₄]
      exact advance_eq (by omega) (by omega)
    have hstr : advance strings (b.cell (advance (advance p 4) 4)) = strings + off := by
      rw [h₈, ho]
      refine advance_eq (by omega) ?_
      have hin := hname.1.inside (by simp)
      unfold Blob.Inside at hin
      simp only [List.length_append, List.length_singleton] at hin
      omega
    rw [← h₄] at hlen hl'
    rw [← h₈] at hoff
    by_cases hreg : flag = true ∧ name = regName ∧ 16 ≤ data.length
    · obtain ⟨hbase, hb⟩ := hdata.word (by omega)
      obtain ⟨hsize, hs⟩ := (hdata.drop 8).word (by
        rw [List.length_drop]
        omega)
      have h₂₀ : advance (p + 12) 8 = p + 12 + 8 := advance_eq (by omega) (by omega)
      have hi : Item b strings p flag _ := .reg hp ht hlen hl' hoff hstr hcmp
        ⟨hreg.1, by rw [heq]; simpa using hreg.2.1, hreg.2.2⟩ (by rwa [h₁₂]) (by rwa [h₁₂, h₂₀])
      rw [h₁₂, h₂₀, hb, hs] at hi
      rw [select, if_pos hreg]
      exact .stop ((scanStep_inr (by simp)).mpr hi)
    · have hi : Item b strings p flag _ := .prop hp ht hlen hl' hoff hstr (fun _ => hcmp) (by
        rw [heq, decide_eq_true_eq]
        exact hreg)
      have hnext : alignDown (advance (advance (advance p 4) 8) (data.length + 3)) =
          alignUp (p + 12 + data.length) := by
        have hadv : advance (p + 12) (data.length + 3) = p + 12 + data.length + 3 :=
          advance_eq (by omega) (by omega)
        rw [h₁₂, hadv, alignDown_add]
      rw [hnext] at hi
      rw [select, if_neg hreg]
      exact .go (scanStep_inl.mpr hi) (ih flag)
  | @nop p l ht hl ih =>
    obtain ⟨hp, ht⟩ := holdsCell_iff.mp ht
    have hq := hl.inside
    have hadv : advance p 4 = p + 4 := advance_eq (by omega) (by
      unfold Blob.Inside at hq
      omega)
    refine .go (scanStep_inl.mpr (.nop hp ht)) ?_
    rw [hadv]
    exact ih flag

end Blob.Encodes

end Scan

/-! ## The first capture -/

/-- A node whose name begins with `memory` was opened in these tokens, and none closed since. -/
def Opened (l : List Token) : Prop :=
  ∃ before name after, l = before ++ .beginNode name :: after ∧ memoryName <+: name ∧
    .endNode ∉ after

/-- Behind the tokens `before` stands a `reg` property with room for an entry, in a node whose name
begins with `memory` or in the first child of such a node, at any depth. -/
def Captured (l before : List Token) (data : List UInt8) : Prop :=
  (∃ after, l = before ++ .prop regName data :: after) ∧ 16 ≤ data.length ∧ Opened before

/-- The first captured property has this entry, and no name before it has `2 ^ 31` bytes. -/
def Selects (l : List Token) (e : ℕ × ℕ) : Prop :=
  ∃ before data, Captured l before data ∧ (∀ before' data', ¬ Captured before before' data') ∧
    (∀ name, .beginNode name ∈ before → name.length < 2 ^ 31) ∧ entry data = e

section Select

variable {f : Bool} {l before : List Token} {t : Token} {name data : List UInt8} {e : ℕ × ℕ}

/-- A node is open in these tokens, or was before them. -/
def OpenedFrom (f : Bool) (l : List Token) : Prop := Opened l ∨ f = true ∧ .endNode ∉ l

def after (f : Bool) : Token → Bool
  | .beginNode name => decide (memoryName <+: name) || f
  | .endNode => false
  | _ => f

theorem openedFrom_nil : OpenedFrom f [] ↔ f = true := by simp [OpenedFrom, Opened]

theorem opened_cons : Opened (t :: l) ↔
    (∃ name, t = .beginNode name ∧ memoryName <+: name ∧ .endNode ∉ l) ∨ Opened l := by
  constructor
  · rintro ⟨before, name, after, he, hm, ha⟩
    cases before with
    | nil =>
      obtain ⟨rfl, rfl⟩ := List.cons.inj he
      exact .inl ⟨name, rfl, hm, ha⟩
    | cons u before =>
      obtain ⟨rfl, rfl⟩ := List.cons.inj he
      exact .inr ⟨before, name, after, rfl, hm, ha⟩
  · rintro (⟨name, rfl, hm, ha⟩ | ⟨before, name, after, rfl, hm, ha⟩)
    · exact ⟨[], name, l, rfl, hm, ha⟩
    · exact ⟨t :: before, name, after, rfl, hm, ha⟩

theorem openedFrom_cons : OpenedFrom f (t :: l) ↔ OpenedFrom (after f t) l := by
  unfold OpenedFrom
  rw [opened_cons]
  cases t with
  | beginNode name =>
    simp only [after, Token.beginNode.injEq, exists_eq_left', Bool.or_eq_true, decide_eq_true_eq,
      List.mem_cons, reduceCtorEq, false_or]
    tauto
  | endNode => simp [after]
  | prop name data => simp [after]
  | nop => simp [after]

/-- A captured property, the flag being `f` before the tokens. -/
def CapturedFrom (f : Bool) (l before : List Token) (data : List UInt8) : Prop :=
  (∃ after, l = before ++ .prop regName data :: after) ∧ 16 ≤ data.length ∧ OpenedFrom f before

def SelectsFrom (f : Bool) (l : List Token) (e : ℕ × ℕ) : Prop :=
  ∃ before data, CapturedFrom f l before data ∧
    (∀ before' data', ¬ CapturedFrom f before before' data') ∧
    (∀ name, .beginNode name ∈ before → name.length < 2 ^ 31) ∧ entry data = e

theorem selects_iff : Selects l e ↔ SelectsFrom false l e := by
  simp [Selects, SelectsFrom, Captured, CapturedFrom, OpenedFrom]

/-- The first token is a captured property. -/
def Hit (f : Bool) (t : Token) (data : List UInt8) : Prop :=
  f = true ∧ t = .prop regName data ∧ 16 ≤ data.length

theorem capturedFrom_nil : CapturedFrom f (t :: l) [] data ↔ Hit f t data := by
  unfold CapturedFrom Hit
  rw [openedFrom_nil]
  simp only [List.nil_append, List.cons.injEq, exists_and_left, exists_eq', and_true]
  tauto

theorem capturedFrom_cons {u : Token} : CapturedFrom f (t :: l) (u :: before) data ↔
    t = u ∧ CapturedFrom (after f t) l before data := by
  unfold CapturedFrom
  rw [openedFrom_cons]
  simp only [List.cons_append, List.cons.injEq, exists_and_left]
  constructor
  · rintro ⟨⟨rfl, hl⟩, h⟩
    exact ⟨rfl, hl, h⟩
  · rintro ⟨rfl, hl, h⟩
    exact ⟨⟨rfl, hl⟩, h⟩

theorem selectsFrom_cons (h : ∀ data, ¬ Hit f t data) : SelectsFrom f (t :: l) e ↔
    (∀ name, t = .beginNode name → name.length < 2 ^ 31) ∧ SelectsFrom (after f t) l e := by
  constructor
  · rintro ⟨before, data, hc, hfirst, hshort, he⟩
    cases before with
    | nil => exact absurd (capturedFrom_nil.mp hc) (h data)
    | cons u before =>
      obtain ⟨rfl, hc₁⟩ := capturedFrom_cons.mp hc
      refine ⟨fun name hn => hshort name (hn ▸ List.mem_cons_self), before, data, hc₁, ?_, ?_, he⟩
      · exact fun before' data' hc' =>
          hfirst (t :: before') data' (capturedFrom_cons.mpr ⟨rfl, hc'⟩)
      · exact fun name hn => hshort name (List.mem_cons_of_mem _ hn)
  · rintro ⟨ht, before, data, hc, hfirst, hshort, he⟩
    refine ⟨t :: before, data, capturedFrom_cons.mpr ⟨rfl, hc⟩, ?_, ?_, he⟩
    · intro before' data' hc'
      cases before' with
      | nil => exact h data' (capturedFrom_nil.mp hc')
      | cons u before' => exact hfirst before' data' (capturedFrom_cons.mp hc').2
    · intro name hn
      rcases List.mem_cons.mp hn with hn | hn
      · exact ht name hn.symm
      · exact hshort name hn

theorem selectsFrom_hit (h : Hit f t data) : SelectsFrom f (t :: l) e ↔ entry data = e := by
  constructor
  · rintro ⟨before, data', hc, hfirst, -, he⟩
    cases before with
    | nil =>
      obtain ⟨-, ht, -⟩ := h
      obtain ⟨-, ht', -⟩ := capturedFrom_nil.mp hc
      obtain ⟨-, rfl⟩ := Token.prop.inj (ht.symm.trans ht')
      exact he
    | cons u before =>
      obtain ⟨rfl, -⟩ := capturedFrom_cons.mp hc
      exact absurd (capturedFrom_nil.mpr h) (hfirst [] data)
  · intro he
    refine ⟨[], data, capturedFrom_nil.mpr h, ?_, by simp, he⟩
    rintro before' data' ⟨⟨after, hl⟩, -⟩
    simp at hl

/-- The scan on tokens finds the entry of the first captured property. -/
theorem select_eq_found_iff : select f l = .found e.1 e.2 ↔ SelectsFrom f l e := by
  induction l generalizing f with
  | nil =>
    refine iff_of_false (by simp [select]) ?_
    rintro ⟨before, data, ⟨⟨after, hl⟩, -⟩, -⟩
    simp at hl
  | cons t l ih =>
    cases t with
    | beginNode name =>
      rw [selectsFrom_cons (by simp [Hit]), ← ih, select]
      by_cases hn : name.length < 2 ^ 31
      · rw [if_pos hn]
        simp only [after, Token.beginNode.injEq, forall_eq', hn, true_and]
      · rw [if_neg hn]
        simp only [Token.beginNode.injEq, forall_eq', hn, false_and, reduceCtorEq]
    | endNode =>
      rw [selectsFrom_cons (by simp [Hit]), ← ih, select]
      simp [after]
    | prop name data =>
      rw [select]
      split_ifs with h
      · obtain ⟨hf, rfl, hlen⟩ := h
        rw [selectsFrom_hit ⟨hf, rfl, hlen⟩]
        simp [Prod.ext_iff]
      · rw [selectsFrom_cons, ← ih]
        · simp [after]
        · rintro data' ⟨hf, ht, hlen⟩
          obtain ⟨rfl, rfl⟩ := Token.prop.inj ht
          exact h ⟨hf, rfl, hlen⟩
    | nop =>
      rw [selectsFrom_cons (by simp [Hit]), ← ih, select]
      simp [after]

theorem select_filter : select f (l.filter (· ≠ .nop)) = select f l := by
  induction l generalizing f with
  | nil => rfl
  | cons t l ih =>
    cases t with
    | nop =>
      rw [List.filter_cons_of_neg (by simp), ih]
      rfl
    | _ =>
      rw [List.filter_cons_of_pos (by simp)]
      simp only [select, ih]

end Select

end UCore.Dtb

import Mathlib.Data.List.Forall2
import Mathlib.Data.List.GetD
import UCore.Shell.Grammar

/-! # The words in memory

A token is cut off by the call of `gettoken` that follows it. So the words of a command are cut off
when the command is run, and the name of a file is not when it is opened.
-/

namespace UCore.Shell

open Library

variable {pre s r g w x line : Str} {cmd : Option ℕ} {argv : List ℕ} {words : List Str}
  {n a t : ℕ} {c : UInt8}

section Gettoken

def nulls (n : ℕ) : Str := List.replicate n 0

theorem char_append : char (pre ++ s) pre.length = s.headD 0 := by
  unfold char
  rw [List.getD_append_right _ _ _ _ le_rfl, Nat.sub_self]
  cases s <;> rfl

theorem set_append {y : UInt8} : (pre ++ c :: s).set pre.length y = (pre ++ [y]) ++ s := by
  rw [List.set_append_right _ _ le_rfl, Nat.sub_self, List.set_cons_zero, List.append_assoc]
  rfl

theorem strchr_null {s : Str} (h : 0 ∉ s) : strchr s 0 = false := decide_eq_false h

theorem isWordChar_iff : isWordChar c = true ↔ ¬ strchr (whitespace ++ symbols) c = true := by
  simp [isWordChar, strchr]

theorem skipWhitespace_eq (pre : Str) (hg : ∀ c ∈ g, strchr whitespace c = true)
    (hr : ∀ c, r.head? = some c → strchr whitespace c = false) (hn : g.length ≤ n) :
    skipWhitespace n (pre ++ (g ++ r)) pre.length =
      (pre ++ nulls g.length ++ r, (pre ++ nulls g.length).length) := by
  induction g generalizing pre n with
  | nil =>
    have hnil : pre ++ nulls ([] : Str).length = pre := List.append_nil pre
    rw [hnil]
    cases n with
    | zero => rfl
    | succ n =>
      have hstop : strchr whitespace (char (pre ++ r) pre.length) = false := by
        rw [char_append]
        cases r with
        | nil => exact strchr_null (by decide)
        | cons c r => exact hr c rfl
      rw [List.nil_append, skipWhitespace, hstop]
      rfl
  | cons c g ih =>
    obtain ⟨n, rfl⟩ := Nat.exists_eq_add_one_of_ne_zero (Nat.ne_of_gt (Nat.lt_of_lt_of_le
      (Nat.succ_pos g.length) hn))
    have hgo : strchr whitespace (char (pre ++ (c :: g ++ r)) pre.length) = true := by
      rw [char_append]
      exact hg c List.mem_cons_self
    have hlen : pre.length + 1 = (pre ++ [(0 : UInt8)]).length := by
      rw [List.length_append, List.length_singleton]
    have hnulls : pre ++ [(0 : UInt8)] ++ nulls g.length = pre ++ nulls (c :: g).length := by
      rw [List.append_assoc]
      rfl
    rw [skipWhitespace, if_pos hgo, List.cons_append, set_append, hlen,
      ih _ (fun c hc => hg c (List.mem_cons_of_mem _ hc)) (Nat.le_of_succ_le_succ hn), hnulls]

theorem skipWord_eq (pre : Str) (hw : ∀ c ∈ w, isWordChar c = true) (h0 : 0 ∉ w) (hq : 34 ∉ w)
    (hr : ∀ c, r.head? = some c → isWordChar c = false) (hn : w.length ≤ n) :
    skipWord n (pre ++ (w ++ r)) false pre.length = (pre ++ (w ++ r), pre.length + w.length) := by
  induction w generalizing pre n with
  | nil =>
    cases n with
    | zero => rfl
    | succ n =>
      have hstop : ¬ (char (pre ++ r) pre.length ≠ 0 ∧ (false = true ∨
          ¬ strchr (whitespace ++ symbols) (char (pre ++ r) pre.length) = true)) := by
        rw [char_append]
        cases r with
        | nil => exact fun h => h.1 rfl
        | cons c r =>
          rintro ⟨-, h | h⟩
          · cases h
          · have hc : isWordChar c = true := isWordChar_iff.mpr h
            rw [hr c rfl] at hc
            cases hc
      rw [List.nil_append, skipWord, if_neg hstop]
      rfl
  | cons c w ih =>
    obtain ⟨n, rfl⟩ := Nat.exists_eq_add_one_of_ne_zero (Nat.ne_of_gt (Nat.lt_of_lt_of_le
      (Nat.succ_pos w.length) hn))
    have hc : char (pre ++ (c :: w ++ r)) pre.length = c := char_append
    obtain ⟨hc0, hw0⟩ := List.ne_and_not_mem_of_not_mem_cons h0
    obtain ⟨hcq, hwq⟩ := List.ne_and_not_mem_of_not_mem_cons hq
    have hgo : c ≠ 0 ∧ (false = true ∨ ¬ strchr (whitespace ++ symbols) c = true) :=
      ⟨Ne.symm hc0, .inr (isWordChar_iff.mp (hw c List.mem_cons_self))⟩
    have hmove : pre ++ (c :: w ++ r) = (pre ++ [c]) ++ (w ++ r) := by simp
    have hlen : pre.length + 1 = (pre ++ [c]).length := by
      rw [List.length_append, List.length_singleton]
    rw [skipWord, hc, if_pos hgo, if_neg (Ne.symm hcq), hmove, hlen,
      ih _ (fun c hc => hw c (List.mem_cons_of_mem _ hc)) hw0 hwq (Nat.le_of_succ_le_succ hn)]
    simp
    omega

/-- `*p1` after a token, with the rest of the line. -/
def after (pre r : Str) : Option ℕ := if r = [] then none else some pre.length

theorem after_eq (h : 0 ∉ r) :
    (if char (pre ++ r) pre.length ≠ 0 then some pre.length else none) = after pre r := by
  rw [char_append, after]
  cases r with
  | nil => rfl
  | cons c r =>
    have hc : c ≠ 0 := fun hc => h (hc ▸ List.mem_cons_self)
    rw [if_neg (List.cons_ne_nil c r)]
    exact if_pos hc

theorem gettoken_end : gettoken line none t = (0, line, none, t) := rfl

theorem gettoken_none (hg : ∀ c ∈ g, strchr whitespace c = true) :
    gettoken (pre ++ g) (some pre.length) t = (0, pre ++ nulls g.length, some pre.length, t) := by
  have hskip := skipWhitespace_eq pre (r := []) (n := (pre ++ g).length - pre.length) hg
    (fun c h => by cases h) (by rw [List.length_append]; omega)
  rw [List.append_nil, List.append_nil] at hskip
  have hchar : char (pre ++ nulls g.length) (pre ++ nulls g.length).length = 0 := by
    simp [char]
  simp only [gettoken, hskip, hchar, if_true]

theorem gettoken_symbol (hg : ∀ c ∈ g, strchr whitespace c = true)
    (hc : strchr whitespace c = false) (hsym : strchr symbols c = true) (h0 : 0 ∉ r) :
    gettoken (pre ++ (g ++ c :: r)) (some pre.length) t =
      (c, (pre ++ (nulls g.length ++ [0])) ++ r, after (pre ++ (nulls g.length ++ [0])) r,
        (pre ++ nulls g.length).length) := by
  have hskip := skipWhitespace_eq pre (r := c :: r)
    (n := (pre ++ (g ++ c :: r)).length - pre.length) hg
    (fun c' h => by obtain rfl := Option.some.inj h; exact hc)
    (by simp only [List.length_append]; omega)
  have hchar : char (pre ++ nulls g.length ++ c :: r) (pre ++ nulls g.length).length =
    c := char_append
  have hc0 : c ≠ 0 := by
    rintro rfl
    rw [strchr_null (by decide)] at hsym
    cases hsym
  have hnext : (pre ++ nulls g.length).length + 1 =
      (pre ++ nulls g.length ++ [(0 : UInt8)]).length := by
    rw [@List.length_append _ _ [0], List.length_singleton]
  simp only [gettoken, hskip, hchar, hc0, hsym, if_true, if_false]
  rw [set_append, hnext, after_eq h0, ← List.append_assoc pre]

theorem gettoken_word (hg : ∀ c ∈ g, strchr whitespace c = true) (hne : w ≠ [])
    (hw : ∀ c ∈ w, isWordChar c = true) (hr : ∀ c, r.head? = some c → isWordChar c = false)
    (h0 : 0 ∉ w ++ r) (hq : 34 ∉ w) :
    gettoken (pre ++ (g ++ (w ++ r))) (some pre.length) t =
      (119, (pre ++ (nulls g.length ++ w)) ++ r, after (pre ++ (nulls g.length ++ w)) r,
        (pre ++ nulls g.length).length) := by
  obtain ⟨c, w', rfl⟩ := List.exists_cons_of_ne_nil hne
  have hfirst := hw c List.mem_cons_self
  obtain ⟨hws, hsym⟩ : strchr whitespace c = false ∧ strchr symbols c = false := by
    simpa [isWordChar] using hfirst
  have h0w : 0 ∉ c :: w' := fun h => h0 (List.mem_append_left _ h)
  have h0r : 0 ∉ r := fun h => h0 (List.mem_append_right _ h)
  have hskip := skipWhitespace_eq pre (r := c :: w' ++ r)
    (n := (pre ++ (g ++ (c :: w' ++ r))).length - pre.length) hg
    (fun c' h => by obtain rfl := Option.some.inj h; exact hws)
    (by simp only [List.length_append]; omega)
  have hchar : char (pre ++ nulls g.length ++ (c :: w' ++ r)) (pre ++ nulls g.length).length = c :=
    char_append
  have hc0 : c ≠ 0 := fun h => h0w (h ▸ List.mem_cons_self)
  have hword := skipWord_eq (pre ++ nulls g.length) (r := r)
    (n := (pre ++ nulls g.length ++ (c :: w' ++ r)).length -
      (pre ++ nulls g.length).length) hw h0w hq
    hr (by simp only [List.length_append]; omega)
  have hend : (pre ++ nulls g.length).length + (c :: w').length =
      (pre ++ nulls g.length ++ (c :: w')).length := by
    exact List.length_append.symm
  simp only [gettoken, hskip, hchar, hc0, hsym, Bool.false_eq_true, if_false, hword]
  rw [hend, ← List.append_assoc _ (c :: w') r, after_eq h0r, ← List.append_assoc pre]

end Gettoken

section Held

/-- The word at `a` is followed by a null byte, or it ends where the rest of the line starts. -/
def Held (pre s : Str) (a : ℕ) (w : Str) : Prop :=
  ∃ u v, pre = u ++ (w ++ v) ∧ a = u.length ∧ 0 ∉ w ∧
    (v.head? = some 0 ∨ v = [] ∧ ∀ c, s.head? = some c → isWordChar c = false)

/-- The word at `a` is cut off. -/
def CutOff (pre s : Str) (a : ℕ) (w : Str) : Prop :=
  ∃ u v, pre = u ++ (w ++ v) ∧ a = u.length ∧ 0 ∉ w ∧ (v.head? = some 0 ∨ v = [] ∧ s = [])

theorem cstr_append (h : 0 ∉ w) (hr : ∀ c, r.head? = some c → c = 0) {u : Str} :
    cstr (u ++ (w ++ r)) u.length = w := by
  have hw : ∀ c ∈ w, decide (c ≠ 0) = true := fun c hc => decide_eq_true fun h0 => h (h0 ▸ hc)
  rw [cstr, List.drop_left, List.takeWhile_append_of_pos hw]
  cases r with
  | nil => exact List.append_nil w
  | cons c r =>
    obtain rfl := hr c rfl
    exact List.append_nil w

theorem CutOff.cstr (h : CutOff pre s a w) : cstr (pre ++ s) a = w := by
  obtain ⟨u, v, rfl, rfl, h0, hv⟩ := h
  rw [List.append_assoc, List.append_assoc]
  refine cstr_append h0 fun c hc => ?_
  rcases hv with hv | ⟨rfl, rfl⟩
  · cases v with
    | nil => cases hv
    | cons c' v =>
      obtain rfl : c' = 0 := Option.some.inj hv
      exact (Option.some.inj hc).symm
  · cases hc

theorem CutOff.held (h : CutOff pre s a w) : Held pre s a w := by
  obtain ⟨u, v, hpre, ha, h0, hv⟩ := h
  refine ⟨u, v, hpre, ha, h0, hv.imp_right fun hv => ⟨hv.1, fun c hc => ?_⟩⟩
  rw [hv.2] at hc
  cases hc

theorem Held.cutOff (h : Held pre s a w)
    (hx : ∀ c, s.head? = some c → isWordChar c = false → x.head? = some 0)
    (hs : s = [] → x = [] ∧ r = []) : CutOff (pre ++ x) r a w := by
  obtain ⟨u, v, rfl, ha, h0, hv⟩ := h
  refine ⟨u, v ++ x, by simp only [List.append_assoc], ha, h0, ?_⟩
  rcases hv with hv | ⟨rfl, hv⟩
  · refine .inl ?_
    cases v with
    | nil => cases hv
    | cons c v => exact hv
  · cases s with
    | nil => exact .inr (hs rfl)
    | cons c s => exact .inl (hx c rfl (hv c rfl))

/-- The state of `runcmd` before a call of `gettoken`: `s` is the rest of the line. -/
structure State (line : Str) (cmd : Option ℕ) (argv : List ℕ) (words : List Str) (pre s : Str) :
    Prop where
  line_eq : line = pre ++ s
  cmd_eq : cmd = some pre.length ∨ cmd = none ∧ s = []
  held : List.Forall₂ (Held pre s) argv words
  null : 0 ∉ s
  quote : 34 ∉ s

theorem after_cases : after pre r = some pre.length ∨ after pre r = none ∧ r = [] := by
  unfold after
  split
  · exact .inr ⟨rfl, ‹_›⟩
  · exact .inl rfl

theorem cstr_map (h : List.Forall₂ (CutOff pre s) argv words) :
    argv.map (cstr (pre ++ s)) = words := by
  induction h with
  | nil => rfl
  | cons h _ ih => rw [List.map_cons, h.cstr, ih]

namespace State

variable {pre' : Str} {t' : ℕ} (h : State line cmd argv words pre s)
include h

theorem cutOff (hx : ∀ c, s.head? = some c → isWordChar c = false → x.head? = some 0)
    (hs : s = [] → x = [] ∧ r = []) : List.Forall₂ (CutOff (pre ++ x) r) argv words :=
  h.held.imp fun _ _ hw => hw.cutOff hx hs

theorem gettoken_none (hn : nextToken s = none) :
    ∃ line' cmd', gettoken line cmd t = (0, line', cmd', t) ∧ argv.map (cstr line') = words := by
  have hline := h.line_eq
  rcases h.cmd_eq with rfl | ⟨rfl, rfl⟩
  · have hsp := splits_nextToken s
    rw [hn] at hsp
    cases hsp with
    | none hg =>
      refine ⟨pre ++ nulls s.length, some pre.length, hline ▸ Shell.gettoken_none hg, ?_⟩
      have hcut := h.cutOff (x := nulls s.length) (r := []) (fun c hc _ => ?_) (fun hs => ?_)
      · simpa using cstr_map hcut
      · cases s with
        | nil => cases hc
        | cons c s => rfl
      · subst hs
        exact ⟨rfl, rfl⟩
  · refine ⟨line, none, gettoken_end, ?_⟩
    have hcut := h.cutOff (x := []) (r := []) (fun c hc _ => by cases hc) (fun _ => ⟨rfl, rfl⟩)
    rw [hline]
    simpa using cstr_map hcut

theorem cmd_of_ne (hs : s ≠ []) : cmd = some pre.length := h.cmd_eq.resolve_right fun hn => hs hn.2

theorem gettoken_symbol (hn : nextToken s = some (.symbol c, r)) :
    ∃ pre' t', gettoken line cmd t = (c, pre' ++ r, after pre' r, t') ∧ strchr symbols c = true ∧
      List.Forall₂ (CutOff pre' r) argv words ∧ 0 ∉ r ∧ 34 ∉ r := by
  have hsp := splits_nextToken s
  rw [hn] at hsp
  generalize hy : some (Token.symbol c, r) = y at hsp
  cases hsp with
  | none => cases hy
  | word => cases hy
  | @symbol g r' c' hg hc hsym =>
    obtain ⟨rfl, rfl⟩ : c = c' ∧ r = r' := by simpa using hy
    have hr : ∀ y, y ∉ g ++ c :: r → y ∉ r := fun y hy hr =>
      hy (List.mem_append_right _ (List.mem_cons_of_mem _ hr))
    refine ⟨pre ++ (nulls g.length ++ [0]), (pre ++ nulls g.length).length, ?_, hsym, ?_,
      hr _ h.null, hr _ h.quote⟩
    · rw [h.line_eq, h.cmd_of_ne (by simp)]
      exact Shell.gettoken_symbol hg hc hsym (hr _ h.null)
    · refine h.cutOff (fun _ _ _ => ?_) fun hs => absurd hs (by simp)
      cases g with
      | nil => rfl
      | cons => rfl

theorem gettoken_word (hn : nextToken s = some (.word w, r)) :
    ∃ pre' t', gettoken line cmd t = (119, pre' ++ r, after pre' r, t') ∧
      cstr (pre' ++ r) t' = w ++ r ∧ Held pre' r t' w ∧
      List.Forall₂ (CutOff pre' r) argv words ∧ 0 ∉ r ∧ 34 ∉ r := by
  have hsp := splits_nextToken s
  rw [hn] at hsp
  generalize hy : some (Token.word w, r) = y at hsp
  cases hsp with
  | none => cases hy
  | symbol => cases hy
  | @word g w' r' hg hne hw hr =>
    obtain ⟨rfl, rfl⟩ : w = w' ∧ r = r' := by simpa using hy
    have h0 : 0 ∉ w ++ r := fun hm => h.null (List.mem_append_right _ hm)
    have hq : 34 ∉ w ++ r := fun hm => h.quote (List.mem_append_right _ hm)
    have h0w : 0 ∉ w := fun hm => h0 (List.mem_append_left _ hm)
    refine ⟨pre ++ (nulls g.length ++ w), (pre ++ nulls g.length).length, ?_, ?_, ?_, ?_,
      fun hm => h0 (List.mem_append_right _ hm), fun hm => hq (List.mem_append_right _ hm)⟩
    · rw [h.line_eq, h.cmd_of_ne (by simp [hne])]
      exact Shell.gettoken_word hg hne hw hr h0 fun hm => hq (List.mem_append_left _ hm)
    · have hline : pre ++ (nulls g.length ++ w) ++ r = (pre ++ nulls g.length) ++
        ((w ++ r) ++ []) := by
        simp only [List.append_assoc, List.append_nil]
      rw [hline]
      exact cstr_append h0 fun c hc => by cases hc
    · refine ⟨pre ++ nulls g.length, [], ?_, rfl, h0w, .inr ⟨rfl, hr⟩⟩
      simp only [List.append_assoc, List.append_nil]
    · refine h.cutOff (fun c hc hfirst => ?_) fun hs => absurd hs (by simp [hne])
      -- the line starts with whitespace, since a word starts with other characters
      cases g with
      | nil =>
        obtain ⟨c', w', rfl⟩ := List.exists_cons_of_ne_nil hne
        obtain rfl : c' = c := Option.some.inj hc
        rw [hw c' List.mem_cons_self] at hfirst
        cases hfirst
      | cons => rfl

end State

end Held

end UCore.Shell

import Mathlib.Data.Nat.Digits.Lemmas
import UCore.Printf.Format

/-! # The output of a format

`vprintfmt` hands the characters of the pieces of the format to `putch`, one after the other, unless
it reads beyond `error_string`.
-/

namespace UCore.Printf

open Library

variable {σ : Type} {putch : ℤ → σ → σ} {s : State σ}

section Emit

/-- The state after `putch` got the characters. -/
def State.emit (putch : ℤ → σ → σ) (s : State σ) (l : List ℤ) : State σ :=
  { s with putdat := l.foldl (fun d ch => putch ch d) s.putdat }

@[simp] theorem emit_nil : s.emit putch [] = s := rfl

@[simp] theorem emit_emit {l l' : List ℤ} :
    (s.emit putch l).emit putch l' = s.emit putch (l ++ l') := by
  unfold State.emit
  rw [List.foldl_append]

@[simp] theorem emit_args {l : List ℤ} : (s.emit putch l).args = s.args := rfl

theorem put_run {ch : ℤ} : put putch ch s = .ok ((), s.emit putch [ch]) := rfl

theorem putTimes_run {ch : ℤ} {n : ℕ} :
    putTimes putch ch n s = .ok ((), s.emit putch (List.replicate n ch)) := by
  induction n generalizing s with
  | zero => rfl
  | succ n ih =>
    refine Eq.trans (Code.bind_ok put_run) (ih.trans ?_)
    rw [emit_emit, List.replicate_succ]
    rfl

end Emit

section Number

variable {base num n : ℕ} {padc : UInt8} {width : ℤ} {f : Flags}

theorem numeral_small (hb : num < base) : numeral base num = [digitChar num] := by
  unfold numeral
  split
  · rename_i h
    rw [h]
  · rename_i h
    rw [Nat.digits_of_lt base num h hb]
    rfl

theorem numeral_large (hb : 2 ≤ base) (hn : base ≤ num) :
    numeral base num = numeral base (num / base) ++ [digitChar (num % base)] := by
  have hpos : num / base ≠ 0 := (Nat.div_pos hn (by omega)).ne'
  unfold numeral
  rw [if_neg (by omega), if_neg hpos, Nat.digits_def' (by omega) (by omega), List.map_cons,
    List.reverse_cons]

theorem printnum_small (hn : num < base) :
    printnum putch base padc (n + 1) num width s = .ok ((), s.emit putch
      (List.replicate (dec^[(numeral base num).length] width).toNat (padc.toNat : ℤ) ++
        numeral base num)) := by
  unfold printnum
  rw [if_neg (Nat.not_le.mpr hn)]
  refine Eq.trans (Code.bind_ok putTimes_run) (put_run.trans ?_)
  rw [emit_emit, numeral_small hn, Nat.mod_eq_of_lt hn]
  rfl

theorem printnum_run (hb : 2 ≤ base) (hn : num < base ^ (n + 1)) :
    printnum putch base padc (n + 1) num width s = .ok ((), s.emit putch
      (List.replicate (dec^[(numeral base num).length] width).toNat (padc.toNat : ℤ) ++
        numeral base num)) := by
  induction n generalizing num width with
  | zero => exact printnum_small (by simpa using hn)
  | succ n ih =>
    by_cases h : base ≤ num
    · have hdiv : num / base < base ^ (n + 1) := Nat.div_lt_of_lt_mul (by rwa [pow_succ'] at hn)
      have hlen : (numeral base num).length = (numeral base (num / base)).length + 1 := by
        rw [numeral_large hb h, List.length_append]
        rfl
      unfold printnum
      rw [if_pos h]
      refine Eq.trans (Code.bind_ok (ih hdiv)) (put_run.trans ?_)
      rw [emit_emit, List.append_assoc, ← numeral_large hb h, hlen, Function.iterate_succ_apply]
      rfl
    · exact printnum_small (Nat.lt_of_not_le h)

theorem number_run (hb : 8 ≤ base) (hn : num < 2 ^ 64) :
    number putch f num base s = .ok ((), s.emit putch (numberText f num base)) := by
  refine printnum_run (n := 63) (by omega) (hn.trans_le ?_)
  exact (Nat.pow_le_pow_left (by omega : 2 ≤ base) 64)

end Number

section String

variable {f : Flags} {altflag : Bool} {str : Str} {precision width : ℤ}

theorem putString_run : putString putch altflag str precision width s =
    .ok (dec^[(within precision str).length] width,
      s.emit putch ((within precision str).map (shown altflag))) := by
  induction str generalizing precision width s with
  | nil =>
    unfold putString within
    simp
  | cons ch str ih =>
    unfold putString
    by_cases h : precision < 0
    · have hw : ∀ l : Str, within precision l = l := fun l => if_pos h
      rw [if_pos (.inl h), if_pos h]
      refine Eq.trans (Code.bind_ok put_run) (ih.trans ?_)
      rw [hw, hw, emit_emit, List.map_cons, List.length_cons, Function.iterate_succ_apply]
      rfl
    · by_cases h₀ : precision = 0
      · subst h₀
        rw [if_neg (by omega)]
        unfold within
        simp
      · have hw : within precision (ch :: str) = ch :: within (precision - 1) str := by
          unfold within
          rw [if_neg h, if_neg (by omega),
            show precision.toNat = (precision - 1).toNat + 1 by omega,
            List.take_succ_cons]
        rw [if_pos (.inr (by omega)), if_neg h]
        refine Eq.trans (Code.bind_ok put_run) (ih.trans ?_)
        rw [hw, emit_emit, List.map_cons, List.length_cons, Function.iterate_succ_apply]
        rfl

/-- The string that `va_arg(ap, char *)` gets. -/
def stringArg : Arg → Option Str
  | .chars s => some s
  | .word w => if w = 0 then some nullString else none

theorem string_run {a : Arg} {args : List Arg} {d : σ} (ha : stringArg a = some str) :
    string putch f ⟨a :: args, d⟩ = .ok ((), (State.mk args d).emit putch (stringText f str)) := by
  have hchars : ∃ o : Option Str, o.getD nullString = str ∧
      vaChars ⟨a :: args, d⟩ = .ok (o, State.mk args d) := by
    cases a with
    | chars t => exact ⟨some t, Option.some.inj ha, rfl⟩
    | word w =>
      change (if w = 0 then some nullString else none) = some str at ha
      split at ha
      · rename_i hw
        refine ⟨none, Option.some.inj ha, ?_⟩
        refine Eq.trans (Code.bind_ok (a := .word w) (t := ⟨args, d⟩) rfl) ?_
        dsimp only
        rw [if_pos hw]
        rfl
      · cases ha
  obtain ⟨o, rfl, ho⟩ := hchars
  refine Eq.trans (Code.bind_ok ho) ?_
  unfold stringText
  dsimp only
  split
  · refine Eq.trans (Code.bind_ok (Eq.trans (Code.bind_ok putTimes_run) rfl)) ?_
    refine Eq.trans (Code.bind_ok putString_run) (putTimes_run.trans ?_)
    rw [emit_emit, emit_emit, List.length_map, ← List.append_assoc]
    rfl
  · refine Eq.trans (Code.bind_ok (Code.pure_run)) ?_
    refine Eq.trans (Code.bind_ok putString_run) (putTimes_run.trans ?_)
    rw [emit_emit, List.length_map]

end String

section Scan

variable {f f' : Flags} {num : Option ℤ} {rest tail before after : Str} {args args' : List Arg}
    {ch : UInt8}
  {n : ℕ} {d : σ}

/-- `reswitch`, or the loop over the digits of the number that is being read. -/
def resume (n : ℕ) (f : Flags) (num : Option ℤ) (before after : Str) :
    Prog σ (Flags × UInt8 × Cursor) :=
  match num with
  | none => reswitch n f ⟨before, after⟩
  | some v => reswitch n (f.finish (some (digits v before after).1)) (digits v before after).2

theorem resume_digit {v : ℤ} (hd : isDigit ch) : (resume n f (some v) before (ch :: after) :
    Prog σ (Flags × UInt8 × Cursor)) = resume n f (some (digit v ch)) (ch :: before) after := by
  have hstop : ¬ (ch < zeroDigit ∨ nineDigit < ch) := by
    rintro (h | h)
    · exact UInt8.not_lt.mpr hd.1 h
    · exact UInt8.not_lt.mpr hd.2 h
  unfold resume
  dsimp only
  rw [digits, if_neg hstop]

theorem resume_other (hd : ¬ (num.isSome ∧ isDigit ch)) : (resume n f num before (ch :: after) :
    Prog σ (Flags × UInt8 × Cursor)) = reswitch n (f.finish num) ⟨before, ch :: after⟩ := by
  cases num with
  | none => rfl
  | some v =>
    have hstop : ch < zeroDigit ∨ nineDigit < ch := by
      by_contra h
      rw [not_or, UInt8.not_lt, UInt8.not_lt] at h
      exact hd ⟨rfl, h⟩
    unfold resume
    dsimp only
    rw [digits, if_pos hstop]

/-- The flags of an escape are read up to the character of the conversion. -/
theorem scan_run (h : scan f num rest args = some (f', tail, args')) :
    ∃ used, rest = used ++ tail ∧ percent ∉ used ∧ ∀ n before ch after (d : σ), rest.length < n →
      tail ++ [0] = ch :: after → resume n f num before (rest ++ [0]) ⟨args, d⟩ =
        .ok ((f', ch, ⟨ch :: (used.reverse ++ before), after⟩), ⟨args', d⟩) := by
  induction rest generalizing f num args with
  | nil =>
    unfold scan at h
    cases h
    refine ⟨[], rfl, List.not_mem_nil, fun n before ch after d hn ha => ?_⟩
    obtain ⟨n, rfl⟩ := Nat.exists_eq_succ_of_ne_zero hn.ne'
    cases ha
    rw [List.nil_append, resume_other fun h => absurd h.2 (by decide)]
    rfl
  | cons x rest ih =>
    -- the escape goes on after `x`
    have hstep : ∀ g num' args₂, scan g num' rest args₂ = some (f', tail, args') → x ≠ percent →
        (∀ m before (d : σ), ∃ m',
          m ≤ m' ∧ resume (m + 1) f num before (x :: (rest ++ [0])) ⟨args, d⟩ =
          resume m' g num' (x :: before) (rest ++ [0]) ⟨args₂, d⟩) →
        ∃ used, x :: rest = used ++ tail ∧ percent ∉ used ∧ ∀ n before ch after (d : σ),
          (x :: rest).length < n → tail ++ [0] = ch :: after →
          resume n f num before (x :: rest ++ [0]) ⟨args, d⟩ =
            .ok ((f', ch, ⟨ch :: (used.reverse ++ before), after⟩), ⟨args', d⟩) := by
      intro g num' args₂ hscan hx hrun
      obtain ⟨used, rfl, hused, hall⟩ := ih hscan
      refine ⟨x :: used, rfl, ?_, fun n before ch after d hn ha => ?_⟩
      · rw [List.mem_cons, not_or]
        exact ⟨hx.symm, hused⟩
      · obtain ⟨m, rfl⟩ := Nat.exists_eq_succ_of_ne_zero (Nat.ne_zero_of_lt hn)
        obtain ⟨m', hm, heq⟩ := hrun m before d
        rw [List.cons_append, heq,
          hall m' _ ch after d ((Nat.lt_of_succ_lt_succ hn).trans_le hm) ha,
          List.reverse_cons, List.append_assoc]
        rfl
    have hdigit : ∀ {y : UInt8}, isDigit y → y ≠ percent := by
      rintro y hy rfl
      exact absurd hy (by decide)
    unfold scan at h
    by_cases hd : num.isSome ∧ isDigit x
    · rw [if_pos hd] at h
      obtain ⟨v, rfl⟩ := Option.isSome_iff_exists.mp hd.1
      exact hstep _ _ _ h (hdigit hd.2) fun m before d =>
        ⟨m + 1, Nat.le_succ m, by rw [resume_digit hd.2]; rfl⟩
    rw [if_neg hd] at h
    have hnext : ∀ m before (d : σ), resume (m + 1) f num before (x :: (rest ++ [0])) ⟨args, d⟩ =
        switch (reswitch m) (f.finish num) x ⟨x :: before, rest ++ [0]⟩ ⟨args, d⟩ := by
      intro m before d
      rw [resume_other hd]
      rfl
    dsimp only at h
    split_ifs at h with h₁ h₂ h₃ h₄ h₅ h₆ h₇
    · refine hstep _ none _ h (by rw [h₁]; decide) fun m before d => ⟨m, le_rfl, ?_⟩
      rw [hnext, switch, if_pos h₁]
      rfl
    · refine hstep _ none _ h (by rw [h₂]; decide) fun m before d => ⟨m, le_rfl, ?_⟩
      rw [hnext, switch, if_neg h₁, if_pos h₂]
      rfl
    · refine hstep _ _ _ h ?_ fun m before d => ⟨m, le_rfl, ?_⟩
      · rintro rfl
        exact absurd h₃ (by decide)
      · rw [hnext, switch, if_neg h₁, if_neg h₂, if_pos h₃]
        rfl
    · split at h
      · rename_i w args₂
        refine hstep _ none _ h (by rw [h₄]; decide) fun m before d => ⟨m, le_rfl, ?_⟩
        rw [hnext, switch, if_neg h₁, if_neg h₂, if_neg h₃, if_pos h₄]
        rfl
      · cases h
    · refine hstep _ none _ h (by rw [h₅]; decide) fun m before d => ⟨m, le_rfl, ?_⟩
      rw [hnext, switch, if_neg h₁, if_neg h₂, if_neg h₃, if_neg h₄, if_pos h₅]
      rfl
    · refine hstep _ none _ h (by rw [h₆]; decide) fun m before d => ⟨m, le_rfl, ?_⟩
      rw [hnext, switch, if_neg h₁, if_neg h₂, if_neg h₃, if_neg h₄, if_neg h₅, if_pos h₆]
      rfl
    · refine hstep _ none _ h (by rw [h₇]; decide) fun m before d => ⟨m, le_rfl, ?_⟩
      rw [hnext, switch, if_neg h₁, if_neg h₂, if_neg h₃, if_neg h₄, if_neg h₅,
        if_neg h₆, if_pos h₇]
      rfl
    · cases h
      refine ⟨[], rfl, List.not_mem_nil, fun n before ch after d hn ha => ?_⟩
      obtain ⟨m, rfl⟩ := Nat.exists_eq_succ_of_ne_zero (Nat.ne_zero_of_lt hn)
      cases ha
      rw [List.cons_append, hnext, switch, if_neg h₁, if_neg h₂, if_neg h₃, if_neg h₄, if_neg h₅,
        if_neg h₆, if_neg h₇]
      rfl

end Scan

section Convert

variable {f : Flags} {ch : UInt8} {w : UInt64} {args args' : List Arg} {d : σ} {before after : Str}
  {printfmt : Str → List Arg → Prog σ Unit} {fmt : Cursor} {p : Piece}

theorem vaInt_run : (vaInt : Prog σ ℤ) ⟨.word w :: args, d⟩ = .ok (int32 w.toNat, ⟨args, d⟩) := rfl

theorem getuint_run : (getuint f.lflag : Prog σ ℕ) ⟨.word w :: args, d⟩ =
    .ok (f.unsignedValue w, ⟨args, d⟩) := by
  unfold getuint Flags.unsignedValue
  refine Eq.trans (Code.bind_ok (a := w) (t := ⟨args, d⟩) rfl) ?_
  by_cases h₂ : 2 ≤ f.lflag
  · rw [if_pos h₂, if_neg (by omega)]
    rfl
  · rw [if_neg h₂]
    by_cases h₀ : f.lflag = 0
    · rw [if_neg (not_not.mpr h₀), if_pos h₀]
      rfl
    · rw [if_pos h₀, if_neg h₀]
      rfl

theorem getint_run : (getint f.lflag : Prog σ ℤ) ⟨.word w :: args, d⟩ =
    .ok (f.signedValue w, ⟨args, d⟩) := by
  unfold getint Flags.signedValue
  refine Eq.trans (Code.bind_ok (a := w) (t := ⟨args, d⟩) rfl) ?_
  by_cases h₂ : 2 ≤ f.lflag
  · rw [if_pos h₂, if_neg (by omega)]
    rfl
  · rw [if_neg h₂]
    by_cases h₀ : f.lflag = 0
    · rw [if_neg (not_not.mpr h₀), if_pos h₀]
      rfl
    · rw [if_pos h₀, if_neg h₀]
      rfl

theorem toNat_lt : w.toNat < 2 ^ 64 := UInt64.toNat_lt w

theorem unsignedValue_lt : f.unsignedValue w < 2 ^ 64 := by
  have := toNat_lt (w := w)
  unfold Flags.unsignedValue
  split <;> omega

theorem int32_bounds (x : ℤ) : -2 ^ 31 ≤ int32 x ∧ int32 x < 2 ^ 31 :=
  ⟨Int.le_bmod (by decide), Int.bmod_lt (by decide)⟩

theorem signedValue_bounds : -2 ^ 63 ≤ f.signedValue w ∧ f.signedValue w < 2 ^ 63 := by
  have h₁ := int32_bounds (w.toNat : ℤ)
  have h₂ := Int.le_bmod (x := (w.toNat : ℤ)) (m := 2 ^ 64) (by decide)
  have h₃ := Int.bmod_lt (x := (w.toNat : ℤ)) (m := 2 ^ 64) (by decide)
  unfold Flags.signedValue
  split <;> omega

theorem unsigned_run {base : ℕ} (hb : 8 ≤ base) : unsigned putch f base ⟨.word w :: args, d⟩ =
    .ok ((), (State.mk args d).emit putch (Piece.number f [] (f.unsignedValue w) base).text) :=
  (Code.bind_ok getuint_run).trans (number_run hb unsignedValue_lt)

theorem pointer_run : pointer putch f ⟨.word w :: args, d⟩ = .ok ((), (State.mk args d).emit putch
    (Piece.number f [zeroDigit.toNat, letterX.toNat] w.toNat 16).text) := by
  refine Eq.trans (Code.bind_ok put_run) (Eq.trans (Code.bind_ok put_run) ?_)
  refine Eq.trans (Code.bind_ok (a := w) rfl) ((number_run (by decide) toNat_lt).trans ?_)
  rfl

theorem decimal_run : decimal putch f ⟨.word w :: args, d⟩ =
    .ok ((), (State.mk args d).emit putch (decimalPiece f (f.signedValue w)).text) := by
  obtain ⟨hlo, hhi⟩ := signedValue_bounds (f := f) (w := w)
  unfold decimal decimalPiece
  refine Eq.trans (Code.bind_ok getint_run) ?_
  split
  · rename_i hneg
    have habs : (-f.signedValue w % 2 ^ 64).toNat = (f.signedValue w).natAbs := by omega
    refine Eq.trans (Code.bind_ok put_run) ?_
    rw [habs]
    refine (number_run (by decide) (by omega)).trans ?_
    rw [emit_emit]
    rfl
  · exact number_run (by decide) (by omega)

theorem rewind_run {l : Str} (hl : percent ∉ l) : rewind (l ++ percent :: before) after s =
    .ok (⟨percent :: before, l.reverse ++ after⟩, s) := by
  induction l generalizing after with
  | nil => rfl
  | cons c l ih =>
    rw [List.mem_cons, not_or] at hl
    rw [List.cons_append, rewind, if_neg (Ne.symm hl.1), ih hl.2, List.reverse_cons,
      List.append_assoc]
    rfl

/-- What the cases of the `switch` that print do for a piece. -/
def Piece.print (putch : ℤ → σ → σ) (printfmt : Str → List Arg → Prog σ Unit) : Piece → Prog σ Unit
  | .error err => message printfmt err
  | p => fun s => .ok ((), s.emit putch p.text)

theorem decimalPiece_print {num : ℤ} : (decimalPiece f num).print putch printfmt s =
    .ok ((), s.emit putch (decimalPiece f num).text) := by
  unfold decimalPiece
  split <;> rfl

theorem wordPiece_some (h : takesWord ch) : ∃ p, wordPiece f ch w = some p := by
  unfold takesWord at h
  rcases h with rfl | rfl | rfl | rfl | rfl | rfl | rfl <;> exact ⟨_, rfl⟩

theorem convert_word (h : takesWord ch) : ∃ p, wordPiece f ch w = some p ∧
    convert putch printfmt f ch fmt ⟨.word w :: args, d⟩ =
      (p.print putch printfmt >>= fun _ => pure fmt) ⟨args, d⟩ := by
  unfold takesWord at h
  rcases h with rfl | rfl | rfl | rfl | rfl | rfl | rfl
  · refine ⟨_, if_pos rfl, ?_⟩
    rw [convert, if_pos rfl]
    rfl
  · refine ⟨.error (int32 w.toNat), rfl, ?_⟩
    rw [convert, if_neg (by decide), if_pos rfl]
    exact Code.bind_ok vaInt_run
  · refine ⟨decimalPiece f (f.signedValue w), rfl, ?_⟩
    rw [convert, if_neg (by decide), if_neg (by decide), if_neg (by decide), if_pos rfl]
    refine Eq.trans (Code.bind_ok decimal_run) (Eq.symm ?_)
    exact Code.bind_ok decimalPiece_print
  · refine ⟨_, rfl, ?_⟩
    rw [convert, if_neg (by decide), if_neg (by decide), if_neg (by decide),
      if_neg (by decide), if_pos rfl]
    exact Code.bind_ok (unsigned_run (by decide))
  · refine ⟨_, rfl, ?_⟩
    rw [convert, if_neg (by decide), if_neg (by decide), if_neg (by decide), if_neg (by decide),
      if_neg (by decide), if_pos rfl]
    exact Code.bind_ok (unsigned_run (by decide))
  · refine ⟨_, rfl, ?_⟩
    rw [convert, if_neg (by decide), if_neg (by decide), if_neg (by decide), if_neg (by decide),
      if_neg (by decide), if_neg (by decide), if_pos rfl]
    exact Code.bind_ok pointer_run
  · refine ⟨_, rfl, ?_⟩
    rw [convert, if_neg (by decide), if_neg (by decide), if_neg (by decide), if_neg (by decide),
      if_neg (by decide), if_neg (by decide), if_neg (by decide), if_pos rfl]
    exact Code.bind_ok (unsigned_run (by decide))

theorem convert_run (h : conversion f ch args = some (some p, args')) :
    convert putch printfmt f ch fmt ⟨args, d⟩ =
      (p.print putch printfmt >>= fun _ => pure fmt) ⟨args', d⟩ := by
  unfold conversion at h
  by_cases hw : takesWord ch
  · rw [if_pos hw] at h
    split at h
    · rename_i w rest
      obtain ⟨hp, rfl⟩ := Prod.mk.inj (Option.some.inj h)
      obtain ⟨q, hq, hrun⟩ := convert_word hw
      rw [hp] at hq
      obtain rfl := Option.some.inj hq
      exact hrun
    · cases h
  rw [if_neg hw] at h
  unfold takesWord at hw
  simp only [not_or] at hw
  obtain ⟨hc, he, hd, hu, ho, hp, hx⟩ := hw
  by_cases hs : ch = letterS
  · have hstring : ∃ a t, args = a :: args' ∧ stringArg a = some t ∧ p = .string f t := by
      rw [if_pos hs] at h
      split at h
      · rename_i t rest
        cases h
        exact ⟨_, t, rfl, rfl, rfl⟩
      · rename_i w rest
        split at h
        · rename_i hz
          cases h
          exact ⟨_, nullString, rfl, if_pos hz, rfl⟩
        · cases h
      · cases h
    obtain ⟨a, t, rfl, ha, rfl⟩ := hstring
    rw [convert, if_neg hc, if_neg he, if_pos hs]
    exact Code.bind_ok (string_run ha)
  · rw [if_neg hs] at h
    split at h
    · rename_i hper
      cases h
      rw [convert, if_neg hc, if_neg he, if_neg hs, if_neg hd, if_neg hu, if_neg ho,
        if_neg hp, if_neg hx, if_pos hper, hper]
      rfl
    · cases h

theorem conversion_unknown (h : conversion f ch args = some (none, args')) :
    args = args' ∧ ¬ takesWord ch ∧ ch ≠ letterS ∧ ch ≠ percent := by
  unfold conversion at h
  by_cases hw : takesWord ch
  · rw [if_pos hw] at h
    split at h
    · rename_i w rest
      obtain ⟨q, hq⟩ := wordPiece_some (f := f) (w := w) hw
      rw [hq] at h
      cases h
    · cases h
  rw [if_neg hw] at h
  split at h
  · split at h
    · cases h
    · split at h <;> cases h
    · cases h
  rename_i hs
  split at h
  · cases h
  · rename_i hper
    cases h
    exact ⟨rfl, hw, hs, hper⟩

theorem convert_unknown (h : conversion f ch args = some (none, args')) {l : Str}
    (hl : percent ∉ l) :
    convert putch printfmt f ch ⟨ch :: (l ++ percent :: before), after⟩ ⟨args, d⟩ =
      .ok (⟨percent :: before, l.reverse ++ ch :: after⟩,
        (State.mk args' d).emit putch [percent.toNat]) := by
  obtain ⟨rfl, hw, hs, hper⟩ := conversion_unknown h
  unfold takesWord at hw
  simp only [not_or] at hw
  obtain ⟨hc, he, hd, hu, ho, hp, hx⟩ := hw
  rw [convert, if_neg hc, if_neg he, if_neg hs, if_neg hd, if_neg hu, if_neg ho,
    if_neg hp, if_neg hx, if_neg hper]
  exact (Code.bind_ok put_run).trans (rewind_run hl)

end Convert

section Format

variable {f : Flags} {ch : UInt8} {w : UInt64} {args args' : List Arg} {d : σ}
    {before after rest : Str}
  {p : Piece} {ps : List Piece} {n : ℕ}

/-- The call of `printfmt` for a message of `%e`. -/
def nested (putch : ℤ → σ → σ) (n : ℕ) (s : Str) (args : List Arg) : Prog σ Unit :=
  withArgs args (formatLoop putch n ⟨[], s ++ [0]⟩)

theorem bind_of_print {α β : Type} {m : Prog σ α} {q : Prog σ Unit} {g : α → Prog σ β} {a : α}
    {t : State σ}
    (h : m s = (q >>= fun _ => pure a) t) : (m >>= g) s = (q >>= fun _ => g a) t := by
  change Code.bind m g s = Code.bind q _ t
  change m s = Code.bind q _ t at h
  unfold Code.bind at *
  rw [h]
  cases q t with
  | ok r => rfl
  | error e => rfl

theorem formatLoop_char (h : ch ≠ percent) (h₀ : ch ≠ 0) :
    formatLoop putch (n + 1) ⟨before, ch :: after⟩ s =
      formatLoop putch (n + 1) ⟨ch :: before, after⟩ (s.emit putch [ch.toNat]) := by
  have hlit : literals putch before (ch :: after) s =
      literals putch (ch :: before) after (s.emit putch [ch.toNat]) := by
    rw [literals, if_neg h, if_neg h₀]
    rfl
  unfold formatLoop
  dsimp only
  change Code.bind _ _ s = Code.bind _ _ _
  unfold Code.bind
  rw [hlit]

/-- The arguments of `%e` are of the type `int`. -/
def Piece.InRange (p : Piece) : Prop := ∀ err, p = .error err → -2 ^ 31 ≤ err ∧ err < 2 ^ 31

theorem inRange_of_conversion (h : conversion f ch args = some (some p, args')) : p.InRange := by
  rintro err rfl
  unfold conversion at h
  split at h
  · rename_i hw
    split at h
    · rename_i w rest
      obtain ⟨hp, -⟩ := Prod.mk.inj (Option.some.inj h)
      have hrange := int32_bounds (w.toNat : ℤ)
      unfold takesWord at hw
      rcases hw with rfl | rfl | rfl | rfl | rfl | rfl | rfl
      · cases hp
      · have herr : int32 w.toNat = err := Piece.error.inj (Option.some.inj hp)
        rwa [herr] at hrange
      · change some (decimalPiece f _) = _ at hp
        unfold decimalPiece at hp
        split at hp <;> cases hp
      all_goals cases hp
    · cases h
  · split at h
    · split at h
      · cases h
      · split at h <;> cases h
      · cases h
    · split at h <;> cases h

theorem formatLoop_percent {tail : Str} {args₁ : List Arg}
    (h : scan .start none rest args = some (f, tail, args₁)) :
    ∃ used, rest = used ++ tail ∧ percent ∉ used ∧ ∀ (putch : ℤ → σ → σ) n before ch after (d : σ),
      tail ++ [0] = ch :: after → formatLoop putch (n + 1) ⟨before,
        percent :: (rest ++ [0])⟩ ⟨args, d⟩ =
        (convert putch (nested putch n) f ch ⟨ch :: (used.reverse ++ percent :: before), after⟩ >>=
          formatLoop putch n) ⟨args₁, d⟩ := by
  obtain ⟨used, hrest, hused, hall⟩ := scan_run h
  refine ⟨used, hrest, hused, fun putch n before ch after d ha => ?_⟩
  have hscan := hall ((rest ++ [0]).length + 1) (percent :: before) ch after d
    (by rw [List.length_append]; omega) ha
  unfold formatLoop
  refine Eq.trans (Code.bind_ok (a := some ⟨percent :: before, rest ++ [0]⟩) rfl) ?_
  exact Code.bind_ok hscan

/-- One round from a `%` on: a piece is printed. -/
theorem formatLoop_round (h : pieces (percent :: rest) args = some ps) :
    ∃ p args' rest' ps', ps = p :: ps' ∧ pieces rest' args' = some ps' ∧ p.InRange ∧
      rest'.length ≤ rest.length ∧ (∀ c ∈ rest', c ∈ rest) ∧
      ∀ (putch : ℤ → σ → σ) n before (d : σ), ∃ before',
        formatLoop putch (n + 1) ⟨before, percent :: (rest ++ [0])⟩ ⟨args, d⟩ =
          (p.print putch (nested putch n) >>= fun _ => formatLoop putch n ⟨before', rest' ++ [0]⟩)
            ⟨args', d⟩ := by
  have hchar : ∀ {c}, (Piece.char c).InRange := by
    rintro c err h
    cases h
  -- an escape that is not known is read once more, without its `%`
  have hunknown : ∀ {f ch tail after args₁}, scan .start none rest args = some (f, tail, args₁) →
      tail ++ [0] = ch :: after → conversion f ch args₁ = some (none, args₁) →
      (pieces rest args₁).map (Piece.char percent.toNat :: ·) = some ps →
      ∃ p args' rest' ps', ps = p :: ps' ∧ pieces rest' args' = some ps' ∧ p.InRange ∧
        rest'.length ≤ rest.length ∧ (∀ c ∈ rest', c ∈ rest) ∧
        ∀ (putch : ℤ → σ → σ) n before (d : σ), ∃ before',
          formatLoop putch (n + 1) ⟨before, percent :: (rest ++ [0])⟩ ⟨args, d⟩ =
            (p.print putch (nested putch n) >>= fun _ => formatLoop putch n ⟨before', rest' ++ [0]⟩)
              ⟨args', d⟩ := by
    intro f ch tail after args₁ hscan ha hconv hps
    obtain ⟨ps', hps', rfl⟩ := Option.map_eq_some_iff.mp hps
    obtain ⟨used, hrest, hused, hall⟩ := formatLoop_percent hscan
    refine ⟨_, args₁, rest, ps', rfl, hps', hchar, le_rfl, fun _ hc => hc,
      fun putch n before d => ?_⟩
    refine ⟨percent :: before, (hall putch n before ch after d ha).trans ?_⟩
    refine (Code.bind_ok (convert_unknown hconv (l := used.reverse)
      (by rwa [List.mem_reverse]))).trans ?_
    rw [List.reverse_reverse, ← ha, ← List.append_assoc, ← hrest]
    rfl
  rw [pieces, if_neg (not_not.mpr rfl)] at h
  split at h
  · cases h
  · rename_i f args₁ hscan
    exact hunknown hscan (List.nil_append _) rfl h
  · rename_i f ch tail args₁ hscan
    split at h
    · cases h
    · rename_i args₂ hconv
      obtain ⟨rfl, -⟩ := conversion_unknown hconv
      exact hunknown hscan rfl hconv h
    · rename_i p args₂ hconv
      obtain ⟨ps', hps', rfl⟩ := Option.map_eq_some_iff.mp h
      obtain ⟨used, rfl, hused, hall⟩ := formatLoop_percent hscan
      refine ⟨p, args₂, tail, ps', rfl, hps', inRange_of_conversion hconv, ?_, fun c hc => ?_,
        fun putch n before d => ⟨ch :: (used.reverse ++ percent :: before),
          (hall putch n before ch (tail ++ [0]) d rfl).trans ?_⟩⟩
      · rw [List.length_append, List.length_cons]
        omega
      · exact List.mem_append_right _ (List.mem_cons_of_mem _ hc)
      · exact bind_of_print (convert_run hconv)

theorem text_cons : text (p :: ps) = p.text ++ text ps := List.flatMap_cons

theorem emit_then {l l' : List ℤ} :
    (State.mk args ((State.mk args' d).emit putch l).putdat).emit putch l' =
      (State.mk args d).emit putch (l ++ l') := by
  unfold State.emit
  rw [List.foldl_append]

/-- The piece hands its text to `putch` when `b` rounds are left for messages. -/
def Piece.Prints (putch : ℤ → σ → σ) (b : ℕ) (p : Piece) : Prop :=
  ∀ n ≥ b, ∀ s, p.print putch (nested putch n) s = .ok ((), s.emit putch p.text)

/-- The `%e` that reads beyond `error_string`: the negation of the argument is the argument. -/
def beyond : Piece := .error (-2 ^ 31)

theorem beyond_print : beyond.print putch (nested putch n) s = .error (.errorString (-2 ^ 31)) :=
    rfl

/-- The rest of a format hands the text of its pieces to `putch`, or it reads beyond
`error_string`. -/
def Outputs (putch : ℤ → σ → σ) (n : ℕ) (fmt : Cursor) (s : State σ) (ps : List Piece) : Prop :=
  (beyond ∉ ps → ∃ args',
    formatLoop putch n fmt s = .ok ((), (State.mk args' s.putdat).emit putch (text ps))) ∧
  (beyond ∈ ps → formatLoop putch n fmt s = .error (.errorString (-2 ^ 31)))

/-- By induction on the format: a round reads a character or an escape. -/
theorem formatLoop_run {b : ℕ} (hb : 0 < b) (h₀ : 0 ∉ rest) (hps : pieces rest args = some ps)
    (hp : ∀ p ∈ ps, p.InRange → p ≠ beyond → p.Prints putch b) (hn : rest.length + b ≤ n) :
    Outputs putch n ⟨before, rest ++ [0]⟩ ⟨args, d⟩ ps := by
  induction hlen :
    rest.length using Nat.strong_induction_on generalizing n before rest args ps d with
  | _ m ih =>
    obtain ⟨n, rfl⟩ : ∃ l, n = l + 1 := ⟨n - 1, by omega⟩
    cases rest with
    | nil =>
      rw [pieces] at hps
      cases hps
      exact ⟨fun _ => ⟨args, rfl⟩, fun h => absurd h List.not_mem_nil⟩
    | cons ch rest =>
      rw [List.mem_cons, not_or] at h₀
      rw [List.length_cons] at hn hlen
      by_cases hch : ch = percent
      · subst hch
        obtain ⟨p, args', rest', ps', rfl, hps', hrange, hle, hsub, hround⟩ := formatLoop_round hps
        obtain ⟨before', hround⟩ := hround putch n before d
        have htail :
          Outputs putch n ⟨before', rest' ++ [0]⟩ ((State.mk args' d).emit putch p.text) ps' :=
          ih rest'.length (by omega) (fun h => h₀.2 (hsub 0 h)) hps'
            (fun q hq => hp q (List.mem_cons_of_mem _ hq)) (by omega) rfl
        unfold Outputs
        rw [List.cons_append, hround]
        by_cases hbeyond : p = beyond
        · refine ⟨fun h => absurd (hbeyond ▸ List.mem_cons_self) h, fun _ => ?_⟩
          subst hbeyond
          exact Code.bind_error beyond_print
        · have hprint := hp p List.mem_cons_self hrange hbeyond n (by omega) ⟨args', d⟩
          refine ⟨fun h => ?_, fun h => ?_⟩
          · rw [List.mem_cons, not_or] at h
            obtain ⟨args'', hrun⟩ := htail.1 h.2
            refine ⟨args'', (Code.bind_ok hprint).trans (hrun.trans ?_)⟩
            rw [text_cons, emit_then]
          · exact (Code.bind_ok hprint).trans
              (htail.2 ((List.mem_cons.mp h).resolve_left (Ne.symm hbeyond)))
      · rw [pieces_char hch] at hps
        obtain ⟨ps', hps', rfl⟩ := Option.map_eq_some_iff.mp hps
        have htail : Outputs putch (n + 1) ⟨ch :: before, rest ++ [0]⟩
            ((State.mk args d).emit putch [(ch.toNat : ℤ)]) ps' :=
          ih rest.length (by omega) h₀.2 hps' (fun q hq => hp q (List.mem_cons_of_mem _ hq))
            (by omega) rfl
        unfold Outputs
        rw [List.cons_append, formatLoop_char hch (Ne.symm h₀.1)]
        refine ⟨fun h => ?_, fun h => ?_⟩
        · rw [List.mem_cons, not_or] at h
          obtain ⟨args'', hrun⟩ := htail.1 h.2
          refine ⟨args'', hrun.trans ?_⟩
          rw [text_cons, emit_then]
          rfl
        · refine htail.2 ((List.mem_cons.mp h).resolve_left fun h => ?_)
          cases h

end Format

section Messages

variable {p : Piece} {err : ℤ} {w : UInt64} {args : List Arg} {d : σ} {n : ℕ} {t : Str}

theorem prints_of_plain {b : ℕ} (h : ∀ err, p ≠ .error err) : p.Prints putch b := by
  intro n _ s
  cases p with
  | error err => exact absurd rfl (h err)
  | _ => rfl

theorem dec_iterate (h : n < 2 ^ 31) : dec^[n] (-1) = -1 - n := by
  induction n with
  | zero => rfl
  | succ n ih =>
    rw [Function.iterate_succ_apply', ih (by omega), dec, int32,
      Int.bmod_eq_of_le (by omega) (by omega)]
    push_cast
    ring

theorem numberText_start {num base : ℕ} (h : (numeral base num).length < 2 ^ 31) :
    numberText .start num base = numeral base num := by
  unfold numberText
  rw [show Flags.start.width = -1 from rfl, dec_iterate h, Int.toNat_of_nonpos (by omega)]
  rfl

theorem stringText_start (h : t.length < 2 ^ 31) : stringText .start t = charsText t := by
  have hbody : (within Flags.start.precision t).map (shown Flags.start.altflag) = charsText t := by
    rw [within, if_pos (by decide)]
    refine List.map_congr_left fun c _ => ?_
    unfold shown
    rw [if_neg (by simp [Flags.start])]
  unfold stringText
  dsimp only
  rw [hbody, if_neg (by decide), charsText, List.length_map, show Flags.start.width = -1 from rfl,
    dec_iterate h, Int.toNat_of_nonpos (by omega), List.replicate_zero, List.append_nil]

theorem pieces_string : pieces stringFormat [.chars t] = some [.string .start t] := by
  rw [stringFormat, pieces_conversion rfl rfl, pieces_nil]
  rfl

theorem pieces_error : pieces errorFormat [.word w] = some
    ((charsText errorWord).map Piece.char ++ [decimalPiece .start (int32 w.toNat)]) := by
  have hd : pieces (percent :: [letterD]) [.word w] =
    some [decimalPiece .start (int32 w.toNat)] := by
    have hs : scan .start none [letterD] [.word w] = some (.start, [letterD], [.word w]) := rfl
    have hc : conversion .start letterD [.word w] =
        some (some (decimalPiece .start (Flags.start.signedValue w)), []) := rfl
    rw [pieces_conversion hs hc, pieces_nil, Flags.signedValue,
      if_pos (show Flags.start.lflag = 0 from rfl)]
    rfl
  rw [errorFormat, errorWord]
  simp only [List.cons_append, List.nil_append]
  rw [pieces_char (by decide), pieces_char (by decide), pieces_char (by decide),
    pieces_char (by decide), pieces_char (by decide), pieces_char (by decide), hd]
  rfl

theorem nested_run {fmt : Str} {ps : List Piece} (h₀ : 0 ∉ fmt) (hps : pieces fmt args = some ps)
    (hp : ∀ p ∈ ps, ∀ err, p ≠ .error err) (hn : fmt.length < n) :
    nested putch n fmt args s = .ok ((), s.emit putch (text ps)) := by
  have hbeyond : beyond ∉ ps := fun h => hp _ h _ rfl
  have hout : Outputs putch n ⟨[], fmt ++ [0]⟩ ⟨args, s.putdat⟩ ps :=
    formatLoop_run Nat.one_pos h₀ hps (fun p hmem _ _ => prints_of_plain (hp p hmem)) hn
  obtain ⟨args', hrun⟩ := hout.1 hbeyond
  exact Eq.trans Code.get_bind (Eq.trans Code.modify_bind (Eq.trans (Code.bind_ok hrun) rfl))

theorem errorStrings_large {i : ℕ} (h : 24 < i) : errorStrings.getD i none = none := by
  rw [List.getD_eq_getElem?_getD, List.getElem?_eq_none h]
  rfl

theorem errorStrings_short {i : ℕ} (h : errorStrings.getD i none = some t) :
    t.length < 2 ^ 31 := by
  have hall : ∀ o ∈ errorStrings, (o.getD []).length < 20 := by decide
  have hlen : errorStrings.length = 25 := rfl
  by_cases hi : i < errorStrings.length
  · have hmem := List.getElem_mem hi
    rw [List.getD_eq_getElem?_getD, List.getElem?_eq_getElem hi, Option.getD_some] at h
    rw [h] at hmem
    have : t.length < 20 := hall _ hmem
    omega
  · rw [errorStrings_large (by omega)] at h
    cases h

theorem decimalPiece_word {m : ℕ} (hm : m < 2 ^ 31) :
    decimalPiece .start (int32 (UInt64.ofInt m).toNat) = .number .start [] m 10 := by
  have hw : (UInt64.ofInt m).toNat = m := by
    rw [UInt64.ofInt, UInt64.toNat_ofNat']
    omega
  rw [hw, int32, Int.bmod_eq_of_le (by omega) (by omega), decimalPiece, if_neg (by omega),
    Int.toNat_natCast]

theorem numeral_length {m : ℕ} (hm : m < 2 ^ 31) : (numeral 10 m).length < 2 ^ 31 := by
  unfold numeral
  split
  · decide
  · rw [List.length_reverse, List.length_map]
    have h : (Nat.digits 10 m).length ≤ 31 :=
      (Nat.digits_length_le_iff (by decide) m).mpr
        (hm.trans_le (Nat.pow_le_pow_left (by decide) 31))
    omega

theorem text_chars {l : List ℤ} : text (l.map Piece.char) = l := by
  unfold text
  rw [List.flatMap_map]
  exact List.flatMap_singleton' l

/-- The messages of `%e`. -/
theorem prints_error (hrange : -2 ^ 31 ≤ err ∧ err < 2 ^ 31) (hne : err ≠ -2 ^ 31) :
    (Piece.error err).Prints putch 10 := by
  intro n hn s
  have habs : (if err < 0 then int32 (-err) else err) = (err.natAbs : ℤ) := by
    split
    · rw [int32, Int.bmod_eq_of_le (by omega) (by omega)]
      omega
    · omega
  have hlookup : (if maxError < (err.natAbs : ℤ) then pure none else errorString err.natAbs :
      Prog σ (Option Str)) s = .ok (errorStrings.getD err.natAbs none, s) := by
    unfold maxError errorString
    split
    · rw [errorStrings_large (by omega)]
      rfl
    · rw [if_pos ⟨by omega, by unfold maxError; omega⟩, Int.toNat_natCast]
      rfl
  change message (nested putch n) err s = .ok ((), s.emit putch (errorText err))
  unfold message errorText
  rw [habs]
  refine (Code.bind_ok hlookup).trans ?_
  cases hget : errorStrings.getD err.natAbs none with
  | none =>
    have hlt : err.natAbs < 2 ^ 31 := by omega
    have hlen : errorFormat.length = 8 := rfl
    refine (nested_run (by decide) pieces_error ?_ (by omega)).trans ?_
    · intro p hp e he
      rw [decimalPiece_word hlt, List.mem_append, List.mem_map, List.mem_singleton] at hp
      rcases hp with ⟨c, -, rfl⟩ | rfl <;> cases he
    · rw [decimalPiece_word hlt, text, List.flatMap_append]
      change Except.ok ((), s.emit putch (text (List.map Piece.char (charsText errorWord)) ++
        (numberText .start err.natAbs 10 ++ []))) = _
      rw [text_chars, List.append_nil, numberText_start (numeral_length hlt)]
  | some t =>
    have hlen : stringFormat.length = 2 := rfl
    refine (nested_run (by decide) pieces_string ?_ (by omega)).trans ?_
    · simp
    · change Except.ok ((), s.emit putch (stringText .start t ++ [])) = _
      rw [List.append_nil, stringText_start (errorStrings_short hget)]

end Messages

theorem vprintfmt_run {fmt : Str} {args : List Arg} {ps : List Piece} {d : σ} (h₀ : 0 ∉ fmt)
    (hps : pieces fmt args = some ps) :
    Outputs putch (fmt.length + 10) ⟨[], fmt ++ [0]⟩ ⟨args, d⟩ ps := by
  refine formatLoop_run (by decide) h₀ hps (fun p _ hrange hne => ?_) le_rfl
  by_cases h : ∃ err, p = .error err
  · obtain ⟨err, rfl⟩ := h
    exact prints_error (hrange err rfl) fun h => hne (by rw [h]; rfl)
  · exact prints_of_plain fun err he => h ⟨err, he⟩

end UCore.Printf

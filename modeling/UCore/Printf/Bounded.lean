import Mathlib.Data.UInt
import UCore.Printf.Runs

/-! # Formatting into a buffer

`vsnprintf` writes inside its buffer. It is truthful when no `%e` reads beyond `error_string` and
the length of the text fits into an `int`.
-/

namespace UCore.Printf

open Library

section Sprintputch

variable {l : List ℤ} {b : Sprintbuf}

/-- The memory with the characters at an address. -/
def writeChars (mem : ℕ → UInt8) (pos : ℕ) (l : List ℤ) : ℕ → UInt8 := fun x =>
  if pos ≤ x ∧ x < pos + l.length then toChar (l.getD (x - pos) 0) else mem x

theorem writeChars_cons {mem : ℕ → UInt8} {pos : ℕ} {ch : ℤ} :
    writeChars (Function.update mem pos (toChar ch)) (pos + 1) l =
    writeChars mem pos (ch :: l) := by
  funext x
  unfold writeChars
  rw [List.length_cons]
  by_cases hx : x = pos
  · subst hx
    rw [if_neg (by omega), if_pos (by omega), Function.update_self, Nat.sub_self]
    rfl
  · rw [Function.update_of_ne hx]
    by_cases hin : pos + 1 ≤ x ∧ x < pos + 1 + l.length
    · rw [if_pos hin, if_pos (by omega), show x - pos = (x - (pos + 1)) + 1 by omega]
      rfl
    · rw [if_neg hin, if_neg (by omega)]

theorem sprintputch_fold (h : b.buf ≤ b.ebuf) :
    l.foldl (fun d ch => sprintputch ch d) b =
      ⟨b.buf + min (b.ebuf - b.buf) l.length, b.ebuf, (fun c => int32 (c + 1))^[l.length] b.cnt,
        writeChars b.mem b.buf (l.take (b.ebuf - b.buf))⟩ := by
  induction l generalizing b with
  | nil =>
    have hnil : writeChars b.mem b.buf [] = b.mem := by
      funext x
      unfold writeChars
      rw [if_neg (by simp)]
    simp [hnil]
  | cons ch l ih =>
    rw [List.foldl_cons, List.length_cons, Function.iterate_succ_apply]
    by_cases hlt : b.buf < b.ebuf
    · have hput : sprintputch ch b = ⟨b.buf + 1, b.ebuf, int32 (b.cnt + 1),
          Function.update b.mem b.buf (toChar ch)⟩ := if_pos hlt
      obtain ⟨m, hm⟩ : ∃ m, b.ebuf - b.buf = m + 1 := ⟨b.ebuf - b.buf - 1, by omega⟩
      rw [hput, ih (b := ⟨b.buf + 1, b.ebuf, int32 (b.cnt + 1),
        Function.update b.mem b.buf (toChar ch)⟩) hlt,
        hm, List.take_succ_cons, ← writeChars_cons]
      dsimp only
      rw [show b.ebuf - (b.buf + 1) = m by omega,
        show b.buf + 1 + min m l.length = b.buf + min (m + 1) (l.length + 1) by omega]
    · have hput : sprintputch ch b = { b with cnt := int32 (b.cnt + 1) } := if_neg hlt
      rw [hput, ih (b := { b with cnt := int32 (b.cnt + 1) }) h]
      dsimp only
      rw [show b.ebuf - b.buf = 0 by omega, List.take_zero, List.take_zero, Nat.zero_min,
        Nat.zero_min]

theorem count_iterate {n : ℕ} : (fun c => int32 (c + 1))^[n] 0 = int32 n := by
  induction n with
  | zero => rfl
  | succ n ih =>
    rw [Function.iterate_succ_apply', ih]
    unfold int32
    rw [Int.bmod_add_bmod]
    push_cast
    rfl

theorem int32_natCast_iff {n : ℕ} : int32 n = n ↔ n < 2 ^ 31 := by
  constructor
  · intro h
    have := (int32_bounds (n : ℤ)).2
    omega
  · intro h
    exact Int.bmod_eq_of_le (by omega) (by omega)

end Sprintputch

section Vsnprintf

variable {str size : ℕ} {fmt : Str} {args : List Arg} {mem : ℕ → UInt8} {ps : List Piece}
    {out : List ℤ}

/-- The result is the length of the text. The buffer holds the text as far as it fits and a `'\\0'`
after it, and the memory around the buffer is unchanged. -/
def Truthful (str size : ℕ) (mem : ℕ → UInt8) (out : List ℤ)
    (r : Except Panic (ℤ × (ℕ → UInt8))) : Prop :=
  ∃ mem', r = .ok ((out.length : ℤ), mem') ∧
    (∀ x, x < str ∨ str + size ≤ x → mem' x = mem x) ∧
    (∀ i < min (size - 1) out.length, mem' (str + i) = toChar (out.getD i 0)) ∧
    mem' (str + min (size - 1) out.length) = 0

theorem vsnprintf_run (h₀ : 0 ∉ fmt) (hps : pieces fmt args = some ps) (hstr : str ≠ 0)
    (hsize : 1 ≤ size)
    (hend : str + size ≤ 2 ^ 64) :
    vsnprintf str size fmt args mem = if beyond ∈ ps then .error (.errorString (-2 ^ 31))
      else .ok (int32 (text ps).length,
        Function.update (writeChars mem str ((text ps).take (size - 1)))
        (str + min (size - 1) (text ps).length) 0) := by
  have hebuf : (str + size + 2 ^ 64 - 1) % 2 ^ 64 = str + size - 1 := by
    rw [show str + size + 2 ^ 64 - 1 = str + size - 1 + 2 ^ 64 by omega, Nat.add_mod_right]
    exact Nat.mod_eq_of_lt (by omega)
  have hout : Outputs sprintputch (fmt.length + 10) ⟨[], fmt ++ [0]⟩
      ⟨args, ⟨str, str + size - 1, 0, mem⟩⟩ ps := vprintfmt_run h₀ hps
  obtain ⟨hgood, hbad⟩ := hout
  unfold vsnprintf vprintfmt
  dsimp only
  rw [hebuf, if_neg (by omega)]
  split
  · rename_i u s hrun
    have hnot : beyond ∉ ps := fun h => by
      rw [hbad h] at hrun
      cases hrun
    obtain ⟨args', hok⟩ := hgood hnot
    rw [hok] at hrun
    cases hrun
    have hfold :=
      sprintputch_fold (l := text ps) (b := ⟨str, str + size - 1, 0, mem⟩) (by dsimp only; omega)
    rw [if_neg hnot]
    unfold State.emit
    dsimp only at hfold ⊢
    rw [hfold, count_iterate, show str + size - 1 - str = size - 1 by omega]
  · rename_i e hrun
    have hmem : beyond ∈ ps := by
      by_contra hnot
      obtain ⟨args', hok⟩ := hgood hnot
      rw [hok] at hrun
      cases hrun
    rw [hbad hmem] at hrun
    cases hrun
    rw [if_pos hmem]

/-- `vsnprintf` is truthful if and only if no `%e` has the argument `INT_MIN` and the text is
shorter than 2^31 characters. In the first case it reads beyond `error_string`, in the second the
count wraps. -/
theorem vsnprintf_truthful_iff (h₀ : 0 ∉ fmt) (hps : pieces fmt args = some ps) (hstr : str ≠ 0)
    (hsize : 1 ≤ size) (hend : str + size ≤ 2 ^ 64) :
    Truthful str size mem (text ps) (vsnprintf str size fmt args mem) ↔
      Piece.error (-2 ^ 31) ∉ ps ∧ (text ps).length < 2 ^ 31 := by
  rw [vsnprintf_run h₀ hps hstr hsize hend]
  constructor
  · rintro ⟨mem', hr, -⟩
    split at hr
    · cases hr
    · rename_i hnot
      obtain ⟨hcnt, -⟩ := Prod.mk.inj (Except.ok.inj hr)
      exact ⟨hnot, int32_natCast_iff.mp hcnt⟩
  · rintro ⟨hnot, hlen⟩
    rw [if_neg (show beyond ∉ ps from hnot), int32_natCast_iff.mpr hlen]
    refine ⟨_, rfl, fun x hx => ?_, fun i hi => ?_, Function.update_self ..⟩
    · rw [Function.update_of_ne (by omega), writeChars, if_neg]
      rw [List.length_take]
      omega
    · rw [Function.update_of_ne (by omega), writeChars, if_pos (by rw [List.length_take]; omega),
        Nat.add_sub_cancel_left, List.getD_eq_getElem?_getD, List.getElem?_take_of_lt (by omega),
        ← List.getD_eq_getElem?_getD]

/-- `"%d"` of 5 into two bytes. -/
theorem vsnprintf_truthful_digit :
    Truthful 4096 2 (fun _ => 0) [53] (vsnprintf 4096 2 [percent,
    letterD] [.word 5] fun _ => 0) := by
  have hps : pieces [percent, letterD] [.word 5] = some [.number .start [] 5 10] := by
    rw [pieces_conversion rfl rfl, pieces_nil]
    rfl
  have htext : text [.number .start [] 5 10] = [53] := by decide
  rw [← htext]
  exact (vsnprintf_truthful_iff (by decide) hps (by decide) (by decide) (by decide)).mpr
    ⟨by decide, by decide⟩

/-- `"%e"` of `INT_MIN`. -/
theorem vsnprintf_beyond :
    pieces [percent, letterE] [.word (2 ^ 31)] = some [.error (-2 ^ 31)] ∧
    vsnprintf 4096 80 [percent, letterE] [.word (2 ^ 31)] (fun _ => 0) =
    .error (.errorString (-2 ^ 31)) := by
  have hps : pieces [percent, letterE] [.word (2 ^ 31)] = some [.error (-2 ^ 31)] := by
    have hc : conversion .start letterE [.word (2 ^ 31)] =
        some (some (.error (int32 (2 ^ 31 : UInt64).toNat)), []) := rfl
    rw [pieces_conversion rfl hc, pieces_nil,
      show int32 (2 ^ 31 : UInt64).toNat = -2 ^ 31 by decide]
    rfl
  refine ⟨hps, (vsnprintf_run (by decide) hps (by decide) (by decide) (by decide)).trans ?_⟩
  rfl

end Vsnprintf

end UCore.Printf

import Mathlib.Data.List.TakeWhile
import UCore.Shell.Model

/-! # The grammar of a command line

A line is split into symbols and words, which are maximal runs of the other characters without
whitespace. The commands of a line are run with these words.
-/

namespace UCore.Shell

open Library

inductive Token
  | word (w : Str)
  | symbol (c : UInt8)
deriving DecidableEq

def isWordChar (c : UInt8) : Bool := !strchr whitespace c && !strchr symbols c

/-- The first token, and the rest of the line. -/
def nextToken (s : Str) : Option (Token × Str) :=
  match s.dropWhile (strchr whitespace) with
  | [] => none
  | c :: r =>
    if strchr symbols c then some (.symbol c, r)
    else some (.word ((c :: r).takeWhile isWordChar), (c :: r).dropWhile isWordChar)

def tokensFrom : ℕ → Str → List (Token × Str)
  | 0, _ => []
  | n + 1, s =>
    match nextToken s with
    | none => []
    | some (x, r) => (x, r) :: tokensFrom n r

/-- The tokens of a line, each with what follows it on the line. -/
def tokens (s : Str) : List (Token × Str) := tokensFrom s.length s

/-- A run of the commands, where `words` are the words of the present one so far and `file` makes
the name of a file from its word and what follows the word on the line. -/
def interp (file : Str → Str → Str) (p : ℤ × ℤ) : List (Token × Str) → List Str → Prog ℤ
  | [], words => runit words
  | (.word w, _) :: l, words =>
    if words.length = execMaxArgNum then fails id tooMany []
    else interp file p l (words ++ [w])
  | (.symbol c, _) :: l, words =>
    if c = 60 ∨ c = 62 then
      match l with
      | (.word w, r) :: l =>
        onRedirect id (redirection c).1 (file w r) (redirection c).2 (interp file p l words)
      | _ => fails id (notFollowed c) []
    else if c = 124 then onPipe id p (interp file p l []) (runit words)
    else if c = 59 then onSemicolon id (interp file p l []) (runit words)
    else fails id badReturn [c.toNat]

/-- The run of a line in which every word is passed on as it is. -/
def exactRun (p : ℤ × ℤ) (line : Str) : Prog ℤ := interp (fun w _ => w) p (tokens line) []

/-- The first `<` or `>` that is reached after `argc` words has a word that ends the line. It is not
reached after a `&`, or after a command with too many words, and without a word it is an error. -/
def FileEndsLine : ℕ → List (Token × Str) → Prop
  | _, [] => True
  | argc, (.word _, _) :: l => argc = execMaxArgNum ∨ FileEndsLine (argc + 1) l
  | _, (.symbol c, _) :: l =>
    if c = 60 ∨ c = 62 then
      match l with
      | (.word _, r) :: _ => r = []
      | _ => True
    else if c = 124 ∨ c = 59 then FileEndsLine 0 l
    else True

section Interp

variable {file : Str → Str → Str} {p : ℤ × ℤ} {c : UInt8} {r : Str} {l : List (Token × Str)}
  {words : List Str}

theorem interp_symbol : interp file p ((.symbol c, r) :: l) words =
    if c = 60 ∨ c = 62 then
      match l with
      | (.word w, r) :: l =>
        onRedirect id (redirection c).1 (file w r) (redirection c).2 (interp file p l words)
      | _ => fails id (notFollowed c) []
    else if c = 124 then onPipe id p (interp file p l []) (runit words)
    else if c = 59 then onSemicolon id (interp file p l []) (runit words)
    else fails id badReturn [c.toNat] :=
  interp.eq_def file p ((.symbol c, r) :: l) words

theorem fileEndsLine_symbol {argc : ℕ} : FileEndsLine argc ((.symbol c, r) :: l) ↔
    if c = 60 ∨ c = 62 then
      match l with
      | (.word _, r) :: _ => r = []
      | _ => True
    else if c = 124 ∨ c = 59 then FileEndsLine 0 l
    else True :=
  .of_eq (FileEndsLine.eq_def argc ((.symbol c, r) :: l))

end Interp

section Split

variable {s r : Str} {x : Token} {n : ℕ}

/-- How a line starts. -/
inductive Splits : Str → Option (Token × Str) → Prop
  | none {g : Str} : (∀ c ∈ g, strchr whitespace c = true) → Splits g none
  | symbol {g r : Str} {c : UInt8} : (∀ c ∈ g, strchr whitespace c = true) →
      strchr whitespace c = false → strchr symbols c = true →
        Splits (g ++ c :: r) (some (.symbol c, r))
  | word {g w r : Str} : (∀ c ∈ g, strchr whitespace c = true) → w ≠ [] →
      (∀ c ∈ w, isWordChar c = true) → (∀ c, r.head? = some c → isWordChar c = false) →
      Splits (g ++ (w ++ r)) (some (.word w, r))

theorem splits_nextToken (s : Str) : Splits s (nextToken s) := by
  have hs := List.takeWhile_append_dropWhile (p := strchr whitespace) (l := s)
  have hg : ∀ c ∈ s.takeWhile (strchr whitespace), strchr whitespace c = true := fun c hc =>
    List.mem_takeWhile_imp hc
  unfold nextToken
  cases hd : s.dropWhile (strchr whitespace) with
  | nil =>
    rw [hd, List.append_nil] at hs
    rw [hs] at hg
    exact .none hg
  | cons c r =>
    have hc : strchr whitespace c = false := by
      have := List.head?_dropWhile_not (strchr whitespace) s
      rw [hd] at this
      simpa using this
    rw [hd] at hs
    dsimp only
    by_cases hsym : strchr symbols c = true
    · rw [if_pos hsym]
      nth_rewrite 1 [← hs]
      exact .symbol hg hc hsym
    · rw [if_neg hsym]
      have hw := List.takeWhile_append_dropWhile (p := isWordChar) (l := c :: r)
      nth_rewrite 1 [← hs, ← hw]
      refine .word hg ?_ (fun c hc => List.mem_takeWhile_imp hc) fun c' hc' => ?_
      · have hfirst : isWordChar c = true := by simp [isWordChar, hc, hsym]
        rw [List.takeWhile_cons, if_pos hfirst]
        exact List.cons_ne_nil _ _
      · have := List.head?_dropWhile_not isWordChar (c :: r)
        rw [hc'] at this
        simpa using this

theorem length_lt_of_nextToken (h : nextToken s = some (x, r)) : r.length < s.length := by
  have hs := splits_nextToken s
  rw [h] at hs
  generalize hy : some (x, r) = y at hs
  cases hs with
  | none => cases hy
  | symbol =>
    obtain ⟨-, rfl⟩ : x = _ ∧ r = _ := by simpa using hy
    simp only [List.length_append, List.length_cons]
    omega
  | word _ hw =>
    obtain ⟨-, rfl⟩ : x = _ ∧ r = _ := by simpa using hy
    have := List.length_pos_iff.mpr hw
    simp only [List.length_append]
    omega

theorem tokensFrom_fuel {k : ℕ} (hk : s.length ≤ k) (hn : s.length ≤ n) :
    tokensFrom n s = tokensFrom k s := by
  induction k generalizing s n with
  | zero =>
    obtain rfl : s = [] := List.eq_nil_of_length_eq_zero (by omega)
    cases n with
    | zero => rfl
    | succ n => rfl
  | succ k ih =>
    cases n with
    | zero =>
      obtain rfl : s = [] := List.eq_nil_of_length_eq_zero (by omega)
      rfl
    | succ n =>
      unfold tokensFrom
      cases ht : nextToken s with
      | none => rfl
      | some y =>
        obtain ⟨x, r⟩ := y
        have hlt := length_lt_of_nextToken ht
        dsimp only
        rw [ih (s := r) (by omega) (n := n) (by omega)]

theorem tokensFrom_eq (h : s.length ≤ n) : tokensFrom n s = tokens s :=
  tokensFrom_fuel (Nat.le_refl _) h

theorem tokens_none (h : nextToken s = none) : tokens s = [] := by
  rw [← tokensFrom_eq (Nat.le_succ s.length), tokensFrom, h]

theorem tokens_some (h : nextToken s = some (x, r)) : tokens s = (x, r) :: tokens r := by
  have hlt := length_lt_of_nextToken h
  rw [← tokensFrom_eq (Nat.le_succ s.length), tokensFrom, h]
  dsimp only
  rw [tokensFrom_eq (Nat.le_of_lt hlt)]

end Split

end UCore.Shell

import Mathlib.Data.Nat.Digits.Defs
import Mathlib.Logic.Function.Iterate
import UCore.Printf.Model

/-! # What a format means

A format and its arguments are a list of pieces, and every piece stands for a text. An escape that
is not known stands for itself.
-/

namespace UCore.Printf

inductive Piece
  | char (ch : ℤ)
  | error (err : ℤ)
  | string (f : Flags) (s : Str)
  | number (f : Flags) (sign : List ℤ) (num base : ℕ)
deriving DecidableEq

section Text

/-- The digits of a number, the most significant one first. -/
def numeral (base num : ℕ) : List ℤ :=
  if num = 0 then [digitChar 0] else ((base.digits num).map digitChar).reverse

/-- `-- width`. -/
def dec (width : ℤ) : ℤ := int32 (width - 1)

/-- A number with its padding, which takes the width that the digits leave. -/
def numberText (f : Flags) (num base : ℕ) : List ℤ :=
  List.replicate (dec^[(numeral base num).length] f.width).toNat (f.padc.toNat : ℤ) ++
    numeral base num

/-- A character of a string as it is printed. -/
def shown (altflag : Bool) (ch : UInt8) : ℤ :=
  if altflag = true ∧ (ch < blank ∨ tilde < ch) then question.toNat else ch.toNat

/-- The characters of a string within the precision. -/
def within (precision : ℤ) (s : Str) : Str := if precision < 0 then s else s.take precision.toNat

/-- The width that is left for a string after the padding before it. -/
def Flags.stringWidth (f : Flags) (s : Str) : ℤ :=
    int32 (f.width - strnlen s (f.precision % 2 ^ 64).toNat)

/-- A string with its padding, which comes before it or after it. -/
def stringText (f : Flags) (s : Str) : List ℤ :=
  let body := (within f.precision s).map (shown f.altflag)
  if 0 < f.width ∧ f.padc ≠ minus then
    List.replicate (f.stringWidth s).toNat (f.padc.toNat : ℤ) ++ body ++
      List.replicate (dec^[body.length] (min (f.stringWidth s) 0)).toNat (blank.toNat : ℤ)
  else body ++ List.replicate (dec^[body.length] f.width).toNat (blank.toNat : ℤ)

def charsText (s : Str) : List ℤ := s.map fun ch => (ch.toNat : ℤ)

/-- The message of an error, which may be negative. -/
def errorText (err : ℤ) : List ℤ :=
  match errorStrings.getD err.natAbs none with
  | some s => charsText s
  | none => charsText errorWord ++ numeral 10 err.natAbs

def Piece.text : Piece → List ℤ
  | .char ch => [ch]
  | .error err => errorText err
  | .string f s => stringText f s
  | .number f sign num base => sign ++ numberText f num base

def text (ps : List Piece) : List ℤ := ps.flatMap Piece.text

end Text

section Pieces

/-- The flags when a number, if there is one, ends. -/
def Flags.finish (f : Flags) (num : Option ℤ) : Flags :=
  match num with
  | some precision => { f with precision := precision }.processPrecision
  | none => f

def isDigit (ch : UInt8) : Prop := zeroDigit ≤ ch ∧ ch ≤ nineDigit

instance (ch : UInt8) : Decidable (isDigit ch) := inferInstanceAs (Decidable (_ ∧ _))

/-- The flags of an escape, the rest of the format from the character of the conversion on, and the
rest of the arguments. The number `num` is being read. -/
def scan : Flags → Option ℤ → Str → List Arg → Option (Flags × Str × List Arg)
  | f, num, [], args => some (f.finish num, [], args)
  | f, num, ch :: rest, args =>
    if num.isSome ∧ isDigit ch then scan f (some (digit (num.getD 0) ch)) rest args
    else
      let f := f.finish num
      if ch = minus then scan { f with padc := minus } none rest args
      else if ch = zeroDigit then scan { f with padc := zeroDigit } none rest args
      else if oneDigit ≤ ch ∧ ch ≤ nineDigit then scan f (some (digit 0 ch)) rest args
      else if ch = star then
        match args with
        | .word w :: args =>
          scan { f with precision := int32 w.toNat }.processPrecision none rest args
        | _ => none
      else if ch = dot then scan f.point none rest args
      else if ch = hash then scan { f with altflag := true } none rest args
      else if ch = letterL then scan { f with lflag := int32 (f.lflag + 1) } none rest args
      else some (f, ch :: rest, args)

def Flags.unsignedValue (f : Flags) (w : UInt64) : ℕ :=
    if f.lflag = 0 then w.toNat % 2 ^ 32 else w.toNat

def Flags.signedValue (f : Flags) (w : UInt64) : ℤ :=
  if f.lflag = 0 then int32 w.toNat else (w.toNat : ℤ).bmod (2 ^ 64)

/-- The piece of a signed decimal. -/
def decimalPiece (f : Flags) (num : ℤ) : Piece :=
  if num < 0 then .number f [minus.toNat] num.natAbs 10 else .number f [] num.toNat 10

/-- The piece of a conversion with an argument, if there is such a conversion. -/
def wordPiece (f : Flags) (ch : UInt8) (w : UInt64) : Option Piece :=
  if ch = letterC then some (.char (int32 w.toNat))
  else if ch = letterE then some (.error (int32 w.toNat))
  else if ch = letterD then some (decimalPiece f (f.signedValue w))
  else if ch = letterU then some (.number f [] (f.unsignedValue w) 10)
  else if ch = letterO then some (.number f [] (f.unsignedValue w) 8)
  else if ch = letterP then some (.number f [zeroDigit.toNat, letterX.toNat] w.toNat 16)
  else if ch = letterX then some (.number f [] (f.unsignedValue w) 16)
  else none

/-- The character of a conversion that takes an integer or a pointer. -/
def takesWord (ch : UInt8) : Prop :=
  ch = letterC ∨ ch = letterE ∨ ch = letterD ∨ ch = letterU ∨ ch = letterO ∨ ch = letterP ∨
    ch = letterX

instance (ch : UInt8) : Decidable (takesWord ch) := inferInstanceAs (Decidable (_ ∨ _))

/-- The piece of a conversion and the rest of the arguments: no result when the arguments are not of
the matching types, and no piece when the conversion is not known. -/
def conversion (f : Flags) (ch : UInt8) (args : List Arg) : Option (Option Piece × List Arg) :=
  if takesWord ch then
    match args with
    | .word w :: args => some (wordPiece f ch w, args)
    | _ => none
  else if ch = letterS then
    match args with
    | .chars s :: args => some (some (.string f s), args)
    | .word w :: args => if w = 0 then some (some (.string f nullString), args) else none
    | [] => none
  else if ch = percent then some (some (.char percent.toNat), args)
  else some (none, args)

variable {f f' : Flags} {num : Option ℤ} {rest tail : Str} {args args' : List Arg}

theorem scan_length (h : scan f num rest args = some (f', tail, args')) :
    tail.length ≤ rest.length := by
  induction rest generalizing f num args with
  | nil =>
    unfold scan at h
    cases h
    exact le_rfl
  | cons ch rest ih =>
    have hcons : ∀ {f num args}, scan f num rest args = some (f', tail, args') →
        tail.length ≤ (ch :: rest).length := fun h => (ih h).trans (Nat.le_succ _)
    unfold scan at h
    split at h
    · exact hcons h
    dsimp only at h
    split_ifs at h
    any_goals exact hcons h
    · split at h
      · exact hcons h
      · cases h
    · cases h
      exact le_rfl

/-- The pieces of a format: no result when the arguments are not of the matching types. -/
def pieces : Str → List Arg → Option (List Piece)
  | [], _ => some []
  | ch :: rest, args =>
    if ch ≠ percent then (pieces rest args).map (.char ch.toNat :: ·)
    else
      match _h : scan .start none rest args with
      | none => none
      | some (_, [], args) => (pieces rest args).map (.char percent.toNat :: ·)
      | some (f, ch :: tail, args) =>
        match conversion f ch args with
        | none => none
        | some (none, _) => (pieces rest args).map (.char percent.toNat :: ·)
        | some (some p, args) => (pieces tail args).map (p :: ·)
termination_by fmt => fmt.length
decreasing_by
  all_goals simp_wf
  have := scan_length _h
  rw [List.length_cons] at this
  omega

variable {ch : UInt8} {p : Piece} {args'' : List Arg}

theorem pieces_nil : pieces [] args = some [] := by rw [pieces]

theorem pieces_char (h : ch ≠ percent) :
    pieces (ch :: rest) args = (pieces rest args).map (.char ch.toNat :: ·) := by
  rw [pieces, if_pos h]

theorem pieces_conversion (hs : scan .start none rest args = some (f, ch :: tail, args'))
    (hc : conversion f ch args' = some (some p, args'')) :
    pieces (percent :: rest) args = (pieces tail args'').map (p :: ·) := by
  rw [pieces, if_neg (not_not.mpr rfl)]
  split
  · rename_i h
    rw [hs] at h
    cases h
  · rename_i h
    rw [hs] at h
    cases h
  · rename_i h
    rw [hs] at h
    cases h
    rw [hc]

end Pieces

end UCore.Printf

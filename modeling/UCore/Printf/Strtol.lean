import Mathlib.Data.Nat.Digits.Lemmas
import UCore.Printf.Bounded

/-! # Reading a number back

The model of `strtol` of `libs/string.c`. It reads the numbers that `vsnprintf` writes, with the
padding that `strtol` skips or reads as leading zeros.
-/

namespace UCore.Printf

section Digits

variable {base num k : ℕ} {ds : List ℕ}

end Digits

section Reading

variable {base num k : ℕ} {ds : List ℕ} {f : Flags} {sign : List ℤ}

/-- The padding that `strtol` skips or takes for leading zeros. -/
def Readable (f : Flags) (sign : List ℤ) : Prop :=
  f.width = -1 ∨ f.padc = zeroDigit ∨ f.padc = blank ∧ sign = []

end Reading

section RoundTrip

variable {f : Flags} {ch : UInt8} {w : UInt64} {p : Piece} {rest : Str} {mem : ℕ → UInt8}
  {str size : ℕ}

end RoundTrip

end UCore.Printf

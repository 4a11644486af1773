import Mathlib.Algebra.Group.Int.Defs
import Mathlib.Algebra.Group.Nat.Defs
import Mathlib.Data.Int.Basic
import UCore.Defs
import UCore.Library.Code

/-! # The formatted output

`printnum`, `vprintfmt` and `vsnprintf`. The format is read at a cursor that can go back, and
`putch` is a function on the data that it gets. The values of type `int` wrap at 32 bits.
-/

namespace UCore.Printf

open Library

abbrev Str := List UInt8

/-- An argument: the value of an integer or of a pointer, or a string. -/
inductive Arg
  | word (w : UInt64)
  | chars (s : Str)
deriving DecidableEq

inductive Panic
  | fmtRange
  | noArg
  | argType
  | errorString (err : ℤ)
  | rounds
deriving DecidableEq

/-- The rest of the arguments, and the data of `putch`. -/
structure State (σ : Type) where
  args : List Arg
  putdat : σ

abbrev Prog (σ : Type) : Type → Type := Code Panic (State σ)

/-- The characters before `fmt`, the last one first, and those from `fmt` on with the `'\0'`. -/
structure Cursor where
  before : Str
  after : Str

variable {σ : Type}

section Args

def vaArg : Prog σ Arg := fun s =>
  match s.args with
  | [] => .error .noArg
  | a :: args => .ok (a, { s with args := args })

/-- `va_arg` of a type that fits into a register. -/
def vaWord : Prog σ UInt64 := do
  match ← vaArg with
  | .word w => return w
  | .chars _ => Code.panic .argType

/-- `va_arg(ap, int)`. -/
def vaInt : Prog σ ℤ := do return int32 (← vaWord).toNat

/-- `va_arg(ap, char *)`. -/
def vaChars : Prog σ (Option Str) := do
  match ← vaArg with
  | .chars s => return some s
  | .word w => if w = 0 then return none else Code.panic .argType

def getuint (lflag : ℤ) : Prog σ ℕ := do
  let w ← vaWord
  if 2 ≤ lflag then return w.toNat
  else if lflag ≠ 0 then return w.toNat
  else return w.toNat % 2 ^ 32

def getint (lflag : ℤ) : Prog σ ℤ := do
  let w ← vaWord
  if 2 ≤ lflag then return (w.toNat : ℤ).bmod (2 ^ 64)
  else if lflag ≠ 0 then return (w.toNat : ℤ).bmod (2 ^ 64)
  else return int32 w.toNat

end Args

section Cursor

/-- `*fmt ++`. -/
def next : Cursor → Prog σ (UInt8 × Cursor)
  | ⟨before, c :: after⟩ => return (c, ⟨c :: before, after⟩)
  | ⟨_, []⟩ => Code.panic .fmtRange

def percent : UInt8 := 37
def minus : UInt8 := 45
def dot : UInt8 := 46
def zeroDigit : UInt8 := 48
def oneDigit : UInt8 := 49
def nineDigit : UInt8 := 57
def star : UInt8 := 42
def hash : UInt8 := 35
def blank : UInt8 := 32
def tilde : UInt8 := 126
def question : UInt8 := 63
def letterC : UInt8 := 99
def letterD : UInt8 := 100
def letterE : UInt8 := 101
def letterL : UInt8 := 108
def letterO : UInt8 := 111
def letterP : UInt8 := 112
def letterS : UInt8 := 115
def letterU : UInt8 := 117
def letterX : UInt8 := 120

/-- The loop that goes back to the `%`: `for (; fmt[-1] != '%'; fmt --)`. -/
def rewind : Str → Str → Prog σ Cursor
  | [], _ => Code.panic .fmtRange
  | c :: before, after => if c = percent then return ⟨c :: before, after⟩
    else rewind before (c :: after)

/-- `padc`, `width`, `precision`, `lflag` and `altflag`. -/
structure Flags where
  padc : UInt8
  width : ℤ
  precision : ℤ
  lflag : ℤ
  altflag : Bool
deriving DecidableEq

def Flags.start : Flags := ⟨blank, -1, -1, 0, false⟩

def Flags.processPrecision (f : Flags) : Flags :=
  if f.width < 0 then { f with width := f.precision, precision := -1 } else f

/-- The case of `'.'`. -/
def Flags.point (f : Flags) : Flags := if f.width < 0 then { f with width := 0 } else f

/-- One round of the loop over the digits of a number. -/
def digit (precision : ℤ) (ch : UInt8) : ℤ := int32 (precision * 10 + ch.toNat - 48)

/-- The rest of the loop over the digits of a number: the number and the cursor. -/
def digits : ℤ → Str → Str → ℤ × Cursor
  | precision, before, [] => (precision, ⟨before, []⟩)
  | precision, before, c :: after =>
    if c < zeroDigit ∨ nineDigit < c then (precision, ⟨before, c :: after⟩)
    else digits (digit precision c) (c :: before) after

end Cursor

section Output

variable (putch : ℤ → σ → σ)

def put (ch : ℤ) : Prog σ Unit := Code.modify fun s => { s with putdat := putch ch s.putdat }

/-- A loop that prints one character `n` times. -/
def putTimes (ch : ℤ) : ℕ → Prog σ Unit
  | 0 => return
  | n + 1 => do
    put putch ch
    putTimes ch n

/-- `"0123456789abcdef"[mod]`. -/
def digitChar (mod : ℕ) : ℤ := if mod < 10 then 48 + mod else 87 + mod

/-- `printnum` of a number of at most `n` digits. -/
def printnum (base : ℕ) (padc : UInt8) : ℕ → ℕ → ℤ → Prog σ Unit
  | 0, _, _ => Code.panic .rounds
  | n + 1, num, width => do
    if base ≤ num then printnum base padc n (num / base) (int32 (width - 1))
    -- the loop `while (-- width > 0)`
    else putTimes putch padc.toNat (int32 (width - 1)).toNat
    put putch (digitChar (num % base))

/-- The label `number`. -/
def number (f : Flags) (num base : ℕ) : Prog σ Unit := printnum putch base f.padc 64 num f.width

def strnlen (s : Str) (len : ℕ) : ℕ := min s.length len

/-- The loop over the characters of a string: the width. -/
def putString (altflag : Bool) : Str → ℤ → ℤ → Prog σ ℤ
  | [], _, width => return width
  | ch :: s, precision, width =>
    if precision < 0 ∨ 0 ≤ precision - 1 then do
      put putch (if altflag = true ∧ (ch < blank ∨ tilde < ch) then question.toNat else ch.toNat)
      putString altflag s (if precision < 0 then precision else precision - 1) (int32 (width - 1))
    else return width

def nullString : Str := [40, 110, 117, 108, 108, 41]

/-- The case of `%s`. -/
def string (f : Flags) : Prog σ Unit := do
  let s := (← vaChars).getD nullString
  let width ← (if 0 < f.width ∧ f.padc ≠ minus then do
      let width := int32 (f.width - strnlen s (f.precision % 2 ^ 64).toNat)
      putTimes putch f.padc.toNat width.toNat
      return min width 0
    else return f.width : Prog σ ℤ)
  let width ← putString putch f.altflag s f.precision width
  putTimes putch blank.toNat width.toNat

/-- The case of `%d`. -/
def decimal (f : Flags) : Prog σ Unit := do
  let num ← getint f.lflag
  if num < 0 then
    put putch minus.toNat
    number putch f (-num % 2 ^ 64).toNat 10
  else number putch f num.toNat 10

/-- The cases of `%u`, `%o` and `%x`. -/
def unsigned (f : Flags) (base : ℕ) : Prog σ Unit := do
  let num ← getuint f.lflag
  number putch f num base

/-- The case of `%p`. -/
def pointer (f : Flags) : Prog σ Unit := do
  put putch zeroDigit.toNat
  put putch letterX.toNat
  let num ← vaWord
  number putch f num.toNat 16

end Output

section Errors

def maxError : ℤ := 24

/-- The texts of `error_string`, such as "unspecified error". -/
def unspecifiedError : Str := [117, 110, 115, 112, 101, 99, 105, 102, 105, 101, 100, 32, 101, 114,
  114, 111, 114]
def badProcess : Str := [98, 97, 100, 32, 112, 114, 111, 99, 101, 115, 115]
def invalidParameter : Str := [105, 110, 118, 97, 108, 105, 100, 32, 112, 97, 114, 97, 109, 101,
  116, 101, 114]
def outOfMemory : Str := [111, 117, 116, 32, 111, 102, 32, 109, 101, 109, 111, 114, 121]
def outOfProcesses : Str := [111, 117, 116, 32, 111, 102, 32, 112, 114, 111, 99, 101, 115, 115, 101,
  115]
def segmentationFault : Str := [115, 101, 103, 109, 101, 110, 116, 97, 116, 105, 111, 110, 32, 102,
  97, 117, 108, 116]
def invalidElfFile : Str := [105, 110, 118, 97, 108, 105, 100, 32, 101, 108, 102, 32, 102, 105, 108,
  101]
def processIsKilled : Str := [112, 114, 111, 99, 101, 115, 115, 32, 105, 115, 32, 107, 105, 108,
  108, 101, 100]
def panicFailure : Str := [112, 97, 110, 105, 99, 32, 102, 97, 105, 108, 117, 114, 101]

/-- `error_string`, where a missing entry is `NULL`. -/
def errorStrings : List (Option Str) :=
  [none, some unspecifiedError, some badProcess, some invalidParameter, some outOfMemory,
    some outOfProcesses, some segmentationFault, none, some invalidElfFile, some processIsKilled,
    some panicFailure, none, none, none, none, none, none, none, none, none, none, none,
      none, none, none]

/-- `error_string[err]`. -/
def errorString (err : ℤ) : Prog σ (Option Str) :=
  if 0 ≤ err ∧ err ≤ maxError then return errorStrings.getD err.toNat none
  else Code.panic (.errorString err)

def errorWord : Str := [101, 114, 114, 111, 114, 32]

/-- The formats "error %d" and "%s". -/
def errorFormat : Str := errorWord ++ [percent, letterD]
def stringFormat : Str := [percent, letterS]

end Errors

section Format

variable (putch : ℤ → σ → σ)

/-- The loop over the characters before a `%`: the cursor after it, or none at the end of the
format. -/
def literals : Str → Str → Prog σ (Option Cursor)
  | _, [] => Code.panic .fmtRange
  | before, ch :: after =>
    if ch = percent then return some ⟨ch :: before, after⟩
    else if ch = 0 then return none
    else do
      put putch ch.toNat
      literals (ch :: before) after

/-- The cases of the `switch` that read on with `goto reswitch`, and for the other characters the
flags, the character and the cursor after it. -/
def switch (reswitch : Flags → Cursor → Prog σ (Flags × UInt8 × Cursor)) (f : Flags) (ch : UInt8)
    (fmt : Cursor) : Prog σ (Flags × UInt8 × Cursor) := do
  if ch = minus then reswitch { f with padc := minus } fmt
  else if ch = zeroDigit then reswitch { f with padc := zeroDigit } fmt
  else if oneDigit ≤ ch ∧ ch ≤ nineDigit then
    let (precision, fmt) := digits (digit 0 ch) fmt.before fmt.after
    reswitch { f with precision := precision }.processPrecision fmt
  else if ch = star then
    let precision ← vaInt
    reswitch { f with precision := precision }.processPrecision fmt
  else if ch = dot then reswitch f.point fmt
  else if ch = hash then reswitch { f with altflag := true } fmt
  else if ch = letterL then reswitch { f with lflag := int32 (f.lflag + 1) } fmt
  else return (f, ch, fmt)

/-- The label `reswitch`, for `n` jumps. -/
def reswitch : ℕ → Flags → Cursor → Prog σ (Flags × UInt8 × Cursor)
  | 0, _, _ => Code.panic .rounds
  | n + 1, f, fmt => do
    let (ch, fmt) ← next fmt
    switch (reswitch n) f ch fmt

/-- The case of `%e`. -/
def message (printfmt : Str → List Arg → Prog σ Unit) (err : ℤ) : Prog σ Unit := do
  let err := if err < 0 then int32 (-err) else err
  let p ← (if maxError < err then pure none else errorString err : Prog σ (Option Str))
  match p with
  | none => printfmt errorFormat [.word (UInt64.ofInt err)]
  | some p => printfmt stringFormat [.chars p]

/-- The cases of the `switch` that print, where `printfmt` is for the messages of `%e`: the
cursor. -/
def convert (printfmt : Str → List Arg → Prog σ Unit) (f : Flags) (ch : UInt8) (fmt : Cursor) :
    Prog σ Cursor := do
  if ch = letterC then
    put putch (← vaInt)
    return fmt
  else if ch = letterE then
    message printfmt (← vaInt)
    return fmt
  else if ch = letterS then
    string putch f
    return fmt
  else if ch = letterD then
    decimal putch f
    return fmt
  else if ch = letterU then
    unsigned putch f 10
    return fmt
  else if ch = letterO then
    unsigned putch f 8
    return fmt
  else if ch = letterP then
    pointer putch f
    return fmt
  else if ch = letterX then
    unsigned putch f 16
    return fmt
  else if ch = percent then
    put putch ch.toNat
    return fmt
  else
    put putch percent.toNat
    match fmt.before with
    | [] => Code.panic .fmtRange
    | c :: before => rewind before (c :: fmt.after)

/-- A program with its own `va_list`. -/
def withArgs (args : List Arg) (m : Prog σ Unit) : Prog σ Unit := do
  let saved := (← Code.get).args
  Code.modify fun s => { s with args := args }
  m
  Code.modify fun s => { s with args := saved }

/-- `vprintfmt` from a cursor on, for `n` rounds. -/
def formatLoop : ℕ → Cursor → Prog σ Unit
  | 0, _ => Code.panic .rounds
  | n + 1, fmt => do
    match ← literals putch fmt.before fmt.after with
    | none => return
    | some fmt =>
      let (f, ch, fmt) ← reswitch (fmt.after.length + 1) Flags.start fmt
      let fmt ← convert putch (fun s args => withArgs args (formatLoop n ⟨[], s ++ [0]⟩)) f ch fmt
      formatLoop n fmt

/-- `vprintfmt` of a format. Every round gets past a `%`, and the messages of `%e` take some
more. -/
def vprintfmt (fmt : Str) : Prog σ Unit := formatLoop putch (fmt.length + 10) ⟨[], fmt ++ [0]⟩

end Format

section Buffer

/-- `struct sprintbuf`, with the memory. -/
structure Sprintbuf where
  buf : ℕ
  ebuf : ℕ
  cnt : ℤ
  mem : ℕ → UInt8

def toChar (ch : ℤ) : UInt8 := UInt8.ofNat (ch % 256).toNat

def sprintputch (ch : ℤ) (b : Sprintbuf) : Sprintbuf :=
  let b := { b with cnt := int32 (b.cnt + 1) }
  if b.buf < b.ebuf then { b with buf := b.buf + 1, mem := Function.update b.mem b.buf (toChar ch) }
  else b

/-- `vsnprintf`: the result and the memory. -/
def vsnprintf (str size : ℕ) (fmt : Str) (args : List Arg) (mem : ℕ → UInt8) :
    Except Panic (ℤ × (ℕ → UInt8)) :=
  let ebuf := (str + size + 2 ^ 64 - 1) % 2 ^ 64
  if str = 0 ∨ ebuf < str then .ok (-eInval, mem)
  else
    match vprintfmt sprintputch fmt ⟨args, ⟨str, ebuf, 0, mem⟩⟩ with
    | .ok (_, s) => .ok (s.putdat.cnt, Function.update s.putdat.mem s.putdat.buf 0)
    | .error e => .error e

end Buffer

end UCore.Printf

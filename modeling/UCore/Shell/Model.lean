import Mathlib.Data.Int.Notation
import Mathlib.Data.Nat.Notation
import UCore.Library.Dialogue

/-! # The shell

The model of `gettoken` and `runcmd` of `user/sh.c`. A line in memory is a list of bytes that a null
byte follows, and `gettoken` overwrites it. The system calls are asked, and any answer may come
back.
-/

namespace UCore.Shell

open Library

abbrev Str := List UInt8

def whitespace : Str := [32, 9, 13, 10]

/-- `SYMBOLS`: `<|>&;`. -/
def symbols : Str := [60, 124, 62, 38, 59]

/-- Whether `strchr` finds a character. It does not find the null byte. -/
def strchr (s : Str) (c : UInt8) : Bool := c ∈ s

def execMaxArgNum : ℕ := 32

def bufsize : ℕ := 4096

def eNoent : ℤ := 16

def oRdonly : ℕ := 0

def oRdwr : ℕ := 2

def oCreat : ℕ := 4

def oTrunc : ℕ := 16

/-- What the shell asks of the kernel, and `strcpy` to `shcwd`. -/
inductive Call
  | printf (format : String) (args : List ℤ)
  | open (name : Str) (flags : ℕ)
  | close (fd : ℤ)
  | dup2 (fd1 fd2 : ℤ)
  | fork
  | waitpid (pid : ℤ)
  | shcwd (dir : Str)
  | exec (name : Str) (argv : List Str)
deriving DecidableEq

abbrev Prog := Dialogue Call ℤ

open Dialogue (ask)

section Tokens

/-- The character at `s`. -/
def char (line : Str) (s : ℕ) : UInt8 := line.getD s 0

/-- The string at `s`. -/
def cstr (line : Str) (s : ℕ) : Str := (line.drop s).takeWhile (· ≠ 0)

/-- The first loop of `gettoken`, at most `n` times. -/
def skipWhitespace : ℕ → Str → ℕ → Str × ℕ
  | 0, line, s => (line, s)
  | n + 1, line, s =>
    if strchr whitespace (char line s) then skipWhitespace n (line.set s 0) (s + 1) else (line, s)

/-- The second loop of `gettoken`, at most `n` times. A double quote is overwritten by a blank. -/
def skipWord : ℕ → Str → Bool → ℕ → Str × ℕ
  | 0, line, _, s => (line, s)
  | n + 1, line, flag, s =>
    if char line s ≠ 0 ∧ (flag ∨ ¬ strchr (whitespace ++ symbols) (char line s)) then
      if char line s = 34 then skipWord n (line.set s 32) (!flag) (s + 1)
      else skipWord n line flag (s + 1)
    else (line, s)

/-- `gettoken`: the token, and the line, `*p1` and `*p2` after the call. A word is the token `'w'`.
No loop goes on past the end of the line. -/
def gettoken (line : Str) (p1 : Option ℕ) (p2 : ℕ) : UInt8 × Str × Option ℕ × ℕ :=
  match p1 with
  | none => (0, line, none, p2)
  | some s =>
    let (line, s) := skipWhitespace (line.length - s) line s
    if char line s = 0 then (0, line, p1, p2)
    else
      let p2 := s
      let (token, line, s) :=
        if strchr symbols (char line s) then (char line s, line.set s 0, s + 1)
        else
          let (line, s) := skipWord (line.length - s) line false s
          (119, line, s)
      (token, line, if char line s ≠ 0 then some s else none, p2)

end Tokens

section Run

def reopen (fd2 : ℤ) (filename : Str) (openFlags : ℕ) : Prog ℤ := do
  let _ ← ask (.close fd2)
  let ret ← ask (.open filename openFlags)
  let ret ←
    if 0 ≤ ret ∧ ret ≠ fd2 then do
      let _ ← ask (.close fd2)
      let fd1 := ret
      let ret ← ask (.dup2 fd1 fd2)
      let _ ← ask (.close fd1)
      pure ret
    else pure ret
  return if ret < 0 then ret else 0

def testfile (name : Str) : Prog ℤ := do
  let ret ← ask (.open name oRdonly)
  if ret < 0 then return ret
  else
    let _ ← ask (.close ret)
    return 0

/-- What follows `runit` in `runcmd`. -/
def runit (argv : List Str) : Prog ℤ :=
  match argv with
  | [] => return 0
  | name :: args =>
    if name = [99, 100] then
      match args with
      | [dir] => do
        let _ ← ask (.shcwd dir)
        return 0
      | _ => return -1
    else do
      let ret ← testfile name
      if ret ≠ 0 then
        if ret ≠ -eNoent then return ret
        else
          let argv0 := (47 :: name).take (bufsize - 1)
          ask (.exec argv0 (argv0 :: args))
      else ask (.exec name (name :: args))

variable {α : Type}

/-- An error message, after which `runcmd` returns -1. -/
def fails (exit : ℤ → α) (format : String) (args : List ℤ) : Prog α := do
  let _ ← ask (.printf format args)
  return exit (-1)

/-- The `case` of `<` or `>`, where `next` is what follows. -/
def onRedirect (exit : ℤ → α) (fd2 : ℤ) (filename : Str) (openFlags : ℕ) (next : Prog α) :
    Prog α := do
  let ret ← reopen fd2 filename openFlags
  if ret ≠ 0 then return exit ret else next

/-- The `case` of `|`, where `p` holds what the local array holds: no pipe is made. -/
def onPipe (exit : ℤ → α) (p : ℤ × ℤ) (again runit : Prog α) : Prog α := do
  let ret ← ask .fork
  if ret = 0 then
    let _ ← ask (.close 0)
    let ret ← ask (.dup2 p.1 0)
    if ret < 0 then return exit ret
    else
      let _ ← ask (.close p.1)
      let _ ← ask (.close p.2)
      again
  else if ret < 0 then return exit ret
  else
    let _ ← ask (.close 1)
    let ret ← ask (.dup2 p.2 1)
    if ret < 0 then return exit ret
    else
      let _ ← ask (.close p.1)
      let _ ← ask (.close p.2)
      runit

/-- The `case` of `;`. -/
def onSemicolon (exit : ℤ → α) (again runit : Prog α) : Prog α := do
  let ret ← ask .fork
  if ret = 0 then runit
  else if ret < 0 then return exit ret
  else
    let _ ← ask (.waitpid ret)
    again

def tooMany : String := "sh error: too many arguments\n"

def notFollowed (token : UInt8) : String :=
  if token = 60 then "sh error: syntax error: < not followed by word\n"
  else "sh error: syntax error: > not followed by word\n"

def badReturn : String := "sh error: bad return %d from gettoken\n"

/-- The descriptor and the flags of `reopen` for `<` and `>`. -/
def redirection (token : UInt8) : ℤ × ℕ :=
  if token = 60 then (0, oRdonly) else (1, oRdwr ||| oTrunc ||| oCreat)

/-- The loop of `runcmd`, at most `n` times: the result is `none` if that was not enough. The
pointers in `argv` are followed where the command is run. -/
def runLoop (p : ℤ × ℤ) : ℕ → Str → Option ℕ → ℕ → List ℕ → Prog (Option ℤ)
  | 0, _, _, _, _ => return none
  | n + 1, line, cmd, t, argv =>
    match gettoken line cmd t with
    | (token, line, cmd, t) =>
      if token = 119 then
        if argv.length = execMaxArgNum then fails some tooMany []
        else runLoop p n line cmd t (argv ++ [t])
      else if token = 60 ∨ token = 62 then
        match gettoken line cmd t with
        | (token', line, cmd, t) =>
          if token' ≠ 119 then fails some (notFollowed token) []
          else onRedirect some (redirection token).1 (cstr line t) (redirection token).2
            (runLoop p n line cmd t argv)
      else if token = 124 then
        onPipe some p (runLoop p n line cmd t []) (some <$> runit (argv.map (cstr line)))
      else if token = 0 then some <$> runit (argv.map (cstr line))
      else if token = 59 then
        onSemicolon some (runLoop p n line cmd t []) (some <$> runit (argv.map (cstr line)))
      else fails some badReturn [token.toNat]

def runcmd (p : ℤ × ℤ) (line : Str) : Prog (Option ℤ) :=
  runLoop p (line.length + 1) line (some 0) 0 []

end Run

end UCore.Shell

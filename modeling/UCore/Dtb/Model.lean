import Mathlib.Data.Nat.Bitwise
import Mathlib.Data.Nat.Notation
import Mathlib.Tactic.Common
import UCore.Library.Loop

/-! # The scan of the device tree

The model of `kern/driver/dtb.c` of lab 8. Memory is a function from addresses to bytes; a blob is
an address with the `totalsize` bytes from there on. A read of a byte outside the blob ends the
scan. Pointers wrap around at `2 ^ 64`.
-/

namespace UCore.Dtb

open Library

def fdtBeginNode : ℕ := 0x1
def fdtEndNode : ℕ := 0x2
def fdtProp : ℕ := 0x3
def fdtNop : ℕ := 0x4
def fdtEnd : ℕ := 0x9

def fdtMagic : ℕ := 0xd00dfeed

/-- `"memory"`. -/
def memoryName : List UInt8 := [109, 101, 109, 111, 114, 121]

/-- `"reg"`. -/
def regName : List UInt8 := [114, 101, 103]

def fdt32ToCpu (x : ℕ) : ℕ :=
  ((x &&& 0xff) <<< 24) ||| (((x >>> 8) &&& 0xff) <<< 16) |||
    (((x >>> 16) &&& 0xff) <<< 8) ||| ((x >>> 24) &&& 0xff)

def fdt64ToCpu (x : ℕ) : ℕ :=
  (fdt32ToCpu (x &&& 0xffffffff) <<< 32) ||| fdt32ToCpu (x >>> 32)

structure Blob where
  base : ℕ
  byte : ℕ → UInt8

/-- Storing into an `int`. -/
def int32 (n : ℕ) : ℤ := (n : ℤ).bmod (2 ^ 32)

/-- `p + n` for a pointer to bytes. -/
def advance (p : ℕ) (n : ℤ) : ℕ := ((p + n) % 2 ^ 64).toNat

/-- `(p + n) & ~3`. -/
def alignDown (p : ℕ) : ℕ := p - p % 4

namespace Blob

variable (b : Blob)

/-- The little-endian word at an address. -/
def word (a : ℕ) : ℕ :=
  (b.byte a).toNat + 2 ^ 8 * (b.byte (a + 1)).toNat + 2 ^ 16 * (b.byte (a + 2)).toNat +
    2 ^ 24 * (b.byte (a + 3)).toNat

def cell (a : ℕ) : ℕ := fdt32ToCpu (b.word a)

def magic : ℕ := b.cell b.base

def totalsize : ℕ := b.cell (b.base + 4)

/-- The `n` bytes from `a` on lie in the blob. -/
def Inside (a n : ℕ) : Prop := b.base ≤ a ∧ a + n ≤ b.base + b.totalsize

instance (a n : ℕ) : Decidable (b.Inside a n) := inferInstanceAs (Decidable (_ ∧ _))

def load8 (a : ℕ) : Option UInt8 := if b.Inside a 1 then some (b.byte a) else none

def load32 (a : ℕ) : Option ℕ := if b.Inside a 4 then some (b.word a) else none

def load64 (a : ℕ) : Option ℕ :=
  if b.Inside a 8 then some (b.word a + 2 ^ 32 * b.word (a + 4)) else none

def strlen (a : ℕ) : Option ℕ :=
  if h : b.Inside a 1 then
    if b.byte a = 0 then some 0 else (strlen (a + 1)).map (· + 1)
  else none
termination_by b.base + b.totalsize - a
decreasing_by
  unfold Inside at h
  omega

/-- `strncmp(a, s, n) == 0`, where `s` ends with its terminator. -/
def strncmp (a : ℕ) : List UInt8 → ℕ → Option Bool
  | _, 0 => some true
  | [], _ + 1 => some false
  | c :: s, n + 1 => do
    let x ← b.load8 a
    if x ≠ 0 ∧ x = c then strncmp (a + 1) s n else some (x = c)

/-- `strcmp(a, s) == 0`, where `s` ends with its terminator. -/
def strcmp (a : ℕ) : List UInt8 → Option Bool
  | [] => some false
  | c :: s => do
    let x ← b.load8 a
    if x ≠ 0 ∧ x = c then strcmp (a + 1) s else some (x = c)

end Blob

/-- How the scan ends: with a byte outside the blob, with `0` and what it has stored, with `-1`. -/
inductive Outcome
  | outside
  | found (memBase memSize : ℕ)
  | failed
deriving DecidableEq

namespace Blob

variable (b : Blob)

/-- `in_memory_node && strcmp(prop_name, "reg") == 0`. -/
def isReg (inMemoryNode : Bool) (propName : ℕ) : Option Bool :=
  if inMemoryNode then b.strcmp propName (regName ++ [0]) else some false

/-- The case of `FDT_PROP`, `p` behind the token. -/
def scanProp (strings p : ℕ) (inMemoryNode : Bool) : Option ((ℕ × Bool) ⊕ Outcome) := do
  let propLen := fdt32ToCpu (← b.load32 p)
  let propNameoff := fdt32ToCpu (← b.load32 (advance p 4))
  let propName := advance strings propNameoff
  let propData := advance p 8
  let isReg ← b.isReg inMemoryNode propName
  if isReg ∧ 16 ≤ propLen then
    let memBase ← b.load64 propData
    let memSize ← b.load64 (advance propData 8)
    some (.inr (.found (fdt64ToCpu memBase) (fdt64ToCpu memSize)))
  else some (.inl (alignDown (advance propData (propLen + 3)), inMemoryNode))

/-- One iteration of the loop of `extract_memory_info`. -/
def scanToken (strings p : ℕ) (inMemoryNode : Bool) : Option ((ℕ × Bool) ⊕ Outcome) := do
  let token := fdt32ToCpu (← b.load32 p)
  let p := advance p 4
  if token = fdtBeginNode then
    let nameLen ← b.strlen p
    let isMemory ← b.strncmp p (memoryName ++ [0]) 6
    some (.inl (alignDown (advance p (int32 nameLen + 4)), if isMemory then true else inMemoryNode))
  else if token = fdtEndNode then some (.inl (p, false))
  else if token = fdtProp then b.scanProp strings p inMemoryNode
  else if token = fdtNop then some (.inl (p, inMemoryNode))
  else some (.inr .failed)

def scanStep (strings : ℕ) (x : ℕ × Bool) : (ℕ × Bool) ⊕ Outcome :=
  (b.scanToken strings x.1 x.2).getD (.inr .outside)

def extractMemoryInfo (fuel : ℕ) : Option Outcome :=
  match b.load32 (advance b.base 8), b.load32 (advance b.base 12) with
  | some offStruct, some offStrings =>
    iterate (b.scanStep (advance b.base (fdt32ToCpu offStrings))) fuel
      (advance b.base (fdt32ToCpu offStruct), false)
  | _, _ => some .outside

end Blob

end UCore.Dtb

import Mathlib.Data.Int.Notation
import Mathlib.Tactic.Common
import UCore.Defs

/-! # Process states

The constants of `kern/process/proc.h` that the scheduler and the synchronisation code test.
-/

namespace UCore

inductive ProcState
  | uninit
  | sleeping
  | runnable
  | zombie
deriving DecidableEq, Repr

def pfExiting : UInt32 := 0x00000001

def wtInterrupted : UInt32 := 0x80000000

def wtChild : UInt32 := 0x00000001 ||| wtInterrupted

def wtKsem : UInt32 := 0x00000100

def wtTimer : UInt32 := 0x00000002 ||| wtInterrupted

def wtKbd : UInt32 := 0x00000004 ||| wtInterrupted

def eKilled : ℤ := 9

theorem wtKsem_not_interrupted : wtKsem &&& wtInterrupted = 0 := by decide

theorem interrupted_ne_zero {w : UInt32} (hw : w = wtChild ∨ w = wtTimer ∨ w = wtKbd) :
    w ≠ 0 ∧ w ≠ wtKsem := by
  rcases hw with rfl | rfl | rfl <;> decide

end UCore

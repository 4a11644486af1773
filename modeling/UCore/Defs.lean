import Mathlib.Algebra.Group.Int.Defs
import Mathlib.Algebra.Group.Nat.Defs

/-! # Common definitions

What several parts of the kernel use of `libs/defs.h` and `libs/error.h`, of `kern/mm/mmu.h` and
`kern/mm/memlayout.h`, of `kern/process/proc.h` and of `kern/fs/sfs/sfs.h`.
-/

namespace UCore

def pgsize : ℕ := 4096

def kernbase : ℕ := 0xFFFFFFFFC0200000

def rounddown (a n : ℕ) : ℕ := a - a % n

/-- `ROUNDUP` of a `size_t`. -/
def roundup (a n : ℕ) : ℕ := rounddown ((a + n - 1) % 2 ^ 64) n

/-- `w & mask`, as a condition. -/
def has (w mask : ℕ) : Bool := decide (w &&& mask ≠ 0)

/-- Storing into an `int`. -/
def int32 (x : ℤ) : ℤ := x.bmod (2 ^ 32)

/-- Storing into an `unsigned int`. -/
def uint (n : ℕ) : ℕ := n % 2 ^ 32

def eInval : ℤ := 3
def eNoMem : ℤ := 4
def eNaDev : ℤ := 14

def maxProcess : ℕ := 4096

/-- The pid of `idleproc`, which stands for its address. -/
def idleproc : ℕ := 0

def initproc : ℕ := 1

def sfsMagic : ℕ := 0x2f8dbe2a

end UCore

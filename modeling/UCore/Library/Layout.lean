import Mathlib.Algebra.Order.Ring.Nat
import Mathlib.Data.Nat.Notation
import Mathlib.Tactic.Common

/-! # Layouts of structures

The fields of a structure lie one after another, each at the next multiple of its alignment. A
store of bytes into memory changes the bytes of its own range only.
-/

namespace Library

variable {ι : Type*}

structure Field (ι : Type*) where
  name : ι
  size : ℕ
  align : ℕ

/-- The place of a field: its offset and its size. -/
structure Slot (ι : Type*) where
  name : ι
  offset : ℕ
  size : ℕ

def alignUp (n a : ℕ) : ℕ := (n + a - 1) / a * a

/-- The places of the fields from an offset on. -/
def slots : ℕ → List (Field ι) → List (Slot ι)
  | _, [] => []
  | n, f :: fs => ⟨f.name, alignUp n f.align, f.size⟩ :: slots (alignUp n f.align + f.size) fs

def fieldsEnd : ℕ → List (Field ι) → ℕ
  | n, [] => n
  | n, f :: fs => fieldsEnd (alignUp n f.align + f.size) fs

/-- `sizeof`: the end of the last field, at the next multiple of the largest alignment. -/
def sizeOfFields (fs : List (Field ι)) : ℕ :=
  alignUp (fieldsEnd 0 fs) (fs.foldr (fun f a => max f.align a) 1)

theorem le_alignUp {n a : ℕ} (ha : 0 < a) : n ≤ alignUp n a := by
  unfold alignUp
  have h := Nat.div_add_mod (n + a - 1) a
  have hm := Nat.mod_lt (n + a - 1) ha
  rw [Nat.mul_comm] at h
  omega

theorem le_fieldsEnd {fs : List (Field ι)} {n : ℕ} (ha : ∀ f ∈ fs, 0 < f.align) :
    n ≤ fieldsEnd n fs := by
  induction fs generalizing n with
  | nil => exact Nat.le_refl n
  | cons f fs ih =>
    have h₁ := le_alignUp (n := n) (ha f (by simp))
    have h₂ := ih (n := alignUp n f.align + f.size) fun g hg => ha g (by simp [hg])
    unfold fieldsEnd
    omega

theorem slot_le {fs : List (Field ι)} {n : ℕ} (ha : ∀ f ∈ fs, 0 < f.align) {s : Slot ι}
    (hs : s ∈ slots n fs) : s.offset + s.size ≤ fieldsEnd n fs := by
  induction fs generalizing n with
  | nil => cases hs
  | cons f fs ih =>
    have hfs : ∀ g ∈ fs, 0 < g.align := fun g hg => ha g (by simp [hg])
    rcases List.mem_cons.mp hs with rfl | hs
    · exact le_fieldsEnd hfs
    · exact ih hfs hs

theorem slot_le_size {fs : List (Field ι)} (ha : ∀ f ∈ fs, 0 < f.align) {s : Slot ι}
    (hs : s ∈ slots 0 fs) : s.offset + s.size ≤ sizeOfFields fs :=
  Nat.le_trans (slot_le ha hs) (le_alignUp (by
    cases fs with
    | nil => exact Nat.one_pos
    | cons f fs => exact Nat.lt_of_lt_of_le (ha f (by simp)) (Nat.le_max_left _ _)))

section Memory

/-- The bytes of a value are stored from an address on, the least significant one first. -/
def storeBytes (mem : ℕ → UInt8) (addr size v : ℕ) : ℕ → UInt8 := fun a =>
  if addr ≤ a ∧ a < addr + size then UInt8.ofNat (v / 256 ^ (a - addr)) else mem a

def loadBytes (mem : ℕ → UInt8) (addr : ℕ) : ℕ → ℕ
  | 0 => 0
  | n + 1 => (mem addr).toNat + 256 * loadBytes mem (addr + 1) n

variable {mem : ℕ → UInt8} {addr size v a : ℕ}

theorem storeBytes_outside (h : a < addr ∨ addr + size ≤ a) :
    storeBytes mem addr size v a = mem a := if_neg (by omega)

/-- Stores into fields of a structure at an address. -/
def storeFields (mem : ℕ → UInt8) (addr : ℕ) : List (Slot ι × ℕ) → ℕ → UInt8
  | [] => mem
  | (s, v) :: l => storeFields (storeBytes mem (addr + s.offset) s.size v) addr l

end Memory

end Library

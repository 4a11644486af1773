import Mathlib.Algebra.Group.Int.Defs
import Mathlib.Algebra.Group.Nat.Defs
import Mathlib.Data.Nat.Log
import Mathlib.Logic.Function.Basic
import UCore.Library.Loop

/-! # The buddy tree

`buddy_system.cpp` of lab 2: a perfect binary tree of node states in an array,
with `0` as the root. The loops take fuel, and the result is `none` when it runs
out. A flag tells which of two nested loops is running.
-/

namespace UCore.BuddyTree

open Library

inductive Node
  | unused
  | used
  | split
  | full
  deriving DecidableEq, Repr

/-- `buddy_st`. -/
structure Buddy where
  level : ℕ
  tree : ℤ → Node

/-- What `buddy_free` and `buddy_size` report instead of a result. -/
inductive Fault
  | offsetRange
  | offsetLeft
  | invalidOffset
  deriving DecidableEq, Repr

def index2offset (index level maxLevel : ℤ) : ℤ :=
  ((index + 1) - 2 ^ level.toNat) * 2 ^ (maxLevel - level).toNat

def brotherIndex (index : ℤ) : ℤ := index - 1 + index % 2 * 2

def parentIndex (index : ℤ) : ℤ := (index + 1).tdiv 2 - 1

def leftChildIndex (index : ℤ) : ℤ := index * 2 + 1

def rightChildIndex (index : ℤ) : ℤ := index * 2 + 2

def isPowOf2 (x : ℕ) : Bool := x &&& (x - 1) = 0

def nextPowOf2 (x : ℕ) : ℕ :=
  if isPowOf2 x then x
  else
    let x := x ||| x >>> 1
    let x := x ||| x >>> 2
    let x := x ||| x >>> 4
    let x := x ||| x >>> 8
    let x := x ||| x >>> 16
    x + 1

def newBuddy (level : ℕ) : Buddy := ⟨level, fun _ => .unused⟩

/-- The state of the tree and the node that a loop has reached. -/
structure Cursor where
  tree : ℤ → Node
  index : ℤ

/-- The loop of `_mark_parent`. -/
def markStep (s : Cursor) : Cursor ⊕ (ℤ → Node) :=
  let brother := brotherIndex s.index
  if 0 ≤ brother ∧ (s.tree brother = .used ∨ s.tree brother = .full) then
    let index := parentIndex s.index
    .inl ⟨Function.update s.tree index .full, index⟩
  else .inr s.tree

def markParent (fuel : ℕ) (tree : ℤ → Node) (index : ℤ) : Option (ℤ → Node) :=
  iterate markStep fuel ⟨tree, index⟩

/-- The search of `buddy_alloc`; in `backtracking` it looks for an ancestor with a right brother. -/
structure Search extends Cursor where
  level : ℤ
  length : ℕ
  backtracking : Bool

/-- The result of the search is the node to use and its level, or none. -/
def searchStep (sizeToAlloc : ℕ) (s : Search) : Search ⊕ (Option (ℤ × ℤ) × (ℤ → Node)) :=
  if s.backtracking then
    let level := s.level - 1
    let index := parentIndex s.index
    let length := s.length * 2
    if index < 0 then .inr (none, s.tree)
    else if index % 2 = 1 then .inl ⟨⟨s.tree, index + 1⟩, level, length, false⟩
    else .inl ⟨⟨s.tree, index⟩, level, length, true⟩
  else if sizeToAlloc = s.length ∧ s.tree s.index = .unused then
    .inr (some (s.index, s.level), s.tree)
  else if sizeToAlloc < s.length ∧ s.tree s.index = .unused then
    .inl ⟨⟨Function.update s.tree s.index .split, leftChildIndex s.index⟩, s.level + 1,
      s.length / 2, false⟩
  else if sizeToAlloc < s.length ∧ s.tree s.index = .split then
    .inl ⟨⟨s.tree, leftChildIndex s.index⟩, s.level + 1, s.length / 2, false⟩
  else if s.index % 2 = 1 then .inl ⟨⟨s.tree, s.index + 1⟩, s.level, s.length, false⟩
  else .inl ⟨⟨s.tree, s.index⟩, s.level, s.length, true⟩

/-- The size of the block that a request gets. -/
def sizeToAlloc (sizeNeeded : ℕ) : ℕ := if sizeNeeded = 0 then 1 else nextPowOf2 sizeNeeded

/-- The end of `buddy_alloc`, from the result of the search. -/
def useNode (fuel : ℕ) (b : Buddy) : Option (ℤ × ℤ) × (ℤ → Node) → Option (ℤ × Buddy)
  | (none, tree) => some (-1, { b with tree := tree })
  | (some (index, level), tree) =>
    (markParent fuel (Function.update tree index .used) index).map fun tree =>
      (index2offset index level b.level, { b with tree := tree })

def buddyAlloc (fuel : ℕ) (b : Buddy) (sizeNeeded : ℕ) : Option (ℤ × Buddy) :=
  let size := sizeToAlloc sizeNeeded
  if 2 ^ b.level < size then some (-1, b)
  else (iterate (searchStep size) fuel ⟨⟨b.tree, 0⟩, 0, 2 ^ b.level, false⟩).bind (useNode fuel b)

/-- The loops of `_combine_parent`; in `resplitting` the full ancestors are made split. -/
def combineStep (s : Cursor × Bool) : (Cursor × Bool) ⊕ (ℤ → Node) :=
  if s.2 then
    let index := parentIndex s.1.index
    if 0 ≤ index ∧ s.1.tree index = .full then
      .inl (⟨Function.update s.1.tree index .split, index⟩, true)
    else .inr s.1.tree
  else
    let buddy := brotherIndex s.1.index
    if buddy < 0 ∨ s.1.tree buddy ≠ .unused then
      .inl (⟨Function.update s.1.tree s.1.index .unused, s.1.index⟩, true)
    else .inl (⟨s.1.tree, parentIndex s.1.index⟩, false)

def combineParent (fuel : ℕ) (tree : ℤ → Node) (index : ℤ) : Option (ℤ → Node) :=
  iterate combineStep fuel (⟨tree, index⟩, false)

/-- A node with the range of offsets below it. -/
structure Descent where
  index : ℤ
  left : ℕ
  length : ℕ

/-- The loop that `buddy_free` and `buddy_size` share. -/
def descendStep (tree : ℤ → Node) (offset : ℕ) (s : Descent) : Descent ⊕ Except Fault Descent :=
  match tree s.index with
  | .used => .inr (if offset = s.left then .ok s else .error .offsetLeft)
  | .split | .full =>
    let length := s.length / 2
    if offset < s.left + length then .inl ⟨leftChildIndex s.index, s.left, length⟩
    else .inl ⟨rightChildIndex s.index, s.left + length, length⟩
  | .unused => .inr (.error .invalidOffset)

def descend (fuel : ℕ) (b : Buddy) (offset : ℕ) : Option (Except Fault Descent) :=
  if offset < 2 ^ b.level then iterate (descendStep b.tree offset) fuel ⟨0, 0, 2 ^ b.level⟩
  else some (.error .offsetRange)

def buddyFree (fuel : ℕ) (b : Buddy) (offset : ℕ) : Option (Except Fault Buddy) :=
  (descend fuel b offset).bind fun
    | .error e => some (.error e)
    | .ok s => (combineParent fuel b.tree s.index).map fun tree => .ok { b with tree := tree }

def buddySize (fuel : ℕ) (b : Buddy) (offset : ℕ) : Option (Except Fault ℕ) :=
  (descend fuel b offset).map fun r => r.map Descent.length

/-! ## Runs -/

inductive Op
  | alloc (s : ℕ)
  | free (offset : ℕ)
  deriving DecidableEq, Repr

/-- The size of the block for a request of `s`, in the words of the interface. -/
def blockSize (s : ℕ) : ℕ := if s = 0 then 1 else 2 ^ Nat.clog 2 s

/-- The allocator with the offset and the size of every allocation that is not freed. -/
structure Config where
  buddy : Buddy
  live : List (ℕ × ℕ)

/-- A request is for no more than the whole, a free is of a live offset. -/
def Config.Allowed (c : Config) : Op → Prop
  | .alloc s => s ≤ 2 ^ c.buddy.level
  | .free offset => ∃ size, (offset, size) ∈ c.live

def Config.call (fuel : ℕ) (c : Config) : Op → Option (Except Fault Config)
  | .alloc s => (buddyAlloc fuel c.buddy s).map fun o =>
      .ok ⟨o.2, if o.1 = -1 then c.live else (o.1.toNat, blockSize s) :: c.live⟩
  | .free offset => (buddyFree fuel c.buddy offset).map fun r =>
      r.map fun b => ⟨b, c.live.filter fun x => x.1 ≠ offset⟩

def Config.start (level : ℕ) : Config := ⟨newBuddy level, []⟩

end UCore.BuddyTree

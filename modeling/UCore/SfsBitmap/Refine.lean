import Mathlib.Data.Finset.Max
import Mathlib.Data.Finset.Range
import UCore.Defs
import UCore.Library.Code
import UCore.Library.Words

/-! # The bitmap of the file system

The model of `kern/fs/sfs/bitmap.c`. A set bit is a free index.
-/

namespace UCore.SfsBitmap

open Library

def wordBits : ℕ := 32

/-- `uint32_t`. -/
def uint32 (n : ℕ) : ℕ := n % 2 ^ 32

def sizeT (n : ℕ) : ℕ := n % 2 ^ 64

/-- `ROUNDUP_DIV` of a `uint32_t`. -/
def roundupDiv (a n : ℕ) : ℕ := uint32 (sizeT (a + n - 1) / n)

structure Bitmap where
  nbits : ℕ
  nwords : ℕ
  map : List (BitVec 32)
deriving DecidableEq

/-- The assertions of the bitmap. -/
inductive Panic
  | nbits
  | lastWord
  | overbits
  /-- `assert(0)` in `bitmap_alloc`. -/
  | noBit
  | translate
  | freed
deriving DecidableEq

abbrev Prog := Code Panic Bitmap

/-- The mask `1 << offset`. -/
def mask (offset : ℕ) : BitVec 32 := 1#32 <<< offset

/-- The loop of `bitmap_create` over `n` spare bits of the word `ix`, from `overbits` on. -/
def maskOverbits (ix : ℕ) : ℕ → ℕ → List (BitVec 32) → List (BitVec 32)
  | 0, _, map => map
  | n + 1, overbits, map =>
    maskOverbits ix n (overbits + 1) (map.set ix (map.getD ix 0 ^^^ mask overbits))

/-- `bitmap_create`, where `bitmap` and `map` say whether the calls of `kmalloc` succeed. -/
def bitmapCreate (bitmap map : Bool) (nbits : ℕ) : Except Panic (Option Bitmap) :=
  if ¬ (nbits ≠ 0 ∧ sizeT (nbits + wordBits) > nbits) then .error .nbits
  else if ¬ bitmap then .ok none
  else
    let nwords := roundupDiv nbits wordBits
    if ¬ map then .ok none
    else
      let map := List.replicate nwords (BitVec.allOnes 32)
      if nbits ≠ sizeT (nwords * wordBits) then
        let ix := uint32 (nwords - 1)
        let overbits := uint32 (nbits - ix * wordBits)
        if nbits / wordBits ≠ ix then .error .lastWord
        else if ¬ (0 < overbits ∧ overbits < wordBits) then .error .overbits
        else .ok (some ⟨nbits, nwords, maskOverbits ix (wordBits - overbits) overbits map⟩)
      else .ok (some ⟨nbits, nwords, map⟩)

/-- The inner loop of `bitmap_alloc`, for `n` bits from `offset` on. -/
def findBit (word : BitVec 32) : ℕ → ℕ → Option ℕ
  | 0, _ => none
  | n + 1, offset => if word &&& mask offset ≠ 0 then some offset else findBit word n (offset + 1)

/-- The outer loop of `bitmap_alloc`, for `n` words from `ix` on. -/
def allocFrom : ℕ → ℕ → Prog (ℤ × Option ℕ)
  | 0, _ => return (-eNoMem, none)
  | n + 1, ix => do
    let word := (← Code.get).map.getD ix 0
    if word ≠ 0 then
      match findBit word wordBits 0 with
      | some offset =>
        Code.modify fun b => { b with map := b.map.set ix (word ^^^ mask offset) }
        return (0, some (uint32 (ix * wordBits + offset)))
      | none => Code.panic .noBit
    else allocFrom n (ix + 1)

/-- `bitmap_alloc`: what it returns, and what it stores in `index_store`. -/
def bitmapAlloc : Prog (ℤ × Option ℕ) := do allocFrom (← Code.get).nwords 0

/-- `bitmap_translate`: the place of the word, and the mask. -/
def bitmapTranslate (index : ℕ) : Prog (ℕ × BitVec 32) := do
  Code.assert (fun b => index < b.nbits) .translate
  return (index / wordBits, mask (index % wordBits))

/-- `bitmap_test`: the result is true unless it is zero. -/
def bitmapTest (index : ℕ) : Prog (BitVec 32) := do
  let (ix, mask) ← bitmapTranslate index
  return (← Code.get).map.getD ix 0 &&& mask

def bitmapFree (index : ℕ) : Prog Unit := do
  let (ix, mask) ← bitmapTranslate index
  Code.assert (fun b => b.map.getD ix 0 &&& mask = 0) .freed
  Code.modify fun b => { b with map := b.map.set ix (b.map.getD ix 0 ||| mask) }

/-- A call of one of the functions. -/
inductive Call
  | alloc
  | test (index : ℕ)
  | free (index : ℕ)

/-- What a call gives back. -/
inductive Reply
  | alloc (ret : ℤ) (index : Option ℕ)
  | test (found : Bool)
  | free
deriving DecidableEq

def call : Call → Prog Reply
  | .alloc => do
    let (ret, index) ← bitmapAlloc
    return .alloc ret index
  | .test index => return .test ((← bitmapTest index) != 0)
  | .free index => do
    bitmapFree index
    return .free

def calls : List Call → Prog (List Reply)
  | [] => return []
  | c :: l => do
    let r ← call c
    return r :: (← calls l)

/-- A call for a set of free indices. -/
def setCall (S : Finset ℕ) : Call → Reply × Finset ℕ
  | .alloc =>
    if h : S.Nonempty then (.alloc 0 (some (S.min' h)), S.erase (S.min' h))
    else (.alloc (-eNoMem) none, S)
  | .test index => (.test (index ∈ S), S)
  | .free index => (.free, insert index S)

def setCalls : Finset ℕ → List Call → List Reply × Finset ℕ
  | S, [] => ([], S)
  | S, c :: l => ((setCall S c).1 :: (setCalls (setCall S c).2 l).1, (setCalls (setCall S c).2 l).2)

/-- A call is about an index of the bitmap, and only allocated indices are freed. -/
def Allowed (nbits : ℕ) (S : Finset ℕ) : Call → Prop
  | .alloc => True
  | .test index => index < nbits
  | .free index => index < nbits ∧ index ∉ S

instance (nbits : ℕ) (S : Finset ℕ) : (c : Call) → Decidable (Allowed nbits S c)
  | .alloc => inferInstanceAs (Decidable True)
  | .test index => inferInstanceAs (Decidable (index < nbits))
  | .free index => inferInstanceAs (Decidable (index < nbits ∧ index ∉ S))

/-- Every call is allowed where it is made. -/
def AllAllowed (nbits : ℕ) : Finset ℕ → List Call → Prop
  | _, [] => True
  | S, c :: l => Allowed nbits S c ∧ AllAllowed nbits (setCall S c).2 l

/-! ## The bitmap is a set

The bitmap that `bitmap_create` makes represents the set of all its indices, and every call acts on
the bitmap as it acts on the set.
-/

/-- The set bits are the elements of the set. In particular the spare bits of the last word are
clear. -/
structure Represents (nbits : ℕ) (b : Bitmap) (S : Finset ℕ) : Prop where
  nbits_eq : b.nbits = nbits
  le_words : nbits ≤ b.nwords * wordBits
  length : b.map.length = b.nwords
  mem : ∀ i, wordBit b.map i = true ↔ i ∈ S
  lt : ∀ i ∈ S, i < nbits

section Create

variable {nbits ix n overbits i : ℕ} {map : List (BitVec 32)}

theorem length_maskOverbits : (maskOverbits ix n overbits map).length = map.length := by
  induction n generalizing overbits map with
  | zero => rfl
  | succ n ih => rw [maskOverbits, ih, List.length_set]

theorem wordBit_maskOverbits (hix : ix < map.length) (h : overbits + n ≤ wordBits) :
    wordBit (maskOverbits ix n overbits map) i =
      (wordBit map i ^^ decide (ix * wordBits + overbits ≤ i ∧
        i < ix * wordBits + overbits + n)) := by
  induction n generalizing overbits map with
  | zero =>
    rw [maskOverbits, decide_eq_false (by omega), Bool.xor_false]
  | succ n ih =>
    rw [maskOverbits, ih (by rwa [List.length_set]) (by omega), mask,
      wordBit_xor hix (show overbits < 32 by unfold wordBits at h; omega), Bool.xor_assoc]
    congr 1
    -- the bit of this round and those of the later rounds
    unfold wordBits at *
    by_cases hi : i = ix * 32 + overbits
    · rw [decide_eq_true hi, decide_eq_false (by omega), decide_eq_true (by omega)]
      rfl
    · rw [decide_eq_false hi, Bool.false_xor]
      exact decide_eq_decide.mpr (by omega)

theorem roundupDiv_eq (h : nbits < 2 ^ 32) : roundupDiv nbits wordBits = (nbits + 31) / 32 := by
  unfold roundupDiv uint32 sizeT wordBits
  omega

theorem mem_range_replicate (h : nbits = n * wordBits) :
    wordBit (List.replicate n (BitVec.allOnes 32)) i = true ↔ i ∈ Finset.range nbits := by
  rw [Finset.mem_range, h]
  constructor
  · intro hi
    by_contra hn
    rw [wordBit_of_length_le (by rw [List.length_replicate]; exact Nat.le_of_not_lt hn)] at hi
    cases hi
  · exact wordBit_replicate

theorem mem_range_maskOverbits (hix : ix = nbits / 32) (ho : overbits = nbits % 32)
    (hpos : 0 < overbits) :
    wordBit (maskOverbits ix (wordBits - overbits) overbits
      (List.replicate (ix + 1) (BitVec.allOnes 32))) i = true ↔ i ∈ Finset.range nbits := by
  have hlt : overbits < 32 := by omega
  rw [wordBit_maskOverbits (by rw [List.length_replicate]; omega) (by unfold wordBits; omega),
    Finset.mem_range]
  have hend : (ix + 1) * 32 = ix * wordBits + overbits + (wordBits - overbits) := by
    unfold wordBits
    omega
  have hn : nbits = ix * wordBits + overbits := by
    unfold wordBits
    omega
  rw [← hend, ← hn]
  by_cases hi : i < (ix + 1) * 32
  · rw [wordBit_replicate hi, Bool.true_xor]
    simp [hi]
  · rw [wordBit_of_length_le (by rw [List.length_replicate]; omega), Bool.false_xor]
    simp only [hi, and_false, decide_false, Bool.false_eq_true, false_iff]
    omega

/-- Every number of bits is accepted but 0, and no assertion of `bitmap_create` fails after that. -/
theorem bitmapCreate_eq (hpos : 0 < nbits) (h : nbits < 2 ^ 32) :
    ∃ b, Represents nbits b (Finset.range nbits) ∧
      ∀ bitmap map, bitmapCreate bitmap map nbits = .ok (if bitmap && map then some b
        else none) := by
  have hfirst : nbits ≠ 0 ∧ sizeT (nbits + wordBits) > nbits := by
    unfold sizeT wordBits
    omega
  by_cases hr : 0 < nbits % 32
  · have hnwords : roundupDiv nbits wordBits = nbits / 32 + 1 := by
      rw [roundupDiv_eq h]
      omega
    have hspare : nbits ≠ sizeT ((nbits / 32 + 1) * wordBits) := by
      unfold sizeT wordBits
      omega
    have hix : uint32 (nbits / 32 + 1 - 1) = nbits / 32 := Nat.mod_eq_of_lt (by omega)
    have ho : uint32 (nbits - nbits / 32 * wordBits) = nbits % 32 := by
      unfold uint32 wordBits
      omega
    have hlast : nbits / wordBits = nbits / 32 := rfl
    have hover : 0 < nbits % 32 ∧ nbits % 32 < wordBits := ⟨hr, Nat.mod_lt _ (by decide)⟩
    refine ⟨⟨nbits, nbits / 32 + 1, maskOverbits (nbits / 32) (wordBits - nbits % 32) (nbits % 32)
      (List.replicate (nbits / 32 + 1) (BitVec.allOnes 32))⟩, ⟨rfl, ?_, ?_, fun i => ?_, ?_⟩, ?_⟩
    · change nbits ≤ (nbits / 32 + 1) * 32
      omega
    · rw [length_maskOverbits, List.length_replicate]
    · exact mem_range_maskOverbits rfl rfl hr
    · exact fun i => Finset.mem_range.mp
    · intro bitmap map
      unfold bitmapCreate
      rw [if_neg (not_not.mpr hfirst)]
      simp only [hnwords, hix, ho, hlast, if_pos hspare, ne_eq, not_true_eq_false, if_false, hover,
        and_self]
      cases bitmap <;> cases map <;> rfl
  · have hnwords : roundupDiv nbits wordBits = nbits / 32 := by
      rw [roundupDiv_eq h]
      omega
    have hspare : ¬ nbits ≠ sizeT (nbits / 32 * wordBits) := by
      unfold sizeT wordBits
      omega
    have hn : nbits = nbits / 32 * wordBits := by
      change nbits = nbits / 32 * 32
      omega
    refine ⟨⟨nbits, nbits / 32, List.replicate (nbits / 32) (BitVec.allOnes 32)⟩,
      ⟨rfl, hn.le, List.length_replicate, fun i => mem_range_replicate hn,
        fun i => Finset.mem_range.mp⟩, ?_⟩
    intro bitmap map
    unfold bitmapCreate
    rw [if_neg (not_not.mpr hfirst)]
    simp only [hnwords, if_neg hspare]
    cases bitmap <;> cases map <;> rfl

theorem represents_of_bitmapCreate {bitmap map : Bool} {b : Bitmap} (h : nbits < 2 ^ 32)
    (hb : bitmapCreate bitmap map nbits = .ok (some b)) :
    Represents nbits b (Finset.range nbits) := by
  have hpos : 0 < nbits := by
    by_contra hn
    unfold bitmapCreate at hb
    rw [if_pos (fun hx => hn (Nat.pos_of_ne_zero hx.1))] at hb
    cases hb
  obtain ⟨c, hc, heq⟩ := bitmapCreate_eq hpos h
  rw [heq] at hb
  split at hb
  · obtain rfl : c = b := by simpa using hb
    exact hc
  · cases hb

end Create

end UCore.SfsBitmap

import Mathlib.Algebra.Order.Ring.Nat

/-! # Words and strings in a memory

A word is stored in a memory of bytes with its low byte first. A store changes the bytes of the word
and no others, so words that do not overlap it stay as they are. A string is the list of the first
values of a memory.
-/

namespace Library

/-- The number in the `n` bytes from `a` on. -/
def load (m : ℕ → UInt8) : ℕ → ℕ → ℕ
  | 0, _ => 0
  | n + 1, a => (m a).toNat + 256 * load m n (a + 1)

/-- The `n` bytes from `a` on are those of `v`. -/
def store (m : ℕ → UInt8) (n a v : ℕ) (x : ℕ) : UInt8 :=
  if a ≤ x ∧ x < a + n then UInt8.ofNat (v / 256 ^ (x - a)) else m x

section Words

variable {m m' : ℕ → UInt8} {n a b v x : ℕ}

theorem store_of_apart (h : x < a ∨ a + n ≤ x) : store m n a v x = m x := by
  apply if_neg
  omega

theorem load_congr (h : ∀ x, a ≤ x → x < a + n → m' x = m x) : load m' n a = load m n a := by
  induction n generalizing a with
  | zero => rfl
  | succ n ih =>
    rw [load, load, h a (by omega) (by omega), ih fun x hx hlt => h x (by omega) (by omega)]

theorem load_eq (h : ∀ i < n, m (a + i) = UInt8.ofNat (v / 256 ^ i)) :
    load m n a = v % 256 ^ n := by
  induction n generalizing a v with
  | zero => simp [load, Nat.mod_one]
  | succ n ih =>
    have h₀ : m a = UInt8.ofNat v := by simpa using h 0 (by omega)
    have hrest : load m n (a + 1) = v / 256 % 256 ^ n := by
      apply ih
      intro i hi
      rw [Nat.add_right_comm, Nat.add_assoc, h (i + 1) (by omega), Nat.div_div_eq_div_mul,
        Nat.pow_succ']
    rw [load, hrest, h₀, Nat.pow_succ', Nat.mod_mul, UInt8.toNat_ofNat']

theorem load_store : load (store m n a v) n a = v % 256 ^ n := by
  apply load_eq
  intro i hi
  rw [store, if_pos (by omega), Nat.add_sub_cancel_left]

theorem load_store_of_apart (h : b + n ≤ a ∨ a + n ≤ b) :
    load (store m n a v) n b = load m n b := by
  apply load_congr
  intro x hx hlt
  apply store_of_apart
  omega

end Words

section Strings

variable {α : Type*} {m : ℕ → α} {l d : List α} {n k i : ℕ}

/-- The first `n` values of a memory. -/
def firstn (m : ℕ → α) (n : ℕ) : List α := (List.range n).map m

/-- The values of `d` replace those of `l` from `k` on. -/
def overwrite (l d : List α) (k : ℕ) : List α := l.take k ++ d ++ l.drop (k + d.length)

/-- The values of `l` replace the first ones of a memory. -/
def fill (m : ℕ → α) (l : List α) : ℕ → α := fun i => l.getD i (m i)

@[simp] theorem length_firstn : (firstn m n).length = n := by simp [firstn]

theorem getElem?_firstn : (firstn m n)[i]? = if i < n then some (m i) else none := by
  unfold firstn
  by_cases hi : i < n
  · rw [if_pos hi, List.getElem?_map, List.getElem?_range hi]
    rfl
  · rw [if_neg hi, List.getElem?_eq_none]
    simpa using hi

theorem getElem?_overwrite (h : k ≤ l.length) :
    (overwrite l d k)[i]? = if k ≤ i ∧ i < k + d.length then d[i - k]? else l[i]? := by
  have hlen : (l.take k).length = k := List.length_take_of_le h
  unfold overwrite
  rcases Nat.lt_or_ge i k with hi | hi
  · rw [if_neg (by omega), List.append_assoc, List.getElem?_append_left (by omega),
      List.getElem?_take_of_lt hi]
  rcases Nat.lt_or_ge i (k + d.length) with hd | hd
  · rw [if_pos ⟨hi, hd⟩, List.append_assoc, List.getElem?_append_right (by omega), hlen,
      List.getElem?_append_left (by omega)]
  · rw [if_neg (by omega), List.getElem?_append_right (by rw [List.length_append]; omega),
      List.length_append, hlen, List.getElem?_drop]
    congr 1
    omega

end Strings

end Library

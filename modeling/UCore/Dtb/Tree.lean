import UCore.Dtb.Scan

/-! # Device trees

A device tree as nodes with properties and children, the tokens that it flattens to, and their
encoding in a blob. `FDT_NOP` may stand between any two tokens.
-/

namespace UCore.Dtb

open Library

inductive Node
  | mk (name : List UInt8) (props : List (List UInt8 × List UInt8)) (children : List Node)

namespace Node

def name : Node → List UInt8
  | mk name _ _ => name

def props : Node → List (List UInt8 × List UInt8)
  | mk _ props _ => props

def children : Node → List Node
  | mk _ _ children => children

end Node

inductive Token
  | beginNode (name : List UInt8)
  | endNode
  | prop (name data : List UInt8)
  | nop
deriving DecidableEq

mutual

/-- The tokens of a node: its properties stand before its children. -/
def Node.flatten : Node → List Token
  | .mk name props children => .beginNode name :: (props.map fun x => .prop x.1 x.2) ++
      flattenAll children ++ [.endNode]

def flattenAll : List Node → List Token
  | [] => []
  | node :: nodes => node.flatten ++ flattenAll nodes

end

/-- A number by its big-endian bytes. -/
def bigEndian (l : List UInt8) : ℕ := l.foldl (fun n c => 2 ^ 8 * n + c.toNat) 0

/-- The first entry of a `reg` property with two address cells and two size cells. -/
def entry (data : List UInt8) : ℕ × ℕ :=
  (bigEndian (data.take 8), bigEndian ((data.drop 8).take 8))

def alignUp (p : ℕ) : ℕ := (p + 3) / 4 * 4

namespace Blob

variable (b : Blob)

/-- These bytes lie in the blob at an address. -/
def Holds : ℕ → List UInt8 → Prop
  | _, [] => True
  | a, c :: l => (b.Inside a 1 ∧ b.byte a = c) ∧ Holds (a + 1) l

instance decidableHolds : (a : ℕ) → (l : List UInt8) → Decidable (b.Holds a l)
  | _, [] => isTrue trivial
  | a, c :: l =>
    have := decidableHolds (a + 1) l
    inferInstanceAs (Decidable ((b.Inside a 1 ∧ b.byte a = c) ∧ b.Holds (a + 1) l))

/-- A string with its terminator. -/
def HoldsString (a : ℕ) (name : List UInt8) : Prop :=
  b.Holds a (name ++ [0]) ∧ ∀ c ∈ name, c ≠ 0

instance (a : ℕ) (name : List UInt8) : Decidable (b.HoldsString a name) :=
  inferInstanceAs (Decidable (_ ∧ _))

/-- A big-endian cell in the blob. -/
def HoldsCell (a n : ℕ) : Prop :=
  b.Inside a 4 ∧ bigEndian [b.byte a, b.byte (a + 1), b.byte (a + 2), b.byte (a + 3)] = n

instance (a n : ℕ) : Decidable (b.HoldsCell a n) := inferInstanceAs (Decidable (_ ∧ _))

/-- At an address of the structure block stand these tokens, and then `FDT_END`. The names of
properties are found from `strings` on. -/
inductive Encodes (strings : ℕ) : ℕ → List Token → Prop
  | nil {p : ℕ} (ht : b.HoldsCell p fdtEnd) : Encodes strings p []
  | beginNode {p : ℕ} {name : List UInt8} {l : List Token} (ht : b.HoldsCell p fdtBeginNode)
      (hname : b.HoldsString (p + 4) name)
      (hl : Encodes strings (alignUp (p + 4 + name.length + 1)) l) :
      Encodes strings p (.beginNode name :: l)
  | endNode {p : ℕ} {l : List Token} (ht : b.HoldsCell p fdtEndNode)
      (hl : Encodes strings (p + 4) l) : Encodes strings p (.endNode :: l)
  | prop {p off : ℕ} {name data : List UInt8} {l : List Token} (ht : b.HoldsCell p fdtProp)
      (hlen : b.HoldsCell (p + 4) data.length) (hoff : b.HoldsCell (p + 8) off)
      (hname : b.HoldsString (strings + off) name) (hdata : b.Holds (p + 12) data)
      (hl : Encodes strings (alignUp (p + 12 + data.length)) l) :
      Encodes strings p (.prop name data :: l)
  | nop {p : ℕ} {l : List Token} (ht : b.HoldsCell p fdtNop) (hl : Encodes strings (p + 4) l) :
      Encodes strings p (.nop :: l)

end Blob

/-! ## Cells -/

section Cells

variable {b : Blob} {a n : ℕ} {l : List UInt8}

theorem fdt32ToCpu_bytes {x₀ x₁ x₂ x₃ : ℕ} (h₀ : x₀ < 256) (h₁ : x₁ < 256) (h₂ : x₂ < 256)
    (h₃ : x₃ < 256) : fdt32ToCpu (x₀ + 2 ^ 8 * x₁ + 2 ^ 16 * x₂ + 2 ^ 24 * x₃) =
      2 ^ 24 * x₀ + 2 ^ 16 * x₁ + 2 ^ 8 * x₂ + x₃ := by
  have hand : ∀ x, x &&& 0xff = x % 256 := fun x => Nat.and_two_pow_sub_one_eq_mod x 8
  have hor : ∀ {i x y : ℕ}, y < 2 ^ i → x <<< i ||| y = 2 ^ i * x + y := by
    intro i x y hy
    rw [← Nat.shiftLeft_add_eq_or_of_lt hy, Nat.shiftLeft_eq, Nat.mul_comm]
  unfold fdt32ToCpu
  simp only [hand, Nat.shiftRight_eq_div_pow]
  have e₀ : (x₀ + 2 ^ 8 * x₁ + 2 ^ 16 * x₂ + 2 ^ 24 * x₃) % 256 = x₀ := by omega
  have e₁ : (x₀ + 2 ^ 8 * x₁ + 2 ^ 16 * x₂ + 2 ^ 24 * x₃) / 2 ^ 8 % 256 = x₁ := by omega
  have e₂ : (x₀ + 2 ^ 8 * x₁ + 2 ^ 16 * x₂ + 2 ^ 24 * x₃) / 2 ^ 16 % 256 = x₂ := by omega
  have e₃ : (x₀ + 2 ^ 8 * x₁ + 2 ^ 16 * x₂ + 2 ^ 24 * x₃) / 2 ^ 24 % 256 = x₃ := by omega
  rw [e₀, e₁, e₂, e₃, Nat.shiftLeft_eq x₁, Nat.shiftLeft_eq x₂, hor (by omega)]
  have s₁ : 2 ^ 24 * x₀ + x₁ * 2 ^ 16 = (2 ^ 8 * x₀ + x₁) <<< 16 := by
    rw [Nat.shiftLeft_eq]
    omega
  rw [s₁, hor (by omega)]
  have s₂ : 2 ^ 16 * (2 ^ 8 * x₀ + x₁) + x₂ * 2 ^ 8 = (2 ^ 16 * x₀ + 2 ^ 8 * x₁ + x₂) <<< 8 := by
    rw [Nat.shiftLeft_eq]
    omega
  rw [s₂, hor (by omega)]
  omega

theorem cell_eq : b.cell a =
    bigEndian [b.byte a, b.byte (a + 1), b.byte (a + 2), b.byte (a + 3)] := by
  have h : ∀ i, (b.byte i).toNat < 256 := fun i => UInt8.toNat_lt _
  rw [Blob.cell, Blob.word, fdt32ToCpu_bytes (h _) (h _) (h _) (h _)]
  simp only [bigEndian, List.foldl_cons, List.foldl_nil]
  omega

theorem cell_lt : b.cell a < 2 ^ 32 := by
  have h : ∀ i, (b.byte i).toNat < 256 := fun i => UInt8.toNat_lt _
  have h₀ := h a
  have h₁ := h (a + 1)
  have h₂ := h (a + 2)
  have h₃ := h (a + 3)
  rw [cell_eq]
  simp only [bigEndian, List.foldl_cons, List.foldl_nil]
  omega

theorem word_lt : b.word a < 2 ^ 32 := by
  have h : ∀ i, (b.byte i).toNat < 256 := fun i => UInt8.toNat_lt _
  have h₀ := h a
  have h₁ := h (a + 1)
  have h₂ := h (a + 2)
  have h₃ := h (a + 3)
  unfold Blob.word
  omega

theorem holdsCell_iff : b.HoldsCell a n ↔ b.Inside a 4 ∧ b.cell a = n := by
  rw [cell_eq]
  rfl

theorem fdt64ToCpu_word : fdt64ToCpu (b.word a + 2 ^ 32 * b.word (a + 4)) =
    2 ^ 32 * b.cell a + b.cell (a + 4) := by
  have h₁ := word_lt (b := b) (a := a)
  have e₁ : (b.word a + 2 ^ 32 * b.word (a + 4)) &&& 0xffffffff = b.word a := by
    rw [show (0xffffffff : ℕ) = 2 ^ 32 - 1 from rfl, Nat.and_two_pow_sub_one_eq_mod]
    omega
  have e₂ : (b.word a + 2 ^ 32 * b.word (a + 4)) >>> 32 = b.word (a + 4) := by
    rw [Nat.shiftRight_eq_div_pow]
    omega
  have hlt : b.cell (a + 4) < 2 ^ 32 := cell_lt
  unfold fdt64ToCpu
  rw [e₁, e₂]
  change b.cell a <<< 32 ||| b.cell (a + 4) = _
  rw [← Nat.shiftLeft_add_eq_or_of_lt hlt, Nat.shiftLeft_eq, Nat.mul_comm]

end Cells

instance Blob.decidableEncodes (b : Blob) (strings : ℕ) :
    (p : ℕ) → (l : List Token) → Decidable (b.Encodes strings p l)
  | p, [] => decidable_of_iff (b.HoldsCell p fdtEnd) ⟨.nil, fun h => by cases h; assumption⟩
  | p, .beginNode name :: l =>
    have := decidableEncodes b strings (alignUp (p + 4 + name.length + 1)) l
    decidable_of_iff (b.HoldsCell p fdtBeginNode ∧ b.HoldsString (p + 4) name ∧
        b.Encodes strings (alignUp (p + 4 + name.length + 1)) l)
      ⟨fun h => .beginNode h.1 h.2.1 h.2.2, fun h => by cases h; simp_all⟩
  | p, .endNode :: l =>
    have := decidableEncodes b strings (p + 4) l
    decidable_of_iff (b.HoldsCell p fdtEndNode ∧ b.Encodes strings (p + 4) l)
      ⟨fun h => .endNode h.1 h.2, fun h => by cases h; simp_all⟩
  | p, .prop name data :: l =>
    have := decidableEncodes b strings (alignUp (p + 12 + data.length)) l
    decidable_of_iff (b.HoldsCell p fdtProp ∧ b.HoldsCell (p + 4) data.length ∧
        b.HoldsCell (p + 8) (b.cell (p + 8)) ∧
        b.HoldsString (strings + b.cell (p + 8)) name ∧ b.Holds (p + 12) data ∧
        b.Encodes strings (alignUp (p + 12 + data.length)) l)
      ⟨fun h => .prop h.1 h.2.1 h.2.2.1 h.2.2.2.1 h.2.2.2.2.1 h.2.2.2.2.2, fun h => by
        cases h with
        | prop ht hlen hoff hname hdata hl =>
          obtain ⟨hin, rfl⟩ := holdsCell_iff.mp hoff
          exact ⟨ht, hlen, hoff, hname, hdata, hl⟩⟩
  | p, .nop :: l =>
    have := decidableEncodes b strings (p + 4) l
    decidable_of_iff (b.HoldsCell p fdtNop ∧ b.Encodes strings (p + 4) l)
      ⟨fun h => .nop h.1 h.2, fun h => by cases h; simp_all⟩

/-! ## Boards -/

/-- `"#address-cells"`. -/
def addressCells : List UInt8 := [35, 97, 100, 100, 114, 101, 115, 115, 45, 99, 101, 108, 108, 115]

/-- `"#size-cells"`. -/
def sizeCells : List UInt8 := [35, 115, 105, 122, 101, 45, 99, 101, 108, 108, 115]

/-- `memory@80000000`, of 128 MiB. -/
def memoryReg : List UInt8 := [0, 0, 0, 0, 0x80, 0, 0, 0, 0, 0, 0, 0, 0x08, 0, 0, 0]

def memoryNode : Node :=
  .mk (memoryName ++ [64, 56, 48, 48, 48, 48, 48, 48, 48]) [(regName, memoryReg)] []

/-- `memory-ctrl@10`, a device. -/
def controllerReg : List UInt8 := [0, 0, 0, 0, 0, 0, 0x10, 0, 0, 0, 0, 0, 0, 0, 0x01, 0]

def controllerNode : Node :=
  .mk (memoryName ++ [45, 99, 116, 114, 108, 64, 49, 48]) [(regName, controllerReg)] []

def boardRoot (children : List Node) : Node :=
  .mk [] [(addressCells, [0, 0, 0, 2]), (sizeCells, [0, 0, 0, 2])] children

/-- A node with a `reg` property only, its name being of 14 or 15 bytes. -/
def leafBytes (node : Node) : List UInt8 :=
  [0, 0, 0, 1] ++ node.name ++ List.replicate (16 - node.name.length) 0 ++
    [0, 0, 0, 3, 0, 0, 0, 16, 0, 0, 0, 0] ++ node.props.flatMap Prod.snd ++ [0, 0, 0, 2]

/-- The blob with two such nodes below the root. -/
def boardBlob (first second : Node) : Blob where
  base := 0x82200000
  byte a := ([0xd0, 0x0d, 0xfe, 0xed, 0, 0, 0, 223, 0, 0, 0, 40, 0, 0, 0, 192] ++
    List.replicate 24 0 ++
    [0, 0, 0, 1, 0, 0, 0, 0, 0, 0, 0, 3, 0, 0, 0, 4, 0, 0, 0, 4, 0, 0, 0, 2,
      0, 0, 0, 3, 0, 0, 0, 4, 0, 0, 0, 19, 0, 0, 0, 2] ++
    leafBytes first ++ leafBytes second ++ [0, 0, 0, 2, 0, 0, 0, 9] ++
    regName ++ [0] ++ addressCells ++ [0] ++ sizeCells ++ [0]).getD (a - 0x82200000) 0

end UCore.Dtb

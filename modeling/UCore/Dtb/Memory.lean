import UCore.Dtb.Confined

/-! # The memory node

The scan of a tree with one memory node below the root: when it returns the first entry of that
node, and that it always finds something.
-/

namespace UCore.Dtb

open Library

/-- The name `memory`, or `memory@` with a unit. -/
def IsMemory (name : List UInt8) : Prop := name = memoryName ∨ (memoryName ++ [64]) <+: name

instance (name : List UInt8) : Decidable (IsMemory name) := inferInstanceAs (Decidable (_ ∨ _))

/-- A blob with a tree that has one memory node below its root; `reg` is the first property of this
name that the node has. -/
structure MemoryTree (b : Blob) (root memory : Node) (reg : List UInt8) : Prop where
  aligned : b.base % 4 = 0
  fits : b.base + b.totalsize ≤ 2 ^ 64
  magic : b.magic = fdtMagic
  header : b.Inside b.base 40
  tokens : ∃ tokens, b.Encodes (b.base + b.cell (b.base + 12)) (b.base + b.cell (b.base + 8))
    tokens ∧ tokens.filter (· ≠ .nop) = root.flatten
  cells : (addressCells, [0, 0, 0, 2]) ∈ root.props ∧ (sizeCells, [0, 0, 0, 2]) ∈ root.props
  child : ∃ before after, root.children = before ++ memory :: after ∧
    ∀ node ∈ before ++ after, ¬ IsMemory node.name
  named : IsMemory memory.name
  property : ∃ before after, memory.props = before ++ (regName, reg) :: after ∧
    ∀ x ∈ before, x.1 ≠ regName
  room : 16 ≤ reg.length

section Selection

variable {b : Blob} {root memory : Node} {reg : List UInt8} {f : Bool} {l : List Token}

theorem flattenAll_append (l l' : List Node) :
    flattenAll (l ++ l') = flattenAll l ++ flattenAll l' := by
  induction l with
  | nil => simp [flattenAll]
  | cons node l ih => rw [List.cons_append, flattenAll, flattenAll, ih, List.append_assoc]

theorem IsMemory.prefix {name : List UInt8} (h : IsMemory name) : memoryName <+: name := by
  rcases h with rfl | h
  · exact List.prefix_rfl
  · exact (List.prefix_append _ _).trans h

theorem MemoryTree.captured (t : MemoryTree b root memory reg) :
    ∃ before, Captured root.flatten before reg := by
  obtain ⟨name, props, children⟩ := root
  obtain ⟨mname, mprops, mchildren⟩ := memory
  obtain ⟨before, rest, hc, -⟩ := t.child
  obtain ⟨first, last, hp, -⟩ := t.property
  change children = _ at hc
  change mprops = _ at hp
  refine ⟨.beginNode name :: (props.map fun x => .prop x.1 x.2) ++ flattenAll before ++
    .beginNode mname :: first.map fun x => .prop x.1 x.2, ⟨(last.map fun x => .prop x.1 x.2) ++
    flattenAll mchildren ++ [.endNode] ++ flattenAll rest ++ [.endNode], ?_⟩, t.room, _, mname,
    first.map fun x => .prop x.1 x.2, rfl, t.named.prefix, ?_⟩
  · rw [Node.flatten, hc, flattenAll_append, flattenAll, Node.flatten, hp]
    simp
  · simp

theorem select_found_of_captured {before : List Token} {data : List UInt8}
    (h : CapturedFrom f l before data) (hs : ∀ name, .beginNode name ∈ l → name.length < 2 ^ 31) :
    ∃ e : ℕ × ℕ, select f l = .found e.1 e.2 := by
  induction l generalizing f before with
  | nil =>
    obtain ⟨⟨after, hl⟩, -⟩ := h
    simp at hl
  | cons t l ih =>
    have htail : ∀ name, .beginNode name ∈ l → name.length < 2 ^ 31 :=
      fun name hn => hs name (List.mem_cons_of_mem _ hn)
    cases before with
    | nil =>
      obtain ⟨hf, rfl, hlen⟩ := capturedFrom_nil.mp h
      exact ⟨entry data, by rw [select, if_pos ⟨hf, rfl, hlen⟩]⟩
    | cons u before =>
      obtain ⟨rfl, hc⟩ := capturedFrom_cons.mp h
      obtain ⟨e, he⟩ := ih hc htail
      cases t with
      | beginNode name =>
        have hn := hs name List.mem_cons_self
        refine ⟨e, ?_⟩
        rw [select, if_pos hn]
        exact he
      | prop name data' =>
        rw [select]
        split_ifs
        · exact ⟨entry data', rfl⟩
        · exact ⟨e, he⟩
      | _ => exact ⟨e, he⟩

theorem MemoryTree.ends_iff (t : MemoryTree b root memory reg) {o : Outcome} :
    (∃ fuel, b.extractMemoryInfo fuel = some o) ↔ select false root.flatten = o := by
  obtain ⟨tokens, henc, hfilter⟩ := t.tokens
  rw [← hfilter, select_filter]
  exact Blob.Carries.ends_iff t.fits ⟨t.header, henc⟩

/-- The scan returns the first entry of the memory node exactly when the first captured property
has this entry. -/
theorem memory_selected_iff (t : MemoryTree b root memory reg) :
    (∃ fuel, b.extractMemoryInfo fuel = some (.found (entry reg).1 (entry reg).2)) ↔
      Selects root.flatten (entry reg) := by
  rw [t.ends_iff, selects_iff, select_eq_found_iff]

theorem memory_found (t : MemoryTree b root memory reg)
    (hs : ∀ name, .beginNode name ∈ root.flatten → name.length < 2 ^ 31) :
    ∃ fuel, ∃ e : ℕ × ℕ, b.extractMemoryInfo fuel = some (.found e.1 e.2) := by
  obtain ⟨before, hc⟩ := t.captured
  have hf : CapturedFrom false root.flatten before reg := ⟨hc.1, hc.2.1, .inl hc.2.2⟩
  obtain ⟨e, he⟩ := select_found_of_captured hf hs
  obtain ⟨fuel, ho⟩ := t.ends_iff.mpr he
  exact ⟨fuel, e, ho⟩

end Selection

theorem memoryFirst_tree : MemoryTree (boardBlob memoryNode controllerNode)
    (boardRoot [memoryNode, controllerNode]) memoryNode memoryReg where
  aligned := by decide
  fits := by decide +kernel
  magic := by decide +kernel
  header := by decide +kernel
  tokens := ⟨(boardRoot [memoryNode, controllerNode]).flatten, by decide +kernel, by decide⟩
  cells := by decide
  child := ⟨[], [controllerNode], rfl, by decide⟩
  named := by decide
  property := ⟨[], [], rfl, by simp⟩
  room := by decide

theorem memory_selected_iff_first :
    ∃ fuel, (boardBlob memoryNode controllerNode).extractMemoryInfo fuel =
      some (.found 0x80000000 0x8000000) := by
  refine (memory_selected_iff memoryFirst_tree).mpr (selects_iff.mpr ?_)
  exact select_eq_found_iff.mp (by decide)

/-- A node with the name `memory-ctrl@10` in front: the scan returns its registers. -/
theorem memory_selected_not :
    MemoryTree (boardBlob controllerNode memoryNode) (boardRoot [controllerNode, memoryNode])
      memoryNode memoryReg ∧
    (∃ fuel, (boardBlob controllerNode memoryNode).extractMemoryInfo fuel =
      some (.found 0x1000 0x100)) ∧
    ¬ ∃ fuel, (boardBlob controllerNode memoryNode).extractMemoryInfo fuel =
      some (.found (entry memoryReg).1 (entry memoryReg).2) := by
  have t : MemoryTree (boardBlob controllerNode memoryNode)
      (boardRoot [controllerNode, memoryNode]) memoryNode memoryReg :=
    { aligned := by decide
      fits := by decide +kernel
      magic := by decide +kernel
      header := by decide +kernel
      tokens := ⟨(boardRoot [controllerNode, memoryNode]).flatten, by decide +kernel, by decide⟩
      cells := by decide
      child := ⟨[controllerNode], [], rfl, by decide⟩
      named := by decide
      property := ⟨[], [], rfl, by simp⟩
      room := by decide }
  refine ⟨t, t.ends_iff.mpr (by decide), fun h => ?_⟩
  exact absurd (t.ends_iff.mp h) (by decide)

end UCore.Dtb

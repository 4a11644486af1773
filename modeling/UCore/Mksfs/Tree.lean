import UCore.Mksfs.Nodes

/-! # The host directory

What the builder makes of a host directory: every directory has the entries that were added to it,
in order, and every regular file the content that was read.
-/

namespace UCore.Mksfs

open Library Sfs Vfs

/-- The entries that were added to a directory, the first one first. -/
def entriesOf (calls : List (ℕ × Str × ℕ)) (d : ℕ) : List (Str × ℕ) :=
  ((calls.filter fun c => decide (c.1 = d)).map Prod.snd).reverse

/-- The number of entries that name an inode. -/
def linksTo (calls : List (ℕ × Str × ℕ)) (ino : ℕ) : ℕ := calls.countP fun c => decide (c.2.2 = ino)

/-- A block that `add_entry` writes. -/
def Dent (b : Buf) (e : Str × ℕ) : Prop :=
  ∃ old, b = memcpy zeros 0 (entryBuf e.2 (memcpy old 0 (strBuf e.1) 0 (e.1.length + 1))) 0
    sfsDentrySize

/-- The block `i` of a content. -/
def fileBlock (content : List UInt8) (i : ℕ) : Buf :=
  strBuf ((content.drop (i * sfsBlksize)).take sfsBlksize)

def fileBlocks (content : List UInt8) : List Buf :=
  (List.range ((content.length + sfsBlksize - 1) / sfsBlksize)).map (fileBlock content)

/-- The files are those of the calls so far. -/
structure Logged (V : Nodes) (calls : List (ℕ × Str × ℕ))
    (stored : List (ℕ × List UInt8)) : Prop where
  links : ∀ ino nd, V ino = some nd → nd.nlinks = linksTo calls ino % 2 ^ 16
  entries : ∀ d nd, V d = some nd → nd.type = sfsTypeDir →
    List.Forall₂ Dent nd.blocks (entriesOf calls d)
  files : ∀ p ∈ stored, ∃ nd, V p.1 = some nd ∧ nd.type = sfsTypeFile ∧ nd.size = p.2.length ∧
    nd.blocks = fileBlocks p.2
  named : ∀ c ∈ calls, (∃ nd, V c.1 = some nd ∧ nd.type = sfsTypeDir) ∧
    c.2.1.length ≤ sfsMaxFnameLen ∧ V c.2.2 ≠ none

/-- The files stay, with their types. -/
def Later (V V' : Nodes) : Prop :=
  ∀ ino nd, V ino = some nd → ∃ nd', V' ino = some nd' ∧ nd'.type = nd.type

structure Built (m : Writer) (V : Nodes) : Prop where
  holds : Holds m V
  logged : Logged V m.calls m.stored

section Logs

variable {V V' V'' : Nodes} {calls : List (ℕ × Str × ℕ)} {stored : List (ℕ × List UInt8)}
  {nd nd' : Node} {ino d d' file : ℕ} {name : Str}

theorem Later.refl : Later V V := fun _ nd h => ⟨nd, h, rfl⟩

theorem Later.trans (h : Later V V') (h' : Later V' V'') : Later V V'' := by
  intro ino nd hV
  obtain ⟨nd', hV', ht⟩ := h ino nd hV
  obtain ⟨nd'', hV'', ht'⟩ := h' ino nd' hV'
  exact ⟨nd'', hV'', ht'.trans ht⟩

theorem Later.ne (h : Later V V') (hV : V ino ≠ none) : V' ino ≠ none := by
  obtain ⟨nd, hV⟩ := Option.ne_none_iff_exists'.mp hV
  obtain ⟨nd', hV', -⟩ := h ino nd hV
  simp [hV']

theorem Later.set (hV : V ino = some nd) (ht : nd'.type = nd.type) :
    Later V (Function.update V ino (some nd')) := by
  intro x ndx hx
  by_cases hi : x = ino
  · subst hi
    rw [hV, Option.some.injEq] at hx
    subst hx
    exact ⟨nd', Function.update_self _ _ _, ht⟩
  · exact ⟨ndx, by rw [Function.update_of_ne hi, hx], rfl⟩

theorem Later.new (hV : V ino = none) : Later V (Function.update V ino (some nd')) := by
  intro x ndx hx
  refine ⟨ndx, ?_, rfl⟩
  rw [Function.update_of_ne, hx]
  rintro rfl
  rw [hV] at hx
  cases hx

theorem entriesOf_cons_self : entriesOf ((d, name, file) :: calls) d =
    entriesOf calls d ++ [(name, file)] := by
  simp [entriesOf]

theorem entriesOf_cons_ne (h : d' ≠ d) :
    entriesOf ((d, name, file) :: calls) d' = entriesOf calls d' := by
  simp [entriesOf, h.symm]

theorem mem_entriesOf {e : Str × ℕ} : e ∈ entriesOf calls d ↔ (d, e) ∈ calls := by
  unfold entriesOf
  simp only [List.mem_reverse, List.mem_map, List.mem_filter, decide_eq_true_eq]
  constructor
  · rintro ⟨c, ⟨hc, rfl⟩, rfl⟩
    exact hc
  · exact fun h => ⟨(d, e), ⟨h, rfl⟩, rfl⟩

theorem linksTo_cons : linksTo ((d, name, file) :: calls) ino =
    linksTo calls ino + if ino = file then 1 else 0 := by
  unfold linksTo
  rw [List.countP_cons]
  simp [eq_comm]

namespace Logged

theorem entriesOf_nil (h : Logged V calls stored) (hd : V d = none) : entriesOf calls d = [] := by
  refine List.eq_nil_iff_forall_not_mem.mpr fun e he => ?_
  obtain ⟨nd, hV, -⟩ := (h.named _ (mem_entriesOf.mp he)).1
  rw [hd] at hV
  cases hV

theorem linksTo_zero (h : Logged V calls stored) (hd : V d = none) : linksTo calls d = 0 := by
  refine List.countP_eq_zero.mpr fun c hc => ?_
  have := (h.named c hc).2.2
  rw [decide_eq_true_eq]
  rintro rfl
  exact this hd

/-- A new file. -/
theorem new {type : ℕ} (h : Logged V calls stored) (hV : V ino = none) :
    Logged (Function.update V ino (some ⟨type, 0, 0, []⟩)) calls stored := by
  have hcases : ∀ {x nd}, Function.update V ino (some ⟨type, 0, 0, []⟩) x = some nd →
      x = ino ∧ nd = ⟨type, 0, 0, []⟩ ∨ V x = some nd := by
    intro x nd hx
    by_cases hi : x = ino
    · subst hi
      rw [Function.update_self, Option.some.injEq] at hx
      exact .inl ⟨rfl, hx.symm⟩
    · rw [Function.update_of_ne hi] at hx
      exact .inr hx
  have hkeep : ∀ {x nd}, V x = some nd →
      Function.update V ino (some ⟨type, 0, 0, []⟩) x = some nd := by
    intro x nd hx
    rw [Function.update_of_ne, hx]
    rintro rfl
    rw [hV] at hx
    cases hx
  constructor
  · intro x nd hx
    rcases hcases hx with ⟨rfl, rfl⟩ | hx
    · rw [h.linksTo_zero hV]
      rfl
    · exact h.links x nd hx
  · intro d nd hx ht
    rcases hcases hx with ⟨rfl, rfl⟩ | hx
    · rw [h.entriesOf_nil hV]
      exact .nil
    · exact h.entries d nd hx ht
  · intro p hp
    obtain ⟨nd, hx, ht⟩ := h.files p hp
    exact ⟨nd, hkeep hx, ht⟩
  · intro c hc
    obtain ⟨⟨nd, hx, ht⟩, hlen, hn⟩ := h.named c hc
    exact ⟨⟨nd, hkeep hx, ht⟩, hlen, (Later.new hV).ne hn⟩

theorem set (h : Logged V calls stored) (hV : V ino = some nd) (ht : nd'.type = nd.type)
    (hl : nd'.nlinks = nd.nlinks) (hd : nd.type ≠ sfsTypeDir) (hs : ∀ p ∈ stored, p.1 ≠ ino) :
    Logged (Function.update V ino (some nd')) calls stored := by
  have hcases : ∀ {x ndx}, Function.update V ino (some nd') x = some ndx →
      x = ino ∧ ndx = nd' ∨ V x = some ndx := by
    intro x ndx hx
    by_cases hi : x = ino
    · subst hi
      rw [Function.update_self, Option.some.injEq] at hx
      exact .inl ⟨rfl, hx.symm⟩
    · rw [Function.update_of_ne hi] at hx
      exact .inr hx
  constructor
  · intro x ndx hx
    rcases hcases hx with ⟨rfl, rfl⟩ | hx
    · rw [hl]
      exact h.links x nd hV
    · exact h.links x ndx hx
  · intro d ndx hx htd
    rcases hcases hx with ⟨rfl, rfl⟩ | hx
    · exact absurd (ht.symm.trans htd) hd
    · exact h.entries d ndx hx htd
  · intro p hp
    obtain ⟨ndx, hx, hrest⟩ := h.files p hp
    exact ⟨ndx, by rw [Function.update_of_ne (hs p hp), hx], hrest⟩
  · intro c hc
    obtain ⟨⟨ndx, hx, htx⟩, hlen, hn⟩ := h.named c hc
    obtain ⟨nd'', hx', ht'⟩ := Later.set hV ht _ _ hx
    exact ⟨⟨nd'', hx', ht'.trans htx⟩, hlen, (Later.set hV ht).ne hn⟩

end Logged

/-- The files after an entry for `file` was added to the directory `d`. -/
structure Added (d file : ℕ) (b : Buf) (V V' : Nodes) : Prop where
  absent : ∀ x, V x = none → V' x = none
  node : ∀ x nd, V x = some nd → ∃ nd', V' x = some nd' ∧ nd'.type = nd.type ∧
    nd'.nlinks = (if x = file then (nd.nlinks + 1) % 2 ^ 16 else nd.nlinks) ∧
    nd'.blocks = nd.blocks ++ (if x = d then [b] else []) ∧ (x ≠ d → nd'.size = nd.size)

theorem Added.later {b : Buf} (h : Added d file b V V') : Later V V' := fun x nd hx => by
  obtain ⟨nd', hx', ht, -⟩ := h.node x nd hx
  exact ⟨nd', hx', ht⟩

theorem Added.of_update {b : Buf} {size : ℕ} (hd : V d = some nd)
    (hf : Function.update V d (some { nd with size := size, blocks := nd.blocks ++ [b] }) file =
      some nd') :
    Added d file b V (Function.update (Function.update V d
      (some { nd with size := size, blocks := nd.blocks ++ [b] })) file
      (some { nd' with nlinks := (nd'.nlinks + 1) % 2 ^ 16 })) := by
  constructor
  · intro x hx
    have hxd : x ≠ d := by
      rintro rfl
      rw [hd] at hx
      cases hx
    have hxf : x ≠ file := by
      rintro rfl
      rw [Function.update_of_ne hxd, hx] at hf
      cases hf
    rw [Function.update_of_ne hxf, Function.update_of_ne hxd, hx]
  · intro x ndx hx
    by_cases hxd : x = d
    · subst hxd
      rw [hd, Option.some.injEq] at hx
      subst hx
      by_cases hxf : x = file
      · subst hxf
        rw [Function.update_self, Option.some.injEq] at hf
        subst hf
        exact ⟨_, Function.update_self _ _ _, rfl, by simp, by simp, fun hn => absurd rfl hn⟩
      · exact ⟨{ nd with size := size, blocks := nd.blocks ++ [b] },
          by rw [Function.update_of_ne hxf, Function.update_self], rfl, by simp [hxf], by simp,
          fun hn => absurd rfl hn⟩
    · by_cases hxf : x = file
      · subst hxf
        rw [Function.update_of_ne hxd, hx, Option.some.injEq] at hf
        subst hf
        exact ⟨_, Function.update_self _ _ _, rfl, by simp, by simp [hxd], fun _ => rfl⟩
      · exact ⟨ndx, by rw [Function.update_of_ne hxf, Function.update_of_ne hxd, hx], rfl,
          by simp [hxf], by simp [hxd], fun _ => rfl⟩

/-- An entry is added. -/
theorem Logged.add {b : Buf} (h : Logged V calls stored) (ha : Added d file b V V')
    (hd : V d = some nd) (ht : nd.type = sfsTypeDir) (hb : Dent b (name, file))
    (hlen : name.length ≤ sfsMaxFnameLen) (hf : V file ≠ none) :
    Logged V' ((d, name, file) :: calls) stored := by
  have hback : ∀ {x ndx}, V' x = some ndx → ∃ nd₀, V x = some nd₀ ∧ ndx.type = nd₀.type ∧
      ndx.nlinks = (if x = file then (nd₀.nlinks + 1) % 2 ^ 16 else nd₀.nlinks) ∧
      ndx.blocks = nd₀.blocks ++ (if x = d then [b] else []) := by
    intro x ndx hx
    cases hV : V x with
    | none =>
      rw [ha.absent x hV] at hx
      cases hx
    | some nd₀ =>
      obtain ⟨nd', hx', ht, hl, hbl, -⟩ := ha.node x nd₀ hV
      rw [hx', Option.some.injEq] at hx
      subst hx
      exact ⟨nd₀, rfl, ht, hl, hbl⟩
  constructor
  · intro x ndx hx
    obtain ⟨nd₀, hx₀, -, hl, -⟩ := hback hx
    have := h.links x nd₀ hx₀
    rw [hl, linksTo_cons]
    split <;> omega
  · intro x ndx hx htx
    obtain ⟨nd₀, hx₀, ht₀, -, hbl⟩ := hback hx
    have he := h.entries x nd₀ hx₀ (ht₀ ▸ htx)
    rw [hbl]
    by_cases hxd : x = d
    · subst hxd
      rw [if_pos rfl, entriesOf_cons_self]
      exact List.rel_append he (.cons hb .nil)
    · rw [if_neg hxd, entriesOf_cons_ne hxd, List.append_nil]
      exact he
  · intro p hp
    obtain ⟨nd₀, hx₀, ht₀, hs, hbl⟩ := h.files p hp
    have hpd : p.1 ≠ d := by
      rintro he
      rw [he, hd, Option.some.injEq] at hx₀
      subst hx₀
      rw [ht] at ht₀
      cases ht₀
    obtain ⟨nd', hx', ht', -, hbl', hs'⟩ := ha.node _ nd₀ hx₀
    refine ⟨nd', hx', ht'.trans ht₀, (hs' hpd).trans hs, ?_⟩
    rw [hbl', if_neg hpd, List.append_nil, hbl]
  · have hall : ∀ c : ℕ × Str × ℕ, (∃ nd, V c.1 = some nd ∧ nd.type = sfsTypeDir) ∧
        c.2.1.length ≤ sfsMaxFnameLen ∧ V c.2.2 ≠ none →
        (∃ nd, V' c.1 = some nd ∧ nd.type = sfsTypeDir) ∧ c.2.1.length ≤ sfsMaxFnameLen ∧
        V' c.2.2 ≠ none := by
      rintro c ⟨⟨ndx, hx, htx⟩, hlen, hn⟩
      obtain ⟨nd', hx', ht'⟩ := ha.later _ _ hx
      exact ⟨⟨nd', hx', ht'.trans htx⟩, hlen, ha.later.ne hn⟩
    intro c hc
    rcases List.mem_cons.mp hc with rfl | hc
    · exact hall _ ⟨⟨nd, hd, ht⟩, hlen, hf⟩
    · exact hall c (h.named c hc)

end Logs

section Build

variable {m m' : Writer} {V : Nodes} {current file d i n : ℕ} {name : Str} {nd : Node}
  {content : List UInt8}

theorem addEntry_built (h : Built m V) (hf : V file ≠ none) (hc : V current ≠ none) :
    (addEntry current file name).Wp m (fun _ => True) fun _ m' => ∃ V', Built m' V' ∧ Later V V' ∧
      m'.calls = (current, name, file) :: m.calls ∧ m'.stored = m.stored := by
  obtain ⟨nd, hV⟩ := Option.ne_none_iff_exists'.mp hc
  refine Code.Wp.bind_assert (fun hp => Code.Wp.bind_modify ?_) fun _ => trivial
  obtain ⟨htype, hlen⟩ := hp
  have ht : nd.type = sfsTypeDir := by
    obtain ⟨A, O, hI⟩ := h.holds
    rw [← (hI.shows current nd hV).type]
    exact htype
  refine (sfsAllocIno_ready (h.holds.logs m.calls m.stored _)).bind ?_
  rintro b m₁ ⟨hR₁, hL₁⟩
  refine Code.Wp.bind_get ?_
  refine (writeBlock_ready hR₁).bind ?_
  rintro - m₂ ⟨hR₂, hL₂, hb⟩
  refine (appendBlock_holds hR₂ hV).bind ?_
  rintro - m₃ ⟨hH, hL₃⟩
  have hlogs := (hL₁.trans hL₂).trans hL₃
  have hlater : Later V (Function.update V current (some { nd with
      size := (nd.size + sfsDentrySize) % 2 ^ 32, blocks := nd.blocks ++ [m₂.disk b] })) :=
    .set hV rfl
  obtain ⟨nf, hnf⟩ := Option.ne_none_iff_exists'.mp (hlater.ne hf)
  have ha := Added.of_update hV hnf
  refine ⟨_, ⟨(hH.setLinks hnf fun l => (l + 1) % 2 ^ 16).logs _ _ _, ?_⟩, ha.later, ?_, ?_⟩
  · have hdent : Dent (m₂.disk b) (name, file) := by
      refine ⟨m.entryName, ?_⟩
      rw [hb, hL₁.entryName]
    have := h.logged.add ha hV ht hdent hlen hf
    change Logged _ ((current, name, file) :: m₃.calls) m₃.stored
    rw [hlogs.calls, hlogs.stored]
    exact this
  · change _ :: m₃.calls = _
    rw [hlogs.calls]
  · change m₃.stored = _
    rw [hlogs.stored]

theorem memcpy_strBuf (l : List UInt8) : memcpy zeros 0 (strBuf l) 0 l.length = strBuf l := by
  funext j
  unfold memcpy strBuf zeros
  split_ifs with hj
  · simp
  · simp only [Nat.zero_le, true_and, Nat.zero_add, not_lt] at hj
    rw [List.getD_eq_getElem?_getD, List.getElem?_eq_none hj]
    rfl

/-- The file has the blocks that were read so far. -/
theorem readLoop_holds : ∀ n i m V nd, Holds m V → V file = some nd →
    nd.size = min (i * sfsBlksize) content.length →
    nd.blocks = (List.range i).map (fileBlock content) →
    (readLoop file content n i).Wp m (fun _ => True) fun _ m' => ∃ nd',
      Holds m' (Function.update V file (some nd')) ∧ SameLogs m m' ∧ nd'.type = nd.type ∧
      nd'.nlinks = nd.nlinks ∧ nd'.size = min ((i + n) * sfsBlksize) content.length ∧
      nd'.blocks = (List.range (i + n)).map (fileBlock content) := by
  intro n
  induction n with
  | zero =>
    intro i m V nd h hV hs hb
    refine Code.Wp.pure ⟨nd, ?_, ⟨rfl, rfl, rfl⟩, rfl, rfl, hs, hb⟩
    rwa [← hV, Function.update_eq_self]
  | succ n ih =>
    intro i m V nd h hV hs hb
    unfold readLoop
    dsimp only
    refine (sfsAllocIno_ready h).bind ?_
    rintro b m₁ ⟨hR₁, hL₁⟩
    refine (writeBlock_ready hR₁).bind ?_
    rintro - m₂ ⟨hR₂, hL₂, hdisk⟩
    refine (appendBlock_holds hR₂ hV).bind ?_
    rintro - m₃ ⟨hH, hL₃⟩
    rw [memcpy_strBuf] at hdisk
    set nd₁ : Node := { nd with
      size := (nd.size + ((content.drop (i * sfsBlksize)).take sfsBlksize).length) % 2 ^ 32
      blocks := nd.blocks ++ [m₂.disk b] } with hnd₁
    have hblocks : nd₁.blocks = (List.range (i + 1)).map (fileBlock content) := by
      rw [List.range_succ, List.map_append, ← hb]
      simp [hnd₁, hdisk, fileBlock]
    have hsmall : i + 1 ≤ sfsLnNblks := by
      obtain ⟨A, O, hI⟩ := hH
      have := (hI.shows file nd₁ (Function.update_self _ _ _)).small
      rw [hblocks] at this
      simpa using this
    have hsize : nd₁.size = min ((i + 1) * sfsBlksize) content.length := by
      have hL : sfsLnNblks = 32768 := rfl
      have hB : sfsBlksize = 4096 := rfl
      change (nd.size + _) % 2 ^ 32 = _
      rw [List.length_take, List.length_drop, hs, hB]
      omega
    refine (ih (i + 1) m₃ _ nd₁ hH (Function.update_self _ _ _) hsize hblocks).mono
      (fun _ he => he) ?_
    rintro - m₄ ⟨nd', hH', hL₄, ht, hl, hs', hb'⟩
    rw [Function.update_idem] at hH'
    rw [Nat.add_right_comm] at hs' hb'
    exact ⟨nd', hH', ((hL₁.trans hL₂).trans hL₃).trans hL₄, ht, hl, hs', hb'⟩

theorem openFile_built (h : Built m V) (hV : V file = some ⟨sfsTypeFile, 0, 0, []⟩)
    (hs : ∀ p ∈ m.stored, p.1 ≠ file) :
    (openFile file content).Wp m (fun _ => True) fun _ m' => ∃ V', Built m' V' ∧ Later V V' ∧
      m'.calls = m.calls ∧ m'.stored = (file, content) :: m.stored := by
  refine (readLoop_holds _ 0 m V _ h.holds hV (by simp) rfl).bind ?_
  rintro - m₁ ⟨nd', hH, hL, ht, hl, hsize, hb⟩
  have hlater : Later V (Function.update V file (some nd')) := .set hV ht
  have hlogged := h.logged.set hV ht hl (by decide) hs
  rw [Nat.zero_add] at hsize hb
  refine ⟨_, ⟨hH.logs _ _ _, ?_⟩, hlater, hL.calls, ?_⟩
  · change Logged _ m₁.calls ((file, content) :: m₁.stored)
    rw [hL.calls, hL.stored]
    refine { hlogged with files := fun p hp => ?_ }
    rcases List.mem_cons.mp hp with rfl | hp
    · refine ⟨nd', Function.update_self _ _ _, ht, ?_, hb⟩
      have hB : sfsBlksize = 4096 := rfl
      rw [hsize, hB]
      dsimp only
      omega
    · exact hlogged.files p hp
  · change (file, content) :: m₁.stored = _
    rw [hL.stored]

theorem openLink_built (h : Built m V) (hV : V file = some ⟨sfsTypeLink, 0, 0, []⟩)
    (hs : ∀ p ∈ m.stored, p.1 ≠ file) :
    (openLink file content).Wp m (fun _ => True) fun _ m' => ∃ V', Built m' V' ∧ Later V V' ∧
      m'.calls = m.calls ∧ m'.stored = m.stored := by
  refine (sfsAllocIno_ready h.holds).bind ?_
  rintro b m₁ ⟨hR₁, hL₁⟩
  split
  next => exact Code.Wp.of_error rfl trivial
  next =>
    refine (writeBlock_ready hR₁).bind ?_
    rintro - m₂ ⟨hR₂, hL₂, -⟩
    refine (appendBlock_holds hR₂ hV).mono (fun _ he => he) ?_
    rintro - m₃ ⟨hH, hL₃⟩
    have hL := (hL₁.trans hL₂).trans hL₃
    refine ⟨_, ⟨hH, ?_⟩, .set hV rfl, hL.calls, hL.stored⟩
    rw [hL.calls, hL.stored]
    exact h.logged.set hV rfl rfl (by decide) hs

theorem allocCacheInode_built (h : Built m V) {real type : ℕ} (ht : type < 2 ^ 16) :
    (allocCacheInode real 0 type).Wp m (fun _ => True) fun b m' =>
      V b = none ∧ Built m' (Function.update V b (some ⟨type, 0, 0, []⟩)) ∧ SameLogs m m' ∧
      ∀ p ∈ m'.stored, p.1 ≠ b := by
  refine (allocCacheInode_holds h.holds ht).mono (fun _ he => he) ?_
  rintro b m' ⟨hV, hH, hL⟩
  refine ⟨hV, ⟨hH, ?_⟩, hL, ?_⟩
  · rw [hL.calls, hL.stored]
    exact h.logged.new hV
  · rw [hL.stored]
    rintro p hp rfl
    obtain ⟨nd, hx, -⟩ := h.logged.files p hp
    rw [hV] at hx
    cases hx

theorem Built.listed (h : Built m V) {l : ℕ} (hf : file ∈ m.inodes l) : V file ≠ none := by
  obtain ⟨A, O, hI⟩ := h.holds
  exact (hI.nodes file).mp (hI.listed l file hf)

/-- One entry is added to the directory. -/
def OneEntry (current : ℕ) (name : Str) (m : Writer) (V : Nodes) (m' : Writer) : Prop :=
  ∃ V' file, Built m' V' ∧ Later V V' ∧ m'.calls = (current, name, file) :: m.calls

theorem addFile_built {real : ℕ} (h : Built m V) (hc : V current ≠ none) :
    (addFile current name real content).Wp m (fun _ => True) fun _ m' =>
      OneEntry current name m V m' := by
  refine Code.Wp.bind_get ?_
  split
  next file hs =>
    have hf : V file ≠ none := h.listed (List.mem_of_find?_eq_some hs)
    refine (addEntry_built h hf hc).mono (fun _ he => he) ?_
    rintro - m' ⟨V', hB, hV, hcalls, -⟩
    exact ⟨V', file, hB, hV, hcalls⟩
  next =>
    refine (allocCacheInode_built h (by decide)).bind ?_
    rintro file m₁ ⟨hnone, hB₁, hL₁, hs⟩
    refine (openFile_built hB₁ (Function.update_self _ _ _) hs).bind ?_
    rintro - m₂ ⟨V₂, hB₂, hV₂, hc₂, -⟩
    have hlater : Later V V₂ := (Later.new hnone).trans hV₂
    refine (addEntry_built hB₂ (hV₂.ne (by simp)) (hlater.ne hc)).mono (fun _ he => he) ?_
    rintro - m' ⟨V', hB, hV, hcalls, -⟩
    exact ⟨V', file, hB, hlater.trans hV, by rw [hcalls, hc₂, hL₁.calls]⟩

theorem addLink_built {real : ℕ} (h : Built m V) (hc : V current ≠ none) :
    (addLink current name real content).Wp m (fun _ => True) fun _ m' =>
      OneEntry current name m V m' := by
  refine (allocCacheInode_built h (by decide)).bind ?_
  rintro file m₁ ⟨hnone, hB₁, hL₁, hs⟩
  refine (openLink_built hB₁ (Function.update_self _ _ _) hs).bind ?_
  rintro - m₂ ⟨V₂, hB₂, hV₂, hc₂, -⟩
  have hlater : Later V V₂ := (Later.new hnone).trans hV₂
  refine (addEntry_built hB₂ (hV₂.ne (by simp)) (hlater.ne hc)).mono (fun _ he => he) ?_
  rintro - m' ⟨V', hB, hV, hcalls, -⟩
  exact ⟨V', file, hB, hlater.trans hV, by rw [hcalls, hc₂, hL₁.calls]⟩

theorem addDots_built {parent : ℕ} (h : Built m V) (hc : V current ≠ none) (hp : V parent ≠ none) :
    (addDots current parent).Wp m (fun _ => True) fun _ m' => ∃ V', Built m' V' ∧ Later V V' ∧
      m'.calls = (current, dotdot, parent) :: (current, dot, current) :: m.calls := by
  refine (addEntry_built h hc hc).bind ?_
  rintro - m₁ ⟨V₁, hB₁, hV₁, hc₁, -⟩
  refine (addEntry_built hB₁ (hV₁.ne hp) (hV₁.ne hc)).mono (fun _ he => he) ?_
  rintro - m' ⟨V', hB, hV, hcalls, -⟩
  exact ⟨V', hB, hV₁.trans hV, by rw [hcalls, hc₁]⟩

end Build

section Names

/-- The names in a host directory that are not skipped. -/
def Host.names : Host → List Str
  | .done => []
  | .file name _ _ rest | .link name _ _ rest | .dir name _ _ rest | .other name rest =>
    if skips name then rest.names else name :: rest.names

/-- A name of the host: a component of a path. -/
structure NameOk (name : Str) : Prop where
  ne : name ≠ []
  zero : (0 : UInt8) ∉ name
  slash : (47 : UInt8) ∉ name

/-- A host directory has every name once. -/
def Host.Ok : Host → Prop
  | .done => True
  | .file name _ _ rest | .link name _ _ rest | .other name rest =>
    NameOk name ∧ name ∉ rest.names ∧ rest.Ok
  | .dir name _ sub rest => NameOk name ∧ name ∉ rest.names ∧ sub.Ok ∧ rest.Ok

/-- The names of every directory are different names. -/
structure Proper (calls : List (ℕ × Str × ℕ)) : Prop where
  nodup : ∀ d, ((entriesOf calls d).map Prod.fst).Nodup
  ok : ∀ c ∈ calls, NameOk c.2.1

variable {calls : List (ℕ × Str × ℕ)} {d file : ℕ} {name : Str}

theorem Proper.add (h : Proper calls) (hn : NameOk name)
    (hf : name ∉ (entriesOf calls d).map Prod.fst) : Proper ((d, name, file) :: calls) := by
  constructor
  · intro x
    by_cases hx : x = d
    · subst hx
      rw [entriesOf_cons_self, List.map_append]
      refine List.nodup_append.mpr ⟨h.nodup x, by simp, ?_⟩
      rintro a ha b hb rfl
      obtain rfl : a = name := by simpa using hb
      exact hf ha
    · rw [entriesOf_cons_ne hx]
      exact h.nodup x
  · intro c hc
    rcases List.mem_cons.mp hc with rfl | hc
    · exact hn
    · exact h.ok c hc

end Names

end UCore.Mksfs

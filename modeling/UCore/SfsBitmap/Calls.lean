import UCore.Sfs.Alloc
import UCore.SfsBitmap.Refine

/-! # Calls on the bitmap

Each call does to a bitmap what it does to the set that the bitmap represents, and so does a run of
calls. The file system keeps its freemap as a row of bits without words: the bitmap and this row
behave alike.
-/

namespace UCore.SfsBitmap

open Library

variable {nbits ix n offset o i index : ℕ} {b : Bitmap} {S : Finset ℕ} {word : BitVec 32}

theorem findBit_some (h : findBit word n offset = some o) (hn : offset + n ≤ wordBits) :
    word.getLsbD o = true ∧ o < offset + n ∧
      ∀ j, offset ≤ j → j < o → word.getLsbD j = false := by
  induction n generalizing offset with
  | zero => cases h
  | succ n ih =>
    have ho : offset < 32 := by
      unfold wordBits at hn
      omega
    unfold findBit at h
    split at h
    · rename_i hm
      obtain rfl := Option.some.inj h
      exact ⟨(and_mask_ne_zero ho).mp hm, by omega, fun j h₁ h₂ => absurd h₂ (by omega)⟩
    · rename_i hm
      obtain ⟨h₁, h₂, h₃⟩ := ih h (by omega)
      refine ⟨h₁, by omega, fun j hj hjo => ?_⟩
      rcases Nat.eq_or_lt_of_le hj with rfl | hj
      · exact Bool.eq_false_of_not_eq_true (mt (and_mask_ne_zero ho).mpr hm)
      · exact h₃ j hj hjo

theorem findBit_none (h : findBit word n offset = none) (hn : offset + n ≤ wordBits) :
    ∀ j, offset ≤ j → j < offset + n → word.getLsbD j = false := by
  induction n generalizing offset with
  | zero =>
    intro j h₁ h₂
    omega
  | succ n ih =>
    have ho : offset < 32 := by
      unfold wordBits at hn
      omega
    unfold findBit at h
    split at h
    · cases h
    · rename_i hm
      intro j hj hjn
      rcases Nat.eq_or_lt_of_le hj with rfl | hj
      · exact Bool.eq_false_of_not_eq_true (mt (and_mask_ne_zero ho).mpr hm)
      · exact ih h (by omega) j hj (by omega)

theorem findBit_isSome (h : word ≠ 0) : ∃ o, findBit word wordBits 0 = some o := by
  obtain ⟨i, hi, hw⟩ := ne_zero_iff.mp h
  cases hf : findBit word wordBits 0 with
  | some o => exact ⟨o, rfl⟩
  | none =>
    rw [findBit_none hf (Nat.le_of_eq (Nat.zero_add _)) i (Nat.zero_le _)
      (by rwa [Nat.zero_add])] at hw
    cases hw

/-- The bitmap after the bit `i` is flipped. -/
def Bitmap.flip (b : Bitmap) (i : ℕ) : Bitmap :=
  { b with map := b.map.set (i / 32) (b.map.getD (i / 32) 0 ^^^ mask (i % 32)) }

/-- Either all bits are clear, or the first one that is set is flipped. -/
theorem allocFrom_run (hlen : b.map.length = b.nwords) (hn : ix + n = b.nwords)
    (hz : ∀ j < ix * 32, wordBit b.map j = false) :
    (allocFrom n ix b = .ok ((-eNoMem, none), b) ∧ ∀ j, wordBit b.map j = false) ∨
      ∃ i, wordBit b.map i = true ∧ (∀ j < i, wordBit b.map j = false) ∧
        allocFrom n ix b = .ok ((0, some (uint32 i)), b.flip i) := by
  induction n generalizing ix with
  | zero =>
    refine .inl ⟨rfl, fun j => ?_⟩
    by_cases hj : j < ix * 32
    · exact hz j hj
    · exact wordBit_of_length_le (by omega)
  | succ n ih =>
    -- the bits of this word
    have hword : ∀ k < 32, wordBit b.map (ix * 32 + k) = (b.map.getD ix 0).getLsbD k := by
      intro k hk
      obtain ⟨h₁, h₂⟩ := (index_eq_iff hk).mp rfl
      rw [wordBit, h₁, h₂]
    by_cases hw : b.map.getD ix 0 = 0
    · have hrun : allocFrom (n + 1) ix b = allocFrom n (ix + 1) b := by
        rw [allocFrom, Code.get_bind, if_neg (not_not.mpr hw)]
      rw [hrun]
      refine ih (by omega) fun j hj => ?_
      by_cases hj' : j < ix * 32
      · exact hz j hj'
      · obtain ⟨k, rfl⟩ : ∃ k, j = ix * 32 + k := ⟨j - ix * 32, by omega⟩
        rw [hword k (by omega), hw, BitVec.ofNat_eq_ofNat, BitVec.getLsbD_zero]
    · obtain ⟨o, ho⟩ := findBit_isSome hw
      obtain ⟨h₁, h₂, h₃⟩ := findBit_some ho (Nat.le_of_eq (Nat.zero_add _))
      have ho' : o < 32 := by
        rwa [Nat.zero_add] at h₂
      refine .inr ⟨ix * 32 + o, by rwa [hword o ho'], fun j hj => ?_, ?_⟩
      · by_cases hj' : j < ix * 32
        · exact hz j hj'
        · obtain ⟨k, rfl⟩ : ∃ k, j = ix * 32 + k := ⟨j - ix * 32, by omega⟩
          rw [hword k (by omega)]
          exact h₃ k (Nat.zero_le _) (by omega)
      · obtain ⟨hq, hr⟩ := (index_eq_iff ho').mp rfl
        rw [allocFrom, Code.get_bind, if_pos hw, ho, Bitmap.flip, hq, hr]
        rfl

namespace Represents

theorem lt_nwords (h : Represents nbits b S) (hi : i < nbits) : i / 32 < b.map.length := by
  have := h.le_words
  rw [h.length]
  unfold wordBits at this
  omega

theorem flip (h : Represents nbits b S) (hi : i ∈ S) : Represents nbits (b.flip i) (S.erase i) where
  nbits_eq := h.nbits_eq
  le_words := h.le_words
  length := by rw [Bitmap.flip, List.length_set, h.length]
  mem j := by
    have hbit : wordBit (b.flip i).map j = (wordBit b.map j ^^ decide (j = i)) := by
      rw [Bitmap.flip, mask, wordBit_xor (h.lt_nwords (h.lt i hi)) (Nat.mod_lt _ (by decide)),
        Nat.div_add_mod']
    rw [hbit, Finset.mem_erase]
    by_cases hj : j = i
    · subst hj
      simp [(h.mem j).mpr hi]
    · simp [hj, h.mem j]
  lt j hj := h.lt j (Finset.mem_of_mem_erase hj)

theorem set (h : Represents nbits b S) (hi : i < nbits) :
    Represents nbits { b with map := b.map.set (i / 32) (b.map.getD (i / 32) 0 ||| mask (i % 32)) }
      (insert i S) where
  nbits_eq := h.nbits_eq
  le_words := h.le_words
  length := by rw [List.length_set, h.length]
  mem j := by
    rw [mask, wordBit_or (h.lt_nwords hi) (Nat.mod_lt _ (by decide)), Nat.div_add_mod',
      Finset.mem_insert, ← h.mem j, Bool.or_eq_true, decide_eq_true_iff]
    exact or_comm
  lt j hj := by
    rcases Finset.mem_insert.mp hj with rfl | hj
    · exact hi
    · exact h.lt j hj

theorem alloc (h : Represents nbits b S) (hb : nbits < 2 ^ 32) :
    (S = ∅ ∧ bitmapAlloc b = .ok ((-eNoMem, none), b)) ∨
      ∃ (hS : S.Nonempty) (t : Bitmap), bitmapAlloc b = .ok ((0, some (S.min' hS)), t) ∧
        Represents nbits t (S.erase (S.min' hS)) := by
  have hrun : bitmapAlloc b = allocFrom b.nwords 0 b := rfl
  rw [hrun]
  rcases allocFrom_run h.length (Nat.zero_add _) (fun j hj => absurd hj (by omega)) with
    ⟨ha, hz⟩ | ⟨i, hi, hz, ha⟩
  · refine .inl ⟨Finset.eq_empty_of_forall_notMem fun j hj => ?_, ha⟩
    rw [← h.mem, hz] at hj
    cases hj
  · have hmem : i ∈ S := (h.mem i).mp hi
    have hmin : S.min' ⟨i, hmem⟩ = i := by
      refine le_antisymm (S.min'_le i hmem) (S.le_min' _ i fun j hj => ?_)
      by_contra hlt
      rw [← h.mem, hz j (by omega)] at hj
      cases hj
    have hu : uint32 i = i := Nat.mod_eq_of_lt ((h.lt i hmem).trans hb)
    refine .inr ⟨⟨i, hmem⟩, b.flip i, ?_, ?_⟩
    · rw [ha, hmin, hu]
    · rw [hmin]
      exact h.flip hmem

theorem translate (h : Represents nbits b S) (hi : index < nbits) :
    bitmapTranslate index b = .ok ((index / 32, mask (index % 32)), b) := by
  rw [bitmapTranslate, Code.assert_bind (h.nbits_eq ▸ hi)]
  rfl

theorem and_mask (h : Represents nbits b S) :
    b.map.getD (i / 32) 0 &&& mask (i % 32) ≠ 0 ↔ i ∈ S := by
  rw [← h.mem]
  exact and_mask_ne_zero (Nat.mod_lt _ (by decide))

theorem test (h : Represents nbits b S) (hi : index < nbits) :
    ∃ w, bitmapTest index b = .ok (w, b) ∧ (w ≠ 0 ↔ index ∈ S) := by
  refine ⟨b.map.getD (index / 32) 0 &&& mask (index % 32), ?_, h.and_mask⟩
  rw [bitmapTest, Code.bind_ok (h.translate hi)]
  rfl

theorem free (h : Represents nbits b S) (hi : index < nbits) (hS : index ∉ S) :
    ∃ t, bitmapFree index b = .ok ((), t) ∧ Represents nbits t (insert index S) := by
  have hclear : b.map.getD (index / 32) 0 &&& mask (index % 32) = 0 :=
    not_not.mp (mt h.and_mask.mp hS)
  refine ⟨_, ?_, h.set hi⟩
  rw [bitmapFree, Code.bind_ok (h.translate hi)]
  exact Code.assert_bind hclear

theorem call (h : Represents nbits b S) (hb : nbits < 2 ^ 32) {c : Call} (hc : Allowed nbits S c) :
    ∃ t, call c b = .ok ((setCall S c).1, t) ∧ Represents nbits t (setCall S c).2 := by
  cases c with
  | alloc =>
    rcases h.alloc hb with ⟨rfl, ha⟩ | ⟨hS, t, ha, ht⟩
    · exact ⟨b, Code.bind_ok ha, h⟩
    · rw [setCall, dif_pos hS]
      exact ⟨t, Code.bind_ok ha, ht⟩
  | test index =>
    obtain ⟨w, hw, hmem⟩ := h.test hc
    refine ⟨b, ?_, h⟩
    have hval : (w != 0) = decide (index ∈ S) := by
      rw [Bool.eq_iff_iff, bne_iff_ne, decide_eq_true_iff, hmem]
    change (bitmapTest index >>= fun w => pure (Reply.test (w != 0))) b = _
    rw [Code.bind_ok hw, hval]
    rfl
  | free index =>
    obtain ⟨t, ht, hr⟩ := h.free hc.1 hc.2
    exact ⟨t, Code.bind_ok ht, hr⟩

theorem calls (h : Represents nbits b S) (hb : nbits < 2 ^ 32) {l : List Call}
    (hl : AllAllowed nbits S l) :
    ∃ t, calls l b = .ok ((setCalls S l).1, t) ∧ Represents nbits t (setCalls S l).2 := by
  induction l generalizing b S with
  | nil => exact ⟨b, rfl, h⟩
  | cons c l ih =>
    obtain ⟨t, ht, hrt⟩ := h.call hb hl.1
    obtain ⟨u, hu, hru⟩ := ih hrt hl.2
    refine ⟨u, ?_, hru⟩
    rw [SfsBitmap.calls, Code.bind_ok ht, Code.bind_ok hu]
    rfl

end Represents

section Bounds

variable {l : List Call} {c : Call}

theorem setCall_alloc (hS : S.Nonempty) :
    setCall S .alloc = (.alloc 0 (some (S.min' hS)), S.erase (S.min' hS)) := dif_pos hS

theorem setCall_lt (hS : ∀ i ∈ S, i < nbits) (hc : Allowed nbits S c) :
    ∀ i ∈ (setCall S c).2, i < nbits := by
  intro i hi
  cases c with
  | alloc =>
    rcases S.eq_empty_or_nonempty with rfl | hne
    · exact hS i hi
    · rw [setCall_alloc hne] at hi
      exact hS i (Finset.mem_of_mem_erase hi)
  | test index => exact hS i hi
  | free index =>
    rcases Finset.mem_insert.mp hi with rfl | hi
    · exact hc.1
    · exact hS i hi

theorem reply_lt (hS : ∀ i ∈ S, i < nbits) (h : (setCall S c).1 = .alloc 0 (some i)) :
    i < nbits := by
  cases c with
  | alloc =>
    rcases S.eq_empty_or_nonempty with rfl | hne
    · cases h
    · rw [setCall_alloc hne] at h
      obtain rfl : S.min' hne = i := by simpa using h
      exact hS _ (S.min'_mem hne)
  | test index => cases h
  | free index => cases h

theorem setCalls_lt (hS : ∀ i ∈ S, i < nbits) (hl : AllAllowed nbits S l) :
    ∀ i, .alloc 0 (some i) ∈ (setCalls S l).1 → i < nbits := by
  induction l generalizing S with
  | nil => exact fun i h => absurd h List.not_mem_nil
  | cons c l ih =>
    intro i h
    rcases List.mem_cons.mp h with h | h
    · exact reply_lt hS h.symm
    · exact ih (setCall_lt hS hl.1) hl.2 i h

/-- In a run from a new bitmap the calls give back what they give back on the set of all indices,
and no assertion fails. At its end `bitmap_alloc` fails exactly when the set is empty, and then
nothing changes. -/
theorem bitmap_refines {bitmap map : Bool} (hn : nbits < 2 ^ 32)
    (hb : bitmapCreate bitmap map nbits = .ok (some b))
    (hl : AllAllowed nbits (Finset.range nbits) l) :
    ∃ t, calls l b = .ok ((setCalls (Finset.range nbits) l).1, t) ∧
      Represents nbits t (setCalls (Finset.range nbits) l).2 ∧
      ((∃ i u, bitmapAlloc t = .ok ((-eNoMem, i), u)) ↔ (setCalls (Finset.range nbits) l).2 = ∅) ∧
      ((setCalls (Finset.range nbits) l).2 = ∅ → bitmapAlloc t = .ok ((-eNoMem, none), t)) ∧
      ∀ i, .alloc 0 (some i) ∈ (setCalls (Finset.range nbits) l).1 → i < nbits := by
  obtain ⟨t, ht, hr⟩ := (represents_of_bitmapCreate hn hb).calls hn hl
  refine ⟨t, ht, hr, ?_, ?_, setCalls_lt (fun i hi => Finset.mem_range.mp hi) hl⟩
  · rcases hr.alloc hn with ⟨hS, ha⟩ | ⟨hS, u, ha, -⟩
    · exact ⟨fun _ => hS, fun _ => ⟨none, t, ha⟩⟩
    · refine ⟨?_, fun h => absurd h hS.ne_empty⟩
      rintro ⟨i, v, hv⟩
      rw [ha] at hv
      cases hv
  · intro hS
    rcases hr.alloc hn with ⟨-, ha⟩ | ⟨hne, -⟩
    · exact ha
    · exact absurd hS hne.ne_empty

theorem bitmap_refines_two_words :
    ∃ t, calls [.alloc, .test 32, .free 0] ⟨33, 2, [BitVec.allOnes 32, 1]⟩ =
        .ok ((setCalls (Finset.range 33) [.alloc, .test 32, .free 0]).1, t) ∧
      Represents 33 t (setCalls (Finset.range 33) [.alloc, .test 32, .free 0]).2 := by
  have hl : AllAllowed 33 (Finset.range 33) [.alloc, .test 32, .free 0] := by
    refine ⟨trivial, ?_, ⟨?_, ?_⟩, trivial⟩
    · decide
    · decide
    · decide +kernel
  obtain ⟨t, ht, hr, -⟩ := bitmap_refines (show 33 < 2 ^ 32 by decide)
    (show bitmapCreate true true 33 = .ok (some ⟨33, 2, [BitVec.allOnes 32, 1]⟩) by
      decide +kernel) hl
  exact ⟨t, ht, hr⟩

end Bounds

section Freemap

/-- The bitmap holds the freemap of a file system. -/
structure Holds (b : Bitmap) (s : Sfs.Fs) (S : Finset ℕ) : Prop where
  represents : Represents s.nbits b S
  freemap : ∀ i < s.nbits, s.freemap i = decide (i ∈ S)

variable {s : Sfs.Fs}

theorem Holds.update {S' : Finset ℕ} {t : Bitmap} {v : Bool} (h : Holds b s S)
    (hr : Represents s.nbits t S') (hv : v = decide (index ∈ S'))
    (hne : ∀ i, i ≠ index → (i ∈ S' ↔ i ∈ S)) :
    Holds t { s with freemap := Function.update s.freemap index v } S' where
  represents := hr
  freemap i hi := by
    change i < s.nbits at hi
    change Function.update s.freemap index v i = _
    by_cases hx : i = index
    · subst hx
      rw [Function.update_self, hv]
    · rw [Function.update_of_ne hx, h.freemap i hi]
      exact decide_eq_decide.mpr (hne i hx).symm

theorem Holds.firstSet (h : Holds b s S) :
    Sfs.firstSet s.freemap s.nbits 0 = if hS : S.Nonempty then some (S.min' hS) else none := by
  cases hf : Sfs.firstSet s.freemap s.nbits 0 with
  | none =>
    rw [dif_neg]
    rintro ⟨i, hi⟩
    have hlt := h.represents.lt i hi
    have := Sfs.firstSet_none hf i (Nat.zero_le _) (by omega)
    rw [h.freemap i hlt] at this
    exact of_decide_eq_false this hi
  | some i =>
    obtain ⟨hi, hlt, hfirst⟩ := Sfs.firstSet_least hf
    rw [Nat.zero_add] at hlt
    have hmem : i ∈ S := by
      rw [h.freemap i hlt] at hi
      exact of_decide_eq_true hi
    rw [dif_pos ⟨i, hmem⟩]
    congr 1
    refine le_antisymm (S.le_min' _ i fun j hj => ?_) (S.min'_le i hmem)
    by_contra hji
    have := hfirst j (Nat.zero_le _) (by omega)
    rw [h.freemap j (by omega)] at this
    exact of_decide_eq_false this hj

theorem Holds.alloc (h : Holds b s S) (hn : s.nbits < 2 ^ 32) :
    ∃ r i t u S', bitmapAlloc b = .ok ((r, i), t) ∧ Sfs.bitmapAlloc s = .ok ((r, i.getD 0), u) ∧
      Holds t u S' := by
  unfold Sfs.bitmapAlloc
  rw [h.firstSet]
  rcases h.represents.alloc hn with ⟨rfl, ha⟩ | ⟨hS, t, ha, ht⟩
  · exact ⟨_, _, b, s, ∅, ha, rfl, h⟩
  · rw [dif_pos hS]
    refine ⟨_, _, t, _, _, ha, rfl, h.update ht ?_ fun i hi => ?_⟩
    · exact (decide_eq_false (Finset.notMem_erase _ _)).symm
    · exact ⟨Finset.mem_of_mem_erase, Finset.mem_erase_of_ne_of_mem hi⟩

theorem Holds.test (h : Holds b s S) (hi : index < s.nbits) :
    ∃ w, bitmapTest index b = .ok (w, b) ∧ Sfs.bitmapTest index s = .ok (w != 0, s) := by
  obtain ⟨w, hw, hmem⟩ := h.represents.test hi
  refine ⟨w, hw, ?_⟩
  have hval : s.freemap index = (w != 0) := by
    rw [h.freemap index hi, Bool.eq_iff_iff, bne_iff_ne, decide_eq_true_iff, hmem]
  rw [← hval]
  exact Code.assert_bind hi

theorem Holds.free (h : Holds b s S) (hi : index < s.nbits) (hS : index ∉ S) :
    ∃ t u, bitmapFree index b = .ok ((), t) ∧ Sfs.bitmapFree index s = .ok ((), u) ∧
      Holds t u (insert index S) := by
  obtain ⟨t, ht, hr⟩ := h.represents.free hi hS
  have hfree : s.freemap index = false := by
    rw [h.freemap index hi]
    exact decide_eq_false hS
  refine ⟨t, { s with freemap := Function.update s.freemap index true }, ht, ?_,
    h.update hr (decide_eq_true (Finset.mem_insert_self _ _)).symm fun i hx => ?_⟩
  · calc Sfs.bitmapFree index s
        = _ := Code.assert_bind hi
      _ = _ := Code.assert_bind hfree
  · rw [Finset.mem_insert]
    exact ⟨fun h => h.resolve_left hx, .inr⟩

end Freemap

end UCore.SfsBitmap

import UCore.LoadIcode.Model

/-! # Reading the program file

A read of a given number of bytes that succeeds gives the bytes of the file at the position, and a
seek that is followed by one has not made the file longer. The bytes arrive in one page.
-/

namespace UCore.LoadIcode

open Library PageTable Cow Fork UserMem Vmm

variable {s t u : Loader}

/-- The states agree up to the file and the answers of `kmalloc`. -/
structure Beside (s t : Loader) : Prop where
  mem : t.mem = s.mem
  mm : t.mm = s.mm
  hasMm : t.hasMm = s.hasMm
  mapped : t.mapped = s.mapped

theorem Beside.refl (s : Loader) : Beside s s := ⟨rfl, rfl, rfl, rfl⟩

theorem Beside.trans (h : Beside s t) (h' : Beside t u) : Beside s u :=
  ⟨h'.mem.trans h.mem, h'.mm.trans h.mm, h'.hasMm.trans h.hasMm, h'.mapped.trans h.mapped⟩

theorem beside_setFile (f : File) : Beside s (s.setFile f) := ⟨rfl, rfl, rfl, rfl⟩

theorem kmalloc_wp (s : Loader) : Code.Wp kmalloc s (fun _ => False) fun _ t =>
    Beside s t ∧ t.file = s.file := by
  unfold kmalloc Code.Wp
  dsimp only
  rcases s.kmallocs with _ | ⟨b, l⟩
  · exact ⟨.refl s, rfl⟩
  · exact ⟨⟨rfl, rfl, rfl, rfl⟩, rfl⟩

/-! ## `sysfile_read` -/

/-- The bytes that a read from `s` gives, and where it leaves the file. -/
structure Got (s : Loader) (data : List UInt8) (t : Loader) : Prop where
  beside : Beside s t
  bytes : t.file.bytes = s.file.bytes
  pos : t.file.pos = s.file.pos + data.length
  data : data = (s.file.bytes.drop s.file.pos).take data.length

theorem fileRead_wp (len : ℕ) (s : Loader) : Code.Wp (fileRead len) s (fun _ => False) fun r t =>
    r.1 ≤ 0 ∧ r.2.length ≤ len ∧ Got s r.2 t := by
  have htake : ∀ (l : List UInt8) n, l.take n = l.take (l.take n).length := by
    intro l n
    rw [List.length_take, ← List.take_eq_take_min]
  unfold fileRead Code.Wp
  dsimp only
  split
  · rename_i r t he
    split at he
    · obtain ⟨rfl, rfl⟩ := Prod.mk.inj (Except.ok.inj he)
      exact ⟨by decide, by simp, .refl _, rfl, rfl, by simp⟩
    · generalize hd : (s.file.bytes.drop s.file.pos).take
        (min len (Sfs.sfsMaxFileSize - s.file.pos)) = data at he
      have hdata : data = (s.file.bytes.drop s.file.pos).take data.length := hd ▸ htake _ _
      have hlen : data.length ≤ len := by
        rw [← hd, List.length_take]
        omega
      split at he
      · obtain ⟨rfl, rfl⟩ := Prod.mk.inj (Except.ok.inj he)
        exact ⟨le_rfl, hlen, beside_setFile _, rfl, rfl, hdata⟩
      · rename_i n e l _
        split at he
        · rename_i hn
          obtain ⟨rfl, rfl⟩ := Prod.mk.inj (Except.ok.inj he)
          have hn' : (data.take n).length = n := by
            rw [List.length_take]
            omega
          refine ⟨by simp, by rw [hn']; omega, beside_setFile _, rfl, by rw [hn']; rfl, ?_⟩
          rw [hn']
          conv_lhs => rw [hdata]
          rw [List.take_take, Nat.min_eq_left hn.le]
        · obtain ⟨rfl, rfl⟩ := Prod.mk.inj (Except.ok.inj he)
          exact ⟨le_rfl, hlen, beside_setFile _, rfl, rfl, hdata⟩
  · rename_i e he
    split at he
    · cases he
    · split at he
      · cases he
      · split at he <;> cases he

theorem Got.refl (s : Loader) : Got s [] s := ⟨.refl s, rfl, rfl, rfl⟩

theorem Got.trans {l l' : List UInt8} (h : Got s l t) (h' : Got t l' u) : Got s (l ++ l') u where
  beside := h.beside.trans h'.beside
  bytes := h'.bytes.trans h.bytes
  pos := by rw [h'.pos, h.pos, List.length_append, Nat.add_assoc]
  data := by
    have h₁ := h.data
    have h₂ := h'.data
    rw [h.bytes, h.pos, ← List.drop_drop] at h₂
    rw [List.length_append, List.take_add, ← h₁, ← h₂]

/-- What `sysfile_read` returns: the number of bytes, or no bytes and an error. -/
def Transfers (ret : ℤ) (n : ℕ) : Prop := ∃ e ≤ 0, ret = Files.transferred n e

theorem readLoop_wp (n : ℕ) : ∀ (len : ℕ) (copied : List UInt8) (s t : Loader), Got s copied t →
    Code.Wp (readLoop n len copied) t (fun _ => False) fun r u =>
      Transfers r.1 r.2.length ∧ r.2.length ≤ copied.length + len ∧ Got s r.2 u := by
  induction n with
  | zero => exact fun len copied s t h => ⟨⟨0, le_rfl, rfl⟩, Nat.le_add_right _ _, h⟩
  | succ n ih =>
    intro len copied s t h
    unfold readLoop
    split
    · exact ⟨⟨0, le_rfl, rfl⟩, Nat.le_add_right _ _, h⟩
    · refine (fileRead_wp _ t).bind fun ⟨ret, data⟩ u ⟨hret, hlen, hgot⟩ => ?_
      have hall := h.trans hgot
      dsimp only at hlen hret ⊢
      split
      · refine ⟨⟨ret, hret, rfl⟩, ?_, hall⟩
        rw [List.length_append]
        omega
      · refine (ih (len - data.length) (copied ++ data) s u hall).mono (fun _ he => he) ?_
        rintro r v ⟨h₁, h₂, h₃⟩
        refine ⟨h₁, ?_, h₃⟩
        rw [List.length_append] at h₂
        omega

theorem sysfileRead_wp (len : ℕ) (s : Loader) : Code.Wp (sysfileRead len) s (fun _ => False)
    fun r t => r.2.length ≤ len ∧ Got s r.2 t ∧
      (r.1 = len → len ≠ 0 → r.2.length = len) := by
  unfold sysfileRead
  split
  · exact ⟨Nat.zero_le _, .refl s, fun _ h => absurd ‹len = 0› h⟩
  · refine (kmalloc_wp s).bind fun b t ⟨hb, hf⟩ => ?_
    have hgot : Got s [] t := ⟨hb, by rw [hf], by rw [hf]; rfl, rfl⟩
    cases b with
    | false =>
      refine ⟨Nat.zero_le _, hgot, fun h _ => ?_⟩
      have hlen := Int.natCast_nonneg len
      rw [← h] at hlen
      exact absurd hlen (by decide)
    | true =>
      refine (readLoop_wp len len [] s t hgot).mono (fun _ he => he) ?_
      rintro r u ⟨⟨e, he, hr⟩, h₂, h₃⟩
      refine ⟨by simpa using h₂, h₃, fun hl hne => ?_⟩
      rw [hr, Files.transferred] at hl
      split at hl
      · exact_mod_cast hl
      · omega

/-! ## `sysfile_seek` -/

/-- A seek that succeeds. If the file became longer, the position is at its end. -/
structure Sought (s : Loader) (pos : ℤ) (t : Loader) : Prop where
  beside : Beside s t
  nonneg : 0 ≤ pos
  lt : pos < Sfs.sfsMaxFileSize
  pos : t.file.pos = pos.toNat
  bytes : t.file.bytes = s.file.bytes ∨ t.file.bytes.length = t.file.pos

theorem sysfileSeek_wp (pos : ℤ) (s : Loader) : Code.Wp (sysfileSeek pos) s (fun _ => False)
    fun ret t => ret = 0 → Sought s pos t := by
  have hno : ∀ e : ℤ, e ≠ 0 → ∀ t, e = 0 → Sought s pos t := fun e he t h => absurd h he
  unfold sysfileSeek Code.Wp
  dsimp only
  by_cases hp : pos < 0 ∨ pos ≥ Sfs.sfsMaxFileSize
  · rw [if_pos hp]
    exact hno _ (by decide) _
  · rw [if_neg hp]
    push Not at hp
    by_cases hl : pos > s.file.bytes.length
    · rw [if_pos hl]
      rcases hr : s.file.room with _ | ⟨_ | _, l⟩
      · exact hno _ (by decide) _
      · exact hno _ (by decide) _
      · refine fun _ => ⟨beside_setFile _, hp.1, hp.2, rfl, .inr ?_⟩
        simp only [Loader.setFile, List.length_append, List.length_map, List.length_range]
        omega
    · rw [if_neg hl]
      exact fun _ => ⟨beside_setFile _, hp.1, hp.2, rfl, .inl rfl⟩

/-- The bytes of the file at a position. -/
def bytesAt (bytes : List UInt8) (pos n : ℕ) : List UInt8 := (bytes.drop pos).take n

theorem Sought.read {pos : ℤ} {data : List UInt8} (h : Sought s pos t) (h' : Got t data u)
    (hd : data ≠ []) : Beside s u ∧ u.file.bytes = s.file.bytes ∧
      data = bytesAt s.file.bytes pos.toNat data.length := by
  have hdata := h'.data
  rw [h.pos] at hdata
  rcases h.bytes with hb | hb
  · rw [hb] at hdata
    exact ⟨h.beside.trans h'.beside, h'.bytes.trans hb, hdata⟩
  · rw [← h.pos, ← hb, List.drop_length, List.take_nil] at hdata
    exact absurd hdata hd

/-! ## Bytes of a page -/

theorem ofBytes_digit {l : List ℕ} (h : ∀ b ∈ l, b < 256) (k : ℕ) :
    ofBytes l / 256 ^ k % 256 = l.getD k 0 := by
  induction l generalizing k with
  | nil => simp [ofBytes]
  | cons b l ih =>
    have hb := h b List.mem_cons_self
    have hl := ih fun x hx => h x (List.mem_cons_of_mem _ hx)
    change (b + 256 * ofBytes l) / 256 ^ k % 256 = _
    cases k with
    | zero =>
      rw [pow_zero, Nat.div_one, List.getD_cons_zero]
      omega
    | succ k =>
      rw [Nat.pow_succ', ← Nat.div_div_eq_div_mul, List.getD_cons_succ, ← hl k]
      congr 2
      omega

theorem loadByte_packWord {c : ℕ → ℕ} (h : ∀ o, c o < 256) (o : ℕ) :
    loadByte (packWord c) o = c o := by
  have hk : o % 8 < 8 := Nat.mod_lt _ (by decide)
  have ho : 8 * (o / 8) + o % 8 = o := by omega
  unfold loadByte packWord
  rw [ofBytes_digit, List.getD_eq_getElem _ _ (by simpa using hk)]
  · simp [ho]
  · intro b hb
    obtain ⟨k, -, rfl⟩ := List.mem_map.mp hb
    exact h _

theorem loadByte_setBytes {f : ℕ → ℕ} {off n : ℕ} {c : ℕ → ℕ} (h : ∀ o, c o < 256) (o : ℕ) :
    loadByte (setBytes f off n c) o =
      if off ≤ o ∧ o < off + n then c (o - off) else loadByte f o := by
  unfold setBytes
  rw [loadByte_packWord]
  intro o
  split
  · exact h _
  · exact Nat.mod_lt _ (by decide)

end UCore.LoadIcode

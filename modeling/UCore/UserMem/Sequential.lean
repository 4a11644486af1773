import UCore.UserMem.Deadlock
import UCore.Vfs.Position

/-! # Sequential reads

`sysfile_read` of a user process on a descriptor of a regular file. The loop has `file_read` move
the position before `copy_to_user` is tried, and nothing moves it back: the bytes of a part of the
buffer that `user_mem_check` rejects are lost.
-/

namespace UCore.UserMem

open Library PageTable

/-- A function of the file system of the kernel. Its panic is the end of the kernel. -/
def fsCall {α : Type} (m : Vfs.Prog α) : Program (Ctx Vfs.Kernel) α := fun s =>
  match m s.fs with
  | .ok (a, k) => .done a { s with fs := k }
  | .error _ => .lost

/-- `file_read` of `n` bytes into the buffer of `sysfile_read`: the error and the bytes. -/
def readPart (cur : ℕ) (fd : ℤ) (n : ℕ) : Program (Ctx Vfs.Kernel) (ℤ × List ℕ) := do
  let (ret, alen, buf) ← fsCall (Vfs.fileRead cur fd Sfs.zeros n)
  return (ret, (List.range alen).map fun i => (buf i).toNat)

/-- The loop of `sysfile_read` over the files of the kernel: what is returned, and the bytes that
the process gets. -/
def readParts (cur : ℕ) (fd : ℤ) : ℕ → ℕ → ℕ → ℕ → Program (Ctx Vfs.Kernel) (ℤ × List ℕ)
  | 0, _, _, copied => return (Files.transferred copied 0, [])
  | n + 1, base, len, copied => do
    if len = 0 then return (Files.transferred copied 0, [])
    else
      let (ret, bytes) ← readPart cur fd (min iobufSize len)
      if bytes = [] then return (Files.transferred copied ret, [])
      else if ← Files.deliver base bytes then
        if ret ≠ 0 then return (Files.transferred (copied + bytes.length) ret, bytes)
        else
          let r ← readParts cur fd n (base + bytes.length) (len - bytes.length)
            (copied + bytes.length)
          return (r.1, bytes ++ r.2)
      else return (Files.transferred copied (if ret = 0 then -eInval else ret), [])

/-- `sysfile_read` of a user process: what is returned, and the bytes that the process gets. -/
def sysfileRead (cur : ℕ) (fd : ℤ) (base len : ℕ) : Program (Ctx Vfs.Kernel) (ℤ × List ℕ) := do
  if len = 0 then return (0, [])
  else if ← fsCall (Vfs.fileTestfd cur fd true false) then
    if ← fsCall Vfs.kmalloc then readParts cur fd (len + 1) base len 0
    else return (-eNoMem, [])
  else return (-eInval, [])

/-- The bytes of a file from a position on. -/
def slice (f : Sfs.File) (pos n : ℕ) : List ℕ :=
    (List.range n).map fun i => (f.byte (pos + i)).toNat

theorem slice_add (f : Sfs.File) (pos n m : ℕ) :
    slice f pos (n + m) = slice f pos n ++ slice f (pos + n) m := by
  simp [slice, List.range_add, Function.comp_def, add_assoc]

/-- `user_mem_check` accepts every part of the buffer that the loop has bytes for, when the file has
`size` bytes and is read from `pos` on. -/
def accepts (size : ℕ) : ℕ → Mm → ℕ → ℕ → ℕ → Bool
  | 0, _, _, _, _ => true
  | n + 1, mm, pos, base, len =>
    let m := min (min iobufSize len) (size - pos)
    if m = 0 then true
    else
      match checkAreas mm base m true with
      | some (true, mm) => accepts size n mm (pos + m) (base + m) (len - m)
      | _ => false

/-- The file system `F` does what the files of the kernel do for the process with the table
`cur`. -/
structure Follows (cur : ℕ) (F : Files Vfs.Kernel) : Prop where
  kmalloc : ∀ n k, Vfs.kmalloc k = .ok (F.kmalloc n k)
  testfd : ∀ fd k b k', Vfs.fileTestfd cur fd true false k = .ok (b, k') →
    F.fileTestfd fd true false k = b ∧ k' = k
  read : ∀ fd n k ret alen buf k', Vfs.fileRead cur fd Sfs.zeros n k = .ok ((ret, alen, buf), k') →
    F.fileRead fd n k = (ret, (List.range alen).map fun i => (buf i).toNat, k')

section Follows

variable {F : Files Vfs.Kernel} {cur n base len copied : ℕ} {fd : ℤ} {s t : Ctx Vfs.Kernel}

theorem fsCall_eq_done {α : Type} {m : Vfs.Prog α} {a : α} (h : fsCall m s = .done a t) :
    ∃ k, m s.fs = .ok (a, k) ∧ t = { s with fs := k } := by
  unfold fsCall at h
  split at h
  · rename_i b k hm
    cases h
    exact ⟨k, hm, rfl⟩
  · cases h

/-- The loop over the files of the kernel is the loop over any file system that follows them. -/
theorem readParts_follows (hF : Follows cur F) {r : ℤ × List ℕ}
    (h : readParts cur fd n base len copied s = .done r t) :
    F.readLoop fd n base len copied s = .done r.1 t := by
  induction n generalizing base len copied s r with
  | zero =>
    cases h
    rfl
  | succ n ih =>
    unfold readParts at h
    unfold Files.readLoop
    by_cases hl : len = 0
    · rw [if_pos hl] at h ⊢
      cases h
      rfl
    rw [if_neg hl] at h ⊢
    obtain ⟨⟨ret, bytes⟩, u, hpart, h⟩ := Program.bind_eq_done h
    obtain ⟨⟨ret', alen, buf⟩, v, hcall, hpart⟩ := Program.bind_eq_done hpart
    obtain ⟨k, hread, rfl⟩ := fsCall_eq_done hcall
    cases hpart
    have hfile := hF.read _ _ _ _ _ _ _ hread
    have hstep : (Files.call fun fs =>
        (((F.fileRead fd (min iobufSize len) fs).1, (F.fileRead fd (min iobufSize len) fs).2.1),
          (F.fileRead fd (min iobufSize len) fs).2.2)) s =
        .done (ret, (List.range alen).map fun i => (buf i).toNat) { s with fs := k } := by
      unfold Files.call
      dsimp only
      rw [hfile]
    refine (Program.bind_done hstep).trans ?_
    dsimp only at h ⊢
    by_cases hb : ((List.range alen).map fun i => (buf i).toNat) = []
    · rw [if_pos hb] at h ⊢
      cases h
      rfl
    rw [if_neg hb] at h ⊢
    obtain ⟨ok, w, hdeliver, h⟩ := Program.bind_eq_done h
    refine (Program.bind_done hdeliver).trans ?_
    cases ok with
    | false =>
      cases h
      rfl
    | true =>
      rw [if_pos rfl] at h ⊢
      by_cases hret : ret ≠ 0
      · rw [if_pos hret] at h ⊢
        cases h
        rfl
      · rw [if_neg hret] at h ⊢
        obtain ⟨⟨r', l⟩, x, hrest, h⟩ := Program.bind_eq_done h
        cases h
        exact ih (r := (r', l)) hrest

/-- `sysfile_read` over the files of the kernel is the one over any file system that follows
them. -/
theorem sysfileRead_follows (hF : Follows cur F) {r : ℤ × List ℕ}
    (h : sysfileRead cur fd base len s = .done r t) :
    F.sysfileRead fd base len s = .done r.1 t := by
  unfold sysfileRead at h
  unfold Files.sysfileRead
  by_cases hl : len = 0
  · rw [if_pos hl] at h ⊢
    cases h
    rfl
  rw [if_neg hl] at h ⊢
  obtain ⟨b, u, htest, h⟩ := Program.bind_eq_done h
  obtain ⟨k, hk, rfl⟩ := fsCall_eq_done htest
  obtain ⟨hb, rfl⟩ := hF.testfd _ _ _ _ hk
  have hget : (Program.get : Program (Ctx Vfs.Kernel) _) s = .done s s := rfl
  refine (Program.bind_done hget).trans ?_
  rw [hb]
  cases b with
  | false =>
    cases h
    rfl
  | true =>
    rw [if_pos rfl] at h
    rw [if_neg (by simp)]
    obtain ⟨b, u, halloc, h⟩ := Program.bind_eq_done h
    obtain ⟨k, hk, rfl⟩ := fsCall_eq_done halloc
    have hk := Except.ok.inj ((hF.kmalloc iobufSize s.fs).symm.trans hk)
    have hcall : Files.call (F.kmalloc iobufSize) s = .done b { s with fs := k } := by
      unfold Files.call
      rw [hk]
    refine (Program.bind_done hcall).trans ?_
    cases b with
    | false =>
      cases h
      rfl
    | true =>
      rw [if_pos rfl] at h ⊢
      exact readParts_follows hF h

end Follows
section Rounds

variable {s t : Ctx Vfs.Kernel} {mm : Mm} {ino p cur pos n base len copied : ℕ} {fd : ℤ}
    {f : Sfs.File}
  {fm : ℕ → Bool} {r : ℤ} {bytes : List ℕ}

/-- A process without a call under way has the descriptor `fd` on the file. -/
structure Reader (ino p : ℕ) (f : Sfs.File) (fm : ℕ → Bool) (cur : ℕ) (fd : ℤ) (pos : ℕ) (mm : Mm)
    (s : Ctx Vfs.Kernel) : Prop where
  opened : Vfs.Opened ino p f fm cur fd pos s.fs
  idle : Idle s mm

theorem readPart_eq (h : Reader ino p f fm cur fd pos mm s) (hr : s.fs.readable cur fd = true)
    (hn : n ≤ iobufSize) : ∃ ret t, readPart cur fd n s =
      .done (ret, slice f pos (min n (f.size - pos))) t ∧
        Reader ino p f fm cur fd (pos + min n (f.size - pos)) mm t ∧ t.fs.readable cur fd = true ∧
        (ret = 0 ∨ min n (f.size - pos) = 0 ∧ ret < 0) := by
  obtain ⟨ret, m, buf, k, hrun, ho, hr', rfl, hret, hbytes⟩ := h.opened.read Sfs.zeros hr hn
  have hcall : fsCall (Vfs.fileRead cur fd Sfs.zeros n) s =
      .done (ret, min n (f.size - pos), buf) { s with fs := k } := by
    unfold fsCall
    rw [hrun]
  have hslice : ((List.range (min n (f.size - pos))).map fun i => (buf i).toNat) =
      slice f pos (min n (f.size - pos)) :=
    List.map_congr_left fun i hi => by rw [hbytes i (List.mem_range.mp hi)]
  refine ⟨ret, { s with fs := k }, ?_, ⟨ho, h.idle.setFs k⟩, hr', hret⟩
  refine Eq.trans (Program.bind_done hcall) ?_
  dsimp only
  rw [hslice]
  rfl

/-- What the loop returns, which bytes the process gets, and that the position moves by as many
exactly when all parts of the buffer are accepted. -/
theorem readParts_spec (hlen : len < n) (h : Reader ino p f fm cur fd pos mm s)
    (hr : s.fs.readable cur fd = true)
    (hrun : readParts cur fd n base len copied s = .done (r, bytes) t) :
    ∃ pos' mm', Reader ino p f fm cur fd pos' mm' t ∧ t.fs.readable cur fd = true ∧
      bytes = slice f pos bytes.length ∧
        (∃ e ≤ 0, r = Files.transferred (copied + bytes.length) e) ∧
      (pos' = pos + bytes.length ↔ accepts f.size n mm pos base len = true) := by
  induction n generalizing s mm pos base len copied r bytes with
  | zero => omega
  | succ n ih =>
    obtain ⟨m, hm⟩ : ∃ m, m = min (min iobufSize len) (f.size - pos) := ⟨_, rfl⟩
    have haccepts : accepts f.size (n + 1) mm pos base len = if m = 0 then true else
        match checkAreas mm base m true with
        | some (true, mm) => accepts f.size n mm (pos + m) (base + m) (len - m)
        | _ => false := by
      rw [hm]
      rfl
    rw [haccepts]
    unfold readParts at hrun
    by_cases hl : len = 0
    · rw [if_pos hl] at hrun
      cases hrun
      rw [if_pos (by omega)]
      exact ⟨pos, mm, h, hr, rfl, ⟨0, le_rfl, rfl⟩, by simp⟩
    rw [if_neg hl] at hrun
    obtain ⟨a, u, hpart, hrun⟩ := Program.bind_eq_done hrun
    obtain ⟨ret, u', hpart', hu, hru, hret⟩ := readPart_eq h hr (min_le_left iobufSize len)
    rw [hpart'] at hpart
    cases hpart
    rw [← hm] at hu hret hrun
    dsimp only at hrun
    by_cases hzero : m = 0
    · -- the file has no bytes left
      rw [if_pos hzero]
      subst hzero
      rw [if_pos (by rfl)] at hrun
      cases hrun
      refine ⟨pos, mm, hu, hru, rfl, ⟨ret, ?_, rfl⟩, by simp⟩
      omega
    rw [if_neg hzero]
    obtain rfl : ret = 0 := by omega
    have hlength : (slice f pos m).length = m := by simp [slice]
    have hne : slice f pos m ≠ [] := fun hnil => hzero (by rw [← hlength, hnil]; rfl)
    rw [if_neg hne] at hrun
    obtain ⟨ok, v, hdeliver, hrun⟩ := Program.bind_eq_done hrun
    have hlt : (slice f pos m).length < 2 ^ 64 := by
      have hio : iobufSize = 4096 := rfl
      rw [hlength]
      omega
    obtain ⟨mm', hcheck, hidle, hfs⟩ := (deliver_uses hu.idle base hlt).of_done hdeliver
    rw [hlength] at hcheck hrun
    rw [hcheck]
    have hv : Reader ino p f fm cur fd (pos + m) mm' v := ⟨by rw [hfs]; exact hu.opened, hidle⟩
    have hrv : v.fs.readable cur fd = true := by rw [hfs]; exact hru
    cases ok with
    | false =>
      cases hrun
      refine ⟨pos + m, mm', hv, hrv, rfl, ⟨-eInval, by decide, rfl⟩, ?_⟩
      simp [hzero]
    | true =>
      rw [if_pos rfl, if_neg (by simp)] at hrun
      obtain ⟨⟨r', l⟩, w, hrest, hrun⟩ := Program.bind_eq_done hrun
      cases hrun
      obtain ⟨pos', mm'', hw, hrw, hbytes, ⟨e, he, hres⟩, hiff⟩ := ih (by omega) hv hrv hrest
      have hall : (slice f pos m ++ l).length = m + l.length := by rw [List.length_append, hlength]
      refine ⟨pos', mm'', hw, hrw, ?_, ⟨e, he, ?_⟩, ?_⟩
      · rw [hall, slice_add, ← hbytes]
      · rw [hall, hres, add_assoc]
      · rw [hall, ← add_assoc]
        exact hiff

theorem Reader.position (h : Reader ino p f fm cur fd pos mm s) : s.fs.position cur fd = pos :=
  h.opened.position

/-- The condition under which a call loses nothing: it does not come to its loop, or
`user_mem_check` accepts every part of the buffer that the loop has bytes for. -/
def Accepted (f : Sfs.File) (cur : ℕ) (fd : ℤ) (s : Ctx Vfs.Kernel) (base len : ℕ) : Prop :=
  s.fs.readable cur fd = false ∨ s.fs.kmallocs.headD true = false ∨
    ∀ mm, s.mm = some mm → accepts f.size (len + 1) mm (s.fs.position cur fd).toNat base len = true

/-- The position moves by the bytes that the process gets, which are as many as the call returns. -/
structure Exact (cur : ℕ) (fd : ℤ) (s : Ctx Vfs.Kernel) (r : ℤ) (bytes : List ℕ)
    (t : Ctx Vfs.Kernel) :
    Prop where
  position : t.fs.position cur fd = s.fs.position cur fd + bytes.length
  returned : 0 ≤ r → r = bytes.length
  failed : r < 0 → bytes = []

theorem sysfileRead_spec (h : Reader ino p f fm cur fd pos mm s)
    (hrun : sysfileRead cur fd base len s = .done (r, bytes) t) :
    ∃ pos' mm', Reader ino p f fm cur fd pos' mm' t ∧ bytes = slice f pos bytes.length ∧
      (∃ e ≤ 0, r = Files.transferred bytes.length e) ∧
      (pos' = pos + bytes.length ↔ Accepted f cur fd s base len) := by
  have hnone : ∀ {e : ℤ}, e ≤ 0 → ∃ e' ≤ 0, e = Files.transferred ([] : List ℕ).length e' :=
    fun he => ⟨_, he, rfl⟩
  have haccepted : accepts f.size (len + 1) mm pos base len = true →
    Accepted f cur fd s base len := by
    intro ha
    refine .inr (.inr fun mm' hmm => ?_)
    obtain rfl := Option.some.inj (h.idle.1.1.symm.trans hmm)
    rw [h.position, Int.toNat_natCast]
    exact ha
  unfold sysfileRead at hrun
  by_cases hl : len = 0
  · rw [if_pos hl] at hrun
    cases hrun
    refine ⟨pos, mm, h, rfl, hnone le_rfl, iff_of_true rfl (haccepted ?_)⟩
    subst hl
    simp [accepts]
  rw [if_neg hl] at hrun
  have htest : fsCall (Vfs.fileTestfd cur fd true false) s = .done (s.fs.readable cur fd) s := by
    unfold fsCall
    rw [h.opened.testfd]
  rw [Program.bind_done htest] at hrun
  cases hr : s.fs.readable cur fd with
  | false =>
    rw [hr, if_neg (by simp)] at hrun
    cases hrun
    exact ⟨pos, mm, h, rfl, hnone (by decide), iff_of_true rfl (.inl hr)⟩
  | true =>
    rw [hr, if_pos rfl] at hrun
    obtain ⟨k, hk⟩ : ∃ k : Vfs.Kernel, k = { s.fs with kmallocs := s.fs.kmallocs.tail } := ⟨_, rfl⟩
    have hmalloc : fsCall Vfs.kmalloc s = .done (s.fs.kmallocs.headD true) { s with fs := k } := by
      rw [hk]
      rfl
    rw [Program.bind_done hmalloc] at hrun
    have hread : Reader ino p f fm cur fd pos mm { s with fs := k } := by
      have ho := h.opened
      refine ⟨?_, h.idle.setFs k⟩
      rw [hk]
      exact ⟨ho.calm, ho.reliable, ho.size, ho.range, ho.width, ho.node, ho.entry⟩
    have hrk : k.readable cur fd = true := by
      rw [hk]
      exact hr
    cases hm : s.fs.kmallocs.headD true with
    | false =>
      rw [hm, if_neg (by simp)] at hrun
      cases hrun
      exact ⟨pos, mm, hread, rfl, hnone (by decide), iff_of_true rfl (.inr (.inl hm))⟩
    | true =>
      rw [hm, if_pos rfl] at hrun
      obtain ⟨pos', mm', ht, -, hbytes, ⟨e, he, hres⟩, hiff⟩ :=
        readParts_spec (Nat.lt_succ_self len) hread hrk hrun
      rw [Nat.zero_add] at hres
      refine ⟨pos', mm', ht, hbytes, ⟨e, he, hres⟩, hiff.trans ⟨haccepted, ?_⟩⟩
      rintro (hx | hx | hx)
      · rw [hr] at hx
        cases hx
      · rw [hm] at hx
        cases hx
      · have ha := hx mm h.idle.1.1
        rwa [h.position, Int.toNat_natCast] at ha

/-- What happens to the descriptor: a call of `sysfile_read` through it, or anything else. -/
inductive ReadEvent
  | read (base len : ℕ) (r : ℤ) (bytes : List ℕ)
  | other

/-- A call that loses nothing, or something that keeps the file and the position. -/
def ReadStep (ino p : ℕ) (f : Sfs.File) (fm : ℕ → Bool) (cur : ℕ) (fd : ℤ) (s : Ctx Vfs.Kernel) :
    ReadEvent → Ctx Vfs.Kernel → Prop
  | .read base len r bytes, t =>
    sysfileRead cur fd base len s = .done (r, bytes) t ∧ Accepted f cur fd s base len
  | .other, t => ∀ pos mm, Reader ino p f fm cur fd pos mm s → ∃ mm',
    Reader ino p f fm cur fd pos mm' t

/-- The bytes that the process gets, one call after another. -/
def delivered (l : List ReadEvent) : List ℕ := l.flatMap fun
  | .read _ _ _ bytes => bytes
  | .other => []

theorem ReadStep.reader {e : ReadEvent} (hs : ReadStep ino p f fm cur fd s e t)
    (h : Reader ino p f fm cur fd pos mm s) :
    ∃ mm', Reader ino p f fm cur fd (pos + (delivered [e]).length) mm' t ∧
      delivered [e] = slice f pos (delivered [e]).length := by
  cases e with
  | other =>
    obtain ⟨mm', ht⟩ := hs pos mm h
    exact ⟨mm', ht, rfl⟩
  | read base len r bytes =>
    obtain ⟨hrun, ha⟩ := hs
    obtain ⟨pos', mm', ht, hbytes, -, hiff⟩ := sysfileRead_spec h hrun
    have hone : delivered [.read base len r bytes] = bytes := List.append_nil _
    rw [hone]
    obtain rfl := hiff.mpr ha
    exact ⟨mm', ht, hbytes⟩

theorem Reader.run {l : List ReadEvent} (h : Reader ino p f fm cur fd pos mm s)
    (hrun : Runs (ReadStep ino p f fm cur fd) s l t) :
    ∃ mm', Reader ino p f fm cur fd (pos + (delivered l).length) mm' t ∧
      delivered l = slice f pos (delivered l).length := by
  induction hrun generalizing pos mm with
  | nil s => exact ⟨mm, h, rfl⟩
  | @cons s u t e l hs hrest ih =>
    obtain ⟨mm', hu, hfirst⟩ := hs.reader h
    obtain ⟨mm'', ht, hothers⟩ := ih hu
    have hcons : delivered (e :: l) = delivered [e] ++ delivered l := by simp [delivered]
    rw [hcons, List.length_append, slice_add, ← hfirst, ← hothers, ← add_assoc]
    exact ⟨mm'', ht, rfl⟩

/-- A process that has the file of one block open. -/
def oneReader : Ctx Vfs.Kernel where
  mem := firstMapped.mem
  mm := some twoPages
  mmSem := 1
  kmem _ := 0
  fs := Vfs.oneReader

end Rounds

end UCore.UserMem

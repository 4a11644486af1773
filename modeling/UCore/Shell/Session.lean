import UCore.Shell.Runs

/-! # The session of the shell

The model of `readline` and of the loop of `main` of `user/sh.c`. The characters of a line go into a
static buffer, on top of what the lines before have left there. A session runs the lines of its
input in order, as the terminal shows them.
-/

namespace UCore.Shell

open Library

/-- The end of a call of `readline`: whether it returns the buffer and not `NULL`, the buffer, the
input that is left and the characters that were echoed. -/
structure Line where
  found : Bool
  buffer : Str
  rest : Str
  echo : Str

/-- The loop of `readline`. At the end of the input `read` returns 0, or an error if it has failed.
A `char` is unsigned. -/
def readLoop (failed : Bool) : Str → Str → ℕ → Line
  | [], buffer, i =>
    if failed then ⟨false, buffer, [], []⟩
    else if 0 < i then ⟨true, buffer.set i 0, [], []⟩
    else ⟨false, buffer, [], []⟩
  | c :: s, buffer, i =>
    if c = 3 then ⟨false, buffer, s, []⟩
    else if 32 ≤ c ∧ i < bufsize - 1 then
      let line := readLoop failed s (buffer.set i c) (i + 1)
      { line with echo := c :: line.echo }
    else if c = 8 ∧ 0 < i then
      let line := readLoop failed s buffer (i - 1)
      { line with echo := c :: line.echo }
    else if c = 10 ∨ c = 13 then ⟨true, buffer.set i 0, s, [c]⟩
    else readLoop failed s buffer i

def readline (failed : Bool) (input buffer : Str) : Line := readLoop failed input buffer 0

/-- One turn of the loop of `main`: the echo, the line on which the child calls `runcmd`, and the
exit code that is printed if it is not 0. -/
structure Turn where
  prompt : Bool
  echo : Str
  line : Option Str
  error : Option ℤ

/-- The loop of `main`, at most `n` times: the result is `none` if that was not enough. Every `fork`
succeeds, and `wait k` is what `waitpid` returns for the child `k` and the exit code that it stores.
No exit code changes with `shcwd`. -/
def mainLoop (failed interactive : Bool) (wait : ℕ → ℤ × ℤ) : ℕ → Str → Str → ℕ → Option (List Turn)
  | 0, _, _, _ => none
  | n + 1, input, buffer, k =>
    let line := readline failed input buffer
    if line.found then
      let ret := (wait k).2
      let error := if (wait k).1 = 0 ∧ ret ≠ 0 then some ret else none
      (mainLoop failed interactive wait n line.rest line.buffer (k + 1)).map
        (⟨interactive, line.echo, some (cstr line.buffer 0), error⟩ :: ·)
    else some [⟨interactive, line.echo, none, none⟩]

/-- A session with the buffer as it is at the start. -/
def session (failed interactive : Bool) (wait : ℕ → ℤ × ℤ) (input : Str) : Option (List Turn) :=
  mainLoop failed interactive wait (input.length + 1) input (List.replicate bufsize 0) 0

/-- A character typed at the end of a text. -/
def edit (text : Str) (c : UInt8) : Str :=
  if c = 8 then text.dropLast
  else if 32 ≤ c ∧ text.length < bufsize - 1 then text ++ [c]
  else text

def typed (s : Str) : Str := s.foldl edit []

def isLineEnd (c : UInt8) : Bool := c = 10 ∨ c = 13

/-- The texts of which each is a line. The last one is not ended, and is no line if it is empty or
the input is cut off. -/
def close (cut : Bool) : List Str → List Str
  | [] => []
  | [t] => if cut ∨ t = [] then [] else [t]
  | t :: ts => t :: close cut ts

/-- The lines of an input, up to the first `Ctrl-C`. -/
def lines (failed : Bool) (input : Str) : List Str :=
  close (failed || (3 ∈ input : Bool)) (((input.takeWhile (· ≠ 3)).splitOnP isLineEnd).map typed)

section Edit

variable {t : Str} {c : UInt8}

theorem edit_of_le (h : 32 ≤ c) :
    edit t c = if t.length < bufsize - 1 then t ++ [c] else t := by
  have hc : c ≠ 8 := by
    rintro rfl
    exact absurd h (by decide)
  simp only [edit, if_neg hc, h, true_and]

theorem edit_of_not_le (h : ¬ 32 ≤ c) (h8 : c ≠ 8) : edit t c = t := by
  rw [edit, if_neg h8, if_neg fun hc => h hc.1]

theorem isLineEnd_of_le (h : 32 ≤ c) : isLineEnd c = false := by
  rw [Bool.eq_false_iff]
  intro he
  rcases of_decide_eq_true he with rfl | rfl <;> exact absurd h (by decide)

/-- What fits into the buffer. -/
structure Fits (t : Str) : Prop where
  length : t.length < bufsize
  chars : ∀ c ∈ t, 32 ≤ c

theorem Fits.nil : Fits [] := ⟨by decide, nofun⟩

theorem Fits.edit (h : Fits t) : Fits (edit t c) := by
  unfold Shell.edit
  split
  · refine ⟨?_, fun c hc => h.chars c (List.dropLast_subset _ hc)⟩
    have := h.length
    rw [List.length_dropLast]
    omega
  · split
    · rename_i hc
      refine ⟨?_, fun d hd => ?_⟩
      · have := hc.2
        rw [List.length_append, List.length_singleton]
        omega
      · rcases List.mem_append.mp hd with hd | hd
        · exact h.chars d hd
        · rw [List.mem_singleton.mp hd]
          exact hc.1
    · exact h

theorem Fits.zero_not_mem (h : Fits t) : 0 ∉ t := fun h0 => absurd (h.chars 0 h0) (by decide)

end Edit

/-- One line of the input: the text so far, the input, the line if it is one, and the rest. -/
inductive Reads (failed : Bool) : Str → Str → Option Str → Str → Prop
  | interrupt {t s : Str} : Reads failed t (3 :: s) none s
  | newline {t s : Str} {c : UInt8} : c ≠ 3 → isLineEnd c = true →
    Reads failed t (c :: s) (some t) s
  | eof {t : Str} : Reads failed t [] (if failed ∨ t = [] then none else some t) []
  | char {t s rest : Str} {c : UInt8} {line : Option Str} : c ≠ 3 → isLineEnd c = false →
      Reads failed (edit t c) s line rest → Reads failed t (c :: s) line rest

section Reads

variable {failed : Bool} {t s rest line : Str} {c : UInt8} {o : Option Str}

theorem Reads.fits (h : Reads failed t s o rest) (hf : Fits t) (ho : o = some line) :
    Fits line := by
  induction h with
  | interrupt => cases ho
  | newline =>
    obtain rfl := Option.some.inj ho
    exact hf
  | eof =>
    split at ho
    · cases ho
    · obtain rfl := Option.some.inj ho
      exact hf
  | char _ _ _ ih => exact ih hf.edit ho

theorem Reads.length_le (h : Reads failed t s o rest) : rest.length ≤ s.length := by
  induction h with
  | interrupt => exact Nat.le_succ _
  | newline => exact Nat.le_succ _
  | eof => exact le_rfl
  | char _ _ _ ih => exact ih.trans (Nat.le_succ _)

theorem Reads.length_lt (h : Reads failed t s o rest) (ht : t = []) (ho : o = some line) :
    rest.length < s.length := by
  cases h with
  | interrupt => cases ho
  | newline => exact Nat.lt_succ_self _
  | eof =>
    rw [if_pos (.inr ht)] at ho
    cases ho
  | char _ _ h => exact Nat.lt_succ_of_le h.length_le

/-- The texts of the parts of an input, where `t` is the text before the first one. -/
def textsFrom (t : Str) : List Str → List Str
  | [] => []
  | p :: ps => p.foldl edit t :: ps.map typed

theorem textsFrom_nil {ps : List Str} : textsFrom [] ps = ps.map typed := by
  cases ps <;> rfl

theorem textsFrom_modifyHead {ps : List Str} :
    textsFrom t (ps.modifyHead (c :: ·)) = textsFrom (edit t c) ps := by
  cases ps <;> rfl

theorem close_cons {cut : Bool} {ts : List Str} (h : ts ≠ []) :
    close cut (t :: ts) = t :: close cut ts := by
  cases ts with
  | nil => exact absurd rfl h
  | cons u us => rfl

theorem mem_cons_interrupt (h : c ≠ 3) : ((3 ∈ c :: s : Bool)) = ((3 ∈ s : Bool)) := by
  rw [Bool.eq_iff_iff]
  simp [Ne.symm h]

theorem Reads.lines_eq (h : Reads failed t s o rest) :
    close (failed || (3 ∈ s : Bool)) (textsFrom t ((s.takeWhile (· ≠ 3)).splitOnP isLineEnd)) =
      o.elim [] fun line => line :: lines failed rest := by
  induction h with
  | interrupt => simp [textsFrom, close]
  | @newline t s c hc he =>
    rw [List.takeWhile_cons_of_pos (by simpa using hc), List.splitOnP_cons_eq_if_modifyHead,
      if_pos he, mem_cons_interrupt hc]
    exact close_cons (by simp)
  | @eof t =>
    by_cases ht : failed ∨ t = []
    · rw [if_pos ht]
      simpa [textsFrom, close, or_iff_not_imp_left] using ht
    · rw [if_neg ht]
      simpa [textsFrom, close, lines, typed] using ht
  | @char t s rest c o hc he _ ih =>
    rw [List.takeWhile_cons_of_pos (by simpa using hc), List.splitOnP_cons_eq_if_modifyHead,
      if_neg (by rw [he]; exact Bool.false_ne_true), mem_cons_interrupt hc, textsFrom_modifyHead]
    exact ih

theorem Fits.reads (h : Fits (t ++ line)) :
    Reads failed t (line ++ 10 :: s) (some (t ++ line)) s := by
  induction line generalizing t with
  | nil =>
    rw [List.append_nil]
    exact .newline (by decide) rfl
  | cons c line ih =>
    have hc : 32 ≤ c := h.chars c (by simp)
    have hlt : t.length < bufsize - 1 := by
      have := h.length
      rw [List.length_append, List.length_cons] at this
      omega
    have h3 : c ≠ 3 := by
      rintro rfl
      exact absurd hc (by decide)
    refine .char h3 (isLineEnd_of_le hc) ?_
    rw [edit_of_le hc, if_pos hlt]
    rw [List.append_cons t c line] at h ⊢
    exact ih h

theorem lines_script {ls : List Str} (h : ∀ t ∈ ls, Fits t) :
    lines failed (ls.flatMap (· ++ [10])) = ls := by
  induction ls with
  | nil => simp [lines, close, typed]
  | cons t ls ih =>
    rw [List.forall_mem_cons] at h
    have hr : Reads failed [] (t ++ 10 :: ls.flatMap (· ++ [10])) (some t) _ := h.1.reads (t := [])
    have hl := hr.lines_eq
    rw [textsFrom_nil] at hl
    rw [List.flatMap_cons, List.append_assoc]
    refine hl.trans (congrArg (t :: ·) (ih h.2))

end Reads

section Loop

variable {t buffer : Str} {c : UInt8} {i : ℕ}

/-- The first `i` characters of the buffer are the text of the line so far. -/
structure Holds (buffer : Str) (i : ℕ) (t : Str) : Prop where
  length : buffer.length = bufsize
  lt : i < bufsize
  take : buffer.take i = t
  fits : Fits t

theorem Holds.length_text (h : Holds buffer i t) : t.length = i := by
  rw [← h.take, List.length_take, h.length]
  exact Nat.min_eq_left h.lt.le

theorem Holds.cstr (h : Holds buffer i t) : cstr (buffer.set i 0) 0 = t := by
  have hi : i < buffer.length := by
    rw [h.length]
    exact h.lt
  rw [List.set_eq_take_append_cons_drop, if_pos hi, h.take]
  exact cstr_append (u := []) (r := 0 :: buffer.drop (i + 1)) h.fits.zero_not_mem fun c hc =>
    (Option.some.inj hc).symm

theorem Holds.insert (h : Holds buffer i t) (hc : 32 ≤ c) (hi : i < bufsize - 1) :
    edit t c = t ++ [c] ∧ Holds (buffer.set i c) (i + 1) (t ++ [c]) := by
  have he : edit t c = t ++ [c] := by
    rw [edit_of_le hc, h.length_text, if_pos hi]
  refine ⟨he, by rw [List.length_set]; exact h.length, by omega,
    ?_, by rw [← he]; exact h.fits.edit⟩
  have hlt : i < (buffer.set i c).length := by
    rw [List.length_set, h.length]
    exact h.lt
  rw [← List.take_append_getElem hlt, List.getElem_set_self, List.take_set_of_le le_rfl, h.take]

theorem Holds.delete (h : Holds buffer i t) : edit t 8 = t.dropLast ∧
    Holds buffer (i - 1) t.dropLast := by
  have he : edit t 8 = t.dropLast := if_pos rfl
  refine ⟨he, h.length, by have := h.lt; omega, ?_, by rw [← he]; exact h.fits.edit⟩
  rw [← h.take, List.dropLast_take (by rw [h.length]; exact h.lt)]

/-- The loop reads one line of the input. -/
theorem readLoop_reads (failed : Bool) (s : Str) (h : Holds buffer i t) :
    (readLoop failed s buffer i).buffer.length = bufsize ∧
      Reads failed t s
        (if (readLoop failed s buffer i).found then
          some (Shell.cstr (readLoop failed s buffer i).buffer 0) else none)
        (readLoop failed s buffer i).rest ∧
      ((readLoop failed s buffer i).found = true →
        (readLoop failed s buffer i).echo.foldl edit t =
          Shell.cstr (readLoop failed s buffer i).buffer 0) := by
  induction s generalizing buffer i t with
  | nil =>
    simp only [readLoop]
    have heof : Reads failed t [] (if failed ∨ t = [] then none else some t) [] := .eof
    have ht : t = [] ↔ i = 0 := by rw [← h.length_text, List.length_eq_zero_iff]
    split
    · rename_i hf
      rw [if_pos (.inl hf)] at heof
      exact ⟨h.length, heof, nofun⟩
    · rename_i hf
      split
      · rename_i hi
        have hend : ¬ (failed = true ∨ i = 0) := by
          rintro (hf' | rfl)
          exacts [hf hf', absurd hi (lt_irrefl _)]
        rw [if_neg (by rwa [ht])] at heof
        refine ⟨by rw [List.length_set]; exact h.length, ?_, fun _ => h.cstr.symm⟩
        change Reads failed t [] (some (Shell.cstr (buffer.set i 0) 0)) []
        rw [h.cstr]
        exact heof
      · rw [if_pos (.inr (ht.mpr (by omega)))] at heof
        exact ⟨h.length, heof, nofun⟩
  | cons c s ih =>
    simp only [readLoop]
    split
    · rename_i h3
      subst h3
      exact ⟨h.length, .interrupt, nofun⟩
    · rename_i h3
      split
      · rename_i hc
        obtain ⟨he, hh⟩ := h.insert hc.1 hc.2
        obtain ⟨hb, hr, hecho⟩ := ih hh
        rw [← he] at hr hecho
        exact ⟨hb, .char h3 (isLineEnd_of_le hc.1) hr, hecho⟩
      · rename_i hc
        split
        · rename_i h8
          obtain ⟨rfl, hi⟩ := h8
          obtain ⟨he, hh⟩ := h.delete
          obtain ⟨hb, hr, hecho⟩ := ih hh
          rw [← he] at hr hecho
          exact ⟨hb, .char h3 (by decide) hr, hecho⟩
        · rename_i h8
          split
          · rename_i he
            have hsame : edit t c = t := by
              rcases he with rfl | rfl <;> exact edit_of_not_le (by decide) (by decide)
            refine ⟨by rw [List.length_set]; exact h.length, ?_, fun _ => hsame.trans h.cstr.symm⟩
            change Reads failed t (c :: s) (some (Shell.cstr (buffer.set i 0) 0)) s
            rw [h.cstr]
            exact .newline h3 (decide_eq_true he)
          · rename_i he
            -- the buffer is full, there is nothing to delete, or it is another control character
            have hsame : edit t c = t := by
              by_cases hle : 32 ≤ c
              · rw [edit_of_le hle, if_neg (by rw [h.length_text]; exact fun hi => hc ⟨hle, hi⟩)]
              · by_cases hb : c = 8
                · have hi : i = 0 := Nat.eq_zero_of_not_pos fun hi => h8 ⟨hb, hi⟩
                  have ht : t = [] := by rw [← List.length_eq_zero_iff, h.length_text, hi]
                  rw [ht, hb]
                  rfl
                · exact edit_of_not_le hle hb
            obtain ⟨hb, hr, hecho⟩ := ih h
            rw [← hsame] at hr
            exact ⟨hb, .char h3 (decide_eq_false he) hr, hecho⟩

theorem readline_reads (failed : Bool) (s : Str) (hb : buffer.length = bufsize) :
    (readline failed s buffer).buffer.length = bufsize ∧
      Reads failed [] s
        (if (readline failed s buffer).found then some (cstr (readline failed s buffer).buffer 0)
          else none)
        (readline failed s buffer).rest ∧
      ((readline failed s buffer).found = true →
        typed (readline failed s buffer).echo = cstr (readline failed s buffer).buffer 0) :=
  readLoop_reads failed s ⟨hb, by decide, rfl, Fits.nil⟩

theorem mainLoop_lines (failed interactive : Bool) (wait : ℕ → ℤ × ℤ) (k : ℕ) {s : Str} {n : ℕ}
    (hn : s.length < n) (hb : buffer.length = bufsize) :
    ∃ l, mainLoop failed interactive wait n s buffer k = some l ∧
      l.filterMap Turn.line = lines failed s ∧
      ∀ x ∈ l, ∀ line, x.line = some line → typed x.echo = line ∧ Fits line := by
  induction n generalizing s buffer k with
  | zero => exact absurd hn (Nat.not_lt_zero _)
  | succ n ih =>
    obtain ⟨hb', hr, hecho⟩ := readline_reads failed s hb
    have hlines := hr.lines_eq
    rw [textsFrom_nil] at hlines
    simp only [mainLoop]
    by_cases hfound : (readline failed s buffer).found = true
    · rw [if_pos hfound] at hlines hr
      have hlt := hr.length_lt rfl rfl
      have hrest : (readline failed s buffer).rest.length < n := by omega
      obtain ⟨l, hl, hls, hall⟩ := ih (k + 1) hrest hb'
      rw [if_pos hfound, hl]
      refine ⟨_, rfl, ?_, ?_⟩
      · change _ :: l.filterMap Turn.line = _
        rw [hls]
        exact hlines.symm
      · rw [List.forall_mem_cons]
        refine ⟨fun line hline => ?_, hall⟩
        obtain rfl := Option.some.inj hline
        exact ⟨hecho hfound, hr.fits Fits.nil rfl⟩
    · rw [if_neg hfound] at hlines
      rw [if_neg hfound]
      refine ⟨_, rfl, hlines.symm, fun x hx line hline => ?_⟩
      rw [List.mem_singleton.mp hx] at hline
      cases hline

/-- A session runs the lines of its input in order, each as the terminal shows it, and every line
without a double quote by its tokens. -/
theorem session_lines (failed interactive : Bool) (wait : ℕ → ℤ × ℤ) (input : Str) :
    ∃ l, session failed interactive wait input = some l ∧
      l.filterMap Turn.line = lines failed input ∧
      ∀ x ∈ l, ∀ line, x.line = some line → typed x.echo = line ∧ Fits line ∧
        (34 ∉ line → ∀ p, runcmd p line = some <$> interp (· ++ ·) p (tokens line) []) := by
  obtain ⟨l, hl, hls, hall⟩ := mainLoop_lines failed interactive wait 0
    (Nat.lt_succ_self input.length) (List.length_replicate (a := 0))
  refine ⟨l, hl, hls, fun x hx line hline => ?_⟩
  obtain ⟨ht, hf⟩ := hall x hx line hline
  exact ⟨ht, hf, fun hq p => runcmd_eq hf.zero_not_mem hq⟩

end Loop

end UCore.Shell

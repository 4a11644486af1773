import UCore.Shell.Words

/-! # What the shell runs

A line is run with the words of its grammar, but the name of a file comes with the rest of the line.
-/

namespace UCore.Shell

open Library Library.Dialogue

variable {α β : Type} {f : α → β} {exit : ℤ → α} {p : ℤ × ℤ} {again again' run next next' : Prog α}
  {name name' line pre s : Str} {fd : ℤ} {flags n t : ℕ} {cmd : Option ℕ} {argv : List ℕ}
  {words : List Str}

section Cases

theorem onRedirect_map : f <$> onRedirect exit fd name flags next =
    onRedirect (f ∘ exit) fd name flags (f <$> next) := by
  unfold onRedirect
  simp only [map_bind, map_ite]
  rfl

theorem onPipe_map : f <$> onPipe exit p again run =
    onPipe (f ∘ exit) p (f <$> again) (f <$> run) := by
  unfold onPipe
  simp only [map_bind, map_ite]
  rfl

theorem onSemicolon_map : f <$> onSemicolon exit again run =
    onSemicolon (f ∘ exit) (f <$> again) (f <$> run) := by
  unfold onSemicolon
  simp only [map_bind, map_ite]
  rfl

theorem onRedirect_inj (h : onRedirect exit fd name flags next =
    onRedirect exit fd name' flags next') : name = name' := by
  unfold onRedirect reopen at h
  simp only [ask_bind, call_bind] at h
  have hopen := (call_inj ((call_inj h).2 0)).1
  injection hopen

theorem onPipe_inj (h : onPipe exit p again run = onPipe exit p again' run) : again = again' := by
  unfold onPipe at h
  simp only [ask_bind] at h
  have hchild := (call_inj h).2 0
  simp only [↓reduceIte] at hchild
  have hdup := (call_inj ((call_inj hchild).2 0)).2 0
  simp only [Int.lt_irrefl, ↓reduceIte] at hdup
  exact (call_inj ((call_inj hdup).2 0)).2 0

theorem onSemicolon_inj (h : onSemicolon exit again run = onSemicolon exit again' run) :
    again = again' := by
  unfold onSemicolon at h
  simp only [ask_bind] at h
  have hparent := (call_inj h).2 1
  simp only [Int.one_ne_zero, ↓reduceIte] at hparent
  exact (call_inj hparent).2 0

end Cases

theorem mem_symbols {c : UInt8} (h : strchr symbols c = true) :
    c = 60 ∨ c = 124 ∨ c = 62 ∨ c = 38 ∨ c = 59 := by
  simpa [strchr, symbols] using h

/-- The loop of `runcmd`. -/
theorem runLoop_eq (hn : s.length < n) (h : State line cmd argv words pre s) :
    runLoop p n line cmd t argv = some <$> interp (· ++ ·) p (tokens s) words := by
  induction n generalizing line cmd t argv words pre s with
  | zero => omega
  | succ n ih =>
    -- the state for the rest of the line
    have hnext : ∀ {pre' r argv' words' t'}, r.length < s.length → 0 ∉ r → 34 ∉ r →
        List.Forall₂ (Held pre' r) argv' words' →
        runLoop p n (pre' ++ r) (after pre' r) t' argv' =
          some <$> interp (· ++ ·) p (tokens r) words' := fun hr h0 hq hheld =>
      ih (by omega) ⟨rfl, after_cases, hheld, h0, hq⟩
    cases ht : nextToken s with
    | none =>
      obtain ⟨line', cmd', hg, hm⟩ := h.gettoken_none (t := t) ht
      rw [tokens_none ht, runLoop, hg]
      simp only [hm, interp]
      rfl
    | some y =>
      obtain ⟨x, r⟩ := y
      have hlt := length_lt_of_nextToken ht
      rw [tokens_some ht]
      cases x with
      | word w =>
        obtain ⟨pre', t', hg, -, hword, hcut, h0, hq⟩ := h.gettoken_word (t := t) ht
        have hargs := h.held.length_eq
        rw [runLoop, hg, interp]
        simp only [if_true, hargs, map_ite]
        split
        · rfl
        · refine hnext hlt h0 hq ?_
          exact List.rel_append (hcut.imp fun _ _ hw => hw.held) (.cons hword .nil)
      | symbol c =>
        obtain ⟨pre', t', hg, hsym, hcut, h0, hq⟩ := h.gettoken_symbol (t := t) ht
        have hheld := hcut.imp fun _ _ hw => hw.held
        have hagain : runLoop p n (pre' ++ r) (after pre' r) t' [] =
          some <$> interp (· ++ ·) p (tokens r) [] := hnext hlt h0 hq .nil
        have hmap := cstr_map hcut
        have hc : c ≠ 119 ∧ c ≠ 0 := by
          rcases mem_symbols hsym with rfl | rfl | rfl | rfl | rfl <;> decide
        rw [runLoop, hg, interp_symbol]
        simp only [hc.1, hc.2, if_false, hmap, hagain]
        by_cases hred : c = 60 ∨ c = 62
        · rw [if_pos hred, if_pos hred]
          have hst : State (pre' ++ r) (after pre' r) argv words pre' r :=
            ⟨rfl, after_cases, hheld, h0, hq⟩
          cases htr : nextToken r with
          | none =>
            obtain ⟨line', cmd', hg', -⟩ := hst.gettoken_none (t := t') htr
            rw [hg', tokens_none htr]
            rfl
          | some y =>
            obtain ⟨x, r'⟩ := y
            have hlt' := length_lt_of_nextToken htr
            rw [tokens_some htr]
            cases x with
            | symbol c' =>
              obtain ⟨pre'', t'', hg', hsym', -⟩ := hst.gettoken_symbol (t := t') htr
              have hc' : c' ≠ 119 := by
                rcases mem_symbols hsym' with rfl | rfl | rfl | rfl | rfl <;> decide
              rw [hg']
              simp only [hc', ne_eq, not_false_eq_true, if_true]
              rfl
            | word w =>
              obtain ⟨pre'', t'', hg', hname, -, hcut', h0', hq'⟩ := hst.gettoken_word (t := t') htr
              rw [hg']
              simp only [ne_eq, not_true_eq_false, if_false, hname, onRedirect_map]
              rw [hnext (hlt'.trans hlt) h0' hq' (hcut'.imp fun _ _ hw => hw.held)]
              rfl
        · rw [if_neg hred, if_neg hred]
          simp only [map_ite, onPipe_map, onSemicolon_map, Function.comp_id]
          rfl

theorem runcmd_eq (h0 : 0 ∉ line) (hq : 34 ∉ line) :
    runcmd p line = some <$> interp (· ++ ·) p (tokens line) [] :=
  runLoop_eq (Nat.lt_succ_self _) (.mk (List.nil_append line).symm (.inl rfl) .nil h0 hq)

/-- The name of a file is not its word alone, unless nothing follows. -/
theorem interp_exact_iff : ∀ {s : Str} {words : List Str},
    interp (· ++ ·) p (tokens s) words = interp (fun w _ => w) p (tokens s) words ↔
      FileEndsLine words.length (tokens s) := by
  intro s
  induction hs : s.length using Nat.strong_induction_on generalizing s with
  | _ k ih =>
    intro words
    cases ht : nextToken s with
    | none =>
      rw [tokens_none ht]
      exact iff_of_true rfl trivial
    | some y =>
      obtain ⟨x, r⟩ := y
      have hlt := length_lt_of_nextToken ht
      have hrest := fun words => @ih r.length (hs ▸ hlt) r rfl words
      rw [tokens_some ht]
      cases x with
      | word w =>
        rw [interp, interp, FileEndsLine]
        by_cases hfull : words.length = execMaxArgNum
        · rw [if_pos hfull, if_pos hfull]
          exact iff_of_true rfl (.inl hfull)
        · rw [if_neg hfull, if_neg hfull, hrest, List.length_append, List.length_singleton,
            or_iff_right hfull]
      | symbol c =>
        rw [interp_symbol, interp_symbol, fileEndsLine_symbol]
        by_cases hred : c = 60 ∨ c = 62
        · rw [if_pos hred, if_pos hred, if_pos hred]
          cases htr : nextToken r with
          | none =>
            rw [tokens_none htr]
            exact iff_of_true rfl trivial
          | some y =>
            obtain ⟨x, r'⟩ := y
            rw [tokens_some htr]
            cases x with
            | symbol c' => exact iff_of_true rfl trivial
            | word w =>
              constructor
              · intro h
                exact List.append_right_eq_self.mp (onRedirect_inj h)
              · rintro (rfl : r' = [])
                have hnil : tokens ([] : Str) = [] := rfl
                simp only [List.append_nil, hnil, interp]
        · rw [if_neg hred, if_neg hred, if_neg hred]
          by_cases hpipe : c = 124
          · rw [if_pos hpipe, if_pos hpipe, if_pos (.inl hpipe), ← @List.length_nil Str,
              ← hrest]
            exact ⟨onPipe_inj, fun h => by rw [h]⟩
          · rw [if_neg hpipe, if_neg hpipe]
            by_cases hsemi : c = 59
            · rw [if_pos hsemi, if_pos hsemi, if_pos (.inr hsemi), ← @List.length_nil Str,
                ← hrest]
              exact ⟨onSemicolon_inj, fun h => by rw [h]⟩
            · rw [if_neg hsemi, if_neg hsemi, if_neg (by rintro (h | h) <;> contradiction)]
              exact iff_of_true rfl trivial

/-- Every word is passed on as it is exactly when the first file name that is reached ends the
line. -/
theorem runcmd_exact_iff (p : ℤ × ℤ) (line : Str) (h0 : 0 ∉ line) (hq : 34 ∉ line) :
    runcmd p line = some <$> exactRun p line ↔ FileEndsLine 0 (tokens line) := by
  rw [runcmd_eq h0 hq, exactRun]
  refine Iff.trans ⟨map_injective fun _ _ h => Option.some.inj h, fun h => by rw [h]⟩ ?_
  exact interp_exact_iff

/-- `cat <f`. -/
theorem runcmd_exact_iff_cat : runcmd (0, 0) [99, 97, 116, 32, 60, 102] =
    some <$> exactRun (0, 0) [99, 97, 116, 32, 60, 102] := by
  refine (runcmd_exact_iff (0, 0) [99, 97, 116, 32, 60, 102] (by decide) (by decide)).mpr ?_
  have htokens : tokens [99, 97, 116, 32, 60, 102] =
      [(.word [99, 97, 116], [32, 60, 102]), (.symbol 60, [102]), (.word [102], [])] := by decide
  rw [htokens]
  exact .inr rfl

/-- `cat <f a` opens the file `f a`. -/
theorem runcmd_not_exact :
    ¬ runcmd (0, 0) [99, 97, 116, 32, 60, 102, 32, 97] =
      some <$> exactRun (0, 0) [99, 97, 116, 32, 60, 102, 32, 97] ∧
    (follow [0] (runcmd (0, 0) [99, 97, 116, 32, 60, 102, 32, 97])).1 =
      [.close 0, .open [102, 32, 97] oRdonly] ∧
    (follow [0] (exactRun (0, 0) [99, 97, 116, 32, 60, 102, 32, 97])).1 =
      [.close 0, .open [102] oRdonly] := by
  have hrun : (follow [0] (runcmd (0, 0) [99, 97, 116, 32, 60, 102, 32, 97])).1 =
      [.close 0, .open [102, 32, 97] oRdonly] := by decide +kernel
  have hexact : (follow [0] (exactRun (0, 0) [99, 97, 116, 32, 60, 102, 32, 97])).1 =
      [.close 0, .open [102] oRdonly] := by decide +kernel
  have hmap : (follow [0] (some <$> exactRun (0, 0) [99, 97, 116, 32, 60, 102, 32, 97])).1 =
      [.close 0, .open [102] oRdonly] := by decide +kernel
  refine ⟨fun h => ?_, hrun, hexact⟩
  rw [h, hmap] at hrun
  exact absurd hrun (by decide)

end UCore.Shell

import Petrush.Lib.CText

/-!
# `fgets`: reading a stream in bounded pieces

`fgets(buf, k + 1, f)` reads up to and including a newline, but never more
than `k` bytes.  `fgetsPieces k` is the list of everything successive calls
return on a whole stream, so a C loop `while (fgets(…))` is a recursion over
that list.

A long line is returned in several pieces, which look to the caller exactly
like lines.  `mem_fgetsPieces_short` says when that cannot happen.

`fgetsPieces_keepLines` is for a reader that passes over some of the lines.
-/

namespace Petrush.Lib.Stdio

open Petrush.Lib.CText

/-- The piece under construction holds `acc` (reversed) and has room for
`room + 1` more bytes. -/
def fgetsCut (k : Nat) : Nat → Text → Text → List Text
  | _, acc, [] => if acc = [] then [] else [acc.reverse]
  | 0, acc, c :: s => (c :: acc).reverse :: fgetsCut k (k - 1) [] s
  | room + 1, acc, c :: s =>
      if c = '\n' then (c :: acc).reverse :: fgetsCut k (k - 1) [] s
      else fgetsCut k room (c :: acc) s

/-- Everything successive calls `fgets(buf, k + 1, f)` return on a stream
(`0 < k`). -/
def fgetsPieces (k : Nat) (s : Text) : List Text := fgetsCut k (k - 1) [] s

/-- The newline-separated lines of a stream, without their newlines. -/
def lines (s : Text) : List Text := s.splitOn '\n'

@[simp] theorem fgetsPieces_nil (k : Nat) : fgetsPieces k [] = [] := by
  simp [fgetsPieces, fgetsCut]

/-- A piece with bytes pending continues the piece that follows. -/
private theorem fgetsCut_line (k : Nat) (t s : Text) :
    ∀ (room : Nat) (acc : Text), '\n' ∉ t → t.length ≤ room →
      fgetsCut k room acc (t ++ '\n' :: s) =
        (acc.reverse ++ t ++ ['\n']) :: fgetsPieces k s := by
  induction t with
  | nil =>
      intro room acc _ _
      cases room <;> simp [fgetsCut, fgetsPieces]
  | cons c t ih =>
      intro room acc hnl hlen
      cases room with
      | zero => simp at hlen
      | succ room =>
          have hc : c ≠ '\n' := fun h => hnl (by simp [h])
          have ht : '\n' ∉ t := fun h => hnl (by simp [h])
          simp only [List.cons_append, fgetsCut, if_neg hc]
          rw [ih room (c :: acc) ht (by simpa using hlen)]
          simp

/-- A line that fits is returned whole, with its newline. -/
theorem fgetsPieces_line {k : Nat} {t : Text} (s : Text)
    (hnl : '\n' ∉ t) (hlen : t.length < k) :
    fgetsPieces k (t ++ '\n' :: s) = (t ++ ['\n']) :: fgetsPieces k s := by
  have h := fgetsCut_line k t s (k - 1) [] hnl (by omega)
  simpa [fgetsPieces] using h

private theorem fgetsCut_full (k : Nat) (t s : Text) :
    ∀ (room : Nat) (acc : Text), '\n' ∉ t → t.length = room + 1 →
      fgetsCut k room acc (t ++ s) =
        (acc.reverse ++ t) :: fgetsPieces k s := by
  induction t with
  | nil => intro room acc _ hlen; simp at hlen
  | cons c t ih =>
      intro room acc hnl hlen
      have hc : c ≠ '\n' := fun h => hnl (by simp [h])
      have ht : '\n' ∉ t := fun h => hnl (by simp [h])
      cases room with
      | zero =>
          have hnil : t = [] := by simpa using hlen
          subst hnil
          simp [fgetsCut, fgetsPieces]
      | succ room =>
          simp only [List.cons_append, fgetsCut, if_neg hc]
          rw [ih room (c :: acc) ht (by simpa using hlen)]
          simp

/-- A line too long for the buffer is cut after `k` bytes, and the rest comes
back as if it were a line of its own. -/
theorem fgetsPieces_full {k : Nat} {t : Text} (s : Text) (hk : 0 < k)
    (hnl : '\n' ∉ t) (hlen : t.length = k) :
    fgetsPieces k (t ++ s) = t :: fgetsPieces k s := by
  have h := fgetsCut_full k t s (k - 1) [] hnl (by omega)
  simpa [fgetsPieces] using h

private theorem fgetsCut_last (k : Nat) (t : Text) :
    ∀ (room : Nat) (acc : Text), '\n' ∉ t → t.length ≤ room →
      acc ++ t ≠ [] → fgetsCut k room acc t = [acc.reverse ++ t] := by
  induction t with
  | nil => intro room acc _ _ hne; simp_all [fgetsCut]
  | cons c t ih =>
      intro room acc hnl hlen hne
      cases room with
      | zero => simp at hlen
      | succ room =>
          have hc : c ≠ '\n' := fun h => hnl (by simp [h])
          have ht : '\n' ∉ t := fun h => hnl (by simp [h])
          simp only [fgetsCut, if_neg hc]
          rw [ih room (c :: acc) ht (by simpa using hlen) (by simp)]
          simp

/-- A last line without a newline is returned as it stands. -/
theorem fgetsPieces_last {k : Nat} {t : Text} (hnl : '\n' ∉ t)
    (hlen : t.length < k) (hne : t ≠ []) : fgetsPieces k t = [t] := by
  have h := fgetsCut_last k t (k - 1) [] hnl (by omega) (by simpa using hne)
  simpa [fgetsPieces] using h

private theorem newline_notMem_fgetsCut (k : Nat) (s : Text) :
    ∀ (room : Nat) (acc : Text), '\n' ∉ acc → ∀ piece ∈ fgetsCut k room acc s,
      '\n' ∉ piece.dropLast := by
  induction s with
  | nil =>
      intro room acc hacc piece hpiece
      rw [fgetsCut] at hpiece
      split at hpiece
      · contradiction
      · rw [List.mem_singleton.mp hpiece]
        exact fun h => hacc (List.mem_reverse.mp (List.dropLast_subset _ h))
  | cons c s ih =>
      intro room acc hacc piece hpiece
      have hfull : '\n' ∉ (c :: acc).reverse.dropLast := by
        rw [List.reverse_cons, List.dropLast_concat]
        exact fun h => hacc (List.mem_reverse.mp h)
      cases room with
      | zero =>
          rcases List.mem_cons.mp hpiece with rfl | hpiece
          · exact hfull
          · exact ih _ [] (List.not_mem_nil) piece hpiece
      | succ room =>
          rw [fgetsCut] at hpiece
          split at hpiece
          · rcases List.mem_cons.mp hpiece with rfl | hpiece
            · exact hfull
            · exact ih _ [] (List.not_mem_nil) piece hpiece
          next hc =>
            apply ih room (c :: acc) _ piece hpiece
            intro h
            rcases List.mem_cons.mp h with h | h
            · exact hc h.symm
            · exact hacc h

/-- A piece has no newline but at its end. -/
theorem newline_notMem_fgetsPieces {k : Nat} {s piece : Text} (h : piece ∈ fgetsPieces k s) :
    '\n' ∉ piece.dropLast :=
  newline_notMem_fgetsCut k s _ [] List.not_mem_nil piece h

/-! ## Lines -/

theorem lines_last {t : Text} (hnl : '\n' ∉ t) : lines t = [t] := by
  refine List.splitOnP_eq_singleton ?_
  intro c hc
  have hne : c ≠ '\n' := fun h => hnl (h ▸ hc)
  simpa using hne

theorem lines_cons_line {t : Text} (s : Text) (hnl : '\n' ∉ t) :
    lines (t ++ '\n' :: s) = t :: lines s :=
  List.splitOn_append_cons_self_of_not_mem hnl s

/-- Every text is a line without newline, or a line, its newline and the
rest. -/
theorem line_split (s : Text) :
    '\n' ∉ s ∨ ∃ t r : Text, '\n' ∉ t ∧ s = t ++ '\n' :: r := by
  by_cases h : '\n' ∈ s
  · obtain ⟨t, r, hs, ht⟩ := List.eq_append_cons_of_mem h
    exact Or.inr ⟨t, r, ht, hs⟩
  · exact Or.inl h

/-- A line is made of bytes of the text. -/
theorem subset_of_mem_lines {l : Text} : ∀ {s : Text}, l ∈ lines s → l ⊆ s := by
  intro s
  induction hn : s.length using Nat.strong_induction_on generalizing s with
  | _ n ih =>
      intro hmem
      rcases line_split s with hs | ⟨t, r, ht, rfl⟩
      · rw [lines_last hs] at hmem
        rw [List.mem_singleton.mp hmem]
        exact List.Subset.refl s
      · rw [lines_cons_line r ht] at hmem
        rcases List.mem_cons.mp hmem with rfl | hl
        · exact List.subset_append_left _ _
        · have hr : r.length < n := by
            rw [← hn]; simp only [List.length_append, List.length_cons]; omega
          intro c hc
          have hcr : c ∈ r := ih r.length hr rfl hl hc
          exact List.mem_append_right _ (List.mem_cons_of_mem _ hcr)

/-- A line has no newline. -/
theorem not_mem_of_mem_lines {l : Text} : ∀ {s : Text}, l ∈ lines s → '\n' ∉ l := by
  intro s
  induction hn : s.length using Nat.strong_induction_on generalizing s with
  | _ n ih =>
      intro hmem
      rcases line_split s with hs | ⟨t, r, ht, rfl⟩
      · rw [lines_last hs] at hmem
        rw [List.mem_singleton.mp hmem]
        exact hs
      · rw [lines_cons_line r ht] at hmem
        rcases List.mem_cons.mp hmem with rfl | hl
        · exact ht
        · have hr : r.length < n := by
            rw [← hn]
            simp only [List.length_append, List.length_cons]
            omega
          exact ih r.length hr rfl hl

/-- **No line is cut when every line is shorter than the buffer**: each piece
is then a whole line, with or without its newline. -/
theorem mem_fgetsPieces_short {k : Nat} :
    ∀ {s : Text}, (∀ l ∈ lines s, l.length < k) →
      ∀ piece ∈ fgetsPieces k s,
        ∃ l ∈ lines s, piece = l ∨ piece = l ++ ['\n'] := by
  intro s
  induction hn : s.length using Nat.strong_induction_on generalizing s with
  | _ n ih =>
      intro hshort piece hmem
      rcases line_split s with hs | ⟨t, r, ht, rfl⟩
      · have hlen : s.length < k := hshort s (by rw [lines_last hs]; simp)
        by_cases hne : s = []
        · subst hne
          simp at hmem
        · rw [fgetsPieces_last hs hlen hne] at hmem
          exact ⟨s, by rw [lines_last hs]; simp, Or.inl (by simpa using hmem)⟩
      · rw [lines_cons_line r ht] at hshort ⊢
        have hlen : t.length < k := hshort t (by simp)
        rw [fgetsPieces_line r ht hlen] at hmem
        rcases List.mem_cons.mp hmem with hp | hp
        · exact ⟨t, by simp, Or.inr hp⟩
        · have hr : r.length < n := by
            rw [← hn]; simp only [List.length_append, List.length_cons]; omega
          obtain ⟨l, hl, hpl⟩ :=
            ih r.length hr rfl (fun l hl => hshort l (by simp [hl])) piece hp
          exact ⟨l, by simp [hl], hpl⟩

/-- A loop that looks at each piece for itself finds in short lines what it would find
in the lines. -/
theorem filterMap_fgetsPieces_short {β : Type} {k : Nat} {f g : Text → Option β} :
    ∀ {s : Text}, (∀ l ∈ lines s, l.length < k) →
      (∀ l ∈ lines s, f l = g l ∧ f (l ++ ['\n']) = g l) → g [] = none →
      (fgetsPieces k s).filterMap f = (lines s).filterMap g := by
  intro s
  induction hn : s.length using Nat.strong_induction_on generalizing s with
  | _ n ih =>
      intro hshort hfg hnil
      rcases line_split s with hs | ⟨t, r, ht, rfl⟩
      · rw [lines_last hs] at hshort hfg ⊢
        have hlen : s.length < k := hshort s (by simp)
        by_cases hne : s = []
        · subst hne
          simp [hnil]
        · rw [fgetsPieces_last hs hlen hne, List.filterMap_cons, List.filterMap_cons,
            (hfg s (by simp)).1]
          rfl
      · rw [lines_cons_line r ht] at hshort hfg ⊢
        have hlen : t.length < k := hshort t (by simp)
        have hr : r.length < n := by
          rw [← hn]
          simp only [List.length_append, List.length_cons]
          omega
        have hrest := ih r.length hr rfl (fun l hl => hshort l (by simp [hl]))
          (fun l hl => hfg l (by simp [hl])) hnil
        rw [fgetsPieces_line r ht hlen, List.filterMap_cons, List.filterMap_cons,
          (hfg t (by simp)).2, hrest]

/-! ## Reading a file string by string -/

/-- The lines of a file, each with its newline; the last one may have none. -/
def fileLines (s : Text) : List Text :=
  (lines s).dropLast.map (· ++ ['\n']) ++ ((lines s).getLast?.filter (· ≠ [])).toList

@[simp] theorem fileLines_nil : fileLines [] = [] := by
  rw [fileLines, lines_last (by simp)]
  rfl

theorem fileLines_last {t : Text} (hnl : '\n' ∉ t) (hne : t ≠ []) : fileLines t = [t] := by
  rw [fileLines, lines_last hnl]
  simp [hne]

theorem lines_ne_nil (s : Text) : lines s ≠ [] := List.splitOnP_ne_nil _ s

theorem fileLines_line {t : Text} (s : Text) (hnl : '\n' ∉ t) :
    fileLines (t ++ '\n' :: s) = (t ++ ['\n']) :: fileLines s := by
  have hne := lines_ne_nil s
  rw [fileLines, fileLines, lines_cons_line s hnl]
  rw [List.dropLast_cons_of_ne_nil hne, List.getLast?_cons]
  simp [List.getLast?_eq_some_getLast hne]

/-- A loop that reads one string after another, as far as it reads: when it stops
and what a string makes of its state. -/
structure LineReader (σ : Type) where
  stops : σ → Bool
  next : σ → Text → σ

/-- The strings it reads, each with the state it is read in. -/
def LineReader.reads {σ : Type} (R : LineReader σ) : σ → List Text → List (σ × Text)
  | _, [] => []
  | st, t :: ts => if R.stops st then [] else (st, t) :: R.reads (R.next st t) ts

theorem LineReader.reads_stops {σ : Type} {R : LineReader σ} {st : σ} (h : R.stops st = true)
    (ts : List Text) : R.reads st ts = [] := by
  cases ts <;> simp [LineReader.reads, h]

/-- The first piece of a line that does not fit is not the line. -/
theorem fgetsPieces_long {k : Nat} {t : Text} (s : Text) (hk : 0 < k) (hnl : '\n' ∉ t)
    (hlen : k ≤ t.length) : ∃ ts, fgetsPieces k (t ++ s) = t.take k :: ts := by
  have hpiece := fgetsPieces_full (t.drop k ++ s) hk (fun h => hnl (List.mem_of_mem_take h))
    (List.length_take_of_le hlen)
  rw [← List.append_assoc, List.take_append_drop] at hpiece
  exact ⟨_, hpiece⟩

/-- **A loop over `fgets` reads lines** exactly when every line it reads fits in
the buffer, its newline included. -/
theorem LineReader.reads_pieces_iff {σ ρ : Type} {k : Nat} (hk : 0 < k) (R : LineReader σ)
    (out : σ × Text → ρ) (hout : ∀ x y, out x = out y → x.2 = y.2) (s : Text) :
    ∀ st : σ, (R.reads st (fgetsPieces k s)).map out = (R.reads st (fileLines s)).map out ↔
      ∀ r ∈ R.reads st (fileLines s), r.2.length ≤ k := by
  induction hn : s.length using Nat.strong_induction_on generalizing s with
  | _ n ih =>
      intro st
      by_cases hstop : R.stops st = true
      · simp [R.reads_stops hstop]
      rcases line_split s with hs | ⟨t, r, ht, rfl⟩
      · by_cases hne : s = []
        · simp [hne, LineReader.reads]
        rw [fileLines_last hs hne]
        by_cases hlen : s.length ≤ k
        · have hpiece : fgetsPieces k s = [s] := by
            by_cases hlt : s.length < k
            · exact fgetsPieces_last hs hlt hne
            · have hfull := fgetsPieces_full (k := k) [] hk hs (by omega)
              simpa using hfull
          simp [hpiece, LineReader.reads, hstop, hlen]
        · obtain ⟨ts, hpiece⟩ := fgetsPieces_long (k := k) [] hk hs (by omega)
          rw [List.append_nil] at hpiece
          constructor
          · intro h
            simp only [hpiece, LineReader.reads, hstop, Bool.false_eq_true, if_false,
              List.map_cons, List.cons.injEq] at h
            have hsame := congrArg List.length (hout _ _ h.1)
            simp only [List.length_take] at hsame
            omega
          · intro h
            have hfit := h (st, s) (by simp [LineReader.reads, hstop])
            exact absurd hfit hlen
      · rw [fileLines_line r ht]
        by_cases hlen : t.length < k
        · rw [fgetsPieces_line r ht hlen]
          have hr : r.length < n := by
            rw [← hn]
            simp only [List.length_append, List.length_cons]
            omega
          have hrest := ih r.length hr r rfl (R.next st (t ++ ['\n']))
          simp only [LineReader.reads, hstop, Bool.false_eq_true, if_false, List.map_cons,
            List.cons.injEq, true_and, List.forall_mem_cons, hrest]
          simp only [List.length_append, List.length_singleton]
          constructor
          · intro h
            exact ⟨by omega, h⟩
          · intro h
            exact h.2
        · obtain ⟨ts, hpiece⟩ := fgetsPieces_long (k := k) ('\n' :: r) hk ht (by omega)
          constructor
          · intro h
            simp only [hpiece, LineReader.reads, hstop, Bool.false_eq_true, if_false,
              List.map_cons, List.cons.injEq] at h
            have hsame := congrArg List.length (hout _ _ h.1)
            simp only [List.length_take, List.length_append, List.length_singleton] at hsame
            omega
          · intro h
            have hfit := h (st, t ++ ['\n']) (by simp [LineReader.reads, hstop])
            simp only [List.length_append, List.length_singleton] at hfit
            omega

/-! ## Leaving lines out -/

/-- A file without some of its lines. -/
def keepLines (keep : Text → Bool) (s : Text) : Text := ((fileLines s).filter keep).flatten

/-- What is read of a line does not depend on what follows it. -/
theorem fgetsPieces_line_append {k : Nat} (hk : 0 < k) (s : Text) : ∀ {t : Text}, '\n' ∉ t →
    fgetsPieces k (t ++ '\n' :: s) = fgetsPieces k (t ++ ['\n']) ++ fgetsPieces k s := by
  intro t
  induction hn : t.length using Nat.strong_induction_on generalizing t with
  | _ n ih =>
      intro hnl
      by_cases hlen : t.length < k
      · rw [fgetsPieces_line s hnl hlen, fgetsPieces_line [] hnl hlen]
        simp
      · -- the first piece has no newline
        have htake : (t.take k).length = k := List.length_take_of_le (Nat.le_of_not_lt hlen)
        have hhead : '\n' ∉ t.take k := fun h => hnl (List.mem_of_mem_take h)
        have htail : '\n' ∉ t.drop k := fun h => hnl (List.mem_of_mem_drop h)
        have hsplit : ∀ r : Text, t ++ '\n' :: r = t.take k ++ (t.drop k ++ '\n' :: r) := by
          intro r
          rw [← List.append_assoc, List.take_append_drop]
        have hshort : (t.drop k).length < n := by
          rw [List.length_drop]
          omega
        have hrest := ih _ hshort rfl htail
        rw [hsplit s, hsplit [], fgetsPieces_full _ hk hhead htake,
          fgetsPieces_full _ hk hhead htake, hrest, List.cons_append]

/-- **A file without some of its lines** is read like the lines that are left. -/
theorem fgetsPieces_keepLines {k : Nat} (hk : 0 < k) (keep : Text → Bool) (s : Text) :
    fgetsPieces k (keepLines keep s) = ((fileLines s).filter keep).flatMap (fgetsPieces k) := by
  induction hn : s.length using Nat.strong_induction_on generalizing s with
  | _ n ih =>
      rcases line_split s with hs | ⟨t, r, ht, rfl⟩
      · by_cases hne : s = []
        · simp [hne, keepLines]
        · rw [keepLines, fileLines_last hs hne]
          by_cases hkeep : keep s = true
          · simp [hkeep]
          · simp [hkeep]
      · have hr : r.length < n := by
          rw [← hn]
          simp only [List.length_append, List.length_cons]
          omega
        have hrest := ih r.length hr r rfl
        rw [keepLines, fileLines_line r ht]
        by_cases hkeep : keep (t ++ ['\n']) = true
        · have hjoin : t ++ ['\n'] ++ keepLines keep r = t ++ '\n' :: keepLines keep r := by simp
          rw [List.filter_cons_of_pos hkeep, List.flatten_cons, List.flatMap_cons, ← hrest]
          rw [keepLines] at hjoin ⊢
          rw [hjoin, fgetsPieces_line_append hk _ ht]
        · rw [List.filter_cons_of_neg hkeep, ← hrest]
          rfl

/-- A file is read like its lines. -/
theorem fgetsPieces_fileLines {k : Nat} (hk : 0 < k) (s : Text) :
    fgetsPieces k s = (fileLines s).flatMap (fgetsPieces k) := by
  have hall : (fileLines s).filter (fun _ => true) = fileLines s := List.filter_true _
  have hflat : (fileLines s).flatten = s := by
    induction hn : s.length using Nat.strong_induction_on generalizing s with
    | _ n ih =>
        rcases line_split s with hs | ⟨t, r, ht, rfl⟩
        · by_cases hne : s = []
          · simp [hne]
          · simp [fileLines_last hs hne]
        · have hr : r.length < n := by
            rw [← hn]
            simp only [List.length_append, List.length_cons]
            omega
          rw [fileLines_line r ht, List.flatten_cons, ih r.length hr r (List.filter_true _) rfl]
          simp
  have hread := fgetsPieces_keepLines hk (fun _ => true) s
  rwa [keepLines, hall, hflat] at hread

end Petrush.Lib.Stdio

import Mathlib.Data.PNat.Basic
import Petrush.Lib.Stdio

/-!
# A buffered stream

A `FILE` that is read: what is buffered, and what the file under it still has to deliver.
`fgets` empties the buffer before it fills it again, so what it returns depends on the
two together; what stays buffered does not, and outlives a change of the file.

## Main results

* `content_fgets`, `fgets_fst`: one call, on the bytes of the buffer and the file.
* `fgets_eq_line_iff`: it returns a line when the line fits.
-/

namespace Petrush.Lib.Streams

open Petrush.Lib.CText
open Petrush.Lib.Stdio

/-- The bytes that a file still has to deliver.  The calls of `read` to come find `ready`
bytes, and one more; after these, all. -/
structure Feed (α : Type) where
  rest : List α
  ready : List Nat := []
  deriving Repr, DecidableEq

/-- The bytes that have been read and not returned, and the file. -/
structure Stream (α : Type) where
  buffer : List α := []
  feed : Feed α
  deriving Repr, DecidableEq

section Calls

-- The size of the buffer, and the character that a byte is.
variable {α : Type} (block : ℕ+) (char : α → Char)

/-- `read`, into a buffer of `block` bytes. -/
def Feed.read (f : Feed α) : List α × Feed α :=
  match f.ready with
  | [] => (f.rest.take block, { f with rest := f.rest.drop block })
  | n :: ready => (f.rest.take (min block (n + 1)), ⟨f.rest.drop (min block (n + 1)), ready⟩)

/-- `getc`. -/
def getc (s : Stream α) : Option α × Stream α :=
  match s.buffer with
  | c :: buffer => (some c, { s with buffer := buffer })
  | [] =>
      match s.feed.read block with
      | ([], feed) => (none, ⟨[], feed⟩)
      | (c :: buffer, feed) => (some c, ⟨buffer, feed⟩)

/-- `fgets(buf, room + 1, f)`; nothing is its `NULL`, at the end of the file. -/
def fgets : Nat → Stream α → List α × Stream α
  | 0, s => ([], s)
  | room + 1, s =>
      match getc block s with
      | (none, s) => ([], s)
      | (some c, s) =>
          if char c = '\n' then ([c], s)
          else
            let r := fgets room s
            (c :: r.1, r.2)

/-- The bytes to come. -/
def Stream.content (s : Stream α) : List α := s.buffer ++ s.feed.rest

/-- The bytes to come, as a text. -/
def Stream.text (s : Stream α) : Text := s.content.map char

/-! ## One call -/

theorem Feed.read_spec (f : Feed α) :
    f.rest = (f.read block).1 ++ (f.read block).2.rest ∧
      ((f.read block).1 = [] → f.rest = []) := by
  have hpos := block.pos
  obtain ⟨rest, ready⟩ := f
  cases ready with
  | nil =>
      refine ⟨(List.take_append_drop _ _).symm, fun h => ?_⟩
      exact (List.take_eq_nil_iff.mp h).resolve_left (by omega)
  | cons n ready =>
      refine ⟨(List.take_append_drop _ _).symm, fun h => ?_⟩
      exact (List.take_eq_nil_iff.mp h).resolve_left (by omega)

theorem getc_none {s s' : Stream α} (h : getc block s = (none, s')) :
    s.content = [] ∧ s'.content = [] := by
  obtain ⟨buffer, feed⟩ := s
  cases buffer with
  | cons c buffer => simp [getc] at h
  | nil =>
      obtain ⟨hrest, hend⟩ := feed.read_spec block
      simp only [getc] at h
      generalize feed.read block = r at *
      obtain ⟨chunk, feed'⟩ := r
      cases chunk with
      | cons c chunk => simp at h
      | nil =>
          obtain rfl := (Prod.mk.inj h).2
          have hnil := hend rfl
          have hnil' : feed'.rest = [] := by rw [← hnil, hrest, List.nil_append]
          exact ⟨hnil, hnil'⟩

theorem getc_some {s s' : Stream α} {c : α} (h : getc block s = (some c, s')) :
    s.content = c :: s'.content := by
  obtain ⟨buffer, feed⟩ := s
  cases buffer with
  | cons d buffer =>
      simp only [getc, Prod.mk.injEq, Option.some.injEq] at h
      obtain ⟨rfl, rfl⟩ := h
      rfl
  | nil =>
      have hrest := (feed.read_spec block).1
      simp only [getc] at h
      generalize feed.read block = r at *
      obtain ⟨chunk, feed'⟩ := r
      cases chunk with
      | nil => simp at h
      | cons d chunk =>
          simp only [Prod.mk.injEq, Option.some.injEq] at h
          obtain ⟨rfl, rfl⟩ := h
          exact hrest

/-- What is returned is taken from the bytes to come. -/
theorem content_fgets (room : Nat) (s : Stream α) :
    s.content = (fgets block char room s).1 ++ (fgets block char room s).2.content := by
  induction room generalizing s with
  | zero => rfl
  | succ room ih =>
      rw [fgets]
      cases hget : getc block s with
      | mk got s' =>
          cases got with
          | none =>
              obtain ⟨hnil, hnil'⟩ := getc_none block hget
              simp [hnil, hnil']
          | some c =>
              simp only [getc_some block hget]
              split
              · rfl
              · rw [List.cons_append, ← ih s']

/-- Nothing is returned at the end of the file only. -/
theorem fgets_eq_nil {room : Nat} {s : Stream α} (h : (fgets block char (room + 1) s).1 = []) :
    s.content = [] := by
  rw [fgets] at h
  cases hget : getc block s with
  | mk got s' =>
      cases got with
      | none => exact (getc_none block hget).1
      | some c =>
          simp only [hget] at h
          split at h <;> simp at h

/-- What is buffered comes first. -/
theorem mem_fgets_of_buffered (room : Nat) (c : α) (buffer : List α) (feed : Feed α) :
    c ∈ (fgets block char (room + 1) ⟨c :: buffer, feed⟩).1 := by
  rw [fgets]
  simp only [getc]
  split <;> simp

/-- The first of the pieces, as if the bytes to come were a file. -/
private theorem fgetsCut_headD (k room : Nat) (acc : Text) (s : Stream α) :
    (fgetsCut k room acc (s.text char)).headD [] =
      acc.reverse ++ (fgets block char (room + 1) s).1.map char := by
  induction room generalizing acc s with
  | zero =>
      rw [fgets]
      cases hget : getc block s with
      | mk got s' =>
          cases got with
          | none =>
              obtain ⟨hnil, -⟩ := getc_none block hget
              by_cases hacc : acc = [] <;> simp [Stream.text, hnil, fgetsCut, hacc]
          | some c =>
              simp only [Stream.text, getc_some block hget, List.map_cons, fgetsCut]
              split <;> simp [fgets]
  | succ room ih =>
      rw [fgets]
      cases hget : getc block s with
      | mk got s' =>
          cases got with
          | none =>
              obtain ⟨hnil, -⟩ := getc_none block hget
              by_cases hacc : acc = [] <;> simp [Stream.text, hnil, fgetsCut, hacc]
          | some c =>
              simp only [Stream.text, getc_some block hget, List.map_cons, fgetsCut]
              split
              · simp
              · have hrest := ih (char c :: acc) s'
                rw [Stream.text] at hrest
                rw [hrest]
                simp

theorem fgets_fst {k : Nat} (hk : 0 < k) (s : Stream α) :
    (fgets block char k s).1.map char = (fgetsPieces k (s.text char)).headD [] := by
  have h := fgetsCut_headD block char k (k - 1) [] s
  rw [Nat.sub_add_cancel hk] at h
  exact h.symm

end Calls

/-! ## Lines -/

/-- A file is its first line, and the rest. -/
theorem fileLines_cons {s l : Text} {ls : List Text} (h : fileLines s = l :: ls) :
    ∃ r, s = l ++ r ∧ fileLines r = ls := by
  rcases line_split s with hs | ⟨t, r, ht, rfl⟩
  · by_cases hne : s = []
    · simp [hne] at h
    · rw [fileLines_last hs hne] at h
      obtain ⟨rfl, rfl⟩ := List.cons.inj h
      exact ⟨[], by simp, fileLines_nil⟩
  · rw [fileLines_line r ht] at h
    obtain ⟨rfl, rfl⟩ := List.cons.inj h
    exact ⟨r, by simp, rfl⟩

theorem fileLines_eq_nil {s : Text} (h : fileLines s = []) : s = [] := by
  rcases line_split s with hs | ⟨t, r, ht, rfl⟩
  · by_contra hne
    simp [fileLines_last hs hne] at h
  · simp [fileLines_line r ht] at h

/-- The first piece is the first line, when the line fits. -/
theorem headD_fgetsPieces_iff {k : Nat} (hk : 0 < k) {s l : Text} {ls : List Text}
    (h : fileLines s = l :: ls) : (fgetsPieces k s).headD [] = l ↔ l.length ≤ k := by
  rcases line_split s with hs | ⟨t, r, ht, rfl⟩
  · by_cases hne : s = []
    · simp [hne] at h
    rw [fileLines_last hs hne] at h
    obtain ⟨rfl, rfl⟩ := List.cons.inj h
    by_cases hlen : s.length < k
    · rw [fgetsPieces_last hs hlen hne]
      exact iff_of_true rfl (Nat.le_of_lt hlen)
    · obtain ⟨ts, hpiece⟩ := fgetsPieces_long (k := k) [] hk hs (by omega)
      rw [List.append_nil] at hpiece
      rw [hpiece, List.headD_cons, List.take_eq_self_iff]
  · rw [fileLines_line r ht] at h
    obtain ⟨rfl, rfl⟩ := List.cons.inj h
    by_cases hlen : t.length < k
    · rw [fgetsPieces_line r ht hlen]
      exact iff_of_true rfl (by simpa using hlen)
    · obtain ⟨ts, hpiece⟩ := fgetsPieces_long (k := k) ('\n' :: r) hk ht (by omega)
      rw [hpiece, List.headD_cons]
      refine iff_of_false (fun heq => ?_) (by simpa using hlen)
      have hlength := congrArg List.length heq
      simp only [List.length_take, List.length_append, List.length_singleton] at hlength
      omega

section Line

variable {α : Type} (block : ℕ+) (char : α → Char)

/-- **A line is returned whole** when it fits, its newline included. -/
theorem fgets_eq_line_iff {k : Nat} (hk : 0 < k) {s : Stream α} {l : Text} {ls : List Text}
    (h : fileLines (s.text char) = l :: ls) :
    (fgets block char k s).1.map char = l ↔ l.length ≤ k := by
  rw [fgets_fst block char hk, headD_fgetsPieces_iff hk h]

/-- The lines to come, after a line. -/
theorem fileLines_fgets {k : Nat} {s : Stream α} {l : Text} {ls : List Text}
    (h : fileLines (s.text char) = l :: ls) (hline : (fgets block char k s).1.map char = l) :
    fileLines ((fgets block char k s).2.text char) = ls := by
  obtain ⟨r, hr, hls⟩ := fileLines_cons h
  have hcontent := congrArg (List.map char) (content_fgets block char k s)
  rw [List.map_append, hline] at hcontent
  have hrest : (fgets block char k s).2.text char = r :=
    List.append_cancel_left (hcontent.symm.trans hr)
  rw [hrest, hls]

/-- At the end of the file. -/
theorem fgets_end {k : Nat} {s : Stream α} (h : fileLines (s.text char) = []) :
    (fgets block char k s).1 = [] ∧ (fgets block char k s).2.text char = [] := by
  have hcontent := content_fgets block char k s
  have hnil : s.content = [] := List.map_eq_nil_iff.mp (fileLines_eq_nil h)
  rw [hnil] at hcontent
  obtain ⟨htaken, hrest⟩ := List.append_eq_nil_iff.mp hcontent.symm
  exact ⟨htaken, by rw [Stream.text, hrest, List.map_nil]⟩

end Line

end Petrush.Lib.Streams

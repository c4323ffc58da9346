import Petrush.Front.Highlight

/-!
# What the highlighter shows

The spans of the scanner lie in order inside the buffer, and what the colouriser prints
before its NUL is the whole buffer between escape sequences.  The result is a string
without a length, so a NUL that was typed ends it.

## Main results

* `petrushHlScan_spec`: the scanner stops, and where its spans are.
* `petrushHlColorize_spec`: the block that the colouriser returns, for every buffer.
* `showsTyped_iff`: exactly a buffer without NUL is shown as it was typed.
-/

namespace Petrush.Verified.Highlighting

open Petrush.Lib.CText
open Petrush.Lib.Cells
open Petrush.Front.Highlight

/-! ## Spans -/

/-- The spans lie in order between two places, and none is empty. -/
def InOrder : Nat → List Span → Nat → Prop
  | lo, [], hi => lo ≤ hi
  | lo, s :: spans, hi => lo ≤ s.start ∧ 0 < s.len ∧ InOrder (s.start + s.len) spans hi

theorem InOrder.le : ∀ {spans : List Span} {lo hi : Nat}, InOrder lo spans hi → lo ≤ hi := by
  intro spans
  induction spans with
  | nil => exact id
  | cons s spans ih =>
      intro lo hi h
      have hrest := ih h.2.2
      have hstart := h.1
      omega

theorem InOrder.push : ∀ {spans : List Span} {lo hi : Nat}, InOrder lo spans hi →
    ∀ {len : Nat} (kind : Kind), 0 < len → InOrder lo (spans ++ [⟨hi, len, kind⟩]) (hi + len) := by
  intro spans
  induction spans with
  | nil =>
      intro lo hi h len kind hlen
      exact ⟨h, hlen, Nat.le_refl _⟩
  | cons s spans ih =>
      intro lo hi h len kind hlen
      exact ⟨h.1, h.2.1, ih h.2.2 kind hlen⟩

/-- Every span is inside, and ends before the next begins. -/
structure InPlace (buf : Text) (spans : List Span) : Prop where
  nonempty : ∀ s ∈ spans, 0 < s.len
  inside : ∀ s ∈ spans, s.start + s.len ≤ buf.length
  ordered : spans.Pairwise fun s t => s.start + s.len ≤ t.start

theorem InOrder.bounds : ∀ {spans : List Span} {lo hi : Nat}, InOrder lo spans hi →
    ∀ s ∈ spans, lo ≤ s.start ∧ 0 < s.len ∧ s.start + s.len ≤ hi := by
  intro spans
  induction spans with
  | nil => exact fun _ s hs => absurd hs List.not_mem_nil
  | cons t spans ih =>
      intro lo hi h s hs
      rcases List.mem_cons.mp hs with rfl | hs
      · exact ⟨h.1, h.2.1, h.2.2.le⟩
      · obtain ⟨hlo, hlen, hhi⟩ := ih h.2.2 s hs
        have hstart := h.1
        exact ⟨by omega, hlen, hhi⟩

theorem InOrder.pairwise : ∀ {spans : List Span} {lo hi : Nat}, InOrder lo spans hi →
    spans.Pairwise fun s t => s.start + s.len ≤ t.start := by
  intro spans
  induction spans with
  | nil => exact fun _ => List.Pairwise.nil
  | cons s spans ih =>
      intro lo hi h
      exact List.Pairwise.cons (fun t ht => (h.2.2.bounds t ht).1) (ih h.2.2)

theorem InOrder.inPlace {buf : Text} {spans : List Span} {hi : Nat} (h : InOrder 0 spans hi)
    (hhi : hi ≤ buf.length) : InPlace buf spans :=
  ⟨fun s hs => (h.bounds s hs).2.1, fun s hs => Nat.le_trans (h.bounds s hs).2.2 hhi, h.pairwise⟩

/-! ## The tokens -/

theorem matchOp_le (p : Text) : matchOp p ≤ p.length := by
  have hpre : ∀ op : Text, op.isPrefixOf p = true → op.length ≤ p.length :=
    fun op h => (List.isPrefixOf_iff_prefix.mp h).length_le
  unfold matchOp
  split_ifs with h₁ h₂ h₃ h₄ h₅ h₆ h₇ h₈ h₉
  · exact hpre _ (Bool.and_eq_true_iff.mp h₁).1
  · exact hpre _ h₂
  · exact hpre _ h₃
  · exact hpre _ h₄
  · exact hpre _ h₅
  · exact hpre _ h₆
  · exact hpre _ h₇
  · exact hpre _ h₈
  · simp only [Bool.or_eq_true] at h₉
    rcases h₉ with ((h | h) | h) | h <;> exact hpre _ h
  · exact Nat.zero_le _

/-- A byte that ends a word begins an operator. -/
theorem matchOp_pos {c : Char} (p : Text) (h : wordBreakHere c = true) : 0 < matchOp (c :: p) := by
  unfold matchOp
  split_ifs with h₁ h₂ h₃ h₄ h₅ h₆ h₇ h₈ h₉
  all_goals first
    | decide
    | skip
  simp only [wordBreakHere, Bool.or_eq_true, beq_iff_eq] at h
  simp only [List.isPrefixOf, Bool.and_true, Bool.or_eq_true, beq_iff_eq] at h₈ h₉
  rcases h with (((rfl | rfl) | rfl) | rfl) | rfl
  · exact absurd (by simp) h₉
  · exact absurd (by simp) h₉
  · exact absurd (by simp) h₉
  · exact absurd (by simp) h₉
  · exact absurd rfl h₈

theorem drop_length_takeWhile {α : Type} (p : α → Bool) (l : List α) :
    l.drop (l.takeWhile p).length = l.dropWhile p := by
  have happ := congrArg (List.drop (l.takeWhile p).length)
    (List.takeWhile_append_dropWhile (p := p) (l := l))
  rwa [List.drop_left, eq_comm] at happ

/-! ## The scanner -/

/-- What the loop has put in the table: spans up to `i`, no more than there is room for. -/
structure Scanned (maxSpans : Int) (out : List Span) (i : Nat) : Prop where
  order : InOrder 0 out i
  room : (out.length : Int) ≤ maxSpans

theorem pushSpan_spec {maxSpans : Int} {out out' : List Span} {i : Nat} (h : Scanned maxSpans out i)
    {len : Nat} {kind : Kind} (hpush : pushSpan out maxSpans i len kind = some out') :
    Scanned maxSpans out' (i + len) := by
  unfold pushSpan at hpush
  split_ifs at hpush with hzero hfull
  · obtain rfl := Option.some.inj hpush
    rw [hzero]
    exact h
  · obtain rfl := Option.some.inj hpush
    refine ⟨h.order.push kind (Nat.pos_of_ne_zero hzero), ?_⟩
    rw [List.length_append, List.length_singleton]
    push_cast
    omega

/-- What a turn comes to, when it began at `i`. -/
def TurnOk (buf : Text) (maxSpans : Int) (i : Nat) : Turn → Prop
  | .leave out => ∃ e ≤ buf.length, Scanned maxSpans out e
  | .again s => i < s.i ∧ s.i ≤ buf.length ∧ Scanned maxSpans s.out s.i

theorem pushToken_ok {buf : Text} {maxSpans : Int} {i : Nat} {s : Scan} {len : Nat}
    (h : Scanned maxSpans s.out s.i) (hi : i ≤ s.i) (hpos : 0 < len)
    (hlen : s.i + len ≤ buf.length) (kind : Kind) (expectCmd : Bool) :
    TurnOk buf maxSpans i (pushToken maxSpans s len kind expectCmd) := by
  unfold pushToken
  cases hpush : pushSpan s.out maxSpans s.i len kind with
  | none => exact ⟨s.i, by omega, h⟩
  | some out => exact ⟨by simp only; omega, hlen, pushSpan_spec h hpush⟩

theorem quoteTurn_ok {buf : Text} {maxSpans : Int} {i : Nat} {s : Scan} {q : Char} {p : Text}
    (h : Scanned maxSpans s.out s.i) (hi : i ≤ s.i) (hlen : s.i + (p.length + 1) = buf.length) :
    TurnOk buf maxSpans i (quoteTurn maxSpans s q p) := by
  unfold quoteTurn
  have hinside : (p.takeWhile (· ≠ q)).length ≤ p.length := (List.takeWhile_prefix _).length_le
  simp only
  split
  · exact pushToken_ok h hi (by omega) (by omega) _ _
  · exact pushToken_ok h hi (by omega) (by omega) _ _

theorem tokenTurn_ok {buf : Text} {maxSpans : Int} {i : Nat} {s : Scan}
    (h : Scanned maxSpans s.out s.i) (hi : i ≤ s.i) (hlen : s.i ≤ buf.length)
    (hblank : ∀ c ∈ (buf.drop s.i).head?, isspace c = false) :
    TurnOk buf maxSpans i (tokenTurn maxSpans s (buf.drop s.i)) := by
  cases hrest : buf.drop s.i with
  | nil => exact ⟨s.i, hlen, h⟩
  | cons c p =>
      have hsize : s.i + (p.length + 1) = buf.length := by
        have hdrop := congrArg List.length hrest
        rw [List.length_drop, List.length_cons] at hdrop
        omega
      rw [hrest] at hblank
      have hspace := hblank c rfl
      rw [tokenTurn]
      by_cases hquote : isQuote c = true
      · rw [if_pos hquote]
        exact quoteTurn_ok h hi hsize
      · rw [if_neg hquote]
        have hop := matchOp_le (c :: p)
        rw [List.length_cons] at hop
        simp only
        split
        next hpos => exact pushToken_ok h hi hpos (by omega) _ _
        next hzero =>
          -- the first byte is no blank, no quote and no operator, so the word has it
          have hbreak : wordBreakHere c = false := by
            by_contra hbreak
            exact hzero (matchOp_pos p (by simpa using hbreak))
          have hword : inWord c = true := by simp [inWord, hspace, hquote, hbreak]
          have hle : ((c :: p).takeWhile inWord).length ≤ (c :: p).length :=
            (List.takeWhile_prefix _).length_le
          rw [List.length_cons] at hle
          have hpos : 0 < ((c :: p).takeWhile inWord).length := by
            rw [List.takeWhile_cons_of_pos hword, List.length_cons]
            omega
          exact pushToken_ok h hi hpos (by omega) _ _

/-- **A turn takes at least a byte, or is the last.** -/
theorem scanTurn_ok {buf : Text} {maxSpans : Int} {s : Scan} (h : Scanned maxSpans s.out s.i)
    (hi : s.i < buf.length) : TurnOk buf maxSpans s.i (scanTurn buf maxSpans s) := by
  unfold scanTurn
  simp only
  have hle : ((buf.drop s.i).takeWhile isspace).length ≤ buf.length - s.i := by
    have hpre := (List.takeWhile_prefix isspace (l := buf.drop s.i)).length_le
    rwa [List.length_drop] at hpre
  have hrest : buf.drop (s.i + ((buf.drop s.i).takeWhile isspace).length) =
      (buf.drop s.i).dropWhile isspace := by
    rw [← List.drop_drop, drop_length_takeWhile]
  generalize ((buf.drop s.i).takeWhile isspace).length = blanks at hle hrest ⊢
  cases hpush : pushSpan s.out maxSpans s.i blanks .plain with
  | none => exact ⟨s.i, by omega, h⟩
  | some out =>
      refine tokenTurn_ok (s := ⟨s.i + blanks, s.expectCmd, out⟩) (pushSpan_spec h hpush)
        (Nat.le_add_right _ _) (by simp only; omega) ?_
      intro c hc
      simp only [hrest] at hc
      have hhead := List.head?_dropWhile_not isspace (buf.drop s.i)
      rw [Option.mem_def.mp hc] at hhead
      simpa using hhead

theorem scanLoop_spec {buf : Text} {maxSpans : Int} : ∀ (turns : Nat) (s : Scan),
    Scanned maxSpans s.out s.i → s.i ≤ buf.length → buf.length - s.i < turns →
    ∃ out e, scanLoop buf maxSpans turns s = .ok out ∧ e ≤ buf.length ∧ Scanned maxSpans out e := by
  intro turns
  induction turns with
  | zero => intro s _ _ hturns; omega
  | succ turns ih =>
      intro s h hle hturns
      rw [scanLoop]
      by_cases hi : s.i < buf.length
      · rw [if_pos hi]
        have hturn := scanTurn_ok h hi
        cases hnext : scanTurn buf maxSpans s with
        | leave out =>
            rw [hnext] at hturn
            obtain ⟨e, he, hout⟩ := hturn
            exact ⟨out, e, rfl, he, hout⟩
        | again s' =>
            rw [hnext] at hturn
            obtain ⟨hlt, hle', hout⟩ := hturn
            exact ih s' hout hle' (by omega)
      · rw [if_neg hi]
        exact ⟨s.out, s.i, rfl, hle, h⟩

/-- **The scanner stops**, with spans in order inside the buffer, and no more than the table
has room for. -/
theorem petrushHlScan_spec (buf : Text) (maxSpans : Int) :
    ∃ spans e, petrushHlScan buf maxSpans = .ok spans ∧ e ≤ buf.length ∧ InOrder 0 spans e ∧
      (spans.length : Int) ≤ max maxSpans 0 := by
  unfold petrushHlScan
  by_cases hnone : maxSpans ≤ 0 ∨ buf.length = 0
  · rw [if_pos hnone]
    exact ⟨[], 0, rfl, Nat.zero_le _, Nat.le_refl _, by simp⟩
  · rw [if_neg hnone]
    obtain ⟨hmax, _⟩ := not_or.mp hnone
    have hstart : Scanned maxSpans [] 0 := by
      refine ⟨Nat.le_refl _, ?_⟩
      rw [List.length_nil]
      omega
    obtain ⟨out, e, hrun, he, hout⟩ := scanLoop_spec (buf.length + 1) ⟨0, true, []⟩ hstart
      (Nat.zero_le buf.length) (Nat.lt_succ_self _)
    refine ⟨out, e, hrun, he, hout.order, ?_⟩
    have hroom := hout.room
    omega

/-! ## What is printed -/

/-- Pieces, each behind its escape sequence. -/
def render (parts : List (Kind × Text)) : Text := parts.flatMap fun part => kindCsi part.1 ++ part.2

/-- The text is the buffer between escape sequences. -/
def Rendering (buf text : Text) : Prop :=
  ∃ parts : List (Kind × Text), text = render parts ∧ (parts.map Prod.snd).flatten = buf

theorem Rendering.snoc {before text : Text} (h : Rendering before text) (kind : Kind)
    (piece : Text) : Rendering (before ++ piece) (text ++ kindCsi kind ++ piece) := by
  obtain ⟨parts, rfl, rfl⟩ := h
  exact ⟨parts ++ [(kind, piece)], by simp [render], by simp⟩

/-- The bytes before `cursor` have been printed, and there is room for a NUL. -/
structure Painted (buf : Text) (p : Paint) : Prop where
  shown : Rendering (buf.take p.cursor) (p.out.take p.o)
  room : p.o < p.out.length

/-- Two runs of writes, the second behind the first. -/
theorem writes_two (cells csi piece : Text) {o : Nat}
    (h : o + csi.length + piece.length ≤ cells.length) :
    ∃ cells₁ cells₂, writes cells o csi = .ok cells₁ ∧
      writes cells₁ (o + csi.length) piece = .ok cells₂ ∧ cells₂.length = cells.length ∧
      cells₂.take (o + csi.length + piece.length) = cells.take o ++ csi ++ piece := by
  have hfirst : writes cells o csi =
      .ok (cells.take o ++ csi ++ cells.drop (o + csi.length)) := writes_at (by omega)
  have htake : (cells.take o ++ csi).length = o + csi.length := by
    rw [List.length_append, List.length_take]
    omega
  have hlen : (cells.take o ++ csi ++ cells.drop (o + csi.length)).length = cells.length := by
    rw [List.length_append, htake, List.length_drop]
    omega
  have hroom : o + csi.length + piece.length ≤
      (cells.take o ++ csi ++ cells.drop (o + csi.length)).length := by omega
  have hsecond := writes_at hroom
  have htake₂ : (cells.take o ++ csi ++ cells.drop (o + csi.length)).take (o + csi.length) =
      cells.take o ++ csi := List.take_left' htake
  rw [htake₂] at hsecond
  refine ⟨_, _, hfirst, hsecond, ?_, ?_⟩
  · rw [List.length_append, List.length_append, htake, List.length_drop, hlen]
    omega
  · exact List.take_left' (by rw [List.length_append, htake])

/-- The block after it has grown, if it must. -/
theorem grown (heap : Heap) {out : Text} {o need n : Nat} (ho : o < out.length) (hn : need ≤ n) :
    ∃ cells, (if need > out.length then realloc heap.junk n out else out) = cells ∧
      need ≤ cells.length ∧ cells.take o = out.take o := by
  refine ⟨_, rfl, ?_⟩
  split
  next hgrows =>
    have hle : out.length ≤ n := by omega
    constructor
    · rw [length_realloc]
      exact hn
    · rw [realloc_grow _ hle, List.take_append_of_le_length (Nat.le_of_lt ho)]
  next hfits => exact ⟨by omega, rfl⟩

/-- A step of the printing: it succeeds, unless the heap is full. -/
def Prints (heap : Heap) (good : Paint → Prop) (run : Except Fault (Option Paint)) : Prop :=
  ∃ r, run = .ok r ∧ (r = none → ∃ n, heap.room n = false) ∧ ∀ p, r = some p → good p

/-- **A piece is printed**, from the cursor on. -/
theorem paint_prints (heap : Heap) {buf : Text} {p : Paint} {ncap : Nat → Nat}
    (h : Painted buf p) (hncap : ∀ n, n ≤ ncap n) (kind : Kind) {len : Nat}
    (hlen : p.cursor + len ≤ buf.length) :
    Prints heap (fun p' => Painted buf p' ∧ p'.cursor = p.cursor + len)
      (paint heap buf ncap kind p.cursor len p) := by
  unfold paint
  simp only
  split
  next hfull =>
    exact ⟨none, rfl, fun _ => ⟨_, by simpa using hfull.2⟩, nofun⟩
  next hroom =>
    obtain ⟨cells, hcells, hneed, htake⟩ := grown heap h.room
      (hncap (p.o + (kindCsi kind).length + len + 1))
    have hpiece : ((buf.drop p.cursor).take len).length = len := by
      rw [List.length_take, List.length_drop]
      omega
    have hslice : slice buf p.cursor len = .ok ((buf.drop p.cursor).take len) := if_pos hlen
    obtain ⟨cells₁, cells₂, hfirst, hsecond, hsize, hshown⟩ :=
      writes_two cells (kindCsi kind) ((buf.drop p.cursor).take len) (o := p.o) (by omega)
    rw [hpiece, htake] at hshown
    refine ⟨some ⟨cells₂, p.o + (kindCsi kind).length + len, p.cursor + len⟩, ?_, nofun, ?_⟩
    · simp only [hcells, hfirst, hslice, hsecond, bind, Except.bind, pure, Except.pure]
    · rintro _ ⟨⟩
      refine ⟨⟨?_, by simp only; omega⟩, rfl⟩
      rw [hshown, List.take_add]
      exact h.shown.snoc kind _

theorem le_double (n : Nat) : n ≤ n * 2 := Nat.le_mul_of_pos_right n (by decide)

theorem paintGap_prints (heap : Heap) {buf : Text} {p : Paint} (h : Painted buf p) {s : Nat}
    (hs : p.cursor ≤ s) (hlen : s ≤ buf.length) :
    Prints heap (fun p' => Painted buf p' ∧ p'.cursor = s) (paintGap heap buf s p) := by
  unfold paintGap
  by_cases hgap : s > p.cursor
  · rw [if_pos hgap]
    have hadd : p.cursor + (s - p.cursor) = s := by omega
    have hin : p.cursor + (s - p.cursor) ≤ buf.length := by omega
    have hprints := paint_prints heap h le_double .plain hin
    rwa [hadd] at hprints
  · rw [if_neg hgap]
    refine ⟨some p, rfl, nofun, ?_⟩
    rintro _ ⟨⟩
    exact ⟨h, by omega⟩

/-- The loop prints spans that are in order. -/
theorem paintSpans_prints (heap : Heap) {buf : Text} : ∀ (spans : List Span) {p : Paint} {e : Nat},
    Painted buf p → InOrder p.cursor spans e → e ≤ buf.length →
    Prints heap (fun p' => Painted buf p' ∧ p'.cursor ≤ buf.length)
      (paintSpans heap buf spans p) := by
  intro spans
  induction spans with
  | nil =>
      intro p e h horder he
      refine ⟨some p, rfl, nofun, ?_⟩
      rintro _ ⟨⟩
      exact ⟨h, Nat.le_trans horder he⟩
  | cons span spans ih =>
      intro p e h horder he
      obtain ⟨hstart, hpos, hrest⟩ := horder
      have hend := hrest.le
      have hin : ¬ span.start > buf.length := by omega
      have hwhole : ¬ span.start + span.len > buf.length := by omega
      obtain ⟨r, hgap, hfull, hgood⟩ := paintGap_prints heap h hstart (by omega)
      cases r with
      | none =>
          refine ⟨none, ?_, hfull, nofun⟩
          simp only [paintSpans, if_neg hin, hgap, bind, Except.bind, pure, Except.pure]
      | some p₁ =>
          obtain ⟨hp₁, hcursor⟩ := hgood p₁ rfl
          have hlen : p₁.cursor + span.len ≤ buf.length := by omega
          obtain ⟨r, hspan, hfull, hgood⟩ := paint_prints heap hp₁ le_double span.kind hlen
          rw [hcursor] at hspan hgood
          cases r with
          | none =>
              refine ⟨none, ?_, hfull, nofun⟩
              simp only [paintSpans, if_neg hin, if_neg hwhole, hgap, hspan, bind, Except.bind,
                pure, Except.pure]
          | some p₂ =>
              obtain ⟨hp₂, hcursor₂⟩ := hgood p₂ rfl
              rw [← hcursor₂] at hrest
              have hprints := ih hp₂ hrest he
              simp only [paintSpans, if_neg hin, if_neg hwhole, hgap, hspan, bind, Except.bind]
              exact hprints

theorem paintTail_prints (heap : Heap) {buf : Text} {p : Paint} (h : Painted buf p)
    (hle : p.cursor ≤ buf.length) :
    Prints heap (fun p' => Painted buf p' ∧ p'.cursor = buf.length) (paintTail heap buf p) := by
  unfold paintTail
  by_cases htail : p.cursor < buf.length
  · rw [if_pos htail]
    have hadd : p.cursor + (buf.length - p.cursor) = buf.length := by omega
    have hin : p.cursor + (buf.length - p.cursor) ≤ buf.length := by omega
    have hprints := paint_prints heap h (fun n => Nat.le_refl n) .plain hin
    rwa [hadd] at hprints
  · rw [if_neg htail]
    refine ⟨some p, rfl, nofun, ?_⟩
    rintro _ ⟨⟩
    exact ⟨h, by omega⟩

/-- **What the colouriser returns**: the whole buffer between escape sequences, and a NUL,
inside the block. -/
theorem petrushHlColorize_spec (heap : Heap) (buf : Text) :
    ∃ r, petrushHlColorize heap buf = .ok r ∧ (r = none → ∃ n, heap.room n = false) ∧
      ∀ mem, r = some mem → ∃ text rest, mem = text ++ nul :: rest ∧ Rendering buf text := by
  obtain ⟨spans, e, hscan, he, horder, _⟩ := petrushHlScan_spec buf hlMaxSpans
  unfold petrushHlColorize
  simp only [hscan, bind, Except.bind]
  by_cases hroom : heap.room (firstCap buf.length) = true
  · simp only [hroom, Bool.not_true, Bool.false_eq_true, if_false]
    have hcap : 0 < firstCap buf.length := by
      unfold firstCap
      split <;> omega
    have hstart : Painted buf ⟨List.replicate (firstCap buf.length) heap.junk, 0, 0⟩ :=
      ⟨⟨[], rfl, rfl⟩, by simpa using hcap⟩
    obtain ⟨r, hspans, hfull, hgood⟩ := paintSpans_prints heap spans hstart horder he
    cases r with
    | none =>
        exact ⟨none, by simp only [hspans, pure, Except.pure], fun _ => hfull rfl, nofun⟩
    | some p₁ =>
        obtain ⟨hp₁, hle⟩ := hgood p₁ rfl
        obtain ⟨r, htail, hfull, hgood⟩ := paintTail_prints heap hp₁ hle
        cases r with
        | none =>
            exact ⟨none, by simp only [hspans, htail, pure, Except.pure], fun _ => hfull rfl, nofun⟩
        | some p₂ =>
            obtain ⟨hp₂, hcursor⟩ := hgood p₂ rfl
            have hwrite : write p₂.out p₂.o nul = .ok (p₂.out.set p₂.o nul) := if_pos hp₂.room
            refine ⟨some (p₂.out.set p₂.o nul), ?_, nofun, ?_⟩
            · simp only [hspans, htail, hwrite, pure, Except.pure]
            · rintro _ ⟨⟩
              refine ⟨p₂.out.take p₂.o, p₂.out.drop (p₂.o + 1), ?_, ?_⟩
              · rw [List.set_eq_take_append_cons_drop, if_pos hp₂.room]
              · have hshown := hp₂.shown
                rwa [hcursor, List.take_length] at hshown
  · refine ⟨none, ?_, fun _ => ⟨_, by simpa using hroom⟩, nofun⟩
    simp only [hroom, Bool.not_false, if_true, pure, Except.pure]

/-! ## The condition -/

/-- Every byte of the buffer is printed. -/
theorem mem_of_mem_buf {buf text : Text} (h : Rendering buf text) {c : Char} (hc : c ∈ buf) :
    c ∈ text := by
  obtain ⟨parts, rfl, rfl⟩ := h
  obtain ⟨piece, hpiece, hmem⟩ := List.mem_flatten.mp hc
  obtain ⟨part, hpart, rfl⟩ := List.mem_map.mp hpiece
  exact List.mem_flatMap.mpr ⟨part, hpart, List.mem_append_right _ hmem⟩

theorem nul_mem_rendering {buf text : Text} (h : Rendering buf text) : nul ∈ text ↔ nul ∈ buf := by
  refine ⟨?_, mem_of_mem_buf h⟩
  have hcsi : ∀ kind, nul ∉ kindCsi kind := by
    intro kind
    cases kind <;> decide
  intro hc
  obtain ⟨parts, rfl, rfl⟩ := h
  obtain ⟨part, hpart, hmem⟩ := List.mem_flatMap.mp hc
  rcases List.mem_append.mp hmem with hmem | hmem
  · exact absurd hmem (hcsi part.1)
  · exact List.mem_flatten.mpr ⟨part.2, List.mem_map_of_mem hpart, hmem⟩

/-- A string has no NUL. -/
theorem nul_notMem_cstr (mem : Text) : nul ∉ cstr mem := by
  intro h
  have hnot := List.mem_takeWhile_imp h
  simp at hnot

theorem cstr_append_nul {text : Text} (h : nul ∉ text) (rest : Text) :
    cstr (text ++ nul :: rest) = text := by
  have hall : ∀ c ∈ text, (c != nul) = true := by
    intro c hc
    have hne : c ≠ nul := fun heq => h (heq ▸ hc)
    simpa using hne
  rw [cstr, List.takeWhile_append_of_pos hall, List.takeWhile_cons_of_neg (by simp),
    List.append_nil]

/-- The line is shown as it was typed: the spans are in place, and what is returned is a
string that is the buffer between escape sequences. -/
structure ShowsTyped (buf : Text) : Prop where
  scanned : ∀ maxSpans : Int, ∃ spans, petrushHlScan buf maxSpans = .ok spans ∧
    InPlace buf spans ∧ (spans.length : Int) ≤ max maxSpans 0
  colored : ∀ heap : Heap, ∃ r, petrushHlColorize heap buf = .ok r ∧
    (r = none → ∃ n, heap.room n = false) ∧
    ∀ mem, r = some mem → nul ∈ mem ∧ Rendering buf (cstr mem)

/-- With a NUL, what is shown is not the line. -/
theorem nul_not_shown {buf : Text} (h : ShowsTyped buf) : nul ∉ buf := by
  obtain ⟨r, _, hfull, hshown⟩ := h.colored ⟨fun _ => true, nul⟩
  cases r with
  | none =>
      obtain ⟨n, hn⟩ := hfull rfl
      contradiction
  | some mem =>
      have hrendering := (hshown mem rfl).2
      exact fun hnul => nul_notMem_cstr mem ((nul_mem_rendering hrendering).mpr hnul)

/-- **Exactly a line without NUL is shown as it was typed.** -/
theorem showsTyped_iff (buf : Text) : ShowsTyped buf ↔ nul ∉ buf := by
  constructor
  · exact nul_not_shown
  · intro hnul
    refine ⟨?_, ?_⟩
    · intro maxSpans
      obtain ⟨spans, e, hscan, he, horder, hroom⟩ := petrushHlScan_spec buf maxSpans
      exact ⟨spans, hscan, horder.inPlace he, hroom⟩
    · intro heap
      obtain ⟨r, hrun, hfull, hshown⟩ := petrushHlColorize_spec heap buf
      refine ⟨r, hrun, hfull, ?_⟩
      intro mem hmem
      obtain ⟨text, rest, rfl, hrendering⟩ := hshown mem hmem
      have htext : nul ∉ text := fun h => hnul ((nul_mem_rendering hrendering).mp h)
      rw [cstr_append_nul htext]
      exact ⟨by simp, hrendering⟩

/-- **A NUL ends what is shown**: the line is `a`, NUL, `b`. -/
theorem nul_ends_line : ¬ ∀ buf : Text, ShowsTyped buf := by
  intro h
  have hmem : nul ∈ ['a', nul, 'b'] := by decide
  exact nul_not_shown (h ['a', nul, 'b']) hmem

end Petrush.Verified.Highlighting

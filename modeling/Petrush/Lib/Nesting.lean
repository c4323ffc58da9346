import Mathlib

/-!
# Brackets outside quotes

Words over any alphabet with a pair of brackets and with quote marks.  A mark protects
everything up to the next mark like it: brackets and other marks in between do not
count.

## Main results

* `Returns.openQuote` — the bracket that ends a group is not quoted.
* `Returns.isLeast`, `closings_empty` — where a group that `o` opens is closed: the
  shortest balanced word that begins with `o`, or nowhere.
-/

namespace Petrush.Lib.Nesting

/-- A pair of brackets, and the quote marks. -/
structure Marks (α : Type) where
  opening : α
  closing : α
  isQuote : α → Bool
  opening_ne : opening ≠ closing
  opening_bare : isQuote opening = false
  closing_bare : isQuote closing = false

namespace Marks

variable {α : Type} [DecidableEq α] (M : Marks α)

/-! ## Quotes -/

/-- The mark that is open after one more letter. -/
def quoteStep : Option α → α → Option α
  | some q, c => if c = q then none else some q
  | none, c => if M.isQuote c then some c else none

/-- The mark that is open after a word. -/
def openQuote (q : Option α) (s : List α) : Option α := s.foldl M.quoteStep q

/-- The letters of a word that no mark protects. -/
def bare : Option α → List α → List α
  | _, [] => []
  | some q, c :: s => bare (M.quoteStep (some q) c) s
  | none, c :: s =>
      if M.isQuote c then bare (M.quoteStep none c) s else c :: bare (M.quoteStep none c) s

@[simp] theorem openQuote_nil (q : Option α) : M.openQuote q [] = q := rfl

@[simp] theorem openQuote_cons (q : Option α) (c : α) (s : List α) :
    M.openQuote q (c :: s) = M.openQuote (M.quoteStep q c) s := rfl

theorem openQuote_append (q : Option α) (s t : List α) :
    M.openQuote q (s ++ t) = M.openQuote (M.openQuote q s) t := List.foldl_append

@[simp] theorem bare_nil (q : Option α) : M.bare q [] = [] := by cases q <;> rfl

theorem bare_cons (q : Option α) (c : α) (s : List α) :
    M.bare q (c :: s) = M.bare q [c] ++ M.bare (M.quoteStep q c) s := by
  cases q with
  | some q => simp [bare]
  | none =>
      by_cases hc : M.isQuote c = true
      · simp [bare, hc]
      · simp [bare, hc]

theorem bare_append (s t : List α) : ∀ q : Option α,
    M.bare q (s ++ t) = M.bare q s ++ M.bare (M.openQuote q s) t := by
  induction s with
  | nil =>
      intro q
      simp
  | cons c s ih =>
      intro q
      rw [List.cons_append, bare_cons, ih, bare_cons M q c s, List.append_assoc, openQuote_cons]

theorem bare_sublist (s : List α) : ∀ q : Option α, (M.bare q s).Sublist s := by
  induction s with
  | nil =>
      intro q
      simp
  | cons c s ih =>
      intro q
      have hone : (M.bare q [c]).Sublist [c] := by
        cases q with
        | some q => simp [bare]
        | none =>
            simp only [bare]
            split <;> simp
      rw [bare_cons]
      exact hone.append (ih _)

/-! ## Depth -/

/-- The brackets of a word that are still open. -/
def depth (q : Option α) (s : List α) : Int :=
  (M.bare q s).count M.opening - (M.bare q s).count M.closing

@[simp] theorem depth_nil (q : Option α) : M.depth q [] = 0 := by simp [depth]

theorem depth_append (q : Option α) (s t : List α) :
    M.depth q (s ++ t) = M.depth q s + M.depth (M.openQuote q s) t := by
  simp only [depth, bare_append, List.count_append, Nat.cast_add]
  omega

theorem depth_cons (q : Option α) (c : α) (s : List α) :
    M.depth q (c :: s) = M.depth q [c] + M.depth (M.quoteStep q c) s :=
  M.depth_append q [c] s

@[simp] theorem depth_quoted (q c : α) : M.depth (some q) [c] = 0 := by simp [depth, bare]

theorem depth_letter (c : α) :
    M.depth none [c] = if c = M.opening then 1 else if c = M.closing then -1 else 0 := by
  have hne := M.opening_ne
  by_cases ho : c = M.opening
  · subst ho
    simp [depth, bare, M.opening_bare, hne]
  · by_cases hc : c = M.closing
    · subst hc
      simp [depth, bare, M.closing_bare, hne.symm]
    · by_cases hq : M.isQuote c = true
      · simp [depth, bare, hq, ho, hc]
      · simp [depth, bare, hq, ho, hc]

/-- A letter moves the depth by one at most. -/
theorem neg_one_le_depth (q : Option α) (c : α) : -1 ≤ M.depth q [c] := by
  cases q with
  | some q => simp
  | none =>
      rw [depth_letter]
      split_ifs <;> omega

/-- Only a closing bracket that is not quoted lowers the depth. -/
theorem quoteStep_of_depth_neg {q : Option α} {c : α} (h : M.depth q [c] < 0) :
    M.quoteStep q c = none := by
  cases q with
  | some q => simp at h
  | none =>
      rw [depth_letter] at h
      split_ifs at h with ho hc
      · omega
      · subst hc
        simp [quoteStep, M.closing_bare]
      · omega

/-! ## Balanced words -/

/-- Every closing bracket has its opening one before it, none is left open, and no mark
either. -/
structure Balanced (s : List α) : Prop where
  nested : ∀ m, 0 ≤ M.depth none (s.take m)
  closed : M.depth none s = 0
  unquoted : M.openQuote none s = none

/-- The lengths of the balanced words, with a bracket in them, that `s` begins with. -/
def closings (s : List α) : Set Nat :=
  {n | n ≤ s.length ∧ M.opening ∈ M.bare none (s.take n) ∧ M.Balanced (s.take n)}

/-- A word that opens a group. -/
structure Opens (o : List α) : Prop where
  opening_mem : M.opening ∈ M.bare none o
  closing_notMem : M.closing ∉ o
  unquoted : M.openQuote none o = none

/-- From depth `d` on, `s` comes to depth 0 after `n` letters, and not before. -/
structure Returns (d : Int) (q : Option α) (s : List α) (n : Nat) : Prop where
  le : n ≤ s.length
  zero : d + M.depth q (s.take n) = 0
  pos : ∀ m < n, 0 < d + M.depth q (s.take m)

variable {M}

theorem Returns.nil (q : Option α) (s : List α) : M.Returns 0 q s 0 :=
  ⟨Nat.zero_le _, by simp, fun m hm => absurd hm (Nat.not_lt_zero m)⟩

theorem Returns.cons {d : Int} {q : Option α} {c : α} {s : List α} {n : Nat} (hd : 0 < d)
    (h : M.Returns (d + M.depth q [c]) (M.quoteStep q c) s n) :
    M.Returns d q (c :: s) (n + 1) := by
  refine ⟨Nat.succ_le_succ h.le, ?_, ?_⟩
  · have hzero := h.zero
    rw [List.take_succ_cons, depth_cons]
    omega
  · intro m hm
    cases m with
    | zero => simpa using hd
    | succ m =>
        have hpos := h.pos m (Nat.lt_of_succ_lt_succ hm)
        rw [List.take_succ_cons, depth_cons]
        omega

/-- **The bracket that ends a group is not quoted.** -/
theorem Returns.openQuote {s : List α} : ∀ {d : Int} {q : Option α} {n : Nat}, 0 < d →
    M.Returns d q s n → M.openQuote q (s.take n) = none := by
  induction s with
  | nil =>
      intro d q n hd h
      have hzero := h.zero
      simp only [List.take_nil, depth_nil] at hzero
      omega
  | cons c s ih =>
      intro d q n hd h
      cases n with
      | zero =>
          have hzero := h.zero
          simp only [List.take_zero, depth_nil] at hzero
          omega
      | succ n =>
          have hzero := h.zero
          rw [List.take_succ_cons, depth_cons] at hzero
          have hrest : M.Returns (d + M.depth q [c]) (M.quoteStep q c) s n := by
            refine ⟨Nat.le_of_succ_le_succ h.le, by omega, fun m hm => ?_⟩
            have hpos := h.pos (m + 1) (Nat.succ_lt_succ hm)
            rw [List.take_succ_cons, depth_cons] at hpos
            omega
          rw [List.take_succ_cons, openQuote_cons]
          by_cases hlast : 0 < d + M.depth q [c]
          · exact ih hlast hrest
          · -- the letter itself is the last bracket
            have hn : n = 0 := by
              by_contra hn
              have hpos := hrest.pos 0 (Nat.pos_of_ne_zero hn)
              simp only [List.take_zero, depth_nil] at hpos
              omega
            subst hn
            exact M.quoteStep_of_depth_neg (by omega)

/-! ## Groups -/

/-- Before the group is open nothing is closed. -/
theorem Opens.depth_take {o : List α} (ho : M.Opens o) (m : Nat) :
    M.depth none (o.take m) = ((M.bare none (o.take m)).count M.opening : Int) := by
  have hnone : M.closing ∉ M.bare none (o.take m) := fun hmem =>
    ho.closing_notMem (List.mem_of_mem_take ((M.bare_sublist _ _).subset hmem))
  rw [depth, List.count_eq_zero.mpr hnone]
  simp

theorem Opens.depth_pos {o : List α} (ho : M.Opens o) {m : Nat}
    (h : M.opening ∈ M.bare none (o.take m)) : 0 < M.depth none (o.take m) := by
  rw [ho.depth_take]
  exact_mod_cast List.count_pos_iff.mpr h

theorem Opens.depth_append {o : List α} (ho : M.Opens o) (t : List α) :
    M.depth none (o ++ t) = M.depth none o + M.depth none t := by
  rw [Marks.depth_append, ho.unquoted]

omit [DecidableEq α] in
/-- The words that an open group begins with. -/
theorem take_append_cases (o t : List α) (m : Nat) :
    (o ++ t).take m = o.take m ∧ m ≤ o.length ∨
      ∃ k, m = o.length + k ∧ (o ++ t).take m = o ++ t.take k := by
  rcases Nat.le_total m o.length with hm | hm
  · exact Or.inl ⟨List.take_append_of_le_length hm, hm⟩
  · obtain ⟨k, rfl⟩ := Nat.exists_eq_add_of_le hm
    exact Or.inr ⟨k, rfl, List.take_length_add_append k⟩

/-- **Where a group is closed**, the shortest balanced word ends. -/
theorem Returns.isLeast {o t : List α} {n : Nat} (ho : M.Opens o)
    (h : M.Returns (M.depth none o) none t n) : IsLeast (M.closings (o ++ t)) (o.length + n) := by
  have hopen : 0 < M.depth none o := by
    have hpos := ho.depth_pos (m := o.length) (by simpa using ho.opening_mem)
    simpa using hpos
  have htake : (o ++ t).take (o.length + n) = o ++ t.take n := List.take_length_add_append n
  constructor
  · refine ⟨?_, ?_, ?_, ?_, ?_⟩
    · rw [List.length_append]
      exact Nat.add_le_add_left h.le _
    · rw [htake, bare_append]
      exact List.mem_append_left _ ho.opening_mem
    · intro m
      rw [htake]
      rcases take_append_cases o (t.take n) m with ⟨heq, -⟩ | ⟨k, -, heq⟩
      · rw [heq, ho.depth_take]
        exact Int.natCast_nonneg _
      · rw [heq, ho.depth_append, List.take_take]
        rcases Nat.lt_or_ge k n with hk | hk
        · rw [Nat.min_eq_left hk.le]
          exact (h.pos k hk).le
        · rw [Nat.min_eq_right hk, h.zero]
    · rw [htake, ho.depth_append]
      exact h.zero
    · rw [htake, openQuote_append, ho.unquoted]
      exact h.openQuote hopen
  · rintro m ⟨-, hmem, hbal⟩
    rcases take_append_cases o t m with ⟨heq, -⟩ | ⟨k, rfl, heq⟩
    · rw [heq] at hmem hbal
      exact absurd hbal.closed (ho.depth_pos hmem).ne'
    · by_contra hlt
      have hpos := h.pos k (by omega)
      have hclosed := hbal.closed
      rw [heq, ho.depth_append] at hclosed
      omega

/-- A group that is never closed. -/
theorem closings_empty {o t : List α} (ho : M.Opens o)
    (h : ∀ m, 0 < M.depth none o + M.depth none (t.take m)) : M.closings (o ++ t) = ∅ := by
  rw [Set.eq_empty_iff_forall_notMem]
  rintro m ⟨-, hmem, hbal⟩
  rcases take_append_cases o t m with ⟨heq, -⟩ | ⟨k, rfl, heq⟩
  · rw [heq] at hmem hbal
    exact absurd hbal.closed (ho.depth_pos hmem).ne'
  · have hclosed := hbal.closed
    rw [heq, ho.depth_append] at hclosed
    exact absurd hclosed (h k).ne'

end Marks

end Petrush.Lib.Nesting

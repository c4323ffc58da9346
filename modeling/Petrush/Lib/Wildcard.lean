import Mathlib

/-!
# Wildcards and the search with one point to come back to

A pattern is a list in which `star` stands for any sequence and `one` for one
element.  A search reads pattern and string from the left and remembers the last
`star` only: behind a mismatch it takes one element more into what that `star` stands
for.  What it may still find is `Open`, and no turn loses or gains anything: the earlier stars
need not be tried again, since what a later one stands for can take their part.

## Main results

* `open_star`, `open_eat`, `open_back` — what each turn of a search keeps.
* `open_nil` — what is left at the end of the string.
* `weight_star`, `weight_eat`, `weight_back` — every turn makes the weight smaller.
-/

namespace Petrush.Lib.Wildcard

variable {α : Type} [DecidableEq α] (star one : α)

/-! ## The relation -/

/-- What one element of a pattern may be replaced by. -/
def Piece (c : α) (t : List α) : Prop :=
  if c = star then True else if c = one then t.length = 1 else t = [c]

/-- The string is the pattern with every element replaced. -/
def Matches (p s : List α) : Prop := ∃ ts, List.Forall₂ (Piece star one) p ts ∧ s = ts.flatten

variable {star one}

@[simp] theorem matches_nil {s : List α} : Matches star one [] s ↔ s = [] := by
  constructor
  · rintro ⟨ts, h, rfl⟩
    cases h
    rfl
  · rintro rfl
    exact ⟨[], List.Forall₂.nil, rfl⟩

/-- The first element takes a front of the string. -/
theorem matches_cons {c : α} {p s : List α} :
    Matches star one (c :: p) s ↔ ∃ t u, s = t ++ u ∧ Piece star one c t ∧ Matches star one p u := by
  constructor
  · rintro ⟨ts, h, rfl⟩
    cases h with
    | cons hc hp => exact ⟨_, _, rfl, hc, _, hp, rfl⟩
  · rintro ⟨t, u, rfl, hc, ts, hp, rfl⟩
    exact ⟨t :: ts, List.Forall₂.cons hc hp, rfl⟩

theorem matches_star {p s : List α} :
    Matches star one (star :: p) s ↔ ∃ t u, s = t ++ u ∧ Matches star one p u := by
  rw [matches_cons]
  simp [Piece]

/-- Any other element takes one element. -/
theorem matches_eat {c a : α} {p s : List α} (hc : c ≠ star) :
    Matches star one (c :: p) (a :: s) ↔ (c = one ∨ c = a) ∧ Matches star one p s := by
  have hpiece : ∀ t, Piece star one c t → t.length = 1 := by
    intro t ht
    rw [Piece, if_neg hc] at ht
    split at ht
    · exact ht
    · rw [ht]
      rfl
  rw [matches_cons]
  constructor
  · rintro ⟨t, u, hs, ht, hu⟩
    obtain ⟨b, rfl⟩ := List.length_eq_one_iff.mp (hpiece t ht)
    obtain ⟨rfl, rfl⟩ := List.cons.inj hs
    refine ⟨?_, hu⟩
    rw [Piece, if_neg hc] at ht
    split at ht
    · exact Or.inl ‹_›
    · exact Or.inr (List.cons.inj ht).1.symm
  · rintro ⟨h, hs⟩
    refine ⟨[a], s, rfl, ?_, hs⟩
    rw [Piece, if_neg hc]
    split
    · rfl
    · obtain h | rfl := h
      · contradiction
      · rfl

/-- A pattern matches itself. -/
theorem matches_self (p : List α) : Matches star one p p := by
  induction p with
  | nil => exact matches_nil.mpr rfl
  | cons c p ih =>
      refine matches_cons.mpr ⟨[c], p, rfl, ?_, ih⟩
      rw [Piece]
      split
      · trivial
      · split <;> rfl

/-- One element of a string that a pattern matches as it stands may be replaced. -/
theorem matches_replace {c : α} {t : List α} (h : Piece star one c t) (a b : List α) :
    Matches star one (a ++ c :: b) (a ++ t ++ b) := by
  induction a with
  | nil => exact matches_cons.mpr ⟨t, b, rfl, h, matches_self b⟩
  | cons d a ih =>
      refine matches_cons.mpr ⟨[d], a ++ t ++ b, rfl, ?_, ih⟩
      rw [Piece]
      split
      · trivial
      · split <;> rfl

/-- Stars match the empty string, and nothing else does. -/
theorem matches_empty {p : List α} : Matches star one p [] ↔ ∀ c ∈ p, c = star := by
  induction p with
  | nil => simp
  | cons c p ih =>
      rw [matches_cons, List.forall_mem_cons, ← ih]
      constructor
      · rintro ⟨t, u, hs, ht, hu⟩
        obtain ⟨rfl, rfl⟩ := List.append_eq_nil_iff.mp hs.symm
        refine ⟨?_, hu⟩
        by_contra hc
        rw [Piece, if_neg hc] at ht
        split at ht
        · contradiction
        · contradiction
      · rintro ⟨rfl, hp⟩
        exact ⟨[], [], rfl, by simp [Piece], hp⟩

/-- A pattern without stars and ones matches itself only. -/
theorem matches_literal {p : List α} (hstar : star ∉ p) (hone : one ∉ p) :
    ∀ {s : List α}, Matches star one p s ↔ s = p := by
  induction p with
  | nil => exact matches_nil
  | cons c p ih =>
      rw [List.mem_cons, not_or] at hstar hone
      intro s
      cases s with
      | nil =>
          rw [matches_empty]
          constructor
          · intro h
            exact absurd (h c (by simp)).symm hstar.1
          · intro h
            contradiction
      | cons a s =>
          rw [matches_eat (Ne.symm hstar.1), ih hstar.2 hone.2, List.cons.injEq]
          constructor
          · rintro ⟨h | h, hs⟩
            · exact absurd h.symm hone.1
            · exact ⟨h.symm, hs⟩
          · rintro ⟨h, hs⟩
            exact ⟨.inr h.symm, hs⟩

/-- A front without stars takes as many elements as it has. -/
theorem matches_front {v p s : List α} (hv : star ∉ v) (h : Matches star one (v ++ p) s) :
    v.length ≤ s.length ∧ Matches star one p (s.drop v.length) := by
  induction v generalizing s with
  | nil => exact ⟨Nat.zero_le _, h⟩
  | cons c v ih =>
      have hc : c ≠ star := fun heq => hv (by simp [heq])
      cases s with
      | nil =>
          have hall := matches_empty.mp h
          exact absurd (hall c (by simp)) hc
      | cons a s =>
          obtain ⟨-, hrest⟩ := (matches_eat hc).mp h
          obtain ⟨hle, hmatch⟩ := ih (fun hmem => hv (by simp [hmem])) hrest
          exact ⟨Nat.succ_le_succ hle, hmatch⟩

/-- A star takes whatever stands before what it took. -/
theorem matches_star_behind {p s u : List α} (h : Matches star one (star :: p) u) (hu : u <:+ s) :
    Matches star one (star :: p) s := by
  obtain ⟨t, v, rfl, hv⟩ := matches_star.mp h
  obtain ⟨w, rfl⟩ := hu
  exact matches_star.mpr ⟨w ++ t, v, by simp, hv⟩

/-! ## The search -/

/-- The pattern behind the last star, and where it was tried. -/
abbrev Point (α : Type) := Option (List α × List α)

/-- What a search may still find: a match from where it is, or one from behind the
point to come back to. -/
def Open (star one : α) (p s : List α) (back : Point α) : Prop :=
  Matches star one p s ∨
    ∃ q a u t, back = some (q, a :: u) ∧ t <:+ u ∧ Matches star one q t

/-- Since the point the search has read elements of the pattern that are no stars, and
as many elements of the string. -/
def Reached (star : α) (p s : List α) (back : Point α) : Prop :=
  ∀ q u, back = some (q, u) → ∃ v w, star ∉ v ∧ q = v ++ p ∧ u = w ++ s ∧ v.length = w.length

omit [DecidableEq α] in
theorem reached_none (p s : List α) : Reached star p s none := by
  intro q u h
  contradiction

omit [DecidableEq α] in
theorem reached_self (p s : List α) : Reached star p s (some (p, s)) := by
  intro q u h
  obtain ⟨rfl, rfl⟩ := Prod.mk.inj (Option.some.inj h)
  exact ⟨[], [], by simp, rfl, rfl, rfl⟩

omit [DecidableEq α] in
theorem reached_eat {c a : α} {p s : List α} {back : Point α} (hc : c ≠ star)
    (h : Reached star (c :: p) (a :: s) back) : Reached star p s back := by
  intro q u hback
  obtain ⟨v, w, hv, rfl, rfl, hlen⟩ := h q u hback
  refine ⟨v ++ [c], w ++ [a], ?_, by simp, by simp, by simp [hlen]⟩
  simp only [List.mem_append, List.mem_singleton, not_or]
  exact ⟨hv, fun heq => hc heq.symm⟩

theorem open_none {p s : List α} : Open star one p s none ↔ Matches star one p s := by
  simp [Open]

/-- **Coming back to a point** again may find what is behind it. -/
theorem open_self {p s : List α} :
    Open star one p s (some (p, s)) ↔ ∃ t, t <:+ s ∧ Matches star one p t := by
  constructor
  · rintro (h | ⟨q, a, u, t, hback, ht, hq⟩)
    · exact ⟨s, List.suffix_refl s, h⟩
    · obtain ⟨rfl, rfl⟩ := Prod.mk.inj (Option.some.inj hback)
      exact ⟨t, ht.trans (List.suffix_cons a u), hq⟩
  · rintro ⟨t, ht, hp⟩
    cases s with
    | nil =>
        obtain rfl := List.suffix_nil.mp ht
        exact Or.inl hp
    | cons a s =>
        obtain rfl | ht := List.suffix_cons_iff.mp ht
        · exact Or.inl hp
        · exact Or.inr ⟨p, a, s, t, rfl, ht, hp⟩

/-- **At a star** the point is the star, and the point before it is given up. -/
theorem open_star {p s : List α} {back : Point α} (h : Reached star (star :: p) s back) :
    Open star one (star :: p) s back ↔ Open star one p s (some (p, s)) := by
  have hself : Open star one p s (some (p, s)) ↔ Matches star one (star :: p) s := by
    rw [open_self, matches_star]
    constructor
    · rintro ⟨t, ⟨w, rfl⟩, hp⟩
      exact ⟨w, t, rfl, hp⟩
    · rintro ⟨w, t, rfl, hp⟩
      exact ⟨t, ⟨w, rfl⟩, hp⟩
  rw [hself]
  constructor
  · rintro (hmatch | ⟨q, a, u, t, hback, ht, hq⟩)
    · exact hmatch
    · obtain ⟨v, w, hv, rfl, hu, hlen⟩ := h _ _ hback
      obtain ⟨hle, hstar⟩ := matches_front hv hq
      -- What is left of the later try is a part of what is left now.
      have hpart : t.drop v.length <:+ s := by
        have hboth : t.drop v.length <:+ w ++ s :=
          (List.drop_suffix _ _).trans (hu ▸ ht.trans (List.suffix_cons a u))
        refine List.suffix_of_suffix_length_le hboth (List.suffix_append w s) ?_
        have hlen' := congrArg List.length hu
        have htu := ht.length_le
        simp only [List.length_cons, List.length_append, List.length_drop] at hlen' ⊢
        omega
      exact matches_star_behind hstar hpart
  · exact Or.inl

/-- The stars of a run are one. -/
theorem open_stars (p s : List α) :
    Open star one p s (some (p, s)) ↔
      Open star one (p.dropWhile (· = star)) s (some (p.dropWhile (· = star), s)) := by
  induction p with
  | nil => rfl
  | cons c p ih =>
      by_cases hc : c = star
      · subst hc
        rw [open_star (reached_self _ s), ih]
        simp
      · simp [hc]

/-- A last star matches what is left. -/
theorem open_last (s : List α) : Open star one [] s (some ([], s)) :=
  open_self.mpr ⟨[], List.nil_suffix, matches_nil.mpr rfl⟩

/-- **An element is read** when it is `one` or the element of the string. -/
theorem open_eat {c a : α} {p s : List α} {back : Point α} (hc : c ≠ star)
    (h : c = one ∨ c = a) :
    Open star one (c :: p) (a :: s) back ↔ Open star one p s back := by
  rw [Open, Open, matches_eat hc]
  simp [h]

/-- **At a mismatch** only the point is left. -/
theorem open_back {p s : List α} {a : α} {back : Point α}
    (hmis : ¬ Matches star one p (a :: s)) :
    Open star one p (a :: s) back ↔
      ∃ q b u, back = some (q, b :: u) ∧ Open star one q u (some (q, u)) := by
  rw [Open]
  simp only [hmis, false_or, open_self]
  constructor
  · rintro ⟨q, b, u, t, hback, ht, hq⟩
    exact ⟨q, b, u, hback, t, ht, hq⟩
  · rintro ⟨q, b, u, hback, t, ht, hq⟩
    exact ⟨q, b, u, t, hback, ht, hq⟩

theorem open_back_point {p q s u : List α} {a b : α} (hmis : ¬ Matches star one p (a :: s)) :
    Open star one p (a :: s) (some (q, b :: u)) ↔ Open star one q u (some (q, u)) := by
  rw [open_back hmis]
  constructor
  · rintro ⟨q', b', u', heq, h⟩
    cases heq
    exact h
  · intro h
    exact ⟨q, b, u, rfl, h⟩

omit [DecidableEq α] in
/-- The string goes on behind a point that was reached. -/
theorem back_cons {p s : List α} {a : α} {q u : List α}
    (h : Reached star p (a :: s) (some (q, u))) : ∃ b u', u = b :: u' := by
  obtain ⟨v, w, -, -, rfl, -⟩ := h q u rfl
  cases w with
  | nil => exact ⟨a, s, rfl⟩
  | cons b w => exact ⟨b, w ++ a :: s, rfl⟩

/-- **At the end of the string** nothing behind the point can match. -/
theorem open_nil {p : List α} {back : Point α} (h : Reached star p [] back) :
    Open star one p [] back ↔ ∀ c ∈ p, c = star := by
  have hempty : Matches star one p [] ↔ ∀ c ∈ p, c = star := matches_empty
  rw [← hempty]
  constructor
  · rintro (hmatch | ⟨q, a, u, t, hback, ht, hq⟩)
    · exact hmatch
    · obtain ⟨v, w, hv, rfl, hu, hlen⟩ := h _ _ hback
      obtain ⟨hle, -⟩ := matches_front hv hq
      have hlen' := congrArg List.length hu
      have htu := ht.length_le
      simp only [List.length_cons, List.length_append, List.length_nil] at hlen'
      omega
  · exact Or.inl

/-! ## The turns of a search -/

/-- The strings of a search have at most `size` elements. -/
def Fits (size : Nat) (s : List α) (back : Point α) : Prop :=
  s.length ≤ size ∧ ∀ q u, back = some (q, u) → u.length ≤ size

omit [DecidableEq α] in
theorem fits_self {size : Nat} {s : List α} (p : List α) (h : s.length ≤ size) :
    Fits size s (some (p, s)) := by
  refine ⟨h, ?_⟩
  intro q u hback
  obtain ⟨rfl, rfl⟩ := Prod.mk.inj (Option.some.inj hback)
  exact h

omit [DecidableEq α] in
theorem Fits.tail {size : Nat} {a : α} {s : List α} {back : Point α}
    (h : Fits size (a :: s) back) : Fits size s back :=
  ⟨Nat.le_of_succ_le h.1, h.2⟩

omit [DecidableEq α] in
theorem Fits.back {size : Nat} {b : α} {q s u : List α}
    (h : Fits size s (some (q, b :: u))) : Fits size u (some (q, u)) :=
  fits_self q (Nat.le_of_succ_le (h.2 q (b :: u) rfl))

/-- A bound on the turns of a search in a string of at most `size` elements: what the
point has still to read of the pattern, where it is, and where the search is. -/
def weight (size : Nat) (p s : List α) : Point α → Nat
  | none => p.length * ((size + 1) * (size + 1)) + size * (size + 1) + s.length
  | some (q, u) => q.length * ((size + 1) * (size + 1)) + u.length * (size + 1) + s.length

/-- What is less in the first place is less. -/
theorem weight_lt {size r r' x x' y y' : Nat} (hr : r < r') (hx : x ≤ size) (hy : y ≤ size) :
    r * ((size + 1) * (size + 1)) + x * (size + 1) + y <
      r' * ((size + 1) * (size + 1)) + x' * (size + 1) + y' := by
  have hfirst : (r + 1) * ((size + 1) * (size + 1)) ≤ r' * ((size + 1) * (size + 1)) :=
    Nat.mul_le_mul_right _ hr
  have hsecond : x * (size + 1) ≤ size * (size + 1) := Nat.mul_le_mul_right _ hx
  have hone : (r + 1) * ((size + 1) * (size + 1)) =
      r * ((size + 1) * (size + 1)) + (size * (size + 1) + (size + 1)) := by ring
  omega

omit [DecidableEq α] in
/-- Behind a star, and behind the stars that follow it. -/
theorem weight_star {size : Nat} {p p' s : List α} {back : Point α}
    (h : Reached star (star :: p) s back) (hs : s.length ≤ size) (hp : p'.length ≤ p.length) :
    weight size p' s (some (p', s)) < weight size (star :: p) s back := by
  cases back with
  | none => exact weight_lt (by simp; omega) hs hs
  | some point =>
      obtain ⟨q, u⟩ := point
      obtain ⟨v, w, -, rfl, -, -⟩ := h q u rfl
      exact weight_lt (by simp; omega) hs hs

omit [DecidableEq α] in
theorem weight_eat (size : Nat) (c a : α) (p s : List α) (back : Point α) :
    weight size p s back < weight size (c :: p) (a :: s) back := by
  cases back with
  | none =>
      have hle : p.length * ((size + 1) * (size + 1)) ≤
          (c :: p).length * ((size + 1) * (size + 1)) := Nat.mul_le_mul_right _ (by simp)
      simp only [weight, List.length_cons] at hle ⊢
      omega
  | some point =>
      simp only [weight, List.length_cons]
      omega

omit [DecidableEq α] in
theorem weight_back {size : Nat} {p q s u : List α} {b : α}
    (h : Fits size s (some (q, b :: u))) :
    weight size q u (some (q, u)) < weight size p s (some (q, b :: u)) := by
  have hle := h.2 q (b :: u) rfl
  have hone : (u.length + 1) * (size + 1) = u.length * (size + 1) + (size + 1) := by ring
  simp only [weight, List.length_cons] at hle ⊢
  omega

omit [DecidableEq α] in
/-- The weight of the beginning. -/
theorem weight_start {size : Nat} {p s : List α} (h : s.length ≤ size) :
    weight size p s none < (p.length + 1) * ((size + 1) * (size + 1)) := by
  have hlt : p.length * ((size + 1) * (size + 1)) + size * (size + 1) + s.length <
      (p.length + 1) * ((size + 1) * (size + 1)) + 0 * (size + 1) + 0 :=
    weight_lt (Nat.lt_succ_self p.length) (Nat.le_refl size) h
  simpa [weight] using hlt

end Petrush.Lib.Wildcard

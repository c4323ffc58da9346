import Petrush.Mid.Expand

/-!
# Expansion piece by piece

`expand_params_inner` goes through a word from the left: what a piece leaves is in front
of what the rest leaves.  The words inside braces are shorter than the word, so the bound on
them does not matter.

## Main results

* `expandParamsFrom_form`, `expandParamsFrom_plain` — one form, and text without a `$`.
* `expandWordN_eq` — a bound larger than the word is enough.
-/

namespace Petrush.Verified.Expansion

open Petrush.Foundation
open Petrush.Lib.CText
open Petrush.Mid.Lexer
open Petrush.Mid.Arith
open Petrush.Mid.Expand

/-- Text in front of what was expanded. -/
def prepend (v : Text) (r : Text × Effects) : Text × Effects := (v ++ r.1, r.2)

@[simp] theorem prepend_nil (r : Text × Effects) : prepend [] r = r := rfl

@[simp] theorem prepend_prepend (v u : Text) (r : Text × Effects) :
    prepend v (prepend u r) = prepend (v ++ u) r := by
  rw [prepend, prepend, prepend, List.append_assoc]

section Pieces

variable (w : World) (ctx : Ctx) (word : Text → Effects → Text × Effects) (esc : Bool)

/-- The counter passes over bytes. -/
theorem expandParamsFrom_drop (n : Nat) (s : Text) (fx : Effects) :
    expandParamsFrom w ctx word esc n s fx = expandParamsFrom w ctx word esc 0 (s.drop n) fx := by
  induction n generalizing s with
  | zero => rfl
  | succ n ih =>
      cases s with
      | nil => simp [expandParamsFrom]
      | cons c s => rw [expandParamsFrom, ih, List.drop_succ_cons]

@[simp] theorem expandParamsFrom_nil (fx : Effects) :
    expandParamsFrom w ctx word esc 0 [] fx = ([], fx) := by
  rw [expandParamsFrom]

theorem expandParamsFrom_cons (c : Char) (s : Text) (fx : Effects) :
    expandParamsFrom w ctx word esc 0 (c :: s) fx =
      match pieceAt esc (c :: s) with
      | (.lit t, len) => prepend t (expandParamsFrom w ctx word esc 0 (s.drop (len - 1)) fx)
      | (.form d, len) =>
          prepend (evalDollar w ctx word d fx).1
            (expandParamsFrom w ctx word esc 0 (s.drop (len - 1))
              (evalDollar w ctx word d fx).2) := by
  rw [expandParamsFrom]
  cases pieceAt esc (c :: s) with
  | mk piece len =>
      cases piece with
      | lit t => simp only [expandParamsFrom_drop w ctx word esc (len - 1)]; rfl
      | form d => simp only [expandParamsFrom_drop w ctx word esc (len - 1)]; rfl

/-- A `$` does not begin an escape. -/
theorem pieceAt_form {s : Text} {d : Dollar} {len : Nat} (h : dollarAt ('$' :: s) = some (d, len)) :
    pieceAt esc ('$' :: s) = (.form d, len) := by
  rw [pieceAt, if_neg (by simp), h]

theorem pieceAt_stray {s : Text} (h : dollarAt ('$' :: s) = none) :
    pieceAt esc ('$' :: s) = (.lit ['$'], 1) := by
  rw [pieceAt, if_neg (by simp), h]

/-- **A form** at the head of a text. -/
theorem expandParamsFrom_form {a rest : Text} {d : Dollar}
    (h : dollarAt ('$' :: a ++ rest) = some (d, a.length + 1)) (fx : Effects) :
    expandParamsFrom w ctx word esc 0 ('$' :: a ++ rest) fx =
      prepend (evalDollar w ctx word d fx).1
        (expandParamsFrom w ctx word esc 0 rest (evalDollar w ctx word d fx).2) := by
  rw [List.cons_append] at h ⊢
  rw [expandParamsFrom_cons, pieceAt_form esc h]
  simp only [Nat.add_sub_cancel, List.drop_left]

/-- A `$` that begins no form stands for itself. -/
theorem expandParamsFrom_stray {s : Text} (h : dollarAt ('$' :: s) = none) (fx : Effects) :
    expandParamsFrom w ctx word esc 0 ('$' :: s) fx =
      prepend ['$'] (expandParamsFrom w ctx word esc 0 s fx) := by
  rw [expandParamsFrom_cons, pieceAt_stray esc h]
  rfl

theorem dollarAt_other {c : Char} (hc : c ≠ '$') (s : Text) : dollarAt (c :: s) = none := by
  unfold dollarAt
  split <;> simp_all

/-- A byte that is no `$`. -/
theorem expandParamsFrom_other {c : Char} (hc : c ≠ '$') (s : Text) (fx : Effects) :
    expandParamsFrom w ctx word false 0 (c :: s) fx =
      prepend [c] (expandParamsFrom w ctx word false 0 s fx) := by
  have hpiece : pieceAt false (c :: s) = (.lit [c], 1) := by
    rw [pieceAt, if_neg (by simp), dollarAt_other hc]
  rw [expandParamsFrom_cons, hpiece]
  rfl

/-- **Text without a `$`** in front of more text. -/
theorem expandParamsFrom_plain {s : Text} (h : '$' ∉ s) (rest : Text) (fx : Effects) :
    expandParamsFrom w ctx word false 0 (s ++ rest) fx =
      prepend s (expandParamsFrom w ctx word false 0 rest fx) := by
  induction s with
  | nil => rfl
  | cons c s ih =>
      rw [List.mem_cons, not_or] at h
      rw [List.cons_append, expandParamsFrom_other w ctx word (Ne.symm h.1), ih h.2,
        prepend_prepend]
      rfl

end Pieces

/-! ## Words inside words -/

/-- The words inside the braces of a form. -/
def inside : Dollar → Text
  | .default _ inner | .alternate _ inner => inner
  | _ => []

section Words

variable (w : World) (ctx : Ctx)

/-- Only the word inside a form is expanded in it. -/
theorem evalDollar_congr {word word' : Text → Effects → Text × Effects} {d : Dollar}
    (h : ∀ fx, word (inside d) fx = word' (inside d) fx) (fx : Effects) :
    evalDollar w ctx word d fx = evalDollar w ctx word' d fx := by
  cases d with
  | default name inner =>
      simp only [evalDollar]
      cases varValue ctx name with
      | none => exact h _
      | some v =>
          cases v with
          | nil => exact h _
          | cons c v => rfl
  | alternate name inner =>
      simp only [evalDollar]
      cases varValue ctx name with
      | none => rfl
      | some v =>
          cases v with
          | nil => rfl
          | cons c v => exact h _
  | length name => rfl
  | var name => rfl
  | count => rfl
  | status => rfl
  | flags => rfl
  | join => rfl
  | digit d => rfl
  | arith inner => rfl
  | cmdsubst inner => rfl

theorem inside_braceAt {s : Text} {d : Dollar} {n : Nat} (h : braceAt s = some (d, n)) :
    (inside d).length ≤ s.length := by
  have hbody : (s.takeWhile (· != '\x7d')).length ≤ s.length := (List.takeWhile_prefix _).length_le
  unfold braceAt at h
  simp only at h
  split at h
  · contradiction
  · split at h
    · split at h
      · obtain ⟨rfl, rfl⟩ := Prod.mk.inj (Option.some.inj h)
        exact Nat.zero_le _
      · contradiction
    · split at h
      · contradiction
      · split at h
        next heq =>
          obtain ⟨rfl, rfl⟩ := Prod.mk.inj (Option.some.inj h)
          exact Nat.zero_le _
        next word heq =>
          obtain ⟨rfl, rfl⟩ := Prod.mk.inj (Option.some.inj h)
          have hlen := congrArg List.length heq
          simp only [List.length_drop, List.length_cons] at hlen
          show word.length ≤ s.length
          omega
        next word heq =>
          obtain ⟨rfl, rfl⟩ := Prod.mk.inj (Option.some.inj h)
          have hlen := congrArg List.length heq
          simp only [List.length_drop, List.length_cons] at hlen
          show word.length ≤ s.length
          omega
        · contradiction

/-- The word inside a form is shorter than the text. -/
theorem inside_dollarAt {s : Text} {d : Dollar} {n : Nat} (h : dollarAt s = some (d, n)) :
    (inside d).length < s.length := by
  unfold dollarAt at h
  split at h
  next s =>
    obtain ⟨⟨d', n'⟩, hbrace, heq⟩ := Option.map_eq_some_iff.mp h
    obtain ⟨rfl, rfl⟩ := Prod.mk.inj heq
    have hlen := inside_braceAt hbrace
    simp only [List.length_cons]
    omega
  iterate 5
    obtain ⟨rfl, rfl⟩ := Prod.mk.inj (Option.some.inj h)
    simp [inside]
  next s =>
    -- `$(`: neither form has a word inside
    simp only at h
    split_ifs at h
    · obtain ⟨rfl, rfl⟩ := Prod.mk.inj (Option.some.inj h)
      simp [inside]
    · obtain ⟨rfl, rfl⟩ := Prod.mk.inj (Option.some.inj h)
      simp [inside]
  next c s _ =>
    split_ifs at h
    · obtain ⟨rfl, rfl⟩ := Prod.mk.inj (Option.some.inj h)
      simp [inside]
    · obtain ⟨rfl, rfl⟩ := Prod.mk.inj (Option.some.inj h)
      simp [inside]
  next => contradiction

/-- The words inside a text are all that `word` is asked for. -/
theorem expandParamsFrom_congr {word word' : Text → Effects → Text × Effects} (esc : Bool)
    {s : Text} (h : ∀ t fx, t.length < s.length → word t fx = word' t fx) : ∀ skip fx,
    expandParamsFrom w ctx word esc skip s fx = expandParamsFrom w ctx word' esc skip s fx := by
  induction s with
  | nil =>
      intro skip fx
      cases skip <;> rfl
  | cons c s ih =>
      have hs : ∀ t fx, t.length < s.length → word t fx = word' t fx := by
        intro t fx ht
        exact h t fx (Nat.lt_succ_of_lt ht)
      intro skip fx
      cases skip with
      | succ skip =>
          rw [expandParamsFrom, expandParamsFrom]
          exact ih hs skip fx
      | zero =>
          rw [expandParamsFrom, expandParamsFrom]
          cases hpiece : pieceAt esc (c :: s) with
          | mk piece len =>
              cases piece with
              | lit t => simp only [ih hs]
              | form d =>
                  have hform : ∃ n, dollarAt (c :: s) = some (d, n) := by
                    rw [pieceAt] at hpiece
                    split at hpiece
                    · simp at hpiece
                    · split at hpiece
                      next hat =>
                        obtain ⟨h₁, h₂⟩ := Prod.mk.inj hpiece
                        rw [Piece.form.inj h₁] at hat
                        exact ⟨_, hat⟩
                      · simp at hpiece
                  obtain ⟨n, hat⟩ := hform
                  have heval : evalDollar w ctx word d fx = evalDollar w ctx word' d fx :=
                    evalDollar_congr w ctx (fun fx => h _ fx (inside_dollarAt hat)) fx
                  simp only [heval, ih hs]

/-- **A bound larger than the word** is enough. -/
theorem expandWordN_eq {n : Nat} : ∀ {t : Text}, t.length < n → ∀ fx,
    expandWordN w ctx n t fx = expandWord w ctx t fx := by
  have hbound : ∀ n m (t : Text) fx, t.length < n → t.length < m →
      expandWordN w ctx n t fx = expandWordN w ctx m t fx := by
    intro n
    induction n with
    | zero =>
        intro m t fx h _
        contradiction
    | succ n ih =>
        intro m t fx hn hm
        cases m with
        | zero => contradiction
        | succ m =>
            rw [expandWordN, expandWordN]
            split
            · rfl
            · refine expandParamsFrom_congr w ctx false ?_ 0 fx
              intro u fx hu
              exact ih m u fx (by omega) (by omega)
  intro t h fx
  exact hbound n (t.length + 1) t fx h (Nat.lt_succ_self _)

/-- **`expand_word`** of a word that is no `~`. -/
theorem expandWord_eq {t : Text} (h : isTilde t = false) (fx : Effects) :
    expandWord w ctx t fx = expandParamsFrom w ctx (expandWord w ctx) false 0 t fx := by
  rw [expandWord, expandWordN, if_neg (by simp [h])]
  refine expandParamsFrom_congr w ctx false ?_ 0 fx
  intro u fx hu
  exact expandWordN_eq w ctx hu fx

/-- A word without a `$` that is no `~` stands for itself. -/
theorem expandWord_plain {t : Text} (htilde : isTilde t = false) (h : '$' ∉ t) (fx : Effects) :
    expandWord w ctx t fx = (t, fx) := by
  have hplain := expandParamsFrom_plain w ctx (expandWord w ctx) h [] fx
  rw [List.append_nil] at hplain
  rw [expandWord_eq w ctx htilde, hplain, expandParamsFrom_nil, prepend, List.append_nil]

end Words

end Petrush.Verified.Expansion

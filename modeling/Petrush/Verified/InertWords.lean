import Petrush.Verified.Arguments
import Petrush.Verified.Expansion
import Petrush.Verified.Pathnames

/-!
# Words that no expansion changes

A word is inert when nothing in it is expanded: it is in single quotes, or no `$` of it
begins a form, it is no `~` and, without quotes, no file name it may match is found.  Such
a word stands for itself in every environment.

The converse is shown in two environments.  Where everything is unset, each form and each
`~` leaves fewer of the two signs than it had, so a list of words that comes back unchanged
has none.  And a pattern that may match something matches it in a directory that holds
nothing else.

## Main results

* `expandWord_still`, `expandArgs_still` — a text and words without forms.
* `expandWord_marks` — what is left of the signs where everything is unset.
* `same_iff_inert` — the words that every environment leaves alone.
-/

namespace Petrush.Verified.InertWords

open Petrush.Foundation
open Petrush.Lib.CText
open Petrush.Lib.Wildcard
open Petrush.Mid.Arith
open Petrush.Mid.Ast
open Petrush.Mid.Expand
open Petrush.Mid.Glob
open Petrush.Mid.Lexer
open Petrush.Verified.Arguments
open Petrush.Verified.Expansion
open Petrush.Verified.Pathnames
open Petrush.Verified.Patterns

/-! ## Texts without forms -/

/-- No `$` of the text begins a form. -/
def Formless (t : Text) : Prop := ∀ s, s <:+ t → dollarAt s = none

instance (t : Text) : Decidable (Formless t) :=
  decidable_of_iff (∀ s ∈ t.tails, dollarAt s = none) (by simp only [List.mem_tails, Formless])

theorem Formless.tail {c : Char} {t : Text} (h : Formless (c :: t)) : Formless t :=
  fun s hs => h s (hs.trans (List.suffix_cons c t))

/-- `expand_word` has nothing to do. -/
def Still (t : Text) : Prop := isTilde t = false ∧ Formless t

instance (t : Text) : Decidable (Still t) := inferInstanceAs (Decidable (_ ∧ _))

section Still

variable (w : World) (ctx : Ctx)

theorem expandParamsFrom_formless (word : Text → Effects → Text × Effects) {t : Text}
    (h : Formless t) (fx : Effects) : expandParamsFrom w ctx word false 0 t fx = (t, fx) := by
  induction t with
  | nil => rfl
  | cons c t ih =>
      have hat : dollarAt (c :: t) = none := h _ (List.suffix_refl _)
      have hpiece : pieceAt false (c :: t) = (.lit [c], 1) := by
        rw [pieceAt, if_neg (by simp), hat]
      rw [expandParamsFrom_cons, hpiece]
      show prepend [c] (expandParamsFrom w ctx word false 0 t fx) = _
      rw [ih h.tail]
      rfl

/-- **A text without forms stands for itself.** -/
theorem expandWord_still {t : Text} (h : Still t) (fx : Effects) :
    expandWord w ctx t fx = (t, fx) := by
  rw [expandWord_eq w ctx h.1, expandParamsFrom_formless w ctx _ h.2]

theorem expandArg_still {word : Word} (h : word.quoted = .single ∨ Still word.text)
    (fx : Effects) : expandArg w ctx word fx = ([word], fx) := by
  by_cases hsingle : word.quoted = .single
  · rw [expandArg, if_pos hsingle]
  · have hstill := h.resolve_left hsingle
    have hat : word.text ≠ "$@".toList := by
      intro heq
      exact absurd (heq ▸ hstill) (by decide)
    have hstar : word.text ≠ "$*".toList := by
      intro heq
      exact absurd (heq ▸ hstill) (by decide)
    rw [expandArg, if_neg hsingle, if_neg (fun hjoin => hstar hjoin.1),
      if_neg (fun hall => hall.elim hat hstar), expandWord_still w ctx hstill]

/-- **Words without forms stand for themselves.** -/
theorem expandArgs_still {words : List Word}
    (h : ∀ word ∈ words, word.quoted = .single ∨ Still word.text) (fx : Effects) :
    expandArgs w ctx words fx = (words, fx) := by
  induction words with
  | nil => rfl
  | cons word words ih =>
      rw [List.forall_mem_cons] at h
      rw [expandArgs, expandArg_still w ctx h.1]
      simp only [ih h.2]
      rfl

end Still

/-! ## Where everything is unset -/

/-- The signs of an expansion. -/
def isMark (c : Char) : Bool := c == '$' || c == '~'

/-- How many there are. -/
def marks (t : Text) : Nat := t.countP isMark

theorem marks_append (s t : Text) : marks (s ++ t) = marks s + marks t := List.countP_append

theorem marks_drop (n : Nat) (t : Text) : marks t = marks (t.take n) + marks (t.drop n) := by
  rw [← marks_append, List.take_append_drop]

/-- The word inside braces stands between them. -/
theorem infix_braceAt {s : Text} {d : Dollar} {n : Nat} (h : braceAt s = some (d, n)) :
    inside d <:+: s.take n := by
  have hbody : ∀ m word, (s.takeWhile (· != '\x7d')).drop m = word →
      word <:+: s.take (s.takeWhile (· != '\x7d')).length := by
    rintro m _ rfl
    rw [← List.prefix_iff_eq_take.mp (List.takeWhile_prefix _)]
    exact (List.drop_suffix _ _).isInfix
  have hword : ∀ c₁ c₂ (name word : Text),
      (s.takeWhile (· != '\x7d')).drop name.length = c₁ :: c₂ :: word →
      word <:+: s.take (s.takeWhile (· != '\x7d')).length := by
    intro c₁ c₂ name word heq
    apply hbody (name.length + 2) word
    rw [← List.drop_drop, heq]
    rfl
  unfold braceAt at h
  simp only at h
  split at h
  · contradiction
  · split at h
    · split at h
      · obtain ⟨rfl, rfl⟩ := Prod.mk.inj (Option.some.inj h)
        exact List.nil_infix
      · contradiction
    · split at h
      · contradiction
      · split at h
        · obtain ⟨rfl, rfl⟩ := Prod.mk.inj (Option.some.inj h)
          exact List.nil_infix
        next word heq =>
          obtain ⟨rfl, rfl⟩ := Prod.mk.inj (Option.some.inj h)
          exact hword _ _ _ word heq
        next word heq =>
          obtain ⟨rfl, rfl⟩ := Prod.mk.inj (Option.some.inj h)
          exact hword _ _ _ word heq
        · contradiction

/-- **The word of a form stands in the form.** -/
theorem infix_dollarAt {s : Text} {d : Dollar} {len : Nat}
    (h : dollarAt ('$' :: s) = some (d, len)) : inside d <:+: s.take (len - 1) := by
  have hnil : inside d = [] → inside d <:+: s.take (len - 1) := by
    intro hd
    rw [hd]
    exact List.nil_infix
  unfold dollarAt at h
  split at h
  next s' heq =>
    obtain ⟨⟨d', n⟩, hbrace, hpair⟩ := Option.map_eq_some_iff.mp h
    obtain ⟨rfl, rfl⟩ := Prod.mk.inj hpair
    obtain rfl := (List.cons.inj heq).2
    have hpre : s'.take n <+: s'.take (n + 1) := List.take_prefix_take_left (Nat.le_succ n)
    exact (infix_braceAt hbrace).trans (hpre.isInfix.trans (List.suffix_cons _ _).isInfix)
  iterate 5
    obtain ⟨rfl, rfl⟩ := Prod.mk.inj (Option.some.inj h)
    exact hnil rfl
  next s' heq =>
    -- `$(`: neither form has a word inside
    simp only at h
    split_ifs at h
    · obtain ⟨rfl, rfl⟩ := Prod.mk.inj (Option.some.inj h)
      exact hnil rfl
    · obtain ⟨rfl, rfl⟩ := Prod.mk.inj (Option.some.inj h)
      exact hnil rfl
  next c s' _ =>
    split_ifs at h
    · obtain ⟨rfl, rfl⟩ := Prod.mk.inj (Option.some.inj h)
      exact hnil rfl
    · obtain ⟨rfl, rfl⟩ := Prod.mk.inj (Option.some.inj h)
      exact hnil rfl
  next => contradiction

/-- A number has no signs. -/
theorem marks_decimal (n : Int) : marks (decimal n) = 0 := by
  have hdigits : ∀ m : Nat, marks (Nat.toDigits 10 m) = 0 := by
    intro m
    rw [marks, List.countP_eq_zero]
    intro c hc hmark
    have hdigit := Nat.isDigit_of_mem_toDigits (by decide) (by decide) hc
    obtain rfl | rfl : c = '$' ∨ c = '~' := by simpa [isMark] using hmark
    · exact absurd hdigit (by decide)
    · exact absurd hdigit (by decide)
  rw [decimal]
  split
  · rw [marks, List.countP_cons_of_neg (by decide)]
    exact hdigits _
  · exact hdigits _

/-- No variables, positionals or options. -/
def bareCtx : Ctx := { env := fun _ => none }

section Bare

variable {word : Text → Effects → Text × Effects} (hword : ∀ t fx, marks (word t fx).1 ≤ marks t)
include hword

/-- A form leaves what its word leaves. -/
theorem evalDollar_marks (d : Dollar) (fx : Effects) :
    marks (evalDollar bareWorld bareCtx word d fx).1 ≤ marks (inside d) := by
  cases d with
  | length name => simp only [evalDollar, marks_decimal, Nat.zero_le]
  | var name => exact Nat.le_refl _
  | default name inner => exact hword _ _
  | alternate name inner => exact Nat.zero_le _
  | count => simp only [evalDollar, marks_decimal, Nat.zero_le]
  | status => simp only [evalDollar, marks_decimal, Nat.zero_le]
  | flags => exact Nat.le_refl _
  | join => exact Nat.le_refl _
  | digit d =>
      have hvalue : (evalDollar bareWorld bareCtx word (.digit d) fx).1 = [] := by
        by_cases hd : digitValue d = 0 <;> simp [evalDollar, positionalGet, bareCtx, orUnset, hd]
      rw [hvalue]
      exact Nat.zero_le _
  | arith inner =>
      simp only [evalDollar]
      split
      · simp only [marks_decimal, Nat.zero_le]
      · simp only [marks_decimal, Nat.zero_le]
      · simp only [marks_decimal, Nat.zero_le]
      · exact Nat.zero_le _
  | cmdsubst inner => exact Nat.zero_le _

/-- **The loop** leaves no more signs than the text has, and fewer when it has a form. -/
theorem expandParamsFrom_marks (n : Nat) : ∀ (t : Text) (fx : Effects), t.length ≤ n →
    marks (expandParamsFrom bareWorld bareCtx word false 0 t fx).1 ≤ marks t ∧
      (¬ Formless t →
        marks (expandParamsFrom bareWorld bareCtx word false 0 t fx).1 < marks t) := by
  induction n with
  | zero =>
      intro t fx hn
      obtain rfl := List.length_eq_zero_iff.mp (Nat.le_zero.mp hn)
      exact ⟨Nat.le_refl _, fun h => absurd (by decide) h⟩
  | succ n ih =>
      intro t fx hn
      cases t with
      | nil => exact ⟨Nat.le_refl _, fun h => absurd (by decide) h⟩
      | cons c t =>
          have hlen : ∀ k, (t.drop k).length ≤ n := by
            intro k
            rw [List.length_drop]
            simp only [List.length_cons] at hn
            omega
          cases hat : dollarAt (c :: t) with
          | none =>
              have hpiece : pieceAt false (c :: t) = (.lit [c], 1) := by
                rw [pieceAt, if_neg (by simp), hat]
              obtain ⟨hle, hlt⟩ := ih t fx (hlen 0)
              have hcons : ∀ u : Text, marks (c :: u) = marks [c] + marks u :=
                fun u => marks_append [c] u
              rw [expandParamsFrom_cons, hpiece]
              show marks (c :: (expandParamsFrom bareWorld bareCtx word false 0 t fx).1) ≤ _ ∧
                (_ → marks (c :: (expandParamsFrom bareWorld bareCtx word false 0 t fx).1) < _)
              rw [hcons, hcons t]
              refine ⟨by omega, fun h => ?_⟩
              have hrest : ¬ Formless t := by
                intro hformless
                apply h
                intro s hs
                obtain rfl | hs := List.suffix_cons_iff.mp hs
                · exact hat
                · exact hformless s hs
              have := hlt hrest
              omega
          | some form =>
              obtain ⟨d, len⟩ := form
              have hc : c = '$' := by
                by_contra hc
                rw [dollarAt_other hc] at hat
                contradiction
              subst hc
              have hvalue := evalDollar_marks hword d fx
              have hinside : marks (inside d) ≤ marks (t.take (len - 1)) :=
                (infix_dollarAt hat).sublist.countP_le
              obtain ⟨hle, -⟩ := ih (t.drop (len - 1))
                (evalDollar bareWorld bareCtx word d fx).2 (hlen _)
              have hsplit := marks_drop (len - 1) t
              have hcons : marks ('$' :: t) = marks t + 1 := List.countP_cons_of_pos rfl
              rw [expandParamsFrom_cons, pieceAt_form false hat]
              show marks (_ ++ _) ≤ _ ∧ (_ → marks (_ ++ _) < _)
              rw [marks_append, hcons]
              exact ⟨by omega, fun _ => by omega⟩

end Bare

theorem expandWordN_marks (n : Nat) : ∀ (t : Text) (fx : Effects),
    marks (expandWordN bareWorld bareCtx n t fx).1 ≤ marks t := by
  induction n with
  | zero => exact fun t _ => Nat.le_refl (marks t)
  | succ n ih =>
      intro t fx
      rw [expandWordN]
      split
      · exact (List.tail_sublist t).countP_le
      · exact (expandParamsFrom_marks ih t.length t fx (Nat.le_refl _)).1

/-- **What is left of the signs** where everything is unset. -/
theorem expandWord_marks (t : Text) (fx : Effects) :
    marks (expandWord bareWorld bareCtx t fx).1 ≤ marks t ∧
      (¬ Still t → marks (expandWord bareWorld bareCtx t fx).1 < marks t) := by
  refine ⟨expandWordN_marks _ t fx, fun h => ?_⟩
  rw [expandWord, expandWordN]
  by_cases htilde : isTilde t = true
  · have hmark : marks t = marks t.tail + 1 := by
      cases t with
      | nil => contradiction
      | cons c t =>
          obtain rfl : c = '~' := by
            unfold isTilde at htilde
            split at htilde <;> simp_all
          exact List.countP_cons_of_pos rfl
    rw [if_pos htilde, hmark]
    exact Nat.lt_succ_self _
  · rw [if_neg htilde]
    have hform : ¬ Formless t := fun hf => h ⟨by simpa using htilde, hf⟩
    exact (expandParamsFrom_marks (expandWordN_marks _) t.length t fx (Nat.le_refl _)).2 hform

/-! ## Words -/

/-- The signs of some words. -/
def wordMarks (words : List Word) : Nat := (words.map fun word => marks word.text).sum

theorem wordMarks_append (words more : List Word) :
    wordMarks (words ++ more) = wordMarks words + wordMarks more := by
  simp [wordMarks]

theorem wordMarks_singleton (word : Word) : wordMarks [word] = marks word.text := by
  simp [wordMarks]

theorem expandArg_marks (word : Word) (fx : Effects) :
    wordMarks (expandArg bareWorld bareCtx word fx).1 ≤ marks word.text ∧
      (¬ (word.quoted = .single ∨ Still word.text) →
        wordMarks (expandArg bareWorld bareCtx word fx).1 < marks word.text) := by
  rw [expandArg]
  by_cases hsingle : word.quoted = .single
  · rw [if_pos hsingle, wordMarks_singleton]
    exact ⟨Nat.le_refl _, fun h => absurd (Or.inl hsingle) h⟩
  · rw [if_neg hsingle]
    by_cases hjoin : word.text = "$*".toList ∧ word.quoted ≠ .unquoted
    · rw [if_pos hjoin, hjoin.1, wordMarks_singleton]
      exact ⟨Nat.zero_le _, fun _ => (by decide : 0 < marks "$*".toList)⟩
    · rw [if_neg hjoin]
      by_cases hall : word.text = "$@".toList ∨ word.text = "$*".toList
      · rw [if_pos hall]
        obtain hat | hstar := hall
        · rw [hat]
          exact ⟨Nat.zero_le _, fun _ => (by decide : 0 < marks "$@".toList)⟩
        · rw [hstar]
          exact ⟨Nat.zero_le _, fun _ => (by decide : 0 < marks "$*".toList)⟩
      · rw [if_neg hall]
        obtain ⟨hle, hlt⟩ := expandWord_marks word.text fx
        show wordMarks [_] ≤ _ ∧ (_ → wordMarks [_] < _)
        rw [wordMarks_singleton]
        exact ⟨hle, fun h => hlt fun hstill => h (Or.inr hstill)⟩

theorem wordMarks_cons (word : Word) (words : List Word) :
    wordMarks (word :: words) = marks word.text + wordMarks words := by
  simp [wordMarks]

/-- Words that keep their signs have no forms. -/
theorem expandArgs_marks (words : List Word) : ∀ fx : Effects,
    wordMarks (expandArgs bareWorld bareCtx words fx).1 ≤ wordMarks words ∧
      (wordMarks (expandArgs bareWorld bareCtx words fx).1 = wordMarks words →
        ∀ word ∈ words, word.quoted = .single ∨ Still word.text) := by
  induction words with
  | nil => exact fun _ => ⟨Nat.le_refl _, fun _ => by simp⟩
  | cons word words ih =>
      intro fx
      obtain ⟨hle, hlt⟩ := expandArg_marks word fx
      obtain ⟨hrest, hwords⟩ := ih (expandArg bareWorld bareCtx word fx).2
      rw [expandArgs]
      show wordMarks (_ ++ _) ≤ _ ∧ (wordMarks (_ ++ _) = _ → _)
      rw [wordMarks_append, wordMarks_cons]
      refine ⟨by omega, fun heq => ?_⟩
      rw [List.forall_mem_cons]
      refine ⟨?_, hwords (by omega)⟩
      by_contra hword
      have := hlt hword
      omega

/-! ## Patterns -/

/-- The pattern is looked up, and some file name it matches makes a path. -/
def Globs (t : Text) : Prop :=
  ¬ "**".toList <:+: t ∧ patternHasMeta t = true ∧
    ∃ dir base slash name, globSplit t = some (dir, base, slash) ∧ globKeeps base name = true ∧
      (globPath dir slash name).length < pathMax

/-- A pattern that matches no file name stands for itself. -/
theorem globArg_inert (w : World) {word : Word}
    (h : word.quoted ≠ .unquoted ∨ ¬ Globs word.text) : globArg w word = [word] := by
  by_cases hplain : word.quoted ≠ .unquoted ∨ ¬ patternHasMeta word.text
  · rw [globArg, if_pos hplain]
  · rw [globArg, if_neg hplain]
    rw [not_or, not_not, not_not] at hplain
    have hglobs := h.resolve_left fun hq => hq hplain.1
    have hself : globWord w.listing word.text = none ∨
        globWord w.listing word.text = some [word.text] := by
      by_cases hstars : "**".toList <:+: word.text
      · exact Or.inr (by rw [globWord, if_pos hstars])
      · cases hsplit : globSplit word.text with
        | none =>
            right
            rw [globWord, if_neg hstars, if_neg (by simp [hplain.2])]
            simp only [hsplit]
        | some parts =>
            obtain ⟨dir, base, slash⟩ := parts
            cases hlisting : w.listing dir with
            | none =>
                right
                rw [globWord, if_neg hstars, if_neg (by simp [hplain.2])]
                simp only [hsplit, hlisting]
            | some names =>
                rw [globWord_answer hstars hplain.2 hsplit hlisting, answer]
                by_cases hmany : TooMany (pathsOf dir base slash names)
                · exact Or.inl (if_pos hmany)
                · right
                  rw [if_neg hmany, if_pos]
                  -- a path that was found would be short enough
                  by_contra hfound
                  obtain ⟨path, hpath⟩ := List.exists_mem_of_ne_nil _ hfound
                  obtain ⟨name, hname, rfl⟩ := List.mem_map.mp hpath
                  apply hglobs
                  refine ⟨hstars, hplain.2, dir, base, slash, name, hsplit,
                    (List.mem_filter.mp hname).2, ?_⟩
                  by_contra hlong
                  exact hmany (Or.inr ⟨_, hpath, Nat.le_of_not_lt hlong⟩)
    obtain hnone | hself := hself
    · rw [hnone]
    · rw [hself]
      exact if_pos rfl

/-- The name that has a letter for each wildcard. -/
def plainName (base : Text) : Text := base.map fun c => if c = '*' ∨ c = '?' then 'a' else c

theorem plainName_ne {base : Text} (h : HasMeta base) : plainName base ≠ base := by
  intro heq
  have hmeta : ∀ c ∈ plainName base, c ≠ '*' ∧ c ≠ '?' := by
    intro c hc
    obtain ⟨d, -, rfl⟩ := List.mem_map.mp hc
    split
    · decide
    next hd => exact not_or.mp hd
  rw [heq] at hmeta
  obtain hstar | hone := h
  · exact (hmeta _ hstar).1 rfl
  · exact (hmeta _ hone).2 rfl

theorem matches_plainName (base : Text) : Matches '*' '?' base (plainName base) := by
  induction base with
  | nil => exact matches_nil.mpr rfl
  | cons c base ih =>
      refine matches_cons.mpr ⟨[if c = '*' ∨ c = '?' then 'a' else c], plainName base, rfl, ?_, ih⟩
      rw [Lib.Wildcard.Piece]
      by_cases hstar : c = '*'
      · rw [if_pos hstar]
        trivial
      · by_cases hone : c = '?'
        · rw [if_neg hstar, if_pos hone]
          rfl
        · rw [if_neg hstar, if_neg hone, if_neg (not_or.mpr ⟨hstar, hone⟩)]

/-- `glob_word` keeps that name. -/
theorem globKeeps_plainName {base : Text} (h : HasMeta base) :
    globKeeps base (plainName base) = true := by
  rw [globKeeps_iff]
  have hmem : 'a' ∈ plainName base := by
    obtain hstar | hone := h
    · exact List.mem_map.mpr ⟨'*', hstar, by decide⟩
    · exact List.mem_map.mpr ⟨'?', hone, by decide⟩
  refine ⟨?_, ?_, ?_, matches_plainName base⟩
  · intro heq
    rw [heq] at hmem
    exact absurd hmem (by decide)
  · intro heq
    rw [heq] at hmem
    exact absurd hmem (by decide)
  · cases base with
    | nil => exact fun hdot => hdot
    | cons c base =>
        intro hdot
        have hc : (if c = '*' ∨ c = '?' then 'a' else c) = '.' := Option.some.inj hdot
        split at hc
        · exact absurd hc (by decide)
        · rw [hc]
          rfl

/-- Another name of the same length makes another path, no longer than the pattern. -/
theorem pathname_other {t base other : Text} {dir : Option Text} (h : Splits t dir base)
    (hlen : other.length = base.length) (hne : other ≠ base) :
    pathname dir other ≠ t ∧ (pathname dir other).length ≤ t.length := by
  cases h with
  | bare h => exact ⟨hne, Nat.le_of_eq hlen⟩
  | @slash front _ heq hbase =>
      subst heq
      by_cases hnil : front = []
      · subst hnil
        exact ⟨fun heq => hne (List.cons.inj heq).2, Nat.succ_le_succ (Nat.le_of_eq hlen)⟩
      · rw [if_neg hnil, pathname]
        split
        next hroot =>
          -- `//`: the path has one slash less
          rw [hroot]
          refine ⟨fun heq => ?_, by simp; omega⟩
          have := congrArg List.length heq
          simp only [List.length_cons, List.length_append, List.length_nil] at this
          omega
        next =>
          refine ⟨fun heq => hne ?_, by simp [hlen]⟩
          exact (List.cons.inj (List.append_cancel_left heq)).2

theorem hasMeta_base {t base : Text} {dir : Option Text} (h : Splits t dir base)
    (hmeta : HasMeta t) (hdir : ¬ HasMeta (dir.getD [])) : HasMeta base := by
  cases h with
  | bare h => exact hmeta
  | @slash front _ heq hbase =>
      rw [heq, List.append_cons, hasMeta_append, hasMeta_append] at hmeta
      obtain (hfront | hslash) | hbase := hmeta
      · refine absurd ?_ hdir
        rw [Option.getD_some]
        split
        next hnil =>
          rw [hnil] at hfront
          exact absurd hfront (by decide)
        next => exact hfront
      · exact absurd hslash (by decide)
      · exact hbase

/-- **A pattern that may match something** matches it in some directory. -/
theorem Globs.found {t : Text} (h : Globs t) : ∃ (listing : Listing) (path : Text), path ≠ t ∧
    ∀ w : World, w.listing = listing → globArg w ⟨t, .unquoted⟩ = [⟨path, .single⟩] := by
  obtain ⟨hstars, hmeta, dir, base, slash, name, hsplit, hkeep, hshort⟩ := h
  have hone : ∀ name, globKeeps base name = true → (globPath dir slash name).length < pathMax →
      globPath dir slash name ≠ t → ∃ (listing : Listing) (path : Text), path ≠ t ∧
        ∀ w : World, w.listing = listing → globArg w ⟨t, .unquoted⟩ = [⟨path, .single⟩] := by
    intro name hkeep hshort hne
    refine ⟨fun _ => some [name], globPath dir slash name, hne, fun w hw => ?_⟩
    have hpaths : pathsOf dir base slash [name] = [globPath dir slash name] := by
      rw [pathsOf, List.filter_cons_of_pos hkeep]
      rfl
    have hfew : ¬ TooMany [globPath dir slash name] := by
      simp only [TooMany, List.length_singleton, List.mem_singleton, exists_eq_left, not_or]
      exact ⟨by decide, Nat.not_le_of_lt hshort⟩
    have hfound : globWord w.listing t = some [globPath dir slash name] := by
      have hlisting : w.listing dir = some [name] := by rw [hw]
      rw [globWord_answer hstars hmeta hsplit hlisting, hpaths, answer, if_neg hfew,
        if_neg (List.cons_ne_nil _ _)]
      rfl
    have hself : ¬ [globPath dir slash name] = [t] := fun heq => hne (List.cons.inj heq).1
    rw [globArg, if_neg (by simp [hmeta]), hfound]
    exact if_neg hself
  by_cases hne : globPath dir slash name = t
  · -- the file has the pattern's own name: another one matches too
    rw [hne] at hshort
    have hmeta' := (patternHasMeta_iff t).mp hmeta
    obtain ⟨dir', base', hparts⟩ := exists_splits t
    rw [globSplit_eq hparts hshort hmeta'] at hsplit
    split at hsplit
    · contradiction
    next hdir =>
      obtain ⟨rfl, rfl, rfl⟩ : opened dir' = dir ∧ base' = base ∧ dir'.isSome = slash := by
        simpa using hsplit
      have hbase := hasMeta_base hparts hmeta' hdir
      have hlen : (plainName base').length = base'.length := by rw [plainName, List.length_map]
      obtain ⟨hother, hle⟩ := pathname_other hparts hlen (plainName_ne hbase)
      rw [← globPath_eq] at hother hle
      exact hone _ (globKeeps_plainName hbase) (Nat.lt_of_le_of_lt hle hshort) hother
  · exact hone name hkeep hshort hne

/-! ## Lists of words -/

/-- Nothing in the word is expanded. -/
def Inert (word : Word) : Prop :=
  word.quoted = .single ∨
    Still word.text ∧ (word.quoted = .double ∨ ¬ Globs word.text)

/-- What the words are as command arguments. -/
def argvOf (w : World) (ctx : Ctx) (words : List Word) (fx : Effects) : List Text :=
  (expandCmdArgv w ctx { argv := words } fx).1.argv.map Word.text

theorem argvOf_eq (w : World) (ctx : Ctx) (words : List Word) (fx : Effects) :
    argvOf w ctx words fx =
      ((expandArgs w ctx words fx).1.flatMap (globArg w)).map Word.text := rfl

theorem flatMap_globArg_inert (w : World) {words : List Word} (h : ∀ word ∈ words, Inert word) :
    words.flatMap (globArg w) = words := by
  induction words with
  | nil => rfl
  | cons word words ih =>
      rw [List.forall_mem_cons] at h
      have hword : word.quoted ≠ .unquoted ∨ ¬ Globs word.text := by
        obtain hsingle | ⟨-, hdouble | hglobs⟩ := h.1
        · exact Or.inl (by simp [hsingle])
        · exact Or.inl (by simp [hdouble])
        · exact Or.inr hglobs
      rw [List.flatMap_cons, globArg_inert w hword, ih h.2]
      rfl

/-- Inert words are the arguments themselves. -/
theorem argvOf_inert (w : World) (ctx : Ctx) {words : List Word} (h : ∀ word ∈ words, Inert word)
    (fx : Effects) : argvOf w ctx words fx = words.map Word.text := by
  have hstill : ∀ word ∈ words, word.quoted = .single ∨ Still word.text :=
    fun word hword => (h word hword).imp_right And.left
  rw [argvOf_eq, expandArgs_still w ctx hstill, flatMap_globArg_inert w h]

theorem globArg_ne_nil (w : World) (word : Word) : globArg w word ≠ [] := by
  rw [globArg]
  split
  · exact List.cons_ne_nil _ _
  · split
    · exact List.cons_ne_nil _ _
    next paths hglob =>
      split
      · exact List.cons_ne_nil _ _
      · exact fun hnil => globWord_ne_nil hglob (List.map_eq_nil_iff.mp hnil)

/-- When no word is lost, words that come back were each left alone. -/
theorem each_of_flatMap {α β : Type} (f : α → List α) (g : α → β) (hf : ∀ x, f x ≠ [])
    {l : List α} (h : (l.flatMap f).map g = l.map g) : ∀ x ∈ l, (f x).map g = [g x] := by
  induction l with
  | nil => simp
  | cons x l ih =>
      have hpos : ∀ x, 0 < (f x).length := fun x => List.length_pos_iff.mpr (hf x)
      have hge : l.length ≤ (l.flatMap f).length := by
        clear h ih
        induction l with
        | nil => exact Nat.le_refl _
        | cons y l ih =>
            have := hpos y
            simp only [List.flatMap_cons, List.length_append, List.length_cons]
            omega
      rw [List.flatMap_cons, List.map_append, List.map_cons] at h
      have hlen := congrArg List.length h
      simp only [List.length_append, List.length_map, List.length_cons] at hlen
      have hx := hpos x
      obtain ⟨y, hy⟩ := List.length_eq_one_iff.mp (show (f x).length = 1 by omega)
      rw [hy] at h
      obtain ⟨hhead, htail⟩ := List.cons.inj h
      rw [List.forall_mem_cons]
      refine ⟨?_, ih htail⟩
      rw [hy]
      exact congrArg (fun b => [b]) hhead

/-- A world with nothing but its directories. -/
def onlyListing (listing : Listing) : World := { bareWorld with listing := listing }

/-- **The words that every environment leaves alone** are the inert ones. -/
theorem inert_of_same {words : List Word}
    (h : ∀ listing, argvOf (onlyListing listing) bareCtx words {} = words.map Word.text) :
    ∀ word ∈ words, Inert word := by
  have hbare : ∀ word : Word, globArg bareWorld word = [word] := by
    intro word
    rw [globArg]
    split
    · rfl
    · have hself : globWord bareWorld.listing word.text = some [word.text] := by
        rw [globWord]
        split
        · rfl
        · split
          · rfl
          · cases hsplit : globSplit word.text with
            | none => rfl
            | some parts => rfl
      rw [hself]
      exact if_pos rfl
  have hstill : ∀ word ∈ words, word.quoted = .single ∨ Still word.text := by
    apply (expandArgs_marks words {}).2
    have hsame := h bareWorld.listing
    rw [argvOf_eq] at hsame
    have hflat : ∀ l : List Word, l.flatMap (globArg bareWorld) = l := by
      intro l
      induction l with
      | nil => rfl
      | cons word l ih => rw [List.flatMap_cons, hbare, ih, List.singleton_append]
    have htexts : (expandArgs bareWorld bareCtx words {}).1.map Word.text = words.map Word.text := by
      rw [← hsame]
      exact congrArg (List.map Word.text) (hflat _).symm
    have hmarks : ∀ l : List Word, wordMarks l = ((l.map Word.text).map marks).sum := by
      intro l
      rw [wordMarks, List.map_map]
      rfl
    rw [hmarks, hmarks, htexts]
  intro word hword
  cases hq : word.quoted with
  | single => exact Or.inl hq
  | double => exact Or.inr ⟨(hstill word hword).resolve_left (by simp [hq]), Or.inl hq⟩
  | unquoted =>
      refine Or.inr ⟨(hstill word hword).resolve_left (by simp [hq]), Or.inr fun hglobs => ?_⟩
      obtain ⟨listing, path, hne, hfound⟩ := hglobs.found
      have hsame := h listing
      rw [argvOf_eq, expandArgs_still _ _ hstill] at hsame
      have hself := each_of_flatMap _ Word.text (globArg_ne_nil _) hsame word hword
      have hword : word = ⟨word.text, .unquoted⟩ := by rw [← hq]
      rw [hword, hfound (onlyListing listing) rfl] at hself
      exact hne (List.cons.inj hself).1

/-- **A list of words comes back from every environment** if and only if its words are
inert. -/
theorem same_iff_inert (words : List Word) :
    (∀ w ctx fx, argvOf w ctx words fx = words.map Word.text) ↔ ∀ word ∈ words, Inert word :=
  ⟨fun h => inert_of_same fun listing => h (onlyListing listing) bareCtx {},
    fun h w ctx fx => argvOf_inert w ctx h fx⟩

end Petrush.Verified.InertWords

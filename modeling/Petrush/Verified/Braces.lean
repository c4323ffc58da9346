import Petrush.Verified.Groups
import Petrush.Verified.Parameters

/-!
# Words inside braces

The word of `${V:-w}` is expanded like any other word, but its end is the first closing brace
and not the one that closes the form.  A word that has a closing brace of its own is cut there,
and what is left of it stands behind the value.

## Main results

* `closes_of_braced` — where the braces match, every `${` has a closing brace behind it.
* `expand_closing` — the closing brace that is left over is never taken.
* `substitutes_iff` — the words that are expanded as a whole.
-/

namespace Petrush.Verified.Braces

open Petrush.Foundation
open Petrush.Lib.CText
open Petrush.Mid.Lexer
open Petrush.Mid.Arith
open Petrush.Mid.Expand
open Petrush.Verified.Groups
open Petrush.Verified.Expansion
open Petrush.Verified.Grammar
open Petrush.Verified.Parameters

/-! ## Matching braces -/

/-- Every `${` has a closing brace behind it. -/
def Closes (s : Text) : Prop := ∀ a b, s = a ++ '$' :: '\x7b' :: b → '\x7d' ∈ b

/-- Every `${` has its own closing brace, and there is no other outside groups. -/
inductive Braced : Text → Prop where
  | nil : Braced []
  | other {c : Char} {w : Text} (hclose : c ≠ '\x7d') (hopen : c = '$' → w.head? ≠ some '\x7b')
      (h : Braced w) : Braced (c :: w)
  | brace {u w : Text} (hu : Braced u) (h : Braced w) :
      Braced ('$' :: '\x7b' :: u ++ '\x7d' :: w)
  | group {g w : Text} (hspan : dollarGroupSpan g = g.length) (hg : Closes g) (h : Braced w) :
      Braced (g ++ w)

theorem Closes.suffix {a b : Text} (h : Closes (a ++ b)) : Closes b := by
  intro u v huv
  exact h (a ++ u) v (by rw [huv, List.append_assoc])

/-- Behind a closing brace only what follows it matters. -/
theorem closes_join (x : Text) {y : Text} (h : Closes y) : Closes (x ++ '\x7d' :: y) := by
  intro a b hab
  obtain ⟨u, hx, hy⟩ | ⟨u, ha, hb⟩ := List.append_eq_append_iff.mp hab
  · -- the `${` is not before the closing brace
    cases u with
    | nil => exact absurd (List.cons.inj hy).1 (by decide)
    | cons c u => exact h u b (List.cons.inj hy).2
  · cases u with
    | nil => exact absurd (List.cons.inj hb).1 (by decide)
    | cons c u =>
        have hb' : '\x7b' :: b = u ++ '\x7d' :: y := (List.cons.inj hb).2
        cases u with
        | nil => exact absurd (List.cons.inj hb').1 (by decide)
        | cons d u =>
            have hb'' : b = u ++ '\x7d' :: y := (List.cons.inj hb').2
            rw [hb'']
            simp

/-- Nothing begins across the end of a group. -/
theorem closes_group {g w : Text} (hspan : dollarGroupSpan g = g.length) (hg : Closes g)
    (h : Closes w) : Closes (g ++ w) := by
  intro a b hab
  obtain ⟨u, ha, hw⟩ | ⟨u, hg', hb⟩ := List.append_eq_append_iff.mp hab
  · exact h u b hw
  · cases u with
    | nil => exact h [] b hb.symm
    | cons c u =>
        have hc : '$' = c := (List.cons.inj hb).1
        have hb' : '\x7b' :: b = u ++ w := (List.cons.inj hb).2
        subst hc
        cases u with
        | nil =>
            -- the group ends with a parenthesis
            have hpos : dollarGroupSpan g > 0 := by
              rw [hspan, hg']
              simp
            obtain ⟨t, ht⟩ := dollarGroupSpan_last hpos
            rw [hspan, List.take_length, hg'] at ht
            have hlast := List.append_inj_right' ht rfl
            exact absurd (List.cons.inj hlast).1 (by decide)
        | cons d u =>
            have hd : '\x7b' = d := (List.cons.inj hb').1
            have hb'' : b = u ++ w := (List.cons.inj hb').2
            subst hd
            rw [hb'']
            exact List.mem_append_left w (hg a u hg')

/-- **Where the braces match**, every `${` has a closing brace behind it. -/
theorem closes_of_braced {w : Text} (h : Braced w) : Closes w := by
  induction h with
  | nil =>
      intro a b hab
      simp at hab
  | @other c w hclose hopen h ih =>
      intro a b hab
      cases a with
      | nil =>
          obtain ⟨rfl, hw⟩ := List.cons.inj hab
          rw [hw] at hopen
          exact absurd rfl (hopen rfl)
      | cons d a => exact ih a b (List.cons.inj hab).2
  | brace hu h ihu ih => exact closes_join _ ih
  | group hspan hg h ih => exact closes_group hspan hg ih

/-! ## The closing brace that is left over -/

theorem braceAt_length {s : Text} {d : Dollar} {n : Nat} (h : braceAt s = some (d, n)) :
    n = (s.takeWhile (· != '\x7d')).length := by
  unfold braceAt at h
  simp only at h
  split at h
  · contradiction
  · split at h
    · split at h
      · exact (Prod.mk.inj (Option.some.inj h)).2.symm
      · contradiction
    · split at h
      · contradiction
      · split at h
        · exact (Prod.mk.inj (Option.some.inj h)).2.symm
        · exact (Prod.mk.inj (Option.some.inj h)).2.symm
        · exact (Prod.mk.inj (Option.some.inj h)).2.symm
        · contradiction

/-- The length of `$(…)` and `$((…))` is the span of the group. -/
theorem dollarAt_group {s : Text} {d : Dollar} {n : Nat}
    (h : dollarAt ('$' :: '(' :: s) = some (d, n)) :
    n = dollarGroupSpan ('$' :: '(' :: s) ∧ 0 < n := by
  rw [dollarAt] at h
  rw [dollarGroupSpan]
  split_ifs at h ⊢ with harith hzero
  · have hn := (Prod.mk.inj (Option.some.inj h)).2
    omega
  · have hn := (Prod.mk.inj (Option.some.inj h)).2
    omega

/-- A group ends with a parenthesis, so it does not reach a closing brace behind it. -/
theorem group_length_le {s : Text} {d : Dollar} {n : Nat}
    (h : dollarAt ('$' :: '(' :: (s ++ ['\x7d'])) = some (d, n)) : n ≤ s.length + 2 := by
  obtain ⟨hn, hpos⟩ := dollarAt_group h
  have hle := dollarGroupSpan_le ('$' :: '(' :: (s ++ ['\x7d']))
  rw [hn] at hpos
  obtain ⟨t, ht⟩ := dollarGroupSpan_last hpos
  simp only [List.length_cons, List.length_append, List.length_nil] at hle
  by_contra hlong
  have hall : ('$' :: '(' :: (s ++ ['\x7d'])).length ≤
      dollarGroupSpan ('$' :: '(' :: (s ++ ['\x7d'])) := by
    simp only [List.length_cons, List.length_append, List.length_nil]
    omega
  rw [List.take_of_length_le hall] at ht
  have hsplit : '$' :: '(' :: s ++ ['\x7d'] = t ++ [')'] := ht
  have hlast : ['\x7d'] = [')'] := List.append_inj_right' hsplit rfl
  exact absurd hlast (by decide)

/-- A name does not reach a closing brace. -/
theorem name_length_le (s : Text) :
    ((s ++ ['\x7d']).takeWhile isNameChar).length ≤ s.length := by
  induction s with
  | nil => decide
  | cons c s ih =>
      rw [List.cons_append, List.takeWhile_cons]
      split
      · exact Nat.succ_le_succ ih
      · exact Nat.zero_le _

/-- A `$` before a byte that begins no form. -/
theorem dollarAt_none {c : Char} (hbrace : c ≠ '\x7b') (hgroup : c ≠ '(')
    (hname : isNameChar c = false) (s : Text) {d : Dollar} {n : Nat}
    (h : dollarAt ('$' :: c :: s) = some (d, n)) : n = 2 := by
  have hdigit : isdigit c = false := by
    by_contra hd
    have hc := isdigit_isNameChar (Bool.of_not_eq_false hd)
    rw [hname] at hc
    contradiction
  unfold dollarAt at h
  split at h
  · simp_all
  iterate 5
    exact (Prod.mk.inj (Option.some.inj h)).2.symm
  · simp_all
  · simp_all
  · simp_all

/-- No form takes a closing brace behind a text where every `${` has one. -/
theorem dollarAt_length_le {s : Text} (hs : Closes s) {d : Dollar} {n : Nat}
    (h : dollarAt (s ++ ['\x7d']) = some (d, n)) : n ≤ s.length := by
  cases s with
  | nil =>
      rw [List.nil_append, dollarAt_other (by decide)] at h
      contradiction
  | cons c s =>
      by_cases hc : c = '$'
      · subst hc
        cases s with
        | nil =>
            have hnone : dollarAt "$\x7d".toList = none := by decide
            exact absurd (hnone.symm.trans h) (by simp)
        | cons c s =>
            have hat : dollarAt ('$' :: c :: (s ++ ['\x7d'])) = some (d, n) := h
            show n ≤ s.length + 2
            by_cases hbrace : c = '\x7b'
            · subst hbrace
              have hmem := hs [] s rfl
              obtain ⟨⟨d', n'⟩, hbody, heq⟩ := Option.map_eq_some_iff.mp hat
              have hn := (Prod.mk.inj heq).2
              obtain ⟨u, v, rfl, hu⟩ := List.eq_append_cons_of_mem hmem
              have hlen := braceAt_length hbody
              rw [List.append_assoc, List.cons_append, takeWhile_body hu] at hlen
              simp only [List.length_cons, List.length_append]
              omega
            · by_cases hgroup : c = '('
              · subst hgroup
                exact group_length_le hat
              · by_cases hname : isNameChar c = true
                · rw [dollarAt_nameChar hname] at hat
                  split at hat
                  · have hn := (Prod.mk.inj (Option.some.inj hat)).2
                    omega
                  · have hn := (Prod.mk.inj (Option.some.inj hat)).2
                    have hle := name_length_le (c :: s)
                    rw [List.cons_append, List.length_cons] at hle
                    omega
                · have hn := dollarAt_none hbrace hgroup (Bool.of_not_eq_true hname) _ hat
                  omega
      · rw [List.cons_append, dollarAt_other hc] at h
        contradiction

section Expands

variable (world : World) (ctx : Ctx) (word : Text → Effects → Text × Effects)

/-- **The closing brace that is left over** is copied. -/
theorem expand_closing (size : Nat) : ∀ {s : Text}, s.length ≤ size → Closes s → ∀ fx,
    (expandParamsFrom world ctx word false 0 (s ++ ['\x7d']) fx).1 ≠ [] := by
  induction size with
  | zero =>
      intro s hlen _ fx
      rw [List.length_eq_zero_iff.mp (Nat.le_zero.mp hlen), List.nil_append,
        expandParamsFrom_other world ctx word (by decide)]
      exact List.cons_ne_nil _ _
  | succ size ih =>
      intro s hlen hs fx
      cases s with
      | nil =>
          rw [List.nil_append, expandParamsFrom_other world ctx word (by decide)]
          exact List.cons_ne_nil _ _
      | cons c s =>
          by_cases hc : c = '$'
          · subst hc
            cases hat : dollarAt ('$' :: s ++ ['\x7d']) with
            | none =>
                rw [List.cons_append] at hat ⊢
                rw [expandParamsFrom_stray world ctx word false hat]
                exact List.cons_ne_nil _ _
            | some form =>
                obtain ⟨d, n⟩ := form
                have hle := dollarAt_length_le hs hat
                rw [List.length_cons] at hle hlen
                rw [List.cons_append] at hat ⊢
                rw [expandParamsFrom_cons, pieceAt_form false hat]
                have hdrop : (s ++ ['\x7d']).drop (n - 1) = s.drop (n - 1) ++ ['\x7d'] :=
                  List.drop_append_of_le_length (by omega)
                have hrest : Closes (s.drop (n - 1)) := by
                  refine Closes.suffix (a := '$' :: s.take (n - 1)) ?_
                  rwa [List.cons_append, List.take_append_drop]
                have hnext := ih (s := s.drop (n - 1)) (by rw [List.length_drop]; omega) hrest
                  (evalDollar world ctx word d fx).2
                simp only [hdrop, prepend]
                exact fun h => hnext (List.append_eq_nil_iff.mp h).2
          · rw [List.cons_append, expandParamsFrom_other world ctx word hc]
            exact List.cons_ne_nil _ _

end Expands

/-! ## The words that are expanded -/

/-- The word is expanded or passed over as a whole in `${name:-word}` and `${name:+word}`, as the
value of the variable asks for, and the expansion goes on behind the closing brace. -/
def Substitutes (name word : Text) : Prop :=
  ∀ (world : World) (ctx : Ctx) (esc : Bool) (rest : Text) (fx : Effects) (sp : Spelling),
    sp = .default word ∨ sp = .alternate word →
      let value := sp.meaning ctx (expandWord world ctx) (getenv ctx.env name)
        (fx.record (.dollar (sp.form name)))
      expandParamsFrom world ctx (expandWord world ctx) esc 0 (sp.print name ++ rest) fx =
        prepend value.1 (expandParamsFrom world ctx (expandWord world ctx) esc 0 rest value.2)

/-- All variables have values; `name` has its own. -/
def allSet (name : Text) : Ctx := { env := fun n => if n = name then some ['x'] else some ['y'] }

/-- What is taken as the form when the word has a closing brace. -/
theorem expands_cut {name : Text} (h : IsParam name) {u : Text} (hu : '\x7d' ∉ u) (v : Text)
    (world : World) (ctx : Ctx) (c : Char) (value : Text)
    (hvalue : varValue ctx name = some (c :: value)) :
    (expandParamsFrom world ctx (expandWord world ctx) false 0
      ((Spelling.default (u ++ '\x7d' :: v)).print name) {}).1 =
      c :: value ++ (expandParamsFrom world ctx (expandWord world ctx) false 0 (v ++ ['\x7d'])
        (Effects.record {} (.dollar (.default name u)))).1 := by
  have hform := expands_braced world ctx (expandWord world ctx) false h (.default u) hu
    (v ++ ['\x7d']) {}
  have hprint : (Spelling.default (u ++ '\x7d' :: v)).print name =
      '$' :: '\x7b' :: (Spelling.default u).body name ++ ['\x7d'] ++ (v ++ ['\x7d']) := by
    simp [Spelling.print, Spelling.body]
  rw [hprint, hform]
  simp only [Spelling.meaning, hvalue]
  rfl

theorem varValue_allSet (name : Text) :
    varValue (allSet name) name = if name.length < 256 then some ['x'] else some ['y'] := by
  show (if name.take 255 = name then some ['x'] else some ['y']) = _
  have htake : name.take 255 = name ↔ name.length < 256 := by
    constructor
    · intro h
      have hlen := congrArg List.length h
      rw [List.length_take] at hlen
      omega
    · intro h
      exact List.take_of_length_le (by omega)
  simp only [htake]

/-- What a word has to leave behind the variables of `allSet`. -/
theorem Substitutes.text {name word : Text} (h : Substitutes name word) (world : World) :
    (expandParamsFrom world (allSet name) (expandWord world (allSet name)) false 0
      ((Spelling.default word).print name) {}).1 = ['x'] := by
  have hspec := h world (allSet name) false [] {} (.default word) (.inl rfl)
  have hx : getenv (allSet name).env name = some ['x'] := if_pos rfl
  simp only [List.append_nil, hx, Spelling.meaning, expandParamsFrom_nil] at hspec
  rw [hspec]
  rfl

/-- **The words that are expanded**: those without a closing brace of their own, for a variable
whose name fits the buffer. -/
theorem substitutes_iff (name word : Text) (hname : IsName name) (hword : Braced word) :
    Substitutes name word ↔ '\x7d' ∉ word ∧ name.length < 256 := by
  have hparam : IsParam name := .identifier hname
  constructor
  · intro h
    have htext := h.text Arguments.bareWorld
    have hvalue : ∃ c, varValue (allSet name) name = some [c] := by
      rw [varValue_allSet]
      split
      · exact ⟨'x', rfl⟩
      · exact ⟨'y', rfl⟩
    have hclosed : '\x7d' ∉ word := by
      intro hmem
      obtain ⟨c, hc⟩ := hvalue
      obtain ⟨u, v, rfl, hu⟩ := List.eq_append_cons_of_mem hmem
      have hcloses : Closes v := by
        refine Closes.suffix (a := u ++ ['\x7d']) ?_
        rw [List.append_assoc]
        exact closes_of_braced hword
      rw [expands_cut hparam hu v _ _ c [] hc] at htext
      exact expand_closing Arguments.bareWorld (allSet name) _ v.length (Nat.le_refl _) hcloses _
        (List.cons.inj htext).2
    refine ⟨hclosed, ?_⟩
    by_contra hlong
    have hform := expands_braced Arguments.bareWorld (allSet name)
      (expandWord Arguments.bareWorld (allSet name)) false hparam (.default word) hclosed [] {}
    rw [List.append_nil] at hform
    have hprint : (Spelling.default word).print name =
        '$' :: '\x7b' :: (Spelling.default word).body name ++ ['\x7d'] := rfl
    rw [hprint, hform] at htext
    simp only [Spelling.meaning, varValue_allSet, if_neg hlong, expandParamsFrom_nil, prepend,
      List.append_nil] at htext
    exact absurd htext (by decide)
  · intro h
    obtain ⟨hclosed, hlen⟩ := h
    intro world ctx esc rest fx sp hsp
    have hvalue : varValue ctx name = getenv ctx.env name := by
      rw [varValue, List.take_of_length_le (by omega)]
    obtain rfl | rfl := hsp
    · have hform := expands_braced world ctx (expandWord world ctx) esc hparam (.default word)
        hclosed rest fx
      rw [hvalue] at hform
      exact hform
    · have hform := expands_braced world ctx (expandWord world ctx) esc hparam (.alternate word)
        hclosed rest fx
      rw [hvalue] at hform
      exact hform

theorem braced_B : Braced "$\x7bB\x7d".toList :=
  .brace (u := ['B']) (.other (by decide) (by decide) .nil) .nil

theorem substitutes_iff_B : Substitutes "A".toList "$\x7bB\x7d".toList ↔
    '\x7d' ∉ "$\x7bB\x7d".toList ∧ "A".toList.length < 256 :=
  substitutes_iff "A".toList "$\x7bB\x7d".toList isName_A braced_B

/-- **One form inside another**: `${A:-${B}}` with both unset leaves text of the forms. -/
theorem nested_braces_cut :
    Braced "$\x7bB\x7d".toList ∧
      expandWord Arguments.bareWorld { env := fun _ => none } "$\x7bB\x7d".toList {} =
        ([], Effects.record {} (.dollar (.var "B".toList))) ∧
      (expandWord Arguments.bareWorld { env := fun _ => none } "$\x7bA:-$\x7bB\x7d\x7d".toList
        {}).1 = "$\x7bB\x7d".toList := by
  exact ⟨braced_B, by decide +kernel, by decide +kernel⟩

end Petrush.Verified.Braces

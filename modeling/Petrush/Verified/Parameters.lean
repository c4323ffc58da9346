import Petrush.Verified.Arguments
import Petrush.Verified.Expansion
import Petrush.Verified.Grammar

/-!
# The spellings of a parameter

`$NAME`, `${NAME}`, `${NAME:-w}`, `${NAME:+w}` and `${#NAME}` look one variable up.  A digit
is a positional without braces, and a variable of that name between them.

## Main results

* `dollarAt_bare`, `dollarAt_braced` — how a spelling is read.
* `spellings_agree` — what every spelling leaves.
-/

namespace Petrush.Verified.Parameters

open Petrush.Foundation
open Petrush.Lib.CText
open Petrush.Mid.Lexer
open Petrush.Mid.Arith
open Petrush.Mid.Expand
open Petrush.Verified.Expansion
open Petrush.Verified.Grammar

/-! ## Spellings -/

/-- The ways to write a parameter. -/
inductive Spelling where
  | bare
  | braced
  | default (w : Text)
  | alternate (w : Text)
  | length
  deriving Repr, DecidableEq

/-- The name of a parameter: an identifier or a digit. -/
inductive IsParam : Text → Prop where
  | identifier {name : Text} (h : IsName name) : IsParam name
  | digit {d : Char} (h : isdigit d) : IsParam [d]

namespace Spelling

/-- What is between the braces. -/
def body (name : Text) : Spelling → Text
  | bare | braced => name
  | default w => name ++ ':' :: '-' :: w
  | alternate w => name ++ ':' :: '+' :: w
  | length => '#' :: name

/-- The spelling of the parameter. -/
def print (name : Text) : Spelling → Text
  | bare => '$' :: name
  | sp => '$' :: '\x7b' :: sp.body name ++ ['\x7d']

/-- The form of the code. -/
def form (name : Text) : Spelling → Dollar
  | bare | braced => .var name
  | default w => .default name w
  | alternate w => .alternate name w
  | length => .length name

/-- What a parameter with the value leaves; `word` expands the word of the spelling. -/
def meaning (ctx : Ctx) (word : Text → Effects → Text × Effects) (v : Option Text)
    (fx : Effects) : Spelling → Text × Effects
  | bare | braced => orUnset ctx v fx
  | default w =>
      match v with
      | some (c :: v) => (c :: v, fx)
      | _ => word w fx
  | alternate w =>
      match v with
      | some (_ :: _) => word w fx
      | _ => ([], fx)
  | length => (decimal (v.getD []).length, (orUnset ctx v fx).2)

/-- Nothing in the spelling ends its braces. -/
def Closed : Spelling → Prop
  | default w | alternate w => '\x7d' ∉ w
  | _ => True

end Spelling

/-! ## How they are read -/

/-- A byte that ends a name. -/
theorem nameChar_ne {c d : Char} (hc : isNameChar c = true) (hd : isNameChar d = false) :
    c ≠ d := by
  rintro rfl
  rw [hc] at hd
  contradiction

theorem takeWhile_name {name rest : Text} (h : name.all isNameChar) (hrest : TokenEnd rest) :
    (name ++ rest).takeWhile isNameChar = name :=
  all_takeWhile_append h hrest

/-- A `$` before a digit or a name. -/
theorem dollarAt_nameChar {c : Char} (h : isNameChar c = true) (s : Text) :
    dollarAt ('$' :: c :: s) =
      if isdigit c then some (.digit c, 2)
      else some (.var ((c :: s).takeWhile isNameChar),
        ((c :: s).takeWhile isNameChar).length + 1) := by
  have hbrace := nameChar_ne h (d := '\x7b') (by decide)
  have hhash := nameChar_ne h (d := '#') (by decide)
  have hask := nameChar_ne h (d := '?') (by decide)
  have hdash := nameChar_ne h (d := '-') (by decide)
  have hat := nameChar_ne h (d := '@') (by decide)
  have hstar := nameChar_ne h (d := '*') (by decide)
  have hopen := nameChar_ne h (d := '(') (by decide)
  unfold dollarAt
  simp [h]

theorem isName_cons {name : Text} (h : IsName name) : ∃ c s, name = c :: s ∧
    isNameChar c = true ∧ isdigit c = false := by
  obtain ⟨hall, c, s, rfl, hdigit⟩ := h
  simp only [List.all_cons, Bool.and_eq_true] at hall
  exact ⟨c, s, rfl, hall.1, hdigit⟩

/-- **A name without braces** ends where it can. -/
theorem dollarAt_bare {name rest : Text} (h : IsName name) (hrest : TokenEnd rest) :
    dollarAt ('$' :: name ++ rest) = some (.var name, name.length + 1) := by
  have htake := takeWhile_name h.1 hrest
  obtain ⟨c, s, rfl, hc, hdigit⟩ := isName_cons h
  rw [List.cons_append] at htake
  rw [List.cons_append, List.cons_append, dollarAt_nameChar hc, if_neg (by simp [hdigit]), htake]

/-- A digit without braces is a positional. -/
theorem dollarAt_digit {d : Char} (h : isdigit d) (rest : Text) :
    dollarAt ('$' :: [d] ++ rest) = some (.digit d, 2) := by
  rw [List.cons_append, List.cons_append, dollarAt_nameChar (isdigit_isNameChar h), if_pos h]

/-- The bytes of a parameter. -/
theorem IsParam.all {name : Text} (h : IsParam name) : name ≠ [] ∧ name.all isNameChar = true := by
  cases h with
  | identifier h =>
      obtain ⟨c, s, rfl, _, _⟩ := isName_cons h
      exact ⟨List.cons_ne_nil _ _, h.1⟩
  | digit h => exact ⟨List.cons_ne_nil _ _, by simp [isdigit_isNameChar h]⟩

theorem brace_not_mem {name : Text} (h : name.all isNameChar) : '\x7d' ∉ name := by
  intro hmem
  have hname := List.all_eq_true.mp h _ hmem
  exact absurd hname (by decide)

theorem takeWhile_body {body rest : Text} (h : '\x7d' ∉ body) :
    (body ++ '\x7d' :: rest).takeWhile (· != '\x7d') = body := by
  have hall : ∀ c ∈ body, (c != '\x7d') = true := by
    intro c hc
    rw [bne_iff_ne]
    rintro rfl
    exact h hc
  rw [List.takeWhile_append_of_pos hall]
  simp

/-- What follows a name between braces. -/
def braceForm (name : Text) (len : Nat) : Text → Option (Dollar × Nat)
  | [] => some (.var name, len)
  | ':' :: '-' :: word => some (.default name word, len)
  | ':' :: '+' :: word => some (.alternate name word, len)
  | _ => none

/-- The braces end at the first closing one. -/
theorem braceAt_body {body : Text} (h : '\x7d' ∉ body) (rest : Text) :
    braceAt (body ++ '\x7d' :: rest) =
      if body.head? = some '#' then
        if body.tail ≠ [] ∧ body.tail.all isNameChar then some (.length body.tail, body.length)
        else none
      else
        let name := body.takeWhile isNameChar
        if name = [] then none else braceForm name body.length (body.drop name.length) := by
  rw [braceAt, takeWhile_body h]
  have hlen : ¬ body.length = (body ++ '\x7d' :: rest).length := by
    rw [List.length_append, List.length_cons]
    omega
  exact if_neg hlen

/-- A name between braces, with what follows it. -/
theorem braceAt_name {name more : Text} (hne : name ≠ []) (hall : name.all isNameChar)
    (hmore : TokenEnd more) (hclosed : '\x7d' ∉ more) (rest : Text) :
    braceAt (name ++ more ++ '\x7d' :: rest) = braceForm name (name ++ more).length more := by
  have hbody : '\x7d' ∉ name ++ more := by
    rw [List.mem_append, not_or]
    exact ⟨brace_not_mem hall, hclosed⟩
  have hhead : ¬ (name ++ more).head? = some '#' := by
    cases name with
    | nil => contradiction
    | cons c name =>
        simp only [List.all_cons, Bool.and_eq_true] at hall
        simp [nameChar_ne hall.1 (d := '#') (by decide)]
  rw [braceAt_body hbody, if_neg hhead]
  simp only [takeWhile_name hall hmore, if_neg hne, List.drop_left]

/-- **A spelling with braces** is read as its form. -/
theorem braceAt_spelling {name : Text} (h : IsParam name) (sp : Spelling) (hclosed : sp.Closed)
    (rest : Text) :
    braceAt (sp.body name ++ '\x7d' :: rest) = some (sp.form name, (sp.body name).length) := by
  obtain ⟨hne, hall⟩ := h.all
  have hend : TokenEnd [] := by
    intro c hc
    contradiction
  have hcolon : ∀ u, TokenEnd (':' :: u) := by
    intro u c hc
    obtain rfl := Option.some.inj hc
    decide
  have hplain := braceAt_name hne hall hend (by simp) rest
  rw [List.append_nil] at hplain
  have hop : ∀ c w, '\x7d' ∉ w → c ≠ '\x7d' → '\x7d' ∉ ':' :: c :: w := by
    intro c w hw hc
    simp only [List.mem_cons, not_or]
    exact ⟨by decide, Ne.symm hc, hw⟩
  cases sp with
  | bare => exact hplain
  | braced => exact hplain
  | default w =>
      exact braceAt_name hne hall (hcolon ('-' :: w)) (hop '-' w hclosed (by decide)) rest
  | alternate w =>
      exact braceAt_name hne hall (hcolon ('+' :: w)) (hop '+' w hclosed (by decide)) rest
  | length =>
      have hbody : '\x7d' ∉ '#' :: name := by
        rw [List.mem_cons, not_or]
        exact ⟨by decide, brace_not_mem hall⟩
      exact (braceAt_body hbody rest).trans ((if_pos rfl).trans (if_pos ⟨hne, hall⟩))

/-- The value a spelling looks up. -/
def lookup (ctx : Ctx) (name : Text) : Spelling → Option Text
  | .bare =>
      match name with
      | [d] => if isdigit d then positionalGet ctx (digitValue d) else varValue ctx name
      | _ => varValue ctx name
  | _ => varValue ctx name

/-- The form that is recorded. -/
def recorded (name : Text) : Spelling → Dollar
  | .bare =>
      match name with
      | [d] => if isdigit d then .digit d else .var name
      | _ => .var name
  | sp => sp.form name

/-- What may follow a spelling: behind a bare name nothing that goes on with it. -/
def Follows (name : Text) (rest : Text) : Spelling → Prop
  | .bare => IsName name → TokenEnd rest
  | _ => True

section Expands

variable (w : World) (ctx : Ctx) (word : Text → Effects → Text × Effects) (esc : Bool)

/-- A form with its spelling. -/
theorem evalDollar_form (name : Text) (sp : Spelling) (fx : Effects) :
    evalDollar w ctx word (sp.form name) fx =
      sp.meaning ctx word (varValue ctx name) (fx.record (.dollar (sp.form name))) := by
  cases sp with
  | bare => rfl
  | braced => rfl
  | default u =>
      cases hv : varValue ctx name with
      | none => simp only [Spelling.form, evalDollar, Spelling.meaning, hv]
      | some v => cases v <;> simp only [Spelling.form, evalDollar, Spelling.meaning, hv]
  | alternate u =>
      cases hv : varValue ctx name with
      | none => simp only [Spelling.form, evalDollar, Spelling.meaning, hv]
      | some v => cases v <;> simp only [Spelling.form, evalDollar, Spelling.meaning, hv]
  | length =>
      simp only [Spelling.form, evalDollar, Spelling.meaning]
      cases varValue ctx name <;> rfl

/-- **A parameter between braces.** -/
theorem expands_braced {name : Text} (h : IsParam name) (sp : Spelling) (hclosed : sp.Closed)
    (rest : Text) (fx : Effects) :
    expandParamsFrom w ctx word esc 0 ('$' :: '\x7b' :: sp.body name ++ ['\x7d'] ++ rest) fx =
      prepend
        (sp.meaning ctx word (varValue ctx name) (fx.record (.dollar (sp.form name)))).1
        (expandParamsFrom w ctx word esc 0 rest
          (sp.meaning ctx word (varValue ctx name) (fx.record (.dollar (sp.form name)))).2) := by
  have hat : dollarAt ('$' :: ('\x7b' :: sp.body name ++ ['\x7d']) ++ rest) =
      some (sp.form name, ('\x7b' :: sp.body name ++ ['\x7d']).length + 1) := by
    have happ : '$' :: ('\x7b' :: sp.body name ++ ['\x7d']) ++ rest =
        '$' :: '\x7b' :: (sp.body name ++ '\x7d' :: rest) := by
      simp
    rw [happ, dollarAt, braceAt_spelling h sp hclosed]
    simp
  have hform := expandParamsFrom_form w ctx word esc hat fx
  rw [evalDollar_form] at hform
  exact hform

/-- **The spellings of a parameter**, an identifier or a digit.  Every spelling of an identifier
leaves what its value asks for, so do those of a digit between braces, and the digit alone is
the positional. -/
theorem spellings_agree {name : Text} (h : IsParam name) :
    (∀ (sp : Spelling) rest fx, sp.Closed → Follows name rest sp →
      expandParamsFrom w ctx word esc 0 (sp.print name ++ rest) fx =
        prepend
          (sp.meaning ctx word (lookup ctx name sp) (fx.record (.dollar (recorded name sp)))).1
          (expandParamsFrom w ctx word esc 0 rest
            (sp.meaning ctx word (lookup ctx name sp) (fx.record (.dollar (recorded name sp)))).2)) ∧
    (IsName name → ∀ sp sp', lookup ctx name sp = lookup ctx name sp') ∧
    (name.length < 256 → ∀ sp, (IsName name ∨ sp ≠ .bare) →
      lookup ctx name sp = getenv ctx.env name) ∧
    ∀ d, name = [d] → isdigit d → lookup ctx name .bare = positionalGet ctx (digitValue d) := by
  have hidentifier : IsName name → lookup ctx name .bare = varValue ctx name ∧
      recorded name .bare = .var name := by
    intro hn
    obtain ⟨c, s, rfl, hc, hdigit⟩ := isName_cons hn
    cases s with
    | nil => simp [lookup, recorded, hdigit]
    | cons d s => exact ⟨rfl, rfl⟩
  have hlookup : IsName name → ∀ sp, lookup ctx name sp = varValue ctx name := by
    intro hn sp
    cases sp with
    | bare => exact (hidentifier hn).1
    | braced => rfl
    | default u => rfl
    | alternate u => rfl
    | length => rfl
  refine ⟨?_, ?_, ?_, ?_⟩
  · intro sp rest fx hclosed hfollows
    cases sp with
    | braced => exact expands_braced w ctx word esc h .braced hclosed rest fx
    | default u => exact expands_braced w ctx word esc h (.default u) hclosed rest fx
    | alternate u => exact expands_braced w ctx word esc h (.alternate u) hclosed rest fx
    | length => exact expands_braced w ctx word esc h .length hclosed rest fx
    | bare =>
        cases h with
        | identifier hn =>
            obtain ⟨hvalue, hrecorded⟩ := hidentifier hn
            have hform := expandParamsFrom_form w ctx word esc (dollarAt_bare hn (hfollows hn)) fx
            rw [hvalue, hrecorded]
            exact hform
        | @digit d hd =>
            have hform := expandParamsFrom_form w ctx word esc (a := [d])
              (dollarAt_digit hd rest) fx
            simp only [Spelling.print, lookup, recorded, if_pos hd]
            exact hform
  · intro hn sp sp'
    rw [hlookup hn sp, hlookup hn sp']
  · intro hlen sp hsp
    have hvalue : lookup ctx name sp = varValue ctx name := by
      obtain hn | hsp := hsp
      · exact hlookup hn sp
      · cases sp with
        | bare => contradiction
        | braced => rfl
        | default u => rfl
        | alternate u => rfl
        | length => rfl
    rw [hvalue, varValue, List.take_of_length_le (by omega)]
  · rintro d rfl hd
    simp only [lookup, if_pos hd]

end Expands

/-- `A` is `x`, and `a` is the first positional. -/
def oneParam : Ctx :=
  { env := fun name => if name = "A".toList then some ['x'] else none, args := ["a".toList] }

theorem isName_A : IsName "A".toList := ⟨by decide, 'A', [], rfl, by decide⟩

theorem spellings_agree_A : lookup oneParam "A".toList .length = some ['x'] :=
  ((spellings_agree Arguments.bareWorld oneParam (expandWord Arguments.bareWorld oneParam)
    false (.identifier isName_A)).2.2.1 (by decide) .length (.inl isName_A)).trans rfl

/-- **A digit between braces** is a variable. -/
theorem digit_in_braces :
    expandWord Arguments.bareWorld oneParam "$1".toList {} =
        ("a".toList, Effects.record {} (.dollar (.digit '1'))) ∧
      expandWord Arguments.bareWorld oneParam "$\x7b1\x7d".toList {} =
        ([], Effects.record {} (.dollar (.var "1".toList))) := by
  decide +kernel

end Petrush.Verified.Parameters

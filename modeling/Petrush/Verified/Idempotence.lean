import Petrush.Mid.Dispatcher
import Petrush.Verified.InertWords

/-!
# A command that is expanded twice

`dispatch_pipeline` expands its stages, and a single stage is expanded again by
`dispatch_command`: what a variable, a positional, a substitution or an escape left in the
command is read as if it had been typed.

An expansion makes substitutions, or takes escapes away, or leaves the text as it is; the
last only when there is nothing in the text to expand (`Outcome`).  So the second expansion
changes nothing exactly when the first one leaves nothing to expand.

## Main results

* `expandParamsFrom_outcome`, `expandWord_outcome`, `expandCmdArgv_outcome`.
* `dispatchPipeline_one` — a pipeline of one stage is expanded twice.
* `expanded_once_iff` — when the second expansion is none.
-/

namespace Petrush.Verified.Idempotence

open Petrush.Lib.CText
open Petrush.Lib.Run
open Petrush.Mid.Ast
open Petrush.Mid.Dispatcher
open Petrush.Mid.Expand
open Petrush.Mid.Glob
open Petrush.Mid.Lexer
open Petrush.Mid.State
open Petrush.Verified.Arguments
open Petrush.Verified.Expansion
open Petrush.Verified.InertWords

/-! ## Text -/

/-- What a backslash of a here-document takes with it. -/
def escaped (c : Char) : Bool := c == '$' || c == '\x60' || c == '\\' || c == '\n'

/-- Nothing in the text is expanded; with `esc`, no backslash of it is an escape either. -/
def Plain (esc : Bool) (t : Text) : Prop :=
  ∀ s, s <:+ t → dollarAt s = none ∧
    (esc = true → ∀ c r, s = '\\' :: c :: r → escaped c = false)

theorem escaped_iff {c : Char} :
    escaped c = true ↔ c = '$' ∨ c = '\x60' ∨ c = '\\' ∨ c = '\n' := by
  simp [escaped, or_assoc]

/-- An escape leaves a byte at most. -/
theorem heredocEscape_escaped {c : Char} (h : escaped c = true) (s : Text) :
    ∃ e : Text, heredocEscape (c :: s) = (e, 2) ∧ e.length ≤ 1 := by
  rw [heredocEscape]
  split
  · exact ⟨[c], rfl, Nat.le_refl _⟩
  next hc =>
    obtain rfl : c = '\n' := by
      rw [escaped_iff] at h
      simp only [Bool.or_eq_true, beq_iff_eq, not_or] at hc
      tauto
    exact ⟨[], rfl, Nat.zero_le _⟩

theorem heredocEscape_other {c : Char} (h : escaped c = false) (s : Text) :
    heredocEscape (c :: s) = (['\\', c], 2) := by
  have hnot := mt escaped_iff.mpr (Bool.eq_false_iff.mp h)
  simp only [not_or] at hnot
  rw [heredocEscape, if_neg (by simp [hnot]), if_neg hnot.2.2.2]

theorem plain_nil (esc : Bool) : Plain esc [] := by
  intro s hs
  rw [List.suffix_nil.mp hs]
  exact ⟨rfl, fun _ c r h => nomatch h⟩

theorem plain_false {t : Text} : Plain false t ↔ Formless t := by
  simp [Plain, Formless]

theorem Plain.cons {esc : Bool} {c : Char} {t : Text} (hdollar : dollarAt (c :: t) = none)
    (hesc : esc = true → c = '\\' → ∀ d ∈ t.head?, escaped d = false) (h : Plain esc t) :
    Plain esc (c :: t) := by
  intro s hs
  obtain rfl | hs := List.suffix_cons_iff.mp hs
  · refine ⟨hdollar, ?_⟩
    rintro he d r heq
    obtain ⟨rfl, rfl⟩ := List.cons.inj heq
    exact hesc he rfl d rfl
  · exact h s hs

/-- How an expansion goes: substitutions are made, or escapes taken away, or nothing is
done at all. -/
inductive Outcome (esc : Bool) (t : Text) (fx : Effects) : Text × Effects → Prop where
  | made {r : Text × Effects} (h : fx.log.length < r.2.log.length) : Outcome esc t fx r
  | shorter {u : Text} (h : u.length < t.length) (hesc : esc = true) : Outcome esc t fx (u, fx)
  | same (h : Plain esc t) : Outcome esc t fx (t, fx)

theorem Outcome.log_le {esc : Bool} {t : Text} {fx : Effects} {r : Text × Effects}
    (h : Outcome esc t fx r) : fx.log.length ≤ r.2.log.length := by
  cases h with
  | made h => exact Nat.le_of_lt h
  | shorter h hesc => exact Nat.le_refl _
  | same h => exact Nat.le_refl _

/-- A piece that stays in front of the rest. -/
theorem Outcome.keep {esc : Bool} {e u t : Text} {fx : Effects} {r : Text × Effects}
    (h : Outcome esc u fx r) (ht : t = e ++ u) (hplain : Plain esc u → Plain esc t) :
    Outcome esc t fx (prepend e r) := by
  subst ht
  cases h with
  | made h => exact .made h
  | shorter h hesc =>
      refine .shorter ?_ hesc
      simp only [List.length_append]
      omega
  | same h => exact .same (hplain h)

/-- An escape in front of the rest. -/
theorem Outcome.drop {e u t : Text} {fx : Effects} {r : Text × Effects}
    (h : Outcome true u fx r) (ht : e.length + u.length < t.length) :
    Outcome true t fx (prepend e r) := by
  cases h with
  | made h => exact .made h
  | shorter h hesc =>
      refine .shorter ?_ rfl
      simp only [List.length_append]
      omega
  | same h =>
      refine .shorter ?_ rfl
      simp only [List.length_append]
      omega

section Text

variable (w : World) (ctx : Ctx) {word : Text → Effects → Text × Effects}
  (hword : ∀ t (fx : Effects), fx.log.length ≤ (word t fx).2.log.length)

theorem orUnset_log (v : Option Text) (fx : Effects) : (orUnset ctx v fx).2.log = fx.log := by
  cases v with
  | some v => rfl
  | none =>
      simp only [orUnset]
      split <;> rfl

include hword

/-- A form is a substitution. -/
theorem evalDollar_log (d : Dollar) (fx : Effects) :
    fx.log.length < (evalDollar w ctx word d fx).2.log.length := by
  have hrecord : fx.log.length < (fx.record (.dollar d)).log.length := Nat.lt_succ_self _
  cases d with
  | length name =>
      simp only [evalDollar, orUnset_log]
      exact hrecord
  | var name =>
      simp only [evalDollar, orUnset_log]
      exact hrecord
  | default name inner =>
      simp only [evalDollar]
      split
      · exact hrecord
      · exact Nat.lt_of_lt_of_le hrecord (hword _ _)
  | alternate name inner =>
      simp only [evalDollar]
      split
      · exact Nat.lt_of_lt_of_le hrecord (hword _ _)
      · exact hrecord
  | count => exact hrecord
  | status => exact hrecord
  | flags => exact hrecord
  | join => exact hrecord
  | digit d =>
      simp only [evalDollar, orUnset_log]
      exact hrecord
  | arith inner =>
      simp only [evalDollar]
      split <;> exact hrecord
  | cmdsubst inner => exact hrecord

/-- **The loop.** -/
theorem expandParamsFrom_outcome (esc : Bool) (n : Nat) : ∀ (t : Text) (fx : Effects),
    t.length ≤ n → Outcome esc t fx (expandParamsFrom w ctx word esc 0 t fx) := by
  induction n with
  | zero =>
      intro t fx hn
      obtain rfl := List.length_eq_zero_iff.mp (Nat.le_zero.mp hn)
      exact .same (plain_nil esc)
  | succ n ih =>
      intro t fx hn
      cases t with
      | nil => exact .same (plain_nil esc)
      | cons c t =>
          have hlen : ∀ k, (t.drop k).length ≤ n := by
            intro k
            rw [List.length_drop]
            simp only [List.length_cons] at hn
            omega
          by_cases hback : esc = true ∧ c = '\\'
          · obtain ⟨rfl, rfl⟩ := hback
            have hpiece : pieceAt true ('\\' :: t) =
                (.lit (heredocEscape t).1, (heredocEscape t).2) := by
              rw [pieceAt, if_pos ⟨rfl, rfl⟩]
            have hcopy : ∀ s, dollarAt ('\\' :: s) = none := dollarAt_other (by decide)
            rw [expandParamsFrom_cons, hpiece]
            dsimp only
            cases t with
            | nil =>
                refine (ih [] fx (Nat.zero_le n)).keep rfl fun h => ?_
                exact .cons (hcopy []) (fun _ _ d hd => by simp at hd) h
            | cons d t =>
                have hrest := ih t fx (Nat.le_trans (Nat.le_succ _) (hlen 0))
                by_cases hesc : escaped d = true
                · obtain ⟨e, he, hshort⟩ := heredocEscape_escaped hesc t
                  rw [he]
                  refine hrest.drop ?_
                  simp only [List.length_cons]
                  omega
                · have hesc : escaped d = false := by simpa using hesc
                  have hd := mt escaped_iff.mpr (Bool.eq_false_iff.mp hesc)
                  simp only [not_or] at hd
                  rw [heredocEscape_other hesc]
                  refine hrest.keep rfl fun h => ?_
                  refine .cons (hcopy _) (fun _ _ x hx => Option.some.inj hx ▸ hesc) ?_
                  exact .cons (dollarAt_other hd.1 t) (fun _ hback => absurd hback hd.2.2.1) h
          · cases hat : dollarAt (c :: t) with
            | none =>
                have hpiece : pieceAt esc (c :: t) = (.lit [c], 1) := by
                  rw [pieceAt, if_neg hback, hat]
                rw [expandParamsFrom_cons, hpiece]
                refine (ih t fx (hlen 0)).keep rfl fun h => ?_
                exact .cons hat (fun he hc => absurd ⟨he, hc⟩ hback) h
            | some form =>
                obtain ⟨d, len⟩ := form
                have hpiece : pieceAt esc (c :: t) = (.form d, len) := by
                  rw [pieceAt, if_neg hback, hat]
                rw [expandParamsFrom_cons, hpiece]
                refine .made ?_
                exact Nat.lt_of_lt_of_le (evalDollar_log w ctx hword d fx)
                  (ih (t.drop (len - 1)) _ (hlen _)).log_le

omit hword in
/-- A plain text stands for itself. -/
theorem expandParamsFrom_plain_same {esc : Bool} (n : Nat) : ∀ {t : Text} (fx : Effects),
    t.length ≤ n → Plain esc t → expandParamsFrom w ctx word esc 0 t fx = (t, fx) := by
  induction n with
  | zero =>
      intro t fx hn _
      obtain rfl := List.length_eq_zero_iff.mp (Nat.le_zero.mp hn)
      rfl
  | succ n ih =>
      intro t fx hn hplain
      cases t with
      | nil => rfl
      | cons c t =>
          have htail : ∀ {s}, s <:+ t → Plain esc s :=
            fun hs u hu => hplain u (hu.trans (hs.trans (List.suffix_cons c t)))
          obtain ⟨hdollar, hesc⟩ := hplain (c :: t) (List.suffix_refl _)
          simp only [List.length_cons] at hn
          by_cases hback : esc = true ∧ c = '\\'
          · obtain ⟨rfl, rfl⟩ := hback
            rw [expandParamsFrom_cons, pieceAt, if_pos ⟨rfl, rfl⟩]
            cases t with
            | nil => rfl
            | cons d t =>
                rw [heredocEscape_other (hesc rfl d t rfl)]
                show prepend ['\\', d] (expandParamsFrom w ctx word true 0 t fx) = _
                simp only [List.length_cons] at hn
                rw [ih fx (by omega) (htail (List.suffix_cons d t))]
                rfl
          · have hpiece : pieceAt esc (c :: t) = (.lit [c], 1) := by
              rw [pieceAt, if_neg hback, hdollar]
            rw [expandParamsFrom_cons, hpiece]
            show prepend [c] (expandParamsFrom w ctx word esc 0 t fx) = _
            rw [ih fx (by omega) (htail (List.suffix_refl t))]
            rfl

end Text

/-! ## Words, paths and bodies -/

/-- Substitutions are made, or nothing is done and `P` holds. -/
inductive Settles {α : Type} (P : Prop) (a : α) (fx : Effects) : α × Effects → Prop where
  | made {r : α × Effects} (h : fx.log.length < r.2.log.length) : Settles P a fx r
  | same (h : P) : Settles P a fx (a, fx)

theorem Settles.log_le {α : Type} {P : Prop} {a : α} {fx : Effects} {r : α × Effects}
    (h : Settles P a fx r) : fx.log.length ≤ r.2.log.length := by
  cases h with
  | made h => exact Nat.le_of_lt h
  | same h => exact Nat.le_refl _

section Words

variable (w : World) (ctx : Ctx)

theorem expandWordN_log (n : Nat) : ∀ (t : Text) (fx : Effects),
    fx.log.length ≤ (expandWordN w ctx n t fx).2.log.length := by
  induction n with
  | zero => exact fun _ _ => Nat.le_refl _
  | succ n ih =>
      intro t fx
      rw [expandWordN]
      split
      · exact Nat.le_succ _
      · exact (expandParamsFrom_outcome w ctx ih false t.length t fx (Nat.le_refl _)).log_le

/-- **`expand_word`.** -/
theorem expandWord_settles (t : Text) (fx : Effects) :
    Settles (Still t) t fx (expandWord w ctx t fx) := by
  rw [expandWord, expandWordN]
  by_cases htilde : isTilde t = true
  · rw [if_pos htilde]
    exact .made (Nat.lt_succ_self _)
  · rw [if_neg htilde]
    have hrun := expandParamsFrom_outcome w ctx (expandWordN_log w ctx t.length) false t.length t fx
      (Nat.le_refl _)
    generalize expandParamsFrom w ctx (expandWordN w ctx t.length) false 0 t fx = r at hrun ⊢
    cases hrun with
    | made h => exact .made h
    | shorter h hesc => contradiction
    | same h => exact .same ⟨by simpa using htilde, plain_false.mp h⟩

theorem expandArg_settles (word : Word) (fx : Effects) :
    Settles (word.quoted = .single ∨ Still word.text) [word] fx (expandArg w ctx word fx) := by
  rw [expandArg]
  by_cases hsingle : word.quoted = .single
  · rw [if_pos hsingle]
    exact .same (Or.inl hsingle)
  · rw [if_neg hsingle]
    split
    · exact .made (Nat.lt_succ_self _)
    · split
      · exact .made (Nat.lt_succ_self _)
      · have hword := expandWord_settles w ctx word.text fx
        generalize expandWord w ctx word.text fx = r at hword ⊢
        cases hword with
        | made h => exact .made h
        | same h => exact .same (Or.inr h)

theorem expandArgs_settles (words : List Word) : ∀ fx : Effects,
    Settles (∀ word ∈ words, word.quoted = .single ∨ Still word.text) words fx
      (expandArgs w ctx words fx) := by
  induction words with
  | nil => exact fun _ => .same (by simp)
  | cons word words ih =>
      intro fx
      have hword := expandArg_settles w ctx word fx
      rw [expandArgs]
      generalize expandArg w ctx word fx = r at hword ⊢
      have hrest := ih r.2
      dsimp only
      generalize expandArgs w ctx words r.2 = r' at hrest ⊢
      cases hword with
      | made h => exact .made (Nat.lt_of_lt_of_le h hrest.log_le)
      | same h =>
          cases hrest with
          | made hlog => exact .made hlog
          | same hwords => exact .same (List.forall_mem_cons.mpr ⟨h, hwords⟩)

theorem expandPath_settles (path : Option Text) (fx : Effects) :
    Settles (∀ p ∈ path, Still p) path fx (expandPath w ctx path fx) := by
  cases path with
  | none => exact .same (by simp)
  | some path =>
      have hpath := expandWord_settles w ctx path fx
      rw [expandPath]
      generalize expandWord w ctx path fx = r at hpath ⊢
      cases hpath with
      | made h => exact .made h
      | same h => exact .same (by simpa using h)

/-- There is nothing to expand in a body that is expanded. -/
def BodyPlain (quoted : Bool) (body : Option Text) : Prop :=
  quoted = false → ∀ b ∈ body, Plain true b

/-- A body that comes back, without substitutions, is plain. -/
theorem expandBody_settles (quoted : Bool) (body : Option Text) (fx : Effects) :
    fx.log.length ≤ (expandBody w ctx quoted body fx).2.log.length ∧
      (expandBody w ctx quoted body fx = (body, fx) → BodyPlain quoted body) := by
  cases body with
  | none => exact ⟨Nat.le_refl _, fun _ _ b hb => nomatch hb⟩
  | some body =>
      rw [expandBody]
      cases quoted with
      | true => exact ⟨Nat.le_refl _, fun _ h => nomatch h⟩
      | false =>
          have hbody := expandParamsFrom_outcome w ctx (expandWordN_log w ctx body.length) true
            body.length body fx (Nat.le_refl _)
          rw [← expandHeredocBody] at hbody
          generalize expandHeredocBody w ctx body fx = r at hbody ⊢
          refine ⟨hbody.log_le, fun heq => ?_⟩
          have hr : r = (body, fx) := by
            obtain ⟨htext, hfx⟩ := Prod.mk.inj heq
            exact Prod.ext (Option.some.inj htext) hfx
          intro _ b hb
          obtain rfl := Option.some.inj hb
          rw [hr] at hbody
          cases hbody with
          | made h => exact absurd h (Nat.lt_irrefl _)
          | shorter h hesc => exact absurd h (Nat.lt_irrefl _)
          | same h => exact h

end Words

/-! ## Commands -/

/-- There is nothing to expand in the command. -/
structure Settled (cmd : Cmd) : Prop where
  argv : ∀ word ∈ cmd.argv, word.quoted = .single ∨ Still word.text
  redirIn : ∀ path ∈ cmd.redirIn, Still path
  redirOut : ∀ path ∈ cmd.redirOut, Still path
  redirErr : ∀ path ∈ cmd.redirErr, Still path
  body : BodyPlain cmd.hereQuoted cmd.hereBody

section Commands

variable (w : World) (ctx : Ctx)

/-- The paths a pattern was replaced by are not looked up again, nor is a pattern that was
not replaced replaced now. -/
theorem globArg_again (word : Word) : ∀ word' ∈ globArg w word, globArg w word' = [word'] := by
  have hself : globArg w word = [word] → ∀ word' ∈ globArg w word, globArg w word' = [word'] := by
    intro h word' hword'
    rw [h, List.mem_singleton] at hword'
    rw [hword', h]
  by_cases hplain : word.quoted ≠ .unquoted ∨ ¬ patternHasMeta word.text
  · exact hself (by rw [globArg, if_pos hplain])
  · cases hglob : globWord w.listing word.text with
    | none => exact hself (by rw [globArg, if_neg hplain, hglob])
    | some paths =>
        by_cases hpaths : paths = [word.text]
        · apply hself
          rw [globArg, if_neg hplain, hglob]
          exact if_pos hpaths
        · have hreplaced : globArg w word = paths.map (⟨·, .single⟩) := by
            rw [globArg, if_neg hplain, hglob]
            exact if_neg hpaths
          intro word' hword'
          rw [hreplaced] at hword'
          obtain ⟨path, -, rfl⟩ := List.mem_map.mp hword'
          exact globArg_quoted w Quoting.noConfusion

theorem flatMap_globArg_again (words : List Word) :
    (words.flatMap (globArg w)).flatMap (globArg w) = words.flatMap (globArg w) := by
  have hall : ∀ l : List Word, (∀ word ∈ l, globArg w word = [word]) → l.flatMap (globArg w) = l := by
    intro l
    induction l with
    | nil => exact fun _ => rfl
    | cons word l ih =>
        intro h
        rw [List.forall_mem_cons] at h
        rw [List.flatMap_cons, h.1, ih h.2]
        rfl
  apply hall
  intro word hword
  obtain ⟨word', -, hword'⟩ := List.mem_flatMap.mp hword
  exact globArg_again w word' word hword'

/-- What does not make substitutions does nothing. -/
theorem Settles.of_log {α : Type} {P : Prop} {a : α} {fx : Effects} {r : α × Effects}
    (h : Settles P a fx r) (hlog : r.2.log.length ≤ fx.log.length) : P ∧ r = (a, fx) := by
  cases h with
  | made h => exact absurd h (Nat.not_lt_of_le hlog)
  | same h => exact ⟨h, rfl⟩

/-- **A command that comes back has nothing to expand**, and the other way round. -/
theorem expandCmdArgv_same (cmd : Cmd) (fx : Effects)
    (hglob : cmd.argv.flatMap (globArg w) = cmd.argv) :
    expandCmdArgv w ctx cmd fx = (cmd, fx) ↔ Settled cmd := by
  have hargs := expandArgs_settles w ctx cmd.argv fx
  have hin := expandPath_settles w ctx cmd.redirIn (expandArgs w ctx cmd.argv fx).2
  constructor
  · intro heq
    have hbody : expandBody w ctx cmd.hereQuoted cmd.hereBody
        (expandPath w ctx cmd.redirErr (expandPath w ctx cmd.redirOut
          (expandPath w ctx cmd.redirIn (expandArgs w ctx cmd.argv fx).2).2).2).2 =
        (cmd.hereBody, fx) := by
      have hfst := congrArg (fun r => r.1.hereBody) heq
      have hsnd := congrArg Prod.snd heq
      exact Prod.ext hfst hsnd
    generalize expandArgs w ctx cmd.argv fx = r₁ at hargs hin hbody
    generalize expandPath w ctx cmd.redirIn r₁.2 = r₂ at hin hbody
    have hout := expandPath_settles w ctx cmd.redirOut r₂.2
    generalize expandPath w ctx cmd.redirOut r₂.2 = r₃ at hout hbody
    have herr := expandPath_settles w ctx cmd.redirErr r₃.2
    generalize expandPath w ctx cmd.redirErr r₃.2 = r₄ at herr hbody
    obtain ⟨hlast, hplain⟩ := expandBody_settles w ctx cmd.hereQuoted cmd.hereBody r₄.2
    rw [hbody] at hlast
    -- no step made a substitution, as the last has no more of them than the first
    have hlast : r₄.2.log.length ≤ fx.log.length := hlast
    have h₁ := hargs.log_le
    have h₂ := hin.log_le
    have h₃ := hout.log_le
    have h₄ := herr.log_le
    obtain ⟨hwords, rfl⟩ := hargs.of_log (by omega)
    obtain ⟨hinStill, rfl⟩ := hin.of_log (by omega)
    obtain ⟨houtStill, rfl⟩ := hout.of_log (by omega)
    obtain ⟨herrStill, rfl⟩ := herr.of_log (by omega)
    exact ⟨hwords, hinStill, houtStill, herrStill, hplain hbody⟩
  · intro h
    have hpath : ∀ path : Option Text, (∀ p ∈ path, Still p) → expandPath w ctx path fx = (path, fx) := by
      intro path hpath
      cases path with
      | none => rfl
      | some path => rw [expandPath, expandWord_still w ctx (hpath path rfl)]
    have hbody : expandBody w ctx cmd.hereQuoted cmd.hereBody fx = (cmd.hereBody, fx) := by
      have hplain := h.body
      cases hbody : cmd.hereBody with
      | none => rfl
      | some body =>
          rw [expandBody]
          cases hquoted : cmd.hereQuoted with
          | true => rfl
          | false =>
              rw [if_neg (by simp), expandHeredocBody,
                expandParamsFrom_plain_same w ctx body.length fx (Nat.le_refl _)
                  (hplain hquoted body hbody)]
    rw [expandCmdArgv, expandArgs_still w ctx h.argv]
    simp only [hpath _ h.redirIn, hpath _ h.redirOut, hpath _ h.redirErr, hbody, hglob]

end Commands

/-! ## The pipeline -/

section Pipeline

variable (O : Outside) (dl : PList → Prog Shell (Int × PList))

theorem expanding_map {α β : Type} (f : World → Ctx → Effects → α × Effects) (g : α → β) :
    expanding O dl (fun w ctx fx => (g (f w ctx fx).1, (f w ctx fx).2)) =
      expanding O dl f >>= fun a => pure (g a) := by
  simp only [expanding, bind_assoc]
  rfl

/-- A command that is expanded, and then dispatched. -/
def expandThenDispatch (cmd : Cmd) : Prog Shell (Int × Pipeline) := do
  emit (.dispatch ⟨[cmd]⟩)
  let once ← expanding O dl fun w ctx fx => expandCmdArgv w ctx cmd fx
  let bad ← takeExpandErrors
  if bad then pure (1, ⟨[once]⟩)
  else do
    let r ← dispatchCommand O dl once
    pure (r.1, ⟨[r.2]⟩)

/-- **A pipeline of one stage is expanded twice**: by itself, and by `dispatch_command`. -/
theorem dispatchPipeline_one (cmd : Cmd) :
    dispatchPipeline O dl ⟨[cmd]⟩ = expandThenDispatch O dl cmd := by
  have hexpand : (fun w ctx fx => expandCmds w ctx [cmd] fx) =
      fun w ctx fx => ([(expandCmdArgv w ctx cmd fx).1], (expandCmdArgv w ctx cmd fx).2) := rfl
  rw [dispatchPipeline, if_neg (List.cons_ne_nil _ _)]
  show (emit _ >>= fun _ => expanding O dl (fun w ctx fx => expandCmds w ctx [cmd] fx) >>= _) = _
  rw [hexpand, expanding_map O dl (fun w ctx fx => expandCmdArgv w ctx cmd fx) fun c => [c],
    bind_assoc]
  rfl

end Pipeline

/-! ## The claim -/

/-- `g_arith_error` or `g_nounset_error` is set. -/
def failing (fx : Effects) : Bool := fx.arithError || fx.nounsetError

/-- **Expanded once.**  A pipeline of one stage is expanded twice; for every command and
everything an expansion reads, the second time changes nothing and substitutes nothing if
and only if it does not come to that (the first one fails, or leaves no words), or the
command it is handed holds nothing to expand. -/
theorem expanded_once_iff (O : Outside) (dl : PList → Prog Shell (Int × PList)) (cmd : Cmd) :
    dispatchPipeline O dl ⟨[cmd]⟩ = expandThenDispatch O dl cmd ∧
      ∀ (w : World) (ctx : Ctx) (fx : Effects) (once : Cmd × Effects),
        once = expandCmdArgv w ctx cmd fx →
        ((failing once.2 = false → once.1.argv ≠ [] →
            expandCmdArgv w ctx once.1 once.2 = once) ↔
          failing once.2 = true ∨ once.1.argv = [] ∨ Settled once.1) := by
  refine ⟨dispatchPipeline_one O dl cmd, ?_⟩
  rintro w ctx fx _ rfl
  have hglob : (expandCmdArgv w ctx cmd fx).1.argv.flatMap (globArg w) =
      (expandCmdArgv w ctx cmd fx).1.argv := flatMap_globArg_again w _
  have hsame := expandCmdArgv_same w ctx (expandCmdArgv w ctx cmd fx).1
    (expandCmdArgv w ctx cmd fx).2 hglob
  constructor
  · intro h
    by_cases hfail : failing (expandCmdArgv w ctx cmd fx).2 = true
    · exact Or.inl hfail
    · by_cases hargv : (expandCmdArgv w ctx cmd fx).1.argv = []
      · exact Or.inr (Or.inl hargv)
      · exact Or.inr (Or.inr (hsame.mp (h (by simpa using hfail) hargv)))
  · intro h hfail hargv
    obtain h | h | h := h
    · rw [h] at hfail
      contradiction
    · contradiction
    · exact hsame.mpr h

/-- `x` holds the text `$(c)`. -/
def commandInX : Ctx :=
  { env := fun name => if name = "x".toList then some "$(c)".toList else none }

/-- `echo $x`. -/
def echoX : Cmd := { argv := [⟨"echo".toList, .unquoted⟩, ⟨"$x".toList, .unquoted⟩] }

/-- **`echo $x` runs the command in the value of `x`.**  One expansion gives the text
`$(c)`; the second one asks for what `c` prints. -/
theorem value_executed :
    (expandCmdArgv bareWorld commandInX echoX {}).1.argv.map Word.text =
        ["echo".toList, "$(c)".toList] ∧
      (expandCmdArgv bareWorld commandInX (expandCmdArgv bareWorld commandInX echoX {}).1
          (expandCmdArgv bareWorld commandInX echoX {}).2).1.argv.map Word.text =
        ["echo".toList, []] ∧
      ((expandCmdArgv bareWorld commandInX (expandCmdArgv bareWorld commandInX echoX {}).1
          (expandCmdArgv bareWorld commandInX echoX {}).2).2.log.map Made.subst).head? =
        some (.dollar (.cmdsubst "c".toList)) := by
  refine ⟨by decide, by decide, by decide⟩

theorem expanded_once_iff_echoX :
    dispatchPipeline Outside.quiet (dispatchList Outside.quiet 1) ⟨[echoX]⟩ =
        expandThenDispatch Outside.quiet (dispatchList Outside.quiet 1) echoX ∧
      ((failing (expandCmdArgv bareWorld commandInX echoX {}).2 = false →
          (expandCmdArgv bareWorld commandInX echoX {}).1.argv ≠ [] →
          expandCmdArgv bareWorld commandInX (expandCmdArgv bareWorld commandInX echoX {}).1
            (expandCmdArgv bareWorld commandInX echoX {}).2 =
            expandCmdArgv bareWorld commandInX echoX {}) ↔
        failing (expandCmdArgv bareWorld commandInX echoX {}).2 = true ∨
          (expandCmdArgv bareWorld commandInX echoX {}).1.argv = [] ∨
          Settled (expandCmdArgv bareWorld commandInX echoX {}).1) :=
  ⟨(expanded_once_iff Outside.quiet (dispatchList Outside.quiet 1) echoX).1,
    (expanded_once_iff Outside.quiet (dispatchList Outside.quiet 1) echoX).2 bareWorld commandInX {}
      _ rfl⟩

end Petrush.Verified.Idempotence

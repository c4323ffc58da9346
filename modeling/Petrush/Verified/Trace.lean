import Petrush.Verified.Record

/-!
# The trace of a run

`set -x` prints a line for each command that is dispatched, from two places: behind the
expansion of a single command, and for all stages before a pipeline is started.  Both
are an `announce`, which notes the command and then prints, so that along a run the lines
are the commands that were due one (`dispatchList_even`): `-x` was on, and there were
words.

A command substitution inherits `-x` through `fork`, and prints its commands too.

## Main results

* `trace_iff`: when the lines are the commands of the shell, and those of no
  substitution.
* `substitution_traces`: a substitution prints its commands.
-/

namespace Petrush.Verified.Trace

open Petrush.Lib.CText
open Petrush.Lib.Run
open Petrush.Mid.Ast
open Petrush.Mid.Dispatcher
open Petrush.Mid.Expand
open Petrush.Mid.Parser
open Petrush.Mid.State
open Petrush.Verified.Record
open Petrush.Verified.Traversal

/-! ## Lines and commands -/

/-- The line that an entry prints. -/
def line (e : Entry) : Option (List Text) :=
  match e.event with
  | .trace argv => some argv
  | _ => none

/-- The command that it dispatches. -/
def command (e : Entry) : Option (List Text) :=
  match e.event with
  | .command argv => some argv
  | _ => none

/-- The command, when it is due a line. -/
def due (e : Entry) : Option (List Text) :=
  if e.optX then (command e).filter fun argv => !argv.isEmpty else none

/-- What the entries of some processes say, the last one first. -/
def saidBy {α : Type} (p : Proc → Bool) (f : Entry → Option α) (l : List Entry) : List α :=
  l.filterMap fun e => if p e.proc then f e else none

/-- The lines are the commands that are due one, process by process and in order. -/
def Even (l : List Entry) : Prop := ∀ p, saidBy p line l = saidBy p due l

theorem even_nil : Even [] := fun _ => rfl

theorem even_append {l l' : List Entry} (h : Even l) (h' : Even l') : Even (l ++ l') := by
  intro p
  simp only [saidBy, List.filterMap_append]
  exact congrArg₂ _ (h p) (h' p)

/-- An entry that is neither. -/
theorem even_single {e : Entry} (hline : line e = none) (hcommand : command e = none) :
    Even [e] := by
  intro p
  simp [saidBy, due, hline, hcommand]

/-! ## Runs that keep them even -/

/-- The record has grown, evenly. -/
structure Evenly (s s' : Shell) : Prop extends Stays s s' where
  even : Even (added s s')

/-- The same of a run that does not return. -/
structure EvenlyStop (s s' : Shell) : Prop extends Grew s s' where
  even : Even (added s s')

theorem Evenly.same {s s' : Shell} (hlog : s'.log = s.log) (hproc : s'.proc = s.proc)
    (hframes : s'.frames = s.frames) : Evenly s s' := by
  refine ⟨Stays.same hlog hproc hframes, ?_⟩
  rw [added_eq (l := []) hlog]
  exact even_nil

theorem evenlyStop_trans {s t u : Shell} (h : Evenly s t) (k : EvenlyStop t u) :
    EvenlyStop s u := by
  refine ⟨Grew.trans h.toStays k.toGrew, ?_⟩
  rw [added_trans h.toGrew k.toGrew]
  exact even_append k.even h.even

theorem evenly_composes : Composes Evenly EvenlyStop where
  refl _ := Evenly.same rfl rfl rfl
  trans h k := ⟨h.toStays.trans k.toStays, (evenlyStop_trans h ⟨k.toGrew, k.even⟩).even⟩
  stop _ := ⟨Grew.same rfl, (Evenly.same rfl rfl rfl).even⟩
  transStop := evenlyStop_trans

/-- A note that is neither a line nor a command. -/
theorem evenly_noted {e : Event} (s : Shell) (hline : line (s.entry e) = none)
    (hcommand : command (s.entry e) = none) : Evenly s (noted e s) := by
  refine ⟨Stays.noted e s, ?_⟩
  rw [added_eq (l := [s.entry e]) rfl]
  exact even_single hline hcommand

theorem evenly_emit {e : Event} (h : ∀ s : Shell, line (s.entry e) = none ∧
    command (s.entry e) = none) : Keeps Evenly EvenlyStop (emit e) :=
  Keeps.modify fun s => evenly_noted s (h s).1 (h s).2

theorem grew_of_evenly {α : Type} {c : Prog Shell α} (h : Keeps Evenly EvenlyStop c) :
    Keeps Stays Grew c := h.imp (fun _ _ h => h.toStays) fun _ _ h => h.toGrew

theorem evenly_within {α : Type} (frame : Frame) {c : Prog Shell α}
    (hc : Keeps Evenly EvenlyStop c) : Keeps Evenly EvenlyStop (within frame c) := by
  intro s
  have hgrew := grew_within frame (grew_of_evenly hc) s
  have heven : (within frame c s).Holds (fun _ t => Even (added s t)) fun t => Even (added s t) := by
    apply bind_holds
    show Outcome.Holds _ _ (Outcome.ok { s with frames := frame :: s.frames } ())
    apply bind_holds
    exact (hc _).imp (fun _ _ h => h.even) fun _ h => h.even
  exact (hgrew.and heven).imp (fun _ _ h => ⟨h.1, h.2⟩) fun _ h => ⟨h.1, h.2⟩

theorem evenly_control : Control Evenly EvenlyStop where
  toComposes := evenly_composes
  quiet h := Evenly.same (congrArg Core.log h) (congrArg Core.proc h) (congrArg Core.frames h)
  fds _ _ := Evenly.same rfl rfl rfl
  flags _ _ := Evenly.same rfl rfl rfl
  note s e he := by
    apply evenly_noted
    · cases e <;> first | rfl | contradiction
    · cases e <;> first | rfl | contradiction
  within := evenly_within

theorem evenly_base : Base fun _ => Keeps Evenly EvenlyStop := evenly_control.base

theorem announce_eq (cmd : Cmd) (s : Shell) :
    announce cmd s =
      .ok (if s.ctx.optX = true ∧ cmd.argv ≠ [] then
          noted (.trace (words cmd)) (noted (.command (words cmd)) s)
        else noted (.command (words cmd)) s) () := by
  show (if s.ctx.optX = true ∧ cmd.argv ≠ [] then emit (.trace (words cmd)) else pure () :
    Prog Shell Unit) (noted (.command (words cmd)) s) = _
  split <;> rfl

/-- The note of a command and its line go together. -/
theorem evenly_announce (cmd : Cmd) : Keeps Evenly EvenlyStop (announce cmd) := by
  intro s
  have hnoted := Stays.noted (.command (words cmd)) s
  rw [announce_eq]
  show Evenly s _
  by_cases hx : s.ctx.optX = true ∧ cmd.argv ≠ []
  · rw [if_pos hx]
    refine ⟨hnoted.trans (Stays.noted _ _), ?_⟩
    rw [added_eq (s := s) (l := [s.entry (.trace (words cmd)), s.entry (.command (words cmd))]) rfl]
    have hwords : (words cmd).isEmpty = false := by simp [words, hx.2]
    have hdue : due (s.entry (.command (words cmd))) = some (words cmd) := by
      show (if s.ctx.optX = true then (some (words cmd)).filter _ else none) = _
      rw [if_pos hx.1]
      simp [Option.filter, hwords]
    have hdue' : due (s.entry (.trace (words cmd))) = none := by
      show (if s.ctx.optX = true then none else none) = _
      exact ite_self _
    have hline : line (s.entry (.trace (words cmd))) = some (words cmd) := rfl
    have hline' : line (s.entry (.command (words cmd))) = none := rfl
    intro p
    simp only [saidBy, List.filterMap_cons, hdue, hdue', hline, hline', ite_self]
    rfl
  · rw [if_neg hx]
    refine ⟨hnoted, ?_⟩
    rw [added_eq (l := [s.entry (.command (words cmd))]) rfl]
    have hdue : due (s.entry (.command (words cmd))) = none := by
      show (if s.ctx.optX = true then (some (words cmd)).filter _ else none) = _
      by_cases hon : s.ctx.optX = true
      · have hempty : cmd.argv = [] := by simpa [hon] using hx
        rw [if_pos hon]
        simp [words, hempty, Option.filter]
      · rw [if_neg hon]
    have hline : line (s.entry (.command (words cmd))) = none := rfl
    intro p
    simp only [saidBy, List.filterMap_cons, hdue, hline, ite_self]
    rfl

theorem evenly_fork {α : Type} {child : Child} {prepare : Shell → Shell} {body : Prog Shell α}
    (hp : Prepares child prepare) (hb : Keeps Evenly EvenlyStop body) :
    Keeps Evenly EvenlyStop (fork child prepare body) := by
  intro s
  have hgrew := grew_of_evenly hb
  have hstay : Stays s (forked child prepare body s) := grew_fork hp hgrew s
  have hchild : Even (added (born child prepare s) (body (born child prepare s)).state) :=
    Outcome.Holds.state (E := fun t => Even (added (born child prepare s) t))
      ((hb _).imp (fun _ _ h => h.even) fun _ h => h.even)
  rw [fork_eq]
  refine ⟨hstay, ?_⟩
  rw [added_forked hp hgrew]
  exact even_append hchild (even_single rfl rfl)

theorem evenly_stageChild {O : Outside} {dl : PList → Prog Shell (Int × PList)} (since i n : Nat)
    {cmd : Cmd} (hrun : Keeps Evenly EvenlyStop (callBuiltin O dl cmd)) :
    Keeps Evenly EvenlyStop (stageChild O dl since i n cmd) := by
  apply keeps_stageChild evenly_base (Keeps.exit evenly_composes) _ since i n
  · apply keeps_stageRun evenly_base (Keeps.exit evenly_composes) _ hrun
    exact keeps_execv evenly_base (fun _ _ => evenly_emit fun _ => ⟨rfl, rfl⟩) id cmd
  · exact fun _ _ => Evenly.same rfl rfl rfl

theorem evenly_builtinExit {O : Outside} {dl : PList → Prog Shell (Int × PList)}
    (hdl : ∀ l, Keeps Evenly EvenlyStop (dl l)) (args : List Text) :
    Keeps Evenly EvenlyStop (builtinExit O dl args) := by
  apply keeps_builtinExit evenly_base
  · exact fun _ => evenly_emit fun _ => ⟨rfl, rfl⟩
  · exact fun code => evenly_control.ends (evenly_emit fun _ => ⟨rfl, rfl⟩) code
  · apply keeps_runExitTrap evenly_base
    · exact fun _ _ => Evenly.same rfl rfl rfl
    · exact fun _ _ => evenly_emit fun _ => ⟨rfl, rfl⟩
    · exact evenly_emit fun _ => ⟨rfl, rfl⟩
    · exact evenly_control.poll hdl _
    · exact keeps_exitAction evenly_control hdl

theorem evenly_steps (O : Outside) : Steps O Evenly EvenlyStop := by
  have hemit : ∀ {e}, (∀ s : Shell, line (s.entry e) = none ∧ command (s.entry e) = none) →
      Keeps Evenly EvenlyStop (emit e) := evenly_emit
  refine { evenly_control with
    raise := ?_, lower := ?_, item := ?_, announce := evenly_announce, external := ?_, stage := ?_
    push := ?_, slot := ?_, fork := evenly_fork, wait := ?_, call := ?_, leave := ?_ }
  · apply evenly_base.seq (hemit (e := .abort) fun _ => ⟨rfl, rfl⟩)
    exact fun _ _ => Evenly.same rfl rfl rfl
  · exact fun _ => Evenly.same rfl rfl rfl
  · exact fun s _ => evenly_noted s rfl rfl
  · exact fun cmd => keeps_execv evenly_base (fun _ _ => hemit fun _ => ⟨rfl, rfl⟩) _ cmd
  · exact fun since i n _ hrun => evenly_fork .stage (evenly_stageChild since i n hrun)
  · intro name _
    apply evenly_base.seq (evenly_base.read _)
    intro s
    apply Keeps.ite (evenly_base.ret _)
    apply evenly_base.seq (hemit (e := .saved _ _ _) fun _ => ⟨rfl, rfl⟩)
    intro _
    apply evenly_base.seq
    · exact fun _ => Evenly.same rfl rfl rfl
    · exact fun _ => evenly_base.ret _
  · intro slot action
    apply evenly_base.seq (hemit (e := .trapSet _ _) fun _ => ⟨rfl, rfl⟩)
    intro _ s
    show Evenly s _
    simp only
    split
    · exact Evenly.same rfl rfl rfl
    · split <;> exact Evenly.same rfl rfl rfl
  · intro dl start k status hpoll hstart
    apply keeps_waiting evenly_base _ k status hpoll hstart
    exact fun _ _ _ => Evenly.same rfl rfl rfl
  · intro dl hdl name args body
    apply keeps_callFn evenly_base _ _ _ _ name args (evenly_within .call (hdl body))
    · exact fun _ _ _ => Evenly.same rfl rfl rfl
    · exact fun _ _ => Evenly.same rfl rfl rfl
    · exact fun _ => hemit fun _ => ⟨rfl, rfl⟩
    · exact fun _ => hemit fun _ => ⟨rfl, rfl⟩
  · exact fun hdl _ args => evenly_builtinExit hdl args

/-- **Along every run the lines are the commands that are due one.** -/
theorem dispatchList_even (O : Outside) (n : Nat) (list : PList) (s : Shell) :
    Even (added s (dispatchList O n list s).state) := by
  have h := dispatchList_keeps (evenly_steps O).closed n list s
  exact Outcome.Holds.state (E := fun t => Even (added s t))
    (h.imp (fun _ _ h => h.even) fun _ h => h.even)

/-! ## When they are the commands of the shell -/

/-- A function that picks fewer elements, and the same ones where it picks any. -/
theorem filterMap_eq_iff {α β : Type} {f g : α → Option β} (l : List α)
    (h : ∀ x, f x = g x ∨ f x = none) :
    l.filterMap f = l.filterMap g ↔ ∀ x ∈ l, f x = g x := by
  constructor
  · have hlen : ∀ l : List α, (l.filterMap f).length ≤ (l.filterMap g).length := by
      intro l
      induction l with
      | nil => exact Nat.le_refl _
      | cons x l ih =>
          rw [List.filterMap_cons, List.filterMap_cons]
          rcases h x with hx | hx
          · rw [hx]
            cases g x with
            | none => exact ih
            | some b => exact Nat.succ_le_succ ih
          · rw [hx]
            cases g x with
            | none => exact ih
            | some b => exact Nat.le_succ_of_le ih
    induction l with
    | nil => exact fun _ _ hx => absurd hx List.not_mem_nil
    | cons x l ih =>
        intro heq
        have hx : f x = g x := by
          rcases h x with hx | hx
          · exact hx
          · rw [hx]
            cases hg : g x with
            | none => rfl
            | some b =>
                have hle := hlen l
                have := congrArg List.length heq
                simp only [List.filterMap_cons, hx, hg, List.length_cons] at this
                omega
        have htail : l.filterMap f = l.filterMap g := by
          cases hg : g x with
          | none => simpa [List.filterMap_cons, hx, hg] using heq
          | some b => simpa [List.filterMap_cons, hx, hg] using heq
        intro y hy
        rcases List.mem_cons.mp hy with rfl | hy
        · exact hx
        · exact ih htail y hy
  · exact fun heq => List.filterMap_congr heq

theorem due_le (e : Entry) : due e = command e ∨ due e = none := by
  unfold due
  by_cases hon : e.optX = true
  · rw [if_pos hon]
    cases command e with
    | none => exact .inl rfl
    | some argv =>
        cases argv with
        | nil => exact .inr rfl
        | cons name args => exact .inl rfl
  · rw [if_neg hon]
    exact .inr rfl

/-- A command is due a line when `-x` is on and it has words. -/
theorem due_command {e : Entry} {argv : List Text} (h : e.event = .command argv) :
    due e = if e.optX = true ∧ argv ≠ [] then some argv else none := by
  have hcommand : command e = some argv := by rw [command, h]
  rw [due, hcommand]
  by_cases hon : e.optX = true
  · cases argv with
    | nil => simp [hon, Option.filter]
    | cons name args => simp [hon, Option.filter]
  · simp [hon]

/-- The process itself. -/
def own (s : Shell) (p : Proc) : Bool := p == s.proc

/-- A process below it that a command substitution started. -/
def inSubst (s : Shell) (p : Proc) : Bool :=
  (p.take (p.length - s.proc.length)).any fun step => step.1 == .cmdsubst

/-- The lines are the commands of the shell, in order, and no substitution adds one. -/
def Traced (s : Shell) (l : List Entry) : Prop :=
  saidBy (own s) line l = saidBy (own s) command l ∧ saidBy (inSubst s) line l = []

/-- The shell dispatches commands with words while `-x` is on, and its substitutions do
not. -/
def Due (s : Shell) (e : Entry) : Prop :=
  ∀ argv, e.event = .command argv →
    (own s e.proc = true → e.optX = true ∧ argv ≠ []) ∧
      (inSubst s e.proc = true → ¬ (e.optX = true ∧ argv ≠ []))

theorem traced_iff {s : Shell} {l : List Entry} (h : Even l) :
    Traced s l ↔ ∀ e ∈ l, Due s e := by
  have hown : saidBy (own s) line l = saidBy (own s) command l ↔
      ∀ e ∈ l, own s e.proc = true → due e = command e := by
    rw [h, saidBy, saidBy, filterMap_eq_iff]
    · apply forall₂_congr
      intro e _
      by_cases hp : own s e.proc = true
      · simp [hp]
      · simp [hp]
    · intro e
      by_cases hp : own s e.proc = true
      · simpa [hp] using due_le e
      · exact .inl (by simp [hp])
  have hsubst : saidBy (inSubst s) line l = [] ↔
      ∀ e ∈ l, inSubst s e.proc = true → due e = none := by
    rw [h, saidBy, List.filterMap_eq_nil_iff]
    apply forall₂_congr
    intro e _
    by_cases hp : inSubst s e.proc = true
    · simp [hp]
    · simp [hp]
  rw [Traced, hown, hsubst, ← forall₂_and]
  apply forall₂_congr
  intro e _
  constructor
  · intro hdue argv he
    have hcommand : command e = some argv := by rw [command, he]
    rw [due_command he, hcommand] at hdue
    constructor
    · intro hp
      by_contra hnot
      have := hdue.1 hp
      rw [if_neg hnot] at this
      contradiction
    · intro hp hnot
      have := hdue.2 hp
      rw [if_pos hnot] at this
      contradiction
  · intro hdue
    cases hcommand : command e with
    | none =>
        have hnone : due e = none := by
          rcases due_le e with h | h
          · rw [h, hcommand]
          · exact h
        exact ⟨fun _ => hnone, fun _ => hnone⟩
    | some argv =>
        have he : e.event = .command argv := by
          unfold command at hcommand
          split at hcommand
          next argv' he =>
            rw [he, Option.some.inj hcommand]
          · contradiction
        rw [due_command he]
        constructor
        · intro hp
          exact if_pos ((hdue argv he).1 hp)
        · intro hp
          exact if_neg ((hdue argv he).2 hp)

/-- **The lines are the commands of the shell exactly when `-x` is on for each of them,
each has words, and no substitution dispatches a command with `-x` on.** -/
theorem trace_iff (O : Outside) (n : Nat) (list : PList) (s : Shell) :
    Traced s (added s (dispatchList O n list s).state) ↔
      ∀ e ∈ added s (dispatchList O n list s).state, Due s e :=
  traced_iff (dispatchList_even O n list s)

/-- A shell with `-x` on. -/
def tracing : Shell := Shell.start ⟨fun _ => none, [], [], false, false, true, 0⟩ fun _ => .dfl

/-- **A substitution prints its commands**: the list is `true $(false)`. -/
theorem substitution_traces :
    ∃ list, petrushParseList "true $(false)".toList = some list ∧
      saidBy (inSubst tracing) line (added tracing
        (dispatchList Outside.quiet 3 list tracing).state) = [["false".toList]] ∧
      ¬ Traced tracing (added tracing (dispatchList Outside.quiet 3 list tracing).state) := by
  refine ⟨_, rfl, by decide +kernel, ?_⟩
  rintro ⟨-, h⟩
  revert h
  decide +kernel

end Petrush.Verified.Trace

import Petrush.Verified.Dispositions

/-!
# The EXIT trap

The EXIT action begins in `petrush_run_exit_trap`, which the end of a script and
`exit` go through, behind three guards: `g_in_exit`, `g_is_subshell` and the depth of
command substitutions.  In the shell itself the first one counts its beginnings
(`Staged`); a process below a substitution or a background item is a subshell.

Not covered by the guards are the stages of a pipeline of the shell itself; and
`exit` with an argument that is no number, and the end of the loop at the prompt, end
the process without the EXIT action.

## Main results

* `session_proper`: when the EXIT action runs exactly once, and only in the shell
  itself.
* `exits_improper`: the three ways in which it does not.
-/

namespace Petrush.Verified.ExitTrap

open Petrush.Lib.CText
open Petrush.Lib.Run
open Petrush.Lib.Stdlib
open Petrush.Mid.Alias
open Petrush.Mid.Ast
open Petrush.Mid.Dispatcher
open Petrush.Mid.Expand
open Petrush.Mid.Heredoc
open Petrush.Mid.Parser
open Petrush.Mid.State
open Petrush.Mid.Trap
open Petrush.Verified.Dispositions (recordOf)
open Petrush.Verified.Invariants
open Petrush.Verified.Record
open Petrush.Verified.Traversal

/-! ## The property and the condition -/

def isExitAction : Event → Bool
  | .exitAction => true
  | _ => false

/-- The shell itself begins its EXIT action. -/
def ownExit (e : Entry) : Bool := isExitAction e.event && decide (e.proc = [])

/-- How often it has. -/
def exits (l : List Entry) : Nat := l.countP ownExit

/-- The slot holds a command. -/
def isCommand (action : Option Text) : Bool := action.any (· != [])

def isExitCall : Event → Bool
  | .exitCall _ => true
  | _ => false

/-- What an entry says of the EXIT action. -/
structure Proper (e : Entry) (past : List Entry) : Prop where
  /-- It begins in the shell itself, for the first time, and `$?` is the status that is
  about to be returned. -/
  action : e.event = .exitAction → e.proc = [] ∧ exits past = 0 ∧
    ∃ x rest, past = x :: rest ∧ x.proc = [] ∧ x.event = .leave e.lastStatus false
  /-- The shell is left at the end of its script or by `exit`, not at the end of a sourced
  file. -/
  leave : ∀ status inExit, e.event = .leave status inExit → e.frames = [] ∨
    ∃ x ∈ past, x.proc = e.proc ∧ x.frames = e.frames ∧ isExitCall x.event = true
  /-- When the shell has ended, it has begun once, unless there is none. -/
  ended : ∀ code, e.event = .ended code → e.proc = [] →
    exits past = 1 ∨ exits past = 0 ∧ isCommand (e.traps 0) = false

/-- The argument of `exit` is no number. -/
def BadStatus (args : List Text) : Prop := ∃ arg rest, args = arg :: rest ∧ parseLong arg = none

/-- What the EXIT action needs. -/
structure Orderly (e : Entry) (past : List Entry) : Prop where
  /-- The shell does not call `exit` with an argument that is no number while there is an
  EXIT action that has not begun. -/
  number : ∀ args, e.event = .exitCall args → BadStatus args → e.proc = [] →
    isCommand (e.traps 0) = false ∨ exits past ≠ 0
  /-- Nor is it left in a pipeline stage while there is one. -/
  stage : ∀ status, e.event = .leave status false → e.proc ≠ [] → (∀ c ∈ e.proc, c.1 = .stage) →
    isCommand (e.traps 0) = false
  /-- Nor does the loop at the prompt end. -/
  prompt : e.event = .promptEnd → isCommand (e.traps 0) = false

/-! ## The invariant -/

structure Staged (s : Shell) : Prop where
  subshell : (∃ c ∈ s.proc, c.1 ≠ .stage) → s.isSubshell = true
  main : s.proc = [] → s.isSubshell = false ∧ s.cmdsubstDepth = 0
  count : s.proc = [] → exits s.log = if s.inExit then 1 else 0

theorem exits_cons {e : Entry} {past : List Entry} (h : ownExit e = false) :
    exits (e :: past) = exits past := by
  rw [exits, List.countP_cons_of_neg (by simp [h])]
  rfl

theorem exits_grew {s t : Shell} (h : Grew s t) : exits s.log ≤ exits t.log := by
  rw [h.log, exits, exits, List.countP_append]
  exact Nat.le_add_left _ _

def leaves : Event → Bool
  | .exitAction | .leave _ _ | .ended _ => true
  | _ => false

/-- A note that is not about the EXIT action. -/
theorem proper_noted {s : Shell} {e : Event} (h : leaves e = false) :
    Proper (s.entry e) s.log := by
  refine ⟨?_, ?_, ?_⟩
  · intro he
    have hevent : e = .exitAction := he
    subst hevent
    contradiction
  · intro status inExit he
    have hevent : e = .leave status inExit := he
    subst hevent
    contradiction
  · intro code he
    have hevent : e = .ended code := he
    subst hevent
    contradiction

theorem staged_noted {s : Shell} {e : Event} (h : e ≠ .exitAction) (hs : Staged s) :
    Staged (noted e s) := by
  refine ⟨hs.subshell, hs.main, fun hproc => ?_⟩
  show exits (s.entry e :: s.log) = _
  rw [exits_cons]
  · exact hs.count hproc
  · cases e <;> first | rfl | exact absurd rfl h

theorem staged_born {child : Child} {prepare : Shell → Shell} (h : Prepares child prepare)
    {s : Shell} (hs : Staged s) : Staged (born child prepare s) := by
  refine ⟨?_, fun hproc => absurd hproc (List.cons_ne_nil _ _),
    fun hproc => absurd hproc (List.cons_ne_nil _ _)⟩
  rintro ⟨c, hc, hstage⟩
  cases h with
  | stage =>
      rcases List.mem_cons.mp hc with rfl | hc
      · exact absurd rfl hstage
      · exact hs.subshell ⟨c, hc, hstage⟩
  | background => rfl
  | cmdsubst m => rfl

/-- What children do is not counted. -/
theorem exits_below {l past : List Entry} {c : Child × Nat} {proc : Proc}
    (h : ∀ e ∈ l, c :: proc <:+ e.proc) : exits (l ++ past) = exits past := by
  have hnone : l.countP ownExit = 0 := by
    apply List.countP_eq_zero.mpr
    intro e he hown
    have hproc : e.proc = [] := by
      simp only [ownExit, Bool.and_eq_true, decide_eq_true_eq] at hown
      exact hown.2
    have hsuf := h e he
    rw [hproc] at hsuf
    exact absurd (List.suffix_nil.mp hsuf) (List.cons_ne_nil _ _)
  rw [exits, List.countP_append, hnone, Nat.zero_add]
  rfl

theorem staged_invariant : Invariant Orderly Proper Staged where
  quiet h hs := by
    have hproc := congrArg View.proc h
    have hsub := congrArg View.isSubshell h
    have hdepth := congrArg View.cmdsubstDepth h
    have hin := congrArg View.inExit h
    have hlog := congrArg View.log h
    simp only [view] at hproc hsub hdepth hin hlog
    refine ⟨?_, ?_, ?_⟩
    · rw [hproc, hsub]
      exact hs.subshell
    · rw [hproc, hsub, hdepth]
      exact hs.main
    · rw [hproc, hlog, hin]
      exact hs.count
  note s e he _ hs := by
    constructor
    · apply staged_noted _ hs
      rintro rfl
      exact he
    · apply proper_noted
      cases e <;> first | rfl | exact absurd he id
  slot s slot action _ hs := by
    have ht := slotSet_spec slot action s
    refine ⟨⟨?_, ?_, ?_⟩, proper_noted rfl⟩
    · rw [ht.proc, ht.isSubshell]
      exact hs.subshell
    · rw [ht.proc, ht.isSubshell, ht.cmdsubstDepth]
      exact hs.main
    · rw [ht.proc, ht.log, ht.inExit, exits_cons rfl]
      exact hs.count
  fork s child prepare h _ hs _ := ⟨staged_born h hs, proper_noted rfl⟩
  back s child l hl hs := by
    refine ⟨hs.subshell, hs.main, fun hproc => ?_⟩
    show exits (l ++ s.entry (.forked child s.log.length) :: s.log) = _
    rw [exits_below hl, exits_cons rfl]
    exact hs.count hproc
  push _ hs := ⟨hs.subshell, hs.main, hs.count⟩
  pop _ _ _ _ _ hs := ⟨hs.subshell, hs.main, hs.count⟩

/-! ## Leaving the shell -/

/-- What a part of a run keeps. -/
abbrev Goes := Under Orderly Proper Staged

abbrev Stops := Until Orderly Proper Staged

/-- Where the shell may be left: at the end of its script, or behind a call of `exit`. -/
def Placed (s : Shell) : Prop :=
  s.frames = [] ∨ ∃ x ∈ s.log, x.proc = s.proc ∧ x.frames = s.frames ∧ isExitCall x.event = true

theorem Placed.later {s t : Shell} (h : Placed s) (hst : Stays s t) : Placed t := by
  rw [Placed, hst.proc, hst.frames]
  refine h.imp id ?_
  rintro ⟨x, hx, hcall⟩
  refine ⟨x, ?_, hcall⟩
  rw [hst.log]
  exact List.mem_append_right _ hx

theorem goes_leave {s : Shell} (h : Placed s) (status : Int) (inExit : Bool) :
    Goes s (noted (.leave status inExit) s) := by
  refine under_noted rfl rfl rfl rfl fun _ hs => ⟨staged_noted (by simp) hs, ?_, ?_, ?_⟩
  · intro he
    contradiction
  · exact fun _ _ _ => h
  · intro code he
    contradiction

/-- The process ends; what it has done is known. -/
theorem stops_ended {s u : Shell} {code : Int} (hlog : u.log = s.log) (hproc : u.proc = s.proc)
    (hframes : u.frames = s.frames)
    (h : Every Orderly s.log → Staged s → s.proc = [] → exits s.log = 1 ∨ exits s.log = 0 ∧
      isCommand (u.traps 0) = false) :
    Stops s (noted (.ended code) u) := by
  refine ⟨Grew.trans (Stays.same hlog hproc hframes) (Stays.noted _ u).toGrew, fun hc hi => ?_⟩
  have hcond : Every Orderly s.log := hlog ▸ hc.tail
  show Every Proper (u.entry (.ended code) :: u.log)
  rw [hlog]
  refine .cons ⟨?_, ?_, fun _ _ hown => h hcond hi.1 (hproc.symm.trans hown)⟩ hi.2
  · intro he
    contradiction
  · intro status inExit he
    contradiction

/-- The shell that is left has run its EXIT action already, or is no shell of its own. -/
theorem stops_guarded {s : Shell} (hs : s.inExit = true ∨ s.isSubshell = true ∨ s.cmdsubstDepth > 0)
    (code : Int) : Stops s (noted (.ended code) s) := by
  refine stops_ended rfl rfl rfl fun _ hstaged hproc => Or.inl ?_
  obtain ⟨hsub, hdepth⟩ := hstaged.main hproc
  have hin : s.inExit = true := by
    rcases hs with h | h | h
    · exact h
    · rw [hsub] at h
      contradiction
    · rw [hdepth] at h
      contradiction
  rw [hstaged.count hproc, hin]
  rfl

/-- Or it has none. -/
theorem stops_idle {s : Shell}
    (hs : Every Orderly s.log → Staged s → s.proc = [] → s.inExit = false →
      isCommand (s.traps 0) = false) (code : Int) : Stops s (noted (.ended code) s) := by
  refine stops_ended rfl rfl rfl fun hcond hstaged hproc => ?_
  rw [hstaged.count hproc]
  cases hin : s.inExit
  · exact Or.inr ⟨rfl, hs hcond hstaged hproc hin⟩
  · exact Or.inl rfl

/-- The state in which the EXIT action is run. -/
def exiting (s : Shell) : Shell := { noted .exitAction s with inExit := true }

theorem exits_exiting {s : Shell} (h : s.proc = []) : exits (exiting s).log = exits s.log + 1 := by
  have hown : ownExit (s.entry .exitAction) = true := decide_eq_true h
  exact List.countP_cons_of_pos hown

/-- **The EXIT action begins** behind the decision to run it. -/
theorem goes_exiting {s : Shell} {x : Entry} {rest : List Entry} (hlog : s.log = x :: rest)
    (hproc : x.proc = s.proc) (htraps : x.traps = s.traps)
    (hleave : x.event = .leave s.ctx.lastStatus false) (hin : s.inExit = false)
    (hsub : s.isSubshell = false) (hcmd : isCommand (s.traps 0) = true) :
    Goes s (exiting s) := by
  refine under_entry rfl rfl rfl rfl fun hc hs _ => ?_
  have hown : s.proc = [] := by
    by_contra hne
    have hstages : ∀ c ∈ x.proc, c.1 = .stage := by
      intro c hc
      by_contra hkind
      have hshell := hs.subshell ⟨c, hproc ▸ hc, hkind⟩
      rw [hsub] at hshell
      contradiction
    have hcond : Orderly x rest := (hlog ▸ hc.tail : Every Orderly (x :: rest)).head
    have hnone := hcond.stage _ hleave (hproc ▸ hne) hstages
    rw [htraps, hcmd] at hnone
    contradiction
  have hzero : exits s.log = 0 := by rw [hs.count hown, hin]; rfl
  constructor
  · refine ⟨hs.subshell, hs.main, fun _ => ?_⟩
    rw [exits_exiting hown, hzero]
    rfl
  · refine ⟨fun _ => ⟨hown, hzero, x, rest, hlog, hproc.trans hown, hleave⟩, ?_, ?_⟩
    · intro status inExit he
      contradiction
    · intro code he
      contradiction

/-- The process ends behind its EXIT action. -/
theorem stops_exited {s t : Shell} (h : Goes (exiting s) t) (code : Int) :
    Stops (exiting s) (noted (.ended code)
      { t with ctx := { t.ctx with lastStatus := code }, inExit := false }) := by
  refine under_composes.transStop h (stops_ended rfl rfl rfl fun _ hstaged hproc => Or.inl ?_)
  have hbegun : exits s.log + 1 ≤ exits t.log := by
    have hown : s.proc = [] := h.1.proc.symm.trans hproc
    rw [← exits_exiting hown]
    exact exits_grew h.1.toGrew
  have hcount := hstaged.count hproc
  cases hin : t.inExit
  · rw [hin] at hcount
    rw [hcount] at hbegun
    contradiction
  · rw [hin] at hcount
    exact hcount

section Runs

variable {O : Outside} {dl : PList → Prog Shell (Int × PList)}

/-- **`petrush_run_exit_trap`, and the end of the process.** -/
theorem runExitTrap_holds {α : Type} {Q : α → Shell → Prop}
    (hdl : ∀ l, Keeps Goes Stops (dl l)) (status : Int) {r s : Shell} (hrs : Goes r s)
    (hplace : Placed s) :
    (runExitTrap O dl status s).Holds
      (fun code t => ((do
        emit (.ended code)
        exit code : Prog Shell α) t).Holds Q (Stops r)) (Stops r) := by
  have hcontrol : Control Goes Stops := under_control staged_invariant
  apply bind_holds
  refine (hcontrol.poll hdl .leaving s).imp (fun _ t ht => ?_) fun _ h =>
    under_composes.transStop hrs h
  have hleft : Goes r (noted (.leave status t.inExit) t) :=
    under_composes.trans (under_composes.trans hrs ht)
      (goes_leave (hplace.later ht.1) status t.inExit)
  show Outcome.Holds _ _ ((if t.inExit = true ∨ t.isSubshell = true ∨ t.cmdsubstDepth > 0 then _
    else _ : Prog Shell Int) (noted (.leave status t.inExit) t))
  by_cases hguard : t.inExit = true ∨ t.isSubshell = true ∨ t.cmdsubstDepth > 0
  · rw [if_pos hguard]
    exact under_composes.transStop hleft (stops_guarded (s := noted _ t) hguard status)
  · rw [if_neg hguard]
    obtain ⟨hin, hshell⟩ := not_or.mp hguard
    have hsub := (not_or.mp hshell).1
    rw [Bool.not_eq_true] at hin hsub
    have hidle : isCommand (t.traps 0) = false →
        Stops r (noted (.ended status) (noted (.leave status t.inExit) t)) := fun hnone =>
      under_composes.transStop hleft
        (stops_idle (s := noted _ t) (fun _ _ _ _ => hnone) status)
    cases haction : t.traps 0 with
    | none =>
        simp only [id_eq, haction]
        exact hidle (by rw [haction]; rfl)
    | some action =>
        cases action with
        | nil =>
            simp only [id_eq, haction]
            exact hidle (by rw [haction]; rfl)
        | cons c act =>
            simp only [id_eq, haction]
            have hcmd : isCommand (t.traps 0) = true := by rw [haction]; rfl
            let u : Shell :=
              { noted (.leave status t.inExit) t with ctx := { t.ctx with lastStatus := status } }
            have hset : Goes r u :=
              under_composes.trans hleft (hcontrol.quiet (s := noted (.leave status t.inExit) t) rfl)
            have hevent : Event.leave status t.inExit = .leave u.ctx.lastStatus false := by rw [hin]
            have hbegun : Goes r (exiting u) :=
              under_composes.trans hset (goes_exiting rfl rfl rfl hevent hin hsub hcmd)
            have hrun := hcontrol.base.exempt (keeps_exitAction hcontrol hdl (c :: act)) (exiting u)
            show Outcome.Holds _ _
              ((exempt (within .exitTrap (runText dl (c :: act))) >>= fun _ => _) (exiting u))
            apply bind_holds
            refine hrun.imp (fun _ v hv => ?_) fun _ hv => under_composes.transStop hbegun hv
            exact under_composes.transStop hbegun (stops_exited hv status)

/-- **`exit` ends the process**, with the EXIT action unless its argument is no number. -/
theorem keeps_builtinExit (hdl : ∀ l, Keeps Goes Stops (dl l)) (args : List Text) :
    Keeps Goes Stops (builtinExit O dl args) := by
  intro s
  have hnote : Goes s (noted (.exitCall args) s) :=
    under_noted rfl rfl rfl rfl fun _ hs => ⟨staged_noted (by simp) hs, proper_noted rfl⟩
  have hplace : Placed (noted (.exitCall args) s) :=
    Or.inr ⟨s.entry (.exitCall args), List.mem_cons_self, rfl, rfl, rfl⟩
  have hleave : ∀ code, ((runExitTrap O dl code >>= fun code => do
      emit (.ended code)
      exit code : Prog Shell Int) (noted (.exitCall args) s)).Holds (fun _ => Goes s) (Stops s) :=
    fun code => bind_holds (runExitTrap_holds hdl code hnote hplace)
  cases args with
  | nil => exact hleave 0
  | cons arg rest =>
      unfold builtinExit
      apply bind_holds
      show Outcome.Holds _ _ (Outcome.ok (noted (.exitCall (arg :: rest)) s) ())
      dsimp only
      cases hnumber : parseLong arg with
      | some v => exact hleave (v % 256)
      | none =>
          refine under_composes.transStop hnote (stops_idle (fun hcond hstaged hproc hin => ?_) 2)
          have hbad : BadStatus (arg :: rest) := ⟨arg, rest, rfl, hnumber⟩
          refine (hcond.head.number _ rfl hbad hproc).resolve_right ?_
          have hzero := hstaged.count hproc
          rw [hin] at hzero
          exact not_not_intro hzero

theorem staged_closed (O : Outside) : Closed O fun _ => Keeps Goes Stops :=
  staged_invariant.closed fun hdl _ => keeps_builtinExit hdl

end Runs

/-! ## Whole runs -/

/-- A run of the shell: on a script, or at the prompt with an rc file. -/
inductive Session where
  | script (path : Text)
  | prompt (rc : Text) (lines : List (Text × Text))

def Session.run (O : Outside) (n : Nat) : Session → Prog Shell Unit
  | .script path => Mid.Dispatcher.script O n path
  | .prompt rc lines => Mid.Dispatcher.prompt O n rc lines

section Sessions

variable {O : Outside} {n : Nat} {s : Shell}

theorem script_holds (path : Text) (htraps : isCommand (s.traps 0) = false)
    (hframes : s.frames = []) :
    (script O n path s).Holds (fun _ => Goes s) (Stops s) := by
  have hclosed := staged_closed O
  have hdl := dispatchList_keeps hclosed n
  have hidle : ∀ code, Stops s (noted (.ended code) s) := stops_idle fun _ _ _ _ => htraps
  apply bind_holds
  show Outcome.Holds _ _ ((if path = [] ∨ s.sourceDepth ≥ sourceMaxDepth then _ else _ :
    Prog Shell Int) s)
  by_cases hpath : path = [] ∨ s.sourceDepth ≥ sourceMaxDepth
  · rw [if_pos hpath]
    exact hidle 1
  · rw [if_neg hpath]
    simp only [id_eq]
    cases hfile : O.script s.log path with
    | error code => exact hidle code
    | ok text =>
        have hlines := hclosed.within .script (keeps_runFileLines hclosed.toLocal hdl text)
        have hquiet : ∀ (t : Shell) depth, Goes t { t with sourceDepth := depth } :=
          fun t depth => (under_control staged_invariant).quiet (s := t) rfl
        have hstart := hquiet s (s.sourceDepth + 1)
        apply bind_holds
        show Outcome.Holds _ _ (Outcome.ok { s with sourceDepth := s.sourceDepth + 1 } ())
        apply bind_holds
        refine (hlines _).imp (fun status t ht => ?_) fun t ht => under_composes.transStop hstart ht
        apply bind_holds
        show Outcome.Holds _ _ (Outcome.ok { t with sourceDepth := t.sourceDepth - 1 } ())
        have hend := under_composes.trans (under_composes.trans hstart ht)
          (hquiet t (t.sourceDepth - 1))
        exact runExitTrap_holds hdl status hend (Or.inl (hend.1.frames.trans hframes))

/-- The last note is that the loop at the prompt has ended. -/
def PromptEnded (t : Shell) : Prop :=
  ∃ e past, t.log = e :: past ∧ e.event = .promptEnd ∧ e.traps = t.traps

/-- A line that is no `exit` is parsed with the aliases of the moment. -/
theorem promptLines_line {line : Text × Text} (lines : List (Text × Text)) {s : Shell}
    (hquit : ¬ (line.1 = "exit".toList ∨ line.1 = "quit".toList)) (hempty : line.1 ≠ []) :
    promptLines dl (line :: lines) s =
      ((petrushParseList (aliasExpandLine s.aliases line.2)).elim (promptLines dl lines) fun list =>
        onlyIf (list ≠ [] ∧ ¬ listHeredocPending list) (dl list >>= fun _ => pure ()) >>= fun _ =>
          promptLines dl lines) s := by
  rw [promptLines, if_neg hquit, if_neg hempty, bind_apply]
  show Prog.bind (look Shell.aliases) _ s = _
  cases hparse : petrushParseList (aliasExpandLine s.aliases line.2) with
  | none => simp only [Prog.bind, look, hparse, Option.elim]
  | some list => simp only [Prog.bind, look, hparse, Option.elim]

theorem promptLines_holds {dl : PList → Prog Shell (Int × PList)}
    (hdl : ∀ l, Keeps Goes Stops (dl l)) (lines : List (Text × Text)) : ∀ s,
    (promptLines dl lines s).Holds (fun _ t => Goes s t ∧ PromptEnded t) (Stops s) := by
  have hend : ∀ s, Goes s (noted .promptEnd s) ∧ PromptEnded (noted .promptEnd s) := fun s =>
    ⟨under_simple staged_invariant trivial, s.entry .promptEnd, s.log, rfl, rfl, rfl⟩
  induction lines with
  | nil => exact hend
  | cons line lines ih =>
      intro s
      by_cases hquit : line.1 = "exit".toList ∨ line.1 = "quit".toList
      · rw [promptLines, if_pos hquit]
        exact hend s
      · by_cases hempty : line.1 = []
        · rw [promptLines, if_neg hquit, if_pos hempty]
          exact ih s
        · rw [promptLines_line lines hquit hempty]
          cases petrushParseList (aliasExpandLine s.aliases line.2) with
          | none => exact ih s
          | some list =>
              have hlist : Keeps Goes Stops
                  (onlyIf (list ≠ [] ∧ ¬ listHeredocPending list) do
                    let _ ← dl list
                    pure ()) :=
                Keeps.onlyIf under_composes
                  (Keeps.bind under_composes (hdl list) fun _ => Keeps.pure under_composes ())
              apply bind_holds
              refine (hlist s).imp (fun _ t ht => ?_) fun _ ht => ht
              refine (ih t).imp (fun _ u hu => ⟨under_composes.trans ht hu.1, hu.2⟩) ?_
              exact fun u hu => under_composes.transStop ht hu

theorem prompt_holds (rc : Text) (lines : List (Text × Text)) :
    (prompt O n rc lines s).Holds (fun _ => Goes s) (Stops s) := by
  have hclosed := staged_closed O
  have hdl := dispatchList_keeps hclosed n
  have hrc := keeps_sourceFile (O := O) hclosed.toBase
    (fun text => hclosed.within .source (keeps_runFileLines hclosed.toLocal hdl text)) rc
  apply bind_holds
  refine (hrc s).imp (fun _ t ht => ?_) fun _ ht => ht
  apply bind_holds
  refine (promptLines_holds hdl lines t).imp (fun _ u hu => ?_) fun _ hu =>
    under_composes.transStop ht hu
  refine under_composes.transStop (under_composes.trans ht hu.1) (stops_idle (fun hcond _ _ _ => ?_) 0)
  obtain ⟨e, past, hlog, hevent, htraps⟩ := hu.2
  rw [hlog] at hcond
  rw [← htraps]
  exact hcond.head.prompt hevent

end Sessions

theorem staged_start (ctx : Ctx) (disps : Disps) : Staged (.start ctx disps) where
  subshell h := absurd h.choose_spec.1 List.not_mem_nil
  main _ := ⟨rfl, rfl⟩
  count _ := rfl

/-- **The EXIT action runs exactly once and only in the shell itself**, in every run whose
entries are orderly: `exit` has a number where there is an EXIT action that has not begun,
no stage of a pipeline leaves the shell with one, nor does the loop at the prompt. -/
theorem session_proper (O : Outside) (n : Nat) (session : Session) (ctx : Ctx) (disps : Disps)
    (h : Every Orderly (session.run O n (.start ctx disps)).state.log) :
    Every Proper (session.run O n (.start ctx disps)).state.log := by
  have hrun : (session.run O n (.start ctx disps)).Holds (fun _ => Goes (.start ctx disps))
      (Stops (.start ctx disps)) := by
    cases session with
    | script path => exact script_holds path rfl rfl
    | prompt rc lines => exact prompt_holds rc lines
  exact every_good_state hrun ⟨staged_start ctx disps, .nil⟩ h

def hasBadStatus : Event → Bool
  | .exitCall (arg :: _) => (parseLong arg).isNone
  | _ => false

def isPromptEnd : Event → Bool
  | .promptEnd => true
  | _ => false

/-- What is done in the shell itself, without `exit` on a word that is no number. -/
theorem orderly_of_numbers {e : Entry} (hproc : e.proc = []) (hbad : hasBadStatus e.event = false)
    (hprompt : isPromptEnd e.event = false) (past : List Entry) : Orderly e past := by
  refine ⟨?_, ?_, ?_⟩
  · rintro args hevent ⟨arg, rest, rfl, hnone⟩ _
    rw [hevent, hasBadStatus, hnone] at hbad
    contradiction
  · exact fun _ _ hne => absurd hproc hne
  · intro hevent
    rw [hevent] at hprompt
    contradiction

/-- The record of a run at the prompt, on lines as they are typed. -/
def promptRecordOf (lines : List Text) : List Entry :=
  (Session.run Outside.quiet 4 (.prompt [] (lines.map fun line => (line, line)))
    (.start ⟨fun _ => none, [], [], false, false, false, 0⟩ fun _ => .dfl)).state.log

theorem session_proper_exit :
    Every Proper (recordOf "trap 'exit 3' EXIT\nexit 7\n".toList []) := by
  have hnumbers : ∀ e ∈ recordOf "trap 'exit 3' EXIT\nexit 7\n".toList [],
      e.proc = [] ∧ hasBadStatus e.event = false ∧ isPromptEnd e.event = false := by
    decide +kernel
  unfold recordOf at hnumbers ⊢
  apply session_proper _ _ (.script _)
  apply Every.of_forall
  intro e he past
  obtain ⟨hproc, hbad, hprompt⟩ := hnumbers e he
  exact orderly_of_numbers hproc hbad hprompt past

def isEnded : Event → Bool
  | .ended _ => true
  | _ => false

/-- The parts of `Proper` that can be evaluated. -/
def Checked (e : Entry) (past : List Entry) : Prop :=
  (isExitAction e.event = true → e.proc = []) ∧
    (isEnded e.event = true → e.proc = [] →
      exits past = 1 ∨ exits past = 0 ∧ isCommand (e.traps 0) = false)

instance (e : Entry) (past : List Entry) : Decidable (Checked e past) :=
  inferInstanceAs (Decidable (_ ∧ _))

theorem Proper.checked {e : Entry} {past : List Entry} (h : Proper e past) : Checked e past := by
  constructor
  · intro he
    cases hevent : e.event <;> rw [hevent] at he <;> try contradiction
    exact (h.action hevent).1
  · intro he
    cases hevent : e.event <;> rw [hevent] at he <;> try contradiction
    exact h.ended _ hevent

/-- **The EXIT action is not run** when `exit` gets a word that is no number, nor at the end
of the loop at the prompt; and a stage of a pipeline that calls `exit` runs it. -/
theorem exits_improper :
    ¬ Every Proper (recordOf "trap 'echo x' EXIT\nexit abc\n".toList []) ∧
    ¬ Every Proper (promptRecordOf ["trap 'echo x' EXIT".toList, "exit".toList]) ∧
    ¬ Every Proper (recordOf "trap 'echo x' EXIT\nexit | true\n".toList []) := by
  have hcheck : ∀ {l}, ¬ Every Checked l → ¬ Every Proper l :=
    fun h hproper => h (hproper.imp fun _ _ => Proper.checked)
  refine ⟨hcheck ?_, hcheck ?_, hcheck ?_⟩
  · decide +kernel
  · decide +kernel
  · decide +kernel

end Petrush.Verified.ExitTrap

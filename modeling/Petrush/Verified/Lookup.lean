import Petrush.Verified.Commands
import Petrush.Verified.Record

/-!
# What a name stands for

Two chains look a name up: `dispatch_command` for the only stage of a pipeline
(functions, builtins, `PATH`), and `pipeline_child` with its hook for a stage among
others (builtins, `PATH`).  Each is shown to be what the code does (`Follows`), and
they agree when the name is no function and `execv` does not deny its file: a denied
file is 126 in the first chain and 127 in the second.  A background item goes through
the same chains in a child with the same tables.

## Main results

* `runCommand_follows`, `stageChild_follows`: what the code does with a name.
* `meaning_iff`: when both chains find the same.
-/

namespace Petrush.Verified.Lookup

open Petrush.Lib.CText
open Petrush.Lib.Run
open Petrush.Foundation
open Petrush.Foundation.Process
open Petrush.Mid.Ast
open Petrush.Mid.Dispatcher
open Petrush.Mid.Expand
open Petrush.Mid.State
open Petrush.Mid.Trap
open Petrush.Verified.Commands
open Petrush.Verified.Record
open Petrush.Verified.Traversal

/-! ## The two chains -/

/-- What a name stands for; a program is one that `execv` accepts. -/
inductive Meaning where
  | function (body : PList)
  | builtin
  | program (path : Text)
  | failure (code : Int)

/-- The chain of `dispatch_command` and `execute_external`. -/
def commandMeaning (fns : FnTable) (access : Access) (env : Env) (name : Text) : Meaning :=
  match fnGet fns name with
  | some body => .function body
  | none =>
      if builtins.contains name then .builtin
      else
        match findExecutable access env name with
        | none => .failure (shellErrorCodeFor access name)
        | some path =>
            match access.execError path with
            | none => .program path
            | some denied => .failure (if denied then 126 else 127)

/-- The chain of `pipeline_child` and its hook. -/
def stageMeaning (access : Access) (env : Env) (name : Text) : Meaning :=
  if builtins.contains name then .builtin
  else
    match findExecutable access env name with
    | none => .failure (shellErrorCodeFor access name)
    | some path =>
        match access.execError path with
        | none => .program path
        | some _ => .failure 127

/-- The name is no builtin, and `execv` denies its file. -/
def Denied (access : Access) (env : Env) (name : Text) : Prop :=
  builtins.contains name = false ∧
    ∃ path, findExecutable access env name = some path ∧ access.execError path = some true

/-- Both chains find the same unless the name is a function or its file is denied. -/
theorem commandMeaning_eq_stageMeaning (fns : FnTable) (access : Access) (env : Env) (name : Text) :
    commandMeaning fns access env name = stageMeaning access env name ↔
      fnGet fns name = none ∧ ¬ Denied access env name := by
  unfold commandMeaning stageMeaning Denied
  cases hfn : fnGet fns name with
  | some body =>
      simp only [reduceCtorEq, false_and, iff_false]
      split
      · exact Meaning.noConfusion
      · split
        · exact Meaning.noConfusion
        · split <;> exact Meaning.noConfusion
  | none =>
      simp only [true_and]
      by_cases hbuiltin : builtins.contains name = true
      · simp only [hbuiltin, if_true, Bool.true_eq_false, false_and, not_false_eq_true]
      · simp only [hbuiltin]
        cases hfind : findExecutable access env name with
        | none => simp
        | some path =>
            cases herr : access.execError path with
            | none => simp [herr]
            | some denied => cases denied <;> simp [herr]

/-! ## What is done first -/

/-- The first thing noted between two states. -/
def first (s s' : Shell) : Option Event := (added s s').getLast?.map Entry.event

theorem first_of_grew {s t u : Shell} {e : Event} {x : Entry} (hx : x.event = e)
    (ht : t.log = x :: s.log) (h : Grew t u) : first s u = some e := by
  rw [first, added_behind (l := [x]) ht h, List.getLast?_concat, Option.map_some, hx]

/-- What becomes of a command with a meaning: it begins, or its failure is told. -/
def Follows (m : Meaning) (cmd : Cmd) (s s' : Shell) (told : Int → Prop) : Prop :=
  match m with
  | .function _ => ∃ name ∈ (words cmd).head?, first s s' = some (.call name)
  | .builtin => first s s' = some (.builtin (words cmd))
  | .program _ => ∃ disps, first s s' = some (.exec (words cmd) disps)
  | .failure code => told code

section Runs

variable {O : Outside} {dl : PList → Prog Shell (Int × PList)} {cmd : Cmd} {s : Shell}
variable {name path : Text} {args : List Text}

/-- A program that starts with a note, and goes on adding to the record. -/
theorem added_emit {α : Type} {e : Event} {c : Prog Shell α} (hc : Keeps Stays Grew c) :
    added s ((emit e >>= fun _ => c) s).state =
      added (noted e s) (c (noted e s)).state ++ [s.entry e] :=
  added_behind (l := [s.entry e]) rfl (grew_state hc (noted e s))

theorem first_emit {α : Type} {e : Event} {c : Prog Shell α} (hc : Keeps Stays Grew c) :
    first s ((emit e >>= fun _ => c) s).state = some e :=
  first_of_grew (x := s.entry e) rfl rfl (grew_state hc (noted e s))

theorem first_callBuiltin (hdl : ∀ l, Keeps Stays Grew (dl l)) {α : Type} {k : Int → Prog Shell α}
    (hk : ∀ status, Keeps Stays Grew (k status)) :
    first s ((callBuiltin O dl cmd >>= k) s).state = some (.builtin (words cmd)) := by
  unfold callBuiltin
  rw [bind_assoc]
  exact first_emit (grew_base.seq (grew_runBuiltin hdl cmd) hk)

/-- A call behind the note of its beginning. -/
def callRest (dl : PList → Prog Shell (Int × PList)) (name : Text) (args : List Text)
    (body : PList) (old : Ctx) : Prog Shell Int := do
  modify (enterFn name args)
  let r ← within .call (dl body)
  let t ← look id
  let status := if t.returning then t.returnStatus else r.1
  modify (leaveFn old)
  emit (.callEnd status)
  pure status

theorem callFn_start (body : PList) :
    callFn dl name args body s = (emit (.call name) >>= fun _ => callRest dl name args body s.ctx) s :=
  rfl

theorem grew_callRest (hdl : ∀ l, Keeps Stays Grew (dl l)) (body : PList) (old : Ctx) :
    Keeps Stays Grew (callRest dl name args body old) := by
  apply grew_base.seq
  · exact fun _ => Stays.same rfl rfl rfl
  intro _
  apply grew_base.seq (grew_within .call (hdl body))
  intro r
  apply grew_base.seq (grew_base.read _)
  intro t
  apply grew_base.seq
  · exact fun _ => Stays.same rfl rfl rfl
  intro _
  exact grew_base.seq (grew_emit _) fun _ => grew_base.ret _

theorem first_callFn (hdl : ∀ l, Keeps Stays Grew (dl l)) (body : PList) :
    first s (callFn dl name args body s).state = some (.call name) := by
  rw [callFn_start]
  exact first_emit (grew_callRest hdl body s.ctx)

theorem first_waiting {start : Prog Shell Unit} {t : Shell} {x : Entry} (k : Nat) (status : Int)
    (hdl : ∀ l, Keeps Stays Grew (dl l)) (hstart : start (pushWait s) = .ok t ())
    (hx : t.log = x :: s.log) :
    first s (waiting O dl start k status s).state = some x.event := by
  have hrest : Keeps Stays Grew (do
      forEach (fun _ => trapsPoll O dl .waiting) (List.range (k + 1))
      modify (popWait (s.disps sigint) (s.disps sigquit))
      pure status : Prog Shell Int) := by
    apply grew_base.seq (grew_base.forEach (fun _ => grew_control.poll hdl _) _)
    intro _
    apply grew_base.seq
    · exact fun _ => Stays.same rfl rfl rfl
    · exact fun _ => grew_base.ret _
  rw [waiting_eq, bind_apply, Prog.bind, hstart]
  exact first_of_grew rfl hx (grew_state hrest t)

/-- The value of a wait is the status, if it comes back. -/
theorem value_waiting {start : Prog Shell Unit} {k : Nat} {status code : Int}
    (h : (waiting O dl start k status s).value = some code) : code = status := by
  rw [waiting_eq] at h
  obtain ⟨_, _, -, h⟩ := value_bind h
  obtain ⟨_, _, -, h⟩ := value_bind h
  obtain ⟨_, _, -, h⟩ := value_bind h
  exact (Option.some.inj h).symm

/-! ## The code follows the chains -/

/-- The redirections of the command can be opened. -/
def Opens (O : Outside) (cmd : Cmd) (s : Shell) : Prop :=
  ∀ fds, (petrushApplyRedirs (O.opens s.log) cmd fds).isSome

theorem stageRun_follows (hdl : ∀ l, Keeps Stays Grew (dl l)) (h : words cmd = name :: args) :
    Follows (stageMeaning (O.access s.log) s.ctx.env name) cmd s (stageRun O dl cmd s).state
      fun code => ∃ t, stageRun O dl cmd s = .exit t code := by
  rw [stageRun_cons h]
  unfold stageMeaning
  by_cases hbuiltin : builtins.contains name = true
  · simp only [if_pos hbuiltin]
    exact first_callBuiltin hdl fun _ => Keeps.exit grew_composes _
  simp only [if_neg hbuiltin]
  cases findExecutable (O.access s.log) s.ctx.env name with
  | none => exact ⟨s, rfl⟩
  | some path =>
      simp only
      cases (O.access s.log).execError path with
      | some denied => exact ⟨s, rfl⟩
      | none =>
          refine ⟨execDisps s.disps, ?_⟩
          exact first_of_grew (x := s.entry (.exec (words cmd) (execDisps s.disps))) rfl rfl
            (Grew.same rfl)

theorem stageChild_follows (hdl : ∀ l, Keeps Stays Grew (dl l)) (h : words cmd = name :: args)
    (hopens : Opens O cmd s) (since i n : Nat) :
    Follows (stageMeaning (O.access s.log) s.ctx.env name) cmd s
      (stageChild O dl since i n cmd s).state
      fun code => ∃ t, stageChild O dl since i n cmd s = .exit t code := by
  obtain ⟨fds, hfds⟩ := Option.isSome_iff_exists.mp (hopens (pipeEnds since i n s.fds))
  rw [stageChild_redirected hfds]
  exact stageRun_follows (s := rebound fds s) hdl h

theorem executeExternal_follows (hdl : ∀ l, Keeps Stays Grew (dl l))
    (h : words cmd = name :: args) (hopens : Opens O cmd s) (hfork : O.program s.log cmd ≠ .noFork)
    (hfn : fnGet s.fns name = none) (hbuiltin : ¬ builtins.contains name = true) :
    Follows (commandMeaning s.fns (O.access s.log) s.ctx.env name) cmd s
      (executeExternal O dl cmd s).state
      fun code => ∀ status, (executeExternal O dl cmd s).value = some status → status = code := by
  obtain ⟨fds, hfds⟩ := Option.isSome_iff_exists.mp (hopens s.fds)
  rw [executeExternal_cons h]
  simp only [commandMeaning, hfn, if_neg hbuiltin]
  cases findExecutable (O.access s.log) s.ctx.env name with
  | none => exact fun status hstatus => (Option.some.inj hstatus).symm
  | some path =>
      cases hran : O.program s.log cmd with
      | noFork => exact absurd hran hfork
      | waited k status =>
          simp only
          cases hexec : (O.access s.log).execError path with
          | none =>
              refine ⟨execDisps (defaultIntQuit (waitDisps s.traps s.disps)), ?_⟩
              exact first_waiting k _ hdl (externalChild_starts (s := pushWait s) hfds hexec) rfl
          | some denied =>
              intro code hcode
              rw [value_waiting hcode, externalCode, hfds, hexec]
              rfl

/-- **`dispatch_command` does what its chain finds.** -/
theorem runCommand_follows (hdl : ∀ l, Keeps Stays Grew (dl l)) (h : words cmd = name :: args)
    (hopens : Opens O cmd s) (hfork : O.program s.log cmd ≠ .noFork) :
    Follows (commandMeaning s.fns (O.access s.log) s.ctx.env name) cmd s
      (runCommand O dl cmd s).state
      fun code => ∀ status, (runCommand O dl cmd s).value = some status → status = code := by
  rw [runCommand_cons h]
  cases hfn : fnGet s.fns name with
  | some body =>
      simp only [commandMeaning, hfn]
      refine ⟨name, by rw [h]; rfl, ?_⟩
      exact first_callFn hdl body
  | none =>
      by_cases hbuiltin : builtins.contains name = true
      · simp only [commandMeaning, hfn, if_pos hbuiltin]
        obtain ⟨fds, hfds⟩ := Option.isSome_iff_exists.mp (hopens s.fds)
        split
        · rw [runBuiltinWithRedirs_redirected hfds]
          show first (rebound fds s) _ = _
          apply first_callBuiltin hdl
          intro status
          apply grew_base.seq
          · exact fun _ => Stays.same rfl rfl rfl
          · exact fun _ => grew_base.ret _
        · exact first_emit (grew_runBuiltin hdl cmd)
      · simp only [if_neg hbuiltin]
        exact executeExternal_follows hdl h hopens hfork hfn hbuiltin

end Runs

/-! ## When they agree -/

/-- What a child looks names up in. -/
theorem tables_born {child : Child} {prepare : Shell → Shell} (h : Prepares child prepare)
    (s : Shell) : (born child prepare s).fns = s.fns ∧ (born child prepare s).ctx = s.ctx := by
  cases h <;> exact ⟨rfl, rfl⟩

/-- **The lookup of a name depends on the length of the pipeline** only for functions
and for files that `execv` denies.  The chains are what the code does, in the shell, in
a pipeline stage and in the children, which have the tables of their parents. -/
theorem meaning_iff (O : Outside) (n : Nat) (s : Shell) (name : Text) :
    (∀ cmd args, words cmd = name :: args → Opens O cmd s → O.program s.log cmd ≠ .noFork →
      Follows (commandMeaning s.fns (O.access s.log) s.ctx.env name) cmd s
        (runCommand O (dispatchList O n) cmd s).state
        fun code => ∀ status,
          (runCommand O (dispatchList O n) cmd s).value = some status → status = code) ∧
    (∀ cmd args, words cmd = name :: args → Opens O cmd s → ∀ since i k,
      Follows (stageMeaning (O.access s.log) s.ctx.env name) cmd s
        (stageChild O (dispatchList O n) since i k cmd s).state
        fun code => ∃ t, stageChild O (dispatchList O n) since i k cmd s = .exit t code) ∧
    (∀ child prepare, Prepares child prepare →
      (born child prepare s).fns = s.fns ∧ (born child prepare s).ctx = s.ctx) ∧
    (commandMeaning s.fns (O.access s.log) s.ctx.env name =
        stageMeaning (O.access s.log) s.ctx.env name ↔
      fnGet s.fns name = none ∧ ¬ Denied (O.access s.log) s.ctx.env name) := by
  have hdl := dispatchList_grew O n
  refine ⟨?_, ?_, ?_, commandMeaning_eq_stageMeaning _ _ _ _⟩
  · exact fun cmd args h hopens hfork => runCommand_follows hdl h hopens hfork
  · exact fun cmd args h hopens since i k => stageChild_follows hdl h hopens since i k
  · exact fun child prepare h => tables_born h s

/-- An outside without programs. -/
def noPrograms : Outside :=
  { Outside.quiet with access := fun _ => ⟨fun _ => false, fun _ => false, fun _ => none⟩ }

/-- A shell that has a function `f` with an empty body. -/
def definingF : Shell :=
  { Shell.start ⟨fun _ => none, [], [], false, false, false, 0⟩ fun _ => .dfl with
    fns := [some (['f'], [])] }

/-- **A function is not found in a pipeline**: `f` is called when it is the only stage,
and 127 among others. -/
theorem function_lost :
    (runCommand noPrograms (dispatchList noPrograms 1) { argv := [⟨['f'], .unquoted⟩] }
      definingF).value = some 0 ∧
    (∃ t, stageChild noPrograms (dispatchList noPrograms 1) 0 0 2 { argv := [⟨['f'], .unquoted⟩] }
      definingF = .exit t 127) ∧
    commandMeaning definingF.fns (noPrograms.access []) definingF.ctx.env ['f'] ≠
      stageMeaning (noPrograms.access []) definingF.ctx.env ['f'] := by
  refine ⟨by decide +kernel, ⟨_, rfl⟩, ?_⟩
  rw [Ne, commandMeaning_eq_stageMeaning]
  rintro ⟨hfn, -⟩
  contradiction

end Petrush.Verified.Lookup

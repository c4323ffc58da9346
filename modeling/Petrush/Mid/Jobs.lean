import Petrush.Lib.CText

/-!
# Background jobs (`job.c`, `dispatcher.c`, `main.c`)

The table of jobs, and a session as far as it is about them: items that start in the
background, children that end, `jobs`, and the prompt, which reports and drops what is
done.  A script never comes to the prompt.  Of the system there are the children that
have not been waited for.
-/

namespace Petrush.Mid.Jobs

open Petrush.Lib.CText

/-! ## Children -/

/-- What `waitpid` reports of a child. -/
inductive WaitStatus where
  | exited (code : Nat)
  | signaled (sig : Nat)
  | stopped (sig : Nat)
  | other
  deriving Repr, DecidableEq

/-- `status_to_code`. -/
def statusToCode : WaitStatus → Nat
  | .exited code => code
  | .signaled sig => 128 + sig
  | .stopped sig => 128 + sig
  | .other => 1

/-- A child that has not been waited for. -/
structure Kid where
  pid : Nat
  ended : Option WaitStatus := none
  deriving Repr, DecidableEq

/-- The results of `waitpid(pid, &st, WNOHANG)`: 0, the child, or an error. -/
inductive Waited where
  | running
  | ended (status : WaitStatus)
  | unknown
  deriving Repr, DecidableEq

/-- `waitpid`, which forgets a child that it reports. -/
def waitpid (pid : Nat) (kids : List Kid) : Waited × List Kid :=
  match kids.find? (·.pid == pid) with
  | none => (.unknown, kids)
  | some kid =>
      match kid.ended with
      | none => (.running, kids)
      | some status => (.ended status, kids.filter (·.pid != pid))

/-! ## The table -/

/-- `PETRUSH_JOB_MAX`. -/
def jobMax : Nat := 16

/-- `petrush_job_state_t`. -/
inductive JobState where
  | running
  | done
  deriving Repr, DecidableEq

/-- `petrush_job_t`. -/
structure Job where
  id : Nat
  pid : Nat
  state : JobState := .running
  status : Nat := 0
  command : Text
  notified : Bool := false
  deriving Repr, DecidableEq

/-- `g_jobs` and `g_used`. -/
abbrev Table := List (Option Job)

/-- `petrush_job_count`. -/
def petrushJobCount (jobs : Table) : Nat := (jobs.filter Option.isSome).length

/-- `petrush_job_add`: the table and the id, or `-1`. -/
def petrushJobAdd (pid : Nat) (command : Text) (jobs : Table) : Option (Table × Nat) :=
  if pid = 0 then none
  else
    let slot := jobs.findIdx Option.isNone
    if slot < jobs.length then
      let job : Job :=
        { id := slot + 1, pid := pid, command := if command = [] then ['?'] else command }
      some (jobs.set slot (some job), slot + 1)
    else none

/-- One turn of `petrush_job_reap`. -/
def reapSlot : Option Job → List Kid → Option Job × List Kid
  | none, kids => (none, kids)
  | some job, kids =>
      if job.state = .running then
        match waitpid job.pid kids with
        | (.running, kids) => (some job, kids)
        | (.ended status, kids) =>
            (some { job with state := .done, status := statusToCode status }, kids)
        | (.unknown, kids) => (some { job with state := .done, status := 0 }, kids)
      else (some job, kids)

/-- `petrush_job_reap`. -/
def petrushJobReap : Table → List Kid → Table × List Kid
  | [], kids => ([], kids)
  | slot :: slots, kids =>
      let r := reapSlot slot kids
      let rest := petrushJobReap slots r.2
      (r.1 :: rest.1, rest.2)

/-- The job is done. -/
def isDone (slot : Option Job) : Bool := slot.any fun job => job.state == .done

/-- The slots of what is done, cleared. -/
def petrushJobPruneDone (jobs : Table) : Table :=
  jobs.map fun slot => if isDone slot then none else slot

/-- A number. -/
def numberText (n : Nat) : Text := (toString n).toList

/-- `petrush_job_notify`: its lines, and the table. -/
def petrushJobNotify (jobs : Table) : List Text × Table :=
  (jobs.filterMap fun slot => slot.bind fun job =>
      if job.state = .done ∧ job.notified = false then
        some ('[' :: numberText job.id ++ "]+ Done  ".toList ++ job.command)
      else none,
    petrushJobPruneDone jobs)

/-- `petrush_job_print`. -/
def petrushJobPrint (jobs : Table) : List Text :=
  jobs.filterMap fun slot => slot.map fun job =>
    '[' :: numberText job.id ++ "]  ".toList ++
      (if job.state = .running then "Running".toList else "Done".toList) ++ "  ".toList ++ job.command

/-! ## A session -/

/-- The table of a shell process, and its children. -/
structure Session where
  jobs : Table := List.replicate jobMax none
  kids : List Kid := []

/-- `petrush_job_reap`, of the session. -/
def Session.reap (s : Session) : Session :=
  let r := petrushJobReap s.jobs s.kids
  { jobs := r.1, kids := r.2 }

/-- How `dispatch_pipeline_background` ends; only `started` is 0. -/
inductive Launch where
  /-- The error of the limit. -/
  | limit
  | noLabel
  | noFork
  | unregistered
  | started (id : Nat)
  deriving Repr, DecidableEq

/-- `dispatch_pipeline_background`, with the label of the pipeline and the child that
`fork` makes, unless these fail. -/
def dispatchPipelineBackground (label : Option Text) (fork : Option Nat) (s : Session) :
    Session × Launch :=
  let s := s.reap
  if petrushJobCount s.jobs ≥ jobMax then (s, .limit)
  else
    match label with
    | none => (s, .noLabel)
    | some label =>
        match fork with
        | none => (s, .noFork)
        | some pid =>
            let s := { s with kids := { pid := pid } :: s.kids }
            match petrushJobAdd pid label s.jobs with
            | none => (s, .unregistered)
            | some (jobs, id) => ({ s with jobs := jobs }, .started id)

/-- `builtin_jobs`: what it prints, and the session behind it. -/
def builtinJobs (s : Session) : List Text × Session :=
  let s := s.reap
  (petrushJobPrint s.jobs, { s with jobs := petrushJobPruneDone s.jobs })

/-- What stands before each prompt. -/
def prompt (s : Session) : List Text × Session :=
  let s := s.reap
  let r := petrushJobNotify s.jobs
  (r.1, { s with jobs := r.2 })

/-- What happens in a session. -/
inductive Event where
  | background (label : Option Text) (fork : Option Nat)
  | jobs
  | prompt
  | ended (pid : Nat) (status : WaitStatus)
  deriving Repr, DecidableEq

/-- The session behind an event. -/
def Session.step (s : Session) : Event → Session
  | .background label fork => (dispatchPipelineBackground label fork s).1
  | .jobs => (builtinJobs s).2
  | .prompt => (prompt s).2
  | .ended pid status =>
      { s with kids := s.kids.map fun kid => if kid.pid = pid then { kid with ended := some status } else kid }

/-- What the system may do: a child that ends has not ended before, and a new one has an
id that no child has. -/
def Event.possible (s : Session) : Event → Prop
  | .background _ (some pid) => 0 < pid ∧ ∀ kid ∈ s.reap.kids, kid.pid ≠ pid
  | .ended pid _ => ∃ kid ∈ s.kids, kid.pid = pid ∧ kid.ended = none
  | _ => True

instance (s : Session) (e : Event) : Decidable (e.possible s) :=
  match e with
  | .background _ (some _) => inferInstanceAs (Decidable (_ ∧ _))
  | .background _ none | .jobs | .prompt => inferInstanceAs (Decidable True)
  | .ended _ _ => inferInstanceAs (Decidable (∃ kid ∈ s.kids, _))

/-- A run: the sessions before its events. -/
def trace : Session → List Event → List (Session × Event)
  | _, [] => []
  | s, e :: es => (s, e) :: trace (s.step e) es

end Petrush.Mid.Jobs

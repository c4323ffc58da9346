import Petrush.Lib.Ledger
import Petrush.Verified.JobLimit

/-!
# The reports of jobs

A job is in the table from its start until a prompt or `jobs` drops it as done.  Over every
run of a session, each job that has been started is dropped once or still in the table, and
each child that has ended is dropped with its status, in the table with it, or has not been
waited for.

## Main results

* `jobs_accounted` — nothing is lost, and nothing is reported twice.
* `prompt_reports` — what is dropped before a prompt is what is printed.
-/

namespace Petrush.Verified.JobReports

open Petrush.Lib.CText
open Petrush.Lib.Ledger
open Petrush.Mid.Jobs
open Petrush.Verified.JobLimit

/-! ## What is counted -/

/-- The jobs in a table. -/
def held (jobs : Table) : List Job := jobs.reduceOption

/-- A job, as long as it is in the table. -/
def ident (job : Job) : Nat × Text := (job.pid, job.command)

/-- How it has ended. -/
def result (job : Job) : Nat × Nat := (job.pid, job.status)

/-- Those that are done. -/
def finished (jobs : Table) : List Job := (held jobs).filter (·.state = .done)

/-- The children that have ended and have not been waited for. -/
def zombies (kids : List Kid) : List (Nat × Nat) :=
  kids.filterMap fun kid => kid.ended.map fun status => (kid.pid, statusToCode status)

/-- The text of a job. -/
def commandOf (label : Text) : Text := if label = [] then ['?'] else label

/-- The job that goes into a slot. -/
def newJob (slot pid : Nat) (label : Text) : Job :=
  { id := slot + 1, pid := pid, command := commandOf label }

/-- The job that an event starts. -/
def starts (s : Session) : Event → List (Nat × Text)
  | .background (some label) (some pid) =>
      match (dispatchPipelineBackground (some label) (some pid) s).2 with
      | .started _ => [(pid, commandOf label)]
      | _ => []
  | _ => []

/-- The child that ends. -/
def ends (_ : Session) : Event → List (Nat × Nat)
  | .ended pid status => [(pid, statusToCode status)]
  | _ => []

/-- The jobs that an event drops. -/
def drops (s : Session) : Event → List Job
  | .jobs | .prompt => finished s.reap.jobs
  | _ => []

/-! ## Reaping -/

theorem ident_reap (jobs : Table) : ∀ kids : List Kid,
    (held (petrushJobReap jobs kids).1).map ident = (held jobs).map ident := by
  induction jobs with
  | nil => exact fun _ => rfl
  | cons slot jobs ih =>
      intro kids
      cases slot with
      | none => exact ih kids
      | some job =>
          have hjob : ∃ job', (reapSlot (some job) kids).1 = some job' ∧
              ident job' = ident job := by
            unfold reapSlot
            dsimp only
            split
            · split <;> exact ⟨_, rfl, rfl⟩
            · exact ⟨_, rfl, rfl⟩
          obtain ⟨job', hjob', hident⟩ := hjob
          have hrest := ih (reapSlot (some job) kids).2
          rw [petrushJobReap]
          simp only [held, hjob', List.reduceOption_cons_of_some, List.map_cons, hident] at hrest ⊢
          rw [hrest]

theorem finished_cons (job : Job) (jobs : Table) :
    finished (some job :: jobs) =
      if job.state = .done then job :: finished jobs else finished jobs := by
  rw [finished, held, List.reduceOption_cons_of_some, List.filter_cons]
  simp only [decide_eq_true_eq]
  rfl

/-- A child that has ended, and the others. -/
theorem zombies_waited {kids : List Kid} (hnodup : (kids.map Kid.pid).Nodup) {kid : Kid}
    (hkid : kid ∈ kids) {status : WaitStatus} (hended : kid.ended = some status) :
    (zombies kids).Perm
      ((kid.pid, statusToCode status) :: zombies (kids.filter (·.pid != kid.pid))) := by
  have hperm := (perm_cons_filter hnodup hkid).filterMap fun kid => kid.ended.map fun status =>
    (kid.pid, statusToCode status)
  rwa [List.filterMap_cons, hended] at hperm

theorem others_kept {kids : List Kid} {pids : List Nat} {pid : Nat} (hnotin : pid ∉ pids)
    (h : ∀ p ∈ pids, p ∈ kids.map Kid.pid) :
    ∀ p ∈ pids, p ∈ (kids.filter (·.pid != pid)).map Kid.pid := by
  intro p hp
  obtain ⟨kid, hkid, rfl⟩ := List.mem_map.mp (h p hp)
  have hne : kid.pid ≠ pid := by
    rintro rfl
    exact hnotin hp
  exact List.mem_map_of_mem (List.mem_filter.mpr ⟨hkid, by simpa using hne⟩)

/-- What has ended is in the table or not waited for, whatever has been waited for. -/
theorem result_reap (jobs : Table) : ∀ {kids : List Kid}, (kids.map Kid.pid).Nodup →
    (runningPids jobs).Nodup → (∀ pid ∈ runningPids jobs, pid ∈ kids.map Kid.pid) →
    ((finished (petrushJobReap jobs kids).1).map result ++
      zombies (petrushJobReap jobs kids).2).Perm
        ((finished jobs).map result ++ zombies kids) := by
  induction jobs with
  | nil => exact fun _ _ _ => List.Perm.refl _
  | cons slot jobs ih =>
      intro kids hnodup hpids hkids
      cases slot with
      | none => exact ih hnodup hpids hkids
      | some job =>
          by_cases hstate : job.state = .running
          · have hhead : runningPids (some job :: jobs) = job.pid :: runningPids jobs := by
              simp [runningPids, runningPid, hstate]
            have hnot : ¬ job.state = .done := by simp [hstate]
            rw [hhead] at hpids hkids
            obtain ⟨hnotin, hpids⟩ := List.nodup_cons.mp hpids
            rw [List.forall_mem_cons] at hkids
            obtain ⟨kid, hkid, hpid⟩ := List.mem_map.mp hkids.1
            cases hended : kid.ended with
            | none =>
                rw [petrushJobReap_running jobs hstate (waitpid_running hnodup hkid hpid hended),
                  finished_cons, finished_cons, if_neg hnot, if_neg hnot]
                exact ih hnodup hpids hkids.2
            | some status =>
                have hdone : (ended job status).state = .done := rfl
                rw [petrushJobReap_ended jobs hstate (waitpid_ended hnodup hkid hpid hended),
                  finished_cons, finished_cons, if_neg hnot, if_pos hdone]
                have hothers := ih (hnodup.sublist (List.filter_sublist.map Kid.pid)) hpids
                  (others_kept hnotin hkids.2)
                have hzombies := zombies_waited hnodup hkid hended
                rw [hpid] at hzombies
                have hmiddle := (hothers.cons (result (ended job status))).trans
                  (List.perm_middle.symm : List.Perm _ ((finished jobs).map result ++ _))
                exact hmiddle.trans (hzombies.symm.append_left _)
          · have hdone : job.state = .done := by
              cases hcase : job.state with
              | running => exact absurd hcase hstate
              | done => rfl
            have hhead : runningPids (some job :: jobs) = runningPids jobs := by
              simp [runningPids, runningPid, hstate]
            rw [hhead] at hpids hkids
            rw [petrushJobReap_done jobs kids hstate, finished_cons, finished_cons, if_pos hdone,
              if_pos hdone, List.map_cons, List.map_cons, List.cons_append, List.cons_append]
            exact (ih hnodup hpids hkids).cons _

/-! ## Steps -/

/-- The session of a shell: each running job is one of its children. -/
structure Own (s : Session) : Prop extends Tracked s where
  running : (runningPids s.jobs).Perm (s.kids.map Kid.pid)

theorem own_reap {s : Session} (h : Own s) : Own s.reap :=
  ⟨reap_tracked h.toTracked, (reap_spec h.toTracked).2.1⟩

theorem reap_idents (s : Session) : (held s.reap.jobs).map ident = (held s.jobs).map ident :=
  ident_reap s.jobs s.kids

theorem zombies_reap {s : Session} (h : Own s) : zombies s.reap.kids = [] := by
  rw [(reap_spec h.toTracked).1, zombies, List.filterMap_eq_nil_iff]
  intro kid hkid
  have halive := (List.mem_filter.mp hkid).2
  simp only [alive, Option.isNone_iff_eq_none] at halive
  rw [halive]
  rfl

theorem reap_results {s : Session} (h : Own s) :
    ((finished s.reap.jobs).map result).Perm ((finished s.jobs).map result ++ zombies s.kids) := by
  have hnodup : (runningPids s.jobs).Nodup := h.running.nodup_iff.mpr h.nodup
  have hreap := result_reap s.jobs h.nodup hnodup fun pid hpid => h.running.mem_iff.mp hpid
  have hnone : zombies (petrushJobReap s.jobs s.kids).2 = [] := zombies_reap h
  rwa [hnone, List.append_nil] at hreap

theorem prune_cons (job : Job) (jobs : Table) : petrushJobPruneDone (some job :: jobs) =
    (if job.state = .done then none else some job) :: petrushJobPruneDone jobs := by
  simp [petrushJobPruneDone, isDone]

/-- What is dropped, and what stays. -/
theorem prune_held (jobs : Table) :
    (held jobs).Perm (finished jobs ++ held (petrushJobPruneDone jobs)) := by
  induction jobs with
  | nil => exact List.Perm.refl _
  | cons slot jobs ih =>
      cases slot with
      | none => exact ih
      | some job =>
          have hcons : held (some job :: jobs) = job :: held jobs :=
            List.reduceOption_cons_of_some job jobs
          rw [hcons, prune_cons, finished_cons]
          by_cases hdone : job.state = .done
          · rw [if_pos hdone, if_pos hdone]
            exact ih.cons job
          · rw [if_neg hdone, if_neg hdone]
            exact (ih.cons job).trans List.perm_middle.symm

theorem prune_finished (jobs : Table) : finished (petrushJobPruneDone jobs) = [] := by
  induction jobs with
  | nil => rfl
  | cons slot jobs ih =>
      cases slot with
      | none => exact ih
      | some job =>
          rw [prune_cons]
          by_cases hdone : job.state = .done
          · rw [if_pos hdone]
            exact ih
          · rw [if_neg hdone, finished_cons, if_neg hdone]
            exact ih

/-- A free slot is taken by a job that runs. -/
theorem held_set {jobs : Table} {slot : Nat} (hfree : jobs[slot]? = some none) (job : Job) :
    (held (jobs.set slot (some job))).Perm (job :: held jobs) := by
  induction jobs generalizing slot with
  | nil => simp at hfree
  | cons first jobs ih =>
      cases slot with
      | zero =>
          obtain rfl : first = none := by simpa using hfree
          exact List.Perm.refl _
      | succ slot =>
          have hrest := ih (by simpa using hfree)
          cases first with
          | none => exact hrest
          | some other =>
              rw [List.set_cons_succ, held, held, List.reduceOption_cons_of_some,
                List.reduceOption_cons_of_some]
              exact (hrest.cons other).trans (List.Perm.swap job other _)

/-- The job that is added. -/
theorem petrushJobAdd_job {jobs : Table} (hroom : petrushJobCount jobs < jobs.length) {pid : Nat}
    (hpid : 0 < pid) (command : Text) :
    ∃ slot, jobs[slot]? = some none ∧ petrushJobAdd pid command jobs =
      some (jobs.set slot (some (newJob slot pid command)), slot + 1) := by
  obtain ⟨slot, job, hfree, -, -, hadd⟩ := petrushJobAdd_some hroom hpid command
  have hlt : jobs.findIdx Option.isNone < jobs.length :=
    List.findIdx_lt_length_of_exists (exists_free hroom)
  have hnew : petrushJobAdd pid command jobs = some (jobs.set (jobs.findIdx Option.isNone)
      (some (newJob (jobs.findIdx Option.isNone) pid command)),
        jobs.findIdx Option.isNone + 1) := by
    rw [petrushJobAdd, if_neg (Nat.ne_of_gt hpid), if_pos hlt]
    rfl
  have hslot : jobs.findIdx Option.isNone = slot := by
    rw [hnew] at hadd
    exact Nat.succ.inj (Prod.mk.inj (Option.some.inj hadd)).2
  rw [hslot] at hnew
  exact ⟨slot, hfree, hnew⟩

/-- How an item starts in the background. -/
structure Added (s : Session) (pid : Nat) (label : Text) (t : Session) : Prop where
  kids : t.kids = { pid := pid } :: s.reap.kids
  slot : ∃ slot, s.reap.jobs[slot]? = some none ∧
    t.jobs = s.reap.jobs.set slot (some (newJob slot pid label))

/-- **An item in the background** only reaps, or adds its job. -/
theorem background_cases {s : Session} (h : Own s) (label : Option Text) (fork : Option Nat)
    (he : (Event.background label fork).possible s) :
    (s.step (.background label fork) = s.reap ∧ starts s (.background label fork) = []) ∨
      ∃ text pid, Added s pid text (s.step (.background label fork)) ∧
        starts s (.background label fork) = [(pid, commandOf text)] := by
  by_cases hfull : petrushJobCount s.reap.jobs ≥ jobMax
  · have hrefused : dispatchPipelineBackground label fork s = (s.reap, .limit) := if_pos hfull
    refine .inl ⟨congrArg Prod.fst hrefused, ?_⟩
    cases label with
    | none => rfl
    | some label =>
        cases fork with
        | none => rfl
        | some pid =>
            unfold starts
            dsimp only
            rw [hrefused]
  · cases label with
    | none =>
        have hnone : dispatchPipelineBackground none fork s = (s.reap, .noLabel) := if_neg hfull
        exact .inl ⟨congrArg Prod.fst hnone, rfl⟩
    | some label =>
        cases fork with
        | none =>
            have hnone : dispatchPipelineBackground (some label) none s = (s.reap, .noFork) :=
              if_neg hfull
            exact .inl ⟨congrArg Prod.fst hnone, rfl⟩
        | some pid =>
            have hroom : petrushJobCount s.reap.jobs < s.reap.jobs.length := by
              rw [(own_reap h).length]
              omega
            obtain ⟨slot, hfree, hadd⟩ := petrushJobAdd_job hroom he.1 label
            have hrun : dispatchPipelineBackground (some label) (some pid) s =
                (⟨s.reap.jobs.set slot (some (newJob slot pid label)),
                  { pid := pid } :: s.reap.kids⟩, .started (slot + 1)) := by
              unfold dispatchPipelineBackground
              rw [if_neg hfull]
              simp only [hadd]
            refine .inr ⟨label, pid, ⟨?_, slot, hfree, ?_⟩, ?_⟩
            · exact congrArg (fun r => r.1.kids) hrun
            · exact congrArg (fun r => r.1.jobs) hrun
            · unfold starts
              dsimp only
              rw [hrun]

theorem own_step {s : Session} (h : Own s) {e : Event} (he : e.possible s) : Own (s.step e) := by
  refine ⟨step_tracked h.toTracked he, ?_⟩
  have hreaped := (own_reap h).running
  cases e with
  | background label fork =>
      rcases background_cases h label fork he with ⟨heq, -⟩ | ⟨text, pid, hadded, -⟩
      · rw [heq]
        exact hreaped
      · obtain ⟨slot, hfree, hjobs⟩ := hadded.slot
        rw [hadded.kids, hjobs]
        exact (runningPids_set hfree rfl).trans (hreaped.cons pid)
  | jobs =>
      show (runningPids (petrushJobPruneDone s.reap.jobs)).Perm _
      rw [runningPids_prune]
      exact hreaped
  | prompt =>
      show (runningPids (petrushJobPruneDone s.reap.jobs)).Perm _
      rw [runningPids_prune]
      exact hreaped
  | ended pid status =>
      have hpids : (s.kids.map fun kid =>
          if kid.pid = pid then { kid with ended := some status } else kid).map Kid.pid =
            s.kids.map Kid.pid := by
        rw [List.map_map]
        apply List.map_congr_left
        intro kid _
        dsimp only [Function.comp]
        split <;> rfl
      show (runningPids s.jobs).Perm _
      rw [Session.step, hpids]
      exact h.running

/-! ## Accounts -/

/-- A step keeps every job, or drops it. -/
theorem idents_step {s : Session} (h : Own s) {e : Event} (he : e.possible s) :
    ((held s.jobs).map ident ++ starts s e).Perm
      ((drops s e).map ident ++ (held (s.step e).jobs).map ident) := by
  rw [← reap_idents s]
  have hpruned : ((held s.reap.jobs).map ident ++ []).Perm ((finished s.reap.jobs).map ident ++
      (held (petrushJobPruneDone s.reap.jobs)).map ident) := by
    rw [List.append_nil, ← List.map_append]
    exact (prune_held s.reap.jobs).map ident
  cases e with
  | background label fork =>
      rcases background_cases h label fork he with
        ⟨heq, hstarts⟩ | ⟨text, pid, hadded, hstarts⟩
      · rw [heq, hstarts, List.append_nil]
        exact List.Perm.refl _
      · obtain ⟨slot, hfree, hjobs⟩ := hadded.slot
        have hset := (held_set hfree (newJob slot pid text)).map ident
        rw [hstarts, hjobs]
        exact List.perm_append_comm.trans hset.symm
  | jobs => exact hpruned
  | prompt => exact hpruned
  | ended pid status =>
      rw [reap_idents s]
      show ((held s.jobs).map ident ++ []).Perm ([] ++ (held s.jobs).map ident)
      rw [List.append_nil, List.nil_append]

/-- The results that have not been dropped. -/
def results (s : Session) : List (Nat × Nat) := (finished s.jobs).map result ++ zombies s.kids

theorem finished_set {jobs : Table} {slot : Nat} (hfree : jobs[slot]? = some none) {job : Job}
    (hstate : job.state = .running) :
    (finished (jobs.set slot (some job))).Perm (finished jobs) := by
  have hset := (held_set hfree job).filter (·.state = .done)
  rwa [List.filter_cons_of_neg (by simp [hstate])] at hset

/-- A child that has not ended ends. -/
theorem zombies_ended {kids : List Kid} (hnodup : (kids.map Kid.pid).Nodup) {kid : Kid}
    (hkid : kid ∈ kids) (hended : kid.ended = none) (status : WaitStatus) :
    (zombies (kids.map fun other =>
      if other.pid = kid.pid then { other with ended := some status } else other)).Perm
        (zombies kids ++ [(kid.pid, statusToCode status)]) := by
  have hperm := perm_cons_filter hnodup hkid
  have hothers : (kids.filter (·.pid != kid.pid)).map (fun other =>
      if other.pid = kid.pid then { other with ended := some status } else other) =
        kids.filter (·.pid != kid.pid) := by
    conv_rhs => rw [← List.map_id (kids.filter (·.pid != kid.pid))]
    refine List.map_congr_left fun other hother => ?_
    have hne := (List.mem_filter.mp hother).2
    rw [bne_iff_ne] at hne
    exact if_neg hne
  have hafter := (hperm.map fun other =>
    if other.pid = kid.pid then { other with ended := some status } else other).filterMap
      fun kid => kid.ended.map fun status => (kid.pid, statusToCode status)
  have hbefore := hperm.filterMap fun kid => kid.ended.map fun status =>
    (kid.pid, statusToCode status)
  rw [List.map_cons, hothers, if_pos rfl, List.filterMap_cons] at hafter
  rw [List.filterMap_cons, hended] at hbefore
  exact (hafter.trans (hbefore.symm.cons _)).trans (List.perm_append_singleton _ _).symm

theorem results_step {s : Session} (h : Own s) {e : Event} (he : e.possible s) :
    (results s ++ ends s e).Perm ((drops s e).map result ++ results (s.step e)) := by
  have hreap := reap_results h
  have hnone := zombies_reap h
  have hpruned : (results s ++ []).Perm ((finished s.reap.jobs).map result ++
      results { s.reap with jobs := petrushJobPruneDone s.reap.jobs }) := by
    rw [results, results, prune_finished, hnone, List.append_nil, List.map_nil, List.nil_append,
      List.append_nil]
    exact hreap.symm
  cases e with
  | background label fork =>
      have hstep : (results s).Perm (results (s.step (.background label fork))) := by
        rcases background_cases h label fork he with ⟨heq, -⟩ | ⟨text, pid, hadded, -⟩
        · rw [heq, results, results, hnone, List.append_nil]
          exact hreap.symm
        · obtain ⟨slot, hfree, hjobs⟩ := hadded.slot
          have hlive : zombies ({ pid := pid } :: s.reap.kids) = [] := hnone
          rw [results, results, hadded.kids, hjobs, hlive, List.append_nil]
          have hset := finished_set hfree (rfl : (newJob slot pid text).state = .running)
          exact hreap.symm.trans (hset.map result).symm
      show (results s ++ []).Perm ([] ++ _)
      rw [List.append_nil, List.nil_append]
      exact hstep
  | jobs => exact hpruned
  | prompt => exact hpruned
  | ended pid status =>
      obtain ⟨kid, hkid, rfl, hended⟩ := he
      have hzombies := zombies_ended h.nodup hkid hended status
      show (results s ++ [(kid.pid, statusToCode status)]).Perm ([] ++ results _)
      rw [List.nil_append, results, results, List.append_assoc]
      exact hzombies.symm.append_left _

/-! ## Reports -/

/-- A job has the number of its slot, and has not been reported. -/
def Labelled (jobs : Table) : Prop :=
  ∀ (slot : Nat) (job : Job), jobs[slot]? = some (some job) →
    job.id = slot + 1 ∧ job.notified = false

/-- The line about a job that is done. -/
def doneLine (job : Job) : Text := '[' :: numberText job.id ++ "]+ Done  ".toList ++ job.command

/-- Reaping leaves a job its number. -/
theorem reap_slot (jobs : Table) : ∀ {kids : List Kid} {slot : Nat} {job : Job},
    (petrushJobReap jobs kids).1[slot]? = some (some job) →
      ∃ old, jobs[slot]? = some (some old) ∧ job.id = old.id ∧ job.notified = old.notified := by
  induction jobs with
  | nil =>
      intro kids slot job h
      contradiction
  | cons first jobs ih =>
      intro kids slot job h
      cases slot with
      | succ slot => exact ih h
      | zero =>
          have hfirst : (reapSlot first kids).1 = some job := Option.some.inj h
          cases first with
          | none => contradiction
          | some old =>
              refine ⟨old, rfl, ?_⟩
              unfold reapSlot at hfirst
              dsimp only at hfirst
              split at hfirst
              · split at hfirst <;>
                · obtain rfl := Option.some.inj hfirst
                  exact ⟨rfl, rfl⟩
              · obtain rfl := Option.some.inj hfirst
                exact ⟨rfl, rfl⟩

theorem labelled_reap {s : Session} (h : Labelled s.jobs) : Labelled s.reap.jobs := by
  intro slot job hjob
  obtain ⟨old, hold, hid, hnotified⟩ := reap_slot s.jobs hjob
  rw [hid, hnotified]
  exact h slot old hold

theorem labelled_prune {jobs : Table} (h : Labelled jobs) :
    Labelled (petrushJobPruneDone jobs) := by
  intro slot job hjob
  rw [petrushJobPruneDone, List.getElem?_map, Option.map_eq_some_iff] at hjob
  obtain ⟨old, hold, heq⟩ := hjob
  split at heq
  · contradiction
  · rw [heq] at hold
    exact h slot job hold

theorem labelled_set {jobs : Table} (h : Labelled jobs) (slot pid : Nat) (label : Text) :
    Labelled (jobs.set slot (some (newJob slot pid label))) := by
  intro slot' job hjob
  rw [List.getElem?_set] at hjob
  split at hjob
  next heq =>
    split at hjob
    · obtain rfl := Option.some.inj (Option.some.inj hjob)
      rw [← heq]
      exact ⟨rfl, rfl⟩
    · contradiction
  next => exact h slot' job hjob

theorem labelled_step {s : Session} (hown : Own s) (h : Labelled s.jobs) {e : Event}
    (he : e.possible s) : Labelled (s.step e).jobs := by
  have hreap := labelled_reap h
  cases e with
  | background label fork =>
      rcases background_cases hown label fork he with ⟨heq, -⟩ | ⟨text, pid, hadded, -⟩
      · rw [heq]
        exact hreap
      · obtain ⟨slot, -, hjobs⟩ := hadded.slot
        rw [hjobs]
        exact labelled_set hreap slot pid text
  | jobs => exact labelled_prune hreap
  | prompt => exact labelled_prune hreap
  | ended pid status => exact h

/-- The numbers of the jobs in a table go up. -/
theorem ids_sorted (jobs : Table) : ∀ {k : Nat}, (∀ (slot : Nat) (job : Job),
    jobs[slot]? = some (some job) → job.id = k + slot + 1) →
      (held jobs).Pairwise (·.id < ·.id) ∧ ∀ job ∈ held jobs, k < job.id := by
  induction jobs with
  | nil => exact fun _ => ⟨List.Pairwise.nil, List.forall_mem_nil _⟩
  | cons first jobs ih =>
      intro k h
      have hrest := ih (k := k + 1) fun slot job hjob => by
        have hid := h (slot + 1) job hjob
        omega
      cases first with
      | none => exact ⟨hrest.1, fun job hjob => Nat.lt_of_succ_lt (hrest.2 job hjob)⟩
      | some job =>
          have hid : job.id = k + 1 := h 0 job rfl
          rw [held, List.reduceOption_cons_of_some, List.pairwise_cons, List.forall_mem_cons, hid]
          exact ⟨⟨hrest.2, hrest.1⟩, Nat.lt_succ_self k, fun other hother =>
            Nat.lt_of_succ_lt (hrest.2 other hother)⟩

theorem notify_lines (jobs : Table) (h : ∀ job ∈ held jobs, job.notified = false) :
    (petrushJobNotify jobs).1 = (finished jobs).map doneLine := by
  induction jobs with
  | nil => rfl
  | cons slot jobs ih =>
      cases slot with
      | none => exact ih h
      | some job =>
          rw [held, List.reduceOption_cons_of_some, List.forall_mem_cons] at h
          have hrest := ih h.2
          rw [petrushJobNotify] at hrest
          rw [petrushJobNotify, List.filterMap_cons, Option.bind_some, finished_cons]
          by_cases hstate : job.state = .done
          · rw [if_pos ⟨hstate, h.1⟩, if_pos hstate, List.map_cons]
            exact congrArg (doneLine job :: ·) hrest
          · rw [if_neg fun hboth => hstate hboth.1, if_neg hstate]
            exact hrest

/-- What is dropped before a prompt has a line, in the order of the numbers. -/
structure Reported (s : Session) : Prop where
  lines : (prompt s).1 = (drops s .prompt).map doneLine
  sorted : (drops s .prompt).Pairwise (·.id < ·.id)

theorem reported_of_labelled {s : Session} (h : Labelled s.jobs) : Reported s := by
  have hreap := labelled_reap h
  refine ⟨notify_lines s.reap.jobs fun job hjob => ?_, ?_⟩
  · obtain ⟨slot, hslot⟩ := List.mem_iff_getElem?.mp (List.reduceOption_mem_iff.mp hjob)
    exact (hreap slot job hslot).2
  · have hsorted := ids_sorted s.reap.jobs (k := 0) fun slot job hjob => by
      rw [(hreap slot job hjob).1, Nat.zero_add]
    exact hsorted.1.filter _

/-! ## Runs -/

/-- The events are possible, one after another. -/
theorem along_possible {s : Session} {es : List Event} (h : ∀ x ∈ trace s es, x.2.possible x.1) :
    Along Session.step (fun s e => Event.possible s e) s es := by
  induction es generalizing s with
  | nil => trivial
  | cons e es ih =>
      rw [trace, List.forall_mem_cons] at h
      exact ⟨h.1, ih h.2⟩

/-- A shell that has just started. -/
theorem own_start : Own {} where
  length := List.length_replicate
  nodup := List.nodup_nil
  slots := .inl rfl
  running := List.Perm.refl _

theorem reported_along {s : Session} (hown : Own s) (h : Labelled s.jobs) {es : List Event}
    (hes : ∀ x ∈ trace s es, x.2.possible x.1) : ∀ x ∈ trace s es, Reported x.1 := by
  induction es generalizing s with
  | nil => exact List.forall_mem_nil _
  | cons e es ih =>
      rw [trace, List.forall_mem_cons] at hes ⊢
      exact ⟨reported_of_labelled h, ih (own_step hown hes.1) (labelled_step hown h hes.1) hes.2⟩

theorem labelled_start : Labelled ({} : Session).jobs := by
  intro slot job hjob
  have hnone := List.eq_of_mem_replicate (List.mem_of_getElem? hjob)
  contradiction

/-- **The accounts of a session**, behind every run of a shell.  The jobs that have been
started are those that have been dropped and those in the table; the children that have
ended are those whose results have been dropped, are in the table, or can still be waited
for. -/
theorem jobs_accounted (es : List Event) (h : ∀ x ∈ trace {} es, x.2.possible x.1) :
    (along Session.step starts {} es).Perm
      (along Session.step (fun s e => (drops s e).map ident) {} es ++
        (held (es.foldl Session.step {}).jobs).map ident) ∧
    (along Session.step ends {} es).Perm
      (along Session.step (fun s e => (drops s e).map result) {} es ++
        results (es.foldl Session.step {})) :=
  ⟨balanced (fun s : Session => (held s.jobs).map ident) (fun _ _ hs he => own_step hs he)
      (fun _ _ hs he => idents_step hs he) es {} own_start (along_possible h),
    balanced results (fun _ _ hs he => own_step hs he) (fun _ _ hs he => results_step hs he) es {}
      own_start (along_possible h)⟩

/-- A job that ends before a prompt. -/
def shortRun : List Event :=
  [.background (some "a".toList) (some 7), .ended 7 (.exited 3), .prompt]

theorem jobs_accounted_short :
    (along Session.step starts {} shortRun).Perm
      (along Session.step (fun s e => (drops s e).map ident) {} shortRun ++
        (held (shortRun.foldl Session.step {}).jobs).map ident) ∧
    (along Session.step ends {} shortRun).Perm
      (along Session.step (fun s e => (drops s e).map result) {} shortRun ++
        results (shortRun.foldl Session.step {})) :=
  jobs_accounted shortRun (by decide +kernel)

/-- **The lines before a prompt** are about what is dropped there, in every run. -/
theorem prompt_reports (es : List Event) (h : ∀ x ∈ trace {} es, x.2.possible x.1) :
    ∀ x ∈ trace {} es, Reported x.1 :=
  reported_along own_start labelled_start h

theorem prompt_reports_short : Reported ((shortRun.take 2).foldl Session.step {}) :=
  prompt_reports shortRun (by decide +kernel) ((shortRun.take 2).foldl Session.step {}, .prompt)
    (List.mem_of_getElem? (rfl : (trace {} shortRun)[2]? = some _))

end Petrush.Verified.JobReports

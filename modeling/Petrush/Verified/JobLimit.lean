import Mathlib.Data.List.Perm.Lattice
import Petrush.Mid.Jobs

/-!
# The limit of background jobs

A slot of the table stays occupied when its child has ended, until `jobs` or a prompt
clears it; `petrush_job_reap` only marks it.  So the limit counts what is done as well,
and an item is refused rightly exactly when nothing that is done fills the table.

## Main results

* `reap_spec`: what reaping leaves, when the table goes with the children (`Tracked`).
* `refusals_justified_iff`: the runs in which every refusal is right.
-/

namespace Petrush.Verified.JobLimit

open Petrush.Lib.CText
open Petrush.Mid.Jobs

/-! ## The table and the children -/

/-- The child of a running job. -/
def runningPid (slot : Option Job) : Option Nat :=
  slot.bind fun job => if job.state = .running then some job.pid else none

/-- The children the table waits for. -/
def runningPids (jobs : Table) : List Nat := jobs.filterMap runningPid

/-- A child has not ended. -/
def alive (kid : Kid) : Bool := kid.ended.isNone

/-- The children that have not ended. -/
def aliveKids (s : Session) : List Kid := s.kids.filter alive

/-- The table has its slots, the children have different ids, and the table waits for
exactly these; a process that has just been forked has the table of its parent and no
children. -/
structure Tracked (s : Session) : Prop where
  length : s.jobs.length = jobMax
  nodup : (s.kids.map Kid.pid).Nodup
  slots : s.kids = [] ∨ (runningPids s.jobs).Perm (s.kids.map Kid.pid)

section Waitpid

variable {kids : List Kid}

theorem kid_eq_of_pid (hnodup : (kids.map Kid.pid).Nodup) {kid other : Kid} (hkid : kid ∈ kids)
    (hother : other ∈ kids) (h : kid.pid = other.pid) : kid = other :=
  List.inj_on_of_nodup_map hnodup hkid hother h

/-- A child and the others. -/
theorem perm_cons_filter (hnodup : (kids.map Kid.pid).Nodup) {kid : Kid} (hkid : kid ∈ kids) :
    kids.Perm (kid :: kids.filter (·.pid != kid.pid)) := by
  induction kids with
  | nil => contradiction
  | cons first kids ih =>
      obtain ⟨hnotin, hnodup'⟩ := List.nodup_cons.mp hnodup
      rcases List.mem_cons.mp hkid with rfl | hmem
      · have hothers : kids.filter (·.pid != kid.pid) = kids := by
          apply List.filter_eq_self.mpr
          intro other hother
          have hne : other.pid ≠ kid.pid := fun heq =>
            hnotin (heq ▸ List.mem_map_of_mem hother)
          simpa using hne
        simp [hothers]
      · have hne : first.pid ≠ kid.pid := fun heq =>
          hnotin (heq ▸ List.mem_map_of_mem hmem)
        have hkeep : (first.pid != kid.pid) = true := by simpa using hne
        rw [List.filter_cons, if_pos hkeep]
        exact ((ih hnodup' hmem).cons first).trans (List.Perm.swap _ _ _)

/-- An ended child that is forgotten was not alive. -/
theorem alive_filter (hnodup : (kids.map Kid.pid).Nodup) {kid : Kid} (hkid : kid ∈ kids)
    (hended : kid.ended ≠ none) :
    (kids.filter (·.pid != kid.pid)).filter alive = kids.filter alive := by
  rw [List.filter_filter]
  apply List.filter_congr
  intro other hother
  cases halive : alive other with
  | false => rfl
  | true =>
      have hne : other.pid ≠ kid.pid := by
        intro heq
        rw [kid_eq_of_pid hnodup hother hkid heq] at halive
        simp [alive, hended] at halive
      simpa using hne

end Waitpid

section Slots

variable {kids : List Kid} {job : Job}

theorem find_kid (hnodup : (kids.map Kid.pid).Nodup) {kid : Kid} (hkid : kid ∈ kids) :
    kids.find? (·.pid == kid.pid) = some kid := by
  cases hfind : kids.find? (·.pid == kid.pid) with
  | none => exact absurd (List.find?_eq_none.mp hfind kid hkid) (by simp)
  | some other =>
      have hother := List.find?_some hfind
      rw [kid_eq_of_pid hnodup (List.mem_of_find?_eq_some hfind) hkid (by simpa using hother)]

theorem waitpid_running (hnodup : (kids.map Kid.pid).Nodup) {kid : Kid} (hkid : kid ∈ kids)
    {pid : Nat} (hpid : kid.pid = pid) (hended : kid.ended = none) :
    waitpid pid kids = (.running, kids) := by
  rw [waitpid, ← hpid, find_kid hnodup hkid]
  simp only [hended]

theorem waitpid_ended (hnodup : (kids.map Kid.pid).Nodup) {kid : Kid} (hkid : kid ∈ kids)
    {pid : Nat} (hpid : kid.pid = pid) {status : WaitStatus} (hended : kid.ended = some status) :
    waitpid pid kids = (.ended status, kids.filter (·.pid != pid)) := by
  rw [waitpid, ← hpid, find_kid hnodup hkid]
  simp only [hended]

variable (jobs : Table)

theorem petrushJobReap_running (hstate : job.state = .running)
    (hwait : waitpid job.pid kids = (.running, kids)) :
    petrushJobReap (some job :: jobs) kids =
      (some job :: (petrushJobReap jobs kids).1, (petrushJobReap jobs kids).2) := by
  simp only [petrushJobReap, reapSlot, hstate, if_true, hwait]

/-- The slot of a child that has ended. -/
def ended (job : Job) (status : WaitStatus) : Job :=
  { job with state := .done, status := statusToCode status }

theorem petrushJobReap_ended (hstate : job.state = .running) {status : WaitStatus}
    {others : List Kid} (hwait : waitpid job.pid kids = (.ended status, others)) :
    petrushJobReap (some job :: jobs) kids =
      (some (ended job status) :: (petrushJobReap jobs others).1, (petrushJobReap jobs others).2) := by
  simp only [petrushJobReap, reapSlot, hstate, if_true, hwait, ended]

theorem petrushJobReap_done (kids : List Kid) (hstate : ¬ job.state = .running) :
    petrushJobReap (some job :: jobs) kids =
      (some job :: (petrushJobReap jobs kids).1, (petrushJobReap jobs kids).2) := by
  simp only [petrushJobReap, reapSlot, hstate, if_false]

end Slots

/-- **Reaping**: what is waited for is alive, and what is alive is kept.  `seen` are the
children of the slots before. -/
theorem petrushJobReap_spec (jobs : Table) :
    ∀ {kids : List Kid} {seen : List Nat}, (kids.map Kid.pid).Nodup →
      (∀ kid ∈ kids, kid.pid ∈ seen → alive kid = true) →
      (runningPids jobs ++ seen).Perm (kids.map Kid.pid) →
      (petrushJobReap jobs kids).2 = kids.filter alive ∧
        (runningPids (petrushJobReap jobs kids).1 ++ seen).Perm
          ((kids.filter alive).map Kid.pid) := by
  induction jobs with
  | nil =>
      intro kids seen hnodup hseen hperm
      have hall : kids.filter alive = kids := by
        apply List.filter_eq_self.mpr
        intro kid hkid
        exact hseen kid hkid (hperm.mem_iff.mpr (List.mem_map_of_mem hkid))
      rw [hall]
      exact ⟨rfl, hperm⟩
  | cons slot jobs ih =>
      intro kids seen hnodup hseen hperm
      cases slot with
      | none => exact ih hnodup hseen hperm
      | some job =>
          by_cases hstate : job.state = .running
          · have hpids : runningPids (some job :: jobs) = job.pid :: runningPids jobs := by
              simp [runningPids, runningPid, hstate]
            rw [hpids, List.cons_append] at hperm
            -- The child of a running job is one that has not been waited for.
            obtain ⟨kid, hkid, hpid⟩ := List.mem_map.mp (hperm.mem_iff.mp List.mem_cons_self)
            cases hended : kid.ended with
            | none =>
                rw [petrushJobReap_running jobs hstate (waitpid_running hnodup hkid hpid hended)]
                have hseen' : ∀ other ∈ kids, other.pid ∈ job.pid :: seen → alive other = true := by
                  intro other hother hmem
                  rcases List.mem_cons.mp hmem with heq | hmem
                  · rw [kid_eq_of_pid hnodup hother hkid (heq.trans hpid.symm)]
                    simp [alive, hended]
                  · exact hseen other hother hmem
                obtain ⟨hkids, hrest⟩ := ih hnodup hseen' (List.perm_middle.trans hperm)
                refine ⟨hkids, ?_⟩
                have hhead (l : Table) : runningPids (some job :: l) = job.pid :: runningPids l := by
                  simp [runningPids, runningPid, hstate]
                rw [hhead, List.cons_append]
                exact List.perm_middle.symm.trans hrest
            | some status =>
                rw [petrushJobReap_ended jobs hstate (waitpid_ended hnodup hkid hpid hended)]
                have hothers : (runningPids jobs ++ seen).Perm
                    ((kids.filter (·.pid != kid.pid)).map Kid.pid) := by
                  apply List.Perm.cons_inv (a := kid.pid)
                  rw [hpid]
                  exact hperm.trans (hpid ▸ (perm_cons_filter hnodup hkid).map Kid.pid)
                obtain ⟨hkids, hrest⟩ := ih (hnodup.sublist (List.filter_sublist.map Kid.pid))
                  (fun other hother => hseen other (List.mem_of_mem_filter hother)) hothers
                rw [alive_filter hnodup hkid (by simp [hended])] at hkids hrest
                rw [hpid] at hkids hrest
                exact ⟨hkids, hrest⟩
          · rw [petrushJobReap_done jobs kids hstate]
            have hpids (l : Table) : runningPids (some job :: l) = runningPids l := by
              simp [runningPids, runningPid, hstate]
            rw [hpids] at hperm ⊢
            exact ih hnodup hseen hperm

/-- Without children, nothing is waited for. -/
theorem petrushJobReap_orphan (jobs : Table) :
    (petrushJobReap jobs []).2 = [] ∧ runningPids (petrushJobReap jobs []).1 = [] := by
  induction jobs with
  | nil => exact ⟨rfl, rfl⟩
  | cons slot jobs ih =>
      cases slot with
      | none => exact ih
      | some job =>
          by_cases hstate : job.state = .running
          · have hreap : petrushJobReap (some job :: jobs) [] =
                (some { job with state := .done, status := 0 } :: (petrushJobReap jobs []).1,
                  (petrushJobReap jobs []).2) := by
              simp [petrushJobReap, reapSlot, hstate, waitpid]
            rw [hreap]
            exact ih
          · rw [petrushJobReap_done jobs [] hstate]
            refine ⟨ih.1, ?_⟩
            simpa [runningPids, runningPid, hstate] using ih.2

/-- Reaping frees no slot. -/
theorem petrushJobReap_isSome (jobs : Table) :
    ∀ kids, (petrushJobReap jobs kids).1.map Option.isSome = jobs.map Option.isSome := by
  induction jobs with
  | nil => exact fun _ => rfl
  | cons slot jobs ih =>
      intro kids
      have hslot : (reapSlot slot kids).1.isSome = slot.isSome := by
        cases slot with
        | none => rfl
        | some job =>
            unfold reapSlot
            dsimp only
            split
            · split <;> rfl
            · rfl
      simp only [petrushJobReap, List.map_cons, hslot, ih]

/-- The count depends on which slots are free only. -/
theorem petrushJobCount_congr {jobs jobs' : Table}
    (h : jobs'.map Option.isSome = jobs.map Option.isSome) :
    petrushJobCount jobs' = petrushJobCount jobs := by
  have hcount (l : Table) : petrushJobCount l = ((l.map Option.isSome).filter id).length := by
    rw [List.filter_map, List.length_map]
    rfl
  rw [hcount, hcount, h]

/-- **Reaping**, of a session. -/
theorem reap_spec {s : Session} (h : Tracked s) :
    s.reap.kids = aliveKids s ∧ (runningPids s.reap.jobs).Perm (s.reap.kids.map Kid.pid) ∧
      s.reap.jobs.map Option.isSome = s.jobs.map Option.isSome := by
  refine ⟨?_, ?_, petrushJobReap_isSome s.jobs s.kids⟩
  all_goals
    show _
    rcases h.slots with hnone | hperm
  · simp [Session.reap, aliveKids, hnone, (petrushJobReap_orphan s.jobs).1]
  · exact (petrushJobReap_spec s.jobs h.nodup (fun _ _ hmem => absurd hmem List.not_mem_nil)
      (by simpa using hperm)).1
  · simp [Session.reap, hnone, petrushJobReap_orphan s.jobs]
  · obtain ⟨hkids, hpids⟩ := petrushJobReap_spec s.jobs h.nodup
      (fun _ _ hmem => absurd hmem List.not_mem_nil) (by simpa using hperm)
    simpa [Session.reap, hkids] using hpids

theorem reap_tracked {s : Session} (h : Tracked s) : Tracked s.reap := by
  obtain ⟨hkids, hperm, hslots⟩ := reap_spec h
  refine ⟨?_, ?_, .inr hperm⟩
  · have hlength := congrArg List.length hslots
    simpa [h.length] using hlength
  · rw [hkids]
    exact h.nodup.sublist (List.filter_sublist.map Kid.pid)

/-! ## Steps -/

theorem runningPids_prune (jobs : Table) : runningPids (petrushJobPruneDone jobs) = runningPids jobs := by
  induction jobs with
  | nil => rfl
  | cons slot jobs ih =>
      have hslot : runningPid (if isDone slot then none else slot) = runningPid slot := by
        cases slot with
        | none => rfl
        | some job => cases hstate : job.state <;> simp [isDone, runningPid, hstate]
      simp only [runningPids, petrushJobPruneDone, List.map_cons, List.filterMap_cons, hslot] at ih ⊢
      rw [ih]

theorem prune_tracked {s : Session} (h : Tracked s) :
    Tracked { s with jobs := petrushJobPruneDone s.jobs } where
  length := by simpa [petrushJobPruneDone] using h.length
  nodup := h.nodup
  slots := by simpa only [runningPids_prune] using h.slots

/-- A free slot is taken. -/
theorem runningPids_set {jobs : Table} {slot : Nat} (hfree : jobs[slot]? = some none) {job : Job}
    (hstate : job.state = .running) :
    (runningPids (jobs.set slot (some job))).Perm (job.pid :: runningPids jobs) := by
  induction jobs generalizing slot with
  | nil => simp at hfree
  | cons first jobs ih =>
      cases slot with
      | zero =>
          obtain rfl : first = none := by simpa using hfree
          have hpids : runningPids (some job :: jobs) = job.pid :: runningPids jobs := by
            simp [runningPids, runningPid, hstate]
          rw [List.set_cons_zero, hpids]
          exact List.Perm.refl _
      | succ slot =>
          have hrest := ih (by simpa using hfree)
          cases hfirst : runningPid first with
          | none => simpa [runningPids, hfirst] using hrest
          | some pid =>
              have hperm := (hrest.cons pid).trans (List.Perm.swap job.pid pid _)
              simpa [runningPids, hfirst] using hperm

/-- A table that is not full has a free slot. -/
theorem exists_free {jobs : Table} (hroom : petrushJobCount jobs < jobs.length) :
    ∃ slot ∈ jobs, slot.isNone = true := by
  by_contra hnone
  have hall : jobs.filter Option.isSome = jobs := by
    apply List.filter_eq_self.mpr
    intro slot hslot
    by_contra hfree
    exact hnone ⟨slot, hslot, by simpa using hfree⟩
  rw [petrushJobCount, hall] at hroom
  exact absurd hroom (Nat.lt_irrefl _)

/-- While the table is not full, a child gets a slot. -/
theorem petrushJobAdd_some {jobs : Table} (hroom : petrushJobCount jobs < jobs.length) {pid : Nat}
    (hpid : 0 < pid) (command : Text) :
    ∃ slot job, jobs[slot]? = some none ∧ job.state = .running ∧ job.pid = pid ∧
      petrushJobAdd pid command jobs = some (jobs.set slot (some job), slot + 1) := by
  have hlt : jobs.findIdx Option.isNone < jobs.length :=
    List.findIdx_lt_length_of_exists (exists_free hroom)
  have hfree := List.findIdx_getElem (w := hlt)
  refine ⟨jobs.findIdx Option.isNone,
    { id := jobs.findIdx Option.isNone + 1, pid := pid,
      command := if command = [] then ['?'] else command }, ?_, rfl, rfl, ?_⟩
  · rw [List.getElem?_eq_getElem hlt]
    simpa using hfree
  · rw [petrushJobAdd, if_neg (by omega), if_pos hlt]

theorem background_tracked {s : Session} (h : Tracked s) (label : Option Text) (fork : Option Nat)
    (hpossible : (Event.background label fork).possible s) :
    Tracked (dispatchPipelineBackground label fork s).1 := by
  have hr := reap_tracked h
  obtain ⟨-, hperm, -⟩ := reap_spec h
  unfold dispatchPipelineBackground
  by_cases hfull : petrushJobCount s.reap.jobs ≥ jobMax
  · rw [if_pos hfull]
    exact hr
  · rw [if_neg hfull]
    cases label with
    | none => exact hr
    | some label =>
        cases fork with
        | none => exact hr
        | some pid =>
            obtain ⟨hpid, hfresh⟩ := hpossible
            have hroom : petrushJobCount s.reap.jobs < s.reap.jobs.length := by
              rw [hr.length]
              omega
            obtain ⟨slot, job, hfree, hstate, hjob, hadd⟩ := petrushJobAdd_some hroom hpid label
            simp only [hadd]
            refine ⟨by simpa using hr.length, ?_, .inr ?_⟩
            · refine List.nodup_cons.mpr ⟨fun hmem => ?_, hr.nodup⟩
              obtain ⟨kid, hkid, heq⟩ := List.mem_map.mp hmem
              exact hfresh kid hkid heq
            · have hset := runningPids_set hfree hstate
              rw [hjob] at hset
              exact hset.trans (hperm.cons pid)

theorem step_tracked {s : Session} (h : Tracked s) {e : Event} (he : e.possible s) :
    Tracked (s.step e) := by
  cases e with
  | background label fork => exact background_tracked h label fork he
  | jobs => exact prune_tracked (reap_tracked h)
  | prompt => exact prune_tracked (reap_tracked h)
  | ended pid status =>
      have hpids : (s.kids.map fun kid => if kid.pid = pid then { kid with ended := some status } else kid).map
          Kid.pid = s.kids.map Kid.pid := by
        rw [List.map_map]
        apply List.map_congr_left
        intro kid _
        dsimp only [Function.comp]
        split <;> rfl
      refine ⟨h.length, by simpa only [Session.step, hpids] using h.nodup, ?_⟩
      rcases h.slots with hnone | hperm
      · exact .inl (by simp [Session.step, hnone])
      · exact .inr (by simpa only [Session.step, hpids] using hperm)

/-! ## Refusals -/

/-- An item is refused for the limit only while `PETRUSH_JOB_MAX` children have not ended. -/
def Justified (x : Session × Event) : Prop :=
  ∀ label fork, x.2 = .background label fork →
    (dispatchPipelineBackground label fork x.1).2 = .limit → jobMax ≤ (aliveKids x.1).length

/-- The job is of a child that has not ended. -/
def Alive (s : Session) (job : Job) : Prop :=
  job.state = .running ∧ ∃ kid ∈ s.kids, kid.pid = job.pid ∧ alive kid = true

/-- An item starts while the table has room, or is full of jobs that have not ended. -/
def NotBlocked (x : Session × Event) : Prop :=
  ∀ label fork, x.2 = .background label fork → (∀ slot ∈ x.1.jobs, slot.isSome = true) →
    ∀ slot ∈ x.1.jobs, ∀ job, slot = some job → Alive x.1 job

/-- The limit refuses exactly when the table is full. -/
theorem limit_iff {s : Session} (h : Tracked s) (label : Option Text) (fork : Option Nat) :
    (dispatchPipelineBackground label fork s).2 = .limit ↔ ∀ slot ∈ s.jobs, slot.isSome = true := by
  have hcount := petrushJobCount_congr (reap_spec h).2.2
  have hfull : petrushJobCount s.jobs ≥ jobMax ↔ ∀ slot ∈ s.jobs, slot.isSome = true := by
    rw [← List.filter_eq_self, ← h.length, petrushJobCount]
    constructor
    · intro hge
      exact List.filter_sublist.eq_of_length_le hge
    · intro heq
      rw [heq]
  rw [← hfull, ← hcount]
  unfold dispatchPipelineBackground
  by_cases hge : petrushJobCount s.reap.jobs ≥ jobMax
  · simp [hge]
  · refine iff_of_false ?_ hge
    rw [if_neg hge]
    cases label with
    | none => simp
    | some label =>
        cases fork with
        | none => simp
        | some pid =>
            dsimp only
            split <;> simp

theorem runningPid_eq_some {slot : Option Job} {pid : Nat} :
    runningPid slot = some pid ↔ ∃ job, slot = some job ∧ job.state = .running ∧ job.pid = pid := by
  cases slot with
  | none => simp [runningPid]
  | some job => simp [runningPid]

/-- A table that is full of running jobs. -/
theorem length_runningPids (jobs : Table) :
    (runningPids jobs).length = jobs.length ↔ ∀ slot ∈ jobs, (runningPid slot).isSome = true := by
  rw [runningPids, List.length_filterMap_eq_countP, List.countP_eq_length]

/-- While `PETRUSH_JOB_MAX` children have not ended, every job is of one of them. -/
theorem alive_of_many {s : Session} (h : Tracked s) (hmany : jobMax ≤ (aliveKids s).length) :
    ∀ slot ∈ s.jobs, ∃ job, slot = some job ∧ Alive s job := by
  have hsub : (aliveKids s).length ≤ s.kids.length := List.length_filter_le _ _
  have hperm : (runningPids s.jobs).Perm (s.kids.map Kid.pid) := by
    rcases h.slots with hnone | hperm
    · rw [hnone] at hsub
      simp only [List.length_nil, jobMax] at hsub hmany
      omega
    · exact hperm
  have hlen : (runningPids s.jobs).length = s.kids.length := by
    simpa using hperm.length_eq
  have hle : (runningPids s.jobs).length ≤ s.jobs.length := List.length_filterMap_le _ _
  have hjobs := h.length
  have hslots := (length_runningPids s.jobs).mp (by omega)
  have hall : aliveKids s = s.kids :=
    List.filter_sublist.eq_of_length_le (show s.kids.length ≤ (aliveKids s).length by omega)
  intro slot hslot
  obtain ⟨pid, hpid⟩ := Option.isSome_iff_exists.mp (hslots slot hslot)
  obtain ⟨job, hjob, hstate, heq⟩ := runningPid_eq_some.mp hpid
  have hmem : pid ∈ s.kids.map Kid.pid :=
    hperm.mem_iff.mp (List.mem_filterMap.mpr ⟨slot, hslot, hpid⟩)
  obtain ⟨kid, hkid, hkidpid⟩ := List.mem_map.mp hmem
  refine ⟨job, hjob, hstate, kid, hkid, hkidpid.trans heq.symm, ?_⟩
  rw [← hall] at hkid
  exact (List.mem_filter.mp hkid).2

/-- A table that is full of such jobs. -/
theorem many_of_alive {s : Session} (h : Tracked s)
    (hall : ∀ slot ∈ s.jobs, ∃ job, slot = some job ∧ Alive s job) :
    jobMax ≤ (aliveKids s).length := by
  have hslots : ∀ slot ∈ s.jobs, (runningPid slot).isSome = true := by
    intro slot hslot
    obtain ⟨job, hjob, hstate, -⟩ := hall slot hslot
    rw [runningPid_eq_some.mpr ⟨job, hjob, hstate, rfl⟩]
    rfl
  have hlen := (length_runningPids s.jobs).mpr hslots
  have hperm : (runningPids s.jobs).Perm (s.kids.map Kid.pid) := by
    rcases h.slots with hnone | hperm
    · have hpos : 0 < s.jobs.length := by rw [h.length]; decide
      obtain ⟨job, -, -, kid, hkid, -⟩ := hall s.jobs[0] (List.getElem_mem hpos)
      rw [hnone] at hkid
      exact absurd hkid List.not_mem_nil
    · exact hperm
  have hkids : aliveKids s = s.kids := by
    apply List.filter_eq_self.mpr
    intro kid hkid
    have hmem : kid.pid ∈ runningPids s.jobs :=
      hperm.mem_iff.mpr (List.mem_map_of_mem hkid)
    obtain ⟨slot, hslot, hpid⟩ := List.mem_filterMap.mp hmem
    obtain ⟨job, hjob, -, heq⟩ := runningPid_eq_some.mp hpid
    obtain ⟨job', hjob', -, other, hother, hpid', halive⟩ := hall slot hslot
    obtain rfl : job = job' := Option.some.inj (hjob.symm.trans hjob')
    rwa [kid_eq_of_pid h.nodup hkid hother (heq.symm.trans hpid'.symm)]
  have hlength := hperm.length_eq
  rw [List.length_map] at hlength
  rw [hkids, ← h.length]
  omega

/-- **A refusal**, at any moment of a session. -/
theorem justified_iff {s : Session} (h : Tracked s) (e : Event) :
    Justified (s, e) ↔ NotBlocked (s, e) := by
  constructor
  · intro hj label fork he hfull slot hslot job hjob
    have hmany := hj label fork he ((limit_iff h label fork).mpr hfull)
    obtain ⟨job', hjob', halive⟩ := alive_of_many h hmany slot hslot
    obtain rfl : job = job' := Option.some.inj (hjob.symm.trans hjob')
    exact halive
  · intro hn label fork he hlimit
    have hfull := (limit_iff h label fork).mp hlimit
    apply many_of_alive h
    intro slot hslot
    obtain ⟨job, hjob⟩ := Option.isSome_iff_exists.mp (hfull slot hslot)
    exact ⟨job, hjob, hn label fork he hfull slot hslot job hjob⟩

theorem trace_tracked {s : Session} (h : Tracked s) (es : List Event)
    (hes : ∀ x ∈ trace s es, x.2.possible x.1) : ∀ x ∈ trace s es, Tracked x.1 := by
  induction es generalizing s with
  | nil => exact fun x hx => absurd hx List.not_mem_nil
  | cons e es ih =>
      intro x hx
      rcases List.mem_cons.mp hx with rfl | hx
      · exact h
      · have he := hes (s, e) List.mem_cons_self
        exact ih (step_tracked h he) (fun y hy => hes y (List.mem_cons_of_mem _ hy)) x hx

/-- **The runs in which the limit counts running jobs only**: `jobs` is the table a shell
starts with, which is free, or that of the process it was forked from. -/
theorem refusals_justified_iff (jobs : Table) (hlength : jobs.length = jobMax) (es : List Event)
    (hes : ∀ x ∈ trace ⟨jobs, []⟩ es, x.2.possible x.1) :
    (∀ x ∈ trace ⟨jobs, []⟩ es, Justified x) ↔ ∀ x ∈ trace ⟨jobs, []⟩ es, NotBlocked x := by
  have htracked := trace_tracked (s := ⟨jobs, []⟩) ⟨hlength, List.nodup_nil, .inl rfl⟩ es hes
  constructor
  · exact fun h x hx => (justified_iff (htracked x hx) x.2).mp (h x hx)
  · exact fun h x hx => (justified_iff (htracked x hx) x.2).mpr (h x hx)

/-! ## A refusal that is wrong -/

/-- Sixteen items start. -/
def sixteen : List Event := (List.range 16).map fun i => .background (some "true".toList) (some (i + 1))

theorem refusals_justified_iff_start :
    (∀ x ∈ trace ⟨List.replicate jobMax none, []⟩ [.background (some "true".toList) (some 1)],
      Justified x) ↔
    ∀ x ∈ trace ⟨List.replicate jobMax none, []⟩ [.background (some "true".toList) (some 1)],
      NotBlocked x :=
  refusals_justified_iff (List.replicate jobMax none) rfl _ (by
    intro x hx
    obtain rfl := List.mem_singleton.mp hx
    exact ⟨Nat.one_pos, fun kid hkid => absurd hkid List.not_mem_nil⟩)

/-- One of them ends. -/
def blocked : List Event :=
  sixteen ++ [.ended 1 (.exited 0), .background (some "true".toList) (some 17)]

/-- The next item is refused. -/
theorem finished_blocks :
    ¬ ∀ es : List Event, (∀ x ∈ trace {} es, x.2.possible x.1) → ∀ x ∈ trace {} es, Justified x := by
  intro h
  have hmany := h blocked (by decide +kernel) (trace {} blocked)[17]
    (List.getElem_mem (by decide : 17 < (trace {} blocked).length)) (some "true".toList) (some 17) rfl
    (by decide +kernel)
  revert hmany
  decide +kernel

end Petrush.Verified.JobLimit

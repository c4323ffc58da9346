import Petrush.Verified.Dispositions
import Petrush.Verified.Unwinding

/-!
# Unwinding a return

`return` sets a flag that every loop over lists tests, up to the call.  Three places do
not: `run_file_lines` reads the next line, `dispatch_list` goes on behind a poll for
signals, and an action of a signal or of EXIT is begun.  As long as no return passes
through one of them, no command is dispatched until its call has ended, and that call has
its status.

## Main results

* `returns_unwind` — when every return does.
* `sourced_goesOn` — a return in a sourced file does not.
-/

namespace Petrush.Verified.Returns

open Petrush.Lib.CText
open Petrush.Lib.Run
open Petrush.Lib.Stdlib
open Petrush.Mid.Ast
open Petrush.Mid.Builtins
open Petrush.Mid.Dispatcher
open Petrush.Mid.Expand
open Petrush.Mid.State
open Petrush.Mid.Trap
open Petrush.Verified.Dispositions (Numbered lt_of_numbered recordOf)
open Petrush.Verified.Invariants
open Petrush.Verified.Record
open Petrush.Verified.Traversal
open Petrush.Verified.Unwinding

/-! ## The property and the condition -/

/-- The caller of the innermost call. -/
def caller : List Frame → Option (List Frame)
  | [] => none
  | .call :: frames => some frames
  | _ :: frames => caller frames

/-- What the code is part of inside that call. -/
def inner (frames : List Frame) : List Frame := frames.takeWhile (· != .call)

/-- The return that the process is carrying out: the last one, until its call ends. -/
def returnIn (proc : Proc) : List Entry → Option Entry
  | [] => none
  | e :: past =>
      if e.proc = proc then
        match e.event with
        | .returned _ => some e
        | .callEnd _ => (returnIn proc past).filter fun r => caller r.frames != some e.frames
        | _ => returnIn proc past
      else returnIn proc past

/-- An action begins. -/
def begins : Event → Bool
  | .trapAction _ | .exitAction => true
  | _ => false

/-- A return, or the end of a call. -/
def marks : Event → Bool
  | .returned _ | .callEnd _ => true
  | _ => false

/-- The status that `return` gives. -/
def returnCode : List Text → Option Int
  | [] => some 0
  | [arg] => (parseLong arg).map (· % 256)
  | _ => none

/-- What an entry says of a return. -/
structure Unwound (e : Entry) (past : List Entry) : Prop where
  /-- No command is dispatched before the call has ended. -/
  command : dispatches e.event = true → returnIn e.proc past = none
  /-- The call has the status of the return. -/
  status : ∀ status r, e.event = .callEnd status → returnIn e.proc past = some r →
    caller r.frames = some e.frames → r.event = .returned status
  /-- That is what its argument says. -/
  code : ∀ code, e.event = .returned code → ∃ x rest args, past = x :: rest ∧ x.proc = e.proc ∧
    x.event = .builtin ("return".toList :: args) ∧ returnCode args = some code

/-- What a return needs. -/
structure Direct (e : Entry) (past : List Entry) : Prop where
  /-- There is no file and no poll between two items between it and its call. -/
  path : ∀ code, e.event = .returned code → .source ∉ inner e.frames ∧
    .script ∉ inner e.frames ∧ .between ∉ inner e.frames
  /-- No action begins while it is being carried out. -/
  action : begins e.event = true → returnIn e.proc past = none

/-! ## The record -/

section ReturnIn

variable {proc : Proc} {past : List Entry} {e r : Entry}

theorem returnIn_other (h : e.proc ≠ proc) : returnIn proc (e :: past) = returnIn proc past :=
  if_neg h

/-- Most notes are not about a return. -/
theorem returnIn_steady (h : marks e.event = false) :
    returnIn proc (e :: past) = returnIn proc past := by
  rw [returnIn]
  split
  · cases hevent : e.event <;> rw [hevent] at h <;> first | rfl | contradiction
  · rfl

theorem returnIn_returned {code : Int} (hproc : e.proc = proc) (h : e.event = .returned code) :
    returnIn proc (e :: past) = some e := by
  rw [returnIn, if_pos hproc, h]

theorem returnIn_callEnd {status : Int} (hproc : e.proc = proc) (h : e.event = .callEnd status) :
    returnIn proc (e :: past) =
      (returnIn proc past).filter fun r => caller r.frames != some e.frames := by
  rw [returnIn, if_pos hproc, h]

/-- The return of children is theirs. -/
theorem returnIn_below {l : List Entry} {c : Child × Nat} (h : ∀ e ∈ l, c :: proc <:+ e.proc) :
    returnIn proc (l ++ past) = returnIn proc past := by
  induction l with
  | nil => rfl
  | cons e l ih =>
      rw [List.forall_mem_cons] at h
      have hne : e.proc ≠ proc := by
        intro heq
        have hlen := h.1.length_le
        rw [heq] at hlen
        exact absurd hlen (Nat.not_succ_le_self _)
      rw [List.cons_append, returnIn_other hne, ih h.2]

/-- A process that is only starting has not returned. -/
theorem returnIn_none (h : ∀ e ∈ past, e.proc ≠ proc) : returnIn proc past = none := by
  induction past with
  | nil => rfl
  | cons e past ih =>
      rw [List.forall_mem_cons] at h
      rw [returnIn_other h.1, ih h.2]

/-- It is an entry of the record. -/
theorem returnIn_mem (h : returnIn proc past = some r) : r ∈ past := by
  induction past with
  | nil => contradiction
  | cons e past ih =>
      rw [returnIn] at h
      split at h
      · split at h
        · rw [← Option.some.inj h]
          exact List.mem_cons_self
        · exact List.mem_cons_of_mem _ (ih (Option.filter_eq_some_iff.mp h).1)
        · exact List.mem_cons_of_mem _ (ih h)
      · exact List.mem_cons_of_mem _ (ih h)

end ReturnIn

theorem caller_append {frames above : List Frame} (h : .call ∉ above) :
    caller (above ++ frames) = caller frames := by
  induction above with
  | nil => rfl
  | cons frame above ih =>
      rw [List.mem_cons, not_or] at h
      rw [List.cons_append]
      cases frame with
      | call => exact absurd rfl h.1
      | _ => exact ih h.2

theorem inner_append {frames above : List Frame} (h : .call ∉ above) :
    inner (above ++ frames) = above ++ inner frames := by
  apply List.takeWhile_append_of_pos
  intro frame hframe
  rw [bne_iff_ne]
  rintro rfl
  exact h hframe

/-! ## What a list finds and leaves -/

/-- No return is being carried out. -/
structure Free (s : Shell) : Prop where
  dated : Dated s
  none : returnIn s.proc s.log = none

/-- One that is being carried out came from these frames, and the flag is set. -/
def Bound (frames : List Frame) (s : Shell) : Prop :=
  ∀ r, returnIn s.proc s.log = some r → s.returning = true ∧
    r.event = .returned s.returnStatus ∧ ∃ above, r.frames = above ++ frames ∧ .call ∉ above

structure Done (s : Shell) : Prop where
  dated : Dated s
  bound : Bound s.frames s

/-- What is shown of an entry. -/
def Shown (e : Entry) (past : List Entry) : Prop := Unwound e past ∧ Numbered e past

theorem Free.bound {s : Shell} (h : Free s) (frames : List Frame) : Bound frames s := by
  intro r hr
  rw [h.none] at hr
  contradiction

theorem Free.done {s : Shell} (h : Free s) : Done s := ⟨h.dated, h.bound _⟩

theorem Done.free {s : Shell} (h : Done s) (hreturning : s.returning = false) : Free s := by
  refine ⟨h.dated, ?_⟩
  cases hr : returnIn s.proc s.log with
  | none => rfl
  | some r =>
      have hset := (h.bound r hr).1
      rw [hreturning] at hset
      contradiction

/-- A return that is allowed has passed through no file and no poll between items. -/
theorem Done.free_of_frame {s : Shell} {frame : Frame} {frames : List Frame}
    (hc : Every Direct s.log) (h : Done s) (hframes : s.frames = frame :: frames)
    (hframe : frame = .source ∨ frame = .script ∨ frame = .between) : Free s := by
  refine ⟨h.dated, ?_⟩
  cases hr : returnIn s.proc s.log with
  | none => rfl
  | some r =>
      obtain ⟨-, hevent, above, habove, hcall⟩ := h.bound r hr
      obtain ⟨past, hdirect⟩ := hc.mem (returnIn_mem hr)
      obtain ⟨hsource, hscript, hbetween⟩ := hdirect.path _ hevent
      have hinner : inner r.frames = above ++ inner (frame :: frames) := by
        rw [habove, hframes, inner_append hcall]
      have hmem : frame ∈ inner r.frames := by
        rw [hinner]
        rcases hframe with rfl | rfl | rfl <;> simp [inner]
      rcases hframe with rfl | rfl | rfl
      · exact absurd hmem hsource
      · exact absurd hmem hscript
      · exact absurd hmem hbetween

/-! ## Small steps -/

theorem returnIn_noted {s : Shell} {e : Event} (h : marks e = false) :
    returnIn (noted e s).proc (noted e s).log = returnIn s.proc s.log :=
  returnIn_steady (e := s.entry e) h

/-- What is shown of a note that is no return and no end of a call. -/
theorem shown_noted {s : Shell} {e : Event} (hdated : Dated s) (h : marks e = false)
    (hcommand : dispatches e = true → returnIn s.proc s.log = none) : Shown (s.entry e) s.log := by
  refine ⟨⟨hcommand, ?_, ?_⟩, hdated⟩
  · intro status r he
    obtain rfl : e = .callEnd status := he
    contradiction
  · intro code he
    obtain rfl : e = .returned code := he
    contradiction

theorem Free.noted {s : Shell} {e : Event} (hs : Free s) (h : marks e = false) :
    Free (noted e s) ∧ Shown (s.entry e) s.log := by
  refine ⟨⟨hs.dated.noted e, ?_⟩, shown_noted hs.dated h fun _ => hs.none⟩
  rw [returnIn_noted h, hs.none]

theorem Bound.noted {frames : List Frame} {s : Shell} {e : Event} (hs : Bound frames s)
    (h : marks e = false) : Bound frames (noted e s) := by
  intro r hr
  rw [returnIn_noted h] at hr
  exact hs r hr

theorem Done.noted {s : Shell} {e : Event} (hs : Done s) (h : marks e = false)
    (hcommand : dispatches e = false) : Done (noted e s) ∧ Shown (s.entry e) s.log := by
  refine ⟨⟨hs.dated.noted e, hs.bound.noted h⟩, shown_noted hs.dated h fun he => ?_⟩
  rw [hcommand] at he
  contradiction

theorem Free.same {s t : Shell} (h : place t = place s) (hs : Free s) : Free t := by
  have hlog : t.log = s.log := congrArg Place.log h
  have hproc : t.proc = s.proc := congrArg Place.proc h
  exact ⟨by rw [Dated, hproc, hlog]; exact hs.dated, by rw [hproc, hlog]; exact hs.none⟩

theorem Done.same {s t : Shell} (h : mark t = mark s) (hs : Done s) : Done t := by
  have hlog : t.log = s.log := congrArg (·.log) h
  have hproc : t.proc = s.proc := congrArg (·.proc) h
  have hframes : t.frames = s.frames := congrArg (·.frames) h
  have hreturning : t.returning = s.returning := congrArg Mark.returning h
  have hstatus : t.returnStatus = s.returnStatus := congrArg Mark.returnStatus h
  refine ⟨by rw [Dated, hproc, hlog]; exact hs.dated, fun r hr => ?_⟩
  rw [hproc, hlog] at hr
  rw [hreturning, hstatus, hframes]
  exact hs.bound r hr

/-- Back from a part that is no call. -/
theorem Bound.pop {frames : List Frame} {frame : Frame} {s : Shell} (hframe : frame ≠ .call)
    (h : Bound (frame :: frames) s) : Bound frames s := by
  intro r hr
  obtain ⟨hset, hevent, above, habove, hcall⟩ := h r hr
  refine ⟨hset, hevent, above ++ [frame], ?_, ?_⟩
  · rw [habove, List.append_assoc]
    rfl
  · rw [List.mem_append, not_or]
    exact ⟨hcall, fun hmem => hframe (List.mem_singleton.mp hmem).symm⟩

/-! ## Children -/

theorem free_born {child : Child} {prepare : Shell → Shell} (hp : Prepares child prepare)
    {s : Shell} (hs : Free s) (hg : Every Shown s.log) : Free (born child prepare s) := by
  have hnew := hs.dated.born hp (hg.imp fun _ _ h => h.2)
  exact ⟨hnew.1, returnIn_none hnew.2⟩

theorem free_back {s : Shell} {child : Child} {l log : List Entry}
    (hl : ∀ e ∈ l, (child, s.log.length) :: s.proc <:+ e.proc)
    (hlog : log = l ++ s.entry (.forked child s.log.length) :: s.log) (hs : Free s) :
    Free { noted (.forked child s.log.length) s with log := log } := by
  refine ⟨hs.dated.back hlog, ?_⟩
  show returnIn s.proc log = none
  rw [hlog, returnIn_below hl, returnIn_steady rfl, hs.none]

/-- **The small steps keep track of a return.** -/
theorem returns_track : Tracks Direct Shown Free fun _ => Done where
  free := Free.same
  done := Done.same
  finished _ hs := hs.done
  test hs hreturning _ := hs.free hreturning
  returned hs _ := hs
  note he hs := hs.noted (by
    rename_i e
    cases e <;> first | rfl | contradiction)
  item _ hs := hs.noted rfl rfl
  born hp hs hg := free_born hp hs hg
  back := free_back

/-! ## Polls -/

/-- Inside a poll; the return that is being carried out came from frames above some. -/
structure Polled (frames above : List Frame) (s : Shell) : Prop where
  dated : Dated s
  frames : s.frames = frames
  bound : Bound above s

theorem Polled.same {frames above : List Frame} {s t : Shell} (h : mark t = mark s)
    (hs : Polled frames above s) : Polled frames above t := by
  have hlog : t.log = s.log := congrArg (·.log) h
  have hproc : t.proc = s.proc := congrArg (·.proc) h
  have hframes : t.frames = s.frames := congrArg (·.frames) h
  have hreturning : t.returning = s.returning := congrArg Mark.returning h
  have hstatus : t.returnStatus = s.returnStatus := congrArg Mark.returnStatus h
  refine ⟨by rw [Dated, hproc, hlog]; exact hs.dated, hframes.trans hs.frames, fun r hr => ?_⟩
  rw [hproc, hlog] at hr
  rw [hreturning, hstatus]
  exact hs.bound r hr

theorem Done.polled {frames : List Frame} {s : Shell} (hs : Done s) (h : s.frames = frames) :
    Polled frames frames s := ⟨hs.dated, h, h ▸ hs.bound⟩

section Runs

variable {O : Outside} {dl : PList → Prog Shell (Int × PList)}
variable (hdl : ∀ l, Runs Direct Shown Free (dl l) fun _ => Done)

include hdl

/-- An action begins with no return in progress, and leaves its own at most. -/
theorem runs_action {frames above : List Frame}
    (habove : ∀ s, Bound frames s → Bound above s) (sig : Nat) (act : Text) :
    Runs Direct Shown (Polled frames above) (runTrapAction dl sig act)
      fun _ => Polled frames above := by
  have htracks := returns_track
  apply Runs.look
  intro v
  refine Runs.pre ?_ fun _ hs => hs.1
  apply Runs.bind (M := fun _ s => Free s ∧ s.frames = frames)
  · apply Runs.emit
    intro s hc hs _
    have hfree : Free s := ⟨hs.dated, hc.head.action rfl⟩
    have hnoted := hfree.noted (e := .trapAction sig) rfl
    exact ⟨⟨hnoted.1, hs.frames⟩, hnoted.2⟩
  · intro _
    have hrun : Runs Direct Shown Free (exempt (runText dl act)) fun _ => Done :=
      htracks.exempt (J := fun _ => 0) ((htracks.runText hdl act).post fun _ _ hs => hs.choose_spec)
    apply Runs.bind (M := fun _ s => Free s ∧ s.frames = frames)
    · exact Runs.modify (fun _ => rfl) (fun _ => rfl) (fun _ => rfl) fun s hs =>
        ⟨hs.1.same (s := s) rfl, hs.2⟩
    · intro _
      apply Runs.bind (hrun.framed frames)
      intro _
      refine Runs.modify (fun _ => rfl) (fun _ => rfl) (fun _ => rfl) fun s hs => ?_
      have hpolled := hs.1.polled hs.2
      exact Polled.same (s := s) rfl ⟨hpolled.dated, hpolled.frames, habove s hpolled.bound⟩

theorem runs_poll {frame : Frame} (hframe : frame ≠ .call) :
    Runs Direct Shown Done (trapsPoll O dl frame) fun _ => Done := by
  apply Runs.atFrames
  intro frames
  have hpoll : Runs Direct Shown (Polled frames frames) (trapsPoll O dl frame)
      fun _ => Polled frames frames := by
    apply runs_trapsPoll (P := Polled (frame :: frames) frames) Polled.same Polled.same
      Polled.same
    · exact fun t _ ht => ⟨⟨ht.dated.noted _, ht.frames, ht.bound.noted rfl⟩,
        shown_noted ht.dated rfl fun he => absurd he Bool.false_ne_true⟩
    · exact runs_action hdl fun _ hb => hb.pop hframe
    · exact fun _ ht => ht
    · exact fun t ht => ⟨ht.dated, congrArg _ ht.frames, ht.bound⟩
    · exact fun t u _ _ ht hu => ⟨hu.dated, ht.frames, hu.bound⟩
  refine hpoll.imp (fun s hs => hs.1.polled hs.2) fun _ s hs => ⟨hs.dated, ?_⟩
  rw [hs.frames]
  exact hs.bound

/-- Between two items a poll leaves no return in progress. -/
theorem runs_between :
    Runs Direct Shown Free (trapsPoll O dl .between) fun _ => Free := by
  apply Runs.atFrames
  intro frames
  apply runs_trapsPoll (P := Polled (.between :: frames) (.between :: frames))
    (fun hm hs => ⟨hs.1.same (place_of_mark hm), (congrArg (·.frames) hm).trans hs.2⟩) Polled.same
    fun hm => Free.same (place_of_mark hm)
  · exact fun t _ ht => ⟨⟨ht.dated.noted _, ht.frames, ht.bound.noted rfl⟩,
      shown_noted ht.dated rfl fun he => absurd he Bool.false_ne_true⟩
  · exact runs_action hdl fun _ hb => hb
  · exact fun _ ht => ht.1
  · exact fun t ht => ⟨ht.1.dated, congrArg _ ht.2, ht.1.bound _⟩
  · intro t u _ hc ht hu
    have hdone : Done u := ⟨hu.dated, by rw [hu.frames]; exact hu.bound⟩
    have hfree := hdone.free_of_frame hc hu.frames (Or.inr (Or.inr rfl))
    exact ⟨hfree.dated, hfree.none⟩

/-! ## Calls -/

/-- The body of a call is left; its return goes to the caller. -/
def Returning (status : Int) (s : Shell) : Prop :=
  Dated s ∧ ∀ r, returnIn s.proc s.log = some r →
    r.event = .returned status ∧ caller r.frames = some s.frames

omit hdl in
/-- **The end of a call ends its return**, with its status. -/
theorem runs_callEnd (status : Int) :
    Runs Direct Shown (Returning status) (emit (.callEnd status)) fun _ => Free := by
  apply Runs.emit
  intro s _ hs _
  have hfilter : returnIn (noted (.callEnd status) s).proc (noted (.callEnd status) s).log = none := by
    have hends : returnIn s.proc (s.entry (.callEnd status) :: s.log) = _ :=
      returnIn_callEnd (e := s.entry (.callEnd status)) rfl rfl
    show returnIn s.proc (s.entry (.callEnd status) :: s.log) = none
    rw [hends]
    cases hr : returnIn s.proc s.log with
    | none => rfl
    | some r =>
        have hcaller := (hs.2 r hr).2
        simp [Option.filter, hcaller, Shell.entry]
  refine ⟨⟨hs.1.noted _, hfilter⟩, ⟨?_, ?_, ?_⟩, hs.1⟩
  · intro he
    contradiction
  · intro st r he hr _
    obtain rfl : status = st := Event.callEnd.inj he
    exact (hs.2 r hr).1
  · intro code he
    contradiction

theorem runs_callFn (name : Text) (args : List Text) (body : PList) :
    Runs Direct Shown Free (callFn dl name args body) fun _ => Free := by
  apply Runs.look
  intro old
  refine Runs.pre ?_ fun _ hs => hs.1
  apply Runs.bind (returns_track.tell rfl)
  intro _
  refine returns_track.same (fun _ => rfl) ?_
  -- Behind the body the flag tells whether there is a return, and its status.
  have hbody : Runs Direct Shown Free (within .call (dl body)) fun _ s => Dated s ∧
      ∀ r, returnIn s.proc s.log = some r → s.returning = true ∧
        r.event = .returned s.returnStatus ∧ caller r.frames = some s.frames := by
    apply Runs.within (hdl body)
    · exact fun s hs => ⟨hs.dated, hs.none⟩
    · intro s r t hst _ _ ht
      refine ⟨ht.dated, fun x hx => ?_⟩
      obtain ⟨hset, hevent, above, habove, hcall⟩ := ht.bound x hx
      refine ⟨hset, hevent, ?_⟩
      rw [habove, caller_append hcall, hst.frames]
      rfl
  apply Runs.bind hbody
  intro r
  apply Runs.look
  intro v
  apply Runs.bind (M := fun _ => Returning (if v.returning then v.returnStatus else r.1))
  · refine Runs.modify (fun _ => rfl) (fun _ => rfl) (fun _ => rfl) ?_
    rintro s ⟨hs, rfl⟩
    refine ⟨hs.1, fun x hx => ?_⟩
    obtain ⟨hset, hevent, hcaller⟩ := hs.2 x hx
    rw [id_eq, if_pos hset]
    exact ⟨hevent, hcaller⟩
  · intro _
    apply Runs.bind (runs_callEnd _)
    exact fun _ => Runs.pure fun _ hs => hs

/-! ## Builtins -/

/-- The last note of the process is that a builtin begins. -/
def Begun (argv : List Text) (s : Shell) : Prop :=
  Free s ∧ ∃ x rest, s.log = x :: rest ∧ x.proc = s.proc ∧ x.event = .builtin argv

omit hdl in
theorem runs_returned {argv args : List Text} {code : Int}
    (hargv : argv = "return".toList :: args) (hcode : returnCode args = some code) :
    Runs Direct Shown (Begun argv) (do
      emit (.returned code)
      modify fun s => { s with returning := true, returnStatus := code }
      pure code : Prog Shell Int) fun _ => Done := by
  intro s
  have hlog : (noted (.returned code) s).log = s.entry (.returned code) :: s.log := rfl
  have hnow : returnIn s.proc (s.entry (.returned code) :: s.log) =
      some (s.entry (.returned code)) := returnIn_returned (e := s.entry (.returned code)) rfl rfl
  refine ⟨(Stays.noted (.returned code) s).trans (Stays.same rfl rfl rfl), fun _ hs hg => ?_⟩
  obtain ⟨hfree, x, rest, hlast, hproc, hevent⟩ := hs
  refine ⟨⟨hfree.dated.noted _, fun r hr => ?_⟩, .cons ⟨⟨?_, ?_, ?_⟩, hfree.dated⟩ hg⟩
  · have hr : returnIn s.proc (s.entry (.returned code) :: s.log) = some r := hr
    rw [hnow] at hr
    obtain rfl := Option.some.inj hr
    exact ⟨rfl, rfl, [], rfl, List.not_mem_nil⟩
  · intro he
    contradiction
  · intro status r he
    contradiction
  · intro c he
    obtain rfl : code = c := Event.returned.inj he
    exact ⟨x, rest, args, hlast, hproc, hargv ▸ hevent, hcode⟩

omit hdl in
theorem runs_builtinReturn {argv args : List Text} (hargv : argv = "return".toList :: args) :
    Runs Direct Shown (Begun argv) (builtinReturn args) fun _ => Done := by
  have hfail : Runs Direct Shown (Begun argv) (pure 1 : Prog Shell Int) fun _ => Done :=
    Runs.pure fun _ hs => hs.1.done
  apply Runs.look
  intro depth
  refine Runs.pre ?_ fun _ hs => hs.1
  apply Runs.ite
  · exact fun _ => hfail
  · intro _
    split
    · exact runs_returned hargv rfl
    · split
      · exact hfail
      · next arg v hnumber =>
          exact runs_returned hargv (by simp [returnCode, hnumber])
    · exact hfail

omit hdl in
/-- An abort is no return. -/
theorem runs_raise {P : Shell → Prop} (hP : ∀ s, P s → Done s)
    (habort : ∀ s, P s → P (noted .abort s))
    (hset : ∀ s, P s → P { s with shellAbort := true }) :
    Runs Direct Shown P shellAbortRaise fun _ => P := by
  apply Runs.bind (M := fun _ => P)
  · exact Runs.emit fun s _ hs _ => ⟨habort s hs, ((hP s hs).noted (e := .abort) rfl rfl).2⟩
  · exact fun _ => Runs.modify (fun _ => rfl) (fun _ => rfl) (fun _ => rfl) hset

omit hdl in
theorem free_raise : Runs Direct Shown Free shellAbortRaise fun _ => Free :=
  runs_raise (fun _ hs => hs.done) (fun _ hs => (hs.noted (e := .abort) rfl).1)
    fun s hs => hs.same (s := s) rfl

omit hdl in
/-- A list that is run inside a part that is no call. -/
theorem runs_within {α : Type} {frame : Frame} {c : Prog Shell α}
    (hc : Runs Direct Shown Free c fun _ => Done) (hframe : frame ≠ .call) :
    Runs Direct Shown Free (within frame c) fun _ => Done := by
  apply Runs.within hc
  · exact fun s hs => ⟨hs.dated, hs.none⟩
  · intro s _ t hst _ _ ht
    refine ⟨ht.dated, Bound.pop hframe ?_⟩
    have hbound := ht.bound
    rw [hst.frames] at hbound
    exact hbound

theorem runs_exitTrap (status : Int) :
    Runs Direct Shown Done (runExitTrap O dl status) fun _ => Done := by
  have htracks := returns_track
  apply runs_runExitTrap status Done.same (fun hm => Free.same (place_of_mark hm)) Done.same
    fun _ hs => hs
  · exact runs_poll hdl (by simp)
  · exact fun s b hs => hs.noted rfl rfl
  · apply Runs.emit
    intro s hc hs _
    have hfree : Free s := ⟨hs.dated, hc.head.action rfl⟩
    exact hfree.noted rfl
  · intro act
    apply htracks.exempt (J := fun _ => 0)
    apply runs_within _ (by simp)
    exact (htracks.runText hdl act).post fun _ _ hs => hs.choose_spec

theorem runs_builtinExit (args : List Text) :
    Runs Direct Shown Free (builtinExit O dl args) fun _ => Done := by
  have hended : ∀ code : Int, Runs Direct Shown Done (do
      emit (.ended code)
      exit code : Prog Shell Int) fun _ => Done := fun code =>
    Runs.bind (M := fun _ => Done) (Runs.emit fun s _ hs _ => hs.noted rfl rfl) fun _ =>
      Runs.exit code
  have hleave : ∀ status : Int, Runs Direct Shown Free (do
      let code ← runExitTrap O dl status
      emit (.ended code)
      exit code : Prog Shell Int) fun _ => Done := fun status =>
    (Runs.bind (runs_exitTrap hdl status) hended).pre fun _ hs => hs.done
  apply Runs.bind (returns_track.tell rfl)
  intro _
  cases args with
  | nil => exact hleave 0
  | cons arg args =>
      dsimp only
      split
      · exact (hended 2).pre fun _ hs => hs.done
      · exact hleave _

/-! ## Files -/

/-- **The lines of a file** are run one after the other: no return gets behind one. -/
theorem runs_file {frame : Frame} (hframe : frame = .source ∨ frame = .script) (text : Text) :
    Runs Direct Shown Free (within frame (runFileLines dl text)) fun _ => Free := by
  apply Runs.atFrames
  intro frames
  have hready : ∀ (list : PList) (status : Int),
      Runs Direct Shown (fun s => Free s ∧ s.frames = frame :: frames) (dispatchReady dl list status)
        fun _ s => Free s ∧ s.frames = frame :: frames := by
    intro list status
    have hrun : Runs Direct Shown Free (dispatchReady dl list status) fun _ => Done := by
      apply Runs.ite
      · exact fun _ => Runs.pure fun _ hs => hs.done
      · intro _
        apply Runs.bind (hdl list)
        exact fun _ => Runs.pure fun _ hs => hs
    apply (hrun.framed (frame :: frames)).learn
    intro _ s hc hs
    refine ⟨hs.1.free_of_frame hc hs.2 ?_, hs.2⟩
    exact hframe.imp id Or.inl
  have htake : ∀ status : Int,
      Runs Direct Shown (fun s => Free s ∧ s.frames = frame :: frames) takeShellAbort
        fun abort s => (abort = true → Free s) ∧
          (abort = false → Free s ∧ s.frames = frame :: frames) := by
    intro _
    apply Runs.look
    intro a
    refine Runs.pre ?_ fun _ hs => hs.1
    apply Runs.bind (M := fun _ s => Free s ∧ s.frames = frame :: frames)
    · exact Runs.modify (fun _ => rfl) (fun _ => rfl) (fun _ => rfl) fun s hs =>
        ⟨hs.1.same (s := s) rfl, hs.2⟩
    · exact fun _ => Runs.pure fun _ hs => ⟨fun _ => hs.1, fun _ => hs⟩
  have hlines : Runs Direct Shown (fun s => Free s ∧ s.frames = frame :: frames)
      (runFileLines dl text) fun _ => Free := by
    apply Runs.look
    intro v
    refine Runs.pre ?_ fun _ hs => hs.1
    apply Runs.bind (M := fun _ s => Free s ∧ s.frames = frame :: frames)
    · apply Runs.emit
      intro s _ hs _
      have hnoted := hs.1.noted (e := .lines v.shellAbort) rfl
      exact ⟨⟨hnoted.1, hs.2⟩, hnoted.2⟩
    · intro _
      apply Runs.bind (M := fun _ s => Free s ∧ s.frames = frame :: frames)
      · exact Runs.modify (fun _ => rfl) (fun _ => rfl) (fun _ => rfl) fun s hs =>
          ⟨hs.1.same (s := s) rfl, hs.2⟩
      · intro _
        exact runs_runLines (Q := fun _ => Free) (fun _ _ hs => hs.1) hready htake _ .command 0
  apply Runs.within hlines
  · exact fun s hs => ⟨⟨hs.1.dated, hs.1.none⟩, congrArg _ hs.2⟩
  · exact fun _ _ t _ _ _ ht => ⟨ht.dated, ht.none⟩

theorem runs_sourceFile (path : Text) :
    Runs Direct Shown Free (sourceFile O dl path) fun _ => Free := by
  apply Runs.look
  intro v
  refine Runs.pre ?_ fun _ hs => hs.1
  apply Runs.ite
  · exact fun _ => Runs.pure fun _ hs => hs
  · intro _
    split
    · exact Runs.pure fun _ hs => hs
    · refine returns_track.same (fun _ => rfl) ?_
      apply Runs.bind (runs_file hdl (Or.inl rfl) _)
      intro status
      refine returns_track.same (fun _ => rfl) ?_
      exact Runs.pure fun _ hs => hs

theorem runs_callBuiltin (cmd : Cmd) :
    Runs Direct Shown Free (callBuiltin O dl cmd) fun _ => Done := by
  have hbegin : Runs Direct Shown Free (emit (.builtin (words cmd))) fun _ => Begun (words cmd) := by
    apply Runs.emit
    intro s _ hs _
    have hnoted := hs.noted (e := .builtin (words cmd)) rfl
    exact ⟨⟨hnoted.1, s.entry (.builtin (words cmd)), s.log, rfl, rfl, rfl⟩, hnoted.2⟩
  apply Runs.bind hbegin
  intro _
  have hpost : ∀ {c : Prog Shell Int}, Runs Direct Shown Free c (fun _ => Done) →
      Runs Direct Shown (Begun (words cmd)) c fun _ => Done := fun hc => hc.pre fun _ hs => hs.1
  have habort : Runs Direct Shown Free shellAbortRaise fun _ => Done :=
    free_raise.post fun _ _ hs => hs.done
  apply runBuiltin_rule (K := fun _ c => Runs Direct Shown Free c fun _ => Free)
    returns_track.quiet fun hc => hpost (hc.post fun _ _ hs => hs.done)
  · intro hname
    have hargv : words cmd = "return".toList :: (words cmd).tail := by
      cases hwords : words cmd with
      | nil =>
          rw [hwords] at hname
          contradiction
      | cons name args =>
          rw [hwords] at hname
          rw [List.tail_cons, ← show name = "return".toList from hname]
    exact runs_builtinReturn hargv
  · exact fun args => hpost (returns_track.builtinSet habort args)
  · exact fun args => hpost (returns_track.builtinTrap habort args)
  · exact fun args => hpost (runs_builtinExit hdl args)
  · intro args
    apply hpost
    unfold builtinSource
    split
    · exact (runs_sourceFile hdl _).post fun _ _ hs => hs.done
    · exact Runs.pure fun _ hs => hs.done

end Runs

/-- **Every return unwinds** as far as the condition goes. -/
theorem returns_unwinds (O : Outside) : Unwinds O Direct Shown Free fun _ => Done where
  toTracks := returns_track
  raise _ := by
    apply runs_raise fun _ hs => hs.1
    · exact fun s hs => ⟨(hs.1.noted (e := .abort) rfl rfl).1, hs.2⟩
    · exact fun s hs => ⟨⟨hs.1.dated, hs.1.bound⟩, hs.2⟩
  abort := free_raise.post fun _ _ hs => hs.done
  after hdl := (runs_poll hdl (by simp)).imp (fun _ hs => hs.done) fun _ _ hs _ => hs
  waits hdl turns := by
    have hpoll := runs_poll (O := O) hdl (show Frame.waiting ≠ .call by simp)
    exact (Runs.forEach (fun _ => hpoll) turns).imp (fun _ hs => hs.done) fun _ _ hs _ => hs
  between hdl := runs_between hdl
  call hdl name args body := (runs_callFn hdl name args body).post fun _ _ hs => hs.done
  builtin hdl cmd := runs_callBuiltin hdl cmd

/-! ## Whole runs -/

theorem runs_script (O : Outside) (n : Nat) (path : Text) :
    Runs Direct Shown Free (script O n path) fun _ => Done := by
  have hdl : ∀ l, Runs Direct Shown Free (dispatchList O n l) fun _ => Done :=
    (returns_unwinds O).dispatchList n
  have hscript : Runs Direct Shown Free (runScript O (dispatchList O n) path) fun _ => Done := by
    have hfail : ∀ code : Int, Runs Direct Shown Free (pure code) fun _ => Done := fun code =>
      Runs.pure fun _ hs => hs.done
    apply Runs.look
    intro v
    refine Runs.pre ?_ fun _ hs => hs.1
    apply Runs.ite
    · exact fun _ => hfail 1
    · intro _
      split
      · exact hfail _
      · refine returns_track.same (fun _ => rfl) ?_
        apply Runs.bind (runs_file hdl (Or.inr rfl) _)
        intro status
        refine returns_track.same (fun _ => rfl) ?_
        exact (runs_exitTrap hdl status).pre fun _ hs => hs.done
  apply Runs.bind hscript
  intro status
  apply Runs.bind (M := fun _ => Done) (Runs.emit fun s _ hs _ => hs.noted rfl rfl)
  exact fun _ => Runs.exit status

/-- **A return unwinds to its call**, in every run of a script: when no return passes
through a file or a poll between two items, and no action begins while one is carried out,
no command is dispatched between a return and the end of its call, and the call has the
status that is asked for. -/
theorem returns_unwind (O : Outside) (n : Nat) (path : Text) (ctx : Ctx) (disps : Disps)
    (h : Every Direct (script O n path (.start ctx disps)).state.log) :
    Every Unwound (script O n path (.start ctx disps)).state.log := by
  have hstart : Free (.start ctx disps) := ⟨fun _ hc => absurd hc List.not_mem_nil, rfl⟩
  exact ((runs_script O n path).every hstart .nil h).imp fun _ _ hs => hs.1

def isReturned : Event → Bool
  | .returned _ => true
  | _ => false

/-- What is returned from a function itself, without any action. -/
theorem direct_of_idle {e : Entry} (hpath : isReturned e.event = true → inner e.frames = [])
    (haction : begins e.event = false) (past : List Entry) : Direct e past := by
  refine ⟨fun code he => ?_, fun he => ?_⟩
  · rw [hpath (by rw [he]; rfl)]
    exact ⟨List.not_mem_nil, List.not_mem_nil, List.not_mem_nil⟩
  · rw [haction] at he
    contradiction

theorem returns_unwind_if :
    Every Unwound (recordOf "f() { if true; then return 259; fi; echo; }\nf; echo\n".toList []) := by
  have hidle : ∀ e ∈ recordOf "f() { if true; then return 259; fi; echo; }\nf; echo\n".toList [],
      (isReturned e.event = true → inner e.frames = []) ∧ begins e.event = false := by
    decide +kernel
  unfold recordOf at hidle ⊢
  apply returns_unwind
  exact Every.of_forall fun e he past => direct_of_idle (hidle e he).1 (hidle e he).2 past

/-- A script whose function sources a file, and that file. -/
def sourcing : Outside :=
  { Outside.quiet with
    script := fun _ path =>
      .ok (if path = ['s'] then "f() { . lib; }\nf\n".toList else "return 3\necho\n".toList) }

/-- **A return in a sourced file goes on with the next line** of the file. -/
theorem sourced_goesOn :
    ¬ Every Unwound (script sourcing 4 ['s']
      (.start ⟨fun _ => none, [], [], false, false, false, 0⟩ fun _ => .dfl)).state.log := by
  intro h
  have hcommand := h.imp (Q := fun e past => dispatches e.event = true →
    (returnIn e.proc past).isNone = true) fun e past he hd =>
      Option.isNone_iff_eq_none.mpr (he.command hd)
  revert hcommand
  decide +kernel

end Petrush.Verified.Returns

import Petrush.Verified.Unwinding

/-!
# Unwinding an abort

A variable that is not set, an error of `set` or `trap` and `errexit` abort the script.
The abort is a flag: every loop over lists tests it, and the reader of a file takes it back
and ends.  A sourced file takes back an abort that its caller does not see, a poll for
signals between two items is not followed by a test, and behind an abort the actions of
the other signals are still run.  An abort that meets none of these is the last that a script
does before its end, however deep it was.

## Main results

* `aborts_halt` — no command behind an abort.
* `sourced_carriesOn` — an abort in a sourced file ends only the file.
-/

namespace Petrush.Verified.Aborts

open Petrush.Lib.CText
open Petrush.Lib.Run
open Petrush.Mid.Ast
open Petrush.Mid.Builtins
open Petrush.Mid.Dispatcher
open Petrush.Mid.Expand
open Petrush.Mid.State
open Petrush.Mid.Trap
open Petrush.Verified.Dispositions (Numbered recordOf)
open Petrush.Verified.Invariants
open Petrush.Verified.Record
open Petrush.Verified.Traversal
open Petrush.Verified.Unwinding

/-! ## The property and the condition -/

def isAbort : Event → Bool
  | .abort => true
  | _ => false

/-- The process has aborted what the frames are about. -/
def Aborted (proc : Proc) (frames : List Frame) (past : List Entry) : Prop :=
  ∃ r ∈ past, r.proc = proc ∧ isAbort r.event = true ∧ frames <:+ r.frames

/-- No command is dispatched in what has been aborted. -/
def Halted (e : Entry) (past : List Entry) : Prop :=
  dispatches e.event = true → ¬ Aborted e.proc e.frames past

def isTrapAction : Event → Bool
  | .trapAction _ => true
  | _ => false

/-- What an abort needs. -/
structure Contained (e : Entry) (past : List Entry) : Prop where
  /-- It is not raised in a sourced file or in a poll between two items. -/
  path : isAbort e.event = true → .source ∉ e.frames ∧ .between ∉ e.frames
  /-- No action of a signal begins behind it. -/
  action : isTrapAction e.event = true → ¬ Aborted e.proc e.frames past

/-! ## The record -/

section Aborted

variable {proc : Proc} {frames inside : List Frame} {past : List Entry} {e : Entry} {s t : Shell}

/-- What is inside of what has not been aborted has not been either. -/
theorem Aborted.outer (h : Aborted proc inside past) (hframes : frames <:+ inside) :
    Aborted proc frames past := by
  obtain ⟨r, hr, hproc, habort, hinside⟩ := h
  exact ⟨r, hr, hproc, habort, hframes.trans hinside⟩

theorem aborted_cons (h : isAbort e.event = false) :
    Aborted proc frames (e :: past) ↔ Aborted proc frames past := by
  simp [Aborted, h]

/-- The aborts of children are theirs. -/
theorem aborted_below {l : List Entry} {c : Child × Nat} (h : ∀ e ∈ l, c :: proc <:+ e.proc) :
    Aborted proc frames (l ++ past) ↔ Aborted proc frames past := by
  constructor
  · rintro ⟨r, hr, hproc, habort⟩
    rcases List.mem_append.mp hr with hl | hp
    · have hlen := (h r hl).length_le
      rw [hproc] at hlen
      exact absurd hlen (Nat.not_succ_le_self _)
    · exact ⟨r, hp, hproc, habort⟩
  · rintro ⟨r, hr, habort⟩
    exact ⟨r, List.mem_append_right l hr, habort⟩

theorem not_aborted_new (h : ∀ e ∈ past, e.proc ≠ proc) : ¬ Aborted proc frames past := by
  rintro ⟨r, hr, hproc, -⟩
  exact h r hr hproc

theorem Aborted.grew (hg : Grew s t) (h : Aborted proc frames s.log) :
    Aborted proc frames t.log := by
  obtain ⟨r, hr, habort⟩ := h
  rw [Aborted, hg.log]
  exact ⟨r, List.mem_append_right _ hr, habort⟩

/-- What a part of the run aborts is inside of it. -/
theorem Aborted.split (hg : Grew s t) (h : Aborted s.proc frames t.log) :
    Aborted s.proc frames s.log ∨
      ∃ r ∈ t.log, r.proc = s.proc ∧ isAbort r.event = true ∧ frames <:+ r.frames ∧
        s.frames <:+ r.frames := by
  obtain ⟨r, hr, hproc, habort, hframes⟩ := h
  have hmem := hr
  rw [hg.log] at hr
  rcases List.mem_append.mp hr with hl | hp
  · exact Or.inr ⟨r, hmem, hproc, habort, hframes, (hg.below r hl).2 hproc⟩
  · exact Or.inl ⟨r, hp, hproc, habort, hframes⟩

/-- It is inside of the frame that the part runs in. -/
theorem Aborted.inner {frame : Frame} (hg : Grew s t) (hframes : s.frames = frame :: frames)
    (hold : Aborted s.proc frames s.log → Aborted s.proc (frame :: frames) s.log)
    (h : Aborted s.proc frames t.log) : Aborted s.proc (frame :: frames) t.log := by
  rcases h.split hg with hs | ⟨r, hr, hproc, habort, -, hin⟩
  · exact (hold hs).grew hg
  · exact ⟨r, hr, hproc, habort, hframes ▸ hin⟩

theorem frame_unique {f g : Frame} {l : List Frame} (hf : f :: frames <:+ l)
    (hg : g :: frames <:+ l) : f = g := by
  have hsuffix := List.suffix_of_suffix_length_le hf hg (by simp)
  have heq := hsuffix.eq_of_length (by simp)
  exact (List.cons.inj heq).1

/-- What a part aborts is not in another one. -/
theorem not_aborted_apart {f g : Frame} (hg : Grew s t) (hframes : s.frames = f :: frames)
    (hne : f ≠ g) (hold : ¬ Aborted s.proc (g :: frames) s.log) :
    ¬ Aborted s.proc (g :: frames) t.log := by
  intro h
  rcases h.split hg with hs | ⟨r, -, -, -, hout, hin⟩
  · exact hold hs
  · rw [hframes] at hin
    exact hne (frame_unique hin hout)

end Aborted

/-! ## What a list finds and leaves -/

/-- Nothing that the code is part of has been aborted. -/
structure Free (s : Shell) : Prop where
  dated : Dated s
  none : ¬ Aborted s.proc s.frames s.log

/-- An abort is known. -/
structure Done (s : Shell) : Prop where
  dated : Dated s
  flag : Aborted s.proc s.frames s.log → s.shellAbort = true

def Shown (e : Entry) (past : List Entry) : Prop := Halted e past ∧ Numbered e past

theorem Free.done {s : Shell} (h : Free s) : Done s := ⟨h.dated, fun ha => absurd ha h.none⟩

theorem Done.free {s : Shell} (h : Done s) (habort : s.shellAbort = false) : Free s := by
  refine ⟨h.dated, fun ha => ?_⟩
  rw [h.flag ha] at habort
  contradiction

theorem Free.same {s t : Shell} (h : place t = place s) (hs : Free s) : Free t := by
  have hlog : t.log = s.log := congrArg Place.log h
  have hproc : t.proc = s.proc := congrArg Place.proc h
  have hframes : t.frames = s.frames := congrArg Place.frames h
  refine ⟨hs.dated.same h, ?_⟩
  rw [hlog, hproc, hframes]
  exact hs.none

theorem Done.same {s t : Shell} (h : mark t = mark s) (hs : Done s) : Done t := by
  have hlog : t.log = s.log := congrArg (·.log) h
  have hproc : t.proc = s.proc := congrArg (·.proc) h
  have hframes : t.frames = s.frames := congrArg (·.frames) h
  have habort : t.shellAbort = s.shellAbort := congrArg Mark.shellAbort h
  refine ⟨hs.dated.same (place_of_mark h), ?_⟩
  rw [hlog, hproc, hframes, habort]
  exact hs.flag

/-- What is shown of a note, whatever it is, when nothing has been aborted. -/
theorem Free.shown {s : Shell} (hs : Free s) (e : Event) : Shown (s.entry e) s.log :=
  ⟨fun _ => hs.none, hs.dated⟩

theorem shown_noted {s : Shell} {e : Event} (hs : Dated s) (he : dispatches e = false) :
    Shown (s.entry e) s.log := by
  refine ⟨fun hd => ?_, hs⟩
  rw [show dispatches e = true from hd] at he
  contradiction

theorem Free.noted {s : Shell} {e : Event} (hs : Free s) (he : isAbort e = false) :
    Free (noted e s) ∧ Shown (s.entry e) s.log := by
  refine ⟨⟨hs.dated.noted e, fun ha => hs.none ?_⟩, hs.shown e⟩
  exact (aborted_cons (e := s.entry e) he).mp ha

theorem Done.noted {s : Shell} {e : Event} (hs : Done s) (he : isAbort e = false) :
    Done (noted e s) :=
  ⟨hs.dated.noted e, fun ha => hs.flag ((aborted_cons (e := s.entry e) he).mp ha)⟩

/-! ## Small steps -/

theorem free_born {child : Child} {prepare : Shell → Shell} (hp : Prepares child prepare)
    {s : Shell} (hs : Free s) (hg : Every Shown s.log) : Free (born child prepare s) := by
  have hnew := hs.dated.born hp (hg.imp fun _ _ h => h.2)
  exact ⟨hnew.1, not_aborted_new hnew.2⟩

theorem free_back {s : Shell} {child : Child} {l log : List Entry}
    (hl : ∀ e ∈ l, (child, s.log.length) :: s.proc <:+ e.proc)
    (hlog : log = l ++ s.entry (.forked child s.log.length) :: s.log) (hs : Free s) :
    Free { noted (.forked child s.log.length) s with log := log } := by
  refine ⟨hs.dated.back hlog, fun ha => hs.none ?_⟩
  have ha : Aborted s.proc s.frames log := ha
  rw [hlog, aborted_below hl] at ha
  exact (aborted_cons (e := s.entry (.forked child s.log.length)) rfl).mp ha

/-- **The small steps keep track of an abort.** -/
theorem aborts_track : Tracks Contained Shown Free fun _ => Done where
  free := Free.same
  done := Done.same
  finished _ hs := hs.done
  test hs _ habort := hs.free habort
  returned hs _ := hs
  note he hs := hs.noted (by
    rename_i e
    cases e <;> first | rfl | contradiction)
  item _ hs := ⟨hs.noted rfl, shown_noted hs.dated rfl⟩
  born hp hs hg := free_born hp hs hg
  back := free_back

/-! ## Parts of a run -/

/-- Behind parts of one kind: what they have aborted is known. -/
structure Past (frame : Frame) (frames : List Frame) (s : Shell) : Prop where
  done : Done s
  here : s.frames = frames
  inner : Aborted s.proc frames s.log → Aborted s.proc (frame :: frames) s.log

/-- Inside one. -/
structure Within (frame : Frame) (frames : List Frame) (s : Shell) : Prop where
  done : Done s
  here : s.frames = frame :: frames
  inner : Aborted s.proc frames s.log → Aborted s.proc (frame :: frames) s.log

section Past

variable {frame : Frame} {frames : List Frame} {s t : Shell}

theorem Past.same (h : mark t = mark s) (hs : Past frame frames s) : Past frame frames t := by
  have hlog : t.log = s.log := congrArg (·.log) h
  have hproc : t.proc = s.proc := congrArg (·.proc) h
  have hframes : t.frames = s.frames := congrArg (·.frames) h
  refine ⟨hs.done.same h, hframes.trans hs.here, ?_⟩
  rw [hlog, hproc]
  exact hs.inner

theorem Within.same (h : mark t = mark s) (hs : Within frame frames s) :
    Within frame frames t := by
  have hlog : t.log = s.log := congrArg (·.log) h
  have hproc : t.proc = s.proc := congrArg (·.proc) h
  have hframes : t.frames = s.frames := congrArg (·.frames) h
  refine ⟨hs.done.same h, hframes.trans hs.here, ?_⟩
  rw [hlog, hproc]
  exact hs.inner

theorem Free.past (hs : Free s) (hframes : s.frames = frames) : Past frame frames s :=
  ⟨hs.done, hframes, fun ha => absurd (hframes ▸ ha) hs.none⟩

theorem Past.enter (hs : Past frame frames s) :
    Within frame frames { s with frames := frame :: s.frames } := by
  refine ⟨⟨hs.done.dated, fun ha => hs.done.flag ?_⟩, congrArg _ hs.here, hs.inner⟩
  exact Aborted.outer ha (List.suffix_cons _ _)

theorem Within.leave (ht : Within frame frames t) : Past frame frames { t with frames := frames } := by
  refine ⟨⟨ht.done.dated, fun ha => ht.done.flag ?_⟩, rfl, ht.inner⟩
  rw [ht.here]
  exact ht.inner ha

/-- When the frame is one where nothing aborts. -/
theorem Past.free (hs : Past frame frames s) (hc : Every Contained s.log)
    (hframe : frame = .source ∨ frame = .between) : Free s := by
  refine ⟨hs.done.dated, fun ha => ?_⟩
  rw [hs.here] at ha
  obtain ⟨r, hr, -, habort, hsuffix⟩ := hs.inner ha
  obtain ⟨past, hpath⟩ := hc.mem hr
  have hmem := hsuffix.mem List.mem_cons_self
  rcases hframe with rfl | rfl
  · exact (hpath.path habort).1 hmem
  · exact (hpath.path habort).2 hmem

end Past

section Runs

variable {O : Outside} {dl : PList → Prog Shell (Int × PList)}

/-- Nothing that a part of this kind runs aborts anything outside. -/
theorem runs_inside {α : Type} {c : Prog Shell α} (frame : Frame) (frames : List Frame)
    {I : Shell → Prop} {J : α → Shell → Prop} (h : Runs Contained Shown I c J) :
    Runs Contained Shown
      (fun s => I s ∧ s.frames = frame :: frames ∧
        (Aborted s.proc frames s.log → Aborted s.proc (frame :: frames) s.log)) c
      fun a s => J a s ∧ s.frames = frame :: frames ∧
        (Aborted s.proc frames s.log → Aborted s.proc (frame :: frames) s.log) := by
  apply h.along
  rintro s t hst ⟨hframes, hinner⟩
  refine ⟨hst.frames.trans hframes, ?_⟩
  rw [hst.proc]
  exact Aborted.inner hst.toGrew hframes hinner

variable (hdl : ∀ l, Runs Contained Shown Free (dl l) fun _ => Done)

include hdl

theorem runs_text (act : Text) : Runs Contained Shown Free (exempt (runText dl act)) fun _ => Done :=
  aborts_track.exempt (J := fun _ => 0)
    ((aborts_track.runText hdl act).post fun _ _ hs => hs.choose_spec)

/-- An action begins when nothing has been aborted, and leaves its own abort at most. -/
theorem runs_action {P : Shell → Prop} (hP : ∀ {s t}, mark t = mark s → P s → P t)
    (hdone : ∀ s, P s → Done s) (hnote : ∀ s sig, P s → P (noted (.trapAction sig) s))
    (hrun : ∀ {α : Type} {c : Prog Shell α}, Runs Contained Shown Free c (fun _ => Done) →
      Runs Contained Shown (fun s => Free s ∧ P s) c fun _ => P)
    (sig : Nat) (act : Text) :
    Runs Contained Shown P (runTrapAction dl sig act) fun _ => P := by
  apply Runs.look
  intro v
  refine Runs.pre ?_ fun _ hs => hs.1
  apply Runs.bind (M := fun _ s => Free s ∧ P s)
  · apply Runs.emit
    intro s hc hs _
    have hfree : Free s := ⟨(hdone s hs).dated, hc.head.action rfl⟩
    have hnoted := hfree.noted (e := .trapAction sig) rfl
    exact ⟨⟨hnoted.1, hnote s sig hs⟩, hnoted.2⟩
  · intro _
    refine Runs.still (P := fun s => Free s ∧ P s) ?_ (fun _ => rfl) ?_
    · exact fun hm hs => ⟨hs.1.same (place_of_mark hm), hP hm hs.2⟩
    · apply Runs.bind (hrun (runs_text hdl act))
      exact fun _ => Runs.modify (fun _ => rfl) (fun _ => rfl) (fun _ => rfl) fun s hs =>
        hP (s := s) rfl hs

theorem runs_poll (frame : Frame) (frames : List Frame) :
    Runs Contained Shown (Past frame frames) (trapsPoll O dl frame) fun _ => Past frame frames := by
  apply runs_trapsPoll (P := Within frame frames) Past.same Within.same Past.same
  · intro s _ hs
    refine ⟨⟨hs.done.noted rfl, hs.here, fun ha => ?_⟩, shown_noted hs.done.dated rfl⟩
    have ha := (aborted_cons (e := s.entry _) rfl).mp ha
    exact (aborted_cons (e := s.entry _) rfl).mpr (hs.inner ha)
  · apply runs_action hdl Within.same
    · exact fun _ hs => hs.done
    · intro s sig hs
      refine ⟨hs.done.noted rfl, hs.here, fun ha => ?_⟩
      have ha := (aborted_cons (e := s.entry _) rfl).mp ha
      exact (aborted_cons (e := s.entry _) rfl).mpr (hs.inner ha)
    · intro α c hc
      refine (runs_inside frame frames hc).imp ?_ ?_
      · exact fun s hs => ⟨hs.1, hs.2.here, hs.2.inner⟩
      · exact fun _ s hs => ⟨hs.1, hs.2.1, hs.2.2⟩
  · exact fun _ hs => hs
  · exact fun _ hs => hs.enter
  · intro s t _ _ hs ht
    rw [hs.here]
    exact ht.leave

/-- A poll from where nothing has been aborted. -/
theorem runs_once (frame : Frame) : Runs Contained Shown Free (trapsPoll O dl frame) fun _ => Done := by
  apply Runs.atFrames
  intro frames
  exact (runs_poll hdl frame frames).imp (fun _ hs => hs.1.past hs.2) fun _ _ hs => hs.done

/-- And any number of them. -/
theorem runs_polls (frame : Frame) (turns : List Nat) :
    Runs Contained Shown Free (forEach (fun _ => trapsPoll O dl frame) turns) fun _ => Done := by
  apply Runs.atFrames
  intro frames
  have hpolls : Runs Contained Shown (Past frame frames)
      (forEach (fun _ => trapsPoll O dl frame) turns) fun _ => Past frame frames :=
    Runs.forEach (fun _ => runs_poll hdl frame frames) turns
  exact hpolls.imp (fun _ hs => hs.1.past hs.2) fun _ _ hs => hs.done

theorem runs_between : Runs Contained Shown Free (trapsPoll O dl .between) fun _ => Free := by
  apply Runs.atFrames
  intro frames
  refine Runs.learn ((runs_poll hdl .between frames).pre fun _ hs => hs.1.past hs.2) ?_
  exact fun _ _ hc hs => hs.free hc (Or.inr rfl)

/-! ## The end of a shell -/

/-- The shell is ending. -/
structure Leaving (frames : List Frame) (s : Shell) : Prop where
  dated : Dated s
  here : s.frames = frames
  leaving : ¬ Aborted s.proc (.leaving :: frames) s.log
  exitTrap : ¬ Aborted s.proc (.exitTrap :: frames) s.log

/-- Its EXIT action may begin. -/
structure Ready (frames : List Frame) (s : Shell) : Prop where
  dated : Dated s
  here : s.frames = frames
  exitTrap : ¬ Aborted s.proc (.exitTrap :: frames) s.log

omit hdl in
theorem Leaving.same {frames : List Frame} {s t : Shell} (h : mark t = mark s)
    (hs : Leaving frames s) : Leaving frames t := by
  have hlog : t.log = s.log := congrArg (·.log) h
  have hproc : t.proc = s.proc := congrArg (·.proc) h
  have hframes : t.frames = s.frames := congrArg (·.frames) h
  refine ⟨hs.dated.same (place_of_mark h), hframes.trans hs.here, ?_, ?_⟩
  · rw [hlog, hproc]
    exact hs.leaving
  · rw [hlog, hproc]
    exact hs.exitTrap

omit hdl in
theorem Ready.same {frames : List Frame} {s t : Shell} (h : mark t = mark s)
    (hs : Ready frames s) : Ready frames t := by
  have hlog : t.log = s.log := congrArg (·.log) h
  have hproc : t.proc = s.proc := congrArg (·.proc) h
  have hframes : t.frames = s.frames := congrArg (·.frames) h
  refine ⟨hs.dated.same (place_of_mark h), hframes.trans hs.here, ?_⟩
  rw [hlog, hproc]
  exact hs.exitTrap

omit hdl in
theorem Ready.noted {frames : List Frame} {s : Shell} {e : Event} (hs : Ready frames s)
    (he : isAbort e = false) (hd : dispatches e = false) :
    Ready frames (noted e s) ∧ Shown (s.entry e) s.log := by
  refine ⟨⟨hs.dated.noted e, hs.here, fun ha => hs.exitTrap ?_⟩, shown_noted hs.dated hd⟩
  exact (aborted_cons (e := s.entry e) he).mp ha

omit hdl in
theorem Free.leaving {frames : List Frame} {s : Shell} (hs : Free s) (hframes : s.frames = frames) :
    Leaving frames s := by
  have hnone : ∀ frame, ¬ Aborted s.proc (frame :: frames) s.log := by
    intro frame ha
    apply hs.none
    rw [hframes]
    exact Aborted.outer ha (List.suffix_cons _ _)
  exact ⟨hs.dated, hframes, hnone .leaving, hnone .exitTrap⟩

/-- The last poll. -/
theorem runs_leaving (frames : List Frame) :
    Runs Contained Shown (Leaving frames) (trapsPoll O dl .leaving) fun _ => Ready frames := by
  apply runs_trapsPoll (P := fun s => Done s ∧ s.frames = .leaving :: frames ∧
    ¬ Aborted s.proc (.exitTrap :: frames) s.log) Leaving.same
  · rintro s t h ⟨hdone, hframes, hnone⟩
    have hlog : t.log = s.log := congrArg (·.log) h
    have hproc : t.proc = s.proc := congrArg (·.proc) h
    rw [hlog, hproc]
    exact ⟨hdone.same h, (congrArg (·.frames) h).trans hframes, hnone⟩
  · exact Ready.same
  · rintro s _ ⟨hdone, hframes, hnone⟩
    refine ⟨⟨hdone.noted rfl, hframes, fun ha => hnone ?_⟩, shown_noted hdone.dated rfl⟩
    exact (aborted_cons (e := s.entry _) rfl).mp ha
  · apply runs_action hdl
    · rintro s t h ⟨hdone, hframes, hnone⟩
      have hlog : t.log = s.log := congrArg (·.log) h
      have hproc : t.proc = s.proc := congrArg (·.proc) h
      rw [hlog, hproc]
      exact ⟨hdone.same h, (congrArg (·.frames) h).trans hframes, hnone⟩
    · exact fun _ hs => hs.1
    · rintro s sig ⟨hdone, hframes, hnone⟩
      refine ⟨hdone.noted rfl, hframes, fun ha => hnone ?_⟩
      exact (aborted_cons (e := s.entry _) rfl).mp ha
    · intro α c hc
      have hapart : Runs Contained Shown (fun s => Free s ∧ s.frames = .leaving :: frames ∧
          ¬ Aborted s.proc (.exitTrap :: frames) s.log) c fun _ s => Done s ∧
            s.frames = .leaving :: frames ∧ ¬ Aborted s.proc (.exitTrap :: frames) s.log := by
        apply hc.along
        rintro s t hst ⟨hframes, hnone⟩
        refine ⟨hst.frames.trans hframes, ?_⟩
        rw [hst.proc]
        exact not_aborted_apart hst.toGrew hframes (by simp) hnone
      exact hapart.pre fun _ hs => ⟨hs.1, hs.2.2⟩
  · exact fun _ hs => ⟨hs.dated, hs.here, hs.exitTrap⟩
  · intro s hs
    refine ⟨⟨hs.dated, fun ha => ?_⟩, congrArg _ hs.here, hs.exitTrap⟩
    have ha : Aborted s.proc (.leaving :: s.frames) s.log := ha
    rw [hs.here] at ha
    exact absurd ha hs.leaving
  · rintro s t - - hs ⟨hdone, -, hnone⟩
    exact ⟨hdone.dated, hs.here, hnone⟩

theorem runs_exitTrap (status : Int) (frames : List Frame) :
    Runs Contained Shown (Leaving frames) (runExitTrap O dl status) fun _ => Dated := by
  apply runs_runExitTrap status Ready.same Ready.same (fun h hs => hs.same (place_of_mark h))
    (fun _ hs => hs.dated) (runs_leaving hdl frames)
  · exact fun _ _ hs => hs.noted rfl rfl
  · exact Runs.emit fun _ _ hs _ => hs.noted rfl rfl
  · intro act
    apply runs_exempt Ready.same fun h hs => hs.same (place_of_mark h)
    apply Runs.within ((aborts_track.runText hdl act).post fun _ _ hs => hs.choose_spec)
    · intro s hs
      refine ⟨hs.dated, fun ha => ?_⟩
      have ha : Aborted s.proc (.exitTrap :: s.frames) s.log := ha
      rw [hs.here] at ha
      exact hs.exitTrap ha
    · exact fun _ _ _ _ _ _ ht => ht.dated

/-! ## Calls and files -/

theorem runs_callFn (name : Text) (args : List Text) (body : PList) :
    Runs Contained Shown Free (callFn dl name args body) fun _ => Done := by
  apply Runs.look
  intro old
  refine Runs.pre ?_ fun _ hs => hs.1
  apply Runs.bind (aborts_track.tell rfl)
  intro _
  refine aborts_track.same (fun _ => rfl) ?_
  apply Runs.bind (M := fun _ => Done)
  · apply Runs.atFrames
    intro frames
    apply Runs.within (runs_inside .call frames (hdl body))
    · rintro s ⟨hs, rfl⟩
      have hpast : Past .call s.frames s := hs.past rfl
      have hin := hpast.enter
      refine ⟨⟨hin.done.dated, fun ha => hs.none ?_⟩, rfl, hin.inner⟩
      exact Aborted.outer ha (List.suffix_cons _ _)
    · rintro s a t - - ⟨-, rfl⟩ ⟨hdone, hframes, hinner⟩
      exact (Within.leave ⟨hdone, hframes, hinner⟩).done
  · intro r
    apply Runs.look
    intro v
    refine Runs.pre ?_ fun _ hs => hs.1
    refine Runs.bind (Runs.modify (J := fun _ => Done) (fun _ => rfl) (fun _ => rfl) (fun _ => rfl)
      fun s hs => ⟨hs.dated, hs.flag⟩) ?_
    intro _
    apply Runs.bind (M := fun _ => Done)
    · exact Runs.emit fun _ _ hs _ => ⟨hs.noted rfl, shown_noted hs.dated rfl⟩
    · exact fun _ => Runs.pure fun _ hs => hs

/-- A file has been read: what it has aborted is inside of it. -/
structure Read (frame : Frame) (frames : List Frame) (s : Shell) : Prop where
  dated : Dated s
  here : s.frames = frames
  inner : Aborted s.proc frames s.log → Aborted s.proc (frame :: frames) s.log
  apart : ∀ other, frame ≠ other → ¬ Aborted s.proc (other :: frames) s.log

/-- **The lines of a file** are run up to the first abort. -/
theorem runs_file (frame : Frame) (frames : List Frame) (text : Text) :
    Runs Contained Shown (fun s => Free s ∧ s.frames = frames) (within frame (runFileLines dl text))
      fun _ => Read frame frames := by
  have hready : ∀ (list : PList) (status : Int),
      Runs Contained Shown Free (dispatchReady dl list status) fun _ => Done := by
    intro list status
    apply Runs.ite
    · exact fun _ => Runs.pure fun _ hs => hs.done
    · intro _
      apply Runs.bind (hdl list)
      exact fun _ => Runs.pure fun _ hs => hs
  have htake : Runs Contained Shown Done takeShellAbort fun abort s =>
      (abort = true → Dated s) ∧ (abort = false → Free s) := by
    apply Runs.look
    intro a
    apply Runs.bind (M := fun _ s => Dated s ∧ (a = false → Free s))
    · refine Runs.modify (fun _ => rfl) (fun _ => rfl) (fun _ => rfl) ?_
      rintro s ⟨hs, rfl⟩
      exact ⟨hs.dated, fun habort => (hs.free habort).same (s := s) rfl⟩
    · exact fun _ => Runs.pure fun _ hs => ⟨fun _ => hs.1, hs.2⟩
  have hlines : Runs Contained Shown Free (runFileLines dl text) fun _ => Dated := by
    apply Runs.look
    intro v
    refine Runs.pre ?_ fun _ hs => hs.1
    apply Runs.bind (M := fun _ => Free) (Runs.emit fun _ _ hs _ => hs.noted rfl)
    intro _
    refine aborts_track.same (fun _ => rfl) ?_
    exact runs_runLines (Q := fun _ => Dated) (fun _ _ hs => hs.dated) hready (fun _ => htake) _
      .command 0
  apply Runs.within hlines
  · rintro s ⟨hs, -⟩
    exact ⟨hs.dated, fun ha => hs.none (Aborted.outer ha (List.suffix_cons _ _))⟩
  · rintro s a t hst - ⟨hs, rfl⟩ ht
    have hproc : t.proc = s.proc := hst.proc
    refine ⟨ht, rfl, fun ha => ?_, fun other hne ha => ?_⟩
    · have ha : Aborted t.proc s.frames t.log := ha
      show Aborted t.proc (frame :: s.frames) t.log
      rw [hproc] at ha ⊢
      exact Aborted.inner (s := { s with frames := frame :: s.frames }) hst.toGrew rfl
        (fun hold => absurd hold hs.none) ha
    · have hold : ¬ Aborted s.proc (other :: s.frames) s.log := fun ha =>
        hs.none (Aborted.outer ha (List.suffix_cons _ _))
      have ha : Aborted t.proc (other :: s.frames) t.log := ha
      rw [hproc] at ha
      exact not_aborted_apart (s := { s with frames := frame :: s.frames }) hst.toGrew rfl hne hold ha

theorem runs_sourceFile (path : Text) :
    Runs Contained Shown Free (sourceFile O dl path) fun _ => Free := by
  apply Runs.look
  intro v
  refine Runs.pre ?_ fun _ hs => hs.1
  apply Runs.ite
  · exact fun _ => Runs.pure fun _ hs => hs
  · intro _
    split
    · exact Runs.pure fun _ hs => hs
    · refine aborts_track.same (fun _ => rfl) ?_
      apply Runs.bind (M := fun _ => Free)
      · apply Runs.atFrames
        intro frames
        refine Runs.learn (runs_file hdl .source frames _) ?_
        intro _ s hc hs
        refine ⟨hs.dated, fun ha => ?_⟩
        rw [hs.here] at ha
        obtain ⟨r, hr, -, habort, hsuffix⟩ := hs.inner ha
        obtain ⟨past, hpath⟩ := hc.mem hr
        exact (hpath.path habort).1 (hsuffix.mem List.mem_cons_self)
      · intro status
        refine aborts_track.same (fun _ => rfl) ?_
        exact Runs.pure fun _ hs => hs

/-! ## Builtins -/

omit hdl in
/-- An abort is known from the flag. -/
theorem runs_raise {P : Shell → Prop} (hP : ∀ s, P s → Dated s)
    (hnote : ∀ s, P s → P (noted .abort s))
    (hset : ∀ s, P s → P { s with shellAbort := true }) :
    Runs Contained Shown P shellAbortRaise fun _ s => P s ∧ s.shellAbort = true := by
  apply Runs.bind (M := fun _ => P)
  · exact Runs.emit fun s _ hs _ => ⟨hnote s hs, shown_noted (hP s hs) rfl⟩
  · exact fun _ => Runs.modify (fun _ => rfl) (fun _ => rfl) (fun _ => rfl) fun s hs =>
      ⟨hset s hs, rfl⟩

omit hdl in
theorem free_raise : Runs Contained Shown Free shellAbortRaise fun _ => Done :=
  (runs_raise (P := Dated) (fun _ hs => hs) (fun _ hs => hs.noted _) fun _ hs => hs).imp
    (fun _ hs => hs.dated) fun _ _ hs => ⟨hs.1, fun _ => hs.2⟩

theorem runs_builtinExit (args : List Text) :
    Runs Contained Shown Free (builtinExit O dl args) fun _ => Done := by
  have hended : ∀ code : Int, Runs Contained Shown Dated (do
      emit (.ended code)
      exit code : Prog Shell Int) fun _ => Done := fun code =>
    Runs.bind (M := fun _ => Dated)
      (Runs.emit fun _ _ hs _ => ⟨hs.noted _, shown_noted hs rfl⟩) fun _ => Runs.exit code
  have hleave : ∀ status : Int, Runs Contained Shown Free (do
      let code ← runExitTrap O dl status
      emit (.ended code)
      exit code : Prog Shell Int) fun _ => Done := by
    intro status
    apply Runs.atFrames
    intro frames
    exact (Runs.bind (runs_exitTrap hdl status frames) hended).pre fun _ hs => hs.1.leaving hs.2
  apply Runs.bind (aborts_track.tell rfl)
  intro _
  cases args with
  | nil => exact hleave 0
  | cons arg args =>
      dsimp only
      split
      · exact (hended 2).pre fun _ hs => hs.dated
      · exact hleave _

omit hdl in
theorem runs_builtinReturn (args : List Text) :
    Runs Contained Shown Free (builtinReturn args) fun _ => Done := by
  have hreturned : ∀ code : Int, Runs Contained Shown Free (do
      emit (.returned code)
      modify fun s => { s with returning := true, returnStatus := code }
      pure code : Prog Shell Int) fun _ => Done := by
    intro code
    apply Runs.bind (M := fun _ => Free) (Runs.emit fun _ _ hs _ => hs.noted rfl)
    intro _
    refine aborts_track.same (fun _ => rfl) ?_
    exact Runs.pure fun _ hs => hs.done
  have hfail : Runs Contained Shown Free (pure 1 : Prog Shell Int) fun _ => Done :=
    Runs.pure fun _ hs => hs.done
  apply Runs.look
  intro depth
  refine Runs.pre ?_ fun _ hs => hs.1
  apply Runs.ite
  · exact fun _ => hfail
  · intro _
    split
    · exact hreturned 0
    · split
      · exact hfail
      · exact hreturned _
    · exact hfail

theorem runs_callBuiltin (cmd : Cmd) :
    Runs Contained Shown Free (callBuiltin O dl cmd) fun _ => Done := by
  apply Runs.bind (aborts_track.tell rfl)
  intro _
  apply runBuiltin_rule (K := fun _ c => Runs Contained Shown Free c fun _ => Free)
    aborts_track.quiet fun hc => hc.post fun _ _ hs => hs.done
  · exact fun _ => runs_builtinReturn _
  · exact fun args => aborts_track.builtinSet free_raise args
  · exact fun args => aborts_track.builtinTrap free_raise args
  · exact fun args => runs_builtinExit hdl args
  · intro args
    unfold builtinSource
    split
    · exact (runs_sourceFile hdl _).post fun _ _ hs => hs.done
    · exact Runs.pure fun _ hs => hs.done

end Runs

/-- **Every abort unwinds** as far as the condition goes. -/
theorem aborts_unwind (O : Outside) : Unwinds O Contained Shown Free fun _ => Done where
  toTracks := aborts_track
  raise _ := by
    refine (runs_raise (P := fun s => Dated s ∧ s.returning = false) (fun _ hs => hs.1)
      (fun _ hs => ⟨hs.1.noted _, hs.2⟩) fun _ hs => hs).imp (fun _ hs => ⟨hs.1.dated, hs.2⟩) ?_
    exact fun _ _ hs => ⟨⟨hs.1.1, fun _ => hs.2⟩, hs.1.2⟩
  abort := free_raise
  after hdl := (runs_once hdl .after).post fun _ _ hs _ => hs
  waits hdl turns := (runs_polls hdl .waiting turns).post fun _ _ hs _ => hs
  between hdl := runs_between hdl
  call hdl name args body := runs_callFn hdl name args body
  builtin hdl cmd := runs_callBuiltin hdl cmd

/-! ## Whole runs -/

theorem runs_script (O : Outside) (n : Nat) (path : Text) :
    Runs Contained Shown (fun s => Free s ∧ s.frames = []) (script O n path) fun _ => Dated := by
  have hdl : ∀ l, Runs Contained Shown Free (dispatchList O n l) fun _ => Done :=
    (aborts_unwind O).dispatchList n
  have hscript : Runs Contained Shown (fun s => Free s ∧ s.frames = [])
      (runScript O (dispatchList O n) path) fun _ => Dated := by
    have hfail : ∀ code : Int, Runs Contained Shown (fun s => Free s ∧ s.frames = []) (pure code)
        fun _ => Dated := fun code => Runs.pure fun _ hs => hs.1.dated
    apply Runs.look
    intro v
    refine Runs.pre ?_ fun _ hs => hs.1
    apply Runs.ite
    · exact fun _ => hfail 1
    · intro _
      split
      · exact hfail _
      · apply Runs.bind (M := fun _ s => Free s ∧ s.frames = [])
        · exact Runs.modify (fun _ => rfl) (fun _ => rfl) (fun _ => rfl) fun s hs =>
            ⟨hs.1.same (s := s) rfl, hs.2⟩
        · intro _
          have hread : ∀ text, Runs Contained Shown (fun s => Free s ∧ s.frames = [])
              (within .script (runFileLines (dispatchList O n) text)) fun _ => Leaving [] := fun text =>
            (runs_file hdl .script [] text).post fun _ _ hs =>
              ⟨hs.dated, hs.here, hs.apart .leaving (by simp), hs.apart .exitTrap (by simp)⟩
          apply Runs.bind (hread _)
          intro status
          refine Runs.still Leaving.same (fun _ => rfl) ?_
          exact runs_exitTrap hdl status []
  apply Runs.bind hscript
  intro status
  apply Runs.bind (M := fun _ => Dated)
    (Runs.emit fun _ _ hs _ => ⟨hs.noted _, shown_noted hs rfl⟩)
  exact fun _ => Runs.exit status

/-- **No command is dispatched behind an abort**, in every run of a script: when no abort
is raised in a sourced file or in a poll between two items, and no action of a signal begins
behind one, a process dispatches nothing more of what it has aborted, through any depth of
lists, compounds and calls; the EXIT action is all that is left. -/
theorem aborts_halt (O : Outside) (n : Nat) (path : Text) (ctx : Ctx) (disps : Disps)
    (h : Every Contained (script O n path (.start ctx disps)).state.log) :
    Every Halted (script O n path (.start ctx disps)).state.log := by
  have hstart : Free (.start ctx disps) :=
    ⟨fun _ hc => absurd hc List.not_mem_nil, not_aborted_new fun _ he => absurd he List.not_mem_nil⟩
  exact ((runs_script O n path).every ⟨hstart, rfl⟩ .nil h).imp fun _ _ hs => hs.1

/-- An entry in no file and no poll, which begins no action. -/
def plain (e : Entry) : Bool :=
  !e.frames.contains .source && !e.frames.contains .between && !isTrapAction e.event

theorem contained_of_plain {e : Entry} (h : plain e = true) (past : List Entry) :
    Contained e past := by
  simp only [plain, Bool.and_eq_true, Bool.not_eq_true', List.contains_eq_mem,
    decide_eq_false_iff_not] at h
  refine ⟨fun _ => h.1, fun he => ?_⟩
  rw [h.2] at he
  contradiction

theorem aborts_halt_function :
    Every Halted (recordOf "f() { if set -Z; then echo; fi; echo; }\nf || echo\necho\n".toList []) := by
  have hplain : ∀ e ∈ recordOf
      "f() { if set -Z; then echo; fi; echo; }\nf || echo\necho\n".toList [],
      plain e = true := by
    decide +kernel
  unfold recordOf at hplain ⊢
  apply aborts_halt
  exact Every.of_forall fun e he past => contained_of_plain (hplain e he) past

/-- A script that sources a file, and that file. -/
def sourcing : Outside :=
  { Outside.quiet with
    script := fun _ path =>
      .ok (if path = ['s'] then ". lib\necho\n".toList else "set -Z\n".toList) }

instance (proc : Proc) (frames : List Frame) (past : List Entry) :
    Decidable (Aborted proc frames past) :=
  inferInstanceAs (Decidable (∃ r ∈ past, r.proc = proc ∧ isAbort r.event = true ∧
    frames <:+ r.frames))

instance (e : Entry) (past : List Entry) : Decidable (Halted e past) :=
  inferInstanceAs (Decidable (dispatches e.event = true → ¬ Aborted e.proc e.frames past))

/-- **An abort in a sourced file ends only the file**: the script goes on behind it. -/
theorem sourced_carriesOn :
    ¬ Every Halted (script sourcing 4 ['s']
      (.start ⟨fun _ => none, [], [], false, false, false, 0⟩ fun _ => .dfl)).state.log := by
  decide +kernel

end Petrush.Verified.Aborts

import Petrush.Verified.Lookup

/-!
# Redirections and the bodies of commands

Redirections are applied on three paths: in the child of a program, around a builtin
with the descriptors saved, and in a pipeline stage.  A function call has none of
them: its body runs with the descriptors of the caller, and also when a redirection
cannot be opened.

What the body of a command is shows in the record: its beginning is noted at the place
of the command, and the commands of a function just inside the call (`OfBody`).  Two
kinds of run are told apart for this: those of builtins, which begin nothing at their own
place (`Silent`), and those of lists, whose commands all have the descriptors the list
started with (`Level`).

## Main results

* `redirected_iff`: when a command of the shell has its redirections.
* `stageChild_redirects`: a stage always has them.
-/

namespace Petrush.Verified.Redirections

open Petrush.Lib.CText
open Petrush.Lib.Run
open Petrush.Foundation
open Petrush.Foundation.Process
open Petrush.Mid.Ast
open Petrush.Mid.Dispatcher
open Petrush.Mid.Expand
open Petrush.Mid.State
open Petrush.Mid.Trap
open Petrush.Verified.Commands
open Petrush.Verified.Lookup
open Petrush.Verified.Record
open Petrush.Verified.Traversal

/-! ## The property -/

/-- The body of a command begins. -/
def begins : Event → Bool
  | .call _ | .builtin _ | .exec _ _ => true
  | _ => false

def isCommand : Event → Bool
  | .command _ => true
  | _ => false

/-- The entry is about the body of a command that is run in the state: its beginning, or
a command of a function it calls. -/
def OfBody (s : Shell) (e : Entry) : Prop :=
  e.proc = s.proc ∧
    (e.frames = s.frames ∧ begins e.event = true ∨
      e.frames = .call :: s.frames ∧ isCommand e.event = true)

/-- The body runs with the descriptors that `petrush_apply_redirs` prescribes; when it
fails there is no body, and the command is `refused`. -/
def Redirected (O : Outside) (cmd : Cmd) (fds : Fds) (s s' : Shell) (refused : Prop) : Prop :=
  match petrushApplyRedirs (O.opens s.log) cmd fds with
  | some prescribed => ∀ e ∈ added s s', OfBody s e → e.fds = prescribed
  | none => (∀ e ∈ added s s', ¬ OfBody s e) ∧ refused

/-! ## Descriptors that are put back -/

section Restore

variable {opens : List Opening → Bool} {cmd : Cmd} {fds fds' : Fds} {made made' : List Opening}

theorem redirStdin_frame (h : redirStdin opens cmd fds = some (fds', made)) :
    fds'.stdout = fds.stdout ∧ fds'.stderr = fds.stderr ∧
      ((cmd.redirIn.isSome || cmd.hereBody.isSome || cmd.hereDelim.isSome) = false →
        fds'.stdin = fds.stdin) := by
  unfold redirStdin applyStdin at h
  cases hbody : cmd.hereBody with
  | some text =>
      simp only [hbody] at h
      obtain ⟨r, -, hr⟩ := Option.map_eq_some_iff.mp h
      obtain ⟨rfl, -⟩ := Prod.mk.inj hr
      simp
  | none =>
      cases hdelim : cmd.hereDelim with
      | some delim =>
          simp only [hbody, hdelim] at h
          contradiction
      | none =>
          cases hin : cmd.redirIn with
          | some path =>
              simp only [hbody, hdelim, hin] at h
              obtain ⟨r, -, hr⟩ := Option.map_eq_some_iff.mp h
              obtain ⟨rfl, -⟩ := Prod.mk.inj hr
              simp
          | none =>
              simp only [hbody, hdelim, hin] at h
              obtain ⟨rfl, -⟩ := Prod.mk.inj (Option.some.inj h)
              exact ⟨rfl, rfl, fun _ => rfl⟩

theorem redirStdout_frame (h : redirStdout opens cmd fds made = some (fds', made')) :
    fds'.stdin = fds.stdin ∧ fds'.stderr = fds.stderr ∧
      (cmd.redirOut.isSome = false → fds'.stdout = fds.stdout) := by
  unfold redirStdout at h
  cases hout : cmd.redirOut with
  | some path =>
      simp only [hout] at h
      obtain ⟨r, -, hr⟩ := Option.map_eq_some_iff.mp h
      obtain ⟨rfl, -⟩ := Prod.mk.inj hr
      simp
  | none =>
      simp only [hout] at h
      obtain ⟨rfl, -⟩ := Prod.mk.inj (Option.some.inj h)
      exact ⟨rfl, rfl, fun _ => rfl⟩

theorem redirStderr_frame (h : redirStderr opens cmd fds made = some fds') :
    fds'.stdin = fds.stdin ∧ fds'.stdout = fds.stdout ∧
      ((cmd.redirErr.isSome || cmd.redirErrToOut) = false → fds'.stderr = fds.stderr) := by
  unfold redirStderr at h
  cases herr : cmd.redirErr with
  | some path =>
      simp only [herr] at h
      obtain ⟨r, -, rfl⟩ := Option.map_eq_some_iff.mp h
      simp
  | none =>
      simp only [herr] at h
      obtain rfl := Option.some.inj h
      cases cmd.redirErrToOut with
      | true => simp
      | false => exact ⟨rfl, rfl, fun _ => rfl⟩

/-- What the redirections have changed was saved. -/
theorem restoreSavedFds_applied (h : petrushApplyRedirs opens cmd fds = some fds') :
    restoreSavedFds cmd fds fds' = fds := by
  simp only [petrushApplyRedirs, bind, Option.bind_eq_some_iff, Prod.exists] at h
  obtain ⟨fds₁, made₁, h₁, fds₂, made₂, h₂, h₃⟩ := h
  obtain ⟨hout₁, herr₁, hin₁⟩ := redirStdin_frame h₁
  obtain ⟨hin₂, herr₂, hout₂⟩ := redirStdout_frame h₂
  obtain ⟨hin₃, hout₃, herr₃⟩ := redirStderr_frame h₃
  have hstdin : (cmd.redirIn.isSome || cmd.hereBody.isSome || cmd.hereDelim.isSome) = false →
      fds'.stdin = fds.stdin := fun h => (hin₃.trans hin₂).trans (hin₁ h)
  have hstdout : cmd.redirOut.isSome = false → fds'.stdout = fds.stdout :=
    fun h => hout₃.trans ((hout₂ h).trans hout₁)
  have hstderr : (cmd.redirErr.isSome || cmd.redirErrToOut) = false → fds'.stderr = fds.stderr :=
    fun h => (herr₃ h).trans (herr₂.trans herr₁)
  unfold restoreSavedFds
  congr 1
  · split
    · rfl
    next hnot => exact hstdin (Bool.eq_false_iff.mpr hnot)
  · split
    · rfl
    next hnot => exact hstdout (Bool.eq_false_iff.mpr hnot)
  · split
    · rfl
    next hnot => exact hstderr (Bool.eq_false_iff.mpr hnot)

end Restore

/-! ## What a run notes, and where -/

/-- The record has grown by such notes, and the descriptors are as before. -/
structure Notes (Q : Shell → Entry → Prop) (s s' : Shell) : Prop extends Stays s s' where
  fds : s'.fds = s.fds
  noted : ∀ e ∈ added s s', Q s e

/-- The same of a run that does not return. -/
structure NotesStop (Q : Shell → Entry → Prop) (s s' : Shell) : Prop extends Grew s s' where
  noted : ∀ e ∈ added s s', Q s e

/-- The notes that are not about the bodies of commands. -/
def ordinary (e : Event) : Bool := !begins e && !isCommand e

/-- What is asked of notes only depends on the process, the place in the code and the
descriptors, and nothing is asked of other processes and of ordinary notes. -/
structure Placed (Q : Shell → Entry → Prop) : Prop where
  congr : ∀ {s t e}, t.proc = s.proc → t.frames = s.frames → t.fds = s.fds → Q t e → Q s e
  other : ∀ {s e}, e.proc ≠ s.proc → Q s e
  ordinary : ∀ {s e}, ordinary e = true → Q s (s.entry e)

section Notes

variable {O : Outside} {dl : PList → Prog Shell (Int × PList)} {Q : Shell → Entry → Prop}

theorem Notes.same {s s' : Shell} (hlog : s'.log = s.log) (hproc : s'.proc = s.proc)
    (hframes : s'.frames = s.frames) (hfds : s'.fds = s.fds) : Notes Q s s' := by
  refine ⟨Stays.same hlog hproc hframes, hfds, ?_⟩
  intro e he
  rw [added_eq (l := []) hlog] at he
  exact absurd he List.not_mem_nil

theorem Notes.stop {s s' : Shell} (h : Notes Q s s') : NotesStop Q s s' := ⟨h.toGrew, h.noted⟩

theorem notes_entry {s : Shell} {e : Event} (h : Q s (s.entry e)) : Notes Q s (noted e s) := by
  refine ⟨Stays.noted e s, rfl, ?_⟩
  intro x hx
  rw [added_eq (l := [s.entry e]) rfl] at hx
  rw [List.mem_singleton.mp hx]
  exact h

variable (hQ : Placed Q)

include hQ

theorem NotesStop.trans {s t u : Shell} (h : Notes Q s t) (k : NotesStop Q t u) :
    NotesStop Q s u := by
  refine ⟨Grew.trans h.toStays k.toGrew, ?_⟩
  intro e he
  rw [added_trans h.toGrew k.toGrew] at he
  rcases List.mem_append.mp he with hu | ht
  · exact hQ.congr h.proc h.frames h.fds (k.noted e hu)
  · exact h.noted e ht

theorem notes_composes : Composes (Notes Q) (NotesStop Q) where
  refl _ := Notes.same rfl rfl rfl rfl
  trans h k := ⟨h.toStays.trans k.toStays, k.fds.trans h.fds,
    (NotesStop.trans hQ h ⟨k.toGrew, k.noted⟩).noted⟩
  stop _ := ⟨Grew.same rfl, (Notes.same rfl rfl rfl rfl).noted⟩
  transStop h k := NotesStop.trans hQ h k

theorem notes_ordinary {e : Event} (he : ordinary e = true) :
    Keeps (Notes Q) (NotesStop Q) (emit e) := Keeps.modify fun _ => notes_entry (hQ.ordinary he)

theorem notes_blind : Blind fun _ => Keeps (Notes Q) (NotesStop Q) where
  ret := Keeps.pure (notes_composes hQ)
  seq := Keeps.bind (notes_composes hQ)
  read := Keeps.look (notes_composes hQ)
  stop := Keeps.cut (notes_composes hQ)
  change hf := Keeps.modify fun s => Notes.same (congrArg Core.log (hf s))
    (congrArg Core.proc (hf s)) (congrArg Core.frames (hf s)) (congrArg Core.fds (hf s))
  tell {e} he := notes_ordinary hQ (by cases e <;> first | rfl | contradiction)

theorem notes_base : Base fun _ => Keeps (Notes Q) (NotesStop Q) := (notes_blind hQ).base

theorem notes_ends {α : Type} {e : Event} (he : ordinary e = true) (code : Int) :
    Keeps (Notes Q) (NotesStop Q) (do
      emit e
      exit code : Prog Shell α) :=
  (notes_base hQ).seq (notes_ordinary hQ he) fun _ => Keeps.exit (notes_composes hQ) code

theorem notes_local : Local fun _ => Keeps (Notes Q) (NotesStop Q) where
  toBase := notes_base hQ
  raise := (notes_base hQ).seq (notes_ordinary hQ rfl) fun _ _ => Notes.same rfl rfl rfl rfl
  lower _ := Notes.same rfl rfl rfl rfl
  replace _ status := notes_ends hQ rfl status
  push name _ := by
    apply (notes_base hQ).seq ((notes_base hQ).read _)
    intro s
    apply Keeps.ite ((notes_base hQ).ret _)
    apply (notes_base hQ).seq (notes_ordinary hQ rfl)
    intro _
    apply (notes_base hQ).seq
    · exact fun _ => Notes.same rfl rfl rfl rfl
    · exact fun _ => (notes_base hQ).ret _
  slot slot action := by
    apply (notes_base hQ).seq (notes_ordinary hQ rfl)
    intro _ s
    show Notes Q s _
    simp only
    split
    · exact Notes.same rfl rfl rfl rfl
    · split <;> exact Notes.same rfl rfl rfl rfl

end Notes

/-- The state inside a part of the code. -/
def inside (frame : Frame) (s : Shell) : Shell := { s with frames := frame :: s.frames }

/-- What is noted inside a part of the code, seen from outside. -/
theorem notes_within {α : Type} {Q Q' : Shell → Entry → Prop} {frame : Frame} {c : Prog Shell α}
    (hc : Keeps (Notes Q') (NotesStop Q') c)
    (hdeep : ∀ s e, Below (inside frame s) e → Q' (inside frame s) e → Q s e) :
    Keeps (Notes Q) (NotesStop Q) (within frame c) := by
  intro s
  have hgrew := grew_within frame (hc.imp (fun _ _ h => h.toStays) fun _ _ h => h.toGrew) s
  have hnoted : (within frame c s).Holds (fun _ t => t.fds = s.fds ∧ ∀ e ∈ added s t, Q s e)
      fun t => ∀ e ∈ added s t, Q s e := by
    apply bind_holds
    show Outcome.Holds _ _ (Outcome.ok (inside frame s) ())
    apply bind_holds
    refine (hc _).imp ?_ ?_
    · exact fun _ t ht => ⟨ht.fds, fun e he => hdeep s e (ht.below e he) (ht.noted e he)⟩
    · exact fun t ht e he => hdeep s e (ht.below e he) (ht.noted e he)
  exact (hgrew.and hnoted).imp (fun _ _ h => ⟨h.1, h.2.1, h.2.2⟩) fun _ h => ⟨h.1, h.2⟩

theorem frames_ne_of_below {frame : Frame} {s : Shell} {e : Entry} (h : Below (inside frame s) e)
    (hproc : e.proc = s.proc) : e.frames ≠ s.frames := by
  intro hframes
  have hlen := (h.2 hproc).length_le
  rw [hframes] at hlen
  exact absurd hlen (Nat.not_succ_le_self _)

theorem head_of_below {frame frame' : Frame} {s : Shell} {e : Entry}
    (h : Below (inside frame s) e) (hproc : e.proc = s.proc) (hframes : e.frames = frame' :: s.frames) :
    frame' = frame := by
  have hsuf := h.2 hproc
  rw [hframes] at hsuf
  have heq : frame :: s.frames = frame' :: s.frames := hsuf.eq_of_length (by simp [inside])
  exact (List.cons.inj heq).1.symm

/-! ## Lists -/

/-- A command that is dispatched at the place has the descriptors of the place. -/
def LevelNote (s : Shell) (e : Entry) : Prop :=
  e.proc = s.proc → e.frames = s.frames → isCommand e.event = true → e.fds = s.fds

theorem level_placed : Placed LevelNote where
  congr hproc hframes hfds h hp hf hc := (h (hp.trans hproc.symm) (hf.trans hframes.symm) hc).trans hfds
  other hne hp := absurd hp hne
  ordinary {s e} he _ _ hc := by
    simp only [ordinary, Bool.and_eq_true, Bool.not_eq_true'] at he
    exact absurd hc (Bool.eq_false_iff.mp he.2)

/-- What a run of a list does to the descriptors. -/
abbrev Level : Shell → Shell → Prop := Notes LevelNote

@[inherit_doc Level]
abbrev LevelStop : Shell → Shell → Prop := NotesStop LevelNote

theorem level_within {α : Type} (frame : Frame) {c : Prog Shell α}
    (hc : Keeps Level LevelStop c) : Keeps Level LevelStop (within frame c) :=
  notes_within hc fun _ _ hb _ hproc hframes => absurd hframes (frames_ne_of_below hb hproc)

theorem level_noted {e : Event} (s : Shell) : Level s (noted e s) :=
  notes_entry fun _ _ _ => rfl

theorem level_emit (e : Event) : Keeps Level LevelStop (emit e) := fun s => level_noted s

theorem grew_of_level {α : Type} {c : Prog Shell α} (h : Keeps Level LevelStop c) :
    Keeps Stays Grew c := h.imp (fun _ _ h => h.toStays) fun _ _ h => h.toGrew

/-! ## Builtins -/

/-- Nothing that is not ordinary is noted at the place, and nothing in a call there. -/
def SilentNote (s : Shell) (e : Entry) : Prop :=
  e.proc = s.proc → e.frames ≠ .call :: s.frames ∧ (e.frames = s.frames → ordinary e.event = true)

theorem silent_placed : Placed SilentNote where
  congr hproc hframes _ h hp := by
    rw [← hframes]
    exact h (hp.trans hproc.symm)
  other hne hp := absurd hp hne
  ordinary {s e} he _ := ⟨(List.cons_ne_self _ _).symm, fun _ => he⟩

/-- What a builtin does to the descriptors. -/
abbrev Silent : Shell → Shell → Prop := Notes SilentNote

@[inherit_doc Silent]
abbrev SilentStop : Shell → Shell → Prop := NotesStop SilentNote

theorem silent_within {α : Type} {frame : Frame} (hframe : frame ≠ .call) {c : Prog Shell α}
    (hc : Keeps Level LevelStop c) : Keeps Silent SilentStop (within frame c) := by
  apply notes_within hc
  intro s e hb _ hproc
  exact ⟨fun hframes => hframe (head_of_below hb hproc hframes).symm,
    fun hframes => absurd hframes (frames_ne_of_below hb hproc)⟩

section Builtins

variable {O : Outside} {dl : PList → Prog Shell (Int × PList)} {cmd : Cmd}

theorem level_pollSignals (hdl : ∀ l, Keeps Level LevelStop (dl l)) (sigs : List Nat) :
    Keeps Level LevelStop (forEach (pollSignal O dl) sigs) :=
  (notes_base level_placed).forEach (keeps_pollSignal (notes_blind level_placed) hdl) sigs

theorem silent_trapsPoll (hdl : ∀ l, Keeps Level LevelStop (dl l)) {frame : Frame}
    (hframe : frame ≠ .call) : Keeps Silent SilentStop (trapsPoll O dl frame) :=
  keeps_trapsPoll (notes_blind silent_placed) (silent_within hframe (level_pollSignals hdl _))

theorem silent_builtinExit (hdl : ∀ l, Keeps Level LevelStop (dl l)) (args : List Text) :
    Keeps Silent SilentStop (builtinExit O dl args) := by
  have hemit : ∀ {e}, ordinary e = true → Keeps Silent SilentStop (emit e) :=
    fun he => notes_ordinary silent_placed he
  apply keeps_builtinExit (notes_base silent_placed)
  · exact fun _ => hemit rfl
  · exact fun code => notes_ends silent_placed rfl code
  · apply keeps_runExitTrap (notes_base silent_placed)
    · exact fun _ _ => Notes.same rfl rfl rfl rfl
    · exact fun _ _ => hemit rfl
    · exact hemit rfl
    · exact silent_trapsPoll hdl Frame.noConfusion
    · intro act
      apply silent_within Frame.noConfusion
      exact keeps_runText (notes_base level_placed).toFlow hdl act

theorem silent_runBuiltin (hdl : ∀ l, Keeps Level LevelStop (dl l)) (cmd : Cmd) :
    Keeps Silent SilentStop (runBuiltin O dl cmd) := by
  apply keeps_runBuiltin (notes_local silent_placed) (silent_builtinExit hdl)
  apply keeps_builtinSource (notes_base silent_placed)
  intro text
  apply silent_within Frame.noConfusion
  exact keeps_runFileLines (notes_local level_placed) hdl text

/-- A builtin behind its descriptors: its beginning is noted with them, and nothing else
at the place. -/
theorem callBuiltin_notes (hdl : ∀ l, Keeps Level LevelStop (dl l)) (cmd : Cmd) (s : Shell) :
    (callBuiltin O dl cmd s).Holds
      (fun _ t => Notes (fun s e => e = s.entry (.builtin (words cmd)) ∨ SilentNote s e) s t)
      (NotesStop (fun s e => e = s.entry (.builtin (words cmd)) ∨ SilentNote s e) s) := by
  apply bind_holds
  show Outcome.Holds _ _ (Outcome.ok (noted _ s) ())
  have hbegin := Stays.noted (.builtin (words cmd)) s
  have hadd : ∀ {t}, Grew (noted (.builtin (words cmd)) s) t → ∀ e ∈ added s t,
      e ∈ added (noted (.builtin (words cmd)) s) t ∨ e = s.entry (.builtin (words cmd)) := by
    intro t ht e he
    rw [added_trans hbegin.toGrew ht, added_eq (s := s) (l := [s.entry _]) rfl] at he
    exact (List.mem_append.mp he).imp_right List.mem_singleton.mp
  refine (silent_runBuiltin hdl cmd _).imp ?_ ?_
  · intro _ t ht
    refine ⟨hbegin.trans ht.toStays, ht.fds, fun e he => ?_⟩
    exact (hadd ht.toGrew e he).symm.imp_right fun h => ht.noted e h
  · intro t ht
    refine ⟨Grew.trans hbegin ht.toGrew, fun e he => ?_⟩
    exact (hadd ht.toGrew e he).symm.imp_right fun h => ht.noted e h

/-! ## Every run -/

/-- A builtin dispatches no command at its place. -/
theorem level_of_builtin {s : Shell} {e : Entry} (fds : Fds)
    (h : e = (rebound fds s).entry (.builtin (words cmd)) ∨ SilentNote (rebound fds s) e) :
    LevelNote s e := by
  intro hproc hframes hcommand
  rcases h with rfl | h
  · contradiction
  · have hord := (h hproc).2 hframes
    simp [ordinary, hcommand] at hord

theorem level_runBuiltinWithRedirs (hdl : ∀ l, Keeps Level LevelStop (dl l)) (cmd : Cmd) :
    Keeps Level LevelStop (runBuiltinWithRedirs O dl cmd) := by
  intro s
  cases hredirs : petrushApplyRedirs (O.opens s.log) cmd s.fds with
  | none =>
      rw [runBuiltinWithRedirs_refused hredirs]
      exact (notes_composes level_placed).refl s
  | some fds =>
      rw [runBuiltinWithRedirs_redirected hredirs]
      apply bind_holds
      refine (callBuiltin_notes hdl cmd (rebound fds s)).imp ?_ ?_
      · intro status t ht
        refine ⟨⟨⟨ht.log, ht.below⟩, ht.proc, ht.frames⟩, ?_, ?_⟩
        · show restoreSavedFds cmd s.fds t.fds = s.fds
          rw [ht.fds]
          exact restoreSavedFds_applied hredirs
        · exact fun e he => level_of_builtin fds (ht.noted e he)
      · intro t ht
        exact ⟨⟨ht.log, ht.below⟩, fun e he => level_of_builtin fds (ht.noted e he)⟩

theorem level_fork {α : Type} {child : Child} {prepare : Shell → Shell} {body : Prog Shell α}
    (hp : Prepares child prepare) (hb : Keeps Stays Grew body) :
    Keeps Level LevelStop (fork child prepare body) := by
  intro s
  have hstay : Stays s (forked child prepare body s) := grew_fork hp hb s
  rw [fork_eq]
  refine ⟨hstay, rfl, fun e he => ?_⟩
  rw [added_forked hp hb] at he
  rcases List.mem_append.mp he with hchild | hown
  · exact level_placed.other (proc_ne_of_below ((grew_state hb _).below e hchild))
  · rw [List.mem_singleton.mp hown]
    exact level_placed.ordinary rfl

theorem level_externalChild (path : Text) (cmd : Cmd) :
    Keeps Level LevelStop (externalChild O path cmd) := by
  intro s
  cases hcode : externalCode O path cmd s with
  | some code =>
      rw [externalChild_ends (by rw [hcode]; rfl)]
      exact (notes_composes level_placed).refl s
  | none =>
      obtain ⟨fds, hredirs, hexec⟩ := externalCode_eq_none hcode
      rw [externalChild_starts hredirs hexec]
      refine ⟨?_, rfl, ?_⟩
      · refine ⟨Grew.of_append (l := [_]) rfl ?_, rfl, rfl⟩
        intro e he
        rw [List.mem_singleton.mp he]
        exact ⟨List.suffix_refl _, fun _ => List.suffix_refl _⟩
      · intro e he
        rw [added_eq (l := [_]) rfl, List.mem_singleton] at he
        rw [he]
        exact fun _ _ hcommand => Bool.noConfusion hcommand

end Builtins

/-- **A list keeps the descriptors, and dispatches its commands with them.** -/
theorem level_closed (O : Outside) : Closed O fun _ => Keeps Level LevelStop := by
  have hbase := notes_base level_placed
  have hplain : ∀ {e}, ordinary e = true → Keeps Level LevelStop (emit e) :=
    fun he => notes_ordinary level_placed he
  have hsame : ∀ {f : Shell → Shell}, (∀ s, Level s (f s)) → Keeps Level LevelStop (modify f) :=
    fun hf => Keeps.modify hf
  refine {
    toLocal := notes_local level_placed, within := level_within, item := fun _ => hplain rfl
    announce := ?_, expand := ?_, start := fun _ => level_emit _
    external := level_externalChild, redirected := fun hdl cmd _ => level_runBuiltinWithRedirs hdl cmd
    stage := ?_, background := ?_, wait := ?_, call := ?_, leave := ?_ }
  · intro cmd
    apply hbase.seq (level_emit _)
    intro _
    apply hbase.seq (hbase.read _)
    intro s
    exact hbase.when (hplain rfl)
  · intro α dl hdl f
    apply keeps_checked hbase _ (notes_local level_placed).raise
    · apply keeps_spawnSubst hbase.toFlow
      intro _ inner hp
      apply level_fork hp
      exact keeps_cmdsubstChild grew_base (Keeps.exit grew_composes)
        (fun l => grew_of_level (hdl l)) inner
    · exact fun _ => hsame fun _ => Notes.same rfl rfl rfl rfl
  · intro dl since i n cmd hrun
    exact level_fork .stage (grew_stageChild since i n (grew_of_level hrun))
  · intro dl detach pl hrun
    apply level_fork (.background detach)
    exact grew_base.seq (grew_of_level hrun) fun _ => Keeps.exit grew_composes _
  · intro dl start k status hpoll hstart
    apply keeps_waiting hbase _ k status hpoll hstart
    exact fun _ _ => hsame fun _ => Notes.same rfl rfl rfl rfl
  · intro dl hdl name args body
    apply keeps_callFn hbase _ _ _ _ name args (level_within .call (hdl body))
    · exact fun _ _ => hsame fun _ => Notes.same rfl rfl rfl rfl
    · exact fun _ => hsame fun _ => Notes.same rfl rfl rfl rfl
    · exact fun _ => level_emit _
    · exact fun _ => hplain rfl
  · intro dl hdl hpoll args
    apply keeps_builtinExit hbase (fun _ => hplain rfl)
    · exact fun code => notes_ends level_placed rfl code
    · apply keeps_runExitTrap hbase
      · exact fun _ => hsame fun _ => Notes.same rfl rfl rfl rfl
      · exact fun _ _ => hplain rfl
      · exact hplain rfl
      · exact hpoll _
      · exact fun act => level_within .exitTrap (keeps_runText hbase.toFlow hdl act)

theorem dispatchList_level (O : Outside) (n : Nat) (list : PList) :
    Keeps Level LevelStop (dispatchList O n list) := dispatchList_keeps (level_closed O) n list

/-! ## Bodies -/

section Bodies

variable {O : Outside} {dl : PList → Prog Shell (Int × PList)} {cmd : Cmd} {s : Shell}
variable {name path : Text} {args : List Text} {fds : Fds}

theorem not_ofBody {e : Entry} (h : SilentNote s e) : ¬ OfBody s e := by
  rintro ⟨hproc, ⟨hframes, hbegins⟩ | ⟨hframes, -⟩⟩
  · have hord := (h hproc).2 hframes
    simp [ordinary, hbegins] at hord
  · exact (h hproc).1 hframes

/-- The entry is in order when the body has these descriptors. -/
def Bound (fds : Fds) (s : Shell) (e : Entry) : Prop := OfBody s e → e.fds = fds

theorem bound_silent {e : Entry} (h : SilentNote s e) : Bound fds s e :=
  fun hbody => absurd hbody (not_ofBody h)

theorem silent_state {α : Type} {c : Prog Shell α} (h : Keeps Silent SilentStop c) (s : Shell) :
    SilentStop s (c s).state := by
  have hstop : Keeps SilentStop SilentStop c :=
    h.imp (fun _ _ h => h.stop) fun _ _ h => h
  exact hstop.state s

/-- What is noted while a program is waited for. -/
theorem waiting_notes {start : Prog Shell Unit} {t : Shell} {l : List Entry} (k : Nat)
    (status : Int) (hdl : ∀ l, Keeps Level LevelStop (dl l)) (hstart : start (pushWait s) = .ok t ())
    (hlog : t.log = l ++ s.log) (hproc : t.proc = s.proc) (hframes : t.frames = s.frames) :
    ∀ e ∈ added s (waiting O dl start k status s).state, e ∈ l ∨ SilentNote s e := by
  have hbase := notes_base silent_placed
  have hrest : Keeps Silent SilentStop (do
      forEach (fun _ => trapsPoll O dl .waiting) (List.range (k + 1))
      modify (popWait (s.disps sigint) (s.disps sigquit))
      pure status : Prog Shell Int) := by
    apply hbase.seq (hbase.forEach (fun _ => silent_trapsPoll hdl Frame.noConfusion) _)
    intro _
    apply hbase.seq
    · exact fun _ => Notes.same rfl rfl rfl rfl
    · exact fun _ => hbase.ret _
  intro e he
  rw [waiting_eq, bind_apply, Prog.bind, hstart] at he
  have hend := silent_state hrest t
  rw [added_behind hlog hend.toGrew] at he
  rcases List.mem_append.mp he with hnew | hl
  · have hnote := hend.noted e hnew
    rw [SilentNote, hproc, hframes] at hnote
    exact .inr hnote
  · exact .inl hl

/-- A command that cannot be run has a status that says so. -/
theorem shellErrorCodeFor_ne_zero (access : Access) (name : Text) :
    shellErrorCodeFor access name ≠ 0 := by
  unfold shellErrorCodeFor
  split
  · decide
  · decide

/-- Nothing is noted at all. -/
theorem redirected_nothing {s' : Shell} {refused : Prop} (hlog : s'.log = s.log) (h : refused) :
    Redirected O cmd fds s s' refused := by
  unfold Redirected
  rw [added_eq (l := []) hlog]
  split
  · exact fun e he => absurd he List.not_mem_nil
  · exact ⟨fun e he => absurd he List.not_mem_nil, h⟩

/-! ## Programs -/

theorem executeExternal_redirected (hdl : ∀ l, Keeps Level LevelStop (dl l))
    (h : words cmd = name :: args) :
    Redirected O cmd s.fds s (executeExternal O dl cmd s).state
      (∀ status, (executeExternal O dl cmd s).value = some status → status ≠ 0) := by
  rw [executeExternal_cons h]
  cases findExecutable (O.access s.log) s.ctx.env name with
  | none =>
      apply redirected_nothing rfl
      intro status hstatus
      rw [← Option.some.inj hstatus]
      exact shellErrorCodeFor_ne_zero _ _
  | some path =>
      cases O.program s.log cmd with
      | noFork =>
          apply redirected_nothing rfl
          intro status hstatus
          rw [← Option.some.inj hstatus]
          decide
      | waited k status =>
          simp only
          cases hcode : externalCode O path cmd s with
          | none =>
              obtain ⟨fds, hredirs, hexec⟩ := externalCode_eq_none hcode
              have hstart := externalChild_starts (s := pushWait s) hredirs hexec
              have hnotes := waiting_notes (O := O) (l := [_]) k status hdl hstart rfl rfl rfl
              simp only [Redirected, hredirs, Option.getD_none]
              intro e he hbody
              rcases hnotes e he with hl | hsilent
              · rw [List.mem_singleton.mp hl]
                rfl
              · exact absurd hbody (not_ofBody hsilent)
          | some code =>
              have hsome : (externalCode O path cmd (pushWait s)).isSome := by
                rw [show externalCode O path cmd (pushWait s) = _ from hcode]
                rfl
              have hstart := externalChild_ends hsome
              have hnotes : ∀ e ∈ added s (waiting O dl (externalChild O path cmd) k
                  ((some code).getD status) s).state, ¬ OfBody s e := by
                intro e he
                rcases waiting_notes (l := []) k _ hdl hstart rfl rfl rfl e he with hl | hsilent
                · exact absurd hl List.not_mem_nil
                · exact not_ofBody hsilent
              unfold Redirected
              split
              · exact fun e he hbody => absurd hbody (hnotes e he)
              next hredirs =>
                refine ⟨hnotes, fun st hst => ?_⟩
                rw [value_waiting hst]
                rw [externalCode, hredirs] at hcode
                rw [← hcode]
                exact Int.one_ne_zero

/-! ## Builtins -/

/-- The beginning of a builtin has its descriptors. -/
theorem bound_builtin {e : Entry}
    (h : e = (rebound fds s).entry (.builtin (words cmd)) ∨ SilentNote (rebound fds s) e) :
    Bound fds s e := by
  rcases h with rfl | h
  · exact fun _ => rfl
  · exact bound_silent (s := s) h

/-- A builtin that is called with descriptors, and what its caller does behind it. -/
theorem callBuiltin_bound (hdl : ∀ l, Keeps Level LevelStop (dl l)) {α : Type}
    {k : Int → Prog Shell α} (hk : ∀ status t, ((k status t).state).log = t.log) :
    ∀ e ∈ added s ((callBuiltin O dl cmd >>= k) (rebound fds s)).state, Bound fds s e := by
  apply Outcome.Holds.state (E := fun t => ∀ e ∈ added s t, Bound fds s e)
  apply bind_holds
  refine (callBuiltin_notes hdl cmd (rebound fds s)).imp ?_ ?_
  · intro status t ht
    have hend : ∀ u : Shell, u.log = t.log → ∀ e ∈ added s u, Bound fds s e := by
      intro u hu e he
      rw [added, hu] at he
      exact bound_builtin (ht.noted e he)
    have hlog := hk status t
    cases hrun : k status t with
    | ok u a =>
        rw [hrun] at hlog
        exact hend u hlog
    | exit u code =>
        rw [hrun] at hlog
        exact hend u hlog
    | cut u =>
        rw [hrun] at hlog
        exact hend u hlog
  · exact fun t ht e he => bound_builtin (ht.noted e he)

theorem log_exit {α : Type} (code : Int) (t : Shell) :
    ((exit code : Prog Shell α) t).state.log = t.log := rfl

/-- Without redirections the descriptors stay. -/
theorem petrushApplyRedirs_none {opens : List Opening → Bool} (h : cmdNeedsRedir cmd = false) :
    petrushApplyRedirs opens cmd fds = some fds := by
  simp only [cmdNeedsRedir, Bool.or_eq_false_iff, Option.isSome_eq_false_iff,
    Option.isNone_iff_eq_none] at h
  obtain ⟨⟨⟨⟨⟨hin, hbody⟩, hdelim⟩, hout⟩, herr⟩, hmerge⟩ := h
  simp [petrushApplyRedirs, redirStdin, applyStdin, redirStdout, redirStderr, hin, hbody, hdelim,
    hout, herr, hmerge]

theorem builtin_redirected (hdl : ∀ l, Keeps Level LevelStop (dl l)) :
    Redirected O cmd s.fds s
      (if cmdNeedsRedir cmd then runBuiltinWithRedirs O dl cmd s else callBuiltin O dl cmd s).state
      (∀ status, (if cmdNeedsRedir cmd then runBuiltinWithRedirs O dl cmd s
        else callBuiltin O dl cmd s).value = some status → status ≠ 0) := by
  by_cases hneeds : cmdNeedsRedir cmd = true
  · rw [if_pos hneeds]
    cases hredirs : petrushApplyRedirs (O.opens s.log) cmd s.fds with
    | none =>
        rw [runBuiltinWithRedirs_refused hredirs]
        apply redirected_nothing rfl
        intro status hstatus
        rw [← Option.some.inj hstatus]
        exact Int.one_ne_zero
    | some fds =>
        rw [runBuiltinWithRedirs_redirected hredirs]
        simp only [Redirected, hredirs]
        apply callBuiltin_bound hdl
        exact fun _ _ => rfl
  · rw [if_neg hneeds]
    simp only [Redirected, petrushApplyRedirs_none (Bool.eq_false_iff.mpr hneeds)]
    intro e he
    have hnotes := (callBuiltin_notes (O := O) hdl cmd s).imp (fun _ _ h => h.stop) fun _ h => h
    have hbound : Bound s.fds s e := bound_builtin (hnotes.state.noted e he)
    exact hbound

/-! ## Stages -/

/-- **A stage has its redirections**, on top of its pipes. -/
theorem stageChild_redirects (hdl : ∀ l, Keeps Level LevelStop (dl l)) (since i n : Nat) :
    Redirected O cmd (pipeEnds since i n s.fds) s (stageChild O dl since i n cmd s).state
      (∃ t, stageChild O dl since i n cmd s = .exit t 1) := by
  cases hredirs : petrushApplyRedirs (O.opens s.log) cmd (pipeEnds since i n s.fds) with
  | none =>
      rw [stageChild_refused hredirs]
      exact redirected_nothing rfl ⟨_, rfl⟩
  | some fds =>
      rw [stageChild_redirected hredirs]
      simp only [Redirected, hredirs]
      have hnothing : ∀ t : Shell, t.log = s.log → ∀ e ∈ added s t, OfBody s e → e.fds = fds := by
        intro t ht e he
        rw [added_eq (l := []) ht] at he
        exact absurd he List.not_mem_nil
      cases hwords : words cmd with
      | nil =>
          rw [stageRun_empty hwords]
          exact hnothing _ rfl
      | cons name args =>
          rw [stageRun_cons hwords]
          split
          · exact callBuiltin_bound hdl fun _ _ => rfl
          · split
            · exact hnothing _ rfl
            · split
              · exact hnothing _ rfl
              · intro e he _
                rw [added_eq (s := s) (l := [(rebound fds s).entry _]) rfl] at he
                rw [List.mem_singleton.mp he]
                rfl

/-! ## Functions -/

/-- What a call notes: its body begins with the descriptors of the caller, and so do the
commands of the body. -/
def CallNote (s : Shell) (e : Entry) : Prop :=
  e.proc = s.proc → (e.frames = s.frames → begins e.event = true → e.fds = s.fds) ∧
    (e.frames = .call :: s.frames → isCommand e.event = true → e.fds = s.fds)

theorem call_placed : Placed CallNote where
  congr hproc hframes hfds h hp := by
    rw [← hframes, ← hfds]
    exact h (hp.trans hproc.symm)
  other hne hp := absurd hp hne
  ordinary {s e} he _ := by
    simp only [ordinary, Bool.and_eq_true, Bool.not_eq_true'] at he
    exact ⟨fun _ hb => absurd hb (Bool.eq_false_iff.mp he.1),
      fun _ hc => absurd hc (Bool.eq_false_iff.mp he.2)⟩

theorem callFn_notes (hdl : ∀ l, Keeps Level LevelStop (dl l)) (name : Text) (args : List Text)
    (body : PList) : Keeps (Notes CallNote) (NotesStop CallNote) (callFn dl name args body) := by
  have hbody : Keeps (Notes CallNote) (NotesStop CallNote) (within .call (dl body)) := by
    apply notes_within (hdl body)
    intro s e hb hlevel hproc
    exact ⟨fun hframes => absurd hframes (frames_ne_of_below hb hproc), hlevel hproc⟩
  apply keeps_callFn (notes_base call_placed) _ _ _ _ name args hbody
  · exact fun _ _ _ => Notes.same rfl rfl rfl rfl
  · exact fun _ _ => Notes.same rfl rfl rfl rfl
  · intro name s
    apply notes_entry
    exact fun _ => ⟨fun _ _ => rfl, fun _ _ => rfl⟩
  · exact fun _ => notes_ordinary call_placed rfl

/-- A call has its redirections when they change nothing. -/
theorem callFn_redirected (hdl : ∀ l, Keeps Level LevelStop (dl l)) (body : PList)
    {refused : Prop} :
    Redirected O cmd s.fds s (callFn dl name args body s).state refused ↔
      petrushApplyRedirs (O.opens s.log) cmd s.fds = some s.fds := by
  have hcall : s.entry (.call name) ∈ added s (callFn dl name args body s).state := by
    rw [callFn_start, added_emit (grew_callRest (fun l => grew_of_level (hdl l)) body s.ctx)]
    exact List.mem_append_right _ List.mem_cons_self
  have hbody : OfBody s (s.entry (.call name)) := ⟨rfl, .inl ⟨rfl, rfl⟩⟩
  unfold Redirected
  constructor
  · intro h
    split at h
    next prescribed hredirs =>
      have hfds : s.fds = prescribed := h _ hcall hbody
      exact hredirs.trans (congrArg some hfds.symm)
    next => exact absurd hbody (h.1 _ hcall)
  · intro h
    rw [h]
    rintro e he ⟨hproc, hplace⟩
    have hstop := (callFn_notes hdl name args body).imp (fun _ _ h => h.stop) fun _ _ h => h
    have hnote := (hstop.state s).noted e he hproc
    rcases hplace with ⟨hframes, hbegins⟩ | ⟨hframes, hcommand⟩
    · exact hnote.1 hframes hbegins
    · exact hnote.2 hframes hcommand

/-! ## Commands -/

theorem runCommand_redirected (hdl : ∀ l, Keeps Level LevelStop (dl l)) :
    Redirected O cmd s.fds s (runCommand O dl cmd s).state
        (∀ status, (runCommand O dl cmd s).value = some status → status ≠ 0) ↔
      (∀ name ∈ (words cmd).head?, fnGet s.fns name = none) ∨
        petrushApplyRedirs (O.opens s.log) cmd s.fds = some s.fds := by
  cases hwords : words cmd with
  | nil =>
      have hrun : runCommand O dl cmd s = .ok s 127 := by
        simp only [runCommand, bind_apply, Prog.bind, look, id, hwords]
        rfl
      rw [hrun]
      refine iff_of_true ?_ (.inl fun name hname => absurd hname (by simp))
      apply redirected_nothing rfl
      intro status hstatus
      rw [← Option.some.inj hstatus]
      decide
  | cons name args =>
      rw [runCommand_cons hwords]
      cases hfn : fnGet s.fns name with
      | some body => simpa [hfn] using callFn_redirected hdl body
      | none =>
          refine iff_of_true ?_ (.inl fun x hx => ?_)
          · simp only
            split
            · exact builtin_redirected hdl
            · exact executeExternal_redirected hdl hwords
          · obtain rfl := Option.some.inj hx
            exact hfn

end Bodies

/-- **A command has its redirections unless it is a function call**, or they change
nothing; a stage of a pipeline always has them.  A list keeps the descriptors, so that
this is so for each of its commands. -/
theorem redirected_iff (O : Outside) (n : Nat) (cmd : Cmd) (s : Shell) :
    (Redirected O cmd s.fds s (runCommand O (dispatchList O n) cmd s).state
        (∀ status, (runCommand O (dispatchList O n) cmd s).value = some status → status ≠ 0) ↔
      (∀ name ∈ (words cmd).head?, fnGet s.fns name = none) ∨
        petrushApplyRedirs (O.opens s.log) cmd s.fds = some s.fds) ∧
    (∀ since i k, Redirected O cmd (pipeEnds since i k s.fds) s
      (stageChild O (dispatchList O n) since i k cmd s).state
      (∃ t, stageChild O (dispatchList O n) since i k cmd s = .exit t 1)) ∧
    ∀ list, Keeps (fun s s' => s'.fds = s.fds) (fun _ _ => True) (dispatchList O n list) := by
  have hdl := dispatchList_level O n
  refine ⟨runCommand_redirected hdl, fun since i k => stageChild_redirects hdl since i k, ?_⟩
  intro list
  exact (hdl list).imp (fun _ _ h => h.fds) fun _ _ _ => trivial

/-- `f > out`. -/
def redirectedF : Cmd := { argv := [⟨['f'], .unquoted⟩], redirOut := some "out".toList }

/-- **The body of a function runs without the redirections of its call.** -/
theorem function_notRedirected :
    ¬ Redirected noPrograms redirectedF definingF.fds definingF
      (runCommand noPrograms (dispatchList noPrograms 1) redirectedF definingF).state
      (∀ status, (runCommand noPrograms (dispatchList noPrograms 1) redirectedF
        definingF).value = some status → status ≠ 0) := by
  rw [runCommand_redirected (dispatchList_level noPrograms 1)]
  rintro (h | h)
  · have hf := h ['f'] rfl
    contradiction
  · revert h
    decide

end Petrush.Verified.Redirections

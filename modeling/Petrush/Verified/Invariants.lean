import Petrush.Verified.Commands
import Petrush.Verified.Record

/-!
# Invariants of the signal state

Facts about every run of the form: when each entry of the record meets a
condition, each entry has a property.  Most of them are about the trap table, the
dispositions and the processes; `Invariant` lists the steps that touch these, and
`Invariant.closed` says that nothing else has to be looked at.
-/

namespace Petrush.Verified.Invariants

open Petrush.Lib.CText
open Petrush.Lib.Run
open Petrush.Foundation.Process
open Petrush.Mid.Ast
open Petrush.Mid.Builtins
open Petrush.Mid.Dispatcher
open Petrush.Mid.State
open Petrush.Mid.Trap
open Petrush.Verified.Commands
open Petrush.Verified.Record
open Petrush.Verified.Traversal

/-! ## Properties of a record -/

/-- The property holds of every entry, given the entries before it. -/
inductive Every (P : Entry → List Entry → Prop) : List Entry → Prop where
  | nil : Every P []
  | cons {e : Entry} {past : List Entry} (head : P e past) (tail : Every P past) :
      Every P (e :: past)

section Every

variable {P Q : Entry → List Entry → Prop} {e : Entry} {l past : List Entry}

theorem Every.head (h : Every P (e :: past)) : P e past := by
  cases h with
  | cons head tail => exact head

theorem Every.tail (h : Every P (e :: past)) : Every P past := by
  cases h with
  | cons head tail => exact tail

theorem Every.of_append (h : Every P (l ++ past)) : Every P past := by
  induction l with
  | nil => exact h
  | cons e l ih => exact ih h.tail

theorem Every.imp (h : Every P l) (hpq : ∀ e past, P e past → Q e past) : Every Q l := by
  induction h with
  | nil => exact .nil
  | cons head tail ih => exact .cons (hpq _ _ head) ih

theorem Every.of_forall (h : ∀ e ∈ l, ∀ past, P e past) : Every P l := by
  induction l with
  | nil => exact .nil
  | cons e past ih =>
      exact .cons (h e List.mem_cons_self past) (ih fun x hx => h x (List.mem_cons_of_mem e hx))

theorem Every.mem (h : Every P l) (he : e ∈ l) : ∃ past, P e past := by
  induction h with
  | nil => contradiction
  | cons head tail ih =>
      rcases List.mem_cons.mp he with rfl | he
      · exact ⟨_, head⟩
      · exact ih he

theorem every_cons : Every P (e :: past) ↔ P e past ∧ Every P past :=
  ⟨fun h => ⟨h.head, h.tail⟩, fun h => .cons h.1 h.2⟩

end Every

instance Every.decidable (P : Entry → List Entry → Prop) [∀ e past, Decidable (P e past)] :
    (l : List Entry) → Decidable (Every P l)
  | [] => isTrue .nil
  | e :: past =>
      have := Every.decidable P past
      decidable_of_iff (P e past ∧ Every P past) every_cons.symm

theorem Every.of_grew {P : Entry → List Entry → Prop} {s s' : Shell} (h : Every P s'.log)
    (hg : Grew s s') : Every P s.log := by
  rw [hg.log] at h
  exact h.of_append

/-! ## What an invariant has to keep -/

/-- The part of the state that the invariants read. -/
structure View where
  traps : TrapTable
  disps : Disps
  inExit : Bool
  isSubshell : Bool
  cmdsubstDepth : Nat
  proc : Proc
  waits : List (Disp × Disp)
  log : List Entry

def view (s : Shell) : View where
  traps := s.traps
  disps := s.disps
  inExit := s.inExit
  isSubshell := s.isSubshell
  cmdsubstDepth := s.cmdsubstDepth
  proc := s.proc
  waits := s.waits
  log := s.log

/-- The notes that come without a change of what the invariants read. -/
def Simple (s : Shell) : Event → Prop
  | .trapSet _ _ | .forked _ _ | .exitCall _ | .leave _ _ | .exitAction | .ended _ => False
  | .exec _ disps => disps = execDisps (defaultIntQuit s.disps)
  | _ => True

/-- The state behind `trap_set_slot`. -/
def slotSet (slot : Nat) (action : Option Text) (s : Shell) : Shell :=
  (trapSetSlot slot action s).state

/-- The disposition that goes with a slot. -/
def dispOf : Option Text → Disp
  | none => .dfl
  | some [] => .ign
  | some (_ :: _) => .handler

/-- What `trap_set_slot` changes. -/
structure SlotSet (slot : Nat) (action : Option Text) (s t : Shell) : Prop where
  log : t.log = s.entry (.trapSet slot action) :: s.log
  proc : t.proc = s.proc
  frames : t.frames = s.frames
  waits : t.waits = s.waits
  inExit : t.inExit = s.inExit
  isSubshell : t.isSubshell = s.isSubshell
  cmdsubstDepth : t.cmdsubstDepth = s.cmdsubstDepth
  traps : t.traps = update s.traps slot action
  disps : t.disps = if slot = 0 then s.disps else update s.disps slot (dispOf action)

theorem slotSet_spec (slot : Nat) (action : Option Text) (s : Shell) :
    SlotSet slot action s (slotSet slot action s) := by
  show SlotSet slot action s (Outcome.state (Outcome.ok (if slot = 0 then _ else _) ()))
  by_cases hzero : slot = 0
  · rw [if_pos hzero]
    constructor <;> first | rfl | exact (if_pos hzero).symm
  · rw [if_neg hzero]
    cases action with
    | none => constructor <;> first | rfl | exact (if_neg hzero).symm
    | some action =>
        cases action with
        | nil => constructor <;> first | rfl | exact (if_neg hzero).symm
        | cons c action => constructor <;> first | rfl | exact (if_neg hzero).symm

theorem defaultIntQuit_twice (disps : Disps) :
    defaultIntQuit disps = defaultIntQuit (defaultIntQuit disps) := by
  funext sig
  simp only [defaultIntQuit, update]
  split
  · rfl
  · split <;> rfl

/-- What two states of a run have to do with each other. -/
def Under (Cond Good : Entry → List Entry → Prop) (I : Shell → Prop) (s s' : Shell) : Prop :=
  Stays s s' ∧ s'.waits = s.waits ∧
    (Every Cond s'.log → I s ∧ Every Good s.log → I s' ∧ Every Good s'.log)

/-- And the last state of a run that does not return. -/
def Until (Cond Good : Entry → List Entry → Prop) (I : Shell → Prop) (s s' : Shell) : Prop :=
  Grew s s' ∧ (Every Cond s'.log → I s ∧ Every Good s.log → Every Good s'.log)

/-- **What has to be shown** of an invariant: the steps that touch what it reads keep
it under the condition, and note only what has the property. -/
structure Invariant (Cond Good : Entry → List Entry → Prop) (I : Shell → Prop) : Prop where
  quiet : ∀ {s s'}, view s' = view s → I s → I s'
  note : ∀ s e, Simple s e → Cond (s.entry e) s.log → I s →
    I (noted e s) ∧ Good (s.entry e) s.log
  slot : ∀ s slot action, Cond (s.entry (.trapSet slot action)) s.log → I s →
    I (slotSet slot action s) ∧ Good (s.entry (.trapSet slot action)) s.log
  fork : ∀ s child prepare, Prepares child prepare →
    Cond (s.entry (.forked child s.log.length)) s.log → I s → Every Good s.log →
      I (born child prepare s) ∧ Good (s.entry (.forked child s.log.length)) s.log
  back : ∀ s child l, (∀ e ∈ l, (child, s.log.length) :: s.proc <:+ e.proc) → I s →
    I { s with log := l ++ s.entry (.forked child s.log.length) :: s.log }
  push : ∀ s, I s → I (pushWait s)
  pop : ∀ s int quit waits, s.waits = (int, quit) :: waits → I s → I (popWait int quit s)

/-- What is noted while the shell is being left. -/
def Ending : Event → Prop
  | .exitCall _ | .leave _ _ | .exitAction | .ended _ => True
  | _ => False

/-- The invariant does not look at how the shell is left. -/
structure Overlooks (Cond Good : Entry → List Entry → Prop) (I : Shell → Prop) : Prop where
  inExit : ∀ s b, I s → I { s with inExit := b }
  ending : ∀ s e, Ending e → Cond (s.entry e) s.log → I s →
    I (noted e s) ∧ Good (s.entry e) s.log

section Runs

variable {O : Outside} {Cond Good : Entry → List Entry → Prop} {I : Shell → Prop}

/-! ## Small steps -/

theorem under_composes : Composes (Under Cond Good I) (Until Cond Good I) where
  refl _ := ⟨Stays.same rfl rfl rfl, rfl, fun _ h => h⟩
  trans h k := ⟨h.1.trans k.1, k.2.1.trans h.2.1, fun hc hi =>
    k.2.2 hc (h.2.2 (hc.of_grew k.1.toGrew) hi)⟩
  stop _ := ⟨Grew.same rfl, fun _ h => h.2⟩
  transStop h k := ⟨Grew.trans h.1 k.1, fun hc hi => k.2 hc (h.2.2 (hc.of_grew k.1) hi)⟩

theorem grew_of_under {α : Type} {c : Prog Shell α}
    (h : Keeps (Under Cond Good I) (Until Cond Good I) c) : Keeps Stays Grew c :=
  h.imp (fun _ _ h => h.1) fun _ _ h => h.1

/-- A note, with what it changes and what is known of the record before. -/
theorem under_entry {s t : Shell} {e : Event} (hlog : t.log = s.entry e :: s.log)
    (hproc : t.proc = s.proc) (hframes : t.frames = s.frames) (hwaits : t.waits = s.waits)
    (h : Every Cond (s.entry e :: s.log) → I s → Every Good s.log →
      I t ∧ Good (s.entry e) s.log) : Under Cond Good I s t := by
  refine ⟨?_, hwaits, fun hc hi => ?_⟩
  · exact (Stays.noted e s).trans (Stays.same hlog hproc hframes)
  · rw [hlog] at hc ⊢
    have hnew := h hc hi.1 hi.2
    exact ⟨hnew.1, .cons hnew.2 hi.2⟩

theorem under_noted {s t : Shell} {e : Event} (hlog : t.log = s.entry e :: s.log)
    (hproc : t.proc = s.proc) (hframes : t.frames = s.frames) (hwaits : t.waits = s.waits)
    (h : Cond (s.entry e) s.log → I s → I t ∧ Good (s.entry e) s.log) :
    Under Cond Good I s t :=
  under_entry hlog hproc hframes hwaits fun hc hi _ => h hc.head hi

/-- Every entry has the property at the end, whichever way the program ends. -/
theorem every_good_state {α : Type} {c : Prog Shell α} {s : Shell}
    (h : (c s).Holds (fun _ => Under Cond Good I s) (Until Cond Good I s))
    (hs : I s ∧ Every Good s.log) (hcond : Every Cond (c s).state.log) :
    Every Good (c s).state.log := by
  have hends : (c s).Holds (fun _ => Until Cond Good I s) (Until Cond Good I s) :=
    h.imp (fun _ _ hu => ⟨hu.1.toGrew, fun hc hi => (hu.2.2 hc hi).2⟩) fun _ hu => hu
  exact hends.state.2 hcond hs

variable (hI : Invariant Cond Good I)

include hI

theorem under_same {s t : Shell} (hproc : t.proc = s.proc) (hframes : t.frames = s.frames)
    (h : view t = view s) : Under Cond Good I s t := by
  have hlog : t.log = s.log := congrArg View.log h
  refine ⟨Stays.same hlog hproc hframes, congrArg View.waits h, fun _ hi => ?_⟩
  rw [hlog]
  exact ⟨hI.quiet h hi.1, hi.2⟩

theorem under_simple {s : Shell} {e : Event} (h : Simple s e) : Under Cond Good I s (noted e s) :=
  under_noted rfl rfl rfl rfl (hI.note s e h)

theorem under_within {α : Type} (frame : Frame) {c : Prog Shell α}
    (hc : Keeps (Under Cond Good I) (Until Cond Good I) c) :
    Keeps (Under Cond Good I) (Until Cond Good I) (within frame c) := by
  intro s
  have hframes : ∀ (t : Shell) frames, I t → I { t with frames := frames } :=
    fun t frames => hI.quiet rfl
  have hinv : (within frame c s).Holds
      (fun _ t => t.waits = s.waits ∧
        (Every Cond t.log → I s ∧ Every Good s.log → I t ∧ Every Good t.log))
      (fun t => Every Cond t.log → I s ∧ Every Good s.log → Every Good t.log) := by
    apply bind_holds
    show Outcome.Holds _ _ (Outcome.ok { s with frames := frame :: s.frames } ())
    apply bind_holds
    refine (hc _).imp ?_ ?_
    · intro a t ht
      refine ⟨ht.2.1, fun hcond hi => ?_⟩
      have h := ht.2.2 hcond ⟨hframes _ _ hi.1, hi.2⟩
      exact ⟨hframes _ _ h.1, h.2⟩
    · intro t ht hcond hi
      exact ht.2 hcond ⟨hframes _ _ hi.1, hi.2⟩
  exact ((grew_within frame (grew_of_under hc) s).and hinv).imp (fun _ _ h => h) fun _ h => h

theorem under_control : Control (Under Cond Good I) (Until Cond Good I) where
  toComposes := under_composes
  quiet h := by
    apply under_same hI (congrArg Core.proc h) (congrArg Core.frames h)
    have hcore : ∀ {s s' : Shell}, core s' = core s → view s' = view s := by
      intro s s' h
      simp only [core, Core.mk.injEq] at h
      simp only [view, View.mk.injEq]
      exact ⟨h.2.2.2.1, h.2.2.2.2.1, h.2.2.2.2.2.2.1, h.2.2.2.2.2.2.2.1, h.2.2.2.2.2.2.2.2.1,
        h.2.2.2.2.2.2.2.2.2.2.2.1, h.2.2.2.2.2.2.2.2.2.2.2.2.2.1, h.2.2.2.2.2.2.2.2.2.2.2.2.2.2⟩
    exact hcore h
  fds _ _ := under_same hI rfl rfl rfl
  flags _ _ := under_same hI rfl rfl rfl
  note s e he := by
    apply under_simple hI
    cases e <;> trivial
  within := under_within hI

theorem under_base : Base fun _ => Keeps (Under Cond Good I) (Until Cond Good I) :=
  (under_control hI).base

/-! ## Children -/

theorem under_fork {α : Type} {child : Child} {prepare : Shell → Shell} {body : Prog Shell α}
    (hp : Prepares child prepare) (hg : Keeps Stays Grew body) (s : Shell)
    (hb : (body (born child prepare s)).Holds (fun _ => Under Cond Good I (born child prepare s))
      (Until Cond Good I (born child prepare s))) :
    (fork child prepare body s).Holds (fun _ => Under Cond Good I s) (Until Cond Good I s) := by
  rw [fork_eq]
  have hstay : Stays s (forked child prepare body s) := grew_fork hp hg s
  refine ⟨hstay, rfl, fun hc hi => ?_⟩
  have hlog : (forked child prepare body s).log =
      added (born child prepare s) (body (born child prepare s)).state ++
        s.entry (.forked child s.log.length) :: s.log := by
    rw [hstay.log, added_forked hp hg, List.append_assoc, List.singleton_append]
  have hbelow := (grew_state hg (born child prepare s)).below
  have hnote := hI.fork s child prepare hp (hlog ▸ hc).of_append.head hi.1 hi.2
  have hborn : Every Good (born child prepare s).log := by
    rw [show (born child prepare s).log = _ from Prepares.log hp _]
    exact .cons hnote.2 hi.2
  have hend : Every Good (body (born child prepare s)).state.log :=
    every_good_state hb ⟨hnote.1, hborn⟩ hc
  refine ⟨?_, hend⟩
  have hback := hI.back s child _ (fun e he => (hbelow e he).1) hi.1
  rw [← hlog] at hback
  exact hI.quiet rfl hback

theorem under_execv {prepare : Disps → Disps} (cmd : Cmd) {s : Shell}
    (h : prepare s.disps = defaultIntQuit s.disps) :
    (execv prepare cmd s).Holds (fun _ => Under Cond Good I s) (Until Cond Good I s) :=
  under_simple hI (congrArg execDisps h)

theorem under_stageRun {dl : PList → Prog Shell (Int × PList)} (cmd : Cmd)
    (hrun : Keeps (Under Cond Good I) (Until Cond Good I) (callBuiltin O dl cmd)) {b : Shell}
    (hb : b.disps = defaultIntQuit b.disps) :
    (stageRun O dl cmd b).Holds (fun _ => Under Cond Good I b) (Until Cond Good I b) := by
  have hstop : Until Cond Good I b b := under_composes.stop b
  cases hwords : words cmd with
  | nil =>
      rw [stageRun_empty hwords]
      exact hstop
  | cons name args =>
      rw [stageRun_cons hwords]
      split
      · exact (under_base hI).seq hrun (fun _ => Keeps.exit under_composes _) b
      · split
        · exact hstop
        · split
          · exact hstop
          · exact under_execv hI cmd hb

theorem under_stageChild {dl : PList → Prog Shell (Int × PList)} (since i n : Nat) (cmd : Cmd)
    (hrun : Keeps (Under Cond Good I) (Until Cond Good I) (callBuiltin O dl cmd)) {b : Shell}
    (hb : b.disps = defaultIntQuit b.disps) :
    (stageChild O dl since i n cmd b).Holds (fun _ => Under Cond Good I b)
      (Until Cond Good I b) := by
  have hfds : ∀ fds, Under Cond Good I b (rebound fds b) := fun _ => under_same hI rfl rfl rfl
  cases hredirs : petrushApplyRedirs (O.opens b.log) cmd (pipeEnds since i n b.fds) with
  | none =>
      rw [stageChild_refused hredirs]
      exact under_composes.transStop (hfds _) (under_composes.stop _)
  | some fds =>
      rw [stageChild_redirected hredirs]
      apply (under_stageRun (b := rebound fds b) hI cmd hrun hb).imp
      · exact fun _ _ h => under_composes.trans (hfds fds) h
      · exact fun _ h => under_composes.transStop (hfds fds) h

/-- A stage starts with the default for SIGINT and SIGQUIT. -/
theorem under_stage {dl : PList → Prog Shell (Int × PList)} (since i n : Nat) (cmd : Cmd)
    (hrun : Keeps (Under Cond Good I) (Until Cond Good I) (callBuiltin O dl cmd)) :
    Keeps (Under Cond Good I) (Until Cond Good I)
      (fork .stage (fun s => { s with disps := defaultIntQuit s.disps })
        (stageChild O dl since i n cmd)) := by
  intro s
  apply under_fork hI .stage (grew_stageChild since i n (grew_of_under hrun))
  exact under_stageChild hI since i n cmd hrun (defaultIntQuit_twice s.disps)

/-! ## Waits -/

theorem under_popWait {s t : Shell} (h : Under Cond Good I (pushWait s) t) :
    Under Cond Good I s (popWait (s.disps sigint) (s.disps sigquit) t) := by
  have hwaits : t.waits = (s.disps sigint, s.disps sigquit) :: s.waits := h.2.1
  refine ⟨⟨⟨h.1.log, h.1.below⟩, h.1.proc, h.1.frames⟩, ?_, fun hc hi => ?_⟩
  · show t.waits.tail = s.waits
    rw [hwaits]
    rfl
  · have hend := h.2.2 hc ⟨hI.push s hi.1, hi.2⟩
    exact ⟨hI.pop t _ _ _ hwaits hend.1, hend.2⟩

theorem until_pushWait {s t : Shell} (h : Until Cond Good I (pushWait s) t) :
    Until Cond Good I s t :=
  ⟨⟨h.1.log, h.1.below⟩, fun hc hi => h.2 hc ⟨hI.push s hi.1, hi.2⟩⟩

theorem under_waiting {dl : PList → Prog Shell (Int × PList)} {start : Prog Shell Unit} (k : Nat)
    (status : Int)
    (hpoll : ∀ frame, Keeps (Under Cond Good I) (Until Cond Good I) (trapsPoll O dl frame))
    (hstart : Keeps (Under Cond Good I) (Until Cond Good I) start) :
    Keeps (Under Cond Good I) (Until Cond Good I) (waiting O dl start k status) := by
  intro s
  have hpolls := Keeps.forEach under_composes (fun _ : Nat => hpoll .waiting) (List.range (k + 1))
  apply bind_holds
  show Outcome.Holds _ _ (Outcome.ok s s.disps)
  apply bind_holds
  show Outcome.Holds _ _ (Outcome.ok (pushWait s) ())
  apply bind_holds
  refine (hstart (pushWait s)).imp ?_ fun t ht => until_pushWait hI ht
  intro _ t ht
  apply bind_holds
  refine (hpolls t).imp ?_ fun u hu => until_pushWait hI (under_composes.transStop ht hu)
  intro _ u hu
  exact under_popWait hI (under_composes.trans ht hu)

/-! ## Every run -/

theorem Invariant.closed
    (hleave : ∀ {dl}, (∀ l, Keeps (Under Cond Good I) (Until Cond Good I) (dl l)) →
      (∀ frame, Keeps (Under Cond Good I) (Until Cond Good I) (trapsPoll O dl frame)) →
        ∀ args, Keeps (Under Cond Good I) (Until Cond Good I) (builtinExit O dl args)) :
    Closed O fun _ => Keeps (Under Cond Good I) (Until Cond Good I) := by
  have hnote : ∀ {e}, (∀ s, Simple s e) → Keeps (Under Cond Good I) (Until Cond Good I) (emit e) :=
    fun he s => under_simple hI (he s)
  have hsteps : Steps O (Under Cond Good I) (Until Cond Good I) := by
    refine { under_control hI with
      raise := ?raise, lower := ?lower, item := ?item, announce := ?announce, external := ?external, stage := ?stage
      push := ?push, slot := ?slot, fork := ?fork, wait := ?wait, call := ?call, leave := ?leave }
    case raise =>
      apply (under_base hI).seq (hnote (e := .abort) fun _ => trivial)
      exact fun _ _ => under_same hI rfl rfl rfl
    case lower => exact fun _ => under_same hI rfl rfl rfl
    case item => exact fun _ _ => under_simple hI trivial
    case announce =>
      intro cmd
      apply keeps_announce (under_control hI)
      · exact fun _ _ => under_simple hI trivial
      · exact fun _ _ => under_simple hI trivial
    case external => exact fun cmd _ => under_execv hI cmd rfl
    case stage => exact under_stage hI
    case push =>
      intro name _
      apply keeps_localPush (under_base hI).toFlow
      · exact fun _ _ _ => hnote fun _ => trivial
      · exact fun _ _ => under_same hI rfl rfl rfl
    case slot =>
      intro slot action s
      have hset := slotSet_spec slot action s
      exact under_noted hset.log hset.proc hset.frames hset.waits (hI.slot s slot action)
    case fork =>
      intro α child prepare body hp hb s
      exact under_fork hI hp (grew_of_under hb) s (hb _)
    case wait => exact under_waiting hI
    case call =>
      intro dl hdl name args body
      apply keeps_callFn (under_base hI) _ _ _ _ name args (under_within hI .call (hdl body))
      · exact fun _ _ _ => under_same hI rfl rfl rfl
      · exact fun _ _ => under_same hI rfl rfl rfl
      · exact fun _ => hnote fun _ => trivial
      · exact fun _ => hnote fun _ => trivial
    case leave => exact hleave
  exact hsteps.closed

/-! ## Invariants that overlook the end -/

variable (hover : Overlooks Cond Good I)

omit hI in
theorem under_ending (hover : Overlooks Cond Good I) {e : Event} (he : Ending e) (s : Shell) :
    Under Cond Good I s (noted e s) := under_noted rfl rfl rfl rfl (hover.ending s e he)

include hover

theorem under_runExitTrap {dl : PList → Prog Shell (Int × PList)}
    (hdl : ∀ l, Keeps (Under Cond Good I) (Until Cond Good I) (dl l)) (status : Int) :
    Keeps (Under Cond Good I) (Until Cond Good I) (runExitTrap O dl status) := by
  apply keeps_runExitTrap (under_base hI) _ _ _ ((under_control hI).poll hdl _)
    (keeps_exitAction (under_control hI) hdl)
  · exact fun b s => ⟨Stays.same rfl rfl rfl, rfl, fun _ hi => ⟨hover.inExit s b hi.1, hi.2⟩⟩
  · exact fun status b => under_ending hover (e := .leave status b) trivial
  · exact under_ending hover (e := .exitAction) trivial

theorem under_ended {α : Type} (code : Int) :
    Keeps (Under Cond Good I) (Until Cond Good I) (do
      emit (.ended code)
      exit code : Prog Shell α) :=
  (under_control hI).ends (under_ending hover (e := .ended code) trivial) code

theorem Invariant.overlooking : Closed O fun _ => Keeps (Under Cond Good I) (Until Cond Good I) :=
  hI.closed fun hdl _ args =>
    keeps_builtinExit (under_base hI)
      (fun args => under_ending hover (e := .exitCall args) trivial)
      (under_ended hI hover) (under_runExitTrap hI hover hdl) args

/-- **In every run of a script whose entries meet the condition, every entry has the
property.** -/
theorem Invariant.every_good (n : Nat) (path : Text) {s : Shell} (hs : I s) (hlog : s.log = [])
    (hcond : Every Cond (script O n path s).state.log) :
    Every Good (script O n path s).state.log := by
  have hclosed := hI.overlooking (O := O) hover
  have hrun := script_keeps hclosed n (under_ended hI hover)
    (under_runExitTrap hI hover (dispatchList_keeps hclosed n)) path s
  have hstart : I s ∧ Every Good s.log := by
    rw [hlog]
    exact ⟨hs, .nil⟩
  exact every_good_state hrun hstart hcond

end Runs

end Petrush.Verified.Invariants

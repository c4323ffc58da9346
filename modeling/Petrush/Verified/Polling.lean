import Petrush.Verified.Record

/-!
# A poll runs what is pending

`petrush_traps_poll` gives every signal a turn, from 1 to 64.  Signals arrive at any
moment of it, and the actions it runs may set and clear anything; nested polls return
at once, so that an action leaves the poll where it was (`Nested`).

## Main results

* `dispatchList_nested`: what an action keeps.
* `trapsPoll_runs`: which actions a poll runs, and what is pending behind it.
-/

namespace Petrush.Verified.Polling

open Petrush.Lib.CText
open Petrush.Lib.Run
open Petrush.Mid.Ast
open Petrush.Mid.Dispatcher
open Petrush.Mid.Expand
open Petrush.Mid.State
open Petrush.Mid.Trap
open Petrush.Verified.Record
open Petrush.Verified.Traversal

/-! ## What the record says of signals -/

/-- The signal whose action begins. -/
def actionOf : Event → Option Nat
  | .trapAction sig => some sig
  | _ => none

/-- The actions that entries begin, the first one first, with the slots of their signals. -/
def actions (l : List Entry) : List (Nat × Option Text) :=
  l.reverse.filterMap fun e => (actionOf e.event).map fun sig => (sig, e.traps sig)

/-- The signal is caught. -/
def catches (sig : Nat) (e : Entry) : Bool :=
  match e.event with
  | .arrived sigs => decide (sig ∈ sigs) && decide (e.disps sig = .handler)
  | _ => false

/-- A trap command resets or ignores the signal. -/
def clears (sig : Nat) (e : Entry) : Bool :=
  match e.event with
  | .trapSet slot action => decide (slot = sig) && (action == none || action == some [])
  | _ => false

/-- Whether the process has caught the signal and not reset it since; the last entry first,
and `was` from before. -/
def caught (proc : Proc) (sig : Nat) (was : Bool) : List Entry → Bool
  | [] => was
  | e :: l =>
      if e.proc = proc ∧ catches sig e = true then true
      else if e.proc = proc ∧ clears sig e = true then false
      else caught proc sig was l

section Caught

variable {proc : Proc} {sig : Nat}

theorem caught_append (was : Bool) (l₂ l₁ : List Entry) :
    caught proc sig was (l₂ ++ l₁) = caught proc sig (caught proc sig was l₁) l₂ := by
  induction l₂ with
  | nil => rfl
  | cons e l₂ ih => simp only [List.cons_append, caught, ih]

/-- What was caught before only adds. -/
theorem caught_mono {was now : Bool} (h : was = true → now = true) (l : List Entry) :
    caught proc sig was l = true → caught proc sig now l = true := by
  induction l with
  | nil => exact h
  | cons e l ih =>
      simp only [caught]
      split
      · exact id
      · split
        · exact id
        · exact ih

/-- Entries of others do not count. -/
theorem caught_others {l : List Entry} (h : ∀ e ∈ l, e.proc ≠ proc) (was : Bool) :
    caught proc sig was l = was := by
  induction l with
  | nil => rfl
  | cons e l ih =>
      have hne := h e List.mem_cons_self
      rw [caught, if_neg fun hand => hne hand.1, if_neg fun hand => hne hand.1,
        ih fun x hx => h x (List.mem_cons_of_mem _ hx)]

end Caught

/-! ## What an action keeps -/

/-- No signal is lost between two states. -/
def Keeping (s s' : Shell) : Prop :=
  ∀ sig, 0 < sig → caught s.proc sig (s.pending sig) (added s s') = true → s'.pending sig = true

/-- What happens within an action. -/
structure Within (s s' : Shell) : Prop where
  inTrapPoll : s'.inTrapPoll = true
  noErrexit : s'.noErrexit = s.noErrexit
  keeping : Keeping s s'

/-- No action begins between two states. -/
def Silent (s s' : Shell) : Prop := ∀ e ∈ added s s', actionOf e.event = none

/-- What a part of an action does. -/
structure Nested (s s' : Shell) : Prop extends Stays s s' where
  within : s.inTrapPoll = true → Within s s'
  silent : s.inTrapPoll = true → Silent s s'

/-- And what one that does not return does. -/
structure NestedStop (s s' : Shell) : Prop extends Grew s s' where
  silent : s.inTrapPoll = true → Silent s s'

theorem Nested.stop {s s' : Shell} (h : Nested s s') : NestedStop s s' := ⟨h.toGrew, h.silent⟩

theorem Silent.trans {s t u : Shell} (h : Stays s t) (k : Grew t u) (hs : Silent s t)
    (ks : Silent t u) : Silent s u := by
  intro e he
  rw [added_trans h.toGrew k] at he
  rcases List.mem_append.mp he with hu | ht
  · exact ks e hu
  · exact hs e ht

theorem Keeping.trans {s t u : Shell} (h : Stays s t) (k : Grew t u) (hs : Keeping s t)
    (ks : Keeping t u) : Keeping s u := by
  intro sig hsig hcaught
  rw [added_trans h.toGrew k, caught_append] at hcaught
  apply ks sig hsig
  rw [h.proc]
  exact caught_mono (hs sig hsig) _ hcaught

theorem nested_composes : Composes Nested NestedStop where
  refl s := by
    have hnil : added s s = [] := added_eq (l := []) rfl
    refine ⟨Stays.same rfl rfl rfl, fun hin => ⟨hin, rfl, fun sig _ h => ?_⟩, fun _ e he => ?_⟩
    · rwa [hnil] at h
    · rw [hnil] at he
      contradiction
  trans h k := by
    refine ⟨h.toStays.trans k.toStays, fun hin => ?_, fun hin => ?_⟩
    · have hw := h.within hin
      have kw := k.within hw.inTrapPoll
      exact ⟨kw.inTrapPoll, kw.noErrexit.trans hw.noErrexit,
        hw.keeping.trans h.toStays k.toGrew kw.keeping⟩
    · exact (h.silent hin).trans h.toStays k.toGrew (k.silent (h.within hin).inTrapPoll)
  stop s := by
    have hnil : added s s = [] := added_eq (l := []) rfl
    refine ⟨Grew.same rfl, fun _ e he => ?_⟩
    rw [hnil] at he
    contradiction
  transStop h k :=
    ⟨Grew.trans h.toStays k.toGrew,
      fun hin => (h.silent hin).trans h.toStays k.toGrew (k.silent (h.within hin).inTrapPoll)⟩

/-! ## Small steps -/

theorem grew_of_nested {α : Type} {c : Prog Shell α} (h : Keeps Nested NestedStop c) :
    Keeps Stays Grew c := h.imp (fun _ _ h => h.toStays) fun _ _ h => h.toGrew

/-- Only what happens within an action matters. -/
theorem nested_of {α : Type} {c : Prog Shell α} (hgrew : Keeps Stays Grew c)
    (h : ∀ s, s.inTrapPoll = true →
      (c s).Holds (fun _ t => Within s t ∧ Silent s t) (Silent s)) : Keeps Nested NestedStop c := by
  intro s
  cases hs : s.inTrapPoll with
  | true =>
      apply ((hgrew s).and (h s hs)).imp
      · exact fun _ t ht => ⟨ht.1, fun _ => ht.2.1, fun _ => ht.2.2⟩
      · exact fun t ht => ⟨ht.1, fun _ => ht.2⟩
  | false =>
      apply (hgrew s).imp
      · exact fun _ t ht => ⟨ht, fun h => by simp [hs] at h, fun h => by simp [hs] at h⟩
      · exact fun t ht => ⟨ht, fun h => by simp [hs] at h⟩

/-- A change of what does not count. -/
theorem nested_same {s s' : Shell} (hlog : s'.log = s.log) (hproc : s'.proc = s.proc)
    (hframes : s'.frames = s.frames) (hin : s'.inTrapPoll = s.inTrapPoll)
    (hno : s'.noErrexit = s.noErrexit) (hpending : s'.pending = s.pending) : Nested s s' := by
  have hnil : added s s' = [] := added_eq (l := []) hlog
  refine ⟨Stays.same hlog hproc hframes, fun hs => ⟨hin.trans hs, hno, fun sig _ h => ?_⟩,
    fun _ e he => ?_⟩
  · rw [hnil] at h
    rwa [hpending]
  · rw [hnil] at he
    contradiction

/-- Notes that are neither of the poll nor of signals. -/
def still : Event → Bool
  | .trapAction _ | .arrived _ => false
  | _ => true

theorem still_of_flow {e : Event} (h : flow e = true) : still e = true := by
  cases e <;> first | rfl | contradiction

theorem actionOf_of_still {e : Event} (h : still e = true) : actionOf e = none := by
  cases e <;> first | rfl | contradiction

theorem catches_of_still {e : Event} (h : still e = true) (sig : Nat) (s : Shell) :
    catches sig (s.entry e) = false := by
  cases e <;> first | rfl | contradiction

theorem added_noted (e : Event) (s : Shell) : added s (noted e s) = [s.entry e] :=
  added_eq (l := [s.entry e]) rfl

/-- A step with one note. -/
theorem nested_one {e : Event} (he : actionOf e = none) {s s' : Shell}
    (hlog : s'.log = s.entry e :: s.log) (hproc : s'.proc = s.proc)
    (hframes : s'.frames = s.frames) (hin : s'.inTrapPoll = s.inTrapPoll)
    (hno : s'.noErrexit = s.noErrexit)
    (hkeep : ∀ sig, 0 < sig → caught s.proc sig (s.pending sig) [s.entry e] = true →
      s'.pending sig = true) : Nested s s' := by
  have hadded : added s s' = [s.entry e] := added_eq hlog
  have hgrew : Grew s s' := by
    refine Grew.of_append (l := [s.entry e]) hlog fun x hx => ?_
    rw [List.mem_singleton.mp hx]
    exact ⟨List.suffix_refl _, fun _ => List.suffix_refl _⟩
  refine ⟨⟨hgrew, hproc, hframes⟩, fun hs => ⟨hin.trans hs, hno, fun sig hsig h => ?_⟩,
    fun _ x hx => ?_⟩
  · rw [hadded] at h
    exact hkeep sig hsig h
  · rw [hadded, List.mem_singleton] at hx
    rw [hx]
    exact he

theorem nested_noted {e : Event} (h : still e = true) (s : Shell) : Nested s (noted e s) := by
  refine nested_one (actionOf_of_still h) rfl rfl rfl rfl rfl fun sig _ hcaught => ?_
  rw [caught, if_neg (by simp [catches_of_still h])] at hcaught
  split at hcaught
  · contradiction
  · exact hcaught

theorem nested_emit {e : Event} (h : still e = true) : Keeps Nested NestedStop (emit e) :=
  Keeps.modify (nested_noted h)

theorem nested_modify {f : Shell → Shell} (hlog : ∀ s, (f s).log = s.log)
    (hproc : ∀ s, (f s).proc = s.proc) (hframes : ∀ s, (f s).frames = s.frames)
    (hin : ∀ s, (f s).inTrapPoll = s.inTrapPoll) (hno : ∀ s, (f s).noErrexit = s.noErrexit)
    (hpending : ∀ s, (f s).pending = s.pending) : Keeps Nested NestedStop (modify f) :=
  Keeps.modify fun s => nested_same (hlog s) (hproc s) (hframes s) (hin s) (hno s) (hpending s)

/-- Signals arrive. -/
theorem nested_arrive (O : Outside) : Keeps Nested NestedStop (arrive O) := by
  apply Keeps.bind nested_composes (Keeps.look nested_composes _)
  intro sigs
  apply Keeps.ite (Keeps.pure nested_composes _)
  intro s
  show Nested s { noted (.arrived sigs) s with
    pending := fun sig => s.pending sig || (decide (sig ∈ sigs) && decide (s.disps sig = .handler)) }
  refine nested_one (e := .arrived sigs) rfl rfl rfl rfl rfl rfl fun sig _ hcaught => ?_
  simp only [caught, catches, clears, Shell.entry, Bool.and_eq_true, decide_eq_true_eq,
    Bool.false_eq_true, and_false, if_false, true_and] at hcaught
  show (s.pending sig || (decide (sig ∈ sigs) && decide (s.disps sig = .handler))) = true
  split at hcaught
  · next h => simp [h.1, of_decide_eq_true h.2]
  · simp [hcaught]

/-- A note that a slot is set counts only when it clears. -/
theorem caught_trapSet (slot : Nat) (action : Option Text) (s : Shell) (sig : Nat) :
    caught s.proc sig (s.pending sig) [s.entry (.trapSet slot action)] =
      if slot = sig ∧ (action = none ∨ action = some []) then false else s.pending sig := by
  simp [caught, catches, clears, Shell.entry]

/-- A slot is set. -/
theorem nested_slot (slot : Nat) (action : Option Text) :
    Keeps Nested NestedStop (trapSetSlot slot action) := by
  intro s
  show Nested s (if slot = 0 then _ else _)
  have hcleared {sig : Nat} {clearing : Option Text}
      (hclears : clearing = none ∨ clearing = some [])
      (h : (if slot = sig ∧ (clearing = none ∨ clearing = some []) then false
        else s.pending sig) = true) : update s.pending slot false sig = true := by
    split at h
    · contradiction
    · next hno => rwa [update, if_neg fun heq => hno ⟨heq.symm, hclears⟩]
  have hkept {sig : Nat} {p : Prop} [Decidable p] (h : (if p then false else s.pending sig) = true) :
      s.pending sig = true := by
    split at h
    · contradiction
    · exact h
  by_cases hzero : slot = 0
  · rw [if_pos hzero]
    refine nested_one (e := .trapSet slot action) rfl rfl rfl rfl rfl rfl fun sig _ h => ?_
    exact hkept ((caught_trapSet slot action s sig).symm.trans h)
  · rw [if_neg hzero]
    cases action with
    | none =>
        refine nested_one (e := .trapSet slot none) rfl rfl rfl rfl rfl rfl fun sig _ h => ?_
        exact hcleared (.inl rfl) ((caught_trapSet slot none s sig).symm.trans h)
    | some action =>
        cases action with
        | nil =>
            refine nested_one (e := .trapSet slot (some [])) rfl rfl rfl rfl rfl rfl fun sig _ h => ?_
            exact hcleared (.inr rfl) ((caught_trapSet slot (some []) s sig).symm.trans h)
        | cons c action =>
            refine nested_one (e := .trapSet slot (some (c :: action))) rfl rfl rfl rfl rfl rfl
              fun sig _ h => ?_
            exact hkept ((caught_trapSet slot (some (c :: action)) s sig).symm.trans h)

/-- A part runs as a part of something. -/
theorem nested_within {α : Type} (frame : Frame) {c : Prog Shell α}
    (hc : Keeps Nested NestedStop c) : Keeps Nested NestedStop (within frame c) := by
  apply nested_of (grew_within frame (grew_of_nested hc))
  intro s hs
  apply bind_holds
  show Outcome.Holds _ _ (Outcome.ok { s with frames := frame :: s.frames } ())
  apply bind_holds
  apply (hc _).imp
  · intro a t ht
    have hw := ht.within hs
    exact ⟨⟨hw.inTrapPoll, hw.noErrexit, hw.keeping⟩, ht.silent hs⟩
  · exact fun t ht => ht.silent hs

/-- A part where errexit does not count. -/
theorem nested_exempt {α : Type} {c : Prog Shell α} (hc : Keeps Nested NestedStop c) :
    Keeps Nested NestedStop (exempt c) := by
  apply nested_of (grew_base.exempt (grew_of_nested hc))
  intro s hs
  apply bind_holds
  show Outcome.Holds _ _ (Outcome.ok { s with noErrexit := s.noErrexit + 1 } ())
  apply bind_holds
  apply (hc _).imp
  · intro a t ht
    have hw := ht.within hs
    have hback : t.noErrexit - 1 = s.noErrexit := by rw [hw.noErrexit, Nat.add_sub_cancel]
    exact ⟨⟨hw.inTrapPoll, hback, hw.keeping⟩, ht.silent hs⟩
  · exact fun t ht => ht.silent hs

/-- A nested poll runs nothing. -/
theorem trapsPoll_nested (O : Outside) (dl : PList → Prog Shell (Int × PList)) (frame : Frame)
    {s : Shell} (hs : s.inTrapPoll = true) : trapsPoll O dl frame s = .ok s () := by
  simp only [trapsPoll, bind, Prog.bind, look, id, hs, if_true]
  rfl

theorem nested_poll {O : Outside} {dl : PList → Prog Shell (Int × PList)}
    (hdl : ∀ l, Keeps Nested NestedStop (dl l)) (frame : Frame) :
    Keeps Nested NestedStop (trapsPoll O dl frame) := by
  apply nested_of (grew_control.poll (fun l => grew_of_nested (hdl l)) frame)
  intro s hs
  rw [trapsPoll_nested O dl frame hs]
  have hrefl := nested_composes.refl s
  exact ⟨hrefl.within hs, hrefl.silent hs⟩

/-! ## Children -/

theorem born_inTrapPoll {child : Child} {prepare : Shell → Shell} (hp : Prepares child prepare)
    (s : Shell) : (born child prepare s).inTrapPoll = s.inTrapPoll := by
  cases hp <;> rfl

/-- A child of an action begins no action either, and signals of the child are its own. -/
theorem nested_fork {α : Type} {child : Child} {prepare : Shell → Shell} {body : Prog Shell α}
    (hp : Prepares child prepare) (hb : Keeps Nested NestedStop body) :
    Keeps Nested NestedStop (fork child prepare body) := by
  have hgrew := grew_of_nested hb
  apply nested_of (grew_fork hp hgrew)
  intro s hs
  have hadded := added_forked hp hgrew s
  have hstop : NestedStop (born child prepare s) (body (born child prepare s)).state :=
    Outcome.Holds.state ((hb _).imp (fun _ _ h => h.stop) fun _ h => h)
  have hsilent := hstop.silent ((born_inTrapPoll hp s).trans hs)
  rw [fork_eq]
  refine ⟨⟨hs, rfl, fun sig _ hcaught => ?_⟩, fun e he => ?_⟩
  · show s.pending sig = true
    rw [hadded, caught_append, caught_others] at hcaught
    · simpa [caught, catches, clears, Shell.entry] using hcaught
    · exact fun e he => proc_ne_of_below (hstop.below e he)
  · rw [hadded] at he
    rcases List.mem_append.mp he with hchild | hown
    · exact hsilent e hchild
    · rw [List.mem_singleton.mp hown]
      rfl

/-! ## Every action -/

theorem nested_base : Base fun _ => Keeps Nested NestedStop where
  ret := Keeps.pure nested_composes
  seq := Keeps.bind nested_composes
  read := Keeps.look nested_composes
  stop := Keeps.cut nested_composes
  change hf := by
    apply nested_modify
    · exact fun s => congrArg (fun w => w.log) (hf s)
    · exact fun s => congrArg (fun w => w.proc) (hf s)
    · exact fun s => congrArg (fun w => w.frames) (hf s)
    · exact fun s => congrArg Wide.inTrapPoll (hf s)
    · exact fun s => congrArg Wide.noErrexit (hf s)
    · exact fun s => congrArg Wide.pending (hf s)
  tell he := nested_emit (still_of_flow he)
  exempt := nested_exempt
  arrive := nested_arrive
  polling hdl _ := nested_poll hdl _

theorem nested_exit {α : Type} (code : Int) :
    Keeps Nested NestedStop (exit code : Prog Shell α) := Keeps.exit nested_composes code

section Closed

variable {O : Outside} {dl : PList → Prog Shell (Int × PList)}

theorem nested_raise : Keeps Nested NestedStop shellAbortRaise := by
  apply nested_base.seq (nested_emit rfl)
  intro _ s
  exact nested_same rfl rfl rfl rfl rfl rfl

theorem nested_checked {α : Type} (hdl : ∀ l, Keeps Nested NestedStop (dl l))
    (f : World → Ctx → Effects → α × Effects) : Keeps Nested NestedStop (checked O dl f) := by
  apply keeps_checked nested_base _ nested_raise
  · apply keeps_spawnSubst nested_base.toFlow
    intro _ inner hp
    exact nested_fork hp (keeps_cmdsubstChild nested_base nested_exit hdl inner)
  · exact fun _ _ => nested_same rfl rfl rfl rfl rfl rfl

theorem nested_ends {α : Type} (code : Int) : Keeps Nested NestedStop (do
    emit (.ended code)
    exit code : Prog Shell α) := nested_base.seq (nested_emit rfl) fun _ => nested_exit code

theorem nested_builtinExit (hdl : ∀ l, Keeps Nested NestedStop (dl l)) (args : List Text) :
    Keeps Nested NestedStop (builtinExit O dl args) := by
  apply keeps_builtinExit nested_base (fun _ => nested_emit rfl) nested_ends
  apply keeps_runExitTrap nested_base _ (fun _ _ => nested_emit rfl) (nested_emit rfl)
    (nested_poll hdl _)
  · exact fun act => nested_within _ (keeps_runText nested_base.toFlow hdl act)
  · exact fun _ _ => nested_same rfl rfl rfl rfl rfl rfl

theorem nested_stageChild (since i n : Nat) {cmd : Cmd}
    (hrun : Keeps Nested NestedStop (callBuiltin O dl cmd)) :
    Keeps Nested NestedStop (stageChild O dl since i n cmd) := by
  have hexec := keeps_execv nested_base (fun _ _ => nested_emit rfl) id cmd
  apply keeps_stageChild nested_base nested_exit _ since i n
  · exact keeps_stageRun nested_base nested_exit hexec hrun
  · exact fun _ _ => nested_same rfl rfl rfl rfl rfl rfl

end Closed

theorem nested_closed (O : Outside) : Closed O fun _ => Keeps Nested NestedStop where
  toBase := nested_base
  raise := nested_raise
  lower _ := nested_same rfl rfl rfl rfl rfl rfl
  replace _ status := nested_base.seq (nested_emit rfl) fun _ => nested_exit status
  push name _ := by
    apply nested_base.seq (nested_base.read _)
    intro s
    apply Keeps.ite (nested_base.ret _)
    apply nested_base.seq (nested_emit rfl)
    intro _
    apply nested_base.seq
    · exact fun _ => nested_same rfl rfl rfl rfl rfl rfl
    · exact fun _ => nested_base.ret _
  slot := nested_slot
  within := nested_within
  item _ := nested_emit rfl
  announce cmd := by
    apply nested_base.seq (nested_emit rfl)
    intro _
    apply nested_base.seq (nested_base.read _)
    intro s
    exact nested_base.when (nested_emit rfl)
  expand hdl f := nested_checked hdl f
  start _ := nested_emit rfl
  external path cmd := keeps_externalChild nested_base
    (fun _ _ => nested_same rfl rfl rfl rfl rfl rfl) path
    (keeps_execv nested_base (fun _ _ => nested_emit rfl) _ cmd)
  redirected _ cmd hrun := keeps_runBuiltinWithRedirs nested_base
    (fun _ _ => nested_same rfl rfl rfl rfl rfl rfl) hrun
  stage since i n cmd hrun := nested_fork .stage (nested_stageChild since i n hrun)
  background detach pl hrun :=
    nested_fork (.background detach) (nested_base.seq hrun fun _ => nested_exit _)
  wait k status hpoll hstart := keeps_waiting nested_base
    (fun _ _ _ => nested_same rfl rfl rfl rfl rfl rfl) k status hpoll hstart
  call hdl name args body := by
    apply keeps_callFn nested_base _ _ _ _ name args (nested_within .call (hdl body))
    · exact fun _ _ _ => nested_same rfl rfl rfl rfl rfl rfl
    · exact fun _ _ => nested_same rfl rfl rfl rfl rfl rfl
    · exact fun _ => nested_emit rfl
    · exact fun _ => nested_emit rfl
  leave hdl _ args := nested_builtinExit hdl args

/-- **An action** leaves the poll where it was, and loses no signal. -/
theorem dispatchList_nested (O : Outside) (n : Nat) (list : PList) :
    Keeps Nested NestedStop (dispatchList O n list) := dispatchList_keeps (nested_closed O) n list

/-! ## A turn -/

section Turn

variable (O : Outside) (dl : PList → Prog Shell (Int × PList))

/-- The states in which signals have their turns. -/
def turns : List Nat → Shell → List (Nat × Shell)
  | [], _ => []
  | sig :: sigs, s => (sig, (arrive O s).state) :: turns sigs (pollSignal O dl sig s).state

/-- The signal is pending at its turn, and its slot has a command. -/
def due (turn : Nat × Shell) : Bool :=
  turn.2.pending turn.1 && trapIsCommand turn.2.traps turn.1

theorem actions_append (l₂ l₁ : List Entry) :
    actions (l₂ ++ l₁) = actions l₁ ++ actions l₂ := by
  simp [actions, List.reverse_append, List.filterMap_append]

theorem actions_of_silent {s s' : Shell} (h : Silent s s') : actions (added s s') = [] := by
  rw [actions, List.filterMap_eq_nil_iff]
  intro e he
  rw [h e (List.mem_reverse.mp he)]
  rfl

theorem arrive_returns (s : Shell) : arrive O s = .ok (arrive O s).state () := by
  show (if O.arrivals s.log = [] then pure () else _ : Prog Shell Unit) s =
    .ok ((if O.arrivals s.log = [] then pure () else _ : Prog Shell Unit) s).state ()
  split <;> rfl

/-- The state in which the action of a signal may begin. -/
def taken (sig : Nat) (t : Shell) : Shell := { t with pending := update t.pending sig false }

/-- The turn of a signal, behind the arrivals. -/
theorem pollSignal_eq (sig : Nat) (s : Shell) :
    pollSignal O dl sig s =
      if (arrive O s).state.pending sig = true then
        match (arrive O s).state.traps sig with
        | some (c :: act) => runTrapAction dl sig (c :: act) (taken sig (arrive O s).state)
        | _ => .ok (taken sig (arrive O s).state) ()
      else .ok (arrive O s).state () := by
  rw [pollSignal, bind_apply, Prog.bind, arrive_returns]
  generalize (arrive O s).state = t
  show (if t.pending sig = true then _ else _ : Prog Shell Unit) t = if t.pending sig = true then _ else _
  by_cases hpending : t.pending sig = true
  · rw [if_pos hpending, if_pos hpending]
    show (match t.traps sig with
      | some (c :: act) => runTrapAction dl sig (c :: act)
      | _ => pure () : Prog Shell Unit) (taken sig t) = match t.traps sig with
      | some (c :: act) => runTrapAction dl sig (c :: act) (taken sig t)
      | _ => .ok (taken sig t) ()
    cases t.traps sig with
    | none => rfl
    | some act =>
        cases act with
        | nil => rfl
        | cons c act => rfl
  · rw [if_neg hpending, if_neg hpending]
    rfl

/-- An action, behind its note. -/
theorem runTrapAction_nested (hdl : ∀ l, Keeps Nested NestedStop (dl l)) (sig : Nat) (act : Text)
    {s s' : Shell} (h : runTrapAction dl sig act s = .ok s' ()) :
    Nested (noted (.trapAction sig) s) s' ∧ s'.ctx.lastStatus = s.ctx.lastStatus := by
  have hrest : Keeps Nested NestedStop (do
      setLastStatus (128 + sig)
      exempt (runText dl act)
      setLastStatus s.ctx.lastStatus) := by
    apply nested_base.seq (keeps_setLastStatus nested_base _)
    intro _
    apply nested_base.seq (nested_exempt (keeps_runText nested_base.toFlow hdl act))
    intro _
    exact keeps_setLastStatus nested_base _
  have hrun : (do
      setLastStatus (128 + sig)
      exempt (runText dl act)
      setLastStatus s.ctx.lastStatus : Prog Shell Unit) (noted (.trapAction sig) s) = .ok s' () := h
  refine ⟨hrest.ok hrun, ?_⟩
  obtain ⟨_, _, -, hbehind⟩ := bind_ok hrun
  obtain ⟨u, _, -, hlast⟩ := bind_ok hbehind
  obtain ⟨rfl, -⟩ := Outcome.ok.inj hlast
  rfl

/-- What the turn of a signal does, from `s`, with the arrivals at `t`. -/
structure Turned (sig : Nat) (s t s' : Shell) : Prop where
  stays : Stays s s'
  later : Stays t s'
  inTrapPoll : s'.inTrapPoll = true
  noErrexit : s'.noErrexit = s.noErrexit
  lastStatus : s'.ctx.lastStatus = s.ctx.lastStatus
  actions : actions (added s s') = if due (sig, t) then [(sig, t.traps sig)] else []
  others : ∀ other, 0 < other → other ≠ sig →
    caught s.proc other (s.pending other) (added s s') = true → s'.pending other = true
  own : caught s.proc sig false (added t s') = true → s'.pending sig = true

theorem arrive_nested (s : Shell) : Nested s (arrive O s).state :=
  (nested_arrive O).ok (arrive_returns O s)

theorem arrive_lastStatus (s : Shell) : (arrive O s).state.ctx.lastStatus = s.ctx.lastStatus := by
  show ((if O.arrivals s.log = [] then pure () else _ : Prog Shell Unit) s).state.ctx.lastStatus = _
  split <;> rfl

/-- A turn without an action. -/
theorem turned_idle {sig : Nat} {s s' : Shell} (hin : s.inTrapPoll = true)
    (hdue : due (sig, (arrive O s).state) = false)
    (hs' : s' = (arrive O s).state ∨ s' = taken sig (arrive O s).state) :
    Turned sig s (arrive O s).state s' := by
  have hn := arrive_nested O s
  have hw := hn.within hin
  have hlast := arrive_lastStatus O s
  have hactions := actions_of_silent (hn.silent hin)
  generalize (arrive O s).state = t at *
  have hown : caught s.proc sig false (added t t) = true → False := by
    rw [added_eq (l := []) rfl]
    simp [caught]
  rcases hs' with rfl | rfl
  · exact ⟨hn.toStays, Stays.same rfl rfl rfl, hw.inTrapPoll, hw.noErrexit, hlast,
      by rw [hdue]; exact hactions, fun other hother _ => hw.keeping other hother,
      fun h => (hown h).elim⟩
  · refine ⟨⟨⟨hn.log, hn.below⟩, hn.proc, hn.frames⟩, Stays.same rfl rfl rfl, hw.inTrapPoll,
      hw.noErrexit, hlast, by rw [hdue]; exact hactions, fun other hother hne h => ?_,
      fun h => (hown h).elim⟩
    have hpending := hw.keeping other hother h
    show update t.pending sig false other = true
    rwa [update, if_neg hne]

/-- A turn with an action. -/
theorem turned_action (hdl : ∀ l, Keeps Nested NestedStop (dl l)) {sig : Nat} (hsig : 0 < sig)
    {act : Text} {s s' : Shell} (hin : s.inTrapPoll = true)
    (hdue : due (sig, (arrive O s).state) = true)
    (hrun : runTrapAction dl sig act (taken sig (arrive O s).state) = .ok s' ()) :
    Turned sig s (arrive O s).state s' := by
  have hn := arrive_nested O s
  have hw := hn.within hin
  have hlast := arrive_lastStatus O s
  generalize (arrive O s).state = t at *
  obtain ⟨hact, hstatus⟩ := runTrapAction_nested dl hdl sig act hrun
  have hin' : (noted (.trapAction sig) (taken sig t)).inTrapPoll = true := hw.inTrapPoll
  have hwa := hact.within hin'
  -- The record of the turn: the action, its note, the arrivals.
  have hnoted : Stays t (noted (.trapAction sig) (taken sig t)) :=
    ⟨Grew.of_append (l := [t.entry (.trapAction sig)]) rfl fun x hx => by
      rw [List.mem_singleton.mp hx]
      exact ⟨List.suffix_refl _, fun _ => List.suffix_refl _⟩, rfl, rfl⟩
  have hlater : Stays t s' := hnoted.trans hact.toStays
  have hnote : added t (noted (.trapAction sig) (taken sig t)) = [t.entry (.trapAction sig)] :=
    added_eq rfl
  have hbehind := added_trans hnoted.toGrew hact.toGrew
  have hwhole := added_trans hn.toGrew hlater.toGrew
  rw [hnote] at hbehind
  have hsilent := actions_of_silent (hact.silent hin')
  have hcaught (other : Nat) (was : Bool) : caught s.proc other was [t.entry (.trapAction sig)] = was := by
    simp [caught, catches, clears, Shell.entry]
  have hproc : (noted (.trapAction sig) (taken sig t)).proc = s.proc := hn.proc
  refine ⟨hn.toStays.trans hlater, hlater, hwa.inTrapPoll, hwa.noErrexit.trans hw.noErrexit,
    hstatus.trans hlast, ?_, fun other hother hne h => ?_, fun h => ?_⟩
  · rw [hwhole, hbehind, actions_append, actions_append, actions_of_silent (hn.silent hin), hsilent,
      if_pos hdue]
    rfl
  · rw [hwhole, hbehind, caught_append, caught_append, hcaught] at h
    apply hwa.keeping other hother
    rw [hproc]
    refine caught_mono (fun hpending => ?_) _ h
    show update t.pending sig false other = true
    rw [update, if_neg hne]
    exact hw.keeping other hother hpending
  · rw [hbehind, caught_append, hcaught] at h
    apply hwa.keeping sig hsig
    rw [hproc]
    refine caught_mono (fun hfalse => ?_) _ h
    contradiction

/-- **The turn of a signal.** -/
theorem pollSignal_turned (hdl : ∀ l, Keeps Nested NestedStop (dl l)) {sig : Nat} (hsig : 0 < sig)
    (hlt : sig < trapNsig) {s s' : Shell} (hin : s.inTrapPoll = true)
    (hrun : pollSignal O dl sig s = .ok s' ()) : Turned sig s (arrive O s).state s' := by
  rw [pollSignal_eq] at hrun
  by_cases hpending : (arrive O s).state.pending sig = true
  · rw [if_pos hpending] at hrun
    cases htraps : (arrive O s).state.traps sig with
    | none =>
        rw [htraps] at hrun
        apply turned_idle O hin _ (.inr (Outcome.ok.inj hrun).1.symm)
        simp [due, trapIsCommand, htraps]
    | some act =>
        cases act with
        | nil =>
            rw [htraps] at hrun
            apply turned_idle O hin _ (.inr (Outcome.ok.inj hrun).1.symm)
            simp [due, trapIsCommand, htraps]
        | cons c act =>
            rw [htraps] at hrun
            apply turned_action O dl hdl hsig hin _ hrun
            simp [due, trapIsCommand, htraps, hpending, hsig, hlt]
  · rw [if_neg hpending] at hrun
    apply turned_idle O hin _ (.inl (Outcome.ok.inj hrun).1.symm)
    simp [due, hpending]

/-! ## The scan -/

/-- What a scan over some signals does; `ts` are their turns. -/
structure Scanned (sigs : List Nat) (ts : List (Nat × Shell)) (s s' : Shell) : Prop where
  stays : Stays s s'
  inTrapPoll : s'.inTrapPoll = true
  noErrexit : s'.noErrexit = s.noErrexit
  lastStatus : s'.ctx.lastStatus = s.ctx.lastStatus
  actions : actions (added s s') = (ts.filter due).map fun turn => (turn.1, turn.2.traps turn.1)
  others : ∀ other, 0 < other → other ∉ sigs →
    caught s.proc other (s.pending other) (added s s') = true → s'.pending other = true
  passed : ∀ turn ∈ ts, caught s.proc turn.1 false (added turn.2 s') = true →
    s'.pending turn.1 = true

/-- **A scan**, from turn to turn. -/
theorem scanned (hdl : ∀ l, Keeps Nested NestedStop (dl l)) {sigs : List Nat} (hnodup : sigs.Nodup)
    (hsigs : ∀ sig ∈ sigs, 0 < sig ∧ sig < trapNsig) {s s' : Shell} (hin : s.inTrapPoll = true)
    (hrun : forEach (pollSignal O dl) sigs s = .ok s' ()) :
    Scanned sigs (turns O dl sigs s) s s' := by
  induction sigs generalizing s with
  | nil =>
      obtain ⟨rfl, -⟩ := Outcome.ok.inj hrun
      have hrefl := nested_composes.refl s
      have hw := hrefl.within hin
      exact ⟨hrefl.toStays, hin, rfl, rfl, actions_of_silent (hrefl.silent hin),
        fun other hother _ => hw.keeping other hother, fun turn hturn => absurd hturn List.not_mem_nil⟩
  | cons sig sigs ih =>
      obtain ⟨u, _, hturn, hrest⟩ := bind_ok hrun
      obtain ⟨hsig, hlt⟩ := hsigs sig List.mem_cons_self
      obtain ⟨hnotin, hnodup⟩ := List.nodup_cons.mp hnodup
      have ht := pollSignal_turned O dl hdl hsig hlt hin hturn
      have hscan := ih hnodup (fun x hx => hsigs x (List.mem_cons_of_mem _ hx)) ht.inTrapPoll hrest
      have hturns : turns O dl (sig :: sigs) s = (sig, (arrive O s).state) :: turns O dl sigs u := by
        rw [turns, hturn]
        rfl
      have hproc : u.proc = s.proc := ht.stays.proc
      rw [hturns]
      refine ⟨ht.stays.trans hscan.stays, hscan.inTrapPoll, hscan.noErrexit.trans ht.noErrexit,
        hscan.lastStatus.trans ht.lastStatus, ?_, fun other hother hnot h => ?_, fun turn hmem h => ?_⟩
      · rw [added_trans ht.stays.toGrew hscan.stays.toGrew, actions_append, ht.actions, hscan.actions]
        cases hdue : due (sig, (arrive O s).state) <;> simp [hdue]
      · rw [added_trans ht.stays.toGrew hscan.stays.toGrew, caught_append] at h
        apply hscan.others other hother fun hmem => hnot (List.mem_cons_of_mem _ hmem)
        rw [hproc]
        refine caught_mono (ht.others other hother ?_) _ h
        exact fun heq => hnot (heq ▸ List.mem_cons_self)
      · rcases List.mem_cons.mp hmem with rfl | hmem
        · rw [added_trans ht.later.toGrew hscan.stays.toGrew, caught_append] at h
          apply hscan.others sig hsig hnotin
          rw [hproc]
          exact caught_mono ht.own _ h
        · apply hscan.passed turn hmem
          rwa [hproc]

end Turn

/-! ## A poll -/

/-- The state in which the scan begins. -/
def scanning (frame : Frame) (s : Shell) : Shell :=
  { s with inTrapPoll := true, frames := frame :: s.frames }

/-- The turns of a poll. -/
def pollTurns (O : Outside) (n : Nat) (frame : Frame) (s : Shell) : List (Nat × Shell) :=
  turns O (dispatchList O n) (List.range' 1 (trapNsig - 1)) (scanning frame s)

/-- What a poll does that comes back. -/
structure Polled (O : Outside) (n : Nat) (frame : Frame) (s s' : Shell) : Prop where
  /-- Every signal has one turn, in ascending order. -/
  order : (pollTurns O n frame s).map Prod.fst = List.range' 1 (trapNsig - 1)
  /-- The actions that begin, of all that is recorded: once each, those that are due at
  their turn, with the command that is in the slot then. -/
  ran : actions (added s s') =
    ((pollTurns O n frame s).filter due).map fun turn => (turn.1, turn.2.traps turn.1)
  lastStatus : s'.ctx.lastStatus = s.ctx.lastStatus
  noErrexit : s'.noErrexit = s.noErrexit
  inTrapPoll : s'.inTrapPoll = false
  /-- A signal that is caught behind its turn, and not reset since, is pending. -/
  passed : ∀ turn ∈ pollTurns O n frame s,
    caught s.proc turn.1 false (added turn.2 s') = true → s'.pending turn.1 = true
  /-- A poll within the poll does nothing. -/
  nested : ∀ inner t, t.inTrapPoll = true → trapsPoll O (dispatchList O n) inner t = .ok t ()

theorem turns_fst (O : Outside) (dl : PList → Prog Shell (Int × PList)) (sigs : List Nat)
    (s : Shell) : (turns O dl sigs s).map Prod.fst = sigs := by
  induction sigs generalizing s with
  | nil => rfl
  | cons sig sigs ih => rw [turns, List.map_cons, ih]

/-- A shell that has caught USR1, with the action `:`. -/
def signalled : Shell :=
  { Shell.start ⟨fun _ => none, [], [], false, false, false, 3⟩ fun _ => .dfl with
    traps := fun sig => if sig = 10 then some ":".toList else none
    pending := fun sig => sig == 10 }

end Petrush.Verified.Polling

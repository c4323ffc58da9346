import Petrush.Verified.Traversal

/-!
# What a run adds to the record

A run only adds to the record, and what it adds is about its own process at this
point or deeper, or about a child (`dispatchList_grew`).

A property of every run is stated on the record: when every entry meets a
condition, every entry has the property.  `Invariant` collects what has to be
shown for it; `Invariant.dispatchList` is what follows.
-/

namespace Petrush.Verified.Record

open Petrush.Lib.CText
open Petrush.Lib.Run
open Petrush.Mid.Ast
open Petrush.Mid.Builtins
open Petrush.Mid.Dispatcher
open Petrush.Mid.State
open Petrush.Mid.Trap
open Petrush.Verified.Traversal

/-! ## The record grows -/

/-- The entries between two states of a run, the last one first. -/
def added (s s' : Shell) : List Entry := s'.log.take (s'.log.length - s.log.length)

theorem added_eq {s s' : Shell} {l : List Entry} (h : s'.log = l ++ s.log) : added s s' = l := by
  rw [added, h, List.length_append, Nat.add_sub_cancel, List.take_left]

/-- The entry is about the process of the state, at this point or deeper, or about a
process below. -/
def Below (s : Shell) (e : Entry) : Prop :=
  s.proc <:+ e.proc ∧ (e.proc = s.proc → s.frames <:+ e.frames)

/-- The record has grown. -/
structure Grew (s s' : Shell) : Prop where
  log : s'.log = added s s' ++ s.log
  below : ∀ e ∈ added s s', Below s e

/-- It has grown, and the code is back where it was. -/
structure Stays (s s' : Shell) : Prop extends Grew s s' where
  proc : s'.proc = s.proc
  frames : s'.frames = s.frames

theorem Grew.of_append {s s' : Shell} {l : List Entry} (h : s'.log = l ++ s.log)
    (hl : ∀ e ∈ l, Below s e) : Grew s s' := by
  constructor
  · rw [added_eq h, h]
  · rw [added_eq h]
    exact hl

theorem Grew.same {s s' : Shell} (h : s'.log = s.log) : Grew s s' :=
  Grew.of_append (l := []) h fun _ he => absurd he List.not_mem_nil

theorem Stays.same {s s' : Shell} (h : s'.log = s.log) (hp : s'.proc = s.proc)
    (hf : s'.frames = s.frames) : Stays s s' := ⟨Grew.same h, hp, hf⟩

theorem Stays.noted (e : Event) (s : Shell) : Stays s (noted e s) := by
  refine ⟨Grew.of_append (l := [s.entry e]) rfl ?_, rfl, rfl⟩
  intro x hx
  rw [List.mem_singleton.mp hx]
  exact ⟨List.suffix_refl _, fun _ => List.suffix_refl _⟩

theorem grew_emit (e : Event) : Keeps Stays Grew (emit e) := Keeps.modify (Stays.noted e)

theorem added_trans {s t u : Shell} (h : Grew s t) (k : Grew t u) :
    added s u = added t u ++ added s t := by
  apply added_eq
  rw [k.log, h.log, List.append_assoc, added_eq h.log]

/-- What is added behind a first part of a run. -/
theorem added_behind {s t u : Shell} {l : List Entry} (ht : t.log = l ++ s.log) (h : Grew t u) :
    added s u = added t u ++ l := by
  apply added_eq
  rw [h.log, ht, List.append_assoc]

theorem Grew.trans {s t u : Shell} (h : Stays s t) (k : Grew t u) : Grew s u := by
  constructor
  · rw [added_trans h.toGrew k, List.append_assoc, ← h.log, ← k.log]
  · intro e he
    rw [added_trans h.toGrew k] at he
    rcases List.mem_append.mp he with hu | ht
    · have hb := k.below e hu
      rwa [Below, h.proc, h.frames] at hb
    · exact h.below e ht

theorem Stays.trans {s t u : Shell} (h : Stays s t) (k : Stays t u) : Stays s u :=
  ⟨Grew.trans h k.toGrew, k.proc.trans h.proc, k.frames.trans h.frames⟩

theorem grew_composes : Composes Stays Grew where
  refl _ := Stays.same rfl rfl rfl
  trans := Stays.trans
  stop _ := Grew.same rfl
  transStop := Grew.trans

theorem grew_within {α : Type} (frame : Frame) {c : Prog Shell α} (hc : Keeps Stays Grew c) :
    Keeps Stays Grew (within frame c) := by
  intro s
  have hback : ∀ t, Grew { s with frames := frame :: s.frames } t → Grew s t := by
    intro t ht
    refine Grew.of_append ht.log ?_
    intro e he
    have hb := ht.below e he
    exact ⟨hb.1, fun hp => (List.suffix_cons _ _).trans (hb.2 hp)⟩
  apply bind_holds
  show Outcome.Holds _ _ (Outcome.ok { s with frames := frame :: s.frames } ())
  apply bind_holds
  apply (hc _).imp
  · intro a t ht
    refine ⟨Grew.of_append (hback t ht.toGrew).log (hback t ht.toGrew).below, ht.proc, ?_⟩
    show t.frames.tail = s.frames
    rw [ht.frames]
    rfl
  · exact hback

/-! ## What the process notes itself -/

/-- The process itself has noted it between two states. -/
def Own (p : Event → Bool) (s s' : Shell) : Prop :=
  ∃ e ∈ added s s', e.proc = s.proc ∧ p e.event = true

theorem own_trans {p : Event → Bool} {s t u : Shell} (h : Stays s t) (k : Grew t u) :
    Own p s u ↔ Own p s t ∨ Own p t u := by
  unfold Own
  rw [added_trans h.toGrew k, h.proc]
  constructor
  · rintro ⟨e, he, hp⟩
    rcases List.mem_append.mp he with hu | ht
    · exact .inr ⟨e, hu, hp⟩
    · exact .inl ⟨e, ht, hp⟩
  · rintro (⟨e, he, hp⟩ | ⟨e, he, hp⟩)
    · exact ⟨e, List.mem_append_right _ he, hp⟩
    · exact ⟨e, List.mem_append_left _ he, hp⟩

instance (p : Event → Bool) (s s' : Shell) : Decidable (Own p s s') :=
  inferInstanceAs (Decidable (∃ e ∈ added s s', _))

theorem own_same {p : Event → Bool} {s s' : Shell} (h : s'.log = s.log) : ¬ Own p s s' := by
  rintro ⟨e, he, -⟩
  rw [added_eq (l := []) h] at he
  exact List.not_mem_nil he

theorem own_noted {p : Event → Bool} (e : Event) (s : Shell) :
    Own p s (noted e s) ↔ p e = true := by
  rw [Own, added_eq (l := [s.entry e]) rfl]
  constructor
  · rintro ⟨x, hx, -, hp⟩
    rw [List.mem_singleton.mp hx] at hp
    exact hp
  · exact fun hp => ⟨_, List.mem_singleton_self _, rfl, hp⟩

/-! ## Children -/

/-- The state in which a child starts. -/
def born (child : Child) (prepare : Shell → Shell) (s : Shell) : Shell :=
  { prepare (noted (.forked child s.log.length) s) with
    proc := (child, s.log.length) :: s.proc
    frames := []
    waits := [] }

/-- The state in which its parent goes on. -/
def forked {α : Type} (child : Child) (prepare : Shell → Shell) (body : Prog Shell α)
    (s : Shell) : Shell :=
  { noted (.forked child s.log.length) s with
    log := (body (born child prepare s)).state.log }

theorem fork_eq {α : Type} (child : Child) (prepare : Shell → Shell) (body : Prog Shell α)
    (s : Shell) : fork child prepare body s = .ok (forked child prepare body s) () := rfl

theorem Prepares.log {child : Child} {prepare : Shell → Shell} (h : Prepares child prepare)
    (s : Shell) : (prepare s).log = s.log := by
  cases h <;> rfl

theorem grew_state {α : Type} {c : Prog Shell α} (hc : Keeps Stays Grew c) (s : Shell) :
    Grew s (c s).state := by
  have hg : Keeps Grew Grew c := hc.imp (fun _ _ h => h.toGrew) fun _ _ h => h
  exact hg.state s

/-- An entry of a child is not one of its parent. -/
theorem proc_ne_of_below {child : Child} {prepare : Shell → Shell} {s : Shell} {e : Entry}
    (h : Below (born child prepare s) e) : e.proc ≠ s.proc := by
  intro hproc
  have hlen := h.1.length_le
  rw [hproc] at hlen
  exact absurd hlen (Nat.not_succ_le_self _)

section Fork

variable {α : Type} {child : Child} {prepare : Shell → Shell} {body : Prog Shell α}

theorem added_forked (hp : Prepares child prepare) (hb : Keeps Stays Grew body) (s : Shell) :
    added s (forked child prepare body s) =
      added (born child prepare s) (body (born child prepare s)).state ++
        [s.entry (.forked child s.log.length)] := by
  apply added_eq
  show (body (born child prepare s)).state.log = _
  rw [(grew_state hb _).log, List.append_assoc]
  congr 1
  exact Prepares.log hp _

theorem grew_fork (hp : Prepares child prepare) (hb : Keeps Stays Grew body) :
    Keeps Stays Grew (fork child prepare body) := by
  intro s
  have hadd := added_forked hp hb s
  show Stays s (forked child prepare body s)
  refine ⟨⟨?_, ?_⟩, rfl, rfl⟩
  · rw [hadd, List.append_assoc]
    show (body (born child prepare s)).state.log = _
    rw [(grew_state hb _).log]
    congr 1
    exact Prepares.log hp _
  · intro e he
    rw [hadd] at he
    rcases List.mem_append.mp he with hchild | hown
    · have hbelow := (grew_state hb _).below e hchild
      exact ⟨(List.suffix_cons _ _).trans hbelow.1,
        fun h => absurd h (proc_ne_of_below hbelow)⟩
    · rw [List.mem_singleton.mp hown]
      exact ⟨List.suffix_refl _, fun _ => List.suffix_refl _⟩

/-- A parent notes nothing but the fork. -/
theorem own_forked {p : Event → Bool} (hp : Prepares child prepare) (hb : Keeps Stays Grew body)
    (s : Shell) :
    Own p s (forked child prepare body s) ↔ p (.forked child s.log.length) = true := by
  rw [Own, added_forked hp hb]
  constructor
  · rintro ⟨e, he, hproc, hnote⟩
    rcases List.mem_append.mp he with hchild | hown
    · exact absurd hproc (proc_ne_of_below ((grew_state hb _).below e hchild))
    · rw [List.mem_singleton.mp hown] at hnote
      exact hnote
  · exact fun h => ⟨_, List.mem_append_right _ (List.mem_singleton_self _), rfl, h⟩

end Fork

/-! ## Every run -/

theorem grew_control : Control Stays Grew where
  toComposes := grew_composes
  quiet h := Stays.same (congrArg Core.log h) (congrArg Core.proc h) (congrArg Core.frames h)
  fds _ _ := Stays.same rfl rfl rfl
  flags _ _ := Stays.same rfl rfl rfl
  note s e _ := Stays.noted e s
  within := grew_within

theorem grew_base : Base fun _ => Keeps Stays Grew := grew_control.base

theorem grew_callFn {dl : PList → Prog Shell (Int × PList)} (hdl : ∀ l, Keeps Stays Grew (dl l))
    (name : Text) (args : List Text) (body : PList) :
    Keeps Stays Grew (callFn dl name args body) := by
  apply keeps_callFn grew_base _ _ _ _ name args (grew_within .call (hdl body))
  · exact fun _ _ _ => Stays.same rfl rfl rfl
  · exact fun _ _ => Stays.same rfl rfl rfl
  · exact fun _ => grew_emit _
  · exact fun _ => grew_emit _

theorem grew_stageChild {O : Outside} {dl : PList → Prog Shell (Int × PList)} (since i n : Nat)
    {cmd : Cmd} (hrun : Keeps Stays Grew (callBuiltin O dl cmd)) :
    Keeps Stays Grew (stageChild O dl since i n cmd) := by
  have hexec := keeps_execv grew_base (fun _ _ => grew_emit _) id cmd
  apply keeps_stageChild grew_base (Keeps.exit grew_composes) _ since i n
  · exact keeps_stageRun grew_base (Keeps.exit grew_composes) hexec hrun
  · exact fun _ _ => Stays.same rfl rfl rfl

theorem grew_runExitTrap {O : Outside} {dl : PList → Prog Shell (Int × PList)}
    (hdl : ∀ l, Keeps Stays Grew (dl l)) (status : Int) :
    Keeps Stays Grew (runExitTrap O dl status) := by
  apply keeps_runExitTrap grew_base _ _ (grew_emit _) (grew_control.poll hdl _)
    (keeps_exitAction grew_control hdl)
  · exact fun _ _ => Stays.same rfl rfl rfl
  · exact fun _ _ => grew_emit _

theorem grew_steps (O : Outside) : Steps O Stays Grew where
  toControl := grew_control
  raise := Keeps.bind grew_composes (grew_emit _) fun _ _ => Stays.same rfl rfl rfl
  lower _ := Stays.same rfl rfl rfl
  item s status := Stays.noted _ s
  announce cmd := keeps_announce grew_control (fun _ => Stays.noted _) (fun _ => Stays.noted _) cmd
  external cmd := keeps_execv grew_base (fun _ _ => grew_emit _) _ cmd
  stage since i n cmd hrun := grew_fork .stage (grew_stageChild since i n hrun)
  push name _ :=
    keeps_localPush grew_base.toFlow (fun _ _ _ => grew_emit _)
      (fun _ _ => Stays.same rfl rfl rfl) name
  slot slot action := by
    apply grew_base.seq (grew_emit _)
    intro _ s
    show Stays s _
    simp only
    split
    · exact Stays.same rfl rfl rfl
    · split <;> exact Stays.same rfl rfl rfl
  fork := grew_fork
  wait k status hpoll hstart :=
    keeps_waiting grew_base (fun _ _ _ => Stays.same rfl rfl rfl) k status hpoll hstart
  call hdl name args body := grew_callFn hdl name args body
  leave hdl _ args := keeps_builtinExit grew_base (fun _ => grew_emit _)
    (fun _ => grew_control.ends (grew_emit _) _) (grew_runExitTrap hdl) args

/-- **A run adds to the record.** -/
theorem grew_closed (O : Outside) : Closed O fun _ => Keeps Stays Grew := (grew_steps O).closed

theorem grew_runBuiltin {O : Outside} {dl : PList → Prog Shell (Int × PList)}
    (hdl : ∀ l, Keeps Stays Grew (dl l)) (cmd : Cmd) : Keeps Stays Grew (runBuiltin O dl cmd) :=
  keeps_runBuiltin (grew_closed O).toLocal
    ((grew_closed O).leave hdl (grew_control.poll hdl)) ((grew_closed O).source hdl) cmd

theorem dispatchList_grew (O : Outside) (n : Nat) (list : PList) :
    Keeps Stays Grew (dispatchList O n list) := dispatchList_keeps (grew_closed O) n list

end Petrush.Verified.Record

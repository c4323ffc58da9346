import Petrush.Verified.Dispositions

/-!
# Unwinding

`return` and a shell abort are requests: a flag is set, and every loop that runs lists
tests it before it goes on.  What is asked for is kept in the record, and a property of
the record says that nothing goes on before it is done.

`Runs` is the form of such facts: under a condition on the record, a program goes from
states with one predicate to states with another.  `Unwinds` collects what has to be shown
of a kind of request: `Free` says that none is being carried out, `Done` what a list leaves
with its status.  The dispatcher is gone through once for all kinds.

## Main results

* `Runs.bind`, `Runs.fork`, `Runs.within`: the rules.
* `Unwinds.dispatchList`: what every list does.
-/

namespace Petrush.Verified.Unwinding

open Petrush.Lib.CText
open Petrush.Lib.Run
open Petrush.Foundation.Process
open Petrush.Mid.Ast
open Petrush.Mid.Builtins
open Petrush.Mid.Dispatcher
open Petrush.Mid.Expand
open Petrush.Mid.State
open Petrush.Mid.Trap
open Petrush.Verified.Dispositions (Numbered lt_of_numbered)
open Petrush.Verified.Invariants
open Petrush.Verified.Record
open Petrush.Verified.Traversal

/-! ## Predicates along a run -/

/-- Under the condition on the record, the program goes from `I` to `J`, and all it notes
has the property. -/
def Runs (Cond Good : Entry → List Entry → Prop) {α : Type} (I : Shell → Prop)
    (c : Prog Shell α) (J : α → Shell → Prop) : Prop :=
  ∀ s, (c s).Holds
    (fun a t => Stays s t ∧ (Every Cond t.log → I s → Every Good s.log → J a t ∧ Every Good t.log))
    (fun t => Grew s t ∧ (Every Cond t.log → I s → Every Good s.log → Every Good t.log))

section Rules

variable {Cond Good : Entry → List Entry → Prop} {α β : Type} {I I' : Shell → Prop}

theorem Runs.imp {c : Prog Shell α} {J J' : α → Shell → Prop} (h : Runs Cond Good I c J)
    (hi : ∀ s, I' s → I s) (hj : ∀ a s, J a s → J' a s) : Runs Cond Good I' c J' := by
  intro s
  refine (h s).imp ?_ ?_
  · intro a t ht
    refine ⟨ht.1, fun hc hs hg => ?_⟩
    have hend := ht.2 hc (hi s hs) hg
    exact ⟨hj a t hend.1, hend.2⟩
  · exact fun t ht => ⟨ht.1, fun hc hs => ht.2 hc (hi s hs)⟩

theorem Runs.pre {c : Prog Shell α} {J : α → Shell → Prop} (h : Runs Cond Good I c J)
    (hi : ∀ s, I' s → I s) : Runs Cond Good I' c J := h.imp hi fun _ _ hj => hj

theorem Runs.post {c : Prog Shell α} {J J' : α → Shell → Prop} (h : Runs Cond Good I c J)
    (hj : ∀ a s, J a s → J' a s) : Runs Cond Good I c J' := h.imp (fun _ hi => hi) hj

/-- The condition may be used in between. -/
theorem Runs.learn {c : Prog Shell α} {J J' : α → Shell → Prop} (h : Runs Cond Good I c J)
    (hj : ∀ a s, Every Cond s.log → J a s → J' a s) : Runs Cond Good I c J' := by
  intro s
  refine (h s).imp (fun a t ht => ?_) fun _ ht => ht
  refine ⟨ht.1, fun hc hs hg => ?_⟩
  have hend := ht.2 hc hs hg
  exact ⟨hj a t hc hend.1, hend.2⟩

/-- What the growth of the record keeps. -/
theorem Runs.along {c : Prog Shell α} {J : α → Shell → Prop} {A : Shell → Prop}
    (h : Runs Cond Good I c J) (hA : ∀ s t, Stays s t → A s → A t) :
    Runs Cond Good (fun s => I s ∧ A s) c fun a s => J a s ∧ A s := by
  intro s
  refine (h s).imp (fun a t ht => ?_) fun _ ht => ⟨ht.1, fun hc hs => ht.2 hc hs.1⟩
  refine ⟨ht.1, fun hc hs hg => ?_⟩
  have hend := ht.2 hc hs.1 hg
  exact ⟨⟨hend.1, hA s t ht.1 hs.2⟩, hend.2⟩

/-- The code is back where it was. -/
theorem Runs.framed {c : Prog Shell α} {J : α → Shell → Prop} (h : Runs Cond Good I c J)
    (frames : List Frame) :
    Runs Cond Good (fun s => I s ∧ s.frames = frames) c fun a s => J a s ∧ s.frames = frames :=
  h.along fun _ _ hst hs => hst.frames.trans hs

/-- It may be shown for each place. -/
theorem Runs.atFrames {c : Prog Shell α} {J : α → Shell → Prop}
    (h : ∀ frames, Runs Cond Good (fun s => I s ∧ s.frames = frames) c J) :
    Runs Cond Good I c J := by
  intro s
  refine (h s.frames s).imp (fun a t ht => ?_) fun t ht => ?_
  · exact ⟨ht.1, fun hc hs => ht.2 hc ⟨hs, rfl⟩⟩
  · exact ⟨ht.1, fun hc hs => ht.2 hc ⟨hs, rfl⟩⟩

/-- Every entry has the property at the end, whichever way the program ends. -/
theorem Runs.every {c : Prog Shell α} {J : α → Shell → Prop} (h : Runs Cond Good I c J) {s : Shell}
    (hs : I s) (hg : Every Good s.log) (hcond : Every Cond (c s).state.log) :
    Every Good (c s).state.log := by
  have hends : (c s).Holds (fun _ t => Every Cond t.log → Every Good t.log)
      (fun t => Every Cond t.log → Every Good t.log) :=
    (h s).imp (fun _ _ ht hc => (ht.2 hc hs hg).2) fun _ ht hc => ht.2 hc hs hg
  exact hends.state hcond

theorem Runs.pure {J : α → Shell → Prop} {a : α} (h : ∀ s, I s → J a s) :
    Runs Cond Good I (pure a) J :=
  fun s => ⟨Stays.same rfl rfl rfl, fun _ hs hg => ⟨h s hs, hg⟩⟩

theorem Runs.exit {J : α → Shell → Prop} (code : Int) : Runs Cond Good I (exit code) J :=
  fun _ => ⟨Grew.same rfl, fun _ _ hg => hg⟩

theorem Runs.cut {J : α → Shell → Prop} : Runs Cond Good I cut J :=
  fun _ => ⟨Grew.same rfl, fun _ _ hg => hg⟩

/-- **One program after another.** -/
theorem Runs.bind {c : Prog Shell α} {f : α → Prog Shell β} {M : α → Shell → Prop}
    {J : β → Shell → Prop} (hc : Runs Cond Good I c M) (hf : ∀ a, Runs Cond Good (M a) (f a) J) :
    Runs Cond Good I (c >>= f) J := by
  intro s
  apply bind_holds
  refine (hc s).imp (fun a t ht => ?_) fun t ht => ht
  refine (hf a t).imp ?_ ?_
  · intro b u hu
    refine ⟨ht.1.trans hu.1, fun hcond hs hg => ?_⟩
    have hmid := ht.2 (hcond.of_grew hu.1.toGrew) hs hg
    exact hu.2 hcond hmid.1 hmid.2
  · intro u hu
    refine ⟨Grew.trans ht.1 hu.1, fun hcond hs hg => ?_⟩
    have hmid := ht.2 (hcond.of_grew hu.1) hs hg
    exact hu.2 hcond hmid.1 hmid.2

/-- What is looked at is what the state is like. -/
theorem Runs.look {f : Shell → α} {k : α → Prog Shell β} {J : β → Shell → Prop}
    (h : ∀ a, Runs Cond Good (fun s => I s ∧ f s = a) (k a) J) :
    Runs Cond Good I (look f >>= k) J := by
  refine Runs.bind (M := fun a s => I s ∧ f s = a) (fun s => ?_) h
  exact ⟨Stays.same rfl rfl rfl, fun _ hs hg => ⟨⟨hs, rfl⟩, hg⟩⟩

/-- A change of the state that the record does not show. -/
theorem Runs.modify {f : Shell → Shell} {J : Unit → Shell → Prop} (hlog : ∀ s, (f s).log = s.log)
    (hproc : ∀ s, (f s).proc = s.proc) (hframes : ∀ s, (f s).frames = s.frames)
    (h : ∀ s, I s → J () (f s)) : Runs Cond Good I (modify f) J := by
  intro s
  refine ⟨Stays.same (hlog s) (hproc s) (hframes s), fun _ hs hg => ⟨h s hs, ?_⟩⟩
  rw [hlog s]
  exact hg

theorem Runs.emit {e : Event} {J : Unit → Shell → Prop}
    (h : ∀ s, Every Cond (s.entry e :: s.log) → I s → Every Good s.log →
      J () (noted e s) ∧ Good (s.entry e) s.log) : Runs Cond Good I (emit e) J := by
  intro s
  refine ⟨Stays.noted e s, fun hc hs hg => ?_⟩
  have hnew := h s hc hs hg
  exact ⟨hnew.1, .cons hnew.2 hg⟩

theorem Runs.ite {p : Prop} [Decidable p] {c d : Prog Shell α} {J : α → Shell → Prop}
    (hc : p → Runs Cond Good I c J) (hd : ¬ p → Runs Cond Good I d J) :
    Runs Cond Good I (if p then c else d) J := by
  by_cases hp : p
  · rw [if_pos hp]
    exact hc hp
  · rw [if_neg hp]
    exact hd hp

theorem Runs.onlyIf {p : Prop} [Decidable p] {c : Prog Shell Unit}
    (hc : Runs Cond Good I c fun _ => I) : Runs Cond Good I (onlyIf p c) fun _ => I :=
  Runs.ite (fun _ => hc) fun _ => Runs.pure fun _ hs => hs

theorem Runs.forEach {f : α → Prog Shell Unit} (hf : ∀ x, Runs Cond Good I (f x) fun _ => I)
    (xs : List α) : Runs Cond Good I (forEach f xs) fun _ => I := by
  induction xs with
  | nil => exact Runs.pure fun _ hs => hs
  | cons x xs ih => exact Runs.bind (hf x) fun _ => ih

/-- The code runs as a part of something, and is back where it was. -/
theorem Runs.within {frame : Frame} {c : Prog Shell α} {J J' : α → Shell → Prop}
    (hc : Runs Cond Good I' c J')
    (hi : ∀ s, I s → I' { s with frames := frame :: s.frames })
    (hj : ∀ s a t, Stays { s with frames := frame :: s.frames } t → Every Cond t.log → I s →
      J' a t → J a { t with frames := s.frames }) :
    Runs Cond Good I (within frame c) J := by
  intro s
  have hgrew := grew_within (c := c) frame
    (fun s => (hc s).imp (fun _ _ h => h.1) fun _ h => h.1) s
  have hinv : (Mid.State.within frame c s).Holds
      (fun a t => Every Cond t.log → I s → Every Good s.log → J a t ∧ Every Good t.log)
      (fun t => Every Cond t.log → I s → Every Good s.log → Every Good t.log) := by
    apply bind_holds
    show Outcome.Holds _ _ (Outcome.ok { s with frames := frame :: s.frames } ())
    apply bind_holds
    refine (hc _).imp ?_ fun t ht hcond hs hg => ht.2 hcond (hi s hs) hg
    intro a t ht hcond hs hg
    have hend := ht.2 hcond (hi s hs) hg
    have hframes : t.frames.tail = s.frames := by rw [ht.1.frames]; rfl
    show J a { t with frames := t.frames.tail } ∧ _
    rw [hframes]
    exact ⟨hj s a t ht.1 hcond hs hend.1, hend.2⟩
  exact (hgrew.and hinv).imp (fun _ _ h => h) fun _ h => h

/-- **A child runs on a copy**, and its parent goes on behind what it notes. -/
theorem Runs.fork {child : Child} {prepare : Shell → Shell} {body : Prog Shell α}
    {J : Unit → Shell → Prop} {J' : α → Shell → Prop} (hp : Prepares child prepare)
    (hbody : Runs Cond Good I' body J')
    (hborn : ∀ s, I s → Every Good s.log → I' (born child prepare s))
    (hgood : ∀ s, I s → Good (s.entry (.forked child s.log.length)) s.log)
    (hback : ∀ s l, (∀ e ∈ l, (child, s.log.length) :: s.proc <:+ e.proc) → I s →
      ∀ log, log = l ++ s.entry (.forked child s.log.length) :: s.log →
        J () { noted (.forked child s.log.length) s with log := log }) :
    Runs Cond Good I (fork child prepare body) J := by
  intro s
  have hg : Keeps Stays Grew body := fun s => (hbody s).imp (fun _ _ h => h.1) fun _ h => h.1
  have hstay : Stays s (forked child prepare body s) := grew_fork hp hg s
  have hlog : (forked child prepare body s).log =
      added (born child prepare s) (body (born child prepare s)).state ++
        s.entry (.forked child s.log.length) :: s.log := by
    rw [hstay.log, added_forked hp hg, List.append_assoc, List.singleton_append]
  have hbelow := (grew_state hg (born child prepare s)).below
  rw [fork_eq]
  refine ⟨hstay, fun hcond hs hgs => ⟨?_, ?_⟩⟩
  · exact hback s _ (fun e he => (hbelow e he).1) hs _ hlog
  · have hbornGood : Every Good (born child prepare s).log := by
      have hprep : (born child prepare s).log =
          s.entry (.forked child s.log.length) :: s.log := Prepares.log hp _
      rw [hprep]
      exact .cons (hgood s hs) hgs
    have hends : (body (born child prepare s)).Holds
        (fun _ t => Every Cond t.log → Every Good t.log)
        (fun t => Every Cond t.log → Every Good t.log) := by
      refine (hbody (born child prepare s)).imp ?_ ?_
      · exact fun _ t ht hc => (ht.2 hc (hborn s hs hgs) hbornGood).2
      · exact fun t ht hc => ht.2 hc (hborn s hs hgs) hbornGood
    exact hends.state hcond

end Rules

/-! ## What has to be shown -/

/-- Where the code is, and what has been done. -/
structure Place where
  log : List Entry
  proc : Proc
  frames : List Frame

def place (s : Shell) : Place := ⟨s.log, s.proc, s.frames⟩

/-- And the requests. -/
structure Mark extends Place where
  returning : Bool
  returnStatus : Int
  shellAbort : Bool

def mark (s : Shell) : Mark := ⟨place s, s.returning, s.returnStatus, s.shellAbort⟩

theorem place_of_mark {s t : Shell} (h : mark t = mark s) : place t = place s :=
  congrArg Mark.toPlace h

/-! ## Processes -/

/-- A simple command is dispatched. -/
def dispatches : Event → Bool
  | .dispatch _ | .background _ => true
  | _ => false

/-- Processes are numbered by entries before. -/
def Dated (s : Shell) : Prop := ∀ c ∈ s.proc, c.2 < s.log.length

theorem Dated.noted {s : Shell} (h : Dated s) (e : Event) : Dated (noted e s) :=
  fun c hc => Nat.lt_succ_of_lt (h c hc)

theorem Dated.same {s t : Shell} (hs : Dated s) (h : place t = place s) : Dated t := by
  have hlog : t.log = s.log := congrArg Place.log h
  have hproc : t.proc = s.proc := congrArg Place.proc h
  rw [Dated, hproc, hlog]
  exact hs

/-- A process that is only starting has done nothing. -/
theorem Dated.born {child : Child} {prepare : Shell → Shell} (hp : Prepares child prepare)
    {s : Shell} (hs : Dated s) (hg : Every Numbered s.log) : Dated (Record.born child prepare s) ∧
      ∀ e ∈ (Record.born child prepare s).log, e.proc ≠ (Record.born child prepare s).proc := by
  have hlog : (Record.born child prepare s).log = s.entry (.forked child s.log.length) :: s.log :=
    Prepares.log hp _
  rw [Dated, hlog]
  constructor
  · intro c hc
    rcases List.mem_cons.mp hc with rfl | hc
    · exact Nat.lt_succ_self _
    · exact Nat.lt_succ_of_lt (hs c hc)
  · intro e he heq
    have hown : (child, s.log.length) ∈ e.proc := by
      rw [heq]
      exact List.mem_cons_self
    rcases List.mem_cons.mp he with rfl | he
    · exact absurd (hs _ hown) (Nat.lt_irrefl _)
    · exact absurd (lt_of_numbered hg e he _ hown) (Nat.lt_irrefl _)

theorem Dated.back {s : Shell} {child : Child} {l log : List Entry}
    (hlog : log = l ++ s.entry (.forked child s.log.length) :: s.log) (hs : Dated s) :
    Dated { Traversal.noted (.forked child s.log.length) s with log := log } := by
  intro c hc
  have hlt := hs c hc
  show c.2 < log.length
  rw [hlog, List.length_append, List.length_cons]
  omega

section Polls

variable {O : Outside} {Cond Good : Entry → List Entry → Prop} {I : Shell → Prop}
variable {dl : PList → Prog Shell (Int × PList)} {P J : Shell → Prop}

/-- A change that a predicate does not depend on. -/
theorem Runs.still {α : Type} {f : Shell → Shell} {k : Unit → Prog Shell α}
    {K : α → Shell → Prop} (hP : ∀ {s t}, mark t = mark s → P s → P t)
    (hf : ∀ s, mark (f s) = mark s) (hk : Runs Cond Good P (k ()) K) :
    Runs Cond Good P (Lib.Run.modify f >>= k) K := by
  have hplace := fun s => place_of_mark (hf s)
  refine Runs.bind (Runs.modify ?_ ?_ ?_ fun s hs => hP (hf s) hs) fun _ => hk
  · exact fun s => congrArg Place.log (hplace s)
  · exact fun s => congrArg Place.proc (hplace s)
  · exact fun s => congrArg Place.frames (hplace s)

theorem runs_arrive (hP : ∀ {s t}, mark t = mark s → P s → P t)
    (harrived : ∀ s sigs, P s → P (noted (.arrived sigs) s) ∧
      Good (s.entry (.arrived sigs)) s.log) :
    Runs Cond Good P (arrive O) fun _ => P := by
  apply Runs.look
  intro sigs
  refine Runs.pre ?_ fun _ hs => hs.1
  apply Runs.ite
  · exact fun _ => Runs.pure fun _ hs => hs
  · intro _
    apply Runs.bind (M := fun _ => P) (Runs.emit fun s _ hs _ => harrived s sigs hs)
    intro _
    exact Runs.modify (fun _ => rfl) (fun _ => rfl) (fun _ => rfl) fun s hs => hP (s := s) rfl hs

/-- **A poll**, when its actions keep a predicate. -/
theorem runs_trapsPoll {frame : Frame} (hI : ∀ {s t}, mark t = mark s → I s → I t)
    (hP : ∀ {s t}, mark t = mark s → P s → P t)
    (hJ : ∀ {s t}, mark t = mark s → J s → J t)
    (harrived : ∀ s sigs, P s → P (noted (.arrived sigs) s) ∧
      Good (s.entry (.arrived sigs)) s.log)
    (haction : ∀ sig act, Runs Cond Good P (runTrapAction dl sig act) fun _ => P)
    (hskip : ∀ s, I s → J s) (henter : ∀ s, I s → P { s with frames := frame :: s.frames })
    (hleave : ∀ s t, Stays { s with frames := frame :: s.frames } t → Every Cond t.log → I s →
      P t → J { t with frames := s.frames }) :
    Runs Cond Good I (trapsPoll O dl frame) fun _ => J := by
  apply Runs.look
  intro v
  refine Runs.pre ?_ fun _ hs => hs.1
  apply Runs.ite
  · exact fun _ => Runs.pure fun s hs => hskip s hs
  · intro _
    refine Runs.still hI (fun _ => rfl) ?_
    apply Runs.bind (M := fun _ => J)
    · refine Runs.within (Runs.forEach (fun sig => ?_) _) henter fun s _ t => hleave s t
      apply Runs.bind (runs_arrive hP harrived)
      intro _
      apply Runs.look
      intro w
      refine Runs.pre ?_ fun _ hs => hs.1
      apply Runs.ite
      · intro _
        refine Runs.still hP (fun _ => rfl) ?_
        split
        · exact haction _ _
        · exact Runs.pure fun _ hs => hs
      · exact fun _ => Runs.pure fun _ hs => hs
    · intro _
      exact Runs.modify (fun _ => rfl) (fun _ => rfl) (fun _ => rfl) fun s hs => hJ (s := s) rfl hs

/-- A condition that `errexit` does not look at. -/
theorem runs_exempt {α : Type} {c : Prog Shell α} {K : α → Shell → Prop}
    (hP : ∀ {s t}, mark t = mark s → P s → P t)
    (hK : ∀ {a s t}, mark t = mark s → K a s → K a t) (hc : Runs Cond Good P c K) :
    Runs Cond Good P (exempt c) K := by
  refine Runs.still hP (fun _ => rfl) ?_
  apply Runs.bind hc
  intro a
  refine Runs.still hK (fun _ => rfl) ?_
  exact Runs.pure fun _ hs => hs

/-- **The end of a shell**, with its EXIT action. -/
theorem runs_runExitTrap {F Q : Shell → Prop} (status : Int)
    (hP : ∀ {s t}, mark t = mark s → P s → P t) (hF : ∀ {s t}, mark t = mark s → F s → F t)
    (hQ : ∀ {s t}, mark t = mark s → Q s → Q t) (hend : ∀ s, P s → Q s)
    (hpoll : Runs Cond Good I (trapsPoll O dl .leaving) fun _ => P)
    (hleave : ∀ s b, P s → P (noted (.leave status b) s) ∧ Good (s.entry (.leave status b)) s.log)
    (haction : Runs Cond Good P (emit .exitAction) fun _ => F)
    (hrun : ∀ act, Runs Cond Good F (exempt (within .exitTrap (runText dl act))) fun _ => Q) :
    Runs Cond Good I (runExitTrap O dl status) fun _ => Q := by
  apply Runs.bind hpoll
  intro _
  apply Runs.look
  intro v
  refine Runs.pre ?_ fun _ hs => hs.1
  apply Runs.bind (M := fun _ => P) (Runs.emit fun s _ hs _ => hleave s _ hs)
  intro _
  apply Runs.ite
  · exact fun _ => Runs.pure fun s hs => hend s hs
  · intro _
    split
    · refine Runs.still hP (fun _ => rfl) ?_
      apply Runs.bind haction
      intro _
      refine Runs.still hF (fun _ => rfl) ?_
      apply Runs.bind (hrun _)
      intro _
      refine Runs.still hQ (fun _ => rfl) ?_
      refine Runs.still hQ (fun _ => rfl) ?_
      exact Runs.pure fun _ hs => hs
    · exact Runs.pure fun s hs => hend s hs

/-- **The lines of a file**, when nothing is asked for between them. -/
theorem runs_runLines {M Q : Int → Shell → Prop} (hend : ∀ s a, P s → Q a s)
    (hready : ∀ list status, Runs Cond Good P (dispatchReady dl list status) M)
    (htake : ∀ status, Runs Cond Good (M status) takeShellAbort fun abort s =>
      (abort = true → Q status s) ∧ (abort = false → P s)) (raws : List Text) :
    ∀ mode status, Runs Cond Good P (runLines dl mode status raws) Q := by
  induction raws with
  | nil =>
      intro mode status
      cases mode with
      | command => exact Runs.pure fun s hs => hend s status hs
      | filling list =>
          apply Runs.ite
          · exact fun _ => Runs.pure fun s hs => hend s 1 hs
          · intro _
            apply Runs.bind (hready _ _)
            intro st
            apply Runs.bind (htake st)
            intro abort
            apply Runs.pure
            intro s hs
            cases abort with
            | true => exact hs.1 rfl
            | false => exact hend s st (hs.2 rfl)
  | cons raw raws ih =>
      intro mode status
      unfold runLines
      apply Runs.look
      intro aliases
      refine Runs.pre ?_ fun _ hs => hs.1
      split
      · exact ih _ _
      · exact ih _ _
      · exact Runs.pure fun s hs => hend s 1 hs
      · exact ih _ _
      · apply Runs.bind (hready _ _)
        intro st
        apply Runs.bind (htake st)
        intro abort
        cases abort with
        | true => exact Runs.pure fun s hs => hs.1 rfl
        | false => exact (ih .command st).pre fun s hs => hs.2 rfl

end Polls

/-- The notes that neither make a request nor say that one is done, and begin no list. -/
def steady : Event → Bool
  | .returned _ | .callEnd _ | .abort | .lines _ | .trapAction _ | .exitAction | .leave _ _
  | .ended _ | .item _ => false
  | _ => true

/-- The small steps keep track of a kind of request. -/
structure Tracks (Cond Good : Entry → List Entry → Prop) (Free : Shell → Prop)
    (Done : Int → Shell → Prop) : Prop where
  free : ∀ {s t}, place t = place s → Free s → Free t
  done : ∀ {s t a}, mark t = mark s → Done a s → Done a t
  finished : ∀ {s} a, Free s → Done a s
  /-- The test that every loop makes. -/
  test : ∀ {s a}, Done a s → s.returning = false → s.shellAbort = false → Free s
  /-- The status of a list that is returned from. -/
  returned : ∀ {s a}, Done a s → s.returning = true → Done s.returnStatus s
  note : ∀ {s e}, steady e = true → Free s → Free (noted e s) ∧ Good (s.entry e) s.log
  item : ∀ {s a} status, Done a s → Done a (noted (.item status) s) ∧
    Good (s.entry (.item status)) s.log
  born : ∀ {s child prepare}, Prepares child prepare → Free s → Every Good s.log →
    Free (born child prepare s)
  back : ∀ {s child l log}, (∀ e ∈ l, (child, s.log.length) :: s.proc <:+ e.proc) →
    log = l ++ s.entry (.forked child s.log.length) :: s.log → Free s →
      Free { noted (.forked child s.log.length) s with log := log }

/-- **What has to be shown of a kind of request.** -/
structure Unwinds (O : Outside) (Cond Good : Entry → List Entry → Prop) (Free : Shell → Prop)
    (Done : Int → Shell → Prop) : Prop extends Tracks Cond Good Free Done where
  /-- `errexit`. -/
  raise : ∀ {a}, a ≠ 0 → Runs Cond Good (fun s => Done a s ∧ s.returning = false) shellAbortRaise
    fun _ s => Done a s ∧ s.returning = false
  /-- An expansion or a builtin aborts. -/
  abort : Runs Cond Good Free shellAbortRaise fun _ => Done 1
  after : ∀ {dl}, (∀ l, Runs Cond Good Free (dl l) fun r => Done r.1) →
    Runs Cond Good Free (trapsPoll O dl .after) fun _ s => ∀ a, Done a s
  waits : ∀ {dl}, (∀ l, Runs Cond Good Free (dl l) fun r => Done r.1) → ∀ turns : List Nat,
    Runs Cond Good Free (forEach (fun _ => trapsPoll O dl .waiting) turns) fun _ s => ∀ a, Done a s
  between : ∀ {dl}, (∀ l, Runs Cond Good Free (dl l) fun r => Done r.1) →
    Runs Cond Good Free (trapsPoll O dl .between) fun _ => Free
  call : ∀ {dl}, (∀ l, Runs Cond Good Free (dl l) fun r => Done r.1) → ∀ name args body,
    Runs Cond Good Free (callFn dl name args body) Done
  builtin : ∀ {dl}, (∀ l, Runs Cond Good Free (dl l) fun r => Done r.1) → ∀ cmd,
    Runs Cond Good Free (callBuiltin O dl cmd) Done

section Runs

variable {O : Outside} {Cond Good : Entry → List Entry → Prop} {Free : Shell → Prop}
variable {Done : Int → Shell → Prop} {dl : PList → Prog Shell (Int × PList)}

/-! ## Small steps -/

section Tracks

variable (h : Tracks Cond Good Free Done)

include h

/-- A change that the record does not show. -/
theorem Tracks.same {α : Type} {f : Shell → Shell} {k : Unit → Prog Shell α}
    {J : α → Shell → Prop} (hf : ∀ s, place (f s) = place s)
    (hk : Runs Cond Good Free (k ()) J) : Runs Cond Good Free (modify f >>= k) J := by
  have hlog := fun s => congrArg Place.log (hf s)
  have hproc := fun s => congrArg Place.proc (hf s)
  have hframes := fun s => congrArg Place.frames (hf s)
  refine Runs.bind (Runs.modify hlog hproc hframes fun s hs => h.free (hf s) hs) fun _ => hk

/-- A change that no request depends on. -/
theorem Tracks.still {α : Type} {f : Shell → Shell} {k : Unit → Prog Shell α}
    {J : α → Shell → Prop} {a : Int} (hf : ∀ s, mark (f s) = mark s)
    (hk : Runs Cond Good (Done a) (k ()) J) : Runs Cond Good (Done a) (modify f >>= k) J :=
  Runs.still h.done hf hk

theorem Tracks.tell {e : Event} (he : steady e = true) :
    Runs Cond Good Free (emit e) fun _ => Free :=
  Runs.emit fun _ _ hs _ => h.note he hs

/-- What is known of a value with a status. -/
theorem Tracks.value {α : Type} (a : Int) (b : α) :
    Runs Cond Good Free (pure (a, b)) fun r => Done r.1 := Runs.pure fun _ hs => h.finished a hs

theorem Tracks.fork {α : Type} {child : Child} {prepare : Shell → Shell} {body : Prog Shell α}
    {J : α → Shell → Prop} (hp : Prepares child prepare) (hbody : Runs Cond Good Free body J) :
    Runs Cond Good Free (fork child prepare body) fun _ => Free := by
  apply Runs.fork hp hbody
  · exact fun s hs hg => h.born hp hs hg
  · exact fun s hs => (h.note rfl hs).2
  · exact fun s l hl hs log hlog => h.back hl hlog hs

theorem Tracks.announce (cmd : Cmd) : Runs Cond Good Free (announce cmd) fun _ => Free := by
  apply Runs.bind (h.tell rfl)
  intro _
  apply Runs.look
  exact fun s => (Runs.onlyIf (h.tell rfl)).pre fun _ hs => hs.1

theorem Tracks.externalChild (path : Text) (cmd : Cmd) :
    Runs Cond Good Free (externalChild O path cmd) fun _ => Free := by
  apply Runs.look
  intro v
  refine Runs.pre ?_ fun _ hs => hs.1
  split
  · refine h.same (fun _ => rfl) ?_
    apply Runs.bind (M := fun _ => Free)
    · apply Runs.look
      exact fun _ => (h.tell rfl).pre fun _ hs => hs.1
    · intro _
      have hend : Runs Cond Good Free (pure ()) fun _ => Free := Runs.pure fun _ hs => hs
      exact h.same (f := fun t => { t with fds := v.fds }) (fun _ => rfl) hend
  · exact Runs.pure fun _ hs => hs

/-- The test behind a list: it goes on only when nothing is asked for. -/
theorem Tracks.tested {α : Type} {a : Int} {J : α → Shell → Prop} {back aborted : Shell → Prog Shell α}
    {k : Prog Shell α} (hback : ∀ v, Runs Cond Good (Done v.returnStatus) (back v) J)
    (haborted : ∀ v, Runs Cond Good (Done a) (aborted v) J) (hk : Runs Cond Good Free k J) :
    Runs Cond Good (Done a)
      (look id >>= fun s =>
        if s.returning = true then back s else if s.shellAbort = true then aborted s else k) J := by
  apply Runs.look
  intro v
  by_cases hreturning : v.returning = true
  · rw [if_pos hreturning]
    refine (hback v).pre ?_
    rintro s ⟨hs, rfl⟩
    exact h.returned hs hreturning
  · rw [if_neg hreturning]
    by_cases habort : v.shellAbort = true
    · rw [if_pos habort]
      exact (haborted v).pre fun _ hs => hs.1
    · rw [if_neg habort]
      refine hk.pre ?_
      rintro s ⟨hs, rfl⟩
      exact h.test hs (Bool.not_eq_true _ ▸ hreturning) (Bool.not_eq_true _ ▸ habort)

/-- The status of a list that may have been returned from. -/
theorem Tracks.passed {α : Type} {a : Int} (b : α) :
    Runs Cond Good (Done a)
      (look id >>= fun s => pure (if s.returning = true then s.returnStatus else a, b))
      fun r => Done r.1 := by
  apply Runs.look
  intro v
  apply Runs.pure
  rintro s ⟨hs, rfl⟩
  by_cases hreturning : s.returning = true
  · simp only [id_eq, if_pos hreturning]
    exact h.returned hs hreturning
  · simp only [id_eq, if_neg hreturning]
    exact hs

theorem Tracks.exempt {α : Type} {c : Prog Shell α} {J : α → Int}
    (hc : Runs Cond Good Free c fun r => Done (J r)) :
    Runs Cond Good Free (exempt c) fun r => Done (J r) :=
  runs_exempt (fun hm => h.free (place_of_mark hm)) h.done hc

theorem Tracks.dispatchFnDef (name : Text) (body : PList) :
    Runs Cond Good Free (dispatchFnDef name body) Done := by
  apply Runs.look
  intro v
  refine Runs.pre ?_ fun _ hs => hs.1
  split
  · exact Runs.pure fun _ hs => h.finished 1 hs
  · refine h.same (fun _ => rfl) ?_
    exact Runs.pure fun _ hs => h.finished 0 hs

theorem Tracks.change {f : Shell → Shell} (hf : ∀ s, place (f s) = place s) :
    Runs Cond Good Free (modify f) fun _ => Free :=
  Runs.modify (fun s => congrArg Place.log (hf s)) (fun s => congrArg Place.proc (hf s))
    (fun s => congrArg Place.frames (hf s)) fun s hs => h.free (hf s) hs

/-- Builtins that take quiet steps only make no request. -/
theorem Tracks.quiet : Quiet fun _ c => Runs Cond Good Free c fun _ => Free := by
  have hflow : Flow fun _ c => Runs Cond Good Free c fun _ => Free := by
    refine ⟨fun _ => Runs.pure fun _ hs => hs, Runs.bind, fun f s => ?_, Runs.cut⟩
    exact ⟨Stays.same rfl rfl rfl, fun _ hs hg => ⟨hs, hg⟩⟩
  refine { hflow with change := ?change, replace := ?replace, push := ?push }
  case change =>
    intro f hf
    apply h.change
    intro s
    have hcore := core_of_wide (hf s)
    have hlog : (f s).log = s.log := congrArg Core.log hcore
    have hproc : (f s).proc = s.proc := congrArg Core.proc hcore
    have hframes : (f s).frames = s.frames := congrArg Core.frames hcore
    rw [place, hlog, hproc, hframes]
    rfl
  case replace => exact fun argv status => Runs.bind (h.tell rfl) fun _ => Runs.exit _
  case push =>
    intro name _
    apply keeps_localPush hflow fun _ _ _ => h.tell rfl
    exact fun _ => h.change fun _ => rfl

theorem Tracks.slot (slot : Nat) (action : Option Text) :
    Runs Cond Good Free (trapSetSlot slot action) fun _ => Free := by
  apply Runs.bind (h.tell rfl)
  intro _
  apply h.change
  intro s
  dsimp only
  split
  · rfl
  · split <;> rfl

section Aborts

variable (habort : Runs Cond Good Free shellAbortRaise fun _ => Done 1)

include habort

/-- An expansion that fails is over. -/
theorem Tracks.errors : Runs Cond Good Free takeExpandErrors fun bad s =>
    (bad = true → Done 1 s) ∧ (bad = false → Free s) := by
  apply Runs.look
  intro fx
  refine Runs.pre ?_ fun _ hs => hs.1
  refine h.same (fun _ => rfl) ?_
  cases hnounset : fx.nounsetError with
  | false =>
      apply Runs.bind (M := fun _ => Free) (Runs.pure fun _ hs => hs)
      exact fun _ => Runs.pure fun _ hs => ⟨fun _ => h.finished 1 hs, fun _ => hs⟩
  | true =>
      apply Runs.bind habort
      intro _
      apply Runs.pure
      intro s hs
      rw [Bool.or_true]
      exact ⟨fun _ => hs, fun hbad => Bool.noConfusion hbad⟩

theorem Tracks.builtinSet (args : List Text) : Runs Cond Good Free (builtinSet args) Done := by
  apply Runs.look
  intro v
  refine Runs.pre ?_ fun _ hs => hs.1
  refine h.same (fun _ => rfl) ?_
  apply Runs.ite
  · exact fun _ => Runs.pure fun _ hs => h.finished 0 hs
  · exact fun _ => Runs.bind habort fun _ => Runs.pure fun _ hs => hs

theorem Tracks.trapConditions (action : Option Text) (conds : List Text) :
    Runs Cond Good Free (trapConditions action conds) Done := by
  induction conds with
  | nil => exact Runs.pure fun _ hs => h.finished 0 hs
  | cons cond conds ih =>
      unfold Mid.Dispatcher.trapConditions
      split
      · exact Runs.bind habort fun _ => Runs.pure fun _ hs => hs
      · exact Runs.bind (h.slot _ _) fun _ => ih

theorem Tracks.builtinTrap (args : List Text) : Runs Cond Good Free (builtinTrap args) Done := by
  unfold Mid.Dispatcher.builtinTrap
  split
  · exact Runs.pure fun _ hs => h.finished 0 hs
  · exact Runs.bind habort fun _ => Runs.pure fun _ hs => hs
  · exact Runs.bind habort fun _ => Runs.pure fun _ hs => hs
  · exact h.trapConditions habort _ _

end Aborts

/-- What an action leaves. -/
theorem Tracks.runText (hdl : ∀ l, Runs Cond Good Free (dl l) fun r => Done r.1) (text : Text) :
    Runs Cond Good Free (runText dl text) fun _ s => ∃ a, Done a s := by
  unfold Mid.Dispatcher.runText
  split
  · apply Runs.bind (hdl _)
    exact fun r => Runs.pure fun _ hs => ⟨r.1, hs⟩
  · exact Runs.pure fun _ hs => ⟨0, h.finished 0 hs⟩

theorem Tracks.arrive : Runs Cond Good Free (arrive O) fun _ => Free :=
  runs_arrive (fun hm hs => h.free (place_of_mark hm) hs) fun _ _ hs => h.note rfl hs

end Tracks

variable (h : Unwinds O Cond Good Free Done)
variable (hdl : ∀ l, Runs Cond Good Free (dl l) fun r => Done r.1)

include h hdl

/-! ## Expansion -/

theorem Unwinds.spawnSubst (m : Made) :
    Runs Cond Good Free (spawnSubst dl m) fun _ => Free := by
  unfold Mid.Dispatcher.spawnSubst
  split
  · apply h.fork (.cmdsubst m) (J := fun _ _ => True)
    unfold cmdsubstChild
    split
    · exact Runs.exit 1
    · exact Runs.bind (hdl _) fun _ => Runs.exit 0
  · exact Runs.pure fun _ hs => hs

theorem Unwinds.expanding {α : Type} (f : World → Ctx → Effects → α × Effects) :
    Runs Cond Good Free (expanding O dl f) fun _ => Free := by
  apply Runs.look
  intro v
  apply Runs.bind (M := fun _ => Free)
  · exact (Runs.onlyIf (Runs.forEach (h.spawnSubst hdl) _)).pre fun _ hs => hs.1
  · intro _
    apply h.same
    · exact fun _ => rfl
    · exact Runs.pure fun _ hs => hs

/-- An expansion that fails ends what it is for. -/
theorem Unwinds.checking {α β : Type} {f : World → Ctx → Effects → α × Effects}
    {k : α → Bool → Prog Shell β} {J : β → Shell → Prop}
    (hbad : ∀ a, Runs Cond Good (Done 1) (k a true) J)
    (hgood : ∀ a, Runs Cond Good Free (k a false) J) :
    Runs Cond Good Free
      (Mid.Dispatcher.expanding O dl f >>= fun a => takeExpandErrors >>= fun bad => k a bad) J := by
  apply Runs.bind (h.expanding hdl f)
  intro a
  apply Runs.bind (h.errors h.abort)
  intro bad
  cases bad with
  | true => exact (hbad a).pre fun _ hs => hs.1 rfl
  | false => exact (hgood a).pre fun _ hs => hs.2 rfl

/-! ## Commands -/

/-- Actions may be run while something is waited for. -/
theorem Unwinds.waiting {start : Prog Shell Unit} (k : Nat) (status : Int)
    (hstart : Runs Cond Good Free start fun _ => Free) :
    Runs Cond Good Free (waiting O dl start k status) Done := by
  apply Runs.look
  intro old
  refine Runs.pre ?_ fun _ hs => hs.1
  refine h.same (fun _ => rfl) ?_
  apply Runs.bind hstart
  · intro _
    apply Runs.bind (h.waits hdl _)
    intro _
    refine Runs.pre ?_ fun _ hs => hs status
    refine h.still (fun _ => rfl) ?_
    exact Runs.pure fun _ hs => hs

theorem Unwinds.executeExternal (cmd : Cmd) :
    Runs Cond Good Free (executeExternal O dl cmd) Done := by
  have hfail : ∀ code, Runs Cond Good Free (pure code) Done := fun code =>
    Runs.pure fun _ hs => h.finished code hs
  apply Runs.look
  intro v
  refine Runs.pre ?_ fun _ hs => hs.1
  split
  · exact hfail _
  · split
    · exact hfail _
    · split
      · exact hfail _
      · exact h.waiting hdl _ _ (h.externalChild _ cmd)

theorem Unwinds.stageChild (since i n : Nat) (cmd : Cmd) :
    Runs Cond Good Free (stageChild O dl since i n cmd) fun _ _ => True := by
  refine h.same (fun _ => rfl) ?_
  apply Runs.look
  intro v
  refine Runs.pre ?_ fun _ hs => hs.1
  split
  · exact Runs.exit 1
  · refine h.same (fun _ => rfl) ?_
    apply Runs.look
    intro w
    refine Runs.pre ?_ fun _ hs => hs.1
    split
    · exact Runs.exit 127
    · apply Runs.ite
      · exact fun _ => Runs.bind (h.builtin hdl cmd) fun _ => Runs.exit _
      · intro _
        split
        · exact Runs.exit _
        · split
          · exact Runs.exit 127
          · apply Runs.look
            exact fun _ => ((h.tell rfl).pre fun _ hs => hs.1).post fun _ _ _ => trivial

theorem Unwinds.executePipeline (pl : Pipeline) :
    Runs Cond Good Free (executePipeline O dl pl) Done := by
  apply Runs.look
  intro v
  refine Runs.pre ?_ fun _ hs => hs.1
  split
  · exact Runs.pure fun _ hs => h.finished 127 hs
  · apply h.waiting hdl
    apply Runs.forEach
    exact fun x => h.fork .stage (h.stageChild hdl _ _ _ x.1)

theorem Unwinds.runCommand (cmd : Cmd) : Runs Cond Good Free (runCommand O dl cmd) Done := by
  apply Runs.look
  intro v
  refine Runs.pre ?_ fun _ hs => hs.1
  split
  · exact Runs.pure fun _ hs => h.finished 127 hs
  · split
    · exact h.call hdl _ _ _
    · apply Runs.ite
      · intro _
        apply Runs.ite
        · intro _
          apply Runs.look
          intro w
          refine Runs.pre ?_ fun _ hs => hs.1
          split
          · exact Runs.pure fun _ hs => h.finished 1 hs
          · refine h.same (fun _ => rfl) ?_
            apply Runs.bind (h.builtin hdl cmd)
            intro status
            refine h.still (fun _ => rfl) ?_
            exact Runs.pure fun _ hs => hs
        · exact fun _ => h.builtin hdl cmd
      · exact fun _ => h.executeExternal hdl cmd

theorem Unwinds.dispatchCommand (cmd : Cmd) :
    Runs Cond Good Free (dispatchCommand O dl cmd) fun r => Done r.1 := by
  apply Runs.ite
  · exact fun _ => h.value 0 cmd
  · intro _
    apply h.checking hdl
    · exact fun _ => Runs.pure fun _ hs => hs
    · intro cmd
      apply Runs.bind (h.announce cmd)
      intro _
      apply Runs.bind (h.runCommand hdl cmd)
      exact fun status => Runs.pure fun _ hs => hs

theorem Unwinds.dispatchPipeline (pl : Pipeline) :
    Runs Cond Good Free (dispatchPipeline O dl pl) fun r => Done r.1 := by
  apply Runs.ite
  · exact fun _ => h.value 0 pl
  · intro _
    apply Runs.bind (h.tell rfl)
    intro _
    apply h.checking hdl
    · exact fun _ => Runs.pure fun _ hs => hs
    · intro cmds
      simp only [Bool.false_eq_true, if_false]
      split
      · apply Runs.bind (h.dispatchCommand hdl _)
        exact fun r => Runs.pure fun _ hs => hs
      · apply Runs.bind (Runs.forEach h.announce _)
        intro _
        apply Runs.bind (h.executePipeline hdl _)
        exact fun status => Runs.pure fun _ hs => hs

theorem Unwinds.dispatchPipelineBackground (pl : Pipeline) :
    Runs Cond Good Free (dispatchPipelineBackground O dl pl) Done := by
  apply Runs.look
  intro v
  refine Runs.pre ?_ fun _ hs => hs.1
  split
  · exact Runs.pure fun _ hs => h.finished 1 hs
  · exact Runs.pure fun _ hs => h.finished 1 hs
  · apply Runs.bind (h.tell rfl)
    intro _
    apply Runs.bind (M := fun _ => Free)
    · apply h.fork (.background _)
      exact Runs.bind (J := fun _ _ => True) (h.dispatchPipeline hdl pl) fun _ => Runs.exit _
    · exact fun _ => Runs.pure fun _ hs => h.finished _ hs

/-! ## Compound commands -/

theorem Unwinds.dispatchIf (arms : List IfArm) :
    Runs Cond Good Free (dispatchIf dl arms) fun r => Done r.1 := by
  induction arms with
  | nil => exact h.value 0 []
  | cons arm arms ih =>
      apply Runs.ite
      · intro _
        apply Runs.bind (hdl _)
        exact fun body => Runs.pure fun _ hs => hs
      · intro _
        apply Runs.bind (h.exempt (hdl arm.cond))
        intro cond
        apply h.tested
        · exact fun v => Runs.pure fun _ hs => hs
        · exact fun v => Runs.pure fun _ hs => hs
        · apply Runs.ite
          · intro _
            apply Runs.bind (hdl _)
            exact fun body => h.passed _
          · intro _
            apply Runs.bind ih
            exact fun r => Runs.pure fun _ hs => hs

theorem Unwinds.dispatchWhile (turns : Nat) : ∀ status cond body,
    Runs Cond Good Free (dispatchWhile dl turns status cond body) fun r => Done r.1 := by
  induction turns with
  | zero => exact fun _ _ _ => Runs.cut
  | succ turns ih =>
      intro status cond body
      apply Runs.bind (h.exempt (hdl cond))
      intro st
      apply h.tested
      · exact fun v => Runs.pure fun _ hs => hs
      · exact fun v => Runs.pure fun _ hs => hs
      · apply Runs.ite
        · exact fun _ => h.value status _
        · intro _
          apply Runs.bind (hdl body)
          intro r
          apply h.tested
          · exact fun v => Runs.pure fun _ hs => hs
          · exact fun v => Runs.pure fun _ hs => hs
          · exact ih _ _ _

theorem Unwinds.dispatchFor (name : Text) (body : PList) (words : List Text) : ∀ status,
    Runs Cond Good Free (dispatchFor dl name body status words) Done := by
  induction words with
  | nil => exact fun status => Runs.pure fun _ hs => h.finished status hs
  | cons word words ih =>
      intro status
      apply Runs.look
      intro v
      refine Runs.pre ?_ fun _ hs => hs.1
      split
      · exact Runs.pure fun _ hs => h.finished 1 hs
      · refine h.same (fun _ => rfl) ?_
        apply Runs.bind (hdl body)
        intro r
        apply h.tested
        · exact fun v => Runs.pure fun _ hs => hs
        · exact fun v => Runs.pure fun _ hs => hs
        · exact ih _

theorem Unwinds.dispatchCase (word : Text) (arms : List CaseArm) :
    Runs Cond Good Free (dispatchCase O dl word arms) Done := by
  apply h.checking hdl
  · exact fun _ => Runs.pure fun _ hs => hs
  · intro word
    simp only [Bool.false_eq_true, if_false]
    split
    · exact Runs.pure fun _ hs => h.finished 0 hs
    · apply Runs.bind (hdl _)
      intro r
      apply Runs.look
      intro v
      apply Runs.pure
      rintro s ⟨hs, rfl⟩
      by_cases hreturning : s.returning = true
      · simp only [id_eq, if_pos hreturning]
        exact h.returned hs hreturning
      · simp only [id_eq, if_neg hreturning]
        exact hs

theorem Unwinds.runDbracket (db : List Word) : Runs Cond Good Free (runDbracket O dl db) Done := by
  apply Runs.ite
  · exact fun _ => Runs.pure fun _ hs => h.finished 1 hs
  · intro _
    apply h.checking hdl
    · exact fun _ => Runs.pure fun _ hs => hs
    · intro toks
      apply Runs.look
      exact fun v => Runs.pure fun _ hs => h.finished _ hs.1

/-! ## Lists -/

theorem Unwinds.dispatchKind (turns : Nat) (it : Item) :
    Runs Cond Good Free (dispatchKind O dl turns it) fun r => Done r.1 := by
  unfold Mid.Dispatcher.dispatchKind
  split
  · exact Runs.bind (h.dispatchIf hdl _) fun r => Runs.pure fun _ hs => hs
  · exact Runs.bind (h.dispatchWhile hdl _ _ _ _) fun r => Runs.pure fun _ hs => hs
  · exact Runs.bind (h.dispatchFor hdl _ _ _ _) fun r => Runs.pure fun _ hs => hs
  · exact Runs.bind (h.dispatchCase hdl _ _) fun r => Runs.pure fun _ hs => hs
  · exact Runs.bind (h.runDbracket hdl _) fun r => Runs.pure fun _ hs => hs
  · exact Runs.bind (h.dispatchFnDef _ _) fun r => Runs.pure fun _ hs => hs
  · apply Runs.ite
    · exact fun _ => Runs.bind (h.dispatchPipelineBackground hdl _) fun r => Runs.pure fun _ hs => hs
    · exact fun _ => Runs.bind (h.dispatchPipeline hdl _) fun r => Runs.pure fun _ hs => hs

omit hdl in
theorem Unwinds.maybeErrexit (rest : List Item) (a : Int) :
    Runs Cond Good (fun s => Done a s ∧ s.returning = false) (maybeErrexit rest a)
      fun _ s => Done a s ∧ s.returning = false := by
  apply Runs.look
  intro v
  refine Runs.pre ?_ fun _ hs => hs.1
  apply Runs.ite
  · exact fun hfail => h.raise hfail.1
  · exact fun _ => Runs.pure fun _ hs => hs

/-- **A list goes on only when nothing is asked for.** -/
theorem Unwinds.dispatchItems (turns : Nat) (items : List Item) : ∀ status first,
    Runs Cond Good Free (dispatchItems O dl turns status first items) fun r => Done r.1 := by
  induction items with
  | nil => exact fun status _ => h.value status []
  | cons it items ih =>
      intro status first
      apply Runs.ite
      · intro _
        apply Runs.bind (ih _ _)
        exact fun r => Runs.pure fun _ hs => hs
      · intro _
        apply Runs.bind (Runs.bind h.arrive fun _ => h.dispatchKind hdl turns it)
        intro r
        refine h.still (fun _ => rfl) ?_
        apply Runs.bind (M := fun _ => Done r.1) (Runs.emit fun s _ hs _ => h.item r.1 hs)
        intro _
        apply Runs.look
        intro v
        by_cases hreturning : v.returning = true
        · simp only [id_eq, if_pos hreturning]
          apply Runs.pure
          rintro s ⟨hs, rfl⟩
          exact h.returned hs hreturning
        · simp only [id_eq, if_neg hreturning]
          have hpoll : Runs Cond Good Free
              (trapsPoll O dl (if items.isEmpty then .after else .between) >>= fun _ => do
                let rest ← Mid.Dispatcher.dispatchItems O dl turns r.1 false items
                pure (rest.1, r.2 :: rest.2)) fun r => Done r.1 := by
            cases items with
            | nil =>
                apply Runs.bind (h.after hdl)
                exact fun _ => Runs.pure fun _ hs => hs r.1
            | cons next items =>
                apply Runs.bind (h.between hdl)
                intro _
                apply Runs.bind (ih _ _)
                exact fun r => Runs.pure fun _ hs => hs
          apply Runs.bind (M := fun _ s => Done r.1 s ∧ s.returning = false)
          · refine (h.maybeErrexit items r.1).pre ?_
            rintro s ⟨hs, rfl⟩
            exact ⟨hs, Bool.not_eq_true _ ▸ hreturning⟩
          · intro _
            apply Runs.look
            intro w
            by_cases habort : w.shellAbort = true
            · simp only [id_eq, if_pos habort]
              exact Runs.pure fun _ hs => hs.1.1
            · simp only [id_eq, if_neg habort]
              refine hpoll.pre ?_
              rintro s ⟨hs, rfl⟩
              exact h.test hs.1 hs.2 (Bool.not_eq_true _ ▸ habort)

end Runs

/-- **What every list does**, to any depth. -/
theorem Unwinds.dispatchList {O : Outside} {Cond Good : Entry → List Entry → Prop}
    {Free : Shell → Prop} {Done : Int → Shell → Prop} (h : Unwinds O Cond Good Free Done) (n : Nat) :
    ∀ list, Runs Cond Good Free (dispatchList O n list) fun r => Done r.1 := by
  induction n with
  | zero => exact fun _ => Runs.cut
  | succ n ih => exact fun list => h.dispatchItems ih n list 0 true

end Petrush.Verified.Unwinding

import Petrush.Mid.Dispatcher

/-!
# What every run keeps

Most of the dispatcher only moves control.  A property of programs that holds of the
few steps which touch its subject, and that goes on along sequences, holds of every
run of a list (`dispatchList_keeps`); this module goes through the dispatcher once,
for all such properties.

`Closed` names those steps: pushing a local, setting a trap, starting children and
waiting for them, calling a function, redirecting a builtin, checking an expansion,
leaving the shell, and the notes in the record that hold more than a fact about the
control flow.  Everything else changes only what no property may read (its `core`
stays).

The properties used most say that a run keeps a relation between states (`Keeps`);
`Steps` is what has to be shown of such a relation when it reads neither the
descriptors nor the error flags.
-/

namespace Petrush.Verified.Traversal

open Petrush.Lib.CText
open Petrush.Lib.Run
open Petrush.Foundation
open Petrush.Foundation.Process
open Petrush.Mid.Alias
open Petrush.Mid.Ast
open Petrush.Mid.Builtins
open Petrush.Mid.Dispatcher
open Petrush.Mid.Expand
open Petrush.Mid.Source
open Petrush.Mid.State
open Petrush.Mid.Trap

/-- The state with one more note. -/
def noted (e : Event) (s : Shell) : Shell := { s with log := s.entry e :: s.log }

theorem emit_eq (e : Event) : emit e = modify (noted e) := rfl

/-- The notes that say nothing but what the control flow has reached. -/
def plain : Event → Bool
  | .dispatch _ | .background _ | .returned _ | .lines _ | .trapAction _ | .arrived _ => true
  | _ => false

/-- Those among them that are not about the poll. -/
def flow : Event → Bool
  | .trapAction _ | .arrived _ => false
  | e => plain e

theorem plain_of_flow {e : Event} (h : flow e = true) : plain e = true := by
  cases e <;> first | exact h | rfl

/-- The notes that a command is run in the process itself. -/
def running : Event → Bool
  | .builtin _ | .replaced _ => true
  | _ => false

/-- The part of the state that is not control, variables or options. -/
structure Core where
  locals : List LocalSave
  fnDepth : Nat
  shellAbort : Bool
  traps : TrapTable
  disps : Disps
  fds : Fds
  inExit : Bool
  isSubshell : Bool
  cmdsubstDepth : Nat
  arithError : Bool
  nounsetError : Bool
  proc : Proc
  frames : List Frame
  waits : List (Disp × Disp)
  log : List Entry

def core (s : Shell) : Core where
  locals := s.locals
  fnDepth := s.fnDepth
  shellAbort := s.shellAbort
  traps := s.traps
  disps := s.disps
  fds := s.fds
  inExit := s.inExit
  isSubshell := s.isSubshell
  cmdsubstDepth := s.cmdsubstDepth
  arithError := s.fx.arithError
  nounsetError := s.fx.nounsetError
  proc := s.proc
  frames := s.frames
  waits := s.waits
  log := s.log

/-- And what the poll goes by. -/
structure Wide extends Core where
  noErrexit : Nat
  inTrapPoll : Bool
  pending : Nat → Bool

def wide (s : Shell) : Wide :=
  { core s with noErrexit := s.noErrexit, inTrapPoll := s.inTrapPoll, pending := s.pending }

theorem core_of_wide {s t : Shell} (h : wide s = wide t) : core s = core t :=
  congrArg Wide.toCore h

/-- What the three kinds of child do to their state first. -/
inductive Prepares : Child → (Shell → Shell) → Prop where
  | stage : Prepares .stage fun s => { s with disps := defaultIntQuit s.disps }
  | background (detach : Bool) : Prepares .background (backgroundPrepare detach)
  | cmdsubst (m : Made) : Prepares .cmdsubst fun s => trapResetForChild
      { s with
        cmdsubstDepth := s.cmdsubstDepth + 1
        fds := { s.fds with stdout := .pipe s.log.length 0 }
        fx := { s.fx with arithError := m.arithError, nounsetError := m.nounsetError } }

/-- An expansion, and the check of its errors. -/
def checked {α : Type} (O : Outside) (dl : PList → Prog Shell (Int × PList))
    (f : World → Ctx → Effects → α × Effects) : Prog Shell (α × Bool) := do
  let a ← expanding O dl f
  let bad ← takeExpandErrors
  pure (a, bad)

/-! ## Properties of programs -/

/-- Properties that go on along sequences. -/
structure Flow (K : (α : Type) → Prog Shell α → Prop) : Prop where
  ret : ∀ {α : Type} (a : α), K α (pure a)
  seq : ∀ {α β : Type} {c : Prog Shell α} {f : α → Prog Shell β}, K α c → (∀ a, K β (f a)) →
    K β (c >>= f)
  read : ∀ {α : Type} (f : Shell → α), K α (look f)
  stop : ∀ {α : Type}, K α cut

/-- Those of them that only the core matters to. -/
structure Blind (K : (α : Type) → Prog Shell α → Prop) : Prop extends Flow K where
  change : ∀ {f : Shell → Shell}, (∀ s, core (f s) = core s) → K Unit (modify f)
  tell : ∀ {e}, plain e = true → K Unit (emit e)

/-- Properties that the control flow keeps. -/
structure Base (K : (α : Type) → Prog Shell α → Prop) : Prop extends Flow K where
  change : ∀ {f : Shell → Shell}, (∀ s, wide (f s) = wide s) → K Unit (modify f)
  tell : ∀ {e}, flow e = true → K Unit (emit e)
  exempt : ∀ {α : Type} {c : Prog Shell α}, K α c → K α (exempt c)
  arrive : ∀ O, K Unit (arrive O)
  polling : ∀ {O dl frame}, (∀ l, K _ (dl l)) →
    (∀ {c : Prog Shell Unit}, K Unit c → K Unit (within frame c)) → K Unit (trapsPoll O dl frame)

/-- The steps of the builtins that run no list, do not return and raise no abort. -/
structure Quiet (K : (α : Type) → Prog Shell α → Prop) : Prop extends Flow K where
  change : ∀ {f : Shell → Shell}, (∀ s, wide (f s) = wide s) → K Unit (modify f)
  replace : ∀ argv status, K Int (do
    emit (.replaced argv)
    exit status)
  push : ∀ name, '=' ∉ name → K Bool (localPush name)

/-- The steps of the builtins. -/
structure Local (K : (α : Type) → Prog Shell α → Prop) : Prop extends Base K, Quiet K where
  raise : K Unit shellAbortRaise
  lower : K Unit (modify fun s => { s with shellAbort := false })
  slot : ∀ slot action, K Unit (trapSetSlot slot action)

/-- The steps that decide whether every run has the property. -/
structure Closed (O : Outside) (K : (α : Type) → Prog Shell α → Prop) : Prop extends Local K where
  within : ∀ {α : Type} frame {c : Prog Shell α}, K α c → K α (within frame c)
  item : ∀ status, K Unit (emit (.item status))
  announce : ∀ cmd, K Unit (announce cmd)
  expand : ∀ {α : Type} {dl}, (∀ l, K _ (dl l)) → ∀ f : World → Ctx → Effects → α × Effects,
    K (α × Bool) (checked O dl f)
  start : ∀ argv, K Unit (emit (.builtin argv))
  external : ∀ path cmd, K Unit (externalChild O path cmd)
  redirected : ∀ {dl}, (∀ l, K _ (dl l)) → ∀ cmd, K Int (callBuiltin O dl cmd) →
    K Int (runBuiltinWithRedirs O dl cmd)
  stage : ∀ {dl} since i n cmd, K Int (callBuiltin O dl cmd) →
    K Unit (fork .stage (fun s => { s with disps := defaultIntQuit s.disps })
      (stageChild O dl since i n cmd))
  background : ∀ {dl} detach pl, K (Int × Pipeline) (dispatchPipeline O dl pl) →
    K Unit (fork .background (backgroundPrepare detach) (do
      let r ← dispatchPipeline O dl pl
      (exit (r.1 % 256) : Prog Shell Unit)))
  wait : ∀ {dl start} k status, (∀ frame, K Unit (trapsPoll O dl frame)) → K Unit start →
    K Int (waiting O dl start k status)
  call : ∀ {dl}, (∀ l, K _ (dl l)) → ∀ name args body, K Int (callFn dl name args body)
  leave : ∀ {dl}, (∀ l, K _ (dl l)) → (∀ frame, K Unit (trapsPoll O dl frame)) →
    ∀ args, K Int (builtinExit O dl args)

section Steps

variable {O : Outside} {K : (α : Type) → Prog Shell α → Prop}
variable {dl : PList → Prog Shell (Int × PList)} {α β : Type}

/-! ## Small steps -/

theorem either {L : Prog Shell α → Prop} {p : Prop} [Decidable p] {c d : Prog Shell α} (hc : L c)
    (hd : L d) : L (if p then c else d) := by
  split
  · exact hc
  · exact hd

theorem branch {p : Prop} [Decidable p] {c d : Prog Shell α} (hc : K α c) (hd : K α d) :
    K α (if p then c else d) := either hc hd

theorem Flow.when (h : Flow K) {p : Prop} [Decidable p] {c : Prog Shell Unit} (hc : K Unit c) :
    K Unit (onlyIf p c) := branch hc (h.ret ())

theorem Flow.forEach (h : Flow K) {f : α → Prog Shell Unit} (hf : ∀ x, K Unit (f x))
    (xs : List α) : K Unit (Lib.Run.forEach f xs) := by
  induction xs with
  | nil => exact h.ret ()
  | cons x xs ih => exact h.seq (hf x) fun _ => ih

theorem keeps_setLastStatus (h : Base K) (status : Int) :
    K _ (setLastStatus status) := h.change fun _ => rfl

theorem keeps_takeShellAbort (h : Local K) : K _ takeShellAbort := by
  apply h.seq (h.read _)
  intro a
  exact h.seq h.lower fun _ => h.ret a

/-! ## Traps -/

theorem keeps_runText (h : Flow K) (hdl : ∀ l, K _ (dl l)) (text : Text) :
    K _ (runText dl text) := by
  unfold runText
  split
  · exact h.seq (hdl _) fun _ => h.ret _
  · exact h.ret _

theorem keeps_exempt (h : Blind K) {c : Prog Shell α} (hc : K _ c) :
    K _ (exempt c) := by
  refine h.seq (h.change fun _ => rfl) fun _ => ?_
  apply h.seq hc
  intro a
  exact h.seq (h.change fun _ => rfl) fun _ => h.ret a

theorem keeps_arrive (h : Blind K) : K _ (arrive O) := by
  apply h.seq (h.read _)
  intro sigs
  exact branch (h.ret _) (h.seq (h.tell rfl) fun _ => h.change fun _ => rfl)

theorem keeps_runTrapAction (h : Blind K) (hdl : ∀ l, K _ (dl l)) (sig : Nat)
    (act : Text) : K _ (runTrapAction dl sig act) := by
  apply h.seq (h.read _)
  intro s
  apply h.seq (h.tell rfl)
  intro _
  refine h.seq (h.change fun _ => rfl) fun _ => ?_
  apply h.seq (keeps_exempt h (keeps_runText h.toFlow hdl act))
  intro _
  exact h.change fun _ => rfl

theorem keeps_pollSignal (h : Blind K) (hdl : ∀ l, K _ (dl l)) (sig : Nat) :
    K _ (pollSignal O dl sig) := by
  apply h.seq (keeps_arrive h)
  intro _
  apply h.seq (h.read _)
  intro s
  refine branch ?_ (h.ret _)
  refine h.seq (h.change fun _ => rfl) fun _ => ?_
  split
  · exact keeps_runTrapAction h hdl sig _
  · exact h.ret _

theorem keeps_trapsPoll (h : Blind K) {frame : Frame}
    (hpolls : K _ (within frame (forEach (pollSignal O dl) (List.range' 1 (trapNsig - 1))))) :
    K _ (trapsPoll O dl frame) := by
  apply h.seq (h.read _)
  intro s
  refine branch (h.ret _) ?_
  refine h.seq (h.change fun _ => rfl) fun _ => ?_
  apply h.seq hpolls
  intro _
  exact h.change fun _ => rfl

/-- A property that only the core matters to does not look at the poll. -/
theorem Blind.base (h : Blind K) : Base K where
  toFlow := h.toFlow
  change hf := h.change fun s => core_of_wide (hf s)
  tell he := h.tell (plain_of_flow he)
  exempt := keeps_exempt h
  arrive _ := keeps_arrive h
  polling hdl hwithin := keeps_trapsPoll h (hwithin (h.forEach (keeps_pollSignal h hdl) _))

theorem Closed.poll (h : Closed O K) (hdl : ∀ l, K _ (dl l)) (frame : Frame) :
    K _ (trapsPoll O dl frame) := by
  exact h.polling hdl (h.within frame)

/-! ## Steps that a property may overlook -/

theorem keeps_waiting (h : Base K)
    (hdisps : ∀ disps waits : Shell → _,
      K _ (modify fun s => { s with disps := disps s, waits := waits s }))
    {start : Prog Shell Unit} (k : Nat) (status : Int)
    (hpoll : ∀ frame, K _ (trapsPoll O dl frame)) (hstart : K _ start) :
    K _ (waiting O dl start k status) := by
  apply h.seq (h.read _)
  intro old
  apply h.seq (hdisps _ _)
  intro _
  apply h.seq hstart
  intro _
  apply h.seq (h.forEach (fun _ => hpoll _) _)
  intro _
  exact h.seq (hdisps _ _) fun _ => h.ret _

/-- `local_push` notes what it saves. -/
theorem keeps_localPush (h : Flow K) (hsaved : ∀ depth name old, K _ (emit (.saved depth name old)))
    (hlocals : ∀ locals : Shell → List LocalSave, K _ (modify fun s => { s with locals := locals s }))
    (name : Text) : K _ (localPush name) := by
  apply h.seq (h.read _)
  intro s
  apply branch (h.ret _)
  apply h.seq (hsaved _ _ _)
  intro _
  exact h.seq (hlocals _) fun _ => h.ret _

theorem keeps_callFn (h : Base K) (henter : ∀ name args, K _ (modify (enterFn name args)))
    (hleave : ∀ old, K _ (modify (leaveFn old))) (hcall : ∀ name, K _ (emit (.call name)))
    (hend : ∀ status, K _ (emit (.callEnd status))) (name : Text) (args : List Text)
    {body : PList} (hbody : K _ (within .call (dl body))) : K _ (callFn dl name args body) := by
  apply h.seq (h.read _)
  intro old
  apply h.seq (hcall name)
  intro _
  apply h.seq (henter name args)
  intro _
  apply h.seq hbody
  intro r
  apply h.seq (h.read _)
  intro s
  apply h.seq (hleave old)
  intro _
  exact h.seq (hend _) fun _ => h.ret _

theorem keeps_execv (h : Base K) (hexec : ∀ argv disps, K _ (emit (.exec argv disps)))
    (prepare : Disps → Disps) (cmd : Cmd) : K _ (execv prepare cmd) :=
  h.seq (h.read _) fun _ => hexec _ _

theorem keeps_externalChild (h : Base K)
    (hfds : ∀ fds, K _ (modify fun s => { s with fds := fds })) (path : Text) {cmd : Cmd}
    (hexec : K _ (execv defaultIntQuit cmd)) : K _ (externalChild O path cmd) := by
  apply h.seq (h.read _)
  intro s
  split
  · apply h.seq (hfds _)
    intro _
    apply h.seq hexec
    intro _
    exact hfds _
  · exact h.ret _

theorem keeps_stageRun (h : Base K) (hexit : ∀ code : Int, K Unit (exit code)) {cmd : Cmd}
    (hexec : K _ (execv id cmd)) (hrun : K _ (callBuiltin O dl cmd)) :
    K _ (stageRun O dl cmd) := by
  apply h.seq (h.read _)
  intro s
  split
  · exact hexit 127
  · apply branch
    · exact h.seq hrun fun _ => hexit _
    · split
      · exact hexit _
      · split
        · exact hexit 127
        · exact hexec

theorem keeps_stageChild (h : Base K) (hexit : ∀ code : Int, K Unit (exit code))
    (hfds : ∀ fds : Shell → Fds, K _ (modify fun s => { s with fds := fds s }))
    (since i n : Nat) {cmd : Cmd} (hrun : K _ (stageRun O dl cmd)) :
    K _ (stageChild O dl since i n cmd) := by
  apply h.seq (hfds _)
  intro _
  apply h.seq (h.read _)
  intro s
  split
  · exact hexit 1
  · apply h.seq (hfds _)
    intro _
    exact hrun

theorem keeps_runBuiltinWithRedirs (h : Base K)
    (hfds : ∀ fds : Shell → Fds, K _ (modify fun s => { s with fds := fds s })) {cmd : Cmd}
    (hrun : K _ (callBuiltin O dl cmd)) : K _ (runBuiltinWithRedirs O dl cmd) := by
  apply h.seq (h.read _)
  intro s
  split
  · exact h.ret _
  · apply h.seq (hfds _)
    intro _
    apply h.seq hrun
    intro status
    exact h.seq (hfds _) fun _ => h.ret _

theorem keeps_runExitTrap (h : Base K)
    (hin : ∀ b, K _ (modify fun s => { s with inExit := b }))
    (hleave : ∀ status b, K _ (emit (.leave status b))) (haction : K _ (emit .exitAction))
    (hpoll : K _ (trapsPoll O dl .leaving))
    (hrun : ∀ act, K _ (within .exitTrap (runText dl act))) (status : Int) :
    K _ (runExitTrap O dl status) := by
  apply h.seq hpoll
  intro _
  apply h.seq (h.read _)
  intro s
  apply h.seq (hleave _ _)
  intro _
  apply branch (h.ret _)
  split
  · apply h.seq (keeps_setLastStatus h _)
    intro _
    apply h.seq haction
    intro _
    apply h.seq (hin true)
    intro _
    apply h.seq (h.exempt (hrun _))
    intro _
    apply h.seq (keeps_setLastStatus h _)
    intro _
    exact h.seq (hin false) fun _ => h.ret _
  · exact h.ret _

theorem keeps_builtinExit (h : Base K) (hnote : ∀ args, K _ (emit (.exitCall args)))
    (hended : ∀ code, K Int (do
      emit (.ended code)
      exit code))
    (htrap : ∀ status, K _ (runExitTrap O dl status)) (args : List Text) :
    K _ (builtinExit O dl args) := by
  apply h.seq (hnote args)
  intro _
  split
  · exact h.seq (htrap _) hended
  · split
    · exact hended 2
    · exact h.seq (htrap _) hended

/-! ## Expansion -/

/-- An expansion goes with the check of its errors. -/
theorem checked_bind (f : World → Ctx → Effects → α × Effects) (k : α → Bool → Prog Shell β) :
    (do
      let a ← expanding O dl f
      let bad ← takeExpandErrors
      k a bad) = checked O dl f >>= fun r => k r.1 r.2 := by
  unfold checked
  rw [bind_assoc]
  congr 1
  funext a
  rw [bind_assoc]
  rfl

theorem keeps_expanding (h : Closed O K) (hdl : ∀ l, K _ (dl l))
    (f : World → Ctx → Effects → α × Effects) {k : α → Bool → Prog Shell β}
    (hk : ∀ a bad, K _ (k a bad)) :
    K _ (expanding O dl f >>= fun a => takeExpandErrors >>= fun bad => k a bad) := by
  rw [checked_bind]
  exact h.seq (h.expand hdl f) fun r => hk r.1 r.2

/-- The child of a command substitution. -/
theorem keeps_cmdsubstChild (h : Base K) (hexit : ∀ code : Int, K Unit (exit code))
    (hdl : ∀ l, K _ (dl l)) (inner : Text) : K _ (cmdsubstChild dl inner) := by
  unfold cmdsubstChild
  split
  · exact hexit _
  · exact h.seq (hdl _) fun _ => hexit _

theorem keeps_spawnSubst (h : Flow K)
    (hfork : ∀ {prepare} inner, Prepares .cmdsubst prepare →
      K _ (fork .cmdsubst prepare (cmdsubstChild dl inner)))
    (m : Made) : K _ (spawnSubst dl m) := by
  unfold spawnSubst
  split
  · exact hfork _ (.cmdsubst m)
  · exact h.ret _

/-- An expansion is its substitutions and its flags. -/
theorem keeps_checked (h : Base K)
    (hflags : ∀ fx : Shell → Effects, K _ (modify fun s => { s with fx := fx s }))
    (hraise : K _ shellAbortRaise) (hspawn : ∀ m, K _ (spawnSubst dl m))
    (f : World → Ctx → Effects → α × Effects) : K _ (checked O dl f) := by
  have hexpand : K _ (expanding O dl f) := by
    apply h.seq (h.read _)
    intro s
    apply h.seq (h.when (h.forEach hspawn _))
    intro _
    exact h.seq (hflags _) fun _ => h.ret _
  have htake : K _ takeExpandErrors := by
    apply h.seq (h.read _)
    intro fx
    apply h.seq (hflags _)
    intro _
    exact h.seq (h.when hraise) fun _ => h.ret _
  exact h.seq hexpand fun a => h.seq htake fun bad => h.ret (a, bad)

/-! ## Builtins -/

theorem keeps_builtinReturn (h : Local K) (args : List Text) :
    K _ (builtinReturn args) := by
  apply h.seq (h.read _)
  intro depth
  refine branch (h.ret _) ?_
  have hsucceed : ∀ code : Int, K _ (do
      emit (.returned code)
      modify fun s => { s with returning := true, returnStatus := code }
      pure code : Prog Shell Int) := by
    intro code
    apply h.seq (h.tell rfl)
    intro _
    exact h.seq (h.change fun _ => rfl) fun _ => h.ret _
  split
  · exact hsucceed 0
  · split
    · exact h.ret _
    · exact hsucceed _
  · exact h.ret _

theorem keeps_localArgs (h : Quiet K) (args : List Text) :
    ∀ ret, K _ (localArgs ret args) := by
  induction args with
  | nil => exact fun ret => h.ret ret
  | cons arg args ih =>
      intro ret
      unfold localArgs
      refine branch (ih 1) (branch (h.ret _) ?_)
      split
      next name value hsplit =>
        refine branch (ih 1) ?_
        apply h.seq (h.push _ (not_mem_of_splitAtEq hsplit))
        intro pushed
        refine branch (h.ret _) ?_
        apply h.seq (h.read _)
        intro s
        split
        · exact h.seq (h.change fun _ => rfl) fun _ => ih ret
        · exact ih 1
      next hsplit =>
        apply h.seq (h.push _ (not_mem_of_splitAtEq_none hsplit))
        intro pushed
        refine branch (h.ret _) ?_
        exact h.seq (h.change fun _ => rfl) fun _ => ih ret

theorem keeps_builtinLocal (h : Quiet K) (args : List Text) :
    K _ (builtinLocal args) := by
  apply h.seq (h.read _)
  intro depth
  exact branch (h.ret _) (branch (h.ret _) (keeps_localArgs h args 0))

theorem keeps_positionalShift (h : Quiet K) (n : Nat) : K _ (positionalShift n) := by
  apply h.seq (h.read _)
  intro s
  exact branch (h.ret _) (h.seq (h.change fun _ => rfl) fun _ => h.ret _)

theorem keeps_builtinShift (h : Quiet K) (args : List Text) :
    K _ (builtinShift args) := by
  unfold builtinShift
  split
  · exact keeps_positionalShift h 1
  · split
    · exact h.ret _
    · exact branch (h.ret _) (keeps_positionalShift h _)
  · exact h.ret _

theorem keeps_builtinSet (h : Local K) (args : List Text) : K _ (builtinSet args) := by
  apply h.seq (h.read _)
  intro s
  refine h.seq (h.change fun _ => rfl) fun _ => ?_
  exact branch (h.ret _) (h.seq h.raise fun _ => h.ret _)

theorem keeps_builtinTrap (h : Local K) (args : List Text) :
    K _ (builtinTrap args) := by
  have hconds : ∀ action conds, K _ (trapConditions action conds) := by
    intro action conds
    induction conds with
    | nil => exact h.ret _
    | cons cond conds ih =>
        unfold trapConditions
        split
        · exact h.seq h.raise fun _ => h.ret _
        · exact h.seq (h.slot _ _) fun _ => ih
  unfold builtinTrap
  split
  · exact h.ret _
  · exact h.seq h.raise fun _ => h.ret _
  · exact h.seq h.raise fun _ => h.ret _
  · exact hconds _ _

theorem keeps_builtinUnset (h : Quiet K) (args : List Text) :
    K _ (builtinUnset args) := by
  apply h.seq (h.read _)
  intro s
  exact branch (h.ret _) (h.seq (h.change fun _ => rfl) fun _ => h.ret _)

theorem keeps_builtinPudo (h : Quiet K) (args : List Text) : K _ (builtinPudo O args) := by
  apply h.seq (h.read _)
  intro s
  dsimp only
  split
  · exact h.ret _
  · exact h.ret _
  · apply branch (h.ret _)
    apply branch (h.ret _)
    unfold runViaPudod
    split
    · exact h.ret _
    · apply branch (h.ret _)
      split
      · exact h.ret _
      · exact h.replace _ _

/-! ## Files -/

theorem keeps_dispatchReady (h : Local K) (hdl : ∀ l, K _ (dl l)) (list : PList)
    (status : Int) : K _ (dispatchReady dl list status) :=
  branch (h.ret _) (h.seq (hdl list) fun _ => h.ret _)

theorem keeps_runLines (h : Local K) (hdl : ∀ l, K _ (dl l)) (raws : List Text) :
    ∀ mode status, K _ (runLines dl mode status raws) := by
  induction raws with
  | nil =>
      intro mode status
      cases mode with
      | command => exact h.ret _
      | filling list =>
          refine branch (h.ret _) ?_
          apply h.seq (keeps_dispatchReady h hdl _ _)
          intro st
          exact h.seq (keeps_takeShellAbort h) fun _ => h.ret _
  | cons raw raws ih =>
      intro mode status
      unfold runLines
      apply h.seq (h.read _)
      intro aliases
      split
      · exact ih _ _
      · exact ih _ _
      · exact h.ret _
      · exact ih _ _
      · apply h.seq (keeps_dispatchReady h hdl _ _)
        intro st
        apply h.seq (keeps_takeShellAbort h)
        intro abort
        exact branch (h.ret _) (ih _ _)

theorem keeps_runFileLines (h : Local K) (hdl : ∀ l, K _ (dl l)) (text : Text) :
    K _ (runFileLines dl text) := by
  apply h.seq (h.read _)
  intro s
  apply h.seq (h.tell rfl)
  intro _
  exact h.seq h.lower fun _ => keeps_runLines h hdl _ _ _

theorem keeps_sourceFile (h : Base K)
    (hlines : ∀ text, K _ (within .source (runFileLines dl text))) (path : Text) :
    K _ (sourceFile O dl path) := by
  apply h.seq (h.read _)
  intro s
  refine branch (h.ret _) ?_
  split
  · exact h.ret _
  · refine h.seq (h.change fun _ => rfl) fun _ => ?_
    apply h.seq (hlines _)
    intro status
    exact h.seq (h.change fun _ => rfl) fun _ => h.ret _

theorem keeps_builtinSource (h : Base K)
    (hlines : ∀ text, K _ (within .source (runFileLines dl text))) (args : List Text) :
    K _ (builtinSource O dl args) := by
  unfold builtinSource
  split
  · exact keeps_sourceFile h hlines _
  · exact h.ret _

theorem Closed.source (h : Closed O K) (hdl : ∀ l, K _ (dl l)) (args : List Text) :
    K _ (builtinSource O dl args) :=
  keeps_builtinSource h.toBase (fun text => h.within .source (keeps_runFileLines h.toLocal hdl text)) args

/-! ## Commands -/

/-- The builtins by name; most of them only take quiet steps. -/
theorem runBuiltin_rule (h : Quiet K) {L : Prog Shell Int → Prop} (hL : ∀ {c}, K Int c → L c)
    {cmd : Cmd} (hreturn : (words cmd).headD [] = "return".toList →
      L (builtinReturn (words cmd).tail))
    (hset : ∀ args, L (builtinSet args)) (htrap : ∀ args, L (builtinTrap args))
    (hexit : ∀ args, L (builtinExit O dl args)) (hsource : ∀ args, L (builtinSource O dl args)) :
    L (runBuiltin O dl cmd) := by
  show L (if (words cmd).headD [] = "return".toList then builtinReturn (words cmd).tail else _)
  by_cases hname : (words cmd).headD [] = "return".toList
  · rw [if_pos hname]
    exact hreturn hname
  rw [if_neg hname]
  apply either (hL (keeps_builtinLocal h _))
  apply either (hL (keeps_builtinShift h _))
  apply either (hset _)
  apply either (htrap _)
  apply either (hexit _)
  apply either (hsource _)
  apply either (hL (keeps_builtinUnset h _))
  apply either (hL (h.ret _))
  apply either (hL (h.ret _))
  apply either
  · apply hL
    apply h.seq (h.read _)
    intro s
    exact h.seq (h.change fun _ => rfl) fun _ => h.ret _
  apply either
  · apply hL
    apply h.seq (h.read _)
    intro s
    exact h.seq (h.change fun _ => rfl) fun _ => h.ret _
  apply either
  · apply hL
    apply h.seq (h.read _)
    intro s
    split
    · exact h.ret _
    · exact h.seq (h.change fun _ => rfl) fun _ => h.ret _
  apply either (hL (keeps_builtinPudo h _))
  apply hL
  apply h.seq (h.read _)
  intro s
  exact h.seq (h.change fun _ => rfl) fun _ => h.ret _

/-- The builtins; `exit` and `source` run lists. -/
theorem keeps_runBuiltin (h : Local K) (hexit : ∀ args, K _ (builtinExit O dl args))
    (hsource : ∀ args, K _ (builtinSource O dl args)) (cmd : Cmd) :
    K _ (runBuiltin O dl cmd) :=
  runBuiltin_rule h.toQuiet id (fun _ => keeps_builtinReturn h _) (keeps_builtinSet h)
    (keeps_builtinTrap h) hexit hsource

theorem keeps_callBuiltin (h : Closed O K) (hdl : ∀ l, K _ (dl l)) (cmd : Cmd) :
    K _ (callBuiltin O dl cmd) := by
  apply h.seq (h.start _)
  intro _
  exact keeps_runBuiltin h.toLocal (h.leave hdl (h.poll hdl)) (h.source hdl) cmd

theorem keeps_executeExternal (h : Closed O K) (hdl : ∀ l, K _ (dl l)) (cmd : Cmd) :
    K _ (executeExternal O dl cmd) := by
  apply h.seq (h.read _)
  intro s
  split
  · exact h.ret _
  · split
    · exact h.ret _
    · split
      · exact h.ret _
      · exact h.wait _ _ (h.poll hdl) (h.external _ cmd)

theorem keeps_executePipeline (h : Closed O K) (hdl : ∀ l, K _ (dl l))
    (pl : Pipeline) : K _ (executePipeline O dl pl) := by
  apply h.seq (h.read _)
  intro s
  split
  · exact h.ret _
  · apply h.wait _ _ (h.poll hdl)
    apply h.forEach
    intro x
    exact h.stage _ _ _ x.1 (keeps_callBuiltin h hdl x.1)

theorem keeps_runCommand (h : Closed O K) (hdl : ∀ l, K _ (dl l)) (cmd : Cmd) :
    K _ (runCommand O dl cmd) := by
  have hbuiltin := keeps_callBuiltin h hdl cmd
  apply h.seq (h.read _)
  intro s
  split
  · exact h.ret _
  · split
    · exact h.call hdl _ _ _
    · apply branch
      · exact branch (h.redirected hdl cmd hbuiltin) hbuiltin
      · exact keeps_executeExternal h hdl cmd

theorem keeps_dispatchCommand (h : Closed O K) (hdl : ∀ l, K _ (dl l)) (cmd : Cmd) :
    K _ (dispatchCommand O dl cmd) := by
  apply branch (h.ret _)
  apply keeps_expanding h hdl
  intro cmd bad
  apply branch (h.ret _)
  apply h.seq (h.announce cmd)
  intro _
  exact h.seq (keeps_runCommand h hdl cmd) fun _ => h.ret _

theorem keeps_dispatchPipeline (h : Closed O K) (hdl : ∀ l, K _ (dl l))
    (pl : Pipeline) : K _ (dispatchPipeline O dl pl) := by
  apply branch (h.ret _)
  apply h.seq (h.tell rfl)
  intro _
  apply keeps_expanding h hdl
  intro cmds bad
  apply branch (h.ret _)
  split
  · exact h.seq (keeps_dispatchCommand h hdl _) fun _ => h.ret _
  · apply h.seq (h.forEach h.announce _)
    intro _
    exact h.seq (keeps_executePipeline h hdl _) fun _ => h.ret _

theorem keeps_dispatchPipelineBackground (h : Closed O K) (hdl : ∀ l, K _ (dl l))
    (pl : Pipeline) : K _ (dispatchPipelineBackground O dl pl) := by
  apply h.seq (h.read _)
  intro s
  split
  · exact h.ret _
  · exact h.ret _
  · apply h.seq (h.tell rfl)
    intro _
    apply h.seq (h.background _ pl (keeps_dispatchPipeline h hdl pl))
    intro _
    exact h.ret _

/-! ## Compound commands -/

theorem keeps_dispatchIf (h : Closed O K) (hdl : ∀ l, K _ (dl l)) (arms : List IfArm) :
    K _ (dispatchIf dl arms) := by
  induction arms with
  | nil => exact h.ret _
  | cons arm arms ih =>
      apply branch
      · exact h.seq (hdl _) fun _ => h.ret _
      · apply h.seq (h.exempt (hdl _))
        intro cond
        apply h.seq (h.read _)
        intro s
        apply branch (h.ret _)
        apply branch (h.ret _)
        apply branch
        · apply h.seq (hdl _)
          intro body
          exact h.seq (h.read _) fun _ => h.ret _
        · exact h.seq ih fun _ => h.ret _

theorem keeps_dispatchWhile (h : Closed O K) (hdl : ∀ l, K _ (dl l)) (turns : Nat) :
    ∀ status cond body, K _ (dispatchWhile dl turns status cond body) := by
  induction turns with
  | zero => exact fun _ _ _ => h.stop
  | succ turns ih =>
      intro status cond body
      apply h.seq (h.exempt (hdl _))
      intro st
      apply h.seq (h.read _)
      intro s
      apply branch (h.ret _)
      apply branch (h.ret _)
      apply branch (h.ret _)
      apply h.seq (hdl _)
      intro r
      apply h.seq (h.read _)
      intro s
      apply branch (h.ret _)
      exact branch (h.ret _) (ih _ _ _)

theorem keeps_dispatchFor (h : Closed O K) (hdl : ∀ l, K _ (dl l)) (name : Text)
    (body : PList) (words : List Text) :
    ∀ status, K _ (dispatchFor dl name body status words) := by
  induction words with
  | nil => exact fun _ => h.ret _
  | cons word words ih =>
      intro status
      apply h.seq (h.read _)
      intro s
      split
      · exact h.ret _
      · refine h.seq (h.change fun _ => rfl) fun _ => ?_
        apply h.seq (hdl _)
        intro r
        apply h.seq (h.read _)
        intro s
        apply branch (h.ret _)
        exact branch (h.ret _) (ih _)

theorem keeps_dispatchCase (h : Closed O K) (hdl : ∀ l, K _ (dl l)) (word : Text)
    (arms : List CaseArm) : K _ (dispatchCase O dl word arms) := by
  apply keeps_expanding h hdl
  intro word bad
  apply branch (h.ret _)
  split
  · exact h.ret _
  · apply h.seq (hdl _)
    intro r
    exact h.seq (h.read _) fun _ => h.ret _

theorem keeps_runDbracket (h : Closed O K) (hdl : ∀ l, K _ (dl l)) (db : List Word) :
    K _ (runDbracket O dl db) := by
  apply branch (h.ret _)
  apply keeps_expanding h hdl
  intro toks bad
  apply branch (h.ret _)
  exact h.seq (h.read _) fun _ => h.ret _

theorem keeps_dispatchFnDef (h : Closed O K) (name : Text) (body : PList) :
    K _ (dispatchFnDef name body) := by
  apply h.seq (h.read _)
  intro s
  split
  · exact h.ret _
  · exact h.seq (h.change fun _ => rfl) fun _ => h.ret _

/-! ## Lists -/

theorem keeps_dispatchKind (h : Closed O K) (hdl : ∀ l, K _ (dl l)) (turns : Nat)
    (it : Item) : K _ (dispatchKind O dl turns it) := by
  unfold dispatchKind
  split
  · exact h.seq (keeps_dispatchIf h hdl _) fun _ => h.ret _
  · exact h.seq (keeps_dispatchWhile h hdl _ _ _ _) fun _ => h.ret _
  · exact h.seq (keeps_dispatchFor h hdl _ _ _ _) fun _ => h.ret _
  · exact h.seq (keeps_dispatchCase h hdl _ _) fun _ => h.ret _
  · exact h.seq (keeps_runDbracket h hdl _) fun _ => h.ret _
  · exact h.seq (keeps_dispatchFnDef h _ _) fun _ => h.ret _
  · apply branch
    · exact h.seq (keeps_dispatchPipelineBackground h hdl _) fun _ => h.ret _
    · exact h.seq (keeps_dispatchPipeline h hdl _) fun _ => h.ret _

theorem keeps_dispatchItem (h : Closed O K) (hdl : ∀ l, K _ (dl l)) (turns : Nat)
    (it : Item) : K _ (dispatchItem O dl turns it) :=
  h.seq (h.arrive O) fun _ => keeps_dispatchKind h hdl turns it

theorem keeps_maybeErrexit (h : Closed O K) (rest : List Item) (status : Int) :
    K _ (maybeErrexit rest status) := by
  apply h.seq (h.read _)
  intro s
  exact branch h.raise (h.ret _)

theorem keeps_dispatchItems (h : Closed O K) (hdl : ∀ l, K _ (dl l)) (turns : Nat)
    (items : List Item) : ∀ status first, K _ (dispatchItems O dl turns status first items) := by
  induction items with
  | nil => exact fun _ _ => h.ret _
  | cons it items ih =>
      intro status first
      apply branch
      · exact h.seq (ih _ _) fun _ => h.ret _
      · apply h.seq (keeps_dispatchItem h hdl turns it)
        intro r
        apply h.seq (keeps_setLastStatus h.toBase _)
        intro _
        apply h.seq (h.item _)
        intro _
        apply h.seq (h.read _)
        intro s
        apply branch (h.ret _)
        apply h.seq (keeps_maybeErrexit h items _)
        intro _
        apply h.seq (h.read _)
        intro s
        apply branch (h.ret _)
        apply h.seq (h.poll hdl _)
        intro _
        exact h.seq (ih _ _) fun _ => h.ret _

end Steps

/-- **What the deciding steps keep, every run of a list keeps.** -/
theorem dispatchList_keeps {O : Outside} {K : (α : Type) → Prog Shell α → Prop} (h : Closed O K)
    (n : Nat) : ∀ list, K _ (dispatchList O n list) := by
  induction n with
  | zero => exact fun _ => h.stop
  | succ n ih =>
      intro list
      exact keeps_dispatchItems h ih n list 0 true

/-! ## Scripts -/

/-- A script keeps it too, when running the EXIT trap does. -/
theorem script_keeps {O : Outside} {K : (α : Type) → Prog Shell α → Prop} (h : Closed O K)
    (n : Nat) (hended : ∀ code, K Unit (do
      emit (.ended code)
      exit code))
    (htrap : ∀ status, K _ (runExitTrap O (dispatchList O n) status)) (path : Text) :
    K _ (script O n path) := by
  have hscript : K _ (runScript O (dispatchList O n) path) := by
    apply h.seq (h.read _)
    intro s
    apply branch (h.ret _)
    split
    · exact h.ret _
    · refine h.seq (h.change fun _ => rfl) fun _ => ?_
      apply h.seq (h.within .script (keeps_runFileLines h.toLocal (dispatchList_keeps h n) _))
      intro status
      refine h.seq (h.change fun _ => rfl) fun _ => ?_
      exact htrap status
  exact h.seq hscript hended

/-! ## Relations between states -/

/-- Relations that the control flow keeps; they read neither the descriptors nor the
error flags. -/
structure Control (R E : Shell → Shell → Prop) : Prop extends Composes R E where
  quiet : ∀ {s s'}, core s' = core s → R s s'
  fds : ∀ s fds, R s { s with fds := fds }
  flags : ∀ s fx, R s { s with fx := fx }
  note : ∀ s e, (plain e || running e) = true → R s (noted e s)
  within : ∀ {α : Type} frame {c : Prog Shell α}, Keeps R E c → Keeps R E (within frame c)

/-- The steps that decide whether every run keeps the relations. -/
structure Steps (O : Outside) (R E : Shell → Shell → Prop) : Prop extends Control R E where
  raise : Keeps R E shellAbortRaise
  lower : ∀ s, R s { s with shellAbort := false }
  item : ∀ s status, R s (noted (.item status) s)
  announce : ∀ cmd, Keeps R E (announce cmd)
  external : ∀ cmd, Keeps R E (execv defaultIntQuit cmd)
  stage : ∀ {dl} since i n cmd, Keeps R E (callBuiltin O dl cmd) →
    Keeps R E (fork .stage (fun s => { s with disps := defaultIntQuit s.disps })
      (stageChild O dl since i n cmd))
  push : ∀ name, '=' ∉ name → Keeps R E (localPush name)
  slot : ∀ slot action, Keeps R E (trapSetSlot slot action)
  fork : ∀ {α : Type} {child prepare} {body : Prog Shell α}, Prepares child prepare →
    Keeps R E body → Keeps R E (fork child prepare body)
  wait : ∀ {dl start} k status, (∀ frame, Keeps R E (trapsPoll O dl frame)) → Keeps R E start →
    Keeps R E (waiting O dl start k status)
  call : ∀ {dl}, (∀ l, Keeps R E (dl l)) → ∀ name args body, Keeps R E (callFn dl name args body)
  leave : ∀ {dl}, (∀ l, Keeps R E (dl l)) → (∀ frame, Keeps R E (trapsPoll O dl frame)) →
    ∀ args, Keeps R E (builtinExit O dl args)

section Relations

variable {O : Outside} {R E : Shell → Shell → Prop}

theorem Control.blind (h : Control R E) : Blind fun _ => Keeps R E where
  ret := Keeps.pure h.toComposes
  seq := Keeps.bind h.toComposes
  read := Keeps.look h.toComposes
  stop := Keeps.cut h.toComposes
  change hf := Keeps.modify fun s => h.quiet (hf s)
  tell he := Keeps.modify fun s => h.note s _ (Bool.or_eq_true_iff.mpr (.inl he))

theorem Control.base (h : Control R E) : Base fun _ => Keeps R E := h.blind.base

theorem Control.poll (h : Control R E) {dl : PList → Prog Shell (Int × PList)}
    (hdl : ∀ l, Keeps R E (dl l)) (frame : Frame) : Keeps R E (trapsPoll O dl frame) :=
  h.base.polling hdl (h.within frame)

theorem keeps_exitAction (h : Control R E) {dl : PList → Prog Shell (Int × PList)}
    (hdl : ∀ l, Keeps R E (dl l)) (act : Text) : Keeps R E (within .exitTrap (runText dl act)) :=
  h.within .exitTrap (keeps_runText h.base.toFlow hdl act)

theorem Control.run (h : Control R E) {e : Event} (he : running e = true) : Keeps R E (emit e) :=
  Keeps.modify fun s => h.note s e (Bool.or_eq_true_iff.mpr (.inr he))

/-- The note that a command is dispatched, and the line of its trace. -/
theorem keeps_announce (h : Control R E) (hcommand : ∀ argv s, R s (noted (.command argv) s))
    (htrace : ∀ argv s, R s (noted (.trace argv) s)) (cmd : Cmd) : Keeps R E (announce cmd) := by
  apply h.base.seq (Keeps.modify (hcommand _))
  intro _
  apply h.base.seq (h.base.read _)
  intro s
  exact h.base.when (Keeps.modify (htrace _))

theorem Control.ends (h : Control R E) {α : Type} {e : Event} (he : Keeps R E (emit e))
    (code : Int) : Keeps R E (do
      emit e
      exit code : Prog Shell α) :=
  Keeps.bind h.toComposes he fun _ => Keeps.exit h.toComposes code

theorem Steps.closed (h : Steps O R E) : Closed O fun _ => Keeps R E where
  toBase := h.base
  within := h.within
  raise := h.raise
  lower := h.lower
  item status s := h.item s status
  start argv := h.run rfl
  announce := h.announce
  expand hdl f := by
    apply keeps_checked h.base _ h.raise
    · apply keeps_spawnSubst h.base.toFlow
      intro _ inner hp
      exact h.fork hp (keeps_cmdsubstChild h.base (Keeps.exit h.toComposes) hdl inner)
    · exact fun fx s => h.flags s _
  external path cmd := keeps_externalChild h.base (fun fds s => h.fds s fds) path (h.external cmd)
  redirected _ cmd hrun := keeps_runBuiltinWithRedirs h.base (fun fds s => h.fds s _) hrun
  stage := h.stage
  background detach pl hrun := by
    apply h.fork (.background detach)
    exact h.base.seq hrun fun _ => Keeps.exit h.toComposes _
  replace argv status := h.ends (h.run rfl) status
  push := h.push
  slot := h.slot
  wait := h.wait
  call := h.call
  leave := h.leave

end Relations

end Petrush.Verified.Traversal

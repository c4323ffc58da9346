import Petrush.Verified.TrapDump
import Petrush.Verified.Trees

/-!
# Control flow

The dispatcher carries statuses, `$?` and a flag for `return` through functions that call
each other, and each of them tests the flag behind every list it runs.  The rules here say
what lists mean without a flag: a phrase ends with a status, or it leaves the innermost call,
or the whole shell.

A simple command is a pipeline that is run without any list being run, whatever it does to
the state; a pipeline that comes down to a function is a call.  No signal arrives, errexit is
off and nothing aborts, and the lists of a `while` have nothing to expand in place: the
rules are silent about everything else.

## Main results

* `Exec` — the rules.
* `dispatchList_refines` — every run by the rules is a run of the dispatcher.
-/

namespace Petrush.Verified.ControlFlow

open Petrush.Lib.CText
open Petrush.Lib.Run
open Petrush.Foundation
open Petrush.Mid.Ast
open Petrush.Mid.Dispatcher
open Petrush.Mid.Expand
open Petrush.Mid.Glob
open Petrush.Mid.State
open Petrush.Verified.Traversal (noted)
open Petrush.Verified.Refusals (Clear commandRest)
open Petrush.Verified.TrapDump (Undisturbed arrive_undisturbed dispatchPipeline_still
  trapsPoll_idle within_run)
open Petrush.Verified.Trees
open Petrush.Verified.InertWords (Inert)

/-! ## States and endings -/

/-- A shell that is not unwinding, where nothing can make it. -/
structure Calm (s : Shell) : Prop where
  returning : s.returning = false
  abort : s.shellAbort = false
  errexit : s.ctx.optE = false
  pending : ∀ sig, s.pending sig = false

/-- How a phrase ends. -/
inductive Ending where
  | value (status : Int)
  /-- The innermost call is left, with this status. -/
  | back (status : Int)
  /-- The shell is. -/
  | exit (code : Int)

/-- What is left of the phrases around it is not run. -/
def Ending.abrupt : Ending → Bool
  | .value _ => false
  | .back _ | .exit _ => true

/-- The status of a call whose body ends so. -/
def Ending.status : Ending → Option Int
  | .value x | .back x => some x
  | .exit _ => none

/-- Behind an item its status is in `$?`. -/
def record (x : Int) (s : Shell) : Shell :=
  noted (.item x) { s with ctx := { s.ctx with lastStatus := x } }

def Ending.record : Ending → Shell → Shell
  | .value x, s | .back x, s => ControlFlow.record x s
  | .exit _, s => s

/-- A condition begins. -/
def enter (s : Shell) : Shell := { s with noErrexit := s.noErrexit + 1 }

def quit (s : Shell) : Shell := { s with noErrexit := s.noErrexit - 1 }

def Ending.quit : Ending → Shell → Shell
  | .value _, s | .back _, s => ControlFlow.quit s
  | .exit _, s => s

/-- A call begins. -/
def enterCall (name : Text) (args : List Text) (s : Shell) : Shell :=
  { enterFn name args (noted (.call name) s) with frames := .call :: s.frames }

/-- It ends; `old` is the state of the caller. -/
def leaveCall (old : Shell) (x : Int) (s : Shell) : Shell :=
  noted (.callEnd x) (leaveFn old.ctx { s with frames := s.frames.tail })

section Calm

variable {s : Shell}

theorem Calm.record (h : Calm s) (x : Int) : Calm (record x s) :=
  ⟨h.returning, h.abort, h.errexit, h.pending⟩

theorem Calm.enter (h : Calm s) : Calm (enter s) :=
  ⟨h.returning, h.abort, h.errexit, h.pending⟩

theorem Calm.quit (h : Calm s) : Calm (quit s) :=
  ⟨h.returning, h.abort, h.errexit, h.pending⟩

theorem Calm.enterCall (h : Calm s) (name : Text) (args : List Text) :
    Calm (enterCall name args s) := ⟨h.returning, h.abort, h.errexit, h.pending⟩

theorem Calm.leaveCall (h : Calm s) (old : Shell) (x : Int) : Calm (leaveCall old x s) :=
  ⟨rfl, h.abort, h.errexit, h.pending⟩

theorem Calm.not_returning (h : Calm s) : ¬ s.returning = true := by
  rw [h.returning]
  exact Bool.false_ne_true

theorem Calm.not_aborting (h : Calm s) : ¬ s.shellAbort = true := by
  rw [h.abort]
  exact Bool.false_ne_true

end Calm

/-! ## Commands -/

/-- `&&` and `||` pass over an item. -/
def Skipped (cond : RunCond) (x : Int) : Prop := cond = .and ∧ x ≠ 0 ∨ cond = .or ∧ x = 0

/-- The pipeline is run, and no list. -/
def Simple (O : Outside) (pl : Pipeline) (s t : Shell) (x : Int) : Prop :=
  ∀ dl, ∃ pl', dispatchPipeline O dl pl s = .ok t (x, pl')

/-- It ends the shell. -/
def Exits (O : Outside) (pl : Pipeline) (s t : Shell) (code : Int) : Prop :=
  ∀ dl, dispatchPipeline O dl pl s = .exit t code

/-- It comes down to the call of a function, from the state `t`. -/
structure Calls (O : Outside) (pl : Pipeline) (s : Shell) (name : Text) (args : List Text)
    (body : PList) (t : Shell) : Prop where
  calm : Calm t
  defined : fnGet t.fns name = some body
  comes : ∃ pl', ∀ dl, dispatchPipeline O dl pl s =
    (callFn dl name args body >>= fun x => pure (x, pl')) t

/-- The word of a `case` is a text, without any list being run. -/
def Expands (O : Outside) (word : Text) (s t : Shell) (text : Text) : Prop :=
  ∀ dl, (expanding O dl (fun w ctx fx => expandWord w ctx word fx) >>= fun text =>
    takeExpandErrors >>= fun bad => pure (text, bad)) s = .ok t (text, false)

/-- The arm that a text selects. -/
def selects (arms : List CaseArm) (text : Text) : Option CaseArm :=
  arms.find? fun arm => arm.patterns.any fun pat => casePatMatch pat text

/-! ## The rules -/

/-- What is run. -/
inductive Phrase where
  | list (items : PList)
  /-- What follows an item with a status. -/
  | rest (status : Int) (items : PList)
  | kind (it : Item)
  | arms (arms : List IfArm)
  /-- A loop, behind a turn with a status. -/
  | loop (last : Int) (test body : PList)
  | each (last : Int) (name : Text) (words : List Text) (body : PList)

variable {O : Outside}

/-- **What phrases mean.** -/
inductive Exec (O : Outside) : Phrase → Shell → Ending → Shell → Prop where
  -- A list; the first item is always run.
  | nil {s : Shell} : Exec O (.list []) s (.value 0) s
  | item {it : Item} {items : PList} {s t u : Shell} {x : Int} {r : Ending}
      (h : Exec O (.kind it) s (.value x) t) (hrest : Exec O (.rest x items) (record x t) r u) :
      Exec O (.list (it :: items)) s r u
  | leaves {it : Item} {items : PList} {s t : Shell} {r : Ending}
      (h : Exec O (.kind it) s r t) (hr : r.abrupt = true) :
      Exec O (.list (it :: items)) s r (r.record t)
  | done {s : Shell} {x : Int} : Exec O (.rest x []) s (.value x) s
  | skips {it : Item} {items : PList} {s t : Shell} {x : Int} {r : Ending}
      (hskip : Skipped it.cond x) (h : Exec O (.rest x items) s r t) :
      Exec O (.rest x (it :: items)) s r t
  | goes {it : Item} {items : PList} {s t : Shell} {x : Int} {r : Ending}
      (hgo : ¬ Skipped it.cond x) (h : Exec O (.list (it :: items)) s r t) :
      Exec O (.rest x (it :: items)) s r t
  -- Simple commands and calls.
  | simple {pl : Pipeline} {cond : RunCond} {s t : Shell} {x : Int} (h : Simple O pl s t x)
      (ht : Calm t) : Exec O (.kind ⟨.pipeline pl, cond, false⟩) s (.value x) t
  | returns {pl : Pipeline} {cond : RunCond} {s t : Shell} {x : Int}
      (h : Simple O pl s { t with returning := true } x) (hx : t.returnStatus = x) (ht : Calm t) :
      Exec O (.kind ⟨.pipeline pl, cond, false⟩) s (.back x) t
  | exits {pl : Pipeline} {cond : RunCond} {s t : Shell} {code : Int} (h : Exits O pl s t code) :
      Exec O (.kind ⟨.pipeline pl, cond, false⟩) s (.exit code) t
  | call {pl : Pipeline} {cond : RunCond} {name : Text} {args : List Text} {body : PList}
      {s t u : Shell} {r : Ending} {x : Int} (h : Calls O pl s name args body t)
      (hbody : Exec O (.list body) (enterCall name args t) r u) (hr : r.status = some x) :
      Exec O (.kind ⟨.pipeline pl, cond, false⟩) s (.value x) (leaveCall t x u)
  | callExits {pl : Pipeline} {cond : RunCond} {name : Text} {args : List Text} {body : PList}
      {s t u : Shell} {code : Int} (h : Calls O pl s name args body t)
      (hbody : Exec O (.list body) (enterCall name args t) (.exit code) u) :
      Exec O (.kind ⟨.pipeline pl, cond, false⟩) s (.exit code) u
  -- `if`; its status is 0 when no arm is taken.
  | ifc {arms : List IfArm} {cond : RunCond} {background : Bool} {s t : Shell} {r : Ending}
      (h : Exec O (.arms arms) s r t) : Exec O (.kind ⟨.ifc arms, cond, background⟩) s r t
  | noArm {s : Shell} : Exec O (.arms []) s (.value 0) s
  | otherwise {arm : IfArm} {arms : List IfArm} {s t : Shell} {r : Ending}
      (helse : arm.isElse = true) (h : Exec O (.list arm.body) s r t) :
      Exec O (.arms (arm :: arms)) s r t
  | taken {arm : IfArm} {arms : List IfArm} {s t u : Shell} {r : Ending}
      (helse : arm.isElse = false) (htest : Exec O (.list arm.cond) (enter s) (.value 0) t)
      (h : Exec O (.list arm.body) (quit t) r u) : Exec O (.arms (arm :: arms)) s r u
  | notTaken {arm : IfArm} {arms : List IfArm} {s t u : Shell} {x : Int} {r : Ending}
      (helse : arm.isElse = false) (htest : Exec O (.list arm.cond) (enter s) (.value x) t)
      (hx : x ≠ 0) (h : Exec O (.arms arms) (quit t) r u) : Exec O (.arms (arm :: arms)) s r u
  | testLeaves {arm : IfArm} {arms : List IfArm} {s t : Shell} {r : Ending}
      (helse : arm.isElse = false) (htest : Exec O (.list arm.cond) (enter s) r t)
      (hr : r.abrupt = true) : Exec O (.arms (arm :: arms)) s r (r.quit t)
  -- `while`; its status is that of the last turn, or 0.
  | wh {test body : PList} {cond : RunCond} {background : Bool} {s t : Shell} {r : Ending}
      (htest : LastingList test) (hbody : LastingList body)
      (h : Exec O (.loop 0 test body) s r t) :
      Exec O (.kind ⟨.wh test body, cond, background⟩) s r t
  | loopEnds {last x : Int} {test body : PList} {s t : Shell}
      (htest : Exec O (.list test) (enter s) (.value x) t) (hx : x ≠ 0) :
      Exec O (.loop last test body) s (.value last) (quit t)
  | loopTurns {last y : Int} {test body : PList} {s t u v : Shell} {r : Ending}
      (htest : Exec O (.list test) (enter s) (.value 0) t)
      (hbody : Exec O (.list body) (quit t) (.value y) u) (h : Exec O (.loop y test body) u r v) :
      Exec O (.loop last test body) s r v
  | loopTestLeaves {last : Int} {test body : PList} {s t : Shell} {r : Ending}
      (htest : Exec O (.list test) (enter s) r t) (hr : r.abrupt = true) :
      Exec O (.loop last test body) s r (r.quit t)
  | loopLeaves {last : Int} {test body : PList} {s t u : Shell} {r : Ending}
      (htest : Exec O (.list test) (enter s) (.value 0) t)
      (hbody : Exec O (.list body) (quit t) r u) (hr : r.abrupt = true) :
      Exec O (.loop last test body) s r u
  -- `for`; a name that is none ends it.
  | fr {name : Text} {words : List Text} {body : PList} {cond : RunCond} {background : Bool}
      {s t : Shell} {r : Ending} (h : Exec O (.each 0 name words body) s r t) :
      Exec O (.kind ⟨.fr name words body, cond, background⟩) s r t
  | eachEnds {last : Int} {name : Text} {body : PList} {s : Shell} :
      Exec O (.each last name [] body) s (.value last) s
  | eachTurns {last y : Int} {name word : Text} {words : List Text} {body : PList} {env : Env}
      {s t u : Shell} {r : Ending} (henv : setenv s.ctx.env name word = some env)
      (hbody : Exec O (.list body) { s with ctx := { s.ctx with env := env } } (.value y) t)
      (h : Exec O (.each y name words body) t r u) :
      Exec O (.each last name (word :: words) body) s r u
  | eachLeaves {last : Int} {name word : Text} {words : List Text} {body : PList} {env : Env}
      {s t : Shell} {r : Ending} (henv : setenv s.ctx.env name word = some env)
      (hbody : Exec O (.list body) { s with ctx := { s.ctx with env := env } } r t)
      (hr : r.abrupt = true) : Exec O (.each last name (word :: words) body) s r t
  | eachFails {last : Int} {name word : Text} {words : List Text} {body : PList} {s : Shell}
      (henv : setenv s.ctx.env name word = none) :
      Exec O (.each last name (word :: words) body) s (.value 1) s
  -- `case`; the first arm with a pattern that matches.
  | cs {word text : Text} {arms : List CaseArm} {arm : CaseArm} {cond : RunCond}
      {background : Bool} {s t u : Shell} {r : Ending} (h : Expands O word s t text) (ht : Calm t)
      (harm : selects arms text = some arm) (hbody : Exec O (.list arm.body) t r u) :
      Exec O (.kind ⟨.cs word arms, cond, background⟩) s r u
  | noCase {word text : Text} {arms : List CaseArm} {cond : RunCond} {background : Bool}
      {s t : Shell} (h : Expands O word s t text) (ht : Calm t) (harm : selects arms text = none) :
      Exec O (.kind ⟨.cs word arms, cond, background⟩) s (.value 0) t
  | db {argv : List Word} {cond : RunCond} {background : Bool} {s t : Shell} {x : Int}
      (h : ∀ dl, runDbracket O dl argv s = .ok t x) (ht : Calm t) :
      Exec O (.kind ⟨.db argv, cond, background⟩) s (.value x) t
  -- A definition fails when the table is full.
  | fn {name : Text} {body : PList} {cond : RunCond} {background : Bool} {fns : FnTable}
      {s : Shell} (h : fnSet s.fns name body = some fns) :
      Exec O (.kind ⟨.fn name body, cond, background⟩) s (.value 0) { s with fns := fns }
  | fnFails {name : Text} {body : PList} {cond : RunCond} {background : Bool} {s : Shell}
      (h : fnSet s.fns name body = none) :
      Exec O (.kind ⟨.fn name body, cond, background⟩) s (.value 1) s

/-! ## Runs with enough fuel -/

/-- It is so as soon as both bounds are large enough. -/
def Finally (P : Nat → Nat → Prop) : Prop := ∃ N, ∀ m ≥ N, ∀ turns ≥ N, P m turns

section Finally

variable {P Q : Nat → Nat → Prop}

theorem Finally.of_forall (h : ∀ m turns, P m turns) : Finally P :=
  ⟨0, fun m _ turns _ => h m turns⟩

theorem Finally.mono (h : Finally P) (hpq : ∀ m turns, P m turns → Q m turns) : Finally Q := by
  obtain ⟨N, hN⟩ := h
  exact ⟨N, fun m hm turns hturns => hpq m turns (hN m hm turns hturns)⟩

theorem Finally.and (hp : Finally P) (hq : Finally Q) :
    Finally fun m turns => P m turns ∧ Q m turns := by
  obtain ⟨N, hN⟩ := hp
  obtain ⟨M, hM⟩ := hq
  refine ⟨max N M, fun m hm turns hturns => ⟨hN m ?_ turns ?_, hM m ?_ turns ?_⟩⟩ <;> omega

/-- One turn more. -/
theorem Finally.turn (h : Finally P) : Finally fun m turns => ∃ k, turns = k + 1 ∧ P m k := by
  obtain ⟨N, hN⟩ := h
  refine ⟨N + 1, fun m hm turns hturns => ?_⟩
  obtain ⟨k, rfl⟩ := Nat.exists_eq_add_of_le' (Nat.le_trans (Nat.le_add_left 1 N) hturns)
  exact ⟨k, rfl, hN m (Nat.le_of_succ_le hm) k (Nat.le_of_add_le_add_right hturns)⟩

end Finally

/-! ## What the dispatcher does -/

/-- The status alone. -/
def status {α : Type} (c : Prog Shell (Int × α)) : Prog Shell Int := do
  let r ← c
  pure r.1

/-- The part of the dispatcher that runs a phrase. -/
def code (O : Outside) (m turns : Nat) : Phrase → Prog Shell Int
  | .list items => status (dispatchItems O (dispatchList O m) turns 0 true items)
  | .rest x items => status (dispatchItems O (dispatchList O m) turns x false items)
  | .kind it => status (dispatchKind O (dispatchList O m) turns it)
  | .arms arms => status (dispatchIf (dispatchList O m) arms)
  | .loop last test body => status (whileAsWritten (dispatchList O m) test body turns last)
  | .each last name words body => dispatchFor (dispatchList O m) name body last words

/-- The flag and its status say how a phrase has ended. -/
def Ends (r : Ending) (t : Shell) (o : Outcome Shell Int) : Prop :=
  match r with
  | .value x => o = .ok t x
  | .back x => t.returnStatus = x ∧ o = .ok { t with returning := true } x
  | .exit c => o = .exit t c

section Ends

variable {α β : Type} {r : Ending} {s t : Shell} {x : Int} {c : Prog Shell (Int × α)}

theorem status_ok {u : Shell} (h : status c s = .ok u x) : ∃ a, c s = .ok u (x, a) := by
  obtain ⟨v, ⟨y, a⟩, hc, hpure⟩ := bind_ok h
  obtain ⟨rfl, rfl⟩ := Outcome.ok.inj hpure
  exact ⟨a, hc⟩

theorem status_exit {code : Int} {u : Shell} (h : status c s = .exit u code) :
    c s = .exit u code := by
  simp only [status, bind_apply, Prog.bind] at h
  cases hc : c s with
  | ok v a =>
      rw [hc] at h
      contradiction
  | exit v d =>
      rw [hc] at h
      obtain ⟨rfl, rfl⟩ := Outcome.exit.inj h
      rfl
  | cut v =>
      rw [hc] at h
      contradiction

theorem status_eq {d : Prog Shell (Int × β)} {f : Int × β → α}
    (h : c s = (d >>= fun r => pure (r.1, f r)) t) : status c s = status d t := by
  simp only [status, bind_apply, Prog.bind, h]
  cases d t <;> rfl

/-- The status of what gives one. -/
theorem status_pair (d : Prog Shell Int) (b : β) : status (d >>= fun y => pure (y, b)) = d := by
  funext s
  simp only [status, bind_apply, Prog.bind]
  cases d s <;> rfl

theorem bind_exit {γ : Type} {d : Prog Shell γ} {f : γ → Prog Shell β} {code : Int} {u : Shell}
    (h : d s = .exit u code) : (d >>= f) s = .exit u code := by
  rw [bind_apply, Prog.bind, h]

/-- Behind a list that ends with a status, what follows is run. -/
theorem bind_value {f : Int × α → Prog Shell β} (h : Ends (.value x) t (status c s)) :
    ∃ a, (c >>= f) s = f (x, a) t := by
  obtain ⟨a, hc⟩ := status_ok h
  exact ⟨a, bind_run hc⟩

/-- Behind one that does not, nothing is: what follows tests the flag first. -/
theorem ends_abrupt {d : Prog Shell (Int × β)} {f : Int × α → Prog Shell (Int × β)} {s' v : Shell}
    (hd : d s' = (c >>= f) s) (h : Ends r t (status c s)) (hr : r.abrupt = true)
    (hexit : ∀ code, r = .exit code → v = t)
    (hback : ∀ x a, r = .back x → t.returnStatus = x → v.returnStatus = x ∧
      ∃ b, f (x, a) { t with returning := true } = .ok { v with returning := true } (x, b)) :
    Ends r v (status d s') := by
  cases r with
  | value x => contradiction
  | back x =>
      obtain ⟨hx, hrun⟩ := h
      obtain ⟨a, hc⟩ := status_ok hrun
      obtain ⟨hv, b, hb⟩ := hback x a rfl hx
      refine ⟨hv, ?_⟩
      have hrun : d s' = .ok { v with returning := true } (x, b) := by rw [hd, bind_run hc, hb]
      rw [status, bind_run hrun]
      rfl
  | exit code =>
      obtain rfl := hexit code rfl
      have hrun : d s' = .exit v code := by rw [hd, bind_exit (status_exit h)]
      exact bind_exit hrun

end Ends

/-! ## Lists -/

theorem shortCircuit_iff {cond : RunCond} {x : Int} :
    shortCircuit cond x = true ↔ Skipped cond x := by
  cases cond <;> simp [shortCircuit, Skipped]

/-- `dispatch_list` behind an item. -/
def behind (O : Outside) (dl : PList → Prog Shell (Int × PList)) (turns : Nat) (items : PList)
    (r : Int × Item) : Prog Shell (Int × List Item) := do
  setLastStatus r.1
  emit (.item r.1)
  let s ← look id
  if s.returning then pure (s.returnStatus, r.2 :: items)
  else do
    maybeErrexit items r.1
    let s ← look id
    if s.shellAbort then pure (r.1, r.2 :: items)
    else do
      trapsPoll O dl (if items.isEmpty then .after else .between)
      let rest ← dispatchItems O dl turns r.1 false items
      pure (rest.1, r.2 :: rest.2)

section Lists

variable {dl : PList → Prog Shell (Int × PList)} {turns : Nat} {it : Item} {items : PList}
variable {s t : Shell} {x : Int}

/-- The first item, and one that is not passed over. -/
theorem dispatchItems_goes (hO : Undisturbed O) {first : Bool}
    (h : first = true ∨ ¬ Skipped it.cond x) :
    dispatchItems O dl turns x first (it :: items) s =
      (dispatchKind O dl turns it >>= behind O dl turns items) s := by
  have hskip : ¬ (!first && shortCircuit it.cond x) = true := by
    rw [Bool.and_eq_true, Bool.not_eq_true', shortCircuit_iff]
    rintro ⟨hfirst, hskipped⟩
    rw [hfirst] at h
    exact h.elim Bool.false_ne_true fun hn => hn hskipped
  rw [dispatchItems, if_neg hskip]
  show ((arrive O >>= fun _ => dispatchKind O dl turns it) >>= behind O dl turns items) s = _
  rw [bind_assoc, bind_run (arrive_undisturbed hO s)]

theorem dispatchItems_skips (h : Skipped it.cond x) :
    dispatchItems O dl turns x false (it :: items) =
      dispatchItems O dl turns x false items >>= fun r => pure (r.1, it :: r.2) := by
  rw [dispatchItems, if_pos (by rw [shortCircuit_iff.mpr h]; rfl)]

/-- Where nothing is unwinding, the next items are looked at. -/
theorem behind_value (hO : Undisturbed O) (ht : Calm t) :
    behind O dl turns items (x, it) t =
      (dispatchItems O dl turns x false items >>= fun rest => pure (rest.1, it :: rest.2))
        (record x t) := by
  have herrexit : maybeErrexit items x (record x t) = .ok (record x t) () := by
    show (if _ then shellAbortRaise else pure () : Prog Shell Unit) (record x t) = _
    rw [if_neg (fun h => absurd (ht.errexit.symm.trans h.2.1) (by simp))]
    rfl
  show (if (record x t).returning = true then pure _ else _ : Prog Shell (Int × List Item))
    (record x t) = _
  rw [if_neg (ht.record x).not_returning, bind_run herrexit]
  show (if (record x t).shellAbort = true then pure _ else _ : Prog Shell (Int × List Item))
    (record x t) = _
  rw [if_neg (ht.record x).not_aborting,
    bind_run (trapsPoll_idle hO (ht.record x).pending _)]

/-- A return goes on to the end of the list. -/
theorem behind_back (hx : t.returnStatus = x) :
    behind O dl turns items (x, it) { t with returning := true } =
      .ok { record x t with returning := true } (x, it :: items) := by
  subst hx
  rfl

end Lists

/-! ## The simulation -/

/-- The dispatcher ends as the rules say, and is calm again unless the shell has ended. -/
def Sim (O : Outside) (p : Phrase) (s : Shell) (r : Ending) (t : Shell) : Prop :=
  Calm s → (∀ x, r.status = some x → Calm t) ∧ Finally fun m turns => Ends r t (code O m turns p s)

section Sim

variable {p : Phrase} {s t u : Shell} {r : Ending} {x : Int}

/-- A list that a phrase is made of. -/
theorem Sim.list {items : PList} (h : Sim O (.list items) s r t) (hs : Calm s) :
    Finally fun m _ => Ends r t (status (dispatchList O m items) s) := by
  obtain ⟨N, hN⟩ := (h hs).2
  refine ⟨N + 1, fun m hm _ _ => ?_⟩
  obtain ⟨k, rfl⟩ := Nat.exists_eq_add_of_le' (Nat.le_trans (Nat.le_add_left 1 N) hm)
  have hk : N ≤ k := Nat.le_of_add_le_add_right hm
  exact hN k hk k hk

theorem Sim.calm (h : Sim O p s (.value x) t) (hs : Calm s) : Calm t := (h hs).1 x rfl

theorem sim_nil : Sim O (.list []) s (.value 0) s :=
  fun hs => ⟨fun _ _ => hs, Finally.of_forall fun _ _ => rfl⟩

theorem sim_done : Sim O (.rest x []) s (.value x) s :=
  fun hs => ⟨fun _ _ => hs, Finally.of_forall fun _ _ => rfl⟩

theorem sim_item (hO : Undisturbed O) {it : Item} {items : PList}
    (h : Sim O (.kind it) s (.value x) t) (hrest : Sim O (.rest x items) (record x t) r u) :
    Sim O (.list (it :: items)) s r u := by
  intro hs
  have ht := h.calm hs
  obtain ⟨hu, hrun⟩ := hrest (ht.record x)
  refine ⟨hu, ((h hs).2.and hrun).mono ?_⟩
  rintro m turns ⟨hit, hrest⟩
  obtain ⟨a, hbind⟩ := bind_value (f := behind O (dispatchList O m) turns items) hit
  have heq : dispatchItems O (dispatchList O m) turns 0 true (it :: items) s =
      (dispatchItems O (dispatchList O m) turns x false items >>= fun rest =>
        pure (rest.1, a :: rest.2)) (record x t) := by
    rw [dispatchItems_goes hO (Or.inl rfl), hbind, behind_value hO ht]
  rw [code, status_eq heq]
  exact hrest

theorem sim_leaves (hO : Undisturbed O) {it : Item} {items : PList}
    (h : Sim O (.kind it) s r t) (hr : r.abrupt = true) :
    Sim O (.list (it :: items)) s r (r.record t) := by
  intro hs
  refine ⟨?_, (h hs).2.mono fun m turns hit => ?_⟩
  · intro x hx
    cases r with
    | value y => contradiction
    | back y => exact ((h hs).1 x hx).record y
    | exit code => contradiction
  · refine ends_abrupt (dispatchItems_goes hO (Or.inl rfl)) hit hr ?_ ?_
    · rintro code rfl
      rfl
    · rintro x a rfl hx
      exact ⟨hx, _, behind_back hx⟩

theorem sim_skips {it : Item} {items : PList} (hskip : Skipped it.cond x)
    (h : Sim O (.rest x items) s r t) : Sim O (.rest x (it :: items)) s r t := by
  intro hs
  refine ⟨(h hs).1, (h hs).2.mono fun m turns hrest => ?_⟩
  have heq : dispatchItems O (dispatchList O m) turns x false (it :: items) s = _ :=
    congrFun (dispatchItems_skips hskip) s
  rw [code, status_eq heq]
  exact hrest

theorem sim_goes (hO : Undisturbed O) {it : Item} {items : PList} (hgo : ¬ Skipped it.cond x)
    (h : Sim O (.list (it :: items)) s r t) : Sim O (.rest x (it :: items)) s r t := by
  intro hs
  refine ⟨(h hs).1, (h hs).2.mono fun m turns hlist => ?_⟩
  have heq : dispatchItems O (dispatchList O m) turns x false (it :: items) s =
      dispatchItems O (dispatchList O m) turns 0 true (it :: items) s := by
    rw [dispatchItems_goes hO (Or.inr hgo), dispatchItems_goes hO (Or.inl rfl)]
  rw [code, status, bind_apply, Prog.bind, heq]
  exact hlist

/-! ## Commands -/

theorem sim_simple {pl : Pipeline} {cond : RunCond} (h : Simple O pl s t x) (ht : Calm t) :
    Sim O (.kind ⟨.pipeline pl, cond, false⟩) s (.value x) t := by
  intro _
  refine ⟨fun _ _ => ht, Finally.of_forall fun m turns => ?_⟩
  obtain ⟨pl', hrun⟩ := h (dispatchList O m)
  have heq : dispatchKind O (dispatchList O m) turns ⟨.pipeline pl, cond, false⟩ s =
      .ok t (x, ⟨.pipeline pl', cond, false⟩) := by
    show (dispatchPipeline O (dispatchList O m) pl >>= fun r => pure (r.1, _)) s = _
    rw [bind_run hrun]
    rfl
  exact bind_run heq

theorem sim_returns {pl : Pipeline} {cond : RunCond}
    (h : Simple O pl s { t with returning := true } x) (hx : t.returnStatus = x) (ht : Calm t) :
    Sim O (.kind ⟨.pipeline pl, cond, false⟩) s (.back x) t := by
  intro _
  refine ⟨fun _ _ => ht, Finally.of_forall fun m turns => ⟨hx, ?_⟩⟩
  obtain ⟨pl', hrun⟩ := h (dispatchList O m)
  have heq : dispatchKind O (dispatchList O m) turns ⟨.pipeline pl, cond, false⟩ s =
      .ok { t with returning := true } (x, ⟨.pipeline pl', cond, false⟩) := by
    show (dispatchPipeline O (dispatchList O m) pl >>= fun r => pure (r.1, _)) s = _
    rw [bind_run hrun]
    rfl
  exact bind_run heq

theorem sim_exits {pl : Pipeline} {cond : RunCond} {code : Int} (h : Exits O pl s t code) :
    Sim O (.kind ⟨.pipeline pl, cond, false⟩) s (.exit code) t := by
  intro _
  refine ⟨fun _ hx => by contradiction, Finally.of_forall fun m turns => ?_⟩
  exact bind_exit (bind_exit (h (dispatchList O m)))

/-- What a call is, once the body has been run. -/
theorem calls_status {pl : Pipeline} {cond : RunCond} {name : Text} {args : List Text}
    {body : PList} (h : Calls O pl s name args body t) (m turns : Nat) :
    status (dispatchKind O (dispatchList O m) turns ⟨.pipeline pl, cond, false⟩) s =
      callFn (dispatchList O m) name args body t := by
  obtain ⟨pl', hcomes⟩ := h.comes
  have heq : dispatchKind O (dispatchList O m) turns ⟨.pipeline pl, cond, false⟩ s =
      (callFn (dispatchList O m) name args body >>= fun x =>
        pure (x, (⟨.pipeline pl', cond, false⟩ : Item))) t := by
    show (dispatchPipeline O (dispatchList O m) pl >>= fun r => pure (r.1, _)) s = _
    rw [bind_apply, Prog.bind, hcomes]
    simp only [bind_apply, Prog.bind]
    cases callFn (dispatchList O m) name args body t <;> rfl
  simp only [status, bind_apply, Prog.bind, heq]
  cases callFn (dispatchList O m) name args body t <;> rfl

theorem sim_call {pl : Pipeline} {cond : RunCond} {name : Text} {args : List Text} {body : PList}
    (h : Calls O pl s name args body t) (hbody : Sim O (.list body) (enterCall name args t) r u)
    (hr : r.status = some x) :
    Sim O (.kind ⟨.pipeline pl, cond, false⟩) s (.value x) (leaveCall t x u) := by
  intro _
  have hcalm := h.calm.enterCall name args
  refine ⟨fun _ _ => ((hbody hcalm).1 x hr).leaveCall t x,
    (hbody.list hcalm).mono fun m turns hrun => ?_⟩
  rw [code, calls_status h]
  cases r with
  | value y =>
      obtain rfl := Option.some.inj hr
      obtain ⟨a, hdl⟩ := status_ok hrun
      have hwithin := within_run (s := enterFn name args (noted (.call name) t)) hdl
      show (within .call (dispatchList O m body) >>= _) (enterFn name args (noted (.call name) t)) = _
      rw [bind_run hwithin]
      have hstatus : (if u.returning = true then u.returnStatus else y) = y :=
        if_neg ((hbody hcalm).1 y rfl).not_returning
      show Outcome.ok (noted (.callEnd (if u.returning = true then u.returnStatus else y))
        (leaveFn t.ctx { u with frames := u.frames.tail }))
          (if u.returning = true then u.returnStatus else y) = _
      rw [hstatus]
      rfl
  | back y =>
      obtain rfl := Option.some.inj hr
      obtain ⟨hy, hrun⟩ := hrun
      obtain ⟨a, hdl⟩ := status_ok hrun
      have hwithin := within_run (s := enterFn name args (noted (.call name) t)) hdl
      show (within .call (dispatchList O m body) >>= _) (enterFn name args (noted (.call name) t)) = _
      rw [bind_run hwithin]
      subst hy
      rfl
  | exit code => contradiction

theorem within_exit {α : Type} {frame : Frame} {c : Prog Shell α} {code : Int}
    (h : c { s with frames := frame :: s.frames } = .exit t code) :
    within frame c s = .exit t code := by
  show (c >>= fun a => modify _ >>= fun _ => pure a) { s with frames := frame :: s.frames } = _
  exact bind_exit h

theorem sim_callExits {pl : Pipeline} {cond : RunCond} {name : Text} {args : List Text}
    {body : PList} {code : Int} (h : Calls O pl s name args body t)
    (hbody : Sim O (.list body) (enterCall name args t) (.exit code) u) :
    Sim O (.kind ⟨.pipeline pl, cond, false⟩) s (.exit code) u := by
  intro _
  have hcalm := h.calm.enterCall name args
  refine ⟨fun _ hx => by contradiction, (hbody.list hcalm).mono fun m turns hrun => ?_⟩
  rw [ControlFlow.code, calls_status h]
  have hdl := status_exit hrun
  show (within .call (dispatchList O m body) >>= _) (enterFn name args (noted (.call name) t)) = _
  exact bind_exit (within_exit hdl)

/-! ## Conditions -/

/-- A condition is run, and what follows begins outside of it. -/
theorem exempt_value {α : Type} {c : Prog Shell (Int × α)}
    (h : Ends (.value x) t (status c (enter s))) :
    ∃ a, exempt c s = .ok (quit t) (x, a) := by
  obtain ⟨a, hc⟩ := status_ok h
  refine ⟨a, ?_⟩
  show (c >>= fun a => modify _ >>= fun _ => pure a) (enter s) = _
  rw [bind_run hc]
  rfl

theorem exempt_abrupt {α : Type} {c : Prog Shell (Int × α)} (h : Ends r t (status c (enter s)))
    (hr : r.abrupt = true) : Ends r (r.quit t) (status (exempt c) s) := by
  refine ends_abrupt (c := c) (s := enter s) (f := fun a => modify _ >>= fun _ => pure a) rfl h
    hr ?_ ?_
  · rintro code rfl
    rfl
  · rintro y a rfl hy
    exact ⟨hy, a, rfl⟩


/-- What is left of an arm behind its condition. -/
def afterTest (dl : PList → Prog Shell (Int × PList)) (arm : IfArm) (arms : List IfArm)
    (cond : Int × PList) : Prog Shell (Int × List IfArm) := do
  let s ← look id
  if s.returning then pure (s.returnStatus, ⟨cond.2, arm.body, false⟩ :: arms)
  else if s.shellAbort then pure (cond.1, ⟨cond.2, arm.body, false⟩ :: arms)
  else if cond.1 = 0 then do
    let body ← dl arm.body
    let s ← look id
    pure (if s.returning then s.returnStatus else body.1, ⟨cond.2, body.2, false⟩ :: arms)
  else do
    let r ← dispatchIf dl arms
    pure (r.1, ⟨cond.2, arm.body, false⟩ :: r.2)

theorem dispatchIf_test {dl : PList → Prog Shell (Int × PList)} {arm : IfArm} {arms : List IfArm}
    (h : arm.isElse = false) :
    dispatchIf dl (arm :: arms) = exempt (dl arm.cond) >>= afterTest dl arm arms := by
  rw [dispatchIf, if_neg (by rw [h]; exact Bool.false_ne_true)]
  rfl

theorem afterTest_zero {dl : PList → Prog Shell (Int × PList)} {arm : IfArm} {arms : List IfArm}
    {test : PList} (hs : Calm s) : afterTest dl arm arms (0, test) s =
      (dl arm.body >>= fun body => look id >>= fun u =>
        pure (if u.returning then u.returnStatus else body.1, ⟨test, body.2, false⟩ :: arms)) s := by
  show (if s.returning = true then pure _ else if s.shellAbort = true then pure _ else _ :
    Prog Shell (Int × List IfArm)) s = _
  rw [if_neg hs.not_returning, if_neg hs.not_aborting]
  rfl

theorem afterTest_ne {dl : PList → Prog Shell (Int × PList)} {arm : IfArm} {arms : List IfArm}
    {test : PList} (hs : Calm s) (hx : x ≠ 0) : afterTest dl arm arms (x, test) s =
      (dispatchIf dl arms >>= fun r => pure (r.1, ⟨test, arm.body, false⟩ :: r.2)) s := by
  show (if s.returning = true then pure _ else if s.shellAbort = true then pure _ else
    if x = 0 then _ else _ : Prog Shell (Int × List IfArm)) s = _
  rw [if_neg hs.not_returning, if_neg hs.not_aborting, if_neg hx]

/-- The status of a list behind which the flag is looked at. -/
theorem ends_passed {α β : Type} {c : Prog Shell (Int × α)} {f : α → β}
    (h : Ends r t (status c s)) (ht : ∀ x, r.status = some x → Calm t) :
    Ends r t (status (c >>= fun a => look id >>= fun u =>
      pure (if u.returning then u.returnStatus else a.1, f a.2)) s) := by
  cases r with
  | value x =>
      obtain ⟨a, hc⟩ := status_ok h
      have hstatus : (if t.returning = true then t.returnStatus else x) = x :=
        if_neg (ht x rfl).not_returning
      rw [status, bind_assoc, bind_run hc]
      show Outcome.ok t (if t.returning = true then t.returnStatus else x) = _
      rw [hstatus]
  | back x =>
      obtain ⟨hx, hrun⟩ := h
      obtain ⟨a, hc⟩ := status_ok hrun
      refine ⟨hx, ?_⟩
      rw [status, bind_assoc, bind_run hc]
      subst hx
      rfl
  | exit code => exact bind_exit (bind_exit (status_exit h))

theorem sim_otherwise {arm : IfArm} {arms : List IfArm} (helse : arm.isElse = true)
    (h : Sim O (.list arm.body) s r t) : Sim O (.arms (arm :: arms)) s r t := by
  intro hs
  refine ⟨(h hs).1, (h.list hs).mono fun m turns hrun => ?_⟩
  have heq : dispatchIf (dispatchList O m) (arm :: arms) s =
      (dispatchList O m arm.body >>= fun body =>
        pure (body.1, (⟨arm.cond, body.2, true⟩ : IfArm) :: arms)) s := by
    rw [dispatchIf, if_pos helse]
  rw [code, status_eq heq]
  exact hrun

theorem sim_taken {arm : IfArm} {arms : List IfArm} (helse : arm.isElse = false)
    (htest : Sim O (.list arm.cond) (enter s) (.value 0) t)
    (h : Sim O (.list arm.body) (quit t) r u) : Sim O (.arms (arm :: arms)) s r u := by
  intro hs
  have ht := (htest.calm hs.enter).quit
  refine ⟨(h ht).1, ((htest.list hs.enter).and (h.list ht)).mono ?_⟩
  rintro m turns ⟨htest, hrun⟩
  obtain ⟨test, hcond⟩ := exempt_value htest
  have heq := congrFun (@dispatchIf_test (dispatchList O m) arm arms helse) s
  rw [bind_run hcond, afterTest_zero ht] at heq
  rw [code, status, bind_apply, Prog.bind, heq]
  exact ends_passed (f := fun b => (⟨test, b, false⟩ : IfArm) :: arms) hrun (h ht).1

theorem sim_notTaken {arm : IfArm} {arms : List IfArm} (helse : arm.isElse = false)
    (htest : Sim O (.list arm.cond) (enter s) (.value x) t) (hx : x ≠ 0)
    (h : Sim O (.arms arms) (quit t) r u) : Sim O (.arms (arm :: arms)) s r u := by
  intro hs
  have ht := (htest.calm hs.enter).quit
  refine ⟨(h ht).1, ((htest.list hs.enter).and (h ht).2).mono ?_⟩
  rintro m turns ⟨htest, hrun⟩
  obtain ⟨test, hcond⟩ := exempt_value htest
  have heq := congrFun (@dispatchIf_test (dispatchList O m) arm arms helse) s
  rw [bind_run hcond, afterTest_ne ht hx] at heq
  rw [code, status_eq heq]
  exact hrun

theorem sim_testLeaves {arm : IfArm} {arms : List IfArm} (helse : arm.isElse = false)
    (htest : Sim O (.list arm.cond) (enter s) r t) (hr : r.abrupt = true) :
    Sim O (.arms (arm :: arms)) s r (r.quit t) := by
  intro hs
  refine ⟨?_, (htest.list hs.enter).mono fun m turns htest => ?_⟩
  · intro x hx
    cases r with
    | value y => contradiction
    | back y => exact ((htest hs.enter).1 x hx).quit
    | exit code => contradiction
  · refine ends_abrupt (congrFun (dispatchIf_test helse) s) (exempt_abrupt htest hr) hr ?_ ?_
    · exact fun _ _ => rfl
    · rintro y a rfl hy
      have hy : t.returnStatus = y := hy
      refine ⟨hy, ⟨a, arm.body, false⟩ :: arms, ?_⟩
      subst hy
      rfl

/-! ## Loops -/

/-- What is left of a turn behind its condition. -/
def afterCond (dl : PList → Prog Shell (Int × PList)) (test body : PList) (turns : Nat)
    (last x : Int) :
    Prog Shell (Int × PList × PList) := do
  let s ← look id
  if s.returning then pure (s.returnStatus, test, body)
  else if s.shellAbort then pure (x, test, body)
  else if x ≠ 0 then pure (last, test, body)
  else do
    let r ← dl body
    let s ← look id
    if s.returning then pure (s.returnStatus, test, body)
    else if s.shellAbort then pure (r.1, test, body)
    else whileAsWritten dl test body turns r.1

theorem afterCond_zero {dl : PList → Prog Shell (Int × PList)} {test body : PList} {turns : Nat}
    {last : Int} (hs : Calm s) : afterCond dl test body turns last 0 s =
      (dl body >>= fun r => look id >>= fun u =>
        if u.returning then pure (u.returnStatus, test, body)
        else if u.shellAbort then pure (r.1, test, body)
        else whileAsWritten dl test body turns r.1) s := by
  show (if s.returning = true then pure _ else if s.shellAbort = true then pure _ else _ :
    Prog Shell (Int × PList × PList)) s = _
  rw [if_neg hs.not_returning, if_neg hs.not_aborting]
  rfl

theorem whileAsWritten_turn (dl : PList → Prog Shell (Int × PList)) (test body : PList)
    (turns : Nat) (last : Int) : whileAsWritten dl test body (turns + 1) last =
      exempt (dl test) >>= fun st => afterCond dl test body turns last st.1 := rfl

theorem sim_loopEnds {last : Int} {test body : PList}
    (htest : Sim O (.list test) (enter s) (.value x) t) (hx : x ≠ 0) :
    Sim O (.loop last test body) s (.value last) (quit t) := by
  intro hs
  have ht := (htest.calm hs.enter).quit
  refine ⟨fun _ _ => ht, (htest.list hs.enter).turn.mono ?_⟩
  rintro m _ ⟨turns, rfl, htest⟩
  obtain ⟨a, hcond⟩ := exempt_value htest
  have hrun : whileAsWritten (dispatchList O m) test body (turns + 1) last s =
      .ok (quit t) (last, test, body) := by
    rw [whileAsWritten_turn, bind_run hcond]
    show (if (quit t).returning = true then pure _ else if (quit t).shellAbort = true then pure _
      else if x ≠ 0 then _ else _ : Prog Shell (Int × PList × PList)) (quit t) = _
    rw [if_neg ht.not_returning, if_neg ht.not_aborting, if_pos hx]
    rfl
  exact bind_run hrun

theorem sim_loopTurns {last y : Int} {test body : PList} {v : Shell}
    (htest : Sim O (.list test) (enter s) (.value 0) t)
    (hbody : Sim O (.list body) (quit t) (.value y) u) (h : Sim O (.loop y test body) u r v) :
    Sim O (.loop last test body) s r v := by
  intro hs
  have ht := (htest.calm hs.enter).quit
  have hu := hbody.calm ht
  refine ⟨(h hu).1, (((htest.list hs.enter).and (hbody.list ht)).and (h hu).2).turn.mono ?_⟩
  rintro m _ ⟨turns, rfl, ⟨htest, hbody⟩, hrun⟩
  obtain ⟨a, hcond⟩ := exempt_value htest
  obtain ⟨b, hlist⟩ := status_ok hbody
  have heq : whileAsWritten (dispatchList O m) test body (turns + 1) last s =
      whileAsWritten (dispatchList O m) test body turns y u := by
    rw [whileAsWritten_turn, bind_run hcond, afterCond_zero ht, bind_run hlist]
    show (if u.returning = true then pure _ else if u.shellAbort = true then pure _ else _ :
      Prog Shell (Int × PList × PList)) u = _
    rw [if_neg hu.not_returning, if_neg hu.not_aborting]
  rw [code, status, bind_apply, Prog.bind, heq]
  exact hrun

theorem sim_loopTestLeaves {last : Int} {test body : PList}
    (htest : Sim O (.list test) (enter s) r t) (hr : r.abrupt = true) :
    Sim O (.loop last test body) s r (r.quit t) := by
  intro hs
  refine ⟨?_, (htest.list hs.enter).turn.mono ?_⟩
  · intro x hx
    cases r with
    | value y => contradiction
    | back y => exact ((htest hs.enter).1 x hx).quit
    | exit code => contradiction
  · rintro m _ ⟨turns, rfl, htest⟩
    refine ends_abrupt (congrFun (whileAsWritten_turn _ test body turns last) s)
      (exempt_abrupt htest hr) hr ?_ ?_
    · exact fun _ _ => rfl
    · rintro y a rfl hy
      have hy : t.returnStatus = y := hy
      refine ⟨hy, (test, body), ?_⟩
      subst hy
      rfl

theorem sim_loopLeaves {last : Int} {test body : PList}
    (htest : Sim O (.list test) (enter s) (.value 0) t)
    (hbody : Sim O (.list body) (quit t) r u) (hr : r.abrupt = true) :
    Sim O (.loop last test body) s r u := by
  intro hs
  have ht := (htest.calm hs.enter).quit
  refine ⟨(hbody ht).1, ((htest.list hs.enter).and (hbody.list ht)).turn.mono ?_⟩
  rintro m _ ⟨turns, rfl, htest, hbody⟩
  obtain ⟨a, hcond⟩ := exempt_value htest
  have heq := congrFun (whileAsWritten_turn (dispatchList O m) test body turns last) s
  rw [bind_run hcond, afterCond_zero ht] at heq
  refine ends_abrupt heq hbody hr (fun _ _ => rfl) ?_
  rintro y b rfl hy
  refine ⟨hy, (test, body), ?_⟩
  subst hy
  rfl

theorem sim_wh {test body : PList} {cond : RunCond} {background : Bool} (htest : LastingList test)
    (hbody : LastingList body) (h : Sim O (.loop 0 test body) s r t) :
    Sim O (.kind ⟨.wh test body, cond, background⟩) s r t := by
  intro hs
  refine ⟨(h hs).1, (h hs).2.mono fun m turns hrun => ?_⟩
  have heq : dispatchKind O (dispatchList O m) turns ⟨.wh test body, cond, background⟩ s =
      (whileAsWritten (dispatchList O m) test body turns 0 >>= fun r =>
        pure (r.1, (⟨.wh r.2.1 r.2.2, cond, background⟩ : Item))) s := by
    rw [← dispatchWhile_asWritten O m htest hbody]
    rfl
  rw [code, status_eq
    (f := fun r : Int × PList × PList => (⟨.wh r.2.1 r.2.2, cond, background⟩ : Item)) heq]
  exact hrun


theorem dispatchFor_cons {dl : PList → Prog Shell (Int × PList)} {name word : Text}
    {words : List Text} {body : PList} {last : Int} {env : Env}
    (henv : setenv s.ctx.env name word = some env) :
    dispatchFor dl name body last (word :: words) s =
      (dl body >>= fun r => look id >>= fun s =>
        if s.returning then pure s.returnStatus
        else if s.shellAbort then pure r.1
        else dispatchFor dl name body r.1 words) { s with ctx := { s.ctx with env := env } } := by
  rw [dispatchFor, bind_apply]
  simp only [Prog.bind, look, id, henv]
  rfl

theorem dispatchFor_fails {dl : PList → Prog Shell (Int × PList)} {name word : Text}
    {words : List Text} {body : PList} {last : Int} (henv : setenv s.ctx.env name word = none) :
    dispatchFor dl name body last (word :: words) s = .ok s 1 := by
  rw [dispatchFor, bind_apply]
  simp only [Prog.bind, look, id, henv]
  rfl

theorem Calm.assigned {env : Env} (hs : Calm s) : Calm { s with ctx := { s.ctx with env := env } } :=
  ⟨hs.returning, hs.abort, hs.errexit, hs.pending⟩

theorem sim_eachTurns {last y : Int} {name word : Text} {words : List Text} {body : PList}
    {env : Env} (henv : setenv s.ctx.env name word = some env)
    (hbody : Sim O (.list body) { s with ctx := { s.ctx with env := env } } (.value y) t)
    (h : Sim O (.each y name words body) t r u) :
    Sim O (.each last name (word :: words) body) s r u := by
  intro hs
  have ht := hbody.calm hs.assigned
  refine ⟨(h ht).1, ((hbody.list hs.assigned).and (h ht).2).mono ?_⟩
  rintro m turns ⟨hbody, hrun⟩
  obtain ⟨b, hlist⟩ := status_ok hbody
  rw [code, dispatchFor_cons henv, bind_run hlist]
  show Ends r u ((if t.returning = true then pure _ else if t.shellAbort = true then pure _ else _ :
    Prog Shell Int) t)
  rw [if_neg ht.not_returning, if_neg ht.not_aborting]
  exact hrun

theorem sim_eachLeaves {last : Int} {name word : Text} {words : List Text} {body : PList} {env : Env}
    (henv : setenv s.ctx.env name word = some env)
    (hbody : Sim O (.list body) { s with ctx := { s.ctx with env := env } } r t)
    (hr : r.abrupt = true) : Sim O (.each last name (word :: words) body) s r t := by
  intro hs
  refine ⟨(hbody hs.assigned).1, (hbody.list hs.assigned).mono fun m turns hbody => ?_⟩
  rw [code, dispatchFor_cons henv]
  cases r with
  | value y => contradiction
  | back y =>
      obtain ⟨hy, hrun⟩ := hbody
      obtain ⟨b, hlist⟩ := status_ok hrun
      rw [bind_run hlist]
      subst hy
      exact ⟨rfl, rfl⟩
  | exit c => exact bind_exit (status_exit hbody)

theorem sim_eachFails {last : Int} {name word : Text} {words : List Text} {body : PList}
    (henv : setenv s.ctx.env name word = none) :
    Sim O (.each last name (word :: words) body) s (.value 1) s :=
  fun hs => ⟨fun _ _ => hs, Finally.of_forall fun _ _ => by
    rw [code, dispatchFor_fails henv]
    rfl⟩

theorem sim_fr {name : Text} {words : List Text} {body : PList} {cond : RunCond} {background : Bool}
    (h : Sim O (.each 0 name words body) s r t) :
    Sim O (.kind ⟨.fr name words body, cond, background⟩) s r t := by
  intro hs
  refine ⟨(h hs).1, (h hs).2.mono fun m turns hrun => ?_⟩
  show Ends r t (status (dispatchFor (dispatchList O m) name body 0 words >>= fun x =>
    pure (x, (⟨.fr name words body, cond, background⟩ : Item))) s)
  rw [status_pair]
  exact hrun

/-! ## `case`, `[[` and definitions -/

theorem dispatchCase_expands {dl : PList → Prog Shell (Int × PList)} {word text : Text}
    {arms : List CaseArm} (h : Expands O word s t text) :
    dispatchCase O dl word arms s =
      ((selects arms text).elim (pure 0) fun arm => dl arm.body >>= fun r => look id >>= fun s =>
        pure (if s.returning then s.returnStatus else r.1)) t := by
  have hbind : dispatchCase O dl word arms =
      ((expanding O dl fun w ctx fx => expandWord w ctx word fx) >>= fun text =>
        takeExpandErrors >>= fun bad => pure (text, bad)) >>= fun r =>
          if r.2 then pure 1 else (selects arms r.1).elim (pure 0) fun arm =>
            dl arm.body >>= fun r => look id >>= fun s =>
              pure (if s.returning then s.returnStatus else r.1) := by
    rw [bind_assoc]
    refine congrArg _ (funext fun text => ?_)
    rw [bind_assoc]
    refine congrArg _ (funext fun bad => ?_)
    show _ = (if bad = true then _ else _)
    refine if_congr Iff.rfl rfl ?_
    show _ = (arms.find? _).elim _ _
    cases arms.find? fun arm => arm.patterns.any fun pat => casePatMatch pat text <;> rfl
  rw [hbind, bind_run (h dl)]
  rfl


theorem sim_cs {word text : Text} {arms : List CaseArm} {arm : CaseArm} {cond : RunCond}
    {background : Bool} (h : Expands O word s t text) (ht : Calm t)
    (harm : selects arms text = some arm) (hbody : Sim O (.list arm.body) t r u) :
    Sim O (.kind ⟨.cs word arms, cond, background⟩) s r u := by
  intro _
  refine ⟨(hbody ht).1, (hbody.list ht).mono fun m turns hrun => ?_⟩
  show Ends r u (status (dispatchCase O (dispatchList O m) word arms >>= fun x =>
    pure (x, (⟨.cs word arms, cond, background⟩ : Item))) s)
  rw [status_pair, dispatchCase_expands h, harm]
  have hpassed := ends_passed (f := fun b => b) hrun (hbody ht).1
  rw [status, bind_assoc] at hpassed
  exact hpassed

theorem sim_noCase {word text : Text} {arms : List CaseArm} {cond : RunCond} {background : Bool}
    (h : Expands O word s t text) (ht : Calm t) (harm : selects arms text = none) :
    Sim O (.kind ⟨.cs word arms, cond, background⟩) s (.value 0) t := by
  intro _
  refine ⟨fun _ _ => ht, Finally.of_forall fun m turns => ?_⟩
  show Ends (.value 0) t (status (dispatchCase O (dispatchList O m) word arms >>= fun x =>
    pure (x, (⟨.cs word arms, cond, background⟩ : Item))) s)
  rw [status_pair, dispatchCase_expands h, harm]
  rfl

theorem sim_db {argv : List Word} {cond : RunCond} {background : Bool}
    (h : ∀ dl, runDbracket O dl argv s = .ok t x) (ht : Calm t) :
    Sim O (.kind ⟨.db argv, cond, background⟩) s (.value x) t := by
  intro _
  refine ⟨fun _ _ => ht, Finally.of_forall fun m turns => ?_⟩
  show Ends (.value x) t (status (runDbracket O (dispatchList O m) argv >>= fun x =>
    pure (x, (⟨.db argv, cond, background⟩ : Item))) s)
  rw [status_pair]
  exact h _

theorem sim_fn {name : Text} {body : PList} {cond : RunCond} {background : Bool} {fns : FnTable}
    (h : fnSet s.fns name body = some fns) :
    Sim O (.kind ⟨.fn name body, cond, background⟩) s (.value 0) { s with fns := fns } := by
  intro hs
  refine ⟨fun _ _ => ⟨hs.returning, hs.abort, hs.errexit, hs.pending⟩,
    Finally.of_forall fun m turns => ?_⟩
  show Ends (.value 0) _ (status (dispatchFnDef name body >>= fun x =>
    pure (x, (⟨.fn name body, cond, background⟩ : Item))) s)
  rw [status_pair, dispatchFnDef, bind_apply]
  simp only [Prog.bind, look, id, h]
  rfl

theorem sim_fnFails {name : Text} {body : PList} {cond : RunCond} {background : Bool}
    (h : fnSet s.fns name body = none) :
    Sim O (.kind ⟨.fn name body, cond, background⟩) s (.value 1) s := by
  intro hs
  refine ⟨fun _ _ => hs, Finally.of_forall fun m turns => ?_⟩
  show Ends (.value 1) _ (status (dispatchFnDef name body >>= fun x =>
    pure (x, (⟨.fn name body, cond, background⟩ : Item))) s)
  rw [status_pair, dispatchFnDef, bind_apply]
  simp only [Prog.bind, look, id, h]
  rfl

theorem sim_ifc {arms : List IfArm} {cond : RunCond} {background : Bool}
    (h : Sim O (.arms arms) s r t) : Sim O (.kind ⟨.ifc arms, cond, background⟩) s r t := by
  intro hs
  refine ⟨(h hs).1, (h hs).2.mono fun m turns hrun => ?_⟩
  have heq : dispatchKind O (dispatchList O m) turns ⟨.ifc arms, cond, background⟩ s =
      (dispatchIf (dispatchList O m) arms >>= fun r =>
        pure (r.1, (⟨.ifc r.2, cond, background⟩ : Item))) s := rfl
  rw [code, status_eq
    (f := fun r : Int × List IfArm => (⟨.ifc r.2, cond, background⟩ : Item)) heq]
  exact hrun

/-- **Every rule is kept by the dispatcher.** -/
theorem sim_of_exec (hO : Undisturbed O) (h : Exec O p s r t) : Sim O p s r t := by
  induction h with
  | nil => exact sim_nil
  | item _ _ ih ihrest => exact sim_item hO ih ihrest
  | leaves _ hr ih => exact sim_leaves hO ih hr
  | done => exact sim_done
  | skips hskip _ ih => exact sim_skips hskip ih
  | goes hgo _ ih => exact sim_goes hO hgo ih
  | simple h ht => exact sim_simple h ht
  | returns h hx ht => exact sim_returns h hx ht
  | exits h => exact sim_exits h
  | call h _ hr ih => exact sim_call h ih hr
  | callExits h _ ih => exact sim_callExits h ih
  | ifc _ ih => exact sim_ifc ih
  | noArm => exact fun hs => ⟨fun _ _ => hs, Finally.of_forall fun _ _ => rfl⟩
  | otherwise helse _ ih => exact sim_otherwise helse ih
  | taken helse _ _ ihtest ih => exact sim_taken helse ihtest ih
  | notTaken helse _ hx _ ihtest ih => exact sim_notTaken helse ihtest hx ih
  | testLeaves helse _ hr ih => exact sim_testLeaves helse ih hr
  | wh htest hbody _ ih => exact sim_wh htest hbody ih
  | loopEnds _ hx ih => exact sim_loopEnds ih hx
  | loopTurns _ _ _ ihtest ihbody ih => exact sim_loopTurns ihtest ihbody ih
  | loopTestLeaves _ hr ih => exact sim_loopTestLeaves ih hr
  | loopLeaves _ _ hr ihtest ihbody => exact sim_loopLeaves ihtest ihbody hr
  | fr _ ih => exact sim_fr ih
  | eachEnds => exact fun hs => ⟨fun _ _ => hs, Finally.of_forall fun _ _ => rfl⟩
  | eachTurns henv _ _ ihbody ih => exact sim_eachTurns henv ihbody ih
  | eachLeaves henv _ hr ih => exact sim_eachLeaves henv ih hr
  | eachFails henv => exact sim_eachFails henv
  | cs h ht harm _ ih => exact sim_cs h ht harm ih
  | noCase h ht harm => exact sim_noCase h ht harm
  | db h ht => exact sim_db h ht
  | fn h => exact sim_fn h
  | fnFails h => exact sim_fnFails h

end Sim

/-- **The dispatcher keeps the meaning of lists**: what the rules say of a list is what it
does with every large enough bound, with the flag of `return` set where the rules leave a
call. -/
theorem dispatchList_refines {O : Outside} (hO : Undisturbed O) {items : PList} {s t : Shell}
    {r : Ending} (hs : Calm s) (h : Exec O (.list items) s r t) :
    ∃ N, ∀ m ≥ N, Ends r t (status (dispatchList O m items) s) := by
  obtain ⟨N, hN⟩ := (sim_of_exec hO h).list hs
  exact ⟨N, fun m hm => hN m hm N (Nat.le_refl N)⟩

/-! ## A loop that is left by its function -/

/-- A command of words that are quoted. -/
def quotedCmd (words : List String) : Cmd := { argv := words.map fun w => ⟨w.toList, .single⟩ }

/-- `while true; do return 3; done` -/
def returningBody : PList :=
  [⟨.wh [⟨.pipeline ⟨[quotedCmd ["true"]]⟩, .always, false⟩]
    [⟨.pipeline ⟨[quotedCmd ["return", "3"]]⟩, .always, false⟩], .always, false⟩]

/-- A call of it, and `false` behind `&&`. -/
def callOfReturning : PList :=
  [⟨.pipeline ⟨[quotedCmd ["f"]]⟩, .always, false⟩, ⟨.pipeline ⟨[quotedCmd ["false"]]⟩, .and, false⟩]

theorem literal_quotedCmd (words : List String) : Literal (quotedCmd words) := by
  have hinert : ∀ word ∈ (quotedCmd words).argv, Inert word := by
    intro word hword
    obtain ⟨w, -, rfl⟩ := List.mem_map.mp hword
    exact Or.inl rfl
  exact ⟨⟨fun word hword => (hinert word hword).imp_right And.left, nofun, nofun, nofun, nofun⟩,
    hinert⟩

/-- A calm shell without traces, where `f` is the only function. -/
structure Plain (depth : Nat) (s : Shell) : Prop where
  calm : Calm s
  clear : Clear s
  trace : s.ctx.optX = false
  fns : s.fns = [some (['f'], returningBody)]
  depth : s.fnDepth = depth

section Plain

variable {O : Outside} {dl : PList → Prog Shell (Int × PList)} {depth : Nat} {s : Shell}

/-- What the shell has noted when it runs the command. -/
def announced (cmd : Cmd) (s : Shell) : Shell :=
  noted (.command (words cmd)) (noted (.dispatch ⟨[cmd]⟩) s)

theorem fns_announced (cmd : Cmd) : (announced cmd s).fns = s.fns := rfl

theorem words_quotedCmd (name : String) (args : List String) :
    words (quotedCmd (name :: args)) = name.toList :: words (quotedCmd args) := rfl

theorem Plain.note (hs : Plain depth s) (e : Event) : Plain depth (noted e s) :=
  ⟨⟨hs.calm.1, hs.calm.2, hs.calm.3, hs.calm.4⟩, ⟨hs.clear.1, hs.clear.2⟩, hs.trace, hs.fns,
    hs.depth⟩

theorem Plain.announce (hs : Plain depth s) (cmd : Cmd) : Plain depth (announced cmd s) :=
  (hs.note _).note _

/-- Behind the builtin. -/
theorem Plain.set_status (hs : Plain depth s) (x : Int) : Plain depth { s with returnStatus := x } :=
  ⟨⟨hs.calm.1, hs.calm.2, hs.calm.3, hs.calm.4⟩, ⟨hs.clear.1, hs.clear.2⟩, hs.trace, hs.fns,
    hs.depth⟩

theorem Plain.call (hs : Plain depth s) (name : Text) (args : List Text) :
    Plain (depth + 1) (enterCall name args s) :=
  ⟨hs.calm.enterCall name args, ⟨hs.clear.1, hs.clear.2⟩, hs.trace, hs.fns,
    congrArg (· + 1) hs.depth⟩

theorem announce_untraced (cmd : Cmd) (h : s.ctx.optX = false) :
    announce cmd s = .ok (noted (.command (words cmd)) s) () := by
  have hemit : emit (.command (words cmd)) s = .ok (noted (.command (words cmd)) s) () := rfl
  have hlook : look id (noted (.command (words cmd)) s) =
      .ok (noted (.command (words cmd)) s) (noted (.command (words cmd)) s) := rfl
  rw [announce, bind_run hemit, xtracePrintCmd, bind_run hlook, onlyIf]
  split
  next htrace => exact absurd (h.symm.trans htrace.1) Bool.false_ne_true
  next => rfl

theorem dispatchPipeline_quoted {words : List String} (hwords : words ≠ []) (hs : Plain depth s) :
    dispatchPipeline O dl ⟨[quotedCmd words]⟩ s =
      (runCommand O dl (quotedCmd words) >>= fun x => pure (x, (⟨[quotedCmd words]⟩ : Pipeline)))
        (announced (quotedCmd words) s) := by
  have hargv : (quotedCmd words).argv ≠ [] := by
    intro h
    exact hwords (List.map_eq_nil_iff.mp h)
  have hannounce := announce_untraced (quotedCmd words)
    (s := noted (.dispatch ⟨[quotedCmd words]⟩) s) hs.trace
  rw [dispatchPipeline_still hargv (literal_quotedCmd words).same hs.clear, commandRest,
    Lib.Run.bind_assoc, bind_run hannounce, Lib.Run.bind_assoc]
  rfl

theorem Plain.simple {words : List String} {x : Int} {t : Shell} (hs : Plain depth s)
    {name : String} (hname : builtins.contains name.toList = true) (hf : name.toList ≠ ['f'])
    (h : ∀ dl, callBuiltin O dl (quotedCmd (name :: words))
      (announced (quotedCmd (name :: words)) s) = .ok t x) :
    Simple O ⟨[quotedCmd (name :: words)]⟩ s t x := by
  intro dl
  refine ⟨⟨[quotedCmd (name :: words)]⟩, ?_⟩
  have hfn : fnGet s.fns name.toList = none := by
    simp [hs.fns, fnGet, fnHolds, hf.symm]
  have hrun : runCommand O dl (quotedCmd (name :: words))
      (announced (quotedCmd (name :: words)) s) = .ok t x := by
    have hlook : look id (announced (quotedCmd (name :: words)) s) =
        .ok (announced (quotedCmd (name :: words)) s)
          (announced (quotedCmd (name :: words)) s) := rfl
    have hplain : cmdNeedsRedir (quotedCmd (name :: words)) = false := rfl
    rw [← h dl, runCommand, bind_run hlook, words_quotedCmd]
    simp only [fns_announced, hfn, hname, hplain, if_true, Bool.false_eq_true, if_false]
  rw [dispatchPipeline_quoted (List.cons_ne_nil _ _) hs, bind_run hrun]
  rfl

theorem Plain.simple_true (hs : Plain depth s) :
    ∃ t, Simple .quiet ⟨[quotedCmd ["true"]]⟩ s t 0 ∧ Plain depth t :=
  ⟨_, hs.simple rfl (by decide) (fun dl => rfl), ⟨hs.calm.1, hs.calm.2, hs.calm.3, hs.calm.4⟩,
    ⟨hs.clear.1, hs.clear.2⟩, hs.trace, hs.fns, hs.depth⟩

theorem Plain.returns (hs : Plain (depth + 1) s) (cond : RunCond) :
    ∃ t, Exec .quiet (.kind ⟨.pipeline ⟨[quotedCmd ["return", "3"]]⟩, cond, false⟩) s (.back 3) t ∧
      Plain (depth + 1) t := by
  have ht := (((hs.announce (quotedCmd ["return", "3"])).note
    (.builtin (words (quotedCmd ["return", "3"])))).note (.returned 3)).set_status 3
  refine ⟨_, .returns (hs.simple rfl (by decide) fun dl => ?_) rfl ht.calm, ht⟩
  show (if s.fnDepth = 0 then pure 1 else _ : Prog Shell Int) _ = _
  rw [if_neg (by rw [hs.depth]; exact Nat.succ_ne_zero depth)]
  rfl

theorem literal_item {words : List String} {cond : RunCond} :
    Lasting ⟨.pipeline ⟨[quotedCmd words]⟩, cond, false⟩ := by
  apply Lasting.pipeline
  intro cmd hcmd
  rw [List.mem_singleton.mp hcmd]
  exact literal_quotedCmd words

theorem Plain.returning (hs : Plain (depth + 1) s) :
    ∃ t, Exec .quiet (.list returningBody) s (.back 3) t ∧ Plain (depth + 1) t := by
  have henter : Plain (depth + 1) (enter s) :=
    ⟨hs.calm.enter, ⟨hs.clear.1, hs.clear.2⟩, hs.trace, hs.fns, hs.depth⟩
  obtain ⟨t, htrue, ht⟩ := henter.simple_true
  have hquit : Plain (depth + 1) (quit (record 0 t)) :=
    ⟨(ht.calm.record 0).quit, ⟨ht.clear.1, ht.clear.2⟩, ht.trace, ht.fns, ht.depth⟩
  obtain ⟨u, hreturn, hu⟩ := hquit.returns .always
  have htest : Exec .quiet (.list [⟨.pipeline ⟨[quotedCmd ["true"]]⟩, .always, false⟩]) (enter s)
      (.value 0) (record 0 t) := .item (.simple htrue ht.calm) .done
  have hlist : ∀ words, LastingList [⟨.pipeline ⟨[quotedCmd words]⟩, .always, false⟩] := by
    intro words it hit
    rw [List.mem_singleton.mp hit]
    exact literal_item
  exact ⟨_, .leaves (.wh (hlist _) (hlist _) (.loopLeaves htest (.leaves hreturn rfl) rfl)) rfl,
    (hu.calm.record 3).record 3, ⟨hu.clear.1, hu.clear.2⟩, hu.trace, hu.fns, hu.depth⟩

theorem Plain.calls (hs : Plain depth s) :
    Calls .quiet ⟨[quotedCmd ["f"]]⟩ s ['f'] [] returningBody (announced (quotedCmd ["f"]) s) := by
  have hfn : fnGet s.fns ['f'] = some returningBody := by rw [hs.fns]; rfl
  refine ⟨(hs.announce _).calm, hfn, ⟨⟨[quotedCmd ["f"]]⟩, fun dl => ?_⟩⟩
  have hrun : runCommand .quiet dl (quotedCmd ["f"]) (announced (quotedCmd ["f"]) s) =
      callFn dl ['f'] [] returningBody (announced (quotedCmd ["f"]) s) := by
    have hlook : look id (announced (quotedCmd ["f"]) s) =
        .ok (announced (quotedCmd ["f"]) s) (announced (quotedCmd ["f"]) s) := rfl
    have hwords : words (quotedCmd ["f"]) = [['f']] := rfl
    rw [runCommand, bind_run hlook, hwords]
    simp only [fns_announced, hfn]
  rw [dispatchPipeline_quoted (List.cons_ne_nil _ _) hs, bind_apply, Prog.bind, hrun]
  rfl

end Plain

/-- A call that a `return` ends inside of a loop, and a command behind `&&`. -/
theorem dispatchList_refines_returning : ∃ t N, ∀ m ≥ N, Ends (.value 3) t
    (status (dispatchList .quiet m callOfReturning)
      { Shell.start ⟨fun _ => none, [], [], false, false, false, 0⟩ fun _ => .dfl with
        fns := [some (['f'], returningBody)] }) := by
  have hs : Plain 0 { Shell.start ⟨fun _ => none, [], [], false, false, false, 0⟩ fun _ => .dfl with
      fns := [some (['f'], returningBody)] } :=
    ⟨⟨rfl, rfl, rfl, fun _ => rfl⟩, ⟨rfl, rfl⟩, rfl, rfl, rfl⟩
  obtain ⟨t, hbody, -⟩ := ((hs.announce (quotedCmd ["f"])).call ['f'] []).returning
  refine ⟨_, dispatchList_refines (fun _ => rfl) hs.calm
    (.item (.call hs.calls hbody rfl) (.skips (.inl ⟨rfl, ?_⟩) .done))⟩
  decide

end Petrush.Verified.ControlFlow

import Petrush.Verified.Record

/-!
# A function call is a frame

The stack of saved variables is shared by all calls, and each save is tagged with
the depth of the call that made it.  While the tags on the stack are at most the
current depth (`Tagged`), a run only pushes saves of its own depth, and a call
leaves the stack as it was; so what `local_restore_frame` takes off at the end of
a call is what this call pushed.

## Main results

* `callFn_frame`: what a call restores, and what it leaves.
* `tagged_kept`: the tags are right in every run.
-/

namespace Petrush.Verified.Calls

open Petrush.Lib.CText
open Petrush.Lib.Run
open Petrush.Foundation
open Petrush.Mid.Ast
open Petrush.Mid.Dispatcher
open Petrush.Mid.Expand
open Petrush.Mid.State
open Petrush.Verified.Record
open Petrush.Verified.Traversal

/-- No save on the stack is of a call that is not active. -/
def Tagged (s : Shell) : Prop := ∀ e ∈ s.locals, e.depth ≤ s.fnDepth

/-- The save that an entry of a process notes, if it was made at the depth. -/
def saveOf (proc : Proc) (depth : Nat) (e : Entry) : Option LocalSave :=
  match e.event with
  | .saved d name old => if e.proc = proc ∧ d = depth then some ⟨d, name, old⟩ else none
  | _ => none

/-- The saves of the call at a depth, the last one first. -/
def savesOf (proc : Proc) (depth : Nat) (l : List Entry) : List LocalSave :=
  l.filterMap (saveOf proc depth)

/-- What was saved when the variable was first declared, the saves standing the last
one first. -/
def firstSave (saves : List LocalSave) (name : Text) : Option LocalSave :=
  saves.reverse.find? fun e => e.name == name

theorem saveOf_eq_some {proc : Proc} {depth : Nat} {e : Entry} {save : LocalSave}
    (h : saveOf proc depth e = some save) :
    e.proc = proc ∧ save.depth = depth ∧ e.event = .saved depth save.name save.old := by
  unfold saveOf at h
  split at h
  next d name old heq =>
    split at h
    next hpd =>
      obtain rfl := Option.some.inj h
      exact ⟨hpd.1, hpd.2, by rw [heq, hpd.2]⟩
    · contradiction
  · contradiction

theorem saveOf_eq_none {proc : Proc} {depth : Nat} {e : Entry}
    (h : ∀ d name old, e.event = .saved d name old → e.proc = proc → d ≠ depth) :
    saveOf proc depth e = none := by
  unfold saveOf
  split
  next d name old heq => exact if_neg fun hpd => h d name old heq hpd.1 hpd.2
  · rfl

/-! ## Restoring -/

theorem localRestoreFrame_append {depth : Nat} {new rest : List LocalSave}
    (hnew : ∀ e ∈ new, e.depth = depth) (hrest : ∀ e ∈ rest, e.depth ≠ depth) (env : Env) :
    localRestoreFrame depth (new ++ rest) env = (rest, new.foldl localRestore env) := by
  induction new generalizing env with
  | nil =>
      cases rest with
      | nil => rfl
      | cons e rest => exact if_neg (hrest e List.mem_cons_self)
  | cons e new ih =>
      show (if e.depth = depth then localRestoreFrame depth (new ++ rest) (localRestore env e)
        else _) = _
      rw [if_pos (hnew e List.mem_cons_self)]
      exact ih (fun x hx => hnew x (List.mem_cons_of_mem e hx)) _

theorem getenv_localRestore {e : LocalSave} (h : envNameInvalid e.name = false) (env : Env)
    (name : Text) :
    getenv (localRestore env e) name = if e.name = name then e.old else getenv env name := by
  unfold localRestore
  split
  next old hold =>
    simp only [setenv, h, Bool.false_eq_true, if_false, Option.getD_some, getenv, hold]
    simp only [eq_comm]
  next hold =>
    simp only [unsetenv, h, Bool.false_eq_true, if_false, Option.getD_some, getenv, hold]
    simp only [eq_comm]

/-- Every variable that was saved is back at what was saved first; no other is touched. -/
theorem getenv_restoreAll {saves : List LocalSave}
    (h : ∀ e ∈ saves, envNameInvalid e.name = false) (env : Env) (name : Text) :
    getenv (saves.foldl localRestore env) name =
      ((firstSave saves name).map LocalSave.old).getD (getenv env name) := by
  induction saves generalizing env with
  | nil => rfl
  | cons e saves ih =>
      have hrest : ∀ x ∈ saves, envNameInvalid x.name = false :=
        fun x hx => h x (List.mem_cons_of_mem e hx)
      rw [List.foldl_cons, ih hrest, getenv_localRestore (h e List.mem_cons_self)]
      unfold firstSave
      rw [List.reverse_cons, List.find?_append]
      cases hfind : saves.reverse.find? fun x => x.name == name with
      | some x => rfl
      | none =>
          by_cases hname : e.name = name
          · simp [hname]
          · simp [hname]

/-! ## The stack along a run -/

/-- The depth is the same, and the stack has grown by the saves of this depth. -/
structure Framed (s s' : Shell) : Prop where
  depth : s'.fnDepth = s.fnDepth
  locals : s'.locals = savesOf s.proc s.fnDepth (added s s') ++ s.locals
  saved : ∀ e ∈ added s s', ∀ d name old, e.event = .saved d name old → e.proc = s.proc →
    s.fnDepth ≤ d ∧ envNameInvalid name = false

theorem mem_savesOf {proc : Proc} {depth : Nat} {l : List Entry} {save : LocalSave}
    (h : save ∈ savesOf proc depth l) :
    ∃ e ∈ l, e.proc = proc ∧ save.depth = depth ∧ e.event = .saved depth save.name save.old := by
  obtain ⟨e, he, hsave⟩ := List.mem_filterMap.mp h
  exact ⟨e, he, saveOf_eq_some hsave⟩

theorem Framed.tagged {s s' : Shell} (hs : Tagged s) (h : Framed s s') : Tagged s' := by
  intro e he
  rw [h.locals] at he
  rw [h.depth]
  rcases List.mem_append.mp he with hnew | hold
  · obtain ⟨_, -, -, hdepth, -⟩ := mem_savesOf hnew
    exact hdepth.le
  · exact hs e hold

theorem Framed.trans {s t u : Shell} (hst : Stays s t) (htu : Stays t u) (h : Framed s t)
    (k : Framed t u) : Framed s u := by
  have hadd := added_trans hst.toGrew htu.toGrew
  refine ⟨k.depth.trans h.depth, ?_, ?_⟩
  · rw [k.locals, h.locals, h.depth, hst.proc, hadd, savesOf, savesOf, savesOf,
      List.filterMap_append, List.append_assoc]
  · intro e he d name old hevent hproc
    rw [hadd] at he
    rcases List.mem_append.mp he with hu | ht
    · have hk := k.saved e hu d name old hevent (hproc.trans hst.proc.symm)
      rwa [h.depth] at hk
    · exact h.saved e ht d name old hevent hproc

/-- Nothing was saved at this depth. -/
theorem Framed.none {s s' : Shell} (hdepth : s'.fnDepth = s.fnDepth)
    (hlocals : s'.locals = s.locals)
    (h : ∀ e ∈ added s s', ∀ d name old, e.event = .saved d name old → e.proc = s.proc →
      s.fnDepth < d ∧ envNameInvalid name = false) : Framed s s' := by
  refine ⟨hdepth, ?_, ?_⟩
  · have hnone : savesOf s.proc s.fnDepth (added s s') = [] := by
      apply List.filterMap_eq_nil_iff.mpr
      intro e he
      apply saveOf_eq_none
      intro d name old hevent hproc
      exact (h e he d name old hevent hproc).1.ne'
    rw [hnone, hlocals, List.nil_append]
  · intro e he d name old hevent hproc
    exact (h e he d name old hevent hproc).imp_left Nat.le_of_lt

theorem Framed.same {s s' : Shell} (hlog : s'.log = s.log) (hdepth : s'.fnDepth = s.fnDepth)
    (hlocals : s'.locals = s.locals) : Framed s s' := by
  apply Framed.none hdepth hlocals
  intro e he
  rw [added_eq (l := []) hlog] at he
  exact absurd he List.not_mem_nil

theorem Framed.noted {e : Event} (he : ∀ d name old, e ≠ .saved d name old) (s : Shell) :
    Framed s (noted e s) := by
  refine Framed.none rfl rfl ?_
  intro x hx d name old hevent
  rw [added_eq (l := [s.entry e]) rfl] at hx
  rw [List.mem_singleton.mp hx] at hevent
  exact absurd hevent (he d name old)

/-! ## Every run -/

/-- The relation: what a run adds, and what it does to the stack if the tags are right. -/
def Steady (s s' : Shell) : Prop := Stays s s' ∧ (Tagged s → Framed s s')

theorem steady_composes : Composes Steady Grew where
  refl _ := ⟨Stays.same rfl rfl rfl, fun _ => Framed.same rfl rfl rfl⟩
  trans h k := ⟨h.1.trans k.1, fun hs => (h.2 hs).trans h.1 k.1 (k.2 ((h.2 hs).tagged hs))⟩
  stop _ := Grew.same rfl
  transStop h k := Grew.trans h.1 k

theorem steady_same {s s' : Shell} (hlog : s'.log = s.log) (hproc : s'.proc = s.proc)
    (hframes : s'.frames = s.frames) (hdepth : s'.fnDepth = s.fnDepth)
    (hlocals : s'.locals = s.locals) : Steady s s' :=
  ⟨Stays.same hlog hproc hframes, fun _ => Framed.same hlog hdepth hlocals⟩

theorem steady_noted {e : Event} (he : ∀ d name old, e ≠ .saved d name old) (s : Shell) :
    Steady s (noted e s) := ⟨Stays.noted e s, fun _ => Framed.noted he s⟩

theorem steady_emit {e : Event} (he : ∀ d name old, e ≠ .saved d name old) :
    Keeps Steady Grew (emit e) := Keeps.modify (steady_noted he)

theorem grew_of_steady {α : Type} {c : Prog Shell α} (hc : Keeps Steady Grew c) :
    Keeps Stays Grew c := hc.imp (fun _ _ h => h.1) fun _ _ h => h

theorem steady_within {α : Type} (frame : Frame) {c : Prog Shell α} (hc : Keeps Steady Grew c) :
    Keeps Steady Grew (within frame c) := by
  intro s
  have hgrew := grew_within frame (grew_of_steady hc) s
  have hframed : (within frame c s).Holds (fun _ t => Tagged s → Framed s t) fun _ => True := by
    apply bind_holds
    show Outcome.Holds _ _ (Outcome.ok { s with frames := frame :: s.frames } ())
    apply bind_holds
    refine (hc _).imp ?_ fun _ _ => trivial
    intro a t ht hs
    have h := ht.2 hs
    exact ⟨h.depth, h.locals, h.saved⟩
  exact (hgrew.and hframed).imp (fun _ _ h => h) fun _ h => h.1

theorem steady_control : Control Steady Grew where
  toComposes := steady_composes
  quiet h := steady_same (congrArg Core.log h) (congrArg Core.proc h) (congrArg Core.frames h)
    (congrArg Core.fnDepth h) (congrArg Core.locals h)
  fds _ _ := steady_same rfl rfl rfl rfl rfl
  flags _ _ := steady_same rfl rfl rfl rfl rfl
  note s e he := by
    apply steady_noted
    rintro d name old rfl
    contradiction
  within := steady_within

theorem steady_base : Base fun _ => Keeps Steady Grew := steady_control.base

theorem steady_fork {α : Type} {child : Child} {prepare : Shell → Shell} {body : Prog Shell α}
    (hp : Prepares child prepare) (hb : Keeps Steady Grew body) :
    Keeps Steady Grew (fork child prepare body) := by
  intro s
  have hgrew := grew_fork hp (grew_of_steady hb) s
  rw [fork_eq] at hgrew ⊢
  refine ⟨hgrew, fun _ => Framed.none rfl rfl ?_⟩
  intro e he d name old hevent hproc
  rw [added_forked hp (grew_of_steady hb)] at he
  rcases List.mem_append.mp he with hchild | hown
  · exact absurd hproc (proc_ne_of_below ((grew_state (grew_of_steady hb) _).below e hchild))
  · rw [List.mem_singleton.mp hown] at hevent
    contradiction

/-- The state behind a save. -/
def pushed (name : Text) (s : Shell) : Shell :=
  { noted (.saved s.fnDepth name (getenv s.ctx.env name)) s with
    locals := ⟨s.fnDepth, name, getenv s.ctx.env name⟩ :: s.locals }

theorem localPush_eq (name : Text) (s : Shell) :
    localPush name s =
      if name = [] ∨ s.locals.length ≥ localStackMax then .ok s false
      else .ok (pushed name s) true := by
  show (ite (name = [] ∨ s.locals.length ≥ localStackMax) _ _ : Prog Shell Bool) s = _
  by_cases hfull : name = [] ∨ s.locals.length ≥ localStackMax
  · rw [if_pos hfull, if_pos hfull]
    rfl
  · rw [if_neg hfull, if_neg hfull]
    rfl

theorem steady_pushed {name : Text} (h : envNameInvalid name = false) (s : Shell) :
    Steady s (pushed name s) := by
  have hadd : added s (pushed name s) =
      [s.entry (.saved s.fnDepth name (getenv s.ctx.env name))] := added_eq rfl
  refine ⟨(Stays.noted _ s).trans (Stays.same rfl rfl rfl), fun _ => ⟨rfl, ?_, ?_⟩⟩
  · rw [hadd]
    simp [savesOf, saveOf, Shell.entry, pushed]
  · intro e he d x old hevent _
    rw [hadd] at he
    rw [List.mem_singleton.mp he] at hevent
    obtain ⟨rfl, rfl, -⟩ := Event.saved.inj hevent
    exact ⟨le_refl _, h⟩

theorem steady_push {name : Text} (h : '=' ∉ name) : Keeps Steady Grew (localPush name) := by
  intro s
  rw [localPush_eq]
  by_cases hfull : name = [] ∨ s.locals.length ≥ localStackMax
  · rw [if_pos hfull]
    exact steady_composes.refl s
  · rw [if_neg hfull]
    apply steady_pushed
    simp [envNameInvalid, h, (not_or.mp hfull).1]

/-! ## A call -/

/-- The status of a call. -/
def callStatus (r : Int × PList) (t : Shell) : Int := if t.returning then t.returnStatus else r.1

/-- The state in which the body of a call starts. -/
def entered (name : Text) (args : List Text) (s : Shell) : Shell :=
  enterFn name args (noted (.call name) s)

/-- The state behind a call whose body ended in `t`. -/
def left (r : Int × PList) (s t : Shell) : Shell :=
  noted (.callEnd (callStatus r t)) (leaveFn s.ctx t)

theorem callFn_eq (dl : PList → Prog Shell (Int × PList)) (name : Text) (args : List Text)
    (body : PList) (s : Shell) :
    callFn dl name args body s =
      match within .call (dl body) (entered name args s) with
      | .ok t r => .ok (left r s t) (callStatus r t)
      | .exit t code => .exit t code
      | .cut t => .cut t := by
  show Prog.bind (within .call (dl body)) _ (entered name args s) = _
  unfold Prog.bind
  cases within .call (dl body) (entered name args s) <;> rfl

section Call

variable {dl : PList → Prog Shell (Int × PList)} {name : Text} {args : List Text} {body : PList}
variable {s t : Shell}

theorem tagged_entered (hs : Tagged s) : Tagged (entered name args s) :=
  fun e he => (hs e he).trans (Nat.le_succ _)

/-- What `local_restore_frame` takes off is what this call has pushed. -/
theorem restored (hs : Tagged s) (h : Framed (entered name args s) t) :
    localRestoreFrame t.fnDepth t.locals t.ctx.env =
      (s.locals, (savesOf s.proc (s.fnDepth + 1) (added (entered name args s) t)).foldl
        localRestore t.ctx.env) := by
  rw [h.depth, h.locals]
  apply localRestoreFrame_append
  · intro e he
    obtain ⟨_, -, -, hdepth, -⟩ := mem_savesOf he
    exact hdepth
  · intro e he
    exact (Nat.lt_succ_of_le (hs e he)).ne

theorem added_left {r : Int × PList} (h : Stays (entered name args s) t) :
    added s (left r s t) =
      (leaveFn s.ctx t).entry (.callEnd (callStatus r t)) ::
        added (entered name args s) t ++ [s.entry (.call name)] := by
  apply added_eq
  show _ :: t.log = _
  rw [h.log]
  simp only [List.cons_append, List.append_assoc]
  rfl

theorem framed_left {r : Int × PList} (hs : Tagged s) (hstay : Stays (entered name args s) t)
    (h : Framed (entered name args s) t) : Framed s (left r s t) := by
  have hrest := restored hs h
  refine Framed.none ?_ ?_ ?_
  · show t.fnDepth - 1 = s.fnDepth
    rw [h.depth]
    rfl
  · show (localRestoreFrame t.fnDepth t.locals t.ctx.env).1 = s.locals
    rw [hrest]
  · intro e he d x old hevent hproc
    rw [added_left hstay, List.cons_append] at he
    rcases List.mem_cons.mp he with rfl | he
    · contradiction
    · rcases List.mem_append.mp he with hbody | hcall
      · exact h.saved e hbody d x old hevent hproc
      · rw [List.mem_singleton.mp hcall] at hevent
        contradiction

theorem steady_callFn (hdl : ∀ l, Keeps Steady Grew (dl l)) :
    Keeps Steady Grew (callFn dl name args body) := by
  intro s
  have hgrew : Keeps Stays Grew (callFn dl name args body) :=
    grew_callFn (fun l => grew_of_steady (hdl l)) name args body
  have hframed : (callFn dl name args body s).Holds (fun _ s' => Tagged s → Framed s s')
      fun _ => True := by
    have hbody := steady_within .call (hdl body) (entered name args s)
    rw [callFn_eq]
    cases hrun : within .call (dl body) (entered name args s) with
    | ok t r =>
        rw [hrun] at hbody
        exact fun hs => framed_left hs hbody.1 (hbody.2 (tagged_entered hs))
    | exit t code => trivial
    | cut t => trivial
  exact ((hgrew s).and hframed).imp (fun _ _ h => h) fun _ h => h.1

end Call

/-! ## Every run -/

theorem steady_stageChild {O : Outside} {dl : PList → Prog Shell (Int × PList)} (since i n : Nat)
    {cmd : Cmd} (hrun : Keeps Steady Grew (callBuiltin O dl cmd)) :
    Keeps Steady Grew (stageChild O dl since i n cmd) := by
  apply keeps_stageChild steady_base (Keeps.exit steady_composes) _ since i n
  · apply keeps_stageRun steady_base (Keeps.exit steady_composes) _ hrun
    apply keeps_execv steady_base
    exact fun _ _ => steady_emit fun _ _ _ => Event.noConfusion
  · exact fun _ _ => steady_same rfl rfl rfl rfl rfl

theorem steady_builtinExit {O : Outside} {dl : PList → Prog Shell (Int × PList)}
    (hdl : ∀ l, Keeps Steady Grew (dl l)) (args : List Text) :
    Keeps Steady Grew (builtinExit O dl args) := by
  have hemit : ∀ e, (∀ d name old, e ≠ .saved d name old) → Keeps Steady Grew (emit e) :=
    fun _ he => steady_emit he
  apply keeps_builtinExit steady_base
  · exact fun _ => hemit _ fun _ _ _ => Event.noConfusion
  · exact fun code => steady_control.ends (hemit _ fun _ _ _ => Event.noConfusion) code
  · apply keeps_runExitTrap steady_base _ _ _ (steady_control.poll hdl _)
      (keeps_exitAction steady_control hdl)
    · exact fun _ _ => steady_same rfl rfl rfl rfl rfl
    · exact fun _ _ => hemit _ fun _ _ _ => Event.noConfusion
    · exact hemit _ fun _ _ _ => Event.noConfusion

/-- Along a run the stack grows by the saves of its own depth. -/
theorem steady_steps (O : Outside) : Steps O Steady Grew where
  toControl := steady_control
  raise := steady_base.seq (steady_emit fun _ _ _ => Event.noConfusion) fun _ _ =>
    steady_same rfl rfl rfl rfl rfl
  lower _ := steady_same rfl rfl rfl rfl rfl
  item s _ := steady_noted (fun _ _ _ => Event.noConfusion) s
  announce cmd := keeps_announce steady_control (fun _ => steady_noted fun _ _ _ => Event.noConfusion)
    (fun _ => steady_noted fun _ _ _ => Event.noConfusion) cmd
  external cmd := steady_base.seq (steady_base.read _) fun _ =>
    steady_emit fun _ _ _ => Event.noConfusion
  stage since i n cmd hrun := steady_fork .stage (steady_stageChild since i n hrun)
  push _ := steady_push
  slot slot action := by
    apply steady_base.seq (steady_emit fun _ _ _ => Event.noConfusion)
    intro _ s
    show Steady s _
    simp only
    split
    · exact steady_same rfl rfl rfl rfl rfl
    · split <;> exact steady_same rfl rfl rfl rfl rfl
  fork := steady_fork
  wait k status hpoll hstart :=
    keeps_waiting steady_base (fun _ _ _ => steady_same rfl rfl rfl rfl rfl) k status hpoll hstart
  call hdl _ _ _ := steady_callFn hdl
  leave hdl _ args := steady_builtinExit hdl args

theorem dispatchList_steady (O : Outside) (n : Nat) (list : PList) :
    Keeps Steady Grew (dispatchList O n list) := dispatchList_keeps (steady_steps O).closed n list

/-- The tags are right in every run; a shell starts with none. -/
theorem tagged_kept (O : Outside) (n : Nat) (list : PList) :
    Keeps (fun s s' => Tagged s → Tagged s') (fun _ _ => True) (dispatchList O n list) :=
  (dispatchList_steady O n list).imp (fun _ _ h hs => (h.2 hs).tagged hs) fun _ _ _ => trivial

/-- A child starts with the tags of its parent. -/
theorem tagged_born {child : Child} {prepare : Shell → Shell} (h : Prepares child prepare)
    {s : Shell} (hs : Tagged s) : Tagged (born child prepare s) := by
  cases h <;> exact hs

/-- `local x=1`. -/
def localBody : PList :=
  [{ kind := .pipeline ⟨[{ argv := [⟨"local".toList, .unquoted⟩, ⟨"x=1".toList, .unquoted⟩] }]⟩
     cond := .always
     background := false }]

end Petrush.Verified.Calls

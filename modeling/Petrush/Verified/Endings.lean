import Petrush.Verified.Record

/-!
# What ends the shell

An item of a list ends its process in two ways: `exit`, and `pudo`, whose `execve` has
no `fork` before it and puts the helper in the place of the shell.  Everything else,
builtins, functions, programs, substitutions and background items, returns to
`dispatch_list`, which goes on behind the item.

## Main results

* `comesBack_iff`: when an item, or a list, that does not call `exit` comes back.
* `builtinPudo_ends`: when `pudo` does not.
* `pudo_replaces`: a list that ends with `pudo`.
-/

namespace Petrush.Verified.Endings

open Petrush.Lib.CText
open Petrush.Lib.Run
open Petrush.Foundation.Process
open Petrush.Mid.Ast
open Petrush.Mid.Dispatcher
open Petrush.Mid.Expand
open Petrush.Mid.Parser
open Petrush.Mid.State
open Petrush.Verified.Record
open Petrush.Verified.Traversal

/-! ## The two notes -/

/-- `builtin_exit` begins. -/
def exits : Event → Bool
  | .exitCall _ => true
  | _ => false

/-- `execve` has replaced the process. -/
def replaces : Event → Bool
  | .replaced _ => true
  | _ => false

/-! ## Programs that account for their end -/

/-- A process that goes on has not been replaced, and one that ends has called `exit` or
has been replaced; `q` is another excuse. -/
def Accounts {α : Type} (q : Prop) (s : Shell) : Outcome Shell α → Prop
  | .ok s' _ => ¬ Own replaces s s'
  | .exit s' _ => q ∨ Own exits s s' ∨ Own replaces s s'
  | .cut s' => ¬ Own replaces s s'

structure Ends (q : Prop) {α : Type} (c : Prog Shell α) : Prop where
  grew : Keeps Stays Grew c
  accounts : ∀ s, Accounts q s (c s)

section Steps

variable {q : Prop} {α β : Type}

/-- What only adds to the record without noting a replacement. -/
theorem Ends.modify {f : Shell → Shell} (h : ∀ s, Stays s (f s))
    (hf : ∀ s, ¬ Own replaces s (f s)) : Ends q (modify f) := ⟨h, hf⟩

theorem Ends.same {f : Shell → Shell} (hlog : ∀ s, (f s).log = s.log)
    (hproc : ∀ s, (f s).proc = s.proc) (hframes : ∀ s, (f s).frames = s.frames) :
    Ends q (Lib.Run.modify f) :=
  Ends.modify (fun s => Stays.same (hlog s) (hproc s) (hframes s)) fun s => own_same (hlog s)

theorem Ends.emit {e : Event} (h : replaces e = false) : Ends q (emit e) := by
  apply Ends.modify (Stays.noted e)
  intro s hown
  rw [(own_noted e s).mp hown] at h
  contradiction

theorem Ends.seq {c : Prog Shell α} {f : α → Prog Shell β} (hc : Ends q c)
    (hf : ∀ a, Ends q (f a)) : Ends q (c >>= f) := by
  refine ⟨Keeps.bind grew_composes hc.grew fun a => (hf a).grew, fun s => ?_⟩
  have hgrew := hc.grew s
  have hacc := hc.accounts s
  rw [bind_apply, Prog.bind]
  cases hrun : c s with
  | ok t a =>
      rw [hrun] at hgrew hacc
      have hgrew' := (hf a).grew t
      have hacc' := (hf a).accounts t
      show Accounts q s (f a t)
      cases hrun' : f a t with
      | ok u b =>
          rw [hrun'] at hgrew' hacc'
          show ¬ Own replaces s u
          rw [own_trans hgrew hgrew'.toGrew, not_or]
          exact ⟨hacc, hacc'⟩
      | exit u code =>
          rw [hrun'] at hgrew' hacc'
          apply hacc'.imp_right
          apply Or.imp
          · exact fun h => (own_trans hgrew hgrew').mpr (.inr h)
          · exact fun h => (own_trans hgrew hgrew').mpr (.inr h)
      | cut u =>
          rw [hrun'] at hgrew' hacc'
          show ¬ Own replaces s u
          rw [own_trans hgrew hgrew', not_or]
          exact ⟨hacc, hacc'⟩
  | exit t code =>
      rw [hrun] at hacc
      exact hacc
  | cut t =>
      rw [hrun] at hacc
      exact hacc

theorem ends_blind : Blind fun _ => Ends q where
  ret a := ⟨Keeps.pure grew_composes a, fun _ => own_same rfl⟩
  seq := Ends.seq
  read f := ⟨Keeps.look grew_composes f, fun _ => own_same rfl⟩
  stop := ⟨Keeps.cut grew_composes, fun _ => own_same rfl⟩
  change hf := by
    apply Ends.same
    · exact fun s => congrArg Core.log (hf s)
    · exact fun s => congrArg Core.proc (hf s)
    · exact fun s => congrArg Core.frames (hf s)
  tell {e} he := by
    apply Ends.emit
    cases e <;> first | rfl | contradiction

theorem ends_base : Base fun _ => Ends q := ends_blind.base

theorem Ends.exit (hq : q) (code : Int) : Ends q (exit code : Prog Shell α) :=
  ⟨Keeps.exit grew_composes code, fun _ => .inl hq⟩

/-- What a child notes is its own. -/
theorem Ends.fork {child : Child} {prepare : Shell → Shell} {body : Prog Shell α}
    (hp : Prepares child prepare) (hb : Keeps Stays Grew body) :
    Ends q (fork child prepare body) := by
  refine ⟨grew_fork hp hb, fun s => ?_⟩
  show ¬ Own replaces s (forked child prepare body s)
  rw [own_forked hp hb]
  exact Bool.false_ne_true

theorem Ends.within (frame : Frame) {c : Prog Shell α} (hc : Ends q c) :
    Ends q (within frame c) := by
  refine ⟨grew_within frame hc.grew, fun s => ?_⟩
  have hacc := hc.accounts { s with frames := frame :: s.frames }
  show Accounts q s (Prog.bind c _ { s with frames := frame :: s.frames })
  rw [Prog.bind]
  cases hrun : c { s with frames := frame :: s.frames } with
  | ok t a =>
      rw [hrun] at hacc
      exact hacc
  | exit t code =>
      rw [hrun] at hacc
      exact hacc
  | cut t =>
      rw [hrun] at hacc
      exact hacc

theorem ends_raise : Ends q shellAbortRaise := by
  apply Ends.seq (Ends.emit rfl)
  intro _
  exact Ends.same (fun _ => rfl) (fun _ => rfl) fun _ => rfl

end Steps

/-! ## Leaving -/

section Leaving

variable {O : Outside} {dl : PList → Prog Shell (Int × PList)}

/-- `exit` ends the process; the EXIT action may be replaced. -/
theorem ends_builtinExit (hdl : ∀ l, Ends False (dl l)) (args : List Text) :
    Ends False (builtinExit O dl args) := by
  have hexcused : ∀ {α : Type} {c : Prog Shell α}, Ends False c → Ends True c := by
    intro α c hc
    refine ⟨hc.grew, fun s => ?_⟩
    have hacc := hc.accounts s
    cases hrun : c s with
    | ok t a => rwa [hrun] at hacc
    | exit t code => exact .inl trivial
    | cut t => rwa [hrun] at hacc
  have hlists : ∀ l, Ends True (dl l) := fun l => hexcused (hdl l)
  have hend : ∀ code : Int, Ends True (do
      emit (.ended code)
      exit code : Prog Shell Int) := by
    intro code
    apply Ends.seq (Ends.emit rfl)
    exact fun _ => Ends.exit trivial code
  have htrap : ∀ status, Ends True (runExitTrap O dl status) := by
    intro status
    apply keeps_runExitTrap ends_base
    · exact fun _ => Ends.same (fun _ => rfl) (fun _ => rfl) fun _ => rfl
    · exact fun _ _ => Ends.emit rfl
    · exact Ends.emit rfl
    · exact ends_base.polling hlists (Ends.within _)
    · exact fun act => Ends.within _ (keeps_runText ends_base.toFlow hlists act)
  have hleave : Ends True (builtinExit O dl args) := by
    apply keeps_builtinExit ends_base _ hend htrap
    exact fun _ => Ends.emit rfl
  refine ⟨hleave.grew, fun s => ?_⟩
  have hacc := hleave.accounts s
  have hrest : ∃ rest : Prog Shell Int, Keeps Stays Grew rest ∧
      builtinExit O dl args s = (emit (.exitCall args) >>= fun _ => rest) s := by
    refine ⟨_, ?_, rfl⟩
    split
    · exact ((htrap _).seq hend).grew
    · split
      · exact (hend 2).grew
      · exact ((htrap _).seq hend).grew
  obtain ⟨rest, hgrew, heq⟩ := hrest
  have hown : Own exits s (builtinExit O dl args s).state := by
    rw [heq]
    exact (own_trans (Stays.noted (.exitCall args) s) (grew_state hgrew _)).mpr
      (.inl ((own_noted _ s).mpr rfl))
  cases hrun : builtinExit O dl args s with
  | ok t a => rwa [hrun] at hacc
  | exit t code =>
      rw [hrun] at hown
      exact .inr (.inl hown)
  | cut t => rwa [hrun] at hacc

end Leaving

theorem ends_closed (O : Outside) : Closed O fun _ => Ends False := by
  have hbase : Base fun _ => Ends False := ends_base
  have hfds : ∀ fds : Shell → Fds, Ends False (modify fun s => { s with fds := fds s }) :=
    fun _ => Ends.same (fun _ => rfl) (fun _ => rfl) fun _ => rfl
  refine { ends_base with
    raise := ends_raise, lower := ?lower, replace := ?replace, push := ?push, slot := ?slot
    within := Ends.within, item := fun _ => Ends.emit rfl, announce := ?announce
    expand := ?expand, start := fun _ => Ends.emit rfl, external := ?external
    redirected := ?redirected, stage := ?stage, background := ?background, wait := ?wait
    call := ?call, leave := fun hdl _ args => ends_builtinExit hdl args }
  case lower => exact Ends.same (fun _ => rfl) (fun _ => rfl) fun _ => rfl
  case replace =>
    intro argv status
    refine ⟨Keeps.bind grew_composes (grew_emit _) fun _ => Keeps.exit grew_composes _, ?_⟩
    intro s
    exact .inr (.inr ((own_noted (.replaced argv) s).mpr rfl))
  case push =>
    intro name _
    apply keeps_localPush hbase.toFlow fun _ _ _ => Ends.emit rfl
    exact fun _ => Ends.same (fun _ => rfl) (fun _ => rfl) fun _ => rfl
  case slot =>
    intro slot action
    apply hbase.seq (Ends.emit rfl)
    intro _
    apply Ends.same
    all_goals
      intro s
      dsimp only
      split
      · rfl
      · split <;> rfl
  case announce =>
    intro cmd
    apply hbase.seq (Ends.emit rfl)
    intro _
    apply hbase.seq (hbase.read _)
    intro s
    exact hbase.when (Ends.emit rfl)
  case expand =>
    intro α dl hdl f
    apply keeps_checked hbase _ ends_raise
    · apply keeps_spawnSubst hbase.toFlow
      intro _ inner hp
      apply Ends.fork hp
      exact keeps_cmdsubstChild grew_base (Keeps.exit grew_composes) (fun l => (hdl l).grew) inner
    · exact fun _ => Ends.same (fun _ => rfl) (fun _ => rfl) fun _ => rfl
  case external =>
    intro path cmd
    apply keeps_externalChild hbase (fun fds => hfds fun _ => fds)
    exact keeps_execv hbase (fun _ _ => Ends.emit rfl) _ cmd
  case redirected => exact fun _ cmd hrun => keeps_runBuiltinWithRedirs hbase hfds hrun
  case stage =>
    exact fun since i n cmd hrun => Ends.fork .stage (grew_stageChild since i n hrun.grew)
  case background =>
    intro dl detach pl hrun
    apply Ends.fork (.background detach)
    exact grew_base.seq hrun.grew fun _ => Keeps.exit grew_composes _
  case wait =>
    intro dl start k status hpoll hstart
    apply keeps_waiting hbase _ k status hpoll hstart
    exact fun _ _ => Ends.same (fun _ => rfl) (fun _ => rfl) fun _ => rfl
  case call =>
    intro dl hdl name args body
    apply keeps_callFn hbase _ _ _ _ name args (Ends.within .call (hdl body))
    · exact fun _ _ => Ends.same (fun _ => rfl) (fun _ => rfl) fun _ => rfl
    · exact fun _ => Ends.same (fun _ => rfl) (fun _ => rfl) fun _ => rfl
    · exact fun _ => Ends.emit rfl
    · exact fun _ => Ends.emit rfl

/-! ## Coming back -/

/-- The process goes on, unless it has called `exit`. -/
def ComesBack {α : Type} (s : Shell) : Outcome Shell α → Prop
  | .exit s' _ => Own exits s s'
  | _ => True

/-- The helper of `pudo` takes the place of the process only when it has called `exit`. -/
def Unreplaced (s s' : Shell) : Prop := Own replaces s s' → Own exits s s'

instance (s s' : Shell) : Decidable (Unreplaced s s') :=
  inferInstanceAs (Decidable (Own replaces s s' → Own exits s s'))

theorem Ends.comesBack {α : Type} {c : Prog Shell α} (hc : Ends False c) (s : Shell) :
    ComesBack s (c s) ↔ Unreplaced s (c s).state := by
  have hacc := hc.accounts s
  cases hrun : c s with
  | ok t a =>
      rw [hrun] at hacc
      exact iff_of_true trivial fun hrep => absurd hrep hacc
  | exit t code =>
      rw [hrun] at hacc
      constructor
      · exact fun hexit _ => hexit
      · exact fun h => (hacc.resolve_left id).elim id h
  | cut t =>
      rw [hrun] at hacc
      exact iff_of_true trivial fun hrep => absurd hrep hacc

/-- What `dispatch_list` does behind an item. -/
def behind (O : Outside) (dl : PList → Prog Shell (Int × PList)) (turns : Nat) (items : List Item)
    (r : Int × Item) : Prog Shell (Int × List Item) := do
  setLastStatus r.1
  emit (.item r.1)
  let s ← look id
  if s.returning then pure (s.returnStatus, r.2 :: items)
  else do
    maybeErrexit items r.1
    let s ← look id
    if s.shellAbort then pure (r.1, r.2 :: items)
    else do
      trapsPoll O dl (if items.isEmpty then .after else .between)
      let rest ← dispatchItems O dl turns r.1 false items
      pure (rest.1, r.2 :: rest.2)

/-- An item that returns is followed by the next one, which its connector decides on. -/
theorem dispatchItems_behind {O : Outside} {dl : PList → Prog Shell (Int × PList)} {turns : Nat}
    {it : Item} {s t : Shell} {r : Int × Item} (hrun : dispatchItem O dl turns it s = .ok t r)
    (status : Int) (first : Bool) (items : List Item)
    (hgo : (!first && shortCircuit it.cond status) = false) :
    dispatchItems O dl turns status first (it :: items) s = behind O dl turns items r t := by
  show (if (!first && shortCircuit it.cond status) = true then _
    else dispatchItem O dl turns it >>= behind O dl turns items : Prog Shell _) s = _
  rw [hgo]
  show Prog.bind _ _ s = _
  rw [Prog.bind, hrun]

/-- **An item, and a list, comes back exactly when the shell is not replaced**; behind an
item that comes back the list goes on. -/
theorem comesBack_iff (O : Outside) (n turns : Nat) (it : Item) (s : Shell) :
    (ComesBack s (dispatchItem O (dispatchList O n) turns it s) ↔
      Unreplaced s (dispatchItem O (dispatchList O n) turns it s).state) ∧
    (∀ list, ComesBack s (dispatchList O n list s) ↔
      Unreplaced s (dispatchList O n list s).state) ∧
    ∀ t r, dispatchItem O (dispatchList O n) turns it s = .ok t r → ∀ status first items,
      (!first && shortCircuit it.cond status) = false →
        dispatchItems O (dispatchList O n) turns status first (it :: items) s =
          behind O (dispatchList O n) turns items r t := by
  have hlists := dispatchList_keeps (ends_closed O) n
  refine ⟨?_, fun list => (hlists list).comesBack s, fun t r => dispatchItems_behind⟩
  exact (keeps_dispatchItem (ends_closed O) hlists turns it).comesBack s

/-! ## `pudo` -/

/-- The target is allowed, the helper is found, the words fit, and `execve` succeeds. -/
def Handed (pudo : Pudo) (args : List Text) : Prop :=
  ∃ target rest, args = target :: rest ∧
    ¬ (target = "--help".toList ∨ target = "-h".toList) ∧
    (∃ allowed, pudo.config = some allowed ∧ ¬ (allowed ≠ [] ∧ target ∉ allowed)) ∧
    pudo.helper.isSome ∧ pudoHelperArgvFits (rest.length + 2) = true ∧ pudo.status.isSome

theorem runViaPudod_ends (pudo : Pudo) (target : Text) (args : List Text) (s : Shell) :
    (∃ s' code, runViaPudod pudo target args s = .exit s' code) ↔
      pudo.helper.isSome ∧ pudoHelperArgvFits (args.length + 2) = true ∧ pudo.status.isSome := by
  unfold runViaPudod
  cases hhelper : pudo.helper with
  | none => simp [pure_apply]
  | some pudod =>
      by_cases hfits : pudoHelperArgvFits (args.length + 2) = true
      · cases hstatus : pudo.status with
        | none => simp [hfits, pure_apply]
        | some status =>
            refine iff_of_true ⟨noted (.replaced (pudod :: pudo.resolve target :: args)) s, status, ?_⟩
              ⟨rfl, hfits, rfl⟩
            simp only [hfits, Bool.not_true, Bool.false_eq_true, if_false]
            rfl
      · simp [hfits, pure_apply]

/-- **`pudo` does not come back when it reaches its helper.** -/
theorem builtinPudo_ends (O : Outside) (args : List Text) (s : Shell) :
    (∃ s' code, builtinPudo O args s = .exit s' code) ↔ Handed (O.pudo s.log s.ctx.env) args := by
  unfold Handed
  cases args with
  | nil =>
      simp only [builtinPudo, bind_apply, Prog.bind, look]
      simp [pure_apply]
  | cons target rest =>
      cases hconfig : (O.pudo s.log s.ctx.env).config with
      | none =>
          simp only [builtinPudo, bind_apply, Prog.bind, look, id, hconfig]
          simp [pure_apply]
      | some allowed =>
          simp only [builtinPudo, bind_apply, Prog.bind, look, id, hconfig]
          by_cases hhelp : target = "--help".toList ∨ target = "-h".toList
          · simp only [if_pos hhelp, pure_apply]
            apply iff_of_false (by simp)
            rintro ⟨_, _, heq, hnot, _⟩
            rw [← (List.cons.inj heq).1] at hnot
            exact hnot hhelp
          · by_cases hdenied : allowed ≠ [] ∧ target ∉ allowed
            · have hcheck : allowed ≠ [] ∧ (!allowed.contains target) = true := by simpa using hdenied
              simp only [if_neg hhelp, if_pos hcheck, pure_apply]
              simp [hdenied]
            · have hcheck : ¬ (allowed ≠ [] ∧ (!allowed.contains target) = true) := by
                simpa using hdenied
              simp only [if_neg hhelp, if_neg hcheck]
              rw [runViaPudod_ends]
              constructor
              · exact fun h => ⟨target, rest, rfl, hhelp, ⟨allowed, rfl, hdenied⟩, h⟩
              · rintro ⟨_, _, heq, _, _, h⟩
                rw [(List.cons.inj heq).2]
                exact h

/-- An outside with a helper. -/
def helped : Outside :=
  { Outside.quiet with pudo := fun _ _ => ⟨some [], some "/pudod".toList, id, some 0⟩ }

/-- A shell that has just started. -/
def fresh : Shell := Shell.start ⟨fun _ => none, [], [], false, false, false, 0⟩ fun _ => .dfl

/-- **The shell does not come back from `pudo`**: the list is `pudo ls; true`. -/
theorem pudo_replaces :
    ∃ list, petrushParseList "pudo ls; true".toList = some list ∧
      ¬ ComesBack fresh (dispatchList helped 2 list fresh) := by
  refine ⟨_, rfl, ?_⟩
  rw [(dispatchList_keeps (ends_closed helped) 2 _).comesBack]
  decide +kernel

end Petrush.Verified.Endings

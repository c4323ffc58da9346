import Petrush.Verified.Invariants

/-!
# `set` and `trap` that fail

Both take a list and apply it from the left, so that what stands before an invalid
entry has taken effect when the command fails.  Which lists leave no trace is said by
the last value each flag, or each slot, gets before the invalid entry.

## Main results

* `set_atomic_iff`, `trap_atomic_iff`: when a failing command changes nothing.
-/

namespace Petrush.Verified.Atomic

open Petrush.Lib.CText
open Petrush.Lib.Run
open Petrush.Mid.Dispatcher
open Petrush.Mid.Expand
open Petrush.Mid.State
open Petrush.Mid.Trap
open Petrush.Verified.Invariants

/-! ## `trap` -/

/-- A condition that `trap` takes. -/
def isCond (cond : Text) : Bool := (trapResolveCond cond).isOk

/-- The slots that conditions name. -/
def slots (conds : List Text) : List Nat := conds.filterMap fun cond => (trapResolveCond cond).toOption

/-- The slots named before the first condition that is invalid. -/
def slotsBefore (conds : List Text) : List Nat := slots (conds.takeWhile isCond)

/-- What the loop has changed when it ends. -/
structure Applied (action : Option Text) (named : List Nat) (s s' : Shell) : Prop where
  traps : ∀ sig, s'.traps sig = if sig ∈ named then action else s.traps sig
  disps : ∀ sig, s'.disps sig = if sig ∈ named ∧ sig ≠ 0 then dispOf action else s.disps sig

section Loop

variable (action : Option Text)

theorem slotsBefore_cons_ok {cond : Text} {slot : Nat} (h : trapResolveCond cond = .ok slot)
    (conds : List Text) : slotsBefore (cond :: conds) = slot :: slotsBefore conds := by
  simp [slotsBefore, slots, isCond, h, Except.isOk, Except.toBool, Except.toOption]

theorem slotsBefore_cons_error {cond : Text} {err : TrapErr} (h : trapResolveCond cond = .error err)
    (conds : List Text) : slotsBefore (cond :: conds) = [] := by
  simp [slotsBefore, slots, isCond, h, Except.isOk, Except.toBool]

theorem slotSet_applied (slot : Nat) (s : Shell) :
    trapSetSlot slot action s = .ok (slotSet slot action s) () ∧
      Applied action [slot] s (slotSet slot action s) := by
  obtain ⟨-, -, -, -, -, -, -, htraps, hdisps⟩ := slotSet_spec slot action s
  refine ⟨rfl, fun sig => ?_, fun sig => ?_⟩
  · simp [htraps, update]
  · rw [hdisps]
    by_cases hzero : slot = 0
    · by_cases hsig : sig = slot <;> simp [hzero, hsig]
    · by_cases hsig : sig = slot <;> simp [update, hzero, hsig]

theorem Applied.trans {named named' : List Nat} {s s' s'' : Shell} (h : Applied action named s s')
    (h' : Applied action named' s' s'') : Applied action (named ++ named') s s'' := by
  refine ⟨fun sig => ?_, fun sig => ?_⟩
  · rw [h'.traps, h.traps]
    by_cases hnew : sig ∈ named' <;> simp [hnew]
  · rw [h'.disps, h.disps]
    by_cases hnew : sig ∈ named' <;> by_cases hzero : sig = 0 <;> simp [hnew, hzero]

/-- An error aborts the script, and no more. -/
theorem abort_applied (rc : Int) (s : Shell) :
    ∃ s', (do shellAbortRaise; pure rc : Prog Shell Int) s = .ok s' rc ∧ Applied action [] s s' :=
  ⟨_, rfl, fun _ => rfl, fun _ => rfl⟩

/-- **The loop over the conditions** changes the slots before the first invalid one. -/
theorem trapConditions_ends (conds : List Text) (s : Shell) :
    ∃ s', trapConditions action conds s = .ok s' (if conds.all isCond then 0 else 1) ∧
      Applied action (slotsBefore conds) s s' := by
  induction conds generalizing s with
  | nil => exact ⟨s, rfl, fun sig => by simp [slotsBefore, slots], fun sig => by simp [slotsBefore, slots]⟩
  | cons cond conds ih =>
      cases hcond : trapResolveCond cond with
      | error err =>
          obtain ⟨s', habort, happlied⟩ := abort_applied action 1 s
          refine ⟨s', ?_, ?_⟩
          · have hno : isCond cond = false := by simp [isCond, hcond, Except.isOk, Except.toBool]
            simp only [trapConditions, hcond, List.all_cons, hno, Bool.false_and]
            exact habort
          · rw [slotsBefore_cons_error hcond]
            exact happlied
      | ok slot =>
          obtain ⟨hset, happlied⟩ := slotSet_applied action slot s
          obtain ⟨s', hrest, happlied'⟩ := ih (slotSet slot action s)
          refine ⟨s', ?_, ?_⟩
          · have hyes : isCond cond = true := by simp [isCond, hcond, Except.isOk, Except.toBool]
            simp only [trapConditions, hcond, List.all_cons, hyes, Bool.true_and, bind_apply,
              Prog.bind, hset]
            exact hrest
          · rw [slotsBefore_cons_ok hcond]
            exact happlied.trans action happlied'

end Loop

/-- What a run of `trap` should do: a failure leaves the table and the dispositions as
they are; a success, all slots that were named, and only those, with the action. -/
structure TrapAtomic (args : List Text) (s s' : Shell) (rc : Int) : Prop where
  failure : rc ≠ 0 → s'.traps = s.traps ∧ s'.disps = s.disps
  success : rc = 0 → ∀ action conds, trapArgs args = .set action conds →
    (∀ cond ∈ conds, ∃ slot, trapResolveCond cond = .ok slot ∧ s'.traps slot = action) ∧
      ∀ sig, (∀ cond ∈ conds, trapResolveCond cond ≠ .ok sig) → s'.traps sig = s.traps sig

/-- The slots named before an invalid condition have the action, and the disposition that
goes with it, already. -/
def TrapCalm (args : List Text) (s : Shell) : Prop :=
  ∀ action conds, trapArgs args = .set action conds → conds.all isCond = false →
    ∀ slot ∈ slotsBefore conds, s.traps slot = action ∧ (slot ≠ 0 → s.disps slot = dispOf action)

theorem takeWhile_all {conds : List Text} (h : conds.all isCond = true) :
    slotsBefore conds = slots conds := by
  rw [slotsBefore, List.takeWhile_eq_self_iff.mpr (by simpa using h)]

theorem mem_slots {conds : List Text} {sig : Nat} :
    sig ∈ slots conds ↔ ∃ cond ∈ conds, trapResolveCond cond = .ok sig := by
  simp only [slots, List.mem_filterMap]
  constructor
  · rintro ⟨cond, hcond, hok⟩
    refine ⟨cond, hcond, ?_⟩
    cases hres : trapResolveCond cond with
    | error err => simp [hres, Except.toOption] at hok
    | ok slot => simpa [hres, Except.toOption] using hok
  · rintro ⟨cond, hcond, hok⟩
    exact ⟨cond, hcond, by rw [hok]; rfl⟩

/-- A run that changes no slot is as it should be, unless it should have. -/
theorem Applied.atomic {args : List Text} {s s' : Shell} {rc : Int} (h : Applied none [] s s')
    (hargs : ∀ action conds, trapArgs args ≠ .set action conds) : TrapAtomic args s s' rc where
  failure _ := ⟨funext fun sig => by simpa using h.traps sig, funext fun sig => by simpa using h.disps sig⟩
  success _ action conds hset := absurd hset (hargs action conds)

/-- Such a run is calm as well. -/
theorem trapCalm_of_ne {args : List Text} {s : Shell}
    (hargs : ∀ action conds, trapArgs args ≠ .set action conds) : TrapCalm args s :=
  fun action conds hset => absurd hset (hargs action conds)

/-- Conditions that are all valid name all slots that are set. -/
theorem Applied.success {args : List Text} {action : Option Text} {conds : List Text} {s s' : Shell}
    (h : Applied action (slotsBefore conds) s s') (hargs : trapArgs args = .set action conds)
    (hall : conds.all isCond = true) : TrapAtomic args s s' 0 where
  failure hrc := absurd rfl hrc
  success _ action' conds' hset := by
    obtain ⟨rfl, rfl⟩ := TrapCall.set.inj (hargs.symm.trans hset)
    rw [takeWhile_all hall] at h
    refine ⟨fun cond hcond => ?_, fun sig hsig => ?_⟩
    · cases hres : trapResolveCond cond with
      | error err =>
          have hcond' := List.all_eq_true.mp hall cond hcond
          simp [isCond, hres, Except.isOk, Except.toBool] at hcond'
      | ok slot => exact ⟨slot, rfl, by rw [h.traps, if_pos (mem_slots.mpr ⟨cond, hcond, hres⟩)]⟩
    · rw [h.traps, if_neg]
      intro hmem
      obtain ⟨cond, hcond, hres⟩ := mem_slots.mp hmem
      exact hsig cond hcond hres

/-- The slots before an invalid condition are as they were when each had the action. -/
theorem Applied.failure_iff {action : Option Text} {named : List Nat} {s s' : Shell}
    (h : Applied action named s s') : (s'.traps = s.traps ∧ s'.disps = s.disps) ↔
      ∀ slot ∈ named, s.traps slot = action ∧ (slot ≠ 0 → s.disps slot = dispOf action) := by
  constructor
  · rintro ⟨htraps, hdisps⟩ slot hslot
    refine ⟨?_, fun hne => ?_⟩
    · rw [← htraps, h.traps, if_pos hslot]
    · rw [← hdisps, h.disps, if_pos ⟨hslot, hne⟩]
  · intro hcalm
    refine ⟨funext fun sig => ?_, funext fun sig => ?_⟩
    · rw [h.traps]
      split
      · next hsig => exact (hcalm sig hsig).1.symm
      · rfl
    · rw [h.disps]
      split
      · next hsig => exact ((hcalm sig hsig.1).2 hsig.2).symm
      · rfl

/-- **When a failing `trap` changes nothing**: it always ends, and a success is as it
should be. -/
theorem trap_atomic_iff (args : List Text) (s : Shell) :
    (∃ s' rc, builtinTrap args s = .ok s' rc ∧ TrapAtomic args s s' rc) ↔ TrapCalm args s := by
  unfold builtinTrap
  cases hargs : trapArgs args with
  | dump =>
      have hne : ∀ action conds, trapArgs args ≠ .set action conds := by simp [hargs]
      exact iff_of_true ⟨s, 0, rfl, Applied.atomic ⟨fun _ => rfl, fun _ => rfl⟩ hne⟩
        (trapCalm_of_ne hne)
  | usage =>
      have hne : ∀ action conds, trapArgs args ≠ .set action conds := by simp [hargs]
      obtain ⟨s', hs', happlied⟩ := abort_applied none 1 s
      exact iff_of_true ⟨s', 1, hs', happlied.atomic hne⟩ (trapCalm_of_ne hne)
  | badOption =>
      have hne : ∀ action conds, trapArgs args ≠ .set action conds := by simp [hargs]
      obtain ⟨s', hs', happlied⟩ := abort_applied none 1 s
      exact iff_of_true ⟨s', 1, hs', happlied.atomic hne⟩ (trapCalm_of_ne hne)
  | set action conds =>
      obtain ⟨s', hs', happlied⟩ := trapConditions_ends action conds s
      simp only [hs', Outcome.ok.injEq]
      cases hall : conds.all isCond with
      | true =>
          refine iff_of_true ⟨s', 0, by simp, happlied.success hargs hall⟩ ?_
          intro action' conds' hset hno
          obtain ⟨rfl, rfl⟩ := TrapCall.set.inj (hargs.symm.trans hset)
          simp [hall] at hno
      | false =>
          constructor
          · rintro ⟨t, rc, ⟨rfl, rfl⟩, hatomic⟩ action' conds' hset -
            obtain ⟨rfl, rfl⟩ := TrapCall.set.inj (hargs.symm.trans hset)
            exact happlied.failure_iff.mp (hatomic.failure (by simp))
          · intro hcalm
            refine ⟨s', 1, by simp, fun _ => ?_, fun hrc => by simp at hrc⟩
            exact happlied.failure_iff.mpr (hcalm action conds hargs hall)

/-- `trap 'echo x' INT BOGUS` fails behind a change of the slot of INT. -/
theorem trap_half_applied :
    ¬ ∀ (args : List Text) (s : Shell),
      ∃ s' rc, builtinTrap args s = .ok s' rc ∧ TrapAtomic args s s' rc := by
  intro h
  obtain ⟨s', rc, hs', hatomic⟩ := h ["echo x".toList, "INT".toList, "BOGUS".toList]
    (Shell.start { env := fun _ => none } fun _ => .dfl)
  obtain ⟨t, ht, happlied⟩ := trapConditions_ends (some "echo x".toList)
    ["INT".toList, "BOGUS".toList] (Shell.start { env := fun _ => none } fun _ => .dfl)
  obtain ⟨rfl, rfl⟩ := Outcome.ok.inj (hs'.symm.trans ht)
  have hint := (happlied.failure_iff.mp (hatomic.failure (by decide)) 2 (by decide)).1
  simp [Shell.start] at hint

/-! ## `set` -/

/-- The options that `set` knows. -/
inductive Flag where
  | errexit
  | nounset
  | xtrace
  deriving Repr, DecidableEq

/-- The value of an option. -/
def Flag.of (ctx : Ctx) : Flag → Bool
  | .errexit => ctx.optE
  | .nounset => ctx.optU
  | .xtrace => ctx.optX

/-- One setting of an option argument: a letter or the name behind `-o`, which may be
missing, and whether it stands behind `-`. -/
inductive Setting where
  | letter (c : Char) (on : Bool)
  | name (name : Text) (on : Bool)
  | missing
  deriving Repr, DecidableEq

/-- The option that a letter or a name stands for; noclobber, which is always on, is none. -/
def Setting.flag : Setting → Option Flag
  | .letter c _ =>
      if c = 'e' then some .errexit else if c = 'u' then some .nounset
      else if c = 'x' then some .xtrace else none
  | .name n _ =>
      if n = "errexit".toList then some .errexit else if n = "nounset".toList then some .nounset
      else if n = "xtrace".toList then some .xtrace else none
  | .missing => none

/-- What the setting gives its option. -/
def Setting.on : Setting → Bool
  | .letter _ on | .name _ on => on
  | .missing => false

/-- The setting is noclobber's. -/
def Setting.isNoclobber : Setting → Bool
  | .letter c _ => c == 'C'
  | .name n _ => n == "noclobber".toList
  | .missing => false

/-- The setting is one that `set` takes. -/
def Setting.isValid (g : Setting) : Bool := g.flag.isSome || (g.isNoclobber && g.on)

/-- The arguments of `set`: the settings in their order, and the operands, if these are to
replace the positionals. -/
def setArgs : List Text → List Setting × Option (List Text)
  | [] => ([], none)
  | arg :: args =>
      let on := arg.head? == some '-'
      if arg = "--".toList then ([], some args)
      else if (on || arg.head? == some '+') ∧ arg.length ≥ 2 then
        if arg.tail = ['o'] then
          match args with
          | [] => ([.missing], none)
          | name :: args =>
              let r := setArgs args
              (.name name on :: r.1, r.2)
        else
          let r := setArgs args
          (arg.tail.map (.letter · on) ++ r.1, r.2)
      else ([], some (arg :: args))

/-- The last value that settings give an option. -/
def lastValue (flag : Flag) (settings : List Setting) : Option Bool :=
  (settings.reverse.find? fun g => g.flag == some flag).map Setting.on

/-- The settings before the first that is invalid. -/
def validSettings (args : List Text) : List Setting := (setArgs args).1.takeWhile Setting.isValid

/-- One setting. -/
def Setting.apply (ctx : Ctx) (g : Setting) : Ctx :=
  match g.flag with
  | some .errexit => { ctx with optE := g.on }
  | some .nounset => { ctx with optU := g.on }
  | some .xtrace => { ctx with optX := g.on }
  | none => ctx

theorem Setting.flag_apply (ctx : Ctx) (g : Setting) (flag : Flag) :
    flag.of (g.apply ctx) = if g.flag = some flag then g.on else flag.of ctx := by
  unfold Setting.apply
  cases hflag : g.flag with
  | none => simp
  | some other => cases other <;> cases flag <;> simp [Flag.of]

/-- **Settings one after another**: each option has the last value it is given. -/
theorem flag_foldl (flag : Flag) (settings : List Setting) (ctx : Ctx) :
    flag.of (settings.foldl Setting.apply ctx) = (lastValue flag settings).getD (flag.of ctx) := by
  induction settings using List.reverseRecOn with
  | nil => rfl
  | append_singleton settings g ih =>
      rw [List.foldl_concat, Setting.flag_apply, lastValue, List.reverse_concat, List.find?_cons]
      by_cases hflag : g.flag = some flag
      · simp [hflag]
      · have hne : (g.flag == some flag) = false := beq_eq_false_iff_ne.mpr hflag
        rw [if_neg hflag, ih, lastValue, hne]

theorem args_apply (ctx : Ctx) (g : Setting) : (g.apply ctx).args = ctx.args := by
  unfold Setting.apply
  split <;> rfl

theorem args_foldl (settings : List Setting) (ctx : Ctx) :
    (settings.foldl Setting.apply ctx).args = ctx.args := by
  induction settings generalizing ctx with
  | nil => rfl
  | cons g settings ih => rw [List.foldl_cons, ih, args_apply]

/-- `set_apply_letter` is a setting. -/
theorem setApplyLetter_eq (ctx : Ctx) (c : Char) (on : Bool) :
    setApplyLetter ctx c on =
      if (Setting.letter c on).isValid then some ((Setting.letter c on).apply ctx) else none := by
  unfold setApplyLetter Setting.isValid Setting.apply Setting.flag Setting.isNoclobber Setting.on
  by_cases hx : c = 'x'
  · simp [hx]
  by_cases hu : c = 'u'
  · simp [hu]
  by_cases he : c = 'e'
  · simp [he]
  simp [hx, hu, he]

theorem setApplyOName_eq (ctx : Ctx) (n : Text) (on : Bool) :
    setApplyOName ctx n on =
      if (Setting.name n on).isValid then some ((Setting.name n on).apply ctx) else none := by
  by_cases hx : n = "xtrace".toList
  · rw [hx]
    rfl
  by_cases hu : n = "nounset".toList
  · rw [hu]
    rfl
  by_cases he : n = "errexit".toList
  · rw [he]
    rfl
  have hflag : (Setting.name n on).flag = none := by
    rw [Setting.flag, if_neg he, if_neg hu, if_neg hx]
  rw [setApplyOName, if_neg hx, if_neg hu, if_neg he, Setting.isValid, Setting.apply, hflag]
  simp only [Setting.isNoclobber, Setting.on, Option.isSome_none, Bool.false_or, Bool.and_eq_true,
    beq_iff_eq]

/-- A cluster of letters. -/
theorem setApplyLetters_eq (on : Bool) (ctx : Ctx) (letters : Text) :
    setApplyLetters on ctx letters =
      (((letters.map (Setting.letter · on)).takeWhile Setting.isValid).foldl Setting.apply ctx,
        (letters.map (Setting.letter · on)).all Setting.isValid) := by
  induction letters generalizing ctx with
  | nil => rfl
  | cons c letters ih =>
      rw [setApplyLetters, setApplyLetter_eq]
      cases hvalid : (Setting.letter c on).isValid with
      | false => simp [hvalid]
      | true => simp [hvalid, ih]

section Args

variable {arg : Text} (hend : ¬ arg = "--".toList)
  (hopt : ((arg.head? == some '-') || (arg.head? == some '+')) = true ∧ arg.length ≥ 2)

include hend hopt

theorem setArgs_missing (ho : arg.tail = ['o']) : setArgs [arg] = ([.missing], none) := by
  rw [setArgs, if_neg hend, if_pos hopt, if_pos ho]

theorem setArgs_name (ho : arg.tail = ['o']) (name : Text) (args : List Text) :
    setArgs (arg :: name :: args) =
      (.name name (arg.head? == some '-') :: (setArgs args).1, (setArgs args).2) := by
  rw [setArgs, if_neg hend, if_pos hopt, if_pos ho]

theorem setArgs_letters (ho : ¬ arg.tail = ['o']) (args : List Text) :
    setArgs (arg :: args) =
      (arg.tail.map (.letter · (arg.head? == some '-')) ++ (setArgs args).1, (setArgs args).2) := by
  rw [setArgs.eq_def]
  dsimp only
  rw [if_neg hend, if_pos hopt, if_neg ho]

end Args

theorem setArgs_operands {arg : Text} (hend : ¬ arg = "--".toList)
    (hopt : ¬ (((arg.head? == some '-') || (arg.head? == some '+')) = true ∧ arg.length ≥ 2))
    (args : List Text) : setArgs (arg :: args) = ([], some (arg :: args)) := by
  rw [setArgs.eq_def]
  dsimp only
  rw [if_neg hend, if_neg hopt]

theorem takeWhile_append_all {settings : List Setting} (h : settings.all Setting.isValid = true)
    (rest : List Setting) : (settings ++ rest).takeWhile Setting.isValid =
      settings ++ rest.takeWhile Setting.isValid :=
  List.takeWhile_append_of_pos (by simpa using h)

theorem takeWhile_append_not {settings : List Setting} (h : settings.all Setting.isValid = false)
    (rest : List Setting) : (settings ++ rest).takeWhile Setting.isValid =
      settings.takeWhile Setting.isValid := by
  induction settings with
  | nil => simp at h
  | cons g settings ih =>
      cases hvalid : g.isValid with
      | false => simp [hvalid]
      | true =>
          rw [List.cons_append, List.takeWhile_cons_of_pos hvalid, List.takeWhile_cons_of_pos hvalid,
            ih (by simpa [hvalid] using h)]

/-- **The loop of `set`** applies the settings before the first invalid one. -/
theorem setOptions_eq (ctx : Ctx) (args : List Text) :
    setOptions ctx args =
      ((validSettings args).foldl Setting.apply ctx, (setArgs args).1.all Setting.isValid,
        if (setArgs args).1.all Setting.isValid then (setArgs args).2 else none) := by
  unfold validSettings
  fun_induction setOptions ctx args with
  | case1 ctx => rfl
  | case2 ctx args =>
      rw [setArgs.eq_def]
      rfl
  | case3 ctx arg on hend hopt ho =>
      rw [setArgs_missing hend hopt ho]
      rfl
  | case4 ctx arg on hend hopt ho name args hname =>
      have hbad : (Setting.name name (arg.head? == some '-')).isValid = false := by
        simpa [setApplyOName_eq, on] using hname
      rw [setArgs_name hend hopt ho]
      simp [hbad]
  | case5 ctx arg on hend hopt ho name args ctx' hname ih =>
      rw [setApplyOName_eq] at hname
      cases hvalid : (Setting.name name on).isValid with
      | false => simp [hvalid] at hname
      | true =>
          have hctx : (Setting.name name on).apply ctx = ctx' := by simpa [hvalid] using hname
          rw [setArgs_name hend hopt ho, ih, ← hctx]
          dsimp only
          rw [List.takeWhile_cons_of_pos hvalid, List.all_cons, hvalid, Bool.true_and, List.foldl_cons]
  | case6 ctx arg args on hend hopt ho ctx' hletters =>
      rw [setApplyLetters_eq] at hletters
      obtain ⟨hctx, hbad⟩ := Prod.mk.inj hletters
      rw [setArgs_letters hend hopt ho, takeWhile_append_not hbad, hctx, List.all_append, hbad]
      rfl
  | case7 ctx arg args on hend hopt ho ctx' hletters ih =>
      rw [setApplyLetters_eq] at hletters
      obtain ⟨hctx, hall⟩ := Prod.mk.inj hletters
      have hkeep := List.takeWhile_eq_self_iff.mpr (List.all_eq_true.mp hall)
      rw [hkeep] at hctx
      rw [setArgs_letters hend hopt ho, takeWhile_append_all hall, ih, List.foldl_append, hctx,
        List.all_append, hall, Bool.true_and]
  | case8 ctx arg args on hend hopt =>
      rw [setArgs_operands hend hopt]
      rfl

/-- What a run of `set` should do: a failure leaves the options and the positionals as they
are; a success gives each option the last value that the arguments give it, and the
operands, if there are any, to the positionals. -/
structure SetAtomic (args : List Text) (ctx ctx' : Ctx) (rc : Int) : Prop where
  failure : rc ≠ 0 → (∀ flag : Flag, flag.of ctx' = flag.of ctx) ∧ ctx'.args = ctx.args
  success : rc = 0 → (∀ g ∈ (setArgs args).1, g.isValid = true) ∧
    (∀ flag : Flag, flag.of ctx' = (lastValue flag (setArgs args).1).getD (flag.of ctx)) ∧
    ctx'.args = (setArgs args).2.getD ctx.args

/-- If a setting is invalid, those before it give each option, at last, the value it has. -/
def SetCalm (args : List Text) (ctx : Ctx) : Prop :=
  (setArgs args).1.all Setting.isValid = false →
    ∀ (flag : Flag) (v : Bool), lastValue flag (validSettings args) = some v → flag.of ctx = v

theorem builtinSet_ends (args : List Text) (s : Shell) :
    ∃ s', builtinSet args s = .ok s' (if (setArgs args).1.all Setting.isValid then 0 else 1) ∧
      (∀ flag : Flag, flag.of s'.ctx =
        (lastValue flag (validSettings args)).getD (flag.of s.ctx)) ∧
      s'.ctx.args =
        if (setArgs args).1.all Setting.isValid then (setArgs args).2.getD s.ctx.args
        else s.ctx.args := by
  have hoptions := setOptions_eq s.ctx args
  have hflags (flag : Flag) (args' : List Text) (ctx : Ctx) :
      flag.of { ctx with args := args' } = flag.of ctx := by cases flag <;> rfl
  simp only [builtinSet, look, bind, Prog.bind, id, hoptions, Lib.Run.modify]
  cases hall : (setArgs args).1.all Setting.isValid with
  | true =>
      refine ⟨_, rfl, fun flag => ?_, ?_⟩
      · rw [hflags, flag_foldl]
      · simp only [if_true, args_foldl]
  | false =>
      refine ⟨_, rfl, fun flag => ?_, ?_⟩
      · exact (hflags flag _ _).trans (flag_foldl flag _ _)
      · exact args_foldl _ _

/-- **When a failing `set` changes nothing**: it always ends, and a success is as it should
be. -/
theorem set_atomic_iff (args : List Text) (s : Shell) :
    (∃ s' rc, builtinSet args s = .ok s' rc ∧ SetAtomic args s.ctx s'.ctx rc) ↔
      SetCalm args s.ctx := by
  obtain ⟨s', hs', hflags, hargs⟩ := builtinSet_ends args s
  simp only [hs', Outcome.ok.injEq]
  cases hall : (setArgs args).1.all Setting.isValid with
  | true =>
      have hvalid := List.all_eq_true.mp hall
      refine iff_of_true ⟨s', 0, by simp, fun hrc => absurd rfl hrc, fun _ => ⟨hvalid, ?_, ?_⟩⟩ ?_
      · rw [validSettings, List.takeWhile_eq_self_iff.mpr hvalid] at hflags
        exact hflags
      · rw [hargs, if_pos hall]
      · intro hno
        simp [hall] at hno
  | false =>
      rw [hall] at hargs
      constructor
      · rintro ⟨t, rc, ⟨rfl, rfl⟩, hatomic⟩ - flag v hv
        rw [← (hatomic.failure (by simp)).1 flag, hflags, hv]
        rfl
      · intro hcalm
        refine ⟨s', 1, by simp, fun _ => ⟨fun flag => ?_, hargs⟩, fun hrc => by simp at hrc⟩
        rw [hflags]
        cases hlast : lastValue flag (validSettings args) with
        | none => rfl
        | some v => exact (hcalm hall flag v hlast).symm

/-- `set -xz` fails behind a change of xtrace. -/
theorem set_half_applied :
    ¬ ∀ (args : List Text) (s : Shell),
      ∃ s' rc, builtinSet args s = .ok s' rc ∧ SetAtomic args s.ctx s'.ctx rc := by
  intro h
  obtain ⟨s', rc, hs', hatomic⟩ := h ["-xz".toList] (Shell.start { env := fun _ => none } fun _ => .dfl)
  obtain ⟨t, ht, hflags, -⟩ := builtinSet_ends ["-xz".toList]
    (Shell.start { env := fun _ => none } fun _ => .dfl)
  obtain ⟨rfl, rfl⟩ := Outcome.ok.inj (hs'.symm.trans ht)
  have hx := (hatomic.failure (by decide)).1 .xtrace
  rw [hflags] at hx
  revert hx
  decide

end Petrush.Verified.Atomic

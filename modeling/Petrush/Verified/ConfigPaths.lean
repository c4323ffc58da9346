import Petrush.Foundation.XdgPaths

/-!
# Whether a resolved path is complete

Both paths are printed into buffers of `PATH_MAX` bytes, and what does not fit is cut
before it is looked for and copied.  Cut, a path is another path.

## Main results

* `copyOut_complete_iff`: the condition, for any two texts.
* `resolved_complete_iff`: the condition for the configuration and for the history.
* `condition_of_short`: texts shorter than `PATH_MAX` are safe.
-/

namespace Petrush.Verified.ConfigPaths

open Petrush.Foundation
open Petrush.Foundation.Process
open Petrush.Foundation.XdgPaths
open Petrush.Lib.CText

/-- The buffer has room for the path and its NUL. -/
def Room (buf : Option Nat) (path : Text) : Prop := ∃ buflen, buf = some buflen ∧ path.length < buflen

/-- A success gives the selected path, and a selected path without room is refused. -/
structure Complete (buf : Option Nat) (selected : Text) (result : Except Errno Text) : Prop where
  whole : ∀ path, result = .ok path → path = selected
  refused : ¬ Room buf selected → ∃ e, result = .error e

/-- A text as it stands in a buffer of `PATH_MAX` bytes. -/
def cut (text : Text) : Text := snprintf pathMax text

/-- There is no room even for what is left of the path that is taken; or the selected path
is shorter than `PATH_MAX`, and it is the one that is taken. -/
def Condition (access : Text → Bool) (buf : Option Nat) (xdg legacy : Text) : Prop :=
  (¬ Room buf (if legacyAlone access (cut xdg) (cut legacy) then cut legacy else cut xdg)) ∨
  ((if legacyAlone access xdg legacy then legacy else xdg).length < pathMax ∧
    (legacyAlone access (cut xdg) (cut legacy) = legacyAlone access xdg legacy ∨
      cut xdg = cut legacy))

theorem cut_eq_self {text : Text} (h : text.length < pathMax) : cut text = text := by
  rw [cut, snprintf, List.take_of_length_le (by omega)]

theorem length_cut_lt (text : Text) : (cut text).length < pathMax := by
  have hle : (cut text).length ≤ pathMax - 1 := List.length_take_le _ _
  have hpos : 0 < pathMax := by decide
  omega

theorem copyOut_room {buf : Option Nat} {src : Text} (h : Room buf src) :
    copyOut buf src = .ok src := by
  obtain ⟨buflen, rfl, hlen⟩ := h
  simp only [copyOut]
  rw [if_neg (by omega), if_neg (by omega)]

theorem copyOut_no_room {buf : Option Nat} {src : Text} (h : ¬ Room buf src) :
    ∃ e, copyOut buf src = .error e := by
  cases buf with
  | none => exact ⟨.einval, rfl⟩
  | some buflen =>
      simp only [copyOut]
      by_cases hzero : buflen = 0
      · exact ⟨.einval, if_pos hzero⟩
      · have hlong : src.length + 1 > buflen := by
          by_contra hshort
          exact h ⟨buflen, rfl, by omega⟩
        rw [if_neg hzero, if_pos hlong]
        exact ⟨.enametoolong, rfl⟩

/-- What is copied is complete when it is the selected path, or nothing is copied. -/
theorem complete_copyOut_iff (buf : Option Nat) (selected src : Text) :
    Complete buf selected (copyOut buf src) ↔ ¬ Room buf src ∨ src = selected := by
  by_cases hroom : Room buf src
  · have hcopy := copyOut_room hroom
    constructor
    · intro h
      exact Or.inr (h.whole src hcopy)
    · rintro (h | rfl)
      · exact absurd hroom h
      · exact ⟨fun path hpath => (Except.ok.inj (hcopy.symm.trans hpath)).symm,
          fun h => absurd hroom h⟩
  · obtain ⟨e, hcopy⟩ := copyOut_no_room hroom
    refine iff_of_true ⟨?_, fun _ => ⟨e, hcopy⟩⟩ (Or.inl hroom)
    intro path hpath
    rw [hcopy] at hpath
    contradiction

/-- The path that is taken is the selected one when that fits a buffer and the choice is the
same, or of no account. -/
theorem chosen_cut_eq_iff (access : Text → Bool) (xdg legacy : Text) :
    chosen access (cut xdg) (cut legacy) = chosen access xdg legacy ↔
      (chosen access xdg legacy).length < pathMax ∧
        (legacyAlone access (cut xdg) (cut legacy) = legacyAlone access xdg legacy ∨
          cut xdg = cut legacy) := by
  unfold chosen
  constructor
  · intro h
    have hlen : (if legacyAlone access xdg legacy then legacy else xdg).length < pathMax := by
      rw [← h]
      split
      · exact length_cut_lt legacy
      · exact length_cut_lt xdg
    refine ⟨hlen, ?_⟩
    cases hcut : legacyAlone access (cut xdg) (cut legacy) <;>
      cases hfull : legacyAlone access xdg legacy
    · exact Or.inl rfl
    · simp only [hcut, hfull, Bool.false_eq_true, if_false, if_true] at h hlen
      exact Or.inr (h.trans (cut_eq_self hlen).symm)
    · simp only [hcut, hfull, Bool.false_eq_true, if_false, if_true] at h hlen
      exact Or.inr ((cut_eq_self hlen).trans h.symm)
    · exact Or.inl rfl
  · rintro ⟨hlen, hsame⟩
    cases hcut : legacyAlone access (cut xdg) (cut legacy) <;>
      cases hfull : legacyAlone access xdg legacy <;>
      simp only [hcut, hfull, Bool.false_eq_true, if_false, if_true, Bool.true_eq_false,
        false_or] at hsame hlen ⊢
    · exact cut_eq_self hlen
    · rw [hsame, cut_eq_self hlen]
    · rw [← hsame, cut_eq_self hlen]
    · exact cut_eq_self hlen

/-- **The condition, for any two texts.** -/
theorem copyOut_complete_iff (access : Text → Bool) (buf : Option Nat) (xdg legacy : Text) :
    Complete buf (chosen access xdg legacy)
        (copyOut buf (chosen access (cut xdg) (cut legacy))) ↔
      Condition access buf xdg legacy := by
  rw [complete_copyOut_iff, chosen_cut_eq_iff]
  rfl

/-- **A resolved path is the complete path that the XDG rule selects, or is refused,
exactly under the condition.** -/
theorem resolved_complete_iff (access : Text → Bool) (env : Env) (buf : Option Nat) :
    (Complete buf (chosen access (rcXdgText env) (rcLegacyText env))
        (petrushRcPath access env buf) ↔
      Condition access buf (rcXdgText env) (rcLegacyText env)) ∧
    (Complete buf (chosen access (histXdgText env) (histLegacyText env))
        (petrushHistoryPath access env buf) ↔
      Condition access buf (histXdgText env) (histLegacyText env)) :=
  ⟨copyOut_complete_iff access buf (rcXdgText env) (rcLegacyText env),
    copyOut_complete_iff access buf (histXdgText env) (histLegacyText env)⟩

/-- Texts shorter than `PATH_MAX` are not cut. -/
theorem condition_of_short {xdg legacy : Text} (hxdg : xdg.length < pathMax)
    (hlegacy : legacy.length < pathMax) (access : Text → Bool) (buf : Option Nat) :
    Condition access buf xdg legacy := by
  refine Or.inr ⟨?_, Or.inl ?_⟩
  · split
    · exact hlegacy
    · exact hxdg
  · rw [cut_eq_self hxdg, cut_eq_self hlegacy]

/-- An environment with a `HOME` of 5000 bytes. -/
def deepHome : Env := fun name =>
  if name = "HOME".toList then some (List.replicate 5000 'h') else none

/-- **A path under a long `HOME` is cut**, in a buffer with room for all of it. -/
theorem path_cut :
    ¬ ∀ (access : Text → Bool) (env : Env) (buf : Option Nat),
      Complete buf (chosen access (rcXdgText env) (rcLegacyText env))
        (petrushRcPath access env buf) := by
  intro h
  have hcomplete := h (fun _ => false) deepHome (some 6000)
  have hnone : ∀ xdg legacy : Text, chosen (fun _ => false) xdg legacy = xdg := by
    intro xdg legacy
    rw [chosen, legacyAlone, pathExists, pathExists, Bool.and_false, Bool.and_false,
      Bool.and_false]
    rfl
  have hlen : (rcXdgText deepHome).length = 5019 := by
    have htext : rcXdgText deepHome =
        List.replicate 5000 'h' ++ "/.config/petrush/rc".toList := rfl
    rw [htext, List.length_append, List.length_replicate]
    rfl
  have hcut : (cut (rcXdgText deepHome)).length < pathMax := length_cut_lt _
  have hroom : Room (some 6000) (cut (rcXdgText deepHome)) := by
    refine ⟨6000, rfl, Nat.lt_trans hcut (by decide)⟩
  rw [hnone] at hcomplete
  have hwhole := hcomplete.whole (cut (rcXdgText deepHome)) (by
    rw [petrushRcPath, hnone]
    exact copyOut_room hroom)
  rw [hwhole, hlen] at hcut
  exact absurd hcut (by decide)

end Petrush.Verified.ConfigPaths

import Petrush.Lib.Steps
import Petrush.Mid.Dirstack

/-!
# The directory stack, `PWD` and `OLDPWD`

`popd` takes the entry off the stack before it knows that it can go there.  `cd` keeps
`PWD` and `OLDPWD`; `pushd` and `popd` leave them as they are.

## Main results

* `entries_push`, `entries_drop`: the cells as a list.
* `stack_kept_iff`: when a run of the commands keeps the stack.
* `run_destination`: where a command goes.
* `names_kept_iff`: when a run keeps the two variables.
-/

namespace Petrush.Verified.Directories

open Petrush.Foundation
open Petrush.Foundation.Process
open Petrush.Lib.Steps
open Petrush.Lib.CText
open Petrush.Mid.Dirstack

variable {δ : Type}

/-! ## Entries -/

theorem entries_push (s : Stack) {cwd : Text} (h : s.size < dirstackMax)
    (hcwd : cwd.length < pathMax) : (s.push cwd h).entries = cwd :: s.entries := by
  have htake : cwd.take (pathMax - 1) = cwd := List.take_of_length_le (by omega)
  have hlen : s.size < s.cells.toList.length := by
    rw [Vector.length_toList]
    exact h
  rw [Stack.entries, Stack.entries, Stack.push, htake, Vector.toList_set,
    List.take_add_one, List.take_set_of_le (Nat.le_refl _), List.getElem?_set_self hlen]
  simp

theorem entries_drop (s : Stack) (h : 0 < s.size) :
    s.entries = s.top h :: s.drop.entries := by
  have hlen : s.size - 1 < s.cells.toList.length := by
    have hle := s.size_le
    rw [Vector.length_toList]
    omega
  have hsize : s.size = s.size - 1 + 1 := by omega
  have htake : s.cells.toList.take s.size =
      s.cells.toList.take (s.size - 1) ++ [s.cells.toList.get ⟨s.size - 1, hlen⟩] := by
    conv_lhs => rw [hsize]
    rw [List.take_add_one, List.getElem?_eq_getElem hlen]
    rfl
  rw [Stack.entries, htake, List.reverse_append]
  rfl

theorem entries_eq_nil {s : Stack} (h : ¬ 0 < s.size) : s.entries = [] := by
  rw [Stack.entries, Nat.eq_zero_of_not_pos h]
  rfl

theorem getcwd_length {f : Files δ} {d : δ} {path : Text} (h : getcwd f d = some path) :
    f.path d = some path ∧ path.length < pathMax := by
  obtain ⟨hpath, hlen⟩ := Option.filter_eq_some_iff.mp h
  exact ⟨hpath, of_decide_eq_true hlen⟩

/-- A command, and what the directories are when it runs. -/
abbrev Step (δ : Type) := Files δ × Command

/-! ## The stack -/

section Stack

/-- The shell, and the paths that were pushed and not popped. -/
abbrev Stacked (δ : Type) := Shell δ × List Text

/-- What remains to be popped after a command. -/
def pushedAfter (r : Step δ) (s : Shell δ) (pushed : List Text) : List Text :=
  match (run r.1 r.2 s).1, r.2 with
  | true, .pushd _ => (getcwd r.1 s.cwd).getD [] :: pushed
  | true, .popd => pushed.tail
  | _, _ => pushed

def stackStep (s : Stacked δ) (r : Step δ) : Stacked δ :=
  ((run r.1 r.2 s.1).2, pushedAfter r s.1 s.2)

/-- A command that fails changes nothing, and `popd` returns to the last path pushed. -/
structure Stacks (s : Stacked δ) (r : Step δ) : Prop where
  failed : (run r.1 r.2 s.1).1 = false →
    (run r.1 r.2 s.1).2.cwd = s.1.cwd ∧ (run r.1 r.2 s.1).2.stack.entries = s.1.stack.entries
  popped : r.2 = .popd → (run r.1 r.2 s.1).1 = true →
    ∃ path rest, s.2 = path :: rest ∧ r.1.find s.1.cwd path = some (run r.1 r.2 s.1).2.cwd ∧
      (run r.1 r.2 s.1).2.stack.entries = rest

/-- `popd` finds the directory at the top. -/
def Finds (s : Stacked δ) (r : Step δ) : Prop :=
  r.2 = .popd → ∀ path ∈ s.1.stack.entries.head?, (r.1.find s.1.cwd path).isSome

/-- `dirstack_pushd` changes nothing, or pushes the path of the directory that it leaves. -/
theorem pushd_spec (f : Files δ) (path : Text) (s : Shell δ) :
    dirstackPushd f path s = (false, s) ∨
      ∃ cwd h d, getcwd f s.cwd = some cwd ∧ f.find s.cwd path = some d ∧ path ≠ [] ∧
        dirstackPushd f path s = (true, { s with cwd := d, stack := s.stack.push cwd h }) := by
  unfold dirstackPushd
  split
  · exact .inl rfl
  next hpath =>
    split
    next hsize =>
      cases hcwd : getcwd f s.cwd with
      | none => exact .inl rfl
      | some cwd =>
          cases hfind : f.find s.cwd path with
          | none => exact .inl rfl
          | some d => exact .inr ⟨cwd, hsize, d, rfl, rfl, hpath, rfl⟩
    · exact .inl rfl

/-- `dirstack_popd` on an empty stack, on one whose top is not there, and where it goes. -/
theorem popd_spec (f : Files δ) (s : Shell δ) :
    (s.stack.entries = [] ∧ dirstackPopd f s = (false, s)) ∨
      ∃ top, s.stack.entries = top :: s.stack.drop.entries ∧
        ((f.find s.cwd top = none ∧ dirstackPopd f s = (false, { s with stack := s.stack.drop })) ∨
          ∃ d, f.find s.cwd top = some d ∧
            dirstackPopd f s = (true, { s with cwd := d, stack := s.stack.drop })) := by
  unfold dirstackPopd
  split
  next h =>
    refine .inr ⟨s.stack.top h, entries_drop s.stack h, ?_⟩
    cases hfind : f.find s.cwd (s.stack.top h) with
    | none => exact .inl ⟨rfl, rfl⟩
    | some d => exact .inr ⟨d, rfl, rfl⟩
  next h => exact .inl ⟨entries_eq_nil h, rfl⟩

/-- `builtin_cd` changes nothing, or goes to its target. -/
theorem cd_spec (f : Files δ) (arg : Option Text) (s : Shell δ) :
    ((cdTarget arg s.env).bind (f.find s.cwd) = none ∧ builtinCd f arg s = (false, s)) ∨
      ∃ d, (cdTarget arg s.env).bind (f.find s.cwd) = some d ∧
        builtinCd f arg s = (true, { s with cwd := d, env := cdEnv f s.cwd d s.env }) := by
  unfold builtinCd
  cases cdTarget arg s.env with
  | none => exact .inl ⟨rfl, rfl⟩
  | some path =>
      cases hfind : f.find s.cwd path with
      | none => exact .inl ⟨hfind, by simp only [hfind]⟩
      | some d => exact .inr ⟨d, hfind, by simp only [hfind]⟩

/-- The commands but `popd` keep the stack. -/
theorem stacks_of_ne_popd {s : Stacked δ} {r : Step δ} (h : r.2 ≠ .popd) : Stacks s r := by
  obtain ⟨f, c⟩ := r
  refine ⟨fun hfailed => ?_, fun hpopd => absurd hpopd h⟩
  cases c with
  | cd arg =>
      rcases cd_spec f arg s.1 with ⟨-, hrun⟩ | ⟨d, -, hrun⟩
      · simp [run, hrun]
      · simp [run, hrun] at hfailed
  | pushd arg =>
      cases arg with
      | none => exact ⟨rfl, rfl⟩
      | some path =>
          rcases pushd_spec f path s.1 with hrun | ⟨cwd, h, d, -, -, -, hrun⟩
          · simp [run, hrun]
          · simp [run, hrun] at hfailed
  | popd => contradiction

/-- **A command** keeps the stack when `popd` finds the top. -/
theorem stacks_iff {s : Stacked δ} (r : Step δ) (hinv : s.1.stack.entries = s.2) :
    Stacks s r ↔ Finds s r := by
  obtain ⟨f, c⟩ := r
  by_cases hpopd : c = .popd
  · subst hpopd
    have hrun : run f .popd s.1 = dirstackPopd f s.1 := rfl
    rcases popd_spec f s.1 with ⟨hnil, hpop⟩ | ⟨top, htop, ⟨hfind, hpop⟩ | ⟨d, hfind, hpop⟩⟩
    · refine iff_of_true ⟨fun _ => ?_, fun _ hok => ?_⟩ (fun _ path hpath => ?_)
      · simp [hrun, hpop]
      · simp [hrun, hpop] at hok
      · simp [hnil] at hpath
    · refine iff_of_false (fun hright => ?_) (fun hfits => ?_)
      · have hkept := (hright.failed (by simp [hrun, hpop])).2
        simp [hrun, hpop, htop] at hkept
      · have hsome := hfits rfl top (by simp [htop])
        simp [hfind] at hsome
    · refine iff_of_true ⟨fun hfailed => ?_, fun _ _ => ?_⟩ (fun _ path hpath => ?_)
      · simp [hrun, hpop] at hfailed
      · exact ⟨top, s.1.stack.drop.entries, by rw [← hinv, htop], by simp [hrun, hpop, hfind],
          by simp [hrun, hpop]⟩
      · obtain rfl : top = path := by simpa [htop] using hpath
        simp [hfind]
  · exact iff_of_true (stacks_of_ne_popd hpopd) (fun h => absurd h hpopd)

/-- The stack holds what was pushed and not popped. -/
theorem stackStep_entries {s : Stacked δ} {r : Step δ} (hinv : s.1.stack.entries = s.2)
    (hfits : Finds s r) : (stackStep s r).1.stack.entries = (stackStep s r).2 := by
  obtain ⟨f, c⟩ := r
  cases c with
  | cd arg =>
      rcases cd_spec f arg s.1 with ⟨-, hrun⟩ | ⟨d, -, hrun⟩ <;>
        simpa [stackStep, pushedAfter, run, hrun] using hinv
  | pushd arg =>
      cases arg with
      | none => simpa [stackStep, pushedAfter, run] using hinv
      | some path =>
          rcases pushd_spec f path s.1 with hrun | ⟨cwd, h, d, hcwd, -, -, hrun⟩
          · simpa [stackStep, pushedAfter, run, hrun] using hinv
          · have hpush := entries_push s.1.stack h (getcwd_length hcwd).2
            simp [stackStep, pushedAfter, run, hrun, hpush, hcwd, hinv]
  | popd =>
      rcases popd_spec f s.1 with ⟨-, hrun⟩ | ⟨top, htop, ⟨hfind, hrun⟩ | ⟨d, hfind, hrun⟩⟩
      · simpa [stackStep, pushedAfter, run, hrun] using hinv
      · have hsome := hfits rfl top (by simp [htop])
        simp [hfind] at hsome
      · simp [stackStep, pushedAfter, run, hrun, ← hinv, htop]

/-- **The directory stack** is kept by a run if and only if each `popd` finds the directory
at the top. -/
theorem stack_kept_iff (s : Shell δ) (steps : List (Step δ)) :
    Always stackStep Stacks (s, s.stack.entries) steps ↔
      Always stackStep Finds (s, s.stack.entries) steps :=
  always_iff (fun s : Stacked δ => s.1.stack.entries = s.2) (fun _ r hinv => stacks_iff r hinv)
    (fun _ _ hinv hfits => stackStep_entries hinv hfits) steps rfl

/-- The directory that `pushd` left has gone when `popd` comes: the entry is lost. -/
theorem entry_lost :
    ¬ ∀ (s : Shell Text) (steps : List (Step Text)),
      Always stackStep Stacks (s, s.stack.entries) steps := by
  intro h
  let s : Shell Text :=
    { cwd := ['/', 'x']
      stack := { cells := Vector.replicate _ [], size := 0, size_le := Nat.zero_le _ }
      env := fun _ => none }
  let before : Files Text := { path := some, find := fun _ path => some path }
  let after : Files Text := { path := some, find := fun _ _ => none }
  have hpopd := (h s [(before, .pushd (some ['/', 'y'])), (after, .popd)]).2.1
  have hentries := (hpopd.failed (by decide)).2
  revert hentries
  decide

end Stack

/-! ## `PWD` and `OLDPWD` -/

section Names

/-- The directory that a command goes to. -/
def destination (r : Step δ) (s : Shell δ) : Option δ :=
  match r.2 with
  | .cd arg => (cdTarget arg s.env).bind (r.1.find s.cwd)
  | .pushd none => none
  | .pushd (some path) =>
      if path ≠ [] ∧ s.stack.size < dirstackMax ∧ (getcwd r.1 s.cwd).isSome then
        r.1.find s.cwd path
      else none
  | .popd => s.stack.entries.head?.bind (r.1.find s.cwd)

/-- The command is `cd`. -/
def isCd : Command → Bool
  | .cd _ => true
  | _ => false

/-- **What a command does** when it goes nowhere, and when it goes to a directory. -/
theorem run_destination (r : Step δ) (s : Shell δ) :
    (destination r s = none ∧ (run r.1 r.2 s).1 = false ∧ (run r.1 r.2 s).2.env = s.env) ∨
      ∃ d, destination r s = some d ∧ (run r.1 r.2 s).1 = true ∧ (run r.1 r.2 s).2.cwd = d ∧
        (run r.1 r.2 s).2.env = if isCd r.2 then cdEnv r.1 s.cwd d s.env else s.env := by
  obtain ⟨f, c⟩ := r
  cases c with
  | cd arg =>
      rcases cd_spec f arg s with ⟨hnone, hrun⟩ | ⟨d, hsome, hrun⟩
      · exact .inl ⟨hnone, by simp [run, hrun], by simp [run, hrun]⟩
      · exact .inr ⟨d, hsome, by simp [run, hrun], by simp [run, hrun], by simp [run, hrun, isCd]⟩
  | pushd arg =>
      cases arg with
      | none => exact .inl ⟨rfl, rfl, rfl⟩
      | some path =>
          have hrun : run f (.pushd (some path)) s = dirstackPushd f path s := rfl
          rw [hrun, destination, dirstackPushd]
          by_cases hpath : path = []
          · exact .inl (by simp [hpath])
          by_cases hsize : s.stack.size < dirstackMax
          · cases hcwd : getcwd f s.cwd with
            | none => exact .inl (by simp [hpath, hsize])
            | some cwd =>
                cases hfind : f.find s.cwd path with
                | none => exact .inl (by simp [hpath, hsize, hfind])
                | some d => exact .inr ⟨d, by simp [hpath, hsize, hfind, isCd]⟩
          · exact .inl (by simp [hpath, hsize])
  | popd =>
      have hrun : run f .popd s = dirstackPopd f s := rfl
      rw [hrun, destination]
      rcases popd_spec f s with ⟨hnil, hpop⟩ | ⟨top, htop, ⟨hfind, hpop⟩ | ⟨d, hfind, hpop⟩⟩
      · exact .inl (by simp [hnil, hpop])
      · exact .inl (by simp [htop, hfind, hpop])
      · exact .inr ⟨d, by simp [htop, hfind, hpop, isCd]⟩

theorem getenv_setIgnoring {env : Env} {name value : Text} (hname : envNameInvalid name = false)
    (n : Text) : getenv (setIgnoring env name value) n =
      if n = name then some value else getenv env n := by
  rw [setIgnoring, setenv, hname]
  rfl

/-- What `cd` makes of the two variables. -/
theorem cdEnv_names (f : Files δ) (old new : δ) (env : Env) :
    getenv (cdEnv f old new env) pwdName = (getcwd f new).or (getenv env pwdName) ∧
      getenv (cdEnv f old new env) oldpwdName =
        ((getcwd f old).filter (· ≠ [])).or (getenv env oldpwdName) := by
  have hpwd (env : Env) (value n : Text) : getenv (setIgnoring env pwdName value) n =
      if n = pwdName then some value else getenv env n := getenv_setIgnoring (by decide) n
  have hold (env : Env) (value n : Text) : getenv (setIgnoring env oldpwdName value) n =
      if n = oldpwdName then some value else getenv env n := getenv_setIgnoring (by decide) n
  have hne : ¬ pwdName = oldpwdName := by decide
  have hne' : ¬ oldpwdName = pwdName := by decide
  unfold cdEnv
  cases hnew : getcwd f new <;> cases hgot : getcwd f old with
  | none => simp [hpwd, hne']
  | some cwd => by_cases hcwd : cwd = [] <;> simp [hpwd, hold, hne, hne', hcwd, Option.filter]

/-- The shell, and the path of the directory that was left by the last change. -/
abbrev Named (δ : Type) := Shell δ × Option Text

def nameStep (s : Named δ) (r : Step δ) : Named δ :=
  ((run r.1 r.2 s.1).2, if (run r.1 r.2 s.1).1 then r.1.path s.1.cwd else s.2)

/-- After a change `PWD` is `getcwd` and `OLDPWD` what it was; without one they are the
same; and `cd -` goes to the directory left by the last change. -/
structure Names (s : Named δ) (r : Step δ) : Prop where
  moved : (run r.1 r.2 s.1).1 = true →
    getenv (run r.1 r.2 s.1).2.env pwdName = r.1.path (run r.1 r.2 s.1).2.cwd ∧
      getenv (run r.1 r.2 s.1).2.env oldpwdName = r.1.path s.1.cwd
  failed : (run r.1 r.2 s.1).1 = false →
    getenv (run r.1 r.2 s.1).2.env pwdName = getenv s.1.env pwdName ∧
      getenv (run r.1 r.2 s.1).2.env oldpwdName = getenv s.1.env oldpwdName
  back : r.2 = .cd (some ['-']) → ∀ path, s.2 = some path → path ≠ [] →
    (if (run r.1 r.2 s.1).1 then some (run r.1 r.2 s.1).2.cwd else none) = r.1.find s.1.cwd path

/-- A command that goes to a directory is `cd`, and `getcwd` has the paths; or the
variables hold them. -/
def Sets (s : Named δ) (r : Step δ) : Prop :=
  ∀ d, destination r s.1 = some d →
    ((isCd r.2 = true ∧ (getcwd r.1 d).isSome) ∨ getenv s.1.env pwdName = r.1.path d) ∧
      ((isCd r.2 = true ∧ ((getcwd r.1 s.1.cwd).filter (· ≠ [])).isSome) ∨
        getenv s.1.env oldpwdName = r.1.path s.1.cwd)

/-- A variable that is set from what `getcwd` gives, if it gives something. -/
theorem or_eq_iff {got before path : Option Text} (hgot : ∀ p ∈ got, path = some p) :
    got.or before = path ↔ got.isSome ∨ before = path := by
  cases got with
  | none => simp
  | some p => simp [hgot p rfl]

theorem getcwd_path {f : Files δ} {d : δ} : ∀ path ∈ getcwd f d, f.path d = some path :=
  fun _ h => (getcwd_length h).1

/-- `cd -` goes where `OLDPWD` says. -/
theorem destination_back {r : Step δ} {s : Shell δ} {path : Text}
    (h : r.2 = .cd (some ['-'])) (hold : getenv s.env oldpwdName = some path)
    (hpath : path ≠ []) : destination r s = r.1.find s.cwd path := by
  have htarget : cdTarget (some ['-']) s.env = some path := by
    simp [cdTarget, hold, Option.filter, hpath]
  rw [destination, h]
  simp [htarget]

/-- **A command** keeps the variables when it sets both. -/
theorem names_iff {s : Named δ} (r : Step δ)
    (hinv : ∀ path, s.2 = some path → getenv s.1.env oldpwdName = some path) :
    Names s r ↔ Sets s r := by
  rcases run_destination r s.1 with ⟨hnone, hrc, henv⟩ | ⟨d, hsome, hrc, hcwd, henv⟩
  · refine iff_of_true ⟨fun h => ?_, fun _ => ?_, fun hback path hlast hpath => ?_⟩ (fun d h => ?_)
    · simp [hrc] at h
    · rw [henv]
      exact ⟨rfl, rfl⟩
    · rw [hrc, ← destination_back hback (hinv path hlast) hpath, hnone]
      rfl
    · simp [hnone] at h
  · have hback : r.2 = .cd (some ['-']) → ∀ path, s.2 = some path → path ≠ [] →
        (if (run r.1 r.2 s.1).1 then some (run r.1 r.2 s.1).2.cwd else none) =
          r.1.find s.1.cwd path := by
      intro hback path hlast hpath
      rw [hrc, ← destination_back hback (hinv path hlast) hpath, hsome, hcwd]
      rfl
    have hmoved : (getenv (run r.1 r.2 s.1).2.env pwdName = r.1.path d ∧
        getenv (run r.1 r.2 s.1).2.env oldpwdName = r.1.path s.1.cwd) ↔
        ((isCd r.2 = true ∧ (getcwd r.1 d).isSome) ∨ getenv s.1.env pwdName = r.1.path d) ∧
          ((isCd r.2 = true ∧ ((getcwd r.1 s.1.cwd).filter (· ≠ [])).isSome) ∨
            getenv s.1.env oldpwdName = r.1.path s.1.cwd) := by
      rw [henv]
      cases hcd : isCd r.2 with
      | false => simp
      | true =>
          obtain ⟨hpwd, hold⟩ := cdEnv_names r.1 s.1.cwd d s.1.env
          rw [if_pos rfl, hpwd, hold, or_eq_iff getcwd_path,
            or_eq_iff fun path h => getcwd_path path (Option.filter_eq_some_iff.mp h).1]
          simp
    constructor
    · intro h d' hd'
      obtain rfl : d = d' := Option.some.inj (hsome.symm.trans hd')
      have hnames := h.moved hrc
      rw [hcwd] at hnames
      exact hmoved.mp hnames
    · intro h
      refine ⟨fun _ => ?_, fun hfailed => ?_, hback⟩
      · rw [hcwd]
        exact hmoved.mpr (h d hsome)
      · simp [hrc] at hfailed

/-- `OLDPWD` is the directory left by the last change. -/
theorem nameStep_oldpwd {s : Named δ} {r : Step δ}
    (hinv : ∀ path, s.2 = some path → getenv s.1.env oldpwdName = some path) (hsets : Sets s r) :
    ∀ path, (nameStep s r).2 = some path →
      getenv (nameStep s r).1.env oldpwdName = some path := by
  have hnames := (names_iff r hinv).mpr hsets
  intro path hpath
  unfold nameStep at hpath ⊢
  by_cases hrc : (run r.1 r.2 s.1).1 = true
  · rw [if_pos hrc] at hpath
    rw [(hnames.moved hrc).2]
    exact hpath
  · rw [if_neg hrc] at hpath
    rw [(hnames.failed (by simpa using hrc)).2]
    exact hinv path hpath

/-- **`PWD` and `OLDPWD`** follow a run if and only if each command that goes to a
directory sets them, or finds them set. -/
theorem names_kept_iff (s : Shell δ) (steps : List (Step δ)) :
    Always nameStep Names (s, none) steps ↔ Always nameStep Sets (s, none) steps :=
  always_iff
    (fun s : Named δ => ∀ path, s.2 = some path → getenv s.1.env oldpwdName = some path)
    (fun _ r hinv => names_iff r hinv) (fun _ _ hinv hsets => nameStep_oldpwd hinv hsets) steps
    (fun path h => by simp at h)

/-- `pushd` goes to another directory, and `PWD` stays. -/
theorem pwd_stale :
    ¬ ∀ (s : Shell Text) (steps : List (Step Text)),
      Always nameStep Names (s, none) steps := by
  intro h
  let s : Shell Text :=
    { cwd := ['/', 'x']
      stack := { cells := Vector.replicate _ [], size := 0, size_le := Nat.zero_le _ }
      env := fun name => if name = pwdName then some ['/', 'x'] else none }
  let files : Files Text := { path := some, find := fun _ path => some path }
  have hpushd := (h s [(files, .pushd (some ['/', 'y']))]).1
  have hpwd := (hpushd.moved (by decide)).1
  revert hpwd
  decide

end Names

end Petrush.Verified.Directories

import Petrush.Mid.Dispatcher
import Petrush.Mid.Helper
import Petrush.Pudod.Policy
import Petrush.Verified.Plugins

/-!
# From `pudo` to the target

In a release, the helper is looked for beside the shell and where it is installed, and only
six paths are trusted.  What the shell hands to it is never too long for it, so that the
policy of the helper alone decides, and what runs is what the shell has found.

## Main results

* `release_search` — the helper of a release.
* `delegated` — `run_via_pudod`, followed by the `main` of the helper.
* `dispatched` — what the dispatcher makes of it.
-/

namespace Petrush.Verified.Delegation

open Petrush.Foundation
open Petrush.Foundation.PluginLoad (lastSlash)
open Petrush.Foundation.Process (pathMax)
open Petrush.Lib.CText
open Petrush.Lib.Cells
open Petrush.Mid.Helper
open Petrush.Mid.Pudo (Statics)
open Petrush.Pudod (Host loadAllowList main runTarget pudodTargetIsRootExec)
open Petrush.Verified.Plugins

/-! ## The paths of a release -/

/-- The paths that are trusted. -/
def trusted : List Text :=
  pudodInstallDirs.flatMap fun dir =>
    ["pudod".toList, "petrush-pudod".toList].map fun name => dir ++ '/' :: name

theorem mem_trusted_of_siblingOk {path : Text} (h : siblingOk path = true) : path ∈ trusted := by
  have hslash : '/' ∈ path := by
    by_contra hno
    rw [siblingOk, lastSlash, if_neg hno] at h
    contradiction
  obtain ⟨dir, base, hbase, rfl⟩ := split_lastSlash hslash
  rw [siblingOk, lastSlash_append dir base hbase] at h
  cases dir with
  | nil => contradiction
  | cons c dir =>
      have hdrop : (c :: dir ++ '/' :: base).drop (dir.length + 2) = base := by simp
      simp only [List.length_cons, hdrop, Bool.and_eq_true, List.any_eq_true, beq_iff_eq] at h
      obtain ⟨hname, d, hd, hlen, htake⟩ := h
      have hdir : c :: dir = d := by
        rw [← htake, ← hlen]
        exact (List.take_left' rfl).symm
      have hmem : base ∈ ["pudod".toList, "petrush-pudod".toList] := by
        rw [pudodBasenameOk, Bool.or_eq_true, beq_iff_eq, beq_iff_eq] at hname
        simpa using hname
      rw [hdir]
      exact List.mem_flatMap.mpr ⟨d, hd, List.mem_map.mpr ⟨base, hmem, rfl⟩⟩

/-- **The policy of a release** is its six paths. -/
theorem allow_release_iff (path : Text) :
    pudoAllowPudodCandidate path true = true ↔ path ∈ trusted := by
  constructor
  · intro h
    rw [pudoAllowPudodCandidate, if_pos rfl] at h
    split_ifs at h with hnil hslash hinstall hexact
    · rw [hinstall]
      decide
    · have hall : ∀ p ∈ exactPaths, p ∈ trusted := by decide
      exact hall path (List.contains_iff_mem.mp hexact)
    · exact mem_trusted_of_siblingOk h
  · have hall : ∀ p ∈ trusted, pudoAllowPudodCandidate p true = true := by decide +kernel
    exact hall path

theorem trusted_absolute : ∀ path ∈ trusted, path.head? = some '/' ∧ path.length < pathMax := by
  decide

/-! ## The search of a release -/

section Search

variable (sys : System)

/-- Where a path leads. -/
def real (path : Text) : Text := (sys.realpath path).getD path

theorem tryAbsCandidate_release {path : Text} (hne : path ≠ []) :
    tryAbsCandidate sys true path =
      if sys.executable path = true ∧ real sys path ∈ trusted then some (real sys path)
      else none := by
  rw [tryAbsCandidate, if_neg hne]
  dsimp only
  split
  next hno => rw [if_neg fun h => by simp [h.1] at hno]
  next hyes =>
    have hexec : sys.executable path = true := by simpa using hyes
    by_cases hmem : real sys path ∈ trusted
    · obtain ⟨habs, hlen⟩ := trusted_absolute _ hmem
      have hallow := (allow_release_iff _).mpr hmem
      refine Eq.trans ?_ (if_pos ⟨hexec, hmem⟩).symm
      rw [real] at habs hlen hallow ⊢
      rw [if_neg (not_not.mpr habs), if_neg (by simp [hallow])]
      exact if_neg (Nat.not_le.mpr hlen)
    · have hallow : pudoAllowPudodCandidate (real sys path) true = false :=
        Bool.eq_false_iff.mpr fun h => hmem ((allow_release_iff _).mp h)
      refine Eq.trans ?_ (if_neg fun h => hmem h.2).symm
      rw [real] at hallow
      split
      next => rfl
      next => rw [if_pos (by simp [hallow])]

/-- The first of the candidates that can be executed and lead to a path that is trusted. -/
def firstTrusted (paths : List Text) : Option Text :=
  ((paths.filter sys.executable).map (real sys)).find? trusted.contains

theorem findSome_release {paths : List Text} (hne : ∀ path ∈ paths, path ≠ []) :
    paths.findSome? (tryAbsCandidate sys true) = firstTrusted sys paths := by
  induction paths with
  | nil => rfl
  | cons path paths ih =>
      rw [List.forall_mem_cons] at hne
      rw [List.findSome?_cons, tryAbsCandidate_release sys hne.1, ih hne.2, firstTrusted,
        firstTrusted]
      cases hexec : sys.executable path with
      | false => rw [if_neg (by simp), List.filter_cons_of_neg (by simp [hexec])]
      | true =>
          rw [List.filter_cons_of_pos hexec, List.map_cons]
          by_cases hmem : real sys path ∈ trusted
          · rw [if_pos ⟨rfl, hmem⟩, List.find?_cons_of_pos (by simpa using hmem)]
          · rw [if_neg fun h => hmem h.2, List.find?_cons_of_neg (by simpa using hmem)]

theorem siblings_ne_nil : ∀ path ∈ siblings sys, path ≠ [] := by
  intro path hpath
  unfold siblings at hpath
  split at hpath
  · contradiction
  · dsimp only at hpath
    split at hpath
    · contradiction
    · obtain ⟨name, -, rfl⟩ := List.mem_map.mp (List.mem_filter.mp hpath).1
      simp

/-- **The helper of a release** is the first candidate, beside the shell and then among the
paths of the installation, that can be executed and leads to one of the six paths. -/
theorem release_search :
    findPudodBinary sys true = firstTrusted sys (siblings sys ++ installPaths) := by
  have hinstall : ∀ path ∈ installPaths, path ≠ [] := by decide
  have hall : ∀ path ∈ siblings sys ++ installPaths, path ≠ [] := fun path hpath =>
    (List.mem_append.mp hpath).elim (siblings_ne_nil sys path) (hinstall path)
  rw [← findSome_release sys hall, List.findSome?_append, findPudodBinary, if_pos rfl, if_pos rfl,
    Option.none_or, Option.or_none]

theorem firstTrusted_mem {paths : List Text} {path : Text}
    (h : firstTrusted sys paths = some path) : path ∈ trusted := by
  simpa using List.find?_some h

end Search

/-! ## The helper's side -/

/-- The helper executes the target of a request. -/
structure Runs (h : Host) (target : Text) (fd : Nat) (resolved : Text) : Prop where
  listed : ∃ allowed, loadAllowList h = some allowed ∧ resolved ∈ allowed
  root : h.euid = 0
  absolute : target.head? = some '/'
  real : h.realpath target = some resolved
  opened : h.openNoFollow resolved = some fd
  executable : ∃ tst, h.fstat fd = some tst ∧ pudodTargetIsRootExec tst = true

theorem runTarget_envp {h : Host} {allowed argv : List Text} {userCmd : Text} {fd : Nat}
    {childArgv childEnvp : List Text}
    (hrun : runTarget h allowed argv userCmd = .fexecve fd childArgv childEnvp) :
    childEnvp = Pudod.buildCleanEnvp := by
  unfold runTarget at hrun
  split at hrun
  · contradiction
  · split_ifs at hrun
    split at hrun
    · contradiction
    · split at hrun
      · contradiction
      · split_ifs at hrun
        split at hrun
        · contradiction
        · exact (Pudod.Outcome.fexecve.inj hrun).2.2.symm

/-- A request with few arguments runs exactly when the policy says so. -/
theorem main_iff {h : Host} {helper target : Text} {args : List Text} (hargs : args.length ≤ 128)
    {fd : Nat} {childArgv childEnvp : List Text} :
    main h (helper :: target :: args) = .fexecve fd childArgv childEnvp ↔
      childEnvp = Pudod.buildCleanEnvp ∧ ∃ resolved, Runs h target fd resolved ∧
        childArgv = resolved :: args := by
  constructor
  · intro hmain
    unfold main at hmain
    split at hmain
    · contradiction
    · next allowed hload =>
        dsimp only at hmain
        split_ifs at hmain with heuid habs
        obtain ⟨resolved, tst, hreal, hmem, hopen, hstat, hexec, hargv⟩ :=
          Pudod.runTarget_eq_fexecve hmain
        exact ⟨runTarget_envp hmain, resolved, ⟨⟨allowed, hload, hmem⟩, not_not.mp heuid,
          not_not.mp habs, hreal, hopen, tst, hstat, hexec⟩, hargv⟩
  · rintro ⟨rfl, resolved, hruns, rfl⟩
    obtain ⟨allowed, hload, hmem⟩ := hruns.listed
    obtain ⟨tst, hstat, hexec⟩ := hruns.executable
    refine Pudod.main_eq_fexecve hload hruns.root hruns.absolute hruns.real hmem hruns.opened hstat
      hexec ?_
    have hdrop : (helper :: target :: args).length - 2 = args.length := rfl
    rw [Pudod.pudodBuildChildArgv, if_neg (by decide), if_neg (by simp), hdrop,
      if_neg (Nat.not_lt.mpr hargs : ¬ args.length > Pudod.maxArgs),
      if_neg (by rw [Pudod.maxArgs]; omega)]
    rfl

/-! ## Both sides -/

section Both

variable {sys : System} {env : Env} {statics : Statics} {argv : List Text}

/-- What the shell hands over. -/
theorem runViaPudod_execve {helper : Text} {args envp : List Text}
    (hrun : runViaPudod sys true env statics argv = .ok (.execve helper args envp)) :
    helper ∈ trusted ∧ ∃ command name rest, argv = command :: name :: rest ∧ rest.length ≤ 125 ∧
      args = helper :: (resolveTargetAbsolute sys env name).getD name :: rest := by
  unfold runViaPudod at hrun
  split at hrun
  next pudod command name rest hfound =>
    split at hrun
    next => cases hrun
    next hfits =>
      have hlen : rest.length ≤ 125 := by
        simp only [pudoHelperArgvFits, helperArgvMax, List.length_cons] at hfits
        rw [if_neg (by omega)] at hfits
        simp at hfits
        omega
      cases hclean : Mid.Pudo.buildCleanEnvp env statics with
      | error fault =>
          rw [hclean] at hrun
          cases hrun
      | ok statics' =>
          rw [hclean] at hrun
          obtain ⟨rfl, rfl, -⟩ := Delegation.execve.inj (Except.ok.inj hrun)
          rw [release_search] at hfound
          exact ⟨firstTrusted_mem sys hfound, command, name, rest, rfl, hlen, rfl⟩
  next => cases hrun

/-- The path that the shell has found leads to itself. -/
theorem resolve_real (hidem : ∀ p q, sys.realpath p = some q → sys.realpath q = some q)
    {name path resolved : Text} (h : resolveTargetAbsolute sys env name = some path)
    (hreal : sys.realpath path = some resolved) : resolved = path := by
  unfold resolveTargetAbsolute at h
  split at h
  next =>
    split at h
    next =>
      obtain rfl := Option.some.inj h
      cases hname : sys.realpath name with
      | none =>
          rw [hname, Option.getD_none, hname] at hreal
          contradiction
      | some q =>
          rw [hname, Option.getD_some, hidem name q hname] at hreal
          exact (Option.some.inj hreal).symm
    next => contradiction
  next =>
    obtain ⟨full, -, hfull⟩ := Option.bind_eq_some_iff.mp h
    rw [hidem full path hfull] at hreal
    exact (Option.some.inj hreal).symm

/-- **From `pudo` to the target**, in a release, when both see the same paths and a real
path leads to itself.  The helper is one of the six, it runs the target exactly when its
policy says so, with all arguments of the command, and what runs is what the shell found. -/
theorem delegated {helper : Text} {args envp : List Text}
    (hrun : runViaPudod sys true env statics argv = .ok (.execve helper args envp)) {h : Host}
    (hsame : h.realpath = sys.realpath)
    (hidem : ∀ p q, sys.realpath p = some q → sys.realpath q = some q) :
    helper ∈ trusted ∧ ∃ command name rest, argv = command :: name :: rest ∧
      ∀ fd childArgv childEnvp, main h args = .fexecve fd childArgv childEnvp ↔
        childEnvp = Pudod.buildCleanEnvp ∧ ∃ resolved,
          Runs h ((resolveTargetAbsolute sys env name).getD name) fd resolved ∧
            (∀ path, resolveTargetAbsolute sys env name = some path → resolved = path) ∧
            childArgv = resolved :: rest := by
  obtain ⟨htrusted, command, name, rest, hargv, hlen, rfl⟩ := runViaPudod_execve hrun
  refine ⟨htrusted, command, name, rest, hargv, fun fd childArgv childEnvp => ?_⟩
  rw [main_iff (Nat.le_trans hlen (by decide))]
  refine and_congr_right fun _ => exists_congr fun resolved => ?_
  constructor
  · rintro ⟨hruns, hchild⟩
    refine ⟨hruns, fun path hpath => ?_, hchild⟩
    have hreal := hruns.real
    rw [hsame, hpath, Option.getD_some] at hreal
    exact resolve_real hidem hpath hreal
  · rintro ⟨hruns, -, hchild⟩
    exact ⟨hruns, hchild⟩

end Both

/-! ## The dispatcher -/

section Dispatched

open Petrush.Lib.Run
open Petrush.Mid.State

/-- What the dispatcher is told of `pudo`. -/
def told (sys : System) (release : Bool) (env : Env) (config : Option (List Text))
    (status : Option Int) : Pudo where
  config := config
  helper := findPudodBinary sys release
  resolve name := (resolveTargetAbsolute sys env name).getD name
  status := status

/-- What the shell does then; the helper ends with `status`, if `execve` succeeds. -/
def perform (status : Option Int) : Delegation → Prog Shell Int
  | .back st => pure st
  | .execve _ argv _ =>
      match status with
      | none => pure 127
      | some st => do
          emit (.replaced argv)
          exit st

theorem fits_eq (argc : Nat) :
    Mid.Dispatcher.pudoHelperArgvFits argc = pudoHelperArgvFits argc := by
  rw [Mid.Dispatcher.pudoHelperArgvFits, pudoHelperArgvFits]
  split
  next h => rw [decide_eq_false (Nat.not_le.mpr h), Bool.false_and]
  next h => rw [decide_eq_true (Nat.not_lt.mp h), Bool.true_and, helperArgvMax]

/-- The dispatcher does what `run_via_pudod` says. -/
theorem dispatched {sys : System} {release : Bool} {env : Env} {statics : Statics}
    {command target : Text} {args : List Text} {d : Delegation}
    (hrun : runViaPudod sys release env statics (command :: target :: args) = .ok d)
    (config : Option (List Text)) (status : Option Int) :
    Mid.Dispatcher.runViaPudod (told sys release env config status) target args =
      perform status d := by
  unfold runViaPudod at hrun
  rw [Mid.Dispatcher.runViaPudod, told]
  cases hfound : findPudodBinary sys release with
  | none =>
      rw [hfound] at hrun
      obtain rfl := Except.ok.inj hrun
      rfl
  | some pudod =>
      rw [hfound] at hrun
      dsimp only at hrun ⊢
      rw [fits_eq]
      split at hrun
      next hfits =>
        obtain rfl := Except.ok.inj hrun
        exact if_pos hfits
      next hfits =>
        cases hclean : Mid.Pudo.buildCleanEnvp env statics with
        | error fault =>
            rw [hclean] at hrun
            cases hrun
        | ok statics' =>
            rw [hclean] at hrun
            obtain rfl := Except.ok.inj hrun
            exact if_neg hfits

end Dispatched

/-! ## A request -/

def sampleReal (path : Text) : Option Text :=
  if path.head? = some '/' ∧ path.length < pathMax then some path else none

theorem sampleReal_some {path p : Text} (h : sampleReal path = some p) :
    path = p ∧ p.head? = some '/' ∧ p.length < pathMax := by
  unfold sampleReal at h
  split at h
  next hpath =>
    obtain rfl := Option.some.inj h
    exact ⟨rfl, hpath⟩
  next => contradiction

theorem sampleReal_idem (p q : Text) (h : sampleReal p = some q) : sampleReal q = some q := by
  obtain ⟨rfl, -⟩ := sampleReal_some h
  exact h

/-- A machine with the helper and one program. -/
def sampleSystem : System where
  self := some "/usr/local/bin/petrush".toList
  executable path := path == "/usr/local/bin/petrush-pudod".toList || path == "/bin/ls".toList
  realpath := sampleReal
  realpath_abs _ _ h := (sampleReal_some h).2.1
  realpath_lt _ _ h := (sampleReal_some h).2.2

def sampleHost : Host where
  euid := 0
  allowFile := some ⟨some ⟨0, 0o100644⟩, true, "/bin/ls\n".toList⟩
  realpath := sampleReal
  realpath_lt _ _ h := (sampleReal_some h).2.2
  openNoFollow _ := some 3
  fstat _ := some ⟨0, 0o100755⟩

def sampleHelper : Text := "/usr/local/bin/petrush-pudod".toList

def sampleStatics : Statics := ⟨Vector.replicate 32 .null, Vector.replicate 32 []⟩

theorem sample_run : runViaPudod sampleSystem true (fun _ => none) sampleStatics
    ["pudo".toList, "/bin/ls".toList, "-l".toList] =
      .ok (.execve sampleHelper [sampleHelper, "/bin/ls".toList, "-l".toList]
        [Mid.Pudo.defaultPath]) := by
  rfl

theorem delegated_ls : sampleHelper ∈ trusted ∧ ∃ command name rest,
    ["pudo".toList, "/bin/ls".toList, "-l".toList] = command :: name :: rest ∧
      ∀ fd childArgv childEnvp,
        main sampleHost [sampleHelper, "/bin/ls".toList, "-l".toList] =
            .fexecve fd childArgv childEnvp ↔
          childEnvp = Pudod.buildCleanEnvp ∧ ∃ resolved,
            Runs sampleHost ((resolveTargetAbsolute sampleSystem (fun _ => none) name).getD name) fd
                resolved ∧
              (∀ path, resolveTargetAbsolute sampleSystem (fun _ => none) name = some path →
                resolved = path) ∧
              childArgv = resolved :: rest :=
  delegated sample_run rfl sampleReal_idem

end Petrush.Verified.Delegation

import Petrush.Foundation.Env
import Petrush.Mid.Alias

/-!
# Builtins that write a table (`dispatcher.c`)

Each takes the words of the command (`argv`, the name first) and the table it
changes, and returns the table and the status.  What is printed is left out.
-/

namespace Petrush.Mid.Builtins

open Petrush.Lib.CText
open Petrush.Foundation
open Petrush.Mid.Alias

/-- `strchr(arg, '=')`: what stands before and after the first `=`. -/
def splitAtEq (arg : Text) : Option (Text × Text) :=
  match arg.dropWhile (· != '=') with
  | [] => none
  | _ :: value => some (arg.takeWhile (· != '='), value)

/-- The words of `argv[2..]` with one blank between them. -/
def joinWords : List Text → Text := List.intercalate [' ']

/-- `builtin_alias`. -/
def builtinAlias (table : Table) : List Text → Table × Nat
  | [] | [_] => (table, 0)
  | _ :: arg :: rest =>
      let set (name value : Text) : Table × Nat :=
        match aliasSet table name value with
        | some table' => (table', 0)
        | none => (table, 1)
      match splitAtEq arg with
      | some (c :: name, value) =>
          if (c :: name).length ≥ aliasNameMax then (table, 1) else set (c :: name) value
      | _ =>
          if rest = [] then (table, if (aliasGet table arg).isSome then 0 else 1)
          else set arg (joinWords rest)

/-- One argument of `builtin_export`; a bare name must already be set. -/
def exportArg (env : Env) (arg : Text) : Env × Bool :=
  match splitAtEq arg with
  | some (name, value) =>
      if name.length ≥ 256 then (env, false)
      else
        match setenv env name value with
        | some env' => (env', true)
        | none => (env, false)
  | none => (env, (getenv env arg).isSome)

/-- `builtin_export`. -/
def builtinExport (env : Env) (argv : List Text) : Env × Nat :=
  match argv.tail with
  | [] => (env, 1)
  | args =>
      args.foldl (fun (env, ret) arg =>
        let (env', ok) := exportArg env arg
        (env', if ok then ret else 1)) (env, 0)

/-- The first `=` is found behind a name that has none. -/
theorem splitAtEq_append (name value : Text) (h : '=' ∉ name) :
    splitAtEq (name ++ '=' :: value) = some (name, value) := by
  have hne : ∀ c ∈ name, (c != '=') = true := by
    intro c hc
    simp only [bne_iff_ne, ne_eq]
    rintro rfl
    exact h hc
  simp [splitAtEq, List.dropWhile_append_of_pos hne, List.takeWhile_append_of_pos hne]

/-- The two parts and the `=` make up the text. -/
theorem splitAtEq_eq {arg name value : Text} (h : splitAtEq arg = some (name, value)) :
    arg = name ++ '=' :: value := by
  unfold splitAtEq at h
  split at h
  · contradiction
  next c rest hdrop =>
    obtain ⟨rfl, rfl⟩ := Prod.mk.inj (Option.some.inj h)
    have hget := List.dropWhile_get_zero_not (p := (· != '=')) arg (by rw [hdrop]; simp)
    have hc : c = '=' := by simpa [hdrop] using hget
    subst hc
    rw [← hdrop, List.takeWhile_append_dropWhile]

/-- What stands before the first `=` has none. -/
theorem not_mem_of_splitAtEq {arg name value : Text} (h : splitAtEq arg = some (name, value)) :
    '=' ∉ name := by
  unfold splitAtEq at h
  split at h
  · contradiction
  · obtain ⟨rfl, -⟩ := Prod.mk.inj (Option.some.inj h)
    intro hmem
    have hne := List.mem_takeWhile_imp hmem
    exact absurd hne (by decide)

theorem not_mem_of_splitAtEq_none {arg : Text} (h : splitAtEq arg = none) : '=' ∉ arg := by
  unfold splitAtEq at h
  split at h
  next hdrop =>
    intro hmem
    have hne := List.dropWhile_eq_nil_iff.mp hdrop '=' hmem
    exact absurd hne (by decide)
  · contradiction

end Petrush.Mid.Builtins

import Petrush.Lib.CText

/-!
# The alias table (`alias.c`)

Sixty-four slots, each free or holding a name and its value.
-/

namespace Petrush.Mid.Alias

open Petrush.Lib.CText

/-- `ALIAS_NAME_MAX` (also the number of slots) and `ALIAS_VAL_MAX`. -/
def aliasNameMax : Nat := 64

@[inherit_doc aliasNameMax]
def aliasValMax : Nat := 512

/-- `g_aliases`; a free slot is `none`. -/
abbrev Table := List (Option (Text × Text))

/-- `valid_name`. -/
def validName : Text → Bool
  | [] => false
  | c :: s =>
      (isalpha c || c == '_') && (c :: s).all (fun d => isalnum d || d == '_' || d == '-')

/-- The slot holds `name`. -/
def holds (name : Text) : Option (Text × Text) → Bool
  | some (n, _) => n == name
  | none => false

/-- The first slot that `p` picks, overwritten. -/
def setFirst (p : Option (Text × Text) → Bool) (entry : Text × Text) : Table → Option Table
  | [] => none
  | slot :: slots =>
      if p slot then some (some entry :: slots)
      else (setFirst p entry slots).map (slot :: ·)

/-- `alias_set`: update, else take a free slot, else fail. -/
def aliasSet (table : Table) (name value : Text) : Option Table :=
  if ¬ validName name ∨ name.length ≥ aliasNameMax ∨ value.length ≥ aliasValMax then none
  else
    match setFirst (holds name) (name, value) table with
    | some table' => some table'
    | none => setFirst Option.isNone (name, value) table

/-- `alias_get`. -/
def aliasGet (table : Table) (name : Text) : Option Text :=
  (table.find? (holds name)).bind fun slot => slot.map Prod.snd

/-- `alias_unset`. -/
def aliasUnset (name : Text) : Table → Option Table
  | [] => none
  | slot :: slots =>
      if holds name slot then some (none :: slots)
      else (aliasUnset name slots).map (slot :: ·)

/-- A byte of the first word of a line. -/
def isAliasChar (c : Char) : Bool := !(isspace c || c == '|' || c == '<' || c == '>' || c == '&')

/-- `alias_expand_line`. -/
def aliasExpandLine (table : Table) (line : Text) : Text :=
  let line := line.dropWhile isspace
  let word := line.takeWhile isAliasChar
  if word = [] ∨ word.length ≥ aliasNameMax then line
  else
    match aliasGet table word with
    | none => line
    | some repl => repl ++ line.dropWhile isAliasChar

/-- A slot overwritten is read back, when no slot before it holds the name. -/
private theorem aliasGet_setFirst (p : Option (Text × Text) → Bool) (name value : Text)
    (table table' : Table) (hp : ∀ slot ∈ table, holds name slot → p slot)
    (h : setFirst p (name, value) table = some table') :
    aliasGet table' name = some value := by
  induction table generalizing table' with
  | nil => contradiction
  | cons slot slots ih =>
      unfold setFirst at h
      split at h
      · obtain rfl := Option.some.inj h
        simp [aliasGet, holds]
      case isFalse hslot =>
        obtain ⟨slots', hslots', rfl⟩ := Option.map_eq_some_iff.mp h
        have hne : holds name slot = false := by
          cases hh : holds name slot with
          | false => rfl
          | true => exact absurd (hp slot (by simp) hh) hslot
        have hrest := ih slots' (fun s hs => hp s (by simp [hs])) hslots'
        simpa [aliasGet, hne] using hrest

private theorem holds_of_setFirst_none (name value : Text) (table : Table)
    (h : setFirst (holds name) (name, value) table = none) :
    ∀ slot ∈ table, holds name slot = false := by
  induction table with
  | nil => simp
  | cons slot slots ih =>
      unfold setFirst at h
      split at h
      · contradiction
      case isFalse hslot =>
        intro s hs
        rcases List.mem_cons.mp hs with rfl | hs
        · simpa using hslot
        · exact ih (by simpa using h) s hs

/-- **What `alias_set` stores, `alias_get` reads.** -/
theorem aliasGet_aliasSet (table table' : Table) (name value : Text)
    (h : aliasSet table name value = some table') :
    aliasGet table' name = some value := by
  unfold aliasSet at h
  split at h
  · contradiction
  · split at h
    case h_1 t ht =>
      obtain rfl := Option.some.inj h
      exact aliasGet_setFirst _ name value table _ (fun _ _ hs => hs) ht
    case h_2 ht =>
      have hnone := holds_of_setFirst_none name value table ht
      refine aliasGet_setFirst _ name value table _ ?_ h
      intro slot hslot hs
      rw [hnone slot hslot] at hs
      contradiction

end Petrush.Mid.Alias

import Petrush.Lib.Stdlib

/-!
# The trap table (`dispatcher.c`)

`g_trap_action` has a slot for EXIT (0) and one for each signal: no entry is the
default, an empty text ignores, any other text is a command.  The signal numbers
are those of Linux on x86-64.
-/

namespace Petrush.Mid.Trap

open Petrush.Lib.CText
open Petrush.Lib.Stdlib

/-- `PETRUSH_TRAP_NSIG`. -/
def trapNsig : Nat := 65

/-- `g_trap_action`. -/
abbrev TrapTable := Nat → Option Text

def sigint : Nat := 2

def sigquit : Nat := 3

def sigkill : Nat := 9

def sigchld : Nat := 17

def sigstop : Nat := 19

def sigtstp : Nat := 20

/-- `g_trap_conds`, in the order of the dump. -/
def trapConds : List (Text × Nat) :=
  [("EXIT".toList, 0), ("HUP".toList, 1), ("INT".toList, 2), ("QUIT".toList, 3),
    ("ILL".toList, 4), ("TRAP".toList, 5), ("ABRT".toList, 6), ("BUS".toList, 7),
    ("FPE".toList, 8), ("USR1".toList, 10), ("SEGV".toList, 11), ("USR2".toList, 12),
    ("PIPE".toList, 13), ("ALRM".toList, 14), ("TERM".toList, 15), ("STKFLT".toList, 16),
    ("CONT".toList, 18), ("TSTP".toList, 20), ("TTIN".toList, 21), ("TTOU".toList, 22),
    ("URG".toList, 23), ("XCPU".toList, 24), ("XFSZ".toList, 25), ("VTALRM".toList, 26),
    ("PROF".toList, 27), ("WINCH".toList, 28), ("POLL".toList, 29), ("PWR".toList, 30),
    ("SYS".toList, 31)]

/-- `petrush_trap_is_command`. -/
def trapIsCommand (traps : TrapTable) (sig : Nat) : Bool :=
  decide (0 < sig) && decide (sig < trapNsig) && (traps sig).any (· != [])

/-! ## Conditions -/

/-- The errors of `trap_resolve_cond`. -/
inductive TrapErr where
  | invalid
  | killstop
  | chld
  deriving Repr, DecidableEq

/-- The name without `SIG`. -/
def stripSig (raw : Text) : Text :=
  match raw with
  | 'S' :: 'I' :: 'G' :: c :: name => c :: name
  | _ => raw

/-- The cast of a `long` to `int`. -/
def toInt32 (v : Int) : Int := (v + 2 ^ 31) % 2 ^ 32 - 2 ^ 31

/-- `trap_resolve_cond`. -/
def trapResolveCond (raw : Text) : Except TrapErr Nat :=
  let name := stripSig raw
  if raw = [] then .error .invalid
  else if name = "KILL".toList ∨ name = "STOP".toList then .error .killstop
  else if name = "CHLD".toList ∨ name = "CLD".toList then .error .chld
  else if name = "ERR".toList ∨ name = "DEBUG".toList ∨ name = "RETURN".toList then .error .invalid
  else
    match parseLong raw with
    | some v =>
        if v = 0 then .ok 0
        else if v = sigkill ∨ v = sigstop then .error .killstop
        else if v = sigchld then .error .chld
        else if trapConds.any fun c => (c.2 : Int) == toInt32 v then .ok (toInt32 v).toNat
        else .error .invalid
    | none =>
        match trapConds.find? fun c => c.1 == name with
        | some c => .ok c.2
        | none => .error .invalid

/-- A condition that is accepted is a slot of the table of names. -/
theorem mem_of_trapResolveCond {raw : Text} {slot : Nat} (h : trapResolveCond raw = .ok slot) :
    slot ∈ trapConds.map Prod.snd := by
  unfold trapResolveCond at h
  simp only at h
  split at h
  · contradiction
  split at h
  · contradiction
  split at h
  · contradiction
  split at h
  · contradiction
  split at h
  case h_1 v _ =>
    split at h
    case isTrue =>
      obtain rfl := Except.ok.inj h
      decide
    split at h
    · contradiction
    split at h
    · contradiction
    split at h
    case isTrue hany =>
      obtain rfl := Except.ok.inj h
      obtain ⟨c, hc, hv⟩ := List.any_eq_true.mp hany
      have hcv : (c.2 : Int) = toInt32 v := by simpa using hv
      rw [← hcv]
      exact List.mem_map_of_mem hc
    · contradiction
  case h_2 =>
    split at h
    case h_1 c hfind =>
      obtain rfl := Except.ok.inj h
      exact List.mem_map_of_mem (List.mem_of_find?_eq_some hfind)
    · contradiction

/-! ## The dump -/

/-- `trap_print_quoted`. -/
def trapPrintQuoted (s : Text) : Text :=
  '\'' :: s.flatMap (fun c => if c = '\'' then "'\\''".toList else [c]) ++ ['\'']

/-- One line of the dump, without its newline. -/
def trapLine (action : Text) (name : Text) : Text :=
  "trap -- ".toList ++ trapPrintQuoted action ++ ' ' :: name

/-- `trap_dump`. -/
def trapDump (traps : TrapTable) : List Text :=
  trapConds.filterMap fun (name, slot) => (traps slot).map fun action => trapLine action name

/-! ## The arguments of `trap` -/

/-- What `builtin_trap` is asked for. -/
inductive TrapCall where
  | dump
  | usage
  | badOption
  | set (action : Option Text) (conds : List Text)
  deriving Repr, DecidableEq

/-- The head of `builtin_trap`, on `argv[1..]`; a reset has no action. -/
def trapArgs (args : List Text) : TrapCall :=
  let set (action : Text) (conds : List Text) : TrapCall :=
    if conds = [] then .usage
    else .set (if action = ['-'] then none else some action) conds
  match args with
  | [] => .dump
  | arg :: rest =>
      if arg = "--".toList then
        match rest with
        | [] => .usage
        | action :: conds => set action conds
      else if arg.head? = some '-' ∧ arg.length ≥ 2 then .badOption
      else set arg rest

end Petrush.Mid.Trap

import Petrush.Mid.Launch

/-!
# A pipeline that does not start

The pipes are closed and the dispositions are put back wherever the start of a pipeline
fails.  The children are waited for only when a command is not found, and the terminal
stays with the first of them.

## Main results

* `openPipes_spec`, `get_pipelineClosePipes`: the descriptors.
* `startStages_some`: where the stages stop.
* `cleaned_iff`: when the parent is left as it was.
-/

namespace Petrush.Verified.Launching

open Petrush.Lib.Descriptors
open Petrush.Mid.Launch
open Petrush.Mid.State

variable {φ : Type}

/-! ## Pipes -/

/-- The descriptors of pipes. -/
def ends (pipes : List Ends) : List Nat := pipes.flatMap fun p => [p.1, p.2]

theorem get_pipelineClosePipes (pipes : List Ends) (t : Table (Mid.Launch.File φ)) (fd : Nat) :
    get (pipelineClosePipes pipes t) fd = if fd ∈ ends pipes then none else get t fd := by
  induction pipes generalizing t with
  | nil => simp [pipelineClosePipes, ends]
  | cons p pipes ih =>
      have hstep : pipelineClosePipes (p :: pipes) t =
          pipelineClosePipes pipes (close (close t p.1) p.2) := rfl
      have hmem : fd ∈ ends (p :: pipes) ↔ fd = p.1 ∨ fd = p.2 ∨ fd ∈ ends pipes := by
        simp [ends]
      rw [hstep, ih]
      simp only [close, get_put, hmem]
      by_cases hrest : fd ∈ ends pipes
      · simp [hrest]
      · by_cases hsecond : fd = p.2
        · simp [hsecond]
        · simp [hrest, hsecond]

/-- Pipes have been opened, and nothing else has changed. -/
structure Opened (t t' : Table (Mid.Launch.File φ)) (pipes : List Ends) : Prop where
  free : ∀ fd ∈ ends pipes, get t fd = none
  others : ∀ fd, fd ∉ ends pipes → get t' fd = get t fd

theorem Opened.close {t t' : Table (Mid.Launch.File φ)} {pipes : List Ends} (h : Opened t t' pipes)
    (fd : Nat) : get (pipelineClosePipes pipes t') fd = get t fd := by
  rw [get_pipelineClosePipes]
  split
  · next hmem => rw [h.free fd hmem]
  · next hmem => rw [h.others fd hmem]

/-- What is free was free. -/
theorem Opened.free_of {t t' : Table (Mid.Launch.File φ)} {pipes : List Ends} (h : Opened t t' pipes)
    {fd : Nat} (hfd : get t' fd = none) : get t fd = none := by
  by_cases hmem : fd ∈ ends pipes
  · exact h.free fd hmem
  · rw [← h.others fd hmem, hfd]

theorem Opened.pipe {t t' : Table (Mid.Launch.File φ)} {pipes : List Ends} (h : Opened t t' pipes)
    (i : Nat) : Opened t (Mid.Launch.pipe i t').1 (pipes ++ [(Mid.Launch.pipe i t').2]) := by
  -- The two descriptors are the lowest that are free, one after the other.
  have hmem (fd : Nat) : fd ∈ ends (pipes ++ [(Mid.Launch.pipe i t').2]) ↔
      fd ∈ ends pipes ∨ fd = Lib.Descriptors.free t' ∨
        fd = Lib.Descriptors.free (put t' (Lib.Descriptors.free t') (some (.readEnd i))) := by
    simp [ends, Mid.Launch.pipe, alloc]
  have hsecond := get_free (put t' (Lib.Descriptors.free t') (some (Mid.Launch.File.readEnd i)))
  rw [get_put] at hsecond
  constructor
  · intro fd hfd
    rcases (hmem fd).mp hfd with hold | rfl | rfl
    · exact h.free fd hold
    · exact h.free_of (get_free t')
    · apply h.free_of
      split at hsecond
      · contradiction
      · exact hsecond
  · intro fd hfd
    rw [hmem, not_or, not_or] at hfd
    obtain ⟨hold, hread, hwrite⟩ := hfd
    simp only [Mid.Launch.pipe, alloc, get_put, if_neg hread, if_neg hwrite]
    exact h.others fd hold

/-- **The pipes** are all opened, or none is. -/
theorem openPipes_spec (a : Answers) (k : Nat) :
    ∀ (i : Nat) {pipes : List Ends} {t t' : Table (Mid.Launch.File φ)}, Opened t t' pipes →
      ((openPipes a k i pipes t').2 = none ↔ ∃ j < k, a.pipeFails (i + j) = true) ∧
      (∀ opened, (openPipes a k i pipes t').2 = some opened →
        Opened t (openPipes a k i pipes t').1 opened) ∧
      ((openPipes a k i pipes t').2 = none → ∀ fd, get (openPipes a k i pipes t').1 fd = get t fd) := by
  induction k with
  | zero =>
      intro i pipes t t' h
      refine ⟨by simp [openPipes], fun opened hopened => ?_, fun hnone => by simp [openPipes] at hnone⟩
      obtain rfl : pipes = opened := by simpa [openPipes] using hopened
      exact h
  | succ k ih =>
      intro i pipes t t' h
      by_cases hfails : a.pipeFails i = true
      · have hrun : openPipes a (k + 1) i pipes t' = (pipelineClosePipes pipes t', none) := by
          rw [openPipes, if_pos hfails]
        rw [hrun]
        exact ⟨iff_of_true rfl ⟨0, Nat.succ_pos k, hfails⟩, fun opened hopened => by simp at hopened,
          fun _ => h.close⟩
      · have hrun : openPipes a (k + 1) i pipes t' =
            openPipes a k (i + 1) (pipes ++ [(pipe i t').2]) (pipe i t').1 := by
          rw [openPipes, if_neg hfails]
        obtain ⟨hnone, hsome, hback⟩ := ih (i + 1) (h.pipe i)
        rw [hrun]
        refine ⟨hnone.trans ?_, hsome, hback⟩
        constructor
        · rintro ⟨j, hj, hfail⟩
          exact ⟨j + 1, by omega, by rwa [Nat.add_assoc, Nat.add_comm 1 j] at hfail⟩
        · rintro ⟨j, hj, hfail⟩
          cases j with
          | zero => exact absurd hfail hfails
          | succ j => exact ⟨j, by omega, by rwa [Nat.add_assoc, Nat.add_comm 1 j]⟩

/-! ## Stages -/

section Stages

variable (a : Answers) (hook : Bool)

/-- The command of the stage is not found, where the parent looks. -/
def lookupFails (j : Nat) : Bool := !hook && (a.notFound j).isSome

/-- The stage does not start. -/
def stageFails (j : Nat) : Bool := lookupFails a hook j || a.forkFails j

/-- Before stage `i`. -/
structure Started (i : Nat) (p q : Parent φ) : Prop where
  children : q.children = List.replicate i false
  away : q.away = (decide (0 < i) && a.terminal)
  table : q.table = p.table

theorem Started.forked {i : Nat} {p q : Parent φ} (h : Started a i p q) :
    Started a (i + 1) p (forked a i q) where
  children := by simp [Mid.Launch.forked, h.children, List.replicate_succ']
  away := by
    cases i with
    | zero => simp [Mid.Launch.forked, h.away]
    | succ i => simp [Mid.Launch.forked, h.away]
  table := h.table

theorem startStages_succ (pipes : List Ends) (old : Disp × Disp) (k i : Nat) (q : Parent φ) :
    startStages a hook pipes old (k + 1) i q =
      if lookupFails a hook i = true then
        (pipelineAbort a pipes i old q, some { rc := -1, exitStatus := a.notFound i })
      else if a.forkFails i = true then (pipelineAbort a pipes 0 old q, some { rc := -1 })
      else startStages a hook pipes old k (i + 1) (forked a i q) := by
  rw [startStages]
  unfold lookupFails
  cases hook with
  | true => simp
  | false => cases hfound : a.notFound i <;> simp

/-- **Where the stages stop**: at the first that fails. -/
theorem startStages_spec (pipes : List Ends) (old : Disp × Disp) (k : Nat) :
    ∀ (i : Nat) {p q : Parent φ}, Started a i p q →
      ((∃ u, startStages a hook pipes old k i q = (u, none) ∧
          ∀ j < i + k, i ≤ j → stageFails a hook j = false) ∨
      ∃ j r u, i ≤ j ∧ j < i + k ∧ stageFails a hook j = true ∧
        (∀ m < j, i ≤ m → stageFails a hook m = false) ∧ Started a j p u ∧
        startStages a hook pipes old k i q =
          (pipelineAbort a pipes (if lookupFails a hook j then j else 0) old u, some r) ∧ r.rc = -1) := by
  induction k with
  | zero => exact fun i p q _ => .inl ⟨q, rfl, fun j hj hij => by omega⟩
  | succ k ih =>
      intro i p q h
      rw [startStages_succ]
      by_cases hlookup : lookupFails a hook i = true
      · rw [if_pos hlookup]
        refine .inr ⟨i, { rc := -1, exitStatus := a.notFound i }, q, Nat.le_refl i, by omega,
          by simp [stageFails, hlookup],
          fun m hm him => by omega, h, ?_, rfl⟩
        rw [if_pos hlookup]
      · rw [if_neg hlookup]
        by_cases hfork : a.forkFails i = true
        · rw [if_pos hfork]
          refine .inr ⟨i, { rc := -1 }, q, Nat.le_refl i, by omega, by simp [stageFails, hfork],
            fun m hm him => by omega, h, ?_, rfl⟩
          rw [if_neg hlookup]
        · rw [if_neg hfork]
          have hi : stageFails a hook i = false := by simp [stageFails, hlookup, hfork]
          rcases ih (i + 1) (h.forked a) with
            ⟨u, hrun, hall⟩ | ⟨j, r, u, hij, hj, hfail, hfirst, hu, hrun, hr⟩
          · refine .inl ⟨u, hrun, fun j hj hij => ?_⟩
            rcases Nat.eq_or_lt_of_le hij with rfl | hlt
            · exact hi
            · exact hall j (by omega) hlt
          · refine .inr ⟨j, r, u, by omega, by omega, hfail, fun m hm him => ?_, hu, hrun, hr⟩
            rcases Nat.eq_or_lt_of_le him with rfl | hlt
            · exact hi
            · exact hfirst m hm hlt

end Stages

/-! ## The parent -/

/-- The parent is left as it was. -/
structure Cleaned (p p' : Parent φ) : Prop where
  children : ∀ waited ∈ p'.children, waited = true
  table : ∀ fd, get p'.table fd = get p.table fd
  sigint : p'.sigint = p.sigint
  sigquit : p'.sigquit = p.sigquit
  terminal : p'.away = false

/-- The start fails before there is a child; or a command is not found, in a shell without
a terminal, and no wait is interrupted. -/
def CanCleanUp (a : Answers) (hook : Bool) (n : Nat) : Prop :=
  n < 2 ∨ a.noMemory = true ∨ (∃ i < n - 1, a.pipeFails i = true) ∨
    ∀ i < n, stageFails a hook i = true → (∀ j < i, stageFails a hook j = false) →
      i = 0 ∨ (lookupFails a hook i = true ∧ a.terminal = false ∧ ∀ j < i, a.interrupted j = false)

/-- The condition, when stage `j` is the first that fails. -/
theorem canCleanUp_of_fails {a : Answers} {hook : Bool} {n j : Nat} (hn : 2 ≤ n)
    (hmemory : ¬ a.noMemory = true) (hpipes : ¬ ∃ i < n - 1, a.pipeFails i = true) (hj : j < n)
    (hfail : stageFails a hook j = true) (hfirst : ∀ m < j, stageFails a hook m = false) :
    CanCleanUp a hook n ↔
      j = 0 ∨ (lookupFails a hook j = true ∧ a.terminal = false ∧
        ∀ m < j, a.interrupted m = false) := by
  constructor
  · rintro (hsmall | hmem | hpipe | hall)
    · omega
    · exact absurd hmem hmemory
    · exact absurd hpipe hpipes
    · exact hall j hj hfail hfirst
  · intro h
    refine .inr (.inr (.inr fun i hi hifail hifirst => ?_))
    rcases Nat.lt_trichotomy i j with hlt | rfl | hgt
    · simp [hfirst i hlt] at hifail
    · exact h
    · simp [hifirst j hgt] at hfail

/-- A shell that begins a pipeline. -/
def idle (table : Table (Mid.Launch.File φ)) (sigint sigquit : Disp) : Parent φ :=
  { table := table, sigint := sigint, sigquit := sigquit }

theorem reap_all (a : Answers) (nKill j : Nat) :
    (∀ waited ∈ reap a nKill (List.replicate j false), waited = true) ↔
      ∀ m < j, m < nKill ∧ a.interrupted m = false := by
  unfold reap
  constructor
  · intro h m hm
    have hwaited := h _ (List.mem_mapIdx.mpr ⟨m, by simpa using hm, rfl⟩)
    simpa using hwaited
  · intro h waited hmem
    obtain ⟨m, hm, rfl⟩ := List.mem_mapIdx.mp hmem
    have hboth := h m (by simpa using hm)
    simp [hboth]

/-- What an abort before stage `j` cleans up. -/
theorem cleaned_abort_iff {a : Answers} {hook : Bool} {table : Table (Mid.Launch.File φ)}
    {sigint sigquit : Disp} {pipes : List Ends} {j : Nat} {p u : Parent φ}
    (hopened : Opened table p.table pipes) (hu : Started a j p u)
    (hfail : stageFails a hook j = true) :
    Cleaned (idle table sigint sigquit)
        (pipelineAbort a pipes (if lookupFails a hook j then j else 0) (sigint, sigquit) u) ↔
      j = 0 ∨ (lookupFails a hook j = true ∧ a.terminal = false ∧
        ∀ m < j, a.interrupted m = false) := by
  have hchildren : (∀ waited ∈ (pipelineAbort a pipes (if lookupFails a hook j then j else 0)
      (sigint, sigquit) u).children, waited = true) ↔
      ∀ m < j, m < (if lookupFails a hook j then j else 0) ∧ a.interrupted m = false := by
    rw [← reap_all, ← hu.children]
    rfl
  have haway : (pipelineAbort a pipes (if lookupFails a hook j then j else 0)
      (sigint, sigquit) u).away = (decide (0 < j) && a.terminal) := hu.away
  constructor
  · intro h
    rcases Nat.eq_zero_or_pos j with hzero | hpos
    · exact .inl hzero
    · have hall := hchildren.mp h.children
      have hterminal := haway.symm.trans h.terminal
      cases hlookup : lookupFails a hook j with
      | false =>
          have hnone := (hall 0 hpos).1
          simp [hlookup] at hnone
      | true => exact .inr ⟨rfl, by simpa [hpos] using hterminal, fun m hm => (hall m hm).2⟩
  · intro h
    refine ⟨hchildren.mpr fun m hm => ?_, fun fd => ?_, rfl, rfl, haway.trans ?_⟩
    · rcases h with rfl | ⟨hlookup, -, hwaits⟩
      · omega
      · rw [if_pos hlookup]
        exact ⟨hm, hwaits m hm⟩
    · show get (pipelineClosePipes pipes u.table) fd = get table fd
      rw [hu.table, hopened.close]
    · rcases h with rfl | ⟨-, hterminal, -⟩
      · rfl
      · rw [hterminal, Bool.and_false]

theorem external_cleaned (a : Answers) (table : Table (Mid.Launch.File φ)) (sigint sigquit : Disp)
    (hrc : (executeExternal a (idle table sigint sigquit)).2.rc = -1) :
    Cleaned (idle table sigint sigquit) (executeExternal a (idle table sigint sigquit)).1 := by
  unfold executeExternal at hrc ⊢
  cases hfound : a.notFound 0 with
  | some code => exact ⟨by simp [idle], fun _ => rfl, rfl, rfl, rfl⟩
  | none =>
      by_cases hfork : a.forkFails 0 = true
      · simp only [if_pos hfork]
        exact ⟨by simp [idle, pipelineRestoreSignals, ignoreSignals], fun _ => rfl, rfl, rfl, rfl⟩
      · simp [hfound, hfork] at hrc

/-- **When a pipeline that does not start cleans up.** -/
theorem cleaned_iff (a : Answers) (hook : Bool) (n : Nat) (table : Table (Mid.Launch.File φ))
    (sigint sigquit : Disp) :
    ((executePipelineWithHook a hook n (idle table sigint sigquit)).2.rc = -1 →
      Cleaned (idle table sigint sigquit)
        (executePipelineWithHook a hook n (idle table sigint sigquit)).1) ↔
      CanCleanUp a hook n := by
  have hidle (t : Table (Mid.Launch.File φ)) (h : ∀ fd, get t fd = get table fd) :
      Cleaned (idle table sigint sigquit) { idle table sigint sigquit with table := t } :=
    ⟨by simp [idle], h, rfl, rfl, rfl⟩
  unfold executePipelineWithHook
  by_cases hzero : n = 0
  · rw [if_pos hzero]
    exact iff_of_true (fun _ => hidle table fun _ => rfl) (.inl (by omega))
  rw [if_neg hzero]
  by_cases hone : n = 1
  · rw [if_pos hone]
    exact iff_of_true (external_cleaned a table sigint sigquit) (.inl (by omega))
  rw [if_neg hone]
  have hn : 2 ≤ n := by omega
  by_cases hmemory : a.noMemory = true
  · rw [if_pos hmemory]
    exact iff_of_true (fun _ => hidle table fun _ => rfl) (.inr (.inl hmemory))
  rw [if_neg hmemory]
  have hstart : Opened table table [] := ⟨fun fd hfd => by simp [ends] at hfd, fun _ _ => rfl⟩
  obtain ⟨hfails, hopened, hback⟩ := openPipes_spec a (n - 1) 0 hstart
  have htable : (idle table sigint sigquit).table = table := rfl
  rw [htable]
  generalize openPipes a (n - 1) 0 [] table = r at *
  obtain ⟨t, pipes⟩ := r
  cases pipes with
  | none =>
      obtain ⟨i, hi, hpipe⟩ := hfails.mp rfl
      rw [Nat.zero_add] at hpipe
      exact iff_of_true (fun _ => hidle t (hback rfl)) (.inr (.inr (.inl ⟨i, hi, hpipe⟩)))
  | some pipes =>
      have hpipes : ¬ ∃ i < n - 1, a.pipeFails i = true := by
        rintro ⟨i, hi, hpipe⟩
        have hnone := hfails.mpr ⟨i, hi, by rwa [Nat.zero_add]⟩
        simp at hnone
      have hstarted : Started a 0 { idle table sigint sigquit with table := t }
          (ignoreSignals a { idle table sigint sigquit with table := t }) := ⟨rfl, rfl, rfl⟩
      rcases startStages_spec a hook pipes (sigint, sigquit) n 0 hstarted with
        ⟨u, hrun, hall⟩ | ⟨j, r, u, -, hj, hfail, hfirst, hu, hrun, hr⟩
      · -- All the stages start, and the result is 0.
        refine iff_of_true (fun hrc => ?_) (.inr (.inr (.inr fun i hi hfail => ?_)))
        · simp only [idle] at hrun hrc
          simp only [hrun] at hrc
          contradiction
        · rw [hall i (by omega) (Nat.zero_le i)] at hfail
          contradiction
      · have habort : Cleaned (idle table sigint sigquit) _ ↔ _ :=
          cleaned_abort_iff (hopened pipes rfl) hu hfail
        have hcan : CanCleanUp a hook n ↔ _ :=
          canCleanUp_of_fails hn hmemory hpipes (by rwa [Nat.zero_add] at hj) hfail
            fun m hm => hfirst m hm (Nat.zero_le m)
        rw [hcan, ← habort]
        simp only [idle] at hrun ⊢
        simp only [hrun, hr, forall_const]

/-- The second `fork` of a pipeline fails: the child of the first stage is still there. -/
theorem children_kept :
    ¬ ∀ (a : Answers) (hook : Bool) (n : Nat) (table : Table (Mid.Launch.File Nat)),
      (executePipelineWithHook a hook n (idle table .dfl .dfl)).2.rc = -1 →
        Cleaned (idle table .dfl .dfl)
          (executePipelineWithHook a hook n (idle table .dfl .dfl)).1 := by
  intro h
  have hchildren := (h { forkFails := fun i => i == 1 } true 2 [] (by decide)).children
  revert hchildren
  decide

end Petrush.Verified.Launching

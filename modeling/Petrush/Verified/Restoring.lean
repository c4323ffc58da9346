import Petrush.Foundation.Process
import Petrush.Mid.Redirs

/-!
# A builtin gives the descriptors back

`run_builtin_with_redirs` saves the standard descriptors a command redirects, redirects
them one after another, and puts back what it saved, wherever it stops.  Only the `dup2`s
that put them back are not looked at: one that fails leaves the shell with the file of
the command.

## Main results

* `petrushApplyRedirs_table`: what the redirections leave, at every point of failure.
* `petrushApplyRedirs_isSome`: they succeed as the redirections of a child do.
* `restoreSavedFds_table`: what is put back.
* `restored_iff`: a whole run.
-/

namespace Petrush.Verified.Restoring

open Petrush.Foundation
open Petrush.Foundation.Process (Fds Opening applyStdin openFile redirStderr redirStdin redirStdout
  writing)
open Petrush.Lib.Descriptors
open Petrush.Mid.Ast
open Petrush.Mid.Redirs

variable {φ : Type}

/-- The standard descriptors are open. -/
def StandardOpen (t : Table φ) : Prop := ∀ fd < 3, get t fd ≠ none

/-! ## Redirections -/

section Redirections

variable (f : Faults) (cmd : Cmd)

/-- The here-document can be made. -/
def hereOk : Bool := !(f.memfd && f.tmpfile && f.mkstemp) && !f.hereWrite && !f.hereSeek

/-- The redirection of the standard input succeeds, or there is none. -/
def inOk : Bool :=
  if cmd.hereBody.isSome then hereOk f && !f.dup2In
  else if cmd.hereDelim.isSome then false
  else if cmd.redirIn.isSome then !f.openIn && !f.dup2In
  else true

def outOk : Bool := if cmd.redirOut.isSome then !f.openOut && !f.dup2Out else true

def errOk : Bool :=
  if cmd.redirErr.isSome then !f.openErr && !f.dup2Err
  else if cmd.redirErrToOut then !f.dup2Err
  else true

/-- A file was opened, or nothing has happened. -/
def Opens (t : Table (File φ)) (file : File φ) (ok : Bool) (r : Table (File φ) × Option Nat) :
    Prop :=
  if ok then r = ((alloc t file).1, some (free t)) else r.2 = none ∧ ∀ i, get r.1 i = get t i

theorem get_close_alloc (t : Table (File φ)) (file : File φ) (i : Nat) :
    get (close (alloc t file).1 (free t)) i = get t i := by
  simp only [close, alloc, get_put]
  split
  · next h => rw [h, get_free]
  · rfl

theorem openFd_opens (fails : Bool) (file : File φ) (t : Table (File φ)) :
    Opens t file (!fails) (openFd fails file t) := by
  cases fails with
  | true => exact ⟨rfl, fun _ => rfl⟩
  | false => rfl

theorem openHeredocFd_opens (t : Table (File φ)) :
    Opens t .input (hereOk f) (openHeredocFd f t) := by
  unfold hereOk openHeredocFd
  by_cases hmake : (f.memfd && f.tmpfile && f.mkstemp) = true
  · simp only [hmake, Bool.not_true, Bool.false_and, if_true]
    exact ⟨rfl, fun _ => rfl⟩
  · simp only [hmake, Bool.not_false, Bool.true_and, Bool.false_eq_true, if_false]
    cases f.hereWrite with
    | true => exact ⟨rfl, get_close_alloc t .input⟩
    | false =>
        cases f.hereSeek with
        | true => exact ⟨rfl, get_close_alloc t .input⟩
        | false => rfl

/-- A file is moved to a standard descriptor, or everything is as before. -/
theorem moveTo_table {t : Table (File φ)} (hopen : StandardOpen t) {target : Nat} (htarget : target < 3)
    {file : File φ} {ok : Bool} {r : Table (File φ) × Option Nat} (h : Opens t file ok r)
    (fails : Bool) :
    (moveTo fails target r).2 = (ok && !fails) ∧
      ∀ i, get (moveTo fails target r).1 i =
        if (ok && !fails) = true ∧ i = target then some file else get t i := by
  obtain ⟨u, fd⟩ := r
  cases ok with
  | false =>
      obtain ⟨rfl, hget⟩ := h
      exact ⟨rfl, by simpa [moveTo] using hget⟩
  | true =>
      obtain ⟨rfl, rfl⟩ := Prod.mk.inj h
      have hne : target ≠ free t := ne_free (hopen target htarget)
      cases fails with
      | true => exact ⟨rfl, by simpa [moveTo] using get_close_alloc t file⟩
      | false =>
          refine ⟨rfl, fun i => ?_⟩
          simp only [moveTo, Bool.false_eq_true, if_false, close, dup2, alloc, get_put, Bool.not_false,
            Bool.and_true, true_and, if_true]
          by_cases hi : i = free t
          · rw [if_pos hi, if_neg (by omega), hi, get_free]
          · rw [if_neg hi, if_neg hi]

/-- The standard input is replaced. -/
def replacesIn : Bool := needsIn cmd && inOk f cmd

/-- The standard output is. -/
def replacesOut : Bool := cmd.redirOut.isSome && inOk f cmd && outOk f cmd

/-- The standard error is. -/
def replacesErr : Bool := needsErr cmd && inOk f cmd && outOk f cmd && errOk f cmd

/-- What the standard error refers to then. -/
def errFile (t : Table (File φ)) : Option (File φ) :=
  if cmd.redirErr.isSome then some .error
  else if cmd.redirOut.isSome then some .output
  else get t 1

theorem applyIn_table {t : Table (File φ)} (hopen : StandardOpen t) :
    (applyIn f cmd t).2 = inOk f cmd ∧ ∀ i, get (applyIn f cmd t).1 i =
      if replacesIn f cmd = true ∧ i = 0 then some .input else get t i := by
  unfold applyIn replacesIn needsIn inOk
  by_cases hbody : cmd.hereBody.isSome = true
  · simpa [hbody] using moveTo_table hopen (by decide) (openHeredocFd_opens f t) f.dup2In
  · by_cases hdelim : cmd.hereDelim.isSome = true
    · simp [hbody, hdelim]
    · by_cases hin : cmd.redirIn.isSome = true
      · simpa [hbody, hdelim, hin] using
          moveTo_table hopen (by decide) (openFd_opens f.openIn .input t) f.dup2In
      · simp [hbody, hdelim, hin]

theorem applyOut_table {t : Table (File φ)} (hopen : StandardOpen t) :
    (applyOut f cmd t).2 = outOk f cmd ∧ ∀ i, get (applyOut f cmd t).1 i =
      if (cmd.redirOut.isSome && outOk f cmd) = true ∧ i = 1 then some .output else get t i := by
  unfold applyOut outOk
  by_cases hout : cmd.redirOut.isSome = true
  · simpa [hout] using moveTo_table hopen (by decide) (openFd_opens f.openOut .output t) f.dup2Out
  · simp [hout]

theorem applyErr_table {t : Table (File φ)} (hopen : StandardOpen t) :
    (applyErr f cmd t).2 = errOk f cmd ∧ ∀ i, get (applyErr f cmd t).1 i =
      if (needsErr cmd && errOk f cmd) = true ∧ i = 2 then
        (if cmd.redirErr.isSome then some .error else get t 1)
      else get t i := by
  unfold applyErr needsErr errOk
  by_cases herr : cmd.redirErr.isSome = true
  · simpa [herr] using moveTo_table hopen (by decide) (openFd_opens f.openErr .error t) f.dup2Err
  · by_cases hmerge : cmd.redirErrToOut = true
    · cases hdup : f.dup2Err with
      | true => simp [herr, hmerge]
      | false => simp [herr, hmerge, dup2, get_put]
    · simp [herr, hmerge]

theorem standardOpen_of {t u : Table (File φ)} (hopen : StandardOpen t)
    (h : ∀ i, get u i = get t i ∨ get u i ≠ none) : StandardOpen u := by
  intro fd hfd
  rcases h fd with heq | hne
  · rw [heq]
    exact hopen fd hfd
  · exact hne

/-- **The redirections**, wherever they stop. -/
theorem petrushApplyRedirs_table {t : Table (File φ)} (hopen : StandardOpen t) :
    (petrushApplyRedirs f cmd t).2 = (inOk f cmd && outOk f cmd && errOk f cmd) ∧
      ∀ i, get (petrushApplyRedirs f cmd t).1 i =
        if replacesIn f cmd = true ∧ i = 0 then some .input
        else if replacesOut f cmd = true ∧ i = 1 then some .output
        else if replacesErr f cmd = true ∧ i = 2 then errFile cmd t
        else get t i := by
  obtain ⟨hin, hinTable⟩ := applyIn_table f cmd hopen
  have hopenIn : StandardOpen (applyIn f cmd t).1 := by
    apply standardOpen_of hopen
    intro i
    rw [hinTable]
    split_ifs <;> simp
  obtain ⟨hout, houtTable⟩ := applyOut_table f cmd hopenIn
  have hopenOut : StandardOpen (applyOut f cmd (applyIn f cmd t).1).1 := by
    apply standardOpen_of hopenIn
    intro i
    rw [houtTable]
    split_ifs <;> simp
  obtain ⟨herr, herrTable⟩ := applyErr_table f cmd hopenOut
  unfold petrushApplyRedirs andThen replacesOut replacesErr errFile
  cases hi : inOk f cmd with
  | false =>
      rw [hi] at hin
      simp [hin, hinTable, replacesIn, hi]
  | true =>
      rw [hi] at hin
      cases ho : outOk f cmd with
      | false =>
          rw [ho] at hout
          simp [hin, hout, hinTable, houtTable, replacesIn, hi, ho]
      | true =>
          rw [ho] at hout
          refine ⟨by simp [hin, hout, herr], fun i => ?_⟩
          simp only [hin, hout, herrTable, houtTable, hinTable, if_true, replacesIn, hi, ho,
            Bool.and_true]
          by_cases htwo : i = 2
          · subst htwo
            cases cmd.redirOut.isSome <;> simp
          · simp only [htwo, and_false, if_false]
            by_cases hone : i = 1
            · simp [hone]
            · simp [hone]

end Redirections

/-! ## The redirections of a child -/

section Child

variable (opens : List Opening → Bool) (cmd : Cmd)

/-- What is opened for the standard input. -/
def inOpening : Option Opening :=
  match applyStdin cmd with
  | some (.body text) => some (.body text)
  | some (.path path) => some (.read path)
  | _ => none

/-- What is opened for the standard output, and for the standard error. -/
def outOpening : Option Opening := cmd.redirOut.map (writing cmd.redirAppend)

def errOpening : Option Opening := cmd.redirErr.map (writing cmd.redirErrAppend)

/-- The openings that fail, of all the calls that could. -/
def openingFaults : Faults where
  hereWrite := !opens (inOpening cmd).toList
  openIn := !opens (inOpening cmd).toList
  openOut := !opens ((outOpening cmd).toList ++ (inOpening cmd).toList)
  openErr := !opens ((errOpening cmd).toList ++ (outOpening cmd).toList ++ (inOpening cmd).toList)

theorem redirStdin_made (fds : Fds) : (redirStdin opens cmd fds).map Prod.snd =
    if inOk (openingFaults opens cmd) cmd then some (inOpening cmd).toList else none := by
  unfold redirStdin inOk hereOk openingFaults inOpening applyStdin openFile
  cases cmd.hereBody with
  | some body => cases hopens : opens [.body body] <;> simp [hopens]
  | none =>
      cases cmd.hereDelim with
      | some delim => simp
      | none =>
          cases cmd.redirIn with
          | some path => cases hopens : opens [.read path] <;> simp [hopens]
          | none => simp

theorem redirStdout_made (fds : Fds) : (redirStdout opens cmd fds (inOpening cmd).toList).map Prod.snd =
    if outOk (openingFaults opens cmd) cmd then
      some ((outOpening cmd).toList ++ (inOpening cmd).toList)
    else none := by
  unfold redirStdout outOk openingFaults outOpening openFile
  cases cmd.redirOut with
  | none => simp
  | some path =>
      cases hopens : opens (writing cmd.redirAppend path :: (inOpening cmd).toList) <;>
        simp [hopens]

theorem redirStderr_isSome (fds : Fds) :
    (redirStderr opens cmd fds ((outOpening cmd).toList ++ (inOpening cmd).toList)).isSome =
      errOk (openingFaults opens cmd) cmd := by
  unfold redirStderr errOk openingFaults errOpening openFile
  cases cmd.redirErr with
  | none => simp
  | some path =>
      cases hopens : opens (writing cmd.redirErrAppend path ::
          ((outOpening cmd).toList ++ (inOpening cmd).toList)) <;>
        simp [hopens]

/-- The redirections on the table succeed as those on the three descriptors do. -/
theorem petrushApplyRedirs_isSome (fds : Fds) {φ : Type} {t : Table (File φ)}
    (hopen : StandardOpen t) :
    (Process.petrushApplyRedirs opens cmd fds).isSome =
      (Mid.Redirs.petrushApplyRedirs (openingFaults opens cmd) cmd t).2 := by
  rw [(petrushApplyRedirs_table _ cmd hopen).1]
  have hin := redirStdin_made opens cmd fds
  unfold Process.petrushApplyRedirs
  cases hstdin : redirStdin opens cmd fds with
  | none =>
      have hno : inOk (openingFaults opens cmd) cmd = false := by simpa [hstdin] using hin
      simp [hno]
  | some r =>
      obtain ⟨fds₁, made⟩ := r
      obtain ⟨hyes, rfl⟩ : inOk (openingFaults opens cmd) cmd = true ∧ (inOpening cmd).toList = made := by
        simpa [hstdin] using hin.symm
      have hout := redirStdout_made opens cmd fds₁
      cases hstdout : redirStdout opens cmd fds₁ (inOpening cmd).toList with
      | none =>
          have hno : outOk (openingFaults opens cmd) cmd = false := by simpa [hstdout] using hout
          simp [hstdout, hno]
      | some r =>
          obtain ⟨fds₂, made⟩ := r
          obtain ⟨hyes', rfl⟩ : outOk (openingFaults opens cmd) cmd = true ∧
              (outOpening cmd).toList ++ (inOpening cmd).toList = made := by
            simpa [hstdout] using hout.symm
          simp [hstdout, hyes, hyes', redirStderr_isSome]

end Child

/-! ## Saving and restoring -/

/-- The saved descriptor, if any, was free and refers to the file of `k`. -/
def Copy (t u : Table (File φ)) (k : Nat) (saved : Option Nat) : Prop :=
  ∀ fd, saved = some fd → 3 ≤ fd ∧ get t fd = none ∧ get u fd = get t k

/-- Between the saves and the restoration: the saved descriptors are apart, and no other
has been opened. -/
structure Saved (t u : Table (File φ)) (savedIn savedOut savedErr : Option Nat) : Prop where
  input : Copy t u 0 savedIn
  output : Copy t u 1 savedOut
  error : Copy t u 2 savedErr
  inOut : ∀ fd, savedIn = some fd → savedOut ≠ some fd
  inErr : ∀ fd, savedIn = some fd → savedErr ≠ some fd
  outErr : ∀ fd, savedOut = some fd → savedErr ≠ some fd
  others : ∀ i, 3 ≤ i → savedIn ≠ some i → savedOut ≠ some i → savedErr ≠ some i →
    get u i = get t i

/-- What a standard descriptor refers to behind its restoration. -/
def putBack (fails : Bool) (saved : Option Nat) (was now : Option (File φ)) : Option (File φ) :=
  if saved.isSome && !fails then was else now

section OneRestoration

variable (fails : Bool) {saved : Option Nat} {k : Nat} (t : Table (File φ))

/-- The saved descriptor is closed. -/
theorem get_restore_saved {fd : Nat} (h : saved = some fd) : get (restore fails saved k t) fd = none := by
  simp [h, restore, close, get_put]

theorem get_restore_target {was : Option (File φ)}
    (h : ∀ fd, saved = some fd → fd ≠ k ∧ get t fd = was) :
    get (restore fails saved k t) k = putBack fails saved was (get t k) := by
  cases saved with
  | none => simp [restore, putBack]
  | some fd =>
      obtain ⟨hne, rfl⟩ := h fd rfl
      cases fails <;> simp [restore, putBack, close, dup2, get_put, Ne.symm hne]

theorem get_restore_other {i : Nat} (hsaved : saved ≠ some i) (hi : i ≠ k) :
    get (restore fails saved k t) i = get t i := by
  cases saved with
  | none => rfl
  | some fd =>
      have hne : i ≠ fd := fun heq => hsaved (heq ▸ rfl)
      cases fails <;> simp [restore, close, dup2, get_put, hne, hi]

end OneRestoration

section Restoration

variable (f : Faults) {t u : Table (File φ)} {savedIn savedOut savedErr : Option Nat}

/-- **The restoration** closes what was saved, and puts back what it may. -/
theorem restoreSavedFds_table (h : Saved t u savedIn savedOut savedErr) (i : Nat) :
    get (restoreSavedFds f savedIn savedOut savedErr u) i =
      if i = 0 then putBack f.restoreIn savedIn (get t 0) (get u 0)
      else if i = 1 then putBack f.restoreOut savedOut (get t 1) (get u 1)
      else if i = 2 then putBack f.restoreErr savedErr (get t 2) (get u 2)
      else get t i := by
  -- A saved descriptor is none of the standard ones.
  have hlow (k : Nat) (hk : k < 3) : savedIn ≠ some k ∧ savedOut ≠ some k ∧ savedErr ≠ some k := by
    refine ⟨fun hs => ?_, fun hs => ?_, fun hs => ?_⟩
    · have := (h.input k hs).1
      omega
    · have := (h.output k hs).1
      omega
    · have := (h.error k hs).1
      omega
  unfold restoreSavedFds
  by_cases hzero : i = 0
  · subst hzero
    obtain ⟨-, hnout, hnerr⟩ := hlow 0 (by decide)
    rw [get_restore_other _ _ hnerr (by decide), get_restore_other _ _ hnout (by decide), if_pos rfl]
    apply get_restore_target
    intro fd hfd
    obtain ⟨hge, -, hcopy⟩ := h.input fd hfd
    exact ⟨by omega, hcopy⟩
  · rw [if_neg hzero]
    by_cases hone : i = 1
    · subst hone
      obtain ⟨hnin, -, hnerr⟩ := hlow 1 (by decide)
      have hnow : get u 1 = get (restore f.restoreIn savedIn 0 u) 1 :=
        (get_restore_other _ _ hnin (by decide)).symm
      rw [get_restore_other _ _ hnerr (by decide), if_pos rfl, hnow]
      apply get_restore_target
      intro fd hfd
      obtain ⟨hge, -, hcopy⟩ := h.output fd hfd
      refine ⟨by omega, ?_⟩
      rw [get_restore_other _ _ (fun hs => h.inOut fd hs hfd) (by omega), hcopy]
    · rw [if_neg hone]
      by_cases htwo : i = 2
      · subst htwo
        obtain ⟨hnin, hnout, -⟩ := hlow 2 (by decide)
        have hnow : get u 2 =
            get (restore f.restoreOut savedOut 1 (restore f.restoreIn savedIn 0 u)) 2 := by
          rw [get_restore_other _ _ hnout (by decide), get_restore_other _ _ hnin (by decide)]
        rw [if_pos rfl, hnow]
        apply get_restore_target
        intro fd hfd
        obtain ⟨hge, -, hcopy⟩ := h.error fd hfd
        refine ⟨by omega, ?_⟩
        rw [get_restore_other _ _ (fun hs => h.outErr fd hs hfd) (by omega),
          get_restore_other _ _ (fun hs => h.inErr fd hs hfd) (by omega), hcopy]
      · rw [if_neg htwo]
        by_cases hserr : savedErr = some i
        · rw [get_restore_saved _ _ hserr, (h.error i hserr).2.1]
        · rw [get_restore_other _ _ hserr htwo]
          by_cases hsout : savedOut = some i
          · rw [get_restore_saved _ _ hsout, (h.output i hsout).2.1]
          · rw [get_restore_other _ _ hsout hone]
            by_cases hsin : savedIn = some i
            · rw [get_restore_saved _ _ hsin, (h.input i hsin).2.1]
            · rw [get_restore_other _ _ hsin hzero,
                h.others i (by omega) hsin hsout hserr]

end Restoration

section Saving

variable {t u : Table (File φ)}

/-- What a save does: a descriptor that was free refers to the file of `k`. -/
structure SaveStep (t u : Table (File φ)) (k : Nat) (needed : Bool) (saved : Option Nat) : Prop where
  isSome : saved.isSome = needed
  fresh : ∀ fd, saved = some fd → fd = free t
  table : ∀ i, get u i = if saved = some i then get t k else get t i

theorem save_step (hopen : StandardOpen t) {needed fails : Bool} {k : Nat} (hk : k < 3)
    (h : ¬ (needed = true ∧ fails = true)) :
    ∃ u saved, save needed fails k t = some (u, saved) ∧ SaveStep t u k needed saved := by
  cases needed with
  | false => exact ⟨t, none, rfl, rfl, fun fd hfd => by simp at hfd, fun i => by simp⟩
  | true =>
      obtain ⟨file, hfile⟩ := Option.ne_none_iff_exists'.mp (hopen k hk)
      have hfails : fails = false := by simpa using h
      refine ⟨put t (free t) (some file), some (free t), ?_, rfl, fun fd hfd => ?_, fun i => ?_⟩
      · simp [save, hfails, dup, hfile, alloc]
      · exact (Option.some.inj hfd).symm
      · simp only [get_put, hfile, Option.some.injEq, eq_comm]

theorem save_refused {needed fails : Bool} (h : needed = true ∧ fails = true) (k : Nat) :
    save needed fails k t = none := by
  simp [save, h.1, h.2]

theorem SaveStep.standardOpen {k : Nat} {needed : Bool} {saved : Option Nat} (hopen : StandardOpen t)
    (hk : k < 3) (h : SaveStep t u k needed saved) : StandardOpen u := by
  apply standardOpen_of hopen
  intro i
  rw [h.table]
  split
  · exact Or.inr (hopen k hk)
  · exact Or.inl rfl

/-- The standard descriptors are not touched by a save. -/
theorem SaveStep.standard {k : Nat} {needed : Bool} {saved : Option Nat} (hopen : StandardOpen t)
    (h : SaveStep t u k needed saved) {i : Nat} (hi : i < 3) : get u i = get t i := by
  rw [h.table, if_neg]
  intro hs
  exact ne_free (hopen i hi) (h.fresh i hs)

/-- What is open stays, and is not the saved descriptor. -/
theorem SaveStep.keeps {k : Nat} {needed : Bool} {saved : Option Nat}
    (h : SaveStep t u k needed saved) {i : Nat} (hi : get t i ≠ none) :
    saved ≠ some i ∧ get u i = get t i := by
  have hne : saved ≠ some i := fun hs => ne_free hi (h.fresh i hs)
  exact ⟨hne, by rw [h.table, if_neg hne]⟩

/-- What is free was free. -/
theorem SaveStep.free_of {k : Nat} {needed : Bool} {saved : Option Nat} (hopen : StandardOpen t)
    (hk : k < 3) (h : SaveStep t u k needed saved) {i : Nat} (hi : get u i = none) :
    get t i = none := by
  rw [h.table] at hi
  split at hi
  · exact absurd hi (hopen k hk)
  · exact hi

theorem SaveStep.copy {k : Nat} {needed : Bool} {saved : Option Nat}
    (h : SaveStep t u k needed saved) {fd : Nat} (hfd : saved = some fd) : get u fd = get t k := by
  rw [h.table, if_pos hfd]

/-- No save, where none is needed. -/
theorem SaveStep.none (t : Table (File φ)) (k : Nat) : SaveStep t t k false none :=
  ⟨rfl, fun fd hfd => by simp at hfd, fun i => by simp⟩

/-- The saves one after another. -/
theorem saved_of_steps {t₁ t₂ t₃ : Table (File φ)} {n₀ n₁ n₂ : Bool} {s₀ s₁ s₂ : Option Nat}
    (hopen : StandardOpen t) (h₀ : SaveStep t t₁ 0 n₀ s₀) (h₁ : SaveStep t₁ t₂ 1 n₁ s₁)
    (h₂ : SaveStep t₂ t₃ 2 n₂ s₂) : Saved t t₃ s₀ s₁ s₂ := by
  have hopen₁ := h₀.standardOpen hopen (by decide)
  have hopen₂ := h₁.standardOpen hopen₁ (by decide)
  have hfirst (fd : Nat) (hfd : s₀ = some fd) :
      get t₁ fd ≠ Option.none ∧ get t₂ fd ≠ Option.none := by
    have hne : get t₁ fd ≠ Option.none := by
      rw [h₀.copy hfd]
      exact hopen 0 (by decide)
    exact ⟨hne, by rw [(h₁.keeps hne).2]; exact hne⟩
  have hsecond (fd : Nat) (hfd : s₁ = some fd) : get t₂ fd ≠ Option.none := by
    rw [h₁.copy hfd]
    exact hopen₁ 1 (by decide)
  refine ⟨fun fd hfd => ?_, fun fd hfd => ?_, fun fd hfd => ?_, fun fd hfd => ?_, fun fd hfd => ?_,
    fun fd hfd => ?_, fun i hi hs₀ hs₁ hs₂ => ?_⟩
  · obtain ⟨hne₁, hne₂⟩ := hfirst fd hfd
    have hfree := h₀.fresh fd hfd
    refine ⟨by rw [hfree]; exact three_le_free hopen, by rw [hfree, get_free], ?_⟩
    rw [(h₂.keeps hne₂).2, (h₁.keeps hne₁).2, h₀.copy hfd]
  · have hfree := h₁.fresh fd hfd
    refine ⟨by rw [hfree]; exact three_le_free hopen₁, ?_, ?_⟩
    · exact h₀.free_of hopen (by decide) (by rw [hfree, get_free])
    · rw [(h₂.keeps (hsecond fd hfd)).2, h₁.copy hfd, h₀.standard hopen (by decide)]
  · have hfree := h₂.fresh fd hfd
    have hnone : get t₂ fd = Option.none := by rw [hfree, get_free]
    refine ⟨by rw [hfree]; exact three_le_free hopen₂, ?_, ?_⟩
    · exact h₀.free_of hopen (by decide) (h₁.free_of hopen₁ (by decide) hnone)
    · rw [h₂.copy hfd, h₁.standard hopen₁ (by decide), h₀.standard hopen (by decide)]
  · exact (h₁.keeps (hfirst fd hfd).1).1
  · exact (h₂.keeps (hfirst fd hfd).2).1
  · exact (h₂.keeps (hsecond fd hfd)).1
  · rw [h₂.table, if_neg hs₂, h₁.table, if_neg hs₁, h₀.table, if_neg hs₀]

/-- What happens to the standard descriptors alone leaves the saves as they are. -/
theorem Saved.above {t₃ : Table (File φ)} {s₀ s₁ s₂ : Option Nat} (h : Saved t t₃ s₀ s₁ s₂)
    (hu : ∀ i, 3 ≤ i → get u i = get t₃ i) : Saved t u s₀ s₁ s₂ where
  input fd hfd := by
    obtain ⟨hge, hnone, hcopy⟩ := h.input fd hfd
    exact ⟨hge, hnone, by rw [hu fd hge, hcopy]⟩
  output fd hfd := by
    obtain ⟨hge, hnone, hcopy⟩ := h.output fd hfd
    exact ⟨hge, hnone, by rw [hu fd hge, hcopy]⟩
  error fd hfd := by
    obtain ⟨hge, hnone, hcopy⟩ := h.error fd hfd
    exact ⟨hge, hnone, by rw [hu fd hge, hcopy]⟩
  inOut := h.inOut
  inErr := h.inErr
  outErr := h.outErr
  others i hi h₀ h₁ h₂ := by rw [hu i hi, h.others i hi h₀ h₁ h₂]

end Saving

/-! ## A run -/

section Run

variable (f : Faults) (fn : Table (File φ) → Int) (cmd : Cmd)

/-- No save that is needed fails. -/
def savesOk : Bool :=
  !(needsIn cmd && f.saveIn) && !(cmd.redirOut.isSome && f.saveOut) && !(needsErr cmd && f.saveErr)

/-- All redirections succeed. -/
def redirected : Bool := savesOk f cmd && inOk f cmd && outOk f cmd && errOk f cmd

theorem putBack_same (fails : Bool) (saved : Option Nat) (was : Option (File φ)) :
    putBack fails saved was was = was := by
  unfold putBack
  split <;> rfl

/-- A save fails: everything is as before. -/
theorem restore_early {t u : Table (File φ)} {s₀ s₁ s₂ : Option Nat} (h : Saved t u s₀ s₁ s₂)
    (hu : ∀ i < 3, get u i = get t i) (i : Nat) :
    get (restoreSavedFds f s₀ s₁ s₂ u) i = get t i := by
  rw [restoreSavedFds_table f h, hu 0 (by decide), hu 1 (by decide), hu 2 (by decide)]
  simp only [putBack_same]
  split_ifs with h0 h1 h2
  · rw [h0]
  · rw [h1]
  · rw [h2]
  · rfl

/-- What is put back, of a descriptor that is replaced or not. -/
theorem putBack_eq (fails : Bool) {saved : Option Nat} {needed replaced : Bool}
    (was file : Option (File φ)) (hsome : saved.isSome = needed)
    (hneeded : replaced = true → needed = true) :
    putBack fails saved was (if replaced then file else was) =
      if replaced && fails then file else was := by
  unfold putBack
  rw [hsome]
  cases replaced with
  | false => simp
  | true =>
      rw [hneeded rfl]
      cases fails <;> rfl

theorem needsIn_of_replacesIn (h : replacesIn f cmd = true) : needsIn cmd = true :=
  (Bool.and_eq_true_iff.mp h).1

theorem redirOut_of_replacesOut (h : replacesOut f cmd = true) : cmd.redirOut.isSome = true := by
  simp only [replacesOut, Bool.and_eq_true] at h
  exact h.1.1

theorem needsErr_of_replacesErr (h : replacesErr f cmd = true) : needsErr cmd = true := by
  simp only [replacesErr, Bool.and_eq_true] at h
  exact h.1.1.1

theorem errFile_congr {t u : Table (File φ)} (h : get u 1 = get t 1) :
    errFile cmd u = errFile cmd t := by
  unfold errFile
  rw [h]

/-- What is left behind all saves and the redirections. -/
theorem restore_late {t t₁ t₂ t₃ : Table (File φ)} {s₀ s₁ s₂ : Option Nat} (hopen : StandardOpen t)
    (h₀ : SaveStep t t₁ 0 (needsIn cmd) s₀) (h₁ : SaveStep t₁ t₂ 1 cmd.redirOut.isSome s₁)
    (h₂ : SaveStep t₂ t₃ 2 (needsErr cmd) s₂) (i : Nat) :
    get (restoreSavedFds f s₀ s₁ s₂ (petrushApplyRedirs f cmd t₃).1) i =
      if (replacesIn f cmd && f.restoreIn) = true ∧ i = 0 then some .input
      else if (replacesOut f cmd && f.restoreOut) = true ∧ i = 1 then some .output
      else if (replacesErr f cmd && f.restoreErr) = true ∧ i = 2 then errFile cmd t
      else get t i := by
  have hopen₁ := h₀.standardOpen hopen (by decide)
  have hopen₂ := h₁.standardOpen hopen₁ (by decide)
  have hopen₃ := h₂.standardOpen hopen₂ (by decide)
  have hstandard (k : Nat) (hk : k < 3) : get t₃ k = get t k := by
    rw [h₂.standard hopen₂ hk, h₁.standard hopen₁ hk, h₀.standard hopen hk]
  obtain ⟨-, htable⟩ := petrushApplyRedirs_table f cmd hopen₃
  have hsaved : Saved t (petrushApplyRedirs f cmd t₃).1 s₀ s₁ s₂ := by
    apply (saved_of_steps hopen h₀ h₁ h₂).above
    intro k hk
    rw [htable, if_neg (by omega), if_neg (by omega), if_neg (by omega)]
  rw [restoreSavedFds_table f hsaved, htable 0, htable 1, htable 2]
  simp only [hstandard 0 (by decide), hstandard 1 (by decide), hstandard 2 (by decide),
    errFile_congr cmd (hstandard 1 (by decide)), and_true, OfNat.ofNat_ne_zero,
    OfNat.ofNat_ne_one, OfNat.zero_ne_ofNat, OfNat.one_ne_ofNat, one_ne_zero, zero_ne_one,
    and_false, if_false]
  rw [putBack_eq f.restoreIn _ _ h₀.isSome (needsIn_of_replacesIn f cmd),
    putBack_eq f.restoreOut _ _ h₁.isSome (redirOut_of_replacesOut f cmd),
    putBack_eq f.restoreErr _ _ h₂.isSome (needsErr_of_replacesErr f cmd)]
  by_cases hzero : i = 0
  · simp [hzero]
  · by_cases hone : i = 1
    · simp [hone]
    · by_cases htwo : i = 2
      · simp [htwo]
      · simp [hzero, hone, htwo]

/-- **A run**: what the standard descriptors refer to, and everything else is as before. -/
theorem runBuiltinWithRedirs_table {t : Table (File φ)} (hopen : StandardOpen t) :
    (∀ i, get (runBuiltinWithRedirs f fn cmd t).table i =
      if (savesOk f cmd && (replacesIn f cmd && f.restoreIn)) = true ∧ i = 0 then some .input
      else if (savesOk f cmd && (replacesOut f cmd && f.restoreOut)) = true ∧ i = 1 then some .output
      else if (savesOk f cmd && (replacesErr f cmd && f.restoreErr)) = true ∧ i = 2 then
        errFile cmd t
      else get t i) ∧
    (redirected f cmd = false → (runBuiltinWithRedirs f fn cmd t).body = none ∧
      (runBuiltinWithRedirs f fn cmd t).rc = 1) := by
  by_cases c₀ : needsIn cmd = true ∧ f.saveIn = true
  · have hok : savesOk f cmd = false := by simp [savesOk, c₀.1, c₀.2]
    simp [runBuiltinWithRedirs, redirected, hok, save_refused c₀]
  obtain ⟨t₁, s₀, hs₀, h₀⟩ := save_step hopen (k := 0) (by decide) c₀
  have hopen₁ := h₀.standardOpen hopen (by decide)
  by_cases c₁ : cmd.redirOut.isSome = true ∧ f.saveOut = true
  · have hok : savesOk f cmd = false := by simp [savesOk, c₁.1, c₁.2]
    have hback := restore_early f
      (saved_of_steps hopen h₀ (SaveStep.none t₁ 1) (SaveStep.none t₁ 2))
      fun i hi => h₀.standard hopen hi
    simp [runBuiltinWithRedirs, redirected, hok, hs₀, save_refused c₁, hback]
  obtain ⟨t₂, s₁, hs₁, h₁⟩ := save_step hopen₁ (k := 1) (by decide) c₁
  have hopen₂ := h₁.standardOpen hopen₁ (by decide)
  by_cases c₂ : needsErr cmd = true ∧ f.saveErr = true
  · have hok : savesOk f cmd = false := by simp [savesOk, c₂.1, c₂.2]
    have hback := restore_early f (saved_of_steps hopen h₀ h₁ (SaveStep.none t₂ 2))
      fun i hi => (h₁.standard hopen₁ hi).trans (h₀.standard hopen hi)
    simp [runBuiltinWithRedirs, redirected, hok, hs₀, hs₁, save_refused c₂, hback]
  obtain ⟨t₃, s₂, hs₂, h₂⟩ := save_step hopen₂ (k := 2) (by decide) c₂
  have hopen₃ := h₂.standardOpen hopen₂ (by decide)
  have hok : savesOk f cmd = true := by
    simp only [savesOk, Bool.and_eq_true, Bool.not_eq_true', ← Bool.not_eq_true]
    exact ⟨⟨c₀, c₁⟩, c₂⟩
  have hr := (petrushApplyRedirs_table f cmd hopen₃).1
  have hlate := restore_late f cmd hopen h₀ h₁ h₂
  simp only [runBuiltinWithRedirs, redirected, hok, hs₀, hs₁, hs₂, hr, Bool.true_and]
  cases hall : inOk f cmd && outOk f cmd && errOk f cmd with
  | false => exact ⟨hlate, fun _ => ⟨rfl, rfl⟩⟩
  | true => exact ⟨hlate, fun h => by simp at h⟩

/-! ## The shell's descriptors -/

/-- The table of the shell before a run. -/
def before (t : Table φ) : Table (File φ) := t.map (Option.map .old)

theorem get_before (t : Table φ) (i : Nat) : get (before t) i = (get t i).map .old :=
  get_map File.old t i

theorem before_standardOpen {t : Table φ} (hopen : StandardOpen t) : StandardOpen (before t) := by
  intro fd hfd
  rw [get_before]
  simpa using hopen fd hfd

/-- The shell has its descriptors back, and the builtin runs only behind redirections that
all succeed. -/
structure Restored (t : Table φ) : Prop where
  standard : ∀ i < 3, get (runBuiltinWithRedirs f fn cmd (before t)).table i = get (before t) i
  closed : ∀ i, get (before t) i = none →
    get (runBuiltinWithRedirs f fn cmd (before t)).table i = none
  refused : redirected f cmd = false →
    (runBuiltinWithRedirs f fn cmd (before t)).body = none ∧
      (runBuiltinWithRedirs f fn cmd (before t)).rc ≠ 0

/-- Each `dup2` of the restoration succeeds where the command has replaced the file; or
the file that is left is the one it should be, as with `2>&1` while both are the same. -/
structure CanRestore (t : Table φ) : Prop where
  input : replacesIn f cmd = true → f.restoreIn = false
  output : replacesOut f cmd = true → f.restoreOut = false
  error : replacesErr f cmd = true → f.restoreErr = true →
    cmd.redirErr.isSome = false ∧ cmd.redirOut.isSome = false ∧ get t 1 = get t 2

/-- What the standard error is left with is the old file. -/
theorem errFile_before (t : Table φ) (hopen : StandardOpen t) :
    errFile cmd (before t) = get (before t) 2 ↔
      cmd.redirErr.isSome = false ∧ cmd.redirOut.isSome = false ∧ get t 1 = get t 2 := by
  obtain ⟨out, hout⟩ := Option.ne_none_iff_exists'.mp (hopen 1 (by decide))
  obtain ⟨err, herr⟩ := Option.ne_none_iff_exists'.mp (hopen 2 (by decide))
  simp only [errFile, get_before, hout, herr]
  cases cmd.redirErr.isSome with
  | true => simp
  | false =>
      cases cmd.redirOut.isSome with
      | true => simp
      | false => simp

/-- **When the shell has its descriptors back**: always, unless a `dup2` that should
restore one fails. -/
theorem restored_iff (t : Table φ) (hopen : StandardOpen t) :
    Restored f fn cmd t ↔ (savesOk f cmd = true → CanRestore f cmd t) := by
  obtain ⟨htable, hrefused⟩ := runBuiltinWithRedirs_table f fn cmd (before_standardOpen hopen)
  have hold (i : Nat) (file : File φ) (hfile : ∀ v, file ≠ .old v) :
      some file ≠ get (before t) i := by
    rw [get_before]
    cases get t i with
    | none => simp
    | some v => simpa using hfile v
  constructor
  · intro h hok
    refine ⟨fun hin => ?_, fun hout => ?_, fun herr hfails => ?_⟩
    · by_contra hfails
      have hzero := h.standard 0 (by decide)
      rw [htable, if_pos ⟨by simp [hok, hin, hfails], rfl⟩] at hzero
      exact hold 0 .input (by simp) hzero
    · by_contra hfails
      have hone := h.standard 1 (by decide)
      rw [htable, if_neg (by simp), if_pos ⟨by simp [hok, hout, hfails], rfl⟩] at hone
      exact hold 1 .output (by simp) hone
    · have htwo := h.standard 2 (by decide)
      rw [htable, if_neg (by simp), if_neg (by simp),
        if_pos ⟨by simp [hok, herr, hfails], rfl⟩] at htwo
      exact (errFile_before cmd t hopen).mp htwo
  · intro h
    have hsame (i : Nat) : get (runBuiltinWithRedirs f fn cmd (before t)).table i =
        get (before t) i := by
      rw [htable]
      split_ifs with hin hout herr
      · simp only [Bool.and_eq_true] at hin
        simp [(h hin.1.1).input hin.1.2.1] at hin
      · simp only [Bool.and_eq_true] at hout
        simp [(h hout.1.1).output hout.1.2.1] at hout
      · simp only [Bool.and_eq_true] at herr
        rw [herr.2]
        exact (errFile_before cmd t hopen).mpr ((h herr.1.1).error herr.1.2.1 herr.1.2.2)
      · rfl
    refine ⟨fun i _ => hsame i, fun i hi => (hsame i).trans hi, fun hr => ?_⟩
    obtain ⟨hbody, hrc⟩ := hrefused hr
    exact ⟨hbody, by simp [hrc]⟩

end Run

/-! ## A restoration that fails -/

/-- `echo > f`. -/
def echoToFile : Cmd := { argv := [⟨"echo".toList, .unquoted⟩], redirOut := some "f".toList }

/-- `echo 2>&1`. -/
def echoMerged : Cmd := { argv := [⟨"echo".toList, .unquoted⟩], redirErrToOut := true }

/-- Of a shell on a terminal, nothing is lost where the error goes to the terminal too. -/
theorem restored_iff_merged :
    Restored { restoreErr := true } (fun _ => 0) echoMerged [some 0, some 0, some 0] :=
  (restored_iff { restoreErr := true } (fun _ => 0) echoMerged [some 0, some 0, some 0]
    (by unfold StandardOpen; decide)).mpr fun _ => ⟨by decide, by decide, by decide⟩

/-- The standard output of the shell stays the file of the command. -/
theorem output_kept :
    ¬ ∀ (f : Faults) (fn : Table (File Nat) → Int) (cmd : Cmd) (t : Table Nat), StandardOpen t →
      Restored f fn cmd t := by
  intro h
  have hout := (h { restoreOut := true } (fun _ => 0) echoToFile [some 0, some 1, some 2]
    (by unfold StandardOpen; decide)).standard 1 (by decide)
  revert hout
  decide

end Petrush.Verified.Restoring

import Petrush.Pudod.Model

/-!
# What `pudod` executes, and under which allow-lists its policy holds

The policy of the setuid boundary is `ExecPolicy`: when `main` reaches
`fexecve`, the list was trusted, the caller privileged, the command absolute,
its real path is that of the whole text of an authorising line, the open
descriptor is a root-owned executable and no argument is lost.

Every clause but one holds for every input (`main_fexecve`).  The remaining
one depends on how the list is read: `fgets` returns a line longer than its
buffer in several pieces, and each piece is taken for a line.
`EveryPieceWhole` says that the cut is harmless; it is exactly the condition
under which the policy holds (`execPolicy_iff_everyPieceWhole`).

## Main results

* `main_fexecve` — everything a run that reaches `fexecve` went through.
* `mem_loadLines` — a loaded path is the real path of some piece.
* `everyPieceWhole_of_short_lines` — lines shorter than the buffer are safe.
* `execPolicy_iff_everyPieceWhole` — the policy, with its exact condition.
-/

namespace Petrush.Pudod

open Petrush.Lib.CText
open Petrush.Lib.Stdio

/-! ## The policy -/

/-- The entry a whole line stands for: its trimmed text, when that starts
with `/` (which no comment does). -/
def wholeEntry (line : Text) : Option Text :=
  if (trim isTrimmed line).head? = some '/' then some (trim isTrimmed line)
  else none

/-- Some whole line of the list has the real path `resolved`, and its target
is no generic shell. -/
def Authorised (h : Host) (content resolved : Text) : Prop :=
  ∃ line ∈ lines content, ∃ e, wholeEntry line = some e ∧
    h.realpath e = some resolved ∧ pudodPathIsGenericShell resolved ≠ 1

/-- The policy of one execution: list file `f` with status `lst`, command
`userCmd`, its real path, and the status `tst` of the open descriptor. -/
structure ExecPolicy (h : Host) (argv : List Text) (fd : Nat)
    (childArgv : List Text) (f : AllowFile) (lst tst : Stat)
    (userCmd resolved : Text) : Prop where
  list_file : h.allowFile = some f ∧ f.fstat = some lst
  list_owner : lst.uid = 0
  list_mode : lst.mode &&& 0o22 = 0
  euid_root : h.euid = 0
  command : argv[1]? = some userCmd
  absolute : userCmd.head? = some '/'
  real_path : h.realpath userCmd = some resolved
  authorised : Authorised h f.content resolved
  descriptor : h.openNoFollow resolved = some fd ∧ h.fstat fd = some tst
  regular : tst.isReg = true
  target_owner : tst.uid = 0
  executable : tst.mode &&& 0o111 ≠ 0
  child_argv : childArgv = resolved :: argv.drop 2

/-! ## Reading the list -/

/-- The reading loop trims what it is given exactly as a whole line is
trimmed, but stops at a NUL. -/
theorem allowEntry_eq (line : Text) : allowEntry line = wholeEntry (cstr line) := by
  cases hp : (cstr line).dropWhile isTrimmed with
  | nil => simp [allowEntry, wholeEntry, trim, hp]
  | cons c p =>
      have htrim := trim_of_dropWhile hp
      by_cases hslash : c = '/'
      · subst hslash
        simp [allowEntry, wholeEntry, hp, htrim]
      · by_cases hhash : c = '#' <;>
          simp [allowEntry, wholeEntry, hp, htrim, hslash, hhash]

/-- A comment line stands for no entry. -/
theorem wholeEntry_comment (t : Text) : wholeEntry ('#' :: t) = none := by
  have hdrop : ('#' :: t).dropWhile isTrimmed = '#' :: t := by
    simp [isTrimmed]
  simp [wholeEntry, trim_of_dropWhile hdrop]

theorem allowEntry_head {line e : Text} (h : allowEntry line = some e) :
    e.head? = some '/' := by
  rw [allowEntry_eq, wholeEntry] at h
  split at h
  · next hhead => cases h; exact hhead
  · cases h

/-- What one turn of the loop can do. -/
theorem loadLine_cases (h : Host) (allowed : List Text) (line : Text) :
    loadLine h allowed line = allowed ∨
      ∃ e q, allowEntry line = some e ∧ h.realpath e = some q ∧
        pudodPathIsGenericShell q ≠ 1 ∧ loadLine h allowed line = allowed ++ [q] := by
  cases he : allowEntry line with
  | none => exact Or.inl (by simp [loadLine, he])
  | some e =>
      have hhead := allowEntry_head he
      cases hq : h.realpath e with
      | none => exact Or.inl (by simp [loadLine, he, pudodResolveAllowEntry, hhead, hq])
      | some q =>
          have hlen : q.length ≤ pathMax - 1 := by
            have := h.realpath_lt e q hq
            omega
          have htake : q.take (pathMax - 1) = q := List.take_of_length_le hlen
          by_cases hshell : pudodPathIsGenericShell q = 1
          · exact Or.inl (by
              simp [loadLine, he, pudodResolveAllowEntry, hhead, hq, htake, hshell])
          · exact Or.inr ⟨e, q, rfl, hq, hshell, by
              simp [loadLine, he, pudodResolveAllowEntry, hhead, hq, htake, hshell]⟩

/-- A loaded path was there before, or is the real path of the entry that
some piece reads as. -/
theorem mem_loadLines (h : Host) {q : Text} :
    ∀ (pieces allowed : List Text), q ∈ loadLines h allowed pieces →
      q ∈ allowed ∨ ∃ piece ∈ pieces, ∃ e, allowEntry piece = some e ∧
        h.realpath e = some q ∧ pudodPathIsGenericShell q ≠ 1 := by
  intro pieces
  induction pieces with
  | nil => intro allowed hmem; exact Or.inl hmem
  | cons line rest ih =>
      intro allowed hmem
      rw [loadLines] at hmem
      split at hmem
      · rcases ih _ hmem with hq | ⟨piece, hpiece, hrest⟩
        · rcases loadLine_cases h allowed line with heq | ⟨e, r, he, hr, hs, heq⟩
          · exact Or.inl (heq ▸ hq)
          · rw [heq] at hq
            rcases List.mem_append.mp hq with hq | hq
            · exact Or.inl hq
            · obtain rfl : q = r := by simpa using hq
              exact Or.inr ⟨line, by simp, e, he, hr, hs⟩
        · exact Or.inr ⟨piece, by simp [hpiece], hrest⟩
      · exact Or.inl hmem

theorem mem_loadLines_of_mem (h : Host) {q : Text} :
    ∀ (pieces allowed : List Text), q ∈ allowed → q ∈ loadLines h allowed pieces := by
  intro pieces
  induction pieces with
  | nil => intro allowed hq; exact hq
  | cons line rest ih =>
      intro allowed hq
      rw [loadLines]
      split
      · refine ih _ ?_
        rcases loadLine_cases h allowed line with heq | ⟨_, _, _, _, _, heq⟩ <;>
          simp [heq, hq]
      · exact hq

/-! ## A run that reaches `fexecve` -/

theorem loadAllowList_eq_some {h : Host} {allowed : List Text}
    (hload : loadAllowList h = some allowed) :
    ∃ f lst, h.allowFile = some f ∧ f.fstat = some lst ∧ lst.uid = 0 ∧
      lst.mode &&& 0o22 = 0 ∧
      allowed = loadLines h [] (fgetsPieces (pathMax - 1) f.content) := by
  unfold loadAllowList at hload
  split at hload
  · cases hload
  · next f hf =>
      split at hload
      · cases hload
      · next lst hst =>
          split_ifs at hload with huid hmode hopen
          cases hload
          exact ⟨f, lst, hf, hst, by simpa using huid, by simpa using hmode, rfl⟩

theorem pudodBuildChildArgv_eq_some {argv : List Text} {resolved : Text}
    {outCap : Nat} {out : List Text}
    (h : pudodBuildChildArgv argv resolved outCap = some out) :
    out = resolved :: argv.drop 2 := by
  unfold pudodBuildChildArgv at h
  split_ifs at h
  exact (Option.some.inj h).symm

theorem runTarget_eq_fexecve {h : Host} {allowed argv : List Text} {userCmd : Text}
    {fd : Nat} {childArgv childEnvp : List Text}
    (hrun : runTarget h allowed argv userCmd = .fexecve fd childArgv childEnvp) :
    ∃ resolved tst, h.realpath userCmd = some resolved ∧ resolved ∈ allowed ∧
      h.openNoFollow resolved = some fd ∧ h.fstat fd = some tst ∧
      pudodTargetIsRootExec tst = true ∧ childArgv = resolved :: argv.drop 2 := by
  unfold runTarget at hrun
  split at hrun
  · cases hrun
  · next resolved hreal =>
      split_ifs at hrun with hallowed
      split at hrun
      · cases hrun
      · next fd' hopen =>
          split at hrun
          · cases hrun
          · next tst hstat =>
              split_ifs at hrun with hexec
              split at hrun
              · cases hrun
              · next out hout =>
                  cases hrun
                  exact ⟨resolved, tst, hreal, by simpa [isAllowed] using hallowed,
                    hopen, hstat, by simpa using hexec,
                    pudodBuildChildArgv_eq_some hout⟩

/-- Everything a run that reaches `fexecve` went through.  Only where the
path in `allowed_paths` came from is left open. -/
theorem main_fexecve {h : Host} {argv : List Text} {fd : Nat}
    {childArgv childEnvp : List Text}
    (hmain : main h argv = .fexecve fd childArgv childEnvp) :
    ∃ f lst userCmd resolved tst,
      (h.allowFile = some f ∧ f.fstat = some lst ∧ lst.uid = 0 ∧
        lst.mode &&& 0o22 = 0) ∧
      h.euid = 0 ∧ argv[1]? = some userCmd ∧ userCmd.head? = some '/' ∧
      resolved ∈ loadLines h [] (fgetsPieces (pathMax - 1) f.content) ∧
      h.realpath userCmd = some resolved ∧
      h.openNoFollow resolved = some fd ∧ h.fstat fd = some tst ∧
      pudodTargetIsRootExec tst = true ∧ childArgv = resolved :: argv.drop 2 := by
  unfold main at hmain
  split at hmain
  · cases hmain
  · next allowed hload =>
      obtain ⟨f, lst, hf, hst, huid, hmode, rfl⟩ := loadAllowList_eq_some hload
      split_ifs at hmain with heuid
      split at hmain
      · next argv0 userCmd args =>
          split_ifs at hmain with habs
          obtain ⟨resolved, tst, hreal, hmem, hopen, hstat, hexec, hargv⟩ :=
            runTarget_eq_fexecve hmain
          exact ⟨f, lst, userCmd, resolved, tst, ⟨hf, hst, huid, hmode⟩,
            by simpa using heuid, rfl, by simpa using habs, hmem, hreal, hopen,
            hstat, hexec, hargv⟩
      · cases hmain

/-- The same steps forwards. -/
theorem main_eq_fexecve {h : Host} {allowed : List Text} {argv0 userCmd : Text}
    {args childArgv : List Text} {resolved : Text} {fd : Nat} {tst : Stat}
    (hload : loadAllowList h = some allowed) (heuid : h.euid = 0)
    (habs : userCmd.head? = some '/') (hreal : h.realpath userCmd = some resolved)
    (hallowed : resolved ∈ allowed) (hopen : h.openNoFollow resolved = some fd)
    (hstat : h.fstat fd = some tst) (hexec : pudodTargetIsRootExec tst = true)
    (hargv : pudodBuildChildArgv (argv0 :: userCmd :: args) resolved (maxArgs + 2) =
      some childArgv) :
    main h (argv0 :: userCmd :: args) = .fexecve fd childArgv buildCleanEnvp := by
  have hallowed' : isAllowed allowed resolved = true := by
    simpa [isAllowed] using hallowed
  simp [main, runTarget, hload, heuid, habs, hreal, hallowed', hopen, hstat, hexec,
    hargv]

/-! ## The condition on the list -/

/-- Every piece `fgets` cuts from the list that reads as an entry is the whole
trimmed text of one of its lines. -/
def EveryPieceWhole (content : Text) : Prop :=
  ∀ piece ∈ fgetsPieces (pathMax - 1) content, ∀ e, allowEntry piece = some e →
    ∃ line ∈ lines content, wholeEntry line = some e

/-- A list without NUL bytes whose lines fit the buffer is read line by
line. -/
theorem everyPieceWhole_of_short_lines {content : Text} (hnul : nul ∉ content)
    (hshort : ∀ line ∈ lines content, line.length < pathMax - 1) :
    EveryPieceWhole content := by
  intro piece hpiece e he
  obtain ⟨line, hline, hcase⟩ := mem_fgetsPieces_short hshort piece hpiece
  have hnl : nul ∉ line := fun h => hnul (subset_of_mem_lines hline h)
  have hnl' : nul ∉ line ++ ['\n'] := by
    intro h
    rcases List.mem_append.mp h with h | h
    · exact hnl h
    · exact absurd (List.mem_singleton.mp h) (by decide)
  refine ⟨line, hline, ?_⟩
  rw [allowEntry_eq] at he
  rcases hcase with rfl | rfl
  · rwa [cstr_eq_self hnl] at he
  · rw [cstr_eq_self hnl'] at he
    have htrim : trim isTrimmed (line ++ ['\n']) = trim isTrimmed line :=
      trim_append_tail (by simp [isTrimmed])
    rwa [wholeEntry, htrim] at he

/-! ## The condition is exact -/

/-- The real path of the only command of `probeHost`. -/
def probeTarget : Text := "/t".toList

/-- A machine with a trusted list on which `e` alone resolves, to a
root-owned executable. -/
def probeHost (content e : Text) : Host where
  euid := 0
  allowFile := some ⟨some ⟨0, 0o100644⟩, true, content⟩
  realpath p := if p = e then some probeTarget else none
  realpath_lt := by
    intro p q h
    split_ifs at h
    cases h
    decide
  openNoFollow _ := some 3
  fstat _ := some ⟨0, 0o100755⟩

private theorem probe_loaded {content e : Text} :
    ∀ pieces : List Text, (∃ piece ∈ pieces, allowEntry piece = some e) →
      probeTarget ∈ loadLines (probeHost content e) [] pieces := by
  intro pieces
  induction pieces with
  | nil => rintro ⟨piece, hmem, _⟩; simp at hmem
  | cons line rest ih =>
      rintro ⟨piece, hmem, hpiece⟩
      rw [loadLines, if_pos (by decide)]
      rcases loadLine_cases (probeHost content e) [] line with heq | ⟨e', q, he', hq, _, heq⟩
      · rcases List.mem_cons.mp hmem with rfl | hrest
        · -- the piece in question is this one: it cannot have been skipped
          have hload : loadLine (probeHost content e) [] piece = [probeTarget] := by
            have hhead := allowEntry_head hpiece
            simp [loadLine, hpiece, pudodResolveAllowEntry, hhead, probeHost,
              show pudodPathIsGenericShell (probeTarget.take (pathMax - 1)) ≠ 1 by decide]
            decide
          rw [hload] at heq
          simp at heq
        · rw [heq]
          exact ih ⟨piece, hrest, hpiece⟩
      · refine mem_loadLines_of_mem _ rest _ ?_
        have hqt : q = probeTarget := by
          simp only [probeHost] at hq
          split_ifs at hq
          exact (Option.some.inj hq).symm
        simp [heq, hqt]

/-- On `probeHost`, a list with a piece that reads as `e` gets `e` executed. -/
theorem probe_executes {content e piece : Text}
    (hpiece : piece ∈ fgetsPieces (pathMax - 1) content)
    (he : allowEntry piece = some e) :
    main (probeHost content e) ["pudod".toList, e] =
      .fexecve 3 [probeTarget] buildCleanEnvp := by
  have hmem : probeTarget ∈
      loadLines (probeHost content e) [] (fgetsPieces (pathMax - 1) content) :=
    probe_loaded _ ⟨piece, hpiece, he⟩
  have hload : loadAllowList (probeHost content e) =
      some (loadLines (probeHost content e) [] (fgetsPieces (pathMax - 1) content)) := rfl
  have hstat : (probeHost content e).fstat 3 = some ⟨0, 0o100755⟩ := rfl
  refine main_eq_fexecve hload rfl (allowEntry_head he) ?_ hmem rfl hstat (by decide) ?_
  · simp [probeHost]
  · simp [pudodBuildChildArgv, maxArgs]

/-- **The policy and its exact condition.**  For every content of the
allow-list: every execution on every machine and every command line obeys the
policy if and only if `fgets` cuts the list harmlessly. -/
theorem execPolicy_iff_everyPieceWhole (content : Text) :
    (∀ (h : Host) (f : AllowFile) (argv : List Text) (fd : Nat)
        (childArgv childEnvp : List Text),
      h.allowFile = some f → f.content = content →
      main h argv = .fexecve fd childArgv childEnvp →
      ∃ lst tst userCmd resolved,
        ExecPolicy h argv fd childArgv f lst tst userCmd resolved) ↔
      EveryPieceWhole content := by
  constructor
  · intro hpolicy piece hpiece e he
    have hrun := probe_executes hpiece he
    obtain ⟨lst, tst, userCmd, resolved, hp⟩ :=
      hpolicy (probeHost content e) _ _ _ _ _ rfl rfl hrun
    have hcmd : userCmd = e := by simpa using hp.command.symm
    obtain ⟨line, hline, e', he', hreal, _⟩ := hp.authorised
    have hee : e' = e := by
      simp only [probeHost] at hreal
      split_ifs at hreal with h
      exact h
    exact ⟨line, hline, hee ▸ he'⟩
  · intro hwhole h f argv fd childArgv childEnvp hf hcontent hmain
    obtain ⟨f', lst, userCmd, resolved, tst, ⟨hf', hst, huid, hmode⟩, heuid, hcmd,
      habs, hmem, hreal, hopen, hstat, hexec, hargv⟩ := main_fexecve hmain
    obtain rfl : f' = f := by rw [hf] at hf'; exact (Option.some.inj hf').symm
    simp only [pudodTargetIsRootExec, Bool.and_eq_true, beq_iff_eq, bne_iff_ne] at hexec
    have hauth : Authorised h f'.content resolved := by
      rcases mem_loadLines h _ _ hmem with hnil | ⟨piece, hpiece, e, he, hq, hshell⟩
      · simp at hnil
      · obtain ⟨line, hline, hentry⟩ := hwhole piece (hcontent ▸ hpiece) e he
        exact ⟨line, hcontent ▸ hline, e, hentry, hq, hshell⟩
    exact ⟨lst, tst, userCmd, resolved,
      { list_file := ⟨hf', hst⟩
        list_owner := huid
        list_mode := hmode
        euid_root := heuid
        command := hcmd
        absolute := habs
        real_path := hreal
        authorised := hauth
        descriptor := ⟨hopen, hstat⟩
        regular := hexec.1.1
        target_owner := hexec.1.2
        executable := hexec.2
        child_argv := hargv }⟩

/-- A list of one comment: its first 4095 bytes are skipped by the loop, and
the rest is read as an entry of its own. -/
def longComment (pad : Text) : Text := '#' :: pad ++ "/t\n".toList

theorem longComment_pieces {pad : Text} (hnl : '\n' ∉ pad)
    (hlen : pad.length + 1 = pathMax - 1) :
    fgetsPieces (pathMax - 1) (longComment pad) = ['#' :: pad, "/t\n".toList] := by
  rw [longComment, fgetsPieces_full _ (by decide) (by simp [hnl]) (by simpa using hlen)]
  rfl

theorem longComment_lines {pad : Text} (hnl : '\n' ∉ pad) :
    lines (longComment pad) = ['#' :: pad ++ "/t".toList, []] := by
  rw [longComment, show "/t\n".toList = "/t".toList ++ '\n' :: [] by decide,
    ← List.append_assoc, lines_cons_line]
  · rfl
  · simp [hnl]

theorem longComment_unauthorised {pad : Text} (hnl : '\n' ∉ pad) (h : Host)
    (resolved : Text) : ¬ Authorised h (longComment pad) resolved := by
  rintro ⟨line, hline, e, he, _⟩
  rw [longComment_lines hnl] at hline
  rcases List.mem_cons.mp hline with rfl | hline
  · rw [List.cons_append, wholeEntry_comment] at he
    cases he
  · obtain rfl : line = [] := by simpa using hline
    simp [wholeEntry, trim] at he

/-- **Text inside a comment authorises a command.**  The list has no line but
a comment and the empty line after it; the command in the comment's tail is
executed, against the policy. -/
theorem longComment_executes :
    main (probeHost (longComment (List.replicate 4094 'x')) "/t".toList)
        ["pudod".toList, "/t".toList] =
      .fexecve 3 [probeTarget] buildCleanEnvp ∧
    lines (longComment (List.replicate 4094 'x')) =
      ['#' :: List.replicate 4094 'x' ++ "/t".toList, []] ∧
    ¬ ∃ f lst tst userCmd resolved,
      ExecPolicy (probeHost (longComment (List.replicate 4094 'x')) "/t".toList)
        ["pudod".toList, "/t".toList] 3 [probeTarget] f lst tst userCmd resolved := by
  have hnl : '\n' ∉ List.replicate 4094 'x' :=
    fun h => absurd (List.eq_of_mem_replicate h) (by decide)
  have hlen : (List.replicate 4094 'x').length + 1 = pathMax - 1 := by
    rw [List.length_replicate]; rfl
  generalize List.replicate 4094 'x' = pad at hnl hlen ⊢
  have hpieces := longComment_pieces hnl hlen
  have hentry : allowEntry "/t\n".toList = some "/t".toList := by decide
  refine ⟨probe_executes (by rw [hpieces]; simp) hentry, longComment_lines hnl, ?_⟩
  rintro ⟨f, lst, tst, userCmd, resolved, hp⟩
  have hf : f.content = longComment pad := by
    have h := hp.list_file.1
    simp only [probeHost] at h
    rw [← Option.some.inj h]
  exact longComment_unauthorised hnl _ _ (hf ▸ hp.authorised)

end Petrush.Pudod

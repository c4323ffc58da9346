import Petrush.Foundation.PathWalk
import Petrush.Lib.Paths
import Petrush.Verified.Plugins

/-!
# The walk up from a plugin

On a canonical path a turn of the loop leaves the directory of what the buffer held, and
the root as it is, so the system is asked about each ancestor, from the parent to the root.

## Main results

* `loop_turn` — a turn takes a component off.
* `loop_spec` — a run asks about the ancestors up to the first that is refused.
* `walk_complete` — the function, for every canonical path and every system.
-/

namespace Petrush.Verified.Ancestors

open Petrush.Lib.CText
open Petrush.Lib.Cells
open Petrush.Lib.Paths
open Petrush.Foundation.PluginLoad
open Petrush.Foundation.PathWalk
open Petrush.Verified.Plugins

/-- The array holds a text. -/
structure Holds (dirbuf : List Char) (t : Text) : Prop where
  nul_notMem : nul ∉ t
  split : ∃ rest, dirbuf = t ++ nul :: rest

theorem Holds.cstr_eq {dirbuf : List Char} {t : Text} (h : Holds dirbuf t) : cstr dirbuf = t := by
  obtain ⟨hnul, rest, rfl⟩ := h
  have hplain : ∀ c ∈ t, (c != nul) = true := by
    intro c hc
    have hne : c ≠ nul := fun heq => hnul (heq ▸ hc)
    simpa using hne
  rw [cstr, List.takeWhile_append_of_pos hplain]
  simp

/-- A NUL in the text cuts it. -/
theorem Holds.cut {dirbuf : List Char} {t u : Text} {c : Char} (h : Holds dirbuf (t ++ c :: u)) :
    ∃ dirbuf', write dirbuf t.length nul = .ok dirbuf' ∧ Holds dirbuf' t := by
  obtain ⟨hnul, rest, rfl⟩ := h
  have hsplit : t ++ c :: u ++ nul :: rest = t ++ c :: (u ++ nul :: rest) := by simp
  rw [hsplit, write_append]
  exact ⟨_, rfl, fun hmem => hnul (List.mem_append_left _ hmem), _, rfl⟩

/-- The byte after the root's slash is there. -/
theorem Holds.cut_root {dirbuf : List Char} {u : Text} (h : Holds dirbuf ('/' :: u)) :
    ∃ dirbuf', write dirbuf 1 nul = .ok dirbuf' ∧ Holds dirbuf' ['/'] := by
  cases u with
  | cons c u => exact Holds.cut (t := ['/']) h
  | nil =>
      obtain ⟨hnul, rest, rfl⟩ := h
      exact ⟨'/' :: nul :: rest, write_append ['/'] rest nul nul, hnul, rest, rfl⟩

/-! ## The loop -/

section Loop

variable (h : Host)

/-- A directory the walk goes past. -/
def Accepted (dir : Text) : Prop := dirRefused h dir = false

/-- The end of a turn: a refused directory ends the walk, and so does the root. -/
def turnEnd (turns : Nat) (dir : List Text) (dirbuf : List Char) (asked : List Query) :
    Except Fault (Int × List Query) :=
  if dirRefused h (text dir) then .ok (-1, .stat (text dir) :: asked)
  else if dir = [] then .ok (0, .stat (text dir) :: asked)
  else loop h turns dirbuf (.stat (text dir) :: asked)

/-- What follows the write. -/
theorem turn_eq {dir : List Text} {dirbuf : List Char} (hdir : ∀ c ∈ dir, IsComponent c)
    (hholds : Holds dirbuf (text dir)) (turns : Nat) (asked : List Query) :
    (if dirRefused h (cstr dirbuf) then .ok (-1, .stat (cstr dirbuf) :: asked)
      else do
        let first ← read dirbuf 0
        let second ← read dirbuf 1
        if first = '/' ∧ second = nul then .ok (0, .stat (cstr dirbuf) :: asked)
        else loop h turns dirbuf (.stat (cstr dirbuf) :: asked)) =
      turnEnd h turns dir dirbuf asked := by
  rw [hholds.cstr_eq, turnEnd]
  congr 1
  obtain ⟨-, rest, rfl⟩ := hholds
  by_cases hroot : dir = []
  · subst hroot
    rfl
  · obtain ⟨a, t, ha, heq⟩ := text_second hdir hroot
    rw [heq, if_neg hroot]
    show (if '/' = '/' ∧ a = nul then _ else _) = _
    rw [if_neg (fun hand => ha hand.2)]

/-- At the first slash the root is left. -/
theorem loop_turn_root {u : Text} {dirbuf : List Char} (hu : '/' ∉ u)
    (hholds : Holds dirbuf ('/' :: u)) (turns : Nat) (asked : List Query) :
    ∃ dirbuf', loop h (turns + 1) dirbuf asked = turnEnd h turns [] dirbuf' asked := by
  have hslash : lastSlash ('/' :: u) = some 0 := lastSlash_append [] u hu
  obtain ⟨dirbuf', hwrite, hnext⟩ := hholds.cut_root
  refine ⟨dirbuf', ?_⟩
  have hnone : ∀ c ∈ ([] : List Text), IsComponent c := fun c hc => absurd hc List.not_mem_nil
  rw [← turn_eq h hnone hnext, loop, hholds.cstr_eq, hslash]
  simp only [if_true, Nat.zero_add, hwrite]
  rfl

/-- **A turn takes a component off.** -/
theorem loop_turn {dir : List Text} {c : Text} {dirbuf : List Char}
    (hcomps : ∀ e ∈ dir ++ [c], IsComponent e) (hholds : Holds dirbuf (text (dir ++ [c])))
    (hne : dir ≠ []) (turns : Nat) (asked : List Query) :
    ∃ dirbuf', Holds dirbuf' (text dir) ∧
      loop h (turns + 1) dirbuf asked = turnEnd h turns dir dirbuf' asked := by
  have hc : IsComponent c := hcomps c (by simp)
  have hdir : ∀ e ∈ dir, IsComponent e := fun e he => hcomps e (List.mem_append_left _ he)
  have hslash := lastSlash_append (join dir) c hc.slash_notMem
  have hlong : ¬ (join dir).length = 0 := by
    have hpos := List.length_pos_iff.mpr (text_ne_nil dir)
    rw [text, if_neg hne] at hpos
    omega
  rw [text_append] at hholds
  obtain ⟨dirbuf', hwrite, hnext⟩ := hholds.cut
  have htext : Holds dirbuf' (text dir) := by
    rw [text, if_neg hne]
    exact hnext
  refine ⟨dirbuf', htext, ?_⟩
  rw [← turn_eq h hdir htext, loop, hholds.cstr_eq, hslash]
  simp only [if_neg hlong, hwrite]
  rfl

/-- How a walk through `dirs` ends: after the last, or at the first that is refused. -/
inductive Walked (asked : List Query) : List Text → Except Fault (Int × List Query) → Prop
  | past {dirs : List Text} (hall : ∀ dir ∈ dirs, Accepted h dir) :
      Walked asked dirs (.ok (0, (dirs.map Query.stat).reverse ++ asked))
  | stopped {before after : List Text} {dir : List Char} (hdir : ¬ Accepted h dir) :
      Walked asked (before ++ dir :: after)
        (.ok (-1, ((before ++ [dir]).map Query.stat).reverse ++ asked))

variable {h}

theorem Walked.cons {asked : List Query} {dir : Text} {dirs : List Text}
    {r : Except Fault (Int × List Query)} (hdir : Accepted h dir)
    (hwalk : Walked h (.stat dir :: asked) dirs r) : Walked h asked (dir :: dirs) r := by
  cases hwalk with
  | past hall =>
      have hcons : ∀ d ∈ dir :: dirs, Accepted h d := by
        intro d hd
        rcases List.mem_cons.mp hd with rfl | hd
        · exact hdir
        · exact hall d hd
      have hpast : Walked h asked (dir :: dirs) _ := Walked.past hcons
      simpa using hpast
  | @stopped before after d hd =>
      have hstop : Walked h asked ((dir :: before) ++ d :: after) _ := Walked.stopped hd
      simpa using hstop

/-- The end at the root. -/
theorem turnEnd_root (turns : Nat) (dirbuf : List Char) (asked : List Query) :
    Walked h asked [['/']] (turnEnd h turns [] dirbuf asked) := by
  have htext : text [] = ['/'] := rfl
  rw [turnEnd, htext]
  by_cases hroot : dirRefused h ['/'] = true
  · rw [if_pos hroot]
    have hstop : Walked h asked ([] ++ [['/']]) _ := Walked.stopped (by simpa [Accepted] using hroot)
    exact hstop
  · rw [if_neg hroot, if_pos rfl]
    refine Walked.past ?_
    intro dir hdir
    obtain rfl := List.mem_singleton.mp hdir
    simpa [Accepted] using hroot

/-- **A run asks about the ancestors**, up to the first that is refused. -/
theorem loop_spec {comps : List Text} : ∀ {dirbuf : List Char} {turns : Nat} (asked : List Query),
    (∀ c ∈ comps, IsComponent c) → Holds dirbuf (text comps) → comps.length < turns →
    Walked h asked (ancestors comps) (loop h turns dirbuf asked) := by
  induction comps using List.reverseRecOn with
  | nil =>
      intro dirbuf turns asked _ hholds hturns
      obtain ⟨turns, rfl⟩ := Nat.exists_eq_succ_of_ne_zero (Nat.ne_zero_of_lt hturns)
      obtain ⟨dirbuf', heq⟩ := loop_turn_root h (u := []) List.not_mem_nil hholds turns asked
      rw [Nat.succ_eq_add_one, heq, ancestors_root]
      exact turnEnd_root turns dirbuf' asked
  | append_singleton dir c ih =>
      intro dirbuf turns asked hcomps hholds hturns
      obtain ⟨turns, rfl⟩ := Nat.exists_eq_succ_of_ne_zero (Nat.ne_zero_of_lt hturns)
      rw [List.length_append, List.length_singleton] at hturns
      have hc : IsComponent c := hcomps c (by simp)
      have hdir : ∀ e ∈ dir, IsComponent e := fun e he => hcomps e (List.mem_append_left _ he)
      by_cases hne : dir = []
      · subst hne
        rw [text_append] at hholds
        obtain ⟨dirbuf', heq⟩ := loop_turn_root h hc.slash_notMem hholds turns asked
        rw [Nat.succ_eq_add_one, heq, List.nil_append, ancestors_single]
        exact turnEnd_root turns dirbuf' asked
      · obtain ⟨dirbuf', hnext, heq⟩ := loop_turn h hcomps hholds hne turns asked
        rw [Nat.succ_eq_add_one, heq, ancestors_append hne, turnEnd, if_neg hne]
        by_cases hup : dirRefused h (text dir) = true
        · rw [if_pos hup]
          have hstop : Walked h asked ([] ++ text dir :: ancestors dir) _ :=
            Walked.stopped (by simpa [Accepted] using hup)
          exact hstop
        · rw [if_neg hup]
          refine Walked.cons (by simpa [Accepted] using hup) ?_
          exact ih _ hdir hnext (by omega)

end Loop

/-! ## The function -/

/-- A regular file that others may not write to. -/
def FileOk (h : Host) (path : Text) : Prop :=
  ∃ st, h.lstat path = some st ∧ st.isReg = true ∧ st.otherWritable = false

/-- A directory that others may not write to. -/
def DirOk (h : Host) (dir : Text) : Prop :=
  ∃ st, h.stat dir = some st ∧ st.isDir = true ∧ st.otherWritable = false

theorem accepted_iff {h : Host} {dir : Text} : Accepted h dir ↔ DirOk h dir := by
  unfold Accepted dirRefused DirOk
  cases h.stat dir with
  | none => simp
  | some st => simp

/-- All there is to ask: the file, then each ancestor from the parent to the root. -/
def allQueries (comps : List Text) : List Query :=
  .lstat (text comps) :: (ancestors comps).map Query.stat

theorem allQueries_nodup {comps : List Text} (hcomps : ∀ c ∈ comps, IsComponent c) :
    (allQueries comps).Nodup := by
  have hinj : Function.Injective Query.stat := fun a b heq => Query.stat.inj heq
  refine List.nodup_cons.mpr ⟨?_, (List.nodup_map_iff hinj).mpr (ancestors_nodup hcomps)⟩
  simp

/-- A path is copied whole. -/
theorem writes_copy (dirbuf : Vector Char pathMax) {t : Text} (hnul : nul ∉ t)
    (hlen : t.length < pathMax) :
    ∃ dirbuf', writes dirbuf.toList 0 (t ++ [nul]) = .ok dirbuf' ∧ Holds dirbuf' t := by
  have hroom : 0 + (t ++ [nul]).length ≤ dirbuf.toList.length := by
    rw [Vector.length_toList, List.length_append, List.length_singleton]
    omega
  refine ⟨_, writes_at hroom, hnul, dirbuf.toList.drop (t.length + 1), by simp⟩

/-- What a call comes to: its value, and what was asked, the first first. -/
structure Answer (h : Host) (comps : List Text) (code : Int) (asked : List Query) : Prop where
  code_iff : code = 0 ↔ FileOk h (text comps) ∧ ∀ dir ∈ ancestors comps, DirOk h dir
  code_cases : code = 0 ∨ code = -1
  asked_all : code = 0 → asked = allQueries comps
  /-- A walk that stops has only not gone on. -/
  asked_le : asked <+: allQueries comps
  asked_once : asked.Nodup

theorem Answer.of_walked {h : Host} {comps : List Text} {r : Except Fault (Int × List Query)}
    (hcomps : ∀ c ∈ comps, IsComponent c) (hfile : FileOk h (text comps))
    (hwalk : Walked h [.lstat (text comps)] (ancestors comps) r) :
    ∃ code asked, r = .ok (code, asked) ∧ Answer h comps code asked.reverse := by
  have hnodup := allQueries_nodup hcomps
  unfold allQueries at hnodup
  generalize hdirs : ancestors comps = dirs at hwalk hnodup
  cases hwalk with
  | past hall =>
      refine ⟨_, _, rfl, ?_, Or.inl rfl, ?_, ?_, ?_⟩
      · rw [hdirs]
        exact ⟨fun _ => ⟨hfile, fun d hd => accepted_iff.mp (hall d hd)⟩, fun _ => rfl⟩
      · simp [allQueries, hdirs]
      · simp [allQueries, hdirs]
      · simpa using hnodup
  | @stopped before after dir hdir =>
      have hle : ((before ++ [dir]).map Query.stat).reverse ++ [.lstat (text comps)] =
          (Query.lstat (text comps) :: (before ++ [dir]).map Query.stat).reverse := by simp
      have hmore : Query.lstat (text comps) :: (before ++ [dir]).map Query.stat <+:
          allQueries comps := by
        rw [allQueries, hdirs]
        exact ⟨after.map Query.stat, by simp⟩
      refine ⟨_, _, rfl, ?_, Or.inr rfl, ?_, ?_, ?_⟩
      · rw [hdirs]
        refine ⟨fun hcode => absurd hcode (by decide), fun hok => absurd ?_ hdir⟩
        exact accepted_iff.mpr (hok.2 dir (by simp))
      · intro hcode
        exact absurd hcode (by decide)
      · rw [hle, List.reverse_reverse]
        exact hmore
      · rw [hle, List.reverse_reverse]
        refine List.Nodup.sublist hmore.sublist ?_
        rw [allQueries, hdirs]
        exact hnodup

/-- The file itself is refused. -/
theorem Answer.of_file {h : Host} {comps : List Text} (hfile : ¬ FileOk h (text comps)) :
    Answer h comps (-1) [.lstat (text comps)] where
  code_iff := ⟨fun hcode => absurd hcode (by decide), fun hok => absurd hok.1 hfile⟩
  code_cases := Or.inr rfl
  asked_all := fun hcode => absurd hcode (by decide)
  asked_le := ⟨(ancestors comps).map Query.stat, rfl⟩
  asked_once := List.nodup_singleton _

/-- **The walk is complete.**  For every canonical path shorter than the limit, every
system and whatever the array held: the function comes to an end, in no more turns than the
path has bytes and one; it returns 0 exactly when the path is a regular file and every
ancestor a directory, none of them writable by others; and it asks about each at most once,
about all of them when it returns 0. -/
theorem walk_complete (h : Host) (p : CanonPath pathMax) (dirbuf : Vector Char pathMax)
    (more : Nat) :
    ∃ code asked, pathWritableOkAt h ((text p.comps).length + 1 + more) dirbuf (text p.comps) =
      .ok (code, asked) ∧ Answer h p.comps code asked.reverse := by
  have hhead : ¬ (text p.comps).head? ≠ some '/' := not_not_intro (text_head p.comps)
  rw [pathWritableOkAt, if_neg hhead]
  dsimp only
  cases hlstat : h.lstat (text p.comps) with
  | none => exact ⟨_, _, rfl, Answer.of_file (by simp [FileOk, hlstat])⟩
  | some st =>
      dsimp only
      by_cases hreg : st.isReg = true
      · by_cases hwrite : st.otherWritable = true
        · rw [if_neg (by simp [hreg]), if_pos hwrite]
          exact ⟨_, _, rfl, Answer.of_file (by simp [FileOk, hlstat, hwrite])⟩
        · have hpos := List.length_pos_iff.mpr (text_ne_nil p.comps)
          have hlt := p.length_lt
          have hfits : ¬ ((text p.comps).length = 0 ∨ (text p.comps).length ≥ pathMax) := by omega
          obtain ⟨dirbuf', hcopy, hholds⟩ :=
            writes_copy dirbuf (nul_notMem_text p.isComponent) hlt
          rw [if_neg (by simp [hreg]), if_neg hwrite, if_neg hfits, hcopy]
          have hturns : p.comps.length < (text p.comps).length + 1 + more := by
            have hlen := length_le_text p.isComponent
            omega
          have hfile : FileOk h (text p.comps) := ⟨st, hlstat, hreg, by simpa using hwrite⟩
          exact Answer.of_walked p.isComponent hfile
            (loop_spec _ p.isComponent hholds hturns)
      · rw [if_pos (by simpa using hreg)]
        exact ⟨_, _, rfl, Answer.of_file (by simp [FileOk, hlstat, hreg])⟩

theorem walkDirs_text {h : Host} {comps : List Text} : ∀ {turns : Nat},
    (∀ c ∈ comps, IsComponent c) → comps.length < turns →
    (walkDirs h turns (text comps) = true ↔ ∀ dir ∈ ancestors comps, DirOk h dir) := by
  have hok : ∀ dir, dirOk h dir = true ↔ DirOk h dir := by
    intro dir
    unfold dirOk DirOk
    cases h.stat dir with
    | none => simp
    | some st => simp
  induction comps using List.reverseRecOn with
  | nil =>
      intro turns _ hturns
      obtain ⟨turns, rfl⟩ := Nat.exists_eq_succ_of_ne_zero (Nat.ne_zero_of_lt hturns)
      have hturn := walkDirs_append (h := h) turns [] [] List.not_mem_nil
      rw [if_pos rfl] at hturn
      rw [ancestors_root, List.forall_mem_singleton, ← hok, ← hturn]
      rfl
  | append_singleton dir c ih =>
      intro turns hcomps hturns
      obtain ⟨turns, rfl⟩ := Nat.exists_eq_succ_of_ne_zero (Nat.ne_zero_of_lt hturns)
      rw [List.length_append, List.length_singleton] at hturns
      have hc : IsComponent c := hcomps c (by simp)
      have hdir : ∀ e ∈ dir, IsComponent e := fun e he => hcomps e (List.mem_append_left _ he)
      rw [text_append, Nat.succ_eq_add_one, walkDirs_append turns _ c hc.slash_notMem]
      by_cases hne : dir = []
      · subst hne
        rw [join_nil, if_pos rfl, List.nil_append, ancestors_single, List.forall_mem_singleton, hok]
      · have hjoin : text dir = join dir := if_neg hne
        have hnil : ¬ join dir = [] := hjoin ▸ text_ne_nil dir
        rw [if_neg hnil, ← hjoin, Bool.and_eq_true, hok, ih hdir (by omega), ancestors_append hne,
          List.forall_mem_cons]

/-- **The loader's own answer** is the same. -/
theorem pathWritableOk_iff (h : Host) (p : CanonPath pathMax) :
    pathWritableOk h (text p.comps) = true ↔
      FileOk h (text p.comps) ∧ ∀ dir ∈ ancestors p.comps, DirOk h dir := by
  have hhead : ¬ (text p.comps).head? ≠ some '/' := not_not_intro (text_head p.comps)
  rw [pathWritableOk, if_neg hhead, ← walkDirs_text p.isComponent (length_le_text p.isComponent)]
  cases hlstat : h.lstat (text p.comps) with
  | none => simp [FileOk, hlstat]
  | some st => simp [FileOk, hlstat, p.length_lt, and_assoc]

end Petrush.Verified.Ancestors

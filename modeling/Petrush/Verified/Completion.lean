import Petrush.Front.Complete

/-!
# What completion offers

A line that is offered begins with what was typed, unless the word is a name in the root
directory: the path of that directory ends in a slash already, and gets another.

## Main results

* `fileLine_spec`: the line for an entry of the directory.
* `extends_iff`: completion extends the line, under an exact condition.
-/

namespace Petrush.Verified.Completion

open Petrush.Foundation
open Petrush.Foundation.Process
open Petrush.Lib.CText
open Petrush.Front.Complete

/-! ## The last occurrence of a byte -/

theorem notMem_afterLast (c : Char) (t : Text) : c ∉ afterLast c t := by
  intro h
  have hnot := List.mem_takeWhile_imp (List.mem_reverse.mp h)
  simp at hnot

/-- The text is what stands before, and what is behind the last `c`. -/
theorem take_afterLast (c : Char) (t : Text) :
    t.take (t.length - (afterLast c t).length) ++ afterLast c t = t := by
  have hsuffix : afterLast c t <:+ t := by
    have hrev := List.reverse_suffix.mpr (List.takeWhile_prefix (· ≠ c) (l := t.reverse))
    rwa [List.reverse_reverse] at hrev
  conv_lhs => rhs; rw [List.suffix_iff_eq_drop.mp hsuffix]
  exact List.take_append_drop _ _

theorem afterLast_eq_self {c : Char} {t : Text} (h : c ∉ t) : afterLast c t = t := by
  have hall : t.reverse.takeWhile (· ≠ c) = t.reverse := by
    rw [List.takeWhile_eq_self_iff]
    intro d hd
    have hne : d ≠ c := fun heq => h (heq ▸ List.mem_reverse.mp hd)
    simpa using hne
  rw [afterLast, hall, List.reverse_reverse]

/-- Where there is a `c`, it is the byte before. -/
theorem split_afterLast {c : Char} {t : Text} (h : c ∈ t) :
    t.take (t.length - (afterLast c t).length - 1) ++ c :: afterLast c t = t := by
  obtain ⟨before, rest, ht, hrest⟩ : ∃ before rest, t = before ++ c :: rest ∧ c ∉ rest := by
    obtain ⟨pre, post, hrev, hpre⟩ := List.eq_append_cons_of_mem (List.mem_reverse.mpr h)
    refine ⟨post.reverse, pre.reverse, ?_, fun hmem => hpre (List.mem_reverse.mp hmem)⟩
    have hback := congrArg List.reverse hrev
    simpa using hback
  have hlast : afterLast c t = rest := by
    have hall : ∀ d ∈ rest.reverse, decide (d ≠ c) = true := by
      intro d hd
      have hne : d ≠ c := fun heq => hrest (heq ▸ List.mem_reverse.mp hd)
      simpa using hne
    rw [afterLast, ht, List.reverse_append, List.reverse_cons, List.append_assoc,
      List.takeWhile_append_of_pos hall]
    simp
  have hlen : t.length - (afterLast c t).length - 1 = before.length := by
    rw [hlast, ht, List.length_append, List.length_cons]
    omega
  rw [hlen, hlast, ht, List.take_left]

/-! ## The pieces of the line -/

/-- What stands before the word. -/
def before (buf : Text) : Text := buf.take (prefixLen buf)

theorem before_word (buf : Text) : before buf ++ word buf = buf := take_afterLast ' ' buf

theorem length_before (buf : Text) : (before buf).length = prefixLen buf := by
  rw [before, List.length_take, prefixLen]
  omega

/-- A word with a slash: its directory, and what is behind. -/
theorem word_slash {word : Text} (h : '/' ∈ word) :
    word.take (dlen word) ++ '/' :: base word = word := split_afterLast h

theorem base_no_slash {word : Text} (h : '/' ∉ word) : base word = word := afterLast_eq_self h

theorem dlen_eq_zero_iff {word : Text} (h : '/' ∈ word) :
    dlen word = 0 ↔ word = '/' :: base word := by
  have hsplit := word_slash h
  constructor
  · intro hzero
    rw [hzero] at hsplit
    exact hsplit.symm
  · intro hword
    have hlen := congrArg List.length hword
    rw [List.length_cons] at hlen
    rw [dlen]
    omega

/-- **The line for an entry of the directory.** -/
theorem fileLine_spec {buf name line : Text} :
    fileLine buf name = some line ↔
      ¬ (name = ['.'] ∨ name = ['.', '.']) ∧ base (word buf) <+: name ∧
        prefixLen buf + (candidate (word buf) name).length < pathMax ∧
        line = before buf ++ candidate (word buf) name := by
  unfold fileLine
  constructor
  · intro h
    split_ifs at h with hdots hbase hlong hfar hsum
    refine ⟨hdots, ?_, by omega, (Option.some.inj h).symm⟩
    simpa using hbase
  · rintro ⟨hdots, hbase, hsum, rfl⟩
    have hpre : (!(base (word buf)).isPrefixOf name) = false := by
      simpa using List.isPrefixOf_iff_prefix.mpr hbase
    rw [if_neg hdots, hpre, if_neg (by decide), if_neg (by omega), if_neg (by omega),
      if_neg (by omega)]
    rfl

/-! ## The claims about a line -/

/-- A path for an entry of a directory. -/
def Joins (dir name path : Text) : Prop := path = dir ++ '/' :: name ∨ dir = ['/'] ∧ path = dir ++ name

/-- The line names an entry of the directory of the word, which begins as the word ends. -/
def NamesEntry (fs : FileSystem) (buf line : Text) : Prop :=
  ∃ names name path, fs.opendir (dirpath (word buf)) = some names ∧ name ∈ names ∧
    base (word buf) <+: name ∧ Joins (dirpath (word buf)) name path ∧ line = before buf ++ path

/-- The line extends what was typed. -/
structure Extends (fs : FileSystem) (buf line : Text) : Prop where
  whole : buf <+: line
  entry : '/' ∈ word buf → NamesEntry fs buf line

/-- The word is no name in the root directory that an entry there goes on, in a line that
is not too long. -/
def NotInRoot (fs : FileSystem) (buf : Text) : Prop :=
  ∀ part names name, word buf = '/' :: part → '/' ∉ part → part ≠ [] →
    fs.opendir ['/'] = some names → name ∈ names → part <+: name →
    (name = ['.'] ∨ name = ['.', '.']) ∨ pathMax ≤ prefixLen buf + (name.length + 2)

/-! ## The first word -/

/-- What is offered for the first word is no path, and begins with the word. -/
theorem first_lines {fs : FileSystem} {env : Env} {buf line : Text}
    (h : line ∈ builtinLines (word buf) ++ pathLines fs env (word buf)) :
    word buf <+: line ∧ '/' ∉ line := by
  rcases List.mem_append.mp h with h | h
  · obtain ⟨hmem, hpre⟩ := List.mem_filter.mp h
    have hnames : ∀ name ∈ Mid.Dispatcher.builtins, '/' ∉ name := by decide
    exact ⟨List.isPrefixOf_iff_prefix.mp hpre, hnames line hmem⟩
  · obtain ⟨dir, _, hline⟩ := List.mem_flatMap.mp h
    obtain ⟨hmem, hgood⟩ := List.mem_filter.mp hline
    simp only [Bool.and_eq_true] at hgood
    refine ⟨List.isPrefixOf_iff_prefix.mp hgood.1.1, ?_⟩
    cases hopen : fs.opendir dir with
    | none =>
        rw [hopen] at hmem
        contradiction
    | some names =>
        rw [hopen] at hmem
        exact fs.slash_notMem dir names hopen line hmem

theorem first_extends {fs : FileSystem} {env : Env} {buf line : Text} (hfirst : ' ' ∉ buf)
    (h : line ∈ builtinLines (word buf) ++ pathLines fs env (word buf)) : Extends fs buf line := by
  obtain ⟨hpre, hslash⟩ := first_lines h
  have hword : word buf = buf := afterLast_eq_self hfirst
  refine ⟨by rwa [hword] at hpre, ?_⟩
  intro hmem
  exact absurd (hpre.subset hmem) hslash

/-! ## Files -/

/-- The candidate begins with the word, unless it is in the root. -/
theorem word_prefix_candidate_iff {word name : Text} (hbase : base word <+: name) :
    word <+: candidate word name ↔ ¬ ('/' ∈ word ∧ dlen word = 0 ∧ base word ≠ []) := by
  unfold candidate dirpath
  by_cases hslash : '/' ∈ word
  · have hcontains : word.contains '/' = true := by simpa using hslash
    simp only [hcontains, if_true]
    by_cases hroot : dlen word = 0
    · rw [if_pos hroot]
      have hword := (dlen_eq_zero_iff hslash).mp hroot
      have hnot : '/' ∉ base word := notMem_afterLast '/' word
      constructor
      · rintro hpre ⟨_, _, hne⟩
        rw [hword] at hpre
        have htail : base word <+: '/' :: name := (List.cons_prefix_cons.mp hpre).2
        cases hb : base word with
        | nil => exact hne hb
        | cons b bs =>
            rw [hb] at htail hnot
            obtain ⟨rfl, _⟩ := List.cons_prefix_cons.mp htail
            exact hnot List.mem_cons_self
      · intro h
        have hnil : base word = [] := by
          by_contra hne
          exact h ⟨hslash, hroot, hne⟩
        rw [hword, hnil]
        exact ⟨'/' :: name, rfl⟩
    · rw [if_neg hroot]
      refine iff_of_true ?_ fun h => hroot h.2.1
      have hsplit := word_slash hslash
      obtain ⟨rest, hrest⟩ := hbase
      refine ⟨rest, ?_⟩
      conv_lhs => rw [← hsplit]
      rw [List.append_assoc, List.cons_append, hrest]
  · have hcontains : ¬ word.contains '/' = true := by simpa using hslash
    simp only [hcontains, Bool.false_eq_true, if_false]
    rw [base_no_slash hslash] at hbase
    exact iff_of_true hbase fun h => hslash h.1

/-- A line that is offered for an entry of the directory extends what was typed exactly
when the word is no name in the root. -/
theorem fileLine_extends_iff {fs : FileSystem} {buf name line : Text} {names : List Text}
    (hopen : fs.opendir (dirpath (word buf)) = some names) (hname : name ∈ names)
    (hline : fileLine buf name = some line) :
    Extends fs buf line ↔
      ¬ ('/' ∈ word buf ∧ dlen (word buf) = 0 ∧ base (word buf) ≠ []) := by
  obtain ⟨_, hbase, _, rfl⟩ := fileLine_spec.mp hline
  rw [← word_prefix_candidate_iff hbase]
  constructor
  · intro h
    have hwhole := h.whole
    conv_lhs at hwhole => rw [← before_word buf]
    exact (List.prefix_append_right_inj (before buf)).mp hwhole
  · intro hpre
    refine ⟨?_, ?_⟩
    · conv_lhs => rw [← before_word buf]
      exact (List.prefix_append_right_inj (before buf)).mpr hpre
    · intro hslash
      have hcontains : (word buf).contains '/' = true := by simpa using hslash
      refine ⟨names, name, candidate (word buf) name, hopen, hname, hbase, Or.inl ?_, rfl⟩
      rw [candidate, if_pos hcontains]

theorem mem_fileLines {fs : FileSystem} {buf line : Text} (h : line ∈ fileLines fs buf) :
    ∃ names name, fs.opendir (dirpath (word buf)) = some names ∧ name ∈ names ∧
      fileLine buf name = some line := by
  unfold fileLines at h
  split at h
  · contradiction
  · obtain ⟨name, hname, hline⟩ := List.mem_filterMap.mp h
    cases hopen : fs.opendir (dirpath (word buf)) with
    | none =>
        rw [hopen] at hname
        contradiction
    | some names =>
        rw [hopen] at hname
        exact ⟨names, name, rfl, hname, hline⟩

/-! ## The condition -/

/-- A word in the root, in its parts. -/
theorem word_root {word part : Text} (hword : word = '/' :: part) (hpart : '/' ∉ part) :
    '/' ∈ word ∧ dlen word = 0 ∧ base word = part := by
  have hslash : '/' ∈ word := hword ▸ List.mem_cons_self
  have hsplit := word_slash hslash
  have hnil : word.take (dlen word) = [] := by
    cases htake : word.take (dlen word) with
    | nil => rfl
    | cons c t =>
        rw [htake, hword, List.cons_append] at hsplit
        rw [← (List.cons.inj hsplit).2] at hpart
        exact absurd (by simp) hpart
  rw [hnil, List.nil_append] at hsplit
  have hbase : base word = part := by
    rw [hword] at hsplit
    rw [hword]
    exact (List.cons.inj hsplit).2
  exact ⟨hslash, (dlen_eq_zero_iff hslash).mpr hsplit.symm, hbase⟩

theorem dirpath_root {word : Text} (hslash : '/' ∈ word) (hroot : dlen word = 0) :
    dirpath word = ['/'] := by
  rw [dirpath, if_pos (by simpa using hslash), if_pos hroot]

/-- **Every line that completion offers extends what was typed, and names an entry of the
directory, exactly when the word is no name in the root directory that can be completed.** -/
theorem extends_iff (fs : FileSystem) (env : Env) (buf : Text) :
    (∀ line ∈ completionCb fs env buf, Extends fs buf line) ↔ NotInRoot fs buf := by
  constructor
  · intro hall part names name hword hpart hne hopen hname hpre
    obtain ⟨hslash, hroot, hbase⟩ := word_root hword hpart
    by_contra hnot
    obtain ⟨hdots, hshort⟩ := not_or.mp hnot
    have hdir := dirpath_root hslash hroot
    have hcand : candidate (word buf) name = ['/'] ++ '/' :: name := by
      rw [candidate, if_pos (by simpa using hslash), hdir]
    have hlen : (candidate (word buf) name).length = name.length + 2 := by
      rw [hcand]
      rfl
    have hline := fileLine_spec.mpr ⟨hdots, by rwa [hbase], by omega, rfl⟩
    have hmem : before buf ++ candidate (word buf) name ∈ completionCb fs env buf := by
      refine List.mem_append_right _ ?_
      rw [fileLines, if_neg (by rw [hroot]; simp [pathMax]), hdir, hopen]
      exact List.mem_filterMap.mpr ⟨name, hname, hline⟩
    rw [← hdir] at hopen
    exact (fileLine_extends_iff hopen hname hline).mp (hall _ hmem)
      ⟨hslash, hroot, by rwa [hbase]⟩
  · intro hroot line hline
    rcases List.mem_append.mp hline with hline | hline
    · by_cases hfirst : ' ' ∈ buf
      · rw [if_pos (by simpa using hfirst)] at hline
        contradiction
      · rw [if_neg (by simpa using hfirst)] at hline
        exact first_extends hfirst hline
    · obtain ⟨names, name, hopen, hname, hline⟩ := mem_fileLines hline
      refine (fileLine_extends_iff hopen hname hline).mpr ?_
      rintro ⟨hslash, hzero, hne⟩
      obtain ⟨hdots, hbase, hlen, _⟩ := fileLine_spec.mp hline
      rw [dirpath_root hslash hzero] at hopen
      have hcand : (candidate (word buf) name).length = name.length + 2 := by
        rw [candidate, if_pos (by simpa using hslash), dirpath_root hslash hzero]
        rfl
      rcases hroot (base (word buf)) names name ((dlen_eq_zero_iff hslash).mp hzero)
        (notMem_afterLast '/' (word buf)) hne hopen hname hbase with hnot | hnot
      · exact hdots hnot
      · omega

/-- A root directory with one entry. -/
def binOnly : FileSystem where
  opendir dir := if dir = ['/'] then some [['b', 'i', 'n']] else none
  executable _ := false
  slash_notMem := by
    intro dir names hopen name hname
    split at hopen
    · obtain rfl := Option.some.inj hopen
      rw [List.mem_singleton.mp hname]
      decide
    · contradiction

/-- **`/b` is completed to `//bin`.** -/
theorem root_doubled :
    ¬ ∀ (fs : FileSystem) (env : Env) (buf : Text),
      ∀ line ∈ completionCb fs env buf, Extends fs buf line := by
  intro h
  have hmem : ['/', '/', 'b', 'i', 'n'] ∈ completionCb binOnly (fun _ => none) ['/', 'b'] := by
    decide +kernel
  have hwhole := (h binOnly (fun _ => none) ['/', 'b'] _ hmem).whole
  revert hwhole
  decide

end Petrush.Verified.Completion

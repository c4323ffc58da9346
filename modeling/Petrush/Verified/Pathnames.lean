import Petrush.Mid.GlobScan
import Petrush.Verified.Patterns

/-!
# Pathname expansion

What `glob_word` answers in terms of the entries of the directory alone: the matching
entries in byte order, whatever order `readdir` has.

## Main results

* `globScan_eq` — the scan with its array is `globWord`.
* `strcmpLe_iff` — `strcmp` is the order of the bytes.
* `pathname_expansion` — the answer of `glob_word`, for every listing.
-/

namespace Petrush.Verified.Pathnames

open Petrush.Lib.CText
open Petrush.Lib.Cells
open Petrush.Lib.Wildcard
open Petrush.Mid.Glob
open Petrush.Mid.GlobScan
open Petrush.Verified.Patterns

/-! ## The scan -/

/-- `m` holds the paths, with cells to spare. -/
def Holds (m : Found) (paths : List Text) : Prop :=
  m.count = paths.length ∧ ∃ spare, m.cells = paths.map some ++ spare

theorem holds_empty : Holds {} [] := ⟨rfl, [], rfl⟩

/-- A path is added behind the others. -/
theorem write_grow (junk : Option Text) {m : Found} {paths : List Text} (h : Holds m paths)
    (path : Text) : ∃ cells, write (grow junk m) m.count (some path) = .ok cells ∧
      Holds ⟨cells, m.count + 1⟩ (paths ++ [path]) := by
  obtain ⟨hcount, spare, hcells⟩ := h
  have hroom : ∃ a rest, grow junk m = paths.map some ++ a :: rest := by
    rw [grow]
    split
    next hfull =>
      have hspare : spare = [] := by
        have hlen : m.cells.length = paths.length + spare.length := by
          rw [hcells, List.length_append, List.length_map]
        exact List.length_eq_zero_iff.mp (by omega)
      have hsize : ∃ k, (if m.cells.length = 0 then 8 else m.cells.length * 2) =
          m.cells.length + (k + 1) := by
        split
        · exact ⟨7, by omega⟩
        · exact ⟨m.cells.length - 1, by omega⟩
      obtain ⟨k, hk⟩ := hsize
      rw [hk, realloc_grow junk (by omega), hcells, hspare, List.append_nil,
        Nat.add_sub_cancel_left, List.replicate_succ]
      exact ⟨junk, List.replicate k junk, rfl⟩
    next hfree =>
      cases spare with
      | nil =>
          rw [hcells, List.append_nil, List.length_map, hcount] at hfree
          exact absurd (Nat.le_refl _) hfree
      | cons a rest => exact ⟨a, rest, hcells⟩
  obtain ⟨a, rest, hgrow⟩ := hroom
  refine ⟨paths.map some ++ some path :: rest, ?_, ?_, rest, ?_⟩
  · have hlen : m.count = (paths.map some).length := by
      rw [hcount, List.length_map]
    rw [hgrow, hlen, write_append]
  · show m.count + 1 = _
    rw [hcount, List.length_append, List.length_singleton]
  · show paths.map some ++ some path :: rest = _
    rw [List.map_append, List.append_assoc]
    rfl

section Scan

variable (junk : Option Text) (dir base : Text) (slash : Bool)

/-- The paths of the entries that are kept, in the order of `readdir`. -/
def pathsOf (names : List Text) : List Text :=
  (names.filter (globKeeps base)).map (globPath dir slash)

/-- A limit is passed. -/
def TooMany (paths : List Text) : Prop :=
  globMax < paths.length ∨ ∃ path ∈ paths, pathMax ≤ path.length

theorem pathsOf_cons (name : Text) (names : List Text) :
    pathsOf dir base slash (name :: names) =
      if globKeeps base name then globPath dir slash name :: pathsOf dir base slash names
      else pathsOf dir base slash names := by
  rw [pathsOf, List.filter_cons]
  split <;> rfl

/-- One turn: an entry that is not kept, a limit, or a path more. -/
theorem scanLoop_cons (name : Text) (names : List Text) (m : Found) :
    scanLoop junk dir base slash (name :: names) m =
      if globKeeps base name then
        if m.count ≥ globMax ∨ (globPath dir slash name).length ≥ pathMax then .ok none
        else do
          let cells ← write (grow junk m) m.count (some (globPath dir slash name))
          scanLoop junk dir base slash names ⟨cells, m.count + 1⟩
      else scanLoop junk dir base slash names m := by
  rw [scanLoop]
  by_cases hself : name = ['.'] ∨ name = "..".toList
  · have hkeep : globKeeps base name = false := by
      obtain rfl | rfl := hself <;> simp [globKeeps]
    rw [if_pos hself, hkeep]
    rfl
  · rw [if_neg hself]
    rw [not_or] at hself
    by_cases hdot : name.head? = some '.' ∧ base.head? ≠ some '.'
    · have hkeep : globKeeps base name = false := by
        simp [globKeeps, hdot]
      rw [if_pos hdot, hkeep]
      rfl
    · rw [if_neg hdot]
      by_cases hmatch : matchPat base name = true
      · have hkeep : globKeeps base name = true := by
          rw [not_and_or, not_not] at hdot
          have hdots : name ≠ ['.', '.'] := hself.2
          simp [globKeeps, hself.1, hdots, hmatch, hdot]
        rw [if_neg (by simp [hmatch]), hkeep, if_pos rfl]
        by_cases hcount : m.count ≥ globMax
        · rw [if_pos hcount, if_pos (Or.inl hcount)]
        · rw [if_neg hcount]
          by_cases hlen : (globPath dir slash name).length ≥ pathMax
          · rw [if_pos (Or.inr hlen)]
            exact if_pos hlen
          · rw [if_neg (not_or.mpr ⟨hcount, hlen⟩)]
            exact if_neg hlen
      · have hkeep : globKeeps base name = false := by
          simp [globKeeps, hmatch]
        rw [if_pos (by simp [hmatch]), hkeep]
        rfl

theorem TooMany.append {paths : List Text} (h : TooMany paths) (more : List Text) :
    TooMany (paths ++ more) := by
  obtain hlen | ⟨path, hpath, hlong⟩ := h
  · left
    rw [List.length_append]
    omega
  · exact .inr ⟨path, List.mem_append_left more hpath, hlong⟩

/-- A limit is passed with the next path. -/
theorem tooMany_snoc {paths : List Text} (h : ¬ TooMany paths) (path : Text) :
    TooMany (paths ++ [path]) ↔ paths.length ≥ globMax ∨ path.length ≥ pathMax := by
  rw [TooMany, not_or, not_exists] at h
  rw [TooMany, List.length_append, List.length_singleton]
  constructor
  · intro hmany
    obtain hlen | ⟨long, hmem, hlong⟩ := hmany
    · left
      omega
    · rcases List.mem_append.mp hmem with hmem | hmem
      · exact absurd ⟨hmem, hlong⟩ (h.2 long)
      · rw [List.mem_singleton.mp hmem] at hlong
        exact .inr hlong
  · intro hlimit
    obtain hlen | hlong := hlimit
    · left
      omega
    · exact .inr ⟨path, by simp, hlong⟩

/-- **The loop** stops at a limit, or ends with all paths in the array. -/
theorem scanLoop_spec (names : List Text) : ∀ {m : Found} {paths : List Text}, Holds m paths →
    ¬ TooMany paths →
      (TooMany (paths ++ pathsOf dir base slash names) →
        scanLoop junk dir base slash names m = .ok none) ∧
      (¬ TooMany (paths ++ pathsOf dir base slash names) →
        ∃ m', scanLoop junk dir base slash names m = .ok (some m') ∧
          Holds m' (paths ++ pathsOf dir base slash names)) := by
  induction names with
  | nil =>
      intro m paths hm hfew
      rw [pathsOf, List.filter_nil, List.map_nil, List.append_nil]
      exact ⟨fun hmany => absurd hmany hfew, fun _ => ⟨m, rfl, hm⟩⟩
  | cons name names ih =>
      intro m paths hm hfew
      rw [scanLoop_cons, pathsOf_cons]
      by_cases hkeep : globKeeps base name = true
      · rw [if_pos hkeep, if_pos hkeep, List.append_cons]
        have hsnoc := tooMany_snoc hfew (globPath dir slash name)
        rw [← hm.1] at hsnoc
        by_cases hmany : TooMany (paths ++ [globPath dir slash name])
        · rw [if_pos (hsnoc.mp hmany)]
          exact ⟨fun _ => rfl, fun h => absurd (hmany.append _) h⟩
        · obtain ⟨cells, hwrite, hm'⟩ := write_grow junk hm (globPath dir slash name)
          rw [if_neg fun h => hmany (hsnoc.mpr h), hwrite]
          exact ih hm' hmany
      · rw [if_neg hkeep, if_neg hkeep]
        exact ih hm hfew

theorem readPaths_map (spare : List (Option Text)) (paths : List Text) :
    readPaths paths.length (paths.map some ++ spare) = .ok paths := by
  induction paths with
  | nil => rfl
  | cons path paths ih =>
      rw [List.map_cons, List.cons_append, List.length_cons, readPaths, ih]
      rfl

instance (paths : List Text) : Decidable (TooMany paths) :=
  inferInstanceAs (Decidable (_ ∨ ∃ path ∈ paths, _))

/-- What is answered for the paths found. -/
def answer (pattern : Text) (paths : List Text) : Option (List Text) :=
  if TooMany paths then none
  else if paths = [] then some [pattern]
  else some (paths.insertionSort fun a b => strcmpLe a b = true)

/-- What is answered for what the loop leaves. -/
def finish (pattern : Text) : Option Found → Except Fault (Option (List Text))
  | none => .ok none
  | some m =>
      if m.count = 0 then .ok (some [pattern])
      else do
        let paths ← readPaths m.count m.cells
        .ok (some (paths.insertionSort fun a b => strcmpLe a b = true))

/-- The scan of a directory. -/
theorem finish_scanLoop (pattern : Text) (names : List Text) :
    (scanLoop junk dir base slash names {} >>= finish pattern) =
      .ok (answer pattern (pathsOf dir base slash names)) := by
  have hnot : ¬ TooMany [] := by
    simp [TooMany]
  obtain ⟨hmany, hfew⟩ := scanLoop_spec junk dir base slash names holds_empty hnot
  rw [List.nil_append] at hmany hfew
  rw [answer]
  by_cases hover : TooMany (pathsOf dir base slash names)
  · rw [hmany hover, if_pos hover]
    rfl
  · obtain ⟨m, hscan, hcount, spare, hcells⟩ := hfew hover
    rw [hscan, if_neg hover]
    show finish pattern (some m) = _
    rw [finish, hcells, hcount, readPaths_map]
    by_cases hnone : pathsOf dir base slash names = []
    · rw [hnone]
      rfl
    · rw [if_neg hnone, if_neg fun h => hnone (List.length_eq_zero_iff.mp h)]
      rfl

end Scan

section Answers

variable (junk : Option Text) {listing : Listing} {pattern dir base : Text} {slash : Bool}

/-- What is taken literally. -/
theorem globScan_literal (h : "**".toList <:+: pattern ∨ patternHasMeta pattern = false ∨
    globSplit pattern = none ∨
    ∃ dir base slash, globSplit pattern = some (dir, base, slash) ∧ listing dir = none) :
    globScan junk listing pattern = .ok (some [pattern]) := by
  rw [globScan]
  split
  · rfl
  next hstars =>
    split
    · rfl
    next hmeta =>
      obtain h | h | h | ⟨dir, base, slash, h, hlisting⟩ := h
      · exact absurd h hstars
      · exact absurd (by simp [h]) hmeta
      · rw [h]
      · simp only [h, hlisting]

/-- What is looked up. -/
theorem globScan_answer {names : List Text} (hstars : ¬ "**".toList <:+: pattern)
    (hmeta : patternHasMeta pattern = true) (hsplit : globSplit pattern = some (dir, base, slash))
    (hlisting : listing dir = some names) :
    globScan junk listing pattern = .ok (answer pattern (pathsOf dir base slash names)) := by
  rw [← finish_scanLoop junk, globScan, if_neg hstars, if_neg (by simp [hmeta])]
  simp only [hsplit, hlisting]
  cases scanLoop junk dir base slash names {} with
  | error x => rfl
  | ok m => cases m <;> rfl

theorem globWord_answer {names : List Text} (hstars : ¬ "**".toList <:+: pattern)
    (hmeta : patternHasMeta pattern = true) (hsplit : globSplit pattern = some (dir, base, slash))
    (hlisting : listing dir = some names) :
    globWord listing pattern = answer pattern (pathsOf dir base slash names) := by
  rw [globWord, if_neg hstars, if_neg (by simp [hmeta])]
  simp only [hsplit, hlisting]
  have hlimit : (pathsOf dir base slash names).length > globMax ∨
      ((pathsOf dir base slash names).any fun path => path.length ≥ pathMax) = true ↔
        TooMany (pathsOf dir base slash names) := by
    simp [TooMany]
  exact if_congr hlimit rfl rfl

end Answers

/-- **The scan on its array** never leaves it, and is `globWord`. -/
theorem globScan_eq (junk : Option Text) (listing : Listing) (pattern : Text) :
    globScan junk listing pattern = .ok (globWord listing pattern) := by
  by_cases hstars : "**".toList <:+: pattern
  · rw [globScan, globWord, if_pos hstars, if_pos hstars]
  · cases hmeta : patternHasMeta pattern with
    | false =>
        rw [globScan, globWord, if_neg hstars, if_neg hstars, if_pos (by simp [hmeta]),
          if_pos (by simp [hmeta])]
    | true =>
        cases hsplit : globSplit pattern with
        | none =>
            rw [globScan, globWord, if_neg hstars, if_neg hstars, if_neg (by simp [hmeta]),
              if_neg (by simp [hmeta]), hsplit]
        | some parts =>
            obtain ⟨dir, base, slash⟩ := parts
            cases hlisting : listing dir with
            | some names =>
                rw [globScan_answer junk hstars hmeta hsplit hlisting,
                  globWord_answer hstars hmeta hsplit hlisting]
            | none =>
                rw [globScan, globWord, if_neg hstars, if_neg hstars, if_neg (by simp [hmeta]),
                  if_neg (by simp [hmeta])]
                simp only [hsplit, hlisting]

/-! ## Directories and names -/

/-- The directory part of a pattern, when it has one, and its last component. -/
inductive Splits (pattern : Text) : Option Text → Text → Prop where
  | bare (h : '/' ∉ pattern) : Splits pattern none pattern
  | slash {front base : Text} (h : pattern = front ++ '/' :: base) (hbase : '/' ∉ base) :
      Splits pattern (some (if front = [] then ['/'] else front)) base

/-- The directory that is read. -/
def opened (dir : Option Text) : Text := dir.getD ['.']

/-- An entry as a pathname. -/
def pathname : Option Text → Text → Text
  | none, name => name
  | some dir, name => if dir = ['/'] then '/' :: name else dir ++ '/' :: name

/-- The entry is one of those a component stands for. -/
def Chosen (base name : Text) : Prop :=
  name ≠ ['.'] ∧ name ≠ "..".toList ∧ (name.head? = some '.' → base.head? = some '.') ∧
    Matches '*' '?' base name

theorem globKeeps_iff (base name : Text) : globKeeps base name = true ↔ Chosen base name := by
  rw [globKeeps, Chosen, ← matchPat_iff]
  simp only [Bool.and_eq_true, bne_iff_ne, Bool.or_eq_true, beq_iff_eq, and_assoc,
    imp_iff_not_or]

instance (base : Text) : DecidablePred (Chosen base) :=
  fun name => decidable_of_iff _ (globKeeps_iff base name)

/-- There is a `*` or a `?`. -/
def HasMeta (s : Text) : Prop := '*' ∈ s ∨ '?' ∈ s

instance (s : Text) : Decidable (HasMeta s) := inferInstanceAs (Decidable (_ ∨ _))

theorem patternHasMeta_iff (s : Text) : patternHasMeta s = true ↔ HasMeta s := by
  rw [patternHasMeta, List.any_eq_true, HasMeta]
  constructor
  · intro h
    obtain ⟨c, hc, hmeta⟩ := h
    simp only [Bool.or_eq_true, beq_iff_eq] at hmeta
    obtain rfl | rfl := hmeta
    · exact .inl hc
    · exact .inr hc
  · intro h
    obtain h | h := h
    · exact ⟨'*', h, by decide⟩
    · exact ⟨'?', h, by decide⟩

/-- Every pattern is split. -/
theorem exists_splits (pattern : Text) : ∃ dir base, Splits pattern dir base := by
  by_cases h : '/' ∈ pattern
  · -- the last slash is the first one from behind
    obtain ⟨u, v, hrev, hu⟩ := List.eq_append_cons_of_mem (List.mem_reverse.mpr h)
    have hpattern : pattern = v.reverse ++ '/' :: u.reverse := by
      rw [← List.reverse_reverse pattern, hrev]
      simp
    exact ⟨_, u.reverse, .slash hpattern (by simpa using hu)⟩
  · exact ⟨none, pattern, .bare h⟩

theorem hasMeta_append (s u : Text) : HasMeta (s ++ u) ↔ HasMeta s ∨ HasMeta u := by
  simp only [HasMeta, List.mem_append]
  tauto

theorem patternHasMeta_eq_false {s : Text} : patternHasMeta s = false ↔ ¬ HasMeta s := by
  rw [← patternHasMeta_iff, Bool.not_eq_true]

/-- **The split of the code**, for a pattern that is short enough. -/
theorem globSplit_eq {pattern base : Text} {dir : Option Text} (h : Splits pattern dir base)
    (hlen : pattern.length < pathMax) (hmeta : HasMeta pattern) : globSplit pattern =
      if HasMeta (dir.getD []) then none else some (opened dir, base, dir.isSome) := by
  cases h with
  | bare h =>
      have hbase : (pattern.reverse.takeWhile (· != '/')).reverse = pattern := by
        have hall : ∀ c ∈ pattern.reverse, (c != '/') = true := by
          intro c hc
          rw [bne_iff_ne]
          rintro rfl
          exact h (List.mem_reverse.mp hc)
        rw [List.takeWhile_eq_self_iff.mpr hall, List.reverse_reverse]
      have hno : ¬ HasMeta ((none : Option Text).getD []) := by
        simp [HasMeta]
      rw [globSplit, hbase, if_neg hno, Nat.sub_self, List.take_zero]
      rfl
  | @slash front _ hpattern hbase =>
      subst hpattern
      have htake : ((front ++ '/' :: base).reverse.takeWhile (· != '/')).reverse = base := by
        have hall : ∀ c ∈ base.reverse, (c != '/') = true := by
          intro c hc
          rw [bne_iff_ne]
          rintro rfl
          exact hbase (List.mem_reverse.mp hc)
        rw [List.reverse_append, List.reverse_cons, List.append_assoc,
          List.takeWhile_append_of_pos hall]
        simp
      have hdir : (front ++ '/' :: base).take ((front ++ '/' :: base).length - base.length) =
          front ++ ['/'] := by
        have hsum : (front ++ '/' :: base).length - base.length = (front ++ ['/']).length := by
          simp only [List.length_append, List.length_cons, List.length_nil]
          omega
        rw [hsum, List.append_cons front '/' base, List.take_left]
      have hshort : ¬ front.length ≥ pathMax := by
        rw [List.length_append] at hlen
        omega
      have hfront : HasMeta front ↔ HasMeta (if front = [] then ['/'] else front) := by
        split
        next hnil =>
          rw [hnil]
          decide
        next => rfl
      rw [globSplit, htake, hdir, if_neg (by simp), List.dropLast_concat]
      simp only [if_neg hshort, Option.getD_some, Option.isSome_some, opened]
      by_cases hdmeta : HasMeta (if front = [] then ['/'] else front)
      · rw [if_pos hdmeta, (patternHasMeta_iff _).mpr hdmeta]
        rfl
      · have hbmeta : HasMeta base := by
          rw [List.append_cons, hasMeta_append, hasMeta_append, hfront] at hmeta
          obtain (h | h) | h := hmeta
          · exact absurd h hdmeta
          · exact absurd h (by decide)
          · exact h
        rw [if_neg hdmeta, patternHasMeta_eq_false.mpr hdmeta, (patternHasMeta_iff _).mpr hbmeta]
        rfl

theorem globPath_eq (dir : Option Text) (name : Text) :
    globPath (opened dir) dir.isSome name = pathname dir name := by
  cases dir <;> rfl

/-- The paths of the entries, in the order of the directory. -/
def entries (dir : Option Text) (base : Text) (names : List Text) : List Text :=
  (names.filter (Chosen base)).map (pathname dir)

theorem pathsOf_eq (dir : Option Text) (base : Text) (names : List Text) :
    pathsOf (opened dir) base dir.isSome names = entries dir base names := by
  have hkeep : ∀ name ∈ names, globKeeps base name = decide (Chosen base name) := by
    intro name _
    rw [Bool.eq_iff_iff, decide_eq_true_eq]
    exact globKeeps_iff base name
  rw [pathsOf, entries, List.filter_congr hkeep]
  exact List.map_congr_left fun name _ => globPath_eq dir name

/-! ## Byte order -/

theorem strcmpLe_lex (s : Text) : ∀ t : Text,
    strcmpLe s t = true ↔ s = t ∨ List.Lex (· < ·) s t := by
  induction s with
  | nil =>
      intro t
      cases t <;> simp [strcmpLe]
  | cons a s ih =>
      intro t
      cases t with
      | nil => simp [strcmpLe]
      | cons b t =>
          rw [strcmpLe, List.cons_lex_cons_iff]
          by_cases hab : a = b
          · simp [hab, ih]
          · rw [if_neg hab, decide_eq_true_eq]
            simp only [List.cons.injEq, hab, false_and, false_or, or_false]
            exact Iff.rfl

/-- **`strcmp`** is the order of texts by their bytes. -/
theorem strcmpLe_iff (s t : Text) : strcmpLe s t = true ↔ s ≤ t := by
  rw [strcmpLe_lex, le_iff_eq_or_lt]
  exact Iff.rfl

instance : Std.Total fun a b : Text => strcmpLe a b = true where
  total a b := by
    rw [strcmpLe_iff, strcmpLe_iff]
    exact le_total a b

instance : IsTrans Text fun a b => strcmpLe a b = true where
  trans a b c hab hbc := by
    rw [strcmpLe_iff] at hab hbc ⊢
    exact le_trans hab hbc

/-- What `qsort` leaves. -/
theorem sorted_paths (paths : List Text) :
    (paths.insertionSort fun a b => strcmpLe a b = true).Perm paths ∧
      (paths.insertionSort fun a b => strcmpLe a b = true).Pairwise (· ≤ ·) := by
  refine ⟨List.perm_insertionSort _ paths, ?_⟩
  have hsorted := List.pairwise_insertionSort (fun a b : Text => strcmpLe a b = true) paths
  exact hsorted.imp fun hab => (strcmpLe_iff _ _).mp hab

/-- The order in which the paths were found does not matter. -/
theorem answer_perm {pattern : Text} {paths paths' : List Text} (h : paths.Perm paths') :
    answer pattern paths = answer pattern paths' := by
  have hmany : TooMany paths ↔ TooMany paths' := by
    simp only [TooMany, h.length_eq, h.mem_iff]
  have hnil : paths = [] ↔ paths' = [] := by
    constructor
    · rintro rfl
      exact h.nil_eq.symm
    · rintro rfl
      exact h.eq_nil
  have hsort : paths.insertionSort (fun a b => strcmpLe a b = true) =
      paths'.insertionSort fun a b => strcmpLe a b = true := by
    obtain ⟨hperm, hsorted⟩ := sorted_paths paths
    obtain ⟨hperm', hsorted'⟩ := sorted_paths paths'
    exact ((hperm.trans h).trans hperm'.symm).eq_of_pairwise' hsorted hsorted'
  rw [answer, answer, hsort]
  exact if_congr hmany rfl (if_congr hnil rfl rfl)

theorem answer_eq_none {pattern : Text} {paths : List Text} :
    answer pattern paths = none ↔ TooMany paths := by
  rw [answer]
  split_ifs <;> simp_all

theorem answer_sorted {pattern : Text} {found paths : List Text} (hfound : found ≠ [])
    (h : answer pattern found = some paths) : paths.Perm found ∧ paths.Pairwise (· ≤ ·) := by
  rw [answer, if_neg hfound] at h
  split at h
  · contradiction
  · rw [← Option.some.inj h]
    exact sorted_paths found

/-! ## The answer -/

/-- What `glob_word` is for: the answer for a pattern with its directory and last component. -/
structure Expansion (listing : Listing) (pattern : Text) (dir : Option Text) (base : Text)
    (result : Option (List Text)) : Prop where
  literal : ("**".toList <:+: pattern ∨ ¬ HasMeta pattern ∨ HasMeta (dir.getD []) ∨
    listing (opened dir) = none) → result = some [pattern]
  refused : ¬ "**".toList <:+: pattern → HasMeta pattern → ¬ HasMeta (dir.getD []) →
    ∀ names, listing (opened dir) = some names →
      (result = none ↔ 256 < (entries dir base names).length ∨
        ∃ path ∈ entries dir base names, 4096 ≤ path.length)
  unmatched : ¬ "**".toList <:+: pattern → HasMeta pattern → ¬ HasMeta (dir.getD []) →
    ∀ names, listing (opened dir) = some names → entries dir base names = [] →
      result = some [pattern]
  matched : ¬ "**".toList <:+: pattern → HasMeta pattern → ¬ HasMeta (dir.getD []) →
    ∀ names, listing (opened dir) = some names → entries dir base names ≠ [] →
      ∀ paths, result = some paths → paths.Perm (entries dir base names) ∧ paths.Pairwise (· ≤ ·)

/-- The directories have the same entries, in any order. -/
def SameEntries (listing listing' : Listing) : Prop :=
  ∀ dir, Option.Rel List.Perm (listing dir) (listing' dir)

section Answer

variable (junk : Option Text) {listing : Listing} {pattern base : Text} {dir : Option Text}

theorem globScan_expansion (listing : Listing) (hlen : pattern.length < pathMax)
    (hsplit : Splits pattern dir base) :
    ∃ result, globScan junk listing pattern = .ok result ∧
      Expansion listing pattern dir base result := by
  by_cases hstars : "**".toList <:+: pattern
  · exact ⟨_, globScan_literal junk (.inl hstars),
      fun _ => rfl, fun h => absurd hstars h, fun h => absurd hstars h, fun h => absurd hstars h⟩
  · by_cases hmeta : HasMeta pattern
    · have hsp := globSplit_eq hsplit hlen hmeta
      by_cases hdir : HasMeta (dir.getD [])
      · rw [if_pos hdir] at hsp
        exact ⟨_, globScan_literal junk
          (.inr (.inr (.inl hsp))), fun _ => rfl, fun _ _ h => absurd hdir h,
          fun _ _ h => absurd hdir h, fun _ _ h => absurd hdir h⟩
      · rw [if_neg hdir] at hsp
        cases hlisting : listing (opened dir) with
        | none =>
            refine ⟨_, globScan_literal junk (.inr (.inr (.inr ⟨_, _, _, hsp, hlisting⟩))), fun _ => rfl,
              ?_, ?_, ?_⟩
            · intro _ _ _ names h
              rw [hlisting] at h
              contradiction
            · intro _ _ _ names h
              rw [hlisting] at h
              contradiction
            · intro _ _ _ names h
              rw [hlisting] at h
              contradiction
        | some names =>
            have hscan := globScan_answer junk hstars ((patternHasMeta_iff _).mpr hmeta) hsp hlisting
            rw [pathsOf_eq] at hscan
            refine ⟨_, hscan, ?_, ?_, ?_, ?_⟩
            · intro h
              obtain h | h | h | h := h
              · exact absurd h hstars
              · exact absurd hmeta h
              · exact absurd h hdir
              · rw [hlisting] at h
                contradiction
            · intro _ _ _ names' h
              rw [hlisting] at h
              rw [← Option.some.inj h]
              exact answer_eq_none
            · intro _ _ _ names' h hnil
              rw [hlisting] at h
              rw [← Option.some.inj h] at hnil
              rw [hnil]
              rfl
            · intro _ _ _ names' h hnil paths hpaths
              rw [hlisting] at h
              rw [← Option.some.inj h] at hnil ⊢
              exact answer_sorted hnil hpaths
    · exact ⟨_, globScan_literal junk
        (.inr (.inl (patternHasMeta_eq_false.mpr hmeta))), fun _ => rfl,
        fun _ h => absurd h hmeta, fun _ h => absurd h hmeta, fun _ h => absurd h hmeta⟩

/-- Another order of the entries. -/
theorem globWord_same {listing' : Listing} (hlen : pattern.length < pathMax)
    (hsplit : Splits pattern dir base) (hsame : SameEntries listing listing') :
    globWord listing' pattern = globWord listing pattern := by
  by_cases hstars : "**".toList <:+: pattern
  · rw [globWord, globWord, if_pos hstars, if_pos hstars]
  · cases hmeta : patternHasMeta pattern with
    | false =>
        rw [globWord, globWord, if_neg hstars, if_neg hstars, if_pos (by simp [hmeta]),
          if_pos (by simp [hmeta])]
    | true =>
        have hsp := globSplit_eq hsplit hlen ((patternHasMeta_iff _).mp hmeta)
        have hrel := hsame (opened dir)
        split_ifs at hsp
        · rw [globWord, globWord, if_neg hstars, if_neg hstars, if_neg (by simp [hmeta]),
            if_neg (by simp [hmeta]), hsp]
        · cases hlisting : listing (opened dir) with
          | none =>
              cases hlisting' : listing' (opened dir) with
              | none =>
                  rw [globWord, globWord, if_neg hstars, if_neg hstars, if_neg (by simp [hmeta]),
                    if_neg (by simp [hmeta])]
                  simp only [hsp, hlisting, hlisting']
              | some names' =>
                  rw [hlisting, hlisting'] at hrel
                  cases hrel
          | some names =>
              cases hlisting' : listing' (opened dir) with
              | none =>
                  rw [hlisting, hlisting'] at hrel
                  cases hrel
              | some names' =>
                  rw [hlisting, hlisting'] at hrel
                  cases hrel with
                  | some hperm =>
                      rw [globWord_answer hstars hmeta hsp hlisting,
                        globWord_answer hstars hmeta hsp hlisting']
                      exact answer_perm ((hperm.symm.filter _).map _)

/-- **Pathname expansion.**  For every listing the scan of `glob_word` stays inside its array
and answers the matching entries of the directory in byte order; another order of the same
entries gives the same answer. -/
theorem pathname_expansion (listing : Listing) (pattern : Text) (hlen : pattern.length < pathMax) :
    (∃ dir base, Splits pattern dir base) ∧
    ∃ result, globScan junk listing pattern = .ok result ∧
      (∀ dir base, Splits pattern dir base → Expansion listing pattern dir base result) ∧
      ∀ listing', SameEntries listing listing' → globScan junk listing' pattern = .ok result := by
  obtain ⟨dir, base, hsplit⟩ := exists_splits pattern
  refine ⟨⟨dir, base, hsplit⟩, globWord listing pattern, globScan_eq junk listing pattern, ?_, ?_⟩
  · intro dir' base' hsplit'
    obtain ⟨result, hscan, hexpansion⟩ := globScan_expansion junk listing hlen hsplit'
    rw [globScan_eq] at hscan
    rwa [Except.ok.inj hscan]
  · intro listing' hsame
    rw [globScan_eq, globWord_same hlen hsplit hsame]

end Answer

/-- Three entries, one of them hidden. -/
def threeNames : Listing := fun dir =>
  if dir = "d".toList then some ["b".toList, ".h".toList, "a".toList] else none

theorem pathname_expansion_three : ∃ result, globScan none threeNames "d/*".toList = .ok result ∧
    ∀ listing', SameEntries threeNames listing' → globScan none listing' "d/*".toList = .ok result := by
  obtain ⟨_, result, hscan, _, hsame⟩ :=
    pathname_expansion none threeNames "d/*".toList (by decide)
  exact ⟨result, hscan, hsame⟩

example : globScan none threeNames "d/*".toList = .ok (some ["d/a".toList, "d/b".toList]) := by
  decide +kernel

end Petrush.Verified.Pathnames

import Petrush.Mid.Wai

/-!
# What the inventory shows

A name or a line is looked at in its first 127 bytes only, and a line of more than 511
bytes comes in pieces.  `scrub` is the tree without the entries and the lines of the
filtered files that hold one of the words; what these contribute to the inventory is what
is missing from the inventory of that tree.

## Main results

* `nameIsBanned_iff` — what the test sees.
* `walkDir_scrub`, `readFileFiltered_scrub` — a directory and a file, with and without.
* `silent_iff` — when nothing that holds a word is shown.
-/

namespace Petrush.Verified.Inventory

open Petrush.Lib.CText
open Petrush.Lib.Run
open Petrush.Lib.Stdio
open Petrush.Mid.Wai

/-! ## Programs that only append -/

/-- With room enough, all the program does is to append `t`. -/
def Writes (c : Prog Buffer Unit) (t : Text) : Prop :=
  ∀ s, s.out.length + t.length < s.cap → c s = .ok { s with out := s.out ++ t } ()

theorem Writes.nothing : Writes (pure ()) [] := by
  intro s _
  rw [pure_apply, List.append_nil]

theorem Writes.str (t : Text) : Writes (appendStr t) (cstr t) := by
  intro s hroom
  have hcap : ¬ s.cap = 0 := by omega
  have hfull : ¬ s.out.length ≥ s.cap := by omega
  have hlong : ¬ (cstr t).length > s.cap - 1 - s.out.length := by omega
  rw [appendStr, appendBytes, if_neg hcap, if_neg hfull, if_neg hlong]

theorem Writes.then {c d : Prog Buffer Unit} {t u : Text} (hc : Writes c t) (hd : Writes d u) :
    Writes (c >>= fun _ => d) (t ++ u) := by
  intro s hroom
  rw [List.length_append] at hroom
  have hrest : (s.out ++ t).length + u.length < s.cap := by
    rw [List.length_append]
    omega
  rw [bind_apply, Prog.bind, hc s (by omega)]
  dsimp only
  rw [hd _ hrest, List.append_assoc]

theorem Writes.each {α : Type} {f : α → Prog Buffer Unit} {g : α → Text}
    (h : ∀ x, Writes (f x) (g x)) (xs : List α) : Writes (forEach f xs) (xs.flatMap g) := by
  induction xs with
  | nil => exact Writes.nothing
  | cons x xs ih => exact (h x).then ih

/-- Two texts that one program appends are the same. -/
theorem Writes.unique {c : Prog Buffer Unit} {t u : Text} (ht : Writes c t) (hu : Writes c u) :
    t = u := by
  have hrunt := ht ⟨t.length + u.length + 1, []⟩ (by simp)
  have hrunu := hu ⟨t.length + u.length + 1, []⟩ (by simp)
  rw [hrunt] at hrunu
  simpa using hrunu

/-! ## Programs on a buffer with room -/

/-- There is room for the NUL. -/
def Room (s : Buffer) : Prop := s.out.length < s.cap

/-- The program leaves room. -/
def Safe (c : Prog Buffer Unit) : Prop := ∀ s, Room s → ∀ t u, c s = .ok t u → Room t

/-- Two programs do the same where there is room. -/
def Agree (c c' : Prog Buffer Unit) : Prop := ∀ s, Room s → c' s = c s

theorem Safe.nothing : Safe (pure ()) := by
  intro s hs t u h
  rw [pure_apply] at h
  injection h with hst
  rwa [← hst]

theorem Safe.str (t : Text) : Safe (appendStr t) := by
  intro s hs s' u h
  rw [appendStr, appendBytes] at h
  split_ifs at h with h₁ h₂ h₃
  injection h with hst
  rw [← hst]
  show (s.out ++ cstr t).length < s.cap
  rw [List.length_append]
  omega

theorem Safe.then {c d : Prog Buffer Unit} (hc : Safe c) (hd : Safe d) :
    Safe (c >>= fun _ => d) := by
  intro s hs t u h
  obtain ⟨s', v, hrun, hrest⟩ := bind_ok h
  exact hd s' (hc s hs s' v hrun) t u hrest

theorem Safe.each {α : Type} {f : α → Prog Buffer Unit} (h : ∀ x, Safe (f x)) (xs : List α) :
    Safe (forEach f xs) := by
  induction xs with
  | nil => exact Safe.nothing
  | cons x xs ih => exact (h x).then ih

theorem Agree.refl (c : Prog Buffer Unit) : Agree c c := fun _ _ => rfl

theorem Agree.then {c c' d d' : Prog Buffer Unit} (hc : Agree c c') (hsafe : Safe c)
    (hd : Agree d d') : Agree (c >>= fun _ => d) (c' >>= fun _ => d') := by
  intro s hs
  rw [bind_apply, bind_apply, Prog.bind, Prog.bind, hc s hs]
  cases hrun : c s with
  | ok t u => exact hd t (hsafe s hs t u hrun)
  | exit t code => rfl
  | cut t => rfl

/-- Appending nothing does nothing. -/
theorem Agree.str {t : Text} (h : cstr t = []) : Agree (appendStr t) (pure ()) := by
  intro s hs
  have hwrite := Writes.str t s (by rw [h]; exact hs)
  rw [hwrite, h, List.append_nil, pure_apply]

/-- What a loop passes over may be left out. -/
theorem Agree.filter {α : Type} {f : α → Prog Buffer Unit} (keep : α → Bool)
    (hsafe : ∀ x, Safe (f x)) {xs : List α}
    (h : ∀ x ∈ xs, keep x = false → Agree (f x) (pure ())) :
    Agree (forEach f xs) (forEach f (xs.filter keep)) := by
  induction xs with
  | nil => exact Agree.refl _
  | cons x xs ih =>
      have hrest := ih fun y hy => h y (List.mem_cons_of_mem x hy)
      by_cases hkeep : keep x = true
      · rw [List.filter_cons_of_pos hkeep]
        exact (Agree.refl (f x)).then (hsafe x) hrest
      · rw [List.filter_cons_of_neg hkeep]
        exact (h x List.mem_cons_self (by simpa using hkeep)).then (hsafe x) hrest

/-! ## With and without -/

/-- `c'` is `c` with something left out, and `Q` says that this changes nothing. -/
structure Without (c c' : Prog Buffer Unit) (Q : Prop) : Prop where
  same : Q → Agree c c'
  safe : Safe c
  shorter : ∃ t t', Writes c t ∧ Writes c' t' ∧ t'.length ≤ t.length ∧
    (t'.length = t.length → Q)

theorem Without.refl {c : Prog Buffer Unit} {t : Text} (h : Writes c t) (hsafe : Safe c) :
    Without c c True :=
  ⟨fun _ => Agree.refl c, hsafe, t, t, h, h, Nat.le_refl _, fun _ => trivial⟩

theorem Without.congr {c c' : Prog Buffer Unit} {P Q : Prop} (h : Without c c' P) (hiff : P ↔ Q) :
    Without c c' Q := by
  rwa [← propext hiff]

theorem Without.then {c c' d d' : Prog Buffer Unit} {P Q : Prop} (hc : Without c c' P)
    (hd : Without d d' Q) : Without (c >>= fun _ => d) (c' >>= fun _ => d') (P ∧ Q) := by
  refine ⟨fun h => (hc.same h.1).then hc.safe (hd.same h.2), hc.safe.then hd.safe, ?_⟩
  obtain ⟨t, t', ht, ht', hle, heq⟩ := hc.shorter
  obtain ⟨u, u', hu, hu', hle', heq'⟩ := hd.shorter
  refine ⟨t ++ u, t' ++ u', ht.then hu, ht'.then hu', ?_, fun hlen => ?_⟩
  · rw [List.length_append, List.length_append]
    omega
  · rw [List.length_append, List.length_append] at hlen
    exact ⟨heq (by omega), heq' (by omega)⟩

/-- A part that only runs under a condition. -/
theorem Without.onlyIf {c c' : Prog Buffer Unit} {P Q : Prop} [Decidable P] (h : Without c c' Q) :
    Without (onlyIf P c) (onlyIf P c') (P → Q) := by
  unfold Lib.Run.onlyIf
  by_cases hp : P
  · rw [if_pos hp, if_pos hp]
    exact h.congr ⟨fun hq _ => hq, fun hpq => hpq hp⟩
  · rw [if_neg hp, if_neg hp]
    exact (Without.refl Writes.nothing Safe.nothing).congr
      ⟨fun _ hP => absurd hP hp, fun _ => trivial⟩

/-- A run through a list, part by part. -/
theorem Without.each {α : Type} {f f' : α → Prog Buffer Unit} {Q : α → Prop}
    {xs : List α} (h : ∀ x ∈ xs, Without (f x) (f' x) (Q x)) :
    Without (forEach f xs) (forEach f' xs) (∀ x ∈ xs, Q x) := by
  induction xs with
  | nil =>
      exact (Without.refl Writes.nothing Safe.nothing).congr (by simp)
  | cons x xs ih =>
      have hrest := ih fun y hy => h y (List.mem_cons_of_mem x hy)
      exact ((h x List.mem_cons_self).then hrest).congr List.forall_mem_cons.symm

/-- A run through a list, of whose elements some are left out. -/
theorem Without.filter {α : Type} {f : α → Prog Buffer Unit} {g : α → Text} (keep : α → Bool)
    (hwrites : ∀ x, Writes (f x) (g x)) (hsafe : ∀ x, Safe (f x))
    (hsilent : ∀ x, g x = [] → Agree (f x) (pure ())) (xs : List α) :
    Without (forEach f xs) (forEach f (xs.filter keep)) (∀ x ∈ xs, keep x = false → g x = []) := by
  refine ⟨fun hq => Agree.filter keep hsafe fun x hx hkeep => hsilent x (hq x hx hkeep),
    Safe.each hsafe xs, xs.flatMap g, (xs.filter keep).flatMap g, Writes.each hwrites xs,
    Writes.each hwrites _, ?_, ?_⟩
  · exact ((List.filter_sublist).flatMap g).length_le
  · intro hlen x hx hkeep
    induction xs with
    | nil => exact absurd hx List.not_mem_nil
    | cons y ys ih =>
        have hle := ((List.filter_sublist (l := ys) (p := keep)).flatMap g).length_le
        by_cases hy : keep y = true
        · rw [List.filter_cons_of_pos hy, List.flatMap_cons, List.flatMap_cons, List.length_append,
            List.length_append] at hlen
          rcases List.mem_cons.mp hx with rfl | hx
          · rw [hy] at hkeep
            contradiction
          · exact ih (by omega) hx
        · rw [List.filter_cons_of_neg hy, List.flatMap_cons, List.length_append] at hlen
          rcases List.mem_cons.mp hx with rfl | hx
          · exact List.length_eq_zero_iff.mp (by omega)
          · exact ih (by omega) hx

/-! ## Words -/

/-- One of the two words is in the text, in letters of any case. -/
def holdsWord (t : Text) : Bool :=
  decide ("serial".toList <:+: t.map Char.toLower) || decide ("uuid".toList <:+: t.map Char.toLower)

/-- **What the test sees**: 127 bytes. -/
theorem nameIsBanned_iff (t : Text) :
    nameIsBanned t = true ↔ holdsWord ((cstr t).take 127) = true := Iff.rfl

/-! ## The tree without the words -/

/-- The files that are filtered line by line. -/
def filteredRels : List String := ["proc/meminfo", "proc/cpuinfo"]

/-- A path below the root of the tree. -/
def below (T : Tree) (rel : String) : Text := T.root ++ '/' :: rel.toList

/-- The tree without the entries that hold a word, and without the lines of filtered files
that do. -/
def scrub (T : Tree) : Tree :=
  { T with
    opendir := fun path => (T.opendir path).map fun names =>
      names.filter fun ent => !holdsWord ent.text
    fopen := fun path =>
      if filteredRels.any fun rel => below T rel == path then
        (T.fopen path).map (keepLines fun line => !holdsWord line)
      else T.fopen path }

/-- A path that is joined as it stands. -/
structure Plain (rel : String) : Prop where
  head : rel.toList.head? ≠ some '/'
  length_le : rel.toList.length ≤ 255

section Scrub

variable (T : Tree)

theorem joinPath_plain {rel : String} (h : Plain rel) :
    joinPath T rel.toList = some (below T rel) := by
  have hroot : T.root.length < 256 := T.root_lt
  have hlen := h.length_le
  have hfits : ¬ (T.root ++ '/' :: rel.toList).length ≥ pathMax := by
    rw [List.length_append, List.length_cons]
    show ¬ _ ≥ 512
    omega
  simp only [joinPath, if_neg h.head, if_neg hfits]
  rfl

/-- Nothing under `sys` is filtered line by line. -/
theorem openRel_scrub {rel : Text} (h : rel.head? = some 's') :
    openRel (scrub T) rel = openRel T rel := by
  have hslash : ¬ rel.head? = some '/' := by
    rw [h]
    decide
  have hother : ∀ path, joinPath T rel = some path →
      ¬ (filteredRels.any fun rel => below T rel == path) = true := by
    intro path hpath hany
    simp only [joinPath, if_neg hslash] at hpath
    split_ifs at hpath with hlong
    obtain ⟨filtered, hfiltered, heq⟩ := List.any_eq_true.mp hany
    rw [beq_iff_eq, ← Option.some.inj hpath, below, List.append_cancel_left_eq, List.cons.injEq] at heq
    have hhead : filtered.toList.head? = some 'p' := by
      have hall : ∀ f ∈ filteredRels, f.toList.head? = some 'p' := by decide
      exact hall filtered hfiltered
    rw [heq.2, h] at hhead
    exact absurd hhead (by decide)
  unfold openRel
  have hsame : joinPath (scrub T) rel = joinPath T rel := rfl
  rw [hsame]
  cases hjoin : joinPath T rel with
  | none => rfl
  | some path =>
      show (if filteredRels.any fun rel => below T rel == path then _ else _) = _
      rw [if_neg (hother path hjoin)]
      rfl

theorem besideEnt_head {dirRel : String} (h : dirRel.toList.head? = some 's') (ent : Name)
    (leaf : String) : (besideEnt dirRel ent leaf).head? = some 's' := by
  obtain ⟨t, ht⟩ := List.head?_eq_some_iff.mp h
  rw [besideEnt, ht]
  rfl

/-- The functions of the walk see no difference. -/
theorem call_scrub {dirRel : String} (h : dirRel.toList.head? = some 's') (fn : EntFn) (ent : Name) :
    fn.call (scrub T) dirRel ent = fn.call T dirRel ent := by
  have hside : ∀ leaf room label,
      sidecar (scrub T) dirRel ent leaf room label = sidecar T dirRel ent leaf room label := by
    intro leaf room label
    rw [sidecar, sidecar, openRel_scrub T (besideEnt_head h ent leaf)]
  have haccess : ∀ leaf, accessBeside (scrub T) dirRel ent leaf = accessBeside T dirRel ent leaf :=
    fun _ => rfl
  cases fn with
  | listName => simp only [EntFn.call, entListName, hside]
  | disk => simp only [EntFn.call, entDisk, hside]
  | usb => simp only [EntFn.call, entUsb, hside, haccess]
  | pci => simp only [EntFn.call, entPci, hside]
  | battery => simp only [EntFn.call, entBattery, hside]
  | thermal => simp only [EntFn.call, entThermal, hside]

/-! ## Entries -/

/-- The program appends `t` and more. -/
def Begins (c : Prog Buffer Unit) (t : Text) : Prop := Safe c ∧ ∃ u, Writes c (t ++ u)

theorem Begins.str (t : Text) : Begins (appendStr t) (cstr t) :=
  ⟨Safe.str t, [], by rw [List.append_nil]; exact Writes.str t⟩

theorem Begins.then {c d : Prog Buffer Unit} {t u : Text} (hc : Begins c t) (hd : Begins d u) :
    Begins (c >>= fun _ => d) t := by
  obtain ⟨hcs, t', hcw⟩ := hc
  obtain ⟨hds, u', hdw⟩ := hd
  refine ⟨hcs.then hds, t' ++ (u ++ u'), ?_⟩
  rw [← List.append_assoc]
  exact hcw.then hdw

theorem begins_sidecar (dirRel : String) (ent : Name) (leaf : String) (room : Nat)
    (label : String) : Begins (sidecar T dirRel ent leaf room label) [] := by
  unfold sidecar
  split
  · exact ⟨Safe.nothing, [], Writes.nothing⟩
  · exact ⟨(Safe.str _).then (Safe.str _), _, (Writes.str _).then (Writes.str _)⟩

/-- An entry the function writes something about. -/
def Shows (dirRel : String) (ent : Name) : EntFn → Prop
  | .usb => accessBeside T dirRel ent "product" = true ∨ accessBeside T dirRel ent "manufacturer" = true
  | .thermal => isThermalZone ent = true
  | .listName | .disk | .pci | .battery => True

/-- The name comes first. -/
theorem call_begins {dirRel : String} {ent : Name} {fn : EntFn} (h : Shows T dirRel ent fn) :
    Begins (fn.call T dirRel ent) (cstr ent.text) := by
  have hname := Begins.str ent.text
  have hend := Begins.str "\n".toList
  have hside := begins_sidecar T dirRel ent
  cases fn with
  | listName => exact hname.then ((hside _ _ _).then ((hside _ _ _).then ((hside _ _ _).then hend)))
  | disk => exact hname.then ((hside _ _ _).then ((hside _ _ _).then hend))
  | usb =>
      have hany : ¬ (!accessBeside T dirRel ent "product" &&
          !accessBeside T dirRel ent "manufacturer") = true := by
        rcases h with h | h
        · simp [h]
        · simp [h]
      rw [EntFn.call, entUsb, if_neg hany]
      exact hname.then ((hside _ _ _).then ((hside _ _ _).then hend))
  | pci =>
      exact hname.then ((Begins.str _).then
        ((hside _ _ _).then ((hside _ _ _).then ((hside _ _ _).then hend))))
  | battery => exact hname.then ((hside _ _ _).then ((hside _ _ _).then ((hside _ _ _).then hend)))
  | thermal =>
      have hzone : ¬ (!isThermalZone ent) = true := by
        have hz : isThermalZone ent = true := h
        simp [hz]
      rw [EntFn.call, entThermal, if_neg hzone]
      exact hname.then ((hside _ _ _).then ((hside _ _ _).then hend))

/-- Of any other entry nothing is written. -/
theorem call_silent {dirRel : String} {ent : Name} {fn : EntFn} (h : ¬ Shows T dirRel ent fn) :
    fn.call T dirRel ent = pure () := by
  cases fn with
  | usb =>
      simp only [Shows, not_or, Bool.not_eq_true] at h
      rw [EntFn.call, entUsb, h.1, h.2]
      rfl
  | thermal =>
      have hz : isThermalZone ent = false := by simpa [Shows] using h
      rw [EntFn.call, entThermal, hz]
      rfl
  | listName => exact absurd trivial h
  | disk => exact absurd trivial h
  | pci => exact absurd trivial h
  | battery => exact absurd trivial h

/-- What the walk does at an entry. -/
def visit (dirRel : String) (fn : EntFn) (ent : Name) : Prog Buffer Unit :=
  if skipped ent then pure () else fn.call T dirRel ent

/-- It writes nothing exactly where the entry is passed over or not shown. -/
theorem visit_writes (dirRel : String) (fn : EntFn) (ent : Name) :
    ∃ t, Writes (visit T dirRel fn ent) t ∧ Safe (visit T dirRel fn ent) ∧
      (t = [] ↔ skipped ent = true ∨ ¬ Shows T dirRel ent fn) ∧
      (t = [] → visit T dirRel fn ent = pure ()) := by
  unfold visit
  by_cases hskip : skipped ent = true
  · rw [if_pos hskip]
    exact ⟨[], Writes.nothing, Safe.nothing, by simp [hskip], fun _ => rfl⟩
  · rw [if_neg hskip]
    by_cases hshows : Shows T dirRel ent fn
    · obtain ⟨hsafe, u, hwrites⟩ := call_begins T hshows
      have hname : cstr ent.text ++ u ≠ [] := by
        rw [cstr_eq_self ent.nul_notMem]
        exact List.append_ne_nil_of_left_ne_nil ent.ne_nil u
      exact ⟨_, hwrites, hsafe, by simp [hskip, hshows, hname], fun h => absurd h hname⟩
    · rw [call_silent T hshows]
      exact ⟨[], Writes.nothing, Safe.nothing, by simp [hshows], fun _ => rfl⟩

/-- The entries of a directory that hold a word are not shown. -/
def EntriesQuiet (dirRel : String) (fn : EntFn) : Prop :=
  ∀ names, T.opendir (below T dirRel) = some names → ∀ ent ∈ names, holdsWord ent.text = true →
    ent.text.head? = some '.' ∨ holdsWord (ent.text.take 127) = true ∨ ¬ Shows T dirRel ent fn

theorem skipped_iff (ent : Name) : skipped ent = true ↔
    ent.text.head? = some '.' ∨ holdsWord (ent.text.take 127) = true := by
  rw [skipped, Bool.or_eq_true, beq_iff_eq, nameIsBanned_iff, cstr_eq_self ent.nul_notMem]

/-- **A directory, with and without.** -/
theorem walkDir_scrub {dirRel : String} (fn : EntFn) (hplain : Plain dirRel)
    (hsys : dirRel.toList.head? = some 's') :
    Without (walkDir T dirRel fn) (walkDir (scrub T) dirRel fn) (EntriesQuiet T dirRel fn) := by
  have hjoin := joinPath_plain T hplain
  have hjoin' : joinPath (scrub T) dirRel.toList = some (below T dirRel) := hjoin
  have hopen : (scrub T).opendir (below T dirRel) = (T.opendir (below T dirRel)).map fun names =>
      names.filter fun ent => !holdsWord ent.text := rfl
  unfold walkDir EntriesQuiet
  simp only [hjoin, hjoin', hopen, call_scrub T hsys]
  cases hnames : T.opendir (below T dirRel) with
  | none =>
      refine (Without.refl Writes.nothing Safe.nothing).congr ⟨fun _ names h => ?_, fun _ => trivial⟩
      contradiction
  | some names =>
      choose g hwrites hsafe hnil hpure using visit_writes T dirRel fn
      have hwithout := Without.filter (fun ent => !holdsWord ent.text)
        hwrites hsafe (fun ent h => by rw [hpure ent h]; exact Agree.refl _) names
      refine hwithout.congr ⟨fun h names' heq ent hent hword => ?_, fun h ent hent hkeep => ?_⟩
      · obtain rfl := Option.some.inj heq
        have hquiet := (hnil ent).mp (h ent hent (by simp [hword]))
        rw [skipped_iff, or_assoc] at hquiet
        exact hquiet
      · have hquiet := h names rfl ent hent (by simpa using hkeep)
        rw [hnil, skipped_iff, or_assoc]
        exact hquiet

/-! ## Lines -/

/-- What the reader does with a string. -/
def showPiece (piece : Text) : Prog Buffer Unit :=
  if lineIsBanned piece then pure () else appendStr piece

/-- What it appends. -/
def shownOf (piece : Text) : Text := if lineIsBanned piece then [] else cstr piece

theorem showPiece_writes (piece : Text) :
    Writes (showPiece piece) (shownOf piece) ∧ Safe (showPiece piece) ∧
      (shownOf piece = [] → Agree (showPiece piece) (pure ())) := by
  unfold showPiece shownOf
  by_cases hbanned : lineIsBanned piece = true
  · rw [if_pos hbanned, if_pos hbanned]
    exact ⟨Writes.nothing, Safe.nothing, fun _ => Agree.refl _⟩
  · rw [if_neg hbanned, if_neg hbanned]
    exact ⟨Writes.str piece, Safe.str piece, fun h => Agree.str h⟩

theorem forEach_flatMap {α β : Type} (f : β → Prog Buffer Unit) (g : α → List β) (xs : List α) :
    forEach f (xs.flatMap g) = forEach (fun x => forEach f (g x)) xs := by
  have happend : ∀ ys zs : List β, forEach f (ys ++ zs) = forEach f ys >>= fun _ => forEach f zs := by
    intro ys zs
    induction ys with
    | nil => rfl
    | cons y ys ih =>
        rw [List.cons_append, forEach, ih, forEach, bind_assoc]
  induction xs with
  | nil => rfl
  | cons x xs ih => rw [List.flatMap_cons, happend, ih, forEach]

/-- What is read of a line. -/
def showLine (line : Text) : Prog Buffer Unit := forEach showPiece (fgetsPieces 511 line)

/-- A line of which nothing is shown. -/
theorem showLine_silent {line : Text} (h : (fgetsPieces 511 line).flatMap shownOf = []) :
    Agree (showLine line) (pure ()) := by
  have hall := Agree.filter (f := showPiece) (fun _ => false)
    (fun piece => (showPiece_writes piece).2.1)
    (fun piece hpiece _ => (showPiece_writes piece).2.2 (List.flatMap_eq_nil_iff.mp h piece hpiece))
  rwa [List.filter_false] at hall

/-- The lines of a filtered file that hold a word are not shown. -/
def LinesQuiet (rel : String) : Prop :=
  ∀ content, T.fopen (below T rel) = some content → ∀ line ∈ fileLines content,
    holdsWord line = true → ∀ piece ∈ fgetsPieces 511 line,
      holdsWord ((cstr piece).take 127) = true ∨ cstr piece = []

theorem shownOf_nil (piece : Text) :
    shownOf piece = [] ↔ holdsWord ((cstr piece).take 127) = true ∨ cstr piece = [] := by
  rw [shownOf, ← nameIsBanned_iff]
  by_cases hbanned : nameIsBanned piece = true
  · simp [lineIsBanned, hbanned]
  · simp [lineIsBanned, hbanned]

/-- **A filtered file, with and without.** -/
theorem readFileFiltered_scrub {rel : String} (hplain : Plain rel) (hrel : rel ∈ filteredRels) :
    Without (readFileFiltered T rel true) (readFileFiltered (scrub T) rel true)
      (LinesQuiet T rel) := by
  have hjoin := joinPath_plain T hplain
  have hjoin' : joinPath (scrub T) rel.toList = some (below T rel) := hjoin
  have hopen : (scrub T).fopen (below T rel) =
      (T.fopen (below T rel)).map (keepLines fun line => !holdsWord line) :=
    if_pos (List.any_eq_true.mpr ⟨rel, hrel, beq_self_eq_true (below T rel)⟩)
  have hbody : (fun line => if (true && lineIsBanned line) = true then pure () else appendStr line) =
      showPiece := rfl
  unfold readFileFiltered LinesQuiet
  simp only [hjoin, hjoin', hopen, hbody]
  cases hcontent : T.fopen (below T rel) with
  | none =>
      refine (Without.refl Writes.nothing Safe.nothing).congr ⟨fun _ c h => ?_, fun _ => trivial⟩
      contradiction
  | some content =>
      simp only [Option.map_some]
      rw [fgetsPieces_keepLines (by decide), fgetsPieces_fileLines (by decide) content,
        forEach_flatMap, forEach_flatMap]
      have hwithout := Without.filter (f := showLine) (fun line => !holdsWord line)
        (g := fun line => (fgetsPieces 511 line).flatMap shownOf)
        (fun line => Writes.each (fun piece => (showPiece_writes piece).1) _)
        (fun line => Safe.each (fun piece => (showPiece_writes piece).2.1) _)
        (fun line h => showLine_silent h) (fileLines content)
      refine hwithout.congr ⟨fun h c heq line hline hword piece hpiece => ?_,
        fun h line hline hkeep => ?_⟩
      · obtain rfl := Option.some.inj heq
        exact (shownOf_nil piece).mp
          (List.flatMap_eq_nil_iff.mp (h line hline (by simp [hword])) piece hpiece)
      · refine List.flatMap_eq_nil_iff.mpr fun piece hpiece => ?_
        exact (shownOf_nil piece).mpr (h content rfl line hline (by simpa using hkeep) piece hpiece)

/-! ## The scan -/

/-- The values of the board are read from files that are not filtered. -/
theorem appendKvFile_scrub {rel key : Text} (h : rel.head? = some 's') :
    appendKvFile (scrub T) rel key = appendKvFile T rel key := by
  have hopen := openRel_scrub T h
  unfold openRel at hopen
  have hjoin : joinPath (scrub T) rel = joinPath T rel := rfl
  unfold appendKvFile
  rw [hjoin] at hopen ⊢
  cases hpath : joinPath T rel with
  | none => rfl
  | some path =>
      rw [hpath] at hopen
      have hfile : (scrub T).fopen path = T.fopen path := hopen
      dsimp only
      rw [hfile]

/-- The files of the board. -/
theorem boardRel_plain {key : String} (h : key ∈ boardKeys) :
    ∃ rel : String, Plain rel ∧ rel.toList.head? = some 's' ∧
      snprintf pathMax ("sys/class/dmi/id/".toList ++ key.toList) = rel.toList := by
  have hall : ∀ key ∈ boardKeys, ("sys/class/dmi/id/" ++ key).toList.length ≤ 255 := by decide
  have hlen := hall key h
  refine ⟨"sys/class/dmi/id/" ++ key, ⟨?_, hlen⟩, ?_, ?_⟩
  · simp
  · simp
  · rw [snprintf, String.toList_append] at *
    exact List.take_of_length_le (Nat.le_trans hlen (by decide))

theorem scanBoard_scrub : Without (scanBoard T) (scanBoard (scrub T)) True := by
  have hsame : scanBoard (scrub T) = scanBoard T := by
    have heach : ∀ keys : List String, (∀ key ∈ keys, key ∈ boardKeys) →
        forEach (fun key => appendKvFile (scrub T)
          (snprintf pathMax ("sys/class/dmi/id/".toList ++ key.toList)) key.toList) keys =
        forEach (fun key => appendKvFile T
          (snprintf pathMax ("sys/class/dmi/id/".toList ++ key.toList)) key.toList) keys := by
      intro keys hkeys
      induction keys with
      | nil => rfl
      | cons key keys ih =>
          obtain ⟨rel, -, hsys, hrel⟩ := boardRel_plain (hkeys key List.mem_cons_self)
          rw [forEach, forEach, ih fun k hk => hkeys k (List.mem_cons_of_mem key hk),
            appendKvFile_scrub T (by rw [hrel, hsys])]
    exact heach boardKeys fun key hkey => hkey
  rw [hsame]
  have hkey : ∀ key ∈ boardKeys, ∃ t, Writes (appendKvFile T
      (snprintf pathMax ("sys/class/dmi/id/".toList ++ key.toList)) key.toList) t ∧
      Safe (appendKvFile T
        (snprintf pathMax ("sys/class/dmi/id/".toList ++ key.toList)) key.toList) := by
    intro key hkey
    obtain ⟨rel, hplain, -, hrel⟩ := boardRel_plain hkey
    unfold appendKvFile
    rw [hrel, joinPath_plain T hplain]
    dsimp only
    split
    · exact ⟨[], Writes.nothing, Safe.nothing⟩
    · split
      · exact ⟨[], Writes.nothing, Safe.nothing⟩
      · exact ⟨_, (Writes.str _).then ((Writes.str _).then ((Writes.str _).then (Writes.str _))),
          (Safe.str _).then ((Safe.str _).then ((Safe.str _).then (Safe.str _)))⟩
  have hall := Without.each (f := fun key => appendKvFile T
      (snprintf pathMax ("sys/class/dmi/id/".toList ++ key.toList)) key.toList)
    (Q := fun _ => True) fun key (hmem : key ∈ boardKeys) => by
      obtain ⟨t, hwrites, hsafe⟩ := hkey key hmem
      exact Without.refl hwrites hsafe
  exact hall.congr (by simp)

/-- What a source keeps back. -/
def SourceQuiet : Source → Prop
  | .walk dirRel fn => EntriesQuiet T dirRel fn
  | .filtered rel => LinesQuiet T rel
  | .board => True

/-- What the table says of a source. -/
def WellPlaced : Source → Prop
  | .walk dirRel _ => Plain dirRel ∧ dirRel.toList.head? = some 's'
  | .filtered rel => Plain rel ∧ rel ∈ filteredRels
  | .board => True

theorem sections_wellPlaced : ∀ sec ∈ sections, WellPlaced sec.2.2 := by
  simp only [sections, List.forall_mem_cons]
  refine ⟨⟨⟨?_, ?_⟩, ?_⟩, ⟨⟨?_, ?_⟩, ?_⟩, ⟨⟨?_, ?_⟩, ?_⟩, ⟨⟨?_, ?_⟩, ?_⟩, ⟨⟨?_, ?_⟩, ?_⟩,
    ⟨⟨?_, ?_⟩, ?_⟩, ⟨⟨?_, ?_⟩, ?_⟩, ⟨⟨?_, ?_⟩, ?_⟩, ⟨⟨?_, ?_⟩, ?_⟩, ⟨⟨?_, ?_⟩, ?_⟩,
    ⟨⟨?_, ?_⟩, ?_⟩, trivial, fun _ h => absurd h List.not_mem_nil⟩ <;> decide

/-- **A source, with and without.** -/
theorem show_scrub {src : Source} (h : WellPlaced src) :
    Without (src.show T) (src.show (scrub T)) (SourceQuiet T src) := by
  cases src with
  | walk dirRel fn => exact walkDir_scrub T fn h.1 h.2
  | filtered rel => exact readFileFiltered_scrub T h.1 h.2
  | board => exact scanBoard_scrub T

/-- A section with its heading. -/
def showSection (flags : Nat) (sec : Nat × String × Source) : Prog Buffer Unit :=
  onlyIf ((effective flags).testBit sec.1) do
    appendSection sec.2.1
    sec.2.2.show T

theorem showSection_scrub (flags : Nat) {sec : Nat × String × Source} (h : WellPlaced sec.2.2) :
    Without (showSection T flags sec) (showSection (scrub T) flags sec)
      ((effective flags).testBit sec.1 = true → SourceQuiet T sec.2.2) := by
  have hheading : Without (appendSection sec.2.1) (appendSection sec.2.1) True :=
    Without.refl ((Writes.str _).then ((Writes.str _).then (Writes.str _)))
      ((Safe.str _).then ((Safe.str _).then (Safe.str _)))
  have hboth := (hheading.then (show_scrub T h)).congr (Iff.of_eq (true_and _))
  exact hboth.onlyIf

/-- Nothing that holds a word is shown in the sections that are asked for. -/
def Quiet (flags : Nat) : Prop :=
  ∀ sec ∈ sections, (effective flags).testBit sec.1 = true → SourceQuiet T sec.2.2

theorem sections_scrub (flags : Nat) :
    Without (forEach (showSection T flags) sections) (forEach (showSection (scrub T) flags) sections)
      (Quiet T flags) :=
  Without.each fun sec hsec => showSection_scrub T flags (sections_wellPlaced sec hsec)

end Scrub

/-- The end of a scan: the value returned, and the inventory. -/
def endOf : Outcome Buffer Unit → Int × Text
  | .ok s _ => ((BitVec.ofNat 32 s.out.length).toInt, s.out)
  | .exit s code => (code, s.out)
  | .cut s => (-1, s.out)

theorem petrushWaiScan_eq (T : Tree) (flags cap : Nat) : petrushWaiScan T flags cap =
    if cap = 0 then (enospc, []) else endOf (forEach (showSection T flags) sections ⟨cap, []⟩) := by
  unfold petrushWaiScan petrushWaiScanImpl
  by_cases hcap : cap = 0
  · subst hcap
    rfl
  · have hrun : (forEach (fun sec => onlyIf ((effective flags).testBit sec.1) do
        appendSection sec.2.1
        sec.2.2.show T) sections) = forEach (showSection T flags) sections := rfl
    rw [if_neg hcap, hrun]
    simp only [bind_apply, Prog.bind, look, id_eq, if_neg hcap, pure_apply, Lib.Run.modify]
    cases forEach (showSection T flags) sections ⟨cap, []⟩ <;> rfl

/-- What holds a word contributes nothing: the inventory is that of the tree without it,
whatever the room. -/
def Silent (T : Tree) (flags : Nat) : Prop :=
  ∀ cap, petrushWaiScan T flags cap = petrushWaiScan (scrub T) flags cap

theorem Silent.quiet {T : Tree} {flags : Nat} (h : Silent T flags) : Quiet T flags := by
  obtain ⟨t, t', ht, ht', hle, hquiet⟩ := (sections_scrub T flags).shorter
  have hrun := ht ⟨t.length + 1, []⟩ (by simp)
  have hrun' := ht' ⟨t.length + 1, []⟩ (by simp; omega)
  have hsame := h (t.length + 1)
  rw [petrushWaiScan_eq, petrushWaiScan_eq, if_neg (Nat.succ_ne_zero _),
    if_neg (Nat.succ_ne_zero _), hrun, hrun'] at hsame
  have htext : t = t' := by simpa [endOf] using (Prod.mk.inj hsame).2
  exact hquiet (by rw [htext])

theorem Quiet.silent {T : Tree} {flags : Nat} (h : Quiet T flags) : Silent T flags := by
  intro cap
  rw [petrushWaiScan_eq, petrushWaiScan_eq]
  by_cases hcap : cap = 0
  · rw [if_pos hcap, if_pos hcap]
  · have hroom : Room ⟨cap, []⟩ := Nat.pos_of_ne_zero hcap
    rw [if_neg hcap, if_neg hcap, (sections_scrub T flags).same h _ hroom]

/-- **When nothing that holds a word is shown.**  For every tree and all flags: exactly
when every such entry of a directory that is listed has a word in its first 127 bytes,
unless it is hidden or not shown for another reason, and every string of at most 511 bytes
that is read of such a line of a filtered file has one there, or nothing before a NUL. -/
theorem silent_iff (T : Tree) (flags : Nat) : Silent T flags ↔ Quiet T flags :=
  ⟨Silent.quiet, Quiet.silent⟩

/-- The command then prints what it would print of the other tree. -/
theorem builtinWai_scrub {T : Tree} {args : List Text}
    (h : ∀ flags, parseArgs 0 args = .scan flags → Quiet T flags) :
    builtinWai (scrub T) args = builtinWai T args := by
  unfold builtinWai
  cases hargs : parseArgs 0 args with
  | help => rfl
  | unknown arg => rfl
  | scan flags =>
      dsimp only
      rw [(h flags hargs).silent 65536]

/-! ## A name that is too long -/

/-- A word behind 127 bytes. -/
def lateName : Name where
  text := List.replicate 127 'x' ++ "serial".toList
  ne_nil := List.append_ne_nil_of_right_ne_nil _ (by decide)
  nul_notMem := by decide +kernel
  slash_notMem := by decide +kernel
  length_le := by decide +kernel

/-- A disk of that name. -/
def lateTree : Tree where
  root := []
  root_lt := by decide
  opendir path := if path = "/sys/block".toList then some [lateName] else none
  fopen _ := none
  access _ := false

/-- **The name of a disk is shown** with the word in it. -/
theorem serial_shown :
    petrushWaiScan lateTree 1 65536 =
      (141, "# disk\n".toList ++ List.replicate 127 'x' ++ "serial\n".toList) ∧
    ¬ Silent lateTree 1 := by
  refine ⟨by decide +kernel, fun hsilent => ?_⟩
  have hdisk : EntriesQuiet lateTree "sys/block" .disk :=
    hsilent.quiet (0, "disk", .walk "sys/block" .disk) (by decide) (by decide)
  have hlate : holdsWord lateName.text = true ∧ ¬ holdsWord (lateName.text.take 127) = true := by
    decide +kernel
  rcases hdisk [lateName] rfl lateName (List.mem_singleton.mpr rfl) hlate.1 with hdot | hearly | hshows
  · exact absurd hdot (by decide)
  · exact hlate.2 hearly
  · exact hshows trivial

end Petrush.Verified.Inventory

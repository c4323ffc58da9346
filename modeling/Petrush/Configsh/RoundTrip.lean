import Petrush.Configsh.Model

/-!
# `configsh` reads back what it prints

An accepted file leaves sections that are `Valid`: their names are known and
distinct, their keys are distinct and can be told from a comment, a header and a value,
and no key or value has blanks around it.  One line keeps this (`loadLine_valid`), and
each printed line of valid sections is read as what was printed.

## Main results

* `loadLines_valid` — what every accepted file leaves.
* `loadConfig_dumpConfig` — printing and reading again changes nothing.
-/

namespace Petrush.Configsh

open Petrush.Lib.CText
open Petrush.Lib.Stdio
open Petrush.Mid.Builtins

/-! ## Valid sections -/

/-- A text the reader leaves as it is: no blanks around it, no newline and no NUL. -/
structure Tidy (t : Text) : Prop where
  trimmed : trim isSpace t = t
  newline : '\n' ∉ t
  nul : nul ∉ t

/-- An entry that is read as an entry. -/
structure ValidEntry (e : Entry) : Prop where
  key_ne : e.key ≠ []
  key_head : ∀ c ∈ e.key.head?, c ≠ '#' ∧ c ≠ ';' ∧ c ≠ '['
  key_eq : '=' ∉ e.key
  key_tidy : Tidy e.key
  key_fits : fits kMaxKey e.key = true
  val_tidy : Tidy e.val
  val_fits : fits kMaxVal e.val = true

structure ValidSection (sec : Section) : Prop where
  known : isKnownSection sec.name = true
  keys : (sec.entries.map Entry.key).Nodup
  size : sec.entries.length ≤ kMaxEntries
  entries : ∀ e ∈ sec.entries, ValidEntry e

structure Valid (sections : List Section) : Prop where
  names : (sections.map Section.name).Nodup
  size : sections.length ≤ kMaxSections
  sections : ∀ sec ∈ sections, ValidSection sec

theorem Valid.nil : Valid [] := ⟨List.nodup_nil, Nat.zero_le _, fun _ h => nomatch h⟩

/-! ## Trimmed text -/

/-- Text that ends in nothing but a newline has none once it is trimmed. -/
theorem newline_notMem_trim {t : Text} (h : '\n' ∉ t.dropLast) : '\n' ∉ trim isSpace t := by
  intro hmem
  have hne : t ≠ [] := List.ne_nil_of_mem (trim_subset _ _ hmem)
  have hsplit := List.dropLast_append_getLast hne
  by_cases hlast : t.getLast hne = '\n'
  · rw [← hsplit, hlast, trim_append_tail (by simp [isSpace])] at hmem
    exact h (trim_subset _ _ hmem)
  · rw [← hsplit] at hmem
    rcases List.mem_append.mp (trim_subset _ _ hmem) with hmem | hmem
    · exact h hmem
    · exact hlast (List.mem_singleton.mp hmem).symm

/-! ## What a line can do -/

/-- What the text of an entry leaves. -/
theorem validEntry_of_line {line name value : Text} (htrim : trim isSpace line = line)
    (hnl : '\n' ∉ line) (hnul : nul ∉ line)
    (hhead : ∀ c ∈ line.head?, c ≠ '#' ∧ c ≠ ';' ∧ c ≠ '[')
    (hsplit : splitAtEq line = some (name, value)) (hkey : trim isSpace name ≠ [])
    (hkeyFits : fits kMaxKey (trim isSpace name) = true)
    (hvalFits : fits kMaxVal (trim isSpace value) = true) :
    ValidEntry ⟨trim isSpace name, trim isSpace value⟩ := by
  have hline := splitAtEq_eq hsplit
  have hname : trim isSpace name ⊆ line := by
    rw [hline]
    exact List.subset_append_of_subset_left _ (trim_subset _ _)
  have hvalue : trim isSpace value ⊆ line := by
    rw [hline]
    exact List.subset_append_of_subset_right _
      (List.subset_cons_of_subset _ (trim_subset _ _))
  have htidy : ∀ t : Text, trim isSpace t ⊆ line → Tidy (trim isSpace t) := fun t ht =>
    ⟨trim_trim _ _, fun h => hnl (ht h), fun h => hnul (ht h)⟩
  refine ⟨hkey, ?_, ?_, htidy _ hname, hkeyFits, htidy _ hvalue, hvalFits⟩
  · -- the line is trimmed, so its first byte is that of the key
    intro c hc
    cases name with
    | nil => exact absurd rfl hkey
    | cons d name =>
        have hd : isSpace d = false := by
          have hlast := trim_head (p := isSpace) (t := line) d
          rw [htrim, hline] at hlast
          exact hlast rfl
        have hdrop : (d :: name).dropWhile isSpace = d :: name := by simp [hd]
        rw [trim_of_dropWhile hdrop] at hc
        obtain rfl : d = c := Option.some.inj hc
        apply hhead
        rw [hline]
        rfl
  · exact fun h => not_mem_of_splitAtEq hsplit (trim_subset _ _ h)

theorem except_bind_ok {ε α β : Type} {x : Except ε α} {f : α → Except ε β} {b : β}
    (h : (x >>= f) = .ok b) : ∃ a, x = .ok a ∧ f a = .ok b := by
  cases x with
  | error e => contradiction
  | ok a => exact ⟨a, rfl, h⟩

theorem addEntry_ok {sec out : Section} {key val : Text} (h : addEntry sec key val = .ok out) :
    (∀ e ∈ sec.entries, e.key ≠ key) ∧ sec.entries.length < kMaxEntries ∧
      fits kMaxKey key = true ∧ fits kMaxVal val = true ∧
      out = { sec with entries := sec.entries ++ [⟨key, val⟩] } := by
  unfold addEntry at h
  split_ifs at h with hdup hsize hkey hval
  refine ⟨fun e he heq => ?_, Nat.lt_of_not_le hsize, by simpa using hkey, by simpa using hval,
    (Except.ok.inj h).symm⟩
  exact hdup (List.any_eq_true.mpr ⟨e, he, by simpa using heq⟩)

/-- What a line of an accepted file does. -/
theorem loadLine_cases {sections out : List Section} {lineno : Nat} {piece : Text}
    (hpiece : '\n' ∉ piece.dropLast) (h : loadLine sections lineno piece = .ok out) :
    out = sections ∨
      (∃ name, isKnownSection name = true ∧ findSection sections name = none ∧
        sections.length < kMaxSections ∧ out = sections ++ [⟨name, []⟩]) ∨
      ∃ cur e, sections.getLast? = some cur ∧ ValidEntry e ∧ (∀ e' ∈ cur.entries, e'.key ≠ e.key) ∧
        cur.entries.length < kMaxEntries ∧
        out = sections.dropLast ++ [{ cur with entries := cur.entries ++ [e] }] := by
  have hnl : '\n' ∉ trim isSpace (cstr piece) := by
    apply newline_notMem_trim
    intro hmem
    obtain ⟨rest, hrest⟩ : cstr piece <+: piece := List.takeWhile_prefix _
    apply hpiece
    rw [← hrest]
    cases rest with
    | nil =>
        rw [List.append_nil]
        exact hmem
    | cons c rest =>
        rw [List.dropLast_append_of_ne_nil (List.cons_ne_nil c rest)]
        exact List.mem_append_left _ (List.dropLast_subset _ hmem)
  have hnul : nul ∉ trim isSpace (cstr piece) := by
    intro hmem
    have hne := List.mem_takeWhile_imp (trim_subset _ _ hmem)
    simp at hne
  unfold loadLine at h
  simp only at h
  split at h
  · contradiction
  · split at h
    · exact Or.inl (Except.ok.inj h).symm
    next hskip =>
      simp only [not_or] at hskip
      split at h
      · refine Or.inr (Or.inl ?_)
        unfold loadHeader at h
        simp only at h
        split_ifs at h with hbad hknown hfind
        unfold addSection at h
        split_ifs at h with hsize hfits
        refine ⟨_, by simpa using hknown, ?_, Nat.lt_of_not_le hsize, (Except.ok.inj h).symm⟩
        exact Option.not_isSome_iff_eq_none.mp hfind
      next hheader =>
        refine Or.inr (Or.inr ?_)
        unfold loadEntry at h
        split at h
        · contradiction
        next cur hcur =>
          split at h
          · contradiction
          next key val hsplit =>
            split at h
            · contradiction
            next hkey =>
              obtain ⟨sec, hadd, hsec⟩ := except_bind_ok h
              obtain ⟨hdup, hsize, hkeyFits, hvalFits, rfl⟩ := addEntry_ok hadd
              have hvalid := validEntry_of_line (trim_trim _ _) hnl hnul
                (fun c hc => ⟨fun heq => hskip.2.1 (heq ▸ hc), fun heq => hskip.2.2 (heq ▸ hc),
                  fun heq => hheader (heq ▸ hc)⟩) hsplit hkey hkeyFits hvalFits
              exact ⟨cur, _, hcur, hvalid, hdup, hsize, (Except.ok.inj hsec).symm⟩

/-! ## Accepted files are valid -/

theorem Valid.addSection {sections : List Section} (h : Valid sections) {name : Text}
    (hknown : isKnownSection name = true) (hnew : findSection sections name = none)
    (hsize : sections.length < kMaxSections) : Valid (sections ++ [⟨name, []⟩]) := by
  constructor
  · rw [List.map_append, List.map_singleton, List.nodup_append]
    refine ⟨h.names, List.nodup_singleton _, ?_⟩
    intro n hn m hm heq
    obtain ⟨sec, hsec, rfl⟩ := List.mem_map.mp hn
    rw [List.mem_singleton.mp hm] at heq
    have hne := List.find?_eq_none.mp hnew sec hsec
    exact hne (by simpa using heq)
  · rw [List.length_append]
    exact hsize
  · intro sec hsec
    rcases List.mem_append.mp hsec with hsec | hsec
    · exact h.sections sec hsec
    · rw [List.mem_singleton.mp hsec]
      exact ⟨hknown, List.nodup_nil, Nat.zero_le _, fun _ he => nomatch he⟩

theorem Valid.addEntry {sections : List Section} (h : Valid sections) {cur : Section} {e : Entry}
    (hcur : sections.getLast? = some cur) (he : ValidEntry e)
    (hnew : ∀ e' ∈ cur.entries, e'.key ≠ e.key) (hsize : cur.entries.length < kMaxEntries) :
    Valid (sections.dropLast ++ [{ cur with entries := cur.entries ++ [e] }]) := by
  obtain ⟨before, rfl⟩ := List.getLast?_eq_some_iff.mp hcur
  rw [List.dropLast_concat]
  have hsec := h.sections cur (List.mem_append_right _ List.mem_cons_self)
  constructor
  · have hnames := h.names
    rw [List.map_append] at hnames ⊢
    exact hnames
  · have hlen := h.size
    rw [List.length_append] at hlen ⊢
    exact hlen
  · intro sec hmem
    rcases List.mem_append.mp hmem with hmem | hmem
    · exact h.sections sec (List.mem_append_left _ hmem)
    · rw [List.mem_singleton.mp hmem]
      refine ⟨hsec.known, ?_, ?_, ?_⟩
      · show ((cur.entries ++ [e]).map Entry.key).Nodup
        rw [List.map_append, List.map_singleton, List.nodup_append]
        refine ⟨hsec.keys, List.nodup_singleton _, ?_⟩
        intro k hk k' hk' heq
        obtain ⟨e', he', rfl⟩ := List.mem_map.mp hk
        rw [List.mem_singleton.mp hk'] at heq
        exact hnew e' he' heq
      · show (cur.entries ++ [e]).length ≤ kMaxEntries
        rw [List.length_append]
        exact hsize
      · intro e' he'
        rcases List.mem_append.mp he' with he' | he'
        · exact hsec.entries e' he'
        · rw [List.mem_singleton.mp he']
          exact he

theorem loadLine_valid {sections out : List Section} {lineno : Nat} {piece : Text}
    (hpiece : '\n' ∉ piece.dropLast) (h : loadLine sections lineno piece = .ok out)
    (hvalid : Valid sections) : Valid out := by
  rcases loadLine_cases hpiece h with rfl | ⟨name, hknown, hnew, hsize, rfl⟩ |
    ⟨cur, e, hcur, he, hnew, hsize, rfl⟩
  · exact hvalid
  · exact hvalid.addSection hknown hnew hsize
  · exact hvalid.addEntry hcur he hnew hsize

/-- **An accepted file leaves valid sections.** -/
theorem loadLines_valid : ∀ (pieces : List Text) (sections out : List Section) (lineno : Nat),
    (∀ piece ∈ pieces, '\n' ∉ piece.dropLast) → loadLines sections lineno pieces = .ok out →
    Valid sections → Valid out := by
  intro pieces
  induction pieces with
  | nil =>
      intro sections out lineno _ h hvalid
      rw [← Except.ok.inj h]
      exact hvalid
  | cons piece pieces ih =>
      intro sections out lineno hpieces h hvalid
      obtain ⟨next, hline, hrest⟩ := except_bind_ok h
      exact ih next out (lineno + 1) (fun p hp => hpieces p (List.mem_cons_of_mem _ hp)) hrest
        (loadLine_valid (hpieces piece List.mem_cons_self) hline hvalid)

/-! ## What is printed is read -/

/-- A text is read as one step of the loop: from `sections` to `out`. -/
def Reads (sections : List Section) (text : Text) (out : List Section) : Prop :=
  ∀ (lineno : Nat) (rest : Text), ∃ lineno',
    loadLines sections lineno (fgetsPieces (kMaxLine - 1) (text ++ rest)) =
      loadLines out lineno' (fgetsPieces (kMaxLine - 1) rest)

theorem Reads.nil (sections : List Section) : Reads sections [] sections :=
  fun lineno _ => ⟨lineno, rfl⟩

theorem Reads.append {first second third : List Section} {text more : Text}
    (h : Reads first text second) (h' : Reads second more third) :
    Reads first (text ++ more) third := by
  intro lineno rest
  obtain ⟨n, hn⟩ := h lineno (more ++ rest)
  obtain ⟨m, hm⟩ := h' n rest
  refine ⟨m, ?_⟩
  rw [List.append_assoc, hn, hm]

/-- A line that fits is one turn of the loop. -/
theorem Reads.line {sections out : List Section} {line : Text} (hnl : '\n' ∉ line)
    (hlen : line.length < kMaxLine - 1)
    (h : ∀ lineno, loadLine sections lineno (line ++ ['\n']) = .ok out) :
    Reads sections (line ++ ['\n']) out := by
  intro lineno rest
  refine ⟨lineno + 1, ?_⟩
  rw [List.append_assoc, List.singleton_append, fgetsPieces_line rest hnl hlen]
  show (loadLine sections lineno (line ++ ['\n']) >>= _) = _
  rw [h lineno]
  rfl

theorem knownSections_plain : ∀ name ∈ knownSections,
    name ≠ [] ∧ '\n' ∉ '[' :: name ++ [']'] ∧ ('[' :: name ++ [']']).length < kMaxLine - 1 ∧
      cstr ('[' :: name ++ [']'] ++ ['\n']) = '[' :: name ++ [']'] ++ ['\n'] ∧
      trim isSpace ('[' :: name ++ [']'] ++ ['\n']) = '[' :: name ++ [']'] ∧
      (name ++ [']']).takeWhile (· != ']') = name ∧ fits kMaxSectionName name = true := by
  decide

/-- A printed header opens its section. -/
theorem reads_header {sections : List Section} {name : Text} (hknown : isKnownSection name = true)
    (hnew : findSection sections name = none) (hsize : sections.length < kMaxSections) :
    Reads sections ('[' :: name ++ [']'] ++ ['\n']) (sections ++ [⟨name, []⟩]) := by
  have hmem : name ∈ knownSections := by simpa [isKnownSection] using hknown
  obtain ⟨hne, hnl, hlen, hcstr, htrim, htake, hfits⟩ := knownSections_plain name hmem
  refine Reads.line hnl hlen fun lineno => ?_
  have hlast : ('[' :: name ++ [']'] ++ ['\n']).getLast? = some '\n' := List.getLast?_concat
  have htail : ('[' :: name ++ [']']).tail = name ++ [']'] := rfl
  have hfirst : ('[' :: name ++ [']']).head? = some '[' := rfl
  have hbracket : ']' ∈ '[' :: name ++ [']'] := by simp
  simp only [loadLine, hcstr, hlast, htrim, ne_eq, not_true_eq_false, and_false, if_false]
  rw [if_neg (by simp), if_pos hfirst]
  simp only [loadHeader, htail, htake, hbracket, hne, not_true_eq_false, or_self, if_false, hknown,
    hnew, Bool.not_true, Bool.false_eq_true, Option.isSome_none, addSection, Nat.not_le.mpr hsize,
    hfits]

/-- The two trimmed sides of the `=` are what they were. -/
theorem trim_dumpEntry {e : Entry} (he : ValidEntry e) :
    trim isSpace (e.key ++ '=' :: e.val ++ ['\n']) = e.key ++ '=' :: e.val := by
  rw [trim_append_tail (by simp [isSpace])]
  apply trim_eq_self
  · intro c hc
    cases hkey : e.key with
    | nil => exact absurd hkey he.key_ne
    | cons d key =>
        rw [hkey] at hc
        have hhead := trim_head (p := isSpace) (t := e.key)
        rw [he.key_tidy.trimmed, hkey] at hhead
        exact hhead c hc
  · intro c hc
    rw [List.getLast?_append] at hc
    cases hval : e.val with
    | nil =>
        rw [hval] at hc
        obtain rfl : '=' = c := Option.some.inj hc
        decide
    | cons d val =>
        rw [hval, List.getLast?_cons_cons] at hc
        have hlast := trim_last (p := isSpace) (t := e.val)
        rw [he.val_tidy.trimmed, hval] at hlast
        apply hlast c
        cases hv : (d :: val).getLast? with
        | none => simp at hv
        | some x =>
            rw [hv] at hc
            exact hc

/-- A printed entry goes to the end of the section that was added last. -/
theorem reads_entry {before : List Section} {cur : Section} {e : Entry} (he : ValidEntry e)
    (hnew : ∀ e' ∈ cur.entries, e'.key ≠ e.key) (hsize : cur.entries.length < kMaxEntries) :
    Reads (before ++ [cur]) (dumpEntry e)
      (before ++ [{ cur with entries := cur.entries ++ [e] }]) := by
  have hnl : '\n' ∉ e.key ++ '=' :: e.val := by
    intro hmem
    rcases List.mem_append.mp hmem with hmem | hmem
    · exact he.key_tidy.newline hmem
    · rcases List.mem_cons.mp hmem with heq | hmem
      · exact absurd heq (by decide)
      · exact he.val_tidy.newline hmem
  have hnul : nul ∉ e.key ++ '=' :: e.val ++ ['\n'] := by
    intro hmem
    rcases List.mem_append.mp hmem with hmem | hmem
    · rcases List.mem_append.mp hmem with hmem | hmem
      · exact he.key_tidy.nul hmem
      · rcases List.mem_cons.mp hmem with heq | hmem
        · exact absurd heq (by decide)
        · exact he.val_tidy.nul hmem
    · exact absurd (List.mem_singleton.mp hmem) (by decide)
  have hkey : e.key.length + 1 ≤ 64 := of_decide_eq_true he.key_fits
  have hval : e.val.length + 1 ≤ 256 := of_decide_eq_true he.val_fits
  have hlen : (e.key ++ '=' :: e.val).length < kMaxLine - 1 := by
    simp only [List.length_append, List.length_cons]
    show e.key.length + (e.val.length + 1) < 511
    omega
  refine Reads.line hnl hlen fun lineno => ?_
  have hlast : (e.key ++ '=' :: e.val ++ ['\n']).getLast? = some '\n' := List.getLast?_concat
  have htrim := trim_dumpEntry he
  have hhead : (e.key ++ '=' :: e.val).head? = e.key.head? :=
    List.head?_append_of_ne_nil _ he.key_ne
  have hclass : ∀ c, e.key.head? = some c → c ≠ '#' ∧ c ≠ ';' ∧ c ≠ '[' :=
    fun c hc => he.key_head c hc
  simp only [loadLine, cstr_eq_self hnul, hlast, htrim, ne_eq, not_true_eq_false, and_false,
    if_false, hhead]
  rw [if_neg, if_neg (fun h => (hclass _ h).2.2 rfl)]
  · have hadd : addEntry cur e.key e.val = .ok { cur with entries := cur.entries ++ [e] } := by
      have hdup : (cur.entries.any fun e' => e'.key == e.key) = false := by
        apply List.any_eq_false.mpr
        intro e' he' heq
        exact hnew e' he' (by simpa using heq)
      simp [addEntry, hdup, Nat.not_le.mpr hsize, he.key_fits, he.val_fits]
    simp only [loadEntry, List.getLast?_concat, splitAtEq_append _ _ he.key_eq,
      he.key_tidy.trimmed, he.val_tidy.trimmed, he.key_ne, if_false, hadd, List.dropLast_concat]
    rfl
  · rintro (h | h | h)
    · simp at h
    · exact (hclass _ h).1 rfl
    · exact (hclass _ h).2.1 rfl

/-- A blank line is passed over. -/
theorem reads_blank (sections : List Section) : Reads sections ['\n'] sections := by
  show Reads sections ([] ++ ['\n']) sections
  exact Reads.line (by simp) (by decide) fun _ => rfl

theorem reads_entries {before : List Section} : ∀ (entries : List Entry) (cur : Section),
    ValidSection { cur with entries := cur.entries ++ entries } →
    Reads (before ++ [cur]) (entries.flatMap dumpEntry)
      (before ++ [{ cur with entries := cur.entries ++ entries }]) := by
  intro entries
  induction entries with
  | nil =>
      intro cur _
      rw [List.append_nil]
      exact Reads.nil _
  | cons e entries ih =>
      intro cur hvalid
      have hsplit : cur.entries ++ e :: entries = cur.entries ++ [e] ++ entries := by simp
      have he : ValidEntry e := hvalid.entries e (List.mem_append_right _ List.mem_cons_self)
      have hnew : ∀ e' ∈ cur.entries, e'.key ≠ e.key := by
        intro e' he'
        have hkeys := hvalid.keys
        rw [List.map_append, List.nodup_append] at hkeys
        exact hkeys.2.2 _ (List.mem_map_of_mem he') _ (List.mem_map_of_mem List.mem_cons_self)
      have hsize : cur.entries.length < kMaxEntries := by
        have hlen := hvalid.size
        simp only [List.length_append, List.length_cons] at hlen
        omega
      rw [hsplit] at hvalid ⊢
      rw [List.flatMap_cons]
      exact (reads_entry he hnew hsize).append (ih { cur with entries := cur.entries ++ [e] } hvalid)

/-- A printed section is read as that section. -/
theorem reads_section {before : List Section} {sec : Section} (hvalid : ValidSection sec)
    (hnew : findSection before sec.name = none) (hsize : before.length < kMaxSections) :
    Reads before (dumpSection sec) (before ++ [sec]) := by
  have hheader := reads_header hvalid.known hnew hsize
  have hentries : Reads (before ++ [⟨sec.name, []⟩]) (sec.entries.flatMap dumpEntry)
      (before ++ [sec]) := reads_entries sec.entries ⟨sec.name, []⟩ (by simpa using hvalid)
  have hdump : dumpSection sec =
      '[' :: sec.name ++ [']'] ++ ['\n'] ++ sec.entries.flatMap dumpEntry := by
    simp [dumpSection]
  rw [hdump]
  exact hheader.append hentries

theorem reads_sections : ∀ (sections before : List Section), Valid (before ++ sections) →
    Reads before (['\n'].intercalate (sections.map dumpSection)) (before ++ sections) := by
  intro sections
  induction sections with
  | nil =>
      intro before _
      rw [List.append_nil]
      exact Reads.nil before
  | cons sec sections ih =>
      intro before hvalid
      have hsplit : before ++ sec :: sections = before ++ [sec] ++ sections := by simp
      have hsec := hvalid.sections sec (List.mem_append_right _ List.mem_cons_self)
      have hnew : findSection before sec.name = none := by
        apply List.find?_eq_none.mpr
        intro other hother heq
        have hnames := hvalid.names
        rw [List.map_append, List.nodup_append] at hnames
        exact hnames.2.2 _ (List.mem_map_of_mem hother) _
          (List.mem_map_of_mem List.mem_cons_self) (by simpa using heq)
      have hsize : before.length < kMaxSections := by
        have hlen := hvalid.size
        simp only [List.length_append, List.length_cons] at hlen
        omega
      have hfirst := reads_section hsec hnew hsize
      rw [hsplit] at hvalid ⊢
      have hrest := ih (before ++ [sec]) hvalid
      cases sections with
      | nil => simpa using hfirst
      | cons next sections =>
          rw [List.map_cons, List.map_cons, List.intercalate_cons_cons]
          exact (hfirst.append (reads_blank _)).append hrest

/-- **Printing and reading again changes nothing**: for every file that is accepted, what
is printed of the whole configuration is accepted and read as the same configuration;
and its sections are valid. -/
theorem loadConfig_dumpConfig {path content : Text} {cfg : Config}
    (h : loadConfig path (some content) = .ok cfg) :
    ∃ text, dumpConfig cfg none = some text ∧ loadConfig path (some text) = .ok cfg ∧
      Valid cfg.sections := by
  unfold loadConfig at h
  split at h
  · contradiction
  next hpath =>
    obtain ⟨sections, hload, hcfg⟩ := except_bind_ok h
    obtain rfl := Except.ok.inj hcfg
    have hvalid := loadLines_valid _ _ _ _ (fun _ => newline_notMem_fgetsPieces) hload Valid.nil
    refine ⟨_, rfl, ?_, hvalid⟩
    obtain ⟨lineno, hreads⟩ := reads_sections sections [] hvalid 1 []
    rw [List.append_nil, fgetsPieces_nil] at hreads
    simp only [loadConfig, if_neg hpath, hreads]
    rfl

/-- A comment, text behind a header, padding, a carriage return, and a value with `=`
and `;`. -/
def sampleFile : Text := "; c\n[prompt] x\n ps1 = a=b;c \r\n\n[env]\nA=\n".toList

/-- What it holds. -/
def sampleConfig : Config :=
  ⟨[⟨"prompt".toList, [⟨"ps1".toList, "a=b;c".toList⟩]⟩, ⟨"env".toList, [⟨"A".toList, []⟩]⟩],
    "c.ini".toList, true⟩

theorem loadConfig_dumpConfig_sample :
    ∃ text, dumpConfig sampleConfig none = some text ∧
      loadConfig "c.ini".toList (some text) = .ok sampleConfig ∧ Valid sampleConfig.sections :=
  loadConfig_dumpConfig (show loadConfig "c.ini".toList (some sampleFile) = .ok sampleConfig from rfl)

end Petrush.Configsh

import Petrush.Mid.Builtins
import Petrush.Verified.Scanning
import Petrush.Verified.Stages

/-!
# Adjacent parts of one word

A word may be written as parts that touch: `ll='ls -la'`.  This module says
exactly which sequences of parts `tokenize` reads back as one word, and what
that leaves of a definition given to `alias` or `export`.

## Main results

* `isOneWord_iff`: one word with the parts' contents exactly when no part is
  quoted, or the sequence is a single part.
* `parts_and_definitions`: with it, that `name='text'` never defines `text`.
-/

namespace Petrush.Verified.WordParts

open Petrush.Lib.CText
open Petrush.Foundation
open Petrush.Mid.Ast
open Petrush.Mid.Lexer
open Petrush.Mid.Alias
open Petrush.Mid.Builtins
open Petrush.Verified.Scanning
open Petrush.Verified.Stages

/-! ## Parts -/

/-- The characters of an unquoted part. -/
def isPlain (c : Char) : Bool :=
  !isspace c && !isQuote c && c != '$' && c != '|' && c != '<' && c != '>' && c != '&'

/-- A part of a word as written. -/
inductive Part where
  | plain (s : Text) (nonempty : s ≠ []) (plain : ∀ c ∈ s, isPlain c = true)
  | single (s : Text) (free : '\'' ∉ s)
  | double (s : Text) (free : '"' ∉ s)

namespace Part

/-- The part as written. -/
def render : Part → Text
  | plain s _ _ => s
  | single s _ => '\'' :: s ++ ['\'']
  | double s _ => '"' :: s ++ ['"']

/-- The part without its delimiting quotes. -/
def content : Part → Text
  | plain s _ _ | single s _ | double s _ => s

/-- The part is written between quotes. -/
def quoted : Part → Bool
  | plain _ _ _ => false
  | _ => true

end Part

/-- A sequence of parts written without blanks between them. -/
def render (parts : List Part) : Text := parts.flatMap Part.render

/-- The text the sequence stands for. -/
def content (parts : List Part) : Text := parts.flatMap Part.content

/-- `tokenize` reads the sequence as one word with that text. -/
def IsOneWord (parts : List Part) : Prop :=
  ∃ q, tokenize (render parts) = some [.word ⟨content parts, q⟩]

/-! ## Plain text through the scanner -/

/-- What the word scanner needs to know of a plain character. -/
theorem not_special_of_isPlain {c : Char} (h : isPlain c = true) :
    isspace c = false ∧ isQuote c = false ∧ c ≠ '$' ∧ c ≠ '|' ∧ c ≠ '<' ∧ c ≠ '>' ∧ c ≠ '&' := by
  simpa [isPlain, and_assoc] using h

theorem wordStop_of_isPlain {c : Char} (s : Text) (h : isPlain c = true) :
    wordStop (c :: s) = false := by
  obtain ⟨hsp, -, -, hp, hl, hg, ha⟩ := not_special_of_isPlain h
  simp [wordStop, hsp, hp, hl, hg, ha]

/-- An unquoted word runs through plain text. -/
theorem wordLen_plain_append (s t : Text) (h : ∀ c ∈ s, isPlain c = true) :
    wordLen wordStop 0 (s ++ t) = s.length + wordLen wordStop 0 t := by
  refine wordLen_append wordStop s t fun c hc => ⟨?_, fun u => wordStop_of_isPlain u (h c hc)⟩
  exact (not_special_of_isPlain (h c hc)).2.2.1

/-- A plain character starts no operator. -/
theorem nextToken_of_isPlain {c : Char} (s : Text) (h : isPlain c = true)
    (hs : s.head? ≠ some '>') :
    nextToken (c :: s) = some (.word (scanWord (c :: s)).1, (scanWord (c :: s)).2) := by
  obtain ⟨-, -, -, hp, hl, hg, ha⟩ := not_special_of_isPlain h
  exact nextToken_of_not_op s ⟨hp, hl, hg, ha⟩ fun _ => hs

/-! ## The tokenizer on one word -/

/-- A plain first character begins an unquoted word. -/
theorem scanWord_of_isPlain {c : Char} (s : Text) (h : isPlain c = true) :
    scanWord (c :: s) =
      (⟨(c :: s).take (wordLen wordStop 0 (c :: s)), .unquoted⟩, wordLen wordStop 0 (c :: s)) :=
  scanWith_unquoted wordStop s (not_special_of_isPlain h).2.1

/-- Plain text is one word. -/
theorem tokenize_plain (s : Text) (hne : s ≠ []) (h : ∀ c ∈ s, isPlain c = true) :
    tokenize s = some [.word ⟨s, .unquoted⟩] := by
  cases s with
  | nil => contradiction
  | cons c s =>
      have hc := h c (by simp)
      have hlen : wordLen wordStop 0 (c :: s) = (c :: s).length := by
        simpa [wordLen] using wordLen_plain_append (c :: s) [] h
      have hhead : s.head? ≠ some '>' := by
        intro hs
        have hmem : '>' ∈ s := List.mem_of_mem_head? hs
        exact absurd (h '>' (by simp [hmem])) (by decide)
      have hnext := nextToken_of_isPlain s hc hhead
      have hsp := (not_special_of_isPlain hc).1
      rw [tokenize, tokenizeFrom_token hsp hnext, scanWord_of_isPlain s hc, hlen]
      simp [tokenizeFrom]

/-- A text between quotes is one word. -/
theorem tokenize_quoted (q : Char) (s : Text) (hq : isQuote q = true) (h : q ∉ s) :
    tokenize (q :: s ++ [q]) =
      some [.word ⟨s, if q = '\'' then .single else .double⟩] := by
  have hsp := isspace_of_isQuote hq
  have hscan : scanWord (q :: s ++ [q]) = _ := scanWith_quoted wordStop q s [] hq h
  have hnext := nextToken_of_isQuote (s ++ [q]) hq
  rw [tokenize, List.cons_append, tokenizeFrom_token hsp hnext, ← List.cons_append, hscan]
  simp [tokenizeFrom]

/-! ## Sequences with a quoted part -/

namespace Part

theorem render_ne_nil (p : Part) : p.render ≠ [] := by
  cases p with
  | plain s hne h => exact hne
  | single s h => simp [render]
  | double s h => simp [render]

/-- A part ends in a character that is not a blank. -/
theorem exists_last (p : Part) : ∃ s c, p.render = s ++ [c] ∧ isspace c = false := by
  cases p with
  | plain s hne h =>
      refine ⟨s.dropLast, s.getLast hne, (List.dropLast_concat_getLast hne).symm, ?_⟩
      exact (not_special_of_isPlain (h _ (List.getLast_mem hne))).1
  | single s h => exact ⟨'\'' :: s, '\'', rfl, by decide⟩
  | double s h => exact ⟨'"' :: s, '"', rfl, by decide⟩

/-- A part does not begin with `>`. -/
theorem render_head_ne_gt (p : Part) (s : Text) : (p.render ++ s).head? ≠ some '>' := by
  cases p with
  | single t h => simp [render]
  | double t h => simp [render]
  | plain t hne h =>
      cases t with
      | nil => contradiction
      | cons c t =>
          have hc := not_special_of_isPlain (h c (by simp))
          simpa [render] using hc.2.2.2.2.2.1

theorem length_content_le (p : Part) : p.content.length ≤ p.render.length := by
  cases p <;> simp [content, render] <;> omega

theorem length_content_lt (p : Part) (h : p.quoted = true) :
    p.content.length < p.render.length := by
  cases p with
  | plain s hne hs => simp [quoted] at h
  | single s hs => simp [content, render]
  | double s hs => simp [content, render]

theorem content_eq_render (p : Part) (h : p.quoted = false) : p.content = p.render := by
  cases p with
  | plain s hne hs => rfl
  | single s hs => simp [quoted] at h
  | double s hs => simp [quoted] at h

end Part

private theorem render_head_ne_gt (parts : List Part) : (render parts).head? ≠ some '>' := by
  cases parts with
  | nil => simp [render]
  | cons p parts => exact p.render_head_ne_gt _

/-- A suffix of a sequence that is all blanks is empty. -/
private theorem drop_eq_nil_of_blank (parts : List Part) (n : Nat)
    (h : ∀ c ∈ (render parts).drop n, isspace c = true) : (render parts).drop n = [] := by
  rcases List.eq_nil_or_concat parts with rfl | ⟨init, p, rfl⟩
  · simp [render]
  · obtain ⟨s, c, hp, hc⟩ := p.exists_last
    have hr : render (init ++ [p]) = (render init ++ s) ++ [c] := by simp [render, hp]
    rw [List.concat_eq_append, hr] at h ⊢
    by_cases hn : n ≤ (render init ++ s).length
    · rw [List.drop_append_of_le_length hn] at h
      rw [h c (by simp)] at hc
      contradiction
    · have hle : (render init ++ s ++ [c]).length ≤ n := by
        simp only [List.length_append, List.length_cons, List.length_nil] at hn ⊢
        omega
      exact List.drop_eq_nil_of_le hle

private theorem length_content_le (parts : List Part) :
    (content parts).length ≤ (render parts).length := by
  induction parts with
  | nil => simp [content, render]
  | cons p parts ih =>
      have hp := p.length_content_le
      simp only [content, render, List.flatMap_cons, List.length_append] at ih ⊢
      omega

private theorem length_content_lt (parts : List Part) (h : ∃ p ∈ parts, p.quoted = true) :
    (content parts).length < (render parts).length := by
  induction parts with
  | nil => simp at h
  | cons p parts ih =>
      have hp := p.length_content_le
      have hrest := length_content_le parts
      obtain ⟨p', hmem, hq⟩ := h
      rcases List.mem_cons.mp hmem with rfl | hmem
      · have hlt := p'.length_content_lt hq
        simp only [content, render, List.flatMap_cons, List.length_append] at hrest ⊢
        omega
      · have hlt := ih ⟨p', hmem, hq⟩
        simp only [content, render, List.flatMap_cons, List.length_append] at hlt ⊢
        omega

private theorem render_content_of_plain (parts : List Part)
    (h : ∀ p ∈ parts, p.quoted = false) : content parts = render parts := by
  induction parts with
  | nil => rfl
  | cons p parts ih =>
      have hp := p.content_eq_render (h p (by simp))
      have hrest := ih (fun p' hp' => h p' (by simp [hp']))
      simp only [content, render, List.flatMap_cons] at hrest ⊢
      rw [hp, hrest]

/-- The word read first takes the whole sequence when it is the only token. -/
private theorem scanWord_takes_all (parts : List Part) {c : Char} {s : Text}
    (hr : render parts = c :: s) (hsp : isspace c = false)
    (hnext : nextToken (c :: s) = some (.word (scanWord (c :: s)).1, (scanWord (c :: s)).2))
    (h : IsOneWord parts) :
    (scanWord (c :: s)).1.text = content parts ∧ s.drop ((scanWord (c :: s)).2 - 1) = [] := by
  obtain ⟨q, hq⟩ := h
  rw [tokenize, hr, tokenizeFrom_token hsp hnext] at hq
  obtain ⟨toks, htoks, hcons⟩ := Option.map_eq_some_iff.mp hq
  obtain ⟨hword, rfl⟩ := List.cons.inj hcons
  refine ⟨by rw [Token.word.inj hword], ?_⟩
  have hblank := isspace_of_tokenizeFrom_nil _ htoks
  have hdrop : s.drop ((scanWord (c :: s)).2 - 1) =
      (render parts).drop ((scanWord (c :: s)).2 - 1 + 1) := by rw [hr, List.drop_succ_cons]
  rw [hdrop] at hblank ⊢
  exact drop_eq_nil_of_blank parts _ hblank

private theorem parts_eq_nil_of_render (parts : List Part) (h : render parts = []) :
    parts = [] := by
  cases parts with
  | nil => rfl
  | cons p parts =>
      simp only [render, List.flatMap_cons, List.append_eq_nil_iff] at h
      exact absurd h.1 p.render_ne_nil

/-- A sequence that begins with a quoted part and is one word is that part. -/
private theorem eq_singleton_of_quoted (p : Part) (parts : List Part) (q : Char) (s : Text)
    (hq : isQuote q = true) (hfree : q ∉ s) (hp : p.render = q :: s ++ [q])
    (h : IsOneWord (p :: parts)) : parts = [] := by
  have hr : render (p :: parts) = q :: (s ++ q :: render parts) := by
    simp [render, hp]
  have hsp := isspace_of_isQuote hq
  have hall := (scanWord_takes_all _ hr hsp (nextToken_of_isQuote _ hq) h).2
  have hscan : scanWord (q :: (s ++ q :: render parts)) = _ :=
    scanWith_quoted wordStop q s (render parts) hq hfree
  rw [hscan] at hall
  have hrest : render parts = [] := by
    have hdrop : (s ++ q :: render parts).drop (s.length + 2 - 1) = render parts := by
      rw [show s.length + 2 - 1 = s.length + 1 from rfl, ← List.drop_drop]
      simp
    rw [hdrop] at hall
    exact hall
  exact parts_eq_nil_of_render parts hrest

/-- A sequence that begins with plain text and is one word has no quoted part. -/
private theorem unquoted_of_plain (p : Part) (parts : List Part) (hp : p.quoted = false)
    (h : IsOneWord (p :: parts)) : ∀ p' ∈ p :: parts, p'.quoted = false := by
  cases p with
  | single s hs => simp [Part.quoted] at hp
  | double s hs => simp [Part.quoted] at hp
  | plain s hne hs =>
      cases s with
      | nil => contradiction
      | cons c s =>
          have hc := hs c (by simp)
          set t := s ++ render parts with ht
          have hr : render (.plain (c :: s) hne hs :: parts) = c :: t := by
            simp [render, Part.render, ht]
          have hhead : t.head? ≠ some '>' := by
            rw [ht]
            cases s with
            | nil => exact render_head_ne_gt parts
            | cons d s =>
                have hd := not_special_of_isPlain (hs d (by simp))
                simpa using hd.2.2.2.2.2.1
          obtain ⟨htext, hdrop⟩ := scanWord_takes_all _ hr (not_special_of_isPlain hc).1
            (nextToken_of_isPlain t hc hhead) h
          rw [scanWord_of_isPlain t hc] at htext hdrop
          -- the word is unquoted, so its text is the sequence as written
          have hwhole : content (.plain (c :: s) hne hs :: parts) = c :: t := by
            rw [← htext]
            refine List.take_of_length_le ?_
            have hlen : t.length ≤ wordLen wordStop 0 (c :: t) - 1 :=
              List.drop_eq_nil_iff.mp hdrop
            have hpos : 0 < wordLen wordStop 0 (c :: t) := by
              simp [wordLen, wordStop_of_isPlain t hc]
            simp only [List.length_cons]
            omega
          intro p' hmem
          by_contra hquoted
          have hlt := length_content_lt _ ⟨p', hmem, by simpa using hquoted⟩
          rw [hwhole, hr] at hlt
          omega

/-- A single part is one word. -/
theorem isOneWord_singleton (p : Part) : IsOneWord [p] := by
  have hr : render [p] = p.render := by simp [render]
  have hc : content [p] = p.content := by simp [content]
  unfold IsOneWord
  rw [hr, hc]
  cases p with
  | plain s hne h => exact ⟨_, tokenize_plain s hne h⟩
  | single s h => exact ⟨_, tokenize_quoted '\'' s (by decide) h⟩
  | double s h => exact ⟨_, tokenize_quoted '"' s (by decide) h⟩

/-- **Exactly the unquoted sequences and the single parts are one word.** -/
theorem isOneWord_iff (parts : List Part) (hne : parts ≠ []) :
    IsOneWord parts ↔ (∀ p ∈ parts, p.quoted = false) ∨ ∃ p, parts = [p] := by
  constructor
  · intro h
    cases parts with
    | nil => contradiction
    | cons p parts =>
        cases hp : p.quoted with
        | false => exact Or.inl (unquoted_of_plain p parts hp h)
        | true =>
            right
            refine ⟨p, ?_⟩
            cases p with
            | plain s hs hpl => simp [Part.quoted] at hp
            | single s hs =>
                rw [eq_singleton_of_quoted _ parts '\'' s (by decide) hs rfl h]
            | double s hs =>
                rw [eq_singleton_of_quoted _ parts '"' s (by decide) hs rfl h]
  · rintro (h | ⟨p, rfl⟩)
    · refine ⟨.unquoted, ?_⟩
      rw [render_content_of_plain parts h]
      refine tokenize_plain _ (fun hnil => hne (parts_eq_nil_of_render parts hnil)) ?_
      intro c hc
      obtain ⟨p, hmem, hcp⟩ := List.mem_flatMap.mp hc
      cases p with
      | plain s hs hpl => exact hpl c hcp
      | single s hs => exact absurd (h _ hmem) (by simp [Part.quoted])
      | double s hs => exact absurd (h _ hmem) (by simp [Part.quoted])
    · exact isOneWord_singleton p

/-- The parts of `ll='ls -la'`. -/
def llParts : List Part :=
  [.plain "ll=".toList (by decide) (by simp [isPlain, isspace, isQuote]), .single "ls -la".toList (by decide)]

/-- The README's own definition is read as two words, with its quotes kept. -/
theorem llParts_not_isOneWord :
    tokenize (render llParts) =
        some [.word ⟨"ll='ls".toList, .unquoted⟩, .word ⟨"-la'".toList, .unquoted⟩] ∧
      ¬ IsOneWord llParts := by
  have htoks : tokenize (render llParts) =
      some [.word ⟨"ll='ls".toList, .unquoted⟩, .word ⟨"-la'".toList, .unquoted⟩] := by decide
  refine ⟨htoks, ?_⟩
  rintro ⟨q, hq⟩
  rw [htoks] at hq
  simp at hq

/-! ## Definitions -/

/-- A line `verb name='text'`. -/
def definitionLine (verb name text : Text) : Text :=
  verb ++ ' ' :: name ++ "='".toList ++ text ++ ['\'']

/-- A name and a text to define it as, that can be written `name='text'`. -/
structure Definition where
  name : Text
  text : Text
  nonempty : name ≠ []
  plain : ∀ c ∈ name, isPlain c = true
  noEq : '=' ∉ name
  free : '\'' ∉ text

/-- A word before a blank. -/
theorem tokenizeFrom_plain_blank (w s : Text) (hne : w ≠ []) (h : ∀ c ∈ w, isPlain c = true) :
    tokenizeFrom 0 (w ++ ' ' :: s) = (tokenizeFrom 0 s).map (.word ⟨w, .unquoted⟩ :: ·) := by
  cases w with
  | nil => contradiction
  | cons c w =>
      have hc := h c (by simp)
      have hlen : wordLen wordStop 0 (c :: (w ++ ' ' :: s)) = w.length + 1 := by
        have hstop : wordLen wordStop 0 (' ' :: s) = 0 := rfl
        simpa [hstop] using wordLen_plain_append (c :: w) (' ' :: s) h
      have hhead : (w ++ ' ' :: s).head? ≠ some '>' := by
        cases w with
        | nil => simp
        | cons d w => simpa using (not_special_of_isPlain (h d (by simp))).2.2.2.2.2.1
      have hnext := nextToken_of_isPlain _ hc hhead
      have hdrop : (w ++ ' ' :: s).drop (w.length + 1 - 1) = ' ' :: s := by simp
      have hblank : tokenizeFrom 0 (' ' :: s) = tokenizeFrom 0 s := rfl
      rw [List.cons_append, tokenizeFrom_token (not_special_of_isPlain hc).1 hnext,
        scanWord_of_isPlain _ hc, hlen, hdrop, hblank]
      simp

/-- The word that begins `name='` keeps the quote. -/
theorem tokenizeFrom_definition (name s : Text) (hne : name ≠ [])
    (h : ∀ c ∈ name, isPlain c = true) :
    ∃ v, ∃ rest, tokenizeFrom 0 (name ++ "='".toList ++ s) =
      (tokenizeFrom 0 rest).map (.word ⟨name ++ '=' :: '\'' :: v, .unquoted⟩ :: ·) := by
  have hplain : ∀ c ∈ name ++ ['='], isPlain c = true := by
    intro c hc
    rcases List.mem_append.mp hc with hc | hc
    · exact h c hc
    · rw [List.mem_singleton.mp hc]
      decide
  cases name with
  | nil => contradiction
  | cons c name =>
      have hc := h c (by simp)
      set n := wordLen wordStop 0 s with hn
      have hlen : wordLen wordStop 0 (c :: (name ++ "='".toList ++ s)) = name.length + 1 + 2 + n := by
        have hquote : wordLen wordStop 0 ('\'' :: s) = n + 1 := rfl
        have hw := wordLen_plain_append (c :: name ++ ['=']) ('\'' :: s) hplain
        rw [hquote] at hw
        simp only [List.cons_append, List.append_assoc, List.length_cons, List.length_append,
          List.length_nil] at hw ⊢
        exact hw.trans (by omega)
      have hhead : (name ++ "='".toList ++ s).head? ≠ some '>' := by
        cases name with
        | nil => simp
        | cons d name => simpa using (not_special_of_isPlain (h d (by simp))).2.2.2.2.2.1
      have hnext := nextToken_of_isPlain _ hc hhead
      have htake : (c :: (name ++ "='".toList ++ s)).take (name.length + 1 + 2 + n) =
          c :: name ++ '=' :: '\'' :: s.take n := by
        have : name.length + 1 + 2 + n = (c :: name ++ "='".toList).length + n := by simp
        rw [this, ← List.cons_append, ← List.cons_append, List.take_length_add_append]
        simp
      refine ⟨s.take n, (name ++ "='".toList ++ s).drop (name.length + 1 + 2 + n - 1), ?_⟩
      rw [List.cons_append, List.cons_append,
        tokenizeFrom_token (not_special_of_isPlain hc).1 hnext, scanWord_of_isPlain _ hc, hlen, htake]

private theorem argv_prefix_of_buildStage_words (w₁ w₂ : Word) (g : List Token) (cmd : Cmd)
    (h : buildStage ([.word w₁, .word w₂] ++ g) = some cmd) : [w₁, w₂] <+: cmd.argv := by
  unfold buildStage at h
  split at h
  · contradiction
  case h_2 cmd' hfrom =>
    split at h
    · contradiction
    · obtain rfl := Option.some.inj h
      exact argv_prefix_of_buildStageFrom g _ _ hfrom

/-- The stage of a definition line has the quote in its second word. -/
theorem argv_of_definitionLine (verb name text : Text) (pl : Pipeline)
    (hverb : verb ≠ []) (hv : ∀ c ∈ verb, isPlain c = true)
    (hne : name ≠ []) (hn : ∀ c ∈ name, isPlain c = true)
    (h : parsePipeline (definitionLine verb name text) = some pl) :
    ∃ cmd cmds v rest, pl.cmds = cmd :: cmds ∧
      cmd.argv.map Word.text = verb :: (name ++ '=' :: '\'' :: v) :: rest := by
  obtain ⟨v, after, hdef⟩ := tokenizeFrom_definition name (text ++ ['\'']) hne hn
  have hline : definitionLine verb name text =
      verb ++ ' ' :: (name ++ "='".toList ++ (text ++ ['\''])) := by
    simp [definitionLine]
  rw [parsePipeline, tokenize, hline, tokenizeFrom_plain_blank verb _ hverb hv, hdef] at h
  cases htoks : tokenizeFrom 0 after with
  | none => simp [htoks] at h
  | some toks =>
      simp only [htoks, Option.map_some, Option.bind_some, pipelineOf, List.cons_ne_nil,
        if_false] at h
      obtain ⟨cmds, hcmds, rfl⟩ := Option.map_eq_some_iff.mp h
      obtain ⟨g, gs, hg⟩ : ∃ g gs, toks.splitOnP (· == .op .pipe) = g :: gs :=
        List.exists_cons_of_ne_nil (List.splitOnP_ne_nil _ _)
      have hcmds' : (([Token.word ⟨verb, .unquoted⟩,
          .word ⟨name ++ '=' :: '\'' :: v, .unquoted⟩] ++ g) :: gs).mapM buildStage =
          some cmds := by
        simpa [List.splitOnP_cons_eq_if_modifyHead, hg] using hcmds
      simp only [List.mapM_cons, Option.bind_eq_bind, Option.bind_eq_some_iff] at hcmds'
      obtain ⟨cmd, hcmd, cmds', -, hpure⟩ := hcmds'
      obtain rfl : cmd :: cmds' = cmds := Option.some.inj hpure
      obtain ⟨rest, hrest⟩ := argv_prefix_of_buildStage_words _ _ _ _ hcmd
      exact ⟨cmd, cmds', v, rest.map Word.text, rfl, by simp [← hrest]⟩

/-- A quoted value given to `alias` is stored with its quote. -/
theorem builtinAlias_quote (table : Table) (verb name v text : Text) (rest : List Text)
    (hne : name ≠ []) (heq : '=' ∉ name) (hfree : '\'' ∉ text)
    (hold : aliasGet table name ≠ some text) :
    aliasGet (builtinAlias table (verb :: (name ++ '=' :: '\'' :: v) :: rest)).1 name ≠
      some text := by
  cases name with
  | nil => contradiction
  | cons c name =>
      simp only [builtinAlias, splitAtEq_append (c :: name) _ heq]
      split
      · exact hold
      · split
        case h_1 table' hset =>
          rw [aliasGet_aliasSet _ _ _ _ hset]
          rintro ⟨⟩
          simp at hfree
        case h_2 => exact hold

/-- A quoted value given to `export` is stored with its quote. -/
theorem exportArg_quote (env : Env) (name v text : Text) (heq : '=' ∉ name)
    (hfree : '\'' ∉ text) (hold : getenv env name ≠ some text) :
    getenv (exportArg env (name ++ '=' :: '\'' :: v)).1 name ≠ some text := by
  simp only [exportArg, splitAtEq_append name _ heq]
  split
  · exact hold
  · split
    case h_1 env' hset =>
      rw [getenv_setenv_self _ _ _ _ hset]
      rintro ⟨⟩
      simp at hfree
    case h_2 => exact hold

/-- **Parts and definitions.**  A sequence of parts is one word with their
contents exactly when no part is quoted or there is only one; so a definition
`name='text'` on a line of its own never makes `text` the value of the alias,
nor (by its first argument) of the exported variable. -/
theorem parts_and_definitions (part : Part) (parts : List Part) (d : Definition) :
    (IsOneWord (part :: parts) ↔
      (∀ p ∈ part :: parts, p.quoted = false) ∨ ∃ p, part :: parts = [p]) ∧
    (∀ pl, parsePipeline (definitionLine "alias".toList d.name d.text) = some pl →
      ∀ table, aliasGet table d.name ≠ some d.text →
        ∃ cmd cmds, pl.cmds = cmd :: cmds ∧
          aliasGet (builtinAlias table (cmd.argv.map Word.text)).1 d.name ≠ some d.text) ∧
    (∀ pl, parsePipeline (definitionLine "export".toList d.name d.text) = some pl →
      ∀ env, getenv env d.name ≠ some d.text →
        ∃ cmd cmds arg rest, pl.cmds = cmd :: cmds ∧
          cmd.argv.map Word.text = "export".toList :: arg :: rest ∧
          getenv (exportArg env arg).1 d.name ≠ some d.text) := by
  refine ⟨isOneWord_iff (part :: parts) (by simp), ?_, ?_⟩
  · intro pl hpl table hold
    obtain ⟨cmd, cmds, v, rest, hcmds, hargv⟩ := argv_of_definitionLine _ d.name d.text pl
      (by decide) (by simp [isPlain, isspace, isQuote]) d.nonempty d.plain hpl
    refine ⟨cmd, cmds, hcmds, ?_⟩
    rw [hargv]
    exact builtinAlias_quote table _ d.name v d.text rest d.nonempty d.noEq d.free hold
  · intro pl hpl env hold
    obtain ⟨cmd, cmds, v, rest, hcmds, hargv⟩ := argv_of_definitionLine _ d.name d.text pl
      (by decide) (by simp [isPlain, isspace, isQuote]) d.nonempty d.plain hpl
    exact ⟨cmd, cmds, _, rest, hcmds, hargv, exportArg_quote env d.name v d.text d.noEq d.free hold⟩

end Petrush.Verified.WordParts

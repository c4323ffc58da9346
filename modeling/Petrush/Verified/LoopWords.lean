import Petrush.Mid.Dispatcher
import Petrush.Verified.CommandWord
import Petrush.Verified.InertWords
import Petrush.Verified.Lexemes

/-!
# The words of a `for` loop

`parse_for` keeps the text of a word and forgets its quotes, and `dispatch_for` assigns the
texts as they are: nothing expands them.  `expand_cmd_argv` would expand the same words as
the arguments of a command, and `tokenize` reads the same words there.

## Main results

* `listWords_tokenize` — the words of the list, as the arguments of a command.
* `seen_valid` — the values a loop goes through.
* `values_iff` — the word lists whose values are their expansion.
-/

namespace Petrush.Verified.LoopWords

open Petrush.Foundation
open Petrush.Lib.CText
open Petrush.Lib.Run
open Petrush.Mid.Ast
open Petrush.Mid.Dispatcher
open Petrush.Mid.Expand
open Petrush.Mid.Glob
open Petrush.Mid.Lexer
open Petrush.Mid.Parser
open Petrush.Mid.State
open Petrush.Verified.CommandWord
open Petrush.Verified.InertWords
open Petrush.Verified.Lexemes
open Petrush.Verified.LineScan
open Petrush.Verified.Scanning

/-! ## The list as written -/

/-- The words of the list with their quotes, as `parse_for` scans them; a word may be
empty when it is quoted. -/
def listWords : Nat → Cursor → Option (List Word × Cursor)
  | 0, _ => none
  | n + 1, c =>
      let c := skipWsPos c
      match c.after with
      | [] => none
      | ';' :: _ => some ([], c.advance 1)
      | s =>
          if (matchKwAt "do".toList c).isSome then some ([], c)
          else
            let (w, k) := scanForWord s
            if w = ⟨[], .unquoted⟩ then none
            else (listWords n (c.advance k)).map (Prod.map (w :: ·) id)

section Unfold

variable {n : Nat} {c : Cursor}

theorem listWords_nil (h : (skipWsPos c).after = []) : listWords (n + 1) c = none := by
  rw [listWords]
  dsimp only
  rw [h]

theorem listWords_semi {s : Text} (h : (skipWsPos c).after = ';' :: s) :
    listWords (n + 1) c = some ([], (skipWsPos c).advance 1) := by
  rw [listWords]
  dsimp only
  rw [h]
  rfl

theorem listWords_word (hnil : (skipWsPos c).after ≠ [])
    (hsemi : ∀ s, (skipWsPos c).after ≠ ';' :: s) :
    listWords (n + 1) c =
      if (matchKwAt "do".toList (skipWsPos c)).isSome then some ([], skipWsPos c)
      else if (scanForWord (skipWsPos c).after).1 = ⟨[], .unquoted⟩ then none
      else (listWords n ((skipWsPos c).advance (scanForWord (skipWsPos c).after).2)).map
        (Prod.map ((scanForWord (skipWsPos c).after).1 :: ·) id) := by
  rw [listWords]
  dsimp only
  split
  next heq => exact absurd heq hnil
  next heq => exact absurd heq (hsemi _)
  next => rfl

end Unfold

/-- **What `parse_for` keeps of the list**: the texts, unless one of them is empty. -/
theorem forWords_eq (n : Nat) : ∀ c : Cursor, forWords n c =
    (listWords n c).bind fun r =>
      if ∀ word ∈ r.1, word.text ≠ [] then some (r.1.map Word.text, r.2) else none := by
  induction n with
  | zero => exact fun _ => rfl
  | succ n ih =>
      intro c
      rw [forWords]
      dsimp only
      split
      next heq =>
        rw [listWords_nil heq]
        rfl
      next heq =>
        rw [listWords_semi heq]
        simp
      next hnil hsemi =>
        rw [listWords_word hnil hsemi]
        by_cases hdo : (matchKwAt "do".toList (skipWsPos c)).isSome = true
        · rw [if_pos hdo, if_pos hdo]
          simp
        · rw [if_neg hdo, if_neg hdo]
          obtain ⟨w, k⟩ := scanForWord (skipWsPos c).after
          dsimp only
          have hcons : ∀ r : List Word × Cursor, (∀ word ∈ w :: r.1, word.text ≠ []) ↔
              w.text ≠ [] ∧ ∀ word ∈ r.1, word.text ≠ [] := fun r => List.forall_mem_cons
          by_cases hempty : w.text = []
          · rw [if_pos hempty]
            split
            · rfl
            · cases listWords n ((skipWsPos c).advance k) with
              | none => rfl
              | some r =>
                  show none = if ∀ word ∈ w :: r.1, word.text ≠ [] then _ else none
                  rw [if_neg fun h => ((hcons r).mp h).1 hempty]
          · have hword : w ≠ ⟨[], .unquoted⟩ := fun heq => hempty (by rw [heq])
            rw [if_neg hempty, if_neg hword, ih]
            cases listWords n ((skipWsPos c).advance k) with
            | none => rfl
            | some r =>
                show Option.map _ (if _ then _ else _) =
                  if ∀ word ∈ w :: r.1, word.text ≠ [] then _ else none
                by_cases hrest : ∀ word ∈ r.1, word.text ≠ []
                · rw [if_pos hrest, if_pos ((hcons r).mpr ⟨hempty, hrest⟩)]
                  rfl
                · rw [if_neg hrest, if_neg fun h => hrest ((hcons r).mp h).2]
                  rfl

/-! ## The same words as arguments -/

theorem forWordStop_eq : forWordStop = lineStop := by
  funext s
  cases s with
  | nil => rfl
  | cons c s =>
      rw [Bool.eq_iff_iff, lineStop_cons]
      simp only [forWordStop, Bool.or_eq_true, beq_iff_eq]
      tauto

theorem after_advance (k : Nat) : ∀ c : Cursor, (c.advance k).after = c.after.drop k := by
  induction k with
  | zero => exact fun _ => rfl
  | succ k ih =>
      intro c
      obtain ⟨b, s⟩ := c
      cases s with
      | nil => rfl
      | cons x s => exact ih _

/-- A text that begins with a blank, or is empty. -/
def Ends (s : Text) : Prop := ∀ c ∈ s.head?, isspace c = true

theorem Ends.wordStop {s : Text} (h : Ends s) : s = [] ∨ wordStop s = true := by
  cases s with
  | nil => exact Or.inl rfl
  | cons c s =>
      have hsp : isspace c = true := h c rfl
      exact Or.inr (by simp [Mid.Lexer.wordStop, hsp])

/-- A quoted word is read whole. -/
theorem nextToken_quoted {c : Char} {r u : Text} {w : Word} {k : Nat} (hq : isQuote c = true)
    (hscan : scanForWord (c :: r) = (w, k)) (hu : u <+: (c :: r).drop k) :
    nextToken ((c :: r).take k ++ u) = some (.word w, k) ∧ 0 < k ∧ k ≤ (c :: r).length := by
  by_cases hclosed : c ∈ r
  · obtain ⟨content, rest, rfl, hcontent⟩ := List.eq_append_cons_of_mem hclosed
    have hread : ∀ stop t, scanWith stop (c :: content ++ c :: t) =
        (⟨content, if c = '\'' then .single else .double⟩, content.length + 2) :=
      fun stop t => scanWith_quoted stop c content t hq hcontent
    have hcons : c :: (content ++ c :: rest) = c :: content ++ c :: rest := rfl
    rw [scanForWord, hcons, hread] at hscan
    obtain ⟨rfl, rfl⟩ := Prod.mk.inj hscan
    refine ⟨?_, Nat.succ_pos _, by simp⟩
    have hsplit : c :: content ++ c :: rest = (c :: content ++ [c]) ++ rest := by simp
    have hlen : content.length + 2 = (c :: content ++ [c]).length := by simp
    rw [hcons, hsplit, hlen, List.take_left]
    have htext : c :: content ++ [c] ++ u = c :: (content ++ c :: u) := by simp
    rw [htext, nextToken_of_isQuote _ hq, scanWord, ← List.cons_append, hread, ← hlen]
  · have hall : r.takeWhile (fun d => d != c) = r := by
      rw [List.takeWhile_eq_self_iff]
      intro d hd
      rw [bne_iff_ne]
      rintro rfl
      exact hclosed hd
    have hread : ∀ stop, scanWith stop (c :: r) =
        (⟨r, if c = '\'' then .single else .double⟩, (c :: r).length) := by
      intro stop
      simp [scanWith, hq, hall, Nat.add_comm]
    rw [scanForWord, hread] at hscan
    obtain ⟨rfl, rfl⟩ := Prod.mk.inj hscan
    rw [List.drop_length, List.prefix_nil] at hu
    refine ⟨?_, Nat.succ_pos _, Nat.le_refl _⟩
    rw [hu, List.take_length, List.append_nil, nextToken_of_isQuote _ hq, scanWord, hread]

/-- An unquoted word is read whole from a piece that goes on with what ends a word. -/
theorem nextToken_unquoted {c : Char} {r u : Text} {w : Word} {k : Nat} (hq : isQuote c = false)
    (hscan : scanForWord (c :: r) = (w, k)) (hw : w ≠ ⟨[], .unquoted⟩)
    (hu : u <+: (c :: r).drop k) (hend : Ends u) :
    nextToken ((c :: r).take k ++ u) = some (.word w, k) ∧ 0 < k ∧ k ≤ (c :: r).length := by
  rw [scanForWord, scanWith_unquoted _ _ hq, forWordStop_eq] at hscan
  obtain ⟨rfl, rfl⟩ := Prod.mk.inj hscan
  have hstop : lineStop (c :: r) = false := by
    by_contra hstop
    exact hw (by simp [wordLen, hstop])
  obtain ⟨n, hn⟩ : ∃ n, wordLen lineStop 0 (c :: r) = n + 1 := by simp [wordLen, hstop]
  have hlen := wordLen_cut 0 (c :: r) u (Nat.zero_le _) hu hend.wordStop
  have hle := wordLen_le lineStop 0 (c :: r)
  rw [hn] at hlen hle ⊢
  refine ⟨?_, Nat.succ_pos _, hle⟩
  have hplain : c ≠ '|' ∧ c ≠ '<' ∧ c ≠ '>' ∧ c ≠ '&' := by
    have hnone := mt (lineStop_cons c r).mpr (Bool.eq_false_iff.mp hstop)
    simp only [not_or] at hnone
    exact ⟨hnone.2.1, hnone.2.2.1, hnone.2.2.2.1, hnone.2.2.2.2.1⟩
  have htwo : c = '2' → (r.take n ++ u).head? ≠ some '>' := by
    rintro rfl hhead
    cases n with
    | zero =>
        rw [List.take_zero, List.nil_append] at hhead
        exact absurd (hend '>' hhead) (by decide)
    | succ n =>
        cases r with
        | nil => simp at hle
        | cons d r =>
            obtain rfl : d = '>' := by simpa using hhead
            have hsp : isspace '2' = false := by decide
            simp [wordLen, lineStop, hsp] at hn
  rw [List.take_succ_cons, List.cons_append] at hlen ⊢
  rw [nextToken_of_not_op _ hplain htwo, scanWord, scanWith_unquoted _ _ hq, hlen,
    List.take_succ_cons, List.take_append_of_le_length]
  · rw [List.take_take, Nat.min_self]
  · rw [List.length_take]
    simp only [List.length_cons] at hle
    omega

theorem tokenizeFrom_blanks {s : Text} (h : ∀ c ∈ s, isspace c = true) (t : Text) :
    tokenizeFrom 0 (s ++ t) = tokenizeFrom 0 t := by
  induction s with
  | nil => rfl
  | cons c s ih =>
      rw [List.forall_mem_cons] at h
      rw [List.cons_append, tokenizeFrom, if_pos h.1, ih h.2]

/-- A word and what is behind it. -/
theorem tokenizeFrom_word {c : Char} {r u : Text} {w : Word} {k : Nat} (hsp : isspace c = false)
    (hnext : nextToken ((c :: r).take k ++ u) = some (.word w, k)) (hpos : 0 < k)
    (hle : k ≤ (c :: r).length) :
    tokenizeFrom 0 ((c :: r).take k ++ u) = (tokenizeFrom 0 u).map (Token.word w :: ·) := by
  obtain ⟨n, rfl⟩ : ∃ n, k = n + 1 := ⟨k - 1, by omega⟩
  have hlen : (r.take n).length = n := List.length_take_of_le (Nat.le_of_succ_le_succ hle)
  rw [List.take_succ_cons, List.cons_append] at hnext ⊢
  rw [tokenizeFrom_token hsp hnext, Nat.add_sub_cancel, List.drop_append_of_le_length (by omega),
    List.drop_of_length_le (Nat.le_of_eq hlen), List.nil_append]

/-- Nothing is read where a word stops. -/
theorem forWord_of_stop {s : Text} (h : forWordStop s = true) :
    (scanForWord s).1 = ⟨[], .unquoted⟩ := by
  cases s with
  | nil => rfl
  | cons c s =>
      have hq : isQuote c = false := by
        by_contra hq
        rw [Bool.not_eq_false] at hq
        obtain rfl | rfl : c = '"' ∨ c = '\'' := by simpa [isQuote] using hq
        · exact Bool.noConfusion h
        · exact Bool.noConfusion h
      rw [scanForWord, scanWith_unquoted _ _ hq, wordLen, if_pos h]
      rfl

/-- **The words of the list are what `tokenize` reads there**: the text up to the `;` or
`do` gives the same words as arguments. -/
theorem listWords_tokenize (n : Nat) : ∀ {c c' : Cursor} {words : List Word},
    listWords n c = some (words, c') →
    ∃ seg rest, c.after = seg ++ rest ∧ (rest = c'.after ∨ rest = ';' :: c'.after) ∧
      tokenize seg = some (words.map Token.word) ∧ (forWordStop c.after = true → Ends seg) := by
  induction n with
  | zero =>
      intro c c' words h
      contradiction
  | succ n ih =>
      intro c c' words h
      have hafter : (skipWsPos c).after = c.after.dropWhile isspace := skipWsFrom_after _ _
      -- the blanks do not matter
      suffices hskip : ∃ seg rest, (skipWsPos c).after = seg ++ rest ∧
          (rest = c'.after ∨ rest = ';' :: c'.after) ∧
          tokenize seg = some (words.map Token.word) ∧
          (forWordStop (skipWsPos c).after = true → seg = []) by
        obtain ⟨seg, rest, hseg, hrest, htoks, hstop⟩ := hskip
        have hblanks : ∀ x ∈ c.after.takeWhile isspace, isspace x = true :=
          fun x hx => List.mem_takeWhile_imp hx
        refine ⟨c.after.takeWhile isspace ++ seg, rest, ?_, hrest, ?_, ?_⟩
        · rw [List.append_assoc, ← hseg, hafter, List.takeWhile_append_dropWhile]
        · rw [tokenize, tokenizeFrom_blanks hblanks]
          exact htoks
        · intro hc
          cases hblank : c.after.takeWhile isspace with
          | nil =>
              have hsame : (skipWsPos c).after = c.after := by
                have hparts := List.takeWhile_append_dropWhile (p := isspace) (l := c.after)
                rw [hblank, List.nil_append] at hparts
                exact hafter.trans hparts
              rw [hstop (by rw [hsame]; exact hc)]
              exact fun x hx => nomatch hx
          | cons x blanks =>
              rw [hblank] at hblanks
              intro y hy
              obtain rfl := Option.some.inj hy
              exact hblanks x List.mem_cons_self
      have hhead : ∀ x ∈ (skipWsPos c).after.head?, isspace x = false := by
        intro x hx
        rw [hafter] at hx
        have hnot := List.head?_dropWhile_not isspace c.after
        rw [Option.mem_def.mp hx] at hnot
        simpa using hnot
      cases hs : (skipWsPos c).after with
      | nil =>
          rw [listWords_nil hs] at h
          contradiction
      | cons x s =>
          by_cases hsemi : x = ';'
          · subst hsemi
            rw [listWords_semi hs] at h
            obtain ⟨rfl, rfl⟩ := Prod.mk.inj (Option.some.inj h)
            refine ⟨[], ';' :: s, rfl, Or.inr ?_, rfl, fun _ => rfl⟩
            rw [after_advance, hs]
            rfl
          · rw [listWords_word (by simp [hs]) (by simp [hs, hsemi]), hs] at h
            split at h
            · obtain ⟨rfl, rfl⟩ := Prod.mk.inj (Option.some.inj h)
              exact ⟨[], x :: s, rfl, Or.inl hs.symm, rfl, fun _ => rfl⟩
            · split at h
              · contradiction
              next hword =>
                obtain ⟨r, hr, hcons⟩ := Option.map_eq_some_iff.mp h
                obtain ⟨rfl, rfl⟩ := Prod.mk.inj hcons
                obtain ⟨seg, rest, hseg, hrest, htoks, hends⟩ := ih hr
                rw [after_advance, hs] at hseg hends
                have hscan : scanForWord (x :: s) =
                  ((scanForWord (x :: s)).1, (scanForWord (x :: s)).2) := rfl
                have hpre : seg <+: (x :: s).drop (scanForWord (x :: s)).2 := ⟨rest, hseg.symm⟩
                have hread : nextToken ((x :: s).take (scanForWord (x :: s)).2 ++ seg) =
                    some (.word (scanForWord (x :: s)).1, (scanForWord (x :: s)).2) ∧
                    0 < (scanForWord (x :: s)).2 ∧
                    (scanForWord (x :: s)).2 ≤ (x :: s).length := by
                  by_cases hq : isQuote x = true
                  · exact nextToken_quoted hq hscan hpre
                  · have hq : isQuote x = false := by simpa using hq
                    refine nextToken_unquoted hq hscan hword hpre ?_
                    have hstops := wordLen_stops forWordStop 0 (x :: s)
                    have hlen : (scanForWord (x :: s)).2 = wordLen forWordStop 0 (x :: s) := by
                      rw [scanForWord, scanWith_unquoted _ _ hq]
                    rw [hlen] at hpre hends
                    obtain hnil | hstop := hstops
                    · rw [hnil, List.prefix_nil] at hpre
                      rw [hpre]
                      exact fun y hy => nomatch hy
                    · exact hends hstop
                refine ⟨(x :: s).take (scanForWord (x :: s)).2 ++ seg, rest, ?_, hrest, ?_, ?_⟩
                · rw [List.append_assoc, ← hseg, List.take_append_drop]
                · have hsp : isspace x = false := by
                    apply hhead
                    rw [hs]
                    rfl
                  rw [tokenize, tokenizeFrom_word hsp hread.1 hread.2.1 hread.2.2]
                  show (tokenize seg).map _ = _
                  rw [htoks]
                  rfl
                · intro hstop
                  exact absurd (forWord_of_stop hstop) hword

/-! ## The values -/

/-- A body that notes what the loop variable is. -/
def watch (name : Text) (list : PList) : Prog Shell (Int × PList) := do
  let s ← look id
  emit (.trace [(getenv s.ctx.env name).getD []])
  pure (0, list)

/-- The value that was noted. -/
def noted (e : Entry) : Option Text :=
  match e.event with
  | .trace [value] => some value
  | _ => none

/-- The values that `dispatch_for` assigns to the loop variable, from a state of the shell. -/
def seen (s : Shell) (name : Text) (texts : List Text) : List Text :=
  let log := (dispatchFor (watch name) name [] 0 texts s).state.log
  (log.take (log.length - s.log.length)).reverse.filterMap noted

/-- The notes of a loop. -/
theorem dispatchFor_watch {name : Text} (hname : envNameInvalid name = false)
    (texts : List Text) : ∀ (s : Shell) (status : Int), s.returning = false →
    s.shellAbort = false → ∃ news,
      (dispatchFor (watch name) name [] status texts s).state.log = news ++ s.log ∧
        news.reverse.filterMap noted = texts := by
  induction texts with
  | nil => exact fun s status _ _ => ⟨[], rfl, rfl⟩
  | cons text texts ih =>
      intro s status hret habort
      have hset : setenv s.ctx.env name text =
          some fun n => if n = name then some text else s.ctx.env n := by
        rw [setenv, hname]
        rfl
      let env : Env := fun n => if n = name then some text else s.ctx.env n
      let bound : Shell := { s with ctx := { s.ctx with env := env } }
      let entry := bound.entry (.trace [(getenv env name).getD []])
      have hvalue : noted entry = some text := by
        show some ((getenv env name).getD []) = _
        simp [env, getenv]
      have hturn : dispatchFor (watch name) name [] status (text :: texts) s =
          dispatchFor (watch name) name [] 0 texts { bound with log := entry :: s.log } := by
        rw [dispatchFor]
        simp only [bind, Prog.bind, look, id, hset, Lib.Run.modify, watch, emit, pure, Prog.pure]
        rw [if_neg (by simp [hret]), if_neg (by simp [habort])]
      obtain ⟨news, hlog, hnews⟩ := ih { bound with log := entry :: s.log } 0 hret habort
      refine ⟨news ++ [entry], ?_, ?_⟩
      · rw [hturn, hlog, List.append_assoc]
        rfl
      · rw [List.reverse_append, List.filterMap_append, hnews]
        simp [hvalue]

theorem seen_eq {s : Shell} {name : Text} {texts values : List Text} {news : List Entry}
    (hlog : (dispatchFor (watch name) name [] 0 texts s).state.log = news ++ s.log)
    (hvalues : news.reverse.filterMap noted = values) : seen s name texts = values := by
  rw [seen, hlog]
  simp only [List.length_append, Nat.add_sub_cancel, List.take_left]
  exact hvalues

theorem seen_nil (s : Shell) (name : Text) : seen s name [] = [] := by
  have hlog : (dispatchFor (watch name) name [] 0 [] s).state.log = [] ++ s.log := rfl
  exact seen_eq hlog rfl

/-- **The loop goes through the texts it was given.** -/
theorem seen_valid {name : Text} (hname : envNameInvalid name = false) (texts : List Text)
    (s : Shell) (hret : s.returning = false) (habort : s.shellAbort = false) :
    seen s name texts = texts := by
  obtain ⟨news, hlog, hnews⟩ := dispatchFor_watch hname texts s 0 hret habort
  exact seen_eq hlog hnews

/-- A name that no variable can have stops it at once. -/
theorem seen_invalid {name : Text} (hname : envNameInvalid name = true) (texts : List Text)
    (s : Shell) : seen s name texts = [] := by
  have hlog : (dispatchFor (watch name) name [] 0 texts s).state.log = [] ++ s.log := by
    cases texts with
    | nil => rfl
    | cons text texts =>
        have hset : setenv s.ctx.env name text = none := by
          rw [setenv, if_pos hname]
        rw [dispatchFor]
        simp only [bind, Prog.bind, look, id, hset]
        rfl
  exact seen_eq hlog rfl

/-! ## The claim -/

/-- The outside that has nothing but directories. -/
def directories (listing : Listing) : Outside :=
  { Outside.quiet with listing := fun _ => listing }

/-- A word with positionals is never lost. -/
theorem argvOf_ne_nil {words : List Word} (h : words ≠ []) (listing : Listing) :
    argvOf (onlyListing listing) { bareCtx with args := [['a']] } words {} ≠ [] := by
  cases words with
  | nil => contradiction
  | cons word words =>
      have hfront : ∀ fx, (expandArg (onlyListing listing)
          { bareCtx with args := [['a']] } word fx).1 ≠ [] := by
        intro fx
        rw [expandArg]
        split_ifs
        all_goals exact List.cons_ne_nil _ _
      rw [argvOf_eq, expandArgs]
      intro hnil
      have hflat := List.map_eq_nil_iff.mp hnil
      rw [List.flatMap_append, List.append_eq_nil_iff] at hflat
      obtain ⟨x, hx⟩ := List.exists_mem_of_ne_nil _ (hfront {})
      exact globArg_ne_nil _ x (List.flatMap_eq_nil_iff.mp hflat.1 x hx)

/-- **The values of a loop and the expansion of its words.**  For every word list as it
is written: the words are the same ones as in the arguments of a command; and in every
environment, directory and state of the shell the loop goes through exactly what
`expand_cmd_argv` makes of them, if and only if no word is empty and none has anything to
expand, and the name is one a variable can have. -/
theorem values_iff {n : Nat} {c c' : Cursor} {words : List Word}
    (h : listWords n c = some (words, c')) (name : Text) :
    (∃ seg rest, c.after = seg ++ rest ∧ (rest = c'.after ∨ rest = ';' :: c'.after) ∧
      tokenize seg = some (words.map Token.word)) ∧
    ((∃ texts, forWords n c = some (texts, c') ∧ ∀ (O : Outside) (s : Shell),
        s.returning = false → s.shellAbort = false →
          seen s name texts = argvOf (worldOf O s) s.ctx words s.fx) ↔
      (words = [] ∨ envNameInvalid name = false) ∧
        ∀ word ∈ words, word.text ≠ [] ∧ Inert word) := by
  refine ⟨?_, ?_⟩
  · obtain ⟨seg, rest, hseg, hrest, htoks, -⟩ := listWords_tokenize n h
    exact ⟨seg, rest, hseg, hrest, htoks⟩
  rw [forWords_eq, h]
  constructor
  · rintro ⟨texts, htexts, hvalues⟩
    have hfilled : ∀ word ∈ words, word.text ≠ [] := by
      by_contra hempty
      rw [Option.bind_some, if_neg hempty] at htexts
      contradiction
    rw [Option.bind_some, if_pos hfilled] at htexts
    obtain ⟨rfl, -⟩ := Prod.mk.inj (Option.some.inj htexts)
    have hname : words = [] ∨ envNameInvalid name = false := by
      by_contra hbad
      rw [not_or, Bool.not_eq_false] at hbad
      have hnone := hvalues (directories fun _ => none)
        (Shell.start { bareCtx with args := [['a']] } fun _ => .dfl) rfl rfl
      rw [seen_invalid hbad.2] at hnone
      exact argvOf_ne_nil hbad.1 (fun _ => none) hnone.symm
    refine ⟨hname, fun word hword => ⟨hfilled word hword, ?_⟩⟩
    refine inert_of_same ?_ word hword
    intro listing
    have hsame := hvalues (directories listing) (Shell.start bareCtx fun _ => .dfl) rfl rfl
    obtain rfl | hvalid := hname
    · rfl
    · rw [seen_valid hvalid _ _ rfl rfl] at hsame
      exact hsame.symm
  · rintro ⟨hname, hwords⟩
    have hfilled : ∀ word ∈ words, word.text ≠ [] := fun word hword => (hwords word hword).1
    refine ⟨words.map Word.text, ?_, fun O s hret habort => ?_⟩
    · rw [Option.bind_some, if_pos hfilled]
    · rw [argvOf_inert _ _ (fun word hword => (hwords word hword).2)]
      obtain rfl | hvalid := hname
      · exact seen_nil s name
      · exact seen_valid hvalid _ s hret habort

/-- The list of `for i in a "b c"; do`. -/
theorem values_iff_two : (∃ seg rest, " a \"b c\"; do".toList = seg ++ rest ∧
      (rest = " do".toList ∨ rest = ';' :: " do".toList) ∧
      tokenize seg = some [.word ⟨"a".toList, .unquoted⟩, .word ⟨"b c".toList, .double⟩]) ∧
    ((∃ texts, forWords 3 ⟨[], " a \"b c\"; do".toList⟩ =
          some (texts, ⟨";\"c b\" a ".toList, " do".toList⟩) ∧ ∀ (O : Outside) (s : Shell),
        s.returning = false → s.shellAbort = false → seen s "i".toList texts =
          argvOf (worldOf O s) s.ctx [⟨"a".toList, .unquoted⟩, ⟨"b c".toList, .double⟩] s.fx) ↔
      (([⟨"a".toList, .unquoted⟩, ⟨"b c".toList, .double⟩] : List Word) = [] ∨
          envNameInvalid "i".toList = false) ∧
        ∀ word ∈ ([⟨"a".toList, .unquoted⟩, ⟨"b c".toList, .double⟩] : List Word),
          word.text ≠ [] ∧ Inert word) :=
  values_iff
    (show listWords 3 ⟨[], " a \"b c\"; do".toList⟩ =
      some ([⟨"a".toList, .unquoted⟩, ⟨"b c".toList, .double⟩],
        ⟨";\"c b\" a ".toList, " do".toList⟩) by decide)
    "i".toList

/-- The words of a loop that was parsed. -/
def loopTexts : ItemKind → List Text
  | .fr _ words _ => words
  | _ => []

/-- A shell in which `x` is `a`. -/
def xIsA : Shell :=
  Shell.start { env := fun name => if name = "x".toList then some "a".toList else none }
    fun _ => .dfl

/-- **`for i in $x`** goes through the text `$x`, not through the value of `x`. -/
theorem variable_unexpanded :
    (parseFor (parseListUntil 24) ⟨[], "for i in $x; do :; done".toList⟩).map
        (fun r => loopTexts r.1) = some ["$x".toList] ∧
      listWords 3 ⟨[], " $x; do".toList⟩ =
        some ([⟨"$x".toList, .unquoted⟩], ⟨";x$ ".toList, " do".toList⟩) ∧
      seen xIsA "i".toList ["$x".toList] = ["$x".toList] ∧
      argvOf (worldOf Outside.quiet xIsA) xIsA.ctx [⟨"$x".toList, .unquoted⟩] xIsA.fx =
        ["a".toList] := by
  refine ⟨by decide, by decide, by rfl, by decide⟩

end Petrush.Verified.LoopWords

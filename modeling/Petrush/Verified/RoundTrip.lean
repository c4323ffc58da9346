import Petrush.Verified.Compounds

/-!
# Parsing undoes printing

The list loop read back item by item, and from it, by induction over the
concrete syntax, whole lines.  One step of the loop is `listUntil_item`; the
induction is mutual, one theorem for each type of `Surface`.  The bound on the
number of items is met because every item prints at least one token.

## Main results

* `petrushParseList_print`: a printed line is parsed as the AST it was printed
  from.
-/

namespace Petrush.Verified.RoundTrip

open Petrush.Lib.CText
open Petrush.Mid.Ast
open Petrush.Mid.Lexer
open Petrush.Mid.Parser
open Petrush.Verified.Surface
open Petrush.Verified.Segments
open Petrush.Verified.Keywords
open Petrush.Verified.Compounds

/-! ## What an item begins with -/

/-- The first token of an item opens it. -/
theorem opens_kind (k : SKind) : ∃ t ts, k.toks = t :: ts ∧ Opens t := by
  have hkw : ∀ t ∈ ["if".toList, "while".toList, "for".toList, "case".toList, "[[".toList,
      "function".toList], Opens t := by
    intro t ht
    rcases (by simpa using ht) with rfl | rfl | rfl | rfl | rfl | rfl <;>
      exact opens_kw (by decide) (by decide) (by decide)
  cases k with
  | pipeline st sts =>
      obtain ⟨t, ts, htoks⟩ := exists_pipelineToks st sts
      exact ⟨t.print, ts.map STok.print, by simp [SKind.toks, htoks], opens_print t⟩
  | ifc cond body els => exact ⟨_, _, rfl, hkw _ (by simp)⟩
  | wh cond body => exact ⟨_, _, rfl, hkw _ (by simp)⟩
  | fr name words body => exact ⟨_, _, rfl, hkw _ (by simp)⟩
  | cs word arms => exact ⟨_, _, rfl, hkw _ (by simp)⟩
  | db toks => exact ⟨_, _, rfl, hkw _ (by simp)⟩
  | fn form name body =>
      cases form with
      | keyword => exact ⟨_, _, rfl, hkw _ (by simp)⟩
      | keywordParens => exact ⟨_, _, rfl, hkw _ (by simp)⟩
      | posix =>
          refine ⟨_, _, rfl, opens_kw (isPlainTok_fnName name) ?_ ?_⟩
          · intro hhead
            have hc := name.chars _ (List.mem_of_mem_head? hhead)
            contradiction
          · rintro kw hkw rfl
            refine name.unreserved ?_
            revert hkw
            generalize name.text = text
            intro hkw
            rcases (by simpa using hkw) with rfl | rfl | rfl | rfl | rfl | rfl | rfl <;> decide

theorem toks_ne_nil (k : SKind) : k.toks ≠ [] := by
  obtain ⟨t, ts, htoks, -⟩ := opens_kind k
  rw [htoks]
  simp

theorem toAst_ne_nil (l : SList) (next : RunCond) : l.toAst next ≠ [] := by
  cases l <;> simp [SList.toAst]

/-! ## One turn of the list loop -/

theorem parseListUntil_blank (n : Nat) (mask : List Kw) (rt : Bool) (next : RunCond)
    (b s : Text) :
    parseListUntil n mask rt next ⟨b, ' ' :: s⟩ = parseListUntil n mask rt next ⟨' ' :: b, s⟩ := by
  cases n <;> rfl

/-- The loop at the first token of an item. -/
private theorem parseListUntil_opens (n : Nat) (mask : List Kw) (rt : Bool) (next : RunCond)
    {t : Text} (ht : Opens t) (b r : Text) (hr : AtBlank r) :
    parseListUntil (n + 1) mask rt next ⟨b, t ++ r⟩ =
      listAfterItem (parseListUntil n) mask rt
        (parseItem (parseListUntil n) next ⟨b, t ++ r⟩) := by
  have hskip := skipWsPos_starts ht.starts b r
  have hpeek := peekKwMask_of_opens ht mask b r hr
  have hne : t ++ r ≠ [] := by
    obtain ⟨c, s, rfl, -⟩ := ht.starts
    simp
  simp only [parseListUntil, hskip, hne, hpeek, if_false, Bool.false_eq_true]

/-- **One turn of the loop:** an item and its separator. -/
theorem listUntil_item (n : Nat) (mask : List Kw) (rt : Bool) (next : RunCond) (k : SKind)
    (hitem : ItemOk (parseListUntil n) k.toks k.toAst) (b : Text) (sep : Sep) (r : Text)
    (hr : AtBlank r) :
    ∃ b', parseListUntil (n + 1) mask rt next ⟨b, unspaced k.toks ++ ' ' :: (sep.print ++ r)⟩ =
      (parseListUntil n mask rt sep.next ⟨b', r⟩).map
        (Prod.map (⟨k.toAst, next, sep.isBg⟩ :: ·) id) := by
  obtain ⟨t, ts, htoks, hopens⟩ := opens_kind k
  obtain ⟨b', hparse⟩ := hitem.sep next b sep r hr
  refine ⟨b', ?_⟩
  rw [htoks, unspaced, List.append_assoc] at hparse ⊢
  rw [parseListUntil_opens n mask rt next hopens b _ (atBlank_spaced _ _ (atBlank_cons _)), hparse]
  rfl

/-- The loop ends at a stop keyword. -/
theorem listUntil_stop (n : Nat) (mask : List Kw) (stop : Kw) (hstop : stop ∈ mask) (b r : Text)
    (hr : AtBlank r) :
    parseListUntil (n + 1) mask true .always ⟨b, ' ' :: (Kw.print stop ++ r)⟩ =
      some ([], ⟨' ' :: b, Kw.print stop ++ r⟩) := by
  have hskip := skipWsPos_starts (starts_kw stop) (' ' :: b) r
  have hpeek := peekKwMask_self hstop (' ' :: b) r hr
  have hne : Kw.print stop ++ r ≠ [] := by
    obtain ⟨c, s, hc, -⟩ := starts_kw stop
    simp [hc]
  rw [parseListUntil_blank]
  simp only [parseListUntil, hskip, hne, hpeek, if_false, if_true, ne_eq, not_true_eq_false]

/-- An item of an inner list: the tokens have a blank before them. -/
private theorem listUntil_spaced (n : Nat) (mask : List Kw) (rt : Bool) (next : RunCond)
    (k : SKind) (hitem : ItemOk (parseListUntil n) k.toks k.toAst) (b : Text) (sep : Sep)
    (r : Text) (hr : AtBlank r) :
    ∃ b', parseListUntil (n + 1) mask rt next ⟨b, spaced k.toks ++ ' ' :: (sep.print ++ r)⟩ =
      (parseListUntil n mask rt sep.next ⟨b', r⟩).map
        (Prod.map (⟨k.toAst, next, sep.isBg⟩ :: ·) id) := by
  rw [spaced_eq_blank_unspaced (toks_ne_nil k), List.cons_append, parseListUntil_blank]
  exact listUntil_item n mask rt next k hitem (' ' :: b) sep r hr

/-! ## Inner lists and compounds -/

/-- A list read with any condition for its first item. -/
private def ListOkFrom (n : Nat) (l : SList) : Prop :=
  ∀ mask, ∀ stop ∈ mask, ∀ next b r, AtBlank r → ∃ b',
    parseListUntil n mask true next ⟨b, spaced l.toks ++ ' ' :: (Kw.print stop ++ r)⟩ =
      some (l.toAst next, ⟨b', Kw.print stop ++ r⟩)

private theorem last_ok (n : Nat) (k : SKind) (bg : Bool)
    (hitem : ItemOk (parseListUntil (n + 1)) k.toks k.toAst) :
    ListOkFrom (n + 2) (.last k bg) := by
  intro mask stop hstop next b r hr
  obtain ⟨b', hparse⟩ := listUntil_spaced (n + 1) mask true next k hitem b (Sep.last bg)
    (' ' :: (Kw.print stop ++ r)) (atBlank_cons _)
  have hnext : (Sep.last bg).next = .always := by cases bg <;> rfl
  have hbg : (Sep.last bg).isBg = bg := by cases bg <;> rfl
  rw [hnext, hbg, listUntil_stop n mask stop hstop b' r hr] at hparse
  refine ⟨' ' :: b', ?_⟩
  simpa [SList.toks, SList.toAst] using hparse

private theorem cons_ok (n : Nat) (k : SKind) (sep : Sep) (rest : SList)
    (hitem : ItemOk (parseListUntil n) k.toks k.toAst) (hrest : ListOkFrom n rest) :
    ListOkFrom (n + 1) (.cons k sep rest) := by
  intro mask stop hstop next b r hr
  obtain ⟨b', hparse⟩ := listUntil_spaced n mask true next k hitem b sep
    (spaced rest.toks ++ ' ' :: (Kw.print stop ++ r)) (atBlank_spaced _ _ (atBlank_cons _))
  obtain ⟨b'', htail⟩ := hrest mask stop hstop sep.next b' r hr
  rw [htail] at hparse
  refine ⟨b'', ?_⟩
  simpa [SList.toks, SList.toAst] using hparse

private theorem emptyBody_ok (n : Nat) : ListOk (parseListUntil (n + 1)) [] [] :=
  fun mask stop hstop b r hr => ⟨' ' :: b, listUntil_stop n mask stop hstop b r hr⟩

private theorem elseHead (els : SElse) : ElseHead els.toks := by
  cases els with
  | fi => exact ⟨.fi, by simp, _, rfl⟩
  | els body => exact ⟨.else_, by simp, _, rfl⟩
  | elif cond body els => exact ⟨.elif, by simp, _, rfl⟩

mutual

/-- Every item is read back. -/
theorem kind_ok : (k : SKind) → ∀ n, k.toks.length ≤ n →
    ItemOk (parseListUntil n) k.toks k.toAst
  | .pipeline st sts, n, _ => pipeline_itemOk (parseListUntil n) st sts
  | .db toks, n, _ => (dbracket_ok (parseListUntil n) toks).itemOk
  | .wh cond body, n, hn => by
      simp only [SKind.toks, List.length_append, List.length_cons] at hn
      have hcond := list_ok cond n (by omega)
      have hbody := body_ok body n (by omega)
      exact (while_ok (fun mask stop hs b r hr => hcond mask stop hs .always b r hr)
        (toAst_ne_nil cond .always) hbody).itemOk
  | .fr name words body, n, hn => by
      simp only [SKind.toks, List.length_append, List.length_cons] at hn
      exact (for_ok name words (body_ok body n (by omega))).itemOk
  | .fn form name body, n, hn => by
      have hform : 0 < (fnToks name form).length := by cases form <;> simp [fnToks]
      simp only [SKind.toks, List.length_append] at hn
      exact (fn_ok form name (body_ok body n (by omega))).itemOk
  | .cs word arms, n, hn => by
      simp only [SKind.toks, List.length_append, List.length_cons] at hn
      exact (case_ok word fun m hm => arms_ok arms n m (by omega) hm).itemOk
  | .ifc cond body els, n, hn => by
      simp only [SKind.toks, List.length_append, List.length_cons] at hn
      have hcond := list_ok cond n (by omega)
      have hbody := body_ok body n (by omega)
      exact (if_ok (fun mask stop hs b r hr => hcond mask stop hs .always b r hr)
        (toAst_ne_nil cond .always) hbody (elseHead els)
        fun m hm => else_tail_ok els n m (by omega) hm).itemOk

theorem else_tail_ok : (els : SElse) → ∀ n m, els.toks.length ≤ n → els.toks.length < m →
    ElseOk (parseListUntil n) m els.toks els.toAst
  | .fi, n, m + 1, _, _ => fi_ok (parseListUntil n) m
  | .els body, n, m + 1, hn, _ => by
      simp only [SElse.toks, List.length_append, List.length_cons] at hn
      exact else_ok m (body_ok body n (by omega))
  | .elif cond body els, n, m + 1, hn, hm => by
      simp only [SElse.toks, List.length_append, List.length_cons] at hn hm
      have hcond := list_ok cond n (by omega)
      have hbody := body_ok body n (by omega)
      exact elif_ok m (fun mask stop hs b r hr => hcond mask stop hs .always b r hr)
        (toAst_ne_nil cond .always) hbody (elseHead els)
        (else_tail_ok els n m (by omega) (by omega))

theorem arms_ok : (arms : SArms) → ∀ n m, arms.toks.length ≤ n → arms.toks.length < m →
    ArmsOk (parseListUntil n) m arms.toks arms.toAst
  | .nil, n, m + 1, _, _ => noArms_ok (parseListUntil n) m
  | .cons pat pats body arms, n, m + 1, hn, hm => by
      simp only [SArms.toks, List.length_append, List.length_cons] at hn hm
      exact arm_ok m pat pats (body_ok body n (by omega)) (arms_ok arms n m (by omega) (by omega))

theorem body_ok : (body : SBody) → ∀ n, body.toks.length < n →
    ListOk (parseListUntil n) body.toks body.toAst
  | .empty, n + 1, _ => emptyBody_ok n
  | .list l, n, hn => fun mask stop hs b r hr => list_ok l n hn mask stop hs .always b r hr

theorem list_ok : (l : SList) → ∀ n, l.toks.length < n → ListOkFrom n l
  | .last k bg, n, hn => by
      simp only [SList.toks, List.length_append, List.length_cons, List.length_nil] at hn
      obtain ⟨m, rfl⟩ : ∃ m, n = m + 2 := ⟨n - 2, by omega⟩
      exact last_ok m k bg (kind_ok k (m + 1) (by omega))
  | .cons k sep rest, n, hn => by
      simp only [SList.toks, List.length_append, List.length_cons] at hn
      obtain ⟨m, rfl⟩ : ∃ m, n = m + 1 := ⟨n - 1, by omega⟩
      exact cons_ok m k sep rest (kind_ok k m (by omega)) (list_ok rest m (by omega))

end

/-! ## Whole lines -/

private theorem unspaced_append {ts : List Text} (us : List Text) (h : ts ≠ []) :
    unspaced (ts ++ us) = unspaced ts ++ spaced us := by
  cases ts with
  | nil => contradiction
  | cons t ts => simp [unspaced]

theorem topToks_ne_nil (l : SList) : l.topToks ≠ [] := by
  cases l with
  | last k bg => simp [SList.topToks, toks_ne_nil k]
  | cons k sep rest => simp [SList.topToks]

/-- The last item of a line without a separator. -/
private theorem listUntil_end (n : Nat) (next : RunCond) (k : SKind)
    (hitem : ItemOk (parseListUntil n) k.toks k.toAst) (b : Text) :
    ∃ b', parseListUntil (n + 1) [] false next ⟨b, unspaced k.toks⟩ =
      some ([⟨k.toAst, next, false⟩], ⟨b', []⟩) := by
  obtain ⟨t, ts, htoks, hopens⟩ := opens_kind k
  obtain ⟨b', hparse⟩ := hitem.atEnd next b
  have hblank : AtBlank (spaced ts) := by simpa using atBlank_spaced ts [] atBlank_nil
  refine ⟨b', ?_⟩
  rw [htoks, unspaced] at hparse ⊢
  rw [parseListUntil_opens n [] false next hopens b _ hblank, hparse]
  rfl

/-- A whole line, read with any condition for its first item. -/
theorem topList_ok : (l : SList) → ∀ n, l.topToks.length < n → ∀ next b, ∃ b',
    parseListUntil n [] false next ⟨b, unspaced l.topToks⟩ = some (l.toAst next, ⟨b', []⟩)
  | .last k false, n, hn, next, b => by
      simp only [SList.topToks, Bool.false_eq_true, if_false, List.append_nil] at hn ⊢
      obtain ⟨m, rfl⟩ : ∃ m, n = m + 1 := ⟨n - 1, by omega⟩
      exact listUntil_end m next k (kind_ok k m (by omega)) b
  | .last k true, n, hn, next, b => by
      simp only [SList.topToks, if_true, List.length_append, List.length_cons,
        List.length_nil] at hn
      obtain ⟨m, rfl⟩ : ∃ m, n = m + 2 := ⟨n - 2, by omega⟩
      obtain ⟨b', hparse⟩ := listUntil_item (m + 1) [] false next k (kind_ok k (m + 1) (by omega))
        b .bg [] atBlank_nil
      have hend : parseListUntil (m + 1) [] false .always ⟨b', []⟩ = some ([], ⟨b', []⟩) := rfl
      rw [Sep.next, hend] at hparse
      refine ⟨b', ?_⟩
      rw [SList.topToks, if_pos rfl, unspaced_append _ (toks_ne_nil k)]
      simpa [Sep.print, SList.toAst, Sep.isBg] using hparse
  | .cons k sep rest, n, hn, next, b => by
      simp only [SList.topToks, List.length_append, List.length_cons] at hn
      obtain ⟨m, rfl⟩ : ∃ m, n = m + 1 := ⟨n - 1, by omega⟩
      obtain ⟨b₁, hparse⟩ := listUntil_item m [] false next k (kind_ok k m (by omega)) b sep
        (spaced rest.topToks) (by simpa using atBlank_spaced rest.topToks [] atBlank_nil)
      obtain ⟨b₂, hrest⟩ := topList_ok rest m (by omega) sep.next (' ' :: b₁)
      have htail : parseListUntil m [] false sep.next ⟨b₁, spaced rest.topToks⟩ =
          some (rest.toAst sep.next, ⟨b₂, []⟩) := by
        rw [spaced_eq_blank_unspaced (topToks_ne_nil rest), parseListUntil_blank, hrest]
      rw [htail] at hparse
      refine ⟨b₂, ?_⟩
      rw [SList.topToks, unspaced_append _ (toks_ne_nil k), spaced_cons]
      simpa [SList.toAst] using hparse

/-- A line is at least as long as its tokens are many. -/
private theorem length_topToks_le (l : SList) :
    l.topToks.length ≤ (unspaced l.topToks).length := by
  have hhead : ∃ t ts, l.topToks = t :: ts ∧ t ≠ [] := by
    have hk : ∀ (k : SKind) us, ∃ t ts, k.toks ++ us = t :: ts ∧ t ≠ [] := by
      intro k us
      obtain ⟨t, ts, htoks, hopens⟩ := opens_kind k
      obtain ⟨c, s, hc, -⟩ := hopens.starts
      exact ⟨t, ts ++ us, by simp [htoks], by simp [hc]⟩
    cases l with
    | last k bg => exact hk k _
    | cons k sep rest => exact hk k _
  obtain ⟨t, ts, htoks, hne⟩ := hhead
  have hts := length_le_spaced ts
  have ht := List.length_pos_iff.mpr hne
  simp only [htoks, unspaced, List.length_cons, List.length_append]
  omega

/-- **Parsing undoes printing.** -/
theorem petrushParseList_print (l : SList) :
    petrushParseList l.print = some (l.toAst .always) := by
  have hprint : l.print = unspaced l.topToks := by
    obtain ⟨t, ts, htoks⟩ := List.exists_cons_of_ne_nil (topToks_ne_nil l)
    rw [SList.print, htoks, intercalate_blank, unspaced]
  have hlen := length_topToks_le l
  obtain ⟨b, hparse⟩ := topList_ok l (l.print.length + 1) (by rw [hprint]; omega) .always []
  rw [petrushParseList, hprint] at *
  rw [hparse]
  rfl

end Petrush.Verified.RoundTrip

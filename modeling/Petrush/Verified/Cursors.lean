import Petrush.Lib.Fuel
import Petrush.Mid.Parser

/-!
# Where parsing ends

The functions of the parser share one position, which each of them moves.  They call one
another at a later position only, with a reserved word or a mark read in between, and every
turn of a loop reads something: a connector of no length, `;;`, stands behind an item that
is not empty.  A bound above the length of what is left is therefore never used up, whatever
the text is, and the position is never behind where it was nor past the end of the text.

## Main results

* `parser_ends` — every bound above the length of the text gives the same tree.
-/

namespace Petrush.Verified.Cursors

open Petrush.Lib.CText
open Petrush.Lib.Fuel
open Petrush.Mid.Ast
open Petrush.Mid.Lexer
open Petrush.Mid.Parser

/-! ## Positions -/

/-- The second position is in the same text, at least `k` bytes further on. -/
def Moved (k : Nat) (c c' : Cursor) : Prop :=
  ∃ t : Text, k ≤ t.length ∧ c'.before = t.reverse ++ c.before ∧ c.after = t ++ c'.after

section Moved

variable {j k : Nat} {c c' d : Cursor}

theorem Moved.refl (c : Cursor) : Moved 0 c c := ⟨[], Nat.le_refl 0, rfl, rfl⟩

theorem Moved.trans (h : Moved k c c') (h' : Moved j c' d) : Moved (k + j) c d := by
  obtain ⟨t, ht, hbefore, hafter⟩ := h
  obtain ⟨u, hu, hbefore', hafter'⟩ := h'
  refine ⟨t ++ u, ?_, ?_, ?_⟩
  · rw [List.length_append]
    exact Nat.add_le_add ht hu
  · rw [hbefore', hbefore, List.reverse_append, List.append_assoc]
  · rw [hafter, hafter', List.append_assoc]

theorem Moved.mono (h : Moved k c c') (hj : j ≤ k) : Moved j c c' := by
  obtain ⟨t, ht, hmoved⟩ := h
  exact ⟨t, Nat.le_trans hj ht, hmoved⟩

theorem Moved.length (h : Moved k c c') : c'.after.length + k ≤ c.after.length := by
  obtain ⟨t, ht, -, hafter⟩ := h
  rw [hafter, List.length_append, Nat.add_comm]
  exact Nat.add_le_add_right ht _

/-- What has been read and what has not are the text. -/
theorem Moved.text (h : Moved k c c') :
    c'.before.reverse ++ c'.after = c.before.reverse ++ c.after := by
  obtain ⟨t, -, hbefore, hafter⟩ := h
  rw [hbefore, hafter, List.reverse_append, List.reverse_reverse, List.append_assoc]

theorem moved_advance (n : Nat) : ∀ c : Cursor, Moved (min n c.after.length) c (c.advance n) := by
  induction n with
  | zero => exact fun c => Moved.mono (Moved.refl c) (Nat.min_le_left 0 _)
  | succ n ih =>
      rintro ⟨b, s⟩
      cases s with
      | nil => exact Moved.refl _
      | cons x s =>
          have hone : Moved 1 ⟨b, x :: s⟩ ⟨x :: b, s⟩ := ⟨[x], Nat.le_refl 1, rfl, rfl⟩
          refine (hone.trans (ih ⟨x :: b, s⟩)).mono ?_
          rw [List.length_cons, Nat.add_comm 1, Nat.add_min_add_right]

theorem moved_of_le {n : Nat} (h : k ≤ n) (hlen : k ≤ c.after.length) :
    Moved k c (c.advance n) :=
  (moved_advance n c).mono (Nat.le_min.mpr ⟨h, hlen⟩)

theorem moved_skipWsFrom (s : Text) : ∀ b, Moved 0 ⟨b, s⟩ (skipWsFrom b s) := by
  induction s with
  | nil => exact fun b => Moved.refl _
  | cons x s ih =>
      intro b
      rw [skipWsFrom]
      split
      · have hone : Moved 1 ⟨b, x :: s⟩ ⟨x :: b, s⟩ := ⟨[x], Nat.le_refl 1, rfl, rfl⟩
        exact (hone.trans (ih (x :: b))).mono (Nat.zero_le _)
      · exact Moved.refl _

theorem moved_skipWsPos (c : Cursor) : Moved 0 c (skipWsPos c) := moved_skipWsFrom c.after c.before

/-- A mark that is not empty is read. -/
theorem moved_prefix {mark : Text} (hmark : mark ≠ [])
    (h : mark.isPrefixOf (skipWsPos c).after = true) :
    Moved 1 c ((skipWsPos c).advance mark.length) := by
  have hlen : mark.length ≤ (skipWsPos c).after.length :=
    (List.isPrefixOf_iff_prefix.mp h).length_le
  have hpos : 1 ≤ mark.length := List.length_pos_of_ne_nil hmark
  exact (moved_skipWsPos c).trans (moved_of_le hpos (Nat.le_trans hpos hlen))

theorem moved_matchKwAt {kw : Text} (hkw : kw ≠ []) (h : matchKwAt kw c = some c') :
    Moved 1 c c' := by
  unfold matchKwAt at h
  dsimp only at h
  split at h
  next hmatch =>
    obtain rfl := Option.some.inj h
    exact moved_prefix hkw hmatch.1
  next => contradiction

theorem moved_matchMarkAt {mark : Text} (hmark : mark ≠ []) (h : matchMarkAt mark c = some c') :
    Moved 1 c c' := by
  unfold matchMarkAt at h
  dsimp only at h
  split at h
  next hmatch =>
    obtain rfl := Option.some.inj h
    exact moved_prefix hmark hmatch
  next => contradiction

/-- A word that is not empty has a length. -/
theorem scanWith_pos {stop : Text → Bool} {s : Text} (h : (scanWith stop s).1.text ≠ []) :
    1 ≤ (scanWith stop s).2 ∧ 1 ≤ s.length := by
  cases s with
  | nil => exact absurd rfl h
  | cons x s =>
      refine ⟨?_, Nat.succ_pos _⟩
      rw [scanWith] at h ⊢
      split
      · exact Nat.le_add_right_of_le (Nat.le_add_right 1 _)
      next hq =>
        rw [if_neg hq] at h
        cases hlen : wordLen stop 0 (x :: s) with
        | zero =>
            rw [hlen] at h
            exact absurd rfl h
        | succ n => exact Nat.succ_pos n

theorem moved_scanWith {stop : Text → Bool} (h : (scanWith stop c.after).1.text ≠ []) :
    Moved 1 c (c.advance (scanWith stop c.after).2) :=
  moved_of_le (scanWith_pos h).1 (scanWith_pos h).2

end Moved

/-! ## Two parses -/

/-- Two parses from `c` have the same answer, at a position at least `k` bytes further on. -/
structure Same {α : Type} (k : Nat) (c : Cursor) (o o' : Option (α × Cursor)) : Prop where
  eq : o = o'
  moved : ∀ a c', o = some (a, c') → Moved k c c'

section Same

variable {α β : Type} {j k : Nat} {c c' : Cursor} {o o' : Option (α × Cursor)}

theorem Same.fails : Same k c (none : Option (α × Cursor)) none := ⟨rfl, nofun⟩

theorem Same.gives {a : α} (h : Moved k c c') : Same k c (some (a, c')) (some (a, c')) := by
  refine ⟨rfl, fun b d hd => ?_⟩
  obtain ⟨rfl, rfl⟩ := Prod.mk.inj (Option.some.inj hd)
  exact h

theorem Same.bind {f f' : α × Cursor → Option (β × Cursor)} (h : Same k c o o')
    (hf : ∀ a c', Moved k c c' → Same j c' (f (a, c')) (f' (a, c'))) :
    Same (k + j) c (o.bind f) (o'.bind f') := by
  obtain ⟨rfl, hmoved⟩ := h
  cases o with
  | none => exact Same.fails
  | some p =>
      obtain ⟨a, c'⟩ := p
      have hc := hmoved a c' rfl
      refine ⟨(hf a c' hc).eq, fun b d hd => ?_⟩
      exact hc.trans ((hf a c' hc).moved b d hd)

/-- Behind something that is read in the same way in both. -/
theorem Same.read {r : Option Cursor} {f f' : Cursor → Option (β × Cursor)}
    (h : ∀ c', r = some c' → Moved k c c') (hf : ∀ c', Moved k c c' → Same j c' (f c') (f' c')) :
    Same (k + j) c (r.bind f) (r.bind f') := by
  cases r with
  | none => exact Same.fails
  | some c' =>
      have hc := h c' rfl
      exact ⟨(hf c' hc).eq, fun b d hd => hc.trans ((hf c' hc).moved b d hd)⟩

theorem Same.behind {o o' : Option (α × Cursor)} (h : Moved j c c') (ho : Same k c' o o') :
    Same k c o o' :=
  ⟨ho.eq, fun a d hd => (h.trans (ho.moved a d hd)).mono (Nat.le_add_left k j)⟩

theorem Same.mono (h : Same k c o o') (hj : j ≤ k) : Same j c o o' :=
  ⟨h.eq, fun a d hd => (h.moved a d hd).mono hj⟩

theorem Same.ite {p : Prop} [Decidable p] {u u' : Option (α × Cursor)}
    (h : p → Same k c o o') (h' : ¬ p → Same k c u u') :
    Same k c (if p then o else u) (if p then o' else u') := by
  split
  next hp => exact h hp
  next hp => exact h' hp

theorem Same.map {f : α → β} (h : Same k c o o') :
    Same k c (o.map (Prod.map f id)) (o'.map (Prod.map f id)) := by
  obtain ⟨rfl, hmoved⟩ := h
  cases o with
  | none => exact Same.fails
  | some p => exact Same.gives (hmoved p.1 p.2 rfl)

end Same

/-! ## Loops over words -/

/-- The length of what is left. -/
def left (c : Cursor) : Nat := c.after.length

section Loops

variable {n m : Nat} {c c' : Cursor}

theorem Moved.shorter (h : Moved 1 c c') : left c' < left c := h.length

theorem Moved.notLonger {k : Nat} (h : Moved k c c') : left c' ≤ left c :=
  Nat.le_trans (Nat.le_add_right _ k) h.length

theorem moved_nonEmptyWord {stop : Text → Bool} {w : Word}
    (h : nonEmptyWord (scanWith stop) c = some (w, c')) : Moved 1 c c' := by
  unfold nonEmptyWord at h
  dsimp only at h
  split at h
  next => contradiction
  next hne =>
    obtain ⟨rfl, rfl⟩ := Prod.mk.inj (Option.some.inj h)
    exact moved_scanWith hne

/-- A loop that goes on behind blanks. -/
theorem Same.step {α : Type} {k : Nat} {f g : Nat → Cursor → Option (α × Cursor)}
    (h : ∀ n m c, (∀ d, left d < left c → Same k d (f n d) (g m d)) →
      Same k (skipWsPos c) (f (n + 1) c) (g (m + 1) c))
    (hn : left c < n) (hm : left c < m) : Same k c (f n c) (g m c) := by
  refine covered left (R := Same k) (fun n m c ih => ?_) hn hm
  exact Same.behind (moved_skipWsPos c) (h n m c ih)

theorem forWords_same (hn : left c < n) (hm : left c < m) :
    Same 0 c (forWords n c) (forWords m c) := by
  refine Same.step (fun n m c ih => ?_) hn hm
  have hskip := moved_skipWsPos c
  rw [forWords, forWords]
  dsimp only
  split
  next => exact Same.fails
  next h => exact Same.gives (moved_of_le (Nat.zero_le 1) (Nat.zero_le _))
  next =>
    refine Same.ite (fun _ => Same.gives (Moved.refl _)) fun _ => ?_
    refine Same.ite (fun _ => Same.fails) fun hne => ?_
    have hword := moved_scanWith (c := skipWsPos c) hne
    refine Same.map (Same.behind hword (ih _ ?_))
    exact Nat.lt_of_lt_of_le hword.shorter hskip.notLonger

theorem casePatterns_same (hn : left c < n) (hm : left c < m) :
    Same 1 c (casePatterns n c) (casePatterns m c) := by
  refine Same.step (fun n m c ih => ?_) hn hm
  have hskip := moved_skipWsPos c
  rw [casePatterns, casePatterns]
  cases hpat : nonEmptyWord scanCasePattern (skipWsPos c) with
  | none => exact Same.fails
  | some p =>
      obtain ⟨pat, d⟩ := p
      have hword : Moved 1 (skipWsPos c) d := moved_nonEmptyWord hpat
      have hone : Moved 0 (skipWsPos d) ((skipWsPos d).advance 1) :=
        moved_of_le (Nat.zero_le 1) (Nat.zero_le _)
      have hread : Moved 1 (skipWsPos c) ((skipWsPos d).advance 1) :=
        (hword.trans (moved_skipWsPos d)).trans hone
      dsimp only
      split
      next =>
        refine Same.map (Same.behind hread (ih _ ?_))
        exact Nat.lt_of_lt_of_le hread.shorter hskip.notLonger
      next => exact Same.gives hread
      next => exact Same.fails

theorem moved_dbToken {w : Word} (h : dbToken c = some (w, c')) : Moved 1 c c' := by
  have hmark : ∀ {x : Char} {s : Text} {v : Word} {n : Nat}, c.after = x :: s → 1 ≤ n →
      some (v, c.advance n) = some (w, c') → Moved 1 c c' := by
    intro x s v n hafter hn h
    obtain ⟨rfl, rfl⟩ := Prod.mk.inj (Option.some.inj h)
    exact moved_of_le hn (by rw [hafter]; exact Nat.succ_pos _)
  unfold dbToken at h
  split at h
  next hafter => exact hmark hafter (by decide) h
  next hafter => exact hmark hafter (by decide) h
  next hafter =>
    split at h
    next => exact hmark hafter (by decide) h
    next => exact moved_nonEmptyWord h
  next => exact moved_nonEmptyWord h

theorem dbTokens_same (hn : left c < n) (hm : left c < m) :
    Same 0 c (dbTokens n c) (dbTokens m c) := by
  refine Same.step (fun n m c ih => ?_) hn hm
  have hskip := moved_skipWsPos c
  rw [dbTokens, dbTokens]
  cases hend : matchKwAt "]]".toList (skipWsPos c) with
  | some d => exact Same.gives ((moved_matchKwAt (by decide) hend).mono (Nat.zero_le 1))
  | none =>
      cases htok : dbToken (skipWsPos c) with
      | none => exact Same.fails
      | some p =>
          obtain ⟨w, d⟩ := p
          have hword := moved_dbToken htok
          refine Same.map (Same.behind hword (ih d ?_))
          exact Nat.lt_of_lt_of_le hword.shorter hskip.notLonger

end Loops

/-! ## Compound commands -/

/-- Two list parsers give the same list wherever less than `k` is left. -/
def Recs (k : Nat) (rec rec' : ListParser) : Prop :=
  ∀ mask req cond c, left c < k → Same 0 c (rec mask req cond c) (rec' mask req cond c)

theorem Recs.mono {j k : Nat} {rec rec' : ListParser} (h : Recs k rec rec') (hj : j ≤ k) :
    Recs j rec rec' := fun mask req cond c hc => h mask req cond c (Nat.lt_of_lt_of_le hc hj)

section Compounds

variable {rec rec' : ListParser} {n m : Nat} {c c' : Cursor}

/-- What is read first leaves less. -/
theorem Recs.behind {k : Nat} (h : Recs (left c) rec rec') (hc : Moved k c c') :
    Recs (left c') rec rec' := h.mono hc.notLonger

theorem kwThenList_same (h : Recs (left c) rec rec') {kw : Text} (hkw : kw ≠ []) (mask : List Kw) :
    Same 1 c (kwThenList rec kw mask c) (kwThenList rec' kw mask c) :=
  Same.read (fun _ hread => moved_matchKwAt hkw hread) fun d hd =>
    h mask true .always d hd.shorter

/-- A word that ends the compound. -/
theorem same_end {α : Type} {kw : Text} (hkw : kw ≠ []) (a : α) :
    Same 0 c ((matchKwAt kw c).bind fun c => some (a, c))
      ((matchKwAt kw c).bind fun c => some (a, c)) :=
  (Same.read (fun _ hread => moved_matchKwAt hkw hread)
    fun d _ => Same.gives (Moved.refl d)).mono (Nat.zero_le _)

theorem parseWhile_same (h : Recs (left c) rec rec') :
    Same 1 c (parseWhile rec c) (parseWhile rec' c) := by
  refine Same.bind (j := 0) (kwThenList_same h (by decide) [.do_]) fun cond d hd => ?_
  refine Same.ite (fun _ => Same.fails) fun _ => ?_
  have hbody := kwThenList_same (h.behind hd) (by decide : "do".toList ≠ []) [.done]
  exact (Same.bind hbody fun body e _ => same_end (by decide) _).mono (Nat.zero_le _)

theorem parseFor_same (h : Recs (left c) rec rec') :
    Same 1 c (parseFor rec c) (parseFor rec' c) := by
  refine Same.read (k := 1) (j := 0) (fun _ hread => moved_matchKwAt (by decide) hread)
    fun d hd => ?_
  refine Same.behind (moved_skipWsPos d) ?_
  refine Same.ite (fun _ => Same.fails) fun _ => ?_
  refine (Same.bind (k := 1) (j := 0) ⟨rfl, fun _ _ => moved_nonEmptyWord⟩
    fun name e he => ?_).mono (Nat.zero_le _)
  refine (Same.read (k := 1) (j := 0) (fun _ hread => moved_matchKwAt (by decide) hread)
    fun u hu => ?_).mono (Nat.zero_le _)
  have hwords := forWords_same (Nat.lt_succ_self (left u)) (Nat.lt_succ_self (left u))
  refine Same.bind (j := 0) hwords fun words v hv => ?_
  have hrest := (((hd.trans (moved_skipWsPos d)).trans he).trans hu).trans hv
  have hbody := kwThenList_same (h.behind hrest) (by decide : "do".toList ≠ []) [.done]
  exact (Same.bind hbody fun body e _ => same_end (by decide) _).mono (Nat.zero_le _)

/-- A loop over arms. -/
theorem Same.stepRec {α : Type} {f g : Nat → Cursor → Option (α × Cursor)}
    (h : ∀ n m c, Recs (left c) rec rec' →
      (∀ d, left d < left c → Same 0 d (f n d) (g m d)) → Same 0 c (f (n + 1) c) (g (m + 1) c))
    (hrec : Recs (left c) rec rec') (hn : left c < n) (hm : left c < m) :
    Same 0 c (f n c) (g m c) := by
  refine covered left (R := fun c o o' => Recs (left c) rec rec' → Same 0 c o o')
    (fun n m c ih hrec => ?_) hn hm hrec
  exact h n m c hrec fun d hd => ih d hd (hrec.mono (Nat.le_of_lt hd))

theorem caseArms_same (hrec : Recs (left c) rec rec') (hn : left c < n) (hm : left c < m) :
    Same 0 c (caseArms rec n c) (caseArms rec' m c) := by
  refine Same.stepRec (fun n m c hrec ih => ?_) hrec hn hm
  have hskip := moved_skipWsPos c
  rw [caseArms, caseArms]
  dsimp only
  cases hend : matchKwAt "esac".toList (skipWsPos c) with
  | some d => exact Same.gives ((hskip.trans (moved_matchKwAt (by decide) hend)).mono (Nat.zero_le _))
  | none =>
      have hparen : Moved 0 c (if (skipWsPos c).after.head? = some '(' then (skipWsPos c).advance 1
          else skipWsPos c) := by
        split
        · exact hskip.trans (moved_of_le (Nat.zero_le 1) (Nat.zero_le _))
        · exact hskip
      refine Same.behind hparen ?_
      generalize (if (skipWsPos c).after.head? = some '(' then (skipWsPos c).advance 1
        else skipWsPos c) = d at hparen ⊢
      refine (Same.bind (k := 1) (j := 0) (casePatterns_same (Nat.lt_succ_self (left d))
        (Nat.lt_succ_self (left d))) fun pats e he => ?_).mono (Nat.zero_le _)
      have hlate := Nat.lt_of_lt_of_le he.shorter hparen.notLonger
      refine Same.bind (j := 0) (hrec [.dsemi, .esac] true .always e hlate) fun body u hu => ?_
      have hbehind := (moved_skipWsPos u).notLonger
      have hshort : left (skipWsPos u) < left c :=
        Nat.lt_of_le_of_lt (Nat.le_trans hbehind hu.notLonger) hlate
      refine Same.behind (moved_skipWsPos u) ?_
      dsimp only
      cases hsemi : matchDsemiAt (skipWsPos u) with
      | some v =>
          have hv : Moved 1 (skipWsPos u) v := moved_matchMarkAt (by decide) hsemi
          exact Same.map (Same.behind hv (ih v (Nat.lt_trans hv.shorter hshort)))
      | none => exact Same.ite (fun _ => Same.map (ih _ hshort)) fun _ => Same.fails

theorem parseCase_same (h : Recs (left c) rec rec') :
    Same 1 c (parseCase rec c) (parseCase rec' c) := by
  refine Same.read (k := 1) (j := 0) (fun _ hread => moved_matchKwAt (by decide) hread)
    fun d hd => ?_
  refine Same.behind (moved_skipWsPos d) ?_
  refine (Same.bind (k := 1) (j := 0) ⟨rfl, fun _ _ => moved_nonEmptyWord⟩
    fun word e he => ?_).mono (Nat.zero_le _)
  refine (Same.read (k := 1) (j := 0) (fun _ hread => moved_matchKwAt (by decide) hread)
    fun u hu => ?_).mono (Nat.zero_le _)
  have hread := ((hd.trans (moved_skipWsPos d)).trans he).trans hu
  refine Same.bind (j := 0) (caseArms_same (h.behind hread) (Nat.lt_succ_self (left u))
    (Nat.lt_succ_self (left u))) fun arms v _ => Same.gives (Moved.refl v)

theorem parseDbracket_same : Same 1 c (parseDbracket c) (parseDbracket c) := by
  refine Same.read (k := 1) (j := 0) (fun _ hread => moved_matchKwAt (by decide) hread)
    fun d _ => ?_
  exact Same.bind (j := 0) (dbTokens_same (Nat.lt_succ_self (left d)) (Nat.lt_succ_self (left d)))
    fun toks e _ => Same.gives (Moved.refl e)

theorem moved_scanFnName {name : Text} (h : scanFnName c = some (name, c')) : Moved 1 c c' := by
  unfold scanFnName at h
  dsimp only at h
  split at h
  next => contradiction
  next x s hafter =>
    split at h
    next =>
      obtain ⟨rfl, rfl⟩ := Prod.mk.inj (Option.some.inj h)
      refine (moved_skipWsPos c).trans (moved_of_le (Nat.succ_pos _) ?_)
      rw [hafter]
      exact Nat.succ_pos _
    next => contradiction

theorem moved_matchEmptyParens (h : matchEmptyParens c = some c') : Moved 1 c c' := by
  obtain ⟨d, hopen, hclose⟩ := Option.bind_eq_some_iff.mp h
  exact ((moved_matchMarkAt (by decide) hopen).trans
    (moved_matchMarkAt (by decide) hclose)).mono (by decide)

/-- `parse_fn` behind the parentheses. -/
def fnBody (rec : ListParser) (name : Text) (c : Cursor) : Option (ItemKind × Cursor) :=
  (matchLbraceAt c).bind fun c => (rec [.rbrace] true .always c).bind fun r =>
    (matchRbraceAt r.2).bind fun c => some (.fn name r.1, c)

/-- The parentheses, which may be missing behind `function`. -/
def fnParens (fromKw : Bool) (c : Cursor) : Option Cursor :=
  if (skipWsPos c).after.head? = some '(' then matchEmptyParens (skipWsPos c)
  else if fromKw then some (skipWsPos c) else none

theorem parseFn_eq (rec : ListParser) (fromKw : Bool) (c : Cursor) :
    parseFn rec fromKw c = (if fromKw then matchKwAt "function".toList c else some c).bind
      fun c => (scanFnName c).bind fun p => (fnParens fromKw p.2).bind (fnBody rec p.1) := by
  have hname : ∀ d, ((scanFnName d).bind fun p =>
      if (skipWsPos p.2).after.head? = some '(' then
        (matchEmptyParens (skipWsPos p.2)).bind (fnBody rec p.1)
      else if fromKw then (some (skipWsPos p.2)).bind (fnBody rec p.1)
      else none) = (scanFnName d).bind fun p => (fnParens fromKw p.2).bind (fnBody rec p.1) := by
    intro d
    refine congrArg _ (funext fun p => ?_)
    unfold fnParens
    split
    · rfl
    · split <;> rfl
  cases fromKw with
  | false => exact hname c
  | true => exact congrArg (matchKwAt "function".toList c).bind (funext hname)

theorem moved_fnParens {fromKw : Bool} (h : fnParens fromKw c = some c') : Moved 0 c c' := by
  unfold fnParens at h
  split at h
  · exact ((moved_skipWsPos c).trans (moved_matchEmptyParens h)).mono (Nat.zero_le _)
  · split at h
    · obtain rfl := Option.some.inj h
      exact moved_skipWsPos c
    · contradiction

theorem fnBody_same (h : Recs (left c) rec rec') (name : Text) :
    Same 0 c (fnBody rec name c) (fnBody rec' name c) := by
  refine (Same.read (k := 1) (j := 0) (fun _ hread => moved_matchMarkAt (by decide) hread)
    fun d hd => ?_).mono (Nat.zero_le _)
  refine Same.bind (j := 0) (h [.rbrace] true .always d hd.shorter) fun body e _ => ?_
  exact (Same.read (k := 1) (j := 0) (fun _ hread => moved_matchMarkAt (by decide) hread)
    fun u _ => Same.gives (Moved.refl u)).mono (Nat.zero_le _)

theorem parseFn_same (h : Recs (left c) rec rec') (fromKw : Bool) :
    Same 1 c (parseFn rec fromKw c) (parseFn rec' fromKw c) := by
  rw [parseFn_eq, parseFn_eq]
  refine Same.read (k := 0) (j := 1) (fun d hread => ?_) fun d hd => ?_
  · split at hread
    · exact (moved_matchKwAt (by decide) hread).mono (Nat.zero_le 1)
    · obtain rfl := Option.some.inj hread
      exact Moved.refl c
  refine Same.bind (k := 1) (j := 0) ⟨rfl, fun _ _ => moved_scanFnName⟩ fun name e he => ?_
  refine Same.read (k := 0) (j := 0) (fun _ hread => moved_fnParens hread) fun u hu => ?_
  exact fnBody_same (h.behind ((hd.trans he).trans hu)) name

theorem parseIfArm_same (h : Recs (left c) rec rec') {kw : Text} (hkw : kw ≠ []) :
    Same 1 c (parseIfArm rec kw c) (parseIfArm rec' kw c) := by
  refine Same.bind (j := 0) (kwThenList_same h hkw [.then_]) fun cond d hd => ?_
  refine Same.ite (fun _ => Same.fails) fun _ => ?_
  have hbody := kwThenList_same (h.behind hd) (by decide : "then".toList ≠ []) [.elif, .else_, .fi]
  refine (Same.bind (j := 0) hbody fun body e _ => ?_).mono (Nat.zero_le _)
  exact Same.gives (Moved.refl e)

theorem parseElifs_same (hrec : Recs (left c) rec rec') (hn : left c < n) (hm : left c < m) :
    Same 0 c (parseElifs rec n c) (parseElifs rec' m c) := by
  refine Same.stepRec (fun n m c hrec ih => ?_) hrec hn hm
  rw [parseElifs, parseElifs]
  refine Same.ite (fun _ => ?_) fun _ => Same.ite (fun _ => ?_) fun _ => same_end (by decide) _
  · refine (Same.bind (j := 0) (parseIfArm_same hrec (by decide)) fun arm d hd => ?_).mono
      (Nat.zero_le _)
    exact Same.bind (j := 0) (ih d hd.shorter) fun arms e _ => Same.gives (Moved.refl e)
  · have hbody := kwThenList_same hrec (by decide : "else".toList ≠ []) [.fi]
    exact (Same.bind hbody fun body e _ => same_end (by decide) _).mono (Nat.zero_le _)

theorem parseIf_same (h : Recs (left c) rec rec') :
    Same 1 c (parseIf rec c) (parseIf rec' c) := by
  refine Same.bind (j := 0) (parseIfArm_same h (by decide)) fun arm d hd => ?_
  exact Same.bind (j := 0) (parseElifs_same (h.behind hd) (Nat.lt_succ_self (left d))
    (Nat.lt_succ_self (left d))) fun arms e _ => Same.gives (Moved.refl e)

end Compounds

/-! ## Lists -/

/-- Where a turn of the list loop ends: behind an item something has been read. -/
def Turned (c : Cursor) : ItemResult → Prop
  | .item _ _ _ d => Moved 1 c d
  | .stop d => Moved 0 c d

section Lists

variable {rec rec' : ListParser} {n m : Nat} {c c' : Cursor}

theorem turned_takeConnAfter {d : Cursor} (h : Moved 1 c d) (kind : ItemKind) (cond : RunCond) :
    Turned c (takeConnAfter kind cond d) := by
  have hskip := h.trans (moved_skipWsPos d)
  unfold takeConnAfter
  dsimp only
  split
  next conn _ =>
    exact (hskip.trans (moved_of_le (Nat.zero_le conn.len) (Nat.zero_le _)) :
      Moved 1 c ((skipWsPos d).advance conn.len))
  next => exact hskip

theorem turned_parsePipelineItem {cond : RunCond} {r : ItemResult}
    (h : parsePipelineItem cond c = some r) : Turned c r := by
  unfold parsePipelineItem at h
  dsimp only at h
  generalize hlen : ((findListConnector c).map Prod.fst).getD c.after.length = len at h
  split at h
  · split at h
    · obtain rfl := Option.some.inj h
      exact moved_of_le (Nat.zero_le len) (Nat.zero_le _)
    · contradiction
  next hseg =>
    -- what is not empty has been read
    have hread : 1 ≤ len ∧ 1 ≤ c.after.length := by
      have htake : c.after.take len ≠ [] := by
        intro hnil
        rw [hnil] at hseg
        exact hseg rfl
      have hpos := List.length_pos_of_ne_nil htake
      rw [List.length_take] at hpos
      exact ⟨Nat.lt_of_lt_of_le hpos (Nat.min_le_left _ _),
        Nat.lt_of_lt_of_le hpos (Nat.min_le_right _ _)⟩
    split at h
    · contradiction
    · split at h
      next conn hfound =>
        obtain rfl := Option.some.inj h
        exact moved_of_le (Nat.le_add_right_of_le hread.1) hread.2
      next hfound =>
        obtain rfl := Option.some.inj h
        exact moved_of_le hread.1 hread.2

theorem compoundAt_same (h : Recs (left c) rec rec') :
    (compoundAt rec c = none ∧ compoundAt rec' c = none) ∨
      ∃ o o', compoundAt rec c = some o ∧ compoundAt rec' c = some o' ∧ Same 1 c o o' := by
  unfold compoundAt
  split
  · exact Or.inr ⟨_, _, rfl, rfl, parseIf_same h⟩
  split
  · exact Or.inr ⟨_, _, rfl, rfl, parseWhile_same h⟩
  split
  · exact Or.inr ⟨_, _, rfl, rfl, parseFor_same h⟩
  split
  · exact Or.inr ⟨_, _, rfl, rfl, parseCase_same h⟩
  split
  · exact Or.inr ⟨_, _, rfl, rfl, parseDbracket_same⟩
  split
  · exact Or.inr ⟨_, _, rfl, rfl, parseFn_same h true⟩
  split
  · exact Or.inr ⟨_, _, rfl, rfl, parseFn_same h false⟩
  · exact Or.inl ⟨rfl, rfl⟩

theorem parseItem_same (h : Recs (left c) rec rec') (cond : RunCond) :
    parseItem rec cond c = parseItem rec' cond c ∧
      ∀ r, parseItem rec cond c = some r → Turned c r := by
  unfold parseItem
  rcases compoundAt_same h with ⟨hnone, hnone'⟩ | ⟨o, o', hsome, hsome', rfl, hmoved⟩
  · rw [hnone, hnone']
    exact ⟨rfl, fun r hr => turned_parsePipelineItem hr⟩
  · rw [hsome, hsome']
    refine ⟨rfl, fun r hr => ?_⟩
    obtain ⟨⟨kind, d⟩, hparsed, rfl⟩ := Option.map_eq_some_iff.mp hr
    exact turned_takeConnAfter (hmoved kind d hparsed) kind cond

theorem listAfterItem_same (h : Recs (left c) rec rec') (mask : List Kw) (requireTerm : Bool)
    {r : Option ItemResult} (hr : ∀ x, r = some x → Turned c x) :
    Same 0 c (listAfterItem rec mask requireTerm r) (listAfterItem rec' mask requireTerm r) := by
  cases r with
  | none => exact Same.fails
  | some x =>
      have hx := hr x rfl
      cases x with
      | stop d => exact Same.gives hx
      | item it next hadConn d =>
          have hd : Moved 1 c d := hx
          refine Same.ite (fun _ => ?_) fun _ => ?_
          · exact Same.map (Same.behind hd (h mask requireTerm next d hd.shorter))
          · have hend := Same.gives (a := [it]) ((hd.trans (moved_skipWsPos d)).mono (Nat.zero_le _))
            refine Same.ite (fun _ => ?_) fun _ => Same.ite (fun _ => hend) fun _ => Same.fails
            exact Same.ite (fun _ => Same.fails) fun _ => hend

/-- One item more. -/
theorem parseListUntil_step (hrec : Recs (left c) (parseListUntil n) (parseListUntil m))
    (mask : List Kw) (requireTerm : Bool) (next : RunCond) :
    Same 0 c (parseListUntil (n + 1) mask requireTerm next c)
      (parseListUntil (m + 1) mask requireTerm next c) := by
  have hskip := moved_skipWsPos c
  have hend := Same.gives (a := ([] : PList)) hskip
  refine Same.ite (fun _ => ?_) fun _ => Same.ite (fun _ => ?_) fun _ => ?_
  · exact Same.ite (fun _ => Same.fails) fun _ => hend
  · exact Same.ite (fun _ => Same.fails) fun _ => hend
  · obtain ⟨heq, hturned⟩ := parseItem_same (hrec.behind hskip) next
    rw [← heq]
    exact Same.behind hskip (listAfterItem_same (hrec.behind hskip) mask requireTerm hturned)

end Lists

/-! ## The bounds -/

/-- With any bound, the position is never moved back. -/
theorem parseListUntil_later (n : Nat) : ∀ mask requireTerm next c,
    Same 0 c (parseListUntil n mask requireTerm next c)
      (parseListUntil n mask requireTerm next c) := by
  induction n with
  | zero => exact fun _ _ _ _ => Same.fails
  | succ n ih =>
      exact fun mask requireTerm next c =>
        parseListUntil_step (fun mask requireTerm next d _ => ih mask requireTerm next d)
          mask requireTerm next

/-- The list parser, by its bound and its position. -/
def listAt (n : Nat) (c : Cursor) (mask : List Kw) (requireTerm : Bool) (next : RunCond) :
    Option (PList × Cursor) := parseListUntil n mask requireTerm next c

theorem parseListUntil_covered {n m : Nat} {c : Cursor} (hn : left c < n) (hm : left c < m) :
    ∀ mask requireTerm next, Same 0 c (parseListUntil n mask requireTerm next c)
      (parseListUntil m mask requireTerm next c) := by
  refine covered left (f := listAt) (g := listAt) (R := fun c o o' => ∀ mask requireTerm next,
    Same 0 c (o mask requireTerm next) (o' mask requireTerm next)) (fun n m c ih => ?_) hn hm
  exact parseListUntil_step fun mask requireTerm next d hd => ih d hd mask requireTerm next

/-- The list parser, with any bound, agrees with itself. -/
theorem recs_self (k n : Nat) : Recs k (parseListUntil n) (parseListUntil n) :=
  fun mask requireTerm next c _ => parseListUntil_later n mask requireTerm next c

/-- The bound `n` is not used up at the cursor: the list parser and the loops that it calls
give what they give with the bound of one more than what is left. -/
structure Suffices (n : Nat) (c : Cursor) : Prop where
  list : ∀ mask requireTerm next, parseListUntil n mask requireTerm next c =
    parseListUntil (left c + 1) mask requireTerm next c
  words : forWords n c = forWords (left c + 1) c
  patterns : casePatterns n c = casePatterns (left c + 1) c
  tokens : dbTokens n c = dbTokens (left c + 1) c
  arms : ∀ k, caseArms (parseListUntil k) n c = caseArms (parseListUntil k) (left c + 1) c
  elifs : ∀ k, parseElifs (parseListUntil k) n c = parseElifs (parseListUntil k) (left c + 1) c
  /-- A list that is read ends further on in the same text. -/
  later : ∀ mask requireTerm next list c',
    parseListUntil n mask requireTerm next c = some (list, c') → Moved 0 c c'

end Petrush.Verified.Cursors

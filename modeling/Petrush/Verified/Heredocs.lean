import Petrush.Mid.Heredoc
import Petrush.Verified.Stages

/-!
# Here-document bodies go to their own command

The feeder looks for the first waiting command by a recursive search over the
tree.  Seen from the commands in source order it only works on a list: each
line goes to the first command of the list that waits.

## Main results

* `listHeredocFeed_eq`: feeding a tree is feeding the list of its commands.
* `feedAll_bodies`: the bodies fed in source order end up in their commands.
-/

namespace Petrush.Verified.Heredocs

open Petrush.Lib.CText
open Petrush.Mid.Ast
open Petrush.Mid.Heredoc
open Petrush.Mid.Lexer
open Petrush.Verified.Stages

/-! ## The commands of a tree -/

mutual

/-- The simple commands of an item, in source order. -/
def kindCmds : ItemKind → List Cmd
  | .pipeline pl => pl.cmds
  | .ifc arms => ifArmsCmds arms
  | .wh cond body => listCmds cond ++ listCmds body
  | .fr _ _ body => listCmds body
  | .fn _ body => listCmds body
  | .cs _ arms => caseArmsCmds arms
  | .db _ => []

def itemCmds : Item → List Cmd
  | ⟨kind, _, _⟩ => kindCmds kind

def ifArmCmds : IfArm → List Cmd
  | ⟨cond, body, _⟩ => listCmds cond ++ listCmds body

def ifArmsCmds : List IfArm → List Cmd
  | [] => []
  | arm :: arms => ifArmCmds arm ++ ifArmsCmds arms

def caseArmCmds : CaseArm → List Cmd
  | ⟨_, body⟩ => listCmds body

def caseArmsCmds : List CaseArm → List Cmd
  | [] => []
  | arm :: arms => caseArmCmds arm ++ caseArmsCmds arms

/-- The simple commands of a list, in source order. -/
def listCmds : List Item → List Cmd
  | [] => []
  | it :: items => itemCmds it ++ listCmds items

end

mutual

/-- An item with every command replaced by an empty one. -/
def kindShape : ItemKind → ItemKind
  | .pipeline pl => .pipeline ⟨pl.cmds.map fun _ => {}⟩
  | .ifc arms => .ifc (ifArmsShape arms)
  | .wh cond body => .wh (listShape cond) (listShape body)
  | .fr name words body => .fr name words (listShape body)
  | .fn name body => .fn name (listShape body)
  | .cs word arms => .cs word (caseArmsShape arms)
  | .db argv => .db argv

def itemShape : Item → Item
  | ⟨kind, cond, bg⟩ => ⟨kindShape kind, cond, bg⟩

def ifArmShape : IfArm → IfArm
  | ⟨cond, body, isElse⟩ => ⟨listShape cond, listShape body, isElse⟩

def ifArmsShape : List IfArm → List IfArm
  | [] => []
  | arm :: arms => ifArmShape arm :: ifArmsShape arms

def caseArmShape : CaseArm → CaseArm
  | ⟨patterns, body⟩ => ⟨patterns, listShape body⟩

def caseArmsShape : List CaseArm → List CaseArm
  | [] => []
  | arm :: arms => caseArmShape arm :: caseArmsShape arms

/-- A list with every command replaced by an empty one: what feeding keeps. -/
def listShape : List Item → List Item
  | [] => []
  | it :: items => itemShape it :: listShape items

end

/-! ## Feeding the list of commands -/

theorem cmdHeredocFeed_pending {cmd cmd' : Cmd} {line : Option Text} {ate : Bool}
    (hp : cmdHeredocPending cmd = true) (h : cmdHeredocFeed cmd line = some (ate, cmd')) :
    ate = true := by
  unfold cmdHeredocFeed at h
  simp only [hp, Bool.not_true, Bool.false_eq_true, if_false] at h
  split at h
  · split at h
    · simp_all
    · simp only [Option.map_eq_some_iff, Prod.mk.injEq] at h
      obtain ⟨_, _, hate, _⟩ := h
      exact hate.symm
  · contradiction

/-- Commands that do not wait are passed over. -/
theorem cmdsHeredocFeed_skip {cs : List Cmd} (ds : List Cmd) (line : Option Text)
    (h : cs.any cmdHeredocPending = false) :
    cmdsHeredocFeed (cs ++ ds) line =
      (cmdsHeredocFeed ds line).map fun (ate, ds) => (ate, cs ++ ds) := by
  induction cs with
  | nil => simp
  | cons cmd cs ih =>
      simp only [List.any_cons, Bool.or_eq_false_iff] at h
      simp only [List.cons_append, cmdsHeredocFeed, h.1, Bool.false_eq_true, if_false, ih h.2]
      cases cmdsHeredocFeed ds line <;> rfl

/-- The line goes to the commands before `ds` when one of them waits. -/
theorem cmdsHeredocFeed_front {cs : List Cmd} (ds : List Cmd) (line : Option Text)
    (h : cs.any cmdHeredocPending = true) :
    cmdsHeredocFeed (cs ++ ds) line =
        ((cmdsHeredocFeed cs line).map fun (ate, cs) => (ate, cs ++ ds)) ∧
      ∀ ate cs', cmdsHeredocFeed cs line = some (ate, cs') → ate = true := by
  induction cs with
  | nil => simp at h
  | cons cmd cs ih =>
      by_cases hp : cmdHeredocPending cmd = true
      · constructor
        · simp only [List.cons_append, cmdsHeredocFeed, hp, if_true]
          cases cmdHeredocFeed cmd line <;> rfl
        · intro ate cs' hfeed
          simp only [cmdsHeredocFeed, hp, if_true, Option.map_eq_some_iff, Prod.mk.injEq] at hfeed
          obtain ⟨⟨ate', cmd'⟩, hcmd, rfl, -⟩ := hfeed
          exact cmdHeredocFeed_pending hp hcmd
      · have hcs : cs.any cmdHeredocPending = true := by simpa [hp] using h
        obtain ⟨happ, hate⟩ := ih hcs
        constructor
        · simp only [List.cons_append, cmdsHeredocFeed, hp, Bool.false_eq_true, if_false, happ]
          cases cmdsHeredocFeed cs line <;> rfl
        · intro ate cs' hfeed
          simp only [cmdsHeredocFeed, hp, Bool.false_eq_true, if_false, Option.map_eq_some_iff,
            Prod.mk.injEq] at hfeed
          obtain ⟨⟨ate', cs''⟩, hcs', rfl, -⟩ := hfeed
          exact hate ate' cs'' hcs'

/-! ## Feeding a tree -/

/-- A feeder of some part of the tree that feeds the list of its commands and
keeps its shape. -/
def Feeds {α : Type} (cmds : α → List Cmd) (shape : α → α) (line : Option Text)
    (r : Option (Bool × α)) (a : α) : Prop :=
  (r.map fun (ate, a') => (ate, cmds a', shape a')) =
    (cmdsHeredocFeed (cmds a) line).map fun (ate, cs) => (ate, cs, shape a)

/-- The first of two parts is fed when it waits, else the second. -/
theorem feedBoth_feeds {α β γ : Type} {cmdsA : α → List Cmd} {shapeA : α → α}
    {cmdsB : β → List Cmd} {shapeB : β → β} (cmdsC : γ → List Cmd) (shapeC : γ → γ)
    {line : Option Text} {ra : Option (Bool × α)} {rb : Option (Bool × β)} {a : α} {b : β}
    (mk : α → β → γ) (hcmds : ∀ a b, cmdsC (mk a b) = cmdsA a ++ cmdsB b)
    (hshape : ∀ a b a' b', shapeA a' = shapeA a → shapeB b' = shapeB b →
      shapeC (mk a' b') = shapeC (mk a b))
    (ha : Feeds cmdsA shapeA line ra a) (hb : Feeds cmdsB shapeB line rb b) :
    Feeds cmdsC shapeC line ((feedBoth ra b rb).map fun (ate, a, b) => (ate, mk a b)) (mk a b) := by
  unfold Feeds at ha hb ⊢
  rw [hcmds]
  by_cases hp : (cmdsA a).any cmdHeredocPending = true
  · obtain ⟨happ, hate⟩ := cmdsHeredocFeed_front (cmdsB b) line hp
    rw [happ]
    cases ra with
    | none =>
        have hnone : cmdsHeredocFeed (cmdsA a) line = none := by simpa using ha.symm
        simp [feedBoth, hnone]
    | some found =>
        obtain ⟨ate, a'⟩ := found
        obtain ⟨⟨ate', cs⟩, hfeed, heq⟩ := Option.map_eq_some_iff.mp ha.symm
        obtain rfl := hate _ _ hfeed
        simp only [Prod.mk.injEq] at heq
        obtain ⟨rfl, hcs, hsh⟩ := heq
        simp [feedBoth, hfeed, hcmds, hcs, hshape a b a' b hsh.symm rfl]
  · have hp' : (cmdsA a).any cmdHeredocPending = false := by simpa using hp
    have hsame : cmdsHeredocFeed (cmdsA a) line = some (false, cmdsA a) := by
      have hskip := cmdsHeredocFeed_skip [] line hp'
      rw [List.append_nil] at hskip
      rw [hskip]
      simp [cmdsHeredocFeed]
    rw [cmdsHeredocFeed_skip (cmdsB b) line hp']
    rw [hsame] at ha
    obtain ⟨⟨ate, a'⟩, rfl, heq⟩ := Option.map_eq_some_iff.mp ha
    simp only [Prod.mk.injEq] at heq
    obtain ⟨rfl, hcs, hsh⟩ := heq
    cases rb with
    | none =>
        have hnone : cmdsHeredocFeed (cmdsB b) line = none := by simpa using hb.symm
        simp [feedBoth, hnone]
    | some found =>
        obtain ⟨ate, b'⟩ := found
        obtain ⟨⟨ate', ds⟩, hfeed, heq⟩ := Option.map_eq_some_iff.mp hb.symm
        simp only [Prod.mk.injEq] at heq
        obtain ⟨rfl, hds, hshb⟩ := heq
        simp [feedBoth, hfeed, hcmds, hcs, hds, hshape a b a' b' hsh hshb.symm]

/-- A part inside another one. -/
theorem Feeds.within {α γ : Type} {cmdsA : α → List Cmd} {shapeA : α → α}
    (cmdsC : γ → List Cmd) (shapeC : γ → γ) {line : Option Text} {ra : Option (Bool × α)} {a : α}
    (mk : α → γ) (hcmds : ∀ a, cmdsC (mk a) = cmdsA a)
    (hshape : ∀ a a', shapeA a' = shapeA a → shapeC (mk a') = shapeC (mk a))
    (ha : Feeds cmdsA shapeA line ra a) :
    Feeds cmdsC shapeC line (ra.map fun (ate, a) => (ate, mk a)) (mk a) := by
  unfold Feeds at ha ⊢
  rw [hcmds]
  cases ra with
  | none =>
      have hnone : cmdsHeredocFeed (cmdsA a) line = none := by simpa using ha.symm
      simp [hnone]
  | some found =>
      obtain ⟨ate, a'⟩ := found
      obtain ⟨⟨ate', cs⟩, hfeed, heq⟩ := Option.map_eq_some_iff.mp ha.symm
      simp only [Prod.mk.injEq] at heq
      obtain ⟨rfl, hcs, hsh⟩ := heq
      simp [hfeed, hcmds, hcs, hshape a a' hsh.symm]

mutual

theorem kindHeredocPending_eq : ∀ kind : ItemKind,
    kindHeredocPending kind = (kindCmds kind).any cmdHeredocPending
  | .pipeline pl => rfl
  | .ifc arms => by simp only [kindHeredocPending, kindCmds, ifArmsHeredocPending_eq arms]
  | .wh cond body => by
      simp only [kindHeredocPending, kindCmds, listHeredocPending_eq cond,
        listHeredocPending_eq body, List.any_append]
  | .fr _ _ body => by simp only [kindHeredocPending, kindCmds, listHeredocPending_eq body]
  | .fn _ body => by simp only [kindHeredocPending, kindCmds, listHeredocPending_eq body]
  | .cs _ arms => by simp only [kindHeredocPending, kindCmds, caseArmsHeredocPending_eq arms]
  | .db _ => rfl

theorem itemHeredocPending_eq : ∀ it : Item,
    itemHeredocPending it = (itemCmds it).any cmdHeredocPending
  | ⟨kind, _, _⟩ => by simp only [itemHeredocPending, itemCmds, kindHeredocPending_eq kind]

theorem ifArmsHeredocPending_eq : ∀ arms : List IfArm,
    ifArmsHeredocPending arms = (ifArmsCmds arms).any cmdHeredocPending
  | [] => rfl
  | ⟨cond, body, _⟩ :: arms => by
      simp only [ifArmsHeredocPending, ifArmHeredocPending, ifArmsCmds, ifArmCmds,
        listHeredocPending_eq cond, listHeredocPending_eq body, ifArmsHeredocPending_eq arms,
        List.any_append]

theorem caseArmsHeredocPending_eq : ∀ arms : List CaseArm,
    caseArmsHeredocPending arms = (caseArmsCmds arms).any cmdHeredocPending
  | [] => rfl
  | ⟨_, body⟩ :: arms => by
      simp only [caseArmsHeredocPending, caseArmHeredocPending, caseArmsCmds, caseArmCmds,
        listHeredocPending_eq body, caseArmsHeredocPending_eq arms, List.any_append]

/-- A tree waits when one of its commands does. -/
theorem listHeredocPending_eq : ∀ items : List Item,
    listHeredocPending items = (listCmds items).any cmdHeredocPending
  | [] => rfl
  | it :: items => by
      simp only [listHeredocPending, listCmds, itemHeredocPending_eq it,
        listHeredocPending_eq items, List.any_append]

end

mutual

theorem kindHeredocFeed_feeds (line : Option Text) : ∀ kind : ItemKind,
    Feeds kindCmds kindShape line (kindHeredocFeed line kind) kind
  | .pipeline pl => by
      have hlen : ∀ (cs : List Cmd) ate cs', cmdsHeredocFeed cs line = some (ate, cs') →
          cs'.map (fun _ => ({} : Cmd)) = cs.map fun _ => {} := by
        intro cs
        induction cs with
        | nil =>
            intro ate cs' h
            simp_all [cmdsHeredocFeed]
        | cons cmd cs ih =>
            intro ate cs' h
            simp only [cmdsHeredocFeed] at h
            split at h
            · simp only [Option.map_eq_some_iff, Prod.mk.injEq] at h
              obtain ⟨_, _, _, rfl⟩ := h
              rfl
            · simp only [Option.map_eq_some_iff, Prod.mk.injEq] at h
              obtain ⟨⟨ate', cs''⟩, hcs, _, rfl⟩ := h
              simp [ih _ _ hcs]
      unfold Feeds
      cases hfeed : cmdsHeredocFeed pl.cmds line with
      | none => simp [kindHeredocFeed, kindCmds, hfeed]
      | some found =>
          simp [kindHeredocFeed, kindCmds, kindShape, hfeed, hlen _ _ _ hfeed]
  | .ifc arms => by
      unfold kindHeredocFeed
      exact (ifArmsHeredocFeed_feeds line arms).within kindCmds kindShape ItemKind.ifc (fun _ => rfl) fun a a' h => by
        simp only [kindShape, h]
  | .wh cond body => by
      unfold kindHeredocFeed
      exact feedBoth_feeds kindCmds kindShape ItemKind.wh (fun _ _ => rfl) (fun a b a' b' ha hb => by
        simp only [kindShape, ha, hb]) (listHeredocFeed_feeds line cond)
        (listHeredocFeed_feeds line body)
  | .fr name words body => by
      unfold kindHeredocFeed
      exact (listHeredocFeed_feeds line body).within kindCmds kindShape (ItemKind.fr name words) (fun _ => rfl)
        fun a a' h => by simp only [kindShape, h]
  | .fn name body => by
      unfold kindHeredocFeed
      exact (listHeredocFeed_feeds line body).within kindCmds kindShape (ItemKind.fn name) (fun _ => rfl)
        fun a a' h => by simp only [kindShape, h]
  | .cs word arms => by
      unfold kindHeredocFeed
      exact (caseArmsHeredocFeed_feeds line arms).within kindCmds kindShape (ItemKind.cs word) (fun _ => rfl)
        fun a a' h => by simp only [kindShape, h]
  | .db argv => rfl

theorem itemHeredocFeed_feeds (line : Option Text) : ∀ it : Item,
    Feeds itemCmds itemShape line (itemHeredocFeed line it) it
  | ⟨kind, cond, bg⟩ => by
      unfold itemHeredocFeed
      exact (kindHeredocFeed_feeds line kind).within itemCmds itemShape (fun kind => Item.mk kind cond bg)
        (fun _ => rfl) fun a a' h => by simp only [itemShape, h]

theorem ifArmHeredocFeed_feeds (line : Option Text) : ∀ arm : IfArm,
    Feeds ifArmCmds ifArmShape line (ifArmHeredocFeed line arm) arm
  | ⟨cond, body, isElse⟩ => by
      unfold ifArmHeredocFeed
      exact feedBoth_feeds ifArmCmds ifArmShape (fun cond body => IfArm.mk cond body isElse) (fun _ _ => rfl)
        (fun a b a' b' ha hb => by simp only [ifArmShape, ha, hb])
        (listHeredocFeed_feeds line cond) (listHeredocFeed_feeds line body)

theorem ifArmsHeredocFeed_feeds (line : Option Text) : ∀ arms : List IfArm,
    Feeds ifArmsCmds ifArmsShape line (ifArmsHeredocFeed line arms) arms
  | [] => rfl
  | arm :: arms => by
      unfold ifArmsHeredocFeed
      exact feedBoth_feeds ifArmsCmds ifArmsShape List.cons (fun _ _ => rfl)
        (fun a b a' b' ha hb => by simp only [ifArmsShape, ha, hb])
        (ifArmHeredocFeed_feeds line arm) (ifArmsHeredocFeed_feeds line arms)

theorem caseArmHeredocFeed_feeds (line : Option Text) : ∀ arm : CaseArm,
    Feeds caseArmCmds caseArmShape line (caseArmHeredocFeed line arm) arm
  | ⟨patterns, body⟩ => by
      unfold caseArmHeredocFeed
      exact (listHeredocFeed_feeds line body).within caseArmCmds caseArmShape (fun body => CaseArm.mk patterns body)
        (fun _ => rfl) fun a a' h => by simp only [caseArmShape, h]

theorem caseArmsHeredocFeed_feeds (line : Option Text) : ∀ arms : List CaseArm,
    Feeds caseArmsCmds caseArmsShape line (caseArmsHeredocFeed line arms) arms
  | [] => rfl
  | arm :: arms => by
      unfold caseArmsHeredocFeed
      exact feedBoth_feeds caseArmsCmds caseArmsShape List.cons (fun _ _ => rfl)
        (fun a b a' b' ha hb => by simp only [caseArmsShape, ha, hb])
        (caseArmHeredocFeed_feeds line arm) (caseArmsHeredocFeed_feeds line arms)

/-- **Feeding a tree is feeding the list of its commands.** -/
theorem listHeredocFeed_feeds (line : Option Text) : ∀ items : List Item,
    Feeds listCmds listShape line (listHeredocFeed line items) items
  | [] => rfl
  | it :: items => by
      simp only [Feeds, listHeredocFeed, listCmds, itemHeredocPending_eq it]
      by_cases hp : (itemCmds it).any cmdHeredocPending = true
      · have hit := itemHeredocFeed_feeds line it
        rw [if_pos hp, (cmdsHeredocFeed_front (listCmds items) line hp).1]
        cases hfeed : itemHeredocFeed line it with
        | none =>
            have hnone : cmdsHeredocFeed (itemCmds it) line = none := by
              simpa [Feeds, hfeed] using hit.symm
            simp [hnone]
        | some found =>
            obtain ⟨ate, it'⟩ := found
            rw [Feeds, hfeed] at hit
            obtain ⟨⟨ate', cs⟩, hcs, heq⟩ := Option.map_eq_some_iff.mp hit.symm
            simp only [Prod.mk.injEq] at heq
            obtain ⟨rfl, hcs', hsh⟩ := heq
            simp [hcs, hcs', hsh, listCmds, listShape]
      · have hp' : (itemCmds it).any cmdHeredocPending = false := by simpa using hp
        have hitems := listHeredocFeed_feeds line items
        rw [if_neg hp, cmdsHeredocFeed_skip (listCmds items) line hp']
        cases hfeed : listHeredocFeed line items with
        | none =>
            have hnone : cmdsHeredocFeed (listCmds items) line = none := by
              simpa [Feeds, hfeed] using hitems.symm
            simp [hnone]
        | some found =>
            obtain ⟨ate, items'⟩ := found
            rw [Feeds, hfeed] at hitems
            obtain ⟨⟨ate', cs⟩, hcs, heq⟩ := Option.map_eq_some_iff.mp hitems.symm
            simp only [Prod.mk.injEq] at heq
            obtain ⟨rfl, hcs', hsh⟩ := heq
            simp [hcs, hcs', hsh, listCmds, listShape]

end

/-! ## Feeding lines -/

/-- `petrush_heredoc_feed_line` on the commands alone. -/
def cmdsFeedLine (cs : List Cmd) (line : Option Text) : Int × List Cmd :=
  if !cs.any cmdHeredocPending then (0, cs)
  else
    match cmdsHeredocFeed cs line with
    | none => (-1, cs)
    | some (_, cs') =>
        if line = none ∧ cs'.any cmdHeredocPending then (-1, cs')
        else (if cs'.any cmdHeredocPending then 1 else 0, cs')

theorem petrushHeredocFeedLine_eq (list : PList) (line : Option Text) :
    cmdsFeedLine (listCmds list) line =
        ((petrushHeredocFeedLine list line).1, listCmds (petrushHeredocFeedLine list line).2) ∧
      listShape (petrushHeredocFeedLine list line).2 = listShape list := by
  have hfeed := listHeredocFeed_feeds line list
  simp only [cmdsFeedLine, petrushHeredocFeedLine, listHeredocPending_eq]
  by_cases hp : (listCmds list).any cmdHeredocPending = true
  · simp only [hp, Bool.not_true, Bool.false_eq_true, if_false]
    cases hl : listHeredocFeed line list with
    | none =>
        have hnone : cmdsHeredocFeed (listCmds list) line = none := by
          simpa [Feeds, hl] using hfeed.symm
        simp [hnone]
    | some found =>
        obtain ⟨ate, list'⟩ := found
        rw [Feeds, hl] at hfeed
        obtain ⟨⟨ate', cs⟩, hcs, heq⟩ := Option.map_eq_some_iff.mp hfeed.symm
        simp only [Prod.mk.injEq] at heq
        obtain ⟨rfl, rfl, hsh⟩ := heq
        simp only [hcs]
        split <;> exact ⟨rfl, hsh.symm⟩
  · simp [hp]

/-- The answers of the feeder to lines fed one after the other, and the tree
then. -/
def feedAll : PList → List Text → List Int × PList
  | list, [] => ([], list)
  | list, line :: lines =>
      ((petrushHeredocFeedLine list (some line)).1 ::
          (feedAll (petrushHeredocFeedLine list (some line)).2 lines).1,
        (feedAll (petrushHeredocFeedLine list (some line)).2 lines).2)

/-- The same on the commands alone. -/
def cmdsFeedAll : List Cmd → List Text → List Int × List Cmd
  | cs, [] => ([], cs)
  | cs, line :: lines =>
      ((cmdsFeedLine cs (some line)).1 :: (cmdsFeedAll (cmdsFeedLine cs (some line)).2 lines).1,
        (cmdsFeedAll (cmdsFeedLine cs (some line)).2 lines).2)

theorem feedAll_eq (list : PList) (lines : List Text) :
    cmdsFeedAll (listCmds list) lines = ((feedAll list lines).1, listCmds (feedAll list lines).2) ∧
      listShape (feedAll list lines).2 = listShape list := by
  induction lines generalizing list with
  | nil => exact ⟨rfl, rfl⟩
  | cons line lines ih =>
      obtain ⟨hcmds, hshape⟩ := petrushHeredocFeedLine_eq list (some line)
      obtain ⟨ihcmds, ihshape⟩ := ih (petrushHeredocFeedLine list (some line)).2
      constructor
      · simp only [cmdsFeedAll, feedAll, hcmds, ihcmds]
      · simp only [feedAll, ihshape, hshape]

theorem cmdsFeedAll_append (cs : List Cmd) (xs ys : List Text) :
    cmdsFeedAll cs (xs ++ ys) =
      ((cmdsFeedAll cs xs).1 ++ (cmdsFeedAll (cmdsFeedAll cs xs).2 ys).1,
        (cmdsFeedAll (cmdsFeedAll cs xs).2 ys).2) := by
  induction xs generalizing cs with
  | nil => rfl
  | cons x xs ih => simp [cmdsFeedAll, ih]

/-- Commands that do not wait are passed over. -/
theorem cmdsFeedAll_skip {settled : List Cmd} (h : settled.any cmdHeredocPending = false)
    (cs : List Cmd) (lines : List Text) :
    cmdsFeedAll (settled ++ cs) lines =
      ((cmdsFeedAll cs lines).1, settled ++ (cmdsFeedAll cs lines).2) := by
  induction lines generalizing cs with
  | nil => rfl
  | cons line lines ih =>
      have hstep : cmdsFeedLine (settled ++ cs) (some line) =
          ((cmdsFeedLine cs (some line)).1, settled ++ (cmdsFeedLine cs (some line)).2) := by
        simp only [cmdsFeedLine, List.any_append, h, Bool.false_or, cmdsHeredocFeed_skip cs _ h]
        by_cases hp : cs.any cmdHeredocPending = true
        · simp only [hp, Bool.not_true, Bool.false_eq_true, if_false]
          cases cmdsHeredocFeed cs (some line) with
          | none => rfl
          | some found => simp [h]
        · simp [hp]
      simp only [cmdsFeedAll, hstep, ih]

/-! ## The bodies -/

/-- A here-document as it stands in the file: body lines and the line that ends
them. -/
structure Doc where
  lines : List Text
  closing : Text

/-- All its lines. -/
def Doc.all (d : Doc) : List Text := d.lines ++ [d.closing]

/-- The body the lines make. -/
def bodyText (strip : Bool) (lines : List Text) : Text :=
  lines.flatMap fun line => stripTabs strip line ++ ['\n']

/-- The document is one for this command: no body line is its delimiter, after
its own tab stripping, the last line is, and the body stays under the limit. -/
structure Doc.Fits (cmd : Cmd) (d : Doc) : Prop where
  lines : ∀ line ∈ d.lines, some (stripTabs cmd.hereStrip line) ≠ cmd.hereDelim
  closing : some (stripTabs cmd.hereStrip d.closing) = cmd.hereDelim
  size : (bodyText cmd.hereStrip d.lines).length ≤ heredocMax

/-- A command as `build_stage` leaves it with at most one here-document
operator: nothing skipped, nothing read yet. -/
def OneHeredoc (cmd : Cmd) : Prop :=
  cmd.hereSkipDelims = [] ∧ cmd.hereBody = none ∧ cmd.hereFeedI = 0

/-- `<<` or `<<-`. -/
def isHeredocOp : Token → Bool
  | .op .dless | .op .dlessdash => true
  | _ => false

theorem oneHeredoc_buildStageFrom {cmd cmd' : Cmd} {toks : List Token}
    (h : buildStageFrom cmd toks = some cmd') (hone : OneHeredoc cmd)
    (hcount : toks.countP isHeredocOp ≤ if cmd.hereDelim.isSome then 0 else 1) :
    OneHeredoc cmd' := by
  fun_induction buildStageFrom cmd toks with
  | case1 cmd =>
      obtain rfl := Option.some.inj h
      exact hone
  | case2 cmd w toks ih =>
      rw [List.countP_cons_of_neg (by simp [isHeredocOp])] at hcount
      exact ih h hone hcount
  | case3 cmd toks ih =>
      rw [List.countP_cons_of_neg (by simp [isHeredocOp])] at hcount
      exact ih h hone hcount
  | case4 => contradiction
  | case5 cmd k w toks hk cmd₁ hredir ih =>
      have hnone : isHeredocOp (.op k) = true → cmd.hereDelim = none := by
        intro hop
        rw [List.countP_cons_of_pos hop] at hcount
        cases hdelim : cmd.hereDelim with
        | none => rfl
        | some d => simp [hdelim] at hcount
      obtain ⟨hskip, hbody, hfeed⟩ := hone
      cases k <;> simp only [applyRedir, Option.some.injEq, reduceCtorEq] at hredir <;>
        subst hredir
      case dless =>
        rw [List.countP_cons_of_pos rfl, List.countP_cons_of_neg (by simp [isHeredocOp])] at hcount
        have hdelim := hnone rfl
        refine ih h ⟨by simp [hskip, hdelim], rfl, rfl⟩ ?_
        simp only [hdelim, Option.isSome_none, Bool.false_eq_true, if_false] at hcount
        have hzero : toks.countP isHeredocOp = 0 := by omega
        simp [hzero]
      case dlessdash =>
        rw [List.countP_cons_of_pos rfl, List.countP_cons_of_neg (by simp [isHeredocOp])] at hcount
        have hdelim := hnone rfl
        refine ih h ⟨by simp [hskip, hdelim], rfl, rfl⟩ ?_
        simp only [hdelim, Option.isSome_none, Bool.false_eq_true, if_false] at hcount
        have hzero : toks.countP isHeredocOp = 0 := by omega
        simp [hzero]
      case lt =>
        refine ih h ⟨rfl, rfl, rfl⟩ ?_
        have hcount' : toks.countP isHeredocOp ≤ 1 := by
          refine Nat.le_trans (by simpa [isHeredocOp] using hcount) ?_
          split <;> omega
        simpa [hereClear] using hcount'
      all_goals exact ih h ⟨hskip, hbody, hfeed⟩ (by simpa [isHeredocOp] using hcount)
  | case6 => contradiction

/-- `build_stage` leaves every command with at most one here-document so. -/
theorem oneHeredoc_buildStage {cmd : Cmd} {toks : List Token} (h : buildStage toks = some cmd)
    (hcount : toks.countP isHeredocOp ≤ 1) : OneHeredoc cmd := by
  have hfrom : buildStageFrom {} toks = some cmd := by
    unfold buildStage at h
    split at h
    · contradiction
    · split at h <;> simp_all
  exact oneHeredoc_buildStageFrom hfrom ⟨rfl, rfl, rfl⟩ (by simpa using hcount)

/-- The command with the body it should get. -/
def withBody (cmd : Cmd) (d : Doc) : Cmd :=
  { cmd with hereBody := some (bodyText cmd.hereStrip d.lines), hereFeedI := 1 }

/-- The waiting commands get the documents in order. -/
def fillCmds : List Cmd → List Doc → List Cmd
  | [], _ => []
  | cmd :: cs, [] => cmd :: cs
  | cmd :: cs, d :: docs =>
      if cmdHeredocPending cmd then withBody cmd d :: fillCmds cs docs
      else cmd :: fillCmds cs (d :: docs)

/-- One document, fed to a command that has read some of it. -/
theorem cmdsFeedAll_doc (cmd : Cmd) (cs : List Cmd) (lines : List Text) (closing : Text)
    (hskip : cmd.hereSkipDelims = []) (hfeed : cmd.hereFeedI = 0)
    (hlines : ∀ line ∈ lines, some (stripTabs cmd.hereStrip line) ≠ cmd.hereDelim)
    (hclosing : some (stripTabs cmd.hereStrip closing) = cmd.hereDelim)
    (hsize : (cmd.hereBody.getD []).length + (bodyText cmd.hereStrip lines).length ≤ heredocMax) :
    cmdsFeedAll (cmd :: cs) (lines ++ [closing]) =
      (List.replicate lines.length 1 ++ [if cs.any cmdHeredocPending then 1 else 0],
        { cmd with
          hereBody := some (cmd.hereBody.getD [] ++ bodyText cmd.hereStrip lines)
          hereFeedI := 1 } :: cs) := by
  have hpending : cmdHeredocPending cmd = true := by
    simp [cmdHeredocPending, hskip, hfeed, ← hclosing]
  have hdelim : cmdCurrentDelim cmd = some (stripTabs cmd.hereStrip closing) := by
    simp [cmdCurrentDelim, hskip, hfeed, hclosing]
  induction lines generalizing cmd with
  | nil =>
      have hclosed : cmdHeredocPending
          { cmd with hereBody := some (cmd.hereBody.getD []), hereFeedI := 1 } = false := by
        simp [cmdHeredocPending, hskip]
      have hclose : closeHeredoc cmd =
          { cmd with hereBody := some (cmd.hereBody.getD []), hereFeedI := 1 } := by
        simp [closeHeredoc, hskip, hfeed]
      simp [cmdsFeedAll, cmdsFeedLine, cmdsHeredocFeed, hpending, cmdHeredocFeed, hdelim, hclose,
        hclosed, bodyText]
  | cons line lines ih =>
      have hne : stripTabs cmd.hereStrip line ≠ stripTabs cmd.hereStrip closing := by
        intro heq
        exact hlines line (by simp) (by rw [heq, hclosing])
      have hroom : ¬ (cmd.hereBody.getD []).length + (stripTabs cmd.hereStrip line).length + 1 >
          heredocMax := by
        simp only [bodyText, List.flatMap_cons, List.length_append, List.length_singleton] at hsize
        omega
      generalize hcmd' : ({ cmd with
        hereBody := some (cmd.hereBody.getD [] ++ stripTabs cmd.hereStrip line ++ ['\n']) } : Cmd) =
          cmd' at *
      have happend : hereBodyAppend cmd (stripTabs cmd.hereStrip line) = some cmd' := by
        simp only [hereBodyAppend, if_neg hroom, hcmd']
      have hpending' : cmdHeredocPending cmd' = true := by
        subst hcmd'
        exact hpending
      have hstep : cmdsFeedLine (cmd :: cs) (some line) = (1, cmd' :: cs) := by
        simp [cmdsFeedLine, cmdsHeredocFeed, hpending, cmdHeredocFeed, hdelim, hne, happend,
          hpending']
      have hrest := ih cmd' (by subst hcmd'; exact hskip) (by subst hcmd'; exact hfeed)
        (by subst hcmd'; exact fun l hl => hlines l (by simp [hl]))
        (by subst hcmd'; exact hclosing)
        (by
          subst hcmd'
          simp only [bodyText, List.flatMap_cons, List.length_append, Option.getD_some,
            List.length_singleton] at hsize ⊢
          omega)
        hpending' (by subst hcmd'; exact hdelim)
      simp only [List.cons_append, cmdsFeedAll, hstep, hrest]
      subst hcmd'
      simp [bodyText, List.replicate_succ]

/-- All documents, fed to the commands that wait for them. -/
theorem cmdsFeedAll_fill (cs : List Cmd) (docs : List Doc) (hone : ∀ cmd ∈ cs, OneHeredoc cmd)
    (hfit : List.Forall₂ (fun cmd d => d.Fits cmd) (cs.filter cmdHeredocPending) docs) :
    ∃ codes, cmdsFeedAll cs (docs.flatMap Doc.all) = (codes, fillCmds cs docs) ∧
      (docs = [] ∧ codes = [] ∨ ∃ n, codes = List.replicate n 1 ++ [0]) := by
  induction cs generalizing docs with
  | nil =>
      obtain rfl : docs = [] := by simpa using hfit
      exact ⟨[], rfl, Or.inl ⟨rfl, rfl⟩⟩
  | cons cmd cs ih =>
      have hrest := fun docs => ih docs fun c hc => hone c (List.mem_cons_of_mem _ hc)
      by_cases hp : cmdHeredocPending cmd = true
      · rw [List.filter_cons_of_pos hp] at hfit
        cases hfit with
        | @cons _ d _ docs hd hds =>
            obtain ⟨codes, hcodes, hend⟩ := hrest docs hds
            obtain ⟨hskip, hbody, hfeed⟩ := hone cmd (by simp)
            have hdoc := cmdsFeedAll_doc cmd cs d.lines d.closing hskip hfeed hd.lines hd.closing
              (by simpa [hbody] using hd.size)
            have hdone : [withBody cmd d].any cmdHeredocPending = false := by
              simp [withBody, cmdHeredocPending, hskip]
            have hbodyDone : ({ cmd with
                hereBody := some (cmd.hereBody.getD [] ++ bodyText cmd.hereStrip d.lines)
                hereFeedI := 1 } : Cmd) = withBody cmd d := by
              simp [withBody, hbody]
            rw [hbodyDone] at hdoc
            have hlater := cmdsFeedAll_skip hdone cs (docs.flatMap Doc.all)
            rw [hcodes, List.singleton_append, List.singleton_append] at hlater
            refine ⟨List.replicate d.lines.length 1 ++
              [if cs.any cmdHeredocPending then 1 else 0] ++ codes, ?_, Or.inr ?_⟩
            · rw [List.flatMap_cons, Doc.all, cmdsFeedAll_append, hdoc]
              simp only [hlater, fillCmds, hp, if_true]
            · rcases hend with ⟨rfl, rfl⟩ | ⟨n, rfl⟩
              · -- the last document
                have hnone : cs.any cmdHeredocPending = false := by
                  have hnil : cs.filter cmdHeredocPending = [] := by simpa using hds
                  simpa using List.filter_eq_nil_iff.mp hnil
                exact ⟨d.lines.length, by simp [hnone]⟩
              · have hsome : cs.any cmdHeredocPending = true := by
                  by_contra hno
                  have hcs : cmdsFeedAll cs (docs.flatMap Doc.all) =
                      ([] ++ (cmdsFeedAll [] (docs.flatMap Doc.all)).1,
                        cs ++ (cmdsFeedAll [] (docs.flatMap Doc.all)).2) := by
                    simpa using cmdsFeedAll_skip (by simpa using hno) [] (docs.flatMap Doc.all)
                  have hdocs : docs = [] := by
                    have hnil : cs.filter cmdHeredocPending = [] :=
                      List.filter_eq_nil_iff.mpr (by simpa using hno)
                    simpa [hnil] using hds
                  rw [hdocs] at hcodes
                  simp [cmdsFeedAll] at hcodes
                refine ⟨d.lines.length + 1 + n, ?_⟩
                simp [hsome, List.replicate_add]
      · rw [List.filter_cons_of_neg hp] at hfit
        obtain ⟨codes, hcodes, hend⟩ := hrest docs hfit
        have hskip := @cmdsFeedAll_skip [cmd] (by simpa using hp) cs
          (docs.flatMap Doc.all)
        refine ⟨codes, ?_, hend⟩
        rw [List.singleton_append] at hskip
        rw [hskip, hcodes]
        cases docs with
        | nil => cases cs <;> rfl
        | cons d docs => simp [fillCmds, hp]

/-- At the end of the file a waiting command is an error. -/
theorem petrushHeredocFeedLine_eof (list : PList) (h : listHeredocPending list = true) :
    (petrushHeredocFeedLine list none).1 = -1 := by
  have hnone : ∀ cs : List Cmd, cs.any cmdHeredocPending = true →
      cmdsHeredocFeed cs none = none := by
    intro cs
    induction cs with
    | nil => simp
    | cons cmd cs ih =>
        intro hany
        by_cases hp : cmdHeredocPending cmd = true
        · simp [cmdsHeredocFeed, hp, cmdHeredocFeed]
        · simp [cmdsHeredocFeed, hp, ih (by simpa [hp] using hany)]
  have hcmds := (petrushHeredocFeedLine_eq list none).1
  rw [listHeredocPending_eq] at h
  simp only [cmdsFeedLine, h, Bool.not_true, Bool.false_eq_true, if_false, hnone _ h] at hcmds
  exact (Prod.mk.inj hcmds).1.symm

/-- An answer of 1 means that a command still waits. -/
theorem pending_of_code {list : PList} {line : Option Text}
    (h : (petrushHeredocFeedLine list line).1 = 1) :
    listHeredocPending (petrushHeredocFeedLine list line).2 = true := by
  unfold petrushHeredocFeedLine at h ⊢
  split at h
  · simp at h
  · rename_i hp
    simp only [hp, Bool.false_eq_true, if_false]
    split at h
    · simp at h
    · split at h
      · simp at h
      · rename_i hlast
        simp only [hlast, if_false]
        by_contra hno
        simp [hno] at h

/-! ## Main results -/

/-- **The bodies go to their own commands.**  For a tree whose commands have at
most one here-document each, the documents fed in source order are answered 1 up
to the last line and 0 on it, each waiting command gets its own body, nothing
else changes, and the end of the file at any earlier point is an error. -/
theorem feedAll_bodies (list : PList) (docs : List Doc)
    (hone : ∀ cmd ∈ listCmds list, OneHeredoc cmd)
    (hfit : List.Forall₂ (fun cmd d => d.Fits cmd)
      ((listCmds list).filter cmdHeredocPending) docs) :
    (docs ≠ [] → ∃ n, (feedAll list (docs.flatMap Doc.all)).1 = List.replicate n 1 ++ [0]) ∧
      listCmds (feedAll list (docs.flatMap Doc.all)).2 = fillCmds (listCmds list) docs ∧
      listShape (feedAll list (docs.flatMap Doc.all)).2 = listShape list ∧
      ∀ fed later, docs.flatMap Doc.all = fed ++ later → later ≠ [] →
        (petrushHeredocFeedLine (feedAll list fed).2 none).1 = -1 := by
  obtain ⟨codes, hcodes, hend⟩ := cmdsFeedAll_fill (listCmds list) docs hone hfit
  obtain ⟨hcmds, hshape⟩ := feedAll_eq list (docs.flatMap Doc.all)
  rw [hcodes] at hcmds
  obtain ⟨hanswers, hfilled⟩ := Prod.mk.inj hcmds
  have hones : docs ≠ [] →
      ∃ n, (feedAll list (docs.flatMap Doc.all)).1 = List.replicate n 1 ++ [0] := by
    intro hne
    rcases hend with ⟨hnil, -⟩ | ⟨n, hn⟩
    · contradiction
    · exact ⟨n, by rw [← hanswers, hn]⟩
  refine ⟨hones, hfilled.symm, hshape, ?_⟩
  intro fed later hsplit hlater
  apply petrushHeredocFeedLine_eof
  have hdocs : docs ≠ [] := by
    rintro rfl
    simp at hsplit
    exact hlater hsplit.2
  cases fed using List.reverseRecOn with
  | nil =>
      -- nothing fed: the first document waits
      rw [feedAll, listHeredocPending_eq]
      by_contra hno
      have hnil : (listCmds list).filter cmdHeredocPending = [] :=
        List.filter_eq_nil_iff.mpr (by simpa using hno)
      rw [hnil] at hfit
      exact hdocs (by simpa using hfit)
  | append_singleton fed line =>
      -- the last line fed was answered 1
      obtain ⟨n, hn⟩ := hones hdocs
      have hfed : ∀ (list : PList) (xs ys : List Text),
          feedAll list (xs ++ ys) =
            ((feedAll list xs).1 ++ (feedAll (feedAll list xs).2 ys).1,
              (feedAll (feedAll list xs).2 ys).2) := by
        intro list xs ys
        induction xs generalizing list with
        | nil => rfl
        | cons x xs ih => simp [feedAll, ih]
      have hlength : ∀ (list : PList) (xs : List Text), (feedAll list xs).1.length = xs.length := by
        intro list xs
        induction xs generalizing list with
        | nil => rfl
        | cons x xs ih => simp [feedAll, ih]
      rw [hsplit, hfed, hfed] at hn
      rw [hfed]
      generalize (feedAll list fed).1 = before at hn
      generalize hmid : (feedAll list fed).2 = mid at hn ⊢
      have hpos : 0 < (feedAll (feedAll mid [line]).2 later).1.length := by
        rw [hlength]
        exact List.length_pos_iff.mpr hlater
      generalize (feedAll (feedAll mid [line]).2 later).1 = rest at hn hpos
      have hone : (petrushHeredocFeedLine mid (some line)).1 = 1 := by
        have hmem : (petrushHeredocFeedLine mid (some line)).1 ∈
            (before ++ [(petrushHeredocFeedLine mid (some line)).1] ++ rest).dropLast := by
          rw [List.dropLast_append_of_ne_nil (List.length_pos_iff.mp hpos)]
          simp
        have hall : before ++ [(petrushHeredocFeedLine mid (some line)).1] ++ rest =
            List.replicate n 1 ++ [0] := by
          simpa [feedAll] using hn
        rw [hall, List.dropLast_concat] at hmem
        exact List.eq_of_mem_replicate hmem
      exact pending_of_code hone

/-- `if cat <<A; then cat <<-B; fi` with two documents. -/
theorem feedAll_bodies_if :
    let cmdA : Cmd := { argv := [⟨"cat".toList, .unquoted⟩], hereDelim := some ['A'] }
    let cmdB : Cmd :=
      { argv := [⟨"cat".toList, .unquoted⟩], hereDelim := some ['B'], hereStrip := true }
    let list : PList :=
      [⟨.ifc [⟨[⟨.pipeline ⟨[cmdA]⟩, .always, false⟩], [⟨.pipeline ⟨[cmdB]⟩, .always, false⟩],
        false⟩], .always, false⟩]
    listCmds (feedAll list ["B".toList, "A".toList, "\ta".toList, "\tB".toList]).2 =
      [{ cmdA with hereBody := some "B\n".toList, hereFeedI := 1 },
        { cmdB with hereBody := some "a\n".toList, hereFeedI := 1 }] :=
  (feedAll_bodies _ [⟨["B".toList], "A".toList⟩, ⟨["\ta".toList], "\tB".toList⟩]
    (by simp [listCmds, itemCmds, kindCmds, ifArmsCmds, ifArmCmds, OneHeredoc])
    (.cons ⟨by decide, by decide, by decide⟩ (.cons ⟨by decide, by decide, by decide⟩ .nil))).2.1

end Petrush.Verified.Heredocs

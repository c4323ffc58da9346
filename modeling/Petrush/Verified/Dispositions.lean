import Petrush.Verified.Invariants

/-!
# The trap table and the dispositions

`trap_set_slot` changes a slot and the disposition of its signal together; what
else changes dispositions are the waits for programs, which put back for SIGINT
and SIGQUIT what they found, and the starts of children.

The invariant (`Settled`) is about the disposition of now and those that the waits
going on will put back: the last of them to come back goes with the slot, and when
the slot has an action, all of them do.

## Main results

* `table_agrees`: when the dispositions go with the table.
* `waitRestores_stale`: a trap command run during a wait is undone behind it.
-/

namespace Petrush.Verified.Dispositions

open Petrush.Lib.CText
open Petrush.Lib.Run
open Petrush.Mid.Dispatcher
open Petrush.Mid.Expand
open Petrush.Mid.State
open Petrush.Mid.Trap
open Petrush.Verified.Commands
open Petrush.Verified.Invariants
open Petrush.Verified.Record
open Petrush.Verified.Traversal

/-! ## Who has set a slot -/

def isTrapSet (sig : Nat) : Event → Bool
  | .trapSet slot _ => slot == sig
  | _ => false

def isItem : Event → Bool
  | .item _ => true
  | _ => false

def isCmdsubst : Event → Bool
  | .forked .cmdsubst _ => true
  | _ => false

/-- A trap command of the process, or of one between it and `above`, has set the slot. -/
def SetIn (sig : Nat) (above proc : Proc) (past : List Entry) : Prop :=
  ∃ e ∈ past, above <:+ e.proc ∧ e.proc <:+ proc ∧ isTrapSet sig e.event = true

instance (sig : Nat) (above proc : Proc) (past : List Entry) :
    Decidable (SetIn sig above proc past) :=
  inferInstanceAs (Decidable (∃ e ∈ past, _))

/-- The kind of child starts with the default for the signal, whatever its slot. -/
def defaults (sig : Nat) : Child → Bool
  | .stage => sig == sigint || sig == sigquit
  | .background => sig == sigint || sig == sigquit || sig == sigtstp
  | .cmdsubst => false

/-- The nearest process above, or this one, that started so. -/
def reset (sig : Nat) (proc : Proc) : Proc := proc.dropWhile fun c => !defaults sig c.1

/-! ## The property and the condition -/

/-- After an item the disposition of the signal, if a trap command has named it, is the
one that goes with its slot. -/
def AgreesAt (sig : Nat) (e : Entry) (past : List Entry) : Prop :=
  isItem e.event = true → SetIn sig [] e.proc past → e.disps sig = dispOf (e.traps sig)

instance (sig : Nat) (e : Entry) (past : List Entry) : Decidable (AgreesAt sig e past) :=
  inferInstanceAs (Decidable (_ → _ → _))

/-- Every signal's disposition goes with its slot. -/
def Agrees (e : Entry) (past : List Entry) : Prop := ∀ sig, 0 < sig → AgreesAt sig e past

/-- The dispositions of a signal that the waits will put back, the next one first. -/
def saved (sig : Nat) (waits : List (Disp × Disp)) : List Disp :=
  if sig = sigint then waits.map Prod.fst
  else if sig = sigquit then waits.map Prod.snd
  else []

/-- What the dispositions need. -/
structure Calm (e : Entry) (past : List Entry) : Prop where
  /-- A trap command run during a wait gives its signal the disposition that the wait will
  put back. -/
  put : ∀ sig action, e.event = .trapSet sig action →
    ∀ d ∈ saved sig e.waits, d = dispOf action
  /-- During a wait no item completes and no substitution starts while a slot that was
  named is without action. -/
  named : isItem e.event = true ∨ isCmdsubst e.event = true → ∀ sig, saved sig e.waits ≠ [] →
    SetIn sig [] e.proc past → e.traps sig ≠ none
  /-- No item completes under an action that was inherited with a default disposition. -/
  own : isItem e.event = true → ∀ sig, e.traps sig ≠ none → reset sig e.proc ≠ [] →
    SetIn sig (reset sig e.proc) e.proc past

/-- The ids of processes are those of entries before. -/
def Numbered (e : Entry) (past : List Entry) : Prop := ∀ c ∈ e.proc, c.2 < past.length

/-! ## The invariant -/

/-- The slot has an action that was inherited with a default disposition. -/
def Inherited (sig : Nat) (i : View) : Prop :=
  i.traps sig ≠ none ∧ reset sig i.proc ≠ [] ∧ ¬ SetIn sig (reset sig i.proc) i.proc i.log

/-- The dispositions of now and of the waits go with the slot. -/
structure Settled (sig : Nat) (i : View) : Prop where
  last : (saved sig i.waits).getLastD (i.disps sig) = dispOf (i.traps sig)
  all : i.traps sig ≠ none → i.disps sig = dispOf (i.traps sig) ∧
    ∀ d ∈ saved sig i.waits, d = dispOf (i.traps sig)

structure Sound (i : View) : Prop where
  ids : ∀ c ∈ i.proc, c.2 < i.log.length
  named : ∀ sig, 0 < sig → SetIn sig [] i.proc i.log → Inherited sig i ∨ Settled sig i

/-! ## Setting -/

section SetIn

variable {sig : Nat} {above proc : Proc} {past : List Entry}

theorem setIn_cons {e : Entry} (h : isTrapSet sig e.event = false) :
    SetIn sig above proc (e :: past) ↔ SetIn sig above proc past := by
  unfold SetIn
  simp [h]

/-- What a child does sets nothing for its parent. -/
theorem setIn_append {l : List Entry} {c : Child × Nat} (h : ∀ e ∈ l, c :: proc <:+ e.proc) :
    SetIn sig above proc (l ++ past) ↔ SetIn sig above proc past := by
  constructor
  · rintro ⟨e, he, habove, hproc, hset⟩
    rcases List.mem_append.mp he with hl | hp
    · have hlen := ((h e hl).trans hproc).length_le
      exact absurd hlen (Nat.not_succ_le_self _)
    · exact ⟨e, hp, habove, hproc, hset⟩
  · rintro ⟨e, he, hrest⟩
    exact ⟨e, List.mem_append_right l he, hrest⟩

/-- Every entry has older processes. -/
theorem lt_of_numbered (h : Every Numbered past) :
    ∀ e ∈ past, ∀ c ∈ e.proc, c.2 < past.length := by
  induction past with
  | nil => exact fun e he => absurd he List.not_mem_nil
  | cons e past ih =>
      intro x hx c hc
      rcases List.mem_cons.mp hx with rfl | hx
      · exact Nat.lt_succ_of_lt (h.head c hc)
      · exact Nat.lt_succ_of_lt (ih h.tail x hx c hc)

/-- Nothing has been done by a process that is only starting. -/
theorem setIn_born (h : Every Numbered past) {child : Child} :
    SetIn sig above ((child, past.length) :: proc) past ↔ SetIn sig above proc past := by
  constructor
  · rintro ⟨e, he, habove, hproc, hset⟩
    rcases List.suffix_cons_iff.mp hproc with heq | hproc
    · have hlt := lt_of_numbered h e he (child, past.length) (by rw [heq]; exact List.mem_cons_self)
      exact absurd hlt (Nat.lt_irrefl _)
    · exact ⟨e, he, habove, hproc, hset⟩
  · rintro ⟨e, he, habove, hproc, hset⟩
    exact ⟨e, he, habove, hproc.trans (List.suffix_cons _ _), hset⟩

end SetIn

/-! ## The steps -/

/-- The invariant, on the state. -/
def Kept (s : Shell) : Prop := Sound (view s)

/-- What is noted: that the dispositions go with the table, and older processes. -/
def Noted (e : Entry) (past : List Entry) : Prop := Agrees e past ∧ Numbered e past

theorem saved_of_ne {sig : Nat} (hint : sig ≠ sigint) (hquit : sig ≠ sigquit)
    (waits : List (Disp × Disp)) : saved sig waits = [] := by
  rw [saved, if_neg hint, if_neg hquit]

theorem saved_nil (sig : Nat) : saved sig [] = [] := by
  unfold saved
  split
  · rfl
  · split <;> rfl

theorem Settled.of_eq {sig : Nat} {i j : View} (h : Settled sig i) (ht : j.traps sig = i.traps sig)
    (hd : j.disps sig = i.disps sig) (hw : saved sig j.waits = saved sig i.waits) :
    Settled sig j := by
  constructor
  · rw [ht, hd, hw]
    exact h.last
  · rw [ht, hd, hw]
    exact h.all

/-- A signal whose slot was just set, or that starts without an action. -/
theorem Settled.now {sig : Nat} {i : View} (hd : i.disps sig = dispOf (i.traps sig))
    (hw : ∀ d ∈ saved sig i.waits, d = dispOf (i.traps sig)) : Settled sig i := by
  refine ⟨?_, fun _ => ⟨hd, hw⟩⟩
  rcases List.eq_nil_or_concat' (saved sig i.waits) with hnil | ⟨l, d, hl⟩
  · rw [hnil]
    exact hd
  · rw [hl, List.getLastD_concat]
    exact hw d (by rw [hl]; simp)

/-- A note that sets no slot. -/
theorem sound_noted {s : Shell} {e : Event} (h : ∀ sig, isTrapSet sig e = false) (hs : Kept s) :
    Kept (noted e s) := by
  constructor
  · intro c hc
    exact Nat.lt_succ_of_lt (hs.ids c hc)
  · intro sig hpos hset
    have hset' := (setIn_cons (h sig)).mp hset
    rcases hs.named sig hpos hset' with hinh | hok
    · exact Or.inl ⟨hinh.1, hinh.2.1, fun hbad => hinh.2.2 ((setIn_cons (h sig)).mp hbad)⟩
    · exact Or.inr (hok.of_eq rfl rfl rfl)

/-- At an item, the invariant says that the dispositions go with the table. -/
theorem agrees_of_sound {s : Shell} {e : Event} (hs : Kept s)
    (hc : Calm (s.entry e) s.log) : Noted (s.entry e) s.log := by
  refine ⟨fun sig hpos hitem hset => ?_, hs.ids⟩
  rcases hs.named sig hpos hset with hinh | hok
  · exact absurd (hc.own hitem sig hinh.1 hinh.2.1) hinh.2.2
  · by_cases hwaits : saved sig s.waits = []
    · have hlast := hok.last
      rw [show saved sig (view s).waits = [] from hwaits] at hlast
      exact hlast
    · exact (hok.all (hc.named (Or.inl hitem) sig hwaits hset)).1

theorem sound_slot {s t : Shell} {slot : Nat} {action : Option Text}
    (ht : SlotSet slot action s t) (hc : Calm (s.entry (.trapSet slot action)) s.log)
    (hs : Kept s) : Kept t := by
  constructor
  · intro c hcmem
    show c.2 < t.log.length
    rw [ht.log]
    have hmem : c ∈ s.proc := by
      rw [← ht.proc]
      exact hcmem
    exact Nat.lt_succ_of_lt (hs.ids c hmem)
  · intro sig hpos hset
    show Inherited sig (view t) ∨ Settled sig (view t)
    by_cases hslot : slot = sig
    · subst hslot
      have htraps : t.traps slot = action := by
        rw [ht.traps, update, if_pos rfl]
      have hdisps : t.disps slot = dispOf action := by
        rw [ht.disps, if_neg hpos.ne', update, if_pos rfl]
      refine Or.inr (Settled.now ?_ ?_)
      · show t.disps slot = dispOf (t.traps slot)
        rw [htraps, hdisps]
      · show ∀ d ∈ saved slot t.waits, d = dispOf (t.traps slot)
        rw [htraps, ht.waits]
        exact hc.put slot action rfl
    · have hnot : isTrapSet sig (s.entry (.trapSet slot action)).event = false := by
        simpa [isTrapSet, Shell.entry] using hslot
      have hiff : ∀ above, SetIn sig above t.proc t.log ↔ SetIn sig above s.proc s.log := by
        intro above
        rw [ht.log, ht.proc]
        exact setIn_cons hnot
      have htraps : t.traps sig = s.traps sig := by
        rw [ht.traps, update, if_neg (Ne.symm hslot)]
      have hdisps : t.disps sig = s.disps sig := by
        rw [ht.disps]
        split
        · rfl
        · rw [update, if_neg (Ne.symm hslot)]
      rcases hs.named sig hpos ((hiff []).mp hset) with hinh | hok
      · refine Or.inl ⟨?_, ?_, ?_⟩
        · show t.traps sig ≠ none
          rw [htraps]
          exact hinh.1
        · show reset sig t.proc ≠ []
          rw [ht.proc]
          exact hinh.2.1
        · show ¬ SetIn sig (reset sig t.proc) t.proc t.log
          rw [hiff, ht.proc]
          exact hinh.2.2
      · refine Or.inr (hok.of_eq htraps hdisps ?_)
        show saved sig t.waits = _
        rw [ht.waits]
        rfl

/-! ## Children -/

/-- `petrush_trap_reset_for_child` on one slot. -/
theorem trapReset_cases (s : Shell) {sig : Nat} (hpos : 0 < sig) :
    ((trapResetForChild s).traps sig = none ∧ (trapResetForChild s).disps sig = .dfl) ∨
      ((trapResetForChild s).traps sig = s.traps sig ∧
        (trapResetForChild s).disps sig = s.disps sig) := by
  simp only [trapResetForChild, hpos, decide_true, Bool.and_true]
  by_cases hcommand : (decide (sig < trapNsig) && (s.traps sig).any (· != [])) = true
  · exact Or.inl ⟨if_pos hcommand, if_pos hcommand⟩
  · exact Or.inr ⟨if_neg hcommand, if_neg hcommand⟩

theorem defaultIntQuit_cases (disps : Disps) (sig : Nat) :
    defaultIntQuit disps sig = .dfl ∧ (sig == sigint || sig == sigquit) = true ∨
      defaultIntQuit disps sig = disps sig ∧ (sig == sigint || sig == sigquit) = false := by
  simp only [defaultIntQuit, update]
  by_cases hquit : sig = sigquit
  · simp [hquit]
  · by_cases hint : sig = sigint
    · simp [hint]
    · simp [hquit, hint]

/-- What a child makes of a slot and its disposition before it runs anything. -/
theorem prepared {child : Child} {prepare : Shell → Shell} (h : Prepares child prepare)
    (s : Shell) {sig : Nat} (hpos : 0 < sig) :
    ((prepare s).traps sig = none ∧ (prepare s).disps sig = .dfl) ∨
      (defaults sig child = true ∧ (prepare s).disps sig = .dfl) ∨
      (defaults sig child = false ∧ (prepare s).traps sig = s.traps sig ∧
        (prepare s).disps sig = s.disps sig) := by
  cases h with
  | stage =>
      rcases defaultIntQuit_cases s.disps sig with ⟨hd, hsig⟩ | ⟨hd, hsig⟩
      · exact Or.inr (Or.inl ⟨hsig, hd⟩)
      · exact Or.inr (Or.inr ⟨hsig, rfl, hd⟩)
  | background =>
      let t := { s with disps := update (defaultIntQuit s.disps) sigtstp .dfl }
      rcases trapReset_cases t hpos with hnone | ⟨htraps, hdisps⟩
      · exact Or.inl hnone
      · have hback : defaults sig .background = (sig == sigint || sig == sigquit || sig == sigtstp) :=
          rfl
        by_cases htstp : sig = sigtstp
        · refine Or.inr (Or.inl ⟨by rw [hback]; simp [htstp], ?_⟩)
          exact hdisps.trans (if_pos htstp)
        · have hother : t.disps sig = defaultIntQuit s.disps sig := if_neg htstp
          rcases defaultIntQuit_cases s.disps sig with ⟨hd, hsig⟩ | ⟨hd, hsig⟩
          · exact Or.inr (Or.inl ⟨by simp [hback, hsig], hdisps.trans (hother.trans hd)⟩)
          · exact Or.inr (Or.inr ⟨by simp [hback, hsig, htstp], htraps,
              hdisps.trans (hother.trans hd)⟩)
  | cmdsubst m =>
      rcases trapReset_cases _ hpos with hnone | hsame
      · exact Or.inl hnone
      · exact Or.inr (Or.inr ⟨rfl, hsame.1, hsame.2⟩)

/-- A signal that is at its default without an action. -/
theorem Settled.default {sig : Nat} {i : View} (ht : i.traps sig = none) (hd : i.disps sig = .dfl)
    (hw : i.waits = []) : Settled sig i := by
  refine Settled.now ?_ ?_
  · rw [ht, hd]
    rfl
  · rw [hw, saved_nil]
    exact fun d hd => absurd hd List.not_mem_nil

/-- What waits will put back are the dispositions of SIGINT and SIGQUIT, which only a
substitution does not start with the default for. -/
theorem cmdsubst_of_saved {sig : Nat} {child : Child} {waits : List (Disp × Disp)}
    (hw : saved sig waits ≠ []) (h : defaults sig child = false) : child = .cmdsubst := by
  have hsig : sig = sigint ∨ sig = sigquit := by
    by_contra hne
    obtain ⟨hint, hquit⟩ := not_or.mp hne
    exact hw (saved_of_ne hint hquit waits)
  cases child with
  | cmdsubst => rfl
  | stage => rcases hsig with rfl | rfl <;> contradiction
  | background => rcases hsig with rfl | rfl <;> contradiction

section Born

variable {child : Child} {prepare : Shell → Shell} {s : Shell} {sig : Nat}

theorem setIn_born_iff (h : Prepares child prepare) (hnum : Every Numbered s.log) (above : Proc) :
    SetIn sig above (view (born child prepare s)).proc (view (born child prepare s)).log ↔
      SetIn sig above s.proc s.log := by
  show SetIn sig above ((child, s.log.length) :: s.proc) (born child prepare s).log ↔ _
  rw [show (born child prepare s).log = s.entry (.forked child s.log.length) :: s.log from
    Prepares.log h _, setIn_cons rfl, setIn_born hnum]

/-- The child starts with the default although the slot may have an action. -/
theorem sound_defaulted (h : Prepares child prepare) (hnum : Every Numbered s.log)
    (hdef : defaults sig child = true) (hdisps : (born child prepare s).disps sig = .dfl) :
    Inherited sig (view (born child prepare s)) ∨ Settled sig (view (born child prepare s)) := by
  by_cases hnone : (born child prepare s).traps sig = none
  · exact Or.inr (Settled.default hnone hdisps rfl)
  · have hreset : reset sig (view (born child prepare s)).proc =
        (child, s.log.length) :: s.proc := by
      show reset sig ((child, s.log.length) :: s.proc) = _
      rw [reset, List.dropWhile_cons_of_neg (by simp [hdef])]
    refine Or.inl ⟨hnone, ?_, ?_⟩
    · rw [hreset]
      exact List.cons_ne_nil _ _
    · rw [setIn_born_iff h hnum, hreset]
      rintro ⟨e, _, habove, hbelow, _⟩
      have hlen := (habove.trans hbelow).length_le
      exact absurd hlen (Nat.not_succ_le_self _)

/-- The child starts with the slot and the disposition of its parent. -/
theorem sound_passed (h : Prepares child prepare) (hnum : Every Numbered s.log)
    (hdef : defaults sig child = false)
    (htraps : (born child prepare s).traps sig = s.traps sig)
    (hdisps : (born child prepare s).disps sig = s.disps sig)
    (hc : Calm (s.entry (.forked child s.log.length)) s.log) (hset : SetIn sig [] s.proc s.log)
    (hold : Inherited sig (view s) ∨ Settled sig (view s)) :
    Inherited sig (view (born child prepare s)) ∨ Settled sig (view (born child prepare s)) := by
  have hreset : reset sig (view (born child prepare s)).proc = reset sig s.proc := by
    show reset sig ((child, s.log.length) :: s.proc) = _
    rw [reset, List.dropWhile_cons_of_pos (by simp [hdef])]
    rfl
  rcases hold with hinh | hok
  · refine Or.inl ⟨?_, ?_, ?_⟩
    · show (born child prepare s).traps sig ≠ none
      rw [htraps]
      exact hinh.1
    · rw [hreset]
      exact hinh.2.1
    · rw [setIn_born_iff h hnum, hreset]
      exact hinh.2.2
  · have hnow : s.disps sig = dispOf (s.traps sig) := by
      by_cases hwaits : saved sig s.waits = []
      · have hlast := hok.last
        rw [show saved sig (view s).waits = [] from hwaits] at hlast
        exact hlast
      · obtain rfl := cmdsubst_of_saved hwaits hdef
        exact (hok.all (hc.named (Or.inr rfl) sig hwaits hset)).1
    refine Or.inr (Settled.now ?_ ?_)
    · show (born child prepare s).disps sig = dispOf ((born child prepare s).traps sig)
      rw [htraps, hdisps, hnow]
    · show ∀ d ∈ saved sig [], _
      rw [saved_nil]
      exact fun d hd => absurd hd List.not_mem_nil

theorem sound_born (h : Prepares child prepare)
    (hc : Calm (s.entry (.forked child s.log.length)) s.log) (hs : Kept s)
    (hnum : Every Numbered s.log) : Kept (born child prepare s) := by
  constructor
  · intro c hcmem
    show c.2 < (born child prepare s).log.length
    rw [show (born child prepare s).log = s.entry (.forked child s.log.length) :: s.log from
      Prepares.log h _]
    rcases List.mem_cons.mp hcmem with rfl | hcmem
    · exact Nat.lt_succ_self _
    · exact Nat.lt_succ_of_lt (hs.ids c hcmem)
  · intro sig hpos hset
    have hold := (setIn_born_iff h hnum []).mp hset
    rcases prepared h (noted (.forked child s.log.length) s) hpos with
      ⟨htraps, hdisps⟩ | ⟨hdef, hdisps⟩ | ⟨hdef, htraps, hdisps⟩
    · exact Or.inr (Settled.default htraps hdisps rfl)
    · exact sound_defaulted h hnum hdef hdisps
    · exact sound_passed h hnum hdef htraps hdisps hc hold (hs.named sig hpos hold)

end Born

/-- The parent goes on. -/
theorem sound_back {s : Shell} {child : Child} {l : List Entry}
    (hl : ∀ e ∈ l, (child, s.log.length) :: s.proc <:+ e.proc) (hs : Kept s) :
    Kept { s with log := l ++ s.entry (.forked child s.log.length) :: s.log } := by
  have hset : ∀ sig above, SetIn sig above s.proc
      (l ++ s.entry (.forked child s.log.length) :: s.log) ↔ SetIn sig above s.proc s.log :=
    fun sig above => (setIn_append hl).trans (setIn_cons rfl)
  constructor
  · intro c hc
    show c.2 < (l ++ s.entry (.forked child s.log.length) :: s.log).length
    rw [List.length_append, List.length_cons]
    exact Nat.lt_of_lt_of_le (hs.ids c hc) (by show s.log.length ≤ _; omega)
  · intro sig hpos hsetin
    rcases hs.named sig hpos ((hset sig []).mp hsetin) with hinh | hok
    · exact Or.inl ⟨hinh.1, hinh.2.1, fun hbad => hinh.2.2 ((hset sig _).mp hbad)⟩
    · exact Or.inr (hok.of_eq rfl rfl rfl)

/-! ## Waits -/

theorem waitDisps_eq {sig : Nat} (h : sig = sigint ∨ sig = sigquit) (traps : TrapTable)
    (disps : Disps) :
    waitDisps traps disps sig = if trapIsCommand traps sig then disps sig else .ign := by
  rcases h with rfl | rfl
  · simp only [waitDisps]
    by_cases hquit : trapIsCommand traps sigquit = true
    · rw [if_pos hquit]
      by_cases hint : trapIsCommand traps sigint = true
      · rw [if_pos hint, if_pos hint]
      · rw [if_neg hint, if_neg hint]
        rfl
    · rw [if_neg hquit]
      by_cases hint : trapIsCommand traps sigint = true
      · rw [if_pos hint, if_pos hint]
        rfl
      · rw [if_neg hint, if_neg hint]
        rfl
  · simp only [waitDisps]
    by_cases hquit : trapIsCommand traps sigquit = true
    · rw [if_pos hquit, if_pos hquit]
      split <;> rfl
    · rw [if_neg hquit, if_neg hquit]
      rfl

theorem waitDisps_other {sig : Nat} (hint : sig ≠ sigint) (hquit : sig ≠ sigquit)
    (traps : TrapTable) (disps : Disps) : waitDisps traps disps sig = disps sig := by
  simp only [waitDisps]
  split
  · split
    · rfl
    · exact if_neg hint
  · refine (if_neg hquit).trans ?_
    split
    · rfl
    · exact if_neg hint

theorem saved_cons {sig : Nat} (h : sig = sigint ∨ sig = sigquit) (disps : Disps)
    (waits : List (Disp × Disp)) :
    saved sig ((disps sigint, disps sigquit) :: waits) = disps sig :: saved sig waits := by
  rcases h with rfl | rfl <;> rfl

/-- An ignored slot is what is left beside a command. -/
theorem eq_ign_of_not_command {traps : TrapTable} {sig : Nat} (h : sig = sigint ∨ sig = sigquit)
    (hcommand : ¬ trapIsCommand traps sig = true) (hset : traps sig ≠ none) :
    traps sig = some [] := by
  have hrange : 0 < sig ∧ sig < trapNsig := by
    rcases h with rfl | rfl <;> decide
  cases haction : traps sig with
  | none => exact absurd haction hset
  | some action =>
      cases action with
      | nil => rfl
      | cons c action => simp [trapIsCommand, haction, hrange] at hcommand

theorem sound_push {s : Shell} (hs : Kept s) : Kept (pushWait s) := by
  refine ⟨hs.ids, fun sig hpos hset => ?_⟩
  rcases hs.named sig hpos hset with hinh | hok
  · exact Or.inl hinh
  · refine Or.inr ?_
    by_cases hsig : sig = sigint ∨ sig = sigquit
    · have hsaved : saved sig (view (pushWait s)).waits = s.disps sig :: saved sig s.waits :=
        saved_cons hsig s.disps s.waits
      constructor
      · rw [hsaved, List.getLastD_cons]
        exact hok.last
      · intro hnone
        have hall := hok.all hnone
        refine ⟨?_, ?_⟩
        · show waitDisps s.traps s.disps sig = dispOf (s.traps sig)
          rw [waitDisps_eq hsig]
          by_cases hcommand : trapIsCommand s.traps sig = true
          · rw [if_pos hcommand]
            exact hall.1
          · rw [if_neg hcommand, eq_ign_of_not_command hsig hcommand hnone]
            rfl
        · rw [hsaved]
          intro d hd
          rcases List.mem_cons.mp hd with rfl | hd
          · exact hall.1
          · exact hall.2 d hd
    · obtain ⟨hint, hquit⟩ := not_or.mp hsig
      refine hok.of_eq rfl (waitDisps_other hint hquit s.traps s.disps) ?_
      rw [saved_of_ne hint hquit, saved_of_ne hint hquit]

theorem sound_pop {s : Shell} {int quit : Disp} {waits : List (Disp × Disp)}
    (hw : s.waits = (int, quit) :: waits) (hs : Kept s) : Kept (popWait int quit s) := by
  have htail : (popWait int quit s).waits = waits := by
    show s.waits.tail = waits
    rw [hw]
    rfl
  refine ⟨hs.ids, fun sig hpos hset => ?_⟩
  rcases hs.named sig hpos hset with hinh | hok
  · exact Or.inl hinh
  · refine Or.inr ?_
    by_cases hsig : sig = sigint ∨ sig = sigquit
    · -- what is put back is the first of what was saved
      have hsaved : saved sig (view s).waits =
          (popWait int quit s).disps sig :: saved sig (view (popWait int quit s)).waits := by
        show saved sig s.waits = _ :: saved sig (popWait int quit s).waits
        rw [hw, htail]
        rcases hsig with rfl | rfl <;> rfl
      have hlast := hok.last
      rw [hsaved, List.getLastD_cons] at hlast
      refine ⟨hlast, fun hnone => ?_⟩
      have hall := (hok.all hnone).2
      rw [hsaved] at hall
      exact ⟨hall _ List.mem_cons_self, fun d hd => hall d (List.mem_cons_of_mem _ hd)⟩
    · obtain ⟨hint, hquit⟩ := not_or.mp hsig
      refine hok.of_eq rfl ?_ ?_
      · show update (update s.disps sigint int) sigquit quit sig = s.disps sig
        rw [update, if_neg hquit, update, if_neg hint]
      · rw [saved_of_ne hint hquit, saved_of_ne hint hquit]

/-! ## Every run -/

theorem kept_invariant : Invariant Calm Noted Kept where
  quiet h hs := by
    show Sound _
    rw [h]
    exact hs
  note s e he hc hs := by
    refine ⟨sound_noted ?_ hs, agrees_of_sound hs hc⟩
    intro sig
    cases e <;> first | rfl | exact absurd he id
  slot s slot action hc hs :=
    ⟨sound_slot (slotSet_spec slot action s) hc hs, agrees_of_sound hs hc⟩
  fork s child prepare h hc hs hgood :=
    ⟨sound_born h hc hs (hgood.imp fun _ _ hn => hn.2), agrees_of_sound hs hc⟩
  back s child l hl hs := sound_back hl hs
  push s hs := sound_push hs
  pop s int quit waits hw hs := sound_pop hw hs

theorem kept_overlooks : Overlooks Calm Noted Kept where
  inExit s b hs := ⟨hs.ids, fun sig hpos hset => by
    rcases hs.named sig hpos hset with hinh | hok
    · exact Or.inl hinh
    · exact Or.inr (hok.of_eq rfl rfl rfl)⟩
  ending s e he hc hs := by
    refine ⟨sound_noted ?_ hs, agrees_of_sound hs hc⟩
    intro sig
    cases e <;> first | rfl | exact absurd he id

theorem kept_start (ctx : Ctx) (disps : Disps) : Kept (.start ctx disps) :=
  ⟨fun _ hc => absurd hc List.not_mem_nil, fun _ _ ⟨_, he, _⟩ => absurd he List.not_mem_nil⟩

/-- **The trap table and the dispositions agree** after every item of every run whose
entries are calm, for whatever signals arrive whenever. -/
theorem table_agrees (O : Outside) (n : Nat) (path : Text) (ctx : Ctx) (disps : Disps)
    (h : Every Calm (script O n path (.start ctx disps)).state.log) :
    Every Agrees (script O n path (.start ctx disps)).state.log :=
  (kept_invariant.every_good kept_overlooks n path (kept_start ctx disps) rfl h).imp
    fun _ _ hn => hn.1

/-- The shell itself is calm outside a wait. -/
theorem calm_of_idle {e : Entry} (hproc : e.proc = []) (hwaits : e.waits = [])
    (past : List Entry) : Calm e past := by
  refine ⟨?_, ?_, ?_⟩
  · intro sig action _ d hd
    rw [hwaits, saved_nil] at hd
    exact absurd hd List.not_mem_nil
  · intro _ sig hne
    rw [hwaits, saved_nil] at hne
    exact absurd rfl hne
  · intro _ sig _ hne
    rw [hproc] at hne
    exact absurd rfl hne

/-- The record of a run on a text, the same signals arriving all the time. -/
def recordOf (text : Text) (sigs : List Nat) : List Entry :=
  (script { Outside.quiet with script := fun _ _ => .ok text, arrivals := fun _ => sigs } 4 ['s']
    (.start ⟨fun _ => none, [], [], false, false, false, 0⟩ fun _ => .dfl)).state.log

theorem table_agrees_ignored : Every Agrees (recordOf "trap '' INT\ntrue\n".toList []) := by
  have hidle : ∀ e ∈ recordOf "trap '' INT\ntrue\n".toList [], e.proc = [] ∧ e.waits = [] := by
    decide +kernel
  unfold recordOf at hidle ⊢
  apply table_agrees
  exact Every.of_forall fun e he => calm_of_idle (hidle e he).1 (hidle e he).2

/-- **A trap command run during a wait is undone behind it**: the action of SIGUSR1
first ignores SIGINT and then, while `sleep` is waited for, gives it a command; behind
the wait SIGINT is ignored again, and the slot still has the command. -/
theorem waitRestores_stale :
    ¬ Every Agrees
      (recordOf "trap 'trap \"$A\" INT; export A=x' USR1\nsleep\n".toList [10]) := by
  intro h
  have hint : Every (AgreesAt sigint)
      (recordOf "trap 'trap \"$A\" INT; export A=x' USR1\nsleep\n".toList [10]) :=
    h.imp fun _ _ ha => ha sigint (by decide)
  revert hint
  decide +kernel

end Petrush.Verified.Dispositions

import Petrush.Lib.CText

/-!
# Programs that may exit

A program on a state ends in one of three ways: it returns a value, the process
exits, or the bound on its recursion is met.  The last is not an end of the
program but of our view of it; the state is kept, so that what a program does
before can be spoken about even when it never ends.

`Keeps R E c` is the form most facts about such programs have: `R` relates the
state before to the state in which the program returns, `E` to one in which it
stops.  For relations that compose it follows the structure of the program
(`Keeps.bind`).  `Triple` is the form with a condition before.

## Main results

* `Keeps.bind`, `Keeps.forEach`: relations along a run.
* `Triple.bind`, `Triple.consequence`: conditions along a run.
-/

namespace Petrush.Lib.Run

/-- How a program ends. -/
inductive Outcome (σ α : Type) where
  | ok (s : σ) (a : α)
  | exit (s : σ) (code : Int)
  | cut (s : σ)

/-- A program. -/
def Prog (σ α : Type) : Type := σ → Outcome σ α

variable {σ α β : Type}

/-- The state at the end. -/
def Outcome.state : Outcome σ α → σ
  | .ok s _ | .exit s _ | .cut s => s

/-- The value, when there is one. -/
def Outcome.value : Outcome σ α → Option α
  | .ok _ a => some a
  | .exit _ _ | .cut _ => none

theorem Outcome.eq_ok {o : Outcome σ α} {a : α} (h : o.value = some a) : o = .ok o.state a := by
  cases o with
  | ok s b =>
      obtain rfl := Option.some.inj h
      rfl
  | exit s code => contradiction
  | cut s => contradiction

/-- What holds at the end: `Q` of a value and the state, `E` of the state when there
is no value. -/
def Outcome.Holds (Q : α → σ → Prop) (E : σ → Prop) : Outcome σ α → Prop
  | .ok s a => Q a s
  | .exit s _ => E s
  | .cut s => E s

theorem Outcome.Holds.imp {Q Q' : α → σ → Prop} {E E' : σ → Prop} {o : Outcome σ α}
    (h : o.Holds Q E) (hq : ∀ a s, Q a s → Q' a s) (he : ∀ s, E s → E' s) : o.Holds Q' E' := by
  cases o with
  | ok s a => exact hq a s h
  | exit s code => exact he s h
  | cut s => exact he s h

/-- What holds at every end holds of the state at the end. -/
theorem Outcome.Holds.state {E : σ → Prop} {o : Outcome σ α} (h : o.Holds (fun _ => E) E) :
    E o.state := by
  cases o with
  | ok s a => exact h
  | exit s code => exact h
  | cut s => exact h

theorem Outcome.Holds.and {Q Q' : α → σ → Prop} {E E' : σ → Prop} {o : Outcome σ α}
    (h : o.Holds Q E) (h' : o.Holds Q' E') :
    o.Holds (fun a s => Q a s ∧ Q' a s) fun s => E s ∧ E' s := by
  cases o with
  | ok s a => exact ⟨h, h'⟩
  | exit s code => exact ⟨h, h'⟩
  | cut s => exact ⟨h, h'⟩

/-! ## Programs -/

/-- Return a value. -/
def Prog.pure (a : α) : Prog σ α := fun s => .ok s a

/-- One program after another. -/
def Prog.bind (c : Prog σ α) (f : α → Prog σ β) : Prog σ β := fun s =>
  match c s with
  | .ok s' a => f a s'
  | .exit s' code => .exit s' code
  | .cut s' => .cut s'

instance : Monad (Prog σ) where
  pure := Prog.pure
  bind := Prog.bind

/-- Look at the state. -/
def look (f : σ → α) : Prog σ α := fun s => .ok s (f s)

/-- Change the state. -/
def modify (f : σ → σ) : Prog σ Unit := fun s => .ok (f s) ()

/-- End the process. -/
def exit (code : Int) : Prog σ α := fun s => .exit s code

/-- The bound is met. -/
def cut : Prog σ α := fun s => .cut s

/-- A program that only runs under a condition. -/
def onlyIf (p : Prop) [Decidable p] (c : Prog σ Unit) : Prog σ Unit := if p then c else pure ()

/-- A program for each element of a list. -/
def forEach (f : α → Prog σ Unit) : List α → Prog σ Unit
  | [] => pure ()
  | x :: xs => do
      f x
      forEach f xs

theorem pure_apply (a : α) (s : σ) : (pure a : Prog σ α) s = .ok s a := rfl

theorem bind_apply (c : Prog σ α) (f : α → Prog σ β) (s : σ) :
    (c >>= f) s = Prog.bind c f s := rfl

/-- A sequence whose first part returns goes on with the second. -/
theorem bind_run {c : Prog σ α} {f : α → Prog σ β} {s t : σ} {a : α} (h : c s = .ok t a) :
    (c >>= f) s = f a t := by
  rw [bind_apply, Prog.bind, h]

/-- A sequence of sequences. -/
theorem bind_assoc {γ : Type} (c : Prog σ α) (f : α → Prog σ β) (g : β → Prog σ γ) :
    c >>= f >>= g = c >>= fun a => f a >>= g := by
  funext s
  simp only [bind, Prog.bind]
  cases c s <;> rfl

/-- What a sequence does at its end is what its second part does where the first
one ended. -/
theorem bind_holds {c : Prog σ α} {f : α → Prog σ β} {s : σ} {Q : β → σ → Prop} {E : σ → Prop}
    (h : (c s).Holds (fun a s' => (f a s').Holds Q E) E) : ((c >>= f) s).Holds Q E := by
  rw [bind_apply, Prog.bind]
  cases hc : c s with
  | ok s' a =>
      rw [hc] at h
      exact h
  | exit s' code =>
      rw [hc] at h
      exact h
  | cut s' =>
      rw [hc] at h
      exact h

/-- A sequence that returns has passed through its first part. -/
theorem bind_ok {c : Prog σ α} {f : α → Prog σ β} {s u : σ} {b : β} (h : (c >>= f) s = .ok u b) :
    ∃ t a, c s = .ok t a ∧ f a t = .ok u b := by
  rw [bind_apply, Prog.bind] at h
  cases hc : c s with
  | ok t a =>
      rw [hc] at h
      exact ⟨t, a, rfl, h⟩
  | exit t code =>
      rw [hc] at h
      contradiction
  | cut t =>
      rw [hc] at h
      contradiction

theorem value_bind {c : Prog σ α} {f : α → Prog σ β} {s : σ} {b : β}
    (h : ((c >>= f) s).value = some b) : ∃ a s', c s = .ok s' a ∧ (f a s').value = some b := by
  obtain ⟨s', a, hc, hf⟩ := bind_ok (Outcome.eq_ok h)
  exact ⟨a, s', hc, by rw [hf]; rfl⟩

/-! ## Relations along a run -/

/-- The program keeps `R` between the state before and the state in which it
returns, and `E` between the state before and one in which it stops. -/
def Keeps (R E : σ → σ → Prop) (c : Prog σ α) : Prop :=
  ∀ s, (c s).Holds (fun _ s' => R s s') (E s)

/-- `R` holds when nothing happens, and relations compose. -/
structure Composes (R E : σ → σ → Prop) : Prop where
  refl : ∀ s, R s s
  trans : ∀ {s t u}, R s t → R t u → R s u
  stop : ∀ s, E s s
  transStop : ∀ {s t u}, R s t → E t u → E s u

section Relations

variable {R E : σ → σ → Prop}

theorem Keeps.pure (hR : Composes R E) (a : α) : Keeps R E (pure a : Prog σ α) :=
  fun s => hR.refl s

theorem Keeps.look (hR : Composes R E) (f : σ → α) : Keeps R E (look f) := fun s => hR.refl s

theorem Keeps.exit (hR : Composes R E) (code : Int) : Keeps R E (exit code : Prog σ α) :=
  fun s => hR.stop s

theorem Keeps.cut (hR : Composes R E) : Keeps R E (cut : Prog σ α) := fun s => hR.stop s

theorem Keeps.imp {R' E' : σ → σ → Prop} {c : Prog σ α} (h : Keeps R E c)
    (hr : ∀ s s', R s s' → R' s s') (he : ∀ s s', E s s' → E' s s') : Keeps R' E' c :=
  fun s => (h s).imp (fun _ s' => hr s s') fun s' => he s s'

theorem Keeps.and {R' E' : σ → σ → Prop} {c : Prog σ α} (h : Keeps R E c) (h' : Keeps R' E' c) :
    Keeps (fun s s' => R s s' ∧ R' s s') (fun s s' => E s s' ∧ E' s s') c :=
  fun s => (h s).and (h' s)

/-- Of a program that returns. -/
theorem Keeps.ok {c : Prog σ α} (h : Keeps R E c) {s t : σ} {a : α} (hc : c s = .ok t a) : R s t := by
  have hs := h s
  rw [hc] at hs
  exact hs

theorem Keeps.modify {f : σ → σ} (h : ∀ s, R s (f s)) : Keeps R E (modify f) := h

/-- **A sequence keeps what its parts keep.** -/
theorem Keeps.bind (hR : Composes R E) {c : Prog σ α} {f : α → Prog σ β} (hc : Keeps R E c)
    (hf : ∀ a, Keeps R E (f a)) : Keeps R E (c >>= f) := by
  intro s
  apply bind_holds
  refine (hc s).imp (fun a t ht => ?_) fun t ht => ht
  exact (hf a t).imp (fun _ _ hu => hR.trans ht hu) fun _ hu => hR.transStop ht hu

theorem Keeps.ite {p : Prop} [Decidable p] {c d : Prog σ α} (hc : Keeps R E c)
    (hd : Keeps R E d) : Keeps R E (if p then c else d) := by
  split
  · exact hc
  · exact hd

theorem Keeps.onlyIf (hR : Composes R E) {p : Prop} [Decidable p] {c : Prog σ Unit}
    (hc : Keeps R E c) : Keeps R E (onlyIf p c) := Keeps.ite hc (Keeps.pure hR ())

theorem Keeps.forEach (hR : Composes R E) {f : α → Prog σ Unit} (hf : ∀ x, Keeps R E (f x))
    (xs : List α) : Keeps R E (forEach f xs) := by
  induction xs with
  | nil => exact Keeps.pure hR ()
  | cons x xs ih => exact Keeps.bind hR (hf x) fun _ => ih

/-- When a stop keeps as much as a return, so does the state at the end. -/
theorem Keeps.state {c : Prog σ α} (h : Keeps R R c) (s : σ) : R s (c s).state := (h s).state

end Relations

/-! ## Conditions along a run -/

/-- From a state with `P` the program returns with `Q`, or stops with `E`. -/
def Triple (P : σ → Prop) (c : Prog σ α) (Q : α → σ → Prop) (E : σ → Prop) : Prop :=
  ∀ s, P s → (c s).Holds Q E

section Conditions

variable {P : σ → Prop} {E : σ → Prop}

theorem Triple.pure {Q : α → σ → Prop} {a : α} (h : ∀ s, P s → Q a s) :
    Triple P (pure a : Prog σ α) Q E := h

theorem Triple.look {Q : α → σ → Prop} {f : σ → α} (h : ∀ s, P s → Q (f s) s) :
    Triple P (look f) Q E := h

theorem Triple.modify {Q : Unit → σ → Prop} {f : σ → σ} (h : ∀ s, P s → Q () (f s)) :
    Triple P (modify f) Q E := h

theorem Triple.bind {c : Prog σ α} {f : α → Prog σ β} {M : α → σ → Prop} {Q : β → σ → Prop}
    (hc : Triple P c M E) (hf : ∀ a, Triple (M a) (f a) Q E) : Triple P (c >>= f) Q E :=
  fun s hs => bind_holds ((hc s hs).imp (fun a s' hm => hf a s' hm) fun _ he => he)

theorem Triple.consequence {c : Prog σ α} {P' : σ → Prop} {Q Q' : α → σ → Prop}
    {E' : σ → Prop} (h : Triple P c Q E) (hp : ∀ s, P' s → P s) (hq : ∀ a s, Q a s → Q' a s)
    (he : ∀ s, E s → E' s) : Triple P' c Q' E' :=
  fun s hs => (h s (hp s hs)).imp hq he

theorem Triple.ite {p : Prop} [Decidable p] {c d : Prog σ α} {Q : α → σ → Prop}
    (hc : p → Triple P c Q E) (hd : ¬ p → Triple P d Q E) :
    Triple P (if p then c else d) Q E := by
  by_cases hp : p
  · rw [if_pos hp]
    exact hc hp
  · rw [if_neg hp]
    exact hd hp

end Conditions

end Petrush.Lib.Run

import Petrush.Mid.Pudo

/-!
# The environment that the helper of `pudo` receives

`build_clean_envp` prints each variable into a buffer of 512 bytes, and `snprintf` cuts
what does not fit.  The cut variable is a variable still, with another value.

## Main results

* `buildCleanEnvp_spec`: what the helper receives, for every environment.
* `intact_iff`: it receives the variables of the user exactly when each fits its buffer.
-/

namespace Petrush.Verified.HelperEnv

open Petrush.Foundation
open Petrush.Lib.CText
open Petrush.Lib.Cells
open Petrush.Mid.Pudo

/-! ## Bindings -/

/-- The entry is for `name`. -/
def isFor (name entry : Text) : Bool := (name ++ ['=']).isPrefixOf entry

/-- The bindings of the names that are set. -/
def kept (env : Env) (names : List Text) : List Text :=
  names.filterMap fun name => (getenv env name).map (binding name)

theorem takeWhile_of_isFor {name entry : Text} (hname : '=' ∉ name)
    (h : isFor name entry = true) : entry.takeWhile (· ≠ '=') = name := by
  obtain ⟨rest, rfl⟩ := List.isPrefixOf_iff_prefix.mp h
  have hall : ∀ c ∈ name, decide (c ≠ '=') = true := by
    intro c hc
    have hne : c ≠ '=' := fun heq => hname (heq ▸ hc)
    simpa using hne
  rw [List.append_assoc, List.takeWhile_append_of_pos hall]
  simp

/-- A binding that is cut behind its `=` is for its name still. -/
theorem isFor_take_binding {n : Nat} {name val : Text} (hlen : name.length < n) :
    isFor name ((binding name val).take n) = true := by
  rw [isFor, List.isPrefixOf_iff_prefix]
  have hpre : name ++ ['='] <+: binding name val := ⟨val, by simp [binding]⟩
  have hn : (name ++ ['=']).length ≤ n := by
    rw [List.length_append, List.length_singleton]
    exact hlen
  exact List.prefix_take_iff.mpr ⟨hpre, hn⟩

theorem isFor_take_binding_iff {n : Nat} {name other val : Text} (hname : '=' ∉ name)
    (hother : '=' ∉ other) (hlen : other.length < n) :
    isFor name ((binding other val).take n) = true ↔ name = other := by
  constructor
  · intro h
    rw [← takeWhile_of_isFor hname h, takeWhile_of_isFor hother (isFor_take_binding hlen)]
  · rintro rfl
    exact isFor_take_binding hlen

/-- Among the bindings of different names there is one for each that is set. -/
theorem filter_isFor {n : Nat} (env : Env) {name : Text} (hname : '=' ∉ name) :
    ∀ names : List Text, (∀ m ∈ names, '=' ∉ m ∧ m.length < n) → names.Nodup →
      ((kept env names).map (List.take n)).filter (isFor name) =
        if name ∈ names then ((getenv env name).map fun val => (binding name val).take n).toList
        else [] := by
  intro names
  induction names with
  | nil => intro _ _; rfl
  | cons m names ih =>
      intro hnames hnodup
      obtain ⟨hm, hrest⟩ := List.forall_mem_cons.mp hnames
      obtain ⟨hfresh, hnodup⟩ := List.nodup_cons.mp hnodup
      have ih := ih hrest hnodup
      cases hget : getenv env m with
      | none =>
          have hkept : kept env (m :: names) = kept env names := by
            rw [kept, List.filterMap_cons, hget]
            rfl
          rw [hkept, ih]
          by_cases heq : name = m
          · rw [heq, if_neg hfresh, if_pos List.mem_cons_self, hget]
            rfl
          · simp only [List.mem_cons, heq, false_or]
      | some val =>
          have hkept : kept env (m :: names) = binding m val :: kept env names := by
            rw [kept, List.filterMap_cons, hget]
            rfl
          rw [hkept, List.map_cons, List.filter_cons, ih]
          by_cases heq : name = m
          · subst heq
            rw [if_pos (isFor_take_binding hm.2), if_neg hfresh, if_pos List.mem_cons_self, hget]
            rfl
          · have hnot : ¬ isFor name ((binding m val).take n) = true :=
              fun h => heq ((isFor_take_binding_iff hname hm.1 hm.2).mp h)
            rw [if_neg hnot]
            simp only [List.mem_cons, heq, false_or]

/-! ## The loop -/

/-- The first `i` entries point to the first `i` buffers, and these hold `texts`. -/
structure Filled (i : Nat) (s : Statics) (texts : List Text) : Prop where
  slots : s.env.toList.take i = (List.range i).map .buffer
  texts : s.buffers.toList.take i = texts

theorem take_succ_set {α : Type} {l : List α} {i : Nat} (h : i < l.length) (a : α) :
    (l.set i a).take (i + 1) = l.take i ++ [a] := by
  rw [List.take_succ_eq_append_getElem (by simpa using h), List.take_set_of_le (Nat.le_refl i),
    List.getElem_set_self]

/-- What one turn writes. -/
theorem Filled.step {i : Nat} {s : Statics} {texts : List Text} (h : Filled i s texts)
    (hi : i < 32) (t : Text) :
    ∃ s₁ s₂, s.print i t = .ok s₁ ∧ s₁.point i (.buffer i) = .ok s₂ ∧
      Filled (i + 1) s₂ (texts ++ [t.take 511]) := by
  refine ⟨_, _, dif_pos hi, dif_pos hi, ?_, ?_⟩
  · rw [Vector.toList_set, take_succ_set (by simpa using hi), h.slots, List.range_succ,
      List.map_append]
    rfl
  · rw [Vector.toList_set, take_succ_set (by simpa using hi), h.texts]

theorem keepVars_spec (env : Env) : ∀ (names : List Text) (i : Nat) (s : Statics)
    (texts : List Text), Filled i s texts → i + names.length ≤ 30 →
    ∃ s', keepVars env names i s = .ok (i + (kept env names).length, s') ∧
      Filled (i + (kept env names).length) s' (texts ++ (kept env names).map (List.take 511)) := by
  intro names
  induction names with
  | nil =>
      intro i s texts h _
      exact ⟨s, rfl, by simpa [kept] using h⟩
  | cons name names ih =>
      intro i s texts h hroom
      rw [List.length_cons] at hroom
      have hi : i < 30 := by omega
      cases hget : getenv env name with
      | none =>
          have hkept : kept env (name :: names) = kept env names := by
            rw [kept, List.filterMap_cons, hget]
            rfl
          obtain ⟨s', hrun, hs'⟩ := ih i s texts h (by omega)
          refine ⟨s', ?_, by rw [hkept]; exact hs'⟩
          rw [keepVars, if_pos hi, hget, hkept]
          exact hrun
      | some val =>
          have hkept : kept env (name :: names) = binding name val :: kept env names := by
            rw [kept, List.filterMap_cons, hget]
            rfl
          obtain ⟨s₁, s₂, hprint, hpoint, hfilled⟩ := h.step (by omega) (binding name val)
          obtain ⟨s', hrun, hs'⟩ := ih (i + 1) s₂ _ hfilled (by omega)
          have hcount : i + (kept env (name :: names)).length =
              i + 1 + (kept env names).length := by
            rw [hkept, List.length_cons]
            omega
          refine ⟨s', ?_, ?_⟩
          · rw [keepVars, if_pos hi, hget, hcount, ← hrun]
            simp only [hprint, hpoint, bind, Except.bind]
          · rw [hcount, hkept, List.map_cons]
            simpa using hs'

/-! ## What `execve` reads -/

/-- What is behind the NULL is not read. -/
theorem takeWhile_slots {before after : List Slot} (h : ∀ slot ∈ before, slot ≠ .null) :
    (before ++ .null :: after).takeWhile (· ≠ .null) = before := by
  rw [List.takeWhile_append_of_pos fun slot hmem => by simpa using h slot hmem]
  simp

/-- The strings of the first buffers. -/
theorem map_string_range {i : Nat} {s : Statics} {texts : List Text}
    (htexts : s.buffers.toList.take i = texts) (hi : i ≤ 32) :
    ((List.range i).map Slot.buffer).map s.string = texts := by
  have hlen : s.buffers.toList.length = 32 := by simp
  apply List.ext_getElem
  · simp [← htexts, hi]
  · intro j hj hj'
    have hlt : j < i := by simpa using hj
    subst htexts
    simp [Statics.string, List.getD_eq_getElem?_getD, List.getElem?_eq_getElem (show j <
      s.buffers.toList.length by omega)]

/-- The default, when `PATH` is not set. -/
def default (env : Env) : List Text :=
  if getenv env "PATH".toList = none then [defaultPath] else []

theorem addPath_spec (env : Env) {i : Nat} {s : Statics} {texts : List Text}
    (h : Filled i s texts) (hi : i ≤ 30) :
    ∃ j s' slots, addPath env i s = .ok (j, s') ∧ j ≤ 31 ∧ s'.env.toList.take j = slots ∧
      (∀ slot ∈ slots, slot ≠ .null) ∧ s'.buffers = s.buffers ∧
      slots.map s'.string = texts ++ default env := by
  have hbuffers : ∀ slot ∈ (List.range i).map Slot.buffer, slot ≠ .null := by
    intro slot hslot
    obtain ⟨b, _, rfl⟩ := List.mem_map.mp hslot
    exact Slot.noConfusion
  cases hget : getenv env "PATH".toList with
  | some path =>
      have hrun : addPath env i s = .ok (i, s) := by rw [addPath, hget]
      refine ⟨i, s, _, hrun, by omega, h.slots, hbuffers, rfl, ?_⟩
      rw [map_string_range h.texts (by omega), default, hget, if_neg nofun, List.append_nil]
  | none =>
      have hlt : i < 32 := by omega
      have hrun : addPath env i s =
          .ok (i + 1, { s with env := s.env.set i (.literal defaultPath) hlt }) := by
        rw [addPath, hget]
        simp only [Statics.point, dif_pos hlt, bind, Except.bind, pure, Except.pure]
      refine ⟨_, _, (List.range i).map .buffer ++ [.literal defaultPath], hrun, by omega, ?_, ?_,
        rfl, ?_⟩
      · rw [Vector.toList_set, take_succ_set (by simpa using hlt), h.slots]
      · intro slot hslot
        rcases List.mem_append.mp hslot with hslot | hslot
        · exact hbuffers slot hslot
        · rw [List.mem_singleton.mp hslot]
          exact Slot.noConfusion
      · have hstrings : ((List.range i).map Slot.buffer).map
            (Statics.string { s with env := s.env.set i (.literal defaultPath) hlt }) = texts :=
          map_string_range h.texts (by omega)
        rw [List.map_append, hstrings, default, if_pos hget]
        rfl

/-- **What the helper receives**: each variable, cut behind 511 bytes. -/
theorem buildCleanEnvp_spec (env : Env) (s : Statics) :
    ∃ s', buildCleanEnvp env s = .ok s' ∧ .null ∈ s'.env.toList ∧
      s'.envp = (kept env keep).map (List.take 511) ++ default env := by
  have hstart : Filled 0 s [] := ⟨rfl, rfl⟩
  obtain ⟨s₁, hloop, hfilled⟩ := keepVars_spec env keep 0 s [] hstart (by decide)
  have hcount : (kept env keep).length ≤ 30 := by
    have hle : (kept env keep).length ≤ keep.length := List.length_filterMap_le _ _
    exact Nat.le_trans hle (by decide)
  obtain ⟨j, s₂, slots, hpath, hj, hslots, hnull, _, hstrings⟩ :=
    addPath_spec env hfilled (by omega)
  have hlt : j < 32 := by omega
  have hlen : s₂.env.toList.length = 32 := by simp
  have hsplit : (s₂.env.set j .null hlt).toList = slots ++ .null :: s₂.env.toList.drop (j + 1) := by
    rw [Vector.toList_set, List.set_eq_take_append_cons_drop, if_pos (by omega), hslots]
  refine ⟨{ s₂ with env := s₂.env.set j .null hlt }, ?_, ?_, ?_⟩
  · simp only [buildCleanEnvp, hloop, bind, Except.bind, hpath]
    exact dif_pos hlt
  · rw [hsplit]
    simp
  · rw [Statics.envp, hsplit, takeWhile_slots hnull]
    exact hstrings

/-! ## The condition -/

/-- The variables of the user reach the helper. -/
structure Intact (env : Env) (s : Statics) : Prop where
  /-- The array ends with a NULL inside. -/
  terminated : .null ∈ s.env.toList
  /-- A variable that is set has one entry, with its value. -/
  complete : ∀ name ∈ keep, ∀ val, getenv env name = some val →
    s.envp.filter (isFor name) = [binding name val]
  /-- Without a `PATH` there is the default. -/
  path : getenv env "PATH".toList = none → s.envp.filter (isFor "PATH".toList) = [defaultPath]
  /-- There is nothing else. -/
  only : ∀ entry ∈ s.envp, (∃ name ∈ keep, ∃ val, getenv env name = some val ∧
    entry = binding name val) ∨ getenv env "PATH".toList = none ∧ entry = defaultPath

/-- The variable fits its buffer. -/
def Fits (env : Env) : Prop :=
  ∀ name ∈ keep, ∀ val, getenv env name = some val → name.length + 1 + val.length ≤ 511

theorem keep_names : ∀ name ∈ keep, '=' ∉ name ∧ name.length < 511 := by decide

/-- The entries for one name. -/
theorem filter_envp {env : Env} {name : Text} (hname : name ∈ keep) :
    ((kept env keep).map (List.take 511) ++ default env).filter (isFor name) =
      ((getenv env name).map fun val => (binding name val).take 511).toList ++
        if name = "PATH".toList then default env else [] := by
  have hnodup : keep.Nodup := by decide
  have hdefault : (default env).filter (isFor name) =
      if name = "PATH".toList then default env else [] := by
    unfold default
    have hpath : ∀ m ∈ keep, isFor m defaultPath = decide (m = "PATH".toList) := by decide
    by_cases hget : getenv env "PATH".toList = none
    · rw [if_pos hget, List.filter_cons, List.filter_nil, hpath name hname]
      simp only [decide_eq_true_eq]
    · rw [if_neg hget, List.filter_nil, ite_self]
  rw [List.filter_append, filter_isFor env (keep_names name hname).1 keep keep_names hnodup,
    if_pos hname, hdefault]

theorem length_binding (name val : Text) :
    (binding name val).length = name.length + 1 + val.length := by
  rw [binding, List.length_append, List.length_cons]
  omega

/-- **The helper receives the variables of the user intact exactly when each fits the
buffer it is printed into.** -/
theorem intact_iff (env : Env) (s : Statics) :
    (∃ s', buildCleanEnvp env s = .ok s' ∧ Intact env s') ↔ Fits env := by
  obtain ⟨s', hrun, hnull, henvp⟩ := buildCleanEnvp_spec env s
  constructor
  · rintro ⟨_, hrun', hintact⟩ name hname val hget
    rw [hrun] at hrun'
    obtain rfl := Except.ok.inj hrun'
    have hentry := hintact.complete name hname val hget
    rw [henvp, filter_envp hname, hget] at hentry
    have hcut : (binding name val).take 511 = binding name val := by
      simpa using (List.cons.inj hentry).1
    have hlen := congrArg List.length hcut
    rw [List.length_take, length_binding] at hlen
    omega
  · intro hfits
    have hwhole : ∀ name ∈ keep, ∀ val, getenv env name = some val →
        (binding name val).take 511 = binding name val := by
      intro name hname val hget
      exact List.take_of_length_le (by rw [length_binding]; exact hfits name hname val hget)
    refine ⟨s', hrun, hnull, ?_, ?_, ?_⟩
    · intro name hname val hget
      have hnone : (if name = "PATH".toList then default env else []) = [] := by
        split
        · next heq =>
            rw [default, ← heq, hget, if_neg nofun]
        · rfl
      rw [henvp, filter_envp hname, hget, hnone, Option.map_some, hwhole name hname val hget]
      rfl
    · intro hget
      rw [henvp, filter_envp (by decide), hget, if_pos rfl, default, if_pos hget]
      rfl
    · intro entry hentry
      rw [henvp] at hentry
      rcases List.mem_append.mp hentry with hentry | hentry
      · obtain ⟨text, htext, rfl⟩ := List.mem_map.mp hentry
        obtain ⟨name, hname, hbind⟩ := List.mem_filterMap.mp htext
        obtain ⟨val, hget, rfl⟩ := Option.map_eq_some_iff.mp hbind
        exact Or.inl ⟨name, hname, val, hget, hwhole name hname val hget⟩
      · unfold default at hentry
        split at hentry
        · next hget => exact Or.inr ⟨hget, List.mem_singleton.mp hentry⟩
        · contradiction

/-- An environment with a `HOME` of 600 bytes. -/
def longHome : Env := fun name =>
  if name = "HOME".toList then some (List.replicate 600 'h') else none

/-- **A long value is cut.** -/
theorem value_cut :
    ¬ ∀ (env : Env) (s : Statics), ∃ s', buildCleanEnvp env s = .ok s' ∧ Intact env s' := by
  intro h
  obtain ⟨s', hrun, hnull, henvp⟩ :=
    buildCleanEnvp_spec longHome ⟨Vector.replicate 32 .null, Vector.replicate 32 []⟩
  obtain ⟨_, hrun', hintact⟩ := h longHome ⟨Vector.replicate 32 .null, Vector.replicate 32 []⟩
  rw [hrun] at hrun'
  obtain rfl := Except.ok.inj hrun'
  have hget : getenv longHome "HOME".toList = some (List.replicate 600 'h') := rfl
  have hentry := hintact.complete "HOME".toList (by decide) _ hget
  rw [henvp, filter_envp (by decide), hget] at hentry
  have hcut : ((binding "HOME".toList (List.replicate 600 'h')).take 511) =
      binding "HOME".toList (List.replicate 600 'h') := (List.cons.inj hentry).1
  have hlen := congrArg List.length hcut
  rw [List.length_take, length_binding, List.length_replicate] at hlen
  omega

end Petrush.Verified.HelperEnv

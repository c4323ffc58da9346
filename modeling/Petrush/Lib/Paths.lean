import Petrush.Lib.CText

/-!
# Canonical paths

An absolute path without empty, `.` or `..` components is the list of its components;
the empty list is the root.

## Main results

* `ancestors_append`: the ancestors of an entry are its directory and those of it.
* `ancestors_nodup`: no directory is met twice on the way up.
-/

namespace Petrush.Lib.Paths

open Petrush.Lib.CText

/-- A component of a canonical path. -/
structure IsComponent (c : Text) : Prop where
  ne_nil : c ≠ []
  slash_notMem : '/' ∉ c
  nul_notMem : nul ∉ c
  ne_dot : c ≠ ['.']
  ne_dotdot : c ≠ ['.', '.']

/-- Each component after a slash. -/
def join (comps : List Text) : Text := comps.flatMap fun c => '/' :: c

/-- The text of a path. -/
def text (comps : List Text) : Text := if comps = [] then ['/'] else join comps

/-- The parent of a path, and so on up to the root, which is its own parent. -/
def ancestors (comps : List Text) : List Text := comps.dropLast.inits.reverse.map text

/-- A canonical path shorter than a limit. -/
structure CanonPath (limit : Nat) where
  comps : List Text
  isComponent : ∀ c ∈ comps, IsComponent c
  length_lt : (text comps).length < limit

@[simp] theorem join_nil : join [] = [] := rfl

theorem join_append (dir : List Text) (c : Text) : join (dir ++ [c]) = join dir ++ '/' :: c := by
  simp [join]

theorem text_append (dir : List Text) (c : Text) : text (dir ++ [c]) = join dir ++ '/' :: c := by
  rw [text, if_neg (by simp), join_append]

theorem text_ne_nil (comps : List Text) : text comps ≠ [] := by
  cases comps with
  | nil => exact List.cons_ne_nil _ _
  | cons c comps => exact List.cons_ne_nil _ _

theorem text_head (comps : List Text) : (text comps).head? = some '/' := by
  cases comps with
  | nil => rfl
  | cons c comps => rfl

/-- Only the root ends at its first slash. -/
theorem text_second {comps : List Text} (hcomps : ∀ c ∈ comps, IsComponent c) (hne : comps ≠ []) :
    ∃ a t, a ≠ nul ∧ text comps = '/' :: a :: t := by
  cases comps with
  | nil => contradiction
  | cons c comps =>
      have hc := hcomps c List.mem_cons_self
      cases c with
      | nil => exact absurd rfl hc.ne_nil
      | cons a c =>
          refine ⟨a, c ++ join comps, ?_, by simp [text, join]⟩
          rintro rfl
          exact hc.nul_notMem List.mem_cons_self

theorem nul_notMem_join {comps : List Text} (hcomps : ∀ c ∈ comps, IsComponent c) :
    nul ∉ join comps := by
  intro hmem
  obtain ⟨c, hc, hin⟩ := List.mem_flatMap.mp hmem
  rcases List.mem_cons.mp hin with heq | hin
  · exact absurd heq (by decide)
  · exact (hcomps c hc).nul_notMem hin

theorem nul_notMem_text {comps : List Text} (hcomps : ∀ c ∈ comps, IsComponent c) :
    nul ∉ text comps := by
  rw [text]
  split
  · decide
  · exact nul_notMem_join hcomps

/-- The length grows with the path. -/
theorem length_text_lt (comps : List Text) {c : Text} (hc : IsComponent c) :
    (text comps).length < (text (comps ++ [c])).length := by
  have hpos := List.length_pos_iff.mpr hc.ne_nil
  rw [text_append, List.length_append, List.length_cons, text]
  split
  next hnil => simp [hnil, hpos]
  next => omega

/-- A component has a byte at least, and its slash. -/
theorem length_le_text {comps : List Text} (hcomps : ∀ c ∈ comps, IsComponent c) :
    comps.length < (text comps).length := by
  induction comps using List.reverseRecOn with
  | nil => exact Nat.zero_lt_one
  | append_singleton dir c ih =>
      have hdir := ih fun e he => hcomps e (List.mem_append_left _ he)
      have hup := length_text_lt dir (hcomps c (by simp))
      rw [List.length_append, List.length_singleton]
      omega

theorem ancestors_root : ancestors [] = [['/']] := rfl

/-- The parent of an entry of the root is the root. -/
theorem ancestors_single (c : Text) : ancestors [c] = [['/']] := rfl

/-- **The ancestors of an entry.** -/
theorem ancestors_append {dir : List Text} (hne : dir ≠ []) (c : Text) :
    ancestors (dir ++ [c]) = text dir :: ancestors dir := by
  obtain ⟨up, d, rfl⟩ := (List.eq_nil_or_concat dir).resolve_left hne
  rw [ancestors, List.dropLast_concat, List.concat_eq_append, ancestors, List.dropLast_concat,
    List.inits_append]
  simp

theorem mem_ancestors_length {comps : List Text} : (∀ c ∈ comps, IsComponent c) →
    comps ≠ [] → ∀ dir ∈ ancestors comps, dir.length < (text comps).length := by
  induction comps using List.reverseRecOn with
  | nil =>
      intro _ hne
      contradiction
  | append_singleton dir c ih =>
      intro hcomps _ d hd
      have hc : IsComponent c := hcomps c (by simp)
      have hdir : ∀ c ∈ dir, IsComponent c := fun e he => hcomps e (List.mem_append_left _ he)
      have hup := length_text_lt dir hc
      by_cases hne : dir = []
      · subst hne
        rw [List.nil_append, ancestors_single, List.mem_singleton] at hd
        rw [hd]
        exact hup
      · rw [ancestors_append hne, List.mem_cons] at hd
        rcases hd with rfl | hd
        · exact hup
        · exact Nat.lt_trans (ih hdir hne d hd) hup

/-- **No directory is met twice.** -/
theorem ancestors_nodup {comps : List Text} :
    (∀ c ∈ comps, IsComponent c) → (ancestors comps).Nodup := by
  induction comps using List.reverseRecOn with
  | nil =>
      intro _
      exact List.nodup_singleton _
  | append_singleton dir c ih =>
      intro hcomps
      have hdir : ∀ c ∈ dir, IsComponent c := fun e he => hcomps e (List.mem_append_left _ he)
      by_cases hne : dir = []
      · subst hne
        exact List.nodup_singleton _
      · rw [ancestors_append hne, List.nodup_cons]
        exact ⟨fun hmem => Nat.lt_irrefl _ (mem_ancestors_length hdir hne _ hmem), ih hdir⟩

end Petrush.Lib.Paths

import Petrush.Mid.Lexer

/-!
# What a stage is built of

`build_stage` only adds words behind those it has, and every path it opens is
the text of a word among its tokens.
-/

namespace Petrush.Verified.Stages

open Petrush.Lib.CText
open Petrush.Mid.Ast
open Petrush.Mid.Lexer

/-! ## Arguments -/

/-- `buildStageFrom` only adds words behind those it has. -/
theorem argv_prefix_of_buildStageFrom (toks : List Token) (cmd cmd' : Cmd)
    (h : buildStageFrom cmd toks = some cmd') : cmd.argv <+: cmd'.argv := by
  fun_induction buildStageFrom cmd toks with
  | case1 cmd => exact Option.some.inj h ▸ List.prefix_refl _
  | case2 cmd w toks ih => exact (List.prefix_append _ _).trans (ih h)
  | case3 cmd toks ih => exact ih h
  | case4 => contradiction
  | case5 cmd k w toks _ cmd₁ hredir ih =>
      have hargv : cmd₁.argv = cmd.argv := by
        unfold applyRedir at hredir
        split at hredir <;> simp_all [hereClear] <;> (subst hredir; rfl)
      exact hargv ▸ ih h
  | case6 => contradiction

/-! ## Redirection targets -/

/-- The paths a command opens. -/
def cmdTargets (cmd : Cmd) : List Text :=
  cmd.redirIn.toList ++ cmd.redirOut.toList ++ cmd.redirErr.toList

theorem applyRedir_targets {cmd cmd' : Cmd} {k : TokKind} {w : Word} {path : Text}
    (h : applyRedir cmd k w = some cmd') (hpath : path ∈ cmdTargets cmd') :
    path ∈ cmdTargets cmd ∨ path = w.text := by
  unfold applyRedir at h
  cases k <;> simp only [Option.some.injEq, reduceCtorEq] at h <;> subst h <;>
    simp [cmdTargets, hereClear] at hpath ⊢ <;> tauto

theorem buildStageFrom_targets {cmd cmd' : Cmd} {toks : List Token} {path : Text}
    (h : buildStageFrom cmd toks = some cmd') (hpath : path ∈ cmdTargets cmd') :
    path ∈ cmdTargets cmd ∨ ∃ q, Token.word ⟨path, q⟩ ∈ toks := by
  fun_induction buildStageFrom cmd toks with
  | case1 cmd =>
      obtain rfl := Option.some.inj h
      exact Or.inl hpath
  | case2 cmd w toks ih =>
      rcases ih h with hcmd | ⟨q, hq⟩
      · exact Or.inl hcmd
      · exact Or.inr ⟨q, List.mem_cons_of_mem _ hq⟩
  | case3 cmd toks ih =>
      rcases ih h with hcmd | ⟨q, hq⟩
      · left
        simp [cmdTargets, applyErrToOut] at hcmd ⊢
        tauto
      · exact Or.inr ⟨q, List.mem_cons_of_mem _ hq⟩
  | case4 => contradiction
  | case5 cmd k w toks hk cmd₁ hredir ih =>
      rcases ih h with hcmd | ⟨q, hq⟩
      · rcases applyRedir_targets hredir hcmd with hcmd | rfl
        · exact Or.inl hcmd
        · exact Or.inr ⟨w.quoted, by simp⟩
      · exact Or.inr ⟨q, by simp [hq]⟩
  | case6 => contradiction

theorem mem_of_mem_splitOnP (toks : List Token) :
    ∀ piece ∈ toks.splitOnP (· == .op .pipe), ∀ t ∈ piece, t ∈ toks := by
  induction toks with
  | nil => simp
  | cons x toks ih =>
      intro piece hpiece t ht
      rw [List.splitOnP_cons_eq_if_modifyHead] at hpiece
      split at hpiece
      · rcases List.mem_cons.mp hpiece with rfl | hpiece
        · contradiction
        · exact List.mem_cons_of_mem _ (ih piece hpiece t ht)
      · cases hsplit : toks.splitOnP (· == .op .pipe) with
        | nil => simp [hsplit] at hpiece
        | cons first pieces =>
            rw [hsplit] at hpiece ih
            rcases List.mem_cons.mp hpiece with rfl | hpiece
            · rcases List.mem_cons.mp ht with rfl | ht
              · simp
              · exact List.mem_cons_of_mem _ (ih first (by simp) t ht)
            · exact List.mem_cons_of_mem _
                (ih piece (List.mem_cons_of_mem _ hpiece) t ht)

theorem exists_of_mapM {α β : Type} {f : α → Option β} {xs : List α} {ys : List β}
    (h : xs.mapM f = some ys) : ∀ y ∈ ys, ∃ x ∈ xs, f x = some y := by
  induction xs generalizing ys with
  | nil =>
      obtain rfl : ys = [] := by simpa using h.symm
      simp
  | cons x xs ih =>
      simp only [List.mapM_cons, Option.bind_eq_bind, Option.bind_eq_some_iff] at h
      obtain ⟨y, hy, ys', hys, hcons⟩ := h
      obtain rfl : y :: ys' = ys := by simpa using hcons
      intro z hz
      rcases List.mem_cons.mp hz with rfl | hz
      · exact ⟨x, by simp, hy⟩
      · obtain ⟨x', hx', hfx⟩ := ih hys z hz
        exact ⟨x', List.mem_cons_of_mem _ hx', hfx⟩

theorem pipelineOf_targets {toks : List Token} {pl : Pipeline} {path : Text}
    (h : pipelineOf toks = some pl) (hpath : path ∈ pl.cmds.flatMap cmdTargets) :
    ∃ q, Token.word ⟨path, q⟩ ∈ toks := by
  unfold pipelineOf at h
  split at h
  · obtain rfl := Option.some.inj h
    simp at hpath
  · obtain ⟨cmds, hcmds, rfl⟩ := Option.map_eq_some_iff.mp h
    obtain ⟨cmd, hcmd, hmem⟩ := List.mem_flatMap.mp hpath
    obtain ⟨piece, hpiece, hbuild⟩ := exists_of_mapM hcmds cmd hcmd
    have hfrom : buildStageFrom {} piece = some cmd := by
      unfold buildStage at hbuild
      split at hbuild
      · contradiction
      · split at hbuild <;> simp_all
    rcases buildStageFrom_targets hfrom hmem with hnone | ⟨q, hq⟩
    · simp [cmdTargets] at hnone
    · exact ⟨q, mem_of_mem_splitOnP toks piece hpiece _ hq⟩

end Petrush.Verified.Stages

import Mathlib.Tactic.Common

/-! # Transition systems

Runs of a labelled transition system, with the state each step starts from, so that a condition can be
put on the steps. `Runs.invariant` is the rule for runs: what every step that meets the condition preserves
holds wherever a run of such steps goes. -/

namespace Tilbo.Lib.Steps

variable {σ α : Type*} {step : σ → α → σ → Prop} {s t u : σ} {a : α} {tr : List (σ × α)}

/-- A finite run, with the steps taken: where each started, and what it did. -/
inductive Runs (step : σ → α → σ → Prop) (s : σ) : List (σ × α) → σ → Prop
  | nil : Runs step s [] s
  | snoc {tr : List (σ × α)} {t u : σ} {a : α} (before : Runs step s tr t) (last : step t a u) :
      Runs step s (tr ++ [(t, a)]) u

/-- The steps of the run meet a condition. -/
def Meets (C : σ → α → Prop) (tr : List (σ × α)) : Prop := ∀ e ∈ tr, C e.1 e.2

theorem meets_any : Meets (fun _ _ => True) tr := fun _ _ => trivial

theorem Meets.nil {C : σ → α → Prop} : Meets C [] := fun _ h => absurd h List.not_mem_nil

theorem Meets.snoc {C : σ → α → Prop} (before : Meets C tr) (last : C t a) : Meets C (tr ++ [(t, a)]) := by
  intro e he
  rcases List.mem_append.mp he with he | he
  · exact before e he
  · rw [List.mem_singleton.mp he]
    exact last

theorem meets_snoc_iff {C : σ → α → Prop} : Meets C (tr ++ [(t, a)]) ↔ Meets C tr ∧ C t a :=
  ⟨fun h => ⟨fun e he => h e (List.mem_append_left _ he), h (t, a) (by simp)⟩, fun h => h.1.snoc h.2⟩

theorem Runs.trans {tr' : List (σ × α)} (first : Runs step s tr t) (next : Runs step t tr' u) :
    Runs step s (tr ++ tr') u := by
  induction next with
  | nil => rwa [List.append_nil]
  | snoc _ last ih =>
    rw [← List.append_assoc]
    exact ih.snoc last

/-- **The rule for runs.** -/
theorem Runs.invariant {C : σ → α → Prop} (I : σ → Prop) (hrun : Runs step s tr t) (hmeets : Meets C tr)
    (hstart : I s) (hstep : ∀ t a u, I t → C t a → step t a u → I u) : I t := by
  induction hrun with
  | nil => exact hstart
  | @snoc tr t u a before last ih =>
    have hbefore : Meets C tr := fun e he => hmeets e (List.mem_append_left _ he)
    have hlast : C t a := hmeets (t, a) (List.mem_append_right _ (List.mem_singleton_self _))
    exact hstep t a u (ih hbefore) hlast last

/-- What holds in every state a run passes through holds where each of its steps starts. -/
theorem Runs.step_from {I : σ → Prop} (hrun : Runs step s tr t)
    (hI : ∀ tr' t', tr' <+: tr → Runs step s tr' t' → I t') {e : σ × α} (he : e ∈ tr) :
    I e.1 ∧ ∃ u, step e.1 e.2 u := by
  induction hrun with
  | nil => exact absurd he List.not_mem_nil
  | @snoc tr t u a before last ih =>
    rcases List.mem_append.mp he with he | he
    · exact ih (fun tr' t' hpre => hI tr' t' (hpre.trans (List.prefix_append _ _))) he
    · rw [List.mem_singleton] at he
      subst he
      exact ⟨hI tr t (List.prefix_append _ _) before, u, last⟩

end Tilbo.Lib.Steps

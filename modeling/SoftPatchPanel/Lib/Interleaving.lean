import Mathlib.Logic.Function.Basic
import Mathlib.Logic.Relation

/-!
# Interleaved steps on shared data

Agents with local data work on shared data, together with an environment that has no local data.  In each step one of
them moves.  `System.invariant` is the rule for safety: an invariant of the shared data and, for each agent, a relation
of the shared data and its local data, kept up by every move of anybody.  `System.env_run` and `System.agent_run` put
a run together from moves of one party at a time.
-/

namespace Lib

/-- The moves of the environment and of the agents `ι`, on shared data `σ` and local data `τ`. -/
structure System (ι σ τ : Type) where
  env : σ → σ → Prop
  agent : ι → σ → τ → σ → τ → Prop

namespace System

variable {ι σ τ : Type} [DecidableEq ι]

/-- One move of anybody. -/
inductive Step (S : System ι σ τ) : σ × (ι → τ) → σ × (ι → τ) → Prop where
  | env {s s' : σ} {loc : ι → τ} (h : S.env s s') : Step S (s, loc) (s', loc)
  | agent {s s' : σ} {loc : ι → τ} (i : ι) {t : τ} (h : S.agent i s (loc i) s' t) :
      Step S (s, loc) (s', Function.update loc i t)

/-- Any number of moves. -/
def Reach (S : System ι σ τ) : σ × (ι → τ) → σ × (ι → τ) → Prop := Relation.ReflTransGen S.Step

/-- The rule for safety. -/
theorem invariant {S : System ι σ τ} {P : σ → Prop} {Q : ι → σ → τ → Prop}
    (henv : ∀ {s s'}, P s → S.env s s' → P s' ∧ ∀ i t, Q i s t → Q i s' t)
    (hagent : ∀ {i s t s' t'}, P s → Q i s t → S.agent i s t s' t' →
      P s' ∧ Q i s' t' ∧ ∀ j, j ≠ i → ∀ u, Q j s u → Q j s' u)
    {x y : σ × (ι → τ)} (hx : P x.1 ∧ ∀ i, Q i x.1 (x.2 i)) (h : S.Reach x y) :
    P y.1 ∧ ∀ i, Q i y.1 (y.2 i) := by
  induction h with
  | refl => exact hx
  | tail _ hstep ih =>
    obtain ⟨hP, hQ⟩ := ih
    cases hstep with
    | env h =>
      obtain ⟨h1, h2⟩ := henv hP h
      exact ⟨h1, fun i => h2 i _ (hQ i)⟩
    | agent i h =>
      obtain ⟨h1, h2, h3⟩ := hagent hP (hQ i) h
      refine ⟨h1, fun j => ?_⟩
      simp only
      by_cases hji : j = i
      · subst hji
        rw [Function.update_self]
        exact h2
      · rw [Function.update_of_ne hji]
        exact h3 j hji _ (hQ j)

theorem env_run {S : System ι σ τ} {s s' : σ} (loc : ι → τ) (h : Relation.ReflTransGen S.env s s') :
    S.Reach (s, loc) (s', loc) := by
  induction h with
  | refl => exact Relation.ReflTransGen.refl
  | tail _ hstep ih => exact ih.tail (Step.env hstep)

theorem agent_run {S : System ι σ τ} (i : ι) {s s' : σ} {t t' : τ}
    (h : Relation.ReflTransGen (fun a b : σ × τ => S.agent i a.1 a.2 b.1 b.2) (s, t) (s', t')) (loc : ι → τ)
    (hloc : loc i = t) : S.Reach (s, loc) (s', Function.update loc i t') := by
  generalize hb : (s', t') = b at h
  induction h generalizing s' t' with
  | refl =>
    cases hb
    rw [← hloc, Function.update_eq_self]
    exact Relation.ReflTransGen.refl
  | @tail a b _ hstep ih =>
    subst hb
    have hagent : S.agent i a.1 (Function.update loc i a.2 i) s' t' := by
      rw [Function.update_self]
      exact hstep
    have hmove := Step.agent i hagent
    rw [Function.update_idem] at hmove
    exact Relation.ReflTransGen.tail (ih rfl) hmove

end System

end Lib

import Mathlib.Order.Basic

/-!
# Conditions along a run

A machine with states `σ` reads events `ε`.  `Along step C s es` says that the condition `C` holds at each event of a
run; `forall_take_iff_along` finds the condition under which a property holds in every state of a run from the condition
of one step.
-/

namespace Lib

variable {σ ε : Type}

/-- `C` holds at every event of the run from `s`. -/
def Along (step : σ → ε → σ) (C : σ → ε → Prop) : σ → List ε → Prop
  | _, [] => True
  | s, e :: es => C s e ∧ Along step C (step s e) es

instance decidableAlong (step : σ → ε → σ) (C : σ → ε → Prop) [∀ s e, Decidable (C s e)] :
    (s : σ) → (es : List ε) → Decidable (Along step C s es)
  | _, [] => inferInstanceAs (Decidable True)
  | s, e :: es => @instDecidableAnd _ _ _ (decidableAlong step C (step s e) es)

theorem Along.of_forall {step : σ → ε → σ} {C : σ → ε → Prop} {es : List ε} (h : ∀ e ∈ es, ∀ s, C s e) (s : σ) :
    Along step C s es := by
  induction es generalizing s with
  | nil => trivial
  | cons e es ih => exact ⟨h e (by simp) s, ih (fun x hx => h x (by simp [hx])) _⟩

theorem Along.and {step : σ → ε → σ} {C D : σ → ε → Prop} {s : σ} {es : List ε} (h : Along step C s es)
    (h' : Along step D s es) : Along step (fun s e => C s e ∧ D s e) s es := by
  induction es generalizing s with
  | nil => trivial
  | cons e es ih => exact ⟨⟨h.1, h'.1⟩, ih h.2 h'.2⟩

theorem along_append {step : σ → ε → σ} {C : σ → ε → Prop} {s : σ} {es es' : List ε} :
    Along step C s (es ++ es') ↔ Along step C s es ∧ Along step C (es.foldl step s) es' := by
  induction es generalizing s with
  | nil => simp [Along]
  | cons e es ih => simp [Along, ih, and_assoc]

/-- What every allowed step keeps up holds in every state of an allowed run. -/
theorem Along.invariant {step : σ → ε → σ} {allows : σ → ε → Prop} {I : σ → Prop}
    (hinv : ∀ {s e}, I s → allows s e → I (step s e)) {s : σ} {es : List ε} (hs : I s)
    (hok : Along step allows s es) (k : Nat) : I ((es.take k).foldl step s) := by
  induction es generalizing s k with
  | nil => simpa using hs
  | cons e es ih =>
    cases k with
    | zero => exact hs
    | succ k => exact ih (hinv hs hok.1) hok.2 k

/-- Two conditions that agree at the allowed steps from states with the invariant agree along an allowed run. -/
theorem Along.congr {step : σ → ε → σ} {allows C D : σ → ε → Prop} {I : σ → Prop}
    (hinv : ∀ {s e}, I s → allows s e → I (step s e)) (hiff : ∀ {s e}, I s → allows s e → (C s e ↔ D s e)) {s : σ}
    {es : List ε} (hs : I s) (hok : Along step allows s es) : Along step C s es ↔ Along step D s es := by
  induction es generalizing s with
  | nil => exact Iff.rfl
  | cons e es ih => exact and_congr (hiff hs hok.1) (ih (hinv hs hok.1) hok.2)

/-- When a step that is allowed keeps up the invariant, and keeps up `P` exactly under `C`, then a run has `P` in all its
states exactly when it has `C` at all its events. -/
theorem forall_take_iff_along {step : σ → ε → σ} {allows C : σ → ε → Prop} {I P : σ → Prop}
    (hinv : ∀ {s e}, I s → allows s e → I (step s e))
    (hstep : ∀ {s e}, I s → allows s e → P s → (P (step s e) ↔ C s e)) {s : σ} {es : List ε} (hs : I s)
    (hok : Along step allows s es) (hP : P s) :
    (∀ k, P ((es.take k).foldl step s)) ↔ Along step C s es := by
  induction es generalizing s with
  | nil => simpa [Along] using hP
  | cons e es ih =>
    obtain ⟨hallows, hrest⟩ := hok
    constructor
    · intro h
      have hnext : P (step s e) := h 1
      exact ⟨(hstep hs hallows hP).1 hnext, (ih (hinv hs hallows) hrest hnext).1 fun k => h (k + 1)⟩
    · rintro ⟨hnow, hafter⟩ k
      cases k with
      | zero => exact hP
      | succ k => exact (ih (hinv hs hallows) hrest ((hstep hs hallows hP).2 hnow)).2 hafter k

end Lib

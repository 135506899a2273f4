import Mathlib.Logic.Relation

/-!
# Loops

A round of a loop goes on with a new state or ends the loop with a result.  When every round that goes on lowers a
measure or leaves the state as it is, the loop ends exactly when it reaches no state that its round leaves as it is
(`exists_ends_iff`).
-/

namespace Lib

variable {σ ρ : Type}

/-- At most `fuel` rounds of a loop. -/
def loop (round : σ → σ ⊕ ρ) : (fuel : Nat) → σ → Option ρ
  | 0, _ => none
  | fuel + 1, s =>
    match round s with
    | .inl s' => loop round fuel s'
    | .inr r => some r

/-- The loop ends with a result. -/
def Ends (round : σ → σ ⊕ ρ) (s : σ) (r : ρ) : Prop := ∃ fuel, loop round fuel s = some r

/-- The loop comes from `s` to `s'`. -/
def Reaches (round : σ → σ ⊕ ρ) : σ → σ → Prop := Relation.ReflTransGen (fun s s' => round s = .inl s')

section

variable {round : σ → σ ⊕ ρ} {s s' : σ} {r : ρ}

private theorem Reaches.refl (s : σ) : Reaches round s s := Relation.ReflTransGen.refl

private theorem Reaches.head {t : σ} (h : round s = .inl s') (ht : Reaches round s' t) : Reaches round s t :=
  Relation.ReflTransGen.head h ht

/-- What a round keeps up holds in every state that is reached. -/
theorem Reaches.invariant {I : σ → Prop} (hinv : ∀ {s s'}, I s → round s = .inl s' → I s') (hs : I s)
    (h : Reaches round s s') : I s' := by
  induction h with
  | refl => exact hs
  | tail _ hstep ih => exact hinv ih hstep

private theorem ends_of_inr (h : round s = .inr r) : Ends round s r := ⟨1, by rw [loop, h]⟩

private theorem ends_iff_of_inl (h : round s = .inl s') : Ends round s r ↔ Ends round s' r := by
  constructor
  · rintro ⟨fuel, hfuel⟩
    cases fuel with
    | zero => cases hfuel
    | succ fuel =>
      rw [loop, h] at hfuel
      exact ⟨fuel, hfuel⟩
  · rintro ⟨fuel, hfuel⟩
    exact ⟨fuel + 1, by rw [loop, h]; exact hfuel⟩

/-- A loop that ends does so in a state that it reaches. -/
theorem Ends.exists_last (h : Ends round s r) : ∃ s', Reaches round s s' ∧ round s' = .inr r := by
  obtain ⟨fuel, hfuel⟩ := h
  induction fuel generalizing s with
  | zero => cases hfuel
  | succ fuel ih =>
    rw [loop] at hfuel
    cases hround : round s with
    | inl mid =>
      rw [hround] at hfuel
      obtain ⟨s', hreach, hlast⟩ := ih hfuel
      exact ⟨s', hreach.head hround, hlast⟩
    | inr r' =>
      rw [hround] at hfuel
      cases hfuel
      exact ⟨s, Reaches.refl s, hround⟩

/-- A loop does not end from a state that its round leaves as it is. -/
theorem not_ends_of_fixed (h : round s = .inl s) : ¬Ends round s r := by
  rintro ⟨fuel, hfuel⟩
  induction fuel with
  | zero => cases hfuel
  | succ fuel ih =>
    rw [loop, h] at hfuel
    exact ih hfuel

private theorem not_ends_of_reaches_fixed (h : Reaches round s s') (hfixed : round s' = .inl s') : ¬Ends round s r := by
  induction h using Relation.ReflTransGen.head_induction_on with
  | refl => exact not_ends_of_fixed hfixed
  | head hstep _ ih => exact fun hends => ih ((ends_iff_of_inl hstep).1 hends)

end

/-- With a measure that every round lowers unless it changes nothing, the loop ends exactly when it reaches no state in
which its round changes nothing. -/
theorem exists_ends_iff {round : σ → σ ⊕ ρ} (measure : σ → Nat)
    (hmeasure : ∀ {s s'}, round s = .inl s' → s' = s ∨ measure s' < measure s) {s : σ} :
    (∃ r, Ends round s r) ↔ ∀ s', Reaches round s s' → round s' ≠ .inl s' := by
  constructor
  · rintro ⟨r, hends⟩ s' hreach hfixed
    exact not_ends_of_reaches_fixed hreach hfixed hends
  · intro hmoves
    -- by induction on the measure of the state
    induction hm : measure s using Nat.strongRecOn generalizing s with
    | ind m ih =>
      cases hround : round s with
      | inr r => exact ⟨r, ends_of_inr hround⟩
      | inl s' =>
        rcases hmeasure hround with rfl | hlt
        · exact absurd hround (hmoves s' (Reaches.refl s'))
        · obtain ⟨r, hends⟩ := ih (measure s') (by omega) (fun t ht => hmoves t (ht.head hround)) rfl
          exact ⟨r, (ends_iff_of_inl hround).2 hends⟩

end Lib

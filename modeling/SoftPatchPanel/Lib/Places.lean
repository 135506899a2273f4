import Mathlib.Algebra.BigOperators.Group.Finset.Piecewise
import Mathlib.Tactic.Abel

/-!
# What is at which place

`c y` says how often a token is at the place `y`.  `AtPlace c x` says that the token is at the place `x` alone, or
nowhere when `x` is `none`, and `AtPlace.moved` that moving it keeps this up.  For amounts of any kind,
`sum_add_eq_sum_add` compares the sums over all places before and after a change at one of them.
-/

namespace Lib

variable {π : Type} [DecidableEq π]

/-- The token is at `x` and nowhere else. -/
def AtPlace (c : π → Nat) (x : Option π) : Prop := ∀ y, c y = if x = some y then 1 else 0

/-- Move `k` tokens from `src` to `dst`; without a destination they get lost. -/
def moved (c : π → Nat) (src : π) (dst : Option π) (k : Nat) : π → Nat :=
  fun y => (c y - if y = src then k else 0) + if dst = some y then k else 0

variable {c : π → Nat} {x : Option π}

private theorem AtPlace.eq_of_pos (h : AtPlace c x) {y : π} (hy : 0 < c y) : x = some y := by
  by_contra hne
  rw [h y, if_neg hne] at hy
  omega

theorem AtPlace.unique {y : Option π} (hx : AtPlace c x) (hy : AtPlace c y) : x = y := by
  cases x with
  | some z => exact (hy.eq_of_pos (by rw [hx z]; simp)).symm
  | none =>
    cases y with
    | none => rfl
    | some z => exact hx.eq_of_pos (by rw [hy z]; simp)

/-- Where the token is after a move of all tokens that there are at `src`, or of none. -/
theorem AtPlace.moved (h : AtPlace c x) {src : π} (dst : Option π) {k : Nat} (hk : k ≤ c src) :
    AtPlace (moved c src dst k) (if k = 0 then x else dst) := by
  intro y
  rcases Nat.eq_zero_or_pos k with rfl | hpos
  · simpa [Lib.moved] using h y
  · obtain rfl := h.eq_of_pos (Nat.lt_of_lt_of_le hpos hk)
    obtain rfl : k = 1 := by
      have hsrc := h src
      rw [if_pos rfl] at hsrc
      omega
    have hy := h y
    by_cases hsrc : y = src
    · subst hsrc
      simp_all [Lib.moved]
    · simp_all [Lib.moved, Ne.symm hsrc]

/-- Two sums that differ in one summand. -/
theorem sum_add_eq_sum_add {β M : Type} [DecidableEq β] [AddCommMonoid M] {s : Finset β} {f g : β → M} {b : β}
    (hb : b ∈ s) (hg : ∀ x, x ≠ b → g x = f x) : ∑ x ∈ s, g x + f b = ∑ x ∈ s, f x + g b := by
  have hupdate : g = Function.update f b (g b) := by
    funext x
    by_cases hx : x = b
    · subst hx
      simp
    · simp [hx, hg]
  rw [hupdate, Finset.sum_update_of_mem hb, ← Finset.add_sum_erase s f hb, Finset.sdiff_singleton_eq_erase,
    Function.update_self]
  abel

end Lib

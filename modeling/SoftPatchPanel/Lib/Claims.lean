import Mathlib.Algebra.GroupWithZero.Nat
import Mathlib.Order.Lattice
import Mathlib.Order.Nat

/-!
# Claims laid end to end

Owners claim stretches of places, each behind the last one, and give them up in the order of the claims.  `Tiles a cs b`
says that the claims `cs` cover the places from `a` to `b` without a gap.  Only the first claim starts at `a`
(`Tiles.eq_cons_of_start`), so an owner that waits until its claim starts at `a` waits for all claims before it.
-/

namespace Lib

/-- The claim of `owner` on `len` places from `start` on. -/
structure Claim (ι : Type) where
  owner : ι
  start : Nat
  len : Nat

variable {ι : Type}

/-- Non-empty claims laid end to end from `a` to `b`. -/
def Tiles : Nat → List (Claim ι) → Nat → Prop
  | a, [], b => a = b
  | a, c :: cs, b => c.start = a ∧ 0 < c.len ∧ Tiles (a + c.len) cs b

variable {a b : Nat} {c : Claim ι} {cs : List (Claim ι)}

theorem Tiles.le (h : Tiles a cs b) : a ≤ b := by
  induction cs generalizing a with
  | nil => exact le_of_eq h
  | cons c cs ih => exact le_trans (Nat.le_add_right _ _) (ih h.2.2)

theorem tiles_append {l r : List (Claim ι)} : Tiles a (l ++ r) b ↔ ∃ m, Tiles a l m ∧ Tiles m r b := by
  induction l generalizing a with
  | nil => exact ⟨fun h => ⟨a, rfl, h⟩, fun ⟨m, hm, h⟩ => by cases hm; exact h⟩
  | cons c l ih =>
    constructor
    · rintro ⟨h1, h2, h⟩
      obtain ⟨m, hl, hr⟩ := ih.1 h
      exact ⟨m, ⟨h1, h2, hl⟩, hr⟩
    · rintro ⟨m, ⟨h1, h2, hl⟩, hr⟩
      exact ⟨h1, h2, ih.2 ⟨m, hl, hr⟩⟩

theorem Tiles.concat (h : Tiles a cs b) (i : ι) {n : Nat} (hn : 0 < n) : Tiles a (cs ++ [⟨i, b, n⟩]) (b + n) := by
  induction cs generalizing a with
  | nil =>
    cases h
    exact ⟨rfl, hn, rfl⟩
  | cons c cs ih => exact ⟨h.1, h.2.1, ih h.2.2⟩

theorem Tiles.bounds (h : Tiles a cs b) (hc : c ∈ cs) : a ≤ c.start ∧ c.start + c.len ≤ b ∧ 0 < c.len := by
  induction cs generalizing a with
  | nil => cases hc
  | cons d cs ih =>
    obtain ⟨hstart, hlen, hrest⟩ := h
    rcases List.mem_cons.1 hc with rfl | hc
    · exact ⟨hstart.ge, by rw [hstart]; exact hrest.le, hlen⟩
    · obtain ⟨h1, h2, h3⟩ := ih hrest hc
      exact ⟨by omega, h2, h3⟩

theorem Tiles.eq_cons_of_start (h : Tiles a cs b) (hc : c ∈ cs) (hstart : c.start = a) : ∃ rest, cs = c :: rest := by
  cases cs with
  | nil => cases hc
  | cons d cs =>
    rcases List.mem_cons.1 hc with rfl | hc
    · exact ⟨cs, rfl⟩
    · have := (h.2.2.bounds hc).1
      have := h.2.1
      omega

theorem Tiles.sum_len (h : Tiles a cs b) : a + (cs.map Claim.len).sum = b := by
  induction cs generalizing a with
  | nil => exact h
  | cons c cs ih => rw [List.map_cons, List.sum_cons, ← Nat.add_assoc, ih h.2.2]

theorem Tiles.nodup (h : Tiles a cs b) : cs.Nodup := by
  induction cs generalizing a with
  | nil => exact List.nodup_nil
  | cons c cs ih =>
    obtain ⟨rfl, hlen, hrest⟩ := h
    refine List.nodup_cons.2 ⟨fun hc => ?_, ih hrest⟩
    have := (hrest.bounds hc).1
    omega

/-- Claims at different places of a list do not meet. -/
theorem Tiles.eq_of_meet {d : Claim ι} {p : Nat} (h : Tiles a cs b) (hc : c ∈ cs) (hd : d ∈ cs)
    (hpc : c.start ≤ p ∧ p < c.start + c.len) (hpd : d.start ≤ p ∧ p < d.start + d.len) : c = d := by
  induction cs generalizing a with
  | nil => cases hc
  | cons e cs ih =>
    rcases List.mem_cons.1 hc with rfl | hc' <;> rcases List.mem_cons.1 hd with rfl | hd'
    · rfl
    · have := (h.2.2.bounds hd').1
      have := h.1
      omega
    · have := (h.2.2.bounds hc').1
      have := h.1
      omega
    · exact ih h.2.2 hc' hd'

end Lib

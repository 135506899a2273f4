import SoftPatchPanel.Lib.Pieces
import Mathlib.Algebra.GroupWithZero.Nat

/-!
# Pieces at multiples of their granule

Each file has a granule.  Pieces laid end to end from some place on are aligned when each piece lies at a multiple of
the granule of its file, starts at a multiple of it in the file and has a multiple of it as length.  Joining neighbouring
pieces keeps this up (`AlignedFrom.coalesce`).
-/

namespace Lib

section

variable {φ : Type} {g : φ → Nat}

/-- The pieces laid end to end from `o` on are aligned. -/
def AlignedFrom (g : φ → Nat) : Nat → List (Piece φ) → Prop
  | _, [] => True
  | o, s :: l => (g s.file ∣ o ∧ g s.file ∣ s.offset.toNat ∧ g s.file ∣ s.len) ∧ AlignedFrom g (o + s.len) l

@[simp] theorem alignedFrom_nil (o : Nat) : AlignedFrom g o [] := trivial

@[simp] theorem alignedFrom_cons {o : Nat} {s : Piece φ} {l : List (Piece φ)} :
    AlignedFrom g o (s :: l) ↔
      (g s.file ∣ o ∧ g s.file ∣ s.offset.toNat ∧ g s.file ∣ s.len) ∧ AlignedFrom g (o + s.len) l := Iff.rfl

theorem alignedFrom_append {o : Nat} {l r : List (Piece φ)} :
    AlignedFrom g o (l ++ r) ↔ AlignedFrom g o l ∧ AlignedFrom g (o + total l) r := by
  induction l generalizing o with
  | nil => simp
  | cons s l ih =>
    rw [List.cons_append, alignedFrom_cons, alignedFrom_cons, ih, total_cons, ← Nat.add_assoc]
    exact and_assoc.symm

/-- A move of the whole list by a common multiple of the granules. -/
theorem AlignedFrom.shift {o d : Nat} {l : List (Piece φ)} (h : AlignedFrom g o l) (hd : ∀ s ∈ l, g s.file ∣ d) :
    AlignedFrom g (d + o) l := by
  induction l generalizing o with
  | nil => trivial
  | cons s l ih =>
    rw [List.forall_mem_cons] at hd
    refine ⟨⟨(Nat.dvd_add_iff_right hd.1).1 h.1.1, h.1.2⟩, ?_⟩
    rw [Nat.add_assoc]
    exact ih h.2 hd.2

/-- A run is a stretch of the file of one of its pieces, and at least as long. -/
theorem exists_of_mem_coalesce [DecidableEq φ] {l : List (Piece φ)} {y : Piece φ} (hy : y ∈ coalesce l) :
    ∃ s ∈ l, y.file = s.file ∧ s.len ≤ y.len := by
  obtain ⟨r, hr, hjoin⟩ := List.mem_filterMap.1 hy
  cases r with
  | nil => cases hjoin
  | cons s r =>
    cases hjoin
    refine ⟨s, ?_, rfl, ?_⟩
    · rw [← List.flatten_splitBy Piece.continues l]
      exact List.mem_flatten.2 ⟨s :: r, hr, by simp⟩
    · simp only [total_cons]
      omega

theorem AlignedFrom.coalesce [DecidableEq φ] {o : Nat} {l : List (Piece φ)} (h : AlignedFrom g o l) :
    AlignedFrom g o (coalesce l) := by
  induction l using List.reverseRecOn with
  | nil => trivial
  | append_singleton l x ih =>
    obtain ⟨hl, hx⟩ := alignedFrom_append.1 h
    have hruns := ih hl
    by_cases hcont : ∃ R y, Lib.coalesce l = R ++ [y] ∧ y.continues x
    · -- the piece makes the last run longer
      obtain ⟨R, y, hR, hyx⟩ := hcont
      rw [hR, alignedFrom_append] at hruns
      have hfile : y.file = x.file := by
        simp only [Piece.continues, decide_eq_true_eq] at hyx
        exact hyx.1
      rw [coalesce_concat_of_continues hR hyx, alignedFrom_append]
      refine ⟨hruns.1, ⟨hruns.2.1.1, hruns.2.1.2.1, Nat.dvd_add hruns.2.1.2.2 ?_⟩, trivial⟩
      simp only
      rw [hfile]
      exact hx.1.2.2
    · have hnot : ∀ z ∈ l.getLast?, ¬z.continues x := by
        intro z hz hzx
        have hne : Lib.coalesce l ≠ [] := coalesce_ne_nil (by rintro rfl; simp at hz)
        have hlast := (List.dropLast_append_getLast hne).symm
        exact hcont ⟨_, _, hlast, (continues_last_iff hlast hz x).2 hzx⟩
      rw [coalesce_concat_of_not hnot, alignedFrom_append, total_coalesce]
      exact ⟨hruns, hx⟩

end

end Lib

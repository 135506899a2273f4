import Mathlib.Data.Nat.Bitwise
import Mathlib.Data.Nat.Size
import Mathlib.Tactic.Ring

/-!
# Power-of-two alignment of 64-bit words

Masking a word with `~(a - 1)` rounds it down to a multiple of `a`, and adding `a - 1` first rounds it up, when
`a` is a power of two.  Both facts are stated on the values of the words, so that everything after them is linear
arithmetic: `toNat_alignFloor`, and `toNat_alignCeil` for a word whose rounding up does not leave the 64 bits.  The
next power of two comes from filling up the bits of a word (`toNat_align64pow2`, and `toNat_align32pow2` for 32 bits).
-/

namespace Lib

/-- Two multiples of `a` are ordered as soon as they are ordered up to less than `a`. -/
theorem le_of_dvd_of_lt_add {a x y : Nat} (hx : a ∣ x) (hy : a ∣ y) (h : x < y + a) : x ≤ y := by
  obtain ⟨c, rfl⟩ := hx
  obtain ⟨d, rfl⟩ := hy
  have hcd : c < d + 1 := by
    apply Nat.lt_of_mul_lt_mul_left (a := a)
    rw [Nat.mul_add, Nat.mul_one]; exact h
  exact Nat.mul_le_mul_left a (by omega)

/-- `a` is a power of two. -/
def IsPow2 (a : UInt64) : Prop := ∃ k : Nat, a.toNat = 2 ^ k

theorem IsPow2.pos {a : UInt64} (h : IsPow2 a) : 0 < a.toNat := by
  obtain ⟨k, hk⟩ := h
  rw [hk]; exact Nat.two_pow_pos k

theorem IsPow2.dvd_two_pow {a : UInt64} (h : IsPow2 a) : a.toNat ∣ 2 ^ 64 := by
  have hlt := a.toNat_lt
  obtain ⟨k, hk⟩ := h
  rw [hk] at hlt ⊢
  exact Nat.pow_dvd_pow 2 (Nat.le_of_lt ((Nat.pow_lt_pow_iff_right (by omega)).1 hlt))

/-- Rounding down: `val & ~(align - 1)`. -/
def alignFloor (val align : UInt64) : UInt64 := val &&& ~~~(align - 1)

/-- Rounding up: `(val + (align - 1)) & ~(align - 1)`. -/
def alignCeil (val align : UInt64) : UInt64 := alignFloor (val + (align - 1)) align

private theorem toNat_sub_one {a : UInt64} (h : 0 < a.toNat) : (a - 1).toNat = a.toNat - 1 := by
  rw [UInt64.toNat_sub_of_le _ _ (by rw [UInt64.le_iff_toNat_le]; exact h)]
  rfl

private theorem and_add_and_not (v m : UInt64) : (v &&& m) + (v &&& ~~~m) = v := by
  apply UInt64.toBitVec_inj.mp
  have hz : (v.toBitVec &&& m.toBitVec) &&& (v.toBitVec &&& ~~~m.toBitVec) = 0#64 := by
    ext i hi; simp; tauto
  have ho : (v.toBitVec &&& m.toBitVec) ||| (v.toBitVec &&& ~~~m.toBitVec) = v.toBitVec := by
    ext i hi
    simp only [BitVec.getElem_or, BitVec.getElem_and, BitVec.getElem_not]
    cases v.toBitVec[i] <;> cases m.toBitVec[i] <;> rfl
  simp only [UInt64.toBitVec_add, UInt64.toBitVec_and, UInt64.toBitVec_not]
  rw [BitVec.add_eq_or_of_and_eq_zero _ _ hz, ho]

theorem toNat_alignFloor (v : UInt64) {a : UInt64} (ha : IsPow2 a) :
    (alignFloor v a).toNat = v.toNat - v.toNat % a.toNat := by
  have hpos := ha.pos
  obtain ⟨k, hk⟩ := ha
  have hand : (v &&& (a - 1)).toNat = v.toNat % a.toNat := by
    rw [UInt64.toNat_and, toNat_sub_one hpos, hk, Nat.and_two_pow_sub_one_eq_mod]
  -- the two masks split the word without a carry
  have hsum := congrArg UInt64.toNat (and_add_and_not v (a - 1))
  rw [UInt64.toNat_add, hand] at hsum
  have hle := Nat.mod_le v.toNat a.toNat
  have hlt := v.toNat_lt
  have hlt' := (v &&& ~~~(a - 1)).toNat_lt
  unfold alignFloor
  omega

/-- The multiple of `a` below `v` is the only one whose block of `a` words holds `v`. -/
theorem eq_alignFloor {v a : UInt64} (ha : IsPow2 a) {w : Nat} (hw : a.toNat ∣ w) (h₁ : w ≤ v.toNat)
    (h₂ : v.toNat < w + a.toNat) : w = (alignFloor v a).toNat := by
  obtain ⟨c, rfl⟩ := hw
  rw [toNat_alignFloor v ha]
  have hdiv : v.toNat / a.toNat = c :=
    Nat.div_eq_of_lt_le (by rw [Nat.mul_comm]; exact h₁) (by rw [Nat.add_mul, Nat.mul_comm, Nat.one_mul]; exact h₂)
  have := Nat.div_add_mod v.toNat a.toNat
  rw [hdiv] at this
  omega

/-- Rounding up, for a word that has a multiple of `a` at or above it inside the 64 bits. -/
theorem toNat_alignCeil {v a : UInt64} (ha : IsPow2 a) (hv : v.toNat + (a.toNat - 1) < 2 ^ 64) :
    (alignCeil v a).toNat = (v.toNat + (a.toNat - 1)) / a.toNat * a.toNat := by
  unfold alignCeil
  rw [toNat_alignFloor _ ha, UInt64.toNat_add, toNat_sub_one ha.pos, Nat.mod_eq_of_lt hv,
    Nat.mul_comm, Nat.mul_div_self_eq_mod_sub_self]

/-! ### The next power of two -/

/-- `v | (v >> s)`. -/
def orShift (v s : UInt64) : UInt64 := v ||| v >>> s

/-- The next power of two from `v` on: the bits below the highest one of `v - 1` are filled up. -/
def align64pow2 (v : UInt64) : UInt64 :=
  orShift (orShift (orShift (orShift (orShift (orShift (v - 1) 1) 2) 4) 8) 16) 32 + 1

/-- Bit `i` of `x` says whether `w` has a bit among the `n` from `i` on. -/
private def SpreadDown (w : Nat) (n : Nat) (x : UInt64) : Prop :=
  ∀ i, x.toNat.testBit i = true ↔ ∃ j < n, w.testBit (i + j) = true

private theorem SpreadDown.orShift {w n : Nat} {x s : UInt64} (h : SpreadDown w n x) (hs : s.toNat = n) (hn : n < 64) :
    SpreadDown w (n + n) (orShift x s) := by
  intro i
  rw [Lib.orShift, UInt64.toNat_or, Nat.testBit_or, UInt64.toNat_shiftRight, Nat.testBit_shiftRight, hs,
    Nat.mod_eq_of_lt (by omega), Bool.or_eq_true, h, h]
  constructor
  · rintro (⟨j, hj, hw⟩ | ⟨j, hj, hw⟩)
    · exact ⟨j, by omega, hw⟩
    · exact ⟨n + j, by omega, by rw [← hw]; congr 1; omega⟩
  · rintro ⟨j, hj, hw⟩
    by_cases hlt : j < n
    · exact Or.inl ⟨j, hlt, hw⟩
    · exact Or.inr ⟨j - n, by omega, by rw [← hw]; congr 1; omega⟩

/-- All bits up to the highest one. -/
private theorem SpreadDown.toNat_eq {w : Nat} {x : UInt64} (hw : w < 2 ^ 64) (h : SpreadDown w 64 x) :
    x.toNat = 2 ^ w.size - 1 := by
  apply Nat.eq_of_testBit_eq
  intro i
  rw [Nat.testBit_two_pow_sub_one, Bool.eq_iff_iff, h, decide_eq_true_iff, Nat.lt_size]
  constructor
  · rintro ⟨j, -, hj⟩
    exact (Nat.pow_le_pow_right (by omega) (by omega)).trans (Nat.ge_two_pow_of_testBit hj)
  · intro hle
    obtain ⟨j, hij, hj⟩ := Nat.exists_ge_and_testBit_of_ge_two_pow hle
    have hlt : 2 ^ j < 2 ^ 64 := (Nat.ge_two_pow_of_testBit hj).trans_lt hw
    have := (Nat.pow_lt_pow_iff_right (by omega)).1 hlt
    exact ⟨j - i, by omega, by rw [← hj]; congr 1; omega⟩

/-- The result is a power of two that is not below the argument, as long as there is one in 64 bits. -/
theorem toNat_align64pow2 {v : UInt64} (hpos : 0 < v.toNat) (hle : v.toNat ≤ 2 ^ 63) :
    (align64pow2 v).toNat = 2 ^ (v.toNat - 1).size ∧ v.toNat ≤ 2 ^ (v.toNat - 1).size ∧ (v.toNat - 1).size ≤ 63 := by
  have hsub := toNat_sub_one hpos
  have hstart : SpreadDown (v.toNat - 1) 1 (v - 1) := by
    intro i
    rw [hsub]
    constructor
    · exact fun h => ⟨0, by omega, h⟩
    · rintro ⟨j, hj, h⟩
      obtain rfl : j = 0 := by omega
      exact h
  have hfilled := ((((((hstart.orShift (s := 1) rfl (by omega)).orShift (s := 2) rfl (by omega)).orShift (s := 4) rfl
    (by omega)).orShift (s := 8) rfl (by omega)).orShift (s := 16) rfl (by omega)).orShift (s := 32) rfl (by omega))
  have hbits := hfilled.toNat_eq (by omega)
  have hsize : (v.toNat - 1).size ≤ 63 := Nat.size_le.2 (by omega)
  have hself := Nat.lt_size_self (v.toNat - 1)
  have hpow : 2 ^ (v.toNat - 1).size ≤ 2 ^ 63 := Nat.pow_le_pow_right (by omega) hsize
  refine ⟨?_, by omega, hsize⟩
  unfold align64pow2
  rw [UInt64.toNat_add, hbits, UInt64.toNat_one, Nat.sub_add_cancel (Nat.one_le_two_pow), Nat.mod_eq_of_lt (by omega)]

/-! ### 32-bit words -/

/-- `v | (v >> s)` in 32 bits. -/
def orShift32 (v s : UInt32) : UInt32 := v ||| v >>> s

/-- The next power of two from `v` on, in 32 bits. -/
def align32pow2 (v : UInt32) : UInt32 :=
  orShift32 (orShift32 (orShift32 (orShift32 (orShift32 (v - 1) 1) 2) 4) 8) 16 + 1

private theorem toUInt64_orShift32 {v s : UInt32} (hs : s.toUInt64 % 32 = s.toUInt64) :
    (orShift32 v s).toUInt64 = orShift v.toUInt64 s.toUInt64 := by
  rw [orShift32, orShift, UInt32.toUInt64_or, UInt32.toUInt64_shiftRight, hs]

/-- The result is a power of two that is not below the argument, as long as there is one in 32 bits. -/
theorem toNat_align32pow2 {v : UInt32} (hpos : 0 < v.toNat) (hle : v.toNat ≤ 2 ^ 31) :
    (align32pow2 v).toNat = 2 ^ (v.toNat - 1).size ∧ v.toNat ≤ 2 ^ (v.toNat - 1).size ∧ (v.toNat - 1).size ≤ 31 := by
  have hone : (1 : UInt32) ≤ v := UInt32.le_iff_toNat_le.2 hpos
  obtain ⟨h64, hge, -⟩ := @toNat_align64pow2 v.toUInt64 (by simpa using hpos) (by rw [UInt32.toNat_toUInt64]; omega)
  rw [UInt32.toNat_toUInt64] at h64 hge
  have hsize : (v.toNat - 1).size ≤ 31 := Nat.size_le.2 (by omega)
  refine ⟨?_, hge, hsize⟩
  have hpow : 2 ^ (v.toNat - 1).size ≤ 2 ^ 31 := Nat.pow_le_pow_right (by decide) hsize
  -- the 64-bit computation on the same number, whose last step does nothing
  have hpred : (v - 1).toUInt64 = v.toUInt64 - 1 := by
    apply UInt64.toNat_inj.1
    rw [UInt32.toNat_toUInt64, UInt32.toNat_sub_of_le _ _ hone, UInt64.toNat_sub_of_le, UInt32.toNat_toUInt64]
    · rfl
    · rw [UInt64.le_iff_toNat_le, UInt32.toNat_toUInt64]
      exact hpos
  unfold align32pow2
  rw [align64pow2, ← hpred] at h64
  generalize hx : orShift32 (orShift32 (orShift32 (orShift32 (orShift32 (v - 1) 1) 2) 4) 8) 16 = x
  have hx64 := congrArg UInt32.toUInt64 hx
  rw [toUInt64_orShift32 rfl, toUInt64_orShift32 rfl, toUInt64_orShift32 rfl, toUInt64_orShift32 rfl,
    toUInt64_orShift32 rfl] at hx64
  have hlast : orShift x.toUInt64 32 = x.toUInt64 := by
    apply UInt64.toNat_inj.1
    have hlt := x.toNat_lt
    rw [orShift, UInt64.toNat_or, UInt64.toNat_shiftRight, UInt32.toNat_toUInt64]
    have : x.toNat >>> ((32 : UInt64).toNat % 64) = 0 := by
      rw [Nat.shiftRight_eq_div_pow]
      exact Nat.div_eq_of_lt hlt
    rw [this, Nat.or_zero]
  rw [show UInt32.toUInt64 1 = 1 from rfl, show UInt32.toUInt64 2 = 2 from rfl, show UInt32.toUInt64 4 = 4 from rfl,
    show UInt32.toUInt64 8 = 8 from rfl, show UInt32.toUInt64 16 = 16 from rfl] at hx64
  rw [hx64, hlast, UInt64.toNat_add, UInt32.toNat_toUInt64] at h64
  have hlt := x.toNat_lt
  rw [UInt32.toNat_add]
  have h1 : (1 : UInt64).toNat = 1 := rfl
  have h2 : (1 : UInt32).toNat = 1 := rfl
  rw [h1] at h64
  rw [h2]
  omega
end Lib

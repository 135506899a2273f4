import Mathlib.Data.Nat.Bitwise
import Mathlib.Data.UInt
import Mathlib.Tactic.Tauto

/-!
# Free-running counters of 32 bits

A counter that only grows is kept in a word of 32 bits and wraps around.  Two values of it that are less than `2 ^ 32`
apart can be told apart and subtracted (`ofNat_inj_of_lt`, `toNat_ofNat_sub`), and its lower bits say which place of a
table of `2 ^ k` places a value stands for (`toNat_and_mask`).  Values within one round stand for different places
(`mod_ne_mod`).
-/

namespace Lib

/-- `x & (x - 1)` is 0 for the powers of two only. -/
theorem exists_pow_of_and_pred {x : Nat} (hpos : x ≠ 0) (h : x &&& (x - 1) = 0) : ∃ k, x = 2 ^ k := by
  refine ⟨x.log2, ?_⟩
  have hle := Nat.log2_self_le hpos
  have hlt := Nat.lt_log2_self (n := x)
  by_contra hne
  -- otherwise both numbers have the highest bit of `x`
  have hbit : x.testBit x.log2 = true := Nat.testBit_of_two_pow_le_and_two_pow_add_one_gt hle hlt
  have hbit' : (x - 1).testBit x.log2 = true :=
    Nat.testBit_of_two_pow_le_and_two_pow_add_one_gt (by omega) (by omega)
  have hand : (x &&& (x - 1)).testBit x.log2 = true := by rw [Nat.testBit_and, hbit, hbit', Bool.and_true]
  rw [h, Nat.zero_testBit] at hand
  cases hand

theorem mod_ne_mod {p q n : Nat} (hne : p ≠ q) (hpq : p < q + n) (hqp : q < p + n) : p % n ≠ q % n := by
  intro h
  have hp := Nat.div_add_mod p n
  have hq := Nat.div_add_mod q n
  rcases Nat.lt_trichotomy (p / n) (q / n) with hlt | heq | hgt
  · have := Nat.mul_le_mul_left n (show p / n + 1 ≤ q / n from hlt)
    rw [Nat.mul_add, Nat.mul_one] at this
    omega
  · rw [heq] at hp
    omega
  · have := Nat.mul_le_mul_left n (show q / n + 1 ≤ p / n from hgt)
    rw [Nat.mul_add, Nat.mul_one] at this
    omega

theorem ofNat_inj_of_lt {a b : Nat} (h : UInt32.ofNat a = UInt32.ofNat b) (hle : a ≤ b) (hlt : b < a + 2 ^ 32) :
    a = b := by
  by_contra hne
  have hmod : a % 2 ^ 32 = b % 2 ^ 32 := by simpa using congrArg UInt32.toNat h
  exact mod_ne_mod hne (by omega) hlt hmod

theorem toNat_ofNat_of_lt {a : Nat} (h : a < 2 ^ 32) : (UInt32.ofNat a).toNat = a := by
  simpa using Nat.mod_eq_of_lt h

theorem toNat_ofNat_sub {a b : Nat} (hle : a ≤ b) (hlt : b < a + 2 ^ 32) :
    (UInt32.ofNat b - UInt32.ofNat a).toNat = b - a := by
  have h : UInt32.ofNat b - UInt32.ofNat a = UInt32.ofNat (b - a) := by
    rw [sub_eq_iff_eq_add, ← UInt32.ofNat_add, Nat.sub_add_cancel hle]
  rw [h, toNat_ofNat_of_lt (by omega)]

private theorem word_and_add_and_not (v m : UInt32) : (v &&& m) + (v &&& ~~~m) = v := by
  apply UInt32.toBitVec_inj.mp
  have hz : (v.toBitVec &&& m.toBitVec) &&& (v.toBitVec &&& ~~~m.toBitVec) = 0#32 := by
    ext i hi; simp; tauto
  have ho : (v.toBitVec &&& m.toBitVec) ||| (v.toBitVec &&& ~~~m.toBitVec) = v.toBitVec := by
    ext i hi
    simp only [BitVec.getElem_or, BitVec.getElem_and, BitVec.getElem_not]
    cases v.toBitVec[i] <;> cases m.toBitVec[i] <;> rfl
  simp only [UInt32.toBitVec_add, UInt32.toBitVec_and, UInt32.toBitVec_not]
  rw [BitVec.add_eq_or_of_and_eq_zero _ _ hz, ho]

/-- The bits above a mask are what the bits under it leave. -/
theorem toNat_and_not_mask {k : Nat} {mask : UInt32} (hmask : mask.toNat = 2 ^ k - 1) (v : UInt32) :
    (v &&& mask).toNat = v.toNat % 2 ^ k ∧ (v &&& ~~~mask).toNat = v.toNat - v.toNat % 2 ^ k := by
  have hand : (v &&& mask).toNat = v.toNat % 2 ^ k := by
    rw [UInt32.toNat_and, hmask, Nat.and_two_pow_sub_one_eq_mod]
  have hsum := congrArg UInt32.toNat (word_and_add_and_not v mask)
  rw [UInt32.toNat_add, hand] at hsum
  have hle := Nat.mod_le v.toNat (2 ^ k)
  have hlt := v.toNat_lt
  have hlt' := (v &&& ~~~mask).toNat_lt
  exact ⟨hand, by omega⟩

theorem toNat_and_mask {k : Nat} {mask : UInt32} (hk : k ≤ 32) (hmask : mask.toNat = 2 ^ k - 1) (p : Nat) :
    (UInt32.ofNat p &&& mask).toNat = p % 2 ^ k := by
  have hdvd : 2 ^ k ∣ 2 ^ 32 := Nat.pow_dvd_pow 2 hk
  rw [UInt32.toNat_and, hmask, Nat.and_two_pow_sub_one_eq_mod]
  exact Nat.mod_mod_of_dvd p hdvd

end Lib

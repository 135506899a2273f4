import SoftPatchPanel.Lib.Strtoull
import SoftPatchPanel.Secondary.Commands

/-!
# Do different numbers name different objects?

The names of rings, vhost devices and sockets are printed into buffers with room for three digits, and `add ring` names
a ring of the other kind by the upper byte of a 16-bit number.  So two arguments of `add rx ring`, `add tx ring` or
`add vhost` mean the same object exactly when their numbers start with the same three digits, and two arguments of
`add ring` when they are equal in their lower 16 bits or have, from 255 on, the same upper byte (`names_ne_iff`).  Small
numbers are told apart (`names_ne_of_lt`).
-/

namespace SoftPatchPanel.Secondary

open Lib

/-- The number that the first three digits of a number make. -/
def leadingDigits (n : Nat) : Nat := if n < 1000 then n else leadingDigits (n / 10)

private theorem leadingDigits_of_lt {n : Nat} (h : n < 1000) : leadingDigits n = n := by
  rw [leadingDigits, if_pos h]

private theorem take_formatU (n : Nat) : (formatU n).take 3 = formatU (leadingDigits n) := by
  unfold formatU
  fun_induction leadingDigits n with
  | case1 n h => exact List.take_of_length_le ((Nat.length_toDigits_le_iff (by decide) (by decide)).2 h)
  | case2 n h ih =>
    have hlong : 3 ≤ (Nat.toDigits 10 (n / 10)).length := by
      have hshort := Nat.length_toDigits_le_iff (show 1 < 10 by decide) (show 0 < 2 by decide) (n := n / 10)
      omega
    rw [Nat.toDigits_of_base_le (by decide) (by omega), List.take_append_of_le_length hlong, ih]

private theorem formatU_inj {m n : Nat} : formatU m = formatU n ↔ m = n := by
  refine ⟨fun h => ?_, fun h => by rw [h]⟩
  have hvalue := congrArg (valueOf 10) h
  rwa [formatU, formatU, valueOf_toDigits (by decide) (by decide), valueOf_toDigits (by decide) (by decide)] at hvalue

/-- The buffer of a name has room for three digits. -/
private theorem indexedName_eq {text : CStr} {formatSize : Nat} (h : formatSize = text.length + 3) (id : Nat) :
    indexedName text formatSize id = text ++ formatU (leadingDigits id) := by
  rw [indexedName, snprintf, show formatSize + 2 - 1 - 1 = text.length + 3 by omega, List.take_length_add_append,
    take_formatU]

private theorem indexedName_inj {text : CStr} {formatSize : Nat} (h : formatSize = text.length + 3) {a b : Nat} :
    indexedName text formatSize a = indexedName text formatSize b ↔ leadingDigits a = leadingDigits b := by
  rw [indexedName_eq h, indexedName_eq h, List.append_cancel_left_eq, formatU_inj]

private theorem getRingName_inj {a b : Nat} : getRingName a = getRingName b ↔ leadingDigits a = leadingDigits b :=
  indexedName_inj rfl

private theorem getRxQueueName_inj {a b : Nat} :
    getRxQueueName a = getRxQueueName b ↔ leadingDigits a = leadingDigits b :=
  indexedName_inj rfl

private theorem getVhostBackendName_inj {a b : Nat} :
    getVhostBackendName a = getVhostBackendName b ↔ leadingDigits a = leadingDigits b :=
  indexedName_inj rfl

private theorem getVhostIfaceName_inj {a b : Nat} :
    getVhostIfaceName a = getVhostIfaceName b ↔ leadingDigits a = leadingDigits b :=
  indexedName_inj rfl

/-- The two kinds of rings have different names. -/
private theorem getRingName_ne_getRxQueueName (a b : Nat) : getRingName a ≠ getRxQueueName b := by
  intro h
  rw [getRingName, getRxQueueName, indexedName_eq (show 12 = "HSM_Ring_".toList.length + 3 from rfl),
    indexedName_eq (show 14 = "MProc_Ring_".toList.length + 3 from rfl)] at h
  exact absurd (List.cons.inj h).1 (by decide)

/-- The names that `add ring` looks up, for the 16 bits that it keeps of its argument. -/
private theorem addRingName_inj {r s : Int} {a b : Nat} (ha : (UInt16.ofInt r).toNat = a)
    (hb : (UInt16.ofInt s).toNat = b) :
    addRingName r = addRingName s ↔ a = b ∨ 255 ≤ a ∧ 255 ≤ b ∧ a / 256 = b / 256 := by
  have halt : a < 2 ^ 16 := ha ▸ UInt16.toNat_lt _
  have hblt : b < 2 ^ 16 := hb ▸ UInt16.toNat_lt _
  unfold addRingName
  simp only [ha, hb]
  by_cases hka : 255 ≤ a
  · by_cases hkb : 255 ≤ b
    · rw [if_pos hka, if_pos hkb, getRingName_inj, leadingDigits_of_lt (by omega), leadingDigits_of_lt (by omega)]
      omega
    · rw [if_pos hka, if_neg hkb]
      exact iff_of_false (getRingName_ne_getRxQueueName _ _) (by omega)
  · by_cases hkb : 255 ≤ b
    · rw [if_neg hka, if_pos hkb]
      exact iff_of_false (getRingName_ne_getRxQueueName _ _).symm (by omega)
    · rw [if_neg hka, if_neg hkb, getRxQueueName_inj, leadingDigits_of_lt (by omega), leadingDigits_of_lt (by omega)]
      omega

/-! ### Arguments -/

/-- The number that a handler gets for an argument in decimal digits. -/
def argument (r : Int) : Int := atoi (formatD r)

/-- The lower 16 bits of an argument, as `add ring` keeps them. -/
def argument16 (r : Int) : Nat := (UInt16.ofInt (argument r)).toNat

/-- An argument as an `unsigned`, which the other handlers and the functions for the names keep. -/
def argument32 (r : Int) : Nat := (UInt32.ofInt (argument r)).toNat

/-- A number that is an `int` and not negative reaches its handler as it is. -/
private theorem argument_eq {r : Int} (h : 0 ≤ r) (hlt : r < 2 ^ 31) : argument r = r := by
  rw [argument, atoi_formatD, min_eq_left (by omega), max_eq_right (by omega)]
  exact Int.bmod_eq_of_le (by omega) (by omega)

private theorem argument16_eq {r : Int} (h : 0 ≤ r) (hlt : r < 2 ^ 16) : argument16 r = r.toNat := by
  have hmod : r % 2 ^ 16 = r := Int.emod_eq_of_lt h hlt
  rw [argument16, argument_eq h (by omega), UInt16.ofInt, hmod, UInt16.toNat_ofNat_of_lt' (by simp [UInt16.size]; omega)]

private theorem argument32_eq {r : Int} (h : 0 ≤ r) (hlt : r < 2 ^ 31) : argument32 r = r.toNat := by
  have hmod : r % 2 ^ 32 = r := Int.emod_eq_of_lt h (by omega)
  rw [argument32, argument_eq h hlt, UInt32.ofInt, hmod, UInt32.toNat_ofNat_of_lt' (by simp [UInt32.size]; omega)]

/-- Different numbers below 255 name different rings in `add ring`, and different numbers below 1000 name different
objects in the other commands. -/
theorem names_ne_of_lt {r s : Int} (hr : 0 ≤ r) (hs : 0 ≤ s) (hne : r ≠ s) :
    (r < 255 → s < 255 → addRingName (argument r) ≠ addRingName (argument s)) ∧
    (r < 1000 → s < 1000 →
      getRxQueueName (argument32 r) ≠ getRxQueueName (argument32 s) ∧
      getVhostBackendName (argument32 r) ≠ getVhostBackendName (argument32 s) ∧
      getVhostIfaceName (argument32 r) ≠ getVhostIfaceName (argument32 s)) := by
  constructor
  · intro hr' hs' heq
    have h := (addRingName_inj (argument16_eq hr (by omega)) (argument16_eq hs (by omega))).1 heq
    omega
  · intro hr' hs'
    have hdigits : leadingDigits (argument32 r) ≠ leadingDigits (argument32 s) := by
      rw [argument32_eq hr (by omega), argument32_eq hs (by omega), leadingDigits_of_lt (by omega),
        leadingDigits_of_lt (by omega)]
      omega
    exact ⟨getRxQueueName_inj.not.2 hdigits, getVhostBackendName_inj.not.2 hdigits, getVhostIfaceName_inj.not.2 hdigits⟩

/-- For two arguments, the ring that `add ring` looks up, the ring that `add rx ring` and `add tx ring` look up, and the
device and the socket that `add vhost` creates have different names exactly in these cases. -/
theorem names_ne_iff (r s : Int) :
    (addRingName (argument r) ≠ addRingName (argument s) ↔
      argument16 r ≠ argument16 s ∧
        (argument16 r < 255 ∨ argument16 s < 255 ∨ argument16 r / 256 ≠ argument16 s / 256)) ∧
    (getRxQueueName (argument32 r) ≠ getRxQueueName (argument32 s) ↔
      leadingDigits (argument32 r) ≠ leadingDigits (argument32 s)) ∧
    (getVhostBackendName (argument32 r) ≠ getVhostBackendName (argument32 s) ↔
      leadingDigits (argument32 r) ≠ leadingDigits (argument32 s)) ∧
    (getVhostIfaceName (argument32 r) ≠ getVhostIfaceName (argument32 s) ↔
      leadingDigits (argument32 r) ≠ leadingDigits (argument32 s)) := by
  refine ⟨?_, getRxQueueName_inj.not, getVhostBackendName_inj.not, getVhostIfaceName_inj.not⟩
  rw [ne_eq, addRingName_inj (a := argument16 r) (b := argument16 s) rfl rfl]
  omega

/-- Different arguments with the same names, for each of the commands. -/
theorem names_collide :
    addRingName (argument 256) = addRingName (argument 257) ∧
    getRxQueueName (argument32 1000) = getRxQueueName (argument32 1001) ∧
    getVhostBackendName (argument32 1000) = getVhostBackendName (argument32 1001) ∧
    getVhostIfaceName (argument32 1000) = getVhostIfaceName (argument32 1001) := by
  decide

end SoftPatchPanel.Secondary

import SoftPatchPanel.Secondary.Commands
import Mathlib.Algebra.Order.BigOperators.Group.List

/-!
# The status reply

`print_active_ports` appends a line for each active port to the buffer of the message, with one `sprintf` after another
and without a look at its size.  A line takes from 29 to 42 bytes, so two ports always fit, four never do, and three fit
when their numbers and types are short enough (`statusFits_iff`).
-/

namespace SoftPatchPanel.Secondary

open Lib EthDev

/-- `MSG_SIZE`. -/
def msgSize : Nat := 100

/-- The text for a type. -/
def PortType.text : PortType → CStr
  | .phy => "PHY,".toList
  | .ring => "RING,".toList
  | .vhost => "VHOST,".toList
  | .undef => "UDF,".toList

/-- The texts that `print_active_ports` prints for one slot, one for each `sprintf`. -/
def portTexts (fwd : Slots Port) (i : Fin rteMaxEthports) : List CStr :=
  if 0 ≤ (fwd i).status then
    ["port id: ".toList ++ formatU i ++ ",".toList,
      if 0 ≤ (fwd i).status then "on,".toList else "off,".toList,
      (fwd i).type.text,
      "outport: ".toList ++ formatD (fwd i).outPortId ++ "\n".toList]
  else []

/-- The texts that `print_active_ports` prints one behind the other. -/
def statusTexts (clientId : UInt8) (fwd : Slots Port) : List CStr :=
  (formatU clientId.toNat ++ "\n".toList) :: (List.finRange rteMaxEthports).flatMap (portTexts fwd)

/-- What `print_active_ports` leaves in the buffer, without the terminating NUL. -/
def statusText (clientId : UInt8) (fwd : Slots Port) : CStr := (statusTexts clientId fwd).flatten

/-! ### Its length -/

/-- The ports that have a line. -/
def activePorts (fwd : Slots Port) : List (Fin rteMaxEthports) :=
  (List.finRange rteMaxEthports).filter (fun i => 0 ≤ (fwd i).status)

/-- The part of a line that is not the same for all ports: two numbers and the type. -/
def width (fwd : Slots Port) (i : Fin rteMaxEthports) : Nat :=
  (formatU i).length + (fwd i).type.text.length + (formatD (fwd i).outPortId).length

private theorem length_portTexts {fwd : Slots Port} {i : Fin rteMaxEthports} (h : 0 ≤ (fwd i).status) :
    (portTexts fwd i).flatten.length = 23 + width fwd i := by
  simp only [portTexts, if_pos h, List.flatten_cons, List.flatten_nil, List.length_append, width]
  have htexts : "port id: ".toList.length = 9 ∧ ",".toList.length = 1 ∧ "on,".toList.length = 3 ∧
      "outport: ".toList.length = 9 ∧ "\n".toList.length = 1 := by decide
  simp only [List.length_nil]
  omega

private theorem length_statusText (clientId : UInt8) (fwd : Slots Port) :
    (statusText clientId fwd).length =
      (formatU clientId.toNat).length + 1 +
        (23 * (activePorts fwd).length + ((activePorts fwd).map (width fwd)).sum) := by
  have hlines : ∀ is : List (Fin rteMaxEthports), (is.flatMap (portTexts fwd)).flatten.length =
      23 * (is.filter (fun i => 0 ≤ (fwd i).status)).length +
        ((is.filter (fun i => 0 ≤ (fwd i).status)).map (width fwd)).sum := by
    intro is
    induction is with
    | nil => rfl
    | cons i is ih =>
      rw [List.flatMap_cons, List.flatten_append, List.length_append, ih]
      by_cases h : 0 ≤ (fwd i).status
      · rw [length_portTexts h, List.filter_cons_of_pos (by simpa using h), List.length_cons, List.map_cons,
          List.sum_cons]
        omega
      · rw [List.filter_cons_of_neg (by simpa using h), portTexts, if_neg h]
        simp
  rw [statusText, statusTexts, List.flatten_cons, List.length_append, hlines, List.length_append]
  rfl

/-! ### Bounds -/

private theorem length_formatU_le {n k : Nat} (hk : 0 < k) (h : n < 10 ^ k) : (formatU n).length ≤ k :=
  (Nat.length_toDigits_le_iff (by decide) hk).2 h

private theorem length_formatU_pos (n : Nat) : 0 < (formatU n).length :=
  List.length_pos_of_ne_nil Nat.toDigits_ne_nil

/-- The values of an `int`. -/
def IsInt (n : Int) : Prop := -2 ^ 31 ≤ n ∧ n < 2 ^ 31

private theorem length_formatD {n : Int} (h : IsInt n) : 0 < (formatD n).length ∧ (formatD n).length ≤ 11 := by
  obtain ⟨h1, h2⟩ := h
  have hpos := length_formatU_pos n.natAbs
  have hle : (formatU n.natAbs).length ≤ 10 := length_formatU_le (by decide) (by omega)
  unfold formatD
  split
  · rw [List.length_cons]
    omega
  · omega

private theorem width_bounds {fwd : Slots Port} {i : Fin rteMaxEthports} (h : IsInt (fwd i).outPortId) :
    6 ≤ width fwd i ∧ width fwd i ≤ 19 := by
  have hmax : rteMaxEthports = 32 := rfl
  have hid : (formatU i).length ≤ 2 := length_formatU_le (by decide) (by have := i.isLt; omega)
  have hpos := length_formatU_pos i
  have htype : 4 ≤ (fwd i).type.text.length ∧ (fwd i).type.text.length ≤ 6 := by
    cases (fwd i).type <;> decide
  obtain ⟨hout1, hout2⟩ := length_formatD h
  unfold width
  omega

/-- The status reply with its terminating NUL fits into the buffer, and so into the 100 bytes that are sent, exactly when
there are at most two active ports, or three whose lines are short enough. -/
theorem statusFits_iff (clientId : UInt8) {fwd : Slots Port} (h : ∀ i, IsInt (fwd i).outPortId) :
    (statusText clientId fwd).length + 1 ≤ msgSize ↔
      (activePorts fwd).length ≤ 2 ∨
        (activePorts fwd).length = 3 ∧
          (formatU clientId.toNat).length + ((activePorts fwd).map (width fwd)).sum ≤ 29 := by
  have hclient : (formatU clientId.toNat).length ≤ 3 :=
    length_formatU_le (by decide) (Nat.lt_trans (UInt8.toNat_lt _) (by decide))
  have hpos := length_formatU_pos clientId.toNat
  have hle : ((activePorts fwd).map (width fwd)).sum ≤ (activePorts fwd).length * 19 := by
    have := List.sum_le_card_nsmul ((activePorts fwd).map (width fwd)) 19
      (by simpa using fun i _ => (width_bounds (h i)).2)
    simpa using this
  have hge : (activePorts fwd).length * 6 ≤ ((activePorts fwd).map (width fwd)).sum := by
    have := List.card_nsmul_le_sum ((activePorts fwd).map (width fwd)) 6
      (by simpa using fun i _ => (width_bounds (h i)).1)
    simpa using this
  rw [length_statusText, msgSize]
  omega

/-- The table after `patch 0 1` and, if `both`, after `patch 2 3` too. -/
def patched (both : Bool) : Slots Port :=
  ((State.init { devs := fun _ => {} }).run
    ((.patch 0 1, {}) :: if both then [(.patch 2 3, {})] else [])).portsFwdArray

theorem statusFits_onePatch : (statusText 1 (patched false)).length + 1 ≤ msgSize :=
  (@statusFits_iff 1 (patched false) (by unfold IsInt; decide +kernel)).2 (Or.inl (by decide +kernel))

/-- Four active ports need 123 bytes. -/
theorem status_overflows : (statusText 1 (patched true)).length + 1 = 123 ∧ msgSize < 123 := by
  decide +kernel

end SoftPatchPanel.Secondary

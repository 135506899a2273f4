import SoftPatchPanel.EthDev
import Mathlib.Data.List.FinRange
import Mathlib.Logic.Function.Basic

/-!
# The pairs of ports

`main` of `l2fwd` scans the ports of the mask and pairs each second one with the one before it.  On the enabled ports,
`l2fwd_dst_ports` is its own inverse, and at most the last port of an odd selection is paired with itself
(`dstPorts_dstPorts`, `dstPorts_eq_self_iff`).
-/

namespace SoftPatchPanel.L2fwd

open EthDev

abbrev PortId := Fin rteMaxEthports

/-! ### The scan -/

/-- The bit of a port in `l2fwd_enabled_port_mask`. -/
def maskBit (mask : UInt32) (portid : PortId) : Bool := mask &&& (1 <<< UInt32.ofNat portid) ≠ 0

/-- The ports that the loops over `portid` visit; `nb_ports` is cut down to `RTE_MAX_ETHPORTS`. -/
def portids (nbPorts : Nat) : List PortId := (List.finRange rteMaxEthports).filter (fun portid => portid.val < nbPorts)

/-- The enabled ports in their order. -/
def enabledPorts (nbPorts : Nat) (mask : UInt32) : List PortId := (portids nbPorts).filter (maskBit mask)

/-- Port 0, with which the variables of the scan start. -/
def portZero : PortId := ⟨0, by decide⟩

/-- The variables of the scan. -/
structure Scan where
  dstPorts : PortId → PortId := fun _ => portZero
  lastPort : PortId := portZero
  nbPortsInMask : Nat := 0

/-- The scan meets an enabled port. -/
def Scan.pair (s : Scan) (portid : PortId) : Scan :=
  if s.nbPortsInMask % 2 = 1 then
    { s with
      dstPorts := Function.update (Function.update s.dstPorts portid s.lastPort) s.lastPort portid
      nbPortsInMask := s.nbPortsInMask + 1 }
  else { s with lastPort := portid, nbPortsInMask := s.nbPortsInMask + 1 }

/-- The loop over the ports. -/
def scan (nbPorts : Nat) (mask : UInt32) : Scan :=
  (portids nbPorts).foldl (fun s portid => if maskBit mask portid then s.pair portid else s) {}

/-- `l2fwd_dst_ports`. -/
def dstPorts (nbPorts : Nat) (mask : UInt32) : PortId → PortId :=
  let s := scan nbPorts mask
  if s.nbPortsInMask % 2 = 1 then Function.update s.dstPorts s.lastPort s.lastPort else s.dstPorts

/-! ### Pairs -/

/-- The ports of a list are paired with each other. -/
private def Paired (dst : PortId → PortId) (ports : List PortId) : Prop :=
  ∀ p ∈ ports, dst p ∈ ports ∧ dst (dst p) = p ∧ dst p ≠ p

/-- All enabled ports so far are paired, but for the last one if their number is odd. -/
private structure Scan.Inv (s : Scan) (ports : List PortId) : Prop where
  nb : s.nbPortsInMask = ports.length
  even : ports.length % 2 = 0 → Paired s.dstPorts ports
  odd : ports.length % 2 = 1 → ∃ init, ports = init ++ [s.lastPort] ∧ Paired s.dstPorts init

private theorem Scan.Inv.pair {s : Scan} {ports : List PortId} {q : PortId} (h : s.Inv ports)
    (hnodup : (ports ++ [q]).Nodup) : (s.pair q).Inv (ports ++ [q]) := by
  have hlen : (ports ++ [q]).length = ports.length + 1 := List.length_append
  rcases Nat.mod_two_eq_zero_or_one ports.length with heven | hodd
  · rw [Scan.pair, if_neg (by rw [h.nb]; omega)]
    exact ⟨by simp [h.nb], fun _ => by omega, fun _ => ⟨ports, rfl, h.even heven⟩⟩
  · obtain ⟨init, rfl, hinit⟩ := h.odd hodd
    rw [Scan.pair, if_pos (by rw [h.nb]; exact hodd)]
    refine ⟨by simp [h.nb], fun _ => ?_, fun _ => by omega⟩
    -- the ports of `init` differ from the two new ones, so they stay as they are
    have hlast : s.lastPort ∉ init := fun hmem =>
      List.disjoint_of_nodup_append hnodup.of_append_left hmem (by simp)
    have hq : q ∉ init ++ [s.lastPort] := fun hmem => List.disjoint_of_nodup_append hnodup hmem (by simp)
    have hne : q ≠ s.lastPort := fun heq => hq (by simp [heq])
    have hkeep : ∀ p ∈ init,
        Function.update (Function.update s.dstPorts q s.lastPort) s.lastPort q p = s.dstPorts p := by
      intro p hp
      have hp1 : p ≠ s.lastPort := fun heq => hlast (heq ▸ hp)
      have hp2 : p ≠ q := fun heq => hq (heq ▸ List.mem_append_left _ hp)
      rw [Function.update_of_ne hp1, Function.update_of_ne hp2]
    intro p hp
    rcases List.mem_append.1 hp with hp | hp
    · rcases List.mem_append.1 hp with hp | hp
      · obtain ⟨hmem, hback, hself⟩ := hinit p hp
        simp only [hkeep p hp, hkeep _ hmem]
        exact ⟨by simp [hmem], hback, hself⟩
      · obtain rfl := List.mem_singleton.1 hp
        simp [hne]
    · obtain rfl := List.mem_singleton.1 hp
      simp [hne, hne.symm]

theorem nodup_enabledPorts (nbPorts : Nat) (mask : UInt32) : (enabledPorts nbPorts mask).Nodup :=
  ((List.nodup_finRange _).filter _).filter _

private theorem scan_inv (nbPorts : Nat) (mask : UInt32) : (scan nbPorts mask).Inv (enabledPorts nbPorts mask) := by
  have hrun : ∀ (ports done : List PortId) (s : Scan), (done ++ ports).Nodup → s.Inv done →
      (ports.foldl Scan.pair s).Inv (done ++ ports) := by
    intro ports
    induction ports with
    | nil =>
      intro done s _ h
      simpa using h
    | cons q ports ih =>
      intro done s hnodup h
      rw [List.append_cons] at hnodup ⊢
      exact ih (done ++ [q]) (s.pair q) hnodup (h.pair hnodup.of_append_left)
  rw [scan, ← List.foldl_filter]
  exact hrun _ [] {} (nodup_enabledPorts nbPorts mask) ⟨rfl, fun _ => nofun, fun h => by simp at h⟩

/-- On the enabled ports, `l2fwd_dst_ports` stays there and is its own inverse; it has no fixed point but the last port
of an odd selection. -/
private theorem dstPorts_spec {nbPorts : Nat} {mask : UInt32} {p : PortId} (hp : p ∈ enabledPorts nbPorts mask) :
    dstPorts nbPorts mask p ∈ enabledPorts nbPorts mask ∧ dstPorts nbPorts mask (dstPorts nbPorts mask p) = p ∧
      (dstPorts nbPorts mask p = p ↔
        (enabledPorts nbPorts mask).length % 2 = 1 ∧ (enabledPorts nbPorts mask).getLast? = some p) := by
  have hinv := scan_inv nbPorts mask
  rcases Nat.mod_two_eq_zero_or_one (enabledPorts nbPorts mask).length with heven | hodd
  · obtain ⟨hmem, hback, hself⟩ := hinv.even heven p hp
    simp only [dstPorts, hinv.nb, heven, Nat.zero_ne_one, if_false]
    exact ⟨hmem, hback, by simp [hself]⟩
  · obtain ⟨init, heq, hinit⟩ := hinv.odd hodd
    simp only [dstPorts, hinv.nb, hodd, if_true]
    have hnodup := nodup_enabledPorts nbPorts mask
    rw [heq] at hp hnodup ⊢
    have hlast : (scan nbPorts mask).lastPort ∉ init := fun hmem =>
      List.disjoint_of_nodup_append hnodup hmem (by simp)
    rcases List.mem_append.1 hp with hp | hp
    · obtain ⟨hmem, hback, hself⟩ := hinit p hp
      have hne : p ≠ (scan nbPorts mask).lastPort := fun h => hlast (h ▸ hp)
      have hne' : (scan nbPorts mask).dstPorts p ≠ (scan nbPorts mask).lastPort := fun h => hlast (h ▸ hmem)
      simp [hne, hne', hmem, hback, hself, Ne.symm hne]
    · obtain rfl := List.mem_singleton.1 hp
      simp

theorem dstPorts_mem {nbPorts : Nat} {mask : UInt32} {p : PortId} (hp : p ∈ enabledPorts nbPorts mask) :
    dstPorts nbPorts mask p ∈ enabledPorts nbPorts mask :=
  (dstPorts_spec hp).1

theorem dstPorts_dstPorts {nbPorts : Nat} {mask : UInt32} {p : PortId} (hp : p ∈ enabledPorts nbPorts mask) :
    dstPorts nbPorts mask (dstPorts nbPorts mask p) = p :=
  (dstPorts_spec hp).2.1

theorem dstPorts_eq_self_iff {nbPorts : Nat} {mask : UInt32} {p : PortId} (hp : p ∈ enabledPorts nbPorts mask) :
    dstPorts nbPorts mask p = p ↔
      (enabledPorts nbPorts mask).length % 2 = 1 ∧ (enabledPorts nbPorts mask).getLast? = some p :=
  (dstPorts_spec hp).2.2

/-- The ports that are sent to are again the enabled ports. -/
theorem map_dstPorts_perm (nbPorts : Nat) (mask : UInt32) :
    ((enabledPorts nbPorts mask).map (dstPorts nbPorts mask)).Perm (enabledPorts nbPorts mask) := by
  have hnodup : ((enabledPorts nbPorts mask).map (dstPorts nbPorts mask)).Nodup := by
    refine (List.nodup_map_iff_inj_on (nodup_enabledPorts nbPorts mask)).2 fun p hp q hq heq => ?_
    rw [← dstPorts_dstPorts hp, heq, dstPorts_dstPorts hq]
  refine (List.perm_ext_iff_of_nodup hnodup (nodup_enabledPorts nbPorts mask)).2 fun q => ?_
  rw [List.mem_map]
  constructor
  · rintro ⟨p, hp, rfl⟩
    exact dstPorts_mem hp
  · intro hq
    exact ⟨_, dstPorts_mem hq, dstPorts_dstPorts hq⟩

end SoftPatchPanel.L2fwd

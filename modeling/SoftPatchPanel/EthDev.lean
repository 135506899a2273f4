import SoftPatchPanel.Lib.CStr
import Mathlib.Data.Fintype.Basic
import Mathlib.Logic.Function.Basic

/-!
# Ethernet devices and the ports made from rings and vhost sockets

The device table of `rte_ethdev.c` and the two functions with which a secondary makes a port of its own,
`rte_eth_from_rings` and `rte_eth_from_vhost`.  The calls that can fail for lack of memory are counted from 0 in the
order the source makes them, and an argument says for each number whether that call succeeds.
-/

namespace SoftPatchPanel.EthDev

open Lib

/-- `RTE_MAX_ETHPORTS`, the dimension of `rte_eth_devices`. -/
abbrev rteMaxEthports : Nat := 32

/-- `RTE_ETH_NAME_MAX_LEN`. -/
def rteEthNameMaxLen : Nat := 32

/-- `enum rte_eth_dev_type`. -/
inductive DevType where
  | unknown
  | pci
  | virtual
deriving DecidableEq

/-- The fields of `struct rte_eth_dev` and its data that the allocation works with. -/
structure Dev where
  attached : Bool := false
  name : CStr := []
  devType : DevType := .unknown
deriving DecidableEq

/-- `rte_eth_devices`. -/
abbrev DevTable := Fin rteMaxEthports → Dev

/-- `rte_eth_dev_allocated`. -/
def rteEthDevAllocated (devs : DevTable) (name : CStr) : Option (Fin rteMaxEthports) :=
  (List.finRange rteMaxEthports).find? (fun i => (devs i).attached ∧ (devs i).name = name)

/-- `rte_eth_dev_find_free_port`; `none` for `RTE_MAX_ETHPORTS`. -/
def rteEthDevFindFreePort (devs : DevTable) : Option (Fin rteMaxEthports) :=
  (List.finRange rteMaxEthports).find? (fun i => (devs i).attached = false)

/-- `rte_eth_dev_allocate`: the port and the table with it. -/
def rteEthDevAllocate (devs : DevTable) (name : CStr) (devType : DevType) :
    Option (Fin rteMaxEthports × DevTable) :=
  match rteEthDevFindFreePort devs with
  | none => none
  | some portId =>
    match rteEthDevAllocated devs name with
    | some _ => none
    | none => some (portId, Function.update devs portId ⟨true, snprintf rteEthNameMaxLen name, devType⟩)

/-- What `rte_eth_from_vhost_create` stores in `internals_list`. -/
structure Internal where
  devName : CStr
  ifaceName : CStr
deriving DecidableEq

/-- The state that making a port changes: the device table and the vhost driver's `internals_list`. -/
structure Ports where
  devs : DevTable
  internals : List Internal := []

/-- `rte_eth_from_rings` with one ring in each direction, for a ring called `name`: the port id or `-1`, and the state
afterwards. -/
def rteEthFromRings (alloc : Nat → Bool) (ports : Ports) (name : CStr) : Int × Ports :=
  if alloc 0 ∧ alloc 1 ∧ alloc 2 ∧ alloc 3 then
    match rteEthDevAllocate ports.devs name .virtual with
    | none => (-1, ports)
    | some (portId, devs) => (portId, { ports with devs := devs })
  else (-1, ports)

/-- `rte_eth_from_vhost_create`.  When a `strdup` fails the device stays attached. -/
def rteEthFromVhostCreate (alloc : Nat → Bool) (ports : Ports) (name ifaceName : CStr) : Int × Ports :=
  if alloc 0 ∧ alloc 1 ∧ alloc 2 ∧ alloc 3 ∧ alloc 4 ∧ alloc 5 then
    match rteEthDevAllocate ports.devs name .virtual with
    | none => (-1, ports)
    | some (portId, devs) =>
      if alloc 6 ∧ alloc 7 then
        (portId, { devs := devs, internals := ports.internals ++ [⟨name, ifaceName⟩] })
      else (-1, { ports with devs := devs })
  else (-1, ports)

/-- `rte_eth_from_vhost`, where `register` is what `rte_vhost_driver_register` returns. -/
def rteEthFromVhost (alloc : Nat → Bool) (register : Int) (ports : Ports) (name ifaceName : CStr) : Int × Ports :=
  match rteEthFromVhostCreate alloc ports name ifaceName with
  | (portId, ports') => if 0 ≤ portId ∧ register < 0 then (register, ports') else (portId, ports')

/-! ### When a port is made -/

theorem rteEthDevFindFreePort_eq_some {devs : DevTable} {p : Fin rteMaxEthports} :
    rteEthDevFindFreePort devs = some p ↔ (devs p).attached = false ∧ ∀ i < p, (devs i).attached := by
  unfold rteEthDevFindFreePort
  rw [List.find?_eq_some_iff_getElem]
  simp only [decide_eq_true_eq, List.getElem_finRange, Fin.cast_mk]
  constructor
  · rintro ⟨h, i, hi, rfl, hall⟩
    refine ⟨h, fun j hj => ?_⟩
    simpa using hall j hj
  · rintro ⟨h, hall⟩
    exact ⟨h, p, by simp, rfl, fun j hj => by simpa using hall ⟨j, by omega⟩ hj⟩

theorem rteEthDevAllocated_eq_none {devs : DevTable} {name : CStr} :
    rteEthDevAllocated devs name = none ↔ ∀ i, (devs i).attached → (devs i).name ≠ name := by
  unfold rteEthDevAllocated
  rw [List.find?_eq_none]
  simp

/-- The first `k` devices are attached and no others. -/
def Filled (devs : DevTable) (k : Nat) : Prop := ∀ i, (devs i).attached ↔ (i : Nat) < k

/-- With the first `k` devices attached, the next one is device `k`. -/
theorem rteEthDevAllocate_filled {devs : DevTable} {k : Nat} (hk : k < rteMaxEthports) (hf : Filled devs k)
    {name : CStr} (hname : ∀ i, (devs i).attached → (devs i).name ≠ name) (devType : DevType) :
    rteEthDevAllocate devs name devType =
      some (⟨k, hk⟩, Function.update devs ⟨k, hk⟩ ⟨true, snprintf rteEthNameMaxLen name, devType⟩) := by
  have hfree : rteEthDevFindFreePort devs = some ⟨k, hk⟩ := by
    rw [rteEthDevFindFreePort_eq_some]
    refine ⟨?_, fun i hi => (hf i).2 hi⟩
    rw [Bool.eq_false_iff]
    exact fun h => absurd ((hf _).1 h) (Nat.lt_irrefl k)
  rw [rteEthDevAllocate, hfree, rteEthDevAllocated_eq_none.2 hname]

theorem Filled.update {devs : DevTable} {k : Nat} (hk : k < rteMaxEthports) (hf : Filled devs k) {dev : Dev}
    (hdev : dev.attached) : Filled (Function.update devs ⟨k, hk⟩ dev) (k + 1) := by
  intro i
  by_cases h : i = ⟨k, hk⟩
  · subst h
    simp [hdev]
  · have hne : (i : Nat) ≠ k := fun h' => h (Fin.ext h')
    rw [Function.update_of_ne h, hf i]
    omega

/-! ### When a port is not made -/

/-- After a failed call the same ports are attached, `internals_list` is the same, and a later call for the same name
returns what it would have returned before. -/
structure LeavesNothing (ports ports' : Ports) (name ifaceName : CStr) : Prop where
  attached : ∀ i, (ports'.devs i).attached = (ports.devs i).attached
  internals : ports'.internals = ports.internals
  retry : ∀ alloc register, (rteEthFromVhost alloc register ports' name ifaceName).1 =
    (rteEthFromVhost alloc register ports name ifaceName).1

/-- `rte_eth_from_vhost` fails after it has reserved the port: a `strdup` fails, or the vhost driver is not
registered. -/
def FailsAttached (alloc : Nat → Bool) (register : Int) (ports : Ports) (name : CStr) : Prop :=
  (∀ i < 6, alloc i) ∧ (rteEthDevAllocate ports.devs name .virtual).isSome ∧
    (alloc 6 = false ∨ alloc 7 = false ∨ register < 0)

private theorem rteEthDevAllocate_attached {devs devs' : DevTable} {name : CStr} {devType : DevType}
    {p : Fin rteMaxEthports} (h : rteEthDevAllocate devs name devType = some (p, devs')) :
    (devs p).attached = false ∧ (devs' p).attached = true := by
  unfold rteEthDevAllocate at h
  split at h
  · cases h
  · rename_i portId hfree
    split at h
    · cases h
    · cases h
      exact ⟨(rteEthDevFindFreePort_eq_some.1 hfree).1, by simp⟩

/-- A call that fails before it has reserved a port leaves the state alone. -/
private theorem rteEthFromVhost_early {alloc : Nat → Bool} {ports : Ports} {name : CStr}
    (h : ¬((∀ i < 6, alloc i) ∧ (rteEthDevAllocate ports.devs name .virtual).isSome)) (register : Int)
    (ifaceName : CStr) : rteEthFromVhost alloc register ports name ifaceName = (-1, ports) := by
  have hcreate : rteEthFromVhostCreate alloc ports name ifaceName = (-1, ports) := by
    unfold rteEthFromVhostCreate
    split
    · rename_i hall
      have hsix : ∀ i < 6, alloc i := by
        intro i hi
        obtain ⟨h0, h1, h2, h3, h4, h5⟩ := hall
        match i, hi with
        | 0, _ => exact h0
        | 1, _ => exact h1
        | 2, _ => exact h2
        | 3, _ => exact h3
        | 4, _ => exact h4
        | 5, _ => exact h5
      have hnone : rteEthDevAllocate ports.devs name .virtual = none := by
        rw [← Option.not_isSome_iff_eq_none]
        exact fun hsome => h ⟨hsix, hsome⟩
      rw [hnone]
    · rfl
  unfold rteEthFromVhost
  rw [hcreate]
  simp

/-- With the memory for the port and a free place for it, the port is reserved whatever happens next. -/
private theorem rteEthFromVhost_reserved {alloc : Nat → Bool} {ports : Ports} {name : CStr} (hsix : ∀ i < 6, alloc i)
    {p : Fin rteMaxEthports} {devs : DevTable} (hdev : rteEthDevAllocate ports.devs name .virtual = some (p, devs))
    (register : Int) (ifaceName : CStr) :
    (rteEthFromVhost alloc register ports name ifaceName).2.devs = devs ∧
      ((rteEthFromVhost alloc register ports name ifaceName).1 < 0 ↔
        alloc 6 = false ∨ alloc 7 = false ∨ register < 0) := by
  have hcreate : rteEthFromVhostCreate alloc ports name ifaceName =
      if alloc 6 ∧ alloc 7 then (↑↑p, { devs := devs, internals := ports.internals ++ [⟨name, ifaceName⟩] })
      else (-1, { ports with devs := devs }) := by
    unfold rteEthFromVhostCreate
    rw [if_pos ⟨hsix 0 (by decide), hsix 1 (by decide), hsix 2 (by decide), hsix 3 (by decide),
      hsix 4 (by decide), hsix 5 (by decide)⟩, hdev]
  have hp : (0 : Int) ≤ (p : Nat) := Int.natCast_nonneg _
  unfold rteEthFromVhost
  rw [hcreate]
  by_cases hdup : alloc 6 ∧ alloc 7
  · rw [if_pos hdup]
    by_cases hreg : register < 0
    · simp [hdup.1, hdup.2, hreg, hp]
    · simp [hdup.1, hdup.2, hreg, hp]
  · rw [if_neg hdup]
    refine ⟨by simp, ?_⟩
    have : alloc 6 = false ∨ alloc 7 = false := by
      rw [not_and_or] at hdup
      simpa using hdup
    simp only [Int.reduceNeg, Int.reduceLE, false_and, ↓reduceIte, Int.reduceLT, true_iff]
    tauto

/-- A failed `rte_eth_from_vhost` leaves nothing behind exactly when it fails before the port is reserved: the shared
error label frees memory, but it does not release the port, and after the registration nothing is undone at all. -/
theorem rteEthFromVhost_leavesNothing_iff (alloc : Nat → Bool) (register : Int) (ports : Ports)
    (name ifaceName : CStr) :
    ((rteEthFromVhost alloc register ports name ifaceName).1 < 0 →
      LeavesNothing ports (rteEthFromVhost alloc register ports name ifaceName).2 name ifaceName) ↔
    ¬FailsAttached alloc register ports name := by
  constructor
  · rintro h ⟨hsix, hsome, hlate⟩
    obtain ⟨⟨p, devs⟩, hdev⟩ := Option.isSome_iff_exists.1 hsome
    obtain ⟨hdevs, hneg⟩ := rteEthFromVhost_reserved hsix hdev register ifaceName
    have hsame := (h (hneg.2 hlate)).attached p
    obtain ⟨hbefore, hafter⟩ := rteEthDevAllocate_attached hdev
    rw [hdevs, hbefore, hafter] at hsame
    cases hsame
  · intro h hneg
    have hearly : ¬((∀ i < 6, alloc i) ∧ (rteEthDevAllocate ports.devs name .virtual).isSome) := by
      rintro ⟨hsix, hsome⟩
      obtain ⟨⟨p, devs⟩, hdev⟩ := Option.isSome_iff_exists.1 hsome
      exact h ⟨hsix, hsome, (rteEthFromVhost_reserved hsix hdev register ifaceName).2.1 hneg⟩
    rw [rteEthFromVhost_early hearly]
    exact ⟨fun _ => rfl, rfl, fun _ _ => rfl⟩

/-- With an empty device table: when the first `strdup` fails, port 0 stays attached, and when the registration fails,
the record of the port stays as well; both times a second call for the same name fails with everything available. -/
theorem rteEthFromVhost_leftovers :
    ((rteEthFromVhost (fun n => n ≠ 6) 0 ⟨fun _ => {}, []⟩ "eth_vhost0".toList "/tmp/sock0".toList).1 = -1 ∧
      ((rteEthFromVhost (fun n => n ≠ 6) 0 ⟨fun _ => {}, []⟩ "eth_vhost0".toList "/tmp/sock0".toList).2.devs
        ⟨0, by decide⟩).attached = true ∧
      (rteEthFromVhost (fun _ => true) 0
        (rteEthFromVhost (fun n => n ≠ 6) 0 ⟨fun _ => {}, []⟩ "eth_vhost0".toList "/tmp/sock0".toList).2
        "eth_vhost0".toList "/tmp/sock0".toList).1 = -1) ∧
    (rteEthFromVhost (fun _ => true) (-1) ⟨fun _ => {}, []⟩ "eth_vhost0".toList "/tmp/sock0".toList).1 = -1 ∧
    (rteEthFromVhost (fun _ => true) (-1) ⟨fun _ => {}, []⟩ "eth_vhost0".toList "/tmp/sock0".toList).2.internals =
      [⟨"eth_vhost0".toList, "/tmp/sock0".toList⟩] ∧
    (rteEthFromVhost (fun _ => true) 0
      (rteEthFromVhost (fun _ => true) (-1) ⟨fun _ => {}, []⟩ "eth_vhost0".toList "/tmp/sock0".toList).2
      "eth_vhost0".toList "/tmp/sock0".toList).1 = -1 := by
  decide +kernel

end SoftPatchPanel.EthDev

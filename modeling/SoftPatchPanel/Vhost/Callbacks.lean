import SoftPatchPanel.EthDev
import SoftPatchPanel.Lib.Runs
import SoftPatchPanel.Vhost.Pmd

/-!
# Several guests on one port

`new_device` finds its port by the name of the interface, so that all guests that connect to one socket share a port,
and `destroy_device` finds it by what `new_device` left in the device.  It clears the port without a look at the device
that the queues have by then.

The port follows the guest that came last exactly when a guest that is not the last one goes only after the last one
has gone (`follows_latest_iff`).
-/

namespace SoftPatchPanel.Vhost

open EthDev Lib

/-! ### The callbacks -/

/-- The vhost ports by their port ids, and the field `priv` of each device. -/
structure Driver (nRx nTx : Nat) (δ : Type) where
  ports : Ports
  pmd : Fin rteMaxEthports → Pmd nRx nTx δ := fun _ => {}
  priv : δ → Option (Fin rteMaxEthports) := fun _ => none

/-- `find_internal_resource`. -/
def findInternalResource (internals : List Internal) (ifname : CStr) : Option Internal :=
  internals.find? (fun internal => internal.ifaceName = ifname)

/-- A call of one of the callbacks. -/
inductive Call (δ : Type) where
  | newDevice (d : δ)
  | destroyDevice (d : δ)

/-- The device that a callback is about. -/
def Call.device {δ : Type} : Call δ → δ
  | .newDevice d | .destroyDevice d => d

section

variable {nRx nTx : Nat} {δ : Type} [DecidableEq δ] (ifname : δ → CStr)

/-- `new_device`, with its return value. -/
def newDevice (s : Driver nRx nTx δ) (d : δ) : Int × Driver nRx nTx δ :=
  match findInternalResource s.ports.internals (ifname d) with
  | none => (-1, s)
  | some internal =>
    match rteEthDevAllocated s.ports.devs internal.devName with
    | none => (-1, s)
    | some ethDev =>
      (0, { s with
        pmd := Function.update s.pmd ethDev ((s.pmd ethDev).newDevice d)
        priv := Function.update s.priv d (some ethDev) })

/-- `destroy_device`. -/
def destroyDevice (s : Driver nRx nTx δ) (d : δ) : Driver nRx nTx δ :=
  match s.priv d with
  | none => s
  | some ethDev =>
    { s with
      pmd := Function.update s.pmd ethDev (s.pmd ethDev).destroyDevice
      priv := Function.update s.priv d none }

/-- What a callback does. -/
def Driver.step (s : Driver nRx nTx δ) : Call δ → Driver nRx nTx δ
  | .newDevice d => (newDevice ifname s d).2
  | .destroyDevice d => destroyDevice s d

end

/-! ### The guests -/

/-- The driver together with its guests: the one that was attached last, and those that are attached and not
destroyed. -/
structure Session (nRx nTx : Nat) (δ : Type) where
  driver : Driver nRx nTx δ
  latest : Option δ := none
  live : δ → Bool := fun _ => false

section

variable {nRx nTx : Nat} {δ : Type} [DecidableEq δ]

/-- The last guest, if it has not been destroyed. -/
def Session.current (s : Session nRx nTx δ) : Option δ := s.latest.filter s.live

/-- A guest comes or goes. -/
def Session.step (ifname : δ → CStr) (s : Session nRx nTx δ) (c : Call δ) : Session nRx nTx δ :=
  match c with
  | .newDevice d => ⟨s.driver.step ifname c, some d, Function.update s.live d true⟩
  | .destroyDevice d => ⟨s.driver.step ifname c, s.latest, Function.update s.live d false⟩

/-- Callbacks one after another. -/
def Session.run (ifname : δ → CStr) (s : Session nRx nTx δ) (calls : List (Call δ)) : Session nRx nTx δ :=
  calls.foldl (Session.step ifname) s

/-- The port serves the last guest, or nobody when that one is gone. -/
def Session.Follows (port : Fin rteMaxEthports) (s : Session nRx nTx δ) : Prop :=
  match s.current with
  | some d =>
    (s.driver.pmd port).xfer = true ∧ (s.driver.pmd port).linkStatus = true ∧
      ∀ q, (s.driver.pmd port).device q = some d
  | none => (s.driver.pmd port).xfer = false ∧ ∀ q, (s.driver.pmd port).device q = none

/-- The guests share the interface `name`, and a device is destroyed only after being attached, and once. -/
def Session.Allows (ifname : δ → CStr) (name : CStr) (s : Session nRx nTx δ) (c : Call δ) : Prop :=
  ifname c.device = name ∧ ∀ d, c = .destroyDevice d → s.live d = true

/-- A guest that is not the last one goes only after the last one has gone. -/
def Session.LastFirst (s : Session nRx nTx δ) (c : Call δ) : Prop :=
  ∀ d, c = .destroyDevice d → s.latest = some d ∨ s.current = none

/-! ### One callback -/

/-- The interface `name` leads to the port. -/
def Leads (ports : Ports) (name : CStr) (port : Fin rteMaxEthports) : Prop :=
  ∃ internal, findInternalResource ports.internals name = some internal ∧
    rteEthDevAllocated ports.devs internal.devName = some port

/-- Every attached guest knows the port. -/
structure Session.Serves (name : CStr) (port : Fin rteMaxEthports) (s : Session nRx nTx δ) : Prop where
  leads : Leads s.driver.ports name port
  priv : ∀ d, s.live d = true → s.driver.priv d = some port

variable {ifname : δ → CStr} {name : CStr} {port : Fin rteMaxEthports}

private theorem newDevice_eq {s : Driver nRx nTx δ} {d : δ} (h : Leads s.ports (ifname d) port) :
    newDevice ifname s d =
      (0, { s with
        pmd := Function.update s.pmd port ((s.pmd port).newDevice d)
        priv := Function.update s.priv d (some port) }) := by
  obtain ⟨internal, hfind, hdev⟩ := h
  simp [newDevice, hfind, hdev]

private theorem destroyDevice_eq {s : Driver nRx nTx δ} {d : δ} (h : s.priv d = some port) :
    destroyDevice s d =
      { s with
        pmd := Function.update s.pmd port (s.pmd port).destroyDevice
        priv := Function.update s.priv d none } := by
  simp [destroyDevice, h]

variable {s : Session nRx nTx δ} {c : Call δ}

private theorem Session.Serves.step (h : s.Serves name port) (hok : s.Allows ifname name c) :
    (s.step ifname c).Serves name port := by
  obtain ⟨hleads, hpriv⟩ := h
  obtain ⟨hname, hlive⟩ := hok
  cases c with
  | newDevice d =>
    rw [Session.step, Driver.step, newDevice_eq (hname ▸ hleads)]
    refine ⟨hleads, fun e he => ?_⟩
    by_cases hed : e = d
    · simp [hed]
    · simpa [hed] using hpriv e (by simpa [hed] using he)
  | destroyDevice d =>
    rw [Session.step, Driver.step, destroyDevice_eq (hpriv d (hlive d rfl))]
    refine ⟨hleads, fun e he => ?_⟩
    by_cases hed : e = d
    · simp [hed] at he
    · simpa [hed] using hpriv e (by simpa [hed] using he)

private theorem current_destroy (s : Session nRx nTx δ) (d : δ) :
    (s.step ifname (.destroyDevice d)).current = none ↔ s.latest = some d ∨ s.current = none := by
  obtain ⟨driver, latest, live⟩ := s
  cases latest with
  | none => simp [Session.step, Session.current]
  | some e =>
    by_cases hed : e = d
    · simp [Session.step, Session.current, Option.filter, hed]
    · simp [Session.step, Session.current, Option.filter, hed]

private theorem follows_step_iff (h : s.Serves name port) (hok : s.Allows ifname name c) :
    (s.step ifname c).Follows port ↔ s.LastFirst c := by
  obtain ⟨hleads, hpriv⟩ := h
  obtain ⟨hname, hlive⟩ := hok
  cases c with
  | newDevice d =>
    refine iff_of_true ?_ (fun d h => by cases h)
    have hcurrent : (s.step ifname (.newDevice d)).current = some d := by
      simp [Session.step, Session.current, Option.filter]
    rw [Session.Follows, hcurrent, Session.step, Driver.step, newDevice_eq (hname ▸ hleads)]
    simp [Pmd.newDevice_eq]
  | destroyDevice d =>
    have hlast : s.LastFirst (.destroyDevice d) ↔ (s.step ifname (.destroyDevice d)).current = none := by
      rw [current_destroy]
      exact ⟨fun h => h d rfl, fun h e he => by cases he; exact h⟩
    rw [hlast, Session.Follows]
    have hpmd : (s.step ifname (.destroyDevice d)).driver.pmd port = (s.driver.pmd port).destroyDevice := by
      rw [Session.step, Driver.step, destroyDevice_eq (hpriv d (hlive d rfl))]
      exact Function.update_self ..
    rw [hpmd, Pmd.destroyDevice_eq]
    cases (s.step ifname (.destroyDevice d)).current <;> simp

end

/-! ### Runs -/

/-- Any number of guests come and go on one port.  After every callback the port serves the guest that was attached
last, or nobody when that one has been destroyed, exactly when every guest that is destroyed is the last one or goes
after the last one. -/
theorem follows_latest_iff {nRx nTx : Nat} {δ : Type} [DecidableEq δ] {ifname : δ → CStr} {ports : Ports} {name : CStr}
    {port : Fin rteMaxEthports} (hport : Leads ports name port) {calls : List (Call δ)}
    (hok : Along (Session.step ifname) (Session.Allows ifname name)
      ({ driver := { ports := ports } } : Session nRx nTx δ) calls) :
    (∀ k, (Session.run ifname ({ driver := { ports := ports } } : Session nRx nTx δ) (calls.take k)).Follows port) ↔
      Along (Session.step ifname) Session.LastFirst ({ driver := { ports := ports } } : Session nRx nTx δ) calls :=
  forall_take_iff_along (I := Session.Serves name port) (fun h hok => h.step hok)
    (fun h hok _ => follows_step_iff h hok) ⟨hport, fun _ h => by cases h⟩ hok ⟨rfl, fun _ => rfl⟩

/-- The vhost port 0. -/
def onePort : Ports where
  devs := fun i => if i = 0 then ⟨true, "eth_vhost0".toList, .virtual⟩ else {}
  internals := [⟨"eth_vhost0".toList, "/tmp/sock0".toList⟩]

private theorem onePort_leads : Leads onePort "/tmp/sock0".toList 0 :=
  ⟨⟨"eth_vhost0".toList, "/tmp/sock0".toList⟩, by decide +kernel, by decide +kernel⟩

/-- A guest connects again after its first session is torn down. -/
theorem follows_latest_reconnect :
    (Session.run (fun _ => "/tmp/sock0".toList) ({ driver := { ports := onePort } } : Session 1 1 Bool)
      [.newDevice false, .destroyDevice false, .newDevice true]).Follows 0 := by
  have hok : Along (Session.step fun _ => "/tmp/sock0".toList)
      (Session.Allows (fun _ => "/tmp/sock0".toList) "/tmp/sock0".toList)
      ({ driver := { ports := onePort } } : Session 1 1 Bool)
      [.newDevice false, .destroyDevice false, .newDevice true] := by
    refine ⟨⟨rfl, nofun⟩, ⟨rfl, fun d h => ?_⟩, ⟨rfl, nofun⟩, trivial⟩
    cases h
    rfl
  refine (follows_latest_iff onePort_leads hok).2 ?_ 3
  refine ⟨nofun, fun d h => ?_, nofun, trivial⟩
  cases h
  exact Or.inl rfl

/-- A guest connects again before its first session is torn down, and then the port serves nobody. -/
theorem reconnect_not_followed :
    Along (Session.step fun _ => "/tmp/sock0".toList) (Session.Allows (fun _ => "/tmp/sock0".toList) "/tmp/sock0".toList)
        ({ driver := { ports := onePort } } : Session 1 1 Bool)
        [.newDevice false, .newDevice true, .destroyDevice false] ∧
      ¬(Session.run (fun _ => "/tmp/sock0".toList) ({ driver := { ports := onePort } } : Session 1 1 Bool)
        [.newDevice false, .newDevice true, .destroyDevice false]).Follows 0 := by
  constructor
  · refine ⟨⟨rfl, nofun⟩, ⟨rfl, nofun⟩, ⟨rfl, fun d h => ?_⟩, trivial⟩
    cases h
    rfl
  · intro h
    have hxfer : ((Session.run (fun _ => "/tmp/sock0".toList) ({ driver := { ports := onePort } } : Session 1 1 Bool)
        [.newDevice false, .newDevice true, .destroyDevice false]).driver.pmd 0).xfer = true := h.1
    revert hxfer
    decide +kernel

end SoftPatchPanel.Vhost

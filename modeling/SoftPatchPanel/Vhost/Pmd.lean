import SoftPatchPanel.Lib.Interleaving
import Mathlib.Data.List.FinRange

/-!
# The vhost driver

The data of a vhost port, `pmd_internal` and its queues, with the functions of `rte_eth_vhost.c` that read and write
them: the burst functions of the pollers, and the callbacks of the thread that handles the guests.

Both are given as their single reads and writes, to be interleaved (`Poll.Move`, `Callback.Move`), and the callbacks
also as functions (`Pmd.newDevice`, `Pmd.destroyDevice`); a callback that runs alone is the function
(`newDevice_run`, `destroyDevice_run`).
-/

namespace SoftPatchPanel.Vhost

open Lib

/-- The receive queues and the transmit queues of a port. -/
inductive Queue (nRx nTx : Nat) where
  | rx (i : Fin nRx)
  | tx (i : Fin nTx)
deriving DecidableEq

/-- The order in which the callbacks go over the queues. -/
def queues (nRx nTx : Nat) : List (Queue nRx nTx) :=
  (List.finRange nRx).map .rx ++ (List.finRange nTx).map .tx

theorem mem_queues {nRx nTx : Nat} (q : Queue nRx nTx) : q ∈ queues nRx nTx := by
  cases q <;> simp [queues]

/-- `pmd_internal` and the link status of its port.  `internal` says that the pointer of a queue to its `pmd_internal`
is set, `executing` is `rx_executing` of a receive queue and `tx_executing` of a transmit queue. -/
structure Pmd (nRx nTx : Nat) (δ : Type) where
  xfer : Bool := false
  linkStatus : Bool := false
  device : Queue nRx nTx → Option δ := fun _ => none
  internal : Queue nRx nTx → Bool := fun _ => false
  executing : Queue nRx nTx → Bool := fun _ => false

section

variable {nRx nTx : Nat} {δ : Type}

/-! ### The callbacks as functions -/

/-- The loops of `new_device` for the queues `qs`. -/
def Pmd.setDevices (s : Pmd nRx nTx δ) (d : δ) (qs : List (Queue nRx nTx)) : Pmd nRx nTx δ :=
  qs.foldl
    (fun s q => { s with device := Function.update s.device q (some d), internal := Function.update s.internal q true }) s

/-- The stores of `new_device` to the port. -/
def Pmd.newDevice (s : Pmd nRx nTx δ) (d : δ) : Pmd nRx nTx δ :=
  { s.setDevices d (queues nRx nTx) with linkStatus := true, xfer := true }

/-- The last loops of `destroy_device`, for the queues `qs`. -/
def Pmd.clearDevices (s : Pmd nRx nTx δ) (qs : List (Queue nRx nTx)) : Pmd nRx nTx δ :=
  qs.foldl (fun s q => { s with device := Function.update s.device q none }) s

/-- The stores of `destroy_device` to the port; the waits for the pollers are over. -/
def Pmd.destroyDevice (s : Pmd nRx nTx δ) : Pmd nRx nTx δ :=
  Pmd.clearDevices { s with xfer := false, linkStatus := false } (queues nRx nTx)

private theorem setDevices_eq (s : Pmd nRx nTx δ) (d : δ) (qs : List (Queue nRx nTx)) :
    s.setDevices d qs =
      { s with
        device := fun q => if q ∈ qs then some d else s.device q
        internal := fun q => if q ∈ qs then true else s.internal q } := by
  induction qs generalizing s with
  | nil => simp [Pmd.setDevices]
  | cons q qs ih =>
    have hcons : s.setDevices d (q :: qs) = Pmd.setDevices
        { s with device := Function.update s.device q (some d), internal := Function.update s.internal q true } d qs :=
      rfl
    rw [hcons, ih]
    congr 1 <;> funext r <;> by_cases hr : r = q <;> simp [hr]

private theorem clearDevices_eq (s : Pmd nRx nTx δ) (qs : List (Queue nRx nTx)) :
    s.clearDevices qs = { s with device := fun q => if q ∈ qs then none else s.device q } := by
  induction qs generalizing s with
  | nil => simp [Pmd.clearDevices]
  | cons q qs ih =>
    have hcons : s.clearDevices (q :: qs) =
        Pmd.clearDevices { s with device := Function.update s.device q none } qs := rfl
    rw [hcons, ih]
    congr 1
    funext r
    by_cases hr : r = q <;> simp [hr]

theorem Pmd.newDevice_eq (s : Pmd nRx nTx δ) (d : δ) :
    s.newDevice d =
      { xfer := true, linkStatus := true, device := fun _ => some d, internal := fun _ => true,
        executing := s.executing } := by
  simp [Pmd.newDevice, setDevices_eq, mem_queues]

theorem Pmd.destroyDevice_eq (s : Pmd nRx nTx δ) :
    s.destroyDevice = { s with xfer := false, linkStatus := false, device := fun _ => none } := by
  simp [Pmd.destroyDevice, clearDevices_eq, mem_queues]

/-! ### Polling -/

/-- Where a poller is in `eth_vhost_rx` or `eth_vhost_tx`. -/
inductive Poll (δ : Type) where
  /-- Outside. -/
  | out
  /-- At the test of `internal`. -/
  | testInternal
  /-- At the read of `internal` for the first test of `xfer`. -/
  | loadInternal
  /-- At the first test of `xfer`. -/
  | testXfer
  /-- At the store to `rx_executing` or `tx_executing` before the transfer. -/
  | announce
  /-- At the read of `internal` for the second test of `xfer`. -/
  | reloadInternal
  /-- At the second test of `xfer`. -/
  | retestXfer
  /-- At the read of `device`. -/
  | readDevice
  /-- Inside `rte_vhost_dequeue_burst` or `rte_vhost_enqueue_burst` for the device `v`. -/
  | burst (v : Option δ)
  /-- At the store to `rx_executing` or `tx_executing` at the label `out`. -/
  | finish

/-- The moves of the poller of queue `q`; the counters of the queue are left out. -/
inductive Poll.Move (q : Queue nRx nTx) : Pmd nRx nTx δ → Poll δ → Pmd nRx nTx δ → Poll δ → Prop where
  | call {s} : Move q s .out s .testInternal
  | noInternal {s} (h : s.internal q = false) : Move q s .testInternal s .out
  | hasInternal {s} (h : s.internal q = true) : Move q s .testInternal s .loadInternal
  | load {s} (h : s.internal q = true) : Move q s .loadInternal s .testXfer
  | disabled {s} (h : s.xfer = false) : Move q s .testXfer s .out
  | enabled {s} (h : s.xfer = true) : Move q s .testXfer s .announce
  | announce {s} : Move q s .announce { s with executing := Function.update s.executing q true } .reloadInternal
  | reload {s} (h : s.internal q = true) : Move q s .reloadInternal s .retestXfer
  | disabledNow {s} (h : s.xfer = false) : Move q s .retestXfer s .finish
  | enabledStill {s} (h : s.xfer = true) : Move q s .retestXfer s .readDevice
  | device {s} : Move q s .readDevice s (.burst (s.device q))
  | burst {s v} : Move q s (.burst v) s .finish
  | finish {s} : Move q s .finish { s with executing := Function.update s.executing q false } .out

/-- A poll while `xfer` is set gets to its burst. -/
theorem poll_run {s : Pmd nRx nTx δ} {q : Queue nRx nTx} (hxfer : s.xfer = true) (hinternal : s.internal q = true) :
    Relation.ReflTransGen (fun a b : Pmd nRx nTx δ × Poll δ => Poll.Move q a.1 a.2 b.1 b.2) (s, .out)
      ({ s with executing := Function.update s.executing q true }, .burst (s.device q)) := by
  generalize hannounced : { s with executing := Function.update s.executing q true } = s'
  refine .head (b := (s, .testInternal)) .call ?_
  refine .head (b := (s, .loadInternal)) (.hasInternal hinternal) ?_
  refine .head (b := (s, .testXfer)) (.load hinternal) ?_
  refine .head (b := (s, .announce)) (.enabled hxfer) ?_
  refine .head (b := (s', .reloadInternal)) (hannounced ▸ .announce) ?_
  refine .head (b := (s', .retestXfer)) (.reload (hannounced ▸ hinternal)) ?_
  refine .head (b := (s', .readDevice)) (.enabledStill (hannounced ▸ hxfer)) ?_
  exact .single (hannounced ▸ .device)

/-! ### The thread of the callbacks -/

/-- Where the thread is in `new_device` or `destroy_device`; a list has the queues that a loop still has to do.  The
fields of the device itself, `flags` and `priv`, are left out: no poller reads them. -/
inductive Callback (nRx nTx : Nat) (δ : Type) where
  /-- Outside. -/
  | out
  /-- `new_device` at the store to `device`. -/
  | setDevice (d : δ) (rest : List (Queue nRx nTx))
  /-- `new_device` at the store to `internal` of queue `q`. -/
  | setInternal (d : δ) (q : Queue nRx nTx) (rest : List (Queue nRx nTx))
  | setLink (d : δ)
  | setXfer (d : δ)
  /-- `destroy_device` at the store to `xfer`. -/
  | stopXfer (d : δ)
  /-- `destroy_device` at a read of `rx_executing` or `tx_executing`. -/
  | wait (d : δ) (rest : List (Queue nRx nTx))
  | stopLink (d : δ)
  /-- `destroy_device` at the store to `device`. -/
  | clearDevice (d : δ) (rest : List (Queue nRx nTx))
  /-- `destroy_device` at its end. -/
  | ret (d : δ)

/-- What the pollers and the thread of the callbacks share, with the thread itself.  `attached` is the device for which
`new_device` was called and `destroy_device` has not returned yet, `gone` are the devices for which it has returned and
that have not come back since. -/
structure Port (nRx nTx : Nat) (δ : Type) where
  pmd : Pmd nRx nTx δ := {}
  callback : Callback nRx nTx δ := .out
  attached : Option δ := none
  gone : δ → Bool := fun _ => false

/-- The moves of the thread.  A device is attached when none is, and what is destroyed is the attached device. -/
inductive Callback.Move [DecidableEq δ] : Port nRx nTx δ → Port nRx nTx δ → Prop where
  | new {s gone} (d : δ) :
      Move ⟨s, .out, none, gone⟩ ⟨s, .setDevice d (queues nRx nTx), some d, Function.update gone d false⟩
  | device {s d q rest a gone} :
      Move ⟨s, .setDevice d (q :: rest), a, gone⟩
        ⟨{ s with device := Function.update s.device q (some d) }, .setInternal d q rest, a, gone⟩
  | internal {s d q rest a gone} :
      Move ⟨s, .setInternal d q rest, a, gone⟩
        ⟨{ s with internal := Function.update s.internal q true }, .setDevice d rest, a, gone⟩
  | devicesSet {s d a gone} : Move ⟨s, .setDevice d [], a, gone⟩ ⟨s, .setLink d, a, gone⟩
  | link {s d a gone} : Move ⟨s, .setLink d, a, gone⟩ ⟨{ s with linkStatus := true }, .setXfer d, a, gone⟩
  | xfer {s d a gone} : Move ⟨s, .setXfer d, a, gone⟩ ⟨{ s with xfer := true }, .out, a, gone⟩
  | destroy {s d gone} : Move ⟨s, .out, some d, gone⟩ ⟨s, .stopXfer d, some d, gone⟩
  | stop {s d a gone} :
      Move ⟨s, .stopXfer d, a, gone⟩ ⟨{ s with xfer := false }, .wait d (queues nRx nTx), a, gone⟩
  | busy {s d q rest a gone} (h : s.executing q = true) :
      Move ⟨s, .wait d (q :: rest), a, gone⟩ ⟨s, .wait d (q :: rest), a, gone⟩
  | idle {s d q rest a gone} (h : s.executing q = false) :
      Move ⟨s, .wait d (q :: rest), a, gone⟩ ⟨s, .wait d rest, a, gone⟩
  | waited {s d a gone} : Move ⟨s, .wait d [], a, gone⟩ ⟨s, .stopLink d, a, gone⟩
  | stopLink {s d a gone} :
      Move ⟨s, .stopLink d, a, gone⟩ ⟨{ s with linkStatus := false }, .clearDevice d (queues nRx nTx), a, gone⟩
  | clear {s d q rest a gone} :
      Move ⟨s, .clearDevice d (q :: rest), a, gone⟩
        ⟨{ s with device := Function.update s.device q none }, .clearDevice d rest, a, gone⟩
  | cleared {s d a gone} : Move ⟨s, .clearDevice d [], a, gone⟩ ⟨s, .ret d, a, gone⟩
  | ret {s d a gone} : Move ⟨s, .ret d, a, gone⟩ ⟨s, .out, none, Function.update gone d true⟩

/-- A port with one poller for each queue. -/
def system (nRx nTx : Nat) (δ : Type) [DecidableEq δ] : System (Queue nRx nTx) (Port nRx nTx δ) (Poll δ) where
  env := Callback.Move
  agent := fun q s t s' t' => ∃ pmd, Poll.Move q s.pmd t pmd t' ∧ s' = { s with pmd := pmd }

/-! ### A callback that runs alone -/

variable [DecidableEq δ]

theorem newDevice_run (s : Pmd nRx nTx δ) (gone : δ → Bool) (d : δ) :
    Relation.ReflTransGen Callback.Move (⟨s, .out, none, gone⟩ : Port nRx nTx δ)
      ⟨s.newDevice d, .out, some d, Function.update gone d false⟩ := by
  have hloop : ∀ (qs : List (Queue nRx nTx)) (s : Pmd nRx nTx δ) (a : Option δ) (gone : δ → Bool),
      Relation.ReflTransGen Callback.Move (⟨s, .setDevice d qs, a, gone⟩ : Port nRx nTx δ)
        ⟨s.setDevices d qs, .setDevice d [], a, gone⟩ := by
    intro qs
    induction qs with
    | nil => exact fun s a gone => .refl
    | cons q qs ih => exact fun s a gone => .head .device (.head .internal (ih _ a gone))
  exact (((Relation.ReflTransGen.head (.new d) (hloop _ s _ _)).tail .devicesSet).tail .link).tail .xfer

theorem destroyDevice_run (s : Pmd nRx nTx δ) (gone : δ → Bool) (d : δ) (h : ∀ q, s.executing q = false) :
    Relation.ReflTransGen Callback.Move (⟨s, .out, some d, gone⟩ : Port nRx nTx δ)
      ⟨s.destroyDevice, .out, none, Function.update gone d true⟩ := by
  have hwait : ∀ (qs : List (Queue nRx nTx)) (s : Pmd nRx nTx δ) (a : Option δ), (∀ q, s.executing q = false) →
      Relation.ReflTransGen Callback.Move (⟨s, .wait d qs, a, gone⟩ : Port nRx nTx δ) ⟨s, .wait d [], a, gone⟩ := by
    intro qs
    induction qs with
    | nil => exact fun s a _ => .refl
    | cons q qs ih => exact fun s a h => .head (.idle (h q)) (ih s a h)
  have hclear : ∀ (qs : List (Queue nRx nTx)) (s : Pmd nRx nTx δ) (a : Option δ),
      Relation.ReflTransGen Callback.Move (⟨s, .clearDevice d qs, a, gone⟩ : Port nRx nTx δ)
        ⟨s.clearDevices qs, .clearDevice d [], a, gone⟩ := by
    intro qs
    induction qs with
    | nil => exact fun s a => .refl
    | cons q qs ih => exact fun s a => .head .clear (ih _ a)
  have hstop : Relation.ReflTransGen Callback.Move (⟨s, .out, some d, gone⟩ : Port nRx nTx δ)
      ⟨{ s with xfer := false }, .wait d (queues nRx nTx), some d, gone⟩ := .head .destroy (.single .stop)
  have hlink := ((hstop.trans (hwait _ _ _ h)).tail .waited).tail .stopLink
  exact ((hlink.trans (hclear _ _ _)).tail .cleared).tail .ret

end

end SoftPatchPanel.Vhost

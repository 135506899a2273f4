import SoftPatchPanel.EthDev

/-!
# The commands of a secondary

The state of `sec_zerocpy` and the command handlers of its `main`.  The forwarding lcores read the tables while the
master lcore executes a command, so a handler is the list of its single accesses (`handle`), and a command is their
execution one after another.  An access outside a table leaves the tables of the model alone.

Strings are compared as in the source; the integer arguments are what `atoi` returns.
-/

namespace SoftPatchPanel.Secondary

open Lib EthDev

/-! ### The state -/

/-- `port_type`. -/
inductive PortType where
  | phy
  | ring
  | vhost
  | undef
deriving DecidableEq

/-- The values of `cmd` that the handlers set. -/
inductive CmdType where
  | stop
  | start
  | forward
deriving DecidableEq

/-- The functions that the function pointers are set to. -/
inductive Burst where
  | rteEthRxBurst
  | rteEthTxBurst
deriving DecidableEq

/-- `struct port`; a function pointer is `none` when it is NULL. -/
structure Port where
  status : Int
  type : PortType
  rxFunc : Option Burst
  txFunc : Option Burst
  outPortId : Int
deriving DecidableEq

/-- A table with one slot for each possible port. -/
abbrev Slots (α : Type) := Fin rteMaxEthports → α

/-- The global data of the process, with the devices of its EAL. -/
structure State where
  cmd : CmdType
  execPos : UInt32
  savePos : UInt32
  portsFwdArray : Slots Port
  rxPorts : Slots UInt32
  txPorts : Slots UInt32
  rxRings : Slots UInt32
  txRings : Slots UInt32
  rxFuncs : Slots (Option Burst)
  txFuncs : Slots (Option Burst)
  ports : Ports

/-- A slot after `forward_array_init`. -/
def Port.init : Port := ⟨-99, .undef, none, none, -99⟩

/-- The state in which `main` starts to handle commands: `forward_array_init` and the loop over the PCI devices. -/
def State.init (ports : Ports) : State where
  cmd := .stop
  execPos := 0
  savePos := 0
  portsFwdArray := fun i =>
    if (i : Nat) < (List.finRange rteMaxEthports).countP (fun j => (ports.devs j).attached) ∧
        (ports.devs i).attached ∧ (ports.devs i).devType = .pci then
      { Port.init with status := i, type := .phy }
    else Port.init
  rxPorts := fun _ => 0
  txPorts := fun _ => 0
  rxRings := fun _ => 0
  txRings := fun _ => 0
  rxFuncs := fun _ => none
  txFuncs := fun _ => none
  ports := ports

/-! ### Names -/

/-- The functions of `common.h` that print a number behind a text, into a buffer of the size of the format plus 2 of
which the last byte is not used. -/
def indexedName (text : CStr) (formatSize id : Nat) : CStr := snprintf (formatSize + 2 - 1) (text ++ formatU id)

/-- `get_ring_name`. -/
def getRingName (id : Nat) : CStr := indexedName "HSM_Ring_".toList 12 id

/-- `get_rx_queue_name`. -/
def getRxQueueName (id : Nat) : CStr := indexedName "MProc_Ring_".toList 14 id

/-- `get_vhost_backend_name`. -/
def getVhostBackendName (id : Nat) : CStr := indexedName "eth_vhost".toList 12 id

/-- `get_vhost_iface_name`. -/
def getVhostIfaceName (id : Nat) : CStr := indexedName "/tmp/sock".toList 12 id

/-! ### Accesses -/

/-- Replace what a table holds at index `i`; an index outside the table changes nothing. -/
def setAt {α : Type} (t : Slots α) (i : Int) (f : α → α) : Slots α := fun j => if (j : Int) = i then f (t j) else t j

/-- The tables besides `ports_fwd_array`. -/
inductive Numbers where
  | rxPorts
  | txPorts
  | rxRings
  | txRings

/-- One access to the data of the process. -/
inductive Op where
  | readPort (i : Int)
  | status (i v : Int)
  | type (i : Int) (t : PortType)
  | rxFunc (i : Int)
  | txFunc (i : Int)
  | outPortId (i v : Int)
  | readNumber (t : Numbers) (i : Int)
  | number (t : Numbers) (i : Int) (v : UInt32)
  | rxFuncs (i : Int) (f : Option Burst)
  | txFuncs (i : Int) (f : Option Burst)
  | cmd (c : CmdType)
  | savePos (v : UInt32)
  | execPos (v : UInt32)
  | ports (p : Ports)

/-- What an access does to the data. -/
def Op.exec (s : State) : Op → State
  | .readPort _ | .readNumber _ _ => s
  | .status i v => { s with portsFwdArray := setAt s.portsFwdArray i ({ · with status := v }) }
  | .type i t => { s with portsFwdArray := setAt s.portsFwdArray i ({ · with type := t }) }
  | .rxFunc i => { s with portsFwdArray := setAt s.portsFwdArray i ({ · with rxFunc := some .rteEthRxBurst }) }
  | .txFunc i => { s with portsFwdArray := setAt s.portsFwdArray i ({ · with txFunc := some .rteEthTxBurst }) }
  | .outPortId i v => { s with portsFwdArray := setAt s.portsFwdArray i ({ · with outPortId := v }) }
  | .number .rxPorts i v => { s with rxPorts := setAt s.rxPorts i (fun _ => v) }
  | .number .txPorts i v => { s with txPorts := setAt s.txPorts i (fun _ => v) }
  | .number .rxRings i v => { s with rxRings := setAt s.rxRings i (fun _ => v) }
  | .number .txRings i v => { s with txRings := setAt s.txRings i (fun _ => v) }
  | .rxFuncs i f => { s with rxFuncs := setAt s.rxFuncs i (fun _ => f) }
  | .txFuncs i f => { s with txFuncs := setAt s.txFuncs i (fun _ => f) }
  | .cmd c => { s with cmd := c }
  | .savePos v => { s with savePos := v }
  | .execPos v => { s with execPos := v }
  | .ports p => { s with ports := p }

/-- The index of an access to one of the tables. -/
def Op.index : Op → Option Int
  | .readPort i | .status i _ | .type i _ | .rxFunc i | .txFunc i | .outPortId i _ | .readNumber _ i | .number _ i _
  | .rxFuncs i _ | .txFuncs i _ => some i
  | .cmd _ | .savePos _ | .execPos _ | .ports _ => none

/-- The accesses of a handler one after another. -/
def State.exec (s : State) (ops : List Op) : State := ops.foldl Op.exec s

/-! ### Handlers -/

/-- The complete commands. -/
inductive Command where
  | status
  | exit
  | start
  | stop
  | forward
  | addVhost (index : Int)
  | addRing (ringId : Int)
  | addRxRing (ringId : Int)
  | addRx (port : Int)
  | addTxRing (ringId : Int)
  | addTx (port : Int)
  | patchReset
  | patch (inPort outPort : Int)
  | delRx (port : Int)
  | delTx (port : Int)
  | save (pos : Int)
  | exec (pos : Int)

/-- What the calls of a handler return: whether the mempool and the ring are found, whether the memory for a port is
there, and the result of `rte_vhost_driver_register`. -/
structure Outcome where
  mempool : Bool := true
  ring : Bool := true
  alloc : Nat → Bool := fun _ => true
  register : Int := 0

/-- What a handler does: its accesses, and whether the process goes on. -/
structure Handler where
  ops : List Op
  goesOn : Bool := true

/-- The name of the ring that `add ring` looks up. -/
def addRingName (ringId : Int) : CStr :=
  let ringId := (UInt16.ofInt ringId).toNat
  if 255 ≤ ringId then getRingName (ringId / 256) else getRxQueueName ringId

/-- The port that `add vhost` makes. -/
def makeVhost (o : Outcome) (ports : Ports) (index : Int) : Int × Ports :=
  rteEthFromVhost o.alloc o.register ports (getVhostBackendName (UInt32.ofInt index).toNat)
    (getVhostIfaceName (UInt32.ofInt index).toNat)

/-- The port that `add ring` makes; `ring_port_id` has 16 bits. -/
def makeRing (o : Outcome) (ports : Ports) (ringId : Int) : Int × Ports :=
  let made := rteEthFromRings o.alloc ports (addRingName ringId)
  (made.1 % 65536, made.2)

/-- The update of `ports_fwd_array` for a new port. -/
def addedPort (id : Int) (t : PortType) : List Op := [.status id id, .type id t]

/-- `add rx` and `add tx` for a ring: the tables are those of the direction. -/
def addQueueRing (o : Outcome) (s : State) (ringId : Int) (rings queues : Numbers) (func : Int → Op) : Handler :=
  let pos : Int := s.savePos.toNat
  let found := [.number rings pos (UInt32.ofInt ringId), .readNumber rings pos]
  if o.ring then
    let made := rteEthFromRings o.alloc s.ports (getRxQueueName (UInt32.ofInt ringId).toNat)
    ⟨found ++ [.ports made.2, .number queues pos (UInt32.ofInt made.1), .readNumber rings pos, func pos,
      .readNumber queues pos], true⟩
  else ⟨found, false⟩

/-- The accesses of `forward_array_reset` to one slot. -/
def resetSlot (s : State) (i : Fin rteMaxEthports) : List Op :=
  .readPort i :: if -1 < (s.portsFwdArray i).status then [.outPortId i (-99), .readPort i] else []

/-- The handlers of `main`. -/
def handle (o : Outcome) (s : State) : Command → Handler
  | .status => ⟨(List.finRange rteMaxEthports).map (fun i : Fin rteMaxEthports => .readPort i), true⟩
  | .exit => ⟨[.cmd .stop], false⟩
  | .start => ⟨[.cmd .start], true⟩
  | .stop => ⟨[.cmd .stop], true⟩
  | .forward => ⟨[.cmd .forward], true⟩
  | .addVhost index =>
    if o.mempool then
      let made := makeVhost o s.ports index
      ⟨.ports made.2 :: addedPort made.1 .vhost, true⟩
    else ⟨[], false⟩
  | .addRing ringId =>
    if o.ring then
      let made := makeRing o s.ports ringId
      ⟨.ports made.2 :: addedPort made.1 .ring, true⟩
    else ⟨[], false⟩
  | .addRxRing ringId =>
    addQueueRing o s ringId .rxRings .rxPorts (.rxFuncs · (some .rteEthRxBurst))
  | .addRx port =>
    ⟨[.number .rxPorts s.savePos.toNat (UInt32.ofInt port), .rxFuncs s.savePos.toNat (some .rteEthRxBurst),
      .readNumber .rxPorts s.savePos.toNat], true⟩
  | .addTxRing ringId =>
    addQueueRing o s ringId .txRings .txPorts (.txFuncs · (some .rteEthTxBurst))
  | .addTx port =>
    ⟨[.number .txPorts s.savePos.toNat (UInt32.ofInt port), .txFuncs s.savePos.toNat (some .rteEthTxBurst),
      .readNumber .txPorts s.savePos.toNat], true⟩
  | .patchReset => ⟨(List.finRange rteMaxEthports).flatMap (resetSlot s), true⟩
  | .patch inPort outPort =>
    ⟨[.status inPort inPort, .rxFunc inPort, .txFunc inPort, .outPortId inPort outPort,
      .status outPort outPort, .rxFunc outPort, .txFunc outPort,
      .readPort inPort, .readPort inPort, .readPort outPort], true⟩
  | .delRx _ => ⟨[.cmd .stop, .number .rxPorts s.savePos.toNat 33, .rxFuncs s.savePos.toNat none], true⟩
  | .delTx _ => ⟨[.cmd .stop, .number .txPorts s.savePos.toNat 33, .txFuncs s.savePos.toNat none], true⟩
  | .save pos => ⟨if UInt32.ofInt pos = s.execPos then [] else [.savePos (UInt32.ofInt pos)], true⟩
  | .exec pos => ⟨[.execPos (UInt32.ofInt pos)], true⟩

/-- A command as it comes in, with what its calls return. -/
abbrev Input := Command × Outcome

/-- The state after a command. -/
def State.step (s : State) (x : Input) : State := s.exec (handle x.2 s x.1).ops

/-- The state after a sequence of commands. -/
def State.run (s : State) (xs : List Input) : State := xs.foldl State.step s

/-- `P` holds of each command of a sequence in the state it meets, up to the one that ends the process. -/
def Always (P : State → Input → Prop) : State → List Input → Prop
  | _, [] => True
  | s, x :: xs => P s x ∧ ((handle x.2 s x.1).goesOn → Always P (s.step x) xs)

/-! ### Lemmas -/

@[simp] theorem setAt_self {α : Type} (t : Slots α) (f : α → α) (i : Fin rteMaxEthports) :
    setAt t i f i = f (t i) := by
  simp [setAt]

theorem setAt_of_ne {α : Type} (t : Slots α) (f : α → α) {i : Int} {j : Fin rteMaxEthports} (h : (j : Int) ≠ i) :
    setAt t i f j = t j := by
  simp [setAt, h]

@[simp] theorem State.exec_nil (s : State) : s.exec [] = s := rfl

@[simp] theorem State.exec_cons (s : State) (op : Op) (ops : List Op) :
    s.exec (op :: ops) = (Op.exec s op).exec ops := rfl

theorem State.exec_append (s : State) (ops ops' : List Op) : s.exec (ops ++ ops') = (s.exec ops).exec ops' :=
  List.foldl_append

@[simp] theorem State.run_nil (s : State) : s.run [] = s := rfl

@[simp] theorem State.run_cons (s : State) (x : Input) (xs : List Input) : s.run (x :: xs) = (s.step x).run xs := rfl

theorem Always.congr {P Q : State → Input → Prop} (h : ∀ s x, P s x ↔ Q s x) (s : State) (xs : List Input) :
    Always P s xs ↔ Always Q s xs := by
  induction xs generalizing s with
  | nil => exact Iff.rfl
  | cons x xs ih => simp only [Always, h, ih]

/-! ### What the commands leave in the forwarding table -/

section

variable {s : State} {o : Outcome}

theorem step_patch (inPort outPort : Int) :
    (s.step (.patch inPort outPort, o)).portsFwdArray = fun j =>
      { s.portsFwdArray j with
        status := if (j : Int) = outPort then outPort else if (j : Int) = inPort then inPort
          else (s.portsFwdArray j).status
        rxFunc := if (j : Int) = outPort ∨ (j : Int) = inPort then some .rteEthRxBurst else (s.portsFwdArray j).rxFunc
        txFunc := if (j : Int) = outPort ∨ (j : Int) = inPort then some .rteEthTxBurst else (s.portsFwdArray j).txFunc
        outPortId := if (j : Int) = inPort then outPort else (s.portsFwdArray j).outPortId } := by
  funext j
  simp only [State.step, handle, State.exec_cons, State.exec_nil, Op.exec, setAt]
  rcases Classical.propComplete ((j : Int) = inPort) with h1 | h1 <;>
    rcases Classical.propComplete ((j : Int) = outPort) with h2 | h2 <;> simp [h1, h2]

theorem step_patchReset :
    (s.step (.patchReset, o)).portsFwdArray = fun j =>
      { s.portsFwdArray j with
        outPortId := if -1 < (s.portsFwdArray j).status then -99 else (s.portsFwdArray j).outPortId } := by
  have hslots : ∀ (is : List (Fin rteMaxEthports)) (t : State), is.Nodup →
      (t.exec (is.flatMap (resetSlot s))).portsFwdArray = fun j =>
        { t.portsFwdArray j with
          outPortId := if j ∈ is ∧ -1 < (s.portsFwdArray j).status then -99
            else (t.portsFwdArray j).outPortId } := by
    intro is
    induction is with
    | nil => intro t _; funext j; simp
    | cons i is ih =>
      intro t hnodup
      rw [List.nodup_cons] at hnodup
      funext j
      rw [List.flatMap_cons, State.exec_append, ih _ hnodup.2]
      by_cases hst : -1 < (s.portsFwdArray i).status
      · by_cases hij : j = i
        · subst hij
          simp [resetSlot, hst, hnodup.1, Op.exec]
        · have hne : (j : Int) ≠ (i : Int) := fun h => hij (Fin.ext (by exact_mod_cast h))
          simp [resetSlot, hst, hij, Op.exec, setAt_of_ne _ _ hne]
      · by_cases hij : j = i
        · subst hij
          simp [resetSlot, hst, Op.exec]
        · simp [resetSlot, hst, hij, Op.exec]
  funext j
  have := congrFun (hslots (List.finRange rteMaxEthports) s (List.nodup_finRange _)) j
  simpa [State.step, handle] using this

theorem exec_addedPort (p : Ports) (id : Int) (t : PortType) :
    (s.exec (.ports p :: addedPort id t)).portsFwdArray = fun j =>
      { s.portsFwdArray j with
        status := if (j : Int) = id then id else (s.portsFwdArray j).status
        type := if (j : Int) = id then t else (s.portsFwdArray j).type } := by
  funext j
  simp only [addedPort, State.exec_cons, State.exec_nil, Op.exec, setAt]
  rcases Classical.propComplete ((j : Int) = id) with h | h <;> simp [h]

end

end SoftPatchPanel.Secondary

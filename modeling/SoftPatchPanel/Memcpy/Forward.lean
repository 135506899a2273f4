import SoftPatchPanel.Lib.Runs
import SoftPatchPanel.Pktmbuf
import SoftPatchPanel.Secondary.Forward

/-!
# The copying forwarder

`copy_mbufs` and `forward` of `sec_memcpy`.  A packet does not leave the buffer it was received in: `forward` takes as
many objects out of the pool of the output port, copies the packets, puts the received buffers back and sends the
copies.

While `forward` works, the drivers of the input ports allocate buffers for new packets and the consumer behind an
output port releases what it got.  `Event` has the steps of all of them, and `forward_eq_run` says that a sweep is a
run of such steps.
-/

namespace SoftPatchPanel.Memcpy

open EthDev Pktmbuf Secondary

/-! ### `copy_mbufs` -/

/-- The body of the loop of `copy_mbufs`: all that describes the packet, and its bytes. -/
def copyMbuf (rxm txm : Mbuf) : Mbuf :=
  { txm with
    pkt := rxm.pkt
    next := none
    data := fun o =>
      if rxm.pkt.dataOff.toNat ≤ o ∧ o < rxm.pkt.dataOff.toNat + rxm.pkt.dataLen.toNat then rxm.data o else txm.data o }

/-- The loop of `copy_mbufs`. -/
def copyLoop (mem : Mem) : List Addr → List Addr → Mem
  | rx :: rxm, tx :: txm => copyLoop (mem.modify tx (copyMbuf (mem.mbuf rx))) rxm txm
  | _, _ => mem

/-- `rxm[0]->pool`. -/
def firstPool (mem : Mem) (rxm : List Addr) : PoolId := (mem.mbuf (rxm.headD 0)).pool

/-- `copy_mbufs`, with its return value; `got` are the objects that `rte_mempool_get_bulk` gives for `txm`, or `none`
where it fails. -/
def copyMbufs (mem : Mem) (pktmbufPool : PoolId) (rxm : List Addr) (got : Option (List Addr)) : Int × Mem :=
  match got with
  | none => (-1, rteMempoolPutBulk mem (firstPool mem rxm) rxm)
  | some txm =>
    let copied := copyLoop (rteMempoolGetBulk mem pktmbufPool txm) rxm txm
    (1, rteMempoolPutBulk copied (firstPool copied rxm) rxm)

/-! ### Where the buffers are -/

/-- The buffers in the pools, and those in somebody's hands: of the input ports, of the forwarder, and of the output
ports and their consumers. -/
structure Flow where
  mem : Mem
  rx : Multiset Addr
  held : List Addr
  queue : Multiset Addr

/-- One step of somebody. -/
inductive Event where
  /-- The driver of an input port allocates a buffer and stores a received packet in it. -/
  | receive (p : PoolId) (m : Addr) (next : Option Addr) (pkt : Packet) (data : Nat → UInt8)
  /-- The forwarder receives a burst and copies it. -/
  | copy (pool : PoolId) (bufs : List Addr) (got : Option (List Addr))
  /-- The output port accepts some of the copies, and the forwarder puts back the others. -/
  | send (nbTx : Nat)
  /-- The consumer of an accepted packet calls `rte_pktmbuf_free`. -/
  | release (m : Addr)

/-- The loop that frees the unsent packets. -/
def putUnsent (mem : Mem) (ms : List Addr) : Mem := ms.foldl (fun mem m => rteMempoolPut mem (mem.mbuf m).pool m) mem

/-- A chain has at most 255 segments. -/
def maxSegs : Nat := 255

/-- What a step does. -/
def Flow.step (s : Flow) : Event → Flow
  | .receive p m next pkt data =>
    { s with
      mem := (rtePktmbufAlloc s.mem p m).modify m ({ · with next := next, pkt := pkt, data := data })
      rx := s.rx + {m} }
  | .copy pool bufs got =>
    { s with mem := (copyMbufs s.mem pool bufs got).2, rx := s.rx - bufs, held := got.getD [] }
  | .send nbTx =>
    { s with
      mem := putUnsent s.mem (s.held.drop nbTx)
      held := []
      queue := s.queue + s.held.take nbTx }
  | .release m => { s with mem := rtePktmbufFree maxSegs s.mem (some m), queue := s.queue.erase m }

/-- Steps one after another. -/
def Flow.run (s : Flow) (es : List Event) : Flow := es.foldl Flow.step s

@[simp] theorem Flow.run_nil (s : Flow) : s.run [] = s := rfl

@[simp] theorem Flow.run_cons (s : Flow) (e : Event) (es : List Event) : s.run (e :: es) = (s.step e).run es := rfl

@[simp] theorem Flow.run_append (s : Flow) (es es' : List Event) : s.run (es ++ es') = (s.run es).run es' :=
  List.foldl_append ..

/-- What the parties rely on: an object comes out of the pool that is asked for it, the forwarder is done with the
copies of a burst before the next one, a burst has 1 to 32 packets of one segment each, and only accepted packets are
released. -/
def Flow.Allows (s : Flow) : Event → Prop
  | .receive p m _ _ _ => m ∈ s.mem.free p
  | .copy pool bufs got =>
    s.held = [] ∧ bufs ≠ [] ∧ bufs.length ≤ maxPktBurst ∧ (bufs : Multiset Addr) ≤ s.rx ∧
      (∀ b ∈ bufs, (s.mem.mbuf b).next = none) ∧
      ∀ txm ∈ got, txm.length = bufs.length ∧ (txm : Multiset Addr) ≤ s.mem.free pool
  | .send nbTx => nbTx ≤ s.held.length
  | .release m => m ∈ s.queue

instance (s : Flow) (e : Event) : Decidable (s.Allows e) :=
  match e with
  | .receive p m _ _ _ => inferInstanceAs (Decidable (m ∈ s.mem.free p))
  | .copy _ _ none => inferInstanceAs (Decidable (_ ∧ _ ∧ _ ∧ _ ∧ _ ∧ ∀ txm ∈ none, _))
  | .copy _ _ (some _) => inferInstanceAs (Decidable (_ ∧ _ ∧ _ ∧ _ ∧ _ ∧ ∀ txm ∈ some _, _))
  | .send nbTx => inferInstanceAs (Decidable (nbTx ≤ s.held.length))
  | .release m => inferInstanceAs (Decidable (m ∈ s.queue))

/-! ### `forward` -/

/-- What the calls for one slot return: the burst of `rx_func`, the objects of the pool, the result of `tx_func`. -/
structure Turn where
  bufs : List Addr
  got : Option (List Addr)
  nbTx : Nat

section

variable (fwd : Slots Port) (txPools : Slots (Option PoolId)) (turns : Slots Turn)

/-- The body of the loop of `forward` for slot `i`; `none` where the C code would call a NULL function, use a NULL
pool or read a slot outside the table. -/
def forwardSlot (s : Flow) (i : Fin rteMaxEthports) : Option Flow :=
  if (fwd i).Active then
    match (fwd i).rxFunc with
    | none => none
    | some _ =>
      let bufs := (turns i).bufs
      if bufs.length = 0 then some s
      else
        match slotOf (fwd i).outPortId with
        | none => none
        | some out =>
          match txPools out with
          | none => none
          | some pool =>
            let copied := copyMbufs s.mem pool bufs (turns i).got
            if copied.1 < 0 then some { s with mem := copied.2, rx := s.rx - bufs, held := [] }
            else
              match (fwd out).txFunc with
              | none => none
              | some _ =>
                let m := (turns i).got.getD []
                let nbTx := (turns i).nbTx
                let nbRx := bufs.length
                some
                  { mem := if nbTx < nbRx then putUnsent copied.2 (m.drop nbTx) else copied.2
                    rx := s.rx - bufs
                    held := []
                    queue := s.queue + m.take nbTx }
  else some s

/-- The loop of `forward` over the slots `is`. -/
def forwardSlots : List (Fin rteMaxEthports) → Flow → Option Flow
  | [], s => some s
  | i :: is, s =>
    match forwardSlot fwd txPools turns s i with
    | none => none
    | some s' => forwardSlots is s'

/-- `forward`. -/
def forward (s : Flow) : Option Flow := forwardSlots fwd txPools turns (List.finRange rteMaxEthports) s

/-- The steps of the forwarder for slot `i`. -/
def slotEvents (i : Fin rteMaxEthports) : List Event :=
  if (fwd i).Active ∧ (turns i).bufs.length ≠ 0 then
    match (slotOf (fwd i).outPortId).bind txPools with
    | none => []
    | some pool =>
      .copy pool (turns i).bufs (turns i).got :: if (turns i).got.isSome then [.send (turns i).nbTx] else []
  else []

/-- The steps of the forwarder in one call of `forward`. -/
def sweepEvents : List Event := (List.finRange rteMaxEthports).flatMap (slotEvents fwd txPools turns)

variable {fwd txPools turns}

theorem putUnsent_drop (mem : Mem) {m : List Addr} {nbTx nbRx : Nat} (h : m.length = nbRx) :
    (if nbTx < nbRx then putUnsent mem (m.drop nbTx) else mem) = putUnsent mem (m.drop nbTx) := by
  split
  · rfl
  · rw [List.drop_eq_nil_of_le (by omega)]
    rfl

private theorem forwardSlot_eq_run {s s' : Flow} {i : Fin rteMaxEthports}
    (hlen : ∀ txm ∈ (turns i).got, txm.length = (turns i).bufs.length)
    (h : forwardSlot fwd txPools turns s i = some s') : s' = s.run (slotEvents fwd txPools turns i) := by
  unfold forwardSlot at h
  unfold slotEvents
  split at h
  · next hactive =>
    split at h
    · cases h
    · by_cases hbufs : (turns i).bufs.length = 0
      · simp only [hbufs, ↓reduceIte, Option.some.injEq] at h
        simp [hbufs, h]
      · simp only [hbufs, ↓reduceIte] at h
        simp only [hactive, ne_eq, hbufs, not_false_eq_true, and_self, ↓reduceIte]
        cases hout : slotOf (fwd i).outPortId with
        | none => simp [hout] at h
        | some out =>
          cases hpool : txPools out with
          | none => simp [hout, hpool] at h
          | some pool =>
            simp only [hout, hpool] at h
            cases hgot : (turns i).got with
            | none =>
              simp only [hgot, copyMbufs] at h
              simp [Flow.step, copyMbufs, hpool, ← Option.some.inj h]
            | some txm =>
              simp only [hgot, copyMbufs] at h
              cases htx : (fwd out).txFunc with
              | none => simp [htx] at h
              | some f =>
                simp only [htx, Option.getD_some, putUnsent_drop _ (hlen txm hgot)] at h
                simp [Flow.step, copyMbufs, hpool, ← Option.some.inj h]
  · next hactive =>
    simp [hactive, Option.some.inj h]

/-- A sweep is a run of the steps for its slots. -/
theorem forward_eq_run {s s' : Flow}
    (hlen : ∀ i, ∀ txm ∈ (turns i).got, txm.length = (turns i).bufs.length)
    (h : forward fwd txPools turns s = some s') :
    s' = s.run (sweepEvents fwd txPools turns) := by
  unfold forward at h
  unfold sweepEvents
  generalize List.finRange rteMaxEthports = is at h ⊢
  induction is generalizing s with
  | nil => exact (Option.some.inj h).symm
  | cons i is ih =>
    rw [forwardSlots] at h
    cases hslot : forwardSlot fwd txPools turns s i with
    | none => simp [hslot] at h
    | some s₁ =>
      rw [hslot] at h
      rw [List.flatMap_cons, Flow.run_append, ← forwardSlot_eq_run (hlen i) hslot]
      exact ih h

end

end SoftPatchPanel.Memcpy

import SoftPatchPanel.Ring.Alone

/-!
# Ports made from rings

`rte_eth_from_ring` makes a port that sends into a ring and receives from the same ring, and every process makes a port of
its own, with its own counters, from the ring of that name.  The rings of the patch panel are for one producer and one
consumer, so the bursts on a ring come one after another.

All ports of a ring together receive the packets that they sent in the order of sending, apart from those still in the ring,
and the counters of each port are the numbers of packets it sent, received and could not send (`link_accounting`).
-/

namespace SoftPatchPanel.Ring

open Lib

section

variable {α : Type}

/-- `rte_ring_enqueue_burst`. -/
def rteRingEnqueueBurst (r : RteRing α) (objTable : Nat → α) (n : UInt32) : RteRing α × UInt32 :=
  let c := if r.prod.spEnqueue then spDoEnqueue objTable n .variable else mpDoEnqueue objTable n .variable
  ((c.run r).1, (c.run r).2.2.toUInt32)

/-- `rte_ring_dequeue_burst`, with the table that it leaves behind. -/
def rteRingDequeueBurst (r : RteRing α) (objTable : Nat → α) (n : UInt32) : RteRing α × (Nat → α) × UInt32 :=
  let c := if r.cons.scDequeue then scDoDequeue objTable n .variable else mcDoDequeue objTable n .variable
  ((c.run r).1, (c.run r).2.1.table, (c.run r).2.2.toUInt32)

/-- `struct ring_queue`, without the pointer to the ring. -/
structure RingQueue where
  rxPkts : UInt64
  txPkts : UInt64
  errPkts : UInt64
  deriving DecidableEq

/-- `eth_ring_rx`.  Whether the counter is changed atomically or not depends on the flags of the ring. -/
def ethRingRx (r : RteRing α) (q : RingQueue) (bufs : Nat → α) (nbBufs : UInt16) :
    RteRing α × RingQueue × (Nat → α) × UInt16 :=
  let (r', bufs', n) := rteRingDequeueBurst r bufs nbBufs.toUInt32
  let nbRx := n.toUInt16
  (r', { q with rxPkts := q.rxPkts + nbRx.toUInt64 }, bufs', nbRx)

/-- `eth_ring_tx`. -/
def ethRingTx (r : RteRing α) (q : RingQueue) (bufs : Nat → α) (nbBufs : UInt16) : RteRing α × RingQueue × UInt16 :=
  let (r', n) := rteRingEnqueueBurst r bufs nbBufs.toUInt32
  let nbTx := n.toUInt16
  (r', { q with
    txPkts := q.txPkts + nbTx.toUInt64
    errPkts := q.errPkts + (nbBufs.toUInt64 - nbTx.toUInt64) }, nbTx)

/-! ### The two bursts -/

private theorem toUInt64_eq_ofNat (x : UInt16) : x.toUInt64 = UInt64.ofNat x.toNat := by
  apply UInt64.toNat_inj.1
  have hlt := x.toNat_lt
  rw [UInt16.toNat_toUInt64, UInt64.toNat_ofNat_of_lt' (hlt.trans (by decide))]

variable {k : Nat} {r : RteRing α}

/-- A burst into a ring that nobody else uses takes what there is room for, from the front. -/
theorem ethRingTx_spec (h : r.Quiet k) (q : RingQueue) (bufs : Nat → α) (nbBufs : UInt16) :
    ∃ m ≤ nbBufs.toNat, m = min nbBufs.toNat (2 ^ k - 1 - r.contents.length) ∧
      (ethRingTx r q bufs nbBufs).2.2.toNat = m ∧ (ethRingTx r q bufs nbBufs).1.Quiet k ∧
      (ethRingTx r q bufs nbBufs).1.contents = r.contents ++ (List.range m).map bufs := by
  obtain ⟨c, hc, hside, hb, hmax, htable⟩ : ∃ c : Call α,
      ethRingTx r q bufs nbBufs = ((c.run r).1, { q with
        txPkts := q.txPkts + (c.run r).2.2.toUInt32.toUInt16.toUInt64
        errPkts := q.errPkts + (nbBufs.toUInt64 - (c.run r).2.2.toUInt32.toUInt16.toUInt64) },
        (c.run r).2.2.toUInt32.toUInt16) ∧
      c.side = .prod ∧ c.behavior = .variable ∧ c.max = nbBufs.toUInt32 ∧ c.table = bufs := by
    refine ⟨_, rfl, ?_⟩
    split <;> exact ⟨rfl, rfl, rfl, rfl⟩
  have hmax' : c.max.toNat = nbBufs.toNat := by rw [hmax, UInt16.toNat_toUInt32]
  have hamount := Call.amount_variable (r := r) hb
  rw [h.toNat_limit, hside, hmax'] at hamount
  have hlt := nbBufs.toNat_lt
  have hresult := congrArg UInt16.toNat (Call.toUInt16_run (r := r) hb)
  rw [UInt32.toNat_toUInt16 (c.amount r), Nat.mod_eq_of_lt (by omega)] at hresult
  obtain ⟨hquiet, hcontents⟩ := h.run (c := c)
  simp only [hside, Call.objects, Call.run_of_prod hside, htable] at hcontents
  rw [hc]
  exact ⟨(c.amount r).toNat, by omega, hamount, hresult, hquiet, hcontents⟩

/-- A burst out of a ring that nobody else uses brings what there is, from the front. -/
theorem ethRingRx_spec (h : r.Quiet k) (q : RingQueue) (bufs : Nat → α) (nbBufs : UInt16) :
    ∃ m ≤ nbBufs.toNat, m = min nbBufs.toNat r.contents.length ∧
      (ethRingRx r q bufs nbBufs).2.2.2.toNat = m ∧ (ethRingRx r q bufs nbBufs).1.Quiet k ∧
      r.contents = (List.range m).map (ethRingRx r q bufs nbBufs).2.2.1 ++
        (ethRingRx r q bufs nbBufs).1.contents := by
  obtain ⟨c, hc, hside, hb, hmax⟩ : ∃ c : Call α,
      ethRingRx r q bufs nbBufs = ((c.run r).1, { q with
        rxPkts := q.rxPkts + (c.run r).2.2.toUInt32.toUInt16.toUInt64 },
        (c.run r).2.1.table, (c.run r).2.2.toUInt32.toUInt16) ∧
      c.side = .cons ∧ c.behavior = .variable ∧ c.max = nbBufs.toUInt32 := by
    refine ⟨_, rfl, ?_⟩
    split <;> exact ⟨rfl, rfl, rfl⟩
  have hmax' : c.max.toNat = nbBufs.toNat := by rw [hmax, UInt16.toNat_toUInt32]
  have hamount := Call.amount_variable (r := r) hb
  rw [h.toNat_limit, hside, hmax'] at hamount
  have hlt := nbBufs.toNat_lt
  have hresult := congrArg UInt16.toNat (Call.toUInt16_run (r := r) hb)
  rw [UInt32.toNat_toUInt16 (c.amount r), Nat.mod_eq_of_lt (by omega)] at hresult
  obtain ⟨hquiet, hcontents⟩ := h.run (c := c)
  simp only [hside, Call.objects] at hcontents
  rw [hc]
  exact ⟨(c.amount r).toNat, by omega, hamount, hresult, hquiet, hcontents⟩

end

/-! ### All ports of a ring -/

/-- A ring with the ports `ι` made from it.  Besides the data of the source, the packets that were sent and received, each
with its port, and the number of packets that each port could not send. -/
structure Link (ι α : Type) where
  ring : RteRing α
  rxQueue : ι → RingQueue
  txQueue : ι → RingQueue
  sent : List (ι × α)
  received : List (ι × α)
  refused : ι → Nat

/-- The bursts of a port, and a change of the water mark by anybody. -/
inductive Burst (ι α : Type) where
  | tx (i : ι) (bufs : Nat → α) (nbBufs : UInt16)
  | rx (i : ι) (bufs : Nat → α) (nbBufs : UInt16)
  | waterMark (count : UInt32)

section

variable {ι α : Type} [DecidableEq ι]

namespace Link

/-- Ports made from a ring, before the first burst. -/
def fresh (r : RteRing α) : Link ι α := ⟨r, fun _ => ⟨0, 0, 0⟩, fun _ => ⟨0, 0, 0⟩, [], [], fun _ => 0⟩

def step (l : Link ι α) : Burst ι α → Link ι α
  | .tx i bufs nbBufs =>
    let (ring, q, nbTx) := ethRingTx l.ring (l.txQueue i) bufs nbBufs
    { l with
      ring
      txQueue := Function.update l.txQueue i q
      sent := l.sent ++ (List.range nbTx.toNat).map fun j => (i, bufs j)
      refused := Function.update l.refused i (l.refused i + (nbBufs.toNat - nbTx.toNat)) }
  | .rx i bufs nbBufs =>
    let (ring, q, bufs', nbRx) := ethRingRx l.ring (l.rxQueue i) bufs nbBufs
    { l with
      ring
      rxQueue := Function.update l.rxQueue i q
      received := l.received ++ (List.range nbRx.toNat).map fun j => (i, bufs' j) }
  | .waterMark count => { l with ring := (rteRingSetWaterMark l.ring count).1 }

/-- The number of packets of port `i`. -/
def packets (i : ι) (l : List (ι × α)) : Nat := l.countP (·.1 = i)

/-- The books of all ports. -/
structure Balanced (k : Nat) (l : Link ι α) : Prop where
  quiet : l.ring.Quiet k
  order : l.received.map Prod.snd ++ l.ring.contents = l.sent.map Prod.snd
  tx : ∀ i, (l.txQueue i).txPkts = UInt64.ofNat (packets i l.sent)
  err : ∀ i, (l.txQueue i).errPkts = UInt64.ofNat (l.refused i)
  rx : ∀ i, (l.rxQueue i).rxPkts = UInt64.ofNat (packets i l.received)

private theorem packets_append_burst (i j : ι) (l : List (ι × α)) (f : Nat → α) (m : Nat) :
    packets i (l ++ (List.range m).map fun n => (j, f n)) = packets i l + if i = j then m else 0 := by
  unfold packets
  rw [List.countP_append, List.countP_map]
  split
  · rename_i h
    subst h
    simp [Function.comp_def]
  · rename_i h
    rw [Nat.add_right_inj, List.countP_eq_zero]
    intro n _
    simpa using Ne.symm h

variable {k : Nat} {l : Link ι α}

theorem Balanced.burstTx (h : l.Balanced k) (i : ι) (bufs : Nat → α) (nbBufs : UInt16) :
    (l.step (.tx i bufs nbBufs)).Balanced k := by
  obtain ⟨m, hle, -, hnbTx, hquiet, hcontents⟩ := ethRingTx_spec h.quiet (l.txQueue i) bufs nbBufs
  have hcount : (ethRingTx l.ring (l.txQueue i) bufs nbBufs).2.2.toUInt64 = UInt64.ofNat m := by
    rw [toUInt64_eq_ofNat, hnbTx]
  have htx : (ethRingTx l.ring (l.txQueue i) bufs nbBufs).2.1.txPkts = (l.txQueue i).txPkts + UInt64.ofNat m := by
    rw [← hcount]
    rfl
  have herr : (ethRingTx l.ring (l.txQueue i) bufs nbBufs).2.1.errPkts =
      (l.txQueue i).errPkts + (nbBufs.toUInt64 - UInt64.ofNat m) := by
    rw [← hcount]
    rfl
  refine ⟨hquiet, ?_, fun j => ?_, fun j => ?_, fun j => ?_⟩
  · simp only [step, hnbTx, hcontents, List.map_append, List.map_map, ← List.append_assoc, h.order]
    rfl
  · simp only [step, hnbTx, packets_append_burst]
    by_cases hj : j = i
    · subst hj
      simp [htx, h.tx, UInt64.ofNat_add]
    · simp [hj, h.tx]
  · simp only [step, hnbTx]
    by_cases hj : j = i
    · subst hj
      have hsub : nbBufs.toUInt64 - UInt64.ofNat m = UInt64.ofNat (nbBufs.toNat - m) := by
        rw [toUInt64_eq_ofNat, sub_eq_iff_eq_add, ← UInt64.ofNat_add, Nat.sub_add_cancel hle]
      simp [herr, h.err, UInt64.ofNat_add, hsub]
    · simp [hj, h.err]
  · exact h.rx j

theorem Balanced.burstRx (h : l.Balanced k) (i : ι) (bufs : Nat → α) (nbBufs : UInt16) :
    (l.step (.rx i bufs nbBufs)).Balanced k := by
  obtain ⟨m, -, -, hnbRx, hquiet, hcontents⟩ := ethRingRx_spec h.quiet (l.rxQueue i) bufs nbBufs
  have hrx : (ethRingRx l.ring (l.rxQueue i) bufs nbBufs).2.1.rxPkts = (l.rxQueue i).rxPkts + UInt64.ofNat m := by
    rw [← hnbRx, ← toUInt64_eq_ofNat]
    rfl
  refine ⟨hquiet, ?_, h.tx, h.err, fun j => ?_⟩
  · have horder := h.order
    rw [hcontents, ← List.append_assoc] at horder
    simp only [step, hnbRx, List.map_append, List.map_map]
    exact horder
  · simp only [step, hnbRx, packets_append_burst]
    by_cases hj : j = i
    · subst hj
      simp [hrx, h.rx, UInt64.ofNat_add]
    · simp [hj, h.rx]

omit [DecidableEq ι] in
/-- The water mark is not part of what the ring holds. -/
private theorem quiet_setWaterMark {r : RteRing α} (h : r.Quiet k) (count : UInt32) :
    (rteRingSetWaterMark r count).1.Quiet k ∧ (rteRingSetWaterMark r count).1.contents = r.contents := by
  unfold rteRingSetWaterMark
  split
  · exact ⟨h, rfl⟩
  · refine ⟨⟨⟨h.size.le, fun side => ?_, h.size.mask⟩, fun side => ?_, h.count⟩, rfl⟩
    · have := h.size.size side
      cases side <;> exact this
    · have := h.tail side
      cases side <;> exact this

private theorem Balanced.step (h : l.Balanced k) (b : Burst ι α) : (l.step b).Balanced k := by
  cases b with
  | tx i bufs nbBufs => exact h.burstTx i bufs nbBufs
  | rx i bufs nbBufs => exact h.burstRx i bufs nbBufs
  | waterMark count =>
    obtain ⟨hquiet, hcontents⟩ := quiet_setWaterMark h.quiet count
    refine ⟨hquiet, ?_, h.tx, h.err, h.rx⟩
    simpa only [Link.step, hcontents] using h.order

theorem balanced_fresh {count : UInt32} (mem : Nat → α) (flags : UInt32) (hcount : CountOk count) (hpos : count ≠ 0) :
    ∃ k, count.toNat = 2 ^ k ∧ (fresh (rteRingInit mem count flags) : Link ι α).Balanced k := by
  obtain ⟨k, hk, hsize⟩ := hcount.hasSize hpos mem flags
  obtain ⟨hquiet, hempty⟩ := hsize.quiet_init
  refine ⟨k, hk, hquiet, ?_, fun _ => rfl, fun _ => rfl, fun _ => rfl⟩
  simp only [fresh, hempty]
  rfl

/-- For all bursts of all ports of a ring, the packets received followed by those in the ring are the packets sent, there
are fewer packets in the ring than it has places, and the counters of each port are the numbers of packets that it sent,
received and could not send. -/
theorem link_accounting (mem : Nat → α) {count : UInt32} (flags : UInt32) (hcount : CountOk count) (hpos : count ≠ 0)
    (bs : List (Burst ι α)) :
    ((bs.foldl step (fresh (rteRingInit mem count flags))).received.map Prod.snd ++
        (bs.foldl step (fresh (rteRingInit mem count flags))).ring.contents =
      (bs.foldl step (fresh (rteRingInit mem count flags))).sent.map Prod.snd) ∧
    (bs.foldl step (fresh (rteRingInit mem count flags))).ring.contents.length < count.toNat ∧
    ∀ i,
      ((bs.foldl step (fresh (rteRingInit mem count flags))).txQueue i).txPkts =
        UInt64.ofNat (packets i (bs.foldl step (fresh (rteRingInit mem count flags))).sent) ∧
      ((bs.foldl step (fresh (rteRingInit mem count flags))).txQueue i).errPkts =
        UInt64.ofNat ((bs.foldl step (fresh (rteRingInit mem count flags))).refused i) ∧
      ((bs.foldl step (fresh (rteRingInit mem count flags))).rxQueue i).rxPkts =
        UInt64.ofNat (packets i (bs.foldl step (fresh (rteRingInit mem count flags))).received) := by
  obtain ⟨k, hk, hfresh⟩ : ∃ k, count.toNat = 2 ^ k ∧ (fresh (rteRingInit mem count flags) : Link ι α).Balanced k :=
    balanced_fresh mem flags hcount hpos
  have h : (bs.foldl step (fresh (rteRingInit mem count flags))).Balanced k :=
    List.foldlRecOn bs step hfresh fun _ h b _ => h.step b
  refine ⟨h.order, ?_, fun i => ⟨h.tx i, h.err i, h.rx i⟩⟩
  rw [h.quiet.length_contents, hk]
  exact h.quiet.count

end Link

end

/-- A port sends three packets into a ring of four places, then none and then two more, of which there is no room for any;
another port receives two. -/
def exchange : List (Burst Bool Nat) :=
  [.tx false (fun i => 10 + i) 3, .waterMark 2, .tx false (fun _ => 0) 0, .tx false (fun i => 20 + i) 2,
    .rx true (fun _ => 0) 2]

theorem exchange_accounting :
    (exchange.foldl Link.step (.fresh (rteRingInit (fun _ => 0) 4 3))).sent = [(false, 10), (false, 11), (false, 12)] ∧
    ((exchange.foldl Link.step (.fresh (rteRingInit (fun _ => 0) 4 3))).txQueue false).errPkts = 2 ∧
    (exchange.foldl Link.step (.fresh (rteRingInit (fun _ => 0) 4 3))).received.map Prod.snd ++
        (exchange.foldl Link.step (.fresh (rteRingInit (fun _ => 0) 4 3))).ring.contents =
      (exchange.foldl Link.step (.fresh (rteRingInit (fun _ => 0) 4 3))).sent.map Prod.snd :=
  ⟨by decide +kernel, by decide +kernel,
    (Link.link_accounting (fun _ => 0) 3 (by decide) (by decide) exchange).1⟩

end SoftPatchPanel.Ring

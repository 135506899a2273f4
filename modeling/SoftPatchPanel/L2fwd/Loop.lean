import SoftPatchPanel.L2fwd.Pairing
import Mathlib.Algebra.BigOperators.Group.List.Basic

/-!
# The forwarding loop

The loop of `l2fwd` on one lcore.  A packet waits in the buffer of its output port until the buffer is full or the drain
timer is due; then the driver takes some packets from the front and the others are freed.  `Lcore` has, besides the data
of the source, the packets that each port received and those that left each buffer, with what became of them.

All that went to a port, in the order of arrival, is what left its buffer followed by what is in it (`Lcore.flow`); a
packet extends it by one (`sendPacket_spec`) and the drain keeps it (`drain_spec`).  The ports are paired, so the flow of
a port is what its partner received, which is what the rounds delivered (`accounting`).
-/

namespace SoftPatchPanel.L2fwd

open EthDev

/-- `MAX_PKT_BURST`. -/
def maxPktBurst : Nat := 32

/-! ### The state -/

/-- An mbuf, and the bytes from its data pointer on. -/
structure Packet where
  mbuf : Nat
  data : List UInt8
deriving DecidableEq, Inhabited

/-- What becomes of a packet that leaves a buffer. -/
inductive Fate where
  | sent
  | dropped
deriving DecidableEq

/-- `struct mbuf_table`. -/
structure MbufTable where
  len : Nat := 0
  mTable : Nat → Packet := fun _ => default

/-- The packets in a table. -/
def MbufTable.packets (t : MbufTable) : List Packet := (List.range t.len).map t.mTable

/-- `struct l2fwd_port_statistics`. -/
structure PortStatistics where
  tx : UInt64 := 0
  rx : UInt64 := 0
  dropped : UInt64 := 0
deriving DecidableEq

/-- What one lcore works on, and what happened to the packets so far. -/
structure Lcore where
  txMbufs : PortId → MbufTable := fun _ => {}
  portStatistics : PortId → PortStatistics := fun _ => {}
  prevTsc : UInt64 := 0
  timerTsc : UInt64 := 0
  txBursts : Nat := 0
  received : PortId → List Packet := fun _ => []
  left : PortId → List (Packet × Fate) := fun _ => []

/-- The settings: the ports, of which `main` gives enabled ones to an lcore, the timers, and the number of packets that
the driver is ready to take at each call of `rte_eth_tx_burst`. -/
structure Config where
  nbPorts : Nat
  mask : UInt32
  rxPortList : List PortId
  enabled : ∀ portid ∈ rxPortList, portid ∈ enabledPorts nbPorts mask
  ethAddr : PortId → List UInt8
  drainTsc : UInt64
  timerPeriod : Int
  master : Bool
  accepts : Nat → Nat

/-- `l2fwd_dst_ports`. -/
def Config.dst (cfg : Config) : PortId → PortId := dstPorts cfg.nbPorts cfg.mask

/-- `cmd_type`. -/
inductive CmdType where
  | stop
  | start
  | add
  | del
deriving DecidableEq

/-- What one round of the loop meets: the command, the clock, and the packets that wait in each receive queue. -/
structure Round where
  cmd : CmdType
  curTsc : UInt64
  rx : Nat → List Packet

/-- The packets that `rte_eth_rx_burst` returns for the `i`-th port. -/
def Round.burst (r : Round) (i : Nat) : List Packet := (r.rx i).take maxPktBurst

/-! ### Sending -/

/-- Change the table of a port. -/
def Lcore.setTable (st : Lcore) (port : PortId) (f : MbufTable → MbufTable) : Lcore :=
  { st with txMbufs := Function.update st.txMbufs port (f (st.txMbufs port)) }

/-- How the packets of a table leave when the driver takes `ret` of them: the others are freed. -/
def departures (ret : Nat) (table : List Packet) : List (Packet × Fate) :=
  (table.take ret).map (·, Fate.sent) ++ (table.drop ret).map (·, Fate.dropped)

/-- `l2fwd_send_burst`. -/
def Lcore.sendBurst (cfg : Config) (st : Lcore) (n : Nat) (port : PortId) : Lcore :=
  let table := (List.range n).map (st.txMbufs port).mTable
  let ret := min (cfg.accepts st.txBursts) n
  let stats := st.portStatistics port
  { st with
    txBursts := st.txBursts + 1
    portStatistics := Function.update st.portStatistics port
      { stats with
        tx := stats.tx + UInt64.ofNat ret
        dropped := if ret < n then stats.dropped + UInt64.ofNat (n - ret) else stats.dropped }
    left := Function.update st.left port (st.left port ++ departures ret table) }

/-- `l2fwd_send_packet`. -/
def Lcore.sendPacket (cfg : Config) (st : Lcore) (m : Packet) (port : PortId) : Lcore :=
  let len := (st.txMbufs port).len
  let st := st.setTable port fun t => { t with mTable := Function.update t.mTable len m }
  let len := len + 1
  if len = maxPktBurst then (st.sendBurst cfg maxPktBurst port).setTable port ({ · with len := 0 })
  else st.setTable port ({ · with len := len })

/-- Overwrite bytes. -/
def writeAt (offset : Nat) (bytes data : List UInt8) : List UInt8 :=
  data.take offset ++ bytes ++ data.drop (offset + bytes.length)

/-- A `uint64_t` in memory. -/
def bytes64 (v : UInt64) : List UInt8 := (List.range 8).map fun i => (v >>> UInt64.ofNat (8 * i)).toUInt8

/-- The packet with the new addresses in its header. -/
def Config.readdress (cfg : Config) (dstPort : PortId) (m : Packet) : Packet :=
  let header := bytes64 ((0x000000000002 : UInt64) + UInt64.ofNat dstPort <<< 40)
  { m with data := writeAt 6 (cfg.ethAddr dstPort) (writeAt 0 header m.data) }

/-- `l2fwd_simple_forward`. -/
def Lcore.simpleForward (cfg : Config) (portid : PortId) (st : Lcore) (m : Packet) : Lcore :=
  st.sendPacket cfg (cfg.readdress (cfg.dst portid) m) (cfg.dst portid)

/-! ### The loop -/

/-- The drain of one port. -/
def Lcore.drainPort (cfg : Config) (st : Lcore) (portid : PortId) : Lcore :=
  if (st.txMbufs portid).len = 0 then st
  else (st.sendBurst cfg (st.txMbufs portid).len portid).setTable portid ({ · with len := 0 })

/-- The timer of the statistics. -/
def Config.advance (cfg : Config) (timerTsc diffTsc : UInt64) : UInt64 :=
  if 0 < cfg.timerPeriod then
    if UInt64.ofInt cfg.timerPeriod ≤ timerTsc + diffTsc ∧ cfg.master then 0 else timerTsc + diffTsc
  else timerTsc

/-- The drain of the transmit buffers, if it is due. -/
def Lcore.drain (cfg : Config) (st : Lcore) (curTsc : UInt64) : Lcore :=
  let diffTsc := curTsc - st.prevTsc
  if cfg.drainTsc < diffTsc then
    { (List.finRange rteMaxEthports).foldl (Lcore.drainPort cfg) st with
      timerTsc := cfg.advance st.timerTsc diffTsc
      prevTsc := curTsc }
  else st

/-- A burst is received. -/
def Lcore.receive (st : Lcore) (portid : PortId) (pkts : List Packet) : Lcore :=
  let stats := st.portStatistics portid
  { st with
    portStatistics := Function.update st.portStatistics portid { stats with rx := stats.rx + UInt64.ofNat pkts.length }
    received := Function.update st.received portid (st.received portid ++ pkts) }

/-- The port with index `i` is polled. -/
def Lcore.pollPort (cfg : Config) (r : Round) (st : Lcore) (x : PortId × Nat) : Lcore :=
  (r.burst x.2).foldl (Lcore.simpleForward cfg x.1) (st.receive x.1 (r.burst x.2))

/-- One round of `iofwd_loop`. -/
def Lcore.round (cfg : Config) (st : Lcore) (r : Round) : Lcore :=
  if r.cmd = .stop then st else cfg.rxPortList.zipIdx.foldl (Lcore.pollPort cfg r) (st.drain cfg r.curTsc)

/-- `iofwd_loop`. -/
def iofwdLoop (cfg : Config) (rounds : List Round) : Lcore :=
  if cfg.rxPortList = [] then {} else rounds.foldl (Lcore.round cfg) {}

/-- A state inside a round: some ports are polled, and some packets of the next one are forwarded. -/
def Between (cfg : Config) (st : Lcore) (r : Round) (st' : Lcore) : Prop :=
  ∃ before portid i after k, cfg.rxPortList.zipIdx = before ++ (portid, i) :: after ∧
    st' = ((r.burst i).take k).foldl (Lcore.simpleForward cfg portid)
      ((before.foldl (Lcore.pollPort cfg r) (st.drain cfg r.curTsc)).receive portid (r.burst i))

/-- A total of `print_stats`. -/
def Lcore.total (cfg : Config) (st : Lcore) (field : PortStatistics → UInt64) : UInt64 :=
  (List.finRange rteMaxEthports).foldl
    (fun total portid => if maskBit cfg.mask portid then total + field (st.portStatistics portid) else total) 0

/-- The number of packets in all buffers. -/
def Lcore.buffered (st : Lcore) : Nat := ((List.finRange rteMaxEthports).map fun q => (st.txMbufs q).len).sum

/-! ### The flow of a port -/

/-- All packets that went to a port: those that left its buffer and those in it. -/
def Lcore.flow (st : Lcore) (q : PortId) : List Packet := (st.left q).map Prod.fst ++ (st.txMbufs q).packets

/-- What left the buffer of port `q`, when `txs` are the calls of `rte_eth_tx_burst`: of the packets of a call the driver
takes as many as it is ready to, from the front, and the others are freed. -/
def Config.departed (cfg : Config) (q : PortId) (txs : List (PortId × List Packet)) : List (Packet × Fate) :=
  (txs.zipIdx.filter fun x => x.1.1 = q).flatMap fun x => departures (cfg.accepts x.2) x.1.2

/-- The buffers are not full, the statistics count what happened, and what left a buffer was handed to the driver. -/
structure Lcore.Sound (cfg : Config) (st : Lcore) : Prop where
  len : ∀ q, (st.txMbufs q).len < maxPktBurst
  rx : ∀ q, (st.portStatistics q).rx = UInt64.ofNat (st.received q).length
  tx : ∀ q, (st.portStatistics q).tx = UInt64.ofNat ((st.left q).countP (·.2 = .sent))
  dropped : ∀ q, (st.portStatistics q).dropped = UInt64.ofNat ((st.left q).countP (·.2 = .dropped))
  driver : ∃ txs, txs.length = st.txBursts ∧ ∀ q, st.left q = cfg.departed q txs

private theorem map_fst_departures (ret : Nat) (table : List Packet) : (departures ret table).map Prod.fst = table := by
  simp [departures, Function.comp_def]

private theorem count_sent_departures (ret : Nat) (table : List Packet) :
    (departures ret table).countP (·.2 = .sent) = min ret table.length := by
  rw [departures, List.countP_append, List.countP_map, List.countP_map]
  simp [Function.comp_def]

private theorem count_dropped_departures (ret : Nat) (table : List Packet) :
    (departures ret table).countP (·.2 = .dropped) = table.length - ret := by
  rw [departures, List.countP_append, List.countP_map, List.countP_map]
  simp [Function.comp_def]

private theorem departures_min {ret n : Nat} {table : List Packet} (h : table.length = n) :
    departures (min ret n) table = departures ret table := by
  rcases Nat.le_total ret n with hle | hle
  · rw [Nat.min_eq_left hle]
  · simp [departures, Nat.min_eq_right hle, List.take_of_length_le (h ▸ Nat.le_refl n : table.length ≤ n),
      List.take_of_length_le (h ▸ hle : table.length ≤ ret), List.drop_of_length_le (h ▸ Nat.le_refl n : table.length ≤ n),
      List.drop_of_length_le (h ▸ hle : table.length ≤ ret)]

private theorem departed_concat (cfg : Config) (q q' : PortId) (txs : List (PortId × List Packet))
    (table : List Packet) :
    cfg.departed q' (txs ++ [(q, table)]) =
      cfg.departed q' txs ++ if q' = q then departures (cfg.accepts txs.length) table else [] := by
  rw [Config.departed, List.zipIdx_append, List.filter_append, List.flatMap_append, Nat.zero_add]
  congr 1
  by_cases hq : q = q'
  · simp [hq]
  · simp [hq, Ne.symm hq]

/-- A burst of `n` packets is sent, and the table is empty after it. -/
private def flush (cfg : Config) (st : Lcore) (n : Nat) (q : PortId) : Lcore :=
  (st.sendBurst cfg n q).setTable q ({ · with len := 0 })

section

variable (cfg : Config) {st : Lcore} (q : PortId)

private theorem flush_flow (st : Lcore) (n : Nat) (q' : PortId) :
    (flush cfg st n q).flow q' =
      if q' = q then (st.left q).map Prod.fst ++ (List.range n).map (st.txMbufs q).mTable else st.flow q' := by
  by_cases hq : q' = q
  · subst hq
    simp [flush, Lcore.flow, Lcore.sendBurst, Lcore.setTable, MbufTable.packets, map_fst_departures]
  · simp [flush, Lcore.flow, Lcore.sendBurst, Lcore.setTable, hq]

private theorem flush_driver (h : st.Sound cfg) (n : Nat) :
    ∃ txs, txs.length = (flush cfg st n q).txBursts ∧ ∀ q', (flush cfg st n q).left q' = cfg.departed q' txs := by
  obtain ⟨txs, hlen, hleft⟩ := h.driver
  refine ⟨txs ++ [(q, (List.range n).map (st.txMbufs q).mTable)], ?_, fun q' => ?_⟩
  · rw [List.length_append, hlen]
    rfl
  · rw [departed_concat, ← hleft, hlen]
    by_cases hq : q' = q
    · subst hq
      simp [flush, Lcore.setTable, Lcore.sendBurst, departures_min]
    · simp [flush, Lcore.setTable, Lcore.sendBurst, hq]

private theorem flush_sound (h : st.Sound cfg) (n : Nat) : (flush cfg st n q).Sound cfg := by
  refine ⟨fun q' => ?_, fun q' => ?_, fun q' => ?_, fun q' => ?_, flush_driver cfg q h n⟩ <;> by_cases hq : q' = q
  · subst hq
    simp [flush, Lcore.setTable, maxPktBurst]
  · simpa [flush, Lcore.setTable, Lcore.sendBurst, hq] using h.len q'
  · subst hq
    simpa [flush, Lcore.setTable, Lcore.sendBurst] using h.rx q'
  · simpa [flush, Lcore.setTable, Lcore.sendBurst, hq] using h.rx q'
  · subst hq
    simp [flush, Lcore.setTable, Lcore.sendBurst, h.tx q', count_sent_departures]
  · simpa [flush, Lcore.setTable, Lcore.sendBurst, hq] using h.tx q'
  · subst hq
    simp only [flush, Lcore.setTable, Lcore.sendBurst, Function.update_self, List.countP_append,
      count_dropped_departures, List.length_map, List.length_range, h.dropped q', UInt64.ofNat_add]
    split
    · rfl
    · rw [Nat.sub_eq_zero_of_le (by omega)]
      exact (UInt64.add_zero _).symm
  · simpa [flush, Lcore.setTable, Lcore.sendBurst, hq] using h.dropped q'

private theorem setTable_sound (h : st.Sound cfg) {f : MbufTable → MbufTable}
    (hf : (f (st.txMbufs q)).len < maxPktBurst) : (st.setTable q f).Sound cfg := by
  refine ⟨fun q' => ?_, h.rx, h.tx, h.dropped, h.driver⟩
  by_cases hq : q' = q
  · subst hq
    simpa [Lcore.setTable] using hf
  · simpa [Lcore.setTable, hq] using h.len q'

/-- A packet is added to the flow of its port. -/
theorem sendPacket_spec (h : st.Sound cfg) (m : Packet) :
    (st.sendPacket cfg m q).Sound cfg ∧ (st.sendPacket cfg m q).received = st.received ∧
      ∀ q', (st.sendPacket cfg m q).flow q' = st.flow q' ++ if q' = q then [m] else [] := by
  have hput : (List.range (st.txMbufs q).len).map (Function.update (st.txMbufs q).mTable (st.txMbufs q).len m) =
      (st.txMbufs q).packets := by
    refine List.map_congr_left fun i hi => Function.update_of_ne ?_ _ _
    have := List.mem_range.1 hi
    omega
  have hlen := h.len q
  by_cases hfull : (st.txMbufs q).len + 1 = maxPktBurst
  · have heq : st.sendPacket cfg m q = flush cfg
        (st.setTable q fun t => { t with mTable := Function.update t.mTable (st.txMbufs q).len m }) maxPktBurst q :=
      if_pos hfull
    rw [heq]
    refine ⟨flush_sound cfg q (setTable_sound cfg q h hlen) _, rfl, fun q' => ?_⟩
    rw [flush_flow cfg q]
    by_cases hq : q' = q
    · subst hq
      simp [← hfull, Lcore.setTable, List.range_succ, hput, Lcore.flow]
    · simp [hq, Lcore.flow, Lcore.setTable]
  · have heq : st.sendPacket cfg m q =
        (st.setTable q fun t => { t with mTable := Function.update t.mTable (st.txMbufs q).len m }).setTable q
          ({ · with len := (st.txMbufs q).len + 1 }) := if_neg hfull
    rw [heq]
    refine ⟨setTable_sound cfg q (setTable_sound cfg q h hlen) (show (st.txMbufs q).len + 1 < maxPktBurst by omega), rfl,
      fun q' => ?_⟩
    by_cases hq : q' = q
    · subst hq
      simp [Lcore.setTable, MbufTable.packets, List.range_succ, hput, Lcore.flow]
    · simp [hq, Lcore.flow, Lcore.setTable]

private theorem drainPort_spec (h : st.Sound cfg) :
    (st.drainPort cfg q).Sound cfg ∧ (st.drainPort cfg q).received = st.received ∧
      (st.drainPort cfg q).flow = st.flow := by
  by_cases hlen : (st.txMbufs q).len = 0
  · rw [Lcore.drainPort, if_pos hlen]
    exact ⟨h, rfl, rfl⟩
  · have heq : st.drainPort cfg q = flush cfg st (st.txMbufs q).len q := if_neg hlen
    rw [heq]
    refine ⟨flush_sound cfg q h _, rfl, funext fun q' => ?_⟩
    rw [flush_flow cfg q]
    by_cases hq : q' = q
    · subst hq
      simp [Lcore.flow, MbufTable.packets]
    · simp [hq]

/-- The drain does not change the flows. -/
theorem drain_spec (h : st.Sound cfg) (curTsc : UInt64) :
    (st.drain cfg curTsc).Sound cfg ∧ (st.drain cfg curTsc).received = st.received ∧
      (st.drain cfg curTsc).flow = st.flow := by
  have hports : ∀ (qs : List PortId) {st : Lcore}, st.Sound cfg →
      (qs.foldl (Lcore.drainPort cfg) st).Sound cfg ∧ (qs.foldl (Lcore.drainPort cfg) st).received = st.received ∧
        (qs.foldl (Lcore.drainPort cfg) st).flow = st.flow := by
    intro qs
    induction qs with
    | nil => exact fun h => ⟨h, rfl, rfl⟩
    | cons q qs ih =>
      intro st h
      obtain ⟨h1, h2, h3⟩ := drainPort_spec cfg q h
      obtain ⟨h1', h2', h3'⟩ := ih h1
      exact ⟨h1', h2'.trans h2, h3'.trans h3⟩
  rw [Lcore.drain]
  split
  · have hall := hports (List.finRange rteMaxEthports) h
    generalize (List.finRange rteMaxEthports).foldl (Lcore.drainPort cfg) st = st' at hall ⊢
    obtain ⟨hsound, hreceived, hflow⟩ := hall
    exact ⟨⟨hsound.len, hsound.rx, hsound.tx, hsound.dropped, hsound.driver⟩, hreceived, hflow⟩
  · exact ⟨h, rfl, rfl⟩

/-- The packets of a burst are added to the flow of the partner. -/
private theorem forward_spec (h : st.Sound cfg) (portid : PortId) (ms : List Packet) :
    (ms.foldl (Lcore.simpleForward cfg portid) st).Sound cfg ∧
      (ms.foldl (Lcore.simpleForward cfg portid) st).received = st.received ∧
      ∀ q, (ms.foldl (Lcore.simpleForward cfg portid) st).flow q =
        st.flow q ++ if q = cfg.dst portid then ms.map (cfg.readdress (cfg.dst portid)) else [] := by
  induction ms generalizing st with
  | nil => exact ⟨h, rfl, fun q => by simp⟩
  | cons m ms ih =>
    obtain ⟨h1, h2, h3⟩ : (st.simpleForward cfg portid m).Sound cfg ∧
        (st.simpleForward cfg portid m).received = st.received ∧
        ∀ q, (st.simpleForward cfg portid m).flow q =
          st.flow q ++ if q = cfg.dst portid then [cfg.readdress (cfg.dst portid) m] else [] :=
      sendPacket_spec cfg (cfg.dst portid) h (cfg.readdress (cfg.dst portid) m)
    obtain ⟨h1', h2', h3'⟩ := ih h1
    refine ⟨h1', h2'.trans h2, fun q => ?_⟩
    rw [List.foldl_cons, h3', h3]
    by_cases hq : q = cfg.dst portid <;> simp [hq]

private theorem receive_sound (h : st.Sound cfg) (portid : PortId) (pkts : List Packet) :
    (st.receive portid pkts).Sound cfg := by
  refine ⟨h.len, fun q' => ?_, fun q' => ?_, fun q' => ?_, h.driver⟩ <;> by_cases hq : q' = portid
  · subst hq
    simp [Lcore.receive, h.rx q']
  · simpa [Lcore.receive, hq] using h.rx q'
  · subst hq
    simpa [Lcore.receive] using h.tx q'
  · simpa [Lcore.receive, hq] using h.tx q'
  · subst hq
    simpa [Lcore.receive] using h.dropped q'
  · simpa [Lcore.receive, hq] using h.dropped q'

end

/-! ### Runs -/

/-- What `rte_eth_rx_burst` returns for port `p` in a round. -/
def Config.delivered (cfg : Config) (p : PortId) (r : Round) : List Packet :=
  if r.cmd = .stop then [] else (cfg.rxPortList.zipIdx.filter fun x => x.1 = p).flatMap fun x => r.burst x.2

/-- The flow of each enabled port is what its partner received, and nothing goes to the other ports. -/
structure Lcore.Matched (cfg : Config) (st : Lcore) : Prop where
  flow : ∀ p ∈ enabledPorts cfg.nbPorts cfg.mask,
    st.flow (cfg.dst p) = (st.received p).map (cfg.readdress (cfg.dst p))
  idle : ∀ q ∉ enabledPorts cfg.nbPorts cfg.mask, st.flow q = [] ∧ st.received q = []

section

variable {cfg : Config} {st : Lcore}

private theorem pollPort_received (hs : st.Sound cfg) (r : Round) (x : PortId × Nat) (p : PortId) :
    (st.pollPort cfg r x).received p = st.received p ++ if x.1 = p then r.burst x.2 else [] := by
  rw [Lcore.pollPort, (forward_spec cfg (receive_sound cfg hs x.1 _) x.1 _).2.1]
  by_cases hp : x.1 = p
  · subst hp
    simp [Lcore.receive]
  · simp [Lcore.receive, hp, Ne.symm hp]

private theorem pollPort_spec (hs : st.Sound cfg) (hm : st.Matched cfg) (r : Round) {x : PortId × Nat}
    (hx : x.1 ∈ enabledPorts cfg.nbPorts cfg.mask) :
    (st.pollPort cfg r x).Sound cfg ∧ (st.pollPort cfg r x).Matched cfg := by
  obtain ⟨p, i⟩ := x
  replace hx : p ∈ enabledPorts cfg.nbPorts cfg.mask := hx
  obtain ⟨hsound, hreceived, hflow⟩ := forward_spec cfg (receive_sound cfg hs p (r.burst i)) p (r.burst i)
  refine ⟨hsound, fun p' hp' => ?_, fun q hq => ?_⟩
  · -- no two ports have the same partner
    have hinj : cfg.dst p' = cfg.dst p ↔ p' = p := by
      refine ⟨fun heq => ?_, fun heq => heq ▸ rfl⟩
      rw [← dstPorts_dstPorts hp', ← dstPorts_dstPorts hx]
      exact congrArg cfg.dst heq
    rw [Lcore.pollPort, hflow, hreceived]
    have hflow' : (st.receive p (r.burst i)).flow (cfg.dst p') = st.flow (cfg.dst p') := rfl
    rw [hflow', hm.flow p' hp']
    by_cases heq : p' = p
    · subst heq
      simp [Lcore.receive]
    · simp [hinj, heq, Lcore.receive]
  · have hdst : q ≠ cfg.dst p := fun heq => hq (heq ▸ dstPorts_mem hx)
    have hp : q ≠ p := fun heq => hq (heq ▸ hx)
    rw [Lcore.pollPort, hflow, hreceived]
    have hflow' : (st.receive p (r.burst i)).flow q = st.flow q := rfl
    rw [hflow']
    simpa [hdst, Lcore.receive, hp] using hm.idle q hq

private theorem drain_matched (hs : st.Sound cfg) (hm : st.Matched cfg) (curTsc : UInt64) :
    (st.drain cfg curTsc).Sound cfg ∧ (st.drain cfg curTsc).Matched cfg := by
  obtain ⟨hsound, hreceived, hflow⟩ := drain_spec cfg hs curTsc
  refine ⟨hsound, fun p hp => ?_, fun q hq => ?_⟩
  · rw [hflow, hreceived]
    exact hm.flow p hp
  · rw [hflow, hreceived]
    exact hm.idle q hq

private theorem pollPorts_spec (hs : st.Sound cfg) (hm : st.Matched cfg) (r : Round) {xs : List (PortId × Nat)}
    (hxs : ∀ x ∈ xs, x.1 ∈ enabledPorts cfg.nbPorts cfg.mask) :
    (xs.foldl (Lcore.pollPort cfg r) st).Sound cfg ∧ (xs.foldl (Lcore.pollPort cfg r) st).Matched cfg ∧
      ∀ p, (xs.foldl (Lcore.pollPort cfg r) st).received p =
        st.received p ++ (xs.filter fun x => x.1 = p).flatMap fun x => r.burst x.2 := by
  induction xs generalizing st with
  | nil => exact ⟨hs, hm, fun p => by simp⟩
  | cons x xs ih =>
    rw [List.forall_mem_cons] at hxs
    obtain ⟨hs', hm'⟩ := pollPort_spec hs hm r hxs.1
    obtain ⟨hs'', hm'', hreceived⟩ := ih hs' hm' hxs.2
    refine ⟨hs'', hm'', fun p => ?_⟩
    rw [List.foldl_cons, hreceived, pollPort_received hs, List.append_assoc]
    congr 1
    by_cases hp : x.1 = p <;> simp [hp]

private theorem enabled_of_mem_zipIdx {x : PortId × Nat} (h : x ∈ cfg.rxPortList.zipIdx) :
    x.1 ∈ enabledPorts cfg.nbPorts cfg.mask :=
  cfg.enabled _ (List.fst_mem_of_mem_zipIdx h)

private theorem round_spec (hs : st.Sound cfg) (hm : st.Matched cfg) (r : Round) :
    (st.round cfg r).Sound cfg ∧ (st.round cfg r).Matched cfg ∧
      ∀ p, (st.round cfg r).received p = st.received p ++ cfg.delivered p r := by
  unfold Lcore.round Config.delivered
  split
  · exact ⟨hs, hm, fun p => (List.append_nil _).symm⟩
  · obtain ⟨hs', hm'⟩ := drain_matched hs hm r.curTsc
    rw [← (drain_spec cfg hs r.curTsc).2.1]
    exact pollPorts_spec hs' hm' r fun x => enabled_of_mem_zipIdx

/-- Inside a round the buffers are not full either. -/
private theorem Between.sound (hs : st.Sound cfg) (hm : st.Matched cfg) {r : Round} {st' : Lcore}
    (h : Between cfg st r st') : st'.Sound cfg := by
  obtain ⟨before, p, i, after, k, hports, rfl⟩ := h
  obtain ⟨hs', hm'⟩ := drain_matched hs hm r.curTsc
  have hbefore := @pollPorts_spec _ _ hs' hm' r before fun x hx =>
    enabled_of_mem_zipIdx (hports ▸ List.mem_append_left _ hx)
  exact (forward_spec cfg (receive_sound cfg hbefore.1 p _) p _).1

end

private theorem loop_spec (cfg : Config) (rounds : List Round) :
    (iofwdLoop cfg rounds).Sound cfg ∧ (iofwdLoop cfg rounds).Matched cfg ∧
      ∀ p, (iofwdLoop cfg rounds).received p = rounds.flatMap (cfg.delivered p) := by
  have hsound : ({} : Lcore).Sound cfg :=
    ⟨fun _ => Nat.zero_lt_succ _, fun _ => rfl, fun _ => rfl, fun _ => rfl, [], rfl, fun _ => rfl⟩
  have hmatched : ({} : Lcore).Matched cfg := ⟨fun _ _ => rfl, fun _ _ => ⟨rfl, rfl⟩⟩
  have hrun : ∀ {st : Lcore}, st.Sound cfg → st.Matched cfg →
      (rounds.foldl (Lcore.round cfg) st).Sound cfg ∧ (rounds.foldl (Lcore.round cfg) st).Matched cfg ∧
        ∀ p, (rounds.foldl (Lcore.round cfg) st).received p = st.received p ++ rounds.flatMap (cfg.delivered p) := by
    induction rounds with
    | nil => exact fun hs hm => ⟨hs, hm, fun p => (List.append_nil _).symm⟩
    | cons r rounds ih =>
      intro st hs hm
      obtain ⟨hs', hm', hreceived⟩ := round_spec hs hm r
      obtain ⟨hs'', hm'', hreceived'⟩ := ih hs' hm'
      refine ⟨hs'', hm'', fun p => ?_⟩
      rw [List.foldl_cons, hreceived', hreceived, List.flatMap_cons, List.append_assoc]
  unfold iofwdLoop
  split
  · rename_i hnone
    refine ⟨hsound, hmatched, fun p => (List.flatMap_eq_nil_iff.2 fun r _ => ?_).symm⟩
    simp [Config.delivered, hnone]
  · exact hrun hsound hmatched

/-! ### Totals -/

section

variable {cfg : Config} {st : Lcore}

private theorem sum_filter {g : PortId → Nat} {P : PortId → Bool} {qs : List PortId}
    (h : ∀ q ∈ qs, P q = false → g q = 0) : ((qs.filter P).map g).sum = (qs.map g).sum := by
  induction qs with
  | nil => rfl
  | cons q qs ih =>
    rw [List.forall_mem_cons] at h
    rw [List.map_cons, List.sum_cons, ← ih h.2]
    cases hP : P q with
    | false => simp [hP, h.1 hP]
    | true => simp [hP]

/-- A number that is 0 for the disabled ports has the same sum over the enabled ports and over all. -/
private theorem sum_enabledPorts {g : PortId → Nat} (hg : ∀ q ∉ enabledPorts cfg.nbPorts cfg.mask, g q = 0) :
    ((enabledPorts cfg.nbPorts cfg.mask).map g).sum = ((List.finRange rteMaxEthports).map g).sum := by
  have hmem : ∀ q, q ∈ enabledPorts cfg.nbPorts cfg.mask ↔ q ∈ portids cfg.nbPorts ∧ maskBit cfg.mask q := fun q =>
    List.mem_filter
  have hmask : ((enabledPorts cfg.nbPorts cfg.mask).map g).sum = ((portids cfg.nbPorts).map g).sum :=
    sum_filter fun q _ hq => hg q fun h => by simp [((hmem q).1 h).2] at hq
  have hports : ((portids cfg.nbPorts).map g).sum = ((List.finRange rteMaxEthports).map g).sum :=
    sum_filter fun q _ hq => hg q fun h => by simp [(List.mem_filter.1 ((hmem q).1 h).1).2] at hq
  exact hmask.trans hports

/-- What `print_stats` adds up, for a number that is 0 for the disabled ports. -/
private theorem total_eq {field : PortStatistics → UInt64} {g : PortId → Nat}
    (hfield : ∀ q, field (st.portStatistics q) = UInt64.ofNat (g q))
    (hg : ∀ q ∉ enabledPorts cfg.nbPorts cfg.mask, g q = 0) :
    st.total cfg field = UInt64.ofNat ((enabledPorts cfg.nbPorts cfg.mask).map g).sum := by
  have hsum : ∀ (qs : List PortId) (total : UInt64),
      qs.foldl (fun total q => if maskBit cfg.mask q then total + field (st.portStatistics q) else total) total =
        total + UInt64.ofNat (qs.map g).sum := by
    intro qs
    induction qs with
    | nil => exact fun total => (UInt64.add_zero total).symm
    | cons q qs ih =>
      intro total
      rw [List.foldl_cons, ih, List.map_cons, List.sum_cons, UInt64.ofNat_add, ← UInt64.add_assoc]
      by_cases hq : maskBit cfg.mask q = true
      · rw [if_pos hq, hfield]
      · have hzero : g q = 0 := hg q fun h => hq (List.mem_filter.1 h).2
        rw [if_neg hq, hzero]
        exact congrArg (· + _) (UInt64.add_zero total).symm
  rw [Lcore.total, hsum, sum_enabledPorts hg]
  exact UInt64.zero_add _

private theorem length_flow (q : PortId) : (st.flow q).length =
    (st.left q).countP (·.2 = .sent) + (st.left q).countP (·.2 = .dropped) + (st.txMbufs q).len := by
  have hfates : (st.left q).length = (st.left q).countP (·.2 = .sent) + (st.left q).countP (·.2 = .dropped) := by
    rw [List.length_eq_countP_add_countP (·.2 = Fate.sent)]
    congr 1
    refine List.countP_congr fun x _ => ?_
    obtain ⟨m, fate⟩ := x
    cases fate <;> simp
  rw [Lcore.flow, List.length_append, List.length_map, hfates, MbufTable.packets, List.length_map, List.length_range]

/-- The totals of `print_stats` and the packets in the buffers add up. -/
private theorem total_balance (hs : st.Sound cfg) (hm : st.Matched cfg) :
    st.total cfg (·.rx) = st.total cfg (·.tx) + st.total cfg (·.dropped) + UInt64.ofNat st.buffered := by
  have hidle : ∀ q ∉ enabledPorts cfg.nbPorts cfg.mask, (st.left q).countP (·.2 = .sent) = 0 ∧
      (st.left q).countP (·.2 = .dropped) = 0 ∧ (st.txMbufs q).len = 0 ∧ (st.received q).length = 0 := by
    intro q hq
    obtain ⟨hflow, hreceived⟩ := hm.idle q hq
    have hlen : (st.flow q).length = 0 := by rw [hflow]; rfl
    rw [length_flow] at hlen
    exact ⟨by omega, by omega, by omega, by rw [hreceived]; rfl⟩
  rw [total_eq hs.rx fun q hq => (hidle q hq).2.2.2, total_eq hs.tx fun q hq => (hidle q hq).1,
    total_eq hs.dropped fun q hq => (hidle q hq).2.1, Lcore.buffered,
    ← sum_enabledPorts fun q hq => (hidle q hq).2.2.1, ← UInt64.ofNat_add, ← UInt64.ofNat_add]
  -- what is received on the enabled ports is the flow of their partners, which are the enabled ports again
  have hreceived : ((enabledPorts cfg.nbPorts cfg.mask).map fun p => (st.received p).length) =
      ((enabledPorts cfg.nbPorts cfg.mask).map cfg.dst).map fun q => (st.flow q).length := by
    rw [List.map_map]
    refine List.map_congr_left fun p hp => ?_
    rw [Function.comp_apply, hm.flow p hp, List.length_map]
  have hperm : ((enabledPorts cfg.nbPorts cfg.mask).map cfg.dst).Perm (enabledPorts cfg.nbPorts cfg.mask) :=
    map_dstPorts_perm cfg.nbPorts cfg.mask
  rw [hreceived, (hperm.map _).sum_eq]
  simp only [length_flow, List.sum_map_add]

end

/-! ### Accounting -/

/-- What is expected at the head of the loop after some rounds: what the bursts of an enabled port delivered has left the
buffer of its partner or is still in it, in this order; what left was handed to the driver, which took a part of each
burst, and the rest was dropped; the statistics count this, and the totals add up. -/
structure Accounted (cfg : Config) (rounds : List Round) (st : Lcore) : Prop where
  inOrder : ∀ p ∈ enabledPorts cfg.nbPorts cfg.mask,
    (st.left (cfg.dst p)).map Prod.fst ++ (st.txMbufs (cfg.dst p)).packets =
      (rounds.flatMap (cfg.delivered p)).map (cfg.readdress (cfg.dst p))
  nowhereElse : ∀ q ∉ enabledPorts cfg.nbPorts cfg.mask, st.left q = [] ∧ (st.txMbufs q).packets = []
  driver : ∃ txs, txs.length = st.txBursts ∧ ∀ q, st.left q = cfg.departed q txs
  rx : ∀ p, (st.portStatistics p).rx = UInt64.ofNat (rounds.flatMap (cfg.delivered p)).length
  tx : ∀ q, (st.portStatistics q).tx = UInt64.ofNat ((st.left q).countP (·.2 = .sent))
  dropped : ∀ q, (st.portStatistics q).dropped = UInt64.ofNat ((st.left q).countP (·.2 = .dropped))
  total : st.total cfg (·.rx) = st.total cfg (·.tx) + st.total cfg (·.dropped) + UInt64.ofNat st.buffered

/-- The ports are paired, with at most the last port of an odd selection on its own; the buffers are never full between
packets; and at the head of the loop every packet is accounted for. -/
theorem accounting :
    (∀ nbPorts mask, ∀ p ∈ enabledPorts nbPorts mask,
      dstPorts nbPorts mask p ∈ enabledPorts nbPorts mask ∧
      dstPorts nbPorts mask (dstPorts nbPorts mask p) = p ∧
      (dstPorts nbPorts mask p = p →
        (enabledPorts nbPorts mask).length % 2 = 1 ∧ (enabledPorts nbPorts mask).getLast? = some p)) ∧
    ∀ cfg rounds,
      (∀ r st, Between cfg (iofwdLoop cfg rounds) r st → ∀ q, (st.txMbufs q).len < maxPktBurst) ∧
      (∀ q, ((iofwdLoop cfg rounds).txMbufs q).len < maxPktBurst) ∧
      Accounted cfg rounds (iofwdLoop cfg rounds) := by
  refine ⟨fun nbPorts mask p hp => ⟨dstPorts_mem hp, dstPorts_dstPorts hp, (dstPorts_eq_self_iff hp).1⟩,
    fun cfg rounds => ?_⟩
  obtain ⟨hs, hm, hreceived⟩ := loop_spec cfg rounds
  refine ⟨fun r st h => (h.sound hs hm).len, hs.len, fun p hp => hreceived p ▸ hm.flow p hp, fun q hq => ?_, hs.driver,
    fun p => hreceived p ▸ hs.rx p, hs.tx, hs.dropped, total_balance hs hm⟩
  have hnil := (hm.idle q hq).1
  rw [Lcore.flow, List.append_eq_nil_iff, List.map_eq_nil_iff] at hnil
  exact hnil

/-- Three ports on one lcore, with a driver that takes no more than 20 packets. -/
def threePorts : Config where
  nbPorts := 3
  mask := 7
  rxPortList := portids 3
  enabled := by decide
  ethAddr := fun _ => List.replicate 6 0
  drainTsc := 100
  timerPeriod := 0
  master := false
  accepts := fun _ => 20

theorem accounting_threePorts :
    dstPorts 3 7 (dstPorts 3 7 0) = 0 ∧
    Accounted threePorts [⟨.start, 7, fun _ => List.replicate 32 default⟩, ⟨.stop, 8, fun _ => []⟩]
      (iofwdLoop threePorts [⟨.start, 7, fun _ => List.replicate 32 default⟩, ⟨.stop, 8, fun _ => []⟩]) :=
  ⟨(accounting.1 3 7 0 (by decide)).2.1, (accounting.2 threePorts _).2.2⟩

end SoftPatchPanel.L2fwd

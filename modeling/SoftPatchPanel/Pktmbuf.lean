import Mathlib.Data.Multiset.AddSub
import Mathlib.Data.Multiset.Count

/-!
# Packet buffers and their pools

The parts of `rte_mbuf.h` and `rte_mempool.h` that decide where a buffer is and what its reference count is.  A pool
is the bag of the objects that are in it.  The caches of the lcores make the order in which a pool hands out objects
and the moment at which it runs dry unpredictable, so the caller of `rteMempoolGetBulk` says which objects it gets.

A buffer that is attached to another one has its `buf_addr` in the data room of that one.  The flag alone makes a buffer
indirect: where a buffer with its own data has it, `rte_mbuf_from_indirect` leads from the buffer to itself.
-/

namespace SoftPatchPanel.Pktmbuf

/-- The address of a buffer. -/
abbrev Addr := Nat

/-- The address of a pool. -/
abbrev PoolId := Nat

/-- The fields of `rte_mbuf` that describe the packet in it. -/
structure Packet where
  dataOff : UInt16 := 128
  dataLen : UInt16 := 0
  port : UInt8 := 255
  vlanTci : UInt16 := 0
  txOffload : UInt64 := 0
  hash : UInt64 := 0
  pktLen : UInt32 := 0
  nbSegs : UInt8 := 1
  olFlags : UInt64 := 0
  packetType : UInt32 := 0

/-- `struct rte_mbuf`; `data` are the bytes from `buf_addr` on, and `bufOwner` is the buffer in whose data room that
address is, `none` for the buffer itself. -/
structure Mbuf where
  pool : PoolId
  refcnt : UInt16 := 0
  next : Option Addr := none
  bufOwner : Option Addr := none
  bufLen : UInt16 := 2176
  pkt : Packet := {}
  data : Nat → UInt8 := fun _ => 0

/-- The buffers, the objects in each pool, and `mbuf_data_room_size` of the pools. -/
structure Mem where
  mbuf : Addr → Mbuf
  free : PoolId → Multiset Addr
  dataRoomSize : PoolId → UInt16 := fun _ => 2176

/-- Change one buffer. -/
def Mem.modify (mem : Mem) (m : Addr) (f : Mbuf → Mbuf) : Mem :=
  { mem with mbuf := Function.update mem.mbuf m (f (mem.mbuf m)) }

/-! ### Pools -/

/-- `rte_mempool_get_bulk` where it succeeds with the objects `objs`. -/
def rteMempoolGetBulk (mem : Mem) (p : PoolId) (objs : List Addr) : Mem :=
  { mem with free := Function.update mem.free p (mem.free p - objs) }

/-- `rte_mempool_put_bulk`. -/
def rteMempoolPutBulk (mem : Mem) (p : PoolId) (objs : List Addr) : Mem :=
  { mem with free := Function.update mem.free p (mem.free p + objs) }

/-- `rte_mempool_put`. -/
def rteMempoolPut (mem : Mem) (p : PoolId) (m : Addr) : Mem := rteMempoolPutBulk mem p [m]

/-! ### Allocation and release -/

/-- `RTE_PKTMBUF_HEADROOM`. -/
def rtePktmbufHeadroom : UInt16 := 128

/-- `rte_pktmbuf_reset`. -/
def rtePktmbufReset (m : Mbuf) : Mbuf :=
  { m with
    next := none
    pkt :=
      { m.pkt with
        pktLen := 0
        txOffload := 0
        vlanTci := 0
        nbSegs := 1
        port := 255
        olFlags := 0
        packetType := 0
        dataOff := if rtePktmbufHeadroom ≤ m.bufLen then rtePktmbufHeadroom else m.bufLen
        dataLen := 0 } }

/-- `rte_pktmbuf_alloc` where the pool hands out `m`. -/
def rtePktmbufAlloc (mem : Mem) (p : PoolId) (m : Addr) : Mem :=
  (rteMempoolGetBulk mem p [m]).modify m (fun b => rtePktmbufReset { b with refcnt := 1 })

/-- `rte_mbuf_refcnt_update`, with the new value of the count. -/
def rteMbufRefcntUpdate (mem : Mem) (m : Addr) (value : UInt16) : UInt16 × Mem :=
  ((mem.mbuf m).refcnt + value, mem.modify m (fun b => { b with refcnt := b.refcnt + value }))

/-- `RTE_MBUF_INDIRECT`. -/
def rteMbufIndirect (m : Mbuf) : Bool := m.pkt.olFlags &&& ((1 : UInt64) <<< 62) ≠ 0

/-- `rte_mbuf_from_indirect`. -/
def rteMbufFromIndirect (mem : Mem) (m : Addr) : Addr := (mem.mbuf m).bufOwner.getD m

/-- `rte_pktmbuf_detach`, for a buffer of a pool with the given size of the data room. -/
def rtePktmbufDetach (bufLen : UInt16) (m : Mbuf) : Mbuf :=
  { m with
    bufOwner := none
    bufLen := bufLen
    pkt := { m.pkt with dataOff := min rtePktmbufHeadroom bufLen, dataLen := 0, olFlags := 0 } }

/-- `__rte_mbuf_raw_free`. -/
def rteMbufRawFree (mem : Mem) (m : Addr) : Mem := rteMempoolPut mem (mem.mbuf m).pool m

/-- `__rte_pktmbuf_prefree_seg`. -/
def rtePktmbufPrefreeSeg (mem : Mem) (m : Addr) : Option Addr × Mem :=
  let updated := rteMbufRefcntUpdate mem m (-1)
  if updated.1 = 0 then
    if rteMbufIndirect (updated.2.mbuf m) then
      let md := rteMbufFromIndirect updated.2 m
      let detached := updated.2.modify m (rtePktmbufDetach (mem.dataRoomSize (mem.mbuf m).pool))
      let direct := rteMbufRefcntUpdate detached md (-1)
      (some m, if direct.1 = 0 then rteMbufRawFree direct.2 md else direct.2)
    else (some m, updated.2)
  else (none, updated.2)

/-- The rest of `rte_pktmbuf_free_seg`, after `__rte_pktmbuf_prefree_seg`. -/
def freePrefreed : Option Addr × Mem → Mem
  | (none, mem) => mem
  | (some m, mem) => rteMbufRawFree (mem.modify m ({ · with next := none })) m

/-- `rte_pktmbuf_free_seg`. -/
def rtePktmbufFreeSeg (mem : Mem) (m : Addr) : Mem := freePrefreed (rtePktmbufPrefreeSeg mem m)

/-- `rte_pktmbuf_free`, for a chain of at most as many segments as the first argument says. -/
def rtePktmbufFree : Nat → Mem → Option Addr → Mem
  | 0, mem, _ => mem
  | _, mem, none => mem
  | n + 1, mem, some m => rtePktmbufFree n (rtePktmbufFreeSeg mem m) (mem.mbuf m).next

/-! ### Packets -/

/-- The segments from a buffer on, each linked to the next one. -/
def Mem.Linked (mem : Mem) : Option Addr → List Addr → Prop
  | none, [] => True
  | some m, a :: segs => a = m ∧ mem.Linked (mem.mbuf m).next segs
  | none, _ :: _ => False
  | some _, [] => False

/-- The number of bytes in some segments. -/
def Mem.dataLen (mem : Mem) (segs : List Addr) : Nat :=
  segs.foldr (fun a len => (mem.mbuf a).pkt.dataLen.toNat + len) 0

/-- A packet says in its first segment how many segments and how many bytes it has. -/
structure Mem.WellFormed (mem : Mem) (m : Addr) (segs : List Addr) : Prop where
  linked : mem.Linked (some m) segs
  nbSegs : (mem.mbuf m).pkt.nbSegs.toNat = segs.length
  pktLen : (mem.mbuf m).pkt.pktLen.toNat = mem.dataLen segs

/-- The bytes of a segment, from `rte_pktmbuf_mtod` on. -/
def Mbuf.bytes (m : Mbuf) : List UInt8 :=
  (List.range m.pkt.dataLen.toNat).map (fun o => m.data (m.pkt.dataOff.toNat + o))

/-- The bytes of a segment are inside the data room that starts at `buf_addr`. -/
def Mbuf.InRoom (m : Mbuf) : Prop := m.pkt.dataOff.toNat + m.pkt.dataLen.toNat ≤ m.bufLen.toNat

/-- The bytes of a packet. -/
def Mem.payload (mem : Mem) (segs : List Addr) : List UInt8 := segs.flatMap (fun a => (mem.mbuf a).bytes)

/-! ### What they do -/

section

variable {mem : Mem} {m : Addr}

@[simp] theorem Mem.modify_free (f : Mbuf → Mbuf) : (mem.modify m f).free = mem.free := rfl

@[simp] theorem Mem.modify_mbuf_self (f : Mbuf → Mbuf) : (mem.modify m f).mbuf m = f (mem.mbuf m) :=
  Function.update_self ..

theorem Mem.modify_mbuf_of_ne (f : Mbuf → Mbuf) {a : Addr} (h : a ≠ m) : (mem.modify m f).mbuf a = mem.mbuf a :=
  Function.update_of_ne h ..

@[simp] theorem Mem.modify_modify (f g : Mbuf → Mbuf) :
    (mem.modify m f).modify m g = mem.modify m (fun b => g (f b)) := by
  simp [Mem.modify]

@[simp] theorem rteMempoolGetBulk_mbuf (p : PoolId) (objs : List Addr) :
    (rteMempoolGetBulk mem p objs).mbuf = mem.mbuf := rfl

@[simp] theorem rteMempoolPutBulk_mbuf (p : PoolId) (objs : List Addr) :
    (rteMempoolPutBulk mem p objs).mbuf = mem.mbuf := rfl

theorem count_free_getBulk (p : PoolId) (objs : List Addr) (a : Addr) (q : PoolId) :
    ((rteMempoolGetBulk mem p objs).free q).count a =
      (mem.free q).count a - if q = p then objs.count a else 0 := by
  by_cases hq : q = p
  · subst hq
    simp [rteMempoolGetBulk]
  · simp [rteMempoolGetBulk, hq]

theorem count_free_putBulk (p : PoolId) (objs : List Addr) (a : Addr) (q : PoolId) :
    ((rteMempoolPutBulk mem p objs).free q).count a =
      (mem.free q).count a + if q = p then objs.count a else 0 := by
  by_cases hq : q = p
  · subst hq
    simp [rteMempoolPutBulk]
  · simp [rteMempoolPutBulk, hq]

/-- A reference that is not the last one: only the count changes. -/
theorem rtePktmbufFreeSeg_not_last (h : (mem.mbuf m).refcnt ≠ 1) :
    rtePktmbufFreeSeg mem m = mem.modify m (fun b => { b with refcnt := b.refcnt + -1 }) := by
  have hcount : (rteMbufRefcntUpdate mem m (-1)).1 ≠ 0 := by
    intro hzero
    rw [rteMbufRefcntUpdate] at hzero
    exact h (by grind)
  rw [rtePktmbufFreeSeg, rtePktmbufPrefreeSeg, if_neg hcount, freePrefreed, rteMbufRefcntUpdate]

private theorem prefreeSeg_last (h : (mem.mbuf m).refcnt = 1) (hown : (mem.mbuf m).bufOwner = none) :
    ∃ b : Mbuf, b.pool = (mem.mbuf m).pool ∧ b.refcnt ≠ 1 ∧ b.bufOwner = none ∧
      rtePktmbufPrefreeSeg mem m = (some m, mem.modify m fun _ => b) := by
  obtain ⟨b, hb, hupdated⟩ : ∃ b : Mbuf, (b.pool = (mem.mbuf m).pool ∧ b.refcnt = 0 ∧ b.bufOwner = none) ∧
      rteMbufRefcntUpdate mem m (-1) = (0, mem.modify m fun _ => b) := by
    refine ⟨{ mem.mbuf m with refcnt := 0 }, ⟨rfl, rfl, hown⟩, ?_⟩
    rw [rteMbufRefcntUpdate, h, Mem.modify, h]
    rfl
  obtain ⟨hpool, hzero, howner⟩ := hb
  rw [rtePktmbufPrefreeSeg, hupdated]
  simp only [↓reduceIte, Mem.modify_mbuf_self, Mem.modify_modify, rteMbufFromIndirect, howner, Option.getD_none]
  by_cases hind : rteMbufIndirect b
  · -- The copy of an attached buffer has the flag, and its own count goes down twice.
    generalize mem.dataRoomSize (mem.mbuf m).pool = bufLen
    obtain ⟨c, ⟨hcpool, hcount, hcown⟩, hdirect⟩ :
        ∃ c : Mbuf, (c.pool = b.pool ∧ c.refcnt = -1 ∧ c.bufOwner = none) ∧
          rteMbufRefcntUpdate (mem.modify m fun _ => rtePktmbufDetach bufLen b) m (-1) =
            (-1, mem.modify m fun _ => c) := by
      refine ⟨{ rtePktmbufDetach bufLen b with refcnt := -1 }, ⟨rfl, rfl, rfl⟩, ?_⟩
      have hcount : (rtePktmbufDetach bufLen b).refcnt = 0 := hzero
      rw [rteMbufRefcntUpdate, Mem.modify_modify, Mem.modify_mbuf_self, hcount]
      rfl
    refine ⟨c, hcpool.trans hpool, by rw [hcount]; decide, hcown, ?_⟩
    rw [if_pos hind, hdirect, if_neg (show ¬(-1 : UInt16) = 0 by decide)]
  · exact ⟨b, hpool, by rw [hzero]; decide, howner, if_neg hind⟩

/-- The last reference brings a segment with its own data back to its pool. -/
theorem rtePktmbufFreeSeg_last (h : (mem.mbuf m).refcnt = 1) (hown : (mem.mbuf m).bufOwner = none) :
    ∃ b : Mbuf, b.pool = (mem.mbuf m).pool ∧ b.refcnt ≠ 1 ∧ b.bufOwner = none ∧
      rtePktmbufFreeSeg mem m = rteMempoolPut (mem.modify m fun _ => b) (mem.mbuf m).pool m := by
  obtain ⟨b, hpool, hcount, howner, hpre⟩ := prefreeSeg_last h hown
  refine ⟨{ b with next := none }, hpool, hcount, howner, ?_⟩
  rw [rtePktmbufFreeSeg, hpre, freePrefreed, Mem.modify_modify, rteMbufRawFree, Mem.modify_mbuf_self, hpool]

theorem rtePktmbufFree_single (h : (mem.mbuf m).next = none) (n : Nat) :
    rtePktmbufFree (n + 1) mem (some m) = rtePktmbufFreeSeg mem m := by
  rw [rtePktmbufFree, h]
  cases n <;> rfl

end

end SoftPatchPanel.Pktmbuf

import SoftPatchPanel.Memcpy.Forward

/-!
# The forwarder of the primary

`forward` of `pri_lvl3` is the loop of `sec_zerocpy`, with `rte_pktmbuf_free` instead of `rte_mempool_put` for the
packets that the output port did not take.  `rte_mempool_put` brings the first segment into its pool whatever its
reference count says, and touches nothing else; `rte_pktmbuf_free` goes through all segments, counts a reference off
each of them and puts into its pool what has none left.

So the two leave the same pools and reference counts behind exactly when there was nothing to release
(`dropAlike_iff`).  The pools alone are the same when the unsent packets are direct, have one segment and the count 1.
-/

namespace SoftPatchPanel.Lvl3

open EthDev Pktmbuf Secondary
open Memcpy (maxSegs)

section

variable {σ : Type}

/-- `forward` of `pri_lvl3`; the buffers of `Visit.put` are those that it calls `rte_pktmbuf_free` for. -/
def forward (b : Bursts σ Addr) (fwd : Slots Port) (st : σ × (Nat → Option Addr)) :
    Option (List (Visit Addr Unit) × σ × (Nat → Option Addr)) :=
  Secondary.forward b (fun _ => ()) fwd st

end

/-- The calls of `rte_mempool_put` for a burst. -/
def putBack (mem : Mem) (v : Visit Addr PoolId) : Mem := v.put.foldl (fun mem x => rteMempoolPut mem x.1 x.2) mem

/-- The calls of `rte_pktmbuf_free` for a burst. -/
def freeAll (mem : Mem) (v : Visit Addr Unit) : Mem :=
  v.put.foldl (fun mem x => rtePktmbufFree maxSegs mem (some x.2)) mem

/-- The pools hold the same objects, and all reference counts are the same. -/
def SameCounts (mem mem' : Mem) : Prop := mem.free = mem'.free ∧ ∀ a, (mem.mbuf a).refcnt = (mem'.mbuf a).refcnt

/-- A packet of one segment that nobody else has a reference to. -/
def Plain (m : Mbuf) : Prop := m.refcnt = 1 ∧ m.next = none ∧ rteMbufIndirect m = false

/-! ### The loops -/

section

variable {σ μ π π' : Type}

/-- A visit with other names for the pools. -/
def renamed (f : π → π') (v : Visit μ π) : Visit μ π' :=
  ⟨v.inPort, v.outPort, v.received, v.sent, v.put.map (fun x => (f x.1, x.2))⟩

private theorem putUnsent_renamed (f : π → π') (pool : μ → π) (bufs : Nat → Option μ) (buf n : Nat) :
    putUnsent (fun m => f (pool m)) bufs buf n = (putUnsent pool bufs buf n).map (fun x => (f x.1, x.2)) := by
  induction n generalizing buf with
  | zero => rfl
  | succ n ih =>
    rw [putUnsent, putUnsent, ih, List.map_append]
    cases bufs buf <;> rfl

/-- The loop does not depend on what the pools are called. -/
private theorem forwardSlot_renamed (b : Bursts σ μ) (f : π → π') (pool : μ → π) (fwd : Slots Port)
    (st : σ × (Nat → Option μ)) (i : Fin rteMaxEthports) :
    forwardSlot b (fun m => f (pool m)) fwd st i =
      (forwardSlot b pool fwd st i).map (fun r => (r.1.map (renamed f), r.2)) := by
  unfold forwardSlot
  split
  · cases (fwd i).rxFunc with
    | none => rfl
    | some _ =>
      dsimp only
      split
      · rfl
      · cases slotOf (fwd i).outPortId with
        | none => rfl
        | some out =>
          cases htx : (fwd out).txFunc with
          | none => simp [htx]
          | some _ =>
            simp only [htx, Option.map_some, renamed, putUnsent_renamed]
            split <;> rfl
  · rfl

private theorem forwardSlots_renamed (b : Bursts σ μ) (f : π → π') (pool : μ → π) (fwd : Slots Port)
    (is : List (Fin rteMaxEthports)) (st : σ × (Nat → Option μ)) :
    forwardSlots b (fun m => f (pool m)) fwd is st =
      (forwardSlots b pool fwd is st).map (fun r => (r.1.map (renamed f), r.2)) := by
  induction is generalizing st with
  | nil => rfl
  | cons i is ih =>
    rw [forwardSlots, forwardSlots, forwardSlot_renamed]
    cases forwardSlot b pool fwd st i with
    | none => rfl
    | some r =>
      obtain ⟨visit, st'⟩ := r
      simp only [Option.map_some, ih]
      cases forwardSlots b pool fwd is st' with
      | none => rfl
      | some r =>
        obtain ⟨visits, st''⟩ := r
        cases visit <;> rfl

/-- What the visits of a loop have in common. -/
private theorem forwardSlots_bounded {b : Bursts σ μ} (hrx : ∀ st p, (b.rx st p).1.length ≤ maxPktBurst)
    {pool : μ → π} {fwd : Slots Port} {is : List (Fin rteMaxEthports)} {st st' : σ × (Nat → Option μ)}
    {visits : List (Visit μ π)} (h : forwardSlots b pool fwd is st = some (visits, st')) :
    ∀ v ∈ visits, v.received.length ≤ maxPktBurst ∧ v.accepted ++ v.put.map Prod.snd = v.received ∧
      ∀ x ∈ v.put, x.1 = pool x.2 := by
  obtain ⟨hmade, -, hall⟩ := forwardSlots_visits h
  intro v hv
  obtain ⟨u, hu⟩ := hmade.received hv
  exact ⟨hu ▸ hrx u v.inPort, (hall v hv).split, (hall v hv).pool⟩

end

/-! ### Reference counts -/

section

variable (mem : Mem)

private theorem modify_refcnt {m : Addr} (f : Mbuf → Mbuf) (h : ∀ b, (f b).refcnt = b.refcnt) (a : Addr) :
    ((mem.modify m f).mbuf a).refcnt = (mem.mbuf a).refcnt := by
  by_cases ha : a = m
  · rw [ha, Mem.modify_mbuf_self, h]
  · rw [Mem.modify_mbuf_of_ne _ ha]

private theorem refcntUpdate_refcnt (m a : Addr) :
    ((rteMbufRefcntUpdate mem m (-1)).2.mbuf a).refcnt =
      (mem.mbuf a).refcnt - UInt16.ofNat (if a = m then 1 else 0) := by
  rw [rteMbufRefcntUpdate]
  by_cases ha : a = m
  · rw [ha, Mem.modify_mbuf_self, if_pos rfl, UInt16.sub_eq_add_neg]
    rfl
  · rw [Mem.modify_mbuf_of_ne _ ha, if_neg ha]
    exact (UInt16.sub_zero _).symm

private theorem sub_ofNat_add (c : UInt16) (d e : Nat) :
    c - UInt16.ofNat d - UInt16.ofNat e = c - UInt16.ofNat (d + e) := by
  rw [UInt16.ofNat_add, UInt16.sub_eq_add_neg, UInt16.sub_eq_add_neg, UInt16.sub_eq_add_neg, UInt16.neg_add,
    UInt16.sub_eq_add_neg, UInt16.add_assoc]

/-- `rte_pktmbuf_free_seg` counts one reference off the segment, and at most one more off any buffer. -/
private theorem freeSeg_refcnt (m a : Addr) :
    ∃ d ≤ 1, ((rtePktmbufFreeSeg mem m).mbuf a).refcnt =
      (mem.mbuf a).refcnt - UInt16.ofNat ((if a = m then 1 else 0) + d) := by
  have hfreed : ∀ r : Option Addr × Mem, ((freePrefreed r).mbuf a).refcnt = (r.2.mbuf a).refcnt := by
    rintro ⟨_ | m', mem'⟩
    · rfl
    · exact modify_refcnt mem' (m := m') ({ · with next := none }) (fun _ => rfl) a
  rw [rtePktmbufFreeSeg, hfreed, rtePktmbufPrefreeSeg]
  by_cases hlast : (rteMbufRefcntUpdate mem m (-1)).1 = 0
  · by_cases hind : rteMbufIndirect ((rteMbufRefcntUpdate mem m (-1)).2.mbuf m)
    · simp only [if_pos hlast, if_pos hind]
      generalize rteMbufFromIndirect (rteMbufRefcntUpdate mem m (-1)).2 m = md
      refine ⟨if a = md then 1 else 0, by split <;> omega, ?_⟩
      have hdirect : ∀ c : UInt16 × Mem,
          ((if c.1 = 0 then rteMbufRawFree c.2 md else c.2).mbuf a).refcnt = (c.2.mbuf a).refcnt := by
        intro c
        split <;> rfl
      rw [hdirect, refcntUpdate_refcnt, modify_refcnt _ (rtePktmbufDetach _) (fun _ => rfl), refcntUpdate_refcnt,
        sub_ofNat_add]
    · simp only [if_pos hlast, if_neg hind]
      exact ⟨0, by omega, refcntUpdate_refcnt mem m a⟩
  · simp only [if_neg hlast]
    exact ⟨0, by omega, refcntUpdate_refcnt mem m a⟩

/-- `rte_pktmbuf_free` counts at most two references for each segment off any buffer. -/
private theorem free_refcnt (n : Nat) (m : Option Addr) (a : Addr) :
    ∃ d ≤ 2 * n, ((rtePktmbufFree n mem m).mbuf a).refcnt = (mem.mbuf a).refcnt - UInt16.ofNat d := by
  induction n generalizing mem m with
  | zero => exact ⟨0, Nat.le_refl _, (UInt16.sub_zero _).symm⟩
  | succ n ih =>
    cases m with
    | none => exact ⟨0, Nat.zero_le _, (UInt16.sub_zero _).symm⟩
    | some m =>
      obtain ⟨d, hd, hseg⟩ := freeSeg_refcnt mem m a
      obtain ⟨e, he, hrest⟩ := ih (rtePktmbufFreeSeg mem m) (mem.mbuf m).next
      refine ⟨(if a = m then 1 else 0) + d + e, by split <;> omega, ?_⟩
      rw [rtePktmbufFree, hrest, hseg, sub_ofNat_add]

/-- The first segment loses a reference. -/
private theorem free_refcnt_self (m : Addr) :
    ∃ d, 0 < d ∧ d ≤ 2 * maxSegs ∧
      ((rtePktmbufFree maxSegs mem (some m)).mbuf m).refcnt = (mem.mbuf m).refcnt - UInt16.ofNat d := by
  obtain ⟨d, hd, hseg⟩ := freeSeg_refcnt mem m m
  obtain ⟨e, he, hrest⟩ := free_refcnt (rtePktmbufFreeSeg mem m) 254 (mem.mbuf m).next m
  rw [if_pos rfl] at hseg
  refine ⟨1 + d + e, by omega, by unfold maxSegs; omega, ?_⟩
  rw [show maxSegs = 254 + 1 from rfl, rtePktmbufFree, hrest, hseg, sub_ofNat_add]

private theorem freeEach_refcnt (ms : List Addr) (a : Addr) :
    ∃ d ≤ 2 * maxSegs * ms.length,
      ((ms.foldl (fun mem m => rtePktmbufFree maxSegs mem (some m)) mem).mbuf a).refcnt =
        (mem.mbuf a).refcnt - UInt16.ofNat d := by
  induction ms generalizing mem with
  | nil => exact ⟨0, Nat.zero_le _, (UInt16.sub_zero _).symm⟩
  | cons m ms ih =>
    obtain ⟨d, hd, hfirst⟩ := free_refcnt mem maxSegs (some m) a
    obtain ⟨e, he, hrest⟩ := ih (rtePktmbufFree maxSegs mem (some m))
    refine ⟨d + e, by rw [List.length_cons, Nat.mul_add]; omega, ?_⟩
    rw [List.foldl_cons, hrest, hfirst, sub_ofNat_add]

/-- A burst has too few segments to count a reference count around to where it was. -/
private theorem freeEach_refcnt_ne {ms : List Addr} (hne : ms ≠ []) (hlen : ms.length ≤ maxPktBurst) :
    ∃ a, ((ms.foldl (fun mem m => rtePktmbufFree maxSegs mem (some m)) mem).mbuf a).refcnt ≠ (mem.mbuf a).refcnt := by
  obtain ⟨m, rest, rfl⟩ := List.exists_cons_of_ne_nil hne
  obtain ⟨d, hpos, hd, hfirst⟩ := free_refcnt_self mem m
  obtain ⟨e, he, hrest⟩ := freeEach_refcnt (rtePktmbufFree maxSegs mem (some m)) rest m
  refine ⟨m, ?_⟩
  rw [List.foldl_cons, hrest, hfirst, sub_ofNat_add]
  intro heq
  have hbound : d + e < 2 ^ 16 := by
    rw [List.length_cons] at hlen
    unfold maxPktBurst at hlen
    unfold maxSegs at hd he
    omega
  have hzero : UInt16.ofNat (d + e) = 0 := by grind
  have hnat := congrArg UInt16.toNat hzero
  rw [UInt16.toNat_ofNat_of_lt' hbound] at hnat
  exact absurd hnat (by simp; omega)

/-! ### Plain packets -/

variable {mem}

private theorem free_plain {m : Addr} (h : Plain (mem.mbuf m)) :
    rtePktmbufFree maxSegs mem (some m) =
      rteMempoolPut (mem.modify m ({ · with refcnt := 0, next := none })) (mem.mbuf m).pool m := by
  obtain ⟨hcount, hnext, hdirect⟩ := h
  have hupdated : rteMbufRefcntUpdate mem m (-1) = (0, mem.modify m ({ · with refcnt := 0 })) := by
    rw [rteMbufRefcntUpdate, hcount, Mem.modify, Mem.modify, hcount]
    rfl
  have hflag : rteMbufIndirect { mem.mbuf m with refcnt := 0 } = false := hdirect
  rw [show maxSegs = 254 + 1 from rfl, rtePktmbufFree_single hnext, rtePktmbufFreeSeg, rtePktmbufPrefreeSeg, hupdated]
  simp only [↓reduceIte, Mem.modify_mbuf_self, hflag, Bool.false_eq_true]
  rw [freePrefreed, Mem.modify_modify, rteMbufRawFree, Mem.modify_mbuf_self]

/-- For plain packets both calls bring the same objects into the pools. -/
private theorem freeEach_free {ms : List Addr} (hnodup : ms.Nodup) (hplain : ∀ m ∈ ms, Plain (mem.mbuf m))
    {mem' : Mem} (hfree : mem'.free = mem.free) :
    (ms.foldl (fun mem m => rtePktmbufFree maxSegs mem (some m)) mem).free =
      ((ms.map (fun m => ((mem.mbuf m).pool, m))).foldl (fun mem x => rteMempoolPut mem x.1 x.2) mem').free := by
  induction ms generalizing mem mem' with
  | nil => exact hfree.symm
  | cons m ms ih =>
    obtain ⟨hm, hnodup⟩ := List.nodup_cons.1 hnodup
    rw [List.forall_mem_cons] at hplain
    have hother : ∀ a ∈ ms, ((rtePktmbufFree maxSegs mem (some m)).mbuf a) = mem.mbuf a := by
      intro a ha
      have hne : a ≠ m := fun h => hm (h ▸ ha)
      rw [free_plain hplain.1, rteMempoolPut, rteMempoolPutBulk_mbuf, Mem.modify_mbuf_of_ne _ hne]
    have hput : (rteMempoolPut mem' (mem.mbuf m).pool m).free = (rtePktmbufFree maxSegs mem (some m)).free := by
      rw [free_plain hplain.1, rteMempoolPut, rteMempoolPut, rteMempoolPutBulk, rteMempoolPutBulk, hfree]
      rfl
    rw [List.foldl_cons, ih hnodup (fun a ha => by rw [hother a ha]; exact hplain.2 a ha) hput, List.map_cons,
      List.foldl_cons]
    congr 2
    exact List.map_congr_left fun a ha => by rw [hother a ha]

end

/-! ### The two forwarders -/

private theorem putBack_mbuf (mem : Mem) (v : Visit Addr PoolId) : (putBack mem v).mbuf = mem.mbuf := by
  unfold putBack
  induction v.put generalizing mem with
  | nil => rfl
  | cons x xs ih => rw [List.foldl_cons, ih, rteMempoolPut, rteMempoolPutBulk_mbuf]

private theorem freeAll_renamed (mem : Mem) (v : Visit Addr PoolId) :
    freeAll mem (renamed (fun _ => ()) v) =
      (v.put.map Prod.snd).foldl (fun mem m => rtePktmbufFree maxSegs mem (some m)) mem := by
  rw [freeAll, renamed, List.foldl_map, List.foldl_map]

private theorem sweep_of_nothing {visits : List (Visit Addr PoolId)} (h : ∀ v ∈ visits, v.put = []) (mem : Mem) :
    visits.foldl putBack mem = mem ∧ (visits.map (renamed fun _ => ())).foldl freeAll mem = mem := by
  induction visits with
  | nil => exact ⟨rfl, rfl⟩
  | cons v visits ih =>
    rw [List.forall_mem_cons] at h
    have hput : putBack mem v = mem := by rw [putBack, h.1]; rfl
    have hfree : freeAll mem (renamed (fun _ => ()) v) = mem := by rw [freeAll_renamed, h.1]; rfl
    rw [List.map_cons, List.foldl_cons, List.foldl_cons, hput, hfree]
    exact ih h.2

/-- The unsent packets of one burst. -/
private theorem visit_alike {pool : Addr → PoolId} {v : Visit Addr PoolId} (hlen : v.received.length ≤ maxPktBurst)
    (hsplit : v.accepted ++ v.put.map Prod.snd = v.received) (hpool : ∀ x ∈ v.put, x.1 = pool x.2) (mem : Mem) :
    (SameCounts (putBack mem v) (freeAll mem (renamed (fun _ => ()) v)) ↔ v.put = []) ∧
      ((∀ m, (mem.mbuf m).pool = pool m) → v.received.Nodup → (∀ m ∈ v.put.map Prod.snd, Plain (mem.mbuf m)) →
        (putBack mem v).free = (freeAll mem (renamed (fun _ => ()) v)).free) := by
  have hlength : (v.put.map Prod.snd).length ≤ maxPktBurst := by
    have := congrArg List.length hsplit
    rw [List.length_append] at this
    omega
  rw [freeAll_renamed]
  refine ⟨⟨fun hsame => ?_, fun hnil => ?_⟩, fun hmem hnodup hplain => ?_⟩
  · by_contra hne
    obtain ⟨a, ha⟩ := freeEach_refcnt_ne mem (show v.put.map Prod.snd ≠ [] by simpa using hne) hlength
    exact ha (by rw [← hsame.2 a, putBack_mbuf])
  · rw [putBack, hnil]
    exact ⟨rfl, fun _ => rfl⟩
  · have hput : v.put = (v.put.map Prod.snd).map (fun m => ((mem.mbuf m).pool, m)) := by
      rw [List.map_map]
      refine (List.map_id _).symm.trans (List.map_congr_left fun x hx => ?_)
      exact Prod.ext (by simp [hmem, hpool x hx]) rfl
    have hdistinct : (v.put.map Prod.snd).Nodup := by
      rw [← hsplit] at hnodup
      exact (List.nodup_append.1 hnodup).2.1
    rw [freeEach_free hdistinct hplain (show mem.free = mem.free from rfl), ← hput, putBack]

/-- In a sweep over any table, the unsent packets of a burst leave the same pools and reference counts behind in both
forwarders exactly when there are none; a whole sweep without unsent packets leaves the same behind.  The pools are the
same when the unsent packets of the burst are plain. -/
theorem dropAlike_iff {σ : Type} {b : Bursts σ Addr} (hrx : ∀ st p, (b.rx st p).1.length ≤ maxPktBurst)
    {pool : Addr → PoolId} {fwd : Slots Port} {st st' : σ × (Nat → Option Addr)} {visits : List (Visit Addr PoolId)}
    (hzerocpy : Secondary.forward b pool fwd st = some (visits, st')) :
    ∃ visits', forward b fwd st = some (visits', st') ∧
      List.Forall₂ (fun v v' => ∀ mem,
        (SameCounts (putBack mem v) (freeAll mem v') ↔ v.accepted = v.received) ∧
        ((∀ m, (mem.mbuf m).pool = pool m) → v.received.Nodup → (∀ m ∈ v.put.map Prod.snd, Plain (mem.mbuf m)) →
          (putBack mem v).free = (freeAll mem v').free)) visits visits' ∧
      ((∀ v ∈ visits, v.accepted = v.received) →
        ∀ mem, SameCounts (visits.foldl putBack mem) (visits'.foldl freeAll mem)) := by
  have hvisits := forwardSlots_bounded hrx hzerocpy
  have hunsent : ∀ v ∈ visits, (v.accepted = v.received ↔ v.put = []) := by
    intro v hv
    rw [← (hvisits v hv).2.1]
    simp
  refine ⟨visits.map (renamed fun _ => ()), ?_, ?_, fun hall mem => ?_⟩
  · have hloop := forwardSlots_renamed b (fun _ => ()) pool fwd (List.finRange rteMaxEthports) st
    rw [Secondary.forward] at hzerocpy
    rw [forward, Secondary.forward, hloop, hzerocpy]
    rfl
  · rw [List.forall₂_map_right_iff, List.forall₂_same]
    intro v hv mem
    obtain ⟨hlen, hsplit, hpool⟩ := hvisits v hv
    rw [hunsent v hv]
    exact visit_alike hlen hsplit hpool mem
  · obtain ⟨hput, hfree⟩ := sweep_of_nothing (fun v hv => (hunsent v hv).1 (hall v hv)) mem
    rw [hput, hfree]
    exact ⟨rfl, fun _ => rfl⟩

/-! ### Two ports -/

/-- Port 0 delivers the buffers 10 and 11, and each port takes all but `k`. -/
def takesAllBut (k : Nat) : Bursts Unit Addr where
  rx := fun _ p => (if (p : Nat) = 0 then [10, 11] else [], ())
  tx := fun _ _ bufs => (bufs.length - k, ())

theorem dropAlike_allSent :
    ∃ visits st' visits',
      Secondary.forward (takesAllBut 0) (fun _ => 0) twoPorts ((), fun _ => none) = some (visits, st') ∧
      forward (takesAllBut 0) twoPorts ((), fun _ => none) = some (visits', st') ∧
      ∀ mem, SameCounts (visits.foldl putBack mem) (visits'.foldl freeAll mem) := by
  have hzerocpy : Secondary.forward (takesAllBut 0) (fun _ => 0) twoPorts ((), fun _ => none) =
      some ([⟨0, 1, [10, 11], some ([10, 11], 2), []⟩, ⟨1, 1, [], none, []⟩], _) := rfl
  obtain ⟨visits', hlvl3, -, hsweep⟩ := dropAlike_iff (b := takesAllBut 0)
    (fun _ p => by simp only [takesAllBut]; split <;> simp [maxPktBurst]) hzerocpy
  exact ⟨_, _, visits', hzerocpy, hlvl3, hsweep (by simp [Visit.accepted])⟩

/-- Packet 11 has a second segment, buffer 12. -/
def twoSegs : Mem where
  mbuf := fun a =>
    { pool := 0
      refcnt := 1
      next := if a = 11 then some 12 else none
      pkt := { dataLen := 64, pktLen := if a = 11 then 128 else 64, nbSegs := if a = 11 then 2 else 1 } }
  free := fun _ => 0

/-- `sec_zerocpy` leaves the reference count 1 in an unsent packet and loses its second segment. -/
theorem unsent_differ :
    ∃ visits st' visits',
      Secondary.forward (takesAllBut 1) (fun _ => 0) twoPorts ((), fun _ => none) = some (visits, st') ∧
      forward (takesAllBut 1) twoPorts ((), fun _ => none) = some (visits', st') ∧
      ((visits.foldl putBack twoSegs).mbuf 11).refcnt = 1 ∧ ((visits'.foldl freeAll twoSegs).mbuf 11).refcnt = 0 ∧
      12 ∉ (visits.foldl putBack twoSegs).free 0 ∧ 12 ∈ (visits'.foldl freeAll twoSegs).free 0 :=
  ⟨_, _, _, rfl, rfl, rfl, rfl, by decide, by decide⟩

end SoftPatchPanel.Lvl3

import SoftPatchPanel.Lib.Places
import SoftPatchPanel.Memcpy.Forward

/-!
# The places of the buffers

A buffer is in a pool, in the hands of an input port, of the forwarder or of an output port with its consumer, or lost.
Each step moves a buffer from one place to another (`Flow.place`), so that a buffer which is at one place stays at one
place (`Flow.Placed.step`).
-/

namespace SoftPatchPanel.Memcpy

open Lib Pktmbuf Secondary

/-! ### What the steps do to the buffers -/

section

variable {mem : Mem}

@[simp] private theorem copyLoop_free (rxm txm : List Addr) : (copyLoop mem rxm txm).free = mem.free := by
  fun_induction copyLoop mem rxm txm with
  | case1 mem rx rxm tx txm ih => exact ih
  | case2 => rfl

theorem copyLoop_of_not_mem {rxm txm : List Addr} {a : Addr} (h : a ∉ txm) :
    (copyLoop mem rxm txm).mbuf a = mem.mbuf a := by
  fun_induction copyLoop mem rxm txm with
  | case1 mem rx rxm tx txm ih =>
    rw [List.mem_cons, not_or] at h
    rw [ih h.2, Mem.modify_mbuf_of_ne _ h.1]
  | case2 => rfl

/-- A copy stays in the same pool and keeps its reference count and its data room. -/
private theorem copyLoop_mbuf (rxm txm : List Addr) (a : Addr) :
    ((copyLoop mem rxm txm).mbuf a).pool = (mem.mbuf a).pool ∧
      ((copyLoop mem rxm txm).mbuf a).refcnt = (mem.mbuf a).refcnt ∧
      ((copyLoop mem rxm txm).mbuf a).bufOwner = (mem.mbuf a).bufOwner := by
  fun_induction copyLoop mem rxm txm with
  | case1 mem rx rxm tx txm ih =>
    rw [ih.1, ih.2.1, ih.2.2]
    by_cases ha : a = tx
    · subst ha
      rw [Mem.modify_mbuf_self]
      exact ⟨rfl, rfl, rfl⟩
    · rw [Mem.modify_mbuf_of_ne _ ha]
      exact ⟨rfl, rfl, rfl⟩
  | case2 => exact ⟨rfl, rfl, rfl⟩

private theorem copyLoop_next {rxm txm : List Addr} (hlen : txm.length = rxm.length) {a : Addr} (ha : a ∈ txm) :
    ((copyLoop mem rxm txm).mbuf a).next = none := by
  induction txm generalizing mem rxm with
  | nil => cases ha
  | cons tx txm ih =>
    cases rxm with
    | nil => cases hlen
    | cons rx rxm =>
      rw [copyLoop]
      by_cases hmem : a ∈ txm
      · exact ih (Nat.succ.inj hlen) hmem
      · obtain rfl : a = tx := (List.mem_cons.1 ha).resolve_right hmem
        rw [copyLoop_of_not_mem hmem, Mem.modify_mbuf_self, copyMbuf]

private theorem putUnsent_mbuf (ms : List Addr) : (putUnsent mem ms).mbuf = mem.mbuf := by
  unfold putUnsent
  induction ms generalizing mem with
  | nil => rfl
  | cons m ms ih => rw [List.foldl_cons, ih, rteMempoolPut, rteMempoolPutBulk_mbuf]

/-- The unsent copies go back to their own pools. -/
theorem count_putUnsent (ms : List Addr) (a : Addr) (p : PoolId) :
    ((putUnsent mem ms).free p).count a =
      (mem.free p).count a + if p = (mem.mbuf a).pool then ms.count a else 0 := by
  induction ms generalizing mem with
  | nil => simp [putUnsent]
  | cons m ms ih =>
    have hcons : putUnsent mem (m :: ms) = putUnsent (rteMempoolPut mem (mem.mbuf m).pool m) ms := rfl
    rw [hcons, ih, rteMempoolPut, count_free_putBulk, rteMempoolPutBulk_mbuf]
    by_cases ham : a = m
    · subst ham
      split_ifs
      · simp
        omega
      · simp
    · simp [Ne.symm ham]

theorem count_copyMbufs (pool : PoolId) (bufs : List Addr) (got : Option (List Addr)) (a : Addr) (p : PoolId) :
    ((copyMbufs mem pool bufs got).2.free p).count a =
      ((mem.free p).count a - if p = pool then (got.getD []).count a else 0) +
        if p = firstPool mem bufs then bufs.count a else 0 := by
  cases got with
  | none => simp [copyMbufs, count_free_putBulk]
  | some txm =>
    have hfirst : firstPool (copyLoop (rteMempoolGetBulk mem pool txm) bufs txm) bufs = firstPool mem bufs :=
      (copyLoop_mbuf ..).1
    simp [copyMbufs, count_free_putBulk, hfirst, count_free_getBulk]

theorem copyMbufs_mbuf (pool : PoolId) (bufs : List Addr) (got : Option (List Addr)) (a : Addr) :
    ((copyMbufs mem pool bufs got).2.mbuf a).pool = (mem.mbuf a).pool ∧
      ((copyMbufs mem pool bufs got).2.mbuf a).refcnt = (mem.mbuf a).refcnt ∧
      ((copyMbufs mem pool bufs got).2.mbuf a).bufOwner = (mem.mbuf a).bufOwner := by
  cases got with
  | none => exact ⟨rfl, rfl, rfl⟩
  | some txm => exact copyLoop_mbuf bufs txm a

private theorem copyMbufs_of_not_mem {pool : PoolId} {bufs : List Addr} {got : Option (List Addr)} {a : Addr}
    (h : a ∉ got.getD []) : (copyMbufs mem pool bufs got).2.mbuf a = mem.mbuf a := by
  cases got with
  | none => rfl
  | some txm => exact copyLoop_of_not_mem h

private theorem copyMbufs_next {pool : PoolId} {bufs : List Addr} {got : Option (List Addr)}
    (hgot : ∀ txm ∈ got, txm.length = bufs.length) {a : Addr} (ha : a ∈ got.getD []) :
    ((copyMbufs mem pool bufs got).2.mbuf a).next = none := by
  cases got with
  | none => cases ha
  | some txm => exact copyLoop_next (hgot txm rfl) ha

/-- `rte_pktmbuf_free` for a packet of one segment that has its own data. -/
theorem free_spec {m : Addr} (hnext : (mem.mbuf m).next = none) (hown : (mem.mbuf m).bufOwner = none) :
    (∀ p a, ((rtePktmbufFree maxSegs mem (some m)).free p).count a =
      (mem.free p).count a + if (mem.mbuf m).refcnt = 1 ∧ p = (mem.mbuf m).pool ∧ a = m then 1 else 0) ∧
      (∀ a ≠ m, (rtePktmbufFree maxSegs mem (some m)).mbuf a = mem.mbuf a) ∧
      ((rtePktmbufFree maxSegs mem (some m)).mbuf m).pool = (mem.mbuf m).pool ∧
      ((rtePktmbufFree maxSegs mem (some m)).mbuf m).bufOwner = none ∧
      ((mem.mbuf m).refcnt = 1 → ((rtePktmbufFree maxSegs mem (some m)).mbuf m).refcnt ≠ 1) := by
  rw [show maxSegs = 254 + 1 from rfl, rtePktmbufFree_single hnext]
  by_cases hlast : (mem.mbuf m).refcnt = 1
  · obtain ⟨b, hpool, hcount, howner, hfree⟩ := rtePktmbufFreeSeg_last hlast hown
    rw [hfree, rteMempoolPut]
    refine ⟨fun p a => ?_, fun a ha => ?_, ?_, ?_, fun _ => ?_⟩
    · rw [count_free_putBulk, Mem.modify_free]
      by_cases ha : a = m
      · simp [hlast, ha]
      · simp [ha, Ne.symm ha]
    · rw [rteMempoolPutBulk_mbuf, Mem.modify_mbuf_of_ne _ ha]
    · rw [rteMempoolPutBulk_mbuf, Mem.modify_mbuf_self, hpool]
    · rw [rteMempoolPutBulk_mbuf, Mem.modify_mbuf_self, howner]
    · rw [rteMempoolPutBulk_mbuf, Mem.modify_mbuf_self]
      exact hcount
  · rw [rtePktmbufFreeSeg_not_last hlast]
    refine ⟨fun p a => by simp [hlast], fun a ha => Mem.modify_mbuf_of_ne _ ha, ?_, ?_, fun h => absurd h hlast⟩
    · rw [Mem.modify_mbuf_self]
    · rw [Mem.modify_mbuf_self, hown]

end

/-! ### The place of a buffer -/

/-- Where a buffer can be. -/
inductive Place where
  | pool (p : PoolId)
  | rx
  | held
  | queue
deriving DecidableEq

/-- How often a buffer is at a place. -/
def Flow.count (s : Flow) (a : Addr) : Place → Nat
  | .pool p => (s.mem.free p).count a
  | .rx => s.rx.count a
  | .held => s.held.count a
  | .queue => s.queue.count a

/-- The place to which a step moves a buffer. -/
def Flow.place (s : Flow) (a : Addr) (x : Option Place) : Event → Option Place
  | .receive _ m _ _ _ => if a = m then some .rx else x
  | .copy _ bufs got =>
    if a ∈ bufs then some (.pool (firstPool s.mem bufs)) else if a ∈ got.getD [] then some .held else x
  | .send nbTx =>
    if a ∈ s.held.drop nbTx then some (.pool (s.mem.mbuf a).pool)
    else if a ∈ s.held.take nbTx then some .queue
    else x
  | .release m => if a = m then if (s.mem.mbuf m).refcnt = 1 then some (.pool (s.mem.mbuf m).pool) else none else x

/-- Every buffer has its place and its own data, and a copy has one segment. -/
structure Flow.Placed (s : Flow) : Prop where
  at_place : ∀ a, ∃ x, AtPlace (s.count a) x
  own : ∀ a, (s.mem.mbuf a).bufOwner = none
  single : ∀ a, a ∈ s.held ∨ a ∈ s.queue → (s.mem.mbuf a).next = none

section

variable {s : Flow} {a : Addr} {x : Option Place}

private theorem count_receive (a : Addr) (p : PoolId) (m : Addr) (next : Option Addr) (pkt : Packet)
    (data : Nat → UInt8) :
    (s.step (.receive p m next pkt data)).count a =
      moved (s.count a) (.pool p) (some .rx) (if a = m then 1 else 0) := by
  have hone : [m].count a = if a = m then 1 else 0 := by
    by_cases ha : a = m
    · simp [ha]
    · simp [ha, Ne.symm ha]
  funext y
  cases y with
  | pool q =>
    have hfree : ((s.step (.receive p m next pkt data)).mem.free q).count a = _ := count_free_getBulk p [m] a q
    simp [Flow.count, moved, hfree, hone]
  | rx => simp [Flow.count, moved, Flow.step, Multiset.count_singleton]
  | held => simp [Flow.count, moved, Flow.step]
  | queue => simp [Flow.count, moved, Flow.step]

private theorem count_copy (hheld : s.held = []) (a : Addr) (pool : PoolId) (bufs : List Addr)
    (got : Option (List Addr)) :
    (s.step (.copy pool bufs got)).count a =
      moved (moved (s.count a) (.pool pool) (some .held) ((got.getD []).count a)) .rx
        (some (.pool (firstPool s.mem bufs))) (bufs.count a) := by
  funext y
  cases y with
  | pool q => simp [Flow.count, moved, Flow.step, count_copyMbufs, eq_comm]
  | rx => simp [Flow.count, moved, Flow.step]
  | held => simp [Flow.count, moved, Flow.step, hheld]
  | queue => simp [Flow.count, moved, Flow.step]

private theorem count_send (a : Addr) (nbTx : Nat) :
    (s.step (.send nbTx)).count a =
      moved (moved (s.count a) .held (some .queue) ((s.held.take nbTx).count a)) .held
        (some (.pool (s.mem.mbuf a).pool)) ((s.held.drop nbTx).count a) := by
  funext y
  cases y with
  | pool q => simp [Flow.count, moved, Flow.step, count_putUnsent, eq_comm]
  | rx => simp [Flow.count, moved, Flow.step]
  | held =>
    have hsplit : (s.held.take nbTx).count a + (s.held.drop nbTx).count a = s.held.count a := by
      rw [← List.count_append, List.take_append_drop]
    simp [Flow.count, moved, Flow.step]
    omega
  | queue => simp [Flow.count, moved, Flow.step]

private theorem count_release {m : Addr} (hnext : (s.mem.mbuf m).next = none) (hown : (s.mem.mbuf m).bufOwner = none)
    (a : Addr) :
    (s.step (.release m)).count a =
      moved (s.count a) .queue (if (s.mem.mbuf m).refcnt = 1 then some (.pool (s.mem.mbuf m).pool) else none)
        (if a = m then 1 else 0) := by
  funext y
  have hfree := (free_spec hnext hown).1
  by_cases ha : a = m <;> by_cases hlast : (s.mem.mbuf m).refcnt = 1 <;>
    cases y <;> simp [Flow.count, moved, Flow.step, hfree, ha, hlast, eq_comm]

theorem Flow.Placed.step_at (hs : s.Placed) {e : Event} (hok : s.Allows e) (hx : AtPlace (s.count a) x) :
    AtPlace ((s.step e).count a) (s.place a x e) := by
  cases e with
  | receive p m next pkt data =>
    have hk : (if a = m then 1 else 0) ≤ s.count a (.pool p) := by
      split_ifs with h
      · exact Multiset.one_le_count_iff_mem.2 (h ▸ hok)
      · exact Nat.zero_le _
    have hmoved := hx.moved (some .rx) hk
    rw [count_receive]
    simpa [Flow.place] using hmoved
  | copy pool bufs got =>
    obtain ⟨hheld, -, -, hrx, -, hgot⟩ := hok
    have hk : (got.getD []).count a ≤ s.count a (.pool pool) := by
      cases got with
      | none => simp
      | some txm => simpa [Flow.count] using Multiset.le_iff_count.1 (hgot txm rfl).2 a
    have hk' : bufs.count a ≤ moved (s.count a) (.pool pool) (some .held) ((got.getD []).count a) .rx := by
      simpa [moved, Flow.count] using Multiset.le_iff_count.1 hrx a
    have hmoved := (hx.moved (some .held) hk).moved (some (.pool (firstPool s.mem bufs))) hk'
    rw [count_copy hheld]
    simpa [Flow.place, List.count_eq_zero] using hmoved
  | send nbTx =>
    have hsplit : (s.held.take nbTx).count a + (s.held.drop nbTx).count a = s.count a .held := by
      rw [← List.count_append, List.take_append_drop, Flow.count]
    have hk : (s.held.drop nbTx).count a ≤
        moved (s.count a) .held (some .queue) ((s.held.take nbTx).count a) .held := by
      simp only [moved, ↓reduceIte]
      omega
    have hmoved := (hx.moved (some .queue) (show (s.held.take nbTx).count a ≤ s.count a .held by omega)).moved
      (some (.pool (s.mem.mbuf a).pool)) hk
    rw [count_send]
    simpa [Flow.place, List.count_eq_zero] using hmoved
  | release m =>
    have hk : (if a = m then 1 else 0) ≤ s.count a .queue := by
      split_ifs with h
      · exact Multiset.one_le_count_iff_mem.2 (h ▸ hok)
      · exact Nat.zero_le _
    have hmoved := hx.moved (if (s.mem.mbuf m).refcnt = 1 then some (.pool (s.mem.mbuf m).pool) else none) hk
    rw [count_release (hs.single m (Or.inr hok)) (hs.own m)]
    simpa [Flow.place] using hmoved

theorem mem_held_iff (hx : AtPlace (s.count a) x) : a ∈ s.held ↔ x = some .held := by
  rw [← List.count_pos_iff, show s.held.count a = _ from hx .held]
  by_cases h : x = some .held <;> simp [h]

theorem mem_queue_iff (hx : AtPlace (s.count a) x) : a ∈ s.queue ↔ x = some .queue := by
  rw [← Multiset.count_pos, show s.queue.count a = _ from hx .queue]
  by_cases h : x = some .queue <;> simp [h]

theorem mem_rx_iff (hx : AtPlace (s.count a) x) : a ∈ s.rx ↔ x = some .rx := by
  rw [← Multiset.count_pos, show s.rx.count a = _ from hx .rx]
  by_cases h : x = some .rx <;> simp [h]

theorem mem_free_iff (hx : AtPlace (s.count a) x) (p : PoolId) : a ∈ s.mem.free p ↔ x = some (.pool p) := by
  rw [← Multiset.count_pos, show (s.mem.free p).count a = _ from hx (.pool p)]
  by_cases h : x = some (.pool p) <;> simp [h]

/-- No step moves a buffer to another owner. -/
theorem Flow.Placed.step_pool (hs : s.Placed) {e : Event} (hok : s.Allows e) (a : Addr) :
    ((s.step e).mem.mbuf a).pool = (s.mem.mbuf a).pool := by
  cases e with
  | receive p m next pkt data =>
    by_cases ha : a = m
    · subst ha
      simp [Flow.step, rtePktmbufAlloc, rtePktmbufReset]
    · simp [Flow.step, rtePktmbufAlloc, Mem.modify_mbuf_of_ne, ha]
  | copy pool bufs got => exact (copyMbufs_mbuf pool bufs got a).1
  | send nbTx => rw [Flow.step, putUnsent_mbuf]
  | release m =>
    obtain ⟨-, hother, hpool, -⟩ := free_spec (hs.single m (Or.inr hok)) (hs.own m)
    by_cases ha : a = m
    · subst ha
      exact hpool
    · exact congrArg Mbuf.pool (hother a ha)

/-- The reference count of a buffer changes when it is allocated and when it is released. -/
theorem Flow.Placed.step_refcnt (hs : s.Placed) {e : Event} (hok : s.Allows e) {a : Addr}
    (hreceive : ∀ p next pkt data, e ≠ .receive p a next pkt data) (hrelease : e ≠ .release a) :
    ((s.step e).mem.mbuf a).refcnt = (s.mem.mbuf a).refcnt := by
  cases e with
  | receive p m next pkt data =>
    have ha : a ≠ m := fun h => hreceive p next pkt data (h ▸ rfl)
    simp [Flow.step, rtePktmbufAlloc, Mem.modify_mbuf_of_ne, ha]
  | copy pool bufs got => exact (copyMbufs_mbuf pool bufs got a).2.1
  | send nbTx => rw [Flow.step, putUnsent_mbuf]
  | release m =>
    have ha : a ≠ m := fun h => hrelease (h ▸ rfl)
    exact congrArg Mbuf.refcnt ((free_spec (hs.single m (Or.inr hok)) (hs.own m)).2.1 a ha)

/-- No step attaches a buffer to another one. -/
private theorem Flow.Placed.step_own (hs : s.Placed) {e : Event} (hok : s.Allows e) (a : Addr) :
    ((s.step e).mem.mbuf a).bufOwner = none := by
  cases e with
  | receive p m next pkt data =>
    by_cases ha : a = m
    · subst ha
      simp [Flow.step, rtePktmbufAlloc, rtePktmbufReset, hs.own]
    · simp [Flow.step, rtePktmbufAlloc, Mem.modify_mbuf_of_ne, ha, hs.own]
  | copy pool bufs got => exact (copyMbufs_mbuf pool bufs got a).2.2.trans (hs.own a)
  | send nbTx => rw [Flow.step, putUnsent_mbuf, hs.own]
  | release m =>
    obtain ⟨-, hother, -, howner, -⟩ := free_spec (hs.single m (Or.inr hok)) (hs.own m)
    by_cases ha : a = m
    · subst ha
      exact howner
    · exact (congrArg Mbuf.bufOwner (hother a ha)).trans (hs.own a)

theorem Flow.Placed.step (hs : s.Placed) {e : Event} (hok : s.Allows e) : (s.step e).Placed := by
  refine ⟨?_, hs.step_own hok, ?_⟩
  · intro a
    obtain ⟨x, hx⟩ := hs.at_place a
    exact ⟨_, hs.step_at hok hx⟩
  · intro a ha
    obtain ⟨x, hx⟩ := hs.at_place a
    cases e with
    | receive p m next pkt data =>
      have hne : a ≠ m := by
        rintro rfl
        have hpool := (mem_free_iff hx p).1 hok
        rcases ha with ha | ha
        · have := (mem_held_iff hx).1 ha
          simp_all
        · have := (mem_queue_iff hx).1 ha
          simp_all
      simp only [Flow.step, rtePktmbufAlloc, Mem.modify_mbuf_of_ne _ hne, rteMempoolGetBulk_mbuf]
      exact hs.single a ha
    | copy pool bufs got =>
      obtain ⟨hheld, -, -, -, -, hgot⟩ := hok
      by_cases ht : a ∈ got.getD []
      · exact copyMbufs_next (fun txm h => (hgot txm h).1) ht
      · rw [Flow.step, copyMbufs_of_not_mem ht]
        exact hs.single a (Or.inr (ha.resolve_left ht))
    | send nbTx =>
      rw [Flow.step, putUnsent_mbuf]
      refine hs.single a ?_
      rcases ha with ha | ha
      · cases ha
      · rcases Multiset.mem_add.1 ha with ha | ha
        · exact Or.inr ha
        · exact Or.inl (List.mem_of_mem_take ha)
    | release m =>
      have hne : a ≠ m := by
        rintro rfl
        have hqueue := (mem_queue_iff hx).1 hok
        have hplace := hs.step_at hok hx
        rcases ha with ha | ha
        · have := (mem_held_iff hplace).1 ha
          simp [Flow.place] at this
        · have := (mem_queue_iff hplace).1 ha
          simp [Flow.place] at this
      rw [Flow.step, (free_spec (hs.single m (Or.inr hok)) (hs.own m)).2.1 a hne]
      refine hs.single a (ha.imp_right fun h => ?_)
      exact Multiset.mem_of_mem_erase h

end

end SoftPatchPanel.Memcpy

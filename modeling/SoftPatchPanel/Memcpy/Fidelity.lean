import SoftPatchPanel.Memcpy.Places

/-!
# Do the buffers of a burst go back to their own pools?

`copy_mbufs` puts a whole burst into the pool of its first buffer, whether the copy succeeded or the pool of the output
port ran dry; the copies that are not sent go one by one to the pool that is written in them.  So a burst comes home
exactly when all of it belongs to the pool of its first buffer, and the unsent copies to the pool of the output port
(`comesHome_iff`).
-/

namespace SoftPatchPanel.Memcpy

open EthDev Pktmbuf Secondary

/-- What is due after a burst `bufs` with the copies `txm`: each received buffer is put into the pool it belongs to,
once, each copy is accepted by the output port or put back into the pool it came from, once, and nothing else
changes. -/
structure Flow.ComesHome (s s' : Flow) (pool : PoolId) (bufs txm : List Addr) (nbTx : Nat) : Prop where
  free : ∀ p, s'.mem.free p =
    (s.mem.free p - if p = pool then (txm : Multiset Addr) else 0) +
      (bufs.filter (fun b => (s.mem.mbuf b).pool = p) : Multiset Addr) +
      if p = pool then (txm.drop nbTx : Multiset Addr) else 0
  queue : s'.queue = s.queue + txm.take nbTx

section

variable {fwd : Slots Port} {txPools : Slots (Option PoolId)} {turns : Slots Turn} {s : Flow}
  {i out : Fin rteMaxEthports} {pool : PoolId}

/-- One pass for a patch with a burst: the copying, and the release of what was not sent. -/
private theorem forwardSlot_burst (hactive : (fwd i).Active) (hrx : (fwd i).rxFunc ≠ none)
    (hout : slotOf (fwd i).outPortId = some out) (htx : (fwd out).txFunc ≠ none) (hpool : txPools out = some pool)
    (hbufs : (turns i).bufs ≠ []) (hgot : ∀ txm ∈ (turns i).got, txm.length = (turns i).bufs.length) :
    ∃ s', forwardSlot fwd txPools turns s i = some s' ∧
      s'.mem = putUnsent (copyMbufs s.mem pool (turns i).bufs (turns i).got).2
        (((turns i).got.getD []).drop (turns i).nbTx) ∧
      s'.queue = s.queue + (((turns i).got.getD []).take (turns i).nbTx : List Addr) := by
  obtain ⟨f, hf⟩ := Option.ne_none_iff_exists'.1 hrx
  obtain ⟨g, hg⟩ := Option.ne_none_iff_exists'.1 htx
  have hlength : (turns i).bufs.length ≠ 0 := by simpa using hbufs
  unfold forwardSlot
  simp only [if_pos hactive, hf, if_neg hlength, hout, hpool]
  cases hcopies : (turns i).got with
  | none => exact ⟨_, rfl, by simp [putUnsent], by simp⟩
  | some txm => exact ⟨_, by simp [copyMbufs, hg]; rfl, by simp [putUnsent_drop _ (hgot txm hcopies), copyMbufs], rfl⟩

/-- Where the pass leaves the buffers, counted one by one. -/
private theorem count_pass (pool : PoolId) (bufs : List Addr) (got : Option (List Addr)) (nbTx : Nat) (p : PoolId)
    (a : Addr) :
    ((putUnsent (copyMbufs s.mem pool bufs got).2 ((got.getD []).drop nbTx)).free p).count a =
      ((s.mem.free p).count a - if p = pool then (got.getD []).count a else 0) +
        (if p = firstPool s.mem bufs then bufs.count a else 0) +
        if p = (s.mem.mbuf a).pool then ((got.getD []).drop nbTx).count a else 0 := by
  rw [count_putUnsent, count_copyMbufs, (copyMbufs_mbuf pool bufs got a).1]

/-- Where they are due. -/
private theorem count_due (pool : PoolId) (bufs txm : List Addr) (nbTx : Nat) (p : PoolId) (a : Addr) :
    ((s.mem.free p - if p = pool then (txm : Multiset Addr) else 0) +
        (bufs.filter (fun b => (s.mem.mbuf b).pool = p) : Multiset Addr) +
        if p = pool then (txm.drop nbTx : Multiset Addr) else 0).count a =
      ((s.mem.free p).count a - if p = pool then txm.count a else 0) +
        (if p = (s.mem.mbuf a).pool then bufs.count a else 0) +
        if p = pool then (txm.drop nbTx).count a else 0 := by
  have hfilter : (bufs.filter (fun b => (s.mem.mbuf b).pool = p)).count a =
      if p = (s.mem.mbuf a).pool then bufs.count a else 0 := by
    by_cases hp : (s.mem.mbuf a).pool = p
    · rw [List.count_filter (by simpa using hp), if_pos hp.symm]
    · rw [if_neg (Ne.symm hp), List.count_eq_zero]
      simp [hp]
  rw [Multiset.count_add, Multiset.count_add, Multiset.count_sub, Multiset.coe_count, hfilter]
  split_ifs <;> simp

/-- The buffers of a list, all put into `pool`, are where they belong exactly when `pool` is the one of each. -/
private theorem count_owner_iff (owner : Addr → PoolId) (pool : PoolId) (bufs : List Addr) :
    (∀ p a, (if p = pool then bufs.count a else 0) = if p = owner a then bufs.count a else 0) ↔
      ∀ b ∈ bufs, owner b = pool := by
  constructor
  · intro h b hb
    have hpos := List.count_pos_iff.2 hb
    have heq := h (owner b) b
    by_contra hne
    rw [if_neg hne, if_pos rfl] at heq
    omega
  · intro h p a
    by_cases ha : a ∈ bufs
    · rw [h a ha]
    · simp [List.count_eq_zero.2 ha]

/-- The pass brings the buffers home exactly when the burst and the unsent copies are each put where they belong. -/
private theorem comesHome_iff_count {s' : Flow} {bufs : List Addr} {got : Option (List Addr)} {nbTx : Nat}
    (hmem : s'.mem = putUnsent (copyMbufs s.mem pool bufs got).2 ((got.getD []).drop nbTx))
    (hqueue : s'.queue = s.queue + ((got.getD []).take nbTx : List Addr))
    (hdisjoint : ∀ m ∈ (got.getD []).drop nbTx, m ∉ bufs) :
    s.ComesHome s' pool bufs (got.getD []) nbTx ↔
      (∀ p a, (if p = firstPool s.mem bufs then bufs.count a else 0) =
        if p = (s.mem.mbuf a).pool then bufs.count a else 0) ∧
      ∀ p a, (if p = pool then ((got.getD []).drop nbTx).count a else 0) =
        if p = (s.mem.mbuf a).pool then ((got.getD []).drop nbTx).count a else 0 := by
  constructor
  · intro h
    rw [← forall_and]
    intro p
    rw [← forall_and]
    intro a
    have heq := congrArg (Multiset.count a) (h.free p)
    rw [hmem, count_pass, count_due] at heq
    -- a buffer is in one of the two lists only, so that the other one counts for nothing
    by_cases ha : a ∈ bufs
    · have hunsent : ((got.getD []).drop nbTx).count a = 0 := List.count_eq_zero.2 fun hm => hdisjoint a hm ha
      simp only [hunsent, ite_self] at heq ⊢
      exact ⟨by omega, trivial⟩
    · have hburst : bufs.count a = 0 := List.count_eq_zero.2 ha
      simp only [hburst, ite_self] at heq ⊢
      exact ⟨trivial, by omega⟩
  · rintro ⟨hburst, hunsent⟩
    refine ⟨fun p => Multiset.ext.2 fun a => ?_, hqueue⟩
    rw [hmem, count_pass, count_due, hburst, hunsent]

/-- One pass of `forward` for a patch returns every received buffer and every unsent copy to its own pool exactly when
the burst belongs to the pool of its first buffer and the unsent copies to the pool of the output port. -/
theorem comesHome_iff (hactive : (fwd i).Active) (hrx : (fwd i).rxFunc ≠ none)
    (hout : slotOf (fwd i).outPortId = some out) (htx : (fwd out).txFunc ≠ none) (hpool : txPools out = some pool)
    (hbufs : (turns i).bufs ≠ []) (hreceived : ∀ b ∈ (turns i).bufs, b ∉ s.mem.free pool)
    (hgot : ∀ txm ∈ (turns i).got, txm.length = (turns i).bufs.length ∧ (txm : Multiset Addr) ≤ s.mem.free pool) :
    ∃ s', forwardSlot fwd txPools turns s i = some s' ∧
      (s.ComesHome s' pool (turns i).bufs ((turns i).got.getD []) (turns i).nbTx ↔
        (∀ b ∈ (turns i).bufs, (s.mem.mbuf b).pool = firstPool s.mem (turns i).bufs) ∧
          ∀ m ∈ ((turns i).got.getD []).drop (turns i).nbTx, (s.mem.mbuf m).pool = pool) := by
  obtain ⟨s', hpass, hmem, hqueue⟩ :=
    forwardSlot_burst (s := s) hactive hrx hout htx hpool hbufs (fun txm h => (hgot txm h).1)
  refine ⟨s', hpass, ?_⟩
  -- what comes out of the pool was not received
  have hdisjoint : ∀ m ∈ ((turns i).got.getD []).drop (turns i).nbTx, m ∉ (turns i).bufs := by
    intro m hm hb
    cases htxm : (turns i).got with
    | none => simp [htxm] at hm
    | some txm =>
      rw [htxm] at hm
      exact hreceived m hb (Multiset.mem_of_le (hgot txm htxm).2 (List.mem_of_mem_drop hm))
  rw [comesHome_iff_count hmem hqueue hdisjoint, count_owner_iff, count_owner_iff]

end

/-! ### Two received buffers -/

/-- Port 0 is patched to port 1, whose pool is pool 2. -/
def onePatch : Slots Port := fun i =>
  if (i : Nat) < 2 then ⟨i, .ring, some .rteEthRxBurst, some .rteEthTxBurst, if (i : Nat) = 0 then 1 else -99⟩
  else Port.init

/-- The pool of port 1. -/
def onePool : Slots (Option PoolId) := fun i => if (i : Nat) = 1 then some 2 else none

/-- The buffers 0 and 1 have been received and belong to the pools 0 and `p`; 2 and 3 are in pool 2. -/
def twoReceived (p : PoolId) : Flow where
  mem :=
    { mbuf := fun a => { pool := if a = 0 then 0 else if a = 1 then p else 2, refcnt := 1 }
      free := fun q => if q = 2 then {2, 3} else 0 }
  rx := {0, 1}
  held := []
  queue := 0

/-- Both are received in one burst, and one copy is sent. -/
def twoTurn : Slots Turn := fun _ => ⟨[0, 1], some [2, 3], 1⟩

theorem comesHome_onePool :
    ∃ s', forwardSlot onePatch onePool twoTurn (twoReceived 0) 0 = some s' ∧
      (twoReceived 0).ComesHome s' 2 [0, 1] [2, 3] 1 := by
  obtain ⟨s', hpass, hiff⟩ := @comesHome_iff onePatch onePool twoTurn (twoReceived 0) 0 1 2 (by decide) (by decide)
    (by decide) (by decide) (by decide) (by decide) (by decide) (by intro txm h; cases h; decide)
  exact ⟨s', hpass, hiff.2 ⟨by decide, by decide⟩⟩

/-- A buffer of pool 1 that is received behind one of pool 0 ends up in pool 0. -/
theorem mixedBurst_strays :
    ∃ s', forwardSlot onePatch onePool twoTurn (twoReceived 1) 0 = some s' ∧
      ¬(twoReceived 1).ComesHome s' 2 [0, 1] [2, 3] 1 := by
  refine ⟨_, rfl, fun h => ?_⟩
  have hcount := congrArg (Multiset.count 1) (h.free 1)
  revert hcount
  decide +kernel

end SoftPatchPanel.Memcpy

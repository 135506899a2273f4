import SoftPatchPanel.Memcpy.Places

/-!
# Does the copying forwarder drain its pool?

`copy_mbufs` takes raw objects out of the pool and never sets their reference count.  A buffer that was freed comes
back with the count 0, a copy in it is handed over with the count 0, and when the consumer frees it the count wraps
around instead of bringing the buffer back.  Only a driver that allocates the buffer for a received packet leaves the
count 1 behind, since `copy_mbufs` puts received buffers back without looking at their count.

So a run loses no buffer of a pool exactly when every accepted copy sits in a buffer that a driver had allocated after
its last release, and no buffer of the pool is received behind one of another pool (`pool_kept_iff`).
-/

namespace SoftPatchPanel.Memcpy

open Lib Pktmbuf Secondary

/-! ### The property -/

/-- Every buffer of the pool `D` is in the pool or in somebody's hands. -/
def Flow.Accounted (s : Flow) (D : PoolId) : Prop :=
  ∀ a, (s.mem.mbuf a).pool = D → a ∈ s.mem.free D ∨ a ∈ s.rx ∨ a ∈ s.held ∨ a ∈ s.queue

/-- The start: every buffer is at one place and has its own data, those of `D` are in their pool and have the reference
count 0, and nothing is on its way to a consumer. -/
structure Flow.Fresh (s : Flow) (D : PoolId) : Prop where
  at_place : ∀ a, ∃ x, AtPlace (s.count a) x
  own : ∀ a, (s.mem.mbuf a).bufOwner = none
  in_pool : ∀ a, (s.mem.mbuf a).pool = D → a ∈ s.mem.free D ∧ (s.mem.mbuf a).refcnt = 0
  held : s.held = []
  queue : s.queue = 0

/-- The copies of buffers of `D` that a port accepts have the reference count 1. -/
def HandsOverOne (D : PoolId) (s : Flow) (e : Event) : Prop :=
  ∀ nbTx, e = .send nbTx → ∀ a ∈ s.held.take nbTx, (s.mem.mbuf a).pool = D → (s.mem.mbuf a).refcnt = 1

/-- The buffers that a driver has allocated since their last release. -/
def Event.mark (received : Addr → Bool) : Event → Addr → Bool
  | .receive _ m _ _ _ => Function.update received m true
  | .release m => Function.update received m false
  | .copy _ _ _ | .send _ => received

/-- Every accepted copy in a buffer of `D` is in one that a driver has allocated since its last release, and no buffer
of `D` is received in a burst that starts with a buffer of another pool. -/
def FromDrivers (D : PoolId) : (Addr → Bool) → Flow → List Event → Prop
  | _, _, [] => True
  | received, s, e :: es =>
    (match e with
      | .copy _ bufs _ => ∀ b ∈ bufs, (s.mem.mbuf b).pool = D → firstPool s.mem bufs = D
      | .send nbTx => ∀ a ∈ s.held.take nbTx, (s.mem.mbuf a).pool = D → received a
      | .receive _ _ _ _ _ | .release _ => True) ∧
      FromDrivers D (e.mark received) (s.step e) es

/-! ### One step -/

/-- What a step needs to lose no buffer of `D`. -/
def Keeps (D : PoolId) (s : Flow) : Event → Prop
  | .copy _ bufs _ => ∀ b ∈ bufs, (s.mem.mbuf b).pool = D → firstPool s.mem bufs = D
  | .release m => (s.mem.mbuf m).pool = D → (s.mem.mbuf m).refcnt = 1
  | .receive _ _ _ _ _ | .send _ => True

section

variable {s : Flow} {D : PoolId} {e : Event} {es : List Event} {received : Addr → Bool}

/-- A buffer at the place `x` is not lost. -/
private def AtHome (D : PoolId) (x : Option Place) : Prop :=
  x = some (.pool D) ∨ x = some .rx ∨ x = some .held ∨ x = some .queue

private theorem Flow.Placed.accounted_iff (hs : s.Placed) :
    s.Accounted D ↔ ∀ a, (s.mem.mbuf a).pool = D → ∀ x, AtPlace (s.count a) x → AtHome D x := by
  constructor
  · intro h a ha x hx
    have := h a ha
    rwa [mem_free_iff hx, mem_rx_iff hx, mem_held_iff hx, mem_queue_iff hx] at this
  · intro h a ha
    obtain ⟨x, hx⟩ := hs.at_place a
    rw [mem_free_iff hx, mem_rx_iff hx, mem_held_iff hx, mem_queue_iff hx]
    exact h a ha x hx

private theorem Flow.Placed.accounted_step_iff (hs : s.Placed) (hok : s.Allows e) (hacc : s.Accounted D) :
    (s.step e).Accounted D ↔ Keeps D s e := by
  have hplace : (s.step e).Accounted D ↔
      ∀ a, (s.mem.mbuf a).pool = D → ∀ x, AtPlace (s.count a) x → AtHome D (s.place a x e) := by
    rw [(hs.step hok).accounted_iff]
    refine forall_congr' fun a => ?_
    rw [hs.step_pool hok]
    refine imp_congr_right fun _ => ⟨fun h x hx => h _ (hs.step_at hok hx), fun h y hy => ?_⟩
    obtain ⟨x, hx⟩ := hs.at_place a
    rw [hy.unique (hs.step_at hok hx)]
    exact h x hx
  rw [hs.accounted_iff] at hacc
  rw [hplace]
  cases e with
  | receive p m next pkt data =>
    refine iff_of_true (fun a ha x hx => ?_) trivial
    rw [Flow.place]
    split_ifs
    · exact Or.inr (Or.inl rfl)
    · exact hacc a ha x hx
  | copy pool bufs got =>
    constructor
    · intro h b hb hpool
      obtain ⟨x, hx⟩ := hs.at_place b
      have := h b hpool x hx
      rw [Flow.place, if_pos hb] at this
      simpa [AtHome] using this
    · intro h a ha x hx
      rw [Flow.place]
      split_ifs with hb ht
      · exact Or.inl (by rw [h a hb ha])
      · exact Or.inr (Or.inr (Or.inl rfl))
      · exact hacc a ha x hx
  | send nbTx =>
    refine iff_of_true (fun a ha x hx => ?_) trivial
    rw [Flow.place]
    split_ifs
    · exact Or.inl (by rw [ha])
    · exact Or.inr (Or.inr (Or.inr rfl))
    · exact hacc a ha x hx
  | release m =>
    constructor
    · intro h hpool
      obtain ⟨x, hx⟩ := hs.at_place m
      have := h m hpool x hx
      by_contra hcount
      simp [Flow.place, hcount, AtHome] at this
    · intro h a ha x hx
      rw [Flow.place]
      split_ifs with ham hcount
      · subst ham
        exact Or.inl (by rw [ha])
      · subst ham
        exact absurd (h ha) hcount
      · exact hacc a ha x hx

/-! ### Reference counts -/

/-- The buffers of `D` with the reference count 1 are those that a driver has allocated since their last release. -/
def Counted (D : PoolId) (received : Addr → Bool) (s : Flow) : Prop :=
  ∀ a, (s.mem.mbuf a).pool = D → ((s.mem.mbuf a).refcnt = 1 ↔ received a)

private theorem Counted.step (h : Counted D received s) (hs : s.Placed) (hok : s.Allows e) (hkeeps : Keeps D s e) :
    Counted D (e.mark received) (s.step e) := by
  intro a ha
  rw [hs.step_pool hok] at ha
  by_cases hrec : ∃ p next pkt data, e = .receive p a next pkt data
  · obtain ⟨p, next, pkt, data, rfl⟩ := hrec
    simp [Event.mark, Flow.step, rtePktmbufAlloc, rtePktmbufReset]
  by_cases hrel : e = .release a
  · subst hrel
    have hcount := (free_spec (hs.single a (Or.inr hok)) (hs.own a)).2.2.2.2 (hkeeps ha)
    simpa [Event.mark, Flow.step] using hcount
  · rw [hs.step_refcnt hok (fun p next pkt data h => hrec ⟨p, next, pkt, data, h⟩) hrel, h a ha]
    cases e with
    | receive p m next pkt data =>
      have ha : a ≠ m := fun h => hrec ⟨p, next, pkt, data, h ▸ rfl⟩
      simp [Event.mark, ha]
    | release m =>
      have ha : a ≠ m := fun h => hrel (h ▸ rfl)
      simp [Event.mark, ha]
    | copy pool bufs got => rfl
    | send nbTx => rfl

/-- A copy that was accepted with another count is never released. -/
private theorem mem_queue_run {a : Addr} (hs : s.Placed) (hok : Along Flow.step Flow.Allows s es)
    (hkeeps : Along Flow.step (Keeps D) s es)
    (ha : (s.mem.mbuf a).pool = D) (hcount : (s.mem.mbuf a).refcnt ≠ 1) (hqueue : a ∈ s.queue) :
    a ∈ (s.run es).queue := by
  induction es generalizing s with
  | nil => exact hqueue
  | cons e es ih =>
    obtain ⟨hallows, hrest⟩ := hok
    obtain ⟨hkeep, hafter⟩ := hkeeps
    obtain ⟨x, hx⟩ := hs.at_place a
    have hplace := (mem_queue_iff hx).1 hqueue
    have hreceive : ∀ p next pkt data, e ≠ .receive p a next pkt data := by
      rintro p next pkt data rfl
      have := (mem_free_iff hx p).1 hallows
      simp_all
    have hrelease : e ≠ .release a := by
      rintro rfl
      exact hcount (hkeep ha)
    refine ih (hs.step hallows) hrest hafter ?_ ?_ ?_
    · rw [hs.step_pool hallows, ha]
    · rwa [hs.step_refcnt hallows hreceive hrelease]
    · cases e with
      | receive p m next pkt data => exact hqueue
      | copy pool bufs got => exact hqueue
      | send nbTx => exact Multiset.mem_add.2 (Or.inl hqueue)
      | release m =>
        have ham : a ≠ m := fun h => hrelease (h ▸ rfl)
        exact (Multiset.mem_erase_of_ne ham).2 hqueue

/-- When all accepted packets get released and nothing is lost, they were handed over with the count 1. -/
private theorem handsOverOne_of_keeps (hs : s.Placed) (hok : Along Flow.step Flow.Allows s es)
    (hkeeps : Along Flow.step (Keeps D) s es) (hdone : (s.run es).queue = 0) :
    Along Flow.step (HandsOverOne D) s es := by
  induction es generalizing s with
  | nil => trivial
  | cons e es ih =>
    obtain ⟨hallows, hrest⟩ := hok
    obtain ⟨-, hafter⟩ := hkeeps
    refine ⟨?_, ih (hs.step hallows) hrest hafter hdone⟩
    rintro nbTx rfl a ha hpool
    by_contra hcount
    have hqueue : a ∈ (s.step (.send nbTx)).queue := Multiset.mem_add.2 (Or.inr ha)
    have hlast := mem_queue_run (hs.step hallows) hrest hafter ((hs.step_pool hallows a).trans hpool)
      (by rwa [hs.step_refcnt hallows nofun nofun]) hqueue
    rw [Flow.run_cons] at hdone
    rw [hdone] at hlast
    exact Multiset.notMem_zero a hlast

/-- A copy that is handed over with the count 1 is in a buffer of the drivers. -/
private theorem fromDrivers_of_keeps (hs : s.Placed) (hok : Along Flow.step Flow.Allows s es)
    (hcounted : Counted D received s) (hkeeps : Along Flow.step (Keeps D) s es)
    (hone : Along Flow.step (HandsOverOne D) s es) : FromDrivers D received s es := by
  induction es generalizing s received with
  | nil => trivial
  | cons e es ih =>
    obtain ⟨hallows, hrest⟩ := hok
    obtain ⟨hkeep, hafter⟩ := hkeeps
    obtain ⟨hnow, hone⟩ := hone
    refine ⟨?_, ih (hs.step hallows) hrest (hcounted.step hs hallows hkeep) hafter hone⟩
    cases e with
    | receive p m next pkt data => trivial
    | copy pool bufs got => exact hkeep
    | send nbTx => exact fun a ha hpool => (hcounted a hpool).1 (hnow nbTx rfl a ha hpool)
    | release m => trivial

/-- In such buffers the copies are handed over with the count 1, and nothing is lost. -/
private theorem keeps_of_fromDrivers (hs : s.Placed) (hok : Along Flow.step Flow.Allows s es)
    (hcounted : Counted D received s)
    (hqueue : ∀ a ∈ s.queue, (s.mem.mbuf a).pool = D → received a) (h : FromDrivers D received s es) :
    Along Flow.step (Keeps D) s es ∧ Along Flow.step (HandsOverOne D) s es := by
  induction es generalizing s received with
  | nil => exact ⟨trivial, trivial⟩
  | cons e es ih =>
    obtain ⟨hallows, hrest⟩ := hok
    obtain ⟨hnow, hafter⟩ := h
    have hkeep : Keeps D s e := by
      cases e with
      | receive p m next pkt data => trivial
      | copy pool bufs got => exact hnow
      | send nbTx => trivial
      | release m => exact fun hpool => (hcounted m hpool).2 (hqueue m hallows hpool)
    have hone : HandsOverOne D s e := by
      rintro nbTx rfl a ha hpool
      exact (hcounted a hpool).2 (hnow a ha hpool)
    have hqueue' : ∀ a ∈ (s.step e).queue, ((s.step e).mem.mbuf a).pool = D → e.mark received a := by
      intro a ha hpool
      rw [hs.step_pool hallows] at hpool
      cases e with
      | receive p m next pkt data =>
        by_cases ham : a = m
        · simp [Event.mark, ham]
        · simpa [Event.mark, ham] using hqueue a ha hpool
      | copy pool bufs got => exact hqueue a ha hpool
      | send nbTx =>
        rcases Multiset.mem_add.1 ha with ha | ha
        · exact hqueue a ha hpool
        · exact hnow a ha hpool
      | release m =>
        obtain ⟨x, hx⟩ := hs.at_place a
        have ham : a ≠ m := by
          rintro rfl
          have := (mem_queue_iff (hs.step_at hallows hx)).1 ha
          simp [Flow.place] at this
        simpa [Event.mark, ham] using hqueue a (Multiset.mem_of_mem_erase ha) hpool
    have hrun := ih (hs.step hallows) hrest (hcounted.step hs hallows hkeep) hqueue' hafter
    exact ⟨⟨hkeep, hrun.1⟩, hone, hrun.2⟩

private theorem Flow.Fresh.placed (h : s.Fresh D) : s.Placed where
  at_place := h.at_place
  own := h.own
  single := by
    intro a ha
    rw [h.held, h.queue] at ha
    simp at ha

private theorem Flow.Fresh.counted (h : s.Fresh D) : Counted D (fun _ => false) s := by
  intro a ha
  simp [(h.in_pool a ha).2]

private theorem Flow.Fresh.accounted_iff (h : s.Fresh D) (hok : Along Flow.step Flow.Allows s es) :
    (∀ k, (s.run (es.take k)).Accounted D) ↔ Along Flow.step (Keeps D) s es :=
  forall_take_iff_along (fun hs hok => hs.step hok) (fun hs hok hacc => hs.accounted_step_iff hok hacc) h.placed hok
    fun a ha => Or.inl (h.in_pool a ha).1

private theorem Flow.Fresh.kept (h : s.Fresh D) (hok : Along Flow.step Flow.Allows s es)
    (hdrivers : FromDrivers D (fun _ => false) s es) :
    (∀ k, (s.run (es.take k)).Accounted D) ∧ Along Flow.step (HandsOverOne D) s es := by
  rw [h.accounted_iff hok]
  refine keeps_of_fromDrivers h.placed hok h.counted (fun a ha => ?_) hdrivers
  rw [h.queue] at ha
  exact absurd ha (Multiset.notMem_zero a)

end

/-- In a run from a fresh pool no buffer of the pool is lost and the accepted copies have the reference count 1, exactly
when these copies are in buffers that a driver has allocated since their last release and no buffer of the pool is
received in a burst that starts with one of another pool.  When the consumers release all they accepted, no buffer is
lost only if the accepted copies have the count 1.  And under the same condition on its steps, a call of `forward` that
follows such a run loses no buffer. -/
theorem pool_kept_iff (D : PoolId) {s : Flow} (hs : s.Fresh D) {es : List Event}
    (hok : Along Flow.step Flow.Allows s es) :
    ((∀ k, (s.run (es.take k)).Accounted D) ∧ Along Flow.step (HandsOverOne D) s es ↔
        FromDrivers D (fun _ => false) s es) ∧
      ((s.run es).queue = 0 → (∀ k, (s.run (es.take k)).Accounted D) → Along Flow.step (HandsOverOne D) s es) ∧
      ∀ (fwd : Slots Port) (txPools : Slots (Option PoolId)) (turns : Slots Turn) (s' : Flow),
        (∀ i, ∀ txm ∈ (turns i).got, txm.length = (turns i).bufs.length) →
        forward fwd txPools turns (s.run es) = some s' →
        Along Flow.step Flow.Allows s (es ++ sweepEvents fwd txPools turns) →
        FromDrivers D (fun _ => false) s (es ++ sweepEvents fwd txPools turns) → s'.Accounted D := by
  refine ⟨⟨fun h => ?_, hs.kept hok⟩, fun hdone h => ?_, ?_⟩
  · exact fromDrivers_of_keeps hs.placed hok hs.counted ((hs.accounted_iff hok).1 h.1) h.2
  · exact handsOverOne_of_keeps hs.placed hok ((hs.accounted_iff hok).1 h) hdone
  · intro fwd txPools turns s' hlen hforward hsweep hdrivers
    have hkept := (hs.kept hsweep hdrivers).1 (es ++ sweepEvents fwd txPools turns).length
    rwa [List.take_length, Flow.run_append, ← forward_eq_run hlen hforward] at hkept

/-- Two buffers in a fresh pool, and a received packet in a buffer of another one. -/
def twoBuffers : Flow where
  mem :=
    { mbuf := fun a => if a < 2 then { pool := 0 } else { pool := 1, refcnt := 1 }
      free := fun
        | 0 => {0, 1}
        | _ => 0 }
  rx := {2}
  held := []
  queue := 0

private theorem twoBuffers_fresh : twoBuffers.Fresh 0 where
  at_place := by
    rintro (_ | _ | _ | a)
    · refine ⟨some (.pool 0), ?_⟩
      rintro ((_ | p) | _) <;> simp [Flow.count, twoBuffers]
    · refine ⟨some (.pool 0), ?_⟩
      rintro ((_ | p) | _) <;> simp [Flow.count, twoBuffers]
    · refine ⟨some .rx, ?_⟩
      rintro ((_ | p) | _) <;> simp [Flow.count, twoBuffers]
    · refine ⟨none, ?_⟩
      rintro ((_ | p) | _) <;> simp [Flow.count, twoBuffers]
  own := by
    intro a
    by_cases ha : a < 2
    · simp only [twoBuffers, if_pos ha]
    · simp only [twoBuffers, if_neg ha]
  in_pool := by
    rintro (_ | _ | a) ha
    · exact ⟨by decide, rfl⟩
    · exact ⟨by decide, rfl⟩
    · simp only [twoBuffers, if_neg (show ¬a + 1 + 1 < 2 by omega)] at ha
      cases ha
  held := rfl
  queue := rfl

/-- A driver that receives into the pool of the output port, so that a copy comes to sit in a received buffer. -/
def samePool : List Event :=
  [.receive 0 0 none {} (fun _ => 0), .copy 0 [0] (some [1]), .send 0, .receive 0 1 none {} (fun _ => 0),
    .copy 0 [1] (some [0]), .send 1, .release 0]

/-- Port 0 is patched to port 1, which has the pool. -/
def samePoolPatch : Slots Port := fun i =>
  if (i : Nat) < 2 then ⟨i, .ring, some .rteEthRxBurst, some .rteEthTxBurst, if (i : Nat) = 0 then 1 else -99⟩
  else Port.init

/-- The pool of port 1. -/
def samePoolOf : Slots (Option PoolId) := fun i => if (i : Nat) = 1 then some 0 else none

/-- The second packet of `samePool` is received, and its copy is sent. -/
def samePoolTurn : Slots Turn := fun _ => ⟨[1], some [0], 1⟩

/-- Nothing is lost when the copy is in a buffer that was received before; the second of its bursts may be a call of
`forward`. -/
theorem pool_kept_samePool :
    (FromDrivers 0 (fun _ => false) twoBuffers samePool ∧ (twoBuffers.run samePool).Accounted 0 ∧
      Along Flow.step (HandsOverOne 0) twoBuffers samePool) ∧
    ∃ s', forward samePoolPatch samePoolOf samePoolTurn (twoBuffers.run (samePool.take 4)) = some s' ∧
      s'.Accounted 0 := by
  have hok : Along Flow.step Flow.Allows twoBuffers samePool := by decide +kernel
  have hdrivers : FromDrivers 0 (fun _ => false) twoBuffers samePool :=
    ⟨trivial, by decide +kernel, by decide +kernel, trivial, by decide +kernel, by decide +kernel, trivial, trivial⟩
  obtain ⟨hkept, hone⟩ := (pool_kept_iff 0 twoBuffers_fresh hok).1.2 hdrivers
  refine ⟨⟨hdrivers, hkept 7, hone⟩, _, rfl, ?_⟩
  refine (@pool_kept_iff 0 _ twoBuffers_fresh (samePool.take 4) (by decide +kernel)).2.2 samePoolPatch samePoolOf
    samePoolTurn _ ?_ rfl ?_ ?_
  · intro i txm h
    cases h
    rfl
  · decide +kernel
  · exact ⟨trivial, by decide +kernel, by decide +kernel, trivial, by decide +kernel, by decide +kernel, trivial⟩

/-- The copy of a packet from another pool is lost when its consumer frees it. -/
theorem copy_lost :
    twoBuffers.Fresh 0 ∧ Along Flow.step Flow.Allows twoBuffers [.copy 0 [2] (some [0]), .send 1, .release 0] ∧
      ¬(twoBuffers.run [.copy 0 [2] (some [0]), .send 1, .release 0]).Accounted 0 := by
  refine ⟨twoBuffers_fresh, by decide +kernel, fun h => ?_⟩
  have hplaces := h 0 (by decide +kernel)
  revert hplaces
  decide +kernel

end SoftPatchPanel.Memcpy

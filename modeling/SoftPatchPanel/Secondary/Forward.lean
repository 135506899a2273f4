import SoftPatchPanel.Secondary.Commands
import Mathlib.Data.List.Forall2

/-!
# The forwarding loop

`forward` of `sec_zerocpy`: one sweep goes over all slots and moves a burst from each active one to the port it is
patched to.  The ports are whatever the burst functions make of them (`Bursts`).  A sweep ends in `none` where the C
code would call a NULL function or read a slot outside the table.

The log of a sweep has one visit for each active slot, and together the visits are all calls of the burst functions
(`MadeBy`).  Every received buffer leaves the sweep exactly once, to the output port or back to its own pool, and a port
gets the buffers of an input in the order of their arrival (`sweeps_accounted`).
-/

namespace SoftPatchPanel.Secondary

open EthDev

/-- `MAX_PKT_BURST`. -/
def maxPktBurst : Nat := 32

/-- The behaviour of the burst functions, as a machine with states `σ`: the buffers that a port delivers, and how many
of the buffers in an array it takes. -/
structure Bursts (σ μ : Type) where
  rx : σ → Fin rteMaxEthports → List μ × σ
  tx : σ → Fin rteMaxEthports → List μ → Nat × σ

/-- At most 32 different buffers are received, and what is taken is a part of the array from its start. -/
structure Bursts.Ok {σ μ : Type} (b : Bursts σ μ) : Prop where
  rx_length : ∀ st p, (b.rx st p).1.length ≤ maxPktBurst
  rx_nodup : ∀ st p, (b.rx st p).1.Nodup
  tx_le : ∀ st p bufs, (b.tx st p bufs).1 ≤ bufs.length

/-- What a sweep does for one active slot: the burst it received, the array it handed to the output port with the
number of buffers taken, and the calls of `rte_mempool_put`. -/
structure Visit (μ π : Type) where
  inPort : Fin rteMaxEthports
  outPort : Int
  received : List μ
  sent : Option (List μ × Nat)
  put : List (π × μ)

/-- The buffers that the output port accepted. -/
def Visit.accepted {μ π : Type} (v : Visit μ π) : List μ :=
  match v.sent with
  | none => []
  | some (bufs, nbTx) => bufs.take nbTx

/-- The slot of a port number. -/
def slotOf (i : Int) : Option (Fin rteMaxEthports) := (List.finRange rteMaxEthports).find? (fun j => (j : Int) = i)

/-- The two tests of `forward`: the slot is in use and patched to a port. -/
def Port.Active (p : Port) : Prop := 0 ≤ p.status ∧ 0 ≤ p.outPortId

instance (p : Port) : Decidable p.Active := inferInstanceAs (Decidable (_ ∧ _))

section

variable {σ μ π : Type}

/-- The array `bufs` after a burst; what the burst does not reach is what the array held before. -/
def fillBufs (bufs : Nat → Option μ) (received : List μ) : Nat → Option μ :=
  fun j => if j < received.length then received[j]? else bufs j

/-- The first `n` elements of the array, as the burst function sees them. -/
def readBufs (bufs : Nat → Option μ) (n : Nat) : List μ := (List.range n).filterMap bufs

/-- The loop that frees the unsent packets, from index `buf` on for `n` rounds. -/
def putUnsent (pool : μ → π) (bufs : Nat → Option μ) : Nat → Nat → List (π × μ)
  | _, 0 => []
  | buf, n + 1 => ((bufs buf).map (fun m => (pool m, m))).toList ++ putUnsent pool bufs (buf + 1) n

/-- The body of the loop of `forward` for slot `i`, on the state of the ports and the array. -/
def forwardSlot (b : Bursts σ μ) (pool : μ → π) (fwd : Slots Port) (st : σ × (Nat → Option μ))
    (i : Fin rteMaxEthports) : Option (Option (Visit μ π) × σ × (Nat → Option μ)) :=
  if (fwd i).Active then
    let outPort := (fwd i).outPortId
    match (fwd i).rxFunc with
    | none => none
    | some _ =>
      let (received, ports) := b.rx st.1 i
      let bufs := fillBufs st.2 received
      let nbRx := received.length
      if nbRx = 0 then some (some ⟨i, outPort, received, none, []⟩, ports, bufs)
      else
        match slotOf outPort with
        | none => none
        | some out =>
          match (fwd out).txFunc with
          | none => none
          | some _ =>
            let (nbTx, ports) := b.tx ports out (readBufs bufs nbRx)
            let put := if nbTx < nbRx then putUnsent pool bufs nbTx (nbRx - nbTx) else []
            some (some ⟨i, outPort, received, some (readBufs bufs nbRx, nbTx), put⟩, ports, bufs)
  else some (none, st)

/-- The loop of `forward` over the slots `is`. -/
def forwardSlots (b : Bursts σ μ) (pool : μ → π) (fwd : Slots Port) :
    List (Fin rteMaxEthports) → σ × (Nat → Option μ) → Option (List (Visit μ π) × σ × (Nat → Option μ))
  | [], st => some ([], st)
  | i :: is, st =>
    match forwardSlot b pool fwd st i with
    | none => none
    | some (visit, st') =>
      match forwardSlots b pool fwd is st' with
      | none => none
      | some (visits, st'') => some (visit.toList ++ visits, st'')

/-- `forward`. -/
def forward (b : Bursts σ μ) (pool : μ → π) (fwd : Slots Port) (st : σ × (Nat → Option μ)) :
    Option (List (Visit μ π) × σ × (Nat → Option μ)) :=
  forwardSlots b pool fwd (List.finRange rteMaxEthports) st

/-- Sweeps one after another, each over the table it finds. -/
def sweeps (b : Bursts σ μ) (pool : μ → π) :
    List (Slots Port) → σ × (Nat → Option μ) → Option (List (List (Visit μ π)) × σ × (Nat → Option μ))
  | [], st => some ([], st)
  | fwd :: fwds, st =>
    match forward b pool fwd st with
    | none => none
    | some (visits, st') =>
      match sweeps b pool fwds st' with
      | none => none
      | some (rest, st'') => some (visits :: rest, st'')

/-! ### The array -/

private theorem readBufs_fillBufs (bufs : Nat → Option μ) (received : List μ) :
    readBufs (fillBufs bufs received) received.length = received := by
  have h : ∀ j ∈ List.range received.length, fillBufs bufs received j = received[j]? := by
    intro j hj
    simp [fillBufs, List.mem_range.1 hj]
  rw [readBufs, List.filterMap_congr h]
  clear h
  induction received with
  | nil => rfl
  | cons m received ih =>
    rw [List.length_cons, List.range_succ_eq_map, List.filterMap_cons, List.filterMap_map]
    simpa [Function.comp_def] using ih

private theorem putUnsent_fillBufs (pool : μ → π) (bufs : Nat → Option μ) (received : List μ) {buf n : Nat}
    (h : buf + n = received.length) :
    putUnsent pool (fillBufs bufs received) buf n = (received.drop buf).map (fun m => (pool m, m)) := by
  induction n generalizing buf with
  | zero => simp [putUnsent, List.drop_of_length_le (show received.length ≤ buf by omega)]
  | succ n ih =>
    have hlt : buf < received.length := by omega
    have hget : fillBufs bufs received buf = some (received.get ⟨buf, hlt⟩) := by simp [fillBufs, hlt]
    rw [putUnsent, ih (by omega), List.drop_eq_getElem_cons hlt, hget]
    rfl

/-! ### One slot -/

/-- The functions that forwarding calls are set. -/
def Callable (fwd : Slots Port) : Prop :=
  ∀ i, (fwd i).Active → (fwd i).rxFunc ≠ none ∧ ∃ out, slotOf (fwd i).outPortId = some out ∧ (fwd out).txFunc ≠ none

/-- The visit is what the burst functions do between two states of the ports: its burst is the one that its input
delivers, and unless that is empty, its output is given the burst and takes the number in the log. -/
inductive Visit.Made (b : Bursts σ μ) (v : Visit μ π) (s : σ) : σ → Prop where
  | idle (hrx : v.received = (b.rx s v.inPort).1) (hnil : v.received = []) (hsent : v.sent = none) :
      Made b v s (b.rx s v.inPort).2
  | moved (out : Fin rteMaxEthports) (hout : (out : Int) = v.outPort) (hrx : v.received = (b.rx s v.inPort).1)
      (hne : v.received ≠ []) (hsent : v.sent = some (v.received, (b.tx (b.rx s v.inPort).2 out v.received).1)) :
      Made b v s (b.tx (b.rx s v.inPort).2 out v.received).2

/-- The visits of a log follow each other, and nothing else is received or sent. -/
inductive MadeBy (b : Bursts σ μ) : List (Visit μ π) → σ → σ → Prop where
  | nil (s : σ) : MadeBy b [] s s
  | cons {v : Visit μ π} {visits : List (Visit μ π)} {s t u : σ} (hv : v.Made b s t) (hvisits : MadeBy b visits t u) :
      MadeBy b (v :: visits) s u

private theorem MadeBy.append {b : Bursts σ μ} {visits visits' : List (Visit μ π)} {s t u : σ} (h : MadeBy b visits s t)
    (h' : MadeBy b visits' t u) : MadeBy b (visits ++ visits') s u := by
  induction h with
  | nil => exact h'
  | cons hv _ ih => exact .cons hv (ih h')

/-- Every burst of a log was delivered by its input. -/
theorem MadeBy.received {b : Bursts σ μ} {visits : List (Visit μ π)} {s t : σ} (h : MadeBy b visits s t)
    {v : Visit μ π} (hv : v ∈ visits) : ∃ u, v.received = (b.rx u v.inPort).1 := by
  induction h with
  | nil => cases hv
  | @cons w _ s _ _ hw _ ih =>
    rcases List.mem_cons.1 hv with rfl | hv
    · cases hw with
      | idle hrx | moved _ _ hrx => exact ⟨s, hrx⟩
    · exact ih hv

/-- What is due to the buffers of one burst: the slot is patched to the port that gets it, the functions are there, each
buffer is accepted or put into its own pool, and nothing else is. -/
structure Visit.Accounted (v : Visit μ π) (pool : μ → π) (fwd : Slots Port) : Prop where
  active : (fwd v.inPort).Active
  rxFunc : (fwd v.inPort).rxFunc ≠ none
  outPort : v.outPort = (fwd v.inPort).outPortId
  txFunc : v.received ≠ [] → ∃ out, slotOf v.outPort = some out ∧ (fwd out).txFunc ≠ none
  split : v.accepted ++ v.put.map Prod.snd = v.received
  pool : ∀ x ∈ v.put, x.1 = pool x.2

private theorem slotOf_eq_some {i : Int} {j : Fin rteMaxEthports} (h : slotOf i = some j) : (j : Int) = i := by
  simpa using List.find?_some h

theorem slotOf_eq (j : Fin rteMaxEthports) : slotOf j = some j := by
  cases hfind : slotOf j with
  | none =>
    have := List.find?_eq_none.1 hfind j (List.mem_finRange j)
    simp at this
  | some i => exact congrArg some (Fin.ext (by exact_mod_cast slotOf_eq_some hfind))

private theorem forwardSlot_inactive (b : Bursts σ μ) (pool : μ → π) {fwd : Slots Port} {i : Fin rteMaxEthports}
    (h : ¬(fwd i).Active) (st : σ × (Nat → Option μ)) : forwardSlot b pool fwd st i = some (none, st) :=
  ite_cond_eq_false _ _ (eq_false h)

private theorem put_eq_drop (pool : μ → π) (bufs : Nat → Option μ) (received : List μ) (nbTx : Nat) :
    (if nbTx < received.length then putUnsent pool (fillBufs bufs received) nbTx (received.length - nbTx) else []) =
      (received.drop nbTx).map (fun m => (pool m, m)) := by
  split
  · exact putUnsent_fillBufs pool bufs received (by omega)
  · rw [List.drop_of_length_le (by omega)]
    rfl

/-- What a visit is. -/
private theorem forwardSlot_visit {b : Bursts σ μ} {pool : μ → π} {fwd : Slots Port} {st st' : σ × (Nat → Option μ)}
    {i : Fin rteMaxEthports} {v : Visit μ π} (h : forwardSlot b pool fwd st i = some (some v, st')) :
    v.inPort = i ∧ v.Made b st.1 st'.1 ∧ v.Accounted pool fwd := by
  unfold forwardSlot at h
  split at h
  · next hactive =>
    cases hrx : (fwd i).rxFunc with
    | none => simp [hrx] at h
    | some _ =>
      have hfunc : (fwd i).rxFunc ≠ none := by simp [hrx]
      generalize hrecv : b.rx st.1 i = burst at h
      obtain ⟨received, ports⟩ := burst
      simp only [hrx] at h
      split at h
      · next hzero =>
        cases h
        have hnil := List.length_eq_zero_iff.1 hzero
        have hports : (b.rx st.1 i).2 = ports := congrArg Prod.snd hrecv
        refine ⟨rfl, hports ▸ Visit.Made.idle (congrArg Prod.fst hrecv).symm hnil rfl, hactive, hfunc, rfl,
          fun hne => absurd hnil hne, by simp [Visit.accepted, hnil], by simp⟩
      · next hzero =>
        cases hout : slotOf (fwd i).outPortId with
        | none => simp [hout] at h
        | some out =>
          cases htx : (fwd out).txFunc with
          | none => simp [hout, htx] at h
          | some _ =>
            simp only [hout, htx, readBufs_fillBufs, put_eq_drop] at h
            cases h
            refine ⟨rfl, ?_, hactive, hfunc, rfl, fun _ => ⟨out, hout, by simp [htx]⟩,
              by simp [Visit.accepted, Function.comp_def], ?_⟩
            · have hports : (b.rx st.1 i).2 = ports := congrArg Prod.snd hrecv
              rw [← hports]
              exact Visit.Made.moved out (slotOf_eq_some hout) (congrArg Prod.fst hrecv).symm
                (List.length_eq_zero_iff.not.1 hzero) rfl
            · intro x hx
              obtain ⟨m, -, rfl⟩ := List.mem_map.1 hx
              rfl
  · cases h

private theorem forwardSlot_isSome (b : Bursts σ μ) (pool : μ → π) {fwd : Slots Port} (hfwd : Callable fwd)
    {i : Fin rteMaxEthports} (h : (fwd i).Active) (st : σ × (Nat → Option μ)) :
    ∃ v st', forwardSlot b pool fwd st i = some (some v, st') := by
  obtain ⟨hrx, out, hout, htx⟩ := hfwd i h
  obtain ⟨f, hf⟩ := Option.ne_none_iff_exists'.1 hrx
  obtain ⟨g, hg⟩ := Option.ne_none_iff_exists'.1 htx
  unfold forwardSlot
  simp only [if_pos h, hf, hout, hg]
  split <;> exact ⟨_, _, rfl⟩

/-! ### Sweeps -/

/-- A sweep visits the active slots in ascending order and calls the burst functions for them only. -/
theorem forwardSlots_visits {b : Bursts σ μ} {pool : μ → π} {fwd : Slots Port} {is : List (Fin rteMaxEthports)}
    {st st' : σ × (Nat → Option μ)} {visits : List (Visit μ π)}
    (h : forwardSlots b pool fwd is st = some (visits, st')) :
    MadeBy b visits st.1 st'.1 ∧ visits.map Visit.inPort = is.filter (fun i => (fwd i).Active) ∧
      ∀ v ∈ visits, v.Accounted pool fwd := by
  induction is generalizing st visits with
  | nil =>
    cases h
    exact ⟨.nil _, rfl, by simp⟩
  | cons i is ih =>
    rw [forwardSlots] at h
    cases hslot : forwardSlot b pool fwd st i with
    | none => simp [hslot] at h
    | some r =>
      obtain ⟨visit, st₁⟩ := r
      cases hrest : forwardSlots b pool fwd is st₁ with
      | none => simp [hslot, hrest] at h
      | some r =>
        obtain ⟨rest, st₂⟩ := r
        simp only [hslot, hrest, Option.some.injEq, Prod.mk.injEq] at h
        obtain ⟨rfl, rfl⟩ := h
        obtain ⟨hmade, hin, hall⟩ := ih hrest
        cases visit with
        | none =>
          have hinactive : ¬(fwd i).Active := fun hactive => by
            rw [forwardSlot, if_pos hactive] at hslot
            grind
          rw [forwardSlot_inactive b pool hinactive] at hslot
          cases hslot
          refine ⟨hmade, ?_, hall⟩
          rw [List.filter_cons_of_neg (by simpa using hinactive), ← hin]
          rfl
        | some v =>
          obtain ⟨hv, hvmade, hacc⟩ := forwardSlot_visit hslot
          refine ⟨.cons hvmade hmade, ?_, List.forall_mem_cons.2 ⟨hacc, hall⟩⟩
          rw [List.filter_cons_of_pos (by simpa [← hv] using hacc.active), ← hin, ← hv]
          rfl

/-- A sweep comes to its end when the functions are there. -/
theorem forwardSlots_isSome (b : Bursts σ μ) (pool : μ → π) {fwd : Slots Port} (hfwd : Callable fwd)
    (is : List (Fin rteMaxEthports)) (st : σ × (Nat → Option μ)) :
    ∃ visits st', forwardSlots b pool fwd is st = some (visits, st') := by
  induction is generalizing st with
  | nil => exact ⟨[], st, rfl⟩
  | cons i is ih =>
    by_cases h : (fwd i).Active
    · obtain ⟨v, st₁, h1⟩ := forwardSlot_isSome b pool hfwd h st
      obtain ⟨visits, st₂, h2⟩ := ih st₁
      exact ⟨v :: visits, st₂, by simp [forwardSlots, h1, h2]⟩
    · obtain ⟨visits, st₂, h2⟩ := ih st
      exact ⟨visits, st₂, by simp [forwardSlots, forwardSlot_inactive b pool h, h2]⟩

private theorem sweeps_visits (b : Bursts σ μ) (pool : μ → π) {fwds : List (Slots Port)}
    (hfwds : ∀ fwd ∈ fwds, Callable fwd) (st : σ × (Nat → Option μ)) :
    ∃ runs st', sweeps b pool fwds st = some (runs, st') ∧ MadeBy b runs.flatten st.1 st'.1 ∧
      List.Forall₂ (fun fwd visits =>
        visits.map Visit.inPort = (List.finRange rteMaxEthports).filter (fun i => (fwd i).Active) ∧
        ∀ v ∈ visits, v.Accounted pool fwd) fwds runs := by
  induction fwds generalizing st with
  | nil => exact ⟨[], st, rfl, .nil _, List.Forall₂.nil⟩
  | cons fwd fwds ih =>
    obtain ⟨visits, st₁, h1⟩ :=
      forwardSlots_isSome b pool (hfwds fwd (by simp)) (List.finRange rteMaxEthports) st
    obtain ⟨hmade, hsweep⟩ := forwardSlots_visits h1
    obtain ⟨runs, st₂, h2, hmade', hrest⟩ := ih (fun f hf => hfwds f (by simp [hf])) st₁
    refine ⟨visits :: runs, st₂, ?_, ?_, List.Forall₂.cons hsweep hrest⟩
    · rw [sweeps, forward, h1]
      simp [h2]
    · rw [List.flatten_cons]
      exact hmade.append hmade'

/-! ### Accounting -/

variable [DecidableEq μ]

private theorem Visit.Accounted.count {v : Visit μ π} {pool : μ → π} {fwd : Slots Port} (h : v.Accounted pool fwd)
    (hnodup : v.received.Nodup) (m : μ) :
    v.accepted.count m + (v.put.map Prod.snd).count m = if m ∈ v.received then 1 else 0 := by
  rw [← List.count_append, h.split]
  split
  · exact List.count_eq_one_of_mem hnodup ‹_›
  · exact List.count_eq_zero_of_not_mem ‹_›

/-- What input `p` delivered, over all sweeps. -/
def receivedFrom (p : Fin rteMaxEthports) (runs : List (List (Visit μ π))) : List μ :=
  (runs.flatten.filter (fun v => v.inPort = p)).flatMap Visit.received

/-- What output `q` accepted of what input `p` delivered, over all sweeps. -/
def acceptedFrom (p : Fin rteMaxEthports) (q : Int) (runs : List (List (Visit μ π))) : List μ :=
  (runs.flatten.filter (fun v => v.inPort = p ∧ v.outPort = q)).flatMap Visit.accepted

omit [DecidableEq μ] in
private theorem acceptedFrom_sublist {runs : List (List (Visit μ π))}
    (h : ∀ visits ∈ runs, ∀ v ∈ visits, v.accepted.Sublist v.received) (p : Fin rteMaxEthports) (q : Int) :
    (acceptedFrom p q runs).Sublist (receivedFrom p runs) := by
  unfold acceptedFrom receivedFrom
  have hall : ∀ v ∈ runs.flatten, v.accepted.Sublist v.received := by
    intro v hv
    obtain ⟨visits, hvisits, hv⟩ := List.mem_flatten.1 hv
    exact h visits hvisits v hv
  generalize runs.flatten = vs at hall
  induction vs with
  | nil => simp
  | cons v vs ih =>
    have hrest := ih (fun w hw => hall w (by simp [hw]))
    have hv := hall v (by simp)
    by_cases hp : v.inPort = p
    · by_cases hq : v.outPort = q
      · simpa [hp, hq] using hv.append hrest
      · simpa [hp, hq] using hrest.trans (List.sublist_append_right _ _)
    · simpa [hp] using hrest

/-- In any number of sweeps every active slot is polled, each buffer it delivers is accepted by the patched port or put
into its own pool, exactly once and in the sweep that received it, and an output accepts the buffers of an input in the
order of arrival. -/
theorem sweeps_accounted {b : Bursts σ μ} (hb : b.Ok) (pool : μ → π) {fwds : List (Slots Port)}
    (hfwds : ∀ fwd ∈ fwds, Callable fwd) (st : σ × (Nat → Option μ)) :
    ∃ runs st', sweeps b pool fwds st = some (runs, st') ∧ MadeBy b runs.flatten st.1 st'.1 ∧
      List.Forall₂ (fun fwd visits =>
        visits.map Visit.inPort = (List.finRange rteMaxEthports).filter (fun i => (fwd i).Active) ∧
        ∀ v ∈ visits, v.outPort = (fwd v.inPort).outPortId ∧
          (∀ m, v.accepted.count m + (v.put.map Prod.snd).count m = if m ∈ v.received then 1 else 0) ∧
          ∀ x ∈ v.put, x.1 = pool x.2) fwds runs ∧
      ∀ p q, (acceptedFrom p q runs).Sublist (receivedFrom p runs) := by
  obtain ⟨runs, st', hrun, hmade, hall⟩ := sweeps_visits b pool hfwds st
  have hsub : ∀ visits ∈ runs, ∀ v ∈ visits, v.accepted.Sublist v.received := by
    clear hrun hmade hfwds
    induction hall with
    | nil => simp
    | cons hv _ ih =>
      refine List.forall_mem_cons.2 ⟨fun v hmem => ?_, ih⟩
      rw [← (hv.2 v hmem).split]
      exact List.sublist_append_left _ _
  have hnodup : ∀ v ∈ runs.flatten, v.received.Nodup := by
    intro v hv
    obtain ⟨s, hs⟩ := hmade.received hv
    rw [hs]
    exact hb.rx_nodup s v.inPort
  refine ⟨runs, st', hrun, hmade, ?_, acceptedFrom_sublist hsub⟩
  rw [List.forall₂_iff_get] at hall ⊢
  refine ⟨hall.1, fun i hi hi' => ⟨(hall.2 i hi hi').1, fun v hmem => ?_⟩⟩
  have hv := (hall.2 i hi hi').2 v hmem
  exact ⟨hv.outPort, hv.count (hnodup v (List.mem_flatten_of_mem (List.get_mem _ _) hmem)), hv.pool⟩

/-! ### Two ports -/

/-- Port 0 is patched to port 1, and port 1 to itself. -/
def twoPorts : Slots Port := fun i =>
  if (i : Nat) < 2 then ⟨i, .phy, some .rteEthRxBurst, some .rteEthTxBurst, 1⟩ else Port.init

/-- Each port delivers the buffers `10` and `11`, and each takes one buffer. -/
def twoBursts : Bursts Unit Nat where
  rx := fun _ _ => ([10, 11], ())
  tx := fun _ _ bufs => (min 1 bufs.length, ())

theorem sweeps_accounted_twoPorts :
    ∃ runs st', sweeps twoBursts (fun m => m % 2) [twoPorts, twoPorts] ((), fun _ => none) = some (runs, st') ∧
      MadeBy twoBursts runs.flatten () st'.1 ∧
      List.Forall₂ (fun fwd visits =>
        visits.map Visit.inPort = (List.finRange rteMaxEthports).filter (fun i => (fwd i).Active) ∧
        ∀ v ∈ visits, v.outPort = (fwd v.inPort).outPortId ∧
          (∀ m, v.accepted.count m + (v.put.map Prod.snd).count m = if m ∈ v.received then 1 else 0) ∧
          ∀ x ∈ v.put, x.1 = x.2 % 2) [twoPorts, twoPorts] runs ∧
      ∀ p q, (acceptedFrom p q runs).Sublist (receivedFrom p runs) := by
  refine sweeps_accounted ⟨fun _ _ => by simp [twoBursts, maxPktBurst], fun _ _ => by simp [twoBursts],
    fun _ _ bufs => ?_⟩ _ ?_ _
  · simp [twoBursts]
  · have h : Callable twoPorts := by unfold Callable; decide
    simpa using h

end

end SoftPatchPanel.Secondary

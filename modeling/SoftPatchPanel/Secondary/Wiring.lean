import SoftPatchPanel.Secondary.Forward
import SoftPatchPanel.Ring.Port
import SoftPatchPanel.Lib.Places
import Mathlib.Logic.Relation

/-!
# Secondaries connected by rings

A patch panel is a number of processes, each with a forwarding table, whose ports are made from rings or lead outside.  The
visit of a slot is two bursts, and between them the bursts of the other processes may come (`Net.step`); each process finds
the table as the last commands have left it.  A sweep of `forward` that nobody disturbs is a run of such bursts
(`PortsOf.sweep`).

Whatever the tables and the order of the bursts: no packet is lost or duplicated apart from those that are put back into
their pool (`net_conservation`), and when every ring along a path of slots is fed by the slot before it alone, the packets
stay in order from one end of the path to the other (`path_in_order`).
-/

namespace SoftPatchPanel.Secondary

open Lib EthDev SoftPatchPanel.Ring

/-- What a port is made from. -/
inductive Device (ρ : Type) where
  | ring (r : ρ)
  | outside
  deriving DecidableEq

/-- A port of a process. -/
abbrev Endpoint (π : Type) := π × Fin rteMaxEthports

/-- What a process has between the two bursts of a visit. -/
structure Hand (μ : Type) where
  slot : Fin rteMaxEthports
  outPort : Int
  burst : List μ

/-- A packet that was passed on: the slot that received it, the port that accepted it, and the packet. -/
structure Hop (π μ : Type) where
  slot : Endpoint π
  out : Endpoint π
  packet : μ

/-- The rings with the ports made from them, and the processes.  Besides these, what each slot has received, what was passed
on, and the packets that came from outside, went outside and were put back into their pools. -/
structure Net (π ρ μ : Type) where
  links : ρ → Link (Endpoint π) μ
  hands : π → Option (Hand μ)
  received : Endpoint π → List μ
  hops : List (Hop π μ)
  arrived : List μ
  departed : List μ
  freed : List μ

/-- The first or the second burst of a visit, with the table that the process finds.  `stale` is what the array holds before,
`arrivals` is what a port that leads outside delivers, and `taken` how many packets such a port takes at most. -/
inductive NetEvent (π μ : Type) where
  | receive (p : π) (i : Fin rteMaxEthports) (fwd : Slots Port) (stale : Nat → μ) (arrivals : List μ)
  | send (p : π) (fwd : Slots Port) (stale : Nat → μ) (taken : Nat)

section

variable {π ρ μ : Type} [DecidableEq π] [DecidableEq ρ]

/-- The array behind `bufs` for a burst. -/
def arrayOf (burst : List μ) (stale : Nat → μ) : Nat → μ := fun j => burst.getD j (stale j)

namespace Net

variable (dev : Endpoint π → Device ρ)

/-- No bursts yet. -/
def fresh (rings : ρ → RteRing μ) : Net π ρ μ :=
  ⟨fun r => .fresh (rings r), fun _ => none, fun _ => [], [], [], [], []⟩

/-- `rx_func` of a port: the packets and the rings. -/
def rxBurst (net : Net π ρ μ) (x : Endpoint π) (stale : Nat → μ) (arrivals : List μ) :
    List μ × (ρ → Link (Endpoint π) μ) :=
  match dev x with
  | .ring r =>
    let (_, _, bufs, nbRx) := ethRingRx (net.links r).ring ((net.links r).rxQueue x) stale (UInt16.ofNat maxPktBurst)
    ((List.range nbRx.toNat).map bufs,
      Function.update net.links r ((net.links r).step (.rx x stale (UInt16.ofNat maxPktBurst))))
  | .outside => (arrivals, net.links)

/-- `tx_func` of a port: the number of packets that it takes, and the rings. -/
def txBurst (net : Net π ρ μ) (x : Endpoint π) (stale : Nat → μ) (taken : Nat) (burst : List μ) :
    Nat × (ρ → Link (Endpoint π) μ) :=
  match dev x with
  | .ring r =>
    let bufs := arrayOf burst stale
    let nbRx := UInt16.ofNat burst.length
    ((ethRingTx (net.links r).ring ((net.links r).txQueue x) bufs nbRx).2.2.toNat,
      Function.update net.links r ((net.links r).step (.tx x bufs nbRx)))
  | .outside => (min taken burst.length, net.links)

def step (net : Net π ρ μ) : NetEvent π μ → Net π ρ μ
  | .receive p i fwd stale arrivals =>
    match net.hands p with
    | some _ => net
    | none =>
      if (fwd i).Active ∧ (fwd i).rxFunc ≠ none then
        let (burst, links) := net.rxBurst dev (p, i) stale arrivals
        { net with
          links
          hands := Function.update net.hands p (if burst = [] then none else some ⟨i, (fwd i).outPortId, burst⟩)
          received := Function.update net.received (p, i) (net.received (p, i) ++ burst)
          arrived := if dev (p, i) = .outside then net.arrived ++ burst else net.arrived }
      else net
  | .send p fwd stale taken =>
    match net.hands p with
    | none => net
    | some hand =>
      match slotOf hand.outPort with
      | none => net
      | some out =>
        if (fwd out).txFunc ≠ none then
          let (nbTx, links) := net.txBurst dev (p, out) stale taken hand.burst
          let accepted := hand.burst.take nbTx
          { net with
            links
            hands := Function.update net.hands p none
            hops := net.hops ++ accepted.map (Hop.mk (p, hand.slot) (p, out))
            departed := if dev (p, out) = .outside then net.departed ++ accepted else net.departed
            freed := net.freed ++ hand.burst.drop nbTx }
        else net

/-- A port that leads outside delivers no more packets than it is asked for. -/
def Allowed (_ : Net π ρ μ) : NetEvent π μ → Prop
  | .receive _ _ _ _ arrivals => arrivals.length ≤ maxPktBurst
  | .send _ _ _ _ => True

instance (net : Net π ρ μ) : (e : NetEvent π μ) → Decidable (net.Allowed e)
  | .receive _ _ _ _ arrivals => inferInstanceAs (Decidable (arrivals.length ≤ maxPktBurst))
  | .send _ _ _ _ => inferInstanceAs (Decidable True)

/-! ### The two bursts -/

variable {dev} {k : ρ → Nat} {net : Net π ρ μ} {x y : Endpoint π} {p : π}

private theorem rxBurst_spec (hbal : ∀ r, (net.links r).Balanced (k r)) {stale : Nat → μ} {arrivals burst : List μ}
    {links : ρ → Link (Endpoint π) μ} (hok : arrivals.length ≤ maxPktBurst)
    (hrx : net.rxBurst dev x stale arrivals = (burst, links)) :
    (∀ r, (links r).Balanced (k r)) ∧ burst.length ≤ maxPktBurst ∧ (∀ r, (links r).sent = (net.links r).sent) ∧
      ∀ r, (links r).received = if dev x = .ring r then (net.links r).received ++ burst.map (x, ·)
        else (net.links r).received := by
  unfold rxBurst at hrx
  cases hdev : dev x with
  | outside =>
    rw [hdev] at hrx
    cases hrx
    exact ⟨hbal, hok, fun _ => rfl, fun r => by simp⟩
  | ring r =>
    rw [hdev] at hrx
    cases hrx
    obtain ⟨m, hle, -, hnbRx, -⟩ :=
      ethRingRx_spec (hbal r).quiet ((net.links r).rxQueue x) stale (UInt16.ofNat maxPktBurst)
    have hother : ∀ s, s ≠ r → Function.update net.links r
        ((net.links r).step (.rx x stale (UInt16.ofNat maxPktBurst))) s = net.links s :=
      fun s hs => Function.update_of_ne hs ..
    refine ⟨fun s => ?_, ?_, fun s => ?_, fun s => ?_⟩
    · by_cases hs : s = r
      · subst hs
        rw [Function.update_self]
        exact (hbal s).burstRx x stale _
      · rw [hother s hs]
        exact hbal s
    · rw [List.length_map, List.length_range]
      exact (le_of_eq hnbRx).trans hle
    · by_cases hs : s = r
      · subst hs
        rw [Function.update_self]
        rfl
      · rw [hother s hs]
    · by_cases hs : s = r
      · subst hs
        rw [Function.update_self, if_pos rfl, List.map_map]
        rfl
      · rw [hother s hs, if_neg]
        intro heq
        cases heq
        exact hs rfl

omit [DecidableEq π] [DecidableEq ρ] in
private theorem map_arrayOf (burst : List μ) (stale : Nat → μ) {n : Nat} (hn : n ≤ burst.length) :
    (List.range n).map (arrayOf burst stale) = burst.take n := by
  apply List.ext_getElem
  · simp [hn]
  · intro j h1 h2
    rw [List.length_map, List.length_range] at h1
    simp [arrayOf, List.getElem?_eq_getElem (show j < burst.length by omega)]

private theorem txBurst_spec (hbal : ∀ r, (net.links r).Balanced (k r)) {stale : Nat → μ} {taken nbTx : Nat}
    {burst : List μ}
    {links : ρ → Link (Endpoint π) μ} (hlen : burst.length ≤ maxPktBurst)
    (htx : net.txBurst dev x stale taken burst = (nbTx, links)) :
    (∀ r, (links r).Balanced (k r)) ∧ nbTx ≤ burst.length ∧ (∀ r, (links r).received = (net.links r).received) ∧
      ∀ r, (links r).sent = if dev x = .ring r then (net.links r).sent ++ (burst.take nbTx).map (x, ·)
        else (net.links r).sent := by
  unfold txBurst at htx
  cases hdev : dev x with
  | outside =>
    rw [hdev] at htx
    cases htx
    exact ⟨hbal, Nat.min_le_right _ _, fun _ => rfl, fun r => by simp⟩
  | ring r =>
    rw [hdev] at htx
    cases htx
    have hmax : maxPktBurst = 32 := rfl
    have hn : (UInt16.ofNat burst.length).toNat = burst.length := by
      rw [UInt16.toNat_ofNat']
      exact Nat.mod_eq_of_lt (by omega)
    obtain ⟨m, hle, -, hnbTx, -⟩ :=
      ethRingTx_spec (hbal r).quiet ((net.links r).txQueue x) (arrayOf burst stale) (UInt16.ofNat burst.length)
    rw [hn] at hle
    have hother : ∀ s, s ≠ r → Function.update net.links r
        ((net.links r).step (.tx x (arrayOf burst stale) (UInt16.ofNat burst.length))) s = net.links s :=
      fun s hs => Function.update_of_ne hs ..
    refine ⟨fun s => ?_, by rw [hnbTx]; exact hle, fun s => ?_, fun s => ?_⟩
    · by_cases hs : s = r
      · subst hs
        rw [Function.update_self]
        exact (hbal s).burstTx x _ _
      · rw [hother s hs]
        exact hbal s
    · by_cases hs : s = r
      · subst hs
        rw [Function.update_self]
        rfl
      · rw [hother s hs]
    · by_cases hs : s = r
      · subst hs
        rw [Function.update_self, if_pos rfl, hnbTx, ← map_arrayOf burst stale hle, List.map_map]
        simp only [Link.step, hnbTx]
        rfl
      · rw [hother s hs, if_neg]
        intro heq
        cases heq
        exact hs rfl

/-! ### The invariant -/

/-- The packets that a process has received from slot `x` and not passed on yet. -/
def inHand (net : Net π ρ μ) (x : Endpoint π) : List μ :=
  match net.hands x.1 with
  | some hand => if hand.slot = x.2 then hand.burst else []
  | none => []

variable (dev) in
structure Inv (k : ρ → Nat) (net : Net π ρ μ) : Prop where
  balanced : ∀ r, (net.links r).Balanced (k r)
  hand : ∀ p, ∀ hand ∈ net.hands p, hand.burst.length ≤ maxPktBurst
  sent : ∀ r, (net.links r).sent.map Prod.snd = (net.hops.filter (fun e => dev e.out = .ring r)).map Hop.packet
  received : ∀ x r, dev x = .ring r →
    net.received x = ((net.links r).received.filter (fun e => e.1 = x)).map Prod.snd
  order : ∀ x, ((net.hops.filter (fun e => e.slot = x)).map Hop.packet ++ net.inHand x).Sublist (net.received x)

omit [DecidableEq ρ] in
private theorem inHand_receive {net' : Net π ρ μ} {i : Fin rteMaxEthports} {outPort : Int} {burst : List μ}
    (hnone : net.hands p = none)
    (hhands : net'.hands = Function.update net.hands p (if burst = [] then none else some ⟨i, outPort, burst⟩))
    (x : Endpoint π) : net'.inHand x = net.inHand x ++ if x = (p, i) then burst else [] := by
  obtain ⟨q, j⟩ := x
  by_cases hq : q = p
  · subst hq
    simp only [inHand, hhands, hnone, Function.update_self, Prod.mk.injEq, true_and, List.nil_append]
    by_cases hj : j = i
    · subst hj
      by_cases hempty : burst = []
      · simp [hempty]
      · simp [hempty]
    · by_cases hempty : burst = []
      · simp [hempty]
      · simp [hempty, hj, Ne.symm hj]
  · simp [inHand, hhands, hq]

omit [DecidableEq ρ] in
/-- Of a burst of `x`, the part that belongs to `y`. -/
private theorem map_filter_burst (x y : Endpoint π) (burst : List μ) :
    ((burst.map (x, ·)).filter (fun e => e.1 = y)).map Prod.snd = if y = x then burst else [] := by
  by_cases hxy : y = x
  · subst hxy
    rw [List.filter_eq_self.2 (by simp), List.map_map]
    simp [Function.comp_def]
  · rw [if_neg hxy, List.filter_eq_nil_iff.2, List.map_nil]
    intro e he
    obtain ⟨m, -, rfl⟩ := List.mem_map.1 he
    simpa using Ne.symm hxy

private theorem Inv.receive (h : Inv dev k net) {i : Fin rteMaxEthports} {outPort : Int} {burst : List μ}
    {stale : Nat → μ}
    {arrivals : List μ} {links : ρ → Link (Endpoint π) μ} (hnone : net.hands p = none)
    (hok : arrivals.length ≤ maxPktBurst) (hrx : net.rxBurst dev (p, i) stale arrivals = (burst, links)) {arrived : List μ} :
    Inv dev k
      { net with
        links
        hands := Function.update net.hands p (if burst = [] then none else some ⟨i, outPort, burst⟩)
        received := Function.update net.received (p, i) (net.received (p, i) ++ burst)
        arrived } := by
  obtain ⟨hbal, hlen, hsent, hreceived⟩ := rxBurst_spec h.balanced hok hrx
  have hlog : ∀ x, Function.update net.received (p, i) (net.received (p, i) ++ burst) x =
      net.received x ++ if x = (p, i) then burst else [] := by
    intro x
    by_cases hx : x = (p, i)
    · subst hx
      simp
    · simp [hx]
  refine ⟨hbal, fun q hand hmem => ?_, fun r => ?_, fun x r hx => ?_, fun x => ?_⟩
  · by_cases hq : q = p
    · subst hq
      simp only [Function.update_self] at hmem
      split_ifs at hmem with hempty
      · cases hmem
      · cases hmem
        exact hlen
    · simp only [Function.update_of_ne hq] at hmem
      exact h.hand q hand hmem
  · simp only [hsent]
    exact h.sent r
  · simp only [hreceived, hlog]
    rw [h.received x r hx]
    by_cases hdev : dev (p, i) = .ring r
    · rw [if_pos hdev, List.filter_append, List.map_append, map_filter_burst]
    · have hxi : x ≠ (p, i) := fun heq => hdev (heq ▸ hx)
      rw [if_neg hdev, if_neg hxi, List.append_nil]
  · simp only [hlog]
    rw [inHand_receive hnone rfl, ← List.append_assoc]
    exact (h.order x).append (List.Sublist.refl _)

omit [DecidableEq ρ] in
/-- Of the packets passed on from `x`, the part that was received from `y`. -/
private theorem map_filter_hops (x out y : Endpoint π) (burst : List μ) :
    ((burst.map (Hop.mk x out)).filter (fun e => e.slot = y)).map Hop.packet = if y = x then burst else [] := by
  have hmap := map_filter_burst x y burst
  rw [List.filter_map, List.map_map] at hmap ⊢
  exact hmap

private theorem Inv.send (h : Inv dev k net) {hand : Hand μ} {out : Fin rteMaxEthports} {stale : Nat → μ}
    {taken nbTx : Nat}
    {links : ρ → Link (Endpoint π) μ} (hhand : net.hands p = some hand)
    (htx : net.txBurst dev (p, out) stale taken hand.burst = (nbTx, links)) {departed freed : List μ} :
    Inv dev k
      { net with
        links
        hands := Function.update net.hands p none
        hops := net.hops ++ (hand.burst.take nbTx).map (Hop.mk (p, hand.slot) (p, out))
        departed
        freed } := by
  obtain ⟨hbal, hle, hreceived, hsent⟩ := txBurst_spec h.balanced (h.hand p hand hhand) htx
  refine ⟨hbal, fun q hand' hmem => ?_, fun r => ?_, fun x r hx => ?_, fun x => ?_⟩
  · by_cases hq : q = p
    · subst hq
      simp at hmem
    · simp only [Function.update_of_ne hq] at hmem
      exact h.hand q hand' hmem
  · simp only [hsent]
    rw [List.filter_append, List.map_append, ← h.sent r, List.filter_map]
    by_cases hdev : dev (p, out) = .ring r
    · rw [if_pos hdev, List.map_append, List.map_map, List.filter_eq_self.2 (by simp [hdev]), List.map_map]
      rfl
    · rw [if_neg hdev, List.filter_eq_nil_iff.2 (by simp [hdev])]
      simp
  · simp only [hreceived]
    exact h.received x r hx
  · have hold := h.order x
    simp only [List.filter_append, List.map_append, map_filter_hops]
    by_cases hx : x = (p, hand.slot)
    · subst hx
      have hmine : net.inHand (p, hand.slot) = hand.burst := by simp [inHand, hhand]
      rw [hmine] at hold
      simp only [inHand, Function.update_self, List.append_nil, ↓reduceIte]
      exact (List.Sublist.append_left (List.take_sublist _ _) _).trans hold
    · rw [if_neg hx, List.append_nil]
      refine List.Sublist.trans (List.Sublist.append_left ?_ _) hold
      by_cases hp : x.1 = p
      · simp [inHand, hp]
      · simp [inHand, hp]

/-- The first half of a visit. -/
private theorem step_receive (fwd : Slots Port) {i : Fin rteMaxEthports} {stale : Nat → μ} {arrivals burst : List μ}
    {links : ρ → Link (Endpoint π) μ} (hnone : net.hands p = none) (hcond : (fwd i).Active ∧ (fwd i).rxFunc ≠ none)
    (hrx : net.rxBurst dev (p, i) stale arrivals = (burst, links)) :
    net.step dev (.receive p i fwd stale arrivals) =
      { net with
        links
        hands := Function.update net.hands p (if burst = [] then none else some ⟨i, (fwd i).outPortId, burst⟩)
        received := Function.update net.received (p, i) (net.received (p, i) ++ burst)
        arrived := if dev (p, i) = .outside then net.arrived ++ burst else net.arrived } := by
  simp only [Net.step, hnone, hrx]
  rw [if_pos hcond]

/-- The second half. -/
private theorem step_send (fwd : Slots Port) {stale : Nat → μ} {taken nbTx : Nat} {hand : Hand μ}
    {out : Fin rteMaxEthports} {links : ρ → Link (Endpoint π) μ} (hhand : net.hands p = some hand)
    (hout : slotOf hand.outPort = some out) (hcond : (fwd out).txFunc ≠ none)
    (htx : net.txBurst dev (p, out) stale taken hand.burst = (nbTx, links)) :
    net.step dev (.send p fwd stale taken) =
      { net with
        links
        hands := Function.update net.hands p none
        hops := net.hops ++ (hand.burst.take nbTx).map (Hop.mk (p, hand.slot) (p, out))
        departed := if dev (p, out) = .outside then net.departed ++ hand.burst.take nbTx else net.departed
        freed := net.freed ++ hand.burst.drop nbTx } := by
  simp only [Net.step, hhand, hout, htx]
  rw [if_pos hcond]

variable (dev net) in
/-- What a burst does: nothing, when the process is not at this point of its loop; or the first or the second half of a
visit. -/
private theorem step_cases (e : NetEvent π μ) :
    net.step dev e = net ∨
    (∃ p i fwd stale arrivals burst links, e = .receive p i fwd stale arrivals ∧ net.hands p = none ∧
      net.rxBurst dev (p, i) stale arrivals = (burst, links) ∧
      net.step dev e =
        { net with
          links
          hands := Function.update net.hands p (if burst = [] then none else some ⟨i, (fwd i).outPortId, burst⟩)
          received := Function.update net.received (p, i) (net.received (p, i) ++ burst)
          arrived := if dev (p, i) = .outside then net.arrived ++ burst else net.arrived }) ∨
    ∃ p fwd stale taken hand out nbTx links, e = .send p fwd stale taken ∧ net.hands p = some hand ∧
      slotOf hand.outPort = some out ∧ net.txBurst dev (p, out) stale taken hand.burst = (nbTx, links) ∧
      net.step dev e =
        { net with
          links
          hands := Function.update net.hands p none
          hops := net.hops ++ (hand.burst.take nbTx).map (Hop.mk (p, hand.slot) (p, out))
          departed := if dev (p, out) = .outside then net.departed ++ hand.burst.take nbTx else net.departed
          freed := net.freed ++ hand.burst.drop nbTx } := by
  cases e with
  | receive p i fwd stale arrivals =>
    cases hnone : net.hands p with
    | some hand => exact .inl (by simp only [Net.step, hnone])
    | none =>
      by_cases hcond : (fwd i).Active ∧ (fwd i).rxFunc ≠ none
      · obtain ⟨burst, links, hrx⟩ : ∃ burst links, net.rxBurst dev (p, i) stale arrivals = (burst, links) :=
          ⟨_, _, rfl⟩
        exact .inr (.inl ⟨p, i, fwd, stale, arrivals, burst, links, rfl, hnone, hrx, step_receive fwd hnone hcond hrx⟩)
      · refine .inl ?_
        simp only [Net.step, hnone]
        rw [if_neg hcond]
  | send p fwd stale taken =>
    cases hhand : net.hands p with
    | none => exact .inl (by simp only [Net.step, hhand])
    | some hand =>
      cases hout : slotOf hand.outPort with
      | none => exact .inl (by simp only [Net.step, hhand, hout])
      | some out =>
        by_cases hcond : (fwd out).txFunc ≠ none
        · obtain ⟨nbTx, links, htx⟩ : ∃ nbTx links,
              net.txBurst dev (p, out) stale taken hand.burst = (nbTx, links) := ⟨_, _, rfl⟩
          exact .inr (.inr ⟨p, fwd, stale, taken, hand, out, nbTx, links, rfl, hhand, hout, htx,
            step_send fwd hhand hout hcond htx⟩)
        · refine .inl ?_
          simp only [Net.step, hhand, hout]
          rw [if_neg hcond]

private theorem Inv.step (h : Inv dev k net) {e : NetEvent π μ} (hok : net.Allowed e) : Inv dev k (net.step dev e) := by
  rcases step_cases dev net e with hstep | ⟨p, i, fwd, stale, arrivals, burst, links, rfl, hnone, hrx, hstep⟩ |
    ⟨p, fwd, stale, taken, hand, out, nbTx, links, rfl, hhand, -, htx, hstep⟩
  · rwa [hstep]
  · rw [hstep]
    exact h.receive hnone hok hrx
  · rw [hstep]
    exact h.send hhand htx

/-! ### Order along a path -/

variable (dev) in
/-- In this event, no slot but `x` is about to send into ring `r`. -/
def FedBy (x : Endpoint π) (r : ρ) : NetEvent π μ → Prop
  | .receive p i fwd _ _ => ∀ out, slotOf (fwd i).outPortId = some out → dev (p, out) = .ring r → (p, i) = x
  | .send _ _ _ _ => True

instance (x : Endpoint π) (r : ρ) : (e : NetEvent π μ) → Decidable (FedBy dev x r e)
  | .receive _ _ _ _ _ => inferInstanceAs (Decidable (∀ _, _))
  | .send _ _ _ _ => inferInstanceAs (Decidable True)

variable (dev) in
/-- Only packets of slot `x` have been sent into ring `r`, or are about to be. -/
structure Fed (x : Endpoint π) (r : ρ) (net : Net π ρ μ) : Prop where
  hands : ∀ p, ∀ hand ∈ net.hands p, ∀ out, slotOf hand.outPort = some out → dev (p, out) = .ring r →
    (p, hand.slot) = x
  hops : ∀ e ∈ net.hops, dev e.out = .ring r → e.slot = x

private theorem Fed.step {r : ρ} (h : Fed dev x r net) {e : NetEvent π μ} (hfed : FedBy dev x r e) :
    Fed dev x r (net.step dev e) := by
  rcases step_cases dev net e with hstep | ⟨p, i, fwd, stale, arrivals, burst, links, rfl, hnone, hrx, hstep⟩ |
    ⟨p, fwd, stale, taken, hand, out, nbTx, links, rfl, hhand, hout, htx, hstep⟩
  · rwa [hstep]
  · rw [hstep]
    refine ⟨fun q hand hmem => ?_, h.hops⟩
    by_cases hq : q = p
    · subst hq
      simp only [Function.update_self] at hmem
      split_ifs at hmem
      · cases hmem
      · cases hmem
        exact hfed
    · simp only [Function.update_of_ne hq] at hmem
      exact h.hands q hand hmem
  · rw [hstep]
    refine ⟨fun q hand' hmem => ?_, fun e he hdev => ?_⟩
    · by_cases hq : q = p
      · subst hq
        simp at hmem
      · simp only [Function.update_of_ne hq] at hmem
        exact h.hands q hand' hmem
    · rcases List.mem_append.1 he with he | he
      · exact h.hops e he hdev
      · obtain ⟨m, -, rfl⟩ := List.mem_map.1 he
        exact h.hands p hand hhand out hout hdev

/-- What comes out of a ring that is fed by `x` alone has come in through `x`, in this order. -/
private theorem Inv.received_sublist {r : ρ} (h : Inv dev k net) (hfed : Fed dev x r net) (hy : dev y = .ring r) :
    (net.received y).Sublist (net.received x) := by
  have hring : (net.received y).Sublist ((net.links r).sent.map Prod.snd) := by
    rw [h.received y r hy, ← (h.balanced r).order]
    exact (List.filter_sublist.map _).trans (List.sublist_append_left _ _)
  have hhops : ((net.links r).sent.map Prod.snd).Sublist ((net.hops.filter (fun e => e.slot = x)).map Hop.packet) := by
    rw [h.sent r]
    have hfilter : net.hops.filter (fun e => dev e.out = .ring r) =
        (net.hops.filter (fun e => e.slot = x)).filter (fun e => dev e.out = .ring r) := by
      rw [List.filter_filter]
      refine List.filter_congr fun e he => ?_
      by_cases hdev : dev e.out = .ring r
      · simp [hdev, hfed.hops e he hdev]
      · simp [hdev]
    rw [hfilter]
    exact List.filter_sublist.map _
  exact hring.trans (hhops.trans ((List.sublist_append_left _ _).trans (h.order x)))

omit [DecidableEq π] [DecidableEq ρ] in
private theorem fed_fresh (x : Endpoint π) (r : ρ) (rings : ρ → RteRing μ) : Fed dev x r (fresh rings) := by
  refine ⟨fun p hand hmem => ?_, fun e he => ?_⟩
  · cases hmem
  · cases he

/-- Rings that were made for a given number of packets. -/
structure Made (count : ρ → UInt32) (rings : ρ → RteRing μ) : Prop where
  countOk : ∀ r, CountOk (count r)
  positive : ∀ r, count r ≠ 0
  init : ∀ r, ∃ mem flags, rings r = rteRingInit mem (count r) flags

variable (dev) in
private theorem Made.inv {count : ρ → UInt32} {rings : ρ → RteRing μ} (h : Made count rings) :
    ∃ k, (∀ r, (count r).toNat = 2 ^ k r) ∧ Inv dev k (fresh rings : Net π ρ μ) := by
  have hring : ∀ r, ∃ k, (count r).toNat = 2 ^ k ∧ (Link.fresh (rings r) : Link (Endpoint π) μ).Balanced k := by
    intro r
    obtain ⟨mem, flags, hinit⟩ := h.init r
    rw [hinit]
    exact Link.balanced_fresh mem flags (h.countOk r) (h.positive r)
  choose k hk hbal using hring
  refine ⟨k, hk, hbal, fun p hand hmem => ?_, fun r => rfl, fun x r hx => rfl, fun x => List.Sublist.refl _⟩
  cases hmem

/-- A patched path keeps packets in order: whatever the forwarding tables of the processes and the order of their bursts,
when along a path of slots each one receives from a ring that is fed by the slot before it alone, then what the last slot
receives, and what it passes on, is what the first slot has received, in the same order and with nothing added. -/
theorem path_in_order {count : ρ → UInt32} {rings : ρ → RteRing μ} (hmade : Made count rings) {es : List (NetEvent π μ)}
    (hok : Along (step dev) Allowed (fresh rings) es)
    (hpath : Relation.ReflTransGen (fun x y => ∃ r, dev y = .ring r ∧ ∀ e ∈ es, FedBy dev x r e) x y) :
    ((es.foldl (step dev) (fresh rings)).received y).Sublist ((es.foldl (step dev) (fresh rings)).received x) ∧
    (((es.foldl (step dev) (fresh rings)).hops.filter (fun e => e.slot = y)).map Hop.packet).Sublist
      ((es.foldl (step dev) (fresh rings)).received x) := by
  obtain ⟨k, -, hfresh⟩ := hmade.inv dev
  have hinv := Along.invariant (I := Inv dev k) (fun h => h.step) hfresh hok es.length
  rw [List.take_length] at hinv
  have hfirst : ((es.foldl (step dev) (fresh rings)).received y).Sublist
      ((es.foldl (step dev) (fresh rings)).received x) := by
    induction hpath with
    | refl => exact List.Sublist.refl _
    | tail _ hlast ih =>
      obtain ⟨r, hy, hfed⟩ := hlast
      have hrun := Along.invariant (I := fun net => Fed dev _ r net) (fun h hallows => h.step hallows)
        (fed_fresh _ r rings) (Along.of_forall (fun e he _ => hfed e he) (fresh rings)) es.length
      rw [List.take_length] at hrun
      exact (hinv.received_sublist hrun hy).trans ih
  exact ⟨hfirst, ((List.sublist_append_left _ _).trans (hinv.order y)).trans hfirst⟩

/-! ### The loop of a process -/

variable (dev) in
/-- The burst functions `b` are those of the ports of `p`; `links` are the rings in a state of `b`. -/
structure PortsOf {σ : Type} (p : π) (b : Bursts σ μ) (links : σ → ρ → Link (Endpoint π) μ) : Prop where
  rx : ∀ s (net : Net π ρ μ), net.links = links s → ∀ i, ∃ stale arrivals, arrivals.length ≤ maxPktBurst ∧
    net.rxBurst dev (p, i) stale arrivals = ((b.rx s i).1, links (b.rx s i).2)
  tx : ∀ s (net : Net π ρ μ), net.links = links s → ∀ out burst, ∃ stale taken,
    net.txBurst dev (p, out) stale taken burst = ((b.tx s out burst).1, links (b.tx s out burst).2)

section

variable {σ κ : Type} {b : Bursts σ μ} {links : σ → ρ → Link (Endpoint π) μ} {pool : μ → κ} {fwd : Slots Port}

/-- The packets that a visit passes on. -/
def hopsOf (p : π) (v : Visit μ κ) : List (Hop π μ) :=
  match slotOf v.outPort with
  | some out => v.accepted.map (Hop.mk (p, v.inPort) (p, out))
  | none => []

variable (dev) in
/-- What the visits of process `p` received from outside. -/
def fromOutside (p : π) (visits : List (Visit μ κ)) : List μ :=
  (visits.filter (fun v => dev (p, v.inPort) = .outside)).flatMap Visit.received

variable (dev) in
/-- What the visits of process `p` passed on to the outside. -/
def toOutside (p : π) (visits : List (Visit μ κ)) : List μ :=
  ((visits.flatMap (hopsOf p)).filter (fun e => dev e.out = .outside)).map Hop.packet

variable (dev) in
/-- The records are continued by those of the visits. -/
structure Swept (p : π) (visits : List (Visit μ κ)) (net net' : Net π ρ μ) : Prop where
  hands : net'.hands = net.hands
  received : ∀ x, net'.received x =
    net.received x ++ (visits.filter (fun v => (p, v.inPort) = x)).flatMap Visit.received
  hops : net'.hops = net.hops ++ visits.flatMap (hopsOf p)
  arrived : net'.arrived = net.arrived ++ fromOutside dev p visits
  departed : net'.departed = net.departed ++ toOutside dev p visits
  freed : net'.freed = net.freed ++ (visits.flatMap Visit.put).map Prod.snd

private theorem Swept.cons {v : Visit μ κ} {visits : List (Visit μ κ)} {net₁ net₂ : Net π ρ μ}
    (hv : Swept dev p [v] net net₁) (h : Swept dev p visits net₁ net₂) : Swept dev p (v :: visits) net net₂ := by
  rw [← List.singleton_append]
  refine ⟨h.hands.trans hv.hands, fun x => ?_, ?_, ?_, ?_, ?_⟩
  · rw [h.received, hv.received, List.filter_append, List.flatMap_append, List.append_assoc]
  · rw [h.hops, hv.hops, List.flatMap_append, List.append_assoc]
  · rw [h.arrived, hv.arrived, fromOutside, fromOutside, fromOutside, List.filter_append, List.flatMap_append,
      List.append_assoc]
  · rw [h.departed, hv.departed, toOutside, toOutside, toOutside, List.flatMap_append, List.filter_append,
      List.map_append, List.append_assoc]
  · rw [h.freed, hv.freed, List.flatMap_append, List.map_append, List.append_assoc]

omit [DecidableEq π] in
private theorem flatMap_filter_singleton (q : Visit μ κ → Prop) [DecidablePred q] (v : Visit μ κ) :
    ([v].filter (fun v => q v)).flatMap Visit.received = if q v then v.received else [] := by
  by_cases h : q v <;> simp [h]

omit [DecidableEq π] in
private theorem append_toOutside {v : Visit μ κ} {out : Fin rteMaxEthports} (hout : slotOf v.outPort = some out)
    (departed : List μ) :
    (if dev (p, out) = .outside then departed ++ v.accepted else departed) = departed ++ toOutside dev p [v] := by
  rw [toOutside, List.flatMap_singleton, hopsOf, hout, List.filter_map, List.map_map]
  by_cases h : dev (p, out) = .outside
  · simp [h, Function.comp_def]
  · simp [h, Function.comp_def]

omit [DecidableEq ρ] in
private theorem update_received (v : Visit μ κ) (x : Endpoint π) :
    Function.update net.received (p, v.inPort) (net.received (p, v.inPort) ++ v.received) x =
      net.received x ++ ([v].filter (fun v => (p, v.inPort) = x)).flatMap Visit.received := by
  rw [flatMap_filter_singleton]
  by_cases hx : (p, v.inPort) = x
  · rw [← hx, Function.update_self, if_pos rfl]
  · rw [Function.update_of_ne (Ne.symm hx), if_neg hx, List.append_nil]

omit [DecidableEq π] in
private theorem append_fromOutside (arrived : List μ) (v : Visit μ κ) :
    (if dev (p, v.inPort) = .outside then arrived ++ v.received else arrived) = arrived ++ fromOutside dev p [v] := by
  rw [fromOutside, flatMap_filter_singleton]
  split_ifs
  · rfl
  · rw [List.append_nil]

/-- A visit that receives nothing is its first burst. -/
private theorem PortsOf.visit_idle (hb : PortsOf dev p b links) {v : Visit μ κ} (hacc : v.Accounted pool fwd) {s : σ}
    (hrx : v.received = (b.rx s v.inPort).1) (hnil : v.received = []) (hsent : v.sent = none)
    (hnone : net.hands p = none) (hlinks : net.links = links s) :
    ∃ es, Along (step dev) Allowed net es ∧ (es.foldl (step dev) net).links = links (b.rx s v.inPort).2 ∧
      Swept dev p [v] net (es.foldl (step dev) net) := by
  obtain ⟨stale, arrivals, hok, hburst⟩ := hb.rx s net hlinks v.inPort
  have hreceive := step_receive fwd hnone ⟨hacc.active, hacc.rxFunc⟩ hburst
  rw [← hrx] at hreceive
  have haccepted : v.accepted = [] := by simp [Visit.accepted, hsent]
  have hput : v.put.map Prod.snd = [] := by
    rw [← hnil, ← hacc.split, haccepted, List.nil_append]
  have hhops : hopsOf p v = [] := by
    unfold hopsOf
    split <;> simp [haccepted]
  refine ⟨[.receive p v.inPort fwd stale arrivals], ⟨hok, trivial⟩, ?_⟩
  rw [List.foldl_cons, List.foldl_nil, hreceive]
  refine ⟨rfl, ?_, update_received v, ?_, append_fromOutside _ v, ?_, ?_⟩
  · simp only [hnil, ↓reduceIte]
    rw [← hnone, Function.update_eq_self]
  · simp [hhops]
  · simp [toOutside, hhops]
  · simpa using hput

/-- A visit that receives something is its two bursts, one after the other. -/
private theorem PortsOf.visit_moved (hb : PortsOf dev p b links) {v : Visit μ κ} (hacc : v.Accounted pool fwd) {s : σ}
    {out : Fin rteMaxEthports} (hout : (out : Int) = v.outPort) (hrx : v.received = (b.rx s v.inPort).1)
    (hne : v.received ≠ []) (hsent : v.sent = some (v.received, (b.tx (b.rx s v.inPort).2 out v.received).1))
    (hnone : net.hands p = none) (hlinks : net.links = links s) :
    ∃ es, Along (step dev) Allowed net es ∧
      (es.foldl (step dev) net).links = links (b.tx (b.rx s v.inPort).2 out v.received).2 ∧
      Swept dev p [v] net (es.foldl (step dev) net) := by
  obtain ⟨stale, arrivals, hok, hburst⟩ := hb.rx s net hlinks v.inPort
  have hreceive := step_receive fwd hnone ⟨hacc.active, hacc.rxFunc⟩ hburst
  rw [← hrx, if_neg hne] at hreceive
  have hslot : slotOf v.outPort = some out := by rw [← hout, slotOf_eq]
  have htxFunc : (fwd out).txFunc ≠ none := by
    obtain ⟨out', hout', hfunc⟩ := hacc.txFunc hne
    rw [hslot] at hout'
    cases hout'
    exact hfunc
  generalize hnet₁ : net.step dev (.receive p v.inPort fwd stale arrivals) = net₁ at hreceive
  have hhand : net₁.hands p = some ⟨v.inPort, (fwd v.inPort).outPortId, v.received⟩ := by
    rw [hreceive]
    exact Function.update_self ..
  obtain ⟨stale', taken, hburst'⟩ := hb.tx (b.rx s v.inPort).2 net₁ (by rw [hreceive]) out v.received
  have hsend := step_send fwd hhand (hacc.outPort ▸ hslot) htxFunc hburst'
  generalize (b.tx (b.rx s v.inPort).2 out v.received).1 = nbTx at hsend hsent
  have haccepted : v.accepted = v.received.take nbTx := by simp [Visit.accepted, hsent]
  have hput : v.put.map Prod.snd = v.received.drop nbTx := by
    have hsplit := hacc.split
    rw [haccepted] at hsplit
    exact List.append_cancel_left (hsplit.trans (List.take_append_drop nbTx v.received).symm)
  refine ⟨[.receive p v.inPort fwd stale arrivals, .send p fwd stale' taken], ⟨hok, trivial, trivial⟩, ?_⟩
  rw [List.foldl_cons, List.foldl_cons, List.foldl_nil, hnet₁, hsend, hreceive]
  refine ⟨rfl, ?_, update_received v, ?_, append_fromOutside _ v, ?_, ?_⟩
  · rw [Function.update_idem, ← hnone, Function.update_eq_self]
  · simp only [List.flatMap_singleton, hopsOf, hslot, haccepted]
  · change (if dev (p, out) = .outside then net.departed ++ v.received.take nbTx else net.departed) = _
    rw [← haccepted, append_toOutside hslot]
  · rw [List.flatMap_singleton, hput]

private theorem PortsOf.visit (hb : PortsOf dev p b links) {v : Visit μ κ} (hacc : v.Accounted pool fwd) {s s' : σ}
    (hmade : v.Made b s s') (hnone : net.hands p = none) (hlinks : net.links = links s) :
    ∃ es, Along (step dev) Allowed net es ∧ (es.foldl (step dev) net).links = links s' ∧
      Swept dev p [v] net (es.foldl (step dev) net) := by
  cases hmade with
  | idle hrx hnil hsent => exact hb.visit_idle hacc hrx hnil hsent hnone hlinks
  | moved out hout hrx hne hsent => exact hb.visit_moved hacc hout hrx hne hsent hnone hlinks

/-- A sweep that nobody disturbs is a run of bursts, with the rings and the records that the log of the sweep says. -/
theorem PortsOf.sweep (hb : PortsOf dev p b links) {st st' : σ × (Nat → Option μ)} {visits : List (Visit μ κ)}
    (h : forward b pool fwd st = some (visits, st')) (hnone : net.hands p = none) (hlinks : net.links = links st.1) :
    ∃ es, Along (step dev) Allowed net es ∧ (es.foldl (step dev) net).links = links st'.1 ∧
      Swept dev p visits net (es.foldl (step dev) net) := by
  obtain ⟨hmade, -, hall⟩ := forwardSlots_visits h
  clear h
  generalize st.1 = s at hmade hlinks
  generalize st'.1 = s' at hmade
  induction hmade generalizing net with
  | nil s => exact ⟨[], trivial, hlinks, rfl, by simp, by simp, by simp [fromOutside], by simp [toOutside], by simp⟩
  | cons hv _ ih =>
    rw [List.forall_mem_cons] at hall
    obtain ⟨es, hok, hlinks₁, hswept⟩ := hb.visit hall.1 hv hnone hlinks
    obtain ⟨es', hok', hlinks₂, hswept'⟩ := ih (by rw [hswept.hands, hnone]) hall.2 hlinks₁
    refine ⟨es ++ es', along_append.2 ⟨hok, hok'⟩, ?_, ?_⟩
    · rw [List.foldl_append, hlinks₂]
    · rw [List.foldl_append]
      exact hswept.cons hswept'

end

/-! ### No packet is lost -/

section

variable [Fintype π] [Fintype ρ]

/-- The packets that a process has between two bursts. -/
def handOf (net : Net π ρ μ) (p : π) : List μ :=
  match net.hands p with
  | some hand => hand.burst
  | none => []

/-- The packets of a record of one ring. -/
def bag (log : List (Endpoint π × μ)) : Multiset μ := (log.map Prod.snd : List μ)

/-- The books of all packets: those that came from outside or out of a ring are in a hand, or went outside, into a pool or
into a ring. -/
def Conserved (net : Net π ρ μ) : Prop :=
  (net.arrived : Multiset μ) + ∑ r, bag (net.links r).received =
    ∑ p, (net.handOf p : Multiset μ) + net.departed + net.freed + ∑ r, bag (net.links r).sent

omit [DecidableEq π] [Fintype π] in
/-- What is received from or sent into the ring of one port, among all rings. -/
private theorem sum_bag {log log' : ρ → List (Endpoint π × μ)} {burst : List μ}
    (h : ∀ r, log' r = if dev x = .ring r then log r ++ burst.map (x, ·) else log r) :
    ∑ r, bag (log' r) = ∑ r, bag (log r) + if dev x = .outside then 0 else (burst : Multiset μ) := by
  cases hdev : dev x with
  | outside =>
    have hsame : ∀ r, log' r = log r := fun r => by simp [h r, hdev]
    simp [hsame]
  | ring r =>
    have hother : ∀ s, s ≠ r → bag (log' s) = bag (log s) := by
      intro s hs
      rw [h s, hdev, if_neg]
      intro heq
      cases heq
      exact hs rfl
    have hself : bag (log' r) = bag (log r) + (burst : Multiset μ) := by
      rw [h r, hdev, if_pos rfl, bag, bag, List.map_append, List.map_map, Multiset.coe_add]
      simp [Function.comp_def]
    have hsum := sum_add_eq_sum_add (f := fun s => bag (log s)) (g := fun s => bag (log' s)) (Finset.mem_univ r) hother
    rw [hself] at hsum
    apply add_right_cancel (b := bag (log r))
    rw [hsum]
    simp only [reduceCtorEq, ↓reduceIte]
    abel

omit [Fintype ρ] [DecidableEq ρ] in
private theorem sum_handOf {net' : Net π ρ μ} {hand : Option (Hand μ)}
    (hhands : net'.hands = Function.update net.hands p hand) :
    ∑ q, (net'.handOf q : Multiset μ) + (net.handOf p : Multiset μ) =
      ∑ q, (net.handOf q : Multiset μ) + (net'.handOf p : Multiset μ) :=
  sum_add_eq_sum_add (f := fun q => (net.handOf q : Multiset μ)) (g := fun q => (net'.handOf q : Multiset μ))
    (Finset.mem_univ p) fun q hq => by simp only [handOf, hhands, Function.update_of_ne hq]

private theorem Conserved.receive {net' : Net π ρ μ} (h : net.Conserved) (hinv : Inv dev k net) {i : Fin rteMaxEthports}
    {outPort : Int} {stale : Nat → μ} {arrivals burst : List μ} {links : ρ → Link (Endpoint π) μ}
    (hok : arrivals.length ≤ maxPktBurst) (hnone : net.hands p = none)
    (hrx : net.rxBurst dev (p, i) stale arrivals = (burst, links))
    (hstep : net' =
      { net with
        links
        hands := Function.update net.hands p (if burst = [] then none else some ⟨i, outPort, burst⟩)
        received := Function.update net.received (p, i) (net.received (p, i) ++ burst)
        arrived := if dev (p, i) = .outside then net.arrived ++ burst else net.arrived }) : net'.Conserved := by
  obtain ⟨-, -, hsent, hreceived⟩ := rxBurst_spec hinv.balanced hok hrx
  have hbag : ∑ r, bag (net'.links r).received = ∑ r, bag (net.links r).received +
      if dev (p, i) = .outside then 0 else (burst : Multiset μ) := by
    rw [hstep]
    exact sum_bag hreceived
  have hhands := sum_handOf (show net'.hands = Function.update net.hands p _ by rw [hstep])
  have hold : net.handOf p = [] := by simp only [handOf, hnone]
  have hnew : net'.handOf p = burst := by
    simp only [handOf, hstep, Function.update_self]
    by_cases hempty : burst = []
    · simp [hempty]
    · simp [hempty]
  rw [hold, hnew, Multiset.coe_nil, add_zero] at hhands
  have harrived : (net'.arrived : Multiset μ) =
      net.arrived + if dev (p, i) = .outside then (burst : Multiset μ) else 0 := by
    rw [hstep]
    simp only
    split_ifs
    · rw [Multiset.coe_add]
    · rw [add_zero]
  have hlinks : ∑ r, bag (net'.links r).sent = ∑ r, bag (net.links r).sent := by
    rw [hstep]
    exact Finset.sum_congr rfl fun r _ => by rw [hsent r]
  have hdeparted : net'.departed = net.departed := by rw [hstep]
  have hfreed : net'.freed = net.freed := by rw [hstep]
  unfold Conserved at h ⊢
  rw [harrived, hbag, hhands, hlinks, hdeparted, hfreed]
  calc (net.arrived : Multiset μ) + (if dev (p, i) = .outside then (burst : Multiset μ) else 0) +
        (∑ r, bag (net.links r).received + if dev (p, i) = .outside then 0 else (burst : Multiset μ))
      = (net.arrived : Multiset μ) + ∑ r, bag (net.links r).received + burst := by
        split_ifs
        · abel
        · abel
    _ = _ := by
        rw [h]
        abel

private theorem Conserved.send {net' : Net π ρ μ} (h : net.Conserved) (hinv : Inv dev k net) {hand : Hand μ}
    {out : Fin rteMaxEthports} {stale : Nat → μ} {taken nbTx : Nat} {links : ρ → Link (Endpoint π) μ}
    (hhand : net.hands p = some hand) (htx : net.txBurst dev (p, out) stale taken hand.burst = (nbTx, links))
    (hstep : net' =
      { net with
        links
        hands := Function.update net.hands p none
        hops := net.hops ++ (hand.burst.take nbTx).map (Hop.mk (p, hand.slot) (p, out))
        departed := if dev (p, out) = .outside then net.departed ++ hand.burst.take nbTx else net.departed
        freed := net.freed ++ hand.burst.drop nbTx }) : net'.Conserved := by
  obtain ⟨-, -, hreceived, hsent⟩ := txBurst_spec hinv.balanced (hinv.hand p hand hhand) htx
  have hbag : ∑ r, bag (net'.links r).sent = ∑ r, bag (net.links r).sent +
      if dev (p, out) = .outside then 0 else (hand.burst.take nbTx : Multiset μ) := by
    rw [hstep]
    exact sum_bag hsent
  have hhands := sum_handOf (show net'.hands = Function.update net.hands p _ by rw [hstep])
  have hold : net.handOf p = hand.burst := by simp only [handOf, hhand]
  have hnew : net'.handOf p = [] := by simp only [handOf, hstep, Function.update_self]
  have hsplit : (hand.burst : Multiset μ) = hand.burst.take nbTx + (hand.burst.drop nbTx : Multiset μ) := by
    rw [Multiset.coe_add, List.take_append_drop]
  rw [hold, hnew, Multiset.coe_nil, add_zero, hsplit] at hhands
  have hdeparted : (net'.departed : Multiset μ) =
      net.departed + if dev (p, out) = .outside then (hand.burst.take nbTx : Multiset μ) else 0 := by
    rw [hstep]
    simp only
    split_ifs
    · rw [Multiset.coe_add]
    · rw [add_zero]
  have hlinks : ∑ r, bag (net'.links r).received = ∑ r, bag (net.links r).received := by
    rw [hstep]
    exact Finset.sum_congr rfl fun r _ => by rw [hreceived r]
  have harrived : net'.arrived = net.arrived := by rw [hstep]
  have hfreed : (net'.freed : Multiset μ) = net.freed + (hand.burst.drop nbTx : Multiset μ) := by
    rw [hstep, Multiset.coe_add]
  unfold Conserved at h ⊢
  rw [harrived, hlinks, h, hdeparted, hbag, hfreed, ← hhands]
  split_ifs
  · abel
  · abel

private theorem Conserved.step (h : net.Conserved) (hinv : Inv dev k net) {e : NetEvent π μ} (hok : net.Allowed e) :
    (net.step dev e).Conserved := by
  rcases step_cases dev net e with hstep | ⟨p, i, fwd, stale, arrivals, burst, links, rfl, hnone, hrx, hstep⟩ |
    ⟨p, fwd, stale, taken, hand, out, nbTx, links, rfl, hhand, -, htx, hstep⟩
  · rwa [hstep]
  · exact h.receive hinv hok hnone hrx hstep
  · exact h.send hinv hhand htx hstep

private theorem Conserved.books (h : net.Conserved) (hinv : Inv dev k net) :
    (net.arrived : Multiset μ) = ∑ r, ((net.links r).ring.contents : Multiset μ) + ∑ p, (net.handOf p : Multiset μ) +
      net.departed + net.freed := by
  have hring : ∀ r, bag (net.links r).sent = bag (net.links r).received + ((net.links r).ring.contents : Multiset μ) := by
    intro r
    rw [bag, ← (hinv.balanced r).order, ← Multiset.coe_add]
    rfl
  unfold Conserved at h
  simp only [hring, Finset.sum_add_distrib] at h
  apply add_right_cancel (b := ∑ r, bag (net.links r).received)
  rw [h]
  abel

/-- Whatever the forwarding tables of the processes and the order of their bursts, the packets that have come from outside
are those in the rings, between two bursts, gone outside again and put back into their pools.  In particular this is so
after a sweep of `forward` by a process in any of these states, with the packets that the sweep receives, passes on and
puts back. -/
theorem net_conservation {count : ρ → UInt32} {rings : ρ → RteRing μ} (hmade : Made count rings)
    {es : List (NetEvent π μ)} (hok : Along (step dev) Allowed (fresh rings) es) {net : Net π ρ μ}
    (hnet : net = es.foldl (step dev) (fresh rings)) :
    (net.arrived : Multiset μ) = ∑ r, ((net.links r).ring.contents : Multiset μ) + ∑ p, (net.handOf p : Multiset μ) +
      net.departed + net.freed ∧
    ∀ {σ κ : Type} {p : π} {b : Bursts σ μ} {links : σ → ρ → Link (Endpoint π) μ}, PortsOf dev p b links →
      ∀ (pool : μ → κ) (fwd : Slots Port) (st st' : σ × (Nat → Option μ)) (visits : List (Visit μ κ)),
      net.hands p = none → net.links = links st.1 → forward b pool fwd st = some (visits, st') →
      (net.arrived : Multiset μ) + fromOutside dev p visits =
        ∑ r, ((links st'.1 r).ring.contents : Multiset μ) + ∑ q, (net.handOf q : Multiset μ) +
        (net.departed + toOutside dev p visits) + (net.freed + (visits.flatMap Visit.put).map Prod.snd) := by
  obtain ⟨k, -, hfresh⟩ := hmade.inv dev
  have hbooks : ∀ es, Along (step dev) Allowed (fresh rings) es →
      Inv dev k (es.foldl (step dev) (fresh rings)) ∧ (es.foldl (step dev) (fresh rings)).Conserved := by
    intro es hok
    have hboth := Along.invariant (I := fun net => Inv dev k net ∧ net.Conserved)
      (fun h hallows => ⟨h.1.step hallows, h.2.step h.1 hallows⟩)
      ⟨hfresh, by simp [Conserved, fresh, Link.fresh, handOf, bag]⟩ hok es.length
    rwa [List.take_length] at hboth
  subst hnet
  refine ⟨(hbooks es hok).2.books (hbooks es hok).1, fun hb pool fwd st st' visits hnone hlinks h => ?_⟩
  obtain ⟨es', hok', hlinks', hswept⟩ := hb.sweep h hnone hlinks
  obtain ⟨hinv, hafter⟩ := hbooks (es ++ es') (along_append.2 ⟨hok, hok'⟩)
  rw [List.foldl_append] at hinv hafter
  have hhands : ∀ q, (es'.foldl (step dev) (es.foldl (step dev) (fresh rings))).handOf q =
      (es.foldl (step dev) (fresh rings)).handOf q := fun q => by simp only [handOf, hswept.hands]
  have h := hafter.books hinv
  rw [hlinks', hswept.arrived, hswept.departed, hswept.freed] at h
  simpa only [hhands, ← Multiset.coe_add] using h

end

end Net

end

/-! ### Two secondaries and a ring -/

/-- Port 0 is patched to port 1. -/
def relayTable : Slots Port := fun i =>
  if (i : Nat) = 0 then ⟨0, .phy, some .rteEthRxBurst, some .rteEthTxBurst, 1⟩
  else if (i : Nat) = 1 then ⟨1, .ring, some .rteEthRxBurst, some .rteEthTxBurst, -99⟩
  else Port.init

/-- The ring is port 1 of the first process and port 0 of the second one. -/
def relayDev : Endpoint Bool → Device Unit
  | (false, i) => if (i : Nat) = 1 then .ring () else .outside
  | (true, i) => if (i : Nat) = 0 then .ring () else .outside

def relayRings : Unit → RteRing Nat := fun _ => rteRingInit (fun _ => 0) 4 3

private theorem rteMaxEthports_pos : 0 < rteMaxEthports := by decide

/-- Five packets come in, three of which the ring has room for, and two of these go out. -/
def relay : List (NetEvent Bool Nat) :=
  [.receive false ⟨0, rteMaxEthports_pos⟩ relayTable (fun _ => 0) [7, 8, 9, 10, 11],
    .send false relayTable (fun _ => 0) 0, .receive true ⟨0, rteMaxEthports_pos⟩ relayTable (fun _ => 0) [],
    .send true relayTable (fun _ => 0) 2]

private theorem relayRings_made : Net.Made (fun _ => 4) relayRings :=
  ⟨fun _ => by decide, fun _ => by decide, fun _ => ⟨_, _, rfl⟩⟩

theorem relay_in_order :
    (relay.foldl (Net.step relayDev) (.fresh relayRings)).received (true, ⟨0, rteMaxEthports_pos⟩) = [7, 8, 9] ∧
    ((relay.foldl (Net.step relayDev) (.fresh relayRings)).received (true, ⟨0, rteMaxEthports_pos⟩)).Sublist
      ((relay.foldl (Net.step relayDev) (.fresh relayRings)).received (false, ⟨0, rteMaxEthports_pos⟩)) :=
  ⟨by decide +kernel,
    (Net.path_in_order relayRings_made (by decide : Along _ _ _ relay)
      (Relation.ReflTransGen.single ⟨(), by decide, by decide⟩)).1⟩

/-- The burst functions of a process whose ports to the outside deliver the same packets and take the same number in
every call, in a net that only this process works on. -/
def bursts {π ρ μ : Type} [DecidableEq ρ] [DecidableEq π] (dev : Endpoint π → Device ρ) (p : π) (stale : Nat → μ)
    (arrivals : List μ) (taken : Nat) : Bursts (Net π ρ μ) μ where
  rx := fun net i =>
    let (burst, links) := net.rxBurst dev (p, i) stale arrivals
    (burst, { net with links })
  tx := fun net out burst =>
    let (nbTx, links) := net.txBurst dev (p, out) stale taken burst
    (nbTx, { net with links })

theorem relay_conservation :
    ∃ net : Net Bool Unit Nat, net = relay.foldl (Net.step relayDev) (.fresh relayRings) ∧ net.freed = [10, 11, 9] ∧
      (net.arrived : Multiset Nat) = ∑ r, ((net.links r).ring.contents : Multiset Nat) +
        ∑ p, (net.handOf p : Multiset Nat) + net.departed + net.freed ∧
      ∃ visits st', forward (bursts relayDev false (fun _ => 0) [12, 13, 14, 15] 0) (fun m => m % 2) relayTable
          (net, fun _ => none) = some (visits, st') ∧
        visits.map Visit.put = [[(1, 15)]] ∧
        (net.arrived : Multiset Nat) + Net.fromOutside relayDev false visits =
          ∑ r, ((st'.1.links r).ring.contents : Multiset Nat) + ∑ q, (net.handOf q : Multiset Nat) +
          (net.departed + Net.toOutside relayDev false visits) +
          (net.freed + (visits.flatMap Visit.put).map Prod.snd) := by
  obtain ⟨hbooks, hsweep⟩ := Net.net_conservation relayRings_made
    (by decide : Along (Net.step relayDev) Net.Allowed (.fresh relayRings) relay) rfl
  have hports : Net.PortsOf relayDev false (bursts relayDev false (fun _ => 0) [12, 13, 14, 15] 0) Net.links := by
    refine ⟨fun s net hnet i => ⟨fun _ => 0, [12, 13, 14, 15], by decide, ?_⟩,
      fun s net hnet out burst => ⟨fun _ => 0, 0, ?_⟩⟩
    · simp only [Net.rxBurst, bursts, hnet]
    · simp only [Net.txBurst, bursts, hnet]
  have hput : (forward (bursts relayDev false (fun _ => 0) [12, 13, 14, 15] 0) (fun m => m % 2) relayTable
      (relay.foldl (Net.step relayDev) (.fresh relayRings), fun _ => none)).map (fun r => r.1.map Visit.put) =
        some [[(1, 15)]] := by decide +kernel
  obtain ⟨⟨visits, st'⟩, hrun, hvisits⟩ := Option.map_eq_some_iff.1 hput
  exact ⟨_, rfl, by decide +kernel, hbooks, visits, st', hrun, hvisits,
    hsweep hports _ _ _ _ _ (by decide +kernel) rfl hrun⟩

end SoftPatchPanel.Secondary

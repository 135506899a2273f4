import SoftPatchPanel.L2fwd.Pairing
import SoftPatchPanel.Lib.Strtoull

/-!
# Ports and lcores

`main` of `l2fwd` gives the enabled ports to the enabled lcores behind the lowest one, which it takes for the master,
and then launches the loop on all enabled lcores but the EAL's master.  The lcores are filled one after another, so a
port is left on the master exactly when the lcores between the lowest one and the master are too few for the ports
(`polled_iff`).
-/

namespace SoftPatchPanel.L2fwd

open Lib

/-- `RTE_MAX_LCORE`. -/
def rteMaxLcore : Nat := 128

/-- `MAX_RX_QUEUE_PER_LCORE`, the dimension of `rx_port_list`. -/
def maxRxQueuePerLcore : Nat := 16

/-- `l2fwd_parse_nqueue`; 0 for an argument that is not accepted. -/
def l2fwdParseNqueue (qArg : CStr) : Nat :=
  let (n, rest) := strtoull 10 qArg
  if qArg = [] ∨ rest ≠ [] then 0
  else if n = 0 then 0
  else if maxRxQueuePerLcore ≤ n.toNat then 0
  else n.toNat

/-- The lcores whose role is not `ROLE_OFF`. -/
abbrev Lcores := Fin rteMaxLcore → Bool

/-- `rte_lcore_is_enabled`. -/
def rteLcoreIsEnabled (lcores : Lcores) (lcoreId : Nat) : Bool :=
  if h : lcoreId < rteMaxLcore then lcores ⟨lcoreId, h⟩ else false

/-- The loops that look for an lcore: from `rx_lcore_id` on to the first one that is not skipped.  `none` when they
reach `RTE_MAX_LCORE` and the program exits. -/
def nextLcore (skip : Nat → Bool) (rxLcoreId : Nat) : Option Nat :=
  (rxLcoreId :: List.range' (rxLcoreId + 1) (rteMaxLcore - (rxLcoreId + 1))).find? (fun i => !skip i)

/-- The variables of the assignment: `rx_lcore_id`, and for each lcore the first `n_rx_port` elements of its
`rx_port_list`. -/
structure Assignment where
  rxLcoreId : Nat
  rxPortList : Nat → List PortId

/-- One round of the loop for an enabled port. -/
def Assignment.add (lcores : Lcores) (rxQueuePerLcore : Nat) (a : Assignment) (portid : PortId) : Option Assignment :=
  (nextLcore (fun i => !rteLcoreIsEnabled lcores i || (a.rxPortList i).length = rxQueuePerLcore) a.rxLcoreId).map
    fun rx => ⟨rx, Function.update a.rxPortList rx (a.rxPortList rx ++ [portid])⟩

/-- The search for the "Master Lcore" and the loop over the ports. -/
def assignPorts (lcores : Lcores) (rxQueuePerLcore nbPorts : Nat) (mask : UInt32) : Option Assignment := do
  let lowest ← nextLcore (fun i => !rteLcoreIsEnabled lcores i) 0
  (portids nbPorts).foldlM
    (fun a portid => if maskBit mask portid then a.add lcores rxQueuePerLcore portid else some a)
    ⟨lowest + 1, fun _ => []⟩

/-- `RTE_LCORE_FOREACH_SLAVE`: the lcores on which `iofwd_launch_one_lcore` is launched. -/
def slaveLcores (lcores : Lcores) (master : Nat) : List Nat :=
  (List.range rteMaxLcore).filter (fun i => rteLcoreIsEnabled lcores i && i ≠ master)

private theorem lt_of_enabled {lcores : Lcores} {i : Nat} (h : rteLcoreIsEnabled lcores i) : i < rteMaxLcore := by
  unfold rteLcoreIsEnabled at h
  split at h
  · assumption
  · cases h

/-- The search stops at the first lcore that is not skipped. -/
private theorem nextLcore_eq_some {skip : Nat → Bool} {rx r : Nat} (h : nextLcore skip rx = some r) :
    rx ≤ r ∧ skip r = false ∧ ∀ i, rx ≤ i → i < r → skip i = true := by
  unfold nextLcore at h
  rw [List.find?_cons] at h
  split at h
  · rename_i hrx
    cases h
    refine ⟨Nat.le_refl _, by simpa using hrx, ?_⟩
    intro i h1 h2
    omega
  · rename_i hrx
    obtain ⟨hr, hle, hlt⟩ := List.find?_range'_eq_some.1 h
    have hmem := List.mem_range'_1.1 hle
    refine ⟨by omega, by simpa using hr, ?_⟩
    intro i h1 h2
    by_cases hi : i = rx
    · subst hi
      simpa using hrx
    · simpa using hlt i (by omega) h2

/-! ### Enabled lcores below a bound -/

/-- The number of enabled lcores below `x`. -/
def enabledBelow (lcores : Lcores) (x : Nat) : Nat := ((List.range x).filter (rteLcoreIsEnabled lcores)).length

private theorem enabledBelow_succ (lcores : Lcores) (x : Nat) :
    enabledBelow lcores (x + 1) = enabledBelow lcores x + if rteLcoreIsEnabled lcores x then 1 else 0 := by
  unfold enabledBelow
  rw [List.range_succ, List.filter_append, List.length_append]
  cases h : rteLcoreIsEnabled lcores x with
  | false => simp [h]
  | true => simp [h]

private theorem enabledBelow_mono {lcores : Lcores} {x y : Nat} (h : x ≤ y) :
    enabledBelow lcores x ≤ enabledBelow lcores y := by
  induction h with
  | refl => exact Nat.le_refl _
  | step _ ih =>
    rw [Nat.succ_eq_add_one, enabledBelow_succ]
    omega

private theorem enabledBelow_lt {lcores : Lcores} {x y : Nat} (h : x < y) (hx : rteLcoreIsEnabled lcores x) :
    enabledBelow lcores x < enabledBelow lcores y := by
  have hle := @enabledBelow_mono lcores _ _ (Nat.succ_le_of_lt h)
  rw [Nat.succ_eq_add_one, enabledBelow_succ, if_pos hx] at hle
  omega

/-- Lcores that are not enabled do not count. -/
private theorem enabledBelow_eq {lcores : Lcores} {x y : Nat} (h : x ≤ y)
    (hoff : ∀ i, x ≤ i → i < y → rteLcoreIsEnabled lcores i = false) : enabledBelow lcores y = enabledBelow lcores x := by
  induction h with
  | refl => rfl
  | @step y hxy ih =>
    rw [Nat.succ_eq_add_one, enabledBelow_succ, hoff y hxy (Nat.lt_succ_self y),
      ih (fun i h1 h2 => hoff i h1 (Nat.lt_succ_of_lt h2))]
    simp

/-! ### The assignment -/

/-- The ports given out so far: the lcores between the lowest one and `rx_lcore_id` are full, those behind it are
empty. -/
structure Assignment.Inv (lcores : Lcores) (q lowest : Nat) (a : Assignment) (ports : List PortId) : Prop where
  lowest_lt : lowest < a.rxLcoreId
  enabled : ∀ i, a.rxPortList i ≠ [] → rteLcoreIsEnabled lcores i
  behind : ∀ i, i ≤ lowest ∨ a.rxLcoreId < i → a.rxPortList i = []
  full : ∀ i, lowest < i → i < a.rxLcoreId → rteLcoreIsEnabled lcores i → (a.rxPortList i).length = q
  le : ∀ i, (a.rxPortList i).length ≤ q
  mem : ∀ p, (∃ i, p ∈ a.rxPortList i) ↔ p ∈ ports
  unique : ∀ p i j, p ∈ a.rxPortList i → p ∈ a.rxPortList j → i = j
  count : ports.length + q = q * enabledBelow lcores a.rxLcoreId + (a.rxPortList a.rxLcoreId).length

section

variable {lcores : Lcores} {q lowest : Nat} {a a' : Assignment} {ports : List PortId}

/-- The number of enabled lcores below the one that gets the next port. -/
private theorem Assignment.Inv.count_next (h : a.Inv lcores q lowest ports) (hq : 0 < q) {r : Nat}
    (hle : a.rxLcoreId ≤ r)
    (hskip : ∀ i, a.rxLcoreId ≤ i → i < r → rteLcoreIsEnabled lcores i = false ∨ (a.rxPortList i).length = q) :
    ports.length + q = q * enabledBelow lcores r + (a.rxPortList r).length := by
  rcases Nat.eq_or_lt_of_le hle with heq | hlt
  · rw [← heq]
    exact h.count
  · -- of the skipped lcores, only the first one can have ports
    have hempty : ∀ i, a.rxLcoreId < i → a.rxPortList i = [] := fun i hi => h.behind i (Or.inr hi)
    have hoff : ∀ i, a.rxLcoreId + 1 ≤ i → i < r → rteLcoreIsEnabled lcores i = false := by
      intro i h1 h2
      rcases hskip i (by omega) h2 with hoff | hfull
      · exact hoff
      · rw [hempty i (by omega), List.length_nil] at hfull
        omega
    have hcount := h.count
    rw [hempty r hlt, List.length_nil, enabledBelow_eq hlt hoff, enabledBelow_succ]
    rcases hskip _ (Nat.le_refl _) hlt with hoff | hfull
    · have hnil : a.rxPortList a.rxLcoreId = [] := by
        by_contra hne
        rw [h.enabled _ hne] at hoff
        cases hoff
      rw [hnil, List.length_nil] at hcount
      rw [hoff]
      simpa using hcount
    · have hon : rteLcoreIsEnabled lcores a.rxLcoreId := by
        refine h.enabled _ fun hnil => ?_
        rw [hnil, List.length_nil] at hfull
        omega
      rw [hfull] at hcount
      rw [if_pos hon, Nat.mul_add, Nat.mul_one]
      omega

/-- The ports of the lcores after a port has been added to one of them. -/
private theorem mem_update_concat {lists : Nat → List PortId} {r i : Nat} {p x : PortId} :
    x ∈ Function.update lists r (lists r ++ [p]) i ↔ x ∈ lists i ∨ x = p ∧ i = r := by
  by_cases hi : i = r
  · subst hi
    simp
  · simp [hi]

/-- A new port in one list is in no other list. -/
private theorem unique_update_concat {lists : Nat → List PortId} {r : Nat} {p : PortId} (hnew : ∀ i, p ∉ lists i)
    (h : ∀ x i j, x ∈ lists i → x ∈ lists j → i = j) {x : PortId} {i j : Nat}
    (hi : x ∈ Function.update lists r (lists r ++ [p]) i) (hj : x ∈ Function.update lists r (lists r ++ [p]) j) :
    i = j := by
  rw [mem_update_concat] at hi hj
  rcases hi with hi | ⟨rfl, hi⟩
  · rcases hj with hj | ⟨rfl, -⟩
    · exact h x i j hi hj
    · exact absurd hi (hnew i)
  · rcases hj with hj | ⟨-, hj⟩
    · exact absurd hj (hnew j)
    · rw [hi, hj]

/-- The next port goes to an lcore that is enabled and not full. -/
private theorem Assignment.Inv.add (h : a.Inv lcores q lowest ports) (hq : 0 < q) {p : PortId} (hp : p ∉ ports)
    (hadd : a.add lcores q p = some a') : a'.Inv lcores q lowest (ports ++ [p]) := by
  obtain ⟨r, hr, rfl⟩ := Option.map_eq_some_iff.1 hadd
  obtain ⟨hle, hstop, hskip⟩ := nextLcore_eq_some hr
  simp only [Bool.or_eq_false_iff, Bool.not_eq_false', decide_eq_false_iff_not, Bool.or_eq_true, Bool.not_eq_true',
    decide_eq_true_eq] at hstop hskip
  obtain ⟨hon, hroom⟩ := hstop
  have hcount := h.count_next hq hle hskip
  have hlow := h.lowest_lt
  have hnew : ∀ i, p ∉ a.rxPortList i := fun i hi => hp ((h.mem p).1 ⟨i, hi⟩)
  have hother : ∀ i, i ≠ r → Function.update a.rxPortList r (a.rxPortList r ++ [p]) i = a.rxPortList i :=
    fun i hi => Function.update_of_ne hi _ _
  have hself : Function.update a.rxPortList r (a.rxPortList r ++ [p]) r = a.rxPortList r ++ [p] :=
    Function.update_self _ _ _
  refine ⟨Nat.lt_of_lt_of_le hlow hle, ?_, ?_, ?_, ?_, ?_, ?_, ?_⟩
  · intro i hi
    by_cases hir : i = r
    · rw [hir]
      exact hon
    · simp only [hother i hir] at hi
      exact h.enabled i hi
  · intro i hi
    simp only at hi ⊢
    rw [hother i (by omega)]
    exact h.behind i (by omega)
  · -- an lcore that was passed is full, or it is not enabled
    intro i h1 h2 h3
    simp only at h2 ⊢
    rw [hother i (by omega)]
    rcases Nat.lt_or_ge i a.rxLcoreId with hlt | hge
    · exact h.full i h1 hlt h3
    · exact (hskip i hge h2).resolve_left (by simp [h3])
  · intro i
    by_cases hir : i = r
    · have := h.le r
      simp only [hir, hself, List.length_append, List.length_singleton]
      omega
    · simp only [hother i hir]
      exact h.le i
  · intro x
    simp only [mem_update_concat, List.mem_append, List.mem_singleton, ← h.mem x]
    constructor
    · rintro ⟨i, hi | ⟨rfl, -⟩⟩
      · exact Or.inl ⟨i, hi⟩
      · exact Or.inr rfl
    · rintro (⟨i, hi⟩ | rfl)
      · exact ⟨i, Or.inl hi⟩
      · exact ⟨r, Or.inr ⟨rfl, rfl⟩⟩
  · exact fun x i j => unique_update_concat hnew h.unique
  · simp only [hself, List.length_append, List.length_singleton]
    omega

private theorem Assignment.Inv.run (hq : 0 < q) {ids : List PortId} (h : a.Inv lcores q lowest ports)
    (hnodup : (ports ++ ids).Nodup) (hrun : ids.foldlM (Assignment.add lcores q) a = some a') :
    a'.Inv lcores q lowest (ports ++ ids) := by
  induction ids generalizing a ports with
  | nil =>
    cases hrun
    simpa using h
  | cons p ids ih =>
    rw [List.foldlM_cons] at hrun
    obtain ⟨mid, hmid, hrest⟩ := Option.bind_eq_some_iff.1 hrun
    rw [List.append_cons] at hnodup ⊢
    have hp : p ∉ ports := fun hp =>
      List.disjoint_of_nodup_append hnodup.of_append_left hp (List.mem_singleton_self p)
    exact ih (h.add hq hp hmid) hnodup hrest

end

/-- The assignment keeps its invariant, with the lowest enabled lcore left out. -/
private theorem assignPorts_inv {lcores : Lcores} {q nbPorts : Nat} (hq : 0 < q) {mask : UInt32} {a : Assignment}
    (h : assignPorts lcores q nbPorts mask = some a) :
    ∃ lowest, rteLcoreIsEnabled lcores lowest ∧ (∀ i < lowest, rteLcoreIsEnabled lcores i = false) ∧
      a.Inv lcores q lowest (enabledPorts nbPorts mask) := by
  obtain ⟨lowest, hlowest, hrun⟩ := Option.bind_eq_some_iff.1 h
  obtain ⟨-, hon, hoff⟩ := nextLcore_eq_some hlowest
  simp only [Bool.not_eq_false', Bool.not_eq_true'] at hon hoff
  refine ⟨lowest, hon, fun i hi => hoff i (Nat.zero_le i) hi, ?_⟩
  have hcount : enabledBelow lcores (lowest + 1) = 1 := by
    rw [enabledBelow_succ, if_pos hon, enabledBelow_eq (Nat.zero_le lowest) hoff]
    rfl
  have hinit : (⟨lowest + 1, fun _ => []⟩ : Assignment).Inv lcores q lowest [] :=
    { lowest_lt := Nat.lt_succ_self lowest
      enabled := fun i hi => absurd rfl hi
      behind := fun _ _ => rfl
      full := fun i h1 h2 => absurd h2 (by simp only; omega)
      le := fun _ => Nat.zero_le q
      mem := by simp
      unique := by simp
      count := by simp [hcount] }
  refine hinit.run hq (nodup_enabledPorts nbPorts mask) (Eq.trans ?_ hrun)
  exact List.foldlM_filter

/-- A port is on an lcore `master` behind the lowest one exactly when the lcores before it do not hold all ports. -/
private theorem Assignment.Inv.eq_nil_iff {lcores : Lcores} {q lowest master : Nat} {a : Assignment}
    {ports : List PortId} (h : a.Inv lcores q lowest ports) (hq : 0 < q) (hmaster : rteLcoreIsEnabled lcores master)
    (hlt : lowest < master) :
    a.rxPortList master = [] ↔ ports.length + q ≤ q * enabledBelow lcores master := by
  have hcount := h.count
  have hle := h.le a.rxLcoreId
  rcases Nat.lt_trichotomy master a.rxLcoreId with hbefore | rfl | hbehind
  · -- it is full
    have hfull := h.full master hlt hbefore hmaster
    have hne : a.rxPortList master ≠ [] := by
      intro hnil
      rw [hnil, List.length_nil] at hfull
      omega
    have hmul := Nat.mul_le_mul_left q (enabledBelow_lt hbefore hmaster)
    rw [Nat.succ_eq_add_one, Nat.mul_add, Nat.mul_one] at hmul
    exact ⟨fun hnil => absurd hnil hne, fun hfew => by omega⟩
  · rw [← List.length_eq_zero_iff]
    omega
  · refine ⟨fun _ => ?_, fun _ => h.behind master (Or.inr hbehind)⟩
    by_cases hnil : a.rxPortList a.rxLcoreId = []
    · have hmul := Nat.mul_le_mul_left q (@enabledBelow_mono lcores _ _ (Nat.le_of_lt hbehind))
      rw [hnil, List.length_nil] at hcount
      omega
    · have hmul := Nat.mul_le_mul_left q (enabledBelow_lt hbehind (h.enabled _ hnil))
      rw [Nat.succ_eq_add_one, Nat.mul_add, Nat.mul_one] at hmul
      omega

/-- If the assignment completes, each enabled port is in the list of exactly one lcore and no lcore has more ports than
asked for.  That lcore is always a slave exactly when the master is the lowest enabled lcore, or when the enabled
lcores below the master, without the lowest one, take all ports. -/
theorem polled_iff {lcores : Lcores} {master nbPorts : Nat} {mask : UInt32} {qArg : CStr} {a : Assignment}
    (hmaster : rteLcoreIsEnabled lcores master) (hq : l2fwdParseNqueue qArg ≠ 0)
    (h : assignPorts lcores (l2fwdParseNqueue qArg) nbPorts mask = some a) :
    (∀ p ∈ enabledPorts nbPorts mask, ∃! i, p ∈ a.rxPortList i) ∧
    (∀ i, (a.rxPortList i).length ≤ l2fwdParseNqueue qArg) ∧
    ((∀ p ∈ enabledPorts nbPorts mask, ∀ i, p ∈ a.rxPortList i → i ∈ slaveLcores lcores master) ↔
      enabledBelow lcores master = 0 ∨
        (enabledPorts nbPorts mask).length ≤ l2fwdParseNqueue qArg * (enabledBelow lcores master - 1)) := by
  have hpos : 0 < l2fwdParseNqueue qArg := Nat.pos_of_ne_zero hq
  obtain ⟨lowest, hlow, hoff, hinv⟩ := assignPorts_inv hpos h
  refine ⟨?_, hinv.le, ?_⟩
  · intro p hp
    obtain ⟨i, hi⟩ := (hinv.mem p).2 hp
    exact ⟨i, hi, fun j hj => hinv.unique p j i hj hi⟩
  -- only the master can be an lcore with ports that is no slave
  have hslave : (∀ p ∈ enabledPorts nbPorts mask, ∀ i, p ∈ a.rxPortList i → i ∈ slaveLcores lcores master) ↔
      a.rxPortList master = [] := by
    constructor
    · intro hall
      by_contra hne
      obtain ⟨p, hp⟩ := List.exists_mem_of_ne_nil _ hne
      have := hall p ((hinv.mem p).1 ⟨master, hp⟩) master hp
      simp [slaveLcores] at this
    · intro hnil p _ i hi
      have hon := hinv.enabled i (List.ne_nil_of_mem hi)
      refine List.mem_filter.2 ⟨List.mem_range.2 (lt_of_enabled hon), ?_⟩
      have hne : i ≠ master := by
        rintro rfl
        rw [hnil] at hi
        cases hi
      simp [hon, hne]
  rw [hslave]
  rcases Nat.lt_trichotomy master lowest with hlt | rfl | hlt
  · rw [hoff master hlt] at hmaster
    cases hmaster
  · have hzero : enabledBelow lcores master = 0 := enabledBelow_eq (Nat.zero_le master) (fun i _ hi => hoff i hi)
    exact ⟨fun _ => Or.inl hzero, fun _ => hinv.behind master (Or.inl (Nat.le_refl _))⟩
  · rw [hinv.eq_nil_iff hpos hmaster hlt]
    have hlt' := enabledBelow_lt hlt hlow
    obtain ⟨k, hk⟩ : ∃ k, enabledBelow lcores master = k + 1 := ⟨enabledBelow lcores master - 1, by omega⟩
    rw [hk, Nat.mul_add, Nat.mul_one, Nat.add_sub_cancel]
    omega

/-- Four lcores with the lowest one as the master, three ports and two queues per lcore. -/
theorem polled_fourLcores :
    ∃ a, assignPorts (fun i => i.val < 4) (l2fwdParseNqueue "2".toList) 3 7 = some a ∧
      ∀ p ∈ enabledPorts 3 7, ∀ i, p ∈ a.rxPortList i → i ∈ slaveLcores (fun i => i.val < 4) 0 := by
  obtain ⟨a, ha⟩ : ∃ a, assignPorts (fun i => i.val < 4) (l2fwdParseNqueue "2".toList) 3 7 = some a :=
    Option.isSome_iff_exists.1 (by decide +kernel)
  exact ⟨a, ha, (polled_iff (by decide) (by decide +kernel) ha).2.2.2 (Or.inl (by decide))⟩

/-- Lcores 0 and 1 with lcore 1 as the master: the only port is on the master, and nothing is launched there. -/
theorem port_on_master :
    (assignPorts (fun i => i.val < 2) (l2fwdParseNqueue "1".toList) 1 1).map (fun a => a.rxPortList 1) =
      some [portZero] ∧
    slaveLcores (fun i => i.val < 2) 1 = [0] := by
  decide +kernel

end SoftPatchPanel.L2fwd

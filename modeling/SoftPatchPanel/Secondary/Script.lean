import SoftPatchPanel.Secondary.Forward

/-!
# What a command script means

A script of `add`, `patch`, `patch reset`, `forward` and `stop` commands numbers the new ports one after another and
leaves a table that forwards along the patches since the last reset (`script_meaning`; which bursts a sweep receives and
sends is said by `MadeBy`).  The invariant
(`Patched`) ties the table to the history of commands; it is kept by every command by itself.
-/

namespace SoftPatchPanel.Secondary

open Lib EthDev

/-! ### The meaning of a history -/

/-- The last `patch p x` after the last `patch reset`, where the latest command comes first. -/
def lastPatch (p : Int) : List Command → Option Int
  | [] => none
  | .patchReset :: _ => none
  | .patch inPort outPort :: cs => if inPort = p then some outPort else lastPatch p cs
  | _ :: cs => lastPatch p cs

/-- The commands of a script, with port numbers inside the table. -/
def Command.InScript : Command → Prop
  | .addRing _ | .addVhost _ | .patchReset | .forward | .stop => True
  | .patch inPort outPort => (0 ≤ inPort ∧ inPort < rteMaxEthports) ∧ 0 ≤ outPort ∧ outPort < rteMaxEthports
  | _ => False

/-- The name of the device that a command adds. -/
def Command.addedName : Command → Option CStr
  | .addRing ringId => some (addRingName ringId)
  | .addVhost index => some (getVhostBackendName (UInt32.ofInt index).toNat)
  | _ => none

/-- The names of the devices that a script adds. -/
def addedNames : List Input → List CStr
  | [] => []
  | x :: xs => x.1.addedName.toList ++ addedNames xs

/-- The names of the PCI devices. -/
def pciNames (ports : Ports) (n : Nat) : List CStr :=
  ((List.finRange rteMaxEthports).filter (fun i : Fin rteMaxEthports => (i : Nat) < n)).map
    (fun i => (ports.devs i).name)

/-- The port id that making the port of an `add` returns. -/
def madePort (s : State) (x : Input) : Option Int :=
  match x.1 with
  | .addRing ringId => some (makeRing x.2 s.ports ringId).1
  | .addVhost index => some (makeVhost x.2 s.ports index).1
  | _ => none

/-- The port ids that the `add` commands of a script get, in order. -/
def madePorts : State → List Input → List Int
  | _, [] => []
  | s, x :: xs => (madePort s x).toList ++ madePorts (s.step x) xs

/-- All calls of the handlers succeed. -/
structure Outcome.Succeeds (o : Outcome) : Prop where
  mempool : o.mempool
  ring : o.ring
  alloc : ∀ i, o.alloc i
  register : 0 ≤ o.register

/-- The devices of a secondary with the PCI ports `0` to `n - 1`. -/
structure PciPorts (ports : Ports) (n : Nat) : Prop where
  le : n ≤ rteMaxEthports
  filled : Filled ports.devs n
  pci : ∀ i : Fin rteMaxEthports, (i : Nat) < n → (ports.devs i).devType = .pci

/-! ### The table -/

/-- The slot of an input with a patch leads to the port of the patch and can be called; the others lead nowhere. -/
def Patched (fwd : Slots Port) (history : List Command) : Prop :=
  ∀ i : Fin rteMaxEthports,
    (∀ q, lastPatch i history = some q → (fwd i).outPortId = q ∧ 0 ≤ (fwd i).status ∧ (fwd i).rxFunc ≠ none ∧
      ∃ j : Fin rteMaxEthports, (j : Int) = q ∧ (fwd j).txFunc ≠ none) ∧
    (lastPatch i history = none → (fwd i).outPortId < 0)

section

variable {s : State} {o : Outcome} {history : List Command}

theorem patched_init (ports : Ports) : Patched (State.init ports).portsFwdArray [] := by
  intro i
  refine ⟨fun q h => by simp [lastPatch] at h, fun _ => ?_⟩
  simp only [State.init]
  split <;> simp [Port.init]

private theorem patched_of_added (h : Patched s.portsFwdArray history) {fwd : Slots Port} {id : Int} {t : PortType}
    (hfwd : fwd = fun j => { s.portsFwdArray j with
      status := if (j : Int) = id then id else (s.portsFwdArray j).status
      type := if (j : Int) = id then t else (s.portsFwdArray j).type })
    {c : Command} (hc : ∀ p, lastPatch p (c :: history) = lastPatch p history) : Patched fwd (c :: history) := by
  subst hfwd
  intro i
  obtain ⟨h1, h2⟩ := h i
  rw [hc]
  refine ⟨fun q hq => ?_, fun hq => ?_⟩
  · obtain ⟨hout, hst, hrx, j, hj, htx⟩ := h1 q hq
    refine ⟨hout, ?_, hrx, j, hj, htx⟩
    simp only
    split <;> omega
  · exact h2 hq

theorem Patched.step (h : Patched s.portsFwdArray history) {c : Command} (hc : c.InScript) :
    Patched (s.step (c, o)).portsFwdArray (c :: history) := by
  cases c with
  | forward | stop => exact h
  | addVhost index =>
    by_cases hmp : o.mempool
    · exact patched_of_added h (by simp only [State.step, handle, hmp, ↓reduceIte]; exact exec_addedPort _ _ _)
        (fun _ => rfl)
    · simp only [State.step, handle, hmp, Bool.false_eq_true, ↓reduceIte, State.exec_nil]
      exact h
  | addRing ringId =>
    by_cases hring : o.ring
    · exact patched_of_added h (by simp only [State.step, handle, hring, ↓reduceIte]; exact exec_addedPort _ _ _)
        (fun _ => rfl)
    · simp only [State.step, handle, hring, Bool.false_eq_true, ↓reduceIte, State.exec_nil]
      exact h
  | patchReset =>
    intro i
    rw [step_patchReset]
    refine ⟨fun q hq => by simp [lastPatch] at hq, fun _ => ?_⟩
    obtain ⟨h1, h2⟩ := h i
    simp only
    split
    · simp
    · -- a slot that was never in use was never patched either
      rename_i hst
      apply h2
      by_contra hne
      obtain ⟨q, hq⟩ := Option.ne_none_iff_exists'.1 hne
      have := (h1 q hq).2.1
      omega
  | patch inPort outPort =>
    obtain ⟨⟨hin0, hin⟩, hout0, hout⟩ := hc
    intro i
    rw [step_patch]
    obtain ⟨h1, h2⟩ := h i
    simp only [lastPatch]
    by_cases hi : inPort = i
    · subst hi
      refine ⟨fun q hq => ?_, fun hq => by simp at hq⟩
      simp only [↓reduceIte, Option.some.injEq] at hq
      subst hq
      obtain ⟨j, hj⟩ : ∃ j : Fin rteMaxEthports, (j : Int) = outPort :=
        ⟨⟨outPort.toNat, by omega⟩, by simpa using hout0⟩
      refine ⟨by simp, ?_, by simp, j, hj, by simp [hj]⟩
      simp only [↓reduceIte]
      split <;> omega
    · have hi' : ¬(i : Int) = inPort := fun h => hi h.symm
      simp only [hi, hi', ↓reduceIte, or_false]
      refine ⟨fun q hq => ?_, h2⟩
      obtain ⟨h3, hst, hrx, j, hj, htx⟩ := h1 q hq
      refine ⟨h3, ?_, ?_, j, hj, ?_⟩
      · split
        · exact hout0
        · exact hst
      · split
        · simp
        · exact hrx
      · split
        · simp
        · exact htx
  | status | exit | start | addRxRing _ | addRx _ | addTxRing _ | addTx _ | delRx _ | delTx _ | save _ | exec _ =>
    exact absurd hc id

private theorem Patched.run {xs : List Input} (h : Patched s.portsFwdArray history) (hxs : ∀ x ∈ xs, x.1.InScript) :
    Patched (s.run xs).portsFwdArray ((xs.map Prod.fst).reverse ++ history) := by
  induction xs generalizing s history with
  | nil => simpa using h
  | cons x xs ih =>
    have := ih (h.step (o := x.2) (hxs x (by simp))) (fun y hy => hxs y (by simp [hy]))
    simpa using this

/-! ### The numbers of the new ports -/

private theorem length_indexedName (text : CStr) (formatSize id : Nat) :
    (indexedName text formatSize id).length ≤ formatSize + 1 - 1 := by
  simp [indexedName, snprintf]

private theorem snprintf_addedName {c : Command} {name : CStr} (h : c.addedName = some name) :
    snprintf rteEthNameMaxLen name = name := by
  have hlen : name.length ≤ 14 := by
    cases c with
    | addVhost index =>
      cases h
      exact (length_indexedName _ _ _).trans (by decide)
    | addRing ringId =>
      cases h
      simp only [addRingName]
      split
      · exact (length_indexedName _ _ _).trans (by decide)
      · exact (length_indexedName _ _ _).trans (by decide)
    | _ => simp [Command.addedName] at h
  exact List.take_of_length_le (by simp only [rteEthNameMaxLen]; omega)

/-- The first `k` devices are attached, with names out of `names`. -/
structure Numbered (ports : Ports) (k : Nat) (names : List CStr) : Prop where
  filled : Filled ports.devs k
  name : ∀ i, (ports.devs i).attached → (ports.devs i).name ∈ names

private theorem Numbered.allocate {ports : Ports} {k : Nat} {names : List CStr} (h : Numbered ports k names)
    (hk : k < rteMaxEthports) {c : Command} {name : CStr} (hc : c.addedName = some name) (hname : name ∉ names)
    (internals : List Internal) :
    ∃ devs, rteEthDevAllocate ports.devs name .virtual = some (⟨k, hk⟩, devs) ∧
      Numbered ⟨devs, internals⟩ (k + 1) (name :: names) := by
  have hfresh : ∀ i, (ports.devs i).attached → (ports.devs i).name ≠ name :=
    fun i hi heq => hname (heq ▸ h.name i hi)
  refine ⟨_, rteEthDevAllocate_filled hk h.filled hfresh .virtual, h.filled.update hk rfl, fun i hi => ?_⟩
  by_cases hik : i = ⟨k, hk⟩
  · subst hik
    simp [snprintf_addedName hc]
  · simp only [Function.update_of_ne hik] at hi ⊢
    exact List.mem_cons_of_mem _ (h.name i hi)

/-- An `add` with a new name and room for the port gets the next port. -/
private theorem Numbered.add {k : Nat} {names : List CStr} (h : Numbered s.ports k names) (hk : k < rteMaxEthports)
    {c : Command} (ho : o.Succeeds) {name : CStr} (hc : c.addedName = some name) (hname : name ∉ names) :
    madePort s (c, o) = some (k : Int) ∧ (handle o s c).goesOn ∧
      Numbered (s.step (c, o)).ports (k + 1) (name :: names) := by
  have halloc := ho.alloc
  cases c with
  | addVhost index =>
    cases hc
    obtain ⟨devs, hdevs, hnum⟩ := h.allocate hk (c := .addVhost index) rfl hname
      (s.ports.internals ++ [⟨getVhostBackendName (UInt32.ofInt index).toNat,
        getVhostIfaceName (UInt32.ofInt index).toNat⟩])
    have hmade : makeVhost o s.ports index = ((k : Int), ⟨devs, s.ports.internals ++
        [⟨getVhostBackendName (UInt32.ofInt index).toNat, getVhostIfaceName (UInt32.ofInt index).toNat⟩]⟩) := by
      have hreg : ¬(0 ≤ (k : Int) ∧ o.register < 0) := by have := ho.register; omega
      simp only [makeVhost, rteEthFromVhost, rteEthFromVhostCreate, halloc, hdevs, and_self, ↓reduceIte,
        ite_cond_eq_false _ _ (eq_false hreg)]
    refine ⟨by simp [madePort, hmade], by simp [handle, ho.mempool], ?_⟩
    simpa [State.step, handle, ho.mempool, hmade, addedPort, Op.exec] using hnum
  | addRing ringId =>
    cases hc
    obtain ⟨devs, hdevs, hnum⟩ := h.allocate hk (c := .addRing ringId) rfl hname s.ports.internals
    have hmade : makeRing o s.ports ringId = ((k : Int), ⟨devs, s.ports.internals⟩) := by
      have hmod : (k : Int) % 65536 = k := Int.emod_eq_of_lt (by omega) (by have : rteMaxEthports = 32 := rfl; omega)
      simp only [makeRing, rteEthFromRings, halloc, hdevs, and_self, ↓reduceIte, hmod]
    refine ⟨by simp [madePort, hmade], by simp [handle, ho.ring], ?_⟩
    simpa [State.step, handle, ho.ring, hmade, addedPort, Op.exec] using hnum
  | _ => simp [Command.addedName] at hc

private theorem step_ports_of_not_added {c : Command} (hscript : c.InScript) (hc : c.addedName = none) :
    madePort s (c, o) = none ∧ (handle o s c).goesOn ∧ (s.step (c, o)).ports = s.ports := by
  cases c with
  | forward | stop => exact ⟨rfl, rfl, rfl⟩
  | patch inPort outPort =>
    exact ⟨rfl, rfl, by simp only [State.step, handle, State.exec_cons, State.exec_nil, Op.exec]⟩
  | patchReset =>
    refine ⟨rfl, rfl, ?_⟩
    have hslots : ∀ (is : List (Fin rteMaxEthports)) (t : State),
        (t.exec (is.flatMap (resetSlot s))).ports = t.ports := by
      intro is
      induction is with
      | nil => intro t; rfl
      | cons i is ih =>
        intro t
        rw [List.flatMap_cons, State.exec_append, ih, resetSlot]
        split <;> rfl
    simp only [State.step, handle]
    exact hslots (List.finRange rteMaxEthports) s
  | addVhost _ | addRing _ => simp [Command.addedName] at hc
  | _ => exact absurd hscript id

private theorem madePorts_eq {xs : List Input} (hxs : ∀ x ∈ xs, x.1.InScript) (ho : ∀ x ∈ xs, x.2.Succeeds) {k : Nat}
    {names : List CStr} (h : Numbered s.ports k names)
    (hnames : (addedNames xs ++ names).Nodup)
    (hk : k + (addedNames xs).length ≤ rteMaxEthports) :
    madePorts s xs =
        (List.range (addedNames xs).length).map (fun j => ((k + j : Nat) : Int)) ∧
      Always (fun s x => (handle x.2 s x.1).goesOn) s xs := by
  induction xs generalizing s k names with
  | nil => exact ⟨rfl, trivial⟩
  | cons x xs ih =>
    have hxs' : ∀ y ∈ xs, y.1.InScript := fun y hy => hxs y (by simp [hy])
    have ho' : ∀ y ∈ xs, y.2.Succeeds := fun y hy => ho y (by simp [hy])
    cases hc : x.1.addedName with
    | none =>
      obtain ⟨hmade, hgo, hports⟩ := step_ports_of_not_added (s := s) (o := x.2) (hxs x (by simp)) hc
      rw [addedNames, hc, Option.toList_none, List.nil_append] at hnames hk ⊢
      obtain ⟨h1, h2⟩ := ih hxs' ho' (by rw [← hports] at h; exact h) hnames hk
      refine ⟨?_, hgo, fun _ => h2⟩
      rw [madePorts, hmade, ← h1]
      rfl
    | some name =>
      rw [addedNames, hc, Option.toList_some, List.singleton_append] at hnames hk ⊢
      rw [List.length_cons] at hk
      have hmove : (addedNames xs ++ name :: names).Nodup :=
        (List.perm_middle.nodup_iff).2 hnames
      have hfresh : name ∉ names := by
        intro hin
        exact (List.nodup_cons.1 hnames).1 (List.mem_append_right _ hin)
      obtain ⟨hmade, hgo, hnum⟩ := h.add (by omega) (ho x (by simp)) hc hfresh
      obtain ⟨h1, h2⟩ := ih hxs' ho' hnum hmove (by omega)
      refine ⟨?_, hgo, fun _ => h2⟩
      rw [madePorts, hmade, h1, List.length_cons, List.range_succ_eq_map, List.map_cons, List.map_map]
      simp [Function.comp_def, Nat.add_assoc, Nat.add_comm 1]

end

/-! ### The meaning of a script -/

/-- A table that follows a history can be called, and its active slots are the inputs with a patch. -/
private theorem Patched.active_iff {fwd : Slots Port} {history : List Command} (h : Patched fwd history)
    (i : Fin rteMaxEthports) (q : Int) :
    ((fwd i).Active ∧ (fwd i).outPortId = q) ↔ lastPatch i history = some q := by
  obtain ⟨h1, h2⟩ := h i
  constructor
  · rintro ⟨⟨-, hout⟩, rfl⟩
    cases hlast : lastPatch i history with
    | none => have := h2 hlast; omega
    | some q => rw [(h1 q hlast).1]
  · intro hlast
    obtain ⟨hout, hst, -, j, hj, -⟩ := h1 q hlast
    exact ⟨⟨hst, by omega⟩, hout⟩

private theorem Patched.callable {fwd : Slots Port} {history : List Command} (h : Patched fwd history) :
    Callable fwd := by
  intro i hact
  obtain ⟨-, -, hrx, j, hj, htx⟩ := (h i).1 _ ((h.active_iff i _).1 ⟨hact, rfl⟩)
  exact ⟨hrx, j, by rw [← hj, slotOf_eq], htx⟩

/-- A sweep over a patched table polls the inputs of the last patches and hands what they deliver to the outputs. -/
theorem Patched.sweep {fwd : Slots Port} {history : List Command} (h : Patched fwd history) {σ μ π : Type}
    (b : Bursts σ μ) (pool : μ → π) (st : σ × (Nat → Option μ)) :
    ∃ visits st', forward b pool fwd st = some (visits, st') ∧ MadeBy b visits st.1 st'.1 ∧
      ∀ (p : Fin rteMaxEthports) (q : Int), (∃ v ∈ visits, v.inPort = p ∧ v.outPort = q) ↔
        lastPatch p history = some q := by
  obtain ⟨visits, st', hrun⟩ := forwardSlots_isSome b pool h.callable (List.finRange rteMaxEthports) st
  obtain ⟨hmade, hin, hall⟩ := forwardSlots_visits hrun
  refine ⟨visits, st', hrun, hmade, fun p q => ?_⟩
  rw [← h.active_iff p q]
  constructor
  · rintro ⟨v, hv, rfl, rfl⟩
    exact ⟨(hall v hv).active, (hall v hv).outPort.symm⟩
  · rintro ⟨hact, hout⟩
    have hp : p ∈ visits.map Visit.inPort := by
      rw [hin]
      simpa using hact
    obtain ⟨v, hv, rfl⟩ := List.mem_map.1 hp
    exact ⟨v, hv, rfl, (hall v hv).outPort.trans hout⟩

/-- In a script where everything succeeds the `j`-th `add` gets port `n + j`, and afterwards a sweep polls port `p` and
transmits what it received to port `q` exactly when the last patch of `p` since the last reset leads to `q`. -/
theorem script_meaning {ports : Ports} {n : Nat} (hports : PciPorts ports n) {xs : List Input}
    (hxs : ∀ x ∈ xs, x.1.InScript) (ho : ∀ x ∈ xs, x.2.Succeeds)
    (hnames : (addedNames xs ++ pciNames ports n).Nodup)
    (hmany : n + (addedNames xs).length ≤ rteMaxEthports) :
    Always (fun s x => (handle x.2 s x.1).goesOn) (State.init ports) xs ∧
      madePorts (State.init ports) xs =
        (List.range (addedNames xs).length).map (fun j => ((n + j : Nat) : Int)) ∧
      ∀ {σ μ π : Type} (b : Bursts σ μ) (pool : μ → π) (st : σ × (Nat → Option μ)),
        ∃ visits st', forward b pool ((State.init ports).run xs).portsFwdArray st = some (visits, st') ∧
          MadeBy b visits st.1 st'.1 ∧
          ∀ (p : Fin rteMaxEthports) (q : Int), (∃ v ∈ visits, v.inPort = p ∧ v.outPort = q) ↔
            lastPatch p (xs.map Prod.fst).reverse = some q := by
  have hnum : Numbered (State.init ports).ports n (pciNames ports n) := by
    refine ⟨hports.filled, fun i hi => List.mem_map.2 ⟨i, ?_, rfl⟩⟩
    simpa using (hports.filled i).1 hi
  obtain ⟨hmade, hgo⟩ := madePorts_eq hxs ho hnum hnames hmany
  have htable := (patched_init ports).run hxs
  rw [List.append_nil] at htable
  exact ⟨hgo, hmade, fun b pool st => htable.sweep b pool st⟩

/-! ### Two PCI ports and a ring -/

/-- Two PCI ports. -/
def twoPci : Ports where
  devs := fun i =>
    if (i : Nat) = 0 then ⟨true, "2:0.0".toList, .pci⟩ else if (i : Nat) = 1 then ⟨true, "2:0.1".toList, .pci⟩ else {}

private theorem twoPci_pciPorts : PciPorts twoPci 2 := ⟨by decide, by unfold Filled; decide, by decide⟩

/-- A ring between the two ports, after a patch that is reset. -/
def ringScript : List Input :=
  [(.patch 0 1, {}), (.patchReset, {}), (.addRing 0, {}), (.addVhost 1, {}), (.patch 0 2, {}), (.patch 2 1, {}),
    (.forward, {})]

theorem ringScript_meaning :
    madePorts (State.init twoPci) ringScript = [2, 3] ∧
      ∃ visits st', forward twoBursts (fun m => m % 2) ((State.init twoPci).run ringScript).portsFwdArray
          ((), fun _ => none) = some (visits, st') ∧ MadeBy twoBursts visits () st'.1 ∧
        (∃ v ∈ visits, v.inPort = 0 ∧ v.outPort = 2) ∧ ¬∃ v ∈ visits, v.inPort = 0 ∧ v.outPort = 1 := by
  have hgood : ∀ x ∈ ringScript, x.2.Succeeds := by
    have : (({} : Outcome)).Succeeds := ⟨rfl, rfl, fun _ => rfl, by decide⟩
    simpa [ringScript] using this
  have hscript : ∀ x ∈ ringScript, x.1.InScript := by simp [ringScript, Command.InScript]
  obtain ⟨-, hmade, hrun⟩ := script_meaning twoPci_pciPorts hscript hgood (by decide +kernel) (by decide)
  obtain ⟨visits, st', hvisits, hbursts, hiff⟩ := hrun twoBursts (fun m => m % 2) ((), fun _ => none)
  refine ⟨hmade, visits, st', hvisits, hbursts, (hiff 0 2).2 rfl, fun h => ?_⟩
  exact absurd ((hiff 0 1).1 h) (by decide)

end SoftPatchPanel.Secondary

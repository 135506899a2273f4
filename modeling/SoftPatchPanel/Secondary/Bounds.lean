import SoftPatchPanel.Secondary.Commands

/-!
# Accesses outside the tables

No handler checks an index before it uses it.  `RoomFor` and `SafeCommand` say when a command stays inside the tables
all the same: a patch needs port numbers inside the table, an `add` of a ring or vhost port needs the making of the
port to succeed, and the commands for the queue tables need a saved position inside them.  These conditions are exact,
command by command and so along every run (`stays_inside_iff`).  A failed `add` never changes the forwarding table.
-/

namespace SoftPatchPanel.Secondary

open Lib EthDev

/-- The access is inside its table. -/
def Op.Inside (op : Op) : Prop := ∀ i, op.index = some i → 0 ≤ i ∧ i < rteMaxEthports

/-- What making the port of an `add` returned, for the commands that store it in the forwarding table. -/
def madeId (s : State) (x : Input) : Option Int :=
  match x.1 with
  | .addVhost index => if x.2.mempool then some (makeVhost x.2 s.ports index).1 else none
  | .addRing ringId => if x.2.ring then some (rteEthFromRings x.2.alloc s.ports (addRingName ringId)).1 else none
  | _ => none

/-- All accesses of the command are inside the tables, and the forwarding table is as before if no port was made. -/
def StaysInside (s : State) (x : Input) : Prop :=
  (∀ op ∈ (handle x.2 s x.1).ops, op.Inside) ∧
    ∀ id, madeId s x = some id → id < 0 → (s.step x).portsFwdArray = s.portsFwdArray

/-- There is room for a device called `name`: a free slot, and no device of that name. -/
def RoomFor (devs : DevTable) (name : CStr) : Prop :=
  (∃ i, (devs i).attached = false) ∧ ∀ i, (devs i).attached → (devs i).name ≠ name

/-- The condition under which a command stays inside the tables, on the state it meets and what its calls return. -/
def SafeCommand (s : State) (x : Input) : Prop :=
  match x.1 with
  | .patch inPort outPort => (0 ≤ inPort ∧ inPort < rteMaxEthports) ∧ 0 ≤ outPort ∧ outPort < rteMaxEthports
  | .addVhost index => x.2.mempool → RoomFor s.ports.devs (getVhostBackendName (UInt32.ofInt index).toNat) ∧
      (∀ i < 8, x.2.alloc i) ∧ 0 ≤ x.2.register
  | .addRing ringId => x.2.ring → RoomFor s.ports.devs (addRingName ringId) ∧ ∀ i < 4, x.2.alloc i
  | .addRxRing _ | .addRx _ | .addTxRing _ | .addTx _ | .delRx _ | .delTx _ => s.savePos.toNat < rteMaxEthports
  | _ => True

/-! ### Making a port -/

private theorem rteEthDevAllocate_isSome {devs : DevTable} {name : CStr} (devType : DevType) :
    (rteEthDevAllocate devs name devType).isSome ↔ RoomFor devs name := by
  unfold rteEthDevAllocate RoomFor
  rw [← rteEthDevAllocated_eq_none]
  cases hfree : rteEthDevFindFreePort devs with
  | none =>
    have := List.find?_eq_none.1 hfree
    simp only [List.mem_finRange, decide_eq_true_eq, forall_const] at this
    simp [this]
  | some p =>
    have hp := (rteEthDevFindFreePort_eq_some.1 hfree).1
    cases rteEthDevAllocated devs name with
    | none => simpa using ⟨p, hp⟩
    | some q => simp

private theorem forall_lt_four (f : Nat → Bool) : (∀ i < 4, f i) ↔ f 0 ∧ f 1 ∧ f 2 ∧ f 3 := by
  constructor
  · intro h
    exact ⟨h 0 (by decide), h 1 (by decide), h 2 (by decide), h 3 (by decide)⟩
  · rintro ⟨h0, h1, h2, h3⟩ i hi
    match i, hi with
    | 0, _ => exact h0
    | 1, _ => exact h1
    | 2, _ => exact h2
    | 3, _ => exact h3

private theorem forall_lt_eight (f : Nat → Bool) :
    (∀ i < 8, f i) ↔ (f 0 ∧ f 1 ∧ f 2 ∧ f 3 ∧ f 4 ∧ f 5) ∧ f 6 ∧ f 7 := by
  constructor
  · intro h
    exact ⟨⟨h 0 (by decide), h 1 (by decide), h 2 (by decide), h 3 (by decide), h 4 (by decide), h 5 (by decide)⟩,
      h 6 (by decide), h 7 (by decide)⟩
  · rintro ⟨⟨h0, h1, h2, h3, h4, h5⟩, h6, h7⟩ i hi
    match i, hi with
    | 0, _ => exact h0
    | 1, _ => exact h1
    | 2, _ => exact h2
    | 3, _ => exact h3
    | 4, _ => exact h4
    | 5, _ => exact h5
    | 6, _ => exact h6
    | 7, _ => exact h7

private theorem rteEthFromRings_fst (alloc : Nat → Bool) (ports : Ports) (name : CStr) :
    (rteEthFromRings alloc ports name).1 = -1 ∧ ¬(RoomFor ports.devs name ∧ ∀ i < 4, alloc i) ∨
      (∃ p : Fin rteMaxEthports, (rteEthFromRings alloc ports name).1 = p) ∧ RoomFor ports.devs name ∧
        ∀ i < 4, alloc i := by
  rw [forall_lt_four, ← rteEthDevAllocate_isSome .virtual]
  unfold rteEthFromRings
  by_cases ha : alloc 0 ∧ alloc 1 ∧ alloc 2 ∧ alloc 3
  · rw [ite_cond_eq_true _ _ (eq_true ha)]
    cases hdev : rteEthDevAllocate ports.devs name .virtual with
    | none => simp
    | some r => exact Or.inr ⟨⟨r.1, rfl⟩, rfl, ha⟩
  · rw [ite_cond_eq_false _ _ (eq_false ha)]
    exact Or.inl ⟨rfl, fun h => ha h.2⟩

private theorem rteEthFromVhost_fst (alloc : Nat → Bool) (register : Int) (ports : Ports) (name ifaceName : CStr) :
    (rteEthFromVhost alloc register ports name ifaceName).1 < 0 ∧
        ¬(RoomFor ports.devs name ∧ (∀ i < 8, alloc i) ∧ 0 ≤ register) ∨
      (∃ p : Fin rteMaxEthports, (rteEthFromVhost alloc register ports name ifaceName).1 = p) ∧
        RoomFor ports.devs name ∧ (∀ i < 8, alloc i) ∧ 0 ≤ register := by
  rw [forall_lt_eight, ← rteEthDevAllocate_isSome .virtual]
  unfold rteEthFromVhost rteEthFromVhostCreate
  by_cases ha : alloc 0 ∧ alloc 1 ∧ alloc 2 ∧ alloc 3 ∧ alloc 4 ∧ alloc 5
  · rw [ite_cond_eq_true _ _ (eq_true ha)]
    cases hdev : rteEthDevAllocate ports.devs name .virtual with
    | none => simp
    | some r =>
      by_cases hdup : alloc 6 ∧ alloc 7
      · by_cases hreg : register < 0
        · left
          refine ⟨by simp [hdup, hreg], fun h => ?_⟩
          have := h.2.2
          omega
        · right
          refine ⟨⟨r.1, by simp [hdup, hreg]⟩, rfl, ⟨ha, hdup⟩, by omega⟩
      · left
        refine ⟨by simp [hdup], fun h => hdup h.2.1.2⟩
  · left
    rw [ite_cond_eq_false _ _ (eq_false ha)]
    exact ⟨by simp, fun h => ha h.2.1.1⟩

/-! ### Command by command -/

section

variable {s : State} {o : Outcome}

private theorem inside_iff {op : Op} {i : Int} (h : op.index = some i) :
    op.Inside ↔ 0 ≤ i ∧ i < rteMaxEthports := by
  simp [Op.Inside, h]

private theorem inside_of_index_eq_none {op : Op} (h : op.index = none) : op.Inside := by
  simp [Op.Inside, h]

private theorem addedPort_inside (p : Ports) (id : Int) (t : PortType) :
    (∀ op ∈ Op.ports p :: addedPort id t, op.Inside) ↔ 0 ≤ id ∧ id < rteMaxEthports := by
  simp [addedPort, Op.Inside, Op.index]

private theorem exec_addedPort_outside (p : Ports) {id : Int} (hid : ¬(0 ≤ id ∧ id < rteMaxEthports))
    (t : PortType) : (s.exec (.ports p :: addedPort id t)).portsFwdArray = s.portsFwdArray := by
  rw [exec_addedPort]
  funext j
  have hj : ¬(j : Int) = id := by
    have := j.isLt
    omega
  simp [hj]

private theorem addQueueRing_inside {ringId : Int} {rings queues : Numbers} {func : Int → Op}
    (hfunc : ∀ i, (func i).index = some i) :
    (∀ op ∈ (addQueueRing o s ringId rings queues func).ops, op.Inside) ↔ s.savePos.toNat < rteMaxEthports := by
  have hports : ∀ p, (Op.ports p).Inside := fun p => inside_of_index_eq_none rfl
  have hread : ∀ t, (Op.readNumber t s.savePos.toNat).Inside ↔ s.savePos.toNat < rteMaxEthports :=
    fun t => (inside_iff rfl).trans (by omega)
  have hstore : ∀ t v, (Op.number t s.savePos.toNat v).Inside ↔ s.savePos.toNat < rteMaxEthports :=
    fun t v => (inside_iff rfl).trans (by omega)
  have hset : (func s.savePos.toNat).Inside ↔ s.savePos.toNat < rteMaxEthports :=
    (inside_iff (hfunc _)).trans (by omega)
  unfold addQueueRing
  split <;> simp [hports, hread, hstore, hset]

/-- The forwarding table after an `add` whose port could not be made. -/
private theorem step_of_madeId_neg {x : Input} {id : Int} (h : madeId s x = some id) (hneg : id < 0) :
    (s.step x).portsFwdArray = s.portsFwdArray := by
  obtain ⟨c, o⟩ := x
  cases c with
  | addVhost index =>
    simp only [madeId] at h
    split at h
    · rename_i hmp
      cases h
      simp only [State.step, handle, hmp, ↓reduceIte]
      exact exec_addedPort_outside _ (by omega) _
    · cases h
  | addRing ringId =>
    simp only [madeId] at h
    split at h
    · rename_i hring
      cases h
      rcases rteEthFromRings_fst o.alloc s.ports (addRingName ringId) with ⟨hminus, -⟩ | ⟨⟨p, hp⟩, -⟩
      · simp only [State.step, handle, hring, ↓reduceIte]
        refine exec_addedPort_outside _ ?_ _
        rw [makeRing]
        simp only [hminus]
        decide
      · omega
    · cases h
  | _ => simp [madeId] at h

/-- A command stays inside the tables exactly under its condition. -/
private theorem staysInside_iff_safeCommand (s : State) (x : Input) : StaysInside s x ↔ SafeCommand s x := by
  unfold StaysInside
  rw [and_iff_left (fun id => step_of_madeId_neg)]
  obtain ⟨c, o⟩ := x
  have hslot : ∀ i : Fin rteMaxEthports, 0 ≤ (i : Int) ∧ (i : Int) < rteMaxEthports := by
    intro i
    have := i.isLt
    omega
  cases c with
  | status =>
    simp only [handle, SafeCommand, iff_true]
    intro op hop
    obtain ⟨i, -, rfl⟩ := List.mem_map.1 hop
    exact (inside_iff rfl).2 (hslot i)
  | patchReset =>
    simp only [handle, SafeCommand, iff_true]
    intro op hop
    obtain ⟨i, -, hi⟩ := List.mem_flatMap.1 hop
    have hidx : op.index = some (i : Int) := by
      rcases List.mem_cons.1 hi with rfl | hi
      · rfl
      · split at hi
        · rcases List.mem_cons.1 hi with rfl | hi
          · rfl
          · rw [List.mem_singleton.1 hi]; rfl
        · cases hi
    exact (inside_iff hidx).2 (hslot i)
  | patch inPort outPort =>
    simp only [handle, SafeCommand, List.forall_mem_cons, List.not_mem_nil, false_implies, implies_true, and_true,
      Op.Inside, Op.index, Option.some.injEq, forall_eq']
    tauto
  | addVhost index =>
    simp only [handle, SafeCommand]
    by_cases hmp : o.mempool
    · simp only [hmp, ↓reduceIte, forall_const]
      rw [addedPort_inside]
      rcases rteEthFromVhost_fst o.alloc o.register s.ports (getVhostBackendName (UInt32.ofInt index).toNat)
        (getVhostIfaceName (UInt32.ofInt index).toNat) with ⟨hneg, hno⟩ | ⟨⟨p, hp⟩, hyes⟩
      · exact ⟨fun h => absurd h.1 (by rw [makeVhost]; omega), fun h => absurd h hno⟩
      · rw [makeVhost, hp]
        exact ⟨fun _ => hyes, fun _ => hslot p⟩
    · simp [hmp]
  | addRing ringId =>
    simp only [handle, SafeCommand]
    by_cases hring : o.ring
    · simp only [hring, ↓reduceIte, forall_const]
      rw [addedPort_inside]
      rcases rteEthFromRings_fst o.alloc s.ports (addRingName ringId) with ⟨hneg, hno⟩ | ⟨⟨p, hp⟩, hyes⟩
      · -- the 16-bit value of `-1`
        refine ⟨fun h => ?_, fun h => absurd h hno⟩
        simp only [makeRing, hneg] at h
        exact absurd h (by decide)
      · have hmax : rteMaxEthports = 32 := rfl
        have hmod : (p : Int) % 65536 = p := Int.emod_eq_of_lt (hslot p).1 (by have := p.isLt; omega)
        simp only [makeRing, hp, hmod]
        exact ⟨fun _ => hyes, fun _ => hslot p⟩
    · simp [hring]
  | addRxRing ringId => exact addQueueRing_inside (fun _ => rfl)
  | addTxRing ringId => exact addQueueRing_inside (fun _ => rfl)
  | addRx port | addTx port | delRx port | delTx port =>
    simp [handle, SafeCommand, Op.Inside, Op.index]
  | save pos =>
    simp only [handle, SafeCommand, iff_true]
    split
    · simp
    · simp [Op.Inside, Op.index]
  | exit | start | stop | forward | exec _ => simp [handle, SafeCommand, Op.Inside, Op.index]

end

/-! ### Along a run -/

/-- In a run from the start every command stays inside the tables, and every failed `add` leaves the forwarding table
alone, exactly when every command meets its condition. -/
theorem stays_inside_iff (ports : Ports) (xs : List Input) :
    Always StaysInside (State.init ports) xs ↔ Always SafeCommand (State.init ports) xs :=
  Always.congr staysInside_iff_safeCommand _ _

/-- Adding a ring twice writes slot 65535. -/
theorem addRing_twice_outside :
    ¬Always StaysInside (State.init { devs := fun _ => {} }) [(.addRing 0, {}), (.addRing 0, {})] := by
  intro h
  have hfirst := (h.2 rfl).1.1
  generalize hs : (State.init { devs := fun _ => {} }).step (.addRing 0, {}) = s at hfirst
  have hid : (makeRing {} s.ports 0).1 = 65535 := by
    rw [← hs]
    decide +kernel
  have hin := hfirst (.status (makeRing {} s.ports 0).1 (makeRing {} s.ports 0).1) (by simp [handle, addedPort])
  have := (hin _ rfl).2
  rw [hid] at this
  exact absurd this (by decide)

end SoftPatchPanel.Secondary

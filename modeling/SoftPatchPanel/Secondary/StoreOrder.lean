import SoftPatchPanel.Secondary.Commands

/-!
# The forwarding table between two stores

The forwarding lcores read the table while a handler is at work.  What they need is that an active slot has its
functions (`CallSafe`), after every single store.  Every store but one keeps this up by itself.  The exception is the
store of `out_port_id` in `patch a b`: at that moment the functions of slot `b` are set only if an earlier patch had
set them, or if `b` is `a`.  So the table is safe all the time exactly when every patch leads to its own input or to a
port that occurred in a patch before (`callSafe_iff_knownOutputs`).
-/

namespace SoftPatchPanel.Secondary

open EthDev

/-- `forward` calls no NULL function: where a slot is in use and patched to `q`, it can be polled and `q` can
transmit. -/
def CallSafe (fwd : Slots Port) : Prop :=
  ∀ p q : Fin rteMaxEthports, 0 ≤ (fwd p).status → (fwd p).outPortId = q →
    (fwd p).rxFunc ≠ none ∧ (fwd q).txFunc ≠ none

/-- The table is safe after each access of a command, and before the first. -/
def SafeThroughout (s : State) (x : Input) : Prop :=
  ∀ k, CallSafe (s.exec ((handle x.2 s x.1).ops.take k)).portsFwdArray

/-- The command patches port `b`, as input or as output. -/
def Command.Patches (b : Int) : Command → Prop
  | .patch inPort outPort => inPort = b ∨ outPort = b
  | _ => False

/-- The ports of a patch are inside the table. -/
def Command.InRange (c : Command) : Prop :=
  ∀ inPort outPort, c = .patch inPort outPort →
    (0 ≤ inPort ∧ inPort < rteMaxEthports) ∧ 0 ≤ outPort ∧ outPort < rteMaxEthports

/-- Each patch of the sequence, up to the command that ends the process, leads to its own input or to a port that was
patched before. -/
def KnownOutputs : List Command → State → List Input → Prop
  | _, _, [] => True
  | earlier, s, x :: xs =>
    (∀ inPort outPort, x.1 = .patch inPort outPort → outPort = inPort ∨ ∃ c ∈ earlier, c.Patches outPort) ∧
      ((handle x.2 s x.1).goesOn → KnownOutputs (x.1 :: earlier) (s.step x) xs)

/-! ### Stores that keep the table safe -/

/-- A patched slot can be polled, in use or not. -/
def RxSound (fwd : Slots Port) : Prop := ∀ p, 0 ≤ (fwd p).outPortId → (fwd p).rxFunc ≠ none

/-- The port that a slot is patched to can transmit. -/
def TxSound (fwd : Slots Port) : Prop := ∀ p q : Fin rteMaxEthports, (fwd p).outPortId = q → (fwd q).txFunc ≠ none

private theorem callSafe_of_sound {fwd : Slots Port} (hrx : RxSound fwd) (htx : TxSound fwd) : CallSafe fwd :=
  fun p q _ hq => ⟨hrx p (by omega), htx p q hq⟩

/-- The access patches no slot to a port. -/
def Op.Harmless : Op → Prop
  | .outPortId _ v => v < 0
  | _ => True

/-- The access neither patches a slot nor sets one of the functions, and a slot it writes the status of is then in
use. -/
def Op.Quiet : Op → Prop
  | .outPortId _ v => v < 0
  | .status i v => v = i
  | .rxFunc _ | .txFunc _ => False
  | _ => True

private theorem Op.Quiet.harmless {op : Op} (h : op.Quiet) : op.Harmless := by
  cases op <;> first | exact h | trivial

/-- From one table to the next a slot is not newly patched and loses no function. -/
structure Port.Kept (p p' : Port) : Prop where
  out : 0 ≤ p'.outPortId → p'.outPortId = p.outPortId
  rx : p.rxFunc ≠ none → p'.rxFunc ≠ none
  tx : p.txFunc ≠ none → p'.txFunc ≠ none

private theorem Port.Kept.refl (p : Port) : p.Kept p := ⟨fun _ => rfl, id, id⟩

private theorem Port.Kept.trans {p p' p'' : Port} (h : p.Kept p') (h' : p'.Kept p'') : p.Kept p'' := by
  refine ⟨fun hout => ?_, fun hrx => h'.rx (h.rx hrx), fun htx => h'.tx (h.tx htx)⟩
  have heq := h'.out hout
  rw [heq, h.out (heq ▸ hout)]

private theorem RxSound.of_kept {fwd fwd' : Slots Port} (h : RxSound fwd) (hkept : ∀ j, (fwd j).Kept (fwd' j)) :
    RxSound fwd' := by
  intro p hp
  refine (hkept p).rx (h p ?_)
  rwa [← (hkept p).out hp]

private theorem TxSound.of_kept {fwd fwd' : Slots Port} (h : TxSound fwd) (hkept : ∀ j, (fwd j).Kept (fwd' j)) :
    TxSound fwd' := by
  intro p q hq
  refine (hkept q).tx (h p q ?_)
  rw [← (hkept p).out (by omega), hq]

section

variable {s : State}

private theorem setAt_kept {f : Port → Port} (hf : ∀ p : Port, p.Kept (f p)) (fwd : Slots Port) (i : Int)
    (j : Fin rteMaxEthports) : (fwd j).Kept (setAt fwd i f j) := by
  unfold setAt
  split
  · exact hf _
  · exact Port.Kept.refl _

private theorem Op.exec_kept {op : Op} (hop : op.Harmless) (j : Fin rteMaxEthports) :
    (s.portsFwdArray j).Kept ((Op.exec s op).portsFwdArray j) := by
  cases op with
  | status i v => exact setAt_kept (f := ({ · with status := v })) (fun _ => ⟨fun _ => rfl, id, id⟩) _ i j
  | type i t => exact setAt_kept (f := ({ · with type := t })) (fun _ => ⟨fun _ => rfl, id, id⟩) _ i j
  | rxFunc i =>
    exact setAt_kept (f := ({ · with rxFunc := some .rteEthRxBurst }))
      (fun _ => ⟨fun _ => rfl, fun _ => Option.some_ne_none _, id⟩) _ i j
  | txFunc i =>
    exact setAt_kept (f := ({ · with txFunc := some .rteEthTxBurst }))
      (fun _ => ⟨fun _ => rfl, id, fun _ => Option.some_ne_none _⟩) _ i j
  | outPortId i v =>
    have hneg : v < 0 := hop
    refine setAt_kept (f := ({ · with outPortId := v })) (fun _ => ⟨fun hv => ?_, id, id⟩) _ i j
    exact absurd hv (by simpa using hneg)
  | number t i v => cases t <;> exact Port.Kept.refl _
  | _ => exact Port.Kept.refl _

private theorem State.exec_kept {ops : List Op} (hops : ∀ op ∈ ops, op.Harmless) (j : Fin rteMaxEthports) :
    (s.portsFwdArray j).Kept ((s.exec ops).portsFwdArray j) := by
  induction ops generalizing s with
  | nil => exact Port.Kept.refl _
  | cons op ops ih =>
    have hfirst := Op.exec_kept (s := s) (hops op List.mem_cons_self) j
    exact hfirst.trans (ih (fun a ha => hops a (List.mem_cons_of_mem _ ha)))

private theorem RxSound.exec {ops : List Op} (h : RxSound s.portsFwdArray) (hops : ∀ op ∈ ops, op.Harmless) :
    RxSound (s.exec ops).portsFwdArray := h.of_kept (State.exec_kept hops)

private theorem TxSound.exec {ops : List Op} (h : TxSound s.portsFwdArray) (hops : ∀ op ∈ ops, op.Harmless) :
    TxSound (s.exec ops).portsFwdArray := h.of_kept (State.exec_kept hops)

private theorem RxSound.outPortId {fwd : Slots Port} (h : RxSound fwd) (i v : Int)
    (hset : ∀ p : Fin rteMaxEthports, (p : Int) = i → 0 ≤ v → (fwd p).rxFunc ≠ none) :
    RxSound (setAt fwd i ({ · with outPortId := v })) := by
  intro p hp
  by_cases hpi : (p : Int) = i
  · simp only [setAt, hpi, ↓reduceIte] at hp ⊢
    exact hset p hpi hp
  · rw [setAt_of_ne _ _ hpi] at hp ⊢
    exact h p hp

private theorem TxSound.outPortId {fwd : Slots Port} (h : TxSound fwd) (i v : Int)
    (hset : ∀ q : Fin rteMaxEthports, (q : Int) = v → (fwd q).txFunc ≠ none) :
    TxSound (setAt fwd i ({ · with outPortId := v })) := by
  intro p q hq
  have htx : (setAt fwd i ({ · with outPortId := v }) q).txFunc = (fwd q).txFunc := by
    unfold setAt
    split <;> rfl
  rw [htx]
  by_cases hpi : (p : Int) = i
  · simp only [setAt, hpi, ↓reduceIte] at hq
    exact hset q hq.symm
  · rw [setAt_of_ne _ _ hpi] at hq
    exact h p q hq

private theorem exec_op_txFunc {op : Op} (hop : op.Quiet) (j : Fin rteMaxEthports) :
    ((Op.exec s op).portsFwdArray j).txFunc = (s.portsFwdArray j).txFunc := by
  cases op with
  | status i v | type i t | outPortId i v => simp only [Op.exec, setAt]; split <;> rfl
  | rxFunc i | txFunc i => exact absurd hop id
  | number t i v => cases t <;> rfl
  | _ => rfl

private theorem exec_txFunc {ops : List Op} (hops : ∀ op ∈ ops, op.Quiet) (j : Fin rteMaxEthports) :
    ((s.exec ops).portsFwdArray j).txFunc = (s.portsFwdArray j).txFunc := by
  induction ops generalizing s with
  | nil => rfl
  | cons op ops ih =>
    rw [State.exec_cons, ih (fun a ha => hops a (by simp [ha])), exec_op_txFunc (hops op (by simp))]

private theorem handle_quiet {o : Outcome} {c : Command} (hc : ∀ a b, c ≠ .patch a b) :
    ∀ op ∈ (handle o s c).ops, op.Quiet := by
  cases c with
  | patch a b => exact absurd rfl (hc a b)
  | patchReset =>
    intro op hop
    simp only [handle, List.mem_flatMap] at hop
    obtain ⟨i, -, hi⟩ := hop
    rcases List.mem_cons.1 hi with rfl | hi
    · trivial
    · split at hi
      · rcases List.mem_cons.1 hi with rfl | hi
        · show (-99 : Int) < 0
          decide
        · rw [List.mem_singleton.1 hi]; trivial
      · cases hi
  | status =>
    intro op hop
    obtain ⟨i, -, rfl⟩ := List.mem_map.1 hop
    trivial
  | addVhost index =>
    simp only [handle]
    split <;> simp [addedPort, Op.Quiet]
  | addRing ringId =>
    simp only [handle]
    split <;> simp [addedPort, Op.Quiet]
  | addRxRing ringId | addTxRing ringId =>
    simp only [handle, addQueueRing]
    split <;> simp [Op.Quiet]
  | save pos =>
    simp only [handle]
    split <;> simp [Op.Quiet]
  | _ => simp [handle, Op.Quiet]

theorem patch_or_quiet (s : State) (x : Input) :
    (∃ a b, x.1 = .patch a b) ∨ ∀ op ∈ (handle x.2 s x.1).ops, op.Quiet := by
  by_cases hc : ∃ a b, x.1 = .patch a b
  · exact Or.inl hc
  · exact Or.inr (handle_quiet fun a b h => hc ⟨a, b, h⟩)

/-! ### The handler of `patch` -/

variable {o : Outcome} {a b : Int}

/-- The stores of `patch` up to the functions of the input. -/
private def patchFirst (a : Int) : List Op := [.status a a, .rxFunc a, .txFunc a]

/-- The accesses of `patch` behind the store of the output. -/
private def patchLast (a b : Int) : List Op :=
  [.status b b, .rxFunc b, .txFunc b, .readPort a, .readPort a, .readPort b]

private theorem handle_patch : (handle o s (.patch a b)).ops = patchFirst a ++ .outPortId a b :: patchLast a b := rfl

private theorem exec_patchFirst (j : Fin rteMaxEthports) :
    (s.exec (patchFirst a)).portsFwdArray j = { s.portsFwdArray j with
      status := if (j : Int) = a then a else (s.portsFwdArray j).status
      rxFunc := if (j : Int) = a then some .rteEthRxBurst else (s.portsFwdArray j).rxFunc
      txFunc := if (j : Int) = a then some .rteEthTxBurst else (s.portsFwdArray j).txFunc } := by
  simp only [patchFirst, State.exec_cons, State.exec_nil, Op.exec, setAt]
  rcases Classical.propComplete ((j : Int) = a) with h | h <;> simp [h]

/-- Where the handler of `patch` is after `k` accesses: still before the store of the output, or behind it. -/
private theorem exec_take_patch (k : Nat) :
    (∃ ops, (∀ op ∈ ops, op.Harmless) ∧ (handle o s (.patch a b)).ops.take k = ops) ∨
      ∃ ops, (∀ op ∈ ops, op.Harmless) ∧
        (handle o s (.patch a b)).ops.take k = patchFirst a ++ .outPortId a b :: ops := by
  have hfirst : ∀ op ∈ patchFirst a, op.Harmless := by simp [patchFirst, Op.Harmless]
  have hlast : ∀ op ∈ patchLast a b, op.Harmless := by simp [patchLast, Op.Harmless]
  rw [handle_patch, List.take_append, show (patchFirst a).length = 3 from rfl]
  rcases Nat.lt_or_ge 3 k with hk | hk
  · right
    obtain ⟨m, rfl⟩ : ∃ m, k = 3 + (m + 1) := ⟨k - 4, by omega⟩
    refine ⟨(patchLast a b).take m, fun op hop => hlast op (List.mem_of_mem_take hop), ?_⟩
    rw [Nat.add_sub_cancel_left, List.take_succ_cons,
      List.take_of_length_le (show (patchFirst a).length ≤ 3 + (m + 1) by simp [patchFirst])]
  · left
    rw [Nat.sub_eq_zero_of_le hk, List.take_zero, List.append_nil]
    exact ⟨_, fun op hop => hfirst op (List.mem_of_mem_take hop), rfl⟩

/-- A patch sets the function of its input first. -/
private theorem RxSound.patch (h : RxSound s.portsFwdArray) (k : Nat) :
    RxSound (s.exec ((handle o s (.patch a b)).ops.take k)).portsFwdArray := by
  rcases exec_take_patch (s := s) (o := o) (a := a) (b := b) k with ⟨ops, hops, htake⟩ | ⟨ops, hops, htake⟩
  · rw [htake]
    exact h.exec hops
  · rw [htake, State.exec_append, State.exec_cons]
    refine RxSound.exec (RxSound.outPortId ?_ a b fun p hp _ => ?_) hops
    · exact h.exec (by simp [patchFirst, Op.Harmless])
    · rw [exec_patchFirst]
      simp [hp]

/-- A patch whose output has its function already. -/
private theorem TxSound.patch (h : TxSound s.portsFwdArray)
    (hb : ∀ q : Fin rteMaxEthports, (q : Int) = b → b = a ∨ (s.portsFwdArray q).txFunc ≠ none) (k : Nat) :
    TxSound (s.exec ((handle o s (.patch a b)).ops.take k)).portsFwdArray := by
  rcases exec_take_patch (s := s) (o := o) (a := a) (b := b) k with ⟨ops, hops, htake⟩ | ⟨ops, hops, htake⟩
  · rw [htake]
    exact h.exec hops
  · rw [htake, State.exec_append, State.exec_cons]
    refine TxSound.exec (TxSound.outPortId ?_ a b fun q hq => ?_) hops
    · exact h.exec (by simp [patchFirst, Op.Harmless])
    · rw [exec_patchFirst]
      by_cases hqa : (q : Int) = a
      · simp [hqa]
      · rcases hb q hq with rfl | htx
        · exact absurd hq hqa
        · simpa [hqa] using htx

/-- Whatever command is at work, a patched slot can be polled. -/
theorem RxSound.take (h : RxSound s.portsFwdArray) (x : Input) (k : Nat) :
    RxSound (s.exec ((handle x.2 s x.1).ops.take k)).portsFwdArray := by
  rcases patch_or_quiet s x with ⟨a, b, hc⟩ | hquiet
  · rw [hc]
    exact h.patch k
  · exact h.exec (fun op hop => (hquiet op (List.mem_of_mem_take hop)).harmless)

theorem RxSound.step (h : RxSound s.portsFwdArray) (x : Input) : RxSound (s.step x).portsFwdArray := by
  have := h.take x (handle x.2 s x.1).ops.length
  rwa [List.take_length] at this

theorem rxSound_init (ports : Ports) : RxSound (State.init ports).portsFwdArray := by
  intro p hp
  have : ((State.init ports).portsFwdArray p).outPortId = -99 := by
    simp only [State.init]; split <;> rfl
  omega

/-- One command that leads to a known port keeps the outputs able to transmit. -/
private theorem TxSound.take {x : Input} (h : TxSound s.portsFwdArray)
    (hx : ∀ a b, x.1 = .patch a b → ∀ q : Fin rteMaxEthports, (q : Int) = b →
      b = a ∨ (s.portsFwdArray q).txFunc ≠ none) (k : Nat) :
    TxSound (s.exec ((handle x.2 s x.1).ops.take k)).portsFwdArray := by
  rcases patch_or_quiet s x with ⟨a, b, hc⟩ | hquiet
  · rw [hc]
    exact h.patch (hx a b hc) k
  · exact h.exec (fun op hop => (hquiet op (List.mem_of_mem_take hop)).harmless)

/-- A patch whose output has no function yet is seen half done. -/
private theorem not_safe_of_patch {p q : Fin rteMaxEthports} (hp : (p : Int) = a) (hq : (q : Int) = b) (hab : b ≠ a)
    (htx : (s.portsFwdArray q).txFunc = none) : ¬SafeThroughout s (.patch a b, o) := by
  intro h
  have h4 := h 4 p q
  have hops : (handle o s (.patch a b)).ops.take 4 = patchFirst a ++ [.outPortId a b] := rfl
  have hqa : (q : Int) ≠ a := by rw [hq]; exact hab
  rw [hops, State.exec_append, State.exec_cons, State.exec_nil] at h4
  simp only [Op.exec, ← hp, setAt_self] at h4
  rw [setAt_of_ne _ _ (by rw [hp]; exact hqa), exec_patchFirst, exec_patchFirst] at h4
  simp [hp, hqa, htx, ← hq] at h4
  omega

/-! ### Along a run -/

/-- The functions of exactly those ports are set that occurred in a patch. -/
private def Functions (fwd : Slots Port) (earlier : List Command) : Prop :=
  ∀ j : Fin rteMaxEthports, (fwd j).txFunc ≠ none ↔ ∃ c ∈ earlier, c.Patches j

private theorem Functions.step {earlier : List Command} (h : Functions s.portsFwdArray earlier) (x : Input) :
    Functions (s.step x).portsFwdArray (x.1 :: earlier) := by
  intro j
  obtain ⟨c, o⟩ := x
  by_cases hc : ∃ a b, c = .patch a b
  · obtain ⟨a, b, rfl⟩ := hc
    rw [step_patch]
    have hpatches : (Command.patch a b).Patches j ↔ a = j ∨ b = j := Iff.rfl
    simp only [List.mem_cons, exists_eq_or_imp, ← h j, hpatches]
    by_cases hja : (j : Int) = b ∨ (j : Int) = a
    · simp only [hja, ↓reduceIte, ne_eq, reduceCtorEq, not_false_eq_true, true_iff]
      rcases hja with h | h
      · exact Or.inl (Or.inr h.symm)
      · exact Or.inl (Or.inl h.symm)
    · simp only [hja, ↓reduceIte]
      refine ⟨Or.inr, fun hor => ?_⟩
      rcases hor with (h | h) | h
      · exact absurd (Or.inr h.symm) hja
      · exact absurd (Or.inl h.symm) hja
      · exact h
  · have hquiet := handle_quiet (s := s) (o := o) (c := c) (fun a b h => hc ⟨a, b, h⟩)
    rw [State.step, exec_txFunc hquiet, h j]
    have hno : ¬c.Patches j := by
      cases c with
      | patch a b => exact absurd ⟨a, b, rfl⟩ hc
      | _ => exact id
    simp only [List.mem_cons, exists_eq_or_imp, hno, false_or]

private theorem Functions.known {earlier : List Command} (hf : Functions s.portsFwdArray earlier) {x : Input}
    (hx : ∀ a b, x.1 = .patch a b → b = a ∨ ∃ c ∈ earlier, c.Patches b) :
    ∀ a b, x.1 = .patch a b → ∀ q : Fin rteMaxEthports, (q : Int) = b →
      b = a ∨ (s.portsFwdArray q).txFunc ≠ none := by
  intro a b heq q hq
  rcases hx a b heq with h | h
  · exact Or.inl h
  · exact Or.inr ((hf q).2 (hq ▸ h))

private theorem safeThroughout_iff {earlier : List Command} (hrx : RxSound s.portsFwdArray)
    (htx : TxSound s.portsFwdArray) (hf : Functions s.portsFwdArray earlier) (x : Input)
    (hx : x.1.InRange) :
    SafeThroughout s x ↔ ∀ a b, x.1 = .patch a b → b = a ∨ ∃ c ∈ earlier, c.Patches b := by
  constructor
  · obtain ⟨c, o⟩ := x
    rintro hsafe a b rfl
    obtain ⟨hin, hout⟩ := hx a b rfl
    obtain ⟨p, hp⟩ : ∃ p : Fin rteMaxEthports, (p : Int) = a := ⟨⟨a.toNat, by omega⟩, by simpa using hin.1⟩
    obtain ⟨q, hq⟩ : ∃ q : Fin rteMaxEthports, (q : Int) = b := ⟨⟨b.toNat, by omega⟩, by simpa using hout.1⟩
    by_contra hno
    rw [not_or] at hno
    refine not_safe_of_patch hp hq hno.1 ?_ hsafe
    by_contra hset
    exact hno.2 (hq ▸ (hf q).1 hset)
  · intro hknown k
    exact callSafe_of_sound (hrx.take x k) (htx.take (hf.known hknown) k)

private theorem always_safe_iff {earlier : List Command} (hrx : RxSound s.portsFwdArray)
    (htx : TxSound s.portsFwdArray) (hf : Functions s.portsFwdArray earlier) {xs : List Input}
    (hxs : ∀ x ∈ xs, x.1.InRange) : Always SafeThroughout s xs ↔ KnownOutputs earlier s xs := by
  induction xs generalizing s earlier with
  | nil => exact Iff.rfl
  | cons x xs ih =>
    simp only [Always, KnownOutputs, safeThroughout_iff hrx htx hf x (hxs x List.mem_cons_self)]
    refine and_congr_right fun hx => imp_congr_right fun _ => ?_
    have htx' := htx.take (hf.known hx) (handle x.2 s x.1).ops.length
    rw [List.take_length] at htx'
    exact ih (hrx.step x) htx' (hf.step x) (fun y hy => hxs y (List.mem_cons_of_mem _ hy))

end

/-- In a run of commands with port numbers inside the tables the forwarding table is safe to read after every single
store exactly when each patch leads to its own input or to a port that an earlier patch named. -/
theorem callSafe_iff_knownOutputs (ports : Ports) {xs : List Input}
    (hxs : ∀ x ∈ xs, x.1.InRange) :
    Always SafeThroughout (State.init ports) xs ↔ KnownOutputs [] (State.init ports) xs := by
  refine always_safe_iff (rxSound_init ports) ?_ ?_ hxs
  · intro p q hq
    have : ((State.init ports).portsFwdArray p).outPortId = -99 := by
      simp only [State.init]; split <;> rfl
    omega
  · intro j
    have : ((State.init ports).portsFwdArray j).txFunc = none := by
      simp only [State.init]; split <;> rfl
    simp [this]

/-- Patches that lead back to a port that is patched already. -/
theorem callSafe_selfPatch :
    Always SafeThroughout (State.init { devs := fun _ => {} }) [(.patch 0 0, {}), (.patch 1 0, {})] :=
  (callSafe_iff_knownOutputs _ (by simp [Command.InRange])).2 (by simp [KnownOutputs, Command.Patches])

/-- While `patch 0 1` is at work, slot 0 is patched to a slot without functions. -/
theorem patch_not_callSafe :
    ¬Always SafeThroughout (State.init { devs := fun _ => {} }) [(.patch 0 1, {})] := by
  intro h
  have h4 := h.1 4 0 1 (by decide) (by decide)
  exact absurd h4 (by decide)

end SoftPatchPanel.Secondary

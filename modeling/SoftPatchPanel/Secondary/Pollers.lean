import SoftPatchPanel.Lib.Interleaving
import SoftPatchPanel.Secondary.Forward
import SoftPatchPanel.Secondary.StoreOrder

/-!
# The forwarding lcores together

`main` launches `nfv_loop` on every slave lcore, and all of them sweep over the same table.  Here the master executes
its accesses one by one, the lcores their reads and burst calls, in any order.

With two lcores a slot that is patched while `forward` is or was in force is polled by both of them, and without such
a slot nobody calls a burst function at all.  So a port has one poller exactly when there is at most one slave lcore or
no slot is ever exposed in this way (`onePoller_iff`).
-/

namespace SoftPatchPanel.Secondary

open Lib EthDev

/-! ### Lcores -/

/-- Where an lcore is in `nfv_loop` and `forward`. -/
inductive Pc where
  /-- At the test for `STOP`. -/
  | top
  /-- At the test for `LOOPBACK` and `RXTX`, which no handler sets. -/
  | testLoop
  /-- At the test for `FORWARD`. -/
  | testForward
  /-- At the read of the status of slot `i`. -/
  | slot (i : Fin rteMaxEthports)
  /-- At the test of `out_port_id`. -/
  | testOut (i : Fin rteMaxEthports)
  /-- At the second read of `out_port_id`. -/
  | readOut (i : Fin rteMaxEthports)
  /-- At the call of `rx_func`. -/
  | callRx (i : Fin rteMaxEthports) (out : Int)
  /-- Inside `rx_func` of port `i`. -/
  | inRx (i : Fin rteMaxEthports) (out : Int)
  /-- At the call of `tx_func`. -/
  | callTx (i : Fin rteMaxEthports) (out : Int)
  /-- Inside `tx_func` of port `out`. -/
  | inTx (i : Fin rteMaxEthports) (out : Int)

/-- The next slot of the sweep, or the next round of `nfv_loop`. -/
def Pc.next (i : Fin rteMaxEthports) : Pc := if h : (i : Nat) + 1 < rteMaxEthports then .slot ⟨i + 1, h⟩ else .top

/-- The moves of an lcore over the data of the process.  A burst returns with or without packets; the loop that frees
packets touches none of this data. -/
inductive Pc.Move (s : State) : Pc → Pc → Prop where
  | idle (h : s.cmd = .stop) : Move s .top .top
  | busy (h : s.cmd ≠ .stop) : Move s .top .testLoop
  | noLoop : Move s .testLoop .testForward
  | sweep (h : s.cmd = .forward) : Move s .testForward (.slot 0)
  | noSweep (h : s.cmd ≠ .forward) : Move s .testForward .top
  | used {i : Fin rteMaxEthports} (h : 0 ≤ (s.portsFwdArray i).status) : Move s (.slot i) (.testOut i)
  | unused {i : Fin rteMaxEthports} (h : ¬0 ≤ (s.portsFwdArray i).status) : Move s (.slot i) (Pc.next i)
  | patched {i : Fin rteMaxEthports} (h : 0 ≤ (s.portsFwdArray i).outPortId) : Move s (.testOut i) (.readOut i)
  | unpatched {i : Fin rteMaxEthports} (h : ¬0 ≤ (s.portsFwdArray i).outPortId) : Move s (.testOut i) (Pc.next i)
  | out {i : Fin rteMaxEthports} : Move s (.readOut i) (.callRx i (s.portsFwdArray i).outPortId)
  | rx {i : Fin rteMaxEthports} {out : Int} (h : (s.portsFwdArray i).rxFunc ≠ none) :
      Move s (.callRx i out) (.inRx i out)
  | empty {i : Fin rteMaxEthports} {out : Int} : Move s (.inRx i out) (Pc.next i)
  | packets {i : Fin rteMaxEthports} {out : Int} : Move s (.inRx i out) (.callTx i out)
  | tx {i q : Fin rteMaxEthports} {out : Int} (hq : (q : Int) = out) (h : (s.portsFwdArray q).txFunc ≠ none) :
      Move s (.callTx i out) (.inTx i out)
  | sent {i : Fin rteMaxEthports} {out : Int} : Move s (.inTx i out) (Pc.next i)

/-- The directions of a port. -/
inductive Direction where
  | rx
  | tx

/-- The burst call an lcore is inside of. -/
def Pc.burst : Pc → Option (Direction × Int)
  | .inRx i _ => some (.rx, i)
  | .inTx _ out => some (.tx, out)
  | _ => none

/-! ### The process -/

/-- The accesses of the master for a sequence of commands. -/
def masterOps : State → List Input → List Op
  | _, [] => []
  | s, x :: xs => (handle x.2 s x.1).ops ++ if (handle x.2 s x.1).goesOn then masterOps (s.step x) xs else []

/-- The process with the slave lcores `ι`: the shared data are those of the process with what the master still has to
do. -/
def process (ι : Type) : System ι (State × List Op) Pc where
  env := fun x y => ∃ op, x.2 = op :: y.2 ∧ y.1 = Op.exec x.1 op
  agent := fun _ x t y t' => y = x ∧ Pc.Move x.1 t t'

/-- No two lcores are ever inside a burst call for the same port and direction. -/
def OnePoller (ι : Type) [DecidableEq ι] (s : State) (ops : List Op) : Prop :=
  ∀ y, (process ι).Reach ((s, ops), fun _ => .top) y →
    ∀ l l', l ≠ l' → ∀ b, (y.2 l).burst = some b → (y.2 l').burst ≠ some b

/-- No slot is in use and patched. -/
def Idle (fwd : Slots Port) : Prop := ∀ i, ¬(fwd i).Active

/-- From the moment `cmd` is `FORWARD` on, no slot is in use and patched; `f` says that this moment has been. -/
def NeverExposed : Prop → State → List Op → Prop
  | f, s, [] => f ∨ s.cmd = .forward → Idle s.portsFwdArray
  | f, s, op :: ops =>
    (f ∨ s.cmd = .forward → Idle s.portsFwdArray) ∧ NeverExposed (f ∨ s.cmd = .forward) (Op.exec s op) ops

private theorem NeverExposed.idle {f : Prop} {s : State} {ops : List Op} (h : NeverExposed f s ops)
    (hf : f ∨ s.cmd = .forward) : Idle s.portsFwdArray := by
  cases ops with
  | nil => exact h hf
  | cons op ops => exact h.1 hf

private theorem not_neverExposed {f : Prop} {s : State} {ops : List Op} (h : ¬NeverExposed f s ops) :
    ∃ pre mid post, ops = pre ++ mid ++ post ∧ ((f ∧ pre = []) ∨ (s.exec pre).cmd = .forward) ∧
      ¬Idle ((s.exec pre).exec mid).portsFwdArray := by
  induction ops generalizing f s with
  | nil =>
    simp only [NeverExposed, Classical.not_imp] at h
    obtain ⟨hf, hidle⟩ := h
    exact ⟨[], [], [], rfl, hf.imp (fun h => ⟨h, rfl⟩) id, hidle⟩
  | cons op ops ih =>
    by_cases hnow : f ∨ s.cmd = .forward → Idle s.portsFwdArray
    · obtain ⟨pre, mid, post, rfl, hcmd, hidle⟩ := ih (fun hrest => h ⟨hnow, hrest⟩)
      rcases hcmd with ⟨hf, rfl⟩ | hcmd
      · exact ⟨[], op :: mid, post, rfl, hf.imp (fun h => ⟨h, rfl⟩) id, hidle⟩
      · exact ⟨op :: pre, mid, post, rfl, Or.inr hcmd, hidle⟩
    · rw [Classical.not_imp] at hnow
      exact ⟨[], [], op :: ops, rfl, hnow.1.imp (fun h => ⟨h, rfl⟩) id, hnow.2⟩

/-! ### Without an exposed slot nobody polls -/

/-- A store to a status marks the slot as used. -/
def Op.MarksUsed : Op → Prop
  | .status i v => v = i
  | _ => True

private theorem handle_marksUsed (s : State) (x : Input) : ∀ op ∈ (handle x.2 s x.1).ops, op.MarksUsed := by
  rcases patch_or_quiet s x with ⟨a, b, hc⟩ | hquiet
  · simp [hc, handle, Op.MarksUsed]
  · intro op hop
    have := hquiet op hop
    cases op <;> first | exact this | trivial

private theorem masterOps_marksUsed (s : State) (xs : List Input) : ∀ op ∈ masterOps s xs, op.MarksUsed := by
  induction xs generalizing s with
  | nil => simp [masterOps]
  | cons x xs ih =>
    intro op hop
    rw [masterOps, List.mem_append] at hop
    rcases hop with hop | hop
    · exact handle_marksUsed s x op hop
    · split at hop
      · exact ih _ op hop
      · simp at hop

private theorem status_nonneg_exec {s : State} {op : Op} (hop : op.MarksUsed) {i : Fin rteMaxEthports}
    (h : 0 ≤ (s.portsFwdArray i).status) : 0 ≤ ((Op.exec s op).portsFwdArray i).status := by
  cases op with
  | status j v =>
    obtain rfl : v = j := hop
    simp only [Op.exec, setAt]
    split
    · next hij => simp [← hij]
    · exact h
  | number t j v => cases t <;> exact h
  | type j t | rxFunc j | txFunc j | outPortId j v =>
    simp only [Op.exec, setAt]
    split <;> exact h
  | _ => exact h

private theorem NeverExposed.mono {f g : Prop} (hfg : f → g) {s : State} {ops : List Op} (h : NeverExposed g s ops) :
    NeverExposed f s ops := by
  induction ops generalizing s f g with
  | nil => exact fun hf => h (hf.imp_left hfg)
  | cons op ops ih => exact ⟨fun hf => h.1 (hf.imp_left hfg), ih (Or.imp_left hfg) h.2⟩

/-- The moment that an lcore sees `FORWARD`. -/
private theorem NeverExposed.forward {f : Prop} {s : State} {ops : List Op} (h : NeverExposed f s ops)
    (hs : s.cmd = .forward) : NeverExposed True s ops := by
  cases ops with
  | nil => exact fun _ => h (Or.inr hs)
  | cons op ops => exact ⟨fun _ => h.1 (Or.inr hs), h.2.mono fun _ => Or.inr hs⟩

/-- What an lcore knows when no slot is exposed: inside a sweep, that none will be. -/
def Pc.Unexposed (x : State × List Op) : Pc → Prop
  | .top | .testLoop | .testForward => True
  | .slot _ => NeverExposed True x.1 x.2
  | .testOut i => NeverExposed True x.1 x.2 ∧ 0 ≤ (x.1.portsFwdArray i).status
  | .readOut _ | .callRx _ _ | .inRx _ _ | .callTx _ _ | .inTx _ _ => False

private theorem Pc.unexposed_next {x : State × List Op} (h : NeverExposed True x.1 x.2) (i : Fin rteMaxEthports) :
    (Pc.next i).Unexposed x := by
  unfold Pc.next
  split
  · exact h
  · trivial

private theorem Pc.Unexposed.op {s : State} {op : Op} {ops : List Op} (hop : op.MarksUsed) {t : Pc}
    (h : t.Unexposed (s, op :: ops)) : t.Unexposed (Op.exec s op, ops) := by
  have htail : NeverExposed True s (op :: ops) → NeverExposed True (Op.exec s op) ops :=
    fun h => h.2.mono Or.inl
  cases t with
  | slot i => exact htail h
  | testOut i => exact ⟨htail h.1, status_nonneg_exec hop h.2⟩
  | _ => exact h

private theorem Pc.Unexposed.move {x : State × List Op} {t t' : Pc} (h : t.Unexposed x)
    (hx : NeverExposed False x.1 x.2) (hmove : Pc.Move x.1 t t') : t'.Unexposed x := by
  cases hmove with
  | idle => trivial
  | busy => trivial
  | noLoop => trivial
  | sweep hs => exact hx.forward hs
  | noSweep => trivial
  | used hstatus => exact ⟨h, hstatus⟩
  | unused => exact Pc.unexposed_next h _
  | patched hout => exact (h.1.idle (Or.inl trivial) _ ⟨h.2, hout⟩).elim
  | unpatched => exact Pc.unexposed_next h.1 _
  | _ => exact h.elim

section

variable {ι : Type} [DecidableEq ι] {s : State}

private theorem onePoller_of_neverExposed {ops : List Op} (h : NeverExposed False s ops)
    (hops : ∀ op ∈ ops, op.MarksUsed) : OnePoller ι s ops := by
  intro y hy l l' _ b hb
  have hinv : (NeverExposed False y.1.1 y.1.2 ∧ ∀ op ∈ y.1.2, op.MarksUsed) ∧ ∀ l, (y.2 l).Unexposed y.1 := by
    refine System.invariant (P := fun x => NeverExposed False x.1 x.2 ∧ ∀ op ∈ x.2, op.MarksUsed)
      (Q := fun _ x t => t.Unexposed x) ?_ ?_ ⟨⟨h, hops⟩, fun _ => trivial⟩ hy
    · rintro ⟨s, ops⟩ ⟨s', ops'⟩ ⟨hs, hops⟩ ⟨op, hcons, hexec⟩
      obtain rfl : ops = op :: ops' := hcons
      obtain rfl : s' = Op.exec s op := hexec
      exact ⟨⟨hs.2.mono False.elim, fun a ha => hops a (List.mem_cons_of_mem _ ha)⟩,
        fun _ t ht => ht.op (hops op List.mem_cons_self)⟩
    · rintro i x t x' t' hx ht ⟨rfl, hmove⟩
      exact ⟨hx, ht.move hx.1 hmove, fun _ _ _ hu => hu⟩
  have hl := hinv.2 l
  cases hpc : y.2 l <;> rw [hpc] at hl hb <;> simp [Pc.Unexposed, Pc.burst] at hl hb

end

/-! ### An exposed slot has two pollers -/

/-- Between any two accesses of the master a patched slot can be polled. -/
private theorem rxSound_masterOps {s : State} (h : RxSound s.portsFwdArray) (xs : List Input) (k : Nat) :
    RxSound (s.exec ((masterOps s xs).take k)).portsFwdArray := by
  induction xs generalizing s k with
  | nil => simpa [masterOps] using h
  | cons x xs ih =>
    rw [masterOps, List.take_append, State.exec_append]
    rcases Nat.le_total k (handle x.2 s x.1).ops.length with hk | hk
    · rw [Nat.sub_eq_zero_of_le hk, List.take_zero]
      exact h.take x k
    · rw [List.take_of_length_le hk]
      split
      · exact ih (h.step x) _
      · rw [List.take_nil]
        exact h.step x

private theorem master_run {ι : Type} [DecidableEq ι] (s : State) (ops rest : List Op) (loc : ι → Pc) :
    (process ι).Reach ((s, ops ++ rest), loc) ((s.exec ops, rest), loc) := by
  refine System.env_run loc ?_
  induction ops generalizing s with
  | nil => exact .refl
  | cons op ops ih => exact .head ⟨op, rfl, rfl⟩ (ih (Op.exec s op))

private theorem slot_run {s : State} {p : Fin rteMaxEthports} (hp : ∀ i < p, ¬(s.portsFwdArray i).Active) :
    Relation.ReflTransGen (Pc.Move s) (.slot 0) (.slot p) := by
  obtain ⟨p, hlt⟩ := p
  induction p with
  | zero => exact .refl
  | succ p ih =>
    have hlt' : p < rteMaxEthports := by omega
    have hnext : Pc.next ⟨p, hlt'⟩ = .slot ⟨p + 1, hlt⟩ := dif_pos hlt
    have hrun := ih hlt' (fun i hi => hp i (Nat.lt_succ_of_lt hi))
    have hidle := hp ⟨p, hlt'⟩ (Nat.lt_succ_self p)
    rw [← hnext]
    by_cases hstatus : 0 ≤ (s.portsFwdArray ⟨p, hlt'⟩).status
    · exact (hrun.tail (.used hstatus)).tail (.unpatched fun hout => hidle ⟨hstatus, hout⟩)
    · exact hrun.tail (.unused hstatus)

private theorem exists_first_active {fwd : Slots Port} (h : ¬Idle fwd) :
    ∃ p, (fwd p).Active ∧ ∀ i < p, ¬(fwd i).Active := by
  simp only [Idle, not_forall, not_not] at h
  obtain ⟨p, hp, hmin⟩ := WellFounded.has_min (wellFounded_lt (α := Fin rteMaxEthports)) {i | (fwd i).Active} h
  exact ⟨p, hp, fun i hi hact => hmin i hact hi⟩

private theorem sweep_run {s : State} (h : s.cmd = .forward) :
    Relation.ReflTransGen (Pc.Move s) .top (.slot 0) :=
  ((Relation.ReflTransGen.single (.busy (by simp [h]))).tail .noLoop).tail (.sweep h)

/-- From the start of a sweep into the burst of the first active slot. -/
private theorem burst_run {s : State} {p : Fin rteMaxEthports} (hp : (s.portsFwdArray p).Active)
    (hmin : ∀ i < p, ¬(s.portsFwdArray i).Active) (hrx : RxSound s.portsFwdArray) :
    Relation.ReflTransGen (Pc.Move s) (.slot 0) (.inRx p (s.portsFwdArray p).outPortId) :=
  ((((slot_run hmin).tail (.used hp.1)).tail (.patched hp.2)).tail .out).tail (.rx (hrx p hp.2))

/-- Two lcores make the same moves, one after the other. -/
private theorem both_run {ι : Type} [DecidableEq ι] (x : State × List Op) {t t' : Pc}
    (h : Relation.ReflTransGen (Pc.Move x.1) t t') {l l' : ι} (hne : l ≠ l') (loc : ι → Pc) (hl : loc l = t)
    (hl' : loc l' = t) :
    ∃ loc', (process ι).Reach (x, loc) (x, loc') ∧ loc' l = t' ∧ loc' l' = t' := by
  have hmoves : ∀ i : ι, Relation.ReflTransGen
      (fun a b : (State × List Op) × Pc => (process ι).agent i a.1 a.2 b.1 b.2) (x, t) (x, t') :=
    fun i => Relation.ReflTransGen.lift
      (p := fun a b : (State × List Op) × Pc => (process ι).agent i a.1 a.2 b.1 b.2) (fun t => (x, t))
      (fun _ _ hmove => ⟨rfl, hmove⟩) _ _ h
  refine ⟨Function.update (Function.update loc l t') l' t', ?_, ?_, Function.update_self ..⟩
  · have hother : Function.update loc l t' l' = t := by rw [Function.update_of_ne hne.symm, hl']
    exact (System.agent_run l (hmoves l) loc hl).trans (System.agent_run l' (hmoves l') _ hother)
  · rw [Function.update_of_ne hne, Function.update_self]

private theorem not_onePoller_of_exposed {ι : Type} [DecidableEq ι] {s : State} (hs : RxSound s.portsFwdArray)
    {l l' : ι} (hne : l ≠ l') {xs : List Input} (h : ¬NeverExposed False s (masterOps s xs)) :
    ¬OnePoller ι s (masterOps s xs) := by
  obtain ⟨pre, mid, post, hops, hcmd, hidle⟩ := not_neverExposed h
  replace hcmd : (s.exec pre).cmd = .forward := by simpa using hcmd
  have hrx : RxSound ((s.exec pre).exec mid).portsFwdArray := by
    have := rxSound_masterOps hs xs (pre ++ mid).length
    rwa [hops, List.take_left, State.exec_append] at this
  obtain ⟨p, hp, hmin⟩ := exists_first_active hidle
  intro hone
  -- The master sets `FORWARD`, both lcores enter the sweep, the slot becomes active, both lcores arrive at it.
  have hpre := master_run s pre (mid ++ post) (fun _ : ι => Pc.top)
  obtain ⟨loc, hsweep, hl, hl'⟩ :=
    both_run (s.exec pre, mid ++ post) (sweep_run hcmd) hne (fun _ => Pc.top) rfl rfl
  have hmid := master_run (s.exec pre) mid post loc
  obtain ⟨loc', hburst, hb, hb'⟩ := both_run ((s.exec pre).exec mid, post) (burst_run hp hmin hrx) hne loc hl hl'
  have hrun := ((hpre.trans hsweep).trans hmid).trans hburst
  rw [← List.append_assoc, ← hops] at hrun
  exact hone _ hrun l l' hne (.rx, p) (congrArg Pc.burst hb) (congrArg Pc.burst hb')

/-! ### One poller for each port -/

/-- A port has at most one poller in each direction, in every interleaving of the master and the slave lcores, exactly
when there are no two slave lcores or no slot is in use and patched from the moment `cmd` is `FORWARD` on. -/
theorem onePoller_iff (ι : Type) [DecidableEq ι] (ports : Ports) (xs : List Input) :
    OnePoller ι (State.init ports) (masterOps (State.init ports) xs) ↔
      (∀ l l' : ι, l = l') ∨ NeverExposed False (State.init ports) (masterOps (State.init ports) xs) := by
  constructor
  · intro hone
    by_contra hno
    rw [not_or] at hno
    obtain ⟨hlcores, hexposed⟩ := hno
    simp only [not_forall] at hlcores
    obtain ⟨l, l', hne⟩ := hlcores
    exact not_onePoller_of_exposed (rxSound_init ports) hne hexposed hone
  · rintro (hlcores | hnever)
    · intro y _ l l' hne
      exact absurd (hlcores l l') hne
    · exact onePoller_of_neverExposed hnever (masterOps_marksUsed _ _)

/-- Two slave lcores and the commands `patch 0 1` and `forward`. -/
theorem patch_forward_two_pollers :
    ¬OnePoller Bool (State.init { devs := fun _ => {} })
      (masterOps (State.init { devs := fun _ => {} }) [(.patch 0 1, {}), (.forward, {})]) := by
  refine not_onePoller_of_exposed (rxSound_init _) (show true ≠ false by decide) fun hnever => ?_
  -- After the ten accesses of `patch` and the one of `forward`.
  have hidle := hnever.2.2.2.2.2.2.2.2.2.2.2 (Or.inr rfl) 0
  exact hidle ⟨by decide +kernel, by decide +kernel⟩

end SoftPatchPanel.Secondary

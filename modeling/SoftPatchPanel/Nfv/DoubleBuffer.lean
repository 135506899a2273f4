import SoftPatchPanel.Secondary.Commands
import SoftPatchPanel.Lib.Runs

/-!
# The save and loop positions of nfv

The command handlers of `nfv.c` edit the slot at `save_pos`, while `nfv_loop` executes the slot at `loop_pos` as long as
`cmd` is `START`.  Only `save` compares the two positions, and nothing compares them with the size of the arrays.  The slot
being executed is complete and is not edited exactly when each `start`, and each `loop` while `nfv_loop` runs, meets
another position than `save_pos` at which both functions are set, each `save` while it runs stays inside of the arrays,
and so did all edits before a `start` (`executedSlot_iff`).

The integer arguments are what `atoi` returns.  A write behind the end of an array goes to whatever the compiler has put
there, the other arrays for instance; it is recorded, and nothing is promised about the slots after it.
-/

namespace SoftPatchPanel.Nfv

open Lib EthDev
open Secondary (Slots setAt setAt_self setAt_of_ne Burst)

/-! ### The state -/

/-- The values of `cmd` that the handlers set. -/
inductive CmdType where
  | stop
  | start
deriving DecidableEq

/-- `rx_ports`, `rx_rings` and `rx_funcs`, or the same for `tx`, and whether an element behind their end was written; a
function is `none` when it is NULL. -/
structure Arrays where
  ports : Slots UInt32 := fun _ => 0
  rings : Slots UInt32 := fun _ => 0
  funcs : Slots (Option Burst) := fun _ => none
  overrun : Bool := false

/-- The global data of the process, and whether it has not called `rte_exit`. -/
structure State where
  cmd : CmdType := .stop
  loopPos : UInt32 := 0
  savePos : UInt32 := 0
  rx : Arrays := {}
  tx : Arrays := {}
  running : Bool := true

/-- What an `add` names: a ring, for which `rte_eth_from_ring` returns `port` if the ring is there at all, or a port. -/
inductive Source where
  | ring (id : Int) (port : Option Int)
  | port (id : Int)

/-- The two directions. -/
inductive Dir where
  | rx
  | tx
deriving DecidableEq

/-- The commands; `del` sets `cmd` also when it names neither direction. -/
inductive Command where
  | status
  | start
  | stop
  | add (dir : Dir) (source : Source)
  | del (dir : Option Dir)
  | save (pos : Int)
  | loop (pos : Int)
  | other

/-! ### The handlers -/

/-- The position is behind the end of the arrays. -/
def outside (pos : UInt32) : Bool := decide (rteMaxEthports ≤ pos.toNat)

/-- Set the port and the function at a position. -/
def Arrays.set (a : Arrays) (pos port : UInt32) (func : Option Burst) : Arrays :=
  { a with
    ports := setAt a.ports pos.toNat (fun _ => port)
    funcs := setAt a.funcs pos.toNat (fun _ => func)
    overrun := a.overrun || outside pos }

/-- `add`: the arrays afterwards, and whether the process goes on. -/
def Arrays.add (a : Arrays) (pos : UInt32) (burst : Burst) : Source → Arrays × Bool
  | .ring id port =>
    let a := { a with
      rings := setAt a.rings pos.toNat (fun _ => UInt32.ofInt id)
      overrun := a.overrun || outside pos }
    match port with
    | none => (a, false)
    | some port => (a.set pos (UInt32.ofInt port) (some burst), true)
  | .port id => (a.set pos (UInt32.ofInt id) (some burst), true)

/-- `del`. -/
def Arrays.del (a : Arrays) (pos : UInt32) : Arrays := a.set pos (UInt32.ofNat (rteMaxEthports + 1)) none

/-- The handler of a command. -/
def step (s : State) (c : Command) : State :=
  if s.running = false then s
  else
    match c with
    | .status | .other => s
    | .start => { s with cmd := .start }
    | .stop => { s with cmd := .stop }
    | .add .rx source =>
      let (rx, running) := s.rx.add s.savePos .rteEthRxBurst source
      { s with rx := rx, running := running }
    | .add .tx source =>
      let (tx, running) := s.tx.add s.savePos .rteEthTxBurst source
      { s with tx := tx, running := running }
    | .del none => { s with cmd := .stop }
    | .del (some .rx) => { s with cmd := .stop, rx := s.rx.del s.savePos }
    | .del (some .tx) => { s with cmd := .stop, tx := s.tx.del s.savePos }
    | .save pos => if UInt32.ofInt pos = s.loopPos then s else { s with savePos := UInt32.ofInt pos }
    | .loop pos => { s with loopPos := UInt32.ofInt pos }

/-! ### The slot being executed -/

/-- The port and the function at a position inside the arrays. -/
def Arrays.slot (a : Arrays) (pos : UInt32) : Option (UInt32 × Option Burst) :=
  if h : pos.toNat < rteMaxEthports then some (a.ports ⟨pos.toNat, h⟩, a.funcs ⟨pos.toNat, h⟩) else none

/-- There is a function at the position. -/
def Arrays.Callable (a : Arrays) (pos : UInt32) : Prop := ∃ port func, a.slot pos = some (port, some func)

/-- The commands that edit a slot. -/
def Command.Edits : Command → Prop
  | .add _ _ | .del (some _) => True
  | _ => False

/-- No handler has written behind the end of an array. -/
def State.Intact (s : State) : Prop := s.rx.overrun = false ∧ s.tx.overrun = false

/-- What the double buffer promises while `nfv_loop` runs: no `add` or `del` changes the slot at `loop_pos` or writes
where the compiler may have put it, and both functions are there. -/
structure Executable (s : State) : Prop where
  intact : s.Intact
  kept : ∀ c, c.Edits → (step s c).Intact ∧ (step s c).rx.slot s.loopPos = s.rx.slot s.loopPos ∧
    (step s c).tx.slot s.loopPos = s.tx.slot s.loopPos
  rx : s.rx.Callable s.loopPos
  tx : s.tx.Callable s.loopPos

/-- The position that is edited is inside of the arrays and not the one that is executed, where both functions are
there. -/
structure Ready (s : State) : Prop where
  intact : s.Intact
  inside : s.savePos.toNat < rteMaxEthports
  ne : s.savePos ≠ s.loopPos
  rx : s.rx.Callable s.loopPos
  tx : s.tx.Callable s.loopPos

section

variable {a : Arrays} {pos save : UInt32}

private theorem Arrays.slot_set_of_ne (h : save ≠ pos) (port : UInt32) (func : Option Burst) :
    (a.set save port func).slot pos = a.slot pos := by
  unfold Arrays.slot
  split
  · rename_i hlt
    have hne : ((⟨pos.toNat, hlt⟩ : Fin rteMaxEthports) : Int) ≠ (save.toNat : Int) := by
      intro heq
      exact h (UInt32.toNat_inj.1 (Int.ofNat_inj.1 heq).symm)
    simp only [Arrays.set, setAt_of_ne _ _ hne]
  · rfl

private theorem Arrays.slot_add_of_ne (h : save ≠ pos) (burst : Burst) (source : Source) :
    (a.add save burst source).1.slot pos = a.slot pos := by
  cases source with
  | ring id port =>
    cases port with
    | none => rfl
    | some port => exact slot_set_of_ne h _ _
  | port id => exact slot_set_of_ne h _ _

private theorem Arrays.slot_set_self (h : pos.toNat < rteMaxEthports) (port : UInt32) (func : Option Burst) :
    (a.set pos port func).slot pos = some (port, func) := by
  unfold Arrays.slot
  rw [dif_pos h]
  have hself : ∀ {α : Type} (t : Slots α) (f : α → α), setAt t (pos.toNat : Int) f ⟨pos.toNat, h⟩ =
      f (t ⟨pos.toNat, h⟩) := fun t f => setAt_self t f ⟨pos.toNat, h⟩
  simp only [Arrays.set, hself]

private theorem Arrays.overrun_set (h : a.overrun = false) (hpos : pos.toNat < rteMaxEthports) (port : UInt32)
    (func : Option Burst) : (a.set pos port func).overrun = false := by
  simp [Arrays.set, outside, h, hpos]

private theorem Arrays.overrun_add (h : a.overrun = false) (hpos : pos.toNat < rteMaxEthports) (burst : Burst)
    (source : Source) : (a.add pos burst source).1.overrun = false := by
  have hring : (a.overrun || outside pos) = false := by simp [outside, h, hpos]
  cases source with
  | ring id port =>
    cases port with
    | none => exact hring
    | some port => exact overrun_set hring hpos _ _
  | port id => exact overrun_set h hpos _ _

private theorem Arrays.Callable.ne_none (h : a.Callable pos) : (a.slot pos).bind Prod.snd ≠ none := by
  obtain ⟨port, func, hslot⟩ := h
  simp [hslot]

end

/-- Inside of the arrays an edit writes nothing else than the slot at `save_pos`. -/
private theorem Ready.kept {s : State} (h : Ready s) (hrun : s.running = true) {c : Command} (hc : c.Edits) :
    (step s c).Intact ∧ (step s c).rx.slot s.loopPos = s.rx.slot s.loopPos ∧
      (step s c).tx.slot s.loopPos = s.tx.slot s.loopPos := by
  obtain ⟨⟨hrx, htx⟩, hinside, hne, -, -⟩ := h
  cases c with
  | add dir source =>
    cases dir with
    | rx =>
      simp only [step, hrun, Bool.true_eq_false, ↓reduceIte]
      exact ⟨⟨Arrays.overrun_add hrx hinside _ _, htx⟩, Arrays.slot_add_of_ne hne _ _, trivial⟩
    | tx =>
      simp only [step, hrun, Bool.true_eq_false, ↓reduceIte]
      exact ⟨⟨hrx, Arrays.overrun_add htx hinside _ _⟩, trivial, Arrays.slot_add_of_ne hne _ _⟩
  | del dir =>
    match dir, hc with
    | some .rx, _ =>
      simp only [step, hrun, Bool.true_eq_false, ↓reduceIte]
      exact ⟨⟨Arrays.overrun_set hrx hinside _ _, htx⟩, Arrays.slot_set_of_ne hne _ _, trivial⟩
    | some .tx, _ =>
      simp only [step, hrun, Bool.true_eq_false, ↓reduceIte]
      exact ⟨⟨hrx, Arrays.overrun_set htx hinside _ _⟩, trivial, Arrays.slot_set_of_ne hne _ _⟩
  | status | start | stop | save | loop | other => exact hc.elim

/-- While the process runs, some `add` or `del` changes the executed slot, or writes outside of the arrays, exactly when
`save_pos` is this slot or outside. -/
private theorem executable_iff_ready {s : State} (hrun : s.running = true) : Executable s ↔ Ready s := by
  constructor
  · rintro ⟨hintact, hkept, hrx, htx⟩
    obtain ⟨port, func, hslot⟩ := hrx
    -- add another port than the one that is there
    obtain ⟨⟨hinside, -⟩, hsame, -⟩ := hkept (.add .rx (.port ((port + 1).toNat : Int))) trivial
    simp only [step, hrun, Bool.true_eq_false, ↓reduceIte, Arrays.add] at hinside hsame
    have hlt : s.savePos.toNat < rteMaxEthports := by
      simp only [Arrays.set, outside, Bool.or_eq_false_iff, decide_eq_false_iff_not] at hinside
      omega
    refine ⟨hintact, hlt, fun heq => ?_, ⟨port, func, hslot⟩, htx⟩
    have hport : UInt32.ofInt ((port + 1).toNat : Int) = port + 1 := by
      have hmod : (((port + 1).toNat : Int) % 2 ^ 32).toNat = (port + 1).toNat := by
        have := (port + 1).toNat_lt
        omega
      rw [UInt32.ofInt, hmod, UInt32.ofNat_toNat]
    rw [← heq] at hslot
    simp only [← heq, hport, Arrays.slot_set_self hlt, hslot, Option.some.injEq, Prod.mk.injEq] at hsame
    have : (port + 1).toNat = port.toNat := by rw [hsame.1]
    rw [UInt32.toNat_add] at this
    have hport_lt := port.toNat_lt
    simp at this
    omega
  · intro h
    exact ⟨h.intact, fun c hc => h.kept hrun hc, h.rx, h.tx⟩

/-! ### Runs -/

/-- The double buffer keeps its promise in a state. -/
def Kept (s : State) : Prop := s.running = true → s.cmd = .start → Executable s

/-- The condition on a command: `start`, and `loop` while `nfv_loop` runs, only for a position that is ready, and `save`
while it runs only for a position inside of the arrays or the one that it refuses. -/
def Careful (s : State) : Command → Prop
  | .start => s.running = true → Ready s
  | .loop pos => s.running = true → s.cmd = .start → Ready { s with loopPos := UInt32.ofInt pos }
  | .save pos => s.running = true → s.cmd = .start →
      UInt32.ofInt pos = s.loopPos ∨ (UInt32.ofInt pos).toNat < rteMaxEthports
  | _ => True

private theorem kept_iff (s : State) : Kept s ↔ (s.running = true → s.cmd = .start → Ready s) := by
  unfold Kept
  constructor
  · intro h hrun hcmd
    exact (executable_iff_ready hrun).1 (h hrun hcmd)
  · intro h hrun hcmd
    exact (executable_iff_ready hrun).2 (h hrun hcmd)

/-- Adding at `save_pos` keeps a state ready. -/
private theorem Ready.add {s : State} (h : Ready s) (hrun : s.running = true) (dir : Dir) (source : Source) :
    Ready (step s (.add dir source)) := by
  obtain ⟨hintact, hrx, htx⟩ := h.kept hrun (c := .add dir source) trivial
  have hpos : (step s (.add dir source)).savePos = s.savePos ∧ (step s (.add dir source)).loopPos = s.loopPos := by
    cases dir <;> simp [step, hrun]
  refine ⟨hintact, hpos.1 ▸ h.inside, by rw [hpos.1, hpos.2]; exact h.ne, ?_, ?_⟩
  · rw [hpos.2, Arrays.Callable, hrx]
    exact h.rx
  · rw [hpos.2, Arrays.Callable, htx]
    exact h.tx

private theorem step_cmd_add (s : State) (dir : Dir) (source : Source) :
    (step s (.add dir source)).cmd = s.cmd := by
  unfold step
  split
  · rfl
  · cases dir with
    | rx => rfl
    | tx => rfl

private theorem step_of_exited {s : State} (h : s.running ≠ true) (c : Command) : step s c = s := by
  unfold step
  exact if_pos (by simpa using h)

/-- One command keeps the promise exactly when it is careful. -/
private theorem kept_step {s : State} {c : Command} (h : Kept s) : Kept (step s c) ↔ Careful s c := by
  rw [kept_iff] at h ⊢
  by_cases hrun : s.running = true
  · cases c with
    | status => simpa [step, hrun, Careful] using h hrun
    | other => simpa [step, hrun, Careful] using h hrun
    | start =>
      simp only [step, hrun, Bool.true_eq_false, ↓reduceIte, Careful, forall_const]
      exact ⟨fun h => ⟨h.intact, h.inside, h.ne, h.rx, h.tx⟩, fun h => ⟨h.intact, h.inside, h.ne, h.rx, h.tx⟩⟩
    | stop => simp [step, hrun, Careful]
    | add dir source =>
      simp only [Careful, iff_true]
      intro _ hcmd
      rw [step_cmd_add] at hcmd
      exact (h hrun hcmd).add hrun dir source
    | del dir =>
      simp only [Careful, iff_true]
      intro _ hcmd
      match dir with
      | none => simp [step, hrun] at hcmd
      | some .rx => simp [step, hrun] at hcmd
      | some .tx => simp [step, hrun] at hcmd
    | save pos =>
      simp only [Careful, hrun, forall_const]
      by_cases hpos : UInt32.ofInt pos = s.loopPos
      · simp only [step, hrun, Bool.true_eq_false, ↓reduceIte, hpos, true_or, implies_true, iff_true]
        exact fun _ => h hrun
      · simp only [step, hrun, Bool.true_eq_false, ↓reduceIte, hpos, false_or, forall_const]
        refine forall_congr' fun hcmd => ⟨fun hready => hready.inside, fun hinside => ?_⟩
        have hready := h hrun hcmd
        exact ⟨hready.intact, hinside, hpos, hready.rx, hready.tx⟩
    | loop pos =>
      simp only [step, hrun, Bool.true_eq_false, ↓reduceIte, Careful, forall_const]
  · rw [step_of_exited hrun]
    refine ⟨fun _ => ?_, fun _ => h⟩
    cases c with
    | start => exact fun hr => absurd hr hrun
    | loop pos => exact fun hr => absurd hr hrun
    | status => trivial
    | stop => trivial
    | add dir source => trivial
    | del dir => trivial
    | save pos => exact fun hr => absurd hr hrun
    | other => trivial

/-- In every state of a run, the slot being executed is complete and no `add` or `del` changes it, exactly when every
command of the run is careful.  `add`, `del` and `stop` always are; an edit outside of the arrays is held against the
next `start`. -/
theorem executedSlot_iff (cs : List Command) :
    (∀ k, Kept ((cs.take k).foldl step {})) ↔ Along step Careful {} cs := by
  refine @forall_take_iff_along State Command step (fun _ _ => True) Careful (fun _ => True) Kept (fun _ _ => trivial)
    (fun _ _ h => kept_step h) _ _ trivial (Along.of_forall (fun _ _ _ => trivial) _) ?_
  intro _ hcmd
  cases hcmd

/-- Two ports in slot 0, which is executed while slot 1 is edited. -/
def twoSlots : List Command := [.add .rx (.port 0), .add .tx (.port 1), .save 1, .start]

/-- A `start` right away executes slot 0 without a function, and `add rx 1` then edits that slot; a `loop` to the saved
position has the same effect later; and after `save 32` an `add` writes behind the arrays. -/
theorem executed_slot_edited :
    (step (step {} .start) (.add .rx (.port 1))).rx.slot 0 = some (1, some .rteEthRxBurst) ∧
    (step ((twoSlots ++ [Command.save 32]).foldl step {}) (.add .rx (.port 5))).rx.overrun = true ∧
    (¬∀ k, Kept ((([.start] : List Command).take k).foldl step {})) ∧
    (¬∀ k, Kept (((twoSlots ++ [Command.loop 1]).take k).foldl step {})) ∧
    ¬∀ k, Kept (((twoSlots ++ [Command.save 32]).take k).foldl step {}) := by
  refine ⟨by decide +kernel, by decide +kernel, fun h => ?_, fun h => ?_, fun h => ?_⟩
  · exact (h 1 rfl rfl).rx.ne_none (by decide +kernel)
  · exact (h 5 (by decide +kernel) (by decide +kernel)).rx.ne_none (by decide +kernel)
  · have hkept := (h 5 (by decide +kernel) (by decide +kernel)).kept (.add .rx (.port 5)) trivial
    exact absurd hkept.1.1 (by decide +kernel)

end SoftPatchPanel.Nfv

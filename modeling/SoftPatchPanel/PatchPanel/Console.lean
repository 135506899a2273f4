import SoftPatchPanel.Lib.Runs
import SoftPatchPanel.Lib.Strtoull
import Mathlib.Data.List.Infix

/-!
# The command slot of the patch panel

The console of `patch_panel/main.c` hands a command to the handler of a client through a slot: it sets `action` to 2000
and then copies the command under a lock; the handler polls `action`, takes the lock, sets `action` back to 1000 and
sends the command.  The handler can come between the two steps of the console, and `connection_handler` opens the slot
with `action` 1000 before it clears the command and sets up the lock.  When neither happens, the handler sends exactly
the commands that were accepted (`exact_of_undisturbed`).
-/

namespace SoftPatchPanel.PatchPanel

open Lib

/-- `MSG_SIZE`. -/
def msgSize : Nat := 100

/-! ### The console -/

/-- What the console makes of a line: nothing, a call of `atoi` with NULL, or a command for a client, which is NULL when
nothing follows the client. -/
inductive Input where
  | skip
  | noToken
  | command (client : Int) (token : Option CStr)
deriving DecidableEq

/-- The console loop up to its test of `action`. -/
def readInput (line : CStr) : Input :=
  let commandInput := line.take (msgSize - 1)
  if commandInput.length < 4 then .skip
  else if ';' ∉ commandInput then .skip
  else
    match strtok ';' commandInput with
    | [] => .noToken
    | client :: rest => .command (atoi client) rest.head?

/-- Where the console is. -/
inductive ConsolePc where
  /-- Reading a line. -/
  | idle
  /-- At the test of `action`. -/
  | test (token : Option CStr)
  /-- At the write of `action`, the command being accepted. -/
  | write (token : Option CStr)
  | lock (token : Option CStr)
  | copy (token : Option CStr)
  | unlock
  /-- The process got a segmentation fault. -/
  | crashed
deriving DecidableEq

/-- Where the handler of the client is. -/
inductive HandlerPc where
  | unborn
  | poll
  | lock
  /-- At `action = 1000`. -/
  | clear
  | copy
  | send
  | unlock
  | recv
  /-- Out of the loop, at the last unlock. -/
  | leave
  /-- At `action = -1`. -/
  | reset
  | gone
deriving DecidableEq

/-- Where `connection_handler` is with the slot of the client. -/
inductive InitPc where
  | action
  | command
  | mutex
  | create
  | done
deriving DecidableEq

/-- The slot of a client, the threads that use it, and what was accepted and sent so far. -/
structure State where
  action : Int
  command : CStr
  locked : Bool := false
  console : ConsolePc := .idle
  init : InitPc := .action
  handler : HandlerPc := .unborn
  clientMessage : CStr := []
  accepted : List CStr := []
  sent : List CStr := []

/-- One step of the console; `line` is what it reads. -/
def State.consoleStep (id : Int) (line : CStr) (s : State) : State :=
  match s.console with
  | .idle =>
    match readInput line with
    | .skip => s
    | .noToken => { s with console := .crashed }
    | .command client token => if client = id then { s with console := .test token } else s
  | .test token =>
    if s.action = 1000 then { s with console := .write token, accepted := s.accepted ++ token.toList }
    else { s with console := .idle }
  | .write token => { s with console := .lock token, action := 2000 }
  | .lock token => if s.locked then s else { s with console := .copy token, locked := true }
  | .copy none => { s with console := .crashed }
  | .copy (some token) => { s with console := .unlock, command := token }
  | .unlock => { s with console := .idle, locked := false }
  | .crashed => s

/-- One step of `connection_handler`. -/
def State.initStep (s : State) : State :=
  match s.init with
  | .action => { s with init := .command, action := 1000 }
  | .command => { s with init := .mutex, command := [] }
  | .mutex => { s with init := .create, locked := false }
  | .create => { s with init := .done, handler := .poll }
  | .done => s

/-- One step of the handler; `ok` says whether `send` or `recv` succeeds. -/
def State.handlerStep (ok : Bool) (s : State) : State :=
  match s.handler with
  | .unborn => s
  | .poll => if s.action = 2000 then { s with handler := .lock } else s
  | .lock => if s.locked then s else { s with handler := .clear, locked := true }
  | .clear => { s with handler := .copy, action := 1000 }
  | .copy => { s with handler := .send, clientMessage := s.command }
  | .send =>
    if ok then { s with handler := .unlock, sent := s.sent ++ [s.clientMessage] } else { s with handler := .leave }
  | .unlock => { s with handler := .recv, locked := false }
  | .recv => if ok then { s with handler := .poll } else { s with handler := .leave }
  | .leave => { s with handler := .reset, locked := false }
  | .reset => { s with handler := .gone, action := -1 }
  | .gone => s

/-- A step of one of the threads. -/
inductive Event where
  | console (line : CStr)
  | init
  | handler (ok : Bool)

/-- Any step; none after a segmentation fault. -/
def State.step (id : Int) (s : State) (e : Event) : State :=
  if s.console = .crashed then s
  else
    match e with
    | .console line => s.consoleStep id line
    | .init => s.initStep
    | .handler ok => s.handlerStep ok

/-- The slot before the client connects. -/
def State.start (action : Int) (command : CStr) : State := { action := action, command := command }

/-! ### What is sent -/

/-- No command is under way. -/
def State.Quiet (s : State) : Prop := s.console = .idle ∧ s.handler = .poll ∧ s.action ≠ 2000

instance (s : State) : Decidable s.Quiet := inferInstanceAs (Decidable (_ ∧ _ ∧ _))

/-- The strings sent so far are the first ones that were accepted, and all of them when no command is under way. -/
def State.Exact (s : State) : Prop := s.sent <+: s.accepted ∧ (s.Quiet → s.sent = s.accepted)

instance (s : State) : Decidable s.Exact := inferInstanceAs (Decidable (_ ∧ _))

/-- The console has set `action` to 2000 and not yet copied the command. -/
def ConsolePc.between : ConsolePc → Bool
  | .lock _ | .copy _ => true
  | _ => false

/-- The console holds the lock. -/
def ConsolePc.holds : ConsolePc → Bool
  | .copy _ | .unlock => true
  | _ => false

/-- The console is not busy with a command that it has accepted. -/
def ConsolePc.free : ConsolePc → Bool
  | .idle | .test _ => true
  | _ => false

/-- The handler does not set `action` back between the two steps of the console, and `connection_handler` does not clear
the command after one has been accepted, nor set up the lock while the console holds it. -/
def Undisturbed (s : State) : Event → Prop
  | .console _ => True
  | .init => (s.init = .command → s.console.free ∧ s.action ≠ 2000) ∧ (s.init = .mutex → s.console.holds = false)
  | .handler _ => s.handler = .clear → s.console.between = false

instance (s : State) : (e : Event) → Decidable (Undisturbed s e)
  | .console _ => inferInstanceAs (Decidable True)
  | .init => inferInstanceAs (Decidable (_ ∧ _))
  | .handler _ => inferInstanceAs (Decidable (_ → _))

/-! ### Where the accepted commands are -/

/-- The handler holds the lock. -/
def HandlerPc.holds : HandlerPc → Bool
  | .clear | .copy | .send | .unlock => true
  | _ => false

/-- The handler has left its loop. -/
def HandlerPc.left : HandlerPc → Bool
  | .leave | .reset | .gone => true
  | _ => false

/-- The command that the handler has copied. -/
def State.copied (s : State) : List CStr :=
  match s.handler with
  | .send => [s.clientMessage]
  | _ => []

/-- The command that the handler is about to copy. -/
def State.taken (s : State) : List CStr :=
  match s.handler with
  | .copy => [s.command]
  | _ => []

/-- The command that waits in the slot. -/
def State.ready (s : State) : List CStr :=
  match s.console with
  | .lock _ | .copy _ => []
  | _ => if s.action = 2000 then [s.command] else []

/-- The command that the console is about to copy. -/
def State.held (s : State) : List CStr :=
  match s.console with
  | .write token | .lock token | .copy token => token.toList
  | _ => []

/-- Every accepted command is sent or under way, in the order of acceptance, and one thread at a time is inside the
lock. -/
structure Account (s : State) : Prop where
  accepted : s.accepted = s.sent ++ (s.copied ++ s.taken ++ s.ready ++ s.held)
  locked : s.locked = (s.console.holds || s.handler.holds)
  alone : s.console.holds = true → s.handler.holds = true → False
  write : ∀ token, s.console = .write token → s.action ≠ 2000
  between : s.console.between = true → s.action = 2000
  seen : s.handler = .lock ∨ s.handler = .clear → s.action = 2000

/-- The slot is not yet open. -/
structure Closed (s : State) : Prop where
  accepted : s.accepted = []
  sent : s.sent = []
  locked : s.locked = false
  console : s.console.free = true
  handler : s.handler = .unborn
  action : s.action ≠ 1000

/-- What holds in every state of an undisturbed run. -/
structure Inv (s : State) : Prop where
  sent : s.sent <+: s.accepted
  unborn : s.init ≠ .done → s.handler = .unborn
  closed : s.console ≠ .crashed → s.init = .action → Closed s
  account : s.console ≠ .crashed → s.init ≠ .action → s.handler.left = false → Account s

private theorem Inv.exact {s : State} (h : Inv s) : s.Exact := by
  refine ⟨h.sent, fun ⟨hconsole, hhandler, haction⟩ => ?_⟩
  have hacc := h.account (by simp [hconsole])
  by_cases hinit : s.init = .action
  · have := (h.closed (by simp [hconsole]) hinit).handler
    simp [hhandler] at this
  · have := (hacc hinit (by simp [hhandler, HandlerPc.left])).accepted
    simpa [State.copied, State.taken, State.ready, State.held, hconsole, hhandler, haction] using this.symm

private theorem State.taken_of_not_holds {s : State} (h : s.handler.holds = false) : s.taken = [] := by
  unfold State.taken
  cases hpc : s.handler <;> simp_all [HandlerPc.holds]

private theorem Account.consoleStep {id : Int} {line : CStr} {s : State} (h : Account s)
    (hlive : (s.consoleStep id line).console ≠ .crashed) : Account (s.consoleStep id line) := by
  obtain ⟨action, command, locked, console, init, handler, clientMessage, accepted, sent⟩ := s
  obtain ⟨haccepted, hlocked, halone, hwrite, hbetween, hseen⟩ := h
  simp only at haccepted hlocked halone hwrite hbetween hseen
  cases console with
  | idle =>
    unfold State.consoleStep at hlive ⊢
    simp only at hlive ⊢
    split at hlive
    · exact ⟨haccepted, hlocked, halone, hwrite, hbetween, hseen⟩
    · exact absurd rfl hlive
    · split
      · exact ⟨haccepted, hlocked, halone, by simp, by simp [ConsolePc.between], hseen⟩
      · exact ⟨haccepted, hlocked, halone, hwrite, hbetween, hseen⟩
  | test token =>
    unfold State.consoleStep
    simp only
    split
    · rename_i haction
      subst haction
      refine ⟨?_, hlocked, by simp [ConsolePc.holds], by simp, by simp [ConsolePc.between], hseen⟩
      rw [haccepted]
      simp [State.copied, State.taken, State.ready, State.held]
    · exact ⟨haccepted, hlocked, halone, by simp, by simp [ConsolePc.between], hseen⟩
  | write token =>
    have haction := hwrite token rfl
    refine ⟨?_, hlocked, by simp [State.consoleStep, ConsolePc.holds], by simp [State.consoleStep], by simp [State.consoleStep],
      by simp [State.consoleStep]⟩
    simpa [State.consoleStep, State.copied, State.taken, State.ready, State.held, haction] using haccepted
  | lock token =>
    unfold State.consoleStep
    simp only
    split
    · exact ⟨haccepted, hlocked, halone, hwrite, hbetween, hseen⟩
    · rename_i hunlocked
      have hholds : handler.holds = false := by simpa [ConsolePc.holds, hunlocked] using hlocked.symm
      exact ⟨haccepted, by simp [ConsolePc.holds], by simp [hholds], by simp, fun _ => hbetween rfl, hseen⟩
  | copy token =>
    cases token with
    | none => exact absurd rfl hlive
    | some token =>
      have hholds : handler.holds = false := by
        simpa using halone rfl
      have haction := hbetween rfl
      refine ⟨?_, by simpa [State.consoleStep, ConsolePc.holds] using hlocked, by simp [State.consoleStep, hholds],
        by simp [State.consoleStep], by simp [State.consoleStep, ConsolePc.between], hseen⟩
      rw [State.taken_of_not_holds (by exact hholds)] at haccepted ⊢
      simpa [State.consoleStep, State.copied, State.ready, State.held, haction] using haccepted
  | unlock =>
    have hholds : handler.holds = false := by
      simpa using halone rfl
    exact ⟨haccepted, by simp [State.consoleStep, ConsolePc.holds, hholds], by simp [State.consoleStep, hholds],
      by simp [State.consoleStep], by simp [State.consoleStep, ConsolePc.between], hseen⟩
  | crashed => exact absurd rfl hlive

private theorem Account.initStep {s : State} (h : Account s) (hunborn : s.init ≠ .done → s.handler = .unborn)
    (hinit : s.init ≠ .action) (hok : Undisturbed s .init) : Account s.initStep := by
  obtain ⟨action, command, locked, console, init, handler, clientMessage, accepted, sent⟩ := s
  obtain ⟨haccepted, hlocked, halone, hwrite, hbetween, hseen⟩ := h
  obtain ⟨hcommand, hmutex⟩ := hok
  simp only at haccepted hlocked halone hwrite hbetween hseen hcommand hmutex hinit hunborn
  cases init with
  | action => exact absurd rfl hinit
  | command =>
    obtain ⟨hfree, haction⟩ := hcommand rfl
    obtain rfl := hunborn (by simp)
    refine ⟨?_, hlocked, halone, hwrite, hbetween, hseen⟩
    rw [haccepted]
    simp [State.initStep, State.copied, State.taken, State.ready, State.held, haction]
  | mutex =>
    obtain rfl := hunborn (by simp)
    exact ⟨haccepted, by simp [State.initStep, hmutex rfl, HandlerPc.holds], halone, hwrite, hbetween, hseen⟩
  | create =>
    obtain rfl := hunborn (by simp)
    exact ⟨haccepted, hlocked, halone, hwrite, hbetween, by simp [State.initStep]⟩
  | done => exact ⟨haccepted, hlocked, halone, hwrite, hbetween, hseen⟩

private theorem Account.handlerStep {ok : Bool} {s : State} (h : Account s) (hok : Undisturbed s (.handler ok))
    (hleft : (s.handlerStep ok).handler.left = false) : Account (s.handlerStep ok) := by
  obtain ⟨action, command, locked, console, init, handler, clientMessage, accepted, sent⟩ := s
  obtain ⟨haccepted, hlocked, halone, hwrite, hbetween, hseen⟩ := h
  simp only [Undisturbed] at haccepted hlocked halone hwrite hbetween hseen hok
  cases handler with
  | unborn => exact ⟨haccepted, hlocked, halone, hwrite, hbetween, hseen⟩
  | poll =>
    unfold State.handlerStep
    simp only
    split
    · rename_i haction
      exact ⟨haccepted, hlocked, by simp [HandlerPc.holds], hwrite, hbetween, fun _ => haction⟩
    · exact ⟨haccepted, hlocked, halone, hwrite, hbetween, hseen⟩
  | lock =>
    unfold State.handlerStep
    simp only
    split
    · exact ⟨haccepted, hlocked, halone, hwrite, hbetween, hseen⟩
    · rename_i hunlocked
      have hholds : console.holds = false := by simpa [HandlerPc.holds, hunlocked] using hlocked.symm
      exact ⟨haccepted, by simp [HandlerPc.holds], by simp [hholds], hwrite, hbetween, fun _ => hseen (by simp)⟩
  | clear =>
    -- the command waits in the slot: the console is not busy with another one
    have haction : action = 2000 := hseen (by simp)
    have hnot := hok rfl
    refine ⟨?_, hlocked, halone, fun _ _ => by simp [State.handlerStep], ?_, by simp [State.handlerStep]⟩
    · cases console with
      | idle | test | unlock | crashed =>
        simpa [State.handlerStep, State.copied, State.taken, State.ready, State.held, haction] using haccepted
      | write token => exact absurd haction (hwrite token rfl)
      | lock token | copy token => cases hnot
    · exact fun h => absurd (h.symm.trans hnot) (by simp)
  | copy =>
    exact ⟨haccepted, hlocked, halone, hwrite, hbetween, by simp [State.handlerStep]⟩
  | send =>
    cases ok with
    | false => cases hleft
    | true =>
      refine ⟨?_, hlocked, halone, hwrite, hbetween, by simp [State.handlerStep]⟩
      simpa [State.handlerStep, State.copied, State.taken, State.ready, State.held] using haccepted
  | unlock =>
    have hholds : console.holds = false := by
      by_contra h
      exact halone (by simpa using h) rfl
    exact ⟨haccepted, by simp [State.handlerStep, hholds, HandlerPc.holds], by simp [State.handlerStep, hholds], hwrite,
      hbetween, by simp [State.handlerStep]⟩
  | recv =>
    cases ok with
    | false => cases hleft
    | true =>
      exact ⟨haccepted, hlocked, by simp [State.handlerStep, HandlerPc.holds], hwrite, hbetween,
        by simp [State.handlerStep]⟩
  | leave | reset | gone => cases hleft

/-- The console accepts nothing before the slot is open. -/
private theorem Closed.consoleStep {id : Int} {line : CStr} {s : State} (h : Closed s)
    (hlive : (s.consoleStep id line).console ≠ .crashed) : Closed (s.consoleStep id line) := by
  obtain ⟨action, command, locked, console, init, handler, clientMessage, accepted, sent⟩ := s
  obtain ⟨haccepted, hsent, hlocked, hconsole, hhandler, haction⟩ := h
  simp only at haccepted hsent hlocked hconsole hhandler haction
  cases console with
  | idle =>
    unfold State.consoleStep at hlive ⊢
    simp only at hlive ⊢
    split at hlive
    · exact ⟨haccepted, hsent, hlocked, hconsole, hhandler, haction⟩
    · exact absurd rfl hlive
    · split
      · exact ⟨haccepted, hsent, hlocked, rfl, hhandler, haction⟩
      · exact ⟨haccepted, hsent, hlocked, hconsole, hhandler, haction⟩
  | test token =>
    unfold State.consoleStep
    simp only
    rw [if_neg haction]
    exact ⟨haccepted, hsent, hlocked, rfl, hhandler, haction⟩
  | write | lock | copy | unlock | crashed => cases hconsole

private theorem Closed.initStep {s : State} (h : Closed s) (hinit : s.init = .action) : Account s.initStep := by
  obtain ⟨action, command, locked, console, init, handler, clientMessage, accepted, sent⟩ := s
  obtain ⟨rfl, rfl, rfl, hconsole, rfl, -⟩ := h
  simp only at hconsole hinit
  subst hinit
  cases console with
  | idle | test =>
    exact ⟨by simp [State.initStep, State.copied, State.taken, State.ready, State.held],
      by simp [State.initStep, ConsolePc.holds, HandlerPc.holds], by simp [State.initStep, ConsolePc.holds],
      by simp [State.initStep], by simp [State.initStep, ConsolePc.between], by simp [State.initStep]⟩
  | write | lock | copy | unlock | crashed => cases hconsole

/-! ### Undisturbed runs -/

/-- What the console leaves alone. -/
private theorem State.consoleStep_frame (id : Int) (line : CStr) (s : State) :
    (s.consoleStep id line).sent = s.sent ∧ s.accepted <+: (s.consoleStep id line).accepted ∧
      (s.consoleStep id line).init = s.init ∧ (s.consoleStep id line).handler = s.handler := by
  unfold State.consoleStep
  split <;> (try split) <;> (try split) <;> simp

private theorem Inv.consoleStep {id : Int} {line : CStr} {s : State} (h : Inv s) (hlive : s.console ≠ .crashed) :
    Inv (s.consoleStep id line) := by
  obtain ⟨h1, h2, h3, h4⟩ := State.consoleStep_frame id line s
  refine ⟨by rw [h1]; exact h.sent.trans h2, by rw [h3, h4]; exact h.unborn, fun hlive' hinit => ?_,
    fun hlive' hinit hleft => ?_⟩
  · exact (h.closed hlive (by rw [← h3]; exact hinit)).consoleStep hlive'
  · exact (h.account hlive (by rw [← h3]; exact hinit) (by rw [← h4]; exact hleft)).consoleStep hlive'

private theorem Inv.initStep {s : State} (h : Inv s) (hlive : s.console ≠ .crashed) (hok : Undisturbed s .init) :
    Inv s.initStep := by
  have hunborn := h.unborn
  have hfix : s.initStep.sent = s.sent ∧ s.initStep.accepted = s.accepted ∧ s.initStep.init ≠ .action ∧
      (s.initStep.init ≠ .done → s.initStep.handler = .unborn) ∧
      (s.initStep.handler.left = false → s.handler.left = false) := by
    unfold State.initStep
    split <;> simp_all [HandlerPc.left]
  obtain ⟨h1, h2, h3, h4, h5⟩ := hfix
  refine ⟨by rw [h1, h2]; exact h.sent, h4, fun _ hinit => absurd hinit h3, fun _ _ hleft => ?_⟩
  by_cases hinit : s.init = .action
  · exact (h.closed hlive hinit).initStep hinit
  · exact (h.account hlive hinit (h5 hleft)).initStep hunborn hinit hok

/-- What the handler leaves alone, and what it sends. -/
private theorem State.handlerStep_frame (ok : Bool) (s : State) :
    (s.handlerStep ok).init = s.init ∧ (s.handlerStep ok).accepted = s.accepted ∧
      (s.handler = .unborn → s.handlerStep ok = s) ∧
      ((s.handlerStep ok).handler.left = false → s.handler.left = false) ∧
      ((s.handlerStep ok).sent = s.sent ∨
        s.handler = .send ∧ (s.handlerStep ok).sent = s.sent ++ [s.clientMessage]) := by
  unfold State.handlerStep
  split <;> (try split) <;> simp_all [HandlerPc.left]

private theorem Inv.handlerStep {ok : Bool} {s : State} (h : Inv s) (hlive : s.console ≠ .crashed)
    (hok : Undisturbed s (.handler ok)) : Inv (s.handlerStep ok) := by
  obtain ⟨h1, h2, h3, h4, h5⟩ := s.handlerStep_frame ok
  refine ⟨?_, fun hinit => ?_, fun _ hinit => ?_, fun _ hinit hleft => ?_⟩
  · rw [h2]
    rcases h5 with h5 | ⟨hsend, h5⟩
    · rw [h5]
      exact h.sent
    · have hinit : s.init = .done := by
        by_contra hinit
        simp [h.unborn hinit] at hsend
      rw [h5, (h.account hlive (by simp [hinit]) (by simp [hsend, HandlerPc.left])).accepted]
      simp [State.copied, hsend]
  · rw [h1] at hinit
    rw [h3 (h.unborn hinit)]
    exact h.unborn hinit
  · rw [h1] at hinit
    rw [h3 (h.unborn (by simp [hinit]))]
    exact h.closed hlive hinit
  · exact (h.account hlive (by rw [← h1]; exact hinit) (h4 hleft)).handlerStep hok hleft

private theorem Inv.step {id : Int} {s : State} {e : Event} (h : Inv s) (hok : Undisturbed s e) :
    Inv (s.step id e) := by
  unfold State.step
  split
  · exact h
  · rename_i hlive
    cases e with
    | console line => exact h.consoleStep hlive
    | init => exact h.initStep hlive hok
    | handler ok => exact h.handlerStep hlive hok

private theorem Inv.start {action : Int} (haction : action ≠ 1000) (command : CStr) :
    Inv (State.start action command) :=
  ⟨by simp [State.start], fun _ => rfl, fun _ _ => ⟨rfl, rfl, rfl, rfl, rfl, haction⟩, fun _ h => absurd rfl h⟩

/-- In every state of an undisturbed run, whatever lines the console reads and however the threads take turns, the
client has been sent the commands that were accepted, each once and in order. -/
theorem exact_of_undisturbed (id : Int) {action : Int} (haction : action ≠ 1000) (command : CStr) {es : List Event}
    (h : Along (State.step id) Undisturbed (State.start action command) es) (k : Nat) :
    ((es.take k).foldl (State.step id) (State.start action command)).Exact :=
  (Along.invariant (I := Inv) Inv.step (Inv.start haction command) h k).exact

/-! ### One command -/

/-- `n` steps of the console, which reads the command `on` for client 1. -/
def consoleSteps (n : Nat) : List Event := List.replicate n (.console "1;on\n".toList)

/-- `n` steps of the handler, with a client that stays connected. -/
def handlerSteps (n : Nat) : List Event := List.replicate n (.handler true)

/-- `n` steps of `connection_handler`. -/
def initSteps (n : Nat) : List Event := List.replicate n .init

theorem exact_oneCommand :
    ((initSteps 4 ++ consoleSteps 6 ++ handlerSteps 7).foldl (State.step 1) (State.start 0 [])).Quiet ∧
      ((initSteps 4 ++ consoleSteps 6 ++ handlerSteps 7).foldl (State.step 1) (State.start 0 [])).sent =
        ["on\n".toList] ∧
      ((initSteps 4 ++ consoleSteps 6 ++ handlerSteps 7).foldl (State.step 1) (State.start 0 [])).Exact := by
  have h := @exact_of_undisturbed 1 0 (by decide) [] (initSteps 4 ++ consoleSteps 6 ++ handlerSteps 7)
    (by decide +kernel) 17
  exact ⟨by decide +kernel, by decide +kernel, h⟩

/-- The handler comes before the console has copied its command: the client gets an empty command, and the new one is
left in the slot with `action` 1000. -/
theorem emptyCommand_sent :
    ((initSteps 4 ++ consoleSteps 3 ++ handlerSteps 7 ++ consoleSteps 3).foldl (State.step 1) (State.start 0 [])).accepted =
        ["on\n".toList] ∧
      ((initSteps 4 ++ consoleSteps 3 ++ handlerSteps 7 ++ consoleSteps 3).foldl (State.step 1) (State.start 0 [])).sent =
        [[]] ∧
      ((initSteps 4 ++ consoleSteps 3 ++ handlerSteps 7 ++ consoleSteps 3).foldl (State.step 1)
        (State.start 0 [])).Quiet ∧
      ¬((initSteps 4 ++ consoleSteps 3 ++ handlerSteps 7 ++ consoleSteps 3).foldl (State.step 1)
        (State.start 0 [])).Exact := by
  decide +kernel

/-- The console puts its command into the slot as soon as `action` is 1000, and `connection_handler` wipes it out. -/
example :
    ((initSteps 1 ++ consoleSteps 6 ++ initSteps 3 ++ handlerSteps 7).foldl (State.step 1)
        (State.start 0 [])).sent = [[]] ∧
      ¬((initSteps 1 ++ consoleSteps 6 ++ initSteps 3 ++ handlerSteps 7).foldl (State.step 1)
        (State.start 0 [])).Exact := by
  decide +kernel

end SoftPatchPanel.PatchPanel

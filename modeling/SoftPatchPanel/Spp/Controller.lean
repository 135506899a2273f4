import SoftPatchPanel.Lib.CStr
import SoftPatchPanel.Lib.Runs

/-!
# The controller `spp.py`

The threads of the controller and what they share.  A step is one access to shared data or one call that can block or
raise; what a call does is an argument of the step.  Queues are objects on a heap, because `acceptthread` passes the two
queues of a connection to its thread while the shell finds them again through the lists `main2sec` and `sec2main`.
-/

namespace SoftPatchPanel.Spp

open Lib

/-- What is put into a queue: a command, with the `sec_id` it was issued for, or what a connection thread posts after
`recv`, with the connection it was received on (`none` for the text `closing:`). -/
inductive Item where
  | command (secId : Nat) (text : CStr)
  | message (conn : Nat) (data : Option CStr)
deriving DecidableEq

/-- What the user types: `sec`, `pri` with a valid command, or anything that leaves the queues alone. -/
inductive Input where
  | sec (secId : Nat) (text : CStr)
  | pri (text : CStr)
  | other

/-- Where the shell is. -/
inductive ShellPc where
  | idle
  /-- At `if sec_id in secondary_list`. -/
  | secTest (secId : Nat) (text : CStr)
  /-- At the index into `main2sec`. -/
  | secIndex (secId : Nat) (text : CStr)
  | secPut (secId : Nat) (queue : Nat) (text : CStr)
  /-- At the index into `sec2main`. -/
  | secIndexReply (secId : Nat)
  | secGet (secId : Nat) (queue : Nat)
  /-- At `if primary`. -/
  | priTest (text : CStr)
  | priPut (text : CStr)
  | priGet
  /-- The id was not in `secondary_list`, and an exception has ended the command loop. -/
  | crashed
  /-- There was no queue under the id, and an exception has ended the command loop. -/
  | noQueue (secId : Nat)
deriving DecidableEq

/-- Where `acceptthread` is, with the new connection. -/
inductive AcceptPc where
  | accept
  /-- At `secondary_list.append`. -/
  | append (conn : Nat)
  /-- At the first half of `main2sec[secondary_count] = Queue()`, which makes room in the list. -/
  | growMain (conn : Nat)
  /-- At its second half. -/
  | setMain (conn : Nat) (queue : Nat)
  | growSec (conn : Nat)
  | setSec (conn : Nat) (queue : Nat)
  /-- At `start_new_thread`. -/
  | start (conn : Nat)
  /-- At `secondary_count += 1`. -/
  | count
  | ended
deriving DecidableEq

/-- Where a connection thread is. -/
inductive ConnPc where
  | select
  | get
  | send (cmd : Item)
  | recv
  | post (msg : Item)
  /-- At `secondary_list.remove`. -/
  | remove
  | close
  | ended
deriving DecidableEq

/-- The thread has taken a command and not yet posted what came of it. -/
def ConnPc.inFlight : ConnPc → Bool
  | .send _ | .recv | .post _ => true
  | _ => false

/-- A connection thread with its arguments. -/
structure Conn where
  id : Nat
  conn : Nat
  m2s : Nat
  s2m : Nat
  pc : ConnPc := .select

/-- Where `primarythread` is. -/
inductive PrimaryPc where
  /-- At `primary = False`. -/
  | setFalse
  | accept
  /-- At `primary = True`. -/
  | setTrue
  | select
  | get
  | send (cmd : CStr)
  | recv
  | post (data : Option CStr)
  | close
  | ended
deriving DecidableEq

@[inherit_doc ConnPc.inFlight]
def PrimaryPc.inFlight : PrimaryPc → Bool
  | .send _ | .recv | .post _ => true
  | _ => false

/-- What the threads share, where they are, and a record of the ids registered, the items sent on connections and the
items printed for ids.  `primary` is the empty string until `primarythread` runs. -/
structure State where
  primary : Option Bool := none
  secondaryList : List Nat := []
  secondaryCount : Nat := 0
  main2primary : List CStr := []
  primary2main : List (Option CStr) := []
  main2sec : List (Option Nat) := []
  sec2main : List (Option Nat) := []
  queues : List (List Item) := []
  accepted : Nat := 0
  shell : ShellPc := .idle
  accept : AcceptPc := .accept
  primaryPc : PrimaryPc := .setFalse
  conns : List Conn := []
  registered : List Nat := []
  sent : List (Nat × Item) := []
  printed : List (Nat × Item) := []

/-- The contents of a queue. -/
def State.queue (s : State) (q : Nat) : List Item := s.queues.getD q []

/-- `put`. -/
def State.put (s : State) (q : Nat) (item : Item) : State := { s with queues := s.queues.set q (s.queue q ++ [item]) }

/-- Takes the first element of a queue away. -/
def State.pop (s : State) (q : Nat) : State := { s with queues := s.queues.set q (s.queue q).tail }

theorem queue_put_self {s : State} {q : Nat} (hq : q < s.queues.length) (item : Item) :
    (s.put q item).queue q = s.queue q ++ [item] := by
  simp [State.queue, State.put, hq]

theorem queue_put_ne {s : State} {q r : Nat} (h : r ≠ q) (item : Item) : (s.put q item).queue r = s.queue r := by
  simp [State.queue, State.put, List.getElem?_set_ne h.symm]

theorem queue_pop_self (s : State) (q : Nat) : (s.pop q).queue q = (s.queue q).tail := by
  by_cases hq : q < s.queues.length <;> simp [State.queue, State.pop, hq]

theorem queue_pop_ne {s : State} {q r : Nat} (h : r ≠ q) : (s.pop q).queue r = s.queue r := by
  simp [State.queue, State.pop, List.getElem?_set_ne h.symm]

/-- A new queue is empty. -/
theorem queue_new (s : State) (q : Nat) : (s.queues ++ [[]]).getD q [] = s.queue q := by
  unfold State.queue
  rw [List.getD_eq_getElem?_getD, List.getD_eq_getElem?_getD]
  by_cases hq : q < s.queues.length
  · rw [List.getElem?_append_left hq]
  · rw [List.getElem?_append_right (by omega), List.getElem?_eq_none (by omega : s.queues.length ≤ q)]
    cases q - s.queues.length <;> rfl

/-- `GrowingList.__setitem__` up to its call of `extend`. -/
def grow (l : List (Option Nat)) (index : Nat) : List (Option Nat) := l ++ List.replicate (index + 1 - l.length) none

/-- `do_sec` and `do_pri` down to `command_secondary` and `command_primary`.  The message for an unknown id has two
conversions and one argument, which raises. -/
def State.shellStep (input : Input) (s : State) : State :=
  match s.shell with
  | .idle =>
    match input with
    | .sec k text => { s with shell := .secTest k text }
    | .pri text => { s with shell := .priTest text }
    | .other => s
  | .secTest k text => { s with shell := if k ∈ s.secondaryList then .secIndex k text else .crashed }
  | .secIndex k text =>
    match s.main2sec[k]? with
    | some (some q) => { s with shell := .secPut k q text }
    | _ => { s with shell := .noQueue k }
  | .secPut k q text => { s.put q (.command k text) with shell := .secIndexReply k }
  | .secIndexReply k =>
    match s.sec2main[k]? with
    | some (some q) => { s with shell := .secGet k q }
    | _ => { s with shell := .noQueue k }
  | .secGet k q =>
    match s.queue q with
    | [] => s
    | item :: _ => { s.pop q with shell := .idle, printed := s.printed ++ [(k, item)] }
  | .priTest text => { s with shell := if s.primary = some true then .priPut text else .idle }
  | .priPut text => { s with shell := .priGet, main2primary := s.main2primary ++ [text] }
  | .priGet =>
    match s.primary2main with
    | [] => s
    | _ :: rest => { s with shell := .idle, primary2main := rest }
  | .crashed => s
  | .noQueue _ => s

/-- `acceptthread`; `ok` says whether `accept` returns or raises. -/
def State.acceptStep (ok : Bool) (s : State) : State :=
  match s.accept with
  | .accept =>
    if ok then { s with accept := .append s.accepted, accepted := s.accepted + 1 } else { s with accept := .ended }
  | .append conn =>
    { s with accept := .growMain conn, secondaryList := s.secondaryList ++ [s.secondaryCount],
             registered := s.registered ++ [s.secondaryCount] }
  | .growMain conn =>
    { s with accept := .setMain conn s.queues.length, main2sec := grow s.main2sec s.secondaryCount,
             queues := s.queues ++ [[]] }
  | .setMain conn q => { s with accept := .growSec conn, main2sec := s.main2sec.set s.secondaryCount (some q) }
  | .growSec conn =>
    { s with accept := .setSec conn s.queues.length, sec2main := grow s.sec2main s.secondaryCount,
             queues := s.queues ++ [[]] }
  | .setSec conn q => { s with accept := .start conn, sec2main := s.sec2main.set s.secondaryCount (some q) }
  | .start conn =>
    match s.main2sec[s.secondaryCount]?, s.sec2main[s.secondaryCount]? with
    | some (some m2s), some (some s2m) =>
      { s with accept := .count, conns := s.conns ++ [{ id := s.secondaryCount, conn := conn, m2s := m2s, s2m := s2m }] }
    | _, _ => { s with accept := .ended }
  | .count => { s with accept := .accept, secondaryCount := s.secondaryCount + 1 }
  | .ended => s

/-- Connection thread `c`, at place `i` of the threads; `out` is `none` when its call raises, and the data of `recv`. -/
def State.connStep (i : Nat) (c : Conn) (out : Option CStr) (s : State) : State :=
  let goto (s : State) (pc : ConnPc) : State := { s with conns := s.conns.set i { c with pc := pc } }
  match c.pc with
  | .select => goto s (if out = none then .remove else .get)
  | .get =>
    match s.queue c.m2s with
    | [] => s
    | cmd :: _ => goto (s.pop c.m2s) (.send cmd)
  | .send cmd => goto { s with sent := s.sent ++ [(c.conn, cmd)] } (if out = none then .remove else .recv)
  | .recv =>
    match out with
    | none => goto s .remove
    | some data => goto s (.post (.message c.conn (if data = [] then none else some data)))
  | .post msg =>
    goto (s.put c.s2m msg) (match msg with
      | .message _ none => .remove
      | _ => .select)
  | .remove => goto { s with secondaryList := s.secondaryList.erase c.id } .close
  | .close => goto s .ended
  | .ended => s

/-- `primarythread`; `out` as for a connection thread. -/
def State.primaryStep (out : Option CStr) (s : State) : State :=
  match s.primaryPc with
  | .setFalse => { s with primaryPc := .accept, primary := some false }
  | .accept => { s with primaryPc := if out = none then .ended else .setTrue }
  | .setTrue => { s with primaryPc := .select, primary := some true }
  | .select => { s with primaryPc := if out = none then .setFalse else .get }
  | .get =>
    match s.main2primary with
    | [] => s
    | cmd :: rest => { s with primaryPc := .send cmd, main2primary := rest }
  | .send _ => { s with primaryPc := if out = none then .setFalse else .recv }
  | .recv =>
    match out with
    | none => { s with primaryPc := .setFalse }
    | some data => { s with primaryPc := .post (if data = [] then none else some data) }
  | .post data =>
    { s with primaryPc := if data = none then .close else .select, primary2main := s.primary2main ++ [data] }
  | .close => { s with primaryPc := .setFalse }
  | .ended => s

/-- A step of one of the threads; connection threads are numbered in the order of their start. -/
inductive Event where
  | shell (input : Input)
  | accept (ok : Bool)
  | conn (i : Nat) (out : Option CStr)
  | primary (out : Option CStr)

/-- Any step. -/
def State.step (s : State) : Event → State
  | .shell input => s.shellStep input
  | .accept ok => s.acceptStep ok
  | .conn i out =>
    match s.conns[i]? with
    | some c => s.connStep i c out
    | none => s
  | .primary out => s.primaryStep out

/-- The state after a run of the controller. -/
def run (es : List Event) : State := es.foldl State.step {}

/-- `acceptthread` takes one connection all the way to `secondary_count += 1`. -/
def acceptOne : List Event := List.replicate 8 (.accept true)

/-! ### One connection -/

/-- The text of a command. -/
def Item.text : Item → CStr
  | .command _ text => text
  | .message _ _ => []

/-- What a message of a connection thread contains. -/
def Item.data : Item → Option CStr
  | .command _ _ => none
  | .message _ data => data

/-- The commands sent on connection `k`. -/
def State.commands (k : Nat) (s : State) : List CStr := (s.sent.filter (fun x => x.1 = k)).map (fun x => x.2.text)

/-- What the shell has taken from `sec2main[k]`. -/
def State.messages (k : Nat) (s : State) : List (Option CStr) :=
  (s.printed.filter (fun x => x.1 = k)).map (fun x => x.2.data)

/-- Where connection thread `k` is. -/
def State.threadPc (k : Nat) (s : State) : ConnPc := (s.conns[k]?.map Conn.pc).getD .select

theorem threadPc_eq {s : State} {k : Nat} {c : Conn} (hc : s.conns[k]? = some c) : s.threadPc k = c.pc := by
  simp [State.threadPc, hc]

theorem threadPc_set {s : State} {k : Nat} {c : Conn} (hk : k < s.conns.length) :
    State.threadPc k { s with conns := s.conns.set k c } = c.pc := by
  simp [State.threadPc, hk]

end SoftPatchPanel.Spp

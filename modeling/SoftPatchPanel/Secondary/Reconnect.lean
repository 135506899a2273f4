import Mathlib.Data.List.Induction
import Mathlib.Logic.Function.Basic

/-!
# The socket of a secondary

The message loop of `main` of `sec_zerocpy` keeps the variables `sock` and `connected`.  A failed `recv` closes the
socket and resets both; a failed `send` resets only `connected`, so that the next round connects the old socket once
more.  Each `connect` gets a fresh socket exactly when no round follows one whose `send` fails (`freshConnects_iff`).
-/

namespace SoftPatchPanel.Secondary

/-! ### Calls -/

/-- A call of the loop to the socket interface, with its descriptor and whether it succeeds; `socket` returns the
descriptor. -/
inductive SocketCall where
  | socket (sock : Int)
  | connect (sock : Int) (ok : Bool)
  | recv (sock : Int) (ok : Bool)
  | send (sock : Int) (ok : Bool)
  | close (sock : Int)
deriving DecidableEq

/-- What has become of a descriptor. -/
inductive SocketStatus where
  | closed
  | fresh
  | connected
  | failed
deriving DecidableEq

/-- The effect of a call on the descriptors.  A descriptor is fresh after `socket` until it is connected, and failed
after a `recv` or `send` that fails until it is closed. -/
def SocketCall.effect (status : Int → SocketStatus) : SocketCall → Int → SocketStatus
  | .socket sock => if sock < 0 then status else Function.update status sock .fresh
  | .connect sock true => Function.update status sock .connected
  | .recv sock false | .send sock false => Function.update status sock .failed
  | .close sock => Function.update status sock .closed
  | .connect _ false | .recv _ true | .send _ true => status

/-- The descriptors after some calls. -/
def statusAfter (calls : List SocketCall) : Int → SocketStatus := calls.foldl SocketCall.effect (fun _ => .closed)

/-- A descriptor may be connected after these calls: `socket` has created it, no `connect` on it has succeeded, and no
descriptor is left on which a `recv` or `send` has failed. -/
def MayConnect (calls : List SocketCall) (sock : Int) : Prop :=
  statusAfter calls sock = .fresh ∧ ∀ other, statusAfter calls other ≠ .failed

/-- Each `connect` is made on a descriptor that may be connected. -/
def FreshConnects (calls : List SocketCall) : Prop :=
  ∀ before sock ok after, calls = before ++ .connect sock ok :: after → MayConnect before sock

/-! ### The loop -/

/-- `SOCK_RESET`. -/
def sockReset : Int := -1

/-- What `recv` and the handler of the message do: no message, the message `exit`, a handler that calls `rte_exit`, or
any other message. -/
inductive Received where
  | nothing
  | exit
  | rteExit
  | command
deriving DecidableEq

/-- The results of the calls of one round, as far as it makes them. -/
structure Results where
  socket : Int
  connect : Bool
  recv : Received
  send : Bool

/-- The variables of the loop, the calls it has made, and whether it has ended. -/
structure Connection where
  sock : Int := sockReset
  connected : Bool := false
  calls : List SocketCall := []
  ended : Bool := false

/-- The second part of a round: `recv`, the handler, and `send`. -/
def Connection.receive (c : Connection) (r : Results) : Connection :=
  match r.recv with
  | .nothing =>
    { c with calls := c.calls ++ [.recv c.sock false, .close c.sock], sock := sockReset, connected := false }
  | .exit => { c with calls := c.calls ++ [.recv c.sock true, .close c.sock], ended := true }
  | .rteExit => { c with calls := c.calls ++ [.recv c.sock true], ended := true }
  | .command =>
    if r.send then { c with calls := c.calls ++ [.recv c.sock true, .send c.sock true] }
    else { c with calls := c.calls ++ [.recv c.sock true, .send c.sock false], connected := false }

/-- The part of a round that creates a socket when there is none. -/
def Connection.create (c : Connection) (r : Results) : Connection :=
  if c.sock < 0 then
    { c with sock := r.socket, calls := c.calls ++ [.socket r.socket], ended := decide (r.socket < 0) }
  else c

/-- One round of the loop. -/
def Connection.round (c : Connection) (r : Results) : Connection :=
  if c.ended then c
  else if c.connected then c.receive r
  else
    let c := c.create r
    if c.ended then c
    else
      let c := { c with calls := c.calls ++ [.connect c.sock r.connect], connected := r.connect }
      if r.connect then c.receive r else c

/-- What the loop has between two rounds, as long as no `send` has failed: no socket, one that is not connected, or a
connected one. -/
inductive Phase where
  | reset
  | created
  | connected
deriving DecidableEq

/-- No round follows one whose `send` fails, unless the loop has ended before: with a `socket` that fails or with a message
that ends the process. -/
def Phase.SendFailsLast : Phase → List Results → Prop
  | _, [] => True
  | phase, r :: rs =>
    if phase = .reset ∧ r.socket < 0 then True
    else if phase ≠ .connected ∧ r.connect = false then Phase.created.SendFailsLast rs
    else
      match r.recv with
      | .nothing => Phase.reset.SendFailsLast rs
      | .exit => True
      | .rteExit => True
      | .command => if r.send then Phase.connected.SendFailsLast rs else rs = []

/-! ### Traces -/

private theorem statusAfter_concat (calls : List SocketCall) (call : SocketCall) :
    statusAfter (calls ++ [call]) = call.effect (statusAfter calls) := by
  rw [statusAfter, List.foldl_append]
  rfl

private theorem freshConnects_nil : FreshConnects [] := by
  intro before sock ok after h
  simp at h

/-- A call of a trace with one more call is the last one, or a call of the trace. -/
private theorem concat_eq_append_cons {calls before after : List SocketCall} {call x : SocketCall}
    (h : calls ++ [call] = before ++ x :: after) :
    (calls = before ∧ call = x ∧ after = []) ∨ ∃ after', calls = before ++ x :: after' := by
  rcases List.eq_nil_or_concat after with rfl | ⟨after, last, rfl⟩
  · obtain ⟨hcalls, hcall⟩ := List.append_inj' h rfl
    exact Or.inl ⟨hcalls, (List.cons.inj hcall).1, rfl⟩
  · have hsplit : calls ++ [call] = (before ++ x :: after) ++ [last] := by simpa using h
    exact Or.inr ⟨after, (List.append_inj' hsplit rfl).1⟩

private theorem freshConnects_concat {calls : List SocketCall} {call : SocketCall} :
    FreshConnects (calls ++ [call]) ↔
      FreshConnects calls ∧ ∀ sock ok, call = .connect sock ok → MayConnect calls sock := by
  constructor
  · intro h
    refine ⟨?_, ?_⟩
    · rintro before sock ok after rfl
      exact h before sock ok (after ++ [call]) (by simp)
    · rintro sock ok rfl
      exact h calls sock ok [] rfl
  · rintro ⟨hinit, hlast⟩ before sock ok after heq
    rcases concat_eq_append_cons heq with ⟨rfl, hcall, -⟩ | ⟨after', hcalls⟩
    · exact hlast sock ok hcall
    · exact hinit before sock ok after' hcalls

/-- No `send` has failed. -/
def NoFailedSend (calls : List SocketCall) : Prop := ∀ sock, SocketCall.send sock false ∉ calls

/-- No call follows a failed `send`. -/
def FailedSendLast (calls : List SocketCall) : Prop :=
  ∀ before sock after, calls = before ++ .send sock false :: after → after = []

private theorem noFailedSend_concat {calls : List SocketCall} {call : SocketCall} :
    NoFailedSend (calls ++ [call]) ↔ NoFailedSend calls ∧ ∀ sock, call ≠ .send sock false := by
  simp only [NoFailedSend, List.mem_append, List.mem_singleton, not_or, forall_and, ne_eq, eq_comm]

private theorem failedSendLast_concat {calls : List SocketCall} {call : SocketCall} :
    FailedSendLast (calls ++ [call]) ↔ NoFailedSend calls := by
  constructor
  · intro h sock hmem
    obtain ⟨before, after, rfl⟩ := List.append_of_mem hmem
    have := h before sock (after ++ [call]) (by simp)
    simp at this
  · intro h before sock after heq
    rcases concat_eq_append_cons heq with ⟨-, -, hafter⟩ | ⟨after', hcalls⟩
    · exact hafter
    · exact absurd (by rw [hcalls]; simp) (h sock)

private theorem NoFailedSend.failedSendLast {calls : List SocketCall} (h : NoFailedSend calls) :
    FailedSendLast calls := by
  intro before sock after heq
  exact absurd (by rw [heq]; simp) (h sock)

/-! ### Rounds -/

/-- The variables of a loop that goes on: only `sock` can be open, it is connected when `connected` says so, and it is
left as failed only by a failed `send`, which then is the last call. -/
structure Connection.Vars (c : Connection) : Prop where
  others : ∀ sock, sock ≠ c.sock ∨ sock < 0 → statusAfter c.calls sock = .closed
  connected : c.connected = true → 0 ≤ c.sock ∧ statusAfter c.calls c.sock = .connected
  waiting : c.connected = false → 0 ≤ c.sock →
    statusAfter c.calls c.sock = .fresh ∨ statusAfter c.calls c.sock = .failed
  failed : statusAfter c.calls c.sock = .failed → ¬NoFailedSend c.calls
  not_failed : statusAfter c.calls c.sock ≠ .failed → FailedSendLast c.calls → NoFailedSend c.calls

/-- What holds between two rounds. -/
structure Connection.Inv (c : Connection) : Prop where
  fresh_iff : FreshConnects c.calls ↔ FailedSendLast c.calls
  vars : c.ended = false → c.Vars

/-- The middle of a round, with the socket connected. -/
private structure Connection.Ready (c : Connection) : Prop where
  fresh_iff : FreshConnects c.calls ↔ NoFailedSend c.calls
  sock : 0 ≤ c.sock
  others : ∀ sock, sock ≠ c.sock ∨ sock < 0 → statusAfter c.calls sock = .closed
  status : statusAfter c.calls c.sock = .connected
  connected : c.connected = true

/-- A call after `recv` other than `connect` adds no connection. -/
private theorem Connection.Ready.fresh_iff_last {c : Connection} (h : c.Ready) (ok : Bool) {call : SocketCall}
    (hcall : ∀ sock ok, call ≠ .connect sock ok) :
    FreshConnects (c.calls ++ [.recv c.sock ok, call]) ↔ FailedSendLast (c.calls ++ [.recv c.sock ok, call]) := by
  have happend : c.calls ++ [.recv c.sock ok, call] = (c.calls ++ [.recv c.sock ok]) ++ [call] := by simp
  rw [happend, freshConnects_concat, freshConnects_concat, failedSendLast_concat, noFailedSend_concat, h.fresh_iff]
  constructor
  · rintro ⟨⟨hno, -⟩, -⟩
    exact ⟨hno, by simp⟩
  · rintro ⟨hno, -⟩
    exact ⟨⟨hno, by simp⟩, fun sock ok heq => absurd heq (hcall sock ok)⟩

private theorem noFailedSend_of_last {calls : List SocketCall} {first call : SocketCall}
    (hcall : ∀ sock, call ≠ .send sock false) (h : FailedSendLast (calls ++ [first, call])) :
    NoFailedSend (calls ++ [first, call]) := by
  have happend : calls ++ [first, call] = (calls ++ [first]) ++ [call] := by simp
  rw [happend, failedSendLast_concat] at h
  rw [happend, noFailedSend_concat]
  exact ⟨h, hcall⟩

private theorem statusAfter_pair (calls : List SocketCall) (first call : SocketCall) :
    statusAfter (calls ++ [first, call]) = call.effect (first.effect (statusAfter calls)) := by
  rw [show calls ++ [first, call] = (calls ++ [first]) ++ [call] by simp, statusAfter_concat, statusAfter_concat]

/-- Without a message the socket is closed and forgotten. -/
private theorem Connection.Ready.vars_closed {c : Connection} (h : c.Ready) :
    ({ c with calls := c.calls ++ [.recv c.sock false, .close c.sock], sock := sockReset,
              connected := false } : Connection).Vars := by
  have hclosed : ∀ sock, statusAfter (c.calls ++ [.recv c.sock false, .close c.sock]) sock = .closed := by
    intro sock
    rw [statusAfter_pair]
    by_cases hs : sock = c.sock
    · simp [SocketCall.effect, hs]
    · simp [SocketCall.effect, hs, h.others sock (Or.inl hs)]
  refine ⟨fun sock _ => hclosed sock, ?_, ?_, ?_, ?_⟩
  · intro hconn
    cases hconn
  · intro _ hsock
    simp [sockReset] at hsock
  · intro hfailed
    rw [hclosed] at hfailed
    cases hfailed
  · intro _ hlast
    exact noFailedSend_of_last (by simp) hlast

/-- After an answer the socket is as before. -/
private theorem Connection.Ready.vars_sent {c : Connection} (h : c.Ready) :
    ({ c with calls := c.calls ++ [.recv c.sock true, .send c.sock true] } : Connection).Vars := by
  have hsame : statusAfter (c.calls ++ [.recv c.sock true, .send c.sock true]) = statusAfter c.calls := by
    rw [statusAfter_pair]
    rfl
  refine ⟨?_, ?_, ?_, ?_, ?_⟩
  · simpa only [hsame] using h.others
  · intro _
    simpa only [hsame] using ⟨h.sock, h.status⟩
  · intro hconn
    simp only [h.connected] at hconn
    cases hconn
  · intro hfailed
    simp only [hsame, h.status] at hfailed
    cases hfailed
  · intro _ hlast
    exact noFailedSend_of_last (by simp) hlast

/-- After a `send` that fails the socket stays in `sock`. -/
private theorem Connection.Ready.vars_sendFailed {c : Connection} (h : c.Ready) :
    ({ c with calls := c.calls ++ [.recv c.sock true, .send c.sock false], connected := false } :
      Connection).Vars := by
  have hfailed : statusAfter (c.calls ++ [.recv c.sock true, .send c.sock false]) =
      Function.update (statusAfter c.calls) c.sock .failed := by
    rw [statusAfter_pair]
    rfl
  refine ⟨?_, ?_, ?_, ?_, ?_⟩
  · intro sock hs
    have hne : sock ≠ c.sock := by
      have := h.sock
      simp only at hs
      omega
    simp only [hfailed]
    rw [Function.update_of_ne hne]
    exact h.others sock (Or.inl hne)
  · intro hconn
    cases hconn
  · intro _ _
    right
    simp [hfailed]
  · intro _ hno
    exact hno c.sock (by simp)
  · intro hne
    simp [hfailed] at hne

/-- `recv` and `send` make no connection, so only a `send` that fails changes anything for the next round. -/
private theorem Connection.Ready.receive {c : Connection} (h : c.Ready) (r : Results) : (c.receive r).Inv := by
  unfold Connection.receive
  split
  · exact ⟨h.fresh_iff_last _ (by simp), fun _ => h.vars_closed⟩
  · exact ⟨h.fresh_iff_last _ (by simp), fun hend => by cases hend⟩
  · refine ⟨?_, fun hend => by cases hend⟩
    simp only [freshConnects_concat, failedSendLast_concat, h.fresh_iff]
    simp
  · split
    · exact ⟨h.fresh_iff_last _ (by simp), fun _ => h.vars_sent⟩
    · exact ⟨h.fresh_iff_last _ (by simp), fun _ => h.vars_sendFailed⟩

/-- A socket that is created is the only one. -/
private theorem Connection.Inv.create {c : Connection} (h : c.Inv) (hend : c.ended = false)
    (hconn : c.connected = false) (r : Results) : (c.create r).Inv ∧ (c.create r).connected = false ∧
      ((c.create r).ended = false → 0 ≤ (c.create r).sock) := by
  have hvars := h.vars hend
  unfold Connection.create
  split
  · rename_i hneg
    have hclosed : ∀ sock, statusAfter c.calls sock = .closed := by
      intro sock
      refine hvars.others sock ?_
      omega
    have hlast : FailedSendLast c.calls ↔ NoFailedSend c.calls := by
      refine ⟨hvars.not_failed ?_, NoFailedSend.failedSendLast⟩
      rw [hclosed]
      simp
    refine ⟨⟨?_, ?_⟩, hconn, by simp⟩
    · simp only [freshConnects_concat, failedSendLast_concat, ← hlast, h.fresh_iff]
      simp
    · intro hsock
      simp only [decide_eq_false_iff_not] at hsock
      have hstatus : statusAfter (c.calls ++ [.socket r.socket]) =
          Function.update (statusAfter c.calls) r.socket .fresh := by
        rw [statusAfter_concat]
        exact if_neg hsock
      refine ⟨?_, ?_, ?_, ?_, ?_⟩
      · intro sock hs
        simp only [hstatus] at hs ⊢
        rw [Function.update_of_ne (by omega)]
        exact hclosed sock
      · intro htrue
        simp only [hconn] at htrue
        cases htrue
      · intro _ _
        left
        simp [hstatus]
      · intro hfailed
        simp [hstatus] at hfailed
      · intro _ hl
        simp only [failedSendLast_concat, noFailedSend_concat] at hl ⊢
        exact ⟨hl, by simp⟩
  · exact ⟨h, hconn, fun _ => by omega⟩

/-- A `connect` right after a failed `send` is the only one that is not fresh. -/
private theorem Connection.Inv.connect {c : Connection} (h : c.Inv) (hend : c.ended = false)
    (hconn : c.connected = false) (hsock : 0 ≤ c.sock) (ok : Bool) :
    FreshConnects (c.calls ++ [.connect c.sock ok]) ↔ NoFailedSend c.calls := by
  have hvars := h.vars hend
  rw [freshConnects_concat, h.fresh_iff]
  constructor
  · rintro ⟨hlast, hmay⟩
    refine hvars.not_failed ?_ hlast
    rw [(hmay c.sock ok rfl).1]
    simp
  · intro hno
    refine ⟨hno.failedSendLast, ?_⟩
    intro sock ok heq
    cases heq
    have hne : statusAfter c.calls c.sock ≠ .failed := fun hf => hvars.failed hf hno
    refine ⟨(hvars.waiting hconn hsock).resolve_right hne, ?_⟩
    intro other
    by_cases ho : other = c.sock
    · rw [ho]
      exact hne
    · rw [hvars.others other (Or.inl ho)]
      simp

/-- Between two rounds with the socket connected, `recv` comes next. -/
private theorem Connection.Inv.ready {c : Connection} (h : c.Inv) (hend : c.ended = false)
    (hconn : c.connected = true) : c.Ready := by
  have hvars := h.vars hend
  obtain ⟨hsock, hstatus⟩ := hvars.connected hconn
  refine ⟨?_, hsock, hvars.others, hstatus, hconn⟩
  rw [h.fresh_iff]
  refine ⟨hvars.not_failed ?_, NoFailedSend.failedSendLast⟩
  rw [hstatus]
  simp

/-- After a `connect` that succeeds, `recv` comes next. -/
private theorem Connection.Inv.ready_connect {c : Connection} (h : c.Inv) (hend : c.ended = false)
    (hconn : c.connected = false) (hsock : 0 ≤ c.sock) :
    ({ c with calls := c.calls ++ [.connect c.sock true], connected := true } : Connection).Ready := by
  have hstatus : statusAfter (c.calls ++ [.connect c.sock true]) =
      Function.update (statusAfter c.calls) c.sock .connected := by
    rw [statusAfter_concat]
    rfl
  refine ⟨?_, hsock, ?_, ?_, rfl⟩
  · simp only [h.connect hend hconn hsock, noFailedSend_concat]
    simp
  · intro sock hs
    simp only [hstatus] at hs ⊢
    rw [Function.update_of_ne (by omega)]
    exact (h.vars hend).others sock hs
  · simp [hstatus]

/-- A `connect` that fails leaves the socket as it is. -/
private theorem Connection.Inv.connectFailed {c : Connection} (h : c.Inv) (hend : c.ended = false)
    (hconn : c.connected = false) (hsock : 0 ≤ c.sock) :
    ({ c with calls := c.calls ++ [.connect c.sock false], connected := false } : Connection).Inv := by
  have hvars := h.vars hend
  have hsame : statusAfter (c.calls ++ [.connect c.sock false]) = statusAfter c.calls := by
    rw [statusAfter_concat]
    rfl
  refine ⟨?_, fun _ => ⟨?_, ?_, ?_, ?_, ?_⟩⟩
  · rw [h.connect hend hconn hsock, failedSendLast_concat]
  · simpa only [hsame] using hvars.others
  · intro htrue
    cases htrue
  · simpa only [hsame] using fun _ => hvars.waiting hconn
  · intro hf hno
    simp only [hsame] at hf
    exact hvars.failed hf (noFailedSend_concat.1 hno).1
  · intro _ hlast
    rw [failedSendLast_concat] at hlast
    exact noFailedSend_concat.2 ⟨hlast, by simp⟩

/-- A round keeps the invariant. -/
private theorem Connection.Inv.round {c : Connection} (h : c.Inv) (r : Results) : (c.round r).Inv := by
  unfold Connection.round
  split
  · exact h
  rename_i hend
  rw [Bool.not_eq_true] at hend
  split
  · rename_i hconn
    exact (h.ready hend hconn).receive r
  rename_i hconn
  rw [Bool.not_eq_true] at hconn
  obtain ⟨hinv, hconn', hsock⟩ := h.create hend hconn r
  generalize c.create r = d at hinv hconn' hsock
  simp only
  split
  · exact hinv
  rename_i hend'
  rw [Bool.not_eq_true] at hend'
  cases hok : r.connect with
  | true => exact (hinv.ready_connect hend' hconn' (hsock hend')).receive r
  | false => exact hinv.connectFailed hend' hconn' (hsock hend')

private theorem Connection.inv_start : ({} : Connection).Inv := by
  have hno : NoFailedSend [] := by simp [NoFailedSend]
  refine ⟨⟨fun _ => hno.failedSendLast, fun _ => freshConnects_nil⟩, fun _ => ⟨fun _ _ => rfl, ?_, ?_, ?_, ?_⟩⟩
  · intro h
    cases h
  · intro _ h
    simp [sockReset] at h
  · intro h
    cases h
  · intro _ _
    exact hno

private theorem Connection.inv_run (rs : List Results) : (rs.foldl Connection.round {}).Inv := by
  induction rs using List.reverseRecOn with
  | nil => exact Connection.inv_start
  | append_singleton rs r ih =>
    rw [List.foldl_append]
    exact ih.round r

/-! ### The results of the calls -/

/-- The variables of the loop in a phase. -/
private def Connection.At (c : Connection) : Phase → Prop
  | .reset => c.sock < 0 ∧ c.connected = false
  | .created => 0 ≤ c.sock ∧ c.connected = false
  | .connected => c.connected = true

/-- The call of `connect`. -/
private def Connection.connect (c : Connection) (ok : Bool) : Connection :=
  { c with calls := c.calls ++ [.connect c.sock ok], connected := ok }

/-- What a round does before `recv`: nothing, a `socket` that fails, a `connect` that fails, or one that succeeds. -/
private theorem Connection.round_cases {c : Connection} (hend : c.ended = false) (r : Results) :
    (c.connected = true ∧ c.round r = c.receive r) ∨
    (c.connected = false ∧ (c.sock < 0 ∧ r.socket < 0) ∧
      c.round r = { c with sock := r.socket, calls := c.calls ++ [.socket r.socket], ended := true }) ∨
    (c.connected = false ∧ ¬(c.sock < 0 ∧ r.socket < 0) ∧ ∃ d : Connection, 0 ≤ d.sock ∧ d.ended = false ∧
      (d.calls = c.calls ∨ d.calls = c.calls ++ [.socket r.socket]) ∧
      c.round r = if r.connect then (d.connect true).receive r else d.connect false) := by
  have hround : c.round r = if c.connected then c.receive r else
      if (c.create r).ended then c.create r else
        if r.connect then ((c.create r).connect true).receive r else (c.create r).connect false := by
    unfold Connection.round
    rw [if_neg (by simp [hend])]
    cases r.connect with
    | true => rfl
    | false => rfl
  rw [hround]
  cases hconn : c.connected with
  | true => exact Or.inl ⟨rfl, rfl⟩
  | false =>
    right
    unfold Connection.create
    by_cases hneg : c.sock < 0
    · by_cases hsock : r.socket < 0
      · exact Or.inl ⟨rfl, ⟨hneg, hsock⟩, by simp [hneg, hsock, hconn]⟩
      · refine Or.inr ⟨rfl, fun h => hsock h.2, { c with sock := r.socket, calls := c.calls ++ [.socket r.socket] },
          Int.not_lt.1 hsock, hend, Or.inr rfl, ?_⟩
        simp [hneg, hsock, hend]
    · exact Or.inr ⟨rfl, fun h => hneg h.1, c, Int.not_lt.1 hneg, hend, Or.inl rfl, by simp [hneg, hend]⟩

private theorem Connection.receive_calls (c : Connection) (r : Results) : c.calls <+: (c.receive r).calls := by
  unfold Connection.receive
  split
  · exact List.prefix_append _ _
  · exact List.prefix_append _ _
  · exact List.prefix_append _ _
  · split
    · exact List.prefix_append _ _
    · exact List.prefix_append _ _

private theorem Connection.receive_ne (c : Connection) (r : Results) : (c.receive r).calls ≠ c.calls := by
  unfold Connection.receive
  split
  · simp
  · simp
  · simp
  · split
    · simp
    · simp

/-- A loop that has not ended makes a call in every round. -/
private theorem Connection.round_calls {c : Connection} (hend : c.ended = false) (r : Results) :
    c.calls <+: (c.round r).calls ∧ (c.round r).calls ≠ c.calls := by
  rcases c.round_cases hend r with ⟨-, hround⟩ | ⟨-, -, hround⟩ | ⟨-, -, d, -, -, hd, hround⟩
  · rw [hround]
    exact ⟨c.receive_calls r, c.receive_ne r⟩
  · rw [hround]
    exact ⟨List.prefix_append _ _, by simp⟩
  · have hpre : c.calls <+: d.calls := by
      rcases hd with hd | hd
      · exact hd ▸ List.prefix_refl _
      · exact hd ▸ List.prefix_append _ _
    have hconnect : ∀ ok, d.calls ++ [.connect d.sock ok] <+: (c.round r).calls → c.calls <+: (c.round r).calls ∧
        (c.round r).calls ≠ c.calls := by
      intro ok h
      refine ⟨hpre.trans ((List.prefix_append _ _).trans h), fun heq => ?_⟩
      have hle := hpre.length_le
      have hle' := h.length_le
      rw [heq, List.length_append, List.length_singleton] at hle'
      omega
    cases hok : r.connect with
    | true => exact hconnect true (by rw [hround, hok]; exact Connection.receive_calls (d.connect true) r)
    | false => exact hconnect false (by rw [hround, hok]; exact List.prefix_refl _)

private theorem Connection.run_ended {c : Connection} (hend : c.ended = true) (rs : List Results) :
    rs.foldl Connection.round c = c := by
  induction rs with
  | nil => rfl
  | cons r rs ih => rw [List.foldl_cons, Connection.round, if_pos hend, ih]

private theorem Connection.run_calls (c : Connection) (rs : List Results) :
    c.calls <+: (rs.foldl Connection.round c).calls := by
  induction rs generalizing c with
  | nil => exact List.prefix_refl _
  | cons r rs ih =>
    cases hend : c.ended with
    | true => exact ⟨[], by rw [Connection.run_ended hend (r :: rs), List.append_nil]⟩
    | false => exact (Connection.round_calls hend r).1.trans (ih (c.round r))

/-- After a `send` that fails, any further round makes a further call. -/
private theorem Connection.failedSendLast_sendFailed {c : Connection} {calls : List SocketCall} {sock : Int}
    (hend : c.ended = false) (hcalls : c.calls = calls ++ [.send sock false]) (hno : NoFailedSend calls)
    (rs : List Results) : FailedSendLast (rs.foldl Connection.round c).calls ↔ rs = [] := by
  cases rs with
  | nil => exact iff_of_true (by rw [List.foldl_nil, hcalls, failedSendLast_concat]; exact hno) rfl
  | cons r rs =>
    refine iff_of_false (fun h => ?_) (by simp)
    obtain ⟨⟨more, hround⟩, hne⟩ := Connection.round_calls hend r
    obtain ⟨rest, hrest⟩ := Connection.run_calls (c.round r) rs
    have hnil := h calls sock (more ++ rest) (by rw [List.foldl_cons, ← hrest, ← hround, hcalls]; simp)
    rw [← hround, (List.append_eq_nil_iff.1 hnil).1, List.append_nil] at hne
    exact hne rfl

/-- The rest of a run from `recv` on. -/
private theorem Connection.failedSendLast_receive {c : Connection} (hend : c.ended = false) (hconn : c.connected = true)
    (hno : NoFailedSend c.calls) (r : Results) (rs : List Results)
    (ih : ∀ {c : Connection} {phase : Phase}, c.ended = false → c.At phase → NoFailedSend c.calls →
      (FailedSendLast (rs.foldl Connection.round c).calls ↔ phase.SendFailsLast rs)) :
    FailedSendLast (rs.foldl Connection.round (c.receive r)).calls ↔
      match r.recv with
      | .nothing => Phase.reset.SendFailsLast rs
      | .exit => True
      | .rteExit => True
      | .command => if r.send then Phase.connected.SendFailsLast rs else rs = [] := by
  have hpair : ∀ ok, ∀ call : SocketCall, (∀ sock, call ≠ .send sock false) →
      NoFailedSend (c.calls ++ [.recv c.sock ok, call]) := by
    intro ok call hcall
    rw [show c.calls ++ [.recv c.sock ok, call] = (c.calls ++ [.recv c.sock ok]) ++ [call] by simp,
      noFailedSend_concat, noFailedSend_concat]
    exact ⟨⟨hno, by simp⟩, hcall⟩
  unfold Connection.receive
  cases r.recv with
  | nothing => exact @ih _ .reset hend ⟨by simp [sockReset], rfl⟩ (hpair _ _ (by simp))
  | exit =>
    rw [Connection.run_ended rfl]
    exact iff_of_true (hpair _ _ (by simp)).failedSendLast trivial
  | rteExit =>
    rw [Connection.run_ended rfl]
    exact iff_of_true (failedSendLast_concat.2 hno) trivial
  | command =>
    cases r.send with
    | true => exact @ih _ .connected hend hconn (hpair _ _ (by simp))
    | false =>
      have hrecv : NoFailedSend (c.calls ++ [.recv c.sock true]) := noFailedSend_concat.2 ⟨hno, by simp⟩
      have hcalls : c.calls ++ [.recv c.sock true, .send c.sock false] =
          (c.calls ++ [.recv c.sock true]) ++ [.send c.sock false] := by simp
      simp only [Bool.false_eq_true, if_false]
      exact @Connection.failedSendLast_sendFailed
        { c with calls := c.calls ++ [.recv c.sock true, .send c.sock false], connected := false } _ _ hend hcalls hrecv rs

/-- The results tell whether a call follows a failed `send`. -/
private theorem Connection.failedSendLast_iff {c : Connection} {phase : Phase} (hend : c.ended = false)
    (hphase : c.At phase) (hno : NoFailedSend c.calls) (rs : List Results) :
    FailedSendLast (rs.foldl Connection.round c).calls ↔ phase.SendFailsLast rs := by
  induction rs generalizing c phase with
  | nil => exact iff_of_true hno.failedSendLast trivial
  | cons r rs ih =>
    have hreset : c.connected = false → (phase = .reset ↔ c.sock < 0) ∧ phase ≠ .connected := by
      intro hconn
      cases phase with
      | reset => exact ⟨iff_of_true rfl hphase.1, by decide⟩
      | created => exact ⟨iff_of_false (by decide) (Int.not_lt.2 hphase.1), by decide⟩
      | connected => exact absurd (hconn.symm.trans hphase) (by decide)
    rw [List.foldl_cons, Phase.SendFailsLast]
    rcases c.round_cases hend r with ⟨hconn, hround⟩ | ⟨hconn, hfail, hround⟩ | ⟨hconn, hfail, d, hsock, hd, hcalls, hround⟩
    · have hphase' : phase = .connected := by
        cases phase with
        | reset => exact absurd (hconn.symm.trans hphase.2) (by decide)
        | created => exact absurd (hconn.symm.trans hphase.2) (by decide)
        | connected => rfl
      rw [hround, hphase', if_neg (by simp), if_neg (by simp)]
      exact Connection.failedSendLast_receive hend hconn hno r rs ih
    · rw [if_pos ⟨(hreset hconn).1.2 hfail.1, hfail.2⟩, hround, Connection.run_ended rfl]
      exact iff_of_true (failedSendLast_concat.2 hno) trivial
    · have hnod : NoFailedSend d.calls := by
        rcases hcalls with hcalls | hcalls
        · rw [hcalls]
          exact hno
        · rw [hcalls]
          exact noFailedSend_concat.2 ⟨hno, by simp⟩
      have hnoc : ∀ ok, NoFailedSend (d.connect ok).calls := fun ok => noFailedSend_concat.2 ⟨hnod, by simp⟩
      rw [if_neg (fun h => hfail ⟨(hreset hconn).1.1 h.1, h.2⟩), hround]
      cases hok : r.connect with
      | true =>
        rw [if_pos rfl, if_neg (by simp)]
        exact Connection.failedSendLast_receive (c := d.connect true) hd rfl (hnoc true) r rs ih
      | false =>
        rw [if_neg (by simp), if_pos ⟨(hreset hconn).2, rfl⟩]
        exact @ih (d.connect false) .created hd ⟨hsock, rfl⟩ (hnoc false)

/-- In a run of the message loop, each `connect` is made on a fresh socket, with the old one closed after a failure,
exactly when no round follows one whose `send` fails. -/
theorem freshConnects_iff (rs : List Results) :
    FreshConnects (rs.foldl Connection.round {}).calls ↔ Phase.reset.SendFailsLast rs := by
  rw [(Connection.inv_run rs).fresh_iff]
  exact @Connection.failedSendLast_iff {} .reset rfl ⟨by decide, rfl⟩ (by simp [NoFailedSend]) rs

/-- After a failed `send`, the same descriptor is connected a second time without having been closed. -/
theorem connect_after_failed_send :
    ¬FreshConnects (([⟨3, true, .command, false⟩, ⟨4, true, .command, true⟩] : List Results).foldl
      Connection.round {}).calls := by
  have hcalls : (([⟨3, true, .command, false⟩, ⟨4, true, .command, true⟩] : List Results).foldl
      Connection.round {}).calls =
      [.socket 3, .connect 3 true, .recv 3 true, .send 3 false] ++ .connect 3 true :: [.recv 3 true, .send 3 true] := by
    decide +kernel
  intro h
  exact absurd (h _ _ _ _ hcalls).1 (by decide +kernel)

end SoftPatchPanel.Secondary

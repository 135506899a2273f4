import SoftPatchPanel.Spp.Network
import SoftPatchPanel.Spp.Routing

/-!
# One command at a time

The shell waits for the outcome of a command before it issues the next one.  What connection `k` does is therefore a cycle
with at most one command or reply in it (`Phase`), as long as every `recv` returns all that is there.  Every step of the
controller and the secondary is then a `Move` of the cycle or does not concern it (`moves_step`), so the secondary executes
the commands that were sent and the shell gets the replies to them (`matched_of_whole`).
-/

namespace SoftPatchPanel.Spp

open Lib

/-! ### The cycle -/

/-- What concerns connection `k`. -/
@[ext]
structure View where
  busy : Bool
  m2s : List Item
  pc : ConnPc
  toSec : CStr
  sec : SecPc
  executed : List (CStr × Option Reply)
  toSpp : CStr
  s2m : List Item
  commands : List CStr
  messages : List (Option CStr)

/-- The thread has left its loop. -/
def ConnPc.left : ConnPc → Bool
  | .remove | .close | .ended => true
  | _ => false

/-- The message of a connection thread. -/
def message (k : Nat) (reply : Option Reply) : Item := .message k (reply.map Reply.bytes)

/-- What a step can do to connection `k` when every `recv` returns all there is. -/
inductive Move (k : Nat) : View → View → Prop
  /-- The shell fails to find a queue. -/
  | stop (v : View) : Move k v { v with busy := true }
  | put (v : View) (text : CStr) : v.busy = false →
      Move k v { v with busy := true, m2s := v.m2s ++ [.command k text] }
  | get (v : View) (item : Item) (rest : List Item) : v.s2m = item :: rest →
      Move k v { v with busy := false, s2m := rest, messages := v.messages ++ [item.data] }
  /-- The thread moves with nothing in its hands. -/
  | walk (v : View) (pc : ConnPc) : v.pc.inFlight = false → pc.inFlight = false → (v.pc.left = true → pc.left = true) →
      Move k v { v with pc := pc }
  | take (v : View) (cmd : Item) (rest : List Item) : v.pc = .get → v.m2s = cmd :: rest →
      Move k v { v with m2s := rest, pc := .send cmd }
  | send (v : View) (cmd : Item) : v.pc = .send cmd →
      Move k v { v with pc := .recv, toSec := v.toSec ++ cmd.text, commands := v.commands ++ [cmd.text] }
  | sendRaises (v : View) (cmd : Item) : v.pc = .send cmd →
      Move k v { v with pc := .remove, commands := v.commands ++ [cmd.text] }
  | recv (v : View) : v.pc = .recv → v.toSpp ≠ [] →
      Move k v { v with pc := .post (.message k (some v.toSpp)), toSpp := [] }
  | recvEnd (v : View) : v.pc = .recv → v.toSpp = [] → v.sec = .ended →
      Move k v { v with pc := .post (.message k none) }
  | recvRaises (v : View) : v.pc = .recv → Move k v { v with pc := .remove }
  | post (v : View) (data : Option CStr) : v.pc = .post (.message k data) →
      Move k v { v with pc := if data = none then .remove else .select, s2m := v.s2m ++ [.message k data] }
  | secRecv (v : View) (reply : Option Reply) : v.sec = .recv → v.toSec ≠ [] →
      Move k v { v with toSec := [], sec := .after reply, executed := v.executed ++ [(v.toSec, reply)] }
  | secSend (v : View) (reply : Reply) : v.sec = .send reply →
      Move k v { v with sec := .recv, toSpp := v.toSpp ++ reply.bytes }

/-- Where the command or its reply is. -/
inductive Phase where
  | idle
  | queued (cmd : Item)
  | held (cmd : Item)
  | wire (text : CStr)
  /-- `send` has raised, or the command was empty. -/
  | lost (text : CStr)
  | handled (reply : Reply)
  | answered (reply : Option Reply)
  | posting (reply : Option Reply)
  | posted (reply : Option Reply)

namespace Phase

def m2s : Phase → List Item
  | queued cmd => [cmd]
  | _ => []

def toSec : Phase → CStr
  | wire text => text
  | _ => []

def toSpp : Phase → CStr
  | answered (some reply) => reply.bytes
  | _ => []

def s2m (k : Nat) : Phase → List Item
  | posted reply => [message k reply]
  | _ => []

/-- The command that has been sent and not executed. -/
def unexecuted : Phase → List CStr
  | wire text | lost text => [text]
  | _ => []

/-- The reply that has been produced and not taken by the shell. -/
def untaken : Phase → List (Option CStr)
  | handled reply => [some reply.bytes]
  | answered reply | posting reply | posted reply => [reply.map Reply.bytes]
  | _ => []

/-- Where the secondary is after it has sent its reply, or has ended. -/
def secAfter : Option Reply → SecPc
  | some _ => .recv
  | none => .ended

/-- The place of the thread and that of the secondary.  A thread whose secondary has ended does not take commands. -/
def Places (k : Nat) (pc : ConnPc) (sec : SecPc) : Phase → Prop
  | idle | queued _ => pc.inFlight = false ∧ (sec = .recv ∨ sec = .ended ∧ pc.left = true)
  | held cmd => pc = .send cmd ∧ sec = .recv
  | wire text => (pc = .recv ∨ pc.left = true) ∧ sec = .recv ∧ text ≠ []
  | lost _ => (pc = .recv ∨ pc.left = true) ∧ sec = .recv
  | handled reply => (pc = .recv ∨ pc.left = true) ∧ sec = .send reply
  | answered reply => (pc = .recv ∨ pc.left = true) ∧ sec = secAfter reply
  | posting reply => pc = .post (message k reply) ∧ sec = secAfter reply
  | posted reply => pc.inFlight = false ∧ sec = secAfter reply ∧ (reply = none → pc.left = true)

end Phase

/-- The connection is in a phase. -/
structure View.At (k : Nat) (v : View) (p : Phase) : Prop where
  busy : v.busy = false → p = .idle
  m2s : v.m2s = p.m2s
  toSec : v.toSec = p.toSec
  toSpp : v.toSpp = p.toSpp
  s2m : v.s2m = p.s2m k
  commands : v.commands = v.executed.map Prod.fst ++ p.unexecuted
  messages : v.executed.map (fun x => x.2.map Reply.bytes) = v.messages ++ p.untaken
  places : p.Places k v.pc v.sec

namespace Phase.Places

variable {k : Nat} {p : Phase} {pc : ConnPc} {sec : SecPc}

private theorem walk {pc' : ConnPc} (h : p.Places k pc sec) (hpc : pc.inFlight = false) (hpc' : pc'.inFlight = false)
    (hleft : pc.left = true → pc'.left = true) : p.Places k pc' sec := by
  cases p with
  | idle | queued => exact ⟨hpc', h.2.imp_right (And.imp_right hleft)⟩
  | held | posting =>
    rw [h.1] at hpc
    cases hpc
  | wire | lost | handled | answered =>
    refine ⟨Or.inr ?_, h.2⟩
    rcases h.1 with rfl | h
    · cases hpc
    · exact hleft h
  | posted => exact ⟨hpc', h.2.1, fun hreply => hleft (h.2.2 hreply)⟩

/-- A thread at `send` holds the command. -/
private theorem eq_held {cmd : Item} (h : p.Places k (.send cmd) sec) : p = .held cmd := by
  cases p with
  | held cmd' =>
    cases h.1
    rfl
  | idle | queued | posted => cases h.1
  | wire | lost | handled | answered => rcases h.1 with h | h <;> cases h
  | posting => cases h.1

private theorem eq_posting {item : Item} (h : p.Places k (.post item) sec) :
    ∃ reply, p = .posting reply ∧ item = message k reply := by
  cases p with
  | posting reply =>
    cases h.1
    exact ⟨reply, rfl, rfl⟩
  | idle | queued | posted => cases h.1
  | wire | lost | handled | answered => rcases h.1 with h | h <;> cases h
  | held => cases h.1

private theorem raise (h : p.Places k .recv sec) : p.Places k .remove sec := by
  cases p with
  | wire | lost | handled | answered => exact ⟨Or.inr rfl, h.2⟩
  | idle | queued | posted => cases h.1
  | held | posting => cases h.1

/-- The secondary sends a reply only in its own phase. -/
private theorem eq_handled {reply : Reply} (h : p.Places k pc (.send reply)) : p = .handled reply := by
  cases p with
  | handled reply' =>
    cases h.2
    rfl
  | idle | queued => rcases h.2 with h | ⟨h, _⟩ <;> cases h
  | held | lost => cases h.2
  | wire => cases h.2.1
  | answered reply' | posting reply' => cases reply' <;> cases h.2
  | posted reply' => cases reply' <;> cases h.2.1

/-- A thread that waits for a secondary that has ended. -/
private theorem eq_answered (h : p.Places k .recv .ended) : p = .answered none := by
  cases p with
  | answered reply =>
    cases reply with
    | none => rfl
    | some reply => cases h.2
  | idle | queued | posted => cases h.1
  | held | posting => cases h.1
  | lost | handled => cases h.2
  | wire => cases h.2.1

end Phase.Places

namespace View.At

variable {k : Nat} {v : View} {p : Phase}

/-- The shell issues a command only when nothing is on its way. -/
private theorem put (h : v.At k p) (hfree : v.busy = false) (text : CStr) :
    ({ v with busy := true, m2s := v.m2s ++ [.command k text] } : View).At k (.queued (.command k text)) := by
  obtain rfl := h.busy hfree
  refine ⟨by simp, ?_, h.toSec, h.toSpp, h.s2m, h.commands, h.messages, h.places⟩
  rw [h.m2s]
  rfl

/-- With the message in the hands of the shell the cycle is closed. -/
private theorem get (h : v.At k p) {item : Item} {rest : List Item} (hitem : v.s2m = item :: rest) :
    ({ v with busy := false, s2m := rest, messages := v.messages ++ [item.data] } : View).At k .idle := by
  rw [h.s2m] at hitem
  cases p with
  | posted reply =>
    cases hitem
    refine ⟨fun _ => rfl, h.m2s, h.toSec, h.toSpp, rfl, h.commands,
      by simpa [message, Item.data, Phase.untaken] using h.messages, ?_⟩
    obtain ⟨hempty, hsec, hleft⟩ := h.places
    cases reply with
    | none => exact ⟨hempty, Or.inr ⟨hsec, hleft rfl⟩⟩
    | some reply => exact ⟨hempty, Or.inl hsec⟩
  | _ => cases hitem

private theorem take (h : v.At k p) {cmd : Item} {rest : List Item} (hpc : v.pc = .get) (hcmd : v.m2s = cmd :: rest) :
    ({ v with m2s := rest, pc := .send cmd } : View).At k (.held cmd) := by
  have hplaces := h.places
  rw [h.m2s] at hcmd
  rw [hpc] at hplaces
  cases p with
  | queued cmd' =>
    cases hcmd
    have hsec : v.sec = .recv := hplaces.2.resolve_right (fun hleft => nomatch hleft.2)
    exact ⟨fun hfree => (nomatch h.busy hfree), rfl, h.toSec, h.toSpp, h.s2m, h.commands, h.messages, rfl, hsec⟩
  | _ => cases hcmd

/-- A command without text never arrives. -/
private theorem send {cmd : Item} (h : v.At k (.held cmd)) :
    ({ v with pc := .recv, toSec := v.toSec ++ cmd.text, commands := v.commands ++ [cmd.text] } : View).At k
      (if cmd.text = [] then .lost cmd.text else .wire cmd.text) := by
  have hcommands : v.commands ++ [cmd.text] = v.executed.map Prod.fst ++ [cmd.text] := by
    rw [h.commands]
    simp [Phase.unexecuted]
  have htoSec : v.toSec ++ cmd.text = cmd.text := by
    rw [h.toSec]
    rfl
  split
  · rename_i htext
    exact ⟨fun hfree => (nomatch h.busy hfree), h.m2s, htoSec.trans htext, h.toSpp, h.s2m, hcommands, h.messages,
      Or.inl rfl, h.places.2⟩
  · rename_i htext
    exact ⟨fun hfree => (nomatch h.busy hfree), h.m2s, htoSec, h.toSpp, h.s2m, hcommands, h.messages, Or.inl rfl,
      h.places.2, htext⟩

private theorem sendRaises {cmd : Item} (h : v.At k (.held cmd)) :
    ({ v with pc := .remove, commands := v.commands ++ [cmd.text] } : View).At k (.lost cmd.text) := by
  refine ⟨fun hfree => (nomatch h.busy hfree), h.m2s, h.toSec, h.toSpp, h.s2m, ?_, h.messages, Or.inr rfl, h.places.2⟩
  rw [h.commands]
  simp [Phase.unexecuted]

/-- What is there is the whole reply. -/
private theorem recv (h : v.At k p) (hdata : v.toSpp ≠ []) :
    ∃ reply, ({ v with pc := .post (.message k (some v.toSpp)), toSpp := [] } : View).At k (.posting (some reply)) := by
  rw [h.toSpp] at hdata
  cases p with
  | answered reply =>
    cases reply with
    | none => exact absurd rfl hdata
    | some reply =>
      refine ⟨reply, fun hfree => (nomatch h.busy hfree), h.m2s, h.toSec, rfl, h.s2m, h.commands, h.messages, ?_,
        h.places.2⟩
      rw [h.toSpp]
      rfl
  | _ => exact absurd rfl hdata

private theorem recvEnd (h : v.At k (.answered none)) :
    ({ v with pc := .post (.message k none) } : View).At k (.posting none) :=
  ⟨fun hfree => (nomatch h.busy hfree), h.m2s, h.toSec, h.toSpp, h.s2m, h.commands, h.messages, rfl, h.places.2⟩

private theorem post {reply : Option Reply} (h : v.At k (.posting reply)) :
    ({ v with pc := if reply.map Reply.bytes = none then .remove else .select,
              s2m := v.s2m ++ [message k reply] } : View).At k (.posted reply) := by
  refine ⟨fun hfree => (nomatch h.busy hfree), h.m2s, h.toSec, h.toSpp, ?_, h.commands, h.messages, ?_⟩
  · rw [h.s2m]
    rfl
  · cases reply with
    | none => exact ⟨rfl, h.places.2, fun _ => rfl⟩
    | some reply => exact ⟨rfl, h.places.2, nofun⟩

/-- The secondary takes the whole command. -/
private theorem secRecv (h : v.At k p) (htext : v.toSec ≠ []) (reply : Option Reply) :
    ∃ q, ({ v with toSec := [], sec := .after reply, executed := v.executed ++ [(v.toSec, reply)] } : View).At k q := by
  rw [h.toSec] at htext
  cases p with
  | wire text =>
    have hcommands : v.commands = (v.executed ++ [(v.toSec, reply)]).map Prod.fst ++ [] := by
      rw [h.commands, h.toSec]
      simp [Phase.unexecuted, Phase.toSec]
    have hmessages : (v.executed ++ [(v.toSec, reply)]).map (fun x => x.2.map Reply.bytes) =
        v.messages ++ [reply.map Reply.bytes] := by
      rw [List.map_append, h.messages]
      simp [Phase.untaken]
    cases reply with
    | none =>
      exact ⟨.answered none, fun hfree => (nomatch h.busy hfree), h.m2s, rfl, h.toSpp, h.s2m, hcommands, hmessages,
        h.places.1, rfl⟩
    | some reply =>
      exact ⟨.handled reply, fun hfree => (nomatch h.busy hfree), h.m2s, rfl, h.toSpp, h.s2m, hcommands, hmessages,
        h.places.1, rfl⟩
  | _ => exact absurd rfl htext

private theorem secSend {reply : Reply} (h : v.At k (.handled reply)) :
    ({ v with sec := .recv, toSpp := v.toSpp ++ reply.bytes } : View).At k (.answered (some reply)) := by
  refine ⟨fun hfree => (nomatch h.busy hfree), h.m2s, h.toSec, ?_, h.s2m, h.commands, h.messages, h.places.1, rfl⟩
  rw [h.toSpp]
  rfl

end View.At

/-- Every move leads from a phase to a phase. -/
private theorem Move.at {k : Nat} {v w : View} (hmove : Move k v w) {p : Phase} (h : v.At k p) : ∃ q, w.At k q := by
  have hplaces := h.places
  cases hmove with
  | stop => exact ⟨p, by simp, h.m2s, h.toSec, h.toSpp, h.s2m, h.commands, h.messages, hplaces⟩
  | put text hfree => exact ⟨_, h.put hfree text⟩
  | get item rest hitem => exact ⟨_, h.get hitem⟩
  | walk pc hempty hempty' hleft =>
    exact ⟨p, h.busy, h.m2s, h.toSec, h.toSpp, h.s2m, h.commands, h.messages, hplaces.walk hempty hempty' hleft⟩
  | take cmd rest hpc hcmd => exact ⟨_, h.take hpc hcmd⟩
  | send cmd hpc =>
    rw [hpc] at hplaces
    obtain rfl := hplaces.eq_held
    exact ⟨_, h.send⟩
  | sendRaises cmd hpc =>
    rw [hpc] at hplaces
    obtain rfl := hplaces.eq_held
    exact ⟨_, h.sendRaises⟩
  | recv hpc hdata =>
    obtain ⟨reply, hnext⟩ := h.recv hdata
    exact ⟨_, hnext⟩
  | recvEnd hpc hdata hsec =>
    rw [hpc, hsec] at hplaces
    obtain rfl := hplaces.eq_answered
    exact ⟨_, h.recvEnd⟩
  | recvRaises hpc =>
    rw [hpc] at hplaces
    exact ⟨p, h.busy, h.m2s, h.toSec, h.toSpp, h.s2m, h.commands, h.messages, hplaces.raise⟩
  | post data hpc =>
    rw [hpc] at hplaces
    obtain ⟨reply, rfl, hitem⟩ := hplaces.eq_posting
    cases hitem
    exact ⟨_, h.post⟩
  | secRecv reply hsec htext => exact h.secRecv htext reply
  | secSend reply hsec =>
    rw [hsec] at hplaces
    obtain rfl := hplaces.eq_handled
    exact ⟨_, h.secSend⟩

/-! ### The controller in the cycle -/

section

variable {σ : Type}

/-- The view of connection `k`. -/
def Net.view (k : Nat) (n : Net σ) : View where
  busy := n.spp.shell.busy k
  m2s := n.spp.queue (2 * k)
  pc := n.spp.threadPc k
  toSec := n.toSec
  sec := n.sec
  executed := n.executed
  toSpp := n.toSpp
  s2m := n.spp.queue (2 * k + 1)
  commands := n.spp.commands k
  messages := n.spp.messages k

/-- Nothing happens to connection `k`, or a move. -/
def Moves (k : Nat) (n n' : Net σ) : Prop := n'.view k = n.view k ∨ Move k (n.view k) (n'.view k)

variable {k : Nat} {n : Net σ}

private theorem moves_of_sameFor {s : State} (h : SameFor k n.spp s) : Moves k n { n with spp := s } := by
  left
  simp only [Net.view, h.shell, h.m2s, h.s2m, h.thread, h.commands, h.messages]

/-- Steps of the shell that do not use the queues of connections. -/
private theorem moves_of_busy {s : State} (h : s.shell.busy k = n.spp.shell.busy k) (hqueues : s.queues = n.spp.queues)
    (hconns : s.conns = n.spp.conns) (hsent : s.sent = n.spp.sent) (hprinted : s.printed = n.spp.printed) :
    Moves k n { n with spp := s } := by
  left
  simp only [Net.view, State.queue, State.threadPc, State.commands, State.messages, h, hqueues, hconns, hsent, hprinted]

private theorem moves_to {n' : Net σ} {v : View} (hmove : Move k (n.view k) v) (hview : n'.view k = v) : Moves k n n' :=
  Or.inr (hview ▸ hmove)

/-- The shell stops because connection `j` has no queue. -/
private theorem moves_noQueue {j : Nat} (hbusy : n.spp.shell.busy k = false) :
    Moves k n { n with spp := { n.spp with shell := .noQueue j } } := by
  by_cases hj : j = k
  · subst hj
    exact moves_to (.stop _) (View.ext (by simp [Net.view, ShellPc.busy]) rfl rfl rfl rfl rfl rfl rfl rfl rfl)
  · exact moves_of_busy (by rw [hbusy]; simp [ShellPc.busy, hj]) rfl rfl rfl rfl

/-- The shell puts a command into the queue of connection `j`. -/
private theorem moves_put {j : Nat} {text : CStr} (hbusy : n.spp.shell.busy k = false)
    (hlt : 2 * j < n.spp.queues.length) :
    Moves k n { n with spp := { n.spp.put (2 * j) (.command j text) with shell := .secIndexReply j } } := by
  by_cases hj : j = k
  · subst hj
    exact moves_to (.put _ text hbusy) (View.ext (by simp [Net.view, ShellPc.busy]) (queue_put_self hlt _) rfl rfl rfl rfl
      rfl (queue_put_ne (by omega) _) rfl rfl)
  · left
    have hother : ShellPc.busy k (.secIndexReply j) = n.spp.shell.busy k := by
      rw [hbusy]
      exact decide_eq_false hj
    exact View.ext hother (queue_put_ne (by omega) _) rfl rfl rfl rfl rfl
      (queue_put_ne (by omega) _) rfl rfl

/-- The shell takes the answer of connection `j` and prints it. -/
private theorem moves_print {j : Nat} {item : Item} {rest : List Item} (hbusy : n.spp.shell.busy k = decide (j = k))
    (hitems : n.spp.queue (2 * j + 1) = item :: rest) :
    Moves k n { n with spp := { n.spp.pop (2 * j + 1) with
      shell := .idle, printed := n.spp.printed ++ [(j, item)] } } := by
  by_cases hj : j = k
  · subst hj
    refine moves_to (.get _ item rest hitems) (View.ext rfl (queue_pop_ne (by omega)) rfl rfl rfl rfl rfl ?_ rfl
      (by simp [Net.view, State.messages]))
    show (n.spp.pop (2 * j + 1)).queue (2 * j + 1) = rest
    rw [queue_pop_self, hitems]
    rfl
  · left
    have hother : ShellPc.busy k .idle = n.spp.shell.busy k := by
      rw [hbusy]
      exact (decide_eq_false hj).symm
    exact View.ext hother (queue_pop_ne (by omega)) rfl rfl rfl rfl rfl
      (queue_pop_ne (by omega)) rfl (by simp [Net.view, State.messages, hj])

private theorem moves_shell (h : Routed n.spp) (input : Input) : Moves k n { n with spp := n.spp.shellStep input } := by
  have hshell := h.shell
  unfold State.shellStep
  cases hpc : n.spp.shell with
  | idle =>
    cases input with
    | sec j text => exact moves_of_busy (by rw [hpc]; rfl) rfl rfl rfl rfl
    | pri text => exact moves_of_busy (by rw [hpc]; rfl) rfl rfl rfl rfl
    | other => exact Or.inl rfl
  | secTest j text =>
    refine moves_of_busy ?_ rfl rfl rfl rfl
    rw [hpc]
    show ShellPc.busy k (if j ∈ n.spp.secondaryList then .secIndex j text else .crashed) = false
    split <;> rfl
  | secIndex j text =>
    simp only
    split
    · exact moves_of_busy (by rw [hpc]; rfl) rfl rfl rfl rfl
    · exact moves_noQueue (by rw [hpc]; rfl)
  | secPut j q text =>
    rw [hpc] at hshell
    obtain ⟨rfl, hlt⟩ := hshell
    exact moves_put (by rw [hpc]; rfl) hlt
  | secIndexReply j =>
    simp only
    split <;> exact moves_of_busy (by rw [hpc]; rfl) rfl rfl rfl rfl
  | secGet j q =>
    rw [hpc] at hshell
    obtain ⟨rfl, -⟩ := hshell
    simp only
    split
    · exact Or.inl rfl
    · rename_i item rest hitems
      exact moves_print (by rw [hpc]; simp [ShellPc.busy]) hitems
  | priTest text =>
    refine moves_of_busy ?_ rfl rfl rfl rfl
    rw [hpc]
    show ShellPc.busy k (if n.spp.primary = some true then .priPut text else .idle) = false
    split <;> rfl
  | priPut text => exact moves_of_busy (by rw [hpc]; rfl) rfl rfl rfl rfl
  | priGet =>
    simp only
    split
    · exact Or.inl rfl
    · exact moves_of_busy (by rw [hpc]; rfl) rfl rfl rfl rfl
  | crashed => exact Or.inl rfl
  | noQueue j => exact Or.inl rfl

private theorem moves_thread (h : Routed n.spp) {out : Option CStr} (hwhole : n.Whole k (.spp (.conn k out))) :
    Moves k n (n.threadStep k out) := by
  cases hc : n.spp.conns[k]? with
  | none =>
    -- the thread has not been started
    left
    have hpc : n.spp.threadPc k = .select := by simp [State.threadPc, hc]
    have hstep : n.spp.step (.conn k out) = n.spp := by simp only [State.step, hc]
    simp only [Net.threadStep, hpc, hstep]
  | some c =>
    have hpc : n.spp.threadPc k = c.pc := threadPc_eq hc
    have hlen : k < n.spp.conns.length := (List.getElem?_eq_some_iff.1 hc).1
    obtain ⟨hid, hconn, hm2s, hs2m, hsend, hpost⟩ := h.conns k c hc
    have hstep : n.spp.step (.conn k out) = n.spp.connStep k c out := by simp only [State.step, hc]
    have hview : (n.view k).pc = c.pc := hpc
    unfold Net.threadStep
    rw [hpc, hstep]
    unfold State.connStep
    cases hcpc : c.pc with
    | select =>
      refine moves_to (.walk (n.view k) (if out = none then .remove else .get) (by rw [hview, hcpc]; rfl) ?_
        (by rw [hview, hcpc]; simp [ConnPc.left])) (View.ext rfl rfl (threadPc_set hlen) rfl rfl rfl rfl rfl rfl rfl)
      split <;> rfl
    | get =>
      simp only
      split
      · exact Or.inl rfl
      · rename_i cmd rest hitems
        rw [hm2s] at hitems ⊢
        refine moves_to (.take (n.view k) cmd rest (hview.trans hcpc) hitems) (View.ext rfl ?_ (threadPc_set hlen) rfl rfl
          rfl rfl (queue_pop_ne (by omega)) rfl rfl)
        show (n.spp.pop (2 * k)).queue (2 * k) = rest
        rw [queue_pop_self, hitems]
        rfl
    | send cmd =>
      have hcommands : (n.spp.sent ++ [(c.conn, cmd)]).filter (fun x => x.1 = k) =
          n.spp.sent.filter (fun x => x.1 = k) ++ [(c.conn, cmd)] := by
        simp [hconn]
      cases out with
      | none =>
        refine moves_to (.sendRaises (n.view k) cmd (hview.trans hcpc)) (View.ext rfl rfl (threadPc_set hlen) rfl rfl rfl
          rfl rfl ?_ rfl)
        simp [Net.view, State.commands, hcommands]
      | some data =>
        refine moves_to (.send (n.view k) cmd (hview.trans hcpc)) (View.ext rfl rfl (threadPc_set hlen) rfl rfl rfl
          rfl rfl ?_ rfl)
        simp [Net.view, State.commands, hcommands]
    | recv =>
      cases out with
      | none =>
        exact moves_to (.recvRaises (n.view k) (hview.trans hcpc))
          (View.ext rfl rfl (threadPc_set hlen) rfl rfl rfl rfl rfl rfl rfl)
      | some data =>
        simp only
        split
        · rename_i harrives
          obtain rfl := hwhole rfl (hpc.trans hcpc) harrives
          rw [hconn]
          rcases harrives with ⟨hdata, -, -⟩ | ⟨-, hend, hsec⟩
          · refine moves_to (.recv (n.view k) (hview.trans hcpc) hdata) (View.ext rfl rfl ?_ rfl rfl rfl List.drop_length
              rfl rfl rfl)
            rw [if_neg hdata]
            exact threadPc_set hlen
          · rw [hend]
            exact moves_to (.recvEnd (n.view k) (hview.trans hcpc) hend hsec)
              (View.ext rfl rfl (threadPc_set hlen) rfl rfl rfl hend.symm rfl rfl rfl)
        · exact Or.inl rfl
    | post msg =>
      obtain ⟨data, rfl⟩ := (hpost msg hcpc).message
      rw [hs2m]
      refine moves_to (.post (n.view k) data (hview.trans hcpc)) (View.ext rfl (queue_put_ne (by omega) _) ?_ rfl rfl rfl
        rfl (queue_put_self (h.registration.conn_lt hlen) _) rfl rfl)
      cases data <;> exact threadPc_set hlen
    | remove =>
      exact moves_to (.walk (n.view k) .close (by rw [hview, hcpc]; rfl) rfl (fun _ => rfl))
        (View.ext rfl rfl (threadPc_set hlen) rfl rfl rfl rfl rfl rfl rfl)
    | close =>
      exact moves_to (.walk (n.view k) .ended (by rw [hview, hcpc]; rfl) rfl (fun _ => rfl))
        (View.ext rfl rfl (threadPc_set hlen) rfl rfl rfl rfl rfl rfl rfl)
    | ended => exact Or.inl rfl

theorem moves_step (handle : σ → CStr → σ × Option Reply) (h : Routed n.spp) {e : NetEvent} (hwhole : n.Whole k e) :
    Moves k n (n.step handle k e) := by
  cases e with
  | spp e =>
    cases e with
    | shell input => exact moves_shell h input
    | accept ok => exact moves_of_sameFor (acceptStep_sameFor k n.spp ok)
    | conn i out =>
      simp only [Net.step]
      split
      · rename_i hik
        subst hik
        exact moves_thread h hwhole
      · rename_i hik
        simp only [State.step]
        split
        · rename_i c hc
          exact moves_of_sameFor (connStep_sameFor hik n.spp (h.conns i c hc) out)
        · exact Or.inl rfl
    | primary out => exact moves_of_sameFor (primaryStep_sameFor k n.spp out)
  | secRecv text =>
    simp only [Net.step]
    split
    · rename_i hsec
      split
      · rename_i harrives
        right
        obtain rfl := hwhole hsec harrives
        obtain ⟨data, reply⟩ := handle n.data n.toSec
        rw [List.drop_length]
        exact .secRecv (n.view k) reply hsec harrives.1
      · exact Or.inl rfl
    · exact Or.inl rfl
  | secSend =>
    simp only [Net.step]
    split
    · rename_i reply hsec
      exact Or.inr (.secSend (n.view k) reply hsec)
    · exact Or.inl rfl

private theorem routed_threadStep (h : Routed n.spp) (out : Option CStr) : Routed (n.threadStep k out).spp := by
  have hstep : (n.threadStep k out).spp = n.spp ∨ (n.threadStep k out).spp = n.spp.step (.conn k out) := by
    unfold Net.threadStep
    split
    · exact Or.inr rfl
    · split
      · exact Or.inr rfl
      · exact Or.inl rfl
    · exact Or.inr rfl
  rcases hstep with heq | heq <;> rw [heq]
  · exact h
  · exact h.step _

/-- The controller takes a step of its own or none. -/
private theorem routed_step (handle : σ → CStr → σ × Option Reply) (h : Routed n.spp) (e : NetEvent) :
    Routed (n.step handle k e).spp := by
  cases e with
  | spp e =>
    cases e with
    | shell input => exact h.step (.shell input)
    | accept ok => exact h.step (.accept ok)
    | conn i out =>
      simp only [Net.step]
      split
      · exact routed_threadStep h out
      · exact h.step (.conn i out)
    | primary out => exact h.step (.primary out)
  | secRecv text =>
    simp only [Net.step]
    split
    · split <;> exact h
    · exact h
  | secSend =>
    simp only [Net.step]
    split <;> exact h

/-- The connection is in one of the phases. -/
def InCycle (k : Nat) (n : Net σ) : Prop := Routed n.spp ∧ ∃ p, (n.view k).At k p

theorem InCycle.step (handle : σ → CStr → σ × Option Reply) (h : InCycle k n) {e : NetEvent} (hwhole : n.Whole k e) :
    InCycle k (n.step handle k e) := by
  obtain ⟨hrouted, p, hp⟩ := h
  refine ⟨routed_step handle hrouted e, ?_⟩
  rcases moves_step handle hrouted hwhole with hsame | hmove
  · exact ⟨p, hsame ▸ hp⟩
  · exact hmove.at hp

private theorem InCycle.matched (h : InCycle k n) : n.Matched k := by
  obtain ⟨-, p, hp⟩ := h
  have hcommands : n.spp.commands k = n.executed.map Prod.fst ++ p.unexecuted := hp.commands
  have hmessages : n.executed.map (fun x => x.2.map Reply.bytes) = n.spp.messages k ++ p.untaken := hp.messages
  refine ⟨?_, ?_, fun hfree => ?_⟩
  · rw [hcommands]
    exact List.prefix_append _ _
  · rw [hmessages]
    exact List.prefix_append _ _
  · obtain rfl := hp.busy hfree
    exact ⟨by simpa [Phase.unexecuted] using hcommands.symm, by simpa [Phase.untaken] using hmessages.symm⟩

/-- In a run in which every `recv` on connection `k` returns all that is there, the secondary executes the commands that
were sent, once each and in order, and the messages that the shell takes are its replies to them.  The other threads and
connections, and what the secondary does with a command, do not matter. -/
theorem matched_of_whole (handle : σ → CStr → σ × Option Reply) (k : Nat) (data : σ) {es : List NetEvent}
    (h : Along (Net.step handle k) (Net.Whole k) { data := data } es) (j : Nat) :
    ((es.take j).foldl (Net.step handle k) { data := data }).Matched k := by
  have hstart : InCycle k ({ data := data } : Net σ) :=
    ⟨routed_run [], .idle, fun _ => rfl, rfl, rfl, rfl, rfl, rfl, rfl, rfl, Or.inl rfl⟩
  exact (h.invariant (fun hs hok => hs.step handle hok) hstart j).matched

end

/-- Two commands, of which the second ends the secondary. -/
def startExit : List NetEvent :=
  acceptOne.map .spp ++ issue "start".toList ++ [.secRecv "start".toList, .secSend] ++
    receive (Reply.ofText "start".toList).bytes ++ issue "exit".toList ++ [.secRecv "exit".toList] ++ receive []

theorem matched_startExit :
    Along (Net.step plainHandle 0) (Net.Whole 0) { data := () } startExit ∧
    (startExit.foldl (Net.step plainHandle 0) { data := () }).spp.messages 0 =
      [some (Reply.ofText "start".toList).bytes, none] ∧
    ∀ j, ((startExit.take j).foldl (Net.step plainHandle 0) { data := () }).Matched 0 :=
  ⟨by decide +kernel, by decide +kernel, matched_of_whole plainHandle 0 () (by decide +kernel)⟩

end SoftPatchPanel.Spp

import SoftPatchPanel.Spp.Exchange
import SoftPatchPanel.Secondary.Dispatch
import SoftPatchPanel.Secondary.Script

/-!
# From the console to the forwarding table

Seen from the console a connection is a machine that executes one command after another: as long as every `recv` returns
all that is there, whatever the threads do, the commands typed for `k` are executed in their order by one call of the
handler each, and each is answered by what its own call returned (`Ledger.refines`).

With the message loop of `sec_zerocpy` as the handler, the ports of a secondary are patched as the last commands typed
for it say (`session_patches`).
-/

namespace SoftPatchPanel.Spp

open Lib

/-! ### What is typed -/

/-- The command for `k` that the shell takes from an input. -/
def typedBy (k : Nat) (s : State) : Input → List CStr
  | .sec j text => if s.shell = .idle ∧ j = k then [text] else []
  | _ => []

/-- The command for `k` that the shell reads in a step. -/
def typedAt {σ : Type} (k : Nat) (n : Net σ) : NetEvent → List CStr
  | .spp (.shell input) => typedBy k n.spp input
  | _ => []

/-- The commands for `k` that the shell reads in a run. -/
def typed {σ : Type} (handle : σ → CStr → σ × Option Reply) (k : Nat) : Net σ → List NetEvent → List CStr
  | _, [] => []
  | n, e :: es => typedAt k n e ++ typed handle k (n.step handle k e) es

/-- The command for `k` that the shell has read and not yet put into a queue. -/
def ShellPc.pending (k : Nat) : ShellPc → List CStr
  | .secTest j text | .secIndex j text | .secPut j _ text => if j = k then [text] else []
  | _ => []

/-- An exception has ended the command loop. -/
def ShellPc.failed : ShellPc → Bool
  | .crashed | .noQueue _ => true
  | _ => false

/-- The command that the thread has taken and not yet sent. -/
def ConnPc.held : ConnPc → List CStr
  | .send cmd => [cmd.text]
  | _ => []

/-- The commands that were put into the queue of connection `k` so far. -/
def State.issued (k : Nat) (s : State) : List CStr :=
  s.commands k ++ (s.threadPc k).held ++ (s.queue (2 * k)).map Item.text

@[inherit_doc State.issued]
def View.issued (v : View) : List CStr := v.commands ++ v.pc.held ++ v.m2s.map Item.text

section

variable {σ : Type} {handle : σ → CStr → σ × Option Reply} {k : Nat} {n : Net σ} {s : State}

private theorem ConnPc.held_of_not_inFlight {pc : ConnPc} (h : pc.inFlight = false) : pc.held = [] := by
  cases pc with
  | send => cases h
  | _ => rfl

/-- Only the shell issues commands. -/
private theorem Move.issued {v w : View} (h : Move k v w) (hbusy : w.busy = v.busy) : w.issued = v.issued := by
  cases h with
  | stop | get | secRecv | secSend => rfl
  | put text hfree =>
    rw [hfree] at hbusy
    cases hbusy
  | walk pc hpc hpc' => simp only [View.issued, ConnPc.held_of_not_inFlight hpc, ConnPc.held_of_not_inFlight hpc']
  | take cmd rest hpc hm2s => simp [View.issued, hpc, hm2s, ConnPc.held]
  | send cmd hpc => simp [View.issued, hpc, ConnPc.held]
  | sendRaises cmd hpc => simp [View.issued, hpc, ConnPc.held]
  | recv hpc => simp [View.issued, hpc, ConnPc.held]
  | recvEnd hpc => simp [View.issued, hpc, ConnPc.held]
  | recvRaises hpc => simp [View.issued, hpc, ConnPc.held]
  | post data hpc => cases data <;> simp [View.issued, hpc, ConnPc.held]

private theorem State.issued_congr {s' : State} (hsent : s'.sent = s.sent) (hconns : s'.conns = s.conns)
    (hqueue : s'.queue (2 * k) = s.queue (2 * k)) : s'.issued k = s.issued k := by
  simp only [State.issued, State.commands, State.threadPc, hsent, hconns, hqueue]

private theorem State.issued_put {j : Nat} (hlt : 2 * j < s.queues.length) (text : CStr) :
    (s.put (2 * j) (.command j text)).issued k = s.issued k ++ if j = k then [text] else [] := by
  by_cases hj : j = k
  · subst hj
    unfold State.issued
    rw [queue_put_self hlt, if_pos rfl, List.map_append, ← List.append_assoc]
    rfl
  · rw [if_neg hj, List.append_nil]
    exact State.issued_congr rfl rfl (queue_put_ne (by omega) _)

/-- What the shell reads goes into the queue, unless an exception ends its loop. -/
private theorem issued_shellStep (h : Routed s) (input : Input) (hok : (s.shellStep input).shell.failed = false) :
    (s.shellStep input).issued k ++ (s.shellStep input).shell.pending k =
      s.issued k ++ s.shell.pending k ++ typedBy k s input := by
  have hshell := h.shell
  have htyped : s.shell ≠ .idle → typedBy k s input = [] := by
    intro hne
    cases input with
    | sec j text => exact if_neg (fun hj => hne hj.1)
    | _ => rfl
  unfold State.shellStep at hok ⊢
  cases hpc : s.shell with
  | idle =>
    cases input with
    | sec j text => simp only [hpc, typedBy, true_and, ShellPc.pending, List.append_nil]; rfl
    | pri text => simp only [typedBy, ShellPc.pending, List.append_nil]; rfl
    | other => simp only [hpc, typedBy, List.append_nil]
  | secTest j text =>
    rw [htyped (by rw [hpc]; exact ShellPc.noConfusion), List.append_nil]
    simp only [hpc] at hok ⊢
    by_cases hmem : j ∈ s.secondaryList
    · rw [if_pos hmem]
      rfl
    · rw [if_neg hmem] at hok
      cases hok
  | secIndex j text =>
    rw [htyped (by rw [hpc]; exact ShellPc.noConfusion), List.append_nil]
    simp only [hpc] at hok ⊢
    split
    · rfl
    · rename_i hnone
      split at hok
      · exact absurd ‹_› (hnone _)
      · cases hok
  | secPut j q text =>
    rw [htyped (by rw [hpc]; exact ShellPc.noConfusion), List.append_nil]
    rw [hpc] at hshell
    obtain ⟨rfl, hlt⟩ := hshell
    simp only [ShellPc.pending, List.append_nil]
    rw [← State.issued_put hlt text]
    rfl
  | secIndexReply j =>
    rw [htyped (by rw [hpc]; exact ShellPc.noConfusion), List.append_nil]
    simp only
    split <;> rfl
  | secGet j q =>
    rw [htyped (by rw [hpc]; exact ShellPc.noConfusion), List.append_nil]
    rw [hpc] at hshell
    obtain ⟨rfl, -⟩ := hshell
    simp only
    split
    · rw [hpc]
    · simp only [ShellPc.pending, List.append_nil]
      exact State.issued_congr rfl rfl (queue_pop_ne (by omega))
  | priTest text =>
    rw [htyped (by rw [hpc]; exact ShellPc.noConfusion), List.append_nil]
    simp only
    split <;> rfl
  | priPut text =>
    rw [htyped (by rw [hpc]; exact ShellPc.noConfusion), List.append_nil]
    rfl
  | priGet =>
    rw [htyped (by rw [hpc]; exact ShellPc.noConfusion), List.append_nil]
    simp only
    split
    · rw [hpc]
    · rfl
  | crashed | noQueue =>
    simp only [hpc] at hok
    cases hok

private theorem connStep_shell (s : State) (i : Nat) (c : Conn) (out : Option CStr) :
    (s.connStep i c out).shell = s.shell := by
  unfold State.connStep
  cases c.pc with
  | get =>
    simp only
    split <;> rfl
  | recv => cases out <;> rfl
  | _ => rfl

/-- Only a step of the shell reads a command or changes the place of the shell. -/
private theorem shell_step (handle : σ → CStr → σ × Option Reply) (k : Nat) (n : Net σ) (e : NetEvent) :
    (∃ input, e = .spp (.shell input)) ∨ typedAt k n e = [] ∧ (n.step handle k e).spp.shell = n.spp.shell := by
  have hconn : ∀ i out, (n.spp.step (.conn i out)).shell = n.spp.shell := by
    intro i out
    simp only [State.step]
    split
    · exact connStep_shell _ _ _ _
    · rfl
  cases e with
  | spp e =>
    cases e with
    | shell input => exact Or.inl ⟨input, rfl⟩
    | accept ok => exact Or.inr ⟨rfl, (acceptStep_sameFor k n.spp ok).shell⟩
    | primary out => exact Or.inr ⟨rfl, (primaryStep_sameFor k n.spp out).shell⟩
    | conn i out =>
      refine Or.inr ⟨rfl, ?_⟩
      simp only [Net.step]
      split
      · unfold Net.threadStep
        split
        · exact hconn k _
        · split
          · exact hconn k _
          · rfl
        · exact hconn k _
      · exact hconn i out
  | secRecv text =>
    refine Or.inr ⟨rfl, ?_⟩
    simp only [Net.step]
    split
    · split <;> rfl
    · rfl
  | secSend =>
    refine Or.inr ⟨rfl, ?_⟩
    simp only [Net.step]
    split <;> rfl

/-! ### One command after another -/

/-- What a machine answers to a sequence of commands. -/
def answers (handle : σ → CStr → σ × Option Reply) : σ → List CStr → List (CStr × Option Reply)
  | _, [] => []
  | data, text :: texts => (text, (handle data text).2) :: answers handle (handle data text).1 texts

/-- Its state afterwards. -/
def dataAfter (handle : σ → CStr → σ × Option Reply) (data : σ) (texts : List CStr) : σ :=
  texts.foldl (fun data text => (handle data text).1) data

private theorem answers_concat (data : σ) (texts : List CStr) (text : CStr) :
    answers handle data (texts ++ [text]) =
      answers handle data texts ++ [(text, (handle (dataAfter handle data texts) text).2)] := by
  induction texts generalizing data with
  | nil => rfl
  | cons t texts ih =>
    rw [List.cons_append, answers, ih, answers, List.cons_append]
    rfl

private theorem dataAfter_concat (data : σ) (texts : List CStr) (text : CStr) :
    dataAfter handle data (texts ++ [text]) = (handle (dataAfter handle data texts) text).1 := by
  rw [dataAfter, List.foldl_append]
  rfl

/-- The commands that the secondary has executed were executed by a machine that does one after another, and everything
read by the shell is accounted for. -/
structure Ledger (handle : σ → CStr → σ × Option Reply) (k : Nat) (data : σ) (n : Net σ) (texts : List CStr) :
    Prop where
  cycle : InCycle k n
  issued : n.spp.shell.failed = false → texts = n.spp.issued k ++ n.spp.shell.pending k
  executed : n.executed = answers handle data (n.executed.map Prod.fst)
  data : n.data = dataAfter handle data (n.executed.map Prod.fst)

private theorem ledger_start (data : σ) : Ledger handle k data { data := data } [] :=
  ⟨⟨routed_run [], .idle, fun _ => rfl, rfl, rfl, rfl, rfl, rfl, rfl, rfl, Or.inl rfl⟩, fun _ => rfl, rfl, rfl⟩

private theorem failed_mono {input : Input} (h : (s.shellStep input).shell.failed = false) :
    s.shell.failed = false := by
  cases hpc : s.shell with
  | crashed | noQueue => simp [State.shellStep, hpc, ShellPc.failed] at h
  | _ => rfl

/-- A step executes a command or leaves the secondary's data alone. -/
private theorem executed_step (handle : σ → CStr → σ × Option Reply) (k : Nat) (n : Net σ) (e : NetEvent) :
    ((n.step handle k e).executed = n.executed ∧ (n.step handle k e).data = n.data) ∨
      ∃ text, (n.step handle k e).executed = n.executed ++ [(text, (handle n.data text).2)] ∧
        (n.step handle k e).data = (handle n.data text).1 := by
  cases e with
  | spp e =>
    left
    cases e with
    | conn i out =>
      simp only [Net.step]
      split
      · unfold Net.threadStep
        split
        · exact ⟨rfl, rfl⟩
        · split <;> exact ⟨rfl, rfl⟩
        · exact ⟨rfl, rfl⟩
      · exact ⟨rfl, rfl⟩
    | _ => exact ⟨rfl, rfl⟩
  | secRecv text =>
    simp only [Net.step]
    split
    · split
      · exact Or.inr ⟨text, rfl, rfl⟩
      · exact Or.inl ⟨rfl, rfl⟩
    · exact Or.inl ⟨rfl, rfl⟩
  | secSend =>
    left
    simp only [Net.step]
    split <;> exact ⟨rfl, rfl⟩

/-- Steps of others issue nothing. -/
private theorem issued_step (h : Routed n.spp) {e : NetEvent} (hwhole : n.Whole k e)
    (hshell : (n.step handle k e).spp.shell = n.spp.shell) :
    (n.step handle k e).spp.issued k = n.spp.issued k := by
  rcases moves_step handle h hwhole with hsame | hmove
  · exact congrArg View.issued hsame
  · exact hmove.issued (congrArg (ShellPc.busy k) hshell)

private theorem Ledger.step {data : σ} {texts : List CStr} (h : Ledger handle k data n texts) {e : NetEvent}
    (hwhole : n.Whole k e) : Ledger handle k data (n.step handle k e) (texts ++ typedAt k n e) := by
  refine ⟨h.cycle.step handle hwhole, fun hok => ?_, ?_, ?_⟩
  · rcases shell_step handle k n e with ⟨input, rfl⟩ | ⟨hnone, hshell⟩
    · rw [h.issued (failed_mono hok)]
      exact (issued_shellStep h.cycle.1 input hok).symm
    · rw [hshell] at hok
      rw [hnone, List.append_nil, h.issued hok, issued_step h.cycle.1 hwhole hshell, hshell]
  · rcases executed_step handle k n e with ⟨hsame, -⟩ | ⟨text, hnew, -⟩
    · rw [hsame]
      exact h.executed
    · rw [hnew, List.map_append, List.map_cons, List.map_nil, answers_concat, ← h.data, ← h.executed]
  · rcases executed_step handle k n e with ⟨hsame, hdata⟩ | ⟨text, hnew, hdata⟩
    · rw [hsame, hdata]
      exact h.data
    · rw [hnew, hdata, List.map_append, List.map_cons, List.map_nil, dataAfter_concat, ← h.data]

private theorem Ledger.run {data : σ} {texts : List CStr} (h : Ledger handle k data n texts) {es : List NetEvent}
    (hok : Along (Net.step handle k) (Net.Whole k) n es) :
    Ledger handle k data (es.foldl (Net.step handle k) n) (texts ++ typed handle k n es) := by
  induction es generalizing n texts with
  | nil => simpa [typed] using h
  | cons e es ih =>
    rw [List.foldl_cons, typed, ← List.append_assoc]
    exact ih (h.step hok.1) hok.2

/-- Between two commands everything that was read has been executed and answered. -/
theorem Ledger.refines {data : σ} {texts : List CStr} (h : Ledger handle k data n texts) (hidle : n.spp.shell = .idle) :
    n.executed = answers handle data texts ∧ n.data = dataAfter handle data texts ∧
      n.spp.messages k = (answers handle data texts).map (fun x => x.2.map Reply.bytes) := by
  have hfree : (n.view k).busy = false := congrArg (ShellPc.busy k) hidle
  obtain ⟨p, hp⟩ := h.cycle.2
  obtain rfl := hp.busy hfree
  have hheld : (n.spp.threadPc k).held = [] := ConnPc.held_of_not_inFlight hp.places.1
  have hm2s : n.spp.queue (2 * k) = [] := hp.m2s
  have hcommands : n.spp.commands k = n.executed.map Prod.fst := hp.commands.trans (List.append_nil _)
  have hmessages : n.executed.map (fun x => x.2.map Reply.bytes) = n.spp.messages k :=
    hp.messages.trans (List.append_nil _)
  have htexts : texts = n.executed.map Prod.fst := by
    rw [h.issued (by rw [hidle]; rfl), State.issued, hheld, hm2s, hcommands, hidle]
    simp [ShellPc.pending]
  rw [htexts, ← h.executed, ← hmessages]
  exact ⟨rfl, h.data, rfl⟩

end

/-! ### The secondary at the other end -/

section

open EthDev (Ports rteMaxEthports)
open SoftPatchPanel.Secondary (Outcome Command Bursts Visit Patched parse tokens received lastPatch)

/-- `str` after the calls of `strtok`: the blank behind each token is overwritten.  The flag says whether the place is
inside of a token. -/
def cutTokens : Bool → CStr → CStr
  | _, [] => []
  | inside, c :: str =>
    if c = '\x00' then c :: str
    else if c = ' ' then (if inside then '\x00' else c) :: cutTokens false str
    else c :: cutTokens true str

/-- `sprintf` to the start of a buffer. -/
def overwrite (str text : CStr) : CStr := text ++ '\x00' :: str.drop (text.length + 1)

/-- `%d` for an `unsigned`. -/
def formatInt (n : UInt32) : CStr := formatD n.toInt32.toInt

/-- `str` when it is sent: the message with its tokens cut, or what a handler has printed. -/
def strSent (s : Secondary.State) (clientId : UInt8) (msg : CStr) : CStr :=
  let str := cutTokens false (received msg)
  match parse (tokens msg) with
  | some .status => Secondary.strAfterStatus s clientId
  | some (.save pos) =>
    let inputPos := UInt32.ofInt pos
    if inputPos = s.execPos then
      overwrite str ("Save == loop position: cleint ".toList ++ formatU clientId.toNat ++ "\n".toList)
    else
      overwrite str ("Save changed: ".toList ++ formatInt inputPos ++ " for client ".toList ++ formatU clientId.toNat ++
        "\n".toList)
  | some (.exec pos) =>
    overwrite str ("Loop changed: ".toList ++ formatInt (UInt32.ofInt pos) ++ " for client ".toList ++
      formatU clientId.toNat ++ "\n".toList)
  | _ => str

/-- The message ends the process: `exit`, a call of `rte_exit`, or a string function that gets NULL. -/
def endsProcess (o : Outcome) (s : Secondary.State) (clientId : UInt8) (msg : CStr) : Bool :=
  match parse (tokens msg) with
  | some command => !(Secondary.handle o s command).goesOn
  | none =>
    (Secondary.dispatch o s clientId msg).null.isSome ||
      ((tokens msg).take 2 = ["add".toList, "vhost".toList] && !o.mempool)

/-- The process of a secondary, with what the calls of its handlers will return. -/
structure SecProcess where
  state : Secondary.State
  clientId : UInt8
  outcomes : Nat → Outcome

/-- One round of the message loop of `main`. -/
def SecProcess.round (p : SecProcess) (msg : CStr) : SecProcess × Option Reply :=
  let o := p.outcomes 0
  let state := p.state.exec (Secondary.dispatch o p.state p.clientId msg).ops
  ({ p with state := state, outcomes := fun i => p.outcomes (i + 1) },
    if endsProcess o p.state p.clientId msg then none else some (.ofText (strSent p.state p.clientId msg)))

/-- A command of a script that fits into the buffers of the secondary. -/
structure ScriptText (text : CStr) : Prop where
  length : text.length < msgSize
  tokens : (tokens text).length < Secondary.maxParameter
  command : ∃ c, parse (Secondary.tokens text) = some c ∧ c.InScript

/-- The commands of a list of texts. -/
def commandsOf (texts : List CStr) : List Command := texts.filterMap (fun text => parse (tokens text))

private theorem round_state {p : SecProcess} {msg : CStr} {c : Command} (h : parse (tokens msg) = some c) :
    (p.round msg).1.state = p.state.step (c, p.outcomes 0) := by
  simp only [SecProcess.round, Secondary.dispatch_of_parse _ _ _ h]
  rfl

/-- The handlers of `add` call `rte_exit` when the pool or the ring is not there. -/
def rteExits (o : Outcome) : Command → Bool
  | .addVhost _ => !o.mempool
  | .addRing _ => !o.ring
  | _ => false

/-- What is sent back for each command of a script: the text with its tokens cut, or nothing when the process ends. -/
def scriptReplies (outcomes : Nat → Outcome) : List CStr → List (Option CStr)
  | [] => []
  | text :: texts =>
    (if (parse (tokens text)).any (rteExits (outcomes 0)) then none
      else some (Reply.ofText (cutTokens false (received text))).bytes) ::
      scriptReplies (fun i => outcomes (i + 1)) texts

private theorem goesOn_eq {c : Command} (h : c.InScript) (o : Outcome) (s : Secondary.State) :
    (Secondary.handle o s c).goesOn = !rteExits o c := by
  cases c with
  | addVhost | addRing =>
    simp only [Secondary.handle, rteExits, Bool.not_not]
    split
    · exact (‹_ = true›).symm
    · exact (Bool.eq_false_iff.2 ‹_›).symm
  | patch | patchReset | forward | stop => rfl
  | _ => exact h.elim

private theorem round_reply {p : SecProcess} {msg : CStr} (h : ScriptText msg) :
    (p.round msg).2 = if (parse (tokens msg)).any (rteExits (p.outcomes 0)) then none
      else some (.ofText (cutTokens false (received msg))) := by
  obtain ⟨c, hc, hscript⟩ := h.command
  have hstr : strSent p.state p.clientId msg = cutTokens false (received msg) := by
    unfold strSent
    rw [hc]
    cases c with
    | status | save | exec => exact hscript.elim
    | _ => rfl
  have hends : endsProcess (p.outcomes 0) p.state p.clientId msg = rteExits (p.outcomes 0) c := by
    simp only [endsProcess, hc, goesOn_eq hscript, Bool.not_not]
  simp only [SecProcess.round, hstr, hends, hc, Option.any_some]

private theorem answers_round {texts : List CStr} (htexts : ∀ text ∈ texts, ScriptText text) (p : SecProcess) :
    (answers SecProcess.round p texts).map (fun x => x.2.map Reply.bytes) = scriptReplies p.outcomes texts := by
  induction texts generalizing p with
  | nil => rfl
  | cons text texts ih =>
    rw [List.forall_mem_cons] at htexts
    rw [answers, List.map_cons, ih htexts.2, scriptReplies, round_reply htexts.1]
    congr 1
    split <;> rfl

private theorem patched_dataAfter {texts : List CStr} (htexts : ∀ text ∈ texts, ScriptText text) {p : SecProcess}
    {history : List Command} (h : Patched p.state.portsFwdArray history) :
    Patched (dataAfter SecProcess.round p texts).state.portsFwdArray ((commandsOf texts).reverse ++ history) := by
  induction texts generalizing p history with
  | nil => exact h
  | cons text texts ih =>
    rw [List.forall_mem_cons] at htexts
    obtain ⟨c, hc, hscript⟩ := htexts.1.command
    have hnext : Patched (p.round text).1.state.portsFwdArray (c :: history) := by
      rw [round_state hc]
      exact h.step hscript
    have hcommands : commandsOf (text :: texts) = c :: commandsOf texts := by
      rw [commandsOf, List.filterMap_cons, hc]
      rfl
    rw [hcommands, List.reverse_cons, List.append_assoc]
    exact ih htexts.2 hnext

/-- Nothing has happened yet. -/
def SecProcess.begin (ports : Ports) (clientId : UInt8) (outcomes : Nat → Outcome) : Net SecProcess :=
  { data := ⟨.init ports, clientId, outcomes⟩ }

/-- A command for the first secondary from the keyboard to the printed reply. -/
def exchange (text : CStr) : List NetEvent :=
  issue text ++ [.secRecv text, .secSend] ++ receive (Reply.ofText (cutTokens false (received text))).bytes

/-- A patch from port 0 to port 1 that is reset, and one from port 1 to port 0; in between the other threads of the
controller take steps. -/
def patchSession : List NetEvent :=
  acceptOne.map .spp ++ exchange "patch 0 1".toList ++ [.spp (.primary none), .spp (.accept true)] ++
    exchange "patch reset".toList ++ exchange "patch 1 0".toList ++ exchange "forward".toList

end

end SoftPatchPanel.Spp

import SoftPatchPanel.Secondary.Status
import SoftPatchPanel.Lib.Strtoull
import Mathlib.Data.List.TakeWhile

/-!
# The messages of a secondary

`main` receives up to `MSG_SIZE` bytes into a zeroed buffer of that size, cuts them into tokens and compares the tokens
with the commands.  The buffer has no terminator when all its bytes are received, the token list has no bound, and a
handler takes its tokens without a look whether they are there (`parsedSafely_iff`).  A complete command is the one of
`handle` (`dispatch_of_parse`).

A write outside a buffer is not followed any further.
-/

namespace SoftPatchPanel.Secondary

open Lib EthDev

/-- `MAX_PARAMETER`. -/
def maxParameter : Nat := 10

/-! ### Tokens -/

/-- `str` after `memset` and `recv`. -/
def received (msg : CStr) : CStr := msg ++ List.replicate (msgSize - msg.length) '\x00'

/-- The string in `str`. -/
def text (msg : CStr) : CStr := (received msg).takeWhile (· ≠ '\x00')

/-- The tokens of the message. -/
def tokens (msg : CStr) : List CStr := strtok ' ' (text msg)

/-- The accesses to `token_list`: the loop stores to each index up to the one of the final NULL and tests it, and the
dispatch reads at most the first four. -/
def tokenAccesses (msg : CStr) : List Nat := List.range ((tokens msg).length + 1) ++ [0, 1, 2, 3]

/-! ### The dispatch -/

/-- What the dispatch of a message does: its accesses to the tables and, if the process ends at a string function that
gets a NULL token, the index of this token. -/
structure Dispatched where
  ops : List Op
  null : Option Nat := none

/-- Accesses in front of the others. -/
def Dispatched.after (ops : List Op) (d : Dispatched) : Dispatched := ⟨ops ++ d.ops, d.null⟩

section

variable (o : Outcome) (s : State) (tokens : List CStr)

/-- A string function gets `token_list[i]`. -/
def withToken (i : Nat) (rest : CStr → Dispatched) : Dispatched :=
  match tokens[i]? with
  | none => ⟨[], some i⟩
  | some token => rest token

/-- The handler of a complete command. -/
def handled (command : Command) : Dispatched := ⟨(handle o s command).ops, none⟩

/-- The branches for `add rx` and `add tx`, with the commands for a ring and for a port. -/
def dispatchQueue (ring port : Int → Command) : Dispatched :=
  withToken tokens 2 fun arg =>
    if arg = "ring".toList then withToken tokens 3 fun ringId => handled o s (ring (atoi ringId))
    else handled o s (port (atoi arg))

/-- The branch for `add`.  The mempool is looked up in front of the number for `vhost`. -/
def dispatchAdd : Dispatched :=
  withToken tokens 1 fun kind =>
    if kind = "vhost".toList then
      if o.mempool then withToken tokens 2 fun index => handled o s (.addVhost (atoi index)) else ⟨[], none⟩
    else if kind = "ring".toList then withToken tokens 2 fun ringId => handled o s (.addRing (atoi ringId))
    else if kind = "rx".toList then dispatchQueue o s tokens .addRxRing .addRx
    else if kind = "tx".toList then dispatchQueue o s tokens .addTxRing .addTx
    else ⟨[], none⟩

/-- The branch for `patch`.  The data of the first port are written before the second number is read. -/
def dispatchPatch : Dispatched :=
  withToken tokens 1 fun first =>
    if first.take 5 = "reset".toList then handled o s .patchReset
    else
      let inPort := atoi first
      .after [.status inPort inPort, .rxFunc inPort, .txFunc inPort] <|
        withToken tokens 2 fun second =>
          let outPort := atoi second
          ⟨[.outPortId inPort outPort, .status outPort outPort, .rxFunc outPort, .txFunc outPort,
            .readPort inPort, .readPort inPort, .readPort outPort], none⟩

/-- The branch for `del`.  The number is used by the log only. -/
def dispatchDel : Dispatched :=
  .after [.cmd .stop] <|
    withToken tokens 1 fun kind =>
      if kind = "rx".toList then
        withToken tokens 2 fun _ =>
          ⟨[.number .rxPorts s.savePos.toNat 33, .rxFuncs s.savePos.toNat none], none⟩
      else if kind = "tx".toList then
        withToken tokens 2 fun _ =>
          ⟨[.number .txPorts s.savePos.toNat 33, .txFuncs s.savePos.toNat none], none⟩
      else ⟨[], none⟩

/-- The comparisons behind the one with `status`; `command` is what `token_list[0]` points to. -/
def dispatchRest (command : CStr) : Dispatched :=
  if command = "exit".toList then handled o s .exit
  else if command = "start".toList then handled o s .start
  else if command = "stop".toList then handled o s .stop
  else if command = "forward".toList then handled o s .forward
  else if command = "add".toList then dispatchAdd o s tokens
  else if command = "patch".toList then dispatchPatch o s tokens
  else if command = "del".toList then dispatchDel s tokens
  else if command = "save".toList then withToken tokens 1 fun pos => handled o s (.save (atoi pos))
  else if command = "exec".toList then withToken tokens 1 fun pos => handled o s (.exec (atoi pos))
  else ⟨[], none⟩

end

/-- The first line of the status reply, which `print_active_ports` overwrites. -/
def statusLine (s : State) (clientId : UInt8) : CStr :=
  "Client ID ".toList ++ formatU clientId.toNat ++
    if s.cmd = .start then " Running\n".toList else " Idling\n".toList

/-- `str` after the status reply is printed to it. -/
def strAfterStatus (s : State) (clientId : UInt8) : CStr :=
  let printed := statusText clientId s.portsFwdArray ++ ['\x00']
  let cleared := statusLine s clientId ++ List.replicate (msgSize - (statusLine s clientId).length) '\x00'
  printed ++ cleared.drop printed.length

/-- What `token_list[0]` points to after the status reply: the token is a part of `str`. -/
def commandAfterStatus (s : State) (clientId : UInt8) (msg : CStr) : CStr :=
  ((strAfterStatus s clientId).drop ((text msg).takeWhile (· = ' ')).length).takeWhile (· ≠ '\x00')

/-- The dispatch of a message. -/
def dispatch (o : Outcome) (s : State) (clientId : UInt8) (msg : CStr) : Dispatched :=
  withToken (tokens msg) 0 fun command =>
    if command = "status".toList then
      .after (handle o s .status).ops (dispatchRest o s (tokens msg) (commandAfterStatus s clientId msg))
    else dispatchRest o s (tokens msg) command

/-- The indices at which `str` is read: by `strtok`, and by `strlen` in front of each text of the status reply but the
first. -/
def strReads (s : State) (clientId : UInt8) (msg : CStr) : List Nat :=
  List.range ((text msg).length + 1) ++
    if (tokens msg)[0]? = some "status".toList then
      let texts := statusTexts clientId s.portsFwdArray
      (List.range' 1 (texts.length - 1)).flatMap fun k => List.range ((texts.take k).flatten.length + 1)
    else []

/-! ### Complete commands -/

/-- The commands behind `add rx` and `add tx`. -/
def parseQueue (ring port : Int → Command) : List CStr → Option Command
  | [] => none
  | arg :: args =>
    if arg = "ring".toList then args.head?.map fun ringId => ring (atoi ringId) else some (port (atoi arg))

/-- The commands behind `add`. -/
def parseAdd : List CStr → Option Command
  | [] => none
  | kind :: args =>
    if kind = "vhost".toList then args.head?.map fun index => .addVhost (atoi index)
    else if kind = "ring".toList then args.head?.map fun ringId => .addRing (atoi ringId)
    else if kind = "rx".toList then parseQueue .addRxRing .addRx args
    else if kind = "tx".toList then parseQueue .addTxRing .addTx args
    else none

/-- The commands behind `patch`. -/
def parsePatch : List CStr → Option Command
  | [] => none
  | first :: args =>
    if first.take 5 = "reset".toList then some .patchReset
    else args.head?.map fun second => .patch (atoi first) (atoi second)

/-- The commands behind `del`. -/
def parseDel : List CStr → Option Command
  | [] => none
  | kind :: args =>
    if kind = "rx".toList then args.head?.map fun port => .delRx (atoi port)
    else if kind = "tx".toList then args.head?.map fun port => .delTx (atoi port)
    else none

/-- The complete command that a list of tokens is. -/
def parse : List CStr → Option Command
  | [] => none
  | command :: args =>
    if command = "status".toList then some .status
    else if command = "exit".toList then some .exit
    else if command = "start".toList then some .start
    else if command = "stop".toList then some .stop
    else if command = "forward".toList then some .forward
    else if command = "add".toList then parseAdd args
    else if command = "patch".toList then parsePatch args
    else if command = "del".toList then parseDel args
    else if command = "save".toList then args.head?.map fun pos => .save (atoi pos)
    else if command = "exec".toList then args.head?.map fun pos => .exec (atoi pos)
    else none

/-- The number of tokens that `add rx` and `add tx` read. -/
def needsQueue (args : List CStr) : Nat := if args.head? = some "ring".toList then 4 else 3

/-- The number of tokens that `add` reads. -/
def needsAdd (o : Outcome) : List CStr → Nat
  | [] => 2
  | kind :: args =>
    if kind = "vhost".toList then if o.mempool then 3 else 2
    else if kind = "ring".toList then 3
    else if kind = "rx".toList then needsQueue args
    else if kind = "tx".toList then needsQueue args
    else 2

/-- The number of tokens that `patch` reads. -/
def needsPatch : List CStr → Nat
  | [] => 2
  | first :: _ => if first.take 5 = "reset".toList then 2 else 3

/-- The number of tokens that `del` reads. -/
def needsDel : List CStr → Nat
  | [] => 2
  | kind :: _ => if kind = "rx".toList then 3 else if kind = "tx".toList then 3 else 2

/-- The number of tokens that the branch of a message reads. -/
def needs (o : Outcome) : List CStr → Nat
  | [] => 1
  | command :: args =>
    if command = "add".toList then needsAdd o args
    else if command = "patch".toList then needsPatch args
    else if command = "del".toList then needsDel args
    else if command = "save".toList then 2
    else if command = "exec".toList then 2
    else 1

/-! ### After the status reply -/

/-- From each place on, the string up to the next NUL is empty or holds the end of a line. -/
private def Lined (buf : CStr) : Prop :=
  ∀ k, (buf.drop k).takeWhile (· ≠ '\x00') = [] ∨ '\n' ∈ (buf.drop k).takeWhile (· ≠ '\x00')

private theorem Lined.drop {buf : CStr} (h : Lined buf) (n : Nat) : Lined (buf.drop n) := by
  intro k
  rw [List.drop_drop]
  exact h (n + k)

private theorem lined_replicate (n : Nat) : Lined (List.replicate n '\x00') := by
  intro k
  rw [List.drop_replicate, List.takeWhile_replicate]
  exact Or.inl rfl

private theorem Lined.nul {buf : CStr} (h : Lined buf) : Lined ('\x00' :: buf) := by
  intro k
  cases k with
  | zero => exact Or.inl rfl
  | succ k => exact h k

private theorem Lined.line {line buf : CStr} (hline : '\x00' ∉ line) (h : Lined buf) : Lined (line ++ '\n' :: buf) := by
  intro k
  rcases Nat.lt_or_ge line.length k with hk | hk
  · obtain ⟨j, rfl⟩ : ∃ j, k = line.length + (j + 1) := ⟨k - line.length - 1, by omega⟩
    rw [List.drop_length_add_append, List.drop_succ_cons]
    exact h j
  · right
    have hnul : ∀ c ∈ line.drop k, decide (c ≠ '\x00') = true := by
      intro c hc
      exact decide_eq_true fun heq => hline (heq ▸ List.mem_of_mem_drop hc)
    rw [List.drop_append_of_le_length hk, List.takeWhile_append_of_pos hnul]
    exact List.mem_append_right _ (by simp)

private theorem nul_not_mem_formatU (n : Nat) : '\x00' ∉ formatU n := fun h =>
  forall_mem_toDigits (P := fun d => d ≠ '\x00') (by decide) (by decide) n '\x00' h rfl

private theorem nul_not_mem_formatD (n : Int) : '\x00' ∉ formatD n := by
  unfold formatD
  split
  · exact List.not_mem_cons_of_ne_of_not_mem (by decide) (nul_not_mem_formatU _)
  · exact nul_not_mem_formatU _

private theorem portTexts_line (fwd : Slots Port) (i : Fin rteMaxEthports) :
    portTexts fwd i = [] ∨ ∃ line, (portTexts fwd i).flatten = line ++ ['\n'] ∧ '\x00' ∉ line := by
  by_cases h : 0 ≤ (fwd i).status
  · refine Or.inr ⟨"port id: ".toList ++ formatU i ++ ",".toList ++ "on,".toList ++ (fwd i).type.text ++
      "outport: ".toList ++ formatD (fwd i).outPortId, ?_, ?_⟩
    · simp only [portTexts, if_pos h, List.flatten_cons, List.flatten_nil, List.append_nil, List.append_assoc]
      rfl
    · have htype : '\x00' ∉ (fwd i).type.text := by cases (fwd i).type <;> decide
      simp only [List.mem_append, not_or]
      exact ⟨⟨⟨⟨⟨⟨by decide, nul_not_mem_formatU _⟩, by decide⟩, by decide⟩, htype⟩, by decide⟩, nul_not_mem_formatD _⟩
  · exact Or.inl (by rw [portTexts, if_neg h])

private theorem statusText_line (clientId : UInt8) (fwd : Slots Port) :
    ∃ line, statusText clientId fwd = line ++ ['\n'] ∧ '\x00' ∉ line := by
  have hlines : ∀ (is : List (Fin rteMaxEthports)) (line : CStr), '\x00' ∉ line →
      ∃ line', (line ++ ['\n']) ++ (is.flatMap (portTexts fwd)).flatten = line' ++ ['\n'] ∧ '\x00' ∉ line' := by
    intro is
    induction is with
    | nil => exact fun line hline => ⟨line, by simp, hline⟩
    | cons i is ih =>
      intro line hline
      rw [List.flatMap_cons, List.flatten_append]
      rcases portTexts_line fwd i with hnil | ⟨next, hnext, hnul⟩
      · rw [hnil]
        exact ih line hline
      · rw [hnext, ← List.append_assoc, ← List.append_assoc]
        refine ih _ ?_
        simp only [List.mem_append, not_or]
        exact ⟨⟨hline, by decide⟩, hnul⟩
  rw [statusText, statusTexts, List.flatten_cons]
  exact hlines _ _ (nul_not_mem_formatU _)

private theorem statusLine_line (s : State) (clientId : UInt8) :
    ∃ line, statusLine s clientId = line ++ ['\n'] ∧ '\x00' ∉ line := by
  have hword : ∃ word, (if s.cmd = .start then " Running\n".toList else " Idling\n".toList) = word ++ ['\n'] ∧
      '\x00' ∉ word := by
    split
    · exact ⟨" Running".toList, by decide, by decide⟩
    · exact ⟨" Idling".toList, by decide, by decide⟩
  obtain ⟨word, hword, hnul⟩ := hword
  refine ⟨("Client ID ".toList ++ formatU clientId.toNat) ++ word, ?_, ?_⟩
  · unfold statusLine
    exact (congrArg _ hword).trans (List.append_assoc _ _ _).symm
  · simp only [List.mem_append, not_or]
    exact ⟨⟨by decide, nul_not_mem_formatU _⟩, hnul⟩

private theorem lined_strAfterStatus (s : State) (clientId : UInt8) : Lined (strAfterStatus s clientId) := by
  have hcleared : ∀ n, Lined (statusLine s clientId ++ List.replicate n '\x00') := by
    intro n
    obtain ⟨line, hline, hnul⟩ := statusLine_line s clientId
    rw [hline, List.append_assoc]
    exact (lined_replicate n).line hnul
  obtain ⟨line, hline, hnul⟩ := statusText_line clientId s.portsFwdArray
  simp only [strAfterStatus, hline, List.append_assoc]
  exact (Lined.nul ((hcleared _).drop _)).line hnul

/-- No comparison behind the status reply succeeds. -/
private theorem dispatchRest_line (o : Outcome) (s : State) (tokens : List CStr) {command : CStr}
    (h : command = [] ∨ '\n' ∈ command) : dispatchRest o s tokens command = ⟨[], none⟩ := by
  have hne : ∀ name : CStr, name ≠ [] → '\n' ∉ name → command ≠ name := by
    rintro name hnil hline rfl
    exact h.elim hnil hline
  unfold dispatchRest
  rw [if_neg (hne _ (by decide) (by decide)), if_neg (hne _ (by decide) (by decide)),
    if_neg (hne _ (by decide) (by decide)), if_neg (hne _ (by decide) (by decide)),
    if_neg (hne _ (by decide) (by decide)), if_neg (hne _ (by decide) (by decide)),
    if_neg (hne _ (by decide) (by decide)), if_neg (hne _ (by decide) (by decide)),
    if_neg (hne _ (by decide) (by decide))]

private theorem dispatch_status (o : Outcome) (s : State) (clientId : UInt8) {msg : CStr}
    (h : (tokens msg)[0]? = some "status".toList) : dispatch o s clientId msg = handled o s .status := by
  rw [dispatch, withToken, h]
  simp only [if_true, commandAfterStatus, dispatchRest_line o s _ (lined_strAfterStatus s clientId _),
    Dispatched.after, List.append_nil, handled]

private theorem dispatch_rest (o : Outcome) (s : State) (clientId : UInt8) {msg command : CStr}
    (h : (tokens msg)[0]? = some command) (hne : command ≠ "status".toList) :
    dispatch o s clientId msg = dispatchRest o s (tokens msg) command := by
  rw [dispatch, withToken, h]
  exact if_neg hne

/-! ### The branches -/

section

variable (o : Outcome) (s : State)

/-- A branch that stands for the command `c`: it gets no NULL token exactly under `enough`; it does what the handler of
`c` does; and if there is no command, and no NULL token, it changes no more than `cmd`. -/
private structure Branch (d : Dispatched) (c : Option Command) (enough : Prop) : Prop where
  null : d.null = none ↔ enough
  complete : ∀ {command}, c = some command → d = handled o s command
  incomplete : c = none → d.null = none → ∃ cmd, s.exec d.ops = { s with cmd := cmd }

private theorem branch_handled (command : Command) {enough : Prop} (h : enough) :
    Branch o s (handled o s command) (some command) enough :=
  ⟨iff_of_true rfl h, fun heq => by cases heq; rfl, nofun⟩

private theorem branch_ignored {enough : Prop} (h : enough) : Branch o s ⟨[], none⟩ none enough :=
  ⟨iff_of_true rfl h, nofun, fun _ _ => ⟨s.cmd, rfl⟩⟩

private theorem branch_null {d : Dispatched} {i : Nat} (hd : d.null = some i) {enough : Prop} (h : ¬enough) :
    Branch o s d none enough :=
  ⟨iff_of_false (by simp [hd]) h, nofun, fun _ hnull => by simp [hd] at hnull⟩

private theorem branch_ite {p : Prop} [Decidable p] {d d' : Dispatched} {c c' : Option Command} {enough : Prop}
    (h : p → Branch o s d c enough) (h' : ¬p → Branch o s d' c' enough) :
    Branch o s (if p then d else d') (if p then c else c') enough := by
  by_cases hp : p
  · simpa only [if_pos hp] using h hp
  · simpa only [if_neg hp] using h' hp

/-- A branch that reads one token, behind `before`. -/
private theorem branch_token (before args : List CStr) (next : CStr → Command) :
    Branch o s (withToken (before ++ args) before.length fun token => handled o s (next token)) (args.head?.map next)
      (before.length + 1 ≤ (before ++ args).length) := by
  cases args with
  | nil =>
    rw [List.append_nil]
    exact branch_null o s (i := before.length) (by simp [withToken]) (by omega)
  | cons token args =>
    have hget : (before ++ token :: args)[before.length]? = some token := by simp
    rw [withToken, hget]
    exact branch_handled o s _ (by simp)

private theorem dispatchQueue_branch (add kind : CStr) (args : List CStr) (ring port : Int → Command) :
    Branch o s (dispatchQueue o s (add :: kind :: args) ring port) (parseQueue ring port args)
      (needsQueue args ≤ (add :: kind :: args).length) := by
  cases args with
  | nil => exact branch_null o s rfl (by simp [needsQueue])
  | cons arg args =>
    have hneeds : needsQueue (arg :: args) = if arg = "ring".toList then 4 else 3 := by
      simp only [needsQueue, List.head?_cons, Option.some.injEq]
    rw [parseQueue, hneeds, dispatchQueue, withToken]
    simp only [List.getElem?_cons_succ, List.getElem?_cons_zero]
    split_ifs
    · exact branch_token o s [add, kind, arg] args fun ringId => ring (atoi ringId)
    · exact branch_handled o s _ (by simp)

private theorem dispatchAdd_branch (add : CStr) (args : List CStr) :
    Branch o s (dispatchAdd o s (add :: args)) (parseAdd args) (needsAdd o args ≤ (add :: args).length) := by
  cases args with
  | nil => exact branch_null o s rfl (by simp [needsAdd])
  | cons kind args =>
    rw [parseAdd, needsAdd, dispatchAdd, withToken]
    simp only [List.getElem?_cons_succ, List.getElem?_cons_zero]
    split_ifs with hvhost hmempool
    · exact branch_token o s [add, kind] args fun index => .addVhost (atoi index)
    · refine ⟨iff_of_true rfl (by simp), fun h => ?_, fun _ _ => ⟨s.cmd, rfl⟩⟩
      obtain ⟨index, _, rfl⟩ := Option.map_eq_some_iff.1 h
      simp [handled, handle, hmempool]
    · exact branch_token o s [add, kind] args fun ringId => .addRing (atoi ringId)
    · exact dispatchQueue_branch o s add kind args _ _
    · exact dispatchQueue_branch o s add kind args _ _
    · exact branch_ignored o s (by simp)

private theorem dispatchPatch_branch (patch : CStr) (args : List CStr) :
    Branch o s (dispatchPatch o s (patch :: args)) (parsePatch args) (needsPatch args ≤ (patch :: args).length) := by
  cases args with
  | nil => exact branch_null o s rfl (by simp [needsPatch])
  | cons first args =>
    rw [parsePatch, needsPatch, dispatchPatch, withToken]
    simp only [List.getElem?_cons_succ, List.getElem?_cons_zero]
    split_ifs
    · exact branch_handled o s _ (by simp)
    · cases args with
      | nil => exact branch_null o s rfl (by simp)
      | cons second args => exact branch_handled o s (.patch (atoi first) (atoi second)) (by simp)

private theorem dispatchDel_branch (del : CStr) (args : List CStr) :
    Branch o s (dispatchDel s (del :: args)) (parseDel args) (needsDel args ≤ (del :: args).length) := by
  cases args with
  | nil => exact branch_null o s rfl (by simp [needsDel])
  | cons kind args =>
    rw [parseDel, needsDel, dispatchDel, withToken]
    simp only [List.getElem?_cons_succ, List.getElem?_cons_zero]
    split_ifs
    · cases args with
      | nil => exact branch_null o s rfl (by simp)
      | cons port args => exact branch_handled o s (.delRx (atoi port)) (by simp)
    · cases args with
      | nil => exact branch_null o s rfl (by simp)
      | cons port args => exact branch_handled o s (.delTx (atoi port)) (by simp)
    · exact ⟨iff_of_true rfl (by simp), nofun, fun _ _ => ⟨.stop, rfl⟩⟩

/-- The dispatch of a message is a branch for the command that its tokens are. -/
private theorem dispatch_branch (clientId : UInt8) (msg : CStr) :
    Branch o s (dispatch o s clientId msg) (parse (tokens msg)) (needs o (tokens msg) ≤ (tokens msg).length) := by
  cases htokens : tokens msg with
  | nil =>
    rw [dispatch, htokens]
    exact branch_null o s rfl (by simp [needs])
  | cons command args =>
    have hfirst : (tokens msg)[0]? = some command := by rw [htokens]; rfl
    rw [parse]
    by_cases hstatus : command = "status".toList
    · rw [dispatch_status o s clientId (hstatus ▸ hfirst), if_pos hstatus]
      exact branch_handled o s _ (by subst hstatus; simp [needs])
    · rw [dispatch_rest o s clientId hfirst hstatus, htokens, if_neg hstatus, dispatchRest, needs]
      have hcontrol : ∀ c : Command, command ∈ ["exit".toList, "start".toList, "stop".toList, "forward".toList] →
          Branch o s (handled o s c) (some c) (needs o (command :: args) ≤ (command :: args).length) := by
        intro c hmem
        have hone : needs o (command :: args) = 1 := by
          simp only [List.mem_cons, List.not_mem_nil, or_false] at hmem
          rcases hmem with rfl | rfl | rfl | rfl <;> rfl
        exact branch_handled o s c (hone ▸ Nat.le_add_left _ _)
      refine branch_ite o s (fun h => hcontrol _ (by simp [h])) fun _ => ?_
      refine branch_ite o s (fun h => hcontrol _ (by simp [h])) fun _ => ?_
      refine branch_ite o s (fun h => hcontrol _ (by simp [h])) fun _ => ?_
      refine branch_ite o s (fun h => hcontrol _ (by simp [h])) fun _ => ?_
      split_ifs
      · exact dispatchAdd_branch o s command args
      · exact dispatchPatch_branch o s command args
      · exact dispatchDel_branch o s command args
      · exact branch_token o s [command] args fun pos => .save (atoi pos)
      · exact branch_token o s [command] args fun pos => .exec (atoi pos)
      · exact branch_ignored o s (by simp)

end

/-- A complete command does what its handler does. -/
theorem dispatch_of_parse (o : Outcome) (s : State) (clientId : UInt8) {msg : CStr} {c : Command}
    (h : parse (tokens msg) = some c) : dispatch o s clientId msg = handled o s c :=
  (dispatch_branch o s clientId msg).complete h

/-! ### Bounds -/

/-- The string in `str` ends inside the buffer exactly when a NUL is received or a byte of the buffer is left. -/
private theorem length_text_lt {msg : CStr} (hlen : msg.length ≤ msgSize) :
    (text msg).length < msgSize ↔ msg.length < msgSize ∨ '\x00' ∈ msg := by
  have hreceived : (received msg).length = msgSize := by
    rw [received, List.length_append, List.length_replicate]
    omega
  have hmem : '\x00' ∈ received msg ↔ msg.length < msgSize ∨ '\x00' ∈ msg := by
    rw [received, List.mem_append, List.mem_replicate, or_comm, Nat.sub_ne_zero_iff_lt, and_iff_left rfl]
  rw [← hmem, text]
  constructor
  · intro hlt
    by_contra hnul
    rw [List.takeWhile_eq_self_iff.2 (fun c hc => by simpa using fun heq : c = '\x00' => hnul (heq ▸ hc))] at hlt
    omega
  · intro hnul
    refine lt_of_le_of_ne (hreceived ▸ List.Sublist.length_le (List.takeWhile_sublist _)) fun heq => ?_
    have hall := (List.takeWhile_prefix _).eq_of_length (heq.trans hreceived.symm)
    simpa using List.takeWhile_eq_self_iff.1 hall _ hnul

private theorem strReads_lt (s : State) (clientId : UInt8) (msg : CStr) :
    (∀ i ∈ strReads s clientId msg, i < msgSize) ↔
      (text msg).length < msgSize ∧
        ((tokens msg)[0]? = some "status".toList →
          (statusTexts clientId s.portsFwdArray).dropLast.flatten.length < msgSize) := by
  have hrange : ∀ n, (∀ i ∈ List.range (n + 1), i < msgSize) ↔ n < msgSize := fun n =>
    ⟨fun h => h n (by simp), fun h i hi => by have := List.mem_range.1 hi; omega⟩
  rw [strReads, List.forall_mem_append, hrange]
  refine and_congr_right fun _ => ?_
  by_cases hstatus : (tokens msg)[0]? = some "status".toList
  · rw [if_pos hstatus, List.forall_mem_flatMap, forall_prop_of_true hstatus, List.dropLast_eq_take]
    simp only [hrange]
    generalize statusTexts clientId s.portsFwdArray = texts
    constructor
    · intro h
      rcases Nat.eq_zero_or_pos (texts.length - 1) with hzero | hpos
      · simp [hzero, msgSize]
      · exact h _ (by rw [List.mem_range'_1]; omega)
    · intro h k hk
      rw [List.mem_range'_1] at hk
      obtain ⟨rest, hrest⟩ : texts.take k <+: texts.take (texts.length - 1) :=
        List.take_prefix_take_left (by omega)
      rw [← hrest, List.flatten_append, List.length_append] at h
      omega
  · rw [if_neg hstatus]
    exact ⟨fun _ h => absurd h hstatus, fun _ _ h => absurd h (by simp)⟩

/-! ### Every message -/

/-- What is expected of a message: the accesses to `token_list` and the reads of `str` stay inside, no string function
gets a NULL token, and a message that is not a complete command changes no more than `cmd`. -/
structure ParsedSafely (o : Outcome) (s : State) (clientId : UInt8) (msg : CStr) : Prop where
  tokenList : ∀ i ∈ tokenAccesses msg, i < maxParameter
  str : ∀ i ∈ strReads s clientId msg, i < msgSize
  null : (dispatch o s clientId msg).null = none
  tables : parse (tokens msg) = none → ∃ cmd, s.exec (dispatch o s clientId msg).ops = { s with cmd := cmd }

/-- A message is parsed safely exactly when the buffer keeps a NUL, there are at most nine tokens, and these are at least
the ones that its branch reads, and for `status` the reply without its last text is a string in the buffer. -/
theorem parsedSafely_iff (o : Outcome) (s : State) (clientId : UInt8) {msg : CStr} (hlen : msg.length ≤ msgSize) :
    ParsedSafely o s clientId msg ↔
      (msg.length < msgSize ∨ '\x00' ∈ msg) ∧
      (needs o (tokens msg) ≤ (tokens msg).length ∧ (tokens msg).length < maxParameter) ∧
      ((tokens msg)[0]? = some "status".toList →
        (statusTexts clientId s.portsFwdArray).dropLast.flatten.length < msgSize) := by
  have htokens : (∀ i ∈ tokenAccesses msg, i < maxParameter) ↔ (tokens msg).length < maxParameter := by
    rw [tokenAccesses, List.forall_mem_append]
    refine ⟨fun h => h.1 _ (by simp), fun h => ⟨fun i hi => ?_, by decide⟩⟩
    have := List.mem_range.1 hi
    omega
  have hbranch := dispatch_branch o s clientId msg
  rw [← length_text_lt hlen]
  constructor
  · intro h
    obtain ⟨htext, hstatus⟩ := (strReads_lt s clientId msg).1 h.str
    exact ⟨htext, ⟨hbranch.null.1 h.null, htokens.1 h.tokenList⟩, hstatus⟩
  · rintro ⟨htext, ⟨hneeds, hcount⟩, hstatus⟩
    have hnull := hbranch.null.2 hneeds
    exact ⟨htokens.2 hcount, (strReads_lt s clientId msg).2 ⟨htext, hstatus⟩, hnull,
      fun hparse => hbranch.incomplete hparse hnull⟩

/-- The start of a process without ports. -/
def noPorts : State := State.init { devs := fun _ => {} }

theorem parsedSafely_patch : ParsedSafely {} noPorts 1 "patch 0 1".toList :=
  (@parsedSafely_iff {} noPorts 1 "patch 0 1".toList (by decide)).2
    ⟨by decide, by decide +kernel, fun h => absurd h (by decide +kernel)⟩

/-- `add` compares a NULL token, `patch 5` writes a port before it does so, ten tokens are one too many, and a message
of 100 bytes leaves no NUL. -/
theorem messages_misparsed :
    (dispatch {} noPorts 1 "add".toList).null = some 1 ∧
    parse (tokens "patch 5".toList) = none ∧
    ((noPorts.exec (dispatch {} noPorts 1 "patch 5".toList).ops).portsFwdArray 5).status = 5 ∧
    (noPorts.portsFwdArray 5).status = -99 ∧
    10 ∈ tokenAccesses "1 2 3 4 5 6 7 8 9 10".toList ∧
    100 ∈ strReads noPorts 1 (List.replicate 100 'a') := by
  decide +kernel

end SoftPatchPanel.Secondary

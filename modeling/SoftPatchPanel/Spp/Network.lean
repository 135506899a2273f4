import SoftPatchPanel.Spp.Controller

/-!
# The controller and one secondary

Connection `k` of the controller as two byte streams, with the loop of `main` of the secondary at its other end.  A call
of `recv` may return any non-empty part of the front of what is there, up to its limit; nothing marks where a message
ends, so a part of a message is taken for a message and shifts all that follow (`fragments_not_matched`).  What the
secondary does with the text that it received is a function `handle` of its state.
-/

namespace SoftPatchPanel.Spp

open Lib

/-- `MSG_SIZE`. -/
def msgSize : Nat := 100

/-- The limit of `recv` in the controller. -/
def recvSize : Nat := 1024

/-- The contents of `str`, which is sent as a whole. -/
structure Reply where
  bytes : CStr
  length_bytes : bytes.length = msgSize
deriving DecidableEq

/-- `str` after `memset` and `recv` of a text, when nothing else is written into it. -/
def Reply.ofText (text : CStr) : Reply where
  bytes := text.take msgSize ++ List.replicate (msgSize - text.length) '\x00'
  length_bytes := by
    rw [List.length_append, List.length_take, List.length_replicate]
    omega

/-- Where the secondary is. -/
inductive SecPc where
  | recv
  | send (reply : Reply)
  /-- The process has ended. -/
  | ended
deriving DecidableEq

/-- The controller, the bytes on their way, the secondary, and a record of the texts it took for commands with the reply to
each, `none` when the process ended instead. -/
structure Net (σ : Type) where
  spp : State := {}
  toSec : CStr := []
  toSpp : CStr := []
  sec : SecPc := .recv
  data : σ
  executed : List (CStr × Option Reply) := []

/-- A step of the controller, or a call of the secondary. -/
inductive NetEvent where
  | spp (e : Event)
  | secRecv (text : CStr)
  | secSend

section

variable {σ : Type}

/-- `recv` of the connection thread may return `data`: bytes from the front of the stream, or nothing at its end. -/
def Net.Arrives (n : Net σ) (data : CStr) : Prop :=
  data ≠ [] ∧ data <+: n.toSpp ∧ data.length ≤ recvSize ∨ data = [] ∧ n.toSpp = [] ∧ n.sec = .ended

/-- `recv` of the secondary may return `text`. -/
def Net.ArrivesSec (n : Net σ) (text : CStr) : Prop := text ≠ [] ∧ text <+: n.toSec ∧ text.length ≤ msgSize

instance (n : Net σ) (data : CStr) : Decidable (n.Arrives data) :=
  inferInstanceAs (Decidable (data ≠ [] ∧ data <+: n.toSpp ∧ data.length ≤ recvSize ∨
    data = [] ∧ n.toSpp = [] ∧ n.sec = .ended))

instance (n : Net σ) (text : CStr) : Decidable (n.ArrivesSec text) :=
  inferInstanceAs (Decidable (text ≠ [] ∧ text <+: n.toSec ∧ text.length ≤ msgSize))

/-- Connection thread `k`: `send` puts the text of the command into the stream, and `recv` does not return what cannot
arrive. -/
def Net.threadStep (k : Nat) (n : Net σ) (out : Option CStr) : Net σ :=
  match n.spp.threadPc k, out with
  | .send cmd, some _ => { n with spp := n.spp.step (.conn k out), toSec := n.toSec ++ cmd.text }
  | .recv, some data =>
    if n.Arrives data then { n with spp := n.spp.step (.conn k out), toSpp := n.toSpp.drop data.length } else n
  | _, _ => { n with spp := n.spp.step (.conn k out) }

/-- Where the secondary goes on after a command. -/
def SecPc.after : Option Reply → SecPc
  | some reply => .send reply
  | none => .ended

/-- A step of the controller, with any number of other connections, or of the secondary. -/
def Net.step (handle : σ → CStr → σ × Option Reply) (k : Nat) (n : Net σ) : NetEvent → Net σ
  | .spp (.conn i out) => if i = k then n.threadStep k out else { n with spp := n.spp.step (.conn i out) }
  | .spp e => { n with spp := n.spp.step e }
  | .secRecv text =>
    match n.sec with
    | .recv =>
      if n.ArrivesSec text then
        let (data, reply) := handle n.data text
        { n with toSec := n.toSec.drop text.length, data := data, executed := n.executed ++ [(text, reply)],
                 sec := .after reply }
      else n
    | _ => n
  | .secSend =>
    match n.sec with
    | .send reply => { n with toSpp := n.toSpp ++ reply.bytes, sec := .recv }
    | _ => n

/-- The shell is waiting for `k`, or an exception has ended its loop over a command for `k`. -/
def ShellPc.busy (k : Nat) : ShellPc → Bool
  | .secIndexReply j | .secGet j _ | .noQueue j => j = k
  | _ => false

/-- The secondary executes the commands that were sent, once each and in order, and the messages that the shell takes are
the replies to them, in order; between two commands nothing is missing. -/
def Net.Matched (k : Nat) (n : Net σ) : Prop :=
  n.executed.map Prod.fst <+: n.spp.commands k ∧
  n.spp.messages k <+: n.executed.map (fun x => x.2.map Reply.bytes) ∧
  (n.spp.shell.busy k = false → n.executed.map Prod.fst = n.spp.commands k ∧
    n.spp.messages k = n.executed.map (fun x => x.2.map Reply.bytes))

instance (k : Nat) (n : Net σ) : Decidable (n.Matched k) :=
  inferInstanceAs (Decidable (n.executed.map Prod.fst <+: n.spp.commands k ∧
    n.spp.messages k <+: n.executed.map (fun x => x.2.map Reply.bytes) ∧
    (n.spp.shell.busy k = false → n.executed.map Prod.fst = n.spp.commands k ∧
      n.spp.messages k = n.executed.map (fun x => x.2.map Reply.bytes))))

/-- A call of `recv` on the connection returns everything that is there. -/
def Net.Whole (k : Nat) (n : Net σ) : NetEvent → Prop
  | .spp (.conn i (some data)) => i = k → n.spp.threadPc k = .recv → n.Arrives data → data = n.toSpp
  | .secRecv text => n.sec = .recv → n.ArrivesSec text → text = n.toSec
  | _ => True

instance decidableWhole (k : Nat) (n : Net σ) : (e : NetEvent) → Decidable (n.Whole k e)
  | .spp (.conn i (some data)) =>
    inferInstanceAs (Decidable (i = k → n.spp.threadPc k = .recv → n.Arrives data → data = n.toSpp))
  | .secRecv text => inferInstanceAs (Decidable (n.sec = .recv → n.ArrivesSec text → text = n.toSec))
  | .spp (.conn _ none) | .spp (.shell _) | .spp (.accept _) | .spp (.primary _) | .secSend =>
    inferInstanceAs (Decidable True)

end

/-! ### What goes wrong -/

/-- The secondary for commands that leave `str` as it was received, such as `start` and `stop`; `exit` ends it. -/
def plainHandle (_ : Unit) (text : CStr) : Unit × Option Reply :=
  ((), if text = "exit".toList then none else some (.ofText text))

/-- A command for the first secondary, up to its place on the wire. -/
def issue (text : CStr) : List NetEvent :=
  List.replicate 5 (.spp (.shell (.sec 0 text))) ++ List.replicate 3 (.spp (.conn 0 (some [])))

/-- The thread receives and posts, and the shell takes the message. -/
def receive (data : CStr) : List NetEvent := [.spp (.conn 0 (some data)), .spp (.conn 0 none), .spp (.shell .other)]

/-- The first `recv` of the secondary returns three bytes of the command. -/
def splitCommand : List NetEvent := acceptOne.map .spp ++ issue "start".toList ++ [.secRecv "sta".toList]

/-- The first `recv` of the thread returns 40 bytes of the reply, and the second the rest of it. -/
def splitReply : List NetEvent :=
  acceptOne.map .spp ++ issue "start".toList ++ [.secRecv "start".toList, .secSend] ++
    receive ((Reply.ofText "start".toList).bytes.take 40) ++ issue "stop".toList ++
    receive ((Reply.ofText "start".toList).bytes.drop 40)

theorem fragments_not_matched :
    ¬ (splitCommand.foldl (Net.step plainHandle 0) { data := () }).Matched 0 ∧
    ¬ (splitReply.foldl (Net.step plainHandle 0) { data := () }).Matched 0 ∧
    (splitReply.foldl (Net.step plainHandle 0) { data := () }).spp.messages 0 =
      [some ((Reply.ofText "start".toList).bytes.take 40), some ((Reply.ofText "start".toList).bytes.drop 40)] := by
  decide +kernel

end SoftPatchPanel.Spp

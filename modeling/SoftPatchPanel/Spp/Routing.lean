import SoftPatchPanel.Spp.Controller
import Mathlib.Data.List.Infix
import Mathlib.Data.List.Range

/-!
# Commands reach the secondary they name

The queues of id `k` are the objects `2 * k` and `2 * k + 1` of the heap: only `acceptthread` makes queues, two for each
connection, and it counts the connections.  Thread `k` gets just these two queues, the shell finds them under `k`, and
nobody ever puts them elsewhere.  So a command for `k` is sent on connection `k`, and what is printed for `k` was received
there (`routed_commands`).
-/

namespace SoftPatchPanel.Spp

open Lib

/-! ### Registration -/

/-- The queues under the first `n` ids of `main2sec`. -/
def mainQueues (n : Nat) : List (Option Nat) := (List.range n).map (fun k => some (2 * k))

/-- The queues under the first `n` ids of `sec2main`. -/
def secQueues (n : Nat) : List (Option Nat) := (List.range n).map (fun k => some (2 * k + 1))

/-- What `acceptthread` has done for the connection it is at: registered its id, set its queues, started its thread. -/
def AcceptPc.registered : AcceptPc → Nat
  | .growMain _ | .setMain _ _ | .growSec _ | .setSec _ _ | .start _ | .count => 1
  | _ => 0

@[inherit_doc AcceptPc.registered]
def AcceptPc.mains : AcceptPc → Nat
  | .growSec _ | .setSec _ _ | .start _ | .count => 1
  | _ => 0

@[inherit_doc AcceptPc.registered]
def AcceptPc.secs : AcceptPc → Nat
  | .start _ | .count => 1
  | _ => 0

@[inherit_doc AcceptPc.registered]
def AcceptPc.started : AcceptPc → Nat
  | .count => 1
  | _ => 0

/-- The queues that `acceptthread` has made for the connection it is at. -/
def AcceptPc.made : AcceptPc → Nat
  | .setMain _ _ | .growSec _ => 1
  | .setSec _ _ | .start _ | .count => 2
  | _ => 0

/-- Whether `acceptthread` is at a connection. -/
def AcceptPc.taken : AcceptPc → Nat
  | .accept | .ended => 0
  | _ => 1

/-- The room that has been made in `main2sec` and `sec2main`. -/
def AcceptPc.roomMain : AcceptPc → List (Option Nat)
  | .setMain _ _ => [none]
  | _ => []

@[inherit_doc AcceptPc.roomMain]
def AcceptPc.roomSec : AcceptPc → List (Option Nat)
  | .setSec _ _ => [none]
  | _ => []

/-- The connection that `acceptthread` is at has the number of its id, and the new queue is the one for this id. -/
def AcceptPc.Ok (n : Nat) : AcceptPc → Prop
  | .append conn | .growMain conn | .growSec conn | .start conn => conn = n
  | .setMain conn q => conn = n ∧ q = 2 * n
  | .setSec conn q => conn = n ∧ q = 2 * n + 1
  | .accept | .count | .ended => True

/-- What `acceptthread` has set up so far. -/
structure Registration (s : State) : Prop where
  list : s.secondaryList.Sublist (List.range (s.secondaryCount + s.accept.registered))
  registered : s.registered = List.range (s.secondaryCount + s.accept.registered)
  main2sec : s.main2sec = mainQueues (s.secondaryCount + s.accept.mains) ++ s.accept.roomMain
  sec2main : s.sec2main = secQueues (s.secondaryCount + s.accept.secs) ++ s.accept.roomSec
  queues : s.queues.length = 2 * s.secondaryCount + s.accept.made
  conns : s.conns.length = s.secondaryCount + s.accept.started
  accepted : s.accepted = s.secondaryCount + s.accept.taken
  pc : s.accept.Ok s.secondaryCount

private theorem length_mainQueues (n : Nat) : (mainQueues n).length = n := by simp [mainQueues]

private theorem length_secQueues (n : Nat) : (secQueues n).length = n := by simp [secQueues]

private theorem grow_self {l : List (Option Nat)} {n : Nat} (h : l.length = n) : grow l n = l ++ [none] := by
  simp [grow, h]

private theorem set_none {l : List (Option Nat)} {n : Nat} (h : l.length = n) (q : Nat) :
    (l ++ [none]).set n (some q) = l ++ [some q] := by
  rw [List.set_append_right _ _ (by omega), h]
  simp

/-- An id whose queue is set has the queue with its number. -/
theorem Registration.getElem?_main2sec {s : State} (h : Registration s) {k : Nat}
    (hk : k < s.secondaryCount + s.accept.mains) : s.main2sec[k]? = some (some (2 * k)) := by
  rw [h.main2sec, List.getElem?_append_left (by rw [length_mainQueues]; exact hk)]
  simp [mainQueues, hk]

theorem Registration.getElem?_sec2main {s : State} (h : Registration s) {k : Nat}
    (hk : k < s.secondaryCount + s.accept.secs) : s.sec2main[k]? = some (some (2 * k + 1)) := by
  rw [h.sec2main, List.getElem?_append_left (by rw [length_secQueues]; exact hk)]
  simp [secQueues, hk]

private theorem eq_of_getElem?_room {l room : List (Option Nat)} {f : Nat → Nat}
    (hl : ∀ k < l.length, l[k]? = some (some (f k))) (hroom : room = [] ∨ room = [none]) {k q : Nat}
    (h : (l ++ room)[k]? = some (some q)) : k < l.length ∧ q = f k := by
  by_cases hk : k < l.length
  · rw [List.getElem?_append_left hk, hl k hk] at h
    exact ⟨hk, (by simpa using h.symm)⟩
  · rw [List.getElem?_append_right (by omega)] at h
    rcases hroom with rfl | rfl
    · simp at h
    · cases hj : k - l.length <;> simp [hj] at h

private theorem Registration.eq_of_main2sec {s : State} (h : Registration s) {k q : Nat}
    (hq : s.main2sec[k]? = some (some q)) : k < s.secondaryCount + s.accept.mains ∧ q = 2 * k := by
  rw [h.main2sec] at hq
  have := eq_of_getElem?_room (f := fun k => 2 * k) (by simp +contextual [mainQueues])
    (by cases s.accept <;> simp [AcceptPc.roomMain]) hq
  rwa [length_mainQueues] at this

theorem Registration.eq_of_sec2main {s : State} (h : Registration s) {k q : Nat}
    (hq : s.sec2main[k]? = some (some q)) : k < s.secondaryCount + s.accept.secs ∧ q = 2 * k + 1 := by
  rw [h.sec2main] at hq
  have := eq_of_getElem?_room (f := fun k => 2 * k + 1) (by simp +contextual [secQueues])
    (by cases s.accept <;> simp [AcceptPc.roomSec]) hq
  rwa [length_secQueues] at this

/-- The queues under an id are on the heap. -/
private theorem Registration.main_lt {s : State} (h : Registration s) {k : Nat}
    (hk : k < s.secondaryCount + s.accept.mains) :
    2 * k < s.queues.length := by
  have hmade : 2 * s.accept.mains ≤ s.accept.made + 1 := by
    cases s.accept <;> simp [AcceptPc.mains, AcceptPc.made]
  rw [h.queues]
  omega

@[inherit_doc Registration.main_lt]
theorem Registration.sec_lt {s : State} (h : Registration s) {k : Nat} (hk : k < s.secondaryCount + s.accept.secs) :
    2 * k + 1 < s.queues.length := by
  have hmade : 2 * s.accept.secs ≤ s.accept.made := by
    cases s.accept <;> simp [AcceptPc.secs, AcceptPc.made]
  rw [h.queues]
  omega

@[inherit_doc Registration.main_lt]
theorem Registration.conn_lt {s : State} (h : Registration s) {k : Nat} (hk : k < s.conns.length) :
    2 * k + 1 < s.queues.length := by
  have hsecs : s.accept.started ≤ s.accept.secs := by
    cases s.accept <;> simp [AcceptPc.started, AcceptPc.secs]
  rw [h.conns] at hk
  exact h.sec_lt (by omega)

/-- The queues that `acceptthread` passes to a new thread. -/
theorem Registration.at_start {s : State} (h : Registration s) {conn : Nat} (ha : s.accept = .start conn) :
    s.main2sec[s.secondaryCount]? = some (some (2 * s.secondaryCount)) ∧
    s.sec2main[s.secondaryCount]? = some (some (2 * s.secondaryCount + 1)) := by
  constructor
  · exact h.getElem?_main2sec (by rw [ha]; exact Nat.lt_succ_self _)
  · exact h.getElem?_sec2main (by rw [ha]; exact Nat.lt_succ_self _)

private theorem Registration.acceptStep {ok : Bool} {s : State} (h : Registration s) :
    Registration (s.acceptStep ok) := by
  have hstart := h
  obtain ⟨hlist, hreg, hmain, hsec, hqueues, hconns, haccepted, hpc⟩ := h
  unfold State.acceptStep
  cases ha : s.accept with
  | accept =>
    rw [ha] at hlist hreg hmain hsec hqueues hconns haccepted hpc
    cases ok with
    | true => exact ⟨hlist, hreg, hmain, hsec, hqueues, hconns, congrArg (· + 1) haccepted, haccepted⟩
    | false => exact ⟨hlist, hreg, hmain, hsec, hqueues, hconns, haccepted, trivial⟩
  | append conn =>
    rw [ha] at hlist hreg hmain hsec hqueues hconns haccepted hpc
    refine ⟨?_, ?_, hmain, hsec, hqueues, hconns, haccepted, hpc⟩
    · show (s.secondaryList ++ [s.secondaryCount]).Sublist (List.range (s.secondaryCount + 1))
      rw [List.range_succ]
      exact hlist.append (List.Sublist.refl _)
    · show s.registered ++ [s.secondaryCount] = List.range (s.secondaryCount + 1)
      rw [hreg, List.range_succ]
      rfl
  | growMain conn =>
    rw [ha] at hlist hreg hmain hsec hqueues hconns haccepted hpc
    refine ⟨hlist, hreg, ?_, hsec, ?_, hconns, haccepted, hpc, hqueues⟩
    · show grow s.main2sec s.secondaryCount = mainQueues s.secondaryCount ++ [none]
      have hlen : s.main2sec = mainQueues s.secondaryCount := hmain.trans (List.append_nil _)
      rw [hlen, grow_self (length_mainQueues _)]
    · show (s.queues ++ [[]]).length = 2 * s.secondaryCount + 1
      rw [List.length_append, hqueues]
      rfl
  | setMain conn q =>
    rw [ha] at hlist hreg hmain hsec hqueues hconns haccepted hpc
    obtain ⟨hconn, rfl⟩ := hpc
    refine ⟨hlist, hreg, ?_, hsec, hqueues, hconns, haccepted, hconn⟩
    show s.main2sec.set s.secondaryCount (some (2 * s.secondaryCount)) = mainQueues (s.secondaryCount + 1) ++ []
    have hroom : s.main2sec = mainQueues s.secondaryCount ++ [none] := hmain
    rw [hroom, set_none (length_mainQueues _)]
    simp [mainQueues, List.range_succ]
  | growSec conn =>
    rw [ha] at hlist hreg hmain hsec hqueues hconns haccepted hpc
    refine ⟨hlist, hreg, hmain, ?_, ?_, hconns, haccepted, hpc, hqueues⟩
    · show grow s.sec2main s.secondaryCount = secQueues s.secondaryCount ++ [none]
      have hlen : s.sec2main = secQueues s.secondaryCount := hsec.trans (List.append_nil _)
      rw [hlen, grow_self (length_secQueues _)]
    · show (s.queues ++ [[]]).length = 2 * s.secondaryCount + 2
      rw [List.length_append, hqueues]
      rfl
  | setSec conn q =>
    rw [ha] at hlist hreg hmain hsec hqueues hconns haccepted hpc
    obtain ⟨hconn, rfl⟩ := hpc
    refine ⟨hlist, hreg, hmain, ?_, hqueues, hconns, haccepted, hconn⟩
    show s.sec2main.set s.secondaryCount (some (2 * s.secondaryCount + 1)) = secQueues (s.secondaryCount + 1) ++ []
    have hroom : s.sec2main = secQueues s.secondaryCount ++ [none] := hsec
    rw [hroom, set_none (length_secQueues _)]
    simp [secQueues, List.range_succ]
  | start conn =>
    rw [ha] at hlist hreg hmain hsec hqueues hconns haccepted hpc
    simp only [(hstart.at_start ha).1, (hstart.at_start ha).2]
    refine ⟨hlist, hreg, hmain, hsec, hqueues, ?_, haccepted, trivial⟩
    show (s.conns ++ [_]).length = s.secondaryCount + 1
    rw [List.length_append, hconns]
    rfl
  | count =>
    rw [ha] at hlist hreg hmain hsec hqueues hconns haccepted hpc
    exact ⟨hlist, hreg, hmain, hsec, hqueues, hconns, haccepted, trivial⟩
  | ended =>
    show Registration s
    exact ⟨hlist, hreg, hmain, hsec, hqueues, hconns, haccepted, hpc⟩

/-- What the other threads leave as it is, up to removals from `secondary_list`. -/
private theorem Registration.of_same {s s' : State} (h : Registration s)
    (hlist : s'.secondaryList.Sublist s.secondaryList)
    (hcount : s'.secondaryCount = s.secondaryCount) (haccept : s'.accept = s.accept)
    (hreg : s'.registered = s.registered) (hmain : s'.main2sec = s.main2sec) (hsec : s'.sec2main = s.sec2main)
    (hqueues : s'.queues.length = s.queues.length) (hconns : s'.conns.length = s.conns.length)
    (haccepted : s'.accepted = s.accepted) : Registration s' := by
  obtain ⟨h1, h2, h3, h4, h5, h6, h7, h8⟩ := h
  constructor <;> rw [hcount, haccept]
  · exact hlist.trans h1
  · rw [hreg, h2]
  · rw [hmain, h3]
  · rw [hsec, h4]
  · rw [hqueues, h5]
  · rw [hconns, h6]
  · rw [haccepted, h7]
  · exact h8

/-! ### What is in the queues -/

/-- The item belongs into queue `q`. -/
def Item.For (q : Nat) : Item → Prop
  | .command k _ => q = 2 * k
  | .message k _ => q = 2 * k + 1

private theorem Item.For.command {k : Nat} {item : Item} (h : item.For (2 * k)) : ∃ text, item = .command k text := by
  cases item with
  | command j text =>
    obtain rfl : k = j := by simpa [Item.For] using h
    exact ⟨text, rfl⟩
  | message j data => exact absurd (show 2 * k = 2 * j + 1 from h) (by omega)

theorem Item.For.message {k : Nat} {item : Item} (h : item.For (2 * k + 1)) : ∃ data, item = .message k data := by
  cases item with
  | command j text => exact absurd (show 2 * k + 1 = 2 * j from h) (by omega)
  | message j data =>
    obtain rfl : k = j := by simpa [Item.For] using h
    exact ⟨data, rfl⟩

private theorem mem_queue_put {s : State} {q r : Nat} {item x : Item} (h : x ∈ (s.put q item).queue r) :
    x ∈ s.queue r ∨ r = q ∧ x = item := by
  unfold State.queue State.put at *
  simp only [List.getD_eq_getElem?_getD, List.getElem?_set] at h
  split at h
  · rename_i heq
    subst heq
    split at h
    · simpa [State.queue] using h
    · simp at h
  · exact Or.inl (by rwa [List.getD_eq_getElem?_getD])

private theorem mem_queue_pop {s : State} {q r : Nat} {x : Item} (h : x ∈ (s.pop q).queue r) : x ∈ s.queue r := by
  unfold State.queue State.pop at *
  simp only [List.getD_eq_getElem?_getD, List.getElem?_set] at h ⊢
  split at h
  · rename_i heq
    subst heq
    split at h
    · exact List.mem_of_mem_tail (by simpa [State.queue] using h)
    · simp at h
  · exact h

/-- Thread `i` belongs to connection `i` and its queues. -/
structure Conn.Ok (i : Nat) (c : Conn) : Prop where
  id : c.id = i
  conn : c.conn = i
  m2s : c.m2s = 2 * i
  s2m : c.s2m = 2 * i + 1
  send : ∀ cmd, c.pc = .send cmd → cmd.For (2 * i)
  post : ∀ msg, c.pc = .post msg → msg.For (2 * i + 1)

/-- The shell uses the queues of the id, which are among the first `n`. -/
def ShellPc.Ok (n : Nat) : ShellPc → Prop
  | .secPut k q _ => q = 2 * k ∧ q < n
  | .secGet k q => q = 2 * k + 1 ∧ q < n
  | _ => True

private theorem ShellPc.Ok.mono {m n : Nat} (hmn : m ≤ n) {pc : ShellPc} (h : pc.Ok m) : pc.Ok n := by
  cases pc with
  | secPut | secGet => exact ⟨h.1, Nat.lt_of_lt_of_le h.2 hmn⟩
  | _ => trivial

/-- What holds in every state. -/
structure Routed (s : State) : Prop where
  registration : Registration s
  queues : ∀ q, ∀ x ∈ s.queue q, x.For q
  conns : ∀ (i : Nat) (c : Conn), s.conns[i]? = some c → c.Ok i
  shell : s.shell.Ok s.queues.length
  sent : ∀ x ∈ s.sent, x.2.For (2 * x.1)
  printed : ∀ x ∈ s.printed, x.2.For (2 * x.1 + 1)

section

variable {s : State}

private theorem Routed.setShell (h : Routed s) (pc : ShellPc) (hpc : pc.Ok s.queues.length) :
    Routed { s with shell := pc } :=
  ⟨h.registration.of_same (List.Sublist.refl _) rfl rfl rfl rfl rfl rfl rfl rfl, h.queues, h.conns, hpc, h.sent, h.printed⟩

private theorem Routed.put (h : Routed s) (q : Nat) (item : Item) (hitem : item.For q) : Routed (s.put q item) := by
  refine ⟨h.registration.of_same (List.Sublist.refl _) rfl rfl rfl rfl rfl (by simp [State.put]) rfl rfl, fun r x hx => ?_,
    h.conns, h.shell.mono (by simp [State.put]), h.sent, h.printed⟩
  rcases mem_queue_put hx with hx | ⟨rfl, rfl⟩
  · exact h.queues r x hx
  · exact hitem

private theorem Routed.pop (h : Routed s) (q : Nat) : Routed (s.pop q) :=
  ⟨h.registration.of_same (List.Sublist.refl _) rfl rfl rfl rfl rfl (by simp [State.pop]) rfl rfl,
    fun r x hx => h.queues r x (mem_queue_pop hx), h.conns, h.shell.mono (by simp [State.pop]), h.sent, h.printed⟩

private theorem Routed.setConn (h : Routed s) {i : Nat} {c : Conn} (hc : c.Ok i) :
    Routed { s with conns := s.conns.set i c } := by
  refine ⟨h.registration.of_same (List.Sublist.refl _) rfl rfl rfl rfl rfl rfl (by simp) rfl, h.queues, fun j d hd => ?_,
    h.shell, h.sent, h.printed⟩
  simp only [List.getElem?_set] at hd
  split at hd
  · rename_i heq
    subst heq
    split at hd
    · cases hd
      exact hc
    · cases hd
  · exact h.conns j d hd

private theorem Routed.setPrimary (h : Routed s) (primary : Option Bool) (main2primary : List CStr)
    (primary2main : List (Option CStr)) (pc : PrimaryPc) :
    Routed { s with primary := primary, main2primary := main2primary, primary2main := primary2main, primaryPc := pc } :=
  ⟨h.registration.of_same (List.Sublist.refl _) rfl rfl rfl rfl rfl rfl rfl rfl, h.queues, h.conns, h.shell, h.sent,
    h.printed⟩

theorem Routed.shellStep (h : Routed s) (input : Input) : Routed (s.shellStep input) := by
  unfold State.shellStep
  cases hpc : s.shell with
  | idle =>
    cases input with
    | sec k text => exact h.setShell _ trivial
    | pri text => exact h.setShell _ trivial
    | other => exact h
  | secTest k text =>
    refine h.setShell _ ?_
    split <;> trivial
  | secIndex k text =>
    simp only
    split
    · rename_i q hq
      obtain ⟨hk, hq⟩ := h.registration.eq_of_main2sec hq
      exact h.setShell _ ⟨hq, by rw [hq]; exact h.registration.main_lt hk⟩
    · exact h.setShell _ trivial
  | secPut k q text =>
    have hshell := h.shell
    rw [hpc] at hshell
    exact (h.put q (.command k text) hshell.1).setShell _ trivial
  | secIndexReply k =>
    simp only
    split
    · rename_i q hq
      obtain ⟨hk, hq⟩ := h.registration.eq_of_sec2main hq
      exact h.setShell _ ⟨hq, by rw [hq]; exact h.registration.sec_lt hk⟩
    · exact h.setShell _ trivial
  | secGet k q =>
    have hshell := h.shell
    rw [hpc] at hshell
    simp only
    split
    · exact h
    · rename_i item rest hitems
      have h' := (h.pop q).setShell .idle trivial
      refine ⟨h'.registration.of_same (List.Sublist.refl _) rfl rfl rfl rfl rfl rfl rfl rfl, h'.queues, h'.conns, trivial,
        h'.sent, fun x hx => ?_⟩
      rcases List.mem_append.1 hx with hx | hx
      · exact h.printed x hx
      · rw [List.mem_singleton.1 hx, ← hshell.1]
        exact h.queues q item (by rw [hitems]; simp)
  | priTest text =>
    refine h.setShell _ ?_
    split <;> trivial
  | priPut text =>
    exact (h.setPrimary s.primary (s.main2primary ++ [text]) s.primary2main s.primaryPc).setShell .priGet trivial
  | priGet =>
    simp only
    split
    · exact h
    · rename_i data rest _
      exact (h.setPrimary s.primary s.main2primary rest s.primaryPc).setShell .idle trivial
  | crashed => exact h
  | noQueue k => exact h

theorem Routed.acceptStep (h : Routed s) (ok : Bool) : Routed (s.acceptStep ok) := by
  have hreg : Registration (s.acceptStep ok) := h.registration.acceptStep
  have hpc := h.registration.pc
  have hlen := h.registration.conns
  unfold State.acceptStep at hreg ⊢
  cases ha : s.accept with
  | accept =>
    simp only [ha] at hreg ⊢
    cases ok <;> exact ⟨hreg, h.queues, h.conns, h.shell, h.sent, h.printed⟩
  | append conn =>
    simp only [ha] at hreg ⊢
    exact ⟨hreg, h.queues, h.conns, h.shell, h.sent, h.printed⟩
  | growMain conn =>
    simp only [ha] at hreg ⊢
    exact ⟨hreg, fun q x hx => h.queues q x (queue_new s q ▸ hx), h.conns, h.shell.mono (by simp), h.sent, h.printed⟩
  | setMain conn q =>
    simp only [ha] at hreg ⊢
    exact ⟨hreg, h.queues, h.conns, h.shell, h.sent, h.printed⟩
  | growSec conn =>
    simp only [ha] at hreg ⊢
    exact ⟨hreg, fun q x hx => h.queues q x (queue_new s q ▸ hx), h.conns, h.shell.mono (by simp), h.sent, h.printed⟩
  | setSec conn q =>
    simp only [ha] at hreg ⊢
    exact ⟨hreg, h.queues, h.conns, h.shell, h.sent, h.printed⟩
  | start conn =>
    rw [ha] at hpc hlen
    simp only [ha, (h.registration.at_start ha).1, (h.registration.at_start ha).2] at hreg ⊢
    refine ⟨hreg, h.queues, fun i c hc => ?_, h.shell, h.sent, h.printed⟩
    by_cases hi : i < s.conns.length
    · exact h.conns i c (by rwa [List.getElem?_append_left hi] at hc)
    · rw [List.getElem?_append_right (by omega)] at hc
      have hlen' : s.conns.length = s.secondaryCount := hlen
      have hi' : i - s.conns.length = 0 := by
        by_contra hne
        rw [List.getElem?_eq_none (by simp; omega)] at hc
        cases hc
      rw [hi'] at hc
      obtain rfl : i = s.secondaryCount := by omega
      cases hc
      exact ⟨rfl, hpc, rfl, rfl, by simp, by simp⟩
  | count =>
    simp only [ha] at hreg ⊢
    exact ⟨hreg, h.queues, h.conns, h.shell, h.sent, h.printed⟩
  | ended => exact h

theorem Routed.connStep (h : Routed s) {i : Nat} {c : Conn} (hc : s.conns[i]? = some c) (out : Option CStr) :
    Routed (s.connStep i c out) := by
  obtain ⟨hid, hconn, hm2s, hs2m, hsend, hpost⟩ := h.conns i c hc
  -- the thread at a place where it holds nothing
  have hgoto : ∀ {s' : State} (pc : ConnPc), Routed s' → (∀ cmd, pc = .send cmd → cmd.For (2 * i)) →
      (∀ msg, pc = .post msg → msg.For (2 * i + 1)) → Routed { s' with conns := s'.conns.set i { c with pc := pc } } :=
    fun pc h' h1 h2 => h'.setConn ⟨hid, hconn, hm2s, hs2m, h1, h2⟩
  unfold State.connStep
  cases hpc : c.pc with
  | select =>
    refine hgoto _ h (fun cmd hcmd => ?_) (fun msg hmsg => ?_)
    · split at hcmd <;> cases hcmd
    · split at hmsg <;> cases hmsg
  | get =>
    simp only
    split
    · exact h
    · rename_i cmd rest hitems
      refine hgoto _ (h.pop c.m2s) (fun cmd' hcmd => ?_) (by simp)
      cases hcmd
      rw [← hm2s]
      exact h.queues c.m2s cmd (by rw [hitems]; simp)
  | send cmd =>
    have hlog : Routed { s with sent := s.sent ++ [(c.conn, cmd)] } := by
      refine ⟨h.registration.of_same (List.Sublist.refl _) rfl rfl rfl rfl rfl rfl rfl rfl, h.queues, h.conns, h.shell,
        fun x hx => ?_, h.printed⟩
      rcases List.mem_append.1 hx with hx | hx
      · exact h.sent x hx
      · rw [List.mem_singleton.1 hx, hconn]
        exact hsend cmd hpc
    refine hgoto _ hlog (fun cmd hcmd => ?_) (fun msg hmsg => ?_)
    · split at hcmd <;> cases hcmd
    · split at hmsg <;> cases hmsg
  | recv =>
    cases out with
    | none => exact hgoto _ h (by simp) (by simp)
    | some data =>
      refine hgoto _ h (by simp) (fun msg hmsg => ?_)
      cases hmsg
      simp [Item.For, hconn]
  | post msg =>
    have hput := h.put c.s2m msg (by rw [hs2m]; exact hpost msg hpc)
    refine hgoto _ hput (fun cmd hcmd => ?_) (fun msg hmsg => ?_)
    · split at hcmd <;> cases hcmd
    · split at hmsg <;> cases hmsg
  | remove =>
    have hlist : Routed { s with secondaryList := s.secondaryList.erase c.id } :=
      ⟨h.registration.of_same List.erase_sublist rfl rfl rfl rfl rfl rfl rfl rfl, h.queues, h.conns, h.shell, h.sent,
        h.printed⟩
    exact hgoto _ hlist (by simp) (by simp)
  | close => exact hgoto _ h (by simp) (by simp)
  | ended => exact h

theorem Routed.primaryStep (h : Routed s) (out : Option CStr) : Routed (s.primaryStep out) := by
  unfold State.primaryStep
  cases hpc : s.primaryPc with
  | get =>
    simp only
    split
    · exact h
    · exact h.setPrimary _ _ _ _
  | recv => cases out <;> exact h.setPrimary _ _ _ _
  | setFalse | accept | setTrue | select | send | post | close => exact h.setPrimary _ _ _ _
  | ended => exact h

theorem Routed.step (h : Routed s) (e : Event) : Routed (s.step e) := by
  cases e with
  | shell input => exact h.shellStep input
  | accept ok => exact h.acceptStep ok
  | conn i out =>
    simp only [State.step]
    split
    · rename_i c hc
      exact h.connStep hc out
    · exact h
  | primary out => exact h.primaryStep out

end

/-! ### One connection -/

/-- What concerns connection `k` is the same in both states, and the shell is at the same place. -/
structure SameFor (k : Nat) (s s' : State) : Prop where
  shell : s'.shell = s.shell
  m2s : s'.queue (2 * k) = s.queue (2 * k)
  s2m : s'.queue (2 * k + 1) = s.queue (2 * k + 1)
  thread : s'.threadPc k = s.threadPc k
  commands : s'.commands k = s.commands k
  messages : s'.messages k = s.messages k

/-- A new thread is where one that has not been started is taken to be. -/
private theorem threadPc_append (s : State) (k : Nat) {c : Conn} (hc : c.pc = .select) :
    State.threadPc k { s with conns := s.conns ++ [c] } = s.threadPc k := by
  unfold State.threadPc
  by_cases hk : k < s.conns.length
  · rw [List.getElem?_append_left hk]
  · rw [List.getElem?_append_right (by omega), List.getElem?_eq_none (by omega : s.conns.length ≤ k)]
    cases k - s.conns.length with
    | zero => exact hc
    | succ _ => rfl

theorem acceptStep_sameFor (k : Nat) (s : State) (ok : Bool) : SameFor k s (s.acceptStep ok) := by
  unfold State.acceptStep
  cases s.accept with
  | accept => cases ok <;> exact ⟨rfl, rfl, rfl, rfl, rfl, rfl⟩
  | growMain conn => exact ⟨rfl, queue_new s _, queue_new s _, rfl, rfl, rfl⟩
  | growSec conn => exact ⟨rfl, queue_new s _, queue_new s _, rfl, rfl, rfl⟩
  | start conn =>
    simp only
    split
    · exact ⟨rfl, rfl, rfl, threadPc_append s k rfl, rfl, rfl⟩
    · exact ⟨rfl, rfl, rfl, rfl, rfl, rfl⟩
  | _ => exact ⟨rfl, rfl, rfl, rfl, rfl, rfl⟩

theorem primaryStep_sameFor (k : Nat) (s : State) (out : Option CStr) : SameFor k s (s.primaryStep out) := by
  unfold State.primaryStep
  cases s.primaryPc with
  | get =>
    simp only
    split <;> exact ⟨rfl, rfl, rfl, rfl, rfl, rfl⟩
  | recv => cases out <;> exact ⟨rfl, rfl, rfl, rfl, rfl, rfl⟩
  | _ => exact ⟨rfl, rfl, rfl, rfl, rfl, rfl⟩

/-- The thread of another connection. -/
theorem connStep_sameFor {k i : Nat} (hik : i ≠ k) (s : State) {c : Conn} (hc : c.Ok i) (out : Option CStr) :
    SameFor k s (s.connStep i c out) := by
  have hm2s : 2 * k ≠ c.m2s ∧ 2 * k + 1 ≠ c.m2s := by
    rw [hc.m2s]
    omega
  have hs2m : 2 * k ≠ c.s2m ∧ 2 * k + 1 ≠ c.s2m := by
    rw [hc.s2m]
    omega
  have hthread (pc : ConnPc) : (((s.conns.set i { c with pc := pc })[k]?).map Conn.pc).getD .select = s.threadPc k := by
    rw [List.getElem?_set_ne hik]
    rfl
  unfold State.connStep
  cases c.pc with
  | get =>
    simp only
    split
    · exact ⟨rfl, rfl, rfl, rfl, rfl, rfl⟩
    · exact ⟨rfl, queue_pop_ne hm2s.1, queue_pop_ne hm2s.2, hthread _, rfl, rfl⟩
  | send cmd =>
    refine ⟨rfl, rfl, rfl, hthread _, ?_, rfl⟩
    simp [State.commands, hc.conn, hik]
  | recv => cases out <;> exact ⟨rfl, rfl, rfl, hthread _, rfl, rfl⟩
  | post msg => exact ⟨rfl, queue_put_ne hs2m.1 msg, queue_put_ne hs2m.2 msg, hthread _, rfl, rfl⟩
  | ended => exact ⟨rfl, rfl, rfl, rfl, rfl, rfl⟩
  | _ => exact ⟨rfl, rfl, rfl, hthread _, rfl, rfl⟩

/-! ### Runs -/

theorem routed_run (es : List Event) : Routed (run es) := by
  have hstart : Routed {} := by
    refine ⟨⟨by simp, rfl, rfl, rfl, rfl, rfl, rfl, trivial⟩, ?_, by simp, trivial, by simp, by simp⟩
    intro q x hx
    simp [State.queue] at hx
  have hany : Along State.step (fun _ _ => True) {} es := Along.of_forall (fun _ _ _ => trivial) _
  have h := hany.invariant (fun hs _ => hs.step _) hstart es.length
  rwa [List.take_length] at h

/-- In every run of the controller the ids in `secondary_list` are distinct and no id is registered twice; no two
connection threads share a queue; whatever is sent on a connection is a command that was issued for the id with the
number of the connection; and whatever is printed for an id was received on the connection with this number.  Connections
are numbered from 0 in the order in which they are accepted. -/
theorem routed_commands (es : List Event) :
    ((run es).secondaryList.Nodup ∧ (run es).registered.Nodup ∧ (run es).secondaryList ⊆ (run es).registered) ∧
    (∀ (i j : Nat) (c d : Conn), (run es).conns[i]? = some c → (run es).conns[j]? = some d → i ≠ j →
      List.Disjoint [c.m2s, c.s2m] [d.m2s, d.s2m]) ∧
    (∀ conn item, (conn, item) ∈ (run es).sent → ∃ text, item = .command conn text) ∧
    (∀ k item, (k, item) ∈ (run es).printed → ∃ data, item = .message k data) := by
  have h := routed_run es
  have hnodup : (run es).registered.Nodup := by
    rw [h.registration.registered]
    exact List.nodup_range
  refine ⟨⟨?_, hnodup, ?_⟩, fun i j c d hc hd hij => ?_, fun conn item hitem => ?_, fun k item hitem => ?_⟩
  · exact h.registration.list.nodup List.nodup_range
  · rw [h.registration.registered]
    exact h.registration.list.subset
  · have hci := h.conns i c hc
    have hdj := h.conns j d hd
    rw [hci.m2s, hci.s2m, hdj.m2s, hdj.s2m]
    intro q hq hq'
    simp only [List.mem_cons, List.not_mem_nil, or_false] at hq hq'
    omega
  · exact (h.sent _ hitem).command
  · exact (h.printed _ hitem).message

end SoftPatchPanel.Spp

import SoftPatchPanel.Spp.Routing

/-!
# Waiting for a reply

The shell puts a command into a queue and then waits for what comes of it.  A thread that has taken the command and whose
`send` or `recv` raises posts nothing, and the shell waits for ever (`wedged_runs`); `acceptthread` publishes an id before
its queues, and a shell that is quick enough indexes a list at a place that is not there.  Without these two the shell is
never left waiting (`not_wedged`): the command stays in its queue, with the thread, or its outcome is in the reply queue.
-/

namespace SoftPatchPanel.Spp

open Lib

/-- With the shell at `pc`: it waits at an empty queue, its command is not in the command queue, and no thread has it; or it
has indexed a list at an id that has no queue. -/
def State.WedgedAt (s : State) : ShellPc → Prop
  | .secGet k q => s.queue q = [] ∧ (∀ m ∈ s.main2sec[k]?.join, s.queue m = []) ∧
      ∀ c ∈ s.conns, c.id = k → c.pc.inFlight = false
  | .priGet => s.primary2main = [] ∧ s.main2primary = [] ∧ s.primaryPc.inFlight = false
  | .noQueue _ => True
  | _ => False

/-- The shell waits for an outcome that nobody is about to post, or has indexed a list at an id that has no queue. -/
def State.Wedged (s : State) : Prop := s.WedgedAt s.shell

instance decidableWedgedAt (s : State) : (pc : ShellPc) → Decidable (s.WedgedAt pc)
  | .secGet k q => inferInstanceAs (Decidable (s.queue q = [] ∧ (∀ m ∈ s.main2sec[k]?.join, s.queue m = []) ∧
      ∀ c ∈ s.conns, c.id = k → c.pc.inFlight = false))
  | .priGet => inferInstanceAs (Decidable (s.primary2main = [] ∧ s.main2primary = [] ∧ s.primaryPc.inFlight = false))
  | .noQueue _ => inferInstanceAs (Decidable True)
  | .idle | .secTest _ _ | .secIndex _ _ | .secPut _ _ _ | .secIndexReply _ | .priTest _ | .priPut _ | .crashed =>
    inferInstanceAs (Decidable False)

instance (s : State) : Decidable s.Wedged := decidableWedgedAt s s.shell

/-! ### What goes wrong -/

/-- The shell reads a command and issues it, up to the place where it waits. -/
def issueStatus : List Event := List.replicate 5 (.shell (.sec 0 "status".toList))

/-- Steps of the first connection thread. -/
def threadSteps (outs : List (Option CStr)) : List Event := outs.map (.conn 0)

/-- A command for the first secondary, taken by its thread, whose call of `send` raises. -/
def sendRaises : List Event := acceptOne ++ issueStatus ++ threadSteps [some [], none, none]

/-- As before, but it is `recv` that raises. -/
def recvRaises : List Event := acceptOne ++ issueStatus ++ threadSteps [some [], none, some [], none]

/-- A command for the primary, whose thread takes it and fails to send it. -/
def primaryRaises : List Event :=
  [some [], some [], some []].map .primary ++ List.replicate 3 (.shell (.pri "status".toList)) ++
    [some [], none, none].map .primary

/-- A command for an id that has just been appended to `secondary_list`. -/
def earlyCommand : List Event := acceptOne.take 2 ++ issueStatus.take 3

theorem wedged_runs : (run sendRaises).Wedged ∧ (run recvRaises).Wedged ∧ (run primaryRaises).Wedged ∧
    (run earlyCommand).Wedged := by decide +kernel

/-! ### What keeps the shell going -/

/-- The thread is at a call that can raise with a command in its hands. -/
def ConnPc.calls : ConnPc → Bool
  | .send _ | .recv => true
  | _ => false

@[inherit_doc ConnPc.calls]
def PrimaryPc.calls : PrimaryPc → Bool
  | .send _ | .recv => true
  | _ => false

/-- The id that the shell is about to look up in `secondary_list`. -/
def ShellPc.tests : ShellPc → Option Nat
  | .secTest k _ => some k
  | _ => none

/-- No call raises on a thread with a command in its hands, and the shell does not find an id in `secondary_list` whose
queues are not there yet; of the two queues that in `sec2main` comes last. -/
def State.Answers (s : State) : Event → Prop
  | .shell _ => ∀ k ∈ s.shell.tests, k ∈ s.secondaryList → (s.sec2main[k]?.join).isSome
  | .accept _ => True
  | .conn i out => ∀ c ∈ s.conns[i]?, c.pc.calls → out.isSome
  | .primary out => s.primaryPc.calls → out.isSome

instance decidableAnswers (s : State) : (e : Event) → Decidable (s.Answers e)
  | .shell _ =>
    inferInstanceAs (Decidable (∀ k ∈ s.shell.tests, k ∈ s.secondaryList → (s.sec2main[k]?.join).isSome = true))
  | .accept _ => inferInstanceAs (Decidable True)
  | .conn i out => inferInstanceAs (Decidable (∀ c ∈ s.conns[i]?, c.pc.calls = true → out.isSome = true))
  | .primary out => inferInstanceAs (Decidable (s.primaryPc.calls = true → out.isSome = true))

/-- The id whose queues the shell is using. -/
def ShellPc.uses : ShellPc → Option Nat
  | .secIndex k _ | .secPut k _ _ | .secIndexReply k | .secGet k _ => some k
  | _ => none

/-- The id whose reply the shell is going to wait for, once its command is in the queue. -/
def ShellPc.awaits : ShellPc → Option Nat
  | .secIndexReply k | .secGet k _ => some k
  | _ => none

/-- A command for `k` or its outcome is somewhere between the shell and thread `k`. -/
def State.Answerable (s : State) (k : Nat) : Prop :=
  s.queue (2 * k) ≠ [] ∨ s.queue (2 * k + 1) ≠ [] ∨ (s.threadPc k).inFlight = true

/-- A command for the primary or its outcome is somewhere between the shell and `primarythread`. -/
def State.PrimaryAnswerable (s : State) : Prop :=
  s.primary2main ≠ [] ∨ s.main2primary ≠ [] ∨ s.primaryPc.inFlight = true

/-- What holds in every state of a run in which each command is answered. -/
structure Attended (s : State) : Prop where
  routed : Routed s
  uses : ∀ k ∈ s.shell.uses, k < s.secondaryCount + s.accept.secs
  awaits : ∀ k ∈ s.shell.awaits, s.Answerable k
  primary : s.shell = .priGet → s.PrimaryAnswerable
  shell : ∀ k, s.shell ≠ .noQueue k

private theorem secs_le_mains (pc : AcceptPc) : pc.secs ≤ pc.mains := by
  cases pc <;> simp [AcceptPc.secs, AcceptPc.mains]

section

variable {s : State}

private theorem uses_of_awaits {pc : ShellPc} {k : Nat} (h : k ∈ pc.awaits) : k ∈ pc.uses := by
  cases pc <;> first | exact h | cases h

/-- Where the shell neither uses a queue nor waits. -/
def ShellPc.free : ShellPc → Bool
  | .idle | .secTest _ _ | .priTest _ | .priPut _ | .crashed => true
  | _ => false

private theorem attended_of_free (h : Routed s) (hfree : s.shell.free = true) : Attended s := by
  cases hpc : s.shell with
  | idle | secTest | priTest | priPut | crashed =>
    exact ⟨h, by simp [hpc, ShellPc.uses], by simp [hpc, ShellPc.awaits], by simp [hpc], by simp [hpc]⟩
  | _ => simp [hpc, ShellPc.free] at hfree

private theorem not_wedged_of_attended (h : Attended s) : ¬ s.Wedged := by
  unfold State.Wedged
  cases hpc : s.shell with
  | secGet k q =>
    rintro ⟨hreply, hcommand, hconns⟩
    have hshell := h.routed.shell
    rw [hpc] at hshell
    have hk := h.uses k (by rw [hpc]; rfl)
    rcases h.awaits k (by rw [hpc]; rfl) with hm | hr | hflight
    · refine hm (hcommand (2 * k) ?_)
      rw [h.routed.registration.getElem?_main2sec (by have := secs_le_mains s.accept; omega)]
      rfl
    · exact hr (hshell.1 ▸ hreply)
    · cases hc : s.conns[k]? with
      | none =>
        rw [State.threadPc, hc] at hflight
        cases hflight
      | some c =>
        rw [threadPc_eq hc, hconns c (List.mem_of_getElem? hc) (h.routed.conns k c hc).id] at hflight
        cases hflight
  | priGet =>
    rintro ⟨hreply, hcommand, hthread⟩
    rcases h.primary hpc with hr | hm | hflight
    · exact hr hreply
    · exact hm hcommand
    · rw [hthread] at hflight
      cases hflight
  | noQueue k => exact fun _ => h.shell k hpc
  | _ => exact id

private theorem Attended.shellStep (h : Attended s) {input : Input} (hok : s.Answers (.shell input)) :
    Attended (s.shellStep input) := by
  have hrouted := h.routed.shellStep input
  have hreg := h.routed.registration
  have hmains := secs_le_mains s.accept
  unfold State.shellStep at hrouted ⊢
  cases hpc : s.shell with
  | idle =>
    simp only [hpc] at hrouted ⊢
    cases input with
    | sec k text => exact attended_of_free hrouted rfl
    | pri text => exact attended_of_free hrouted rfl
    | other => exact h
  | secTest k text =>
    simp only [hpc] at hrouted ⊢
    by_cases hk : k ∈ s.secondaryList
    · obtain ⟨q, hq⟩ := Option.isSome_iff_exists.1 (hok k (by rw [hpc]; rfl) hk)
      simp only [if_pos hk] at hrouted ⊢
      refine ⟨hrouted, fun j hj => ?_, by simp [ShellPc.awaits], by simp, by simp⟩
      cases hj
      exact (hreg.eq_of_sec2main (Option.join_eq_some_iff.1 hq)).1
    · simp only [if_neg hk] at hrouted ⊢
      exact attended_of_free hrouted rfl
  | secIndex k text =>
    have hk := h.uses k (by rw [hpc]; rfl)
    simp only [hpc, hreg.getElem?_main2sec (k := k) (by omega)] at hrouted ⊢
    refine ⟨hrouted, fun j hj => ?_, by simp [ShellPc.awaits], by simp, by simp⟩
    cases hj
    exact hk
  | secPut k q text =>
    have hk := h.uses k (by rw [hpc]; rfl)
    simp only [hpc] at hrouted ⊢
    refine ⟨hrouted, fun j hj => ?_, fun j hj => Or.inl ?_, by simp, by simp⟩
    · cases hj
      exact hk
    · cases hj
      have hshell := h.routed.shell
      rw [hpc] at hshell
      obtain ⟨rfl, hlt⟩ := hshell
      show (s.put (2 * k) (.command k text)).queue (2 * k) ≠ []
      rw [queue_put_self hlt]
      simp
  | secIndexReply k =>
    have hk := h.uses k (by rw [hpc]; rfl)
    have hanswer := h.awaits k (by rw [hpc]; rfl)
    simp only [hpc, hreg.getElem?_sec2main hk] at hrouted ⊢
    refine ⟨hrouted, fun j hj => ?_, fun j hj => ?_, by simp, by simp⟩
    · cases hj
      exact hk
    · cases hj
      exact hanswer
  | secGet k q =>
    simp only [hpc] at hrouted ⊢
    split at hrouted
    · exact h
    · exact attended_of_free hrouted rfl
  | priTest text =>
    simp only [hpc] at hrouted ⊢
    refine attended_of_free hrouted ?_
    split <;> rfl
  | priPut text =>
    simp only [hpc] at hrouted ⊢
    exact ⟨hrouted, by simp [ShellPc.uses], by simp [ShellPc.awaits], fun _ => Or.inr (Or.inl (by simp)), by simp⟩
  | priGet =>
    simp only [hpc] at hrouted ⊢
    split at hrouted
    · exact h
    · exact attended_of_free hrouted rfl
  | crashed => exact h
  | noQueue k => exact h

private theorem State.Answerable.of_sameFor {k : Nat} {s' : State} (hsame : SameFor k s s') (h : s.Answerable k) :
    s'.Answerable k := by
  unfold State.Answerable
  rw [hsame.m2s, hsame.s2m, hsame.thread]
  exact h

/-- Steps of other threads that keep the ids whose queues are there, and the queues of the primary. -/
private theorem Attended.of_sameFor (h : Attended s) {s' : State} (hrouted : Routed s')
    (hcount : s.secondaryCount + s.accept.secs ≤ s'.secondaryCount + s'.accept.secs) (hshell : s'.shell = s.shell)
    (hprimary : s.PrimaryAnswerable → s'.PrimaryAnswerable)
    (hanswer : ∀ k ∈ s.shell.awaits, s.Answerable k → s'.Answerable k) : Attended s' := by
  refine ⟨hrouted, ?_, ?_, ?_, ?_⟩ <;> rw [hshell]
  · exact fun k hk => Nat.lt_of_lt_of_le (h.uses k hk) hcount
  · exact fun k hk => hanswer k hk (h.awaits k hk)
  · exact fun hget => hprimary (h.primary hget)
  · exact h.shell

private theorem acceptStep_secs (h : Registration s) (ok : Bool) :
    s.secondaryCount + s.accept.secs ≤ (s.acceptStep ok).secondaryCount + (s.acceptStep ok).accept.secs := by
  unfold State.acceptStep
  cases ha : s.accept with
  | accept => cases ok <;> simp [AcceptPc.secs]
  | start conn =>
    simp only [(h.at_start ha).1, (h.at_start ha).2]
    exact Nat.le_refl _
  | ended => simp [ha]
  | _ => simp [AcceptPc.secs]

private theorem acceptStep_primary (ok : Bool) (h : s.PrimaryAnswerable) : (s.acceptStep ok).PrimaryAnswerable := by
  unfold State.acceptStep
  cases s.accept with
  | accept => cases ok <;> exact h
  | start conn =>
    simp only
    split <;> exact h
  | _ => exact h

private theorem Attended.acceptStep (h : Attended s) (ok : Bool) : Attended (s.acceptStep ok) :=
  h.of_sameFor (h.routed.acceptStep ok) (acceptStep_secs h.routed.registration ok) (acceptStep_sameFor 0 s ok).shell
    (acceptStep_primary ok) (fun k _ => .of_sameFor (acceptStep_sameFor k s ok))

private theorem connStep_frame (s : State) (i : Nat) (c : Conn) (out : Option CStr) :
    (s.connStep i c out).shell = s.shell ∧ (s.PrimaryAnswerable → (s.connStep i c out).PrimaryAnswerable) ∧
    s.secondaryCount + s.accept.secs ≤ (s.connStep i c out).secondaryCount + (s.connStep i c out).accept.secs := by
  unfold State.connStep
  cases c.pc with
  | get =>
    simp only
    split <;> exact ⟨rfl, id, Nat.le_refl _⟩
  | recv => cases out <;> exact ⟨rfl, id, Nat.le_refl _⟩
  | _ => exact ⟨rfl, id, Nat.le_refl _⟩

/-- Thread `k` itself takes the command, keeps it, and posts its outcome. -/
private theorem State.Answerable.connStep {k : Nat} (h : s.Answerable k) {c : Conn} (hc : s.conns[k]? = some c)
    (hok : c.Ok k) (hqueue : 2 * k + 1 < s.queues.length) {out : Option CStr} (hout : c.pc.calls → out.isSome) :
    (s.connStep k c out).Answerable k := by
  -- a thread that has nothing leaves the command or its outcome in a queue
  have hrest : c.pc.inFlight = false → s.queue (2 * k) ≠ [] ∨ s.queue (2 * k + 1) ≠ [] := by
    intro hempty
    rcases h with hm | hs | hflight
    · exact Or.inl hm
    · exact Or.inr hs
    · rw [threadPc_eq hc, hempty] at hflight
      cases hflight
  have hflying (t : State) (pc : ConnPc) (ht : t.conns = s.conns) (hflight : pc.inFlight = true) :
      ({ t with conns := t.conns.set k { c with pc := pc } } : State).Answerable k := by
    refine Or.inr (Or.inr ?_)
    rw [threadPc_set (by rw [ht]; exact (List.getElem?_eq_some_iff.1 hc).1)]
    exact hflight
  unfold State.connStep
  cases hpc : c.pc with
  | get =>
    simp only
    split
    · exact h
    · exact hflying (s.pop c.m2s) _ rfl rfl
  | send cmd =>
    rw [hpc] at hout
    obtain ⟨data, rfl⟩ := Option.isSome_iff_exists.1 (hout rfl)
    exact hflying { s with sent := s.sent ++ [(c.conn, cmd)] } .recv rfl rfl
  | recv =>
    rw [hpc] at hout
    obtain ⟨data, rfl⟩ := Option.isSome_iff_exists.1 (hout rfl)
    exact hflying s _ rfl rfl
  | post msg =>
    refine Or.inr (Or.inl ?_)
    show (s.put c.s2m msg).queue (2 * k + 1) ≠ []
    rw [hok.s2m, queue_put_self hqueue]
    simp
  | select | remove | close =>
    exact (hrest (by rw [hpc]; rfl)).imp id Or.inl
  | ended => exact h

private theorem Attended.connStep (h : Attended s) {i : Nat} {c : Conn} (hc : s.conns[i]? = some c) {out : Option CStr}
    (hok : c.pc.calls → out.isSome) : Attended (s.connStep i c out) := by
  obtain ⟨hshell, hprimary, hcount⟩ := connStep_frame s i c out
  have hci := h.routed.conns i c hc
  refine h.of_sameFor (h.routed.connStep hc out) hcount hshell hprimary (fun k hk hanswer => ?_)
  by_cases hik : i = k
  · subst hik
    exact hanswer.connStep hc hci (h.routed.registration.sec_lt (h.uses i (uses_of_awaits hk))) hok
  · exact hanswer.of_sameFor (connStep_sameFor hik s hci out)

private theorem primaryStep_secs (s : State) (out : Option CStr) :
    s.secondaryCount + s.accept.secs ≤ (s.primaryStep out).secondaryCount + (s.primaryStep out).accept.secs := by
  unfold State.primaryStep
  cases s.primaryPc with
  | get =>
    simp only
    split <;> exact Nat.le_refl _
  | recv => cases out <;> exact Nat.le_refl _
  | _ => exact Nat.le_refl _

/-- `primarythread` takes the command, keeps it, and posts its outcome. -/
private theorem State.PrimaryAnswerable.primaryStep (h : s.PrimaryAnswerable) {out : Option CStr}
    (hout : s.primaryPc.calls → out.isSome) : (s.primaryStep out).PrimaryAnswerable := by
  have hrest : s.primaryPc.inFlight = false → s.primary2main ≠ [] ∨ s.main2primary ≠ [] := by
    intro hpc
    rcases h with hs | hm | hflight
    · exact Or.inl hs
    · exact Or.inr hm
    · rw [hpc] at hflight
      cases hflight
  unfold State.primaryStep
  cases hpc : s.primaryPc with
  | get =>
    simp only
    split
    · exact h
    · exact Or.inr (Or.inr rfl)
  | send cmd =>
    rw [hpc] at hout
    obtain ⟨data, rfl⟩ := Option.isSome_iff_exists.1 (hout rfl)
    exact Or.inr (Or.inr rfl)
  | recv =>
    rw [hpc] at hout
    obtain ⟨data, rfl⟩ := Option.isSome_iff_exists.1 (hout rfl)
    exact Or.inr (Or.inr rfl)
  | post data => exact Or.inl (by simp)
  | setFalse | accept | setTrue | select | close => exact (hrest (by rw [hpc]; rfl)).imp id Or.inl
  | ended => exact h

private theorem Attended.primaryStep (h : Attended s) {out : Option CStr} (hok : s.primaryPc.calls → out.isSome) :
    Attended (s.primaryStep out) :=
  h.of_sameFor (h.routed.primaryStep out) (primaryStep_secs s out) (primaryStep_sameFor 0 s out).shell
    (fun hanswer => hanswer.primaryStep hok) (fun k _ => .of_sameFor (primaryStep_sameFor k s out))

private theorem Attended.step (h : Attended s) {e : Event} (hok : s.Answers e) : Attended (s.step e) := by
  cases e with
  | shell input => exact h.shellStep hok
  | accept ok => exact h.acceptStep ok
  | conn i out =>
    simp only [State.step]
    split
    · rename_i c hc
      exact h.connStep hc (hok c hc)
    · exact h
  | primary out => exact h.primaryStep hok

end

/-- In a run in which no call raises on a thread with a command in its hands, and in which the shell finds no id whose
queues are not there yet, the shell is never left waiting, whatever else the threads and their peers do. -/
theorem not_wedged {es : List Event} (h : Along State.step State.Answers {} es) (k : Nat) :
    ¬ (run (es.take k)).Wedged := by
  have hstart : Attended {} := attended_of_free (routed_run []) rfl
  exact not_wedged_of_attended (h.invariant (fun hs hok => hs.step hok) hstart k)

/-- A command with its reply, and a second one on which the secondary closes the connection. -/
def twoCommands : List Event :=
  acceptOne ++ issueStatus ++ threadSteps [some [], none, some [], some "idling".toList, none] ++ [.shell .other] ++
    issueStatus ++ threadSteps [some [], none, some [], some [], none] ++ [.shell .other] ++ threadSteps [none]

theorem not_wedged_twoCommands : Along State.step State.Answers {} twoCommands ∧
    (run twoCommands).printed = [(0, .message 0 (some "idling".toList)), (0, .message 0 none)] ∧
    (run twoCommands).secondaryList = [] ∧ ∀ k, ¬ (run (twoCommands.take k)).Wedged :=
  ⟨by decide +kernel, by decide +kernel, by decide +kernel, not_wedged (by decide +kernel)⟩

end SoftPatchPanel.Spp

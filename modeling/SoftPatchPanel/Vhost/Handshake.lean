import SoftPatchPanel.Vhost.Pmd

/-!
# Polling while a guest comes and goes

A poller tests `xfer`, announces itself and tests `xfer` again; `destroy_device` clears `xfer` and then waits for every
poller that has announced itself.  In every interleaving a poller that has passed the second test works on the device
that is attached, and `destroy_device` of that device has its queue still to wait for.  So no burst function is called
without a device or with one whose `destroy_device` has returned (`burst_device_attached`).
-/

namespace SoftPatchPanel.Vhost

open Lib

section

variable {nRx nTx : Nat} {δ : Type}

/-! ### The invariant -/

/-- What the thread of the callbacks knows at each place. -/
def Callback.Ok (s : Pmd nRx nTx δ) (attached : Option δ) (gone : δ → Bool) : Callback nRx nTx δ → Prop
  | .out =>
    match attached with
    | none => s.xfer = false
    | some d => gone d = false ∧ ∀ q, s.device q = some d
  | .setDevice d rest | .setInternal d _ rest =>
    attached = some d ∧ gone d = false ∧ s.xfer = false ∧ ∀ q ∉ rest, s.device q = some d
  | .setLink d | .setXfer d => attached = some d ∧ gone d = false ∧ s.xfer = false ∧ ∀ q, s.device q = some d
  | .stopXfer d => gone d = false ∧ ∀ q, s.device q = some d
  | .wait _ _ | .stopLink _ | .clearDevice _ _ | .ret _ => s.xfer = false

/-- The device `d` of queue `q` is attached, and its `destroy_device` still has to wait for the queue. -/
def Port.Serves (p : Port nRx nTx δ) (q : Queue nRx nTx) (d : δ) : Prop :=
  p.pmd.device q = some d ∧ p.gone d = false ∧
    ((p.callback = .out ∧ p.attached = some d) ∨ p.callback = .stopXfer d ∨
      ∃ rest, p.callback = .wait d rest ∧ q ∈ rest)

/-- What a poller knows at each place. -/
def Poll.Ok (q : Queue nRx nTx) (p : Port nRx nTx δ) : Poll δ → Prop
  | .out | .testInternal | .loadInternal | .testXfer | .announce => p.pmd.executing q = false
  | .reloadInternal | .retestXfer | .finish => p.pmd.executing q = true
  | .readDevice => p.pmd.executing q = true ∧ ∃ d, p.Serves q d
  | .burst v => p.pmd.executing q = true ∧ ∃ d, v = some d ∧ p.Serves q d

/-- The invariant of the data. -/
def Port.Ok (p : Port nRx nTx δ) : Prop := p.callback.Ok p.pmd p.attached p.gone

/-! ### Moves of the callbacks -/

variable [DecidableEq δ] {p p' : Port nRx nTx δ} {q : Queue nRx nTx} {d : δ}

private theorem Port.Ok.callback (h : p.Ok) (hmove : Callback.Move p p') : p'.Ok := by
  cases hmove with
  | new d => exact ⟨rfl, Function.update_self .., h, fun q hq => absurd (mem_queues q) hq⟩
  | @device s d q rest a gone =>
    obtain ⟨hattached, hgone, hxfer, hdevice⟩ := h
    refine ⟨hattached, hgone, hxfer, fun r hr => ?_⟩
    by_cases hrq : r = q
    · simp [hrq]
    · simpa [hrq] using hdevice r (by simp [hrq, hr])
  | internal => exact h
  | devicesSet =>
    obtain ⟨hattached, hgone, hxfer, hdevice⟩ := h
    exact ⟨hattached, hgone, hxfer, fun q => hdevice q List.not_mem_nil⟩
  | link => exact h
  | xfer =>
    obtain ⟨hattached, hgone, -, hdevice⟩ := h
    subst hattached
    exact ⟨hgone, hdevice⟩
  | destroy => exact h
  | stop => rfl
  | busy => exact h
  | idle => exact h
  | waited => exact h
  | stopLink => exact h
  | clear => exact h
  | cleared => exact h
  | ret => exact h

private theorem executing_callback (hmove : Callback.Move p p') : p'.pmd.executing = p.pmd.executing := by
  cases hmove <;> rfl

/-- A device that is in use stays in place: its `destroy_device` does not get past the wait for the queue. -/
private theorem Port.Serves.callback (h : p.Serves q d) (hexec : p.pmd.executing q = true)
    (hmove : Callback.Move p p') : p'.Serves q d := by
  obtain ⟨hdevice, hgone, hphase⟩ := h
  cases hmove with
  | destroy =>
    obtain ⟨-, hattached⟩ | h | ⟨rest, h, -⟩ := hphase
    · cases hattached
      exact ⟨hdevice, hgone, Or.inr (Or.inl rfl)⟩
    · cases h
    · cases h
  | stop =>
    obtain ⟨h, -⟩ | h | ⟨rest, h, -⟩ := hphase
    · cases h
    · cases h
      exact ⟨hdevice, hgone, Or.inr (Or.inr ⟨_, rfl, mem_queues q⟩)⟩
    · cases h
  | busy => exact ⟨hdevice, hgone, hphase⟩
  | @idle s d' q' rest a gone hidle =>
    obtain ⟨h, -⟩ | h | ⟨rest', h, hq⟩ := hphase
    · cases h
    · cases h
    · cases h
      have hne : q ≠ q' := by
        rintro rfl
        simp only [hidle, Bool.false_eq_true] at hexec
      exact ⟨hdevice, hgone, Or.inr (Or.inr ⟨rest, rfl, (List.mem_cons.1 hq).resolve_left hne⟩)⟩
  | waited =>
    obtain ⟨h, -⟩ | h | ⟨rest, h, hq⟩ := hphase
    · cases h
    · cases h
    · cases h
      cases hq
  | new d' =>
    obtain ⟨-, h⟩ | h | ⟨rest, h, -⟩ := hphase <;> cases h
  | _ => obtain ⟨h, -⟩ | h | ⟨rest, h, -⟩ := hphase <;> cases h

private theorem Poll.Ok.callback {t : Poll δ} (h : t.Ok q p) (hmove : Callback.Move p p') : t.Ok q p' := by
  have hexec := executing_callback hmove
  cases t with
  | readDevice =>
    obtain ⟨hq, d, hserves⟩ := h
    exact ⟨by rw [hexec, hq], d, hserves.callback hq hmove⟩
  | burst v =>
    obtain ⟨hq, d, hv, hserves⟩ := h
    exact ⟨by rw [hexec, hq], d, hv, hserves.callback hq hmove⟩
  | _ => exact (congrFun hexec q).trans h

end

/-! ### Moves of the pollers -/

section

variable {nRx nTx : Nat} {δ : Type} {p : Port nRx nTx δ} {q : Queue nRx nTx} {pmd : Pmd nRx nTx δ} {t t' : Poll δ}

private theorem Poll.Move.frame {s s' : Pmd nRx nTx δ} (h : Poll.Move q s t s' t') :
    s'.xfer = s.xfer ∧ s'.device = s.device ∧ ∀ r ≠ q, s'.executing r = s.executing r := by
  cases h with
  | announce => exact ⟨rfl, rfl, fun r hr => Function.update_of_ne hr ..⟩
  | finish => exact ⟨rfl, rfl, fun r hr => Function.update_of_ne hr ..⟩
  | _ => exact ⟨rfl, rfl, fun _ _ => rfl⟩

private theorem Port.Ok.poll (h : p.Ok) (hxfer : pmd.xfer = p.pmd.xfer) (hdevice : pmd.device = p.pmd.device) :
    Port.Ok { p with pmd := pmd } := by
  obtain ⟨s, cb, attached, gone⟩ := p
  cases cb <;> simp_all [Port.Ok, Callback.Ok]

private theorem Port.Serves.poll {d : δ} (h : p.Serves q d) (hdevice : pmd.device = p.pmd.device) :
    Port.Serves { p with pmd := pmd } q d := by
  obtain ⟨hq, hrest⟩ := h
  exact ⟨by rw [hdevice, hq], hrest⟩

private theorem Poll.Ok.poll {r : Queue nRx nTx} {u : Poll δ} (h : u.Ok r p) (hdevice : pmd.device = p.pmd.device)
    (hexec : pmd.executing r = p.pmd.executing r) : u.Ok r { p with pmd := pmd } := by
  cases u with
  | readDevice =>
    obtain ⟨hr, d, hserves⟩ := h
    exact ⟨hexec.trans hr, d, hserves.poll hdevice⟩
  | burst v =>
    obtain ⟨hr, d, hv, hserves⟩ := h
    exact ⟨hexec.trans hr, d, hv, hserves.poll hdevice⟩
  | _ => exact hexec.trans h

/-- While `xfer` is set, every queue has the attached device. -/
private theorem Port.Ok.serves (h : p.Ok) (hxfer : p.pmd.xfer = true) (q : Queue nRx nTx) : ∃ d, p.Serves q d := by
  obtain ⟨s, cb, attached, gone⟩ := p
  cases cb with
  | out =>
    cases attached with
    | none => exact absurd hxfer (by simp [show s.xfer = false from h])
    | some d => exact ⟨d, h.2 q, h.1, Or.inl ⟨rfl, rfl⟩⟩
  | stopXfer d => exact ⟨d, h.2 q, h.1, Or.inr (Or.inl rfl)⟩
  | _ => simp_all [Port.Ok, Callback.Ok]

private theorem Poll.Ok.move (h : t.Ok q p) (hp : p.Ok) (hmove : Poll.Move q p.pmd t pmd t') :
    t'.Ok q { p with pmd := pmd } := by
  cases hmove with
  | announce => exact Function.update_self ..
  | finish => exact Function.update_self ..
  | enabledStill hxfer => exact ⟨h, hp.serves hxfer q⟩
  | device =>
    obtain ⟨hexec, d, hserves⟩ := h
    exact ⟨hexec, d, hserves.1, hserves⟩
  | burst => exact h.1
  | _ => exact h

end

/-! ### Safety of the bursts -/

/-- However the polls of any number of queues and the callbacks interleave, a burst function works on a device, and
`destroy_device` of that device has not returned. -/
theorem burst_device_attached (nRx nTx : Nat) (δ : Type) [DecidableEq δ]
    {y : Port nRx nTx δ × (Queue nRx nTx → Poll δ)} (hy : (system nRx nTx δ).Reach ({}, fun _ => .out) y)
    {q : Queue nRx nTx} {v : Option δ} (hv : y.2 q = .burst v) : ∃ d, v = some d ∧ y.1.gone d = false := by
  have hinv : y.1.Ok ∧ ∀ q, (y.2 q).Ok q y.1 := by
    have hinit : (({} : Port nRx nTx δ)).Ok ∧ ∀ q : Queue nRx nTx, (Poll.out : Poll δ).Ok q {} := ⟨rfl, fun _ => rfl⟩
    refine System.invariant (P := Port.Ok) (Q := fun q p t => t.Ok q p) ?_ ?_ hinit hy
    · intro p p' hp hmove
      exact ⟨hp.callback hmove, fun q t ht => ht.callback hmove⟩
    · rintro q p t p' t' hp ht ⟨pmd, hmove, rfl⟩
      obtain ⟨hxfer, hdevice, hexec⟩ := hmove.frame
      exact ⟨hp.poll hxfer hdevice, ht.move hp hmove, fun r hr u hu => hu.poll hdevice (hexec r hr)⟩
  have hq := hinv.2 q
  rw [hv] at hq
  obtain ⟨-, d, rfl, hserves⟩ := hq
  exact ⟨d, rfl, hserves.2.1⟩

/-- A poll between the moves of the callbacks, up to its burst. -/
private theorem poll_reach {nRx nTx : Nat} {δ : Type} [DecidableEq δ] {p : Port nRx nTx δ} {q : Queue nRx nTx}
    {polls : Queue nRx nTx → Poll δ} (hout : polls q = .out) (hxfer : p.pmd.xfer = true)
    (hinternal : p.pmd.internal q = true) :
    (system nRx nTx δ).Reach (p, polls)
      ({ p with pmd := { p.pmd with executing := Function.update p.pmd.executing q true } },
        Function.update polls q (.burst (p.pmd.device q))) :=
  System.agent_run q
    (Relation.ReflTransGen.lift
      (p := fun a b : Port nRx nTx δ × Poll δ => (system nRx nTx δ).agent q a.1 a.2 b.1 b.2)
      (fun a => ({ p with pmd := a.1 }, a.2)) (fun _ b hmove => ⟨b.1, hmove, rfl⟩) _ _ (poll_run hxfer hinternal))
    polls hout

/-- A guest is attached, detached and attached again, and the receive queue is polled. -/
theorem burst_device_attached_rx :
    ∃ y : Port 1 1 Nat × (Queue 1 1 → Poll Nat), (system 1 1 Nat).Reach ({}, fun _ => .out) y ∧
      y.2 (.rx 0) = .burst (some 7) ∧ ∃ d, some 7 = some d ∧ y.1.gone d = false := by
  have hnew := newDevice_run ({} : Pmd 1 1 Nat) (fun _ => false) 7
  have hdestroy := hnew.trans (destroyDevice_run _ _ 7 (by simp [Pmd.newDevice_eq]))
  have hagain := System.env_run (S := system 1 1 Nat) (fun _ => .out) (hdestroy.trans (newDevice_run _ _ 7))
  have hreach := hagain.trans
    (poll_reach (q := .rx 0) rfl (by rw [Pmd.newDevice_eq]) (by rw [Pmd.newDevice_eq]))
  have hv : Function.update (fun _ : Queue 1 1 => Poll.out) (.rx 0)
      (.burst ((Pmd.newDevice (Pmd.destroyDevice (Pmd.newDevice ({} : Pmd 1 1 Nat) 7)) 7).device (.rx 0))) (.rx 0) =
        .burst (some 7) := by
    rw [Function.update_self, Pmd.newDevice_eq]
  exact ⟨_, hreach, hv, burst_device_attached 1 1 Nat (q := .rx 0) hreach hv⟩

end SoftPatchPanel.Vhost

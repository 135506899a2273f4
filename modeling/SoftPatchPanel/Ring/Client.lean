import SoftPatchPanel.Ring.Alone
import Mathlib.Algebra.BigOperators.Group.Finset.Basic
import Mathlib.Algebra.Order.BigOperators.Group.List
import Mathlib.Algebra.Order.BigOperators.Group.Finset

/-!
# A ring seen from its users

What a user of bulk calls relies on, whatever the others do: a move leaves the call inside of the ring, or ends it without
objects, or ends it with all of them (`Inv.client`); and an enqueue is not refused when those who are still on their way to
the ring do not have too many objects altogether (`Inv.not_refused`).
-/

namespace SoftPatchPanel.Ring

open Lib

variable {ι α : Type} {k : Nat} {mem : Nat → α} {s : State ι α} {claims : Side → List (Claim ι)} {j : ι} {c : Call α}
  {p : Place}

/-! ### One move of a bulk call -/

/-- A bulk call copies as many objects as it was asked for, and a dequeue then succeeds. -/
def Place.Bulk (c : Call α) : Place → Prop
  | .readHead | .readTail _ => True
  | .moveHead _ _ n | .copy _ _ n _ => n = c.max
  | .quota _ _ n => n = c.max ∧ c.side = .prod
  | .wait _ n ret | .moveTail _ n ret => n = c.max ∧ (c.side = .cons → ret = 0)

/-- What a call keeps of its arguments while it is inside of the ring. -/
structure Call.Keeps (c c' : Call α) : Prop where
  side : c'.side = c.side
  single : c'.single = c.single
  behavior : c'.behavior = c.behavior
  max : c'.max = c.max
  enqueue : c.side = .prod → c' = c
  outside : ∀ x, c.max.toNat ≤ x → c'.table x = c.table x

private theorem Call.Keeps.refl (c : Call α) : c.Keeps c := ⟨rfl, rfl, rfl, rfl, fun _ => rfl, fun _ _ => rfl⟩

variable [DecidableEq ι]

/-- The lcore is still inside of the ring. -/
structure State.Inside (s s' : State ι α) (j : ι) (c c' : Call α) (p' : Place) : Prop where
  calls : s'.calls = Function.update s.calls j (some (c', p'))
  done : s'.done = s.done
  returned : s'.returned = s.returned
  keeps : c.Keeps c'
  bulk : p'.Bulk c'

/-- The call has returned and has moved the objects `objs`. -/
structure State.Left (s s' : State ι α) (j : ι) (c : Call α) (objs : List α) (ret : Int32) : Prop where
  calls : s'.calls = Function.update s.calls j none
  done : s'.done = Function.update s.done c.side (s.done c.side ++ objs)
  returned : s'.returned = Function.update s.returned j (some (c, ret))

private theorem Call.beforeTail_bulk {head : UInt32} {ret : Int32} (hret : c.side = .cons → ret = 0) :
    (c.beforeTail head c.max ret).Bulk c := by
  unfold Call.beforeTail
  split <;> exact ⟨rfl, hret⟩

/-- A move of a bulk call leaves the lcore inside of the ring, is the refusal of the call, or its end with all objects. -/
theorem Inv.client (h : Inv k mem s claims) (hj : s.calls j = some (c, p)) (hfixed : c.behavior = .fixed)
    (hbulk : p.Bulk c) :
    (∃ c' p', s.Inside (s.moveAt j c p) j c c' p') ∨
      (∃ head, p = .readTail head ∧
        (c.check (c.side.entries s.ring.prod.mask (s.ring.tail c.side.other) head)).isRight ∧
        s.Left (s.moveAt j c p) j c [] c.side.shortage) ∨
      ∃ ret, (c.side = .cons → ret = 0) ∧ s.Left (s.moveAt j c p) j c (c.objects c.max) ret := by
  cases p with
  | readHead => exact .inl ⟨c, _, rfl, rfl, rfl, .refl c, trivial⟩
  | readTail head =>
    generalize hlimit : c.side.entries s.ring.prod.mask (s.ring.tail c.side.other) head = limit
    by_cases hlt : limit < c.max
    · have hcheck : c.check limit = .inr c.side.shortage := by
        unfold Call.check
        simp only [hlt, ↓reduceIte, hfixed]
      refine .inr (.inl ⟨head, rfl, by rw [hlimit, hcheck]; rfl, ?_, ?_, ?_⟩) <;>
        simp [State.moveAt, Call.move, State.record, hlimit, hcheck]
    · have hcheck : c.check limit = .inl c.max := by
        unfold Call.check
        simp only [hlt, ↓reduceIte]
      refine .inl ⟨c, .moveHead head limit c.max, ?_, rfl, ?_, .refl c, rfl⟩ <;>
        simp [State.moveAt, Call.move, hlimit, hcheck]
  | moveHead head limit n =>
    by_cases hif : (c.single || s.ring.head c.side = head) = true
    · refine .inl ⟨c, .copy head limit n (copyOrder head s.ring.prod.mask (s.ring.size c.side) n), ?_, ?_, ?_, .refl c,
        hbulk⟩ <;> simp [State.moveAt, Call.move, State.record, hif]
    · refine .inl ⟨c, .readHead, ?_, ?_, ?_, .refl c, trivial⟩ <;> simp [State.moveAt, Call.move, State.record, hif]
  | copy head limit n rest =>
    obtain rfl : n = c.max := hbulk
    cases rest with
    | nil =>
      cases hside : c.side with
      | prod =>
        refine .inl ⟨c, .quota head limit c.max, ?_, rfl, ?_, .refl c, rfl, hside⟩ <;>
          simp [State.moveAt, Call.move, hside]
      | cons =>
        refine .inl ⟨c, c.beforeTail head c.max (c.success c.max), ?_, rfl, ?_, .refl c,
          Call.beforeTail_bulk fun _ => by rw [Call.success, hfixed]⟩ <;> simp [State.moveAt, Call.move, hside]
    | cons x rest =>
      obtain ⟨a, hmem, -, m, hm, hrest, -⟩ := h.knows j c _ hj
      obtain ⟨hmn, rfl, -⟩ := plainOrder_drop hrest
      cases hside : c.side with
      | prod =>
        refine .inl ⟨c, .copy head limit c.max rest, ?_, rfl, ?_, .refl c, rfl⟩ <;> simp [State.moveAt, Call.move, hside]
      | cons =>
        -- the loads go to the places of the table below the number of objects
        have hi : (UInt32.ofNat m).toNat = m := toNat_ofNat_of_lt (hmn.trans c.max.toNat_lt)
        refine .inl ⟨{ c with table := Function.update c.table m (s.ring.ring (UInt32.ofNat ((a + m) % 2 ^ k)).toNat) },
          .copy head limit c.max rest, ?_, rfl, ?_, ⟨rfl, rfl, rfl, rfl, ?_, fun x hx => ?_⟩, rfl⟩
        · simp [State.moveAt, Call.move, hside, hi]
        · simp [State.moveAt, Call.move, hside]
        · exact fun hprod => absurd (hside.symm.trans hprod) (by decide)
        · exact Function.update_of_ne (by omega) ..
  | quota head limit n =>
    obtain ⟨rfl, hside⟩ := hbulk
    refine .inl ⟨c, c.beforeTail head c.max (c.quotaResult s.ring limit c.max), rfl, rfl, rfl, .refl c,
      Call.beforeTail_bulk fun hcons => ?_⟩
    exact absurd (hside.symm.trans hcons) (by decide)
  | wait head n ret =>
    refine .inl ⟨c, if s.ring.tail c.side = head then .moveTail head n ret else .wait head n ret, rfl, rfl, rfl, .refl c,
      ?_⟩
    split <;> exact hbulk
  | moveTail head n ret =>
    obtain ⟨rfl, hret⟩ := hbulk
    exact .inr (.inr ⟨ret, hret, rfl, rfl, rfl⟩)

/-! ### Room for everybody -/

omit [DecidableEq ι] in
/-- A lcore has one claim at a time. -/
private theorem Inv.nodup_owners (h : Inv k mem s claims) (side : Side) : ((claims side).map Claim.owner).Nodup := by
  refine (List.nodup_map_iff_inj_on (h.tiles side).nodup).2 fun d hd e he howner => ?_
  obtain ⟨c, p, hcall, -, hhas⟩ := h.owners side d hd
  obtain ⟨c', p', hcall', -, hhas'⟩ := h.owners side e he
  rw [howner, hcall'] at hcall
  cases hcall
  obtain ⟨hdlow, hdhigh, hdpos⟩ := (h.tiles side).bounds hd
  obtain ⟨helow, hehigh, hepos⟩ := (h.tiles side).bounds he
  have hofNat : UInt32.ofNat d.start = UInt32.ofNat e.start := by
    cases p <;> first | exact hhas.elim | exact hhas.1.symm.trans hhas'.1
  have hstart := h.start_eq ⟨hdlow, by omega⟩ ⟨helow, by omega⟩ hofNat
  exact (h.tiles side).eq_of_meet hd he (p := d.start) ⟨le_rfl, by omega⟩ ⟨by omega, by omega⟩

omit [DecidableEq ι] in
private theorem Place.Bulk.eq_max {a n : Nat} (h : p.Bulk c) (hhas : p.Has a n) : n = c.max.toNat := by
  cases p with
  | readHead | readTail | moveHead => exact hhas.elim
  | copy head limit m rest =>
    obtain rfl : m = c.max := h
    exact hhas.2.symm
  | quota head limit m =>
    obtain ⟨rfl, -⟩ := h
    exact hhas.2.symm
  | wait head m ret | moveTail head m ret =>
    obtain ⟨rfl, -⟩ := h
    exact hhas.2.symm

/-- The places that are claimed and not given up yet are not more than those who have claimed them have objects; `w` bounds
the number of objects of each lcore that is inside of a call. -/
private theorem Inv.reserved_add_le [Fintype ι] (h : Inv k mem s claims) {side : Side} {w : ι → Nat}
    (hbulk : ∀ i d q, s.calls i = some (d, q) → q.Bulk d)
    (hw : ∀ i d q, s.calls i = some (d, q) → d.side = side → d.max.toNat ≤ w i)
    (hj : ∀ d ∈ claims side, d.owner ≠ j) : s.reserved side + w j ≤ (s.done side).length + ∑ i, w i := by
  have hsum := (h.tiles side).sum_len
  have hlens : ((claims side).map Claim.len).sum ≤ (((claims side).map Claim.owner).map w).sum := by
    rw [List.map_map]
    refine List.sum_le_sum fun d hd => ?_
    obtain ⟨c, p, hcall, hside, hhas⟩ := h.owners side d hd
    rw [(hbulk _ _ _ hcall).eq_max hhas]
    exact hw _ _ _ hcall hside
  rw [← List.sum_toFinset w (h.nodup_owners side)] at hlens
  have hnotin : j ∉ ((claims side).map Claim.owner).toFinset := by
    rw [List.mem_toFinset, List.mem_map]
    rintro ⟨d, hd, rfl⟩
    exact hj d hd rfl
  have hall : w j + ((claims side).map Claim.owner).toFinset.sum w ≤ ∑ i, w i := by
    rw [← Finset.sum_insert hnotin]
    exact Finset.sum_le_univ_sum_of_nonneg fun _ => Nat.zero_le _
  omega

/-- An enqueue finds room when the objects in the ring and those of all enqueues together have room in it. -/
theorem Inv.not_refused [Fintype ι] {head : UInt32} (h : Inv k mem s claims)
    (hj : s.calls j = some (c, .readTail head)) (hside : c.side = .prod)
    (hnear : s.reserved .prod < s.seen j + 2 ^ 31) {w : ι → Nat} (hbulk : ∀ i d q, s.calls i = some (d, q) → q.Bulk d)
    (hw : ∀ i d q, s.calls i = some (d, q) → d.side = .prod → d.max.toNat ≤ w i)
    (hroom : (s.done .prod).length + ∑ i, w i ≤ (s.done .cons).length + (2 ^ k - 1)) :
    (c.check (c.side.entries s.ring.prod.mask (s.ring.tail c.side.other) head)).isLeft := by
  have hsum := h.reserved_add_le (j := j) hbulk hw fun d hd howner => by
    obtain ⟨c', p', hcall, -, hhas⟩ := h.owners .prod d hd
    rw [howner, hj] at hcall
    cases hcall
    exact hhas
  obtain ⟨hhead, hle, -⟩ := h.knows j c _ hj
  rw [hside] at hle
  have hmax := hw j c _ hj hside
  have hk := two_pow_lt h.size.le
  have hfifo := h.fifo.length_le
  have htiles := (h.tiles .prod).le
  have hentries := @Side.toNat_entries k .prod (s.done .cons).length (s.seen j) (by simp only [Side.room]; omega)
    (by simp only [Side.room]; omega)
  rw [hside, Side.other, h.tail, h.size.mask, hhead]
  unfold Call.check
  rw [if_neg]
  · rfl
  · rw [UInt32.lt_iff_toNat_lt, hentries, Side.room]
    omega

end SoftPatchPanel.Ring

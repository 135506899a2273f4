import SoftPatchPanel.Ring.Fifo

/-!
# No claim is stuck

A call that has claimed places waits until the calls before it on its side have moved the tail.  The first of them waits for
nobody, so it can always be finished by its own moves alone, and then the next one (`Inv.finish_first`).  From every state of
a run the calls that have claimed places can therefore finish, whatever the others do in the meantime, and leave both tails at
their heads (`claims_released`).
-/

namespace SoftPatchPanel.Ring

open Lib

/-- The number of moves that a call with a claim has still to make, when it does not have to wait. -/
def Place.left : Place → Nat
  | .copy _ _ _ rest => rest.length + 4
  | .quota _ _ _ => 3
  | .wait _ _ _ => 2
  | .moveTail _ _ _ => 1
  | _ => 0

/-- The call has claimed places. -/
def Place.Claimed (p : Place) : Prop := 0 < p.left

section

variable {ι α : Type} [DecidableEq ι] {k : Nat} {mem : Nat → α} {s : State ι α} {claims : Side → List (Claim ι)}
  {side : Side} {d : Claim ι} {rest : List (Claim ι)} {c : Call α} {p : Place}

private theorem State.step_move (hj : s.calls d.owner = some (c, p)) :
    s.step (.move d.owner) = s.moveAt d.owner c p := by
  simp only [State.step, hj]

private theorem Call.left_beforeTail (c : Call α) (head n : UInt32) (ret : Int32) :
    (c.beforeTail head n ret).left ≤ 2 := by
  unfold Call.beforeTail
  split
  · exact Nat.le_succ 1
  · exact le_rfl

private theorem Call.has_beforeTail {head n : UInt32} {ret : Int32} {a m : Nat}
    (h : head = UInt32.ofNat a ∧ n.toNat = m) :
    (c.beforeTail head n ret).Has a m := by
  unfold Call.beforeTail
  split <;> exact h

/-- A move of the owner of the first claim brings its call one move closer to the end, where the claim is given up. -/
private theorem Inv.advance (h : Inv k mem s claims) (hclaims : claims side = d :: rest)
    (hj : s.calls d.owner = some (c, p)) (hside : c.side = side) (hhas : p.Has d.start d.len) :
    Inv k mem (s.moveAt d.owner c p) (Function.update claims side rest) ∨
      Inv k mem (s.moveAt d.owner c p) claims ∧ ∃ c' p', (s.moveAt d.owner c p).calls d.owner = some (c', p') ∧
        c'.side = side ∧ p'.Has d.start d.len ∧ p'.left < p.left := by
  cases p with
  | readHead => exact hhas.elim
  | readTail head => exact hhas.elim
  | moveHead head limit n => exact hhas.elim
  | copy head limit n todo =>
    right
    cases todo with
    | nil =>
      refine ⟨h.copied hj, ?_⟩
      cases hs : c.side with
      | prod =>
        refine ⟨c, .quota head limit n, ?_, hside, hhas, (show 3 < 4 by decide)⟩
        simp [State.moveAt, Call.move, hs]
      | cons =>
        refine ⟨c, c.beforeTail head n (c.success n), ?_, hside, Call.has_beforeTail hhas, ?_⟩
        · simp [State.moveAt, Call.move, hs]
        · have := c.left_beforeTail head n (c.success n)
          exact Nat.lt_of_le_of_lt this (show 2 < 4 by decide)
    | cons x todo =>
      have hless : (Place.copy head limit n todo).left < (Place.copy head limit n (x :: todo)).left :=
        Nat.add_lt_add_right (Nat.lt_succ_self _) 4
      cases hs : c.side with
      | prod =>
        refine ⟨h.store hj hs, c, .copy head limit n todo, ?_, hside, hhas, hless⟩
        simp [State.moveAt, Call.move, hs]
      | cons =>
        refine ⟨h.load hj hs, { c with table := Function.update c.table x.2.toNat (s.ring.ring x.1.toNat) },
          .copy head limit n todo, ?_, hside, hhas, hless⟩
        simp [State.moveAt, Call.move, hs]
  | quota head limit n =>
    refine Or.inr ⟨h.quota hj, c, _, Function.update_self .., hside, Call.has_beforeTail hhas, ?_⟩
    exact Nat.lt_of_le_of_lt (c.left_beforeTail ..) (show 2 < 3 by decide)
  | wait head n ret =>
    -- nobody is before the first claim
    have hstart : d.start = (s.done side).length := by
      have htiles := h.tiles side
      rw [hclaims] at htiles
      exact htiles.1
    have htail : s.ring.tail c.side = head := by rw [hside, h.tail, hhas.1, hstart]
    refine Or.inr ⟨h.wait hj, c, .moveTail head n ret, ?_, hside, hhas, (show 1 < 2 by decide)⟩
    simp [State.moveAt, Call.move, htail]
  | moveTail head n ret =>
    obtain ⟨d', rest', hclaims', hnext⟩ := h.moveTail hj
    subst hside
    rw [hclaims] at hclaims'
    obtain ⟨-, rfl⟩ := List.cons.inj hclaims'
    exact Or.inl hnext

/-- Moves of calls with claims need no permission and claim nothing. -/
private theorem State.moveAt_of_has {j : ι} {a n : Nat} (hhas : p.Has a n) :
    s.Recent j c p ∧ (s.moveAt j c p).reserved = s.reserved := by
  cases p <;> first | exact hhas.elim | exact ⟨trivial, rfl⟩

/-- The owner of the first claim finishes its call by its own moves. -/
theorem Inv.finish_first (h : Inv k mem s claims) (hclaims : claims side = d :: rest) :
    ∃ m, Along State.step State.Allowed s (List.replicate m (Event.move d.owner)) ∧
      Inv k mem ((List.replicate m (Event.move d.owner)).foldl State.step s) (Function.update claims side rest) ∧
      ((List.replicate m (Event.move d.owner)).foldl State.step s).reserved = s.reserved := by
  obtain ⟨c, p, hj, hside, hhas⟩ := h.owners side d (by simp [hclaims])
  -- by induction on the number of moves that are left
  generalize hleft : p.left = left
  induction left using Nat.strongRecOn generalizing s c p with
  | ind left ih =>
    obtain ⟨hrecent, hreserved⟩ := State.moveAt_of_has (s := s) (c := c) (j := d.owner) hhas
    have hallowed : s.Allowed (.move d.owner) := by
      intro x hx
      cases hj.symm.trans hx
      exact hrecent
    rcases h.advance hclaims hj hside hhas with hdone | ⟨hinv, c', p', hj', hside', hhas', hless⟩
    · refine ⟨1, ⟨hallowed, trivial⟩, ?_, ?_⟩
      · simpa only [List.replicate_one, List.foldl_cons, List.foldl_nil, State.step_move hj] using hdone
      · simpa only [List.replicate_one, List.foldl_cons, List.foldl_nil, State.step_move hj] using hreserved
    · obtain ⟨m, hok, hnext, hsame⟩ := ih p'.left (hleft ▸ hless) hinv c' p' hj' hside' hhas' rfl
      refine ⟨m + 1, ?_⟩
      rw [List.replicate_succ, List.foldl_cons, State.step_move hj]
      exact ⟨⟨hallowed, by rwa [State.step_move hj]⟩, hnext, hsame.trans hreserved⟩

/-- All claims of one side are given up, one after another. -/
private theorem Inv.finish_side (h : Inv k mem s claims) (side : Side) :
    ∃ js : List ι, Along State.step State.Allowed s (js.map Event.move) ∧
      Inv k mem ((js.map Event.move).foldl State.step s) (Function.update claims side []) ∧
      ((js.map Event.move).foldl State.step s).reserved = s.reserved := by
  generalize hclaims : claims side = cs
  induction cs generalizing s claims with
  | nil =>
    refine ⟨[], trivial, ?_, rfl⟩
    rw [← hclaims, Function.update_eq_self]
    exact h
  | cons d rest ih =>
    obtain ⟨m, hok, hinv, hreserved⟩ := h.finish_first hclaims
    obtain ⟨js, hok', hinv', hreserved'⟩ := ih hinv (Function.update_self ..)
    refine ⟨List.replicate m d.owner ++ js, ?_, ?_, ?_⟩ <;>
      rw [List.map_append, List.map_replicate]
    · exact along_append.2 ⟨hok, hok'⟩
    · rw [List.foldl_append]
      rwa [Function.update_idem] at hinv'
    · rw [List.foldl_append, hreserved', hreserved]

omit [DecidableEq ι] in
/-- Without claims the tails are at the heads, and nobody is past its compare-and-set. -/
private theorem Inv.released (h : Inv k mem s fun _ => []) :
    (∀ side, s.ring.tail side = s.ring.head side) ∧ ∀ i c p, s.calls i = some (c, p) → ¬p.Claimed := by
  refine ⟨fun side => ?_, fun i c p hi hclaimed => ?_⟩
  · rw [h.tail, h.head, show (s.done side).length = s.reserved side from h.tiles side]
  · have hknows := h.knows i c p hi
    cases p with
    | readHead | readTail | moveHead => exact absurd hclaimed (Nat.lt_irrefl 0)
    | copy | quota | wait | moveTail =>
      obtain ⟨a, hmem, -⟩ := hknows
      cases hmem

end

end SoftPatchPanel.Ring

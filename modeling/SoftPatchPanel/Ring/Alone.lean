import SoftPatchPanel.Ring.Fifo

/-!
# A call that is alone

When no other call is inside the ring, a call runs through: it is a function of the ring (`Call.run`), and the moves of the
lcore are those of the function (`solo_run`).  What it does to the contents of the ring follows from what holds for calls
that run at the same time (`RteRing.Quiet.run`).
-/

namespace SoftPatchPanel.Ring

open Lib

/-! ### Calls as functions -/

section

variable {α : Type} {c : Call α}

/-- The copies of a call one after another. -/
def Call.copyAll (r : RteRing α) (c : Call α) : List (UInt32 × UInt32) → RteRing α × Call α
  | [] => (r, c)
  | (idx, i) :: rest =>
    match c.side with
    | .prod => Call.copyAll (r.store idx.toNat (c.table i.toNat)) c rest
    | .cons => Call.copyAll r { c with table := Function.update c.table i.toNat (r.ring idx.toNat) } rest

/-- `free_entries` or `entries`, when nobody comes in between. -/
def Call.limit (r : RteRing α) (c : Call α) : UInt32 :=
  c.side.entries r.prod.mask (r.tail c.side.other) (r.head c.side)

/-- The number of objects that are copied. -/
def Call.amount (r : RteRing α) (c : Call α) : UInt32 :=
  match c.check (c.limit r) with
  | .inl n => n
  | .inr _ => 0

/-- A call from its start to its end. -/
def Call.run (r : RteRing α) (c : Call α) : RteRing α × Call α × Int32 :=
  match c.check (c.limit r) with
  | .inr ret => (r, c, ret)
  | .inl n =>
    let head := r.head c.side
    let (r', c') := c.copyAll (r.setHead c.side (head + n)) (copyOrder head r.prod.mask (r.size c.side) n)
    let ret := match c.side with
      | .prod => c'.quotaResult r' (c.limit r) n
      | .cons => c'.success n
    (r'.setTail c.side (head + n), c', ret)

private theorem Call.side_copyAll (r : RteRing α) (c : Call α) (todo : List (UInt32 × UInt32)) :
    (c.copyAll r todo).2.side = c.side := by
  induction todo generalizing r c with
  | nil => rfl
  | cons x todo ih =>
    cases hside : c.side with
    | prod => simpa only [Call.copyAll, hside] using (ih _ _).trans hside
    | cons => simpa only [Call.copyAll, hside] using ih _ _

private theorem Call.copyAll_of_prod (r : RteRing α) (hside : c.side = .prod) (todo : List (UInt32 × UInt32)) :
    (c.copyAll r todo).2 = c := by
  induction todo generalizing r with
  | nil => rfl
  | cons x todo ih => simpa only [Call.copyAll, hside] using ih _

private theorem Call.behavior_copyAll (r : RteRing α) (c : Call α) (todo : List (UInt32 × UInt32)) :
    (c.copyAll r todo).2.behavior = c.behavior := by
  induction todo generalizing r c with
  | nil => rfl
  | cons x todo ih =>
    cases hside : c.side with
    | prod => simpa only [Call.copyAll, hside] using ih _ _
    | cons => simpa only [Call.copyAll, hside] using ih _ _

/-- The copies touch neither heads nor tails. -/
private theorem Call.tail_copyAll (r : RteRing α) (c : Call α) (todo : List (UInt32 × UInt32)) :
    (c.copyAll r todo).1.tail = r.tail := by
  induction todo generalizing r c with
  | nil => rfl
  | cons x todo ih =>
    cases hside : c.side with
    | prod =>
      simp only [Call.copyAll, hside, ih]
      funext side
      cases side <;> rfl
    | cons => simp only [Call.copyAll, hside, ih]

end

/-! ### The moves of one lcore -/

section

variable {ι α : Type} [DecidableEq ι] {s s' s'' : State ι α} {j : ι} {c : Call α} {p : Place}

/-- Moves of lcore `j` alone lead from `s` to `s'`. -/
def Solo (j : ι) (s s' : State ι α) : Prop :=
  ∃ m, Along State.step State.Allowed s (List.replicate m (Event.move j)) ∧
    (List.replicate m (Event.move j)).foldl State.step s = s'

private theorem Solo.trans (h : Solo j s s') (h' : Solo j s' s'') : Solo j s s'' := by
  obtain ⟨m, hok, rfl⟩ := h
  obtain ⟨n, hok', rfl⟩ := h'
  refine ⟨m + n, ?_, ?_⟩
  · rw [List.replicate_add]
    exact along_append.2 ⟨hok, hok'⟩
  · rw [List.replicate_add, List.foldl_append]

private theorem Solo.move (hj : s.calls j = some (c, p)) (hok : s.Recent j c p) (hs' : s.moveAt j c p = s') :
    Solo j s s' := by
  refine ⟨1, ⟨fun d hd => ?_, trivial⟩, ?_⟩
  · cases hj.symm.trans hd
    exact hok
  · simp only [List.replicate_one, List.foldl_cons, List.foldl_nil, State.step, hj, hs']

/-- The copies, from any place of the loop on. -/
private theorem solo_copyAll {head limit n : UInt32} {todo : List (UInt32 × UInt32)}
    (hj : s.calls j = some (c, .copy head limit n todo)) :
    Solo j s
      { s with
        ring := (c.copyAll s.ring todo).1
        calls := Function.update s.calls j (some ((c.copyAll s.ring todo).2, .copy head limit n [])) } := by
  induction todo generalizing s c with
  | nil =>
    refine ⟨0, trivial, ?_⟩
    simp only [Call.copyAll, ← hj, Function.update_eq_self]
    rfl
  | cons x todo ih =>
    cases hside : c.side with
    | prod =>
      refine (Solo.move hj trivial rfl).trans ?_
      have hs : s.moveAt j c (.copy head limit n (x :: todo)) =
          { s with
            ring := s.ring.store x.1.toNat (c.table x.2.toNat)
            calls := Function.update s.calls j (some (c, .copy head limit n todo)) } := by
        simp only [State.moveAt, Call.move, State.record, hside]
        rfl
      rw [hs]
      have hrest := ih (s := { s with
        ring := s.ring.store x.1.toNat (c.table x.2.toNat)
        calls := Function.update s.calls j (some (c, .copy head limit n todo)) }) (Function.update_self ..)
      simpa only [Call.copyAll, hside, Function.update_idem] using hrest
    | cons =>
      refine (Solo.move hj trivial rfl).trans ?_
      have hs : s.moveAt j c (.copy head limit n (x :: todo)) =
          { s with
            calls := Function.update s.calls j
              (some ({ c with table := Function.update c.table x.2.toNat (s.ring.ring x.1.toNat) },
                .copy head limit n todo)) } := by
        simp only [State.moveAt, Call.move, State.record, hside]
        rfl
      rw [hs]
      have hrest := ih (s := { s with
        calls := Function.update s.calls j
          (some ({ c with table := Function.update c.table x.2.toNat (s.ring.ring x.1.toNat) },
            .copy head limit n todo)) }) (Function.update_self ..)
      simpa only [Call.copyAll, hside, Function.update_idem] using hrest

/-- From the last copy to the return. -/
private theorem solo_finish {head limit n : UInt32} (hj : s.calls j = some (c, .copy head limit n []))
    (htail : s.ring.tail c.side = head) :
    Solo j s
      { s with
        ring := s.ring.setTail c.side (head + n)
        calls := Function.update s.calls j none
        done := Function.update s.done c.side (s.done c.side ++ c.objects n)
        returned := Function.update s.returned j (some (c, match c.side with
          | .prod => c.quotaResult s.ring limit n
          | .cons => c.success n)) } := by
  -- the place before the tail is reached with the result `ret`
  have hbefore : ∀ ret : Int32,
      Solo j { s with calls := Function.update s.calls j (some (c, c.beforeTail head n ret)) }
        { s with
          ring := s.ring.setTail c.side (head + n)
          calls := Function.update s.calls j none
          done := Function.update s.done c.side (s.done c.side ++ c.objects n)
          returned := Function.update s.returned j (some (c, ret)) } := by
    intro ret
    have hlast : Solo j { s with calls := Function.update s.calls j (some (c, .moveTail head n ret)) }
        { s with
          ring := s.ring.setTail c.side (head + n)
          calls := Function.update s.calls j none
          done := Function.update s.done c.side (s.done c.side ++ c.objects n)
          returned := Function.update s.returned j (some (c, ret)) } := by
      refine Solo.move (Function.update_self ..) trivial ?_
      simp [State.moveAt, Call.move, State.record]
    unfold Call.beforeTail
    split
    · exact hlast
    · have hwait : Solo j { s with calls := Function.update s.calls j (some (c, .wait head n ret)) }
          { s with calls := Function.update s.calls j (some (c, .moveTail head n ret)) } := by
        refine Solo.move (Function.update_self ..) trivial ?_
        simp [State.moveAt, Call.move, State.record, htail]
      exact hwait.trans hlast
  cases hside : c.side with
  | prod =>
    have hquota : Solo j s { s with calls := Function.update s.calls j (some (c, .quota head limit n)) } := by
      refine Solo.move hj trivial ?_
      simp [State.moveAt, Call.move, State.record, hside]
    have hresult : Solo j { s with calls := Function.update s.calls j (some (c, .quota head limit n)) }
        { s with calls := Function.update s.calls j (some (c, c.beforeTail head n (c.quotaResult s.ring limit n))) } := by
      refine Solo.move (Function.update_self ..) trivial ?_
      simp [State.moveAt, Call.move, State.record]
    simpa only [hside] using (hquota.trans hresult).trans (hbefore _)
  | cons =>
    have hresult : Solo j s
        { s with calls := Function.update s.calls j (some (c, c.beforeTail head n (c.success n))) } := by
      refine Solo.move hj trivial ?_
      simp [State.moveAt, Call.move, State.record, hside]
    simpa only [hside] using hresult.trans (hbefore _)

/-- A lcore that meets nobody on its side makes the moves of the function. -/
theorem solo_run (hj : s.calls j = some (c, .readHead)) (htail : s.ring.tail c.side = s.ring.head c.side) :
    Solo j s
      { ring := (c.run s.ring).1
        calls := Function.update s.calls j none
        done := Function.update s.done c.side (s.done c.side ++ (c.run s.ring).2.1.objects (c.amount s.ring))
        reserved := Function.update s.reserved c.side (s.reserved c.side + (c.amount s.ring).toNat)
        seen := Function.update s.seen j (s.reserved c.side)
        returned := Function.update s.returned j (some (c.run s.ring).2) } := by
  have hhead : Solo j s
      { s with
        calls := Function.update s.calls j (some (c, .readTail (s.ring.head c.side)))
        seen := Function.update s.seen j (s.reserved c.side) } := by
    refine Solo.move hj trivial ?_
    simp [State.moveAt, Call.move, State.record]
  refine hhead.trans ?_
  cases hcheck : c.check (c.limit s.ring) with
  | inr ret =>
    refine Solo.move (Function.update_self ..) trivial ?_
    simp only [Call.limit] at hcheck
    simp [State.moveAt, Call.move, State.record, Call.run, Call.amount, Call.limit, hcheck, Call.objects]
  | inl n =>
    have hchecked : Solo j
        { s with
          calls := Function.update s.calls j (some (c, .readTail (s.ring.head c.side)))
          seen := Function.update s.seen j (s.reserved c.side) }
        { s with
          calls := Function.update s.calls j (some (c, .moveHead (s.ring.head c.side) (c.limit s.ring) n))
          seen := Function.update s.seen j (s.reserved c.side) } := by
      refine Solo.move (Function.update_self ..) trivial ?_
      simp only [Call.limit] at hcheck
      simp [State.moveAt, Call.move, State.record, Call.limit, hcheck]
    have hclaimed : Solo j
        { s with
          calls := Function.update s.calls j (some (c, .moveHead (s.ring.head c.side) (c.limit s.ring) n))
          seen := Function.update s.seen j (s.reserved c.side) }
        { s with
          ring := s.ring.setHead c.side (s.ring.head c.side + n)
          calls := Function.update s.calls j (some (c, .copy (s.ring.head c.side) (c.limit s.ring) n
            (copyOrder (s.ring.head c.side) s.ring.prod.mask (s.ring.size c.side) n)))
          reserved := Function.update s.reserved c.side (s.reserved c.side + n.toNat)
          seen := Function.update s.seen j (s.reserved c.side) } := by
      refine Solo.move (Function.update_self ..) (fun _ _ => ?_) ?_
      · simp
      · simp [State.moveAt, Call.move, State.record]
    refine (hchecked.trans hclaimed).trans ((solo_copyAll (Function.update_self ..)).trans ?_)
    have hside := c.side_copyAll (s.ring.setHead c.side (s.ring.head c.side + n))
      (copyOrder (s.ring.head c.side) s.ring.prod.mask (s.ring.size c.side) n)
    have htails := c.tail_copyAll (s.ring.setHead c.side (s.ring.head c.side + n))
      (copyOrder (s.ring.head c.side) s.ring.prod.mask (s.ring.size c.side) n)
    simp only [Call.run, Call.amount, hcheck]
    generalize c.copyAll (s.ring.setHead c.side (s.ring.head c.side + n))
      (copyOrder (s.ring.head c.side) s.ring.prod.mask (s.ring.size c.side) n) = x at hside htails ⊢
    obtain ⟨r', c'⟩ := x
    simp only at hside htails ⊢
    have hfinish := solo_finish (s := { s with
        ring := r'
        calls := Function.update s.calls j (some (c', .copy (s.ring.head c.side) (c.limit s.ring) n []))
        reserved := Function.update s.reserved c.side (s.reserved c.side + n.toNat)
        seen := Function.update s.seen j (s.reserved c.side) }) (Function.update_self ..) (by
      simp only [htails, hside, RteRing.tail_setHead, htail])
    simpa only [Function.update_idem, hside] using hfinish

end

/-! ### Rings that nobody uses -/

section

variable {α : Type} {k : Nat} {r : RteRing α} {c : Call α}

/-- Nobody is inside of a call: the tails are at the heads, and not more than a ring apart. -/
structure RteRing.Quiet (r : RteRing α) (k : Nat) : Prop where
  size : r.HasSize k
  tail : ∀ side, r.tail side = r.head side
  count : (r.prod.tail - r.cons.tail).toNat < 2 ^ k

private theorem RteRing.HasSize.toNat_mask (h : r.HasSize k) : r.prod.mask.toNat = 2 ^ k - 1 := by
  have hk := two_pow_lt h.le
  rw [h.mask]
  exact toNat_ofNat_of_lt (by omega)

theorem RteRing.Quiet.length_contents (h : r.Quiet k) :
    r.contents.length = (r.prod.tail - r.cons.tail).toNat := by
  rw [RteRing.contents, List.length_map, List.length_range, rteRingCount, UInt32.toNat_and, h.size.toNat_mask,
    Nat.and_two_pow_sub_one_eq_mod, Nat.mod_eq_of_lt h.count]

/-- A new ring is empty. -/
theorem RteRing.HasSize.quiet_init {mem : Nat → α} {count flags : UInt32} (h : (rteRingInit mem count flags).HasSize k) :
    (rteRingInit mem count flags).Quiet k ∧ (rteRingInit mem count flags).contents = [] := by
  have hcount : ((rteRingInit mem count flags).prod.tail - (rteRingInit mem count flags).cons.tail).toNat = 0 := by
    simp [rteRingInit]
  have hquiet : (rteRingInit mem count flags).Quiet k :=
    ⟨h, fun side => by cases side <;> rfl, by rw [hcount]; exact Nat.two_pow_pos k⟩
  exact ⟨hquiet, List.eq_nil_of_length_eq_zero (hquiet.length_contents.trans hcount)⟩

/-- A state in which nobody is inside of a call: what has been taken out is any list that brings the counter of the consumers
to where it is. -/
def quietState (ι : Type) (r : RteRing α) : State ι α :=
  let out := List.replicate r.cons.tail.toNat (r.ring 0)
  let done : Side → List α := fun
    | .prod => out ++ r.contents
    | .cons => out
  ⟨r, fun _ => none, done, fun side => (done side).length, fun _ => 0, fun _ => none⟩

theorem RteRing.Quiet.inv {ι : Type} (h : r.Quiet k) : Inv k r.ring (quietState ι r) fun _ => [] := by
  have hlen := h.length_contents
  have hcount := h.count
  have hpow := Nat.two_pow_pos k
  have hcons : UInt32.ofNat ((quietState ι r).done .cons).length = r.cons.tail := by
    simp [quietState]
  have hprod : UInt32.ofNat ((quietState ι r).done .prod).length = r.prod.tail := by
    have hsum : ((quietState ι r).done .prod).length = r.cons.tail.toNat + (r.prod.tail - r.cons.tail).toNat := by
      simp [quietState, hlen]
    rw [hsum, UInt32.ofNat_add, UInt32.ofNat_toNat, UInt32.ofNat_toNat, add_sub_cancel]
  have htail : ∀ side, r.tail side = UInt32.ofNat ((quietState ι r).done side).length := by
    intro side
    cases side
    · exact hprod.symm
    · exact hcons.symm
  have hle : r.contents.length ≤ 2 ^ k - 1 := by omega
  refine ⟨⟨h.size, fun side => ?_, htail, fun _ => rfl, fun side => ?_, List.prefix_append _ _, ?_, fun _ _ => rfl⟩,
    ?_, ?_, ?_, ?_⟩
  · exact (h.tail side).symm.trans (htail side)
  · cases side <;> simp only [quietState, Side.other, Side.room, List.length_append] <;> omega
  · intro p x hp hget
    simp only [quietState, List.length_replicate] at hp hget
    rw [List.getElem?_append_right (by simpa using hp), List.length_replicate] at hget
    obtain ⟨hlt, rfl⟩ := List.getElem?_eq_some_iff.1 hget
    simp only [RteRing.contents, List.getElem_map, List.getElem_range, quietState]
    obtain ⟨i, rfl⟩ := Nat.exists_eq_add_of_le hp
    rw [Nat.add_sub_cancel_left]
    have hk := h.size.le
    have hplace := toNat_and_mask (by omega) h.size.toNat_mask (r.cons.tail.toNat + i)
    rw [UInt32.ofNat_add, UInt32.ofNat_toNat] at hplace
    rw [hplace]
  · intro i c p hi
    cases hi
  · intro i j c p d q _ hi
    cases hi
  · intro side d hd
    cases hd
  · intro i c p hi
    cases hi

private theorem Inv.quiet_of_calls {ι : Type} {mem : Nat → α} {s : State ι α} {claims : Side → List (Claim ι)}
    (h : Inv k mem s claims) (hcalls : ∀ i, s.calls i = none) : s.ring.Quiet k := by
  have hclaims : ∀ side, claims side = [] := by
    intro side
    refine List.eq_nil_iff_forall_not_mem.2 fun d hd => ?_
    obtain ⟨c, p, hcall, -⟩ := h.owners side d hd
    rw [hcalls] at hcall
    cases hcall
  have hdone : ∀ side, (s.done side).length = s.reserved side := by
    intro side
    have htiles := h.tiles side
    rw [hclaims side] at htiles
    exact htiles
  refine ⟨h.size, fun side => by rw [h.tail, h.head, hdone], ?_⟩
  have hfifo := h.fifo.length_le
  have hroom := h.room .prod
  have hk := two_pow_lt h.size.le
  have hpow := Nat.two_pow_pos k
  have hprod := hdone .prod
  simp only [Side.other, Side.room] at hroom
  have hsub := toNat_ofNat_sub hfifo (by omega)
  have hp : s.ring.prod.tail = UInt32.ofNat (s.done .prod).length := h.tail .prod
  have hc : s.ring.cons.tail = UInt32.ofNat (s.done .cons).length := h.tail .cons
  rw [hp, hc, hsub]
  omega

/-- A call for no object changes nothing. -/
private theorem RteRing.Quiet.run_of_zero (h : r.Quiet k) (hmax : c.max = 0) : (c.run r).1 = r ∧ c.amount r = 0 := by
  have hcheck : c.check (c.limit r) = .inl 0 := by simp [Call.check, hmax]
  have hcopy : copyOrder (r.head c.side) r.prod.mask (r.size c.side) 0 = [] := by
    simp only [copyOrder, unrolledOrder, wrappedOrder]
    split
    · rfl
    · rename_i hge
      rw [UInt32.add_zero, UInt32.not_lt, UInt32.le_iff_toNat_le] at hge
      rw [Nat.sub_eq_zero_of_le hge]
      rfl
  have hsame : (r.setHead c.side (r.head c.side)).setTail c.side (r.head c.side) = r := by
    cases c.side with
    | prod => calc
        _ = { r with prod.tail := r.prod.tail } := by rw [show r.prod.tail = r.prod.head from h.tail .prod]; rfl
        _ = r := rfl
    | cons => calc
        _ = { r with cons.tail := r.cons.tail } := by rw [show r.cons.tail = r.cons.head from h.tail .cons]; rfl
        _ = r := rfl
  refine ⟨?_, by rw [Call.amount, hcheck]⟩
  rw [Call.run, hcheck]
  simp only [hcopy, Call.copyAll, UInt32.add_zero, hsame]

/-- A call on a ring that nobody uses leaves such a ring, and moves its objects into the contents or out of it. -/
theorem RteRing.Quiet.run (h : r.Quiet k) :
    (c.run r).1.Quiet k ∧
      match c.side with
      | .prod => (c.run r).1.contents = r.contents ++ (c.run r).2.1.objects (c.amount r)
      | .cons => r.contents = (c.run r).2.1.objects (c.amount r) ++ (c.run r).1.contents := by
  by_cases hzero : c.max = 0
  · obtain ⟨hring, hamount⟩ := h.run_of_zero hzero
    rw [hring, hamount]
    refine ⟨h, ?_⟩
    cases c.side with
    | prod => simp [Call.objects]
    | cons => simp [Call.objects]
  have hmax : 0 < c.max := UInt32.pos_iff_ne_zero.2 hzero
  have hcall : (quietState Unit r).Allowed (.call () c) := ⟨rfl, hmax, fun j d hd => by cases hd⟩
  obtain ⟨m, hok, hend⟩ := solo_run (s := (quietState Unit r).step (.call () c)) (j := ()) (c := c) rfl (h.tail c.side)
  have hrun := Along.invariant (I := fun s => ∃ claims, Inv k r.ring s claims)
    (fun h hallows => h.elim fun _ h => h.step hallows) ⟨_, h.inv.call hcall⟩ hok m
  rw [List.take_of_length_le (by simp), hend] at hrun
  obtain ⟨claims, hinv⟩ := hrun
  have hnone : ∀ i, (Function.update ((quietState Unit r).step (.call () c)).calls () none) i = none := fun i => by simp
  refine ⟨hinv.quiet_of_calls hnone, ?_⟩
  have hcontents := hinv.contents.1
  cases hside : c.side with
  | prod =>
    simp only [hside, Function.update_self, Function.update_of_ne (show Side.cons ≠ Side.prod by decide)] at hcontents
    have hold : ((quietState Unit r).step (.call () c)).done .prod =
        ((quietState Unit r).step (.call () c)).done .cons ++ r.contents := rfl
    rw [hold, List.append_assoc, List.append_cancel_left_eq] at hcontents
    exact hcontents
  | cons =>
    simp only [hside, Function.update_self, Function.update_of_ne (show Side.prod ≠ Side.cons by decide)] at hcontents
    have hold : ((quietState Unit r).step (.call () c)).done .prod =
        ((quietState Unit r).step (.call () c)).done .cons ++ r.contents := rfl
    rw [hold, List.append_assoc, List.append_cancel_left_eq] at hcontents
    exact hcontents.symm

/-- The number of entries that a call finds. -/
theorem RteRing.Quiet.toNat_limit (h : r.Quiet k) (c : Call α) :
    (c.limit r).toNat = match c.side with
      | .prod => 2 ^ k - 1 - r.contents.length
      | .cons => r.contents.length := by
  have hlen := h.length_contents
  have hcount := h.count
  have hk := two_pow_lt h.size.le
  unfold Call.limit
  cases hside : c.side with
  | prod =>
    have hhead : r.head .prod = r.prod.tail := (h.tail .prod).symm
    have htail : r.tail .cons = r.cons.tail := rfl
    simp only [Side.entries, Side.other, hhead, htail]
    have hsum : r.prod.mask + r.cons.tail - r.prod.tail = r.prod.mask - (r.prod.tail - r.cons.tail) :=
      (sub_sub_eq_add_sub _ _ _).symm
    rw [hsum, UInt32.toNat_sub_of_le, h.size.toNat_mask, hlen]
    rw [UInt32.le_iff_toNat_le, h.size.toNat_mask]
    omega
  | cons =>
    have hhead : r.head .cons = r.cons.tail := (h.tail .cons).symm
    have htail : r.tail .prod = r.prod.tail := rfl
    simp only [Side.entries, Side.other, hhead, htail, hlen]

/-! ### The numbers of objects and the results -/

theorem Call.run_of_prod (hside : c.side = .prod) : (c.run r).2.1 = c := by
  unfold Call.run
  split
  · rfl
  · exact Call.copyAll_of_prod _ hside _

/-- A burst moves as many objects as it can. -/
theorem Call.amount_variable (hb : c.behavior = .variable) :
    (c.amount r).toNat = min c.max.toNat (c.limit r).toNat := by
  unfold Call.amount Call.check
  by_cases hlt : c.limit r < c.max
  · have hmin := Nat.le_of_lt (UInt32.lt_iff_toNat_lt.1 hlt)
    simp only [hlt, ↓reduceIte, hb]
    by_cases hzero : c.limit r = 0
    · simp [hzero]
    · simpa [hzero] using hmin
  · simp only [hlt, ↓reduceIte]
    rw [UInt32.lt_iff_toNat_lt] at hlt
    omega

/-- A bulk call moves all objects or none, and says so. -/
theorem Call.amount_fixed (hb : c.behavior = .fixed) :
    c.max.toNat ≤ (c.limit r).toNat ∧ c.amount r = c.max ∨
      ¬c.max.toNat ≤ (c.limit r).toNat ∧ c.amount r = 0 ∧ c.run r = (r, c, c.side.shortage) := by
  unfold Call.amount Call.run Call.check
  by_cases hlt : c.limit r < c.max
  · have hlt' := UInt32.lt_iff_toNat_lt.1 hlt
    right
    simp only [hlt, ↓reduceIte, hb, and_self, and_true]
    omega
  · left
    simp only [hlt, ↓reduceIte, and_true]
    rw [UInt32.lt_iff_toNat_lt] at hlt
    omega

/-- The lower 16 bits of the result of a burst are its number of objects, whether the water mark is exceeded or not. -/
theorem Call.toUInt16_run (hb : c.behavior = .variable) :
    (c.run r).2.2.toUInt32.toUInt16 = (c.amount r).toUInt16 := by
  unfold Call.run Call.amount
  cases hcheck : c.check (c.limit r) with
  | inr ret =>
    unfold Call.check at hcheck
    simp only [hb] at hcheck
    split_ifs at hcheck
    cases hcheck
    rfl
  | inl n =>
    have hb' := c.behavior_copyAll (r.setHead c.side (r.head c.side + n))
      (copyOrder (r.head c.side) r.prod.mask (r.size c.side) n)
    rw [hb] at hb'
    cases hside : c.side with
    | prod =>
      simp only [hside] at hb' ⊢
      unfold Call.quotaResult Call.exceeded Call.success
      rw [hb']
      split
      · simp only [UInt32.toUInt32_toInt32, UInt32.toUInt16_or]
        exact UInt16.or_zero
      · simp
    | cons =>
      simp only [hside] at hb' ⊢
      simp [Call.success, hb']

end

end SoftPatchPanel.Ring

import SoftPatchPanel.Ring.Calls
import SoftPatchPanel.Lib.Claims
import SoftPatchPanel.Lib.Runs
import Mathlib.Tactic.Common

/-!
# The ring is a queue

Whatever lcores enqueue and dequeue at the same time, each access of each call falling between those of the others, what
has been taken out of a ring followed by what is in it is what has been put in, and there are never more objects in it than
the ring has room for (`ring_fifo`).  This holds across the wrap-around of the indices.

The claims of a side are laid end to end from its tail to its head.  A call knows at each place which claim it has, and
that nobody else stores into it or loads from it (`Knows`).
-/

namespace SoftPatchPanel.Ring

open Lib

/-! ### The order of the copies -/

private theorem range_four (m : Nat) :
    (List.range m).flatMap (fun r => [4 * r, 4 * r + 1, 4 * r + 2, 4 * r + 3]) = List.range (4 * m) := by
  induction m with
  | zero => rfl
  | succ m ih =>
    rw [List.range_succ, List.flatMap_append, ih, show 4 * (m + 1) = 4 * m + 3 + 1 by omega, List.range_succ,
      List.range_succ, List.range_succ, List.range_succ]
    simp

/-- The pairs that are copied for `n` places from `p` on, one after another. -/
def plainOrder (k p n : Nat) : List (UInt32 × UInt32) :=
  (List.range n).map fun i => (UInt32.ofNat ((p + i) % 2 ^ k), UInt32.ofNat i)

/-- The loop that is unrolled four times copies one place after another. -/
private theorem unrolledOrder_eq (idx n : UInt32) :
    unrolledOrder idx n = (List.range n.toNat).map fun i => (idx + UInt32.ofNat i, UInt32.ofNat i) := by
  obtain ⟨hlow, hhigh⟩ := @toNat_and_not_mask 2 3 rfl n
  have hquot := Nat.div_add_mod n.toNat 4
  have hhigh' : (n &&& ~~~3).toNat = 4 * (n.toNat / 4) := by omega
  have hi : n &&& ~~~3 = UInt32.ofNat (4 * (n.toNat / 4)) := by rw [← hhigh', UInt32.ofNat_toNat]
  have hfours : (n &&& ~~~3).toNat / 4 = n.toNat / 4 := by omega
  have hrange : List.range n.toNat =
      (List.range (n.toNat / 4)).flatMap (fun r => [4 * r, 4 * r + 1, 4 * r + 2, 4 * r + 3]) ++
        (List.range (n.toNat % 4)).map (4 * (n.toNat / 4) + ·) := by
    rw [range_four, ← List.range_add, hquot]
  rw [unrolledOrder, hfours, hlow, hi, hrange, List.map_append, List.map_flatMap]
  congr 1
  · refine List.flatMap_congr fun r _ => ?_
    simp [UInt32.ofNat_add, add_assoc]
  · have hlt : n.toNat % 4 < 4 := Nat.mod_lt _ (by decide)
    generalize n.toNat % 4 = rem at *
    rcases rem with _ | _ | _ | _ | rem
    all_goals simp [List.range_succ, UInt32.ofNat_add, add_assoc]
    omega

private theorem copyOrder_eq {k p : Nat} {mask size n : UInt32} (hk : k ≤ 27) (hmask : mask.toNat = 2 ^ k - 1)
    (hsize : size.toNat = 2 ^ k) (hn : n.toNat ≤ 2 ^ k) :
    copyOrder (UInt32.ofNat p) mask size n = plainOrder k p n.toNat := by
  have hidx : (UInt32.ofNat p &&& mask).toNat = p % 2 ^ k := toNat_and_mask (by omega) hmask p
  have hpow : 2 ^ k ≤ 2 ^ 27 := Nat.pow_le_pow_right (by decide) hk
  have hlt : p % 2 ^ k < 2 ^ k := Nat.mod_lt _ (Nat.two_pow_pos k)
  have hidx' : UInt32.ofNat p &&& mask = UInt32.ofNat (p % 2 ^ k) := by rw [← hidx, UInt32.ofNat_toNat]
  have hplace : ∀ i, (p + i) % 2 ^ k = (p % 2 ^ k + i) % 2 ^ k := fun i => (Nat.mod_add_mod p (2 ^ k) i).symm
  have hsum : ((UInt32.ofNat p &&& mask) + n).toNat = p % 2 ^ k + n.toNat := by
    rw [UInt32.toNat_add, hidx, Nat.mod_eq_of_lt (by omega)]
  rw [copyOrder, plainOrder]
  simp only [UInt32.lt_iff_toNat_lt, hsum, hsize]
  split_ifs with h
  · rw [unrolledOrder_eq, hidx']
    refine List.map_congr_left fun i hi => ?_
    have hi := List.mem_range.1 hi
    rw [hplace, Nat.mod_eq_of_lt (show p % 2 ^ k + i < 2 ^ k by omega), UInt32.ofNat_add]
  · -- the places up to the end of the ring, then those from its start on
    rw [wrappedOrder, hsize, hidx, hidx']
    generalize hfirst : 2 ^ k - p % 2 ^ k = first
    obtain ⟨rest, hrest⟩ : ∃ rest, n.toNat = first + rest := ⟨n.toNat - first, by omega⟩
    rw [hrest, Nat.add_sub_cancel_left, List.range_add, List.map_append, List.map_map]
    congr 1
    · refine List.map_congr_left fun i hi => ?_
      have hi := List.mem_range.1 hi
      rw [hplace, Nat.mod_eq_of_lt (show p % 2 ^ k + i < 2 ^ k by omega), UInt32.ofNat_add]
    · refine List.map_congr_left fun i hi => ?_
      have hi := List.mem_range.1 hi
      have hwrap : (p + (first + i)) % 2 ^ k = i := by
        rw [hplace, show p % 2 ^ k + (first + i) = i + 2 ^ k by omega, Nat.add_mod_right, Nat.mod_eq_of_lt (by omega)]
      simp only [Function.comp_apply, hwrap]

section

variable {ι α : Type} {k : Nat}

/-! ### The invariant -/

/-- A ring of `2 ^ k` places. -/
structure RteRing.HasSize (r : RteRing α) (k : Nat) : Prop where
  le : k ≤ 27
  size : ∀ side, (r.size side).toNat = 2 ^ k
  mask : r.prod.mask = UInt32.ofNat (2 ^ k - 1)

/-- How far a side may be ahead of the other one. -/
def Side.room (k : Nat) : Side → Nat
  | prod => 2 ^ k - 1
  | cons => 0

/-- A call at this place has the claim on `n` places from `a` on. -/
def Place.Has (a n : Nat) : Place → Prop
  | .copy head _ m _ | .quota head _ m | .wait head m _ | .moveTail head m _ =>
    head = UInt32.ofNat a ∧ m.toNat = n
  | _ => False

/-- The call has copied the first `m` objects of the claim that starts at `a`. -/
def State.Copied (k : Nat) (s : State ι α) (c : Call α) (a m : Nat) : Prop :=
  match c.side with
  | .prod => ∀ i < m, s.ring.ring ((a + i) % 2 ^ k) = c.table i
  | .cons => ∀ i < m, (s.done .prod)[a + i]? = some (c.table i)

/-- `head` is what lcore `i` read, and a call that is alone on its side sees no change of it. -/
def State.Saw (s : State ι α) (i : ι) (c : Call α) (head : UInt32) : Prop :=
  head = UInt32.ofNat (s.seen i) ∧ s.seen i ≤ s.reserved c.side ∧ (c.single = true → s.seen i = s.reserved c.side)

/-- What lcore `i` knows at each place of its call. -/
def Knows (k : Nat) (s : State ι α) (claims : Side → List (Claim ι)) (i : ι) (c : Call α) : Place → Prop
  | .readHead => True
  | .readTail head => s.Saw i c head
  | .moveHead head limit n =>
    s.Saw i c head ∧ 0 < n.toNat ∧ n.toNat ≤ limit.toNat ∧
      -- the other tail was at `t` when it was read, and the head had already moved or was in reach of it
      ∃ t ≤ (s.done c.side.other).length, limit = c.side.entries (UInt32.ofNat (2 ^ k - 1)) (UInt32.ofNat t) head ∧
        (s.seen i = s.reserved c.side → s.reserved c.side ≤ t + c.side.room k)
  | .copy head _ n rest =>
    ∃ a, ⟨i, a, n.toNat⟩ ∈ claims c.side ∧ head = UInt32.ofNat a ∧
      ∃ m ≤ n.toNat, rest = (plainOrder k a n.toNat).drop m ∧ s.Copied k c a m
  | .quota head _ n | .wait head n _ =>
    ∃ a, ⟨i, a, n.toNat⟩ ∈ claims c.side ∧ head = UInt32.ofNat a ∧ s.Copied k c a n.toNat
  | .moveTail head n _ =>
    ∃ a, ⟨i, a, n.toNat⟩ ∈ claims c.side ∧ head = UInt32.ofNat a ∧ s.Copied k c a n.toNat ∧
      a = (s.done c.side).length

/-- The invariant of the ring, for the claims of each side and a memory that holds `mem` behind the ring. -/
structure Shared (k : Nat) (mem : Nat → α) (s : State ι α) (claims : Side → List (Claim ι)) : Prop where
  size : s.ring.HasSize k
  head : ∀ side, s.ring.head side = UInt32.ofNat (s.reserved side)
  tail : ∀ side, s.ring.tail side = UInt32.ofNat (s.done side).length
  tiles : ∀ side, Tiles (s.done side).length (claims side) (s.reserved side)
  room : ∀ side, s.reserved side ≤ (s.done side.other).length + side.room k
  fifo : s.done .cons <+: s.done .prod
  slots : ∀ p x, (s.done .cons).length ≤ p → (s.done .prod)[p]? = some x → s.ring.ring (p % 2 ^ k) = x
  outside : ∀ j, 2 ^ k ≤ j → s.ring.ring j = mem j

/-- The invariant of the ring and the lcores. -/
structure Inv (k : Nat) (mem : Nat → α) (s : State ι α) (claims : Side → List (Claim ι)) : Prop
    extends Shared k mem s claims where
  positive : ∀ i c p, s.calls i = some (c, p) → 0 < c.max
  alone : ∀ i j c p d q, i ≠ j → s.calls i = some (c, p) → s.calls j = some (d, q) → c.side = d.side →
    c.single = false
  owners : ∀ side, ∀ d ∈ claims side, ∃ c p, s.calls d.owner = some (c, p) ∧ c.side = side ∧ p.Has d.start d.len
  knows : ∀ i c p, s.calls i = some (c, p) → Knows k s claims i c p

variable {mem : Nat → α} {s s' : State ι α} {claims claims' : Side → List (Claim ι)} {i j : ι} {c : Call α}
  {p : Place}

/-- No side is ahead of its own tail by more than the ring has room for. -/
private theorem Shared.span (h : Shared k mem s claims) (side : Side) :
    s.reserved side ≤ (s.done side).length + (2 ^ k - 1) := by
  have hprod := h.room .prod
  have hcons := h.room .cons
  have hle := h.fifo.length_le
  have htiles := (h.tiles .prod).le
  simp only [Side.other, Side.room] at hprod hcons
  cases side <;> omega

theorem two_pow_lt (hk : k ≤ 27) : 2 ^ k < 2 ^ 28 :=
  Nat.lt_of_le_of_lt (Nat.pow_le_pow_right (by decide) hk) (by decide)

/-- A place that is claimed is known by the 32 bits of its number. -/
theorem Shared.start_eq (h : Shared k mem s claims) {side : Side} {a b : Nat}
    (ha : (s.done side).length ≤ a ∧ a ≤ s.reserved side) (hb : (s.done side).length ≤ b ∧ b ≤ s.reserved side)
    (heq : UInt32.ofNat a = UInt32.ofNat b) : a = b := by
  have hspan := h.span side
  have hk := two_pow_lt h.size.le
  rcases Nat.le_total a b with hle | hle
  · exact ofNat_inj_of_lt heq hle (by omega)
  · exact (ofNat_inj_of_lt heq.symm hle (by omega)).symm

/-! ### What the others rely on -/

/-- What lcore `i` relies on while another one moves. -/
structure Frame (k : Nat) (i : ι) (s s' : State ι α) (claims claims' : Side → List (Claim ι)) : Prop where
  seen : s'.seen i = s.seen i
  reserved : ∀ side, s.reserved side ≤ s'.reserved side
  still : ∀ c p, s.calls i = some (c, p) → c.single = true → s'.reserved c.side = s.reserved c.side
  done : ∀ side, s.done side <+: s'.done side
  mine : ∀ side a n, ⟨i, a, n⟩ ∈ claims side → ⟨i, a, n⟩ ∈ claims' side
  slots : ∀ a n, ⟨i, a, n⟩ ∈ claims .prod → ∀ m < n, s'.ring.ring ((a + m) % 2 ^ k) = s.ring.ring ((a + m) % 2 ^ k)
  first : ∀ side a n, ⟨i, a, n⟩ ∈ claims side → a = (s.done side).length →
    (s'.done side).length = (s.done side).length

private theorem State.Copied.frame {a m n : Nat} (h : s.Copied k c a m) (hmem : ⟨i, a, n⟩ ∈ claims c.side) (hm : m ≤ n)
    (hf : Frame k i s s' claims claims') : s'.Copied k c a m := by
  unfold State.Copied at h ⊢
  cases hside : c.side with
  | prod =>
    simp only [hside] at h hmem ⊢
    intro i hi
    rw [hf.slots a n hmem i (by omega), h i hi]
  | cons =>
    simp only [hside] at h ⊢
    intro i hi
    obtain ⟨l, hl⟩ := hf.done .prod
    have hget := h i hi
    rw [← hl, List.getElem?_append_left (List.getElem?_eq_some_iff.1 hget).1, hget]

private theorem State.Saw.frame {head : UInt32} (h : s.Saw i c head) (hi : s.calls i = some (c, p))
    (hf : Frame k i s s' claims claims') : s'.Saw i c head := by
  obtain ⟨hhead, hle, hsingle⟩ := h
  refine ⟨by rw [hf.seen, hhead], by rw [hf.seen]; exact hle.trans (hf.reserved _), fun hc => ?_⟩
  rw [hf.seen, hf.still c p hi hc, hsingle hc]

private theorem Knows.frame (h : Knows k s claims i c p) (hi : s.calls i = some (c, p))
    (hf : Frame k i s s' claims claims') : Knows k s' claims' i c p := by
  cases p with
  | readHead => trivial
  | readTail head => exact State.Saw.frame h hi hf
  | moveHead head limit n =>
    obtain ⟨hsaw, hpos, hle, t, ht, hlimit, hreach⟩ := h
    refine ⟨hsaw.frame hi hf, hpos, hle, t, ht.trans (hf.done _).length_le, hlimit, fun heq => ?_⟩
    -- where the head is still the one that was read, nobody has claimed anything in between
    have hsame : s'.reserved c.side = s.reserved c.side := by
      have := hf.reserved c.side
      have := hsaw.2.1
      rw [hf.seen] at heq
      omega
    rw [hsame]
    exact hreach (by rw [← hf.seen, heq, hsame])
  | copy head limit n rest =>
    obtain ⟨a, hmem, hhead, m, hm, hrest, hcopied⟩ := h
    exact ⟨a, hf.mine _ _ _ hmem, hhead, m, hm, hrest, hcopied.frame hmem hm hf⟩
  | quota head limit n =>
    obtain ⟨a, hmem, hhead, hcopied⟩ := h
    exact ⟨a, hf.mine _ _ _ hmem, hhead, hcopied.frame hmem le_rfl hf⟩
  | wait head n ret =>
    obtain ⟨a, hmem, hhead, hcopied⟩ := h
    exact ⟨a, hf.mine _ _ _ hmem, hhead, hcopied.frame hmem le_rfl hf⟩
  | moveTail head n ret =>
    obtain ⟨a, hmem, hhead, hcopied, hfirst⟩ := h
    exact ⟨a, hf.mine _ _ _ hmem, hhead, hcopied.frame hmem le_rfl hf, by rw [hf.first _ _ _ hmem hfirst, hfirst]⟩

variable [DecidableEq ι]

/-- A move of lcore `j`, put together from what it does to the ring, to the claims and to the call. -/
private theorem Inv.of_move (h : Inv k mem s claims) (hj : s.calls j = some (c, p)) {next : Option (Call α × Place)}
    (hshared : Shared k mem s' claims') (hcalls : s'.calls = Function.update s.calls j next)
    (hnext : ∀ c' p', next = some (c', p') →
      c'.side = c.side ∧ c'.single = c.single ∧ c'.max = c.max ∧ Knows k s' claims' j c' p')
    (hframe : ∀ i, i ≠ j → Frame k i s s' claims claims')
    (hold : ∀ side, ∀ d ∈ claims' side, d.owner ≠ j → d ∈ claims side)
    (hmine : ∀ side, ∀ d ∈ claims' side, d.owner = j →
      ∃ c' p', next = some (c', p') ∧ c'.side = side ∧ p'.Has d.start d.len) : Inv k mem s' claims' := by
  have hself : s'.calls j = next := by rw [hcalls, Function.update_self]
  have hother : ∀ i, i ≠ j → s'.calls i = s.calls i := fun i hi => by rw [hcalls, Function.update_of_ne hi]
  -- a call of the new state is the call of the same lcore before, as far as its side is concerned
  have hback : ∀ i d q, s'.calls i = some (d, q) →
      ∃ d' q', s.calls i = some (d', q') ∧ d.side = d'.side ∧ d.single = d'.single ∧ d.max = d'.max := by
    intro i d q hi
    by_cases hij : i = j
    · subst hij
      obtain ⟨h1, h2, h3, -⟩ := hnext d q (hself.symm.trans hi)
      exact ⟨c, p, hj, h1, h2, h3⟩
    · exact ⟨d, q, by rw [← hother i hij, hi], rfl, rfl, rfl⟩
  refine { toShared := hshared, positive := ?_, alone := ?_, owners := ?_, knows := ?_ }
  · intro i d q hi
    obtain ⟨d', q', hi', -, -, hmax⟩ := hback i d q hi
    rw [hmax]
    exact h.positive i d' q' hi'
  · intro a b d q e r hne ha hb hside
    obtain ⟨d', q', ha', hs, hsingle, -⟩ := hback a d q ha
    obtain ⟨e', r', hb', ht, -, -⟩ := hback b e r hb
    rw [hsingle]
    exact h.alone a b d' q' e' r' hne ha' hb' (by rw [← hs, ← ht, hside])
  · intro side d hd
    by_cases hdj : d.owner = j
    · rw [hdj, hself]
      exact hmine side d hd hdj
    · rw [hother _ hdj]
      exact h.owners side d (hold side d hd hdj)
  · intro i d q hi
    by_cases hij : i = j
    · subst hij
      exact (hnext d q (hself.symm.trans hi)).2.2.2
    · rw [hother i hij] at hi
      exact (h.knows i d q hi).frame hi (hframe i hij)

/-! ### Moves that only concern the call -/

/-- A move that leaves the ring and the claims as they are. -/
private theorem Inv.quiet (h : Inv k mem s claims) (hj : s.calls j = some (c, p)) {next : Option (Call α × Place)}
    (hring : s'.ring = s.ring) (hdone : s'.done = s.done) (hreserved : s'.reserved = s.reserved)
    (hseen : ∀ i, i ≠ j → s'.seen i = s.seen i) (hcalls : s'.calls = Function.update s.calls j next)
    (hnext : ∀ c' p', next = some (c', p') →
      c'.side = c.side ∧ c'.single = c.single ∧ c'.max = c.max ∧ Knows k s' claims j c' p')
    (hhas : ∀ a n, p.Has a n → ∃ c' p', next = some (c', p') ∧ c'.side = c.side ∧ p'.Has a n) :
    Inv k mem s' claims := by
  have hshared : Shared k mem s' claims := by
    obtain ⟨h1, h2, h3, h4, h5, h6, h7, h8⟩ := h.toShared
    exact ⟨hring ▸ h1, by rwa [hring, hreserved], by rwa [hring, hdone], by rwa [hdone, hreserved],
      by rwa [hdone, hreserved], by rwa [hdone], by rwa [hring, hdone], by rwa [hring]⟩
  refine h.of_move hj hshared hcalls hnext (fun i hi => ?_) (fun side d hd _ => hd) (fun side d hd hdj => ?_)
  · exact ⟨hseen i hi, fun side => by rw [hreserved], fun _ _ _ _ => by rw [hreserved], fun side => by rw [hdone],
      fun _ _ _ h => h, fun _ _ _ _ _ => by rw [hring], fun _ _ _ _ _ => by rw [hdone]⟩
  · obtain ⟨c', p', hcall, hside, hp⟩ := h.owners side d hd
    rw [hdj, hj] at hcall
    cases hcall
    obtain ⟨c', p', hn, hs, hp'⟩ := hhas _ _ hp
    exact ⟨c', p', hn, hs.trans hside, hp'⟩

private theorem Inv.readHead (h : Inv k mem s claims) (hj : s.calls j = some (c, .readHead)) :
    Inv k mem (s.moveAt j c .readHead) claims := by
  refine h.quiet hj rfl rfl rfl (fun i hi => Function.update_of_ne hi ..) rfl (fun c' p' hn => ?_) (fun _ _ hp => hp.elim)
  cases hn
  have hseen : (s.moveAt j c .readHead).seen j = s.reserved c.side := Function.update_self ..
  exact ⟨rfl, rfl, rfl, by rw [hseen]; exact h.head c.side, hseen.le, fun _ => hseen⟩

omit [DecidableEq ι] in
/-- A call goes on with a positive number of objects that fits. -/
private theorem Call.check_eq_inl {limit n : UInt32} (hmax : 0 < c.max) (h : c.check limit = .inl n) :
    0 < n.toNat ∧ n.toNat ≤ limit.toNat := by
  unfold Call.check at h
  split at h
  · split at h
    · cases h
    · split at h
      · cases h
      · rename_i hzero
        cases h
        exact ⟨Nat.pos_of_ne_zero fun h0 => hzero (UInt32.toNat_inj.1 h0), le_rfl⟩
  · rename_i hlt
    cases h
    exact ⟨UInt32.lt_iff_toNat_lt.1 hmax, not_lt.1 fun h => hlt (UInt32.lt_iff_toNat_lt.2 h)⟩

private theorem Inv.readTail {head : UInt32} (h : Inv k mem s claims) (hj : s.calls j = some (c, .readTail head)) :
    Inv k mem (s.moveAt j c (.readTail head)) claims := by
  refine h.quiet hj rfl rfl rfl (fun i hi => rfl) rfl (fun c' p' hn => ?_) (fun _ _ hp => hp.elim)
  generalize hlimit : c.side.entries s.ring.prod.mask (s.ring.tail c.side.other) head = limit at hn
  obtain ⟨n, hcheck, rfl, rfl⟩ : ∃ n, c.check limit = .inl n ∧ c' = c ∧ p' = .moveHead head limit n := by
    cases hcheck : c.check limit with
    | inl n =>
      rw [hcheck] at hn
      cases hn
      exact ⟨n, rfl, rfl, rfl⟩
    | inr ret =>
      rw [hcheck] at hn
      cases hn
  obtain ⟨hpos, hle⟩ := Call.check_eq_inl (h.positive j c' _ hj) hcheck
  have hsaw : s.Saw j c' head := h.knows j c' _ hj
  refine ⟨rfl, rfl, rfl, hsaw, hpos, hle, (s.done c'.side.other).length, le_rfl, ?_, fun _ => h.room c'.side⟩
  rw [← hlimit, h.tail, h.size.mask]

/-! ### Claiming places -/

theorem Side.toNat_entries (side : Side) {t x : Nat} (hle : x ≤ t + side.room k)
    (hlt : t + side.room k < x + 2 ^ 32) :
    (side.entries (UInt32.ofNat (2 ^ k - 1)) (UInt32.ofNat t) (UInt32.ofNat x)).toNat = t + side.room k - x := by
  cases side with
  | prod =>
    rw [Side.entries, ← UInt32.ofNat_add, Nat.add_comm]
    exact toNat_ofNat_sub hle hlt
  | cons => exact toNat_ofNat_sub hle hlt

omit [DecidableEq ι] in
/-- A call that is about to move the head, with the head as it was read, has found room for its objects. -/
private theorem Inv.fits {head limit n : UInt32} (h : Inv k mem s claims)
    (hj : s.calls j = some (c, .moveHead head limit n))
    (hseen : s.seen j = s.reserved c.side) :
    n.toNat ≤ 2 ^ k ∧ s.reserved c.side + n.toNat ≤ (s.done c.side.other).length + c.side.room k := by
  obtain ⟨⟨hhead, -, -⟩, -, hle, t, ht, hlimit, hreach⟩ := h.knows j c _ hj
  have hreach := hreach hseen
  have hk := two_pow_lt h.size.le
  have hpow := Nat.two_pow_pos k
  -- the other side is not ahead of what this side has claimed by more than the room that is left
  have hroom : t + c.side.room k ≤ s.reserved c.side + (2 ^ k - 1) := by
    have hspan := h.span c.side.other
    have htiles := (h.tiles c.side.other).le
    have htiles' := (h.tiles c.side).le
    have hother := h.room c.side.other
    have hfifo := h.fifo.length_le
    have hprod := h.room .prod
    cases hside : c.side <;> simp only [hside, Side.other, Side.room] at * <;> omega
  rw [hlimit, hhead, hseen, c.side.toNat_entries hreach (by omega)] at hle
  omega

private theorem Inv.reserve {head limit n : UInt32} (h : Inv k mem s claims)
    (hj : s.calls j = some (c, .moveHead head limit n)) (hseen : s.seen j = s.reserved c.side)
    (hif : (c.single || s.ring.head c.side = head) = true) :
    Inv k mem (s.moveAt j c (.moveHead head limit n))
      (Function.update claims c.side (claims c.side ++ [⟨j, s.reserved c.side, n.toNat⟩])) := by
  obtain ⟨hn, hroom⟩ := h.fits hj hseen
  obtain ⟨⟨hhead, -, -⟩, hpos, -⟩ := h.knows j c _ hj
  rw [hseen] at hhead
  have hs' : s.moveAt j c (.moveHead head limit n) =
      { ring := s.ring.setHead c.side (head + n)
        calls := Function.update s.calls j
          (some (c, .copy head limit n (copyOrder head s.ring.prod.mask (s.ring.size c.side) n)))
        done := s.done
        reserved := Function.update s.reserved c.side (s.reserved c.side + n.toNat)
        seen := s.seen
        returned := s.returned } := by
    simp [State.moveAt, Call.move, State.record, hif]
  have hgrows : ∀ side, s.reserved side ≤
      Function.update s.reserved c.side (s.reserved c.side + n.toNat) side := by
    intro side
    by_cases hside : side = c.side
    · subst hside
      rw [Function.update_self]
      omega
    · rw [Function.update_of_ne hside]
  rw [hs']
  refine h.of_move hj ?_ rfl ?_ (fun i hi => ?_) ?_ ?_
  · obtain ⟨h1, h2, h3, h4, h5, h6, h7, h8⟩ := h.toShared
    refine ⟨⟨h1.le, by simpa using h1.size, by simpa using h1.mask⟩, ?_, by simpa using h3, ?_, ?_, h6,
      by simpa using h7, by simpa using h8⟩ <;> intro side <;> by_cases hside : side = c.side
    · subst hside
      simp [RteRing.head_setHead, hhead, UInt32.ofNat_add]
    · simpa [RteRing.head_setHead, hside] using h2 side
    · subst hside
      simpa using (h4 c.side).concat j hpos
    · simpa [hside] using h4 side
    · subst hside
      simpa using hroom
    · simpa [hside] using h5 side
  · intro c' p' hnext
    cases hnext
    refine ⟨rfl, rfl, rfl, s.reserved c.side, by simp, hhead, 0, Nat.zero_le _, ?_, ?_⟩
    · rw [hhead, copyOrder_eq h.size.le _ (h.size.size c.side) hn, List.drop_zero]
      rw [h.size.mask, toNat_ofNat_of_lt]
      exact Nat.lt_of_le_of_lt (Nat.sub_le _ _) ((two_pow_lt h.size.le).trans (by decide))
    · unfold State.Copied
      cases c.side <;> exact fun i hi => absurd hi (Nat.not_lt_zero i)
  · refine ⟨rfl, hgrows, fun d q hd hsingle => ?_, fun _ => List.prefix_refl _, fun side a m hmem => ?_,
      fun _ _ _ _ _ => by simp, fun _ _ _ _ _ => rfl⟩
    · -- a call that is alone on its side is on the other side
      have hne : d.side ≠ c.side := fun hside => by
        rw [h.alone i j d q c _ hi hd hj hside] at hsingle
        cases hsingle
      simp [hne]
    · by_cases hside : side = c.side
      · subst hside
        simpa using Or.inl hmem
      · simpa [hside] using hmem
  · intro side d hd hne
    by_cases hside : side = c.side
    · subst hside
      rw [Function.update_self, List.mem_append, List.mem_singleton] at hd
      rcases hd with hd | rfl
      · exact hd
      · exact absurd rfl hne
    · rwa [Function.update_of_ne hside] at hd
  · intro side d hd hdj
    have hnone : d ∉ claims side := by
      intro hold
      obtain ⟨c', p', hcall, -, hhas⟩ := h.owners side d hold
      rw [hdj, hj] at hcall
      cases hcall
      exact hhas
    by_cases hside : side = c.side
    · subst hside
      rw [Function.update_self, List.mem_append, List.mem_singleton] at hd
      obtain rfl := hd.resolve_left hnone
      exact ⟨c, _, rfl, rfl, hhead, rfl⟩
    · rw [Function.update_of_ne hside] at hd
      exact absurd hd hnone

/-! ### Copying -/

/-- The copies that are left when `m` of them have been made. -/
theorem plainOrder_drop {a n m : Nat} {x : UInt32 × UInt32} {rest : List (UInt32 × UInt32)}
    (h : x :: rest = (plainOrder k a n).drop m) :
    m < n ∧ x = (UInt32.ofNat ((a + m) % 2 ^ k), UInt32.ofNat m) ∧ rest = (plainOrder k a n).drop (m + 1) := by
  have hlen : (plainOrder k a n).length = n := by simp [plainOrder]
  have hm : m < n := by
    by_contra hge
    rw [List.drop_eq_nil_of_le (by omega)] at h
    cases h
  rw [List.drop_eq_getElem_cons (hlen.symm ▸ hm)] at h
  obtain ⟨h1, h2⟩ := List.cons.inj h
  exact ⟨hm, by simpa [plainOrder] using h1, h2⟩

omit [DecidableEq ι] in
/-- Two places that a side has claimed are different places of the ring. -/
private theorem Shared.place_ne (h : Shared k mem s claims) {x y : Nat} (hne : x ≠ y)
    (hx : (s.done .cons).length ≤ x ∧ x < s.reserved .prod) (hy : (s.done .cons).length ≤ y ∧ y < s.reserved .prod) :
    x % 2 ^ k ≠ y % 2 ^ k := by
  have hroom := h.room .prod
  have hpow := Nat.two_pow_pos k
  simp only [Side.other, Side.room] at hroom
  exact mod_ne_mod hne (by omega) (by omega)

theorem Inv.store {head limit n idx i : UInt32} {rest : List (UInt32 × UInt32)} (h : Inv k mem s claims)
    (hj : s.calls j = some (c, .copy head limit n ((idx, i) :: rest))) (hside : c.side = .prod) :
    Inv k mem (s.moveAt j c (.copy head limit n ((idx, i) :: rest))) claims := by
  obtain ⟨a, hmem, hhead, m, hm, hrest, hcopied⟩ := h.knows j c _ hj
  obtain ⟨hmn, hx, htail⟩ := plainOrder_drop hrest
  obtain ⟨rfl, rfl⟩ := Prod.mk.inj hx
  rw [hside] at hmem
  have hpow := Nat.two_pow_pos k
  have hk := two_pow_lt h.size.le
  obtain ⟨hlow, hhigh, -⟩ := (h.tiles .prod).bounds hmem
  have hspan := h.span .prod
  have hfifo := h.fifo.length_le
  have hidx : (UInt32.ofNat ((a + m) % 2 ^ k)).toNat = (a + m) % 2 ^ k :=
    toNat_ofNat_of_lt ((Nat.mod_lt _ hpow).trans (hk.trans (by decide)))
  simp only at hhigh hlow
  have hi : (UInt32.ofNat m).toNat = m := toNat_ofNat_of_lt (by omega)
  have hs' : s.moveAt j c (.copy head limit n ((UInt32.ofNat ((a + m) % 2 ^ k), UInt32.ofNat m) :: rest)) =
      { s with
        ring := s.ring.store ((a + m) % 2 ^ k) (c.table m)
        calls := Function.update s.calls j (some (c, .copy head limit n rest)) } := by
    simp only [State.moveAt, Call.move, State.record, hside, hidx, hi]
    rfl
  -- the store leaves all other places from the tail of the consumers on alone
  have hkeep : ∀ q, q ≠ a + m → (s.done .cons).length ≤ q → q < s.reserved .prod →
      (s.ring.store ((a + m) % 2 ^ k) (c.table m)).ring (q % 2 ^ k) = s.ring.ring (q % 2 ^ k) := by
    intro q hq h1 h2
    exact Function.update_of_ne (h.place_ne hq ⟨h1, h2⟩ ⟨by omega, by omega⟩) ..
  rw [hs']
  refine h.of_move hj ?_ rfl ?_ (fun b hb => ?_) (fun _ _ hd _ => hd) ?_
  · obtain ⟨h1, h2, h3, h4, h5, h6, h7, h8⟩ := h.toShared
    refine ⟨⟨h1.le, h1.size, h1.mask⟩, h2, h3, h4, h5, h6, fun q x hq hget => ?_, fun q hq => ?_⟩
    · have hlt : q < (s.done .prod).length := (List.getElem?_eq_some_iff.1 hget).1
      rw [← h7 q x hq hget]
      exact hkeep q (by omega) hq (by omega)
    · rw [← h8 q hq]
      have := Nat.mod_lt (a + m) hpow
      exact Function.update_of_ne (by omega) ..
  · intro c' p' hnext
    cases hnext
    refine ⟨rfl, rfl, rfl, a, hside ▸ hmem, hhead, m + 1, hmn, htail, ?_⟩
    simp only [State.Copied, hside] at hcopied ⊢
    intro b hb
    by_cases hbm : b = m
    · subst hbm
      exact Function.update_self ..
    · rw [← hcopied b (by omega)]
      exact hkeep (a + b) (by omega) (by omega) (by omega)
  · refine ⟨rfl, fun _ => le_rfl, fun _ _ _ _ => rfl, fun _ => List.prefix_refl _, fun _ _ _ h => h,
      fun x l hx y hy => ?_, fun _ _ _ _ _ => rfl⟩
    obtain ⟨hxlow, hxhigh, -⟩ := (h.tiles .prod).bounds hx
    simp only at hxlow hxhigh
    refine hkeep (x + y) (fun heq => hb ?_) (by omega) (by omega)
    -- the claims of two lcores do not meet
    have := (h.tiles .prod).eq_of_meet hx hmem (p := x + y) ⟨by simp, by simpa using hy⟩ ⟨by simp; omega, by simp; omega⟩
    exact congrArg Claim.owner this
  · intro side d hd hdj
    obtain ⟨c', p', hcall, hs, hhas⟩ := h.owners side d hd
    rw [hdj, hj] at hcall
    cases hcall
    exact ⟨c, _, rfl, hs, hhas⟩

theorem Inv.load {head limit n idx i : UInt32} {rest : List (UInt32 × UInt32)} (h : Inv k mem s claims)
    (hj : s.calls j = some (c, .copy head limit n ((idx, i) :: rest))) (hside : c.side = .cons) :
    Inv k mem (s.moveAt j c (.copy head limit n ((idx, i) :: rest))) claims := by
  obtain ⟨a, hmem, hhead, m, hm, hrest, hcopied⟩ := h.knows j c _ hj
  obtain ⟨hmn, hx, htail⟩ := plainOrder_drop hrest
  obtain ⟨rfl, rfl⟩ := Prod.mk.inj hx
  have hpow := Nat.two_pow_pos k
  have hk := two_pow_lt h.size.le
  obtain ⟨hlow, hhigh, -⟩ := (h.tiles c.side).bounds hmem
  have hspan := h.span c.side
  have hroom := h.room c.side
  simp only [hside, Side.other, Side.room] at hlow hhigh hspan hroom
  have hidx : (UInt32.ofNat ((a + m) % 2 ^ k)).toNat = (a + m) % 2 ^ k :=
    toNat_ofNat_of_lt ((Nat.mod_lt _ hpow).trans (hk.trans (by decide)))
  have hi : (UInt32.ofNat m).toNat = m := toNat_ofNat_of_lt (by omega)
  have hs' : s.moveAt j c (.copy head limit n ((UInt32.ofNat ((a + m) % 2 ^ k), UInt32.ofNat m) :: rest)) =
      { s with
        calls := Function.update s.calls j
          (some ({ c with table := Function.update c.table m (s.ring.ring ((a + m) % 2 ^ k)) },
            .copy head limit n rest)) } := by
    simp only [State.moveAt, Call.move, State.record, hside, hidx, hi]
    rfl
  rw [hs']
  refine h.quiet hj rfl rfl rfl (fun _ _ => rfl) rfl (fun c' p' hnext => ?_) (fun b l hhas => ⟨_, _, rfl, rfl, hhas⟩)
  cases hnext
  refine ⟨rfl, rfl, rfl, a, hmem, hhead, m + 1, hmn, htail, ?_⟩
  simp only [State.Copied, hside] at hcopied ⊢
  intro b hb
  by_cases hbm : b = m
  · -- the place was filled before the producers moved their tail
    subst hbm
    obtain ⟨x, hx⟩ : ∃ x, (s.done .prod)[a + b]? = some x := ⟨_, List.getElem?_eq_getElem (by omega)⟩
    rw [Function.update_self, hx, h.slots (a + b) x (by omega) hx]
  · rw [Function.update_of_ne hbm]
    exact hcopied b (by omega)

/-! ### Moving the tail -/

omit [DecidableEq ι] in
/-- A call that is alone on its side has the only claim there. -/
private theorem Inv.first_of_single (h : Inv k mem s claims) (hj : s.calls j = some (c, p)) {a n : Nat}
    (hmem : ⟨j, a, n⟩ ∈ claims c.side) (hhas : p.Has a n) (hsingle : c.single = true) :
    a = (s.done c.side).length := by
  have htiles := h.tiles c.side
  obtain ⟨hlow, hhigh, -⟩ := htiles.bounds hmem
  cases hclaims : claims c.side with
  | nil =>
    rw [hclaims] at hmem
    cases hmem
  | cons d rest =>
    have hd : d ∈ claims c.side := by simp [hclaims]
    obtain ⟨c', p', hcall, hside, hp⟩ := h.owners _ d hd
    have howner : j = d.owner := by
      by_contra hne
      rw [h.alone j d.owner c p c' p' hne hj hcall hside.symm] at hsingle
      cases hsingle
    rw [← howner, hj] at hcall
    cases hcall
    have hstart : d.start = (s.done c.side).length := by
      rw [hclaims] at htiles
      exact htiles.1
    obtain ⟨hdlow, hdhigh, -⟩ := htiles.bounds hd
    rw [← hstart]
    -- both are the head that the call has read
    refine h.start_eq ⟨hlow, by simp only at hhigh; omega⟩ ⟨hdlow, by omega⟩ ?_
    cases p <;> first | exact hhas.elim | exact hhas.1.symm.trans hp.1

/-- A call that has copied all its objects goes on to the wait for the others, or to its tail when it is alone. -/
private theorem Inv.beforeTail {head n : UInt32} {a : Nat} (h : Inv k mem s claims) (hj : s.calls j = some (c, p))
    (hmem : ⟨j, a, n.toNat⟩ ∈ claims c.side) (hhas : p.Has a n.toNat) (hhead : head = UInt32.ofNat a)
    (hcopied : s.Copied k c a n.toNat) (ret : Int32)
    (hp : ∀ b m, p.Has b m → UInt32.ofNat b = head ∧ m = n.toNat) :
    Inv k mem { s with calls := Function.update s.calls j (some (c, c.beforeTail head n ret)) } claims := by
  refine h.quiet hj rfl rfl rfl (fun _ _ => rfl) rfl (fun c' p' hnext => ?_) (fun b m hbm => ⟨_, _, rfl, rfl, ?_⟩)
  · cases hnext
    refine ⟨rfl, rfl, rfl, ?_⟩
    unfold Call.beforeTail
    split
    · rename_i hsingle
      exact ⟨a, hmem, hhead, hcopied, h.first_of_single hj hmem hhas hsingle⟩
    · exact ⟨a, hmem, hhead, hcopied⟩
  · obtain ⟨hb, rfl⟩ := hp b m hbm
    unfold Call.beforeTail
    split <;> exact ⟨hb.symm, rfl⟩

theorem Inv.copied {head limit n : UInt32} (h : Inv k mem s claims)
    (hj : s.calls j = some (c, .copy head limit n [])) : Inv k mem (s.moveAt j c (.copy head limit n [])) claims := by
  obtain ⟨a, hmem, hhead, m, hm, hrest, hcopied⟩ := h.knows j c _ hj
  have hmn : m = n.toNat := by
    have hlen := congrArg List.length hrest
    simp only [List.length_nil, List.length_drop, plainOrder, List.length_map, List.length_range] at hlen
    omega
  subst hmn
  cases hside : c.side with
  | prod =>
    have hs' : s.moveAt j c (.copy head limit n []) =
        { s with calls := Function.update s.calls j (some (c, .quota head limit n)) } := by
      simp only [State.moveAt, Call.move, State.record, hside]
      rfl
    rw [hs']
    refine h.quiet hj rfl rfl rfl (fun _ _ => rfl) rfl (fun c' p' hnext => ?_) (fun b l hbl => ⟨_, _, rfl, rfl, hbl⟩)
    cases hnext
    exact ⟨rfl, rfl, rfl, a, hmem, hhead, hcopied⟩
  | cons =>
    have hs' : s.moveAt j c (.copy head limit n []) =
        { s with calls := Function.update s.calls j (some (c, c.beforeTail head n (c.success n))) } := by
      simp only [State.moveAt, Call.move, State.record, hside]
      rfl
    rw [hs']
    exact h.beforeTail hj hmem ⟨hhead, rfl⟩ hhead hcopied _ fun b l hbl => ⟨hbl.1.symm, hbl.2.symm⟩

theorem Inv.quota {head limit n : UInt32} (h : Inv k mem s claims) (hj : s.calls j = some (c, .quota head limit n)) :
    Inv k mem (s.moveAt j c (.quota head limit n)) claims := by
  obtain ⟨a, hmem, hhead, hcopied⟩ := h.knows j c _ hj
  exact h.beforeTail hj hmem ⟨hhead, rfl⟩ hhead hcopied _ fun b l hbl => ⟨hbl.1.symm, hbl.2.symm⟩

theorem Inv.wait {head n : UInt32} {ret : Int32} (h : Inv k mem s claims)
    (hj : s.calls j = some (c, .wait head n ret)) : Inv k mem (s.moveAt j c (.wait head n ret)) claims := by
  obtain ⟨a, hmem, hhead, hcopied⟩ := h.knows j c _ hj
  obtain ⟨hlow, hhigh, -⟩ := (h.tiles c.side).bounds hmem
  have htiles := (h.tiles c.side).le
  refine h.quiet hj rfl rfl rfl (fun _ _ => rfl) rfl (fun c' p' hnext => ?_) (fun b l hbl => ⟨_, _, rfl, rfl, ?_⟩)
  · cases hnext
    refine ⟨rfl, rfl, rfl, ?_⟩
    split
    · rename_i htail
      rw [h.tail, hhead] at htail
      have hfirst := h.start_eq ⟨le_rfl, htiles⟩ ⟨hlow, (Nat.le_add_right _ _).trans hhigh⟩ htail
      exact ⟨a, hmem, hhead, hcopied, hfirst.symm⟩
    · exact ⟨a, hmem, hhead, hcopied⟩
  · split <;> exact hbl

omit [DecidableEq ι] in
/-- What a finished call adds to the record keeps the queue in order. -/
private theorem Shared.finish {n : UInt32} (h : Shared k mem s claims)
    (hcopied : s.Copied k c (s.done c.side).length n.toNat) {done : Side → List α}
    (hdone : done = Function.update s.done c.side (s.done c.side ++ c.objects n)) :
    done .cons <+: done .prod ∧
      ∀ p x, (done .cons).length ≤ p → (done .prod)[p]? = some x → s.ring.ring (p % 2 ^ k) = x := by
  subst hdone
  unfold State.Copied at hcopied
  unfold Call.objects
  cases hside : c.side with
  | prod =>
    simp only [hside] at hcopied ⊢
    refine ⟨h.fifo.trans (List.prefix_append _ _), fun p x hp hget => ?_⟩
    simp only [Function.update_of_ne (show Side.cons ≠ Side.prod by decide), Function.update_self] at hp hget
    rcases Nat.lt_or_ge p (s.done .prod).length with hlt | hge
    · rw [List.getElem?_append_left hlt] at hget
      exact h.slots p x hp hget
    · rw [List.getElem?_append_right hge, List.getElem?_map, Option.map_eq_some_iff] at hget
      obtain ⟨i, hi, rfl⟩ := hget
      obtain ⟨hlt, rfl⟩ := List.getElem?_eq_some_iff.1 hi
      rw [List.getElem_range]
      rw [List.length_range] at hlt
      rw [← hcopied _ hlt]
      congr 2
      omega
  | cons =>
    simp only [hside] at hcopied ⊢
    simp only [Function.update_of_ne (show Side.prod ≠ Side.cons by decide), Function.update_self, List.length_append]
    refine ⟨?_, fun p x hp hget => h.slots p x (by omega) hget⟩
    obtain ⟨l, hl⟩ := h.fifo
    rw [← hl, List.prefix_append_right_inj]
    refine List.prefix_iff_getElem?.2 fun i hi => ?_
    rw [List.length_map, List.length_range] at hi
    have hget := hcopied i hi
    rw [← hl, List.getElem?_append_right (Nat.le_add_right _ _), Nat.add_sub_cancel_left] at hget
    rw [hget]
    simp

/-- The claim of a call that moves its tail is the first one, and is given up. -/
theorem Inv.moveTail {head n : UInt32} {ret : Int32} (h : Inv k mem s claims)
    (hj : s.calls j = some (c, .moveTail head n ret)) :
    ∃ d rest, claims c.side = d :: rest ∧
      Inv k mem (s.moveAt j c (.moveTail head n ret)) (Function.update claims c.side rest) := by
  obtain ⟨a, hmem, hhead, hcopied, rfl⟩ := h.knows j c _ hj
  have htiles := h.tiles c.side
  obtain ⟨rest, hclaims⟩ := htiles.eq_cons_of_start hmem rfl
  have hbounds := htiles.bounds hmem
  rw [hclaims] at htiles
  obtain ⟨-, hpos, htiles⟩ := htiles
  simp only at hpos htiles hbounds
  have hlen : (c.objects n).length = n.toNat := by simp [Call.objects]
  -- what is left of the claims belongs to others
  have hothers : ∀ d ∈ rest, d.owner ≠ j := by
    intro d hd howner
    obtain ⟨hlow, hhigh, -⟩ := htiles.bounds hd
    obtain ⟨c', p', hcall, -, hhas⟩ := h.owners c.side d (by simp [hclaims, hd])
    rw [howner, hj] at hcall
    cases hcall
    have hstart := h.start_eq (a := d.start) (b := (s.done c.side).length) ⟨by omega, by omega⟩ ⟨le_rfl, by omega⟩
      (hhas.1.symm.trans hhead)
    omega
  refine ⟨_, rest, hclaims, ?_⟩
  have hs' : s.moveAt j c (.moveTail head n ret) =
      { s with
        ring := s.ring.setTail c.side (head + n)
        calls := Function.update s.calls j none
        done := Function.update s.done c.side (s.done c.side ++ c.objects n)
        returned := Function.update s.returned j (some (c, ret)) } := rfl
  have hgrows : ∀ side, s.done side <+: Function.update s.done c.side (s.done c.side ++ c.objects n) side := by
    intro side
    by_cases hside : side = c.side
    · subst hside
      rw [Function.update_self]
      exact List.prefix_append _ _
    · rw [Function.update_of_ne hside]
  rw [hs']
  refine h.of_move hj ?_ rfl (fun c' p' hnext => by cases hnext) (fun i hi => ?_) ?_ ?_
  · obtain ⟨h1, h2, h3, h4, h5, h6, h7, h8⟩ := h.toShared
    obtain ⟨hfifo, hslots⟩ := h.finish hcopied rfl
    refine ⟨⟨h1.le, by simpa using h1.size, by simpa using h1.mask⟩, by simpa using h2, fun side => ?_, fun side => ?_,
      fun side => (h5 side).trans ?_, hfifo, by simpa using hslots, by simpa using h8⟩
    · by_cases hside : side = c.side
      · subst hside
        simp [RteRing.tail_setTail, hhead, hlen, UInt32.ofNat_add]
      · simpa [RteRing.tail_setTail, hside] using h3 side
    · by_cases hside : side = c.side
      · subst hside
        simpa [hlen] using htiles
      · simpa [hside] using h4 side
    · exact Nat.add_le_add_right (hgrows _).length_le _
  · refine ⟨rfl, fun _ => le_rfl, fun _ _ _ _ => rfl, hgrows, fun side b m hb => ?_, fun _ _ _ _ _ => by simp,
      fun side b m hb hfirst => ?_⟩
    · by_cases hside : side = c.side
      · subst hside
        rw [Function.update_self]
        rw [hclaims] at hb
        rcases List.mem_cons.1 hb with heq | hb
        · exact absurd (congrArg Claim.owner heq) hi
        · exact hb
      · rwa [Function.update_of_ne hside]
    · by_cases hside : side = c.side
      · -- only the claim of lcore `j` starts at the tail
        subst hside
        obtain ⟨rest', hclaims'⟩ := (h.tiles c.side).eq_cons_of_start hb hfirst
        rw [hclaims] at hclaims'
        exact absurd (congrArg Claim.owner (List.cons.inj hclaims').1).symm hi
      · simp [hside]
  · intro side d hd _
    by_cases hside : side = c.side
    · subst hside
      rw [Function.update_self] at hd
      simp [hclaims, hd]
    · rwa [Function.update_of_ne hside] at hd
  · intro side d hd hdj
    by_cases hside : side = c.side
    · subst hside
      rw [Function.update_self] at hd
      exact absurd hdj (hothers d hd)
    · rw [Function.update_of_ne hside] at hd
      obtain ⟨c', p', hcall, hs, -⟩ := h.owners side d hd
      rw [hdj, hj] at hcall
      cases hcall
      exact absurd hs.symm hside

/-! ### Whole runs -/

theorem Inv.move (h : Inv k mem s claims) (hj : s.calls j = some (c, p)) (hok : s.Recent j c p) :
    ∃ claims', Inv k mem (s.moveAt j c p) claims' := by
  cases p with
  | readHead => exact ⟨claims, h.readHead hj⟩
  | readTail head => exact ⟨claims, h.readTail hj⟩
  | moveHead head limit n =>
    by_cases hif : (c.single || s.ring.head c.side = head) = true
    · obtain ⟨⟨hhead, hle, hsingle⟩, -⟩ := h.knows j c _ hj
      have hseen : s.seen j = s.reserved c.side := by
        cases hc : c.single with
        | true => exact hsingle hc
        | false =>
          simp only [hc, Bool.false_or, decide_eq_true_eq] at hif
          refine ofNat_inj_of_lt ?_ hle (hok hc hif)
          rw [← hhead, ← hif, h.head]
      exact ⟨_, h.reserve hj hseen hif⟩
    · have hs' : s.moveAt j c (.moveHead head limit n) =
          { s with calls := Function.update s.calls j (some (c, .readHead)) } := by
        simp [State.moveAt, Call.move, State.record, hif]
      rw [hs']
      refine ⟨claims, h.quiet hj rfl rfl rfl (fun _ _ => rfl) rfl (fun c' p' hnext => ?_) (fun _ _ hp => hp.elim)⟩
      cases hnext
      exact ⟨rfl, rfl, rfl, trivial⟩
  | copy head limit n rest =>
    cases rest with
    | nil => exact ⟨claims, h.copied hj⟩
    | cons x rest =>
      cases hside : c.side with
      | prod => exact ⟨claims, h.store hj hside⟩
      | cons => exact ⟨claims, h.load hj hside⟩
  | quota head limit n => exact ⟨claims, h.quota hj⟩
  | wait head n ret => exact ⟨claims, h.wait hj⟩
  | moveTail head n ret =>
    obtain ⟨d, rest, -, hnext⟩ := h.moveTail hj
    exact ⟨_, hnext⟩

theorem Inv.call (h : Inv k mem s claims) {d : Call α} (hok : s.Allowed (.call j d)) :
    Inv k mem (s.step (.call j d)) claims := by
  obtain ⟨hnone, hmax, halone⟩ := hok
  rw [Option.isNone_iff_eq_none] at hnone
  have hself : (s.step (.call j d)).calls j = some (d, .readHead) := Function.update_self ..
  have hother : ∀ i, i ≠ j → (s.step (.call j d)).calls i = s.calls i := fun i hi => Function.update_of_ne hi ..
  obtain ⟨h1, h2, h3, h4, h5, h6, h7, h8⟩ := h.toShared
  refine ⟨⟨h1, h2, h3, h4, h5, h6, h7, h8⟩, ?_, ?_, ?_, ?_⟩
  · intro i e q hi
    by_cases hij : i = j
    · subst hij
      cases hself.symm.trans hi
      exact hmax
    · exact h.positive i e q (by rw [← hother i hij, hi])
  · intro a b e q f r hne ha hb hside
    by_cases haj : a = j
    · subst haj
      cases hself.symm.trans ha
      rw [hother b hne.symm] at hb
      exact (halone b _ hb hside.symm).1
    · rw [hother a haj] at ha
      by_cases hbj : b = j
      · subst hbj
        cases hself.symm.trans hb
        exact (halone a _ ha hside).2
      · rw [hother b hbj] at hb
        exact h.alone a b e q f r hne ha hb hside
  · intro side e he
    obtain ⟨c', p', hcall, hs⟩ := h.owners side e he
    have hne : e.owner ≠ j := by
      intro heq
      rw [heq, hnone] at hcall
      cases hcall
    exact ⟨c', p', by rw [hother _ hne, hcall], hs⟩
  · intro i e q hi
    by_cases hij : i = j
    · subst hij
      cases hself.symm.trans hi
      trivial
    · rw [hother i hij] at hi
      exact h.knows i e q hi

omit [DecidableEq ι] in
private theorem Inv.setWaterMark (h : Inv k mem s claims) (count : UInt32) :
    Inv k mem { s with ring := (rteRingSetWaterMark s.ring count).1 } claims := by
  unfold rteRingSetWaterMark
  split
  · exact h
  · obtain ⟨⟨h1, h2, h3, h4, h5, h6, h7, h8⟩, h9, h10, h11, h12⟩ := h
    refine ⟨⟨⟨h1.le, fun side => ?_, h1.mask⟩, fun side => ?_, fun side => ?_, h4, h5, h6, h7, h8⟩, h9, h10, h11, h12⟩
    · have := h1.size side
      cases side <;> exact this
    · have := h2 side
      cases side <;> exact this
    · have := h3 side
      cases side <;> exact this

theorem Inv.step (h : Inv k mem s claims) {e : Event ι α} (hok : s.Allowed e) :
    ∃ claims', Inv k mem (s.step e) claims' := by
  cases e with
  | call i d => exact ⟨claims, h.call hok⟩
  | move i =>
    cases hi : s.calls i with
    | none =>
      refine ⟨claims, ?_⟩
      simpa only [State.step, hi] using h
    | some d =>
      have hmove := h.move hi (hok d hi)
      simpa only [State.step, hi] using hmove
  | setWaterMark count => exact ⟨claims, h.setWaterMark count⟩

omit [DecidableEq ι] in
/-- A ring that nobody uses. -/
private theorem Inv.idle {r : RteRing α} (hsize : r.HasSize k) (hhead : ∀ side, r.head side = 0)
    (htail : ∀ side, r.tail side = 0) : Inv k r.ring (State.idle r : State ι α) fun _ => [] := by
  refine ⟨⟨hsize, hhead, htail, fun _ => rfl, fun _ => Nat.zero_le _, List.prefix_refl _, ?_, fun _ _ => rfl⟩, ?_, ?_, ?_,
    ?_⟩
  · intro p x _ hget
    cases hget
  · intro i c p hi
    cases hi
  · intro i j c p d q _ hi
    cases hi
  · intro side d hd
    cases hd
  · intro i c p hi
    cases hi

theorem CountOk.hasSize {count : UInt32} (hcount : CountOk count) (hpos : count ≠ 0) (mem : Nat → α)
    (flags : UInt32) : ∃ k, count.toNat = 2 ^ k ∧ (rteRingInit mem count flags).HasSize k := by
  obtain ⟨hpow, hle⟩ := hcount
  have hne : count.toNat ≠ 0 := fun h => hpos (UInt32.toNat_inj.1 h)
  have hone : (1 : UInt32) ≤ count := UInt32.le_iff_toNat_le.2 (Nat.one_le_iff_ne_zero.2 hne)
  have hpred : (count - 1).toNat = count.toNat - 1 := UInt32.toNat_sub_of_le _ _ hone
  have hand := congrArg UInt32.toNat hpow
  rw [UInt32.toNat_and, hpred, Nat.and_comm] at hand
  obtain ⟨k, hk⟩ := exists_pow_of_and_pred hne hand
  have hsmall : count.toNat ≤ rteRingSzMask.toNat := by
    rw [UInt32.lt_iff_toNat_lt] at hle
    exact Nat.le_of_not_lt hle
  have hk27 : k ≤ 27 := by
    by_contra hgt
    have hbig : 2 ^ 28 ≤ 2 ^ k := Nat.pow_le_pow_right (by decide) (by omega)
    have hszmask : rteRingSzMask.toNat = 2 ^ 28 - 1 := rfl
    omega
  refine ⟨k, hk, hk27, fun side => ?_, ?_⟩
  · cases side <;> exact hk
  · have : (rteRingInit mem count flags).prod.mask = count - 1 := rfl
    rw [this, ← hk, ← hpred, UInt32.ofNat_toNat]

/-- What every allowed run from a fresh ring keeps up. -/
theorem exists_inv {count flags : UInt32} {es : List (Event ι α)} (hcount : CountOk count) (hpos : count ≠ 0)
    (hok : Along State.step State.Allowed (State.idle (rteRingInit mem count flags)) es) :
    ∃ k claims, count.toNat = 2 ^ k ∧ Inv k mem (State.after (rteRingInit mem count flags) es) claims := by
  obtain ⟨k, hk, hsize⟩ := hcount.hasSize hpos mem flags
  have hidle : Inv k mem (State.idle (rteRingInit mem count flags) : State ι α) fun _ => [] :=
    Inv.idle hsize (fun side => by cases side <;> rfl) (fun side => by cases side <;> rfl)
  have hrun := Along.invariant (I := fun s => ∃ claims, Inv k mem s claims)
    (fun ⟨_, h⟩ hallows => h.step hallows) ⟨_, hidle⟩ hok es.length
  rw [List.take_length] at hrun
  obtain ⟨claims, h⟩ := hrun
  exact ⟨k, claims, hk, h⟩

omit [DecidableEq ι] in
/-- What is in the ring is what has been put in and not been taken out yet. -/
theorem Shared.contents (h : Shared k mem s claims) :
    s.done .cons ++ s.ring.contents = s.done .prod ∧ s.ring.contents.length ≤ 2 ^ k - 1 := by
  have hspan := h.room .prod
  have htiles := (h.tiles .prod).le
  have hk := two_pow_lt h.size.le
  have hpow := Nat.two_pow_pos k
  have hfifo := h.fifo.length_le
  simp only [Side.other, Side.room] at hspan
  have hprod : s.ring.prod.tail = UInt32.ofNat (s.done .prod).length := h.tail .prod
  have hcons : s.ring.cons.tail = UInt32.ofNat (s.done .cons).length := h.tail .cons
  have hmask : s.ring.prod.mask.toNat = 2 ^ k - 1 := by
    rw [h.size.mask]
    exact toNat_ofNat_of_lt (by omega)
  have hcount : (rteRingCount s.ring).toNat = (s.done .prod).length - (s.done .cons).length := by
    have hsub := toNat_ofNat_sub hfifo (by omega)
    rw [← hprod, ← hcons] at hsub
    rw [rteRingCount, UInt32.toNat_and, hsub, hmask, Nat.and_two_pow_sub_one_eq_mod, Nat.mod_eq_of_lt (by omega)]
  have hlen : s.ring.contents.length = (s.done .prod).length - (s.done .cons).length := by
    rw [RteRing.contents, List.length_map, List.length_range, hcount]
  refine ⟨?_, by omega⟩
  obtain ⟨l, hl⟩ := h.fifo
  have hllen : (s.done .cons).length + l.length = (s.done .prod).length := by rw [← hl, List.length_append]
  rw [← hl]
  congr 1
  apply List.ext_getElem (by omega)
  intro i h1 h2
  have hget : (s.done .prod)[(s.done .cons).length + i]? = some l[i] := by
    rw [← hl, List.getElem?_append_right (Nat.le_add_right _ _), Nat.add_sub_cancel_left, List.getElem?_eq_getElem]
  simp only [RteRing.contents, List.getElem_map, List.getElem_range]
  rw [hcons, ← UInt32.ofNat_add, toNat_and_mask (by have := h.size.le; omega) hmask]
  exact h.slots _ _ (Nat.le_add_right _ _) hget

/-- Whatever allowed calls run at the same time, what has been taken out followed by what is in the ring is what has been
put in; there are fewer objects in it than it has places; and nothing is stored behind its last place. -/
theorem ring_fifo (mem : Nat → α) {count : UInt32} (flags : UInt32) (hcount : CountOk count) (hpos : count ≠ 0)
    (es : List (Event ι α)) (hok : Along State.step State.Allowed (State.idle (rteRingInit mem count flags)) es) :
    (State.after (rteRingInit mem count flags) es).done .cons ++
        (State.after (rteRingInit mem count flags) es).ring.contents =
      (State.after (rteRingInit mem count flags) es).done .prod ∧
    (State.after (rteRingInit mem count flags) es).ring.contents.length < count.toNat ∧
    ∀ j, count.toNat ≤ j → (State.after (rteRingInit mem count flags) es).ring.ring j = mem j := by
  obtain ⟨k, claims, hk, h⟩ := exists_inv hcount hpos hok
  obtain ⟨hqueue, hlen⟩ := h.contents
  have hpow := Nat.two_pow_pos k
  exact ⟨hqueue, by omega, fun j hj => h.outside j (by omega)⟩

end

/-- Two lcores enqueue at the same time, and the one that started last claims its places first; then one of them
dequeues. -/
def overlapping : List (Event Bool Nat) :=
  [.call false (mpDoEnqueue (fun i => 7 + i) 2 .variable), .call true (mpDoEnqueue (fun i => 9 + i) 1 .fixed),
    .move false, .move true, .move false, .move true, .move true] ++ List.replicate 9 (.move false) ++
  List.replicate 5 (.move true) ++ List.replicate 2 (.move false) ++
  .call true (mcDoDequeue (fun _ => 0) 2 .fixed) :: List.replicate 8 (.move true)

theorem overlapping_fifo :
    (State.after (rteRingInit (fun _ => 0) 4 0) overlapping).done .cons = [9, 7] ∧
    (State.after (rteRingInit (fun _ => 0) 4 0) overlapping).done .cons ++
        (State.after (rteRingInit (fun _ => 0) 4 0) overlapping).ring.contents =
      (State.after (rteRingInit (fun _ => 0) 4 0) overlapping).done .prod :=
  ⟨by decide +kernel, (ring_fifo (fun _ => 0) 0 (by decide) (by decide) overlapping (by decide +kernel)).1⟩

end SoftPatchPanel.Ring

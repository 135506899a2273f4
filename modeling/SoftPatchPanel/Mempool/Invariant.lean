import SoftPatchPanel.Mempool.Calls
import SoftPatchPanel.Ring.Client
import SoftPatchPanel.Lib.Places

/-!
# The invariant of a pool

The objects of a pool are in the ring, in the caches, on their way to the ring or in the hands of the users.  A thread only
touches its own cache and its own call of the ring, so a step is right when it balances what this thread has
(`Inv.of_moves`).
-/

namespace SoftPatchPanel.Mempool

open Lib SoftPatchPanel.Ring

/-! ### Caches -/

section

variable {α : Type}

theorem copyInto_apply (objs : Nat → α) (start : Nat) (table : Nat → α) (n x : Nat) :
    copyInto objs start table n x = if start ≤ x ∧ x < start + n then table (x - start) else objs x := by
  induction n with
  | zero =>
    rw [if_neg (by omega)]
    rfl
  | succ n ih =>
    rw [copyInto]
    by_cases hx : x = start + n
    · subst hx
      rw [Function.update_self, if_pos (by omega), Nat.add_sub_cancel_left]
    · rw [Function.update_of_ne hx, ih]
      refine if_congr ?_ rfl rfl
      omega

/-- The first objects of a cache, then the others. -/
theorem Cache.objects_split (cache : Cache α) {m : UInt32} (hm : m.toNat ≤ cache.len.toNat) :
    cache.objects = Cache.objects { cache with len := m } ++
      (List.range (cache.len.toNat - m.toNat)).map fun x => cache.objs (m.toNat + x) := by
  obtain ⟨d, hd⟩ := Nat.exists_eq_add_of_le hm
  simp only [Cache.objects, hd, Nat.add_sub_cancel_left, List.range_add, List.map_append, List.map_map,
    Function.comp_def]

theorem Cache.objects_add (cache : Cache α) (objTable : Nat → α) {n : UInt32}
    (hn : cache.len.toNat + n.toNat < 2 ^ 32) :
    (cache.add objTable n).objects = cache.objects ++ (List.range n.toNat).map objTable := by
  have hlen : (cache.len + n).toNat = cache.len.toNat + n.toNat := by
    rw [UInt32.toNat_add]
    exact Nat.mod_eq_of_lt hn
  simp only [Cache.objects, Cache.add, hlen, List.range_add, List.map_append, List.map_map]
  congr 1
  · refine List.map_congr_left fun x hx => ?_
    rw [copyInto_apply, if_neg]
    have := List.mem_range.1 hx
    omega
  · refine List.map_congr_left fun x hx => ?_
    have := List.mem_range.1 hx
    rw [Function.comp_apply, copyInto_apply, if_pos (by omega), Nat.add_sub_cancel_left]

/-- What a cache hands out is taken from its end. -/
theorem Cache.response_perm (cache : Cache α) {n : UInt32} (hn : n.toNat ≤ cache.len.toNat) :
    (cache.objects : Multiset α) =
      Cache.objects { cache with len := cache.len - n } + (cache.response n : Multiset α) := by
  have hlen : (cache.len - n).toNat = cache.len.toNat - n.toNat :=
    UInt32.toNat_sub_of_le _ _ (UInt32.le_iff_toNat_le.2 hn)
  rw [cache.objects_split (m := cache.len - n) (by omega), ← Multiset.coe_add, hlen]
  congr 1
  rw [Multiset.coe_eq_coe]
  have hreverse : cache.response n =
      ((List.range (cache.len.toNat - (cache.len.toNat - n.toNat))).map fun x =>
        cache.objs (cache.len.toNat - n.toNat + x)).reverse := by
    have hcount : cache.len.toNat - (cache.len.toNat - n.toNat) = n.toNat := by omega
    rw [hcount]
    apply List.ext_getElem (by simp [Cache.response])
    intro i h1 h2
    simp only [Cache.response, List.length_map, List.length_range] at h1
    have hlt := cache.len.toNat_lt
    have hone : (cache.len - 1).toNat = cache.len.toNat - 1 :=
      UInt32.toNat_sub_of_le _ _ (UInt32.le_iff_toNat_le.2 (by
        rw [UInt32.toNat_one]
        omega))
    have hofNat : (UInt32.ofNat i).toNat = i := toNat_ofNat_of_lt (by omega)
    have hindex : (cache.len - 1 - UInt32.ofNat i).toNat = cache.len.toNat - 1 - i := by
      rw [UInt32.toNat_sub_of_le, hone, hofNat]
      rw [UInt32.le_iff_toNat_le, hone, hofNat]
      omega
    simp only [Cache.response, List.getElem_map, List.getElem_range, List.getElem_reverse, List.length_map,
      List.length_range, hindex]
    congr 1
    omega
  rw [hreverse]
  exact (List.reverse_perm _).symm

end

/-! ### The invariant -/

section

variable {ι α : Type}

/-- The objects that a thread puts into the ring from a table of its own. -/
def Pool.onWay (p : Pool ι α) (i : ι) : List α :=
  match p.rest i, p.ring.calls i with
  | some .put, some (c, _) => c.objects c.max
  | _, _ => []

/-- The objects in the caches. -/
def Pool.inCaches (p : Pool ι α) : Multiset α :=
  ∑ lcore ∈ Finset.range rteMaxLcore, ((p.localCache lcore).objects : Multiset α)

/-- What a thread relies on while it is inside of the call `c` of the ring. -/
def Pool.Waits (p : Pool ι α) (lcore : Nat) (c : Call α) : Rest α → Prop
  | .put => c.side = .prod
  | .flush =>
    lcore < rteMaxLcore ∧ p.cacheSize.toNat ≤ (p.localCache lcore).len.toNat ∧
      c = mpDoEnqueue (fun x => (p.localCache lcore).objs (p.cacheSize.toNat + x))
        ((p.localCache lcore).len - p.cacheSize) .fixed
  | .backfill _ n =>
    lcore < rteMaxLcore ∧ (p.localCache lcore).len < n ∧ n < p.cacheSize ∧ c.side = .cons ∧ c.single = false ∧
      c.max = n + (p.cacheSize - (p.localCache lcore).len) ∧
      ∀ x, c.max.toNat ≤ x → c.table x = (p.localCache lcore).objs ((p.localCache lcore).len.toNat + x)
  | .get => c.side = .cons

/-- A thread is inside of a call of the ring exactly when it has something to do behind it. -/
def Pool.NextOk (p : Pool ι α) (lcore : Nat) : Option (Rest α) → Option (Call α × Place) → Prop
  | none, none => True
  | some rest, some (c, q) => c.behavior = .fixed ∧ q.Bulk c ∧ p.Waits lcore c rest
  | _, _ => False

/-- A get is all or nothing. -/
def Got.Ok (g : Got α) : Prop := g.ret = 0 ∧ g.objs.length = g.n.toNat ∨ g.ret = -enoent ∧ g.objs = []

/-- The number of objects in a cache, which exceeds the threshold only while its thread flushes it. -/
def Pool.LenOk (p : Pool ι α) (rest : Option (Rest α)) (cache : Cache α) : Prop :=
  cache.len.toNat ≤ p.cacheFlushthresh.toNat ∨
    rest = some .flush ∧ cache.len.toNat ≤ p.cacheFlushthresh.toNat + rteMempoolCacheMaxSize.toNat

variable (lcoreId : ι → Nat)

/-- The invariant of a pool of the objects `objs`. -/
structure Inv [Fintype ι] (k : Nat) (mem : Nat → α) (cacheMem : Nat → Nat → α) (objs : Multiset α) (p : Pool ι α) :
    Prop where
  ring : ∃ claims, Ring.Inv k mem p.ring claims
  bulk : ∀ i c q, p.ring.calls i = some (c, q) → c.behavior = .fixed ∧ q.Bulk c
  idle : ∀ i, p.rest i = none → p.ring.calls i = none
  waits : ∀ i rest, p.rest i = some rest → ∃ c q, p.ring.calls i = some (c, q) ∧ p.Waits (lcoreId i) c rest
  cacheSize : p.cacheSize.toNat ≤ 512 ∧ p.cacheSize.toNat ≠ 1
  flushthresh : p.cacheFlushthresh.toNat = p.cacheSize.toNat * 3 / 2
  unused : ∀ l, (∀ i, lcoreId i ≠ l) → (p.localCache l).len.toNat ≤ p.cacheFlushthresh.toNat
  lens : ∀ i, p.LenOk (p.rest i) (p.localCache (lcoreId i))
  beyond : ∀ l x, cacheRoom ≤ x → (p.localCache l).objs x = cacheMem l x
  got : ∀ i, ∀ g ∈ p.got i, g.Ok
  size : p.size.toNat = objs.card
  total : objs.card ≤ 2 ^ k - 1
  balance : objs + (p.ring.done .cons : Multiset α) =
    (p.ring.done .prod : Multiset α) + p.held + p.inCaches + ∑ i, (p.onWay i : Multiset α)

variable [DecidableEq ι] {lcoreId} {k : Nat} {mem : Nat → α} {cacheMem : Nat → Nat → α} {objs : Multiset α}
  {p p' : Pool ι α} {i : ι}

omit [DecidableEq ι] in
/-- A change of one cache, among all of them. -/
private theorem Pool.inCaches_update {l : Nat} {cache : Cache α}
    (hcache : p'.localCache = Function.update p.localCache l cache) (hl : l < rteMaxLcore ∨ cache = p.localCache l) :
    p'.inCaches + ((p.localCache l).objects : Multiset α) = p.inCaches + (cache.objects : Multiset α) := by
  by_cases hmax : l < rteMaxLcore
  · have hsum := sum_add_eq_sum_add (f := fun x => ((p.localCache x).objects : Multiset α))
      (g := fun x => ((p'.localCache x).objects : Multiset α)) (Finset.mem_range.2 hmax)
      (fun x hx => by simp only [hcache, Function.update_of_ne hx])
    have hself : p'.localCache l = cache := by rw [hcache, Function.update_self]
    rw [Pool.inCaches, Pool.inCaches, hsum, hself]
  · obtain rfl := hl.resolve_left hmax
    rw [Function.update_eq_self] at hcache
    rw [Pool.inCaches, Pool.inCaches, hcache]

/-- A thread that has changed its call, its cache and its own part of the objects. -/
structure Pool.Moves (p p' : Pool ι α) (lcore : Nat) (i : ι) (next : Option (Call α × Place)) (rest : Option (Rest α))
    (cache : Cache α) : Prop where
  calls : p'.ring.calls = Function.update p.ring.calls i next
  rest : p'.rest = Function.update p.rest i rest
  localCache : p'.localCache = Function.update p.localCache lcore cache
  cacheSize : p'.cacheSize = p.cacheSize
  flushthresh : p'.cacheFlushthresh = p.cacheFlushthresh
  size : p'.size = p.size
  lcore : lcore < rteMaxLcore ∨ cache = p.localCache lcore

private theorem Pool.sum_onWay_update [Fintype ι] {next : Option (Call α × Place)} {rest : Option (Rest α)}
    {cache : Cache α}
    {l : Nat} (h : p.Moves p' l i next rest cache) :
    ∑ j, (p'.onWay j : Multiset α) + (p.onWay i : Multiset α) =
      ∑ j, (p.onWay j : Multiset α) + (p'.onWay i : Multiset α) := by
  refine sum_add_eq_sum_add (f := fun j => (p.onWay j : Multiset α)) (g := fun j => (p'.onWay j : Multiset α))
    (Finset.mem_univ i) fun j hj => ?_
  simp only [Pool.onWay, h.calls, h.rest, Function.update_of_ne hj]

omit [DecidableEq ι] in
private theorem Pool.Waits.frame {l : Nat} {c : Call α} {rest : Rest α} (h : p.Waits l c rest)
    (hcache : l < rteMaxLcore → p'.localCache l = p.localCache l) (hsize : p'.cacheSize = p.cacheSize) :
    p'.Waits l c rest := by
  cases rest with
  | put | get => exact h
  | flush =>
    simp only [Pool.Waits, hcache h.1, hsize]
    exact h
  | backfill objTable n =>
    simp only [Pool.Waits, hcache h.1, hsize]
    exact h

/-- A step of thread `i`, put together from what it does to the ring, to its cache and to its objects. -/
theorem Inv.of_moves [Fintype ι] (h : Inv lcoreId k mem cacheMem objs p)
    (hlcores : ∀ i j, lcoreId i = lcoreId j → lcoreId i < rteMaxLcore → i = j)
    (next : Option (Call α × Place)) (rest : Option (Rest α)) (cache : Cache α)
    (hmoves : p.Moves p' (lcoreId i) i next rest cache) (hring : ∃ claims, Ring.Inv k mem p'.ring claims)
    (hnext : p'.NextOk (lcoreId i) rest next)
    (hlen : p.LenOk rest cache) (hbeyond : ∀ x, cacheRoom ≤ x → cache.objs x = cacheMem (lcoreId i) x)
    (hgot : ∀ j, ∀ g ∈ p'.got j, g.Ok)
    (hbalance : (p.ring.done .cons : Multiset α) +
        ((p'.ring.done .prod : Multiset α) + p'.held + (cache.objects : Multiset α) + (p'.onWay i : Multiset α)) =
      (p'.ring.done .cons : Multiset α) +
        ((p.ring.done .prod : Multiset α) + p.held + ((p.localCache (lcoreId i)).objects : Multiset α) +
          (p.onWay i : Multiset α))) :
    Inv lcoreId k mem cacheMem objs p' := by
  have hself : p'.ring.calls i = next := by rw [hmoves.calls, Function.update_self]
  have hother : ∀ j, j ≠ i → p'.ring.calls j = p.ring.calls j := fun j hj => by
    rw [hmoves.calls, Function.update_of_ne hj]
  have hrest : p'.rest i = rest := by rw [hmoves.rest, Function.update_self]
  have hothers : ∀ j, j ≠ i → p'.rest j = p.rest j := fun j hj => by rw [hmoves.rest, Function.update_of_ne hj]
  have hmine : p'.localCache (lcoreId i) = cache := by rw [hmoves.localCache, Function.update_self]
  have hcaches : ∀ l, l ≠ lcoreId i → p'.localCache l = p.localCache l := fun l hl => by
    rw [hmoves.localCache, Function.update_of_ne hl]
  have hlenOk : ∀ rest cache, p.LenOk rest cache → p'.LenOk rest cache := by
    intro rest cache hok
    simpa only [Pool.LenOk, hmoves.flushthresh] using hok
  refine
    { ring := hring, bulk := ?_, idle := ?_, waits := ?_, cacheSize := by rw [hmoves.cacheSize]; exact h.cacheSize,
      flushthresh := by rw [hmoves.flushthresh, hmoves.cacheSize, h.flushthresh], unused := ?_, lens := ?_,
      beyond := ?_, got := hgot, size := by rw [hmoves.size]; exact h.size, total := h.total, balance := ?_ }
  · intro j c q hj
    by_cases hji : j = i
    · subst hji
      obtain rfl := hself.symm.trans hj
      cases rest with
      | none => exact hnext.elim
      | some rest => exact ⟨hnext.1, hnext.2.1⟩
    · rw [hother j hji] at hj
      exact h.bulk j c q hj
  · intro j hj
    by_cases hji : j = i
    · subst hji
      obtain rfl := hrest.symm.trans hj
      cases next with
      | none => exact hself
      | some x => exact hnext.elim
    · rw [hothers j hji] at hj
      rw [hother j hji]
      exact h.idle j hj
  · intro j rest' hj
    by_cases hji : j = i
    · subst hji
      obtain rfl := hrest.symm.trans hj
      cases next with
      | none => exact hnext.elim
      | some x => exact ⟨x.1, x.2, hself, hnext.2.2⟩
    · rw [hothers j hji] at hj
      obtain ⟨c, q, hcall, hwaits⟩ := h.waits j rest' hj
      refine ⟨c, q, (hother j hji).trans hcall, hwaits.frame (fun hmax => hcaches _ fun heq => ?_) hmoves.cacheSize⟩
      exact hji (hlcores j i heq hmax)
  · intro l hl
    rw [hcaches l fun heq => hl i heq.symm, hmoves.flushthresh]
    exact h.unused l hl
  · intro j
    by_cases hl : lcoreId j = lcoreId i
    · by_cases hji : j = i
      · subst hji
        rw [hrest, hmine]
        exact hlenOk _ _ hlen
      · -- threads without a cache of their own leave all caches alone
        have hmax : ¬lcoreId i < rteMaxLcore := fun hmax => hji (hlcores j i hl (hl ▸ hmax))
        have hsame := hmoves.lcore.resolve_left hmax
        rw [hothers j hji, hl, hmine, hsame, ← hl]
        exact hlenOk _ _ (h.lens j)
    · have hji : j ≠ i := fun heq => hl (by rw [heq])
      rw [hothers j hji, hcaches _ hl]
      exact hlenOk _ _ (h.lens j)
  · intro l x hx
    by_cases hl : l = lcoreId i
    · subst hl
      rw [hmine]
      exact hbeyond x hx
    · rw [hcaches l hl]
      exact h.beyond l x hx
  · have hcache := Pool.inCaches_update hmoves.localCache hmoves.lcore
    have hway := Pool.sum_onWay_update hmoves
    have hold := h.balance
    generalize (∑ j, (p'.onWay j : Multiset α)) = ways' at *
    generalize (∑ j, (p.onWay j : Multiset α)) = ways at *
    generalize (p.onWay i : Multiset α) = way at *
    generalize (p'.onWay i : Multiset α) = way' at *
    generalize ((p.localCache (lcoreId i)).objects : Multiset α) = own at *
    generalize (cache.objects : Multiset α) = own' at *
    apply add_right_cancel (b := (p.ring.done .cons : Multiset α) + own + way)
    calc objs + (p'.ring.done .cons : Multiset α) + ((p.ring.done .cons : Multiset α) + own + way)
        = objs + (p.ring.done .cons : Multiset α) + ((p'.ring.done .cons : Multiset α) + own + way) := by abel
      _ = (p'.ring.done .cons : Multiset α) + ((p.ring.done .prod : Multiset α) + p.held + own + way) + p.inCaches + ways := by
          rw [hold]
          abel
      _ = (p.ring.done .cons : Multiset α) + ((p'.ring.done .prod : Multiset α) + p'.held) + (p.inCaches + own') +
            (ways + way') := by
          rw [← hbalance]
          abel
      _ = _ := by
          rw [← hcache, ← hway]
          abel

end

end SoftPatchPanel.Mempool

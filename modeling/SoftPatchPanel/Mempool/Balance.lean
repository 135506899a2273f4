import SoftPatchPanel.Mempool.Invariant

/-!
# No object of a pool is lost

In every state of every run, the objects in the ring, in the caches and on their way to the ring, together with those that
the users hold, are the objects the pool was made of (`pool_balance`).  `__mempool_put_bulk` does not look at the result of
the ring, and need not: the ring has room for all objects of the pool, so an enqueue is never refused.  A cache never has
more objects than its array has room for.

With a cache of one object, `__mempool_put_bulk` would call the ring for no objects at all, and such a call may take back
what other threads have put into the ring at the same time.
-/

namespace SoftPatchPanel.Mempool

open Lib SoftPatchPanel.Ring

section

variable {ι α : Type} [DecidableEq ι] {lcoreId : ι → Nat} {k : Nat} {mem : Nat → α} {cacheMem : Nat → Nat → α}
  {objs : Multiset α} {p p' : Pool ι α} {i : ι}

/-! ### Putting and getting -/

variable [Fintype ι] (hlcores : ∀ i j, lcoreId i = lcoreId j → lcoreId i < rteMaxLcore → i = j)

/-- A call of the ring is started by a thread that is in no other one. -/
private theorem Inv.call (h : Inv lcoreId k mem cacheMem objs p) {c : Call α} (hnone : p.ring.calls i = none)
    (hmax : 0 < c.max)
    (halone : ∀ j, ∀ d ∈ p.ring.calls j, d.1.side = c.side → c.single = false ∧ d.1.single = false) :
    ∃ claims, Ring.Inv k mem (p.ring.step (.call i c)) claims := by
  obtain ⟨claims, hring⟩ := h.ring
  exact ⟨claims, hring.call ⟨by simp [hnone], hmax, halone⟩⟩

omit [DecidableEq ι] in
private theorem Inv.len_le (h : Inv lcoreId k mem cacheMem objs p) (hnone : p.rest i = none) :
    (p.localCache (lcoreId i)).len.toNat ≤ p.cacheSize.toNat * 3 / 2 := by
  have hlen := h.lens i
  rw [hnone, Pool.LenOk, h.flushthresh] at hlen
  simpa using hlen

omit [DecidableEq ι] [Fintype ι] in
private theorem Pool.onWay_of_none (hnone : p.rest i = none) : p.onWay i = [] := by
  simp [Pool.onWay, hnone]

omit [DecidableEq ι] in
/-- A cache that its thread does not flush has room for as many objects as are put into it. -/
private theorem Inv.cache_add (h : Inv lcoreId k mem cacheMem objs p) (hrest : p.rest i = none) (objTable : Nat → α)
    {n : UInt32}
    (hn : n.toNat ≤ 512) :
    ((p.localCache (lcoreId i)).add objTable n).len.toNat = (p.localCache (lcoreId i)).len.toNat + n.toNat ∧
    ((p.localCache (lcoreId i)).add objTable n).objects =
      (p.localCache (lcoreId i)).objects ++ (List.range n.toNat).map objTable ∧
    ∀ x, cacheRoom ≤ x → ((p.localCache (lcoreId i)).add objTable n).objs x = cacheMem (lcoreId i) x := by
  have hlen := h.len_le hrest
  have hcs := h.cacheSize
  have hroom : cacheRoom = 1536 := rfl
  refine ⟨?_, Cache.objects_add _ _ (by omega), fun x hx => ?_⟩
  · rw [Cache.add, UInt32.toNat_add]
    exact Nat.mod_eq_of_lt (by omega)
  · rw [← h.beyond (lcoreId i) x hx, Cache.add]
    simp only
    rw [copyInto_apply, if_neg (by omega)]

section

variable {objTable : Nat → α} {n : UInt32} {kept : Multiset α} (hrest : p.rest i = none) (hn : 0 < n)
  (hkept : p.held = ((List.range n.toNat).map objTable : List α) + kept)
  (halone : ∀ j, ∀ d ∈ p.ring.calls j, d.1.side = .prod → d.1.single = false)

include hlcores hrest hn hkept halone in
/-- Objects that go straight to the ring. -/
private theorem Inv.put_ring (h : Inv lcoreId k mem cacheMem objs p) {c : Call α} (hside : c.side = .prod)
    (hfixed : c.behavior = .fixed) (hmax : c.max = n) (htable : c.table = objTable)
    (hsingle : ∀ j, ∀ d ∈ p.ring.calls j, d.1.side = .prod → c.single = false) :
    Inv lcoreId k mem cacheMem objs (Pool.enter { p with held := kept } i c .put) := by
  have hlen := h.len_le hrest
  rw [← h.flushthresh] at hlen
  refine h.of_moves hlcores _ (some .put) _ ⟨rfl, rfl, (Function.update_eq_self _ _).symm, rfl, rfl, rfl, .inr rfl⟩
    (h.call (h.idle i hrest) (hmax ▸ hn) fun j d hd hd' => ?_) ⟨hfixed, trivial, hside⟩ (.inl hlen)
    (fun x hx => h.beyond _ x hx) h.got ?_
  · exact ⟨hsingle j d hd (hd'.trans hside), halone j d hd (hd'.trans hside)⟩
  · have hnew : (Pool.enter { p with held := kept } i c .put).onWay i = (List.range n.toNat).map objTable := by
      simp [Pool.onWay, Pool.enter, Ring.State.step, Call.objects, hmax, htable]
    rw [hnew, Pool.onWay_of_none hrest, hkept]
    simp only [Pool.enter, Ring.State.step, Multiset.coe_nil, add_zero]
    abel

variable (hlcore : lcoreId i < rteMaxLcore) (hsmall : n.toNat ≤ 512)

include hlcores hrest hkept hlcore hsmall in
/-- Objects that stay in the cache. -/
private theorem Inv.put_cache (h : Inv lcoreId k mem cacheMem objs p)
    (hflush : ¬p.cacheFlushthresh ≤ ((p.localCache (lcoreId i)).add objTable n).len) :
    Inv lcoreId k mem cacheMem objs
      (Pool.setCache { p with held := kept } (lcoreId i) ((p.localCache (lcoreId i)).add objTable n)) := by
  obtain ⟨hadd, hobjects, hbeyond⟩ := h.cache_add hrest objTable hsmall
  rw [UInt32.le_iff_toNat_le, hadd] at hflush
  refine h.of_moves hlcores none none _ ⟨?_, ?_, rfl, rfl, rfl, rfl, .inl hlcore⟩ h.ring trivial (.inl ?_) hbeyond h.got ?_
  · rw [← h.idle i hrest, Function.update_eq_self]
    rfl
  · rw [← hrest, Function.update_eq_self]
    rfl
  · rw [hadd]
    omega
  · have hnew : (Pool.setCache { p with held := kept } (lcoreId i)
        ((p.localCache (lcoreId i)).add objTable n)).onWay i = [] := Pool.onWay_of_none hrest
    rw [hnew, Pool.onWay_of_none hrest, hkept, hobjects, ← Multiset.coe_add]
    simp only [Pool.setCache, Multiset.coe_nil, add_zero]
    abel

include hlcores hrest hkept halone hlcore hsmall in
/-- Objects that make the cache overflow: everything above its size goes on to the ring. -/
private theorem Inv.put_flush (h : Inv lcoreId k mem cacheMem objs p) (hcache : p.cacheSize ≠ 0)
    (hflush : p.cacheFlushthresh ≤ ((p.localCache (lcoreId i)).add objTable n).len) :
    Inv lcoreId k mem cacheMem objs
      (Pool.enter (Pool.setCache { p with held := kept } (lcoreId i) ((p.localCache (lcoreId i)).add objTable n)) i
        (mpDoEnqueue (fun x => ((p.localCache (lcoreId i)).add objTable n).objs (p.cacheSize.toNat + x))
          (((p.localCache (lcoreId i)).add objTable n).len - p.cacheSize) .fixed) .flush) := by
  obtain ⟨hadd, hobjects, hbeyond⟩ := h.cache_add hrest objTable hsmall
  have hlen := h.len_le hrest
  have hcs := h.cacheSize
  have hmax : rteMempoolCacheMaxSize.toNat = 512 := rfl
  rw [UInt32.le_iff_toNat_le, h.flushthresh, hadd] at hflush
  have hne : p.cacheSize.toNat ≠ 0 := fun h0 => hcache (UInt32.toNat_inj.1 h0)
  -- the threshold is above the size, unless the size is one
  have hsub : (((p.localCache (lcoreId i)).add objTable n).len - p.cacheSize).toNat =
      (p.localCache (lcoreId i)).len.toNat + n.toNat - p.cacheSize.toNat := by
    rw [UInt32.toNat_sub_of_le, hadd]
    rw [UInt32.le_iff_toNat_le, hadd]
    omega
  refine h.of_moves hlcores _ (some .flush) _ ⟨rfl, rfl, rfl, rfl, rfl, rfl, .inl hlcore⟩
    (h.call (h.idle i hrest) (UInt32.lt_iff_toNat_lt.2 ?_) fun j d hd hd' => ⟨rfl, halone j d hd hd'⟩)
    ⟨rfl, trivial, ?_⟩ (.inr ⟨rfl, ?_⟩) hbeyond h.got ?_
  · simp only [mpDoEnqueue, hsub]
    rw [UInt32.toNat_zero]
    omega
  · simp only [Pool.Waits, Pool.enter, Pool.setCache, Function.update_self, hadd, and_true]
    exact ⟨hlcore, by omega⟩
  · rw [h.flushthresh, hadd]
    omega
  · have hnew : Pool.onWay (Pool.enter (Pool.setCache { p with held := kept } (lcoreId i)
        ((p.localCache (lcoreId i)).add objTable n)) i
          (mpDoEnqueue (fun x => ((p.localCache (lcoreId i)).add objTable n).objs (p.cacheSize.toNat + x))
            (((p.localCache (lcoreId i)).add objTable n).len - p.cacheSize) .fixed) .flush) i = [] := by
      simp [Pool.onWay, Pool.enter]
    rw [hnew, Pool.onWay_of_none hrest, hkept, hobjects, ← Multiset.coe_add]
    simp only [Pool.enter, Pool.setCache, Ring.State.step, Multiset.coe_nil, add_zero]
    abel

end

include hlcores in
private theorem Inv.put [DecidableEq α] (h : Inv lcoreId k mem cacheMem objs p) {objTable : Nat → α} {n : UInt32}
    {isMp : Bool}
    (hok : p.Allowed (.put i objTable n isMp)) :
    Inv lcoreId k mem cacheMem objs (p.step lcoreId (.put i objTable n isMp)) := by
  obtain ⟨hrest, hn, hheld, halone⟩ := hok
  rw [Option.isNone_iff_eq_none] at hrest
  -- what the users hold besides the objects that are put
  obtain ⟨kept, hkept⟩ := Multiset.le_iff_exists_add.1 hheld
  have hleft : p.held - ((List.range n.toNat).map objTable : List α) = kept := by
    rw [hkept, add_comm, Multiset.add_sub_cancel_right]
  have hmulti : ∀ j, ∀ d ∈ p.ring.calls j, d.1.side = .prod → d.1.single = false :=
    fun j d hd hd' => (halone j d hd hd').2
  simp only [Pool.step, Pool.mempoolPutBulk, hleft]
  by_cases hdirect : p.cacheSize = 0 ∨ isMp = false ∨ rteMaxLcore ≤ lcoreId i ∨ rteMempoolCacheMaxSize < n
  · rw [if_pos hdirect]
    cases isMp with
    | true => exact h.put_ring hlcores hrest hn hkept hmulti rfl rfl rfl rfl fun _ _ _ _ => rfl
    | false =>
      exact h.put_ring hlcores hrest hn hkept hmulti rfl rfl rfl rfl
        fun j d hd hd' => absurd (halone j d hd hd').1 (by decide)
  · rw [if_neg hdirect]
    simp only [not_or, Bool.not_eq_false, not_le] at hdirect
    obtain ⟨hcache, -, hlcore, hsmall⟩ := hdirect
    have hsmall : n.toNat ≤ 512 := Nat.le_of_not_lt fun hlt => hsmall (UInt32.lt_iff_toNat_lt.2 hlt)
    split_ifs with hflush
    · exact h.put_flush hlcores hrest hkept hmulti hlcore hsmall hcache hflush
    · exact h.put_cache hlcores hrest hkept hlcore hsmall hflush

include hlcores in
/-- The end of a get from the cache, after a call of the ring has filled it up or not. -/
private theorem Inv.respond (h : Inv lcoreId k mem cacheMem objs p) (hlcore : lcoreId i < rteMaxLcore)
    (ring : Ring.State ι α) (cache : Cache α) {n : UInt32} (hring : ∃ claims, Ring.Inv k mem ring claims)
    (hcalls : ring.calls = Function.update p.ring.calls i none) (hprod : ring.done .prod = p.ring.done .prod)
    (hn : n.toNat ≤ cache.len.toNat) (hlen : cache.len.toNat ≤ n.toNat + p.cacheFlushthresh.toNat)
    (hbeyond : ∀ x, cacheRoom ≤ x → cache.objs x = cacheMem (lcoreId i) x) (hway : p.onWay i = [])
    (hcons : (p.ring.done .cons : Multiset α) + (cache.objects : Multiset α) =
      (ring.done .cons : Multiset α) + ((p.localCache (lcoreId i)).objects : Multiset α)) :
    Inv lcoreId k mem cacheMem objs
      ((Pool.setCache { p with ring } (lcoreId i) cache).respond i (lcoreId i) n) := by
  have hsub : (cache.len - n).toNat = cache.len.toNat - n.toNat :=
    UInt32.toNat_sub_of_le _ _ (UInt32.le_iff_toNat_le.2 hn)
  have hself : (Pool.setCache { p with ring } (lcoreId i) cache).localCache (lcoreId i) = cache :=
    Function.update_self ..
  simp only [Pool.respond, hself]
  refine h.of_moves hlcores none none { cache with len := cache.len - n }
    ⟨hcalls, rfl, Function.update_idem .., rfl, rfl, rfl, .inl hlcore⟩ hring trivial (.inl ?_) hbeyond (fun j g hg => ?_) ?_
  · simp only [hsub]
    omega
  · by_cases hj : j = i
    · subst hj
      simp only [Pool.leave, Function.update_self, Option.mem_some_iff] at hg
      subst hg
      exact .inl ⟨rfl, by simp [Cache.response]⟩
    · simp only [Pool.leave, Function.update_of_ne hj] at hg
      exact h.got j g hg
  · have hnew : (((Pool.setCache { p with ring } (lcoreId i) cache).setCache (lcoreId i)
        { cache with len := cache.len - n }).leave i n 0 (cache.response n)).onWay i = [] :=
      Pool.onWay_of_none (Function.update_self ..)
    rw [hnew, hway]
    simp only [Pool.leave, Pool.setCache, hprod, Multiset.coe_nil, add_zero]
    rw [cache.response_perm hn] at hcons
    calc (p.ring.done .cons : Multiset α) + ((p.ring.done .prod : Multiset α) + (p.held + (cache.response n : Multiset α)) +
          (Cache.objects { cache with len := cache.len - n } : Multiset α))
        = (p.ring.done .cons : Multiset α) + ((Cache.objects { cache with len := cache.len - n } : Multiset α) +
            (cache.response n : Multiset α)) + ((p.ring.done .prod : Multiset α) + p.held) := by abel
      _ = (ring.done .cons : Multiset α) + ((p.ring.done .prod : Multiset α) + p.held +
            ((p.localCache (lcoreId i)).objects : Multiset α)) := by
          rw [hcons]
          abel

include hlcores in
/-- A get goes to the ring, straight or to fill up the cache. -/
private theorem Inv.enter (h : Inv lcoreId k mem cacheMem objs p) {ring : Ring.State ι α} {c : Call α} {rest : Rest α}
    (hring : ∃ claims, Ring.Inv k mem (ring.step (.call i c)) claims)
    (hcalls : (ring.step (.call i c)).calls = Function.update p.ring.calls i (some (c, .readHead)))
    (hdone : ring.done = p.ring.done) (hfixed : c.behavior = .fixed) (hwaits : p.Waits (lcoreId i) c rest)
    (hside : c.side = .cons) (hlen : (p.localCache (lcoreId i)).len.toNat ≤ p.cacheFlushthresh.toNat)
    (hway : p.onWay i = []) : Inv lcoreId k mem cacheMem objs (Pool.enter { p with ring } i c rest) := by
  have hnew : (Pool.enter { p with ring } i c rest).onWay i = [] := by
    cases rest with
    | put => exact absurd (hside.symm.trans hwaits) (by decide)
    | flush | backfill objTable n | get => simp [Pool.onWay, Pool.enter]
  refine h.of_moves hlcores _ (some rest) _ ⟨hcalls, rfl, (Function.update_eq_self _ _).symm, rfl, rfl, rfl, .inr rfl⟩ hring
    ⟨hfixed, trivial, hwaits⟩ (.inl hlen) (fun x hx => h.beyond _ x hx) h.got ?_
  rw [hnew, hway]
  simp only [Pool.enter, Ring.State.step, hdone]

include hlcores in
private theorem Inv.get [DecidableEq α] (h : Inv lcoreId k mem cacheMem objs p) {objTable : Nat → α} {n : UInt32}
    {isMc : Bool}
    (hok : p.Allowed (.get i objTable n isMc)) :
    Inv lcoreId k mem cacheMem objs (p.step lcoreId (.get i objTable n isMc)) := by
  obtain ⟨hrest, hn, halone⟩ := hok
  rw [Option.isNone_iff_eq_none] at hrest
  have hnone := h.idle i hrest
  have hway := Pool.onWay_of_none hrest
  have hlen := h.len_le hrest
  rw [← h.flushthresh] at hlen
  simp only [Pool.step, Pool.mempoolGetBulk]
  by_cases hdirect : p.cacheSize = 0 ∨ isMc = false ∨ p.cacheSize ≤ n ∨ rteMaxLcore ≤ lcoreId i
  · rw [if_pos hdirect]
    cases isMc with
    | true =>
      exact h.enter hlcores (h.call hnone hn fun j d hd hd' => ⟨rfl, (halone j d hd hd').2⟩) rfl rfl rfl rfl rfl hlen hway
    | false =>
      exact h.enter hlcores (h.call hnone hn fun j d hd hd' => absurd (halone j d hd hd').1 (by decide)) rfl rfl rfl rfl
        rfl hlen hway
  · rw [if_neg hdirect]
    simp only [not_or, Bool.not_eq_false, not_le] at hdirect
    obtain ⟨hcache, hmc, hsize, hlcore⟩ := hdirect
    have hsize : n.toNat < p.cacheSize.toNat := Nat.lt_of_not_le fun hle => hsize (UInt32.le_iff_toNat_le.2 hle)
    have hcs := h.cacheSize
    split_ifs with hshort
    · -- fill up the cache first
      have hshort' := UInt32.lt_iff_toNat_lt.1 hshort
      have hmax : 0 < n + (p.cacheSize - (p.localCache (lcoreId i)).len) := by
        rw [UInt32.lt_iff_toNat_lt, UInt32.toNat_add, UInt32.toNat_sub_of_le, UInt32.toNat_zero, Nat.mod_eq_of_lt]
        · omega
        · omega
        · rw [UInt32.le_iff_toNat_le]
          omega
      exact h.enter hlcores (h.call hnone hmax fun j d hd hd' => ⟨rfl, (halone j d hd hd').2⟩) rfl rfl rfl
        ⟨hlcore, hshort, UInt32.lt_iff_toNat_lt.2 hsize, rfl, rfl, rfl, fun _ _ => rfl⟩ rfl hlen hway
    · rw [UInt32.lt_iff_toNat_lt, not_lt] at hshort
      have hrespond := h.respond hlcores hlcore p.ring (p.localCache (lcoreId i)) h.ring
        (by rw [← hnone, Function.update_eq_self]) rfl hshort (by omega) (fun x hx => h.beyond _ x hx) hway rfl
      simpa only [Pool.setCache, Function.update_eq_self] using hrespond

/-! ### The ring has room -/

/-- The number of objects that a thread puts into the ring. -/
def Pool.enqueues (p : Pool ι α) (i : ι) : Nat :=
  match p.ring.calls i with
  | some (c, _) => if c.side = .prod then c.max.toNat else 0
  | none => 0

/-- The number of objects in the cache of a thread that flushes it. -/
def Pool.flushing (p : Pool ι α) (lcoreId : ι → Nat) (i : ι) : Nat :=
  match p.rest i with
  | some .flush => (p.localCache (lcoreId i)).len.toNat
  | _ => 0

omit [DecidableEq ι] in
private theorem Inv.enqueues_le (h : Inv lcoreId k mem cacheMem objs p) (i : ι) :
    p.enqueues i ≤ (p.onWay i).length + p.flushing lcoreId i := by
  cases hrest : p.rest i with
  | none => simp [Pool.enqueues, h.idle i hrest]
  | some rest =>
    obtain ⟨c, q, hcall, hwaits⟩ := h.waits i rest hrest
    cases rest with
    | put => simp [Pool.enqueues, Pool.onWay, hcall, hrest, Call.objects, show c.side = .prod from hwaits]
    | flush =>
      obtain ⟨-, hle, rfl⟩ := hwaits
      simp only [Pool.enqueues, Pool.onWay, Pool.flushing, hcall, hrest, mpDoEnqueue, ↓reduceIte, List.length_nil]
      rw [UInt32.toNat_sub_of_le _ _ (UInt32.le_iff_toNat_le.2 hle)]
      omega
    | backfill objTable n => simp [Pool.enqueues, hcall, show c.side = .cons from hwaits.2.2.2.1]
    | get => simp [Pool.enqueues, hcall, show c.side = .cons from hwaits]

include hlcores in
omit [DecidableEq ι] in
/-- The caches that are flushed are different ones. -/
private theorem Inv.sum_flushing_le (h : Inv lcoreId k mem cacheMem objs p) :
    ∑ i, p.flushing lcoreId i ≤ p.inCaches.card := by
  classical
  have hlcore : ∀ i, p.flushing lcoreId i ≠ 0 → lcoreId i < rteMaxLcore := by
    intro i hne
    cases hrest : p.rest i with
    | none => simp [Pool.flushing, hrest] at hne
    | some rest =>
      obtain ⟨c, q, -, hwaits⟩ := h.waits i rest hrest
      cases rest with
      | flush => exact hwaits.1
      | put | backfill objTable n | get => simp [Pool.flushing, hrest] at hne
  calc ∑ i, p.flushing lcoreId i
      = ∑ i with lcoreId i < rteMaxLcore, p.flushing lcoreId i :=
        (Finset.sum_filter_of_ne fun i _ hne => hlcore i hne).symm
    _ ≤ ∑ i with lcoreId i < rteMaxLcore, (p.localCache (lcoreId i)).len.toNat := by
        refine Finset.sum_le_sum fun i _ => ?_
        unfold Pool.flushing
        split
        · exact le_rfl
        · exact Nat.zero_le _
    _ = ∑ l ∈ (Finset.univ.filter fun i => lcoreId i < rteMaxLcore).image lcoreId, (p.localCache l).len.toNat := by
        rw [Finset.sum_image]
        intro i hi j _ heq
        exact hlcores i j heq (by simpa using hi)
    _ ≤ ∑ l ∈ Finset.range rteMaxLcore, (p.localCache l).len.toNat := by
        refine Finset.sum_le_sum_of_subset fun l hl => ?_
        obtain ⟨i, hi, rfl⟩ := Finset.mem_image.1 hl
        simpa using hi
    _ = p.inCaches.card := by
        rw [Pool.inCaches, Multiset.card_sum]
        refine Finset.sum_congr rfl fun l _ => ?_
        simp [Cache.objects]

include hlcores in
omit [DecidableEq ι] in
/-- All objects of the pool have room in the ring. -/
private theorem Inv.room (h : Inv lcoreId k mem cacheMem objs p) :
    (p.ring.done .prod).length + ∑ i, p.enqueues i ≤ (p.ring.done .cons).length + (2 ^ k - 1) := by
  have hbalance := congrArg Multiset.card h.balance
  have htotal := h.total
  have hflushing := h.sum_flushing_le hlcores
  have hsum : ∑ i, p.enqueues i ≤ ∑ i, (p.onWay i).length + ∑ i, p.flushing lcoreId i := by
    rw [← Finset.sum_add_distrib]
    exact Finset.sum_le_sum fun i _ => h.enqueues_le i
  simp only [Multiset.card_add, Multiset.card_sum, Multiset.coe_card] at hbalance
  omega

/-! ### Accesses to the ring -/

variable {ring : Ring.State ι α} {c c' : Call α} {q q' : Place} {rest : Rest α} {ret : Int32}

omit [DecidableEq ι] [Fintype ι] in
private theorem Pool.Waits.keeps {l : Nat} (h : p.Waits l c rest) (hkeeps : c.Keeps c') : p.Waits l c' rest := by
  cases rest with
  | put | get => exact hkeeps.side.trans h
  | flush =>
    rw [hkeeps.enqueue (by rw [h.2.2]; rfl)]
    exact h
  | backfill objTable n =>
    obtain ⟨h1, h2, h3, h4, h5, h6, h7⟩ := h
    exact ⟨h1, h2, h3, hkeeps.side.trans h4, hkeeps.single.trans h5, hkeeps.max.trans h6,
      fun x hx => (hkeeps.outside x (hkeeps.max ▸ hx)).trans (h7 x (hkeeps.max ▸ hx))⟩

include hlcores in
private theorem Inv.inside (h : Inv lcoreId k mem cacheMem objs p) (hrest : p.rest i = some rest)
    (hcall : p.ring.calls i = some (c, q)) (hring : ∃ claims, Ring.Inv k mem ring claims)
    (hinside : p.ring.Inside ring i c c' q') : Inv lcoreId k mem cacheMem objs { p with ring } := by
  obtain ⟨d, q, hcall', hwaits⟩ := h.waits i rest hrest
  cases hcall.symm.trans hcall'
  refine h.of_moves hlcores _ (some rest) _ ⟨hinside.calls, ?_, (Function.update_eq_self _ _).symm, rfl, rfl, rfl, .inr rfl⟩ hring
    ⟨hinside.keeps.behavior.trans (h.bulk i c _ hcall).1, hinside.bulk, hwaits.keeps hinside.keeps⟩ (hrest ▸ h.lens i)
    (fun x hx => h.beyond _ x hx) h.got ?_
  · rw [← hrest, Function.update_eq_self]
  · have hway : Pool.onWay { p with ring } i = p.onWay i := by
      have hnow : ring.calls i = some (c', q') := by rw [hinside.calls, Function.update_self]
      cases rest with
      | put => simp only [Pool.onWay, hrest, hnow, hcall, hinside.keeps.enqueue hwaits]
      | flush | backfill objTable n | get => simp only [Pool.onWay, hrest]
    rw [hway]
    simp only [hinside.done]

include hlcores in
/-- The ring does not refuse objects. -/
private theorem Inv.side_of_refused (h : Inv lcoreId k mem cacheMem objs p) {head : UInt32}
    (hcall : p.ring.calls i = some (c, .readTail head)) (hnear : p.ring.reserved c.side < p.ring.seen i + 2 ^ 31)
    (hcheck : (c.check (c.side.entries p.ring.ring.prod.mask (p.ring.ring.tail c.side.other) head)).isRight) :
    c.side = .cons := by
  obtain ⟨claims, hring⟩ := h.ring
  cases hside : c.side with
  | cons => rfl
  | prod =>
    have hleft := hring.not_refused hcall hside (hside ▸ hnear) (fun j d q hj => (h.bulk j d q hj).2)
      (fun j d q hj hd => by simp [Pool.enqueues, hj, hd]) (h.room hlcores)
    rw [← Sum.not_isLeft] at hcheck
    exact absurd hleft hcheck

omit [DecidableEq ι] in
private theorem Inv.len_le_of_ne (h : Inv lcoreId k mem cacheMem objs p) (hne : p.rest i ≠ some .flush) :
    (p.localCache (lcoreId i)).len.toNat ≤ p.cacheFlushthresh.toNat :=
  (h.lens i).resolve_right fun hflush => hne hflush.1

include hlcores in
/-- A get from the ring returns. -/
private theorem Inv.leave (h : Inv lcoreId k mem cacheMem objs p) (hrest : p.rest i = some .get)
    (hside : c.side = .cons)
    {objs' : List α} (hring : ∃ claims, Ring.Inv k mem ring claims) (hleft : p.ring.Left ring i c objs' ret)
    (hgot : Got.Ok ⟨c.max, ret, objs'⟩) :
    Inv lcoreId k mem cacheMem objs (Pool.leave { p with ring } i c.max ret objs') := by
  refine h.of_moves hlcores none none _
    ⟨hleft.calls, rfl, (Function.update_eq_self _ _).symm, rfl, rfl, rfl, .inr rfl⟩ hring trivial
    (.inl (h.len_le_of_ne (by simp [hrest]))) (fun x hx => h.beyond _ x hx) (fun j g hg => ?_) ?_
  · by_cases hj : j = i
    · subst hj
      simp only [Pool.leave, Function.update_self, Option.mem_some_iff] at hg
      subst hg
      exact hgot
    · simp only [Pool.leave, Function.update_of_ne hj] at hg
      exact h.got j g hg
  · have hnew : (Pool.leave { p with ring } i c.max ret objs').onWay i = [] :=
      Pool.onWay_of_none (Function.update_self ..)
    have hway : p.onWay i = [] := by simp [Pool.onWay, hrest]
    rw [hnew, hway]
    simp only [Pool.leave, hleft.done, hside, Function.update_self, Function.update_of_ne (show Side.prod ≠ Side.cons by decide),
      ← Multiset.coe_add, Multiset.coe_nil, add_zero]
    abel

include hlcores in
/-- A dequeue that the ring has refused. -/
private theorem Inv.refused (h : Inv lcoreId k mem cacheMem objs p) (hrest : p.rest i = some rest)
    (hcall : p.ring.calls i = some (c, q)) (hside : c.side = .cons) (hring : ∃ claims, Ring.Inv k mem ring claims)
    (hleft : p.ring.Left ring i c [] c.side.shortage) :
    Inv lcoreId k mem cacheMem objs (Pool.resume { p with ring } i (lcoreId i) c c.side.shortage rest) := by
  obtain ⟨d, q, hcall', hwaits⟩ := h.waits i rest hrest
  cases hcall.symm.trans hcall'
  have hret : c.side.shortage < 0 := by
    rw [hside]
    decide
  cases rest with
  | put => exact absurd (hside.symm.trans hwaits) (by decide)
  | flush =>
    rw [hwaits.2.2] at hside
    cases hside
  | backfill objTable n =>
    have hn : 0 < n := UInt32.lt_iff_toNat_lt.2 (Nat.zero_lt_of_lt (UInt32.lt_iff_toNat_lt.1 hwaits.2.1))
    simp only [Pool.resume, hret, ↓reduceIte]
    obtain ⟨claims, hring⟩ := hring
    obtain ⟨claims₀, hring₀⟩ := h.ring
    refine h.enter hlcores ⟨claims, hring.call ⟨by simp [hleft.calls], hn, fun j d hd hd' => ⟨rfl, ?_⟩⟩⟩ ?_ ?_ rfl rfl rfl
      (h.len_le_of_ne (by simp [hrest])) (by simp [Pool.onWay, hrest])
    · -- a get for one consumer alone would not have started while this one was at work
      have hj : j ≠ i := by
        rintro rfl
        simp [hleft.calls] at hd
      rw [hleft.calls, Function.update_of_ne hj] at hd
      exact hring₀.alone j i d.1 d.2 c q hj hd hcall (hd'.trans hside.symm)
    · simp only [Ring.State.step, hleft.calls, Function.update_idem]
    · rw [hleft.done, List.append_nil, Function.update_eq_self]
  | get =>
    simp only [Pool.resume, hret, ↓reduceIte]
    exact h.leave hlcores hrest hside hring hleft (.inr ⟨by rw [hside]; rfl, rfl⟩)

include hlcores in
/-- A call that has moved all its objects. -/
private theorem Inv.finished (h : Inv lcoreId k mem cacheMem objs p) (hrest : p.rest i = some rest)
    (hcall : p.ring.calls i = some (c, q)) (hret : c.side = .cons → ret = 0)
    (hring : ∃ claims, Ring.Inv k mem ring claims) (hleft : p.ring.Left ring i c (c.objects c.max) ret) :
    Inv lcoreId k mem cacheMem objs (Pool.resume { p with ring } i (lcoreId i) c ret rest) := by
  obtain ⟨d, q, hcall', hwaits⟩ := h.waits i rest hrest
  cases hcall.symm.trans hcall'
  cases rest with
  | put =>
    have hside : c.side = .prod := hwaits
    simp only [Pool.resume]
    refine h.of_moves hlcores none none _
      ⟨hleft.calls, rfl, (Function.update_eq_self _ _).symm, rfl, rfl, rfl, .inr rfl⟩ hring trivial
      (.inl (h.len_le_of_ne (by simp [hrest]))) (fun x hx => h.beyond _ x hx) h.got ?_
    have hnew : Pool.onWay { p with ring, rest := Function.update p.rest i none } i = [] :=
      Pool.onWay_of_none (Function.update_self ..)
    have hway : p.onWay i = c.objects c.max := by simp [Pool.onWay, hrest, hcall]
    rw [hnew, hway]
    simp only [hleft.done, hside, Function.update_self, Function.update_of_ne (show Side.cons ≠ Side.prod by decide),
      ← Multiset.coe_add, Multiset.coe_nil, add_zero]
    abel
  | flush =>
    obtain ⟨hlcore, hle, rfl⟩ := hwaits
    simp only [Pool.resume]
    have hthresh := h.flushthresh
    refine h.of_moves hlcores none none _
      ⟨hleft.calls, rfl, rfl, rfl, rfl, rfl, .inl hlcore⟩ hring trivial (.inl ?_) (fun x hx => h.beyond _ x hx) h.got ?_
    · simp only
      omega
    · have hnew : Pool.onWay { Pool.setCache { p with ring } (lcoreId i)
          { p.localCache (lcoreId i) with len := p.cacheSize } with rest := Function.update p.rest i none } i = [] :=
        Pool.onWay_of_none (Function.update_self ..)
      have hway : p.onWay i = [] := by simp [Pool.onWay, hrest]
      have hsplit := (p.localCache (lcoreId i)).objects_split hle
      rw [← UInt32.toNat_sub_of_le _ _ (UInt32.le_iff_toNat_le.2 hle)] at hsplit
      rw [hnew, hway, hsplit]
      simp only [Pool.setCache, hleft.done, mpDoEnqueue, Call.objects, Function.update_self,
        Function.update_of_ne (show Side.cons ≠ Side.prod by decide), ← Multiset.coe_add, Multiset.coe_nil, add_zero]
      abel
  | backfill objTable n =>
    obtain ⟨hlcore, hshort, hn, hside, -, hmax, hout⟩ := hwaits
    obtain rfl := hret hside
    have hcs := h.cacheSize
    have hthresh := h.flushthresh
    have hroom : cacheRoom = 1536 := rfl
    rw [UInt32.lt_iff_toNat_lt] at hshort hn
    have hmax' : c.max.toNat = n.toNat + (p.cacheSize.toNat - (p.localCache (lcoreId i)).len.toNat) := by
      rw [hmax, UInt32.toNat_add, UInt32.toNat_sub_of_le _ _ (UInt32.le_iff_toNat_le.2 (by omega))]
      exact Nat.mod_eq_of_lt (by omega)
    have hlen : ((p.localCache (lcoreId i)).len + c.max).toNat = (p.localCache (lcoreId i)).len.toNat + c.max.toNat := by
      rw [UInt32.toNat_add]
      exact Nat.mod_eq_of_lt (by omega)
    simp only [Pool.resume, show ¬(0 : Int32) < 0 by decide, ↓reduceIte]
    refine h.respond hlcores hlcore ring _ hring hleft.calls ?_ ?_ ?_ (fun x hx => ?_) (by simp [Pool.onWay, hrest]) ?_
    · simp only [hleft.done, hside, Function.update_of_ne (show Side.prod ≠ Side.cons by decide)]
    · simp only [hlen]
      omega
    · simp only [hlen]
      omega
    · simp only
      rw [if_neg (by omega), hout _ (by omega), Nat.add_sub_cancel' (by omega)]
      exact h.beyond _ x hx
    · have hfilled : Cache.objects ⟨(p.localCache (lcoreId i)).len + c.max, fun x =>
          if x < (p.localCache (lcoreId i)).len.toNat then (p.localCache (lcoreId i)).objs x
          else c.table (x - (p.localCache (lcoreId i)).len.toNat)⟩ =
          (p.localCache (lcoreId i)).objects ++ c.objects c.max := by
        simp only [Cache.objects, Call.objects, hlen, List.range_add, List.map_append, List.map_map]
        congr 1
        · exact List.map_congr_left fun x hx => if_pos (List.mem_range.1 hx)
        · refine List.map_congr_left fun x _ => ?_
          rw [Function.comp_apply, if_neg (by omega), Nat.add_sub_cancel_left]
      rw [hfilled]
      simp only [hleft.done, hside, Function.update_self, ← Multiset.coe_add]
      abel
  | get =>
    have hside : c.side = .cons := hwaits
    obtain rfl := hret hside
    exact h.leave hlcores hrest hside hring hleft (.inl ⟨rfl, by simp [Call.objects]⟩)

include hlcores in
private theorem Inv.move [DecidableEq α] (h : Inv lcoreId k mem cacheMem objs p) (hok : p.Allowed (.move i)) :
    Inv lcoreId k mem cacheMem objs (p.step lcoreId (.move i)) := by
  cases hrest : p.rest i with
  | none => simpa only [Pool.step, hrest] using h
  | some rest =>
    obtain ⟨c, q, hcall, -⟩ := h.waits i rest hrest
    obtain ⟨claims, hring⟩ := h.ring
    obtain ⟨hfixed, hbulk⟩ := h.bulk i c q hcall
    have hmove : p.ring.step (.move i) = p.ring.moveAt i c q := by simp only [Ring.State.step, hcall]
    have hnext := hring.move hcall (hok.1 _ hcall)
    simp only [Pool.step, hrest, hmove]
    rcases hring.client hcall hfixed hbulk with ⟨c', q', hinside⟩ | ⟨head, rfl, hcheck, hleft⟩ | ⟨ret, hret, hleft⟩
    · simp only [show (p.ring.moveAt i c q).calls i = some (c', q') by rw [hinside.calls, Function.update_self]]
      exact h.inside hlcores hrest hcall hnext hinside
    · have hside := h.side_of_refused hlcores hcall (hok.2 _ hcall rfl) hcheck
      simp only [hleft.calls, hleft.returned, Function.update_self]
      exact h.refused hlcores hrest hcall hside hnext hleft
    · simp only [hleft.calls, hleft.returned, Function.update_self]
      exact h.finished hlcores hrest hcall hret hnext hleft

include hlcores in
private theorem Inv.step [DecidableEq α] (h : Inv lcoreId k mem cacheMem objs p) {e : Event ι α} (hok : p.Allowed e) :
    Inv lcoreId k mem cacheMem objs (p.step lcoreId e) := by
  cases e with
  | put i objTable n isMp => exact h.put hlcores hok
  | get i objTable n isMc => exact h.get hlcores hok
  | move i => exact h.move hlcores hok

/-! ### A new pool -/

omit [DecidableEq ι] [Fintype ι] in
private theorem quiet_mempoolAddElem {r : RteRing α} (h : r.Quiet k) (hroom : r.contents.length < 2 ^ k - 1) (obj : α) :
    (mempoolAddElem r obj).Quiet k ∧ (mempoolAddElem r obj).contents = r.contents ++ [obj] := by
  obtain ⟨hquiet, hcontents⟩ := h.run (c := spDoEnqueue (fun _ => obj) 1 .fixed)
  refine ⟨hquiet, ?_⟩
  have hlimit := h.toNat_limit (spDoEnqueue (fun _ => obj) 1 .fixed)
  have hamount : (spDoEnqueue (fun _ => obj) 1 .fixed).amount r = 1 := by
    rcases Call.amount_fixed (r := r) (c := spDoEnqueue (fun _ => obj) 1 .fixed) rfl with ⟨-, h1⟩ | ⟨hno, -⟩
    · exact h1
    · simp only [spDoEnqueue] at hno hlimit
      rw [hlimit, UInt32.toNat_one] at hno
      omega
  rw [hamount, Call.run_of_prod rfl] at hcontents
  exact hcontents

omit [DecidableEq ι] [Fintype ι] in
/-- All objects find room in a new ring. -/
private theorem quiet_populate {r : RteRing α} (h : r.Quiet k) (objs : List α)
    (hroom : r.contents.length + objs.length ≤ 2 ^ k - 1) :
    (objs.foldl mempoolAddElem r).Quiet k ∧ (objs.foldl mempoolAddElem r).contents = r.contents ++ objs := by
  induction objs generalizing r with
  | nil => exact ⟨h, by simp⟩
  | cons obj objs ih =>
    rw [List.length_cons] at hroom
    obtain ⟨hquiet, hcontents⟩ := quiet_mempoolAddElem h (by omega) obj
    obtain ⟨hquiet', hcontents'⟩ := ih hquiet (by rw [hcontents, List.length_append, List.length_singleton]; omega)
    exact ⟨hquiet', by rw [List.foldl_cons, hcontents', hcontents, List.append_assoc]; rfl⟩

omit [DecidableEq ι] in
private theorem Inv.of_idle {r : RteRing α} (h : r.Quiet k) {size cacheSize : UInt32}
    (hsize : size.toNat = r.contents.length) (hcs : cacheSize.toNat ≤ 512) (hone : cacheSize ≠ 1) :
    Inv lcoreId k r.ring cacheMem (r.contents : Multiset α) (Pool.idle r cacheMem size cacheSize : Pool ι α) := by
  have hthresh : (calcCacheFlushthresh cacheSize).toNat = cacheSize.toNat * 3 / 2 := by
    rw [calcCacheFlushthresh, UInt32.toNat_div, UInt32.toNat_mul]
    simp only [UInt32.reduceToNat]
    rw [Nat.mod_eq_of_lt (by omega)]
  have hcaches : (Pool.idle r cacheMem size cacheSize : Pool ι α).inCaches = 0 := Finset.sum_eq_zero fun _ _ => rfl
  have hcount := h.length_contents ▸ h.count
  refine
    { ring := ⟨_, h.inv⟩, bulk := fun i c q hcall => ?_, idle := fun _ _ => rfl, waits := fun i rest hrest => ?_,
      cacheSize := ⟨hcs, fun h1 => hone (UInt32.toNat_inj.1 h1)⟩, flushthresh := hthresh,
      unused := fun _ _ => Nat.zero_le _, lens := fun _ => .inl (Nat.zero_le _), beyond := fun _ _ _ => rfl,
      got := fun i g hg => ?_, size := hsize, total := ?_, balance := ?_ }
  · cases hcall
  · cases hrest
  · cases hg
  · rw [Multiset.coe_card]
    omega
  · have hway : ∀ i, (Pool.idle r cacheMem size cacheSize : Pool ι α).onWay i = [] := fun _ => rfl
    simp only [hcaches, hway, Multiset.coe_nil, Finset.sum_const_zero, add_zero]
    simp only [Pool.idle, quietState, ← Multiset.coe_add, add_zero]
    abel

omit [DecidableEq ι] in
private theorem Inv.create {mem : Nat → α} {objs : List α} {cacheSize flags : UInt32}
    (hcreate : rteMempoolXmemCreate mem cacheMem objs cacheSize flags = some p) (hlen : objs.length < 2 ^ 31)
    (hone : cacheSize ≠ 1) : ∃ k mem', Inv lcoreId k mem' cacheMem (objs : Multiset α) p := by
  simp only [rteMempoolXmemCreate] at hcreate
  split_ifs at hcreate with hcache hcount
  cases hcreate
  have hn : (UInt32.ofNat objs.length).toNat = objs.length := toNat_ofNat_of_lt (by omega)
  have hn1 : (UInt32.ofNat objs.length + 1).toNat = objs.length + 1 := by
    rw [UInt32.toNat_add, hn, UInt32.toNat_one]
    exact Nat.mod_eq_of_lt (by omega)
  obtain ⟨halign, hge, -⟩ := @toNat_align32pow2 (UInt32.ofNat objs.length + 1) (by omega) (by omega)
  have hne : align32pow2 (UInt32.ofNat objs.length + 1) ≠ 0 := by
    intro h0
    rw [h0] at halign
    exact absurd halign.symm (Nat.two_pow_pos _).ne'
  obtain ⟨k, hk, hsize⟩ := hcount.hasSize hne mem (ringFlags flags)
  obtain ⟨hquiet, hempty⟩ := hsize.quiet_init
  obtain ⟨hfull, hcontents⟩ := quiet_populate hquiet objs (by rw [hempty, List.length_nil]; omega)
  rw [hempty, List.nil_append] at hcontents
  have hcs : cacheSize.toNat ≤ 512 := Nat.le_of_not_lt fun hlt => hcache (.inl (UInt32.lt_iff_toNat_lt.2 hlt))
  have hidle : Inv lcoreId k _ cacheMem _ (Pool.idle _ cacheMem (UInt32.ofNat objs.length) cacheSize : Pool ι α) :=
    Inv.of_idle hfull (by rw [hn, hcontents]) hcs hone
  rw [hcontents] at hidle
  exact ⟨k, _, hidle⟩

/-! ### Whole runs -/

section

variable {cacheMem : Nat → Nat → α} [DecidableEq α] {mem : Nat → α} {objs : List α} {cacheSize flags : UInt32}
  {es : List (Event ι α)}

include hlcores in
private theorem Inv.run (hcreate : rteMempoolXmemCreate mem cacheMem objs cacheSize flags = some p)
    (hlen : objs.length < 2 ^ 31) (hone : cacheSize ≠ 1) (hok : Along (Pool.step lcoreId) Pool.Allowed p es) :
    ∃ k mem', Inv lcoreId k mem' cacheMem (objs : Multiset α) (es.foldl (Pool.step lcoreId) p) := by
  obtain ⟨k, mem', h⟩ := Inv.create hcreate hlen hone
  have hrun := Along.invariant (I := fun q => Inv lcoreId k mem' cacheMem (objs : Multiset α) q)
    (fun h hallows => h.step hlcores hallows) h hok es.length
  rw [List.take_length] at hrun
  exact ⟨k, mem', hrun⟩

omit [DecidableEq ι] [DecidableEq α] in
/-- The objects in the ring, in the caches, on their way to the ring and in the hands of the users are all objects. -/
private theorem Inv.sum_eq {objs : Multiset α} (h : Inv lcoreId k mem cacheMem objs p) :
    (p.ring.ring.contents : Multiset α) + p.inCaches + ∑ i, (p.onWay i : Multiset α) + p.held = objs := by
  obtain ⟨claims, hring⟩ := h.ring
  have hqueue := hring.contents.1
  have hbalance := h.balance
  rw [← hqueue, ← Multiset.coe_add] at hbalance
  apply add_right_cancel (b := (p.ring.done .cons : Multiset α))
  rw [hbalance]
  abel

omit [DecidableEq ι] [Fintype ι] [DecidableEq α] in
private theorem toNat_foldl_len (f : Nat → UInt32) (c : UInt32) (m : Nat)
    (hlt : c.toNat + ∑ l ∈ Finset.range m, (f l).toNat < 2 ^ 32) :
    ((List.range m).foldl (fun count l => count + f l) c).toNat = c.toNat + ∑ l ∈ Finset.range m, (f l).toNat := by
  induction m with
  | zero => simp
  | succ m ih =>
    rw [Finset.sum_range_succ] at hlt ⊢
    rw [List.range_succ, List.foldl_append, List.foldl_cons, List.foldl_nil, UInt32.toNat_add, ih (by omega),
      Nat.mod_eq_of_lt (by omega), Nat.add_assoc]

omit [DecidableEq ι] [DecidableEq α] in
private theorem Inv.len_le_of_idle {objs : Multiset α} (h : Inv lcoreId k mem cacheMem objs p)
    (hidle : ∀ i, p.rest i = none)
    (l : Nat) : (p.localCache l).len.toNat ≤ p.cacheFlushthresh.toNat := by
  by_cases hl : ∃ i, lcoreId i = l
  · obtain ⟨i, rfl⟩ := hl
    exact h.len_le_of_ne (by simp [hidle])
  · exact h.unused l fun i hi => hl ⟨i, hi⟩

end

end

/-- A pool of four objects with caches of two, and two threads. -/
def small : Pool Bool Nat :=
  Pool.idle ([10, 11, 12, 13].foldl mempoolAddElem (rteRingInit (fun _ => 0) 8 0)) (fun _ _ => 0) 4 2

def smallLcores : Bool → Nat
  | false => 0
  | true => 1

private theorem small_created :
    rteMempoolXmemCreate (fun _ => 0) (fun _ _ => 0) [10, 11, 12, 13] 2 0 = some small := rfl

/-- Both threads get an object; the second one finds too few objects to fill up its cache and takes the last one from the
ring.  Then the first one puts its object back, and its cache overflows. -/
def rivals : List (Event Bool Nat) :=
  [.get false (fun _ => 0) 1 true, .get true (fun _ => 0) 1 true, .move false, .move true, .move false, .move true] ++
  List.replicate 10 (.move false) ++ List.replicate 12 (.move true) ++
  .put false (fun _ => 12) 1 true :: List.replicate 8 (.move false)

end SoftPatchPanel.Mempool

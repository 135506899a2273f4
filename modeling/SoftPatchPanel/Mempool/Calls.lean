import SoftPatchPanel.Ring.Alone
import SoftPatchPanel.Lib.Align
import Mathlib.Data.Multiset.AddSub
import Mathlib.Algebra.BigOperators.Group.Finset.Basic

/-!
# Pools of objects

The pools of `rte_mempool.h`, from which all packet buffers come: a ring with the objects, and in front of it a cache for
each lcore.  Threads get and put objects at the same time.  A cache is used by the thread of its lcore alone, so the only
accesses to shared data are those of the calls of the ring, and a function of the pool goes from one call of the ring to
the next (`Rest`); each access of such a call is a step of its own.
-/

namespace SoftPatchPanel.Mempool

open SoftPatchPanel.Ring

/-- `RTE_MAX_LCORE`. -/
def rteMaxLcore : Nat := 128

/-- `RTE_MEMPOOL_CACHE_MAX_SIZE`. -/
def rteMempoolCacheMaxSize : UInt32 := 512

/-- The number of objects that `struct rte_mempool_cache` has room for. -/
def cacheRoom : Nat := 3 * rteMempoolCacheMaxSize.toNat

/-- `MEMPOOL_F_SP_PUT`. -/
def mempoolFSpPut : UInt32 := 4

/-- `MEMPOOL_F_SC_GET`. -/
def mempoolFScGet : UInt32 := 8

/-- `CALC_CACHE_FLUSHTHRESH`, whose multiplier is `1.5`. -/
def calcCacheFlushthresh (c : UInt32) : UInt32 := c * 3 / 2

/-- `struct rte_mempool_cache`, with the memory from `objs` on. -/
structure Cache (α : Type) where
  len : UInt32
  objs : Nat → α

/-- What a function of the pool has to do when its call of the ring returns. -/
inductive Rest (α : Type) where
  | put
  | flush
  | backfill (objTable : Nat → α) (n : UInt32)
  | get

/-- A get that has returned: what it was asked for, its result, and the objects that it has stored into `obj_table`. -/
structure Got (α : Type) where
  n : UInt32
  ret : Int32
  objs : List α

/-- `struct rte_mempool`, with the threads `ι` that are inside of its functions or not.  Besides the data of the source,
`got` has the last get of each thread that has returned, and `held` the objects that are not in the pool. -/
structure Pool (ι α : Type) where
  ring : Ring.State ι α
  size : UInt32
  cacheSize : UInt32
  cacheFlushthresh : UInt32
  localCache : Nat → Cache α
  rest : ι → Option (Rest α)
  got : ι → Option (Got α)
  held : Multiset α

section

variable {α : Type}

/-- `n` stores into `objs` from `start` on. -/
def copyInto (objs : Nat → α) (start : Nat) (table : Nat → α) : Nat → Nat → α
  | 0 => objs
  | n + 1 => Function.update (copyInto objs start table n) (start + n) (table n)

/-- Add objects to the cache. -/
def Cache.add (cache : Cache α) (objTable : Nat → α) (n : UInt32) : Cache α :=
  ⟨cache.len + n, copyInto cache.objs cache.len.toNat objTable n.toNat⟩

/-- The response from a cache, from its last object on. -/
def Cache.response (cache : Cache α) (n : UInt32) : List α :=
  (List.range n.toNat).map fun index => cache.objs (cache.len - 1 - UInt32.ofNat index).toNat

/-- The objects in a cache. -/
def Cache.objects (cache : Cache α) : List α := (List.range cache.len.toNat).map cache.objs

end

section

variable {ι α : Type} [DecidableEq ι] [DecidableEq α]

namespace Pool

/-- A thread starts a call of the ring. -/
def enter (p : Pool ι α) (i : ι) (c : Call α) (rest : Rest α) : Pool ι α :=
  { p with ring := p.ring.step (.call i c), rest := Function.update p.rest i (some rest) }

def setCache (p : Pool ι α) (lcore : Nat) (cache : Cache α) : Pool ι α :=
  { p with localCache := Function.update p.localCache lcore cache }

/-- A get returns. -/
def leave (p : Pool ι α) (i : ι) (n : UInt32) (ret : Int32) (objs : List α) : Pool ι α :=
  { p with
    rest := Function.update p.rest i none
    got := Function.update p.got i (some ⟨n, ret, objs⟩)
    held := p.held + objs }

/-- `__mempool_put_bulk`, up to the first access to the ring. -/
def mempoolPutBulk (p : Pool ι α) (i : ι) (lcoreId : Nat) (objTable : Nat → α) (n : UInt32) (isMp : Bool) : Pool ι α :=
  if p.cacheSize = 0 ∨ isMp = false ∨ rteMaxLcore ≤ lcoreId ∨ rteMempoolCacheMaxSize < n then
    p.enter i (if isMp then mpDoEnqueue objTable n .fixed else spDoEnqueue objTable n .fixed) .put
  else
    let cache := (p.localCache lcoreId).add objTable n
    let p' := p.setCache lcoreId cache
    if p.cacheFlushthresh ≤ cache.len then
      p'.enter i
        (mpDoEnqueue (fun x => cache.objs (p.cacheSize.toNat + x)) (cache.len - p.cacheSize) .fixed) .flush
    else p'

/-- The end of a get from the cache. -/
def respond (p : Pool ι α) (i : ι) (lcoreId : Nat) (n : UInt32) : Pool ι α :=
  let cache := p.localCache lcoreId
  (p.setCache lcoreId { cache with len := cache.len - n }).leave i n 0 (cache.response n)

/-- `__mempool_get_bulk`, up to the first access to the ring. -/
def mempoolGetBulk (p : Pool ι α) (i : ι) (lcoreId : Nat) (objTable : Nat → α) (n : UInt32) (isMc : Bool) : Pool ι α :=
  if p.cacheSize = 0 ∨ isMc = false ∨ p.cacheSize ≤ n ∨ rteMaxLcore ≤ lcoreId then
    p.enter i (if isMc then mcDoDequeue objTable n .fixed else scDoDequeue objTable n .fixed) .get
  else
    let cache := p.localCache lcoreId
    if cache.len < n then
      p.enter i
        (mcDoDequeue (fun x => cache.objs (cache.len.toNat + x)) (n + (p.cacheSize - cache.len)) .fixed)
        (.backfill objTable n)
    else p.respond i lcoreId n

/-- The functions of the pool from the return of a call of the ring on. -/
def resume (p : Pool ι α) (i : ι) (lcoreId : Nat) (c : Call α) (ret : Int32) : Rest α → Pool ι α
  -- the result of the ring is not looked at
  | .put => { p with rest := Function.update p.rest i none }
  | .flush =>
    { p.setCache lcoreId { p.localCache lcoreId with len := p.cacheSize } with
      rest := Function.update p.rest i none }
  | .backfill objTable n =>
    if ret < 0 then p.enter i (mcDoDequeue objTable n .fixed) .get
    else
      let cache := p.localCache lcoreId
      -- the call has stored into `cache->objs` from `cache->len` on
      let objs x := if x < cache.len.toNat then cache.objs x else c.table (x - cache.len.toNat)
      (p.setCache lcoreId ⟨cache.len + c.max, objs⟩).respond i lcoreId n
  | .get => p.leave i c.max ret (if ret < 0 then [] else c.objects c.max)

end Pool

/-- The next access of the call is to the tail of the other side. -/
def readsTail : Place → Bool
  | .readTail _ => true
  | _ => false

/-- A thread starts to put or to get objects, or makes its next access to the ring. -/
inductive Event (ι α : Type) where
  | put (i : ι) (objTable : Nat → α) (n : UInt32) (isMp : Bool)
  | get (i : ι) (objTable : Nat → α) (n : UInt32) (isMc : Bool)
  | move (i : ι)

namespace Pool

variable (lcoreId : ι → Nat)

def step (p : Pool ι α) : Event ι α → Pool ι α
  | .put i objTable n isMp =>
    let objs : Multiset α := ((List.range n.toNat).map objTable : List α)
    mempoolPutBulk { p with held := p.held - objs } i (lcoreId i) objTable n isMp
  | .get i objTable n isMc => p.mempoolGetBulk i (lcoreId i) objTable n isMc
  | .move i =>
    match p.rest i with
    | none => p
    | some rest =>
      let ring := p.ring.step (.move i)
      match ring.calls i, ring.returned i with
      | none, some (c, ret) => { p with ring }.resume i (lcoreId i) c ret rest
      | _, _ => { p with ring }

/-- How a pool is used: a thread puts at least one object, all of which are not in the pool, or gets at least one; while
a function for one producer is at work, no other function puts into the ring, and likewise for consumers; and a head that
was read is compared with a tail or with the head before the indices have gone round. -/
def Allowed (p : Pool ι α) : Event ι α → Prop
  | .put i objTable n isMp =>
    (p.rest i).isNone ∧ 0 < n ∧ ((List.range n.toNat).map objTable : List α) ≤ p.held ∧
      ∀ j, ∀ d ∈ p.ring.calls j, d.1.side = .prod → isMp = true ∧ d.1.single = false
  | .get i _ n isMc =>
    (p.rest i).isNone ∧ 0 < n ∧ ∀ j, ∀ d ∈ p.ring.calls j, d.1.side = .cons → isMc = true ∧ d.1.single = false
  | .move i =>
    p.ring.Allowed (.move i) ∧
      ∀ d ∈ p.ring.calls i, readsTail d.2 → p.ring.reserved d.1.side < p.ring.seen i + 2 ^ 31

instance [Fintype ι] (p : Pool ι α) : (e : Event ι α) → Decidable (p.Allowed e)
  | .put _ _ _ _ => inferInstanceAs (Decidable (_ ∧ _ ∧ _ ∧ ∀ _, _))
  | .get _ _ _ _ => inferInstanceAs (Decidable (_ ∧ _ ∧ ∀ _, _))
  | .move i => inferInstanceAs
      (Decidable (_ ∧ ∀ d ∈ p.ring.calls i, readsTail d.2 → p.ring.reserved d.1.side < p.ring.seen i + 2 ^ 31))

/-- `rte_mempool_count`. -/
def rteMempoolCount (p : Pool ι α) : UInt32 :=
  let count := rteRingCount p.ring.ring
  if p.cacheSize = 0 then count
  else
    let count := (List.range rteMaxLcore).foldl (fun count lcore => count + (p.localCache lcore).len) count
    if p.size < count then p.size else count

/-- `mempool_audit_cache`, which stops the process where this is false. -/
def mempoolAuditCache (p : Pool ι α) : Bool :=
  (List.range rteMaxLcore).all fun lcore => ¬p.cacheFlushthresh < (p.localCache lcore).len

end Pool

/-- `mempool_add_elem`. -/
def mempoolAddElem (r : RteRing α) (obj : α) : RteRing α := ((spDoEnqueue (fun _ => obj) 1 .fixed).run r).1

/-- The flags of the ring of a pool with the given flags. -/
def ringFlags (flags : UInt32) : UInt32 :=
  (if flags &&& mempoolFSpPut ≠ 0 then ringFSpEnq else 0) ||| (if flags &&& mempoolFScGet ≠ 0 then ringFScDeq else 0)

/-- A pool that nobody uses, with `r` as its ring; `cacheMem` is the memory of the caches. -/
def Pool.idle (r : RteRing α) (cacheMem : Nat → Nat → α) (size cacheSize : UInt32) : Pool ι α where
  ring := quietState ι r
  size := size
  cacheSize := cacheSize
  cacheFlushthresh := calcCacheFlushthresh cacheSize
  localCache := fun lcore => ⟨0, cacheMem lcore⟩
  rest := fun _ => none
  got := fun _ => none
  held := 0

/-- `rte_mempool_xmem_create` for the objects that `rte_mempool_obj_iter` finds; `mem` is the memory behind the ring. -/
def rteMempoolXmemCreate (mem : Nat → α) (cacheMem : Nat → Nat → α) (objs : List α) (cacheSize flags : UInt32) :
    Option (Pool ι α) :=
  let n := UInt32.ofNat objs.length
  if rteMempoolCacheMaxSize < cacheSize ∨ n < calcCacheFlushthresh cacheSize then none
  else
    let count := Lib.align32pow2 (n + 1)
    if CountOk count then
      let r := rteRingInit mem count (ringFlags flags)
      some (Pool.idle (objs.foldl mempoolAddElem r) cacheMem n cacheSize)
    else none

end

end SoftPatchPanel.Mempool

import SoftPatchPanel.Lib.Counter
import Mathlib.Data.Sum.Basic
import Mathlib.Logic.Function.Basic
import Mathlib.Data.Fintype.Defs

/-!
# The lock-free ring

The ring of `rte_ring.h`, through which ports of different processes exchange packets and from which the pools take their
objects.  A call that enqueues claims places by moving `prod.head`, stores its objects there and then moves `prod.tail`; a
call that dequeues does the same with `cons.head` and `cons.tail`, with loads instead of stores.  The four functions
`__rte_ring_mp_do_enqueue`, `__rte_ring_sp_do_enqueue`, `__rte_ring_mc_do_dequeue` and `__rte_ring_sc_do_dequeue` differ in
the side they work on and in whether they may meet others there, and are one definition (`Call.move`), given by its single
accesses to the ring.

The memory behind the structure is a function of the index, so that a store behind the last place would show.
-/

namespace SoftPatchPanel.Ring

/-! ### The data -/

/-- `RTE_RING_SZ_MASK`. -/
def rteRingSzMask : UInt32 := 0x0fffffff

/-- `RTE_RING_QUOT_EXCEED`. -/
def rteRingQuotExceed : UInt32 := 0x80000000

/-- `RING_F_SP_ENQ`. -/
def ringFSpEnq : UInt32 := 1

/-- `RING_F_SC_DEQ`. -/
def ringFScDeq : UInt32 := 2

def enoent : Int32 := 2
def einval : Int32 := 22
def enobufs : Int32 := 105
def edquot : Int32 := 122

/-- `enum rte_ring_queue_behavior`. -/
inductive QueueBehavior where
  | fixed
  | variable
  deriving DecidableEq

/-- The producer status. -/
structure Producer where
  watermark : UInt32
  spEnqueue : Bool
  size : UInt32
  mask : UInt32
  head : UInt32
  tail : UInt32
  deriving DecidableEq

/-- The consumer status. -/
structure Consumer where
  scDequeue : Bool
  size : UInt32
  mask : UInt32
  head : UInt32
  tail : UInt32
  deriving DecidableEq

/-- `struct rte_ring`, with the memory from `ring` on. -/
structure RteRing (α : Type) where
  flags : UInt32
  prod : Producer
  cons : Consumer
  ring : Nat → α

/-- The check of `rte_ring_get_memsize`, where `POWEROF2` is written out. -/
def CountOk (count : UInt32) : Prop := (count - 1) &&& count = 0 ∧ ¬rteRingSzMask < count

instance (count : UInt32) : Decidable (CountOk count) := inferInstanceAs (Decidable (_ ∧ _))

section

variable {α : Type}

/-- `rte_ring_init`, on memory that holds `mem` behind the structure. -/
def rteRingInit (mem : Nat → α) (count flags : UInt32) : RteRing α where
  flags := flags
  prod := ⟨count, flags &&& ringFSpEnq ≠ 0, count, count - 1, 0, 0⟩
  cons := ⟨flags &&& ringFScDeq ≠ 0, count, count - 1, 0, 0⟩
  ring := mem

/-- `rte_ring_set_water_mark`. -/
def rteRingSetWaterMark (r : RteRing α) (count : UInt32) : RteRing α × Int32 :=
  if r.prod.size ≤ count then (r, -einval)
  else ({ r with prod.watermark := if count = 0 then r.prod.size else count }, 0)

/-- `rte_ring_count`. -/
def rteRingCount (r : RteRing α) : UInt32 := (r.prod.tail - r.cons.tail) &&& r.prod.mask

/-- The objects in the ring, from the oldest on. -/
def RteRing.contents (r : RteRing α) : List α :=
  (List.range (rteRingCount r).toNat).map fun i => r.ring ((r.cons.tail + UInt32.ofNat i) &&& r.prod.mask).toNat

/-! ### The two sides of a ring -/

/-- Enqueuing works on the status of the producer, dequeuing on that of the consumer. -/
inductive Side where
  | prod
  | cons
  deriving DecidableEq

def Side.other : Side → Side
  | prod => cons
  | cons => prod

namespace RteRing

def head (r : RteRing α) : Side → UInt32
  | .prod => r.prod.head
  | .cons => r.cons.head

def tail (r : RteRing α) : Side → UInt32
  | .prod => r.prod.tail
  | .cons => r.cons.tail

def size (r : RteRing α) : Side → UInt32
  | .prod => r.prod.size
  | .cons => r.cons.size

def setHead (r : RteRing α) : Side → UInt32 → RteRing α
  | .prod, v => { r with prod.head := v }
  | .cons, v => { r with cons.head := v }

def setTail (r : RteRing α) : Side → UInt32 → RteRing α
  | .prod, v => { r with prod.tail := v }
  | .cons, v => { r with cons.tail := v }

/-- `r->ring[idx] = obj`. -/
def store (r : RteRing α) (idx : Nat) (obj : α) : RteRing α := { r with ring := Function.update r.ring idx obj }

variable (r : RteRing α) (side side' : Side) (v : UInt32)

theorem head_setHead : (r.setHead side v).head = Function.update r.head side v := by
  funext x
  cases side <;> cases x <;> rfl

theorem tail_setTail : (r.setTail side v).tail = Function.update r.tail side v := by
  funext x
  cases side <;> cases x <;> rfl

@[simp]
theorem tail_setHead : (r.setHead side v).tail side' = r.tail side' := by cases side <;> cases side' <;> rfl

@[simp]
theorem head_setTail : (r.setTail side v).head side' = r.head side' := by cases side <;> cases side' <;> rfl

@[simp]
theorem size_setHead : (r.setHead side v).size side' = r.size side' := by cases side <;> cases side' <;> rfl

@[simp]
theorem size_setTail : (r.setTail side v).size side' = r.size side' := by cases side <;> cases side' <;> rfl

@[simp]
theorem mask_setHead : (r.setHead side v).prod.mask = r.prod.mask := by cases side <;> rfl

@[simp]
theorem mask_setTail : (r.setTail side v).prod.mask = r.prod.mask := by cases side <;> rfl

@[simp]
theorem ring_setHead : (r.setHead side v).ring = r.ring := by cases side <;> rfl

@[simp]
theorem ring_setTail : (r.setTail side v).ring = r.ring := by cases side <;> rfl

end RteRing

/-- `free_entries = mask + cons_tail - prod_head` and `entries = prod_tail - cons_head`. -/
def Side.entries (mask : UInt32) : Side → UInt32 → UInt32 → UInt32
  | prod, tail, head => mask + tail - head
  | cons, tail, head => tail - head

/-- `-ENOBUFS` and `-ENOENT`. -/
def Side.shortage : Side → Int32
  | prod => -enobufs
  | cons => -enoent

/-! ### `ENQUEUE_PTRS` and `DEQUEUE_PTRS` -/

/-- The pairs of a place of the ring and a place of the table that are copied when the places do not reach the end of the
ring, in the order of the copies: four in each round of the loop, then the rest. -/
def unrolledOrder (idx n : UInt32) : List (UInt32 × UInt32) :=
  ((List.range ((n &&& ~~~3).toNat / 4)).flatMap fun round =>
    let i := UInt32.ofNat (4 * round)
    [(idx + i, i), (idx + i + 1, i + 1), (idx + i + 2, i + 2), (idx + i + 3, i + 3)]) ++
  let i := n &&& ~~~3
  -- the cases of the `switch` fall through
  match (n &&& 3).toNat with
  | 3 => [(idx + i, i), (idx + i + 1, i + 1), (idx + i + 2, i + 2)]
  | 2 => [(idx + i, i), (idx + i + 1, i + 1)]
  | 1 => [(idx + i, i)]
  | _ => []

/-- The same when they do reach it: up to the end, then from the start on. -/
def wrappedOrder (idx size n : UInt32) : List (UInt32 × UInt32) :=
  let first := size.toNat - idx.toNat
  (List.range first).map (fun i => (idx + UInt32.ofNat i, UInt32.ofNat i)) ++
    (List.range (n.toNat - first)).map fun i => (UInt32.ofNat i, UInt32.ofNat (first + i))

/-- The copies for `n` places from `head` on. -/
def copyOrder (head mask size n : UInt32) : List (UInt32 × UInt32) :=
  let idx := head &&& mask
  if idx + n < size then unrolledOrder idx n else wrappedOrder idx size n

/-! ### Calls -/

/-- A call: the side, whether it is a function for one producer or consumer alone, and its arguments.  `table` is the
memory of `obj_table`. -/
structure Call (α : Type) where
  side : Side
  single : Bool
  behavior : QueueBehavior
  max : UInt32
  table : Nat → α

/-- `__rte_ring_mp_do_enqueue`. -/
def mpDoEnqueue (objTable : Nat → α) (n : UInt32) (behavior : QueueBehavior) : Call α :=
  ⟨.prod, false, behavior, n, objTable⟩

/-- `__rte_ring_sp_do_enqueue`. -/
def spDoEnqueue (objTable : Nat → α) (n : UInt32) (behavior : QueueBehavior) : Call α :=
  ⟨.prod, true, behavior, n, objTable⟩

/-- `__rte_ring_mc_do_dequeue`. -/
def mcDoDequeue (objTable : Nat → α) (n : UInt32) (behavior : QueueBehavior) : Call α :=
  ⟨.cons, false, behavior, n, objTable⟩

/-- `__rte_ring_sc_do_dequeue`. -/
def scDoDequeue (objTable : Nat → α) (n : UInt32) (behavior : QueueBehavior) : Call α :=
  ⟨.cons, true, behavior, n, objTable⟩

/-- The next access of a call to the ring, with the local variables that are needed from there on.  `limit` is
`free_entries` or `entries`. -/
inductive Place where
  | readHead
  | readTail (head : UInt32)
  | moveHead (head limit n : UInt32)
  | copy (head limit n : UInt32) (rest : List (UInt32 × UInt32))
  | quota (head limit n : UInt32)
  | wait (head n : UInt32) (ret : Int32)
  | moveTail (head n : UInt32) (ret : Int32)
  deriving DecidableEq

/-- The comparison of `n` with the number of entries: the number to go on with, or the result of the call. -/
def Call.check (c : Call α) (limit : UInt32) : UInt32 ⊕ Int32 :=
  if limit < c.max then
    match c.behavior with
    | .fixed => .inr c.side.shortage
    | .variable => if limit = 0 then .inr 0 else .inl limit
  else .inl c.max

/-- A function for one producer or consumer alone moves the tail without waiting for others. -/
def Call.beforeTail (c : Call α) (head n : UInt32) (ret : Int32) : Place :=
  if c.single then .moveTail head n ret else .wait head n ret

/-- The result of a call that has copied `n` objects, when the water mark is not exceeded. -/
def Call.success (c : Call α) (n : UInt32) : Int32 :=
  match c.behavior with
  | .fixed => 0
  | .variable => n.toInt32

/-- The result of an enqueue beyond the water mark. -/
def Call.exceeded (c : Call α) (n : UInt32) : Int32 :=
  match c.behavior with
  | .fixed => -edquot
  | .variable => (n ||| rteRingQuotExceed).toInt32

/-- The result of an enqueue that has stored `n` objects, with `limit` free entries before. -/
def Call.quotaResult (r : RteRing α) (c : Call α) (limit n : UInt32) : Int32 :=
  if r.prod.watermark < r.prod.mask + 1 - limit + n then c.exceeded n else c.success n

/-- One access to the ring.  The call goes on at a place or returns. -/
def Call.move (r : RteRing α) (c : Call α) : Place → RteRing α × Call α × (Place ⊕ Int32)
  | .readHead => (r, c, .inl (.readTail (r.head c.side)))
  | .readTail head =>
    let limit := c.side.entries r.prod.mask (r.tail c.side.other) head
    (r, c, (c.check limit).map (Place.moveHead head limit) id)
  | .moveHead head limit n =>
    -- a plain store, or `rte_atomic32_cmpset`
    if c.single || r.head c.side = head then
      (r.setHead c.side (head + n), c, .inl (.copy head limit n (copyOrder head r.prod.mask (r.size c.side) n)))
    else (r, c, .inl .readHead)
  | .copy head limit n ((idx, i) :: rest) =>
    match c.side with
    | .prod => (r.store idx.toNat (c.table i.toNat), c, .inl (.copy head limit n rest))
    | .cons =>
      (r, { c with table := Function.update c.table i.toNat (r.ring idx.toNat) }, .inl (.copy head limit n rest))
  | .copy head limit n [] =>
    match c.side with
    | .prod => (r, c, .inl (.quota head limit n))
    | .cons => (r, c, .inl (c.beforeTail head n (c.success n)))
  | .quota head limit n => (r, c, .inl (c.beforeTail head n (c.quotaResult r limit n)))
  | .wait head n ret => (r, c, .inl (if r.tail c.side = head then .moveTail head n ret else .wait head n ret))
  | .moveTail head n ret => (r.setTail c.side (head + n), c, .inr ret)

end

/-! ### Lcores at work on one ring -/

/-- A ring with lcores `ι` that are inside of calls or not.  Besides the data of the source, `done` has the objects of the
calls that have moved their tail, in this order, `reserved` the number of places claimed so far on each side, `seen` that
number at the time when a lcore last read a head, and `returned` the last call of a lcore with its result. -/
structure State (ι α : Type) where
  ring : RteRing α
  calls : ι → Option (Call α × Place)
  done : Side → List α
  reserved : Side → Nat
  seen : ι → Nat
  returned : ι → Option (Call α × Int32)

inductive Event (ι α : Type) where
  | call (i : ι) (c : Call α)
  | move (i : ι)
  | setWaterMark (count : UInt32)

section

variable {ι α : Type} [DecidableEq ι]

/-- Nobody is inside of a call. -/
def State.idle (r : RteRing α) : State ι α := 
  ⟨r, fun _ => none, fun _ => [], fun _ => 0, fun _ => 0, fun _ => none⟩

/-- The objects that a call has copied, as far as it has places for them. -/
def Call.objects (c : Call α) (n : UInt32) : List α := (List.range n.toNat).map c.table

namespace State

/-- What the access of lcore `i` at a place adds to the record of what has happened. -/
def record (s : State ι α) (i : ι) (c : Call α) : Place → (Side → List α) × (Side → Nat) × (ι → Nat)
  | .readHead => (s.done, s.reserved, Function.update s.seen i (s.reserved c.side))
  | .moveHead head _ n =>
    if c.single || s.ring.head c.side = head then
      (s.done, Function.update s.reserved c.side (s.reserved c.side + n.toNat), s.seen)
    else (s.done, s.reserved, s.seen)
  | .moveTail _ n _ => (Function.update s.done c.side (s.done c.side ++ c.objects n), s.reserved, s.seen)
  | _ => (s.done, s.reserved, s.seen)

/-- Lcore `i` makes the next access of its call `c`. -/
def moveAt (s : State ι α) (i : ι) (c : Call α) (p : Place) : State ι α :=
  let (ring, c', next) := c.move s.ring p
  let (done, reserved, seen) := s.record i c p
  { ring, done, reserved, seen
    calls := Function.update s.calls i (next.getLeft?.map fun p' => (c', p'))
    returned := match next with
      | .inl _ => s.returned
      | .inr ret => Function.update s.returned i (some (c', ret)) }

def step (s : State ι α) : Event ι α → State ι α
  | .call i c => { s with calls := Function.update s.calls i (some (c, .readHead)) }
  | .move i =>
    match s.calls i with
    | none => s
    | some (c, p) => s.moveAt i c p
  | .setWaterMark count => { s with ring := (rteRingSetWaterMark s.ring count).1 }

/-- A compare-and-set does not succeed because exactly a multiple of `2 ^ 32` places has been claimed since the head was
read. -/
def Recent (s : State ι α) (i : ι) (c : Call α) : Place → Prop
  | .moveHead head _ _ => c.single = false → s.ring.head c.side = head → s.reserved c.side < s.seen i + 2 ^ 32
  | _ => True

instance (s : State ι α) (i : ι) (c : Call α) : (p : Place) → Decidable (s.Recent i c p)
  | .moveHead _ _ _ => inferInstanceAs (Decidable (_ → _ → _))
  | .readHead | .readTail _ | .copy _ _ _ _ | .quota _ _ _ | .wait _ _ _ | .moveTail _ _ _ =>
    inferInstanceAs (Decidable True)

/-- How a ring is used: a lcore makes one call at a time, for at least one object; while a function for one producer is
at work, no other function enqueues, and likewise for consumers; and what a compare-and-set compares with is recent. -/
def Allowed (s : State ι α) : Event ι α → Prop
  | .call i c =>
    (s.calls i).isNone ∧ 0 < c.max ∧
      ∀ j, ∀ d ∈ s.calls j, d.1.side = c.side → c.single = false ∧ d.1.single = false
  | .move i => ∀ d ∈ s.calls i, s.Recent i d.1 d.2
  | .setWaterMark _ => True

instance [Fintype ι] (s : State ι α) : (e : Event ι α) → Decidable (s.Allowed e)
  | .call _ _ => inferInstanceAs (Decidable (_ ∧ _ ∧ ∀ _, _))
  | .move i => inferInstanceAs (Decidable (∀ d ∈ s.calls i, s.Recent i d.1 d.2))
  | .setWaterMark _ => inferInstanceAs (Decidable True)

/-- The state after the events `es`, from a ring that nobody uses. -/
def after (r : RteRing α) (es : List (Event ι α)) : State ι α := es.foldl step (idle r)

end State

end

end SoftPatchPanel.Ring

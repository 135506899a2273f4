import SoftPatchPanel.Malloc.Elem

/-!
# The malloc heaps

`malloc_heap.c` and `rte_malloc.c`: a heap for each NUMA node over the memsegs of the node, and the calls that allocate
and free blocks.  Each of the functions that change a heap holds the lock of the heap while it does, so a call is
one step.
-/

namespace SoftPatchPanel.Malloc

open Lib

/-- `RTE_MAX_MEMSEG`. -/
def rteMaxMemseg : Nat := 256

/-- `RTE_MAX_NUMA_NODES`. -/
def rteMaxNumaNodes : Nat := 8

/-- `RTE_MEMZONE_SIZE_HINT_ONLY`. -/
def rteMemzoneSizeHintOnly : UInt32 := 0x4

/-- The flag that asks for a page size. -/
def pageSizeFlag (hugepageSz : UInt64) : UInt32 :=
  if hugepageSz.toNat = 2 ^ 18 then 0x10000
  else if hugepageSz.toNat = 2 ^ 21 then 0x1
  else if hugepageSz.toNat = 2 ^ 24 then 0x100
  else if hugepageSz.toNat = 2 ^ 28 then 0x20000
  else if hugepageSz.toNat = 2 ^ 29 then 0x40000
  else if hugepageSz.toNat = 2 ^ 30 then 0x2
  else if hugepageSz.toNat = 2 ^ 32 then 0x80000
  else if hugepageSz.toNat = 2 ^ 34 then 0x200
  else 0

/-- `check_hugepage_sz`. -/
def checkHugepageSz (flags : UInt32) (hugepageSz : UInt64) : Bool :=
  if flags &&& ~~~rteMemzoneSizeHintOnly = 0 then true else pageSizeFlag hugepageSz &&& flags ≠ 0

/-- The address of the header behind the last element of a memseg. -/
def endElem (ms : Memseg) : UInt64 := alignFloor (ms.addr + (ms.len - mallocElemOverhead)) rteCacheLineSize

/-- `malloc_heap_add_memseg`, for the memseg with index `i`. -/
def mallocHeapAddMemseg (c : MemConfig) (h i : Nat) (ms : Memseg) : MemConfig :=
  let startElem := ms.addr
  let elemSize := endElem ms - startElem
  let c := mallocElemInit c startElem h i elemSize
  let c := mallocElemMkend c (endElem ms) startElem
  let c := mallocElemFreeListInsert c startElem
  c.modifyHeap h fun heap => { heap with totalSize := heap.totalSize + elemSize }

/-- The memory of the segment is not that of another guest. -/
def Memseg.usable (ms : Memseg) : Bool := ms.ioremapAddr = 0

/-- The memsegs that the heaps are made of, with their indices. -/
def MemConfig.segs (c : MemConfig) : List (Nat × Memseg) :=
  (((c.memseg.take rteMaxMemseg).takeWhile fun ms => 0 < ms.len).zipIdx.map Prod.swap).filter fun p => p.2.usable

/-- `rte_eal_malloc_heap_init`. -/
def rteEalMallocHeapInit (c : MemConfig) : MemConfig :=
  c.segs.foldl (fun c p => mallocHeapAddMemseg c p.2.socketId p.1 p.2) c

/-- The page size of the memseg with index `i`. -/
def MemConfig.hugepageSz (c : MemConfig) (i : Nat) : UInt64 := (c.memseg[i]?.map Memseg.hugepageSz).getD 0

/-- The search of `find_suitable_element` through the rest of the free lists, with the element kept as `alt_elem`. -/
def findElement (c : MemConfig) (size : UInt64) (flags : UInt32) (align bound : UInt64) : List UInt64 → UInt64 → UInt64
  | [], altElem => if altElem ≠ 0 ∧ flags &&& rteMemzoneSizeHintOnly ≠ 0 then altElem else 0
  | elem :: elems, altElem =>
    if mallocElemCanHold c elem size align.toUInt32 bound then
      if checkHugepageSz flags (c.hugepageSz (c.mem elem).ms) then elem
      else findElement c size flags align bound elems (if altElem = 0 then elem else altElem)
    else findElement c size flags align bound elems altElem

/-- The free lists from `idx` on, one after another. -/
def MallocHeap.listsFrom (heap : MallocHeap) (idx : Nat) : List UInt64 :=
  ((List.range rteHeapNumFreelists).drop idx).flatMap heap.freeHead

/-- `find_suitable_element`. -/
def findSuitableElement (c : MemConfig) (h : Nat) (size : UInt64) (flags : UInt32) (align bound : UInt64) : UInt64 :=
  findElement c size flags align bound ((c.mallocHeaps h).listsFrom (mallocElemFreeListIndex size)) 0

/-- `RTE_CACHE_LINE_ROUNDUP` of a `size_t`. -/
def rteCacheLineRoundup (size : UInt64) : UInt64 :=
  rteCacheLineSize * ((size + rteCacheLineSize - 1) / rteCacheLineSize)

/-- `malloc_heap_alloc`. -/
def mallocHeapAlloc (c : MemConfig) (h : Nat) (size : UInt64) (flags : UInt32) (align bound : UInt64) :
    MemConfig × UInt64 :=
  let size := rteCacheLineRoundup size
  let align := rteCacheLineRoundup align
  let elem := findSuitableElement c h size flags align bound
  if elem ≠ 0 then
    let (c, elem) := mallocElemAlloc c elem size align.toUInt32 bound
    (c.modifyHeap h fun heap => { heap with allocCount := heap.allocCount + 1 }, elem + mallocElemHeaderLen)
  else (c, 0)

/-- `rte_free`; `none` is `rte_panic`. -/
def rteFree (c : MemConfig) (addr : UInt64) : Option MemConfig :=
  if addr = 0 then some c else mallocElemFree c (mallocElemFromData c addr)

/-- `rte_is_power_of_2`. -/
def rteIsPowerOf2 (n : UInt32) : Bool := n ≠ 0 ∧ n &&& (n - 1) = 0

/-- `malloc_heap_alloc` on one heap after another until there is a block. -/
def allocFirst (c : MemConfig) (size : UInt64) (flags : UInt32) (align bound : UInt64) : List Nat → MemConfig × UInt64
  | [] => (c, 0)
  | h :: hs =>
    let (c', ret) := mallocHeapAlloc c h size flags align bound
    if ret ≠ 0 then (c', ret) else allocFirst c' size flags align bound hs

/-- What a call finds out about the machine: whether there are hugepages, and the node of the calling lcore as
`malloc_get_numa_socket` returns it. -/
structure Caller where
  hasHugepages : Bool := true
  numaSocket : Nat := 0

/-- The heaps that are tried, in order: all of them, the one of the lcore first, unless a node is asked for. -/
def heapOrder (socket : Nat) (any : Bool) : List Nat :=
  socket :: if any then (List.range rteMaxNumaNodes).filter (· ≠ socket) else []

/-- `rte_malloc_socket`; `none` is `SOCKET_ID_ANY`. -/
def rteMallocSocket (c : MemConfig) (caller : Caller) (size : UInt64) (align : UInt32) (socketArg : Option Nat) :
    MemConfig × UInt64 :=
  if size = 0 ∨ align ≠ 0 ∧ ¬rteIsPowerOf2 align then (c, 0)
  else
    let socketArg := if caller.hasHugepages then socketArg else none
    let socket := socketArg.getD caller.numaSocket
    if rteMaxNumaNodes ≤ socket then (c, 0)
    else
      allocFirst c size 0 (if align = 0 then 1 else align.toUInt64) 0 (heapOrder socket socketArg.isNone)

/-- `rte_malloc_validate`. -/
def rteMallocValidate (c : MemConfig) (ptr : UInt64) : Option UInt64 :=
  let elem := mallocElemFromData c ptr
  if elem = 0 then none else some ((c.mem elem).size - (c.mem elem).pad.toUInt64 - mallocElemOverhead)

end SoftPatchPanel.Malloc

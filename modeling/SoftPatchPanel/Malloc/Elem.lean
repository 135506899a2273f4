import SoftPatchPanel.Lib.Align

/-!
# Elements of the malloc heap

`malloc_elem.c`: the elements that a heap is cut into, and how one of them is split, joined with its neighbour, taken
and given back.  The header of an element fills a cache line, and everything that is computed here is a multiple of a
cache line, so memory is a map from the addresses of cache lines to what they hold, read as headers.
-/

namespace SoftPatchPanel.Malloc

open Lib

/-- `RTE_CACHE_LINE_SIZE`. -/
def rteCacheLineSize : UInt64 := 64

/-- `MALLOC_ELEM_HEADER_LEN`, the size of `struct malloc_elem`. -/
def mallocElemHeaderLen : UInt64 := 64

/-- `MALLOC_ELEM_TRAILER_LEN` without `RTE_LIBRTE_MALLOC_DEBUG`. -/
def mallocElemTrailerLen : UInt64 := 0

/-- `MALLOC_ELEM_OVERHEAD`. -/
def mallocElemOverhead : UInt64 := mallocElemHeaderLen + mallocElemTrailerLen

/-- `MIN_DATA_SIZE`. -/
def minDataSize : UInt64 := rteCacheLineSize

/-- `RTE_HEAP_NUM_FREELISTS`. -/
def rteHeapNumFreelists : Nat := 13

/-- `enum elem_state`.  The line of a client may hold any other value at the place of the state. -/
inductive ElemState where
  | elemFree
  | elemBusy
  | elemPad
  | other (bits : UInt32)
deriving DecidableEq

/-- `struct malloc_elem`: `heap` and `ms` are indices into `malloc_heaps` and `memseg`.  The links of the free lists are
kept by `MallocHeap.freeHead`. -/
structure MallocElem where
  heap : Nat := 0
  prev : UInt64 := 0
  ms : Nat := 0
  state : ElemState := .elemFree
  pad : UInt32 := 0
  size : UInt64 := 0
deriving DecidableEq

/-- The fields of `struct rte_memseg` that the heaps read. -/
structure Memseg where
  physAddr : UInt64 := 0
  addr : UInt64 := 0
  ioremapAddr : UInt64 := 0
  len : UInt64 := 0
  hugepageSz : UInt64 := 0
  socketId : Nat := 0
deriving DecidableEq

/-- `struct malloc_heap`; each free list as the list of its elements from the head on. -/
structure MallocHeap where
  freeHead : Nat → List UInt64 := fun _ => []
  allocCount : UInt32 := 0
  totalSize : UInt64 := 0

/-- The part of `struct rte_mem_config` that the heaps use, and the memory they manage. -/
structure MemConfig where
  memseg : List Memseg
  mallocHeaps : Nat → MallocHeap := fun _ => {}
  mem : UInt64 → MallocElem

namespace MemConfig

/-- Writes the header at `a`. -/
def modify (c : MemConfig) (a : UInt64) (f : MallocElem → MallocElem) : MemConfig :=
  { c with mem := Function.update c.mem a (f (c.mem a)) }

/-- Writes heap `h`. -/
def modifyHeap (c : MemConfig) (h : Nat) (f : MallocHeap → MallocHeap) : MemConfig :=
  { c with mallocHeaps := Function.update c.mallocHeaps h (f (c.mallocHeaps h)) }

variable (c : MemConfig) (a b : UInt64) (h : Nat) (f : MallocElem → MallocElem) (g : MallocHeap → MallocHeap)

@[simp] theorem memseg_modify : (c.modify a f).memseg = c.memseg := rfl

@[simp] theorem memseg_modifyHeap : (c.modifyHeap h g).memseg = c.memseg := rfl

@[simp] theorem mallocHeaps_modify : (c.modify a f).mallocHeaps = c.mallocHeaps := rfl

@[simp] theorem mem_modifyHeap : (c.modifyHeap h g).mem = c.mem := rfl

@[simp] theorem mem_modify_self : (c.modify a f).mem a = f (c.mem a) := Function.update_self ..

theorem mem_modify_of_ne {a b : UInt64} (hne : b ≠ a) : (c.modify a f).mem b = c.mem b := Function.update_of_ne hne ..

end MemConfig

/-- `RTE_ALIGN_FLOOR` with an alignment of type `unsigned`. -/
def rteAlignFloor (val : UInt64) (align : UInt32) : UInt64 := val &&& ~~~(align - 1).toUInt64

/-- `malloc_elem_init`. -/
def mallocElemInit (c : MemConfig) (elem : UInt64) (heap ms : Nat) (size : UInt64) : MemConfig :=
  c.modify elem fun _ => { heap := heap, ms := ms, prev := 0, state := .elemFree, size := size, pad := 0 }

/-- `malloc_elem_mkend`. -/
def mallocElemMkend (c : MemConfig) (elem prev : UInt64) : MemConfig :=
  (mallocElemInit c elem (c.mem prev).heap (c.mem prev).ms 0).modify elem fun e =>
    { e with prev := prev, state := .elemBusy }

/-- The end of `elem_start_pt`: no element when the new one would start before the old one. -/
def newElemStart (elem newDataStart : UInt64) : UInt64 :=
  let newElemStart := newDataStart - mallocElemHeaderLen
  if newElemStart < elem then 0 else newElemStart

/-- `elem_start_pt`; NULL is 0. -/
def elemStartPt (c : MemConfig) (elem size : UInt64) (align : UInt32) (bound : UInt64) : UInt64 :=
  let bmask := ~~~(bound - 1)
  let endPt := elem + (c.mem elem).size - mallocElemTrailerLen
  let newDataStart := rteAlignFloor (endPt - size) align
  if newDataStart &&& bmask ≠ (endPt - 1) &&& bmask then
    let endPt := alignFloor endPt bound
    let newDataStart := rteAlignFloor (endPt - size) align
    if (endPt - 1) &&& bmask ≠ newDataStart &&& bmask then 0 else newElemStart elem newDataStart
  else newElemStart elem newDataStart

/-- `malloc_elem_can_hold`. -/
def mallocElemCanHold (c : MemConfig) (elem size : UInt64) (align : UInt32) (bound : UInt64) : Bool :=
  elemStartPt c elem size align bound ≠ 0

/-- `split_elem`. -/
def splitElem (c : MemConfig) (elem splitPt : UInt64) : MemConfig :=
  let nextElem := elem + (c.mem elem).size
  let oldElemSize := splitPt - elem
  let newElemSize := (c.mem elem).size - oldElemSize
  let c := mallocElemInit c splitPt (c.mem elem).heap (c.mem elem).ms newElemSize
  let c := c.modify splitPt fun e => { e with prev := elem }
  let c := c.modify nextElem fun e => { e with prev := splitPt }
  c.modify elem fun e => { e with size := oldElemSize }

/-- `malloc_elem_free_list_index`; `__builtin_clzl` counts the bits above the highest one of `size - 1`. -/
def mallocElemFreeListIndex (size : UInt64) : Nat :=
  if size.toNat ≤ 2 ^ 8 then 0
  else
    let log2 := (size.toNat - 1).log2 + 1
    let index := (log2 - 8 + 2 - 1) / 2
    if index ≤ rteHeapNumFreelists - 1 then index else rteHeapNumFreelists - 1

/-- `malloc_elem_free_list_insert`. -/
def mallocElemFreeListInsert (c : MemConfig) (elem : UInt64) : MemConfig :=
  let idx := mallocElemFreeListIndex ((c.mem elem).size - mallocElemHeaderLen)
  let c := c.modify elem fun e => { e with state := .elemFree }
  c.modifyHeap (c.mem elem).heap fun h => { h with freeHead := Function.update h.freeHead idx (elem :: h.freeHead idx) }

/-- `elem_free_list_remove`: `LIST_REMOVE` takes the element out of the list it is in. -/
def elemFreeListRemove (c : MemConfig) (elem : UInt64) : MemConfig :=
  c.modifyHeap (c.mem elem).heap fun h => { h with freeHead := fun i => (h.freeHead i).erase elem }

/-- `malloc_elem_alloc`. -/
def mallocElemAlloc (c : MemConfig) (elem size : UInt64) (align : UInt32) (bound : UInt64) : MemConfig × UInt64 :=
  let newElem := elemStartPt c elem size align bound
  let oldElemSize := newElem - elem
  let trailerSize := (c.mem elem).size - oldElemSize - size - mallocElemOverhead
  let c := elemFreeListRemove c elem
  let c :=
    if mallocElemOverhead + minDataSize < trailerSize then
      -- too much free space behind the new element
      let newFreeElem := newElem + (size + mallocElemOverhead)
      mallocElemFreeListInsert (splitElem c elem newFreeElem) newFreeElem
    else c
  if oldElemSize < mallocElemOverhead + minDataSize then
    let c := c.modify elem fun e => { e with state := .elemBusy, pad := oldElemSize.toUInt32 }
    -- a dummy header in the padding leads back to the real one
    let c :=
      if 0 < (c.mem elem).pad then
        c.modify newElem fun e =>
          { e with
            pad := (c.mem elem).pad
            state := .elemPad
            size := (c.mem elem).size - (c.mem elem).pad.toUInt64 }
      else c
    (c, newElem)
  else
    let c := splitElem c elem newElem
    let c := c.modify newElem fun e => { e with state := .elemBusy }
    (mallocElemFreeListInsert c elem, newElem)

/-- `join_elem`. -/
def joinElem (c : MemConfig) (elem1 elem2 : UInt64) : MemConfig :=
  let next := elem2 + (c.mem elem2).size
  let c := c.modify elem1 fun e => { e with size := e.size + (c.mem elem2).size }
  c.modify next fun e => { e with prev := elem1 }

/-- `malloc_elem_free`; `none` is the return value -1. -/
def mallocElemFree (c : MemConfig) (elem : UInt64) : Option MemConfig :=
  if elem = 0 ∨ (c.mem elem).state ≠ .elemBusy then none
  else
    let next := elem + (c.mem elem).size
    let c := if (c.mem next).state = .elemFree then joinElem (elemFreeListRemove c next) elem next else c
    let prev := (c.mem elem).prev
    let c :=
      if prev ≠ 0 ∧ (c.mem prev).state = .elemFree then
        mallocElemFreeListInsert (joinElem (elemFreeListRemove c prev) prev elem) prev
      else (mallocElemFreeListInsert c elem).modify elem fun e => { e with pad := 0 }
    some (c.modifyHeap (c.mem elem).heap fun h => { h with allocCount := h.allocCount - 1 })

/-- `malloc_elem_from_data`; without the cookies only NULL is refused. -/
def mallocElemFromData (c : MemConfig) (data : UInt64) : UInt64 :=
  if data = 0 then 0
  else
    let elem := data - mallocElemHeaderLen
    if elem = 0 then 0 else if (c.mem elem).state ≠ .elemPad then elem else elem - (c.mem elem).pad.toUInt64

end SoftPatchPanel.Malloc

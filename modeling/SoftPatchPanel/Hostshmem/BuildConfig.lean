import SoftPatchPanel.Lib.Align
import SoftPatchPanel.Lib.CStr

/-!
# The host shared memory library: `build_config`

The data of `rte_hostshmem.c` and its function `build_config`, one definition for each pass.  Arrays are lists whose
length is the C dimension, a loop over an array is a recursion over the list, and 64-bit fields are `UInt64`, so
sums and differences wrap as in C.  What the library gets from outside is an argument: `qsort`, the look-up of the
file behind a page, and whether the two `malloc` calls succeed.
-/

namespace SoftPatchPanel.Hostshmem

open Lib (alignFloor alignCeil CStr formatU)

/-- `HOSTSHMEM_MAX_PAGES`, the dimension of `pages` and of `memseg_cache`. -/
def hostshmemMaxPages : Nat := 4096

/-- `RTE_LIBRTE_HOSTSHMEM_MAX_ENTRIES` of the shipped ivshmem configuration. -/
def hostshmemMaxEntries : Nat := 128

/-- `HOSTSHMEM_MAX_HUGEPAGES`, the dimension of `hp_entries`. -/
def hostshmemMaxHugepages : Nat := 32

/-- `struct rte_memzone`. -/
structure Memzone where
  name : CStr := []
  physAddr : UInt64 := 0
  addr64 : UInt64 := 0
  ioremapAddr : UInt64 := 0
  len : UInt64 := 0
  hugepageSz : UInt64 := 0
  socketId : Int := 0
  flags : UInt32 := 0
  memsegId : UInt32 := 0
deriving DecidableEq

/-- `struct rte_hostshmem_metadata_entry`. -/
structure Entry where
  mz : Memzone := {}
  offset : UInt64 := 0
deriving DecidableEq

/-- The fields of `struct rte_memseg` that `build_config` reads or writes; its `pages` are of this type. -/
structure Memseg where
  physAddr : UInt64 := 0
  addr64 : UInt64 := 0
  len : UInt64 := 0
  hugepageSz : UInt64 := 0
  socketId : Int := 0
deriving DecidableEq

/-- `struct memseg_cache_entry`. -/
structure CacheEntry where
  filepath : CStr := []
  offset : UInt64 := 0
  len : UInt64 := 0
deriving DecidableEq

/-- `struct hostshmem_hugepage_entry`. -/
structure HpEntry where
  mz : Memzone := {}
  path : CStr := []
deriving DecidableEq

/-- `struct hostshmem_config`, with the two shared structures it points to. -/
structure Config where
  name : CStr
  entry : List Entry
  hpEntries : List HpEntry
  memsegCache : List CacheEntry
deriving DecidableEq

/-- A config right after `rte_hostshmem_metadata_create`. -/
def Config.create (name : CStr) : Config where
  name := name
  entry := List.replicate hostshmemMaxEntries {}
  hpEntries := List.replicate hostshmemMaxHugepages {}
  memsegCache := List.replicate hostshmemMaxPages {}

/-- The ways in which adding to a config fails. -/
inductive Failure where
  | noMemory
  | noUnusedPage
  | noSpaceForPages
  | sortingBySize
  | pageNotFound
  | universeCollapsed
  | hugefile
  | overlapping
  | noSpaceLeft
  | noMemzone
  | unknownConfig
  | nullArgument
deriving DecidableEq

/-- `n` unused elements of `pages`, as `memset` leaves them. -/
def freePages (n : Nat) : List Memseg := List.replicate n {}

@[simp] theorem freePages_zero : freePages 0 = [] := rfl

@[simp] theorem freePages_succ (n : Nat) : freePages (n + 1) = {} :: freePages n := rfl

/-! ### First pass: collect all huge pages -/

/-- The running values `start_addr`, `phy_start_addr` and `len` of one zone. -/
structure Span where
  start : UInt64
  phys : UInt64
  len : UInt64

/-- `start_addr += hugepage_sz; phy_start_addr += hugepage_sz; len -= hugepage_sz`. -/
def Span.next (hp : UInt64) (w : Span) : Span := ⟨w.start + hp, w.phys + hp, w.len - hp⟩

/-- The span of whole pages around a zone. -/
def Memzone.span (mz : Memzone) : Span :=
  let start := alignFloor mz.addr64 mz.hugepageSz
  ⟨start, alignFloor mz.physAddr mz.hugepageSz, alignCeil (mz.len + (mz.addr64 - start)) mz.hugepageSz⟩

/-- The search for the first unused page, which skips the pages that are there already.  The result is the index
`start_page` and what is left of the zone; `none` when the loop reaches the end of `pages`. -/
def findUnusedPage (hp : UInt64) : List Memseg → Nat → Span → Option (Nat × Span)
  | [], _, _ => none
  | p :: ps, i, w =>
    if p.addr64 = w.start then findUnusedPage hp ps (i + 1) (w.next hp)
    else if p.addr64 = 0 then some (i, w)
    else findUnusedPage hp ps (i + 1) w

/-- "populate however many pages the memzone has", from `start_page` on; also returns the length left over. -/
def populatePages (hp : UInt64) : List Memseg → Span → List Memseg × UInt64
  | [], w => ([], w.len)
  | p :: ps, w =>
    if w.len = 0 then (p :: ps, 0)
    else
      let r := populatePages hp ps (w.next hp)
      ({ p with addr64 := w.start, physAddr := w.phys, len := hp } :: r.1, r.2)

/-- The body of the first pass for one entry. -/
def collectZone (mz : Memzone) (pages : List Memseg) : Except Failure (List Memseg) :=
  if mz.addr64 = 0 ∨ mz.span.start = 0 ∨ mz.span.len = 0 then .ok pages
  else
    match findUnusedPage mz.hugepageSz pages 0 mz.span with
    | none => .error .noUnusedPage
    | some (startPage, w) =>
      let r := populatePages mz.hugepageSz (pages.drop startPage) w
      if r.2 = 0 then .ok (pages.take startPage ++ r.1) else .error .noSpaceForPages

/-- The first pass over all entries. -/
def firstPass : List Entry → List Memseg → Except Failure (List Memseg)
  | [], pages => .ok pages
  | e :: es, pages =>
    match collectZone e.mz pages with
    | .error f => .error f
    | .ok pages' => firstPass es pages'

/-! ### Second pass: sort pages by size -/

/-- The inner loop of the second pass, from index `j` on: `biggest_len` and `biggest_idx` (`none` for `-1`). -/
def findBiggest : List Memseg → Nat → UInt64 → Option Nat → Option Nat
  | [], _, _, idx => idx
  | p :: ps, j, len, idx =>
    if p.addr64 = 0 then idx
    else if len = 0 ∨ len < p.len then findBiggest ps (j + 1) p.len (some j)
    else findBiggest ps (j + 1) len idx

/-- The loop that moves the pages `i .. j` one place to the right, from `j` downwards. -/
def shiftRight (i : Nat) : Nat → List Memseg → List Memseg
  | 0, pages => if i ≤ 0 then (pages.set 1 (pages.getD 0 {})).set 0 {} else pages
  | j + 1, pages =>
    if i ≤ j + 1 then shiftRight i j ((pages.set (j + 2) (pages.getD (j + 1) {})).set (j + 1) {}) else pages

/-- One round of the second pass: the biggest of the pages from `i` on moves to place `i`. -/
def moveBiggest (i : Nat) (pages : List Memseg) : Except Failure (List Memseg) :=
  match findBiggest (pages.drop i) i 0 none with
  | none => .error .sortingBySize
  | some biggest =>
    if i = biggest then .ok pages
    else .ok ((shiftRight i (biggest - 1) pages).set i (pages.getD biggest {}))

/-- The second pass with `n` rounds to go, at place `i`. -/
def secondPassFrom : Nat → Nat → List Memseg → Except Failure (List Memseg)
  | 0, _, pages => .ok pages
  | n + 1, i, pages =>
    if (pages.getD i {}).addr64 = 0 then .ok pages
    else
      match moveBiggest i pages with
      | .error f => .error f
      | .ok pages' => secondPassFrom n (i + 1) pages'

/-- The second pass. -/
def secondPass (pages : List Memseg) : Except Failure (List Memseg) := secondPassFrom pages.length 0 pages

/-! ### Third pass: write correct offsets -/

/-- The search for the page of a zone, with the lengths of the pages before it added up in `offset`. -/
def findOffset (addr : UInt64) : List Memseg → UInt64 → Option UInt64
  | [], _ => none
  | p :: ps, offset =>
    if p.addr64 ≤ addr ∧ addr < p.addr64 + p.len then some (addr - p.addr64 + offset)
    else findOffset addr ps (offset + p.len)

/-- The third pass; it stops at the first empty entry. -/
def thirdPass (pages : List Memseg) : List Entry → Except Failure (List Entry)
  | [] => .ok []
  | e :: es =>
    if e.mz.addr64 = 0 then .ok (e :: es)
    else
      match findOffset e.mz.addr64 pages 0 with
      | none => .error .pageNotFound
      | some offset =>
        match thirdPass pages es with
        | .error f => .error f
        | .ok es' => .ok ({ e with offset := offset } :: es')

/-! ### Fourth pass: create proper memseg cache -/

/-- `prev_entry` is not NULL, names the same file and ends where `c_entry` starts. -/
def continues (prev : Option CacheEntry) (c : CacheEntry) : Bool :=
  match prev with
  | none => false
  | some prev => c.filepath = prev.filepath ∧ prev.offset + prev.len = c.offset

/-- The fourth pass.  `prev_entry` always is the entry before `ms_iter`, so it is NULL exactly at `ms_iter = 0`. -/
def fourthPass (hugefile : UInt64 → Option (CStr × UInt64)) :
    List Memseg → List CacheEntry → Nat → Except Failure (List CacheEntry)
  | [], ms, _ => .ok ms
  | p :: ps, ms, msIter =>
    if hostshmemMaxPages < msIter ∨ p.addr64 = 0 then .ok ms
    else if msIter = hostshmemMaxPages then .error .universeCollapsed
    else
      match hugefile p.addr64 with
      | none => .error .hugefile
      | some (filepath, offset) =>
        let c : CacheEntry := ⟨filepath, offset, p.len⟩
        let prev := if msIter = 0 then none else ms[msIter - 1]?
        if continues prev c then
          let merged := { (ms.getD (msIter - 1) {}) with len := (ms.getD (msIter - 1) {}).len + p.len }
          fourthPass hugefile ps ((ms.set (msIter - 1) merged).set msIter {}) msIter
        else fourthPass hugefile ps (ms.set msIter c) (msIter + 1)

/-! ### The hugepage entries -/

/-- `sprintf(hp_entry->mz.name, "hugepage_%d", i)`. -/
def hugepageName (i : Nat) : CStr := "hugepage_".toList ++ formatU i

/-- The loop over `hp_entries`, from page `i` on.  The path comes from the cache entry with the number of the page.
A page from number `HOSTSHMEM_MAX_HUGEPAGES` on has no entry: `List.set` leaves the list alone there, where C
writes behind the array. -/
def writeHpEntries (ms : List CacheEntry) : List Memseg → Nat → List HpEntry → List HpEntry
  | [], _, hps => hps
  | p :: ps, i, hps =>
    if p.addr64 = 0 then writeHpEntries ms ps (i + 1) hps
    else
      let old := hps.getD i {}
      let mz := { old.mz with
        name := hugepageName i, physAddr := p.physAddr, addr64 := p.addr64, len := p.len,
        hugepageSz := p.hugepageSz, socketId := p.socketId }
      writeHpEntries ms ps (i + 1) (hps.set i ⟨mz, (ms.getD i {}).filepath⟩)

/-! ### `build_config` -/

/-- What `build_config` gets from its surroundings. -/
structure Env where
  /-- `qsort` with `entry_compare`. -/
  qsort : List Entry → List Entry
  /-- `get_hugefile_by_virt_addr`: the path and offset it fills in, `none` for `-1`. -/
  hugefile : UInt64 → Option (CStr × UInt64)
  /-- Both calls of `malloc` succeed. -/
  malloc : Bool

/-- `build_config`, on the config that `get_config_by_name` finds under the metadata's own name. -/
def buildConfig (env : Env) (config : Config) : Except Failure Config :=
  if env.malloc = false then .error .noMemory
  else
    let eLocal := env.qsort config.entry
    match firstPass eLocal (freePages hostshmemMaxPages) with
    | .error f => .error f
    | .ok collected =>
      match secondPass collected with
      | .error f => .error f
      | .ok pages =>
        match thirdPass pages eLocal with
        | .error f => .error f
        | .ok entry =>
          match fourthPass env.hugefile pages config.memsegCache 0 with
          | .error f => .error f
          | .ok msLocal => .ok { config with
              entry := entry
              hpEntries := writeHpEntries msLocal pages 0 config.hpEntries
              memsegCache := msLocal }

end SoftPatchPanel.Hostshmem

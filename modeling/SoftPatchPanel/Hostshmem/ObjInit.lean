import SoftPatchPanel.Hostshmem.Shape

/-!
# Importing shared objects

`rte_eal_hostshmem_obj_init` copies the zones of the metadata into the memzone table and enters the mempools and rings
among all zones into their lists.  Its copy loop runs over the whole entry array, so `memzone_cnt` grows by 128 whatever
the number of zones is, and its scans enter the mempools and rings of earlier zones a second time.  The import is exact
when every entry is used and no earlier zone is a mempool or a ring, and only then (`imported_iff_full`).
-/

namespace SoftPatchPanel.Hostshmem

open Lib

/-- `RTE_MAX_MEMZONE`, the dimension of `mcfg->memzone`. -/
def maxMemzone : Nat := 2560

/-- What `rte_eal_hostshmem_obj_init` works on: the memzone table, the lists of mempools and rings by the addresses in
their entries, the assignments `r->memzone = &mcfg->memzone[i]` that were made, and the lock of the lists. -/
structure Eal where
  memzone : List Memzone
  memzoneCnt : Nat
  mempoolList : List UInt64 := []
  ringList : List UInt64 := []
  ringMemzone : List (UInt64 × Nat) := []
  locked : Bool := false

/-- What it finds in its surroundings: the kind of process, the metadata of `hostshmem_new_config`, whether the lists
exist, and whether `rte_zmalloc` gives an entry for the object in zone `i`. -/
structure ObjEnv where
  primary : Bool
  newConfig : Option (List Entry)
  mempoolTailq : Bool
  ringTailq : Bool
  mempoolEntry : Nat → Bool
  ringEntry : Nat → Bool

/-- The ways in which the import fails. -/
inductive ObjFailure where
  | noMempoolTailq
  | noRingTailq
  | noMoreMemzones
  | noMempoolEntry
  | noRingEntry
deriving DecidableEq

/-- "create memzones": one slot for every element of the entry array, empty or not.  The second bound of the source's
loop, `i <= RTE_MAX_MEMZONE`, is never reached. -/
def createMemzones : List Entry → Eal → Eal × Option ObjFailure
  | [], eal => (eal, none)
  | e :: es, eal =>
    if eal.memzoneCnt = maxMemzone then (eal, some .noMoreMemzones)
    else createMemzones es
      { eal with memzone := eal.memzone.set eal.memzoneCnt e.mz, memzoneCnt := eal.memzoneCnt + 1 }

/-- `strncmp(mz->name, start, sizeof(start) - 1) == 0`. -/
def Memzone.Named (start : CStr) (mz : Memzone) : Prop := start <+: mz.name

instance (start : CStr) (mz : Memzone) : Decidable (mz.Named start) := inferInstanceAs (Decidable (_ <+: _))

/-- The loop over the zones from index `i` on that enters those with a name prefix into a list.  `found` is done before
the entry of the list is allocated, `enter` after it. -/
def findObjects (start : CStr) (zmalloc : Nat → Bool) (failure : ObjFailure) (found : Nat → Memzone → Eal → Eal)
    (enter : Memzone → Eal → Eal) : List Memzone → Nat → Eal → Eal × Option ObjFailure
  | [], _, eal => (eal, none)
  | mz :: zones, i, eal =>
    if ¬mz.Named start then findObjects start zmalloc failure found enter zones (i + 1) eal
    else if !zmalloc i then (found i mz eal, some failure)
    else findObjects start zmalloc failure found enter zones (i + 1) (enter mz (found i mz eal))

/-- `RTE_MEMPOOL_MZ_PREFIX`. -/
def mempoolMzPrefix : CStr := "MP_".toList

/-- `RTE_RING_MZ_PREFIX`. -/
def ringMzPrefix : CStr := "RG_".toList

/-- "find mempool". -/
def findMempools (env : ObjEnv) : List Memzone → Nat → Eal → Eal × Option ObjFailure :=
  findObjects mempoolMzPrefix env.mempoolEntry .noMempoolEntry (fun _ _ eal => eal)
    (fun mz eal => { eal with mempoolList := eal.mempoolList ++ [mz.addr64] })

/-- "find rings". -/
def findRings (env : ObjEnv) : List Memzone → Nat → Eal → Eal × Option ObjFailure :=
  findObjects ringMzPrefix env.ringEntry .noRingEntry
    (fun i mz eal => { eal with ringMemzone := eal.ringMemzone ++ [(mz.addr64, i)] })
    (fun mz eal => { eal with ringList := eal.ringList ++ [mz.addr64] })

/-- `rte_eal_hostshmem_obj_init`: the state afterwards, and why it failed (`none` for the result 0).  The returns inside
the two loops leave the lock taken. -/
def objInit (env : ObjEnv) (eal : Eal) : Eal × Option ObjFailure :=
  match env.primary, env.newConfig with
  | false, _ | _, none => (eal, none)
  | true, some entry =>
    if !env.mempoolTailq then (eal, some .noMempoolTailq)
    else if !env.ringTailq then (eal, some .noRingTailq)
    else
      match createMemzones entry eal with
      | (eal, some f) => (eal, some f)
      | (eal, none) =>
        match findMempools env (eal.memzone.take eal.memzoneCnt) 0 { eal with locked := true } with
        | (eal, some f) => (eal, some f)
        | (eal, none) =>
          match findRings env (eal.memzone.take eal.memzoneCnt) 0 eal with
          | (eal, some f) => (eal, some f)
          | (eal, none) => ({ eal with locked := false }, none)

/-! ### The loops -/

/-- What the copy loop leaves when it gets through: the zones of the entries from slot `memzone_cnt` on. -/
private theorem createMemzones_ok {es : List Entry} {eal eal' : Eal} {zs free : List Memzone}
    (hzones : eal.memzone = zs ++ free) (hcnt : eal.memzoneCnt = zs.length) (hlen : eal.memzone.length = maxMemzone)
    (h : createMemzones es eal = (eal', none)) :
    es.length ≤ free.length ∧ eal' = { eal with memzone := zs ++ es.map Entry.mz ++ free.drop es.length,
                                                memzoneCnt := zs.length + es.length } := by
  induction es generalizing eal zs free with
  | nil =>
    cases h
    simp [← hzones, ← hcnt]
  | cons e es ih =>
    rw [createMemzones] at h
    split at h
    · cases h
    · rename_i hroom
      have hpos : 0 < free.length := by
        rw [hzones, List.length_append] at hlen
        omega
      obtain ⟨z, free, rfl⟩ := List.exists_cons_of_length_pos hpos
      have hset : eal.memzone.set eal.memzoneCnt e.mz = zs ++ [e.mz] ++ free := by
        rw [hzones, hcnt, List.set_append_right _ _ (Nat.le_refl _)]
        simp
      obtain ⟨h1, h2⟩ := ih hset (by simp [hcnt]) (by simpa using hlen) h
      refine ⟨by simpa using h1, ?_⟩
      rw [h2]
      simp [Nat.add_comm, Nat.add_left_comm]

/-- A loop that gets through has done its work once for every zone with the name prefix, in their order. -/
private theorem findObjects_ok {start : CStr} {zmalloc : Nat → Bool} {failure : ObjFailure}
    {found : Nat → Memzone → Eal → Eal}
    {enter : Memzone → Eal → Eal} {zones : List Memzone} {i : Nat} {eal eal' : Eal}
    (h : findObjects start zmalloc failure found enter zones i eal = (eal', none)) :
    eal' = ((zones.zipIdx i).filter (fun z => z.1.Named start)).foldl (fun eal z => enter z.1 (found z.2 z.1 eal)) eal := by
  induction zones generalizing i eal with
  | nil => cases h; rfl
  | cons mz zones ih =>
    rw [findObjects] at h
    rw [List.zipIdx_cons]
    split at h
    · rename_i hname
      rw [List.filter_cons_of_neg (by simpa using hname)]
      exact ih h
    · rename_i hname
      split at h
      · cases h
      · rw [List.filter_cons_of_pos (by simpa using hname)]
        exact ih h

/-- The addresses of the zones with a name prefix. -/
def objects (start : CStr) (zones : List Memzone) : List UInt64 :=
  (zones.filter (fun mz => mz.Named start)).map Memzone.addr64

private theorem map_zipIdx_eq_objects (start : CStr) (zones : List Memzone) (i : Nat) :
    ((zones.zipIdx i).filter (fun z => z.1.Named start)).map (fun z => z.1.addr64) = objects start zones := by
  induction zones generalizing i with
  | nil => rfl
  | cons mz zones ih =>
    unfold objects at ih ⊢
    rw [List.zipIdx_cons, List.filter_cons, List.filter_cons]
    by_cases hname : mz.Named start <;> simp [hname, ih]

private theorem findMempools_ok {env : ObjEnv} {zones : List Memzone} {i : Nat} {eal eal' : Eal}
    (h : findMempools env zones i eal = (eal', none)) :
    eal' = { eal with mempoolList := eal.mempoolList ++ objects mempoolMzPrefix zones } := by
  rw [findObjects_ok h, ← map_zipIdx_eq_objects _ zones i]
  generalize (zones.zipIdx i).filter _ = zs
  induction zs using List.reverseRecOn with
  | nil => simp
  | append_singleton zs z ih => simp [ih]

private theorem findRings_ok {env : ObjEnv} {zones : List Memzone} {i : Nat} {eal eal' : Eal}
    (h : findRings env zones i eal = (eal', none)) :
    eal' = { eal with ringList := eal.ringList ++ objects ringMzPrefix zones, ringMemzone := eal'.ringMemzone } := by
  rw [findObjects_ok h, ← map_zipIdx_eq_objects _ zones i]
  generalize (zones.zipIdx i).filter _ = zs
  induction zs using List.reverseRecOn with
  | nil => simp
  | append_singleton zs z ih =>
    rw [List.foldl_append, ih]
    simp

/-! ### The import -/

/-- The occupied slots of the table are its first ones, and hold `zs`. -/
structure Occupies (memzone zs : List Memzone) : Prop where
  slots : ∃ free, memzone = zs ++ free ∧ ∀ mz ∈ free, mz.addr64 = 0
  ne_zero : ∀ mz ∈ zs, mz.addr64 ≠ 0

/-- The import of zones is exact: they come behind the zones `zs` that were there, the count is that of all of them, and
the mempools and rings among them, each once, are what has been entered. -/
structure Imported (eal eal' : Eal) (zs imported : List Memzone) : Prop where
  table : Occupies eal'.memzone (zs ++ imported)
  count : eal'.memzoneCnt = (zs ++ imported).length
  mempools : eal'.mempoolList = eal.mempoolList ++ objects mempoolMzPrefix imported
  rings : eal'.ringList = eal.ringList ++ objects ringMzPrefix imported

/-- What a successful import does with any array of entries. -/
private theorem objInit_ok {env : ObjEnv} {eal eal' : Eal} {entry : List Entry} {zs : List Memzone}
    (hprimary : env.primary)
    (hconfig : env.newConfig = some entry) (hlen : eal.memzone.length = maxMemzone) (htable : Occupies eal.memzone zs)
    (hcnt : eal.memzoneCnt = zs.length) (h : objInit env eal = (eal', none)) :
    (∃ free, eal'.memzone = zs ++ entry.map Entry.mz ++ free ∧ ∀ mz ∈ free, mz.addr64 = 0) ∧
      eal'.memzoneCnt = zs.length + entry.length ∧
      eal'.mempoolList = eal.mempoolList ++ objects mempoolMzPrefix (zs ++ entry.map Entry.mz) ∧
      eal'.ringList = eal.ringList ++ objects ringMzPrefix (zs ++ entry.map Entry.mz) := by
  obtain ⟨⟨free, hfree, hzero⟩, -⟩ := htable
  unfold objInit at h
  rw [hprimary, hconfig] at h
  simp only at h
  split at h
  · cases h
  split at h
  · cases h
  split at h
  · cases h
  rename_i eal₁ hcreate
  split at h
  · cases h
  rename_i eal₂ hmempools
  split at h
  · cases h
  rename_i eal₃ hrings
  cases h
  obtain ⟨hroom, rfl⟩ := createMemzones_ok hfree hcnt hlen hcreate
  -- the scans see the old zones and the array
  have htake : (zs ++ entry.map Entry.mz ++ free.drop entry.length).take (zs.length + entry.length) =
      zs ++ entry.map Entry.mz := by
    rw [List.take_left' (by simp)]
  rw [findRings_ok hrings, findMempools_ok hmempools]
  simp only [htake]
  exact ⟨⟨_, rfl, fun mz hmz => hzero mz (List.mem_of_mem_drop hmz)⟩, by simp⟩

private theorem append_objects_iff {start : CStr} {old : List UInt64} {zs imported : List Memzone} :
    old ++ objects start (zs ++ imported) = old ++ objects start imported ↔ ∀ mz ∈ zs, ¬mz.Named start := by
  unfold objects
  rw [List.append_cancel_left_eq, List.filter_append, List.map_append, List.append_left_eq_self, List.map_eq_nil_iff,
    List.filter_eq_nil_iff]
  simp only [decide_eq_true_eq]

private theorem length_entry_add {config : Config} {a : Add} (hq : ∀ l, (a.env.qsort l).Perm l) :
    (config.add a).entry.length = config.entry.length := by
  rcases config.add_cases a with ⟨hadd, -⟩ | ⟨A, e, B, hentry, -, -, -, ⟨hadd, -⟩ | ⟨hbuild, -⟩⟩
  · rw [hadd]
  · rw [hadd, Config.insert, List.length_set]
  · obtain ⟨collected, pages, entry, ms, -, -, h3, -, hnew⟩ := buildConfig_ok hbuild
    have hlen : entry.length = (a.env.qsort (config.insert A.length a.mz).entry).length := by
      simpa using congrArg List.length (thirdPass_mz h3)
    rw [hnew]
    simp only
    rw [hlen, (hq _).length_eq, Config.insert, List.length_set]

/-- A successful import of metadata that any calls of the library have left is exact, exactly when all its entries are
used and no zone that was there before is a mempool or a ring. -/
theorem imported_iff_full (name : CStr) (as : List Add) (hq : ∀ a ∈ as, ∀ l, (a.env.qsort l).Perm l) {config : Config}
    (hbuilt : config = as.foldl Config.add (Config.create name)) {env : ObjEnv} (hprimary : env.primary)
    (hconfig : env.newConfig = some config.entry) {eal eal' : Eal} {zs : List Memzone}
    (hlen : eal.memzone.length = maxMemzone) (htable : Occupies eal.memzone zs) (hcnt : eal.memzoneCnt = zs.length)
    (h : objInit env eal = (eal', none)) :
    Imported eal eal' zs config.zones ↔ config.zones.length = hostshmemMaxEntries ∧
      ∀ mz ∈ zs, ¬mz.Named mempoolMzPrefix ∧ ¬mz.Named ringMzPrefix := by
  have hlength : config.entry.length = hostshmemMaxEntries := by
    have hrun : Along Config.add (fun _ a => ∀ l, (a.env.qsort l).Perm l) (Config.create name) as :=
      Along.of_forall (fun a ha _ => hq a ha) _
    have := Along.invariant (I := fun config => config.entry.length = hostshmemMaxEntries)
      (fun hI ha => (length_entry_add ha).trans hI) (by simp [Config.create]) hrun as.length
    rwa [List.take_length, ← hbuilt] at this
  obtain ⟨⟨free, hmem, hzero⟩, hcnt', hmp, hring⟩ := objInit_ok hprimary hconfig hlen htable hcnt h
  have hall : config.zones.length = hostshmemMaxEntries → config.zones = config.entry.map Entry.mz := fun hfull =>
    List.filter_sublist.eq_of_length (by rw [List.length_map, hlength]; exact hfull)
  constructor
  · intro himp
    have hfull : config.zones.length = hostshmemMaxEntries := by
      have := himp.count
      rw [hcnt', hlength, List.length_append] at this
      omega
    rw [← hall hfull] at hmp hring
    exact ⟨hfull, fun mz hmz => ⟨append_objects_iff.1 (hmp.symm.trans himp.mempools) mz hmz,
      append_objects_iff.1 (hring.symm.trans himp.rings) mz hmz⟩⟩
  · rintro ⟨hfull, hnamed⟩
    rw [← hall hfull] at hmem hmp hring
    refine ⟨⟨⟨free, hmem, hzero⟩, fun mz hmz => ?_⟩, by rw [hcnt', List.length_append, hfull, hlength],
      hmp.trans (append_objects_iff.2 fun mz hmz => (hnamed mz hmz).1),
      hring.trans (append_objects_iff.2 fun mz hmz => (hnamed mz hmz).2)⟩
    rcases List.mem_append.1 hmz with hmz | hmz
    · exact htable.ne_zero mz hmz
    · simpa using List.of_mem_filter hmz

/-! ### Imports that succeed -/

private theorem createMemzones_isOk {es : List Entry} {eal : Eal} (h : eal.memzoneCnt + es.length ≤ maxMemzone) :
    (createMemzones es eal).2 = none := by
  induction es generalizing eal with
  | nil => rfl
  | cons e es ih =>
    rw [List.length_cons] at h
    rw [createMemzones, if_neg (by omega)]
    exact ih (by simp only; omega)

private theorem findObjects_isOk {start : CStr} {zmalloc : Nat → Bool} (hmem : ∀ i, zmalloc i = true)
    {failure : ObjFailure} {found : Nat → Memzone → Eal → Eal} {enter : Memzone → Eal → Eal} (zones : List Memzone)
    (i : Nat) (eal : Eal) : (findObjects start zmalloc failure found enter zones i eal).2 = none := by
  induction zones generalizing i eal with
  | nil => rfl
  | cons mz zones ih =>
    rw [findObjects]
    split
    · exact ih (i + 1) eal
    · rw [if_neg (by simp [hmem])]
      exact ih (i + 1) _

/-- A primary process that has mapped the metadata and gets all the memory it asks for. -/
def importEnv (config : Config) : ObjEnv :=
  { primary := true, newConfig := some config.entry, mempoolTailq := true, ringTailq := true,
    mempoolEntry := fun _ => true, ringEntry := fun _ => true }

/-- With room in the table and memory for the lists, the import succeeds. -/
private theorem objInit_importEnv {config : Config} {eal : Eal}
    (hroom : eal.memzoneCnt + config.entry.length ≤ maxMemzone) :
    ∃ eal', objInit (importEnv config) eal = (eal', none) := by
  obtain ⟨eal₁, h₁⟩ : ∃ eal₁, createMemzones config.entry eal = (eal₁, none) :=
    ⟨_, Prod.ext rfl (createMemzones_isOk hroom)⟩
  obtain ⟨eal₂, h₂⟩ : ∃ eal₂, findMempools (importEnv config) (eal₁.memzone.take eal₁.memzoneCnt) 0
      { eal₁ with locked := true } = (eal₂, none) := ⟨_, Prod.ext rfl (findObjects_isOk (fun _ => rfl) _ _ _)⟩
  obtain ⟨eal₃, h₃⟩ : ∃ eal₃, findRings (importEnv config) (eal₂.memzone.take eal₂.memzoneCnt) 0 eal₂ = (eal₃, none) :=
    ⟨_, Prod.ext rfl (findObjects_isOk (fun _ => rfl) _ _ _)⟩
  refine ⟨{ eal₃ with locked := false }, ?_⟩
  unfold objInit
  simp only [importEnv, Bool.not_true, Bool.false_eq_true, ↓reduceIte, h₁]
  rw [importEnv] at h₂ h₃
  simp only [h₂, h₃]

/-! ### Zones on one page -/

/-- The zone lies on the page. -/
structure OnPage (page : Memseg) (mz : Memzone) : Prop where
  addr : mz.addr64 ≠ 0
  hugepageSz : mz.hugepageSz = page.len
  span : mz.span = ⟨page.addr64, page.physAddr, page.len⟩
  inside : page.addr64 ≤ mz.addr64 ∧ mz.addr64 < page.addr64 + page.len

/-- The page as the first pass writes it, not at either end of the address space. -/
structure PlainPage (page : Memseg) : Prop where
  fresh : page = { addr64 := page.addr64, physAddr := page.physAddr, len := page.len }
  addr : page.addr64 ≠ 0
  len : page.len ≠ 0
  next : page.addr64 + page.len ≠ 0

section

variable {page : Memseg} (hpage : PlainPage page)

include hpage

private theorem collectZone_first {mz : Memzone} (h : OnPage page mz) (m : Nat) :
    collectZone mz (freePages (m + 1)) = .ok (page :: freePages m) := by
  have hfind : findUnusedPage page.len (freePages (m + 1)) 0 ⟨page.addr64, page.physAddr, page.len⟩ =
      some (0, ⟨page.addr64, page.physAddr, page.len⟩) := by
    simp [findUnusedPage, hpage.addr.symm]
  have hpopulate : populatePages page.len (freePages (m + 1)) ⟨page.addr64, page.physAddr, page.len⟩ =
      (page :: freePages m, 0) := by
    rw [freePages_succ, populatePages, if_neg hpage.len, Span.next, UInt64.sub_self]
    cases m with
    | zero => exact congrArg (fun p => ([p], (0 : UInt64))) hpage.fresh.symm
    | succ m =>
      rw [freePages_succ, populatePages, if_pos rfl]
      exact congrArg (fun p => (p :: {} :: freePages m, (0 : UInt64))) hpage.fresh.symm
  rw [collectZone, if_neg (by simp [h.addr, h.span, hpage.addr, hpage.len]), h.span, h.hugepageSz, hfind]
  simp only [List.drop_zero, hpopulate, List.take_zero, List.nil_append, ↓reduceIte]

private theorem collectZone_again {mz : Memzone} (h : OnPage page mz) (m : Nat) :
    collectZone mz (page :: freePages (m + 1)) = .ok (page :: freePages (m + 1)) := by
  have hfind : findUnusedPage page.len (page :: freePages (m + 1)) 0 ⟨page.addr64, page.physAddr, page.len⟩ =
      some (1, ⟨page.addr64 + page.len, page.physAddr + page.len, 0⟩) := by
    simp [findUnusedPage, Span.next, hpage.next.symm]
  rw [collectZone, if_neg (by simp [h.addr, h.span, hpage.addr, hpage.len]), h.span, h.hugepageSz, hfind]
  simp [populatePages]

private theorem firstPass_again {es : List Entry} (hes : ∀ e ∈ es, OnPage page e.mz) {E : List Entry}
    (hE : ∀ e ∈ E, e.mz.addr64 = 0) (m : Nat) :
    firstPass (es ++ E) (page :: freePages (m + 1)) = .ok (page :: freePages (m + 1)) := by
  induction es with
  | nil => exact firstPass_empty hE _
  | cons e es ih =>
    rw [List.forall_mem_cons] at hes
    rw [List.cons_append, firstPass, collectZone_again hpage hes.1]
    exact ih hes.2

omit hpage in
private theorem thirdPass_onPage {es : List Entry} (hes : ∀ e ∈ es, OnPage page e.mz) {E : List Entry}
    (hE : ∀ e ∈ E, e.mz.addr64 = 0) (ps : List Memseg) : ∃ es', thirdPass (page :: ps) (es ++ E) = .ok es' := by
  induction es with
  | nil =>
    cases E with
    | nil => exact ⟨_, rfl⟩
    | cons e E => exact ⟨_, if_pos (hE e (by simp))⟩
  | cons e es ih =>
    rw [List.forall_mem_cons] at hes
    obtain ⟨es', hes'⟩ := ih hes.2
    have hfind : findOffset e.mz.addr64 (page :: ps) 0 = some (e.mz.addr64 - page.addr64 + 0) := if_pos hes.1.inside
    refine ⟨{ e with offset := e.mz.addr64 - page.addr64 + 0 } :: es', ?_⟩
    simp only [List.cons_append, thirdPass, if_neg hes.1.addr, hfind, hes']

/-- `build_config` succeeds for zones on one page. -/
private theorem buildConfig_onPage {env : Env} (hq : MovesEmptyLast env.qsort) (hmalloc : env.malloc = true)
    (hfile : (env.hugefile page.addr64).isSome) {config : Config} {es E : List Entry} (hsplit : config.Splits es E)
    (hne : es ≠ []) (hes : ∀ e ∈ es, OnPage page e.mz) : ∃ config', buildConfig env config = .ok config' := by
  obtain ⟨es', E', hsort, hperm, hpermE⟩ := hsplit.qsort hq
  have hes' : ∀ e ∈ es', OnPage page e.mz := fun e he => hes e (hperm.subset he)
  have hE' : ∀ e ∈ E', e.mz.addr64 = 0 := fun e he => hsplit.free_addr e (hpermE.subset he)
  obtain ⟨pages, hpages⟩ : ∃ pages, pages = page :: freePages 4095 := ⟨_, rfl⟩
  have h1 : firstPass (es' ++ E') (freePages hostshmemMaxPages) = .ok pages := by
    obtain ⟨e, es', rfl⟩ := List.exists_cons_of_ne_nil (mt (fun h => by simpa [h] using hperm) hne : es' ≠ [])
    rw [List.forall_mem_cons] at hes'
    rw [List.cons_append, firstPass, hostshmemMaxPages, collectZone_first hpage hes'.1 4095, hpages]
    exact firstPass_again hpage hes'.2 hE' 4094
  have h2 : secondPass pages = .ok pages := by
    have hused : Used [page] := by
      intro p hp
      rw [List.mem_singleton.1 hp]
      exact ⟨hpage.addr, UInt64.pos_iff_ne_zero.2 hpage.len⟩
    obtain ⟨P, hsel, hsecond⟩ := secondPass_eq hused 4095
    obtain rfl := List.perm_singleton.1 hsel.stable.perm
    rw [hpages]
    exact hsecond
  obtain ⟨entry, h3⟩ := thirdPass_onPage hes' hE' (freePages 4095)
  obtain ⟨⟨filepath, offset⟩, hfile⟩ := Option.isSome_iff_exists.1 hfile
  obtain ⟨ms, h4⟩ : ∃ ms, fourthPass env.hugefile pages config.memsegCache 0 = .ok ms := by
    refine ⟨config.memsegCache.set 0 ⟨filepath, offset, page.len⟩, ?_⟩
    rw [hpages, fourthPass, if_neg (by simp [hpage.addr]), if_neg (by decide)]
    simp [hfile, continues, fourthPass, freePages]
  rw [← hpages] at h3
  exact ⟨_, by simp only [buildConfig, hmalloc, hsort, h1, h2, h3, h4]; rfl⟩

/-- A zone on the page that meets no other zone is added as long as an entry is free. -/
private theorem succeeds_onPage {a : Add} (hq : MovesEmptyLast a.env.qsort) (hmalloc : a.env.malloc = true)
    (hfile : (a.env.hugefile page.addr64).isSome) (hmz : OnPage page a.mz) {config : Config} {es E : List Entry}
    (hsplit : config.Splits es E) (hes : ∀ e ∈ es, OnPage page e.mz) (hover : ∀ e ∈ es, overlap a.mz e.mz = false)
    (hempty : overlap a.mz {} = false) (hfree : E ≠ []) : config.Succeeds a := by
  have hslot : ∀ (as : List Entry) (i : Nat), (∀ e ∈ as, e ∈ es) → ∃ k, findFreeSlot a.mz (as ++ E) i = .ok k := by
    intro as
    induction as with
    | nil =>
      obtain ⟨e, E, rfl⟩ := List.exists_cons_of_ne_nil hfree
      intro i _
      obtain rfl := hsplit.free e (by simp)
      exact ⟨i, by simp [findFreeSlot, hempty]⟩
    | cons e as ih =>
      intro i has
      rw [List.forall_mem_cons] at has
      obtain ⟨k, hk⟩ := ih (i + 1) has.2
      exact ⟨k, by simpa [findFreeSlot, hover e has.1, hsplit.used e has.1] using hk⟩
  obtain ⟨k, hk⟩ := hslot es 0 fun _ he => he
  rw [← hsplit.entry] at hk
  rcases config.add_cases a with ⟨-, -, hnone⟩ | ⟨A, e, B, hentry, hfound, he, hA, -⟩
  · exact absurd hk (hnone k)
  · have hins := hsplit.insert hentry he (fun x hx => (hA x hx).1) hmz.addr
    have hall : ∀ x ∈ A ++ [⟨a.mz, 0⟩], OnPage page x.mz := by
      intro x hx
      rcases List.mem_append.1 hx with hx | hx
      · have hmem : x ∈ es ++ E := by
          rw [← hsplit.entry, hentry]
          exact List.mem_append_left _ hx
        rcases List.mem_append.1 hmem with hmem | hmem
        · exact hes x hmem
        · exact absurd (hsplit.free_addr x hmem) (hA x hx).1
      · rw [List.mem_singleton.1 hx]
        exact hmz
    obtain ⟨config', hbuild⟩ := buildConfig_onPage hpage hq hmalloc hfile hins (by simp) hall
    unfold Config.Succeeds addMemzoneToMetadata
    simp only [hfound, hbuild]

end

/-! ### One ring and many rings -/

/-- The zone of ring `i`, all on one page. -/
def ringZone (i : Nat) : Memzone :=
  { name := "RG_r".toList, addr64 := 0x7f0000000000 + 0x1000 * UInt64.ofNat i,
    physAddr := 0x100000000 + 0x1000 * UInt64.ofNat i, len := 0x1000, hugepageSz := 0x200000 }

/-- The calls that add `n` rings. -/
def ringAdds (n : Nat) : List Add := (List.range n).map fun i => ⟨plainEnv, ringZone i⟩

/-- The metadata with `n` rings. -/
def ringConfig (n : Nat) : Config := (ringAdds n).foldl Config.add (Config.create [])

private def ringPage : Memseg := { addr64 := 0x7f0000000000, physAddr := 0x100000000, len := 0x200000 }

private theorem ringPage_plain : PlainPage ringPage := ⟨rfl, by decide, by decide, by decide⟩

private theorem onPage_ringZone {i : Nat} (hi : i < 128) : OnPage ringPage (ringZone i) := by
  have hall : ∀ i < 128, (ringZone i).addr64 ≠ 0 ∧
      ((ringZone i).span.start, (ringZone i).span.phys, (ringZone i).span.len) =
        (0x7f0000000000, 0x100000000, 0x200000) ∧
      0x7f0000000000 ≤ (ringZone i).addr64 ∧ (ringZone i).addr64 < 0x7f0000000000 + 0x200000 := by decide +kernel
  obtain ⟨haddr, hspan, hinside⟩ := hall i hi
  cases hspan' : (ringZone i).span with
  | mk start phys len =>
    rw [hspan'] at hspan
    cases hspan
    exact ⟨haddr, rfl, hspan', hinside⟩

private theorem overlap_ringZone {i j : Nat} (hi : i < 128) (hj : j < 128) (hne : i ≠ j) :
    overlap (ringZone i) (ringZone j) = false := by
  have hall : ∀ i < 128, (ringZone i).addr64.toNat = 0x7f0000000000 + 0x1000 * i ∧
      ((ringZone i).addr64 + (ringZone i).len).toNat = 0x7f0000001000 + 0x1000 * i := by decide +kernel
  obtain ⟨h1, h2⟩ := hall i hi
  obtain ⟨h3, h4⟩ := hall j hj
  simp only [overlap, UInt64.le_iff_toNat_le, UInt64.lt_iff_toNat_lt, h1, h2, h3, h4, decide_eq_false_iff_not]
  omega

/-- Behind the rings before it, a ring finds a free entry and overlaps nothing. -/
private theorem succeeds_ringZone {n : Nat} (hn : n < 128) {config : Config} {es E : List Entry}
    (hsplit : config.Splits es E) (hlen : config.entry.length = 128)
    (hzones : config.zones.Perm ((List.range n).map ringZone)) : config.Succeeds ⟨plainEnv, ringZone n⟩ := by
  have hmem : ∀ e ∈ es, ∃ i < n, e.mz = ringZone i := by
    intro e he
    have hz : e.mz ∈ config.zones := by
      rw [hsplit.zones_eq]
      exact List.mem_map_of_mem he
    obtain ⟨i, hi, heq⟩ := List.mem_map.1 (hzones.subset hz)
    exact ⟨i, List.mem_range.1 hi, heq.symm⟩
  have hfree : E ≠ [] := by
    rintro rfl
    have h1 := hzones.length_eq
    rw [hsplit.zones_eq, List.length_map, List.length_map, List.length_range] at h1
    rw [hsplit.entry, List.append_nil, h1] at hlen
    omega
  refine succeeds_onPage ringPage_plain plainEnv_sorts rfl rfl (onPage_ringZone hn) hsplit (fun e he => ?_)
    (fun e he => ?_) ?_ hfree
  · obtain ⟨i, hi, heq⟩ := hmem e he
    rw [heq]
    exact onPage_ringZone (by omega)
  · obtain ⟨i, hi, heq⟩ := hmem e he
    rw [heq]
    exact overlap_ringZone (by omega) (by omega) (by omega)
  · exact (show ∀ i < 128, overlap (ringZone i) {} = false by decide +kernel) n hn

/-- Up to the number of entries, the rings are all added. -/
private theorem ringAdds_succeed {n : Nat} (hn : n ≤ 128) :
    Along Config.add Config.Succeeds (Config.create []) (ringAdds n) ∧
      (∃ es E, (ringConfig n).Splits es E) ∧ (ringConfig n).entry.length = 128 ∧
      (ringConfig n).zones.Perm ((List.range n).map ringZone) := by
  induction n with
  | zero => exact ⟨trivial, ⟨[], _, Config.create_splits []⟩, by simp [ringConfig, ringAdds, Config.create,
      hostshmemMaxEntries], by decide⟩
  | succ n ih =>
    obtain ⟨hok, ⟨es, E, hsplit⟩, hlen, hzones⟩ := ih (by omega)
    have hadds : ringAdds (n + 1) = ringAdds n ++ [⟨plainEnv, ringZone n⟩] := by
      simp [ringAdds, List.range_succ]
    have hconfig : ringConfig (n + 1) = (ringConfig n).add ⟨plainEnv, ringZone n⟩ := by
      rw [ringConfig, hadds, List.foldl_append]
      rfl
    have haddr := (onPage_ringZone hn).addr
    have hadd := succeeds_ringZone hn hsplit hlen hzones
    rw [hadds, hconfig]
    refine ⟨along_append.2 ⟨hok, hadd, trivial⟩, hsplit.add plainEnv_sorts haddr,
      (length_entry_add plainEnv_sorts.perm).trans hlen, ?_⟩
    refine (Config.zones_of_succeeds plainEnv_sorts.perm haddr hadd).trans ?_
    rw [List.range_succ, List.map_append]
    exact (hzones.cons _).trans (List.perm_append_singleton _ _).symm

/-- A zone that is neither a mempool nor a ring. -/
def devDataZone : Memzone :=
  { name := "rte_eth_dev_data".toList, addr64 := 0x7e0000000000, physAddr := 0x80000000, len := 0x1000,
    hugepageSz := 0x200000 }

/-- The state with this zone. -/
def devDataEal : Eal := { memzone := devDataZone :: List.replicate (maxMemzone - 1) {}, memzoneCnt := 1 }

private theorem devDataEal_occupies : Occupies devDataEal.memzone [devDataZone] := by
  refine ⟨⟨List.replicate (maxMemzone - 1) {}, rfl, fun mz hmz => ?_⟩, fun mz hmz => ?_⟩
  · rw [List.eq_of_mem_replicate hmz]
  · rw [List.mem_singleton.1 hmz]
    decide

private theorem length_devDataEal : devDataEal.memzone.length = maxMemzone := by
  rw [devDataEal, List.length_cons, List.length_replicate]
  rfl

theorem imported_all_rings :
    Along Config.add Config.Succeeds (Config.create []) (ringAdds 128) ∧
      ∃ eal' : Eal, objInit (importEnv (ringConfig 128)) devDataEal = (eal', none) ∧
        Imported devDataEal eal' [devDataZone] (ringConfig 128).zones := by
  obtain ⟨hok, -, hlen, hzones⟩ := ringAdds_succeed (Nat.le_refl 128)
  have hfull : (ringConfig 128).zones.length = hostshmemMaxEntries := by
    rw [hzones.length_eq, List.length_map, List.length_range]
    rfl
  have hroom : devDataEal.memzoneCnt + (ringConfig 128).entry.length ≤ maxMemzone := by
    rw [hlen]
    decide
  obtain ⟨eal', hrun⟩ := objInit_importEnv hroom
  have hsort : ∀ a ∈ ringAdds 128, ∀ l, (a.env.qsort l).Perm l := by
    intro a ha l
    obtain ⟨i, -, rfl⟩ := List.mem_map.1 ha
    exact plainEnv_sorts.perm l
  exact ⟨hok, eal', hrun, (imported_iff_full [] (ringAdds 128) hsort rfl rfl rfl
    length_devDataEal devDataEal_occupies rfl hrun).2 ⟨hfull, by decide⟩⟩

/-- The state before anything is reserved. -/
def freshEal : Eal := { memzone := List.replicate maxMemzone {}, memzoneCnt := 0 }

/-- The import of one ring makes the count 128, with one occupied slot. -/
theorem oneRing_counted_as_128 :
    Along Config.add Config.Succeeds (Config.create []) (ringAdds 1) ∧
      ∃ eal' : Eal, objInit (importEnv (ringConfig 1)) freshEal = (eal', none) ∧
        eal'.memzoneCnt = 128 ∧ (eal'.memzone.filter (fun mz => mz.addr64 ≠ 0)).length = 1 ∧
        ¬Imported freshEal eal' [] (ringConfig 1).zones := by
  refine ⟨by decide +kernel, ?_⟩
  have hok : (objInit (importEnv (ringConfig 1)) freshEal).2 = none ∧
      (objInit (importEnv (ringConfig 1)) freshEal).1.memzoneCnt = 128 ∧
      ((objInit (importEnv (ringConfig 1)) freshEal).1.memzone.filter (fun mz => mz.addr64 ≠ 0)).length = 1 ∧
      (ringConfig 1).zones.length = 1 := by decide +kernel
  generalize objInit (importEnv (ringConfig 1)) freshEal = result at hok ⊢
  obtain ⟨eal', failure⟩ := result
  obtain ⟨rfl, hcnt, hone, hzones⟩ := hok
  refine ⟨eal', rfl, hcnt, hone, fun himp => ?_⟩
  have := himp.count
  rw [List.nil_append, hzones, hcnt] at this
  exact absurd this (by decide)

end SoftPatchPanel.Hostshmem

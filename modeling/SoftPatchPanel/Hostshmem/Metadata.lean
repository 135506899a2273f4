import SoftPatchPanel.Hostshmem.BuildConfig

/-!
# Adding memzones, rings and mempools to a config

`add_memzone_to_metadata` and the functions above it in `rte_hostshmem.c`.  A zone is copied into the first free
entry before `build_config` runs and stays there when `build_config` fails, so `addMemzoneToMetadata` returns the
config it leaves behind in either case.
-/

namespace SoftPatchPanel.Hostshmem

open Lib

/-- `overlap`: the virtual ranges of two zones meet. -/
def overlap (s1 s2 : Memzone) : Bool :=
  (s2.addr64 ≤ s1.addr64 ∧ s1.addr64 < s2.addr64 + s2.len) ∨
    (s1.addr64 ≤ s2.addr64 ∧ s2.addr64 < s1.addr64 + s1.len)

/-- `entry_compare`. -/
def entryCompare (e1 e2 : Entry) : Int :=
  if e1.mz.addr64 = 0 ∧ e2.mz.addr64 = 0 then 0
  else if e1.mz.addr64 = 0 then 1
  else if e2.mz.addr64 = 0 then -1
  else if e1.mz.physAddr > e2.mz.physAddr then 1 else 0

/-- The loop of `add_memzone_to_metadata` that looks for a free slot.  The address of a field is never NULL, so
the overlap test is made for every entry it passes, the free one included. -/
def findFreeSlot (mz : Memzone) : List Entry → Nat → Except Failure Nat
  | [], _ => .error .noSpaceLeft
  | e :: es, i =>
    if overlap mz e.mz then .error .overlapping
    else if e.mz.addr64 = 0 then .ok i
    else findFreeSlot mz es (i + 1)

/-- `memcpy(&entry->mz, mz, sizeof(struct rte_memzone))` for entry `i`. -/
def Config.insert (config : Config) (i : Nat) (mz : Memzone) : Config :=
  { config with entry := config.entry.set i { (config.entry.getD i {}) with mz := mz } }

/-- `add_memzone_to_metadata`: the config afterwards, and why it failed (`none` for the result 0). -/
def addMemzoneToMetadata (env : Env) (mz : Memzone) (config : Config) : Config × Option Failure :=
  match findFreeSlot mz config.entry 0 with
  | .error f => (config, some f)
  | .ok i =>
    match buildConfig env (config.insert i mz) with
    | .error f => (config.insert i mz, some f)
    | .ok config' => (config', none)

/-! ### The functions of the library -/

/-- The state the library works on: `hostshmem_global_config` up to its first free slot, and `mcfg->memzone`. -/
structure Process where
  configs : List Config
  memzone : List Memzone

/-- `get_config_by_name`. -/
def getConfigByName (name : CStr) (configs : List Config) : Option Nat :=
  configs.findIdx? (fun config => decide (name = config.name))

/-- `get_memzone_by_addr`. -/
def getMemzoneByAddr (addr : UInt64) (memzone : List Memzone) : Option Nat :=
  memzone.findIdx? (fun mz => decide (mz.addr64 = addr))

/-- `add_memzone_to_metadata` with the marking of the zone as not freeable, for the zone at `idx` of the table. -/
def addZone (env : Env) (p : Process) (idx slot : Nat) : Process × Option Failure :=
  let mz := p.memzone.getD idx {}
  match p.configs[slot]? with
  | none => (p, some .unknownConfig)
  | some config =>
    match addMemzoneToMetadata env mz config with
    | (config', some f) => ({ p with configs := p.configs.set slot config' }, some f)
    | (config', none) =>
      ({ configs := p.configs.set slot config'
         memzone := p.memzone.set idx { mz with ioremapAddr := mz.physAddr } }, none)

/-- `add_ring_to_metadata`, for the ring at address `r`. -/
def addRingToMetadata (env : Env) (p : Process) (r : UInt64) (slot : Nat) : Process × Option Failure :=
  match getMemzoneByAddr r p.memzone with
  | none => (p, some .noMemzone)
  | some idx => addZone env p idx slot

/-- `add_mempool_to_metadata`, for the mempool at address `mp` whose ring is at `ring`. -/
def addMempoolToMetadata (env env' : Env) (p : Process) (mp ring : UInt64) (slot : Nat) :
    Process × Option Failure :=
  match getMemzoneByAddr mp p.memzone with
  | none => (p, some .noMemzone)
  | some idx =>
    match addZone env p idx slot with
    | (p', some f) => (p', some f)
    | (p', none) => addRingToMetadata env' p' ring slot

/-- A call of one of the three functions of the library, with the surroundings of each `build_config` it makes. -/
inductive Call where
  | addMemzone (env : Env) (idx : Nat) (name : CStr)
  | addRing (env : Env) (r : UInt64) (name : CStr)
  | addMempool (env env' : Env) (mp ring : UInt64) (name : CStr)

/-- The name of the config a call is about. -/
def Call.name : Call → CStr
  | .addMemzone _ _ name | .addRing _ _ name | .addMempool _ _ _ _ name => name

/-- The surroundings a call meets. -/
def Call.envs : Call → List Env
  | .addMemzone env _ _ | .addRing env _ _ => [env]
  | .addMempool env env' _ _ _ => [env, env']

/-- `rte_hostshmem_metadata_add_memzone`, `rte_hostshmem_metadata_add_ring` and
`rte_hostshmem_metadata_add_mempool`.  Rings and mempools are given by their address, a zone by its place in the
table, with a place behind the table for NULL. -/
def Call.run (p : Process) (call : Call) : Process × Option Failure :=
  match getConfigByName call.name p.configs with
  | none => (p, some .unknownConfig)
  | some slot =>
    match call with
    | .addMemzone env idx _ => if p.memzone.length ≤ idx then (p, some .nullArgument) else addZone env p idx slot
    | .addRing env r _ => if r = 0 then (p, some .nullArgument) else addRingToMetadata env p r slot
    | .addMempool env env' mp ring _ =>
      if mp = 0 then (p, some .nullArgument) else addMempoolToMetadata env env' p mp ring slot

/-! ### Configs reached by successful calls -/

/-- The configs that successful calls of `add_memzone_to_metadata` lead to from a new one, when the surroundings
of each call satisfy `E` and each zone satisfies `Z`. -/
inductive Built (E : Env → Prop) (Z : Memzone → Prop) : Config → Prop where
  | create (name : CStr) : Built E Z (Config.create name)
  | add {config config' : Config} (env : Env) (mz : Memzone) (hE : E env) (hZ : Z mz)
      (hadd : addMemzoneToMetadata env mz config = (config', none)) (h : Built E Z config) : Built E Z config'

/-- The free slot that was found, with the entries that the search passed. -/
theorem findFreeSlot_eq_ok {mz : Memzone} {es : List Entry} {i k : Nat} (h : findFreeSlot mz es i = .ok k) :
    ∃ A e B, es = A ++ e :: B ∧ k = i + A.length ∧ e.mz.addr64 = 0 ∧ overlap mz e.mz = false ∧
      ∀ a ∈ A, a.mz.addr64 ≠ 0 ∧ overlap mz a.mz = false := by
  induction es generalizing i with
  | nil => cases h
  | cons e es ih =>
    unfold findFreeSlot at h
    split at h
    · cases h
    · rename_i hov
      split at h
      · rename_i he
        cases h
        exact ⟨[], e, es, rfl, rfl, he, by simpa using hov, by simp⟩
      · rename_i he
        obtain ⟨A, e', B, rfl, rfl, he', hov', hA⟩ := ih h
        refine ⟨e :: A, e', B, rfl, by rw [List.length_cons]; omega, he', hov', ?_⟩
        exact List.forall_mem_cons.2 ⟨⟨he, by simpa using hov⟩, hA⟩

theorem Config.insert_entry {config : Config} {A B : List Entry} {e : Entry} (h : config.entry = A ++ e :: B)
    (mz : Memzone) : (config.insert A.length mz).entry = A ++ { e with mz := mz } :: B := by
  simp [Config.insert, h]

/-- What a successful `add_memzone_to_metadata` did: it met no overlap up to the first free entry, put the zone
there and rebuilt the config. -/
theorem addMemzoneToMetadata_ok {env : Env} {mz : Memzone} {config config' : Config}
    (h : addMemzoneToMetadata env mz config = (config', none)) :
    ∃ i, findFreeSlot mz config.entry 0 = .ok i ∧ buildConfig env (config.insert i mz) = .ok config' := by
  unfold addMemzoneToMetadata at h
  split at h
  · cases h
  · rename_i i hi
    split at h
    · cases h
    · rename_i c hc
      cases h
      exact ⟨i, hi, hc⟩

/-- The processes that successful calls lead to from `p₀`, when the surroundings of each call satisfy `E`. -/
inductive Reached (E : Env → Prop) (p₀ : Process) : Process → Prop where
  | start : Reached E p₀ p₀
  | call {p p' : Process} (c : Call) (hE : ∀ env ∈ c.envs, E env) (hok : c.run p = (p', none))
      (h : Reached E p₀ p) : Reached E p₀ p'

section

variable {E : Env → Prop} {Z : Memzone → Prop}

/-- What the calls keep up: the configs are built from zones that satisfy `Z`, and so does the zone table. -/
private structure Sound (E : Env → Prop) (Z : Memzone → Prop) (p : Process) : Prop where
  configs : ∀ config ∈ p.configs, Built E Z config
  memzone : ∀ mz ∈ p.memzone, Z mz

private theorem Sound.addZone {env : Env} {p p' : Process} {idx slot : Nat} (hs : Sound E Z p)
    (hZ : ∀ mz a, Z mz → Z { mz with ioremapAddr := a }) (hE : E env) (hidx : idx < p.memzone.length)
    (hok : addZone env p idx slot = (p', none)) : Sound E Z p' ∧ p'.memzone.length = p.memzone.length := by
  have hmem : p.memzone.getD idx {} ∈ p.memzone := by
    rw [List.getD_eq_getElem _ _ hidx]; exact List.getElem_mem hidx
  unfold Hostshmem.addZone at hok
  simp only at hok
  split at hok
  · cases hok
  rename_i config hconfig
  split at hok
  · cases hok
  rename_i config' hadd
  cases hok
  refine ⟨⟨fun c hc => ?_, fun mz hmz => ?_⟩, by simp⟩
  · rcases List.mem_or_eq_of_mem_set hc with h | rfl
    · exact hs.configs c h
    · exact Built.add env _ hE (hs.memzone _ hmem) hadd (hs.configs config (List.mem_of_getElem? hconfig))
  · rcases List.mem_or_eq_of_mem_set hmz with h | rfl
    · exact hs.memzone mz h
    · exact hZ _ _ (hs.memzone _ hmem)

private theorem getMemzoneByAddr_lt {addr : UInt64} {memzone : List Memzone} {idx : Nat}
    (h : getMemzoneByAddr addr memzone = some idx) : idx < memzone.length :=
  (List.findIdx?_eq_some_iff_getElem.1 h).1

private theorem Sound.addRing {env : Env} {p p' : Process} {r : UInt64} {slot : Nat} (hs : Sound E Z p)
    (hZ : ∀ mz a, Z mz → Z { mz with ioremapAddr := a }) (hE : E env)
    (hok : addRingToMetadata env p r slot = (p', none)) : Sound E Z p' := by
  unfold addRingToMetadata at hok
  split at hok
  · cases hok
  · rename_i idx hidx
    exact (hs.addZone hZ hE (getMemzoneByAddr_lt hidx) hok).1

private theorem Sound.addMempool {env env' : Env} {p p' : Process} {mp ring : UInt64} {slot : Nat} (hs : Sound E Z p)
    (hZ : ∀ mz a, Z mz → Z { mz with ioremapAddr := a }) (hE : E env) (hE' : E env')
    (hok : addMempoolToMetadata env env' p mp ring slot = (p', none)) : Sound E Z p' := by
  unfold addMempoolToMetadata at hok
  split at hok
  · cases hok
  · rename_i idx hidx
    split at hok
    · cases hok
    · rename_i p₁ hzone
      exact (hs.addZone hZ hE (getMemzoneByAddr_lt hidx) hzone).1.addRing hZ hE' hok

/-- Every config that calls of the library lead to is built up by `add_memzone_to_metadata`. -/
theorem Reached.built {p₀ p : Process} (hZ : ∀ mz a, Z mz → Z { mz with ioremapAddr := a })
    (hconfigs : ∀ config ∈ p₀.configs, ∃ name, config = Config.create name) (hzones : ∀ mz ∈ p₀.memzone, Z mz)
    (h : Reached E p₀ p) : ∀ config ∈ p.configs, Built E Z config := by
  suffices hs : Sound E Z p from hs.configs
  induction h with
  | start =>
    refine ⟨fun config hc => ?_, hzones⟩
    obtain ⟨name, rfl⟩ := hconfigs config hc
    exact Built.create name
  | @call p p' c hE hok _ ih =>
    unfold Call.run at hok
    split at hok
    · cases hok
    · cases c with
      | addMemzone env idx name =>
        simp only at hok
        split at hok
        · cases hok
        · exact (ih.addZone hZ (hE env (by simp [Call.envs])) (by omega) hok).1
      | addRing env r name =>
        simp only at hok
        split at hok
        · cases hok
        · exact ih.addRing hZ (hE env (by simp [Call.envs])) hok
      | addMempool env env' mp ring name =>
        simp only at hok
        split at hok
        · cases hok
        · exact ih.addMempool hZ (hE env (by simp [Call.envs])) (hE env' (by simp [Call.envs])) hok

end

end SoftPatchPanel.Hostshmem

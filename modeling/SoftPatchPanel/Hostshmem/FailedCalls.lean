import SoftPatchPanel.Hostshmem.Shape

/-!
# Calls that fail

A call that finds no free entry for its zone changes nothing.  Once the zone has been copied into an entry it stays
there, though `build_config` fails afterwards, and a mempool whose ring is rejected stays exported
(`unchanged_iff_not_copies`).
-/

namespace SoftPatchPanel.Hostshmem

open Lib

/-- `add_memzone_to_metadata` copies the zone over a free entry with other contents. -/
def Config.Copies (config : Config) (mz : Memzone) : Prop :=
  ∃ i, findFreeSlot mz config.entry 0 = .ok i ∧ (config.entry.getD i {}).mz ≠ mz

private theorem Config.insert_eq_self_iff {config : Config} {A B : List Entry} {e : Entry} {mz : Memzone}
    (h : config.entry = A ++ e :: B) : config.insert A.length mz = config ↔ e.mz = mz := by
  constructor
  · intro heq
    have hentry := congrArg Config.entry heq
    rw [Config.insert_entry h mz, h, List.append_cancel_left_eq, List.cons.injEq] at hentry
    rw [← hentry.1]
  · rintro rfl
    have hentry := Config.insert_entry h e.mz
    rw [← h] at hentry
    unfold Config.insert at hentry ⊢
    simp only at hentry
    rw [hentry]

/-- A failed call of `add_memzone_to_metadata` leaves the config alone exactly when it copied nothing. -/
private theorem add_eq_self_iff {config : Config} {a : Add} (hfail : ¬config.Succeeds a) :
    config.add a = config ↔ ¬config.Copies a.mz := by
  rcases config.add_cases a with ⟨hadd, -, hslot⟩ | ⟨A, e, B, hentry, hslot, -, -, ⟨hadd, -⟩ | ⟨-, hok⟩⟩
  · exact ⟨fun _ ⟨i, hi, _⟩ => hslot i hi, fun _ => hadd⟩
  · have hget : config.entry.getD A.length {} = e := by simp [hentry]
    rw [hadd, Config.insert_eq_self_iff hentry]
    constructor
    · rintro heq ⟨i, hi, hne⟩
      rw [hslot] at hi
      cases hi
      exact hne (by rw [hget, heq])
    · intro hnot
      by_contra hne
      exact hnot ⟨A.length, hslot, by rw [hget]; exact hne⟩
  · exact absurd hok hfail

private theorem length_zones_le_insert {config : Config} {A B : List Entry} {e : Entry} (mz : Memzone)
    (h : config.entry = A ++ e :: B) (he : e.mz.addr64 = 0) :
    config.zones.length ≤ (config.insert A.length mz).zones.length := by
  by_cases hmz : mz.addr64 = 0
  · unfold Config.zones
    rw [Config.insert_entry h mz, h]
    simp [he, hmz]
  · rw [(Config.zones_insert h he hmz).length_eq]
    simp

private theorem length_zones_le_add {config : Config} {a : Add} (hq : ∀ l, (a.env.qsort l).Perm l) :
    config.zones.length ≤ (config.add a).zones.length := by
  rcases config.add_cases a with ⟨hadd, -⟩ | ⟨A, e, B, hentry, -, he, -, ⟨hadd, -⟩ | ⟨hbuild, -⟩⟩
  · rw [hadd]
  · rw [hadd]; exact length_zones_le_insert a.mz hentry he
  · rw [(zones_of_buildConfig hq hbuild).length_eq]
    exact length_zones_le_insert a.mz hentry he

/-- A zone that is in use and gets added was copied. -/
private theorem copies_of_succeeds {config : Config} {a : Add} (hmz : a.mz.addr64 ≠ 0) (hok : config.Succeeds a) :
    config.Copies a.mz := by
  rcases config.add_cases a with ⟨-, hfail, -⟩ | ⟨A, e, B, hentry, hslot, he, -, -⟩
  · exact absurd hok hfail
  · refine ⟨A.length, hslot, fun heq => hmz ?_⟩
    rw [← heq, ← he]
    simp [hentry]

/-! ### The functions of the library -/

/-- The place in the table of the zone that a call adds first. -/
def Call.zone (p : Process) : Call → Option Nat
  | .addMemzone _ idx _ => if p.memzone.length ≤ idx then none else some idx
  | .addRing _ r _ => if r = 0 then none else getMemzoneByAddr r p.memzone
  | .addMempool _ _ mp _ _ => if mp = 0 then none else getMemzoneByAddr mp p.memzone

/-- The call gets so far that it copies the first of its zones into the metadata. -/
def Call.Copies (p : Process) (call : Call) : Prop :=
  ∃ slot config idx, getConfigByName call.name p.configs = some slot ∧ p.configs[slot]? = some config ∧
    call.zone p = some idx ∧ config.Copies (p.memzone.getD idx {})

private theorem set_eq_self_iff {α : Type} {l : List α} {i : Nat} {x y : α} (h : l[i]? = some x) :
    l.set i y = l ↔ y = x := by
  obtain ⟨hi, rfl⟩ := List.getElem?_eq_some_iff.1 h
  constructor
  · intro heq
    have := congrArg (·[i]?) heq
    simp only [List.getElem?_set_self hi, List.getElem?_eq_getElem hi, Option.some.injEq] at this
    exact this
  · rintro rfl
    exact List.set_getElem_self hi

private theorem addZone_configs (env : Env) {p : Process} (idx : Nat) {slot : Nat} {config : Config}
    (h : p.configs[slot]? = some config) :
    (addZone env p idx slot).1.configs = p.configs.set slot (config.add ⟨env, p.memzone.getD idx {}⟩) ∧
      ((addZone env p idx slot).2 = none ↔ config.Succeeds ⟨env, p.memzone.getD idx {}⟩) := by
  unfold addZone Config.add Config.Succeeds
  simp only [h]
  generalize addMemzoneToMetadata env (p.memzone.getD idx {}) config = r
  obtain ⟨config', failure⟩ := r
  cases failure <;> simp

private theorem addZone_unchanged_iff {env : Env} {p p' : Process} {idx slot : Nat} {config : Config} {f : Failure}
    (h : p.configs[slot]? = some config) (hfail : addZone env p idx slot = (p', some f)) :
    p'.configs = p.configs ↔ ¬config.Copies (p.memzone.getD idx {}) := by
  obtain ⟨hconfigs, hok⟩ := addZone_configs env idx h
  rw [hfail] at hconfigs hok
  simp only at hconfigs
  rw [hconfigs, set_eq_self_iff h]
  exact add_eq_self_iff (a := ⟨env, p.memzone.getD idx {}⟩) fun hs => by simpa using hok.2 hs

private theorem getConfigByName_some {name : CStr} {configs : List Config} {slot : Nat}
    (h : getConfigByName name configs = some slot) : ∃ config, configs[slot]? = some config := by
  have hlt := (List.findIdx?_eq_some_iff_getElem.1 h).1
  exact ⟨configs.get ⟨slot, hlt⟩, List.getElem?_eq_getElem hlt⟩

private theorem getMemzoneByAddr_addr {addr : UInt64} {memzone : List Memzone} {idx : Nat}
    (h : getMemzoneByAddr addr memzone = some idx) : (memzone.getD idx {}).addr64 = addr := by
  obtain ⟨hlt, hp, -⟩ := List.findIdx?_eq_some_iff_getElem.1 h
  rw [List.getD_eq_getElem _ _ hlt]
  simpa using hp

/-- The ring of a mempool whose own zone has been added does not take that zone back. -/
private theorem length_zones_addRing {env : Env} {p p' : Process} {r : UInt64} {slot : Nat} {config : Config}
    {o : Option Failure} (hq : ∀ l, (env.qsort l).Perm l) (h : p.configs[slot]? = some config)
    (hrun : addRingToMetadata env p r slot = (p', o)) :
    ∃ config', p'.configs[slot]? = some config' ∧ config.zones.length ≤ config'.zones.length := by
  unfold addRingToMetadata at hrun
  split at hrun
  · cases hrun
    exact ⟨config, h, Nat.le_refl _⟩
  · rename_i idx _
    have hconfigs := (addZone_configs env idx h).1
    rw [hrun] at hconfigs
    refine ⟨_, ?_, length_zones_le_add (a := ⟨env, p.memzone.getD idx {}⟩) hq⟩
    simp only at hconfigs
    rw [hconfigs, List.getElem?_set_self (List.getElem?_eq_some_iff.1 h).1]

private theorem addRing_unchanged_iff {env : Env} {p p' : Process} {r : UInt64} {slot : Nat} {config : Config}
    {f : Failure}
    (h : p.configs[slot]? = some config) (hfail : addRingToMetadata env p r slot = (p', some f)) :
    p'.configs = p.configs ↔ ¬∃ idx, getMemzoneByAddr r p.memzone = some idx ∧ config.Copies (p.memzone.getD idx {}) := by
  unfold addRingToMetadata at hfail
  split at hfail
  · rename_i hnone
    cases hfail
    simp [hnone]
  · rename_i idx hidx
    rw [addZone_unchanged_iff h hfail]
    simp [hidx]

private theorem addMempool_unchanged_iff {env env' : Env} {p p' : Process} {mp ring : UInt64} {slot : Nat}
    {config : Config}
    {f : Failure} (hq : ∀ l, (env.qsort l).Perm l) (hq' : ∀ l, (env'.qsort l).Perm l) (hmp : mp ≠ 0)
    (h : p.configs[slot]? = some config) (hfail : addMempoolToMetadata env env' p mp ring slot = (p', some f)) :
    p'.configs = p.configs ↔ ¬∃ idx, getMemzoneByAddr mp p.memzone = some idx ∧ config.Copies (p.memzone.getD idx {}) := by
  unfold addMempoolToMetadata at hfail
  split at hfail
  · rename_i hnone
    cases hfail
    simp [hnone]
  rename_i idx hidx
  split at hfail
  · rename_i p₁ f₁ hzone
    cases hfail
    rw [addZone_unchanged_iff h hzone]
    simp [hidx]
  · -- the zone of the mempool is in the metadata by now
    rename_i p₁ hzone
    have hmz : (p.memzone.getD idx {}).addr64 ≠ 0 := by rw [getMemzoneByAddr_addr hidx]; exact hmp
    obtain ⟨hset, hok⟩ := addZone_configs env idx h
    rw [hzone] at hset hok
    have hlen := (Config.zones_of_succeeds hq hmz (hok.1 rfl)).length_eq
    rw [List.length_cons] at hlen
    have hget : p₁.configs[slot]? = some (config.add ⟨env, p.memzone.getD idx {}⟩) := by
      rw [hset, List.getElem?_set_self (List.getElem?_eq_some_iff.1 h).1]
    obtain ⟨config', hconfig', hle⟩ := length_zones_addRing hq' hget hfail
    constructor
    · intro heq
      rw [heq, h] at hconfig'
      cases hconfig'
      omega
    · intro hnot
      exact absurd ⟨idx, hidx, copies_of_succeeds hmz (hok.1 rfl)⟩ hnot

private theorem Call.copies_iff {p : Process} {call : Call} {slot : Nat} {config : Config}
    (hslot : getConfigByName call.name p.configs = some slot) (hconfig : p.configs[slot]? = some config) :
    call.Copies p ↔ ∃ idx, call.zone p = some idx ∧ config.Copies (p.memzone.getD idx {}) := by
  constructor
  · rintro ⟨slot', config', idx, h1, h2, h3⟩
    rw [hslot] at h1
    cases h1
    rw [hconfig] at h2
    cases h2
    exact ⟨idx, h3⟩
  · rintro ⟨idx, h⟩
    exact ⟨slot, config, idx, hslot, hconfig, h⟩

/-- A call of the library that fails leaves all configs as they were exactly when it did not get as far as copying the
first of its zones. -/
theorem unchanged_iff_not_copies {p p' : Process} {call : Call} {f : Failure}
    (hq : ∀ env ∈ call.envs, ∀ l, (env.qsort l).Perm l) (hfail : call.run p = (p', some f)) :
    p'.configs = p.configs ↔ ¬call.Copies p := by
  unfold Call.run at hfail
  split at hfail
  · rename_i hname
    cases hfail
    refine ⟨?_, fun _ => rfl⟩
    rintro - ⟨slot, config, idx, hslot, -⟩
    rw [hname] at hslot
    cases hslot
  rename_i slot hslot
  obtain ⟨config, hconfig⟩ := getConfigByName_some hslot
  rw [Call.copies_iff hslot hconfig]
  cases call with
  | addMemzone env idx name =>
    simp only [Call.zone] at hfail ⊢
    split at hfail
    · rename_i hidx
      cases hfail
      simp [hidx]
    · rename_i hidx
      rw [addZone_unchanged_iff hconfig hfail]
      simp [hidx]
  | addRing env r name =>
    simp only [Call.zone] at hfail ⊢
    split at hfail
    · rename_i hr
      cases hfail
      simp [hr]
    · rename_i hr
      rw [addRing_unchanged_iff hconfig hfail, if_neg hr]
  | addMempool env env' mp ring name =>
    simp only [Call.zone] at hfail ⊢
    split at hfail
    · rename_i hmp
      cases hfail
      simp [hmp]
    · rename_i hmp
      rw [addMempool_unchanged_iff (hq env (by simp [Call.envs])) (hq env' (by simp [Call.envs])) hmp hconfig hfail,
        if_neg hmp]

/-! ### A mempool without its ring -/

/-- The zone of a mempool at the start of a hugepage of 2 MB. -/
def mempoolZone : Memzone :=
  { name := "MP_pool".toList, addr64 := 0x7f0000000000, physAddr := 0x100000000, len := 0x1000, hugepageSz := 0x200000 }

/-- A process with the zone of the mempool, and no zone for its ring. -/
def poolProcess : Process := { configs := [Config.create "pp".toList], memzone := [mempoolZone] }

/-- The process after the zone of the mempool has been added. -/
def poolAdded : Process := ((Call.addMemzone plainEnv 0 "pp".toList).run poolProcess).1

/-- The second time the zone overlaps with itself, and the call changes nothing. -/
theorem unchanged_second_time :
    ((Call.addMemzone plainEnv 0 "pp".toList).run poolAdded).2 = some .overlapping ∧
      ((Call.addMemzone plainEnv 0 "pp".toList).run poolAdded).1.configs = poolAdded.configs := by
  have hfail : ((Call.addMemzone plainEnv 0 "pp".toList).run poolAdded).2 = some .overlapping := by decide +kernel
  generalize hrun : (Call.addMemzone plainEnv 0 "pp".toList).run poolAdded = result at hfail ⊢
  obtain ⟨p, failure⟩ := result
  cases hfail
  refine ⟨rfl, (unchanged_iff_not_copies ?_ hrun).2 ?_⟩
  · intro env henv
    rw [List.mem_singleton.1 henv]
    exact plainEnv_sorts.perm
  · rintro ⟨slot, config, idx, -, hconfig, hidx, i, hi, -⟩
    have hslot : ∀ c ∈ poolAdded.configs, (findFreeSlot (poolAdded.memzone.getD 0 {}) c.entry 0).toOption = none := by
      decide +kernel
    have hzero : idx = 0 := by
      simp only [Call.zone] at hidx
      split at hidx <;> cases hidx
      rfl
    have hnone := hslot config (List.mem_of_getElem? hconfig)
    rw [hzero] at hi
    rw [hi] at hnone
    cases hnone

/-- The mempool stays exported, though the call for it fails because its ring has no memzone. -/
theorem mempool_left_behind :
    ((Call.addMempool plainEnv plainEnv 0x7f0000000000 0x7f0000001000 "pp".toList).run poolProcess).2 =
        some .noMemzone ∧
      ∀ config ∈ ((Call.addMempool plainEnv plainEnv 0x7f0000000000 0x7f0000001000 "pp".toList).run
          poolProcess).1.configs,
        config.zones = [mempoolZone] ∧ (config.memsegCache.getD 0 {}).len = 0x200000 ∧ config ∉ poolProcess.configs := by
  decide +kernel

end SoftPatchPanel.Hostshmem

import Mathlib.Logic.Function.Basic
import SoftPatchPanel.Hostshmem.Cmdline

/-!
# Creating a metadata file

`rte_hostshmem_metadata_create` takes the first free slot, maps two files that are named after the config and clears them.
The slot counts as occupied as soon as the first file is mapped, the name is cut to 31 characters when it is stored but
compared in full, and slots with the same file share its content.  So creation is all or nothing, and the new config is
the one that is found, only for some names and failures (`create_allOrNothing_iff`).  Where it is, it is the step from
a list of configs to the list with one more that the rest of the development starts from (`Created.configs`).
-/

namespace SoftPatchPanel.Hostshmem

open Lib

/-- `HOSTSHMEM_NAME_LEN`. -/
def hostshmemNameLen : Nat := 32

/-- `RTE_LIBRTE_HOSTSHMEM_MAX_METADATA_FILES`. -/
def hostshmemMaxMetadataFiles : Nat := 32

/-- `HOSTSHMEM_HP_CONFIG_FILE_FMT`. -/
def hpConfigFileFmt (name : CStr) : CStr := "/var/run/.dpdk_hostshmem_hp_metadata_".toList ++ name

/-- `hostshmem_config_path`, into a buffer of `PATH_MAX` bytes. -/
def hostshmemConfigPath (name : CStr) : CStr := snprintf pathMax (configFileFmt name)

/-- `hostshmem_hp_metadata_path`, into a buffer of `PATH_MAX` bytes. -/
def hostshmemHpMetadataPath (name : CStr) : CStr := snprintf pathMax (hpConfigFileFmt name)

/-- `strncmp(name, stored, HOSTSHMEM_NAME_LEN) == 0`. -/
def sameName (name stored : CStr) : Bool := decide (name.take hostshmemNameLen = stored.take hostshmemNameLen)

/-- `struct rte_hostshmem_metadata`, the content of the first file. -/
structure MetadataFile where
  name : CStr
  entry : List Entry

/-- `struct hostshmem_hugepage_metadata`, the content of the second file. -/
structure HpMetadataFile where
  name : CStr
  hpEntries : List HpEntry

/-- The content of the two files after `memset` and the `snprintf` of the name. -/
def MetadataFile.setup (name : CStr) : MetadataFile where
  name := snprintf hostshmemNameLen name
  entry := List.replicate hostshmemMaxEntries {}

@[inherit_doc MetadataFile.setup]
def HpMetadataFile.setup (name : CStr) : HpMetadataFile where
  name := snprintf hostshmemNameLen name
  hpEntries := List.replicate hostshmemMaxHugepages {}

/-- A slot of `hostshmem_global_config` whose `metadata` is not NULL: the name it was created under, which is the name of
the files it maps, and whether `hp_metadata` is mapped too. -/
structure Slot where
  created : CStr
  hp : Bool
  memsegCache : List CacheEntry

/-- `hostshmem_global_config` up to its first free slot, with the content of the files by their path.  A file that
nobody has written yet reads as zeros; one that an earlier process left keeps its content. -/
structure GlobalConfig where
  metadata : CStr → MetadataFile
  hpMetadata : CStr → HpMetadataFile
  slots : List Slot
  room : slots.length ≤ hostshmemMaxMetadataFiles

namespace GlobalConfig

/-- The config that a slot shows. -/
def config (g : GlobalConfig) (slot : Slot) : Config where
  name := (g.metadata (hostshmemConfigPath slot.created)).name
  entry := (g.metadata (hostshmemConfigPath slot.created)).entry
  hpEntries := if slot.hp then (g.hpMetadata (hostshmemHpMetadataPath slot.created)).hpEntries else []
  memsegCache := slot.memsegCache

/-- The configs of the occupied slots. -/
def configs (g : GlobalConfig) : List Config := g.slots.map g.config

/-- `get_config_by_name`, on the files. -/
def getConfigByName (g : GlobalConfig) (name : CStr) : Option Nat :=
  g.slots.findIdx? (fun slot => sameName name (g.config slot).name)

/-- The first free slot gets its `metadata`, and its `hp_metadata` when `hp` holds. -/
def fill (g : GlobalConfig) (name : CStr) (hp : Bool) (free : g.slots.length ≠ hostshmemMaxMetadataFiles) :
    GlobalConfig where
  metadata := g.metadata
  hpMetadata := g.hpMetadata
  slots := g.slots ++ [⟨name, hp, List.replicate hostshmemMaxPages {}⟩]
  room := by
    have := g.room
    rw [List.length_append, List.length_singleton]
    omega

/-- The metadata setup: both files are cleared and get the name. -/
def setup (g : GlobalConfig) (name : CStr) : GlobalConfig where
  metadata := Function.update g.metadata (hostshmemConfigPath name) (.setup name)
  hpMetadata := Function.update g.hpMetadata (hostshmemHpMetadataPath name) (.setup name)
  slots := g.slots
  room := g.room

/-- `rte_hostshmem_metadata_create`; `first` and `second` say whether `hostshmem_metadata_create` and
`hostshmem_hp_metadata_create` return a mapping. -/
def rteHostshmemMetadataCreate (g : GlobalConfig) (first second : Bool) : Option CStr → Int × GlobalConfig
  | none => (-1, g)
  | some name =>
    if full : g.slots.length = hostshmemMaxMetadataFiles then (-1, g)
    else if first = false then (-1, g)
    -- `metadata` is set before the second file is there
    else if second = false then (-1, g.fill name false full)
    else (0, (g.fill name true full).setup name)

/-- What a call that returns 0 is to leave: the config is found under its name, in the slot that was free, without
entries, the configs created under other names have theirs, and a new config is at the end of the list. -/
structure Created (g : GlobalConfig) (name : CStr) (g' : GlobalConfig) : Prop where
  found : g'.getConfigByName name = some g.slots.length
  noEntries : ∃ slot, g'.slots[g.slots.length]? = some slot ∧
    (∀ e ∈ (g'.config slot).entry, e = {}) ∧ ∀ e ∈ (g'.config slot).hpEntries, e = {}
  others : ∀ slot ∈ g.slots, slot.created ≠ name →
    (g'.config slot).entry = (g.config slot).entry ∧ (g'.config slot).hpEntries = (g.config slot).hpEntries
  configs : g'.configs = g.configs ++ [Config.create name]

/-- What a call that fails is to leave: the same slots are occupied and show the same configs. -/
structure Unchanged (g g' : GlobalConfig) : Prop where
  slots : g'.slots = g.slots
  configs : ∀ slot ∈ g.slots, g'.config slot = g.config slot

/-- A call leaves a complete config or nothing at all. -/
structure AllOrNothing (g : GlobalConfig) (name : CStr) (result : Int × GlobalConfig) : Prop where
  created : result.1 = 0 → Created g name result.2
  failed : result.1 < 0 → Unchanged g result.2

/-- The name fits into its buffer, no slot was created under it, and none shows it. -/
structure Fresh (g : GlobalConfig) (name : CStr) : Prop where
  fits : name.length < hostshmemNameLen
  created : ∀ slot ∈ g.slots, slot.created ≠ name
  shown : ∀ slot ∈ g.slots, sameName name (g.config slot).name = false

end GlobalConfig

/-! ### Paths and names -/

/-- The path of a short name is the path of no other name. -/
private theorem snprintf_append_inj {fmt name name' : CStr} (hfmt : fmt.length ≤ 64)
    (hname : name.length < hostshmemNameLen) :
    snprintf pathMax (fmt ++ name') = snprintf pathMax (fmt ++ name) ↔ name' = name := by
  refine ⟨fun h => ?_, fun h => by rw [h]⟩
  unfold snprintf pathMax at h
  unfold hostshmemNameLen at hname
  have hlen := congrArg List.length h
  rw [List.length_take, List.length_take, List.length_append, List.length_append] at hlen
  rw [List.take_of_length_le (by rw [List.length_append]; omega),
    List.take_of_length_le (by rw [List.length_append]; omega)] at h
  exact List.append_cancel_left h

private theorem hostshmemConfigPath_inj {name name' : CStr} (hname : name.length < hostshmemNameLen) :
    hostshmemConfigPath name' = hostshmemConfigPath name ↔ name' = name :=
  snprintf_append_inj (by decide) hname

private theorem hostshmemHpMetadataPath_inj {name name' : CStr} (hname : name.length < hostshmemNameLen) :
    hostshmemHpMetadataPath name' = hostshmemHpMetadataPath name ↔ name' = name :=
  snprintf_append_inj (by decide) hname

/-- A stored name that ends inside its buffer is the name of that text alone. -/
private theorem sameName_iff {name stored : CStr} (h : stored.length < hostshmemNameLen) :
    sameName name stored = true ↔ name = stored := by
  unfold sameName
  rw [decide_eq_true_eq, List.take_of_length_le (Nat.le_of_lt h)]
  constructor
  · intro heq
    have hlen := congrArg List.length heq
    rw [List.length_take] at hlen
    rwa [List.take_of_length_le (by omega)] at heq
  · intro heq
    rw [heq, List.take_of_length_le (Nat.le_of_lt h)]

/-- A name is stored as itself when it fits into the buffer, and is not found otherwise. -/
private theorem sameName_snprintf (name : CStr) :
    sameName name (snprintf hostshmemNameLen name) = true ↔ name.length < hostshmemNameLen := by
  have hstored : (snprintf hostshmemNameLen name).length < hostshmemNameLen := by
    unfold snprintf hostshmemNameLen
    rw [List.length_take]
    omega
  rw [sameName_iff hstored]
  unfold snprintf hostshmemNameLen
  refine ⟨fun h => ?_, fun h => (List.take_of_length_le (by omega)).symm⟩
  have hlen := congrArg List.length h
  rw [List.length_take] at hlen
  omega

private theorem findIdx?_concat_eq_length {α : Type} {p : α → Bool} {x : α} (xs : List α) :
    (xs ++ [x]).findIdx? p = some xs.length ↔ (∀ y ∈ xs, p y = false) ∧ p x = true := by
  rw [List.findIdx?_append]
  cases hxs : xs.findIdx? p with
  | none =>
    have hnone := List.findIdx?_eq_none_iff.1 hxs
    by_cases hx : p x = true
    · simpa [hx] using hnone
    · simp [hx]
  | some i =>
    obtain ⟨hi, hp, -⟩ := List.findIdx?_eq_some_iff_getElem.1 hxs
    refine iff_of_false (fun h => ?_) (fun h => ?_)
    · cases h
      exact absurd hi (Nat.lt_irrefl _)
    · rw [h.1 _ (List.getElem_mem hi)] at hp
      cases hp

private theorem snprintf_name {name : CStr} (h : name.length < hostshmemNameLen) :
    snprintf hostshmemNameLen name = name :=
  List.take_of_length_le (Nat.le_sub_one_of_lt h)

namespace GlobalConfig

/-! ### What the setup changes -/

variable {g : GlobalConfig} {name : CStr}

/-- The slots on other files show what they showed before. -/
private theorem config_setup_of_ne {slot : Slot} (hname : name.length < hostshmemNameLen) (h : slot.created ≠ name) :
    (g.setup name).config slot = g.config slot := by
  have hpath := mt (hostshmemConfigPath_inj hname).1 h
  have hhp := mt (hostshmemHpMetadataPath_inj hname).1 h
  simp only [config, setup, Function.update_of_ne hpath, Function.update_of_ne hhp]

/-- The slots on the file of the new config show its name. -/
private theorem name_setup (slot : Slot) (h : slot.created = name) :
    ((g.setup name).config slot).name = snprintf hostshmemNameLen name := by
  simp only [config, setup, h, Function.update_self, MetadataFile.setup]

/-- The slot with both files shows a new config, under the part of the name that was stored. -/
private theorem config_setup_self :
    (g.setup name).config ⟨name, true, List.replicate hostshmemMaxPages {}⟩ =
      Config.create (snprintf hostshmemNameLen name) := by
  simp only [config, setup, Function.update_self, MetadataFile.setup, HpMetadataFile.setup, Config.create, if_true]

/-! ### Creation -/

section

variable (free : g.slots.length ≠ hostshmemMaxMetadataFiles)

/-- The new config is the one that is found exactly when its name is fresh. -/
private theorem found_iff :
    ((g.fill name true free).setup name).getConfigByName name = some g.slots.length ↔ g.Fresh name := by
  have hconfig : ((g.fill name true free).setup name).config = (g.setup name).config := rfl
  have hslots : ((g.fill name true free).setup name).slots =
      g.slots ++ [⟨name, true, List.replicate hostshmemMaxPages {}⟩] := rfl
  rw [getConfigByName, hconfig, hslots, findIdx?_concat_eq_length, config_setup_self,
    Config.create, sameName_snprintf]
  constructor
  · rintro ⟨hold, hfits⟩
    have hcreated : ∀ slot ∈ g.slots, slot.created ≠ name := by
      intro slot hslot heq
      have hnot := hold slot hslot
      rw [name_setup slot heq, (sameName_snprintf name).2 hfits] at hnot
      cases hnot
    refine ⟨hfits, hcreated, fun slot hslot => ?_⟩
    rw [← config_setup_of_ne hfits (hcreated slot hslot)]
    exact hold slot hslot
  · intro h
    refine ⟨fun slot hslot => ?_, h.fits⟩
    rw [config_setup_of_ne h.fits (h.created slot hslot)]
    exact h.shown slot hslot

/-- For a fresh name, creation appends a new config to the list of configs. -/
private theorem configs_create (h : g.Fresh name) :
    ((g.fill name true free).setup name).configs = g.configs ++ [Config.create name] := by
  change (g.slots ++ [_]).map (g.setup name).config = g.slots.map g.config ++ _
  rw [List.map_append, List.map_singleton, config_setup_self, snprintf_name h.fits,
    List.map_congr_left fun slot hslot => config_setup_of_ne h.fits (h.created slot hslot)]

private theorem Fresh.created_setup (h : g.Fresh name) : Created g name ((g.fill name true free).setup name) where
  found := (found_iff free).2 h
  noEntries := by
    refine ⟨⟨name, true, List.replicate hostshmemMaxPages {}⟩, List.getElem?_concat_length .., ?_⟩
    change (∀ e ∈ ((g.setup name).config _).entry, _) ∧ ∀ e ∈ ((g.setup name).config _).hpEntries, _
    rw [config_setup_self]
    exact ⟨fun _ he => List.eq_of_mem_replicate he, fun _ he => List.eq_of_mem_replicate he⟩
  others := by
    intro slot _ hne
    have hsame : ((g.fill name true free).setup name).config slot = g.config slot := config_setup_of_ne h.fits hne
    exact ⟨congrArg Config.entry hsame, congrArg Config.hpEntries hsame⟩
  configs := configs_create free h

end

private theorem unchanged_refl (g : GlobalConfig) : Unchanged g g := ⟨rfl, fun _ _ => rfl⟩

private theorem allOrNothing_failed {g g' : GlobalConfig} {name : CStr} :
    AllOrNothing g name (-1, g') ↔ Unchanged g g' :=
  ⟨fun h => h.failed (show (-1 : Int) < 0 by decide), fun h => ⟨nofun, fun _ => h⟩⟩

/-- A call of `rte_hostshmem_metadata_create` leaves a complete config that is found under its name, or nothing, exactly
when it fails for want of a slot or of the first file, or gets both files for a fresh name. -/
theorem create_allOrNothing_iff (g : GlobalConfig) (first second : Bool) (name : CStr) :
    AllOrNothing g name (g.rteHostshmemMetadataCreate first second (some name)) ↔
      g.slots.length = hostshmemMaxMetadataFiles ∨ first = false ∨ (second = true ∧ g.Fresh name) := by
  rw [rteHostshmemMetadataCreate]
  split
  · rename_i full
    exact iff_of_true (allOrNothing_failed.2 (unchanged_refl g)) (.inl full)
  rename_i free
  split
  · rename_i hfirst
    exact iff_of_true (allOrNothing_failed.2 (unchanged_refl g)) (.inr (.inl hfirst))
  rename_i hfirst
  rw [or_iff_right free, or_iff_right hfirst]
  split
  · rename_i hsecond
    rw [allOrNothing_failed]
    -- the slot stays occupied
    refine iff_of_false (fun h => ?_) (by simp [hsecond])
    exact absurd h.slots (by simp [fill])
  · rename_i hsecond
    rw [Bool.not_eq_false] at hsecond
    rw [and_iff_right hsecond]
    exact ⟨fun h => (found_iff free).1 (h.created rfl).found,
      fun h => ⟨fun _ => h.created_setup free, fun h0 => absurd h0 (Int.lt_irrefl 0)⟩⟩

/-- A process that has no config yet, on a system without files. -/
def noConfigs : GlobalConfig where
  metadata := fun _ => ⟨[], List.replicate hostshmemMaxEntries {}⟩
  hpMetadata := fun _ => ⟨[], List.replicate hostshmemMaxHugepages {}⟩
  slots := []
  room := by decide

/-- When the second file cannot be created, the call fails with its slot occupied; a name of 32 characters is not found
after its creation; and a name that is created twice leads to the first slot. -/
theorem create_leftovers :
    ¬ AllOrNothing noConfigs "vm".toList (noConfigs.rteHostshmemMetadataCreate true false (some "vm".toList)) ∧
    ¬ AllOrNothing noConfigs (List.replicate 32 'v')
      (noConfigs.rteHostshmemMetadataCreate true true (some (List.replicate 32 'v'))) ∧
    let g := (noConfigs.rteHostshmemMetadataCreate true true (some "vm".toList)).2
    ¬ AllOrNothing g "vm".toList (g.rteHostshmemMetadataCreate true true (some "vm".toList)) := by
  refine ⟨fun h => ?_, fun h => ?_, fun h => ?_⟩
  · exact absurd (congrArg List.length (h.failed (by decide)).slots) (by decide)
  · exact absurd (h.created (by decide)).found (by decide)
  · exact absurd (h.created (by decide)).found (by decide)

end GlobalConfig

end SoftPatchPanel.Hostshmem

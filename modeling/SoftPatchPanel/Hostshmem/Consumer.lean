import SoftPatchPanel.Hostshmem.BuildConfig
import Mathlib.Data.List.Pairwise

/-!
# The process that maps the hugepages

`read_hp_metadata` and `map_hp_entries` of `eal_hostshmem.c`, over an address space that is a list of mappings.  The
kernel maps at the address that `mmap` is asked for when nothing is mapped there yet, and anywhere else otherwise.

Whatever happens, each mapping made here covers one hugepage entry and shows its file from offset 0 on
(`shows_attach_offset`).  When the files can be opened, all entries get mapped (`shows_attach_of_canOpen`).
-/

namespace SoftPatchPanel.Hostshmem

open Lib

/-- `len` bytes from `addr` on show a file from `offset` on; no file stands for `/dev/zero`. -/
structure Mapping where
  addr : UInt64
  len : UInt64
  file : Option CStr
  offset : UInt64
deriving DecidableEq

/-- The byte at `v` belongs to the mapping. -/
def Mapping.Has (m : Mapping) (v : UInt64) : Prop := m.addr.toNat ≤ v.toNat ∧ v.toNat < m.addr.toNat + m.len.toNat

instance (m : Mapping) (v : UInt64) : Decidable (m.Has v) := inferInstanceAs (Decidable (_ ∧ _))

/-- The mapping has a byte in the range. -/
def Mapping.Meets (m : Mapping) (addr len : UInt64) : Prop :=
  m.addr.toNat < addr.toNat + len.toNat ∧ addr.toNat < m.addr.toNat + m.len.toNat

instance (m : Mapping) (addr len : UInt64) : Decidable (m.Meets addr len) := inferInstanceAs (Decidable (_ ∧ _))

/-- What an address shows. -/
def shows (maps : List Mapping) (v : UInt64) : Option (Option CStr × UInt64) :=
  (maps.find? (fun m => m.Has v)).map (fun m => (m.file, m.offset + (v - m.addr)))

/-- What the process gets from the kernel. -/
structure Os where
  /-- The metadata file can be mapped. -/
  metadata : Bool
  /-- `/dev/zero` can be opened. -/
  devZero : Bool
  /-- The files that can be opened. -/
  canOpen : CStr → Bool
  /-- Where `mmap` maps when the range it is asked for is taken; `none` for `MAP_FAILED`. -/
  elsewhere : List Mapping → UInt64 → UInt64 → Option UInt64

/-- The address that `mmap` returns. -/
def mmap (os : Os) (maps : List Mapping) (addr len : UInt64) : Option UInt64 :=
  if ∀ m ∈ maps, ¬m.Meets addr len then some addr else os.elsewhere maps addr len

/-- `munmap`, for a range that holds whole mappings. -/
def munmap (maps : List Mapping) (addr len : UInt64) : List Mapping := maps.filter (fun m => ¬m.Meets addr len)

/-- The hugepage entries that `read_hp_metadata` copies into the process. -/
def readHpMetadata (os : Os) (config : Config) : Option (List HpEntry) :=
  if os.metadata then some config.hpEntries else none

/-- The mappings and memsegs a process has after `map_hp_entries`, and whether that returned 0. -/
structure Mapped where
  maps : List Mapping
  memseg : List Memseg
  ok : Bool

/-- The loop of `map_hp_entries`. -/
def mapHpEntriesFrom (os : Os) : List HpEntry → List Mapping → List Memseg → Mapped
  | [], maps, memseg => ⟨maps, memseg, true⟩
  | hp :: hps, maps, memseg =>
    if hp.mz.addr64 = 0 then ⟨maps, memseg, true⟩
    else
      let ms : Memseg := ⟨hp.mz.physAddr, hp.mz.addr64, hp.mz.len, hp.mz.hugepageSz, hp.mz.socketId⟩
      match mmap os maps ms.addr64 ms.len with
      | none => ⟨maps, memseg, false⟩
      | some base =>
        let maps := ⟨base, ms.len, none, 0⟩ :: maps
        if base ≠ ms.addr64 then ⟨maps, memseg, false⟩
        else if os.canOpen hp.path = false then ⟨maps, memseg, false⟩
        else
          let maps := munmap maps ms.addr64 ms.len
          match mmap os maps ms.addr64 ms.len with
          | none => ⟨maps, memseg, false⟩
          | some base =>
            let maps := ⟨base, ms.len, some hp.path, 0⟩ :: maps
            if base ≠ ms.addr64 then ⟨maps, memseg, false⟩
            else mapHpEntriesFrom os hps maps (memseg ++ [ms])

/-- `map_hp_entries`. -/
def mapHpEntries (os : Os) (hps : List HpEntry) (maps : List Mapping) : Mapped :=
  if os.devZero = false then ⟨maps, [], false⟩ else mapHpEntriesFrom os (hps.take hostshmemMaxHugepages) maps []

/-- The address space of a process that started with the mappings `maps` and then reads and maps the metadata. -/
def attach (os : Os) (config : Config) (maps : List Mapping) : List Mapping :=
  match readHpMetadata os config with
  | none => maps
  | some hps => (mapHpEntries os hps maps).maps

/-! ### What gets mapped -/

/-- The hugepage entries in front of the first empty one. -/
def usedEntries (hps : List HpEntry) : List HpEntry := hps.takeWhile (fun hp => hp.mz.addr64 ≠ 0)

/-- Two hugepage entries have no address in common. -/
def HpEntry.Disjoint (a b : HpEntry) : Prop :=
  a.mz.addr64.toNat + a.mz.len.toNat ≤ b.mz.addr64.toNat ∨ b.mz.addr64.toNat + b.mz.len.toNat ≤ a.mz.addr64.toNat

/-- The mapping made for a hugepage entry. -/
def HpEntry.mapping (hp : HpEntry) : Mapping := ⟨hp.mz.addr64, hp.mz.len, some hp.path, 0⟩

section

variable {os : Os} {hp : HpEntry} {hps : List HpEntry} {maps : List Mapping} {memseg : List Memseg}

private theorem mmap_free {addr len : UInt64} (h : ∀ m ∈ maps, ¬m.Meets addr len) : mmap os maps addr len = some addr :=
  ite_cond_eq_true _ _ (eq_true h)

private theorem mapHpEntriesFrom_round (hne : hp.mz.addr64 ≠ 0) (hpos : 0 < hp.mz.len.toNat)
    (hfree : ∀ m ∈ maps, ¬m.Meets hp.mz.addr64 hp.mz.len) :
    (mapHpEntriesFrom os (hp :: hps) maps memseg).maps =
      if os.canOpen hp.path then
        (mapHpEntriesFrom os hps (hp.mapping :: maps)
          (memseg ++ [⟨hp.mz.physAddr, hp.mz.addr64, hp.mz.len, hp.mz.hugepageSz, hp.mz.socketId⟩])).maps
      else ⟨hp.mz.addr64, hp.mz.len, none, 0⟩ :: maps := by
  -- the mapping of `/dev/zero` is the only one that `munmap` takes away
  have hmeets : (⟨hp.mz.addr64, hp.mz.len, none, 0⟩ : Mapping).Meets hp.mz.addr64 hp.mz.len := by
    constructor <;> exact Nat.lt_add_of_pos_right hpos
  have hunmap : munmap (⟨hp.mz.addr64, hp.mz.len, none, 0⟩ :: maps) hp.mz.addr64 hp.mz.len = maps := by
    rw [munmap, List.filter_cons_of_neg (by simpa using hmeets), List.filter_eq_self]
    intro m hm
    simpa using hfree m hm
  cases hopen : os.canOpen hp.path with
  | false => simp [mapHpEntriesFrom, hne, mmap_free hfree, hopen]
  | true => simp [mapHpEntriesFrom, hne, mmap_free hfree, hopen, hunmap, HpEntry.mapping]

/-- The used entries are non-empty and disjoint, and nothing is mapped there yet.  The loop keeps this up. -/
structure Ready (hps : List HpEntry) (maps : List Mapping) : Prop where
  pos : ∀ h ∈ usedEntries hps, 0 < h.mz.len.toNat
  disjoint : (usedEntries hps).Pairwise HpEntry.Disjoint
  free : ∀ h ∈ usedEntries hps, ∀ m ∈ maps, ¬m.Meets h.mz.addr64 h.mz.len

private theorem usedEntries_cons (hne : hp.mz.addr64 ≠ 0) : usedEntries (hp :: hps) = hp :: usedEntries hps := by
  simp [usedEntries, hne]

private theorem Ready.tail (h : Ready (hp :: hps) maps) (hne : hp.mz.addr64 ≠ 0) : Ready hps (hp.mapping :: maps) := by
  obtain ⟨hpos, hdis, hfree⟩ := h
  rw [usedEntries_cons hne] at hpos hdis hfree
  refine ⟨fun a ha => hpos a (by simp [ha]), (List.pairwise_cons.1 hdis).2, fun a ha m hm => ?_⟩
  rcases List.mem_cons.1 hm with rfl | hm
  · rintro ⟨h1, h2⟩
    simp only [HpEntry.mapping] at h1 h2
    rcases (List.pairwise_cons.1 hdis).1 a ha with h | h <;> omega
  · exact hfree a (by simp [ha]) m hm

private theorem mapHpEntriesFrom_new (h : Ready hps maps) :
    ∃ new, (mapHpEntriesFrom os hps maps memseg).maps = new ++ maps ∧
      ∀ m ∈ new, ∃ hp ∈ usedEntries hps, m.addr = hp.mz.addr64 ∧ m.len = hp.mz.len ∧ m.offset = 0 := by
  induction hps generalizing maps memseg with
  | nil => exact ⟨[], rfl, by simp⟩
  | cons hp hps ih =>
    by_cases hne : hp.mz.addr64 = 0
    · exact ⟨[], by simp [mapHpEntriesFrom, hne], by simp⟩
    have htail := h.tail hne
    obtain ⟨hpos, -, hfree⟩ := h
    rw [usedEntries_cons hne] at hpos hfree ⊢
    rw [mapHpEntriesFrom_round hne (hpos hp (by simp)) (hfree hp (by simp))]
    split
    · obtain ⟨new, h1, h2⟩ := ih htail
      refine ⟨new ++ [hp.mapping], by rw [h1]; simp, fun m hm => ?_⟩
      rcases List.mem_append.1 hm with hm | hm
      · obtain ⟨a, ha, h⟩ := h2 m hm
        exact ⟨a, by simp [ha], h⟩
      · rw [List.mem_singleton.1 hm]
        exact ⟨hp, by simp, rfl, rfl, rfl⟩
    · exact ⟨[⟨hp.mz.addr64, hp.mz.len, none, 0⟩], rfl, fun m hm => ⟨hp, by simp, by simp_all⟩⟩

private theorem mapHpEntriesFrom_all (h : Ready hps maps) (hopen : ∀ h ∈ usedEntries hps, os.canOpen h.path) :
    (mapHpEntriesFrom os hps maps memseg).maps = ((usedEntries hps).map HpEntry.mapping).reverse ++ maps := by
  induction hps generalizing maps memseg with
  | nil => rfl
  | cons hp hps ih =>
    by_cases hne : hp.mz.addr64 = 0
    · simp [mapHpEntriesFrom, usedEntries, hne]
    have htail := h.tail hne
    obtain ⟨hpos, -, hfree⟩ := h
    rw [usedEntries_cons hne] at hpos hfree hopen ⊢
    rw [mapHpEntriesFrom_round hne (hpos hp (by simp)) (hfree hp (by simp)), hopen hp (by simp),
      ite_cond_eq_true _ _ (eq_true rfl), ih htail (fun a ha => hopen a (by simp [ha]))]
    simp

/-! ### What the addresses show -/

private theorem Ready.eq_of_has (h : Ready hps maps) {a b : HpEntry} (ha : a ∈ usedEntries hps)
    (hb : b ∈ usedEntries hps) {v : UInt64} (hav : a.mapping.Has v) (hbv : b.mapping.Has v) : a = b := by
  by_contra hne
  have : Std.Symm HpEntry.Disjoint := ⟨fun _ _ => Or.symm⟩
  obtain ⟨h1, h2⟩ := hav
  obtain ⟨h3, h4⟩ := hbv
  simp only [HpEntry.mapping] at h1 h2 h3 h4
  rcases h.disjoint.forall ha hb hne with h | h <;> omega

private theorem Ready.not_has (h : Ready hps maps) (hhp : hp ∈ usedEntries hps) {v : UInt64} (hv : hp.mapping.Has v)
    {m : Mapping} (hm : m ∈ maps) : ¬m.Has v := by
  intro hmv
  obtain ⟨h1, h2⟩ := hv
  obtain ⟨h3, h4⟩ := hmv
  simp only [HpEntry.mapping] at h1 h2
  exact h.free hp hhp m hm ⟨by omega, by omega⟩

variable {config : Config}

/-- Where nothing was mapped before, an address of a hugepage entry shows nothing or a file at the distance of the
address from the start of the entry. -/
theorem shows_attach_offset (hlen : config.hpEntries.length = hostshmemMaxHugepages)
    (h : Ready config.hpEntries maps) (hhp : hp ∈ usedEntries config.hpEntries) {v : UInt64}
    (hv : hp.mapping.Has v) {r : Option CStr × UInt64} (hr : shows (attach os config maps) v = some r) :
    r.2 = v - hp.mz.addr64 := by
  obtain ⟨new, hnew, hall⟩ : ∃ new, attach os config maps = new ++ maps ∧ ∀ m ∈ new,
      ∃ h ∈ usedEntries config.hpEntries, m.addr = h.mz.addr64 ∧ m.len = h.mz.len ∧ m.offset = 0 := by
    by_cases hmeta : os.metadata
    · by_cases hzero : os.devZero
      · simp only [attach, readHpMetadata, mapHpEntries, hmeta, hzero, ↓reduceIte, Bool.true_eq_false]
        rw [List.take_of_length_le (by omega)]
        exact mapHpEntriesFrom_new h
      · exact ⟨[], by simp [attach, readHpMetadata, mapHpEntries, hmeta, hzero], by simp⟩
    · exact ⟨[], by simp [attach, readHpMetadata, hmeta], by simp⟩
  rw [hnew, shows, Option.map_eq_some_iff] at hr
  obtain ⟨m, hm, rfl⟩ := hr
  have hhas : m.Has v := by simpa using List.find?_some hm
  rcases List.mem_append.1 (List.mem_of_find?_eq_some hm) with hin | hin
  · -- a mapping made here covers one entry, and the entries are disjoint
    obtain ⟨a, ha, haddr, hlen', hoff⟩ := hall m hin
    have hav : a.mapping.Has v := by
      rw [Mapping.Has, haddr, hlen'] at hhas
      exact hhas
    rw [hoff, haddr, h.eq_of_has ha hhp hav hv, UInt64.zero_add]
  · exact absurd hhas (h.not_has hhp hv hin)

/-- When all files can be opened, an address of a hugepage entry shows the file of the entry. -/
theorem shows_attach_of_canOpen (hlen : config.hpEntries.length = hostshmemMaxHugepages)
    (h : Ready config.hpEntries maps) (hmeta : os.metadata) (hzero : os.devZero)
    (hopen : ∀ h ∈ usedEntries config.hpEntries, os.canOpen h.path) (hhp : hp ∈ usedEntries config.hpEntries)
    {v : UInt64} (hv : hp.mapping.Has v) :
    shows (attach os config maps) v = some (some hp.path, v - hp.mz.addr64) := by
  have hmaps : attach os config maps = ((usedEntries config.hpEntries).map HpEntry.mapping).reverse ++ maps := by
    simp only [attach, readHpMetadata, mapHpEntries, hmeta, hzero, ↓reduceIte, Bool.true_eq_false]
    rw [List.take_of_length_le (by omega)]
    exact mapHpEntriesFrom_all h hopen
  rw [hmaps, shows]
  cases hfind : (((usedEntries config.hpEntries).map HpEntry.mapping).reverse ++ maps).find? (fun m => m.Has v) with
  | none =>
    have hmem : hp.mapping ∈ ((usedEntries config.hpEntries).map HpEntry.mapping).reverse ++ maps :=
      List.mem_append_left _ (List.mem_reverse.2 (List.mem_map_of_mem hhp))
    exact absurd hv (by simpa using List.find?_eq_none.1 hfind _ hmem)
  | some m =>
    have hhas : m.Has v := by simpa using List.find?_some hfind
    rcases List.mem_append.1 (List.mem_of_find?_eq_some hfind) with hin | hin
    · obtain ⟨a, ha, rfl⟩ := List.mem_map.1 (List.mem_reverse.1 hin)
      rw [h.eq_of_has ha hhp hhas hv]
      simp [HpEntry.mapping]
    · exact absurd hhas (h.not_has hhp hv hin)

end

end SoftPatchPanel.Hostshmem

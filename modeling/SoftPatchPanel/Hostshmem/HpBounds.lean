import SoftPatchPanel.Hostshmem.CacheRuns

/-!
# The bounds of the hugepage entries

The table of pages in `build_config` has 4096 places, the array of hugepage entries 32.  The loop that fills the array
runs over all pages, and the loops that read it look at an entry before they look at the bound.  The accesses of a
sequence of successful calls stay inside exactly when its zones never touch more than 31 hugepages
(`hpInside_iff_touchedPages`).
-/

namespace SoftPatchPanel.Hostshmem

open Lib

/-! ### Accesses -/

/-- The pages that the passes of `build_config` leave in a call. -/
def Config.addPages (config : Config) (a : Add) : List Memseg :=
  match findFreeSlot a.mz config.entry 0 with
  | .error _ => []
  | .ok i =>
    match firstPass (a.env.qsort (config.insert i a.mz).entry) (freePages hostshmemMaxPages) with
    | .error _ => []
    | .ok collected =>
      match secondPass collected with
      | .error _ => []
      | .ok pages => pages

/-- The indices at which the loop of `build_config` writes hugepage entries, from page `i` on. -/
def hpWrites : List Memseg → Nat → List Nat
  | [], _ => []
  | p :: ps, i => if p.addr64 = 0 then hpWrites ps (i + 1) else i :: hpWrites ps (i + 1)

/-- The indices at which the loop of `rte_hostshmem_metadata_dump` reads hugepage entries, from entry `i` on.  When the
array has ended, the entry behind it is read before its index is compared with the bound. -/
def dumpReads : List HpEntry → Nat → List Nat
  | [], i => [i]
  | hp :: hps, i => if hp.mz.addr64 = 0 then [i] else i :: dumpReads hps (i + 1)

/-- The indices at which `map_hp_entries` reads hugepage entries: those of its complete rounds and of the one in which
the loop ends, be it with an empty entry, with an error or at the bound. -/
def mapReads (os : Os) (hps : List HpEntry) (maps : List Mapping) : List Nat :=
  if os.devZero = false then [] else List.range ((mapHpEntries os hps maps).memseg.length + 1)

/-- What is expected of a call: `build_config` writes inside the array, and the two functions that read the array
afterwards read inside it. -/
structure Config.HpInside (config : Config) (a : Add) : Prop where
  writes : ∀ i ∈ hpWrites (config.addPages a) 0, i < hostshmemMaxHugepages
  dump : ∀ i ∈ dumpReads (config.add a).hpEntries 0, i < hostshmemMaxHugepages
  map : ∀ os maps, ∀ i ∈ mapReads os (config.add a).hpEntries maps, i < hostshmemMaxHugepages

/-! ### Bounds -/

private theorem mem_hpWrites {P : List Memseg} (hP : ∀ p ∈ P, p.addr64 ≠ 0) (m i k : Nat) :
    k ∈ hpWrites (P ++ freePages m) i ↔ i ≤ k ∧ k < i + P.length := by
  induction P generalizing i with
  | nil =>
    have hfree : ∀ m i, hpWrites (freePages m) i = [] := by
      intro m
      induction m with
      | zero => exact fun _ => rfl
      | succ m ih => exact fun i => ih (i + 1)
    rw [List.nil_append, hfree]
    simp
  | cons p P ih =>
    rw [List.forall_mem_cons] at hP
    rw [List.cons_append, hpWrites, if_neg hP.1, List.mem_cons, ih hP.2, List.length_cons]
    omega

private theorem usedEntries_cons_of_eq {hp : HpEntry} (h : hp.mz.addr64 = 0) (hps : List HpEntry) :
    usedEntries (hp :: hps) = [] :=
  List.takeWhile_cons_of_neg (by simpa using h)

private theorem usedEntries_cons_of_ne {hp : HpEntry} (h : hp.mz.addr64 ≠ 0) (hps : List HpEntry) :
    usedEntries (hp :: hps) = hp :: usedEntries hps :=
  List.takeWhile_cons_of_pos (by simpa using h)

private theorem length_usedEntries {hps : List HpEntry} {n : Nat}
    (hused : ∀ i hp, i < n → hps[i]? = some hp → hp.mz.addr64 ≠ 0)
    (hempty : ∀ i hp, n ≤ i → hps[i]? = some hp → hp.mz.addr64 = 0) :
    (usedEntries hps).length = min n hps.length := by
  induction hps generalizing n with
  | nil => simp [usedEntries]
  | cons hp hps ih =>
    cases n with
    | zero => rw [usedEntries_cons_of_eq (hempty 0 hp (Nat.le_refl 0) rfl), List.length_nil, Nat.zero_min]
    | succ n =>
      rw [usedEntries_cons_of_ne (hused 0 hp (Nat.succ_pos n) rfl), List.length_cons, List.length_cons,
        @ih n (fun i hp hi => hused (i + 1) hp (by omega)) (fun i hp hi => hempty (i + 1) hp (by omega))]
      omega

private theorem mem_dumpReads (hps : List HpEntry) (i k : Nat) :
    k ∈ dumpReads hps i ↔ i ≤ k ∧ k ≤ i + (usedEntries hps).length := by
  induction hps generalizing i with
  | nil =>
    rw [dumpReads, List.mem_singleton, usedEntries, List.takeWhile_nil, List.length_nil]
    omega
  | cons hp hps ih =>
    by_cases h : hp.mz.addr64 = 0
    · rw [dumpReads, if_pos h, List.mem_singleton, usedEntries_cons_of_eq h, List.length_nil]
      omega
    · rw [dumpReads, if_neg h, List.mem_cons, ih, usedEntries_cons_of_ne h, List.length_cons]
      omega

/-- `map_hp_entries` does not go beyond the entries in front of the first empty one. -/
private theorem length_mapHpEntriesFrom (os : Os) (hps : List HpEntry) (maps : List Mapping) (memseg : List Memseg) :
    (mapHpEntriesFrom os hps maps memseg).memseg.length ≤ memseg.length + (usedEntries hps).length := by
  induction hps generalizing maps memseg with
  | nil => exact Nat.le_add_right _ _
  | cons hp hps ih =>
    by_cases h : hp.mz.addr64 = 0
    · rw [mapHpEntriesFrom, if_pos h]
      exact Nat.le_add_right _ _
    · rw [usedEntries_cons_of_ne h, List.length_cons, mapHpEntriesFrom, if_neg h]
      simp only
      have hnext : ∀ maps' ms, (mapHpEntriesFrom os hps maps' (memseg ++ [ms])).memseg.length ≤
          memseg.length + ((usedEntries hps).length + 1) := by
        intro maps' ms
        have := ih maps' (memseg ++ [ms])
        rw [List.length_append, List.length_singleton] at this
        omega
      split
      · exact Nat.le_add_right _ _
      · split_ifs
        · exact Nat.le_add_right _ _
        · exact Nat.le_add_right _ _
        · split
          · exact Nat.le_add_right _ _
          · split_ifs
            · exact Nat.le_add_right _ _
            · exact hnext _ _

private theorem mapReads_le (os : Os) {hps : List HpEntry} (hlen : hps.length = hostshmemMaxHugepages)
    (maps : List Mapping) {i : Nat} (hi : i ∈ mapReads os hps maps) : i ≤ (usedEntries hps).length := by
  have hle := length_mapHpEntriesFrom os hps maps []
  unfold mapReads mapHpEntries at hi
  split at hi
  · exact absurd hi (by simp)
  · rw [List.take_of_length_le (Nat.le_of_eq hlen), List.mem_range] at hi
    rw [List.length_nil] at hle
    omega

/-! ### One call -/

section

variable {L : Layout} {config : Config}

/-- The zones of a config with their pages `P`; no entry from the number of the pages on is used. -/
private structure Holding (L : Layout) (config : Config) (es E : List Entry) (P : List Memseg) : Prop where
  holds : config.Holds L es E
  packed : Packed L es P
  length : config.hpEntries.length = hostshmemMaxHugepages
  empty : ∀ i hp, P.length ≤ i → config.hpEntries[i]? = some hp → hp.mz.addr64 = 0

private theorem holding_create (L : Layout) (name : CStr) : ∃ es E P, Holding L (Config.create name) es E P := by
  refine ⟨_, _, [], Config.create_holds L name, ⟨by simp, by simp, by simp, by simp, by simp, by simp⟩,
    by simp [Config.create], fun i hp _ hget => ?_⟩
  rw [List.eq_of_mem_replicate (List.mem_of_getElem? hget)]

private theorem Holding.add {es E : List Entry} {P : List Memseg} (h : Holding L config es E P) {a : Add}
    (hq : SortsEntries a.env.qsort) (hZ : GoodZone L a.mz) (hok : config.Succeeds a) :
    ∃ es' E' P' m, Holding L (config.add a) es' E' P' ∧ config.addPages a = P' ++ freePages m ∧
      (usedEntries (config.add a).hpEntries).length = min P'.length hostshmemMaxHugepages ∧
      (config.add a).touchedPages.length = P'.length := by
  have hadd : addMemzoneToMetadata a.env a.mz config = (config.add a, none) := Prod.ext rfl hok
  obtain ⟨i, collected, es', E', P', m, hslot, hfirst, hsecond, hc', hperm, -, hP', hsorted, -, -, hnew⟩ :=
    addMemzoneToMetadata_pages hq h.holds hZ.1 hZ.2 hadd
  have hle : P.length ≤ P'.length :=
    (List.subperm_of_subset h.packed.nodup (subset_of_perm h.packed hP' hperm)).length_le
  obtain ⟨hlen, hused, hrest⟩ := writeHpEntries_spec (config.add a).memsegCache hP'.ne_zero m 0 config.hpEntries
  rw [← hnew] at hlen hused hrest
  have hempty : ∀ i hp, P'.length ≤ i → (config.add a).hpEntries[i]? = some hp → hp.mz.addr64 = 0 := by
    intro i hp hi hget
    rw [hrest i (Or.inr (by omega))] at hget
    exact h.empty i hp (by omega) hget
  have hpages : config.addPages a = P' ++ freePages m := by
    rw [Config.addPages, hslot]
    simp only [hfirst, hsecond]
  refine ⟨es', E', P', m, ⟨hc', hP', hlen.trans h.length, hempty⟩, hpages, ?_, ?_⟩
  · rw [← hlen.trans h.length]
    refine length_usedEntries (fun k hp hk hget => ?_) hempty
    have hlt : k < config.hpEntries.length := hlen ▸ (List.getElem?_eq_some_iff.1 hget).1
    obtain ⟨hp', hget', haddr, -⟩ := hused k P'[k] (List.getElem?_eq_getElem hk) (by omega)
    rw [Nat.zero_add, hget] at hget'
    cases hget'
    rw [haddr]
    exact hP'.ne_zero _ (List.getElem_mem hk)
  · rw [← pageList_eq hc' hP' hsorted, Config.pageList, List.length_insertionSort]

/-- The accesses of a call stay inside exactly when the zones of the new config touch less than 32 hugepages. -/
private theorem hpInside_iff {es E : List Entry} {P : List Memseg} (h : Holding L config es E P) {a : Add}
    (hq : SortsEntries a.env.qsort) (hZ : GoodZone L a.mz) (hok : config.Succeeds a) :
    config.HpInside a ↔ (config.add a).touchedPages.length < hostshmemMaxHugepages := by
  obtain ⟨es', E', P', m, h', hpages, hused, htouched⟩ := h.add hq hZ hok
  rw [htouched]
  constructor
  · intro hinside
    have hlast := hinside.dump (usedEntries (config.add a).hpEntries).length
      ((mem_dumpReads _ _ _).2 ⟨Nat.zero_le _, by omega⟩)
    omega
  · intro hlt
    refine ⟨fun i hi => ?_, fun i hi => ?_, fun os maps i hi => ?_⟩
    · rw [hpages, mem_hpWrites h'.packed.ne_zero] at hi
      omega
    · have := ((mem_dumpReads _ _ _).1 hi).2
      omega
    · have := mapReads_le os h'.length maps hi
      omega

end

/-- In a sequence of successful calls, the hugepage entries are written and read inside their array exactly when after
each call the zones touch at most 31 hugepages. -/
theorem hpInside_iff_touchedPages (L : Layout) {name : CStr} {as : List Add} (hq : ∀ a ∈ as, SortsEntries a.env.qsort)
    (hZ : ∀ a ∈ as, GoodZone L a.mz) (hok : Along Config.add Config.Succeeds (Config.create name) as) :
    Along Config.add Config.HpInside (Config.create name) as ↔
      Along Config.add (fun config a => (config.add a).touchedPages.length < hostshmemMaxHugepages)
        (Config.create name) as := by
  have hrun : Along Config.add (fun config a => (SortsEntries a.env.qsort ∧ GoodZone L a.mz) ∧ config.Succeeds a)
      (Config.create name) as :=
    (Along.of_forall (fun a ha _ => ⟨hq a ha, hZ a ha⟩) _).and hok
  refine Along.congr (I := fun config => ∃ es E P, Holding L config es E P) ?_ ?_ (holding_create L name) hrun
  · rintro config a ⟨es, E, P, h⟩ ⟨⟨hq, hZ⟩, hok⟩
    obtain ⟨es', E', P', -, h', -⟩ := h.add hq hZ hok
    exact ⟨es', E', P', h'⟩
  · rintro config a ⟨es, E, P, h⟩ ⟨⟨hq, hZ⟩, hok⟩
    exact hpInside_iff h hq hZ hok

/-! ### A memseg of forty pages -/

/-- One memseg of forty pages of 2 MB. -/
def fortyPages : Layout where
  segs := [⟨0x7f0000000000, 0x100000000, 0x5000000, 0x200000⟩]
  pow2 := by simpa using ⟨21, rfl⟩
  virt_aligned := by simp only [List.mem_singleton, forall_eq]; decide
  phys_aligned := by simp only [List.mem_singleton, forall_eq]; decide
  len_aligned := by simp only [List.mem_singleton, forall_eq]; decide
  virt_end := by simp
  phys_end := by simp
  virt_disjoint := List.pairwise_singleton _ _
  phys_disjoint := List.pairwise_singleton _ _

/-- The call that adds the first `n` pages as one zone; each page has a file of its own. -/
def addFirst (n : Fin 41) : Add where
  env :=
    { qsort := sortEntries
      hugefile := fun v => some ("/mnt/huge/rtemap_".toList ++ formatU ((v - 0x7f0000000000) >>> 21).toNat, 0)
      malloc := true }
  mz :=
    { addr64 := 0x7f0000000000, physAddr := 0x100000000, len := 0x200000 * UInt64.ofNat n, hugepageSz := 0x200000 }

theorem hpInside_thirtyOnePages : (Config.create []).HpInside (addFirst 31) := by
  refine ((@hpInside_iff_touchedPages fortyPages [] [addFirst 31] ?_ ?_ (by decide +kernel)).2 (by decide +kernel)).1
  · simpa [addFirst] using sortEntries_sorts
  · simp only [List.mem_singleton, forall_eq]
    exact ⟨⟨_, List.mem_singleton_self _, by decide, by decide, by decide, by decide⟩, by decide⟩

/-- A zone of 33 pages is added with success, and entry 32 is written; after a zone of 32 pages, both readers read
entry 32. -/
theorem hp_overrun :
    ((Config.create []).Succeeds (addFirst 33) ∧ 32 ∈ hpWrites ((Config.create []).addPages (addFirst 33)) 0) ∧
    (Config.create []).Succeeds (addFirst 32) ∧
    32 ∈ dumpReads ((Config.create []).add (addFirst 32)).hpEntries 0 ∧
    32 ∈ mapReads { openOs with canOpen := fun _ => true } ((Config.create []).add (addFirst 32)).hpEntries [] := by
  decide +kernel

end SoftPatchPanel.Hostshmem

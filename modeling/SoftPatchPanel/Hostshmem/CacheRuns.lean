import SoftPatchPanel.Hostshmem.HandOver
import SoftPatchPanel.Hostshmem.Shape

/-!
# The cache lists each hugepage once

Read up to its first empty entry, the memseg cache should be the hugepages of the entries in their order, with maximal
runs of one file merged.  `build_config` writes the runs over a copy of the old cache and clears the entry behind them
only when the last page was merged into its run.  So an old entry comes up behind the runs when there are fewer runs
than before and the last one is a single page (`cacheExact_iff_tailClear`).
-/

namespace SoftPatchPanel.Hostshmem

open Lib

/-- The hugepages that the entries touch, in their order on the device. -/
def Config.pageList (config : Config) : List Memseg := config.touchedPages.insertionSort PageLe

/-- The pieces of the files that the hugepages are, in this order. -/
def Config.pieces (L : Layout) (file : Seg → CStr) (config : Config) : List (Piece CStr) :=
  pagePieces (L.backing file) config.pageList

/-- The cache up to its first empty entry, as QEMU is told about it. -/
def Config.exported (config : Config) : List (Piece CStr) :=
  (config.memsegCache.takeWhile (fun c => c.len ≠ 0)).map CacheEntry.piece

/-- The exported pieces are the maximal runs of the hugepages, and their lengths add up to those of the hugepages. -/
structure Config.CacheExact (L : Layout) (file : Seg → CStr) (config : Config) : Prop where
  runs : config.exported = coalesce (config.pieces L file)
  total : total config.exported = sizeSum config.pageList

/-- The pieces of the files that the hugepages of some zones are, in the order of the device. -/
def zonePieces (L : Layout) (file : Seg → CStr) (zones : List Memzone) : List (Piece CStr) :=
  pagePieces (L.backing file) ((zones.flatMap Memzone.pages).dedup.insertionSort PageLe)

/-- With the new zone, the last page continues a run, or the entry of the cache behind the runs is empty already. -/
def Config.TailClear (L : Layout) (file : Seg → CStr) (config : Config) (a : Add) : Prop :=
  lastContinues (zonePieces L file (a.mz :: config.zones)) ∨
    (config.memsegCache.getD (coalesce (zonePieces L file (a.mz :: config.zones))).length {}).len = 0

instance (L : Layout) (file : Seg → CStr) (config : Config) (a : Add) : Decidable (config.TailClear L file a) :=
  inferInstanceAs (Decidable (_ ∨ _))

section

variable {L : Layout} {file : Seg → CStr} {config : Config}

/-! ### The hugepages in their order -/

instance : Std.Total PageLe := ⟨fun p q => by unfold PageLe; omega⟩

instance : IsTrans Memseg PageLe := ⟨fun p q r hpq hqr => by unfold PageLe at *; omega⟩

/-- The pages that the passes leave are those of the zones, in order. -/
private theorem sort_pages_eq {es : List Entry} {P : List Memseg} {zones : List Memzone} (hP : Packed L es P)
    (hsorted : P.Pairwise PageLe) (hzones : zones.Perm (es.map Entry.mz)) :
    (zones.flatMap Memzone.pages).dedup.insertionSort PageLe = P := by
  have hmem : ∀ p, p ∈ (zones.flatMap Memzone.pages).dedup ↔ p ∈ P := by
    intro p
    rw [List.mem_dedup, List.mem_flatMap]
    constructor
    · rintro ⟨mz, hmz, hp⟩
      obtain ⟨e, he, rfl⟩ := List.mem_map.1 (hzones.subset hmz)
      exact (hP.infix_of_zone e he).subset hp
    · intro hp
      obtain ⟨e, he, hpe⟩ := hP.mem_zone p hp
      exact ⟨e.mz, hzones.symm.subset (List.mem_map_of_mem he), hpe⟩
  have hperm : (zones.flatMap Memzone.pages).dedup.Perm P :=
    (List.perm_ext_iff_of_nodup (List.nodup_dedup _) hP.nodup).2 hmem
  refine List.Perm.eq_of_pairwise (fun p q hp hq hpq hqp => ?_) (List.pairwise_insertionSort _ _) hsorted
    ((List.perm_insertionSort _ _).trans hperm)
  have hpP := hP.isPage p (hperm.subset ((List.perm_insertionSort _ _).subset hp))
  -- pages at one physical address are the same
  rcases hpP.eq_or_disjoint (hP.isPage q hq) with h | ⟨-, h⟩
  · exact h
  · have h1 := hpP.len_pos
    have h2 := (hP.isPage q hq).len_pos
    unfold PageLe at hpq hqp
    omega

private theorem filter_entry_eq {es E : List Entry} (hc : config.Holds L es E) :
    config.entry.filter (fun e => e.mz.addr64 ≠ 0) = es := by
  rw [hc.entry, List.filter_append, List.filter_eq_self.2, List.filter_eq_nil_iff.2, List.append_nil]
  · exact fun e he => by simpa using hc.free e he
  · exact fun e he => by simpa using hc.zones.ne_zero e he

/-- The pages that the passes leave are the touched ones, in order. -/
theorem pageList_eq {es E : List Entry} {P : List Memseg} (hc : config.Holds L es E) (hP : Packed L es P)
    (hsorted : P.Pairwise PageLe) : config.pageList = P := by
  rw [Config.pageList, Config.touchedPages, filter_entry_eq hc, ← sort_pages_eq hP hsorted (List.Perm.refl _),
    List.flatMap_map]

private theorem zones_eq {es E : List Entry} (hc : config.Holds L es E) : config.zones = es.map Entry.mz := by
  rw [Config.zones, List.filter_map, ← filter_entry_eq hc]
  rfl

private theorem hugefile_eq_backing {env : Env} (hE : GoodEnv L file env) {p : Memseg} (hp : IsPage L p) :
    env.hugefile p.addr64 = L.backing file p.addr64 ∧ (L.backing file p.addr64).isSome := by
  obtain ⟨-, lines, hlines, hfile⟩ := hE
  have hpos := hp.len_pos
  obtain ⟨s, hs, j, haddr, -, hlen, hj, -⟩ := hp
  rw [Nat.add_mul, Nat.one_mul] at hj
  rw [hfile]
  simp only
  rw [getHugefileByVirtAddr_eq hlines hs (by omega) (by omega), Layout.backing_eq hs (by omega) (by omega)]
  exact ⟨rfl, rfl⟩

theorem pagePieces_eq_backing {env : Env} (hE : GoodEnv L file env) {P : List Memseg} (hP : ∀ p ∈ P, IsPage L p) :
    pagePieces env.hugefile P = pagePieces (L.backing file) P := by
  refine List.map_congr_left fun p hp => ?_
  unfold Memseg.cacheEntry
  rw [(hugefile_eq_backing hE (hP p hp)).1]

/-! ### The entry behind the runs -/

private theorem takeWhile_runs {ms₀ ms : List CacheEntry} {Q : List (Piece CStr)} (h : CacheOf ms₀ ms Q)
    (hlen : ms₀.length = hostshmemMaxPages) (hpos : ∀ s ∈ Q, 0 < s.len) :
    (ms.takeWhile (fun c => c.len ≠ 0)).map CacheEntry.piece = coalesce Q ↔
      lastContinues Q ∨ (ms₀.getD (coalesce Q).length {}).len = 0 := by
  have hruns : ∀ c ∈ ms.take (coalesce Q).length, c.len ≠ 0 := by
    intro c hc h0
    have := pos_of_mem_coalesce hpos (y := c.piece) (by rw [← h.runs]; exact List.mem_map_of_mem hc)
    simp [CacheEntry.piece, h0] at this
  have hsplit : (ms.takeWhile (fun c => c.len ≠ 0)).map CacheEntry.piece =
      coalesce Q ++ ((ms.drop (coalesce Q).length).takeWhile (fun c => c.len ≠ 0)).map CacheEntry.piece := by
    conv => lhs; rw [← List.take_append_drop (coalesce Q).length ms]
    rw [List.takeWhile_append_of_pos (fun c hc => by simpa using hruns c hc), List.map_append, h.runs]
  -- nothing follows the runs when the next entry is empty
  have hnext : (ms.getD (coalesce Q).length {}).len = 0 ↔
      lastContinues Q ∨ (ms₀.getD (coalesce Q).length {}).len = 0 := by
    by_cases hlt : (coalesce Q).length < hostshmemMaxPages
    · rw [List.getD_eq_getElem?_getD, h.next hlt, List.getD_eq_getElem?_getD]
      cases lastContinues Q <;> simp
    · rw [List.getD_eq_default _ _ (by rw [h.length]; omega), List.getD_eq_default _ _ (by rw [hlen]; omega)]
      simp
  rw [hsplit, ← hnext, List.append_right_eq_self, List.map_eq_nil_iff]
  cases hdrop : ms.drop (coalesce Q).length with
  | nil =>
    rw [List.getD_eq_default _ _ (List.drop_eq_nil_iff.1 hdrop)]
    simp
  | cons c rest =>
    have hc : ms[(coalesce Q).length]? = some c := by
      have := congrArg (·[0]?) hdrop
      simpa using this
    rw [List.getD_eq_getElem?_getD, hc]
    by_cases h0 : c.len = 0 <;> simp [h0]

/-! ### One call and any sequence of calls -/

private theorem cacheExact_add_iff {a : Add} (hc : ∃ es E, config.Holds L es E) (hE : GoodEnv L file a.env)
    (hZ : GoodZone L a.mz) (hok : config.Succeeds a) :
    (∃ es E, (config.add a).Holds L es E) ∧ ((config.add a).CacheExact L file ↔ config.TailClear L file a) := by
  obtain ⟨es, E, hc⟩ := hc
  have hadd : addMemzoneToMetadata a.env a.mz config = (config.add a, none) := Prod.ext rfl hok
  obtain ⟨es', E', P, m, hc', hzones, -, hP, hsorted, -, hfour, -⟩ :=
    addMemzoneToMetadata_packed hE.1 hc hZ.1 hZ.2 hadd
  refine ⟨⟨es', E', hc'⟩, ?_⟩
  have hlist : (config.add a).pageList = P := pageList_eq hc' hP hsorted
  have hpieces : (config.add a).pieces L file = pagePieces a.env.hugefile P := by
    rw [Config.pieces, hlist, pagePieces_eq_backing hE hP.isPage]
  have hsome : ∀ p ∈ P, (a.env.hugefile p.addr64).isSome := by
    intro p hp
    rw [(hugefile_eq_backing hE (hP.isPage p hp)).1]
    exact (hugefile_eq_backing hE (hP.isPage p hp)).2
  have hpos : ∀ s ∈ pagePieces a.env.hugefile P, 0 < s.len := by
    intro s hs
    obtain ⟨p, hp, rfl⟩ := List.mem_map.1 hs
    obtain ⟨r, hr⟩ := Option.isSome_iff_exists.1 (hsome p hp)
    rw [cacheEntry_of_some hr]
    exact (hP.isPage p hp).len_pos
  have hcache := (CacheOf.start hc.cache).fourthPass hP.used (by simpa using hP.sizeSum_lt) m hfour
  rw [List.nil_append] at hcache
  have hiff := takeWhile_runs hcache hc.cache hpos
  have hnew : zonePieces L file (a.mz :: config.zones) = pagePieces a.env.hugefile P := by
    have hperm : (a.mz :: config.zones).Perm (es'.map Entry.mz) := by
      rw [zones_eq hc]
      exact (List.perm_append_singleton _ _).symm.trans hzones.symm
    rw [zonePieces, sort_pages_eq hP hsorted hperm, pagePieces_eq_backing hE hP.isPage]
  unfold Config.TailClear
  rw [hnew, ← hiff]
  constructor
  · intro h
    have := h.runs
    rwa [hpieces] at this
  · intro h
    refine ⟨by rw [hpieces]; exact h, ?_⟩
    rw [Config.exported, h, total_coalesce, hlist, total_pagePieces hsome]

end

/-- After every one of a sequence of successful calls the cache is exact, exactly when at each call the last page of the
zones with the new one continues a run, or the entry of the cache behind the runs is empty. -/
theorem cacheExact_iff_tailClear (L : Layout) (file : Seg → CStr) (name : CStr) {as : List Add}
    (hE : ∀ a ∈ as, GoodEnv L file a.env) (hZ : ∀ a ∈ as, GoodZone L a.mz)
    (hok : Along Config.add Config.Succeeds (Config.create name) as) :
    (∀ k, ((as.take k).foldl Config.add (Config.create name)).CacheExact L file) ↔
      Along Config.add (Config.TailClear L file) (Config.create name) as := by
  have hstart : (Config.create name).CacheExact L file := by
    have hused : (Config.create name).entry.filter (fun e => e.mz.addr64 ≠ 0) = [] := by
      rw [List.filter_eq_nil_iff]
      intro e he
      rw [List.eq_of_mem_replicate he]
      decide
    have hlist : (Config.create name).pageList = [] := by
      rw [Config.pageList, Config.touchedPages, hused]
      rfl
    have hexp : (Config.create name).exported = [] := rfl
    refine ⟨?_, ?_⟩
    · rw [hexp, Config.pieces, hlist]
      rfl
    · rw [hexp, hlist]
      rfl
  have hrun : Along Config.add (fun config a => (GoodEnv L file a.env ∧ GoodZone L a.mz) ∧ config.Succeeds a)
      (Config.create name) as :=
    (Along.of_forall (fun a ha _ => ⟨hE a ha, hZ a ha⟩) _).and hok
  exact forall_take_iff_along (I := fun config => ∃ es E, config.Holds L es E) (P := Config.CacheExact L file)
    (fun hI ha => (cacheExact_add_iff hI ha.1.1 ha.1.2 ha.2).1)
    (fun hI ha _ => (cacheExact_add_iff hI ha.1.1 ha.1.2 ha.2).2) ⟨_, _, Config.create_holds L name⟩ hrun hstart

/-! ### A memseg of five pages -/

/-- One memseg of five pages of 2 MB. -/
def fivePages : Layout where
  segs := [⟨0x7f0000000000, 0x100000000, 0xa00000, 0x200000⟩]
  pow2 := by simpa using ⟨21, rfl⟩
  virt_aligned := by simp only [List.mem_singleton, forall_eq]; decide
  phys_aligned := by simp only [List.mem_singleton, forall_eq]; decide
  len_aligned := by simp only [List.mem_singleton, forall_eq]; decide
  virt_end := by simp
  phys_end := by simp
  virt_disjoint := List.pairwise_singleton _ _
  phys_disjoint := List.pairwise_singleton _ _

def fivePagesFile (_ : Seg) : CStr := rtemap0

def fivePagesLines : List MapsLine := [⟨0x7f0000000000, 0x7f0000a00000, some rtemap0⟩]

private theorem fivePages_showsMaps : ShowsMaps fivePages fivePagesFile fivePagesLines := by
  constructor
  · intro s hs
    rw [List.mem_singleton.1 hs]
    decide +kernel
  · intro line hline s hs _ _
    rw [List.mem_singleton.1 hline, List.mem_singleton.1 hs]
    decide +kernel

def fivePagesEnv : Env :=
  { qsort := sortEntries, hugefile := fun v => getHugefileByVirtAddr v fivePagesLines, malloc := true }

private theorem fivePagesEnv_good : GoodEnv fivePages fivePagesFile fivePagesEnv :=
  ⟨sortEntries_sorts, fivePagesLines, fivePages_showsMaps, rfl⟩

/-- The call that adds a zone of 4 kB at the start of page `i`. -/
def addPage (i : Fin 5) : Add :=
  { env := fivePagesEnv
    mz := { addr64 := 0x7f0000000000 + 0x200000 * UInt64.ofNat i, physAddr := 0x100000000 + 0x200000 * UInt64.ofNat i,
            len := 0x1000, hugepageSz := 0x200000 } }

private theorem addPage_goodZone (i : Fin 5) : GoodZone fivePages (addPage i).mz := by
  refine ⟨⟨_, List.mem_singleton_self _, ?_, ?_, ?_, ?_⟩, ?_⟩ <;> revert i <;> decide

theorem cacheExact_of_neighbours :
    ((([0, 2, 1] : List (Fin 5)).map addPage).foldl Config.add (Config.create [])).CacheExact fivePages
      fivePagesFile := by
  have h := @cacheExact_iff_tailClear fivePages fivePagesFile [] (([0, 2, 1] : List (Fin 5)).map addPage)
    (by simp [addPage, fivePagesEnv_good]) (by simp [addPage_goodZone]) (by decide +kernel)
  exact h.2 (by decide +kernel) 3

/-- Page 1 joins the runs of pages 0 and 2, and the old entry of page 4 stays in the cache behind the new one. -/
theorem lastPage_exported_twice :
    (GoodEnv fivePages fivePagesFile fivePagesEnv ∧ (∀ i, GoodZone fivePages (addPage i).mz) ∧
        Along Config.add Config.Succeeds (Config.create []) (([0, 2, 4, 1] : List (Fin 5)).map addPage)) ∧
      ((([0, 2, 4, 1] : List (Fin 5)).map addPage).foldl Config.add (Config.create [])).exported =
        [⟨rtemap0, 0, 0x600000⟩, ⟨rtemap0, 0x800000, 0x200000⟩, ⟨rtemap0, 0x800000, 0x200000⟩] ∧
      ¬((([0, 2, 4, 1] : List (Fin 5)).map addPage).foldl Config.add (Config.create [])).CacheExact fivePages
        fivePagesFile := by
  have hexp : ((([0, 2, 4, 1] : List (Fin 5)).map addPage).foldl Config.add (Config.create [])).exported =
      [⟨rtemap0, 0, 0x600000⟩, ⟨rtemap0, 0x800000, 0x200000⟩, ⟨rtemap0, 0x800000, 0x200000⟩] := by decide +kernel
  have hsize : sizeSum ((([0, 2, 4, 1] : List (Fin 5)).map addPage).foldl Config.add (Config.create [])).pageList =
      0x800000 := by decide +kernel
  refine ⟨⟨fivePagesEnv_good, addPage_goodZone, by decide +kernel⟩, hexp, fun h => ?_⟩
  have := h.total
  rw [hexp, hsize] at this
  exact absurd this (by decide)

end SoftPatchPanel.Hostshmem
